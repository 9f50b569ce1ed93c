/-
FprimeTopologyAnalysis.RateInference — rate-group frequencies from C++ and
wiring (`infer_rate_groups` in `rate_groups.py`).

A rate-group driver's base frequency is that of the timer wired to it; its
divisor set gives each of its cycle outputs a fraction of that, and so does
it the rate group at the other end. From the groups the frequencies spread
through their members (`RatesExact`), and a queued instance is drained as
often as its `run` and `schedIn` ports are entered.

Rates are exact rationals, where the source has floats: there a quotient and
a sum are rounded, a sum shows its order in the last digits, and two timers
of one exact frequency can differ as floats.

`inference_exact` says what comes out. A group that two drivers are wired
to gets the frequency that was written last, so only there can the order of
the instances be seen (`Unambiguous`). A cycle output's own rate is never
overwritten: its end has an index, and the propagated rates are those of
ports.
-/
import FprimeTopologyAnalysis.CppRateConfig
import FprimeTopologyAnalysis.DrainThread
import FprimeTopologyAnalysis.RatesExact

namespace FprimeTopologyAnalysis

open Library

/-! ## The inference -/

/-- `RATE_GROUP_TYPES`. -/
def rateGroupTypes : List String := ["Svc.ActiveRateGroup", "Svc.PassiveRateGroup"]

/-- `RATE_GROUP_DRIVER_TYPE`. -/
def rateGroupDriverType : String := "Svc.RateGroupDriver"

/-- `DRIVER_CYCLE_PORT`. -/
def driverCyclePort : String := "CycleOut"

/-- `RateInference`. -/
structure RateInference where
  rateGroups : Dict String ℚ
  productionRateHz : Dict String ℚ
  consumptionRateHz : Dict String ℚ

/-- Why the inference raises: a literal, an index below the divisor set, or
a table that lacks what is asked for. -/
inductive InferError where
  | config (e : PyError)
  | indexError
  | propagate (e : PropagateError)
  deriving DecidableEq

/-- `name.rsplit(".", 1)[-1]`. -/
def shortInstance (name : String) : String :=
  String.ofList (name.toList.reverse.takeWhile fun c => c ≠ '.').reverse

/-- `divisors[index]`, where an index below zero counts from the end. -/
def divisorAt (divisors : List Nat) (index : Int) : Option Nat :=
  if index < 0 then
    if index + divisors.length < 0 then none else divisors[(index + divisors.length).toNat]?
  else divisors[index.toNat]?

/-- `_driver_divisors`. -/
def CppRateConfig.driverDivisors (config : CppRateConfig) (driver : String) : Option (List Nat) :=
  match (config.driverSets.get? (shortInstance driver)).bind config.dividerSets.get? with
  | some divisors => some divisors
  | none =>
    match config.dividerSets.values with
    | [divisors] => some divisors
    | _ => none

namespace LoadedTopology

variable (g : LoadedTopology) (config : CppRateConfig)

/-- `_driver_base_hz`. The default is the one exact frequency of all the timers. -/
def driverBaseHz (driver : String) : Option ℚ :=
  let incoming := g.connectionList.filter fun c =>
    c.dest.port.inst = driver ∧ lowerName c.dest.port.port = "cyclein"
  match incoming.findSome? fun c => config.timerHz.get? (shortInstance c.source.port.inst) with
  | some hz => some hz
  | none =>
    match config.baseHz with
    | [base] => some base
    | _ => none

/-- `drivers`. -/
def drivers : List String :=
  (g.instances.entries.filter fun e => e.2.componentName = rateGroupDriverType).map Prod.fst

/-- The frequency at which a driver with this base and these divisors ticks
the rate group behind a connection, if it does: the exact quotient. -/
def drivenHz (driver : String) (base : ℚ) (divisors : List Nat) (c : Connection) :
    Except InferError (Option ℚ) :=
  match c.source.index with
  | none => .ok none
  | some index =>
    if c.source.port.inst ≠ driver ∨ c.source.port.port.str ≠ driverCyclePort
        ∨ (divisors.length : Int) ≤ index then
      .ok none
    else
      match g.instances.get? c.dest.port.inst with
      | none => .error (.propagate (.keyError c.dest.port.inst))
      | some info =>
        if info.componentName ∉ rateGroupTypes then
          .ok none
        else
          match divisorAt divisors index with
          | none => .error .indexError
          | some divisor => .ok (if divisor = 0 then none else some (base / divisor))

/-- `result.rate_groups` and `result.production_rate_hz`, as the loop over
the drivers has them. -/
abbrev Driven := Dict String ℚ × Dict String ℚ

/-- The two assignments at the end of the loop's body. -/
def recordDriven (acc : Driven) (e : Connection × ℚ) : Driven :=
  (acc.1.set e.1.dest.port.inst e.2, acc.2.set e.1.source.str e.2)

/-- The body of the loop over the connections. -/
def addDriven (driver : String) (base : ℚ) (divisors : List Nat) (acc : Driven) (c : Connection) :
    Except InferError Driven :=
  match g.drivenHz driver base divisors c with
  | .error e => .error e
  | .ok none => .ok acc
  | .ok (some hz) => .ok (recordDriven acc (c, hz))

/-- The body of the loop over the drivers. -/
def addDriver (acc : Driven) (driver : String) : Except InferError Driven :=
  match g.driverBaseHz config driver, config.driverDivisors driver with
  | some base, some divisors => g.connectionList.foldlM (g.addDriven driver base divisors) acc
  | _, _ => .ok acc

/-- `drain_rates`. -/
def drainRates (entryRates : Dict PortKey ℚ) (name : String) : List ℚ :=
  (entryRates.entries.filter fun e =>
    e.1.inst = name ∧ lowerName e.1.port ∈ queuedDrainPorts).map Prod.snd

/-- The loop over the instances. The sums are exact. -/
def consumptionRates (entryRates : Dict PortKey ℚ) : Dict String ℚ :=
  g.instances.entries.foldl (fun rates e =>
    if e.2.kind ≠ .queued ∨ drainRates entryRates e.1 = [] then rates
    else rates.set e.1 (drainRates entryRates e.1).sum) ∅

/-- What `infer_rate_groups` does with the configuration it has read. -/
def inferFrom : Except InferError RateInference :=
  match g.drivers.foldlM (g.addDriver config) (∅, ∅) with
  | .error e => .error e
  | .ok (groups, production) =>
    match g.propagateMemberRates groups production with
    | .error e => .error (.propagate e)
    | .ok (entryRates, production) => .ok ⟨groups, production, g.consumptionRates entryRates⟩

/-- `infer_rate_groups`, from the texts of the source files. -/
def inferRateGroups (classes : CharClasses) (sources : List (Option (List Char))) :
    Except InferError RateInference :=
  match readCppRateConfig classes sources with
  | .error e => .error (.config e)
  | .ok config => g.inferFrom config

/-! ## Which connections drive which groups -/

/-- A rate-group driver with a base frequency and divisors, and the output
`index` of a connection out of its cycle port that has a divisor. -/
structure Cycles (c : Connection) (base : ℚ) (divisors : List Nat) (index : Int) : Prop where
  mem : c ∈ g.connectionList
  port : c.source.port.port.str = driverCyclePort
  driver : ∃ info, g.instances.get? c.source.port.inst = some info
    ∧ info.componentName = rateGroupDriverType
  ofBase : g.driverBaseHz config c.source.port.inst = some base
  ofDivisors : config.driverDivisors c.source.port.inst = some divisors
  ofIndex : c.source.index = some index
  below : index < divisors.length

/-- `c` is wired to a rate group and ticks it `hz` times a second. -/
def Drives (c : Connection) (hz : ℚ) : Prop :=
  ∃ base divisors index, g.Cycles config c base divisors index
    ∧ (∃ info, g.instances.get? c.dest.port.inst = some info ∧ info.componentName ∈ rateGroupTypes)
    ∧ ∃ divisor, divisorAt divisors index = some divisor ∧ 0 < divisor ∧ hz = base / divisor

/-- What the cycles lead to is in the graph, and a rate group's divisor is
not counted from beyond the set's other end. -/
def CyclesRead : Prop :=
  ∀ c base divisors index, g.Cycles config c base divisors index →
    ∃ info, g.instances.get? c.dest.port.inst = some info
      ∧ (info.componentName ∈ rateGroupTypes → 0 ≤ index + divisors.length)

/-- An output ticks at one frequency, wherever it leads. -/
theorem Drives.same_source {g : LoadedTopology} {config : CppRateConfig} {c c' : Connection}
    {hz hz' : ℚ} (h : g.Drives config c hz) (h' : g.Drives config c' hz')
    (hsource : c.source = c'.source) : hz = hz' := by
  obtain ⟨base, divisors, index, hc, _, divisor, hat, _, rfl⟩ := h
  obtain ⟨base', divisors', index', hc', _, divisor', hat', _, rfl⟩ := h'
  obtain rfl := Option.some.inj (hc.ofBase.symm.trans (hsource ▸ hc'.ofBase :))
  obtain rfl := Option.some.inj (hc.ofDivisors.symm.trans (hsource ▸ hc'.ofDivisors))
  obtain rfl := Option.some.inj (hc.ofIndex.symm.trans (hsource ▸ hc'.ofIndex))
  obtain rfl := Option.some.inj (hat.symm.trans hat')
  rfl

/-! ## The loop over the drivers -/

variable {g config}

theorem mem_drivers {driver : String} :
    driver ∈ g.drivers ↔ ∃ info, g.instances.get? driver = some info
      ∧ info.componentName = rateGroupDriverType := by
  simp only [drivers, List.mem_map, List.mem_filter, decide_eq_true_eq, Prod.exists,
    exists_and_right, exists_eq_right, Dict.get?_eq_some_iff]

theorem divisorAt_eq_none_iff {divisors : List Nat} {index : Int} (h : index < divisors.length) :
    divisorAt divisors index = none ↔ index + divisors.length < 0 := by
  unfold divisorAt
  split
  · split
    · simp [*]
    · simp
      omega
  · simp
    omega

/-- What one driver records of a connection. -/
def drivenBy (g : LoadedTopology) (config : CppRateConfig) (driver : String) (c : Connection) :
    Except InferError (List (Connection × ℚ)) :=
  match g.driverBaseHz config driver, config.driverDivisors driver with
  | some base, some divisors => (g.drivenHz driver base divisors c).map fun hz =>
      hz.toList.map fun hz => (c, hz)
  | _, _ => .ok []

/-- What all drivers record, in order. -/
def allDriven (g : LoadedTopology) (config : CppRateConfig) :
    Except InferError (List (Connection × ℚ)) :=
  SimplePaths.collect (fun driver => SimplePaths.collect (g.drivenBy config driver) g.connectionList)
    g.drivers

theorem addDriver_eq (acc : Driven) (driver : String) :
    g.addDriver config acc driver
      = (SimplePaths.collect (g.drivenBy config driver) g.connectionList).map fun es =>
          es.foldl recordDriven acc := by
  unfold addDriver
  have hnone : (∀ c ∈ g.connectionList, g.drivenBy config driver c = .ok []) →
      SimplePaths.collect (g.drivenBy config driver) g.connectionList = .ok [] := by
    intro h
    generalize g.connectionList = cs at h
    induction cs with
    | nil => rfl
    | cons c cs ih =>
      rw [List.forall_mem_cons] at h
      rw [SimplePaths.collect, h.1, ih h.2]
      rfl
  cases hbase : g.driverBaseHz config driver with
  | none => rw [hnone fun c _ => by simp [drivenBy, hbase]]; rfl
  | some base =>
    cases hdivisors : config.driverDivisors driver with
    | none => rw [hnone fun c _ => by simp [drivenBy, hbase, hdivisors]]; rfl
    | some divisors =>
      refine SimplePaths.foldlM_collect _ (fun c _ acc => ?_) acc
      rw [addDriven, drivenBy, hbase, hdivisors]
      dsimp only
      cases g.drivenHz driver base divisors c with
      | error e => rfl
      | ok hz => cases hz <;> rfl

theorem foldlM_addDriver (acc : Driven) :
    g.drivers.foldlM (g.addDriver config) acc
      = (g.allDriven config).map fun es => es.foldl recordDriven acc :=
  SimplePaths.foldlM_collect _ (fun driver _ acc => addDriver_eq acc driver) acc

theorem drivenHz_eq_some_iff {driver : String} {base : ℚ} {divisors : List Nat} {c : Connection}
    {hz : ℚ} : g.drivenHz driver base divisors c = .ok (some hz) ↔ ∃ index,
      c.source.index = some index ∧ c.source.port.inst = driver
        ∧ c.source.port.port.str = driverCyclePort ∧ index < divisors.length
        ∧ (∃ info, g.instances.get? c.dest.port.inst = some info
          ∧ info.componentName ∈ rateGroupTypes)
        ∧ ∃ divisor, divisorAt divisors index = some divisor ∧ 0 < divisor
          ∧ hz = base / divisor := by
  unfold drivenHz
  cases hindex : c.source.index with
  | none => simp
  | some index =>
    simp only [Option.some.injEq, exists_eq_left']
    by_cases hskip : c.source.port.inst ≠ driver ∨ c.source.port.port.str ≠ driverCyclePort
        ∨ (divisors.length : Int) ≤ index
    · rw [if_pos hskip]
      simp only [Except.ok.injEq, reduceCtorEq, false_iff]
      intro h
      obtain ⟨hinst, hport, hbelow, _⟩ := h
      rcases hskip with h | h | h
      · exact h hinst
      · exact h hport
      · omega
    · rw [if_neg hskip]
      simp only [ne_eq, not_or, not_not, not_le] at hskip
      simp only [hskip, true_and]
      cases hget : g.instances.get? c.dest.port.inst with
      | none => simp
      | some info =>
        simp only [Option.some.injEq, exists_eq_left']
        by_cases htype : info.componentName ∈ rateGroupTypes
        · rw [if_neg (not_not.mpr htype)]
          cases hat : divisorAt divisors index with
          | none => simp
          | some divisor =>
            by_cases hzero : divisor = 0
            · simp [hzero]
            · simp [htype, hzero, Nat.pos_of_ne_zero hzero, eq_comm]
        · simp [htype]

theorem drivenHz_ok_iff {driver : String} {base : ℚ} {divisors : List Nat} {c : Connection} :
    (∃ hz, g.drivenHz driver base divisors c = .ok hz) ↔ ∀ index,
      c.source.index = some index → c.source.port.inst = driver →
      c.source.port.port.str = driverCyclePort → index < divisors.length →
      ∃ info, g.instances.get? c.dest.port.inst = some info
        ∧ (info.componentName ∈ rateGroupTypes → 0 ≤ index + divisors.length) := by
  unfold drivenHz
  cases hindex : c.source.index with
  | none => simp
  | some index =>
    simp only [Option.some.injEq, forall_eq']
    by_cases hskip : c.source.port.inst ≠ driver ∨ c.source.port.port.str ≠ driverCyclePort
        ∨ (divisors.length : Int) ≤ index
    · rw [if_pos hskip]
      refine iff_of_true ⟨_, rfl⟩ fun hinst hport hbelow => ?_
      rcases hskip with h | h | h
      · exact absurd hinst h
      · exact absurd hport h
      · omega
    · rw [if_neg hskip]
      simp only [ne_eq, not_or, not_not, not_le] at hskip
      simp only [hskip, forall_true_left]
      cases hget : g.instances.get? c.dest.port.inst with
      | none => simp
      | some info =>
        simp only [Option.some.injEq, exists_eq_left']
        by_cases htype : info.componentName ∈ rateGroupTypes
        · rw [if_neg (not_not.mpr htype)]
          have hat := divisorAt_eq_none_iff hskip.2.2
          cases hdivisor : divisorAt divisors index with
          | none => simpa [htype] using hat.mp hdivisor
          | some divisor =>
            rw [hdivisor] at hat
            simpa [htype] using hat
        · simp [htype]

theorem drivenBy_ok_iff {driver : String} {c : Connection} :
    (∃ es, g.drivenBy config driver c = .ok es) ↔ ∀ base divisors,
      g.driverBaseHz config driver = some base → config.driverDivisors driver = some divisors →
        ∃ hz, g.drivenHz driver base divisors c = .ok hz := by
  unfold drivenBy
  cases g.driverBaseHz config driver with
  | none => simp
  | some base =>
    cases config.driverDivisors driver with
    | none => simp
    | some divisors => simp [SimplePaths.map_eq_ok_iff]

theorem mem_drivenBy {driver : String} {c c' : Connection} {hz : ℚ} {es : List (Connection × ℚ)}
    (h : g.drivenBy config driver c' = .ok es) : (c, hz) ∈ es ↔ c' = c ∧ ∃ base divisors,
      g.driverBaseHz config driver = some base ∧ config.driverDivisors driver = some divisors
        ∧ g.drivenHz driver base divisors c = .ok (some hz) := by
  unfold drivenBy at h
  cases hbase : g.driverBaseHz config driver with
  | none =>
    rw [hbase] at h
    obtain rfl := Except.ok.inj h
    simp
  | some base =>
    cases hdivisors : config.driverDivisors driver with
    | none =>
      rw [hbase, hdivisors] at h
      obtain rfl := Except.ok.inj h
      simp
    | some divisors =>
      rw [hbase, hdivisors] at h
      obtain ⟨found, hfound, rfl⟩ := SimplePaths.map_eq_ok_iff.mp h
      by_cases hc : c' = c
      · subst hc
        simp [hfound]
      · simp [hc]

/-- The loop answers when the cycles can be read. -/
theorem allDriven_ok_iff : (∃ es, g.allDriven config = .ok es) ↔ g.CyclesRead config := by
  simp only [allDriven, SimplePaths.collect_ok_iff, drivenBy_ok_iff, drivenHz_ok_iff, mem_drivers]
  constructor
  · intro h c base divisors index hc
    exact h _ hc.driver c hc.mem base divisors hc.ofBase hc.ofDivisors index hc.ofIndex rfl hc.port
      hc.below
  · rintro h _ hdriver c hmem base divisors hbase hdivisors index hindex rfl hport hbelow
    exact h c base divisors index ⟨hmem, hport, hdriver, hbase, hdivisors, hindex, hbelow⟩

/-- What is recorded is what drives. -/
theorem mem_allDriven {es : List (Connection × ℚ)} (h : g.allDriven config = .ok es)
    {c : Connection} {hz : ℚ} : (c, hz) ∈ es ↔ g.Drives config c hz := by
  rw [SimplePaths.mem_collect_iff h]
  constructor
  · intro ⟨driver, hdriver, ys, hys, hmem⟩
    obtain ⟨c', hc', zs, hzs, hmem⟩ := (SimplePaths.mem_collect_iff hys).mp hmem
    obtain ⟨rfl, base, divisors, hbase, hdivisors, hhz⟩ := (mem_drivenBy hzs).mp hmem
    obtain ⟨index, hindex, rfl, hport, hbelow, hgroup, hdivisor⟩ := drivenHz_eq_some_iff.mp hhz
    exact ⟨base, divisors, index,
      ⟨hc', hport, mem_drivers.mp hdriver, hbase, hdivisors, hindex, hbelow⟩, hgroup, hdivisor⟩
  · intro ⟨base, divisors, index, hc, hgroup, hdivisor⟩
    have hdriver := mem_drivers.mpr hc.driver
    obtain ⟨ys, hys⟩ := (SimplePaths.collect_ok_iff _).mp ⟨es, h⟩ _ hdriver
    obtain ⟨zs, hzs⟩ := (SimplePaths.collect_ok_iff _).mp ⟨ys, hys⟩ c hc.mem
    refine ⟨_, hdriver, ys, hys, (SimplePaths.mem_collect_iff hys).mpr ⟨c, hc.mem, zs, hzs, ?_⟩⟩
    refine (mem_drivenBy hzs).mpr ⟨rfl, base, divisors, hc.ofBase, hc.ofDivisors, ?_⟩
    exact drivenHz_eq_some_iff.mpr
      ⟨index, hc.ofIndex, rfl, hc.port, hc.below, hgroup, hdivisor⟩

/-! ## The tables -/

/-- `result.rate_groups`, once all of this is recorded. -/
def groupTable (es : List (Connection × ℚ)) : Dict String ℚ :=
  Dict.ofList (es.map fun e => (e.1.dest.port.inst, e.2))

/-- `result.production_rate_hz`, before the propagation. -/
def cycleTable (es : List (Connection × ℚ)) : Dict String ℚ :=
  Dict.ofList (es.map fun e => (e.1.source.str, e.2))

theorem foldl_recordDriven (es : List (Connection × ℚ)) :
    es.foldl recordDriven (∅, ∅) = (groupTable es, cycleTable es) := by
  have hgen : ∀ acc : Driven, es.foldl recordDriven acc
      = ((es.map fun e => (e.1.dest.port.inst, e.2)).foldl (fun d e => d.set e.1 e.2) acc.1,
        (es.map fun e => (e.1.source.str, e.2)).foldl (fun d e => d.set e.1 e.2) acc.2) := by
    induction es with
    | nil => exact fun _ => rfl
    | cons e es ih => exact fun acc => ih _
  exact hgen (∅, ∅)

theorem drives_of_groupTable {es : List (Connection × ℚ)} (h : g.allDriven config = .ok es)
    {name : String} {hz : ℚ} (hget : (groupTable es).get? name = some hz) :
    ∃ c, g.Drives config c hz ∧ c.dest.port.inst = name := by
  obtain ⟨e, he, heq⟩ := List.mem_map.mp (Dict.mem_of_get?_ofList hget)
  obtain ⟨rfl, rfl⟩ := Prod.mk.inj heq
  exact ⟨e.1, (mem_allDriven h).mp he, rfl⟩

theorem Drives.groupTable {es : List (Connection × ℚ)} (h : g.allDriven config = .ok es)
    {c : Connection} {hz : ℚ} (hc : g.Drives config c hz) :
    ∃ hz', (groupTable es).get? c.dest.port.inst = some hz' :=
  Dict.get?_ofList_of_mem (List.mem_map.mpr ⟨(c, hz), (mem_allDriven h).mpr hc, rfl⟩)

/-- An output that drives two groups drives them at one frequency, so what
is recorded of it is never changed. -/
theorem get?_cycleTable {es : List (Connection × ℚ)} (h : g.allDriven config = .ok es)
    {key : String} {hz : ℚ} :
    (cycleTable es).get? key = some hz ↔ ∃ c, g.Drives config c hz ∧ c.source.str = key := by
  have hmem : ∀ {key hz}, (cycleTable es).get? key = some hz →
      ∃ c, g.Drives config c hz ∧ c.source.str = key := by
    intro key hz hget
    obtain ⟨e, he, heq⟩ := List.mem_map.mp (Dict.mem_of_get?_ofList hget)
    obtain ⟨rfl, rfl⟩ := Prod.mk.inj heq
    exact ⟨e.1, (mem_allDriven h).mp he, rfl⟩
  refine ⟨hmem, ?_⟩
  rintro ⟨c, hc, rfl⟩
  have hset : (c.source.str, hz) ∈ es.map fun e => (e.1.source.str, e.2) :=
    List.mem_map.mpr ⟨(c, hz), (mem_allDriven h).mpr hc, rfl⟩
  obtain ⟨hz', hget⟩ := Dict.get?_ofList_of_mem hset
  obtain ⟨c', hc', hstr⟩ := hmem hget
  rw [hc.same_source hc' (ConnectionEnd.str_injective hstr).symm]
  exact hget

/-! ## What comes out -/

section Exact

variable (g config)

open Classical in
/-- The ports that drain a queued instance, as far as ticks enter them. -/
noncomputable def drained (groupHz : Dict String ℚ) (name : String) : Finset PortKey :=
  match g.instances.get? name with
  | none => ∅
  | some info =>
    if info.kind = .queued then
      (info.inputPorts.keys.map fun port => ⟨name, port⟩).toFinset.filter fun e =>
        lowerName e.port ∈ queuedDrainPorts ∧ g.entering groupHz e ≠ ∅
    else ∅

/-- The inference is exact. A group has the frequency of a cycle output that
drives it; a cycle output keeps its own; members, output ports and input
ports have what `ExactRates` says; no other rate is there; and a queued
instance is drained as often as its drain ports are entered. -/
structure ExactInference (r : RateInference) : Prop where
  group : ∀ name hz, r.rateGroups.get? name = some hz →
    ∃ c, g.Drives config c hz ∧ c.dest.port.inst = name
  driven : ∀ c hz, g.Drives config c hz → ∃ hz', r.rateGroups.get? c.dest.port.inst = some hz'
  cycle : ∀ c hz, g.Drives config c hz → r.productionRateHz.get? c.source.str = some hz
  output : ∀ s, g.feeding r.rateGroups s ≠ ∅ →
    r.productionRateHz.get? s.str = some (∑ root ∈ g.feeding r.rateGroups s, rateOf r.rateGroups root)
  member : ∀ root ∈ g.memberEnds r.rateGroups,
    (∀ s, g.feeding r.rateGroups s ≠ ∅ → s.str ≠ root.str) →
      r.productionRateHz.get? root.str = some (rateOf r.rateGroups root)
  other : ∀ key, (∀ c hz, g.Drives config c hz → c.source.str ≠ key) →
    (∀ s, g.feeding r.rateGroups s ≠ ∅ → s.str ≠ key) →
      (∀ root ∈ g.memberEnds r.rateGroups, root.str ≠ key) → r.productionRateHz.get? key = none
  consumption : ∀ name, r.consumptionRateHz.get? name
    = if g.drained r.rateGroups name = ∅ then none
      else some (∑ e ∈ g.drained r.rateGroups name,
        ∑ root ∈ g.entering r.rateGroups e, rateOf r.rateGroups root)

end Exact

theorem mem_drained {groupHz : Dict String ℚ} {name : String} {e : PortKey} :
    e ∈ g.drained groupHz name ↔ e.inst = name
      ∧ (∃ info, g.instances.get? name = some info ∧ info.kind = .queued)
      ∧ lowerName e.port ∈ queuedDrainPorts ∧ g.entering groupHz e ≠ ∅ := by
  unfold drained
  cases hget : g.instances.get? name with
  | none => simp
  | some info =>
    by_cases hkind : info.kind = .queued
    · simp only [hkind, if_true, Finset.mem_filter, List.mem_toFinset, List.mem_map,
        Option.some.injEq, exists_eq_left', true_and]
      refine ⟨fun ⟨⟨port, _, he⟩, hdrain⟩ => ⟨he ▸ rfl, hdrain⟩, fun ⟨hname, hdrain⟩ => ⟨?_, hdrain⟩⟩
      -- a port that is entered is a port of the instance
      obtain ⟨root, hroot⟩ := Finset.nonempty_iff_ne_empty.mpr hdrain.2
      obtain ⟨first, kind, harrives⟩ := mem_entering.mp hroot
      obtain ⟨info', hget', hmem⟩ := harrives.known
      rw [hname, hget] at hget'
      obtain rfl := Option.some.inj hget'
      obtain ⟨kinds, hport, _⟩ := InstanceInfo.mem_kindsOf_iff.mp hmem
      exact ⟨e.port, List.mem_map.mpr ⟨_, hport, rfl⟩, hname ▸ rfl⟩
    · simp [hkind]

/-- The rates at which a queued instance is drained, summed. -/
theorem sum_drainRates {groupHz : Dict String ℚ} {entryRates : Dict PortKey ℚ}
    (hexact : ∀ e, entryRates.get? e = if g.entering groupHz e = ∅ then none
      else some (∑ root ∈ g.entering groupHz e, rateOf groupHz root))
    {name : String} {info : InstanceInfo} (hget : g.instances.get? name = some info)
    (hkind : info.kind = .queued) :
    (drainRates entryRates name = [] ↔ g.drained groupHz name = ∅)
      ∧ (drainRates entryRates name).sum
        = ∑ e ∈ g.drained groupHz name, ∑ root ∈ g.entering groupHz e, rateOf groupHz root := by
  have hvalues : drainRates entryRates name = (entryRates.filter fun e =>
      e.inst = name ∧ lowerName e.port ∈ queuedDrainPorts).values := rfl
  have hrates : ∀ e hz, (entryRates.filter fun e =>
      e.inst = name ∧ lowerName e.port ∈ queuedDrainPorts).get? e = some hz
        ↔ e ∈ g.drained groupHz name
          ∧ hz = ∑ root ∈ g.entering groupHz e, rateOf groupHz root := by
    intro e hz
    rw [Dict.get?_filter, hexact, mem_drained]
    by_cases hdrain : e.inst = name ∧ lowerName e.port ∈ queuedDrainPorts
    · by_cases hempty : g.entering groupHz e = ∅
      · simp [hempty]
      · simp [hdrain, hempty, hget, hkind, eq_comm]
    · simp only [hdrain, decide_false, Bool.false_eq_true, if_false, reduceCtorEq, false_iff]
      intro h
      obtain ⟨⟨hname, _, hlower, _⟩, _⟩ := h
      exact hdrain ⟨hname, hlower⟩
  constructor
  · rw [hvalues, Finset.eq_empty_iff_forall_notMem]
    constructor
    · intro hnil e he
      have hsome := (Dict.get?_eq_some_iff _ _ _).mp ((hrates e _).mpr ⟨he, rfl⟩)
      rw [Dict.values, List.map_eq_nil_iff] at hnil
      exact List.not_mem_nil (hnil ▸ hsome)
    · intro hno
      refine List.eq_nil_iff_forall_not_mem.mpr fun hz hhz => ?_
      obtain ⟨e, he, rfl⟩ := List.mem_map.mp hhz
      exact hno e.1 ((hrates e.1 e.2).mp ((Dict.get?_eq_some_iff _ _ _).mpr he)).1
  · exact Contributions.sum_values _ hrates

/-- Every queued instance that is drained has a rate. -/
theorem get?_consumptionRates (entryRates : Dict PortKey ℚ) (name : String) (hz : ℚ) :
    (g.consumptionRates entryRates).get? name = some hz ↔ ∃ info,
      g.instances.get? name = some info ∧ info.kind = .queued ∧ drainRates entryRates name ≠ []
        ∧ (drainRates entryRates name).sum = hz := by
  let rated : List (String × InstanceInfo) := g.instances.entries.filter fun e =>
    e.2.kind = .queued ∧ drainRates entryRates e.1 ≠ []
  have hfold : g.consumptionRates entryRates
      = Dict.ofList (rated.map fun e => (e.1, (drainRates entryRates e.1).sum)) := by
    rw [consumptionRates, Dict.ofList, List.foldl_map, List.foldl_filter]
    congr 1
    funext rates e
    by_cases hkind : e.2.kind = .queued <;> by_cases hnil : drainRates entryRates e.1 = [] <;>
      simp [hkind, hnil]
  have hnodup : ((rated.map fun e => (e.1, (drainRates entryRates e.1).sum)).map Prod.fst).Nodup := by
    rw [List.map_map]
    exact List.Nodup.sublist (List.filter_sublist.map Prod.fst) g.instances.nodupKeys
  rw [hfold, Dict.get?_ofList_eq_some_iff hnodup]
  simp only [rated, List.mem_map, List.mem_filter, decide_eq_true_eq, Prod.mk.injEq, Prod.exists,
    ← Dict.get?_eq_some_iff]
  constructor
  · rintro ⟨_, info, ⟨hget, hkind, hdrain⟩, rfl, hsum⟩
    exact ⟨info, hget, hkind, hdrain, hsum⟩
  · rintro ⟨info, hget, hkind, hdrain, hsum⟩
    exact ⟨name, info, ⟨hget, hkind, hdrain⟩, rfl, hsum⟩

/-- An output with an index is no port, and a cycle output no member. -/
theorem Drives.str_ne {c : Connection} {hz : ℚ} (h : g.Drives config c hz) :
    (∀ s : PortKey, s.str ≠ c.source.str)
      ∧ ∀ groupHz, ∀ root ∈ g.memberEnds groupHz, root.str ≠ c.source.str := by
  obtain ⟨base, divisors, index, hc, _⟩ := h
  constructor
  · intro s hstr
    have hsame : (⟨s, none⟩ : ConnectionEnd) = c.source := ConnectionEnd.str_injective hstr
    have hindex := hc.ofIndex
    rw [← hsame] at hindex
    cases hindex
  · intro groupHz root hroot hstr
    obtain ⟨c', _, hmember, rfl⟩ := mem_memberEnds.mp hroot
    have hport := hmember.2
    rw [ConnectionEnd.str_injective hstr, hc.port] at hport
    exact absurd hport (by decide)

theorem exactInference {r : RateInference} (h : g.inferFrom config = .ok r) :
    g.ExactInference config r := by
  rw [inferFrom, foldlM_addDriver] at h
  cases hdriven : g.allDriven config with
  | error e => simp [hdriven, Except.map] at h
  | ok es =>
    rw [hdriven, Except.map, foldl_recordDriven] at h
    dsimp only at h
    cases hrates : g.propagateMemberRates (groupTable es) (cycleTable es) with
    | error e => simp [hrates] at h
    | ok rates =>
      rw [hrates] at h
      obtain rfl := Except.ok.inj h
      have hexact := exactRates hrates
      refine ⟨fun name hz => drives_of_groupTable hdriven, fun c hz hc => hc.groupTable hdriven,
        fun c hz hc => ?_, hexact.output, hexact.member, fun key hno hunfed hnomember => ?_,
        fun name => ?_⟩
      · rw [hexact.other _ (fun s _ => hc.str_ne.1 s) (hc.str_ne.2 _)]
        exact (get?_cycleTable hdriven).mpr ⟨c, hc, rfl⟩
      · rw [hexact.other key hunfed hnomember, Option.eq_none_iff_forall_ne_some]
        intro hz hget
        obtain ⟨c, hc, hstr⟩ := (get?_cycleTable hdriven).mp hget
        exact hno c hz hc hstr
      · ext hz
        rw [get?_consumptionRates]
        constructor
        · rintro ⟨info, hget, hkind, hdrain, rfl⟩
          obtain ⟨hnil, hsum⟩ := sum_drainRates hexact.entry hget hkind
          rw [if_neg fun hempty => hdrain (hnil.mpr hempty), hsum]
        · intro hsome
          by_cases hempty : g.drained (groupTable es) name = ∅
          · rw [if_pos hempty] at hsome
            cases hsome
          · rw [if_neg hempty] at hsome
            obtain ⟨e, he⟩ := Finset.nonempty_iff_ne_empty.mpr hempty
            obtain ⟨_, ⟨info, hget, hkind⟩, _⟩ := mem_drained.mp he
            obtain ⟨hnil, hsum⟩ := sum_drainRates hexact.entry hget hkind
            exact ⟨info, hget, hkind, fun hdrain => hempty (hnil.mp hdrain),
              hsum.trans (Option.some.inj hsome)⟩

/-! ## When there is an answer -/

section Answers

variable {groupHz groupHz' : Dict String ℚ}

/-- Where ticks go is a matter of which groups tick. -/
theorem Arrives.of_ticking (h : ∀ name, (groupHz.get? name).isSome → (groupHz'.get? name).isSome)
    {root : ConnectionEnd} {first : SyncKind} {e : PortKey} {kind : SyncKind}
    (ha : g.Arrives groupHz root first e kind) : g.Arrives groupHz' root first e kind := by
  induction ha with
  | member hc hmember hroot hget hkind =>
    exact .member hc ⟨h _ hmember.1, hmember.2⟩ hroot hget hkind
  | call _ hbehind hhop hasync ih => exact .call ih hbehind hhop hasync

theorem Feeds.of_ticking (h : ∀ name, (groupHz.get? name).isSome → (groupHz'.get? name).isSome)
    {root : ConnectionEnd} {s : PortKey} (hf : g.Feeds groupHz root s) :
    g.Feeds groupHz' root s := by
  obtain ⟨first, x, ⟨e, kind, harrives, hbehind⟩, hinvokes⟩ := hf
  exact ⟨first, x, ⟨e, kind, harrives.of_ticking h, hbehind⟩, hinvokes⟩

theorem EntersPort.of_ticking
    (h : ∀ name, (groupHz.get? name).isSome → (groupHz'.get? name).isSome)
    {root : ConnectionEnd} {e : PortKey} (he : g.EntersPort groupHz root e) :
    g.EntersPort groupHz' root e := by
  obtain ⟨first, kind, harrives⟩ := he
  exact ⟨first, kind, harrives.of_ticking h⟩

/-- So is whether the rates of the members can be worked out. -/
theorem conditions_of_ticking
    (h : ∀ name, (groupHz.get? name).isSome ↔ (groupHz'.get? name).isSome)
    (hg : g.MembersKnown groupHz ∧ g.EnteredResolve groupHz) :
    g.MembersKnown groupHz' ∧ g.EnteredResolve groupHz' := by
  refine ⟨fun c hc hmember => hg.1 c hc ⟨(h _).mpr hmember.1, hmember.2⟩, ?_⟩
  intro root first x ⟨entry, kind, harrives, hbehind⟩
  exact hg.2 root first x ⟨entry, kind, harrives.of_ticking fun name => (h name).mpr, hbehind⟩

/-- The groups that tick are those that are driven. -/
def Ticking (g : LoadedTopology) (config : CppRateConfig) (groupHz : Dict String ℚ) : Prop :=
  ∀ name, (groupHz.get? name).isSome ↔ ∃ c hz, g.Drives config c hz ∧ c.dest.port.inst = name

theorem ticking_groupTable {es : List (Connection × ℚ)} (h : g.allDriven config = .ok es) :
    g.Ticking config (groupTable es) := by
  intro name
  rw [Option.isSome_iff_exists]
  constructor
  · intro ⟨hz, hget⟩
    obtain ⟨c, hc⟩ := drives_of_groupTable h hget
    exact ⟨c, hz, hc⟩
  · rintro ⟨c, hz, hc, rfl⟩
    exact hc.groupTable h

theorem inferFrom_ok_iff : (∃ r, g.inferFrom config = .ok r) ↔ g.CyclesRead config
    ∧ ∀ groupHz, g.Ticking config groupHz → g.MembersKnown groupHz ∧ g.EnteredResolve groupHz := by
  rw [inferFrom, foldlM_addDriver, ← allDriven_ok_iff]
  cases hdriven : g.allDriven config with
  | error e => simp [Except.map]
  | ok es =>
    have hticking := ticking_groupTable hdriven
    have hcondition : (∀ groupHz, g.Ticking config groupHz →
        g.MembersKnown groupHz ∧ g.EnteredResolve groupHz)
          ↔ g.MembersKnown (groupTable es) ∧ g.EnteredResolve (groupTable es) := by
      refine ⟨fun h => h _ hticking, fun h groupHz hgroups => conditions_of_ticking (fun name => ?_) h⟩
      rw [hticking name, hgroups name]
    rw [hcondition, ← @propagateMemberRates_ok_iff _ _ (cycleTable es), Except.map,
      foldl_recordDriven]
    dsimp only
    cases g.propagateMemberRates (groupTable es) (cycleTable es) <;> simp

end Answers

/-! ## Order -/

/-- A timer is wired to the driver. -/
def TimedBy (g : LoadedTopology) (config : CppRateConfig) (driver : String) (hz : ℚ) : Prop :=
  ∃ c ∈ g.connectionList, c.dest.port.inst = driver ∧ lowerName c.dest.port.port = "cyclein"
    ∧ config.timerHz.get? (shortInstance c.source.port.inst) = some hz

/-- No driver has timers of two frequencies, and no group is driven at two. -/
structure Unambiguous (g : LoadedTopology) (config : CppRateConfig) : Prop where
  timers : ∀ driver hz hz', g.TimedBy config driver hz → g.TimedBy config driver hz' → hz = hz'
  groups : ∀ c c' hz hz', g.Drives config c hz → g.Drives config c' hz' →
    c.dest.port.inst = c'.dest.port.inst → hz = hz'

/-- Two answers that say the same by lookup: neither is one, or both are. -/
structure SameInference (x y : Except InferError RateInference) : Prop where
  answers : (∃ r, x = .ok r) ↔ ∃ r, y = .ok r
  rateGroups : ∀ r r', x = .ok r → y = .ok r' →
    ∀ name, r.rateGroups.get? name = r'.rateGroups.get? name
  production : ∀ r r', x = .ok r → y = .ok r' →
    ∀ key, r.productionRateHz.get? key = r'.productionRateHz.get? key
  consumption : ∀ r r', x = .ok r → y = .ok r' →
    ∀ name, r.consumptionRateHz.get? name = r'.consumptionRateHz.get? name

section Order

variable {g' : LoadedTopology}

theorem TimedBy.congr (h : SameWiring g g') {driver : String} {hz : ℚ}
    (ht : g.TimedBy config driver hz) : g'.TimedBy config driver hz := by
  obtain ⟨c, hc, hrest⟩ := ht
  exact ⟨c, (h.connectionList c).mp hc, hrest⟩

/-- The timer that is found is one that is wired. -/
theorem driverBaseHz_eq (g : LoadedTopology) (config : CppRateConfig) (driver : String) :
    (∃ hz, g.TimedBy config driver hz ∧ g.driverBaseHz config driver = some hz)
      ∨ (∀ hz, ¬ g.TimedBy config driver hz) ∧ g.driverBaseHz config driver
        = match config.baseHz with
          | [base] => some base
          | _ => none := by
  unfold driverBaseHz
  dsimp only
  split
  · rename_i hz hfind
    obtain ⟨c, hc, hget⟩ := List.exists_of_findSome?_eq_some hfind
    obtain ⟨hmem, hinto⟩ := List.mem_filter.mp hc
    obtain ⟨hdest, hport⟩ := of_decide_eq_true hinto
    exact .inl ⟨hz, ⟨c, hmem, hdest, hport, hget⟩, rfl⟩
  · rename_i hnone
    refine .inr ⟨fun hz ⟨c, hmem, hdest, hport, hget⟩ => ?_, rfl⟩
    have hno := List.findSome?_eq_none_iff.mp hnone c
      (List.mem_filter.mpr ⟨hmem, decide_eq_true ⟨hdest, hport⟩⟩)
    rw [hget] at hno
    cases hno

theorem SameWiring.driverBaseHz (h : SameWiring g g') (hu : g.Unambiguous config)
    (driver : String) : g'.driverBaseHz config driver = g.driverBaseHz config driver := by
  rcases driverBaseHz_eq g config driver with ⟨hz, htimed, hbase⟩ | ⟨hno, hbase⟩
  · rcases driverBaseHz_eq g' config driver with ⟨hz', htimed', hbase'⟩ | ⟨hno', _⟩
    · rw [hbase, hbase', hu.timers driver hz' hz (htimed'.congr h.symm) htimed]
    · exact absurd (htimed.congr h) (hno' hz)
  · rcases driverBaseHz_eq g' config driver with ⟨hz', htimed', _⟩ | ⟨_, hbase'⟩
    · exact absurd (htimed'.congr h.symm) (hno hz')
    · rw [hbase, hbase']

/-- What instances are is no matter of the order of their kinds. -/
theorem SameWiring.get?_iff (h : SameWiring g g') (P : InstanceInfo → Prop)
    (hP : ∀ info, P info.unordered ↔ P info) (name : String) :
    (∃ info, g'.instances.get? name = some info ∧ P info)
      ↔ ∃ info, g.instances.get? name = some info ∧ P info := by
  constructor
  · intro ⟨info', hget', hp⟩
    obtain ⟨info, hget, hsame⟩ := h.symm.get? hget'
    exact ⟨info, hget, by rwa [← hP, hsame, hP]⟩
  · intro ⟨info, hget, hp⟩
    obtain ⟨info', hget', hsame⟩ := h.get? hget
    exact ⟨info', hget', by rwa [← hP, hsame, hP]⟩

theorem SameWiring.cycles (h : SameWiring g g') (hu : g.Unambiguous config) {c : Connection}
    {base : ℚ} {divisors : List Nat} {index : Int} :
    g'.Cycles config c base divisors index ↔ g.Cycles config c base divisors index := by
  have hdriver := h.get?_iff (fun info => info.componentName = rateGroupDriverType)
    (fun info => Iff.rfl) c.source.port.inst
  have hbase := h.driverBaseHz hu c.source.port.inst
  constructor
  · intro hc
    exact { hc with
      mem := (h.connectionList c).mpr hc.mem
      driver := hdriver.mp hc.driver
      ofBase := hbase.symm.trans hc.ofBase }
  · intro hc
    exact { hc with
      mem := (h.connectionList c).mp hc.mem
      driver := hdriver.mpr hc.driver
      ofBase := hbase.trans hc.ofBase }

theorem SameWiring.drives (h : SameWiring g g') (hu : g.Unambiguous config) {c : Connection}
    {hz : ℚ} : g'.Drives config c hz ↔ g.Drives config c hz := by
  unfold Drives
  simp only [h.cycles hu, h.get?_iff (fun info => info.componentName ∈ rateGroupTypes)
    (fun info => Iff.rfl)]

/-- The other graph is unambiguous as well. -/
theorem SameWiring.unambiguous (h : SameWiring g g') (hu : g.Unambiguous config) :
    g'.Unambiguous config where
  timers driver hz hz' ht ht' := hu.timers driver hz hz' (ht.congr h.symm) (ht'.congr h.symm)
  groups c c' hz hz' hc hc' := hu.groups c c' hz hz' ((h.drives hu).mp hc) ((h.drives hu).mp hc')

theorem SameWiring.cyclesRead (h : SameWiring g g') (hu : g.Unambiguous config)
    (hread : g.CyclesRead config) : g'.CyclesRead config := by
  intro c base divisors index hc
  exact (h.get?_iff (fun info => info.componentName ∈ rateGroupTypes → 0 ≤ index + divisors.length)
    (fun info => Iff.rfl) c.dest.port.inst).mpr (hread c base divisors index ((h.cycles hu).mp hc))

theorem SameWiring.drained (h : SameWiring g g') (groupHz : Dict String ℚ) (name : String) :
    g'.drained groupHz name = g.drained groupHz name := by
  ext e
  rw [mem_drained, mem_drained, h.entering,
    h.get?_iff (fun info => info.kind = .queued) fun info => Iff.rfl]

/-- The tables of groups matter by what is read from them. -/
theorem feeding_congr {groupHz groupHz' : Dict String ℚ}
    (h : ∀ name, groupHz.get? name = groupHz'.get? name) :
    g.memberEnds groupHz = g.memberEnds groupHz'
      ∧ (∀ s, g.feeding groupHz s = g.feeding groupHz' s)
      ∧ (∀ e, g.entering groupHz e = g.entering groupHz' e) := by
  have hto : ∀ name, (groupHz.get? name).isSome → (groupHz'.get? name).isSome := by simp [h]
  have hfrom : ∀ name, (groupHz'.get? name).isSome → (groupHz.get? name).isSome := by simp [h]
  refine ⟨?_, fun s => ?_, fun e => ?_⟩
  · ext root
    simp only [mem_memberEnds, Connection.IsMember, h]
  · ext root
    rw [mem_feeding, mem_feeding]
    exact ⟨Feeds.of_ticking hto, Feeds.of_ticking hfrom⟩
  · ext root
    rw [mem_entering, mem_entering]
    exact ⟨EntersPort.of_ticking hto, EntersPort.of_ticking hfrom⟩

theorem rateOf_congr {groupHz groupHz' : Dict String ℚ}
    (h : ∀ name, groupHz.get? name = groupHz'.get? name) (root : ConnectionEnd) :
    rateOf groupHz root = rateOf groupHz' root := by
  rw [rateOf, rateOf, h]

theorem drained_congr {groupHz groupHz' : Dict String ℚ}
    (h : ∀ name, groupHz.get? name = groupHz'.get? name) (name : String) :
    g.drained groupHz name = g.drained groupHz' name := by
  ext e
  rw [mem_drained, mem_drained, (feeding_congr h).2.2]

/-- Without ambiguity a group's frequency is that of any output that drives
it. -/
theorem ExactInference.get?_rateGroups {r : RateInference} (h : g.ExactInference config r)
    (hu : g.Unambiguous config) (name : String) (hz : ℚ) :
    r.rateGroups.get? name = some hz ↔ ∃ c, g.Drives config c hz ∧ c.dest.port.inst = name := by
  refine ⟨h.group name hz, ?_⟩
  rintro ⟨c, hc, rfl⟩
  obtain ⟨hz', hget⟩ := h.driven c hz hc
  obtain ⟨c', hc', hname⟩ := h.group _ _ hget
  rw [hget, hu.groups c' c hz' hz hc' hc hname]

/-- The rates of an output port, an end or any other key are those of the
groups. -/
theorem ExactInference.production_eq {r r' : RateInference} (h : g.ExactInference config r)
    (hw : SameWiring g g') (hu : g.Unambiguous config) (h' : g'.ExactInference config r')
    (hgroups : ∀ name, r.rateGroups.get? name = r'.rateGroups.get? name) (key : String) :
    r.productionRateHz.get? key = r'.productionRateHz.get? key := by
  obtain ⟨hmembers, hfeeding, _⟩ := @feeding_congr g _ _ hgroups
  have hfeeding' : ∀ s, g.feeding r.rateGroups s = g'.feeding r'.rateGroups s := fun s => by
    rw [hfeeding, hw.feeding]
  have hmembers' : g.memberEnds r.rateGroups = g'.memberEnds r'.rateGroups := by
    rw [hmembers, hw.memberEnds]
  by_cases hfed : ∃ s, g.feeding r.rateGroups s ≠ ∅ ∧ s.str = key
  · obtain ⟨s, hs, rfl⟩ := hfed
    rw [h.output s hs, h'.output s (hfeeding' s ▸ hs), hfeeding']
    exact congrArg some (Finset.sum_congr rfl fun root _ => rateOf_congr hgroups root)
  · have hunfed : ∀ s, g.feeding r.rateGroups s ≠ ∅ → s.str ≠ key := fun s hs hstr =>
      hfed ⟨s, hs, hstr⟩
    have hunfed' : ∀ s, g'.feeding r'.rateGroups s ≠ ∅ → s.str ≠ key := fun s hs =>
      hunfed s (hfeeding' s ▸ hs)
    by_cases hmember : ∃ root ∈ g.memberEnds r.rateGroups, root.str = key
    · obtain ⟨root, hroot, rfl⟩ := hmember
      rw [h.member root hroot hunfed, h'.member root (hmembers' ▸ hroot) hunfed',
        rateOf_congr hgroups]
    · have hno : ∀ root ∈ g.memberEnds r.rateGroups, root.str ≠ key := fun root hroot hstr =>
        hmember ⟨root, hroot, hstr⟩
      by_cases hcycle : ∃ c hz, g.Drives config c hz ∧ c.source.str = key
      · obtain ⟨c, hz, hc, rfl⟩ := hcycle
        rw [h.cycle c hz hc, h'.cycle c hz ((hw.drives hu).mpr hc)]
      · have hnone : ∀ c hz, g.Drives config c hz → c.source.str ≠ key := fun c hz hc hstr =>
          hcycle ⟨c, hz, hc, hstr⟩
        rw [h.other key hnone hunfed hno, h'.other key (fun c hz hc => hnone c hz
          ((hw.drives hu).mp hc)) hunfed' (hmembers' ▸ hno)]

/-- **Without ambiguity no order matters.** -/
theorem SameWiring.sameInference (h : SameWiring g g') (hu : g.Unambiguous config) :
    SameInference (g.inferFrom config) (g'.inferFrom config) := by
  have hgroups : ∀ r r', g.inferFrom config = .ok r → g'.inferFrom config = .ok r' →
      ∀ name, r.rateGroups.get? name = r'.rateGroups.get? name := by
    intro r r' hr hr' name
    ext hz
    rw [(exactInference hr).get?_rateGroups hu,
      (exactInference hr').get?_rateGroups (h.unambiguous hu)]
    simp only [h.drives hu]
  have hanswers : ∀ {g g' : LoadedTopology}, SameWiring g g' → g.Unambiguous config →
      (∃ r, g.inferFrom config = .ok r) → ∃ r, g'.inferFrom config = .ok r := by
    intro g g' h hu hok
    obtain ⟨hread, hconditions⟩ := inferFrom_ok_iff.mp hok
    refine inferFrom_ok_iff.mpr ⟨h.cyclesRead hu hread, fun groupHz hticking => ?_⟩
    refine h.conditions (hconditions groupHz fun name => ?_)
    rw [hticking name]
    simp only [h.drives hu]
  refine ⟨⟨hanswers h hu, hanswers h.symm (h.unambiguous hu)⟩, hgroups, fun r r' hr hr' => ?_,
    fun r r' hr hr' name => ?_⟩
  · exact (exactInference hr).production_eq h hu (exactInference hr') (hgroups r r' hr hr')
  · have hsame := hgroups r r' hr hr'
    rw [(exactInference hr).consumption, (exactInference hr').consumption, h.drained,
      drained_congr hsame]
    simp only [← h.entering, (feeding_congr hsame).2.2, rateOf_congr hsame]

end Order

/-- **Rates from C++ and wiring**, in exact rationals: the inference answers
when every literal of the sources can be read, the cycles lead to instances
of the graph, and the handlers that ticks enter are resolved. Its answer is
exact. Where no driver has timers of two frequencies and no group is driven
at two, it does not depend on the order of the instances, of the connections
or of the kinds. -/
theorem inference_exact (g : LoadedTopology) (classes : CharClasses)
    (sources : List (Option (List Char))) :
    ((∃ r, g.inferRateGroups classes sources = .ok r)
      ↔ (∀ divisor ∈ divisorsRead classes sources.reduceOption, ReadByPython divisor)
        ∧ (∀ part ∈ partsRead classes sources.reduceOption, ReadAsFloat part)
        ∧ ∀ config, readCppRateConfig classes sources = .ok config → g.CyclesRead config
          ∧ ∀ groupHz, g.Ticking config groupHz → g.MembersKnown groupHz ∧ g.EnteredResolve groupHz)
    ∧ ∀ config, readCppRateConfig classes sources = .ok config →
      (∀ r, g.inferRateGroups classes sources = .ok r → g.ExactInference config r)
      ∧ ∀ g', SameWiring g g' → g.Unambiguous config → SameInference
        (g.inferRateGroups classes sources) (g'.inferRateGroups classes sources) := by
  have hcompletes := completes_readCppRateConfig_iff classes sources
  cases hread : readCppRateConfig classes sources with
  | error e =>
    have hno : ¬ Completes (readCppRateConfig classes sources) := by simp [hread, Completes]
    rw [hcompletes] at hno
    refine ⟨iff_of_false (by simp [inferRateGroups, hread]) fun h => hno ⟨h.1, h.2.1⟩, ?_⟩
    intro config hconfig
    cases hconfig
  | ok config =>
    have hinfer : ∀ g : LoadedTopology, g.inferRateGroups classes sources = g.inferFrom config :=
      fun g => by simp [inferRateGroups, hread]
    have hliterals := hcompletes.mp ⟨config, hread⟩
    rw [hinfer g, inferFrom_ok_iff]
    refine ⟨⟨fun h => ⟨hliterals.1, hliterals.2, ?_⟩, fun h => h.2.2 config rfl⟩, ?_⟩
    · rintro _ ⟨⟩
      exact h
    · rintro _ ⟨⟩
      refine ⟨fun r => exactInference, fun g' hw hu => ?_⟩
      rw [hinfer g']
      exact hw.sameInference hu

end LoadedTopology

end FprimeTopologyAnalysis
