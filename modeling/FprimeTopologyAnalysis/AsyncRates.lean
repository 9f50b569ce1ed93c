/-
FprimeTopologyAnalysis.AsyncRates — rates behind an async input.

How often a handler behind an async input runs depends on the queue, and
the propagation says it does not invent that rate: a call into an async
input is not followed. The port a root is wired to is not asked, though.
Its async kind is put in the queue like the others, so the outputs of a
handler that only a queue runs are given the rate of the ticks that are
offered to that queue (`sample_async_rate`).
-/
import FprimeTopologyAnalysis.RatesExact

namespace FprimeTopologyAnalysis

open Library

namespace LoadedTopology

variable (g : LoadedTopology) (groupHz : Dict String ℚ)

/-- A handler that may invoke `s` is entered from a member output through
sync and guarded inputs only. -/
def SyncFed (s : PortKey) : Prop :=
  ∃ root first h, first ≠ .async ∧ g.Enters groupHz root first h ∧ g.Invokes h s

/-- A handler that may invoke `s` is entered from a member output wired to
an async input. -/
def AsyncFed (s : PortKey) : Prop :=
  ∃ root h, g.Enters groupHz root .async h ∧ g.Invokes h s

/-- `s` has a rate that was not passed in. -/
def Receives (production : Dict String ℚ) (rates : Dict PortKey ℚ × Dict String ℚ) (s : PortKey) :
    Prop :=
  production.get? s.str = none ∧ rates.2.get? s.str ≠ none

variable {g groupHz}

theorem feeds_iff {s : PortKey} :
    (∃ root, g.Feeds groupHz root s) ↔ g.SyncFed groupHz s ∨ g.AsyncFed groupHz s := by
  constructor
  · rintro ⟨root, first, h, henters, hinvokes⟩
    by_cases hfirst : first = .async
    · exact .inr ⟨root, h, hfirst ▸ henters, hinvokes⟩
    · exact .inl ⟨root, first, h, hfirst, henters, hinvokes⟩
  · rintro (⟨root, first, h, _, henters, hinvokes⟩ | ⟨root, h, henters, hinvokes⟩)
    · exact ⟨root, first, h, henters, hinvokes⟩
    · exact ⟨root, .async, h, henters, hinvokes⟩

/-- The ports that get a rate: those that some root feeds, and the member
outputs themselves where the connection has no index. -/
theorem receives_iff {production : Dict String ℚ} {rates : Dict PortKey ℚ × Dict String ℚ}
    (h : g.propagateMemberRates groupHz production = .ok rates) (s : PortKey) :
    Receives production rates s ↔ production.get? s.str = none
      ∧ ((∃ root, g.Feeds groupHz root s) ∨ ⟨s, none⟩ ∈ g.memberEnds groupHz) := by
  have hexact := exactRates h
  have hfed : ∀ s', g.feeding groupHz s' ≠ ∅ ↔ ∃ root, g.Feeds groupHz root s' := by
    intro s'
    rw [← Finset.nonempty_iff_ne_empty]
    simp only [Finset.Nonempty, mem_feeding]
  refine and_congr_right fun hnone => ?_
  by_cases hs : ∃ root, g.Feeds groupHz root s
  · simp [hexact.output s ((hfed s).mpr hs), hs]
  · have hunfed : ∀ s', g.feeding groupHz s' ≠ ∅ → s'.str ≠ s.str := by
      intro s' hs' hstr
      exact hs ((hfed s).mp (PortKey.str_injective hstr ▸ hs'))
    by_cases hmember : (⟨s, none⟩ : ConnectionEnd) ∈ g.memberEnds groupHz
    · have hrate : rates.2.get? s.str = some (rateOf groupHz ⟨s, none⟩) :=
        hexact.member _ hmember hunfed
      simp [hrate, hmember]
    · have hno : ∀ root ∈ g.memberEnds groupHz, root.str ≠ s.str := by
        intro root hroot hstr
        have heq : root = ⟨s, none⟩ := ConnectionEnd.str_injective hstr
        exact hmember (heq ▸ hroot)
      simp [hexact.other _ hunfed hno, hnone, hs, hmember]

/-- **No rate is invented exactly when** every port fed through an async
first input, and every member output connected without an index, is fed
through sync and guarded inputs as well, unless its rate was passed in. -/
theorem production_sync_iff {production : Dict String ℚ}
    {rates : Dict PortKey ℚ × Dict String ℚ}
    (h : g.propagateMemberRates groupHz production = .ok rates) :
    (∀ s, Receives production rates s → g.SyncFed groupHz s)
      ↔ ∀ s, production.get? s.str = none →
        (g.AsyncFed groupHz s ∨ ⟨s, none⟩ ∈ g.memberEnds groupHz) → g.SyncFed groupHz s := by
  refine forall_congr' fun s => ?_
  rw [receives_iff h, feeds_iff, and_imp]
  refine imp_congr_right fun _ => ?_
  constructor
  · rintro hall (hasync | hmember)
    · exact hall (.inl (.inr hasync))
    · exact hall (.inr hmember)
  · rintro hall ((hsync | hasync) | hmember)
    · exact hsync
    · exact hall (.inl hasync)
    · exact hall (.inr hmember)

/-- The ticks start under a kind of the port the root is wired to. -/
theorem Arrives.starts {root : ConnectionEnd} {first : SyncKind} {e : PortKey} {kind : SyncKind}
    (h : g.Arrives groupHz root first e kind) :
    ∃ c ∈ g.connectionList, ∃ info, g.instances.get? c.dest.port.inst = some info
      ∧ first ∈ info.kindsOf c.dest.port.port := by
  induction h with
  | member hc _ _ hget hkind => exact ⟨_, hc, _, hget, hkind⟩
  | call _ _ _ _ ih => exact ih

end LoadedTopology

/-! ## A rate group that only fills a queue -/

/-- `RateGroupMemberOut`. -/
def PortName.memberOut : PortName := ⟨"RateGroupMemberOut", by decide⟩

/-- `T.rateGroup.RateGroupMemberOut[0]`, wired to `T.worker.run`. -/
def workerMember : Connection :=
  ⟨⟨⟨"T.rateGroup", .memberOut⟩, some 0⟩, ⟨⟨"T.worker", .run⟩, some 0⟩⟩

/-- A worker whose `run` may invoke `out`. -/
def workerInfo (kind : SyncKind) : InstanceInfo where
  kind := .active
  inputPorts := .ofList [(.run, {kind})]
  outputPorts := [.out]

/-- A rate group wired to the worker. -/
def workerTopology (kind : SyncKind) : LoadedTopology where
  instances := .ofList [("T.rateGroup", { kind := .active, outputPorts := [.memberOut] }),
    ("T.worker", workerInfo kind)]
  connections := .ofList [(⟨"T.rateGroup", .memberOut⟩, [⟨"T.worker", .run⟩])]
  flow := .permissive ∅
  connectionList := [workerMember]

/-- `group_hz`. -/
def workerHz : Dict String ℚ := .ofList [("T.rateGroup", 2)]

/-- What is inferred: twice a second, `T.worker.out` is called. -/
def workerRates : Dict PortKey ℚ × Dict String ℚ :=
  (.ofList [(⟨"T.worker", .run⟩, 2)],
    .ofList [("T.rateGroup.RateGroupMemberOut[0]", 2), ("T.worker.out", 2)])

/-- The ticks start under the kind of the worker's port. -/
theorem worker_starts {kind first kind' : SyncKind} {root : ConnectionEnd} {entry : PortKey}
    (h : (workerTopology kind).Arrives workerHz root first entry kind') : first = kind := by
  obtain ⟨c, hc, info, hget, hfirst⟩ := h.starts
  obtain rfl : c = workerMember := by simpa [workerTopology] using hc
  have hinfo : (workerTopology kind).instances.get? "T.worker" = some (workerInfo kind) := by
    cases kind <;> decide
  obtain rfl := Option.some.inj (hinfo.symm.trans hget)
  have hkinds : ∀ k k' : SyncKind, k ∈ (workerInfo k').kindsOf workerMember.dest.port.port →
      k = k' := by
    intro k k'
    cases k <;> cases k' <;> decide
  exact hkinds first kind hfirst

/-- The outputs of a handler that only a queue runs are given a rate. -/
theorem production_invented :
    (workerTopology .async).propagateMemberRates workerHz ∅ = .ok workerRates
      ∧ LoadedTopology.Receives ∅ workerRates ⟨"T.worker", .out⟩
      ∧ ¬ (workerTopology .async).SyncFed workerHz ⟨"T.worker", .out⟩ := by
  refine ⟨by decide +kernel, ⟨rfl, by decide⟩, ?_⟩
  rintro ⟨root, first, h, hfirst, ⟨entry, kind, harrives, _⟩, _⟩
  exact hfirst (worker_starts harrives)

/-- Of a handler that the ticks enter at once, they are given it rightly; of
one that a queue runs, not. -/
theorem production_sync_iff_queued :
    (∀ s, LoadedTopology.Receives ∅ workerRates s → (workerTopology .sync).SyncFed workerHz s)
      ∧ LoadedTopology.Receives ∅ workerRates ⟨"T.worker", .out⟩
      ∧ ∃ s, (∅ : Dict String ℚ).get? s.str = none
        ∧ ((workerTopology .async).AsyncFed workerHz s
          ∨ ⟨s, none⟩ ∈ (workerTopology .async).memberEnds workerHz)
        ∧ ¬ (workerTopology .async).SyncFed workerHz s := by
  have hsync := LoadedTopology.production_sync_iff (g := workerTopology .sync)
    (show (workerTopology .sync).propagateMemberRates workerHz ∅ = .ok workerRates by decide +kernel)
  have hasync := LoadedTopology.production_sync_iff (g := workerTopology .async)
    (show (workerTopology .async).propagateMemberRates workerHz ∅ = .ok workerRates by decide +kernel)
  refine ⟨hsync.mpr ?_, ⟨rfl, by decide⟩, ?_⟩
  · rintro s - (⟨root, h, ⟨entry, kind, harrives, -⟩, -⟩ | hmember)
    · cases worker_starts harrives
    · have hends : (workerTopology .sync).memberEnds workerHz = {workerMember.source} := by
        decide +kernel
      rw [hends, Finset.mem_singleton] at hmember
      cases (ConnectionEnd.mk.inj hmember).2
  · by_contra hall
    simp only [not_exists, not_and, not_not] at hall
    obtain ⟨root, first, h, hfirst, ⟨entry, kind, harrives, -⟩, -⟩ :=
      hasync.mpr hall ⟨"T.worker", .out⟩ ⟨rfl, by decide⟩
    exact hfirst (worker_starts harrives)

end FprimeTopologyAnalysis
