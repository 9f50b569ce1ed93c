/-
FprimeTopologyAnalysis.CallClosure — the flow map is the closure of the call
graph (`_resolve`, `build_flow_map` of `component_call_graph.py`).

A handler's record says what its body does and what the bodies it comes to
call do. `Fact` is one thing a body can be recorded for, so that the
facets of a record need one argument and not one each: a method has the
facts of its body, a resolved handler those of the bodies it reaches, and a
record of the flow map those of the methods that map to it
(`flowMap_exact`).

`_resolve` iterates sets of calls, whose order Python leaves open, and so
does the theorem: it is about `Worklist.Take`, which takes the waiting
methods in any order.
-/
import FprimeTopologyAnalysis.CallGraph

namespace FprimeTopologyAnalysis

open Library

/-! ## Facts -/

/-- One thing a body is recorded for. -/
inductive Fact where
  | port (name : String)
  | guardedPort (name : String)
  | fieldWritten (name : String)
  | lock (name : String)
  | severity (name : String)
  | unresolvedCall
  deriving DecidableEq

/-- The body of a method shows a fact. -/
def MethodInfo.Has (info : MethodInfo) : Fact → Prop
  | .port name => name ∈ info.ports
  | .guardedPort name => name ∈ info.guardedPorts
  | .fieldWritten name => name ∈ info.fieldsWritten
  | .lock name => name ∈ info.locksTouched
  | .severity name => name ∈ info.eventSeverities
  | .unresolvedCall => info.isOpaque

/-- The variables of `_resolve` show it. -/
def Resolved.Has (r : Resolved) : Fact → Prop
  | .port name => name ∈ r.ports
  | .guardedPort name => name ∈ r.guarded
  | .fieldWritten name => name ∈ r.writes
  | .lock name => name ∈ r.locks
  | .severity name => name ∈ r.severities
  | .unresolvedCall => r.isOpaque

/-- A record of the flow map shows it. -/
def FlowHandler.Has (h : FlowHandler) : Fact → Prop
  | .port name => name ∈ h.ports
  | .guardedPort name => name ∈ h.guardedPorts
  | .fieldWritten name => name ∈ h.fieldsWritten
  | .lock name => name ∈ h.locksTaken
  | .severity name => name ∈ h.eventSeverities
  | .unresolvedCall => h.isOpaque

/-- Of the fields and locks, those of the handler's own class and of the
generated base of its component are kept. -/
def Fact.KeptFor (cls component : String) : Fact → Prop
  | .fieldWritten name => ownerOf name = cls ∨ ownerOf name = component ++ componentBaseSuffix
  | .lock name => ownerOf name = cls ∨ ownerOf name = component ++ componentBaseSuffix
  | .port _ => True
  | .guardedPort _ => True
  | .severity _ => True
  | .unresolvedCall => True

theorem Resolved.has_handler (r : Resolved) (cls component : String) (fact : Fact) :
    (r.handler {cls, component ++ componentBaseSuffix}).Has fact
      ↔ r.Has fact ∧ fact.KeptFor cls component := by
  cases fact <;> simp [Resolved.Has, Resolved.handler, FlowHandler.Has, Fact.KeptFor]

theorem FlowHandler.has_merge (existing h : FlowHandler) (fact : Fact) :
    (existing.merge h).Has fact ↔ existing.Has fact ∨ h.Has fact := by
  cases fact <;> simp [FlowHandler.Has, FlowHandler.merge]

/-! ## Resolving one handler -/

/-- One method calls another. A method that no unit defines calls nothing. -/
def CallsMethod (methods : Dict MethodKey MethodInfo) (key key' : MethodKey) : Prop :=
  ∃ info, methods.get? key = some info ∧ key' ∈ info.calls

/-- A fact of some body that `key` comes to call, its own included. -/
def ReachesFact (methods : Dict MethodKey MethodInfo) (key : MethodKey) (fact : Fact) : Prop :=
  ∃ key' info, Relation.ReflTransGen (CallsMethod methods) key key'
    ∧ methods.get? key' = some info ∧ info.Has fact

/-- What `_resolve` starts with. -/
def Resolved.nothing : Resolved := ⟨∅, ∅, ∅, ∅, ∅, ∅, false, 0⟩

/-- The body of a method; a method that no unit defines has an empty one. -/
def bodyOf (methods : Dict MethodKey MethodInfo) (key : MethodKey) : MethodInfo :=
  (methods.get? key).getD {}

/-- What some bodies show together. -/
def gathered (methods : Dict MethodKey MethodInfo) (keys : Finset MethodKey) : Resolved where
  ports := keys.biUnion fun key => (bodyOf methods key).ports
  guarded := keys.biUnion fun key => (bodyOf methods key).guardedPorts
  reads := keys.biUnion fun key => (bodyOf methods key).fieldsRead
  writes := keys.biUnion fun key => (bodyOf methods key).fieldsWritten
  locks := keys.biUnion fun key => (bodyOf methods key).locksTouched
  severities := keys.biUnion fun key => (bodyOf methods key).eventSeverities
  isOpaque := decide (∃ key ∈ keys, (bodyOf methods key).isOpaque = true)
  visited := keys.card

section Resolve

variable {methods : Dict MethodKey MethodInfo}

theorem gathered_empty : gathered methods ∅ = .nothing := rfl

theorem gathered_insert {key : MethodKey} {keys : Finset MethodKey} (hnew : key ∉ keys) :
    gathered methods (insert key keys) = (gathered methods keys).add (bodyOf methods key) := by
  simp only [gathered, Resolved.add, Finset.biUnion_insert, Finset.union_comm,
    Finset.card_insert_of_notMem hnew, Resolved.mk.injEq, true_and, and_true]
  rw [Bool.eq_iff_iff]
  simp [or_comm]

theorem has_gathered {keys : Finset MethodKey} {fact : Fact} :
    (gathered methods keys).Has fact ↔ ∃ key ∈ keys, (bodyOf methods key).Has fact := by
  cases fact <;> simp [Resolved.Has, gathered, MethodInfo.Has]

theorem has_bodyOf {key : MethodKey} {fact : Fact} :
    (bodyOf methods key).Has fact ↔ ∃ info, methods.get? key = some info ∧ info.Has fact := by
  unfold bodyOf
  cases methods.get? key with
  | none => cases fact <;> simp [MethodInfo.Has]
  | some info => simp

/-- Every method is expanded, one without a body to nothing. -/
theorem resolveExpand_eq (key : MethodKey) :
    ∃ r, resolveExpand methods key = .ok r ∧ (∀ k, k ∈ r.1 ↔ CallsMethod methods key k)
      ∧ ∀ s, r.2 s = s.add (bodyOf methods key) := by
  unfold resolveExpand CallsMethod bodyOf
  cases methods.get? key with
  | none => exact ⟨_, rfl, by simp, fun s => by simp [Resolved.add]⟩
  | some info => exact ⟨_, rfl, by simp [mem_sortKeys], fun s => rfl⟩

theorem resolveStep_iff {key key' : MethodKey} :
    Worklist.Step (resolveExpand methods) key key' ↔ CallsMethod methods key key' := by
  obtain ⟨r, hr, hcalls, _⟩ := @resolveExpand_eq methods key
  unfold Worklist.Step
  simp [hr, hcalls]

theorem resolveReach_iff {key key' : MethodKey} :
    Worklist.Reach (resolveExpand methods) [key] key'
      ↔ Relation.ReflTransGen (CallsMethod methods) key key' := by
  have hstep : Worklist.Step (resolveExpand methods) = CallsMethod methods :=
    funext fun _ => funext fun _ => propext resolveStep_iff
  simp [Worklist.Reach, hstep]

/-- The methods `_resolve` comes to are among those it is given fuel for. -/
theorem mem_resolveNodes {key key' : MethodKey}
    (h : Worklist.Reach (resolveExpand methods) [key] key') : key' ∈ resolveNodes methods key := by
  rcases (resolveReach_iff.mp h).cases_tail with rfl | ⟨caller, _, info, hget, hcall⟩
  · exact List.mem_cons_self ..
  · refine List.mem_cons_of_mem _ (List.mem_flatMap.mpr ⟨(caller, info), ?_, ?_⟩)
    · exact (methods.get?_eq_some_iff _ _).mp hget
    · exact List.mem_cons_of_mem _ (mem_sortKeys.mpr hcall)

/-- In whatever order `_resolve` takes the methods, it has gathered what
those it has seen show. -/
theorem gathered_step {key : MethodKey} {r : List MethodKey × (Resolved → Resolved)}
    {seen : Finset MethodKey} {s : Resolved} (hnew : key ∉ seen)
    (hr : resolveExpand methods key = .ok r) (hs : s = gathered methods seen) :
    r.2 s = gathered methods (insert key seen) := by
  obtain ⟨r', hr', _, hadd⟩ := @resolveExpand_eq methods key
  obtain rfl : r' = r := by simpa [hr'] using hr
  rw [hadd, hs, gathered_insert hnew]

/-- The result of `_resolve`: what the methods it comes to show. -/
theorem resolve_gathered (key : MethodKey) :
    ∃ seen, (∀ key', key' ∈ seen ↔ Worklist.Reach (resolveExpand methods) [key] key')
      ∧ resolve methods key = gathered methods seen := by
  have hrun : Worklist.run (resolveExpand methods)
      (Worklist.fuelFor (resolveExpand methods) (resolveNodes methods key) [key]) [key] ∅ .nothing
        = (.ok (), resolve methods key) := by
    refine Prod.ext ?_ rfl
    rw [Worklist.run_ok_iff _ _ fun _ h => mem_resolveNodes h]
    intro key' _
    obtain ⟨r, hr, _⟩ := @resolveExpand_eq methods key'
    exact ⟨r, hr⟩
  obtain ⟨seen, htakes⟩ := Worklist.run_takes (fun _ h => mem_resolveNodes h) hrun
  obtain ⟨hseen, hgathered⟩ := Worklist.takes_spec (fun seen s => s = gathered methods seen)
    (fun _ _ _ _ _ hnew hr hs => gathered_step hnew hr hs) gathered_empty.symm htakes
  exact ⟨seen, hseen, hgathered⟩

/-- **`_resolve` comes to an end, with the same result in every order** in
which it takes the methods it has still to visit. -/
theorem resolve_endsIn (key : MethodKey) :
    Worklist.EndsIn (resolveExpand methods) [key] .nothing (· = resolve methods key) := by
  refine Worklist.endsIn_of_spec (fun seen s => s = gathered methods seen)
    (fun _ h => mem_resolveNodes h) ?_ ?_ gathered_empty.symm ?_
  · intro key' _
    obtain ⟨r, hr, _⟩ := @resolveExpand_eq methods key'
    exact ⟨r, hr⟩
  · exact fun _ _ _ _ _ hnew hr hs => gathered_step hnew hr hs
  · intro seen s hseen hs
    obtain ⟨seen', hseen', hresolve⟩ := @resolve_gathered methods key
    obtain rfl : seen = seen' := Finset.ext fun k => (hseen k).trans (hseen' k).symm
    rw [hs, hresolve]

/-- A resolved handler shows the facts it reaches. -/
theorem has_resolve {key : MethodKey} {fact : Fact} :
    (resolve methods key).Has fact ↔ ReachesFact methods key fact := by
  obtain ⟨seen, hseen, hresolve⟩ := @resolve_gathered methods key
  rw [hresolve, has_gathered]
  simp only [hseen, resolveReach_iff, has_bodyOf, ReachesFact]
  constructor
  · rintro ⟨key', hreach, info, hget, hfact⟩
    exact ⟨key', info, hreach, hget, hfact⟩
  · rintro ⟨key', info, hreach, hget, hfact⟩
    exact ⟨key', hreach, info, hget, hfact⟩

end Resolve

/-! ## The records -/

/-- The record of a flow entry. -/
def recordAt (components : Dict String FlowComponent) (component entry : String) :
    Option FlowHandler :=
  (components.get? component).bind fun record => record.handlers.get? entry

/-- Method `key` is a handler of `component` for `entry`. -/
def MapsTo (classComponent : Dict String String) (key : MethodKey) (component entry : String) :
    Prop :=
  flowEntry key.2 = some entry ∧ componentOf classComponent key.1 = component

/-- A flow entry has a record exactly when some method maps to it, and the
record shows what the bodies show that such methods reach, of fields and
locks those kept for the method. -/
structure ExactFlow (methods : Dict MethodKey MethodInfo) (classComponent : Dict String String)
    (keys : List MethodKey) (components : Dict String FlowComponent) : Prop where
  recorded : ∀ component entry, (recordAt components component entry).isSome
    ↔ ∃ key ∈ keys, MapsTo classComponent key component entry
  facts : ∀ component entry h, recordAt components component entry = some h → ∀ fact,
    h.Has fact ↔ ∃ key ∈ keys, MapsTo classComponent key component entry
      ∧ ReachesFact methods key fact ∧ fact.KeptFor key.1 component

section Records

variable {methods : Dict MethodKey MethodInfo} {classComponent : Dict String String}

/-- What `addHandler` stores for a handler. -/
def mergedHandler (existing : Option FlowHandler) (h : FlowHandler) : FlowHandler :=
  match existing with
  | none => h
  | some existing => existing.merge h

theorem has_mergedHandler {existing : Option FlowHandler} {h : FlowHandler} {fact : Fact} :
    (mergedHandler existing h).Has fact
      ↔ (∃ e, existing = some e ∧ e.Has fact) ∨ h.Has fact := by
  cases existing with
  | none => simp [mergedHandler]
  | some e => simp [mergedHandler, FlowHandler.has_merge]

/-- A handler is merged into the record of its entry. -/
theorem recordAt_addHandler_self {components : Dict String FlowComponent} {key : MethodKey}
    {component entry : String} (hmaps : MapsTo classComponent key component entry) :
    recordAt (addHandler methods classComponent components key) component entry
      = some (mergedHandler (recordAt components component entry)
          ((resolve methods key).handler {key.1, component ++ componentBaseSuffix})) := by
  obtain ⟨hentry, rfl⟩ := hmaps
  unfold addHandler recordAt
  simp only [hentry, Dict.get?_set_self, Option.bind_some]
  cases hget : components.get? (componentOf classComponent key.1) with
  | none => rfl
  | some record => cases record.handlers.get? entry <;> rfl

/-- The other records stay. -/
theorem recordAt_addHandler_other {components : Dict String FlowComponent} {key : MethodKey}
    {component entry : String} (hmaps : ¬ MapsTo classComponent key component entry) :
    recordAt (addHandler methods classComponent components key) component entry
      = recordAt components component entry := by
  unfold addHandler recordAt
  cases hentry : flowEntry key.2 with
  | none => rfl
  | some entry' =>
    simp only [Dict.get?_set]
    split
    · rename_i hcomponent
      have hentry' : ¬ entry = entry' := fun h => hmaps ⟨h ▸ hentry, hcomponent.symm⟩
      rw [hcomponent]
      cases components.get? (componentOf classComponent key.1) <;> simp [hentry']
    · rfl

/-- **Adding handlers keeps the records exact.** -/
theorem ExactFlow.addHandler {keys : List MethodKey} {components : Dict String FlowComponent}
    (hexact : ExactFlow methods classComponent keys components) (key : MethodKey) :
    ExactFlow methods classComponent (keys ++ [key])
      (addHandler methods classComponent components key) := by
  refine ⟨fun component entry => ?_, fun component entry h hget fact => ?_⟩
  · by_cases hmaps : MapsTo classComponent key component entry
    · rw [recordAt_addHandler_self hmaps]
      simp only [Option.isSome_some, true_iff]
      exact ⟨key, by simp, hmaps⟩
    · rw [recordAt_addHandler_other hmaps, hexact.recorded]
      simp [List.mem_append, or_and_right, exists_or, hmaps]
  · by_cases hmaps : MapsTo classComponent key component entry
    · rw [recordAt_addHandler_self hmaps] at hget
      obtain rfl := Option.some.inj hget
      rw [has_mergedHandler, Resolved.has_handler, has_resolve]
      simp only [List.mem_append, List.mem_singleton, or_and_right, exists_or, exists_eq_left]
      refine or_congr ?_ (by simp [hmaps])
      constructor
      · rintro ⟨existing, hold, hfact⟩
        exact (hexact.facts component entry existing hold fact).mp hfact
      · rintro ⟨key', hkey', hmaps', hkept⟩
        obtain ⟨existing, hold⟩ := Option.isSome_iff_exists.mp
          ((hexact.recorded component entry).mpr ⟨key', hkey', hmaps'⟩)
        exact ⟨existing, hold, (hexact.facts component entry existing hold fact).mpr
          ⟨key', hkey', hmaps', hkept⟩⟩
    · rw [recordAt_addHandler_other hmaps] at hget
      rw [hexact.facts component entry h hget]
      simp [List.mem_append, or_and_right, exists_or, hmaps]

theorem exactFlow_foldl (keys : List MethodKey) :
    ExactFlow methods classComponent keys
      (keys.foldl (FprimeTopologyAnalysis.addHandler methods classComponent) ∅) := by
  induction keys using List.reverseRecOn with
  | nil =>
    refine ⟨fun component entry => ?_, fun component entry h hget => ?_⟩
    · simp [recordAt]
    · simp [recordAt] at hget
  | append_singleton keys key ih =>
    rw [List.foldl_append]
    exact ih.addHandler key

/-- The order of the methods does not matter to what is exact. -/
theorem ExactFlow.perm {keys keys' : List MethodKey} {components : Dict String FlowComponent}
    (hexact : ExactFlow methods classComponent keys components) (h : keys.Perm keys') :
    ExactFlow methods classComponent keys' components where
  recorded component entry := by
    rw [hexact.recorded]
    simp only [h.mem_iff]
  facts component entry record hget fact := by
    rw [hexact.facts component entry record hget]
    simp only [h.mem_iff]

end Records

/-- The sorted keys are the keys. -/
theorem sortKeys_perm (methods : Dict MethodKey MethodInfo) :
    (sortKeys methods.keys.toFinset).Perm methods.keys := by
  refine (List.perm_ext_iff_of_nodup ?_ methods.nodupKeys).mpr fun key => ?_
  · exact List.Nodup.map ofLex.injective (Finset.sort_nodup ..)
  · rw [mem_sortKeys, List.mem_toFinset]
    exact Iff.rfl

/-- **The flow map is the exact call closure.** Every handler is resolved,
with the same result in whatever order the calls are followed;
`build_flow_map` visits the methods in one order; and in any order the
records are exact. -/
theorem flowMap_exact (compileCommands : String) (x : UnitResult) :
    (∀ key, Worklist.EndsIn (resolveExpand x.methods) [key] .nothing (· = resolve x.methods key))
      ∧ (∃ keys : List MethodKey, keys.Perm x.methods.keys
        ∧ (buildFlowMap compileCommands x).components
          = keys.foldl (addHandler x.methods x.classComponent) ∅)
      ∧ ∀ keys : List MethodKey, keys.Perm x.methods.keys →
        ExactFlow x.methods x.classComponent x.methods.keys
          (keys.foldl (addHandler x.methods x.classComponent) ∅) :=
  ⟨resolve_endsIn, ⟨_, sortKeys_perm x.methods, rfl⟩,
    fun keys hperm => (exactFlow_foldl keys).perm hperm⟩

end FprimeTopologyAnalysis
