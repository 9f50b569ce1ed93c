/-
FprimeTopologyAnalysis.EventSeverities — the severities that a method is
recorded to log at (`EVENT_HELPER_RE` of `component_call_graph.py`).

The generated helper of an event is named `log_<severity>_<event>`, and both
parts may have underscores. The pattern takes as little as it can for the
severity (`eventHelper_eq_match`), so what is recorded is the severity up to
its first underscore (`eventHelper_name`): `WARNING` for `WARNING_HI`.
`recordsSeverity_iff` says which severities are recorded as they are; `FATAL`
is one, and the only one that a check asks for
(`fatal_mem_eventSeverities_iff`).
-/
import FprimeTopologyAnalysis.ScanBody
import FprimeTopologyAnalysis.Library.Regex

namespace FprimeTopologyAnalysis

open Library Library.Layout Library.Regex

/-! ## Events -/

/-- The severities of events. -/
inductive EventSeverity where
  | fatal
  | warningHi
  | warningLo
  | command
  | activityHi
  | activityLo
  | diagnostic
  deriving DecidableEq

namespace EventSeverity

/-- The severity as the generator writes it. -/
def text : EventSeverity → String
  | .fatal => "FATAL"
  | .warningHi => "WARNING_HI"
  | .warningLo => "WARNING_LO"
  | .command => "COMMAND"
  | .activityHi => "ACTIVITY_HI"
  | .activityLo => "ACTIVITY_LO"
  | .diagnostic => "DIAGNOSTIC"

/-- What stands before the first underscore. -/
def front (s : EventSeverity) : String := String.ofList (s.text.toList.takeWhile (· ≠ '_'))

end EventSeverity

/-- The generated helper of an event, a method of the class `cls`. -/
structure EventHelper where
  cls : String
  isConst : Bool
  severity : EventSeverity
  event : String
  identifier : event ≠ "" ∧ event.toList.all wordChar

namespace EventHelper

def name (h : EventHelper) : String := "log_" ++ (h.severity.text ++ "_" ++ h.event)

/-- What a call of it refers to. -/
def callee (h : EventHelper) : Callee := ⟨.cxxMethod h.isConst, some (h.cls, h.name), h.name⟩

/-- A call of the helper records its severity and no other. -/
def RecordsSeverity (h : EventHelper) : Prop :=
  ∀ spelling info, (scanCall spelling (some h.callee) info).eventSeverities
    = insert h.severity.text info.eventSeverities

end EventHelper

/-! ## The pattern -/

/-- `[A-Z_]`. -/
def severityChar (c : Char) : Bool := c.isUpper || c = '_'

/-- What follows a severity. -/
def afterSeverity : Pat := .cat [.lit "_", .group "event" (.plus (.set wordChar)), .atEnd]

/-- `EVENT_HELPER_RE`. -/
def eventHelperPattern : Pat :=
  .seq (.lit "log_") (.seq
    (.group "severity" (.seq (.set severityChar) (.star false (.set severityChar))))
    afterSeverity)

/-- The severity of a match. -/
def matchedSeverity (t : Regex.State) : String := String.ofList (t.group "severity")

/-- The severity of `n` characters, if an event follows. -/
def severityAt (chars : List Char) (n : Nat) : Option String :=
  match chars.drop n with
  | '_' :: event =>
    if chars.take n ≠ [] ∧ (chars.take n).all severityChar ∧ event ≠ []
        ∧ event.all wordChar then
      some (String.ofList (chars.take n))
    else none
  | _ => none

theorem matchedSeverity_note (s : Regex.State) (text : List Char) :
    matchedSeverity (s.note "event" text) = matchedSeverity s := by
  rw [matchedSeverity, Regex.State.group, Regex.State.note, List.lookup_cons]
  rfl

/-- What follows is an underscore and a word. -/
theorem head?_afterSeverity (s : Regex.State) : (afterSeverity.run s).head?.map matchedSeverity
    = match s.rest with
      | '_' :: event =>
        if event ≠ [] ∧ event.all wordChar then some (matchedSeverity s) else none
      | _ => none := by
  have hlit : (afterSeverity.run s).head? = if "_".toList <+: s.rest then
      ((Pat.cat [.group "event" (.plus (.set wordChar)), .atEnd]).run (s.advance 1)).head?
      else none := head?_run_lit "_" _ s
  rw [hlit, head?_run_word, State.advance_rest]
  cases hrest : s.rest with
  | nil => simp
  | cons c event =>
    by_cases hc : c = '_'
    · subst hc
      rw [if_pos (by simp), List.drop_succ_cons, List.drop_zero]
      show _ = if event ≠ [] ∧ event.all wordChar = true then some (matchedSeverity s) else none
      by_cases hword : event ≠ [] ∧ event.all wordChar = true
      · rw [if_pos hword, if_pos hword, Option.map_some, matchedSeverity_note]
        rfl
      · rw [if_neg hword, if_neg hword, Option.map_none]
    · rw [if_neg (by simpa using fun h : '_' = c => hc h.symm)]
      split
      · rename_i heq
        exact absurd (List.cons.inj heq).1 hc
      · rfl

/-- A severity ends before the first character that none has. -/
theorem severityAt_eq_none {chars : List Char} {n : Nat}
    (h : (chars.takeWhile severityChar).length < n) : severityAt chars n = none := by
  unfold severityAt
  split
  · rename_i event hevent
    rw [if_neg]
    intro ⟨_, hall, _⟩
    have hsplit : (chars.take n ++ '_' :: event).takeWhile severityChar
        = chars.take n ++ ('_' :: event).takeWhile severityChar :=
      List.takeWhile_append_of_pos (List.all_eq_true.mp hall)
    rw [← hevent, List.take_append_drop] at hsplit
    have hlonger := congrArg List.length hsplit
    have hlt := List.length_lt_of_drop_ne_nil (by rw [hevent]; simp)
    rw [List.length_append, List.length_take] at hlonger
    omega
  · rfl

/-- The severities are tried from the shortest on. -/
theorem severityOf_eq_findSome? (chars : List Char) : severityOf chars
    = (List.range (chars.takeWhile severityChar).length).findSome? fun n =>
        severityAt chars (n + 1) := by
  obtain ⟨more, hmore⟩ :=
    Nat.exists_eq_add_of_le (List.takeWhile_prefix (l := chars) severityChar).length_le
  -- a severity is not empty, and leaves something for the event
  have hzero : severityAt chars 0 = none := by
    unfold severityAt
    split <;> simp
  have hfull : severityAt chars chars.length = none := by
    unfold severityAt
    rw [List.drop_length]
  have hall : severityOf chars = (List.range (chars.length + 1)).findSome? (severityAt chars) := by
    rw [List.range_succ, List.findSome?_append, List.findSome?_singleton, hfull, Option.or_none]
    rfl
  have hbeyond : (List.range more).findSome?
      (severityAt chars ∘ ((chars.takeWhile severityChar).length + 1 + ·)) = none :=
    List.findSome?_eq_none_iff.mpr fun n _ =>
      severityAt_eq_none (Nat.lt_add_right n (Nat.lt_succ_self _))
  rw [hall, hmore, Nat.add_right_comm, List.range_add, List.findSome?_append,
    List.range_succ_eq_map, List.findSome?_cons, hzero, List.findSome?_map, List.findSome?_map,
    hbeyond, Option.or_none]
  rfl

/-- Up to there every beginning can be one. -/
theorem take_severityChar {chars : List Char} {n : Nat}
    (h : n < (chars.takeWhile severityChar).length) :
    chars.take (n + 1) ≠ [] ∧ (chars.take (n + 1)).all severityChar = true := by
  have hprefix := List.takeWhile_prefix (l := chars) severityChar
  have hne : chars ≠ [] := by
    intro hnil
    simp [hnil] at h
  have htake : chars.take (n + 1) = (chars.takeWhile severityChar).take (n + 1) := by
    rw [List.prefix_iff_eq_take.mp hprefix, List.take_take, Nat.min_eq_left h]
  refine ⟨by simpa using hne, List.all_eq_true.mpr fun c hc => ?_⟩
  rw [htake] at hc
  exact List.mem_takeWhile_imp (List.mem_of_mem_take hc)

/-- The severities the pattern tries, the shortest first. -/
theorem run_severity (s : Regex.State) :
    (Pat.group "severity" (.seq (.set severityChar) (.star false (.set severityChar)))).run s
      = (List.range (s.rest.takeWhile severityChar).length).map fun n =>
        (s.advance (n + 1)).note "severity" (s.rest.take (n + 1)) := by
  rw [Pat.run, run_some_set, if_neg (by decide), ends_eq_cons, List.tail_cons, List.map_map]
  refine List.map_congr_left fun n hn => ?_
  have hlt : n < (s.rest.takeWhile severityChar).length := List.mem_range.mp hn
  have hle := (List.takeWhile_prefix (l := s.rest) severityChar).length_le
  have hlength : s.rest.length - (s.advance (n + 1)).rest.length = n + 1 := by
    rw [Regex.State.advance_rest, List.length_drop]
    omega
  rw [Function.comp_apply, hlength]
  rfl

/-- The first match of what follows `log_`. -/
theorem head?_severity (s : Regex.State) :
    ((Pat.seq (.group "severity" (.seq (.set severityChar) (.star false (.set severityChar))))
      afterSeverity).run s).head?.map matchedSeverity = severityOf s.rest := by
  rw [Pat.run, run_severity, List.head?_flatMap, List.findSome?_map, List.map_findSome?,
    severityOf_eq_findSome?, ← List.head?_filterMap, ← List.head?_filterMap]
  congr 1
  refine List.filterMap_congr fun n hn => ?_
  obtain ⟨hne, hall⟩ := take_severityChar (List.mem_range.mp hn)
  show (afterSeverity.run _).head?.map matchedSeverity = _
  have hgroup : matchedSeverity ((s.advance (n + 1)).note "severity" (s.rest.take (n + 1)))
      = String.ofList (s.rest.take (n + 1)) := rfl
  rw [head?_afterSeverity, Regex.State.note_rest, Regex.State.advance_rest, severityAt, hgroup]
  split
  · simp only [ne_eq, hne, not_false_eq_true, hall, true_and]
  · rfl

/-- **The name is decoded by the pattern.** -/
theorem eventHelper_eq_match (name : String) :
    eventHelper name = (matchStart eventHelperPattern name.toList).map matchedSeverity := by
  rw [matchStart, eventHelperPattern, head?_run_lit, eventHelper, withoutPrefix, Text.startsWith]
  by_cases hprefix : "log_".toList <+: name.toList
  · rw [if_pos hprefix, if_pos (List.isPrefixOf_iff_prefix.mpr hprefix), Option.bind_some,
      head?_severity, Text.dropChars, String.toList_ofList]
    rfl
  · rw [if_neg hprefix, if_neg fun h => hprefix (List.isPrefixOf_iff_prefix.mp h)]
    rfl

/-! ## What a name tells -/

theorem withoutPrefix_append (start name : String) :
    withoutPrefix start (start ++ name) = some name := by
  rw [withoutPrefix, if_pos (Text.startsWith_self_append start name), Text.dropChars_append]

/-- **The severity ends as early as it can**, at the first underscore. -/
theorem severityOf_append {front event : List Char} (hne : front ≠ [])
    (hfront : ∀ c ∈ front, c.isUpper = true) (hevent : event ≠ [])
    (hword : event.all wordChar = true) :
    severityOf (front ++ '_' :: event) = some (String.ofList front) := by
  have hlength : (front ++ '_' :: event).length = front.length + (event.length + 1) := by simp
  -- no shorter beginning has an underscore after it
  have hshorter : ∀ n < front.length, ∀ rest, (front ++ '_' :: event).drop n ≠ '_' :: rest := by
    intro n hn rest heq
    have hget : (front ++ '_' :: event)[n]? = some '_' := by
      rw [← List.head?_drop, heq, List.head?_cons]
    rw [List.getElem?_append_left hn] at hget
    exact absurd (hfront '_' (List.mem_of_getElem? hget)) (by decide)
  unfold severityOf
  rw [hlength, List.range_add, List.findSome?_append, List.findSome?_eq_none_iff.mpr]
  · have hall : front.all (fun c => c.isUpper || c = '_') = true := by
      rw [List.all_eq_true]
      intro c hc
      simp [hfront c hc]
    rw [List.range_succ_eq_map, List.map_cons, List.findSome?_cons]
    simp only [Nat.add_zero, List.drop_left, List.take_left]
    rw [if_pos ⟨hne, hall, hevent, hword⟩]
    rfl
  · intro n hn
    dsimp only
    split
    · rename_i rest hrest
      exact absurd hrest (hshorter n (List.mem_range.mp hn) rest)
    · rfl

namespace EventSeverity

theorem front_upper (s : EventSeverity) :
    s.front.toList ≠ [] ∧ ∀ c ∈ s.front.toList, c.isUpper = true := by
  have hall : s.front.toList ≠ [] ∧ s.front.toList.all Char.isUpper = true := by
    cases s <;> decide
  exact ⟨hall.1, List.all_eq_true.mp hall.2⟩

/-- A severity is its front, or has more after an underscore. -/
theorem text_eq (s : EventSeverity) : s.text.toList = s.front.toList
    ∨ ∃ more, s.text.toList = s.front.toList ++ '_' :: more ∧ more.all wordChar = true := by
  cases s with
  | fatal => exact .inl (by decide)
  | warningHi => exact .inr ⟨['H', 'I'], by decide, by decide⟩
  | warningLo => exact .inr ⟨['L', 'O'], by decide, by decide⟩
  | command => exact .inl (by decide)
  | activityHi => exact .inr ⟨['H', 'I'], by decide, by decide⟩
  | activityLo => exact .inr ⟨['L', 'O'], by decide, by decide⟩
  | diagnostic => exact .inl (by decide)

/-- It is its front when it has no underscore. -/
theorem front_eq_text_iff (s : EventSeverity) : s.front = s.text ↔ '_' ∉ s.text.toList := by
  cases s <;> decide

theorem front_eq_fatal_iff (s : EventSeverity) : s.front = fatal.text ↔ s = .fatal := by
  cases s <;> decide

end EventSeverity

namespace EventHelper

/-- **The name of a helper tells the front of its severity.** -/
theorem eventHelper_name (h : EventHelper) : eventHelper h.name = some h.severity.front := by
  obtain ⟨hne, hupper⟩ := h.severity.front_upper
  have hevent : h.event.toList ≠ [] := by simpa using h.identifier.1
  rw [eventHelper, name, withoutPrefix_append, Option.bind_some, String.toList_append,
    String.toList_append]
  rcases h.severity.text_eq with htext | ⟨more, htext, hmore⟩
  · have hsplit : h.severity.text.toList ++ "_".toList ++ h.event.toList
        = h.severity.front.toList ++ '_' :: h.event.toList := by
      simp [htext]
    rw [hsplit, severityOf_append hne hupper hevent h.identifier.2, String.ofList_toList]
  · have hsplit : h.severity.text.toList ++ "_".toList ++ h.event.toList
        = h.severity.front.toList ++ '_' :: (more ++ '_' :: h.event.toList) := by
      simp [htext]
    have hword : (more ++ '_' :: h.event.toList).all wordChar = true := by
      have hunderscore : wordChar '_' = true := by decide
      rw [List.all_append, List.all_cons, hmore, hunderscore, h.identifier.2]
      rfl
    rw [hsplit, severityOf_append hne hupper (by simp) hword, String.ofList_toList]

/-- A call of the helper records it. -/
theorem eventSeverities_scanCall (h : EventHelper) (spelling : String) (info : MethodInfo) :
    (scanCall spelling (some h.callee) info).eventSeverities
      = insert h.severity.front info.eventSeverities := by
  show info.eventSeverities ∪ (eventHelper h.name).toFinset = _
  rw [h.eventHelper_name, Option.toFinset_some, Finset.union_comm]
  rfl

/-- **When the severity is recorded**: exactly when it has no underscore. -/
theorem recordsSeverity_iff (h : EventHelper) :
    h.RecordsSeverity ↔ '_' ∉ h.severity.text.toList := by
  rw [← h.severity.front_eq_text_iff]
  constructor
  · intro hrecords
    have hempty := hrecords "" {}
    rw [h.eventSeverities_scanCall] at hempty
    simpa using hempty
  · intro hfront spelling info
    rw [h.eventSeverities_scanCall, hfront]

/-- The helper of an event `Trouble`, which is a warning. -/
def trouble : EventHelper :=
  ⟨"Svc::TestThingComponentBase", false, .warningHi, "Trouble", by decide⟩

/-- A call of it is recorded as `WARNING`. -/
theorem trouble_recorded_short : ¬ trouble.RecordsSeverity := by
  intro h
  have hrecorded := h "log_WARNING_HI_Trouble" {}
  exact absurd hrecorded (by decide)

end EventHelper

/-! ## What a body is recorded for -/

/-- The severity a cursor tells. -/
def severityToldBy (node : Placed ExprKind) : Option String :=
  match node.label with
  | .call _ (some ⟨.other, _, _⟩) => none
  | .call _ (some ⟨_, some _, name⟩) => eventHelper name
  | _ => none

/-- What one cursor adds. -/
theorem eventSeverities_scanNode (source : Option String) (s : ScanState)
    (node : Placed ExprKind) : (scanNode source s node).info.eventSeverities
      = s.info.eventSeverities ∪ (severityToldBy node).toFinset := by
  unfold scanNode severityToldBy
  cases node.label with
  | memberRef ref =>
    show (scanMemberRef ref s.info).1.eventSeverities = _
    rw [(scanMemberRef_spec ref s.info).2.2.2, Option.toFinset_none, Finset.union_empty]
  | call spelling referenced =>
    show (scanCall spelling referenced s.info).eventSeverities = _
    rcases referenced with _ | ⟨_ | _ | _ | _, _ | key, name⟩ <;>
      simp [scanCall, apply_ite MethodInfo.eventSeverities]
  | _ => simp

theorem eventSeverities_foldl_scanNode (source : Option String) (nodes : List (Placed ExprKind)) :
    ∀ s : ScanState, (nodes.foldl (scanNode source) s).info.eventSeverities
      = s.info.eventSeverities ∪ (nodes.filterMap severityToldBy).toFinset := by
  induction nodes with
  | nil => simp
  | cons node nodes ih =>
    intro s
    rw [List.foldl_cons, ih, eventSeverities_scanNode]
    cases htold : severityToldBy node with
    | none => simp [htold]
    | some severity => simp [htold]

theorem eventSeverities_foldl_recordRef (ranges : List Extent) (refs : List (Nat × String)) :
    ∀ info : MethodInfo, (refs.foldl (recordRef ranges) info).eventSeverities
      = info.eventSeverities := by
  induction refs with
  | nil => exact fun _ => rfl
  | cons ref refs ih =>
    intro info
    rw [List.foldl_cons, ih, recordRef]
    split <;> rfl

namespace BodyText

/-- The body calls the helper. -/
def Emits (b : BodyText) (h : EventHelper) : Prop :=
  ∃ node ∈ b.root.preorder, ∃ spelling, node.label = .call spelling (some h.callee)

/-- A cursor that tells a severity is a call of a helper. -/
def HelpersOnly (b : BodyText) : Prop :=
  ∀ node ∈ b.root.preorder, (severityToldBy node).isSome →
    ∃ (h : EventHelper) (spelling : String), node.label = .call spelling (some h.callee)

/-- **What a body is recorded for** is what its cursors tell. -/
theorem mem_eventSeverities_iff (b : BodyText) (severity : String) :
    severity ∈ b.scanned.eventSeverities
      ↔ ∃ node ∈ b.root.preorder, severityToldBy node = some severity := by
  rw [scanned, scanBody, eventSeverities_foldl_recordRef, eventSeverities_foldl_scanNode]
  simp

/-- In a body that takes no name of a helper for another method, the fronts of
the severities it logs at are recorded, and nothing else. -/
theorem mem_eventSeverities_iff_emits {b : BodyText} (hb : b.HelpersOnly) (severity : String) :
    severity ∈ b.scanned.eventSeverities
      ↔ ∃ h : EventHelper, b.Emits h ∧ h.severity.front = severity := by
  have htold : ∀ (node : Placed ExprKind) (spelling : String) (h : EventHelper),
      node.label = .call spelling (some h.callee) →
      severityToldBy node = some h.severity.front := by
    intro node spelling h hlabel
    rw [severityToldBy, hlabel]
    exact h.eventHelper_name
  rw [b.mem_eventSeverities_iff]
  constructor
  · intro ⟨node, hnode, htells⟩
    obtain ⟨h, spelling, hlabel⟩ := hb node hnode (by simp [htells])
    rw [htold node spelling h hlabel, Option.some.injEq] at htells
    exact ⟨h, ⟨node, hnode, spelling, hlabel⟩, htells⟩
  · intro ⟨h, ⟨node, hnode, spelling, hlabel⟩, hfront⟩
    exact ⟨node, hnode, by rw [htold node spelling h hlabel, hfront]⟩

/-- **A FATAL is told exactly**, the one severity that a check asks for. -/
theorem fatal_mem_eventSeverities_iff {b : BodyText} (hb : b.HelpersOnly) :
    EventSeverity.fatal.text ∈ b.scanned.eventSeverities
      ↔ ∃ h : EventHelper, b.Emits h ∧ h.severity = .fatal := by
  rw [mem_eventSeverities_iff_emits hb]
  exact exists_congr fun h => and_congr_right fun _ => h.severity.front_eq_fatal_iff

end BodyText

end FprimeTopologyAnalysis
