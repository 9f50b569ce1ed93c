/-
FprimeTopologyAnalysis.ContextDisplay — an emit context in a table cell.

Each call site of a context is abbreviated by its prefix, and some are left
out unless the table is verbose. A list of labels is not split, though: the
whole list is abbreviated by the prefix of its first label
(`shortContextPart_label`). So it is left out with that label, sync handlers
and all, and what follows the first label is never abbreviated.

The cell is as documented only for lists of which no label survives, and for
lists whose first label survives and is followed by guarded commands only:
their label has no prefix in the table and stands for itself
(`rendered_by_label_iff`).
-/
import FprimeTopologyAnalysis.EmitContext
import Mathlib.Data.List.Find

namespace FprimeTopologyAnalysis

open Library

/-! ## Labels and their short forms -/

/-- The label of a handler: of an input port or a command, told by a kind.
Port names and mnemonics are identifiers. -/
structure HandlerLabel where
  command : Bool
  kind : Option SyncKind
  name : PortName
  deriving DecidableEq

namespace HandlerLabel

/-- The label as text. -/
def text (l : HandlerLabel) : String := labelHead l.command l.kind ++ l.name.str

/-- The label of a guarded command. -/
def IsGuardedCommand (l : HandlerLabel) : Prop := l.command = true ∧ l.kind = some .guarded

/-- The label is shown: async handlers and guarded inputs only where the
table is verbose. -/
def Survives (l : HandlerLabel) (producerVerbose : Bool) : Prop :=
  producerVerbose = true ∨ l.IsGuardedCommand ∨ (l.kind ≠ some .async ∧ l.kind ≠ some .guarded)

end HandlerLabel

/-- Every handler's label is one of these, if its name is an identifier. -/
theorem handlerLabel_text (info : InstanceInfo) (entry : String)
    (hname : IsIdentifier ((commandOf entry).getD entry)) :
    info.handlerLabel entry = HandlerLabel.text
      ⟨(commandOf entry).isSome, labelKind (info.handlerKinds entry), ⟨_, hname⟩⟩ :=
  info.handlerLabel_eq entry

/-- The head's short form, if the label is shown; a guarded command's head
stands for itself. -/
def headShort (command : Bool) (kind : Option SyncKind) (producerVerbose : Bool) : Option String :=
  match contextPrefixes.find? fun p => p.head = labelHead command kind with
  | none => some (labelHead command kind)
  | some p => if p.always || producerVerbose then some (p.short ++ " ") else none

/-- A text that starts with a label's head starts with no other prefix. -/
theorem startsWith_labelHead (command : Bool) (kind : Option SyncKind) (rest : String) {head : String}
    (h : head = labelHead command kind
      ∨ (Text.startsWith (labelHead command kind) head = false
        ∧ Text.startsWith head (labelHead command kind) = false)) :
    Text.startsWith (labelHead command kind ++ rest) head
      = decide (head = labelHead command kind) := by
  rw [Bool.eq_iff_iff, Text.startsWith, String.toList_append, List.isPrefixOf_iff_prefix,
    decide_eq_true_eq]
  constructor
  · intro hpre
    rcases h with heq | ⟨hno, hno'⟩
    · exact heq
    · rcases List.prefix_or_prefix_of_prefix hpre (List.prefix_append _ _) with hin | hin
      · exact absurd (List.isPrefixOf_iff_prefix.mpr hin) (Bool.eq_false_iff.mp hno)
      · exact absurd (List.isPrefixOf_iff_prefix.mpr hin) (Bool.eq_false_iff.mp hno')
  · rintro rfl
    exact List.prefix_append _ _

theorem portTail_of_notMem {tail : String} (h : ':' ∉ tail.toList) : portTail tail = tail := by
  have hnone : ∀ cs : List Char, ':' ∉ cs → Text.splitFirstChars [':'] cs = none := by
    intro cs
    induction cs with
    | nil => simp [Text.splitFirstChars]
    | cons c cs ih =>
      intro hcs
      rw [List.mem_cons, not_or] at hcs
      simp [Text.splitFirstChars, hcs.1, ih hcs.2]
  have hsplit : Text.splitFirst ":" tail = none := by
    have hcolon : ":".toList = [':'] := by decide
    rw [Text.splitFirst, hcolon, hnone _ h, Option.map_none]
  rw [portTail, hsplit]

/-- **A text is abbreviated by the label it starts with**, whatever follows
the label's head. -/
theorem shortContextPart_label (command : Bool) (kind : Option SyncKind) {rest : String}
    (hrest : ':' ∉ rest.toList) (producerVerbose : Bool) :
    shortContextPart (labelHead command kind ++ rest) producerVerbose
      = (headShort command kind producerVerbose).map fun short => short ++ rest := by
  have hapart : ∀ p ∈ contextPrefixes, p.head = labelHead command kind
      ∨ (Text.startsWith (labelHead command kind) p.head = false
        ∧ Text.startsWith p.head (labelHead command kind) = false) := by
    cases command <;> rcases kind with _ | _ | _ | _ <;> decide +kernel
  have hfind : (contextPrefixes.find? fun p => Text.startsWith (labelHead command kind ++ rest) p.head)
      = contextPrefixes.find? fun p => decide (p.head = labelHead command kind) :=
    List.find?_congr fun p hp => startsWith_labelHead command kind rest (hapart p hp)
  rw [shortContextPart, shortWithin, shortPartWith, hfind, headShort]
  cases hp : contextPrefixes.find? fun p => decide (p.head = labelHead command kind) with
  | some p =>
    have hhead : p.head = labelHead command kind := by simpa using List.find?_some hp
    have htail : Text.dropChars (labelHead command kind ++ rest) p.head.length = rest := by
      rw [hhead, Text.dropChars_append]
    dsimp only
    rw [htail, portTail_of_notMem hrest]
    split <;> simp
  | none =>
    -- only a guarded command's head is not in the table
    have hguarded : command = true ∧ kind = some .guarded := by
      revert hp
      cases command <;> rcases kind with _ | _ | _ | _ <;> decide +kernel
    obtain ⟨rfl, rfl⟩ := hguarded
    have hmethod : Text.startsWith (labelHead true (some .guarded) ++ rest) "non-handler method "
        = false := by
      rw [Text.startsWith_append _ _ _ (by decide +kernel)]
      decide +kernel
    have hunknown : labelHead true (some .guarded) ++ rest ≠ "unknown method" := by
      intro h
      have hfirst := congrArg (fun s : String => s.toList.head?) h
      simp [labelHead] at hfirst
    simp [hmethod, hunknown]

/-! ## What a head is abbreviated to -/

theorem headShort_isSome (l : HandlerLabel) (producerVerbose : Bool) :
    (headShort l.command l.kind producerVerbose).isSome = true ↔ l.Survives producerVerbose := by
  obtain ⟨command, kind, name⟩ := l
  simp only [HandlerLabel.Survives, HandlerLabel.IsGuardedCommand]
  cases command <;> cases producerVerbose <;> rcases kind with _ | _ | _ | _ <;> decide +kernel

/-- A guarded command's head stands for itself, and every other head is
shortened. -/
theorem headShort_length {command producerVerbose : Bool} {kind : Option SyncKind} {short : String}
    (h : headShort command kind producerVerbose = some short) :
    0 < short.length ∧ ((command = true ∧ kind = some .guarded ∧ short = labelHead command kind)
      ∨ short.length < (labelHead command kind).length) := by
  have hall : ∀ short ∈ headShort command kind producerVerbose, 0 < short.length
      ∧ ((command = true ∧ kind = some .guarded ∧ short = labelHead command kind)
        ∨ short.length < (labelHead command kind).length) := by
    cases command <;> cases producerVerbose <;> rcases kind with _ | _ | _ | _ <;> decide +kernel
  exact hall short h

theorem labelHead_notMem (command : Bool) (kind : Option SyncKind) :
    ':' ∉ (labelHead command kind).toList := by
  cases command <;> rcases kind with _ | _ | _ | _ <;> decide +kernel

namespace HandlerLabel

theorem colon_notMem (l : HandlerLabel) : ':' ∉ l.text.toList := by
  rw [text, String.toList_append, List.mem_append]
  exact fun h => h.elim (labelHead_notMem _ _) (l.name.property.notMem (by decide))

/-- What a label is abbreviated to on its own. -/
def short (l : HandlerLabel) (producerVerbose : Bool) : Option String :=
  shortContextPart l.text producerVerbose

theorem short_eq (l : HandlerLabel) (producerVerbose : Bool) :
    l.short producerVerbose
      = (headShort l.command l.kind producerVerbose).map fun short => short ++ l.name.str :=
  shortContextPart_label _ _ (l.name.property.notMem (by decide)) _

theorem short_isSome (l : HandlerLabel) (producerVerbose : Bool) :
    (l.short producerVerbose).isSome = true ↔ l.Survives producerVerbose := by
  rw [short_eq, Option.isSome_map, headShort_isSome]

theorem short_ne_empty {l : HandlerLabel} {producerVerbose : Bool} {s : String}
    (h : l.short producerVerbose = some s) : s ≠ "" := by
  rw [short_eq] at h
  obtain ⟨head, hhead, rfl⟩ := Option.map_eq_some_iff.mp h
  intro hempty
  have hlen := congrArg String.length hempty
  have hpos := (headShort_length hhead).1
  simp only [String.length_append, String.length_empty] at hlen
  omega

/-- The short form is shorter, but for a guarded command. -/
theorem short_length {l : HandlerLabel} {producerVerbose : Bool} {s : String}
    (h : l.short producerVerbose = some s) :
    (l.IsGuardedCommand ∧ s = l.text) ∨ s.length < l.text.length := by
  rw [short_eq] at h
  obtain ⟨head, hhead, rfl⟩ := Option.map_eq_some_iff.mp h
  rcases (headShort_length hhead).2 with ⟨hcommand, hkind, rfl⟩ | hlt
  · exact .inl ⟨⟨hcommand, hkind⟩, rfl⟩
  · right
    rw [text, String.length_append, String.length_append]
    omega

theorem short_guardedCommand {l : HandlerLabel} (h : l.IsGuardedCommand) (producerVerbose : Bool) :
    l.short producerVerbose = some l.text := by
  obtain ⟨s, hs⟩ := Option.isSome_iff_exists.mp
    ((l.short_isSome producerVerbose).mpr (.inr (.inl h)))
  rcases short_length hs with ⟨_, rfl⟩ | hlt
  · exact hs
  · rw [short_eq] at hs
    obtain ⟨head, hhead, rfl⟩ := Option.map_eq_some_iff.mp hs
    have hself : headShort true (some .guarded) producerVerbose
        = some (labelHead true (some .guarded)) := by
      cases producerVerbose <;> decide +kernel
    rw [h.1, h.2, hself] at hhead
    rw [short_eq, h.1, h.2, hself, text, h.1, h.2]
    rfl

end HandlerLabel

/-! ## Lists of labels -/

/-- The cell as documented: the short forms of the labels that survive. -/
def renderLabels (labels : List HandlerLabel) (producerVerbose : Bool) : List String :=
  renderParts (labels.map HandlerLabel.text) producerVerbose

theorem renderLabels_eq (labels : List HandlerLabel) (producerVerbose : Bool) :
    renderLabels labels producerVerbose
      = labels.filterMap fun l => l.short producerVerbose := by
  have hshort : ∀ s ∈ labels.filterMap fun l => l.short producerVerbose, s ≠ "" := by
    intro s hs
    obtain ⟨l, _, hl⟩ := List.mem_filterMap.mp hs
    exact HandlerLabel.short_ne_empty hl
  rw [renderLabels, renderParts, List.filterMap_map]
  exact List.filter_eq_self.mpr fun s hs => decide_eq_true (hshort s hs)

theorem renderLabels_guarded {labels : List HandlerLabel}
    (h : ∀ l ∈ labels, l.IsGuardedCommand) (producerVerbose : Bool) :
    renderLabels labels producerVerbose = labels.map HandlerLabel.text := by
  rw [renderLabels_eq, ← List.filterMap_eq_map]
  exact List.filterMap_congr fun l hl => HandlerLabel.short_guardedCommand (h l hl) _

theorem renderLabels_cons (l : HandlerLabel) (rest : List HandlerLabel) (producerVerbose : Bool) :
    renderLabels (l :: rest) producerVerbose
      = (l.short producerVerbose).toList ++ renderLabels rest producerVerbose := by
  rw [renderLabels_eq, renderLabels_eq, List.filterMap_cons]
  cases l.short producerVerbose <;> rfl

/-- The characters that join some texts to one before them. -/
def joinTail (parts : List String) : List Char :=
  parts.flatMap fun part => ',' :: ' ' :: part.toList

/-- Abbreviating shortens a list unless it is all guarded commands. -/
theorem joinTail_length (producerVerbose : Bool) : ∀ rest : List HandlerLabel,
    (∀ l ∈ rest, l.IsGuardedCommand)
      ∨ (joinTail (renderLabels rest producerVerbose)).length
        < (joinTail (rest.map HandlerLabel.text)).length
  | [] => .inl (by simp)
  | l :: rest => by
      have hrest := joinTail_length producerVerbose rest
      have hle : (joinTail (renderLabels rest producerVerbose)).length
          ≤ (joinTail (rest.map HandlerLabel.text)).length := by
        rcases hrest with hguarded | hlt
        · rw [renderLabels_guarded hguarded]
        · exact hlt.le
      rw [renderLabels_cons, List.map_cons]
      cases hs : l.short producerVerbose with
      | none =>
        right
        simp only [joinTail, List.flatMap_cons, List.length_append, List.length_cons,
          Option.toList_none, List.nil_append] at hle ⊢
        omega
      | some s =>
        simp only [joinTail, List.flatMap_cons, List.length_append, List.length_cons,
          Option.toList_some, List.singleton_append, String.length_toList] at hrest hle ⊢
        rcases HandlerLabel.short_length hs with ⟨hguarded, rfl⟩ | hlt
        · rcases hrest with hall | hlt
          · exact .inl (List.forall_mem_cons.mpr ⟨hguarded, hall⟩)
          · right
            omega
        · right
          omega

theorem joinTail_eq_iff (producerVerbose : Bool) (rest : List HandlerLabel) :
    joinTail (rest.map HandlerLabel.text) = joinTail (renderLabels rest producerVerbose)
      ↔ ∀ l ∈ rest, l.IsGuardedCommand := by
  constructor
  · intro heq
    rcases joinTail_length producerVerbose rest with hall | hlt
    · exact hall
    · rw [heq] at hlt
      exact absurd hlt (lt_irrefl _)
  · intro hguarded
    rw [renderLabels_guarded hguarded]

/-! ## The cell -/

/-- A text without a colon is none of the contexts that are told apart. -/
theorem format_of_notMem {context : String} (h : ':' ∉ context.toList) (producerVerbose : Bool) :
    formatEmitContextForDisplay context producerVerbose
      = ", ".intercalate (renderParts [context] producerVerbose) := by
  have hno : ∀ special : String, ':' ∈ special.toList → context ≠ special := by
    rintro special hcolon rfl
    exact h hcolon
  have hstart : ∀ head : String, ':' ∈ head.toList → Text.startsWith context head = false := by
    intro head hcolon
    rw [Bool.eq_false_iff]
    exact fun hpre => h ((List.isPrefixOf_iff_prefix.mp hpre).subset hcolon)
  have hparts : extractContextParts context = [context] := by
    rw [extractContextParts, hstart _ (by decide +kernel), hstart _ (by decide +kernel)]
    simp
  rw [formatEmitContextForDisplay, if_neg (hno _ (by decide +kernel)),
    if_neg (hno _ (by decide +kernel)), if_neg (hno _ (by decide +kernel)), hparts]

theorem colon_notMem_joinTail : ∀ rest : List HandlerLabel,
    ':' ∉ joinTail (rest.map HandlerLabel.text)
  | [] => by simp [joinTail]
  | l :: rest => by
      have hl := l.colon_notMem
      have hrest := colon_notMem_joinTail rest
      simp only [joinTail, List.map_cons, List.flatMap_cons, List.mem_append, List.mem_cons] at hrest ⊢
      rintro ((hc | hc | hc) | hc)
      · exact absurd hc (by decide)
      · exact absurd hc (by decide)
      · exact hl hc
      · exact hrest hc

/-- A list of labels is rendered as its first label is, with the rest of the
list for a name. -/
theorem format_labels (first : HandlerLabel) (rest : List HandlerLabel) (producerVerbose : Bool) :
    (formatEmitContextForDisplay (", ".intercalate ((first :: rest).map HandlerLabel.text))
        producerVerbose).toList
      = match first.short producerVerbose with
        | none => []
        | some short => short.toList ++ joinTail (rest.map HandlerLabel.text) := by
  let name := String.ofList (first.name.str.toList ++ joinTail (rest.map HandlerLabel.text))
  have hname : ':' ∉ name.toList := by
    simp only [name, String.toList_ofList, List.mem_append]
    exact fun h => h.elim (first.name.property.notMem (by decide)) (colon_notMem_joinTail rest)
  have hcontext : ", ".intercalate ((first :: rest).map HandlerLabel.text)
      = labelHead first.command first.kind ++ name := by
    refine String.toList_injective ?_
    rw [List.map_cons, Text.toList_join_cons, HandlerLabel.text, String.toList_append,
      String.toList_append, String.toList_ofList, List.append_assoc]
    rfl
  have hcolon : ':' ∉ (labelHead first.command first.kind ++ name).toList := by
    rw [String.toList_append, List.mem_append]
    exact fun h => h.elim (labelHead_notMem _ _) hname
  rw [hcontext, format_of_notMem hcolon, renderParts, List.filterMap_cons,
    shortContextPart_label _ _ hname, first.short_eq]
  cases hshort : headShort first.command first.kind producerVerbose with
  | none => simp
  | some short =>
    have hne : short ++ name ≠ "" := by
      intro hempty
      have hlen := congrArg String.length hempty
      have hpos := (headShort_length hshort).1
      simp only [String.length_append, String.length_empty] at hlen
      omega
    have hkeep : [short ++ name].filter (fun short => decide (short ≠ "")) = [short ++ name] := by
      simp [hne]
    simp only [Option.map_some, List.filterMap_nil, hkeep, String.intercalate_singleton]
    simp [name]

/-- Labels that are not all async make a list. -/
theorem contextOf_labels {labels : List HandlerLabel} (hne : labels ≠ [])
    (hasync : ¬ ∀ l ∈ labels, l.kind = some .async) :
    contextOf (labels.map HandlerLabel.text) = ", ".intercalate (labels.map HandlerLabel.text) := by
  have hnot : ¬ (labels.map HandlerLabel.text).all fun label => Text.startsWith label "async " := by
    intro hall
    refine hasync fun l hl => ?_
    exact (isAsyncLabel_iff l.command l.kind l.name.str).mp
      (List.all_eq_true.mp hall l.text (List.mem_map_of_mem hl))
  rw [contextOf, if_neg (by simpa using hne), if_neg hnot]

/-- Nothing survives of some labels if the cell has nothing of them. -/
theorem renderLabels_eq_nil_iff (labels : List HandlerLabel) (producerVerbose : Bool) :
    renderLabels labels producerVerbose = [] ↔ ∀ l ∈ labels, ¬ l.Survives producerVerbose := by
  simp only [renderLabels_eq, List.filterMap_eq_nil_iff, ← HandlerLabel.short_isSome,
    Option.not_isSome_iff_eq_none]

/-- A list whose first label is left out is left out as a whole. -/
theorem rendered_hidden_iff {first : HandlerLabel} {producerVerbose : Bool}
    (hshort : first.short producerVerbose = none) (rest : List HandlerLabel) :
    formatEmitContextForDisplay (", ".intercalate ((first :: rest).map HandlerLabel.text))
        producerVerbose = ", ".intercalate (renderLabels (first :: rest) producerVerbose)
      ↔ ∀ l ∈ rest, ¬ l.Survives producerVerbose := by
  rw [← String.toList_inj, format_labels, renderLabels_cons, hshort, ← renderLabels_eq_nil_iff]
  simp only [Option.toList_none, List.nil_append]
  cases hparts : renderLabels rest producerVerbose with
  | nil => simp
  | cons part parts =>
    have hpart : part ≠ "" := by
      have hmem : part ∈ renderLabels rest producerVerbose := by simp [hparts]
      rw [renderLabels_eq] at hmem
      obtain ⟨l, _, hl⟩ := List.mem_filterMap.mp hmem
      exact HandlerLabel.short_ne_empty hl
    have hchars : part.toList ≠ [] := by simpa using hpart
    rw [Text.toList_join_cons]
    constructor
    · exact fun h => absurd (List.append_eq_nil_iff.mp h.symm).1 hchars
    · exact fun h => by cases h

/-- A list whose first label is shown has the others in full. -/
theorem rendered_shown_iff {first : HandlerLabel} {producerVerbose : Bool} {short : String}
    (hshort : first.short producerVerbose = some short) (rest : List HandlerLabel) :
    formatEmitContextForDisplay (", ".intercalate ((first :: rest).map HandlerLabel.text))
        producerVerbose = ", ".intercalate (renderLabels (first :: rest) producerVerbose)
      ↔ ∀ l ∈ rest, l.IsGuardedCommand := by
  rw [← String.toList_inj, format_labels, renderLabels_cons, hshort, Option.toList_some,
    List.singleton_append, Text.toList_join_cons, ← joinTail_eq_iff producerVerbose rest]
  exact List.append_right_inj _

/-- **A context is rendered handler by handler exactly when** no label of it
survives, or its first one does and all others are guarded commands'. -/
theorem rendered_by_label_iff (labels : List HandlerLabel) (producerVerbose : Bool)
    (hne : labels ≠ []) (hasync : ¬ ∀ l ∈ labels, l.kind = some .async) :
    formatEmitContextForDisplay (contextOf (labels.map HandlerLabel.text)) producerVerbose
        = ", ".intercalate (renderParts (labels.map HandlerLabel.text) producerVerbose)
      ↔ (∀ l ∈ labels, ¬ l.Survives producerVerbose)
        ∨ ∃ first rest, labels = first :: rest ∧ first.Survives producerVerbose
          ∧ ∀ l ∈ rest, l.IsGuardedCommand := by
  rw [contextOf_labels hne hasync]
  show _ = ", ".intercalate (renderLabels labels producerVerbose) ↔ _
  obtain ⟨first, rest, rfl⟩ := List.exists_cons_of_ne_nil hne
  have hfirst := first.short_isSome producerVerbose
  cases hshort : first.short producerVerbose with
  | none =>
    have hdies : ¬ first.Survives producerVerbose := by simp [← hfirst, hshort]
    have hsecond : ¬ ∃ f r, first :: rest = f :: r ∧ f.Survives producerVerbose
        ∧ ∀ l ∈ r, l.IsGuardedCommand := by
      rintro ⟨f, r, heq, hf, _⟩
      exact hdies ((List.cons.inj heq).1 ▸ hf)
    rw [rendered_hidden_iff hshort, or_iff_left hsecond, List.forall_mem_cons]
    exact (and_iff_right hdies).symm
  | some short =>
    have hlives : first.Survives producerVerbose := hfirst.mp (by simp [hshort])
    have hnotAll : ¬ ∀ l ∈ first :: rest, ¬ l.Survives producerVerbose :=
      fun h => h first (List.mem_cons_self ..) hlives
    rw [rendered_shown_iff hshort, or_iff_right hnotAll]
    constructor
    · exact fun hr => ⟨first, rest, rfl, hlives, hr⟩
    · rintro ⟨f, r, heq, _, hr⟩
      exact (List.cons.inj heq).2 ▸ hr

/-! ## A sync handler after an async one -/

/-- A component whose async `gIn` and sync `run` both emit on `out`. -/
def mixedEmitter : InstanceInfo where
  kind := .active
  inputPorts := .ofList [(.gIn, {.async}), (.run, {.sync})]
  outputPorts := [.out]

/-- An instance of it. -/
def mixedEmitterTopology : TopologyGraph where
  instances := .ofList [("T.emitter", mixedEmitter)]
  connections := ∅
  flow := .permissive ∅

/-- The labels of its emitters. -/
def mixedLabels : List HandlerLabel := [⟨false, some .async, .gIn⟩, ⟨false, some .sync, .run⟩]

/-- The sync handler is left out of the cell with the async one. -/
theorem sync_handler_hidden :
    mixedEmitterTopology.emitContextForPort "T.emitter" .out
        = .ok (contextOf (mixedLabels.map HandlerLabel.text))
      ∧ formatEmitContextForDisplay (contextOf (mixedLabels.map HandlerLabel.text)) false = ""
      ∧ renderParts (mixedLabels.map HandlerLabel.text) false = ["sync in run"] := by
  decide +kernel

/-- Without the async handler the sync one is shown as it is to be. -/
theorem rendered_by_label_iff_mixed :
    (formatEmitContextForDisplay (contextOf (mixedLabels.tail.map HandlerLabel.text)) false
        = ", ".intercalate (renderParts (mixedLabels.tail.map HandlerLabel.text) false))
      ∧ ¬ formatEmitContextForDisplay (contextOf (mixedLabels.map HandlerLabel.text)) false
        = ", ".intercalate (renderParts (mixedLabels.map HandlerLabel.text) false) := by
  refine ⟨(rendered_by_label_iff mixedLabels.tail false (by decide) (by decide)).mpr
      (.inr ⟨_, [], rfl, ?_, by simp⟩), fun hrendered => ?_⟩
  · exact .inr (.inr ⟨by decide, by decide⟩)
  · rcases (rendered_by_label_iff mixedLabels false (by decide) (by decide)).mp hrendered
      with hnone | ⟨first, rest, heq, hfirst, -⟩
    · exact hnone ⟨false, some .sync, .run⟩ (by decide) (.inr (.inr ⟨by decide, by decide⟩))
    · obtain ⟨rfl, -⟩ := List.cons.inj heq
      simp [HandlerLabel.Survives, HandlerLabel.IsGuardedCommand] at hfirst

end FprimeTopologyAnalysis
