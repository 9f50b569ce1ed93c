/-
FprimeTopologyAnalysis.SuppressionFile — the suppression file
(`load_suppressions` of `guarded_port_analyzer.py`).

A line names an ordering, or an instance for its self-deadlock, with blanks
and a comment as one likes (`Writes`). That is all that is read
(`suppressionOf_eq_some_iff`), so a file has the orderings its lines write,
in any order, and files set under each other have those of both. An ordering
is missing from the lock graph exactly where a line writes it
(`suppression_file_exact`).
-/
import FprimeTopologyAnalysis.Suppressions
import FprimeTopologyAnalysis.Library.Lines

namespace FprimeTopologyAnalysis

open Library

/-! ## Reading -/

/-- What a line suppresses. -/
def suppressionOf (raw : String) : Option (String × String) :=
  let line := Text.strip (Text.before '#' raw)
  if line = "" then none
  else
    match Text.splitFirst "->" line with
    | none => some (line, line)
    | some (left, right) =>
      let holder := Text.strip left
      let acquired := Text.strip right
      if holder ≠ "" ∧ acquired ≠ "" then some (holder, acquired) else none

/-- One round of the loop over the lines. -/
def readSuppression (suppressions : Finset (String × String)) (raw : String) :
    Finset (String × String) :=
  match suppressionOf raw with
  | none => suppressions
  | some pair => insert pair suppressions

/-- `load_suppressions`, of the file's text. -/
def loadSuppressions (text : String) : Finset (String × String) :=
  (Text.splitlines text).foldl readSuppression ∅

/-! ## Writing -/

/-- `->`. -/
def arrow : List Char := ['-', '>']

/-- A name that a line can hold. -/
structure IsEntryName (name : List Char) : Prop where
  ne : name ≠ []
  trimmed : Text.Trimmed name
  uncommented : '#' ∉ name

/-- Nothing, or a comment. -/
def IsComment (cs : List Char) : Prop := ∀ c ∈ cs.head?, c = '#'

/-- The line writes the pair. -/
inductive Writes : String × String → List Char → Prop
  | ordering {holder acquired : String} {a b c d comment : List Char} :
      IsEntryName holder.toList → ¬ arrow <:+: holder.toList → IsEntryName acquired.toList →
      Text.Blank a → Text.Blank b → Text.Blank c → Text.Blank d → IsComment comment →
      Writes (holder, acquired)
        (a ++ (holder.toList ++ b ++ arrow ++ (c ++ acquired.toList)) ++ d ++ comment)
  | bare {name : String} {a b comment : List Char} :
      IsEntryName name.toList → ¬ arrow <:+: name.toList →
      Text.Blank a → Text.Blank b → IsComment comment →
      Writes (name, name) (a ++ name.toList ++ b ++ comment)

/-! ## What is read is what is written -/

theorem not_space_of {c : Char} (h : Text.isSpace c = true) : c ≠ '#' ∧ c ≠ '-' ∧ c ≠ '>' := by
  refine ⟨?_, ?_, ?_⟩ <;> rintro rfl <;> revert h <;> decide

/-- An arrow that starts before another ends before it. -/
theorem arrow_first_iff {left right : List Char} :
    (∀ a' c', left = a' ++ c' → c' ≠ [] → ¬ arrow <+: c' ++ arrow ++ right)
      ↔ ¬ arrow <:+: left := by
  constructor
  · rintro hfirst ⟨p, q, hpq⟩
    refine hfirst p (arrow ++ q) (by rw [← hpq, List.append_assoc]) (by simp [arrow]) ?_
    simp only [List.append_assoc]
    exact List.prefix_append arrow _
  · intro hnone a' c' heq hne hstart
    cases c' with
    | nil => exact hne rfl
    | cons x c' =>
      cases c' with
      | nil => simp [arrow] at hstart
      | cons y rest =>
        obtain ⟨t, ht⟩ := hstart
        have hxy : x = '-' ∧ y = '>' := by
          simp only [arrow, List.cons_append, List.nil_append, List.cons.injEq] at ht
          exact ⟨ht.1.symm, ht.2.1.symm⟩
        refine hnone ⟨a', rest, ?_⟩
        rw [heq, hxy.1, hxy.2, arrow]
        simp

theorem splitFirst_arrow {line left right : String} :
    Text.splitFirst "->" line = some (left, right)
      ↔ line.toList = left.toList ++ arrow ++ right.toList ∧ ¬ arrow <:+: left.toList := by
  have hsep : "->".toList = arrow := rfl
  have harrow : arrow ≠ [] := by decide
  rw [Text.splitFirst, hsep, ← arrow_first_iff, ← Text.splitFirstChars_eq_some_iff harrow,
    Option.map_eq_some_iff]
  constructor
  · rintro ⟨⟨a, b⟩, hsplit, heq⟩
    obtain ⟨rfl, rfl⟩ := Prod.mk.inj heq
    simpa using hsplit
  · intro hsplit
    exact ⟨(left.toList, right.toList), hsplit, by simp⟩

theorem splitFirst_arrow_none {line : String} :
    Text.splitFirst "->" line = none ↔ ¬ arrow <:+: line.toList := by
  have hsep : "->".toList = arrow := rfl
  rw [Text.splitFirst, hsep, Option.map_eq_none_iff,
    Text.splitFirstChars_eq_none_iff (by decide)]

theorem before_comment {body comment : List Char} (hbody : '#' ∉ body)
    (hcomment : IsComment comment) : (body ++ comment).takeWhile (· ≠ '#') = body := by
  have hall : ∀ c ∈ body, decide (c ≠ '#') = true :=
    fun c hc => decide_eq_true fun heq => hbody (heq ▸ hc)
  rw [List.takeWhile_append_of_pos hall]
  cases comment with
  | nil => simp
  | cons c comment => simp [hcomment c rfl]

/-- A line is what it says and a comment. -/
theorem exists_comment (raw : List Char) :
    ∃ comment, '#' ∉ raw.takeWhile (· ≠ '#') ∧ IsComment comment
      ∧ raw = raw.takeWhile (· ≠ '#') ++ comment := by
  refine ⟨raw.dropWhile (· ≠ '#'), fun h => ?_, fun c hc => ?_, ?_⟩
  · have hne := List.mem_takeWhile_imp h
    simp at hne
  · have hnot := List.head?_dropWhile_not (fun c => decide (c ≠ '#')) raw
    rw [Option.mem_def.mp hc] at hnot
    simpa using hnot
  · exact List.takeWhile_append_dropWhile.symm

theorem blank_append {a b : List Char} (ha : Text.Blank a) (hb : Text.Blank b) :
    Text.Blank (a ++ b) :=
  fun c hc => (List.mem_append.mp hc).elim (ha c) (hb c)

theorem blank_nil : Text.Blank [] := by simp [Text.Blank]

theorem notMem_blank {a : List Char} (ha : Text.Blank a) : '#' ∉ a :=
  fun h => (not_space_of (ha _ h)).1 rfl

/-- Blanks after a name bring no arrow. -/
theorem arrow_infix_blank {name b : List Char} (hb : Text.Blank b) :
    arrow <:+: name ++ b ↔ arrow <:+: name := by
  have hnone : ∀ x ∈ b, x ∉ arrow := by
    intro x hx
    have hne := not_space_of (hb x hx)
    simp [arrow, hne.2.1, hne.2.2]
  have h := @Text.infix_between_iff _ arrow (by decide) name [] b (by simp) hnone
  simpa using h

/-- What is read of a line without its comment. -/
theorem suppressionOf_eq {raw : String} {a line b comment : List Char}
    (hraw : raw.toList = a ++ line ++ b ++ comment) (ha : Text.Blank a) (hb : Text.Blank b)
    (hline : Text.Trimmed line) (hnot : '#' ∉ line) (hcomment : IsComment comment) :
    Text.strip (Text.before '#' raw) = String.ofList line := by
  have hbody : '#' ∉ a ++ line ++ b := by
    simp only [List.mem_append, not_or]
    exact ⟨⟨notMem_blank ha, hnot⟩, notMem_blank hb⟩
  rw [Text.strip, Text.before, String.toList_ofList, hraw, before_comment hbody hcomment,
    Text.stripChars_pad ha hline hb]

theorem strip_padded {s name : String} {a b : List Char} (hs : s.toList = a ++ name.toList ++ b)
    (ha : Text.Blank a) (hb : Text.Blank b) (hname : IsEntryName name.toList) :
    Text.strip s = name := by
  rw [Text.strip, hs, Text.stripChars_pad ha hname.trimmed hb, String.ofList_toList]

/-- What is written is read. -/
theorem Writes.read {raw : String} {p : String × String} (h : Writes p raw.toList) :
    suppressionOf raw = some p := by
  generalize hraw : raw.toList = line at h
  cases h with
  | @ordering holder acquired a b c d comment hholder hnone hacquired ha hb hc hd hcomment =>
    have hhead := hholder.trimmed.head
    have hlast := hacquired.trimmed.last
    obtain ⟨x, xs, hx⟩ := List.exists_cons_of_ne_nil hholder.ne
    obtain ⟨ys, y, hy⟩ := List.eq_nil_or_concat acquired.toList |>.resolve_left hacquired.ne
    have htrimmed : Text.Trimmed (holder.toList ++ b ++ arrow ++ (c ++ acquired.toList)) := by
      constructor
      · rw [hx] at hhead ⊢
        simpa using hhead
      · rw [hy] at hlast ⊢
        simpa [← List.append_assoc] using hlast
    have hnot : '#' ∉ holder.toList ++ b ++ arrow ++ (c ++ acquired.toList) := by
      simp only [List.mem_append, not_or]
      exact ⟨⟨⟨hholder.uncommented, notMem_blank hb⟩, by decide⟩, notMem_blank hc,
        hacquired.uncommented⟩
    have hstrip := suppressionOf_eq hraw ha hd htrimmed hnot hcomment
    have hsplit : Text.splitFirst "->"
        (String.ofList (holder.toList ++ b ++ arrow ++ (c ++ acquired.toList)))
          = some (String.ofList (holder.toList ++ b), String.ofList (c ++ acquired.toList)) :=
      splitFirst_arrow.mpr ⟨by simp, by simpa [arrow_infix_blank hb] using hnone⟩
    have hleft : Text.strip (String.ofList (holder.toList ++ b)) = holder :=
      strip_padded (a := []) (by simp) blank_nil hb hholder
    have hright : Text.strip (String.ofList (c ++ acquired.toList)) = acquired :=
      strip_padded (b := []) (by simp) hc blank_nil hacquired
    have hne : String.ofList (holder.toList ++ b ++ arrow ++ (c ++ acquired.toList)) ≠ "" := by
      simp [hx]
    have hholderne : holder ≠ "" := by
      rintro rfl
      exact hholder.ne rfl
    have hacquiredne : acquired ≠ "" := by
      rintro rfl
      exact hacquired.ne rfl
    unfold suppressionOf
    simp only [hstrip, if_neg hne, hsplit, hleft, hright]
    exact if_pos ⟨hholderne, hacquiredne⟩
  | @bare name a b comment hname hnone ha hb hcomment =>
    have hstrip := suppressionOf_eq hraw ha hb hname.trimmed hname.uncommented hcomment
    rw [String.ofList_toList] at hstrip
    have hne : name ≠ "" := by
      rintro rfl
      exact hname.ne rfl
    simp [suppressionOf, hstrip, splitFirst_arrow_none.mpr hnone, hne]

/-- A text between blanks. -/
theorem exists_padding (s : String) : ∃ a b, Text.Blank a ∧ Text.Blank b
    ∧ s.toList = a ++ (Text.strip s).toList ++ b ∧ Text.Trimmed (Text.strip s).toList := by
  obtain ⟨a, b, ha, hb, htrimmed, heq⟩ := Text.exists_strip s.toList
  rw [Text.strip, String.toList_ofList]
  exact ⟨a, b, ha, hb, heq, htrimmed⟩

theorem isEntryName_strip {s : String} (hne : Text.strip s ≠ "") (hnot : '#' ∉ s.toList) :
    IsEntryName (Text.strip s).toList := by
  obtain ⟨a, b, _, _, heq, htrimmed⟩ := exists_padding s
  refine ⟨by simpa using hne, htrimmed, fun h => hnot ?_⟩
  rw [heq]
  simp [h]

/-- What is read is written. -/
theorem writes_of_suppressionOf {raw : String} {p : String × String}
    (h : suppressionOf raw = some p) : Writes p raw.toList := by
  obtain ⟨comment, hnot, hcomment, hraw⟩ := exists_comment raw.toList
  obtain ⟨a, b, ha, hb, heq, _⟩ := exists_padding (Text.before '#' raw)
  have hbefore : (Text.before '#' raw).toList = raw.toList.takeWhile (· ≠ '#') :=
    String.toList_ofList
  rw [hbefore] at heq
  unfold suppressionOf at h
  generalize hline : Text.strip (Text.before '#' raw) = line at h heq
  have hlinenot : '#' ∉ line.toList := by
    intro hmem
    rw [heq] at hnot
    exact hnot (by simp [hmem])
  dsimp only at h
  by_cases hne : line = ""
  · rw [if_pos hne] at h
    cases h
  · rw [if_neg hne] at h
    have hname : IsEntryName line.toList := by
      have hstrip := @isEntryName_strip (Text.before '#' raw)
      rw [hline, hbefore] at hstrip
      exact hstrip hne hnot
    rw [heq] at hraw
    cases hsplit : Text.splitFirst "->" line with
    | none =>
      rw [hsplit] at h
      obtain rfl := Option.some.inj h
      rw [hraw]
      exact .bare hname (splitFirst_arrow_none.mp hsplit) ha hb hcomment
    | some parts =>
      obtain ⟨left, right⟩ := parts
      rw [hsplit] at h
      dsimp only at h
      by_cases hnames : Text.strip left ≠ "" ∧ Text.strip right ≠ ""
      · rw [if_pos hnames] at h
        obtain rfl := Option.some.inj h
        obtain ⟨hparts, hnone⟩ := splitFirst_arrow.mp hsplit
        obtain ⟨a₁, b₁, ha₁, hb₁, hleft, _⟩ := exists_padding left
        obtain ⟨a₂, b₂, ha₂, hb₂, hright, _⟩ := exists_padding right
        have hleftnot : '#' ∉ left.toList := fun hmem => hlinenot (by simp [hparts, hmem])
        have hrightnot : '#' ∉ right.toList := fun hmem => hlinenot (by simp [hparts, hmem])
        have hheld : ¬ arrow <:+: (Text.strip left).toList := by
          intro hoccurs
          refine hnone (hoccurs.trans ?_)
          rw [hleft]
          exact List.infix_append _ _ _
        have hwrites := Writes.ordering (isEntryName_strip hnames.1 hleftnot) hheld
          (isEntryName_strip hnames.2 hrightnot) (blank_append ha ha₁) hb₁ ha₂
          (blank_append hb₂ hb) hcomment
        rw [hraw, hparts, hleft, hright]
        simpa only [List.append_assoc] using hwrites
      · rw [if_neg hnames] at h
        cases h

/-- **A line is read as it is written.** -/
theorem suppressionOf_eq_some_iff {raw : String} {p : String × String} :
    suppressionOf raw = some p ↔ Writes p raw.toList :=
  ⟨writes_of_suppressionOf, Writes.read⟩

theorem mem_foldl_readSuppression {p : String × String} : ∀ (raws : List String)
    (suppressions : Finset (String × String)),
    p ∈ raws.foldl readSuppression suppressions
      ↔ p ∈ suppressions ∨ ∃ raw ∈ raws, suppressionOf raw = some p
  | [], suppressions => by simp
  | raw :: raws, suppressions => by
      rw [List.foldl_cons, mem_foldl_readSuppression raws, readSuppression]
      cases hraw : suppressionOf raw with
      | none => simp [hraw]
      | some q => simp [hraw, or_assoc, or_left_comm, eq_comm]

/-- The file suppresses what one of its lines writes. -/
theorem mem_loadSuppressions {text : String} {p : String × String} :
    p ∈ loadSuppressions text ↔ ∃ line ∈ Text.lineChars text.toList, Writes p line := by
  rw [loadSuppressions, mem_foldl_readSuppression, Text.splitlines]
  simp [suppressionOf_eq_some_iff]

/-! ## Files -/

theorem not_writes_nil {p : String × String} : ¬ Writes p [] := by
  intro h
  generalize hnil : ([] : List Char) = line at h
  cases h with
  | ordering hname => simp [arrow] at hnil
  | bare hname =>
    have hlen := congrArg List.length hnil
    have hpos := List.length_pos_iff.mpr hname.ne
    simp only [List.length_nil, List.length_append] at hlen
    omega

/-- Files set under each other suppress what either does. -/
theorem loadSuppressions_append (text other : String) :
    loadSuppressions (text ++ "\n" ++ other) = loadSuppressions text ∪ loadSuppressions other := by
  have hlines : (text ++ "\n" ++ other).toList = text.toList ++ '\n' :: other.toList := by
    simp
  ext p
  rw [Finset.mem_union, mem_loadSuppressions, mem_loadSuppressions, mem_loadSuppressions, hlines,
    Text.lineChars_append]
  rcases Text.lineChars_end text.toList with hend | hend
  · simp [hend, or_and_right, exists_or]
  · simp [hend, or_and_right, exists_or, not_writes_nil]

/-- The file of some orderings. -/
def suppressionText (pairs : List (String × String)) : String :=
  String.join (pairs.map fun p => p.1 ++ " -> " ++ p.2 ++ "\n")

/-- An ordering that a line can hold. -/
structure IsOrdering (p : String × String) : Prop where
  holder : IsEntryName p.1.toList
  acquired : IsEntryName p.2.toList
  arrowless : ¬ arrow <:+: p.1.toList
  unbroken : ∀ c ∈ p.1.toList ++ p.2.toList, Text.isLineBreak c = false

/-- **What is saved is loaded.** -/
theorem loadSuppressions_suppressionText (pairs : List (String × String))
    (h : ∀ p ∈ pairs, IsOrdering p) : loadSuppressions (suppressionText pairs) = pairs.toFinset := by
  have hlines : Text.lineChars (suppressionText pairs).toList
      = pairs.map fun p => p.1.toList ++ [' '] ++ arrow ++ ([' '] ++ p.2.toList) := by
    induction pairs with
    | nil => rfl
    | cons p pairs ih =>
      obtain ⟨hp, hpairs⟩ := List.forall_mem_cons.mp h
      have htext : (suppressionText (p :: pairs)).toList
          = (p.1.toList ++ [' '] ++ arrow ++ ([' '] ++ p.2.toList))
            ++ '\n' :: (suppressionText pairs).toList := by
        simp [suppressionText, String.join_cons, arrow]
      rw [htext, Text.lineChars_line, ih hpairs, List.map_cons]
      have harrow : ∀ c ∈ arrow, Text.isLineBreak c = false := by
        simp [arrow, Text.isLineBreak]
      intro c hc
      have hunbroken := hp.unbroken c
      simp only [List.mem_append] at hc hunbroken
      rcases hc with ((hc | hc) | hc) | hc | hc
      · exact hunbroken (.inl hc)
      · rw [List.mem_singleton.mp hc]
        decide
      · exact harrow c hc
      · rw [List.mem_singleton.mp hc]
        decide
      · exact hunbroken (.inr hc)
  have hwrites : ∀ p, IsOrdering p →
      Writes p (p.1.toList ++ [' '] ++ arrow ++ ([' '] ++ p.2.toList)) := by
    intro p hp
    have hblank : Text.Blank [' '] := by simp [Text.Blank, Text.isSpace]
    have hcomment : IsComment [] := by simp [IsComment]
    simpa using Writes.ordering hp.holder hp.arrowless hp.acquired blank_nil hblank hblank blank_nil
      hcomment
  ext q
  rw [mem_loadSuppressions, hlines, List.mem_toFinset]
  constructor
  · rintro ⟨line, hline, hq⟩
    obtain ⟨p, hp, rfl⟩ := List.mem_map.mp hline
    have hsame : ∀ q, Writes q (p.1.toList ++ [' '] ++ arrow ++ ([' '] ++ p.2.toList)) →
        suppressionOf (String.ofList (p.1.toList ++ [' '] ++ arrow ++ ([' '] ++ p.2.toList)))
          = some q :=
      fun q hq => suppressionOf_eq_some_iff.mpr (by rwa [String.toList_ofList])
    rw [Option.some.inj ((hsame q hq).symm.trans (hsame p (hwrites p (h p hp))))]
    exact hp
  · exact fun hq => ⟨_, List.mem_map_of_mem hq, hwrites q (h q hq)⟩

/-- The lock graph without what the settings suppress. -/
theorem get?_lockEdges_run (g : TopologyGraph) (cfg : AnalyzerSettings) (key : String × String) :
    (run g cfg).2.analyzer.lockEdges.get? key
      = if key ∈ cfg.suppressions then none
        else (run g cfg.unsuppressed).2.analyzer.lockEdges.get? key := by
  unfold run
  rw [buildLockGraph_suppress]
  cases buildLockGraph g cfg.unsuppressed with
  | mk r s =>
    have hfilter : (s.analyzer.suppress cfg.suppressions).lockEdges.get? key
        = if key ∈ cfg.suppressions then none else s.analyzer.lockEdges.get? key := by
      rw [AnalyzerState.suppress, Dict.get?_filter]
      by_cases hkey : key ∈ cfg.suppressions <;> simp [hkey]
    cases r with
    | error e => exact hfilter
    | ok _ =>
      simp only [BuildState.suppress, detectCycles_lockEdges]
      exact hfilter

/-- **The suppression file is exact.** An ordering is missing from the lock
graph where a line of the file writes it, and nowhere else; files set under
each other suppress what either does; and what is saved is loaded. -/
theorem suppression_file_exact (g : TopologyGraph) (cfg : AnalyzerSettings) (text : String) :
    (∀ key, (∃ line ∈ Text.lineChars text.toList, Writes key line) →
        (run g { cfg with suppressions := loadSuppressions text }).2.analyzer.lockEdges.get? key
          = none)
      ∧ (∀ key, (¬ ∃ line ∈ Text.lineChars text.toList, Writes key line) →
        (run g { cfg with suppressions := loadSuppressions text }).2.analyzer.lockEdges.get? key
          = (run g cfg.unsuppressed).2.analyzer.lockEdges.get? key)
      ∧ (∀ other, loadSuppressions (text ++ "\n" ++ other)
        = loadSuppressions text ∪ loadSuppressions other)
      ∧ ∀ pairs, (∀ p ∈ pairs, IsOrdering p) →
        loadSuppressions (suppressionText pairs) = pairs.toFinset := by
  refine ⟨fun key hkey => ?_, fun key hkey => ?_, loadSuppressions_append text,
    loadSuppressions_suppressionText⟩
  · rw [get?_lockEdges_run]
    exact if_pos (mem_loadSuppressions.mpr hkey)
  · rw [get?_lockEdges_run]
    exact if_neg (mt mem_loadSuppressions.mp hkey)

/-- A reviewed ordering of the row of guarded handlers. -/
theorem suppression_file_row :
    (run rowTopology { suppressions := loadSuppressions "# reviewed\n  x ->y  # by design\n" }
        ).2.analyzer.lockEdges.get? ("x", "y") = none
      ∧ (run rowTopology {}).2.analyzer.lockEdges.get? ("x", "y") ≠ none :=
  ⟨(suppression_file_exact rowTopology {} "# reviewed\n  x ->y  # by design\n").1 ("x", "y")
      (mem_loadSuppressions.mp (by decide +kernel)), by decide +kernel⟩

end FprimeTopologyAnalysis
