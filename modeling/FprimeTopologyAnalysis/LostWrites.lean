/-
FprimeTopologyAnalysis.LostWrites — when the severity of a data race
finding says whether a write can be lost.

`_summarize` calls a finding a warning from two counts over the writes
made with neither the component's mutex nor any lock: at least two of
them, from at least two threads. What loses a write is a pair
(`LostWrite`): two writes, or one handler on two of its threads, that
nothing keeps apart. The counts miss one writer on two threads and every
pair with a guarded or locked write in it; they overcount async writes,
which the instance's queue keeps apart (`severity_exact_iff`).
-/
import FprimeTopologyAnalysis.DataRace

namespace FprimeTopologyAnalysis

namespace DataRace

/-! ## The hazard and the counts -/

/-- Two writes, possibly one handler on two of its threads, can overlap. -/
def LostWrite (accesses : List MemberAccess) : Prop :=
  ∃ a ∈ accesses, ∃ b ∈ accesses, (a.writes ∧ b.writes) ∧ OnTwoThreads a b ∧ ¬ Excluded a b

/-- `unguarded` of `classify`. -/
def unguarded (accesses : List MemberAccess) : List MemberAccess :=
  accesses.filter fun e => e.kind ≠ .guarded ∧ e.locks = []

/-- `writing` of `_summarize`: the writes made with no mutex and no lock. -/
def openWrites (accesses : List MemberAccess) : List MemberAccess :=
  (unguarded accesses).filter MemberAccess.writes

/-- What `_summarize` asks of a warning. -/
def CountsTwo (accesses : List MemberAccess) : Prop :=
  2 ≤ (openWrites accesses).length ∧ 2 ≤ (allThreads (openWrites accesses)).card

/-- Two overlapping writes of which one is guarded or takes a lock. -/
def ShieldedPair (accesses : List MemberAccess) : Prop :=
  ∃ a ∈ accesses, ∃ b ∈ accesses, (a.writes ∧ b.writes) ∧ (a.kind = .guarded ∨ a.locks ≠ [])
    ∧ OnTwoThreads a b ∧ ¬ Excluded a b

/-- Two overlapping writes without mutex or lock. -/
def OpenPair (accesses : List MemberAccess) : Prop :=
  ∃ a ∈ openWrites accesses, ∃ b ∈ openWrites accesses,
    OnTwoThreads a b ∧ ¬ (a.kind = .async ∧ b.kind = .async)

@[simp] theorem mem_openWrites {accesses : List MemberAccess} {a : MemberAccess} :
    a ∈ openWrites accesses
      ↔ a ∈ accesses ∧ (a.kind ≠ .guarded ∧ a.locks = []) ∧ a.writes = true := by
  rw [openWrites, unguarded, List.mem_filter, List.mem_filter, decide_eq_true_iff, and_assoc]

theorem OnTwoThreads.symm {a b : MemberAccess} (h : OnTwoThreads a b) : OnTwoThreads b a := by
  obtain ⟨t₁, h₁, t₂, h₂, hne⟩ := h
  exact ⟨t₂, h₂, t₁, h₁, hne.symm⟩

theorem Excluded.symm {a b : MemberAccess} (h : Excluded a b) : Excluded b a := by
  rcases h with ⟨lock, ha, hb⟩ | ⟨ha, hb⟩ | ⟨ha, hb⟩
  · exact .inl ⟨lock, hb, ha⟩
  · exact .inr (.inl ⟨hb, ha⟩)
  · exact .inr (.inr ⟨hb, ha⟩)

/-- Two accesses without mutex or lock are kept apart by the queue alone. -/
theorem excluded_open_iff {a b : MemberAccess} (ha : a.kind ≠ .guarded) (hl : a.locks = []) :
    Excluded a b ↔ a.kind = .async ∧ b.kind = .async := by
  simp [Excluded, ha, hl]

/-- A pair that can lose a write is open, or has a shielded write in it. -/
theorem lostWrite_iff {accesses : List MemberAccess} :
    LostWrite accesses ↔ OpenPair accesses ∨ ShieldedPair accesses := by
  constructor
  · rintro ⟨a, ha, b, hb, ⟨hwa, hwb⟩, hon, hex⟩
    by_cases hsa : a.kind = .guarded ∨ a.locks ≠ []
    · exact .inr ⟨a, ha, b, hb, ⟨hwa, hwb⟩, hsa, hon, hex⟩
    by_cases hsb : b.kind = .guarded ∨ b.locks ≠ []
    · exact .inr ⟨b, hb, a, ha, ⟨hwb, hwa⟩, hsb, hon.symm, fun h => hex h.symm⟩
    · push Not at hsa hsb
      rw [excluded_open_iff hsa.1 hsa.2] at hex
      exact .inl ⟨a, mem_openWrites.mpr ⟨ha, hsa, hwa⟩, b, mem_openWrites.mpr ⟨hb, hsb, hwb⟩,
        hon, hex⟩
  · rintro (⟨a, ha, b, hb, hon, hex⟩ | ⟨a, ha, b, hb, hw, _, hon, hex⟩)
    · obtain ⟨ha, hsa, hwa⟩ := mem_openWrites.mp ha
      obtain ⟨hb, _, hwb⟩ := mem_openWrites.mp hb
      rw [← excluded_open_iff hsa.1 hsa.2] at hex
      exact ⟨a, ha, b, hb, ⟨hwa, hwb⟩, hon, hex⟩
    · exact ⟨a, ha, b, hb, hw, hon, hex⟩

/-! ## What the counts say about open pairs -/

/-- The counts see that there are two threads; the pair is there when one of
the writes does not come off the queue. -/
theorem openPair_iff_of_countsTwo {accesses : List MemberAccess} (h : CountsTwo accesses) :
    OpenPair accesses ↔ ∃ a ∈ openWrites accesses, a.kind ≠ .async ∧ a.threads.Nonempty := by
  constructor
  · rintro ⟨a, ha, b, hb, ⟨t₁, h₁, t₂, h₂, _⟩, hex⟩
    by_cases hka : a.kind = .async
    · exact ⟨b, hb, fun hkb => hex ⟨hka, hkb⟩, t₂, h₂⟩
    · exact ⟨a, ha, hka, t₁, h₁⟩
  · rintro ⟨a, ha, hka, t, ht⟩
    obtain ⟨t', ht', hne⟩ := Finset.exists_mem_ne h.2 t
    obtain ⟨b, hb, htb⟩ := mem_allThreads.mp ht'
    exact ⟨a, ha, b, hb, ⟨t, ht, t', htb, hne.symm⟩, fun hboth => hka hboth.1⟩

/-- Below the counts the only open pair is one handler with itself. -/
theorem openPair_iff_of_not_countsTwo {accesses : List MemberAccess} (h : ¬ CountsTwo accesses) :
    OpenPair accesses ↔ ∃ a ∈ openWrites accesses, a.kind ≠ .async ∧ 2 ≤ a.threads.card := by
  constructor
  · rintro ⟨a, ha, b, hb, ⟨t₁, h₁, t₂, h₂, hne⟩, hex⟩
    have htwo : 2 ≤ (allThreads (openWrites accesses)).card :=
      Finset.one_lt_card.mpr
        ⟨t₁, mem_allThreads.mpr ⟨a, ha, h₁⟩, t₂, mem_allThreads.mpr ⟨b, hb, h₂⟩, hne⟩
    have hone : (openWrites accesses).length < 2 := by
      by_contra hlen
      exact h ⟨by omega, htwo⟩
    have hpos := List.length_pos_of_mem ha
    obtain ⟨c, hc⟩ := List.length_eq_one_iff.mp (show (openWrites accesses).length = 1 by omega)
    have hac : a = c := by rwa [hc, List.mem_singleton] at ha
    have hbc : b = c := by rwa [hc, List.mem_singleton] at hb
    subst hac
    subst hbc
    exact ⟨b, ha, fun hk => hex ⟨hk, hk⟩, Finset.one_lt_card.mpr ⟨t₁, h₁, t₂, h₂, hne⟩⟩
  · rintro ⟨a, ha, hka, hcard⟩
    obtain ⟨t₁, h₁, t₂, h₂, hne⟩ := Finset.one_lt_card.mp hcard
    exact ⟨a, ha, a, ha, ⟨t₁, h₁, t₂, h₂, hne⟩, fun hboth => hka hboth.1⟩

/-! ## The severity -/

theorem summarize_severity (accesses : List MemberAccess) :
    (summarize (unguarded accesses)).1 = .warning ↔ CountsTwo accesses := by
  have hlen : 2 ≤ (openWrites accesses).length →
      ((openWrites accesses).map MemberAccess.handler).insertionSort (· ≤ ·) ≠ [] := by
    intro h hnil
    have := congrArg List.length hnil
    rw [List.length_insertionSort, List.length_map] at this
    simp at this
    simp [this] at h
  show (summarize (unguarded accesses)).1 = .warning ↔ _
  unfold summarize
  dsimp only
  split
  · rename_i hnil
    constructor
    · intro h
      cases h
    · intro h
      exact absurd hnil (hlen h.1)
  · split
    · rename_i hcount
      exact ⟨fun _ => hcount, fun _ => rfl⟩
    · rename_i hcount
      constructor
      · intro h
        cases h
      · intro h
        exact absurd h hcount

theorem summarize_severity_cases (accesses : List MemberAccess) :
    (summarize accesses).1 = .warning ∨ (summarize accesses).1 = .info := by
  unfold summarize
  dsimp only
  split
  · exact .inr rfl
  · split
    · exact .inl rfl
    · exact .inr rfl

/-- A finding's severity is that of the summary of the unguarded accesses. -/
theorem classify_severity {name member : String} {accesses : List MemberAccess} {f : RawFinding}
    (h : classify name member accesses = some f) :
    f.severity = (summarize (unguarded accesses)).1 := by
  unfold classify at h
  dsimp only at h
  split at h
  · cases h
  split at h
  · cases h
  split at h
  · cases h
  split at h
  · cases h
  · rw [Option.some.injEq] at h
    rw [← h]
    rfl

/-- **The severity says whether a write can be lost, exactly when the counts
see what the pairs do.** A counted warning needs one write that does not come
off the queue, or a pair with a guarded or locked write in it; where the
counts stay low, no such pair may be there and no single write may run on
two threads. -/
theorem severity_exact_iff (name member : String) (accesses : List MemberAccess) (f : RawFinding)
    (h : classify name member accesses = some f) :
    ((f.severity = .warning ↔ LostWrite accesses) ∧ (f.severity = .info ↔ ¬ LostWrite accesses))
      ↔ (CountsTwo accesses →
          (∃ a ∈ openWrites accesses, a.kind ≠ .async ∧ a.threads.Nonempty)
            ∨ ShieldedPair accesses)
        ∧ (¬ CountsTwo accesses →
          (∀ a ∈ openWrites accesses, a.kind ≠ .async → a.threads.card < 2)
            ∧ ¬ ShieldedPair accesses) := by
  have hwarn : f.severity = .warning ↔ CountsTwo accesses := by
    rw [classify_severity h, summarize_severity]
  have hinfo : f.severity = .info ↔ ¬ CountsTwo accesses := by
    rw [← hwarn, classify_severity h]
    rcases summarize_severity_cases (unguarded accesses) with hs | hs
    · simp [hs]
    · simp [hs]
  have hboth : ((f.severity = .warning ↔ LostWrite accesses)
      ∧ (f.severity = .info ↔ ¬ LostWrite accesses)) ↔ (CountsTwo accesses ↔ LostWrite accesses) := by
    rw [hwarn, hinfo, not_iff_not, and_self]
  rw [hboth, lostWrite_iff]
  by_cases hcounts : CountsTwo accesses
  · simp only [hcounts, true_iff, forall_true_left, not_true_eq_false, false_imp_iff, and_true]
    rw [openPair_iff_of_countsTwo hcounts]
  · simp only [hcounts, false_iff, forall_true_left, not_false_eq_true, false_imp_iff, true_and,
      not_or]
    rw [openPair_iff_of_not_countsTwo hcounts]
    push Not
    rfl

/-- One sync handler that two threads call, writing without a lock. -/
def oneWriter : List MemberAccess :=
  [⟨"go:go", .sync, {.thread "x", .thread "y"}, true, []⟩]

theorem severity_exact_iff_oneWriter :
    ∃ f, classify "inst" "C::m_v" oneWriter = some f
      ∧ (((f.severity = .warning ↔ LostWrite oneWriter)
            ∧ (f.severity = .info ↔ ¬ LostWrite oneWriter))
          ↔ (CountsTwo oneWriter →
              (∃ a ∈ openWrites oneWriter, a.kind ≠ .async ∧ a.threads.Nonempty)
                ∨ ShieldedPair oneWriter)
            ∧ (¬ CountsTwo oneWriter →
              (∀ a ∈ openWrites oneWriter, a.kind ≠ .async → a.threads.card < 2)
                ∧ ¬ ShieldedPair oneWriter)) := by
  have hsome : (classify "inst" "C::m_v" oneWriter).isSome = true := by decide
  obtain ⟨f, hf⟩ := Option.isSome_iff_exists.mp hsome
  exact ⟨f, hf, severity_exact_iff "inst" "C::m_v" oneWriter f hf⟩

/-- The handler's two runs can lose each other's write, and the finding says
INFO. -/
theorem severity_info_oneWriter :
    ∃ f, classify "inst" "C::m_v" oneWriter = some f ∧ f.severity = .info
      ∧ LostWrite oneWriter := by
  have hinfo : (classify "inst" "C::m_v" oneWriter).map RawFinding.severity = some .info := by
    decide
  obtain ⟨f, hf, hs⟩ := Option.map_eq_some_iff.mp hinfo
  refine ⟨f, hf, hs, _, List.mem_cons_self .., _, List.mem_cons_self .., ⟨rfl, rfl⟩, ?_, ?_⟩
  · exact ⟨.thread "x", by decide, .thread "y", by decide, by decide⟩
  · simp [Excluded]

end DataRace

end FprimeTopologyAnalysis
