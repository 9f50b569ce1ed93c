/-
FprimeTopologyAnalysis.Library.WorkQueue — flooding with a queue.

`loop` takes entries from the front of a queue and appends what they lead
to at its end. What it remembers of the entries it has met is the body's
own business: the body may keep a set of them, a set of something they
determine, or read it off what it has computed so far.

`Simulates` says that such a body is a round of `Worklist.Take`: an entry
met before changes nothing and adds nothing, and an entry that is new does
what expanding it does. What is proved of those loops then holds of this
one:

* `loop_takes` — a loop that ends well has taken entries until none waits;
* `loop_error` — a loop that raises met a reachable entry that raises;
* `loop_ok_iff` — so it ends well exactly when no reachable entry raises.
-/
import FprimeTopologyAnalysis.Library.Worklist

namespace Library

namespace Worklist

universe u

variable {ν ε σ τ : Type u}

/-- What the loop does with an entry: raise, or name the entries to append
and the state it leaves. -/
abbrev Body (ν ε τ : Type u) := ν → τ → Except ε (List ν × τ)

/-- The loop. The head of the list is the front of the queue. -/
def loop (body : Body ν ε τ) : Nat → List ν → τ → Except ε τ
  | 0, _, t => .ok t
  | _ + 1, [], t => .ok t
  | fuel + 1, n :: rest, t =>
    match body n t with
    | .error e => .error e
    | .ok r => loop body fuel (rest ++ r.1) r.2

variable [DecidableEq ν]

/-- The body is a round of the flood. `R` says which nodes its state
remembers, and what the flood's state is. -/
structure Simulates (expand : Expand ν ε σ) (roots : List ν) (body : Body ν ε τ)
    (R : τ → Finset ν → σ → Prop) : Prop where
  old : ∀ {n t seen s}, Reach expand roots n → R t seen s → n ∈ seen →
    ∃ t', body n t = .ok ([], t') ∧ R t' seen s
  new : ∀ {n r t seen s}, Reach expand roots n → R t seen s → n ∉ seen → expand n = .ok r →
    ∃ t', body n t = .ok (r.1, t') ∧ R t' (insert n seen) (r.2 s)
  error : ∀ {n e t seen s}, Reach expand roots n → R t seen s → n ∉ seen → expand n = .error e →
    body n t = .error e

variable {expand : Expand ν ε σ} {roots : List ν} {body : Body ν ε τ} {R : τ → Finset ν → σ → Prop}

/-- An entry is taken from the front, and its successors wait at the end. -/
private theorem take_front {n : ν} {rest : List ν} {seen : Finset ν} {s : σ}
    {r : List ν × (σ → σ)} (hnew : n ∉ seen) (hexp : expand n = .ok r) :
    Take expand (((n :: rest : List ν) : Multiset ν), seen, s)
      (((rest ++ r.1 : List ν) : Multiset ν), insert n seen, r.2 s) := by
  have hpushed : ((rest ++ r.1 : List ν) : Multiset ν) = (r.1 : Multiset ν) + (rest : Multiset ν) := by
    rw [← Multiset.coe_add, add_comm]
  rw [hpushed, ← Multiset.cons_coe]
  exact .new hnew hexp le_rfl fun m hm => .inl (Multiset.mem_coe.mpr hm)

omit [DecidableEq ν] in
/-- A node's successors are reachable, and so is the rest of the queue. -/
private theorem reach_append {n : ν} {rest : List ν} {r : List ν × (σ → σ)}
    (hwork : ∀ m ∈ n :: rest, Reach expand roots m) (hexp : expand n = .ok r) :
    ∀ m ∈ rest ++ r.1, Reach expand roots m := by
  intro m hm
  rcases List.mem_append.mp hm with hm | hm
  · exact hwork m (List.mem_cons_of_mem _ hm)
  · exact (hwork n (List.mem_cons_self ..)).step ⟨r, hexp, hm⟩

private theorem loop_takes_from (sim : Simulates expand roots body R) {live : Finset ν}
    (hlive : ∀ n, n ∈ live ↔ Reach expand roots n) :
    ∀ fuel work seen (s : σ) (t t' : τ), (∀ n ∈ work, Reach expand roots n) →
      owed expand live work seen < fuel → R t seen s → loop body fuel work t = .ok t' →
      ∃ seen' s', Takes expand ((work : Multiset ν), seen, s) (0, seen', s') ∧ R t' seen' s' := by
  intro fuel
  induction fuel with
  | zero => intro work seen s t t' _ hfuel; omega
  | succ fuel ih =>
    intro work seen s t t' hwork hfuel hR h
    cases work with
    | nil =>
      simp only [loop, Except.ok.injEq] at h
      exact ⟨seen, s, .refl, h ▸ hR⟩
    | cons n rest =>
      have hn := hwork n (List.mem_cons_self ..)
      rw [loop] at h
      by_cases hseen : n ∈ seen
      · obtain ⟨t₁, hbody, hR₁⟩ := sim.old hn hR hseen
        simp only [hbody, List.append_nil] at h
        have howed : owed expand live rest seen < fuel := by
          unfold owed at hfuel ⊢
          rw [List.length_cons] at hfuel
          omega
        obtain ⟨seen', s', htakes, hend⟩ := ih rest seen s t₁ t'
          (fun m hm => hwork m (List.mem_cons_of_mem _ hm)) howed hR₁ h
        rw [← Multiset.cons_coe]
        exact ⟨seen', s', .head (.old hseen) htakes, hend⟩
      · cases hexp : expand n with
        | error e => simp [sim.error hn hR hseen hexp] at h
        | ok r =>
          obtain ⟨t₁, hbody, hR₁⟩ := sim.new hn hR hseen hexp
          simp only [hbody] at h
          have hpush : r.1.length = pushes expand n := by simp [pushes, hexp]
          have howed := owed_insert ((hlive n).mpr hn) hseen rest r.1 hpush
          have hswap : owed expand live (rest ++ r.1) (insert n seen)
              = owed expand live (r.1 ++ rest) (insert n seen) := by
            simp [owed, Nat.add_comm]
          obtain ⟨seen', s', htakes, hend⟩ := ih _ _ _ t₁ t' (reach_append hwork hexp)
            (by omega) hR₁ h
          exact ⟨seen', s', .head (take_front hseen hexp) htakes, hend⟩

/-- **`loop` is one of these floods.** -/
theorem loop_takes (sim : Simulates expand roots body R) {all : List ν}
    (hall : ∀ n, Reach expand roots n → n ∈ all) {s : σ} {t t' : τ} (hR : R t ∅ s)
    (h : loop body (fuelFor expand all roots) roots t = .ok t') :
    ∃ seen s', Takes expand (start roots s) (0, seen, s') ∧ R t' seen s' := by
  obtain ⟨live, hlive, hfuel⟩ := exists_live hall
  exact loop_takes_from sim hlive _ _ _ _ _ _ (fun n hn => .root hn) hfuel hR h

/-- A loop that raises met a reachable entry that raises. -/
theorem loop_error (sim : Simulates expand roots body R) {e : ε} :
    ∀ fuel work seen (s : σ) (t : τ), (∀ n ∈ work, Reach expand roots n) → R t seen s →
      loop body fuel work t = .error e → ∃ n, Reach expand roots n ∧ expand n = .error e := by
  intro fuel
  induction fuel with
  | zero => intro work seen s t _ _ h; simp [loop] at h
  | succ fuel ih =>
    intro work seen s t hwork hR h
    cases work with
    | nil => simp [loop] at h
    | cons n rest =>
      have hn := hwork n (List.mem_cons_self ..)
      rw [loop] at h
      by_cases hseen : n ∈ seen
      · obtain ⟨t₁, hbody, hR₁⟩ := sim.old hn hR hseen
        simp only [hbody, List.append_nil] at h
        exact ih rest seen s t₁ (fun m hm => hwork m (List.mem_cons_of_mem _ hm)) hR₁ h
      · cases hexp : expand n with
        | error e' =>
          simp only [sim.error hn hR hseen hexp, Except.error.injEq] at h
          exact ⟨n, hn, by rw [hexp, h]⟩
        | ok r =>
          obtain ⟨t₁, hbody, hR₁⟩ := sim.new hn hR hseen hexp
          simp only [hbody] at h
          exact ih _ _ _ t₁ (reach_append hwork hexp) hR₁ h

/-- A loop ends well exactly when no reachable entry raises. -/
theorem loop_ok_iff (sim : Simulates expand roots body R) {all : List ν}
    (hall : ∀ n, Reach expand roots n → n ∈ all) {s : σ} {t : τ} (hR : R t ∅ s) :
    (∃ t', loop body (fuelFor expand all roots) roots t = .ok t')
      ↔ ∀ n, Reach expand roots n → ∃ r, expand n = .ok r := by
  constructor
  · rintro ⟨t', h⟩ n hn
    obtain ⟨seen, s', htakes, _⟩ := loop_takes sim hall hR h
    have hkeep : ∀ n r (seen : Finset ν) (s : σ), Reach expand roots n → n ∉ seen →
        expand n = .ok r → (∀ m ∈ seen, ∃ r, expand m = .ok r) →
        ∀ m ∈ insert n seen, ∃ r, expand m = .ok r := by
      intro n r seen s _ _ hexp hold m hm
      rcases Finset.mem_insert.mp hm with rfl | hm
      · exact ⟨r, hexp⟩
      · exact hold m hm
    obtain ⟨hseen, hok⟩ := takes_spec (fun seen _ => ∀ m ∈ seen, ∃ r, expand m = .ok r)
      hkeep (by simp) htakes
    exact hok n ((hseen n).mpr hn)
  · intro hok
    cases hrun : loop body (fuelFor expand all roots) roots t with
    | ok t' => exact ⟨t', rfl⟩
    | error e =>
      obtain ⟨n, hn, herr⟩ := loop_error sim _ roots ∅ s t (fun n hn => .root hn) hR hrun
      obtain ⟨r, hr⟩ := hok n hn
      rw [herr] at hr
      cases hr

end Worklist

end Library
