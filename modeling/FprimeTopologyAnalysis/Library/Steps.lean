/-
FprimeTopologyAnalysis.Library.Steps — steps that may fail and change a
state whether they do or not.

A program of steps does what its parts do one after the other, and an error
skips the rest (`Does.bind`). A state can also serve requests in any order,
each with the step of its own; when some requests cost something and each of
those that succeeds raises a rank that no request lowers, there are no more
of them than ranks (`serve_costly_le`).
-/
import Mathlib.Data.List.Basic
import Mathlib.Order.Basic

namespace Library

/-- A step from a state: a result or an error, and the state after it. -/
def Step (σ ε α : Type) : Type := σ → Except ε α × σ

namespace Step

variable {σ ε α β ρ : Type}

/-- Nothing is done. -/
def done (a : α) : Step σ ε α := fun s => (.ok a, s)

/-- One step after the other; an error skips the rest. -/
def andThen (x : Step σ ε α) (f : α → Step σ ε β) : Step σ ε β := fun s =>
  match x s with
  | (.ok a, t) => f a t
  | (.error e, t) => (.error e, t)

instance : Monad (Step σ ε) where
  pure := done
  bind := andThen

/-- What is read off the state. -/
def read (g : σ → Except ε α) : Step σ ε α := fun s => (g s, s)

/-- The state is changed. -/
def modify (f : σ → σ) : Step σ ε Unit := fun s => (.ok (), f s)

theorem pure_apply (a : α) (s : σ) : (pure a : Step σ ε α) s = (.ok a, s) := rfl

theorem bind_apply (x : Step σ ε α) (f : α → Step σ ε β) (s : σ) :
    (x >>= f) s = match x s with
      | (.ok a, t) => f a t
      | (.error e, t) => (.error e, t) := rfl

theorem bind_ok {x : Step σ ε α} {f : α → Step σ ε β} {s t : σ} {a : α} (h : x s = (.ok a, t)) :
    (x >>= f) s = f a t := by
  rw [bind_apply, h]

theorem bind_error {x : Step σ ε α} {f : α → Step σ ε β} {s t : σ} {e : ε}
    (h : x s = (.error e, t)) : (x >>= f) s = (.error e, t) := by
  rw [bind_apply, h]

theorem read_bind_ok {g : σ → Except ε α} {f : α → Step σ ε β} {s : σ} {a : α}
    (h : g s = .ok a) : (read g >>= f) s = f a s :=
  bind_ok (by rw [read, h])

theorem read_bind_error {g : σ → Except ε α} {f : α → Step σ ε β} {s : σ} {e : ε}
    (h : g s = .error e) : (read g >>= f) s = (.error e, s) :=
  bind_error (by rw [read, h])

/-! ## What a step does -/

/-- Every run of the step is one of these. -/
def Does (x : Step σ ε α) (P : σ → Except ε α → σ → Prop) : Prop := ∀ s, P s (x s).1 (x s).2

theorem Does.mono {x : Step σ ε α} {P Q : σ → Except ε α → σ → Prop} (h : x.Does P)
    (hPQ : ∀ s r t, P s r t → Q s r t) : x.Does Q := fun s => hPQ _ _ _ (h s)

/-- Of two steps, the second runs from where the first one ends, if that is
no error. -/
theorem Does.bind {x : Step σ ε α} {f : α → Step σ ε β} {P : σ → Except ε α → σ → Prop}
    {Q : α → σ → Except ε β → σ → Prop} (hx : x.Does P) (hf : ∀ a, (f a).Does (Q a)) :
    (x >>= f).Does fun s r u =>
      (∃ e, P s (.error e) u ∧ r = .error e) ∨ ∃ a t, P s (.ok a) t ∧ Q a t r u := by
  intro s
  have hxs := hx s
  rw [bind_apply]
  cases hrun : x s with
  | mk r t =>
    rw [hrun] at hxs
    cases r with
    | error e => exact .inl ⟨e, hxs, rfl⟩
    | ok a => exact .inr ⟨a, t, hxs, hf a t⟩

/-- Steps one after the other, their results thrown away. -/
def each (f : ρ → Step σ ε α) : List ρ → Step σ ε Unit
  | [] => pure ()
  | item :: items => do
    let _ ← f item
    each f items

/-! ## Requests -/

/-- A request that was served: its result, and the states before and after. -/
structure Served (σ ε α ρ : Type) where
  request : ρ
  result : Except ε α
  start : σ
  final : σ

/-- Requests are served one after the other, whatever their results. -/
def serve (f : ρ → Step σ ε α) : List ρ → σ → List (Served σ ε α ρ)
  | [], _ => []
  | request :: requests, s =>
    ⟨request, (f request s).1, s, (f request s).2⟩ :: serve f requests (f request s).2

/-- The state after all of them. -/
def lastState (f : ρ → Step σ ε α) (requests : List ρ) (s : σ) : σ :=
  requests.foldl (fun s request => (f request s).2) s

/-- A request that was served ran its own step, and the later ones were served
from where it ended. -/
theorem serve_eq_append_cons {f : ρ → Step σ ε α} {one : Served σ ε α ρ}
    {later : List (Served σ ε α ρ)} :
    ∀ {requests : List ρ} {s : σ} {earlier : List (Served σ ε α ρ)},
      serve f requests s = earlier ++ one :: later →
      f one.request one.start = (one.result, one.final) ∧ ∃ rest, later = serve f rest one.final
  | [], _, _, h => by simp [serve] at h
  | request :: requests, s, [], h => by
      obtain ⟨rfl, rfl⟩ := List.cons.inj h
      exact ⟨rfl, requests, rfl⟩
  | request :: requests, s, _ :: earlier, h => serve_eq_append_cons (List.cons.inj h).2

/-- **Costly requests raise the rank**, so there are no more of them than
ranks between the first state and the last. -/
theorem serve_costly_le {f : ρ → Step σ ε α} {rank : σ → Nat} {costly : Served σ ε α ρ → Prop}
    [DecidablePred costly] (hrank : ∀ request s, rank s ≤ rank (f request s).2)
    (hcostly : ∀ request s, costly ⟨request, (f request s).1, s, (f request s).2⟩ →
      rank s < rank (f request s).2) :
    ∀ (requests : List ρ) (s : σ),
      (serve f requests s).countP costly + rank s ≤ rank (lastState f requests s)
  | [], s => by simp [serve, lastState]
  | request :: requests, s => by
      have hrest := serve_costly_le hrank hcostly requests (f request s).2
      have hle := hrank request s
      have hlt := hcostly request s
      show List.countP _ (_ :: _) + _ ≤ rank (lastState f requests _)
      rw [List.countP_cons]
      by_cases h : costly ⟨request, (f request s).1, s, (f request s).2⟩
      · have hmore := hlt h
        simp only [h, decide_true, if_true]
        omega
      · simp only [h, decide_false, Bool.false_eq_true, if_false]
        omega

end Step

end Library
