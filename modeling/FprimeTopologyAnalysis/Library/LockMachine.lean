/-
FprimeTopologyAnalysis.Library.LockMachine — threads that nest
non-recursive mutexes.

A thread runs a stack of frames. A call pushes a frame, and a call that
takes a mutex first blocks until no thread holds it, the caller included;
returning pops the frame and releases its mutex. Which frames a thread
starts with and which calls a frame makes are parameters (`System`), and
so is which held mutexes a further one may be taken with (`may`): the whole
machine is the one where that always holds.

`Reachable.inv`: in every reachable state each stack is a call path, a
blocked thread is blocked on a call of its top frame, and no mutex is held
twice. `Circle.nodup_mutexes`: the mutexes of a circle of waits are
distinct then.
-/
import FprimeTopologyAnalysis.Library.ElementaryCycles
import Mathlib.Logic.Relation

namespace Library

universe u v w

namespace LockMachine

variable {τ : Type u} {φ : Type v} {μ : Type w}

/-- The frames threads start with, and the calls frames make, with the
mutex a call takes. -/
structure System (τ : Type u) (φ : Type v) (μ : Type w) where
  starts : τ → φ → Prop
  calls : φ → Option μ → φ → Prop

/-- A frame with the mutex that was taken to enter it. -/
abbrev Frame (φ : Type v) (μ : Type w) := φ × Option μ

/-- A thread: its stack, top first, and the call it is blocked on. -/
structure Thread (φ : Type v) (μ : Type w) where
  stack : List (Frame φ μ)
  waiting : Option (φ × μ)

/-- The state of every thread. -/
abbrev State (τ : Type u) (φ : Type v) (μ : Type w) := τ → Thread φ μ

/-- The mutexes a stack holds, the last taken first. -/
def held (stack : List (Frame φ μ)) : List μ := stack.filterMap Prod.snd

/-- No thread has started. -/
def init : State τ φ μ := fun _ => ⟨[], none⟩

/-- Thread `t` holds mutex `m`. -/
def Holds (s : State τ φ μ) (t : τ) (m : μ) : Prop := m ∈ held (s t).stack

/-- Thread `t` is blocked on mutex `m`. -/
def Waits (s : State τ φ μ) (t : τ) (m : μ) : Prop := ∃ f, (s t).waiting = some (f, m)

/-- Distinct threads, at least two, each of which holds its mutex and waits
for the next one's. -/
structure Circle (s : State τ φ μ) (circle : List (τ × μ)) : Prop where
  nodup : (circle.map Prod.fst).Nodup
  two : 2 ≤ circle.length
  waits : ∀ p ∈ ElementaryCycles.pairs circle,
    Holds s p.1.1 p.1.2 ∧ Waits s p.1.1 p.2.2

variable (sys : System τ φ μ) (may : List μ → Prop)

/-- A stack as calls build it. -/
inductive CallPath (t : τ) : List (Frame φ μ) → Prop
  | nil : CallPath t []
  | start {f : φ} : sys.starts t f → CallPath t [(f, none)]
  | call {f f' : φ} {m : Option μ} {rest : List (Frame φ μ)} : CallPath t ((f, m) :: rest) →
      sys.calls f none f' → CallPath t ((f', none) :: (f, m) :: rest)
  | acquire {f f' : φ} {m : Option μ} {n : μ} {rest : List (Frame φ μ)} :
      CallPath t ((f, m) :: rest) → sys.calls f (some n) f' → n ∉ held ((f, m) :: rest) →
      may (held ((f, m) :: rest)) → CallPath t ((f', some n) :: (f, m) :: rest)

/-- What holds in every reachable state. -/
structure Inv (s : State τ φ μ) : Prop where
  path : ∀ t, CallPath sys may t (s t).stack
  blocked : ∀ t f n, (s t).waiting = some (f, n) →
    ∃ f₀ m rest, (s t).stack = (f₀, m) :: rest ∧ sys.calls f₀ (some n) f
  exclusive : ∀ t u n, Holds s t n → Holds s u n → t = u

section Invariant

variable {sys may}

theorem CallPath.tail {t : τ} {f : Frame φ μ} {rest : List (Frame φ μ)}
    (h : CallPath sys may t (f :: rest)) : CallPath sys may t rest := by
  cases h with
  | start _ => exact .nil
  | call hrest _ => exact hrest
  | acquire hrest _ _ _ => exact hrest

theorem inv_init : Inv sys may (init : State τ φ μ) where
  path _ := .nil
  blocked _ _ _ h := by cases h
  exclusive _ _ _ h := by cases h

/-- What a thread holds, no other thread does. -/
theorem Inv.fresh {s : State τ φ μ} (hi : Inv sys may s) {t : τ} {n : μ} (h : Holds s t n)
    (u : τ) (hu : u ≠ t) : ¬ Holds s u n := fun h' => hu (hi.exclusive u t n h' h)

/-- Every thread of a circle holds its mutex. -/
theorem Circle.holds {s : State τ φ μ} {circle : List (τ × μ)} (hc : Circle s circle) :
    ∀ x ∈ circle, Holds s x.1 x.2 := by
  intro x hx
  have hfst : x ∈ (ElementaryCycles.pairs circle).map Prod.fst := by
    rw [ElementaryCycles.map_fst_pairs]
    exact hx
  obtain ⟨p, hp, rfl⟩ := List.mem_map.mp hfst
  exact (hc.waits p hp).1

/-- Every thread of a circle waits for another one. -/
theorem Circle.ne {s : State τ φ μ} {circle : List (τ × μ)} (hc : Circle s circle)
    {p : (τ × μ) × (τ × μ)} (hp : p ∈ ElementaryCycles.pairs circle) : p.1.1 ≠ p.2.1 := by
  have htwo : 2 ≤ (circle.map Prod.fst).length := by
    rw [List.length_map]
    exact hc.two
  have hpair : Prod.map Prod.fst Prod.fst p ∈ ElementaryCycles.pairs (circle.map Prod.fst) := by
    rw [ElementaryCycles.pairs_map]
    exact List.mem_map_of_mem hp
  exact ElementaryCycles.ne_of_mem_pairs hc.nodup htwo hpair

/-- The mutexes of a circle are distinct. -/
theorem Circle.nodup_mutexes {s : State τ φ μ} {circle : List (τ × μ)} (hi : Inv sys may s)
    (hc : Circle s circle) : (circle.map Prod.snd).Nodup := by
  refine List.Nodup.map_on (fun x hx y hy hxy => ?_) (List.Nodup.of_map _ hc.nodup)
  have hthread := hi.exclusive x.1 y.1 x.2 (hc.holds x hx) (by rw [hxy]; exact hc.holds y hy)
  exact Prod.ext hthread hxy

end Invariant

/-! ## Steps and runs -/

variable [DecidableEq τ]

/-- Thread `t` changes, the others stay. -/
def setThread (s : State τ φ μ) (t : τ) (th : Thread φ μ) : State τ φ μ :=
  fun u => if u = t then th else s u

@[simp] theorem setThread_self (s : State τ φ μ) (t : τ) (th : Thread φ μ) :
    setThread s t th t = th := if_pos rfl

theorem setThread_ne (s : State τ φ μ) {t u : τ} (th : Thread φ μ) (h : u ≠ t) :
    setThread s t th u = s u := if_neg h

@[simp] theorem setThread_setThread (s : State τ φ μ) (t : τ) (th th' : Thread φ μ) :
    setThread (setThread s t th) t th' = setThread s t th' := by
  funext u
  by_cases hu : u = t
  · rw [hu, setThread_self, setThread_self]
  · rw [setThread_ne _ _ hu, setThread_ne _ _ hu, setThread_ne _ _ hu]

/-- One step of one thread. -/
inductive Step (s : State τ φ μ) : State τ φ μ → Prop
  | start {t : τ} {f : φ} : (s t).stack = [] → sys.starts t f →
      Step s (setThread s t ⟨[(f, none)], none⟩)
  | call {t : τ} {f f' : φ} {m : Option μ} {rest : List (Frame φ μ)} :
      (s t).stack = (f, m) :: rest → (s t).waiting = none → sys.calls f none f' →
      Step s (setThread s t ⟨(f', none) :: (f, m) :: rest, none⟩)
  | request {t : τ} {f f' : φ} {m : Option μ} {n : μ} {rest : List (Frame φ μ)} :
      (s t).stack = (f, m) :: rest → (s t).waiting = none → sys.calls f (some n) f' →
      Step s (setThread s t ⟨(f, m) :: rest, some (f', n)⟩)
  | acquire {t : τ} {f : φ} {n : μ} : (s t).waiting = some (f, n) → (∀ u, ¬ Holds s u n) →
      may (held (s t).stack) → Step s (setThread s t ⟨(f, some n) :: (s t).stack, none⟩)
  | ret {t : τ} {f : Frame φ μ} {rest : List (Frame φ μ)} : (s t).stack = f :: rest →
      (s t).waiting = none → Step s (setThread s t ⟨rest, none⟩)

/-- The states of the runs. -/
def Reachable (s : State τ φ μ) : Prop := Relation.ReflTransGen (Step sys may) init s

variable {sys may}

section Runs

variable {s : State τ φ μ} {t : τ} {f f' : φ} {m : Option μ} {n : μ} {rest : List (Frame φ μ)}

/-- A thread can block on any mutex its top frame takes. -/
theorem Reachable.block (h : Reachable sys may s) (hs : s t = ⟨(f, m) :: rest, none⟩)
    (hcall : sys.calls f (some n) f') :
    Reachable sys may (setThread s t ⟨(f, m) :: rest, some (f', n)⟩) :=
  h.tail (.request (by rw [hs]) (by rw [hs]) hcall)

/-- And takes it if nobody holds it. -/
theorem Reachable.take (h : Reachable sys may s) (hs : s t = ⟨(f, m) :: rest, none⟩)
    (hcall : sys.calls f (some n) f') (hfree : ∀ u, ¬ Holds s u n)
    (hmay : may (held ((f, m) :: rest))) :
    Reachable sys may (setThread s t ⟨(f', some n) :: (f, m) :: rest, none⟩) := by
  have hnone : ∀ u, ¬ Holds (setThread s t ⟨(f, m) :: rest, some (f', n)⟩) u n := by
    intro u hu
    by_cases hut : u = t
    · subst hut
      rw [Holds, setThread_self] at hu
      exact hfree u (by rw [Holds, hs]; exact hu)
    · rw [Holds, setThread_ne _ _ hut] at hu
      exact hfree u hu
  have hstep : Step sys may _ _ := .acquire (t := t) (by rw [setThread_self]) hnone
    (by rw [setThread_self]; exact hmay)
  rw [setThread_self, setThread_setThread] at hstep
  exact (h.block hs hcall).tail hstep

end Runs

/-- Replacing a thread keeps the invariant when the new one is well formed
and holds nothing that another thread holds. -/
theorem Inv.setThread {s : State τ φ μ} (hi : Inv sys may s) {t : τ} {th : Thread φ μ}
    (hpath : CallPath sys may t th.stack)
    (hblocked : ∀ f n, th.waiting = some (f, n) →
      ∃ f₀ m rest, th.stack = (f₀, m) :: rest ∧ sys.calls f₀ (some n) f)
    (hfresh : ∀ n ∈ held th.stack, ∀ u, u ≠ t → ¬ Holds s u n) :
    Inv sys may (setThread s t th) := by
  have hother : ∀ u n, Holds (LockMachine.setThread s t th) u n →
      (u = t ∧ n ∈ held th.stack) ∨ (u ≠ t ∧ Holds s u n) := by
    intro u n h
    by_cases hu : u = t
    · subst hu
      rw [Holds, setThread_self] at h
      exact .inl ⟨rfl, h⟩
    · rw [Holds, setThread_ne s th hu] at h
      exact .inr ⟨hu, h⟩
  refine ⟨fun u => ?_, fun u => ?_, fun u u' n h h' => ?_⟩
  · by_cases hu : u = t
    · subst hu
      rw [setThread_self]
      exact hpath
    · rw [setThread_ne s th hu]
      exact hi.path u
  · by_cases hu : u = t
    · subst hu
      rw [setThread_self]
      exact hblocked
    · rw [setThread_ne s th hu]
      exact hi.blocked u
  · rcases hother u n h with ⟨rfl, hn⟩ | ⟨hu, hold⟩
    · rcases hother u' n h' with ⟨rfl, _⟩ | ⟨hu', hold'⟩
      · rfl
      · exact absurd hold' (hfresh n hn u' hu')
    · rcases hother u' n h' with ⟨rfl, hn⟩ | ⟨_, hold'⟩
      · exact absurd hold (hfresh n hn u hu)
      · exact hi.exclusive u u' n hold hold'

theorem Step.inv {s s' : State τ φ μ} (hstep : Step sys may s s') (hi : Inv sys may s) :
    Inv sys may s' := by
  cases hstep with
  | start _ hstart =>
    refine hi.setThread (.start hstart) (fun _ _ h => by cases h) ?_
    simp [held]
  | @call t f f' m rest hstack _ hcall =>
    have hpath := hi.path t
    rw [hstack] at hpath
    refine hi.setThread (.call hpath hcall) (fun _ _ h => by cases h) fun n hn => ?_
    exact hi.fresh (by rw [Holds, hstack]; exact hn)
  | @request t f f' m n rest hstack _ hcall =>
    have hpath := hi.path t
    rw [hstack] at hpath
    refine hi.setThread hpath ?_ fun n hn => hi.fresh (by rw [Holds, hstack]; exact hn)
    intro g k h
    cases h
    exact ⟨f, m, rest, rfl, hcall⟩
  | @acquire t f n hwait hfree hmay =>
    obtain ⟨f₀, m, rest, hstack, hcall⟩ := hi.blocked t f n hwait
    have hpath := hi.path t
    rw [hstack] at hpath hmay ⊢
    have hnot : n ∉ held ((f₀, m) :: rest) := by
      have := hfree t
      rwa [Holds, hstack] at this
    refine hi.setThread (.acquire hpath hcall hnot hmay) (fun _ _ h => by cases h) fun k hk => ?_
    rcases List.mem_cons.mp (show k ∈ n :: held ((f₀, m) :: rest) from hk) with rfl | hk
    · exact fun u _ => hfree u
    · exact hi.fresh (by rw [Holds, hstack]; exact hk)
  | @ret t f rest hstack _ =>
    have hpath := hi.path t
    rw [hstack] at hpath
    refine hi.setThread hpath.tail (fun _ _ h => by cases h) fun n hn => ?_
    refine hi.fresh ?_
    rw [Holds, hstack]
    exact (List.sublist_cons_self f rest).filterMap Prod.snd |>.subset hn

/-- **The invariant of the machine.** -/
theorem Reachable.inv {s : State τ φ μ} (h : Reachable sys may s) : Inv sys may s := by
  induction h with
  | refl => exact inv_init
  | tail _ hstep ih => exact hstep.inv ih

end LockMachine

end Library
