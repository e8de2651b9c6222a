import Mathlib.Data.Set.Basic

/-! # Transition systems

A state, the events that may happen in it, and what they make of it. Which of the enabled events
happens next is left open, so a statement about executions is one about every interleaving. -/
namespace TransitionSystems

variable {σ τ ε ι : Type*}

structure System (σ ε : Type*) where
  initial : σ
  Enabled : σ → ε → Prop
  next : σ → ε → σ

def System.Step (M : System σ ε) (s : σ) (e : ε) (u : σ) : Prop :=
  M.Enabled s e ∧ u = M.next s e

inductive Execution (M : System σ ε) : σ → σ → Prop where
  | refl (s) : Execution M s s
  | tail {s u v e} : Execution M s u → M.Step u e v → Execution M s v

def Reachable (M : System σ ε) (s : σ) : Prop := Execution M M.initial s

theorem Execution.trans {M : System σ ε} {s u v : σ} (h : Execution M s u)
    (k : Execution M u v) : Execution M s v := by
  induction k with
  | refl => exact h
  | tail _ hstep ih => exact .tail ih hstep

theorem Execution.next {M : System σ ε} {s u : σ} {e : ε} (h : Execution M s u)
    (he : M.Enabled u e) : Execution M s (M.next u e) := .tail h ⟨he, rfl⟩

theorem execution_step {M : System σ ε} {s : σ} {e : ε} (he : M.Enabled s e) :
    Execution M s (M.next s e) := (Execution.refl s).next he

theorem execution_invariant {M : System σ ε} {P : σ → Prop}
    (step : ∀ s e, P s → M.Enabled s e → P (M.next s e)) {s u : σ} (h : Execution M s u)
    (hs : P s) : P u := by
  induction h with
  | refl => exact hs
  | tail _ hstep ih =>
    obtain ⟨he, rfl⟩ := hstep
    exact step _ _ ih he

theorem reachable_of_step {M : System σ ε} {P : σ → Prop} (start : P M.initial)
    (step : ∀ s e, P s → M.Enabled s e → P (M.next s e)) {s : σ} (h : Reachable M s) : P s :=
  execution_invariant step h start

def System.run (M : System σ ε) : σ → List ε → σ := List.foldl M.next

def System.Allowed (M : System σ ε) : σ → List ε → Prop
  | _, [] => True
  | s, e :: es => M.Enabled s e ∧ M.Allowed (M.next s e) es

instance System.decidableAllowed (M : System σ ε) [∀ s e, Decidable (M.Enabled s e)] :
    ∀ s es, Decidable (M.Allowed s es)
  | _, [] => isTrue trivial
  | s, e :: es => @instDecidableAnd _ _ _ (M.decidableAllowed (M.next s e) es)

theorem execution_run {M : System σ ε} {s : σ} {es : List ε} (h : M.Allowed s es) :
    Execution M s (M.run s es) := by
  induction es generalizing s with
  | nil => exact .refl s
  | cons e es ih => exact (execution_step h.1).trans (ih h.2)

/-- Where every step goes down in rank, the rank bounds how long a run is. -/
theorem allowed_length_le {M : System σ ε} {P : σ → Prop} (rank : σ → ℕ)
    (step : ∀ s e, P s → M.Enabled s e → P (M.next s e))
    (down : ∀ s e, P s → M.Enabled s e → rank (M.next s e) < rank s) {s : σ} {es : List ε}
    (hs : P s) (h : M.Allowed s es) : es.length ≤ rank s := by
  induction es generalizing s with
  | nil => exact Nat.zero_le _
  | cons e es ih =>
    have htail := ih (step s e hs h.1) h.2
    have hdown := down s e hs h.1
    rw [List.length_cons]
    omega

theorem getElem?_of_grown {α : Type*} {xs ys : List α} (h : xs <+: ys) {i : ℕ} {a : α}
    (hi : xs[i]? = some a) : ys[i]? = some a := by
  obtain ⟨zs, rfl⟩ := h
  obtain ⟨hlt, rfl⟩ := List.getElem?_eq_some_iff.mp hi
  rw [List.getElem?_append_left hlt]
  exact List.getElem?_eq_getElem hlt

/-- What every step lets grow has grown along an execution. -/
theorem execution_grows {M : System σ ε} {α : Type*} {f : σ → List α}
    (step : ∀ s e, M.Enabled s e → f s <+: f (M.next s e)) {s u : σ} (h : Execution M s u) :
    f s <+: f u := by
  induction h with
  | refl => exact List.prefix_refl _
  | tail _ hstep ih =>
    obtain ⟨he, rfl⟩ := hstep
    exact ih.trans (step _ _ he)

/-- The runs in which only some of the events happen. -/
def System.restrict (M : System σ ε) (P : ε → Prop) : System σ ε :=
  { M with Enabled := fun s e => M.Enabled s e ∧ P e }

/-- Where steps are only known to be executions of the abstract system in reachable states. -/
theorem execution_of_simulated {M : System σ ε} {N : System τ ι} {f : σ → τ} {P : σ → Prop}
    (hP : ∀ s, Reachable M s → P s)
    (step : ∀ s e, P s → M.Enabled s e → Execution N (f s) (f (M.next s e))) {s u : σ}
    (hs : Reachable M s) (h : Execution M s u) : Execution N (f s) (f u) := by
  induction h with
  | refl => exact .refl _
  | tail hrun hstep ih =>
    obtain ⟨he, rfl⟩ := hstep
    exact ih.trans (step _ _ (hP _ (hs.trans hrun)) he)

theorem reachable_of_simulated {M : System σ ε} {N : System τ ι} {f : σ → τ} {P : σ → Prop}
    (hP : ∀ s, Reachable M s → P s) (start : f M.initial = N.initial)
    (step : ∀ s e, P s → M.Enabled s e → Execution N (f s) (f (M.next s e))) {s : σ}
    (hs : Reachable M s) : Reachable N (f s) := by
  have hrun := execution_of_simulated hP step (.refl M.initial) hs
  rwa [start] at hrun

/-- Each step of the concrete system is an execution of the abstract one. -/
structure Refines (M : System σ ε) (N : System τ ι) (f : σ → τ) : Prop where
  start : f M.initial = N.initial
  step : ∀ s e, M.Enabled s e → Execution N (f s) (f (M.next s e))

theorem Refines.reachable {M : System σ ε} {N : System τ ι} {f : σ → τ} (h : Refines M N f)
    {s : σ} (hs : Reachable M s) : Reachable N (f s) :=
  reachable_of_simulated (P := fun _ => True) (fun _ _ => trivial) h.start
    (fun s e _ he => h.step s e he) hs

theorem reachable_of_restrict {M : System σ ε} {P : ε → Prop} {s : σ}
    (h : Reachable (M.restrict P) s) : Reachable M s := by
  have hrefines : Refines (M.restrict P) M id := by
    constructor
    · rfl
    · intro s e he
      exact execution_step he.1
  exact hrefines.reachable h

end TransitionSystems
