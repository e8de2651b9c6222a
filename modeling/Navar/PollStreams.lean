import Mathlib.Data.List.Basic

/-! # Polled streams

A stream is a state and a function that is called again and again. A call answers at once:
with an item, with the end of the stream, or with the advice to call later. A call that would
panic has no answer at all. Who calls, and when, is left open: only the number of calls counts. -/
namespace PollStreams

inductive Poll (α : Type*) where
  | pending
  | ready (a : α)
  deriving DecidableEq, Repr

variable {S T ι : Type*}

def Poll.items : Poll (Option ι) → List ι
  | .ready (some i) => [i]
  | _ => []

@[simp] theorem items_pending : (Poll.pending : Poll (Option ι)).items = [] := rfl
@[simp] theorem items_ready (i : ι) : (Poll.ready (some i)).items = [i] := rfl
@[simp] theorem items_end : (Poll.ready none : Poll (Option ι)).items = [] := rfl

/-- The items received in `n` calls and the state after them, `none` if some call panics. -/
def drive (poll : S → Option (S × Poll (Option ι))) (s : S) : ℕ → Option (List ι × S)
  | 0 => some ([], s)
  | n + 1 => do
    let (received, t) ← drive poll s n
    let (u, answer) ← poll t
    some (received ++ answer.items, u)

def Ended (poll : S → Option (S × Poll (Option ι))) (s : S) : Prop :=
  poll s = some (s, .ready none)

/-- However it is called, the stream gives exactly these items and then ends. -/
def Yields (poll : S → Option (S × Poll (Option ι))) (s : S) (items : List ι) : Prop :=
  ∃ N, ∀ n, N ≤ n → ∃ t, drive poll s n = some (items, t) ∧ Ended poll t

theorem yields_unique {poll : S → Option (S × Poll (Option ι))} {s : S} {xs ys : List ι}
    (hx : Yields poll s xs) (hy : Yields poll s ys) : xs = ys := by
  obtain ⟨N, hN⟩ := hx
  obtain ⟨M, hM⟩ := hy
  obtain ⟨t, ht, _⟩ := hN (max N M) (Nat.le_max_left N M)
  obtain ⟨u, hu, _⟩ := hM (max N M) (Nat.le_max_right N M)
  rw [ht] at hu
  exact congrArg Prod.fst (Option.some.inj hu)

theorem drive_induction (poll : S → Option (S × Poll (Option ι))) (s : S)
    (P : ℕ → List ι → S → Prop) (start : P 0 [] s)
    (step : ∀ n items t, P n items t →
      ∃ u answer, poll t = some (u, answer) ∧ P (n + 1) (items ++ answer.items) u) (n : ℕ) :
    ∃ items t, drive poll s n = some (items, t) ∧ P n items t := by
  induction n with
  | zero => exact ⟨[], s, rfl, start⟩
  | succ n ih =>
    obtain ⟨items, t, hd, hP⟩ := ih
    obtain ⟨u, answer, hp, hu⟩ := step n items t hP
    exact ⟨items ++ answer.items, u, by simp [drive, hd, hp], hu⟩

/-- What a call keeps of the items received and the state holds however many calls are made. -/
theorem drive_preserves {poll : S → Option (S × Poll (Option ι))} {P : List ι → S → Prop}
    (step : ∀ items t u answer, P items t → poll t = some (u, answer) →
      P (items ++ answer.items) u)
    {s t : S} {n : ℕ} {items : List ι} (start : P [] s) (h : drive poll s n = some (items, t)) :
    P items t := by
  induction n generalizing items t with
  | zero =>
    cases h
    exact start
  | succ n ih =>
    simp only [drive, Option.bind_eq_bind, Option.bind_eq_some_iff] at h
    obtain ⟨⟨received, u⟩, hu, ⟨v, answer⟩, hv, heq⟩ := h
    cases heq
    exact step received u v answer (ih hu) hv

/-- What has been received after fewer calls begins what is received after more. -/
theorem drive_earlier {poll : S → Option (S × Poll (Option ι))} {s u : S} {items : List ι}
    {n m : ℕ} (h : drive poll s m = some (items, u)) (hle : n ≤ m) :
    ∃ xs t, drive poll s n = some (xs, t) ∧ xs <+: items := by
  obtain ⟨k, rfl⟩ := Nat.exists_eq_add_of_le hle
  clear hle
  induction k generalizing items u with
  | zero => exact ⟨items, u, h, List.prefix_refl items⟩
  | succ k ih =>
    rw [← Nat.add_assoc] at h
    simp only [drive, Option.bind_eq_bind, Option.bind_eq_some_iff] at h
    obtain ⟨⟨received, v⟩, hd, ⟨w, answer⟩, _, heq⟩ := h
    cases heq
    obtain ⟨xs, t, hxs, hbegins⟩ := ih hd
    exact ⟨xs, t, hxs, hbegins.trans (List.prefix_append _ _)⟩

theorem drive_ended {poll : S → Option (S × Poll (Option ι))} {s t : S} {items : List ι} {n : ℕ}
    (hd : drive poll s n = some (items, t)) (he : Ended poll t) (k : ℕ) :
    drive poll s (n + k) = some (items, t) := by
  induction k with
  | zero => exact hd
  | succ k ih =>
    have hp : poll t = some (t, .ready none) := he
    simp [drive, ih, hp]

/-- A stream that has ended has given everything it yields. -/
theorem yields_of_ended {poll : S → Option (S × Poll (Option ι))} {s t : S} {xs items : List ι}
    {n : ℕ} (hy : Yields poll s xs) (hd : drive poll s n = some (items, t))
    (he : Ended poll t) : items = xs :=
  yields_unique ⟨n, fun m hm => ⟨t, by
    rw [← Nat.add_sub_cancel' hm]; exact drive_ended hd he _, he⟩⟩ hy

theorem drive_step {poll : S → Option (S × Poll (Option ι))} {s t : S}
    {answer : Poll (Option ι)} (h : poll s = some (t, answer)) (n : ℕ) :
    drive poll s (n + 1) = (drive poll t n).map fun p => (answer.items ++ p.1, p.2) := by
  induction n with
  | zero => simp [drive, h]
  | succ n ih =>
    rw [drive, ih]
    cases hd : drive poll t n with
    | none => simp [drive, hd]
    | some p => cases hp : poll p.2 <;> simp [drive, hd, hp, List.append_assoc]

theorem Yields.step {poll : S → Option (S × Poll (Option ι))} {s t : S}
    {answer : Poll (Option ι)} {items : List ι} (hy : Yields poll t items)
    (h : poll s = some (t, answer)) : Yields poll s (answer.items ++ items) := by
  obtain ⟨N, hN⟩ := hy
  refine ⟨N + 1, ?_⟩
  intro n hn
  obtain ⟨n, rfl⟩ := Nat.exists_eq_add_of_le' (Nat.le_of_add_left_le hn : 1 ≤ n)
  obtain ⟨u, hd, he⟩ := hN n (Nat.le_of_succ_le_succ hn)
  exact ⟨u, by rw [drive_step h, hd]; rfl, he⟩

theorem Yields.congr {poll : S → Option (S × Poll (Option ι))} {s t : S} {items : List ι}
    (hy : Yields poll t items) (h : poll s = poll t) : Yields poll s items := by
  have hdrive : ∀ n, drive poll s (n + 1) = drive poll t (n + 1) := by
    intro n
    induction n with
    | zero => simp [drive, h]
    | succ n ih => simp only [drive] at ih ⊢; rw [ih]
  obtain ⟨N, hN⟩ := hy
  refine ⟨N + 1, ?_⟩
  intro n hn
  obtain ⟨n, rfl⟩ := Nat.exists_eq_add_of_le' (Nat.le_of_add_left_le hn : 1 ≤ n)
  rw [hdrive]
  exact hN (n + 1) (Nat.le_of_succ_le hn)

theorem Ended.yields {poll : S → Option (S × Poll (Option ι))} {s : S} (h : Ended poll s) :
    Yields poll s [] :=
  ⟨0, fun n _ => ⟨s, by simpa using drive_ended (n := 0) rfl h n, h⟩⟩

/-- One call of the concrete stream is one call of the abstract one, which never panics. -/
def Simulates (poll : S → Option (S × Poll (Option ι))) (call : T → T × Poll (Option ι))
    (R : S → T → Prop) : Prop :=
  ∀ s t, R s t → ∃ s', poll s = some (s', (call t).2) ∧ R s' (call t).1

theorem drive_simulates {poll : S → Option (S × Poll (Option ι))}
    {call : T → T × Poll (Option ι)} {R : S → T → Prop} (hsim : Simulates poll call R)
    {s : S} {t : T} (hst : R s t) (n : ℕ) :
    ∃ items s' t', drive poll s n = some (items, s') ∧
      drive (fun u => some (call u)) t n = some (items, t') ∧ R s' t' := by
  induction n with
  | zero => exact ⟨[], s, t, rfl, rfl, hst⟩
  | succ n ih =>
    obtain ⟨items, s', t', hs, ht, hR⟩ := ih
    obtain ⟨s'', hp, hR'⟩ := hsim s' t' hR
    exact ⟨items ++ (call t').2.items, s'', (call t').1, by simp [drive, hs, hp],
      by simp [drive, ht], hR'⟩

end PollStreams
