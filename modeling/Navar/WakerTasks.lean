import Navar.PollStreams
import Navar.TransitionSystems

/-! # Tasks that are polled when they are woken

A call of a polled stream is given a waker. When it answers `Pending`, something has to wake the
task: what the waker was registered with, or the call itself. A task that is not woken is not
polled, so a call that forgets its waker leaves it hanging. -/
namespace WakerTasks

open PollStreams
open TransitionSystems

variable {S ι : Type*}

/-- What a call has done with the waker. -/
inductive Waker where
  | untouched
  | registered
  | woken
  deriving DecidableEq, Repr

abbrev Call (S ι : Type*) := S → Option (S × Poll (Option ι) × Waker)

def Call.poll (call : Call S ι) (s : S) : Option (S × Poll (Option ι)) :=
  (call s).map fun reply => (reply.1, reply.2.1)

/-- A task is scheduled when it is woken and goes on by itself after an item; it is over when the
stream ends. -/
structure Task (S ι : Type*) where
  stream : S
  items : List ι
  calls : ℕ
  scheduled : Bool
  registered : Bool
  done : Bool

def initial (s : S) : Task S ι :=
  { stream := s, items := [], calls := 0, scheduled := true, registered := false, done := false }

inductive Event where
  | poll
  | wake
  deriving DecidableEq, Repr

/-- A task may be polled although it has not been woken. -/
def Enabled (call : Call S ι) (t : Task S ι) : Event → Prop
  | .poll => t.done = false ∧ (call t.stream).isSome = true
  | .wake => t.registered = true

instance (call : Call S ι) (t : Task S ι) : DecidablePred (Enabled call t)
  | .poll => inferInstanceAs (Decidable (_ ∧ _))
  | .wake => inferInstanceAs (Decidable (_ = _))

def Task.answered (t : Task S ι) (s : S) : Poll (Option ι) → Waker → Task S ι
  | .ready (some i), _ =>
    { t with stream := s, items := t.items ++ [i], calls := t.calls + 1, scheduled := true }
  | .ready none, _ =>
    { t with
      stream := s, calls := t.calls + 1, scheduled := false, registered := false, done := true }
  | .pending, .woken => { t with stream := s, calls := t.calls + 1, scheduled := true }
  | .pending, .registered =>
    { t with stream := s, calls := t.calls + 1, scheduled := false, registered := true }
  | .pending, .untouched => { t with stream := s, calls := t.calls + 1, scheduled := false }

def next (call : Call S ι) (t : Task S ι) : Event → Task S ι
  | .poll =>
    match call t.stream with
    | some (s, answer, waker) => t.answered s answer waker
    | none => t
  | .wake => { t with scheduled := true, registered := false }

def system (call : Call S ι) (s : S) : System (Task S ι) Event where
  initial := initial s
  Enabled := Enabled call
  next := next call

instance (call : Call S ι) (s : S) (t : Task S ι) (e : Event) :
    Decidable ((system call s).Enabled t e) := inferInstanceAs (Decidable (Enabled call t e))

/-- The task is not scheduled and nothing is left that would wake it. -/
def Quiet (call : Call S ι) (t : Task S ι) : Prop :=
  (t.scheduled = true → ¬Enabled call t .poll) ∧ ¬Enabled call t .wake

/-- A call that answers `Pending` sees to it that the task is woken, and the end of the stream is
the end. -/
structure Wakes (call : Call S ι) : Prop where
  pending : ∀ s t waker, call s = some (t, .pending, waker) → waker ≠ .untouched
  final : ∀ s t waker, call s = some (t, .ready none, waker) → Ended call.poll t

variable {call : Call S ι} {s : S}

structure Invariant (call : Call S ι) (s : S) (t : Task S ι) : Prop where
  driven : drive call.poll s t.calls = some (t.items, t.stream)
  waits : t.done = false → t.scheduled = true ∨ t.registered = true
  finished : t.done = true → Ended call.poll t.stream ∧ t.registered = false

theorem step_preserves_invariant (hcall : Wakes call) {t : Task S ι} {e : Event}
    (h : Invariant call s t) (he : Enabled call t e) : Invariant call s (next call t e) := by
  cases e with
  | poll =>
    obtain ⟨hdone, hsome⟩ := he
    obtain ⟨⟨u, answer, waker⟩, hreply⟩ := Option.isSome_iff_exists.mp hsome
    have hdriven : drive call.poll s (t.calls + 1) = some (t.items ++ answer.items, u) := by
      simp [drive, h.driven, Call.poll, hreply]
    have hnext : next call t .poll = t.answered u answer waker := by simp [next, hreply]
    rw [hnext]
    rcases answer with _ | (_ | i)
    · rw [items_pending, List.append_nil] at hdriven
      cases waker with
      | untouched => exact absurd rfl (hcall.pending _ _ _ hreply)
      | registered => exact ⟨hdriven, fun _ => Or.inr rfl, by simp [Task.answered, hdone]⟩
      | woken => exact ⟨hdriven, fun _ => Or.inl rfl, by simp [Task.answered, hdone]⟩
    · rw [items_end, List.append_nil] at hdriven
      exact ⟨hdriven, by simp [Task.answered], fun _ => ⟨hcall.final _ _ _ hreply, rfl⟩⟩
    · exact ⟨hdriven, fun _ => Or.inl rfl, by simp [Task.answered, hdone]⟩
  | wake =>
    have hregistered : t.registered = true := he
    refine ⟨h.driven, fun _ => Or.inl rfl, ?_⟩
    intro hdone
    have hover := (h.finished hdone).2
    rw [hregistered] at hover
    cases hover

theorem initial_invariant : Invariant call s (initial s) :=
  ⟨rfl, fun _ => Or.inl rfl, by simp [initial]⟩

/-- Where the stream yields its items, no call panics. -/
theorem call_defined {items : List ι} (hy : Yields call.poll s items) {t : Task S ι}
    (h : Invariant call s t) : (call t.stream).isSome = true := by
  obtain ⟨N, hN⟩ := hy
  obtain ⟨u, hd, _⟩ := hN (N + (t.calls + 1)) (Nat.le_add_right _ _)
  obtain ⟨xs, v, hnext, _⟩ := drive_earlier hd (Nat.le_add_left (t.calls + 1) N)
  cases hc : call t.stream with
  | some reply => rfl
  | none => simp [drive, h.driven, Call.poll, hc] at hnext

/-- Once the stream has nothing more to give, a call ends it. -/
theorem last_call {items : List ι} {t : Task S ι} {v : S} (h : Invariant call s t)
    (hd : drive call.poll s t.calls = some (items, v)) (hended : Ended call.poll v)
    (he : Enabled call t .poll) : (next call t .poll).done = true := by
  obtain rfl : t.stream = v := congrArg Prod.snd (Option.some.inj (h.driven.symm.trans hd))
  obtain ⟨⟨v, answer, waker⟩, hreply⟩ := Option.isSome_iff_exists.mp he.2
  have hpoll : call.poll t.stream = some (v, answer) := by simp [Call.poll, hreply]
  obtain rfl : answer = .ready none :=
    congrArg Prod.snd (Option.some.inj (hpoll.symm.trans hended))
  simp [next, hreply, Task.answered]

def rank (N : ℕ) (t : Task S ι) : ℕ := 2 * (N + 1 - t.calls) + if t.registered then 1 else 0

theorem calls_answered (t : Task S ι) (u : S) (answer : Poll (Option ι)) (waker : Waker) :
    (t.answered u answer waker).calls = t.calls + 1 := by
  rcases answer with _ | (_ | i) <;> cases waker <;> rfl

theorem calls_poll {t : Task S ι} (he : Enabled call t .poll) :
    (next call t .poll).calls = t.calls + 1 := by
  obtain ⟨⟨u, answer, waker⟩, hreply⟩ := Option.isSome_iff_exists.mp he.2
  have hnext : next call t .poll = t.answered u answer waker := by simp [next, hreply]
  rw [hnext, calls_answered]

theorem rank_down {N : ℕ} {t : Task S ι} {e : Event} (hcalls : t.done = false → t.calls ≤ N)
    (he : Enabled call t e) : rank N (next call t e) < rank N t := by
  cases e with
  | poll =>
    have hle := hcalls he.1
    rw [rank, rank, calls_poll he]
    split_ifs <;> omega
  | wake =>
    have hregistered : t.registered = true := he
    simp [rank, next, hregistered]

/-- No run goes on for ever, and one that nothing continues has brought the task to the end of the
stream with all its items. -/
def Delivers (call : Call S ι) (s : S) (items : List ι) : Prop :=
  (∃ N, ∀ es, (system call s).Allowed (initial s) es → es.length ≤ N) ∧
    ∀ t, Reachable (system call s) t → t.items <+: items ∧
      (Quiet call t → t.done = true ∧ t.items = items)

theorem delivers (hcall : Wakes call) {items : List ι} (hy : Yields call.poll s items) :
    Delivers call s items := by
  have hreachable : ∀ t, Reachable (system call s) t → Invariant call s t :=
    fun t => reachable_of_step initial_invariant fun _ _ => step_preserves_invariant hcall
  constructor
  · obtain ⟨N, hN⟩ := hy
    refine ⟨rank N (initial (ι := ι) s), ?_⟩
    intro es hes
    refine allowed_length_le (M := system call s)
      (P := fun t => Invariant call s t ∧ (t.done = false → t.calls ≤ N)) (rank N) ?_ ?_ ?_ hes
    · rintro t e ⟨h, hcalls⟩ he
      refine ⟨step_preserves_invariant hcall h he, ?_⟩
      intro hdone
      cases e with
      | poll =>
        by_contra hlt
        have hle := hcalls he.1
        have hcalls' : (next call t .poll).calls = t.calls + 1 := calls_poll he
        have heq : N = t.calls := by
          have hlt' : N < (next call t .poll).calls := Nat.not_le.mp hlt
          omega
        obtain ⟨u, hd, hended⟩ := hN t.calls (Nat.le_of_eq heq)
        have hlast := last_call h hd hended he
        rw [show (next call t .poll).done = false from hdone] at hlast
        cases hlast
      | wake => exact hcalls hdone
    · rintro t e ⟨_, hcalls⟩ he
      exact rank_down hcalls he
    · exact ⟨initial_invariant, fun _ => Nat.zero_le N⟩
  · intro t ht
    have h := hreachable t ht
    refine ⟨?_, ?_⟩
    · obtain ⟨N, hN⟩ := hy
      obtain ⟨u, hd, _⟩ := hN (N + t.calls) (Nat.le_add_right _ _)
      obtain ⟨xs, v, hdriven, hbegins⟩ := drive_earlier hd (Nat.le_add_left t.calls N)
      rw [h.driven] at hdriven
      cases hdriven
      exact hbegins
    · rintro ⟨hpoll, hwake⟩
      have hdone : t.done = true := by
        by_contra hne
        have hdone : t.done = false := by simpa using hne
        rcases h.waits hdone with hscheduled | hregistered
        · exact hpoll hscheduled ⟨hdone, call_defined hy h⟩
        · exact hwake hregistered
      exact ⟨hdone, yields_of_ended hy h.driven (h.finished hdone).1⟩

end WakerTasks
