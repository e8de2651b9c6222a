import Mathlib.Logic.Function.Basic
import Navar.TransitionSystems

/-! # A shared HTTP/1 session

The clones of `HyperSender::H1` share one sender behind a mutex. Any number of tasks call
`send_request` on clones; a task runs from one await point to the next, other tasks may run at any
time in between, and at an await point it may be cancelled, which drops what it holds. -/
namespace Http1Sessions

open TransitionSystems

/-- Where `send_request` stands: at one of its three await points, or on the way to the next. -/
inductive Phase where
  | idle
  | locking
  | locked
  | readying
  | prepared
  | sending
  deriving DecidableEq, Repr

def Phase.awaiting : Phase → Bool
  | .locking => true
  | .readying => true
  | .sending => true
  | _ => false

/-- The guard is a local variable from the lock on. -/
def Phase.holdsGuard : Phase → Bool
  | .idle => false
  | .locking => false
  | _ => true

/-- What happens at hyper's sender. -/
inductive SenderEvent where
  | ready (t : ℕ)
  | readyReturned (t : ℕ) (ok : Bool)
  | sendRequest (t : ℕ)
  | returned (t : ℕ) (ok : Bool)
  | cancelled (t : ℕ)
  deriving DecidableEq, Repr

/-- The task that calls `ready` or `send_request`. -/
def SenderEvent.caller : SenderEvent → Option ℕ
  | .ready t => some t
  | .sendRequest t => some t
  | _ => none

/-- The task whose request has returned or been cancelled. -/
def SenderEvent.ends : SenderEvent → Option ℕ
  | .returned t _ => some t
  | .cancelled t => some t
  | _ => none

/-- The history has the last event first. -/
structure State where
  phase : ℕ → Phase
  lock : Option ℕ
  history : List SenderEvent

def initial : State := { phase := fun _ => .idle, lock := none, history := [] }

inductive Event where
  | call (t : ℕ)
  | acquire (t : ℕ)
  | ready (t : ℕ)
  | readyReturned (t : ℕ) (ok : Bool)
  | sendRequest (t : ℕ)
  | returned (t : ℕ) (ok : Bool)
  | cancel (t : ℕ)
  deriving DecidableEq, Repr

def Enabled (s : State) : Event → Prop
  | .call t => s.phase t = .idle
  | .acquire t => s.phase t = .locking ∧ s.lock = none
  | .ready t => s.phase t = .locked
  | .readyReturned t _ => s.phase t = .readying
  | .sendRequest t => s.phase t = .prepared
  | .returned t _ => s.phase t = .sending
  | .cancel t => (s.phase t).awaiting = true

instance (s : State) : DecidablePred (Enabled s)
  | .call _ => inferInstanceAs (Decidable (_ = _))
  | .acquire _ => inferInstanceAs (Decidable (_ ∧ _))
  | .ready _ => inferInstanceAs (Decidable (_ = _))
  | .readyReturned _ _ => inferInstanceAs (Decidable (_ = _))
  | .sendRequest _ => inferInstanceAs (Decidable (_ = _))
  | .returned _ _ => inferInstanceAs (Decidable (_ = _))
  | .cancel _ => inferInstanceAs (Decidable (_ = _))

def State.setPhase (s : State) (t : ℕ) (p : Phase) : State :=
  { s with phase := Function.update s.phase t p }

def State.record (s : State) (e : SenderEvent) : State := { s with history := e :: s.history }

/-- The call is over, and its guard is dropped if it has one. -/
def State.finish (s : State) (t : ℕ) : State :=
  { s.setPhase t .idle with lock := if (s.phase t).holdsGuard then none else s.lock }

def next (s : State) : Event → State
  | .call t => s.setPhase t .locking
  | .acquire t => { s.setPhase t .locked with lock := some t }
  | .ready t => (s.setPhase t .readying).record (.ready t)
  | .readyReturned t true => (s.setPhase t .prepared).record (.readyReturned t true)
  -- `ready().await?` returns early
  | .readyReturned t false => (s.finish t).record (.readyReturned t false)
  | .sendRequest t => (s.setPhase t .sending).record (.sendRequest t)
  | .returned t ok => (s.finish t).record (.returned t ok)
  | .cancel t => (s.finish t).record (.cancelled t)

def system : System State Event where
  initial := initial
  Enabled := Enabled
  next := next

instance (s : State) (e : Event) : Decidable (system.Enabled s e) :=
  inferInstanceAs (Decidable (Enabled s e))

section lock

/-- The mutex is locked for the one task that has the guard. -/
def Held (s : State) : Prop := ∀ t, s.lock = some t ↔ (s.phase t).holdsGuard = true

theorem Held.unique {s : State} (h : Held s) {t u : ℕ} (ht : (s.phase t).holdsGuard = true)
    (hu : (s.phase u).holdsGuard = true) : t = u := by
  have hlock := (h t).mpr ht
  rw [(h u).mpr hu] at hlock
  exact (Option.some.inj hlock).symm

theorem Held.setPhase {s : State} (h : Held s) {t : ℕ} {p : Phase}
    (hp : p.holdsGuard = (s.phase t).holdsGuard) : Held (s.setPhase t p) := by
  intro u
  by_cases hu : u = t
  · subst hu
    simp only [State.setPhase, Function.update_self, hp]
    exact h u
  · simp only [State.setPhase, Function.update_of_ne hu]
    exact h u

theorem Held.acquire {s : State} (h : Held s) {t : ℕ} (hfree : s.lock = none) :
    Held (next s (.acquire t)) := by
  intro u
  by_cases hu : u = t
  · subst hu
    simp [next, State.setPhase, Phase.holdsGuard]
  · have hnone : (s.phase u).holdsGuard = false := by
      rw [Bool.eq_false_iff]
      intro hguard
      have hlock := (h u).mpr hguard
      rw [hfree] at hlock
      cases hlock
    simp only [next, State.setPhase, Function.update_of_ne hu, hnone]
    simp [Ne.symm hu]

theorem Held.finish {s : State} (h : Held s) (t : ℕ) : Held (s.finish t) := by
  intro u
  by_cases hu : u = t
  · subst hu
    have hidle : Phase.idle.holdsGuard = false := rfl
    simp only [State.finish, State.setPhase, Function.update_self, hidle]
    split_ifs with hguard
    · simp
    · rw [h u]
      simp [hguard]
  · simp only [State.finish, State.setPhase, Function.update_of_ne hu]
    split_ifs with hguard
    · have hnone : (s.phase u).holdsGuard = false := by
        rw [Bool.eq_false_iff]
        exact fun hguard' => hu (h.unique hguard' hguard)
      simp [hnone]
    · exact h u

theorem step_held {s : State} {e : Event} (h : Held s) (he : Enabled s e) : Held (next s e) := by
  cases e with
  | call t => exact h.setPhase (by rw [show s.phase t = .idle from he]; rfl)
  | acquire t => exact h.acquire he.2
  | ready t =>
    have hset : Held (s.setPhase t .readying) :=
      h.setPhase (by rw [show s.phase t = .locked from he]; rfl)
    exact hset
  | readyReturned t ok =>
    cases ok with
    | true =>
      have hset : Held (s.setPhase t .prepared) :=
        h.setPhase (by rw [show s.phase t = .readying from he]; rfl)
      exact hset
    | false => exact h.finish t
  | sendRequest t =>
    have hset : Held (s.setPhase t .sending) :=
      h.setPhase (by rw [show s.phase t = .prepared from he]; rfl)
    exact hset
  | returned t ok => exact h.finish t
  | cancel t => exact h.finish t

end lock

section history

/-- `t` has sent, and its request has neither returned nor been cancelled. -/
def InFlight (history : List SenderEvent) (t : ℕ) : Prop :=
  ∃ later earlier, history = later ++ .sendRequest t :: earlier ∧ ∀ e ∈ later, e.ends ≠ some t

/-- `ready` has returned `Ok` to `t`, and no task has sent since. -/
def Answered (history : List SenderEvent) (t : ℕ) : Prop :=
  ∃ later earlier, history = later ++ .readyReturned t true :: earlier ∧
    ∀ u, .sendRequest u ∉ later

/-- Whenever a task has sent, `ready` had answered it. -/
def SendsReady (history : List SenderEvent) : Prop :=
  ∀ later earlier t, history = later ++ .sendRequest t :: earlier → Answered earlier t

/-- Whenever a task has called `ready` or `send_request`, no request of another was in flight. -/
def Undisturbed (history : List SenderEvent) : Prop :=
  ∀ later earlier e u t, history = later ++ e :: earlier → e.caller = some u →
    InFlight earlier t → u = t

/-- What the history has to do with where the tasks stand. -/
structure HistoryInvariant (phase : ℕ → Phase) (history : List SenderEvent) : Prop where
  answered : ∀ t, phase t = .prepared → Answered history t
  inFlight : ∀ t, InFlight history t → phase t = .sending
  sendsReady : SendsReady history
  undisturbed : Undisturbed history

theorem Answered.cons {history : List SenderEvent} {t : ℕ} (h : Answered history t)
    {e : SenderEvent} (he : ∀ u, e ≠ .sendRequest u) : Answered (e :: history) t := by
  obtain ⟨later, earlier, rfl, hnone⟩ := h
  refine ⟨e :: later, earlier, rfl, ?_⟩
  intro u hu
  rcases List.mem_cons.mp hu with heq | hu
  · exact he u heq.symm
  · exact hnone u hu

theorem InFlight.of_cons {history : List SenderEvent} {t : ℕ} {e : SenderEvent}
    (h : InFlight (e :: history) t) :
    e = .sendRequest t ∨ (InFlight history t ∧ e.ends ≠ some t) := by
  obtain ⟨later, earlier, heq, hends⟩ := h
  cases later with
  | nil =>
    left
    exact (List.cons.inj heq).1
  | cons e' later =>
    obtain ⟨rfl, rfl⟩ := List.cons.inj heq
    right
    refine ⟨⟨later, earlier, rfl, ?_⟩, hends e List.mem_cons_self⟩
    exact fun e' he' => hends e' (List.mem_cons_of_mem _ he')

/-- What an event of the task `t` that takes it to `p` may be. -/
structure Fits (before : Phase) (t : ℕ) (p : Phase) (e : SenderEvent) : Prop where
  sends : ∀ u, e = .sendRequest u → u = t ∧ before = .prepared ∧ p = .sending
  calls : ∀ u, e.caller = some u → u = t ∧ before.holdsGuard = true
  ended : before = .sending → e.ends = some t
  answers : p = .prepared → e = .readyReturned t true

theorem HistoryInvariant.step {s : State} (hheld : Held s)
    (h : HistoryInvariant s.phase s.history) {t : ℕ} {p : Phase} {e : SenderEvent}
    (hfits : Fits (s.phase t) t p e) :
    HistoryInvariant (Function.update s.phase t p) (e :: s.history) := by
  constructor
  · intro u hu
    by_cases hut : u = t
    · subst hut
      rw [Function.update_self] at hu
      rw [hfits.answers hu]
      exact ⟨[], s.history, rfl, fun _ hmem => nomatch hmem⟩
    · rw [Function.update_of_ne hut] at hu
      apply (h.answered u hu).cons
      intro v hv
      -- the sender holds the guard, as `u` does
      obtain ⟨rfl, hprepared, _⟩ := hfits.sends v hv
      apply hut
      apply hheld.unique
      · rw [hu]
        rfl
      · rw [hprepared]
        rfl
  · intro u hu
    rcases hu.of_cons with hsent | ⟨hflight, hends⟩
    · obtain ⟨rfl, _, rfl⟩ := hfits.sends u hsent
      exact Function.update_self ..
    · have hsending := h.inFlight u hflight
      have hut : u ≠ t := by
        rintro rfl
        exact hends (hfits.ended hsending)
      rw [Function.update_of_ne hut]
      exact hsending
  · intro later earlier u heq
    cases later with
    | nil =>
      obtain ⟨hsent, rfl⟩ := List.cons.inj heq
      obtain ⟨rfl, hprepared, _⟩ := hfits.sends u hsent
      exact h.answered u hprepared
    | cons e' later => exact h.sendsReady later earlier u (List.cons.inj heq).2
  · intro later earlier e' u v heq hcaller hflight
    cases later with
    | nil =>
      obtain ⟨rfl, rfl⟩ := List.cons.inj heq
      obtain ⟨rfl, hguard⟩ := hfits.calls u hcaller
      apply hheld.unique hguard
      rw [h.inFlight v hflight]
      rfl
    | cons e'' later =>
      exact h.undisturbed later earlier e' u v (List.cons.inj heq).2 hcaller hflight

/-- A task that comes to wait for the lock, or to have it, is not yet at the sender. -/
theorem HistoryInvariant.quiet {phase : ℕ → Phase} {history : List SenderEvent}
    (h : HistoryInvariant phase history) {t : ℕ} {p : Phase} (hbefore : phase t ≠ .sending)
    (hp : p ≠ .prepared) : HistoryInvariant (Function.update phase t p) history := by
  refine ⟨?_, ?_, h.sendsReady, h.undisturbed⟩
  · intro u hu
    by_cases hut : u = t
    · subst hut
      rw [Function.update_self] at hu
      exact absurd hu hp
    · rw [Function.update_of_ne hut] at hu
      exact h.answered u hu
  · intro u hflight
    have hsending := h.inFlight u hflight
    have hut : u ≠ t := by
      rintro rfl
      exact hbefore hsending
    rw [Function.update_of_ne hut]
    exact hsending

theorem step_history {s : State} {e : Event} (hheld : Held s)
    (h : HistoryInvariant s.phase s.history) (he : Enabled s e) :
    HistoryInvariant (next s e).phase (next s e).history := by
  cases e with
  | call t =>
    have hphase : s.phase t = .idle := he
    exact h.quiet (by simp [hphase]) (by simp)
  | acquire t =>
    have hphase : s.phase t = .locking := he.1
    exact h.quiet (by simp [hphase]) (by simp)
  | ready t =>
    have hphase : s.phase t = .locked := he
    apply HistoryInvariant.step hheld h
    rw [hphase]
    constructor <;> simp [SenderEvent.caller, Phase.holdsGuard]
  | readyReturned t ok =>
    have hphase : s.phase t = .readying := he
    cases ok with
    | true =>
      apply HistoryInvariant.step hheld h
      rw [hphase]
      constructor <;> simp [SenderEvent.caller]
    | false =>
      apply HistoryInvariant.step hheld h
      rw [hphase]
      constructor <;> simp [SenderEvent.caller]
  | sendRequest t =>
    have hphase : s.phase t = .prepared := he
    apply HistoryInvariant.step hheld h
    rw [hphase]
    constructor <;> simp [SenderEvent.caller, Phase.holdsGuard]
  | returned t ok =>
    have hphase : s.phase t = .sending := he
    apply HistoryInvariant.step hheld h
    rw [hphase]
    constructor <;> simp [SenderEvent.caller, SenderEvent.ends]
  | cancel t =>
    apply HistoryInvariant.step hheld h
    constructor <;> simp [SenderEvent.caller, SenderEvent.ends]

end history

/-- The task whose call is over with the event, by an error, a response or a cancellation. -/
def Event.finishes : Event → Option ℕ
  | .readyReturned t false => some t
  | .returned t _ => some t
  | .cancel t => some t
  | _ => none

theorem next_finishes {s : State} {e : Event} {t : ℕ} (h : e.finishes = some t) :
    (next s e).lock = (s.finish t).lock ∧ (next s e).phase t = .idle := by
  have hidle : (s.finish t).phase t = .idle := Function.update_self ..
  cases e with
  | readyReturned u ok =>
    cases ok with
    | true => cases h
    | false =>
      cases h
      exact ⟨rfl, hidle⟩
  | returned u ok =>
    cases h
    exact ⟨rfl, hidle⟩
  | cancel u =>
    cases h
    exact ⟨rfl, hidle⟩
  | _ => cases h

/-- Only the holder of the mutex sends, and after `ready` has answered it; no other task calls
the sender while a request is in flight; and a call that is over has left the mutex. -/
structure NeverOverlaps (s : State) : Prop where
  holder : ∀ t, Enabled s (.sendRequest t) → s.lock = some t
  sendsReady : SendsReady s.history
  undisturbed : Undisturbed s.history
  released : ∀ e t, e.finishes = some t → Enabled s e →
    (next s e).lock ≠ some t ∧ (s.lock = some t → (next s e).lock = none)
  held : ∀ t, s.lock = some t → (s.phase t).holdsGuard = true

theorem reachable_invariant {s : State} (h : Reachable system s) :
    Held s ∧ HistoryInvariant s.phase s.history := by
  refine reachable_of_step (P := fun s => Held s ∧ HistoryInvariant s.phase s.history) ?_ ?_ h
  · constructor
    · intro t
      constructor <;> intro ht <;> cases ht
    · constructor
      · intro t ht
        cases ht
      · rintro t ⟨later, earlier, heq, _⟩
        cases later <;> cases heq
      · intro later earlier t heq
        cases later <;> cases heq
      · intro later earlier e u t heq
        cases later <;> cases heq
  · rintro s e ⟨hheld, hhistory⟩ he
    exact ⟨step_held hheld he, step_history hheld hhistory he⟩

/-- In every interleaving of any number of tasks, with any of them cancelled at any await point,
requests on a shared HTTP/1 session never overlap and the session is never left locked. -/
theorem requests_never_overlap {s : State} (hs : Reachable system s) : NeverOverlaps s := by
  obtain ⟨hheld, hhistory⟩ := reachable_invariant hs
  refine ⟨?_, hhistory.sendsReady, hhistory.undisturbed, ?_, fun t => (hheld t).mp⟩
  · intro t he
    have hprepared : s.phase t = .prepared := he
    apply (hheld t).mpr
    rw [hprepared]
    rfl
  · intro e t hfinishes he
    obtain ⟨hlock, hidle⟩ := next_finishes (s := s) hfinishes
    constructor
    · intro hl
      have hguard := (step_held hheld he t).mp hl
      rw [hidle] at hguard
      cases hguard
    · intro hl
      rw [hlock, State.finish, if_pos ((hheld t).mp hl)]

/-- The second task takes the lock after the first is cancelled with its request in flight. -/
theorem requests_never_overlap_cancelled :
    let s := system.run system.initial
      [.call 0, .call 1, .acquire 0, .ready 0, .readyReturned 0 true, .sendRequest 0, .cancel 0,
        .acquire 1, .ready 1, .readyReturned 1 true, .sendRequest 1]
    s.lock = some 1 ∧ NeverOverlaps s :=
  ⟨rfl, requests_never_overlap (execution_run (by decide))⟩

end Http1Sessions
