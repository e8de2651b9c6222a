import Navar.ClientSessions

/-! # The calls over HTTP/1 sessions on the threads of an executor

A poll of a call is a step of the pool or of the session that the call sends on. A call that waits
for the mutex of its session gives its thread up; one whose shard is held does not, as in the pool
alone. -/
namespace ClientExecutor

open LossyText (Str)
open HttpMessages (Uri)
open TransitionSystems
open SessionPool (Environment)
open PoolExecutor (task isEntry)
open ClientSessions (sender Coupled)

variable {W : ℕ}

structure State (W : ℕ) where
  core : ClientSessions.State
  threads : Fin W → Option ℕ

def initial : State W := { core := ClientSessions.initial, threads := fun _ => none }

inductive Event (W : ℕ) where
  | act (e : ClientSessions.Event)
  | block (w : Fin W) (t : ℕ) (uri : Uri) (key : Str)
  | unblock (w : Fin W) (t : ℕ) (e : SessionPool.Event)

/-- The call that the event polls or drops. -/
def caller : ClientSessions.Event → Option ℕ
  | .pool e => task e
  | .session _ e => some (sender e)

def Enabled (env : Environment) (s : State W) : Event W → Prop
  | .act e => (∃ w, s.threads w = none) ∧ ClientSessions.Enabled env s.core e ∧
      ∀ w, (s.threads w).isSome = true → s.threads w ≠ caller e
  | .block w t uri key => s.threads w = none ∧ (∀ w', s.threads w' ≠ some t) ∧
      s.core.pool.phase t = .start uri ∧ uri.authority = some key ∧
      s.core.pool.lock (env.shard key) ≠ none
  | .unblock w t e => s.threads w = some t ∧ isEntry e = true ∧ task e = some t ∧
      ClientSessions.Enabled env s.core (.pool e)

def next (env : Environment) (s : State W) : Event W → State W
  | .act e => { s with core := ClientSessions.next env s.core e }
  | .block w t _ _ => { s with threads := Function.update s.threads w (some t) }
  | .unblock w _ e =>
    { core := ClientSessions.next env s.core (.pool e)
      threads := Function.update s.threads w none }

def system (W : ℕ) (env : Environment) : System (State W) (Event W) where
  initial := initial
  Enabled := Enabled env
  next := next env

instance (env : Environment) [∀ t uri, Decidable (env.requests t uri)]
    [DecidablePred env.connects] (s : State W) : DecidablePred ((system W env).Enabled s)
  | .act _ => inferInstanceAs (Decidable (_ ∧ _ ∧ _))
  | .block _ _ _ _ => inferInstanceAs (Decidable (_ ∧ _ ∧ _ ∧ _ ∧ _))
  | .unblock _ _ _ => inferInstanceAs (Decidable (_ ∧ _ ∧ _ ∧ _))

/-- The pool on the threads, without what its sessions do. -/
def State.onThreads (s : State W) : PoolExecutor.State W :=
  { core := s.core.pool, threads := s.threads }

section projections

variable {env : Environment}

theorem refines_sessions : Refines (system W env) (ClientSessions.system env) State.core := by
  constructor
  · rfl
  · intro s e he
    cases e with
    | act e => exact execution_step (M := ClientSessions.system env) he.2.1
    | block w t uri key => exact .refl _
    | unblock w t e =>
      exact execution_step (M := ClientSessions.system env) (e := .pool e) he.2.2.2

theorem reachable_coupled {s : State W} (hs : Reachable (system W env) s) : Coupled s.core :=
  ClientSessions.reachable_coupled (refines_sessions.reachable hs)

/-- An event of the pool that ends a call may happen on a thread where the step of its session
happens. -/
theorem session_projected {s : State W} {i : ℕ} {e : Http1Sessions.Event}
    (h : Coupled s.core) (he : Enabled env s (.act (.session i e))) :
    Execution (PoolExecutor.system W env) s.onThreads
      (next env s (.act (.session i e))).onThreads := by
  obtain ⟨hfree, henabled, hidle⟩ := he
  obtain ⟨uri, hsending⟩ := (h i (sender e)).mp
    (ClientSessions.session_phases henabled.1 henabled.2).1
  have hact : ∀ ending : SessionPool.Event, task ending = some (sender e) →
      SessionPool.Enabled env s.core.pool ending →
      (PoolExecutor.system W env).Enabled s.onThreads (.act ending) := by
    intro ending htask he'
    refine ⟨hfree, he', ?_⟩
    intro w hw
    rw [htask]
    exact hidle w hw
  have hfail := hact (.fail (sender e)) rfl (congrArg SessionPool.Phase.awaiting hsending)
  have hcancel := hact (.cancel (sender e)) rfl (congrArg SessionPool.Phase.live hsending)
  cases e with
  | readyReturned t ok =>
    cases ok with
    | true => exact .refl _
    | false => exact execution_step hfail
  | returned t ok =>
    cases ok with
    | true =>
      have hresponded := hact (.responded t uri i) rfl hsending
      exact execution_step hresponded
    | false => exact execution_step hfail
  | cancel t => exact execution_step hcancel
  | _ => exact .refl _

theorem reachable_onThreads {s : State W} (hs : Reachable (system W env) s) :
    Reachable (PoolExecutor.system W env) s.onThreads := by
  refine reachable_of_simulated (M := system W env) (f := State.onThreads)
    (fun _ => reachable_coupled) rfl ?_ hs
  intro s e h he
  cases e with
  | act e =>
    cases e with
    | pool e =>
      have hact : (PoolExecutor.system W env).Enabled s.onThreads (.act e) :=
        ⟨he.1, he.2.1.1, he.2.2⟩
      exact execution_step hact
    | session i e => exact session_projected h he
  | block w t uri key =>
    have hblock : (PoolExecutor.system W env).Enabled s.onThreads (.block w t uri key) := he
    exact execution_step hblock
  | unblock w t e =>
    have hunblock : (PoolExecutor.system W env).Enabled s.onThreads (.unblock w t e) :=
      ⟨he.1, he.2.1, he.2.2.1, he.2.2.2.1⟩
    exact execution_step hunblock

/-- No session has been given a call. -/
def unsent (s : PoolExecutor.State W) : State W :=
  { core := { pool := s.core, sessions := fun _ => Http1Sessions.initial }, threads := s.threads }

/-- Calls that are made, find no session and block do so with the sessions as well. -/
theorem unsent_refines : Refines (PoolExecutor.opening W env) (system W env) unsent := by
  constructor
  · rfl
  · rintro s e ⟨he, hopens⟩
    cases e with
    | act e =>
      have hact : ∀ t, task e = some t → (∀ uri i, s.core.phase t ≠ .sending uri i) →
          (system W env).Enabled (unsent s) (.act (.pool e)) := by
        intro t htask hbefore
        refine ⟨he.1, ⟨he.2.1, ?_⟩, he.2.2⟩
        intro t' uri i ht'
        obtain rfl := Option.some.inj (htask.symm.trans ht')
        exact hbefore uri i
      cases e with
      | call t uri =>
        have hidle : s.core.phase t = .idle := he.2.1.1
        exact execution_step (hact t rfl (by simp [hidle]))
      | vacant t uri key =>
        have hstart : s.core.phase t = .start uri := he.2.1.1
        exact execution_step (hact t rfl (by simp [hstart]))
      | _ => cases hopens
    | block w t uri key =>
      have hblock : (system W env).Enabled (unsent s) (.block w t uri key) := he
      exact execution_step hblock
    | unblock w t e => cases hopens

end projections

end ClientExecutor
