import Navar.Http1Sessions
import Navar.PoolProgress

/-! # The pool over HTTP/1 sessions

Every session of the pool is a `HyperSender::H1`: the calls that the pool gives one session share
its sender, and a call sends its request by the steps of that session. When those end, by an error,
a response or a cancellation, `BaseService::handle` ends with them. A lookup whose shard is held has
no step here; the thread that it blocks is added in `ClientExecutor`. -/
namespace ClientSessions

open LossyText (Str)
open HttpMessages (Uri)
open TransitionSystems
open SessionPool (Environment Outcome LockInvariant)
open PoolHistory (PoolInvariant)
open PoolExecutor (task phase_frame callsEnvironment)
open Http1Sessions (SenderEvent InFlight SendsReady Undisturbed Held)

variable {env : Environment}

structure State where
  pool : SessionPool.State
  sessions : ℕ → Http1Sessions.State

def initial : State := { pool := SessionPool.initial, sessions := fun _ => Http1Sessions.initial }

inductive Event where
  | pool (e : SessionPool.Event)
  | session (i : ℕ) (e : Http1Sessions.Event)

/-- The task of an event of a session, and how its call ends with the event. -/
def sender : Http1Sessions.Event → ℕ
  | .call t => t
  | .acquire t => t
  | .ready t => t
  | .readyReturned t _ => t
  | .sendRequest t => t
  | .returned t _ => t
  | .cancel t => t

def ending : Http1Sessions.Event → Option Outcome
  | .readyReturned _ false => some .failed
  | .returned _ true => some .responded
  | .returned _ false => some .failed
  | .cancel _ => some .cancelled
  | _ => none

/-- The call that comes to send with the event, and the session it sends on. -/
def begins (s : SessionPool.State) : SessionPool.Event → Option (ℕ × ℕ)
  | .occupied t _ _ session => some (t, session)
  | .handshaken t _ _ _ => some (t, s.handshakes.length)
  | _ => none

/-- A call that is sending goes on by the steps of its session. -/
def Enabled (env : Environment) (s : State) : Event → Prop
  | .pool e => SessionPool.Enabled env s.pool e ∧
      ∀ t uri i, task e = some t → s.pool.phase t ≠ .sending uri i
  | .session i e => (∀ t, e ≠ .call t) ∧ Http1Sessions.Enabled (s.sessions i) e

def sends : SessionPool.Phase → Bool
  | .sending .. => true
  | _ => false

theorem sends_iff {p : SessionPool.Phase} : sends p = true ↔ ∃ uri i, p = .sending uri i := by
  cases p <;> simp [sends]

instance (env : Environment) [∀ t uri, Decidable (env.requests t uri)]
    [DecidablePred env.connects] (s : State) : DecidablePred (Enabled env s)
  | .pool e =>
    decidable_of_iff (SessionPool.Enabled env s.pool e ∧ ∀ t ∈ task e, ¬sends (s.pool.phase t)) (by
      simp only [Enabled, sends_iff, not_exists, Option.mem_def]
      refine and_congr_right' ⟨fun h t uri i ht => h t ht uri i, fun h t ht uri i => h t uri i ht⟩)
  | .session _ (.call t) => isFalse fun h => h.1 t rfl
  | .session _ (.acquire _) => decidable_of_iff _ (and_iff_right nofun).symm
  | .session _ (.ready _) => decidable_of_iff _ (and_iff_right nofun).symm
  | .session _ (.readyReturned _ _) => decidable_of_iff _ (and_iff_right nofun).symm
  | .session _ (.sendRequest _) => decidable_of_iff _ (and_iff_right nofun).symm
  | .session _ (.returned _ _) => decidable_of_iff _ (and_iff_right nofun).symm
  | .session _ (.cancel _) => decidable_of_iff _ (and_iff_right nofun).symm

def next (env : Environment) (s : State) : Event → State
  | .pool e =>
    { pool := SessionPool.next env s.pool e
      sessions :=
        match begins s.pool e with
        | some (t, i) =>
          Function.update s.sessions i (Http1Sessions.next (s.sessions i) (.call t))
        | none => s.sessions }
  | .session i e =>
    { pool :=
        match ending e with
        | some outcome => s.pool.finish (sender e) outcome
        | none => s.pool
      sessions := Function.update s.sessions i (Http1Sessions.next (s.sessions i) e) }

def system (env : Environment) : System State Event where
  initial := initial
  Enabled := Enabled env
  next := next env

instance (env : Environment) [∀ t uri, Decidable (env.requests t uri)]
    [DecidablePred env.connects] (s : State) (e : Event) :
    Decidable ((system env).Enabled s e) := inferInstanceAs (Decidable (Enabled env s e))

section coupling

/-- A task is at a session exactly when its call is sending on that session. -/
def Coupled (s : State) : Prop :=
  ∀ i t, (s.sessions i).phase t ≠ .idle ↔ ∃ uri, s.pool.phase t = .sending uri i

theorem session_frame {s : Http1Sessions.State} {e : Http1Sessions.Event} {t : ℕ}
    (h : sender e ≠ t) : (Http1Sessions.next s e).phase t = s.phase t := by
  have hne : t ≠ sender e := Ne.symm h
  rcases e with _ | _ | _ | ⟨u, _ | _⟩ | _ | _ | _ <;> exact Function.update_of_ne hne ..

/-- Only a call that is under way takes steps at its session, and it is over when it ends. -/
theorem session_phases {s : Http1Sessions.State} {e : Http1Sessions.Event}
    (hcall : ∀ t, e ≠ .call t) (he : Http1Sessions.Enabled s e) :
    s.phase (sender e) ≠ .idle ∧
      ((Http1Sessions.next s e).phase (sender e) = .idle ↔ ending e ≠ none) := by
  have hmove : ∀ {p p'}, s.phase (sender e) = p →
      (Http1Sessions.next s e).phase (sender e) = p' → p ≠ .idle → (p' = .idle ↔ ending e ≠ none) →
      s.phase (sender e) ≠ .idle ∧
        ((Http1Sessions.next s e).phase (sender e) = .idle ↔ ending e ≠ none) := by
    rintro p p' rfl rfl hbefore hafter
    exact ⟨hbefore, hafter⟩
  cases e with
  | call t => exact absurd rfl (hcall t)
  | acquire t => exact hmove he.1 (Function.update_self ..) (by decide) (by simp [ending])
  | ready t => exact hmove he (Function.update_self ..) (by decide) (by simp [ending])
  | readyReturned t ok =>
    cases ok with
    | true => exact hmove he (Function.update_self ..) (by decide) (by simp [ending])
    | false => exact hmove he (Function.update_self ..) (by decide) (by simp [ending])
  | sendRequest t => exact hmove he (Function.update_self ..) (by decide) (by simp [ending])
  | returned t ok =>
    cases ok with
    | true => exact hmove he (Function.update_self ..) (by decide) (by simp [ending])
    | false => exact hmove he (Function.update_self ..) (by decide) (by simp [ending])
  | cancel t =>
    have hawaiting : (s.phase t).awaiting = true := he
    refine hmove rfl (Function.update_self ..) ?_ (by simp [ending])
    intro hidle
    rw [show s.phase t = .idle from hidle] at hawaiting
    cases hawaiting

/-- The call that comes to send is that of the event, and no other event brings one to send. -/
theorem begins_iff {s : SessionPool.State} {e : SessionPool.Event} {t : ℕ}
    (ht : task e = some t) (hbefore : ∀ uri i, s.phase t ≠ .sending uri i)
    (he : SessionPool.Enabled env s e) (i : ℕ) :
    (∃ uri, (SessionPool.next env s e).phase t = .sending uri i) ↔ begins s e = some (t, i) := by
  cases e with
  | occupied t' uri key session =>
    cases ht
    have hphase : (SessionPool.next env s (.occupied t uri key session)).phase t =
        .sending uri session := Function.update_self ..
    simp [hphase, begins]
  | handshaken t' uri key conn =>
    cases ht
    have hphase : (SessionPool.next env s (.handshaken t uri key conn)).phase t =
        .sending uri s.handshakes.length := Function.update_self ..
    simp [hphase, begins]
  | responded t' uri session =>
    cases ht
    exact absurd he (hbefore uri session)
  | close session => cases ht
  | _ =>
    cases ht
    simp [SessionPool.next, SessionPool.State.finish, SessionPool.State.setPhase, begins]

theorem begins_task {s : SessionPool.State} {e : SessionPool.Event} {t i : ℕ}
    (h : begins s e = some (t, i)) : task e = some t := by
  cases e with
  | occupied t' uri key session =>
    cases h
    rfl
  | handshaken t' uri key conn =>
    cases h
    rfl
  | _ => cases h

/-- A session changes with a step of the pool only when a call comes to send on it. -/
theorem sessions_pool (s : State) (e : SessionPool.Event) (i : ℕ) :
    (∃ t, begins s.pool e = some (t, i) ∧
      (next env s (.pool e)).sessions i = Http1Sessions.next (s.sessions i) (.call t)) ∨
    ((∀ t, begins s.pool e ≠ some (t, i)) ∧ (next env s (.pool e)).sessions i = s.sessions i) := by
  cases hb : begins s.pool e with
  | none => exact Or.inr ⟨nofun, by simp [next, hb]⟩
  | some p =>
    obtain ⟨t, j⟩ := p
    by_cases hij : i = j
    · subst hij
      exact Or.inl ⟨t, rfl, by simp [next, hb]⟩
    · refine Or.inr ⟨?_, by simp [next, hb, hij]⟩
      intro t' heq
      cases heq
      exact hij rfl

theorem pool_session_frame {s : State} {e : SessionPool.Event} {t i : ℕ} (ht : task e ≠ some t) :
    ((next env s (.pool e)).sessions i).phase t = (s.sessions i).phase t := by
  rcases sessions_pool s e i with ⟨t', hb, hsession⟩ | ⟨_, hsession⟩
  · rw [hsession]
    apply session_frame
    rintro rfl
    exact ht (begins_task hb)
  · rw [hsession]

theorem coupled_pool {s : State} {e : SessionPool.Event} (h : Coupled s)
    (he : Enabled env s (.pool e)) : Coupled (next env s (.pool e)) := by
  intro i t
  have hpool : (next env s (.pool e)).pool = SessionPool.next env s.pool e := rfl
  by_cases ht : task e = some t
  · have hbefore : ∀ uri j, s.pool.phase t ≠ .sending uri j := fun uri j => he.2 t uri j ht
    have hidle : (s.sessions i).phase t = .idle := by
      by_contra hne
      obtain ⟨uri, hp⟩ := (h i t).mp hne
      exact hbefore uri i hp
    rw [hpool, begins_iff ht hbefore he.1]
    rcases sessions_pool s e i with ⟨t', hb, hsession⟩ | ⟨hb, hsession⟩
    · obtain rfl := Option.some.inj ((begins_task hb).symm.trans ht)
      have hphase : (Http1Sessions.next (s.sessions i) (.call t')).phase t' = .locking :=
        Function.update_self ..
      rw [hsession, hphase, hb]
      simp
    · rw [hsession, hidle]
      simp [hb t]
  · have hphase : (SessionPool.next env s.pool e).phase t = s.pool.phase t := phase_frame ht
    rw [hpool, hphase, pool_session_frame ht]
    exact h i t

theorem session_pool_frame {s : State} {i : ℕ} {e : Http1Sessions.Event} {t : ℕ}
    (ht : sender e ≠ t) : (next env s (.session i e)).pool.phase t = s.pool.phase t := by
  cases hend : ending e with
  | none => simp [next, hend]
  | some outcome =>
    simp [next, hend, SessionPool.State.finish, SessionPool.State.setPhase,
      SessionPool.State.release, Ne.symm ht]

theorem session_sessions_frame {s : State} {i : ℕ} {e : Http1Sessions.Event} {t : ℕ}
    (ht : sender e ≠ t) (j : ℕ) :
    ((next env s (.session i e)).sessions j).phase t = (s.sessions j).phase t := by
  by_cases hij : j = i
  · subst hij
    have hself : (next env s (.session j e)).sessions j = Http1Sessions.next (s.sessions j) e :=
      Function.update_self ..
    rw [hself]
    exact session_frame ht
  · exact congrArg (fun u => Http1Sessions.State.phase u t) (Function.update_of_ne hij ..)

theorem coupled_session {s : State} {i : ℕ} {e : Http1Sessions.Event} (h : Coupled s)
    (he : Enabled env s (.session i e)) : Coupled (next env s (.session i e)) := by
  obtain ⟨hlive, hover⟩ := session_phases he.1 he.2
  obtain ⟨uri, hsending⟩ := (h i (sender e)).mp hlive
  intro j t
  by_cases ht : sender e = t
  · subst ht
    by_cases hij : j = i
    · subst hij
      have hsession : (next env s (.session j e)).sessions j =
          Http1Sessions.next (s.sessions j) e := Function.update_self ..
      rw [hsession, Ne, hover]
      cases hend : ending e with
      | none => simp [next, hend, hsending]
      | some outcome =>
        simp [next, hend, SessionPool.State.finish, SessionPool.State.setPhase]
    · have hsession : (next env s (.session i e)).sessions j = s.sessions j :=
        Function.update_of_ne hij ..
      have hidle : (s.sessions j).phase (sender e) = .idle := by
        by_contra hne
        obtain ⟨uri', hp⟩ := (h j (sender e)).mp hne
        rw [hsending] at hp
        cases hp
        exact hij rfl
      rw [hsession, hidle]
      cases hend : ending e with
      | none =>
        simp only [next, hend, hsending]
        simp [Ne.symm hij]
      | some outcome =>
        simp [next, hend, SessionPool.State.finish, SessionPool.State.setPhase]
  · have hphase : (next env s (.session i e)).pool.phase t = s.pool.phase t :=
      session_pool_frame ht
    rw [hphase, session_sessions_frame ht]
    exact h j t

theorem reachable_coupled {s : State} (h : Reachable (system env) s) : Coupled s := by
  refine reachable_of_step ?_ ?_ h
  · intro i t
    constructor
    · intro hne
      exact absurd rfl hne
    · rintro ⟨uri, hp⟩
      cases hp
  · intro s e hs he
    cases e with
    | pool e => exact coupled_pool hs he
    | session i e =>
      have hstep : Coupled (next env s (.session i e)) := coupled_session hs he
      exact hstep

end coupling

section projections

/-- A step of a session ends the call in the pool, if it ends it, as the pool may end it. -/
theorem session_projected {s : State} {i : ℕ} {e : Http1Sessions.Event} (h : Coupled s)
    (he : Enabled env s (.session i e)) :
    Execution (SessionPool.system env) s.pool (next env s (.session i e)).pool := by
  obtain ⟨uri, hsending⟩ := (h i (sender e)).mp (session_phases he.1 he.2).1
  have hfail : (SessionPool.system env).Enabled s.pool (.fail (sender e)) :=
    congrArg SessionPool.Phase.awaiting hsending
  have hcancel : (SessionPool.system env).Enabled s.pool (.cancel (sender e)) :=
    congrArg SessionPool.Phase.live hsending
  cases e with
  | readyReturned t ok =>
    cases ok with
    | true => exact .refl _
    | false => exact execution_step hfail
  | returned t ok =>
    cases ok with
    | true =>
      have hresponded : (SessionPool.system env).Enabled s.pool (.responded t uri i) := hsending
      exact execution_step hresponded
    | false => exact execution_step hfail
  | cancel t => exact execution_step hcancel
  | _ => exact .refl _

theorem reachable_pool {s : State} (hs : Reachable (system env) s) :
    Reachable (SessionPool.system env) s.pool := by
  refine reachable_of_simulated (fun _ => reachable_coupled) rfl ?_ hs
  intro s e h he
  cases e with
  | pool e => exact execution_step (M := SessionPool.system env) he.1
  | session i e => exact session_projected h he

theorem reachable_session {s : State} (hs : Reachable (system env) s) (i : ℕ) :
    Reachable Http1Sessions.system (s.sessions i) := by
  refine reachable_of_simulated (M := system env) (f := fun s => s.sessions i)
    (fun _ => reachable_coupled) rfl ?_ hs
  intro s e h he
  cases e with
  | pool e =>
    rcases sessions_pool s e i with ⟨t, hb, hsession⟩ | ⟨_, hsession⟩
    · have hidle : (s.sessions i).phase t = .idle := by
        by_contra hne
        obtain ⟨uri, hp⟩ := (h i t).mp hne
        exact he.2 t uri i (begins_task hb) hp
      have hcall : Http1Sessions.system.Enabled (s.sessions i) (.call t) := hidle
      exact hsession ▸ execution_step hcall
    · have hstay : Execution Http1Sessions.system (s.sessions i) (s.sessions i) := .refl _
      exact hsession ▸ hstay
  | session j e =>
    by_cases hij : i = j
    · subst hij
      have hstep : Http1Sessions.system.Enabled (s.sessions i) e := he.2
      have hsession : (next env s (.session i e)).sessions i =
          Http1Sessions.next (s.sessions i) e := Function.update_self ..
      exact hsession ▸ execution_step hstep
    · have hsession : (next env s (.session j e)).sessions i = s.sessions i :=
        Function.update_of_ne hij ..
      have hstay : Execution Http1Sessions.system (s.sessions i) (s.sessions i) := .refl _
      exact hsession ▸ hstay

end projections

section isolation

def recorded : Http1Sessions.Event → List SenderEvent
  | .call _ => []
  | .acquire _ => []
  | .ready t => [.ready t]
  | .readyReturned t ok => [.readyReturned t ok]
  | .sendRequest t => [.sendRequest t]
  | .returned t ok => [.returned t ok]
  | .cancel t => [.cancelled t]

theorem next_history (s : Http1Sessions.State) (e : Http1Sessions.Event) :
    (Http1Sessions.next s e).history = recorded e ++ s.history := by
  rcases e with _ | _ | _ | ⟨t, _ | _⟩ | _ | _ | _ <;> rfl

theorem histories_pool (s : State) (e : SessionPool.Event) (j : ℕ) :
    ((next env s (.pool e)).sessions j).history = (s.sessions j).history := by
  rcases sessions_pool s e j with ⟨t, _, hsession⟩ | ⟨_, hsession⟩
  · rw [hsession]
    rfl
  · rw [hsession]

theorem sent_grows (s : SessionPool.State) (e : SessionPool.Event) :
    s.sent <+: (SessionPool.next env s e).sent := by
  cases e <;> first | exact List.prefix_refl _ | exact List.prefix_append _ _

/-- What is at a session has been given to it by the pool. -/
structure Logged (s : State) : Prop where
  sending : ∀ t uri i, s.pool.phase t = .sending uri i → ⟨t, uri, i⟩ ∈ s.pool.sent
  sent : ∀ i t, .sendRequest t ∈ (s.sessions i).history → ∃ uri, ⟨t, uri, i⟩ ∈ s.pool.sent

theorem begun_logged {s : SessionPool.State} {e : SessionPool.Event} {t i : ℕ} {uri : Uri}
    (ht : task e = some t) (hbefore : ∀ uri i, s.phase t ≠ .sending uri i)
    (he : SessionPool.Enabled env s e)
    (hp : (SessionPool.next env s e).phase t = .sending uri i) :
    ⟨t, uri, i⟩ ∈ (SessionPool.next env s e).sent := by
  cases e with
  | occupied t' uri' key session =>
    cases ht
    have hphase : (SessionPool.next env s (.occupied t uri' key session)).phase t =
        .sending uri' session := Function.update_self ..
    obtain ⟨rfl, rfl⟩ := SessionPool.Phase.sending.inj (hp.symm.trans hphase)
    exact List.mem_append_right _ (List.mem_singleton_self _)
  | handshaken t' uri' key conn =>
    cases ht
    have hphase : (SessionPool.next env s (.handshaken t uri' key conn)).phase t =
        .sending uri' s.handshakes.length := Function.update_self ..
    obtain ⟨rfl, rfl⟩ := SessionPool.Phase.sending.inj (hp.symm.trans hphase)
    exact List.mem_append_right _ (List.mem_singleton_self _)
  | responded t' uri' session =>
    cases ht
    exact absurd he (hbefore uri' session)
  | close session => cases ht
  | _ =>
    cases ht
    simp [SessionPool.next, SessionPool.State.finish, SessionPool.State.setPhase] at hp

theorem logged_pool {s : State} {e : SessionPool.Event} (h : Logged s)
    (he : Enabled env s (.pool e)) : Logged (next env s (.pool e)) := by
  have hgrows := (@sent_grows env s.pool e).subset
  constructor
  · intro t uri i hp
    by_cases ht : task e = some t
    · exact begun_logged ht (fun uri i => he.2 t uri i ht) he.1 hp
    · have hphase : (SessionPool.next env s.pool e).phase t = s.pool.phase t := phase_frame ht
      exact hgrows (h.sending t uri i (hphase ▸ hp))
  · intro i t hmem
    rw [histories_pool] at hmem
    obtain ⟨uri, hsent⟩ := h.sent i t hmem
    exact ⟨uri, hgrows hsent⟩

theorem sender_of_recorded {e : Http1Sessions.Event} {t : ℕ} (h : .sendRequest t ∈ recorded e) :
    sender e = t := by
  cases e <;> simp_all [recorded, sender]

theorem logged_session {s : State} {i : ℕ} {e : Http1Sessions.Event} (h : Logged s)
    (hs : Coupled s) (he : Enabled env s (.session i e)) : Logged (next env s (.session i e)) := by
  have hsent : (next env s (.session i e)).pool.sent = s.pool.sent := by
    cases hend : ending e <;> simp [next, hend, SessionPool.State.finish,
      SessionPool.State.setPhase, SessionPool.State.release]
  constructor
  · intro t uri j hp
    rw [hsent]
    by_cases ht : sender e = t
    · subst ht
      obtain ⟨uri', hsending⟩ := (hs i (sender e)).mp (session_phases he.1 he.2).1
      cases hend : ending e with
      | none =>
        have hphase : (next env s (.session i e)).pool = s.pool := by simp [next, hend]
        exact h.sending _ uri j (hphase ▸ hp)
      | some outcome =>
        simp [next, hend, SessionPool.State.finish, SessionPool.State.setPhase] at hp
    · rw [session_pool_frame ht] at hp
      exact h.sending t uri j hp
  · intro j t hmem
    rw [hsent]
    by_cases hij : j = i
    · subst hij
      have hself : (next env s (.session j e)).sessions j =
          Http1Sessions.next (s.sessions j) e := Function.update_self ..
      rw [hself, next_history] at hmem
      rcases List.mem_append.mp hmem with hnew | hold
      · obtain rfl := sender_of_recorded hnew
        obtain ⟨uri, hsending⟩ := (hs j (sender e)).mp (session_phases he.1 he.2).1
        exact ⟨uri, h.sending _ uri j hsending⟩
      · exact h.sent j t hold
    · have hother : (next env s (.session i e)).sessions j = s.sessions j :=
        Function.update_of_ne hij ..
      rw [hother] at hmem
      exact h.sent j t hmem

theorem reachable_logged {s : State} (hs : Reachable (system env) s) : Logged s := by
  have hboth : Coupled s ∧ Logged s := by
    refine reachable_of_step (P := fun s => Coupled s ∧ Logged s) ?_ ?_ hs
    · refine ⟨reachable_coupled (.refl _), ?_, ?_⟩
      · intro t uri i hp
        cases hp
      · intro i t hmem
        cases hmem
    · rintro s e ⟨hcoupled, h⟩ he
      cases e with
      | pool e => exact ⟨coupled_pool hcoupled he, logged_pool h he⟩
      | session i e =>
        have hstep : Coupled (next env s (.session i e)) := coupled_session hcoupled he
        have hlog : Logged (next env s (.session i e)) := logged_session h hcoupled he
        exact ⟨hstep, hlog⟩
  exact hboth.2

/-- What goes over a session is of its authority, one request at a time, and so no authority has
two requests under way; a session is locked for a call that sends on it. -/
structure Isolated (s : State) : Prop where
  sent : ∀ i t, .sendRequest t ∈ (s.sessions i).history → ∃ uri key,
    ⟨t, uri, i⟩ ∈ s.pool.sent ∧ uri.authority = some key ∧ PoolHistory.Established s.pool i key
  inFlight : ∀ i t, InFlight (s.sessions i).history t → ∃ uri, s.pool.phase t = .sending uri i
  alone : ∀ i j t u uri uri', InFlight (s.sessions i).history t →
    InFlight (s.sessions j).history u → s.pool.phase t = .sending uri i →
    s.pool.phase u = .sending uri' j → uri.authority = uri'.authority → t = u
  ready : ∀ i, SendsReady (s.sessions i).history
  undisturbed : ∀ i, Undisturbed (s.sessions i).history
  holder : ∀ i t, (s.sessions i).lock = some t → ∃ uri, s.pool.phase t = .sending uri i

end isolation

/-- In every run of any number of calls, with any of them cancelled at any await point, the
requests of one authority go over one connection, one after the other. -/
theorem requests_isolated {s : State} (hs : Reachable (system env) s) : Isolated s := by
  have hcoupled := reachable_coupled hs
  have hlogged := reachable_logged hs
  have hpool := PoolHistory.reachable_pool (reachable_pool hs)
  have hsessions := fun i => Http1Sessions.reachable_invariant (reachable_session hs i)
  have hinFlight : ∀ i t, InFlight (s.sessions i).history t →
      ∃ uri, s.pool.phase t = .sending uri i := by
    intro i t hflight
    apply (hcoupled i t).mp
    rw [(hsessions i).2.inFlight t hflight]
    exact nofun
  refine ⟨?_, hinFlight, ?_, fun i => (hsessions i).2.sendsReady,
    fun i => (hsessions i).2.undisturbed, ?_⟩
  · intro i t hmem
    obtain ⟨uri, hsent⟩ := hlogged.sent i t hmem
    obtain ⟨key, hkey, hpooled⟩ := hpool.pooled _ hsent
    exact ⟨uri, key, hsent, hkey, hpool.origin key i hpooled⟩
  · intro i j t u uri uri' ht hu hp hp' hauthority
    obtain ⟨key, hkey, hmem⟩ := hpool.pooled _ (hlogged.sending t uri i hp)
    obtain ⟨key', hkey', hmem'⟩ := hpool.pooled _ (hlogged.sending u uri' j hp')
    obtain rfl : key = key' := Option.some.inj (hkey.symm.trans (hauthority.trans hkey'))
    obtain rfl : i = j := PoolHistory.pool_unique hpool hmem hmem'
    apply (hsessions i).1.unique
    · rw [(hsessions i).2.inFlight t ht]
      rfl
    · rw [(hsessions i).2.inFlight u hu]
      rfl
  · intro i t hlock
    apply (hcoupled i t).mp
    intro hidle
    have hguard := ((hsessions i).1 t).mp hlock
    rw [hidle] at hguard
    cases hguard

/-- The second call waits for the first, which is cancelled with its request in flight. -/
def handedOver : List Event :=
  [.pool (.call 0 PoolHistory.uriA), .pool (.call 1 PoolHistory.uriA),
    .pool (.vacant 0 PoolHistory.uriA ['a']), .pool (.connected 0 PoolHistory.uriA ['a']),
    .pool (.handshaken 0 PoolHistory.uriA ['a'] 0), .session 0 (.acquire 0),
    .pool (.occupied 1 PoolHistory.uriA ['a'] 0), .session 0 (.ready 0),
    .session 0 (.readyReturned 0 true), .session 0 (.sendRequest 0), .session 0 (.cancel 0),
    .session 0 (.acquire 1), .session 0 (.ready 1), .session 0 (.readyReturned 1 true),
    .session 0 (.sendRequest 1), .session 0 (.returned 1 true)]

abbrev twoCalls : Environment :=
  callsEnvironment (fun _ => 0) (fun _ => True) [PoolHistory.uriA, PoolHistory.uriA]

theorem requests_isolated_handed_over :
    let s := (system twoCalls).run initial handedOver
    (s.sessions 0).history.length = 8 ∧ Isolated s :=
  ⟨by decide, requests_isolated (execution_run (by decide))⟩

end ClientSessions
