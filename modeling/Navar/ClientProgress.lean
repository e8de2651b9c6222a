import Mathlib.Algebra.Order.BigOperators.Group.Finset
import Navar.ClientExecutor

/-! # The calls over HTTP/1 sessions come to an end

A call that waits for the mutex of a session waits for a call that can go on or be dropped, so
calls that share a session do not stop each other, whichever of them are cancelled. What can stop
them is what stops the pool alone: threads that are all blocked on its shards. -/
namespace ClientProgress

open LossyText (Str)
open HttpMessages (Uri)
open TransitionSystems
open SessionPool (Environment)
open PoolExecutor (task isEntry phase_frame callsEnvironment lookups shards Deadlocked)
open ClientSessions

variable {W : ℕ} {env : Environment}

section sessions

/-- How many steps of a call are left at most, its session's close included. -/
def sessionLeft : Http1Sessions.Phase → ℕ
  | .idle => 0
  | .locking => 5
  | .locked => 4
  | .readying => 3
  | .prepared => 2
  | .sending => 1

def callLeft (session : ℕ → Http1Sessions.Phase) : SessionPool.Phase → ℕ
  | .idle => 10
  | .start _ => 9
  | .connecting _ _ => 8
  | .handshaking _ _ _ => 7
  | .sending _ i => sessionLeft (session i)
  | .finished _ => 0

def left (s : State) (t : ℕ) : ℕ := callLeft (fun i => (s.sessions i).phase t) (s.pool.phase t)

def rank (n : ℕ) (s : State) : ℕ :=
  ∑ t ∈ Finset.range n, left s t + PoolProgress.openSessions s.pool

theorem session_shrinks {s : Http1Sessions.State} {e : Http1Sessions.Event}
    (hcall : ∀ t, e ≠ .call t) (he : Http1Sessions.Enabled s e) :
    sessionLeft ((Http1Sessions.next s e).phase (sender e)) < sessionLeft (s.phase (sender e)) := by
  have hmove : ∀ {p p'}, s.phase (sender e) = p → (Http1Sessions.next s e).phase (sender e) = p' →
      sessionLeft p' < sessionLeft p →
      sessionLeft ((Http1Sessions.next s e).phase (sender e)) <
        sessionLeft (s.phase (sender e)) := by
    rintro p p' rfl rfl hless
    exact hless
  cases e with
  | call t => exact absurd rfl (hcall t)
  | acquire t => exact hmove he.1 (Function.update_self ..) (by decide)
  | ready t => exact hmove he (Function.update_self ..) (by decide)
  | readyReturned t ok =>
    cases ok with
    | true => exact hmove he (Function.update_self ..) (by decide)
    | false => exact hmove he (Function.update_self ..) (by decide)
  | sendRequest t => exact hmove he (Function.update_self ..) (by decide)
  | returned t ok => exact hmove he (Function.update_self ..) (by decide)
  | cancel t =>
    have hawaiting : (s.phase t).awaiting = true := he
    refine hmove rfl (Function.update_self ..) ?_
    cases hp : s.phase t <;> rw [sender, hp] <;>
      first | decide | (rw [hp] at hawaiting; cases hawaiting)

/-- A step of a call before it sends is paid for, with the session that it opens. -/
theorem call_shrinks {s : SessionPool.State} {e : SessionPool.Event} {t : ℕ}
    {session session' : ℕ → Http1Sessions.Phase} (htask : task e = some t)
    (he : SessionPool.Enabled env s e) (hbefore : ∀ uri i, s.phase t ≠ .sending uri i)
    (hbegun : ∀ uri i, (SessionPool.next env s e).phase t = .sending uri i →
      session' i = .locking) :
    callLeft session' ((SessionPool.next env s e).phase t) +
        PoolProgress.openSessions (SessionPool.next env s e) <
      callLeft session (s.phase t) + PoolProgress.openSessions s := by
  have hmove : ∀ {p p'}, s.phase t = p → (SessionPool.next env s e).phase t = p' →
      PoolProgress.openSessions (SessionPool.next env s e) = PoolProgress.openSessions s →
      callLeft session' p' < callLeft session p →
      callLeft session' ((SessionPool.next env s e).phase t) +
          PoolProgress.openSessions (SessionPool.next env s e) <
        callLeft session (s.phase t) + PoolProgress.openSessions s := by
    rintro p p' rfl rfl hopen hless
    rw [hopen]
    exact Nat.add_lt_add_right hless _
  have hfinish : ∀ {outcome}, (s.phase t).live = true →
      (SessionPool.next env s e).phase t = .finished outcome →
      PoolProgress.openSessions (SessionPool.next env s e) = PoolProgress.openSessions s →
      callLeft session' ((SessionPool.next env s e).phase t) +
          PoolProgress.openSessions (SessionPool.next env s e) <
        callLeft session (s.phase t) + PoolProgress.openSessions s := by
    intro outcome hlive hp hopen
    refine hmove rfl hp hopen ?_
    cases hphase : s.phase t with
    | sending uri i => exact absurd hphase (hbefore uri i)
    | idle =>
      rw [hphase] at hlive
      cases hlive
    | finished outcome' =>
      rw [hphase] at hlive
      cases hlive
    | _ => simp [callLeft]
  cases e with
  | call t' uri =>
    cases htask
    exact hmove he.1 (Function.update_self ..) rfl (by simp [callLeft])
  | missingAuthority t' uri =>
    cases htask
    exact hfinish (by rw [he.1]; rfl) (Function.update_self ..) rfl
  | occupied t' uri key i =>
    cases htask
    have hafter : (SessionPool.next env s (.occupied t uri key i)).phase t = .sending uri i :=
      Function.update_self ..
    exact hmove he.1 hafter rfl (by simp [callLeft, hbegun uri i hafter, sessionLeft])
  | vacant t' uri key =>
    cases htask
    exact hmove he.1 (Function.update_self ..) rfl (by simp [callLeft])
  | connected t' uri key =>
    cases htask
    exact hmove he.1 (Function.update_self ..) rfl (by simp [callLeft])
  | handshaken t' uri key conn =>
    cases htask
    have hphase : s.phase t = .handshaking uri key conn := he
    have hafter : (SessionPool.next env s (.handshaken t uri key conn)).phase t =
        .sending uri s.handshakes.length := Function.update_self ..
    have hopen : PoolProgress.openSessions (SessionPool.next env s (.handshaken t uri key conn)) =
        (s.spawned ++ [s.handshakes.length]).length - s.closed.length := rfl
    rw [hphase, hafter, hopen, callLeft, callLeft, hbegun _ _ hafter, sessionLeft,
      List.length_append, List.length_singleton, PoolProgress.openSessions]
    omega
  | fail t' =>
    cases htask
    exact hfinish (PoolProgress.awaiting_live he) (Function.update_self ..) rfl
  | responded t' uri i =>
    cases htask
    exact absurd he (hbefore uri i)
  | cancel t' =>
    cases htask
    exact hfinish he (Function.update_self ..) rfl
  | close i => cases htask

theorem rank_pool {n : ℕ} (hn : ∀ t uri, env.requests t uri → t < n) {s : State}
    {e : SessionPool.Event} (hs : Reachable (system env) s) (he : Enabled env s (.pool e)) :
    rank n (next env s (.pool e)) < rank n s := by
  have hpool := reachable_pool hs
  have hframe : ∀ t, task e ≠ some t → left (next env s (.pool e)) t = left s t := by
    intro t ht
    have hphase : (next env s (.pool e)).pool.phase t = s.pool.phase t := phase_frame ht
    have hsession : ∀ i, ((next env s (.pool e)).sessions i).phase t = (s.sessions i).phase t :=
      fun i => pool_session_frame ht
    rw [left, left, hphase]
    simp only [hsession]
  cases htask : task e with
  | none =>
    have hsum : ∑ t ∈ Finset.range n, left (next env s (.pool e)) t =
        ∑ t ∈ Finset.range n, left s t :=
      Finset.sum_congr rfl fun t _ => hframe t (by simp [htask])
    rw [rank, rank, hsum]
    cases e with
    | close session =>
      exact Nat.add_lt_add_left
        (PoolProgress.close_shrinks (PoolProgress.reachable_closed hpool) he.1) _
    | _ => cases htask
  | some t =>
    have hbefore : ∀ uri i, s.pool.phase t ≠ .sending uri i := fun uri i => he.2 t uri i htask
    obtain ⟨uri, hreq⟩ :=
      PoolProgress.task_requests (SessionPool.reachable_requests hpool) htask he.1
    refine PoolProgress.sum_shrinks (hn t uri hreq) ?_ (call_shrinks htask he.1 hbefore ?_)
    · intro t' ht'
      exact hframe t' (by simpa [htask] using Ne.symm ht')
    · intro uri i hp
      have hb := (begins_iff htask hbefore he.1 i).mp ⟨uri, hp⟩
      simp [next, hb, Http1Sessions.next, Http1Sessions.State.setPhase]

theorem rank_session {n : ℕ} (hn : ∀ t uri, env.requests t uri → t < n) {s : State} {i : ℕ}
    {e : Http1Sessions.Event} (hs : Reachable (system env) s) (he : Enabled env s (.session i e)) :
    rank n (next env s (.session i e)) < rank n s := by
  obtain ⟨uri, hsending⟩ := (reachable_coupled hs i (sender e)).mp (session_phases he.1 he.2).1
  have hself : (next env s (.session i e)).sessions i = Http1Sessions.next (s.sessions i) e :=
    Function.update_self ..
  have hopen : PoolProgress.openSessions (next env s (.session i e)).pool =
      PoolProgress.openSessions s.pool := by
    cases hend : ending e <;> simp [next, hend, PoolProgress.openSessions,
      SessionPool.State.finish, SessionPool.State.setPhase, SessionPool.State.release]
  have hreq : env.requests (sender e) uri :=
    (SessionPool.reachable_requests (reachable_pool hs)).asked _ uri (by rw [hsending]; rfl)
  have hless : left (next env s (.session i e)) (sender e) < left s (sender e) := by
    have hshrinks := session_shrinks he.1 he.2
    have hbefore : left s (sender e) = sessionLeft ((s.sessions i).phase (sender e)) := by
      rw [left, hsending, callLeft]
    rw [hbefore]
    cases hend : ending e with
    | none =>
      have hphase : (next env s (.session i e)).pool.phase (sender e) = .sending uri i := by
        simp [next, hend, hsending]
      rw [left, hphase, callLeft, hself]
      exact hshrinks
    | some outcome =>
      have hphase : (next env s (.session i e)).pool.phase (sender e) = .finished outcome := by
        simp [next, hend, SessionPool.State.finish, SessionPool.State.setPhase]
      rw [left, hphase, callLeft]
      omega
  refine PoolProgress.sum_shrinks (hn _ uri hreq) ?_ (hopen ▸ Nat.add_lt_add_right hless _)
  intro t ht
  have hphase : (next env s (.session i e)).pool.phase t = s.pool.phase t :=
    session_pool_frame (Ne.symm ht)
  have hsession : ∀ j, ((next env s (.session i e)).sessions j).phase t =
      (s.sessions j).phase t := fun j => session_sessions_frame (Ne.symm ht) j
  rw [left, left, hphase]
  simp only [hsession]

theorem rank_down {n : ℕ} (hn : ∀ t uri, env.requests t uri → t < n) {s : State} {e : Event}
    (hs : Reachable (system env) s) (he : Enabled env s e) : rank n (next env s e) < rank n s := by
  cases e with
  | pool e => exact rank_pool hn hs he
  | session i e => exact rank_session hn hs he

/-- Whoever has the mutex of a session can go on. -/
theorem holder_goes_on {s : State} {i t : ℕ} (h : ((s.sessions i).phase t).holdsGuard = true) :
    ∃ e, (∀ u, e ≠ .cancel u) ∧ Enabled env s (.session i e) := by
  cases hp : (s.sessions i).phase t with
  | idle =>
    rw [hp] at h
    cases h
  | locking =>
    rw [hp] at h
    cases h
  | locked => exact ⟨.ready t, by simp, by simp, hp⟩
  | readying => exact ⟨.readyReturned t true, by simp, by simp, hp⟩
  | prepared => exact ⟨.sendRequest t, by simp, by simp, hp⟩
  | sending => exact ⟨.returned t true, by simp, by simp, hp⟩

/-- While a call is at a session, some call can go on there. -/
theorem session_goes_on {s : State} (hs : Reachable (system env) s) {t i : ℕ} {uri : Uri}
    (hp : s.pool.phase t = .sending uri i) :
    ∃ e, (∀ u, e ≠ .cancel u) ∧ Enabled env s (.session i e) := by
  have hlive : (s.sessions i).phase t ≠ .idle := (reachable_coupled hs i t).mpr ⟨uri, hp⟩
  by_cases hlocking : (s.sessions i).phase t = .locking
  · cases hlock : (s.sessions i).lock with
    | none => exact ⟨.acquire t, by simp, by simp, hlocking, hlock⟩
    | some u =>
      have hheld := (Http1Sessions.reachable_invariant (reachable_session hs i)).1
      exact holder_goes_on ((hheld u).mp hlock)
  · apply holder_goes_on (t := t)
    cases hphase : (s.sessions i).phase t with
    | idle => exact absurd hphase hlive
    | locking => exact absurd hphase hlocking
    | _ => rfl

end sessions

section threads

open ClientExecutor (caller refines_sessions reachable_onThreads)

/-- The events that depend neither on whoever makes the calls nor on the peer's closing. -/
def Advances : ClientExecutor.Event W → Prop
  | .act (.pool (.cancel _)) => False
  | .act (.pool (.close _)) => False
  | .act (.session _ (.cancel _)) => False
  | _ => True

/-- Nothing can be polled. -/
def Quiet (env : Environment) (s : ClientExecutor.State W) : Prop :=
  ∀ e, Advances e → ¬ClientExecutor.Enabled env s e

/-- No thread is blocked on a call that is sending. -/
theorem sending_not_blocked {s : ClientExecutor.State W}
    (hs : Reachable (ClientExecutor.system W env) s) {t i : ℕ} {uri : Uri}
    (hp : s.core.pool.phase t = .sending uri i) (w : Fin W) : s.threads w ≠ some t := by
  intro hw
  obtain ⟨uri', hstart⟩ := (PoolExecutor.reachable_threads (reachable_onThreads hs)).waiting w t hw
  cases hp.symm.trans hstart

/-- When nothing can be polled, nothing of the pool can. -/
theorem quiet_onThreads {s : ClientExecutor.State W}
    (hs : Reachable (ClientExecutor.system W env) s) (hq : Quiet env s) :
    PoolProgress.Quiet env s.onThreads := by
  intro e ha he
  cases e with
  | act e =>
    by_cases hsending : ∃ t uri i, task e = some t ∧ s.core.pool.phase t = .sending uri i
    · obtain ⟨t, uri, i, -, hp⟩ := hsending
      obtain ⟨e', hcancel, he'⟩ := session_goes_on (refines_sessions.reachable hs) hp
      obtain ⟨uri', hp'⟩ := (ClientExecutor.reachable_coupled hs i (sender e')).mp
        (session_phases he'.1 he'.2).1
      refine hq (.act (.session i e')) ?_ ⟨he.1, he', ?_⟩
      · cases e' with
        | cancel u => exact absurd rfl (hcancel u)
        | _ => trivial
      · intro w _
        exact sending_not_blocked hs hp' w
    · refine hq (.act (.pool e)) ?_ ⟨he.1, ⟨he.2.1, ?_⟩, he.2.2⟩
      · cases e with
        | cancel t => cases ha
        | close session => cases ha
        | _ => trivial
      · intro t uri i htask hp
        exact hsending ⟨t, uri, i, htask, hp⟩
  | block w t uri key => exact hq (.block w t uri key) trivial he
  | unblock w t e =>
    obtain ⟨hw, hentry, htask, henabled⟩ := he
    refine hq (.unblock w t e) trivial ⟨hw, hentry, htask, henabled, ?_⟩
    intro t' uri i htask' hp
    obtain rfl := Option.some.inj (htask.symm.trans htask')
    exact sending_not_blocked hs hp w hw

/-- When every call is over, nothing is left to be polled. -/
theorem finished_quiet {s : ClientExecutor.State W}
    (hs : Reachable (ClientExecutor.system W env) s)
    (h : ∀ t uri, env.requests t uri → ∃ outcome, s.core.pool.phase t = .finished outcome) :
    Quiet env s := by
  have hpool := reachable_pool (refines_sessions.reachable hs)
  have hrequests := SessionPool.reachable_requests hpool
  have hlive : ∀ t, (s.core.pool.phase t).live = true → False := by
    intro t hlive
    obtain ⟨uri, hreq⟩ := PoolProgress.task_requests (e := .cancel t) hrequests rfl hlive
    obtain ⟨outcome, hp⟩ := h t uri hreq
    rw [hp] at hlive
    cases hlive
  have hstep : ∀ e t, task e = some t → SessionPool.Enabled env s.core.pool e → False := by
    intro e t htask he
    obtain ⟨uri, hreq⟩ := PoolProgress.task_requests hrequests htask he
    obtain ⟨outcome, hp⟩ := h t uri hreq
    cases e with
    | close session => cases htask
    | fail t' =>
      cases htask
      exact hlive t (PoolProgress.awaiting_live he)
    | cancel t' =>
      cases htask
      exact hlive t he
    | handshaken t' uri' key conn =>
      cases htask
      cases hp.symm.trans he
    | responded t' uri' session =>
      cases htask
      cases hp.symm.trans he
    | _ =>
      cases htask
      cases hp.symm.trans he.1
  intro e ha he
  cases e with
  | act e =>
    cases e with
    | pool e =>
      cases htask : task e with
      | some t => exact hstep e t htask he.2.1.1
      | none =>
        cases e with
        | close session => cases ha
        | _ => cases htask
    | session i e =>
      obtain ⟨uri, hp⟩ := (ClientExecutor.reachable_coupled hs i (sender e)).mp
        (session_phases he.2.1.1 he.2.1.2).1
      exact hlive (sender e) (by rw [hp]; rfl)
  | block w t uri key => exact hlive t (by rw [he.2.2.1]; rfl)
  | unblock w t e => exact hstep e t he.2.2.1 he.2.2.2.1

/-- A deadlock of the pool is one of the calls over their sessions. -/
theorem deadlocked_quiet {s : ClientExecutor.State W} (h : Deadlocked env s.onThreads) :
    Quiet env s := by
  intro e _ he
  have hstuck := PoolExecutor.deadlocked_stuck h
  cases e with
  | act e =>
    obtain ⟨w, hw⟩ := he.1
    obtain ⟨t, _, _, _, ht, _⟩ := h w
    cases hw.symm.trans ht
  | block w t uri key => exact hstuck (.block w t uri key) he
  | unblock w t e => exact hstuck (.unblock w t e) ⟨he.1, he.2.1, he.2.2.1, he.2.2.2.1⟩

/-- A thread may block on a call until the lookup of the call is over, once. -/
def mayBlock (blocked : Bool) : SessionPool.Phase → ℕ
  | .idle => 1
  | .start _ => if blocked then 0 else 1
  | _ => 0

def threadRank (n : ℕ) (s : ClientExecutor.State W) : ℕ :=
  rank n s.core + ∑ t ∈ Finset.range n,
    mayBlock (PoolProgress.blocked s.onThreads t) (s.core.pool.phase t)

theorem mayBlock_step {s : SessionPool.State} {e : SessionPool.Event} {t : ℕ}
    (htask : task e = some t) (he : SessionPool.Enabled env s e) (b b' : Bool) :
    mayBlock b' ((SessionPool.next env s e).phase t) ≤ mayBlock b (s.phase t) := by
  have hafter : ∀ {p}, (SessionPool.next env s e).phase t = p → mayBlock b' p = 0 →
      mayBlock b' ((SessionPool.next env s e).phase t) ≤ mayBlock b (s.phase t) := by
    rintro p rfl hzero
    rw [hzero]
    exact Nat.zero_le _
  cases e with
  | call t' uri =>
    cases htask
    have hstart : (SessionPool.next env s (.call t uri)).phase t = .start uri :=
      Function.update_self ..
    rw [hstart, he.1]
    cases b' <;> simp [mayBlock]
  | close session => cases htask
  | _ =>
    cases htask
    exact hafter (Function.update_self ..) rfl

/-- A step of a call leaves it no more chances to block a thread. -/
theorem mayBlock_act {s : ClientSessions.State} {e : ClientSessions.Event}
    (hs : Reachable (ClientSessions.system env) s) (he : ClientSessions.Enabled env s e) (b : Bool)
    (t : ℕ) : mayBlock b ((ClientSessions.next env s e).pool.phase t) ≤
      mayBlock b (s.pool.phase t) := by
  cases e with
  | pool e =>
    by_cases htask : task e = some t
    · exact mayBlock_step htask he.1 b b
    · have hphase : (ClientSessions.next env s (.pool e)).pool.phase t = s.pool.phase t :=
        phase_frame htask
      rw [hphase]
  | session i e =>
    by_cases ht : sender e = t
    · subst ht
      obtain ⟨uri, hsending⟩ := (reachable_coupled hs i (sender e)).mp
        (session_phases he.1 he.2).1
      cases hend : ending e with
      | none =>
        have hpool : (ClientSessions.next env s (.session i e)).pool = s.pool := by
          simp [ClientSessions.next, hend]
        rw [hpool]
      | some outcome =>
        have hphase : (ClientSessions.next env s (.session i e)).pool.phase (sender e) =
            .finished outcome := by
          simp [ClientSessions.next, hend, SessionPool.State.finish, SessionPool.State.setPhase]
        rw [hphase]
        exact Nat.zero_le _
    · rw [session_pool_frame ht]

theorem threadRank_down {n : ℕ} (hn : ∀ t uri, env.requests t uri → t < n)
    {s : ClientExecutor.State W} {e : ClientExecutor.Event W}
    (hs : Reachable (ClientExecutor.system W env) s) (he : ClientExecutor.Enabled env s e) :
    threadRank n (ClientExecutor.next env s e) < threadRank n s := by
  have hcore := refines_sessions.reachable hs
  have hrequests := SessionPool.reachable_requests (reachable_pool hcore)
  cases e with
  | act e =>
    have hrank := rank_down hn hcore he.2.1
    apply Nat.add_lt_add_of_lt_of_le hrank
    apply Finset.sum_le_sum
    intro t _
    exact mayBlock_act hcore he.2.1 _ t
  | block w t uri key =>
    have hreq : env.requests t uri := hrequests.asked t uri (by rw [he.2.2.1]; rfl)
    apply Nat.add_lt_add_left
    refine PoolProgress.sum_shrinks (x := 0) (y := 0) (hn t uri hreq) ?_ ?_
    · intro t' ht'
      have hblocked : PoolProgress.blocked
          (ClientExecutor.next env s (.block w t uri key)).onThreads t' =
            PoolProgress.blocked s.onThreads t' :=
        PoolProgress.blocked_update (s := s.onThreads)
          (by simp [ClientExecutor.State.onThreads, he.1]) (by simpa using Ne.symm ht')
      rw [hblocked]
      rfl
    · have hbefore : PoolProgress.blocked s.onThreads t = false := by
        rw [PoolProgress.blocked, decide_eq_false_iff_not]
        rintro ⟨w', hw'⟩
        exact he.2.1 w' hw'
      have hafter : PoolProgress.blocked
          (ClientExecutor.next env s (.block w t uri key)).onThreads t = true := by
        rw [PoolProgress.blocked, decide_eq_true_iff]
        exact ⟨w, Function.update_self ..⟩
      have hphase : (ClientExecutor.next env s (.block w t uri key)).core.pool.phase t =
          .start uri := he.2.2.1
      rw [hbefore, hafter, hphase, he.2.2.1]
      simp [mayBlock]
  | unblock w t e =>
    obtain ⟨hw, hentry, htask, henabled⟩ := he
    apply Nat.add_lt_add_of_lt_of_le (rank_down hn hcore henabled)
    apply Finset.sum_le_sum
    intro t' _
    by_cases ht' : t' = t
    · subst ht'
      exact mayBlock_step htask henabled.1 _ _
    · have hphase : (ClientExecutor.next env s (.unblock w t e)).core.pool.phase t' =
          s.core.pool.phase t' := phase_frame (by simpa [htask] using Ne.symm ht')
      have hblocked : PoolProgress.blocked
          (ClientExecutor.next env s (.unblock w t e)).onThreads t' =
            PoolProgress.blocked s.onThreads t' :=
        PoolProgress.blocked_update (s := s.onThreads)
          (by simpa [ClientExecutor.State.onThreads, hw] using Ne.symm ht') (by simp)
      rw [hphase, hblocked]

end threads

/-- On any number of threads, whatever is cancelled and in whatever order the tasks run: no run of
the calls goes on for ever, and a run that nothing can be polled to continue has always brought
every call to its end exactly when the calls with an authority are fewer than the threads and the
shards of their authorities together. -/
theorem every_run_finishes {W : ℕ} (hW : 0 < W) (shard : Str → ℕ) (connects : Uri → Prop)
    (calls : List Uri) :
    (∀ es, (ClientExecutor.system W (callsEnvironment shard connects calls)).Allowed
      ClientExecutor.initial es → es.length ≤ 11 * calls.length) ∧
    ((∀ s, Reachable (ClientExecutor.system W (callsEnvironment shard connects calls)) s →
        Quiet (callsEnvironment shard connects calls) s →
        ∀ t, t < calls.length → ∃ outcome, s.core.pool.phase t = .finished outcome) ↔
      (lookups calls).card < W + (shards shard calls).card) := by
  constructor
  · intro es h
    have hn : ∀ t uri, (callsEnvironment shard connects calls).requests t uri →
        t < calls.length := fun t uri hreq => (List.getElem?_eq_some_iff.mp hreq).1
    have hlength := allowed_length_le
      (M := ClientExecutor.system W (callsEnvironment shard connects calls))
      (P := Reachable _) (threadRank calls.length) (fun s e hs he => Execution.next hs he)
      (fun s e hs he => threadRank_down hn hs he) (.refl _) h
    have hrank : threadRank calls.length (ClientExecutor.initial : ClientExecutor.State W) =
        11 * calls.length := by
      simp [threadRank, rank, left, callLeft, mayBlock, PoolProgress.openSessions,
        ClientExecutor.initial, initial, SessionPool.initial]
      omega
    exact hrank ▸ hlength
  · constructor
    · intro h
      by_contra hcount
      obtain ⟨s, hopening, hd⟩ := PoolExecutor.deadlock_from connects (Nat.not_lt.mp hcount)
      have hs := ClientExecutor.unsent_refines.reachable hopening
      obtain ⟨t, uri, _, _, _, hp, _⟩ := hd ⟨0, hW⟩
      have hcore := PoolExecutor.refines_pool.reachable (reachable_of_restrict hopening)
      have hasked := (SessionPool.reachable_requests hcore).asked t uri (by rw [hp]; rfl)
      obtain ⟨outcome, hfinished⟩ := h _ hs (deadlocked_quiet hd) t
        (List.getElem?_eq_some_iff.mp hasked).1
      cases hp.symm.trans hfinished
    · intro hcount s hs hq t ht
      have hpool := ClientExecutor.reachable_onThreads hs
      rcases PoolProgress.quiet_cases hpool (quiet_onThreads hs hq) with hd | hfinished
      · exact absurd (PoolExecutor.deadlock_needs hpool hd) (Nat.not_le.mpr hcount)
      · exact hfinished t calls[t] (List.getElem?_eq_getElem ht)

/-- The second thread blocks on the second call while the first call connects; the second call then
waits for the session of the first one, which is cancelled with its request in flight. -/
def blockedThenHandedOver : List (ClientExecutor.Event 2) :=
  [.act (.pool (.call 0 PoolHistory.uriA)), .act (.pool (.call 1 PoolHistory.uriA)),
    .act (.pool (.vacant 0 PoolHistory.uriA ['a'])), .block 1 1 PoolHistory.uriA ['a'],
    .act (.pool (.connected 0 PoolHistory.uriA ['a'])),
    .act (.pool (.handshaken 0 PoolHistory.uriA ['a'] 0)),
    .unblock 1 1 (.occupied 1 PoolHistory.uriA ['a'] 0), .act (.session 0 (.acquire 0)),
    .act (.session 0 (.ready 0)), .act (.session 0 (.readyReturned 0 true)),
    .act (.session 0 (.sendRequest 0)), .act (.session 0 (.cancel 0)),
    .act (.session 0 (.acquire 1)), .act (.session 0 (.ready 1)),
    .act (.session 0 (.readyReturned 1 true)), .act (.session 0 (.sendRequest 1)),
    .act (.session 0 (.returned 1 true))]

/-- Two calls for one authority on two threads: this run is one of those that end. -/
theorem every_run_finishes_two_threads :
    let s := (ClientExecutor.system 2 twoCalls).run ClientExecutor.initial blockedThenHandedOver
    blockedThenHandedOver.length = 17 ∧ 17 ≤ 11 * 2 ∧ Quiet twoCalls s ∧
      ∀ t, t < 2 → ∃ outcome, s.core.pool.phase t = .finished outcome := by
  intro s
  have hallowed : (ClientExecutor.system 2 twoCalls).Allowed ClientExecutor.initial
      blockedThenHandedOver := by decide
  have hs : Reachable (ClientExecutor.system 2 twoCalls) s := execution_run hallowed
  have hq : Quiet twoCalls s := by
    apply finished_quiet hs
    rintro (_ | _ | t) uri hreq
    · exact ⟨.cancelled, rfl⟩
    · exact ⟨.responded, rfl⟩
    · cases hreq
  have h := every_run_finishes (W := 2) (by decide) (fun _ => 0) (fun _ => True)
    [PoolHistory.uriA, PoolHistory.uriA]
  exact ⟨rfl, h.1 blockedThenHandedOver hallowed, hq, h.2.mpr (by decide) s hs hq⟩

end ClientProgress
