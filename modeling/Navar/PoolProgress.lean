import Mathlib.Algebra.BigOperators.Group.Finset.Basic
import Navar.PoolExecutor

/-! # The calls come to an end

A call never goes back: what is left of it shrinks with every step, so the runs of finitely many
calls are bounded. When nothing is left to be polled, either all calls are over or the threads are
deadlocked. -/
namespace PoolProgress

open LossyText (Str)
open HttpMessages (Uri)
open TransitionSystems
open SessionPool (Environment Phase LockInvariant)
open PoolExecutor

variable {W : ℕ} {env : Environment}

/-- The events that do not depend on whoever makes the calls, nor on the peer. -/
def Advances : Event W → Prop
  | .act (.cancel _) => False
  | .act (.close _) => False
  | _ => True

/-- Nothing can be polled. -/
def Quiet (env : Environment) (s : State W) : Prop := ∀ e, Advances e → ¬Enabled env s e

section waiting

/-- A thread is blocked at the lookup of an authority. -/
def Waiting (s : State W) : Prop :=
  ∀ w t, s.threads w = some t → ∃ uri key, s.core.phase t = .start uri ∧
    uri.authority = some key

theorem step_preserves_waiting {s : State W} {e : Event W} (h : Waiting s)
    (hthreads : ThreadInvariant s) (he : Enabled env s e) : Waiting (next env s e) := by
  intro w t hw
  cases e with
  | act e =>
    have hrunning : s.threads w = some t := hw
    have htask : task e ≠ some t := fun ht =>
      he.2.2 w (by rw [hrunning]; rfl) (hrunning.trans ht.symm)
    obtain ⟨uri, key, hp, hk⟩ := h w t hw
    exact ⟨uri, key, (phase_frame htask).trans hp, hk⟩
  | block w' t' uri key =>
    by_cases hww : w = w'
    · subst hww
      obtain rfl : t' = t := by simpa [next] using hw
      exact ⟨uri, key, he.2.2.1, he.2.2.2.1⟩
    · exact h w t (by simpa [next, hww] using hw)
  | unblock w' t' e =>
    by_cases hww : w = w'
    · subst hww
      simp [next] at hw
    · have hrunning : s.threads w = some t := by simpa [next, hww] using hw
      have htask : task e ≠ some t := by
        intro ht
        obtain rfl := Option.some.inj (he.2.2.1.symm.trans ht)
        exact hww (hthreads.alone w w' t' hrunning he.1)
      obtain ⟨uri, key, hp, hk⟩ := h w t hrunning
      exact ⟨uri, key, (phase_frame htask).trans hp, hk⟩

theorem reachable_waiting {s : State W} (h : Reachable (system W env) s) : Waiting s := by
  have hboth : Waiting s ∧ ThreadInvariant s := by
    refine reachable_of_step (P := fun s => Waiting s ∧ ThreadInvariant s) ?_ ?_ h
    · refine ⟨?_, reachable_threads (.refl _)⟩
      intro w t hw
      cases hw
    · intro s e hs he
      exact ⟨step_preserves_waiting hs.1 hs.2 he, step_preserves_threads hs.2 he⟩
  exact hboth.1

end waiting

section quiet

theorem not_running {s : State W} (h : ThreadInvariant s) {t : ℕ}
    (hp : ∀ uri, s.core.phase t ≠ .start uri) (w : Fin W) : s.threads w ≠ some t := by
  intro hw
  obtain ⟨uri, hstart⟩ := h.waiting w t hw
  exact hp uri hstart

/-- A thread is free, and the event is of a call that no thread runs. -/
theorem enabled_act {s : State W} {e : SessionPool.Event} {t : ℕ} {w : Fin W}
    (hfree : s.threads w = none) (htask : task e = some t) (hidle : ∀ w, s.threads w ≠ some t)
    (he : SessionPool.Enabled env s.core e) : Enabled env s (.act e) := by
  refine ⟨⟨w, hfree⟩, he, ?_⟩
  intro w' _
  rw [htask]
  exact hidle w'

/-- The lookup of a free shard finds an entry or a vacant place. -/
theorem lookup_enabled {s : SessionPool.State} {t : ℕ} {uri : Uri} {key : Str}
    (hp : s.phase t = .start uri) (hkey : uri.authority = some key)
    (hfree : s.lock (env.shard key) = none) :
    ∃ e, isEntry e = true ∧ task e = some t ∧ SessionPool.Enabled env s e := by
  cases hentry : s.entry key with
  | occupied session =>
    exact ⟨.occupied t uri key session, rfl, rfl, hp, hkey, hfree, hentry⟩
  | vacant => exact ⟨.vacant t uri key, rfl, rfl, hp, hkey, hfree, hentry⟩

theorem entry_advances {e : SessionPool.Event} (h : isEntry e = true) :
    Advances (.act e : Event W) := by
  cases e <;> trivial

/-- Whoever holds a shard can go on as soon as a thread is free. -/
theorem holder_enabled {s : State W} (hthreads : ThreadInvariant s)
    (hlocks : LockInvariant env s.core) {w : Fin W} (hfree : s.threads w = none) {k t : ℕ}
    (hlock : s.core.lock k = some t) : Enabled env s (.act (.fail t)) := by
  obtain ⟨key, hkey, _⟩ := hlocks.holder k t hlock
  have hawaiting : (s.core.phase t).awaiting = true := by
    cases hp : s.core.phase t <;> rw [hp] at hkey <;> cases hkey <;> rfl
  refine enabled_act hfree rfl (not_running hthreads ?_) hawaiting
  intro uri hp
  rw [hp] at hkey
  cases hkey

/-- With a free thread, only a call that is over or has not been asked for is left alone. -/
theorem free_thread_quiet {s : State W} (hs : Reachable (system W env) s) (hq : Quiet env s)
    {w : Fin W} (hfree : s.threads w = none) {t : ℕ} {uri : Uri} (hreq : env.requests t uri) :
    ∃ outcome, s.core.phase t = .finished outcome := by
  have hthreads := reachable_threads hs
  have hlocks := SessionPool.reachable_locks (refines_pool.reachable hs)
  have hawaits : (s.core.phase t).awaiting = true →
      (∀ uri, s.core.phase t ≠ .start uri) → False := by
    intro hawaiting hstart
    exact hq (.act (.fail t)) trivial
      (enabled_act hfree rfl (not_running hthreads hstart) hawaiting)
  cases hp : s.core.phase t with
  | finished outcome => exact ⟨outcome, rfl⟩
  | idle =>
    refine absurd ?_ (hq (.act (.call t uri)) trivial)
    exact enabled_act hfree rfl (not_running hthreads (by simp [hp])) ⟨hp, hreq⟩
  | start uri' =>
    by_cases hrun : ∃ w', s.threads w' = some t
    · obtain ⟨w', hw'⟩ := hrun
      obtain ⟨uri'', key, hp', hkey⟩ := reachable_waiting hs w' t hw'
      cases hlock : s.core.lock (env.shard key) with
      | none =>
        obtain ⟨e, hentry, htask, he⟩ := lookup_enabled hp' hkey hlock
        exact absurd ⟨hw', hentry, htask, he⟩ (hq (.unblock w' t e) trivial)
      | some holder =>
        exact absurd (holder_enabled hthreads hlocks hfree hlock) (hq _ trivial)
    · have hidle : ∀ w, s.threads w ≠ some t := fun w hw => hrun ⟨w, hw⟩
      cases hkey : uri'.authority with
      | none =>
        refine absurd ?_ (hq (.act (.missingAuthority t uri')) trivial)
        exact enabled_act hfree rfl hidle ⟨hp, hkey⟩
      | some key =>
        by_cases hlock : s.core.lock (env.shard key) = none
        · obtain ⟨e, hentry, htask, he⟩ := lookup_enabled hp hkey hlock
          exact absurd (enabled_act hfree htask hidle he) (hq _ (entry_advances hentry))
        · exact absurd ⟨hfree, hidle, hp, hkey, hlock⟩ (hq (.block w t uri' key) trivial)
  | connecting uri' key => exact (hawaits (by rw [hp]; rfl) (by simp [hp])).elim
  | handshaking uri' key conn => exact (hawaits (by rw [hp]; rfl) (by simp [hp])).elim
  | sending uri' session => exact (hawaits (by rw [hp]; rfl) (by simp [hp])).elim

/-- When every thread is blocked and nothing can be polled, the threads are deadlocked. -/
theorem blocked_quiet {s : State W} (hs : Reachable (system W env) s) (hq : Quiet env s)
    (hblocked : ∀ w, s.threads w ≠ none) : Deadlocked env s := by
  intro w
  obtain ⟨t, ht⟩ := Option.ne_none_iff_exists'.mp (hblocked w)
  obtain ⟨uri, key, hp, hkey⟩ := reachable_waiting hs w t ht
  cases hlock : s.core.lock (env.shard key) with
  | none =>
    obtain ⟨e, hentry, htask, he⟩ := lookup_enabled hp hkey hlock
    exact absurd ⟨ht, hentry, htask, he⟩ (hq (.unblock w t e) trivial)
  | some holder =>
    have hlocks := SessionPool.reachable_locks (refines_pool.reachable hs)
    obtain ⟨key', hkey', _⟩ := hlocks.holder _ holder hlock
    exact ⟨t, uri, key, holder, ht, hp, hkey, hlock, by rw [hkey']; rfl⟩

theorem quiet_cases {s : State W} (hs : Reachable (system W env) s) (hq : Quiet env s) :
    Deadlocked env s ∨
      ∀ t uri, env.requests t uri → ∃ outcome, s.core.phase t = .finished outcome := by
  by_cases hfree : ∃ w, s.threads w = none
  · obtain ⟨w, hw⟩ := hfree
    exact Or.inr fun t uri hreq => free_thread_quiet hs hq hw hreq
  · exact Or.inl (blocked_quiet hs hq fun w hw => hfree ⟨w, hw⟩)

end quiet

section rank

/-- How many steps of a call are left at most, its session's close included. A thread blocks on a
call once at most. -/
def stepsLeft (blocked : Bool) : Phase → ℕ
  | .idle => 7
  | .start _ => if blocked then 5 else 6
  | .connecting _ _ => 4
  | .handshaking _ _ _ => 3
  | .sending _ _ => 1
  | .finished _ => 0

def blocked (s : State W) (t : ℕ) : Bool := decide (∃ w, s.threads w = some t)

def openSessions (s : SessionPool.State) : ℕ := s.spawned.length - s.closed.length

def rank (n : ℕ) (s : State W) : ℕ :=
  ∑ t ∈ Finset.range n, stepsLeft (blocked s t) (s.core.phase t) + openSessions s.core

/-- Only sessions that have been established close, and each of them once. -/
def ClosedOnce (s : SessionPool.State) : Prop := s.closed.Nodup ∧ s.closed ⊆ s.spawned

theorem step_preserves_closed {s : SessionPool.State} {e : SessionPool.Event} (h : ClosedOnce s)
    (he : SessionPool.Enabled env s e) : ClosedOnce (SessionPool.next env s e) := by
  cases e with
  | handshaken t uri key conn => exact ⟨h.1, fun i hi => List.mem_append_left _ (h.2 hi)⟩
  | close session =>
    constructor
    · have hnodup : (s.closed.concat session).Nodup := h.1.concat he.2
      rwa [List.concat_eq_append] at hnodup
    · intro i hi
      rcases List.mem_append.mp hi with hi | hi
      · exact h.2 hi
      · rw [List.mem_singleton.mp hi]
        exact he.1
  | _ => exact h

theorem reachable_closed {s : SessionPool.State} (h : Reachable (SessionPool.system env) s) :
    ClosedOnce s := by
  refine reachable_of_step ?_ (fun _ _ => step_preserves_closed) h
  exact ⟨List.nodup_nil, List.nil_subset _⟩

theorem close_shrinks {s : SessionPool.State} (h : ClosedOnce s) {session : ℕ}
    (he : SessionPool.Enabled env s (.close session)) :
    openSessions (SessionPool.next env s (.close session)) < openSessions s := by
  have hnodup : (session :: s.closed).Nodup := List.nodup_cons.mpr ⟨he.2, h.1⟩
  have hsub : session :: s.closed ⊆ s.spawned := List.cons_subset.mpr ⟨he.1, h.2⟩
  have hle := (hnodup.subperm hsub).length_le
  simp only [openSessions, SessionPool.next, List.length_append, List.length_singleton]
  simp only [List.length_cons] at hle
  omega

theorem start_left (b : Bool) (uri : Uri) :
    5 ≤ stepsLeft b (.start uri) ∧ stepsLeft b (.start uri) ≤ 6 := by
  cases b <;> simp [stepsLeft]

theorem live_left {p : Phase} (h : p.live = true) (b : Bool) : 0 < stepsLeft b p := by
  cases p with
  | start uri =>
    have hstart := start_left b uri
    omega
  | idle => cases h
  | finished outcome => cases h
  | _ => simp [stepsLeft]

theorem awaiting_live {p : Phase} (h : p.awaiting = true) : p.live = true := by
  cases p <;> first | rfl | cases h

theorem finish_shrinks {s : SessionPool.State} {t : ℕ} {outcome : SessionPool.Outcome}
    (h : (s.phase t).live = true) (b b' : Bool) :
    stepsLeft b' ((s.finish t outcome).phase t) + openSessions (s.finish t outcome) <
      stepsLeft b (s.phase t) + openSessions s := by
  have hphase : (s.finish t outcome).phase t = .finished outcome := Function.update_self ..
  have hopen : openSessions (s.finish t outcome) = openSessions s := rfl
  have hpos := live_left h b
  rw [hphase, hopen, stepsLeft]
  omega

/-- A step of a call is paid for, with the session that it opens. -/
theorem call_shrinks {s : SessionPool.State} {e : SessionPool.Event} {t : ℕ}
    (htask : task e = some t) (he : SessionPool.Enabled env s e) (b b' : Bool) :
    stepsLeft b' ((SessionPool.next env s e).phase t) + openSessions (SessionPool.next env s e) <
      stepsLeft b (s.phase t) + openSessions s := by
  have hmove : ∀ {p p'}, s.phase t = p → (SessionPool.next env s e).phase t = p' →
      openSessions (SessionPool.next env s e) = openSessions s → stepsLeft b' p' < stepsLeft b p →
      stepsLeft b' ((SessionPool.next env s e).phase t) + openSessions (SessionPool.next env s e) <
        stepsLeft b (s.phase t) + openSessions s := by
    intro p p' hp hp' hopen hless
    rw [hp, hp', hopen]
    exact Nat.add_lt_add_right hless _
  cases e with
  | call t' uri =>
    cases htask
    refine hmove he.1 (Function.update_self ..) rfl ?_
    exact Nat.lt_succ_of_le (start_left b' uri).2
  | missingAuthority t' uri =>
    cases htask
    exact finish_shrinks (by rw [he.1]; rfl) b b'
  | occupied t' uri key session =>
    cases htask
    refine hmove he.1 (Function.update_self ..) rfl ?_
    exact Nat.lt_of_lt_of_le (by decide : 1 < 5) (start_left b uri).1
  | vacant t' uri key =>
    cases htask
    refine hmove he.1 (Function.update_self ..) rfl ?_
    exact Nat.lt_of_lt_of_le (by decide : 4 < 5) (start_left b uri).1
  | connected t' uri key =>
    cases htask
    exact hmove he.1 (Function.update_self ..) rfl (by decide : 3 < 4)
  | handshaken t' uri key conn =>
    cases htask
    have hbefore : s.phase t = .handshaking uri key conn := he
    have hafter : (SessionPool.next env s (.handshaken t uri key conn)).phase t =
        .sending uri s.handshakes.length := Function.update_self ..
    have hopen : openSessions (SessionPool.next env s (.handshaken t uri key conn)) =
        (s.spawned ++ [s.handshakes.length]).length - s.closed.length := rfl
    rw [hbefore, hafter, hopen, stepsLeft, stepsLeft, List.length_append, List.length_singleton,
      openSessions]
    omega
  | fail t' =>
    cases htask
    exact finish_shrinks (awaiting_live he) b b'
  | responded t' uri session =>
    cases htask
    have hp : s.phase t = .sending uri session := he
    exact finish_shrinks (by rw [hp]; rfl) b b'
  | cancel t' =>
    cases htask
    exact finish_shrinks he b b'
  | close session => cases htask

/-- Whoever takes a step has made a call that it was asked for. -/
theorem task_requests {s : SessionPool.State} {e : SessionPool.Event} {t : ℕ}
    (h : SessionPool.RequestInvariant env s) (htask : task e = some t)
    (he : SessionPool.Enabled env s e) : ∃ uri, env.requests t uri := by
  have hlive : (s.phase t).live = true → ∃ uri, env.requests t uri := by
    intro hlive
    cases hp : s.phase t with
    | idle =>
      rw [hp] at hlive
      cases hlive
    | finished outcome =>
      rw [hp] at hlive
      cases hlive
    | _ => exact ⟨_, h.asked t _ (by rw [hp]; rfl)⟩
  cases e with
  | call t' uri =>
    cases htask
    exact ⟨uri, he.2⟩
  | close session => cases htask
  | fail t' =>
    cases htask
    exact hlive (awaiting_live he)
  | cancel t' =>
    cases htask
    exact hlive he
  | handshaken t' uri key conn =>
    cases htask
    have hp : s.phase t = .handshaking uri key conn := he
    exact hlive (by rw [hp]; rfl)
  | responded t' uri session =>
    cases htask
    have hp : s.phase t = .sending uri session := he
    exact hlive (by rw [hp]; rfl)
  | _ =>
    cases htask
    exact hlive (by rw [he.1]; rfl)

theorem sum_shrinks {f g : ℕ → ℕ} {n t x y : ℕ} (ht : t < n)
    (hframe : ∀ t', t' ≠ t → f t' = g t') (h : f t + x < g t + y) :
    ∑ t ∈ Finset.range n, f t + x < ∑ t ∈ Finset.range n, g t + y := by
  have hmem : t ∈ Finset.range n := Finset.mem_range.mpr ht
  have hrest : ∑ t' ∈ (Finset.range n).erase t, f t' = ∑ t' ∈ (Finset.range n).erase t, g t' :=
    Finset.sum_congr rfl fun t' ht' => hframe t' (Finset.ne_of_mem_erase ht')
  rw [← Finset.add_sum_erase _ f hmem, ← Finset.add_sum_erase _ g hmem, hrest]
  omega

theorem blocked_update {s : State W} {core : SessionPool.State} {w : Fin W} {x : Option ℕ}
    {t : ℕ} (hw : s.threads w ≠ some t) (hx : x ≠ some t) :
    blocked { core := core, threads := Function.update s.threads w x } t = blocked s t := by
  rw [blocked, blocked, decide_eq_decide]
  constructor
  · rintro ⟨w', hw'⟩
    have hne : w' ≠ w := by
      rintro rfl
      exact hx (by simpa using hw')
    exact ⟨w', by simpa [hne] using hw'⟩
  · rintro ⟨w', hw'⟩
    have hne : w' ≠ w := by
      rintro rfl
      exact hw hw'
    exact ⟨w', by simpa [hne] using hw'⟩

theorem rank_down {n : ℕ} (hn : ∀ t uri, env.requests t uri → t < n) {s : State W} {e : Event W}
    (hs : Reachable (system W env) s) (he : Enabled env s e) :
    rank n (next env s e) < rank n s := by
  have hcore := refines_pool.reachable hs
  have hrequests := SessionPool.reachable_requests hcore
  cases e with
  | act e =>
    cases htask : task e with
    | none =>
      cases e with
      | close session =>
        exact Nat.add_lt_add_left (close_shrinks (reachable_closed hcore) he.2.1) _
      | _ => cases htask
    | some t =>
      obtain ⟨uri, hreq⟩ := task_requests hrequests htask he.2.1
      refine sum_shrinks (hn t uri hreq) ?_ (call_shrinks htask he.2.1 _ _)
      intro t' ht'
      have hphase : (next env s (.act e)).core.phase t' = s.core.phase t' :=
        phase_frame (by simpa [htask] using Ne.symm ht')
      rw [hphase]
      rfl
  | block w t uri key =>
    have hreq : env.requests t uri := hrequests.asked t uri (by rw [he.2.2.1]; rfl)
    refine sum_shrinks (hn t uri hreq) ?_ ?_
    · intro t' ht'
      have hblocked : blocked (next env s (.block w t uri key)) t' = blocked s t' :=
        blocked_update (by simp [he.1]) (by simpa using Ne.symm ht')
      rw [hblocked]
      rfl
    · have hbefore : blocked s t = false := by
        rw [blocked, decide_eq_false_iff_not]
        rintro ⟨w', hw'⟩
        exact he.2.1 w' hw'
      have hafter : blocked (next env s (.block w t uri key)) t = true := by
        rw [blocked, decide_eq_true_iff]
        exact ⟨w, Function.update_self ..⟩
      have hphase : (next env s (.block w t uri key)).core.phase t = .start uri := he.2.2.1
      have hopen : openSessions (next env s (.block w t uri key)).core = openSessions s.core := rfl
      rw [hbefore, hafter, hphase, he.2.2.1, hopen, stepsLeft, stepsLeft]
      simp
  | unblock w t e =>
    obtain ⟨hw, hentry, htask, henabled⟩ := he
    obtain ⟨uri, hreq⟩ := task_requests hrequests htask henabled
    refine sum_shrinks (hn t uri hreq) ?_ (call_shrinks htask henabled _ _)
    intro t' ht'
    have hphase : (next env s (.unblock w t e)).core.phase t' = s.core.phase t' :=
      phase_frame (by simpa [htask] using Ne.symm ht')
    have hblocked : blocked (next env s (.unblock w t e)) t' = blocked s t' :=
      blocked_update (by simpa [hw] using Ne.symm ht') (by simp)
    rw [hphase, hblocked]

end rank

/-- However the calls are scheduled, fail or are cancelled, and whatever blocks the threads. -/
theorem runs_are_bounded (W : ℕ) (shard : Str → ℕ) (connects : Uri → Prop) (calls : List Uri)
    (es : List (Event W))
    (h : (system W (callsEnvironment shard connects calls)).Allowed initial es) :
    es.length ≤ 7 * calls.length := by
  have hn : ∀ t uri, (callsEnvironment shard connects calls).requests t uri → t < calls.length :=
    fun t uri hreq => (List.getElem?_eq_some_iff.mp hreq).1
  have hlength := allowed_length_le (M := system W (callsEnvironment shard connects calls))
    (P := Reachable _) (rank calls.length) (fun s e hs he => Execution.next hs he)
    (fun s e hs he => rank_down hn hs he) (.refl _) h
  have hrank : rank calls.length (initial : State W) = 7 * calls.length := by
    simp [rank, openSessions, initial, SessionPool.initial, stepsLeft, Nat.mul_comm]
  exact hrank ▸ hlength

/-- On one thread, the second call finds its authority locked and blocks. -/
theorem runs_are_bounded_blocked :
    [Event.act (.call 0 PoolHistory.uriA), .act (.call 1 PoolHistory.uriA),
      .act (.vacant 0 PoolHistory.uriA ['a']),
      .block (0 : Fin 1) 1 PoolHistory.uriA ['a']].length ≤ 7 * 2 :=
  runs_are_bounded 1 (fun _ => 0) (fun _ => True) [PoolHistory.uriA, PoolHistory.uriA] _
    (by decide)

/-- As long as the threads and the shards of the authorities together are more than the calls with
an authority, and only then, every run that nothing can be polled to continue has brought every
call to its end. -/
theorem every_call_finishes_iff {W : ℕ} (hW : 0 < W) (shard : Str → ℕ) (connects : Uri → Prop)
    (calls : List Uri) :
    (∀ s : State W, Reachable (system W (callsEnvironment shard connects calls)) s →
      Quiet (callsEnvironment shard connects calls) s →
      ∀ t, t < calls.length → ∃ outcome, s.core.phase t = .finished outcome) ↔
      (lookups calls).card < W + (shards shard calls).card := by
  constructor
  · intro h
    by_contra hcount
    obtain ⟨s, hopening, hd⟩ := deadlock_from connects (Nat.not_lt.mp hcount)
    have hs := reachable_of_restrict hopening
    obtain ⟨t, uri, _, _, _, hp, _⟩ := hd ⟨0, hW⟩
    have hasked := (SessionPool.reachable_requests (refines_pool.reachable hs)).asked t uri
      (by rw [hp]; rfl)
    obtain ⟨outcome, hfinished⟩ := h s hs (fun e _ => deadlocked_stuck hd e) t
      (List.getElem?_eq_some_iff.mp hasked).1
    rw [hp] at hfinished
    cases hfinished
  · intro hcount s hs hq t ht
    rcases quiet_cases hs hq with hd | hfinished
    · exact absurd (deadlock_needs hs hd) (Nat.not_le.mpr hcount)
    · exact hfinished t calls[t] (List.getElem?_eq_getElem ht)

/-- Two calls for one authority, on two threads. -/
theorem every_call_finishes_iff_two_threads :
    (lookups [PoolHistory.uriA, PoolHistory.uriA]).card = 2 ∧
      ∀ s : State 2, Reachable (system 2 (callsEnvironment (fun _ => 0) (fun _ => True)
          [PoolHistory.uriA, PoolHistory.uriA])) s →
        Quiet (callsEnvironment (fun _ => 0) (fun _ => True)
          [PoolHistory.uriA, PoolHistory.uriA]) s →
        ∀ t, t < 2 → ∃ outcome, s.core.phase t = .finished outcome :=
  ⟨by decide, (every_call_finishes_iff (by decide) _ _ _).mpr (by decide)⟩

end PoolProgress
