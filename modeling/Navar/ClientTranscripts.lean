import Navar.ClientSessions

/-! # What a call does at the sessions

The events of one call at hyper's senders, over all sessions, are told by where the call stands.
Its request goes out on one session and not twice, whatever fails or is cancelled. -/
namespace ClientTranscripts

open LossyText (Str)
open HttpMessages (Uri)
open TransitionSystems
open SessionPool (Environment Outcome)
open PoolExecutor (task phase_frame callsEnvironment)
open Http1Sessions (SenderEvent)
open ClientSessions

variable {env : Environment}

section transcripts

def actor : SenderEvent → ℕ
  | .ready t => t
  | .readyReturned t _ => t
  | .sendRequest t => t
  | .returned t _ => t
  | .cancelled t => t

/-- What a task has done at a sender, the last event first. -/
def transcript (history : List SenderEvent) (t : ℕ) : List SenderEvent :=
  history.filter fun e => actor e = t

/-- What a call that is under way has done. -/
def underWay (t : ℕ) : Http1Sessions.Phase → List SenderEvent
  | .readying => [.ready t]
  | .prepared => [.readyReturned t true, .ready t]
  | .sending => [.sendRequest t, .readyReturned t true, .ready t]
  | _ => []

/-- What a call that is over has done, by how it ended. -/
inductive Ended (t : ℕ) : Outcome → List SenderEvent → Prop where
  | early {outcome} (h : outcome ≠ .responded) : Ended t outcome []
  | unready : Ended t .failed [.readyReturned t false, .ready t]
  | failed : Ended t .failed (.returned t false :: underWay t .sending)
  | responded : Ended t .responded (.returned t true :: underWay t .sending)
  | cancelled {p} (h : p.awaiting = true) : Ended t .cancelled (.cancelled t :: underWay t p)

/-- A call does what the phases ask for, and on one session only. -/
def Transcribed (s : State) (t : ℕ) : SessionPool.Phase → Prop
  | .sending _ i =>
    transcript (s.sessions i).history t = underWay t ((s.sessions i).phase t) ∧
      ∀ j, j ≠ i → transcript (s.sessions j).history t = []
  | .finished outcome =>
    ∃ i, Ended t outcome (transcript (s.sessions i).history t) ∧
      ∀ j, j ≠ i → transcript (s.sessions j).history t = []
  | _ => ∀ j, transcript (s.sessions j).history t = []

theorem transcript_own (e : Http1Sessions.Event) (history : List SenderEvent) :
    transcript (recorded e ++ history) (sender e) =
      recorded e ++ transcript history (sender e) := by
  cases e <;> simp [transcript, recorded, sender, actor]

theorem transcript_frame {e : Http1Sessions.Event} {t : ℕ} (h : sender e ≠ t)
    (history : List SenderEvent) :
    transcript (recorded e ++ history) t = transcript history t := by
  cases e <;> simp_all [transcript, recorded, sender, actor]

/-- A step of a call at its session, and its end. -/
theorem session_transcript {s : Http1Sessions.State} {e : Http1Sessions.Event}
    (hcall : ∀ t, e ≠ .call t) (he : Http1Sessions.Enabled s e)
    (h : transcript s.history (sender e) = underWay (sender e) (s.phase (sender e))) :
    (ending e = none → transcript (Http1Sessions.next s e).history (sender e) =
      underWay (sender e) ((Http1Sessions.next s e).phase (sender e))) ∧
    ∀ outcome, ending e = some outcome →
      Ended (sender e) outcome (transcript (Http1Sessions.next s e).history (sender e)) := by
  rw [next_history, transcript_own, h]
  cases e with
  | call t => exact absurd rfl (hcall t)
  | acquire t =>
    have hafter : (Http1Sessions.next s (.acquire t)).phase t = .locked := Function.update_self ..
    refine ⟨fun _ => ?_, by simp [ending]⟩
    rw [sender, hafter, he.1]
    rfl
  | ready t =>
    have hbefore : s.phase t = .locked := he
    have hafter : (Http1Sessions.next s (.ready t)).phase t = .readying := Function.update_self ..
    refine ⟨fun _ => ?_, by simp [ending]⟩
    rw [sender, hafter, hbefore]
    rfl
  | readyReturned t ok =>
    have hbefore : s.phase t = .readying := he
    rw [sender, hbefore]
    cases ok with
    | true =>
      have hafter : (Http1Sessions.next s (.readyReturned t true)).phase t = .prepared :=
        Function.update_self ..
      refine ⟨fun _ => ?_, by simp [ending]⟩
      rw [hafter]
      rfl
    | false =>
      refine ⟨by simp [ending], ?_⟩
      rintro outcome ⟨⟩
      exact .unready
  | sendRequest t =>
    have hbefore : s.phase t = .prepared := he
    have hafter : (Http1Sessions.next s (.sendRequest t)).phase t = .sending :=
      Function.update_self ..
    refine ⟨fun _ => ?_, by simp [ending]⟩
    rw [sender, hafter, hbefore]
    rfl
  | returned t ok =>
    have hbefore : s.phase t = .sending := he
    rw [sender, hbefore]
    cases ok with
    | true =>
      refine ⟨by simp [ending], ?_⟩
      rintro outcome ⟨⟩
      exact .responded
    | false =>
      refine ⟨by simp [ending], ?_⟩
      rintro outcome ⟨⟩
      exact .failed
  | cancel t =>
    refine ⟨by simp [ending], ?_⟩
    rintro outcome ⟨⟩
    exact .cancelled he

/-- Nothing has changed for the task, wherever it stands. -/
theorem Transcribed.frame {s u : State} {t : ℕ} {p : SessionPool.Phase} (h : Transcribed s t p)
    (hhistory : ∀ j, transcript (u.sessions j).history t = transcript (s.sessions j).history t)
    (hphase : ∀ j, (u.sessions j).phase t = (s.sessions j).phase t) : Transcribed u t p := by
  cases p with
  | sending uri i =>
    obtain ⟨hown, hother⟩ := h
    refine ⟨?_, ?_⟩
    · rw [hhistory, hphase]
      exact hown
    · intro j hj
      rw [hhistory]
      exact hother j hj
  | finished outcome =>
    obtain ⟨i, hown, hother⟩ := h
    refine ⟨i, ?_, ?_⟩
    · rw [hhistory]
      exact hown
    · intro j hj
      rw [hhistory]
      exact hother j hj
  | _ =>
    intro j
    rw [hhistory]
    exact h j

/-- Before a call comes to send, there is nothing of it at any session. -/
theorem Transcribed.unsent {s : State} {t : ℕ} {p : SessionPool.Phase} (h : Transcribed s t p)
    (hsending : ∀ uri i, p ≠ .sending uri i) (hfinished : ∀ outcome, p ≠ .finished outcome) :
    ∀ j, transcript (s.sessions j).history t = [] := by
  cases p with
  | sending uri i => exact absurd rfl (hsending uri i)
  | finished outcome => exact absurd rfl (hfinished outcome)
  | _ => exact h

/-- A call that takes a step of the pool has not finished. -/
theorem unfinished {s : SessionPool.State} {e : SessionPool.Event} {t : ℕ}
    (htask : task e = some t) (he : SessionPool.Enabled env s e) (outcome : Outcome) :
    s.phase t ≠ .finished outcome := by
  intro hp
  cases e with
  | handshaken t' uri key conn =>
    cases htask
    rw [show s.phase t = .handshaking uri key conn from he] at hp
    cases hp
  | responded t' uri session =>
    cases htask
    rw [show s.phase t = .sending uri session from he] at hp
    cases hp
  | fail t' =>
    cases htask
    have hawaiting : (s.phase t).awaiting = true := he
    rw [hp] at hawaiting
    cases hawaiting
  | cancel t' =>
    cases htask
    have hlive : (s.phase t).live = true := he
    rw [hp] at hlive
    cases hlive
  | close session => cases htask
  | _ =>
    cases htask
    rw [he.1] at hp
    cases hp

/-- No call of the pool ends with a response before it has come to send. -/
theorem pool_outcome {s : SessionPool.State} {e : SessionPool.Event} {t : ℕ}
    (htask : task e = some t) (he : SessionPool.Enabled env s e)
    (hbefore : ∀ uri i, s.phase t ≠ .sending uri i) {outcome : Outcome}
    (hp : (SessionPool.next env s e).phase t = .finished outcome) : outcome ≠ .responded := by
  rintro rfl
  cases e with
  | responded t' uri session =>
    cases htask
    exact hbefore uri session he
  | close session => cases htask
  | _ =>
    cases htask
    simp [SessionPool.next, SessionPool.State.finish, SessionPool.State.send,
      SessionPool.State.setPhase] at hp

theorem transcribed_pool {s : State} {e : SessionPool.Event} {t : ℕ}
    (h : Transcribed s t (s.pool.phase t)) (he : Enabled env s (.pool e)) :
    Transcribed (next env s (.pool e)) t ((next env s (.pool e)).pool.phase t) := by
  have hhistory : ∀ j, transcript ((next env s (.pool e)).sessions j).history t =
      transcript (s.sessions j).history t := fun j => by rw [histories_pool]
  have hpool : (next env s (.pool e)).pool = SessionPool.next env s.pool e := rfl
  by_cases htask : task e = some t
  · have hbefore : ∀ uri i, s.pool.phase t ≠ .sending uri i := fun uri i => he.2 t uri i htask
    have hnone : ∀ j, transcript ((next env s (.pool e)).sessions j).history t = [] := by
      intro j
      rw [hhistory]
      exact h.unsent hbefore (unfinished htask he.1) j
    cases hp : (next env s (.pool e)).pool.phase t with
    | sending uri i =>
      refine ⟨?_, fun j _ => hnone j⟩
      have hlocking : ((next env s (.pool e)).sessions i).phase t = .locking := by
        have hb := (begins_iff htask hbefore he.1 i).mp ⟨uri, hpool ▸ hp⟩
        simp [next, hb, Http1Sessions.next, Http1Sessions.State.setPhase]
      rw [hnone, hlocking]
      rfl
    | finished outcome =>
      refine ⟨0, ?_, fun j _ => hnone j⟩
      rw [hnone]
      exact .early (pool_outcome htask he.1 hbefore (hpool ▸ hp))
    | _ => exact hnone
  · have hphase : (next env s (.pool e)).pool.phase t = s.pool.phase t := by
      rw [hpool]
      exact phase_frame htask
    rw [hphase]
    exact h.frame hhistory fun j => pool_session_frame htask

theorem transcribed_session {s : State} {i : ℕ} {e : Http1Sessions.Event} {t : ℕ} (hs : Coupled s)
    (h : Transcribed s t (s.pool.phase t)) (he : Enabled env s (.session i e)) :
    Transcribed (next env s (.session i e)) t ((next env s (.session i e)).pool.phase t) := by
  have hself : (next env s (.session i e)).sessions i = Http1Sessions.next (s.sessions i) e :=
    Function.update_self ..
  have hother : ∀ j, j ≠ i → (next env s (.session i e)).sessions j = s.sessions j :=
    fun j hj => Function.update_of_ne hj ..
  by_cases ht : sender e = t
  · subst ht
    obtain ⟨uri, hsending⟩ := (hs i (sender e)).mp (session_phases he.1 he.2).1
    rw [hsending] at h
    obtain ⟨hgoes, hends⟩ := session_transcript he.1 he.2 h.1
    have hnone : ∀ j, j ≠ i →
        transcript ((next env s (.session i e)).sessions j).history (sender e) = [] := by
      intro j hj
      rw [hother j hj]
      exact h.2 j hj
    cases hend : ending e with
    | none =>
      have hphase : (next env s (.session i e)).pool.phase (sender e) = .sending uri i := by
        simp [next, hend, hsending]
      rw [hphase]
      refine ⟨?_, hnone⟩
      rw [hself]
      exact hgoes hend
    | some outcome =>
      have hphase : (next env s (.session i e)).pool.phase (sender e) = .finished outcome := by
        simp [next, hend, SessionPool.State.finish, SessionPool.State.setPhase]
      rw [hphase]
      refine ⟨i, ?_, hnone⟩
      rw [hself]
      exact hends outcome hend
  · have hphase : (next env s (.session i e)).pool.phase t = s.pool.phase t :=
      session_pool_frame ht
    rw [hphase]
    refine h.frame ?_ ?_
    · intro j
      by_cases hij : j = i
      · subst hij
        rw [hself, next_history, transcript_frame ht]
      · rw [hother j hij]
    · exact session_sessions_frame ht

theorem reachable_transcribed {s : State} (hs : Reachable (system env) s) (t : ℕ) :
    Transcribed s t (s.pool.phase t) := by
  have hboth : Coupled s ∧ ∀ t, Transcribed s t (s.pool.phase t) := by
    refine reachable_of_step
      (P := fun s => Coupled s ∧ ∀ t, Transcribed s t (s.pool.phase t)) ?_ ?_ hs
    · exact ⟨reachable_coupled (.refl _), fun t j => rfl⟩
    · rintro s e ⟨hcoupled, h⟩ he
      cases e with
      | pool e =>
        exact ⟨coupled_pool hcoupled he, fun t => transcribed_pool (h t) he⟩
      | session i e =>
        have hstep : Coupled (next env s (.session i e)) := coupled_session hcoupled he
        have hgoes : ∀ t, Transcribed (next env s (.session i e)) t
            ((next env s (.session i e)).pool.phase t) :=
          fun t => transcribed_session hcoupled (h t) he
        exact ⟨hstep, hgoes⟩
  exact hboth.2 t

end transcripts

section consequences

theorem underWay_once (t : ℕ) (p : Http1Sessions.Phase) :
    (underWay t p).count (.sendRequest t) ≤ 1 := by
  cases p <;> simp [underWay]

theorem Ended.once {t : ℕ} {outcome : Outcome} {events : List SenderEvent}
    (h : Ended t outcome events) : events.count (.sendRequest t) ≤ 1 := by
  cases h with
  | early h => exact Nat.zero_le _
  | unready => simp
  | failed => simp [underWay]
  | responded => simp [underWay]
  | cancelled h =>
    rw [List.count_cons_of_ne (by simp)]
    exact underWay_once t _

theorem Ended.responded_iff {t : ℕ} {outcome : Outcome} {events : List SenderEvent}
    (h : Ended t outcome events) :
    outcome = .responded ↔ events = .returned t true :: underWay t .sending := by
  cases h with
  | early h => simp [h]
  | unready => simp
  | failed => simp
  | responded => simp
  | cancelled h => simp

/-- Wherever a call stands, there is one session at most at which it has done anything. -/
theorem Transcribed.at_one_session {s : State} {t : ℕ} {p : SessionPool.Phase}
    (h : Transcribed s t p) : ∃ i, (∀ j, j ≠ i → transcript (s.sessions j).history t = []) ∧
      (transcript (s.sessions i).history t).count (.sendRequest t) ≤ 1 := by
  cases p with
  | sending uri i => exact ⟨i, h.2, h.1 ▸ underWay_once t _⟩
  | finished outcome =>
    obtain ⟨i, hended, hother⟩ := h
    exact ⟨i, hother, hended.once⟩
  | _ => exact ⟨0, fun j _ => h j, by rw [h 0]; exact Nat.zero_le _⟩

theorem Transcribed.responded_iff {s : State} {t : ℕ} {p : SessionPool.Phase}
    (h : Transcribed s t p) : p = .finished .responded ↔
      ∃ i, transcript (s.sessions i).history t = .returned t true :: underWay t .sending := by
  have hnone : (∀ j, transcript (s.sessions j).history t = []) →
      ¬∃ i, transcript (s.sessions i).history t = .returned t true :: underWay t .sending := by
    rintro hempty ⟨i, hi⟩
    rw [hempty i] at hi
    cases hi
  cases p with
  | sending uri k =>
    refine iff_of_false (by simp) ?_
    rintro ⟨i, hi⟩
    by_cases hik : i = k
    · subst hik
      rw [h.1] at hi
      cases hp : (s.sessions i).phase t <;> rw [hp] at hi <;> simp [underWay] at hi
    · rw [h.2 i hik] at hi
      cases hi
  | finished outcome =>
    obtain ⟨k, hended, hother⟩ := h
    rw [SessionPool.Phase.finished.injEq, hended.responded_iff]
    constructor
    · intro hk
      exact ⟨k, hk⟩
    · rintro ⟨i, hi⟩
      by_cases hik : i = k
      · rwa [← hik]
      · rw [hother i hik] at hi
        cases hi
  | _ => exact iff_of_false (by simp) (hnone h)

end consequences

/-- A request goes out once at most, and a call that ends with a response has had it answered. -/
structure SentOnce (s : State) (t : ℕ) : Prop where
  session : ∀ i j, .sendRequest t ∈ (s.sessions i).history →
    .sendRequest t ∈ (s.sessions j).history → i = j
  once : ∀ i, (s.sessions i).history.count (.sendRequest t) ≤ 1
  responded : s.pool.phase t = .finished .responded ↔ ∃ i, transcript (s.sessions i).history t =
    [.returned t true, .sendRequest t, .readyReturned t true, .ready t]

theorem requests_sent_once {s : State} (hs : Reachable (system env) s) (t : ℕ) :
    Transcribed s t (s.pool.phase t) ∧ SentOnce s t := by
  have h := reachable_transcribed hs t
  obtain ⟨i, hother, honce⟩ := h.at_one_session
  have hsent : ∀ j, .sendRequest t ∈ (s.sessions j).history → j = i := by
    intro j hmem
    by_contra hj
    have htranscript : .sendRequest t ∈ transcript (s.sessions j).history t :=
      List.mem_filter.mpr ⟨hmem, by simp [actor]⟩
    rw [hother j hj] at htranscript
    cases htranscript
  refine ⟨h, ?_, ?_, h.responded_iff⟩
  · intro j k hj hk
    rw [hsent j hj, hsent k hk]
  · intro j
    by_cases hj : j = i
    · subst hj
      rwa [transcript, List.count_filter (by simp [actor])] at honce
    · rw [List.count_eq_zero.mpr fun hmem => hj (hsent j hmem)]
      exact Nat.zero_le 1

/-- The first call is cancelled with its request sent, the second gets its response. -/
theorem requests_sent_once_handed_over :
    let s := (system twoCalls).run initial handedOver
    s.pool.phase 0 = .finished .cancelled ∧ s.pool.phase 1 = .finished .responded ∧
      SentOnce s 0 ∧ SentOnce s 1 := by
  have hrun : Reachable (system twoCalls) ((system twoCalls).run initial handedOver) :=
    execution_run (by decide)
  exact ⟨by decide, by decide, (requests_sent_once hrun 0).2, (requests_sent_once hrun 1).2⟩

end ClientTranscripts
