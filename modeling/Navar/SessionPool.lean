import Mathlib.Data.List.Nodup
import Mathlib.Data.List.Range
import Navar.HttpMessages
import Navar.TransitionSystems

/-! # The session pool of the base service

Any number of `BaseService::handle` calls, each run from one await point to the next without
interruption. `DashMap::entry` holds the shard of its key until the entry is dropped: a vacant
entry lives across the connect and the handshake, an occupied one until the session is cloned.
Connections and sessions are numbered in the order in which they came to be. -/
namespace SessionPool

open LossyText (Str)
open HttpMessages (Uri)
open TransitionSystems

/-- What the calls are given: the shard of each key, which request each task may make, and for
which URIs connecting may succeed. -/
structure Environment where
  shard : Str → ℕ
  requests : ℕ → Uri → Prop
  connects : Uri → Prop

inductive Outcome where
  | responded
  | failed
  | cancelled
  deriving DecidableEq, Repr

/-- Where a call stands: before the lookup, at one of its three await points, or done. -/
inductive Phase where
  | idle
  | start (uri : Uri)
  | connecting (uri : Uri) (key : Str)
  | handshaking (uri : Uri) (key : Str) (conn : ℕ)
  | sending (uri : Uri) (session : ℕ)
  | finished (outcome : Outcome)
  deriving DecidableEq, Repr

def Phase.vacantKey : Phase → Option Str
  | .connecting _ key => some key
  | .handshaking _ key _ => some key
  | _ => none

def Phase.uri : Phase → Option Uri
  | .start uri => some uri
  | .connecting uri _ => some uri
  | .handshaking uri _ _ => some uri
  | .sending uri _ => some uri
  | _ => none

structure Handshake where
  task : ℕ
  conn : ℕ
  deriving DecidableEq, Repr

structure Sent where
  task : ℕ
  uri : Uri
  session : ℕ
  deriving DecidableEq, Repr

structure State where
  phase : ℕ → Phase
  pool : List (Str × ℕ)
  lock : ℕ → Option ℕ
  connections : List Uri
  handshakes : List Handshake
  spawned : List ℕ
  closed : List ℕ
  sent : List Sent

def initial : State :=
  { phase := fun _ => .idle
    pool := []
    lock := fun _ => none
    connections := []
    handshakes := []
    spawned := []
    closed := []
    sent := [] }

inductive Entry where
  | occupied (session : ℕ)
  | vacant
  deriving DecidableEq, Repr

def State.entry (s : State) (key : Str) : Entry :=
  match s.pool.lookup key with
  | some session => .occupied session
  | none => .vacant

inductive Event where
  | call (t : ℕ) (uri : Uri)
  | missingAuthority (t : ℕ) (uri : Uri)
  | occupied (t : ℕ) (uri : Uri) (key : Str) (session : ℕ)
  | vacant (t : ℕ) (uri : Uri) (key : Str)
  | connected (t : ℕ) (uri : Uri) (key : Str)
  | handshaken (t : ℕ) (uri : Uri) (key : Str) (conn : ℕ)
  | fail (t : ℕ)
  | responded (t : ℕ) (uri : Uri) (session : ℕ)
  | cancel (t : ℕ)
  | close (session : ℕ)

def Phase.awaiting : Phase → Bool
  | .connecting .. => true
  | .handshaking .. => true
  | .sending .. => true
  | _ => false

def Phase.live : Phase → Bool
  | .idle => false
  | .finished _ => false
  | _ => true

def Enabled (env : Environment) (s : State) : Event → Prop
  | .call t uri => s.phase t = .idle ∧ env.requests t uri
  | .missingAuthority t uri => s.phase t = .start uri ∧ uri.authority = none
  | .occupied t uri key session =>
    s.phase t = .start uri ∧ uri.authority = some key ∧ s.lock (env.shard key) = none ∧
      s.entry key = .occupied session
  | .vacant t uri key =>
    s.phase t = .start uri ∧ uri.authority = some key ∧ s.lock (env.shard key) = none ∧
      s.entry key = .vacant
  | .connected t uri key => s.phase t = .connecting uri key ∧ env.connects uri
  | .handshaken t uri key conn => s.phase t = .handshaking uri key conn
  | .fail t => (s.phase t).awaiting = true
  | .responded t uri session => s.phase t = .sending uri session
  | .cancel t => (s.phase t).live = true
  | .close session => session ∈ s.spawned ∧ session ∉ s.closed

instance (env : Environment) [∀ t uri, Decidable (env.requests t uri)]
    [DecidablePred env.connects] (s : State) : DecidablePred (Enabled env s)
  | .call _ _ => inferInstanceAs (Decidable (_ ∧ _))
  | .missingAuthority _ _ => inferInstanceAs (Decidable (_ ∧ _))
  | .occupied _ _ _ _ => inferInstanceAs (Decidable (_ ∧ _ ∧ _ ∧ _))
  | .vacant _ _ _ => inferInstanceAs (Decidable (_ ∧ _ ∧ _ ∧ _))
  | .connected _ _ _ => inferInstanceAs (Decidable (_ ∧ _))
  | .handshaken _ _ _ _ => inferInstanceAs (Decidable (_ = _))
  | .fail _ => inferInstanceAs (Decidable (_ = _))
  | .responded _ _ _ => inferInstanceAs (Decidable (_ = _))
  | .cancel _ => inferInstanceAs (Decidable (_ = _))
  | .close _ => inferInstanceAs (Decidable (_ ∧ _))

def State.setPhase (s : State) (t : ℕ) (p : Phase) : State :=
  { s with phase := Function.update s.phase t p }

/-- Dropping the entry that the task holds, if it holds one. -/
def State.release (s : State) (t : ℕ) : State :=
  { s with lock := fun k => if s.lock k = some t then none else s.lock k }

def State.finish (s : State) (t : ℕ) (outcome : Outcome) : State :=
  (s.release t).setPhase t (.finished outcome)

def State.send (s : State) (t : ℕ) (uri : Uri) (session : ℕ) : State :=
  { s.setPhase t (.sending uri session) with sent := s.sent ++ [⟨t, uri, session⟩] }

/-- The driver is spawned and the session stored, which drops the entry. -/
def State.establish (s : State) (t : ℕ) (key : Str) (conn : ℕ) : State :=
  { s.release t with
    handshakes := s.handshakes ++ [⟨t, conn⟩]
    spawned := s.spawned ++ [s.handshakes.length]
    pool := s.pool ++ [(key, s.handshakes.length)] }

def next (env : Environment) (s : State) : Event → State
  | .call t uri => s.setPhase t (.start uri)
  | .missingAuthority t _ => s.finish t .failed
  | .occupied t uri _ session => s.send t uri session
  | .vacant t uri key =>
    { s.setPhase t (.connecting uri key) with
      lock := Function.update s.lock (env.shard key) (some t) }
  | .connected t uri key =>
    { s.setPhase t (.handshaking uri key s.connections.length) with
      connections := s.connections ++ [uri] }
  -- the request is sent in the same poll in which the handshake completes
  | .handshaken t uri key conn => (s.establish t key conn).send t uri s.handshakes.length
  | .fail t => s.finish t .failed
  | .responded t _ _ => s.finish t .responded
  | .cancel t => s.finish t .cancelled
  | .close session => { s with closed := s.closed ++ [session] }

def system (env : Environment) : System State Event where
  initial := initial
  Enabled := Enabled env
  next := next env

instance (env : Environment) [∀ t uri, Decidable (env.requests t uri)]
    [DecidablePred env.connects] (s : State) (e : Event) :
    Decidable ((system env).Enabled s e) := inferInstanceAs (Decidable (Enabled env s e))

section locks

variable {env : Environment}

/-- A shard is locked by the one call that holds a vacant entry of it. -/
structure LockInvariant (env : Environment) (s : State) : Prop where
  locked : ∀ t key, (s.phase t).vacantKey = some key → s.lock (env.shard key) = some t
  holder : ∀ k t, s.lock k = some t →
    ∃ key, (s.phase t).vacantKey = some key ∧ env.shard key = k

theorem lock_setPhase {s : State} {t : ℕ} {p : Phase} (h : LockInvariant env s)
    (hp : p.vacantKey = (s.phase t).vacantKey) : LockInvariant env (s.setPhase t p) := by
  have hkey : ∀ t', ((s.setPhase t p).phase t').vacantKey = (s.phase t').vacantKey := by
    intro t'
    by_cases ht : t' = t
    · subst ht
      simpa [State.setPhase] using hp
    · simp [State.setPhase, ht]
  constructor
  · intro t' key hk
    exact h.locked t' key (hkey t' ▸ hk)
  · intro k t' hl
    obtain ⟨key, hk, hs⟩ := h.holder k t' hl
    exact ⟨key, (hkey t').trans hk, hs⟩

theorem lock_release {s : State} {t : ℕ} {p : Phase} (h : LockInvariant env s)
    (hp : p.vacantKey = none) : LockInvariant env ((s.release t).setPhase t p) := by
  constructor
  · intro t' key hk
    by_cases ht : t' = t
    · subst ht
      simp [State.setPhase, hp] at hk
    · have hl := h.locked t' key (by simpa [State.setPhase, State.release, ht] using hk)
      simp [State.setPhase, State.release, hl, ht]
  · intro k t' hl
    by_cases ht : s.lock k = some t
    · simp [State.setPhase, State.release, ht] at hl
    · simp only [State.setPhase, State.release, ht, ↓reduceIte] at hl
      have hne : t' ≠ t := fun he => ht (he ▸ hl)
      obtain ⟨key, hk, hs⟩ := h.holder k t' hl
      exact ⟨key, by simpa [State.setPhase, State.release, hne] using hk, hs⟩

theorem lock_take {s : State} {t : ℕ} {uri : Uri} {key : Str} (h : LockInvariant env s)
    (hfree : s.lock (env.shard key) = none) (hp : (s.phase t).vacantKey = none) :
    LockInvariant env (next env s (.vacant t uri key)) := by
  constructor
  · intro t' key' hk
    by_cases ht : t' = t
    · subst ht
      simp only [next, State.setPhase, Function.update_self, Phase.vacantKey,
        Option.some.injEq] at hk
      subst hk
      simp [next]
    · have hl := h.locked t' key' (by simpa [next, State.setPhase, ht] using hk)
      have hne : env.shard key' ≠ env.shard key := by
        intro he
        rw [he, hfree] at hl
        cases hl
      simpa [next, hne] using hl
  · intro k t' hl
    by_cases hk : k = env.shard key
    · subst hk
      simp only [next, Function.update_self, Option.some.injEq] at hl
      subst hl
      exact ⟨key, by simp [next, State.setPhase, Phase.vacantKey], rfl⟩
    · obtain ⟨key', hk', hs⟩ := h.holder k t' (by simpa [next, hk] using hl)
      have hne : t' ≠ t := by
        intro he
        rw [he, hp] at hk'
        cases hk'
      exact ⟨key', by simpa [next, State.setPhase, hne] using hk', hs⟩

theorem step_preserves_locks {s : State} {e : Event} (h : LockInvariant env s)
    (he : Enabled env s e) : LockInvariant env (next env s e) := by
  cases e with
  | call t uri => exact lock_setPhase h (by simp [he.1, Phase.vacantKey])
  | missingAuthority t uri => exact lock_release h rfl
  | occupied t uri key session =>
    have hset := lock_setPhase (t := t) (p := .sending uri session) h
      (by simp [he.1, Phase.vacantKey])
    exact ⟨hset.locked, hset.holder⟩
  | vacant t uri key => exact lock_take h he.2.2.1 (by simp [he.1, Phase.vacantKey])
  | connected t uri key =>
    have hset := lock_setPhase (t := t) (p := .handshaking uri key s.connections.length) h
      (by simp [he.1, Phase.vacantKey])
    exact ⟨hset.locked, hset.holder⟩
  | handshaken t uri key conn =>
    have hset := lock_release (t := t) (p := .sending uri s.handshakes.length) h rfl
    exact ⟨hset.locked, hset.holder⟩
  | fail t => exact lock_release h rfl
  | responded t uri session => exact lock_release h rfl
  | cancel t => exact lock_release h rfl
  | close session => exact ⟨h.locked, h.holder⟩

theorem reachable_locks {s : State} (h : Reachable (system env) s) : LockInvariant env s := by
  refine reachable_of_step ?_ (fun _ _ => step_preserves_locks) h
  constructor
  · intro t key hk
    cases hk
  · intro k t hl
    cases hl

/-- Two calls that hold vacant entries of one shard are one call. -/
theorem holder_unique {s : State} (h : LockInvariant env s) {t t' : ℕ} {key key' : Str}
    (hk : (s.phase t).vacantKey = some key) (hk' : (s.phase t').vacantKey = some key')
    (hs : env.shard key = env.shard key') : t = t' := by
  have hl := h.locked t key hk
  rw [hs, h.locked t' key' hk'] at hl
  exact (Option.some.inj hl).symm

end locks

section requests

variable {env : Environment}

/-- Connections are opened, and requests sent, for what the calls have been asked. -/
structure RequestInvariant (env : Environment) (s : State) : Prop where
  asked : ∀ t uri, (s.phase t).uri = some uri → env.requests t uri
  dialled : ∀ uri ∈ s.connections, env.connects uri ∧ ∃ t, env.requests t uri
  sent : ∀ m ∈ s.sent, env.requests m.task m.uri

theorem requests_setPhase {s : State} {t : ℕ} {p : Phase} (h : RequestInvariant env s)
    (hp : ∀ uri, p.uri = some uri → env.requests t uri) :
    RequestInvariant env (s.setPhase t p) := by
  refine { h with asked := ?_ }
  intro t' uri huri
  by_cases ht : t' = t
  · subst ht
    exact hp uri (by simpa [State.setPhase] using huri)
  · exact h.asked t' uri (by simpa [State.setPhase, ht] using huri)

theorem requests_finish {s : State} (h : RequestInvariant env s) (t : ℕ) (outcome : Outcome) :
    RequestInvariant env (s.finish t outcome) := by
  have hset := requests_setPhase (t := t) (p := .finished outcome) h (by intro uri hu; cases hu)
  exact ⟨hset.asked, h.dialled, h.sent⟩

theorem requests_send {s : State} {t : ℕ} {uri : Uri} (h : RequestInvariant env s)
    (hreq : env.requests t uri) (session : ℕ) : RequestInvariant env (s.send t uri session) := by
  have hset := requests_setPhase (t := t) (p := .sending uri session) h
    (fun uri' hu => Option.some.inj hu ▸ hreq)
  refine ⟨hset.asked, h.dialled, ?_⟩
  intro m hm
  rcases List.mem_append.mp hm with hm | hm
  · exact h.sent m hm
  · rw [List.mem_singleton.mp hm]
    exact hreq

theorem step_preserves_requests {s : State} {e : Event} (h : RequestInvariant env s)
    (he : Enabled env s e) : RequestInvariant env (next env s e) := by
  have hasked : ∀ {t p uri}, s.phase t = p → p.uri = some uri → env.requests t uri :=
    fun hp hu => h.asked _ _ (hp ▸ hu)
  cases e with
  | call t uri =>
    exact requests_setPhase h fun uri' hu => Option.some.inj hu ▸ he.2
  | missingAuthority t uri => exact requests_finish h t .failed
  | occupied t uri key session => exact requests_send h (hasked he.1 rfl) session
  | vacant t uri key =>
    have hset := requests_setPhase (t := t) (p := .connecting uri key) h
      fun uri' hu => Option.some.inj hu ▸ hasked he.1 rfl
    exact ⟨hset.asked, h.dialled, h.sent⟩
  | connected t uri key =>
    have hreq : env.requests t uri := hasked he.1 rfl
    have hset := requests_setPhase (t := t) (p := .handshaking uri key s.connections.length) h
      fun uri' hu => Option.some.inj hu ▸ hreq
    refine ⟨hset.asked, ?_, h.sent⟩
    intro uri' hu
    rcases List.mem_append.mp hu with hu | hu
    · exact h.dialled uri' hu
    · rw [List.mem_singleton.mp hu]
      exact ⟨he.2, t, hreq⟩
  | handshaken t uri key conn =>
    have hstored : RequestInvariant env (s.establish t key conn) := ⟨h.asked, h.dialled, h.sent⟩
    exact requests_send hstored (hasked he rfl) s.handshakes.length
  | fail t => exact requests_finish h t .failed
  | responded t uri session => exact requests_finish h t .responded
  | cancel t => exact requests_finish h t .cancelled
  | close session => exact ⟨h.asked, h.dialled, h.sent⟩

theorem reachable_requests {s : State} (h : Reachable (system env) s) :
    RequestInvariant env s := by
  refine reachable_of_step ?_ (fun _ _ => step_preserves_requests) h
  constructor
  · intro t uri hu
    cases hu
  · intro uri hu
    cases hu
  · intro m hm
    cases hm

end requests

end SessionPool
