import Mathlib.Algebra.BigOperators.Group.Finset.Piecewise
import Navar.PoolHistory
import Navar.PoolProgress

/-! # How many connections the pool opens

A connection that has been opened belongs to a pooled session, or to a call that is at its
handshake, or its call has failed or been cancelled. Authorities in the pool and those at a
handshake are all different, so nothing but failures makes more connections than authorities. -/
namespace PoolConnections

open LossyText (Str)
open HttpMessages (Uri)
open TransitionSystems
open SessionPool
open PoolHistory
open PoolExecutor (task phase_frame callsEnvironment)
open PoolProgress (task_requests sum_shrinks)

variable {env : Environment}

/-- The connections that a call may have opened without having pooled a session. -/
def unpooled : Phase → ℕ
  | .handshaking .. => 1
  | .finished .failed => 1
  | .finished .cancelled => 1
  | _ => 0

section accounting

/-- A step opens a connection or pools a session only for the call that it is a step of. -/
theorem step_accounts {s : State} {e : Event} {t : ℕ} (ht : task e = some t)
    (he : Enabled env s e) :
    unpooled (s.phase t) + ((next env s e).connections.length + s.handshakes.length) ≤
      unpooled ((next env s e).phase t) +
        (s.connections.length + (next env s e).handshakes.length) := by
  cases e with
  | call t' uri =>
    cases ht
    simp [next, State.setPhase, he.1, unpooled]
  | missingAuthority t' uri =>
    cases ht
    simp [next, State.finish, State.release, State.setPhase, he.1, unpooled]
  | occupied t' uri key session =>
    cases ht
    simp [next, State.send, State.setPhase, he.1, unpooled]
  | vacant t' uri key =>
    cases ht
    simp [next, State.setPhase, he.1, unpooled]
  | connected t' uri key =>
    cases ht
    simp [next, State.setPhase, he.1, unpooled]
    omega
  | handshaken t' uri key conn =>
    cases ht
    have hp : s.phase t = .handshaking uri key conn := he
    simp [next, State.establish, State.send, State.release, State.setPhase, hp, unpooled]
    omega
  | fail t' =>
    cases ht
    simp only [next, State.finish, State.release, State.setPhase, Function.update_self]
    cases hp : s.phase t with
    | finished outcome =>
      have hawaiting : (s.phase t).awaiting = true := he
      rw [hp] at hawaiting
      cases hawaiting
    | _ => simp [unpooled]
  | responded t' uri session =>
    cases ht
    have hp : s.phase t = .sending uri session := he
    simp [next, State.finish, State.release, State.setPhase, hp, unpooled]
  | cancel t' =>
    cases ht
    simp only [next, State.finish, State.release, State.setPhase, Function.update_self]
    cases hp : s.phase t with
    | finished outcome =>
      have hlive : (s.phase t).live = true := he
      rw [hp] at hlive
      cases hlive
    | _ => simp [unpooled]
  | close session => cases ht

theorem connections_accounted {n : ℕ} (hn : ∀ t uri, env.requests t uri → t < n) {s : State}
    (hs : Reachable (system env) s) :
    s.connections.length ≤
      s.handshakes.length + ∑ t ∈ Finset.range n, unpooled (s.phase t) := by
  have hboth : Reachable (system env) s ∧ s.connections.length ≤
      s.handshakes.length + ∑ t ∈ Finset.range n, unpooled (s.phase t) := by
    refine reachable_of_step (P := fun s => Reachable (system env) s ∧ s.connections.length ≤
      s.handshakes.length + ∑ t ∈ Finset.range n, unpooled (s.phase t)) ?_ ?_ hs
    · exact ⟨.refl _, Nat.zero_le _⟩
    · rintro s e ⟨hs, hle⟩ he
      refine ⟨hs.next he, ?_⟩
      cases htask : task e with
      | none =>
        cases e with
        | close session => exact hle
        | _ => cases htask
      | some t =>
        obtain ⟨uri, hreq⟩ := task_requests (reachable_requests hs) htask he
        have hstep := step_accounts htask he
        have hframe : ∀ t', t' ≠ t →
            unpooled (s.phase t') = unpooled ((next env s e).phase t') := by
          intro t' ht'
          rw [phase_frame (by simpa [htask] using Ne.symm ht')]
        have hless : unpooled (s.phase t) +
            ((next env s e).connections.length + s.handshakes.length) <
            unpooled ((next env s e).phase t) +
              (s.connections.length + (next env s e).handshakes.length + 1) := by
          omega
        have hsum := sum_shrinks (hn t uri hreq) hframe hless
        simp only [system] at hsum ⊢
        omega
  exact hboth.2

end accounting

def atHandshake : Phase → Bool
  | .handshaking .. => true
  | _ => false

def unsuccessful : Phase → Bool
  | .finished .failed => true
  | .finished .cancelled => true
  | _ => false

/-- The calls among the first `n` that are at a handshake. -/
def establishing (n : ℕ) (s : State) : Finset ℕ :=
  (Finset.range n).filter fun t => atHandshake (s.phase t)

/-- The calls among the first `n` that have failed or been cancelled. -/
def givenUp (n : ℕ) (s : State) : Finset ℕ :=
  (Finset.range n).filter fun t => unsuccessful (s.phase t)

def authorities (calls : List Uri) : Finset Str := (calls.filterMap Uri.authority).toFinset

section counting

theorem unpooled_sum (n : ℕ) (s : State) :
    ∑ t ∈ Finset.range n, unpooled (s.phase t) =
      (establishing n s).card + (givenUp n s).card := by
  rw [establishing, givenUp, Finset.card_filter, Finset.card_filter, ← Finset.sum_add_distrib]
  apply Finset.sum_congr rfl
  intro t _
  rcases s.phase t with _ | _ | _ | _ | _ | (_ | _ | _) <;> rfl

def keyOf (s : State) (t : ℕ) : Str := (s.phase t).vacantKey.getD []

theorem establishing_key {n t : ℕ} {s : State} (ht : t ∈ establishing n s) :
    ∃ uri conn, s.phase t = .handshaking uri (keyOf s t) conn ∧
      (s.phase t).vacantKey = some (keyOf s t) := by
  have hat := (Finset.mem_filter.mp ht).2
  cases hp : s.phase t with
  | handshaking uri key conn =>
    have hkey : keyOf s t = key := by
      rw [keyOf, hp]
      rfl
    exact ⟨uri, conn, by rw [hkey], by rw [hkey]; rfl⟩
  | _ =>
    rw [hp] at hat
    cases hat

variable {shard : Str → ℕ} {connects : Uri → Prop} {calls : List Uri} {s : State}

theorem requested_authority {t : ℕ} {uri : Uri} {key : Str}
    (hreq : (callsEnvironment shard connects calls).requests t uri)
    (hkey : uri.authority = some key) : key ∈ authorities calls :=
  List.mem_toFinset.mpr (List.mem_filterMap.mpr ⟨uri, List.mem_of_getElem? hreq, hkey⟩)

/-- The authorities with a pooled session and those at a handshake are different ones. -/
theorem sessions_bounded (hs : Reachable (system (callsEnvironment shard connects calls)) s) :
    s.handshakes.length + (establishing calls.length s).card ≤ (authorities calls).card := by
  have hpool := reachable_pool hs
  have hreq := reachable_requests hs
  have hlocks := reachable_locks hs
  have hpooled : (keys s).toFinset.card = s.handshakes.length := by
    rw [List.toFinset_card_of_nodup hpool.keys_nodup, keys, List.length_map,
      ← List.length_map (f := Prod.snd), hpool.sessions, List.length_range]
  have hinj : Set.InjOn (keyOf s) (establishing calls.length s) := by
    intro t ht t' ht' heq
    obtain ⟨_, _, _, hkey⟩ := establishing_key ht
    obtain ⟨_, _, _, hkey'⟩ := establishing_key ht'
    exact holder_unique hlocks hkey hkey' (congrArg shard heq)
  have hdisjoint : Disjoint (keys s).toFinset ((establishing calls.length s).image (keyOf s)) := by
    rw [Finset.disjoint_left]
    intro key hmem himage
    obtain ⟨t, ht, rfl⟩ := Finset.mem_image.mp himage
    obtain ⟨_, _, _, hkey⟩ := establishing_key ht
    exact (hpool.calls t).key hkey (List.mem_toFinset.mp hmem)
  have hsub : (keys s).toFinset ∪ (establishing calls.length s).image (keyOf s) ⊆
      authorities calls := by
    intro key hmem
    rcases Finset.mem_union.mp hmem with hpooled | himage
    · obtain ⟨⟨_, session⟩, hentry, rfl⟩ := List.mem_map.mp (List.mem_toFinset.mp hpooled)
      obtain ⟨_, uri, _, hc, ha⟩ := hpool.origin _ session hentry
      obtain ⟨_, t, hasked⟩ := hreq.dialled uri (List.mem_of_getElem? hc)
      exact requested_authority hasked ha
    · obtain ⟨t, ht, rfl⟩ := Finset.mem_image.mp himage
      obtain ⟨uri, conn, hp, _⟩ := establishing_key ht
      have hsound := hpool.calls t
      rw [hp] at hsound
      exact requested_authority (hreq.asked t uri (by rw [hp]; rfl)) hsound.1
  have hcard := Finset.card_le_card hsub
  rw [Finset.card_union_of_disjoint hdisjoint, Finset.card_image_of_injOn hinj, hpooled] at hcard
  exact hcard

end counting

/-- In every run of these calls, as many sessions are established or about to be as there are
authorities at most, and every further connection is one of a call that failed or was cancelled. -/
theorem connections_are_bounded (shard : Str → ℕ) (connects : Uri → Prop) (calls : List Uri)
    {s : State} (hs : Reachable (system (callsEnvironment shard connects calls)) s) :
    s.handshakes.length + (establishing calls.length s).card ≤ (authorities calls).card ∧
      s.connections.length ≤ (authorities calls).card + (givenUp calls.length s).card := by
  have hn : ∀ t uri, (callsEnvironment shard connects calls).requests t uri → t < calls.length :=
    fun t uri hreq => (List.getElem?_eq_some_iff.mp hreq).1
  have hsessions := sessions_bounded hs
  have hconnections := connections_accounted hn hs
  rw [unpooled_sum] at hconnections
  exact ⟨hsessions, by omega⟩

/-- The handshake of the first call is given up, and the second call connects anew. -/
def abandonedHandshake : List Event :=
  [.call 0 uriA, .vacant 0 uriA ['a'], .connected 0 uriA ['a'], .cancel 0, .call 1 uriA,
    .vacant 1 uriA ['a'], .connected 1 uriA ['a'], .handshaken 1 uriA ['a'] 1]

theorem connections_are_bounded_abandoned :
    let env := callsEnvironment (fun _ => 0) (fun _ => True) [uriA, uriA]
    let s := (system env).run initial abandonedHandshake
    s.connections.length = 2 ∧
      s.connections.length ≤ (authorities [uriA, uriA]).card + (givenUp 2 s).card := by
  intro env s
  have hrun : (system env).Allowed initial abandonedHandshake := by decide
  exact ⟨rfl, (connections_are_bounded _ _ [uriA, uriA] (execution_run hrun)).2⟩

end PoolConnections
