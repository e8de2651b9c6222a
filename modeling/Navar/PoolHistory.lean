import Navar.SessionPool

/-! # What the pool holds, and where it came from

The entries of the pool are the successful handshakes, in order: a call that holds the vacant
entry of a key finds the key still vacant when it inserts. -/
namespace PoolHistory

open LossyText (Str)
open HttpMessages (Uri)
open TransitionSystems
open SessionPool

variable {env : Environment}

def keys (s : State) : List Str := s.pool.map Prod.fst

/-- The session came from a handshake over a connection opened for a URI of this authority. -/
def Established (s : State) (session : ℕ) (key : Str) : Prop :=
  ∃ h uri, s.handshakes[session]? = some h ∧ s.connections[h.conn]? = some uri ∧
    uri.authority = some key

theorem entry_occupied {s : State} {key : Str} {session : ℕ}
    (h : s.entry key = .occupied session) : (key, session) ∈ s.pool := by
  unfold State.entry at h
  split at h
  next session' hl =>
    cases h
    obtain ⟨before, after, hpool, _⟩ := List.lookup_eq_some_iff.mp hl
    rw [hpool]
    exact List.mem_append_right _ List.mem_cons_self
  next => cases h

theorem entry_vacant_iff {s : State} {key : Str} : s.entry key = .vacant ↔ key ∉ keys s := by
  have hlookup : s.pool.lookup key = none ↔ key ∉ keys s := by
    rw [List.lookup_eq_none_iff]
    simp only [keys, List.mem_map, not_exists, not_and, bne_iff_ne]
    constructor
    · intro h p hp hk
      exact h p hp hk.symm
    · intro h p hp hk
      exact h p hp hk.symm
  rw [← hlookup]
  unfold State.entry
  cases s.pool.lookup key <;> simp

def Sound (s : State) : Phase → Prop
  | .connecting uri key => uri.authority = some key ∧ key ∉ keys s
  | .handshaking uri key conn =>
    uri.authority = some key ∧ s.connections[conn]? = some uri ∧ key ∉ keys s
  | _ => True

theorem sound_of_vacantKey {s : State} {p : Phase} (h : p.vacantKey = none) : Sound s p := by
  cases p <;> trivial

theorem Sound.key {s : State} {p : Phase} {key : Str} (h : Sound s p)
    (hk : p.vacantKey = some key) : key ∉ keys s := by
  cases p with
  | connecting uri key' =>
    cases hk
    exact h.2
  | handshaking uri key' conn =>
    cases hk
    exact h.2.2
  | _ => cases hk

theorem Sound.grow {s u : State} {p : Phase} (h : Sound s p)
    (hconn : s.connections <+: u.connections)
    (hkey : ∀ key, p.vacantKey = some key → key ∉ keys s → key ∉ keys u) : Sound u p := by
  cases p with
  | connecting uri key => exact ⟨h.1, hkey key rfl h.2⟩
  | handshaking uri key conn =>
    exact ⟨h.1, getElem?_of_grown hconn h.2.1, hkey key rfl h.2.2⟩
  | _ => trivial

theorem Established.grow {s u : State} {session : ℕ} {key : Str} (h : Established s session key)
    (hhand : s.handshakes <+: u.handshakes) (hconn : s.connections <+: u.connections) :
    Established u session key := by
  obtain ⟨hs, uri, hh, hc, ha⟩ := h
  exact ⟨hs, uri, getElem?_of_grown hhand hh, getElem?_of_grown hconn hc, ha⟩

/-- The sessions are numbered by their handshakes, and every one of them was pooled at once. -/
structure PoolInvariant (s : State) : Prop where
  calls : ∀ t, Sound s (s.phase t)
  keys_nodup : (keys s).Nodup
  sessions : s.pool.map Prod.snd = List.range s.handshakes.length
  drivers : s.spawned = List.range s.handshakes.length
  origin : ∀ key session, (key, session) ∈ s.pool → Established s session key
  pooled : ∀ m ∈ s.sent, ∃ key, m.uri.authority = some key ∧ (key, m.session) ∈ s.pool
  used : ∀ session h, s.handshakes[session]? = some h →
    ∃ m ∈ s.sent, m.task = h.task ∧ m.session = session

theorem initial_invariant : PoolInvariant initial := by
  constructor
  · intro t
    trivial
  · exact List.nodup_nil
  · rfl
  · rfl
  · intro key session h
    cases h
  · intro m h
    cases h
  · intro session h hh
    cases hh

/-- A step that touches neither the pool nor the log of requests. -/
theorem invariant_of_frame {s u : State} (h : PoolInvariant s)
    (hcalls : ∀ t, u.phase t = s.phase t ∨ Sound u (u.phase t))
    (hpool : u.pool = s.pool) (hhand : u.handshakes = s.handshakes)
    (hspawn : u.spawned = s.spawned) (hconn : s.connections <+: u.connections)
    (hsent : u.sent = s.sent) : PoolInvariant u := by
  have hkeys : keys u = keys s := by rw [keys, keys, hpool]
  constructor
  · intro t
    rcases hcalls t with ht | ht
    · rw [ht]
      exact (h.calls t).grow hconn fun key _ hk => hkeys ▸ hk
    · exact ht
  · exact hkeys ▸ h.keys_nodup
  · rw [hpool, hhand]
    exact h.sessions
  · rw [hspawn, hhand]
    exact h.drivers
  · intro key session hm
    exact (h.origin key session (hpool ▸ hm)).grow (hhand ▸ List.prefix_refl _) hconn
  · intro m hm
    rw [hpool]
    exact h.pooled m (hsent ▸ hm)
  · intro session hs hh
    rw [hsent]
    exact h.used session hs (hhand ▸ hh)

theorem phase_update {s : State} {t : ℕ} {p : Phase} {P : Phase → Prop} (hp : P p) (t' : ℕ) :
    Function.update s.phase t p t' = s.phase t' ∨ P (Function.update s.phase t p t') := by
  by_cases ht : t' = t
  · subst ht
    exact Or.inr (by simpa using hp)
  · exact Or.inl (by simp [ht])

theorem invariant_finish {s : State} (h : PoolInvariant s) (t : ℕ) (outcome : Outcome) :
    PoolInvariant (s.finish t outcome) :=
  invariant_of_frame h (phase_update trivial) rfl rfl rfl (List.prefix_refl _) rfl

theorem invariant_send {s : State} (h : PoolInvariant s) {t : ℕ} {uri : Uri} {key : Str}
    {session : ℕ} (hkey : uri.authority = some key) (hmem : (key, session) ∈ s.pool) :
    PoolInvariant (s.send t uri session) := by
  have hset : PoolInvariant (s.setPhase t (.sending uri session)) :=
    invariant_of_frame h (phase_update trivial) rfl rfl rfl (List.prefix_refl _) rfl
  refine { hset with pooled := ?_, used := ?_ }
  · intro m hm
    rcases List.mem_append.mp hm with hm | hm
    · exact h.pooled m hm
    · rw [List.mem_singleton.mp hm]
      exact ⟨key, hkey, hmem⟩
  · intro session' hs hh
    obtain ⟨m, hm, hmatch⟩ := h.used session' hs hh
    exact ⟨m, List.mem_append_left _ hm, hmatch⟩

/-- The insert of a handshaken session: the key is still vacant, and no other call holds it. -/
theorem invariant_handshaken {s : State} (h : PoolInvariant s) (hl : LockInvariant env s)
    {t : ℕ} {uri : Uri} {key : Str} {conn : ℕ} (hp : s.phase t = .handshaking uri key conn) :
    PoolInvariant (next env s (.handshaken t uri key conn)) := by
  have hsound := h.calls t
  rw [hp] at hsound
  obtain ⟨hkey, hconn, hvacant⟩ := hsound
  have hkeys : keys (next env s (.handshaken t uri key conn)) = keys s ++ [key] := by
    simp [keys, next, State.send, State.setPhase, State.establish]
  have hnew : Established (next env s (.handshaken t uri key conn)) s.handshakes.length key :=
    ⟨⟨t, conn⟩, uri, List.getElem?_concat_length, hconn, hkey⟩
  constructor
  · intro t'
    by_cases ht : t' = t
    · subst ht
      exact sound_of_vacantKey (by simp [next, State.send, State.setPhase, Phase.vacantKey])
    · have hphase : (next env s (.handshaken t uri key conn)).phase t' = s.phase t' := by
        simp [next, State.send, State.setPhase, State.establish, State.release, ht]
      rw [hphase]
      refine (h.calls t').grow (List.prefix_refl _) ?_
      intro key' hk' hnot
      rw [hkeys, List.mem_append, List.mem_singleton]
      rintro (hmem | rfl)
      · exact hnot hmem
      · exact ht (holder_unique hl hk' (by rw [hp]; rfl) rfl)
  · rw [hkeys, List.nodup_append]
    refine ⟨h.keys_nodup, List.nodup_singleton key, ?_⟩
    intro a ha b hb
    rw [List.mem_singleton.mp hb]
    exact fun he => hvacant (he ▸ ha)
  · simp only [next, State.send, State.setPhase, State.establish, List.map_append,
      List.length_append, List.length_singleton, List.range_succ]
    rw [h.sessions]
    rfl
  · simp only [next, State.send, State.setPhase, State.establish, List.length_append,
      List.length_singleton, List.range_succ]
    rw [h.drivers]
  · intro key' session hm
    rcases List.mem_append.mp hm with hm | hm
    · exact (h.origin key' session hm).grow (List.prefix_append _ _) (List.prefix_refl _)
    · obtain ⟨rfl, rfl⟩ := Prod.mk.inj (List.mem_singleton.mp hm)
      exact hnew
  · intro m hm
    rcases List.mem_append.mp hm with hm | hm
    · obtain ⟨key', hk', hmem⟩ := h.pooled m hm
      exact ⟨key', hk', List.mem_append_left _ hmem⟩
    · rw [List.mem_singleton.mp hm]
      exact ⟨key, hkey, List.mem_append_right _ (List.mem_singleton_self _)⟩
  · intro session hs hh
    by_cases hlt : session < s.handshakes.length
    · have hold : s.handshakes[session]? = some hs := by
        rw [← hh]
        exact (List.getElem?_append_left hlt).symm
      obtain ⟨m, hm, hmatch⟩ := h.used session hs hold
      exact ⟨m, List.mem_append_left _ hm, hmatch⟩
    · have hsession : session = s.handshakes.length := by
        obtain ⟨hle, _⟩ := List.getElem?_eq_some_iff.mp hh
        simp only [next, State.send, State.setPhase, State.establish, List.length_append,
          List.length_singleton] at hle
        omega
      subst hsession
      have htask : (⟨t, conn⟩ : Handshake) = hs :=
        Option.some.inj (List.getElem?_concat_length.symm.trans hh)
      exact ⟨_, List.mem_append_right _ (List.mem_singleton_self _), by rw [← htask], rfl⟩

theorem step_preserves_invariant {s : State} {e : Event} (h : PoolInvariant s)
    (hl : LockInvariant env s) (he : Enabled env s e) : PoolInvariant (next env s e) := by
  cases e with
  | call t uri =>
    exact invariant_of_frame h (phase_update trivial) rfl rfl rfl (List.prefix_refl _) rfl
  | missingAuthority t uri => exact invariant_finish h t .failed
  | occupied t uri key session => exact invariant_send h he.2.1 (entry_occupied he.2.2.2)
  | vacant t uri key =>
    have hvacant := entry_vacant_iff.mp he.2.2.2
    exact invariant_of_frame h (phase_update ⟨he.2.1, hvacant⟩) rfl rfl rfl
      (List.prefix_refl _) rfl
  | connected t uri key =>
    have hsound := h.calls t
    rw [he.1] at hsound
    exact invariant_of_frame h
      (phase_update ⟨hsound.1, List.getElem?_concat_length, hsound.2⟩) rfl rfl rfl
      (List.prefix_append _ _) rfl
  | handshaken t uri key conn => exact invariant_handshaken h hl he
  | fail t => exact invariant_finish h t .failed
  | responded t uri session => exact invariant_finish h t .responded
  | cancel t => exact invariant_finish h t .cancelled
  | close session =>
    exact invariant_of_frame h (fun _ => Or.inl rfl) rfl rfl rfl (List.prefix_refl _) rfl

theorem reachable_pool {s : State} (h : Reachable (system env) s) : PoolInvariant s := by
  have hboth : PoolInvariant s ∧ LockInvariant env s := by
    refine reachable_of_step (P := fun s => PoolInvariant s ∧ LockInvariant env s)
      ⟨initial_invariant, reachable_locks (.refl _)⟩ ?_ h
    intro s e hs he
    exact ⟨step_preserves_invariant hs.1 hs.2 he, step_preserves_locks hs.2 he⟩
  exact hboth.1

section consequences

theorem established_pooled {s : State} (h : PoolInvariant s) {session : ℕ} {key : Str}
    (he : Established s session key) : (key, session) ∈ s.pool := by
  obtain ⟨hs, uri, hh, hc, ha⟩ := he
  have hlt : session ∈ s.pool.map Prod.snd := by
    rw [h.sessions, List.mem_range]
    exact (List.getElem?_eq_some_iff.mp hh).1
  obtain ⟨⟨key', session'⟩, hmem, rfl⟩ := List.mem_map.mp hlt
  obtain ⟨hs', uri', hh', hc', ha'⟩ := h.origin key' session' hmem
  obtain rfl := Option.some.inj (hh.symm.trans hh')
  obtain rfl := Option.some.inj (hc.symm.trans hc')
  obtain rfl := Option.some.inj (ha.symm.trans ha')
  exact hmem

theorem pool_unique {s : State} (h : PoolInvariant s) {key : Str} {session session' : ℕ}
    (hm : (key, session) ∈ s.pool) (hm' : (key, session') ∈ s.pool) : session = session' :=
  congrArg Prod.snd (List.inj_on_of_nodup_map h.keys_nodup hm hm' rfl)

theorem pool_grows (s : State) (e : Event) : s.pool <+: (next env s e).pool := by
  cases e <;> first | exact List.prefix_refl _ | exact List.prefix_append _ _

/-- Only the completion of a handshake adds to the pool or spawns a driver. -/
theorem pool_frame (s : State) (e : Event) :
    (∃ t uri key conn, e = .handshaken t uri key conn) ∨
      ((next env s e).pool = s.pool ∧ (next env s e).spawned = s.spawned ∧
        (next env s e).handshakes = s.handshakes) := by
  cases e with
  | handshaken t uri key conn => exact Or.inl ⟨t, uri, key, conn, rfl⟩
  | _ => exact Or.inr ⟨rfl, rfl, rfl⟩

/-- A vacant key that no call holds can be established. -/
theorem vacant_key_establishes {s : State} {t : ℕ} {uri : Uri} {key : Str}
    (hstart : s.phase t = .start uri) (hkey : uri.authority = some key)
    (hfree : s.lock (env.shard key) = none) (hvacant : key ∉ keys s)
    (hconn : env.connects uri) :
    ∃ v, Execution (system env) s v ∧ v.pool = s.pool ++ [(key, s.handshakes.length)] := by
  have hrun : (system env).Allowed s [.vacant t uri key, .connected t uri key,
      .handshaken t uri key s.connections.length] := by
    refine ⟨?_, ?_, ?_, trivial⟩
    · exact ⟨hstart, hkey, hfree, entry_vacant_iff.mpr hvacant⟩
    · exact ⟨Function.update_self .., hconn⟩
    · exact Function.update_self ..
  exact ⟨_, execution_run hrun, rfl⟩

theorem finish_frees {s : State} (hl : LockInvariant env s) {t : ℕ} {key : Str}
    (hk : (s.phase t).vacantKey = some key) (outcome : Outcome) :
    (s.finish t outcome).lock (env.shard key) = none := by
  simp [State.finish, State.setPhase, State.release, hl.locked t key hk]

/-- What a call that holds a vacant entry leaves behind when it fails or is cancelled: the key
as free as it was, for any later call. -/
theorem abandoned_key_is_free {s : State} (hl : LockInvariant env s) (h : PoolInvariant s)
    {t : ℕ} {key : Str} (hk : (s.phase t).vacantKey = some key) (outcome : Outcome) :
    key ∉ keys (s.finish t outcome) ∧ (s.finish t outcome).lock (env.shard key) = none ∧
      ∀ t' uri, s.phase t' = .start uri ∨ s.phase t' = .idle ∧ env.requests t' uri →
        uri.authority = some key → env.connects uri →
        ∃ v, Execution (system env) (s.finish t outcome) v ∧
          v.pool = s.pool ++ [(key, s.handshakes.length)] := by
  have hvacant : key ∉ keys (s.finish t outcome) := (h.calls t).key hk
  have hfree := finish_frees hl hk outcome
  refine ⟨hvacant, hfree, ?_⟩
  intro t' uri hcall hkey hconn
  have hne : t' ≠ t := by
    rintro rfl
    rcases hcall with hp | ⟨hp, _⟩ <;> rw [hp] at hk <;> cases hk
  have hphase : (s.finish t outcome).phase t' = s.phase t' := by
    simp [State.finish, State.setPhase, State.release, hne]
  rcases hcall with hp | ⟨hp, hreq⟩
  · exact vacant_key_establishes (hphase.trans hp) hkey hfree hvacant hconn
  · have hcall : (system env).Enabled (s.finish t outcome) (.call t' uri) :=
      ⟨hphase.trans hp, hreq⟩
    have hstart : ((s.finish t outcome).setPhase t' (.start uri)).phase t' = .start uri :=
      Function.update_self ..
    obtain ⟨v, hv, hpool⟩ := vacant_key_establishes hstart hkey hfree hvacant hconn
    exact ⟨v, ((Execution.refl _).next hcall).trans hv, hpool⟩

end consequences

/-- In every interleaving with failures and cancellations: one entry for each key, for ever;
every entry from a handshake over a connection for its key; one driver for each entry and one
session for each authority; and a call that ends before it inserts changes nothing and leaves
its key free. -/
theorem session_pool_invariant {s : State} (hs : Reachable (system env) s) :
    ((keys s).Nodup ∧ ∀ u, Execution (system env) s u → s.pool <+: u.pool) ∧
    (∀ key session, (key, session) ∈ s.pool → Established s session key) ∧
    (s.spawned = List.range s.handshakes.length ∧ s.spawned.length = s.pool.length ∧
      ∀ session session' key, Established s session key → Established s session' key →
        session = session') ∧
    (∀ e, Enabled env s e → (∃ t uri key conn, e = .handshaken t uri key conn) ∨
      ((next env s e).pool = s.pool ∧ (next env s e).spawned = s.spawned ∧
        (next env s e).handshakes = s.handshakes)) ∧
    (∀ session h, s.handshakes[session]? = some h →
      ∃ m ∈ s.sent, m.task = h.task ∧ m.session = session) ∧
    (∀ t key, (s.phase t).vacantKey = some key → ∀ e, e = .fail t ∨ e = .cancel t →
      Enabled env s e ∧ key ∉ keys (next env s e) ∧
      (next env s e).lock (env.shard key) = none ∧
      ∀ t' uri, s.phase t' = .start uri ∨ s.phase t' = .idle ∧ env.requests t' uri →
        uri.authority = some key → env.connects uri →
        ∃ v, Execution (system env) (next env s e) v ∧
          v.pool = s.pool ++ [(key, s.handshakes.length)]) := by
  have h := reachable_pool hs
  have hl := reachable_locks hs
  refine ⟨⟨h.keys_nodup, ?_⟩, h.origin, ⟨h.drivers, ?_, ?_⟩, ?_, h.used, ?_⟩
  · intro u hu
    exact execution_grows (fun s e _ => pool_grows s e) hu
  · rw [h.drivers, ← h.sessions, List.length_map]
  · intro session session' key he he'
    exact pool_unique h (established_pooled h he) (established_pooled h he')
  · intro e _
    exact pool_frame s e
  · intro t key hk e he
    have hawaiting : (s.phase t).awaiting = true ∧ (s.phase t).live = true := by
      cases hp : s.phase t <;> rw [hp] at hk <;> cases hk <;> exact ⟨rfl, rfl⟩
    rcases he with rfl | rfl
    · exact ⟨hawaiting.1, abandoned_key_is_free hl h hk .failed⟩
    · exact ⟨hawaiting.2, abandoned_key_is_free hl h hk .cancelled⟩

/-- Every task may request anything, every key is in one shard, connecting may succeed. -/
def openEnvironment : Environment where
  shard _ := 0
  requests _ _ := True
  connects _ := True

instance : DecidablePred openEnvironment.connects := fun _ => isTrue trivial
instance (t : ℕ) (uri : Uri) : Decidable (openEnvironment.requests t uri) := isTrue trivial

def uriA : Uri := ⟨some ['h', 't', 't', 'p'], some ['a'], ['/']⟩
def uriB : Uri := ⟨some ['h', 't', 't', 'p'], some ['b'], ['/']⟩

def twoCalls : List Event :=
  [.call 0 uriA, .call 1 uriB, .vacant 0 uriA ['a'], .connected 0 uriA ['a'],
    .handshaken 0 uriA ['a'] 0, .vacant 1 uriB ['b'], .connected 1 uriB ['b']]

theorem session_pool_invariant_two_calls :
    Established ((system openEnvironment).run initial twoCalls) 0 ['a'] ∧
      (next openEnvironment ((system openEnvironment).run initial twoCalls) (.cancel 1)).lock 0 =
        none := by
  have hrun : (system openEnvironment).Allowed initial twoCalls := by decide
  have h := session_pool_invariant (execution_run hrun)
  exact ⟨h.2.1 ['a'] 0 (by decide),
    (h.2.2.2.2.2 1 ['b'] (by decide) (.cancel 1) (Or.inr rfl)).2.2.1⟩

/-- Nothing takes an entry out of the pool: a call whose lookup finds an entry sends on its
session at once, whether or not the driver of that session has completed; a call connects and
shakes hands only when the lookup finds none; and the pooled session serves its authority for
ever. -/
theorem pooled_session_is_reused {s : State} (hs : Reachable (system env) s) :
    (∀ t uri key session, s.phase t = .start uri → uri.authority = some key →
      s.lock (env.shard key) = none → (key, session) ∈ s.pool →
      Enabled env s (.occupied t uri key session) ∧ ¬Enabled env s (.vacant t uri key) ∧
      (next env s (.occupied t uri key session)).sent = s.sent ++ [⟨t, uri, session⟩] ∧
      (next env s (.occupied t uri key session)).connections = s.connections ∧
      (next env s (.occupied t uri key session)).handshakes = s.handshakes) ∧
    (∀ t uri key, s.phase t = .start uri → uri.authority = some key →
      s.lock (env.shard key) = none → key ∉ keys s →
      Enabled env s (.vacant t uri key) ∧ ∀ session, ¬Enabled env s (.occupied t uri key session)) ∧
    (∀ key session, (key, session) ∈ s.pool → ∀ u, Execution (system env) s u →
      (key, session) ∈ u.pool ∧
      ∀ m ∈ u.sent, m.uri.authority = some key → m.session = session) := by
  have h := reachable_pool hs
  refine ⟨?_, ?_, ?_⟩
  · intro t uri key session hstart hkey hfree hmem
    have hfound : key ∈ keys s := List.mem_map_of_mem hmem
    have hentry : s.entry key = .occupied session := by
      cases he : s.entry key with
      | occupied session' => rw [pool_unique h hmem (entry_occupied he)]
      | vacant => exact (entry_vacant_iff.mp he hfound).elim
    refine ⟨⟨hstart, hkey, hfree, hentry⟩, ?_, rfl, rfl, rfl⟩
    intro hvacant
    exact entry_vacant_iff.mp hvacant.2.2.2 hfound
  · intro t uri key hstart hkey hfree hnot
    refine ⟨⟨hstart, hkey, hfree, entry_vacant_iff.mpr hnot⟩, ?_⟩
    intro session hoccupied
    exact hnot (List.mem_map_of_mem (entry_occupied hoccupied.2.2.2))
  · intro key session hmem u hu
    have hgrow : s.pool <+: u.pool := execution_grows (fun s e _ => pool_grows s e) hu
    have hpool := reachable_pool (hs.trans hu)
    refine ⟨hgrow.subset hmem, ?_⟩
    intro m hm hkey
    obtain ⟨key', hk', hm'⟩ := hpool.pooled m hm
    obtain rfl := Option.some.inj (hkey.symm.trans hk')
    exact pool_unique hpool hm' (hgrow.subset hmem)

/-- One call, answered; then the driver of its session completes, and the authority is requested
again. -/
def closedThenCalled : List Event :=
  [.call 0 uriA, .vacant 0 uriA ['a'], .connected 0 uriA ['a'], .handshaken 0 uriA ['a'] 0,
    .responded 0 uriA 0, .close 0, .call 1 uriA]

theorem pooled_session_is_reused_when_closed :
    Enabled openEnvironment ((system openEnvironment).run initial closedThenCalled)
      (.occupied 1 uriA ['a'] 0) := by
  have hrun : (system openEnvironment).Allowed initial closedThenCalled := by decide
  exact ((pooled_session_is_reused (execution_run hrun)).1 1 uriA ['a'] 0 (by decide) (by decide)
    (by decide) (by decide)).1

/-- A lookup after the driver has completed, and the request goes to the dead session. -/
theorem request_sent_on_closed_session :
    ∃ s, Reachable (system openEnvironment) s ∧ 0 ∈ s.closed ∧ (['a'], 0) ∈ s.pool ∧
      Enabled openEnvironment s (.occupied 1 uriA ['a'] 0) ∧
      ⟨1, uriA, 0⟩ ∈ (next openEnvironment s (.occupied 1 uriA ['a'] 0)).sent := by
  have hrun : (system openEnvironment).Allowed initial closedThenCalled := by decide
  exact ⟨_, execution_run hrun, by decide, by decide, by decide, by decide⟩

end PoolHistory
