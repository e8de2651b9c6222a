import Navar.PoolHistory

/-! # The pool without its locks

The pool as its callers mean it: a call that finds no session for its authority connects, shakes
hands and stores the session in one step, which nothing interrupts. The base service holds a lock
over that time; calls that hold one are still waiting, seen from here. -/
namespace AtomicPool

open LossyText (Str)
open HttpMessages (Uri)
open TransitionSystems
open SessionPool
open PoolHistory

inductive Stage where
  | idle
  | waiting (uri : Uri)
  | sending (uri : Uri) (session : ℕ)
  | finished (outcome : Outcome)
  deriving DecidableEq, Repr

structure Pool where
  stage : ℕ → Stage
  table : List (Str × ℕ)
  closed : List ℕ
  sent : List Sent

inductive Action where
  | call (t : ℕ) (uri : Uri)
  | refuse (t : ℕ) (uri : Uri)
  | reuse (t : ℕ) (uri : Uri) (key : Str) (session : ℕ)
  | create (t : ℕ) (uri : Uri) (key : Str)
  | lose (t : ℕ) (uri : Uri) (session : ℕ)
  | respond (t : ℕ) (uri : Uri) (session : ℕ)
  | cancel (t : ℕ)
  | close (session : ℕ)

def Stage.live : Stage → Bool
  | .waiting _ => true
  | .sending _ _ => true
  | _ => false

def Pool.Possible (env : Environment) (p : Pool) : Action → Prop
  | .call t uri => p.stage t = .idle ∧ env.requests t uri
  | .refuse t uri =>
    p.stage t = .waiting uri ∧ ∀ key, uri.authority = some key → p.table.lookup key = none
  | .reuse t uri key session =>
    p.stage t = .waiting uri ∧ uri.authority = some key ∧ p.table.lookup key = some session
  | .create t uri key =>
    p.stage t = .waiting uri ∧ uri.authority = some key ∧ p.table.lookup key = none ∧
      env.connects uri
  | .lose t uri session => p.stage t = .sending uri session
  | .respond t uri session => p.stage t = .sending uri session
  | .cancel t => (p.stage t).live = true
  | .close session => session < p.table.length ∧ session ∉ p.closed

def Pool.set (p : Pool) (t : ℕ) (stage : Stage) : Pool :=
  { p with stage := Function.update p.stage t stage }

def Pool.use (p : Pool) (t : ℕ) (uri : Uri) (session : ℕ) : Pool :=
  { p.set t (.sending uri session) with sent := p.sent ++ [⟨t, uri, session⟩] }

def Pool.after (p : Pool) : Action → Pool
  | .call t uri => p.set t (.waiting uri)
  | .refuse t _ => p.set t (.finished .failed)
  | .reuse t uri _ session => p.use t uri session
  | .create t uri key =>
    { p.use t uri p.table.length with table := p.table ++ [(key, p.table.length)] }
  | .lose t _ _ => p.set t (.finished .failed)
  | .respond t _ _ => p.set t (.finished .responded)
  | .cancel t => p.set t (.finished .cancelled)
  | .close session => { p with closed := p.closed ++ [session] }

def atomic (env : Environment) : System Pool Action where
  initial := ⟨fun _ => .idle, [], [], []⟩
  Enabled := Pool.Possible env
  next := Pool.after

/-- A call is waiting until it sends its request. -/
def stageOf : Phase → Stage
  | .idle => .idle
  | .start uri => .waiting uri
  | .connecting uri _ => .waiting uri
  | .handshaking uri _ _ => .waiting uri
  | .sending uri session => .sending uri session
  | .finished outcome => .finished outcome

def view (s : State) : Pool :=
  ⟨fun t => stageOf (s.phase t), s.pool, s.closed, s.sent⟩

variable {env : Environment}

section views

theorem view_setPhase (s : State) (t : ℕ) (phase : Phase) :
    view (s.setPhase t phase) = (view s).set t (stageOf phase) := by
  have hstage : (fun t' => stageOf (Function.update s.phase t phase t')) =
      Function.update (fun t' => stageOf (s.phase t')) t (stageOf phase) :=
    Function.comp_update stageOf s.phase t phase
  simp [view, State.setPhase, Pool.set, hstage]

/-- A call that goes on waiting. -/
theorem view_unchanged {s : State} {t : ℕ} {p q : Phase} (h : s.phase t = p)
    (hstage : stageOf q = stageOf p) : view (s.setPhase t q) = view s := by
  have hsame : (view s).stage t = stageOf q := by
    rw [hstage, ← h]
    rfl
  rw [view_setPhase, Pool.set, ← hsame, Function.update_eq_self]

theorem view_release (s : State) (t : ℕ) : view (s.release t) = view s := rfl

theorem view_finish (s : State) (t : ℕ) (outcome : Outcome) :
    view (s.finish t outcome) = (view s).set t (.finished outcome) := by
  rw [State.finish, view_setPhase, view_release]
  rfl

theorem view_send (s : State) (t : ℕ) (uri : Uri) (session : ℕ) :
    view (s.send t uri session) = (view s).use t uri session :=
  congrArg (fun p : Pool => { p with sent := s.sent ++ [(⟨t, uri, session⟩ : Sent)] })
    (view_setPhase s t (.sending uri session))

theorem view_vacant {s : State} {t : ℕ} {uri : Uri} {key : Str} (h : s.phase t = .start uri) :
    view (next env s (.vacant t uri key)) = view s :=
  view_unchanged (q := .connecting uri key) h rfl

theorem view_connected {s : State} {t : ℕ} {uri : Uri} {key : Str}
    (h : s.phase t = .connecting uri key) :
    view (next env s (.connected t uri key)) = view s :=
  view_unchanged (q := .handshaking uri key s.connections.length) h rfl

/-- The insertion at the end of a handshake is the whole of a creation. -/
theorem view_handshaken {s : State} {t : ℕ} {uri : Uri} {key : Str} {conn : ℕ}
    (hlen : s.pool.length = s.handshakes.length) :
    view (next env s (.handshaken t uri key conn)) = (view s).after (.create t uri key) := by
  have hstored : view (s.establish t key conn) =
      { view s with table := s.pool ++ [(key, s.pool.length)] } := by
    rw [hlen]
    rfl
  rw [next, view_send, hstored, ← hlen]
  rfl

theorem live_stageOf (phase : Phase) : (stageOf phase).live = phase.live := by
  cases phase <;> rfl

theorem lookup_occupied_iff {s : State} {key : Str} {session : ℕ} :
    s.pool.lookup key = some session ↔ s.entry key = .occupied session := by
  unfold State.entry
  cases s.pool.lookup key <;> simp

theorem lookup_vacant_iff {s : State} {key : Str} :
    s.pool.lookup key = none ↔ s.entry key = .vacant := by
  unfold State.entry
  cases s.pool.lookup key <;> simp

theorem stage_view {s : State} {t : ℕ} {phase : Phase} (h : s.phase t = phase) :
    (view s).stage t = stageOf phase := congrArg stageOf h

end views

section simulation

/-- What the pool knows when it takes a step of the base service for one of its own. -/
structure Coupled (env : Environment) (s : State) : Prop where
  pool : PoolInvariant s
  requests : RequestInvariant env s

theorem reachable_coupled {s : State} (hs : Reachable (system env) s) : Coupled env s :=
  ⟨reachable_pool hs, reachable_requests hs⟩

theorem Coupled.lookup {s : State} (h : Coupled env s) {t : ℕ} {key : Str}
    (hk : (s.phase t).vacantKey = some key) : (view s).table.lookup key = none :=
  lookup_vacant_iff.mpr (entry_vacant_iff.mpr ((h.pool.calls t).key hk))

theorem Coupled.length {s : State} (h : Coupled env s) :
    s.pool.length = s.handshakes.length := by
  rw [← List.length_map (f := Prod.snd), h.pool.sessions, List.length_range]

theorem acts {p q : Pool} {a : Action} (ha : p.Possible env a) (hq : q = p.after a) :
    Execution (atomic env) p q := .tail (.refl p) ⟨ha, hq⟩

/-- A call that holds the vacant entry of its key can be refused. -/
theorem refuses {s : State} (h : Coupled env s) {t : ℕ} {uri : Uri} {key : Str}
    (hstage : (view s).stage t = .waiting uri) (hkey : uri.authority = some key)
    (hk : (s.phase t).vacantKey = some key) :
    Execution (atomic env) (view s) (view (s.finish t .failed)) := by
  refine acts (a := .refuse t uri) ⟨hstage, ?_⟩ (view_finish s t .failed)
  intro key' hkey'
  obtain rfl := Option.some.inj (hkey.symm.trans hkey')
  exact h.lookup hk

theorem step_simulated {s : State} {e : Event} (h : Coupled env s) (he : Enabled env s e) :
    Execution (atomic env) (view s) (view (next env s e)) := by
  cases e with
  | call t uri =>
    exact acts (a := .call t uri) ⟨stage_view he.1, he.2⟩ (view_setPhase s t (.start uri))
  | missingAuthority t uri =>
    refine acts (a := .refuse t uri) ⟨stage_view he.1, ?_⟩ (view_finish s t .failed)
    intro key hkey
    rw [he.2] at hkey
    cases hkey
  | occupied t uri key session =>
    exact acts (a := .reuse t uri key session)
      ⟨stage_view he.1, he.2.1, lookup_occupied_iff.mpr he.2.2.2⟩ (view_send s t uri session)
  | vacant t uri key =>
    rw [view_vacant he.1]
    exact .refl _
  | connected t uri key =>
    rw [view_connected he.1]
    exact .refl _
  | handshaken t uri key conn =>
    have hp : s.phase t = .handshaking uri key conn := he
    have hsound := h.pool.calls t
    rw [hp] at hsound
    have hconnects := (h.requests.dialled uri (List.mem_of_getElem? hsound.2.1)).1
    exact acts (a := .create t uri key)
      ⟨stage_view hp, hsound.1, h.lookup (t := t) (by rw [hp]; rfl), hconnects⟩
      (view_handshaken h.length)
  | fail t =>
    have hawaiting : (s.phase t).awaiting = true := he
    have hsound := h.pool.calls t
    cases hp : s.phase t with
    | connecting uri key =>
      rw [hp] at hsound
      exact refuses h (stage_view hp) hsound.1 (by rw [hp]; rfl)
    | handshaking uri key conn =>
      rw [hp] at hsound
      exact refuses h (stage_view hp) hsound.1 (by rw [hp]; rfl)
    | sending uri session =>
      exact acts (a := .lose t uri session) (stage_view hp) (view_finish s t .failed)
    | _ =>
      rw [hp] at hawaiting
      cases hawaiting
  | responded t uri session =>
    exact acts (a := .respond t uri session) (stage_view he) (view_finish s t .responded)
  | cancel t =>
    refine acts (a := .cancel t) ?_ (view_finish s t .cancelled)
    exact (live_stageOf (s.phase t)).trans he
  | close session =>
    refine acts (a := .close session) ⟨?_, he.2⟩ rfl
    have hspawned := he.1
    rw [h.pool.drivers, List.mem_range, ← h.length] at hspawned
    exact hspawned

end simulation

section completeness

/-- No call is between its lookup and the insertion. -/
def Quiet (s : State) : Prop := ∀ t, (s.phase t).vacantKey = none

theorem Quiet.unlocked {s : State} (h : Quiet s) (hl : LockInvariant env s) (k : ℕ) :
    s.lock k = none := by
  cases hlock : s.lock k with
  | none => rfl
  | some t =>
    obtain ⟨key, hk, _⟩ := hl.holder k t hlock
    rw [h t] at hk
    cases hk

theorem Quiet.takes {s : State} (h : Quiet s) (hs : Reachable (system env) s) {t : ℕ} {uri : Uri}
    {key : Str} (hp : s.phase t = .start uri) (hkey : uri.authority = some key)
    (hvacant : s.entry key = .vacant) : Enabled env s (.vacant t uri key) :=
  ⟨hp, hkey, h.unlocked (reachable_locks hs) _, hvacant⟩

theorem Quiet.waiting {s : State} (h : Quiet s) {t : ℕ} {uri : Uri}
    (hstage : (view s).stage t = .waiting uri) : s.phase t = .start uri := by
  have hquiet := h t
  have hview : stageOf (s.phase t) = .waiting uri := hstage
  cases hp : s.phase t with
  | start uri' =>
    rw [hp] at hview
    cases hview
    rfl
  | connecting uri' key =>
    rw [hp] at hquiet
    cases hquiet
  | handshaking uri' key conn =>
    rw [hp] at hquiet
    cases hquiet
  | _ =>
    rw [hp] at hview
    cases hview

theorem phase_of_idle {s : State} {t : ℕ} (h : (view s).stage t = .idle) :
    s.phase t = .idle := by
  have hview : stageOf (s.phase t) = .idle := h
  cases hp : s.phase t with
  | idle => rfl
  | _ =>
    rw [hp] at hview
    cases hview

theorem phase_of_sending {s : State} {t : ℕ} {uri : Uri} {session : ℕ}
    (h : (view s).stage t = .sending uri session) : s.phase t = .sending uri session := by
  have hview : stageOf (s.phase t) = .sending uri session := h
  cases hp : s.phase t with
  | sending uri' session' =>
    rw [hp] at hview
    cases hview
    rfl
  | _ =>
    rw [hp] at hview
    cases hview

theorem runs {s : State} {e : Event} (he : Enabled env s e) :
    Execution (system env) s (next env s e) := execution_step (M := system env) he

theorem Quiet.update {s u : State} (h : Quiet s) {t : ℕ} {p : Phase}
    (hp : p.vacantKey = none) (hu : u.phase = Function.update s.phase t p) :
    Quiet u := by
  intro t'
  rw [hu]
  by_cases ht : t' = t
  · subst ht
    rw [Function.update_self]
    exact hp
  · rw [Function.update_of_ne ht]
    exact h t'

/-- A call whose key is vacant connects and shakes hands before anything else happens. -/
theorem create_realised {s : State} (hs : Reachable (system env) s) (hq : Quiet s) {t : ℕ}
    {uri : Uri} {key : Str} (hp : s.phase t = .start uri) (hkey : uri.authority = some key)
    (hvacant : s.entry key = .vacant) (hconnects : env.connects uri) :
    ∃ u, Execution (system env) s u ∧ Quiet u ∧
      view u = (view s).after (.create t uri key) := by
  have htake := hq.takes hs hp hkey hvacant
  have hconnecting : (next env s (.vacant t uri key)).phase t = .connecting uri key :=
    Function.update_self ..
  have hhandshaking : (next env (next env s (.vacant t uri key)) (.connected t uri key)).phase t =
      .handshaking uri key s.connections.length := Function.update_self ..
  have hrun : Execution (system env) s
      (next env (next env s (.vacant t uri key)) (.connected t uri key)) :=
    (runs htake).trans (runs (e := .connected t uri key) ⟨hconnecting, hconnects⟩)
  have hstore : Enabled env
      (next env (next env s (.vacant t uri key)) (.connected t uri key))
      (.handshaken t uri key s.connections.length) := hhandshaking
  refine ⟨_, hrun.trans (runs hstore), ?_, ?_⟩
  · refine hq.update (t := t) (p := .sending uri s.handshakes.length) rfl ?_
    simp [next, State.send, State.establish, State.setPhase, State.release]
  · have hlen := (reachable_coupled (hs.trans hrun)).length
    exact (view_handshaken hlen).trans
      (congrArg (Pool.after · _) ((view_connected hconnecting).trans (view_vacant hp)))

/-- A call whose key is vacant fails to connect. -/
theorem refuse_realised {s : State} (hs : Reachable (system env) s) (hq : Quiet s) {t : ℕ}
    {uri : Uri} {key : Str} (hp : s.phase t = .start uri) (hkey : uri.authority = some key)
    (hvacant : s.entry key = .vacant) :
    ∃ u, Execution (system env) s u ∧ Quiet u ∧ view u = (view s).after (.refuse t uri) := by
  have htake := hq.takes hs hp hkey hvacant
  have hfail : Enabled env (next env s (.vacant t uri key)) (.fail t) := by
    simp [Enabled, next, State.setPhase, Phase.awaiting]
  refine ⟨_, (runs htake).trans (runs hfail), ?_, ?_⟩
  · refine hq.update (t := t) (p := .finished .failed) rfl ?_
    simp [next, State.finish, State.setPhase, State.release]
  · exact (view_finish _ t .failed).trans
      (congrArg (Pool.set · t _) (view_vacant hp))

theorem action_realised {s : State} (hs : Reachable (system env) s) (hq : Quiet s) {a : Action}
    (ha : (view s).Possible env a) :
    ∃ u, Execution (system env) s u ∧ Quiet u ∧ view u = (view s).after a := by
  cases a with
  | call t uri =>
    have he : Enabled env s (.call t uri) := ⟨phase_of_idle ha.1, ha.2⟩
    exact ⟨_, runs he, hq.update (p := .start uri) rfl rfl,
      view_setPhase s t (.start uri)⟩
  | refuse t uri =>
    have hp := hq.waiting ha.1
    cases hkey : uri.authority with
    | none =>
      have he : Enabled env s (.missingAuthority t uri) := ⟨hp, hkey⟩
      exact ⟨_, runs he, hq.update (p := .finished .failed) rfl rfl,
        view_finish s t .failed⟩
    | some key => exact refuse_realised hs hq hp hkey (lookup_vacant_iff.mp (ha.2 key hkey))
  | reuse t uri key session =>
    have he : Enabled env s (.occupied t uri key session) :=
      ⟨hq.waiting ha.1, ha.2.1, hq.unlocked (reachable_locks hs) _,
        lookup_occupied_iff.mp ha.2.2⟩
    exact ⟨_, runs he, hq.update (p := .sending uri session) rfl rfl,
      view_send s t uri session⟩
  | create t uri key =>
    exact create_realised hs hq (hq.waiting ha.1) ha.2.1 (lookup_vacant_iff.mp ha.2.2.1)
      ha.2.2.2
  | lose t uri session =>
    have he : Enabled env s (.fail t) := by
      rw [Enabled, phase_of_sending ha]
      rfl
    exact ⟨_, runs he, hq.update (p := .finished .failed) rfl rfl,
      view_finish s t .failed⟩
  | respond t uri session =>
    have he : Enabled env s (.responded t uri session) := phase_of_sending ha
    exact ⟨_, runs he, hq.update (p := .finished .responded) rfl rfl,
      view_finish s t .responded⟩
  | cancel t =>
    have he : Enabled env s (.cancel t) := (live_stageOf (s.phase t)).symm.trans ha
    exact ⟨_, runs he, hq.update (p := .finished .cancelled) rfl rfl,
      view_finish s t .cancelled⟩
  | close session =>
    have hc := reachable_coupled hs
    have he : Enabled env s (.close session) := by
      refine ⟨?_, ha.2⟩
      rw [hc.pool.drivers, List.mem_range, ← hc.length]
      exact ha.1
    exact ⟨_, runs he, hq, rfl⟩

theorem reachable_realised {p : Pool} (hp : Reachable (atomic env) p) :
    ∃ s, Reachable (system env) s ∧ Quiet s ∧ view s = p := by
  refine reachable_of_step (P := fun p => ∃ s, Reachable (system env) s ∧ Quiet s ∧ view s = p)
    ?_ ?_ hp
  · exact ⟨initial, .refl _, fun _ => rfl, rfl⟩
  · rintro _ a ⟨s, hs, hq, rfl⟩ ha
    obtain ⟨u, hu, hquiet, hview⟩ := action_realised hs hq ha
    exact ⟨u, hs.trans hu, hquiet, hview⟩

end completeness

/-- Whatever the interleaving, the callers see steps of a pool that looks up and creates at
once; and they may see every run of it. -/
theorem pool_is_atomic (env : Environment) :
    (∀ s u, Reachable (system env) s → Execution (system env) s u →
      Execution (atomic env) (view s) (view u)) ∧
    ∀ p, Reachable (atomic env) p ↔ ∃ s, Reachable (system env) s ∧ view s = p := by
  have hsim : ∀ s u, Reachable (system env) s → Execution (system env) s u →
      Execution (atomic env) (view s) (view u) := by
    intro s u hs hu
    exact execution_of_simulated (fun _ => reachable_coupled) (fun _ _ => step_simulated) hs hu
  refine ⟨hsim, ?_⟩
  intro p
  constructor
  · intro hp
    obtain ⟨s, hs, _, hview⟩ := reachable_realised hp
    exact ⟨s, hs, hview⟩
  · rintro ⟨s, hs, rfl⟩
    exact hsim initial s (.refl _) hs

/-- One call connects while another waits for the same authority, and a third is let go. -/
def overlapping : List Event :=
  [.call 0 uriA, .vacant 0 uriA ['a'], .call 1 uriA, .connected 0 uriA ['a'], .call 2 uriB,
    .cancel 2, .handshaken 0 uriA ['a'] 0, .occupied 1 uriA ['a'] 0]

theorem pool_is_atomic_overlapping :
    let s := (system openEnvironment).run initial overlapping
    Reachable (atomic openEnvironment) (view s) ∧ (view s).table = [(['a'], 0)] ∧
      (view s).stage 1 = .sending uriA 0 := by
  intro s
  have hrun : (system openEnvironment).Allowed initial overlapping := by decide
  exact ⟨((pool_is_atomic openEnvironment).2 (view s)).mpr ⟨s, execution_run hrun, rfl⟩, rfl, rfl⟩

section log

/-- The authorities of the requests, each where it was first asked for. -/
def requested (sent : List Sent) : List Str :=
  (sent.filterMap fun m => m.uri.authority).eraseDups

theorem requested_concat {sent : List Sent} {m : Sent} {key : Str}
    (hkey : m.uri.authority = some key) :
    requested (sent ++ [m]) =
      requested sent ++ (if key ∈ requested sent then [] else [key]) := by
  have hone : [m].filterMap (fun m => m.uri.authority) = [key] := by simp [hkey]
  rw [requested, List.filterMap_append, hone, List.eraseDups_append, List.cons_removeAll]
  by_cases hmem : key ∈ sent.filterMap fun m => m.uri.authority
  · have hasked : key ∈ requested sent := List.mem_eraseDups.mpr hmem
    rw [if_neg (by simpa using hmem), if_pos hasked]
    rfl
  · have hasked : key ∉ requested sent := fun h => hmem (List.mem_eraseDups.mp h)
    rw [if_pos (by simpa using hmem), if_neg hasked]
    rfl

/-- The table is what the log of requests makes of it. -/
structure Pool.Logged (p : Pool) : Prop where
  table : p.table = (requested p.sent).zipIdx
  sessions : ∀ m ∈ p.sent, ∃ key, m.uri.authority = some key ∧
    (requested p.sent)[m.session]? = some key

theorem Pool.Logged.found {p : Pool} (h : p.Logged) {key : Str} {session : ℕ}
    (hlookup : p.table.lookup key = some session) : (requested p.sent)[session]? = some key := by
  obtain ⟨before, after, htable, _⟩ := List.lookup_eq_some_iff.mp hlookup
  apply List.mk_mem_zipIdx_iff_getElem?.mp
  rw [← h.table, htable]
  simp

theorem Pool.Logged.absent {p : Pool} (h : p.Logged) {key : Str}
    (hlookup : p.table.lookup key = none) : key ∉ requested p.sent := by
  intro hmem
  obtain ⟨i, hi⟩ := List.getElem?_of_mem hmem
  have hentry : (key, i) ∈ p.table := by
    rw [h.table]
    exact List.mk_mem_zipIdx_iff_getElem?.mpr hi
  simpa using List.lookup_eq_none_iff.mp hlookup _ hentry

theorem action_logged {p : Pool} {a : Action} (h : p.Logged) (ha : p.Possible env a) :
    (p.after a).Logged := by
  cases a with
  | reuse t uri key session =>
    obtain ⟨_, hkey, hlookup⟩ := ha
    have hfound := h.found hlookup
    have hsame : requested (p.sent ++ [⟨t, uri, session⟩]) = requested p.sent := by
      rw [requested_concat hkey, if_pos (List.mem_of_getElem? hfound), List.append_nil]
    constructor
    · exact h.table.trans (congrArg List.zipIdx hsame.symm)
    · intro m hm
      simp only [Pool.after, Pool.use, Pool.set] at hm ⊢
      rw [hsame]
      rcases List.mem_append.mp hm with hm | hm
      · exact h.sessions m hm
      · obtain rfl := List.mem_singleton.mp hm
        exact ⟨key, hkey, hfound⟩
  | create t uri key =>
    obtain ⟨_, hkey, hlookup, _⟩ := ha
    have hnew : requested (p.sent ++ [⟨t, uri, p.table.length⟩]) = requested p.sent ++ [key] := by
      rw [requested_concat hkey, if_neg (h.absent hlookup)]
    have hlen : p.table.length = (requested p.sent).length := by
      rw [h.table, List.length_zipIdx]
    constructor
    · simp only [Pool.after, Pool.use, Pool.set]
      rw [hnew, List.zipIdx_append, ← h.table, hlen]
      simp
    · intro m hm
      simp only [Pool.after, Pool.use, Pool.set] at hm ⊢
      rw [hnew]
      rcases List.mem_append.mp hm with hm | hm
      · obtain ⟨key', hkey', hsession⟩ := h.sessions m hm
        exact ⟨key', hkey', getElem?_of_grown (List.prefix_append ..) hsession⟩
      · obtain rfl := List.mem_singleton.mp hm
        refine ⟨key, hkey, ?_⟩
        rw [hlen]
        exact List.getElem?_concat_length
  | _ => exact ⟨h.table, h.sessions⟩

end log

/-- The order of the first requests decides the pool: its keys are the authorities in that
order, and the requests on a session are those for the authority of the same number. -/
theorem log_decides_pool {s : State} (hs : Reachable (system env) s) :
    s.pool = (requested s.sent).zipIdx ∧
      ∀ m ∈ s.sent, ∃ key, m.uri.authority = some key ∧
        (requested s.sent)[m.session]? = some key := by
  have hlogged : (view s).Logged := by
    have hatomic : Reachable (atomic env) (view s) :=
      reachable_of_simulated (fun _ => reachable_coupled) rfl (fun _ _ => step_simulated) hs
    refine reachable_of_step (P := Pool.Logged) ?_ (fun _ _ => action_logged) hatomic
    constructor
    · rfl
    · intro m hm
      cases hm
  exact ⟨hlogged.table, hlogged.sessions⟩

theorem log_decides_pool_overlapping :
    let s := (system openEnvironment).run initial overlapping
    s.sent = [⟨0, uriA, 0⟩, ⟨1, uriA, 0⟩] ∧ s.pool = (requested s.sent).zipIdx := by
  intro s
  have hrun : (system openEnvironment).Allowed initial overlapping := by decide
  exact ⟨rfl, (log_decides_pool (execution_run hrun)).1⟩

end AtomicPool
