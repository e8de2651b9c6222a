import Mathlib.Data.Finset.Card
import Mathlib.Data.Finset.Sort
import Mathlib.Data.Fintype.Basic
import Navar.PoolHistory

/-! # The calls on the threads of an executor

A poll runs on a thread without giving it up. When the shard of the key is held by another call,
`pool.entry` blocks the thread itself, and nothing else runs on that thread until the shard is
free. -/
namespace PoolExecutor

open LossyText (Str)
open HttpMessages (Uri)
open TransitionSystems
open SessionPool (Environment Phase LockInvariant RequestInvariant)
open PoolHistory (PoolInvariant)

variable {W : ℕ}

/-- The pool, and for each thread the call whose poll blocks it inside `pool.entry`. -/
structure State (W : ℕ) where
  core : SessionPool.State
  threads : Fin W → Option ℕ

def initial : State W := { core := SessionPool.initial, threads := fun _ => none }

inductive Event (W : ℕ) where
  | act (e : SessionPool.Event)
  | block (w : Fin W) (t : ℕ) (uri : Uri) (key : Str)
  | unblock (w : Fin W) (t : ℕ) (e : SessionPool.Event)

/-- The call that the event polls or drops. -/
def task : SessionPool.Event → Option ℕ
  | .call t _ => some t
  | .missingAuthority t _ => some t
  | .occupied t _ _ _ => some t
  | .vacant t _ _ => some t
  | .connected t _ _ => some t
  | .handshaken t _ _ _ => some t
  | .fail t => some t
  | .responded t _ _ => some t
  | .cancel t => some t
  | .close _ => none

def isEntry : SessionPool.Event → Bool
  | .occupied .. => true
  | .vacant .. => true
  | _ => false

def Enabled (env : Environment) (s : State W) : Event W → Prop
  | .act e => (∃ w, s.threads w = none) ∧ SessionPool.Enabled env s.core e ∧
      ∀ w, (s.threads w).isSome = true → s.threads w ≠ task e
  | .block w t uri key => s.threads w = none ∧ (∀ w', s.threads w' ≠ some t) ∧
      s.core.phase t = .start uri ∧ uri.authority = some key ∧
      s.core.lock (env.shard key) ≠ none
  | .unblock w t e => s.threads w = some t ∧ isEntry e = true ∧ task e = some t ∧
      SessionPool.Enabled env s.core e

def next (env : Environment) (s : State W) : Event W → State W
  | .act e => { s with core := SessionPool.next env s.core e }
  | .block w t _ _ => { s with threads := Function.update s.threads w (some t) }
  | .unblock w _ e =>
    { core := SessionPool.next env s.core e, threads := Function.update s.threads w none }

def system (W : ℕ) (env : Environment) : System (State W) (Event W) where
  initial := initial
  Enabled := Enabled env
  next := next env

instance (env : Environment) [∀ t uri, Decidable (env.requests t uri)]
    [DecidablePred env.connects] (s : State W) : DecidablePred ((system W env).Enabled s)
  | .act _ => inferInstanceAs (Decidable (_ ∧ _ ∧ _))
  | .block _ _ _ _ => inferInstanceAs (Decidable (_ ∧ _ ∧ _ ∧ _ ∧ _))
  | .unblock _ _ _ => inferInstanceAs (Decidable (_ ∧ _ ∧ _ ∧ _))

/-- Every thread is blocked on a shard whose holder is suspended while it connects or shakes
hands. -/
def Deadlocked (env : Environment) (s : State W) : Prop :=
  ∀ w, ∃ t uri key holder, s.threads w = some t ∧ s.core.phase t = .start uri ∧
    uri.authority = some key ∧ s.core.lock (env.shard key) = some holder ∧
    (s.core.phase holder).vacantKey.isSome = true

section steps

variable {env : Environment}

theorem refines_pool : Refines (system W env) (SessionPool.system env) State.core := by
  constructor
  · rfl
  · intro s e he
    cases e with
    | act e => exact (Execution.refl _).next he.2.1
    | block w t uri key => exact .refl _
    | unblock w t e => exact (Execution.refl _).next he.2.2.2

/-- In a deadlock nothing is polled any more. -/
theorem deadlocked_stuck {s : State W} (h : Deadlocked env s) (e : Event W) :
    ¬Enabled env s e := by
  intro he
  cases e with
  | act e =>
    obtain ⟨w, hw⟩ := he.1
    obtain ⟨t, uri, key, holder, ht, _⟩ := h w
    rw [hw] at ht
    cases ht
  | block w t uri key =>
    obtain ⟨t', uri', key', holder, ht, _⟩ := h w
    rw [he.1] at ht
    cases ht
  | unblock w t e =>
    obtain ⟨hw, hentry, htask, hcore⟩ := he
    obtain ⟨t', uri, key, holder, ht, hp, hk, hl, _⟩ := h w
    obtain rfl := Option.some.inj (hw.symm.trans ht)
    have hheld : ∀ {uri' key'}, s.core.phase t = .start uri' → uri'.authority = some key' →
        s.core.lock (env.shard key') ≠ none := by
      intro uri' key' hp' hk'
      obtain rfl := Phase.start.inj (hp.symm.trans hp')
      obtain rfl := Option.some.inj (hk.symm.trans hk')
      rw [hl]
      exact Option.some_ne_none holder
    cases e with
    | occupied t' uri' key' session =>
      obtain rfl := Option.some.inj htask
      exact hheld hcore.1 hcore.2.1 hcore.2.2.1
    | vacant t' uri' key' =>
      obtain rfl := Option.some.inj htask
      exact hheld hcore.1 hcore.2.1 hcore.2.2.1
    | _ => cases hentry

theorem deadlock_is_final {s u : State W} (h : Deadlocked env s)
    (hu : Execution (system W env) s u) : u = s := by
  induction hu with
  | refl => rfl
  | tail _ hstep ih =>
    subst ih
    exact (deadlocked_stuck h _ hstep.1).elim

/-- A blocked thread is at the lookup of its call, and no other thread runs this call. -/
structure ThreadInvariant (s : State W) : Prop where
  waiting : ∀ w t, s.threads w = some t → ∃ uri, s.core.phase t = .start uri
  alone : ∀ w w' t, s.threads w = some t → s.threads w' = some t → w = w'

/-- Only its own events change where a call stands. -/
theorem phase_frame {s : SessionPool.State} {e : SessionPool.Event} {t : ℕ}
    (h : task e ≠ some t) : (SessionPool.next env s e).phase t = s.phase t := by
  cases e with
  | close session => rfl
  | _ =>
    have hne : t ≠ _ := fun he => h (congrArg some he.symm)
    simp [SessionPool.next, SessionPool.State.finish, SessionPool.State.send,
      SessionPool.State.establish, SessionPool.State.setPhase, SessionPool.State.release, hne]

theorem step_preserves_threads {s : State W} {e : Event W} (h : ThreadInvariant s)
    (he : Enabled env s e) : ThreadInvariant (next env s e) := by
  cases e with
  | act e =>
    refine ⟨?_, h.alone⟩
    intro w t hw
    obtain ⟨uri, hp⟩ := h.waiting w t hw
    have hrunning : s.threads w = some t := hw
    have htask : task e ≠ some t := fun ht =>
      he.2.2 w (by rw [hrunning]; rfl) (hrunning.trans ht.symm)
    exact ⟨uri, (phase_frame htask).trans hp⟩
  | block w t uri key =>
    constructor
    · intro w' t' hw
      by_cases hww : w' = w
      · subst hww
        obtain rfl : t = t' := by simpa [next] using hw
        exact ⟨uri, he.2.2.1⟩
      · exact h.waiting w' t' (by simpa [next, hww] using hw)
    · intro w₁ w₂ t' h₁ h₂
      by_cases e₁ : w₁ = w <;> by_cases e₂ : w₂ = w
      · rw [e₁, e₂]
      · subst e₁
        obtain rfl : t = t' := by simpa [next] using h₁
        exact (he.2.1 w₂ (by simpa [next, e₂] using h₂)).elim
      · subst e₂
        obtain rfl : t = t' := by simpa [next] using h₂
        exact (he.2.1 w₁ (by simpa [next, e₁] using h₁)).elim
      · exact h.alone w₁ w₂ t' (by simpa [next, e₁] using h₁) (by simpa [next, e₂] using h₂)
  | unblock w t e =>
    have hold : ∀ {w' t'}, (next env s (.unblock w t e)).threads w' = some t' →
        w' ≠ w ∧ s.threads w' = some t' := by
      intro w' t' hw
      by_cases hww : w' = w
      · simp [next, hww] at hw
      · exact ⟨hww, by simpa [next, hww] using hw⟩
    constructor
    · intro w' t' hw
      obtain ⟨hne, hw⟩ := hold hw
      obtain ⟨uri, hp⟩ := h.waiting w' t' hw
      have htask : task e ≠ some t' := by
        intro ht
        obtain rfl := Option.some.inj (he.2.2.1.symm.trans ht)
        exact hne (h.alone w' w t hw he.1)
      exact ⟨uri, (phase_frame htask).trans hp⟩
    · intro w₁ w₂ t' h₁ h₂
      exact h.alone w₁ w₂ t' (hold h₁).2 (hold h₂).2

theorem reachable_threads {s : State W} (h : Reachable (system W env) s) :
    ThreadInvariant s := by
  refine reachable_of_step ?_ (fun _ _ => step_preserves_threads) h
  constructor
  · intro w t hw
    cases hw
  · intro w w' t hw
    cases hw

end steps

/-- Task number `t` makes the `t`-th of the given calls, for every `t`. -/
def callsEnvironment (shard : Str → ℕ) (connects : Uri → Prop) (calls : List Uri) :
    Environment where
  shard := shard
  requests t uri := calls[t]? = some uri
  connects := connects

instance (shard : Str → ℕ) (connects : Uri → Prop) (calls : List Uri) (t : ℕ) (uri : Uri) :
    Decidable ((callsEnvironment shard connects calls).requests t uri) :=
  inferInstanceAs (Decidable (_ = _))

instance (shard : Str → ℕ) (connects : Uri → Prop) [h : DecidablePred connects]
    (calls : List Uri) : DecidablePred (callsEnvironment shard connects calls).connects := h

def shardOf (shard : Str → ℕ) (calls : List Uri) (t : ℕ) : Option ℕ :=
  (calls[t]?.bind Uri.authority).map shard

def lookups (calls : List Uri) : Finset ℕ :=
  (Finset.range calls.length).filter fun t => (calls[t]?.bind Uri.authority).isSome

def shards (shard : Str → ℕ) (calls : List Uri) : Finset (Option ℕ) :=
  (lookups calls).image (shardOf shard calls)

section counting

variable {shard : Str → ℕ} {connects : Uri → Prop} {calls : List Uri}

theorem mem_lookups {t : ℕ} {uri : Uri} {key : Str} (hcall : calls[t]? = some uri)
    (hkey : uri.authority = some key) :
    t ∈ lookups calls ∧ shardOf shard calls t = some (shard key) := by
  have hlt := (List.getElem?_eq_some_iff.mp hcall).1
  constructor
  · rw [lookups, Finset.mem_filter, Finset.mem_range]
    exact ⟨hlt, by simp [hcall, hkey]⟩
  · simp [shardOf, hcall, hkey]

theorem lookups_spec (shard : Str → ℕ) {t : ℕ} (h : t ∈ lookups calls) :
    ∃ uri key, calls[t]? = some uri ∧ uri.authority = some key ∧
      shardOf shard calls t = some (shard key) := by
  obtain ⟨key, hkey⟩ := Option.isSome_iff_exists.mp (Finset.mem_filter.mp h).2
  obtain ⟨uri, hcall, hauth⟩ := Option.bind_eq_some_iff.mp hkey
  exact ⟨uri, key, hcall, hauth, (mem_lookups hcall hauth).2⟩

theorem holder_lookup {s : SessionPool.State}
    (hs : Reachable (SessionPool.system (callsEnvironment shard connects calls)) s) {k t : ℕ}
    (hl : s.lock k = some t) :
    t ∈ lookups calls ∧ shardOf shard calls t = some k ∧
      ∀ uri, s.phase t ≠ .start uri := by
  have hsound := (PoolHistory.reachable_pool hs).calls t
  have hasked := (SessionPool.reachable_requests hs).asked t
  obtain ⟨key, hkey, rfl⟩ := (SessionPool.reachable_locks hs).holder k t hl
  cases hp : s.phase t with
  | connecting uri key' =>
    rw [hp] at hkey hsound hasked
    obtain rfl := Option.some.inj hkey
    obtain ⟨hmem, hshard⟩ := mem_lookups (hasked uri rfl) hsound.1
    exact ⟨hmem, hshard, fun _ he => Phase.noConfusion he⟩
  | handshaking uri key' conn =>
    rw [hp] at hkey hsound hasked
    obtain rfl := Option.some.inj hkey
    obtain ⟨hmem, hshard⟩ := mem_lookups (hasked uri rfl) hsound.1
    exact ⟨hmem, hshard, fun _ he => Phase.noConfusion he⟩
  | _ =>
    rw [hp] at hkey
    cases hkey

/-- A deadlock takes a blocked call for each thread and a further call for each shard. -/
theorem deadlock_needs {s : State W}
    (hs : Reachable (system W (callsEnvironment shard connects calls)) s)
    (hd : Deadlocked (callsEnvironment shard connects calls) s) :
    W + (shards shard calls).card ≤ (lookups calls).card := by
  have hcore := refines_pool.reachable hs
  have hthreads := reachable_threads hs
  choose blocked uri key holder hthread hphase hauth hlock _ using hd
  have hinj : Function.Injective blocked := by
    intro w w' hww
    exact hthreads.alone w w' (blocked w) (hthread w) (hww ▸ hthread w')
  have hblocked : ∀ w, blocked w ∈ lookups calls ∧
      shardOf shard calls (blocked w) = some (shard (key w)) := by
    intro w
    refine mem_lookups ?_ (hauth w)
    exact (SessionPool.reachable_requests hcore).asked (blocked w) (uri w) (by rw [hphase w]; rfl)
  have hsub : shards shard calls ⊆
      (lookups calls \ Finset.univ.image blocked).image (shardOf shard calls) := by
    intro k hk
    obtain ⟨t, ht, rfl⟩ := Finset.mem_image.mp hk
    by_cases hmem : t ∈ Finset.univ.image blocked
    · obtain ⟨w, _, rfl⟩ := Finset.mem_image.mp hmem
      obtain ⟨hlookup, hshard, hstart⟩ := holder_lookup hcore (hlock w)
      refine Finset.mem_image.mpr ⟨holder w, Finset.mem_sdiff.mpr ⟨hlookup, ?_⟩, ?_⟩
      · intro hb
        obtain ⟨w', _, hw'⟩ := Finset.mem_image.mp hb
        exact hstart (uri w') (hw' ▸ hphase w')
      · exact hshard.trans (hblocked w).2.symm
    · exact Finset.mem_image_of_mem _ (Finset.mem_sdiff.mpr ⟨ht, hmem⟩)
  have himage : (Finset.univ.image blocked).card = W := by
    rw [Finset.card_image_of_injective _ hinj, Finset.card_univ, Fintype.card_fin]
  have hincl : Finset.univ.image blocked ⊆ lookups calls := by
    intro t ht
    obtain ⟨w, _, rfl⟩ := Finset.mem_image.mp ht
    exact (hblocked w).1
  have hcard := (Finset.card_le_card hsub).trans Finset.card_image_le
  have hle := Finset.card_le_card hincl
  rw [Finset.card_sdiff_of_subset hincl] at hcard
  omega

/-- Calls are made, find no session, and block; none of them comes to send. -/
def Opens : Event W → Prop
  | .act (.call ..) => True
  | .act (.vacant ..) => True
  | .block .. => True
  | _ => False

/-- The runs up to a deadlock. -/
def opening (W : ℕ) (env : Environment) : System (State W) (Event W) :=
  (system W env).restrict Opens

/-- On free threads, the calls of `T` have been made, and for the shards of `D` one of them has
taken the shard and connects. -/
structure Prepared (shard : Str → ℕ) (connects : Uri → Prop) (calls : List Uri)
    (first : Option ℕ → ℕ) (T : Finset ℕ) (D : Finset (Option ℕ)) (s : State W) : Prop where
  reachable : Reachable (opening W (callsEnvironment shard connects calls)) s
  free : s.threads = fun _ => none
  pool : s.core.pool = []
  called : ∀ t ∈ T, t ∉ D.image first → ∀ uri, calls[t]? = some uri →
    s.core.phase t = .start uri
  later : ∀ t, t ∉ T → s.core.phase t = .idle
  locked : ∀ k, some k ∈ D → s.core.lock k = some (first (some k)) ∧
    (s.core.phase (first (some k))).vacantKey.isSome = true
  unlocked : ∀ k, some k ∉ D → s.core.lock k = none

variable {first : Option ℕ → ℕ}

/-- While no thread is blocked, an event of the pool needs nothing of the threads. -/
theorem enabled_of_free {env : Environment} {s : State W} (hW : 0 < W)
    (hfree : s.threads = fun _ => none) {e : SessionPool.Event}
    (he : SessionPool.Enabled env s.core e) : Enabled env s (.act e) := by
  refine ⟨⟨⟨0, hW⟩, congrFun hfree _⟩, he, ?_⟩
  intro w hw
  rw [hfree] at hw
  cases hw

/-- A call that has not been made is made. -/
theorem Prepared.call {s : State W} {T : Finset ℕ} (hW : 0 < W)
    (h : Prepared shard connects calls first T ∅ s) {t : ℕ} (ht : t ∉ T)
    (hlookup : t ∈ lookups calls) :
    ∃ s' : State W, Prepared shard connects calls first (insert t T) ∅ s' := by
  obtain ⟨uri, key, hcall, _⟩ := lookups_spec shard hlookup
  have he : (opening W (callsEnvironment shard connects calls)).Enabled s (.act (.call t uri)) :=
    ⟨enabled_of_free hW h.free ⟨h.later t ht, hcall⟩, trivial⟩
  refine ⟨_, Execution.next h.reachable he, h.free, h.pool, ?_, ?_, ?_, h.unlocked⟩
  · intro t' ht' _ uri' hcall'
    by_cases htt : t' = t
    · subst htt
      obtain rfl := Option.some.inj (hcall.symm.trans hcall')
      exact Function.update_self ..
    · have hold := h.called t' (Finset.mem_of_mem_insert_of_ne ht' htt) (by simp) uri' hcall'
      exact (Function.update_of_ne htt ..).trans hold
  · intro t' ht'
    obtain ⟨hne, hnot⟩ := not_or.mp fun hor => ht' (Finset.mem_insert.mpr hor)
    exact (Function.update_of_ne hne ..).trans (h.later t' hnot)
  · intro k hk
    exact (Finset.notMem_empty _ hk).elim

theorem prepared_calls (hW : 0 < W) {T : Finset ℕ} (hT : T ⊆ lookups calls) :
    ∃ s : State W, Prepared shard connects calls first T ∅ s := by
  induction T using Finset.induction_on with
  | empty =>
    refine ⟨initial, .refl _, rfl, rfl, ?_, ?_, ?_, ?_⟩
    · intro t ht
      exact (Finset.notMem_empty t ht).elim
    · intro t _
      rfl
    · intro k hk
      exact (Finset.notMem_empty _ hk).elim
    · intro k _
      rfl
  | insert t T ht ih =>
    obtain ⟨s, h⟩ := ih fun t' ht' => hT (Finset.mem_insert_of_mem ht')
    exact h.call hW ht (hT (Finset.mem_insert_self t T))

/-- The call chosen for a shard that is free takes it. -/
theorem Prepared.lock {s : State W} {D : Finset (Option ℕ)} {k : Option ℕ} (hW : 0 < W)
    (h : Prepared shard connects calls first (lookups calls) D s) (hk : k ∉ D)
    (hlookup : first k ∈ lookups calls) (hshard : shardOf shard calls (first k) = k)
    (hfresh : ∀ k' ∈ D, first k' ≠ first k) :
    ∃ s' : State W, Prepared shard connects calls first (lookups calls) (insert k D) s' := by
  obtain ⟨uri, key, hcall, hkey, hshard'⟩ := lookups_spec shard hlookup
  obtain rfl : k = some (shard key) := hshard.symm.trans hshard'
  have hstart : s.core.phase (first (some (shard key))) = .start uri := by
    refine h.called _ hlookup ?_ uri hcall
    intro hmem
    obtain ⟨k', hk', heq⟩ := Finset.mem_image.mp hmem
    exact hfresh k' hk' heq
  have hentry : s.core.entry key = .vacant := by
    simp [SessionPool.State.entry, h.pool]
  have he : (opening W (callsEnvironment shard connects calls)).Enabled s
      (.act (.vacant (first (some (shard key))) uri key)) :=
    ⟨enabled_of_free hW h.free ⟨hstart, hkey, h.unlocked _ hk, hentry⟩, trivial⟩
  refine ⟨_, Execution.next h.reachable he, h.free, h.pool, ?_, ?_, ?_, ?_⟩
  · intro t ht hnot uri' hcall'
    have hne : t ≠ first (some (shard key)) := by
      rintro rfl
      exact hnot (Finset.mem_image_of_mem _ (Finset.mem_insert_self _ D))
    have hnot' : t ∉ D.image first := fun hmem =>
      hnot (Finset.image_subset_image (Finset.subset_insert _ D) hmem)
    exact (Function.update_of_ne hne ..).trans (h.called t ht hnot' uri' hcall')
  · intro t ht
    have hne : t ≠ first (some (shard key)) := by
      rintro rfl
      exact ht hlookup
    exact (Function.update_of_ne hne ..).trans (h.later t ht)
  · intro k' hk'
    by_cases hkk : k' = shard key
    · subst hkk
      refine ⟨Function.update_self .., ?_⟩
      simp [opening, System.restrict, system, next, SessionPool.next, SessionPool.State.setPhase,
        Phase.vacantKey]
    · have hmem : some k' ∈ D :=
        Finset.mem_of_mem_insert_of_ne hk' fun he => hkk (Option.some.inj he)
      obtain ⟨hl, hv⟩ := h.locked k' hmem
      refine ⟨(Function.update_of_ne hkk ..).trans hl, ?_⟩
      have hphase := Function.update_of_ne (hfresh (some k') hmem)
        (Phase.connecting uri key) s.core.phase
      exact (congrArg (fun p => p.vacantKey.isSome) hphase).trans hv
  · intro k' hk'
    obtain ⟨hne, hnot⟩ := not_or.mp fun hor => hk' (Finset.mem_insert.mpr hor)
    have hkk : k' ≠ shard key := fun he => hne (congrArg some he)
    exact (Function.update_of_ne hkk ..).trans (h.unlocked k' hnot)

theorem prepared_locks (connects : Uri → Prop) (hW : 0 < W)
    (hfirst : ∀ k ∈ shards shard calls, first k ∈ lookups calls ∧
      shardOf shard calls (first k) = k)
    {D : Finset (Option ℕ)} (hD : D ⊆ shards shard calls) :
    ∃ s : State W, Prepared shard connects calls first (lookups calls) D s := by
  induction D using Finset.induction_on with
  | empty => exact prepared_calls hW (Finset.Subset.refl _)
  | insert k D hk ih =>
    obtain ⟨s, h⟩ := ih fun k' hk' => hD (Finset.mem_insert_of_mem hk')
    obtain ⟨hlookup, hshard⟩ := hfirst k (hD (Finset.mem_insert_self k D))
    refine h.lock hW hk hlookup hshard ?_
    intro k' hk' heq
    have hsame := (hfirst k' (hD (Finset.mem_insert_of_mem hk'))).2
    rw [heq, hshard] at hsame
    exact hk (hsame ▸ hk')

theorem threads_block {s : State W}
    (h : Prepared shard connects calls first (lookups calls) (shards shard calls) s)
    {other : Fin W → ℕ} (hinj : Function.Injective other)
    (hother : ∀ w, other w ∈ lookups calls ∧ other w ∉ (shards shard calls).image first)
    (V : Finset (Fin W)) :
    Reachable (opening W (callsEnvironment shard connects calls))
      { s with threads := fun w => if w ∈ V then some (other w) else none } := by
  induction V using Finset.induction_on with
  | empty =>
    have hnone : { s with threads := fun w => if w ∈ (∅ : Finset (Fin W)) then some (other w)
        else none } = s := by
      simp [← h.free]
    rw [hnone]
    exact h.reachable
  | insert w V hw ih =>
    obtain ⟨uri, key, hcall, hkey, hshard⟩ := lookups_spec shard (hother w).1
    have hmem : some (shard key) ∈ shards shard calls :=
      hshard ▸ Finset.mem_image_of_mem _ (hother w).1
    have hheld : s.core.lock (shard key) ≠ none := by
      rw [(h.locked (shard key) hmem).1]
      exact Option.some_ne_none _
    have he : (opening W (callsEnvironment shard connects calls)).Enabled
        { s with threads := fun w => if w ∈ V then some (other w) else none }
        (.block w (other w) uri key) := by
      refine ⟨⟨if_neg hw, ?_, h.called _ (hother w).1 (hother w).2 uri hcall, hkey, hheld⟩,
        trivial⟩
      intro w' hw'
      by_cases hV : w' ∈ V
      · have heq : other w' = other w := by simpa [hV] using hw'
        exact hw (hinj heq ▸ hV)
      · simp [hV] at hw'
    have hthreads : Function.update (fun w => if w ∈ V then some (other w) else none) w
        (some (other w)) = fun w' => if w' ∈ insert w V then some (other w') else none := by
      funext w'
      by_cases hww : w' = w
      · subst hww
        simp
      · simp [hww]
    exact hthreads ▸ Execution.next ih he

theorem deadlock_from (connects : Uri → Prop)
    (hcount : W + (shards shard calls).card ≤ (lookups calls).card) :
    ∃ s : State W, Reachable (opening W (callsEnvironment shard connects calls)) s ∧
      Deadlocked (callsEnvironment shard connects calls) s := by
  rcases Nat.eq_zero_or_pos W with rfl | hW
  · exact ⟨initial, .refl _, fun w => w.elim0⟩
  · have hfirst : ∀ k : Option ℕ, ∃ t, k ∈ shards shard calls →
        t ∈ lookups calls ∧ shardOf shard calls t = k := by
      intro k
      by_cases hk : k ∈ shards shard calls
      · obtain ⟨t, ht, hshard⟩ := Finset.mem_image.mp hk
        exact ⟨t, fun _ => ⟨ht, hshard⟩⟩
      · exact ⟨0, fun hmem => (hk hmem).elim⟩
    choose first hfirst using hfirst
    obtain ⟨s, h⟩ := prepared_locks connects hW hfirst (Finset.Subset.refl _)
    have hcard : W ≤ (lookups calls \ (shards shard calls).image first).card := by
      have hle := Finset.le_card_sdiff ((shards shard calls).image first) (lookups calls)
      have himage : ((shards shard calls).image first).card ≤ (shards shard calls).card :=
        Finset.card_image_le
      omega
    obtain ⟨B, hB, hBcard⟩ := Finset.exists_subset_card_eq hcard
    have hother : ∀ w, B.orderEmbOfFin hBcard w ∈ lookups calls ∧
        B.orderEmbOfFin hBcard w ∉ (shards shard calls).image first := fun w =>
      Finset.mem_sdiff.mp (hB (Finset.orderEmbOfFin_mem B hBcard w))
    have hrun := threads_block h (B.orderEmbOfFin hBcard).injective hother Finset.univ
    refine ⟨_, hrun, ?_⟩
    intro w
    obtain ⟨uri, key, hcall, hkey, hshard⟩ := lookups_spec shard (hother w).1
    obtain ⟨hl, hv⟩ := h.locked (shard key) (hshard ▸ Finset.mem_image_of_mem _ (hother w).1)
    exact ⟨B.orderEmbOfFin hBcard w, uri, key, first (some (shard key)), by simp,
      h.called _ (hother w).1 (hother w).2 uri hcall, hkey, hl, hv⟩

end counting

/-- No run deadlocks exactly when the calls with an authority are fewer than the threads and
the shards of their authorities together. -/
theorem no_deadlock_iff (W : ℕ) (shard : Str → ℕ) (connects : Uri → Prop) (calls : List Uri) :
    (∀ s : State W, Reachable (system W (callsEnvironment shard connects calls)) s →
      ¬Deadlocked (callsEnvironment shard connects calls) s) ↔
      (lookups calls).card < W + (shards shard calls).card := by
  constructor
  · intro h
    by_contra hcount
    obtain ⟨s, hs, hd⟩ := deadlock_from connects (Nat.not_lt.mp hcount)
    exact h s (reachable_of_restrict hs) hd
  · intro hcount s hs hd
    exact Nat.not_lt.mpr (deadlock_needs hs hd) hcount

/-- The first call connects; the second is polled meanwhile, on the only thread. -/
def twoCallsToA : List (Event 1) :=
  [.act (.call 0 PoolHistory.uriA), .act (.call 1 PoolHistory.uriA),
    .act (.vacant 0 PoolHistory.uriA ['a']), .block 0 1 PoolHistory.uriA ['a']]

theorem two_calls_deadlock_one_thread :
    ∃ s : State 1, Reachable (system 1 (callsEnvironment (fun _ => 0) (fun _ => True)
        [PoolHistory.uriA, PoolHistory.uriA])) s ∧
      Deadlocked (callsEnvironment (fun _ => 0) (fun _ => True)
        [PoolHistory.uriA, PoolHistory.uriA]) s := by
  have hrun : (system 1 (callsEnvironment (fun _ => 0) (fun _ => True)
      [PoolHistory.uriA, PoolHistory.uriA])).Allowed initial twoCallsToA := by decide
  refine ⟨_, execution_run hrun, ?_⟩
  intro w
  obtain rfl : w = 0 := Fin.fin_one_eq_zero w
  exact ⟨1, PoolHistory.uriA, ['a'], 0, rfl, rfl, rfl, rfl, rfl⟩

end PoolExecutor
