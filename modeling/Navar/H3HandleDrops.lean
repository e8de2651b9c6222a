import Navar.H3Connections

/-! # Handles that are dropped

A handle may be dropped at any time, and the futures in its slots are dropped with it. A dropped
handle is kept here as it was, marked, so that what it held stays known. -/
namespace H3HandleDrops

open TransitionSystems
open H3Connections

variable {κ B U V ε : Type}

structure Handles (κ B U V ε : Type) where
  connection : State κ B U V ε
  dropped : List ℕ

inductive Action (B U V ε : Type) where
  | call (e : Event B U V ε)
  | drop (h : ℕ)

def handle : Event B U V ε → ℕ
  | .clone h => h
  | .opener h => h
  | .poll h _ => h

def Enabled (s : Handles κ B U V ε) : Action B U V ε → Prop
  | .call e => handle e ∉ s.dropped ∧ H3Connections.Enabled s.connection e
  | .drop h => h < s.connection.handles.length ∧ h ∉ s.dropped

def next (s : Handles κ B U V ε) : Action B U V ε → Handles κ B U V ε
  | .call e => { s with connection := H3Connections.next s.connection e }
  | .drop h => { s with dropped := s.dropped ++ [h] }

def dropping (B U V ε : Type) (inner : κ) : System (Handles κ B U V ε) (Action B U V ε) where
  initial := ⟨(system B U V ε inner).initial, []⟩
  Enabled := Enabled
  next := next

instance (inner : κ) (s : Handles κ B U V ε) (a : Action B U V ε) :
    Decidable ((dropping B U V ε inner).Enabled s a) := by
  cases a with
  | call e =>
    have hcall : Decidable (H3Connections.Enabled s.connection e) :=
      inferInstanceAs (Decidable ((system B U V ε inner).Enabled s.connection e))
    exact inferInstanceAs (Decidable (_ ∧ _))
  | drop h => exact inferInstanceAs (Decidable (_ ∧ _))

/-- The future was in a slot of a handle that has been dropped. -/
def Abandoned (s : Handles κ B U V ε) (h : ℕ) (k : Kind) (f : ℕ) : Prop :=
  h ∈ s.dropped ∧ slotAt s.connection h k = some (some f)

section drops

variable {inner : κ} {s t : Handles κ B U V ε}

/-- For the connection, a drop is no step at all. -/
theorem dropping_refines :
    Refines (dropping B U V ε inner) (system B U V ε inner) Handles.connection := by
  constructor
  · rfl
  · intro s a ha
    cases a with
    | call e => exact execution_step (M := system B U V ε inner) ha.2
    | drop h => exact .refl _

def Known (s : Handles κ B U V ε) : Prop := ∀ h ∈ s.dropped, h < s.connection.handles.length

theorem next_known {a : Action B U V ε} (hs : Known s) (ha : Enabled s a) : Known (next s a) := by
  cases a with
  | call e =>
    intro h hh
    exact Nat.lt_of_lt_of_le (hs h hh) (handles_next s.connection e)
  | drop h =>
    intro h' hh'
    rcases List.mem_append.mp hh' with hold | hnew
    · exact hs h' hold
    · rw [List.mem_singleton.mp hnew]
      exact ha.1

theorem reachable_known (hs : Reachable (dropping B U V ε inner) s) : Known s := by
  apply reachable_of_step _ (fun _ _ hs ha => next_known hs ha) hs
  intro h hh
  cases hh

/-- No step touches what a dropped handle held. -/
theorem slotAt_kept {a : Action B U V ε} (hs : Known s) (ha : Enabled s a) {h : ℕ}
    (hh : h ∈ s.dropped) (k : Kind) :
    slotAt (next s a).connection h k = slotAt s.connection h k := by
  cases a with
  | call e =>
    apply slotAt_next _ (hs h hh)
    intro hpolls
    apply ha.1
    cases e with
    | poll h' call =>
      obtain ⟨rfl, _⟩ := hpolls
      exact hh
    | _ => cases hpolls
  | drop h' => rfl

theorem dropped_grows (a : Action B U V ε) : s.dropped <+: (next s a).dropped := by
  cases a with
  | call e => exact List.prefix_refl _
  | drop h => exact List.prefix_append _ _

theorem abandoned_for_ever (hs : Known s) (h : Execution (dropping B U V ε inner) s t) {i f : ℕ}
    {k : Kind} (hf : Abandoned s i k f) : Abandoned t i k f := by
  have hrun : Known t ∧ Abandoned t i k f := by
    apply execution_invariant (P := fun t => Known t ∧ Abandoned t i k f) _ h ⟨hs, hf⟩
    rintro u a ⟨hu, hmem, hslot⟩ ha
    refine ⟨next_known hu ha, (dropped_grows a).subset hmem, ?_⟩
    rw [← hslot]
    exact slotAt_kept hu ha hmem k
  exact hrun.2

end drops

/-- What becomes of the futures, whichever handles are dropped and when: each one has completed
and its result has been returned, or is in its slot of a living handle, or is abandoned for ever
with the handle that started it, one of a kind at most; and what a living handle polls answers. -/
structure Accounted (inner : κ) (s : Handles κ B U V ε) : Prop where
  returned : List.Forall₂ (Delivers s.connection) s.connection.returned
    s.connection.futures.completed
  once : (s.connection.futures.completed.map Prod.fst).Nodup
  fate : ∀ f k, s.connection.futures.started[f]? = some k →
    f ∈ s.connection.futures.completed.map Prod.fst ∨
      ∃ h, s.connection.starters[f]? = some h ∧ slotAt s.connection h k = some (some f)
  abandoned : ∀ h k f, Abandoned s h k f → ∀ t, Execution (dropping B U V ε inner) s t →
    Abandoned t h k f ∧ f ∉ t.connection.futures.completed.map Prod.fst
  single : ∀ h k f g, Abandoned s h k f → Abandoned s h k g → f = g
  answered : ∀ h c (call : Call B U V ε), h ∉ s.dropped → s.connection.handles[h]? = some c →
    (call.run c s.connection.futures).isSome

theorem drops_lose_no_result {inner : κ} {s : Handles κ B U V ε}
    (hs : Reachable (dropping B U V ε inner) s) : Accounted inner s := by
  have hi := reachable_invariant (dropping_refines.reachable hs)
  constructor
  · exact hi.returned
  · exact hi.once
  · intro f k hf
    by_cases hdone : f ∈ s.connection.futures.completed.map Prod.fst
    · exact Or.inl hdone
    · obtain ⟨hlt, _⟩ := List.getElem?_eq_some_iff.mp hf
      obtain ⟨h, hstarter⟩ : ∃ h, s.connection.starters[f]? = some h :=
        ⟨_, List.getElem?_eq_getElem (hi.starters ▸ hlt)⟩
      exact Or.inr ⟨h, hstarter, (hi.slots h k f).mpr ⟨hf, hstarter, hdone⟩⟩
  · intro h k f hf t ht
    have hkept := abandoned_for_ever (reachable_known hs) ht hf
    have hit := reachable_invariant (dropping_refines.reachable (hs.trans ht))
    exact ⟨hkept, ((hit.slots h k f).mp hkept.2).2.2⟩
  · intro h k f g hf hg
    exact Option.some.inj (Option.some.inj (hf.2.symm.trans hg.2))
  · intro h c call _ hc
    exact run_isSome hi hc call

/-- A handle is dropped while it opens a stream; the connection serves the other handle. -/
def droppedWhileOpening : List (Action ℕ ℕ ℕ Unit) :=
  [.call (.opener 0), .call (.poll 1 (.openBidi .pending)), .drop 1,
    .call (.poll 0 (.openBidi (.ready (.ok 7))))]

theorem drops_lose_no_result_opening :
    let s := (dropping ℕ ℕ ℕ Unit ()).run (dropping ℕ ℕ ℕ Unit ()).initial droppedWhileOpening
    Accounted () s ∧ Abandoned s 1 .openBidi 0 :=
  ⟨drops_lose_no_result (execution_run (by decide)), by decide, rfl⟩

end H3HandleDrops
