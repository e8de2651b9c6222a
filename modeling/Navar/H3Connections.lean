import Mathlib.Data.List.Forall2
import Navar.H3Adapter

/-! # Streams of an HTTP/3 connection

The adapter turns the four operations of a connection that open or accept a stream into polls.
Each handle keeps the future of an operation in a slot until the future has completed; a clone
starts with empty slots. The futures belong to the inner connection: it numbers them as they are
started, and what a future answers when it is polled is arbitrary. -/
namespace H3Connections

open PollStreams (Poll)
open TransitionSystems
open H3Adapter

variable {κ B U V ε σ ω E : Type}

inductive Kind where
  | openBidi
  | openSend
  | acceptBidi
  | acceptRecv
  deriving DecidableEq, Repr

/-- What a completed future produces: a bidirectional, a sending or a receiving stream. -/
inductive Product (B U V : Type) where
  | bidi (stream : B)
  | send (stream : U)
  | recv (stream : V)

structure Futures (B U V ε : Type) where
  started : List Kind
  completed : List (ℕ × Except ε (Product B U V))

namespace Futures

def start (w : Futures B U V ε) (kind : Kind) : Futures B U V ε :=
  { w with started := w.started ++ [kind] }

/-- A completed future panics when it is polled again. -/
def poll (w : Futures B U V ε) (fut : ℕ) (answer : Poll (Except ε (Product B U V))) :
    Option (Futures B U V ε) :=
  if fut ∈ w.completed.map Prod.fst then none
  else
    match answer with
    | .pending => some w
    | .ready result => some { w with completed := w.completed ++ [(fut, result)] }

end Futures

structure H3RecvStream (V : Type) where
  inner : V

structure H3Connection (κ : Type) where
  inner : κ
  acceptBidiFut : Option ℕ
  acceptUniFut : Option ℕ
  openBidiFut : Option ℕ
  openUniFut : Option ℕ

namespace H3Connection

def new (inner : κ) : H3Connection κ :=
  { inner := inner
    acceptBidiFut := none
    acceptUniFut := none
    openBidiFut := none
    openUniFut := none }

def clone (c : H3Connection κ) : H3Connection κ :=
  { inner := c.inner
    acceptBidiFut := none
    acceptUniFut := none
    openBidiFut := none
    openUniFut := none }

def opener (c : H3Connection κ) : H3Connection κ := c.clone

def slot (c : H3Connection κ) : Kind → Option ℕ
  | .openBidi => c.openBidiFut
  | .openSend => c.openUniFut
  | .acceptBidi => c.acceptBidiFut
  | .acceptRecv => c.acceptUniFut

def setSlot (c : H3Connection κ) (fut : Option ℕ) : Kind → H3Connection κ
  | .openBidi => { c with openBidiFut := fut }
  | .openSend => { c with openUniFut := fut }
  | .acceptBidi => { c with acceptBidiFut := fut }
  | .acceptRecv => { c with acceptUniFut := fut }

/-- The body of the four polls: an empty slot is filled with a new future, the future is polled,
and the slot is emptied when the future has completed. Every round of the loop returns. -/
def pollSlot (kind : Kind) (product : σ → Product B U V) (wrap : σ → ω) (failure : E)
    (answer : Poll (Except ε σ)) (c : H3Connection κ) (w : Futures B U V ε) :
    Option (H3Connection κ × Futures B U V ε × Poll (Except E ω)) := do
  let (c, w, fut) :=
    match c.slot kind with
    | some fut => (c, w, fut)
    | none => (c.setSlot (some w.started.length) kind, w.start kind, w.started.length)
  match answer with
  | .ready (.ok stream) => do
    let w ← w.poll fut (.ready (.ok (product stream)))
    some (c.setSlot none kind, w, .ready (.ok (wrap stream)))
  | .ready (.error e) => do
    let w ← w.poll fut (.ready (.error e))
    some (c.setSlot none kind, w, .ready (.error failure))
  | .pending => do
    let w ← w.poll fut .pending
    some (c, w, .pending)

def pollOpenBidi (answer : Poll (Except ε B)) (c : H3Connection κ) (w : Futures B U V ε) :
    Option (H3Connection κ × Futures B U V ε ×
      Poll (Except StreamErrorIncoming (H3BidiStream B))) :=
  c.pollSlot .openBidi .bidi H3BidiStream.new streamError answer w

def pollOpenSend (answer : Poll (Except ε U)) (c : H3Connection κ) (w : Futures B U V ε) :
    Option (H3Connection κ × Futures B U V ε ×
      Poll (Except StreamErrorIncoming (H3SendStream U))) :=
  c.pollSlot .openSend .send H3SendStream.new streamError answer w

def pollAcceptBidi (answer : Poll (Except ε B)) (c : H3Connection κ) (w : Futures B U V ε) :
    Option (H3Connection κ × Futures B U V ε ×
      Poll (Except ConnectionErrorIncoming (H3BidiStream B))) :=
  c.pollSlot .acceptBidi .bidi H3BidiStream.new connClosed answer w

def pollAcceptRecv (answer : Poll (Except ε V)) (c : H3Connection κ) (w : Futures B U V ε) :
    Option (H3Connection κ × Futures B U V ε ×
      Poll (Except ConnectionErrorIncoming (H3RecvStream V))) :=
  c.pollSlot .acceptRecv .recv H3RecvStream.mk connClosed answer w

end H3Connection

/-- What a poll hands out, of any of the four kinds. -/
inductive Adapted (B U V : Type) where
  | bidi (stream : H3BidiStream B)
  | send (stream : H3SendStream U)
  | recv (stream : H3RecvStream V)

inductive Failure where
  | stream (e : StreamErrorIncoming)
  | connection (e : ConnectionErrorIncoming)
  deriving DecidableEq, Repr

/-- A poll, with what the future answers that it polls. -/
inductive Call (B U V ε : Type) where
  | openBidi (answer : Poll (Except ε B))
  | openSend (answer : Poll (Except ε U))
  | acceptBidi (answer : Poll (Except ε B))
  | acceptRecv (answer : Poll (Except ε V))

def mapPoll {E' ω' : Type} (f : E → E') (g : ω → ω') : Poll (Except E ω) → Poll (Except E' ω')
  | .pending => .pending
  | .ready (.ok x) => .ready (.ok (g x))
  | .ready (.error e) => .ready (.error (f e))

namespace Call

def kind : Call B U V ε → Kind
  | .openBidi _ => .openBidi
  | .openSend _ => .openSend
  | .acceptBidi _ => .acceptBidi
  | .acceptRecv _ => .acceptRecv

def answer : Call B U V ε → Poll (Except ε (Product B U V))
  | .openBidi answer => mapPoll id .bidi answer
  | .openSend answer => mapPoll id .send answer
  | .acceptBidi answer => mapPoll id .bidi answer
  | .acceptRecv answer => mapPoll id .recv answer

def run (call : Call B U V ε) (c : H3Connection κ) (w : Futures B U V ε) :
    Option (H3Connection κ × Futures B U V ε × Poll (Except Failure (Adapted B U V))) :=
  match call with
  | .openBidi answer => (c.pollOpenBidi answer w).map fun (c, w, result) =>
      (c, w, mapPoll .stream .bidi result)
  | .openSend answer => (c.pollOpenSend answer w).map fun (c, w, result) =>
      (c, w, mapPoll .stream .send result)
  | .acceptBidi answer => (c.pollAcceptBidi answer w).map fun (c, w, result) =>
      (c, w, mapPoll .connection .bidi result)
  | .acceptRecv answer => (c.pollAcceptRecv answer w).map fun (c, w, result) =>
      (c, w, mapPoll .connection .recv result)

end Call

def failure : Kind → Failure
  | .openBidi => .stream streamError
  | .openSend => .stream streamError
  | .acceptBidi => .connection connClosed
  | .acceptRecv => .connection connClosed

/-- What a poll makes of the result of its future. -/
def adapt (kind : Kind) : Except ε (Product B U V) → Except Failure (Adapted B U V)
  | .ok (.bidi stream) => .ok (.bidi (H3BidiStream.new stream))
  | .ok (.send stream) => .ok (.send (H3SendStream.new stream))
  | .ok (.recv stream) => .ok (.recv ⟨stream⟩)
  | .error _ => .error (failure kind)

structure Returned (B U V : Type) where
  handle : ℕ
  kind : Kind
  result : Except Failure (Adapted B U V)

/-- The handles on a connection, numbered; which of them started each future; and the results
that the polls have returned. -/
structure State (κ B U V ε : Type) where
  handles : List (H3Connection κ)
  futures : Futures B U V ε
  starters : List ℕ
  returned : List (Returned B U V)

inductive Event (B U V ε : Type) where
  | clone (h : ℕ)
  | opener (h : ℕ)
  | poll (h : ℕ) (call : Call B U V ε)

def ready {α : Type} : Poll α → List α
  | .pending => []
  | .ready a => [a]

def next (s : State κ B U V ε) : Event B U V ε → State κ B U V ε
  | .clone h => { s with handles := s.handles ++ (s.handles[h]?.map H3Connection.clone).toList }
  | .opener h => { s with handles := s.handles ++ (s.handles[h]?.map H3Connection.opener).toList }
  | .poll h call =>
    match s.handles[h]?.bind fun c => call.run c s.futures with
    | some (c, futures, result) =>
      { handles := s.handles.set h c
        futures := futures
        starters := s.starters ++
          List.replicate (futures.started.length - s.futures.started.length) h
        returned := s.returned ++ (ready result).map (⟨h, call.kind, ·⟩) }
    | none => s

def Enabled (s : State κ B U V ε) : Event B U V ε → Prop
  | .clone h => h < s.handles.length
  | .opener h => h < s.handles.length
  | .poll h _ => h < s.handles.length

def system (B U V ε : Type) (inner : κ) : System (State κ B U V ε) (Event B U V ε) where
  initial := ⟨[H3Connection.new inner], ⟨[], []⟩, [], []⟩
  Enabled := Enabled
  next := next

instance (inner : κ) (s : State κ B U V ε) (e : Event B U V ε) :
    Decidable ((system B U V ε inner).Enabled s e) := by
  cases e <;> exact Nat.decLt _ _

section polls

@[simp] theorem slot_setSlot (c : H3Connection κ) (fut : Option ℕ) (k k' : Kind) :
    (c.setSlot fut k).slot k' = if k' = k then fut else c.slot k' := by
  cases k <;> cases k' <;> rfl

@[simp] theorem slot_new (inner : κ) (k : Kind) : (H3Connection.new inner).slot k = none := by
  cases k <;> rfl

@[simp] theorem slot_clone (c : H3Connection κ) (k : Kind) : c.clone.slot k = none := by
  cases k <;> rfl

@[simp] theorem setSlot_setSlot (c : H3Connection κ) (f g : Option ℕ) (k : Kind) :
    (c.setSlot f k).setSlot g k = c.setSlot g k := by
  cases k <;> rfl

/-- The handle and the futures once the slot is filled. -/
def begun (c : H3Connection κ) (w : Futures B U V ε) (kind : Kind) :
    H3Connection κ × Futures B U V ε × ℕ :=
  match c.slot kind with
  | some fut => (c, w, fut)
  | none => (c.setSlot (some w.started.length) kind, w.start kind, w.started.length)

/-- A poll polls the future of its slot, and empties the slot when the future has completed. -/
theorem pollSlot_eq {kind : Kind} {product : σ → Product B U V} {wrap : σ → ω}
    {e : E} {f : E → Failure} {g : ω → Adapted B U V}
    (hok : ∀ stream, adapt (ε := ε) kind (.ok (product stream)) = .ok (g (wrap stream)))
    (herror : f e = failure kind) (answer : Poll (Except ε σ)) (c : H3Connection κ)
    (w : Futures B U V ε) :
    ((c.pollSlot kind product wrap e answer w).map fun (c, w, result) =>
        (c, w, mapPoll f g result)) =
      match begun c w kind with
      | (c, w, fut) => (w.poll fut (mapPoll id product answer)).map fun w =>
        match mapPoll id product answer with
        | .pending => (c, w, .pending)
        | .ready result => (c.setSlot none kind, w, .ready (adapt kind result)) := by
  simp only [H3Connection.pollSlot, begun]
  rcases answer with _ | (e' | stream)
  · cases c.slot kind <;> simp only [mapPoll, Option.bind_eq_bind, Option.bind_some,
      Option.map_eq_bind, Option.bind_assoc, Function.comp_def]
  · cases c.slot kind <;> simp only [mapPoll, id, Option.bind_eq_bind, Option.bind_some,
      Option.map_eq_bind, Option.bind_assoc, Function.comp_def, adapt, herror]
  · cases c.slot kind <;> simp only [mapPoll, Option.bind_eq_bind, Option.bind_some,
      Option.map_eq_bind, Option.bind_assoc, Function.comp_def, hok]

theorem run_eq (call : Call B U V ε) (c : H3Connection κ) (w : Futures B U V ε) :
    call.run c w =
      match begun c w call.kind with
      | (c, w, fut) => (w.poll fut call.answer).map fun w =>
        match call.answer with
        | .pending => (c, w, .pending)
        | .ready result => (c.setSlot none call.kind, w, .ready (adapt call.kind result)) := by
  cases call with
  | openBidi answer =>
    apply pollSlot_eq
    · intro stream
      rfl
    · rfl
  | openSend answer =>
    apply pollSlot_eq
    · intro stream
      rfl
    · rfl
  | acceptBidi answer =>
    apply pollSlot_eq
    · intro stream
      rfl
    · rfl
  | acceptRecv answer =>
    apply pollSlot_eq
    · intro stream
      rfl
    · rfl

/-- The future of the poll completes with the result. -/
def Futures.complete (w : Futures B U V ε) (fut : ℕ) (result : Except ε (Product B U V)) :
    Futures B U V ε :=
  { w with completed := w.completed ++ [(fut, result)] }

@[simp] theorem started_complete (w : Futures B U V ε) (fut : ℕ)
    (result : Except ε (Product B U V)) : (w.complete fut result).started = w.started := rfl

theorem run_of_held {call : Call B U V ε} {c : H3Connection κ} {w : Futures B U V ε} {f : ℕ}
    (hslot : c.slot call.kind = some f) (hopen : f ∉ w.completed.map Prod.fst) :
    call.run c w =
      match call.answer with
      | .pending => some (c, w, .pending)
      | .ready result => some (c.setSlot none call.kind, w.complete f result,
          .ready (adapt call.kind result)) := by
  have hbegun : begun c w call.kind = (c, w, f) := by simp [begun, hslot]
  rw [run_eq, hbegun]
  simp only [Futures.poll, if_neg hopen]
  cases call.answer <;> rfl

theorem run_of_empty {call : Call B U V ε} {c : H3Connection κ} {w : Futures B U V ε}
    (hslot : c.slot call.kind = none) (hnew : w.started.length ∉ w.completed.map Prod.fst) :
    call.run c w =
      match call.answer with
      | .pending => some (c.setSlot (some w.started.length) call.kind, w.start call.kind, .pending)
      | .ready result => some (c.setSlot none call.kind,
          (w.start call.kind).complete w.started.length result,
          .ready (adapt call.kind result)) := by
  have hbegun : begun c w call.kind =
      (c.setSlot (some w.started.length) call.kind, w.start call.kind, w.started.length) := by
    simp [begun, hslot]
  have hcompleted : (w.start call.kind).completed = w.completed := rfl
  rw [run_eq, hbegun]
  simp only [Futures.poll, hcompleted, if_neg hnew, setSlot_setSlot]
  cases call.answer <;> rfl

end polls

/-- Handle `h` starts a future of the kind and keeps it. -/
def State.start (s : State κ B U V ε) (h : ℕ) (c : H3Connection κ) (k : Kind) :
    State κ B U V ε :=
  { s with
    handles := s.handles.set h (c.setSlot (some s.futures.started.length) k)
    futures := s.futures.start k
    starters := s.starters ++ [h] }

/-- The future that handle `h` keeps completes, and its result is returned. -/
def State.complete (s : State κ B U V ε) (h : ℕ) (c : H3Connection κ) (k : Kind) (fut : ℕ)
    (result : Except ε (Product B U V)) : State κ B U V ε :=
  { s with
    handles := s.handles.set h (c.setSlot none k)
    futures := s.futures.complete fut result
    returned := s.returned ++ [⟨h, k, adapt k result⟩] }

/-- The handle has started a future of the kind that has not completed. -/
def InFlight (s : State κ B U V ε) (h : ℕ) (k : Kind) (f : ℕ) : Prop :=
  s.futures.started[f]? = some k ∧ s.starters[f]? = some h ∧
    f ∉ s.futures.completed.map Prod.fst

/-- The result is the one of the completed future, by the handle and the kind that started it. -/
def Delivers (s : State κ B U V ε) (r : Returned B U V)
    (p : ℕ × Except ε (Product B U V)) : Prop :=
  s.starters[p.1]? = some r.handle ∧ s.futures.started[p.1]? = some r.kind ∧
    r.result = adapt r.kind p.2

/-- The slot of a kind of a handle, if the handle exists. -/
def slotAt (s : State κ B U V ε) (h : ℕ) (k : Kind) : Option (Option ℕ) :=
  s.handles[h]?.map (H3Connection.slot · k)

/-- Every future has one starter, and until it has completed it is in the slot of its kind of its
starter; what has been returned is what the completed futures produced, by their starters. -/
structure Invariant (s : State κ B U V ε) : Prop where
  starters : s.starters.length = s.futures.started.length
  slots : ∀ h k f, slotAt s h k = some (some f) ↔ InFlight s h k f
  once : (s.futures.completed.map Prod.fst).Nodup
  known : ∀ f ∈ s.futures.completed.map Prod.fst, f < s.futures.started.length
  returned : List.Forall₂ (Delivers s) s.returned s.futures.completed
  counted : ∀ k, s.futures.started.count k = s.returned.countP (fun r => r.kind = k) +
    s.handles.countP fun c => (c.slot k).isSome

section invariant

variable {s : State κ B U V ε} {h : ℕ} {c : H3Connection κ} {k : Kind}

theorem slotAt_of_handle (hc : s.handles[h]? = some c) (k : Kind) :
    slotAt s h k = some (c.slot k) := by
  rw [slotAt, hc, Option.map_some]

theorem slotAt_set (hc : s.handles[h]? = some c) (fut : Option ℕ) (h' : ℕ) (k' : Kind) :
    (s.handles.set h (c.setSlot fut k))[h']?.map (H3Connection.slot · k') =
      if h' = h ∧ k' = k then some fut else slotAt s h' k' := by
  by_cases hh : h' = h
  · subst hh
    rw [List.getElem?_set_self (List.getElem?_eq_some_iff.mp hc).1, Option.map_some, slot_setSlot,
      slotAt_of_handle hc]
    by_cases hk : k' = k
    · rw [if_pos hk, if_pos ⟨rfl, hk⟩]
    · rw [if_neg hk, if_neg fun h => hk h.2]
  · rw [List.getElem?_set_ne (Ne.symm hh), if_neg fun h => hh h.1, slotAt]

/-- Writing one slot changes the number of the full ones by that slot. -/
theorem counted_setSlot (hc : s.handles[h]? = some c) (fut : Option ℕ) (k' : Kind) :
    (s.handles.set h (c.setSlot fut k)).countP (fun c => (c.slot k').isSome) +
        (if (c.slot k').isSome then 1 else 0) =
      s.handles.countP (fun c => (c.slot k').isSome) +
        (if ((c.setSlot fut k).slot k').isSome then 1 else 0) := by
  obtain ⟨hlt, rfl⟩ := List.getElem?_eq_some_iff.mp hc
  have hle := List.boole_getElem_le_countP (p := fun c => (c.slot k').isSome) hlt
  rw [List.countP_set hlt]
  omega

theorem Invariant.newest (hi : Invariant s) :
    s.futures.started.length ∉ s.futures.completed.map Prod.fst :=
  fun hf => Nat.lt_irrefl _ (hi.known _ hf)

theorem Invariant.kept (hi : Invariant s) (hc : s.handles[h]? = some c) {f : ℕ}
    (hslot : c.slot k = some f) : InFlight s h k f := by
  rw [← hi.slots, slotAt_of_handle hc, hslot]

theorem inFlight_unique {h' : ℕ} {k' : Kind} {f : ℕ} (hf : InFlight s h k f)
    (hf' : InFlight s h' k' f) : h' = h ∧ k' = k :=
  ⟨Option.some.inj (hf'.2.1.symm.trans hf.2.1), Option.some.inj (hf'.1.symm.trans hf.1)⟩

/-- Starting a future adds it, and nothing else, to those in flight. -/
theorem inFlight_start (hi : Invariant s) (h' : ℕ) (k' : Kind) (f : ℕ) :
    InFlight (s.start h c k) h' k' f ↔
      InFlight s h' k' f ∨ (f = s.futures.started.length ∧ h' = h ∧ k' = k) := by
  simp only [InFlight, State.start, Futures.start]
  rcases Nat.lt_trichotomy f s.futures.started.length with hlt | rfl | hgt
  · rw [List.getElem?_append_left hlt, List.getElem?_append_left (hi.starters ▸ hlt)]
    simp [Nat.ne_of_lt hlt]
  · have hstarter : (s.starters ++ [h])[s.futures.started.length]? = some h := by
      rw [← hi.starters]
      exact List.getElem?_concat_length
    rw [List.getElem?_concat_length, hstarter]
    simp [hi.newest, eq_comm, and_comm]
  · have hnone : (s.futures.started ++ [k])[f]? = none := by
      simp only [List.getElem?_eq_none_iff, List.length_append, List.length_singleton]
      omega
    have hold : s.futures.started[f]? = none := List.getElem?_eq_none (Nat.le_of_lt hgt)
    simp [hnone, hold, Nat.ne_of_gt hgt]

theorem inFlight_complete {f : ℕ} (result : Except ε (Product B U V)) (h' : ℕ) (k' : Kind)
    (f' : ℕ) : InFlight (s.complete h c k f result) h' k' f' ↔
      InFlight s h' k' f' ∧ f' ≠ f := by
  simp only [InFlight, State.complete, Futures.complete, List.map_append, List.map_cons,
    List.map_nil, List.mem_append, List.mem_singleton, not_or, and_assoc]

theorem start_invariant (hi : Invariant s) (hc : s.handles[h]? = some c)
    (hslot : c.slot k = none) : Invariant (s.start h c k) := by
  have hstarted : s.futures.started <+: s.futures.started ++ [k] := List.prefix_append _ _
  have hstarters : s.starters <+: s.starters ++ [h] := List.prefix_append _ _
  constructor
  · simp [State.start, Futures.start, hi.starters]
  · intro h' k' f
    rw [inFlight_start hi, ← hi.slots]
    apply (Eq.congr_left (slotAt_set hc _ h' k')).trans
    by_cases hsame : h' = h ∧ k' = k
    · obtain ⟨rfl, rfl⟩ := hsame
      rw [slotAt_of_handle hc, hslot]
      simp [eq_comm]
    · rw [if_neg hsame]
      simp [hsame]
  · exact hi.once
  · intro f hf
    have := hi.known f hf
    simp only [State.start, Futures.start, List.length_append]
    omega
  · apply hi.returned.imp
    rintro r p ⟨h₁, h₂, h₃⟩
    exact ⟨getElem?_of_grown hstarters h₁, getElem?_of_grown hstarted h₂, h₃⟩
  · intro k'
    have hcount := counted_setSlot hc (k := k) (some s.futures.started.length) k'
    have hold := hi.counted k'
    simp only [State.start, Futures.start, List.count_append, List.count_singleton]
    simp only [slot_setSlot] at hcount
    by_cases hk : k' = k
    · subst hk
      simp [hslot] at hcount ⊢
      omega
    · simp [hk, Ne.symm hk] at hcount ⊢
      omega

theorem complete_invariant (hi : Invariant s) {f : ℕ} (hc : s.handles[h]? = some c)
    (hslot : c.slot k = some f) (result : Except ε (Product B U V)) :
    Invariant (s.complete h c k f result) := by
  have hflight := hi.kept hc hslot
  have ⟨hstarted, hstarter, hopen⟩ := hflight
  have hcompleted : (s.complete h c k f result).futures.completed.map Prod.fst =
      s.futures.completed.map Prod.fst ++ [f] := by
    simp [State.complete, Futures.complete]
  constructor
  · exact hi.starters
  · intro h' k' f'
    rw [inFlight_complete]
    apply (Eq.congr_left (slotAt_set hc none h' k')).trans
    by_cases hsame : h' = h ∧ k' = k
    · obtain ⟨rfl, rfl⟩ := hsame
      rw [if_pos ⟨rfl, rfl⟩, ← hi.slots, slotAt_of_handle hc, hslot]
      simp [eq_comm]
    · rw [if_neg hsame, hi.slots]
      refine (and_iff_left_of_imp ?_).symm
      rintro hother rfl
      exact hsame (inFlight_unique hflight hother)
  · rw [hcompleted]
    refine List.nodup_append.mpr ⟨hi.once, by simp, ?_⟩
    rintro a ha b hb rfl
    exact hopen (List.mem_singleton.mp hb ▸ ha)
  · intro f' hf'
    rw [hcompleted, List.mem_append, List.mem_singleton] at hf'
    rcases hf' with hf' | rfl
    · exact hi.known f' hf'
    · exact (List.getElem?_eq_some_iff.mp hstarted).1
  · exact List.rel_append hi.returned (.cons ⟨hstarter, hstarted, rfl⟩ .nil)
  · intro k'
    have hcount := counted_setSlot hc (k := k) none k'
    have hold := hi.counted k'
    simp only [State.complete, started_complete, List.countP_append, List.countP_singleton]
    simp only [slot_setSlot] at hcount
    by_cases hk : k' = k
    · subst hk
      simp [hslot] at hcount ⊢
      omega
    · simp [hk, Ne.symm hk] at hcount ⊢
      omega

theorem clone_invariant (hi : Invariant s) (c : H3Connection κ) :
    Invariant { s with handles := s.handles ++ [c.clone] } := by
  constructor
  · exact hi.starters
  · intro h' k' f
    refine Iff.trans ?_ (hi.slots h' k' f)
    by_cases hlt : h' < s.handles.length
    · simp only [slotAt, List.getElem?_append_left hlt]
    · have hold : s.handles[h']? = none := List.getElem?_eq_none (Nat.le_of_not_lt hlt)
      simp only [slotAt, List.getElem?_append_right (Nat.le_of_not_lt hlt), hold, Option.map_none]
      cases hnew : [c.clone][h' - s.handles.length]? with
      | none => simp
      | some d =>
        obtain rfl := List.mem_singleton.mp (List.mem_of_getElem? hnew)
        simp
  · exact hi.once
  · exact hi.known
  · exact hi.returned
  · intro k
    have := hi.counted k
    simpa using this

end invariant

section steps

/-- The slot of the kind holds a future that has not completed: the poll polls it. -/
theorem next_poll {s : State κ B U V ε} {h : ℕ} {c : H3Connection κ} {f : ℕ} (call : Call B U V ε)
    (hc : s.handles[h]? = some c) (hslot : c.slot call.kind = some f)
    (hopen : f ∉ s.futures.completed.map Prod.fst) :
    next s (.poll h call) =
      match call.answer with
      | .pending => s
      | .ready result => s.complete h c call.kind f result := by
  simp only [next, hc, Option.bind_some, run_of_held hslot hopen]
  cases call.answer with
  | pending =>
    obtain ⟨hlt, rfl⟩ := List.getElem?_eq_some_iff.mp hc
    simp [ready]
  | ready result => simp [ready, State.complete]

/-- The slot is empty: the poll starts a future and polls it. -/
theorem next_poll_empty {s : State κ B U V ε} (hi : Invariant s) {h : ℕ} {c : H3Connection κ}
    (call : Call B U V ε) (hc : s.handles[h]? = some c) (hslot : c.slot call.kind = none) :
    next s (.poll h call) =
      match call.answer with
      | .pending => s.start h c call.kind
      | .ready result =>
        (s.start h c call.kind).complete h (c.setSlot (some s.futures.started.length) call.kind)
          call.kind s.futures.started.length result := by
  simp only [next, hc, Option.bind_some, run_of_empty hslot hi.newest]
  cases call.answer with
  | pending => simp [ready, State.start, Futures.start]
  | ready result => simp [ready, State.complete, State.start, Futures.start]

end steps

def Polls (h : ℕ) (k : Kind) : Event B U V ε → Prop
  | .poll h' call => h' = h ∧ call.kind = k
  | _ => False

section frames

theorem run_slot {call : Call B U V ε} {c c' : H3Connection κ} {w w' : Futures B U V ε}
    {result : Poll (Except Failure (Adapted B U V))} (h : call.run c w = some (c', w', result))
    {k : Kind} (hk : k ≠ call.kind) : c'.slot k = c.slot k := by
  have hbegun : (begun c w call.kind).1.slot k = c.slot k := by
    unfold begun
    cases c.slot call.kind with
    | none => simp [hk]
    | some fut => rfl
  rw [run_eq] at h
  obtain ⟨v, -, h⟩ := Option.map_eq_some_iff.mp h
  cases hanswer : call.answer with
  | pending =>
    rw [hanswer] at h
    obtain ⟨rfl, -⟩ := Prod.mk.inj h
    exact hbegun
  | ready result =>
    rw [hanswer] at h
    obtain ⟨rfl, -⟩ := Prod.mk.inj h
    rw [slot_setSlot, if_neg hk]
    exact hbegun

/-- Only a poll of a handle and a kind changes its slot. -/
theorem slotAt_next {s : State κ B U V ε} {e : Event B U V ε} {h : ℕ} {k : Kind}
    (he : ¬ Polls h k e) (hh : h < s.handles.length) : slotAt (next s e) h k = slotAt s h k := by
  cases e with
  | clone h' => simp [slotAt, next, List.getElem?_append_left hh]
  | opener h' => simp [slotAt, next, List.getElem?_append_left hh]
  | poll h' call =>
    simp only [next]
    cases hrun : s.handles[h']?.bind fun c => call.run c s.futures with
    | none => rfl
    | some r =>
      obtain ⟨c, hc, hrun⟩ := Option.bind_eq_some_iff.mp hrun
      by_cases hsame : h' = h
      · subst hsame
        have hk : k ≠ call.kind := fun hk => he ⟨rfl, hk.symm⟩
        simp only [slotAt, List.getElem?_set_self hh, Option.map_some, hc]
        rw [run_slot hrun hk]
      · simp only [slotAt, List.getElem?_set_ne hsame]

theorem length_next_poll (s : State κ B U V ε) (h : ℕ) (call : Call B U V ε) :
    (next s (.poll h call)).handles.length = s.handles.length := by
  simp only [next]
  split <;> simp

theorem handles_next (s : State κ B U V ε) (e : Event B U V ε) :
    s.handles.length ≤ (next s e).handles.length := by
  cases e with
  | clone h => simp [next]
  | opener h => simp [next]
  | poll h call => exact (length_next_poll s h call).ge

theorem slotAt_run {inner : κ} {h : ℕ} {k : Kind} {es : List (Event B U V ε)}
    (hes : ∀ e ∈ es, ¬ Polls h k e) {s : State κ B U V ε} (hh : h < s.handles.length) :
    slotAt ((system B U V ε inner).run s es) h k = slotAt s h k := by
  induction es generalizing s with
  | nil => rfl
  | cons e es ih =>
    have hrest := ih (fun e' he' => hes e' (List.mem_cons_of_mem _ he'))
      (Nat.lt_of_lt_of_le hh (handles_next s e))
    exact hrest.trans (slotAt_next (hes e List.mem_cons_self) hh)

end frames

section runs

variable {inner : κ} {s : State κ B U V ε}

theorem initial_invariant : Invariant (system B U V ε inner).initial := by
  constructor
  · rfl
  · intro h k f
    have hempty : slotAt (system B U V ε inner).initial h k ≠ some (some f) := by
      cases h <;> simp [slotAt, system]
    exact iff_of_false hempty nofun
  · exact List.nodup_nil
  · intro f hf
    cases hf
  · exact .nil
  · intro k
    simp [system]

theorem step_preserves_invariant {e : Event B U V ε} (hi : Invariant s) (he : Enabled s e) :
    Invariant (next s e) := by
  cases e with
  | clone h =>
    simp only [next, List.getElem?_eq_getElem he]
    exact clone_invariant hi _
  | opener h =>
    simp only [next, List.getElem?_eq_getElem he]
    exact clone_invariant hi _
  | poll h call =>
    obtain ⟨c, hc⟩ : ∃ c, s.handles[h]? = some c := ⟨_, List.getElem?_eq_getElem he⟩
    cases hslot : c.slot call.kind with
    | some f =>
      rw [next_poll call hc hslot (hi.kept hc hslot).2.2]
      cases call.answer with
      | pending => exact hi
      | ready result => exact complete_invariant hi hc hslot result
    | none =>
      rw [next_poll_empty hi call hc hslot]
      have hstart := start_invariant hi hc hslot
      cases call.answer with
      | pending => exact hstart
      | ready result =>
        exact complete_invariant hstart (List.getElem?_set_self he) (by simp) result

theorem reachable_invariant (h : Reachable (system B U V ε inner) s) : Invariant s :=
  reachable_of_step initial_invariant (fun _ _ hi he => step_preserves_invariant hi he) h

theorem slotAt_eq_some {h : ℕ} {k : Kind} {x : Option ℕ} :
    slotAt s h k = some x ↔ ∃ c, s.handles[h]? = some c ∧ c.slot k = x :=
  Option.map_eq_some_iff

/-- No poll meets a completed future, so none panics. -/
theorem run_isSome (hi : Invariant s) {h : ℕ} {c : H3Connection κ} (hc : s.handles[h]? = some c)
    (call : Call B U V ε) : (call.run c s.futures).isSome := by
  cases hslot : c.slot call.kind with
  | some f =>
    rw [run_of_held hslot (hi.kept hc hslot).2.2]
    cases call.answer <;> rfl
  | none =>
    rw [run_of_empty hslot hi.newest]
    cases call.answer <;> rfl

/-- A future that has not completed is polled again, not started again. -/
theorem started_of_held (hi : Invariant s) {h f : ℕ} {call : Call B U V ε}
    (hslot : slotAt s h call.kind = some (some f)) :
    (next s (.poll h call)).futures.started = s.futures.started := by
  obtain ⟨c, hc, hf⟩ := slotAt_eq_some.mp hslot
  rw [next_poll call hc hf (hi.kept hc hf).2.2]
  cases call.answer <;> rfl

theorem started_of_empty (hi : Invariant s) {h : ℕ} {call : Call B U V ε}
    (hslot : slotAt s h call.kind = some none) :
    (next s (.poll h call)).futures.started = s.futures.started ++ [call.kind] ∧
      (next s (.poll h call)).starters = s.starters ++ [h] := by
  obtain ⟨c, hc, hf⟩ := slotAt_eq_some.mp hslot
  rw [next_poll_empty hi call hc hf]
  cases call.answer <;> exact ⟨rfl, rfl⟩

theorem slotAt_of_ready (hi : Invariant s) {h : ℕ} (hh : h < s.handles.length)
    {call : Call B U V ε} {result : Except ε (Product B U V)}
    (hanswer : call.answer = .ready result) :
    slotAt (next s (.poll h call)) h call.kind = some none := by
  obtain ⟨c, hc⟩ : ∃ c, s.handles[h]? = some c := ⟨_, List.getElem?_eq_getElem hh⟩
  cases hslot : c.slot call.kind with
  | some f =>
    rw [next_poll call hc hslot (hi.kept hc hslot).2.2, hanswer]
    simp [slotAt, State.complete, hh]
  | none =>
    rw [next_poll_empty hi call hc hslot, hanswer]
    simp [slotAt, State.complete, State.start, hh]

end runs

/-- Streams are neither lost nor duplicated nor delivered elsewhere in the state, and the polls
that may come next keep to their own slots. -/
structure ExactlyOnce (inner : κ) (s : State κ B U V ε) : Prop where
  balanced : ∀ k, s.futures.started.count k = s.returned.countP (fun r => r.kind = k) +
    s.handles.countP fun c => (c.slot k).isSome
  single : ∀ h k f g, InFlight s h k f → InFlight s h k g → f = g
  once : (s.futures.completed.map Prod.fst).Nodup
  delivered : List.Forall₂ (Delivers s) s.returned s.futures.completed
  answered : ∀ (h : ℕ) c (call : Call B U V ε), s.handles[h]? = some c →
    (call.run c s.futures).isSome
  framed : ∀ h call h' k, (h', k) ≠ (h, call.kind) →
    slotAt (next s (.poll h call)) h' k = slotAt s h' k
  resumed : ∀ h call f, slotAt s h call.kind = some (some f) →
    (next s (.poll h call)).futures.started = s.futures.started
  restarted : ∀ h call e, h < s.handles.length → call.answer = .ready (.error e) →
    ∀ es, (system B U V ε inner).Allowed (next s (.poll h call)) es →
      (∀ e ∈ es, ¬ Polls h call.kind e) →
      ∀ call', call'.kind = call.kind →
        let u := (system B U V ε inner).run (next s (.poll h call)) es
        (next u (.poll h call')).futures.started = u.futures.started ++ [call.kind] ∧
          (next u (.poll h call')).starters = u.starters ++ [h]

theorem streams_returned_exactly_once {inner : κ} {s : State κ B U V ε}
    (hs : Reachable (system B U V ε inner) s) : ExactlyOnce inner s := by
  have hi := reachable_invariant hs
  constructor
  · exact hi.counted
  · intro h k f g hf hg
    rw [← hi.slots] at hf hg
    exact Option.some.inj (Option.some.inj (hf.symm.trans hg))
  · exact hi.once
  · exact hi.returned
  · intro h c call hc
    exact run_isSome hi hc call
  · intro h call h' k hne
    by_cases hh : h' < s.handles.length
    · apply slotAt_next _ hh
      rintro ⟨rfl, rfl⟩
      exact hne rfl
    · have hlength := length_next_poll s h call
      simp [slotAt, List.getElem?_eq_none (Nat.le_of_not_lt hh),
        List.getElem?_eq_none (hlength ▸ Nat.le_of_not_lt hh)]
  · intro h call f hslot
    exact started_of_held hi hslot
  · intro h call e hh hanswer es hes hne call' hkind
    have hempty : slotAt ((system B U V ε inner).run (next s (.poll h call)) es) h call'.kind =
        some none := by
      rw [hkind, slotAt_run hne (Nat.lt_of_lt_of_le hh (handles_next s _))]
      exact slotAt_of_ready hi hh hanswer
    have hnext : Reachable (system B U V ε inner) (next s (.poll h call)) :=
      .tail (e := .poll h call) hs ⟨hh, rfl⟩
    have hrun := hnext.trans (execution_run hes)
    rw [← hkind]
    exact started_of_empty (reachable_invariant hrun) hempty

/-- Two handles open a stream each; the future of the second one completes first. -/
def opensInterleaved : List (Event ℕ ℕ ℕ Unit) :=
  [.poll 0 (.openBidi .pending), .opener 0, .poll 1 (.openBidi (.ready (.ok 7))),
    .poll 0 (.acceptRecv (.ready (.error ()))), .poll 0 (.openBidi (.ready (.ok 8)))]

theorem streams_returned_exactly_once_interleaved :
    ExactlyOnce () ((system ℕ ℕ ℕ Unit ()).run (system ℕ ℕ ℕ Unit ()).initial opensInterleaved) :=
  streams_returned_exactly_once (execution_run (by decide))

end H3Connections
