import Mathlib.Algebra.Group.Nat.Defs
import Mathlib.Data.List.Nodup
import Navar.H3Splitting

/-! # Stream identifiers over Iroh

A QUIC connection numbers its streams from zero for each direction and each initiator, and the raw
identifier of a stream has all three. A stream of the transport reports the number alone, and the
adapter passes that on to `h3`. -/
namespace IrohStreams

open TransitionSystems
open H3Adapter (H3SendStream H3BidiStream)
open H3Connections (H3RecvStream)

inductive Side where
  | client
  | server
  deriving DecidableEq, Repr

inductive Dir where
  | bi
  | uni
  deriving DecidableEq, Repr

def Side.bit : Side → ℕ
  | .client => 0
  | .server => 1

def Side.other : Side → Side
  | .client => .server
  | .server => .client

def Dir.bit : Dir → ℕ
  | .bi => 0
  | .uni => 1

structure StreamId where
  raw : ℕ
  deriving DecidableEq, Repr

def StreamId.new (initiator : Side) (dir : Dir) (index : ℕ) : StreamId :=
  { raw := 4 * index + 2 * dir.bit + initiator.bit }

def StreamId.index (id : StreamId) : ℕ := id.raw / 4

def StreamId.dir (id : StreamId) : Dir := if id.raw / 2 % 2 = 0 then .bi else .uni

def StreamId.initiator (id : StreamId) : Side := if id.raw % 2 = 0 then .client else .server

/-- The number of streams that a connection can have of one direction and one initiator. -/
def maxStreams : ℕ := 2 ^ 60

class Stream (S : Type) where
  streamId : S → ℕ

structure IrohSendStream where
  id : StreamId

structure IrohRecvStream where
  id : StreamId

/-- The fields are private, and `open_bi` and `accept_bi` return the halves of one stream. -/
structure IrohBidiStream where
  send : IrohSendStream
  recv : IrohRecvStream
  paired : recv.id = send.id

instance : Stream IrohSendStream where
  streamId s := s.id.index

instance : Stream IrohRecvStream where
  streamId s := s.id.index

instance : Stream IrohBidiStream where
  streamId s := Stream.streamId s.send

def IrohBidiStream.split (s : IrohBidiStream) : IrohSendStream × IrohRecvStream := (s.send, s.recv)

/-- `h3::quic::StreamId` and its `try_from`: the identifiers of streams below `2 ^ 62` are
converted, different ones differently. -/
class H3StreamId (I : Type) where
  tryFrom : ℕ → Option I
  tryFrom_isSome (id : ℕ) (h : id < 2 ^ 62) : (tryFrom id).isSome = true
  tryFrom_inj (id id' : ℕ) (h : id < 2 ^ 62) (h' : id' < 2 ^ 62)
    (heq : tryFrom id = tryFrom id') : id = id'

instance : H3StreamId ℕ where
  tryFrom id := if id < 2 ^ 62 then some id else none
  tryFrom_isSome id h := by rw [if_pos h]; rfl
  tryFrom_inj id id' h h' heq := by
    rw [if_pos h, if_pos h'] at heq
    exact Option.some.inj heq

/-- `quic::SendStream::send_id`, which panics for `none`. -/
class SendId (A I : Type) where
  sendId : A → Option I

/-- `quic::RecvStream::recv_id`, which panics for `none`. -/
class RecvId (A I : Type) where
  recvId : A → Option I

section adapter

variable {S I : Type} [Stream S] [H3StreamId I]

/-- `StreamId::try_from(id).unwrap_or_else(|_| StreamId::try_from(0).unwrap())`. -/
def convertOrZero (id : ℕ) : Option I := (H3StreamId.tryFrom id).or (H3StreamId.tryFrom 0)

instance : SendId (H3SendStream S) I where
  sendId s := convertOrZero (Stream.streamId s.inner)

instance : RecvId (H3RecvStream S) I where
  recvId s := convertOrZero (Stream.streamId s.inner)

instance : SendId (H3BidiStream S) I where
  sendId s := H3StreamId.tryFrom (Stream.streamId s.inner)

instance : RecvId (H3BidiStream S) I where
  recvId s := H3StreamId.tryFrom (Stream.streamId s.inner)

end adapter

/-- A stream that a connection has returned. -/
inductive Returned where
  | bidi (stream : IrohBidiStream)
  | send (stream : IrohSendStream)
  | recv (stream : IrohRecvStream)

namespace Returned

def id : Returned → StreamId
  | bidi stream => stream.send.id
  | send stream => stream.id
  | recv stream => stream.id

def streamId : Returned → ℕ
  | bidi stream => Stream.streamId stream
  | send stream => Stream.streamId stream
  | recv stream => Stream.streamId stream

/-- What the adapter reports to `h3`, for the stream and for its halves. -/
def h3Ids (I : Type) [H3StreamId I] : Returned → List (Option I)
  | bidi stream =>
    let (sendHalf, recvHalf) := stream.split
    [SendId.sendId (H3BidiStream.new stream), RecvId.recvId (H3BidiStream.new stream),
      SendId.sendId (H3SendStream.new sendHalf), RecvId.recvId (H3RecvStream.mk recvHalf)]
  | send stream => [SendId.sendId (H3SendStream.new stream)]
  | recv stream => [RecvId.recvId (H3RecvStream.mk stream)]

end Returned

/-- A connection as one of its two sides has it. -/
structure QuicConnection where
  side : Side
  counts : Side → Dir → ℕ

def QuicConnection.nextId (c : QuicConnection) (initiator : Side) (dir : Dir) : StreamId :=
  StreamId.new initiator dir (c.counts initiator dir)

def QuicConnection.counted (c : QuicConnection) (initiator : Side) (dir : Dir) : QuicConnection :=
  { c with
    counts := fun i d => if i = initiator ∧ d = dir then c.counts i d + 1 else c.counts i d }

/-- The methods of `Connection` that return a stream. -/
inductive Method where
  | openBidirectional
  | openUnidirectional
  | acceptBidirectional
  | acceptUnidirectional
  deriving DecidableEq, Repr

def Method.initiator (side : Side) : Method → Side
  | openBidirectional => side
  | openUnidirectional => side
  | acceptBidirectional => side.other
  | acceptUnidirectional => side.other

def Method.dir : Method → Dir
  | openBidirectional => .bi
  | openUnidirectional => .uni
  | acceptBidirectional => .bi
  | acceptUnidirectional => .uni

/-- The stream that a method makes of the identifier. -/
def Method.stream (id : StreamId) : Method → Returned
  | openBidirectional => .bidi { send := { id := id }, recv := { id := id }, paired := rfl }
  | openUnidirectional => .send { id := id }
  | acceptBidirectional => .bidi { send := { id := id }, recv := { id := id }, paired := rfl }
  | acceptUnidirectional => .recv { id := id }

/-- The clones of an `IrohConnection` are handles on one QUIC connection. -/
structure Shared where
  inner : QuicConnection
  handles : ℕ
  streams : List Returned

inductive Event where
  | clone (handle : ℕ)
  | call (handle : ℕ) (method : Method)
  deriving DecidableEq, Repr

def Shared.called (s : Shared) (method : Method) : Shared :=
  let initiator := method.initiator s.inner.side
  { s with
    inner := s.inner.counted initiator method.dir
    streams := s.streams ++ [method.stream (s.inner.nextId initiator method.dir)] }

/-- Any calls on any handles, each of which returns a stream; a call that fails returns none. -/
def connection (side : Side) : System Shared Event where
  initial := { inner := { side := side, counts := fun _ _ => 0 }, handles := 1, streams := [] }
  Enabled s
    | .clone handle => handle < s.handles
    | .call handle method => handle < s.handles ∧
      s.inner.counts (method.initiator s.inner.side) method.dir < maxStreams
  next s
    | .clone _ => { s with handles := s.handles + 1 }
    | .call _ method => s.called method

instance (side : Side) : ∀ s event, Decidable ((connection side).Enabled s event)
  | s, .clone handle => inferInstanceAs (Decidable (handle < s.handles))
  | s, .call handle method => inferInstanceAs (Decidable (handle < s.handles ∧
      s.inner.counts (method.initiator s.inner.side) method.dir < maxStreams))

/-- No two of the streams returned report the same identifier, itself or through the adapter. -/
def UniqueIds (I : Type) [H3StreamId I] (streams : List Returned) : Prop :=
  (streams.map Returned.streamId).Nodup ∧
    streams.Pairwise fun x y => ∀ id ∈ x.h3Ids I, id ∉ y.h3Ids I

/-- The methods that have been called, in order. -/
def methods : List Event → List Method
  | [] => []
  | .clone _ :: events => methods events
  | .call _ method :: events => method :: methods events

section identifiers

theorem new_index (initiator : Side) (dir : Dir) (index : ℕ) :
    (StreamId.new initiator dir index).index = index := by
  cases initiator <;> cases dir <;> simp only [StreamId.index, StreamId.new, Side.bit, Dir.bit] <;>
    omega

theorem new_dir (initiator : Side) (dir : Dir) (index : ℕ) :
    (StreamId.new initiator dir index).dir = dir := by
  have hbit : (4 * index + 2 * dir.bit + initiator.bit) / 2 % 2 = dir.bit := by
    cases initiator <;> cases dir <;> simp only [Side.bit, Dir.bit] <;> omega
  unfold StreamId.dir StreamId.new
  rw [hbit]
  cases dir <;> rfl

theorem new_initiator (initiator : Side) (dir : Dir) (index : ℕ) :
    (StreamId.new initiator dir index).initiator = initiator := by
  have hbit : (4 * index + 2 * dir.bit + initiator.bit) % 2 = initiator.bit := by
    cases initiator <;> cases dir <;> simp only [Side.bit, Dir.bit] <;> omega
  unfold StreamId.initiator StreamId.new
  rw [hbit]
  cases initiator <;> rfl

def Returned.kind (x : Returned) : Side × Dir := (x.id.initiator, x.id.dir)

theorem streamId_eq (x : Returned) : x.streamId = x.id.index := by
  cases x <;> rfl

theorem stream_id (id : StreamId) (method : Method) : (method.stream id).id = id := by
  cases method <;> rfl

/-- The conversion to an identifier of `h3` succeeds: neither the default nor the panic is met. -/
theorem mem_h3Ids {I : Type} [H3StreamId I] {x : Returned} (h : x.streamId < 2 ^ 62)
    (id : Option I) : id ∈ x.h3Ids I ↔ id = H3StreamId.tryFrom x.streamId := by
  have hdefault : convertOrZero x.streamId = (H3StreamId.tryFrom x.streamId : Option I) :=
    Option.or_of_isSome (H3StreamId.tryFrom_isSome _ h)
  cases x with
  | bidi stream =>
    simp only [Returned.streamId, Stream.streamId] at hdefault
    simp [Returned.h3Ids, SendId.sendId, RecvId.recvId, H3BidiStream.new, H3SendStream.new,
      IrohBidiStream.split, Stream.streamId, stream.paired, hdefault, Returned.streamId]
  | send stream =>
    simp only [Returned.streamId, Stream.streamId] at hdefault
    simp [Returned.h3Ids, SendId.sendId, H3SendStream.new, Stream.streamId, hdefault,
      Returned.streamId]
  | recv stream =>
    simp only [Returned.streamId, Stream.streamId] at hdefault
    simp [Returned.h3Ids, RecvId.recvId, Stream.streamId, hdefault, Returned.streamId]

end identifiers

section runs

/-- The streams of one direction and one initiator are numbered from zero, in order, and all
streams are different streams of the connection. -/
structure Numbered (s : Shared) : Prop where
  numbers : ∀ i d, (s.streams.filter fun x => x.kind = (i, d)).map Returned.streamId =
    List.range (s.inner.counts i d)
  bounded : ∀ i d, s.inner.counts i d ≤ maxStreams
  distinct : (s.streams.map fun x => x.id.raw).Nodup

theorem Numbered.streamId_lt {s : Shared} (h : Numbered s) {x : Returned} (hx : x ∈ s.streams) :
    x.streamId < s.inner.counts x.kind.1 x.kind.2 := by
  have hmem : x.streamId ∈
      (s.streams.filter fun y => y.kind = (x.kind.1, x.kind.2)).map Returned.streamId := by
    apply List.mem_map_of_mem
    rw [List.mem_filter]
    exact ⟨hx, decide_eq_true rfl⟩
  rw [h.numbers] at hmem
  exact List.mem_range.mp hmem

theorem called_kind (s : Shared) (method : Method) :
    (method.stream (s.inner.nextId (method.initiator s.inner.side) method.dir)).kind =
      (method.initiator s.inner.side, method.dir) := by
  rw [Returned.kind, stream_id, QuicConnection.nextId, new_initiator, new_dir]

theorem called_streamId (s : Shared) (method : Method) :
    (method.stream (s.inner.nextId (method.initiator s.inner.side) method.dir)).streamId =
      s.inner.counts (method.initiator s.inner.side) method.dir := by
  rw [streamId_eq, stream_id, QuicConnection.nextId, new_index]

theorem Numbered.called {s : Shared} (h : Numbered s) {method : Method}
    (hlt : s.inner.counts (method.initiator s.inner.side) method.dir < maxStreams) :
    Numbered (s.called method) := by
  have hkind := called_kind s method
  have hnumber := called_streamId s method
  constructor
  · intro i d
    simp only [Shared.called, QuicConnection.counted, List.filter_append, List.map_append,
      h.numbers]
    by_cases hk : i = method.initiator s.inner.side ∧ d = method.dir
    · obtain ⟨rfl, rfl⟩ := hk
      simp [hkind, hnumber, List.range_succ]
    · have hne : (method.initiator s.inner.side, method.dir) ≠ (i, d) := by
        intro heq
        obtain ⟨rfl, rfl⟩ := Prod.mk.inj heq
        exact hk ⟨rfl, rfl⟩
      simp [hkind, hne, hk]
  · intro i d
    simp only [Shared.called, QuicConnection.counted]
    split_ifs with hk
    · obtain ⟨rfl, rfl⟩ := hk
      exact hlt
    · exact h.bounded i d
  · simp only [Shared.called, List.map_append, List.map_cons, List.map_nil]
    rw [List.nodup_append_comm]
    apply List.nodup_cons.mpr
    refine ⟨?_, h.distinct⟩
    intro hmem
    obtain ⟨x, hx, hraw⟩ := List.mem_map.mp hmem
    -- a stream with the new raw identifier would have the new number and the new kind
    have hid : x.id = (method.stream (s.inner.nextId (method.initiator s.inner.side)
        method.dir)).id := congrArg StreamId.mk hraw
    have hlt' := h.streamId_lt hx
    have hsame : x.kind = (method.initiator s.inner.side, method.dir) := by
      rw [← hkind, Returned.kind, Returned.kind, hid]
    rw [hsame, streamId_eq, hid, ← streamId_eq, hnumber] at hlt'
    exact lt_irrefl _ hlt'

theorem reachable_numbered {side : Side} {s : Shared} (hs : Reachable (connection side) s) :
    Numbered s := by
  refine reachable_of_step ?_ ?_ hs
  · constructor
    · intro i d
      rfl
    · intro i d
      exact Nat.zero_le _
    · exact List.nodup_nil
  · intro s event h he
    cases event with
    | clone handle => exact ⟨h.numbers, h.bounded, h.distinct⟩
    | call handle method => exact h.called he.2

theorem uniqueIds_iff (I : Type) [H3StreamId I] {s : Shared} (h : Numbered s) :
    UniqueIds I s.streams ↔ ∀ x ∈ s.streams, ∀ y ∈ s.streams, x.kind = y.kind := by
  constructor
  · rintro ⟨hnodup, _⟩ x hx y hy
    -- the first streams of the two kinds have the number zero both
    have hfirst : ∀ z ∈ s.streams, ∃ w ∈ s.streams, w.kind = z.kind ∧ w.streamId = 0 := by
      intro z hz
      have hzero : 0 ∈ List.range (s.inner.counts z.kind.1 z.kind.2) :=
        List.mem_range.mpr (Nat.zero_lt_of_lt (h.streamId_lt hz))
      rw [← h.numbers] at hzero
      obtain ⟨w, hw, hnumber⟩ := List.mem_map.mp hzero
      obtain ⟨hmem, hkind⟩ := List.mem_filter.mp hw
      exact ⟨w, hmem, of_decide_eq_true hkind, hnumber⟩
    obtain ⟨x', hx', hkindx, hzerox⟩ := hfirst x hx
    obtain ⟨y', hy', hkindy, hzeroy⟩ := hfirst y hy
    have hsame : x' = y' :=
      List.inj_on_of_nodup_map hnodup hx' hy' (hzerox.trans hzeroy.symm)
    rw [← hkindx, ← hkindy, hsame]
  · intro hkinds
    have hnodup : (s.streams.map Returned.streamId).Nodup := by
      cases hstreams : s.streams with
      | nil => exact List.nodup_nil
      | cons x xs =>
        have hx : x ∈ s.streams := hstreams ▸ List.mem_cons_self
        have hall : (s.streams.filter fun y => y.kind = (x.kind.1, x.kind.2)) = s.streams := by
          rw [List.filter_eq_self]
          exact fun y hy => decide_eq_true (hkinds y hy x hx)
        have hnumbers := h.numbers x.kind.1 x.kind.2
        rw [hall] at hnumbers
        rw [← hstreams, hnumbers]
        exact List.nodup_range
    refine ⟨hnodup, ?_⟩
    have hsmall : ∀ x ∈ s.streams, x.streamId < 2 ^ 62 := by
      intro x hx
      have hlt := h.streamId_lt hx
      have hbound := h.bounded x.kind.1 x.kind.2
      simp only [maxStreams] at hbound
      omega
    refine (List.pairwise_map.mp hnodup).imp_of_mem ?_
    intro x y hx hy hne id hidx hidy
    rw [mem_h3Ids (hsmall x hx)] at hidx
    rw [mem_h3Ids (hsmall y hy)] at hidy
    exact hne (H3StreamId.tryFrom_inj _ _ (hsmall x hx) (hsmall y hy) (hidx.symm.trans hidy))

theorem run_kinds {side : Side} (events : List Event) (s : Shared) :
    ((connection side).run s events).streams.map Returned.kind =
      s.streams.map Returned.kind ++
        (methods events).map fun m => (m.initiator s.inner.side, m.dir) := by
  induction events generalizing s with
  | nil => exact (List.append_nil _).symm
  | cons event events ih =>
    cases event with
    | clone handle => exact ih _
    | call handle method =>
      have hrest := ih (s.called method)
      simp only [Shared.called, List.map_append, List.map_cons, List.map_nil, called_kind,
        List.append_assoc] at hrest
      exact hrest

/-- For either side the four methods have the four directions and initiators. -/
theorem method_kind_inj (side : Side) (m m' : Method) :
    (m.initiator side, m.dir) = (m'.initiator side, m'.dir) ↔ m = m' := by
  constructor
  · intro h
    cases side <;> cases m <;> cases m' <;> first | rfl | cases h
  · rintro rfl
    rfl

/-- In every run, on any handles, the streams returned are different streams of the connection;
they report different identifiers exactly when only one of the four methods has been called. -/
theorem stream_ids_unique_iff (I : Type) [H3StreamId I] (side : Side) {events : List Event}
    (h : (connection side).Allowed (connection side).initial events) :
    let s := (connection side).run (connection side).initial events
    (s.streams.map fun x => x.id.raw).Nodup ∧
      (UniqueIds I s.streams ↔ ∀ m ∈ methods events, ∀ m' ∈ methods events, m = m') := by
  intro s
  have hnumbered : Numbered s := reachable_numbered (execution_run h)
  refine ⟨hnumbered.distinct, ?_⟩
  have hkinds : s.streams.map Returned.kind =
      (methods events).map fun m => (m.initiator side, m.dir) := run_kinds events _
  calc UniqueIds I s.streams
      ↔ ∀ x ∈ s.streams, ∀ y ∈ s.streams, x.kind = y.kind := uniqueIds_iff I hnumbered
    _ ↔ ∀ k ∈ s.streams.map Returned.kind, ∀ k' ∈ s.streams.map Returned.kind, k = k' := by
        simp only [List.forall_mem_map]
    _ ↔ ∀ m ∈ methods events, ∀ m' ∈ methods events, m = m' := by
        rw [hkinds]
        simp only [List.forall_mem_map, method_kind_inj]

theorem stream_ids_unique_iff_opened :
    let s := (connection .client).run (connection .client).initial
      [.call 0 .openBidirectional, .clone 0, .call 1 .openBidirectional]
    UniqueIds ℕ s.streams :=
  (stream_ids_unique_iff ℕ .client (by decide)).2.mpr (by decide)

/-- The first stream of each direction reports the identifier 0. -/
theorem two_streams_one_id :
    let events := [.call 0 .openBidirectional, .call 0 .openUnidirectional]
    let s := (connection .client).run (connection .client).initial events
    (connection .client).Allowed (connection .client).initial events ∧
      s.streams.map (fun x => x.id.raw) = [0, 2] ∧ s.streams.map Returned.streamId = [0, 0] ∧
      s.streams.map (Returned.h3Ids ℕ) =
        [[some 0, some 0, some 0, some 0], [some 0]] ∧
      ¬ UniqueIds ℕ s.streams := by
  refine ⟨by decide, rfl, rfl, rfl, ?_⟩
  rintro ⟨hnodup, _⟩
  exact absurd hnodup (by decide)

end runs

end IrohStreams
