import Mathlib.Logic.Equiv.Defs
import Navar.AsyncWriters
import Navar.TransitionSystems

/-! # The sending side of the QUIC adapter

`H3SendStream` and `H3BidiStream` implement `quic::SendStream` in the same words over fields of
different names. -/
namespace H3Adapter

open ByteBuffers
open PollStreams (Poll)
open AsyncWriters
open TransitionSystems

inductive ConnectionErrorIncoming where
  | applicationClose (errorCode : ℕ)
  deriving DecidableEq, Repr

inductive StreamErrorIncoming where
  | connectionErrorIncoming (connectionError : ConnectionErrorIncoming)
  deriving DecidableEq, Repr

def connClosed : ConnectionErrorIncoming := .applicationClose 0x100

def streamError : StreamErrorIncoming := .connectionErrorIncoming connClosed

abbrev Answer := Poll (Except StreamErrorIncoming Unit)

variable {S A β : Type}

section shared

variable [AsyncWrite S]

/-- The body of the loop: one write, and the answer of the poll if it leaves the loop. -/
def writeRound (inner : S) (buf : Bytes) : S × Bytes × Option Answer :=
  match AsyncWrite.pollWrite inner buf with
  | (inner, .ready (.ok n)) => (inner, buf.drop n, none)
  | (inner, .ready (.error _)) => (inner, buf, some (.ready (.error streamError)))
  | (inner, .pending) => (inner, buf, some .pending)

/-- `while !buf.is_empty()`: after `fuel` writes that succeed the loop is given up. -/
def writeBuffered : ℕ → S → Bytes → Option (S × Bytes × Answer)
  | fuel, inner, buf =>
    if buf.isEmpty then some (inner, buf, .ready (.ok ()))
    else
      match fuel with
      | 0 => none
      | fuel + 1 =>
        match writeRound inner buf with
        | (inner, buf, some answer) => some (inner, buf, answer)
        | (inner, buf, none) => writeBuffered fuel inner buf

/-- `while data.has_remaining()`, which takes one round for each remaining byte at most. -/
def bufferData [Buf β] : ℕ → β → Bytes → Bytes
  | 0, _, buf => buf
  | fuel + 1, data, buf =>
    if Buf.hasRemaining data then
      let (bytes, data) := Buf.copyToBytes data (Buf.remaining data)
      bufferData fuel data (buf ++ bytes)
    else buf

def flushed {ε : Type} : Poll (Except ε Unit) → Answer
  | .ready (.ok ()) => .ready (.ok ())
  | .ready (.error _) => .ready (.error streamError)
  | .pending => .pending

/-- `poll_finish` ends with a flush. -/
def finishBuffered (fuel : ℕ) (inner : S) (buf : Bytes) : Option (S × Bytes × Answer) :=
  match writeBuffered fuel inner buf with
  | some (inner, buf, .ready (.ok ())) =>
    let (inner, answer) := AsyncWrite.pollFlush inner
    some (inner, buf, flushed answer)
  | notReady => notReady

end shared

/-- The methods of `quic::SendStream`, for data of type `β`; a poll is given the number of
writes that it may make. -/
class QuicSendStream (A β : Type) where
  pollReady : ℕ → A → Option (A × Answer)
  sendData : A → β → A × Except StreamErrorIncoming Unit
  pollFinish : ℕ → A → Option (A × Answer)

structure H3SendStream (S : Type) where
  inner : S
  buf : Bytes

/-- The stream is its two fields. -/
def H3SendStream.fields : H3SendStream S ≃ S × Bytes where
  toFun s := (s.inner, s.buf)
  invFun p := ⟨p.1, p.2⟩
  left_inv _ := rfl
  right_inv _ := rfl

def H3SendStream.new (inner : S) : H3SendStream S := { inner := inner, buf := [] }

def H3SendStream.reset (s : H3SendStream S) (_resetCode : ℕ) : H3SendStream S := s

instance [AsyncWrite S] [Buf β] : QuicSendStream (H3SendStream S) β where
  pollReady fuel s :=
    (writeBuffered fuel s.inner s.buf).map fun (inner, buf, answer) => (⟨inner, buf⟩, answer)
  sendData s data := ({ s with buf := bufferData (Buf.remaining data) data s.buf }, .ok ())
  pollFinish fuel s :=
    (finishBuffered fuel s.inner s.buf).map fun (inner, buf, answer) => (⟨inner, buf⟩, answer)

structure H3BidiStream (S : Type) where
  inner : S
  sendBuf : Bytes

def H3BidiStream.fields : H3BidiStream S ≃ S × Bytes where
  toFun s := (s.inner, s.sendBuf)
  invFun p := ⟨p.1, p.2⟩
  left_inv _ := rfl
  right_inv _ := rfl

def H3BidiStream.new (inner : S) : H3BidiStream S := { inner := inner, sendBuf := [] }

def H3BidiStream.reset (s : H3BidiStream S) (_resetCode : ℕ) : H3BidiStream S := s

instance [AsyncWrite S] [Buf β] : QuicSendStream (H3BidiStream S) β where
  pollReady fuel s :=
    (writeBuffered fuel s.inner s.sendBuf).map fun (inner, buf, answer) => (⟨inner, buf⟩, answer)
  sendData s data := ({ s with sendBuf := bufferData (Buf.remaining data) data s.sendBuf }, .ok ())
  pollFinish fuel s :=
    (finishBuffered fuel s.inner s.sendBuf).map fun (inner, buf, answer) => (⟨inner, buf⟩, answer)

structure Run (A : Type) where
  stream : A
  passed : Bytes

inductive Call (β : Type) where
  | sendData (data : β)
  | pollReady (fuel : ℕ)
  | pollFinish (fuel : ℕ)

def after (r : Run A) : Option (A × Answer) → Run A
  | some (stream, _) => { r with stream := stream }
  | none => r

/-- Any calls in any order, of which the polls return. -/
def sending [Buf β] [QuicSendStream A β] (start : A) : System (Run A) (Call β) where
  initial := { stream := start, passed := [] }
  Enabled r
    | .sendData _ => True
    | .pollReady fuel => (QuicSendStream.pollReady β fuel r.stream).isSome = true
    | .pollFinish fuel => (QuicSendStream.pollFinish β fuel r.stream).isSome = true
  next r
    | .sendData data =>
      { stream := (QuicSendStream.sendData r.stream data).1, passed := r.passed ++ Buf.bytes data }
    | .pollReady fuel => after r (QuicSendStream.pollReady β fuel r.stream)
    | .pollFinish fuel => after r (QuicSendStream.pollFinish β fuel r.stream)

section shared

variable [AsyncWrite S]

theorem bufferData_eq [Buf β] (data : β) (buf : Bytes) :
    bufferData (Buf.remaining data) data buf = buf ++ Buf.bytes data := by
  have hall : Buf.bytes (Buf.advance data (Buf.remaining data)) = [] := by
    rw [Buf.bytes_advance data _ (Nat.le_refl _), Buf.remaining_eq, List.drop_length]
  have hrem : Buf.remaining (Buf.advance data (Buf.remaining data)) = 0 := by
    rw [Buf.remaining_eq, hall]
    rfl
  have hnone : ∀ fuel buf,
      bufferData fuel (Buf.advance data (Buf.remaining data)) buf = buf := by
    intro fuel buf
    cases fuel with
    | zero => rfl
    | succ fuel => simp [bufferData, Buf.hasRemaining, hrem]
  cases hr : Buf.remaining data with
  | zero =>
    have hempty : Buf.bytes data = [] := by
      apply List.length_eq_zero_iff.mp
      rw [← Buf.remaining_eq]
      exact hr
    simp [bufferData, hempty]
  | succ n =>
    have hpos : Buf.hasRemaining data = true := by
      simp [Buf.hasRemaining, hr]
    rw [bufferData, if_pos hpos]
    simp only [Buf.copyToBytes]
    rw [hnone, Buf.remaining_eq, List.take_length]

theorem writeBuffered_empty {fuel : ℕ} {inner : S} {buf : Bytes} (hb : buf.isEmpty = true) :
    writeBuffered fuel inner buf = some (inner, buf, .ready (.ok ())) := by
  unfold writeBuffered
  rw [if_pos hb]

theorem writeBuffered_round {fuel : ℕ} {inner : S} {buf : Bytes} (hb : buf.isEmpty = false) :
    writeBuffered (fuel + 1) inner buf =
      match writeRound inner buf with
      | (inner, buf, some answer) => some (inner, buf, answer)
      | (inner, buf, none) => writeBuffered fuel inner buf := by
  rw [writeBuffered, hb]
  rfl

theorem writeRound_wrote {inner inner₁ : S} {buf : Bytes} {n : ℕ}
    (hw : AsyncWrite.pollWrite inner buf = (inner₁, .ready (.ok n))) :
    writeRound inner buf = (inner₁, buf.drop n, none) := by
  rw [writeRound, hw]

theorem writeRound_failed {inner inner₁ : S} {buf : Bytes} {e : AsyncWrite.ioError S}
    (hw : AsyncWrite.pollWrite inner buf = (inner₁, .ready (.error e))) :
    writeRound inner buf = (inner₁, buf, some (.ready (.error streamError))) := by
  rw [writeRound, hw]

theorem writeRound_pending {inner inner₁ : S} {buf : Bytes}
    (hw : AsyncWrite.pollWrite inner buf = (inner₁, .pending)) :
    writeRound inner buf = (inner₁, buf, some .pending) := by
  rw [writeRound, hw]

/-- One more write, after one that succeeds. -/
theorem writeBuffered_wrote {fuel : ℕ} {inner inner₁ : S} {buf : Bytes} {n : ℕ}
    (hb : buf.isEmpty = false) (hw : AsyncWrite.pollWrite inner buf = (inner₁, .ready (.ok n))) :
    writeBuffered (fuel + 1) inner buf = writeBuffered fuel inner₁ (buf.drop n) := by
  rw [writeBuffered_round hb, writeRound_wrote hw]

theorem writeBuffered_failed {fuel : ℕ} {inner inner₁ : S} {buf : Bytes}
    {e : AsyncWrite.ioError S} (hb : buf.isEmpty = false)
    (hw : AsyncWrite.pollWrite inner buf = (inner₁, .ready (.error e))) :
    writeBuffered (fuel + 1) inner buf = some (inner₁, buf, .ready (.error streamError)) := by
  rw [writeBuffered_round hb, writeRound_failed hw]

theorem writeBuffered_pending {fuel : ℕ} {inner inner₁ : S} {buf : Bytes}
    (hb : buf.isEmpty = false) (hw : AsyncWrite.pollWrite inner buf = (inner₁, .pending)) :
    writeBuffered (fuel + 1) inner buf = some (inner₁, buf, .pending) := by
  rw [writeBuffered_round hb, writeRound_pending hw]

/-- The rounds of a poll that returns. -/
inductive Rounds : ℕ → S → Bytes → S → Bytes → Answer → Prop where
  | done (fuel inner) : Rounds fuel inner [] inner [] (.ready (.ok ()))
  | failed {fuel inner inner' buf e} : buf.isEmpty = false →
      AsyncWrite.pollWrite inner buf = (inner', .ready (.error e)) →
      Rounds (fuel + 1) inner buf inner' buf (.ready (.error streamError))
  | pending {fuel inner inner' buf} : buf.isEmpty = false →
      AsyncWrite.pollWrite inner buf = (inner', .pending) →
      Rounds (fuel + 1) inner buf inner' buf .pending
  | wrote {fuel inner inner₁ inner' buf buf' n answer} : buf.isEmpty = false →
      AsyncWrite.pollWrite inner buf = (inner₁, .ready (.ok n)) →
      Rounds fuel inner₁ (buf.drop n) inner' buf' answer →
      Rounds (fuel + 1) inner buf inner' buf' answer

theorem writeBuffered_rounds {fuel : ℕ} {inner inner' : S} {buf buf' : Bytes} {answer : Answer}
    (h : writeBuffered fuel inner buf = some (inner', buf', answer)) :
    Rounds fuel inner buf inner' buf' answer := by
  induction fuel generalizing inner buf with
  | zero =>
    cases hb : buf.isEmpty with
    | true =>
      rw [writeBuffered_empty hb] at h
      cases h
      rw [List.isEmpty_iff.mp hb]
      exact .done 0 _
    | false =>
      simp [writeBuffered, hb] at h
  | succ fuel ih =>
    cases hb : buf.isEmpty with
    | true =>
      rw [writeBuffered_empty hb] at h
      cases h
      rw [List.isEmpty_iff.mp hb]
      exact .done _ _
    | false =>
      cases hw : AsyncWrite.pollWrite inner buf with
      | mk inner₁ result =>
        rcases result with _ | (e | n)
        · rw [writeBuffered_pending hb hw] at h
          cases h
          exact .pending hb hw
        · rw [writeBuffered_failed hb hw] at h
          cases h
          exact .failed hb hw
        · rw [writeBuffered_wrote hb hw] at h
          exact .wrote hb hw (ih h)

/-- What a poll does to the peer and to the buffer: bytes move from the front of the buffer to
the peer, nothing is closed, and the answer is `Ok` only when no byte is left. -/
structure Moves (inner : Traced S) (buf : Bytes) (inner' : Traced S) (buf' : Bytes)
    (answer : Answer) : Prop where
  conserved : inner'.accepted ++ buf' = inner.accepted ++ buf
  closed : inner'.closed = inner.closed
  emptied : answer = .ready (.ok ()) → buf' = []

theorem writeBuffered_moves {fuel : ℕ} {inner inner' : Traced S} {buf buf' : Bytes}
    {answer : Answer} (h : writeBuffered fuel inner buf = some (inner', buf', answer)) :
    Moves inner buf inner' buf' answer := by
  replace h := writeBuffered_rounds h
  induction h with
  | done => exact ⟨rfl, rfl, fun _ => rfl⟩
  | failed _ hw =>
    obtain ⟨hacc, hclosed⟩ := traced_write hw
    exact ⟨by simp [hacc, Traced.taken], hclosed, fun ha => nomatch ha⟩
  | pending _ hw =>
    obtain ⟨hacc, hclosed⟩ := traced_write hw
    exact ⟨by simp [hacc, Traced.taken], hclosed, fun ha => nomatch ha⟩
  | wrote _ hw _ hmoves =>
    obtain ⟨hacc, hclosed⟩ := traced_write hw
    refine ⟨?_, hmoves.closed.trans hclosed, hmoves.emptied⟩
    rw [hmoves.conserved, hacc, Traced.taken, List.append_assoc, List.take_append_drop]

theorem finishBuffered_moves {fuel : ℕ} {inner inner' : Traced S} {buf buf' : Bytes}
    {answer : Answer} (h : finishBuffered fuel inner buf = some (inner', buf', answer)) :
    Moves inner buf inner' buf' answer := by
  unfold finishBuffered at h
  split at h
  next inner₁ buf₁ hw =>
    have hmoves := writeBuffered_moves hw
    cases hf : AsyncWrite.pollFlush inner₁ with
    | mk inner₂ result =>
      obtain ⟨hacc, hclosed⟩ := traced_flush hf
      simp only [hf, Option.some.injEq, Prod.mk.injEq] at h
      obtain ⟨rfl, rfl, -⟩ := h
      exact ⟨hacc ▸ hmoves.conserved, hclosed.trans hmoves.closed, fun _ => hmoves.emptied rfl⟩
  next => exact writeBuffered_moves h

/-- What every write preserves, a poll preserves. -/
theorem writeBuffered_preserves {P : S → Prop}
    (hwrite : ∀ s s' buf answer, AsyncWrite.pollWrite s buf = (s', answer) → P s → P s')
    {fuel : ℕ} {inner inner' : S} {buf buf' : Bytes} {answer : Answer}
    (h : writeBuffered fuel inner buf = some (inner', buf', answer)) (hp : P inner) :
    P inner' := by
  replace h := writeBuffered_rounds h
  induction h with
  | done => exact hp
  | failed _ hw => exact hwrite _ _ _ _ hw hp
  | pending _ hw => exact hwrite _ _ _ _ hw hp
  | wrote _ hw _ ih =>
    apply ih
    exact hwrite _ _ _ _ hw hp

theorem finishBuffered_preserves {P : S → Prop}
    (hwrite : ∀ s s' buf answer, AsyncWrite.pollWrite s buf = (s', answer) → P s → P s')
    (hflush : ∀ s s' answer, AsyncWrite.pollFlush s = (s', answer) → P s → P s')
    {fuel : ℕ} {inner inner' : S} {buf buf' : Bytes} {answer : Answer}
    (h : finishBuffered fuel inner buf = some (inner', buf', answer)) (hp : P inner) :
    P inner' := by
  unfold finishBuffered at h
  split at h
  next inner₁ buf₁ hw =>
    have hwritten := writeBuffered_preserves hwrite hw hp
    obtain ⟨rfl, -⟩ := Prod.mk.inj (Option.some.inj h)
    exact hflush _ _ _ rfl hwritten
  next => exact writeBuffered_preserves hwrite h hp

end shared

section adapters

variable [AsyncWrite S] [Buf β] [QuicSendStream A β]

/-- The stream sends as the shared functions do, on an inner stream and a buffer of its own. -/
structure Adapts (β : Type) [Buf β] [QuicSendStream A β] (view : A ≃ S × Bytes) : Prop where
  pollReady : ∀ fuel a, QuicSendStream.pollReady β fuel a =
    (writeBuffered fuel (view a).1 (view a).2).map
      fun (inner, buf, answer) => (view.symm (inner, buf), answer)
  sendData : ∀ a (data : β), view (QuicSendStream.sendData a data).1 =
    ((view a).1, bufferData (Buf.remaining data) data (view a).2)
  pollFinish : ∀ fuel a, QuicSendStream.pollFinish β fuel a =
    (finishBuffered fuel (view a).1 (view a).2).map
      fun (inner, buf, answer) => (view.symm (inner, buf), answer)

omit [AsyncWrite S] [Buf β] [QuicSendStream A β] in
/-- The result of a shared function, taken back from the stream made of it. -/
theorem unwrapped (view : A ≃ S × Bytes) {result : Option (S × Bytes × Answer)} {a : A}
    {answer : Answer}
    (h : (result.map fun (inner, buf, answer) => (view.symm (inner, buf), answer)) =
      some (a, answer)) : result = some ((view a).1, (view a).2, answer) := by
  obtain ⟨⟨inner, buf, answer'⟩, hr, heq⟩ := Option.map_eq_some_iff.mp h
  obtain ⟨rfl, rfl⟩ := Prod.mk.inj heq
  rw [Equiv.apply_symm_apply]
  exact hr

theorem Adapts.ready {view : A ≃ S × Bytes} (hv : Adapts β view) {fuel : ℕ} {a a' : A}
    {answer : Answer} (h : QuicSendStream.pollReady β fuel a = some (a', answer)) :
    writeBuffered fuel (view a).1 (view a).2 = some ((view a').1, (view a').2, answer) := by
  rw [hv.pollReady] at h
  exact unwrapped view h

theorem Adapts.finish {view : A ≃ S × Bytes} (hv : Adapts β view) {fuel : ℕ} {a a' : A}
    {answer : Answer} (h : QuicSendStream.pollFinish β fuel a = some (a', answer)) :
    finishBuffered fuel (view a).1 (view a).2 = some ((view a').1, (view a').2, answer) := by
  rw [hv.pollFinish] at h
  exact unwrapped view h

theorem sendStream_adapts : Adapts β (H3SendStream.fields (S := S)) :=
  ⟨fun _ _ => rfl, fun _ _ => rfl, fun _ _ => rfl⟩

theorem bidiStream_adapts : Adapts β (H3BidiStream.fields (S := S)) :=
  ⟨fun _ _ => rfl, fun _ _ => rfl, fun _ _ => rfl⟩

end adapters

section runs

variable [AsyncWrite S] [Buf β] [QuicSendStream A β]

/-- The peer and the buffer together have all the data, and the write side is open. -/
structure Conserved (view : A ≃ Traced S × Bytes) (r : Run A) : Prop where
  bytes : (view r.stream).1.accepted ++ (view r.stream).2 = r.passed
  unclosed : (view r.stream).1.closed = false

omit [AsyncWrite S] in
theorem Conserved.poll {view : A ≃ Traced S × Bytes} {r : Run A} {stream : A} {answer : Answer}
    (h : Conserved view r)
    (hm : Moves (view r.stream).1 (view r.stream).2 (view stream).1 (view stream).2 answer) :
    Conserved view { r with stream := stream } :=
  ⟨hm.conserved.trans h.bytes, hm.closed.trans h.unclosed⟩

theorem step_conserves {view : A ≃ Traced S × Bytes} (hv : Adapts β view) {start : A}
    {r : Run A} {call : Call β} (h : Conserved view r)
    (he : (sending start).Enabled r call) : Conserved view ((sending start).next r call) := by
  cases call with
  | sendData data =>
    have hsend := hv.sendData r.stream data
    constructor
    · simp only [sending, hsend, bufferData_eq, ← h.bytes, List.append_assoc]
    · simp only [sending, hsend]
      exact h.unclosed
  | pollReady fuel =>
    obtain ⟨⟨stream, answer⟩, hp⟩ := Option.isSome_iff_exists.mp he
    simp only [sending, after, hp]
    exact h.poll (writeBuffered_moves (hv.ready hp))
  | pollFinish fuel =>
    obtain ⟨⟨stream, answer⟩, hp⟩ := Option.isSome_iff_exists.mp he
    simp only [sending, after, hp]
    exact h.poll (finishBuffered_moves (hv.finish hp))

theorem reachable_conserves {view : A ≃ Traced S × Bytes} (hv : Adapts β view) {start : A}
    {inner : S} (hstart : view start = (Traced.fresh inner, [])) {r : Run A}
    (hr : Reachable (sending (β := β) start) r) : Conserved view r := by
  refine reachable_of_step ?_ (fun _ _ h he => step_conserves hv h he) hr
  constructor
  · simp only [sending, hstart]
    rfl
  · simp only [sending, hstart]
    rfl

/-- When a stream reports that it is finished, all the data has been accepted in order, and
nothing has closed the write side. -/
theorem finished_unclosed {view : A ≃ Traced S × Bytes} (hv : Adapts β view) {start : A}
    {inner : S} (hstart : view start = (Traced.fresh inner, [])) {r : Run A}
    (hr : Reachable (sending (β := β) start) r) {fuel : ℕ} {stream : A}
    (hfinish : QuicSendStream.pollFinish β fuel r.stream = some (stream, .ready (.ok ()))) :
    (view stream).1.accepted = r.passed ∧ (view stream).1.closed = false := by
  have hmoves := finishBuffered_moves (hv.finish hfinish)
  have h := (reachable_conserves hv hstart hr).poll hmoves
  have hbytes := h.bytes
  rw [hmoves.emptied rfl, List.append_nil] at hbytes
  exact ⟨hbytes, h.unclosed⟩

end runs

/-- Over any inner stream and in any run, a finish that succeeds has passed on all the data and
has not closed the write side, on either kind of stream. -/
theorem poll_finish_never_closes [AsyncWrite S] [Buf β] (inner : S) :
    (∀ (r : Run (H3SendStream (Traced S))) (fuel : ℕ) (stream : H3SendStream (Traced S)),
      Reachable (sending (β := β) (H3SendStream.new (Traced.fresh inner))) r →
      QuicSendStream.pollFinish β fuel r.stream = some (stream, .ready (.ok ())) →
      stream.inner.accepted = r.passed ∧
        ¬(stream.inner.accepted = r.passed ∧ stream.inner.closed = true)) ∧
    (∀ (r : Run (H3BidiStream (Traced S))) (fuel : ℕ) (stream : H3BidiStream (Traced S)),
      Reachable (sending (β := β) (H3BidiStream.new (Traced.fresh inner))) r →
      QuicSendStream.pollFinish β fuel r.stream = some (stream, .ready (.ok ())) →
      stream.inner.accepted = r.passed ∧
        ¬(stream.inner.accepted = r.passed ∧ stream.inner.closed = true)) := by
  constructor
  · intro r fuel stream hr hfinish
    obtain ⟨hbytes, hopen⟩ := finished_unclosed sendStream_adapts rfl hr hfinish
    refine ⟨hbytes, ?_⟩
    rintro ⟨_, hclosed⟩
    cases hopen.symm.trans hclosed
  · intro r fuel stream hr hfinish
    obtain ⟨hbytes, hopen⟩ := finished_unclosed bidiStream_adapts rfl hr hfinish
    refine ⟨hbytes, ?_⟩
    rintro ⟨_, hclosed⟩
    cases hopen.symm.trans hclosed

inductive Obliging where
  | mk

instance : AsyncWrite Obliging where
  ioError := Empty
  pollWrite s buf := (s, .ready (.ok buf.length))
  pollFlush s := (s, .ready (.ok ()))
  pollClose s := (s, .ready (.ok ()))
  write_le _ _ _ h := by
    cases h
    exact Nat.le_refl _

theorem finished_stream_still_open :
    ∃ (r : Run (H3BidiStream (Traced Obliging))) (stream : H3BidiStream (Traced Obliging)),
      Reachable (sending (β := Bytes) (H3BidiStream.new (Traced.fresh .mk))) r ∧
      r.passed = [1, 2] ∧
      QuicSendStream.pollFinish Bytes 1 r.stream = some (stream, .ready (.ok ())) ∧
      stream.inner.accepted = [1, 2] ∧ stream.inner.closed = false := by
  have hrun : (sending (β := Bytes) (H3BidiStream.new (Traced.fresh Obliging.mk))).Allowed
      (sending (β := Bytes) (H3BidiStream.new (Traced.fresh Obliging.mk))).initial
      [.sendData [1, 2]] := ⟨trivial, trivial⟩
  exact ⟨_, _, execution_run hrun, rfl, rfl, rfl, rfl⟩

end H3Adapter
