import Navar.DuplexStreams
import Navar.H3Connections

/-! # Splitting a bidirectional HTTP/3 stream

The adapter splits the stream of the transport and begins a send stream and a receive stream on the
halves. What the inner stream answers from then on is arbitrary. -/
namespace H3Splitting

open ByteBuffers
open PollStreams (Poll)
open AsyncWriters
open DuplexStreams
open TransitionSystems
open H3Adapter
open H3Connections (H3RecvStream)

variable {S S' T β : Type}

/-- `H3BidiStream::split`. -/
def split [BidiStream S] (s : H3BidiStream S) :
    H3SendStream (BidiStream.Send S) × H3RecvStream (BidiStream.Recv S) :=
  let (send, recv) := BidiStream.split s.inner
  (H3SendStream.new send, { inner := recv })

/-- The adapter, with an inner stream that goes on in its own way. -/
def resumed (s : H3BidiStream (Traced S)) (inner : T) : H3BidiStream (Traced T) :=
  { inner := { stream := inner, accepted := s.inner.accepted, closed := s.inner.closed }
    sendBuf := s.sendBuf }

/-- Whatever the inner stream answers and whatever is called, the returned half passes on the bytes
that the stream would have passed on without the split. -/
def KeepsBytes (β : Type) [Buf β] (s : H3BidiStream (Traced S)) : Prop :=
  ∀ (T : Type) [BidiStream T] (inner : T) (calls : List (Call β)),
    let whole := sending (resumed s inner)
    let half := sending (split (resumed s inner)).1
    whole.Allowed whole.initial calls → half.Allowed half.initial calls ∧
      (half.run half.initial calls).stream.inner.accepted =
        (whole.run whole.initial calls).stream.inner.accepted

section simulation

variable [AsyncWrite S] [AsyncWrite S']

/-- The image of a stream answers as the stream does, and stays its image. -/
structure WritesAlike (f : S → S') : Prop where
  write : ∀ s buf, f (AsyncWrite.pollWrite s buf).1 = (AsyncWrite.pollWrite (f s) buf).1 ∧
    outcome (AsyncWrite.pollWrite s buf).2 = outcome (AsyncWrite.pollWrite (f s) buf).2
  flush : ∀ s, f (AsyncWrite.pollFlush s).1 = (AsyncWrite.pollFlush (f s)).1 ∧
    outcome (AsyncWrite.pollFlush s).2 = outcome (AsyncWrite.pollFlush (f s)).2

variable {f : S → S'}

/-- One round, by the answer to its write. -/
theorem writeRound_map (hf : WritesAlike f) (inner : S) (buf : Bytes) :
    writeRound (f inner) buf = (f (writeRound inner buf).1, (writeRound inner buf).2) := by
  obtain ⟨hinner, hanswer⟩ := hf.write inner buf
  cases hw : AsyncWrite.pollWrite inner buf with
  | mk inner₁ answer =>
    cases hw' : AsyncWrite.pollWrite (f inner) buf with
    | mk other answer' =>
      rw [hw, hw'] at hinner hanswer
      simp only at hinner hanswer
      subst hinner
      rcases answer with _ | (e | n)
      · rcases answer' with _ | (e' | n')
        · rw [writeRound_pending hw, writeRound_pending hw']
        · cases hanswer
        · cases hanswer
      · rcases answer' with _ | (e' | n')
        · cases hanswer
        · rw [writeRound_failed hw, writeRound_failed hw']
        · cases hanswer
      · rcases answer' with _ | (e' | n')
        · cases hanswer
        · cases hanswer
        · cases hanswer
          rw [writeRound_wrote hw, writeRound_wrote hw']

theorem writeBuffered_map (hf : WritesAlike f) (fuel : ℕ) (inner : S) (buf : Bytes) :
    writeBuffered fuel (f inner) buf =
      (writeBuffered fuel inner buf).map fun (inner, buf, answer) => (f inner, buf, answer) := by
  induction fuel generalizing inner buf with
  | zero =>
    unfold writeBuffered
    split_ifs <;> rfl
  | succ fuel ih =>
    by_cases hb : buf.isEmpty = true
    · rw [writeBuffered_empty hb, writeBuffered_empty hb]
      rfl
    · replace hb : buf.isEmpty = false := Bool.eq_false_iff.mpr hb
      rw [writeBuffered_round hb, writeBuffered_round hb, writeRound_map hf]
      obtain ⟨inner₁, buf₁, (_ | answer)⟩ := writeRound inner buf
      · exact ih inner₁ buf₁
      · rfl

theorem flushed_congr {ε ε' : Type} {answer : Poll (Except ε Unit)}
    {answer' : Poll (Except ε' Unit)} (h : outcome answer = outcome answer') :
    flushed answer = flushed answer' := by
  rcases answer with _ | (e | u) <;> rcases answer' with _ | (e' | u') <;>
    first
      | rfl
      | cases h

theorem finishBuffered_map (hf : WritesAlike f) (fuel : ℕ) (inner : S) (buf : Bytes) :
    finishBuffered fuel (f inner) buf =
      (finishBuffered fuel inner buf).map fun (inner, buf, answer) => (f inner, buf, answer) := by
  unfold finishBuffered
  rw [writeBuffered_map hf]
  cases writeBuffered fuel inner buf with
  | none => rfl
  | some result =>
    obtain ⟨inner₁, buf₁, answer⟩ := result
    rcases answer with _ | (e | u)
    · rfl
    · rfl
    · obtain ⟨hinner, hanswer⟩ := hf.flush inner₁
      simp only [Option.map_some, hinner, flushed_congr hanswer]

end simulation

section halves

variable [BidiStream T]

theorem split_writesAlike :
    WritesAlike fun s : T => (BidiStream.split s).1 :=
  ⟨BidiStream.split_write, BidiStream.split_flush⟩

/-- The sending half with the buffer of the stream. -/
def sendingHalf (s : H3BidiStream T) : H3SendStream (BidiStream.Send T) :=
  { inner := (BidiStream.split s.inner).1, buf := s.sendBuf }

theorem split_of_empty {s : H3BidiStream T} (h : s.sendBuf = []) :
    (split s).1 = sendingHalf s := by
  rw [sendingHalf, h]
  rfl

variable [Buf β]

theorem pollReady_half (fuel : ℕ) (s : H3BidiStream T) :
    QuicSendStream.pollReady β fuel (sendingHalf s) =
      (QuicSendStream.pollReady β fuel s).map fun (s, answer) => (sendingHalf s, answer) := by
  simp only [QuicSendStream.pollReady, sendingHalf, writeBuffered_map split_writesAlike,
    Option.map_map, Function.comp_def]

theorem pollFinish_half (fuel : ℕ) (s : H3BidiStream T) :
    QuicSendStream.pollFinish β fuel (sendingHalf s) =
      (QuicSendStream.pollFinish β fuel s).map fun (s, answer) => (sendingHalf s, answer) := by
  simp only [QuicSendStream.pollFinish, sendingHalf, finishBuffered_map split_writesAlike,
    Option.map_map, Function.comp_def]

def runHalf (r : Run (H3BidiStream T)) : Run (H3SendStream (BidiStream.Send T)) :=
  { stream := sendingHalf r.stream, passed := r.passed }

theorem after_half (r : Run (H3BidiStream T)) (result : Option (H3BidiStream T × Answer)) :
    after (runHalf r) (result.map fun (s, answer) => (sendingHalf s, answer)) =
      runHalf (after r result) := by
  cases result <;> rfl

/-- With the buffer, the half does what the stream does. -/
theorem next_half (start : H3BidiStream T) (r : Run (H3BidiStream T)) (call : Call β) :
    (sending (sendingHalf start)).next (runHalf r) call =
      runHalf ((sending start).next r call) ∧
    ((sending (sendingHalf start)).Enabled (runHalf r) call ↔ (sending start).Enabled r call) := by
  cases call with
  | sendData data => exact ⟨rfl, Iff.rfl⟩
  | pollReady fuel =>
    have hpoll := pollReady_half (β := β) fuel r.stream
    simp only [sending, runHalf, hpoll]
    exact ⟨after_half r _, by rw [Option.isSome_map]⟩
  | pollFinish fuel =>
    have hpoll := pollFinish_half (β := β) fuel r.stream
    simp only [sending, runHalf, hpoll]
    exact ⟨after_half r _, by rw [Option.isSome_map]⟩

theorem run_half (start : H3BidiStream T) (calls : List (Call β)) (r : Run (H3BidiStream T)) :
    (sending (sendingHalf start)).run (runHalf r) calls =
      runHalf ((sending start).run r calls) ∧
    ((sending (sendingHalf start)).Allowed (runHalf r) calls ↔
      (sending start).Allowed r calls) := by
  induction calls generalizing r with
  | nil => exact ⟨rfl, Iff.rfl⟩
  | cons call calls ih =>
    obtain ⟨hnext, henabled⟩ := next_half start r call
    obtain ⟨hrun, hallowed⟩ := ih ((sending start).next r call)
    simp only [System.run, List.foldl_cons] at hrun ⊢
    simp only [System.Allowed, hnext]
    exact ⟨hrun, and_congr henabled hallowed⟩

end halves

/-- A reader that never has anything. -/
inductive Silent where
  | mk

instance : AsyncRead Silent where
  readError := Empty
  pollRead s buf := (s, buf, .pending)
  filled_length _ _ := rfl
  read_le _ _ _ h := nomatch h

theorem obliging_takes_all (buf : Bytes) (inner : Traced (Halves Obliging Silent)) :
    writeBuffered 1 inner buf =
      some ({ inner with accepted := inner.accepted ++ buf }, [], .ready (.ok ())) := by
  cases buf with
  | nil => simp [writeBuffered_empty]
  | cons b bs =>
    have hw : AsyncWrite.pollWrite inner (b :: bs) =
        ({ inner with accepted := inner.accepted ++ (b :: bs) },
          .ready (.ok (b :: bs).length)) := by
      simp [AsyncWrite.pollWrite, Traced.taken]
    rw [writeBuffered_wrote rfl hw, List.drop_length, writeBuffered_empty rfl]

theorem keepsBytes_iff [Buf β] (s : H3BidiStream (Traced S)) :
    KeepsBytes β s ↔ s.sendBuf = [] := by
  constructor
  · intro h
    have hready : QuicSendStream.pollReady β 1 (resumed s (Halves.mk Obliging.mk Silent.mk)) =
        some ({ inner := { stream := ⟨.mk, .mk⟩, accepted := s.inner.accepted ++ s.sendBuf,
                           closed := s.inner.closed }
                sendBuf := [] }, .ready (.ok ())) := by
      simp only [QuicSendStream.pollReady, obliging_takes_all]
      rfl
    have hwhole : (sending (β := β) (resumed s (Halves.mk Obliging.mk Silent.mk))).Allowed
        (sending (β := β) (resumed s (Halves.mk Obliging.mk Silent.mk))).initial
        [.pollReady 1] := ⟨by simp only [sending, hready]; rfl, trivial⟩
    obtain ⟨_, hsame⟩ := h (Halves Obliging Silent) ⟨.mk, .mk⟩ [.pollReady 1] hwhole
    simp only [System.run, sending, List.foldl_cons, List.foldl_nil, hready, after] at hsame
    -- the half begins with an empty buffer, so its poll writes nothing
    have hnothing : s.inner.accepted = s.inner.accepted ++ s.sendBuf := hsame
    simpa using hnothing
  · intro hempty T _ inner calls whole half hallowed
    have hstart : (split (resumed s inner)).1 = sendingHalf (resumed s inner) :=
      split_of_empty hempty
    obtain ⟨hrun, hallowed'⟩ := run_half (resumed s inner) calls whole.initial
    simp only [half, hstart]
    exact ⟨hallowed'.mpr hallowed, congrArg (fun r => r.stream.inner.accepted) hrun⟩

/-- What a stream has accepted and buffered is what it began with and the data passed on since. -/
theorem reachable_bytes {A : Type} [AsyncWrite S] [Buf β] [QuicSendStream A β]
    {view : A ≃ Traced S × Bytes} (hv : Adapts β view) {start : A} {u : Run A}
    (hu : Reachable (sending (β := β) start) u) :
    (view u.stream).1.accepted ++ (view u.stream).2 =
      (view start).1.accepted ++ (view start).2 ++ u.passed := by
  refine reachable_of_step (P := fun u => (view u.stream).1.accepted ++ (view u.stream).2 =
    (view start).1.accepted ++ (view start).2 ++ u.passed) (List.append_nil _).symm ?_ hu
  intro u call hbytes he
  cases call with
  | sendData data =>
    simp only [sending, hv.sendData, bufferData_eq]
    rw [← List.append_assoc, hbytes, List.append_assoc]
  | pollReady fuel =>
    obtain ⟨⟨stream, answer⟩, hp⟩ := Option.isSome_iff_exists.mp he
    simp only [sending, after, hp]
    rw [(writeBuffered_moves (hv.ready hp)).conserved, hbytes]
  | pollFinish fuel =>
    obtain ⟨⟨stream, answer⟩, hp⟩ := Option.isSome_iff_exists.mp he
    simp only [sending, after, hp]
    rw [(finishBuffered_moves (hv.finish hp)).conserved, hbytes]

/-- Splitting a stream keeps the bytes exactly when all the data passed on has been accepted by the
inner stream before. What is still in the buffer is lost: in every run of the returned half, what
it has accepted and buffered is what the stream had accepted and the data passed on since. -/
theorem split_keeps_bytes_iff [BidiStream S] [Buf β] (inner : S)
    {r : Run (H3BidiStream (Traced S))}
    (hr : Reachable (sending (β := β) (H3BidiStream.new (Traced.fresh inner))) r) :
    (KeepsBytes β r.stream ↔ r.stream.inner.accepted = r.passed) ∧
      ∀ u, Reachable (sending (β := β) (split r.stream).1) u →
        u.stream.inner.accepted ++ u.stream.buf = r.stream.inner.accepted ++ u.passed := by
  have hbytes : r.stream.inner.accepted ++ r.stream.sendBuf = r.passed :=
    (reachable_conserves bidiStream_adapts rfl hr).bytes
  constructor
  · rw [keepsBytes_iff, ← hbytes]
    simp
  · intro u hu
    have hall : u.stream.inner.accepted ++ u.stream.buf =
        (split r.stream).1.inner.accepted ++ (split r.stream).1.buf ++ u.passed :=
      reachable_bytes sendStream_adapts hu
    have hstart : (split r.stream).1.inner.accepted ++ (split r.stream).1.buf =
        r.stream.inner.accepted := List.append_nil _
    rwa [hstart] at hall

abbrev queueing : System (Run (H3BidiStream (Traced (Halves Obliging Silent)))) (Call Bytes) :=
  sending (H3BidiStream.new (Traced.fresh ⟨.mk, .mk⟩))

theorem split_keeps_bytes_iff_flushed :
    KeepsBytes Bytes (queueing.run queueing.initial [.sendData [1, 2], .pollReady 1]).stream :=
  have hallowed : queueing.Allowed queueing.initial [.sendData [1, 2], .pollReady 1] :=
    ⟨trivial, rfl, trivial⟩
  (split_keeps_bytes_iff (Halves.mk Obliging.mk Silent.mk) (execution_run hallowed)).1.mpr rfl

/-- The half finishes without the bytes that were queued; the stream would have passed them on. -/
theorem queued_bytes_lost :
    let queued := (queueing.run queueing.initial [.sendData [1, 2]]).stream
    Reachable queueing (queueing.run queueing.initial [.sendData [1, 2]]) ∧
      (∃ whole, QuicSendStream.pollFinish Bytes 1 queued = some (whole, .ready (.ok ())) ∧
        whole.inner.accepted = [1, 2]) ∧
      (∃ half, QuicSendStream.pollFinish Bytes 1 (split queued).1 =
          some (half, .ready (.ok ())) ∧ half.inner.accepted = []) ∧
      ¬ KeepsBytes Bytes queued := by
  intro queued
  refine ⟨execution_run ⟨trivial, trivial⟩, ⟨_, rfl, rfl⟩, ⟨_, rfl, rfl⟩, ?_⟩
  intro h
  cases (keepsBytes_iff queued).mp h

end H3Splitting
