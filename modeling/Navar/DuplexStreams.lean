import Navar.AsyncWriters

/-! # Polled readers, and streams of both directions

A reader fills a part of the buffer that it is offered, or none yet, or fails; an empty read of a
buffer that is not empty is the end of the stream. A stream of both directions splits into halves,
and the sending half writes as the stream would. `Recorded` adds to a reader what it has given. -/
namespace DuplexStreams

open ByteBuffers (Bytes)
open PollStreams (Poll)
open AsyncWriters

class AsyncRead (S : Type) where
  readError : Type
  pollRead : S → Bytes → S × Bytes × Poll (Except readError ℕ)
  filled_length : ∀ s buf, (pollRead s buf).2.1.length = buf.length
  read_le : ∀ s buf n, (pollRead s buf).2.2 = .ready (.ok n) → n ≤ buf.length

variable {S W R α ε : Type}

/-- What a caller that drops the error sees of an answer. -/
def outcome : Poll (Except ε α) → Poll (Option α)
  | .pending => .pending
  | .ready (.ok a) => .ready (some a)
  | .ready (.error _) => .ready none

class BidiStream (S : Type) extends AsyncRead S, AsyncWrite S where
  Send : Type
  Recv : Type
  sendHalf : AsyncWrite Send
  recvHalf : AsyncRead Recv
  split : S → Send × Recv
  split_write : ∀ s buf,
    (split (pollWrite s buf).1).1 = (sendHalf.pollWrite (split s).1 buf).1 ∧
      outcome (pollWrite s buf).2 = outcome (sendHalf.pollWrite (split s).1 buf).2
  split_flush : ∀ s,
    (split (pollFlush s).1).1 = (sendHalf.pollFlush (split s).1).1 ∧
      outcome (pollFlush s).2 = outcome (sendHalf.pollFlush (split s).1).2

attribute [reducible, instance] BidiStream.sendHalf BidiStream.recvHalf

/-- Two halves that make up a stream. -/
structure Halves (W R : Type) where
  send : W
  recv : R

instance [AsyncWrite W] : AsyncWrite (Halves W R) where
  ioError := AsyncWrite.ioError W
  pollWrite s buf :=
    let (send, answer) := AsyncWrite.pollWrite s.send buf
    ({ s with send := send }, answer)
  pollFlush s :=
    let (send, answer) := AsyncWrite.pollFlush s.send
    ({ s with send := send }, answer)
  pollClose s :=
    let (send, answer) := AsyncWrite.pollClose s.send
    ({ s with send := send }, answer)
  write_le s buf n h := AsyncWrite.write_le s.send buf n h

instance [AsyncRead R] : AsyncRead (Halves W R) where
  readError := AsyncRead.readError R
  pollRead s buf :=
    let (recv, buf, answer) := AsyncRead.pollRead s.recv buf
    ({ s with recv := recv }, buf, answer)
  filled_length s buf := AsyncRead.filled_length s.recv buf
  read_le s buf n h := AsyncRead.read_le s.recv buf n h

instance [AsyncWrite W] [AsyncRead R] : BidiStream (Halves W R) where
  Send := W
  Recv := R
  sendHalf := inferInstance
  recvHalf := inferInstance
  split s := (s.send, s.recv)
  split_write _ _ := ⟨rfl, rfl⟩
  split_flush _ := ⟨rfl, rfl⟩

instance [AsyncRead S] : AsyncRead (Traced S) where
  readError := AsyncRead.readError S
  pollRead s buf :=
    let (stream, buf, answer) := AsyncRead.pollRead s.stream buf
    ({ s with stream := stream }, buf, answer)
  filled_length s buf := AsyncRead.filled_length s.stream buf
  read_le s buf n h := AsyncRead.read_le s.stream buf n h

theorem taken_congr {ε' : Type} {answer : Poll (Except ε ℕ)} {answer' : Poll (Except ε' ℕ)}
    (h : outcome answer = outcome answer') (buf : Bytes) :
    Traced.taken buf answer = Traced.taken buf answer' := by
  rcases answer with _ | (e | n)
  · rcases answer' with _ | (e' | n')
    · rfl
    · cases h
    · cases h
  · rcases answer' with _ | (e' | n')
    · cases h
    · rfl
    · cases h
  · rcases answer' with _ | (e' | n')
    · cases h
    · cases h
    · cases h
      rfl

/-- The sending half goes on with the record of the stream. -/
instance [BidiStream S] : BidiStream (Traced S) where
  Send := Traced (BidiStream.Send S)
  Recv := BidiStream.Recv S
  sendHalf := inferInstance
  recvHalf := inferInstance
  split s :=
    let (send, recv) := BidiStream.split s.stream
    ({ stream := send, accepted := s.accepted, closed := s.closed }, recv)
  split_write s buf := by
    obtain ⟨hsend, hanswer⟩ := BidiStream.split_write s.stream buf
    refine ⟨?_, hanswer⟩
    simp only [AsyncWrite.pollWrite, hsend, taken_congr hanswer]
  split_flush s := by
    obtain ⟨hsend, hanswer⟩ := BidiStream.split_flush s.stream
    refine ⟨?_, hanswer⟩
    simp only [AsyncWrite.pollFlush, hsend]

structure Recorded (S : Type) where
  stream : S
  reads : List (Poll (Option Bytes))

namespace Recorded

def fresh (stream : S) : Recorded S := { stream := stream, reads := [] }

/-- The bytes that a read has put into the buffer. -/
def given (buf : Bytes) : Poll (Except ε ℕ) → Poll (Option Bytes)
  | .pending => .pending
  | .ready (.ok n) => .ready (some (buf.take n))
  | .ready (.error _) => .ready none

end Recorded

instance [AsyncRead S] : AsyncRead (Recorded S) where
  readError := AsyncRead.readError S
  pollRead s buf :=
    let (stream, buf, answer) := AsyncRead.pollRead s.stream buf
    ({ stream := stream, reads := s.reads ++ [Recorded.given buf answer] }, buf, answer)
  filled_length s buf := AsyncRead.filled_length s.stream buf
  read_le s buf n h := AsyncRead.read_le s.stream buf n h

instance [AsyncWrite S] : AsyncWrite (Recorded S) where
  ioError := AsyncWrite.ioError S
  pollWrite s buf :=
    let (stream, answer) := AsyncWrite.pollWrite s.stream buf
    ({ s with stream := stream }, answer)
  pollFlush s :=
    let (stream, answer) := AsyncWrite.pollFlush s.stream
    ({ s with stream := stream }, answer)
  pollClose s :=
    let (stream, answer) := AsyncWrite.pollClose s.stream
    ({ s with stream := stream }, answer)
  write_le s buf n h := AsyncWrite.write_le s.stream buf n h

/-- The receiving half goes on with the record of the stream. -/
instance [BidiStream S] : BidiStream (Recorded S) where
  Send := BidiStream.Send S
  Recv := Recorded (BidiStream.Recv S)
  sendHalf := inferInstance
  recvHalf := inferInstance
  split s :=
    let (send, recv) := BidiStream.split s.stream
    (send, { stream := recv, reads := s.reads })
  split_write s buf := BidiStream.split_write s.stream buf
  split_flush s := BidiStream.split_flush s.stream

end DuplexStreams
