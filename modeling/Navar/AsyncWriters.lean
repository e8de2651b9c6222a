import Navar.ByteBuffers
import Navar.PollStreams

/-! # Polled writers

A writer takes a part of what it is offered, or none yet, or fails; flushing and closing it may
take several polls as well. `Traced` adds to a writer what its peer has been given: the bytes that
it accepted, in order, and whether its write side has been closed. `Offered` adds what the writer
has been offered. -/
namespace AsyncWriters

open ByteBuffers (Bytes)
open PollStreams (Poll)

class AsyncWrite (S : Type) where
  ioError : Type
  pollWrite : S → Bytes → S × Poll (Except ioError ℕ)
  pollFlush : S → S × Poll (Except ioError Unit)
  pollClose : S → S × Poll (Except ioError Unit)
  write_le : ∀ s buf n, (pollWrite s buf).2 = .ready (.ok n) → n ≤ buf.length

structure Traced (S : Type) where
  stream : S
  accepted : Bytes
  closed : Bool

variable {S : Type} [AsyncWrite S]

namespace Traced

def fresh (stream : S) : Traced S := { stream := stream, accepted := [], closed := false }

def taken {ε : Type} (buf : Bytes) : Poll (Except ε ℕ) → Bytes
  | .ready (.ok n) => buf.take n
  | _ => []

def completed {ε : Type} : Poll (Except ε Unit) → Bool
  | .ready (.ok ()) => true
  | _ => false

end Traced

instance : AsyncWrite (Traced S) where
  ioError := AsyncWrite.ioError S
  pollWrite s buf :=
    let (stream, answer) := AsyncWrite.pollWrite s.stream buf
    ({ s with stream := stream, accepted := s.accepted ++ Traced.taken buf answer }, answer)
  pollFlush s :=
    let (stream, answer) := AsyncWrite.pollFlush s.stream
    ({ s with stream := stream }, answer)
  pollClose s :=
    let (stream, answer) := AsyncWrite.pollClose s.stream
    ({ s with stream := stream, closed := s.closed || Traced.completed answer }, answer)
  write_le s buf n h := AsyncWrite.write_le s.stream buf n h

theorem traced_write {s s' : Traced S} {buf : Bytes}
    {answer : Poll (Except (AsyncWrite.ioError S) ℕ)}
    (h : AsyncWrite.pollWrite s buf = (s', answer)) :
    s'.accepted = s.accepted ++ Traced.taken buf answer ∧ s'.closed = s.closed := by
  obtain ⟨rfl, rfl⟩ := Prod.mk.inj h
  exact ⟨rfl, rfl⟩

theorem traced_flush {s s' : Traced S} {answer : Poll (Except (AsyncWrite.ioError S) Unit)}
    (h : AsyncWrite.pollFlush s = (s', answer)) :
    s'.accepted = s.accepted ∧ s'.closed = s.closed := by
  obtain ⟨rfl, rfl⟩ := Prod.mk.inj h
  exact ⟨rfl, rfl⟩

structure Offered (S : Type) where
  stream : S
  offers : List Bytes

instance : AsyncWrite (Offered S) where
  ioError := AsyncWrite.ioError S
  pollWrite s buf :=
    let (stream, answer) := AsyncWrite.pollWrite s.stream buf
    ({ stream := stream, offers := s.offers ++ [buf] }, answer)
  pollFlush s :=
    let (stream, answer) := AsyncWrite.pollFlush s.stream
    ({ s with stream := stream }, answer)
  pollClose s :=
    let (stream, answer) := AsyncWrite.pollClose s.stream
    ({ s with stream := stream }, answer)
  write_le s buf n h := AsyncWrite.write_le s.stream buf n h

theorem offered_write {s s' : Traced (Offered S)} {buf : Bytes}
    {answer : Poll (Except (AsyncWrite.ioError S) ℕ)}
    (h : AsyncWrite.pollWrite s buf = (s', answer)) :
    s'.stream.offers = s.stream.offers ++ [buf] := by
  obtain ⟨rfl, -⟩ := Prod.mk.inj h
  rfl

end AsyncWriters
