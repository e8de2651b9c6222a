import Navar.H3Readiness

/-! # Runs of the sending side

Between any two writes, whatever the inner stream answers and whether or not a poll returns, the
bytes that the inner stream has accepted and the bytes in the buffer are together the data that
was passed on, and the next write offers the first byte that has not been accepted. -/
namespace H3SendRuns

open ByteBuffers
open PollStreams (Poll)
open AsyncWriters
open TransitionSystems
open H3Adapter
open H3Readiness

variable {S A β : Type}

/-- The inner stream and the buffer after the first `k` rounds of the loop of `poll_ready`, or
after the round that leaves the loop. -/
def written [AsyncWrite S] : ℕ → S → Bytes → S × Bytes
  | 0, inner, buf => (inner, buf)
  | k + 1, inner, buf =>
    if buf.isEmpty then (inner, buf)
    else
      match writeRound inner buf with
      | (inner, buf, some _) => (inner, buf)
      | (inner, buf, none) => written k inner buf

section loop

variable [AsyncWrite S]

/-- A round moves what it writes from the front of the buffer to the peer. -/
theorem writeRound_conserves (inner : Traced S) (buf : Bytes) :
    (writeRound inner buf).1.accepted ++ (writeRound inner buf).2.1 = inner.accepted ++ buf := by
  cases hw : AsyncWrite.pollWrite inner buf with
  | mk inner₁ result =>
    obtain ⟨hacc, _⟩ := traced_write hw
    rcases result with _ | (e | n)
    · simp [writeRound_pending hw, hacc, Traced.taken]
    · simp [writeRound_failed hw, hacc, Traced.taken]
    · rw [writeRound_wrote hw, hacc, Traced.taken, List.append_assoc, List.take_append_drop]

theorem written_conserves (k : ℕ) (inner : Traced S) (buf : Bytes) :
    (written k inner buf).1.accepted ++ (written k inner buf).2 = inner.accepted ++ buf := by
  induction k generalizing inner buf with
  | zero => rfl
  | succ k ih =>
    have hround := writeRound_conserves inner buf
    unfold written
    by_cases hb : buf.isEmpty = true
    · rw [if_pos hb]
    · rw [if_neg hb]
      split
      next inner₁ buf₁ answer hw =>
        rw [hw] at hround
        exact hround
      next inner₁ buf₁ hw =>
        rw [hw] at hround
        exact (ih inner₁ buf₁).trans hround

/-- A poll that returns leaves what the rounds of its loop leave. -/
theorem writeBuffered_written {fuel : ℕ} {inner inner' : S} {buf buf' : Bytes} {answer : Answer}
    (h : writeBuffered fuel inner buf = some (inner', buf', answer)) :
    written (fuel + 1) inner buf = (inner', buf') := by
  replace h := writeBuffered_rounds h
  induction h with
  | done => rfl
  | failed hb hw => simp [written, hb, writeRound_failed hw]
  | pending hb hw => simp [written, hb, writeRound_pending hw]
  | wrote hb hw _ ih =>
    unfold written
    simp only [hb, writeRound_wrote hw]
    exact ih

/-- The first thing that a poll offers, if anything, is the buffer from its first byte on. -/
theorem writeBuffered_offers {fuel : ℕ} {inner inner' : Traced (Offered S)} {buf buf' : Bytes}
    {answer : Answer} (h : writeBuffered fuel inner buf = some (inner', buf', answer)) :
    ∃ offers, inner'.stream.offers = inner.stream.offers ++ offers ∧
      offers.head? = if buf = [] then none else some buf := by
  replace h := writeBuffered_rounds h
  have hfirst : ∀ {buf : Bytes} (offers : List Bytes), buf.isEmpty = false →
      (buf :: offers).head? = if buf = [] then none else some buf := by
    rintro buf offers hb
    rw [if_neg (List.isEmpty_eq_false_iff.mp hb), List.head?_cons]
  induction h with
  | done => exact ⟨[], (List.append_nil _).symm, rfl⟩
  | failed hb hw => exact ⟨[_], offered_write hw, hfirst [] hb⟩
  | pending hb hw => exact ⟨[_], offered_write hw, hfirst [] hb⟩
  | wrote hb hw _ ih =>
    obtain ⟨offers, hoffers, _⟩ := ih
    refine ⟨_ :: offers, ?_, hfirst offers hb⟩
    rw [hoffers, offered_write hw, List.append_assoc]
    rfl

end loop

/-- A poll, from the answer to its first write of `buf` on. -/
def afterWrite (β : Type) [AsyncWrite S] [QuicSendStream A β] (view : A ≃ S × Bytes) (fuel : ℕ)
    (buf : Bytes) : S × Poll (Except (AsyncWrite.ioError S) ℕ) → Option (A × Answer)
  | (inner, .ready (.ok n)) => QuicSendStream.pollReady β fuel (view.symm (inner, buf.drop n))
  | (inner, .ready (.error _)) => some (view.symm (inner, buf), .ready (.error streamError))
  | (inner, .pending) => some (view.symm (inner, buf), .pending)

/-- The bytes accepted and the bytes buffered are the data passed on, also after any number of
rounds of a poll. A poll with an empty buffer answers `Ok` at once. Any other begins with a write
of what has not been accepted, and with the answer to it goes on, fails or waits; it returns unless
the inner stream accepts zero bytes for ever. -/
structure InOrder (β : Type) [AsyncWrite S] [QuicSendStream A β]
    (view : A ≃ Traced (Offered S) × Bytes) (r : Run A) : Prop where
  conserved : (view r.stream).1.accepted ++ (view r.stream).2 = r.passed
  rounds : ∀ k, (written k (view r.stream).1 (view r.stream).2).1.accepted ++
    (written k (view r.stream).1 (view r.stream).2).2 = r.passed
  empty : (view r.stream).2 = [] → ∀ fuel,
    QuicSendStream.pollReady β fuel r.stream = some (r.stream, .ready (.ok ()))
  resumed : (view r.stream).2 ≠ [] → ∀ fuel,
    QuicSendStream.pollReady β (fuel + 1) r.stream =
      afterWrite β view fuel (view r.stream).2 (AsyncWrite.pollWrite (view r.stream).1
        (r.passed.drop (view r.stream).1.accepted.length))
  returns : (∃ fuel, (QuicSendStream.pollReady β fuel r.stream).isSome = true) ↔
    ¬ AcceptsNoMore (view r.stream).1 (view r.stream).2
  returned : ∀ fuel stream answer,
    QuicSendStream.pollReady β fuel r.stream = some (stream, answer) →
      view stream = written (fuel + 1) (view r.stream).1 (view r.stream).2 ∧
      (answer = .ready (.ok ()) → (view stream).2 = [] ∧ (view stream).1.accepted = r.passed)
  offered : ∀ fuel stream answer,
    QuicSendStream.pollReady β fuel r.stream = some (stream, answer) →
      ∃ offers, (view stream).1.stream.offers = (view r.stream).1.stream.offers ++ offers ∧
        offers.head? = if (view r.stream).2 = [] then none
          else some (r.passed.drop (view r.stream).1.accepted.length)

section runs

variable [AsyncWrite S] [Buf β] [QuicSendStream A β]

theorem pollReady_empty {view : A ≃ S × Bytes} (hv : Adapts β view) {a : A}
    (hempty : (view a).2 = []) (fuel : ℕ) :
    QuicSendStream.pollReady β fuel a = some (a, .ready (.ok ())) := by
  have hback : view.symm ((view a).1, (view a).2) = a := view.symm_apply_apply a
  rw [hv.pollReady, writeBuffered_empty (by rw [hempty]; rfl), Option.map_some]
  exact congrArg (fun a => some (a, _)) hback

/-- A poll with something to write is a write of all of it, and what the answer makes of it. -/
theorem pollReady_round {view : A ≃ S × Bytes} (hv : Adapts β view) {a : A}
    (hbuf : (view a).2 ≠ []) (fuel : ℕ) :
    QuicSendStream.pollReady β (fuel + 1) a =
      afterWrite β view fuel (view a).2 (AsyncWrite.pollWrite (view a).1 (view a).2) := by
  have hb : (view a).2.isEmpty = false := List.isEmpty_eq_false_iff.mpr hbuf
  rw [hv.pollReady]
  cases hw : AsyncWrite.pollWrite (view a).1 (view a).2 with
  | mk inner result =>
    rcases result with _ | (e | n)
    · rw [writeBuffered_pending hb hw]
      rfl
    · rw [writeBuffered_failed hb hw]
      rfl
    · rw [writeBuffered_wrote hb hw]
      simp only [afterWrite, hv.pollReady, Equiv.apply_symm_apply]

theorem pollReady_isSome_iff {view : A ≃ S × Bytes} (hv : Adapts β view) (a : A) :
    (∃ fuel, (QuicSendStream.pollReady β fuel a).isSome = true) ↔
      ¬ AcceptsNoMore (view a).1 (view a).2 := by
  rw [← writeBuffered_none_iff, not_forall]
  apply exists_congr
  intro fuel
  rw [hv.pollReady, Option.isSome_map, Option.isSome_iff_ne_none]

end runs

theorem reachable_inOrder [AsyncWrite S] [Buf β] [QuicSendStream A β]
    {view : A ≃ Traced (Offered S) × Bytes} (hv : Adapts β view) {start : A} {inner : Offered S}
    (hstart : view start = (Traced.fresh inner, [])) {r : Run A}
    (hr : Reachable (sending (β := β) start) r) : InOrder β view r := by
  have hbytes := (reachable_conserves hv hstart hr).bytes
  have hrest : r.passed.drop (view r.stream).1.accepted.length = (view r.stream).2 := by
    rw [← hbytes, List.drop_left]
  constructor
  · exact hbytes
  · intro k
    rw [written_conserves, hbytes]
  · exact pollReady_empty hv
  · rw [hrest]
    exact pollReady_round hv
  · exact pollReady_isSome_iff hv r.stream
  · intro fuel stream answer hp
    have hw := hv.ready hp
    refine ⟨(writeBuffered_written hw).symm, ?_⟩
    intro hok
    have hmoves := writeBuffered_moves hw
    have hempty := hmoves.emptied hok
    refine ⟨hempty, ?_⟩
    have hall := hmoves.conserved
    rwa [hempty, List.append_nil, hbytes] at hall
  · intro fuel stream answer hp
    rw [hrest]
    exact writeBuffered_offers (hv.ready hp)

/-- In every run of either stream over any inner stream no byte is lost, doubled or moved. -/
theorem send_side_conserves_bytes [AsyncWrite S] [Buf β] (inner : Offered S) :
    (∀ r : Run (H3SendStream (Traced (Offered S))),
      Reachable (sending (β := β) (H3SendStream.new (Traced.fresh inner))) r →
        InOrder β H3SendStream.fields r) ∧
    (∀ r : Run (H3BidiStream (Traced (Offered S))),
      Reachable (sending (β := β) (H3BidiStream.new (Traced.fresh inner))) r →
        InOrder β H3BidiStream.fields r) :=
  ⟨fun _ hr => reachable_inOrder sendStream_adapts rfl hr,
    fun _ hr => reachable_inOrder bidiStream_adapts rfl hr⟩

/-- A writer that takes one byte of every other offer, and has the offers between wait. -/
structure Halting where
  waiting : Bool

instance : AsyncWrite Halting where
  ioError := Empty
  pollWrite s buf :=
    if s.waiting then (⟨false⟩, .pending) else (⟨true⟩, .ready (.ok (min 1 buf.length)))
  pollFlush s := (s, .ready (.ok ()))
  pollClose s := (s, .ready (.ok ()))
  write_le s buf n h := by
    by_cases hw : s.waiting = true
    · rw [if_pos hw] at h
      cases h
    · rw [if_neg hw] at h
      cases h
      exact Nat.min_le_right _ _

abbrev halting : System (Run (H3BidiStream (Traced (Offered Halting)))) (Call Bytes) :=
  sending (H3BidiStream.new (Traced.fresh { stream := { waiting := false }, offers := [] }))

/-- The first poll waits behind one byte, and the next one goes on with the second. -/
theorem send_side_conserves_bytes_halting :
    let r := halting.run halting.initial [.sendData [1, 2, 3], .pollReady 2]
    InOrder Bytes H3BidiStream.fields r ∧ r.passed = [1, 2, 3] ∧
      r.stream.inner.accepted = [1] ∧ r.stream.sendBuf = [2, 3] ∧
      ∃ stream, QuicSendStream.pollReady Bytes 2 r.stream = some (stream, .pending) ∧
        stream.inner.accepted = [1, 2] ∧
        stream.inner.stream.offers = [[1, 2, 3], [2, 3]] ++ [[2, 3], [3]] :=
  have hallowed : halting.Allowed halting.initial [.sendData [1, 2, 3], .pollReady 2] :=
    ⟨trivial, rfl, trivial⟩
  ⟨(send_side_conserves_bytes _).2 _ (execution_run hallowed), rfl, rfl, rfl, _, rfl, rfl, rfl⟩

end H3SendRuns
