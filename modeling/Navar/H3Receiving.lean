import Navar.H3Splitting

/-! # The receiving side of the QUIC adapter

`poll_data` reads into a fresh buffer and hands out the part that was filled. The stream keeps
nothing between two polls, so neither the sending side nor a split can touch what is received. -/
namespace H3Receiving

open ByteBuffers
open PollStreams (Poll)
open AsyncWriters
open DuplexStreams
open TransitionSystems
open H3Adapter
open H3Connections (H3RecvStream)
open H3Splitting (split)

variable {S A β : Type}

abbrev DataAnswer := Poll (Except StreamErrorIncoming (Option Bytes))

/-- The body of `poll_data`, the same in `H3RecvStream` and in `H3BidiStream`. -/
def readData [AsyncRead S] (inner : S) : S × DataAnswer :=
  match AsyncRead.pollRead inner (List.replicate 4096 0) with
  | (inner, _, .ready (.ok 0)) => (inner, .ready (.ok none))
  | (inner, buf, .ready (.ok (n + 1))) => (inner, .ready (.ok (some (buf.take (n + 1)))))
  | (inner, _, .ready (.error _)) => (inner, .ready (.error streamError))
  | (inner, _, .pending) => (inner, .pending)

/-- The methods of `quic::RecvStream` that a caller reads with. -/
class QuicRecvStream (A : Type) where
  pollData : A → A × DataAnswer
  stopSending : A → ℕ → A

instance [AsyncRead S] : QuicRecvStream (H3RecvStream S) where
  pollData s :=
    let (inner, answer) := readData s.inner
    ({ s with inner := inner }, answer)
  stopSending s _errorCode := s

instance [AsyncRead S] : QuicRecvStream (H3BidiStream S) where
  pollData s :=
    let (inner, answer) := readData s.inner
    ({ s with inner := inner }, answer)
  stopSending s _errorCode := s

/-- A stream, before or after it is split. -/
inductive Adapter (S : Type) [BidiStream S] where
  | whole (stream : H3BidiStream S)
  | halves (send : H3SendStream (BidiStream.Send S)) (recv : H3RecvStream (BidiStream.Recv S))

inductive AdapterCall (β : Type) where
  | pollData
  | stopSending (errorCode : ℕ)
  | send (call : Call β)
  | reset (resetCode : ℕ)
  | split

/-- A call of the sending side, which may be a poll that does not return. -/
def sendCall [QuicSendStream A β] (a : A) : Call β → Option A
  | .sendData data => some (QuicSendStream.sendData a data).1
  | .pollReady fuel => (QuicSendStream.pollReady β fuel a).map Prod.fst
  | .pollFinish fuel => (QuicSendStream.pollFinish β fuel a).map Prod.fst

/-- What a call makes of a stream, and what it answers about data. -/
def Adapter.perform [BidiStream S] [Buf β] :
    Adapter S → AdapterCall β → Option (Adapter S × List DataAnswer)
  | .whole s, .pollData =>
    let (s, answer) := QuicRecvStream.pollData s
    some (.whole s, [answer])
  | .whole s, .stopSending errorCode => some (.whole (QuicRecvStream.stopSending s errorCode), [])
  | .whole s, .send call => (sendCall s call).map fun s => (.whole s, [])
  | .whole s, .reset resetCode => some (.whole (s.reset resetCode), [])
  | .whole s, .split =>
    let (send, recv) := split s
    some (.halves send recv, [])
  | .halves send recv, .pollData =>
    let (recv, answer) := QuicRecvStream.pollData recv
    some (.halves send recv, [answer])
  | .halves send recv, .stopSending errorCode =>
    some (.halves send (QuicRecvStream.stopSending recv errorCode), [])
  | .halves send recv, .send call => (sendCall send call).map fun send => (.halves send recv, [])
  | .halves send recv, .reset resetCode => some (.halves (send.reset resetCode) recv, [])
  | .halves _ _, .split => none

structure Receiver (S : Type) [BidiStream S] where
  adapter : Adapter S
  results : List DataAnswer

def Receiver.after [BidiStream S] (r : Receiver S) :
    Option (Adapter S × List DataAnswer) → Receiver S
  | some (adapter, answers) => { adapter := adapter, results := r.results ++ answers }
  | none => r

/-- Any calls in any order, of which those on the sending side return; a split comes once. -/
def receiving [BidiStream S] [Buf β] (start : Adapter S) : System (Receiver S) (AdapterCall β) where
  initial := { adapter := start, results := [] }
  Enabled r call := (r.adapter.perform call).isSome = true
  next r call := r.after (r.adapter.perform call)

/-- The reads of the inner stream until now. -/
def reads [BidiStream S] : Adapter (Recorded S) → List (Poll (Option Bytes))
  | .whole s => s.inner.reads
  | .halves _ recv => Recorded.reads (S := BidiStream.Recv S) recv.inner

/-- What `poll_data` answers for what the inner stream has read: an empty read is its end. -/
def delivered : Poll (Option Bytes) → DataAnswer
  | .pending => .pending
  | .ready none => .ready (.error streamError)
  | .ready (some []) => .ready (.ok none)
  | .ready (some (b :: bs)) => .ready (.ok (some (b :: bs)))

/-- The bytes that the inner stream has produced. -/
def produced : Poll (Option Bytes) → Bytes
  | .ready (some bytes) => bytes
  | _ => []

/-- The bytes of the chunk that is returned. -/
def chunk : DataAnswer → Bytes
  | .ready (.ok (some bytes)) => bytes
  | _ => []

theorem chunk_delivered (read : Poll (Option Bytes)) : chunk (delivered read) = produced read := by
  rcases read with _ | (_ | (_ | ⟨b, bs⟩)) <;> rfl

theorem delivered_chunk {read : Poll (Option Bytes)} {bytes : Bytes}
    (h : delivered read = .ready (.ok (some bytes))) : bytes ≠ [] := by
  rcases read with _ | (_ | (_ | ⟨b, bs⟩)) <;> cases h
  exact List.cons_ne_nil b bs

theorem delivered_none_iff (read : Poll (Option Bytes)) :
    delivered read = .ready (.ok none) ↔ read = .ready (some []) := by
  rcases read with _ | (_ | (_ | ⟨b, bs⟩)) <;> simp [delivered]

section reading

variable [BidiStream S]

/-- A poll reads once, and answers what was read: the buffer is never empty, so an answer without
bytes is the end of the inner stream. -/
theorem readData_reads {R : Type} [AsyncRead R] (s : Recorded R) :
    ∃ read, (readData s).1.reads = s.reads ++ [read] ∧ (readData s).2 = delivered read := by
  have hlength := AsyncRead.filled_length s.stream (List.replicate 4096 0)
  unfold readData
  simp only [AsyncRead.pollRead]
  cases hread : AsyncRead.pollRead s.stream (List.replicate 4096 0) with
  | mk stream filled =>
    obtain ⟨buf, answer⟩ := filled
    rw [hread] at hlength
    rcases answer with _ | (e | (_ | n))
    · exact ⟨.pending, rfl, rfl⟩
    · exact ⟨.ready none, rfl, rfl⟩
    · exact ⟨.ready (some []), rfl, rfl⟩
    · refine ⟨.ready (some (buf.take (n + 1))), rfl, ?_⟩
      cases buf with
      | nil =>
        rw [List.length_replicate] at hlength
        cases hlength
      | cons b bs => rfl

variable [Buf β]

/-- No call of the sending side reads. -/
theorem sendCall_reads {s s' : H3BidiStream (Recorded S)} {call : Call β}
    (h : sendCall s call = some s') : s'.inner.reads = s.inner.reads := by
  have hwrite : ∀ (s s' : Recorded S) buf answer, AsyncWrite.pollWrite s buf = (s', answer) →
      s.reads = s'.reads := by
    rintro s s' buf answer hw
    obtain ⟨rfl, -⟩ := Prod.mk.inj hw
    rfl
  have hflush : ∀ (s s' : Recorded S) answer, AsyncWrite.pollFlush s = (s', answer) →
      s.reads = s'.reads := by
    rintro s s' answer hf
    obtain ⟨rfl, -⟩ := Prod.mk.inj hf
    rfl
  cases call with
  | sendData data =>
    cases h
    rfl
  | pollReady fuel =>
    obtain ⟨⟨stream, answer⟩, hpoll, rfl⟩ := Option.map_eq_some_iff.mp h
    have hw := unwrapped H3BidiStream.fields hpoll
    refine writeBuffered_preserves (P := fun i => i.reads = s.inner.reads) ?_ hw rfl
    intro i i' buf answer hi hreads
    rw [← hreads, hwrite i i' buf answer hi]
  | pollFinish fuel =>
    obtain ⟨⟨stream, answer⟩, hpoll, rfl⟩ := Option.map_eq_some_iff.mp h
    have hw := unwrapped H3BidiStream.fields hpoll
    refine finishBuffered_preserves (P := fun i => i.reads = s.inner.reads) ?_ ?_ hw rfl
    · intro i i' buf answer hi hreads
      rw [← hreads, hwrite i i' buf answer hi]
    · intro i i' answer hi hreads
      rw [← hreads, hflush i i' answer hi]

omit [Buf β] in
theorem given_of_same_reads {a a' : Adapter (Recorded S)} (h : reads a' = reads a)
    (call : AdapterCall β) : ∃ given, reads a' = reads a ++ given ∧
      [] = given.map delivered ∧ (call ≠ .pollData → given = []) :=
  ⟨[], h.trans (List.append_nil _).symm, rfl, fun _ => rfl⟩

/-- What a call answers about data is what it has read, and only `poll_data` reads. -/
theorem perform_reads {a a' : Adapter (Recorded S)} {call : AdapterCall β}
    {answers : List DataAnswer} (h : a.perform call = some (a', answers)) :
    ∃ given, reads a' = reads a ++ given ∧ answers = given.map delivered ∧
      (call ≠ .pollData → given = []) := by
  cases a with
  | whole s =>
    cases call with
    | pollData =>
      cases h
      obtain ⟨read, hreads, hanswer⟩ := readData_reads s.inner
      exact ⟨[read], hreads, congrArg (fun answer => [answer]) hanswer, fun hne => absurd rfl hne⟩
    | stopSending errorCode =>
      cases h
      exact given_of_same_reads rfl _
    | send call =>
      obtain ⟨s', hs', heq⟩ := Option.map_eq_some_iff.mp h
      cases heq
      have hsame : reads (.whole s') = reads (.whole s) := sendCall_reads hs'
      exact given_of_same_reads hsame _
    | reset resetCode =>
      cases h
      exact given_of_same_reads rfl _
    | split =>
      cases h
      exact given_of_same_reads rfl _
  | halves send recv =>
    cases call with
    | pollData =>
      cases h
      obtain ⟨read, hreads, hanswer⟩ := readData_reads (R := BidiStream.Recv S) recv.inner
      exact ⟨[read], hreads, congrArg (fun answer => [answer]) hanswer, fun hne => absurd rfl hne⟩
    | stopSending errorCode =>
      cases h
      exact given_of_same_reads rfl _
    | send call =>
      obtain ⟨send', hsend', heq⟩ := Option.map_eq_some_iff.mp h
      cases heq
      exact given_of_same_reads rfl _
    | reset resetCode =>
      cases h
      exact given_of_same_reads rfl _
    | split => cases h

/-- What has been returned is what has been read, one answer for each read. -/
theorem results_eq {inner : S} {r : Receiver (Recorded S)}
    (hr : Reachable (receiving (β := β) (.whole (H3BidiStream.new (Recorded.fresh inner)))) r) :
    r.results = (reads r.adapter).map delivered := by
  refine reachable_of_step (P := fun r => r.results = (reads r.adapter).map delivered) rfl ?_ hr
  intro r call hresults he
  obtain ⟨⟨a, answers⟩, hcall⟩ := Option.isSome_iff_exists.mp he
  obtain ⟨given, hreads, hanswers, _⟩ := perform_reads hcall
  simp only [receiving, hcall, Receiver.after]
  rw [hreads, List.map_append, hresults, hanswers]

/-- In every run, with a split at any time or none, the chunks returned are the bytes that the
inner stream has produced; no chunk is empty, `None` is returned for the end of the inner stream
and for nothing else, and no other call changes what has been read or returned. -/
theorem received_is_produced (inner : S) {r : Receiver (Recorded S)}
    (hr : Reachable (receiving (β := β) (.whole (H3BidiStream.new (Recorded.fresh inner)))) r) :
    r.results.flatMap chunk = (reads r.adapter).flatMap produced ∧
    (∀ bytes, .ready (.ok (some bytes)) ∈ r.results → bytes ≠ []) ∧
    (∀ i : ℕ, r.results[i]? = some (.ready (.ok none)) ↔
      (reads r.adapter)[i]? = some (.ready (some []))) ∧
    r.results = (reads r.adapter).map delivered ∧
    ∀ (call : AdapterCall β) a answers, call ≠ .pollData →
      r.adapter.perform call = some (a, answers) → reads a = reads r.adapter ∧ answers = [] := by
  have hresults := results_eq hr
  refine ⟨?_, ?_, ?_, hresults, ?_⟩
  · rw [hresults, List.flatMap_map]
    simp only [chunk_delivered]
  · intro bytes hmem
    rw [hresults] at hmem
    obtain ⟨read, _, hread⟩ := List.mem_map.mp hmem
    exact delivered_chunk hread
  · intro i
    rw [hresults, List.getElem?_map]
    simp only [Option.map_eq_some_iff, delivered_none_iff]
    constructor
    · rintro ⟨read, hi, rfl⟩
      exact hi
    · intro hi
      exact ⟨_, hi, rfl⟩
  · intro call a answers hne hcall
    obtain ⟨given, hreads, hanswers, hnone⟩ := perform_reads hcall
    rw [hnone hne] at hreads hanswers
    exact ⟨hreads.trans (List.append_nil _), hanswers⟩

end reading

/-- A reader that gives one byte at a time. -/
structure Dripping where
  bytes : Bytes

instance : AsyncRead Dripping where
  readError := Empty
  pollRead s buf :=
    match s.bytes, buf with
    | b :: bs, _ :: rest => (⟨bs⟩, b :: rest, .ready (.ok 1))
    | _, _ => (s, buf, .ready (.ok 0))
  filled_length s buf := by
    split <;> rfl
  read_le s buf n h := by
    split at h
    next =>
      cases h
      simp
    next =>
      cases h
      exact Nat.zero_le _

abbrev dripping : System (Receiver (Recorded (Halves Obliging Dripping))) (AdapterCall Bytes) :=
  receiving (.whole (H3BidiStream.new (Recorded.fresh { send := .mk, recv := ⟨[1, 2]⟩ })))

theorem received_is_produced_split :
    let r := dripping.run dripping.initial
      [.pollData, .send (.sendData [9]), .split, .pollData, .pollData]
    r.results = [.ready (.ok (some [1])), .ready (.ok (some [2])), .ready (.ok none)] ∧
      r.results.flatMap chunk = (reads r.adapter).flatMap produced := by
  intro r
  have hallowed : dripping.Allowed dripping.initial
      [.pollData, .send (.sendData [9]), .split, .pollData, .pollData] :=
    ⟨rfl, rfl, rfl, rfl, rfl, trivial⟩
  exact ⟨rfl, (received_is_produced _ (execution_run hallowed)).1⟩

end H3Receiving
