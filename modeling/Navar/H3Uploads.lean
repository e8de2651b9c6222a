import Navar.H3Sessions
import Navar.H3Adapter

/-! # Request bodies that fail over HTTP/3

The request stream is an adapter on a QUIC stream of the transport. A QUIC stream that is dropped
ends for its peer, by a reset if its sending side has been reset and cleanly otherwise. Between
the session and the adapter stands the `h3` crate, which opens the stream, may make any calls and
passes resets on; it may also fail once the stream is open. -/
namespace H3Uploads

open ByteBuffers
open PollStreams (Poll)
open HttpMessages
open AsyncWriters
open TransitionSystems
open H3Sessions
open H3Adapter

variable {S A β δ χ ε ε' ρ : Type}

structure QuicStream (S : Type) where
  stream : S
  resetCode : Option ℕ

namespace QuicStream

def fresh (stream : S) : QuicStream S := { stream := stream, resetCode := none }

/-- The first reset counts. -/
def reset (s : QuicStream S) (code : ℕ) : QuicStream S :=
  { s with resetCode := s.resetCode.or (some code) }

end QuicStream

instance [AsyncWrite S] : AsyncWrite (QuicStream S) where
  ioError := AsyncWrite.ioError S
  pollWrite s buf :=
    let (stream, answer) := AsyncWrite.pollWrite s.stream buf
    ({ s with stream := stream }, answer)
  pollFlush s :=
    let (stream, answer) := AsyncWrite.pollFlush s.stream
    ({ s with stream := stream }, answer)
  pollClose s :=
    let (stream, answer) := AsyncWrite.pollClose s.stream
    ({ s with stream := stream }, answer)
  write_le s buf n h := AsyncWrite.write_le s.stream buf n h

/-- How a stream has ended for its peer. -/
inductive Ending where
  | clean (received : Bytes)
  | reset (code : ℕ)
  deriving DecidableEq, Repr

def dropped (s : Traced (QuicStream S)) : Ending :=
  match s.stream.resetCode with
  | some code => .reset code
  | none => .clean s.accepted

example (s : S) : dropped ⟨(QuicStream.fresh s).reset 0x10c, [1], false⟩ = .reset 0x10c := rfl

inductive Operation (S β : Type) where
  | opened (inner : S)
  | call (call : Call β)
  | reset (resetCode : ℕ)

/-- What `h3` may do for a request: open a stream for it, and then any calls and resets in any
order. -/
def uploading [Buf β] [QuicSendStream A β] (new : S → A) (reset : A → ℕ → A) :
    System (Option (Run A)) (Operation S β) where
  initial := none
  Enabled
    | none, .opened _ => True
    | some r, .call call => (sending r.stream).Enabled r call
    | some _, .reset _ => True
    | _, _ => False
  next
    | none, .opened inner => some (sending (β := β) (new inner)).initial
    | some r, .call call => some ((sending r.stream).next r call)
    | some r, .reset resetCode => some { r with stream := reset r.stream resetCode }
    | state, _ => state

section adapter

variable [AsyncWrite S]

theorem step_preserves [Buf β] [QuicSendStream A β] {view : A ≃ Traced S × Bytes}
    (hv : Adapts β view) {P : Traced S → Prop}
    (hwrite : ∀ s s' buf answer, AsyncWrite.pollWrite s buf = (s', answer) → P s → P s')
    (hflush : ∀ s s' answer, AsyncWrite.pollFlush s = (s', answer) → P s → P s')
    {start : A} {r : Run A} {call : Call β} (hp : P (view r.stream).1)
    (he : (sending start).Enabled r call) :
    P (view ((sending start).next r call).stream).1 := by
  cases call with
  | sendData data =>
    simp only [sending, hv.sendData]
    exact hp
  | pollReady fuel =>
    obtain ⟨⟨stream, answer⟩, hpoll⟩ := Option.isSome_iff_exists.mp he
    simp only [sending, after, hpoll]
    exact writeBuffered_preserves hwrite (hv.ready hpoll) hp
  | pollFinish fuel =>
    obtain ⟨⟨stream, answer⟩, hpoll⟩ := Option.isSome_iff_exists.mp he
    simp only [sending, after, hpoll]
    exact finishBuffered_preserves hwrite hflush
      (hv.finish hpoll) hp

omit [AsyncWrite S] in
/-- Where a reset does nothing, what has been opened is in a run of calls. -/
theorem uploading_sends [Buf β] [QuicSendStream A β] {new : S → A} {reset : A → ℕ → A}
    (hreset : ∀ a resetCode, reset a resetCode = a) {state : Option (Run A)}
    (hr : Reachable (uploading (β := β) new reset) state) :
    ∀ r, state = some r → ∃ inner, Reachable (sending (β := β) (new inner)) r := by
  refine reachable_of_step (P := fun state => ∀ r, state = some r →
    ∃ inner, Reachable (sending (β := β) (new inner)) r) ?_ ?_ hr
  · rintro r hnone
    cases hnone
  · rintro (_ | r) operation hsends he r' hr'
    · cases operation with
      | opened inner =>
        obtain rfl := Option.some.inj hr'
        exact ⟨inner, .refl _⟩
      | call call => cases he
      | reset resetCode => cases he
    · obtain ⟨inner, hrun⟩ := hsends r rfl
      cases operation with
      | opened inner => cases he
      | call call =>
        obtain rfl := Option.some.inj hr'
        exact ⟨inner, hrun.next he⟩
      | reset resetCode =>
        obtain rfl := Option.some.inj hr'
        rw [hreset]
        exact ⟨inner, hrun⟩

/-- No reset reaches the stream of the transport, whatever is called. -/
theorem send_never_resets [Buf β] [QuicSendStream A β] {view : A ≃ Traced (QuicStream S) × Bytes}
    (hv : Adapts β view) {start : A} {inner : S}
    (hstart : view start = (Traced.fresh (QuicStream.fresh inner), [])) {r : Run A}
    (hr : Reachable (sending (β := β) start) r) :
    dropped (view r.stream).1 = .clean (view r.stream).1.accepted := by
  have hnone : (view r.stream).1.stream.resetCode = none := by
    refine reachable_of_step (P := fun r => (view r.stream).1.stream.resetCode = none) ?_ ?_ hr
    · simp only [sending, hstart]
      rfl
    · intro r call hp he
      refine step_preserves hv (P := fun s => s.stream.resetCode = none) ?_ ?_ hp he
      · rintro s s' buf answer hw hnone
        obtain ⟨rfl, -⟩ := Prod.mk.inj hw
        exact hnone
      · rintro s s' answer hw hnone
        obtain ⟨rfl, -⟩ := Prod.mk.inj hw
        exact hnone
  unfold dropped
  rw [hnone]

end adapter

section session

variable [Buf β] (into : ε' → ε) (peer : Peer χ ε)

/-- The loop fails at the error of the body, if not before. -/
theorem sendBody_fails {body : Body β ε'} {e : ε'} (hbad : .ready (.error e) ∈ body)
    (log : List (StreamCall χ)) : ∃ e', (sendBody into peer body log).1 = .error e' := by
  induction body generalizing log with
  | nil => cases hbad
  | cons answer body ih =>
    rcases answer with _ | (e' | (d | t))
    · exact ih (by simpa using hbad) log
    · exact ⟨_, rfl⟩
    · simp only [sendBody, Frame.intoData]
      apply perform_then (P := fun sent => ∃ e', sent.1 = .error e')
      · exact fun e _ => ⟨e, rfl⟩
      · exact ih (by simpa using hbad) _
    · exact ih (by simpa using hbad) log

/-- The request fails after sending data, if anything: it is not finished, and not reset. -/
theorem sendRequest_fails (respond : List (StreamCall χ) → ρ) {request : Request χ (Body β ε')}
    {e : ε'} (hbad : .ready (.error e) ∈ request.body) :
    (∃ e', (sendRequest into peer respond request []).1 = .error e') ∧
      ∃ datas : List Bytes, (sendRequest into peer respond request []).2 =
        .sendRequest request.parts :: datas.map StreamCall.sendData := by
  obtain ⟨datas, hdatas⟩ := sendBody_calls into peer request.body
    [.sendRequest request.parts]
  obtain ⟨e', hfails⟩ := sendBody_fails into peer hbad [.sendRequest request.parts]
  apply perform_then (P := fun sent => (∃ e', sent.1 = .error e') ∧ ∃ datas : List Bytes,
    sent.2 = .sendRequest request.parts :: datas.map StreamCall.sendData)
  · exact fun e _ => ⟨⟨e, rfl⟩, [], rfl⟩
  · rw [List.nil_append, bind_run]
    cases hbody : sendBody into peer request.body [.sendRequest request.parts] with
    | mk result log =>
      rw [hbody] at hdatas hfails
      simp only at hdatas hfails
      subst hdatas hfails
      exact ⟨⟨e', rfl⟩, datas, rfl⟩

end session

/-- A body that fails is not taken for a complete one: the request fails, it is not finished, and
its stream, if one was opened, ends by a reset. -/
structure Aborted (result : Except ε ρ) (log : List (StreamCall χ)) (ending : Option Ending) :
    Prop where
  failed : ∃ e, result = .error e
  unfinished : .finish ∉ log
  reset : ∀ ended, ending = some ended → ∃ code, ended = .reset code

abbrev Upload (S : Type) := Run (H3BidiStream (Traced (QuicStream S)))

def Upload.ending (r : Upload S) : Ending := dropped r.stream.inner

/-- The requests of the session over the streams that a connection opens for them. -/
abbrev uploads (S δ : Type) [AsyncWrite S] [Buf δ] :
    System (Option (Upload S)) (Operation S δ) :=
  uploading (fun inner => H3BidiStream.new (Traced.fresh (QuicStream.fresh inner)))
    H3BidiStream.reset

/-- A request whose body fails returns an error without a call of `finish`, and without one that
resets the stream; but a stream that has been opened for it, in whatever state `h3` leaves that,
then ends cleanly behind the bytes it has accepted. So the request is aborted exactly when no stream
has been opened. -/
theorem failed_upload_aborted_iff [AsyncWrite S] [Buf β] [Buf δ] (into : ε' → ε)
    (peer : Peer χ ε) (respond : List (StreamCall χ) → ρ) (request : Request χ (Body β ε'))
    {e : ε'} (hbad : .ready (.error e) ∈ request.body) {state : Option (Upload S)}
    (hr : Reachable (uploads S δ) state) :
    (∃ e', (sendRequest into peer respond request []).1 = .error e') ∧
      .finish ∉ (sendRequest into peer respond request []).2 ∧
      (∀ code, .stopStream code ∉ (sendRequest into peer respond request []).2) ∧
      (∀ r, state = some r → r.ending = .clean r.stream.inner.accepted) ∧
      (Aborted (sendRequest into peer respond request []).1
          (sendRequest into peer respond request []).2 (state.map Upload.ending) ↔
        state = none) := by
  obtain ⟨hfailed, datas, hlog⟩ := sendRequest_fails into peer respond hbad
  have hfinish : .finish ∉ (sendRequest into peer respond request []).2 := by
    simp [hlog]
  have hclean : ∀ r, state = some r → r.ending = .clean r.stream.inner.accepted := by
    intro r hstate
    obtain ⟨inner, hsent⟩ := uploading_sends (fun _ _ => rfl) hr r hstate
    exact send_never_resets bidiStream_adapts rfl hsent
  refine ⟨hfailed, hfinish, by simp [hlog], hclean, ?_⟩
  constructor
  · intro h
    cases state with
    | none => rfl
    | some r =>
      obtain ⟨code, hreset⟩ := h.reset r.ending rfl
      rw [hclean r rfl] at hreset
      cases hreset
  · rintro rfl
    refine ⟨hfailed, hfinish, ?_⟩
    rintro ended hnone
    cases hnone

def brokenOff : Request Unit (Body Bytes Unit) :=
  postOf Bytes [.ready (.ok (.data [1, 2])), .ready (.error ())]

/-- The connection has no stream for the request. -/
theorem failed_upload_aborted_iff_unopened :
    Aborted (ρ := Unit) (sendRequest id (fun _ => .error ()) (fun _ => ()) brokenOff []).1
      (sendRequest id (fun _ => .error ()) (fun _ => ()) brokenOff []).2 none :=
  have hr : Reachable (uploads Obliging Bytes) none := .refl _
  (failed_upload_aborted_iff id (fun _ => .error ()) (fun _ => ()) brokenOff
    (e := ()) (by simp [brokenOff, postOf]) hr).2.2.2.2.mpr rfl

/-- The stream takes the data that the session has passed on, and `h3` resets it. -/
def upload : List (Operation Obliging Bytes) :=
  [.opened .mk, .call (.sendData [1, 2]), .call (.pollReady 1), .reset 0x10c]

/-- The request fails, and the peer has a clean end behind the first bytes. -/
theorem failed_upload_ends_cleanly :
    let sent := sendRequest id willingPeer (fun _ => ()) brokenOff []
    ∃ r, Reachable (uploads Obliging Bytes) (some r) ∧ sent.1 = .error () ∧
      r.ending = .clean [1, 2] ∧ ¬ Aborted sent.1 sent.2 (some r.ending) := by
  intro sent
  have hallowed : (uploads Obliging Bytes).Allowed (uploads Obliging Bytes).initial upload :=
    ⟨trivial, trivial, rfl, trivial, trivial⟩
  refine ⟨_, execution_run hallowed, rfl, rfl, ?_⟩
  intro h
  obtain ⟨code, hreset⟩ := h.reset _ rfl
  cases hreset

end H3Uploads
