import Navar.H3Receiving

/-! # The two directions of an HTTP/3 stream

A stream of Iroh is made of a half for each direction, and a split gives the halves. Over such a
stream the adapter sends as if nothing were received and receives as if nothing were sent: what
each side does is the run of its own calls on its own half. -/
namespace H3Duplex

open ByteBuffers
open PollStreams (Poll)
open AsyncWriters
open DuplexStreams
open TransitionSystems
open H3Adapter
open H3Connections (H3RecvStream)
open H3Splitting
open H3Receiving

variable {W R β : Type}

section sides

variable [AsyncWrite W] [AsyncRead R]

def sender : Adapter (Halves W R) → H3SendStream W
  | .whole s => { inner := s.inner.send, buf := s.sendBuf }
  | .halves send _ => send

def receiver : Adapter (Halves W R) → H3RecvStream R
  | .whole s => { inner := s.inner.recv }
  | .halves _ recv => recv

/-- What a call is to the sending side alone: a split makes a new stream of the half. -/
def sendStep [Buf β] (s : H3SendStream W) : AdapterCall β → Option (H3SendStream W)
  | .send call => sendCall s call
  | .split => some (H3SendStream.new s.inner)
  | _ => some s

/-- What a call is to the receiving side alone. -/
def recvStep (s : H3RecvStream R) : AdapterCall β → H3RecvStream R × List DataAnswer
  | .pollData =>
    let (s, answer) := QuicRecvStream.pollData s
    (s, [answer])
  | _ => (s, [])

def isSending : AdapterCall β → Bool
  | .send _ => true
  | .split => true
  | _ => false

def isPoll : AdapterCall β → Bool
  | .pollData => true
  | _ => false

/-- The answers of so many polls of the receiving half, and the half after them. -/
def polled (s : H3RecvStream R) : ℕ → H3RecvStream R × List DataAnswer
  | 0 => (s, [])
  | n + 1 =>
    let (s, answers) := polled s n
    let (s, answer) := QuicRecvStream.pollData s
    (s, answers ++ [answer])

omit [AsyncRead R] in
theorem send_writesAlike : WritesAlike fun s : Halves W R => s.send :=
  ⟨fun _ _ => ⟨rfl, rfl⟩, fun _ => ⟨rfl, rfl⟩⟩

omit [AsyncWrite W] in
theorem readData_halves (s : Halves W R) :
    readData s = ({ s with recv := (readData s.recv).1 }, (readData s.recv).2) := by
  unfold readData
  simp only [AsyncRead.pollRead]
  cases hread : AsyncRead.pollRead s.recv (List.replicate 4096 0) with
  | mk recv filled =>
    obtain ⟨buf, answer⟩ := filled
    rcases answer with _ | (e | (_ | n)) <;> rfl

variable [Buf β]

omit [AsyncRead R] in
/-- A call of the sending side is one on the sending half, and leaves the other half alone. -/
theorem sendCall_halves {s s' : H3BidiStream (Halves W R)} {call : Call β}
    (h : sendCall s call = some s') :
    sendCall (⟨s.inner.send, s.sendBuf⟩ : H3SendStream W) call =
        some ⟨s'.inner.send, s'.sendBuf⟩ ∧
      s'.inner.recv = s.inner.recv := by
  cases call with
  | sendData data =>
    cases h
    exact ⟨rfl, rfl⟩
  | pollReady fuel =>
    obtain ⟨⟨stream, answer⟩, hpoll, rfl⟩ := Option.map_eq_some_iff.mp h
    have hw := unwrapped H3BidiStream.fields hpoll
    have hhalf := writeBuffered_map (send_writesAlike (W := W) (R := R)) fuel s.inner s.sendBuf
    constructor
    · simp only [sendCall, QuicSendStream.pollReady, hhalf, hw]
      rfl
    · refine writeBuffered_preserves (P := fun i => i.recv = s.inner.recv) ?_ hw rfl
      rintro i i' buf answer hi hrecv
      obtain ⟨rfl, -⟩ := Prod.mk.inj hi
      exact hrecv
  | pollFinish fuel =>
    obtain ⟨⟨stream, answer⟩, hpoll, rfl⟩ := Option.map_eq_some_iff.mp h
    have hw := unwrapped H3BidiStream.fields hpoll
    have hhalf := finishBuffered_map (send_writesAlike (W := W) (R := R)) fuel s.inner s.sendBuf
    constructor
    · simp only [sendCall, QuicSendStream.pollFinish, hhalf, hw]
      rfl
    · refine finishBuffered_preserves (P := fun i => i.recv = s.inner.recv) ?_ ?_ hw rfl
      · rintro i i' buf answer hi hrecv
        obtain ⟨rfl, -⟩ := Prod.mk.inj hi
        exact hrecv
      · rintro i i' answer hi hrecv
        obtain ⟨rfl, -⟩ := Prod.mk.inj hi
        exact hrecv

/-- A call does to each side what it does to that side alone. -/
theorem perform_sides {a a' : Adapter (Halves W R)} {call : AdapterCall β}
    {answers : List DataAnswer} (h : a.perform call = some (a', answers)) :
    sendStep (sender a) call = some (sender a') ∧
      recvStep (receiver a) call = (receiver a', answers) := by
  cases a with
  | whole s =>
    cases call with
    | send call =>
      obtain ⟨s', hs', heq⟩ := Option.map_eq_some_iff.mp h
      cases heq
      obtain ⟨hsend, hrecv⟩ := sendCall_halves hs'
      exact ⟨hsend, by simp only [recvStep, receiver, hrecv]⟩
    | pollData =>
      simp only [Adapter.perform, QuicRecvStream.pollData, readData_halves] at h
      cases h
      exact ⟨rfl, rfl⟩
    | _ =>
      cases h
      exact ⟨rfl, rfl⟩
  | halves send recv =>
    cases call with
    | send call =>
      obtain ⟨send', hsend', heq⟩ := Option.map_eq_some_iff.mp h
      cases heq
      exact ⟨hsend', rfl⟩
    | split => cases h
    | _ =>
      cases h
      exact ⟨rfl, rfl⟩

/-- The sending side of a run. -/
def sendRun (s : H3SendStream W) (calls : List (AdapterCall β)) : Option (H3SendStream W) :=
  (calls.filter isSending).foldlM sendStep s

omit [Buf β] in
theorem recvStep_polled {s₀ s s' : H3RecvStream R} {n : ℕ} {results answers : List DataAnswer}
    {call : AdapterCall β} (h : polled s₀ n = (s, results)) (hs : recvStep s call = (s', answers)) :
    polled s₀ (n + if isPoll call then 1 else 0) = (s', results ++ answers) := by
  cases call with
  | pollData =>
    simp only [recvStep, Prod.mk.injEq] at hs
    obtain ⟨rfl, rfl⟩ := hs
    simp only [isPoll, ↓reduceIte, polled, h]
  | _ =>
    cases hs
    rw [List.append_nil]
    exact h

/-- What a run of both sides makes of each of them. -/
theorem run_sides {a : Adapter (Halves W R)} {results : List DataAnswer}
    {calls : List (AdapterCall β)} {start : Adapter (Halves W R)} {r : H3RecvStream R} {n : ℕ}
    (h : (receiving start).Allowed ⟨a, results⟩ calls)
    (hpolled : polled r n = (receiver a, results)) :
    let final := (receiving start).run ⟨a, results⟩ calls
    polled r (n + calls.countP isPoll) = (receiver final.adapter, final.results) ∧
      sendRun (sender a) calls = some (sender final.adapter) := by
  induction calls generalizing a results n with
  | nil => exact ⟨hpolled, rfl⟩
  | cons call calls ih =>
    obtain ⟨he, hrest⟩ := h
    obtain ⟨⟨a', answers⟩, hcall⟩ := Option.isSome_iff_exists.mp he
    obtain ⟨hsend, hrecv⟩ := perform_sides hcall
    have hnext : (receiving start).next ⟨a, results⟩ call = ⟨a', results ++ answers⟩ := by
      simp only [receiving, hcall, Receiver.after]
    rw [hnext] at hrest
    obtain ⟨hreceiver, hsender⟩ := ih hrest (recvStep_polled hpolled hrecv)
    simp only [System.run, List.foldl_cons, hnext] at hreceiver hsender ⊢
    constructor
    · rw [← hreceiver, List.countP_cons]
      congr 1
      omega
    · rw [← hsender, sendRun, List.filter_cons]
      split_ifs with hside
      · rw [List.foldlM_cons, hsend]
        rfl
      · have hsame : sender a' = sender a := by
          cases call with
          | send call => exact absurd rfl hside
          | split => exact absurd rfl hside
          | _ => exact (Option.some.inj hsend).symm
        rw [hsame]
        rfl

end sides

/-- In every run, with a split at any time or none, the receiving side has answered what so many
polls of its half alone answer, and the sending side is where its own calls alone have brought
it. -/
theorem directions_are_independent [AsyncWrite W] [AsyncRead R] [Buf β] (inner : Halves W R)
    (calls : List (AdapterCall β)) :
    let duplex := receiving (β := β) (.whole (H3BidiStream.new inner))
    duplex.Allowed duplex.initial calls →
      let final := duplex.run duplex.initial calls
      polled { inner := inner.recv } (calls.countP isPoll) =
          (receiver final.adapter, final.results) ∧
        sendRun (H3SendStream.new inner.send) calls = some (sender final.adapter) := by
  intro duplex hallowed final
  have h := run_sides (r := { inner := inner.recv }) (n := 0) hallowed rfl
  rw [Nat.zero_add] at h
  exact h

/-- Two polls and a call of `send_data`, with a split between them. -/
def mixed : List (AdapterCall Bytes) :=
  [.pollData, .send (.sendData [9]), .split, .send (.sendData [8]), .pollData, .send (.pollReady 1)]

theorem directions_are_independent_split :
    let inner : Halves Obliging Dripping := { send := .mk, recv := ⟨[1, 2]⟩ }
    let duplex := receiving (β := Bytes) (.whole (H3BidiStream.new inner))
    let final := duplex.run duplex.initial mixed
    (polled { inner := inner.recv } 2).2 = final.results ∧
      sendRun (H3SendStream.new inner.send) mixed = some (sender final.adapter) := by
  intro inner duplex final
  have hallowed : duplex.Allowed duplex.initial mixed := ⟨rfl, rfl, rfl, rfl, rfl, rfl, trivial⟩
  obtain ⟨hreceived, hsent⟩ := directions_are_independent inner mixed hallowed
  have hcount : mixed.countP isPoll = 2 := rfl
  rw [hcount] at hreceived
  exact ⟨congrArg Prod.snd hreceived, hsent⟩

end H3Duplex
