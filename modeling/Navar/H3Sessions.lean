import Navar.HttpMessages

/-! # Sending a request over HTTP/3

The session makes calls of the `h3` crate, one after another. What they return is arbitrary and
may depend on all the calls so far; the log of the calls is kept when one fails. Besides the calls
that the session makes, the stream of a request has one for trailers and one for a reset. -/
namespace H3Sessions

open ByteBuffers
open PollStreams
open HttpMessages

inductive StreamCall (χ : Type) where
  | sendRequest (parts : RequestParts χ)
  | sendData (bytes : Bytes)
  | sendTrailers (trailers : HeaderMap)
  | stopStream (errorCode : ℕ)
  | finish
  | recvResponse

/-- What the last of the calls returns. -/
abbrev Peer (χ ε : Type) := List (StreamCall χ) → Except ε Unit

abbrev Sending (χ ε α : Type) := ExceptT ε (StateM (List (StreamCall χ))) α

variable {χ β ε ε' ρ α : Type}

def perform (peer : Peer χ ε) (call : StreamCall χ) : Sending χ ε Unit :=
  fun log => (peer (log ++ [call]), log ++ [call])

def sendBody [Buf β] (into : ε' → ε) (peer : Peer χ ε) : Body β ε' → Sending χ ε Unit
  | [] => pure ()
  | .pending :: rest => sendBody into peer rest
  | .ready (.error e) :: _ => throw (into e)
  | .ready (.ok frame) :: rest => do
    match frame.intoData with
    | some data => perform peer (.sendData (Buf.chunk data))
    | none => pure ()
    sendBody into peer rest

/-- `H3Session::send_request`; the response carries what the stream has received. -/
def sendRequest [Buf β] (into : ε' → ε) (peer : Peer χ ε) (respond : List (StreamCall χ) → ρ)
    (request : Request χ (Body β ε')) : Sending χ ε ρ := do
  perform peer (.sendRequest request.parts)
  sendBody into peer request.body
  perform peer .finish
  perform peer .recvResponse
  let log ← get
  pure (respond log)

/-- The bytes passed to `send_data`, in order. -/
def transmitted : List (StreamCall χ) → Bytes
  | [] => []
  | .sendData bytes :: rest => bytes ++ transmitted rest
  | _ :: rest => transmitted rest

/-- `convert_body` of the HTTP/1 and HTTP/2 session: what `hyper` is given. -/
def convertBody (into : ε' → ε) (body : Body β ε') : Body (NormalizedData β) ε :=
  normalizeBody into body

/-- The body that `Client::send` hands on for the body of a request. -/
def normalizeRequest (into : ε' → ε) (request : Request χ (Body β ε')) :
    Request χ (Body (NormalizedData β) ε) :=
  { parts := request.parts, body := normalizeBody into request.body }

theorem transmitted_append (xs ys : List (StreamCall χ)) :
    transmitted (xs ++ ys) = transmitted xs ++ transmitted ys := by
  induction xs with
  | nil => rfl
  | cons c xs ih => cases c <;> simp [transmitted, ih]

theorem bind_run (m : Sending χ ε α) {γ : Type} (f : α → Sending χ ε γ)
    (log : List (StreamCall χ)) :
    (m >>= f) log =
      match m log with
      | (.ok a, log') => f a log'
      | (.error e, log') => (.error e, log') := by
  cases h : m log with
  | mk result log' =>
    simp only [bind, ExceptT.bind, ExceptT.mk, StateT.bind, h]
    cases result with
    | ok a => rfl
    | error e => rfl

def firstChunks [Buf β] : Body β ε → Bytes
  | [] => []
  | .ready (.ok (.data d)) :: rest => Buf.chunk d ++ firstChunks rest
  | _ :: rest => firstChunks rest

section sending

variable [Buf β] {into : ε' → ε} {peer : Peer χ ε}

theorem perform_log {log log' : List (StreamCall χ)} {call : StreamCall χ} {r : Except ε Unit}
    (h : perform peer call log = (r, log')) : log' = log ++ [call] :=
  (congrArg Prod.snd h).symm

/-- A call that fails ends the program, and one that does not is followed by the rest of it. -/
theorem perform_then {P : Except ε α × List (StreamCall χ) → Prop} {call : StreamCall χ}
    {f : Unit → Sending χ ε α} {log : List (StreamCall χ)}
    (failed : ∀ e, peer (log ++ [call]) = .error e → P (.error e, log ++ [call]))
    (passed : P (f () (log ++ [call]))) :
    P ((perform peer call >>= f) log) := by
  rw [bind_run]
  cases hcall : perform peer call log with
  | mk result log₁ =>
    obtain rfl := perform_log hcall
    cases result with
    | error e => exact failed e (congrArg Prod.fst hcall)
    | ok u => exact passed

variable (into peer) in
/-- The loop makes no call but those that send data. -/
theorem sendBody_calls (body : Body β ε') (log : List (StreamCall χ)) :
    ∃ datas : List Bytes,
      (sendBody into peer body log).2 = log ++ datas.map StreamCall.sendData := by
  induction body generalizing log with
  | nil => exact ⟨[], (List.append_nil log).symm⟩
  | cons answer body ih =>
    rcases answer with _ | (e | (d | t))
    · exact ih log
    · exact ⟨[], (List.append_nil log).symm⟩
    · simp only [sendBody, Frame.intoData]
      apply perform_then (P := fun sent => ∃ datas : List Bytes,
        sent.2 = log ++ datas.map StreamCall.sendData)
      · exact fun e _ => ⟨[Buf.chunk d], rfl⟩
      · obtain ⟨datas, hdatas⟩ := ih (log ++ [.sendData (Buf.chunk d)])
        refine ⟨Buf.chunk d :: datas, hdatas.trans ?_⟩
        rw [List.append_assoc, List.map_cons]
        rfl
    · exact ih log

variable (into peer) in
/-- The calls of the session are these, up to the first one that fails. -/
theorem sendRequest_calls (respond : List (StreamCall χ) → ρ) (request : Request χ (Body β ε')) :
    ∃ datas : List Bytes, (sendRequest into peer respond request []).2 <+:
      .sendRequest request.parts :: datas.map StreamCall.sendData ++ [.finish, .recvResponse] := by
  obtain ⟨datas, hdatas⟩ := sendBody_calls into peer request.body
    [.sendRequest request.parts]
  refine ⟨datas, ?_⟩
  apply perform_then (P := fun sent => sent.2 <+: _)
  · exact fun e _ => ⟨datas.map StreamCall.sendData ++ [.finish, .recvResponse], rfl⟩
  · rw [List.nil_append, bind_run]
    cases hbody : sendBody into peer request.body [.sendRequest request.parts] with
    | mk result log =>
      rw [hbody] at hdatas
      simp only at hdatas
      subst hdatas
      cases result with
      | error e => exact List.prefix_append _ _
      | ok u =>
        apply perform_then (P := fun sent => sent.2 <+: _)
        · exact fun e _ => ⟨[.recvResponse], List.append_assoc _ _ _⟩
        · apply perform_then (P := fun sent => sent.2 <+: _)
          · exact fun e _ => ⟨[], by simp⟩
          · exact ⟨[], by simp [bind_run]; rfl⟩

/-- The loop passes on the first chunk of every data frame, if it comes to its end. -/
theorem sendBody_transmits {body : Body β ε'} {log log' : List (StreamCall χ)}
    (h : sendBody into peer body log = (.ok (), log')) :
    transmitted log' = transmitted log ++ firstChunks body := by
  induction body generalizing log with
  | nil =>
    obtain rfl : log = log' := congrArg Prod.snd h
    simp [firstChunks]
  | cons answer body ih =>
    rcases answer with _ | (e | (d | t))
    · exact ih h
    · cases congrArg Prod.fst h
    · simp only [sendBody, Frame.intoData] at h
      rw [bind_run] at h
      split at h
      next log₁ hcall =>
        rw [ih h, perform_log hcall, transmitted_append, List.append_assoc]
        simp [transmitted, firstChunks]
      next => cases congrArg Prod.fst h
    · simp only [sendBody, Frame.intoData] at h
      exact ih h

theorem sendRequest_transmits {respond : List (StreamCall χ) → ρ}
    {request : Request χ (Body β ε')} {log : List (StreamCall χ)}
    (hopen : peer [.sendRequest request.parts] = .ok ())
    (hbody : sendBody into peer request.body [.sendRequest request.parts] = (.ok (), log)) :
    transmitted (sendRequest into peer respond request []).2 = firstChunks request.body := by
  have hfirst : perform peer (.sendRequest request.parts) [] =
      (.ok (), [.sendRequest request.parts]) := by
    simp [perform, hopen]
  have hchunks : transmitted log = firstChunks request.body := sendBody_transmits hbody
  simp only [sendRequest]
  rw [bind_run, hfirst]
  simp only
  rw [bind_run, hbody]
  simp only
  rw [bind_run]
  split
  next log₁ hfinish =>
    have hlog := perform_log hfinish
    rw [bind_run]
    split
    next log₂ hresponse =>
      change transmitted log₂ = _
      rw [perform_log hresponse, hlog, transmitted_append, transmitted_append, hchunks]
      simp [transmitted]
    next e log₂ hresponse =>
      change transmitted log₂ = _
      rw [perform_log hresponse, hlog, transmitted_append, transmitted_append, hchunks]
      simp [transmitted]
  next e log₁ hfinish =>
    change transmitted log₁ = _
    rw [perform_log hfinish, transmitted_append, hchunks]
    simp [transmitted]

end sending

section chunks

variable [Buf β]

theorem firstChunks_length_le (body : Body β ε) :
    (firstChunks body).length ≤ (Body.dataBytes body).length := by
  induction body with
  | nil => exact Nat.le_refl _
  | cons answer body ih =>
    rcases answer with _ | (e | (d | t))
    · exact ih
    · exact ih
    · have hchunk := (Buf.chunk_prefix d).length_le
      simp only [firstChunks, Body.dataBytes, List.length_append]
      omega
    · exact ih

/-- The first chunks are everything exactly when no frame has a second chunk. -/
theorem firstChunks_eq_iff (body : Body β ε) :
    firstChunks body = Body.dataBytes body ↔
      ∀ d, .ready (.ok (.data d)) ∈ body → Buf.chunk d = Buf.bytes d := by
  induction body with
  | nil => simp [firstChunks, Body.dataBytes]
  | cons answer body ih =>
    rcases answer with _ | (e | (d | t))
    · simpa [firstChunks, Body.dataBytes] using ih
    · simpa [firstChunks, Body.dataBytes] using ih
    · constructor
      · intro h
        have hprefix := Buf.chunk_prefix d
        have hrest := firstChunks_length_le body
        have hlen := congrArg List.length h
        simp only [firstChunks, Body.dataBytes, List.length_append] at hlen
        have hchunk : Buf.chunk d = Buf.bytes d := hprefix.eq_of_length_le (by omega)
        simp only [firstChunks, Body.dataBytes, hchunk, List.append_cancel_left_eq] at h
        intro d' hd'
        rcases List.mem_cons.mp hd' with heq | hmem
        · cases heq
          exact hchunk
        · exact ih.mp h d' hmem
      · intro h
        have hrest := ih.mpr fun d' hd' => h d' (List.mem_cons_of_mem _ hd')
        simp only [firstChunks, Body.dataBytes, hrest, h d List.mem_cons_self]
    · simpa [firstChunks, Body.dataBytes] using ih

theorem firstChunks_normalizeBody (into : ε' → ε) (body : Body β ε') :
    firstChunks (normalizeBody into body) = firstChunks body := by
  induction body with
  | nil => rfl
  | cons answer body ih =>
    rcases answer with _ | (e | (d | t))
    · exact ih
    · exact ih
    · exact congrArg (Buf.chunk d ++ ·) ih
    · exact ih

end chunks

/-- A request of the client, sent over HTTP/3 on a stream that takes all its data, transmits the
bytes that `hyper` would be given exactly when each data frame shows them in one chunk. -/
theorem h3_transmits_body_iff [Buf β] (into : ε' → ε) (request : Request χ (Body β ε'))
    (peer : Peer χ ε) (respond : List (StreamCall χ) → ρ) (log : List (StreamCall χ))
    (hopen : peer [.sendRequest request.parts] = .ok ())
    (hbody : sendBody id peer (normalizeRequest into request).body
      [.sendRequest request.parts] = (.ok (), log)) :
    Body.dataBytes (convertBody id (normalizeRequest into request).body) =
        Body.dataBytes request.body ∧
      (transmitted (sendRequest id peer respond (normalizeRequest into request) []).2 =
          Body.dataBytes (convertBody id (normalizeRequest into request).body) ↔
        ∀ d, .ready (.ok (.data d)) ∈ request.body → Buf.chunk d = Buf.bytes d) := by
  have hhyper : Body.dataBytes (convertBody id (normalizeRequest into request).body) =
      Body.dataBytes request.body := by
    rw [convertBody, dataBytes_normalizeBody, normalizeRequest, dataBytes_normalizeBody]
  have hsent : transmitted (sendRequest id peer respond (normalizeRequest into request) []).2 =
      firstChunks (normalizeRequest into request).body := sendRequest_transmits hopen hbody
  refine ⟨hhyper, ?_⟩
  rw [hsent, hhyper, normalizeRequest, firstChunks_normalizeBody]
  exact firstChunks_eq_iff request.body

def willingPeer : Peer Unit Unit := fun _ => .ok ()

def postOf (β : Type) (body : Body β Unit) : Request Unit (Body β Unit) where
  parts := ⟨['P', 'O', 'S', 'T'], ⟨none, some ['a'], ['/']⟩, [], []⟩
  body := body

theorem one_chunk_transmitted :
    transmitted (sendRequest id willingPeer (fun _ => ())
        (normalizeRequest id (postOf Bytes [.ready (.ok (.data [1, 2]))])) []).2 = [1, 2] := by
  have h := h3_transmits_body_iff id (postOf Bytes [.ready (.ok (.data [1, 2]))]) willingPeer
    (fun _ => ()) _ rfl rfl
  rw [h.2.mpr (by intro d hd; rfl)]
  rfl

/-- Of a frame of two chunks the second is not sent. -/
theorem second_chunk_not_transmitted :
    let request := postOf (Chain Bytes Bytes) [.ready (.ok (.data ⟨[1], [2]⟩))]
    (sendRequest id willingPeer (fun _ => ()) (normalizeRequest id request) []).1 = .ok () ∧
      transmitted (sendRequest id willingPeer (fun _ => ()) (normalizeRequest id request) []).2 =
        [1] ∧
      Body.dataBytes (convertBody id (normalizeRequest id request).body) = [1, 2] := by
  intro request
  exact ⟨rfl, rfl, rfl⟩

end H3Sessions
