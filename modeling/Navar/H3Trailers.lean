import Navar.H3Sessions

/-! # Trailers over HTTP/3

A message is its data and, behind them, its trailers. On a request stream both have frames of their
own, and `h3` sends and receives them by calls of their own; of these the session makes those for
the data. -/
namespace H3Trailers

open ByteBuffers
open PollStreams
open HttpMessages
open H3Sessions

variable {χ β δ ε ε' ρ : Type}

/-- What stands on a request stream, in order. -/
inductive StreamItem (χ : Type) where
  | headers (parts : RequestParts χ)
  | data (bytes : Bytes)
  | trailers (t : HeaderMap)
  | fin

def written : StreamCall χ → List (StreamItem χ)
  | .sendRequest parts => [.headers parts]
  | .sendData bytes => [.data bytes]
  | .sendTrailers t => [.trailers t]
  | .finish => [.fin]
  | .stopStream _ => []
  | .recvResponse => []

def stream (log : List (StreamCall χ)) : List (StreamItem χ) := log.flatMap written

structure Message where
  data : Bytes
  trailers : List HeaderMap

def readData : StreamItem χ → Bytes
  | .data bytes => bytes
  | _ => []

def readTrailers : StreamItem χ → List HeaderMap
  | .trailers t => [t]
  | _ => []

/-- What the peer reads from a request stream. -/
def message (items : List (StreamItem χ)) : Message :=
  { data := items.flatMap readData, trailers := items.flatMap readTrailers }

/-- The trailers stand behind all the data and before the end of the stream. -/
def TrailersSent (items : List (StreamItem χ)) (t : HeaderMap) : Prop :=
  ∃ before after, items = before ++ .trailers t :: after ∧ (∀ bytes, .data bytes ∉ after) ∧
    .fin ∉ before

example (parts : RequestParts χ) (t : HeaderMap) :
    TrailersSent (stream [.sendRequest parts, .sendData [1], .sendTrailers t, .finish]) t :=
  ⟨[.headers parts, .data [1]], [.fin], rfl, by simp, by simp⟩

def bodyTrailers : Body β ε → List HeaderMap
  | [] => []
  | .ready (.ok (.trailers t)) :: rest => t :: bodyTrailers rest
  | _ :: rest => bodyTrailers rest

def bodyMessage [Buf β] (body : Body β ε) : Message :=
  { data := Body.dataBytes body, trailers := bodyTrailers body }

def dataAnswer : Poll β → Poll (Except ε (Frame β))
  | .pending => .pending
  | .ready d => .ready (.ok (.data d))

/-- Data frames, and behind them perhaps a trailers frame. -/
def framed (datas : List (Poll β)) (trailers : Option HeaderMap) : Body β ε :=
  datas.map dataAnswer ++ trailers.toList.map fun t => .ready (.ok (.trailers t))

/-- The receiving side of `h3`'s `RequestStream`: what polling for data answers until there is no
more, and the trailers behind the data. -/
structure RequestStream (δ ε : Type) where
  data : List (Poll (Except ε δ))
  trailers : Option HeaderMap

def RequestStream.pollRecvData (s : RequestStream δ ε) :
    RequestStream δ ε × Poll (Except ε (Option δ)) :=
  match s.data with
  | [] => (s, .ready (.ok none))
  | .pending :: rest => ({ s with data := rest }, .pending)
  | .ready (.ok d) :: rest => ({ s with data := rest }, .ready (.ok (some d)))
  | .ready (.error e) :: rest => ({ s with data := rest }, .ready (.error e))

structure H3ResponseBody (δ ε : Type) where
  stream : RequestStream δ ε

def H3ResponseBody.pollFrame [Buf δ] (wrap : ε → ε') (s : H3ResponseBody δ ε) :
    Option (H3ResponseBody δ ε × Poll (Option (Except ε' (Frame Bytes)))) :=
  match s.stream.pollRecvData with
  | (stream, .ready (.ok (some bytes))) =>
    let (chunk, _) := Buf.copyToBytes bytes (Buf.remaining bytes)
    some ({ stream := stream }, .ready (some (.ok (.data chunk))))
  | (stream, .ready (.ok none)) => some ({ stream := stream }, .ready none)
  | (stream, .ready (.error e)) => some ({ stream := stream }, .ready (some (.error (wrap e))))
  | (stream, .pending) => some ({ stream := stream }, .pending)

/-- The data frames and errors of a response. -/
def dataFrames [Buf δ] (wrap : ε → ε') (answer : Poll (Except ε δ)) :
    List (Except ε' (Frame Bytes)) :=
  match answer with
  | .pending => []
  | .ready (.ok d) => [.ok (.data (Buf.bytes d))]
  | .ready (.error e) => [.error (wrap e)]

/-- All the frames of a response. -/
def frames [Buf δ] (wrap : ε → ε') (s : RequestStream δ ε) : List (Except ε' (Frame Bytes)) :=
  s.data.flatMap (dataFrames wrap) ++ s.trailers.toList.map fun t => .ok (.trailers t)

section requests

/-- The session makes no call that writes trailers. -/
theorem trailers_not_written [Buf β] (into : ε' → ε) (peer : Peer χ ε)
    (respond : List (StreamCall χ) → ρ) (request : Request χ (Body β ε')) (t : HeaderMap) :
    .trailers t ∉ stream (sendRequest into peer respond request []).2 := by
  intro h
  obtain ⟨call, hmade, hcall⟩ := List.mem_flatMap.mp h
  obtain ⟨datas, hcalls⟩ := sendRequest_calls into peer respond request
  have hof := hcalls.subset hmade
  cases call with
  | sendTrailers t => simp at hof
  | _ => simp [written] at hcall

theorem readTrailers_nil {items : List (StreamItem χ)} (h : ∀ t, .trailers t ∉ items) :
    items.flatMap readTrailers = [] := by
  apply List.flatMap_eq_nil_iff.mpr
  intro item hitem
  cases item with
  | trailers t => exact absurd hitem (h t)
  | _ => rfl

theorem readData_stream (log : List (StreamCall χ)) :
    (stream log).flatMap readData = transmitted log := by
  induction log with
  | nil => rfl
  | cons call log ih =>
    rw [stream, List.flatMap_cons, List.flatMap_append]
    cases call <;> simp [written, readData, transmitted, ← ih, stream]

theorem bodyTrailers_normalizeBody (into : ε' → ε) (body : Body β ε') :
    bodyTrailers (normalizeBody into body) = bodyTrailers body := by
  induction body with
  | nil => rfl
  | cons answer body ih =>
    rcases answer with _ | (e | (d | t))
    · exact ih
    · exact ih
    · exact ih
    · exact congrArg (t :: ·) ih

theorem bodyTrailers_framed (datas : List (Poll β)) (trailers : Option HeaderMap) :
    bodyTrailers (framed datas trailers : Body β ε) = trailers.toList := by
  induction datas with
  | nil => cases trailers <;> rfl
  | cons d datas ih => cases d <;> exact ih

theorem mem_framed {datas : List (Poll β)} {trailers : Option HeaderMap} {d : β} :
    (.ready (.ok (.data d)) : Poll (Except ε (Frame β))) ∈ framed datas trailers ↔
      .ready d ∈ datas := by
  have hanswer : ∀ answer : Poll β, dataAnswer answer =
      (.ready (.ok (.data d)) : Poll (Except ε (Frame β))) ↔ answer = .ready d := by
    intro answer
    cases answer <;> simp [dataAnswer]
  simp [framed, hanswer]

/-- A request that is answered has been sent to its end. -/
theorem transmitted_of_answered [Buf β] {into : ε' → ε} {peer : Peer χ ε}
    {respond : List (StreamCall χ) → ρ} {request : Request χ (Body β ε')} {response : ρ}
    (h : (sendRequest into peer respond request []).1 = .ok response) :
    transmitted (sendRequest into peer respond request []).2 = firstChunks request.body := by
  cases hopen : peer [.sendRequest request.parts] with
  | error e =>
    have hfirst : perform peer (.sendRequest request.parts) [] =
        (.error e, [.sendRequest request.parts]) := by
      simp [perform, hopen]
    simp only [sendRequest] at h
    rw [bind_run, hfirst] at h
    cases h
  | ok u =>
    have hfirst : perform peer (.sendRequest request.parts) [] =
        (.ok (), [.sendRequest request.parts]) := by
      simp [perform, hopen]
    cases hbody : sendBody into peer request.body [.sendRequest request.parts] with
    | mk result log =>
      cases result with
      | ok u => exact sendRequest_transmits hopen hbody
      | error e =>
        simp only [sendRequest] at h
        rw [bind_run, hfirst] at h
        simp only at h
        rw [bind_run, hbody] at h
        cases h

end requests

section responses

variable [Buf δ] {wrap : ε → ε'}

/-- The data answers seen in `n` polls have been given as frames, the others are to come. -/
def Polled (wrap : ε → ε') (s : RequestStream δ ε) (n : ℕ) (items : List (Except ε' (Frame Bytes)))
    (t : H3ResponseBody δ ε) : Prop :=
  ∃ seen, s.data = seen ++ t.stream.data ∧ t.stream.trailers = s.trailers ∧
    items = seen.flatMap (dataFrames wrap) ∧ (t.stream.data ≠ [] → seen.length = n)

theorem pollFrame_polled {s : RequestStream δ ε} {n : ℕ} {items : List (Except ε' (Frame Bytes))}
    {t : H3ResponseBody δ ε} (h : Polled wrap s n items t) : ∃ u answer,
      t.pollFrame wrap = some (u, answer) ∧ Polled wrap s (n + 1) (items ++ answer.items) u := by
  obtain ⟨⟨data, trailers⟩⟩ := t
  obtain ⟨seen, hdata, htrailers, rfl, hlength⟩ := h
  cases data with
  | nil => exact ⟨_, _, rfl, seen, hdata, htrailers, List.append_nil _, nofun⟩
  | cons answer rest =>
    have hcut : s.data = (seen ++ [answer]) ++ rest := by simpa using hdata
    have hseen : (seen ++ [answer]).length = n + 1 := by
      simpa using hlength (List.cons_ne_nil _ _)
    rcases answer with _ | (e | d)
    · exact ⟨_, _, rfl, _, hcut, htrailers, by simp [dataFrames], fun _ => hseen⟩
    · exact ⟨_, _, rfl, _, hcut, htrailers, by simp [dataFrames], fun _ => hseen⟩
    · refine ⟨_, _, rfl, _, hcut, htrailers, ?_, fun _ => hseen⟩
      simp only [Buf.remaining_eq, List.take_length, List.flatMap_append]
      rfl

/-- The body gives what polling for data gives, and then ends. -/
theorem yields_data (s : RequestStream δ ε) :
    Yields (H3ResponseBody.pollFrame wrap) ⟨s⟩ (s.data.flatMap (dataFrames wrap)) := by
  refine ⟨s.data.length, fun n hn => ?_⟩
  have hstart : Polled wrap s 0 [] ⟨s⟩ := ⟨[], rfl, rfl, rfl, fun _ => rfl⟩
  obtain ⟨items, ⟨⟨data, trailers⟩⟩, hd, seen, hdata, htrailers, rfl, hlength⟩ :=
    drive_induction (H3ResponseBody.pollFrame wrap) ⟨s⟩ (Polled wrap s) hstart
      (fun _ _ _ h => pollFrame_polled h) n
  have hnone : data = [] := by
    by_contra hne
    have hlt := List.length_pos_iff.mpr hne
    have hall := congrArg List.length hdata
    simp only [List.length_append, hlength hne] at hall
    omega
  subst hnone
  simp only [List.append_nil] at hdata
  rw [hdata]
  exact ⟨_, hd, rfl⟩

end responses

/-- Over HTTP/3 the trailers of a request are not sent, and those of a response are not read: the
message is the one that `hyper` sends, and the frames are those of the response, only when there
are no trailers. -/
theorem trailers_delivered_iff [Buf β] [Buf δ] {ε'' : Type} (into : ε' → ε) (wrap : ε → ε'')
    (parts : RequestParts χ) (datas : List (Poll β)) (trailers : Option HeaderMap)
    (peer : Peer χ ε) (respond : List (StreamCall χ) → ρ) (response : RequestStream δ ε) :
    let request : Request χ (Body (NormalizedData β) ε) :=
      normalizeRequest into { parts := parts, body := framed datas trailers }
    let sent := sendRequest id peer respond request []
    ((∀ t, trailers = some t → TrailersSent (stream sent.2) t) ↔ trailers = none) ∧
    ((∃ r, sent.1 = .ok r) →
      (message (stream sent.2) = bodyMessage (convertBody id request.body) ↔
        trailers = none ∧ ∀ d, .ready d ∈ datas → Buf.chunk d = Buf.bytes d)) ∧
    ∃ items, Yields (H3ResponseBody.pollFrame wrap) ⟨response⟩ items ∧
      (items = frames wrap response ↔ response.trailers = none) := by
  intro request sent
  refine ⟨?_, ?_, _, yields_data response, ?_⟩
  · constructor
    · intro h
      cases trailers with
      | none => rfl
      | some t =>
        obtain ⟨before, after, hitems, _⟩ := h t rfl
        exact absurd (hitems ▸ List.mem_append_right _ List.mem_cons_self)
          (trailers_not_written id peer respond request t)
    · rintro rfl t ht
      cases ht
  · rintro ⟨r, hr⟩
    have hsent : transmitted sent.2 = firstChunks (framed datas trailers : Body β ε') := by
      rw [transmitted_of_answered hr]
      exact firstChunks_normalizeBody into _
    have hbody : bodyMessage (convertBody id request.body) =
        { data := Body.dataBytes (framed datas trailers : Body β ε')
          trailers := trailers.toList } := by
      rw [bodyMessage, convertBody, dataBytes_normalizeBody, bodyTrailers_normalizeBody]
      change Message.mk (Body.dataBytes (normalizeBody into (framed datas trailers)))
        (bodyTrailers (normalizeBody into (framed datas trailers))) = _
      rw [dataBytes_normalizeBody, bodyTrailers_normalizeBody, bodyTrailers_framed]
    rw [message, readData_stream,
      readTrailers_nil (trailers_not_written id peer respond request), hsent, hbody,
      Message.mk.injEq, firstChunks_eq_iff]
    simp only [mem_framed]
    rw [and_comm]
    apply and_congr_left
    intro _
    cases trailers <;> simp
  · cases ht : response.trailers <;> simp [frames, ht]

def checksum : HeaderMap := [("checksum".toList, [49])]

/-- The request is answered and the response ends, and the trailers of both are missing; `hyper`
is given those of the request. -/
theorem trailers_not_delivered :
    let request := normalizeRequest id (postOf Bytes (framed [.ready [1, 2]] (some checksum)))
    let sent := sendRequest id willingPeer (fun _ => ()) request []
    let response : RequestStream Bytes Unit := ⟨[.ready (.ok [3])], some checksum⟩
    sent.1 = .ok () ∧ message (stream sent.2) = ⟨[1, 2], []⟩ ∧
      bodyMessage (convertBody id request.body) = ⟨[1, 2], [checksum]⟩ ∧
      ¬ TrailersSent (stream sent.2) checksum ∧
      Yields (H3ResponseBody.pollFrame (id : Unit → Unit)) ⟨response⟩ [.ok (.data [3])] ∧
      frames (id : Unit → Unit) response = [.ok (.data [3]), .ok (.trailers checksum)] := by
  intro request sent response
  refine ⟨rfl, rfl, rfl, ?_, yields_data response, rfl⟩
  rintro ⟨before, after, hitems, _⟩
  exact trailers_not_written id willingPeer (fun _ => ()) request checksum
    (hitems ▸ List.mem_append_right _ List.mem_cons_self)

end H3Trailers
