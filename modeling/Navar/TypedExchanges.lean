import Navar.H3Trailers
import Navar.H3Uploads
import Navar.HyperRequests
import Navar.ResponseReaders

/-! # Values sent and read back

A value goes into the body of a request by a call of the builder, through the client and a session
of `hyper` or HTTP/3 to the peer, and comes out of a response by a call of its reader. -/
namespace TypedExchanges

open ByteBuffers
open LineSplitting
open PollStreams
open LossyText
open HttpMessages
open H3Sessions
open H3Trailers (RequestStream H3ResponseBody)
open LineScanning (lf)
open RequestBuilding
open HyperRequests (HyperSender Handed send)
open NdjsonStreams (NdjsonStream bodyItems_faultless)
open ResponseReaders

variable {B χ ξ κ β δ ε ε' ρ τ : Type}

section bodies

theorem faultless_normalizeBody {into : ε' → ε} {body : Body β ε'} (h : Faultless body) :
    Faultless (normalizeBody into body) := by
  intro e hmem
  simp only [normalizeBody, Body.mapErr, Body.mapFrame, List.map_map, List.mem_map] at hmem
  obtain ⟨answer, hanswer, heq⟩ := hmem
  rcases answer with _ | (e' | frame)
  · cases heq
  · exact h e' hanswer
  · cases heq

theorem normalizeBody_error (into : ε' → ε) (front : Body β ε') (e : ε') (rest : Body β ε') :
    normalizeBody into (front ++ .ready (.error e) :: rest) =
      normalizeBody into front ++ .ready (.error (into e)) :: normalizeBody into rest := by
  simp only [normalizeBody, Body.mapErr, Body.mapFrame, List.map_append, List.map_cons]
  rfl

theorem collectBytes_normalizeBody [BodyExt] [Buf β] (into : ε' → ε) (body : Body β ε') :
    collectBytes (normalizeBody into body) = (collectBytes body).mapError into := by
  rcases faultless_or_stopped body with hfaultless | ⟨before, e, after, rfl, hbefore⟩
  · rw [collectBytes_ok_iff.mpr ⟨hfaultless, rfl⟩,
      collectBytes_ok_iff.mpr ⟨faultless_normalizeBody hfaultless, rfl⟩, dataBytes_normalizeBody]
    rfl
  · rw [collectBytes_error_iff.mpr ⟨before, after, rfl, hbefore⟩, normalizeBody_error,
      collectBytes_error_iff.mpr ⟨_, _, rfl, faultless_normalizeBody hbefore⟩]
    rfl

theorem mapError_ok_iff {α : Type} {f : ε' → ε} {r : Except ε' α} {a : α} :
    r.mapError f = .ok a ↔ r = .ok a := by
  cases r <;> simp [Except.mapError]

theorem full_bytes [BodyExt] (bs : Bytes) : collectBytes (full bs) = .ok bs := by
  rw [collectBytes_ok_iff]
  unfold full
  split_ifs with h
  · exact ⟨by simp [Faultless], by simp [Body.dataBytes, Buf.bytes]⟩
  · have hnil : bs = [] := by
      apply List.length_eq_zero_iff.mp
      by_contra hne
      exact h (by simpa [Buf.hasRemaining, Buf.remaining] using Nat.pos_of_ne_zero hne)
    rw [hnil]
    exact ⟨by simp [Faultless], rfl⟩

end bodies

section uploads

/-- The request that `hyper` is given has this body. -/
def handedBody : Handed χ β ε → Body (NormalizedData β) ε
  | .http1 request => request.body
  | .http2 request => request.body

/-- A session has sent the request of the client, and these are the bytes of the body. -/
inductive Uploaded [BodyExt] [Buf β] (into : ε' → ε) (request : Request χ (Body β ε'))
    (sent : Bytes) : Prop where
  | hyper {anyhow : Str → ε} {session : Str → Uri → Except ε HyperSender}
      {ready : Except ε Unit} {handed : Handed χ (NormalizedData β) ε}
      (h : send anyhow into session ready request = .ok handed)
      (hbody : collectBytes (handedBody handed) = .ok sent)
  | h3 {peer : Peer χ ε} {respond : List (StreamCall χ) → Unit}
      (h : (sendRequest id peer respond (normalizeRequest into request) []).1 = .ok ())
      (hbody :
        transmitted (sendRequest id peer respond (normalizeRequest into request) []).2 = sent)

theorem send_body {anyhow : Str → ε} {into : ε' → ε} {session : Str → Uri → Except ε HyperSender}
    {ready : Except ε Unit} {request : Request χ (Body β ε')}
    {handed : Handed χ (NormalizedData β) ε}
    (h : send anyhow into session ready request = .ok handed) :
    handedBody handed = normalizeBody id (normalizeBody into request.body) := by
  unfold send HyperRequests.handle at h
  cases ha : (normalizeRequest into request).parts.uri.authority with
  | none =>
    rw [ha] at h
    cases h
  | some authority =>
    rw [ha] at h
    cases hs : session authority (normalizeRequest into request).parts.uri with
    | error e =>
      simp only [hs, bind, Except.bind] at h
      cases h
    | ok sender =>
      simp only [hs, bind, Except.bind, HyperSender.sendRequest] at h
      cases sender <;> cases ready <;> cases h <;> rfl

/-- Over HTTP/3, a request that is answered had a body without errors. -/
theorem answered_faultless [Buf β] {into : ε' → ε} {peer : Peer χ ε}
    {respond : List (StreamCall χ) → Unit} {request : Request χ (Body β ε')}
    (h : (sendRequest into peer respond request []).1 = .ok ()) : Faultless request.body := by
  intro e hmem
  obtain ⟨⟨e', he⟩, _⟩ := H3Uploads.sendRequest_fails into peer respond hmem
  rw [h] at he
  cases he

/-- A body whose frames are single chunks is sent whole over every session. -/
theorem uploaded_bytes [BodyExt] [Buf β] {into : ε' → ε} {request : Request χ (Body β ε')}
    {sent : Bytes} (hchunks : ∀ d, .ready (.ok (.data d)) ∈ request.body → Buf.chunk d = Buf.bytes d)
    (h : Uploaded into request sent) : collectBytes request.body = .ok sent := by
  cases h with
  | hyper h hbody =>
    rw [send_body h, collectBytes_normalizeBody, collectBytes_normalizeBody, mapError_ok_iff,
      mapError_ok_iff] at hbody
    exact hbody
  | h3 h hbody =>
    have hnormalized : Faultless (normalizeBody into request.body) := answered_faultless h
    have hall : collectBytes (normalizeBody into request.body) =
        .ok (Body.dataBytes request.body) := by
      rw [collectBytes_ok_iff.mpr ⟨hnormalized, rfl⟩, dataBytes_normalizeBody]
    have hsent : transmitted _ = firstChunks (normalizeBody into request.body) :=
      H3Trailers.transmitted_of_answered h
    rw [collectBytes_normalizeBody, mapError_ok_iff] at hall
    rw [hall, ← hbody, hsent, firstChunks_normalizeBody, (firstChunks_eq_iff _).mpr hchunks]

end uploads

section failures

variable [Buf β] (into : ε' → ε) (peer : Peer χ ε)

/-- The peer has refused none of these calls. -/
def Accepts (log : List (StreamCall χ)) : Prop := ∀ calls, calls <+: log → calls ≠ [] →
  peer calls = .ok ()

/-- What has come of sending bytes up to an error. -/
structure Stopped (result : Except ε ρ) (log : List (StreamCall χ)) (e : ε) (bs : Bytes) :
    Prop where
  sent : transmitted log <+: bs
  accepted : Accepts peer log → result = .error e ∧ transmitted log = bs

theorem stopped_of_refused {result : Except ε ρ} {log : List (StreamCall χ)} {call : StreamCall χ}
    {bs : Bytes} {e e' : ε} (h : peer (log ++ [call]) = .error e')
    (hsent : transmitted (log ++ [call]) <+: bs) : Stopped peer result (log ++ [call]) e bs := by
  refine ⟨hsent, ?_⟩
  intro hall
  have hcall := hall _ (List.prefix_refl _) (by simp)
  rw [h] at hcall
  cases hcall

/-- The loop goes on to the error if nothing is refused before, and has sent what stands there. -/
theorem sendBody_stopped {front : Body β ε'} (hfront : Faultless front) (e : ε')
    (rest : Body β ε') (log : List (StreamCall χ)) :
    Stopped peer (sendBody into peer (front ++ .ready (.error e) :: rest) log).1
      (sendBody into peer (front ++ .ready (.error e) :: rest) log).2 (into e)
      (transmitted log ++ firstChunks front) := by
  induction front generalizing log with
  | nil =>
    have hthrow : sendBody into peer ([] ++ .ready (.error e) :: rest) log =
        (.error (into e), log) := rfl
    have hnone : transmitted log ++ firstChunks ([] : Body β ε') = transmitted log :=
      List.append_nil _
    rw [hthrow, hnone]
    exact ⟨List.prefix_refl _, fun _ => ⟨rfl, rfl⟩⟩
  | cons answer front ih =>
    have hrest : Faultless front := (faultless_cons.mp hfront).2
    rcases answer with _ | (e' | (d | t))
    · exact ih hrest log
    · exact absurd List.mem_cons_self (hfront e')
    · have hgrown : transmitted (log ++ [.sendData (Buf.chunk d)]) =
          transmitted log ++ Buf.chunk d := by
        rw [transmitted_append]
        simp [transmitted]
      simp only [List.cons_append, sendBody, Frame.intoData]
      apply perform_then (P := fun sent => Stopped peer sent.1 sent.2 (into e) _)
      · intro e' hrefused
        apply stopped_of_refused peer hrefused
        rw [hgrown, firstChunks, ← List.append_assoc]
        exact List.prefix_append _ _
      · have hlater := ih hrest (log ++ [.sendData (Buf.chunk d)])
        rw [hgrown, List.append_assoc] at hlater
        exact hlater
    · exact ih hrest log

theorem sendRequest_stopped (respond : List (StreamCall χ) → ρ) (parts : RequestParts χ)
    {front : Body β ε'} (hfront : Faultless front) (e : ε') (rest : Body β ε') :
    let request : Request χ (Body β ε') := ⟨parts, front ++ .ready (.error e) :: rest⟩
    Stopped peer (sendRequest into peer respond request []).1
      (sendRequest into peer respond request []).2 (into e) (firstChunks front) := by
  intro request
  have hbody := sendBody_stopped into peer hfront e rest [.sendRequest parts]
  have hmem : .ready (.error e) ∈ request.body := List.mem_append_right _ List.mem_cons_self
  obtain ⟨e', hfails⟩ := H3Uploads.sendBody_fails into peer hmem [.sendRequest parts]
  apply perform_then (P := fun sent => Stopped peer sent.1 sent.2 (into e) _)
  · intro e' hrefused
    apply stopped_of_refused peer hrefused
    exact List.nil_prefix
  · rw [List.nil_append, bind_run]
    cases hsent : sendBody into peer request.body [.sendRequest parts] with
    | mk result log =>
      simp only [request] at hsent hfails
      rw [hsent] at hbody hfails
      simp only at hfails
      subst hfails
      refine ⟨hbody.sent, ?_⟩
      intro hall
      obtain ⟨hresult, hall⟩ := hbody.accepted hall
      cases hresult
      exact ⟨rfl, hall⟩

end failures

section responses

/-- A response of HTTP/3 as a body: what polling it for frames answers. -/
def h3Answer [Buf δ] (wrap : ε → ε') : Poll (Except ε δ) → Poll (Except ε' (Frame Bytes))
  | .pending => .pending
  | .ready (.ok d) => .ready (.ok (.data (Buf.bytes d)))
  | .ready (.error e) => .ready (.error (wrap e))

def h3Body [Buf δ] (wrap : ε → ε') (s : RequestStream δ ε) : Body Bytes ε' :=
  s.data.map (h3Answer wrap)

/-- Whoever polls the response for frames polls a body with these answers. -/
theorem h3Body_simulates [Buf δ] (wrap : ε → ε') :
    Simulates (H3ResponseBody.pollFrame (δ := δ) wrap)
      (fun body : Body Bytes ε' => (body.pollFrame.2, body.pollFrame.1))
      (fun s body => body = h3Body wrap s.stream) := by
  rintro ⟨⟨data, trailers⟩⟩ body rfl
  cases data with
  | nil => exact ⟨_, rfl, rfl⟩
  | cons answer rest =>
    rcases answer with _ | (e | d)
    · exact ⟨_, rfl, rfl⟩
    · exact ⟨_, rfl, rfl⟩
    · refine ⟨⟨⟨rest, trailers⟩⟩, ?_, rfl⟩
      rw [H3ResponseBody.pollFrame, RequestStream.pollRecvData]
      simp only [copyToBytes_all]
      rfl

end responses

section exchanges

variable [BodyExt]

/-- The response comes to its end with these bytes, in whatever frames. -/
def Echoes [Buf δ] (reply : Body δ ε') (sent : Bytes) : Prop := bytes reply = .ok sent

theorem bytes_echoed [Buf δ] {reply : Body δ ε'} {sent : Bytes} (h : Echoes reply sent)
    (wrap : ε' → ε) : bytes (normalizeBody wrap reply) = .ok sent := by
  rw [bytes, collectBytes_normalizeBody, mapError_ok_iff]
  exact h

/-- What a call that makes one buffer of the value sends. -/
theorem full_uploaded [HttpBuilder B χ ξ] {into : ξ → ε} {b : BoundRequestBuilder B κ}
    {bs sent : Bytes}
    {bound : BoundRequest χ κ (Body Bytes Empty)} (hbuilt : b.body into (full bs) = .ok bound)
    (h : Uploaded (Empty.elim : Empty → ε) bound.request sent) : sent = bs := by
  have hsent := uploaded_bytes (fun _ _ => rfl) h
  rw [BoundRequestBuilder.body_carries hbuilt, full_bytes] at hsent
  exact (Except.ok.inj hsent).symm

/-- What the response is read as when it brings back what the request has sent. -/
structure ReadsBack [HttpBuilder B χ ξ] [Buf δ] (into : ξ → ε) (toVec : τ → Except ε Bytes)
    (fromSlice : Bytes → Except ε τ) (anyhow : Str → ε) (wrap : ε' → ε)
    (b : BoundRequestBuilder B κ) (sent : Bytes) (reply : Body δ ε') : Prop where
  nothing : ∀ bound, b.build into = .ok bound →
    Uploaded (Empty.elim : Empty → ε) bound.request sent →
    bytes (normalizeBody wrap reply) = .ok []
  text : ∀ t bound, b.text into t = .ok bound →
    Uploaded (Empty.elim : Empty → ε) bound.request sent →
    ResponseReaders.text anyhow (normalizeBody wrap reply) = .ok t
  bytes : ∀ bs bound, b.bytes into bs = .ok bound →
    Uploaded (Empty.elim : Empty → ε) bound.request sent →
    ResponseReaders.bytes (normalizeBody wrap reply) = .ok bs
  json : ∀ x bound, (∀ v, toVec x = .ok v → fromSlice v = .ok x) →
    b.json into toVec x = .ok bound → Uploaded (Empty.elim : Empty → ε) bound.request sent →
    ResponseReaders.json fromSlice (normalizeBody wrap reply) = .ok x
  ndjson : ∀ data bound, (∀ x, .ready x ∈ data → ∀ v, toVec x = .ok v →
      lf ∉ v ∧ fromSlice v = .ok x) →
    b.ndjson into toVec data = .ok bound → Uploaded id bound.request sent →
    Yields (NdjsonStream.pollNext fromSlice) (NdjsonStream.new (normalizeBody wrap reply))
      ((produced data).map .ok)

/-- Every item of a stream that has been sent whole has been serialized. -/
theorem items_serialized {toVec : τ → Except ε Bytes} {data : List (Poll τ)} {sent : Bytes}
    (h : collectBytes (data.map (BoundRequestBuilder.ndjsonFrame toVec)) = .ok sent) (x : τ)
    (hx : .ready x ∈ data) : ∃ v, toVec x = .ok v := by
  have hfaultless := (bytes_ok_iff.mp h).1
  cases hv : toVec x with
  | ok v => exact ⟨v, rfl⟩
  | error e =>
    have hframe : BoundRequestBuilder.ndjsonFrame toVec (.ready x) = .ready (.error e) := by
      simp only [BoundRequestBuilder.ndjsonFrame, hv]
      rfl
    exact absurd (hframe ▸ List.mem_map_of_mem hx) (hfaultless e)

theorem ndjson_echoed [Buf δ] {toVec : τ → Except ε Bytes} {fromSlice : Bytes → Except ε τ}
    {data : List (Poll τ)} {sent : Bytes} {reply : Body δ ε}
    (hserde : ∀ x, .ready x ∈ data → ∀ v, toVec x = .ok v → lf ∉ v ∧ fromSlice v = .ok x)
    (hsent : collectBytes (data.map (BoundRequestBuilder.ndjsonFrame toVec)) = .ok sent)
    (hreply : bytes reply = .ok sent) :
    Yields (NdjsonStream.pollNext fromSlice) (NdjsonStream.new reply)
      ((produced data).map .ok) := by
  obtain ⟨encode, hencode⟩ : ∃ encode : τ → Bytes, ∀ x, .ready x ∈ data →
      toVec x = .ok (encode x) := by
    refine ⟨fun x => (toVec x).toOption.getD [], ?_⟩
    intro x hx
    obtain ⟨v, hv⟩ := items_serialized hsent x hx
    show toVec x = .ok ((toVec x).toOption.getD [])
    rw [hv]
    rfl
  rw [encoded_bytes hencode] at hsent
  have hlf : ∀ l ∈ (produced data).map encode, lf ∉ l := by
    intro l hl
    obtain ⟨x, hx, rfl⟩ := List.mem_map.mp hl
    exact (hserde x (mem_produced hx) _ (hencode x (mem_produced hx))).1
  have hlines := lines_unlines hlf
  obtain ⟨hfaultless, hbytes⟩ := bytes_ok_iff.mp hreply
  have hitems : NdjsonStreams.bodyItems fromSlice [] reply = (produced data).map .ok := by
    rw [bodyItems_faultless fromSlice hfaultless, hbytes, ← Except.ok.inj hsent, hlines.1,
      List.map_map]
    exact List.map_congr_left fun x hx =>
      (hserde x (mem_produced hx) _ (hencode x (mem_produced hx))).2
  exact hitems ▸ NdjsonStreams.yields_new fromSlice reply

end exchanges

/-- Whichever session carries the request, and in whatever frames the response brings the bytes
back, the reader for the call of the builder gives the value that was sent. -/
theorem values_read_back [BodyExt] [HttpBuilder B χ ξ] [Buf δ] (into : ξ → ε)
    (toVec : τ → Except ε Bytes) (fromSlice : Bytes → Except ε τ) (anyhow : Str → ε)
    (wrap : ε' → ε) (b : BoundRequestBuilder B κ) {sent : Bytes} {reply : Body δ ε'}
    (h : Echoes reply sent) :
    ReadsBack into toVec fromSlice anyhow wrap b sent reply := by
  have hreply := bytes_echoed h wrap
  constructor
  · intro bound hbuilt hup
    have hsent := uploaded_bytes (fun d _ => nomatch d) hup
    rw [BoundRequestBuilder.body_carries hbuilt] at hsent
    obtain rfl : [] = sent := (collectBytes_ok_iff.mp hsent).2
    exact hreply
  · intro t bound hbuilt hup
    obtain rfl := full_uploaded hbuilt hup
    exact text_ok_iff.mpr (bytes_ok_iff.mp hreply)
  · intro bs bound hbuilt hup
    obtain rfl := full_uploaded hbuilt hup
    exact hreply
  · intro x bound hserde hbuilt hup
    cases hv : toVec x with
    | error e =>
      rw [BoundRequestBuilder.json, hv] at hbuilt
      cases hbuilt
    | ok v =>
      rw [BoundRequestBuilder.json, hv] at hbuilt
      obtain rfl := full_uploaded hbuilt hup
      rw [json, hreply]
      exact hserde sent hv
  · intro data bound hserde hbuilt hup
    have hsent := uploaded_bytes (fun _ _ => rfl) hup
    rw [BoundRequestBuilder.ndjson_carries hbuilt] at hsent
    exact ndjson_echoed hserde hsent hreply

/-- The euro sign, sent over HTTP/3 and brought back in two pieces. -/
theorem values_read_back_euro :
    let b : BoundRequestBuilder (Builder Unit) Unit :=
      .new () ['P'] (.ok ⟨none, some ['h'], ['/']⟩)
    let stream : RequestStream Bytes Unit :=
      { data := [.ready (.ok [0xE2]), .pending, .ready (.ok [0x82, 0xAC])], trailers := none }
    ∃ bound, b.text (fun _ => ()) ['€'] = .ok bound ∧
      text (fun _ => ()) (normalizeBody id (h3Body id stream)) = .ok ['€'] := by
  intro b stream
  have hecho : Echoes (h3Body id stream) [0xE2, 0x82, 0xAC] := rfl
  have hread := values_read_back (fun _ => ()) boolToVec boolFromSlice (fun _ => ()) id b hecho
  refine ⟨_, rfl, hread.text ['€'] _ rfl ?_⟩
  refine @Uploaded.h3 _ _ _ _ _ _ _ _ _ willingPeer (fun _ => ()) rfl ?_
  decide

section brokenOff

theorem normalizeBody_stopped [BodyExt] [Buf β] (into : ε' → ε) {front : Body β ε'} {bs : Bytes}
    (h : collectBytes front = .ok bs) (e : ε') (rest : Body β ε') :
    normalizeBody into (front ++ .ready (.error e) :: rest) =
        normalizeBody into front ++ .ready (.error (into e)) :: normalizeBody into rest ∧
      collectBytes (normalizeBody into front) = .ok bs := by
  refine ⟨normalizeBody_error into front e rest, ?_⟩
  rw [collectBytes_normalizeBody, h]
  rfl

theorem broken_frames [BodyExt] {toVec : τ → Except ε Bytes} {encode : τ → Bytes}
    {before : List (Poll τ)} {x : τ} {e : ε} (hitems : ∀ y, .ready y ∈ before → toVec y = .ok (encode y))
    (hx : toVec x = .error e) (after : List (Poll τ)) :
    (before ++ .ready x :: after).map (BoundRequestBuilder.ndjsonFrame toVec) =
        before.map (BoundRequestBuilder.ndjsonFrame toVec) ++ .ready (.error e) ::
          after.map (BoundRequestBuilder.ndjsonFrame toVec) ∧
      collectBytes (before.map (BoundRequestBuilder.ndjsonFrame toVec)) =
        .ok (unlines lf ((produced before).map encode)) := by
  refine ⟨?_, encoded_bytes hitems⟩
  have hframe : BoundRequestBuilder.ndjsonFrame toVec (.ready x) = .ready (.error e) := by
    simp only [BoundRequestBuilder.ndjsonFrame, hx]
    rfl
  rw [List.map_append, List.map_cons, hframe]

end brokenOff

/-- How a request whose body fails after these bytes is sent: `hyper` meets the error behind
exactly these bytes; over HTTP/3 the request fails and is not finished, no other bytes are sent,
and if the peer refuses nothing, all of them are and the error is the one of the body. -/
structure BreaksOff (request : Request χ (Body Bytes ε)) (e : ε) (bs : Bytes) : Prop where
  hyper : ∀ (anyhow : Str → ε) session ready handed,
    send anyhow id session ready request = .ok handed → ∃ front rest,
      handedBody handed = front ++ .ready (.error e) :: rest ∧ Faultless front ∧
        Body.dataBytes front = bs
  h3 : ∀ (peer : Peer χ ε) (respond : List (StreamCall χ) → Unit),
    let sent := sendRequest id peer respond (normalizeRequest id request) []
    (∃ e', sent.1 = .error e') ∧ .finish ∉ sent.2 ∧ Stopped peer sent.1 sent.2 e bs

/-- A stream of items is sent up to the first one that cannot be serialized. -/
theorem failed_item_breaks_off [HttpBuilder B χ ξ] (into : ξ → ε) (toVec : τ → Except ε Bytes)
    (encode : τ → Bytes) (b : BoundRequestBuilder B κ) {before after : List (Poll τ)} {x : τ}
    {e : ε} {bound : BoundRequest χ κ (Body Bytes ε)}
    (hbuilt : b.ndjson into toVec (before ++ .ready x :: after) = .ok bound)
    (hitems : ∀ y, .ready y ∈ before → toVec y = .ok (encode y)) (hx : toVec x = .error e) :
    BreaksOff bound.request e (unlines lf ((produced before).map encode)) := by
  obtain ⟨hframes, hbytes⟩ := broken_frames hitems hx after
  have hbody := BoundRequestBuilder.ndjson_carries hbuilt
  rw [hframes] at hbody
  obtain ⟨hfirst, hbytes₁⟩ := normalizeBody_stopped id hbytes e
    (after.map (BoundRequestBuilder.ndjsonFrame toVec))
  have hfaultless := (bytes_ok_iff.mp hbytes₁).1
  constructor
  · intro anyhow session ready handed hsend
    obtain ⟨hsecond, hbytes₂⟩ := normalizeBody_stopped id hbytes₁ e
      (normalizeBody id (after.map (BoundRequestBuilder.ndjsonFrame toVec)))
    have hhanded := send_body hsend
    rw [hbody, hfirst] at hhanded
    exact ⟨_, _, hhanded.trans hsecond, bytes_ok_iff.mp hbytes₂⟩
  · intro peer respond sent
    have hrequest : normalizeRequest id bound.request = ⟨bound.request.parts, _⟩ :=
      congrArg (Request.mk bound.request.parts) (hbody ▸ hfirst)
    have hmem : .ready (.error e) ∈ (normalizeRequest id bound.request).body := by
      rw [hrequest]
      exact List.mem_append_right _ List.mem_cons_self
    have hchunks : firstChunks (normalizeBody (id : ε → ε)
        (before.map (BoundRequestBuilder.ndjsonFrame toVec))) =
        unlines lf ((produced before).map encode) := by
      rw [firstChunks_normalizeBody, (firstChunks_eq_iff _).mpr fun _ _ => rfl]
      exact (bytes_ok_iff.mp hbytes).2
    obtain ⟨hfails, datas, hlog⟩ := H3Uploads.sendRequest_fails id peer respond hmem
    have hfinish : .finish ∉ sent.2 := by
      simp [sent, hlog]
    have hstopped := sendRequest_stopped id peer respond bound.request.parts hfaultless e
      (normalizeBody id (after.map (BoundRequestBuilder.ndjsonFrame toVec)))
    rw [hchunks] at hstopped
    refine ⟨hfails, hfinish, ?_⟩
    simp only [sent, hrequest]
    exact hstopped

def digitToVec (n : ℕ) : Except Unit Bytes :=
  if 0 < n ∧ n < 10 then .ok [UInt8.ofNat (48 + n)] else .error ()

/-- Of the digits 1, 0 and 2 only the first one is sent. -/
theorem failed_item_breaks_off_zero :
    let b : BoundRequestBuilder (Builder Unit) Unit :=
      .new () ['P'] (.ok ⟨none, some ['h'], ['/']⟩)
    ∃ bound, b.ndjson (fun _ => ()) digitToVec
        ([.ready 1, .pending] ++ .ready 0 :: [.ready 2]) = .ok bound ∧
      BreaksOff bound.request () [49, 10] := by
  intro b
  have hitems : ∀ y, .ready y ∈ [Poll.ready 1, .pending] →
      digitToVec y = .ok [UInt8.ofNat (48 + y)] := by
    intro y hy
    have hone : y = 1 := by simpa using hy
    rw [hone]
    rfl
  exact ⟨_, rfl, failed_item_breaks_off (fun _ => ()) digitToVec _ b rfl hitems rfl⟩

end TypedExchanges
