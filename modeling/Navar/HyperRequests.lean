import Mathlib.Data.List.DropRight
import Navar.H3Sessions
import Navar.RequestBuilding

/-! # What a request is when it reaches `hyper`

The builder, the client, the base service and the session hand a request on, one to the next.
`hyper`'s HTTP/1 sender writes the URI as it is displayed and adds no header. -/
namespace HyperRequests

open ByteBuffers (Bytes)
open LossyText
open HttpMessages
open H3Sessions (normalizeRequest convertBody)
open RequestBuilding

variable {B χ ξ κ β ε ε' : Type}

inductive HyperSender where
  | h1
  | h2
  deriving DecidableEq, Repr

/-- The request that `hyper`'s sender of the protocol is given. -/
inductive Handed (χ β ε : Type) where
  | http1 (request : Request χ (Body (NormalizedData β) ε))
  | http2 (request : Request χ (Body (NormalizedData β) ε))

/-- `send_request` of the session; `ready` is what waiting for the sender gives. -/
def HyperSender.sendRequest (into : ε' → ε) (ready : Except ε Unit) (sender : HyperSender)
    (request : Request χ (Body β ε')) : Except ε (Handed χ β ε) := do
  let req := { parts := request.parts, body := convertBody into request.body }
  match sender with
  | .h1 => do
    let _ ← ready
    .ok (.http1 req)
  | .h2 => do
    let _ ← ready
    .ok (.http2 req)

/-- `BaseService::handle`, given the session that the pool or a handshake gives for the key. -/
def handle (anyhow : Str → ε) (session : Str → Uri → Except ε HyperSender)
    (ready : Except ε Unit) (req : Request χ (Body β ε)) : Except ε (Handed χ β ε) := do
  let authority ← match req.parts.uri.authority with
    | some authority => .ok authority
    | none => .error (anyhow "URI missing authority".toList)
  let session ← session authority req.parts.uri
  session.sendRequest id ready req

/-- `Client::send` of a client whose pipeline is the base service. -/
def send (anyhow : Str → ε) (into : ε' → ε) (session : Str → Uri → Except ε HyperSender)
    (ready : Except ε Unit) (req : Request χ (Body β ε')) :
    Except ε (Handed χ (NormalizedData β) ε) :=
  handle anyhow session ready (normalizeRequest into req)

/-- The path of a URI as it is displayed, with its query. -/
def displayedPath (uri : Uri) : Str :=
  match uri.pathAndQuery with
  | [] => if uri.scheme.isSome then ['/'] else []
  | '?' :: query => '/' :: '?' :: query
  | path => path

/-- `Display` of `Uri`. -/
def display (uri : Uri) : Str :=
  (match uri.scheme with
    | some scheme => scheme ++ [':', '/', '/']
    | none => []) ++ uri.authority.getD [] ++ displayedPath uri

/-- What the `http` crate ensures of every `Uri`. -/
structure Accepted (uri : Uri) : Prop where
  scheme : ∀ scheme, uri.scheme = some scheme → scheme ≠ [] ∧ '/' ∉ scheme
  authority : ∀ authority, uri.authority = some authority → authority ≠ [] ∧ '/' ∉ authority
  authorityForm : uri.scheme = none → uri.authority ≠ none → uri.pathAndQuery = []

def connectMethod : Str := "CONNECT".toList

def hostName : Str := "host".toList

def hosts (headers : HeaderMap) : List Bytes :=
  (headers.filter fun h => h.1 = hostName).map Prod.snd

/-- The authority behind its last `@`. -/
def withoutUserinfo (authority : Str) : Str := authority.rtakeWhile (· ≠ '@')

/-- The request has one `Host` header, the user's or one for the authority of the URI, and its
target is in the form that HTTP/1.1 asks for, without the userinfo. -/
structure WellFormed (method authority : Str) (user : HeaderMap) (parts : RequestParts χ) :
    Prop where
  host : ∃ value, hosts parts.headers = [value] ∧
    (hosts user = [] → value = utf8 (withoutUserinfo authority))
  authorityForm : method = connectMethod → display parts.uri = withoutUserinfo authority
  originForm : method ≠ connectMethod → ∃ path, display parts.uri = '/' :: path

section targets

variable {uri : Uri} {authority : Str}

theorem withoutUserinfo_eq_iff : withoutUserinfo authority = authority ↔ '@' ∉ authority := by
  rw [withoutUserinfo, List.rtakeWhile_eq_self_iff]
  constructor
  · intro h hat
    simpa using h '@' hat
  · intro h c hc
    have hne : c ≠ '@' := fun heq => h (heq ▸ hc)
    simpa using hne

theorem display_of_scheme {scheme : Str} (hs : uri.scheme = some scheme)
    (ha : uri.authority = some authority) :
    display uri = scheme ++ ':' :: '/' :: '/' :: (authority ++ displayedPath uri) := by
  simp [display, hs, ha]

theorem display_of_authority (huri : Accepted uri) (hs : uri.scheme = none)
    (ha : uri.authority = some authority) : display uri = authority := by
  have hpath := huri.authorityForm hs (by simp [ha])
  simp [display, hs, ha, displayedPath, hpath]

/-- A URI with an authority is displayed in authority form when it has nothing else. -/
theorem display_authorityForm_iff (huri : Accepted uri) (ha : uri.authority = some authority) :
    display uri = withoutUserinfo authority ↔ uri.scheme = none ∧ '@' ∉ authority := by
  cases hs : uri.scheme with
  | none =>
    rw [display_of_authority huri hs ha, eq_comm, withoutUserinfo_eq_iff]
    simp
  | some scheme =>
    have hslash : '/' ∈ display uri := by
      rw [display_of_scheme hs ha]
      simp
    constructor
    · intro h
      have hmem : '/' ∈ authority :=
        (List.rtakeWhile_suffix _ _).subset (h ▸ hslash : '/' ∈ withoutUserinfo authority)
      exact absurd hmem (huri.authority authority ha).2
    · rintro ⟨h, _⟩
      cases h

theorem display_not_originForm (huri : Accepted uri) (ha : uri.authority = some authority) :
    ¬ ∃ path, display uri = '/' :: path := by
  rintro ⟨path, h⟩
  have hfront : ∀ (front rest : Str), front ≠ [] → '/' ∉ front → front ++ rest ≠ '/' :: path := by
    intro front rest hne hslash heq
    cases front with
    | nil => exact hne rfl
    | cons c front =>
      obtain ⟨rfl, -⟩ := List.cons.inj heq
      exact hslash List.mem_cons_self
  cases hs : uri.scheme with
  | none =>
    obtain ⟨hne, hslash⟩ := huri.authority authority ha
    rw [display_of_authority huri hs ha, ← List.append_nil authority] at h
    exact hfront authority [] hne hslash h
  | some scheme =>
    obtain ⟨hne, hslash⟩ := huri.scheme scheme hs
    rw [display_of_scheme hs ha] at h
    exact hfront scheme _ hne hslash h

end targets

section handing

variable {anyhow : Str → ε} {into : ε' → ε} {session : Str → Uri → Except ε HyperSender}
  {ready : Except ε Unit}

/-- Neither the client nor the service nor the session changes the head of a request. -/
theorem send_parts {request : Request χ (Body β ε')}
    {handed : Request χ (Body (NormalizedData (NormalizedData β)) ε)}
    (h : send anyhow into session ready request = .ok (.http1 handed)) :
    handed.parts = request.parts := by
  unfold send handle at h
  cases ha : (normalizeRequest into request).parts.uri.authority with
  | none =>
    rw [ha] at h
    cases h
  | some authority =>
    rw [ha] at h
    cases hs : session authority (normalizeRequest into request).parts.uri with
    | error e =>
      simp only [hs, bind, Except.bind] at h
      cases h
    | ok sender =>
      simp only [hs, bind, Except.bind, HyperSender.sendRequest] at h
      cases sender with
      | h1 =>
        cases ready with
        | error e => cases h
        | ok u =>
          cases h
          rfl
      | h2 =>
        cases ready with
        | error e => cases h
        | ok u => cases h

end handing

/-- The builder after the calls of the user, and after the default that `text`, `bytes`, `json`
and `ndjson` add. -/
inductive Built [HttpBuilder B χ ξ] (client : κ) (method : Str) (uri : Uri)
    (calls : List (BuilderCall χ ξ)) : BoundRequestBuilder B κ → Prop where
  | plain : Built client method uri calls
      (calls.foldl BoundRequestBuilder.call (BoundRequestBuilder.new client method (.ok uri)))
  | typed (value : Bytes) : Built client method uri calls
      ((calls.foldl BoundRequestBuilder.call
        (BoundRequestBuilder.new client method (.ok uri))).ensureContentType value)

theorem Built.parts [HttpBuilder B χ ξ] {client : κ} {method : Str} {uri : Uri}
    {calls : List (BuilderCall χ ξ)} {b : BoundRequestBuilder B κ}
    (hb : Built client method uri calls b) {parts : RequestParts χ}
    (h : HttpBuilder.head b.inner = .ok parts) : parts.method = method ∧ parts.uri = uri ∧
      hosts parts.headers = hosts (addedHeaders calls) := by
  have hnew : ∀ {head : RequestParts χ}, HttpBuilder.head
      (BoundRequestBuilder.new (B := B) client method (.ok uri)).inner = .ok head →
      head = { method := method, uri := uri, headers := [], extensions := [] } := by
    intro head hhead
    rw [BoundRequestBuilder.new, HttpBuilder.head_new] at hhead
    exact (Except.ok.inj hhead).symm
  cases hb with
  | plain =>
    obtain ⟨head, hhead, hmethod, huri, hheaders⟩ := BoundRequestBuilder.calls_parts h
    obtain rfl := hnew hhead
    exact ⟨hmethod, huri, congrArg hosts hheaders⟩
  | typed value =>
    obtain ⟨next, hnext, hmethod, huri, added, hheaders, hadded⟩ :=
      BoundRequestBuilder.ensureContentType_parts h
    obtain ⟨head, hhead, hmethod', huri', hheaders'⟩ := BoundRequestBuilder.calls_parts hnext
    obtain rfl := hnew hhead
    refine ⟨hmethod.trans hmethod', huri.trans huri', ?_⟩
    have hother : added.filter (fun h => h.1 = hostName) = [] := by
      apply List.filter_eq_nil_iff.mpr
      intro a ha
      rw [hadded a ha]
      decide
    rw [hheaders, hheaders', hosts, List.filter_append, hother, List.append_nil]
    rfl

/-- A request on HTTP/1.1 is well-formed exactly when its method is CONNECT, its URI is nothing
but an authority without userinfo, and the user has given one `Host` header. -/
theorem http1_request_well_formed_iff [HttpBuilder B χ ξ] {anyhow : Str → ε} {into : ε' → ε}
    {intoBuild : ξ → ε} {session : Str → Uri → Except ε HyperSender} {ready : Except ε Unit}
    {client : κ} {method authority : Str} {uri : Uri} (huri : Accepted uri)
    (ha : uri.authority = some authority) {calls : List (BuilderCall χ ξ)}
    {b : BoundRequestBuilder B κ} (hb : Built client method uri calls b) {body : Body β ε'}
    {req : BoundRequest χ κ (Body β ε')} (hreq : b.body intoBuild body = .ok req)
    {handed : Request χ (Body (NormalizedData (NormalizedData β)) ε)}
    (hsend : send anyhow into session ready req.request = .ok (.http1 handed)) :
    WellFormed method authority (addedHeaders calls) handed.parts ↔
      method = connectMethod ∧ uri.scheme = none ∧ '@' ∉ authority ∧
        (hosts (addedHeaders calls)).length = 1 := by
  obtain ⟨_, huri', hhosts⟩ := hb.parts (BoundRequestBuilder.body_parts hreq)
  rw [← send_parts hsend] at huri' hhosts
  constructor
  · intro h
    have hmethod : method = connectMethod := by
      by_contra hne
      exact display_not_originForm huri ha (huri' ▸ h.originForm hne)
    obtain ⟨value, hvalue, -⟩ := h.host
    have htarget := h.authorityForm hmethod
    rw [huri', display_authorityForm_iff huri ha] at htarget
    refine ⟨hmethod, htarget.1, htarget.2, ?_⟩
    rw [← hhosts, hvalue]
    rfl
  · rintro ⟨hmethod, hscheme, hat, hone⟩
    constructor
    · obtain ⟨value, hvalue⟩ := List.length_eq_one_iff.mp hone
      refine ⟨value, hhosts.trans hvalue, ?_⟩
      intro hnone
      rw [hvalue] at hnone
      cases hnone
    · intro _
      rw [huri']
      exact (display_authorityForm_iff huri ha).mpr ⟨hscheme, hat⟩
    · intro hne
      exact absurd hmethod hne

/-- A session of HTTP/1.1 that is ready. -/
def sendHttp1 (request : Request Unit (Body Bytes Unit)) :
    Except Unit (Handed Unit (NormalizedData Bytes) Unit) :=
  send (fun _ => ()) id (fun _ _ => .ok .h1) (.ok ()) request

def tunnel : Request Unit (Body Bytes Unit) where
  parts := ⟨connectMethod, ⟨none, some "a:80".toList, []⟩, [(hostName, utf8 "a:80".toList)], []⟩
  body := []

theorem http1_request_well_formed_iff_tunnel : ∃ handed, sendHttp1 tunnel = .ok (.http1 handed) ∧
    WellFormed connectMethod "a:80".toList [(hostName, utf8 "a:80".toList)] handed.parts := by
  let calls : List (BuilderCall Unit HttpError) :=
    [.header (.ok hostName) (.ok (utf8 "a:80".toList))]
  have huri : Accepted ⟨none, some "a:80".toList, []⟩ := by
    constructor <;> simp
  have hb : Built (B := Builder Unit) () connectMethod ⟨none, some "a:80".toList, []⟩ calls _ :=
    .plain
  have hreq : (calls.foldl BoundRequestBuilder.call (.new (B := Builder Unit) () connectMethod
      (.ok ⟨none, some "a:80".toList, []⟩))).body (fun _ => ()) [] = .ok ⟨tunnel, ()⟩ := rfl
  obtain ⟨handed, hsend⟩ : ∃ handed, sendHttp1 tunnel = .ok (.http1 handed) := ⟨_, rfl⟩
  exact ⟨handed, hsend, (http1_request_well_formed_iff huri rfl hb hreq hsend).mpr
    ⟨rfl, rfl, by decide, rfl⟩⟩

def simpleFetch : Request Unit (Body Bytes Unit) where
  parts := ⟨"GET".toList, ⟨some "http".toList, some ['a'], ['/']⟩, [], []⟩
  body := []

/-- `GET http://a/` has no `Host` header and the whole URI as its target. -/
theorem simple_fetch_not_well_formed :
    (BoundRequestBuilder.new (B := Builder Unit) () "GET".toList
        (.ok ⟨some "http".toList, some ['a'], ['/']⟩)).body id [] = .ok ⟨simpleFetch, ()⟩ ∧
      ∃ handed, sendHttp1 simpleFetch = .ok (.http1 handed) ∧ hosts handed.parts.headers = [] ∧
        display handed.parts.uri = "http://a/".toList ∧
        ¬ WellFormed "GET".toList ['a'] [] handed.parts := by
  refine ⟨rfl, _, rfl, rfl, rfl, ?_⟩
  intro h
  obtain ⟨value, hvalue, -⟩ := h.host
  cases hvalue

end HyperRequests
