import Mathlib.Data.List.Dedup
import Navar.NdjsonStreams

/-! # Building requests

The builder of the `http` crate is a parameter: it collects the parts of a request and keeps its
first error. The conversions into header names, header values and URIs are given by their results,
and `serde_json::to_vec` is arbitrary. -/
namespace RequestBuilding

open ByteBuffers
open LineSplitting
open PollStreams
open LossyText
open HttpMessages
open LineScanning
open NdjsonStreams

section builder

variable {χ ξ : Type}

/-- `HeaderMap::try_append`: a header more, unless the map has no room for it. -/
def tryAppend (refused : HeaderMap → Str → Option ξ) (head : RequestParts χ) (name : Str)
    (value : Bytes) : Except ξ (RequestParts χ) :=
  match refused head.headers name with
  | some e => .error e
  | none => .ok { head with headers := head.headers ++ [(name, value)] }

/-- `http::request::Builder`: its parts or its first error, and the methods that are called. -/
class HttpBuilder (B : Type) (χ ξ : outParam Type) where
  head : B → Except ξ (RequestParts χ)
  refused : HeaderMap → Str → Option ξ
  new : Str → Except ξ Uri → B
  header : B → Except ξ Str → Except ξ Bytes → B
  extension : B → χ → B
  headersRef : B → Option HeaderMap
  body : {β : Type} → B → β → Except ξ (Request χ β)
  head_new : ∀ method uri, head (new method uri) = do
    let uri ← uri
    .ok { method := method, uri := uri, headers := [], extensions := [] }
  head_header : ∀ b key value, head (header b key value) = do
    let head ← head b
    let name ← key
    let value ← value
    tryAppend refused head name value
  head_extension : ∀ b x, head (extension b x) = do
    let head ← head b
    .ok { head with extensions := head.extensions ++ [x] }
  headersRef_eq : ∀ b, headersRef b = (head b).toOption.map fun head => head.headers
  body_eq : ∀ {β : Type} b (x : β), body b x = do
    let head ← head b
    .ok { parts := head, body := x }

inductive HttpError where
  | invalid
  | maxSizeReached
  deriving DecidableEq, Repr

/-- The number of names that a header map has room for. -/
def maxNames : ℕ := 24576

/-- A builder that is nothing but its result so far. -/
structure Builder (χ : Type) where
  inner : Except HttpError (RequestParts χ)

def mapFull (headers : HeaderMap) (_name : Str) : Option HttpError :=
  if maxNames ≤ (headers.map Prod.fst).dedup.length then some .maxSizeReached else none

instance : HttpBuilder (Builder χ) χ HttpError where
  head b := b.inner
  refused := mapFull
  new method uri := ⟨do
    let uri ← uri
    .ok { method := method, uri := uri, headers := [], extensions := [] }⟩
  header b key value := ⟨do
    let head ← b.inner
    let name ← key
    let value ← value
    tryAppend mapFull head name value⟩
  extension b x := ⟨do
    let head ← b.inner
    .ok { head with extensions := head.extensions ++ [x] }⟩
  headersRef b := b.inner.toOption.map fun head => head.headers
  body b x := do
    let head ← b.inner
    .ok { parts := head, body := x }
  head_new _ _ := rfl
  head_header _ _ _ := rfl
  head_extension _ _ := rfl
  headersRef_eq _ := rfl
  body_eq _ _ := rfl

end builder

inductive NeverBuf

instance : Buf NeverBuf where
  remaining b := nomatch b
  chunk b := nomatch b
  advance b _ := b
  bytes b := nomatch b
  remaining_eq b := nomatch b
  chunk_prefix b := nomatch b
  chunk_ne_nil b := nomatch b
  bytes_advance b := nomatch b

/-- `Full::new`: one frame, or none when there is nothing to send. -/
def full (bytes : Bytes) : Body Bytes Empty :=
  if Buf.hasRemaining bytes then [.ready (.ok (.data bytes))] else []

def contentType : Str := "content-type".toList

structure BoundRequestBuilder (B κ : Type) where
  inner : B
  client : κ

structure BoundRequest (χ κ β : Type) where
  request : Request χ β
  client : κ

/-- The calls of the builder that leave a builder. -/
inductive BuilderCall (χ ξ : Type) where
  | header (key : Except ξ Str) (value : Except ξ Bytes)
  | extension (x : χ)

/-- The headers that the calls add when all of them are valid. -/
def addedHeaders {χ ξ : Type} : List (BuilderCall χ ξ) → HeaderMap
  | [] => []
  | .header (.ok name) (.ok value) :: calls => (name, value) :: addedHeaders calls
  | _ :: calls => addedHeaders calls

namespace BoundRequestBuilder

variable {B χ ξ κ β ε τ : Type} [HttpBuilder B χ ξ]

def new (client : κ) (method : Str) (uri : Except ξ Uri) : BoundRequestBuilder B κ :=
  { inner := HttpBuilder.new method uri, client := client }

def header (b : BoundRequestBuilder B κ) (key : Except ξ Str) (value : Except ξ Bytes) :
    BoundRequestBuilder B κ :=
  { b with inner := HttpBuilder.header b.inner key value }

def extension (b : BoundRequestBuilder B κ) (x : χ) : BoundRequestBuilder B κ :=
  { b with inner := HttpBuilder.extension b.inner x }

def body (into : ξ → ε) (b : BoundRequestBuilder B κ) (body : β) :
    Except ε (BoundRequest χ κ β) := do
  let request ← (HttpBuilder.body b.inner body).mapError into
  .ok { request := request, client := b.client }

def build (into : ξ → ε) (b : BoundRequestBuilder B κ) :
    Except ε (BoundRequest χ κ (Body NeverBuf Empty)) :=
  b.body into []

def ensureContentType (b : BoundRequestBuilder B κ) (value : Bytes) :
    BoundRequestBuilder B κ :=
  if (HttpBuilder.headersRef b.inner).all fun headers => (headers.lookup contentType).isNone then
    { b with inner := HttpBuilder.header b.inner (.ok contentType) (.ok value) }
  else b

def text (into : ξ → ε) (b : BoundRequestBuilder B κ) (text : Str) :
    Except ε (BoundRequest χ κ (Body Bytes Empty)) :=
  (b.ensureContentType (utf8 "text/plain; charset=utf-8".toList)).body into (full (utf8 text))

def bytes (into : ξ → ε) (b : BoundRequestBuilder B κ) (bytes : Bytes) :
    Except ε (BoundRequest χ κ (Body Bytes Empty)) :=
  (b.ensureContentType (utf8 "application/octet-stream".toList)).body into (full bytes)

def json (into : ξ → ε) (toVec : τ → Except ε Bytes) (b : BoundRequestBuilder B κ) (data : τ) :
    Except ε (BoundRequest χ κ (Body Bytes Empty)) := do
  let body ← toVec data
  (b.ensureContentType (utf8 "application/json".toList)).body into (full body)

/-- One item of the stream as a frame: its serialization and a line feed. -/
def ndjsonFrame (toVec : τ → Except ε Bytes) : Poll τ → Poll (Except ε (Frame Bytes))
  | .pending => .pending
  | .ready item => .ready do
    let buffer ← toVec item
    .ok (.data (buffer ++ [lf]))

def ndjson (into : ξ → ε) (toVec : τ → Except ε Bytes) (b : BoundRequestBuilder B κ)
    (data : List (Poll τ)) : Except ε (BoundRequest χ κ (Body Bytes ε)) :=
  (b.ensureContentType (utf8 "application/x-ndjson".toList)).body into
    (data.map (ndjsonFrame toVec))

/-- A request has the parts of its builder and the body that it is given. -/
theorem body_request {into : ξ → ε} {b : BoundRequestBuilder B κ} {x : β}
    {req : BoundRequest χ κ β} (h : b.body into x = .ok req) :
    HttpBuilder.head b.inner = .ok req.request.parts ∧ req.request.body = x := by
  rw [body, HttpBuilder.body_eq] at h
  cases hb : HttpBuilder.head b.inner with
  | error e =>
    rw [hb] at h
    cases h
  | ok head =>
    rw [hb] at h
    cases h
    exact ⟨rfl, rfl⟩

theorem body_carries {into : ξ → ε} {b : BoundRequestBuilder B κ} {x : β}
    {req : BoundRequest χ κ β} (h : b.body into x = .ok req) : req.request.body = x :=
  (body_request h).2

theorem body_parts {into : ξ → ε} {b : BoundRequestBuilder B κ} {x : β}
    {req : BoundRequest χ κ β} (h : b.body into x = .ok req) :
    HttpBuilder.head b.inner = .ok req.request.parts := (body_request h).1

theorem ndjson_carries {into : ξ → ε} {toVec : τ → Except ε Bytes}
    {b : BoundRequestBuilder B κ} {data : List (Poll τ)} {req : BoundRequest χ κ (Body Bytes ε)}
    (h : b.ndjson into toVec data = .ok req) :
    req.request.body = data.map (ndjsonFrame toVec) := body_carries h

def call (b : BoundRequestBuilder B κ) : BuilderCall χ ξ → BoundRequestBuilder B κ
  | .header key value => b.header key value
  | .extension x => b.extension x

theorem tryAppend_ok {refused : HeaderMap → Str → Option ξ} {head parts : RequestParts χ}
    {name : Str} {value : Bytes} : tryAppend refused head name value = .ok parts ↔
      refused head.headers name = none ∧
        parts = { head with headers := head.headers ++ [(name, value)] } := by
  unfold tryAppend
  cases refused head.headers name with
  | none => simp [eq_comm]
  | some e => simp

/-- A header is added where the name and the value are valid and the map has room. -/
theorem header_ok {b : BoundRequestBuilder B κ} {key : Except ξ Str} {value : Except ξ Bytes}
    {parts : RequestParts χ} : HttpBuilder.head (b.header key value).inner = .ok parts ↔
      ∃ head name v, HttpBuilder.head b.inner = .ok head ∧ key = .ok name ∧ value = .ok v ∧
        HttpBuilder.refused (B := B) head.headers name = none ∧
        parts = { head with headers := head.headers ++ [(name, v)] } := by
  rw [header, HttpBuilder.head_header]
  cases hb : HttpBuilder.head b.inner with
  | error e => exact iff_of_false nofun (by simp)
  | ok head =>
    rcases key with e | name
    · exact iff_of_false nofun (by simp)
    · rcases value with e | v
      · exact iff_of_false nofun (by simp)
      · apply tryAppend_ok.trans
        constructor
        · rintro ⟨hroom, hparts⟩
          exact ⟨head, name, v, rfl, rfl, rfl, hroom, hparts⟩
        · rintro ⟨head', name', v', hhead, hname, hv, hroom, hparts⟩
          cases hhead
          cases hname
          cases hv
          exact ⟨hroom, hparts⟩

theorem extension_ok {b : BoundRequestBuilder B κ} {x : χ} {parts : RequestParts χ} :
    HttpBuilder.head (b.extension x).inner = .ok parts ↔ ∃ head,
      HttpBuilder.head b.inner = .ok head ∧
        parts = { head with extensions := head.extensions ++ [x] } := by
  rw [extension, HttpBuilder.head_extension]
  cases hb : HttpBuilder.head b.inner with
  | error e => exact iff_of_false nofun (by simp)
  | ok head =>
    constructor
    · intro h
      cases h
      exact ⟨head, rfl, rfl⟩
    · rintro ⟨head', hhead, hparts⟩
      cases hhead
      exact congrArg Except.ok hparts.symm

theorem call_parts {b : BoundRequestBuilder B κ} {c : BuilderCall χ ξ} {parts : RequestParts χ}
    (h : HttpBuilder.head (b.call c).inner = .ok parts) :
    ∃ head, HttpBuilder.head b.inner = .ok head ∧ parts.method = head.method ∧
      parts.uri = head.uri ∧ parts.headers = head.headers ++ addedHeaders [c] := by
  cases c with
  | header key value =>
    obtain ⟨head, name, v, hhead, rfl, rfl, -, rfl⟩ := header_ok.mp h
    exact ⟨head, hhead, rfl, rfl, rfl⟩
  | extension x =>
    obtain ⟨head, hhead, rfl⟩ := extension_ok.mp h
    exact ⟨head, hhead, rfl, rfl, (List.append_nil _).symm⟩

omit [HttpBuilder B χ ξ] in
theorem addedHeaders_cons (c : BuilderCall χ ξ) (calls : List (BuilderCall χ ξ)) :
    addedHeaders (c :: calls) = addedHeaders [c] ++ addedHeaders calls := by
  rcases c with ⟨_ | _, _ | _⟩ | _ <;> rfl

/-- A builder that has not failed has the method and the URI of the first call and the headers of
all calls. -/
theorem calls_parts {calls : List (BuilderCall χ ξ)} {b : BoundRequestBuilder B κ}
    {parts : RequestParts χ} (h : HttpBuilder.head (calls.foldl call b).inner = .ok parts) :
    ∃ head, HttpBuilder.head b.inner = .ok head ∧ parts.method = head.method ∧
      parts.uri = head.uri ∧ parts.headers = head.headers ++ addedHeaders calls := by
  induction calls generalizing b with
  | nil => exact ⟨parts, h, rfl, rfl, (List.append_nil _).symm⟩
  | cons c calls ih =>
    obtain ⟨next, hnext, hmethod, huri, hheaders⟩ := ih h
    obtain ⟨head, hhead, hmethod', huri', hheaders'⟩ := call_parts hnext
    refine ⟨head, hhead, hmethod.trans hmethod', huri.trans huri', ?_⟩
    rw [hheaders, hheaders', List.append_assoc, ← addedHeaders_cons]

theorem ensureContentType_parts {b : BoundRequestBuilder B κ} {value : Bytes}
    {parts : RequestParts χ}
    (h : HttpBuilder.head (b.ensureContentType value).inner = .ok parts) :
    ∃ head, HttpBuilder.head b.inner = .ok head ∧ parts.method = head.method ∧
      parts.uri = head.uri ∧
      ∃ added, parts.headers = head.headers ++ added ∧ ∀ a ∈ added, a.1 = contentType := by
  unfold ensureContentType at h
  split at h
  · obtain ⟨head, hhead, hmethod, huri, hheaders⟩ :=
      call_parts (c := .header (.ok contentType) (.ok value)) h
    exact ⟨head, hhead, hmethod, huri, _, hheaders, by simp [addedHeaders]⟩
  · exact ⟨parts, h, rfl, rfl, [], (List.append_nil _).symm, by simp⟩

end BoundRequestBuilder

section ndjson

variable {ε δ τ : Type}

def produced (data : List (Poll τ)) : List τ :=
  data.flatMap fun
    | .pending => []
    | .ready item => [item]

theorem mem_produced {data : List (Poll τ)} {item : τ} (h : item ∈ produced data) :
    .ready item ∈ data := by
  obtain ⟨answer, hmem, hitem⟩ := List.mem_flatMap.mp h
  cases answer with
  | pending => cases hitem
  | ready i => rwa [List.mem_singleton.mp hitem]

theorem ndjsonFrame_ok {toVec : τ → Except ε Bytes} {item : τ} {bytes : Bytes}
    (h : toVec item = .ok bytes) :
    BoundRequestBuilder.ndjsonFrame toVec (.ready item) =
      .ready (.ok (.data (bytes ++ [lf]))) := by
  simp only [BoundRequestBuilder.ndjsonFrame, h]
  rfl

/-- The bytes of an encoded stream are the serialized items, one on each line. -/
theorem encoded_bytes [BodyExt] {toVec : τ → Except ε Bytes} {data : List (Poll τ)}
    {encode : τ → Bytes} (h : ∀ item, .ready item ∈ data → toVec item = .ok (encode item)) :
    collectBytes (data.map (BoundRequestBuilder.ndjsonFrame toVec)) =
      .ok (unlines lf ((produced data).map encode)) := by
  rw [collectBytes_ok_iff]
  induction data with
  | nil => exact ⟨faultless_nil, rfl⟩
  | cons answer data ih =>
    obtain ⟨hrest, hbytes⟩ := ih fun item hitem => h item (List.mem_cons_of_mem _ hitem)
    cases answer with
    | pending =>
      refine ⟨faultless_cons.mpr ⟨?_, hrest⟩, hbytes⟩
      simp [BoundRequestBuilder.ndjsonFrame]
    | ready item =>
      rw [List.map_cons, ndjsonFrame_ok (h item List.mem_cons_self)]
      refine ⟨faultless_cons.mpr ⟨by simp, hrest⟩, ?_⟩
      rw [Body.dataBytes, hbytes]
      simp [produced, Buf.bytes]

/-- Serialized without line feeds and on a line each, the items come back under every cut into
frames, the stream then ends, and nothing is left in the buffer. -/
theorem ndjson_decode_undoes_encode [BodyExt] {B χ ξ κ : Type} [HttpBuilder B χ ξ]
    (into : ξ → ε) (toVec : τ → Except ε Bytes) (fromSlice : Bytes → Except δ τ)
    (b : BoundRequestBuilder B κ) (data : List (Poll τ))
    (req : BoundRequest χ κ (Body Bytes ε)) (hbuilt : b.ndjson into toVec data = .ok req)
    (hserde : ∀ item, .ready item ∈ data →
      ∃ bytes, toVec item = .ok bytes ∧ lf ∉ bytes ∧ fromSlice bytes = .ok item) :
    ∃ bytes, collectBytes req.request.body = .ok bytes ∧
      ∀ (γ : Type) [Buf γ] (framed : Body γ δ), Faultless framed →
        Body.dataBytes framed = bytes →
        (∀ n, ∃ items s,
          drive (NdjsonStream.pollNext fromSlice) (NdjsonStream.new framed) n = some (items, s) ∧
          items <+: (produced data).map .ok) ∧
        ∃ N, ∀ n, N ≤ n → ∃ s,
          drive (NdjsonStream.pollNext fromSlice) (NdjsonStream.new framed) n =
            some ((produced data).map .ok, s) ∧
          Ended (NdjsonStream.pollNext fromSlice) s ∧ s.buffer.items = [] := by
  have hencode : ∃ encode : τ → Bytes, ∀ item, .ready item ∈ data →
      toVec item = .ok (encode item) ∧ lf ∉ encode item ∧ fromSlice (encode item) = .ok item := by
    refine ⟨fun item => (toVec item).toOption.getD [], fun item hitem => ?_⟩
    obtain ⟨bytes, hto, hlf, hfrom⟩ := hserde item hitem
    simp only [hto]
    exact ⟨rfl, hlf, hfrom⟩
  obtain ⟨encode, hencode⟩ := hencode
  have hlf : ∀ l ∈ (produced data).map encode, lf ∉ l := by
    intro l hl
    obtain ⟨item, hitem, rfl⟩ := List.mem_map.mp hl
    exact (hencode item (mem_produced hitem)).2.1
  have hlines := lines_unlines hlf
  rw [BoundRequestBuilder.ndjson_carries hbuilt]
  refine ⟨_, encoded_bytes fun item hitem => (hencode item hitem).1, ?_⟩
  intro γ _ framed hfaultless hbytes
  have hitems : bodyItems fromSlice [] framed = (produced data).map .ok := by
    rw [bodyItems_faultless fromSlice hfaultless, hbytes, hlines.1, List.map_map]
    exact List.map_congr_left fun item hitem => (hencode item (mem_produced hitem)).2.2
  have hdrive := drive_new fromSlice framed
  rw [hitems, hbytes, hlines.2] at hdrive
  exact hdrive

def boolToVec (b : Bool) : Except Unit Bytes :=
  .ok (if b then [116, 114, 117, 101] else [102, 97, 108, 115, 101])

def boolFromSlice (bytes : Bytes) : Except Unit Bool :=
  if bytes = [116, 114, 117, 101] then .ok true
  else if bytes = [102, 97, 108, 115, 101] then .ok false
  else .error ()

def boolFrames : Body Bytes Unit :=
  [.ready (.ok (.data [116, 114])), .pending,
    .ready (.ok (.data [117, 101, 10, 102, 97, 108])), .ready (.ok (.trailers [])),
    .ready (.ok (.data [115, 101, 10]))]

theorem ndjson_decode_undoes_encode_bools :
    ∃ N, ∀ n, N ≤ n → ∃ s,
      drive (NdjsonStream.pollNext boolFromSlice) (NdjsonStream.new boolFrames) n =
        some ([.ok true, .ok false], s) ∧
      Ended (NdjsonStream.pollNext boolFromSlice) s ∧ s.buffer.items = [] := by
  obtain ⟨bytes, hbytes, h⟩ := ndjson_decode_undoes_encode (fun _ => ()) boolToVec boolFromSlice
    (BoundRequestBuilder.new (B := Builder Unit) () ['P'] (.ok ⟨none, some ['h'], ['/']⟩))
    [.ready true, .pending, .ready false] _ rfl
    fun item _ => by cases item <;> exact ⟨_, rfl, by decide, rfl⟩
  have hframes : Body.dataBytes boolFrames = bytes := Except.ok.inj hbytes
  exact (h Bytes boolFrames (by intro e; simp [boolFrames]) hframes).2

end ndjson

end RequestBuilding
