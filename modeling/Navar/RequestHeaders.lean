import Navar.RequestBuilding

/-! # The headers of a built request

The user gives headers by name, in any letter case, and by value. The `http` crate lowers the names
that it accepts; which names and values it accepts, and when its header map is full, is left
open. -/
namespace RequestHeaders

open ByteBuffers
open PollStreams
open LossyText
open HttpMessages
open RequestBuilding

variable {B χ ξ κ β ε τ V : Type}

def lowered (name : Str) : Str := name.map Char.toLower

/-- What `http` makes of the names and values that it is given. -/
structure Conversions (V ξ : Type) where
  invalidName : Str → Option ξ
  headerValue : V → Except ξ Bytes

/-- `HeaderName::try_from`. -/
def Conversions.headerName (conv : Conversions V ξ) (name : Str) : Except ξ Str :=
  match conv.invalidName name with
  | some e => .error e
  | none => .ok (lowered name)

inductive UserCall (V χ : Type) where
  | header (name : Str) (value : V)
  | extension (x : χ)

namespace UserCall

def builderCall (conv : Conversions V ξ) : UserCall V χ → BuilderCall χ ξ
  | .header name value => .header (conv.headerName name) (conv.headerValue value)
  | .extension x => .extension x

/-- The values that the call adds to the header of the name. -/
def values (conv : Conversions V ξ) (name : Str) : UserCall V χ → List Bytes
  | .header given value =>
    if lowered given = lowered name then (conv.headerValue value).toOption.toList else []
  | .extension _ => []

end UserCall

/-- A call of the builder that the `http` crate accepts. -/
def Valid : BuilderCall χ ξ → Prop
  | .header (.ok _) (.ok _) => True
  | .header _ _ => False
  | .extension _ => True

/-- The call that ends the building. -/
inductive Finish (β τ : Type) where
  | body (body : β)
  | build
  | text (text : Str)
  | bytes (bytes : Bytes)
  | json (data : τ)
  | ndjson (data : List (Poll τ))

namespace Finish

/-- The head of the request that the call gives. -/
def head [HttpBuilder B χ ξ] (into : ξ → ε) (toVec : τ → Except ε Bytes)
    (b : BoundRequestBuilder B κ) :
    Finish β τ → Except ε (RequestParts χ)
  | .body x => (b.body into x).map fun req => req.request.parts
  | .build => (b.build into).map fun req => req.request.parts
  | .text s => (b.text into s).map fun req => req.request.parts
  | .bytes bs => (b.bytes into bs).map fun req => req.request.parts
  | .json data => (b.json into toVec data).map fun req => req.request.parts
  | .ndjson data => (b.ndjson into toVec data).map fun req => req.request.parts

/-- The content type of the call. -/
def mime : Finish β τ → Option Bytes
  | .body _ => none
  | .build => none
  | .text _ => some (utf8 "text/plain; charset=utf-8".toList)
  | .bytes _ => some (utf8 "application/octet-stream".toList)
  | .json _ => some (utf8 "application/json".toList)
  | .ndjson _ => some (utf8 "application/x-ndjson".toList)

end Finish

/-- `HeaderMap::get_all`, given the name as text. -/
def getAll (headers : HeaderMap) (name : Str) : List Bytes :=
  (headers.filter fun h => h.1 = lowered name).map Prod.snd

/-- The values that the user has added to the header of the name, in order. -/
def added (conv : Conversions V ξ) (calls : List (UserCall V χ)) (name : Str) : List Bytes :=
  calls.flatMap (UserCall.values conv name)

/-- What the last call adds to the header: its own content type if the user has given none. -/
def defaulted (mime : Option Bytes) (given : List Bytes) (name : Str) : List Bytes :=
  if lowered name = contentType ∧ given = [] then mime.toList else []

/-- The default of the call for a request with these headers. -/
def defaultHeader (mime : Option Bytes) (headers : HeaderMap) : HeaderMap :=
  if getAll headers contentType = [] then mime.toList.map (contentType, ·) else []

/-- The headers that are added, in order: those of the user, and the default. -/
def wanted (conv : Conversions V ξ) (calls : List (UserCall V χ)) (mime : Option Bytes) :
    HeaderMap :=
  addedHeaders (calls.map (UserCall.builderCall conv)) ++
    defaultHeader mime (addedHeaders (calls.map (UserCall.builderCall conv)))

/-- A header map with the first headers has room for the others, one after another. -/
def Fits (B : Type) [HttpBuilder B χ ξ] : HeaderMap → HeaderMap → Prop
  | _, [] => True
  | headers, h :: added =>
    HttpBuilder.refused (B := B) headers h.1 = none ∧ Fits B (headers ++ [h]) added

section calls

variable [HttpBuilder B χ ξ]

theorem fits_append (headers xs ys : HeaderMap) :
    Fits B headers (xs ++ ys) ↔ Fits B headers xs ∧ Fits B (headers ++ xs) ys := by
  induction xs generalizing headers with
  | nil => simp [Fits]
  | cons x xs ih =>
    have hrest : headers ++ x :: xs = headers ++ [x] ++ xs := List.append_cons headers x xs
    rw [List.cons_append, Fits, Fits, ih, hrest, and_assoc]

theorem fits_singleton (headers : HeaderMap) (name : Str) (value : Bytes) :
    Fits B headers [(name, value)] ↔ HttpBuilder.refused (B := B) headers name = none := by
  rw [Fits, Fits, and_true]

theorem call_ok_iff {b : BoundRequestBuilder B κ} {c : BuilderCall χ ξ} :
    (∃ parts, HttpBuilder.head (b.call c).inner = .ok parts) ↔
      ∃ head, HttpBuilder.head b.inner = .ok head ∧ Valid c ∧
        Fits B head.headers (addedHeaders [c]) := by
  constructor
  · rintro ⟨parts, h⟩
    cases c with
    | header key value =>
      obtain ⟨head, name, v, hhead, rfl, rfl, hroom, -⟩ := BoundRequestBuilder.header_ok.mp h
      exact ⟨head, hhead, trivial, (fits_singleton _ _ v).mpr hroom⟩
    | extension x =>
      obtain ⟨head, hhead, -⟩ := BoundRequestBuilder.extension_ok.mp h
      exact ⟨head, hhead, trivial, trivial⟩
  · rintro ⟨head, hhead, hvalid, hfits⟩
    rcases c with ⟨_ | name, _ | value⟩ | x
    · cases hvalid
    · cases hvalid
    · cases hvalid
    · have hroom := (fits_singleton _ _ value).mp hfits
      exact ⟨_, BoundRequestBuilder.header_ok.mpr ⟨head, name, value, hhead, rfl, rfl, hroom, rfl⟩⟩
    · exact ⟨_, BoundRequestBuilder.extension_ok.mpr ⟨head, hhead, rfl⟩⟩

/-- The first error stays: a builder is without one when no call was invalid and all the headers
found room. -/
theorem calls_ok_iff {calls : List (BuilderCall χ ξ)} {b : BoundRequestBuilder B κ} :
    (∃ parts, HttpBuilder.head (calls.foldl BoundRequestBuilder.call b).inner = .ok parts) ↔
      ∃ head, HttpBuilder.head b.inner = .ok head ∧ (∀ c ∈ calls, Valid c) ∧
        Fits B head.headers (addedHeaders calls) := by
  induction calls generalizing b with
  | nil => simp [addedHeaders, Fits]
  | cons c calls ih =>
    rw [List.foldl_cons, ih]
    simp only [List.forall_mem_cons]
    rw [BoundRequestBuilder.addedHeaders_cons]
    constructor
    · rintro ⟨next, hnext, hvalid, hfits⟩
      obtain ⟨head, hhead, hc, hroom⟩ := call_ok_iff.mp ⟨next, hnext⟩
      obtain ⟨head', hhead', -, -, hheaders⟩ := BoundRequestBuilder.call_parts hnext
      obtain rfl := Except.ok.inj (hhead.symm.trans hhead')
      rw [hheaders] at hfits
      exact ⟨head, hhead, ⟨hc, hvalid⟩, (fits_append _ _ _).mpr ⟨hroom, hfits⟩⟩
    · rintro ⟨head, hhead, ⟨hc, hvalid⟩, hfits⟩
      obtain ⟨hroom, hrest⟩ := (fits_append _ _ _).mp hfits
      obtain ⟨next, hnext⟩ := call_ok_iff.mpr ⟨head, hhead, hc, hroom⟩
      obtain ⟨head', hhead', -, -, hheaders⟩ := BoundRequestBuilder.call_parts hnext
      obtain rfl := Except.ok.inj (hhead.symm.trans hhead')
      exact ⟨next, hnext, hvalid, hheaders ▸ hrest⟩

omit [HttpBuilder B χ ξ] in
theorem getAll_append (xs ys : HeaderMap) (name : Str) :
    getAll (xs ++ ys) name = getAll xs name ++ getAll ys name := by
  simp [getAll]

omit [HttpBuilder B χ ξ] in
theorem lookup_contentType (headers : HeaderMap) :
    headers.lookup contentType = none ↔ getAll headers contentType = [] := by
  have hname : lowered contentType = contentType := by decide
  simp only [List.lookup_eq_none_iff, getAll, List.map_eq_nil_iff, List.filter_eq_nil_iff, hname,
    decide_eq_true_eq, bne_iff_ne, ne_comm]

/-- The default is added when the header is absent and the map has room. -/
theorem ensureContentType_ok (b : BoundRequestBuilder B κ) (value : Bytes)
    {parts : RequestParts χ} :
    HttpBuilder.head (b.ensureContentType value).inner = .ok parts ↔
      ∃ head, HttpBuilder.head b.inner = .ok head ∧
        Fits B head.headers (defaultHeader (some value) head.headers) ∧
        parts = { head with
          headers := head.headers ++ defaultHeader (some value) head.headers } := by
  have hadd : HttpBuilder.head (HttpBuilder.header b.inner (.ok contentType) (.ok value)) =
      HttpBuilder.head (b.header (.ok contentType) (.ok value)).inner := rfl
  rw [BoundRequestBuilder.ensureContentType, HttpBuilder.headersRef_eq]
  cases hb : HttpBuilder.head b.inner with
  | error e =>
    refine iff_of_false ?_ (by simp)
    intro h
    obtain ⟨head, _, _, hhead, _⟩ := BoundRequestBuilder.header_ok.mp (hadd ▸ h)
    rw [hb] at hhead
    cases hhead
  | ok head =>
    have hlookup := lookup_contentType head.headers
    simp only [Except.toOption, Option.map_some, Option.all_some, Option.isNone_iff_eq_none,
      hlookup]
    by_cases hnone : getAll head.headers contentType = []
    · rw [if_pos hnone, hadd, BoundRequestBuilder.header_ok]
      constructor
      · rintro ⟨head', name, v, hhead, hname, hv, hroom, rfl⟩
        obtain rfl := Except.ok.inj (hb.symm.trans hhead)
        cases hname
        cases hv
        refine ⟨head, rfl, ?_, ?_⟩
        · rw [defaultHeader, if_pos hnone]
          exact (fits_singleton _ _ value).mpr hroom
        · rw [defaultHeader, if_pos hnone]
          rfl
      · rintro ⟨head', hhead, hfits, rfl⟩
        obtain rfl := Except.ok.inj hhead
        rw [defaultHeader, if_pos hnone] at hfits ⊢
        exact ⟨head, contentType, value, hb, rfl, rfl, (fits_singleton _ _ value).mp hfits, rfl⟩
    · rw [if_neg hnone, hb]
      have hnothing : defaultHeader (some value) head.headers = [] := by
        rw [defaultHeader, if_neg hnone]
      constructor
      · intro h
        obtain rfl := Except.ok.inj h
        refine ⟨head, rfl, ?_, ?_⟩
        · rw [hnothing]
          trivial
        · rw [hnothing, List.append_nil]
      · rintro ⟨head', hhead, -, rfl⟩
        obtain rfl := Except.ok.inj hhead
        rw [hnothing, List.append_nil]

omit [HttpBuilder B χ ξ] in
theorem getAll_call {conv : Conversions V ξ} {c : UserCall V χ} (h : Valid (c.builderCall conv))
    (name : Str) : getAll (addedHeaders [c.builderCall conv]) name = c.values conv name := by
  cases c with
  | extension x => rfl
  | header given value =>
    cases hn : conv.invalidName given with
    | some e =>
      simp [UserCall.builderCall, Conversions.headerName, hn, Valid] at h
    | none =>
      cases hv : conv.headerValue value with
      | error e => simp [UserCall.builderCall, Conversions.headerName, hn, hv, Valid] at h
      | ok bytes =>
        simp only [UserCall.builderCall, Conversions.headerName, UserCall.values, hn, hv,
          addedHeaders, getAll, Except.toOption, Option.toList_some]
        by_cases hname : lowered given = lowered name
        · simp [hname]
        · simp [hname]

omit [HttpBuilder B χ ξ] in
theorem getAll_added {conv : Conversions V ξ} {calls : List (UserCall V χ)}
    (h : ∀ c ∈ calls, Valid (c.builderCall conv)) (name : Str) :
    getAll (addedHeaders (calls.map (UserCall.builderCall conv))) name = added conv calls name := by
  induction calls with
  | nil => rfl
  | cons c calls ih =>
    obtain ⟨hc, hcalls⟩ := List.forall_mem_cons.mp h
    rw [List.map_cons, BoundRequestBuilder.addedHeaders_cons, getAll_append, getAll_call hc,
      ih hcalls]
    rfl

end calls

section finish

variable [HttpBuilder B χ ξ]

/-- The builder that the last call makes the request of. -/
def typed (b : BoundRequestBuilder B κ) : Option Bytes → BoundRequestBuilder B κ
  | none => b
  | some value => b.ensureContentType value

theorem typed_ok_iff {b : BoundRequestBuilder B κ} {mime : Option Bytes}
    {parts : RequestParts χ} : HttpBuilder.head (typed b mime).inner = .ok parts ↔
      ∃ head, HttpBuilder.head b.inner = .ok head ∧
        Fits B head.headers (defaultHeader mime head.headers) ∧
        parts = { head with headers := head.headers ++ defaultHeader mime head.headers } := by
  cases mime with
  | none =>
    have hnothing : ∀ headers, defaultHeader none headers = [] := by
      simp [defaultHeader]
    simp only [typed, hnothing, List.append_nil, Fits, true_and]
    constructor
    · intro h
      exact ⟨parts, h, rfl⟩
    · rintro ⟨head, hhead, rfl⟩
      exact hhead
  | some value => exact ensureContentType_ok b value

theorem body_ok_iff {into : ξ → ε} {b : BoundRequestBuilder B κ} {x : β}
    {parts : RequestParts χ} :
    ((b.body into x).map fun req => req.request.parts) = .ok parts ↔
      HttpBuilder.head b.inner = .ok parts := by
  rw [BoundRequestBuilder.body, HttpBuilder.body_eq]
  cases HttpBuilder.head b.inner with
  | error e =>
    constructor
    · intro h
      cases h
    · intro h
      cases h
  | ok head =>
    constructor
    · intro h
      cases h
      rfl
    · intro h
      cases h
      rfl

theorem head_ok_iff {into : ξ → ε} {toVec : τ → Except ε Bytes} {b : BoundRequestBuilder B κ}
    {f : Finish β τ} {parts : RequestParts χ} : f.head into toVec b = .ok parts ↔
      (¬ ∃ data e, f = .json data ∧ toVec data = .error e) ∧
        HttpBuilder.head (typed b f.mime).inner = .ok parts := by
  cases f with
  | json data =>
    cases hdata : toVec data with
    | error e => simp [Finish.head, BoundRequestBuilder.json, hdata, bind, Except.bind, Except.map]
    | ok bytes =>
      have hnone : ¬ ∃ data' e, (Finish.json data : Finish β τ) = .json data' ∧
          toVec data' = .error e := by
        rintro ⟨data', e, hsame, herror⟩
        obtain rfl := Finish.json.inj hsame
        rw [hdata] at herror
        cases herror
      rw [Finish.head, BoundRequestBuilder.json, hdata]
      exact body_ok_iff.trans (and_iff_right hnone).symm
  | _ => exact body_ok_iff.trans (and_iff_right nofun).symm

end finish

theorem getAll_default (mime : Option Bytes) (headers : HeaderMap) (name : Str) :
    getAll (defaultHeader mime headers) name =
      defaulted mime (getAll headers contentType) name := by
  by_cases hgiven : getAll headers contentType = []
  · rw [defaultHeader, if_pos hgiven, defaulted]
    by_cases hname : lowered name = contentType
    · rw [if_pos ⟨hname, hgiven⟩]
      cases mime <;> simp [getAll, hname]
    · rw [if_neg fun h => hname h.1]
      simp [getAll, Ne.symm hname]
  · rw [defaultHeader, if_neg hgiven, defaulted, if_neg fun h => hgiven h.2]
    rfl

section request

variable [HttpBuilder B χ ξ]

/-- The builder after the calls of the user. -/
def built (B : Type) [HttpBuilder B χ ξ] (conv : Conversions V ξ) (client : κ) (method : Str)
    (uri : Except ξ Uri) (calls : List (UserCall V χ)) : BoundRequestBuilder B κ :=
  (calls.map (UserCall.builderCall conv)).foldl BoundRequestBuilder.call
    (BoundRequestBuilder.new client method uri)

theorem new_ok {client : κ} {method : Str} {uri : Except ξ Uri} {head : RequestParts χ} :
    HttpBuilder.head (BoundRequestBuilder.new (B := B) client method uri).inner = .ok head ↔
      ∃ u, uri = .ok u ∧
        head = { method := method, uri := u, headers := [], extensions := [] } := by
  rw [BoundRequestBuilder.new, HttpBuilder.head_new]
  cases uri with
  | error e => exact iff_of_false nofun (by simp)
  | ok u =>
    constructor
    · intro h
      cases h
      exact ⟨u, rfl, rfl⟩
    · rintro ⟨u', hu, rfl⟩
      cases hu
      rfl

theorem built_ok {conv : Conversions V ξ} {client : κ} {method : Str} {uri : Except ξ Uri}
    {calls : List (UserCall V χ)} {head : RequestParts χ}
    (h : HttpBuilder.head (built B conv client method uri calls).inner = .ok head) :
    head.method = method ∧ uri = .ok head.uri ∧
      head.headers = addedHeaders (calls.map (UserCall.builderCall conv)) ∧
      ∀ name, getAll head.headers name = added conv calls name := by
  obtain ⟨first, hfirst, hvalid, -⟩ := calls_ok_iff.mp ⟨head, h⟩
  obtain ⟨first', hfirst', hmethod, huri, hheaders⟩ := BoundRequestBuilder.calls_parts h
  obtain rfl := Except.ok.inj (hfirst.symm.trans hfirst')
  obtain ⟨u, rfl, rfl⟩ := new_ok.mp hfirst
  refine ⟨hmethod, congrArg Except.ok huri.symm, hheaders, ?_⟩
  intro name
  rw [hheaders, List.nil_append]
  exact getAll_added (List.forall_mem_map.mp hvalid) name

/-- The request fails only for an error of its own parts, or for want of room. -/
theorem request_ok_iff {into : ξ → ε} {toVec : τ → Except ε Bytes} {conv : Conversions V ξ}
    {client : κ} {method : Str} {uri : Except ξ Uri} {calls : List (UserCall V χ)}
    {f : Finish β τ} :
    (∃ parts, f.head into toVec (built B conv client method uri calls) = .ok parts) ↔
      (∃ u, uri = .ok u) ∧ (∀ c ∈ calls, Valid (c.builderCall conv)) ∧
        (¬ ∃ data e, f = .json data ∧ toVec data = .error e) ∧
        Fits B [] (wanted conv calls f.mime) := by
  rw [wanted, fits_append, List.nil_append]
  constructor
  · rintro ⟨parts, h⟩
    obtain ⟨hserialized, htyped⟩ := head_ok_iff.mp h
    obtain ⟨head, hhead, hdefault, -⟩ := typed_ok_iff.mp htyped
    obtain ⟨first, hfirst, hvalid, hfits⟩ := calls_ok_iff.mp ⟨head, hhead⟩
    obtain ⟨u, rfl, rfl⟩ := new_ok.mp hfirst
    rw [(built_ok hhead).2.2.1] at hdefault
    exact ⟨⟨u, rfl⟩, List.forall_mem_map.mp hvalid, hserialized, hfits, hdefault⟩
  · rintro ⟨⟨u, rfl⟩, hvalid, hserialized, hfits, hdefault⟩
    have hnew : HttpBuilder.head (BoundRequestBuilder.new (B := B) client method (.ok u)).inner =
        .ok _ := new_ok.mpr ⟨u, rfl, rfl⟩
    obtain ⟨head, hhead⟩ : ∃ head,
        HttpBuilder.head (built B conv client method (.ok u) calls).inner = .ok head :=
      calls_ok_iff.mpr ⟨_, hnew, List.forall_mem_map.mpr hvalid, hfits⟩
    have hheaders := (built_ok hhead).2.2.1
    rw [← hheaders] at hdefault
    exact ⟨_, head_ok_iff.mpr ⟨hserialized, typed_ok_iff.mpr ⟨head, hhead, hdefault, rfl⟩⟩⟩

end request

theorem error_iff {α : Type} {r : Except ε α} : (∃ e, r = .error e) ↔ ¬ ∃ a, r = .ok a := by
  cases r with
  | error e => simp
  | ok a => simp

/-- Whatever calls are made of the builder: the request fails exactly when the URI, a header or the
serialization does, or when the header map has no room for a header that is added; otherwise it has
for each header the values that the user added, in order, and the call's own content type if the
user has given none. -/
theorem headers_kept_and_defaulted [HttpBuilder B χ ξ] (into : ξ → ε) (toVec : τ → Except ε Bytes)
    (conv : Conversions V ξ) (client : κ) (method : Str) (uri : Except ξ Uri)
    (calls : List (UserCall V χ)) (f : Finish β τ) :
    ((∃ e, f.head into toVec (built B conv client method uri calls) = .error e) ↔
      (∃ e, uri = .error e) ∨ (∃ c ∈ calls, ¬ Valid (c.builderCall conv)) ∨
        (∃ data e, f = .json data ∧ toVec data = .error e) ∨
        ¬ Fits B [] (wanted conv calls f.mime)) ∧
    ∀ parts, f.head into toVec (built B conv client method uri calls) = .ok parts →
      parts.method = method ∧ uri = .ok parts.uri ∧ ∀ name, getAll parts.headers name =
        added conv calls name ++ defaulted f.mime (added conv calls contentType) name := by
  constructor
  · rw [error_iff, request_ok_iff, error_iff, not_and_or, not_and_or, not_and_or, not_not]
    push Not
    rfl
  · intro parts h
    obtain ⟨_, htyped⟩ := head_ok_iff.mp h
    obtain ⟨head, hhead, _, rfl⟩ := typed_ok_iff.mp htyped
    obtain ⟨hmethod, huri, _, hvalues⟩ := built_ok hhead
    refine ⟨hmethod, huri, ?_⟩
    intro name
    rw [getAll_append, hvalues, getAll_default, hvalues]

/-- Every name and every value is accepted. -/
def permissive : Conversions Bytes HttpError where
  invalidName _ := none
  headerValue := .ok

def cased : List (UserCall Bytes Unit) :=
  [.header "Content-Type".toList [1], .header ['X'] [2], .header ['x'] [3]]

theorem headers_kept_and_defaulted_cased : ∃ parts : RequestParts Unit,
    (Finish.text ['t'] : Finish Bytes Unit).head id (fun _ => .ok []) (built (Builder Unit)
      permissive () ['P'] (.ok ⟨none, some ['h'], ['/']⟩) cased) = .ok parts ∧
      getAll parts.headers "CONTENT-TYPE".toList = [[1]] ∧
      getAll parts.headers ['X'] = [[2], [3]] := by
  refine ⟨_, rfl, ?_⟩
  have h := (headers_kept_and_defaulted id (fun _ => .ok []) permissive () ['P']
    (.ok ⟨none, some ['h'], ['/']⟩) cased (Finish.text ['t'] : Finish Bytes Unit)
    (B := Builder Unit)).2 _ rfl
  obtain ⟨_, _, hvalues⟩ := h
  exact ⟨(hvalues _).trans (by decide), (hvalues _).trans (by decide)⟩

/-- Different names, one longer than the other. -/
def names (n : ℕ) : List Str := (List.range n).map fun i => List.replicate (i + 1) 'a'

def unvalued (name : Str) : Str × Bytes := (name, [])

/-- One name more than a header map has room for. -/
def crowdedCalls : List (UserCall Bytes Unit) :=
  (names (maxNames + 1)).map fun name => .header name []

theorem addedHeaders_unvalued {given : List Str} (h : ∀ name ∈ given, lowered name = name) :
    addedHeaders ((given.map fun name => (.header name [] : UserCall Bytes Unit)).map
      (UserCall.builderCall permissive)) = given.map unvalued := by
  induction given with
  | nil => rfl
  | cons name given ih =>
    obtain ⟨hname, hgiven⟩ := List.forall_mem_cons.mp h
    have hcall : UserCall.builderCall permissive (.header name [] : UserCall Bytes Unit) =
        .header (.ok (lowered name)) (.ok []) := rfl
    rw [List.map_cons, List.map_cons, hcall, addedHeaders, ih hgiven, hname, List.map_cons]
    rfl

theorem names_lowered (n : ℕ) : ∀ name ∈ names n, lowered name = name := by
  intro name hname
  obtain ⟨i, -, rfl⟩ := List.mem_map.mp hname
  rw [lowered, List.map_replicate]
  rfl

theorem names_distinct (n : ℕ) : (((names n).map unvalued).map Prod.fst).dedup.length = n := by
  have hnodup : (names n).Nodup := by
    apply List.Nodup.map ?_ List.nodup_range
    intro i j hij
    have hlength := congrArg List.length hij
    simpa using hlength
  have hnames : Prod.fst ∘ unvalued = id := rfl
  rw [List.map_map, hnames, List.map_id, hnodup.dedup, names, List.length_map, List.length_range]

/-- After the last name for which there is room, the next one is refused. -/
theorem names_not_fit : ¬ Fits (Builder Unit) [] ((names (maxNames + 1)).map unvalued) := by
  have hlast : names (maxNames + 1) = names maxNames ++ [List.replicate (maxNames + 1) 'a'] := by
    rw [names, List.range_succ, List.map_append]
    rfl
  rw [hlast, List.map_append, fits_append, List.nil_append]
  rintro ⟨-, hroom, -⟩
  have hfull := names_distinct maxNames
  generalize (names maxNames).map unvalued = headers at hroom hfull
  have hrefused : HttpBuilder.refused (B := Builder Unit) headers
      (List.replicate (maxNames + 1) 'a') = some .maxSizeReached := if_pos hfull.ge
  cases hrefused.symm.trans hroom

/-- Where there is no room, the request fails. -/
theorem error_of_not_fits [HttpBuilder B χ ξ] {into : ξ → ε} {toVec : τ → Except ε Bytes}
    {conv : Conversions V ξ} {client : κ} {method : Str} {uri : Except ξ Uri}
    {calls : List (UserCall V χ)} {f : Finish β τ} (h : ¬ Fits B [] (wanted conv calls f.mime)) :
    ∃ e, f.head into toVec (built B conv client method uri calls) = .error e := by
  rw [error_iff, request_ok_iff]
  rintro ⟨-, -, -, hfits⟩
  exact h hfits

/-- Headers of 24,577 names, all of them valid, make a request fail. -/
theorem crowded_request_refused :
    (∀ c ∈ crowdedCalls, Valid (c.builderCall permissive)) ∧
      ∃ e, (Finish.build : Finish Bytes Unit).head id (fun _ => .ok []) (built (Builder Unit)
        permissive () ['G'] (.ok ⟨none, some ['h'], ['/']⟩) crowdedCalls) = .error e := by
  constructor
  · intro c hc
    obtain ⟨name, -, rfl⟩ := List.mem_map.mp hc
    trivial
  · apply error_of_not_fits
    rw [wanted, fits_append, crowdedCalls, addedHeaders_unvalued (names_lowered _)]
    exact mt And.left names_not_fit

end RequestHeaders
