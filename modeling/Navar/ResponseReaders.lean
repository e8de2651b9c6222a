import Navar.NdjsonStreams
import Navar.SseLines
import Navar.Utf8Validation

/-! # The readers of a response

`ResponseExt` reads a body whole, as bytes, text or JSON, or as a stream of bytes, events or
lines. All of them read the same bytes, and the first error of the body stops the ones that read it
whole. -/
namespace ResponseReaders

open ByteBuffers
open LineSplitting
open PollStreams
open LossyText
open HttpMessages
open LineScanning
open SseStreams
open SseRefinement
open SseLines (readText)
open NdjsonStreams (NdjsonStream bodyItems bodyItems_append bodyItems_faultless bodyItems_error)
open Utf8Validation

variable {β ε τ : Type}

/-- `Display` of the error. -/
def display (e : Utf8Error) : Str :=
  match e.errorLen with
  | some n => "invalid utf-8 sequence of ".toList ++ (Nat.repr n).toList ++
      " bytes from index ".toList ++ (Nat.repr e.validUpTo).toList
  | none => "incomplete utf-8 byte sequence from index ".toList ++ (Nat.repr e.validUpTo).toList

def conversionFailed (e : Utf8Error) : Str := "UTF-8 conversion failed: ".toList ++ display e

section readers

variable [BodyExt]

def bytes [Buf β] (body : Body β ε) : Except ε Bytes := collectBytes body

def text [Buf β] (anyhow : Str → ε) (body : Body β ε) : Except ε Str := do
  let bytes ← bytes body
  (fromUtf8 bytes).mapError fun e => anyhow (conversionFailed e)

def json [Buf β] (fromSlice : Bytes → Except ε τ) (body : Body β ε) : Except ε τ := do
  let bytes ← bytes body
  fromSlice bytes

/-- A call of `bytes_stream`. -/
def bytesNext [Buf β] (body : Body β ε) : Body β ε × Poll (Option (Except ε Bytes)) :=
  match BodyExt.nextData body with
  | (rest, .pending) => (rest, .pending)
  | (rest, .ready none) => (rest, .ready none)
  | (rest, .ready (some (.ok data))) =>
    (rest, .ready (some (.ok (Buf.copyToBytes data (Buf.remaining data)).1)))
  | (rest, .ready (some (.error e))) => (rest, .ready (some (.error e)))

end readers

section whole

variable [BodyExt]

theorem bytes_ok_iff [Buf β] {body : Body β ε} {bs : Bytes} :
    bytes body = .ok bs ↔ Faultless body ∧ Body.dataBytes body = bs := collectBytes_ok_iff

theorem bytes_error_iff [Buf β] {body : Body β ε} {e : ε} : bytes body = .error e ↔
    ∃ before after, body = before ++ .ready (.error e) :: after ∧ Faultless before :=
  collectBytes_error_iff

theorem text_of_faultless [Buf β] {anyhow : Str → ε} {body : Body β ε} (h : Faultless body) :
    text anyhow body =
      (fromUtf8 (Body.dataBytes body)).mapError fun e => anyhow (conversionFailed e) := by
  rw [text, bytes_ok_iff.mpr ⟨h, rfl⟩]
  rfl

theorem text_of_stopped [Buf β] {anyhow : Str → ε} {body : Body β ε} {e : ε}
    (h : bytes body = .error e) : text anyhow body = .error e := by
  rw [text, h]
  rfl

theorem text_ok_iff [Buf β] {anyhow : Str → ε} {body : Body β ε} {s : Str} :
    text anyhow body = .ok s ↔ Faultless body ∧ Body.dataBytes body = utf8 s := by
  rcases faultless_or_stopped body with hfaultless | ⟨before, e, after, hbody, hbefore⟩
  · rw [text_of_faultless hfaultless, and_iff_right hfaultless, ← fromUtf8_ok_iff]
    cases fromUtf8 (Body.dataBytes body) <;> simp [Except.mapError]
  · rw [text_of_stopped (bytes_error_iff.mpr ⟨before, after, hbody, hbefore⟩)]
    constructor
    · intro h
      cases h
    · rintro ⟨hfaultless, _⟩
      refine absurd ?_ (hfaultless e)
      rw [hbody]
      exact List.mem_append_right _ List.mem_cons_self

end whole

/-- The text of a body is exact: it is there when all has been received and is the encoding of the
text, and otherwise the error is the first one of the body or names the first byte that is not part
of a character, and how the input is ill-formed there. -/
structure ReadsText [BodyExt] [Buf β] (anyhow : Str → ε) (body : Body β ε) : Prop where
  ok_iff : ∀ s, text anyhow body = .ok s ↔ Faultless body ∧ Body.dataBytes body = utf8 s
  error : ∀ e, text anyhow body = .error e →
    (∃ before after, body = before ++ .ready (.error e) :: after ∧ Faultless before) ∨
    (Faultless body ∧ ∃ u s rest, e = anyhow (conversionFailed u) ∧
      Rejects 0 (Body.dataBytes body) u s rest)

theorem text_reads_exactly [BodyExt] [Buf β] (anyhow : Str → ε) (body : Body β ε) :
    ReadsText anyhow body := by
  refine ⟨fun s => text_ok_iff, ?_⟩
  intro e h
  rcases faultless_or_stopped body with hfaultless | ⟨before, e', after, hbody, hbefore⟩
  · rw [text_of_faultless hfaultless] at h
    cases hdecoded : fromUtf8 (Body.dataBytes body) with
    | ok s =>
      rw [hdecoded] at h
      cases h
    | error u =>
      rw [hdecoded] at h
      obtain ⟨s, rest, hrejects⟩ := fromUtf8_error hdecoded
      exact Or.inr ⟨hfaultless, u, s, rest, (Except.error.inj h).symm, hrejects⟩
  · rw [text_of_stopped (bytes_error_iff.mpr ⟨before, after, hbody, hbefore⟩)] at h
    cases h
    exact Or.inl ⟨before, after, hbody, hbefore⟩

/-- The euro sign cut off after its second byte, which came in a frame of its own. -/
example : text (ε := Str) id
    [.ready (.ok (.data ([0x61, 0xE2] : Bytes))), .pending, .ready (.ok (.data [0x82]))] =
      .error (conversionFailed ⟨1, none⟩) := by decide

section streams

/-- The items of `bytes_stream`. -/
def dataItems [Buf β] : Body β ε → List (Except ε Bytes)
  | [] => []
  | .ready (.ok (.data d)) :: rest => .ok (Buf.bytes d) :: dataItems rest
  | .ready (.error e) :: rest => .error e :: dataItems rest
  | _ :: rest => dataItems rest

theorem dataItems_append [Buf β] (as bs : Body β ε) :
    dataItems (as ++ bs) = dataItems as ++ dataItems bs := by
  induction as with
  | nil => rfl
  | cons a as ih => rcases a with _ | (e | (d | t)) <;> simp [dataItems, ih]

theorem dataItems_faultless [Buf β] {body : Body β ε} (h : Faultless body) :
    ∃ pieces : List Bytes, dataItems body = pieces.map .ok ∧
      pieces.flatten = Body.dataBytes body := by
  induction body with
  | nil => exact ⟨[], rfl, rfl⟩
  | cons a body ih =>
    obtain ⟨pieces, hitems, hbytes⟩ := ih (faultless_cons.mp h).2
    rcases a with _ | (e | (d | t))
    · exact ⟨pieces, hitems, hbytes⟩
    · exact absurd List.mem_cons_self (h e)
    · refine ⟨Buf.bytes d :: pieces, ?_, ?_⟩
      · rw [dataItems, hitems, List.map_cons]
      · rw [List.flatten_cons, hbytes, Body.dataBytes]
    · exact ⟨pieces, hitems, hbytes⟩

variable [BodyExt]

theorem bytesNext_nil [Buf β] : bytesNext ([] : Body β ε) = ([], .ready none) := by
  rw [bytesNext, BodyExt.nextData_nil]

theorem bytesNext_cons [Buf β] (answer : Poll (Except ε (Frame β))) (rest : Body β ε) :
    bytesNext (answer :: rest) =
      match answer with
      | .pending => (rest, .pending)
      | .ready (.error e) => (rest, .ready (some (.error e)))
      | .ready (.ok (.data d)) => (rest, .ready (some (.ok (Buf.bytes d))))
      | .ready (.ok (.trailers _)) => bytesNext rest := by
  rw [bytesNext, BodyExt.nextData_cons]
  rcases answer with _ | (e | (d | t))
  · rfl
  · rfl
  · simp only [copyToBytes_all]
  · rfl

theorem yields_dataItems [Buf β] (body : Body β ε) :
    Yields (fun s => some (bytesNext s)) body (dataItems body) := by
  induction body with
  | nil => exact Ended.yields (congrArg some bytesNext_nil)
  | cons a body ih =>
    have hnext := congrArg some (bytesNext_cons a body)
    rcases a with _ | (e | (d | t))
    · exact ih.step hnext
    · exact ih.step hnext
    · exact ih.step hnext
    · exact ih.congr hnext

theorem dataItems_collect [Buf β] (body : Body β ε) :
    bytes body = List.flatten <$> (dataItems body).mapM id := by
  have hok : ∀ pieces : List Bytes, (pieces.map (Except.ok (ε := ε))).mapM id = .ok pieces := by
    intro pieces
    induction pieces with
    | nil => rfl
    | cons piece pieces ih =>
      rw [List.map_cons, List.mapM_cons, ih]
      rfl
  rcases faultless_or_stopped body with hfaultless | ⟨before, e, after, rfl, hbefore⟩
  · obtain ⟨pieces, hitems, hbytes⟩ := dataItems_faultless hfaultless
    rw [bytes_ok_iff.mpr ⟨hfaultless, rfl⟩, hitems, hok, ← hbytes]
    rfl
  · obtain ⟨pieces, hitems, _⟩ := dataItems_faultless hbefore
    rw [bytes_error_iff.mpr ⟨before, after, rfl, hbefore⟩, dataItems_append, hitems,
      List.mapM_append, hok]
    rfl

theorem sse_of_text [Buf β] {anyhow : Str → ε} {body : Body β ε} {s : Str}
    (h : text anyhow body = .ok s) : batchItems [] body =
      ((lines '\n' s).foldl readText SseStream.fresh).readyEvents.map .ok := by
  obtain ⟨hfaultless, hbytes⟩ := text_ok_iff.mp h
  rw [batchItems_faultless hfaultless, batchEvents, SseLines.fold_texts,
    ← (SseLines.decode_lines _).1, hbytes, fromUtf8Lossy_utf8]

end streams

/-- The items begin with these and then the error. -/
def StopsAt {α : Type} (items : List (Except ε α)) (received : List (Except ε α)) (e : ε) : Prop :=
  received ++ [.error e] <+: items

theorem stopsAt_append {α : Type} (received after : List (Except ε α)) (e : ε) :
    StopsAt (received ++ .error e :: after) received e := by
  rw [StopsAt, List.prefix_append_right_inj]
  exact List.prefix_append [_] after

/-- What the readers of a body have to do with each other. -/
structure ReadersAgree [BodyExt] [Buf β] (anyhow : Str → ε) (fromSlice : Bytes → Except ε τ)
    (body : Body β ε) : Prop where
  pieces : ∃ items, Yields (fun s => some (bytesNext s)) body items ∧
    bytes body = List.flatten <$> items.mapM id
  events : ∀ s, text anyhow body = .ok s →
    Yields SseStream.pollNext (SseStream.new body)
      (((lines '\n' s).foldl readText SseStream.fresh).readyEvents.map .ok)
  records : ∀ bs, bytes body = .ok bs → json fromSlice body = fromSlice bs ∧
    Yields (NdjsonStream.pollNext fromSlice) (NdjsonStream.new body) ((lines lf bs).map fromSlice)
  stopped : ∀ e, bytes body = .error e →
    text anyhow body = .error e ∧ json fromSlice body = .error e ∧
    ∃ (received : List Bytes) (items : List (Except ε Bytes))
        (events : List (Except ε SseEvent)) (records : List (Except ε τ)),
      Yields (fun s => some (bytesNext s)) body items ∧
      Yields SseStream.pollNext (SseStream.new body) events ∧
      Yields (NdjsonStream.pollNext fromSlice) (NdjsonStream.new body) records ∧
      StopsAt items (received.map .ok) e ∧
      StopsAt events ((batchEvents received.flatten).map .ok) e ∧
      StopsAt records ((lines lf received.flatten).map fromSlice) e

/-- However a body comes in and whatever it answers, all readers read the same bytes up to the same
error. -/
theorem readers_agree [BodyExt] [Buf β] (anyhow : Str → ε) (fromSlice : Bytes → Except ε τ)
    (body : Body β ε) : ReadersAgree anyhow fromSlice body := by
  have hevents := SseRefinement.yields_new body
  have hrecords := NdjsonStreams.yields_new fromSlice body
  constructor
  · exact ⟨dataItems body, yields_dataItems body, dataItems_collect body⟩
  · intro s h
    rw [sse_of_text h] at hevents
    exact hevents
  · intro bs h
    obtain ⟨hfaultless, rfl⟩ := bytes_ok_iff.mp h
    rw [bodyItems_faultless fromSlice hfaultless] at hrecords
    refine ⟨?_, hrecords⟩
    rw [json, h]
    rfl
  · intro e h
    obtain ⟨before, after, rfl, hbefore⟩ := bytes_error_iff.mp h
    obtain ⟨received, hitems, hreceived⟩ := dataItems_faultless hbefore
    refine ⟨text_of_stopped h, ?_, received, _, _, _, yields_dataItems _, hevents, hrecords, ?_, ?_,
      ?_⟩
    · rw [json, h]
      rfl
    · rw [dataItems_append, hitems]
      exact stopsAt_append _ _ e
    · rw [batchItems_append, batchItems_faultless hbefore, hreceived]
      exact stopsAt_append _ _ e
    · rw [bodyItems_append, bodyItems_faultless fromSlice hbefore, bodyItems_error, hreceived]
      exact stopsAt_append _ _ e

end ResponseReaders
