import Navar.ByteBuffers
import Navar.FramedLines
import Navar.LossyText

/-! # Requests and bodies

A body is polled for frames. It is given by what it answers: the answers to come, in order,
and after the last of them the end of the body. -/
namespace HttpMessages

open ByteBuffers
open PollStreams
open LossyText
open FramedLines (Arrival content marks)

abbrev HeaderMap := List (Str × Bytes)

structure Uri where
  scheme : Option Str
  authority : Option Str
  pathAndQuery : Str
  deriving DecidableEq, Repr

/-- The extensions are those added, in order; of two of one type the later one counts. -/
structure RequestParts (χ : Type) where
  method : Str
  uri : Uri
  headers : HeaderMap
  extensions : List χ

structure Request (χ β : Type) where
  parts : RequestParts χ
  body : β

inductive Frame (β : Type) where
  | data (d : β)
  | trailers (t : HeaderMap)

def Frame.mapData {β γ : Type} (f : β → γ) : Frame β → Frame γ
  | .data d => .data (f d)
  | .trailers t => .trailers t

def Frame.intoData {β : Type} : Frame β → Option β
  | .data d => some d
  | .trailers _ => none

abbrev Body (β ε : Type) := List (Poll (Except ε (Frame β)))

namespace Body

variable {β γ ε ε' : Type}

def pollFrame : Body β ε → Poll (Option (Except ε (Frame β))) × Body β ε
  | [] => (.ready none, [])
  | .pending :: rest => (.pending, rest)
  | .ready result :: rest => (.ready (some result), rest)

def mapResult (f : Except ε (Frame β) → Except ε' (Frame γ)) :
    Poll (Except ε (Frame β)) → Poll (Except ε' (Frame γ))
  | .pending => .pending
  | .ready result => .ready (f result)

def mapFrame (f : Frame β → Frame γ) (body : Body β ε) : Body γ ε :=
  body.map (mapResult (Except.map f))

def mapErr (f : ε → ε') (body : Body β ε) : Body β ε' :=
  body.map (mapResult (Except.mapError f))

def dataBytes [Buf β] : Body β ε → Bytes
  | [] => []
  | .ready (.ok (.data d)) :: rest => Buf.bytes d ++ dataBytes rest
  | _ :: rest => dataBytes rest

theorem dataBytes_mapFrame [Buf β] [Buf γ] (f : β → γ)
    (hf : ∀ d, Buf.bytes (f d) = Buf.bytes d) (body : Body β ε) :
    dataBytes (mapFrame (Frame.mapData f) body) = dataBytes body := by
  induction body with
  | nil => rfl
  | cons a body ih =>
    simp only [mapFrame] at ih
    rcases a with _ | (e | (d | t)) <;>
      simp [mapFrame, mapResult, Except.map, Frame.mapData, dataBytes, hf, ih]

theorem dataBytes_mapErr [Buf β] (f : ε → ε') (body : Body β ε) :
    dataBytes (mapErr f body) = dataBytes body := by
  induction body with
  | nil => rfl
  | cons a body ih =>
    simp only [mapErr] at ih
    rcases a with _ | (e | (d | t)) <;>
      simp [mapErr, mapResult, Except.mapError, dataBytes, ih]

/-- Every error of the body, with the data bytes before it. -/
def errorMarks [Buf β] (seen : Bytes) : Body β ε → List (Bytes × ε)
  | [] => []
  | .ready (.ok (.data d)) :: rest => errorMarks (seen ++ Buf.bytes d) rest
  | .ready (.error e) :: rest => (seen, e) :: errorMarks seen rest
  | _ :: rest => errorMarks seen rest

end Body

/-- `Box<dyn Buf>`: every method is that of the boxed buffer. -/
structure NormalizedData (β : Type) where
  boxed : β

instance {β : Type} [Buf β] : Buf (NormalizedData β) where
  remaining b := Buf.remaining b.boxed
  chunk b := Buf.chunk b.boxed
  advance b n := ⟨Buf.advance b.boxed n⟩
  bytes b := Buf.bytes b.boxed
  remaining_eq b := Buf.remaining_eq b.boxed
  chunk_prefix b := Buf.chunk_prefix b.boxed
  chunk_ne_nil b := Buf.chunk_ne_nil b.boxed
  bytes_advance b := Buf.bytes_advance b.boxed

/-- `map_frame(|frame| frame.map_data(|data| Box::new(data))).map_err(|err| err.into())`, which
the client, the pool and the HTTP/1 and HTTP/2 sessions all apply to the bodies they pass on. -/
def normalizeBody {β ε ε' : Type} (into : ε → ε') (body : Body β ε) :
    Body (NormalizedData β) ε' :=
  Body.mapErr into (Body.mapFrame (Frame.mapData NormalizedData.mk) body)

theorem dataBytes_normalizeBody {β ε ε' : Type} [Buf β] (into : ε → ε') (body : Body β ε) :
    Body.dataBytes (normalizeBody into body) = Body.dataBytes body := by
  rw [normalizeBody, Body.dataBytes_mapErr]
  exact Body.dataBytes_mapFrame NormalizedData.mk (fun _ => rfl) body

/-- The adaptation both stream parsers make: every data frame becomes one contiguous buffer. -/
def bytesBody {β ε : Type} [Buf β] (body : Body β ε) : Body Bytes ε :=
  Body.mapFrame (Frame.mapData fun d => (Buf.copyToBytes d (Buf.remaining d)).1) body

theorem dataBytes_bytesBody {β ε : Type} [Buf β] (body : Body β ε) :
    Body.dataBytes (bytesBody body) = Body.dataBytes body :=
  Body.dataBytes_mapFrame _ copyToBytes_all body

def Faultless {β ε : Type} (body : Body β ε) : Prop := ∀ e, .ready (.error e) ∉ body

theorem faultless_nil {β ε : Type} : Faultless ([] : Body β ε) :=
  fun _ hmem => absurd hmem List.not_mem_nil

theorem faultless_cons {β ε : Type} {answer : Poll (Except ε (Frame β))} {body : Body β ε} :
    Faultless (answer :: body) ↔ (∀ e, answer ≠ .ready (.error e)) ∧ Faultless body := by
  constructor
  · intro h
    refine ⟨?_, fun e hmem => h e (List.mem_cons_of_mem _ hmem)⟩
    rintro e rfl
    exact h e List.mem_cons_self
  · rintro ⟨hanswer, hbody⟩ e hmem
    rcases List.mem_cons.mp hmem with heq | hmem
    · exact hanswer e heq.symm
    · exact hbody e hmem

/-- A body has no error, or a first one. -/
theorem faultless_or_stopped {β ε : Type} (body : Body β ε) : Faultless body ∨
    ∃ before e after, body = before ++ .ready (.error e) :: after ∧ Faultless before := by
  induction body with
  | nil => exact Or.inl faultless_nil
  | cons answer body ih =>
    by_cases ha : ∃ e, answer = .ready (.error e)
    · obtain ⟨e, rfl⟩ := ha
      exact Or.inr ⟨[], e, body, rfl, faultless_nil⟩
    · have hanswer : ∀ e, answer ≠ .ready (.error e) := fun e heq => ha ⟨e, heq⟩
      rcases ih with hbody | ⟨before, e, after, rfl, hbefore⟩
      · exact Or.inl (faultless_cons.mpr ⟨hanswer, hbody⟩)
      · exact Or.inr ⟨answer :: before, e, after, rfl, faultless_cons.mpr ⟨hanswer, hbefore⟩⟩

/-- `http_body_util::BodyExt`: a body is collected up to its end or its first error, and the stream
of its data passes trailers over within a call. -/
class BodyExt where
  collect {β ε : Type} [Buf β] (body : Body β ε) : Except ε Bytes
  nextData {β ε : Type} (body : Body β ε) : Body β ε × Poll (Option (Except ε β))
  collect_faultless {β ε : Type} [Buf β] (body : Body β ε) (h : Faultless body) :
    collect body = .ok (Body.dataBytes body)
  collect_stopped {β ε : Type} [Buf β] (before : Body β ε) (h : Faultless before) (e : ε)
    (after : Body β ε) : collect (before ++ .ready (.error e) :: after) = .error e
  nextData_nil {β ε : Type} : nextData ([] : Body β ε) = ([], .ready none)
  nextData_cons {β ε : Type} (answer : Poll (Except ε (Frame β))) (rest : Body β ε) :
    nextData (answer :: rest) =
      match answer with
      | .pending => (rest, .pending)
      | .ready (.error e) => (rest, .ready (some (.error e)))
      | .ready (.ok (.data d)) => (rest, .ready (some (.ok d)))
      | .ready (.ok (.trailers _)) => nextData rest

/-- The frames are read one after the other. -/
def collectFrames {β ε : Type} [Buf β] : Body β ε → Except ε Bytes
  | [] => .ok []
  | .pending :: rest => collectFrames rest
  | .ready (.error e) :: _ => .error e
  | .ready (.ok (.data d)) :: rest => (Buf.bytes d ++ ·) <$> collectFrames rest
  | .ready (.ok (.trailers _)) :: rest => collectFrames rest

def nextFrame {β ε : Type} : Body β ε → Body β ε × Poll (Option (Except ε β))
  | [] => ([], .ready none)
  | .pending :: rest => (rest, .pending)
  | .ready (.error e) :: rest => (rest, .ready (some (.error e)))
  | .ready (.ok (.data d)) :: rest => (rest, .ready (some (.ok d)))
  | .ready (.ok (.trailers _)) :: rest => nextFrame rest

instance : BodyExt where
  collect := collectFrames
  nextData := nextFrame
  collect_faultless body h := by
    induction body with
    | nil => rfl
    | cons a body ih =>
      have hb := ih (faultless_cons.mp h).2
      rcases a with _ | (e | (d | t))
      · exact hb
      · exact absurd List.mem_cons_self (h e)
      · exact congrArg ((Buf.bytes d ++ ·) <$> ·) hb
      · exact hb
  collect_stopped before h e after := by
    induction before with
    | nil => rfl
    | cons a before ih =>
      have hstops := ih (faultless_cons.mp h).2
      rcases a with _ | (e' | (d | t))
      · exact hstops
      · exact absurd List.mem_cons_self (h e')
      · exact congrArg ((Buf.bytes d ++ ·) <$> ·) hstops
      · exact hstops
  nextData_nil := rfl
  nextData_cons answer rest := by
    rcases answer with _ | (e | (d | t)) <;> rfl

/-- `ResponseExt::bytes`. -/
def collectBytes [BodyExt] {β ε : Type} [Buf β] (body : Body β ε) : Except ε Bytes :=
  BodyExt.collect body

theorem collectBytes_ok_iff [BodyExt] {β ε : Type} [Buf β] {body : Body β ε} {bs : Bytes} :
    collectBytes body = .ok bs ↔ Faultless body ∧ Body.dataBytes body = bs := by
  constructor
  · intro h
    rcases faultless_or_stopped body with hfaultless | ⟨before, e, after, rfl, hbefore⟩
    · rw [collectBytes, BodyExt.collect_faultless body hfaultless] at h
      exact ⟨hfaultless, Except.ok.inj h⟩
    · rw [collectBytes, BodyExt.collect_stopped before hbefore] at h
      cases h
  · rintro ⟨hfaultless, rfl⟩
    exact BodyExt.collect_faultless body hfaultless

theorem collectBytes_error_iff [BodyExt] {β ε : Type} [Buf β] {body : Body β ε} {e : ε} :
    collectBytes body = .error e ↔
      ∃ before after, body = before ++ .ready (.error e) :: after ∧ Faultless before := by
  constructor
  · intro h
    rcases faultless_or_stopped body with hfaultless | ⟨before, e', after, rfl, hbefore⟩
    · rw [collectBytes, BodyExt.collect_faultless body hfaultless] at h
      cases h
    · rw [collectBytes, BodyExt.collect_stopped before hbefore] at h
      cases h
      exact ⟨before, after, rfl, hbefore⟩
  · rintro ⟨before, after, rfl, hbefore⟩
    exact BodyExt.collect_stopped before hbefore e after

theorem errorMarks_faultless {β ε : Type} [Buf β] {body : Body β ε} (h : Faultless body)
    (seen : Bytes) : Body.errorMarks seen body = [] := by
  induction body generalizing seen with
  | nil => rfl
  | cons a body ih =>
    have hb := ih (faultless_cons.mp h).2
    rcases a with _ | (e | (d | t))
    · exact hb seen
    · exact (h e List.mem_cons_self).elim
    · exact hb _
    · exact hb seen

/-- What a parser of lines sees of a poll of the body. -/
def arrival {ε : Type} : Poll (Except ε (Frame Bytes)) → Arrival UInt8 ε
  | .ready (.ok (.data d)) => .piece d
  | .ready (.error e) => .fault e
  | _ => .idle

theorem content_arrivals {ε : Type} (body : Body Bytes ε) :
    content (body.map arrival) = Body.dataBytes body := by
  induction body with
  | nil => rfl
  | cons a body ih =>
    rcases a with _ | (e | (d | t)) <;> simp [arrival, content, Body.dataBytes, ih]
    rfl

theorem content_bytesBody {β ε : Type} [Buf β] (body : Body β ε) :
    content ((bytesBody body).map arrival) = Body.dataBytes body := by
  rw [content_arrivals, dataBytes_bytesBody]

theorem arrivals_data {β ε : Type} [Buf β] (d : β) (body : Body β ε) :
    (bytesBody (.ready (.ok (.data d)) :: body)).map arrival =
      (.piece (Buf.bytes d) :: (bytesBody body).map arrival : List (Arrival UInt8 ε)) := by
  rw [← copyToBytes_all d]
  rfl

theorem marks_arrivals {β ε : Type} [Buf β] (seen : Bytes) (body : Body β ε) :
    marks seen ((bytesBody body).map arrival) = Body.errorMarks seen body := by
  induction body generalizing seen with
  | nil => rfl
  | cons a body ih =>
    rcases a with _ | (e | (d | t))
    · exact ih seen
    · exact congrArg ((seen, e) :: ·) (ih seen)
    · rw [arrivals_data]
      exact ih _
    · exact ih seen

end HttpMessages
