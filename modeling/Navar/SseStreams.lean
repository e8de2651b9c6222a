import Navar.LineStreams

/-! # The parser of Server-Sent Events

`SseStream` reads a response body frame by frame. The scratch buffer of the source is empty
before and after each line, so a line is passed on by value here. -/
namespace SseStreams

open ByteBuffers
open PollStreams
open LossyText
open HttpMessages
open LineScanning
open LineStreams (Fields LineStream)
open WakerTasks (Call Waker)

structure SseEvent where
  id : Option Str := none
  event : Option Str := none
  data : Str := []
  deriving DecidableEq, Repr

/-- A further data line stands on a line of its own, unless there is no data yet. -/
def SseEvent.pushData (ev : SseEvent) (value : Str) : SseEvent :=
  { ev with data := (if ev.data.isEmpty then ev.data else ev.data ++ ['\n']) ++ value }

structure SseStream (ε : Type) where
  body : Body Bytes ε
  buffer : VecDeque UInt8
  pendingEvent : SseEvent
  readyEvents : List SseEvent
  lastEventId : Option Str

namespace SseStream

variable {β ε : Type}

def new [Buf β] (body : Body β ε) : SseStream ε :=
  { body := bytesBody body
    buffer := VecDeque.withCapacity 256
    pendingEvent := {}
    readyEvents := []
    lastEventId := none }

/-- `line.splitn(2, ':')`: the text before the first colon, and the text after it if there is
one. -/
def splitField (line : Str) : Str × Option Str :=
  (line.takeWhile (· ≠ ':'),
    match line.dropWhile (· ≠ ':') with
    | [] => none
    | _ :: value => some value)

def dataName : Str := ['d', 'a', 't', 'a']
def idName : Str := ['i', 'd']
def eventName : Str := ['e', 'v', 'e', 'n', 't']

def processLine (s : SseStream ε) (line : Str) : SseStream ε :=
  if line.isEmpty then
    { s with readyEvents := s.readyEvents ++ [s.pendingEvent], pendingEvent := {} }
  else
    let (name, value?) := splitField line
    let value := (value?.map trimStart).getD []
    if name = dataName then
      { s with pendingEvent := s.pendingEvent.pushData value }
    else if name = idName then
      { s with
        pendingEvent := { s.pendingEvent with id := some value }
        lastEventId := some value }
    else if name = eventName then
      { s with pendingEvent := { s.pendingEvent with event := some value } }
    else s

def consumeLine (s : SseStream ε) (line : Bytes) : SseStream ε :=
  s.processLine (trimEnd (fromUtf8Lossy line))

def appendFrame [Buf β] (s : SseStream ε) (frame : β) : Option (SseStream ε) := do
  let oldLen := s.buffer.len
  let buffer := Buf.eachChunk (fun d chunk => chunk.foldl VecDeque.pushBack d)
    (Buf.remaining frame) frame s.buffer
  let s := { s with buffer := buffer }
  let (processed, s) ←
    scan buffer consumeLine (List.range' oldLen (buffer.len - oldLen)) 0 s
  some { s with buffer := processed.repeat (fun d => d.popFront.2) s.buffer }

/-- A stream over an empty body: what lines do to a parser that has seen nothing. -/
def fresh : SseStream Empty := new ([] : Body Bytes Empty)

end SseStream

variable {ε : Type}

/-- What a line leaves to the lines after it: the event that has begun, and the last id. -/
abbrev Memory := SseEvent × Option Str

def memory (s : SseStream ε) : Memory := (s.pendingEvent, s.lastEventId)

def sseFields : SseStream ε ≃ Fields ε Memory SseEvent where
  toFun s := { body := s.body, buffer := s.buffer, memory := memory s, ready := s.readyEvents }
  invFun f :=
    { body := f.body
      buffer := f.buffer
      pendingEvent := f.memory.1
      readyEvents := f.ready
      lastEventId := f.memory.2 }
  left_inv _ := rfl
  right_inv _ := rfl

def sseLines (ε : Type) : LineStream (SseStream ε) ε Memory SseEvent SseEvent where
  fields := sseFields
  appendFrame s frame := s.appendFrame frame
  item := .ok

/-- `SseStream::poll_next` with its waker. -/
def sseCall (s : SseStream ε) :
    Option (SseStream ε × Poll (Option (Except ε SseEvent)) × Waker) :=
  (sseLines ε).call s

/-- `SseStream::poll_next`, with what it does to the waker left out. -/
def SseStream.pollNext (s : SseStream ε) :
    Option (SseStream ε × Poll (Option (Except ε SseEvent))) :=
  Call.poll sseCall s

example : (SseStream.fresh.consumeLine [100, 97, 116, 97, 58, 32, 120, 13]).pendingEvent.data
    = ['x'] := by decide

end SseStreams
