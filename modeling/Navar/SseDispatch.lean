import Navar.SseRefinement

/-! # Which blocks of an event stream are dispatched

An empty line closes a block of lines, and the specification makes an event of a block that has
a `data` field. The parser tests the trimmed line, and makes an event of every block. -/
namespace SseDispatch

open ByteBuffers
open LineSplitting
open PollStreams
open LossyText
open HttpMessages
open LineScanning
open SseStreams
open SseRefinement

variable {α β ε ε' : Type}

/-- No character apart from a carriage return before the line feed. -/
def emptyLine (line : Bytes) : Bool := line = [] ∨ line = [13]

/-- The line names the field `data`, with or without a value. -/
def dataField (line : Bytes) : Bool :=
  line = utf8 SseStream.dataName ∨ line = utf8 SseStream.dataName ++ [13] ∨
    utf8 (SseStream.dataName ++ [':']) <+: line

/-- What the parser takes for an empty line. -/
def blank (line : Bytes) : Bool := (trimEnd (fromUtf8Lossy line)).isEmpty

/-- The blocks that are closed; lines after the last closing line are in none. -/
def closedBlocks (closes : α → Bool) (block : List α) : List α → List (List α)
  | [] => []
  | line :: ls =>
    if closes line then block :: closedBlocks closes [] ls
    else closedBlocks closes (block ++ [line]) ls

def dispatched (ls : List Bytes) : List (List Bytes) :=
  (closedBlocks emptyLine [] ls).filter (·.any dataField)

def blockEvent (block : List Bytes) : SseEvent :=
  (block.foldl SseStream.consumeLine SseStream.fresh).pendingEvent

/-- Only empty lines are blank, and every closed block has data. -/
structure Dispatchable (ls : List Bytes) : Prop where
  blanks : ∀ line ∈ ls, blank line = true → emptyLine line = true
  data : ∀ block ∈ closedBlocks emptyLine [] ls, block.any dataField = true

section blocks

theorem closedBlocks_length (closes : α → Bool) (block ls : List α) :
    (closedBlocks closes block ls).length = (ls.filter closes).length := by
  induction ls generalizing block with
  | nil => rfl
  | cons line ls ih =>
    by_cases h : closes line = true
    · simp [closedBlocks, h, ih]
    · simp [closedBlocks, h, ih]

theorem closedBlocks_congr {p q : α → Bool} {ls : List α} (h : ∀ line ∈ ls, p line = q line)
    (block : List α) : closedBlocks p block ls = closedBlocks q block ls := by
  induction ls generalizing block with
  | nil => rfl
  | cons line ls ih =>
    obtain ⟨hline, hls⟩ := List.forall_mem_cons.mp h
    simp only [closedBlocks, hline, ih hls]

theorem blank_of_emptyLine {line : Bytes} (h : emptyLine line = true) : blank line = true := by
  rcases of_decide_eq_true h with rfl | rfl
  · decide
  · decide

end blocks

section parsing

theorem consumeLine_blank {line : Bytes} (h : blank line = true) (s : SseStream ε) :
    s.consumeLine line =
      { s with readyEvents := s.readyEvents ++ [s.pendingEvent], pendingEvent := {} } :=
  if_pos h

theorem consumeLine_field {line : Bytes} (h : blank line ≠ true) (s : SseStream ε) :
    (s.consumeLine line).readyEvents = s.readyEvents := by
  have hne : ¬(trimEnd (fromUtf8Lossy line)).isEmpty = true := h
  rw [SseStream.consumeLine, SseStream.processLine, if_neg hne]
  simp only
  split_ifs <;> rfl

theorem consumeLine_pending {s : SseStream ε} {t : SseStream ε'}
    (h : s.pendingEvent = t.pendingEvent) (line : Bytes) :
    (s.consumeLine line).pendingEvent = (t.consumeLine line).pendingEvent := by
  simp only [SseStream.consumeLine, SseStream.processLine]
  split_ifs <;> simp [h]

theorem fold_blocks {s : SseStream ε} {block : List Bytes}
    (h : s.pendingEvent = blockEvent block) (ls : List Bytes) :
    (ls.foldl SseStream.consumeLine s).readyEvents =
      s.readyEvents ++ (closedBlocks blank block ls).map blockEvent := by
  induction ls generalizing s block with
  | nil => simp [closedBlocks]
  | cons line ls ih =>
    rw [List.foldl_cons]
    by_cases hb : blank line = true
    · have hpending : (s.consumeLine line).pendingEvent = blockEvent [] := by
        rw [consumeLine_blank hb]
        rfl
      rw [ih hpending, consumeLine_blank hb]
      simp [closedBlocks, hb, h]
    · have hpending : (s.consumeLine line).pendingEvent = blockEvent (block ++ [line]) := by
        rw [blockEvent, List.foldl_append]
        exact consumeLine_pending h line
      rw [ih hpending, consumeLine_field hb]
      simp [closedBlocks, hb]

theorem batchEvents_blocks (bytes : Bytes) :
    batchEvents bytes = (closedBlocks blank [] (lines lf bytes)).map blockEvent := by
  have hstart : SseStream.fresh.pendingEvent = blockEvent [] := rfl
  rw [batchEvents, fold_blocks hstart]
  rfl

end parsing

section dispatch

theorem dispatched_of_dispatchable {ls : List Bytes} (h : Dispatchable ls) :
    closedBlocks blank [] ls = dispatched ls := by
  have hsame : ∀ line ∈ ls, blank line = emptyLine line := by
    intro line hline
    rw [Bool.eq_iff_iff]
    exact ⟨h.blanks line hline, blank_of_emptyLine⟩
  rw [closedBlocks_congr hsame, dispatched, List.filter_eq_self.mpr h.data]

theorem dispatchable_of_length {ls : List Bytes}
    (h : (closedBlocks blank [] ls).length = (dispatched ls).length) : Dispatchable ls := by
  have hsub : ls.filter emptyLine = (ls.filter blank).filter emptyLine := by
    rw [List.filter_filter]
    apply List.filter_congr
    intro line _
    cases he : emptyLine line with
    | false => rfl
    | true => rw [blank_of_emptyLine he]; rfl
  have hdata := List.length_filter_le (·.any dataField) (closedBlocks emptyLine [] ls)
  have hempty := List.length_filter_le emptyLine (ls.filter blank)
  rw [dispatched, closedBlocks_length] at h
  rw [closedBlocks_length, hsub] at hdata
  constructor
  · intro line hline hblank
    have hall : ((ls.filter blank).filter emptyLine).length = (ls.filter blank).length := by
      omega
    exact List.length_filter_eq_length_iff.mp hall line (List.mem_filter.mpr ⟨hline, hblank⟩)
  · intro block hblock
    have hall : ((closedBlocks emptyLine [] ls).filter (·.any dataField)).length =
        (closedBlocks emptyLine [] ls).length := by
      rw [closedBlocks_length, hsub]
      omega
    exact List.length_filter_eq_length_iff.mp hall block hblock

end dispatch

/-- The events of a body are those of its blocks that have data, one for each of them and in
order, exactly when only empty lines are blank and every closed block has data; otherwise not
even their numbers agree. -/
theorem sse_dispatch_iff [Buf β] (body : Body β ε) : ∃ items,
    Yields SseStream.pollNext (SseStream.new body) items ∧
    (yieldedEvents items = (dispatched (lines lf (Body.dataBytes body))).map blockEvent ↔
      Dispatchable (lines lf (Body.dataBytes body))) ∧
    ((yieldedEvents items).length = (dispatched (lines lf (Body.dataBytes body))).length ↔
      Dispatchable (lines lf (Body.dataBytes body))) := by
  refine ⟨_, yields_new body, ?_⟩
  rw [events_batchItems, batchEvents_blocks]
  constructor
  · constructor
    · intro h
      apply dispatchable_of_length
      simpa using congrArg List.length h
    · intro h
      rw [dispatched_of_dispatchable h]
  · rw [List.length_map]
    constructor
    · exact dispatchable_of_length
    · intro h
      rw [dispatched_of_dispatchable h]

/-- A comment and an empty line. -/
def keepAlive : Body Bytes Unit := [.ready (.ok (.data [58, 10, 10]))]

theorem keep_alive_yields_event :
    Yields SseStream.pollNext (SseStream.new keepAlive) [.ok {}] ∧
      closedBlocks emptyLine [] (lines lf (Body.dataBytes keepAlive)) = [[[58]]] ∧
      dispatched (lines lf (Body.dataBytes keepAlive)) = [] :=
  ⟨yields_new keepAlive, rfl, rfl⟩

end SseDispatch
