import Navar.SseStreams

/-! # SseStream refines a batch parser

The abstract reader, given the parser of lines, is simulated call by call: between calls the
ring buffer holds the bytes since the last line feed and nothing else. -/
namespace SseRefinement

open ByteBuffers
open LineSplitting
open PollStreams
open FramedLines
open LossyText
open HttpMessages
open LineScanning
open LineStreams
open SseStreams

variable {β γ ε : Type}

/-- The events of all the bytes at once: cut at every line feed, drop the unterminated tail,
fold the lines in order. -/
def batchEvents (bytes : Bytes) : List SseEvent :=
  ((lines lf bytes).foldl SseStream.consumeLine SseStream.fresh).readyEvents

/-- The items of a body of which the bytes `seen` have been read already: a data frame
contributes the events that its bytes complete, an error stands at its place. -/
def batchItems [Buf β] (seen : Bytes) : Body β ε → List (Except ε SseEvent)
  | [] => []
  | .ready (.ok (.data d)) :: rest =>
    ((batchEvents (seen ++ Buf.bytes d)).drop (batchEvents seen).length).map .ok ++
      batchItems (seen ++ Buf.bytes d) rest
  | .ready (.error e) :: rest => .error e :: batchItems seen rest
  | _ :: rest => batchItems seen rest

def yieldedEvents (items : List (Except ε SseEvent)) : List SseEvent :=
  items.filterMap Except.toOption

/-- A parser that remembers the given event and id and has no event ready. -/
def recalled (m : Memory) : SseStream Empty :=
  { SseStream.fresh with pendingEvent := m.1, lastEventId := m.2 }

/-- `s` after a parser that remembered the same has become `t`. -/
def follow (s : SseStream ε) (t : SseStream Empty) : SseStream ε :=
  { s with
    pendingEvent := t.pendingEvent
    lastEventId := t.lastEventId
    readyEvents := s.readyEvents ++ t.readyEvents }

/-- A line reads and writes the pending event and the last id, and appends to the queue. -/
theorem processLine_frame (s : SseStream ε) (line : Str) :
    s.processLine line = follow s ((recalled (memory s)).processLine line) := by
  by_cases hl : line.isEmpty = true
  · simp [SseStream.processLine, follow, recalled, memory, hl, SseStream.fresh, SseStream.new]
  · simp only [SseStream.processLine, follow, recalled, memory, hl]
    split_ifs <;> simp [SseStream.fresh, SseStream.new]

theorem fold_frame (s : SseStream ε) (ls : List Bytes) :
    ls.foldl SseStream.consumeLine s =
      follow s (ls.foldl SseStream.consumeLine (recalled (memory s))) := by
  induction ls generalizing ε s with
  | nil => simp [follow, recalled, memory, SseStream.fresh, SseStream.new]
  | cons l ls ih =>
    have hl : s.consumeLine l = follow s ((recalled (memory s)).consumeLine l) :=
      processLine_frame s _
    rw [List.foldl_cons, List.foldl_cons, ih (s.consumeLine l),
      ih ((recalled (memory s)).consumeLine l), hl]
    simp [follow, memory]

def sseParser (ε : Type) : Parser UInt8 Memory (Except ε SseEvent) where
  start := ({}, none)
  step m line :=
    let s := (recalled m).consumeLine line
    (memory s, s.readyEvents.map .ok)

theorem sseParser_run (m : Memory) (ls : List Bytes) :
    (sseParser ε).run m ls =
      (memory (ls.foldl SseStream.consumeLine (recalled m)),
        (ls.foldl SseStream.consumeLine (recalled m)).readyEvents.map .ok) := by
  induction ls generalizing m with
  | nil => rfl
  | cons l ls ih =>
    simp only [Parser.run, sseParser] at ih ⊢
    rw [ih, List.foldl_cons, fold_frame ((recalled m).consumeLine l)]
    simp [follow, memory]

theorem sseParser_parse (bytes : Bytes) :
    (sseParser ε).parse lf bytes = (batchEvents bytes).map .ok := by
  rw [Parser.parse, sseParser_run]
  rfl

theorem pushed_items [Buf β] (frame : β) (d : VecDeque UInt8) :
    (Buf.eachChunk (fun d chunk => chunk.foldl VecDeque.pushBack d) (Buf.remaining frame) frame
      d).items = d.items ++ Buf.bytes frame :=
  eachChunk_spec VecDeque.items (fun d c => VecDeque.pushBack_each c d) _ frame d
    (Nat.le_refl _)

/-- What appending a frame does, whatever the chunks of the frame and the place where the
buffer wraps, if no line feed was left in the buffer. -/
theorem appendFrame_spec [Buf β] (s : SseStream ε) (frame : β) (h : lf ∉ s.buffer.items) :
    ∃ d, d.items = unfinished lf (s.buffer.items ++ Buf.bytes frame) ∧
      s.appendFrame frame = some
        { follow s ((lines lf (s.buffer.items ++ Buf.bytes frame)).foldl SseStream.consumeLine
            (recalled (memory s))) with
          buffer := d } := by
  have hpush := pushed_items frame s.buffer
  simp only [SseStream.appendFrame, Option.bind_eq_bind]
  generalize Buf.eachChunk (fun d chunk => chunk.foldl VecDeque.pushBack d)
    (Buf.remaining frame) frame s.buffer = pushed at hpush ⊢
  rw [scan_appended hpush h, fold_frame, ← hpush]
  refine ⟨_, ?_, rfl⟩
  rw [VecDeque.popFront_each]
  exact drop_lines pushed.items

theorem sse_reader (s : SseStream ε) :
    (sseLines ε).reader s =
      ⟨s.body.map arrival, s.buffer.items, memory s, s.readyEvents.map .ok⟩ := rfl

theorem sse_reads : (sseLines ε).Reads (sseParser ε) := by
  intro s frame hclean
  obtain ⟨d, hd, happ⟩ := appendFrame_spec s frame hclean
  refine ⟨_, happ, rfl, ?_⟩
  simp only [sse_reader, Reader.absorb, sseParser_run, hd, follow, List.map_append]
  rfl

theorem batchItems_eq_reference [Buf β] (seen : Bytes) (body : Body β ε) :
    batchItems seen body =
      reference (sseParser ε) lf Except.error seen ((bytesBody body).map arrival) := by
  induction body generalizing seen with
  | nil => rfl
  | cons answer body ih =>
    rcases answer with _ | (e | (d | t))
    · exact ih seen
    · exact congrArg (Except.error e :: ·) (ih seen)
    · rw [arrivals_data, reference, sseParser_parse, sseParser_parse, ← ih, List.length_map,
        ← List.map_drop]
      rfl
    · exact ih seen

theorem batchItems_faultless [Buf β] {body : Body β ε} (h : Faultless body) :
    batchItems [] body = (batchEvents (Body.dataBytes body)).map .ok := by
  rw [batchItems_eq_reference, reference_eq_marked, marks_arrivals, errorMarks_faultless h,
    content_bytesBody, marked, sseParser_parse, sseParser_parse]
  rfl

theorem batchEvents_prefix (xs ys : Bytes) : batchEvents xs <+: batchEvents (xs ++ ys) := by
  rw [batchEvents, batchEvents, lines_append, List.foldl_append, fold_frame (ε := Empty) _
    (lines lf (unfinished lf xs ++ ys))]
  exact List.prefix_append _ _

/-- The events among the items are those of the bytes, wherever the errors stand. -/
theorem yieldedEvents_batchItems [Buf β] (seen : Bytes) (body : Body β ε) :
    batchEvents seen ++ yieldedEvents (batchItems seen body) =
      batchEvents (seen ++ Body.dataBytes body) := by
  induction body generalizing seen with
  | nil => simp [batchItems, yieldedEvents, Body.dataBytes]
  | cons answer body ih =>
    rcases answer with _ | (e | (d | t))
    · exact ih seen
    · exact ih seen
    · obtain ⟨new, hnew⟩ := batchEvents_prefix seen (Buf.bytes d)
      have hev : yieldedEvents (new.map (Except.ok (ε := ε))) = new := by
        simp [yieldedEvents, List.filterMap_map, Function.comp_def, Except.toOption]
      have hbytes : seen ++ Body.dataBytes (.ready (.ok (.data d)) :: body : Body β ε) =
          (seen ++ Buf.bytes d) ++ Body.dataBytes body := (List.append_assoc _ _ _).symm
      rw [hbytes, ← ih (seen ++ Buf.bytes d), batchItems, ← hnew, List.drop_left, yieldedEvents,
        List.filterMap_append, ← yieldedEvents, ← yieldedEvents, hev, List.append_assoc]
    · exact ih seen

theorem events_batchItems [Buf β] (body : Body β ε) :
    yieldedEvents (batchItems [] body) = batchEvents (Body.dataBytes body) := by
  simpa [batchEvents, SseStream.fresh, SseStream.new] using yieldedEvents_batchItems [] body

theorem batchItems_append [Buf β] (seen : Bytes) (as bs : Body β ε) :
    batchItems seen (as ++ bs) =
      batchItems seen as ++ batchItems (seen ++ Body.dataBytes as) bs := by
  simp only [batchItems_eq_reference, ← dataBytes_bytesBody as, ← content_arrivals]
  rw [← reference_append, ← List.map_append]
  congr 2
  exact List.map_append

/-- However often it is called, the stream has given a first part of the batch items; enough
calls give them all, and only then does the stream end, with the unterminated tail left. -/
theorem drive_new [Buf β] (body : Body β ε) :
    (∀ n, ∃ items s, drive SseStream.pollNext (SseStream.new body) n = some (items, s) ∧
      items <+: batchItems [] body) ∧
    ∃ N, ∀ n, N ≤ n → ∃ s, drive SseStream.pollNext (SseStream.new body) n =
      some (batchItems [] body, s) ∧ Ended SseStream.pollNext s ∧
      s.buffer.items = unfinished lf (Body.dataBytes body) := by
  rw [batchItems_eq_reference]
  exact LineStream.drive_opened sse_reads body

theorem yields_new [Buf β] (body : Body β ε) :
    Yields SseStream.pollNext (SseStream.new body) (batchItems [] body) := by
  rw [batchItems_eq_reference]
  exact LineStream.yields_opened sse_reads body

/-- What the parser remembers of the lines of all the bytes. -/
theorem sseParser_recall (bytes : Bytes) :
    (sseParser ε).recall lf bytes =
      memory ((lines lf bytes).foldl SseStream.consumeLine SseStream.fresh) := by
  rw [Parser.recall, sseParser_run]
  rfl

/-- At the end of the stream the parser remembers what the lines of all the bytes leave. -/
theorem ended_state [Buf β] {body : Body β ε} {n : ℕ} {items : List (Except ε SseEvent)}
    {s : SseStream ε} (hd : drive SseStream.pollNext (SseStream.new body) n = some (items, s))
    (he : Ended SseStream.pollNext s) :
    items = batchItems [] body ∧
      memory s =
        memory ((lines lf (Body.dataBytes body)).foldl SseStream.consumeLine SseStream.fresh) := by
  obtain ⟨hitems, _, hmemory⟩ := LineStream.ended_opened sse_reads hd he
  rw [batchItems_eq_reference, ← sseParser_recall (ε := ε)]
  exact ⟨hitems, hmemory⟩

theorem pollNext_end {s t : SseStream ε} (h : s.pollNext = some (t, .ready none)) :
    Ended SseStream.pollNext s :=
  LineStream.pollNext_end h

/-- The refinement, for any answers of the body, any chunks and any number of calls: no call
panics, the items received begin the batch items and are all of them once the stream ends, the
events among them are those of the concatenated data bytes, an error separates the events that
were complete before it from the later ones and touches neither the line nor the event that has
begun, and the cut into frames does not matter. -/
theorem sse_stream_refines_batch [Buf β] (body : Body β ε) :
    (∀ n, ∃ items s, drive SseStream.pollNext (SseStream.new body) n = some (items, s) ∧
      items <+: batchItems [] body ∧
      ((∃ t, s.pollNext = some (t, .ready none)) → items = batchItems [] body)) ∧
    Yields SseStream.pollNext (SseStream.new body) (batchItems [] body) ∧
    yieldedEvents (batchItems [] body) = batchEvents (Body.dataBytes body) ∧
    (∀ before e after, body = before ++ .ready (.error e) :: after →
      batchItems [] body =
        batchItems [] before ++ .error e :: batchItems (Body.dataBytes before) after ∧
      yieldedEvents (batchItems [] before) = batchEvents (Body.dataBytes before)) ∧
    (∀ (s : SseStream ε) e rest, s.readyEvents = [] → s.body = .ready (.error e) :: rest →
      s.pollNext = some ({ s with body := rest }, .ready (some (.error e)))) ∧
    (∀ (γ : Type) [Buf γ] (body' : Body γ ε) items items',
      Body.dataBytes body = Body.dataBytes body' →
      Yields SseStream.pollNext (SseStream.new body) items →
      Yields SseStream.pollNext (SseStream.new body') items' →
      yieldedEvents items = yieldedEvents items') := by
  refine ⟨?_, yields_new body, events_batchItems body, ?_, ?_, ?_⟩
  · intro n
    obtain ⟨items, s, hs, hpre⟩ := (drive_new body).1 n
    refine ⟨items, s, hs, hpre, ?_⟩
    rintro ⟨t, ht⟩
    exact yields_of_ended (yields_new body) hs (pollNext_end ht)
  · rintro before e after rfl
    exact ⟨batchItems_append [] before _, events_batchItems before⟩
  · rintro ⟨body, buffer, pending, ready, lastId⟩ e rest hready hbody
    simp only at hready hbody
    subst hready hbody
    rfl
  · intro γ _ body' items items' heq hy hy'
    rw [yields_unique hy (yields_new body), yields_unique hy' (yields_new body'),
      events_batchItems, events_batchItems, heq]

end SseRefinement
