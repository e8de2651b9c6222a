import Navar.LineStreams

/-! # The parser of newline-delimited JSON

`NdjsonStream` reads a response body frame by frame and deserializes every line. The
deserialization is arbitrary; its errors and those of the body have one type, as in the source. -/
namespace NdjsonStreams

open ByteBuffers
open LineSplitting
open PollStreams
open FramedLines
open HttpMessages
open LineScanning
open LineStreams (Fields LineStream)
open WakerTasks (Call Waker)

variable {β ε τ : Type}

structure NdjsonStream (ε τ : Type) where
  body : Body Bytes ε
  buffer : VecDeque UInt8
  queue : List (Except ε τ)

namespace NdjsonStream

def new [Buf β] (body : Body β ε) : NdjsonStream ε τ :=
  { body := bytesBody body
    buffer := VecDeque.withCapacity 256
    queue := [] }

def consumeLine (fromSlice : Bytes → Except ε τ) (s : NdjsonStream ε τ) (line : Bytes) :
    NdjsonStream ε τ :=
  { s with queue := s.queue ++ [fromSlice line] }

def appendFrame [Buf β] (fromSlice : Bytes → Except ε τ) (s : NdjsonStream ε τ) (frame : β) :
    Option (NdjsonStream ε τ) := do
  let oldLen := s.buffer.len
  let buffer := Buf.eachChunk VecDeque.extend (Buf.remaining frame) frame s.buffer
  let s := { s with buffer := buffer }
  let (processed, s) ←
    scan buffer (consumeLine fromSlice) (List.range' oldLen (buffer.len - oldLen)) 0 s
  let buffer ← s.buffer.drainFront processed
  some { s with buffer := buffer }

end NdjsonStream

/-- A line leaves nothing to the lines after it. -/
def ndjsonFields : NdjsonStream ε τ ≃ Fields ε Unit (Except ε τ) where
  toFun s := { body := s.body, buffer := s.buffer, memory := (), ready := s.queue }
  invFun f := { body := f.body, buffer := f.buffer, queue := f.ready }
  left_inv _ := rfl
  right_inv _ := rfl

def ndjsonLines (fromSlice : Bytes → Except ε τ) :
    LineStream (NdjsonStream ε τ) ε Unit (Except ε τ) τ where
  fields := ndjsonFields
  appendFrame s frame := s.appendFrame fromSlice frame
  item := id

/-- `NdjsonStream::poll_next` with its waker. -/
def ndjsonCall (fromSlice : Bytes → Except ε τ) (s : NdjsonStream ε τ) :
    Option (NdjsonStream ε τ × Poll (Option (Except ε τ)) × Waker) :=
  (ndjsonLines fromSlice).call s

/-- `NdjsonStream::poll_next`, with what it does to the waker left out. -/
def NdjsonStream.pollNext (fromSlice : Bytes → Except ε τ) (s : NdjsonStream ε τ) :
    Option (NdjsonStream ε τ × Poll (Option (Except ε τ))) :=
  Call.poll (ndjsonCall fromSlice) s

/-- The items of a body by its bytes and errors alone: one item for each line, an error of the
body after the lines completed before it. -/
def batchItems (fromSlice : Bytes → Except ε τ) (seen total : Bytes) :
    List (Bytes × ε) → List (Except ε τ)
  | [] => ((lines lf total).drop (lines lf seen).length).map fromSlice
  | (upto, e) :: rest =>
    ((lines lf upto).drop (lines lf seen).length).map fromSlice ++
      .error e :: batchItems fromSlice upto total rest

def ndjsonParser (fromSlice : Bytes → Except ε τ) : Parser UInt8 Unit (Except ε τ) where
  start := ()
  step _ line := ((), [fromSlice line])

section

variable (fromSlice : Bytes → Except ε τ)

theorem ndjsonParser_run (ls : List Bytes) :
    ((ndjsonParser fromSlice).run () ls).2 = ls.map fromSlice := by
  induction ls with
  | nil => rfl
  | cons l ls ih => exact congrArg (fromSlice l :: ·) ih

theorem batchItems_eq_marked (seen total : Bytes) (ms : List (Bytes × ε)) :
    batchItems fromSlice seen total ms =
      marked (ndjsonParser fromSlice) lf Except.error seen total ms := by
  have hparse : ∀ bytes, (ndjsonParser fromSlice).parse lf bytes = (lines lf bytes).map fromSlice :=
    fun bytes => ndjsonParser_run fromSlice _
  induction ms generalizing seen with
  | nil => simp [batchItems, marked, hparse]
  | cons m ms ih => simp [batchItems, marked, hparse, ih]

def bodyItems [Buf β] (seen : Bytes) (body : Body β ε) : List (Except ε τ) :=
  batchItems fromSlice seen (seen ++ Body.dataBytes body) (Body.errorMarks seen body)

theorem bodyItems_eq_reference [Buf β] (seen : Bytes) (body : Body β ε) :
    bodyItems fromSlice seen body =
      reference (ndjsonParser fromSlice) lf Except.error seen ((bytesBody body).map arrival) := by
  rw [bodyItems, batchItems_eq_marked, reference_eq_marked, marks_arrivals,
    content_bytesBody]

theorem bodyItems_append [Buf β] (seen : Bytes) (as bs : Body β ε) :
    bodyItems fromSlice seen (as ++ bs) =
      bodyItems fromSlice seen as ++ bodyItems fromSlice (seen ++ Body.dataBytes as) bs := by
  simp only [bodyItems_eq_reference, ← dataBytes_bytesBody as, ← content_arrivals]
  rw [← reference_append, ← List.map_append]
  congr 2
  exact List.map_append

theorem bodyItems_error [Buf β] (seen : Bytes) (e : ε) (body : Body β ε) :
    bodyItems fromSlice seen (.ready (.error e) :: body) =
      .error e :: bodyItems fromSlice seen body := by
  simp only [bodyItems_eq_reference]
  rfl

theorem bodyItems_faultless [Buf β] {body : Body β ε} (h : Faultless body) :
    bodyItems fromSlice [] body = (lines lf (Body.dataBytes body)).map fromSlice := by
  rw [bodyItems, errorMarks_faultless h, batchItems]
  rfl

theorem batchItems_bind (seen total : Bytes) (ms : List (Bytes × ε)) :
    batchItems fromSlice seen total ms =
      (batchItems Except.ok seen total ms).map (· >>= fromSlice) := by
  have hline : ∀ ls : List Bytes,
      (ls.map Except.ok).map ((· >>= fromSlice) : Except ε Bytes → Except ε τ) =
        ls.map fromSlice := by
    intro ls
    rw [List.map_map]
    rfl
  induction ms generalizing seen with
  | nil => rw [batchItems, batchItems, hline]
  | cons m ms ih =>
    rw [batchItems, batchItems, ih, List.map_append, hline]
    rfl

/-- The lines among the undeserialized items are those of the bytes, wherever the errors stand. -/
theorem bodyItems_lines [Buf β] (seen : Bytes) (body : Body β ε) :
    lines lf seen ++ (bodyItems Except.ok seen body).filterMap Except.toOption =
      lines lf (seen ++ Body.dataBytes body) := by
  simp only [bodyItems_eq_reference]
  induction body generalizing seen with
  | nil => simp [bytesBody, Body.mapFrame, reference, Body.dataBytes]
  | cons answer body ih =>
    rcases answer with _ | (e | (d | t))
    · exact ih seen
    · exact ih seen
    · have hparse : ∀ bytes, (ndjsonParser (ε := ε) Except.ok).parse lf bytes =
          (lines lf bytes).map Except.ok := fun bytes => ndjsonParser_run Except.ok _
      have hok : ∀ ls : List Bytes,
          (ls.map (Except.ok (ε := ε))).filterMap Except.toOption = ls := by
        simp [List.filterMap_map, Function.comp_def, Except.toOption]
      have hbytes : seen ++ Body.dataBytes (.ready (.ok (.data d)) :: body : Body β ε) =
          (seen ++ Buf.bytes d) ++ Body.dataBytes body := (List.append_assoc _ _ _).symm
      rw [hbytes, ← ih (seen ++ Buf.bytes d), arrivals_data, reference, List.filterMap_append,
        hparse, hparse, List.length_map, ← List.map_drop, hok, lines_append, List.drop_left,
        List.append_assoc]
    · exact ih seen

theorem fold_frame (s : NdjsonStream ε τ) (ls : List Bytes) :
    ls.foldl (NdjsonStream.consumeLine fromSlice) s =
      { s with queue := s.queue ++ ls.map fromSlice } := by
  induction ls generalizing s with
  | nil => simp
  | cons l ls ih => simp [ih, NdjsonStream.consumeLine]

omit fromSlice in
theorem extended_items [Buf β] (frame : β) (d : VecDeque UInt8) :
    (Buf.eachChunk VecDeque.extend (Buf.remaining frame) frame d).items =
      d.items ++ Buf.bytes frame :=
  eachChunk_spec VecDeque.items VecDeque.extend_items _ frame d (Nat.le_refl _)

/-- What appending a frame does, whatever its chunks and the place where the buffer wraps, if
no line feed was left in the buffer. -/
theorem appendFrame_spec [Buf β] (s : NdjsonStream ε τ) (frame : β) (h : lf ∉ s.buffer.items) :
    ∃ d, d.items = unfinished lf (s.buffer.items ++ Buf.bytes frame) ∧
      s.appendFrame fromSlice frame = some
        { s with
          buffer := d
          queue := s.queue ++ (lines lf (s.buffer.items ++ Buf.bytes frame)).map fromSlice } := by
  have hpush := extended_items frame s.buffer
  simp only [NdjsonStream.appendFrame, Option.bind_eq_bind]
  generalize Buf.eachChunk VecDeque.extend (Buf.remaining frame) frame s.buffer = pushed
    at hpush ⊢
  have hdrain : pushed.len - (unfinished lf pushed.items).length ≤ pushed.len := Nat.sub_le _ _
  obtain ⟨d, hd, hitems⟩ := VecDeque.drainFront_items hdrain
  rw [scan_appended hpush h, fold_frame, ← hpush]
  simp only [Option.bind_some, hd]
  exact ⟨d, hitems.trans (drop_lines pushed.items), rfl⟩

theorem ndjson_reader (s : NdjsonStream ε τ) :
    (ndjsonLines fromSlice).reader s = ⟨s.body.map arrival, s.buffer.items, (), s.queue⟩ := by
  simp [LineStream.reader, ndjsonLines, ndjsonFields]

theorem ndjson_reads : (ndjsonLines fromSlice).Reads (ndjsonParser fromSlice) := by
  intro s frame hclean
  obtain ⟨d, hd, happ⟩ := appendFrame_spec fromSlice s frame hclean
  refine ⟨_, happ, rfl, ?_⟩
  simp only [ndjson_reader, Reader.absorb, ndjsonParser_run, hd]
  rfl

/-- However often it is called, the stream has given a first part of the batch items; enough
calls give them all, and only then does the stream end, with the unterminated tail left. -/
theorem drive_new [Buf β] (body : Body β ε) :
    (∀ n, ∃ items s,
      drive (NdjsonStream.pollNext fromSlice) (NdjsonStream.new body) n = some (items, s) ∧
      items <+: bodyItems fromSlice [] body) ∧
    ∃ N, ∀ n, N ≤ n → ∃ s,
      drive (NdjsonStream.pollNext fromSlice) (NdjsonStream.new body) n =
        some (bodyItems fromSlice [] body, s) ∧
      Ended (NdjsonStream.pollNext fromSlice) s ∧
      s.buffer.items = unfinished lf (Body.dataBytes body) := by
  rw [bodyItems_eq_reference]
  exact LineStream.drive_opened (ndjson_reads fromSlice) body

theorem yields_new [Buf β] (body : Body β ε) :
    Yields (NdjsonStream.pollNext fromSlice) (NdjsonStream.new body)
      (bodyItems fromSlice [] body) := by
  rw [bodyItems_eq_reference]
  exact LineStream.yields_opened (ndjson_reads fromSlice) body

theorem pollNext_end {s t : NdjsonStream ε τ}
    (h : s.pollNext fromSlice = some (t, .ready none)) :
    Ended (NdjsonStream.pollNext fromSlice) s :=
  LineStream.pollNext_end h

/-- The refinement, for any deserialization, any answers of the body, any chunks and any number
of calls: no call panics and the items received begin the batch items, which are all there when
the stream ends; each line gives one item by itself, an error of the body stands between the
lines complete before it and the later ones, the cut into frames does not matter, and without
errors the lines are those of the collected body. -/
theorem ndjson_stream_refines_batch [BodyExt] [Buf β] (body : Body β ε) :
    (∀ n, ∃ items s,
      drive (NdjsonStream.pollNext fromSlice) (NdjsonStream.new body) n = some (items, s) ∧
      items <+: bodyItems fromSlice [] body ∧
      ((∃ t, s.pollNext fromSlice = some (t, .ready none)) →
        items = bodyItems fromSlice [] body)) ∧
    Yields (NdjsonStream.pollNext fromSlice) (NdjsonStream.new body)
      (bodyItems fromSlice [] body) ∧
    (bodyItems fromSlice [] body = (bodyItems Except.ok [] body).map (· >>= fromSlice) ∧
      (bodyItems Except.ok [] body).filterMap Except.toOption =
        lines lf (Body.dataBytes body)) ∧
    (∀ before e after, body = before ++ .ready (.error e) :: after →
      bodyItems fromSlice [] body = bodyItems fromSlice [] before ++
        .error e :: bodyItems fromSlice (Body.dataBytes before) after) ∧
    (∀ (γ : Type) [Buf γ] (body' : Body γ ε),
      Body.dataBytes body' = Body.dataBytes body →
      Body.errorMarks [] body' = Body.errorMarks [] body →
      Yields (NdjsonStream.pollNext fromSlice) (NdjsonStream.new body')
        (bodyItems fromSlice [] body)) ∧
    (Faultless body → ∃ bytes, collectBytes body = .ok bytes ∧
      Yields (NdjsonStream.pollNext fromSlice) (NdjsonStream.new body)
        ((lines lf bytes).map fromSlice)) := by
  refine ⟨?_, yields_new fromSlice body, ⟨batchItems_bind fromSlice _ _ _, ?_⟩, ?_, ?_, ?_⟩
  · intro n
    obtain ⟨items, s, hs, hpre⟩ := (drive_new fromSlice body).1 n
    refine ⟨items, s, hs, hpre, ?_⟩
    rintro ⟨t, ht⟩
    exact yields_of_ended (yields_new fromSlice body) hs (pollNext_end fromSlice ht)
  · exact bodyItems_lines [] body
  · rintro before e after rfl
    rw [bodyItems_append, bodyItems_error]
    rfl
  · intro γ _ body' hdata hmarks
    have hitems : bodyItems fromSlice [] body' = bodyItems fromSlice [] body := by
      rw [bodyItems, bodyItems, hdata, hmarks]
    rw [← hitems]
    exact yields_new fromSlice body'
  · intro hfaultless
    refine ⟨Body.dataBytes body, collectBytes_ok_iff.mpr ⟨hfaultless, rfl⟩, ?_⟩
    rw [← bodyItems_faultless fromSlice hfaultless]
    exact yields_new fromSlice body

/-- When the stream of a body without errors has ended, every terminated line has given its item,
and the bytes behind the last line feed are in the buffer: they have given none. -/
theorem unterminated_tail_gives_no_item [Buf β] {body : Body β ε} (hfaultless : Faultless body)
    {n : ℕ} {items : List (Except ε τ)} {s t : NdjsonStream ε τ}
    (hd : drive (NdjsonStream.pollNext fromSlice) (NdjsonStream.new body) n = some (items, s))
    (hend : s.pollNext fromSlice = some (t, .ready none)) :
    items = (lines lf (Body.dataBytes body)).map fromSlice ∧
      unlines lf (lines lf (Body.dataBytes body)) ++ t.buffer.items = Body.dataBytes body ∧
      lf ∉ t.buffer.items := by
  have he : Ended (NdjsonStream.pollNext fromSlice) s := pollNext_end fromSlice hend
  obtain rfl : s = t := by
    rw [he] at hend
    exact congrArg Prod.fst (Option.some.inj hend)
  obtain ⟨hitems, hbuffer, _⟩ := LineStream.ended_opened (ndjson_reads fromSlice) hd he
  rw [← bodyItems_eq_reference, bodyItems_faultless fromSlice hfaultless] at hitems
  have htail : s.buffer.items = unfinished lf (Body.dataBytes body) := hbuffer
  rw [htail]
  exact ⟨hitems, unlines_lines lf _, not_mem_unfinished lf _⟩

end

/-- A record and the beginning of another one. -/
def cutShort : Body Bytes Unit := [.ready (.ok (.data [49, 10, 50]))]

theorem unterminated_tail_gives_no_item_cut_short :
    ∃ s : NdjsonStream Unit Bytes,
      drive (NdjsonStream.pollNext .ok) (NdjsonStream.new cutShort) 2 = some ([.ok [49]], s) ∧
      unlines lf (lines lf (Body.dataBytes cutShort)) ++ s.buffer.items = [49, 10, 50] := by
  have hfaultless : Faultless cutShort := by
    intro e
    simp [cutShort]
  obtain ⟨s, hs, he⟩ : ∃ s : NdjsonStream Unit Bytes,
      drive (NdjsonStream.pollNext .ok) (NdjsonStream.new cutShort) 2 = some ([.ok [49]], s) ∧
      s.pollNext .ok = some (s, .ready none) := ⟨_, rfl, rfl⟩
  exact ⟨s, hs, (unterminated_tail_gives_no_item .ok hfaultless hs he).2.1⟩

/-- The stream has ended, and the byte of the second record is in no line that was reported. -/
theorem second_record_not_reported :
    ∃ s : NdjsonStream Unit Bytes,
      drive (NdjsonStream.pollNext .ok) (NdjsonStream.new cutShort) 2 = some ([.ok [49]], s) ∧
      s.pollNext .ok = some (s, .ready none) ∧ 50 ∈ Body.dataBytes cutShort ∧
      ∀ line, .ok line ∈ ([.ok [49]] : List (Except Unit Bytes)) → 50 ∉ line := by
  refine ⟨_, rfl, rfl, by decide, ?_⟩
  intro line hline
  cases List.mem_singleton.mp hline
  decide

end NdjsonStreams
