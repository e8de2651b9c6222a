import Navar.NdjsonStreams
import Navar.SseLines

/-! # Lines cut out of a ring buffer, for any contents and any place of the wrap

The invariants of the parsers say what the old bytes of a buffer are. Here nothing is known about
them, nor about where the buffer wraps: the loops of both parsers are safe all the same. -/
namespace RingBufferScans

open ByteBuffers
open LineScanning
open SseStreams
open NdjsonStreams

variable {β ε τ σ : Type}

/-- The lines that a scan over these positions cuts, each from its start to its line feed; the
first begins where the bytes processed end. -/
def cuts (items : Bytes) : List ℕ → ℕ → List (ℕ × ℕ)
  | [], _ => []
  | position :: positions, processed =>
    if items[position]? = some lf then
      (processed, position) :: cuts items positions (position + 1)
    else cuts items positions processed

/-- The bytes processed behind the last of these lines. -/
def processedBy (lines : List (ℕ × ℕ)) (processed : ℕ) : ℕ :=
  lines.foldl (fun _ cut => cut.2 + 1) processed

/-- The lines that appending a frame cuts, from a buffer of `oldLen` bytes and the frame. -/
def frameCuts (items : Bytes) (oldLen : ℕ) : List (ℕ × ℕ) :=
  cuts items (List.range' oldLen (items.length - oldLen)) 0

def segment (items : Bytes) (cut : ℕ × ℕ) : Bytes := (items.drop cut.1).take (cut.2 - cut.1)

/-- In each branch of the copy the slices are in range and the subtractions do not underflow, and
the copy is the segment of the two slices, one behind the other. -/
structure Exact (d : VecDeque UInt8) (start stop : ℕ) : Prop where
  first : stop ≤ d.asSlices.1.length → start ≤ stop
  second : d.asSlices.1.length < stop → d.asSlices.1.length ≤ start →
    start - d.asSlices.1.length ≤ stop - d.asSlices.1.length ∧
      stop - d.asSlices.1.length ≤ d.asSlices.2.length
  both : d.asSlices.1.length < stop → start < d.asSlices.1.length →
    stop - d.asSlices.1.length ≤ d.asSlices.2.length
  copied : copyLine d start stop =
    some (segment (d.asSlices.1 ++ d.asSlices.2) (start, stop))

/-- Any two slices are those of a ring buffer. -/
theorem exists_asSlices (s1 s2 : Bytes) : ∃ d : VecDeque UInt8, d.asSlices = (s1, s2) := by
  refine ⟨⟨s1 ++ s2, (s1 ++ s2).length, s2.length, Nat.le_refl _, ?_⟩, ?_⟩
  · rw [List.length_append]
    omega
  · have hfirst : (s1 ++ s2).length - s2.length = s1.length := by
      rw [List.length_append]
      omega
    simp only [VecDeque.asSlices, hfirst, List.take_left, List.drop_left]

theorem exact_of_le {d : VecDeque UInt8} {start stop : ℕ} (h : start ≤ stop)
    (h' : stop ≤ d.items.length) : Exact d start stop := by
  have hslices := d.asSlices_append
  have hlength : d.asSlices.1.length + d.asSlices.2.length = d.items.length := by
    rw [← hslices, List.length_append]
  constructor
  · exact fun _ => h
  · intro hwrap hstart
    constructor
    · omega
    · omega
  · intro hwrap hstart
    omega
  · rw [hslices]
    exact copyLine_eq h h'

/-- The lines lie one behind the other, each ends at a line feed among the positions scanned, and
the bytes processed in the end are bytes of the buffer. -/
theorem cuts_bounds {items : Bytes} (p n processed : ℕ) (hn : p + n = items.length)
    (hp : processed ≤ p) :
    (∀ cut ∈ cuts items (List.range' p n) processed,
      cut.1 ≤ cut.2 ∧ cut.2 < items.length ∧ items[cut.2]? = some lf) ∧
      processedBy (cuts items (List.range' p n) processed) processed ≤ items.length := by
  induction n generalizing p processed with
  | zero =>
    constructor
    · intro cut hcut
      cases hcut
    · exact hp.trans (Nat.le_of_eq hn)
  | succ n ih =>
    simp only [List.range'_succ, cuts]
    split_ifs with hlf
    · obtain ⟨hcuts, hprocessed⟩ := ih (p + 1) (p + 1) (by omega) (Nat.le_refl _)
      refine ⟨?_, hprocessed⟩
      intro cut hcut
      rcases List.mem_cons.mp hcut with rfl | hcut
      · exact ⟨hp, by omega, hlf⟩
      · exact hcuts cut hcut
    · exact ih (p + 1) processed (by omega) (by omega)

/-- Every line feed among the positions ends a line. -/
theorem cuts_ends (items : Bytes) (positions : List ℕ) (processed : ℕ) :
    (cuts items positions processed).map Prod.snd =
      positions.filter fun position => items[position]? = some lf := by
  induction positions generalizing processed with
  | nil => rfl
  | cons position positions ih =>
    simp only [cuts]
    split_ifs with hlf
    · rw [List.map_cons, ih, List.filter_cons_of_pos (by simpa using hlf)]
    · rw [ih, List.filter_cons_of_neg (by simpa using hlf)]

/-- A scan of any part of any buffer has a result: the lines cut are consumed in order. -/
theorem scan_cuts (d : VecDeque UInt8) (consume : σ → Bytes → σ) (p n processed : ℕ) (s : σ)
    (hn : p + n = d.items.length) (hp : processed ≤ p) :
    scan d consume (List.range' p n) processed s =
      some (processedBy (cuts d.items (List.range' p n) processed) processed,
        ((cuts d.items (List.range' p n) processed).map (segment d.items)).foldl consume s) := by
  induction n generalizing p processed s with
  | zero => rfl
  | succ n ih =>
    have hlt : p < d.items.length := by omega
    simp only [List.range'_succ, scan, cuts, List.getElem?_eq_getElem hlt, Option.bind_eq_bind,
      Option.bind_some, Option.some.injEq]
    split_ifs with hlf
    · rw [copyLine_eq hp (Nat.le_of_lt hlt)]
      simp only [Option.bind_some]
      rw [ih (p + 1) (p + 1) _ (by omega) (Nat.le_refl _)]
      rfl
    · exact ih (p + 1) processed s (by omega) (by omega)

/-- What the loop and the removal behind it do to a buffer `pushed`, of which the bytes from
`oldLen` on are scanned. -/
structure Extracts (pushed : VecDeque UInt8) (oldLen : ℕ) (left : Bytes) : Prop where
  lines : ∀ cut ∈ frameCuts pushed.items oldLen, Exact pushed cut.1 cut.2
  ends : (frameCuts pushed.items oldLen).map Prod.snd =
    (List.range' oldLen (pushed.len - oldLen)).filter fun i => pushed.items[i]? = some lf
  processed : processedBy (frameCuts pushed.items oldLen) 0 ≤ pushed.len
  removed : left = pushed.items.drop (processedBy (frameCuts pushed.items oldLen) 0)

/-- The texts of the lines cut. -/
def frameLines (pushed : VecDeque UInt8) (oldLen : ℕ) : List Bytes :=
  (frameCuts pushed.items oldLen).map (segment pushed.items)

theorem extracts {pushed : VecDeque UInt8} {oldLen : ℕ} (h : oldLen ≤ pushed.len) {left : Bytes}
    (hleft : left = pushed.items.drop (processedBy (frameCuts pushed.items oldLen) 0)) :
    Extracts pushed oldLen left := by
  have hn : oldLen + (pushed.items.length - oldLen) = pushed.items.length := by
    simp only [VecDeque.len] at h
    omega
  obtain ⟨hcuts, hprocessed⟩ := cuts_bounds _ _ 0 hn (Nat.zero_le _)
  refine ⟨?_, cuts_ends _ _ _, hprocessed, hleft⟩
  intro cut hcut
  obtain ⟨hle, hlt, _⟩ := hcuts cut hcut
  exact exact_of_le hle (Nat.le_of_lt hlt)

theorem scan_frame {pushed : VecDeque UInt8} {oldLen : ℕ} (h : oldLen ≤ pushed.len)
    (consume : σ → Bytes → σ) (s : σ) :
    scan pushed consume (List.range' oldLen (pushed.len - oldLen)) 0 s =
      some (processedBy (frameCuts pushed.items oldLen) 0,
        (frameLines pushed oldLen).foldl consume s) := by
  apply scan_cuts pushed consume oldLen _ 0 s
  · simp only [VecDeque.len] at *
    omega
  · exact Nat.zero_le _

section streams

variable [Buf β]

def ssePushed (s : SseStream ε) (frame : β) : VecDeque UInt8 :=
  Buf.eachChunk (fun d chunk => chunk.foldl VecDeque.pushBack d) (Buf.remaining frame) frame
    s.buffer

def ndjsonPushed (s : NdjsonStream ε τ) (frame : β) : VecDeque UInt8 :=
  Buf.eachChunk VecDeque.extend (Buf.remaining frame) frame s.buffer

theorem consumeLines_buffer (s : SseStream ε) (lines : List Bytes) :
    (lines.foldl SseStream.consumeLine s).buffer = s.buffer := by
  induction lines generalizing s with
  | nil => rfl
  | cons line lines ih =>
    have hline : (s.consumeLine line).buffer = s.buffer := by
      have hkept := SseLines.processLine_buffer s s.buffer
        (LossyText.trimEnd (LossyText.fromUtf8Lossy line))
      exact (congrArg SseStream.buffer hkept :)
    rw [List.foldl_cons, ih, hline]

theorem sse_appendFrame (s : SseStream ε) (frame : β) :
    ∃ d : VecDeque UInt8,
      Extracts (ssePushed s frame) s.buffer.len d.items ∧
      s.appendFrame frame = some
        { (frameLines (ssePushed s frame) s.buffer.len).foldl SseStream.consumeLine
            { s with buffer := ssePushed s frame } with
          buffer := d } := by
  have hpush : (ssePushed s frame).items = s.buffer.items ++ Buf.bytes frame :=
    SseRefinement.pushed_items frame s.buffer
  have hlen := len_le_of_pushed hpush
  refine ⟨(processedBy (frameCuts (ssePushed s frame).items s.buffer.len) 0).repeat
    (fun d => d.popFront.2) (ssePushed s frame), extracts hlen (VecDeque.popFront_each _ _), ?_⟩
  have hscan := scan_frame hlen SseStream.consumeLine { s with buffer := ssePushed s frame }
  unfold ssePushed at hscan ⊢
  simp only [SseStream.appendFrame, Option.bind_eq_bind, hscan, Option.bind_some,
    consumeLines_buffer]

theorem ndjson_appendFrame (fromSlice : Bytes → Except ε τ) (s : NdjsonStream ε τ) (frame : β) :
    ∃ d : VecDeque UInt8,
      Extracts (ndjsonPushed s frame) s.buffer.len d.items ∧
      s.appendFrame fromSlice frame = some
        { (frameLines (ndjsonPushed s frame) s.buffer.len).foldl
            (NdjsonStream.consumeLine fromSlice) { s with buffer := ndjsonPushed s frame } with
          buffer := d } := by
  have hlen : s.buffer.len ≤ (ndjsonPushed s frame).len :=
    len_le_of_pushed (extended_items frame s.buffer)
  obtain ⟨d, hdrain, hitems⟩ := VecDeque.drainFront_items (extracts hlen rfl).processed
  refine ⟨d, extracts hlen hitems, ?_⟩
  have hscan := scan_frame hlen (NdjsonStream.consumeLine fromSlice)
    { s with buffer := ndjsonPushed s frame }
  have hbuffer : ∀ (lines : List Bytes) (u : NdjsonStream ε τ),
      (lines.foldl (NdjsonStream.consumeLine fromSlice) u).buffer = u.buffer := by
    intro lines
    induction lines with
    | nil => exact fun _ => rfl
    | cons line lines ih => exact fun u => ih _
  unfold ndjsonPushed at hscan hdrain ⊢
  simp only [NdjsonStream.appendFrame, Option.bind_eq_bind, hscan, Option.bind_some, hbuffer,
    hdrain]

/-- For any buffer whose bytes from `oldLen` on are scanned, whatever its bytes and its two
slices, and so for both parsers in any state and for any frame, the loop has a result: every line
cut is exactly the bytes between its start and its line feed, no index is out of range and no
subtraction underflows, and the bytes removed are the bytes processed. -/
theorem ring_buffer_lines_exact (fromSlice : Bytes → Except ε τ) :
    (∀ s1 s2 : Bytes, ∃ d : VecDeque UInt8, d.asSlices = (s1, s2)) ∧
    (∀ (d : VecDeque UInt8) (oldLen : ℕ), oldLen ≤ d.len →
      Extracts d oldLen (d.items.drop (processedBy (frameCuts d.items oldLen) 0)) ∧
      ∀ (σ : Type) (consume : σ → Bytes → σ) (s : σ),
        scan d consume (List.range' oldLen (d.len - oldLen)) 0 s =
          some (processedBy (frameCuts d.items oldLen) 0,
            (frameLines d oldLen).foldl consume s)) ∧
    (∀ (s : SseStream ε) (frame : β), ∃ d : VecDeque UInt8,
      (ssePushed s frame).items = s.buffer.items ++ Buf.bytes frame ∧
      Extracts (ssePushed s frame) s.buffer.len d.items ∧
      s.appendFrame frame = some
        { (frameLines (ssePushed s frame) s.buffer.len).foldl SseStream.consumeLine
            { s with buffer := ssePushed s frame } with
          buffer := d }) ∧
    ∀ (s : NdjsonStream ε τ) (frame : β), ∃ d : VecDeque UInt8,
      (ndjsonPushed s frame).items = s.buffer.items ++ Buf.bytes frame ∧
      Extracts (ndjsonPushed s frame) s.buffer.len d.items ∧
      s.appendFrame fromSlice frame = some
        { (frameLines (ndjsonPushed s frame) s.buffer.len).foldl
            (NdjsonStream.consumeLine fromSlice) { s with buffer := ndjsonPushed s frame } with
          buffer := d } := by
  refine ⟨exists_asSlices, ?_, ?_, ?_⟩
  · intro d oldLen h
    exact ⟨extracts h rfl, fun σ consume s => scan_frame h consume s⟩
  · intro s frame
    obtain ⟨d, hextracts, happ⟩ := sse_appendFrame s frame
    exact ⟨d, SseRefinement.pushed_items frame s.buffer, hextracts, happ⟩
  · intro s frame
    obtain ⟨d, hextracts, happ⟩ := ndjson_appendFrame fromSlice s frame
    exact ⟨d, extended_items frame s.buffer, hextracts, happ⟩

end streams

end RingBufferScans
