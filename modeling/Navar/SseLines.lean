import Navar.SseRefinement

/-! # The text that the event parser reads

The parser cuts bytes at line feeds and decodes each line by itself. A line feed is a character
of its own wherever it stands, so decoding all the bytes at once gives the same lines; and what
ends a line with a carriage return is trimmed away after the line has been decoded. -/
namespace SseLines

open ByteBuffers
open LineSplitting
open PollStreams
open FramedLines
open LossyText
open HttpMessages
open LineScanning
open SseStreams
open SseRefinement

variable {β γ ε ε' σ τ : Type}

section decoding

theorem lineFeed_byte : Char.ofNat lf.toNat = '\n' := by decide

theorem decode_lines (bs : Bytes) :
    lines '\n' (fromUtf8Lossy bs) = (lines lf bs).map fromUtf8Lossy ∧
      unfinished '\n' (fromUtf8Lossy bs) = fromUtf8Lossy (unfinished lf bs) := by
  have key : ∀ (ls : List Bytes) (u : Bytes), (∀ l ∈ ls, lf ∉ l) → lf ∉ u →
      lines '\n' (fromUtf8Lossy (unlines lf ls ++ u)) = ls.map fromUtf8Lossy ∧
        unfinished '\n' (fromUtf8Lossy (unlines lf ls ++ u)) = fromUtf8Lossy u := by
    intro ls u hls hu
    induction ls with
    | nil => exact lines_of_not_mem (lineFeed_not_mem hu)
    | cons l ls ih =>
      obtain ⟨hl, hls⟩ := List.forall_mem_cons.mp hls
      have hcut : fromUtf8Lossy (unlines lf (l :: ls) ++ u) =
          fromUtf8Lossy l ++ '\n' :: fromUtf8Lossy (unlines lf ls ++ u) := by
        rw [unlines_cons, List.append_assoc, List.cons_append, fromUtf8Lossy_append (by decide),
          lineFeed_byte]
      rw [hcut, (lines_terminated (lineFeed_not_mem hl) _).1,
        (lines_terminated (lineFeed_not_mem hl) _).2, (ih hls).1, (ih hls).2]
      exact ⟨rfl, rfl⟩
  have hlines : ∀ l ∈ lines lf bs, lf ∉ l := by
    intro l hl
    have hmem : l ∈ bs.splitOn lf := by
      rw [splitOn_eq_lines]
      exact List.mem_append_left _ hl
    exact not_mem_splitOn hmem
  have h := key (lines lf bs) (unfinished lf bs) hlines (not_mem_unfinished lf bs)
  rwa [unlines_lines] at h

/-- The texts of the lines that `append_frame` cuts, before it trims them. -/
def decodedLines [Buf β] (s : SseStream ε) (frame : β) : Option (List Str) := do
  let oldLen := s.buffer.len
  let buffer := Buf.eachChunk (fun d chunk => chunk.foldl VecDeque.pushBack d)
    (Buf.remaining frame) frame s.buffer
  let (_, texts) ← scan buffer (fun texts line => texts ++ [fromUtf8Lossy line])
    (List.range' oldLen (buffer.len - oldLen)) 0 []
  some texts

def readText (s : SseStream ε) (text : Str) : SseStream ε := s.processLine (trimEnd text)

theorem scan_related {R : σ → τ → Prop} {d : VecDeque UInt8} {consume : σ → Bytes → σ}
    {consume' : τ → Bytes → τ}
    (h : ∀ s t line, R s t → R (consume s line) (consume' t line)) (positions : List ℕ)
    (processed : ℕ) {s : σ} {t : τ} (hst : R s t) {q : ℕ} {s' : σ}
    (hs : scan d consume positions processed s = some (q, s')) :
    ∃ t', scan d consume' positions processed t = some (q, t') ∧ R s' t' := by
  induction positions generalizing processed s t with
  | nil =>
    obtain ⟨rfl, rfl⟩ := Prod.mk.inj (Option.some.inj hs)
    exact ⟨t, rfl, hst⟩
  | cons position positions ih =>
    simp only [scan, Option.bind_eq_bind, Option.bind_eq_some_iff] at hs ⊢
    obtain ⟨b, hb, hs⟩ := hs
    by_cases hlf : b = lf
    · rw [if_pos hlf, Option.bind_eq_some_iff] at hs
      obtain ⟨line, hline, hs⟩ := hs
      obtain ⟨t', ht, hR⟩ := ih _ (h s t line hst) hs
      refine ⟨t', ⟨b, hb, ?_⟩, hR⟩
      rw [if_pos hlf, hline]
      exact ht
    · rw [if_neg hlf] at hs
      obtain ⟨t', ht, hR⟩ := ih _ hst hs
      refine ⟨t', ⟨b, hb, ?_⟩, hR⟩
      rw [if_neg hlf]
      exact ht

theorem processLine_buffer (s : SseStream ε) (d : VecDeque UInt8) (text : Str) :
    SseStream.processLine { s with buffer := d } text =
      { s.processLine text with buffer := d } := by
  simp only [SseStream.processLine]
  split_ifs <;> rfl

/-- Appending a frame reads the decoded lines one after another, and changes the buffer. -/
theorem appendFrame_reads [Buf β] {s s' : SseStream ε} {frame : β}
    (h : s.appendFrame frame = some s') :
    ∃ texts, decodedLines s frame = some texts ∧
      s' = { texts.foldl readText s with buffer := s'.buffer } := by
  simp only [SseStream.appendFrame, Option.bind_eq_bind, Option.bind_eq_some_iff] at h
  obtain ⟨⟨processed, u⟩, hscan, hs'⟩ := h
  simp only [decodedLines]
  generalize Buf.eachChunk (fun d chunk => chunk.foldl VecDeque.pushBack d)
    (Buf.remaining frame) frame s.buffer = pushed at hscan hs' ⊢
  have hstep : ∀ (t : SseStream ε) texts line,
      t = { texts.foldl readText s with buffer := pushed } →
      t.consumeLine line =
        { (texts ++ [fromUtf8Lossy line]).foldl readText s with buffer := pushed } := by
    rintro t texts line rfl
    rw [List.foldl_append]
    exact processLine_buffer _ pushed _
  obtain ⟨texts, htexts, rfl⟩ := scan_related
    (R := fun t (texts : List Str) => t = { texts.foldl readText s with buffer := pushed })
    hstep _ _ (t := []) rfl hscan
  refine ⟨texts, by rw [htexts]; rfl, ?_⟩
  rw [← Option.some.inj hs']

/-- The frames are appended one after another; the texts are those of all the lines cut. -/
def decodeFrames [Buf β] (s : SseStream ε) : List β → Option (List Str × SseStream ε)
  | [] => some ([], s)
  | frame :: frames => do
    let texts ← decodedLines s frame
    let s ← s.appendFrame frame
    let (more, s) ← decodeFrames s frames
    some (texts ++ more, s)

theorem decodedLines_eq [Buf β] (s : SseStream ε) (frame : β) (h : lf ∉ s.buffer.items) :
    decodedLines s frame =
      some ((lines lf (s.buffer.items ++ Buf.bytes frame)).map fromUtf8Lossy) := by
  have hpush := pushed_items frame s.buffer
  simp only [decodedLines]
  generalize Buf.eachChunk (fun d chunk => chunk.foldl VecDeque.pushBack d)
    (Buf.remaining frame) frame s.buffer = pushed at hpush ⊢
  have hfold : ∀ (ls : List Bytes) (texts : List Str),
      ls.foldl (fun texts line => texts ++ [fromUtf8Lossy line]) texts =
        texts ++ ls.map fromUtf8Lossy := by
    intro ls
    induction ls with
    | nil => simp
    | cons l ls ih => intro texts; simp [ih]
  rw [scan_appended hpush h, hpush, hfold]
  rfl

theorem decodeFrames_eq [Buf β] (s : SseStream ε) (frames : List β) (h : lf ∉ s.buffer.items) :
    ∃ t, decodeFrames s frames =
        some ((lines lf (s.buffer.items ++ frames.flatMap Buf.bytes)).map fromUtf8Lossy, t) ∧
      t.buffer.items = unfinished lf (s.buffer.items ++ frames.flatMap Buf.bytes) := by
  induction frames generalizing s with
  | nil =>
    obtain ⟨hlines, hunfinished⟩ := lines_of_not_mem h
    refine ⟨s, ?_, ?_⟩
    · simp [decodeFrames, hlines]
    · simp [hunfinished]
  | cons frame frames ih =>
    obtain ⟨d, hd, happ⟩ := appendFrame_spec s frame h
    have hclean : lf ∉ d.items := by
      rw [hd]
      exact not_mem_unfinished lf _
    obtain ⟨t, ht, hbuffer⟩ := ih
      { follow s ((lines lf (s.buffer.items ++ Buf.bytes frame)).foldl SseStream.consumeLine
          (recalled (memory s))) with buffer := d } hclean
    simp only [hd] at ht hbuffer
    refine ⟨t, ?_, ?_⟩
    · simp only [decodeFrames, decodedLines_eq s frame h, happ, ht, Option.bind_eq_bind,
        Option.bind_some]
      rw [← List.map_append, ← lines_append, List.append_assoc, List.flatMap_cons]
    · rw [hbuffer, ← unfinished_append, List.append_assoc, List.flatMap_cons]

theorem fold_texts (s : SseStream ε) (ls : List Bytes) :
    ls.foldl SseStream.consumeLine s = (ls.map fromUtf8Lossy).foldl readText s :=
  (List.foldl_map (f := fromUtf8Lossy) (g := readText)).symm

/-- Under every cut into frames the texts decoded line by line are the lines of the text of all
the bytes, and they are what the stream reads. -/
theorem linewise_decoding_eq [Buf β] (frames : List β) (body : Body γ ε) [Buf γ] :
    (∃ s, decodeFrames (SseStream.new body) frames =
      some (lines '\n' (fromUtf8Lossy (frames.flatMap Buf.bytes)), s)) ∧
    (∀ (s s' : SseStream ε) (frame : β), s.appendFrame frame = some s' →
      ∃ texts, decodedLines s frame = some texts ∧
        s' = { texts.foldl readText s with buffer := s'.buffer }) ∧
    ∃ items, Yields SseStream.pollNext (SseStream.new body) items ∧
      yieldedEvents items = ((lines '\n' (fromUtf8Lossy (Body.dataBytes body))).foldl readText
        SseStream.fresh).readyEvents := by
  refine ⟨?_, ?_, ?_⟩
  · obtain ⟨s, hs, _⟩ := decodeFrames_eq (SseStream.new body) frames List.not_mem_nil
    rw [(decode_lines _).1]
    exact ⟨s, hs⟩
  · intro s s' frame h
    exact appendFrame_reads h
  · refine ⟨_, yields_new body, ?_⟩
    rw [events_batchItems, batchEvents, fold_texts, (decode_lines _).1]

end decoding

section endings

def cr : UInt8 := 13

/-- Carriage returns are put before some of the line feeds. -/
inductive CrInserted : Bytes → Bytes → Prop where
  | nil : CrInserted [] []
  | keep (b : UInt8) {xs ys : Bytes} : CrInserted xs ys → CrInserted (b :: xs) (b :: ys)
  | insert {xs ys : Bytes} : CrInserted xs ys → CrInserted (lf :: xs) (cr :: lf :: ys)

theorem trimEnd_append_cr (text : Str) : trimEnd (text ++ ['\r']) = trimEnd text := by
  have hcr : isWhitespace '\r' = true := by decide
  simp [trimEnd, hcr]

theorem consumeLine_cr (s : SseStream ε) (line : Bytes) :
    s.consumeLine (line ++ [cr]) = s.consumeLine line := by
  have hdecode : fromUtf8Lossy (line ++ [cr]) = fromUtf8Lossy line ++ ['\r'] :=
    fromUtf8Lossy_append (b := cr) (by decide) line []
  rw [SseStream.consumeLine, hdecode, trimEnd_append_cr]
  rfl

theorem crInserted_lines {xs ys : Bytes} (h : CrInserted xs ys) {begun : Bytes}
    (hbegun : lf ∉ begun) :
    List.Forall₂ (fun line line' => line' = line ∨ line' = line ++ [cr])
      (lines lf (begun ++ xs)) (lines lf (begun ++ ys)) := by
  induction h generalizing begun with
  | nil =>
    rw [(lines_of_not_mem (by simpa using hbegun)).1]
    exact .nil
  | @keep b xs ys _ ih =>
    by_cases hb : b = lf
    · rw [hb, (lines_terminated hbegun _).1, (lines_terminated hbegun _).1]
      exact .cons (Or.inl rfl) (ih List.not_mem_nil)
    · rw [List.append_cons begun b xs, List.append_cons begun b ys]
      apply ih
      simp [hbegun, Ne.symm hb]
  | insert _ ih =>
    have hcr : lf ∉ begun ++ [cr] := by
      rw [List.mem_append, not_or]
      exact ⟨hbegun, by decide⟩
    rw [List.append_cons begun cr, (lines_terminated hbegun _).1, (lines_terminated hcr _).1]
    exact .cons (Or.inr rfl) (ih List.not_mem_nil)

theorem fold_crInserted {ls ls' : List Bytes}
    (h : List.Forall₂ (fun line line' => line' = line ∨ line' = line ++ [cr]) ls ls')
    (s : SseStream ε) :
    ls'.foldl SseStream.consumeLine s = ls.foldl SseStream.consumeLine s := by
  induction h generalizing s with
  | nil => rfl
  | cons hline _ ih =>
    rw [List.foldl_cons, List.foldl_cons, ih]
    rcases hline with rfl | rfl
    · rfl
    · rw [consumeLine_cr]

/-- Enough calls end the stream; it has then given these events and has this last id. -/
def EndsWith [Buf β] (body : Body β ε) (events : List SseEvent) (lastId : Option Str) : Prop :=
  ∃ N, ∀ n, N ≤ n → ∃ items s,
    drive SseStream.pollNext (SseStream.new body) n = some (items, s) ∧
      Ended SseStream.pollNext s ∧ yieldedEvents items = events ∧ s.lastEventId = lastId

theorem endsWith_new [Buf β] (body : Body β ε) :
    EndsWith body (batchEvents (Body.dataBytes body))
      ((lines lf (Body.dataBytes body)).foldl SseStream.consumeLine
        SseStream.fresh).lastEventId := by
  obtain ⟨N, hN⟩ := (drive_new body).2
  refine ⟨N, fun n hn => ?_⟩
  obtain ⟨s, hs, he, _⟩ := hN n hn
  refine ⟨_, s, hs, he, events_batchItems body, ?_⟩
  exact congrArg Prod.snd (ended_state hs he).2

/-- A stream and one whose body has the same bytes with carriage returns before line feeds, in
whatever frames, end with the same events and the same last id. -/
theorem line_endings_do_not_matter [Buf β] [Buf γ] {body : Body β ε} {body' : Body γ ε'}
    (h : CrInserted (Body.dataBytes body) (Body.dataBytes body')) :
    ∃ events lastId, EndsWith body events lastId ∧ EndsWith body' events lastId := by
  have hfold := fold_crInserted (crInserted_lines h List.not_mem_nil) SseStream.fresh
  simp only [List.nil_append] at hfold
  have hbody' := endsWith_new body'
  rw [batchEvents, hfold] at hbody'
  exact ⟨_, _, endsWith_new body, hbody'⟩

def plainEnds : Body Bytes Unit := [.ready (.ok (.data [105, 100, 58, 55, 10, 10]))]

/-- Both line feeds follow a carriage return, the first one in another frame. -/
def crEnds : Body Bytes Unit :=
  [.ready (.ok (.data [105, 100, 58, 55, 13])), .ready (.ok (.data [10, 13, 10]))]

theorem line_endings_do_not_matter_id :
    ∃ events lastId, EndsWith plainEnds events lastId ∧ EndsWith crEnds events lastId := by
  have hinserted : CrInserted (Body.dataBytes plainEnds) (Body.dataBytes crEnds) :=
    .keep 105 (.keep 100 (.keep 58 (.keep 55 (.insert (.insert .nil)))))
  exact line_endings_do_not_matter hinserted

end endings

end SseLines
