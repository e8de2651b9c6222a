import Navar.SseRefinement

/-! # What the event parser reads of a well-formed event stream

An event is written in the wire form of the Server-Sent Events specification: `event: ` and
`id: ` lines if it has a name and an id, one `data: ` line for each line of the data, and an
empty line. The parser trims the line and the value, and starts the data at the first piece that
is not empty. -/
namespace SseRoundTrip

open ByteBuffers
open LineSplitting
open PollStreams
open LossyText
open HttpMessages
open LineScanning
open SseStreams
open SseRefinement

/-- A name or an id that the wire form can carry. -/
abbrev FieldText := { s : Str // '\r' ∉ s ∧ '\n' ∉ s ∧ '\x00' ∉ s }

structure WireEvent where
  event : Option FieldText
  id : Option FieldText
  data : { s : Str // '\r' ∉ s }

namespace WireEvent

def toEvent (ev : WireEvent) : SseEvent where
  id := ev.id.map Subtype.val
  event := ev.event.map Subtype.val
  data := ev.data.val

def field (name value : Str) : Str := name ++ ':' :: ' ' :: value

def pieces (ev : WireEvent) : List Str := ev.data.val.splitOn '\n'

def wireLines (ev : WireEvent) : List Str :=
  (ev.event.toList.map fun e => field SseStream.eventName e.val) ++
    (ev.id.toList.map fun i => field SseStream.idName i.val) ++
    ev.pieces.map (field SseStream.dataName) ++ [[]]

end WireEvent

open WireEvent

def wireForm (evs : List WireEvent) : Bytes :=
  unlines lf (evs.flatMap fun ev => ev.wireLines.map utf8)

def trim (s : Str) : Str := trimStart (trimEnd s)

def readBack (ev : WireEvent) : SseEvent :=
  (ev.pieces.map trim).foldl SseEvent.pushData
    { id := ev.id.map fun i => trim i.val
      event := ev.event.map fun e => trim e.val }

section trimming

theorem trim_sublist (s : Str) : (trim s).Sublist s :=
  (List.dropWhile_suffix _).sublist.trans (List.rdropWhile_prefix _ _).sublist

theorem trim_eq_of_length {s : Str} (h : s.length ≤ (trim s).length) : trim s = s :=
  (trim_sublist s).eq_of_length_le h

def Trimmed (s : Str) : Prop :=
  s.head?.all (fun c => !isWhitespace c) = true ∧ s.getLast?.all (fun c => !isWhitespace c) = true

instance (s : Str) : Decidable (Trimmed s) := inferInstanceAs (Decidable (_ ∧ _))

theorem trim_eq_self_iff (s : Str) : trim s = s ↔ Trimmed s := by
  have hstart : trimStart s = s ↔ s.head?.all (fun c => !isWhitespace c) = true := by
    cases s with
    | nil => simp [trimStart]
    | cons c s =>
      rw [trimStart, List.dropWhile_eq_self_iff]
      simp
  have hend : trimEnd s = s ↔ s.getLast?.all (fun c => !isWhitespace c) = true := by
    rw [trimEnd, List.rdropWhile_eq_self_iff]
    by_cases hs : s = []
    · simp [hs]
    · simp [hs, List.getLast?_eq_some_getLast]
  rw [Trimmed, ← hstart, ← hend]
  constructor
  · intro h
    have hlen : s.length ≤ (trimEnd s).length := by
      have hsuffix := (List.dropWhile_suffix isWhitespace (l := trimEnd s)).length_le
      rw [← trimStart, ← trim, h] at hsuffix
      exact hsuffix
    have he : trimEnd s = s := (List.rdropWhile_prefix _ _).eq_of_length_le hlen
    rw [trim, he] at h
    exact ⟨h, he⟩
  · rintro ⟨hs, he⟩
    rw [trim, he, hs]

theorem trimEnd_cons_of_not {c : Char} (h : isWhitespace c = false) (xs ys : Str) :
    trimEnd (xs ++ c :: ys) = xs ++ c :: trimEnd ys := by
  simp only [trimEnd, List.rdropWhile, List.reverse_append, List.reverse_cons,
    List.append_assoc, List.singleton_append]
  rw [List.dropWhile_append]
  split
  next hempty =>
    rw [List.isEmpty_iff.mp hempty]
    simp [h]
  next => simp

theorem trim_space (s : Str) : trim (' ' :: s) = trim s := by
  have hspace : isWhitespace ' ' = true := by decide
  simp only [trim, trimStart, trimEnd, List.rdropWhile, List.reverse_cons]
  rw [List.dropWhile_append]
  split
  next hempty =>
    rw [List.isEmpty_iff.mp hempty]
    simp [hspace]
  next => simp [hspace]

end trimming

section reading

variable {ε : Type}

/-- A line of the wire form sets its field to the trimmed value. -/
theorem processLine_field (s : SseStream ε) {name : Str} (hname : ':' ∉ name) (value : Str) :
    s.processLine (trimEnd (field name value)) =
      if name = SseStream.dataName then
        { s with pendingEvent := s.pendingEvent.pushData (trim value) }
      else if name = SseStream.idName then
        { s with
          pendingEvent := { s.pendingEvent with id := some (trim value) }
          lastEventId := some (trim value) }
      else if name = SseStream.eventName then
        { s with pendingEvent := { s.pendingEvent with event := some (trim value) } }
      else s := by
  have hcolon : isWhitespace ':' = false := by decide
  have hline : trimEnd (field name value) = name ++ ':' :: trimEnd (' ' :: value) :=
    trimEnd_cons_of_not hcolon name (' ' :: value)
  have hne : ∀ c ∈ name, decide (c ≠ ':') = true := by
    intro c hc
    exact decide_eq_true fun h => hname (h ▸ hc)
  have hsplit : SseStream.splitField (trimEnd (field name value)) =
      (name, some (trimEnd (' ' :: value))) := by
    rw [hline, SseStream.splitField, List.takeWhile_append_of_pos hne,
      List.dropWhile_append_of_pos hne]
    simp
  have hempty : (trimEnd (field name value)).isEmpty = false := by
    rw [hline]
    simp
  have hvalue : trimStart (trimEnd (' ' :: value)) = trim value := trim_space value
  simp [SseStream.processLine, hempty, hsplit, hvalue]

theorem consumeLine_utf8 (s : SseStream ε) (line : Str) :
    s.consumeLine (utf8 line) = s.processLine (trimEnd line) := by
  rw [SseStream.consumeLine, fromUtf8Lossy_utf8]

theorem fold_data (s : SseStream ε) (pieces : List Str) :
    ((pieces.map (field SseStream.dataName)).map utf8).foldl SseStream.consumeLine s =
      { s with pendingEvent := (pieces.map trim).foldl SseEvent.pushData s.pendingEvent } := by
  induction pieces generalizing s with
  | nil => rfl
  | cons piece pieces ih =>
    have hpiece := processLine_field s (show ':' ∉ SseStream.dataName by decide) piece
    simp only [↓reduceIte] at hpiece
    simp only [List.map_cons, List.foldl_cons]
    rw [consumeLine_utf8, hpiece, ih]

theorem fold_event (s : SseStream ε) (event : Option FieldText) :
    ((event.toList.map fun e => field SseStream.eventName e.val).map utf8).foldl
        SseStream.consumeLine s =
      { s with
        pendingEvent := { s.pendingEvent with
          event := (event.map fun e => trim e.val).or s.pendingEvent.event } } := by
  cases event with
  | none => rfl
  | some e =>
    simp only [Option.toList_some, List.map_cons, List.map_nil, List.foldl_cons, List.foldl_nil]
    rw [consumeLine_utf8, processLine_field s (by decide) e.val]
    rfl

theorem fold_id (s : SseStream ε) (id : Option FieldText) :
    ((id.toList.map fun i => field SseStream.idName i.val).map utf8).foldl
        SseStream.consumeLine s =
      { s with
        pendingEvent := { s.pendingEvent with
          id := (id.map fun i => trim i.val).or s.pendingEvent.id }
        lastEventId := (id.map fun i => trim i.val).or s.lastEventId } := by
  cases id with
  | none => rfl
  | some i =>
    simp only [Option.toList_some, List.map_cons, List.map_nil, List.foldl_cons, List.foldl_nil]
    rw [consumeLine_utf8, processLine_field s (by decide) i.val]
    rfl

/-- The lines of one event complete one event and leave nothing pending. -/
theorem fold_wireLines (s : SseStream ε) (ev : WireEvent) (h : s.pendingEvent = {}) :
    (ev.wireLines.map utf8).foldl SseStream.consumeLine s =
      { s with
        readyEvents := s.readyEvents ++ [readBack ev]
        lastEventId := (ev.id.map fun i => trim i.val).or s.lastEventId } := by
  simp only [wireLines, List.map_append, List.foldl_append]
  rw [fold_event, fold_id, fold_data]
  have hblank : ∀ t : SseStream ε, t.consumeLine (utf8 []) =
      { t with readyEvents := t.readyEvents ++ [t.pendingEvent], pendingEvent := {} } := by
    intro t
    rw [consumeLine_utf8]
    rfl
  simp only [List.map_cons, List.map_nil, List.foldl_cons, List.foldl_nil]
  rw [hblank]
  simp [h, readBack]

theorem fold_wireForm (s : SseStream ε) (evs : List WireEvent) (h : s.pendingEvent = {}) :
    ((evs.flatMap fun ev => ev.wireLines.map utf8).foldl SseStream.consumeLine s).readyEvents =
      s.readyEvents ++ evs.map readBack := by
  induction evs generalizing s with
  | nil => simp
  | cons ev evs ih =>
    rw [List.flatMap_cons, List.foldl_append, fold_wireLines s ev h, ih]
    · simp
    · exact h

theorem lf_not_mem_utf8 {s : Str} (h : '\n' ∉ s) : lf ∉ utf8 s :=
  fun hlf => h (lineFeed_mem_utf8 hlf)

theorem wireLines_no_lf (ev : WireEvent) : ∀ line ∈ ev.wireLines, '\n' ∉ line := by
  have hfield : ∀ {name value : Str}, '\n' ∉ name → '\n' ∉ value → '\n' ∉ field name value := by
    intro name value hname hvalue
    simp [field, hname, hvalue]
  intro line hline
  simp only [wireLines, List.mem_append, List.mem_map, List.mem_singleton] at hline
  rcases hline with ((⟨e, _, rfl⟩ | ⟨i, _, rfl⟩) | ⟨piece, hpiece, rfl⟩) | rfl
  · exact hfield (by decide) e.property.2.1
  · exact hfield (by decide) i.property.2.1
  · exact hfield (by decide) (not_mem_splitOn hpiece)
  · exact List.not_mem_nil

theorem batchEvents_wireForm (evs : List WireEvent) :
    batchEvents (wireForm evs) = evs.map readBack := by
  have hlines : lines lf (wireForm evs) = evs.flatMap fun ev => ev.wireLines.map utf8 := by
    refine (lines_unlines ?_).1
    intro l hl
    obtain ⟨ev, _, hl⟩ := List.mem_flatMap.mp hl
    obtain ⟨line, hline, rfl⟩ := List.mem_map.mp hl
    exact lf_not_mem_utf8 (wireLines_no_lf ev line hline)
  rw [batchEvents, hlines, fold_wireForm]
  · rfl
  · rfl

end reading

section joining

def joined (data : Str) (pieces : List Str) : Str :=
  pieces.foldl (fun data value => (if data.isEmpty then data else data ++ ['\n']) ++ value) data

def following (pieces : List Str) : Str := pieces.flatMap ('\n' :: ·)

theorem fold_pushData (ev : SseEvent) (pieces : List Str) :
    pieces.foldl SseEvent.pushData ev = { ev with data := joined ev.data pieces } := by
  induction pieces generalizing ev with
  | nil => rfl
  | cons piece pieces ih =>
    rw [List.foldl_cons, ih]
    rfl

theorem joined_cons (data piece : Str) (pieces : List Str) :
    joined data (piece :: pieces) =
      joined ((if data.isEmpty then data else data ++ ['\n']) ++ piece) pieces := rfl

theorem joined_of_ne_nil {data : Str} (h : data ≠ []) (pieces : List Str) :
    joined data pieces = data ++ following pieces := by
  induction pieces generalizing data with
  | nil => simp [joined, following]
  | cons piece pieces ih =>
    rw [joined_cons, ih]
    · simp [following, h]
    · simp [h]

theorem joined_length_le (data : Str) (pieces : List Str) :
    (joined data pieces).length ≤ (data ++ following pieces).length := by
  induction pieces generalizing data with
  | nil => simp [joined, following]
  | cons piece pieces ih =>
    have hle := ih ((if data.isEmpty then data else data ++ ['\n']) ++ piece)
    rw [joined_cons]
    apply Nat.le_trans hle
    by_cases hd : data = []
    · simp [hd, following]
    · simp [hd, following]

theorem joined_nil_length_lt {pieces : List Str} (h : pieces ≠ []) :
    (joined [] pieces).length < (following pieces).length := by
  obtain ⟨piece, rest, rfl⟩ := List.exists_cons_of_ne_nil h
  have hle := joined_length_le piece rest
  have hjoin : joined [] (piece :: rest) = joined piece rest := joined_cons [] piece rest
  rw [hjoin]
  simp only [following, List.flatMap_cons, List.length_append, List.length_cons] at hle ⊢
  omega

theorem following_trim_length_le (pieces : List Str) :
    (following (pieces.map trim)).length ≤ (following pieces).length := by
  induction pieces with
  | nil => exact Nat.le_refl _
  | cons piece pieces ih =>
    have hpiece := (trim_sublist piece).length_le
    simp only [following, List.map_cons, List.flatMap_cons, List.length_append,
      List.length_cons] at ih ⊢
    omega

theorem trimmed_of_following {pieces : List Str}
    (h : (following pieces).length ≤ (following (pieces.map trim)).length) :
    ∀ piece ∈ pieces, trim piece = piece := by
  induction pieces with
  | nil =>
    intro piece hpiece
    exact (List.not_mem_nil hpiece).elim
  | cons first pieces ih =>
    have hfirst := (trim_sublist first).length_le
    have hrest := following_trim_length_le pieces
    simp only [following, List.map_cons, List.flatMap_cons, List.length_append,
      List.length_cons] at ih h hrest
    intro piece hpiece
    rcases List.mem_cons.mp hpiece with rfl | hpiece
    · exact trim_eq_of_length (by omega)
    · exact ih (by omega) piece hpiece

theorem map_trim {pieces : List Str} (h : ∀ piece ∈ pieces, trim piece = piece) :
    pieces.map trim = pieces := (List.map_congr_left h).trans (List.map_id pieces)

/-- The pieces are read back as they were joined exactly when trimming changes none of them
and the first is not empty, unless it is the only one. -/
theorem joined_trim_iff (first : Str) (pieces : List Str) :
    joined [] ((first :: pieces).map trim) = first ++ following pieces ↔
      (∀ piece ∈ first :: pieces, trim piece = piece) ∧ (first = [] → pieces = []) := by
  have hcons : joined [] ((first :: pieces).map trim) = joined (trim first) (pieces.map trim) :=
    joined_cons [] (trim first) (pieces.map trim)
  rw [hcons]
  constructor
  · intro h
    have hjoin := joined_length_le (trim first) (pieces.map trim)
    have hfollow := following_trim_length_le pieces
    have htrim := (trim_sublist first).length_le
    rw [h] at hjoin
    simp only [List.length_append] at hjoin
    have hfirst : trim first = first := trim_eq_of_length (by omega)
    have hpieces : ∀ piece ∈ pieces, trim piece = piece := trimmed_of_following (by omega)
    refine ⟨List.forall_mem_cons.mpr ⟨hfirst, hpieces⟩, ?_⟩
    intro hnil
    by_contra hne
    have hmap := map_trim hpieces
    rw [hfirst, hmap, hnil] at h
    have hlt := joined_nil_length_lt hne
    rw [h] at hlt
    exact Nat.lt_irrefl _ hlt
  · rintro ⟨htrim, hnil⟩
    obtain ⟨hfirst, hpieces⟩ := List.forall_mem_cons.mp htrim
    have hmap := map_trim hpieces
    rw [hfirst, hmap]
    by_cases hne : first = []
    · rw [hne, hnil hne]
      rfl
    · exact joined_of_ne_nil hne pieces

theorem pieces_join (data : Str) :
    ∃ first pieces, data.splitOn '\n' = first :: pieces ∧ data = first ++ following pieces := by
  obtain ⟨first, pieces, hsplit⟩ := List.exists_cons_of_ne_nil (List.splitOn_ne_nil '\n' data)
  refine ⟨first, pieces, hsplit, ?_⟩
  have hjoin : ∀ (x : Str) (xs : List Str), ['\n'].intercalate (x :: xs) = x ++ following xs := by
    intro x xs
    induction xs generalizing x with
    | nil => simp [following]
    | cons y ys ih =>
      rw [List.intercalate_cons_of_ne_nil (List.cons_ne_nil y ys), ih]
      simp [following]
  rw [← hjoin, ← hsplit, List.intercalate_splitOn]

/-- Nothing that the parser trims away or drops. -/
structure Clean (ev : WireEvent) : Prop where
  event : ∀ e, ev.event = some e → Trimmed e.val
  id : ∀ i, ev.id = some i → Trimmed i.val
  pieces : ∀ piece ∈ ev.pieces, Trimmed piece
  start : ev.data.val.head? ≠ some '\n'

theorem trim_field_iff (x : Option FieldText) :
    (x.map fun e => trim e.val) = x.map Subtype.val ↔ ∀ e, x = some e → Trimmed e.val := by
  cases x with
  | none => simp
  | some e => simp [trim_eq_self_iff]

theorem readBack_data_iff (ev : WireEvent) :
    joined [] (ev.pieces.map trim) = ev.data.val ↔
      (∀ piece ∈ ev.pieces, Trimmed piece) ∧ ev.data.val.head? ≠ some '\n' := by
  obtain ⟨first, pieces, hsplit, hdata⟩ := pieces_join ev.data.val
  have hlf : '\n' ∉ first := not_mem_splitOn (hsplit ▸ List.mem_cons_self)
  have hhead : ev.data.val.head? ≠ some '\n' ↔ (first = [] → pieces = []) := by
    rw [hdata]
    cases first with
    | nil => cases pieces <;> simp [following]
    | cons c first =>
      have hc : c ≠ '\n' := fun h => hlf (h ▸ List.mem_cons_self)
      simp [hc]
  rw [hhead, WireEvent.pieces, hsplit]
  simp only [← trim_eq_self_iff]
  rw [← joined_trim_iff first pieces, ← hdata]

theorem readBack_eq_iff (ev : WireEvent) : readBack ev = ev.toEvent ↔ Clean ev := by
  have hread : readBack ev =
      { id := ev.id.map fun i => trim i.val
        event := ev.event.map fun e => trim e.val
        data := joined [] (ev.pieces.map trim) } := fold_pushData _ _
  rw [hread, toEvent, SseEvent.mk.injEq, trim_field_iff, trim_field_iff, readBack_data_iff]
  constructor
  · rintro ⟨hid, hevent, hpieces, hstart⟩
    exact ⟨hevent, hid, hpieces, hstart⟩
  · intro h
    exact ⟨h.id, h.event, h.pieces, h.start⟩

end joining

/-- Events written in the wire form come back under a cut into frames exactly when each of them
is clean. -/
theorem sse_payloads_roundtrip_iff {β ε : Type} [Buf β] (evs : List WireEvent) (body : Body β ε)
    (hfaultless : Faultless body) (hbytes : Body.dataBytes body = wireForm evs) :
    Yields SseStream.pollNext (SseStream.new body) (evs.map fun ev => .ok ev.toEvent) ↔
      ∀ ev ∈ evs, Clean ev := by
  have hitems : batchItems [] body = (evs.map readBack).map .ok := by
    rw [batchItems_faultless hfaultless, hbytes, batchEvents_wireForm]
  have hyields : Yields SseStream.pollNext (SseStream.new body) ((evs.map readBack).map .ok) :=
    hitems ▸ yields_new body
  constructor
  · intro h
    have heq := yields_unique hyields h
    rw [List.map_map, List.map_inj_left] at heq
    intro ev hev
    exact (readBack_eq_iff ev).mp (Except.ok.inj (heq ev hev))
  · intro hclean
    have heq : (evs.map readBack).map (Except.ok (ε := ε)) =
        evs.map fun ev => .ok ev.toEvent := by
      rw [List.map_map]
      exact List.map_congr_left fun ev hev =>
        congrArg Except.ok ((readBack_eq_iff ev).mpr (hclean ev hev))
    exact heq ▸ hyields

def namedEvent : WireEvent where
  event := some ⟨['p', 'u', 't'], by decide⟩
  id := some ⟨['7'], by decide⟩
  data := ⟨['a', '\n', '\n', 'b', ' ', 'c'], by decide⟩

def namedFrames : Body Bytes Unit :=
  [.ready (.ok (.data ((wireForm [namedEvent]).take 9))), .pending,
    .ready (.ok (.data ((wireForm [namedEvent]).drop 9)))]

theorem named_event_roundtrips :
    Yields SseStream.pollNext (SseStream.new namedFrames) [.ok namedEvent.toEvent] := by
  have hfaultless : Faultless namedFrames := by
    intro e
    simp [namedFrames]
  have hbytes : Body.dataBytes namedFrames = wireForm [namedEvent] := by
    simp [namedFrames, Body.dataBytes, Buf.bytes]
  have hclean : Clean namedEvent := by
    constructor
    · rintro e ⟨⟩
      exact ⟨rfl, rfl⟩
    · rintro i ⟨⟩
      exact ⟨rfl, rfl⟩
    · decide
    · decide
  exact (sse_payloads_roundtrip_iff [namedEvent] namedFrames hfaultless hbytes).mpr
    (List.forall_mem_singleton.mpr hclean)

def indentedEvent : WireEvent where
  event := none
  id := none
  data := ⟨[' ', 'x'], by decide⟩

def indentedFrames : Body Bytes Unit := [.ready (.ok (.data (wireForm [indentedEvent])))]

/-- The specification strips one space after the colon; the parser strips the second as well. -/
theorem indented_event_not_read_back :
    Faultless indentedFrames ∧ Body.dataBytes indentedFrames = wireForm [indentedEvent] ∧
      ¬Yields SseStream.pollNext (SseStream.new indentedFrames) [.ok indentedEvent.toEvent] := by
  have hfaultless : Faultless indentedFrames := by
    intro e
    simp [indentedFrames]
  have hbytes : Body.dataBytes indentedFrames = wireForm [indentedEvent] := by
    simp [indentedFrames, Body.dataBytes, Buf.bytes]
  refine ⟨hfaultless, hbytes, ?_⟩
  intro h
  have hitems := yields_unique (yields_new indentedFrames) h
  rw [batchItems_faultless hfaultless, hbytes, batchEvents_wireForm] at hitems
  have hdata : readBack indentedEvent = indentedEvent.toEvent :=
    Except.ok.inj (List.singleton_inj.mp hitems)
  exact absurd hdata (by decide)

end SseRoundTrip
