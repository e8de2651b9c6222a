import Navar.SseCommands

/-! # Reading an event stream over several connections

A reader whose connection breaks off asks the server for the events behind the last id that it has
received, and goes on with a new stream. The id of an event may have been received when the event
itself has not been: such an event is not sent again. -/
namespace SseResumption

open ByteBuffers
open LineSplitting
open LossyText
open HttpMessages
open LineScanning
open SseStreams
open SseRefinement
open SseLines
open SseRoundTrip
open SseEventIds (lastId)

variable {β ε : Type}

def idText (ev : WireEvent) : Option Str := ev.id.map Subtype.val

/-- What the server sends to a reader that names this last id. -/
def remaining (history : List WireEvent) : Option Str → List WireEvent
  | none => history
  | some i => (history.dropWhile fun ev => idText ev ≠ some i).tail

/-- The events of all connections so far, the last id, and on how many connections the last id was
ahead of the events. Each connection may break off at any byte. -/
inductive Resumed (history : List WireEvent) : List SseEvent → Option Str → ℕ → Prop where
  | start : Resumed history [] none 0
  | read {received : List SseEvent} {last : Option Str} {ahead : ℕ} {β ε : Type} [Buf β]
      {body : Body β ε} {events : List SseEvent} {id : Option Str}
      (h : Resumed history received last ahead)
      (hbytes : Body.dataBytes body <+: wireForm (remaining history last))
      (hends : EndsWith body events id) :
      Resumed history (received ++ events) (id.or last)
        (ahead + if id = lastId events then 0 else 1)

section cuts

theorem prefix_append_cases {α : Type} {ls xs ys : List α} (h : ls <+: xs ++ ys) :
    ls <+: xs ∨ ∃ ts, ls = xs ++ ts ∧ ts <+: ys := by
  rcases List.prefix_or_prefix_of_prefix h (List.prefix_append xs ys) with hle | ⟨ts, rfl⟩
  · exact Or.inl hle
  · exact Or.inr ⟨ts, rfl, (List.prefix_append_right_inj xs).mp h⟩

theorem prefix_optional {α β : Type} {ls : List β} {o : Option α} {f : α → β}
    (h : ls <+: o.toList.map f) : ∃ o', (o' = none ∨ o' = o) ∧ ls = o'.toList.map f := by
  cases o with
  | none => exact ⟨none, Or.inl rfl, List.prefix_nil.mp h⟩
  | some a =>
    rcases List.prefix_cons_iff.mp h with rfl | ⟨rest, rfl, hrest⟩
    · exact ⟨none, Or.inl rfl, rfl⟩
    · rw [List.prefix_nil.mp hrest]
      exact ⟨some a, Or.inr rfl, rfl⟩

/-- The lines of an event without the empty one, as far as they have been received. -/
def openLines (event id : Option FieldText) (pieces : List Str) : List Str :=
  (event.toList.map fun e => WireEvent.field SseStream.eventName e.val) ++
    (id.toList.map fun i => WireEvent.field SseStream.idName i.val) ++
    pieces.map (WireEvent.field SseStream.dataName)

theorem openLines_of_prefix {ev : WireEvent} {ls : List Str} (h : ls <+: ev.wireLines)
    (hne : ls ≠ ev.wireLines) : ∃ event id pieces, (id = none ∨ id = ev.id) ∧
      ls = openLines event id pieces := by
  have hlines : ev.wireLines = openLines ev.event ev.id ev.pieces ++ [[]] := rfl
  have hopen : ls <+: openLines ev.event ev.id ev.pieces := by
    rw [hlines] at h hne
    rcases List.prefix_concat_iff.mp h with heq | hle
    · exact absurd heq hne
    · exact hle
  rcases prefix_append_cases hopen with hfields | ⟨ts, rfl, hts⟩
  · rcases prefix_append_cases hfields with hevent | ⟨ts, rfl, hts⟩
    · obtain ⟨event, _, rfl⟩ := prefix_optional hevent
      exact ⟨event, none, [], Or.inl rfl, by simp [openLines]⟩
    · obtain ⟨id, hid, rfl⟩ := prefix_optional hts
      exact ⟨ev.event, id, [], hid, by simp [openLines]⟩
  · rw [List.prefix_iff_eq_take, ← List.map_take] at hts
    exact ⟨ev.event, ev.id, _, Or.inr rfl, by rw [hts]; rfl⟩

/-- Lines of an event that has not been closed dispatch nothing, but an id among them is kept. -/
theorem fold_openLines (s : SseStream ε) (event id : Option FieldText) (pieces : List Str) :
    (((openLines event id pieces).map utf8).foldl SseStream.consumeLine s).readyEvents =
        s.readyEvents ∧
      (((openLines event id pieces).map utf8).foldl SseStream.consumeLine s).lastEventId =
        (id.map fun i => trim i.val).or s.lastEventId := by
  simp only [openLines, List.map_append, List.foldl_append]
  rw [fold_event, fold_id, fold_data]
  exact ⟨rfl, rfl⟩

theorem readBack_id (ev : WireEvent) : (readBack ev).id = ev.id.map fun i => trim i.val := by
  rw [readBack, fold_pushData]

theorem lastId_cons (ev : SseEvent) (evs : List SseEvent) :
    lastId (ev :: evs) = (lastId evs).or ev.id := by
  rw [lastId, lastId, List.filterMap_cons]
  cases ev.id with
  | none => simp
  | some i => simp [List.getLast?_cons, Option.or_some]

/-- Of the lines of some events the first few: some of the events are complete, and of the next
one the id may have been read. -/
theorem fold_cut (s : SseStream ε) (hs : s.pendingEvent = {}) (evs : List WireEvent)
    {ls : List Bytes} (h : ls <+: evs.flatMap fun ev => ev.wireLines.map utf8) :
    ∃ i ≤ evs.length,
      (ls.foldl SseStream.consumeLine s).readyEvents =
        s.readyEvents ++ (evs.take i).map readBack ∧
      ((ls.foldl SseStream.consumeLine s).lastEventId =
          (lastId ((evs.take i).map readBack)).or s.lastEventId ∨
        ∃ ev, evs[i]? = some ev ∧ ev.id ≠ none ∧
          (ls.foldl SseStream.consumeLine s).lastEventId = ev.id.map fun i => trim i.val) := by
  induction evs generalizing s ls with
  | nil =>
    rw [List.prefix_nil.mp h]
    exact ⟨0, Nat.le_refl 0, by simp, Or.inl rfl⟩
  | cons ev evs ih =>
    rw [List.flatMap_cons] at h
    by_cases hall : ∃ ts, ls = ev.wireLines.map utf8 ++ ts
    · obtain ⟨ts, rfl⟩ := hall
      rw [List.foldl_append, fold_wireLines s ev hs]
      obtain ⟨i, hi, hready, hid⟩ := ih
        { s with
          readyEvents := s.readyEvents ++ [readBack ev]
          lastEventId := (ev.id.map fun i => trim i.val).or s.lastEventId } hs
        ((List.prefix_append_right_inj _).mp h)
      refine ⟨i + 1, Nat.succ_le_succ hi, ?_, ?_⟩
      · rw [hready]
        simp
      · rcases hid with hid | hid
        · left
          rw [hid, List.take_succ_cons, List.map_cons, lastId_cons, readBack_id, Option.or_assoc]
        · exact Or.inr hid
    · have hpart : ls <+: ev.wireLines.map utf8 := by
        rcases prefix_append_cases h with hle | ⟨ts, rfl, _⟩
        · exact hle
        · exact absurd ⟨ts, rfl⟩ hall
      have htaken : ls = (ev.wireLines.take ls.length).map utf8 := by
        rw [List.map_take]
        exact List.prefix_iff_eq_take.mp hpart
      have hne : ev.wireLines.take ls.length ≠ ev.wireLines := by
        intro heq
        exact hall ⟨[], by rw [List.append_nil, ← heq, ← htaken]⟩
      obtain ⟨event, id, pieces, hid, hopen⟩ :=
        openLines_of_prefix (List.take_prefix _ _) hne
      rw [hopen] at htaken
      obtain ⟨hready, hlast⟩ := fold_openLines s event id pieces
      rw [← htaken] at hready hlast
      refine ⟨0, Nat.zero_le _, by simpa using hready, ?_⟩
      rcases hid with rfl | rfl
      · exact Or.inl hlast
      · cases hev : ev.id with
        | none =>
          rw [hev] at hlast
          exact Or.inl hlast
        | some i =>
          rw [hev] at hlast
          exact Or.inr ⟨ev, rfl, by rw [hev]; exact Option.some_ne_none i, by rw [hlast, hev]; rfl⟩

theorem lines_wireForm (evs : List WireEvent) :
    lines lf (wireForm evs) = evs.flatMap fun ev => ev.wireLines.map utf8 := by
  refine (lines_unlines ?_).1
  intro l hl
  obtain ⟨ev, _, hl⟩ := List.mem_flatMap.mp hl
  obtain ⟨line, hline, rfl⟩ := List.mem_map.mp hl
  exact lf_not_mem_utf8 (wireLines_no_lf ev line hline)

/-- A stream that breaks off anywhere gives the events that are complete, and its last id is that
of the last of them or of the one after it. -/
theorem connection_cut [Buf β] {body : Body β ε} {evs : List WireEvent}
    (hclean : ∀ ev ∈ evs, Clean ev) (hbytes : Body.dataBytes body <+: wireForm evs)
    {events : List SseEvent} {id : Option Str} (hends : EndsWith body events id) :
    ∃ i ≤ evs.length, events = (evs.take i).map WireEvent.toEvent ∧
      (id = lastId events ∨ ∃ ev, evs[i]? = some ev ∧ ev.id ≠ none ∧ id = idText ev) := by
  have hcut : lines lf (Body.dataBytes body) <+: evs.flatMap fun ev => ev.wireLines.map utf8 := by
    obtain ⟨more, hmore⟩ := hbytes
    rw [← lines_wireForm, ← hmore, lines_append]
    exact List.prefix_append _ _
  obtain ⟨i, hi, hready, hid⟩ := fold_cut SseStream.fresh rfl evs hcut
  obtain ⟨hevents, hlast⟩ := SseCommands.endsWith_unique hends (endsWith_new body)
  have hread : (evs.take i).map readBack = (evs.take i).map WireEvent.toEvent :=
    List.map_congr_left fun ev hev =>
      (readBack_eq_iff ev).mpr (hclean ev (List.mem_of_mem_take hev))
  rw [batchEvents, hready, hread] at hevents
  refine ⟨i, hi, hevents, ?_⟩
  rw [hlast, hevents]
  rcases hid with hid | ⟨ev, hev, hsome, hid⟩
  · left
    rw [hid, hread]
    exact Option.or_none
  · refine Or.inr ⟨ev, hev, hsome, ?_⟩
    rw [hid, idText]
    exact (trim_field_iff ev.id).mpr (hclean ev (List.mem_of_getElem? hev)).id

end cuts

section resuming

variable {history : List WireEvent}

/-- Every event has an id, and no two events have the same one. -/
structure Identified (history : List WireEvent) : Prop where
  present : ∀ ev ∈ history, ev.id ≠ none
  nodup : (history.map idText).Nodup

theorem remaining_at (h : Identified history) {j : ℕ} {ev : WireEvent}
    (hev : history[j]? = some ev) : remaining history (idText ev) = history.drop (j + 1) := by
  obtain ⟨hlt, hget⟩ := List.getElem?_eq_some_iff.mp hev
  obtain ⟨i, hi⟩ := Option.ne_none_iff_exists'.mp (h.present ev (List.mem_of_getElem? hev))
  have htext : idText ev = some i.val := by rw [idText, hi, Option.map_some]
  have hsplit : history = history.take j ++ ev :: history.drop (j + 1) := by
    rw [← hget, List.getElem_cons_drop, List.take_append_drop]
  have hnodup := h.nodup
  rw [hsplit, List.map_append, List.map_cons, List.nodup_append] at hnodup
  have hearlier : ∀ e ∈ history.take j, decide (idText e ≠ some i.val) = true := by
    intro e he
    apply decide_eq_true
    intro heq
    exact hnodup.2.2 _ (List.mem_map_of_mem he) _ List.mem_cons_self (heq.trans htext.symm)
  rw [htext, remaining]
  conv_lhs => rw [hsplit]
  rw [List.dropWhile_append_of_pos hearlier, List.dropWhile_cons_of_neg (by simp [htext]),
    List.tail_cons]

theorem lastId_take (h : Identified history) {i : ℕ} (hi : i < history.length) :
    lastId ((history.take (i + 1)).map WireEvent.toEvent) = idText history[i] := by
  obtain ⟨x, hx⟩ := Option.ne_none_iff_exists'.mp (h.present history[i] (List.getElem_mem hi))
  have hid : history[i].toEvent.id = some x.val := by
    rw [WireEvent.toEvent, hx, Option.map_some]
  rw [← List.take_append_getElem hi, List.map_append, List.map_singleton,
    SseEventIds.lastId_append, hid, idText, hx, Option.map_some, Option.some_or]

/-- The reader stands behind the first `k` events of the history. -/
structure Behind (history : List WireEvent) (received : List SseEvent) (last : Option Str)
    (ahead k : ℕ) : Prop where
  le : k ≤ history.length
  rest : remaining history last = history.drop k
  ordered : received.Sublist ((history.take k).map WireEvent.toEvent)
  counted : k = received.length + ahead

theorem Identified.drop (h : Identified history) (k : ℕ) : Identified (history.drop k) := by
  refine ⟨fun ev hev => h.present ev (List.mem_of_mem_drop hev), ?_⟩
  rw [List.map_drop]
  exact h.nodup.sublist (List.drop_sublist k _)

theorem Behind.read [Buf β] (hid : Identified history) (hclean : ∀ ev ∈ history, Clean ev)
    {received : List SseEvent} {last : Option Str} {ahead k : ℕ}
    (h : Behind history received last ahead k) {body : Body β ε}
    (hbytes : Body.dataBytes body <+: wireForm (remaining history last))
    {events : List SseEvent} {id : Option Str} (hends : EndsWith body events id) :
    ∃ k', Behind history (received ++ events) (id.or last)
      (ahead + if id = lastId events then 0 else 1) k' := by
  rw [h.rest] at hbytes
  obtain ⟨i, hi, rfl, hlast⟩ :=
    connection_cut (fun ev hev => hclean ev (List.mem_of_mem_drop hev)) hbytes hends
  have hlength : (((history.drop k).take i).map WireEvent.toEvent).length = i := by
    rw [List.length_map, List.length_take_of_le hi]
  rw [List.length_drop] at hi
  have hle := h.le
  have hcounted := h.counted
  have hreceived : (received ++ ((history.drop k).take i).map WireEvent.toEvent).Sublist
      ((history.take (k + i)).map WireEvent.toEvent) := by
    rw [List.take_add, List.map_append]
    exact h.ordered.append (List.Sublist.refl _)
  by_cases heq : id = lastId (((history.drop k).take i).map WireEvent.toEvent)
  · refine ⟨k + i, by omega, ?_, hreceived, ?_⟩
    · cases i with
      | zero =>
        have hnone : id = none := heq
        rw [hnone, Option.none_or]
        exact h.rest
      | succ j =>
        have hj : j < (history.drop k).length := by
          rw [List.length_drop]
          omega
        have hev : history[k + j]? = some (history.drop k)[j] := by
          rw [← List.getElem?_drop]
          exact List.getElem?_eq_getElem hj
        obtain ⟨x, hx⟩ := Option.ne_none_iff_exists'.mp
          ((hid.drop k).present _ (List.getElem_mem hj))
        rw [lastId_take (hid.drop k) hj] at heq
        have hor : id.or last = idText (history.drop k)[j] := by
          rw [heq, idText, hx]
          rfl
        rw [hor, remaining_at hid hev]
        rfl
    · rw [if_pos heq, List.length_append, hlength]
      omega
  · rcases hlast with hlast | ⟨ev, hev, hpresent, rfl⟩
    · exact absurd hlast heq
    · obtain ⟨x, hx⟩ := Option.ne_none_iff_exists'.mp hpresent
      rw [List.getElem?_drop] at hev
      have hlt := (List.getElem?_eq_some_iff.mp hev).1
      have hor : (idText ev).or last = idText ev := by
        rw [idText, hx]
        rfl
      refine ⟨k + i + 1, hlt, ?_, ?_, ?_⟩
      · rw [hor]
        exact remaining_at hid hev
      · exact hreceived.trans ((List.take_sublist_take_left (Nat.le_succ _)).map _)
      · rw [if_neg heq, List.length_append, hlength]
        omega

end resuming

/-- A reader of events with ids, whose connections break off anywhere, receives events of the
history in order and none twice, and stands behind the first so many of them; it has missed exactly
one event for each connection on which the last id was ahead of the events. -/
theorem resumed_misses_one_each {history : List WireEvent} (hid : Identified history)
    (hclean : ∀ ev ∈ history, Clean ev) {received : List SseEvent} {last : Option Str} {ahead : ℕ}
    (h : Resumed history received last ahead) : ∃ k, Behind history received last ahead k := by
  induction h with
  | start => exact ⟨0, Nat.zero_le _, rfl, List.Sublist.refl _, rfl⟩
  | read _ hbytes hends ih =>
    obtain ⟨k, hk⟩ := ih
    exact hk.read hid hclean hbytes hends

def numbered (c : Char) (h : '\r' ∉ [c] ∧ '\n' ∉ [c] ∧ '\x00' ∉ [c]) : WireEvent where
  event := none
  id := some ⟨[c], h⟩
  data := ⟨[c], h.1⟩

def first : WireEvent := numbered '1' (by decide)
def second : WireEvent := numbered '2' (by decide)

def broken : Body Bytes Unit := [.ready (.ok (.data [105, 100, 58, 32, 49, 10]))]
def whole : Body Bytes Unit := [.ready (.ok (.data (wireForm [second])))]

/-- The first connection breaks off behind the id of the first event, the second one is whole. -/
theorem resumed_misses_one_each_first :
    ∃ k, Behind [first, second] [second.toEvent] (some ['2']) 1 k := by
  have hid : Identified [first, second] := by
    constructor
    · simp [first, second, numbered]
    · decide
  have hclean : ∀ ev ∈ [first, second], Clean ev := by
    intro ev hev
    apply (readBack_eq_iff ev).mp
    rcases List.mem_pair.mp hev with rfl | rfl <;> decide
  have hbroken : EndsWith broken [] (some ['1']) := endsWith_new broken
  have hwhole : EndsWith whole [second.toEvent] (some ['2']) := endsWith_new whole
  have hone : Resumed [first, second] [] (some ['1']) 1 :=
    .read .start (by decide) hbroken
  have htwo : Resumed [first, second] [second.toEvent] (some ['2']) 1 :=
    .read hone (by decide) hwhole
  exact resumed_misses_one_each hid hclean htwo

end SseResumption
