import Navar.SseLines

/-! # The last event id

The parser records the value of an `id` field when it reads the field, and hands the event out
later: the events of the same frame wait in the queue, and the block may still be open. -/
namespace SseEventIds

open ByteBuffers
open LineSplitting
open PollStreams
open FramedLines
open LossyText
open HttpMessages
open LineScanning
open LineStreams
open SseStreams
open SseRefinement
open SseLines

variable {β ε : Type}

/-- The id of the last of the events that carry one. -/
def lastId (events : List SseEvent) : Option Str := (events.filterMap SseEvent.id).getLast?

/-- The value of the line if it is an `id` field. -/
def idField (line : Bytes) : Option Str :=
  let (name, value?) := SseStream.splitField (trimEnd (fromUtf8Lossy line))
  if name = SseStream.idName then some ((value?.map trimStart).getD []) else none

section lines

theorem lastId_append (events : List SseEvent) (ev : SseEvent) :
    lastId (events ++ [ev]) = ev.id.or (lastId events) := by
  cases h : ev.id with
  | none => simp [lastId, h]
  | some i => simp [lastId, h]

theorem lastId_eq_none {events : List SseEvent} :
    lastId events = none ↔ ∀ ev ∈ events, ev.id = none := by
  rw [lastId, List.getLast?_eq_none_iff, List.filterMap_eq_nil_iff]

theorem consumeLine_id (s : SseStream ε) (line : Bytes) :
    (s.consumeLine line).lastEventId = (idField line).or s.lastEventId := by
  simp only [SseStream.consumeLine, SseStream.processLine, idField]
  generalize trimEnd (fromUtf8Lossy line) = text
  by_cases ht : text.isEmpty = true
  · have hname : (SseStream.splitField text).1 ≠ SseStream.idName := by
      rw [List.isEmpty_iff.mp ht]
      decide
    simp [ht, hname]
  · have hdata : SseStream.dataName ≠ SseStream.idName := by decide
    have hevent : SseStream.eventName ≠ SseStream.idName := by decide
    simp only [ht]
    split_ifs <;> simp_all

/-- The last id is that of the last event that carries one, the pending one included. -/
def IdsAgree (events : List SseEvent) (s : SseStream ε) : Prop :=
  s.lastEventId = lastId (events ++ s.readyEvents ++ [s.pendingEvent])

theorem new_idsAgree [Buf β] (body : Body β ε) : IdsAgree [] (SseStream.new body) := rfl

theorem processLine_idsAgree {events : List SseEvent} {s : SseStream ε} (h : IdsAgree events s)
    (text : Str) : IdsAgree events (s.processLine text) := by
  rw [IdsAgree, lastId_append] at h
  simp only [IdsAgree, lastId_append, SseStream.processLine]
  split_ifs
  · rw [← List.append_assoc, lastId_append]
    exact h
  · exact h
  · rfl
  · exact h
  · exact h

theorem fold_ids (s : SseStream ε) (ls : List Bytes) :
    (ls.foldl SseStream.consumeLine s).lastEventId =
      ((ls.filterMap idField).getLast?).or s.lastEventId := by
  induction ls generalizing s with
  | nil => rfl
  | cons line ls ih =>
    rw [List.foldl_cons, ih, consumeLine_id]
    cases h : idField line with
    | none => simp [h]
    | some i =>
      cases hls : ls.filterMap idField with
      | nil => simp [h, hls]
      | cons j js =>
        have hlast := List.getLast?_eq_some_getLast (List.cons_ne_nil j js)
        simp [h, hls, hlast]

theorem readTexts_idsAgree {events : List SseEvent} {s : SseStream ε} (h : IdsAgree events s)
    (texts : List Str) : IdsAgree events (texts.foldl readText s) := by
  induction texts generalizing s with
  | nil => exact h
  | cons text texts ih => exact ih (processLine_idsAgree h (trimEnd text))

end lines

section runs

/-- A call of the stream leaves the ids in agreement: the body and the buffer have no part in it,
and the texts of a frame are read one after the other. -/
theorem took_idsAgree {events : List SseEvent} {s u : SseStream ε} (hs : IdsAgree events s)
    (h : (sseLines ε).Took s u) : IdsAgree events u := by
  rcases h with rfl | ⟨rest, rfl | ⟨frame, happ⟩⟩
  · exact hs
  · exact hs
  · obtain ⟨texts, _, hread⟩ := appendFrame_reads happ
    have hrest : IdsAgree events ((sseLines ε).setBody s rest) := hs
    have hagree := readTexts_idsAgree hrest texts
    rw [hread]
    exact hagree

/-- Dequeuing moves an event from the queue to the end of those handed out. -/
theorem pollNext_idsAgree {events : List SseEvent} {s t : SseStream ε}
    {answer : Poll (Option (Except ε SseEvent))} (hs : IdsAgree events s)
    (h : s.pollNext = some (t, answer)) : IdsAgree (events ++ yieldedEvents answer.items) t := by
  obtain ⟨u, htook, ⟨ev, queue, hqueue, rfl, rfl⟩ | ⟨rfl, hnone⟩⟩ := LineStream.pollNext_cases h
  · have hu := took_idsAgree hs htook
    have hready : u.readyEvents = ev :: queue := hqueue
    rw [IdsAgree, hready] at hu
    rw [IdsAgree, List.append_assoc events]
    exact hu
  · rw [yieldedEvents, hnone, List.append_nil]
    exact took_idsAgree hs htook

theorem drive_idsAgree {s t : SseStream ε} {n : ℕ} {items : List (Except ε SseEvent)}
    (hs : IdsAgree [] s) (h : drive SseStream.pollNext s n = some (items, t)) :
    IdsAgree (yieldedEvents items) t := by
  apply drive_preserves (P := fun items t => IdsAgree (yieldedEvents items) t) _ hs h
  intro items t u answer ht hu
  rw [yieldedEvents, List.filterMap_append]
  exact pollNext_idsAgree ht hu

/-- After any number of calls, in terms of the answers of the body that have been taken: the
events of their lines have been handed out or wait, and the parser remembers what they left. -/
theorem drive_consumed [Buf β] (body : Body β ε) (n : ℕ) : ∃ items s consumed rest,
    drive SseStream.pollNext (SseStream.new body) n = some (items, s) ∧
    body = consumed ++ rest ∧ s.body = bytesBody rest ∧
    yieldedEvents items ++ s.readyEvents = batchEvents (Body.dataBytes consumed) ∧
    memory s = memory ((lines lf (Body.dataBytes consumed)).foldl SseStream.consumeLine
      SseStream.fresh) := by
  obtain ⟨items, s, consumed, rest, hd, hcut, hrest, hqueue, hmemory⟩ :=
    LineStream.drive_consumed sse_reads body n
  refine ⟨items, s, consumed, rest, hd, hcut, hrest, ?_, ?_⟩
  · have hitems : items ++ s.readyEvents.map .ok = batchItems [] consumed := by
      rw [batchItems_eq_reference]
      exact hqueue
    rw [← events_batchItems, ← hitems]
    simp [yieldedEvents, List.filterMap_append, List.filterMap_map, Function.comp_def,
      Except.toOption]
  · rw [← sseParser_recall (ε := ε)]
    exact hmemory

end runs

/-- After any number of calls: the last event id is the value of the last `id` field among the
complete lines of the frames taken so far. It is the id of an event handed out when no event
that waits and not the pending one carries an id. -/
theorem last_event_id_is_last_received [Buf β] (body : Body β ε) (n : ℕ) :
    ∃ items s consumed rest,
      drive SseStream.pollNext (SseStream.new body) n = some (items, s) ∧
      body = consumed ++ rest ∧ s.body = bytesBody rest ∧
      s.lastEventId = ((lines lf (Body.dataBytes consumed)).filterMap idField).getLast? ∧
      ((∀ ev ∈ s.readyEvents, ev.id = none) → s.pendingEvent.id = none →
        s.lastEventId = lastId (yieldedEvents items)) := by
  obtain ⟨items, s, consumed, rest, hd, hcut, hrest, _, hmemory⟩ := drive_consumed body n
  have hid := congrArg Prod.snd hmemory
  simp only [memory] at hid
  refine ⟨items, s, consumed, rest, hd, hcut, hrest, ?_, ?_⟩
  · rw [hid, fold_ids]
    exact Option.or_none
  · intro hready hnone
    have hagree : IdsAgree (yieldedEvents items) s := drive_idsAgree (new_idsAgree body) hd
    rw [IdsAgree, lastId_append, hnone, Option.none_or] at hagree
    rw [hagree, lastId, List.filterMap_append, List.filterMap_eq_nil_iff.mpr hready,
      List.append_nil, lastId]

/-- Two events in one frame. -/
def twoEvents : Body Bytes Unit :=
  [.ready (.ok (.data (unlines lf (["id:1", "data:a", "", "id:2", "data:b", ""].map
    fun line => utf8 line.toList))))]

/-- The first event has been handed out, the second waits, and its id is the last id. -/
theorem last_event_id_of_undelivered_event :
    ∃ s, drive SseStream.pollNext (SseStream.new twoEvents) 1 =
        some ([.ok { id := some ['1'], data := ['a'] }], s) ∧
      s.readyEvents = [{ id := some ['2'], data := ['b'] }] ∧ s.lastEventId = some ['2'] ∧
      lastId (yieldedEvents [(.ok { id := some ['1'], data := ['a'] } :
        Except Unit SseEvent)]) = some ['1'] := by
  exact ⟨_, rfl, rfl, rfl, rfl⟩

/-- In every state that calls lead to: the last event id is the id of the last event that carries
one, among those handed out, those that wait in their order, and the pending one. There is no last
event id exactly when none of them carries an id. -/
theorem last_event_id_agrees_with_events [Buf β] (body : Body β ε) (n : ℕ) :
    ∃ items s, drive SseStream.pollNext (SseStream.new body) n = some (items, s) ∧
      s.lastEventId = lastId (yieldedEvents items ++ s.readyEvents ++ [s.pendingEvent]) ∧
      (s.lastEventId = none ↔
        ∀ ev ∈ yieldedEvents items ++ s.readyEvents ++ [s.pendingEvent], ev.id = none) := by
  obtain ⟨items, s, hd, _⟩ := (drive_new body).1 n
  have hagree : IdsAgree (yieldedEvents items) s := drive_idsAgree (new_idsAgree body) hd
  rw [IdsAgree] at hagree
  refine ⟨items, s, hd, hagree, ?_⟩
  rw [hagree]
  exact lastId_eq_none

end SseEventIds
