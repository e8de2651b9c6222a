import Navar.ResponseReaders
import Navar.SseEventIds

/-! # Delivery by the streams of a response

A reader that polls when it is woken gets everything, what is complete is handed out before the
stream makes its reader wait, and no frame is taken before its time. -/
namespace StreamDelivery

open ByteBuffers
open LineSplitting
open PollStreams
open FramedLines
open LossyText
open HttpMessages
open LineScanning
open SseStreams
open SseRefinement
open LineStreams
open NdjsonStreams (NdjsonStream bodyItems bodyItems_eq_reference ndjsonCall ndjson_reads)
open ResponseReaders
open WakerTasks

variable {β ε τ : Type}

/-- The stream of `bytes_stream` with its waker. -/
def bytesCall [BodyExt] [Buf β] (body : Body β ε) :
    Option (Body β ε × Poll (Option (Except ε Bytes)) × Waker) :=
  match bytesNext body with
  | (rest, .pending) => some (rest, .pending, .registered)
  | (rest, answer) => some (rest, answer, .untouched)

section wakers

variable [BodyExt]

theorem bytesCall_poll [Buf β] (body : Body β ε) :
    Call.poll bytesCall body = some (bytesNext body) := by
  rw [Call.poll, bytesCall]
  rcases bytesNext body with ⟨rest, _ | answer⟩ <;> rfl

theorem bytesNext_end [Buf β] {body rest : Body β ε} (h : bytesNext body = (rest, .ready none)) :
    rest = [] := by
  induction body with
  | nil =>
    rw [bytesNext_nil] at h
    cases h
    rfl
  | cons answer body ih =>
    rw [bytesNext_cons] at h
    rcases answer with _ | (e | (d | t))
    · cases h
    · cases h
    · cases h
    · exact ih h

theorem bytesCall_wakes [Buf β] : Wakes (bytesCall (β := β) (ε := ε)) := by
  constructor
  · intro s t waker h
    rw [bytesCall] at h
    rcases hnext : bytesNext s with ⟨rest, _ | answer⟩ <;> rw [hnext] at h <;> cases h
    simp
  · intro s t waker h
    have hpoll : some (bytesNext s) = some (t, .ready none) := by
      rw [← bytesCall_poll, Call.poll, h]
      rfl
    obtain rfl := bytesNext_end (Option.some.inj hpoll)
    rw [Ended, bytesCall_poll, bytesNext_nil]

end wakers

/-- A reader that polls its stream when it is woken, and perhaps at other times, gets all that the
stream yields: no wake-up is lost, whenever the body wakes the task. -/
theorem woken_streams_deliver [BodyExt] [Buf β] (fromSlice : Bytes → Except ε τ) (body : Body β ε) :
    Delivers sseCall (SseStream.new body) (batchItems [] body) ∧
      Delivers (ndjsonCall fromSlice) (NdjsonStream.new body) (bodyItems fromSlice [] body) ∧
      Delivers bytesCall body (dataItems body) := by
  have hbytes : Call.poll (bytesCall (β := β) (ε := ε)) = fun s => some (bytesNext s) :=
    funext bytesCall_poll
  refine ⟨delivers LineStream.call_wakes ?_, delivers LineStream.call_wakes ?_,
    delivers bytesCall_wakes ?_⟩
  · exact SseRefinement.yields_new body
  · exact NdjsonStreams.yields_new fromSlice body
  · rw [hbytes]
    exact yields_dataItems body

/-- When a call of `poll_next` hands nothing out, whatever calls came before it: all that the
frames taken so far have completed has been handed out, the queue is empty, and the buffer holds the
line that has begun and nothing else. -/
theorem nothing_withheld [Buf β] (fromSlice : Bytes → Except ε τ) (body : Body β ε) :
    (∀ n items (s t : SseStream ε) answer,
      drive SseStream.pollNext (SseStream.new body) n = some (items, s) →
      s.pollNext = some (t, answer) → answer.items = [] →
      ∃ consumed rest, body = consumed ++ rest ∧ t.body = bytesBody rest ∧
        items = batchItems [] consumed ∧ t.readyEvents = [] ∧
        t.buffer.items = unfinished lf (Body.dataBytes consumed)) ∧
    (∀ n items (s t : NdjsonStream ε τ) answer,
      drive (NdjsonStream.pollNext fromSlice) (NdjsonStream.new body) n = some (items, s) →
      s.pollNext fromSlice = some (t, answer) → answer.items = [] →
      ∃ consumed rest, body = consumed ++ rest ∧ t.body = bytesBody rest ∧
        items = bodyItems fromSlice [] consumed ∧ t.queue = [] ∧
        t.buffer.items = unfinished lf (Body.dataBytes consumed)) := by
  constructor
  · intro n items s t answer hd hp hnone
    obtain ⟨consumed, rest, hcut, hrest, hitems, hready, hbuffer⟩ :=
      LineStream.withheld sse_reads hd hp hnone
    rw [← batchItems_eq_reference] at hitems
    exact ⟨consumed, rest, hcut, hrest, hitems, hready, hbuffer⟩
  · intro n items s t answer hd hp hnone
    obtain ⟨consumed, rest, hcut, hrest, hitems, hready, hbuffer⟩ :=
      LineStream.withheld (ndjson_reads fromSlice) hd hp hnone
    rw [← bodyItems_eq_reference] at hitems
    exact ⟨consumed, rest, hcut, hrest, hitems, hready, hbuffer⟩

/-- When a call of `poll_next` hands an item out, whatever calls came before it: the frames taken
so far are the shortest beginning of the body that completes this item, and what else they
complete waits in the queue. A slow reader does not make the stream read ahead. -/
theorem reads_on_demand [Buf β] (fromSlice : Bytes → Except ε τ) (body : Body β ε) :
    (∀ n items (s t : SseStream ε) item,
      drive SseStream.pollNext (SseStream.new body) n = some (items, s) →
      s.pollNext = some (t, .ready (some item)) →
      ∃ consumed rest, body = consumed ++ rest ∧ t.body = bytesBody rest ∧
        items ++ item :: t.readyEvents.map .ok = batchItems [] consumed ∧
        ∀ begun, begun <+: consumed → begun ≠ consumed →
          (batchItems [] begun).length ≤ items.length) ∧
    (∀ n items (s t : NdjsonStream ε τ) item,
      drive (NdjsonStream.pollNext fromSlice) (NdjsonStream.new body) n = some (items, s) →
      s.pollNext fromSlice = some (t, .ready (some item)) →
      ∃ consumed rest, body = consumed ++ rest ∧ t.body = bytesBody rest ∧
        items ++ item :: t.queue = bodyItems fromSlice [] consumed ∧
        ∀ begun, begun <+: consumed → begun ≠ consumed →
          (bodyItems fromSlice [] begun).length ≤ items.length) := by
  constructor
  · intro n items s t item hd hp
    obtain ⟨consumed, rest, hcut, hrest, hitems, hshortest⟩ := LineStream.demanded sse_reads hd hp
    simp only [← batchItems_eq_reference] at hitems hshortest
    exact ⟨consumed, rest, hcut, hrest, hitems, hshortest⟩
  · intro n items s t item hd hp
    obtain ⟨consumed, rest, hcut, hrest, hitems, hshortest⟩ :=
      LineStream.demanded (ndjson_reads fromSlice) hd hp
    simp only [← bodyItems_eq_reference] at hitems hshortest
    refine ⟨consumed, rest, hcut, hrest, ?_, hshortest⟩
    rw [← hitems, ← List.map_id t.queue]
    rfl

end StreamDelivery
