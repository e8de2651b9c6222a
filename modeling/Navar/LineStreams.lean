import Mathlib.Logic.Equiv.Defs
import Navar.HttpMessages
import Navar.LineScanning
import Navar.WakerTasks

/-! # Streams that cut a body into lines

`SseStream` and `NdjsonStream` have one and the same `poll_next`: it hands out what is ready, and
takes one frame of the body when nothing is. What a stream keeps, what it does with a frame and
what it makes of a ready element are parameters here. -/
namespace LineStreams

open ByteBuffers
open LineSplitting
open PollStreams
open FramedLines
open HttpMessages
open LineScanning
open WakerTasks

/-- What such a stream holds; the memory is what a line leaves to the lines after it. -/
structure Fields (ε μ κ : Type) where
  body : Body Bytes ε
  buffer : VecDeque UInt8
  memory : μ
  ready : List κ

structure LineStream (S ε μ κ τ : Type) where
  fields : S ≃ Fields ε μ κ
  appendFrame : S → Bytes → Option S
  item : κ → Except ε τ

namespace LineStream

variable {S β ε μ κ τ : Type} (L : LineStream S ε μ κ τ)

def setBody (s : S) (body : Body Bytes ε) : S := L.fields.symm { L.fields s with body := body }
def setReady (s : S) (ready : List κ) : S := L.fields.symm { L.fields s with ready := ready }

/-- `poll_next` with its waker: the body keeps it when it answers `Pending`, and a frame that
completes nothing makes the stream wake itself. -/
def call (s : S) : Option (S × Poll (Option (Except ε τ)) × Waker) :=
  match (L.fields s).ready with
  | element :: ready =>
    some (L.setReady s ready, .ready (some (L.item element)), .untouched)
  | [] =>
    let (answer, body) := (L.fields s).body.pollFrame
    let s := L.setBody s body
    match answer with
    -- `ready!` returns at once
    | .pending => some (s, .pending, .registered)
    | .ready (some (.ok frame)) =>
      match frame.intoData with
      | some data => do
        let s ← L.appendFrame s data
        match (L.fields s).ready with
        | element :: ready =>
          some (L.setReady s ready, .ready (some (L.item element)), .untouched)
        | [] => some (s, .pending, .woken)
      | none => some (s, .pending, .woken)
    | .ready (some (.error e)) => some (s, .ready (some (.error e)), .untouched)
    | .ready none => some (s, .ready none, .untouched)

def pollNext : S → Option (S × Poll (Option (Except ε τ))) := Call.poll L.call

/-- A stream that has read nothing of its body yet. -/
def opened [Buf β] (start : μ) (body : Body β ε) : S :=
  L.fields.symm
    { body := bytesBody body, buffer := VecDeque.withCapacity 256, memory := start, ready := [] }

/-- The abstract reader that the stream stands for. -/
def reader (s : S) : Reader UInt8 ε μ (Except ε τ) where
  source := (L.fields s).body.map arrival
  unread := (L.fields s).buffer.items
  memory := (L.fields s).memory
  queue := (L.fields s).ready.map L.item

/-- Where no line feed is left in the buffer, a frame is read as the abstract reader reads it. -/
def Reads (P : Parser UInt8 μ (Except ε τ)) : Prop :=
  ∀ s frame, lf ∉ (L.fields s).buffer.items → ∃ t, L.appendFrame s frame = some t ∧
    (L.fields t).body = (L.fields s).body ∧ L.reader t = (L.reader s).absorb P lf frame

/-- What holds between the calls on a stream of this body. -/
structure Models (source : Body Bytes ε) (s : S) (r : Reader UInt8 ε μ (Except ε τ)) : Prop where
  read : L.reader s = r
  clean : lf ∉ r.unread
  taken : (L.fields s).body <:+ source

variable {L}
variable {P : Parser UInt8 μ (Except ε τ)} {source : Body Bytes ε} {s t : S}
  {r : Reader UInt8 ε μ (Except ε τ)}

theorem models_opened [Buf β] (body : Body β ε) :
    L.Models (bytesBody body) (L.opened P.start body)
      (Reader.init P ((bytesBody body).map arrival)) := by
  constructor
  · simp [reader, opened, Reader.init, VecDeque.withCapacity]
  · exact List.not_mem_nil
  · simp [opened]

theorem setReady_models {ready : List κ} (h : L.Models source s r) :
    L.Models source (L.setReady s ready) { r with queue := ready.map L.item } := by
  obtain ⟨rfl, hclean, htaken⟩ := h
  refine ⟨?_, hclean, ?_⟩
  · simp [reader, setReady]
  · simpa [setReady] using htaken

theorem setBody_models {answer : Poll (Except ε (Frame Bytes))} {rest : Body Bytes ε}
    (h : L.Models source s r) (hbody : (L.fields s).body = answer :: rest) :
    L.Models source (L.setBody s rest) { r with source := rest.map arrival } := by
  obtain ⟨rfl, hclean, htaken⟩ := h
  refine ⟨?_, hclean, ?_⟩
  · simp [reader, setBody]
  · rw [hbody] at htaken
    simpa [setBody] using (List.suffix_cons answer rest).trans htaken

theorem appendFrame_models (hreads : L.Reads P) (h : L.Models source s r) (frame : Bytes) :
    ∃ t, L.appendFrame s frame = some t ∧ L.Models source t (r.absorb P lf frame) := by
  obtain ⟨rfl, hclean, htaken⟩ := h
  obtain ⟨t, happ, hbody, hread⟩ := hreads s frame hclean
  refine ⟨t, happ, hread, ?_, ?_⟩
  · exact not_mem_unfinished lf _
  · rwa [hbody]

/-- After a frame: what is ready is handed out, or the stream wakes itself. -/
def handOut (L : LineStream S ε μ κ τ) (s : S) : S × Poll (Option (Except ε τ)) × Waker :=
  match (L.fields s).ready with
  | element :: ready => (L.setReady s ready, .ready (some (L.item element)), .untouched)
  | [] => (s, .pending, .woken)

theorem call_ready {element : κ} {ready : List κ} (h : (L.fields s).ready = element :: ready) :
    L.call s = some (L.setReady s ready, .ready (some (L.item element)), .untouched) := by
  simp only [call, h]

theorem call_end (hready : (L.fields s).ready = []) (hbody : (L.fields s).body = []) :
    L.call s = some (s, .ready none, .untouched) := by
  have hsame : L.setBody s [] = s := by
    rw [setBody, ← hbody]
    exact L.fields.symm_apply_apply s
  simp only [call, hready, hbody, Body.pollFrame, hsame]

theorem call_answer {answer : Poll (Except ε (Frame Bytes))} {rest : Body Bytes ε}
    (hready : (L.fields s).ready = []) (hbody : (L.fields s).body = answer :: rest) :
    L.call s =
      match answer with
      | .pending => some (L.setBody s rest, .pending, .registered)
      | .ready (.error e) => some (L.setBody s rest, .ready (some (.error e)), .untouched)
      | .ready (.ok (.trailers _)) => some (L.setBody s rest, .pending, .woken)
      | .ready (.ok (.data frame)) => (L.appendFrame (L.setBody s rest) frame).map L.handOut := by
  simp only [call, hready, hbody]
  rcases answer with _ | (e | (frame | trailers))
  · simp only [Body.pollFrame]
  · simp only [Body.pollFrame]
  · simp only [Body.pollFrame, Frame.intoData]
    cases happ : L.appendFrame (L.setBody s rest) frame with
    | none => rfl
    | some t =>
      simp only [handOut, Option.bind_eq_bind, Option.bind_some, Option.map_some]
      split <;> rfl
  · simp only [Body.pollFrame, Frame.intoData]

theorem handOut_models (h : L.Models source s r) :
    ∃ t waker, L.handOut s = (t, r.deliver.2, waker) ∧ L.Models source t r.deliver.1 := by
  have hqueue : r.queue = (L.fields s).ready.map L.item := by rw [← h.read, reader]
  cases hready : (L.fields s).ready with
  | nil =>
    rw [hready, List.map_nil] at hqueue
    simp only [handOut, hready, Reader.deliver, hqueue]
    exact ⟨s, .woken, rfl, h⟩
  | cons element ready =>
    rw [hready, List.map_cons] at hqueue
    simp only [handOut, hready, Reader.deliver, hqueue]
    exact ⟨_, .untouched, rfl, setReady_models h⟩

/-- One call of the stream is one call of the abstract reader, whatever the chunks of a frame and
the place where the buffer wraps. -/
theorem pollNext_simulates (hreads : L.Reads P) (source : Body Bytes ε) :
    Simulates L.pollNext (Reader.call P lf Except.error) (L.Models source) := by
  intro s r h
  have hqueue : r.queue = (L.fields s).ready.map L.item := by rw [← h.read, reader]
  have hsource : r.source = (L.fields s).body.map arrival := by rw [← h.read, reader]
  cases hready : (L.fields s).ready with
  | cons element ready =>
    rw [hready, List.map_cons] at hqueue
    simp only [Reader.call, hqueue, pollNext, Call.poll, call_ready hready]
    exact ⟨_, rfl, setReady_models h⟩
  | nil =>
    rw [hready, List.map_nil] at hqueue
    cases hbody : (L.fields s).body with
    | nil =>
      rw [hbody, List.map_nil] at hsource
      simp only [Reader.call, hqueue, hsource, pollNext, Call.poll, call_end hready hbody]
      exact ⟨s, rfl, h⟩
    | cons answer rest =>
      rw [hbody, List.map_cons] at hsource
      have hrest := setBody_models h hbody
      rw [hqueue] at hrest
      simp only [Reader.call, hqueue, hsource, pollNext, Call.poll, call_answer hready hbody]
      rcases answer with _ | (e | (frame | trailers))
      · exact ⟨_, rfl, hrest⟩
      · exact ⟨_, rfl, hrest⟩
      · obtain ⟨u, happ, hu⟩ := appendFrame_models hreads hrest frame
        obtain ⟨t, waker, hout, ht⟩ := handOut_models hu
        refine ⟨t, ?_, ht⟩
        simp only [happ, Option.map_some, hout]
        rfl
      · exact ⟨_, rfl, hrest⟩

theorem handOut_cases (L : LineStream S ε μ κ τ) (u : S) :
    (∃ element ready, (L.fields u).ready = element :: ready ∧
        L.handOut u = (L.setReady u ready, .ready (some (L.item element)), .untouched)) ∨
      L.handOut u = (u, .pending, .woken) := by
  rw [handOut]
  split
  next element ready hready => exact Or.inl ⟨element, ready, hready, rfl⟩
  next => exact Or.inr rfl

/-- What a call has made of the stream before it answers: it takes at most one answer of the
body, and reads it if it is a frame of data. -/
def Took (L : LineStream S ε μ κ τ) (s u : S) : Prop :=
  u = s ∨ ∃ rest, u = L.setBody s rest ∨ ∃ frame, L.appendFrame (L.setBody s rest) frame = some u

/-- A call hands out the first ready element or an error of the body, or makes sure that the task
is woken, or finds the end of the body with nothing ready. -/
theorem call_cases {answer : Poll (Option (Except ε τ))} {waker : Waker}
    (h : L.call s = some (t, answer, waker)) :
    ∃ u, L.Took s u ∧
      ((∃ element ready, (L.fields u).ready = element :: ready ∧ t = L.setReady u ready ∧
          answer = .ready (some (L.item element))) ∨
        (t = u ∧ ∃ e, answer = .ready (some (.error e))) ∨
        (t = u ∧ answer = .pending ∧ waker ≠ .untouched) ∨
        (t = u ∧ answer = .ready none ∧ u = s ∧ (L.fields s).ready = [] ∧
          (L.fields s).body = [])) := by
  cases hready : (L.fields s).ready with
  | cons element ready =>
    rw [call_ready hready] at h
    cases h
    exact ⟨s, Or.inl rfl, Or.inl ⟨element, ready, hready, rfl, rfl⟩⟩
  | nil =>
    cases hbody : (L.fields s).body with
    | nil =>
      rw [call_end hready hbody] at h
      cases h
      exact ⟨s, Or.inl rfl, Or.inr (Or.inr (Or.inr ⟨rfl, rfl, rfl, rfl, rfl⟩))⟩
    | cons result rest =>
      have htook : L.Took s (L.setBody s rest) := Or.inr ⟨rest, Or.inl rfl⟩
      rw [call_answer hready hbody] at h
      rcases result with _ | (e | (frame | trailers))
      · cases h
        exact ⟨_, htook, Or.inr (Or.inr (Or.inl ⟨rfl, rfl, by simp⟩))⟩
      · cases h
        exact ⟨_, htook, Or.inr (Or.inl ⟨rfl, e, rfl⟩)⟩
      · obtain ⟨u, happ, hu⟩ := Option.map_eq_some_iff.mp h
        refine ⟨u, Or.inr ⟨rest, Or.inr ⟨frame, happ⟩⟩, ?_⟩
        rcases handOut_cases L u with ⟨element, ready, hfirst, hout⟩ | hout
        · rw [hout] at hu
          cases hu
          exact Or.inl ⟨element, ready, hfirst, rfl, rfl⟩
        · rw [hout] at hu
          cases hu
          exact Or.inr (Or.inr (Or.inl ⟨rfl, rfl, by simp⟩))
      · cases h
        exact ⟨_, htook, Or.inr (Or.inr (Or.inl ⟨rfl, rfl, by simp⟩))⟩

/-- Without the waker: a call hands out the first ready element, or leaves what it has made of the
stream. -/
theorem pollNext_cases {answer : Poll (Option (Except ε τ))}
    (h : L.pollNext s = some (t, answer)) :
    ∃ u, L.Took s u ∧
      ((∃ element ready, (L.fields u).ready = element :: ready ∧ t = L.setReady u ready ∧
          answer = .ready (some (L.item element))) ∨
        (t = u ∧ answer.items.filterMap Except.toOption = [])) := by
  obtain ⟨⟨v, reply, waker⟩, hcall, heq⟩ := Option.map_eq_some_iff.mp h
  cases heq
  obtain ⟨u, htook, hout | ⟨rfl, e, rfl⟩ | ⟨rfl, rfl, _⟩ | ⟨rfl, rfl, _⟩⟩ := call_cases hcall
  · exact ⟨u, htook, Or.inl hout⟩
  · exact ⟨_, htook, Or.inr ⟨rfl, rfl⟩⟩
  · exact ⟨_, htook, Or.inr ⟨rfl, rfl⟩⟩
  · exact ⟨_, htook, Or.inr ⟨rfl, rfl⟩⟩

theorem ended (hready : (L.fields s).ready = []) (hbody : (L.fields s).body = []) :
    Ended L.pollNext s := by
  rw [Ended, pollNext, Call.poll, call_end hready hbody]
  rfl

/-- Only a stream that has ended answers that it has. -/
theorem call_end_cases {waker : Waker} (h : L.call s = some (t, .ready none, waker)) :
    t = s ∧ Ended L.pollNext s := by
  obtain ⟨u, _, ⟨_, _, _, _, hitem⟩ | ⟨_, _, herror⟩ | ⟨_, hpending, _⟩ |
    ⟨rfl, _, rfl, hready, hbody⟩⟩ := call_cases h
  · cases hitem
  · cases herror
  · cases hpending
  · exact ⟨rfl, ended hready hbody⟩

theorem pollNext_end (h : L.pollNext s = some (t, .ready none)) : Ended L.pollNext s := by
  obtain ⟨⟨u, answer, waker⟩, hcall, heq⟩ := Option.map_eq_some_iff.mp h
  cases heq
  exact (call_end_cases hcall).2

theorem call_wakes : Wakes L.call := by
  constructor
  · intro s t waker h
    obtain ⟨u, _, ⟨_, _, _, _, hitem⟩ | ⟨_, _, herror⟩ | ⟨_, _, hwaker⟩ | ⟨_, hend, _⟩⟩ :=
      call_cases h
    · cases hitem
    · cases herror
    · exact hwaker
    · cases hend
  · intro s t waker h
    obtain ⟨rfl, hended⟩ := call_end_cases h
    exact hended

section runs

variable [Buf β]

/-- However often it is called, the stream has given a first part of the reference; enough calls
give all of it, and only then does the stream end, with the unterminated tail left. -/
theorem drive_opened (hreads : L.Reads P) (body : Body β ε) :
    (∀ n, ∃ items s, drive L.pollNext (L.opened P.start body) n = some (items, s) ∧
      items <+: reference P lf Except.error [] ((bytesBody body).map arrival)) ∧
    ∃ N, ∀ n, N ≤ n → ∃ s, drive L.pollNext (L.opened P.start body) n =
        some (reference P lf Except.error [] ((bytesBody body).map arrival), s) ∧
      Ended L.pollNext s ∧ (L.fields s).buffer.items = unfinished lf (Body.dataBytes body) := by
  have hsim := pollNext_simulates hreads (bytesBody body)
  constructor
  · intro n
    exact simulated_isPrefix hsim (models_opened body) n
  · obtain ⟨N, hN⟩ := simulated_exhausts hsim (models_opened body)
    refine ⟨N, ?_⟩
    intro n hn
    obtain ⟨s, hs, hm⟩ := hN n hn
    have hbody := congrArg Reader.source hm.read
    have hready := congrArg Reader.queue hm.read
    have hbuffer := congrArg Reader.unread hm.read
    refine ⟨s, hs, ended (List.map_eq_nil_iff.mp hready) (List.map_eq_nil_iff.mp hbody), ?_⟩
    rw [← content_bytesBody]
    exact hbuffer

theorem yields_opened (hreads : L.Reads P) (body : Body β ε) :
    Yields L.pollNext (L.opened P.start body)
      (reference P lf Except.error [] ((bytesBody body).map arrival)) := by
  obtain ⟨N, hN⟩ := (drive_opened hreads body).2
  refine ⟨N, ?_⟩
  intro n hn
  obtain ⟨s, hs, he, _⟩ := hN n hn
  exact ⟨s, hs, he⟩

/-- At the end of the stream all has been given, and the memory is what all the lines leave. -/
theorem ended_opened (hreads : L.Reads P) {body : Body β ε} {n : ℕ} {items : List (Except ε τ)}
    (hd : drive L.pollNext (L.opened P.start body) n = some (items, s))
    (he : Ended L.pollNext s) :
    items = reference P lf Except.error [] ((bytesBody body).map arrival) ∧
      (L.fields s).buffer.items = unfinished lf (Body.dataBytes body) ∧
      (L.fields s).memory = P.recall lf (Body.dataBytes body) := by
  obtain ⟨hitems, hm⟩ :=
    simulated_ended (pollNext_simulates hreads (bytesBody body)) (models_opened body) hd he
  refine ⟨hitems, ?_, ?_⟩
  · rw [← content_bytesBody]
    exact congrArg Reader.unread hm.read
  · rw [← content_bytesBody]
    exact congrArg Reader.memory hm.read

/-- The answers that have been taken, by what the stream still has of its body. -/
theorem taken_of_suffix {body : Body β ε} {source : Body Bytes ε}
    {taken : List (Arrival UInt8 ε)} (hsuffix : source <:+ bytesBody body)
    (hsplit : taken ++ source.map arrival = (bytesBody body).map arrival) :
    ∃ consumed rest, body = consumed ++ rest ∧ source = bytesBody rest ∧
      taken = (bytesBody consumed).map arrival := by
  obtain ⟨before, hbefore⟩ := hsuffix
  obtain ⟨consumed, rest, hcut, hconsumed, hrest⟩ := List.map_eq_append_iff.mp hbefore.symm
  refine ⟨consumed, rest, hcut, hrest.symm, ?_⟩
  rw [← hbefore, List.map_append] at hsplit
  rw [List.append_cancel_right hsplit, ← hconsumed]
  rfl

/-- After any number of calls, in terms of the answers of the body that have been taken: what their
lines give has been handed out or is ready, and the memory is what they leave. -/
theorem drive_consumed (hreads : L.Reads P) (body : Body β ε) (n : ℕ) :
    ∃ items s consumed rest, drive L.pollNext (L.opened P.start body) n = some (items, s) ∧
      body = consumed ++ rest ∧ (L.fields s).body = bytesBody rest ∧
      items ++ (L.fields s).ready.map L.item =
        reference P lf Except.error [] ((bytesBody consumed).map arrival) ∧
      (L.fields s).memory = P.recall lf (Body.dataBytes consumed) := by
  obtain ⟨items, s, r, taken, hd, hm, hex⟩ :=
    simulated_explains (pollNext_simulates hreads (bytesBody body))
      (models_opened body) n
  have hsplit := hex.split
  rw [← hm.read] at hsplit
  obtain ⟨consumed, rest, hcut, hrest, rfl⟩ := taken_of_suffix hm.taken hsplit
  refine ⟨items, s, consumed, rest, hd, hcut, hrest, ?_, ?_⟩
  · rw [← hex.queue, ← hm.read]
    rfl
  · rw [← content_bytesBody, ← hex.memory, ← hm.read]
    rfl

/-- A call that hands nothing out: all that the frames taken so far complete has been handed out
before. -/
theorem withheld (hreads : L.Reads P) {body : Body β ε} {n : ℕ} {items : List (Except ε τ)}
    {answer : Poll (Option (Except ε τ))}
    (hd : drive L.pollNext (L.opened P.start body) n = some (items, s))
    (hp : L.pollNext s = some (t, answer)) (hnone : answer.items = []) :
    ∃ consumed rest, body = consumed ++ rest ∧ (L.fields t).body = bytesBody rest ∧
      items = reference P lf Except.error [] ((bytesBody consumed).map arrival) ∧
      (L.fields t).ready = [] ∧
      (L.fields t).buffer.items = unfinished lf (Body.dataBytes consumed) := by
  obtain ⟨taken, r, hm, hsplit, hqueue, hunread, hitems⟩ :=
    simulated_prompt (pollNext_simulates hreads (bytesBody body))
      (models_opened body) hd hp hnone
  rw [← hm.read] at hsplit hqueue hunread
  obtain ⟨consumed, rest, hcut, hrest, rfl⟩ := taken_of_suffix hm.taken hsplit
  refine ⟨consumed, rest, hcut, hrest, hitems, List.map_eq_nil_iff.mp hqueue, ?_⟩
  rw [← content_bytesBody]
  exact hunread

theorem shortest_frames {consumed begun : Body β ε} {items : List (Except ε τ)}
    (h : Shortest P lf Except.error ((bytesBody consumed).map arrival) items)
    (hle : begun <+: consumed) (hne : begun ≠ consumed) :
    (reference P lf Except.error [] ((bytesBody begun).map arrival)).length < items.length := by
  apply h
  · exact (hle.map _).map arrival
  · intro heq
    have hlength := congrArg List.length heq
    simp only [bytesBody, Body.mapFrame, List.length_map] at hlength
    exact hne (hle.eq_of_length hlength)

/-- A call that hands an item out: the frames taken so far are the shortest beginning of the body
that completes it. -/
theorem demanded (hreads : L.Reads P) {body : Body β ε} {n : ℕ} {items : List (Except ε τ)}
    {item : Except ε τ} (hd : drive L.pollNext (L.opened P.start body) n = some (items, s))
    (hp : L.pollNext s = some (t, .ready (some item))) :
    ∃ consumed rest, body = consumed ++ rest ∧ (L.fields t).body = bytesBody rest ∧
      items ++ item :: (L.fields t).ready.map L.item =
        reference P lf Except.error [] ((bytesBody consumed).map arrival) ∧
      ∀ begun, begun <+: consumed → begun ≠ consumed →
        (reference P lf Except.error [] ((bytesBody begun).map arrival)).length ≤
          items.length := by
  obtain ⟨taken, r, hm, hsplit, hitems, hshortest⟩ :=
    simulated_demand (pollNext_simulates hreads (bytesBody body))
      (models_opened body) hd hp (List.cons_ne_nil item [])
  rw [← hm.read] at hsplit hitems
  obtain ⟨consumed, rest, hcut, hrest, rfl⟩ := taken_of_suffix hm.taken hsplit
  refine ⟨consumed, rest, hcut, hrest, ?_, ?_⟩
  · rw [← hitems, items_ready, List.append_assoc]
    rfl
  · intro begun hle hne
    have hless := shortest_frames hshortest hle hne
    rw [items_ready, List.length_append] at hless
    exact Nat.le_of_lt_succ hless

end runs

end LineStream

end LineStreams
