import Navar.SseDispatch
import Navar.SseEventIds
import Navar.SseRoundTrip

/-! # What the lines of an event stream say

The parser obeys one line after another, and all that it takes from a line is a command. So a
stream means what its commands say, block by block, and two runs of lines can stand for one
another wherever they come exactly if they say the same. -/
namespace SseCommands

open ByteBuffers
open LineSplitting
open PollStreams
open LossyText
open HttpMessages
open LineScanning
open SseStreams
open SseRefinement
open SseLines
open SseDispatch (closedBlocks)
open SseEventIds (IdsAgree)
open SseRoundTrip (joined following)

variable {β γ ε ε' : Type}

inductive Command where
  | dispatch
  | data (value : Str)
  | id (value : Str)
  | event (value : Str)
  | ignored
  deriving DecidableEq, Repr

namespace Command

def ofField (name value : Str) : Command :=
  if name = SseStream.dataName then .data value
  else if name = SseStream.idName then .id value
  else if name = SseStream.eventName then .event value
  else .ignored

def ofText (text : Str) : Command :=
  if text.isEmpty then .dispatch
  else
    let (name, value?) := SseStream.splitField text
    ofField name ((value?.map trimStart).getD [])

def isDispatch : Command → Bool
  | .dispatch => true
  | _ => false

def dataValue : Command → Option Str
  | .data value => some value
  | _ => none

def idValue : Command → Option Str
  | .id value => some value
  | _ => none

def eventValue : Command → Option Str
  | .event value => some value
  | _ => none

end Command

def command (line : Bytes) : Command := Command.ofText (trimEnd (fromUtf8Lossy line))

/-- The fields of a block of commands: the last id and event name count, and all the data. -/
structure Fields where
  id : Option Str
  event : Option Str
  data : List Str
  deriving DecidableEq, Repr

def fields (cs : List Command) : Fields where
  id := (cs.filterMap Command.idValue).getLast?
  event := (cs.filterMap Command.eventValue).getLast?
  data := cs.filterMap Command.dataValue

/-- The event of a block. Data is joined by line feeds, but none stands before the first piece
that has a character. -/
def said (cs : List Command) : SseEvent where
  id := (fields cs).id
  event := (fields cs).event
  data := ['\n'].intercalate ((fields cs).data.dropWhile (·.isEmpty))

def Fields.fill (f : Fields) (ev : SseEvent) : SseEvent where
  id := f.id.or ev.id
  event := f.event.or ev.event
  data := joined ev.data f.data

def perform (s : SseStream ε) : Command → SseStream ε
  | .dispatch => { s with readyEvents := s.readyEvents ++ [s.pendingEvent], pendingEvent := {} }
  | .data value => { s with pendingEvent := s.pendingEvent.pushData value }
  | .id value =>
    { s with
      pendingEvent := { s.pendingEvent with id := some value }
      lastEventId := some value }
  | .event value => { s with pendingEvent := { s.pendingEvent with event := some value } }
  | .ignored => s

section performing

theorem processLine_ofText (s : SseStream ε) (text : Str) :
    s.processLine text = perform s (Command.ofText text) := by
  by_cases ht : text.isEmpty = true
  · rw [SseStream.processLine, Command.ofText, if_pos ht, if_pos ht]
    rfl
  · rw [SseStream.processLine, Command.ofText, if_neg ht, if_neg ht]
    simp only [Command.ofField]
    split_ifs <;> rfl

theorem fold_commands (s : SseStream ε) (ls : List Bytes) :
    ls.foldl SseStream.consumeLine s = (ls.map command).foldl perform s := by
  rw [List.foldl_map]
  have hstep : ∀ (t : SseStream ε) line, t.consumeLine line = perform t (command line) :=
    fun t line => processLine_ofText t _
  simp only [← hstep]

theorem getLast?_cons_or {α : Type} (a : α) (xs : List α) (x : Option α) :
    (a :: xs).getLast?.or x = xs.getLast?.or (some a) := by
  rw [List.getLast?_cons]
  cases xs.getLast? <;> rfl

theorem fold_open (s : SseStream ε) {cs : List Command} (h : ∀ c ∈ cs, c ≠ .dispatch) :
    cs.foldl perform s =
      { s with
        pendingEvent := (fields cs).fill s.pendingEvent
        lastEventId := (fields cs).id.or s.lastEventId } := by
  induction cs generalizing s with
  | nil => rfl
  | cons c cs ih =>
    obtain ⟨hc, hcs⟩ := List.forall_mem_cons.mp h
    rw [List.foldl_cons, ih _ hcs]
    cases c with
    | dispatch => exact absurd rfl hc
    | data value => rfl
    | id value =>
      simp [perform, fields, Fields.fill, Command.idValue, Command.eventValue, Command.dataValue,
        List.filterMap_cons, getLast?_cons_or]
    | event value =>
      simp [perform, fields, Fields.fill, Command.idValue, Command.eventValue, Command.dataValue,
        List.filterMap_cons, getLast?_cons_or]
    | ignored => rfl

theorem intercalate_following (value : Str) (values : List Str) :
    ['\n'].intercalate (value :: values) = value ++ following values := by
  induction values generalizing value with
  | nil => simp [following]
  | cons next values ih =>
    rw [List.intercalate_cons_of_ne_nil (List.cons_ne_nil next values), ih]
    simp [following]

theorem joined_nil (values : List Str) :
    joined [] values = ['\n'].intercalate (values.dropWhile (·.isEmpty)) := by
  induction values with
  | nil => rfl
  | cons value values ih =>
    rw [SseRoundTrip.joined_cons]
    by_cases hv : value = []
    · rw [hv]
      simpa using ih
    · have hempty : value.isEmpty = false := by simpa using hv
      have hkeep : (value :: values).dropWhile (·.isEmpty) = value :: values := by
        simp [hempty]
      rw [hkeep, intercalate_following]
      exact SseRoundTrip.joined_of_ne_nil hv values

theorem said_eq_fill (cs : List Command) : said cs = (fields cs).fill {} := by
  simp [said, Fields.fill, joined_nil]

theorem fill_append (cs cs' : List Command) (ev : SseEvent) :
    (fields (cs ++ cs')).fill ev = (fields cs').fill ((fields cs).fill ev) := by
  simp [fields, Fields.fill, joined, Option.or_assoc]

theorem fold_last (s : SseStream ε) (cs : List Command) :
    (cs.foldl perform s).lastEventId = (fields cs).id.or s.lastEventId := by
  induction cs generalizing s with
  | nil => rfl
  | cons c cs ih =>
    rw [List.foldl_cons, ih]
    cases c with
    | id value => simp [perform, fields, Command.idValue, List.filterMap_cons, getLast?_cons_or]
    | _ => rfl

/-- The blocks that are closed are dispatched one after another. -/
theorem fold_said {s : SseStream ε} {block : List Command}
    (hblock : ∀ c ∈ block, c ≠ .dispatch) (h : s.pendingEvent = said block) (cs : List Command) :
    (cs.foldl perform s).readyEvents =
      s.readyEvents ++ (closedBlocks Command.isDispatch block cs).map said := by
  induction cs generalizing s block with
  | nil => simp [closedBlocks]
  | cons c cs ih =>
    rw [List.foldl_cons]
    by_cases hc : c = .dispatch
    · subst hc
      have hempty : ∀ c ∈ ([] : List Command), c ≠ .dispatch := by simp
      rw [ih hempty rfl]
      simp [perform, closedBlocks, Command.isDispatch, h]
    · have hopen : Command.isDispatch c = false := by
        cases c <;> first | rfl | exact absurd rfl hc
      have hgrown : ∀ c' ∈ block ++ [c], c' ≠ .dispatch := by
        intro c' hmem
        rcases List.mem_append.mp hmem with hmem | hmem
        · exact hblock c' hmem
        · rw [List.mem_singleton.mp hmem]
          exact hc
      have hpending : (perform s c).pendingEvent = said (block ++ [c]) := by
        have hone : ∀ c' ∈ [c], c' ≠ .dispatch := by simpa using hc
        have hstep := congrArg SseStream.pendingEvent (fold_open s hone)
        rw [said_eq_fill, fill_append, ← said_eq_fill, ← h]
        exact hstep
      have hready : (perform s c).readyEvents = s.readyEvents := by
        cases c <;> first | rfl | exact absurd rfl hc
      rw [ih hgrown hpending, hready]
      simp [closedBlocks, hopen]

end performing

/-- Every block that a line closes is dispatched as the event that its commands say, and the last
id is that of all commands, those of the open block included. -/
theorem stream_says [Buf β] (body : Body β ε) :
    let cs := (lines lf (Body.dataBytes body)).map command
    EndsWith body ((closedBlocks Command.isDispatch [] cs).map said) (fields cs).id := by
  intro cs
  have hends := endsWith_new body
  have hempty : ∀ c ∈ ([] : List Command), c ≠ .dispatch := by simp
  rw [batchEvents, fold_commands, fold_said hempty rfl, fold_last] at hends
  have hfresh : (fields cs).id.or SseStream.fresh.lastEventId = (fields cs).id := Option.or_none
  rwa [hfresh] at hends

/-- What a run of lines says: its fields up to the first empty line, and, if there is one, the
events that the lines behind it dispatch and the event that they leave open. -/
structure Meaning where
  opening : Fields
  rest : Option (List SseEvent × SseEvent)
  deriving DecidableEq, Repr

def meaning (cs : List Command) : Meaning where
  opening := fields (cs.takeWhile (!·.isDispatch))
  rest :=
    match cs.dropWhile (!·.isDispatch) with
    | [] => none
    | _ :: rest =>
      let s := rest.foldl perform SseStream.fresh
      some (s.readyEvents, s.pendingEvent)

/-- What lines of this meaning do to a parser. -/
def obey (s : SseStream ε) (m : Meaning) : SseStream ε :=
  match m.rest with
  | none =>
    { s with
      pendingEvent := m.opening.fill s.pendingEvent
      lastEventId := m.opening.id.or s.lastEventId }
  | some (events, ev) =>
    { s with
      readyEvents := s.readyEvents ++ m.opening.fill s.pendingEvent :: events
      pendingEvent := ev
      lastEventId := (SseEventIds.lastId (events ++ [ev])).or (m.opening.id.or s.lastEventId) }

/-- Wherever the lines stand in a stream, and in whatever frames it comes, the others can stand
there in their place. -/
def Interchangeable (ls ls' : List Bytes) : Prop :=
  ∀ (before : List Bytes) (after : Bytes), (∀ l ∈ before, lf ∉ l) →
    ∀ {β γ ε ε' : Type} [Buf β] [Buf γ] (body : Body β ε) (body' : Body γ ε'),
      Body.dataBytes body = unlines lf (before ++ ls) ++ after →
      Body.dataBytes body' = unlines lf (before ++ ls') ++ after →
      ∃ events lastId, EndsWith body events lastId ∧ EndsWith body' events lastId

section meaning

theorem perform_idsAgree {events : List SseEvent} {s : SseStream ε} (h : IdsAgree events s)
    (c : Command) : IdsAgree events (perform s c) := by
  rw [IdsAgree, SseEventIds.lastId_append] at h
  rw [IdsAgree]
  cases c with
  | dispatch =>
    simp only [perform]
    rw [← List.append_assoc, SseEventIds.lastId_append, SseEventIds.lastId_append]
    exact h
  | id value =>
    rw [SseEventIds.lastId_append]
    rfl
  | _ =>
    rw [SseEventIds.lastId_append]
    exact h

theorem fold_idsAgree {events : List SseEvent} {s : SseStream ε} (h : IdsAgree events s)
    (cs : List Command) : IdsAgree events (cs.foldl perform s) := by
  induction cs generalizing s with
  | nil => exact h
  | cons c cs ih => exact ih (perform_idsAgree h c)

/-- `s` after a parser that started afresh has become `t`. -/
def behind (s : SseStream ε) (t : SseStream ε') : SseStream ε :=
  { s with
    pendingEvent := t.pendingEvent
    readyEvents := s.readyEvents ++ t.readyEvents
    lastEventId := t.lastEventId.or s.lastEventId }

theorem perform_behind (s : SseStream ε) (t : SseStream ε') (c : Command) :
    perform (behind s t) c = behind s (perform t c) := by
  cases c <;> simp [perform, behind]

theorem fold_behind (s : SseStream ε) (t : SseStream ε') (cs : List Command) :
    cs.foldl perform (behind s t) = behind s (cs.foldl perform t) := by
  induction cs generalizing t with
  | nil => rfl
  | cons c cs ih => rw [List.foldl_cons, perform_behind, ih, List.foldl_cons]

theorem fold_meaning (s : SseStream ε) (cs : List Command) :
    cs.foldl perform s = obey s (meaning cs) := by
  have hopen : ∀ c ∈ cs.takeWhile (!·.isDispatch), c ≠ .dispatch := by
    intro c hc heq
    have hnot := List.mem_takeWhile_imp hc
    rw [heq] at hnot
    cases hnot
  have hcut := List.takeWhile_append_dropWhile (p := (!·.isDispatch)) (l := cs)
  rw [meaning, obey]
  cases hrest : cs.dropWhile (!·.isDispatch) with
  | nil =>
    rw [hrest, List.append_nil] at hcut
    have hfold := fold_open s hopen
    rw [hcut] at hfold ⊢
    exact hfold
  | cons c rest =>
    have hc : c = .dispatch := by
      have hne : cs.dropWhile (fun c => !c.isDispatch) ≠ [] := by
        rw [hrest]
        exact List.cons_ne_nil c rest
      have hhead := List.head_dropWhile_not (fun c : Command => !c.isDispatch) hne
      simp only [hrest, List.head_cons] at hhead
      cases c <;> first | rfl | cases hhead
    have hfresh : IdsAgree [] SseStream.fresh := rfl
    have hids := fold_idsAgree hfresh rest
    rw [IdsAgree, List.nil_append] at hids
    conv_lhs => rw [← hcut]
    rw [hrest, List.foldl_append, fold_open s hopen, List.foldl_cons, hc]
    have hstart : ∀ t : SseStream ε, perform t .dispatch =
        behind { t with readyEvents := t.readyEvents ++ [t.pendingEvent] } SseStream.fresh := by
      intro t
      simp [perform, behind, SseStream.fresh, SseStream.new]
    rw [hstart, fold_behind]
    simp [behind, hids]

theorem lines_behind {ls : List Bytes} (h : ∀ l ∈ ls, lf ∉ l) (after : Bytes) :
    lines lf (unlines lf ls ++ after) = ls ++ lines lf after := by
  rw [lines_append, (lines_unlines h).1, (lines_unlines h).2, List.nil_append]

theorem endsWith_unique [Buf β] {body : Body β ε} {events events' : List SseEvent}
    {lastId lastId' : Option Str} (h : EndsWith body events lastId)
    (h' : EndsWith body events' lastId') : events = events' ∧ lastId = lastId' := by
  obtain ⟨N, hN⟩ := h
  obtain ⟨M, hM⟩ := h'
  obtain ⟨items, s, hd, _, rfl, rfl⟩ := hN (max N M) (Nat.le_max_left N M)
  obtain ⟨items', s', hd', _, rfl, rfl⟩ := hM (max N M) (Nat.le_max_right N M)
  rw [hd] at hd'
  cases hd'
  exact ⟨rfl, rfl⟩

theorem interchangeable_of_meaning {ls ls' : List Bytes} (h : ∀ l ∈ ls, lf ∉ l)
    (h' : ∀ l ∈ ls', lf ∉ l) (hsame : meaning (ls.map command) = meaning (ls'.map command)) :
    Interchangeable ls ls' := by
  intro before after hbefore β γ ε ε' _ _ body body' hbody hbody'
  have hfold : ∀ {ks : List Bytes}, (∀ l ∈ ks, lf ∉ l) →
      (lines lf (unlines lf (before ++ ks) ++ after)).foldl SseStream.consumeLine
        SseStream.fresh = (lines lf after).foldl SseStream.consumeLine
          (obey (before.foldl SseStream.consumeLine SseStream.fresh)
            (meaning (ks.map command))) := by
    intro ks hks
    have hall : ∀ l ∈ before ++ ks, lf ∉ l := by
      intro l hl
      rcases List.mem_append.mp hl with hl | hl
      · exact hbefore l hl
      · exact hks l hl
    rw [lines_behind hall, List.foldl_append, List.foldl_append, fold_commands _ ks, fold_meaning]
  have hends := endsWith_new body
  have hends' := endsWith_new body'
  rw [batchEvents, hbody, hfold h] at hends
  rw [batchEvents, hbody', hfold h', ← hsame] at hends'
  exact ⟨_, _, hends, hends'⟩

theorem ofText_data {text value : Str} (h : Command.ofText text = .data value) :
    value.Sublist text := by
  rw [Command.ofText] at h
  split_ifs at h
  simp only [Command.ofField] at h
  split_ifs at h
  cases h
  rw [SseStream.splitField]
  have hafter := List.dropWhile_sublist (p := (· ≠ ':')) (l := text)
  cases hd : text.dropWhile (· ≠ ':') with
  | nil => exact List.nil_sublist text
  | cons c after =>
    rw [hd] at hafter
    have hvalue := List.dropWhile_sublist (p := isWhitespace) (l := after)
    exact (hvalue.trans (List.sublist_cons_self c after)).trans hafter

theorem data_single_line {ls : List Bytes} (h : ∀ l ∈ ls, lf ∉ l) {value : Str}
    (hv : .data value ∈ ls.map command) : '\n' ∉ value := by
  obtain ⟨l, hl, hcommand⟩ := List.mem_map.mp hv
  have htext : '\n' ∉ fromUtf8Lossy l := lineFeed_not_mem (h l hl)
  intro hmem
  apply htext
  exact (List.rdropWhile_prefix isWhitespace _).sublist.subset
    ((ofText_data hcommand).subset hmem)

theorem following_injective {values values' : List Str} (h : ∀ v ∈ values, '\n' ∉ v)
    (h' : ∀ v ∈ values', '\n' ∉ v) (heq : following values = following values') :
    values = values' := by
  have hsplit : ∀ {vs : List Str}, (∀ v ∈ vs, '\n' ∉ v) →
      (following vs).splitOn '\n' = [] :: vs := by
    intro vs hvs
    have hjoin : following vs = ['\n'].intercalate ([] :: vs) := by
      rw [intercalate_following, List.nil_append]
    rw [hjoin]
    apply List.splitOn_intercalate
    · simpa using hvs
    · exact List.cons_ne_nil [] vs
  have hcons := (hsplit h).symm.trans ((congrArg _ heq).trans (hsplit h'))
  exact (List.cons.inj hcons).2

theorem fill_injective {f f' : Fields} {data : Str} (hdata : data ≠ [])
    (h : ∀ v ∈ f.data, '\n' ∉ v) (h' : ∀ v ∈ f'.data, '\n' ∉ v)
    (heq : f.fill { data := data } = f'.fill { data := data }) : f = f' := by
  obtain ⟨id, event, values⟩ := f
  obtain ⟨id', event', values'⟩ := f'
  simp only [Fields.fill, SseEvent.mk.injEq, Option.or_none, SseRoundTrip.joined_of_ne_nil hdata,
    List.append_cancel_left_eq] at heq
  obtain ⟨rfl, rfl, hvalues⟩ := heq
  have hdata : values = values' := following_injective h h' hvalues
  rw [hdata]

/-- The events of a stream with the lines between a line of data and an empty line. -/
def probe (m : Meaning) : List SseEvent :=
  let first := m.opening.fill { data := ['x'] }
  match m.rest with
  | none => [first]
  | some (events, ev) => first :: events ++ [ev]

def dataLine : Bytes := [100, 97, 116, 97, 58, 120]

theorem probe_events {ls : List Bytes} (h : ∀ l ∈ ls, lf ∉ l) :
    batchEvents (unlines lf ([dataLine] ++ ls) ++ [lf]) = probe (meaning (ls.map command)) := by
  have hall : ∀ l ∈ [dataLine] ++ ls, lf ∉ l := by
    intro l hl
    rcases List.mem_append.mp hl with hl | hl
    · rw [List.mem_singleton.mp hl]
      decide
    · exact h l hl
  have hline : command dataLine = .data ['x'] := by decide
  have hempty : (lines lf [lf]).map command = [.dispatch] := by decide
  rw [batchEvents, lines_behind hall, fold_commands, List.map_append, List.map_append, hempty,
    List.foldl_append, List.foldl_append, fold_meaning _ (ls.map command), List.map_singleton,
    hline]
  cases hrest : (meaning (ls.map command)).rest with
  | none => simp only [obey, probe, hrest]; rfl
  | some rest => simp only [obey, probe, hrest]; rfl

theorem probe_injective {m m' : Meaning} (h : ∀ v ∈ m.opening.data, '\n' ∉ v)
    (h' : ∀ v ∈ m'.opening.data, '\n' ∉ v) (heq : probe m = probe m') : m = m' := by
  obtain ⟨opening, rest⟩ := m
  obtain ⟨opening', rest'⟩ := m'
  have hopening : ∀ heq : opening.fill { data := ['x'] } = opening'.fill { data := ['x'] },
      opening = opening' := fill_injective (List.cons_ne_nil 'x' []) h h'
  rcases rest with _ | ⟨events, ev⟩ <;> rcases rest' with _ | ⟨events', ev'⟩
  · rw [hopening (List.cons.inj heq).1]
  · simp [probe] at heq
  · simp [probe] at heq
  · obtain ⟨hfirst, hbehind⟩ := List.cons.inj heq
    obtain ⟨rfl, hlast⟩ := List.append_inj' hbehind rfl
    rw [hopening hfirst, List.cons.inj hlast |>.1]

theorem opening_single_line {ls : List Bytes} (h : ∀ l ∈ ls, lf ∉ l) :
    ∀ v ∈ (meaning (ls.map command)).opening.data, '\n' ∉ v := by
  intro v hv
  obtain ⟨c, hc, hvalue⟩ := List.mem_filterMap.mp hv
  have hmem : c ∈ ls.map command := (List.takeWhile_sublist _).subset hc
  cases c with
  | data value =>
    cases hvalue
    exact data_single_line h hmem
  | _ => cases hvalue

theorem meaning_of_interchangeable {ls ls' : List Bytes} (h : ∀ l ∈ ls, lf ∉ l)
    (h' : ∀ l ∈ ls', lf ∉ l) (hinter : Interchangeable ls ls') :
    meaning (ls.map command) = meaning (ls'.map command) := by
  have hbytes : ∀ bs : Bytes,
      Body.dataBytes ([.ready (.ok (.data bs))] : Body Bytes Unit) = bs :=
    fun bs => List.append_nil bs
  have hbefore : ∀ l ∈ [dataLine], lf ∉ l := by decide
  obtain ⟨events, lastId, hends, hends'⟩ :=
    hinter [dataLine] [lf] hbefore _ _ (hbytes _) (hbytes _)
  have hevents := (endsWith_unique (endsWith_new _) hends).1
  have hevents' := (endsWith_unique (endsWith_new _) hends').1
  rw [hbytes, probe_events h] at hevents
  rw [hbytes, probe_events h'] at hevents'
  exact probe_injective (opening_single_line h) (opening_single_line h')
    (hevents.trans hevents'.symm)

end meaning

section lines

theorem meaning_single {c c' : Command} : meaning [c] = meaning [c'] ↔ c = c' := by
  constructor
  · intro h
    revert h
    cases c <;> cases c' <;> simp [meaning, fields, Command.isDispatch, Command.idValue,
      Command.eventValue, Command.dataValue, List.filterMap_cons]
  · rintro rfl
    rfl

theorem meaning_nothing {c : Command} : meaning [c] = meaning [] ↔ c = .ignored := by
  cases c <;> simp [meaning, fields, Command.isDispatch, Command.idValue, Command.eventValue,
    Command.dataValue]

end lines

/-- Lines can stand for one another in every stream exactly if they mean the same; for single lines
that is the same command, and only an ignored line can be left out. -/
theorem interchangeable_iff {ls ls' : List Bytes} (h : ∀ l ∈ ls, lf ∉ l)
    (h' : ∀ l ∈ ls', lf ∉ l) :
    (Interchangeable ls ls' ↔ meaning (ls.map command) = meaning (ls'.map command)) ∧
    (∀ l ∈ ls, ∀ l' ∈ ls', Interchangeable [l] [l'] ↔ command l = command l') ∧
    ∀ l ∈ ls, Interchangeable [l] [] ↔ command l = .ignored := by
  have key : ∀ {ks ks' : List Bytes}, (∀ l ∈ ks, lf ∉ l) → (∀ l ∈ ks', lf ∉ l) →
      (Interchangeable ks ks' ↔ meaning (ks.map command) = meaning (ks'.map command)) :=
    fun hk hk' => ⟨meaning_of_interchangeable hk hk', interchangeable_of_meaning hk hk'⟩
  have hone : ∀ {ks : List Bytes}, (∀ l ∈ ks, lf ∉ l) → ∀ k ∈ ks, ∀ l ∈ [k], lf ∉ l := by
    intro ks hks k hk l hl
    rw [List.mem_singleton.mp hl]
    exact hks k hk
  refine ⟨key h h', ?_, ?_⟩
  · intro l hl l' hl'
    rw [key (hone h l hl) (hone h' l' hl')]
    exact meaning_single
  · intro l hl
    rw [key (hone h l hl) (fun l hl => absurd hl List.not_mem_nil)]
    exact meaning_nothing

/-- A comment can be left out; a line of data without text cannot. -/
theorem interchangeable_iff_comment :
    Interchangeable [[58, 32, 120]] [] ∧ ¬ Interchangeable [[100, 97, 116, 97]] [] := by
  have hcomment : ∀ l ∈ [([58, 32, 120] : Bytes)], lf ∉ l := by decide
  have hdata : ∀ l ∈ [([100, 97, 116, 97] : Bytes)], lf ∉ l := by decide
  have hnone : ∀ l ∈ ([] : List Bytes), lf ∉ l := by simp
  refine ⟨(interchangeable_iff hcomment hnone).1.mpr (by decide), ?_⟩
  intro hinter
  have hsame := (interchangeable_iff hdata hnone).1.mp hinter
  revert hsame
  decide

end SseCommands
