import Navar.LineSplitting
import Navar.PollStreams

/-! # Reading lines from a source that arrives in pieces

An abstract reader: pieces arrive, the terminated lines among them are handed to a parser in
order, the parser's output waits in a queue, and a call hands out one element of the queue.
The reader is compared with a parser that is given everything that arrived at once. -/
namespace FramedLines

open LineSplitting
open PollStreams

variable {α ε σ ι : Type*}

structure Parser (α σ ι : Type*) where
  start : σ
  step : σ → List α → σ × List ι

def Parser.run (P : Parser α σ ι) (m : σ) : List (List α) → σ × List ι
  | [] => (m, [])
  | l :: ls =>
    let next := P.step m l
    let rest := P.run next.1 ls
    (rest.1, next.2 ++ rest.2)

theorem run_append (P : Parser α σ ι) (m : σ) (ls ks : List (List α)) :
    P.run m (ls ++ ks) =
      ((P.run (P.run m ls).1 ks).1, (P.run m ls).2 ++ (P.run (P.run m ls).1 ks).2) := by
  induction ls generalizing m with
  | nil => rfl
  | cons l ls ih => simp [Parser.run, ih]

inductive Arrival (α ε : Type*) where
  | piece (xs : List α)
  | fault (e : ε)
  | idle

def content : List (Arrival α ε) → List α
  | [] => []
  | .piece xs :: rest => xs ++ content rest
  | .fault _ :: rest => content rest
  | .idle :: rest => content rest

theorem content_append (as bs : List (Arrival α ε)) :
    content (as ++ bs) = content as ++ content bs := by
  induction as with
  | nil => rfl
  | cons a as ih => cases a <;> simp [content, ih]

structure Reader (α ε σ ι : Type*) where
  source : List (Arrival α ε)
  unread : List α
  memory : σ
  queue : List ι

def Reader.init (P : Parser α σ ι) (source : List (Arrival α ε)) : Reader α ε σ ι :=
  ⟨source, [], P.start, []⟩

variable [DecidableEq α]

def Reader.absorb (P : Parser α σ ι) (sep : α) (r : Reader α ε σ ι) (xs : List α) :
    Reader α ε σ ι :=
  let parsed := P.run r.memory (lines sep (r.unread ++ xs))
  { r with
    unread := unfinished sep (r.unread ++ xs)
    memory := parsed.1
    queue := r.queue ++ parsed.2 }

def Reader.deliver (r : Reader α ε σ ι) : Reader α ε σ ι × Poll (Option ι) :=
  match r.queue with
  | i :: q => ({ r with queue := q }, .ready (some i))
  | [] => (r, .pending)

/-- The queue first; only an empty queue lets the source be asked. -/
def Reader.call (P : Parser α σ ι) (sep : α) (fault : ε → ι) (r : Reader α ε σ ι) :
    Reader α ε σ ι × Poll (Option ι) :=
  match r.queue with
  | i :: q => ({ r with queue := q }, .ready (some i))
  | [] =>
    match r.source with
    | [] => (r, .ready none)
    | .idle :: rest => ({ r with source := rest }, .pending)
    | .fault e :: rest => ({ r with source := rest }, .ready (some (fault e)))
    | .piece xs :: rest => (Reader.absorb P sep { r with source := rest } xs).deliver

def Parser.parse (P : Parser α σ ι) (sep : α) (xs : List α) : List ι :=
  (P.run P.start (lines sep xs)).2

def Parser.recall (P : Parser α σ ι) (sep : α) (xs : List α) : σ :=
  (P.run P.start (lines sep xs)).1

theorem parse_append (P : Parser α σ ι) (sep : α) (xs ys : List α) :
    P.parse sep (xs ++ ys) =
      P.parse sep xs ++ (P.run (P.recall sep xs) (lines sep (unfinished sep xs ++ ys))).2 := by
  rw [Parser.parse, lines_append, run_append]
  rfl

theorem recall_append (P : Parser α σ ι) (sep : α) (xs ys : List α) :
    P.recall sep (xs ++ ys) =
      (P.run (P.recall sep xs) (lines sep (unfinished sep xs ++ ys))).1 := by
  rw [Parser.recall, lines_append, run_append]
  rfl

/-- The reference: every piece contributes what parsing all the elements up to its end gives
beyond what parsing all the elements up to its beginning gives; a fault stands at its place. -/
def reference (P : Parser α σ ι) (sep : α) (fault : ε → ι) (seen : List α) :
    List (Arrival α ε) → List ι
  | [] => []
  | .piece xs :: rest =>
    (P.parse sep (seen ++ xs)).drop (P.parse sep seen).length ++
      reference P sep fault (seen ++ xs) rest
  | .fault e :: rest => fault e :: reference P sep fault seen rest
  | .idle :: rest => reference P sep fault seen rest

theorem reference_append (P : Parser α σ ι) (sep : α) (fault : ε → ι) (seen : List α)
    (as bs : List (Arrival α ε)) :
    reference P sep fault seen (as ++ bs) =
      reference P sep fault seen as ++ reference P sep fault (seen ++ content as) bs := by
  induction as generalizing seen with
  | nil => simp [reference, content]
  | cons a as ih => cases a <;> simp [reference, content, ih]

/-- Each fault with everything that arrived before it. -/
def marks (seen : List α) : List (Arrival α ε) → List (List α × ε)
  | [] => []
  | .piece xs :: rest => marks (seen ++ xs) rest
  | .fault e :: rest => (seen, e) :: marks seen rest
  | .idle :: rest => marks seen rest

/-- The reference without the pieces: what the elements before a fault complete comes before
the fault, what the later ones complete comes after it. -/
def marked (P : Parser α σ ι) (sep : α) (fault : ε → ι) (seen total : List α) :
    List (List α × ε) → List ι
  | [] => (P.parse sep total).drop (P.parse sep seen).length
  | (upto, e) :: rest =>
    (P.parse sep upto).drop (P.parse sep seen).length ++
      fault e :: marked P sep fault upto total rest

theorem parse_isPrefix (P : Parser α σ ι) (sep : α) {xs ys : List α} (h : xs <+: ys) :
    P.parse sep xs <+: P.parse sep ys := by
  obtain ⟨zs, rfl⟩ := h
  rw [parse_append]
  exact List.prefix_append _ _

theorem parse_skip (P : Parser α σ ι) (sep : α) {xs ys zs : List α} (h : xs <+: ys)
    (h' : ys <+: zs) :
    (P.parse sep ys).drop (P.parse sep xs).length ++
      (P.parse sep zs).drop (P.parse sep ys).length =
    (P.parse sep zs).drop (P.parse sep xs).length := by
  obtain ⟨new, hnew⟩ := parse_isPrefix P sep h
  obtain ⟨more, hmore⟩ := parse_isPrefix P sep h'
  rw [← hmore, ← hnew, List.drop_left, List.drop_left, List.append_assoc, List.drop_left]

theorem marked_skip (P : Parser α σ ι) (sep : α) (fault : ε → ι) {xs ys zs : List α}
    (h : xs <+: ys) (h' : ys <+: zs) (as : List (Arrival α ε)) :
    (P.parse sep ys).drop (P.parse sep xs).length ++
      marked P sep fault ys (zs ++ content as) (marks zs as) =
    marked P sep fault xs (zs ++ content as) (marks zs as) := by
  induction as generalizing zs with
  | nil => exact parse_skip P sep h (h'.trans (List.prefix_append _ _))
  | cons a as ih =>
    cases a with
    | idle => exact ih h'
    | piece ws =>
      simp only [marks, content, ← List.append_assoc]
      exact ih (h'.trans (List.prefix_append _ _))
    | fault e =>
      simp only [marks, marked]
      rw [← List.append_assoc, parse_skip P sep h h']

theorem reference_eq_marked (P : Parser α σ ι) (sep : α) (fault : ε → ι) (seen : List α)
    (as : List (Arrival α ε)) :
    reference P sep fault seen as =
      marked P sep fault seen (seen ++ content as) (marks seen as) := by
  induction as generalizing seen with
  | nil => simp [reference, marked, marks, content]
  | cons a as ih =>
    cases a with
    | idle => exact ih seen
    | fault e => simp [reference, marked, marks, content, ih]
    | piece xs =>
      simp only [reference, marks, content, ih, ← List.append_assoc]
      exact marked_skip P sep fault (List.prefix_append _ _) (List.prefix_refl _) as

/-- What `n` calls have left behind, in terms of the arrivals that were consumed. -/
structure Explains (P : Parser α σ ι) (sep : α) (fault : ε → ι) (source : List (Arrival α ε))
    (consumed : List (Arrival α ε)) (n : ℕ) (items : List ι) (r : Reader α ε σ ι) : Prop where
  split : consumed ++ r.source = source
  unread : r.unread = unfinished sep (content consumed)
  memory : r.memory = P.recall sep (content consumed)
  queue : items ++ r.queue = reference P sep fault [] consumed
  progress : n ≤ consumed.length + items.length ∨ (r.queue = [] ∧ r.source = [])

theorem explains_init (P : Parser α σ ι) (sep : α) (fault : ε → ι)
    (source : List (Arrival α ε)) :
    Explains P sep fault source [] 0 [] (Reader.init P source) :=
  ⟨rfl, rfl, rfl, rfl, Or.inl (Nat.zero_le _)⟩

theorem explains_absorb {P : Parser α σ ι} {sep : α} {fault : ε → ι}
    {source consumed rest : List (Arrival α ε)} {n : ℕ} {items : List ι}
    {r : Reader α ε σ ι} {xs : List α} (h : Explains P sep fault source consumed n items r)
    (hq : r.queue = []) (hs : r.source = .piece xs :: rest) :
    Explains P sep fault source (consumed ++ [.piece xs]) (n + 1) items
      (Reader.absorb P sep { r with source := rest } xs) := by
  have hc : content (consumed ++ [.piece xs]) = content consumed ++ xs := by
    simp [content_append, content]
  refine ⟨?_, ?_, ?_, ?_, Or.inl ?_⟩
  · rw [← h.split, hs]; simp [Reader.absorb]
  · rw [hc, unfinished_append, ← h.unread]; rfl
  · rw [hc, recall_append, ← h.unread, ← h.memory]; rfl
  · have hi : items = reference P sep fault [] consumed := by simpa [hq] using h.queue
    rw [reference_append, ← hi]
    simp [reference, Reader.absorb, hq, parse_append, h.unread, h.memory]
  · rcases h.progress with hp | ⟨_, hn⟩
    · simp only [List.length_append, List.length_singleton]; omega
    · simp [hs] at hn

theorem explains_deliver {P : Parser α σ ι} {sep : α} {fault : ε → ι}
    {source consumed : List (Arrival α ε)} {n : ℕ} {items : List ι} {r : Reader α ε σ ι}
    (h : Explains P sep fault source consumed n items r)
    (hp : n ≤ consumed.length + items.length) :
    Explains P sep fault source consumed n (items ++ r.deliver.2.items) r.deliver.1 := by
  unfold Reader.deliver
  split
  next i q hq =>
    refine ⟨h.split, h.unread, h.memory, ?_, Or.inl ?_⟩
    · rw [← h.queue, hq]; simp
    · simp; omega
  next => simpa using h

theorem explains_call {P : Parser α σ ι} {sep : α} {fault : ε → ι}
    {source consumed : List (Arrival α ε)} {n : ℕ} {items : List ι} {r : Reader α ε σ ι}
    (h : Explains P sep fault source consumed n items r) :
    ∃ consumed', Explains P sep fault source consumed' (n + 1)
      (items ++ (r.call P sep fault).2.items) (r.call P sep fault).1 := by
  obtain ⟨src, unread, memory, queue⟩ := r
  obtain ⟨hsplit, hunread, hmemory, hqueue, hprogress⟩ := h
  cases queue with
  | cons i q =>
    refine ⟨consumed, hsplit, hunread, hmemory, ?_, Or.inl ?_⟩
    · rw [← hqueue]; simp [Reader.call]
    · rcases hprogress with hp | ⟨hn, _⟩
      · simp [Reader.call]; omega
      · simp at hn
  | nil =>
    have hi : items = reference P sep fault [] consumed := by simpa using hqueue
    cases src with
    | nil =>
      exact ⟨consumed, hsplit, hunread, hmemory, by simpa [Reader.call] using hi,
        Or.inr ⟨rfl, rfl⟩⟩
    | cons a rest =>
      have hp : n ≤ consumed.length + items.length := by
        rcases hprogress with hp | ⟨_, hn⟩
        · exact hp
        · simp at hn
      cases a with
      | idle =>
        refine ⟨consumed ++ [.idle], by rw [← hsplit]; simp [Reader.call], ?_, ?_, ?_, Or.inl ?_⟩
        · simpa [Reader.call, content_append, content] using hunread
        · simpa [Reader.call, content_append, content] using hmemory
        · simp [Reader.call, reference_append, reference, ← hi]
        · simp [Reader.call]; omega
      | fault e =>
        refine ⟨consumed ++ [.fault e], by rw [← hsplit]; simp [Reader.call], ?_, ?_, ?_,
          Or.inl ?_⟩
        · simpa [Reader.call, content_append, content] using hunread
        · simpa [Reader.call, content_append, content] using hmemory
        · simp [Reader.call, reference_append, reference, ← hi]
        · simp [Reader.call]; omega
      | piece xs =>
        have ha := explains_absorb ⟨hsplit, hunread, hmemory, hqueue, hprogress⟩ rfl rfl
        exact ⟨consumed ++ [.piece xs], explains_deliver ha (by simp; omega)⟩

theorem Explains.isPrefix {P : Parser α σ ι} {sep : α} {fault : ε → ι}
    {source consumed : List (Arrival α ε)} {n : ℕ} {items : List ι} {r : Reader α ε σ ι}
    (h : Explains P sep fault source consumed n items r) :
    items <+: reference P sep fault [] source := by
  rw [← h.split, reference_append, ← h.queue, List.append_assoc]
  exact List.prefix_append _ _

section runs

variable (P : Parser α σ ι) (sep : α) (fault : ε → ι) (source : List (Arrival α ε))

theorem drive_explains (n : ℕ) : ∃ items r consumed,
    drive (fun r => some (Reader.call P sep fault r)) (Reader.init P source) n = some (items, r) ∧
      Explains P sep fault source consumed n items r := by
  obtain ⟨items, r, hd, consumed, h⟩ := drive_induction
    (fun r => some (Reader.call P sep fault r)) (Reader.init P source)
    (fun n items r => ∃ consumed, Explains P sep fault source consumed n items r)
    ⟨[], explains_init P sep fault source⟩
    (fun n items r ⟨_, h⟩ => ⟨_, _, rfl, explains_call h⟩) n
  exact ⟨items, r, consumed, hd, h⟩

theorem drive_exhausts : ∃ N, ∀ n, N ≤ n →
    drive (fun r => some (Reader.call P sep fault r)) (Reader.init P source) n =
      some (reference P sep fault [] source,
        ⟨[], unfinished sep (content source), P.recall sep (content source), []⟩) := by
  refine ⟨source.length + (reference P sep fault [] source).length + 1, fun n hn => ?_⟩
  obtain ⟨items, r, consumed, hd, h⟩ := drive_explains P sep fault source n
  have hc : consumed.length ≤ source.length := by
    rw [← h.split, List.length_append]; omega
  have hi : items.length ≤ (reference P sep fault [] source).length := by
    rw [← h.split, reference_append, ← h.queue, List.length_append, List.length_append]
    omega
  rcases h.progress with hp | ⟨hq, hs⟩
  · omega
  · have hall : consumed = source := by simpa [hs] using h.split
    subst hall
    have hitems : items = reference P sep fault [] consumed := by simpa [hq] using h.queue
    have hr : r = ⟨[], unfinished sep (content consumed), P.recall sep (content consumed), []⟩ := by
      rw [← h.unread, ← h.memory, ← hq, ← hs]
    rw [hd, hitems, hr]

end runs

section simulated

variable {S : Type*} {poll : S → Option (S × Poll (Option ι))} {R : S → Reader α ε σ ι → Prop}
  {P : Parser α σ ι} {sep : α} {fault : ε → ι} {source : List (Arrival α ε)} {s : S}

theorem simulated_explains (hsim : Simulates poll (Reader.call P sep fault) R)
    (hs : R s (Reader.init P source)) (n : ℕ) :
    ∃ items t r consumed, drive poll s n = some (items, t) ∧ R t r ∧
      Explains P sep fault source consumed n items r := by
  obtain ⟨items, t, r, ht, hr, hR⟩ := drive_simulates hsim hs n
  obtain ⟨items', r', consumed, hr', hex⟩ := drive_explains P sep fault source n
  rw [hr] at hr'
  obtain ⟨rfl, rfl⟩ := Prod.mk.inj (Option.some.inj hr')
  exact ⟨items, t, r, consumed, ht, hR, hex⟩

/-- A stream that simulates the reader never panics, and what it has given begins the
reference. -/
theorem simulated_isPrefix (hsim : Simulates poll (Reader.call P sep fault) R)
    (hs : R s (Reader.init P source)) (n : ℕ) :
    ∃ items t, drive poll s n = some (items, t) ∧ items <+: reference P sep fault [] source := by
  obtain ⟨items, t, r, consumed, ht, _, h⟩ := simulated_explains hsim hs n
  exact ⟨items, t, ht, h.isPrefix⟩

theorem simulated_exhausts (hsim : Simulates poll (Reader.call P sep fault) R)
    (hs : R s (Reader.init P source)) :
    ∃ N, ∀ n, N ≤ n → ∃ t, drive poll s n = some (reference P sep fault [] source, t) ∧
      R t ⟨[], unfinished sep (content source), P.recall sep (content source), []⟩ := by
  obtain ⟨N, hN⟩ := drive_exhausts P sep fault source
  refine ⟨N, fun n hn => ?_⟩
  obtain ⟨items, t, r, ht, hr, hR⟩ := drive_simulates hsim hs n
  rw [hN n hn] at hr
  obtain ⟨rfl, rfl⟩ := Prod.mk.inj (Option.some.inj hr)
  exact ⟨t, ht, hR⟩

theorem simulated_ended (hsim : Simulates poll (Reader.call P sep fault) R)
    (hs : R s (Reader.init P source)) {n : ℕ} {items : List ι} {t : S}
    (hd : drive poll s n = some (items, t)) (he : Ended poll t) :
    items = reference P sep fault [] source ∧
      R t ⟨[], unfinished sep (content source), P.recall sep (content source), []⟩ := by
  obtain ⟨N, hN⟩ := simulated_exhausts hsim hs
  obtain ⟨u, hu, hR⟩ := hN (n + N) (Nat.le_add_left N n)
  rw [drive_ended hd he] at hu
  obtain ⟨rfl, rfl⟩ := Prod.mk.inj (Option.some.inj hu)
  exact ⟨rfl, hR⟩

/-- A call that hands nothing out leaves nothing in the queue. -/
theorem call_prompt (P : Parser α σ ι) (sep : α) (fault : ε → ι) {r : Reader α ε σ ι}
    (h : (r.call P sep fault).2.items = []) : (r.call P sep fault).1.queue = [] := by
  have hdeliver : ∀ r : Reader α ε σ ι, r.deliver.2.items = [] → r.deliver.1.queue = [] := by
    intro r hr
    unfold Reader.deliver at hr ⊢
    split at hr
    next => cases hr
    next hq => exact hq
  obtain ⟨src, unread, memory, queue⟩ := r
  cases queue with
  | cons i q => cases h
  | nil =>
    cases src with
    | nil => rfl
    | cons a rest =>
      cases a with
      | idle => rfl
      | fault e => cases h
      | piece xs => exact hdeliver _ h

/-- A call that hands something out takes it from the queue, or takes one arrival. -/
theorem call_takes (P : Parser α σ ι) (sep : α) (fault : ε → ι) {r : Reader α ε σ ι}
    (h : (r.call P sep fault).2.items ≠ []) :
    (r.queue ≠ [] ∧ (r.call P sep fault).1.source = r.source) ∨
      (r.queue = [] ∧ ∃ a, r.source = a :: (r.call P sep fault).1.source) := by
  obtain ⟨src, unread, memory, queue⟩ := r
  cases queue with
  | cons i q => exact Or.inl ⟨List.cons_ne_nil i q, rfl⟩
  | nil =>
    cases src with
    | nil => exact absurd rfl h
    | cons a rest =>
      refine Or.inr ⟨rfl, a, ?_⟩
      cases a with
      | idle => rfl
      | fault e => rfl
      | piece xs =>
        simp only [Reader.call, Reader.deliver]
        split <;> rfl

/-- No shorter beginning completes as many items as have been handed out. -/
def Shortest (P : Parser α σ ι) (sep : α) (fault : ε → ι) (consumed : List (Arrival α ε))
    (items : List ι) : Prop :=
  ∀ as, as <+: consumed → as ≠ consumed → (reference P sep fault [] as).length < items.length

theorem reference_length_le (P : Parser α σ ι) (sep : α) (fault : ε → ι)
    {as bs : List (Arrival α ε)} (h : as <+: bs) :
    (reference P sep fault [] as).length ≤ (reference P sep fault [] bs).length := by
  obtain ⟨more, rfl⟩ := h
  rw [reference_append, List.length_append]
  exact Nat.le_add_right _ _

/-- Only a reader whose queue is empty takes more than it needs for what it hands out. -/
theorem call_shortest {consumed consumed' : List (Arrival α ε)} {n m : ℕ} {items : List ι}
    {r : Reader α ε σ ι} (h : Explains P sep fault source consumed n items r)
    (hlazy : r.queue ≠ [] → Shortest P sep fault consumed items)
    (h' : Explains P sep fault source consumed' m (items ++ (r.call P sep fault).2.items)
      (r.call P sep fault).1) (hsome : (r.call P sep fault).2.items ≠ []) :
    Shortest P sep fault consumed' (items ++ (r.call P sep fault).2.items) := by
  have hmore : items.length < (items ++ (r.call P sep fault).2.items).length := by
    rw [List.length_append]
    exact Nat.lt_add_of_pos_right (List.length_pos_of_ne_nil hsome)
  rcases call_takes P sep fault hsome with ⟨hqueue, hsource⟩ | ⟨hqueue, a, hsource⟩
  · have hsame : consumed' = consumed := by
      have hsplit := h'.split
      rw [hsource, ← h.split] at hsplit
      exact List.append_cancel_right hsplit
    subst hsame
    intro as hle hne
    exact Nat.lt_trans (hlazy hqueue as hle hne) hmore
  · have htaken : consumed' = consumed ++ [a] := by
      have hsplit := h'.split
      rw [← h.split, hsource, ← List.singleton_append, ← List.append_assoc] at hsplit
      exact List.append_cancel_right hsplit
    subst htaken
    have hall : items = reference P sep fault [] consumed := by
      rw [← h.queue, hqueue, List.append_nil]
    intro as hle hne
    rcases List.prefix_concat_iff.mp hle with heq | hle
    · exact absurd heq hne
    · have hbefore := reference_length_le P sep fault hle
      rw [← hall] at hbefore
      exact Nat.lt_of_le_of_lt hbefore hmore

theorem drive_shortest (P : Parser α σ ι) (sep : α) (fault : ε → ι)
    (source : List (Arrival α ε)) (n : ℕ) : ∃ items r,
    drive (fun r => some (Reader.call P sep fault r)) (Reader.init P source) n = some (items, r) ∧
      ∃ consumed, Explains P sep fault source consumed n items r ∧
        (r.queue ≠ [] → Shortest P sep fault consumed items) := by
  refine drive_induction (fun r => some (Reader.call P sep fault r)) (Reader.init P source)
    (fun n items r => ∃ consumed, Explains P sep fault source consumed n items r ∧
      (r.queue ≠ [] → Shortest P sep fault consumed items)) ?_ ?_ n
  · exact ⟨[], explains_init P sep fault source, fun hqueue => absurd rfl hqueue⟩
  · rintro n items r ⟨consumed, h, hlazy⟩
    obtain ⟨consumed', h'⟩ := explains_call h
    refine ⟨_, _, rfl, consumed', h', ?_⟩
    intro hqueue
    exact call_shortest h hlazy h' fun hnone => hqueue (call_prompt P sep fault hnone)

/-- A call of a stream that simulates the reader is a call of a reader that its history
explains. -/
theorem simulated_call (hsim : Simulates poll (Reader.call P sep fault) R)
    (hs : R s (Reader.init P source)) {n : ℕ} {items : List ι} {t u : S}
    {answer : Poll (Option ι)} (hd : drive poll s n = some (items, t))
    (hp : poll t = some (u, answer)) :
    ∃ r consumed, answer = (r.call P sep fault).2 ∧ R u (r.call P sep fault).1 ∧
      Explains P sep fault source consumed n items r ∧
      (r.queue ≠ [] → Shortest P sep fault consumed items) := by
  obtain ⟨items', t', r, ht', hr, hR⟩ := drive_simulates hsim hs n
  obtain ⟨rfl, rfl⟩ := Prod.mk.inj (Option.some.inj (hd.symm.trans ht'))
  obtain ⟨items', r', hr', consumed, hex, hlazy⟩ := drive_shortest P sep fault source n
  obtain ⟨rfl, rfl⟩ := Prod.mk.inj (Option.some.inj (hr.symm.trans hr'))
  obtain ⟨u', hu', hR'⟩ := hsim t r hR
  obtain ⟨rfl, rfl⟩ := Prod.mk.inj (Option.some.inj (hp.symm.trans hu'))
  exact ⟨r, consumed, rfl, hR', hex, hlazy⟩

/-- Whenever a call hands nothing out, everything that was complete has been handed out before. -/
theorem simulated_prompt (hsim : Simulates poll (Reader.call P sep fault) R)
    (hs : R s (Reader.init P source)) {n : ℕ} {items : List ι} {t u : S}
    {answer : Poll (Option ι)} (hd : drive poll s n = some (items, t))
    (hp : poll t = some (u, answer)) (hnone : answer.items = []) :
    ∃ consumed r, R u r ∧ consumed ++ r.source = source ∧ r.queue = [] ∧
      r.unread = unfinished sep (content consumed) ∧
      items = reference P sep fault [] consumed := by
  obtain ⟨r, consumed, rfl, hR, hex, _⟩ := simulated_call hsim hs hd hp
  obtain ⟨consumed', hex'⟩ := explains_call hex
  have hqueue := call_prompt P sep fault hnone
  refine ⟨consumed', _, hR, hex'.split, hqueue, hex'.unread, ?_⟩
  rw [← hex'.queue, hqueue, hnone, List.append_nil, List.append_nil]

/-- Whenever a call hands something out, no more has arrived than that took. -/
theorem simulated_demand (hsim : Simulates poll (Reader.call P sep fault) R)
    (hs : R s (Reader.init P source)) {n : ℕ} {items : List ι} {t u : S}
    {answer : Poll (Option ι)} (hd : drive poll s n = some (items, t))
    (hp : poll t = some (u, answer)) (hsome : answer.items ≠ []) :
    ∃ consumed r, R u r ∧ consumed ++ r.source = source ∧
      items ++ answer.items ++ r.queue = reference P sep fault [] consumed ∧
      Shortest P sep fault consumed (items ++ answer.items) := by
  obtain ⟨r, consumed, rfl, hR, hex, hlazy⟩ := simulated_call hsim hs hd hp
  obtain ⟨consumed', hex'⟩ := explains_call hex
  exact ⟨consumed', _, hR, hex'.split, hex'.queue, call_shortest hex hlazy hex' hsome⟩

end simulated

end FramedLines
