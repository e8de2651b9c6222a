import Navar.H3Adapter

/-! # When `poll_ready` returns

The loop of `poll_ready` offers its buffer until the inner stream has taken it all. A writer may
answer `Ok(0)`, also for ever, and the loop has no case for that answer. -/
namespace H3Readiness

open ByteBuffers
open PollStreams (Poll)
open AsyncWriters
open H3Adapter

variable {S A β : Type}

section writers

variable [AsyncWrite S]

/-- A writer that is offered bytes until none is left comes to a later offer. -/
inductive Offers : S → Bytes → S → Bytes → Prop where
  | now (inner buf) : Offers inner buf inner buf
  | later {inner inner₁ inner' buf rest n} : buf.isEmpty = false →
      AsyncWrite.pollWrite inner buf = (inner₁, .ready (.ok n)) →
      Offers inner₁ (buf.drop n) inner' rest → Offers inner buf inner' rest

/-- The writer answers an offer of some bytes with `Ok(0)`. -/
def AcceptsNothing (inner : S) (buf : Bytes) : Prop :=
  ∃ inner' rest, Offers inner buf inner' rest ∧ rest.isEmpty = false ∧
    (AsyncWrite.pollWrite inner' rest).2 = .ready (.ok 0)

/-- The writer answers an offer with an error. -/
def Fails (inner : S) (buf : Bytes) : Prop :=
  ∃ inner' rest, Offers inner buf inner' rest ∧ rest.isEmpty = false ∧
    ∃ e, (AsyncWrite.pollWrite inner' rest).2 = .ready (.error e)

/-- What one offer of the same bytes after another makes of a writer. -/
def offeredAgain (rest : Bytes) : ℕ → S → S
  | 0, inner => inner
  | k + 1, inner => offeredAgain rest k (AsyncWrite.pollWrite inner rest).1

/-- From some offer on, the writer answers `Ok(0)` for ever. -/
def AcceptsNoMore (inner : S) (buf : Bytes) : Prop :=
  ∃ inner' rest, Offers inner buf inner' rest ∧ rest.isEmpty = false ∧
    ∀ k, (AsyncWrite.pollWrite (offeredAgain rest k inner') rest).2 = .ready (.ok 0)

theorem Fails.later {inner inner₁ : S} {buf : Bytes} {n : ℕ}
    (hb : buf.isEmpty = false) (hw : AsyncWrite.pollWrite inner buf = (inner₁, .ready (.ok n)))
    (h : Fails inner₁ (buf.drop n)) : Fails inner buf := by
  obtain ⟨inner', rest, hoffers, hrest⟩ := h
  exact ⟨inner', rest, .later hb hw hoffers, hrest⟩

theorem AcceptsNoMore.later {inner inner₁ : S} {buf : Bytes} {n : ℕ}
    (hb : buf.isEmpty = false) (hw : AsyncWrite.pollWrite inner buf = (inner₁, .ready (.ok n)))
    (h : AcceptsNoMore inner₁ (buf.drop n)) : AcceptsNoMore inner buf := by
  obtain ⟨inner', rest, hoffers, hrest⟩ := h
  exact ⟨inner', rest, .later hb hw hoffers, hrest⟩

theorem AcceptsNoMore.acceptsNothing {inner : S} {buf : Bytes} (h : AcceptsNoMore inner buf) :
    AcceptsNothing inner buf := by
  obtain ⟨inner', rest, hoffers, hrest, hzero⟩ := h
  exact ⟨inner', rest, hoffers, hrest, hzero 0⟩

omit [AsyncWrite S] in
theorem drop_length_lt {buf : Bytes} {n : ℕ} (hb : buf.isEmpty = false) (hn : n ≠ 0) :
    (buf.drop n).length < buf.length := by
  have hpos : 0 < buf.length := by
    apply List.length_pos_of_ne_nil
    rintro rfl
    cases hb
  rw [List.length_drop]
  omega

/-- A write that fails, after writes that succeed, is the end of the loop. -/
theorem writeBuffered_fails {inner : S} {buf : Bytes} (h : Fails inner buf) :
    ∃ fuel inner' buf',
      writeBuffered fuel inner buf = some (inner', buf', .ready (.error streamError)) := by
  obtain ⟨inner', rest, hoffers, hrest, e, he⟩ := h
  induction hoffers with
  | now inner buf =>
    refine ⟨1, (AsyncWrite.pollWrite inner buf).1, buf, ?_⟩
    have hw : AsyncWrite.pollWrite inner buf =
        ((AsyncWrite.pollWrite inner buf).1, .ready (.error e)) := Prod.ext rfl he
    exact writeBuffered_failed hrest hw
  | later hb hw _ ih =>
    obtain ⟨fuel, inner', buf', hret⟩ := ih hrest he
    refine ⟨fuel + 1, inner', buf', ?_⟩
    rw [writeBuffered_wrote hb hw]
    exact hret

/-- The loop answers an error only for a write that fails. -/
theorem fails_of_rounds {fuel : ℕ} {inner inner' : S} {buf buf' : Bytes} {answer : Answer}
    (h : Rounds fuel inner buf inner' buf' answer) {e : StreamErrorIncoming}
    (he : answer = .ready (.error e)) : Fails inner buf := by
  induction h with
  | done => cases he
  | failed hb hw => exact ⟨_, _, .now _ _, hb, _, by rw [hw]⟩
  | pending => cases he
  | wrote hb hw _ ih => exact (ih he).later hb hw

/-- The loop returns after a write if it returns, for a write that succeeds, from there. -/
theorem writeBuffered_returns_of_write {inner : S} {buf : Bytes} (hb : buf.isEmpty = false)
    (h : ∀ inner₁ n, AsyncWrite.pollWrite inner buf = (inner₁, .ready (.ok n)) →
      ∃ fuel, (writeBuffered fuel inner₁ (buf.drop n)).isSome = true) :
    ∃ fuel, (writeBuffered fuel inner buf).isSome = true := by
  cases hw : AsyncWrite.pollWrite inner buf with
  | mk inner₁ result =>
    rcases result with _ | (e | n)
    · exact ⟨1, by rw [writeBuffered_pending hb hw]; rfl⟩
    · exact ⟨1, by rw [writeBuffered_failed hb hw]; rfl⟩
    · obtain ⟨fuel, hret⟩ := h inner₁ n hw
      exact ⟨fuel + 1, by rw [writeBuffered_wrote hb hw]; exact hret⟩

theorem writeBuffered_returns_empty {inner : S} {buf : Bytes} (hb : buf.isEmpty = true) :
    ∃ fuel, (writeBuffered fuel inner buf).isSome = true := by
  refine ⟨0, ?_⟩
  rw [writeBuffered_empty hb]
  rfl

/-- Unless the writer accepts no more, some offer of the same bytes has another answer. -/
theorem exists_change {inner : S} {buf : Bytes} (hb : buf.isEmpty = false)
    (h : ¬ AcceptsNoMore inner buf) :
    ∃ k, (AsyncWrite.pollWrite (offeredAgain buf k inner) buf).2 ≠ .ready (.ok 0) := by
  by_contra hnever
  push Not at hnever
  exact h ⟨inner, buf, .now inner buf, hb, hnever⟩

/-- The loop returns unless the writer accepts no more. The induction is on the bytes that are
left and, among the offers of the same bytes, on the time to an answer other than `Ok(0)`. -/
theorem writeBuffered_returns_of_progress (len : ℕ) {inner : S} {buf : Bytes}
    (hlen : buf.length ≤ len) (h : ¬ AcceptsNoMore inner buf) :
    ∃ fuel, (writeBuffered fuel inner buf).isSome = true := by
  induction len generalizing inner buf with
  | zero =>
    apply writeBuffered_returns_empty
    rw [List.isEmpty_iff_length_eq_zero]
    exact Nat.le_zero.mp hlen
  | succ len ih =>
    by_cases hb : buf.isEmpty = true
    · exact writeBuffered_returns_empty hb
    · replace hb : buf.isEmpty = false := Bool.eq_false_iff.mpr hb
      have hshorter : ∀ {inner inner₁ : S} {n : ℕ}, ¬ AcceptsNoMore inner buf → n ≠ 0 →
          AsyncWrite.pollWrite inner buf = (inner₁, .ready (.ok n)) →
          ∃ fuel, (writeBuffered fuel inner₁ (buf.drop n)).isSome = true := by
        intro inner inner₁ n h hn hw
        have hshort := drop_length_lt hb hn
        apply ih
        · omega
        · exact fun hmore => h (hmore.later hb hw)
      obtain ⟨k, hk⟩ := exists_change hb h
      induction k generalizing inner with
      | zero =>
        apply writeBuffered_returns_of_write hb
        intro inner₁ n hw
        apply hshorter h ?_ hw
        rintro rfl
        exact hk (by rw [offeredAgain, hw])
      | succ k ihk =>
        apply writeBuffered_returns_of_write hb
        intro inner₁ n hw
        by_cases hn : n = 0
        · subst hn
          apply ihk (fun hmore => h (hmore.later hb hw))
          rw [offeredAgain, hw] at hk
          exact hk
        · exact hshorter h hn hw

theorem writeBuffered_returns_iff (inner : S) (buf : Bytes) :
    (∃ fuel inner' buf' answer, writeBuffered fuel inner buf = some (inner', buf', answer) ∧
      (AcceptsNothing inner buf → ∃ e, answer = .ready (.error e))) ↔
    ¬ AcceptsNothing inner buf ∨ Fails inner buf := by
  constructor
  · rintro ⟨fuel, inner', buf', answer, hret, herror⟩
    by_cases hzero : AcceptsNothing inner buf
    · right
      obtain ⟨e, he⟩ := herror hzero
      exact fails_of_rounds (writeBuffered_rounds hret) he
    · exact .inl hzero
  · rintro (hnot | hfails)
    · have hprogress : ¬ AcceptsNoMore inner buf := fun hmore => hnot hmore.acceptsNothing
      obtain ⟨fuel, hret⟩ := writeBuffered_returns_of_progress _ (Nat.le_refl _) hprogress
      obtain ⟨⟨inner', buf', answer⟩, hret⟩ := Option.isSome_iff_exists.mp hret
      exact ⟨fuel, inner', buf', answer, hret, fun hzero => absurd hzero hnot⟩
    · obtain ⟨fuel, inner', buf', hret⟩ := writeBuffered_fails hfails
      exact ⟨fuel, inner', buf', _, hret, fun _ => ⟨_, rfl⟩⟩

/-- While the writer answers `Ok(0)`, the loop goes on. -/
theorem writeBuffered_spins {rest : Bytes} (hrest : rest.isEmpty = false) (fuel : ℕ) {inner : S}
    (h : ∀ k, (AsyncWrite.pollWrite (offeredAgain rest k inner) rest).2 = .ready (.ok 0)) :
    writeBuffered fuel inner rest = none := by
  induction fuel generalizing inner with
  | zero =>
    rw [writeBuffered]
    simp [hrest]
  | succ fuel ih =>
    have hw : AsyncWrite.pollWrite inner rest =
        ((AsyncWrite.pollWrite inner rest).1, .ready (.ok 0)) := Prod.ext rfl (h 0)
    rw [writeBuffered_wrote hrest hw]
    exact ih fun k => h (k + 1)

/-- The loop does not return exactly when the writer accepts no more. -/
theorem writeBuffered_none_iff (inner : S) (buf : Bytes) :
    (∀ fuel, writeBuffered fuel inner buf = none) ↔ AcceptsNoMore inner buf := by
  constructor
  · intro hnone
    by_contra h
    obtain ⟨fuel, hret⟩ := writeBuffered_returns_of_progress buf.length (Nat.le_refl _) h
    rw [hnone fuel] at hret
    cases hret
  · rintro ⟨inner', rest, hoffers, hrest, hzero⟩
    induction hoffers with
    | now inner buf => exact fun fuel => writeBuffered_spins hrest fuel hzero
    | later hb hw _ ih =>
      intro fuel
      cases fuel with
      | zero =>
        rw [writeBuffered]
        simp [hb]
      | succ fuel =>
        rw [writeBuffered_wrote hb hw]
        exact ih hrest hzero fuel

end writers

section streams

variable [QuicSendStream A β]

/-- A poll returns after some number of writes, and with an error if the writer accepts zero
bytes. -/
def PollReadyReturns (β : Type) [QuicSendStream A β] (acceptsNothing : Prop) (s : A) : Prop :=
  ∃ fuel s' answer, QuicSendStream.pollReady β fuel s = some (s', answer) ∧
    (acceptsNothing → ∃ e, answer = .ready (.error e))

/-- The streams made so write as the shared loop does. -/
def Loops (β : Type) [QuicSendStream A β] [AsyncWrite S] (wrap : S → Bytes → A) : Prop :=
  ∀ fuel inner buf, QuicSendStream.pollReady β fuel (wrap inner buf) =
    (writeBuffered fuel inner buf).map fun (inner, buf, answer) => (wrap inner buf, answer)

variable [AsyncWrite S]

theorem pollReady_returns_iff {wrap : S → Bytes → A} (hloop : Loops β wrap) (inner : S)
    (buf : Bytes) :
    PollReadyReturns β (AcceptsNothing inner buf) (wrap inner buf) ↔
      ¬ AcceptsNothing inner buf ∨ Fails inner buf := by
  rw [← writeBuffered_returns_iff]
  constructor
  · rintro ⟨fuel, s', answer, hret, herror⟩
    rw [hloop, Option.map_eq_some_iff] at hret
    obtain ⟨⟨inner', buf', answer'⟩, hw, heq⟩ := hret
    obtain ⟨_, rfl⟩ := Prod.mk.inj heq
    exact ⟨fuel, inner', buf', answer', hw, herror⟩
  · rintro ⟨fuel, inner', buf', answer, hw, herror⟩
    refine ⟨fuel, wrap inner' buf', answer, ?_, herror⟩
    rw [hloop, hw]
    rfl

theorem pollReady_none_iff {wrap : S → Bytes → A} (hloop : Loops β wrap) (inner : S)
    (buf : Bytes) :
    (∀ fuel, QuicSendStream.pollReady β fuel (wrap inner buf) = none) ↔
      AcceptsNoMore inner buf := by
  rw [← writeBuffered_none_iff]
  apply forall_congr'
  intro fuel
  rw [hloop, Option.map_eq_none_iff]

end streams

/-- On either stream `poll_ready` returns, with an error for a writer that accepts zero bytes,
exactly when the writer does not accept zero bytes or fails later in the same poll. It spins
exactly when the writer, from some offer on, accepts zero bytes for ever. -/
theorem poll_ready_returns_iff [AsyncWrite S] [Buf β] (inner : S) (buf : Bytes) :
    ((PollReadyReturns β (AcceptsNothing inner buf) (H3SendStream.mk inner buf) ↔
        ¬ AcceptsNothing inner buf ∨ Fails inner buf) ∧
      (PollReadyReturns β (AcceptsNothing inner buf) (H3BidiStream.mk inner buf) ↔
        ¬ AcceptsNothing inner buf ∨ Fails inner buf)) ∧
    ((∀ fuel, QuicSendStream.pollReady β fuel (H3SendStream.mk inner buf) = none) ↔
        AcceptsNoMore inner buf) ∧
      ((∀ fuel, QuicSendStream.pollReady β fuel (H3BidiStream.mk inner buf) = none) ↔
        AcceptsNoMore inner buf) := by
  have hsend : Loops β (H3SendStream.mk (S := S)) := fun _ _ _ => rfl
  have hbidi : Loops β (H3BidiStream.mk (S := S)) := fun _ _ _ => rfl
  refine ⟨⟨?_, ?_⟩, ?_, ?_⟩
  · exact pollReady_returns_iff hsend inner buf
  · exact pollReady_returns_iff hbidi inner buf
  · exact pollReady_none_iff hsend inner buf
  · exact pollReady_none_iff hbidi inner buf

/-- A writer that can accept no more bytes. -/
inductive Full where
  | mk

instance : AsyncWrite Full where
  ioError := Empty
  pollWrite s _ := (s, .ready (.ok 0))
  pollFlush s := (s, .ready (.ok ()))
  pollClose s := (s, .ready (.ok ()))
  write_le _ _ _ h := by
    cases h
    exact Nat.zero_le _

/-- With one byte for such a writer neither poll returns, whatever the number of writes. -/
theorem poll_ready_spins :
    (∀ fuel, QuicSendStream.pollReady Bytes fuel (H3SendStream.mk Full.mk [1]) = none) ∧
      (∀ fuel, QuicSendStream.pollReady Bytes fuel (H3BidiStream.mk Full.mk [1]) = none) ∧
      ¬ PollReadyReturns Bytes (AcceptsNothing Full.mk [1]) (H3SendStream.mk Full.mk [1]) ∧
      ¬ PollReadyReturns Bytes (AcceptsNothing Full.mk [1]) (H3BidiStream.mk Full.mk [1]) := by
  have hzero : ∀ k, (AsyncWrite.pollWrite (offeredAgain [1] k Full.mk) [1]).2 =
      .ready (.ok 0) := fun _ => rfl
  have hspins : ∀ fuel, writeBuffered fuel Full.mk [1] = none :=
    fun fuel => writeBuffered_spins rfl fuel hzero
  have hsend : ∀ fuel, QuicSendStream.pollReady Bytes fuel (H3SendStream.mk Full.mk [1]) =
      none := by
    intro fuel
    simp only [QuicSendStream.pollReady, hspins, Option.map_none]
  have hbidi : ∀ fuel, QuicSendStream.pollReady Bytes fuel (H3BidiStream.mk Full.mk [1]) =
      none := by
    intro fuel
    simp only [QuicSendStream.pollReady, hspins, Option.map_none]
  refine ⟨hsend, hbidi, ?_, ?_⟩
  · rintro ⟨fuel, s', answer, hret, _⟩
    rw [hsend] at hret
    cases hret
  · rintro ⟨fuel, s', answer, hret, _⟩
    rw [hbidi] at hret
    cases hret

end H3Readiness
