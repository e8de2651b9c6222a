import Navar.LossyText

/-! # Strict decoding of UTF-8

Where lossy decoding puts a replacement character, strict decoding stops: it names the place and
says how long the ill-formed sequence is, or that the input ended within a sequence. -/
namespace Utf8Validation

open ByteBuffers
open LossyText

structure Utf8Error where
  validUpTo : ℕ
  errorLen : Option ℕ
  deriving DecidableEq, Repr

def validate : ℕ → ℕ → Bytes → Except Utf8Error Str
  | fuel + 1, offset, lead :: rest =>
    let n := accepted lead rest
    if n + 1 = width lead then
      ((decodeOne lead rest).1 :: ·) <$> validate fuel (offset + (n + 1)) (decodeOne lead rest).2
    else
      .error ⟨offset, if 2 ≤ width lead ∧ n = rest.length then none else some (n + 1)⟩
  | _, _, _ => .ok []

def fromUtf8 (bs : Bytes) : Except Utf8Error Str := validate bs.length 0 bs

section sequences

theorem toNat_ofNat_of_valid {v : ℕ} (h : v < 0xD800 ∨ 0xDFFF < v ∧ v < 0x110000) :
    (Char.ofNat v).toNat = v := by
  have hv : v.isValidChar := h
  rw [Char.ofNat, dif_pos hv]
  rfl

theorem secondOk_bounds {lead b : UInt8} (h : secondOk lead b = true) :
    0x80 ≤ b.toNat ∧ b.toNat < 0xC0 ∧ (lead.toNat = 0xE0 → 0xA0 ≤ b.toNat) ∧
      (lead.toNat = 0xED → b.toNat < 0xA0) ∧ (lead.toNat = 0xF0 → 0x90 ≤ b.toNat) ∧
      (lead.toNat = 0xF4 → b.toNat < 0x90) := by
  simp only [secondOk, isContinuation] at h
  split_ifs at h <;> simp only [decide_eq_true_eq] at h <;> omega

theorem continuation_bounds {b : UInt8} (h : isContinuation b = true) :
    0x80 ≤ b.toNat ∧ b.toNat < 0xC0 := by
  simpa [isContinuation] using h

theorem ofNat_eq {b : UInt8} {n : ℕ} (h : n = b.toNat) : UInt8.ofNat n = b := by
  rw [h]
  exact UInt8.ofNat_toNat

theorem encodeChar_ofNat {v : ℕ} (h : v < 0xD800 ∨ 0xDFFF < v ∧ v < 0x110000) :
    String.utf8EncodeChar (Char.ofNat v) =
      if v ≤ 0x7F then [UInt8.ofNat v]
      else if v ≤ 0x7FF then [UInt8.ofNat (v / 64 % 32 + 0xC0), UInt8.ofNat (v % 64 + 0x80)]
      else if v ≤ 0xFFFF then
        [UInt8.ofNat (v / 4096 % 16 + 0xE0), UInt8.ofNat (v / 64 % 64 + 0x80),
          UInt8.ofNat (v % 64 + 0x80)]
      else
        [UInt8.ofNat (v / 262144 % 8 + 0xF0), UInt8.ofNat (v / 4096 % 64 + 0x80),
          UInt8.ofNat (v / 64 % 64 + 0x80), UInt8.ofNat (v % 64 + 0x80)] := by
  have hv : (Char.ofNat v).val.toNat = v := toNat_ofNat_of_valid h
  simp only [String.utf8EncodeChar, hv]

theorem encode_one {lead : UInt8} (hlead : lead.toNat < 0x80) :
    String.utf8EncodeChar (Char.ofNat (codePoint lead [])) = [lead] := by
  have hv : codePoint lead [] = lead.toNat := rfl
  rw [hv, encodeChar_ofNat (by omega), if_pos (by omega), UInt8.ofNat_toNat]

theorem encode_two {lead b : UInt8} (hlead : 0xC2 ≤ lead.toNat ∧ lead.toNat < 0xE0)
    (hb : secondOk lead b = true) :
    String.utf8EncodeChar (Char.ofNat (codePoint lead [b])) = [lead, b] := by
  have hbounds := secondOk_bounds hb
  rw [codePoint, encodeChar_ofNat (by omega), if_neg (by omega), if_pos (by omega),
    ofNat_eq (b := lead) (by omega), ofNat_eq (b := b) (by omega)]

theorem encode_three {lead b c : UInt8} (hlead : 0xE0 ≤ lead.toNat ∧ lead.toNat < 0xF0)
    (hb : secondOk lead b = true) (hc : isContinuation c = true) :
    String.utf8EncodeChar (Char.ofNat (codePoint lead [b, c])) = [lead, b, c] := by
  have hbounds := secondOk_bounds hb
  have hc' := continuation_bounds hc
  rw [codePoint, encodeChar_ofNat (by omega), if_neg (by omega), if_neg (by omega),
    if_pos (by omega), ofNat_eq (b := lead) (by omega), ofNat_eq (b := b) (by omega),
    ofNat_eq (b := c) (by omega)]

theorem encode_four {lead b c d : UInt8} (hlead : 0xF0 ≤ lead.toNat ∧ lead.toNat < 0xF5)
    (hb : secondOk lead b = true) (hc : isContinuation c = true) (hd : isContinuation d = true) :
    String.utf8EncodeChar (Char.ofNat (codePoint lead [b, c, d])) = [lead, b, c, d] := by
  have hbounds := secondOk_bounds hb
  have hc' := continuation_bounds hc
  have hd' := continuation_bounds hd
  rw [codePoint, encodeChar_ofNat (by omega), if_neg (by omega), if_neg (by omega),
    if_neg (by omega), ofNat_eq (b := lead) (by omega), ofNat_eq (b := b) (by omega),
    ofNat_eq (b := c) (by omega), ofNat_eq (b := d) (by omega)]

theorem continuations_succ {n m : ℕ} {bs : Bytes} (h : continuations n bs = m + 1) :
    ∃ b rest, bs = b :: rest ∧ isContinuation b = true ∧ continuations (n - 1) rest = m := by
  cases n with
  | zero => simp [continuations] at h
  | succ n =>
    cases bs with
    | nil => simp [continuations] at h
    | cons b rest =>
      by_cases hb : isContinuation b = true
      · simp only [continuations, hb, ↓reduceIte, Nat.add_right_cancel_iff] at h
        exact ⟨b, rest, rfl, hb, h⟩
      · simp [continuations, hb] at h

theorem accepted_succ {lead : UInt8} {rest : Bytes} {m : ℕ} (h : accepted lead rest = m + 1) :
    ∃ b bs, rest = b :: bs ∧ secondOk lead b = true ∧ continuations (width lead - 2) bs = m := by
  cases rest with
  | nil => cases h
  | cons b bs =>
    by_cases hb : 2 ≤ width lead ∧ secondOk lead b = true
    · simp only [accepted, hb, and_self, ↓reduceIte, Nat.add_right_cancel_iff] at h
      exact ⟨b, bs, rfl, hb.2, h⟩
    · simp [accepted, hb] at h

/-- A complete sequence is the encoding of the character that it is decoded to. -/
theorem encode_codePoint {lead : UInt8} {rest : Bytes}
    (h : accepted lead rest + 1 = width lead) :
    String.utf8EncodeChar (Char.ofNat (codePoint lead (rest.take (accepted lead rest)))) =
      lead :: rest.take (accepted lead rest) := by
  by_cases hw : 2 ≤ width lead
  · rcases width_cases hw with ⟨hwidth, hlead⟩ | ⟨hwidth, hlead⟩ | ⟨hwidth, hlead⟩
    · have ha : accepted lead rest = 1 := by omega
      obtain ⟨b, bs, rfl, hb, _⟩ := accepted_succ ha
      rw [ha]
      exact encode_two hlead hb
    · have ha : accepted lead rest = 2 := by omega
      obtain ⟨b, bs, rfl, hb, hbs⟩ := accepted_succ ha
      obtain ⟨c, cs, rfl, hc, _⟩ := continuations_succ hbs
      rw [ha]
      exact encode_three hlead hb hc
    · have ha : accepted lead rest = 3 := by omega
      obtain ⟨b, bs, rfl, hb, hbs⟩ := accepted_succ ha
      obtain ⟨c, cs, rfl, hc, hcs⟩ := continuations_succ hbs
      obtain ⟨d, ds, rfl, hd, _⟩ := continuations_succ hcs
      rw [ha]
      exact encode_four hlead hb hc hd
  · have hwidth : width lead = 1 := by omega
    have ha : accepted lead rest = 0 := by omega
    have hlead : lead.toNat < 0x80 := by
      unfold width at hwidth
      simp only at hwidth
      split_ifs at hwidth <;> omega
    rw [ha]
    exact encode_one hlead

theorem encode_accepted {c : Char} {lead : UInt8} {cont : Bytes}
    (h : String.utf8EncodeChar c = lead :: cont) (rest : Bytes) :
    accepted lead (cont ++ rest) = cont.length ∧ cont.length + 1 = width lead := by
  obtain ⟨lead', cont', hc, hdecode⟩ := decodeOne_encode c
  obtain ⟨rfl, rfl⟩ := List.cons.inj (h.symm.trans hc)
  have hlength : accepted lead (cont ++ rest) = cont.length := by
    have hdrop : (cont ++ rest).drop (accepted lead (cont ++ rest)) = rest :=
      congrArg Prod.snd (hdecode rest)
    have hle := accepted_le lead (cont ++ rest)
    have hcount := congrArg List.length hdrop
    rw [List.length_drop, List.length_append] at hcount
    rw [List.length_append] at hle
    omega
  refine ⟨hlength, ?_⟩
  by_contra hwidth
  have hfirst : (decodeOne lead (cont ++ rest)).1 = c := congrArg Prod.fst (hdecode rest)
  rw [decodeOne, hlength, if_neg hwidth] at hfirst
  subst hfirst
  have hreplacement : String.utf8EncodeChar replacement = [0xEF, 0xBF, 0xBD] := by decide
  obtain ⟨rfl, rfl⟩ := List.cons.inj (h.symm.trans hreplacement)
  exact hwidth (by decide)

theorem no_encoding {lead : UInt8} {rest : Bytes} (h : accepted lead rest + 1 ≠ width lead)
    (c : Char) : ¬String.utf8EncodeChar c <+: lead :: rest := by
  rintro ⟨after, heq⟩
  obtain ⟨lead', cont, hc, _⟩ := decodeOne_encode c
  rw [hc, List.cons_append] at heq
  obtain ⟨rfl, rfl⟩ := List.cons.inj heq
  obtain ⟨haccepted, hwidth⟩ := encode_accepted hc after
  exact h (haccepted ▸ hwidth)

/-- The bytes begin the encoding of some character. -/
def Begins (bs : Bytes) : Prop := ∃ c : Char, bs <+: String.utf8EncodeChar c

theorem continuations_of_append {n : ℕ} {xs ys : Bytes}
    (h : continuations n (xs ++ ys) = (xs ++ ys).length) : continuations n xs = xs.length := by
  induction xs generalizing n with
  | nil => cases n <;> rfl
  | cons x xs ih =>
    cases n with
    | zero => simp [continuations] at h
    | succ n =>
      by_cases hx : isContinuation x = true
      · simp only [List.cons_append, continuations, hx, ↓reduceIte, List.length_cons,
          Nat.add_right_cancel_iff] at h
        simp [continuations, hx, ih h]
      · simp [continuations, hx] at h

theorem accepted_of_append {lead : UInt8} {xs ys : Bytes}
    (h : accepted lead (xs ++ ys) = (xs ++ ys).length) : accepted lead xs = xs.length := by
  cases xs with
  | nil => rfl
  | cons x xs =>
    by_cases hx : 2 ≤ width lead ∧ secondOk lead x = true
    · simp only [List.cons_append, accepted, hx, and_self, ↓reduceIte, List.length_cons,
        Nat.add_right_cancel_iff] at h
      simp [accepted, hx, continuations_of_append h]
    · simp [accepted, hx] at h

theorem continuations_filled {n k : ℕ} {xs : Bytes} (h : continuations n xs = xs.length)
    (hn : xs.length + k = n) : continuations n (xs ++ List.replicate k 0x80) = n := by
  induction xs generalizing n with
  | nil =>
    have hfill : ∀ m, continuations m (List.replicate m (0x80 : UInt8)) = m := by
      intro m
      induction m with
      | zero => rfl
      | succ m ih => simp [List.replicate_succ, continuations, ih, isContinuation]
    rw [List.length_nil, Nat.zero_add] at hn
    rw [hn]
    exact hfill n
  | cons x xs ih =>
    cases n with
    | zero => simp at hn
    | succ n =>
      by_cases hx : isContinuation x = true
      · simp only [continuations, hx, ↓reduceIte, List.length_cons,
          Nat.add_right_cancel_iff] at h
        rw [List.length_cons] at hn
        simp [continuations, hx, ih h (by omega)]
      · simp [continuations, hx] at h

theorem continuations_le_count (n : ℕ) (bs : Bytes) : continuations n bs ≤ n := by
  induction n generalizing bs with
  | zero => simp [continuations]
  | succ n ih =>
    cases bs with
    | nil => simp [continuations]
    | cons b bs =>
      have hle := ih bs
      simp only [continuations]
      split_ifs <;> omega

theorem accepted_le_width {lead : UInt8} (h : 2 ≤ width lead) (rest : Bytes) :
    accepted lead rest + 1 ≤ width lead := by
  cases rest with
  | nil => exact Nat.le_of_succ_le h
  | cons b bs =>
    have hle := continuations_le_count (width lead - 2) bs
    simp only [accepted]
    split_ifs <;> omega

theorem continuations_take (n : ℕ) (bs : Bytes) :
    continuations n (bs.take (continuations n bs)) = continuations n bs := by
  induction n generalizing bs with
  | zero => simp [continuations]
  | succ n ih =>
    cases bs with
    | nil => rfl
    | cons b bs =>
      by_cases hb : isContinuation b = true
      · simp [continuations, hb, ih]
      · simp [continuations, hb]

theorem accepted_take (lead : UInt8) (rest : Bytes) :
    accepted lead (rest.take (accepted lead rest)) = accepted lead rest := by
  cases rest with
  | nil => rfl
  | cons b bs =>
    by_cases hb : 2 ≤ width lead ∧ secondOk lead b = true
    · simp [accepted, hb, continuations_take]
    · simp [accepted, hb]

theorem continuations_mono (n : ℕ) (xs ys : Bytes) :
    continuations n xs ≤ continuations n (xs ++ ys) := by
  induction xs generalizing n with
  | nil => cases n <;> simp [continuations]
  | cons x xs ih =>
    cases n with
    | zero => simp [continuations]
    | succ n =>
      have hle := ih n
      simp only [List.cons_append, continuations]
      split_ifs <;> omega

theorem accepted_mono (lead : UInt8) (xs ys : Bytes) :
    accepted lead xs ≤ accepted lead (xs ++ ys) := by
  cases xs with
  | nil => exact Nat.zero_le _
  | cons x xs =>
    have hle := continuations_mono (width lead - 2) xs ys
    simp only [List.cons_append, accepted]
    split_ifs <;> omega

def firstContinuation (lead : UInt8) : UInt8 :=
  if lead.toNat = 0xE0 then 0xA0 else if lead.toNat = 0xF0 then 0x90 else 0x80

theorem firstContinuation_ok {lead : UInt8} : secondOk lead (firstContinuation lead) = true := by
  by_cases h0 : lead.toNat = 0xE0
  · simp [firstContinuation, secondOk, h0]
  · by_cases h1 : lead.toNat = 0xF0
    · simp [firstContinuation, secondOk, h1]
    · simp only [firstContinuation, secondOk, isContinuation, h0, h1, ↓reduceIte]
      split_ifs <;> decide

/-- What has been accepted so far can be continued to the encoding of a character. -/
theorem accepted_completes {lead : UInt8} {rest : Bytes} (h : accepted lead rest = rest.length)
    (hwidth : rest.length + 1 ≤ width lead) :
    ∃ more, accepted lead (rest ++ more) = (rest ++ more).length ∧
      (rest ++ more).length + 1 = width lead := by
  cases rest with
  | nil =>
    by_cases hw : 2 ≤ width lead
    · refine ⟨firstContinuation lead :: List.replicate (width lead - 2) 0x80, ?_, ?_⟩
      · have hnone : continuations (width lead - 2) [] = ([] : Bytes).length := by
          cases width lead - 2 <;> rfl
        have hfill := continuations_filled hnone (Nat.zero_add _)
        rw [List.nil_append] at hfill
        simp [accepted, hw, firstContinuation_ok, hfill]
      · simp
        omega
    · refine ⟨[], rfl, ?_⟩
      simp only [List.length_nil, Nat.zero_add, List.append_nil] at hwidth ⊢
      omega
  | cons b bs =>
    by_cases hb : 2 ≤ width lead ∧ secondOk lead b = true
    · simp only [accepted, hb, and_self, ↓reduceIte, List.length_cons,
        Nat.add_right_cancel_iff] at h
      rw [List.length_cons] at hwidth
      have hfill := continuations_filled (k := width lead - 2 - bs.length) h (by omega)
      refine ⟨List.replicate (width lead - 2 - bs.length) 0x80, ?_, ?_⟩
      · simp only [List.cons_append, accepted, hb, and_self, ↓reduceIte, hfill, List.length_cons,
          List.length_append, List.length_replicate]
        omega
      · simp only [List.cons_append, List.length_cons, List.length_append, List.length_replicate]
        omega
    · simp [accepted, hb] at h

theorem begins_iff {lead : UInt8} {rest : Bytes} :
    Begins (lead :: rest) ↔ accepted lead rest = rest.length ∧ rest.length + 1 ≤ width lead := by
  constructor
  · rintro ⟨c, after, heq⟩
    rw [List.cons_append] at heq
    obtain ⟨haccepted, hwidth⟩ := encode_accepted heq.symm []
    rw [List.append_nil] at haccepted
    refine ⟨accepted_of_append haccepted, ?_⟩
    rw [List.length_append] at hwidth
    omega
  · rintro ⟨haccepted, hwidth⟩
    obtain ⟨more, hall, hcomplete⟩ := accepted_completes haccepted hwidth
    have hencode := encode_codePoint (hall ▸ hcomplete : accepted lead (rest ++ more) + 1 = _)
    rw [hall, List.take_length] at hencode
    exact ⟨_, more, hencode.symm⟩

end sequences

section validation

/-- What makes an input ill-formed where no character can be read: with no length, the input ends
within a character; with one, the bytes up to that length begin a character, or are one byte that
begins none, and with the next byte they begin none. -/
def IllFormed (rest : Bytes) : Option ℕ → Prop
  | none => rest ≠ [] ∧ Begins rest
  | some k => 1 ≤ k ∧ k ≤ rest.length ∧ (1 < k → Begins (rest.take k)) ∧
      ¬Begins (rest.take (k + 1))

/-- The error names the end of the longest beginning that can be decoded. -/
structure Rejects (offset : ℕ) (bs : Bytes) (e : Utf8Error) (s : Str) (rest : Bytes) : Prop where
  split : bs = utf8 s ++ rest
  validUpTo : e.validUpTo = offset + (utf8 s).length
  illFormed : IllFormed rest e.errorLen
  noChar : ∀ c, ¬String.utf8EncodeChar c <+: rest

theorem illFormed_of_accepted {lead : UInt8} {rest : Bytes}
    (h : accepted lead rest + 1 ≠ width lead) :
    IllFormed (lead :: rest) (if 2 ≤ width lead ∧ accepted lead rest = rest.length then none
      else some (accepted lead rest + 1)) := by
  have hle := accepted_le lead rest
  by_cases hw : 2 ≤ width lead
  · have hcount : accepted lead rest + 1 ≤ width lead := accepted_le_width hw rest
    by_cases hn : accepted lead rest = rest.length
    · rw [if_pos ⟨hw, hn⟩]
      exact ⟨List.cons_ne_nil lead rest, begins_iff.mpr ⟨hn, hn ▸ hcount⟩⟩
    · rw [if_neg fun hboth => hn hboth.2]
      refine ⟨Nat.le_add_left 1 _, Nat.succ_le_succ hle, ?_, ?_⟩
      · intro _
        rw [List.take_succ_cons, begins_iff, accepted_take, List.length_take]
        omega
      · rw [List.take_succ_cons, begins_iff]
        rintro ⟨hall, _⟩
        have hmono := accepted_mono lead (rest.take (accepted lead rest + 1))
          (rest.drop (accepted lead rest + 1))
        rw [List.take_append_drop, hall, List.length_take] at hmono
        omega
  · have hn : accepted lead rest = 0 := by
      cases rest with
      | nil => rfl
      | cons b bs => simp [accepted, hw]
    rw [if_neg fun hboth => hw hboth.1, hn]
    rw [hn] at h
    refine ⟨Nat.le_refl 1, Nat.le_add_left 1 _, ?_, ?_⟩
    · intro hlt
      exact absurd hlt (Nat.lt_irrefl 1)
    · rw [Nat.zero_add, List.take_succ_cons, begins_iff]
      rintro ⟨_, hwidth⟩
      omega

theorem utf8_cons (c : Char) (s : Str) : utf8 (c :: s) = String.utf8EncodeChar c ++ utf8 s :=
  List.flatMap_cons

theorem validate_utf8 {fuel : ℕ} {s : Str} (h : (utf8 s).length ≤ fuel) (offset : ℕ) :
    validate fuel offset (utf8 s) = .ok s := by
  induction s generalizing fuel offset with
  | nil => cases fuel <;> rfl
  | cons c s ih =>
    obtain ⟨lead, cont, hc, hdecode⟩ := decodeOne_encode c
    obtain ⟨haccepted, hwidth⟩ := encode_accepted hc (utf8 s)
    rw [utf8_cons, hc, List.cons_append] at h ⊢
    cases fuel with
    | zero => simp at h
    | succ fuel =>
      have hs : (utf8 s).length ≤ fuel := by
        simp only [List.length_cons, List.length_append] at h
        omega
      rw [validate, haccepted, if_pos hwidth, hdecode, ih hs]
      rfl

/-- What validation has read is well-formed, and where it stops nothing can be read. -/
theorem validate_spec {fuel offset : ℕ} {bs : Bytes} (h : bs.length ≤ fuel) :
    (∀ s, validate fuel offset bs = .ok s → bs = utf8 s) ∧
      ∀ e, validate fuel offset bs = .error e → ∃ s rest, Rejects offset bs e s rest := by
  induction fuel generalizing offset bs with
  | zero =>
    obtain rfl := List.length_eq_zero_iff.mp (Nat.le_zero.mp h)
    refine ⟨?_, nofun⟩
    rintro s ⟨⟩
    rfl
  | succ fuel ih =>
    cases bs with
    | nil =>
      refine ⟨?_, nofun⟩
      rintro s ⟨⟩
      rfl
    | cons lead rest =>
      by_cases hn : accepted lead rest + 1 = width lead
      · have hrest : (decodeOne lead rest).2 = rest.drop (accepted lead rest) := rfl
        have hlength : (rest.drop (accepted lead rest)).length ≤ fuel := by
          rw [List.length_cons] at h
          rw [List.length_drop]
          omega
        have hchar : ∀ s : Str, utf8 ((decodeOne lead rest).1 :: s) =
            lead :: rest.take (accepted lead rest) ++ utf8 s := by
          intro s
          have hfirst : (decodeOne lead rest).1 =
              Char.ofNat (codePoint lead (rest.take (accepted lead rest))) := if_pos hn
          rw [utf8_cons, hfirst, encode_codePoint hn]
        have hsplit : ∀ after : Bytes, after = rest.drop (accepted lead rest) →
            lead :: rest = lead :: rest.take (accepted lead rest) ++ after := by
          rintro after rfl
          rw [List.cons_append, List.take_append_drop]
        obtain ⟨hok, herror⟩ := @ih (offset + (accepted lead rest + 1)) _ hlength
        rw [validate, if_pos hn, hrest]
        cases hv : validate fuel (offset + (accepted lead rest + 1))
            (rest.drop (accepted lead rest)) with
        | ok s =>
          refine ⟨?_, nofun⟩
          rintro s' ⟨⟩
          rw [hchar]
          exact hsplit _ (hok s hv).symm
        | error e =>
          refine ⟨nofun, ?_⟩
          rintro e' ⟨⟩
          obtain ⟨s, unread, hrejects⟩ := herror e hv
          refine ⟨(decodeOne lead rest).1 :: s, unread, ?_, ?_, hrejects.illFormed,
            hrejects.noChar⟩
          · rw [hchar, List.append_assoc]
            exact hsplit _ hrejects.split.symm
          · have htake : (rest.take (accepted lead rest)).length = accepted lead rest := by
              rw [List.length_take, Nat.min_eq_left (accepted_le lead rest)]
            rw [hrejects.validUpTo, hchar, List.length_append, List.length_cons, htake]
            omega
      · rw [validate, if_neg hn]
        refine ⟨nofun, ?_⟩
        rintro e ⟨⟩
        exact ⟨[], lead :: rest, rfl, rfl, illFormed_of_accepted hn, no_encoding hn⟩

theorem fromUtf8_ok_iff {bs : Bytes} {s : Str} : fromUtf8 bs = .ok s ↔ bs = utf8 s := by
  constructor
  · exact (validate_spec (Nat.le_refl _)).1 s
  · rintro rfl
    exact validate_utf8 (Nat.le_refl _) 0

theorem fromUtf8_error {bs : Bytes} {e : Utf8Error} (h : fromUtf8 bs = .error e) :
    ∃ s rest, Rejects 0 bs e s rest := (validate_spec (Nat.le_refl _)).2 e h

end validation

end Utf8Validation
