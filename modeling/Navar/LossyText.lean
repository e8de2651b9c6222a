import Navar.ByteBuffers
import Mathlib.Data.List.DropRight

/-! # Text

Strings are lists of characters. Encoding is UTF-8; lossy decoding puts one replacement
character for each maximal beginning of an ill-formed sequence; white space is the Unicode
property of that name. -/
namespace LossyText

open ByteBuffers

abbrev Str := List Char

def utf8 (s : Str) : Bytes := s.flatMap String.utf8EncodeChar

/-- The length of the sequence that a byte begins; no sequence begins with 80..C1 or F5..FF. -/
def width (lead : UInt8) : ℕ :=
  let n := lead.toNat
  if n < 0x80 then 1
  else if n < 0xC2 then 0
  else if n < 0xE0 then 2
  else if n < 0xF0 then 3
  else if n < 0xF5 then 4
  else 0

def isContinuation (b : UInt8) : Bool := 0x80 ≤ b.toNat ∧ b.toNat < 0xC0

/-- Which bytes may come second: E0 and F0 rule out overlong forms, ED the surrogates, and
F4 what lies beyond the last code point. -/
def secondOk (lead b : UInt8) : Bool :=
  let n := lead.toNat
  let m := b.toNat
  if n = 0xE0 then 0xA0 ≤ m ∧ m < 0xC0
  else if n = 0xED then 0x80 ≤ m ∧ m < 0xA0
  else if n = 0xF0 then 0x90 ≤ m ∧ m < 0xC0
  else if n = 0xF4 then 0x80 ≤ m ∧ m < 0x90
  else isContinuation b

def continuations : ℕ → Bytes → ℕ
  | n + 1, b :: bs => if isContinuation b then continuations n bs + 1 else 0
  | _, _ => 0

/-- How many bytes after `lead` still belong to a sequence that `lead` begins. -/
def accepted (lead : UInt8) : Bytes → ℕ
  | [] => 0
  | b :: bs =>
    if 2 ≤ width lead ∧ secondOk lead b then continuations (width lead - 2) bs + 1 else 0

def codePoint (lead : UInt8) : Bytes → ℕ
  | [b] => lead.toNat % 32 * 64 + b.toNat % 64
  | [b, c] => lead.toNat % 16 * 4096 + b.toNat % 64 * 64 + c.toNat % 64
  | [b, c, d] =>
    lead.toNat % 8 * 262144 + b.toNat % 64 * 4096 + c.toNat % 64 * 64 + d.toNat % 64
  | _ => lead.toNat

def replacement : Char := '\uFFFD'

/-- The first character of `lead :: rest` and the bytes after it. -/
def decodeOne (lead : UInt8) (rest : Bytes) : Char × Bytes :=
  let n := accepted lead rest
  (if n + 1 = width lead then Char.ofNat (codePoint lead (rest.take n)) else replacement,
    rest.drop n)

def decode : ℕ → Bytes → Str
  | fuel + 1, lead :: rest => (decodeOne lead rest).1 :: decode fuel (decodeOne lead rest).2
  | _, _ => []

def fromUtf8Lossy (bs : Bytes) : Str := decode bs.length bs

theorem decode_fuel (fuel : ℕ) (bs : Bytes) (h : bs.length ≤ fuel) :
    decode fuel bs = fromUtf8Lossy bs := by
  have main : ∀ n bs, bs.length ≤ n → ∀ k, bs.length ≤ k → decode n bs = decode k bs := by
    intro n
    induction n with
    | zero =>
      intro bs hb k _
      have : bs = [] := List.length_eq_zero_iff.mp (by omega)
      subst this
      cases k <;> rfl
    | succ n ih =>
      intro bs hb k hk
      cases bs with
      | nil => cases k <;> rfl
      | cons lead rest =>
        cases k with
        | zero => simp at hk
        | succ k =>
          have hr : (decodeOne lead rest).2.length ≤ rest.length := by
            simp [decodeOne]
          simp only [List.length_cons] at hb hk
          simp only [decode]
          rw [ih _ (by omega) k (by omega)]
  exact main fuel bs h bs.length (Nat.le_refl _)

@[simp] theorem fromUtf8Lossy_nil : fromUtf8Lossy [] = [] := rfl

theorem fromUtf8Lossy_cons (lead : UInt8) (rest : Bytes) :
    fromUtf8Lossy (lead :: rest) =
      (decodeOne lead rest).1 :: fromUtf8Lossy (decodeOne lead rest).2 := by
  have hr : (decodeOne lead rest).2.length ≤ rest.length := by simp [decodeOne]
  rw [← decode_fuel _ _ hr]
  rfl

theorem decodeOne_one {lead : UInt8} (h : lead.toNat < 0x80) (rest : Bytes) :
    decodeOne lead rest = (Char.ofNat lead.toNat, rest) := by
  have hw : width lead = 1 := by simp [width, h]
  have ha : accepted lead rest = 0 := by cases rest <;> simp [accepted, hw]
  simp [decodeOne, ha, hw, codePoint]

theorem decodeOne_two {lead b : UInt8} (h : 0xC2 ≤ lead.toNat) (h' : lead.toNat < 0xE0)
    (hb : isContinuation b) (rest : Bytes) : decodeOne lead (b :: rest) =
      (Char.ofNat (lead.toNat % 32 * 64 + b.toNat % 64), rest) := by
  have hw : width lead = 2 := by
    simp only [width]
    split_ifs <;> omega
  have hs : secondOk lead b = true := by
    unfold secondOk
    rwa [if_neg (by omega), if_neg (by omega), if_neg (by omega), if_neg (by omega)]
  have ha : accepted lead (b :: rest) = 1 := by simp [accepted, hw, hs, continuations]
  simp [decodeOne, ha, hw, codePoint]

theorem decodeOne_three {lead b c : UInt8} (h : 0xE0 ≤ lead.toNat) (h' : lead.toNat < 0xF0)
    (hb : secondOk lead b) (hc : isContinuation c) (rest : Bytes) :
    decodeOne lead (b :: c :: rest) =
      (Char.ofNat (lead.toNat % 16 * 4096 + b.toNat % 64 * 64 + c.toNat % 64), rest) := by
  have hw : width lead = 3 := by
    simp only [width]
    split_ifs <;> omega
  have ha : accepted lead (b :: c :: rest) = 2 := by
    simp [accepted, hw, hb, hc, continuations]
  simp [decodeOne, ha, hw, codePoint]

theorem decodeOne_four {lead b c d : UInt8} (h : 0xF0 ≤ lead.toNat) (h' : lead.toNat < 0xF5)
    (hb : secondOk lead b) (hc : isContinuation c) (hd : isContinuation d) (rest : Bytes) :
    decodeOne lead (b :: c :: d :: rest) =
      (Char.ofNat (lead.toNat % 8 * 262144 + b.toNat % 64 * 4096 + c.toNat % 64 * 64 +
        d.toNat % 64), rest) := by
  have hw : width lead = 4 := by
    simp only [width]
    split_ifs <;> omega
  have ha : accepted lead (b :: c :: d :: rest) = 3 := by
    simp [accepted, hw, hb, hc, hd, continuations]
  simp [decodeOne, ha, hw, codePoint]

theorem toNat_low (n : ℕ) : (UInt8.ofNat (n % 64 + 0x80)).toNat = n % 64 + 0x80 := by
  rw [UInt8.toNat_ofNat']
  omega

theorem isContinuation_low (n : ℕ) : isContinuation (UInt8.ofNat (n % 64 + 0x80)) := by
  simp only [isContinuation, toNat_low, decide_eq_true_eq]
  omega

/-- A well-formed sequence is read back as the character that was written. -/
theorem decodeOne_encode (c : Char) : ∃ lead cont, String.utf8EncodeChar c = lead :: cont ∧
    ∀ rest, decodeOne lead (cont ++ rest) = (c, rest) := by
  have hv : c.toNat < 0xD800 ∨ 0xDFFF < c.toNat ∧ c.toNat < 0x110000 := c.valid
  have hc : ∀ n, n = c.toNat → Char.ofNat n = c := fun n hn => hn ▸ Char.ofNat_toNat c
  unfold String.utf8EncodeChar
  simp only [show c.val.toNat = c.toNat from rfl]
  generalize c.toNat = v at hv hc
  split_ifs with h1 h2 h3
  · refine ⟨_, _, rfl, fun rest => ?_⟩
    have hl : (UInt8.ofNat v).toNat = v := by rw [UInt8.toNat_ofNat']; omega
    rw [List.nil_append, decodeOne_one (by omega), hc _ hl]
  · refine ⟨_, _, rfl, fun rest => ?_⟩
    have hl : (UInt8.ofNat (v / 64 % 32 + 0xC0)).toNat = v / 64 + 0xC0 := by
      rw [UInt8.toNat_ofNat']; omega
    have hb := toNat_low v
    rw [List.cons_append, List.nil_append,
      decodeOne_two (by omega) (by omega) (isContinuation_low v), hc]
    omega
  · refine ⟨_, _, rfl, fun rest => ?_⟩
    have hl : (UInt8.ofNat (v / 4096 % 16 + 0xE0)).toNat = v / 4096 + 0xE0 := by
      rw [UInt8.toNat_ofNat']; omega
    have hb := toNat_low (v / 64)
    have hd := toNat_low v
    have hs : secondOk (UInt8.ofNat (v / 4096 % 16 + 0xE0))
        (UInt8.ofNat (v / 64 % 64 + 0x80)) := by
      simp only [secondOk, isContinuation, hl, hb]
      split_ifs <;> simp <;> omega
    rw [List.cons_append, List.cons_append, List.nil_append,
      decodeOne_three (by omega) (by omega) hs (isContinuation_low v), hc]
    omega
  · refine ⟨_, _, rfl, fun rest => ?_⟩
    have hl : (UInt8.ofNat (v / 262144 % 8 + 0xF0)).toNat = v / 262144 + 0xF0 := by
      rw [UInt8.toNat_ofNat']; omega
    have hb := toNat_low (v / 4096)
    have hd := toNat_low (v / 64)
    have he := toNat_low v
    have hs : secondOk (UInt8.ofNat (v / 262144 % 8 + 0xF0))
        (UInt8.ofNat (v / 4096 % 64 + 0x80)) := by
      simp only [secondOk, isContinuation, hl, hb]
      split_ifs <;> simp <;> omega
    rw [List.cons_append, List.cons_append, List.cons_append, List.nil_append,
      decodeOne_four (by omega) (by omega) hs (isContinuation_low _) (isContinuation_low v), hc]
    omega

theorem fromUtf8Lossy_utf8 (s : Str) : fromUtf8Lossy (utf8 s) = s := by
  induction s with
  | nil => rfl
  | cons c s ih =>
    obtain ⟨lead, cont, he, hd⟩ := decodeOne_encode c
    have hs : utf8 (c :: s) = lead :: (cont ++ utf8 s) := by simp [utf8, he]
    rw [hs, fromUtf8Lossy_cons, hd, ih]

/-- Only the line feed itself has a line feed in its encoding. -/
theorem lineFeed_mem_utf8 {s : Str} (h : (10 : UInt8) ∈ utf8 s) : '\n' ∈ s := by
  obtain ⟨c, hc, hb⟩ := List.mem_flatMap.mp h
  have key : ∀ n, (10 : UInt8) = UInt8.ofNat n → n % 256 = 10 := by
    intro n hn
    simpa using (congrArg UInt8.toNat hn).symm
  have hv : c.toNat = 10 := by
    unfold String.utf8EncodeChar at hb
    simp only [show c.val.toNat = c.toNat from rfl] at hb
    split_ifs at hb with h1 h2 h3 <;> simp only [List.mem_cons, List.not_mem_nil, or_false] at hb
    · have := key _ hb; omega
    · rcases hb with hb | hb <;> have := key _ hb <;> omega
    · rcases hb with hb | hb | hb <;> have := key _ hb <;> omega
    · rcases hb with hb | hb | hb | hb <;> have := key _ hb <;> omega
  have : c = '\n' := by rw [← Char.ofNat_toNat c, hv]
  exact this ▸ hc

theorem continuations_append {b : UInt8} (hb : isContinuation b = false) (n : ℕ) (xs ys : Bytes) :
    continuations n (xs ++ b :: ys) = continuations n xs := by
  induction xs generalizing n with
  | nil => cases n <;> simp [continuations, hb]
  | cons x xs ih => cases n <;> simp [continuations, ih]

theorem continuations_le (n : ℕ) (xs : Bytes) : continuations n xs ≤ xs.length := by
  induction xs generalizing n with
  | nil => cases n <;> simp [continuations]
  | cons x xs ih =>
    cases n with
    | zero => simp [continuations]
    | succ n =>
      have := ih n
      simp only [continuations, List.length_cons]
      split <;> omega

theorem isContinuation_of_secondOk {lead b : UInt8} (h : secondOk lead b = true) :
    isContinuation b = true := by
  unfold secondOk at h
  simp only [isContinuation, decide_eq_true_eq] at h ⊢
  split_ifs at h <;> simp at h <;> omega

theorem accepted_le (lead : UInt8) (rest : Bytes) : accepted lead rest ≤ rest.length := by
  cases rest with
  | nil => simp [accepted]
  | cons b bs =>
    have := continuations_le (width lead - 2) bs
    simp only [accepted, List.length_cons]
    split <;> omega

theorem accepted_append {b : UInt8} (hb : isContinuation b = false) (lead : UInt8)
    (rest ys : Bytes) : accepted lead (rest ++ b :: ys) = accepted lead rest := by
  cases rest with
  | nil =>
    have hs : secondOk lead b = false := by
      by_contra h
      rw [isContinuation_of_secondOk (by simpa using h)] at hb
      cases hb
    simp [accepted, hs]
  | cons c rest => simp [accepted, continuations_append hb]

theorem decodeOne_append {b : UInt8} (hb : isContinuation b = false) (lead : UInt8)
    (rest ys : Bytes) : decodeOne lead (rest ++ b :: ys) =
      ((decodeOne lead rest).1, (decodeOne lead rest).2 ++ b :: ys) := by
  have hle := accepted_le lead rest
  simp only [decodeOne, accepted_append hb]
  rw [List.take_append_of_le_length hle, List.drop_append_of_le_length hle]

/-- A byte below 80 is a character of its own, whatever stands before it. -/
theorem fromUtf8Lossy_append {b : UInt8} (hb : b.toNat < 0x80) (xs ys : Bytes) :
    fromUtf8Lossy (xs ++ b :: ys) =
      fromUtf8Lossy xs ++ Char.ofNat b.toNat :: fromUtf8Lossy ys := by
  have hcont : isContinuation b = false := by
    simp only [isContinuation, decide_eq_false_iff_not]
    omega
  induction hn : xs.length using Nat.strong_induction_on generalizing xs with
  | _ n ih =>
    cases xs with
    | nil => simp [fromUtf8Lossy_cons, decodeOne_one hb]
    | cons lead rest =>
      have hr : (decodeOne lead rest).2.length ≤ rest.length := by simp [decodeOne]
      rw [List.cons_append, fromUtf8Lossy_cons, decodeOne_append hcont, fromUtf8Lossy_cons,
        List.cons_append]
      simp only
      rw [ih _ (by simp only [List.length_cons] at hn; omega) _ rfl]

theorem width_cases {lead : UInt8} (h : 2 ≤ width lead) :
    (width lead = 2 ∧ 0xC2 ≤ lead.toNat ∧ lead.toNat < 0xE0) ∨
      (width lead = 3 ∧ 0xE0 ≤ lead.toNat ∧ lead.toNat < 0xF0) ∨
      (width lead = 4 ∧ 0xF0 ≤ lead.toNat ∧ lead.toNat < 0xF5) := by
  unfold width at h ⊢
  simp only at h ⊢
  split_ifs at h ⊢ <;> omega

theorem second_of_accepted {lead b : UInt8} {bs : Bytes} (h : 1 ≤ accepted lead (b :: bs)) :
    secondOk lead b = true := by
  by_contra hs
  simp [accepted, hs] at h

/-- A sequence of two bytes or more stands for a character beyond 7F. -/
theorem codePoint_ge {lead : UInt8} {rest : Bytes} (h : 2 ≤ width lead)
    (hn : accepted lead rest + 1 = width lead) :
    0x80 ≤ codePoint lead (rest.take (accepted lead rest)) := by
  have hle := accepted_le lead rest
  rcases width_cases h with ⟨hw, hlo, hhi⟩ | ⟨hw, hlo, hhi⟩ | ⟨hw, hlo, hhi⟩
  · have ha : accepted lead rest = 1 := by omega
    rw [ha] at hle ⊢
    obtain ⟨b, bs, rfl⟩ := List.exists_cons_of_length_pos hle
    simp only [List.take_succ_cons, List.take_zero, codePoint]
    omega
  · have ha : accepted lead rest = 2 := by omega
    rw [ha] at hle
    obtain ⟨b, bs, rfl⟩ := List.exists_cons_of_length_pos (Nat.lt_of_lt_of_le Nat.zero_lt_two hle)
    have hs := second_of_accepted (by omega : 1 ≤ accepted lead (b :: bs))
    obtain ⟨c, cs, rfl⟩ := List.exists_cons_of_length_pos
      (by simp only [List.length_cons] at hle; omega : 0 < bs.length)
    rw [ha]
    simp only [List.take_succ_cons, List.take_zero, codePoint]
    by_cases he : lead.toNat = 0xE0
    · simp [secondOk, he] at hs
      omega
    · omega
  · have ha : accepted lead rest = 3 := by omega
    rw [ha] at hle
    obtain ⟨b, bs, rfl⟩ := List.exists_cons_of_length_pos (by omega : 0 < rest.length)
    have hs := second_of_accepted (by omega : 1 ≤ accepted lead (b :: bs))
    simp only [List.length_cons] at hle
    obtain ⟨c, cs, rfl⟩ := List.exists_cons_of_length_pos (by omega : 0 < bs.length)
    simp only [List.length_cons] at hle
    obtain ⟨d, ds, rfl⟩ := List.exists_cons_of_length_pos (by omega : 0 < cs.length)
    rw [ha]
    simp only [List.take_succ_cons, List.take_zero, codePoint]
    by_cases he : lead.toNat = 0xF0
    · simp [secondOk, he] at hs
      omega
    · omega

theorem ofNat_lineFeed {n : ℕ} (h : Char.ofNat n = '\n') : n = 10 := by
  by_cases hv : n.isValidChar
  · rw [Char.ofNat, dif_pos hv] at h
    exact congrArg Char.toNat h
  · rw [Char.ofNat, dif_neg hv] at h
    exact absurd h (by decide)

theorem decodeOne_lineFeed {lead : UInt8} {rest : Bytes}
    (h : (decodeOne lead rest).1 = '\n') : lead = 10 := by
  simp only [decodeOne] at h
  split at h
  next hn =>
    have hcode := ofNat_lineFeed h
    by_cases hw : 2 ≤ width lead
    · have := codePoint_ge hw hn
      omega
    · have ha : accepted lead rest = 0 := by omega
      simp only [ha, List.take_zero, codePoint] at hcode
      exact UInt8.toNat_inj.mp hcode
  next => exact absurd h (by decide)

theorem lineFeed_not_mem {bs : Bytes} (h : (10 : UInt8) ∉ bs) : '\n' ∉ fromUtf8Lossy bs := by
  induction hn : bs.length using Nat.strong_induction_on generalizing bs with
  | _ n ih =>
    cases bs with
    | nil => exact List.not_mem_nil
    | cons lead rest =>
      obtain ⟨hlead, hrest⟩ := List.ne_and_not_mem_of_not_mem_cons h
      have hr : (decodeOne lead rest).2 = rest.drop (accepted lead rest) := rfl
      rw [fromUtf8Lossy_cons, List.mem_cons, not_or]
      refine ⟨fun hc => hlead (decodeOne_lineFeed hc.symm).symm, ?_⟩
      refine ih _ ?_ (fun hm => hrest (List.mem_of_mem_drop (hr ▸ hm))) rfl
      rw [hr, List.length_drop, ← hn, List.length_cons]
      omega

def isWhitespace (c : Char) : Bool :=
  let n := c.toNat
  9 ≤ n ∧ n ≤ 13 ∨ n = 0x20 ∨ n = 0x85 ∨ n = 0xA0 ∨ n = 0x1680 ∨ 0x2000 ≤ n ∧ n ≤ 0x200A ∨
    n = 0x2028 ∨ n = 0x2029 ∨ n = 0x202F ∨ n = 0x205F ∨ n = 0x3000

def trimStart (s : Str) : Str := s.dropWhile isWhitespace

def trimEnd (s : Str) : Str := s.rdropWhile isWhitespace

end LossyText
