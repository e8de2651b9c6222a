import Mathlib.Data.List.Basic

/-! # Byte buffers

A buffer exposes its bytes piecewise: a reader sees the current chunk and moves forward.
A ring buffer keeps a queue in one block of memory, so its contents are two slices. -/
namespace ByteBuffers

abbrev Bytes := List UInt8

/-- The reading interface together with the bytes it is an interface to: `bytes` says what
remains, and the laws say that chunks come from its front. -/
class Buf (β : Type) where
  remaining : β → ℕ
  chunk : β → Bytes
  advance : β → ℕ → β
  bytes : β → Bytes
  remaining_eq : ∀ b, remaining b = (bytes b).length
  chunk_prefix : ∀ b, chunk b <+: bytes b
  chunk_ne_nil : ∀ b, 0 < remaining b → chunk b ≠ []
  bytes_advance : ∀ b n, n ≤ remaining b → bytes (advance b n) = (bytes b).drop n

section reading

variable {β σ : Type} [Buf β]

def Buf.hasRemaining (b : β) : Bool := 0 < Buf.remaining b

/-- Documented to consume `n` bytes and to return them as one contiguous buffer. -/
def Buf.copyToBytes (b : β) (n : ℕ) : Bytes × β := ((Buf.bytes b).take n, Buf.advance b n)

/-- `while b.has_remaining() { push(b.chunk()); b.advance(b.chunk().len()) }`, where every
round consumes a byte at least, so `fuel` rounds suffice for `fuel` remaining bytes. -/
def Buf.eachChunk (push : σ → Bytes → σ) : ℕ → β → σ → σ
  | 0, _, s => s
  | fuel + 1, b, s =>
    if Buf.hasRemaining b then
      Buf.eachChunk push fuel (Buf.advance b (Buf.chunk b).length) (push s (Buf.chunk b))
    else s

theorem chunk_length_le (b : β) : (Buf.chunk b).length ≤ Buf.remaining b := by
  rw [Buf.remaining_eq]
  exact (Buf.chunk_prefix b).length_le

theorem chunk_append_advance (b : β) :
    Buf.chunk b ++ Buf.bytes (Buf.advance b (Buf.chunk b).length) = Buf.bytes b := by
  rw [Buf.bytes_advance b _ (chunk_length_le b)]
  obtain ⟨t, ht⟩ := Buf.chunk_prefix b
  rw [← ht, List.drop_left]

theorem copyToBytes_all (b : β) : (Buf.copyToBytes b (Buf.remaining b)).1 = Buf.bytes b := by
  simp [Buf.copyToBytes, Buf.remaining_eq]

/-- Whatever grows by each chunk grows by all the bytes. -/
theorem eachChunk_spec {push : σ → Bytes → σ} (view : σ → Bytes)
    (hpush : ∀ s c, view (push s c) = view s ++ c) (fuel : ℕ) (b : β) (s : σ)
    (hb : Buf.remaining b ≤ fuel) :
    view (Buf.eachChunk push fuel b s) = view s ++ Buf.bytes b := by
  induction fuel generalizing b s with
  | zero =>
    have h0 : (Buf.bytes b).length = 0 := by rw [← Buf.remaining_eq]; omega
    simp [Buf.eachChunk, List.length_eq_zero_iff.mp h0]
  | succ fuel ih =>
    by_cases hr : 0 < Buf.remaining b
    · have hc : 0 < (Buf.chunk b).length := List.length_pos_iff.mpr (Buf.chunk_ne_nil b hr)
      have hle := chunk_length_le b
      have hrem : Buf.remaining (Buf.advance b (Buf.chunk b).length) ≤ fuel := by
        rw [Buf.remaining_eq, Buf.bytes_advance b _ hle, List.length_drop, ← Buf.remaining_eq]
        omega
      simp only [Buf.eachChunk, Buf.hasRemaining, hr, decide_true, ↓reduceIte]
      rw [ih _ _ hrem, hpush, List.append_assoc, chunk_append_advance]
    · have h0 : (Buf.bytes b).length = 0 := by rw [← Buf.remaining_eq]; omega
      simp [Buf.eachChunk, Buf.hasRemaining, hr, List.length_eq_zero_iff.mp h0]

end reading

instance : Buf Bytes where
  remaining := List.length
  chunk b := b
  advance b n := b.drop n
  bytes b := b
  remaining_eq _ := rfl
  chunk_prefix b := List.prefix_refl b
  chunk_ne_nil _ h := List.length_pos_iff.mp h
  bytes_advance _ _ _ := rfl

structure Chain (β γ : Type) where
  first : β
  last : γ

instance {β γ : Type} [Buf β] [Buf γ] : Buf (Chain β γ) where
  remaining b := Buf.remaining b.first + Buf.remaining b.last
  chunk b := if Buf.hasRemaining b.first then Buf.chunk b.first else Buf.chunk b.last
  advance b n :=
    if n ≤ Buf.remaining b.first then { b with first := Buf.advance b.first n }
    else ⟨Buf.advance b.first (Buf.remaining b.first),
      Buf.advance b.last (n - Buf.remaining b.first)⟩
  bytes b := Buf.bytes b.first ++ Buf.bytes b.last
  remaining_eq b := by simp [Buf.remaining_eq]
  chunk_prefix b := by
    by_cases h : 0 < Buf.remaining b.first
    · simpa [Buf.hasRemaining, h] using
        (Buf.chunk_prefix b.first).trans (List.prefix_append _ _)
    · have h0 : Buf.bytes b.first = [] := by
        apply List.length_eq_zero_iff.mp
        rw [← Buf.remaining_eq]
        omega
      simpa [Buf.hasRemaining, h, h0] using Buf.chunk_prefix b.last
  chunk_ne_nil b h := by
    by_cases hf : 0 < Buf.remaining b.first
    · simpa [Buf.hasRemaining, hf] using Buf.chunk_ne_nil b.first hf
    · simpa [Buf.hasRemaining, hf] using Buf.chunk_ne_nil b.last (by omega)
  bytes_advance b n h := by
    by_cases hn : n ≤ Buf.remaining b.first
    · have hl : n ≤ (Buf.bytes b.first).length := by rwa [← Buf.remaining_eq]
      simp [hn, Buf.bytes_advance b.first n hn, List.drop_append_of_le_length hl]
    · have hl : (Buf.bytes b.first).length ≤ n := by rw [← Buf.remaining_eq]; omega
      have hfirst := Buf.bytes_advance b.first (Buf.remaining b.first) (Nat.le_refl _)
      have hlast := Buf.bytes_advance b.last (n - Buf.remaining b.first) (by omega)
      rw [Buf.remaining_eq] at hfirst hlast
      simp only [hn, ↓reduceIte]
      rw [Buf.remaining_eq b.first, hfirst, hlast, List.drop_append, List.drop_of_length_le hl,
        List.drop_length]

/-- A growable ring buffer. `items` is the queue in order, `head` the place of its first
element in a block of `cap` places; elements that do not fit behind `head` wrap around. -/
structure VecDeque (α : Type) where
  items : List α
  cap : ℕ
  head : ℕ
  fits : items.length ≤ cap
  head_le : head ≤ cap

namespace VecDeque

variable {α : Type}

def withCapacity (n : ℕ) : VecDeque α := ⟨[], n, 0, Nat.zero_le n, Nat.zero_le n⟩

def len (d : VecDeque α) : ℕ := d.items.length

def asSlices (d : VecDeque α) : List α × List α :=
  (d.items.take (d.cap - d.head), d.items.drop (d.cap - d.head))

/-- Where the head is after the block has grown: a wrapped queue has its shorter part moved. -/
def regrownHead (d : VecDeque α) (cap : ℕ) : ℕ :=
  let headLen := d.cap - d.head
  let tailLen := d.len - headLen
  if d.len ≤ headLen then d.head
  else if tailLen < headLen ∧ tailLen ≤ cap - d.cap then d.head
  else cap - headLen

def reserve (d : VecDeque α) (additional : ℕ) : VecDeque α :=
  if h : d.len + additional ≤ d.cap then d
  else
    let cap := max (2 * d.cap) (max (d.len + additional) 8)
    have hcap : d.cap ≤ cap := by simp only [len] at h; omega
    { items := d.items
      cap := cap
      head := d.regrownHead cap
      fits := Nat.le_trans d.fits hcap
      head_le := by
        have := d.head_le
        simp only [regrownHead]
        split_ifs <;> omega }

theorem reserve_fits (d : VecDeque α) (n : ℕ) : d.len + n ≤ (d.reserve n).cap := by
  unfold reserve
  split_ifs with h
  · exact h
  · exact Nat.le_trans (Nat.le_max_left _ _) (Nat.le_max_right _ _)

/-- Appending a slice: room for all of it is reserved at once. -/
def extend (d : VecDeque α) (xs : List α) : VecDeque α :=
  { d.reserve xs.length with
    items := d.items ++ xs
    fits := by simpa [len] using d.reserve_fits xs.length }

def pushBack (d : VecDeque α) (a : α) : VecDeque α := d.extend [a]

def dropFront (d : VecDeque α) (n : ℕ) (h : n ≤ d.len) : VecDeque α :=
  { d with
    items := d.items.drop n
    head := if d.head + n < d.cap then d.head + n else d.head + n - d.cap
    fits := by have := d.fits; simp only [List.length_drop]; omega
    head_le := by
      have := d.head_le
      have := d.fits
      simp only [len] at h
      split_ifs <;> omega }

/-- A drain that leaves nothing moves the head back to the first slot. -/
def drainFront (d : VecDeque α) (n : ℕ) : Option (VecDeque α) :=
  if h : n ≤ d.len then
    if n = d.len then some { d.dropFront n h with head := 0, head_le := Nat.zero_le _ }
    else some (d.dropFront n h)
  else none

def popFront (d : VecDeque α) : Option α × VecDeque α :=
  if h : 1 ≤ d.len then (d.items.head?, d.dropFront 1 h) else (none, d)

@[simp] theorem extend_items (d : VecDeque α) (xs : List α) :
    (d.extend xs).items = d.items ++ xs := rfl

@[simp] theorem pushBack_items (d : VecDeque α) (a : α) :
    (d.pushBack a).items = d.items ++ [a] := rfl

theorem asSlices_append (d : VecDeque α) : d.asSlices.1 ++ d.asSlices.2 = d.items :=
  List.take_append_drop _ _

theorem pushBack_each (xs : List α) (d : VecDeque α) :
    (xs.foldl pushBack d).items = d.items ++ xs := by
  induction xs generalizing d with
  | nil => simp
  | cons x xs ih => rw [List.foldl_cons, ih]; simp

theorem drainFront_items {d : VecDeque α} {n : ℕ} (h : n ≤ d.len) :
    ∃ d', d.drainFront n = some d' ∧ d'.items = d.items.drop n := by
  by_cases hall : n = d.len
  · exact ⟨_, by rw [drainFront, dif_pos h, if_pos hall], rfl⟩
  · exact ⟨_, by rw [drainFront, dif_pos h, if_neg hall], rfl⟩

theorem popFront_items (d : VecDeque α) : d.popFront.2.items = d.items.drop 1 := by
  by_cases h : 1 ≤ d.len
  · rw [popFront, dif_pos h]
    rfl
  · have h0 : d.items = [] := List.length_eq_zero_iff.mp (by simp only [len] at h; omega)
    simp [popFront, h, h0]

theorem popFront_each (n : ℕ) (d : VecDeque α) :
    (n.repeat (fun d => d.popFront.2) d).items = d.items.drop n := by
  induction n with
  | zero => rfl
  | succ n ih => rw [Nat.repeat, popFront_items, ih, List.drop_drop]

end VecDeque

end ByteBuffers
