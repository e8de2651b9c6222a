import Navar.ByteBuffers
import Navar.LineSplitting

/-! # Cutting lines out of the ring buffer

Both stream parsers push a frame into a ring buffer, look for line feeds among the bytes just
pushed, and copy each line out of the two slices of the buffer. A slice index out of range or a
subtraction below zero would panic: such a step has no result here. -/
namespace LineScanning

open ByteBuffers
open LineSplitting

def lf : UInt8 := 10

def slice {α : Type} (s : List α) (start stop : ℕ) : Option (List α) :=
  if start ≤ stop ∧ stop ≤ s.length then some ((s.drop start).take (stop - start)) else none

def checkedSub (a b : ℕ) : Option ℕ := if b ≤ a then some (a - b) else none

/-- The copy of the bytes `start..stop`, which may lie in either slice or in both. -/
def copyLine (d : VecDeque UInt8) (start stop : ℕ) : Option Bytes := do
  let _ ← checkedSub stop start
  let (s1, s2) := d.asSlices
  if stop ≤ s1.length then slice s1 start stop
  else if start ≥ s1.length then
    let s2Start ← checkedSub start s1.length
    let s2End ← checkedSub stop s1.length
    slice s2 s2Start s2End
  else
    let front ← slice s1 start s1.length
    let s2End ← checkedSub stop s1.length
    let back ← slice s2 0 s2End
    some (front ++ back)

variable {σ : Type}

/-- The loop over the positions of the bytes just pushed, with the end of the last line cut. -/
def scan (d : VecDeque UInt8) (consume : σ → Bytes → σ) : List ℕ → ℕ → σ → Option (ℕ × σ)
  | [], processed, s => some (processed, s)
  | position :: positions, processed, s => do
    let b ← d.items[position]?
    if b = lf then
      let line ← copyLine d processed position
      scan d consume positions (position + 1) (consume s line)
    else scan d consume positions processed s

theorem slice_eq {α : Type} {s : List α} {start stop : ℕ} (h : start ≤ stop)
    (h' : stop ≤ s.length) : slice s start stop = some ((s.drop start).take (stop - start)) :=
  if_pos ⟨h, h'⟩

theorem checkedSub_eq {a b : ℕ} (h : b ≤ a) : checkedSub a b = some (a - b) := if_pos h

/-- Wherever the buffer wraps, the copy is the segment and no index is out of range. -/
theorem copyLine_eq {d : VecDeque UInt8} {start stop : ℕ} (h : start ≤ stop)
    (h' : stop ≤ d.items.length) :
    copyLine d start stop = some ((d.items.drop start).take (stop - start)) := by
  have hs := d.asSlices_append
  have hlen : d.asSlices.1.length + d.asSlices.2.length = d.items.length := by
    rw [← hs, List.length_append]
  simp only [copyLine, checkedSub_eq h, Option.bind_eq_bind, Option.bind_some]
  generalize d.asSlices = slices at hs hlen
  obtain ⟨s1, s2⟩ := slices
  simp only at hs hlen ⊢
  rw [← hs]
  split_ifs with h1 h2
  · rw [slice_eq h h1, List.drop_append_of_le_length (by omega), List.take_append_of_le_length]
    simp only [List.length_drop]
    omega
  · rw [checkedSub_eq h2, checkedSub_eq (by omega)]
    simp only [Option.bind_some]
    rw [slice_eq (by omega) (by omega), List.drop_append, List.drop_of_length_le h2,
      List.nil_append]
    congr 2
    omega
  · rw [slice_eq (by omega) (Nat.le_refl _), checkedSub_eq (by omega)]
    simp only [Option.bind_some]
    rw [slice_eq (by omega) (by omega)]
    simp only [Option.bind_some, List.drop_zero, Nat.sub_zero]
    have hfront : (s1.drop start).length = s1.length - start := List.length_drop
    have hall : (s1.drop start).take (stop - start) = s1.drop start :=
      List.take_of_length_le (by omega)
    rw [List.drop_append_of_le_length (by omega), List.take_append, hfront, hall,
      List.take_of_length_le (Nat.le_of_eq hfront),
      show stop - start - (s1.length - start) = stop - s1.length by omega]

/-- The scan from position `p` on: the bytes since the last line cut hold no line feed so far. -/
theorem scan_from (d : VecDeque UInt8) (consume : σ → Bytes → σ) (n p processed : ℕ) (s : σ)
    (hn : p + n = d.items.length) (hp : processed ≤ p)
    (hlf : lf ∉ (d.items.drop processed).take (p - processed)) :
    scan d consume (List.range' p n) processed s =
      some (d.items.length - (unfinished lf (d.items.drop processed)).length,
        (lines lf (d.items.drop processed)).foldl consume s) := by
  induction n generalizing p processed s with
  | zero =>
    rw [List.take_of_length_le (by rw [List.length_drop]; omega)] at hlf
    obtain ⟨hl, hu⟩ := lines_of_not_mem hlf
    rw [hl, hu, List.length_drop]
    simp only [List.range'_zero, scan, List.foldl_nil, Option.some.injEq, Prod.mk.injEq,
      and_true]
    omega
  | succ n ih =>
    have hlt : p < d.items.length := by omega
    -- the bytes from `processed` on are the line begun so far, the byte at `p`, and the rest
    have hcut : d.items.drop processed =
        (d.items.drop processed).take (p - processed) ++ d.items[p] :: d.items.drop (p + 1) := by
      conv_lhs => rw [← List.take_append_drop (p - processed) (d.items.drop processed)]
      rw [List.drop_drop, show processed + (p - processed) = p by omega,
        List.drop_eq_getElem_cons hlt]
    simp only [List.range'_succ, scan, List.getElem?_eq_getElem hlt, Option.bind_eq_bind,
      Option.bind_some]
    by_cases hb : d.items[p] = lf
    · rw [if_pos hb, copyLine_eq hp (Nat.le_of_lt hlt)]
      simp only [Option.bind_some]
      rw [ih (p + 1) (p + 1) _ (by omega) (Nat.le_refl _) (by simp)]
      rw [hb] at hcut
      have hline := lines_terminated hlf (d.items.drop (p + 1))
      rw [← hcut] at hline
      rw [hline.1, hline.2, List.foldl_cons]
    · rw [if_neg hb, ih (p + 1) processed s (by omega) (by omega)]
      have htake : (d.items.drop processed).take (p + 1 - processed) =
          (d.items.drop processed).take (p - processed) ++ [d.items[p]] := by
        rw [show p + 1 - processed = (p - processed) + 1 by omega, List.take_add_one,
          List.getElem?_drop, show processed + (p - processed) = p by omega,
          List.getElem?_eq_getElem hlt]
        rfl
      rw [htake, List.mem_append, not_or]
      exact ⟨hlf, by simpa using Ne.symm hb⟩

/-- A scan of the bytes behind a line that has begun cuts exactly the lines of the buffer. -/
theorem scan_pushed (d : VecDeque UInt8) (consume : σ → Bytes → σ) (oldLen : ℕ) (s : σ)
    (hold : oldLen ≤ d.len) (hlf : lf ∉ d.items.take oldLen) :
    scan d consume (List.range' oldLen (d.len - oldLen)) 0 s =
      some (d.len - (unfinished lf d.items).length, (lines lf d.items).foldl consume s) := by
  simpa [VecDeque.len] using scan_from d consume (d.len - oldLen) oldLen 0 s
    (by simp only [VecDeque.len] at *; omega) (Nat.zero_le _) (by simpa using hlf)

theorem len_le_of_pushed {old pushed : VecDeque UInt8} {bytes : Bytes}
    (h : pushed.items = old.items ++ bytes) : old.len ≤ pushed.len := by
  simp only [VecDeque.len, h, List.length_append]
  omega

/-- A scan of the bytes pushed onto a buffer without line feeds. -/
theorem scan_appended {old pushed : VecDeque UInt8} {bytes : Bytes}
    (hpush : pushed.items = old.items ++ bytes) (h : lf ∉ old.items) (consume : σ → Bytes → σ)
    (s : σ) :
    scan pushed consume (List.range' old.len (pushed.len - old.len)) 0 s =
      some (pushed.len - (unfinished lf pushed.items).length,
        (lines lf pushed.items).foldl consume s) := by
  apply scan_pushed pushed consume old.len s (len_le_of_pushed hpush)
  rw [hpush, VecDeque.len, List.take_left]
  exact h

theorem drop_lines (xs : Bytes) :
    xs.drop (xs.length - (unfinished lf xs).length) = unfinished lf xs := by
  have h := unlines_lines lf xs
  have hl : xs.length = (unlines lf (lines lf xs)).length + (unfinished lf xs).length := by
    rw [← List.length_append, h]
  conv_lhs => rw [← h]
  rw [List.drop_left']
  rw [h]
  omega

end LineScanning
