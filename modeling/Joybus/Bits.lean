/-!
Bytes, hardware words, and vectors given bit by bit.
-/

namespace Joybus

/-- One byte of a frame. -/
abbrev Byte := BitVec 8

/-- One entry of a hardware FIFO. -/
abbrev Word := BitVec 32

/-- The `n`-bit vector whose bit `i`, counted from the least significant one, is `f i`. -/
def gather (f : Nat → Bool) : (n : Nat) → BitVec n
  | 0 => 0#0
  | n + 1 => BitVec.cons (f n) (gather f n)

@[simp] theorem getLsbD_gather (f : Nat → Bool) (n i : Nat) :
    (gather f n).getLsbD i = (decide (i < n) && f i) := by
  induction n with
  | zero => simp [gather]
  | succ n ih =>
    rw [gather, BitVec.getLsbD_cons, ih]
    by_cases h : i = n
    · simp [h]
    · have : i < n + 1 ↔ i < n := by omega
      simp [h, this]

/-- Chunks of `k` bits that are shifted in one after the other: the last one ends in the lowest
places. -/
theorem getLsbD_foldl_shiftLeft_or {k n i r : Nat} (m : Nat) (chunk : Nat → BitVec n)
    (small : ∀ j, ∀ l ≥ k, (chunk j).getLsbD l = false) (hr : r < k) (hn : k * i + r < n) :
    ((List.range m).foldl (fun (out : BitVec n) j => out <<< k ||| chunk j) 0).getLsbD (k * i + r) =
      (decide (i < m) && (chunk (m - 1 - i)).getLsbD r) := by
  induction m generalizing i with
  | zero => simp
  | succ m ih =>
    rw [List.range_succ, List.foldl_append, List.foldl_cons, List.foldl_nil, BitVec.getLsbD_or,
      BitVec.getLsbD_shiftLeft]
    cases i with
    | zero => simp [hr]
    | succ i =>
      rw [Nat.mul_succ] at hn ⊢
      have earlier := ih (i := i) (by omega)
      have place : k * i + k + r - k = k * i + r := by omega
      have turn : m + 1 - 1 - (i + 1) = m - 1 - i := by omega
      have inside : ¬ k * i + k + r < k := by omega
      rw [small m _ (by omega), place, turn, earlier]
      simp [hn, inside]

end Joybus
