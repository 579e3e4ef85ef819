import Mathlib.Data.Nat.Bitwise
import Mathlib.Tactic.IntervalCases

/-!
# Bit-fields and little-endian bytes

General facts about bit vectors used as packed records: a field shifted to its place
contributes its value times the weight of the place, disjoint fields combined by `|||` add up,
and a word is determined by its bytes, the `i`-th byte being bits `8 * i` to `8 * i + 7`.
-/

namespace MemoryHierarchy.Lib

/-- Combining a multiple of `2 ^ i` with a number below `2 ^ i` is addition. -/
theorem mul_two_pow_or_eq_add {a b i : ℕ} (hb : b < 2 ^ i) :
    a * 2 ^ i ||| b = a * 2 ^ i + b := by
  rw [← Nat.shiftLeft_eq, ← Nat.shiftLeft_add_eq_or_of_lt hb]

/-- A bit-field widened and shifted to its place is its value times the weight of that place,
as long as it stays inside the word. -/
theorem toNat_setWidth_shiftLeft {n w i : ℕ} (x : BitVec w) (h : w + i ≤ n) :
    (x.setWidth n <<< i).toNat = x.toNat * 2 ^ i := by
  have hx : x.toNat < 2 ^ n :=
    lt_of_lt_of_le x.isLt (Nat.pow_le_pow_right (by omega) (by omega))
  have hxi : x.toNat * 2 ^ i < 2 ^ n :=
    calc x.toNat * 2 ^ i < 2 ^ w * 2 ^ i :=
          Nat.mul_lt_mul_of_pos_right x.isLt (Nat.two_pow_pos i)
      _ = 2 ^ (w + i) := (Nat.pow_add 2 w i).symm
      _ ≤ 2 ^ n := Nat.pow_le_pow_right (by omega) h
  rw [BitVec.toNat_shiftLeft, BitVec.toNat_setWidth, Nat.shiftLeft_eq, Nat.mod_eq_of_lt hx,
    Nat.mod_eq_of_lt hxi]

/-! ### Bytes of a word -/

variable {n : ℕ}

/-- The `i`-th byte in little-endian order. -/
def byteAt (w : BitVec n) (i : ℕ) : BitVec 8 := (w >>> (8 * i)).setWidth 8

/-- The word with its `i`-th byte replaced. -/
def withByte (w : BitVec n) (i : ℕ) (b : BitVec 8) : BitVec n :=
  (w &&& ~~~((255#8).setWidth n <<< (8 * i))) ||| (b.setWidth n <<< (8 * i))

theorem getLsbD_byteAt (w : BitVec n) (i j : ℕ) :
    (byteAt w i).getLsbD j = (decide (j < 8) && w.getLsbD (8 * i + j)) := by
  simp [byteAt]

theorem getLsbD_withByte (w : BitVec n) (i : ℕ) (b : BitVec 8) (j : ℕ) :
    (withByte w i b).getLsbD j =
      (decide (j < n) &&
        if 8 * i ≤ j ∧ j < 8 * i + 8 then b.getLsbD (j - 8 * i) else w.getLsbD j) := by
  have hone : ∀ k : ℕ, (255#8).getLsbD k = decide (k < 8) := by
    intro k
    rcases Nat.lt_or_ge k 8 with hk | hk
    · interval_cases k <;> rfl
    · rw [BitVec.getLsbD_of_ge _ _ hk, decide_eq_false (by omega)]
  simp only [withByte, BitVec.getLsbD_or, BitVec.getLsbD_and, BitVec.getLsbD_not,
    BitVec.getLsbD_shiftLeft, BitVec.getLsbD_setWidth, hone]
  by_cases hn : j < n
  · by_cases hlo : j < 8 * i
    · simp [hn, hlo, show ¬ 8 * i ≤ j by omega]
    · by_cases hhi : j < 8 * i + 8
      · simp [hn, hlo, hhi, show 8 * i ≤ j by omega, show j - 8 * i < 8 by omega,
          show j - 8 * i < n by omega]
      · have hb : b.getLsbD (j - 8 * i) = false := BitVec.getLsbD_of_ge _ _ (by omega)
        simp [hn, hlo, hhi, hb, show ¬ j - 8 * i < 8 by omega]
  · simp [hn]

/-- Reading back the byte just written. -/
theorem byteAt_withByte_self {i : ℕ} (w : BitVec n) (b : BitVec 8) (h : 8 * i + 8 ≤ n) :
    byteAt (withByte w i b) i = b := by
  refine BitVec.eq_of_getLsbD_eq fun j hj => ?_
  rw [getLsbD_byteAt, getLsbD_withByte]
  simp [hj, show 8 * i + j < n by omega]

/-- The other bytes are unchanged. -/
theorem byteAt_withByte_of_ne {i j : ℕ} (w : BitVec n) (b : BitVec 8) (hij : i ≠ j) :
    byteAt (withByte w i b) j = byteAt w j := by
  refine BitVec.eq_of_getLsbD_eq fun k hk => ?_
  rw [getLsbD_byteAt, getLsbD_byteAt, getLsbD_withByte]
  by_cases hn : 8 * j + k < n
  · rw [if_neg (by omega), decide_eq_true hn, Bool.true_and]
  · rw [decide_eq_false hn, Bool.false_and, BitVec.getLsbD_of_ge _ _ (by omega)]

/-- A word is determined by its bytes. -/
theorem eq_of_byteAt_eq {k : ℕ} {w w' : BitVec n} (hn : n = 8 * k)
    (h : ∀ i < k, byteAt w i = byteAt w' i) : w = w' := by
  refine BitVec.eq_of_getLsbD_eq fun j hj => ?_
  have hb := congrArg (fun b => b.getLsbD (j % 8)) (h (j / 8) (by omega))
  simp only [getLsbD_byteAt] at hb
  rw [show 8 * (j / 8) + j % 8 = j by omega, decide_eq_true (Nat.mod_lt j (by omega)),
    Bool.true_and, Bool.true_and] at hb
  exact hb

/-- The 32-bit word with the given bytes. -/
def ofBytes (b : ℕ → BitVec 8) : BitVec 32 := b 3 ++ b 2 ++ b 1 ++ b 0

/-- Reassembling the bytes of a word. -/
theorem ofBytes_byteAt (w : BitVec 32) : ofBytes (byteAt w) = w := by
  refine BitVec.eq_of_getLsbD_eq fun j hj => ?_
  simp only [ofBytes, BitVec.getLsbD_append, getLsbD_byteAt]
  split_ifs with h0 h1 h2
  · rw [decide_eq_true h0, Bool.true_and, Nat.mul_zero, Nat.zero_add]
  · rw [decide_eq_true h1, Bool.true_and, show 8 * 1 + (j - 8) = j by omega]
  · rw [decide_eq_true h2, Bool.true_and, show 8 * 2 + (j - 8 - 8) = j by omega]
  · rw [decide_eq_true (by omega), Bool.true_and, show 8 * 3 + (j - 8 - 8 - 8) = j by omega]

end MemoryHierarchy.Lib
