import Mathlib.Logic.Function.Basic
import Mathlib.Data.Nat.Notation

/-!
# Bitmaps of 64-bit words

A set of numbers kept as an array of machine words: number `n` is bit `n % 64` of word `n / 64`.
Setting and clearing a bit are the usual mask operations, and a program that uses them is proved
about through the three lemmas that say what a bit is afterwards.
-/

/-- An array of 64-bit words. -/
abbrev Bitmap := ℕ → BitVec 64

namespace Bitmap

variable {m : Bitmap} {n k : ℕ}

/-- The mask of a number inside its word, `1 << (n & 63)`. -/
def mask (n : ℕ) : BitVec 64 := 1#64 <<< (n &&& 63)

/-- Is the bit of `n` set? -/
def test (m : Bitmap) (n : ℕ) : Bool := m (n >>> 6) &&& mask n != 0#64

/-- Set the bit of `n`. -/
def set (m : Bitmap) (n : ℕ) : Bitmap := Function.update m (n >>> 6) (m (n >>> 6) ||| mask n)

/-- Clear the bit of `n`. -/
def clear (m : Bitmap) (n : ℕ) : Bitmap := Function.update m (n >>> 6) (m (n >>> 6) &&& ~~~mask n)

/-- The array of zeros. -/
def zero : Bitmap := fun _ => 0#64

theorem and_63 (n : ℕ) : n &&& 63 = n % 64 := Nat.and_two_pow_sub_one_eq_mod n 6

theorem shiftRight_6 (n : ℕ) : n >>> 6 = n / 64 := Nat.shiftRight_eq_div_pow n 6

theorem getLsbD_mask (n i : ℕ) : (mask n).getLsbD i = decide (i = n % 64) := by
  have hlt : n % 64 < 64 := Nat.mod_lt _ (by decide)
  have : 1#64 <<< (n % 64) = BitVec.twoPow 64 (n % 64) := (BitVec.twoPow_eq 64 (n % 64)).symm
  rw [mask, and_63, this, BitVec.getLsbD_twoPow]
  simp only [hlt, decide_true, Bool.true_and, eq_comm]

/-- A set bit, read off the word. -/
theorem test_eq (m : Bitmap) (n : ℕ) : test m n = (m (n / 64)).getLsbD (n % 64) := by
  rw [test, shiftRight_6, bne]
  cases hb : (m (n / 64)).getLsbD (n % 64) with
  | true =>
    rw [Bool.not_eq_true', beq_eq_false_iff_ne]
    intro h
    have := congrArg (fun w => BitVec.getLsbD w (n % 64)) h
    simp only [BitVec.getLsbD_and, hb, getLsbD_mask] at this
    simp at this
  | false =>
    rw [Bool.not_eq_false', beq_iff_eq]
    apply BitVec.eq_of_getLsbD_eq
    intro i hi
    rw [BitVec.getLsbD_and, getLsbD_mask]
    by_cases h : i = n % 64
    · subst h; simp [hb]
    · simp [h]

/-- Two numbers in the same word with the same bit position are the same number. -/
theorem eq_of_word_bit (hw : n / 64 = k / 64) (hb : n % 64 = k % 64) : n = k := by omega

/-- An array is determined by its bits. -/
theorem ext_test {m m' : Bitmap} (h : ∀ n, test m n = test m' n) : m = m' := by
  funext w
  apply BitVec.eq_of_getLsbD_eq
  intro i hi
  have hbit := h (w * 64 + i)
  rwa [test_eq, test_eq, show (w * 64 + i) / 64 = w by omega,
    show (w * 64 + i) % 64 = i by omega] at hbit

@[simp] theorem test_zero (n : ℕ) : test zero n = false := by rw [test_eq]; simp [zero]

theorem test_set (m : Bitmap) (n k : ℕ) : test (set m n) k = (decide (k = n) || test m k) := by
  rw [test_eq, test_eq, set, shiftRight_6]
  by_cases hw : k / 64 = n / 64
  · rw [hw, Function.update_self, BitVec.getLsbD_or, getLsbD_mask, Bool.or_comm]
    congr 1
    rw [decide_eq_decide]
    exact ⟨fun hb => eq_of_word_bit hw hb, fun h => by rw [h]⟩
  · rw [Function.update_of_ne hw]
    have : k ≠ n := fun h => hw (by rw [h])
    simp [this]

theorem test_clear (m : Bitmap) (n k : ℕ) : test (clear m n) k = (!decide (k = n) && test m k) := by
  have hlt : k % 64 < 64 := Nat.mod_lt _ (by decide)
  rw [test_eq, test_eq, clear, shiftRight_6]
  by_cases hw : k / 64 = n / 64
  · rw [hw, Function.update_self, BitVec.getLsbD_and, BitVec.getLsbD_not, getLsbD_mask,
      Bool.and_comm]
    have : decide (k % 64 = n % 64) = decide (k = n) := by
      rw [decide_eq_decide]
      exact ⟨fun hb => eq_of_word_bit hw hb, fun h => by rw [h]⟩
    simp [hlt, this]
  · rw [Function.update_of_ne hw]
    have : k ≠ n := fun h => hw (by rw [h])
    simp [this]

end Bitmap
