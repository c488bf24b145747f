import Qizo.Kernel.Printf

/-!
# Numerals

What `put_uint` of `kernel/console.c` writes, read back. The digits are found from the last to the
first and put in the opposite order, with the sign at the far end of the buffer. A numeral is
canonical if it has only digits of its base, in lower case, and no zero in front of another digit;
its value is what one gets by reading it from left to right.

## Main results

* `canonical_numeral` — the digits of a number are a canonical numeral for it
* `putUint_canonical` — what is written, in decimal and in hexadecimal
-/

namespace Qizo

namespace Printf

/-- The value of a digit, in lower case. -/
def digitValue (c : UInt8) : Option ℕ :=
  if 48 ≤ c ∧ c ≤ 57 then some (c.toNat - 48)
  else if 97 ≤ c ∧ c ≤ 102 then some (c.toNat - 87)
  else none

/-- One more digit. -/
def readDigit (base : ℕ) (n : ℕ) (c : UInt8) : Option ℕ := do
  let d ← digitValue c
  if d < base then some (n * base + d) else none

/-- The value of a sequence of digits. -/
def valueOf (base : ℕ) (cs : List UInt8) : Option ℕ := cs.foldlM (readDigit base) 0

/-- **A canonical numeral** for `n`. -/
structure Canonical (base n : ℕ) (cs : List UInt8) : Prop where
  ne_nil : cs ≠ []
  value : valueOf base cs = some n
  no_leading_zero : cs.head? = some (code '0') → cs = [code '0']

/-- A canonical numeral for an integer, with a sign in front exactly if it is negative. -/
def SignedCanonical (base : ℕ) (z : ℤ) (cs : List UInt8) : Prop :=
  if z < 0 then ∃ ds, cs = code '-' :: ds ∧ Canonical base z.natAbs ds
  else Canonical base z.natAbs cs

variable {base n : ℕ}

theorem digitValue_digit : ∀ d < 16, digitValue (digit d) = some d := by decide

theorem valueOf_concat (cs : List UInt8) (c : UInt8) :
    valueOf base (cs ++ [c]) = (valueOf base cs).bind (readDigit base · c) := by
  rw [valueOf, List.foldlM_append]
  simp only [List.foldlM_cons, List.foldlM_nil, bind_pure]
  rfl

/-- Digits read back. -/
theorem valueOf_digits (hle : base ≤ 16) {ds : List ℕ} (h : ∀ d ∈ ds, d < base) :
    valueOf base (ds.map digit).reverse = some (Nat.ofDigits base ds) := by
  induction ds with
  | nil => rfl
  | cons d ds ih =>
    obtain ⟨hd, hds⟩ := List.forall_mem_cons.mp h
    rw [List.map_cons, List.reverse_cons, valueOf_concat, ih hds, Option.bind_some, readDigit,
      digitValue_digit d (by omega)]
    simp only [Option.bind_eq_bind, Option.bind_some]
    rw [if_pos hd, Nat.ofDigits_cons, Nat.mul_comm, Nat.add_comm]

theorem digit_ne_zero : ∀ d < 16, d ≠ 0 → digit d ≠ code '0' := by decide

/-- **The digits of a number** are a canonical numeral for it. -/
theorem canonical_numeral (hbase : 1 < base) (hle : base ≤ 16) (n : ℕ) :
    Canonical base n (numeral base n) := by
  by_cases hzero : n = 0
  · subst hzero
    have hdigit : digitValue (code '0') = some 0 := by decide
    refine ⟨by simp [numeral], ?_, fun _ => if_pos rfl⟩
    have hread : readDigit base 0 (code '0') = some 0 := by
      rw [readDigit, hdigit]
      simp only [Option.bind_eq_bind, Option.bind_some]
      rw [if_pos (by omega), Nat.zero_mul]
    rw [numeral, if_pos rfl, ← List.nil_append [code '0'], valueOf_concat]
    exact hread
  have hne : Nat.digits base n ≠ [] := Nat.digits_ne_nil_iff_ne_zero.mpr hzero
  rw [numeral, if_neg hzero]
  refine ⟨by simpa using hne, ?_, fun hhead => ?_⟩
  · rw [valueOf_digits hle fun d => Nat.digits_lt_base hbase, Nat.ofDigits_digits]
  · -- the first character is the last digit, which is not zero
    have hlast := Nat.getLast_digit_ne_zero base hzero
    have hlt := Nat.digits_lt_base hbase (List.getLast_mem hne)
    rw [List.head?_reverse, List.getLast?_map, List.getLast?_eq_some_getLast hne] at hhead
    exact absurd (Option.some.inj hhead) (digit_ne_zero _ (by omega) hlast)

/-- What `put_uint` writes in a base. It has a value only if `buf` has room for every character. -/
structure PrintsNumbers (base : ℕ) : Prop where
  unsigned : ∀ v : UInt64, ∃ cs, putUint v base false = some cs ∧ Canonical base v.toNat cs
  signed : ∀ z : Int32, ∃ cs, putUint z.toInt64.toUInt64 base true = some cs ∧
    SignedCanonical base z.toInt cs

theorem printsNumbers (hbase : 1 < base) (hle : base ≤ 16) : PrintsNumbers base where
  unsigned v := ⟨_, putUint_unsigned hbase v, canonical_numeral hbase hle _⟩
  signed z := by
    refine ⟨_, putUint_signed_base hbase z, ?_⟩
    rw [SignedCanonical]
    split
    · exact ⟨_, rfl, canonical_numeral hbase hle _⟩
    · exact canonical_numeral hbase hle _

/-- **`put_uint` writes canonical numerals** in decimal and in hexadecimal. -/
theorem putUint_canonical : PrintsNumbers 10 ∧ PrintsNumbers 16 :=
  ⟨printsNumbers (by omega) (by omega), printsNumbers (by omega) (by omega)⟩

/-- The smallest `int` has its sign and all its digits. -/
example : (putUint Int32.minValue.toInt64.toUInt64 10 true) =
    some ("-2147483648".toList.map code) := by decide

end Printf

end Qizo
