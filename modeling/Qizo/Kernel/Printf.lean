import Qizo.Kernel.Console
import Mathlib.Algebra.Order.BigOperators.Group.List
import Mathlib.Data.Nat.Digits.Lemmas

/-!
# Formatted output

`put_uint` and `qizo_printf` of `kernel/console.c`. A run reads its format, the bytes before the
terminator, and takes arguments from the slots of the variable argument list, one slot of 64 bits
for each `__builtin_va_arg`; a 32-bit argument is the low half of its slot. It produces the calls
of `qizo_console_write` it makes. A read behind the terminator of the format, or a digit that has
no room in `buf`, is an error here (`none`).

The format language the kernel's own calls use is given by `Directive`, with the text the C
standard prescribes for each conversion. `qizo_printf` knows part of it.

## Main results

* `putUint_unsigned`, `putUint_signed` — the digits of a number, most significant first, with room
  to spare
* `Directive.exists_printfLoop` — what is made of one directive
* `conforms_iff` — the formats for which the output is the prescribed one
-/

namespace Qizo

namespace Printf

open Console

/-- The code of an ASCII character. -/
def code (c : Char) : UInt8 := .ofNat c.toNat

/-! ### Numbers -/

/-- `digits[d]`. -/
def digit (d : ℕ) : UInt8 :=
  (['0', '1', '2', '3', '4', '5', '6', '7', '8', '9', 'a', 'b', 'c', 'd', 'e', 'f'].map
    code).getD d 0

/-- The loop of `put_uint`, with `room` characters left in `buf`. -/
def digitLoop (base : ℕ) : (room value : ℕ) → (buf : List UInt8) → Option (List UInt8)
  | 0, value, buf => if value = 0 then some buf else none
  | room + 1, value, buf =>
    if value = 0 then some buf
    else digitLoop base room (value / base) (buf ++ [digit (value % base)])

/-- `put_uint`: the characters it puts. -/
def putUint (value : UInt64) (base : ℕ) (signedVal : Bool) : Option (List UInt8) := do
  let neg := signedVal && value.toInt64 < 0
  let value := if neg then -value else value
  let buf := if value = 0 then [code '0'] else []
  let buf ← digitLoop base (68 - buf.length) value.toNat buf
  let buf ← if neg then if buf.length < 68 then some (buf ++ [code '-']) else none else some buf
  some buf.reverse

/-! ### The format loop -/

/-- The calls of the console so far, and the number of slots taken. -/
abbrev Run := Option (List (List UInt8) × ℕ)

/-- Characters put one by one. -/
def putcs (cs : List UInt8) : List (List UInt8) := cs.map ([·])

/-- Calls made before the rest of the run. -/
def emit (out : Option (List (List UInt8))) (rest : Run) : Run := do
  let o ← out
  let (os, k) ← rest
  some (o ++ os, k)

/-- The loop of `qizo_printf` from a place in the format, with `k` slots taken. `str` gives the
string at an address. -/
def printfLoop (str : UInt64 → List UInt8) (args : ℕ → UInt64) : (fmt : List UInt8) → ℕ → Run
  | [], k => some ([], k)
  | c :: fmt, k =>
    if c ≠ code '%' then emit (some [[c]]) (printfLoop str args fmt k)
    else match fmt with
    | [] => none
    | c :: fmt =>
      if c = code 'c' then emit (some [[(args k).toUInt8]]) (printfLoop str args fmt (k + 1))
      else if c = code 'd' ∨ c = code 'i' then
        emit ((putUint (args k).toUInt32.toInt32.toInt64.toUInt64 10 true).map putcs)
          (printfLoop str args fmt (k + 1))
      else if c = code 'l' then
        match fmt with
        | [] => none
        | c :: fmt =>
          if c = code 'l' then
            emit ((putUint (args k) 10 false).map putcs) (printfLoop str args fmt (k + 1))
          else if c = code 'x' then
            emit ((putUint (args k) 16 false).map putcs) (printfLoop str args fmt (k + 1))
          else emit (some (putcs [code '%', code 'l', c])) (printfLoop str args fmt k)
      else if c = code 'u' then
        emit ((putUint (args k).toUInt32.toUInt64 10 false).map putcs)
          (printfLoop str args fmt (k + 1))
      else if c = code 'x' then
        emit ((putUint (args k).toUInt32.toUInt64 16 false).map putcs)
          (printfLoop str args fmt (k + 1))
      else if c = code 'p' then
        emit ((putUint (args k) 16 false).map putcs) (printfLoop str args fmt (k + 1))
      else if c = code 's' then
        emit (some [if args k ≠ 0 then str (args k) else "(null)".toList.map code])
          (printfLoop str args fmt (k + 1))
      else if c = code '%' then emit (some [[code '%']]) (printfLoop str args fmt k)
      else emit (some (putcs [code '%', c])) (printfLoop str args fmt k)

/-- `qizo_printf`. -/
def qizoPrintf (str : UInt64 → List UInt8) (args : ℕ → UInt64) (fmt : List UInt8) : Run :=
  printfLoop str args fmt 0

/-! ### The format language -/

/-- A number in a base, most significant digit first. -/
def numeral (base n : ℕ) : List UInt8 :=
  if n = 0 then [code '0'] else ((Nat.digits base n).map digit).reverse

/-- An integer in decimal. -/
def intNumeral (v : ℤ) : List UInt8 :=
  if v < 0 then code '-' :: numeral 10 v.natAbs else numeral 10 v.natAbs

/-- What the formats of the kernel are made of: ordinary characters and conversions. -/
inductive Directive where
  /-- An ordinary character. -/
  | plain (ch : UInt8) (h : ch ≠ code '%' ∧ ch ≠ 0)
  /-- `%%`. -/
  | percent
  /-- `%c`. -/
  | c
  /-- `%d`. -/
  | d
  /-- `%i`. -/
  | i
  /-- `%u`. -/
  | u
  /-- `%x`. -/
  | x
  /-- `%p`. -/
  | p
  /-- `%s`. -/
  | s
  /-- `%lu`. -/
  | lu
  /-- `%lx`. -/
  | lx
  /-- `%llu`. -/
  | llu
  /-- `%-Ns`. -/
  | leftS (n : ℕ) (h : 0 < n)
  /-- `%Nu`. -/
  | wideU (n : ℕ) (h : 0 < n)
  /-- `%0Nu`. -/
  | zeroU (n : ℕ) (h : 0 < n)
  /-- `%0Nx`. -/
  | zeroX (n : ℕ) (h : 0 < n)

namespace Directive

/-- How a directive is written. -/
def text : Directive → List UInt8
  | plain ch _ => [ch]
  | percent => [code '%', code '%']
  | c => [code '%', code 'c']
  | d => [code '%', code 'd']
  | i => [code '%', code 'i']
  | u => [code '%', code 'u']
  | x => [code '%', code 'x']
  | p => [code '%', code 'p']
  | s => [code '%', code 's']
  | lu => [code '%', code 'l', code 'u']
  | lx => [code '%', code 'l', code 'x']
  | llu => [code '%', code 'l', code 'l', code 'u']
  | leftS n _ => code '%' :: code '-' :: numeral 10 n ++ [code 's']
  | wideU n _ => code '%' :: numeral 10 n ++ [code 'u']
  | zeroU n _ => code '%' :: code '0' :: numeral 10 n ++ [code 'u']
  | zeroX n _ => code '%' :: code '0' :: numeral 10 n ++ [code 'x']

/-- The number of arguments a directive takes. -/
def takes : Directive → ℕ
  | plain _ _ | percent => 0
  | _ => 1

/-- The string an argument of `%s` points to. The standard leaves the null pointer undefined; the
text is the customary one. -/
def string (str : UInt64 → List UInt8) (w : UInt64) : List UInt8 :=
  if w = 0 then "(null)".toList.map code else str w

/-- The characters the C standard prescribes for a directive with the argument in slot `w`, where
`%p` is in hexadecimal without a prefix. -/
def prints (str : UInt64 → List UInt8) (w : UInt64) : Directive → List UInt8
  | plain ch _ => [ch]
  | percent => [code '%']
  | c => [w.toUInt8]
  | d | i => intNumeral w.toUInt32.toInt32.toInt
  | u => numeral 10 w.toUInt32.toNat
  | x => numeral 16 w.toUInt32.toNat
  | p | lx => numeral 16 w.toNat
  | lu | llu => numeral 10 w.toNat
  | s => string str w
  | leftS n _ => (string str w).rightpad n (code ' ')
  | wideU n _ => (numeral 10 w.toUInt32.toNat).leftpad n (code ' ')
  | zeroU n _ => (numeral 10 w.toUInt32.toNat).leftpad n (code '0')
  | zeroX n _ => (numeral 16 w.toUInt32.toNat).leftpad n (code '0')

/-- The conversions `qizo_printf` has a case for. -/
def supported : Directive → Bool
  | lu | llu | leftS _ _ | wideU _ _ | zeroU _ _ | zeroX _ _ => false
  | _ => true

end Directive

/-- The format made of directives. -/
def format (ds : List Directive) : List UInt8 := ds.flatMap Directive.text

/-- The number of arguments a format takes. -/
def takes (ds : List Directive) : ℕ := (ds.map Directive.takes).sum

/-- The output the C standard prescribes, each conversion taking the next argument. -/
def prints (str : UInt64 → List UInt8) (args : ℕ → UInt64) : List Directive → (k : ℕ) → List UInt8
  | [], _ => []
  | e :: es, k => e.prints str (args k) ++ prints str args es (k + e.takes)

/-- `qizo_printf` writes what the standard prescribes and takes as many arguments. -/
def Conforms (str : UInt64 → List UInt8) (args : ℕ → UInt64) (ds : List Directive) : Prop :=
  (qizoPrintf str args (format ds)).map (fun r => (r.1.flatten, r.2)) =
    some (prints str args ds 0, takes ds)

/-! ### Digits -/

theorem digitLoop_eq {base : ℕ} (hbase : 1 < base) (room value : ℕ) (buf : List UInt8)
    (h : value < base ^ room) :
    digitLoop base room value buf = some (buf ++ (Nat.digits base value).map digit) := by
  induction room generalizing value buf with
  | zero =>
    have hzero : value = 0 := by simpa using h
    rw [digitLoop, if_pos hzero, hzero, Nat.digits_zero, List.map_nil, List.append_nil]
  | succ room ih =>
    rw [digitLoop]
    by_cases hzero : value = 0
    · rw [if_pos hzero, hzero, Nat.digits_zero, List.map_nil, List.append_nil]
    · have hdiv : value / base < base ^ room :=
        Nat.div_lt_of_lt_mul (by rwa [Nat.mul_comm, ← pow_succ])
      rw [if_neg hzero, ih _ _ hdiv, Nat.digits_def' hbase (Nat.pos_of_ne_zero hzero),
        List.map_cons, List.append_assoc, List.singleton_append]

/-- At most 64 digits are needed, so that a sign finds room as well. -/
theorem length_numeral_le {base : ℕ} (hbase : 1 < base) (v : UInt64) :
    (numeral base v.toNat).length ≤ 64 := by
  unfold numeral
  split
  · simp
  · rw [List.length_reverse, List.length_map, Nat.digits_length_le_iff hbase]
    calc v.toNat < 2 ^ 64 := v.toNat_lt
      _ ≤ base ^ 64 := Nat.pow_le_pow_left hbase 64

theorem digitLoop_numeral {base : ℕ} (hbase : 1 < base) (v : UInt64) :
    digitLoop base (68 - (if v = 0 then [code '0'] else []).length) v.toNat
      (if v = 0 then [code '0'] else []) = some (numeral base v.toNat).reverse := by
  have hlt : ∀ room, 64 ≤ room → v.toNat < base ^ room := by
    intro room hroom
    calc v.toNat < 2 ^ 64 := v.toNat_lt
      _ ≤ base ^ 64 := Nat.pow_le_pow_left hbase 64
      _ ≤ base ^ room := Nat.pow_le_pow_right (by omega) hroom
  by_cases hv : v = 0
  · subst hv
    rw [if_pos rfl, digitLoop_eq hbase _ _ _ (hlt _ (by simp))]
    simp [numeral]
  · have hne : v.toNat ≠ 0 := fun h => hv (UInt64.toNat_inj.mp h)
    rw [if_neg hv, digitLoop_eq hbase _ _ _ (hlt _ (by simp)), numeral, if_neg hne]
    simp

/-- **`put_uint` on an unsigned number.** -/
theorem putUint_unsigned {base : ℕ} (hbase : 1 < base) (v : UInt64) :
    putUint v base false = some (numeral base v.toNat) := by
  simp only [putUint, Bool.false_and, Bool.false_eq_true, if_false, digitLoop_numeral hbase,
    Option.bind_eq_bind, Option.bind_some, List.reverse_reverse]

/-- A negative number in two's complement. -/
theorem toNat_toUInt64_toInt64 (v : Int32) :
    (v.toInt64.toUInt64.toNat : ℤ) = if v.toInt < 0 then v.toInt + 2 ^ 64 else v.toInt := by
  have hlt := v.toInt_lt
  have hle := v.le_toInt
  have hnat := v.toInt64.toUInt64.toNat_lt
  have hmod : v.toInt = (v.toInt64.toUInt64.toNat : ℤ).bmod (2 ^ 64) := by
    rw [← v.toInt_toInt64]
    exact BitVec.toInt_eq_toNat_bmod _
  rw [Int.bmod_def] at hmod
  split <;> omega

/-- **`put_uint` on a signed number.** -/
theorem putUint_signed_base {base : ℕ} (hbase : 1 < base) (v : Int32) :
    putUint v.toInt64.toUInt64 base true =
      some (if v.toInt < 0 then code '-' :: numeral base v.toInt.natAbs
        else numeral base v.toInt.natAbs) := by
  have hint : v.toInt64.toUInt64.toInt64.toInt = v.toInt := by simp
  have hneg : decide (v.toInt64.toUInt64.toInt64 < 0) = decide (v.toInt < 0) := by
    rw [decide_eq_decide, Int64.lt_iff_toInt_lt, hint, Int64.toInt_zero]
  have hnat := toNat_toUInt64_toInt64 v
  have hle := v.le_toInt
  unfold putUint
  rw [Bool.true_and, hneg]
  by_cases hv : v.toInt < 0
  · have habs : (-v.toInt64.toUInt64).toNat = v.toInt.natAbs := by
      rw [UInt64.toNat_neg, UInt64.size]
      rw [if_pos hv] at hnat
      omega
    have hlen := length_numeral_le hbase (-v.toInt64.toUInt64)
    simp only [hv, decide_true, if_true, digitLoop_numeral hbase,
      Option.bind_eq_bind, Option.bind_some, List.length_reverse]
    rw [if_pos (by omega)]
    simp only [List.reverse_append, List.reverse_reverse, List.reverse_singleton,
      List.singleton_append, habs]
  · have habs : v.toInt64.toUInt64.toNat = v.toInt.natAbs := by
      rw [if_neg hv] at hnat
      omega
    simp only [hv, decide_false, Bool.false_eq_true, if_false, digitLoop_numeral hbase,
      Option.bind_eq_bind, Option.bind_some, List.reverse_reverse]
    rw [habs]

theorem putUint_signed (v : Int32) :
    putUint v.toInt64.toUInt64 10 true = some (intNumeral v.toInt) :=
  putUint_signed_base (by omega) v

/-! ### One directive -/

variable {str : UInt64 → List UInt8} {args : ℕ → UInt64}

theorem emit_some (out : List (List UInt8)) (os : List (List UInt8)) (k : ℕ) :
    emit (some out) (some (os, k)) = some (out ++ os, k) := rfl

theorem emit_emit (out out' : List (List UInt8)) (r : Run) :
    emit (some out) (emit (some out') r) = emit (some (out ++ out')) r := by
  cases r with
  | none => rfl
  | some r => simp [emit]

@[simp] theorem flatten_putcs (cs : List UInt8) : (putcs cs).flatten = cs := by
  induction cs with
  | nil => rfl
  | cons c cs ih => simpa [putcs] using ih

theorem printfLoop_cons {c : UInt8} (fmt : List UInt8) (k : ℕ) (h : c ≠ code '%') :
    printfLoop str args (c :: fmt) k = emit (some [[c]]) (printfLoop str args fmt k) := by
  rw [printfLoop.eq_def]
  exact if_pos h

/-- Ordinary characters are written as they are. -/
theorem printfLoop_plain (cs fmt : List UInt8) (k : ℕ) (h : code '%' ∉ cs) :
    printfLoop str args (cs ++ fmt) k = emit (some (putcs cs)) (printfLoop str args fmt k) := by
  induction cs with
  | nil => cases hr : printfLoop str args fmt k <;> simp [hr, emit, putcs]
  | cons c cs ih =>
    rw [List.mem_cons, not_or] at h
    rw [List.cons_append, printfLoop_cons _ _ (Ne.symm h.1), ih h.2, emit_emit]
    rfl

/-- A character that has no case is written after the percent sign. -/
theorem printfLoop_other {c : UInt8} (fmt : List UInt8) (k : ℕ)
    (h : c ∉ ['c', 'd', 'i', 'l', 'u', 'x', 'p', 's', '%'].map code) :
    printfLoop str args (code '%' :: c :: fmt) k =
      emit (some (putcs [code '%', c])) (printfLoop str args fmt k) := by
  simp only [List.map_cons, List.map_nil, List.mem_cons, List.not_mem_nil, not_or, or_false] at h
  obtain ⟨hc, hd, hi, hl, hu, hx, hp, hs, hpct⟩ := h
  rw [printfLoop.eq_def]
  simp only [ne_eq, not_true_eq_false, hc, hd, hi, hl, hu, hx, hp, hs, hpct, or_self, if_false]

theorem numeral_range (n : ℕ) : ∀ c ∈ numeral 10 n, 48 ≤ c ∧ c ≤ 57 := by
  have hdigit : ∀ d < 10, 48 ≤ digit d ∧ digit d ≤ 57 := by decide
  intro c hc
  unfold numeral at hc
  split at hc
  · rw [List.mem_singleton.mp hc]
    decide
  · rw [List.mem_reverse, List.mem_map] at hc
    obtain ⟨d, hd, rfl⟩ := hc
    exact hdigit d (Nat.digits_lt_base (by omega) hd)

/-- What `qizo_printf` writes for a directive: a form without a case of its own is copied, and
`%llu` is followed by its last letter. -/
def Directive.writes (str : UInt64 → List UInt8) (w : UInt64) : Directive → List UInt8
  | .llu => numeral 10 w.toNat ++ [code 'u']
  | .lu => Directive.lu.text
  | .leftS n h => (Directive.leftS n h).text
  | .wideU n h => (Directive.wideU n h).text
  | .zeroU n h => (Directive.zeroU n h).text
  | .zeroX n h => (Directive.zeroX n h).text
  | e => e.prints str w

/-- The number of arguments `qizo_printf` takes for a directive. -/
def Directive.eats : Directive → ℕ
  | .lu | .leftS _ _ | .wideU _ _ | .zeroU _ _ | .zeroX _ _ => 0
  | e => e.takes

/-- A directive whose first letter has no case is copied character by character. -/
theorem printfLoop_copied {a : UInt8} {cs : List UInt8} (fmt : List UInt8) (k : ℕ)
    (ha : a ∉ ['c', 'd', 'i', 'l', 'u', 'x', 'p', 's', '%'].map code) (hcs : code '%' ∉ cs) :
    printfLoop str args ((code '%' :: a :: cs) ++ fmt) k =
      emit (some (putcs (code '%' :: a :: cs))) (printfLoop str args fmt k) := by
  rw [List.cons_append, List.cons_append, printfLoop_other _ _ ha, printfLoop_plain _ _ _ hcs,
    emit_emit]
  rfl

theorem percent_not_mem_width {c : UInt8} (n : ℕ) (hc : c ≠ code '%') :
    code '%' ∉ numeral 10 n ++ [c] := by
  rw [List.mem_append, List.mem_singleton]
  rintro (hm | rfl)
  · exact absurd (numeral_range n _ hm).1 (by decide)
  · exact hc rfl

/-- A width starts with a digit. -/
theorem exists_numeral_eq_cons (n : ℕ) : ∃ a as, numeral 10 n = a :: as ∧
    a ∉ ['c', 'd', 'i', 'l', 'u', 'x', 'p', 's', '%'].map code := by
  have hletters : ∀ a ∈ ['c', 'd', 'i', 'l', 'u', 'x', 'p', 's', '%'].map code,
      ¬(48 ≤ a ∧ a ≤ 57) := by decide +kernel
  have hne : numeral 10 n ≠ [] := by
    unfold numeral
    split
    · simp
    · simpa using Nat.digits_ne_nil_iff_ne_zero.mpr ‹_›
  obtain ⟨a, as, has⟩ := List.exists_cons_of_ne_nil hne
  refine ⟨a, as, has, fun hmem => hletters a hmem (numeral_range n a ?_)⟩
  rw [has]
  exact List.mem_cons_self

/-- **One directive.** -/
theorem Directive.exists_printfLoop (e : Directive) (k : ℕ) :
    ∃ out : List (List UInt8), out.flatten = e.writes str (args k) ∧ ∀ fmt,
      printfLoop str args (e.text ++ fmt) k =
        emit (some out) (printfLoop str args fmt (k + e.eats)) := by
  have hdigits : ∀ (o : Option (List UInt8)) (cs : List UInt8), o = some cs →
      ∃ out : List (List UInt8), out.flatten = cs ∧ o.map putcs = some out := by
    rintro _ cs rfl
    exact ⟨putcs cs, flatten_putcs cs, rfl⟩
  cases e with
  | plain ch h => exact ⟨[[ch]], rfl, fun fmt => printfLoop_cons fmt k h.1⟩
  | percent => exact ⟨[[code '%']], rfl, fun fmt => by rw [printfLoop.eq_def]; rfl⟩
  | c => exact ⟨[[(args k).toUInt8]], rfl, fun fmt => by rw [printfLoop.eq_def]; rfl⟩
  | d =>
    obtain ⟨out, hout, ho⟩ := hdigits _ _ (putUint_signed (args k).toUInt32.toInt32)
    exact ⟨out, hout, fun fmt => by rw [← ho, printfLoop.eq_def]; rfl⟩
  | i =>
    obtain ⟨out, hout, ho⟩ := hdigits _ _ (putUint_signed (args k).toUInt32.toInt32)
    exact ⟨out, hout, fun fmt => by rw [← ho, printfLoop.eq_def]; rfl⟩
  | u =>
    obtain ⟨out, hout, ho⟩ :=
      hdigits _ _ (@putUint_unsigned 10 (by omega) (args k).toUInt32.toUInt64)
    exact ⟨out, hout, fun fmt => by rw [← ho, printfLoop.eq_def]; rfl⟩
  | x =>
    obtain ⟨out, hout, ho⟩ :=
      hdigits _ _ (@putUint_unsigned 16 (by omega) (args k).toUInt32.toUInt64)
    exact ⟨out, hout, fun fmt => by rw [← ho, printfLoop.eq_def]; rfl⟩
  | p =>
    obtain ⟨out, hout, ho⟩ := hdigits _ _ (@putUint_unsigned 16 (by omega) (args k))
    exact ⟨out, hout, fun fmt => by rw [← ho, printfLoop.eq_def]; rfl⟩
  | lx =>
    obtain ⟨out, hout, ho⟩ := hdigits _ _ (@putUint_unsigned 16 (by omega) (args k))
    exact ⟨out, hout, fun fmt => by rw [← ho, printfLoop.eq_def]; rfl⟩
  | s =>
    refine ⟨[if args k ≠ 0 then str (args k) else "(null)".toList.map code], ?_, fun fmt => ?_⟩
    · rw [List.flatten_singleton, ite_not]
      rfl
    · rw [printfLoop.eq_def]
      rfl
  | lu => exact ⟨putcs [code '%', code 'l', code 'u'], rfl, fun fmt => rfl⟩
  | llu =>
    obtain ⟨out, hout, ho⟩ := hdigits _ _ (@putUint_unsigned 10 (by omega) (args k))
    refine ⟨out ++ [[code 'u']], ?_, fun fmt => ?_⟩
    · rw [List.flatten_append, hout]
      rfl
    · rw [← emit_emit, ← ho, ← printfLoop_cons _ _ (by decide), printfLoop.eq_def]
      rfl
  | leftS n h =>
    refine ⟨_, flatten_putcs _, fun fmt => ?_⟩
    exact printfLoop_copied fmt k (by decide) (percent_not_mem_width n (by decide))
  | zeroU n h =>
    refine ⟨_, flatten_putcs _, fun fmt => ?_⟩
    exact printfLoop_copied fmt k (by decide) (percent_not_mem_width n (by decide))
  | zeroX n h =>
    refine ⟨_, flatten_putcs _, fun fmt => ?_⟩
    exact printfLoop_copied fmt k (by decide) (percent_not_mem_width n (by decide))
  | wideU n h =>
    obtain ⟨a, as, has, ha⟩ := exists_numeral_eq_cons n
    have hmem : code '%' ∉ as ++ [code 'u'] := by
      have := percent_not_mem_width n (c := code 'u') (by decide)
      rw [has, List.cons_append, List.mem_cons, not_or] at this
      exact this.2
    have htext : (wideU n h).text = code '%' :: a :: (as ++ [code 'u']) := by
      rw [text, has]
      rfl
    refine ⟨_, flatten_putcs _, fun fmt => ?_⟩
    rw [writes, htext]
    exact printfLoop_copied fmt k ha hmem

/-! ### Whole formats -/

/-- What `qizo_printf` writes. -/
def writes (str : UInt64 → List UInt8) (args : ℕ → UInt64) : List Directive → (k : ℕ) → List UInt8
  | [], _ => []
  | e :: es, k => e.writes str (args k) ++ writes str args es (k + e.eats)

/-- **A whole format.** -/
theorem exists_printfLoop (es : List Directive) (k : ℕ) :
    ∃ out : List (List UInt8), out.flatten = writes str args es k ∧
      printfLoop str args (format es) k = some (out, k + (es.map Directive.eats).sum) := by
  induction es generalizing k with
  | nil => exact ⟨[], rfl, rfl⟩
  | cons e es ih =>
    obtain ⟨out, hout, hrun⟩ := e.exists_printfLoop k
    obtain ⟨outs, houts, hruns⟩ := ih (k + e.eats)
    refine ⟨out ++ outs, ?_, ?_⟩
    · rw [List.flatten_append, hout, houts, writes]
    · rw [format, List.flatMap_cons, hrun]
      rw [format] at hruns
      rw [hruns, emit_some, List.map_cons, List.sum_cons, Nat.add_assoc]

theorem Directive.eats_le (e : Directive) : e.eats ≤ e.takes := by
  cases e <;> simp [eats, takes]

theorem Directive.eats_of_supported (e : Directive) (h : e.supported = true) :
    e.eats = e.takes := by
  cases e <;> simp_all [eats, takes, supported]

/-- A directive that takes its argument is supported, or `%llu`. -/
theorem Directive.writes_eq (e : Directive) (he : e.eats = e.takes) (w : UInt64) :
    e.writes str w = e.prints str w ++ if e.supported then [] else [code 'u'] := by
  cases e <;> simp_all [writes, prints, supported, eats, takes]

theorem eats_eq_takes {es : List Directive} (h : (es.map Directive.eats).sum = takes es) :
    ∀ e ∈ es, e.eats = e.takes := by
  induction es with
  | nil => simp
  | cons e es ih =>
    have hle : (es.map Directive.eats).sum ≤ takes es := by
      exact List.sum_le_sum fun e _ => e.eats_le
    have he := e.eats_le
    simp only [takes, List.map_cons, List.sum_cons] at h hle
    intro e' he'
    rcases List.mem_cons.mp he' with rfl | he'
    · omega
    · exact ih (by rw [takes]; omega) e' he'

/-- Every `%llu` makes the output one character longer. -/
theorem length_writes (es : List Directive) (k : ℕ) (h : ∀ e ∈ es, e.eats = e.takes) :
    (writes str args es k).length =
      (prints str args es k).length + es.countP fun e => ¬e.supported := by
  induction es generalizing k with
  | nil => rfl
  | cons e es ih =>
    obtain ⟨he, hes⟩ := List.forall_mem_cons.mp h
    rw [writes, prints, List.length_append, List.length_append, ih _ hes, e.writes_eq he, he,
      List.countP_cons, List.length_append]
    cases e.supported <;> simp <;> omega

theorem writes_eq_prints (es : List Directive) (k : ℕ) (h : ∀ e ∈ es, e.supported = true) :
    writes str args es k = prints str args es k := by
  induction es generalizing k with
  | nil => rfl
  | cons e es ih =>
    obtain ⟨he, hes⟩ := List.forall_mem_cons.mp h
    rw [writes, prints, e.writes_eq (e.eats_of_supported he), he, e.eats_of_supported he,
      ih _ hes]
    simp

/-- **The formats `qizo_printf` implements.** Its output is the prescribed one, with every
conversion taking its argument, exactly for the formats without `%lu`, `%llu` and conversions with
a width. -/
theorem conforms_iff (str : UInt64 → List UInt8) (args : ℕ → UInt64) (es : List Directive) :
    Conforms str args es ↔ ∀ e ∈ es, e.supported = true := by
  obtain ⟨out, hout, hrun⟩ := exists_printfLoop es 0
  rw [Conforms, qizoPrintf, hrun, Option.map_some, hout, Option.some.injEq, Prod.mk.injEq,
    Nat.zero_add]
  constructor
  · rintro ⟨hwrites, heats⟩
    have hlen := @length_writes str args es 0 (eats_eq_takes heats)
    have hcount : es.countP (fun e => ¬e.supported) = 0 := by
      rw [hwrites] at hlen
      omega
    simpa [List.countP_eq_zero] using hcount
  · intro h
    refine ⟨writes_eq_prints es 0 h, ?_⟩
    exact congrArg List.sum (List.map_congr_left fun e he => e.eats_of_supported (h e he))

/-- `%lu KiB`, the format of the memory report, is written without its number. -/
theorem not_conforms_lu :
    ¬Conforms (fun _ => []) (fun _ => 640)
      [.lu, .plain (code ' ') (by decide), .plain (code 'K') (by decide),
        .plain (code 'i') (by decide), .plain (code 'B') (by decide)] := by
  unfold Conforms
  decide

end Printf

end Qizo
