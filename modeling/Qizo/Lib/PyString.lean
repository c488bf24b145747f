import Mathlib.Data.List.DropRight
import Qizo.Lib.Python
import Qizo.Lib.UpperCase

/-!
# Python strings

A string is the list of its characters. Encoding and decoding are strict UTF-8; stripping,
padding, splitting and the upper case follow the methods of `str`.

A `str` may also have a lone surrogate in it, which is what Python makes of an argument byte that is
no UTF-8. Such a string is a list of `CodePoint`, and `encodeStr` is its encoding, which fails; a
list of characters is a string whose encoding does not.
-/

namespace Python

/-- `s.encode()` for a string without a surrogate. -/
def encode (s : List Char) : List UInt8 := s.flatMap String.utf8EncodeChar

/-- `s.upper()`. -/
def upper (s : List Char) : List Char := s.flatMap upperChar

/-- `s.rsplit(c, 1)`, if the separator occurs: what stands before and after its last
occurrence. -/
def rsplit (c : Char) : List Char → Option (List Char × List Char)
  | [] => none
  | x :: xs =>
    match rsplit c xs with
    | some (a, b) => some (x :: a, b)
    | none => if x = c then some ([], xs) else none

/-- `str(n)`. -/
def decimal (n : ℕ) : List Char := Nat.toDigits 10 n

/-! ### Surrogates -/

/-- An element of a `str`. -/
inductive CodePoint where
  /-- A Unicode scalar value. -/
  | char (c : Char)
  /-- The surrogate `0xD800 + n`. -/
  | surrogate (n : Fin 2048)
  deriving DecidableEq

/-- No element is a surrogate. -/
def IsScalar (s : List CodePoint) : Prop := ∀ n, .surrogate n ∉ s

/-- `s.encode()`: a surrogate has no UTF-8. -/
def encodeStr : List CodePoint → Except PyError (List UInt8)
  | [] => .ok []
  | .char c :: s => (encodeStr s).map (String.utf8EncodeChar c ++ ·)
  | .surrogate _ :: _ => .error .unicodeEncode

theorem encodeStr_map_char (s : List Char) : encodeStr (s.map .char) = .ok (encode s) := by
  induction s with
  | nil => rfl
  | cons c s ih =>
    rw [List.map_cons, encodeStr, ih]
    rfl

theorem IsScalar.exists_eq_map {s : List CodePoint} (h : IsScalar s) :
    ∃ t : List Char, s = t.map .char := by
  induction s with
  | nil => exact ⟨[], rfl⟩
  | cons x s ih =>
    obtain ⟨t, rfl⟩ := ih fun n hn => h n (List.mem_cons_of_mem _ hn)
    cases x with
    | char c => exact ⟨c :: t, rfl⟩
    | surrogate n => exact absurd List.mem_cons_self (h n)

/-- A surrogate anywhere is an error. -/
theorem encodeStr_of_not_isScalar {s : List CodePoint} (h : ¬ IsScalar s) :
    encodeStr s = .error .unicodeEncode := by
  induction s with
  | nil => exact absurd (fun _ => List.not_mem_nil) h
  | cons x s ih =>
    cases x with
    | char c =>
      have hs : ¬ IsScalar s := fun hs => h fun n hn => by
        rcases List.mem_cons.mp hn with hn | hn
        · cases hn
        · exact hs n hn
      rw [encodeStr, ih hs]
      rfl
    | surrogate n => rfl

/-! ### Stripping -/

/-- Cut the characters of a class off both ends. -/
def stripBy (p : Char → Bool) (s : List Char) : List Char := (s.dropWhile p).rdropWhile p

/-- `c.isspace()`. -/
def isSpace (c : Char) : Bool :=
  let n := c.toNat
  decide (0x09 ≤ n ∧ n ≤ 0x0D ∨ 0x1C ≤ n ∧ n ≤ 0x20 ∨ n = 0x85 ∨ n = 0xA0 ∨ n = 0x1680 ∨
    0x2000 ≤ n ∧ n ≤ 0x200A ∨ n = 0x2028 ∨ n = 0x2029 ∨ n = 0x202F ∨ n = 0x205F ∨ n = 0x3000)

/-- `s.strip()`. -/
def strip (s : List Char) : List Char := stripBy isSpace s

/-! ### Decoding -/

/-- The six payload bits of a continuation byte. -/
def continuation (b : UInt8) : Option ℕ :=
  if 0x80 ≤ b ∧ b < 0xC0 then some (b.toNat - 0x80) else none

/-- A code point that is not a surrogate and at least `least`, so that its coding was not
overlong. -/
def scalar (least v : ℕ) : Option Char :=
  if least ≤ v ∧ v.isValidChar then some (Char.ofNat v) else none

/-- `b.decode()`, with `none` for `UnicodeDecodeError`. -/
def decode : List UInt8 → Option (List Char)
  | [] => some []
  | b :: bs =>
    if b < 0x80 then (decode bs).map (Char.ofNat b.toNat :: ·)
    else
      match bs with
      | c :: bs =>
        if 0xC0 ≤ b ∧ b < 0xE0 then do
          let x ← continuation c
          let ch ← scalar 0x80 ((b.toNat - 0xC0) * 64 + x)
          (decode bs).map (ch :: ·)
        else
          match bs with
          | d :: bs =>
            if 0xE0 ≤ b ∧ b < 0xF0 then do
              let x ← continuation c
              let y ← continuation d
              let ch ← scalar 0x800 ((b.toNat - 0xE0) * 4096 + x * 64 + y)
              (decode bs).map (ch :: ·)
            else
              match bs with
              | e :: bs =>
                if 0xF0 ≤ b ∧ b < 0xF8 then do
                  let x ← continuation c
                  let y ← continuation d
                  let z ← continuation e
                  let ch ← scalar 0x10000 ((b.toNat - 0xF0) * 262144 + x * 4096 + y * 64 + z)
                  (decode bs).map (ch :: ·)
                else none
              | [] => none
          | [] => none
      | [] => none

/-! ### ASCII -/

/-- Every character is an ASCII one. -/
def IsAscii (s : List Char) : Prop := ∀ c ∈ s, c.toNat < 128

instance (s : List Char) : Decidable (IsAscii s) :=
  List.decidableBAll (fun c : Char => c.toNat < 128) s

theorem utf8EncodeChar_of_ascii {c : Char} (h : c.toNat < 128) :
    String.utf8EncodeChar c = [UInt8.ofNat c.toNat] :=
  if_pos (Nat.le_of_lt_succ h)

/-- An ASCII string has one byte a character. -/
theorem encode_of_isAscii {s : List Char} (h : IsAscii s) :
    encode s = s.map fun c => UInt8.ofNat c.toNat := by
  induction s with
  | nil => rfl
  | cons c s ih =>
    rw [encode, List.flatMap_cons, utf8EncodeChar_of_ascii (h c (by simp))]
    exact congrArg _ (ih fun x hx => h x (List.mem_cons_of_mem _ hx))

/-- An ASCII string keeps its length in upper case. -/
theorem upper_of_isAscii {s : List Char} (h : IsAscii s) : upper s = s.map Char.toUpper := by
  induction s with
  | nil => rfl
  | cons c s ih =>
    have hc : upperChar c = [c.toUpper] := if_pos (h c List.mem_cons_self)
    rw [upper, List.flatMap_cons, hc]
    exact congrArg _ (ih fun x hx => h x (List.mem_cons_of_mem _ hx))

theorem length_encode {s : List Char} (h : IsAscii s) : (encode s).length = s.length := by
  rw [encode_of_isAscii h, List.length_map]

theorem decode_cons_of_lt {b : UInt8} {bs : List UInt8} (h : b < 0x80) :
    decode (b :: bs) = (decode bs).map (Char.ofNat b.toNat :: ·) := by
  rw [decode.eq_def]
  exact if_pos h

/-- **Round trip of an ASCII string.** -/
theorem decode_encode {s : List Char} (h : IsAscii s) : decode (encode s) = some s := by
  rw [encode_of_isAscii h]
  induction s with
  | nil => rfl
  | cons c s ih =>
    have hc : c.toNat < 128 := h c (by simp)
    have hlt : UInt8.ofNat c.toNat < 0x80 := by
      rw [UInt8.lt_iff_toNat_lt, UInt8.toNat_ofNat', Nat.mod_eq_of_lt (by omega)]
      exact hc
    have hch : Char.ofNat (UInt8.ofNat c.toNat).toNat = c := by
      rw [UInt8.toNat_ofNat', Nat.mod_eq_of_lt (by omega), Char.ofNat_toNat]
    rw [List.map_cons, decode_cons_of_lt hlt, ih fun x hx => h x (List.mem_cons_of_mem _ hx), hch]
    rfl

/-- A padded string strips back to itself. -/
theorem strip_rightpad {s : List Char} {n : ℕ} (hhead : ∀ c ∈ s.head?, isSpace c = false)
    (hlast : ∀ c ∈ s.getLast?, isSpace c = false) : strip (s.rightpad n ' ') = s := by
  have hspaces (k : ℕ) : ∀ c ∈ List.replicate k ' ', isSpace c = true := by
    intro c hc
    rw [List.eq_of_mem_replicate hc]
    decide
  cases s with
  | nil =>
    rw [strip, stripBy, List.rightpad, List.nil_append, List.dropWhile_eq_nil_iff.mpr (hspaces _)]
    rfl
  | cons c s =>
    have hc : isSpace c = false := hhead c (by simp)
    have hrev : (c :: s).reverse.dropWhile isSpace = (c :: s).reverse := by
      rw [List.dropWhile_eq_self_iff]
      intro hlen
      rw [Bool.not_eq_true]
      refine hlast _ ?_
      rw [← List.head?_reverse, List.getElem_zero, List.head?_eq_some_head, Option.mem_some_iff]
    rw [strip, stripBy, List.rightpad, List.cons_append, List.dropWhile_cons_of_neg (by simp [hc]),
      ← List.cons_append, List.rdropWhile, List.reverse_append, List.reverse_replicate,
      List.dropWhile_append_of_pos (hspaces _), hrev, List.reverse_reverse]

end Python
