import Mathlib.Data.List.Basic
import Mathlib.Tactic.Ring

/-!
# Byte strings

Little-endian numbers in byte strings, and the slice operations of a mutable byte array. Nothing
here knows about a particular format: the file systems, containers and headers of a development
are built on these operations and proved about through the lemmas of this file.

## Total, permissive semantics

A slice that reaches past the end of a string is cut off, and a slice assignment whose replacement
has another length than the replaced part moves what follows. Both are what a growable byte array
does; a fixed-size field is a slice assignment whose lengths agree, and the length lemmas say so
under that hypothesis. The fixed-width accessors `unpackAt` and `packInto` are partial instead:
they answer `none` outside the string, and `packInto` also for a number the field cannot hold.

## Main results

* `leNat_leBytes`, `leBytes_leNat` — the two directions of the little-endian coding
* `getElem?_setSlice_of_lt`, `getElem?_setSlice_of_le`, `getElem?_setSlice_mid` — a slice
  assignment read back
* `hasAt_setSlice`, `HasAt.setSlice` — the same for whole parts: what was assigned is there, and
  what lies elsewhere stays
-/

namespace ByteString

/-! ### Little-endian numbers -/

/-- The number a byte string spells, least significant byte first. -/
def leNat : List UInt8 → ℕ
  | [] => 0
  | b :: bs => b.toNat + 256 * leNat bs

/-- The `n` low bytes of `v`, least significant byte first. -/
def leBytes : ℕ → ℕ → List UInt8
  | 0, _ => []
  | n + 1, v => UInt8.ofNat v :: leBytes n (v / 256)

@[simp] theorem leNat_nil : leNat [] = 0 := rfl

theorem leNat_cons (b : UInt8) (bs : List UInt8) :
    leNat (b :: bs) = b.toNat + 256 * leNat bs := rfl

@[simp] theorem length_leBytes (n v : ℕ) : (leBytes n v).length = n := by
  induction n generalizing v with
  | zero => rfl
  | succ n ih => simp [leBytes, ih]

theorem leNat_lt (bs : List UInt8) : leNat bs < 256 ^ bs.length := by
  induction bs with
  | nil => simp
  | cons b bs ih =>
    have hb : b.toNat < 256 := b.toNat_lt
    rw [leNat_cons, List.length_cons, pow_succ]
    omega

/-- **Reading back a written number.** -/
theorem leNat_leBytes {n v : ℕ} (h : v < 256 ^ n) : leNat (leBytes n v) = v := by
  induction n generalizing v with
  | zero => simp only [pow_zero] at h; simp [leBytes]; omega
  | succ n ih =>
    have hdiv : v / 256 < 256 ^ n := Nat.div_lt_of_lt_mul (by rw [pow_succ] at h; omega)
    rw [leBytes, leNat_cons, ih hdiv, UInt8.toNat_ofNat']
    omega

/-- **Writing back a read number.** -/
theorem leBytes_leNat (bs : List UInt8) : leBytes bs.length (leNat bs) = bs := by
  induction bs with
  | nil => rfl
  | cons b bs ih =>
    have hb : b.toNat < 256 := b.toNat_lt
    have hdiv : leNat (b :: bs) / 256 = leNat bs := by rw [leNat_cons]; omega
    have hhead : UInt8.ofNat (leNat (b :: bs)) = b := by
      apply UInt8.toNat_inj.mp
      rw [UInt8.toNat_ofNat', leNat_cons]
      omega
    rw [List.length_cons, leBytes, hdiv, hhead, ih]

theorem leBytes_inj {n v w : ℕ} (hv : v < 256 ^ n) (hw : w < 256 ^ n)
    (h : leBytes n v = leBytes n w) : v = w := by
  rw [← leNat_leBytes hv, ← leNat_leBytes hw, h]

theorem leNat_append (as bs : List UInt8) :
    leNat (as ++ bs) = leNat as + 256 ^ as.length * leNat bs := by
  induction as with
  | nil => simp
  | cons a as ih =>
    rw [List.cons_append, leNat_cons, ih, leNat_cons, List.length_cons, pow_succ]
    ring

/-! ### Slices -/

/-- The slice `l[a:b]`, cut off at the end of the string. -/
def slice (l : List UInt8) (a b : ℕ) : List UInt8 := (l.take b).drop a

theorem length_slice {l : List UInt8} {a b : ℕ} (h : b ≤ l.length) :
    (slice l a b).length = b - a := by
  simp [slice, Nat.min_eq_left h]

theorem getElem?_slice {l : List UInt8} {a b i : ℕ} (h : a + i < b) :
    (slice l a b)[i]? = l[a + i]? := by
  rw [slice, List.getElem?_drop, List.getElem?_take_of_lt h]

theorem slice_append_slice {l : List UInt8} {a b c : ℕ} (hab : a ≤ b) (hbc : b ≤ c) :
    slice l a b ++ slice l b c = slice l a c := by
  have hsum : c - a = (b - a) + (c - b) := by omega
  rw [slice, slice, slice, List.drop_take, List.drop_take, List.drop_take, hsum, List.take_add,
    List.drop_drop, Nat.add_sub_cancel' hab]

theorem take_slice {l : List UInt8} {a b n : ℕ} (h : a + n ≤ b) :
    (slice l a b).take n = slice l a (a + n) := by
  rw [slice, slice, List.take_drop, List.take_take, Nat.min_eq_left h]

/-- The assignment `l[a:b] = d`. -/
def setSlice (l : List UInt8) (a b : ℕ) (d : List UInt8) : List UInt8 :=
  l.take a ++ d ++ l.drop (max a b)

theorem length_setSlice {l d : List UInt8} {a b : ℕ} (hab : a ≤ b) (hb : b ≤ l.length)
    (hd : d.length = b - a) : (setSlice l a b d).length = l.length := by
  simp only [setSlice, List.length_append, List.length_take, List.length_drop]
  omega

theorem getElem?_setSlice_of_lt {l d : List UInt8} {a b i : ℕ} (hi : i < a)
    (ha : a ≤ l.length) : (setSlice l a b d)[i]? = l[i]? := by
  rw [setSlice, List.append_assoc, List.getElem?_append_left (by simp; omega),
    List.getElem?_take_of_lt hi]

theorem getElem?_setSlice_mid {l d : List UInt8} {a b i : ℕ} (hi : i < d.length)
    (ha : a ≤ l.length) : (setSlice l a b d)[a + i]? = d[i]? := by
  have hlen : (l.take a).length = a := by simp; omega
  rw [setSlice, List.append_assoc, List.getElem?_append_right (by omega), hlen,
    Nat.add_sub_cancel_left, List.getElem?_append_left hi]

theorem getElem?_setSlice_of_le {l d : List UInt8} {a b i : ℕ} (hab : a ≤ b)
    (hb : b ≤ l.length) (hd : d.length = b - a) (hi : b ≤ i) :
    (setSlice l a b d)[i]? = l[i]? := by
  have hlen : (l.take a ++ d).length = b := by simp; omega
  rw [setSlice, List.getElem?_append_right (by omega), hlen, List.getElem?_drop,
    Nat.max_eq_right hab, Nat.add_sub_cancel' hi]

theorem setSlice_nil (l : List UInt8) (a : ℕ) : setSlice l a (a + 0) [] = l := by
  rw [setSlice, List.append_nil, Nat.add_zero, Nat.max_self, List.take_append_drop]

/-! ### Parts of a string -/

/-- The string `l` has the part `d` at offset `a`. -/
def HasAt (l : List UInt8) (a : ℕ) (d : List UInt8) : Prop := ∀ i < d.length, l[a + i]? = d[i]?

section HasAt

variable {l d d' : List UInt8} {a a' b b' : ℕ}

theorem HasAt.le_length (h : HasAt l a d) (hd : d ≠ []) : a + d.length ≤ l.length := by
  have hpos : 0 < d.length := List.length_pos_iff.mpr hd
  have hlast := h (d.length - 1) (by omega)
  rw [List.getElem?_eq_getElem (by omega : d.length - 1 < d.length)] at hlast
  have := (List.getElem?_eq_some_iff.mp hlast).1
  omega

theorem HasAt.slice_eq (h : HasAt l a d) : slice l a (a + d.length) = d := by
  apply List.ext_getElem?
  intro i
  by_cases hi : i < d.length
  · rw [getElem?_slice (by omega), h i hi]
  · rw [List.getElem?_eq_none (by omega : d.length ≤ i), List.getElem?_eq_none]
    simp only [slice, List.length_drop, List.length_take]
    omega

theorem hasAt_of_slice_eq (h : slice l a b = d) (hb : a + d.length ≤ b) : HasAt l a d := by
  intro i hi
  rw [← h, getElem?_slice (Nat.lt_of_lt_of_le (Nat.add_lt_add_left hi a) hb)]

/-- A part of a part. -/
theorem HasAt.sub (h : HasAt l a d) (i j : ℕ) : HasAt l (a + i) (slice d i j) := by
  intro t ht
  have ht' : i + t < j ∧ i + t < d.length := by
    simp only [slice, List.length_drop, List.length_take] at ht
    omega
  rw [getElem?_slice ht'.1, Nat.add_assoc, h (i + t) ht'.2]

theorem HasAt.left (h : HasAt l a (d ++ d')) : HasAt l a d := by
  intro i hi
  rw [h i (by rw [List.length_append]; omega), List.getElem?_append_left hi]

theorem HasAt.right (h : HasAt l a (d ++ d')) : HasAt l (a + d.length) d' := by
  intro i hi
  rw [Nat.add_assoc, h (d.length + i) (by rw [List.length_append]; omega),
    List.getElem?_append_right (Nat.le_add_right _ _), Nat.add_sub_cancel_left]

theorem hasAt_self (l : List UInt8) : HasAt l 0 l := fun i _ => by rw [Nat.zero_add]

/-- What was assigned is there. -/
theorem hasAt_setSlice (ha : a ≤ l.length) : HasAt (setSlice l a b d) a d :=
  fun _ hi => getElem?_setSlice_mid hi ha

/-- What lies elsewhere stays. -/
theorem HasAt.setSlice (h : HasAt l a d) (hab : a' ≤ b') (hb : b' ≤ l.length)
    (hd : d'.length = b' - a') (hdis : a + d.length ≤ a' ∨ b' ≤ a) :
    HasAt (setSlice l a' b' d') a d := by
  intro i hi
  rw [← h i hi]
  rcases hdis with hdis | hdis
  · exact getElem?_setSlice_of_lt (by omega) (by omega)
  · exact getElem?_setSlice_of_le hab hb hd (by omega)

theorem HasAt.lt_length {i : ℕ} (h : HasAt l a d) (hi : i < d.length) : a + i < l.length := by
  have := h i hi
  rw [List.getElem?_eq_getElem hi] at this
  exact (List.getElem?_eq_some_iff.mp this).1

/-- What lies in front stays, also where the array is lengthened. -/
theorem HasAt.setSlice_behind (h : HasAt l a d) (hle : a + d.length ≤ a') :
    HasAt (ByteString.setSlice l a' b' d') a d := by
  intro i hi
  have hlt := h.lt_length hi
  rw [ByteString.setSlice, List.append_assoc, List.getElem?_append_left (by simp; omega),
    List.getElem?_take_of_lt (by omega), h i hi]

/-- What lies behind a patch stays. -/
theorem HasAt.setSlice_front (h : HasAt l a d) (hle : a' + d'.length ≤ a) :
    HasAt (ByteString.setSlice l a' (a' + d'.length) d') a d := by
  intro i hi
  have hlt := h.lt_length hi
  rw [getElem?_setSlice_of_le (Nat.le_add_right _ _) (by omega) (by omega) (by omega), h i hi]

/-- A number inside a part. -/
theorem HasAt.leNat_slice {k w : ℕ} (h : HasAt l a d) (hw : k + w ≤ d.length) :
    slice l (a + k) (a + k + w) = slice d k (k + w) := by
  have := (h.sub k (k + w)).slice_eq
  rwa [length_slice hw, Nat.add_sub_cancel_left] at this

end HasAt

/-! ### Fixed-width fields -/

/-- The `w`-byte little-endian number at offset `off`, if the string reaches that far. -/
def unpackAt (w : ℕ) (l : List UInt8) (off : ℕ) : Option ℕ :=
  if off + w ≤ l.length then some (leNat (slice l off (off + w))) else none

/-- Overwrite `w` bytes at offset `off` with `v`, if the field is inside the string and can hold
`v`. -/
def packInto (w : ℕ) (l : List UInt8) (off v : ℕ) : Option (List UInt8) :=
  if v < 256 ^ w ∧ off + w ≤ l.length then some (setSlice l off (off + w) (leBytes w v)) else none

end ByteString
