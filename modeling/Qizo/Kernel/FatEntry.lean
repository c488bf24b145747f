import Qizo.Image.Builder
import Qizo.Kernel.FatFree

/-!
# Entries of the allocation table

The image builder writes entries with `fat_set`, and the driver reads them with `fat_entry_12` and
`fat_entry_16` and counts the zeros with `count_free`. Two entries of 12 bits share a byte, and an
odd one has the upper half of it.

`readEntry12`, `readEntry16` and `countFreeChecked` are the functions of the driver with every read
confined to the buffer and every sum and product confined to 32 bits: where one of them has a value,
the function stays inside the buffer and does not wrap, and has this value.

## Main results

* `fatEntry12_fatSet12` — what the driver reads after the builder has written
* `countFree_bounded` — the count of free clusters, at every size of the buffer
-/

namespace Qizo

namespace Fat

open Memory Python Image

/-! ### Writing an entry -/

/-- `fat_set(fat, 12, index, value)`, for any integer. -/
def fatSet12 (fat : List UInt8) (index : ℕ) (value : ℤ) : Except PyError (List UInt8) := do
  let off := index * 3 / 2
  if index % 2 = 1 then
    let old ← pyIndex fat off
    let fat ← setIndex fat off
      ((old &&& (0x0F : UInt8)) ||| UInt8.ofNat ((value % 16).toNat <<< 4))
    setIndex fat (off + 1) (UInt8.ofNat (value / 16 % 256).toNat)
  else
    let fat ← setIndex fat off (UInt8.ofNat (value % 256).toNat)
    let old ← pyIndex fat (off + 1 : ℕ)
    setIndex fat (off + 1) ((old &&& (0xF0 : UInt8)) ||| UInt8.ofNat (value / 256 % 16).toNat)

variable {fat : List UInt8} {i j : ℕ} {v : ℤ}

/-- It is the function of the builder. -/
theorem fatSet12_natCast (fat : List UInt8) (i v : ℕ) :
    fatSet12 fat i v = fatSet .fat12 fat i v := by
  have h16 : ((v : ℤ) % 16).toNat = v % 16 := by omega
  have hbyte (n m : ℕ) (h : m = n % 256) : UInt8.ofNat m = UInt8.ofNat n := by
    rw [h, ← UInt8.toNat_inj, UInt8.toNat_ofNat', UInt8.toNat_ofNat']
    exact Nat.mod_mod _ _
  rw [fatSet12, fatSet]
  simp only [h16]
  rw [hbyte (v >>> 4) ((v : ℤ) / 16 % 256).toNat (by rw [Nat.shiftRight_eq_div_pow]; omega),
    hbyte v ((v : ℤ) % 256).toNat (by omega),
    show ((v : ℤ) / 256 % 16).toNat = (v >>> 8) % 16 by rw [Nat.shiftRight_eq_div_pow]; omega]

/-- The lower half of a byte is kept. -/
theorem toNat_low_or (a : UInt8) {n : ℕ} (hn : n < 16) :
    ((a &&& (0x0F : UInt8)) ||| UInt8.ofNat (n <<< 4)).toNat = a.toNat % 16 + 16 * n := by
  have hlow : a.toNat &&& 15 = a.toNat % 16 := Nat.and_two_pow_sub_one_eq_mod a.toNat 4
  have hlt : a.toNat % 16 < 2 ^ 4 := Nat.mod_lt _ (by decide)
  have hshift : n <<< 4 = n * 16 := Nat.shiftLeft_eq n 4
  rw [UInt8.toNat_or, UInt8.toNat_and, UInt8.toNat_ofNat', Nat.mod_eq_of_lt (by omega),
    show (0x0F : UInt8).toNat = 15 from rfl, hlow, Nat.or_comm,
    ← Nat.shiftLeft_add_eq_or_of_lt hlt, hshift]
  omega

/-- The upper half of a byte is kept. -/
theorem toNat_high_or (a : UInt8) {n : ℕ} (hn : n < 16) :
    ((a &&& (0xF0 : UInt8)) ||| UInt8.ofNat n).toNat = a.toNat / 16 * 16 + n := by
  have hmask : ∀ k < 256, k &&& 0xF0 = k / 16 * 16 := by decide +kernel
  have hhigh : a.toNat &&& 0xF0 = (a.toNat / 16) <<< 4 := by
    rw [hmask _ a.toNat_lt, Nat.shiftLeft_eq]
  rw [UInt8.toNat_or, UInt8.toNat_and, UInt8.toNat_ofNat', Nat.mod_eq_of_lt (by omega),
    show (0xF0 : UInt8).toNat = 0xF0 from rfl, hhigh,
    ← Nat.shiftLeft_add_eq_or_of_lt (show n < 2 ^ 4 from hn), Nat.shiftLeft_eq]

/-- The bytes of a list, with zeros behind it. -/
def bufferOf (fat : List UInt8) : Memory := fun a => fat.getD a 0

theorem load_bufferOf (fat : List UInt8) (a : ℕ) :
    (bufferOf fat).load 2 a = (fat.getD a 0).toNat + 256 * (fat.getD (a + 1) 0).toNat := by
  rw [load_two, load_one, load_one]
  rfl

theorem getElem?_eq_getD {a : ℕ} (h : a < fat.length) : fat[a]? = some (fat.getD a 0) := by
  rw [List.getD_eq_getElem?_getD, List.getElem?_eq_getElem h]
  rfl

/-- **Writing** replaces 12 bits of a word of 16. -/
theorem fatSet12_eq (v : ℤ) (hi : i * 3 / 2 + 1 < fat.length) :
    ∃ x y : UInt8, fatSet12 fat i v = .ok ((fat.set (i * 3 / 2) x).set (i * 3 / 2 + 1) y) ∧
      x.toNat + 256 * y.toNat =
        if i % 2 = 1 then (bufferOf fat).load 2 (i * 3 / 2) % 16 + 16 * (v % 4096).toNat
        else (bufferOf fat).load 2 (i * 3 / 2) / 4096 * 4096 + (v % 4096).toNat := by
  have h0 := @getElem?_eq_getD fat (i * 3 / 2) (by omega)
  have h1 := getElem?_eq_getD hi
  have hlt0 := (fat.getD (i * 3 / 2) 0).toNat_lt
  have hlt1 := (fat.getD (i * 3 / 2 + 1) 0).toNat_lt
  rw [load_bufferOf, fatSet12]
  rcases Nat.mod_two_eq_zero_or_one i with hpar | hpar
  · rw [if_neg (by omega), if_neg (by omega), setIndex, if_pos (by omega)]
    refine ⟨UInt8.ofNat (v % 256).toNat, (fat.getD (i * 3 / 2 + 1) 0 &&& (0xF0 : UInt8)) |||
      UInt8.ofNat (v / 256 % 16).toNat, ?_, ?_⟩
    · simp only [bind, Except.bind]
      have hold : (fat.set (i * 3 / 2) (UInt8.ofNat (v % 256).toNat))[i * 3 / 2 + 1]? =
          some (fat.getD (i * 3 / 2 + 1) 0) := by
        rw [List.getElem?_set_ne (by omega), h1]
      rw [pyIndex_ofNat hold]
      dsimp only
      rw [setIndex, if_pos (by rw [List.length_set]; exact hi)]
    · rw [toNat_high_or _ (by omega), UInt8.toNat_ofNat', Nat.mod_eq_of_lt (by omega)]
      omega
  · rw [if_pos hpar, if_pos hpar, pyIndex_ofNat h0]
    refine ⟨(fat.getD (i * 3 / 2) 0 &&& (0x0F : UInt8)) ||| UInt8.ofNat ((v % 16).toNat <<< 4),
      UInt8.ofNat (v / 16 % 256).toNat, ?_, ?_⟩
    · simp only [bind, Except.bind]
      rw [setIndex, if_pos (by omega)]
      dsimp only
      rw [setIndex, if_pos (by rw [List.length_set]; exact hi)]
    · rw [toNat_low_or _ (by omega), UInt8.toNat_ofNat',
        Nat.mod_eq_of_lt (show (v / 16 % 256).toNat < 2 ^ 8 by omega)]
      omega

theorem getD_set_set (fat : List UInt8) {off : ℕ} (h : off + 1 < fat.length) (x y : UInt8) (a : ℕ) :
    ((fat.set off x).set (off + 1) y).getD a 0 =
      if a = off then x else if a = off + 1 then y else fat.getD a 0 := by
  rw [List.getD_eq_getElem?_getD, List.getD_eq_getElem?_getD]
  by_cases h1 : a = off + 1
  · subst h1
    rw [List.getElem?_set_self (by rw [List.length_set]; exact h), if_neg (by omega), if_pos rfl]
    rfl
  · rw [List.getElem?_set_ne (Ne.symm h1), if_neg h1]
    by_cases h0 : a = off
    · subst h0
      rw [List.getElem?_set_self (by omega), if_pos rfl]
      rfl
    · rw [List.getElem?_set_ne (Ne.symm h0), if_neg h0]

/-- The entries afterwards. -/
theorem entryOf_fatSet12 (v : ℤ) (hi : i * 3 / 2 + 1 < fat.length) :
    ∃ fat', fatSet12 fat i v = .ok fat' ∧ fat'.length = fat.length ∧
      ∀ j, entryOf true (bufferOf fat') j =
        if j = i then (v % 4096).toNat else entryOf true (bufferOf fat) j := by
  obtain ⟨x, y, hset, hword⟩ := fatSet12_eq v hi
  refine ⟨_, hset, by rw [List.length_set, List.length_set], fun j => ?_⟩
  have hx := x.toNat_lt
  have hy := y.toNat_lt
  simp only [entryOf, if_true, load_bufferOf, getD_set_set fat hi] at hword ⊢
  by_cases hji : j = i
  · -- the entry itself
    subst hji
    rw [if_pos rfl, if_pos rfl, if_neg (by omega), if_pos rfl, hword]
    rcases Nat.mod_two_eq_zero_or_one j with hpar | hpar
    · rw [if_neg (by omega), hpar, pow_zero]
      omega
    · rw [if_pos hpar, hpar, pow_one]
      omega
  rw [if_neg hji]
  have hoff : j * 3 / 2 ≠ i * 3 / 2 := by omega
  have hlt1 := (fat.getD (i * 3 / 2 + 1) 0).toNat_lt
  have hlt0 := (fat.getD (i * 3 / 2) 0).toNat_lt
  rw [if_neg hoff]
  by_cases hnext : j * 3 / 2 = i * 3 / 2 + 1
  · -- the next one, which has the upper half of the second byte
    have hpar : i % 2 = 0 ∧ j % 2 = 1 := by omega
    have hlt2 := (fat.getD (i * 3 / 2 + 1 + 1) 0).toNat_lt
    rw [if_neg (by omega)] at hword
    rw [hnext, if_pos rfl, if_neg (by omega), if_neg (by omega), hpar.2, pow_one]
    omega
  rw [if_neg hnext, if_neg (by omega : j * 3 / 2 + 1 ≠ i * 3 / 2 + 1)]
  by_cases hprev : j * 3 / 2 + 1 = i * 3 / 2
  · -- the one before, which has the lower half of the first byte
    have hpar : i % 2 = 1 ∧ j % 2 = 0 := by omega
    rw [if_pos hpar.1] at hword
    rw [hprev, if_pos rfl, hpar.2, pow_zero]
    omega
  rw [if_neg hprev]

/-! ### Reading an entry -/

/-- A sum that fits 32 bits. -/
def addNoWrap (a b : ℕ) : Option ℕ := if a + b < 2 ^ 32 then some (a + b) else none

/-- A product that fits 32 bits. -/
def mulNoWrap (a b : ℕ) : Option ℕ := if a * b < 2 ^ 32 then some (a * b) else none

/-- A difference that is not negative. -/
def subNoWrap (a b : ℕ) : Option ℕ := if b ≤ a then some (a - b) else none

/-- A byte of the buffer. -/
def byteAt (f : List UInt8) (a : ℕ) : Option ℕ := f[a]?.map UInt8.toNat

/-- `fat_entry_12`, inside the buffer and without wrapping. -/
def readEntry12 (f : List UInt8) (i : ℕ) : Option ℕ := do
  let a ← addNoWrap i (i / 2)
  let lo ← byteAt f a
  let a' ← addNoWrap a 1
  let hi ← byteAt f a'
  let v := lo ||| hi <<< 8
  return if i &&& 1 ≠ 0 then v >>> 4 else v &&& 0x0FFF

/-- `fat_entry_16`, inside the buffer and without wrapping. -/
def readEntry16 (f : List UInt8) (i : ℕ) : Option ℕ := do
  let a ← mulNoWrap i 2
  let lo ← byteAt f a
  let a' ← addNoWrap a 1
  let hi ← byteAt f a'
  return lo ||| hi <<< 8

/-- The entry at either width. -/
def readEntry (is12 : Bool) (f : List UInt8) (i : ℕ) : Option ℕ :=
  if is12 then readEntry12 f i else readEntry16 f i

/-- The address behind an entry. -/
def entryEnd (is12 : Bool) (i : ℕ) : ℕ := (if is12 then i * 3 / 2 else i * 2) + 2

variable {f : List UInt8} {m : Memory} {a : ℕ} {is12 : Bool}

theorem addNoWrap_of_lt {x y : ℕ} (h : x + y < 2 ^ 32) : addNoWrap x y = some (x + y) := if_pos h

theorem mulNoWrap_of_lt {x y : ℕ} (h : x * y < 2 ^ 32) : mulNoWrap x y = some (x * y) := if_pos h

theorem subNoWrap_of_le {x y : ℕ} (h : y ≤ x) : subNoWrap x y = some (x - y) := if_pos h

theorem byteAt_of_lt {x : ℕ} (h : x < f.length) : byteAt f x = some (f.getD x 0).toNat := by
  rw [byteAt, getElem?_eq_getD h]
  rfl

theorem eq_getD_of_holds (hm : m.Holds a f) {x : ℕ} (h : x < f.length) : m (a + x) = f.getD x 0 :=
  hm x _ (getElem?_eq_getD h)

/-- An entry inside the buffer is read without leaving it, wherever the buffer is. -/
theorem readEntry_eq (hlen : f.length ≤ 2 ^ 32) (hi : entryEnd is12 i ≤ f.length)
    (hm : m.Holds a f) :
    readEntry is12 f i = some (if is12 then fatEntry12 m a i else fatEntry16 m a i) := by
  rw [readEntry]
  cases is12 with
  | true =>
    have hi' : i + i / 2 + 1 < f.length := by
      simp only [entryEnd, if_true] at hi
      omega
    rw [if_pos rfl, if_pos rfl, readEntry12, addNoWrap_of_lt (by omega)]
    simp only [Option.bind_eq_bind, Option.bind_some]
    rw [byteAt_of_lt (by omega), addNoWrap_of_lt (by omega)]
    simp only [Option.bind_some]
    rw [byteAt_of_lt hi', fatEntry12, eq_getD_of_holds hm (by omega), eq_getD_of_holds hm hi']
    rfl
  | false =>
    have hi' : i * 2 + 1 < f.length := by
      simp only [entryEnd, Bool.false_eq_true, if_false] at hi
      omega
    rw [if_neg Bool.false_ne_true, if_neg Bool.false_ne_true, readEntry16,
      mulNoWrap_of_lt (by omega)]
    simp only [Option.bind_eq_bind, Option.bind_some]
    rw [byteAt_of_lt (by omega), addNoWrap_of_lt (by omega)]
    simp only [Option.bind_some]
    rw [byteAt_of_lt hi', fatEntry16, eq_getD_of_holds hm (by omega), eq_getD_of_holds hm hi']
    rfl

/-- It is the entry of the table in the buffer. -/
theorem fatEntry_eq_entryOf (hi : entryEnd is12 i ≤ f.length) (hm : m.Holds a f) :
    (if is12 then fatEntry12 m a i else fatEntry16 m a i) = entryOf is12 (bufferOf f) i := by
  have hcongr : entryOf is12 (fun x => m (a + x)) i = entryOf is12 (bufferOf f) i := by
    refine entryOf_congr ?_ fun x hx => eq_getD_of_holds hm hx
    refine Nat.le_trans ?_ hi
    cases is12 with
    | true =>
      simp only [entryEnd, if_true]
      omega
    | false =>
      simp only [entryEnd, Bool.false_eq_true, if_false]
      omega
  rw [← hcongr]
  cases is12 with
  | true => rw [if_pos rfl, fatEntry12_eq]
  | false => rw [if_neg Bool.false_ne_true, fatEntry16_eq]

theorem holds_bufferOf (f : List UInt8) : (bufferOf f).Holds 0 f := by
  intro x b hb
  rw [Nat.zero_add, bufferOf, List.getD_eq_getElem?_getD, hb]
  rfl

/-- The entry in the buffer is read without leaving it. -/
theorem readEntry_eq_entryOf (hlen : f.length ≤ 2 ^ 32) (hi : entryEnd is12 i ≤ f.length) :
    readEntry is12 f i = some (entryOf is12 (bufferOf f) i) := by
  rw [readEntry_eq hlen hi (holds_bufferOf f), fatEntry_eq_entryOf hi (holds_bufferOf f)]

/-- What the driver reads of entry `j` after the builder has written `v` to entry `i`. -/
structure Packs (fat : List UInt8) (i j : ℕ) (v : ℤ) (fat' : List UInt8) : Prop where
  written : fatSet12 fat i v = .ok fat'
  /-- A value that is not negative, as the builder has it. -/
  builder : ∀ n : ℕ, v = n → fatSet .fat12 fat i n = .ok fat'
  length : fat'.length = fat.length
  /-- In any memory that has the tables. -/
  entry : ∀ m m' : Memory, ∀ a a', m.Holds a fat → m'.Holds a' fat' →
    fatEntry12 m' a' j = if j = i then (v % 4096).toNat else fatEntry12 m a j
  /-- With indices of 32 bits. -/
  noWrap : fat.length ≤ 2 ^ 32 →
    readEntry12 fat' j = if j = i then some (v % 4096).toNat else readEntry12 fat j

/-- **The builder and the driver agree on entries of 12 bits.** -/
theorem fatEntry12_fatSet12 (fat : List UInt8) (i j : ℕ) (v : ℤ)
    (hi : i * 3 / 2 + 1 < fat.length) (hj : j * 3 / 2 + 1 < fat.length) :
    ∃ fat', Packs fat i j v fat' := by
  obtain ⟨fat', hset, hlen, hentry⟩ := entryOf_fatSet12 v hi
  have hin : entryEnd true j ≤ fat.length := hj
  have hin' : entryEnd true j ≤ fat'.length := hlen ▸ hin
  refine ⟨fat', hset, fun n hn => ?_, hlen, fun m m' a a' hm hm' => ?_, fun h32 => ?_⟩
  · rw [← fatSet12_natCast, ← hn, hset]
  · have hold := fatEntry_eq_entryOf hin hm
    have hnew := fatEntry_eq_entryOf hin' hm'
    rw [if_pos rfl] at hold hnew
    rw [hnew, hold, hentry]
  · have hold := readEntry_eq_entryOf h32 hin
    have hnew := readEntry_eq_entryOf (hlen ▸ h32) hin'
    rw [readEntry, if_pos rfl] at hold hnew
    rw [hnew, hold, hentry]
    split <;> rfl

/-- Entry 1 keeps its value when entry 0 is written, which shares a byte with it. -/
theorem fatEntry12_fatSet12_neighbours : ∃ fat', Packs [0x21, 0x43, 0x65] 0 1 (-1) fat' :=
  fatEntry12_fatSet12 [0x21, 0x43, 0x65] 0 1 (-1) (by decide) (by decide)

/-! ### Counting -/

/-- `if (v == 0) free_count++`. -/
def countEntry (v free : ℕ) : Option ℕ := if v = 0 then addNoWrap free 1 else some free

/-- The loop of `count_free`, inside the buffer and without wrapping. -/
def countSteps (is12 : Bool) (f : List UInt8) (limit : ℕ) : (fuel i free : ℕ) → Option ℕ
  | 0, _, free => some free
  | fuel + 1, i, free =>
    if i < limit then do
      let v ← readEntry is12 f i
      let free ← countEntry v free
      let i ← addNoWrap i 1
      countSteps is12 f limit fuel i free
    else some free

/-- `is12 ? (bytes * 2 / 3) : (bytes / 2)`. -/
def limitChecked (is12 : Bool) (bytes : ℕ) : Option ℕ :=
  if is12 then (mulNoWrap bytes 2).map (· / 3) else some (bytes / 2)

/-- `count_free` on a buffer, inside the buffer and without wrapping. -/
def countFreeChecked (is12 : Bool) (f : List UInt8) (clusters : ℕ) : Option ℕ := do
  let limit ← limitChecked is12 f.length
  let top ← addNoWrap clusters 2
  let limit := if top < limit then top else limit
  let free ← countSteps is12 f limit limit 2 0
  let seen ← subNoWrap limit 2
  if seen < clusters then do
    let unseen ← subNoWrap clusters seen
    addNoWrap free unseen
  else some free

/-- The entries that are zero, among `n` from `i` on. -/
def zeros (is12 : Bool) (f : List UInt8) (i n : ℕ) : ℕ :=
  (List.range' i n).countP fun k => entryOf is12 (bufferOf f) k = 0

theorem zeros_le (is12 : Bool) (f : List UInt8) (i n : ℕ) : zeros is12 f i n ≤ n :=
  Nat.le_trans List.countP_le_length (by rw [List.length_range'])

theorem zeros_succ (is12 : Bool) (f : List UInt8) (i n : ℕ) : zeros is12 f i (n + 1) =
    (if entryOf is12 (bufferOf f) i = 0 then 1 else 0) + zeros is12 f (i + 1) n := by
  rw [zeros, List.range'_succ, List.countP_cons, zeros, Nat.add_comm]
  simp only [decide_eq_true_eq]

/-- **The loop.** -/
theorem countSteps_eq {limit fuel i free : ℕ} (hlen : f.length ≤ 2 ^ 18)
    (hlimit : limit ≤ 2 ^ 18) (hfree : free + (limit - i) < 2 ^ 32)
    (hin : ∀ k < limit, entryEnd is12 k ≤ f.length) (hfuel : limit ≤ i + fuel) :
    countSteps is12 f limit fuel i free = some (free + zeros is12 f i (limit - i)) := by
  induction fuel generalizing i free with
  | zero =>
    rw [countSteps, show limit - i = 0 by omega]
    rfl
  | succ fuel ih =>
    rw [countSteps]
    by_cases hlt : i < limit
    · rw [if_pos hlt, readEntry_eq_entryOf (by omega) (hin i hlt)]
      obtain ⟨n, hn⟩ : ∃ n, limit - i = n + 1 := ⟨limit - i - 1, by omega⟩
      have hn' : limit - (i + 1) = n := by omega
      rw [hn, zeros_succ, ← hn']
      simp only [Option.bind_eq_bind, Option.bind_some]
      rw [countEntry]
      by_cases hzero : entryOf is12 (bufferOf f) i = 0
      · rw [if_pos hzero, if_pos hzero, addNoWrap_of_lt (by omega)]
        simp only [Option.bind_some]
        rw [addNoWrap_of_lt (by omega), ← Nat.add_assoc]
        exact ih (by omega) (by omega)
      · rw [if_neg hzero, if_neg hzero, Nat.zero_add]
        simp only [Option.bind_some]
        rw [addNoWrap_of_lt (by omega)]
        exact ih (by omega) (by omega)
    · rw [if_neg hlt, show limit - i = 0 by omega]
      rfl

/-- The entries that fit the buffer. -/
def fits (is12 : Bool) (bytes : ℕ) : ℕ := if is12 then bytes * 2 / 3 else bytes / 2

theorem lt_fits_iff {is12 : Bool} {bytes k : ℕ} :
    k < fits is12 bytes ↔ entryEnd is12 k ≤ bytes := by
  cases is12 with
  | true =>
    simp only [fits, entryEnd, if_true]
    omega
  | false =>
    simp only [fits, entryEnd, Bool.false_eq_true, if_false]
    omega

theorem limitChecked_eq {bytes : ℕ} (h : bytes ≤ 2 ^ 18) :
    limitChecked is12 bytes = some (fits is12 bytes) := by
  cases is12 with
  | true =>
    rw [limitChecked, if_pos rfl, mulNoWrap_of_lt (by omega)]
    rfl
  | false => rfl

/-- The buffer has room for the two entries in front and for no more than a loop can count. -/
theorem fits_bounds (hlow : 512 ≤ f.length) (hlen : f.length ≤ 2 ^ 18) :
    2 ≤ fits is12 f.length ∧ fits is12 f.length ≤ 2 ^ 18 := by
  rw [fits]
  split <;> omega

/-- Where the loop stops, counted without the two entries in front. -/
theorem ite_lt_fits {bytes clusters : ℕ} (h : 2 ≤ fits is12 bytes) :
    (if clusters + 2 < fits is12 bytes then clusters + 2 else fits is12 bytes) =
      min (fits is12 bytes - 2) clusters + 2 := by
  split <;> omega

/-- The count, in terms of the entries that are looked at. -/
theorem countFreeChecked_eq {clusters : ℕ} (hlow : 512 ≤ f.length) (hlen : f.length ≤ 2 ^ 18)
    (hclusters : clusters ≤ 0x0FFFFFFF) :
    countFreeChecked is12 f clusters =
      some (zeros is12 f 2 (min (fits is12 f.length - 2) clusters) +
        (clusters - (fits is12 f.length - 2))) := by
  have hfits := @fits_bounds f is12 hlow hlen
  have hle := zeros_le is12 f 2 (min (fits is12 f.length - 2) clusters)
  have hsteps := @countSteps_eq f is12 (min (fits is12 f.length - 2) clusters + 2)
    (min (fits is12 f.length - 2) clusters + 2) 2 0 hlen (by omega) (by omega)
    (fun k hk => lt_fits_iff.mp (by omega)) (by omega)
  rw [Nat.add_sub_cancel, Nat.zero_add] at hsteps
  rw [countFreeChecked, limitChecked_eq hlen, addNoWrap_of_lt (by omega)]
  simp only [Option.bind_eq_bind, Option.bind_some]
  rw [ite_lt_fits hfits.1, hsteps, subNoWrap_of_le (by omega), Nat.add_sub_cancel]
  simp only [Option.bind_some]
  by_cases hrest : min (fits is12 f.length - 2) clusters < clusters
  · rw [if_pos hrest, subNoWrap_of_le (by omega)]
    simp only [Option.bind_some]
    rw [addNoWrap_of_lt (by omega),
      show clusters - min (fits is12 f.length - 2) clusters =
        clusters - (fits is12 f.length - 2) by omega]
  · rw [if_neg hrest, show clusters - (fits is12 f.length - 2) = 0 by omega, Nat.add_zero]

/-- It is what `count_free` returns. -/
theorem countFree_eq_checked {clusters : ℕ} (hlow : 512 ≤ f.length) (hlen : f.length ≤ 2 ^ 18)
    (hclusters : clusters ≤ 0x0FFFFFFF) (hm : m.Holds a f) :
    countFreeChecked is12 f clusters = some (countFree is12 m a f.length clusters) := by
  have hfits := @fits_bounds f is12 hlow hlen
  have hlimit : (if is12 then u32 (f.length * 2) / 3 else f.length / 2) = fits is12 f.length := by
    rw [u32, Nat.mod_eq_of_lt (by omega)]
    rfl
  have hcut : (if u32 (clusters + 2) < fits is12 f.length then u32 (clusters + 2)
      else fits is12 f.length) = min (fits is12 f.length - 2) clusters + 2 := by
    rw [show u32 (clusters + 2) = clusters + 2 from Nat.mod_eq_of_lt (by omega)]
    exact ite_lt_fits hfits.1
  have hsub : sub32 (min (fits is12 f.length - 2) clusters + 2) 2 =
      min (fits is12 f.length - 2) clusters := by
    rw [sub32]
    omega
  have hcount : ((List.range' 2 (min (fits is12 f.length - 2) clusters)).countP fun i =>
      decide ((if is12 then fatEntry12 m a i else fatEntry16 m a i) = 0)) =
      zeros is12 f 2 (min (fits is12 f.length - 2) clusters) := by
    refine List.countP_congr fun i hi => ?_
    rw [List.mem_range'_1] at hi
    rw [fatEntry_eq_entryOf (lt_fits_iff.mp (by omega)) hm]
  have hle := zeros_le is12 f 2 (min (fits is12 f.length - 2) clusters)
  rw [countFreeChecked_eq hlow hlen hclusters]
  simp only [countFree]
  rw [hlimit, hcut, Nat.add_sub_cancel, hsub, hcount]
  by_cases hrest : min (fits is12 f.length - 2) clusters < clusters
  · rw [if_pos hrest, u32, Nat.mod_eq_of_lt (by omega),
      show clusters - min (fits is12 f.length - 2) clusters =
        clusters - (fits is12 f.length - 2) by omega]
  · rw [if_neg hrest, show clusters - (fits is12 f.length - 2) = 0 by omega, Nat.add_zero]

/-- The count of free clusters, for a buffer and a number of clusters. -/
structure CountsFree (is12 : Bool) (f : List UInt8) (clusters : ℕ) : Prop where
  /-- No read leaves the buffer, nothing wraps, and the value is that of `count_free`. -/
  inside : ∀ m : Memory, ∀ a, m.Holds a f →
    countFreeChecked is12 f clusters = some (countFree is12 m a f.length clusters)
  /-- No more are free than there are. -/
  le : ∀ m : Memory, ∀ a, m.Holds a f → countFree is12 m a f.length clusters ≤ clusters
  /-- With all entries in the buffer, the zeros are counted. -/
  eq : (∀ i, 2 ≤ i → i ≤ clusters + 1 → entryEnd is12 i ≤ f.length) →
    ∀ m : Memory, ∀ a, m.Holds a f → countFree is12 m a f.length clusters =
      (List.range' 2 clusters).countP fun i => entryOf is12 (bufferOf f) i = 0

/-- **Counting free clusters is bounded.** -/
theorem countFree_bounded (is12 : Bool) (f : List UInt8) (clusters : ℕ) (hlow : 512 ≤ f.length)
    (hlen : f.length ≤ 256 * 1024) (hclusters : clusters ≤ 0x0FFFFFFF) :
    CountsFree is12 f clusters := by
  have hchecked (m : Memory) (a : ℕ) (hm : m.Holds a f) :=
    @countFree_eq_checked f m a is12 clusters hlow hlen hclusters hm
  have hvalue (m : Memory) (a : ℕ) (hm : m.Holds a f) :
      countFree is12 m a f.length clusters =
        zeros is12 f 2 (min (fits is12 f.length - 2) clusters) +
          (clusters - (fits is12 f.length - 2)) :=
    Option.some.inj ((hchecked m a hm).symm.trans (countFreeChecked_eq hlow hlen hclusters))
  refine ⟨hchecked, fun m a hm => ?_, fun hcover m a hm => ?_⟩
  · have hle := zeros_le is12 f 2 (min (fits is12 f.length - 2) clusters)
    rw [hvalue m a hm]
    omega
  · have hfits : clusters = 0 ∨ clusters + 1 < fits is12 f.length := by
      rcases Nat.eq_zero_or_pos clusters with hzero | hpos
      · exact .inl hzero
      · exact .inr (lt_fits_iff.mpr (hcover (clusters + 1) (by omega) (Nat.le_refl _)))
    rw [hvalue m a hm, show min (fits is12 f.length - 2) clusters = clusters by omega,
      show clusters - (fits is12 f.length - 2) = 0 by omega]
    rfl

/-- The count over an empty table of one sector. -/
theorem countFree_bounded_sector : CountsFree true (List.replicate 512 0) 339 :=
  countFree_bounded true (List.replicate 512 0) 339 (by rw [List.length_replicate])
    (by rw [List.length_replicate]; decide) (by decide)

end Fat

end Qizo
