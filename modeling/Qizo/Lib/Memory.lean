import Qizo.Lib.ByteString

/-!
# Byte-addressed memory

A memory is a total function from addresses to bytes. Programs write byte strings into it and are
specified by what a range holds afterwards (`Holds`) and by the ranges they may have changed
(`EqOutside`); both are closed under the compositions a proof about a longer program needs.
-/

/-- A byte-addressed memory. -/
abbrev Memory := ℕ → UInt8

namespace Memory

open ByteString

variable {m m' m'' : Memory} {a b n k : ℕ} {bs : List UInt8} {R R' : List (ℕ × ℕ)}

/-- The `n` bytes from address `a` on. -/
def bytes (m : Memory) (a n : ℕ) : List UInt8 := (List.range n).map fun i => m (a + i)

/-- Overwrite the bytes from address `a` on with `bs`. -/
def write (m : Memory) (a : ℕ) (bs : List UInt8) : Memory :=
  fun x => if a ≤ x then (bs[x - a]?).getD (m x) else m x

/-- The `w`-byte little-endian number at address `a`. -/
def load (m : Memory) (w a : ℕ) : ℕ := leNat (bytes m a w)

/-- Overwrite `w` bytes at address `a` with the little-endian form of `v`. -/
def store (m : Memory) (w a v : ℕ) : Memory := write m a (leBytes w v)

/-- The bytes from address `a` on are `bs`. -/
def Holds (m : Memory) (a : ℕ) (bs : List UInt8) : Prop :=
  ∀ i b, bs[i]? = some b → m (a + i) = b

/-- An address that lies in none of the ranges `[a, a + n)` of a list of pairs `(a, n)`. -/
def Outside (R : List (ℕ × ℕ)) (x : ℕ) : Prop := ∀ r ∈ R, x < r.1 ∨ r.1 + r.2 ≤ x

/-- Outside a list of ranges the two memories agree. -/
def EqOutside (m m' : Memory) (R : List (ℕ × ℕ)) : Prop := ∀ x, Outside R x → m' x = m x

@[simp] theorem outside_nil (x : ℕ) : Outside [] x := by simp [Outside]

@[simp] theorem outside_cons {R : List (ℕ × ℕ)} {x : ℕ} :
    Outside ((a, n) :: R) x ↔ (x < a ∨ a + n ≤ x) ∧ Outside R x := by simp [Outside]

theorem outside_singleton {x : ℕ} : Outside [(a, n)] x ↔ x < a ∨ a + n ≤ x := by
  rw [outside_cons, and_iff_left (outside_nil x)]

@[simp] theorem length_bytes (m : Memory) (a n : ℕ) : (bytes m a n).length = n := by simp [bytes]

theorem getElem?_bytes {i : ℕ} (h : i < n) : (bytes m a n)[i]? = some (m (a + i)) := by
  simp [bytes, h]

theorem load_lt (m : Memory) (w a : ℕ) : load m w a < 256 ^ w := by
  simpa [load] using leNat_lt (bytes m a w)

/-- A number depends on its own bytes only. -/
theorem load_congr {w : ℕ} (h : ∀ i < w, m' (b + i) = m (a + i)) : load m' w b = load m w a :=
  congrArg leNat (List.map_congr_left fun i hi => h i (List.mem_range.mp hi))

theorem load_one (m : Memory) (a : ℕ) : load m 1 a = (m a).toNat := by
  simp [load, bytes, leNat]

/-- A word is its two bytes. -/
theorem load_two (m : Memory) (a : ℕ) : load m 2 a = load m 1 a + 256 * load m 1 (a + 1) := by
  have hsplit : bytes m a 2 = bytes m a 1 ++ bytes m (a + 1) 1 := rfl
  rw [load, hsplit, leNat_append, length_bytes]
  rfl

theorem load_four (m : Memory) (a : ℕ) :
    load m 4 a = load m 2 a + 2 ^ 16 * load m 2 (a + 2) := by
  have hsplit : bytes m a 4 = bytes m a 2 ++ bytes m (a + 2) 2 := rfl
  rw [load, hsplit, leNat_append, length_bytes]
  rfl

/-- A double word is its two halves. -/
theorem load_eight (m : Memory) (a : ℕ) :
    load m 8 a = load m 4 a + 2 ^ 32 * load m 4 (a + 4) := by
  have hsplit : bytes m a 8 = bytes m a 4 ++ bytes m (a + 4) 4 := rfl
  rw [load, hsplit, leNat_append, length_bytes]
  rfl

/-! ### Holding a byte string -/

theorem holds_nil (m : Memory) (a : ℕ) : Holds m a [] := by simp [Holds]

theorem holds_iff_bytes_eq : Holds m a bs ↔ bytes m a bs.length = bs := by
  constructor
  · intro h
    apply List.ext_getElem?
    intro i
    by_cases hi : i < bs.length
    · rw [getElem?_bytes hi, List.getElem?_eq_getElem hi,
        h i bs[i] (List.getElem?_eq_getElem hi)]
    · rw [List.getElem?_eq_none (by simp; omega), List.getElem?_eq_none (by omega)]
  · intro h i b hb
    have hi : i < bs.length := (List.getElem?_eq_some_iff.mp hb).1
    rw [← h, getElem?_bytes hi] at hb
    exact Option.some.inj hb

theorem holds_cons_iff {x : UInt8} : Holds m a (x :: bs) ↔ m a = x ∧ Holds m (a + 1) bs := by
  constructor
  · intro h
    refine ⟨h 0 x rfl, fun i b hb => ?_⟩
    rw [Nat.add_assoc, Nat.add_comm 1]
    exact h (i + 1) b (by simpa using hb)
  · rintro ⟨hx, h⟩ i b hb
    cases i with
    | zero => simpa [← hx] using hb
    | succ i =>
      rw [Nat.add_comm i, ← Nat.add_assoc]
      exact h i b (by simpa using hb)

theorem Holds.append {bs' : List UInt8} (h : Holds m a bs) (h' : Holds m (a + bs.length) bs') :
    Holds m a (bs ++ bs') := by
  intro i b hb
  by_cases hi : i < bs.length
  · rw [List.getElem?_append_left hi] at hb
    exact h i b hb
  · rw [List.getElem?_append_right (Nat.not_lt.mp hi)] at hb
    have := h' _ b hb
    rwa [Nat.add_assoc, Nat.add_sub_cancel' (Nat.not_lt.mp hi)] at this

theorem Holds.left {bs' : List UInt8} (h : Holds m a (bs ++ bs')) : Holds m a bs := by
  intro i b hb
  refine h i b ?_
  rwa [List.getElem?_append_left (List.getElem?_eq_some_iff.mp hb).1]

theorem Holds.right {bs' : List UInt8} (h : Holds m a (bs ++ bs')) :
    Holds m (a + bs.length) bs' := by
  intro i b hb
  rw [Nat.add_assoc]
  refine h _ b ?_
  rwa [List.getElem?_append_right (Nat.le_add_right _ _), Nat.add_sub_cancel_left]

/-- A slice of a held string is held at its own address. -/
theorem Holds.slice (h : Holds m a bs) (i j : ℕ) : Holds m (a + i) (slice bs i j) := by
  intro t b hb
  rw [ByteString.slice, List.getElem?_drop, List.getElem?_take] at hb
  rw [Nat.add_assoc]
  split at hb
  · exact h _ b hb
  · exact absurd hb (Option.some_ne_none b).symm

/-- What a loaded part of a string has inside it. -/
theorem Holds.of_hasAt {l d : List UInt8} {i j : ℕ} (h : Holds m a (ByteString.slice l i j))
    (hd : HasAt l b d) (hi : i ≤ b) (hj : b + d.length ≤ j) : Holds m (a + (b - i)) d := by
  intro t x hx
  have ht : t < d.length := (List.getElem?_eq_some_iff.mp hx).1
  rw [Nat.add_assoc]
  refine h _ x ?_
  rw [getElem?_slice (by omega), ← Nat.add_assoc, Nat.add_sub_cancel' hi, hd t ht, hx]

theorem Holds.of_eqOutside (h : Holds m a bs) (he : EqOutside m m' R)
    (hd : ∀ x, a ≤ x → x < a + bs.length → Outside R x) : Holds m' a bs := by
  intro i x hx
  have hi : i < bs.length := (List.getElem?_eq_some_iff.mp hx).1
  rw [he (a + i) (hd _ (by omega) (by omega))]
  exact h i x hx

/-- A byte written elsewhere. -/
theorem Holds.update (h : Holds m a bs) (v : UInt8) (hk : k < a ∨ a + bs.length ≤ k) :
    Holds (Function.update m k v) a bs := by
  intro i x hx
  have hi : i < bs.length := (List.getElem?_eq_some_iff.mp hx).1
  rw [Function.update_of_ne (by omega)]
  exact h i x hx

/-- A byte written behind a held string makes it longer. -/
theorem Holds.push (h : Holds m a bs) (v : UInt8) :
    Holds (Function.update m (a + bs.length) v) a (bs ++ [v]) := by
  refine (h.update v (Or.inr le_rfl)).append ?_
  intro i x hx
  obtain rfl : i = 0 := by
    have := (List.getElem?_eq_some_iff.mp hx).1
    rw [List.length_singleton] at this
    omega
  rw [Nat.add_zero, Function.update_self]
  simpa using hx

theorem load_of_holds (h : Holds m a bs) : load m bs.length a = leNat bs := by
  rw [load, holds_iff_bytes_eq.mp h]

/-- A number inside a held string. -/
theorem load_of_holds_slice {w : ℕ} (h : Holds m a bs) (hw : k + w ≤ bs.length) :
    load m w (a + k) = leNat (ByteString.slice bs k (k + w)) := by
  have := load_of_holds (h.slice k (k + w))
  rwa [length_slice hw, Nat.add_sub_cancel_left] at this

/-! ### Writing -/

theorem holds_write (m : Memory) (a : ℕ) (bs : List UInt8) : Holds (write m a bs) a bs := by
  intro i b hb
  simp [write, hb]

theorem eqOutside_write (m : Memory) (a : ℕ) (bs : List UInt8) :
    EqOutside m (write m a bs) [(a, bs.length)] := by
  intro x hx
  rw [outside_cons] at hx
  unfold write
  split
  · rw [List.getElem?_eq_none (by omega)]
    rfl
  · rfl

theorem eqOutside_store (m : Memory) (w a v : ℕ) : EqOutside m (store m w a v) [(a, w)] := by
  simpa [store] using eqOutside_write m a (leBytes w v)

theorem load_store_self {w v : ℕ} (h : v < 256 ^ w) : load (store m w a v) w a = v := by
  have := load_of_holds (holds_write m a (leBytes w v))
  rw [length_leBytes, leNat_leBytes h] at this
  exact this

/-! ### Frames -/

theorem EqOutside.refl (m : Memory) (R : List (ℕ × ℕ)) : EqOutside m m R := fun _ _ => rfl

theorem EqOutside.trans (h : EqOutside m m' R) (h' : EqOutside m' m'' R) :
    EqOutside m m'' R := fun x hx => (h' x hx).trans (h x hx)

theorem EqOutside.mono (h : EqOutside m m' R) (hR : ∀ x, Outside R' x → Outside R x) :
    EqOutside m m' R' := fun x hx => h x (hR x hx)

/-- One more number stored inside the ranges. -/
theorem EqOutside.store {w v : ℕ} (h : EqOutside m m' R)
    (hin : ∀ x, Outside R x → x < a ∨ a + w ≤ x) : EqOutside m (m'.store w a v) R :=
  h.trans ((eqOutside_store m' w a v).mono fun x hx => by simpa using hin x hx)

theorem EqOutside.load_eq {w : ℕ} (h : EqOutside m m' R)
    (hd : ∀ x, a ≤ x → x < a + w → Outside R x) : load m' w a = load m w a :=
  load_congr fun i hi => h (a + i) (hd _ (by omega) (by omega))

/-- A store leaves the numbers stored elsewhere alone. -/
theorem load_store_of_disjoint {w w' v : ℕ} (h : b + w' ≤ a ∨ a + w ≤ b) :
    load (store m w a v) w' b = load m w' b :=
  (eqOutside_store m w a v).load_eq fun x _ _ => by simp; omega

end Memory
