import Qizo.Lib.Memory

/-!
# Four-level paging

The address translation of x86-64 in long mode, as a function of physical memory: four tables of
512 entries, with large pages at the second and third level. Protection keys, the user flag and
the no-execute flag are left out.

A program that builds tables does so in one region, so that the library describes a region by the
function from its entry numbers to the entries (`Entries`), which a store updates in one place and
a loop in a range (`fill`).
-/

namespace Paging

open Memory

/-! ### Translation -/

/-- What a linear address is translated to. -/
structure Mapping where
  /-- The physical address. -/
  phys : ℕ
  /-- Writes are allowed at every level. -/
  writable : Bool
  deriving DecidableEq, Repr

/-- Bits 63 to 47 of the address are equal. -/
def Canonical (a : ℕ) : Prop := a < 2 ^ 47 ∨ 2 ^ 64 - 2 ^ 47 ≤ a ∧ a < 2 ^ 64

/-- The number of address bits below the index of a level. -/
def shift (level : ℕ) : ℕ := 12 + 9 * level

/-- The place of an address in a table of a level; the root has level 3. -/
def index (level a : ℕ) : ℕ := a / 2 ^ shift level % 512

/-- The physical address in an entry, a multiple of `2 ^ k`. -/
def frame (k e : ℕ) : ℕ := e / 2 ^ k % 2 ^ (52 - k) * 2 ^ k

/-- The walk from a table of a level on; `w` says that the levels above allow writes. -/
def walkFrom (m : Memory) (a : ℕ) : (level table : ℕ) → (w : Bool) → Option Mapping
  | 0, table, w =>
    let e := m.load 8 (table + 8 * index 0 a)
    if e.testBit 0 then some ⟨frame 12 e + a % 2 ^ 12, w && e.testBit 1⟩ else none
  | level + 1, table, w =>
    let e := m.load 8 (table + 8 * index (level + 1) a)
    if e.testBit 0 then
      if e.testBit 7 && level != 2 then
        some ⟨frame (shift (level + 1)) e + a % 2 ^ shift (level + 1), w && e.testBit 1⟩
      else walkFrom m a level (frame 12 e) (w && e.testBit 1)
    else none

/-- The translation of an address. -/
def walk (m : Memory) (cr3 a : ℕ) : Option Mapping := walkFrom m a 3 (frame 12 cr3) true

variable {m m' : Memory} {a t e n i j : ℕ} {w : Bool} {level : ℕ}

theorem frame_of_dvd (h : t % 2 ^ 12 = 0) (hlt : t < 2 ^ 52) {x : ℕ} (hx : x < 2 ^ 12) :
    frame 12 (t + x) = t := by
  unfold frame
  omega

/-! ### One level -/

/-- The entry that leads to a table: present and writable. -/
def tableEntry (t : ℕ) : ℕ := t + 0x03

/-- The entry of a page of 2 MiB: present, writable and large. -/
def pageEntry (i : ℕ) : ℕ := 2 ^ 21 * i + 0x83

theorem walkFrom_zero (h : m.load 8 (t + 8 * index (level + 1) a) = 0) :
    walkFrom m a (level + 1) t w = none := by
  simp [walkFrom, h]

/-- A step down. -/
theorem walkFrom_tableEntry {t' : ℕ} (h : m.load 8 (t + 8 * index (level + 1) a) = tableEntry t')
    (ht : t' % 2 ^ 12 = 0) (hlt : t' < 2 ^ 52) :
    walkFrom m a (level + 1) t w = walkFrom m a level t' w := by
  have h0 : (t' + 3).testBit 0 = true := by
    rw [Nat.testBit_eq_decide_div_mod_eq, decide_eq_true_eq]
    omega
  have h1 : (t' + 3).testBit 1 = true := by
    rw [Nat.testBit_eq_decide_div_mod_eq, decide_eq_true_eq]
    omega
  have h7 : (t' + 3).testBit 7 = false := by
    rw [Nat.testBit_eq_decide_div_mod_eq, decide_eq_false_iff_not]
    omega
  simp only [walkFrom, h, tableEntry, h0, h1, h7, if_true, Bool.false_and, Bool.false_eq_true,
    if_false, Bool.and_true, frame_of_dvd ht hlt (by omega : 3 < 2 ^ 12)]

/-- A page of 2 MiB. -/
theorem walkFrom_pageEntry (h : m.load 8 (t + 8 * index 1 a) = pageEntry i) (hi : i < 2 ^ 31) :
    walkFrom m a 1 t w = some ⟨2 ^ 21 * i + a % 2 ^ 21, w⟩ := by
  have h0 : (2 ^ 21 * i + 0x83).testBit 0 = true := by
    rw [Nat.testBit_eq_decide_div_mod_eq, decide_eq_true_eq]
    omega
  have h1 : (2 ^ 21 * i + 0x83).testBit 1 = true := by
    rw [Nat.testBit_eq_decide_div_mod_eq, decide_eq_true_eq]
    omega
  have h7 : (2 ^ 21 * i + 0x83).testBit 7 = true := by
    rw [Nat.testBit_eq_decide_div_mod_eq, decide_eq_true_eq]
    omega
  have hframe : frame 21 (2 ^ 21 * i + 0x83) = 2 ^ 21 * i := by
    unfold frame
    omega
  simp only [walkFrom, h, pageEntry, h0, h1, h7, if_true, Bool.true_and, Bool.and_true]
  rw [if_pos (by decide)]
  exact congrArg (fun p => some (Mapping.mk (p + a % 2 ^ 21) w)) hframe

/-! ### Regions of entries -/

/-- The first `n` entries from `t` on are given by `F`. -/
def Entries (m : Memory) (t : ℕ) (F : ℕ → ℕ) (n : ℕ) : Prop := ∀ i < n, m.load 8 (t + 8 * i) = F i

variable {F : ℕ → ℕ} {v : ℕ}

theorem Entries.store (h : Entries m t F n) (hv : v < 2 ^ 64) :
    Entries (m.store 8 (t + 8 * j) v) t (Function.update F j v) n := by
  intro i hi
  by_cases hij : i = j
  · rw [hij, Function.update_self, load_store_self (w := 8) hv]
  · rw [Function.update_of_ne hij, load_store_of_disjoint (by omega)]
    exact h i hi

/-- An entry stored in two halves, of which the upper one is zero. -/
theorem Entries.store_halves (h : Entries m t F n) (hv : v < 2 ^ 32) :
    Entries ((m.store 4 (t + 8 * j) v).store 4 (t + 8 * j + 4) 0) t (Function.update F j v) n := by
  intro i hi
  by_cases hij : i = j
  · rw [hij, Function.update_self, load_eight, load_store_self (w := 4) (by omega),
      load_store_of_disjoint (.inl (by omega)), load_store_self (w := 4) hv, Nat.mul_zero,
      Nat.add_zero]
  · rw [Function.update_of_ne hij, load_store_of_disjoint (by omega),
      load_store_of_disjoint (by omega)]
    exact h i hi

theorem Entries.frame {R : List (ℕ × ℕ)} (h : Entries m t F n) (he : EqOutside m m' R)
    (hR : ∀ x, t ≤ x → x < t + 8 * n → Outside R x) : Entries m' t F n := by
  intro i hi
  rw [he.load_eq fun x _ _ => hR x (by omega) (by omega)]
  exact h i hi

/-- Zeroed memory. -/
theorem entries_of_holds_zero (h : Holds m t (List.replicate (8 * n) 0)) :
    Entries m t (fun _ => 0) n := by
  intro i hi
  have hbytes : bytes m (t + 8 * i) 8 = List.replicate 8 0 := by
    refine List.ext_getElem? fun k => ?_
    by_cases hk : k < 8
    · rw [getElem?_bytes hk, List.getElem?_replicate, if_pos hk, Nat.add_assoc]
      congr 1
      exact h (8 * i + k) 0 (by rw [List.getElem?_replicate, if_pos (by omega)])
    · rw [List.getElem?_eq_none (by simp; omega), List.getElem?_eq_none (by simp; omega)]
  rw [load, hbytes]
  rfl

/-- The entries of the range of length `i` from `base` on are replaced by those of `g`. -/
def fill (F : ℕ → ℕ) (base : ℕ) (g : ℕ → ℕ) (i : ℕ) : ℕ → ℕ :=
  fun j => if base ≤ j ∧ j < base + i then g (j - base) else F j

@[simp] theorem fill_zero (F : ℕ → ℕ) (base : ℕ) (g : ℕ → ℕ) : fill F base g 0 = F := by
  funext j
  exact if_neg (by omega)

theorem update_fill (F : ℕ → ℕ) (base : ℕ) (g : ℕ → ℕ) (i : ℕ) :
    Function.update (fill F base g i) (base + i) (g i) = fill F base g (i + 1) := by
  funext j
  by_cases hj : j = base + i
  · rw [hj, Function.update_self, fill, if_pos (by omega), Nat.add_sub_cancel_left]
  · rw [Function.update_of_ne hj]
    unfold fill
    by_cases hin : base ≤ j ∧ j < base + i
    · rw [if_pos hin, if_pos (by omega)]
    · rw [if_neg hin, if_neg (by omega)]

theorem fill_inside {base : ℕ} {g : ℕ → ℕ} (hj : j < i) : fill F base g i (base + j) = g j := by
  rw [fill, if_pos (by omega), Nat.add_sub_cancel_left]

theorem fill_outside {base : ℕ} {g : ℕ → ℕ} (hj : j < base ∨ base + i ≤ j) :
    fill F base g i j = F j := if_neg (by omega)

/-- The entry of an address in the table number `k` of a region. -/
theorem Entries.load_index (h : Entries m t F n) (k : ℕ) (hk : 512 * k + 512 ≤ n) :
    m.load 8 (t + 4096 * k + 8 * index level a) = F (512 * k + index level a) := by
  have hlt : index level a < 512 := Nat.mod_lt _ (by omega)
  rw [← h _ (by omega : 512 * k + index level a < n)]
  congr 1
  omega

end Paging
