import Mathlib.Data.List.DropRight
import Mathlib.Data.Nat.ModEq
import Mathlib.Logic.Function.Basic

/-!
# Rings

A ring of `n` slots keeps the last `n` of the values written to it, whatever their number: value
`i` goes to slot `i % n`. `window` reads them back in order.

A list of distinct recent values, `remember`, is what such a ring is often used for: a value is
added unless it is among the last `n`.

A ring from which values are also taken has a head and a count instead, and `contents` reads it.

## Main results

* `Ring.window_push` — writing a value appends it to the window and drops what no longer fits
* `rtake_remember` — the same for a value that is only added if it is new
* `contents_push`, `contents_push_full` — the same for a ring with a head and a count
-/

namespace Ring

variable {α : Type*} {n count : ℕ} {slot : ℕ → α} {x : α}

/-- The last `n` of `count` values. -/
def window (n : ℕ) (slot : ℕ → α) (count : ℕ) : List α :=
  (List.range' (count - n) (count - (count - n))).map fun i => slot (i % n)

@[simp] theorem length_window (n : ℕ) (slot : ℕ → α) (count : ℕ) :
    (window n slot count).length = count - (count - n) := by
  simp [window]

theorem getElem?_window {i : ℕ} (hi : i < count - (count - n)) :
    (window n slot count)[i]? = some (slot ((count - n + i) % n)) := by
  simp [window, hi]

theorem rtake_concat (l : List α) (n : ℕ) (x : α) :
    (l ++ [x]).rtake n = (l.rtake n ++ [x]).rtake n := by
  simp only [List.rtake, List.length_append, List.length_singleton, List.length_drop]
  by_cases h : l.length ≤ n
  · rw [Nat.sub_eq_zero_of_le h, List.drop_zero, Nat.sub_zero]
  · rw [List.drop_append, List.drop_append, List.drop_drop, List.length_drop]
    congr 2
    · omega
    · omega

/-- **Writing a value.** -/
theorem window_push (hn : 0 < n) :
    window n (Function.update slot (count % n) x) (count + 1) =
      (window n slot count ++ [x]).rtake n := by
  have hlen : (window n slot count ++ [x]).length - n = count + 1 - n - (count - n) := by
    simp only [List.length_append, length_window, List.length_singleton]
    omega
  apply List.ext_getElem?
  intro i
  rw [List.rtake, hlen, List.getElem?_drop]
  rcases Nat.lt_trichotomy i (count - (count + 1 - n)) with hi | hi | hi
  · have hne : (count + 1 - n + i) % n ≠ count % n := by
      intro heq
      have hmod := Nat.sub_mod_eq_zero_of_mod_eq heq.symm
      rw [Nat.mod_eq_of_lt (by omega)] at hmod
      omega
    rw [getElem?_window (by omega), Function.update_of_ne hne,
      List.getElem?_append_left (by rw [length_window]; omega), getElem?_window (by omega)]
    congr 3
    omega
  · rw [getElem?_window (by omega), List.getElem?_append_right (by rw [length_window]; omega),
      length_window, show count + 1 - n + i = count by omega, Function.update_self,
      show count + 1 - n - (count - n) + i - (count - (count - n)) = 0 by omega]
    rfl
  · rw [List.getElem?_eq_none (by rw [length_window]; omega),
      List.getElem?_eq_none (by simp only [List.length_append, length_window,
        List.length_singleton]; omega)]

/-! ### Distinct recent values -/

variable [DecidableEq α]

/-- Add a value unless it is among the last `n`. -/
def remember (n : ℕ) (l : List α) (x : α) : List α := if x ∈ l.rtake n then l else l ++ [x]

theorem length_le_remember (n : ℕ) (l : List α) (x : α) : l.length ≤ (remember n l x).length := by
  unfold remember
  split <;> simp

/-- **The last values after one more.** -/
theorem rtake_remember (n : ℕ) (l : List α) (x : α) :
    (remember n l x).rtake n =
      if x ∈ l.rtake n then l.rtake n else (l.rtake n ++ [x]).rtake n := by
  unfold remember
  split
  · rfl
  · exact rtake_concat l n x

/-! ### A head and a count -/

section Contents

variable {α : Type*} {n head used : ℕ} {slot : ℕ → α} {x : α}

/-- The values in a ring that starts at `head` and has `used` of them. -/
def contents (n : ℕ) (slot : ℕ → α) (head used : ℕ) : List α :=
  (List.range used).map fun i => slot ((head + i) % n)

@[simp] theorem length_contents (n : ℕ) (slot : ℕ → α) (head used : ℕ) :
    (contents n slot head used).length = used := by
  simp [contents]

/-- **A value comes** while there is room. -/
theorem contents_push (hused : used < n) :
    contents n (Function.update slot ((head + used) % n) x) head (used + 1) =
      (contents n slot head used ++ [x]).rtake n := by
  have hall : (contents n slot head used ++ [x]).rtake n = contents n slot head used ++ [x] := by
    rw [List.rtake, List.length_append, length_contents, List.length_singleton,
      Nat.sub_eq_zero_of_le hused, List.drop_zero]
  rw [hall, contents, List.range_succ, List.map_append, List.map_singleton, Function.update_self]
  refine congrArg (· ++ [x]) (List.map_congr_left fun i hi => ?_)
  have hlt := List.mem_range.mp hi
  refine Function.update_of_ne (fun heq => ?_) x slot
  have hmod : i ≡ used [MOD n] := Nat.ModEq.add_left_cancel' head heq
  exact Nat.ne_of_lt hlt (Nat.ModEq.eq_of_lt_of_lt hmod (Nat.lt_trans hlt hused) hused)

/-- **The first value goes.** -/
theorem contents_pop (hhead : head < n) :
    (contents n slot head (used + 1)).head? = some (slot head) ∧
      contents n slot ((head + 1) % n) used = (contents n slot head (used + 1)).tail := by
  have hcons : contents n slot head (used + 1) =
      slot head :: (List.range used).map fun i => slot ((head + (i + 1)) % n) := by
    rw [contents, List.range_succ_eq_map, List.map_cons, List.map_map, Nat.add_zero,
      Nat.mod_eq_of_lt hhead]
    rfl
  rw [hcons]
  refine ⟨rfl, List.map_congr_left fun i _ => ?_⟩
  rw [Nat.mod_add_mod, Nat.add_assoc, Nat.add_comm 1]

/-- **A value comes** and takes the place of the first. -/
theorem contents_push_full (hhead : head < n) :
    contents n (Function.update slot head x) ((head + 1) % n) n =
      (contents n slot head n ++ [x]).rtake n := by
  obtain ⟨k, rfl⟩ : ∃ k, n = k + 1 := ⟨n - 1, by omega⟩
  have hdrop : (contents (k + 1) slot head (k + 1) ++ [x]).rtake (k + 1) =
      (List.range k).map (fun i => slot ((head + (i + 1)) % (k + 1))) ++ [x] := by
    rw [List.rtake, List.length_append, length_contents, List.length_singleton,
      Nat.add_sub_cancel_left, contents, List.range_succ_eq_map, List.map_cons, List.cons_append,
      List.drop_one, List.tail_cons, List.map_map]
    rfl
  have hlast : ((head + 1) % (k + 1) + k) % (k + 1) = head := by
    rw [Nat.mod_add_mod, Nat.add_assoc, Nat.add_comm 1, Nat.add_mod_right, Nat.mod_eq_of_lt hhead]
  rw [hdrop, contents, List.range_succ, List.map_append, List.map_singleton, hlast,
    Function.update_self]
  refine congrArg (· ++ [x]) (List.map_congr_left fun i hi => ?_)
  have hlt := List.mem_range.mp hi
  rw [Nat.mod_add_mod, Nat.add_assoc, Nat.add_comm 1]
  refine Function.update_of_ne (fun heq => ?_) x slot
  have hmod : i + 1 ≡ 0 [MOD k + 1] := by
    refine Nat.ModEq.add_left_cancel' head ?_
    rw [Nat.ModEq, heq, Nat.add_zero, Nat.mod_eq_of_lt hhead]
  have := Nat.ModEq.eq_of_lt_of_lt hmod (by omega) (by omega)
  omega

end Contents

end Ring
