import Mathlib.Data.Nat.ModEq
import Mathlib.Logic.Function.Basic

/-!
# Queues in a ring

A queue of at most `n - 1` values in a ring of `n` slots, with an index for the next value to come
and one for the next value to go. There is no count: the queue is empty if the two indices are the
same, and it is full if one more value would make them the same.

`Holds` says which values are waiting, in order. It is the abstraction under which the indices
disappear.

## Main results

* `Holds.head_eq_tail_iff`, `Holds.full_iff` — what the indices tell
* `Holds.push`, `Holds.drop` — a value comes, a value goes
-/

/-- The slots, the index where the next value goes, and the index where the next one is taken
from. -/
structure Fifo (α : Type*) where
  /-- The slots. -/
  slot : ℕ → α
  /-- Where the next value goes. -/
  head : ℕ
  /-- Where the next value is taken from. -/
  tail : ℕ

namespace Fifo

variable {α : Type*} {n : ℕ} {q : Fifo α} {l : List α} {x : α}

/-- One more value, unless the indices would become the same. -/
def push (n : ℕ) (q : Fifo α) (x : α) : Fifo α :=
  if (q.head + 1) % n = q.tail then q
  else ⟨Function.update q.slot q.head x, (q.head + 1) % n, q.tail⟩

/-- The first value goes. -/
def drop (n : ℕ) (q : Fifo α) : Fifo α := { q with tail := (q.tail + 1) % n }

/-- The values that are waiting in `q`, the first one first. -/
structure Holds (n : ℕ) (q : Fifo α) (l : List α) : Prop where
  /-- The lower index is one of a slot. -/
  tail_lt : q.tail < n
  /-- One slot is never used. -/
  length_lt : l.length < n
  /-- The upper index is as many slots ahead as there are values. -/
  head_eq : q.head = (q.tail + l.length) % n
  /-- The values are in the slots between the two. -/
  slots : ∀ i x, l[i]? = some x → q.slot ((q.tail + i) % n) = x

theorem Holds.nil (h : q.head = q.tail) (htail : q.tail < n) : Holds n q [] := by
  refine ⟨htail, Nat.lt_of_le_of_lt (Nat.zero_le _) htail, ?_, by simp⟩
  rw [h, List.length_nil, Nat.add_zero, Nat.mod_eq_of_lt htail]

theorem Holds.head_lt (h : Holds n q l) : q.head < n := by
  rw [h.head_eq]
  exact Nat.mod_lt _ (Nat.lt_of_le_of_lt (Nat.zero_le _) h.tail_lt)

/-- Fewer than `n` steps around the ring lead back only if there are none. -/
theorem add_mod_eq_self_iff {a k : ℕ} (ha : a < n) (hk : k < n) : (a + k) % n = a ↔ k = 0 := by
  constructor
  · intro h
    have hmod : a + k ≡ a + 0 [MOD n] := by
      rw [Nat.ModEq, h, Nat.add_zero, Nat.mod_eq_of_lt ha]
    exact Nat.ModEq.eq_of_lt_of_lt (Nat.ModEq.add_left_cancel' a hmod) hk
      (Nat.lt_of_le_of_lt (Nat.zero_le _) hk)
  · rintro rfl
    rw [Nat.add_zero, Nat.mod_eq_of_lt ha]

/-- **Empty.** -/
theorem Holds.head_eq_tail_iff (h : Holds n q l) : q.head = q.tail ↔ l = [] := by
  rw [h.head_eq, add_mod_eq_self_iff h.tail_lt h.length_lt, List.length_eq_zero_iff]

/-- **Full.** -/
theorem Holds.full_iff (h : Holds n q l) : (q.head + 1) % n = q.tail ↔ l.length + 1 = n := by
  rw [h.head_eq, Nat.mod_add_mod, Nat.add_assoc]
  rcases Nat.lt_or_eq_of_le (Nat.succ_le_of_lt h.length_lt) with hlt | heq
  · rw [add_mod_eq_self_iff h.tail_lt hlt]
    exact ⟨nofun, fun hn => absurd hn (Nat.ne_of_lt hlt)⟩
  · have heq' : l.length + 1 = n := heq
    rw [heq', Nat.add_mod_right, Nat.mod_eq_of_lt h.tail_lt]
    exact ⟨fun _ => rfl, fun _ => rfl⟩

theorem Holds.push_of_full (h : Holds n q l) (hfull : l.length + 1 = n) : q.push n x = q := by
  rw [Fifo.push, if_pos (h.full_iff.mpr hfull)]

theorem Holds.push_of_lt (h : Holds n q l) (hroom : l.length + 1 < n) :
    q.push n x = ⟨Function.update q.slot q.head x, (q.head + 1) % n, q.tail⟩ := by
  rw [Fifo.push, if_neg fun hfull => Nat.ne_of_lt hroom (h.full_iff.mp hfull)]

/-- **A value comes.** -/
theorem Holds.push (h : Holds n q l) (hroom : l.length + 1 < n) :
    Holds n (q.push n x) (l ++ [x]) := by
  rw [h.push_of_lt hroom]
  refine ⟨h.tail_lt, by simpa using hroom, ?_, ?_⟩
  · dsimp only
    rw [h.head_eq, Nat.mod_add_mod, List.length_append, List.length_singleton, Nat.add_assoc]
  · intro i y hi
    dsimp only
    rcases Nat.lt_trichotomy i l.length with hlt | rfl | hgt
    · -- an older value: its slot is not the one just written
      have hne : (q.tail + i) % n ≠ q.head := by
        rw [h.head_eq]
        intro heq
        have hmod : i ≡ l.length [MOD n] := Nat.ModEq.add_left_cancel' q.tail heq
        exact Nat.ne_of_lt hlt (Nat.ModEq.eq_of_lt_of_lt hmod (Nat.lt_trans hlt h.length_lt)
          h.length_lt)
      rw [Function.update_of_ne hne]
      exact h.slots i y (by rwa [List.getElem?_append_left hlt] at hi)
    · rw [List.getElem?_concat_length] at hi
      rw [← h.head_eq, Function.update_self]
      exact Option.some.inj hi
    · rw [List.getElem?_eq_none (by rw [List.length_append]; exact hgt)] at hi
      cases hi

/-- The value that goes next. -/
theorem Holds.front (h : Holds n q (x :: l)) : q.slot q.tail = x := by
  have := h.slots 0 x rfl
  rwa [Nat.add_zero, Nat.mod_eq_of_lt h.tail_lt] at this

/-- **A value goes.** -/
theorem Holds.drop (h : Holds n q (x :: l)) : Holds n (q.drop n) l := by
  have hn : 0 < n := Nat.lt_of_le_of_lt (Nat.zero_le _) h.tail_lt
  refine ⟨Nat.mod_lt _ hn, Nat.lt_of_succ_lt h.length_lt, ?_, ?_⟩
  · have hhead := h.head_eq
    rw [List.length_cons] at hhead
    dsimp only [Fifo.drop]
    rw [hhead, Nat.mod_add_mod, Nat.add_assoc, Nat.add_comm 1]
  · intro i y hi
    dsimp only [Fifo.drop]
    rw [Nat.mod_add_mod, Nat.add_assoc, Nat.add_comm 1]
    exact h.slots (i + 1) y (by rwa [List.getElem?_cons_succ])

end Fifo
