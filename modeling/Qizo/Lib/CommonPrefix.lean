import Mathlib.Data.List.Infix

/-!
# Common prefixes

Lists are ordered by the relation of being a prefix, and any two have a greatest lower bound, the
longest list that is a prefix of both. So has every non-empty family of lists, and it can be
computed by taking the members one after the other.
-/

namespace CommonPrefix

variable {α : Type*} {a b p x : List α} {S : List (List α)}

/-- `p` is the longest common prefix of the members of `S`. -/
structure Longest (p : List α) (S : List (List α)) : Prop where
  isPrefix : ∀ x ∈ S, p <+: x
  greatest : ∀ q, (∀ x ∈ S, q <+: x) → q <+: p

theorem Longest.singleton (x : List α) : Longest x [x] where
  isPrefix _ h := List.mem_singleton.mp h ▸ List.prefix_rfl
  greatest _ h := h x (List.mem_singleton_self x)

variable [DecidableEq α]

/-- The longest common prefix of two lists. -/
def common : List α → List α → List α
  | x :: a, y :: b => if x = y then x :: common a b else []
  | _, _ => []

@[simp] theorem common_nil_left (b : List α) : common [] b = [] := rfl

@[simp] theorem common_nil_right (a : List α) : common a [] = [] := by cases a <;> rfl

theorem common_cons_self (x : α) (a b : List α) : common (x :: a) (x :: b) = x :: common a b :=
  if_pos rfl

theorem common_cons_of_ne {x y : α} (h : x ≠ y) : common (x :: a) (y :: b) = [] := if_neg h

/-- **It is the greatest lower bound.** -/
theorem prefix_common_iff {q : List α} : q <+: common a b ↔ q <+: a ∧ q <+: b := by
  induction a generalizing b q with
  | nil =>
    rw [common_nil_left]
    exact ⟨fun h => ⟨h, h.trans (List.nil_prefix)⟩, fun h => h.1⟩
  | cons x a ih =>
    cases b with
    | nil =>
      rw [common_nil_right]
      exact ⟨fun h => ⟨h.trans List.nil_prefix, h⟩, fun h => h.2⟩
    | cons y b =>
      cases q with
      | nil => exact iff_of_true List.nil_prefix ⟨List.nil_prefix, List.nil_prefix⟩
      | cons z q =>
        by_cases hxy : x = y
        · subst hxy
          rw [common_cons_self, List.cons_prefix_cons, List.cons_prefix_cons,
            List.cons_prefix_cons, ih]
          tauto
        · rw [common_cons_of_ne hxy, List.cons_prefix_cons, List.cons_prefix_cons]
          refine iff_of_false (fun h => ?_) fun h => hxy (h.1.1.symm.trans h.2.1)
          cases List.prefix_nil.mp h

theorem common_prefix_left (a b : List α) : common a b <+: a :=
  (prefix_common_iff.mp List.prefix_rfl).1

theorem common_prefix_right (a b : List α) : common a b <+: b :=
  (prefix_common_iff.mp List.prefix_rfl).2

/-- One more member. -/
theorem Longest.concat (h : Longest p S) (x : List α) : Longest (common p x) (S ++ [x]) where
  isPrefix y hy := by
    rcases List.mem_append.mp hy with hy | hy
    · exact (common_prefix_left p x).trans (h.isPrefix y hy)
    · rw [List.mem_singleton.mp hy]
      exact common_prefix_right p x
  greatest q hq := by
    refine prefix_common_iff.mpr ⟨h.greatest q fun y hy => ?_, ?_⟩
    · exact hq y (List.mem_append_left _ hy)
    · exact hq x (List.mem_append_right _ (List.mem_singleton_self x))

end CommonPrefix
