import Mathlib.Data.Set.Lattice
import Mathlib.Logic.Relation
import Mathlib.Order.CompletePartialOrder

/-!
# Pools

What an allocator is for, without how it works. A pool has a set of free resources and a list of
blocks that are out; a block is taken from the free resources, and when it comes back all, some or
none of it becomes free again. An allocator that refines a pool hands out no resource twice.

## Main results

* `Pool.Inv.step` — the invariant is kept by every step
* `Pool.Inv.reaches` — and so by every run
-/

/-- Free resources, and the blocks that are out. -/
structure Pool (α : Type*) where
  /-- What may be handed out. -/
  free : Set α
  /-- What has been handed out and not come back. -/
  live : List (Set α)

namespace Pool

variable {α : Type*} {p q : Pool α} {S : Set α}

/-- The steps of a pool. -/
inductive Step : Pool α → Pool α → Prop
  /-- A block of free resources goes out. -/
  | take {p : Pool α} (b : Set α) (h : b ⊆ p.free) : Step p ⟨p.free \ b, b :: p.live⟩
  /-- A block comes back, and the part `r` of it becomes free. -/
  | release {free r b : Set α} {l₁ l₂ : List (Set α)} (h : r ⊆ b) :
      Step ⟨free, l₁ ++ b :: l₂⟩ ⟨free ∪ r, l₁ ++ l₂⟩

/-- The invariant of a pool of the resources `S`: free resources and blocks come from `S`, no block
has a free resource, and no two blocks have one in common. -/
structure Inv (S : Set α) (p : Pool α) : Prop where
  /-- Free resources come from `S`. -/
  free_subset : p.free ⊆ S
  /-- So do those of the blocks. -/
  live_subset : ∀ b ∈ p.live, b ⊆ S
  /-- What is out is not free. -/
  live_free : ∀ b ∈ p.live, Disjoint b p.free
  /-- Blocks are disjoint. -/
  pairwise : p.live.Pairwise Disjoint

theorem Inv.init (S : Set α) : Inv S ⟨S, []⟩ :=
  ⟨subset_rfl, by simp, by simp, .nil⟩

/-- **One step keeps the invariant.** -/
theorem Inv.step (h : Inv S p) (hs : Step p q) : Inv S q := by
  cases hs with
  | take b hb =>
    refine ⟨fun x hx => h.free_subset hx.1, ?_, ?_, ?_⟩
    · rintro c (_ | ⟨_, hc⟩)
      · exact hb.trans h.free_subset
      · exact h.live_subset c hc
    · rintro c (_ | ⟨_, hc⟩)
      · exact Set.disjoint_sdiff_right
      · exact (h.live_free c hc).mono_right Set.sdiff_subset
    · exact .cons (fun c hc => ((h.live_free c hc).mono_right hb).symm) h.pairwise
  | @release free r b l₁ l₂ hr =>
    have hmem : ∀ c ∈ l₁ ++ l₂, c ∈ l₁ ++ b :: l₂ := by
      intro c hc
      rw [List.mem_append] at hc
      rw [List.mem_append, List.mem_cons]
      rcases hc with hc | hc
      · exact Or.inl hc
      · exact Or.inr (Or.inr hc)
    have hb : b ∈ l₁ ++ b :: l₂ := by simp
    obtain ⟨-, hbl, hcross⟩ := List.pairwise_append.mp h.pairwise
    rw [List.pairwise_cons] at hbl
    have hdis : ∀ c ∈ l₁ ++ l₂, Disjoint c b := by
      intro c hc
      rcases List.mem_append.mp hc with hc | hc
      · exact hcross c hc b (by simp)
      · exact (hbl.1 c hc).symm
    refine ⟨Set.union_subset h.free_subset (hr.trans (h.live_subset b hb)), ?_, ?_, ?_⟩
    · exact fun c hc => h.live_subset c (hmem c hc)
    · intro c hc
      exact Set.disjoint_union_right.mpr ⟨h.live_free c (hmem c hc), (hdis c hc).mono_right hr⟩
    · exact h.pairwise.sublist (List.Sublist.append_left (List.sublist_cons_self b l₂) l₁)

/-- **Every run keeps the invariant.** -/
theorem Inv.reaches (h : Inv S p) (hr : Relation.ReflTransGen Step p q) : Inv S q := by
  induction hr with
  | refl => exact h
  | tail _ hs ih => exact ih.step hs

end Pool
