import Qizo.Kernel.PmaRuns
import Mathlib.Data.Finset.Card
import Mathlib.Order.Interval.Finset.Nat

/-!
# The counters of the frame allocator

`free_frames` counts the frames marked free and `used_frames` the others that were free at the
start. Three of the four operations keep both exact. `qizo_pma_free` tests the bitmap the wrong way
round: on a frame in use it does nothing, and on a frame that is free it moves both counters while
the bitmap stays.

## Main results

* `Exact.step` — a call keeps the counters exact unless it frees a free frame
* `not_exact_pmaFree` — and then it does not
-/

namespace Qizo

namespace Pma

variable {sym : Symbols} {info : Option BootInfo} {s : State} {x y : Sys} {op : Op} {f n : ℕ}

/-! ### Counting -/

/-- The frames marked free. -/
def freeSet (s : State) : Finset ℕ :=
  (Finset.range s.totalFrames).filter fun k => frameOk s k = true

theorem mem_freeSet {k : ℕ} : k ∈ freeSet s ↔ frameOk s k = true := by
  rw [freeSet, Finset.mem_filter, Finset.mem_range]
  exact ⟨fun h => h.2, fun h => ⟨lt_of_frameOk h, h⟩⟩

theorem countP_range (p : ℕ → Bool) (n : ℕ) :
    (List.range n).countP p = ((Finset.range n).filter fun k => p k = true).card := by
  induction n with
  | zero => rfl
  | succ n ih =>
    rw [List.range_succ, List.countP_append, ih, Finset.range_add_one, Finset.filter_insert]
    cases hp : p n with
    | true => rw [if_pos rfl, Finset.card_insert_of_notMem (by simp)]; simp [hp]
    | false => simp [hp]

theorem countFree_eq (s : State) : countFree s = (freeSet s).card := countP_range _ _

theorem countFree_congr {s s' : State} (h : ∀ k, frameOk s' k = frameOk s k) :
    countFree s' = countFree s := by
  rw [countFree_eq, countFree_eq]
  congr 1
  ext k
  rw [mem_freeSet, mem_freeSet, h]

/-- Taking free frames away. -/
theorem countFree_take {s s' : State} (hfree : ∀ k, f ≤ k → k < f + n → frameOk s k = true)
    (h : ∀ k, frameOk s' k = true ↔ frameOk s k = true ∧ ¬ (f ≤ k ∧ k < f + n)) :
    countFree s' + n = countFree s := by
  have hsub : Finset.Ico f (f + n) ⊆ freeSet s := by
    intro k hk
    rw [Finset.mem_Ico] at hk
    exact mem_freeSet.mpr (hfree k hk.1 hk.2)
  have hset : freeSet s' = freeSet s \ Finset.Ico f (f + n) := by
    ext k
    rw [Finset.mem_sdiff, mem_freeSet, mem_freeSet, Finset.mem_Ico, h]
  have hcard := Finset.card_sdiff_add_card_eq_card hsub
  rw [Nat.card_Ico, Nat.add_sub_cancel_left] at hcard
  rw [countFree_eq, countFree_eq, hset, hcard]

theorem frameOk_takeFrame_iff {k : ℕ} (hf : frameOk s f = true) :
    frameOk (takeFrame s f) k = true ↔ frameOk s k = true ∧ ¬ (f ≤ k ∧ k < f + 1) := by
  have := lt_of_frameOk hf
  rw [frameOk_takeFrame]
  by_cases hk : k = f
  · subst hk
    simp [this]
  · rw [if_neg fun h => hk h.1]
    exact ⟨fun h => ⟨h, by omega⟩, fun h => h.1⟩

theorem frameOk_takeRun_iff {k : ℕ} (hf : ∀ k, f ≤ k → k < f + n → frameOk s k = true) :
    frameOk (takeRun s f n) k = true ↔ frameOk s k = true ∧ ¬ (f ≤ k ∧ k < f + n) := by
  rw [frameOk_takeRun]
  by_cases hk : f ≤ k ∧ k < f + n
  · rw [if_pos ⟨hk, lt_of_frameOk (hf k hk.1 hk.2)⟩]
    simp [hk]
  · rw [if_neg fun h => hk h.1]
    simp [hk]

/-! ### Exact counters -/

/-- The counters are exact: `free_frames` is the number of frames marked free, and together with
`used_frames` it is the number of frames free right after `qizo_pma_init`. -/
def Exact (sym : Symbols) (info : Option BootInfo) (s : State) : Prop :=
  s.freeFrames = countFree s ∧ s.freeFrames + s.usedFrames = countFree (pmaInit sym info)

theorem Exact.init (sym : Symbols) (info : Option BootInfo) : Exact sym info (pmaInit sym info) :=
  ⟨rfl, rfl⟩

theorem countFree_le_total (s : State) : countFree s ≤ s.totalFrames := by
  exact Nat.le_trans List.countP_le_length (Nat.le_of_eq List.length_range)

theorem countFree_init_le : countFree (pmaInit sym info) ≤ maxFrames :=
  Nat.le_trans (countFree_le_total _) pmaInit_totalFrames_le

theorem Exact.takeFrame (h : Exact sym info s) (hf : frameOk s f = true) :
    Exact sym info (takeFrame s f) := by
  obtain ⟨hfree, hsum⟩ := h
  have hcount : countFree (Pma.takeFrame s f) + 1 = countFree s :=
    countFree_take (fun k h1 h2 => by rw [show k = f by omega]; exact hf)
      fun k => frameOk_takeFrame_iff hf
  have hle := @countFree_init_le sym info
  rw [maxFrames_eq] at hle
  have h1 : (Pma.takeFrame s f).freeFrames = s.freeFrames - 1 := by
    rw [Pma.takeFrame]
    dsimp only
    split <;> omega
  have h2 : (Pma.takeFrame s f).usedFrames = s.usedFrames + 1 := by
    rw [Pma.takeFrame]
    exact Nat.mod_eq_of_lt (by omega)
  exact ⟨by omega, by omega⟩

theorem Exact.takeRun (h : Exact sym info s)
    (hf : ∀ k, f ≤ k → k < f + n → frameOk s k = true) : Exact sym info (takeRun s f n) := by
  obtain ⟨hfree, hsum⟩ := h
  have hcount : countFree (Pma.takeRun s f n) + n = countFree s :=
    countFree_take hf fun k => frameOk_takeRun_iff hf
  have hle := @countFree_init_le sym info
  rw [maxFrames_eq] at hle
  have h1 : (Pma.takeRun s f n).freeFrames = s.freeFrames - n := by
    rw [Pma.takeRun]
    dsimp only
    rw [foldl_mark_freeFrames, sub64]
    omega
  have h2 : (Pma.takeRun s f n).usedFrames = s.usedFrames + n := by
    rw [Pma.takeRun]
    dsimp only
    rw [foldl_mark_usedFrames, u64]
    omega
  exact ⟨by omega, by omega⟩

/-- Frames given back: they were free at the start and are not free now. -/
theorem Exact.pageFree {p : ℕ} (h : Exact sym info s) (hp : p ≠ 0)
    (hsub : ∀ k, frameOk s k = true → frameOk (pmaInit sym info) k = true)
    (hinit : ∀ k, frameOf p ≤ k → k < frameOf p + n → frameOk (pmaInit sym info) k = true)
    (hused : ∀ k, frameOf p ≤ k → k < frameOf p + n → frameOk s k = false)
    (htotal : s.totalFrames = (pmaInit sym info).totalFrames) :
    Exact sym info (pageFree s p n) := by
  obtain ⟨hfree, hsum⟩ := h
  have hok : ∀ k, frameOk (Pma.pageFree s p n) k = true ↔
      frameOk s k = true ∨ frameOf p ≤ k ∧ k < frameOf p + n := by
    intro k
    rw [frameOk_pageFree hp]
    by_cases hk : frameOf p ≤ k ∧ k < frameOf p + n
    · rw [if_pos ⟨hk, htotal ▸ lt_of_frameOk (hinit k hk.1 hk.2)⟩]
      simp [hk]
    · rw [if_neg fun h => hk h.1]
      simp [hk]
  have hcount : countFree s + n = countFree (Pma.pageFree s p n) := by
    refine countFree_take (f := frameOf p) (fun k h1 h2 => (hok k).mpr (Or.inr ⟨h1, h2⟩))
      fun k => ?_
    rw [hok]
    constructor
    · intro hk
      refine ⟨Or.inl hk, fun hr => ?_⟩
      rw [hused k hr.1 hr.2] at hk
      cases hk
    · rintro ⟨hk | hk, hn⟩
      · exact hk
      · exact absurd hk hn
  have hle : countFree (Pma.pageFree s p n) ≤ countFree (pmaInit sym info) := by
    rw [countFree_eq, countFree_eq]
    refine Finset.card_le_card fun k hk => ?_
    rw [mem_freeSet] at hk ⊢
    rcases (hok k).mp hk with hk | hk
    · exact hsub k hk
    · exact hinit k hk.1 hk.2
  have hmax := @countFree_init_le sym info
  rw [maxFrames_eq] at hmax
  have h1 : (Pma.pageFree s p n).freeFrames = s.freeFrames + n := by
    rw [Pma.pageFree, if_neg hp]
    dsimp only
    rw [foldl_mark_freeFrames, u64]
    omega
  have h2 : (Pma.pageFree s p n).usedFrames = s.usedFrames - n := by
    rw [Pma.pageFree, if_neg hp]
    dsimp only
    rw [foldl_mark_usedFrames, sub64]
    omega
  exact ⟨by omega, by omega⟩

/-! ### One call -/

/-- The call frees a frame that is marked free. -/
def FreesFree (s : State) : Op → Prop
  | .pmaFree a => hhdmVirt ≤ a ∧ frameOk s (frameOf a) = true
  | _ => False

/-- **A call keeps the counters exact** unless it frees a free frame. -/
theorem Exact.step (hx : Exact sym info x.st) (h : RunInv sym info x) (hs : x.step op = some y)
    (hop : ¬ FreesFree x.st op) : Exact sym info y.st := by
  cases op with
  | pmaAlloc =>
    cases hs
    dsimp only
    rcases pmaAlloc_cases x.st with ha | ⟨f, hf, ha⟩
    · rw [ha]
      exact hx
    · rw [ha]
      exact hx.takeFrame hf
  | pageAlloc n =>
    cases hs
    dsimp only
    rcases pageAlloc_cases x.st n with ha | ⟨f, hf, ha⟩
    · rw [ha]
      exact hx
    · rw [ha]
      refine hx.takeRun fun k h1 h2 => ?_
      have := hf (k - f) (by omega)
      rwa [Nat.add_sub_cancel' h1] at this
  | pmaFree a =>
    cases hs
    dsimp only
    rcases pmaFree_cases x.st a with ha | ⟨hlow, hf, -⟩
    · rw [ha]
      exact hx
    · exact absurd ⟨hlow, hf⟩ hop
  | pageFree p n =>
    rw [Sys.step] at hs
    split at hs
    · next hb =>
      cases hs
      obtain ⟨b, hm, hp, hn⟩ := hb
      obtain ⟨hframe, hne⟩ := h.frameOf_addr hm
      have hle : n ≤ b.pages := b.le_pages hn
      have hfr : ∀ k, frameOf p ≤ k → k < frameOf p + n → k ∈ b.frames := by
        intro k h1 h2
        rw [← hp, hframe] at h1 h2
        exact ⟨h1, by omega⟩
      refine hx.pageFree (hp ▸ hne) (fun k hk => h.frameOk_init hk)
        (fun k h1 h2 => h.live_init hm (hfr k h1 h2)) (fun k h1 h2 => ?_) h.total
      exact h.frameOk_live hm (hfr k h1 h2)
    · cases hs

/-- Marking a range in use never frees a frame. -/
theorem frameOk_of_markRange_false {base len k : ℕ}
    (h : frameOk (markRange s base len false) k = true) : frameOk s k = true := by
  rw [markRange, frameOk_foldl_mark] at h
  split at h
  · cases h
  · exact h

/-- The first frame is never free. -/
theorem frameOk_pmaInit_zero (sym : Symbols) (info : Option BootInfo) :
    frameOk (pmaInit sym info) 0 = false := by
  refine Bool.eq_false_iff.mpr fun h => ?_
  rw [pmaInit, frameOk_resetCounters, markedState, reserve] at h
  have hlow : ∀ s : State, frameOk (markRange s 0 (1024 * 1024) false) 0 ≠ true := by
    intro s hs
    exact ((frameOk_markRange_false (by decide)).mp hs).2 (by decide)
  cases info with
  | none => exact hlow _ (frameOk_of_markRange_false h)
  | some b =>
    rw [reserveLoaded] at h
    split at h
    · exact hlow _ (frameOk_of_markRange_false
        (frameOk_of_markRange_false (frameOk_of_markRange_false h)))
    · exact hlow _ (frameOk_of_markRange_false (frameOk_of_markRange_false h))

/-- There is always a frame that is not free. -/
theorem RunInv.countFree_lt (h : RunInv sym info x) : countFree x.st < x.st.totalFrames := by
  have h0 : 0 < x.st.totalFrames := by
    rw [h.total, pmaInit_totalFrames]
    exact Nat.div_pos (Nat.le_trans (by decide) (minUsable_le_topOf info)) (by decide)
  rw [countFree_eq]
  refine Nat.lt_of_lt_of_eq (Finset.card_lt_card ?_) (Finset.card_range x.st.totalFrames)
  refine Finset.ssubset_iff_subset_ne.mpr ⟨Finset.filter_subset _ _, fun heq => ?_⟩
  have hmem : 0 ∈ freeSet x.st := by
    rw [heq]
    exact Finset.mem_range.mpr h0
  have hzero := h.frameOk_init (mem_freeSet.mp hmem)
  rw [frameOk_pmaInit_zero] at hzero
  cases hzero

/-- **Freeing a free frame breaks the count.** -/
theorem not_exact_pmaFree {a : ℕ} (hx : Exact sym info x.st) (h : RunInv sym info x)
    (ha : FreesFree x.st (.pmaFree a)) : ¬ Exact sym info (pmaFree x.st a) := by
  rintro ⟨hfree, -⟩
  have hcount : countFree (pmaFree x.st a) = countFree x.st :=
    countFree_congr fun k => frameOk_pmaFree
  have hlt : x.st.freeFrames < x.st.totalFrames := by
    rw [hx.1]
    exact h.countFree_lt
  rw [hcount, ← hx.1] at hfree
  rw [pmaFree_of_frameOk ha.1 ha.2] at hfree
  dsimp only at hfree
  rw [if_pos hlt] at hfree
  omega

/-! ### Runs -/

/-- In a run without a call that frees a free frame the counters stay exact. -/
theorem Exact.run {ops : List Op} (hx : Exact sym info x.st) (h : RunInv sym info x)
    (hr : x.run ops = some y)
    (hops : ∀ pre op, pre ++ [op] <+: ops → ∀ z, x.run pre = some z → ¬ FreesFree z.st op) :
    Exact sym info y.st := by
  induction ops generalizing x with
  | nil => cases hr; exact hx
  | cons op ops ih =>
    rw [Sys.run, Option.bind_eq_some_iff] at hr
    obtain ⟨z, hz, hr⟩ := hr
    have hop : ¬ FreesFree x.st op := hops [] op (by simp) x rfl
    refine ih (hx.step h hz hop) (h.step hz) hr fun pre op' hpre w hw => ?_
    refine hops (op :: pre) op' (by simpa using hpre) w ?_
    rw [Sys.run, hz]
    exact hw

theorem Sys.run_concat {pre : List Op} (hpre : x.run pre = some y) :
    x.run (pre ++ [op]) = y.step op := by
  induction pre generalizing x with
  | nil =>
    cases hpre
    rw [List.nil_append, Sys.run]
    cases y.step op <;> rfl
  | cons op' pre ih =>
    rw [Sys.run, Option.bind_eq_some_iff] at hpre
    obtain ⟨z, hz, hpre⟩ := hpre
    rw [List.cons_append, Sys.run, hz]
    exact ih hpre

/-- **When the accounting is exact.** In a run after `qizo_pma_init` the counters are exact at every
point if and only if no call of `qizo_pma_free` is given a frame that is marked free at that
moment. -/
theorem exact_iff_no_freesFree (sym : Symbols) (info : Option BootInfo) (ops : List Op) :
    (∀ pre, pre <+: ops → ∀ y, (Sys.init sym info).run pre = some y → Exact sym info y.st) ↔
    ∀ pre a, pre ++ [.pmaFree a] <+: ops → ∀ y, (Sys.init sym info).run pre = some y →
      ¬ (hhdmVirt ≤ a ∧ frameOk y.st (frameOf a) = true) := by
  have h0 := RunInv.init sym info
  constructor
  · intro hex pre a hpre y hy hfree
    have hpre' : pre <+: ops := (List.prefix_append pre _).trans hpre
    refine not_exact_pmaFree (hex pre hpre' y hy) (h0.run hy) hfree ?_
    exact hex _ hpre ⟨pmaFree y.st a, _⟩ (Sys.run_concat hy)
  · intro hops pre hpre y hy
    refine Exact.run (.init sym info) h0 hy fun pre' op hpre' z hz hfree => ?_
    cases op with
    | pmaFree a => exact hops pre' a (hpre'.trans hpre) z hz hfree
    | _ => exact hfree

theorem Sys.run_pmaFree (sym : Symbols) (info : Option BootInfo) (a : ℕ) :
    (Sys.init sym info).run [.pmaFree a] = some ⟨pmaFree (pmaInit sym info) a, []⟩ := rfl

/-- **A run whose counters are off**: `qizo_pma_free` on a frame that is free right after
`qizo_pma_init`. -/
theorem not_exact_of_free_frame :
    ¬ ∀ (sym : Symbols) (info : Option BootInfo) (ops : List Op) (x : Sys),
      (Sys.init sym info).run ops = some x → Exact sym info x.st := by
  intro h
  have hlt : 0x1000 < maxFrames := by decide
  obtain ⟨a, hfree⟩ : ∃ a, hhdmVirt ≤ a ∧
      frameOk (pmaInit linkedSymbols (some holedInfo)) (frameOf a) = true := by
    refine ⟨physToVirt (0x1000 * pageSize), ?_, ?_⟩
    · rw [physToVirt_eq hlt]
      exact Nat.le_add_right _ _
    · rw [frameOf_physToVirt hlt]
      exact holedInfo_frameOk _ (by decide) (by decide)
  exact not_exact_pmaFree (x := Sys.init linkedSymbols (some holedInfo)) (.init _ _) (.init _ _)
    hfree (h _ _ _ _ (Sys.run_pmaFree linkedSymbols (some holedInfo) a))

end Pma

end Qizo
