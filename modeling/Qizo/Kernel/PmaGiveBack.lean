import Qizo.Kernel.PmaCount

/-!
# Frames that are given back

The other direction of the specifications of `pma.c`: an allocation fails only where there is
nothing to allocate, and a run of frames that is taken and freed leaves the bitmap and both
counters as they were.

## Main results

* `pmaAlloc_eq_zero_iff`, `pageAlloc_spec` — the allocations fail only where they must
* `Lacks.keeps_pageFree`, `Lacks.pageFree_first` — one run, or two, given back
-/

namespace Qizo

namespace Pma

/-! ### The allocator finds what there is -/

section Allocator

variable {s s' : State} {f n : ℕ}

/-- What holds of the allocator's variables between any two calls. -/
structure Wf (s : State) : Prop where
  /-- The frames are those of the direct map. -/
  total_le : s.totalFrames ≤ maxFrames
  /-- The search for a frame starts at one. -/
  hint_lt : s.hint < s.totalFrames
  /-- A counter of 64 bits. -/
  free_lt : s.freeFrames < 2 ^ 64
  /-- A counter of 64 bits. -/
  used_lt : s.usedFrames < 2 ^ 64

/-- There are `n` free frames in a row. -/
def HasRun (s : State) (n : ℕ) : Prop := ∃ f, ∀ j < n, frameOk s (f + j) = true

/-- An address of the direct map is not null. -/
theorem physToVirt_ne_zero (hs : Wf s) (hf : frameOk s f = true) :
    physToVirt (f * pageSize) ≠ 0 := by
  rw [physToVirt_eq (Nat.lt_of_lt_of_le (lt_of_frameOk hf) hs.total_le), hhdmVirt]
  omega

theorem frameOf_addr (hs : Wf s) (hf : frameOk s f = true) :
    frameOf (physToVirt (f * pageSize)) = f :=
  frameOf_physToVirt (Nat.lt_of_lt_of_le (lt_of_frameOk hf) hs.total_le)

/-- A search that comes back with nothing has passed no free frame. -/
theorem allocLoop_eq_zero (hs : Wf s) {start fuel i : ℕ} (h : (allocLoop s start fuel i).1 = 0)
    {j : ℕ} (hi : i ≤ j) (hj : j < i + fuel) :
    frameOk s (if s.totalFrames ≤ start + j then start + j - s.totalFrames else start + j) =
      false := by
  induction fuel generalizing i with
  | zero => omega
  | succ fuel ih =>
    rw [allocLoop] at h
    generalize hg :
      (if s.totalFrames ≤ start + i then start + i - s.totalFrames else start + i) = g at h
    cases hok : frameOk s g with
    | true =>
      rw [hok] at h
      exact absurd h (physToVirt_ne_zero hs hok)
    | false =>
      rw [hok] at h
      by_cases hij : i = j
      · rw [← hij, hg, hok]
      · exact ih h (by omega) (by omega)

/-- **`qizo_pma_alloc` fails only where no frame is free.** -/
theorem pmaAlloc_eq_zero_iff (hs : Wf s) : (pmaAlloc s).1 = 0 ↔ ∀ f, frameOk s f = false := by
  constructor
  · intro h f
    by_cases hf : f < s.totalFrames
    · have hhint := hs.hint_lt
      -- The pass at which the search looks at this frame.
      rcases Nat.lt_or_ge f s.hint with hlt | hge
      · have := allocLoop_eq_zero hs h (j := f + s.totalFrames - s.hint) (by omega) (by omega)
        rwa [if_pos (by omega), show s.hint + (f + s.totalFrames - s.hint) - s.totalFrames = f by
          omega] at this
      · have := allocLoop_eq_zero hs h (j := f - s.hint) (by omega) (by omega)
        rwa [if_neg (by omega), show s.hint + (f - s.hint) = f by omega] at this
    · rw [frameOk, if_pos (by omega)]
  · intro h
    rcases pmaAlloc_cases s with hnone | ⟨f, hf, -⟩
    · rw [hnone]
    · rw [h f] at hf
      exact absurd hf (by decide)

/-- The search for a run does not pass one. -/
theorem runLoop_complete {fuel i first run : ℕ} (hf : ∀ j < n, frameOk s (f + j) = true)
    (hrun : run < n) (hi : i ≤ f + run) (hfuel : f + n ≤ i + fuel) :
    (runLoop s n fuel i first run).2 = n := by
  induction fuel generalizing i first run with
  | zero => omega
  | succ fuel ih =>
    rw [runLoop]
    cases hok : frameOk s i with
    | true =>
      rw [if_pos rfl]
      dsimp only
      by_cases hn : run + 1 = n
      · rw [if_pos hn, hn]
      · rw [if_neg hn]
        exact ih (by omega) (by omega) (by omega)
    | false =>
      rw [if_neg (by decide)]
      have hlt : i < f := by
        by_contra hge
        have := hf (i - f) (by omega)
        rw [show f + (i - f) = i by omega, hok] at this
        exact absurd this (by decide)
      exact ih (by omega) (by omega) (by omega)

/-- **`qizo_page_alloc` fails only where there is no run of free frames.** -/
theorem pageAlloc_spec (hs : Wf s) (n : ℕ) :
    ¬HasRun s (atLeastOne n) ∧ pageAlloc s n = (0, s) ∨
      ∃ f, (∀ j < atLeastOne n, frameOk s (f + j) = true) ∧
        pageAlloc s n = (physToVirt (f * pageSize), takeRun s f (atLeastOne n)) ∧
        physToVirt (f * pageSize) ≠ 0 ∧ frameOf (physToVirt (f * pageSize)) = f := by
  have hpos : 0 < atLeastOne n := by
    unfold atLeastOne
    split <;> omega
  rcases pageAlloc_cases s n with hnone | ⟨f, hf, hsome⟩
  · refine .inl ⟨?_, hnone⟩
    rintro ⟨f, hf⟩
    have hlast := lt_of_frameOk (hf (atLeastOne n - 1) (by omega))
    have hrun := @runLoop_complete s _ _ s.totalFrames 0 0 _ hf hpos (by omega) (by omega)
    rw [pageAlloc] at hnone
    dsimp only at hnone
    rw [if_neg (by omega)] at hnone
    have hfirst := @runLoop_free s (atLeastOne n) s.totalFrames 0 0 _
      (fun h => absurd rfl h) (fun j hj => absurd hj (Nat.not_lt_zero j))
      0 (by omega)
    exact physToVirt_ne_zero hs hfirst (congrArg Prod.fst hnone)
  · have hfirst := hf 0 hpos
    exact .inr ⟨f, hf, hsome, physToVirt_ne_zero hs hfirst, frameOf_addr hs hfirst⟩

theorem Wf.takeRun (hs : Wf s) : Wf (takeRun s f n) where
  total_le := by rw [takeRun_totalFrames]; exact hs.total_le
  hint_lt := by
    have hhint : (Pma.takeRun s f n).hint = s.hint := foldl_mark_hint
    rw [takeRun_totalFrames, hhint]
    exact hs.hint_lt
  free_lt := Nat.mod_lt _ (by decide)
  used_lt := Nat.mod_lt _ (by decide)

theorem Wf.takeFrame (hs : Wf s) {f : ℕ} : Wf (takeFrame s f) where
  total_le := by rw [takeFrame_totalFrames]; exact hs.total_le
  hint_lt := by
    have := hs.hint_lt
    rw [takeFrame_totalFrames, Pma.takeFrame]
    dsimp only
    split <;> omega
  free_lt := by
    have := hs.free_lt
    rw [Pma.takeFrame]
    dsimp only
    split <;> omega
  used_lt := Nat.mod_lt _ (by decide)

theorem Wf.pageAlloc (hs : Wf s) (n : ℕ) : Wf (pageAlloc s n).2 := by
  rcases pageAlloc_cases s n with hnone | ⟨f, -, hsome⟩
  · rw [hnone]
    exact hs
  · rw [hsome]
    exact hs.takeRun

theorem Wf.pageFree (hs : Wf s) (a n : ℕ) : Wf (pageFree s a n) := by
  rw [Pma.pageFree]
  split
  · exact hs
  · refine ⟨?_, ?_, Nat.mod_lt _ (by decide), Nat.mod_lt _ (by decide)⟩
    · exact foldl_mark_totalFrames.trans_le hs.total_le
    · exact foldl_mark_hint.trans_lt (hs.hint_lt.trans_eq foldl_mark_totalFrames.symm)

theorem wf_pmaInit (sym : Symbols) (info : Option BootInfo) : Wf (pmaInit sym info) where
  total_le := pmaInit_totalFrames_le
  hint_lt := by
    have htop := minUsable_le_topOf info
    have hhint : (pmaInit sym info).hint = 0 := rfl
    rw [minUsable_eq] at htop
    rw [hhint, pmaInit_totalFrames, pageSize]
    omega
  free_lt := by
    have hle : (pmaInit sym info).freeFrames ≤ maxFrames := countFree_init_le
    rw [maxFrames_eq] at hle
    omega
  used_lt := by
    have hused : (pmaInit sym info).usedFrames = 0 := rfl
    omega

/-! ### Giving back -/

/-- The bitmap and the counters are as they were. -/
def Keeps (s s' : State) : Prop :=
  s'.bitmap = s.bitmap ∧ s'.freeFrames = s.freeFrames ∧ s'.usedFrames = s.usedFrames

/-- Marking frames does not reach the bits behind the last frame. -/
theorem test_foldl_mark {good : Bool} {l : List ℕ} {k : ℕ} (hk : s.totalFrames ≤ k) :
    (l.foldl (mark good) s).bitmap.test k = s.bitmap.test k := by
  induction l generalizing s with
  | nil => rfl
  | cons f l ih =>
    rw [List.foldl_cons, ih (by rwa [mark_totalFrames]), mark]
    split
    · rfl
    · dsimp only
      split
      · rw [Bitmap.test_set, decide_eq_false (by omega), Bool.false_or]
      · rw [Bitmap.test_clear, decide_eq_false (by omega), Bool.not_false, Bool.true_and]

/-- Two bitmaps with the same frames, and the same bits behind them, are the same. -/
theorem bitmap_eq (htotal : s'.totalFrames = s.totalFrames)
    (hok : ∀ k, frameOk s' k = frameOk s k)
    (hhigh : ∀ k, s.totalFrames ≤ k → s'.bitmap.test k = s.bitmap.test k) :
    s'.bitmap = s.bitmap := by
  refine Bitmap.ext_test fun k => ?_
  by_cases hk : s.totalFrames ≤ k
  · exact hhigh k hk
  · have := hok k
    rwa [frameOk, frameOk, htotal, if_neg hk, if_neg hk] at this

/-- The second state is the first without the `n` frames from `f` on. -/
structure Lacks (s : State) (f n : ℕ) (s' : State) : Prop where
  /-- As many frames. -/
  total : s'.totalFrames = s.totalFrames
  /-- The frames are taken. -/
  ok : ∀ k, frameOk s' k = if f ≤ k ∧ k < f + n then false else frameOk s k
  /-- The bits behind the last frame are as they were. -/
  high : ∀ k, s.totalFrames ≤ k → s'.bitmap.test k = s.bitmap.test k
  /-- The free frames. -/
  free : s'.freeFrames = sub64 s.freeFrames n
  /-- The used frames. -/
  used : s'.usedFrames = u64 (s.usedFrames + n)

/-- A run of free frames is taken. -/
theorem lacks_takeRun (hf : ∀ j < n, frameOk s (f + j) = true) : Lacks s f n (takeRun s f n) where
  total := takeRun_totalFrames
  ok k := by
    rw [frameOk_takeRun]
    by_cases hk : f ≤ k ∧ k < f + n
    · have hfk := lt_of_frameOk (hf (k - f) (by omega))
      rw [if_pos ⟨hk, by omega⟩, if_pos hk]
    · rw [if_neg (fun h => hk h.1), if_neg hk]
  high k hk := test_foldl_mark hk
  free := by rw [takeRun]; dsimp only; rw [foldl_mark_freeFrames]
  used := by rw [takeRun]; dsimp only; rw [foldl_mark_usedFrames]

variable {a g : ℕ}

/-- What was taken and is given back is there again. -/
theorem Lacks.keeps_pageFree (h : Lacks s f n s') (hs : Wf s)
    (hf : ∀ j < n, frameOk s (f + j) = true) (ha : a ≠ 0) (haf : frameOf a = f) :
    Keeps s (pageFree s' a n) := by
  have hfree_lt := hs.free_lt
  have hused_lt := hs.used_lt
  refine ⟨bitmap_eq (by rw [pageFree_totalFrames, h.total]) (fun k => ?_) (fun k hk => ?_), ?_, ?_⟩
  · rw [frameOk_pageFree ha, haf, h.total, h.ok]
    by_cases hk : f ≤ k ∧ k < f + n
    · have hfk := hf (k - f) (by omega)
      rw [show f + (k - f) = k by omega] at hfk
      rw [if_pos ⟨hk, lt_of_frameOk hfk⟩, hfk]
    · rw [if_neg (fun h => hk h.1), if_neg hk]
  · rw [pageFree, if_neg ha]
    exact (test_foldl_mark (by rw [h.total]; exact hk)).trans (h.high k hk)
  · rw [pageFree, if_neg ha]
    dsimp only
    rw [foldl_mark_freeFrames, h.free, u64, sub64]
    omega
  · rw [pageFree, if_neg ha]
    dsimp only
    rw [foldl_mark_usedFrames, h.used, u64, sub64]
    omega

/-- Of two runs that were taken the first is given back. -/
theorem Lacks.pageFree_first {s₁ s₂ : State} (h₁ : Lacks s f n s₁) (h₂ : Lacks s₁ g n s₂)
    (hf : ∀ j < n, frameOk s (f + j) = true) (hg : ∀ j < n, frameOk s₁ (g + j) = true)
    (ha : a ≠ 0) (haf : frameOf a = f) : Lacks s g n (pageFree s₂ a n) where
  total := by rw [pageFree_totalFrames, h₂.total, h₁.total]
  ok k := by
    rw [frameOk_pageFree ha, haf, h₂.total, h₁.total, h₂.ok, h₁.ok]
    by_cases hk : f ≤ k ∧ k < f + n
    · have hfk := hf (k - f) (by omega)
      rw [show f + (k - f) = k by omega] at hfk
      -- The two runs do not meet.
      have hgk : ¬(g ≤ k ∧ k < g + n) := by
        intro hgk
        have := hg (k - g) (by omega)
        rw [show g + (k - g) = k by omega, h₁.ok, if_pos hk] at this
        exact absurd this (by decide)
      rw [if_pos ⟨hk, lt_of_frameOk hfk⟩, if_neg hgk, hfk]
    · rw [if_neg (fun h => hk h.1), if_neg hk]
  high k hk := by
    rw [pageFree, if_neg ha]
    have hk₁ : s₁.totalFrames ≤ k := by rw [h₁.total]; exact hk
    exact ((test_foldl_mark (by rw [h₂.total]; exact hk₁)).trans (h₂.high k hk₁)).trans
      (h₁.high k hk)
  free := by
    rw [pageFree, if_neg ha]
    dsimp only
    rw [foldl_mark_freeFrames, h₂.free, h₁.free, u64, sub64, sub64]
    omega
  used := by
    rw [pageFree, if_neg ha]
    dsimp only
    rw [foldl_mark_usedFrames, h₂.used, h₁.used]
    simp only [u64, sub64]
    omega

theorem Keeps.frameOk_eq (h : Keeps s s') (htotal : s'.totalFrames = s.totalFrames) (k : ℕ) :
    frameOk s' k = frameOk s k := by
  rw [frameOk, frameOk, htotal, h.1]

/-- What is missing has not been kept. -/
theorem not_keeps_of_lost (htotal : s'.totalFrames = s.totalFrames) (hf : frameOk s f = true)
    (hlost : frameOk s' f = false) : ¬Keeps s s' := by
  intro h
  rw [h.frameOk_eq htotal, hf] at hlost
  exact absurd hlost (by decide)

end Allocator

end Pma

end Qizo
