import Qizo.Kernel.PmaGiveBack

/-!
# What the allocator finds

The two searches of `pma.c`, for every bitmap. `qizo_pma_alloc` goes once around from the hint and
takes the first free frame it comes to; `qizo_page_alloc` goes up from frame zero and takes the
lowest run of free frames that is long enough.

Nothing is assumed of the state but that `total_frames` does not exceed the bits of the bitmap, and
for the first search that the hint is a frame.

## Main results

* `allocLoop_first` — the first free frame around from the hint
* `runLoop_lowest` — the lowest run
* `alloc_succeeds` — both calls fail only where they must, and then change nothing
-/

namespace Qizo

namespace Pma

variable {s : State} {f n : ℕ}

/-- The frames `bitmap` has bits for. -/
def bitmapFrames : ℕ := (maxFrames / 64 + 2) * 64

theorem bitmapFrames_eq : bitmapFrames = 262272 := rfl

theorem physToVirt_of_lt (h : f < bitmapFrames) :
    physToVirt (f * pageSize) = hhdmVirt + f * pageSize := by
  rw [bitmapFrames_eq] at h
  simp only [physToVirt, u64, hhdmVirt, pageSize]
  omega

theorem hhdm_ne_zero (f : ℕ) : hhdmVirt + f * pageSize ≠ 0 :=
  Nat.ne_of_gt (Nat.lt_of_lt_of_le (by decide) (Nat.le_add_right hhdmVirt _))

/-! ### Around from the hint -/

/-- The frame `i` places after the hint. -/
def scanned (s : State) (i : ℕ) : ℕ := (s.hint + i) % s.totalFrames

/-- `f` is free, and no frame between the hint and `f` is. -/
def FirstFree (s : State) (f : ℕ) : Prop :=
  ∃ i < s.totalFrames, f = scanned s i ∧ frameOk s f = true ∧
    ∀ j < i, frameOk s (scanned s j) = false

theorem scanned_eq (hhint : s.hint < s.totalFrames) {i : ℕ} (hi : i < s.totalFrames) :
    (if s.totalFrames ≤ s.hint + i then s.hint + i - s.totalFrames else s.hint + i) =
      scanned s i := by
  rw [scanned]
  split
  · next hge => rw [Nat.mod_eq_sub_mod hge, Nat.mod_eq_of_lt (by omega)]
  · next hlt => rw [Nat.mod_eq_of_lt (by omega)]

/-- Every frame is come to. -/
theorem exists_scanned (hhint : s.hint < s.totalFrames) (hf : f < s.totalFrames) :
    ∃ i < s.totalFrames, f = scanned s i := by
  rcases Nat.lt_or_ge f s.hint with hlt | hge
  · refine ⟨f + s.totalFrames - s.hint, by omega, ?_⟩
    rw [scanned, Nat.add_sub_cancel' (by omega), Nat.add_mod_right, Nat.mod_eq_of_lt hf]
  · refine ⟨f - s.hint, by omega, ?_⟩
    rw [scanned, Nat.add_sub_cancel' hge, Nat.mod_eq_of_lt hf]

/-- **The search from the hint**, entered with the frames before `i` passed over. -/
theorem allocLoop_first (hhint : s.hint < s.totalFrames) {fuel i : ℕ}
    (hfuel : i + fuel = s.totalFrames) (hpassed : ∀ j < i, frameOk s (scanned s j) = false) :
    (∀ j < s.totalFrames, frameOk s (scanned s j) = false) ∧ allocLoop s s.hint fuel i = (0, s) ∨
      ∃ f, FirstFree s f ∧
        allocLoop s s.hint fuel i = (physToVirt (f * pageSize), takeFrame s f) := by
  induction fuel generalizing i with
  | zero =>
    rw [Nat.add_zero] at hfuel
    exact .inl ⟨hfuel ▸ hpassed, rfl⟩
  | succ fuel ih =>
    rw [allocLoop, scanned_eq hhint (by omega : i < s.totalFrames)]
    cases hok : frameOk s (scanned s i) with
    | true => exact .inr ⟨scanned s i, ⟨i, by omega, rfl, hok, hpassed⟩, rfl⟩
    | false =>
      refine ih (by omega) fun j hj => ?_
      rcases Nat.lt_succ_iff_lt_or_eq.mp hj with hlt | rfl
      · exact hpassed j hlt
      · exact hok

theorem pmaAlloc_first (hhint : s.hint < s.totalFrames) :
    (∀ f < s.totalFrames, frameOk s f = false) ∧ pmaAlloc s = (0, s) ∨
      ∃ f, FirstFree s f ∧ pmaAlloc s = (physToVirt (f * pageSize), takeFrame s f) := by
  rcases allocLoop_first hhint (i := 0) (Nat.zero_add _) (fun j hj => absurd hj (Nat.not_lt_zero j))
    with ⟨hnone, h⟩ | h
  · refine .inl ⟨fun f hf => ?_, h⟩
    obtain ⟨i, hi, rfl⟩ := exists_scanned hhint hf
    exact hnone i hi
  · exact .inr h

/-! ### Up from frame zero -/

/-- The `n` frames from `f` on are free. -/
def FreeRun (s : State) (n f : ℕ) : Prop := ∀ j < n, frameOk s (f + j) = true

/-- The lowest run of `n` free frames. -/
def LowestRun (s : State) (n f : ℕ) : Prop := FreeRun s n f ∧ ∀ g < f, ¬FreeRun s n g

theorem FreeRun.end_le (h : FreeRun s n f) (hn : 0 < n) : f + n ≤ s.totalFrames := by
  have := lt_of_frameOk (h (n - 1) (by omega))
  omega

/-- What the search knows at frame `i`: `run` free frames end there, no more than these, and
nothing below `i` is long enough. -/
structure Scan (s : State) (n i first run : ℕ) : Prop where
  run_le : run ≤ i
  run_lt : run < n
  first_eq : run ≠ 0 → first + run = i
  free : FreeRun s run (i - run)
  start : i = run ∨ frameOk s (i - run - 1) = false
  none : ∀ g, g + n ≤ i → ¬FreeRun s n g

theorem scan_zero (hn : 0 < n) : Scan s n 0 0 0 where
  run_le := Nat.le_refl 0
  run_lt := hn
  first_eq h := absurd rfl h
  free j hj := absurd hj (Nat.not_lt_zero j)
  start := .inl rfl
  none g hg := by omega

variable {i first run : ℕ}

/-- A free frame makes the run longer. -/
theorem Scan.free_succ (h : Scan s n i first run) (hi : frameOk s i = true) :
    FreeRun s (run + 1) (i - run) := by
  intro j hj
  rcases Nat.lt_succ_iff_lt_or_eq.mp hj with hlt | rfl
  · exact h.free j hlt
  · rw [Nat.sub_add_cancel h.run_le]
    exact hi

theorem Scan.first_succ (h : Scan s n i first run) : (if run = 0 then i else first) = i - run := by
  split
  · next h0 => rw [h0, Nat.sub_zero]
  · next h0 =>
    have := h.first_eq h0
    omega

/-- The run is long enough, and it is the first. -/
theorem Scan.lowest (h : Scan s n i first run) (hi : frameOk s i = true) (hn : run + 1 = n) :
    LowestRun s n (i - run) := by
  refine ⟨hn ▸ h.free_succ hi, fun g hg => h.none g ?_⟩
  have := h.run_le
  omega

/-- The run is not long enough yet. -/
theorem Scan.succ (h : Scan s n i first run) (hi : frameOk s i = true) (hn : run + 1 ≠ n) :
    Scan s n (i + 1) (if run = 0 then i else first) (run + 1) := by
  have hle := h.run_le
  have hlt := h.run_lt
  refine ⟨by omega, by omega, fun _ => ?_, ?_, ?_, fun g hg hrun => ?_⟩
  · rw [h.first_succ]
    omega
  · rw [Nat.add_sub_add_right]
    exact h.free_succ hi
  · rw [Nat.add_sub_add_right]
    exact h.start.imp (congrArg (· + 1)) id
  · rcases Nat.lt_or_eq_of_le hg with hg | hg
    · exact h.none g (by omega) hrun
    -- A run that ends here would reach below the frame before the one found.
    · rcases h.start with hstart | hstart
      · omega
      · have := hrun (i - run - 1 - g) (by omega)
        rw [Nat.add_sub_cancel' (by omega), hstart] at this
        cases this

/-- A frame in use ends the run. -/
theorem Scan.reset (h : Scan s n i first run) (hi : frameOk s i = false) :
    Scan s n (i + 1) first 0 := by
  have hlt := h.run_lt
  refine ⟨Nat.zero_le _, by omega, fun h0 => absurd rfl h0,
    fun j hj => absurd hj (Nat.not_lt_zero j), .inr hi, fun g hg hrun => ?_⟩
  rcases Nat.lt_or_eq_of_le hg with hg | hg
  · exact h.none g (by omega) hrun
  · have := hrun (n - 1) (by omega)
    rw [show g + (n - 1) = i by omega, hi] at this
    cases this

/-- **The search for a run.** -/
theorem runLoop_lowest {fuel : ℕ} (h : Scan s n i first run) :
    (runLoop s n fuel i first run).2 = n ∧ LowestRun s n (runLoop s n fuel i first run).1 ∨
      (runLoop s n fuel i first run).2 < n ∧ ∀ g, g + n ≤ i + fuel → ¬FreeRun s n g := by
  induction fuel generalizing i first run with
  | zero => exact .inr ⟨h.run_lt, h.none⟩
  | succ fuel ih =>
    have hadd : i + (fuel + 1) = i + 1 + fuel := by omega
    rw [runLoop, hadd]
    cases hi : frameOk s i with
    | true =>
      rw [if_pos rfl]
      dsimp only
      by_cases hn : run + 1 = n
      · rw [if_pos hn, h.first_succ]
        exact .inl ⟨hn, h.lowest hi hn⟩
      · rw [if_neg hn]
        exact ih (h.succ hi hn)
    | false => exact ih (h.reset hi)

theorem atLeastOne_eq_max (n : ℕ) : atLeastOne n = max n 1 := by
  rw [atLeastOne]
  split <;> omega

theorem pageAlloc_lowest (s : State) (n : ℕ) :
    (∀ f, ¬FreeRun s (max n 1) f) ∧ pageAlloc s n = (0, s) ∨
      ∃ f, LowestRun s (max n 1) f ∧
        pageAlloc s n = (physToVirt (f * pageSize), takeRun s f (max n 1)) := by
  have hpos : 0 < max n 1 := by omega
  rw [pageAlloc, atLeastOne_eq_max]
  generalize max n 1 = p at hpos
  rcases @runLoop_lowest _ _ _ _ _ s.totalFrames (scan_zero (s := s) hpos) with
    ⟨hrun, hlow⟩ | ⟨hlt, hnone⟩
  · refine .inr ⟨_, hlow, ?_⟩
    dsimp only
    rw [if_neg (by omega)]
  · refine .inl ⟨fun f hf => hnone f ?_ hf, ?_⟩
    · rw [Nat.zero_add]
      exact hf.end_le hpos
    · dsimp only
      rw [if_pos hlt]

/-- Taking a run clears its bits and no other. -/
theorem test_takeRun (hf : FreeRun s n f) (k : ℕ) :
    (takeRun s f n).bitmap.test k =
      if f ≤ k ∧ k < f + n then false else s.bitmap.test k := by
  by_cases hk : s.totalFrames ≤ k
  · rw [(lacks_takeRun hf).high k hk, if_neg]
    rintro ⟨hle, hlt⟩
    have := hf.end_le (by omega)
    omega
  · have := (lacks_takeRun hf).ok k
    rwa [frameOk, frameOk, takeRun_totalFrames, if_neg hk, if_neg hk] at this

/-! ### Success -/

/-- **Allocation succeeds exactly when it can.** -/
theorem alloc_succeeds (htotal : s.totalFrames ≤ bitmapFrames) (hhint : s.hint < s.totalFrames)
    (n : ℕ) :
    (((pmaAlloc s).1 = 0 ↔ ∀ f < s.totalFrames, frameOk s f = false) ∧
      ((pmaAlloc s).1 = 0 → (pmaAlloc s).2 = s) ∧
      ((pmaAlloc s).1 ≠ 0 → ∃ f, FirstFree s f ∧
        pmaAlloc s = (hhdmVirt + f * pageSize, takeFrame s f))) ∧
    (((pageAlloc s n).1 = 0 ↔ ∀ f, ¬FreeRun s (max n 1) f) ∧
      ((pageAlloc s n).1 = 0 → (pageAlloc s n).2 = s) ∧
      ((pageAlloc s n).1 ≠ 0 → ∃ f, LowestRun s (max n 1) f ∧
        (pageAlloc s n).1 = hhdmVirt + f * pageSize ∧
        ∀ k, (pageAlloc s n).2.bitmap.test k =
          if f ≤ k ∧ k < f + max n 1 then false else s.bitmap.test k)) := by
  constructor
  · rcases pmaAlloc_first hhint with ⟨hnone, h⟩ | ⟨f, hf, h⟩
    · rw [h]
      exact ⟨iff_of_true rfl hnone, fun _ => rfl, fun hne => absurd rfl hne⟩
    · obtain ⟨-, -, -, hok, -⟩ := id hf
      have hlt := lt_of_frameOk hok
      rw [h, physToVirt_of_lt (hlt.trans_le htotal)]
      refine ⟨iff_of_false (hhdm_ne_zero f) fun hnone => ?_, fun h0 => absurd h0 (hhdm_ne_zero f),
        fun _ => ⟨f, hf, rfl⟩⟩
      rw [hnone f hlt] at hok
      cases hok
  · rcases pageAlloc_lowest s n with ⟨hnone, h⟩ | ⟨f, hf, h⟩
    · rw [h]
      exact ⟨iff_of_true rfl hnone, fun _ => rfl, fun hne => absurd rfl hne⟩
    · have hlt := lt_of_frameOk (hf.1 0 (by omega))
      rw [Nat.add_zero] at hlt
      rw [h, physToVirt_of_lt (hlt.trans_le htotal)]
      exact ⟨iff_of_false (hhdm_ne_zero f) fun hnone => hnone f hf.1,
        fun h0 => absurd h0 (hhdm_ne_zero f), fun _ => ⟨f, hf, rfl, test_takeRun hf.1⟩⟩

/-- Four frames of which the second and third are free, with the hint at the last. -/
def cornerState : State := ⟨(Bitmap.zero.set 1).set 2, 4, 2, 2, 4 * pageSize, 3⟩

/-- The scan wraps around, and three frames are one too many. -/
theorem alloc_succeeds_corner :
    ((pmaAlloc cornerState).1 ≠ 0 → ∃ f, FirstFree cornerState f ∧
      pmaAlloc cornerState = (hhdmVirt + f * pageSize, takeFrame cornerState f)) ∧
    ((pageAlloc cornerState 3).1 = 0 ↔ ∀ f, ¬FreeRun cornerState 3 f) :=
  have h := alloc_succeeds (s := cornerState) (by decide) (by decide) 3
  ⟨h.1.2.2, h.2.1⟩

example : (pmaAlloc cornerState).1 = hhdmVirt + 1 * pageSize := by decide

end Pma

end Qizo
