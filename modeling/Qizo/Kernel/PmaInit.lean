import Qizo.Kernel.Pma

/-!
# The initial frame map

Which frames `qizo_pma_init` leaves free: those inside some usable entry of the memory map, rounded
down at both ends, less the reserved ranges. Entries of other types are not looked at.

An entry is rounded down at its beginning too, so the frame an entry starts in is marked although
its first bytes are not in the entry. In every other frame the map is exact.

## Main results

* `frameOk_entries` — what the second loop marks
* `frameOk_pmaInit` — the initial map for the record stage2 hands over
-/

namespace Qizo

namespace Pma

variable {sym : Symbols} {info : Option BootInfo} {b : BootInfo} {s : State} {k top : ℕ} {e : E820}

/-! ### The number of frames -/

theorem clampTop_bounds (t : ℕ) : minUsable ≤ clampTop t ∧ clampTop t ≤ maxFrames * pageSize := by
  rw [clampTop, maxFrames_eq, minUsable_eq, pageSize]
  by_cases h1 : t < 25165824
  · rw [if_pos h1, if_neg (by decide)]
    decide
  · rw [if_neg h1]
    split <;> omega

theorem minUsable_le_topOf (info : Option BootInfo) : minUsable ≤ topOf info :=
  (clampTop_bounds _).1

theorem topOf_le (info : Option BootInfo) : topOf info ≤ maxFrames * pageSize :=
  (clampTop_bounds _).2

/-- Marking an entry marks a range or does nothing. -/
theorem markEntry_cases (top : ℕ) (s : State) (e : E820) :
    markEntry top s e = s ∨ ∃ base len, markEntry top s e = markRange s base len true := by
  rw [markEntry]
  dsimp only
  split
  · exact Or.inl rfl
  · split
    · exact Or.inl rfl
    · split
      · exact Or.inl rfl
      · exact Or.inr ⟨_, _, rfl⟩

theorem foldl_markEntry_totalFrames (es : List E820) :
    (es.foldl (markEntry top) s).totalFrames = s.totalFrames := by
  induction es generalizing s with
  | nil => rfl
  | cons e es ih =>
    rw [List.foldl_cons, ih]
    rcases markEntry_cases top s e with h | ⟨base, len, h⟩ <;> simp [h]

theorem foldl_markEntry_maxPhys (es : List E820) :
    (es.foldl (markEntry top) s).maxPhys = s.maxPhys := by
  induction es generalizing s with
  | nil => rfl
  | cons e es ih =>
    rw [List.foldl_cons, ih]
    rcases markEntry_cases top s e with h | ⟨base, len, h⟩ <;> simp [h]

theorem reserve_totalFrames : (reserve sym info top s).totalFrames = s.totalFrames := by
  rw [reserve]
  cases info with
  | none => rw [reserveLoaded, markRange_totalFrames, markRange_totalFrames]
  | some b =>
    rw [reserveLoaded, apply_ite State.totalFrames, markRange_totalFrames, ite_self,
      markRange_totalFrames, markRange_totalFrames, markRange_totalFrames]

theorem reserve_maxPhys : (reserve sym info top s).maxPhys = s.maxPhys := by
  rw [reserve]
  cases info with
  | none => rw [reserveLoaded, markRange_maxPhys, markRange_maxPhys]
  | some b =>
    rw [reserveLoaded, apply_ite State.maxPhys, markRange_maxPhys, ite_self, markRange_maxPhys,
      markRange_maxPhys, markRange_maxPhys]

theorem frameOk_resetCounters : frameOk (resetCounters s) k = frameOk s k := rfl

theorem resetCounters_totalFrames : (resetCounters s).totalFrames = s.totalFrames := rfl

theorem resetCounters_maxPhys : (resetCounters s).maxPhys = s.maxPhys := rfl

theorem pmaInit_totalFrames : (pmaInit sym info).totalFrames = topOf info / pageSize := by
  rw [pmaInit, resetCounters_totalFrames, markedState, reserve_totalFrames,
    foldl_markEntry_totalFrames, clearedState]

theorem pmaInit_maxPhys : (pmaInit sym info).maxPhys = topOf info := by
  rw [pmaInit, resetCounters_maxPhys, markedState, reserve_maxPhys, foldl_markEntry_maxPhys,
    clearedState]

theorem pmaInit_totalFrames_le : (pmaInit sym info).totalFrames ≤ maxFrames := by
  rw [pmaInit_totalFrames]
  exact Nat.div_le_of_le_mul (by rw [Nat.mul_comm]; exact topOf_le info)

/-! ### The second loop -/

/-- The entry marks frame `k`: it is usable, and with both ends rounded down it contains `k`. -/
def E820.Marks (e : E820) (k : ℕ) : Prop :=
  e.type = 1 ∧ e.base.toNat < (k + 1) * pageSize ∧ (k + 1) * pageSize ≤ e.finish

theorem frameOk_markEntry (htop : top ≤ maxFrames * pageSize)
    (hs : s.totalFrames = top / pageSize) :
    frameOk (markEntry top s e) k = true ↔
      frameOk s k = true ∨ k < s.totalFrames ∧ e.Marks k := by
  have htop' : top ≤ 0x40000000 := htop
  have hk : k < s.totalFrames → (k + 1) * pageSize ≤ top := by
    rw [hs]
    simp only [pageSize]
    omega
  have hdown : ∀ x, alignDown x = x / 4096 * 4096 := fun _ => rfl
  simp only [pageSize] at hk
  rw [markEntry, E820.Marks]
  simp only [pageSize]
  by_cases ht : e.type = 1
  · rw [if_neg (not_not.mpr ht)]
    by_cases hlen : alignDown e.finish ≤ alignDown e.base.toNat
    · rw [if_pos hlen]
      rw [hdown, hdown] at hlen
      refine ⟨Or.inl, ?_⟩
      rintro (h | ⟨-, -, h1, h2⟩)
      · exact h
      · omega
    · rw [if_neg hlen]
      by_cases hbase : top ≤ alignDown e.base.toNat
      · rw [if_pos hbase]
        rw [hdown] at hbase
        refine ⟨Or.inl, ?_⟩
        rintro (h | ⟨hlt, -, h1, h2⟩)
        · exact h
        · have := hk hlt
          omega
      · have hmin : (if top < alignDown e.finish then top else alignDown e.finish)
            = min top (e.finish / 4096 * 4096) := by
          rw [hdown]
          split <;> omega
        rw [if_neg hbase, hmin]
        rw [hdown, hdown] at hlen
        rw [hdown] at hbase
        rw [hdown, frameOk_markRange_true (by simp only [pageSize]; omega)]
        simp only [Touches, pageSize, ht, true_and]
        refine or_congr_right (and_congr_right fun hlt => ?_)
        have := hk hlt
        omega
  · rw [if_pos ht]
    simp [ht]

/-- **What the second loop marks**: the frames of the usable entries, one entry at a time. -/
theorem frameOk_entries (htop : top ≤ maxFrames * pageSize) (es : List E820)
    (hs : s.totalFrames = top / pageSize) :
    frameOk (es.foldl (markEntry top) s) k = true ↔
      frameOk s k = true ∨ k < s.totalFrames ∧ ∃ e ∈ es, e.Marks k := by
  induction es generalizing s with
  | nil => simp
  | cons e es ih =>
    have hs' : (markEntry top s e).totalFrames = s.totalFrames := foldl_markEntry_totalFrames [e]
    rw [List.foldl_cons, ih (hs'.trans hs), frameOk_markEntry htop hs, hs']
    simp only [List.mem_cons, exists_eq_or_imp]
    tauto

/-! ### The record stage2 hands over -/

/-- What stage2 guarantees of the fields other than the memory map. -/
structure Handover (b : BootInfo) : Prop where
  /-- The kernel is at its link address. -/
  ktext : b.ktext = 0x100000
  /-- There is a kernel. -/
  total_pos : 0 < b.kernelTotal.toNat
  /-- It fits below the scratch buffer. -/
  total_le : b.kernelTotal.toNat ≤ 0x80000
  /-- The scratch buffer is at its fixed address. -/
  scratch : b.scratch = 0x180000
  /-- The blob is in low memory. -/
  blob : b.blobPhys.toNat + b.blobSize.toNat ≤ 0x100000

/-- Frame `k` has a byte in `[a, a + n)`. -/
def Meets (k a n : ℕ) : Prop := ∃ x, k * pageSize ≤ x ∧ x < (k + 1) * pageSize ∧ a ≤ x ∧ x < a + n

theorem meets_iff {a n : ℕ} (hn : 0 < n) :
    Meets k a n ↔ a < (k + 1) * pageSize ∧ k * pageSize < a + n := by
  simp only [Meets, pageSize]
  constructor
  · rintro ⟨x, h1, h2, h3, h4⟩
    omega
  · rintro ⟨h1, h2⟩
    exact ⟨max a (k * 4096), by omega, by omega, by omega, by omega⟩

/-- Frame `k` meets the first MiB, the kernel with its bss, the blob or the scratch buffer. -/
def Reserved (b : BootInfo) (k : ℕ) : Prop :=
  Meets k 0 0x100000 ∨ Meets k b.ktext.toNat b.kernelTotal.toNat ∨
    Meets k b.blobPhys.toNat b.blobSize.toNat ∨ Meets k b.scratch.toNat 0x80000

/-- The size of the kernel rounded up to a page. -/
theorem kernelEnd_handover (h : Handover b) :
    sub64 (kernelEnd sym (some b)) b.ktext.toNat
      = (b.kernelTotal.toNat + 4095) / 4096 * 4096 := by
  have hk : b.ktext.toNat = 0x100000 := by rw [h.ktext]; rfl
  have hpos := h.total_pos
  have hle := h.total_le
  have hne : b.kernelTotal ≠ 0 := by
    intro h0
    rw [h0] at hpos
    exact absurd hpos (by decide)
  have hsum : (b.ktext + b.kernelTotal).toNat = 0x100000 + b.kernelTotal.toNat := by
    rw [UInt32.toNat_add, hk]
    exact Nat.mod_eq_of_lt (by omega)
  simp only [kernelEnd, if_pos hne, hsum, hk, alignDown, pageSize, u64, sub64]
  omega

/-- **What is taken back.** Everything that was free and is not reserved stays free. -/
theorem frameOk_reserve (h : Handover b) (htop : minUsable ≤ top) :
    frameOk (reserve sym (some b) top s) k = true ↔ frameOk s k = true ∧ ¬ Reserved b k := by
  have hk : b.ktext.toNat = 0x100000 := by rw [h.ktext]; rfl
  have hsc : b.scratch.toNat = 0x180000 := by rw [h.scratch]; rfl
  have hsum : (b.scratch + 0x80000).toNat = 0x200000 := by rw [h.scratch]; rfl
  have hpos := h.total_pos
  have hle := h.total_le
  have hblob := h.blob
  have htop' : (b.scratch + 0x80000).toNat ≤ top := by
    rw [hsum]
    exact Nat.le_trans (by decide) htop
  rw [reserve, reserveLoaded, if_pos htop', kernelEnd_handover h]
  rw [frameOk_markRange_false (by rw [hsc]; decide),
    frameOk_markRange_false (by simp only [pageSize]; omega),
    frameOk_markRange_false (by rw [hk]; simp only [pageSize]; omega),
    frameOk_markRange_false (by decide), and_assoc, and_assoc, and_assoc, and_congr_right_iff]
  intro _
  rw [Reserved, hk, hsc, meets_iff (n := 0x100000) (by decide), meets_iff hpos,
    meets_iff (n := 0x80000) (by decide)]
  have hsub : Meets k b.blobPhys.toNat b.blobSize.toNat → k * 4096 < 0x100000 := by
    rintro ⟨x, h1, h2, h3, h4⟩
    simp only [pageSize] at h1
    omega
  simp only [Touches, pageSize]
  constructor
  · rintro ⟨h1, h2, h3, h4⟩ (h | h | h | h)
    · omega
    · omega
    · have := hsub h
      omega
    · omega
  · intro h
    refine ⟨?_, ?_, ?_, ?_⟩
    · exact fun h' => h (Or.inl (by omega))
    · exact fun h' => h (Or.inr (Or.inl (by omega)))
    · exact fun h' => h (Or.inl (by omega))
    · exact fun h' => h (Or.inr (Or.inr (Or.inr (by omega))))

/-- **The initial map**, for the record stage2 hands over. -/
theorem frameOk_pmaInit (h : Handover b) :
    frameOk (pmaInit sym (some b)) k = true ↔
      (k < (pmaInit sym (some b)).totalFrames ∧ ∃ e ∈ entries (some b), e.Marks k) ∧
        ¬ Reserved b k := by
  rw [pmaInit_totalFrames, pmaInit, frameOk_resetCounters, markedState,
    frameOk_reserve h (minUsable_le_topOf _), frameOk_entries (topOf_le _) _ rfl]
  have : frameOk (clearedState (topOf (some b))) k = false := by
    rw [frameOk]
    split
    · rfl
    · exact Bitmap.test_zero k
  rw [this]
  simp only [Bool.false_eq_true, false_or]
  rfl

/-! ### The map against the memory -/

/-- The byte `x` lies in the entry. -/
def E820.Contains (e : E820) (x : ℕ) : Prop := e.base.toNat ≤ x ∧ x < e.base.toNat + e.size.toNat

/-- Every byte of frame `k` lies in some usable entry. -/
def Covered (b : BootInfo) (k : ℕ) : Prop :=
  ∀ x, k * pageSize ≤ x → x < (k + 1) * pageSize →
    ∃ e ∈ entries (some b), e.type = 1 ∧ e.Contains x

/-- A usable entry starts inside frame `k`, not at its first byte. -/
def StartsInside (b : BootInfo) (k : ℕ) : Prop :=
  ∃ e ∈ entries (some b), e.type = 1 ∧ k * pageSize < e.base.toNat ∧
    e.base.toNat < (k + 1) * pageSize

/-- No entry reaches past the end of the address space. -/
def NoWrap (b : BootInfo) : Prop :=
  ∀ e ∈ entries (some b), e.base.toNat + e.size.toNat < 2 ^ 64

theorem finish_eq (h : NoWrap b) (he : e ∈ entries (some b)) :
    e.finish = e.base.toNat + e.size.toNat := Nat.mod_eq_of_lt (h e he)

/-- The entry that has the last byte of a covered frame marks the frame. -/
theorem Covered.marks (hw : NoWrap b) (h : Covered b k) : ∃ e ∈ entries (some b), e.Marks k := by
  obtain ⟨e, he, ht, h1, h2⟩ := h (k * pageSize + (pageSize - 1)) (by omega)
    (by simp only [pageSize]; omega)
  refine ⟨e, he, ht, ?_, ?_⟩
  · simp only [pageSize] at h1 ⊢
    omega
  · rw [finish_eq hw he]
    simp only [pageSize] at h2 ⊢
    omega

/-- An entry that marks a frame and does not start inside it contains it. -/
theorem covered_of_marks (hw : NoWrap b) (hs : ¬ StartsInside b k) (he : e ∈ entries (some b))
    (hm : e.Marks k) : Covered b k := by
  obtain ⟨ht, h1, h2⟩ := hm
  rw [finish_eq hw he] at h2
  have hbase : e.base.toNat ≤ k * pageSize :=
    Nat.not_lt.mp fun h => hs ⟨e, he, ht, h, h1⟩
  intro x hx hx'
  exact ⟨e, he, ht, Nat.le_trans hbase hx, Nat.lt_of_lt_of_le hx' h2⟩

/-- **The initial map is the usable memory less the reserved ranges.** A frame that is covered by
usable entries and not reserved is free; a free frame is not reserved, and it is covered unless a
usable entry starts inside it. Entries of other types play no part. -/
theorem frameOk_pmaInit_covered (h : Handover b) (hw : NoWrap b)
    (hk : k < (pmaInit sym (some b)).totalFrames) :
    (Covered b k ∧ ¬ Reserved b k → frameOk (pmaInit sym (some b)) k = true) ∧
    (frameOk (pmaInit sym (some b)) k = true → ¬ Reserved b k) ∧
    (¬ StartsInside b k → frameOk (pmaInit sym (some b)) k = true → Covered b k) := by
  rw [frameOk_pmaInit h]
  refine ⟨?_, ?_, ?_⟩
  · rintro ⟨hc, hr⟩
    exact ⟨⟨hk, hc.marks hw⟩, hr⟩
  · rintro ⟨-, hr⟩
    exact hr
  · rintro hs ⟨⟨-, e, he, hm⟩, -⟩
    exact covered_of_marks hw hs he hm

/-- A memory map of 64 MiB with a reserved page in the middle. -/
def holedMap : List E820 :=
  [⟨0, 0x4000000, 1⟩, ⟨0x2000000, 0x1000, 2⟩] ++ List.replicate 30 ⟨0, 0, 0⟩

/-- A boot record with that map, as stage2 fills it in. -/
def holedInfo : BootInfo where
  blobPhys := 0x21000
  blobSize := 0x1000
  scratch := 0x180000
  ktext := 0x100000
  kernelTotal := 0x10000
  map := holedMap
  mapCount := 2
  totalRam := 0x4000000
  map_length := rfl

theorem holedInfo_handover : Handover holedInfo :=
  ⟨rfl, by decide, by decide, rfl, by decide⟩

theorem holedInfo_noWrap : NoWrap holedInfo := by
  unfold NoWrap
  decide

theorem holedInfo_totalFrames (sym : Symbols) :
    (pmaInit sym (some holedInfo)).totalFrames = 16384 := by
  rw [pmaInit_totalFrames]
  rfl

/-- Linker symbols of a 64 KiB kernel. -/
def linkedSymbols : Symbols := ⟨0x100000, 0x10A000, 0x110000⟩

/-- The statement at a frame of that map. -/
theorem frameOk_pmaInit_covered_holed :
    (Covered holedInfo 0x1000 ∧ ¬ Reserved holedInfo 0x1000 →
      frameOk (pmaInit linkedSymbols (some holedInfo)) 0x1000 = true) ∧
    (frameOk (pmaInit linkedSymbols (some holedInfo)) 0x1000 = true →
      ¬ Reserved holedInfo 0x1000) ∧
    (¬ StartsInside holedInfo 0x1000 →
      frameOk (pmaInit linkedSymbols (some holedInfo)) 0x1000 = true → Covered holedInfo 0x1000) :=
  frameOk_pmaInit_covered holedInfo_handover holedInfo_noWrap
    (by rw [holedInfo_totalFrames]; decide)

theorem holedInfo_frameOk (sym : Symbols) (hlo : 0x200 ≤ k) (hhi : k < 0x4000) :
    frameOk (pmaInit sym (some holedInfo)) k = true := by
  rw [frameOk_pmaInit holedInfo_handover, holedInfo_totalFrames]
  refine ⟨⟨hhi, ⟨0, 0x4000000, 1⟩, by decide, rfl, ?_, ?_⟩, ?_⟩
  · exact Nat.mul_pos (Nat.succ_pos k) (by decide)
  · have : E820.finish ⟨0, 0x4000000, 1⟩ = 0x4000000 := rfl
    rw [this]
    simp only [pageSize]
    omega
  · have h1 : holedInfo.ktext.toNat = 0x100000 := rfl
    have h2 : holedInfo.kernelTotal.toNat = 0x10000 := rfl
    have h3 : holedInfo.blobPhys.toNat = 0x21000 := rfl
    have h4 : holedInfo.blobSize.toNat = 0x1000 := rfl
    have h5 : holedInfo.scratch.toNat = 0x180000 := rfl
    simp only [Reserved, Meets, h1, h2, h3, h4, h5, pageSize]
    rintro (⟨x, h⟩ | ⟨x, h⟩ | ⟨x, h⟩ | ⟨x, h⟩) <;> omega

/-- **Reserved entries are not subtracted**: the page in the hole is marked free. -/
theorem frameOk_pmaInit_in_hole :
    ¬ ∀ (sym : Symbols) (b : BootInfo), Handover b → NoWrap b → b.mapCount.toNat ≤ 32 →
      ∀ k < (pmaInit sym (some b)).totalFrames,
        (frameOk (pmaInit sym (some b)) k = true ↔
          Covered b k ∧
          (∀ x, k * pageSize ≤ x → x < (k + 1) * pageSize →
            ∀ e ∈ entries (some b), e.type ≠ 1 → ¬ e.Contains x) ∧
          ¬ Reserved b k) := by
  intro h
  have hhole := (h linkedSymbols holedInfo holedInfo_handover holedInfo_noWrap (by decide) 0x2000
    (by rw [holedInfo_totalFrames]; decide)).mp (holedInfo_frameOk _ (by decide) (by decide))
  refine hhole.2.1 0x2000000 (by decide) (by decide) ⟨0x2000000, 0x1000, 2⟩ (by decide)
    (by decide) ?_
  unfold E820.Contains
  decide

end Pma

end Qizo
