import Qizo.Layout
import Qizo.Lib.Bitmap
import Mathlib.Algebra.Group.Nat.Defs
import Mathlib.Data.List.Basic

/-!
# The frame allocator

`kernel/drivers/pma.c`: a bitmap with one bit per frame of physical memory, set where the frame is
free, with its counters. The functions are embedded one by one; their specifications follow in the
same order.

Variables of type `u64` are numbers, with the reduction modulo `2 ^ 64` written out wherever the C
arithmetic can wrap. The fields of the boot record keep their fixed widths, so sums of two of its
32-bit fields wrap as they do in C.

## The bitmap is cleared by `qizo_memset_sse2`

That routine also clears the sixteen bytes in front of an array whose length is an odd multiple of
sixteen, as this one's is. The compiler aligns the array and leaves padding there, so no variable
of the allocator is among them, and here the call clears the array.
-/

namespace Qizo

namespace Pma

/-- `QIZO_HHDM_VIRT`, the start of the direct map. -/
def hhdmVirt : ℕ := 0xFFFF888000000000
/-- `QIZO_PAGE_SIZE`. -/
def pageSize : ℕ := 4096
/-- `QIZO_PMAP_PAGES`, the number of 2 MiB pages of the direct map. -/
def pmapPages : ℕ := 512
/-- `PMA_MAX_FRAMES`. -/
def maxFrames : ℕ := pmapPages * 512
/-- `PMA_MIN_USABLE`. -/
def minUsable : ℕ := 24 * 1024 * 1024

theorem maxFrames_eq : maxFrames = 262144 := rfl

theorem minUsable_eq : minUsable = 25165824 := rfl

/-! ### The boot record -/

/-- `struct qizo_e820`, less its attribute word. -/
structure E820 where
  /-- First byte. -/
  base : UInt64
  /-- Number of bytes. -/
  size : UInt64
  /-- Kind of memory; 1 is usable. -/
  type : UInt32
  deriving DecidableEq, Repr

/-- The fields of `struct qizo_bootinfo` that the allocator reads. -/
structure BootInfo where
  /-- Where the blob was loaded. -/
  blobPhys : UInt32
  /-- Size of the blob. -/
  blobSize : UInt32
  /-- The decompression buffer. -/
  scratch : UInt32
  /-- Where the kernel was placed. -/
  ktext : UInt32
  /-- Size of the kernel with its bss. -/
  kernelTotal : UInt32
  /-- The memory map. -/
  map : List E820
  /-- The number of its entries that are filled. -/
  mapCount : UInt32
  /-- Sum of the usable memory. -/
  totalRam : UInt64
  /-- The map is an array of fixed size. -/
  map_length : map.length = e820Max

/-- The symbols of the linker script. -/
structure Symbols where
  /-- `__qizo_phys_base`. -/
  physBase : UInt64
  /-- `__qizo_image_end`. -/
  imageEnd : UInt64
  /-- `__qizo_bss_end`. -/
  bssEnd : UInt64

/-- The static variables. -/
structure State where
  /-- `bitmap`. -/
  bitmap : Bitmap
  /-- `total_frames`. -/
  totalFrames : ℕ
  /-- `free_frames`. -/
  freeFrames : ℕ
  /-- `used_frames`. -/
  usedFrames : ℕ
  /-- `max_phys`. -/
  maxPhys : ℕ
  /-- `hint`. -/
  hint : ℕ

/-! ### Arithmetic -/

/-- Reduction to 64 bits. -/
def u64 (x : ℕ) : ℕ := x % 2 ^ 64

/-- Subtraction in 64 bits. -/
def sub64 (x y : ℕ) : ℕ := (x + (2 ^ 64 - y % 2 ^ 64)) % 2 ^ 64

/-- `x & ~(QIZO_PAGE_SIZE - 1)`. -/
def alignDown (x : ℕ) : ℕ := x / pageSize * pageSize

/-- `phys_to_virt`. -/
def physToVirt (phys : ℕ) : ℕ := u64 (hhdmVirt + phys)

/-! ### The bitmap -/

/-- `frame_ok`. -/
def frameOk (s : State) (frame : ℕ) : Bool :=
  if s.totalFrames ≤ frame then false else s.bitmap.test frame

/-- `mark`. -/
def mark (good : Bool) (s : State) (frame : ℕ) : State :=
  if s.totalFrames ≤ frame then s
  else { s with bitmap := if good then s.bitmap.set frame else s.bitmap.clear frame }

/-- `mark_range`. Both ends are multiples of the page size, so the frames of the loop are those
from the one to the other. -/
def markRange (s : State) (base len : ℕ) (good : Bool) : State :=
  let first := alignDown base
  let last := alignDown (u64 (base + len + pageSize - 1))
  (List.range' (first / pageSize) (last / pageSize - first / pageSize)).foldl (mark good) s

/-! ### Initialisation -/

/-- `e->base + e->size`. -/
def E820.finish (e : E820) : ℕ := u64 (e.base.toNat + e.size.toNat)

/-- The entries the loops of `qizo_pma_init` go over. -/
def entries : Option BootInfo → List E820
  | none => []
  | some b => b.map.take (min b.mapCount.toNat e820Max)

/-- The first loop: the largest end of a usable entry that starts inside the direct map. -/
def topLoop (es : List E820) : ℕ :=
  es.foldl (fun top e =>
    if e.type ≠ 1 then top
    else if pmapPages * 0x200000 ≤ e.base.toNat then top
    else if top < e.finish then e.finish else top) 0

/-- The sum of the usable memory is taken where the map gave nothing. -/
def fallbackTop (info : Option BootInfo) (top : ℕ) : ℕ :=
  match info with
  | some b => if top = 0 ∧ b.totalRam ≠ 0 then b.totalRam.toNat else top
  | none => top

/-- The two clamps. -/
def clampTop (top : ℕ) : ℕ :=
  let top := if top < minUsable then minUsable else top
  if maxFrames * pageSize < top then maxFrames * pageSize else top

/-- `top`, the end of the memory that is managed. -/
def topOf (info : Option BootInfo) : ℕ := clampTop (fallbackTop info (topLoop (entries info)))

/-- The body of the second loop: the frames of a usable entry are marked free. -/
def markEntry (top : ℕ) (s : State) (e : E820) : State :=
  if e.type ≠ 1 then s
  else
    let base := alignDown e.base.toNat
    let len := alignDown e.finish
    if len ≤ base then s
    else
      let len := if top < len then top else len
      if top ≤ base then s else markRange s base (len - base) true

/-- `kernel_end`, rounded up to a page. -/
def kernelEnd (sym : Symbols) (info : Option BootInfo) : ℕ :=
  let kernelEnd := (sym.bssEnd - sym.physBase + sym.physBase).toNat
  let kernelEnd := match info with
    | some b => if b.kernelTotal ≠ 0 then (b.ktext + b.kernelTotal).toNat else kernelEnd
    | none => kernelEnd
  alignDown (u64 (kernelEnd + pageSize - 1))

/-- The ranges taken back besides the first MiB: with a boot record the kernel, the blob and the
scratch buffer if it is below `top`, without one the image. -/
def reserveLoaded (sym : Symbols) : (info : Option BootInfo) → (top : ℕ) → State → State
  | some b, top, s =>
    let s := markRange s b.ktext.toNat (sub64 (kernelEnd sym (some b)) b.ktext.toNat) false
    let s := markRange s b.blobPhys.toNat b.blobSize.toNat false
    if (b.scratch + 0x80000).toNat ≤ top then markRange s b.scratch.toNat 0x80000 false else s
  | none, _, s => markRange s sym.physBase.toNat (sym.imageEnd - sym.physBase).toNat false

/-- The ranges taken back after the second loop. -/
def reserve (sym : Symbols) (info : Option BootInfo) (top : ℕ) (s : State) : State :=
  reserveLoaded sym info top (markRange s 0 (1024 * 1024) false)

/-- The number of frames marked free. -/
def countFree (s : State) : ℕ := (List.range s.totalFrames).countP (frameOk s)

/-- The state in which the second loop starts: the bitmap is cleared. -/
def clearedState (top : ℕ) : State where
  bitmap := Bitmap.zero
  totalFrames := top / pageSize
  freeFrames := 0
  usedFrames := 0
  maxPhys := top
  hint := 0

/-- The state after the second loop and the reserved ranges. -/
def markedState (sym : Symbols) (info : Option BootInfo) : State :=
  reserve sym info (topOf info)
    ((entries info).foldl (markEntry (topOf info)) (clearedState (topOf info)))

/-- The last loop: the counters are set from the bitmap. -/
def resetCounters (s : State) : State :=
  { s with freeFrames := countFree s, usedFrames := 0, hint := 0 }

/-- `qizo_pma_init`. -/
def pmaInit (sym : Symbols) (info : Option BootInfo) : State := resetCounters (markedState sym info)

/-! ### Single frames -/

/-- The updates of `qizo_pma_alloc` when it has found a frame. -/
def takeFrame (s : State) (frame : ℕ) : State :=
  { mark false s frame with
    freeFrames := if s.freeFrames ≠ 0 then s.freeFrames - 1 else s.freeFrames
    usedFrames := u64 (s.usedFrames + 1)
    hint := if s.totalFrames ≤ frame + 1 then 0 else frame + 1 }

/-- The loop of `qizo_pma_alloc`, entered at `i` with `fuel` passes left. -/
def allocLoop (s : State) (start : ℕ) : (fuel : ℕ) → (i : ℕ) → ℕ × State
  | 0, _ => (0, s)
  | fuel + 1, i =>
    let frame := start + i
    let frame := if s.totalFrames ≤ frame then frame - s.totalFrames else frame
    if !frameOk s frame then allocLoop s start fuel (i + 1)
    else (physToVirt (frame * pageSize), takeFrame s frame)

/-- `qizo_pma_alloc`: the address returned, zero for none, and the state after it. -/
def pmaAlloc (s : State) : ℕ × State := allocLoop s s.hint s.totalFrames 0

/-- The frame of an address of the direct map. -/
def frameOf (addr : ℕ) : ℕ := sub64 addr hhdmVirt / pageSize

/-- `qizo_pma_free`. -/
def pmaFree (s : State) (addr : ℕ) : State :=
  if addr < hhdmVirt then s
  else
    let frame := frameOf addr
    if !frameOk s frame then s
    else
      let s := mark true s frame
      let s := if s.freeFrames < s.totalFrames then { s with freeFrames := s.freeFrames + 1 } else s
      if s.usedFrames ≠ 0 then { s with usedFrames := s.usedFrames - 1 } else s

/-! ### Runs of frames -/

/-- The search loop of `qizo_page_alloc`, entered at `i` with `fuel` frames left: `first` and `run`
when it is left. -/
def runLoop (s : State) (pages : ℕ) : (fuel : ℕ) → (i first run : ℕ) → ℕ × ℕ
  | 0, _, first, run => (first, run)
  | fuel + 1, i, first, run =>
    if frameOk s i then
      let first := if run = 0 then i else first
      let run := run + 1
      if run = pages then (first, run) else runLoop s pages fuel (i + 1) first run
    else runLoop s pages fuel (i + 1) first 0

/-- The updates of `qizo_page_alloc` when it has found a run. -/
def takeRun (s : State) (first pages : ℕ) : State :=
  let s := (List.range' first pages).foldl (mark false) s
  { s with freeFrames := sub64 s.freeFrames pages, usedFrames := u64 (s.usedFrames + pages) }

/-- `if (!pages) pages = 1`. -/
def atLeastOne (pages : ℕ) : ℕ := if pages = 0 then 1 else pages

/-- `qizo_page_alloc`: the address returned, zero for none, and the state after it. -/
def pageAlloc (s : State) (pages : ℕ) : ℕ × State :=
  let pages := atLeastOne pages
  let (first, run) := runLoop s pages s.totalFrames 0 0 0
  if run < pages then (0, s) else (physToVirt (first * pageSize), takeRun s first pages)

/-- `qizo_page_free`. -/
def pageFree (s : State) (addr pages : ℕ) : State :=
  if addr = 0 then s
  else
    let s := (List.range' (frameOf addr) pages).foldl (mark true) s
    { s with freeFrames := u64 (s.freeFrames + pages), usedFrames := sub64 s.usedFrames pages }

/-! ### What marking does -/

section Mark

variable {s : State} {f k : ℕ} {good : Bool}

theorem lt_of_frameOk (h : frameOk s f = true) : f < s.totalFrames := by
  rw [frameOk] at h
  split at h
  · cases h
  · omega

@[simp] theorem mark_totalFrames : (mark good s f).totalFrames = s.totalFrames := by
  unfold mark; split <;> rfl

@[simp] theorem mark_freeFrames : (mark good s f).freeFrames = s.freeFrames := by
  unfold mark; split <;> rfl

@[simp] theorem mark_usedFrames : (mark good s f).usedFrames = s.usedFrames := by
  unfold mark; split <;> rfl

@[simp] theorem mark_maxPhys : (mark good s f).maxPhys = s.maxPhys := by
  unfold mark; split <;> rfl

@[simp] theorem mark_hint : (mark good s f).hint = s.hint := by
  unfold mark; split <;> rfl

/-- Marking a frame changes that frame, if it is one. -/
theorem frameOk_mark :
    frameOk (mark good s f) k = if k = f ∧ k < s.totalFrames then good else frameOk s k := by
  by_cases hf : s.totalFrames ≤ f
  · rw [mark, if_pos hf, if_neg (by omega)]
  · rw [mark, if_neg hf, frameOk, frameOk]
    dsimp only
    by_cases hk : s.totalFrames ≤ k
    · rw [if_pos hk, if_pos hk, if_neg (by omega)]
    · rw [if_neg hk, if_neg hk]
      cases good <;> by_cases h : k = f <;>
        simp [Bitmap.test_set, Bitmap.test_clear, h, Nat.not_le.mp hk, Nat.not_le.mp hf]

variable {l : List ℕ}

@[simp] theorem foldl_mark_totalFrames : (l.foldl (mark good) s).totalFrames = s.totalFrames := by
  induction l generalizing s with
  | nil => rfl
  | cons f l ih => rw [List.foldl_cons, ih, mark_totalFrames]

@[simp] theorem foldl_mark_freeFrames : (l.foldl (mark good) s).freeFrames = s.freeFrames := by
  induction l generalizing s with
  | nil => rfl
  | cons f l ih => rw [List.foldl_cons, ih, mark_freeFrames]

@[simp] theorem foldl_mark_usedFrames : (l.foldl (mark good) s).usedFrames = s.usedFrames := by
  induction l generalizing s with
  | nil => rfl
  | cons f l ih => rw [List.foldl_cons, ih, mark_usedFrames]

@[simp] theorem foldl_mark_hint : (l.foldl (mark good) s).hint = s.hint := by
  induction l generalizing s with
  | nil => rfl
  | cons f l ih => rw [List.foldl_cons, ih, mark_hint]

@[simp] theorem foldl_mark_maxPhys : (l.foldl (mark good) s).maxPhys = s.maxPhys := by
  induction l generalizing s with
  | nil => rfl
  | cons f l ih => rw [List.foldl_cons, ih, mark_maxPhys]

/-- Marking a list of frames. -/
theorem frameOk_foldl_mark :
    frameOk (l.foldl (mark good) s) k =
      if k ∈ l ∧ k < s.totalFrames then good else frameOk s k := by
  induction l generalizing s with
  | nil => simp
  | cons f l ih =>
    rw [List.foldl_cons, ih, frameOk_mark, mark_totalFrames]
    by_cases hk : k < s.totalFrames
    · by_cases hl : k ∈ l
      · simp [hl, hk]
      · rw [if_neg (fun h => hl h.1)]
        simp only [List.mem_cons, hl, or_false]
    · simp [hk]

/-- The frame `k` overlaps the bytes `[base, base + len)`, or `base` is inside it. -/
def Touches (k base len : ℕ) : Prop := base < (k + 1) * pageSize ∧ k * pageSize < base + len

instance (k base len : ℕ) : Decidable (Touches k base len) := by unfold Touches; infer_instance

/-- Marking a range of bytes marks the frames it touches. -/
theorem frameOk_markRange {base len : ℕ} (hwrap : base + len + pageSize ≤ 2 ^ 64) :
    frameOk (markRange s base len good) k =
      if Touches k base len ∧ k < s.totalFrames then good else frameOk s k := by
  have hlast : alignDown (u64 (base + len + pageSize - 1)) / pageSize
      = (base + len + pageSize - 1) / pageSize := by
    rw [u64, Nat.mod_eq_of_lt (by simp only [pageSize] at hwrap ⊢; omega), alignDown,
      Nat.mul_div_cancel _ (by decide : 0 < pageSize)]
  have hfirst : alignDown base / pageSize = base / pageSize :=
    Nat.mul_div_cancel _ (by decide : 0 < pageSize)
  have htouch : k ∈ List.range' (base / pageSize)
      ((base + len + pageSize - 1) / pageSize - base / pageSize) ↔ Touches k base len := by
    simp only [List.mem_range'_1, Touches, pageSize]
    omega
  rw [markRange, hlast, hfirst, frameOk_foldl_mark]
  simp only [htouch]

theorem frameOk_markRange_true {base len : ℕ} (hwrap : base + len + pageSize ≤ 2 ^ 64) :
    frameOk (markRange s base len true) k = true ↔
      frameOk s k = true ∨ k < s.totalFrames ∧ Touches k base len := by
  rw [frameOk_markRange hwrap]
  by_cases h : Touches k base len ∧ k < s.totalFrames
  · rw [if_pos h]
    simp [h]
  · rw [if_neg h]
    refine ⟨Or.inl, ?_⟩
    rintro (h' | ⟨h1, h2⟩)
    · exact h'
    · exact absurd ⟨h2, h1⟩ h

theorem frameOk_markRange_false {base len : ℕ} (hwrap : base + len + pageSize ≤ 2 ^ 64) :
    frameOk (markRange s base len false) k = true ↔ frameOk s k = true ∧ ¬ Touches k base len := by
  rw [frameOk_markRange hwrap]
  by_cases h : Touches k base len ∧ k < s.totalFrames
  · rw [if_pos h]
    simp [h]
  · rw [if_neg h]
    exact ⟨fun hf => ⟨hf, fun ht => h ⟨ht, lt_of_frameOk hf⟩⟩, fun hf => hf.1⟩

@[simp] theorem markRange_totalFrames {base len : ℕ} :
    (markRange s base len good).totalFrames = s.totalFrames := foldl_mark_totalFrames

@[simp] theorem markRange_maxPhys {base len : ℕ} :
    (markRange s base len good).maxPhys = s.maxPhys := foldl_mark_maxPhys

end Mark

/-! ### What the operations do

One lemma for each: what it returns, and what becomes of the bitmap. -/

section Operations

variable {s : State} {f k : ℕ}

theorem frameOf_physToVirt (h : f < maxFrames) : frameOf (physToVirt (f * pageSize)) = f := by
  rw [maxFrames_eq] at h
  simp only [frameOf, physToVirt, sub64, u64, hhdmVirt, pageSize]
  omega

theorem physToVirt_eq (h : f < maxFrames) :
    physToVirt (f * pageSize) = hhdmVirt + f * pageSize := by
  rw [maxFrames_eq] at h
  simp only [physToVirt, u64, hhdmVirt, pageSize]
  omega

theorem frameOk_takeFrame :
    frameOk (takeFrame s f) k = if k = f ∧ k < s.totalFrames then false else frameOk s k := by
  rw [← frameOk_mark]
  rfl

theorem allocLoop_cases (s : State) (start fuel i : ℕ) :
    allocLoop s start fuel i = (0, s) ∨ ∃ f, frameOk s f = true ∧
      allocLoop s start fuel i = (physToVirt (f * pageSize), takeFrame s f) := by
  induction fuel generalizing i with
  | zero => exact Or.inl rfl
  | succ fuel ih =>
    rw [allocLoop]
    generalize (if s.totalFrames ≤ start + i then start + i - s.totalFrames else start + i) = f
    cases hf : frameOk s f with
    | false => simpa using ih (i + 1)
    | true => exact Or.inr ⟨f, hf, by simp⟩

/-- `qizo_pma_alloc` returns nothing and changes nothing, or takes a frame that was free. -/
theorem pmaAlloc_cases (s : State) :
    pmaAlloc s = (0, s) ∨ ∃ f, frameOk s f = true ∧
      pmaAlloc s = (physToVirt (f * pageSize), takeFrame s f) :=
  allocLoop_cases s s.hint s.totalFrames 0

/-- The run found so far is a run of free frames that ends before `i`. -/
theorem runLoop_free {pages fuel i first run : ℕ} (hend : run ≠ 0 → first + run = i)
    (hfree : ∀ j < run, frameOk s (first + j) = true) :
    ∀ j < (runLoop s pages fuel i first run).2,
      frameOk s ((runLoop s pages fuel i first run).1 + j) = true := by
  induction fuel generalizing i first run with
  | zero => exact hfree
  | succ fuel ih =>
    rw [runLoop]
    cases hi : frameOk s i with
    | false => simpa using ih (fun h => absurd rfl h) (fun j hj => absurd hj (Nat.not_lt_zero j))
    | true =>
      rw [if_pos rfl]
      dsimp only
      -- the run extended by frame `i`
      have hext : ∀ j < run + 1, frameOk s ((if run = 0 then i else first) + j) = true := by
        intro j hj
        by_cases hrun : run = 0
        · have : j = 0 := by omega
          rw [if_pos hrun, this]
          exact hi
        · rw [if_neg hrun]
          by_cases hj' : j < run
          · exact hfree j hj'
          · rw [show first + j = i by have := hend hrun; omega]
            exact hi
      by_cases hp : run + 1 = pages
      · rw [if_pos hp]
        exact hext
      · rw [if_neg hp]
        refine ih (fun _ => ?_) hext
        by_cases hrun : run = 0
        · rw [if_pos hrun]; omega
        · rw [if_neg hrun]; have := hend hrun; omega

theorem frameOk_takeRun {first pages : ℕ} :
    frameOk (takeRun s first pages) k =
      if (first ≤ k ∧ k < first + pages) ∧ k < s.totalFrames then false else frameOk s k := by
  have : frameOk (takeRun s first pages) k
      = frameOk ((List.range' first pages).foldl (mark false) s) k := rfl
  rw [this, frameOk_foldl_mark]
  simp only [List.mem_range'_1]

/-- `qizo_page_alloc` returns nothing and changes nothing, or takes a run of frames that were
free. -/
theorem pageAlloc_cases (s : State) (pages : ℕ) :
    pageAlloc s pages = (0, s) ∨ ∃ f, (∀ j < atLeastOne pages, frameOk s (f + j) = true) ∧
      pageAlloc s pages = (physToVirt (f * pageSize), takeRun s f (atLeastOne pages)) := by
  rw [pageAlloc]
  dsimp only
  have hfree := @runLoop_free s (atLeastOne pages) s.totalFrames 0 0 _
    (fun h => absurd rfl h) (fun j hj => absurd hj (Nat.not_lt_zero j))
  generalize runLoop s (atLeastOne pages) s.totalFrames 0 0 0 = r at hfree
  by_cases hrun : r.2 < atLeastOne pages
  · exact Or.inl (if_pos hrun)
  · exact Or.inr ⟨r.1, fun j hj => hfree j (by omega), if_neg hrun⟩

/-- `qizo_pma_free` on a frame that is marked free: both counters move. -/
theorem pmaFree_of_frameOk {addr : ℕ} (hlow : hhdmVirt ≤ addr)
    (hf : frameOk s (frameOf addr) = true) :
    pmaFree s addr = { mark true s (frameOf addr) with
      freeFrames := if s.freeFrames < s.totalFrames then s.freeFrames + 1 else s.freeFrames
      usedFrames := s.usedFrames - 1 } := by
  have hfree : (mark true s (frameOf addr)).freeFrames = s.freeFrames := mark_freeFrames
  have hused : (mark true s (frameOf addr)).usedFrames = s.usedFrames := mark_usedFrames
  have htotal : (mark true s (frameOf addr)).totalFrames = s.totalFrames := mark_totalFrames
  rw [pmaFree, if_neg (Nat.not_lt.mpr hlow)]
  simp only [hf, Bool.not_true, Bool.false_eq_true, if_false]
  rw [← hfree, ← hused, ← htotal]
  generalize mark true s (frameOf addr) = m
  obtain ⟨bits, total, free, used, top, hint⟩ := m
  by_cases h1 : free < total <;> by_cases h2 : used = 0 <;> simp [h1, h2]

/-- The bit is tested the wrong way round: the call goes on only where the frame is free
already. -/
theorem pmaFree_cases (s : State) (addr : ℕ) :
    pmaFree s addr = s ∨ hhdmVirt ≤ addr ∧ frameOk s (frameOf addr) = true ∧
      pmaFree s addr = { mark true s (frameOf addr) with
        freeFrames := if s.freeFrames < s.totalFrames then s.freeFrames + 1 else s.freeFrames
        usedFrames := s.usedFrames - 1 } := by
  by_cases hlow : addr < hhdmVirt
  · rw [pmaFree]
    exact Or.inl (if_pos hlow)
  · cases hf : frameOk s (frameOf addr) with
    | false =>
      rw [pmaFree, if_neg hlow]
      exact Or.inl (by simp [hf])
    | true => exact Or.inr ⟨Nat.not_lt.mp hlow, rfl, pmaFree_of_frameOk (Nat.not_lt.mp hlow) hf⟩

/-- So it never changes the bitmap. -/
theorem frameOk_pmaFree {addr : ℕ} : frameOk (pmaFree s addr) k = frameOk s k := by
  rcases pmaFree_cases s addr with h | ⟨-, hf, h⟩
  · rw [h]
  · have hmark : frameOk (mark true s (frameOf addr)) k = frameOk s k := by
      rw [frameOk_mark]
      split
      · next hk => rw [hk.1, hf]
      · rfl
    rw [h, ← hmark]
    rfl

/-- `qizo_page_free` marks the frames it is given free. -/
theorem frameOk_pageFree {addr pages : ℕ} (haddr : addr ≠ 0) :
    frameOk (pageFree s addr pages) k =
      if (frameOf addr ≤ k ∧ k < frameOf addr + pages) ∧ k < s.totalFrames then true
      else frameOk s k := by
  have : frameOk (pageFree s addr pages) k
      = frameOk ((List.range' (frameOf addr) pages).foldl (mark true) s) k := by
    rw [pageFree, if_neg haddr]
    rfl
  rw [this, frameOk_foldl_mark]
  simp only [List.mem_range'_1]

/-- The number of frames never changes. -/
@[simp] theorem takeFrame_totalFrames : (takeFrame s f).totalFrames = s.totalFrames :=
  mark_totalFrames

@[simp] theorem takeRun_totalFrames {pages : ℕ} :
    (takeRun s f pages).totalFrames = s.totalFrames := foldl_mark_totalFrames

@[simp] theorem pmaFree_totalFrames {addr : ℕ} : (pmaFree s addr).totalFrames = s.totalFrames := by
  rcases pmaFree_cases s addr with h | ⟨-, -, h⟩
  · rw [h]
  · rw [h]
    exact mark_totalFrames

@[simp] theorem pageFree_totalFrames {addr pages : ℕ} :
    (pageFree s addr pages).totalFrames = s.totalFrames := by
  rw [pageFree]
  split
  · rfl
  · exact foldl_mark_totalFrames

/-- Nor does the end of the memory. -/
@[simp] theorem takeFrame_maxPhys : (takeFrame s f).maxPhys = s.maxPhys := mark_maxPhys

@[simp] theorem takeRun_maxPhys {pages : ℕ} : (takeRun s f pages).maxPhys = s.maxPhys :=
  foldl_mark_maxPhys

@[simp] theorem pmaFree_maxPhys {addr : ℕ} : (pmaFree s addr).maxPhys = s.maxPhys := by
  rcases pmaFree_cases s addr with h | ⟨-, -, h⟩
  · rw [h]
  · rw [h]
    exact mark_maxPhys

@[simp] theorem pageFree_maxPhys {addr pages : ℕ} :
    (pageFree s addr pages).maxPhys = s.maxPhys := by
  rw [pageFree]
  split
  · rfl
  · exact foldl_mark_maxPhys

end Operations

end Pma

end Qizo
