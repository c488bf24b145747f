import Qizo.Image.Written

/-!
# The first sector of the image

The image tool patches the arguments into stage1, puts it in place of the first sector with a slice
assignment, and writes the first partition entry over what is there. Of the bytes it writes over, it
asks only for those of the argument block to be clear; and of the length of stage1 it asks nothing,
so a file that is too long moves everything behind it.

## Main results

* `undamaged_iff` — the stage1 files that the tool leaves as they are
-/

namespace Qizo

namespace Image

open ByteString Python Record

/-- The bytes of the first sector that the tool writes over: the partition entry, the sector and the
number of sectors to load, and the checksum. -/
def Patched (i : ℕ) : Prop :=
  (partEntry ≤ i ∧ i < partEntry + 16) ∨ (stage1ArgsOff + 4 ≤ i ∧ i < stage1ArgsOff + 10) ∨
    (stage1ArgsOff + 12 ≤ i ∧ i < stage1ArgsOff + 16)

/-- **Nothing of stage1 is lost**, and everything else is where it belongs. -/
structure Undamaged (ratio : ℕ → ℕ → List Char) (args : Args) (img : List UInt8) : Prop where
  first : ∀ i, ¬Patched i → (slice img 0 sector)[i]? = (args.stage1.rightpad 512 0)[i]?
  zero : ∀ i, Patched i → (args.stage1.rightpad 512 0)[i]? = some 0
  stage2 : HasAt img (16 * sector) (args.stage2.rightpad (stage2Sectors * sector) 0)
  blob : ∀ w : Written ratio args img, HasAt img (24 * sector) w.blob
  volume : ∀ w : Written ratio args img, HasAt img (w.layout.partLba * sector) w.bs ∧
    HasAt img (w.layout.partLba * sector) (w.assembled.drop (w.layout.partLba * sector))

variable {ratio : ℕ → ℕ → List Char} {args : Args} {img : List UInt8}

/-! ### What the tool checks -/

/-- The argument block is clear, so the file reaches behind it. -/
theorem clear_of_loadStage1 {file stage1 : List UInt8} (h : loadStage1 file = .ok stage1) {i : ℕ}
    (hi : i < 20) : file[stage1ArgsOff + i]? = some 0 := by
  rw [loadStage1] at h
  split at h
  case isTrue => cases h
  case isFalse hclear =>
    have hslice := Classical.not_not.mp hclear
    rw [← getElem?_slice (Nat.add_lt_add_left hi stage1ArgsOff), hslice, List.getElem?_replicate,
      if_pos hi]

theorem loadStage1_eq_ok {file stage1 : List UInt8} (h : loadStage1 file = .ok stage1) :
    stage1 = file.rightpad 512 0 := by
  rw [loadStage1] at h
  split at h
  · cases h
  · dsimp only at h
    split at h
    · cases h
    · exact (Except.ok.inj h).symm

theorem getElem?_rightpad {l : List UInt8} {n i : ℕ} (x : UInt8) (hi : i < l.length) :
    (l.rightpad n x)[i]? = l[i]? := by
  rw [List.rightpad, List.getElem?_append_left hi]

/-! ### What is in the image -/

namespace Written

/-- Stage2 is in front of the volume. -/
theorem stage2_at_volume (w : Written ratio args img) :
    HasAt w.volume (16 * sector) (args.stage2.rightpad (stage2Sectors * sector) 0) := by
  have hpart := w.partLba_eq
  have htotal := w.total_eq
  have hreserved := (chooseLayout_spec w.chooseLayout_eq).2.1
  have hbs := w.length_bs
  have hstage2 := w.length_stage2
  rw [volume, assemble, hreserved, List.length_nil, setSlice_nil]
  generalize args.stage2.rightpad (stage2Sectors * sector) 0 = st at hstage2 ⊢
  have hfirst : (setSlice (List.replicate (w.total * sector) 0) (w.layout.partLba * sector)
      (w.layout.partLba * sector + 512) w.bs).length = w.total * sector := by
    rw [length_setSlice (Nat.le_add_right _ _) _ (by omega), List.length_replicate]
    rw [List.length_replicate, sector]
    omega
  have hst : HasAt (setSlice (setSlice (List.replicate (w.total * sector) 0)
      (w.layout.partLba * sector) (w.layout.partLba * sector + 512) w.bs) (partLba * sector)
      (partLba * sector + st.length) st) (16 * sector) st :=
    hasAt_setSlice (by rw [hfirst, partLba, sector]; omega)
  simp only [sector, partLba] at *
  refine HasAt.foldl_putFile ?_ ?_
  · refine HasAt.setSlice_behind (HasAt.setSlice_behind (HasAt.setSlice_behind hst ?_) ?_) ?_
    · omega
    · omega
    · omega
  · rw [sector]
    omega

/-- **Stage2.** -/
theorem stage2_at (w : Written ratio args img) (hstage1 : args.stage1.length ≤ 512) :
    HasAt img (16 * sector) (args.stage2.rightpad (stage2Sectors * sector) 0) := by
  refine w.hasAt_of_assembled hstage1 (w.stage2_at_volume.setSlice_behind ?_) (by decide)
  rw [w.length_stage2, blobLba, sector]

/-- **The volume**, as it was assembled. -/
theorem volume_at (w : Written ratio args img) (hstage1 : args.stage1.length ≤ 512) :
    HasAt img (w.layout.partLba * sector) (w.assembled.drop (w.layout.partLba * sector)) := by
  have hpart := w.partLba_eq
  refine w.hasAt_of_assembled hstage1 (fun i _ => ?_) ?_
  · rw [List.getElem?_drop]
  · rw [sector]
    omega

/-- **The first sector**, where it is not patched. -/
theorem first_at (w : Written ratio args img) (hstage1 : args.stage1.length ≤ 512) {i : ℕ}
    (hi : i < 512) (hpatched : ¬Patched i) : img[i]? = (args.stage1.rightpad 512 0)[i]? := by
  have hlen := length_loadStage1 hstage1 w.loadStage1_eq
  rw [← loadStage1_eq_ok w.loadStage1_eq]
  have hoff : stage1ArgsOff = 464 := rfl
  simp only [Patched, partEntry, hoff] at hpatched
  have hget := List.getElem?_eq_getElem (hlen.ge.trans_lt' hi)
  have hbyte : HasAt w.stage1 i [w.stage1[i]] := by
    intro j hj
    obtain rfl : j = 0 := Nat.lt_one_iff.mp hj
    exact hget
  -- the byte is not an argument of stage1
  have hmbr : HasAt w.mbr i [w.stage1[i]] := by
    refine HasAt.setFields hbyte (fits_argFields w.mbr_eq) w.mbr_eq ?_
    simp only [argFields, List.map_cons, List.map_nil, Field.patch, clear_cons, length_leBytes,
      List.length_singleton, clear_nil, and_true, hoff]
    omega
  have hrecorded : HasAt w.recorded i [w.stage1[i]] := by
    have hat : HasAt w.recorded 0 w.mbr := hasAt_setSlice (Nat.zero_le _)
    intro j hj
    rw [← Nat.zero_add (i + j), hat (i + j) (hmbr.lt_length hj), hmbr j hj]
  -- nor a part of the partition entry
  have himg := w.hasAt_of_recorded hstage1 hrecorded (by rw [List.length_singleton]; omega)
  rw [hget]
  exact himg 0 Nat.one_pos

end Written

/-! ### The stage1 files that are left as they are -/

/-- **No more than a sector, and nothing where the partition entry goes.** -/
theorem undamaged_iff (h : main ratio args = .ok img) :
    Undamaged ratio args img ↔ args.stage1.length ≤ 512 ∧
      ∀ i, partEntry ≤ i → i < partEntry + 16 → args.stage1[i]? = some 0 := by
  obtain ⟨w⟩ := exists_written h
  have hclear {i : ℕ} (hi : i < 20) := clear_of_loadStage1 w.loadStage1_eq hi
  have hoff : stage1ArgsOff = 464 := rfl
  have hlt : 483 < args.stage1.length :=
    (List.getElem?_eq_some_iff.mp (hclear (show 19 < 20 by decide))).1
  have hpad {i : ℕ} (hi : i < 484) : (args.stage1.rightpad 512 0)[i]? = args.stage1[i]? :=
    getElem?_rightpad 0 (by omega)
  constructor
  · rintro ⟨hfirst, hzero, -, -, -⟩
    refine ⟨Nat.not_lt.mp fun hlong => ?_, fun i hle hi => ?_⟩
    · -- a byte of the file is behind the sector
      have h512 := hfirst 512 (by simp only [Patched, partEntry, hoff]; omega)
      rw [getElem?_rightpad 0 hlong, List.getElem?_eq_getElem hlong, List.getElem?_eq_none] at h512
      · cases h512
      · rw [slice, List.drop_zero, List.length_take]
        exact Nat.min_le_left _ _
    · rw [← hpad (by rw [partEntry] at hi; omega)]
      exact hzero i (Or.inl ⟨hle, hi⟩)
  · rintro ⟨hshort, hzero⟩
    refine ⟨fun i hi => ?_, fun i hi => ?_, w.stage2_at hshort, fun w => w.blob_at hshort,
      fun w => ⟨w.boot_at hshort, w.volume_at hshort⟩⟩
    · by_cases hlt : i < 512
      · rw [← w.first_at hshort hlt hi, getElem?_slice (by rw [sector]; omega), Nat.zero_add]
      · rw [List.getElem?_eq_none, List.getElem?_eq_none]
        · rw [List.length_rightpad]
          omega
        · rw [slice, List.drop_zero, List.length_take, sector]
          omega
    · have hargs (j : ℕ) (hj : j < 20) (hij : i = stage1ArgsOff + j) :
          (args.stage1.rightpad 512 0)[i]? = some 0 := by
        rw [hpad (by omega), hij, hclear hj]
      rcases hi with ⟨hle, hi⟩ | ⟨hle, hi⟩ | ⟨hle, hi⟩
      · rw [hpad (by rw [partEntry] at hi; omega), hzero i hle hi]
      · exact hargs (i - stage1ArgsOff) (by omega) (by omega)
      · exact hargs (i - stage1ArgsOff) (by omega) (by omega)

/-- The condition on a stage1 that is nothing but its signature. -/
theorem undamaged_iff_small : ∃ img, main smallRatio smallArgs = .ok img ∧
    (Undamaged smallRatio smallArgs img ↔ smallArgs.stage1.length ≤ 512 ∧
      ∀ i, partEntry ≤ i → i < partEntry + 16 → smallArgs.stage1[i]? = some 0) := by
  obtain ⟨img, himg⟩ := exists_main_small
  exact ⟨img, himg, undamaged_iff himg⟩

/-! ### Code behind byte 446 -/

/-- **Any stage1 of one sector will do**, if its argument block is clear and it is signed. -/
theorem exists_main_of_stage1 (h : main ratio args = .ok img) (hold : args.stage1.length ≤ 512)
    {file stage1 : List UInt8} (hfile : file.length ≤ 512) (hload : loadStage1 file = .ok stage1) :
    ∃ img', main ratio { args with stage1 := file } = .ok img' := by
  obtain ⟨w⟩ := exists_written h
  have hlen := length_loadStage1 hfile hload
  have hargs : ∀ f ∈ argFields w.blobSectors (Lzss.checksum w.blob), f.Fits stage1.length := by
    rw [hlen, ← length_loadStage1 hold w.loadStage1_eq]
    exact fits_argFields w.mbr_eq
  have himg := w.img_eq
  rw [w.assemble_eq_assembled] at himg
  have hpart : ∀ f ∈ partFields w.total w.layout, f.Fits (setSlice w.assembled 0 sector
      (patches stage1 ((argFields w.blobSectors (Lzss.checksum w.blob)).map
        Field.patch))).length := by
    have hfits := fits_partFields (w.length_recorded hold) himg
    have hlong : 512 ≤ (setSlice w.assembled 0 sector (patches stage1
        ((argFields w.blobSectors (Lzss.checksum w.blob)).map Field.patch))).length := by
      rw [setSlice, List.length_append, List.length_append,
        length_patches (inRange_map_patch hargs)]
      omega
    simp only [partFields, partEntry, List.forall_mem_cons, Field.Fits, List.length_cons,
      List.length_nil, List.not_mem_nil, false_imp_iff, implies_true, and_true] at hfits ⊢
    omega
  rw [main, hload, ok_bind, raiseIf_of_not (Nat.not_lt.mpr w.stage2_le), ok_bind]
  rw [show measure { args with stage1 := file } = .ok w.meas from w.measure_eq, ok_bind,
    w.packModule_eq, ok_bind, w.packBlob_eq, ok_bind]
  dsimp only
  rw [setFields_eq hargs, ok_bind, w.chooseLayout_eq, ok_bind]
  dsimp only
  rw [buildImage, w.bs_eq, ok_bind, ← w.files_eq, w.alloc_eq, ok_bind, w.root_eq, ok_bind]
  dsimp only [pure, Except.pure]
  rw [ok_bind]
  dsimp only
  rw [w.assemble_eq_assembled]
  exact ⟨_, setFields_eq hpart⟩

/-- A stage1 with code where the partition entry goes. -/
def fullStage1 : List UInt8 :=
  List.replicate 446 0 ++ [0xF4] ++ List.replicate 63 0 ++ [0x55, 0xAA]

/-- **Code behind byte 446** is accepted, and lost. -/
theorem not_undamaged_full : ∃ img, main smallRatio { smallArgs with stage1 := fullStage1 } =
    .ok img ∧ ¬Undamaged smallRatio { smallArgs with stage1 := fullStage1 } img := by
  obtain ⟨_, hsmall⟩ := exists_main_small
  obtain ⟨img, himg⟩ := @exists_main_of_stage1 _ _ _ hsmall (by decide +kernel) fullStage1
    fullStage1 (by decide +kernel) (by decide +kernel)
  refine ⟨img, himg, fun hun => ?_⟩
  have hzero := hun.zero 446 (Or.inl ⟨Nat.le_refl _, by decide⟩)
  have hbyte : (fullStage1.rightpad 512 0)[446]? = some 0xF4 := by decide +kernel
  rw [show (({ smallArgs with stage1 := fullStage1 } : Args).stage1) = fullStage1 from rfl,
    hbyte] at hzero
  cases hzero

end Image

end Qizo
