import Qizo.Image.FatRoundTrip

/-!
# What the image tool has written

`main` of `mkqizoimg.py` read backwards: from the image it writes to what it computed on the way,
and from there to what lies where in the image. Unlike the round trip, nothing is asked here of
the files, the label or the size of the volume, so a file may run past the end of the volume and
lengthen the image.

## Main results

* `exists_written` — the parts of a run of `main` that succeeds
* `Written.boot_at`, `Written.blob_at`, `Written.args_at` — the boot sector of the volume, the blob
  and the arguments of stage1
-/

namespace Qizo

namespace Image

open ByteString Python Record

/-- What `main` computes on the way to the image. -/
structure Written (ratio : ℕ → ℕ → List Char) (args : Args) (img : List UInt8) where
  /-- The stage1 sector. -/
  stage1 : List UInt8
  /-- The measures of the kernel. -/
  meas : Measures
  /-- The module. -/
  payload : List UInt8
  /-- The sectors of the blob. -/
  blobSectors : ℕ
  /-- The blob. -/
  blob : List UInt8
  /-- The stage1 sector with its arguments. -/
  mbr : List UInt8
  /-- The sectors of the image. -/
  total : ℕ
  /-- The layout of the volume. -/
  layout : FatLayout
  /-- The files of the volume. -/
  files : List File
  /-- The boot sector of the volume. -/
  bs : List UInt8
  /-- The allocation table. -/
  alloc : Alloc
  /-- The root directory. -/
  root : List UInt8
  loadStage1_eq : loadStage1 args.stage1 = .ok stage1
  stage2_le : args.stage2.length ≤ stage2Bytes
  measure_eq : measure args = .ok meas
  packModule_eq : packModule meas args.kernel = .ok payload
  packBlob_eq : packBlob args.raw payload = .ok (blobSectors, blob)
  mbr_eq : setFields stage1 (argFields blobSectors (Lzss.checksum blob)) = .ok mbr
  chooseLayout_eq : chooseLayout args.imageSectors blobSectors = .ok (total, layout)
  files_eq : files = [("README.TXT".toList, encode (readme ratio blobSectors args.kernel.length
    meas.entryOff.toNat meas.imgTotal.toNat blob.length payload.length layout)),
    ("KERNEL.BIN".toList, args.kernel)]
  bs_eq : setFields (List.replicate 512 0) (bootFields total layout args.label) = .ok bs
  alloc_eq : buildFat layout files = .ok alloc
  root_eq : buildRoot layout.bits args.label alloc.clusterOf files = .ok root
  img_eq : setFields (setSlice (assemble total layout files alloc.clusterOf bs alloc.fat root blob
    (blobLba * sector) (args.stage2.rightpad (stage2Sectors * sector) 0)) 0 sector mbr)
    (partFields total layout) = .ok img

variable {ratio : ℕ → ℕ → List Char} {args : Args} {img : List UInt8}

/-- **A run of `main` that succeeds.** -/
theorem exists_written (h : main ratio args = .ok img) : Nonempty (Written ratio args img) := by
  rw [main] at h
  obtain ⟨stage1, h1, h⟩ := bind_eq_ok.mp h
  obtain ⟨_, h2, h⟩ := bind_eq_ok.mp h
  obtain ⟨k, h3, h⟩ := bind_eq_ok.mp h
  obtain ⟨payload, h4, h⟩ := bind_eq_ok.mp h
  obtain ⟨⟨blobSectors, blob⟩, h5, h⟩ := bind_eq_ok.mp h
  obtain ⟨mbr, h6, h⟩ := bind_eq_ok.mp h
  obtain ⟨⟨total, layout⟩, h7, h⟩ := bind_eq_ok.mp h
  dsimp only at h
  obtain ⟨⟨img', info⟩, h8, h⟩ := bind_eq_ok.mp h
  rw [buildImage] at h8
  obtain ⟨bs, h9, h8⟩ := bind_eq_ok.mp h8
  obtain ⟨alloc, h10, h8⟩ := bind_eq_ok.mp h8
  obtain ⟨root, h11, h8⟩ := bind_eq_ok.mp h8
  obtain rfl := (Prod.mk.inj (Except.ok.inj h8)).1
  exact ⟨stage1, k, payload, blobSectors, blob, mbr, total, layout, _, bs, alloc, root, h1,
    Nat.not_lt.mp (raiseIf_eq_ok.mp h2), h3, h4, h5, h6, h7, rfl, h9, h10, h11, h⟩

/-! ### Sizes -/

/-- A plan that is accepted accounts for every sector. -/
theorem total_of_planLayout {total : ℤ} {part reserved : ℕ} {bits : FatBits} {layout : FatLayout}
    (hbits : bits ≠ .fat32) (h : planLayout total part reserved bits = some layout) :
    layout.partLba = part ∧ layout.reserved = reserved ∧ layout.bits = bits ∧
      total = part + reserved + 2 * layout.fatSize + 14 + layout.clusters := by
  have hroot : rootSectorsOf bits = 14 := by
    cases bits with
    | fat12 => rfl
    | fat16 => rfl
    | fat32 => exact absurd rfl hbits
  rw [planLayout, ite_self] at h
  generalize growFat total part reserved bits 48 1 = fatSize at h
  split at h
  · cases h
  · next hmin =>
    have hmin' : (4085 : ℤ) ≤ dataSectors total part reserved bits fatSize := by omega
    have heq := Option.some.inj h
    subst heq
    refine ⟨rfl, rfl, rfl, ?_⟩
    rw [dataSectors, hroot] at hmin' ⊢
    dsimp only
    omega

/-- The volume starts right behind the blob, and the image is as large as its parts. -/
theorem chooseLayout_spec {imageSectors : ℤ} {blobSectors total : ℕ} {layout : FatLayout}
    (h : chooseLayout imageSectors blobSectors = .ok (total, layout)) :
    layout.partLba = blobLba + blobSectors ∧ layout.reserved = 32 ∧
      total = layout.partLba + 32 + 2 * layout.fatSize + 14 + layout.clusters := by
  have hplan : ∃ z : ℤ, total = z.toNat ∧
      ∃ bits, bits ≠ .fat32 ∧ planLayout z (blobLba + blobSectors) 32 bits = some layout := by
    rw [chooseLayout] at h
    split at h
    · split at h
      · next hsome =>
        obtain ⟨rfl, rfl⟩ := Prod.mk.inj (Except.ok.inj h)
        refine ⟨imageSectors, rfl, ?_⟩
        rcases Option.or_eq_some_iff.mp hsome with h16 | ⟨-, h12⟩
        · exact ⟨.fat16, by decide, h16⟩
        · exact ⟨.fat12, by decide, h12⟩
      · cases h
    · rw [pickLayout] at h
      generalize 1 <<< 14 = n at h
      generalize blobLba + blobSectors + reservedSectors + 2 + 14 + 4096 = start at h
      induction n generalizing start with
      | zero => cases h
      | succ n ih =>
        rw [pickLoop] at h
        split at h
        · split at h
          · next hsome =>
            obtain ⟨rfl, rfl⟩ := Prod.mk.inj (Except.ok.inj h)
            exact ⟨start, rfl, .fat16, by decide, hsome⟩
          · exact ih _ h
        · cases h
  obtain ⟨z, rfl, bits, hbits, hsome⟩ := hplan
  obtain ⟨hpart, hres, -, htotal⟩ := total_of_planLayout hbits hsome
  refine ⟨hpart, hres, ?_⟩
  rw [hpart, htotal]
  omega

theorem packBlob_eq_ok {raw : Bool} {payload blob : List UInt8} {blobSectors : ℕ}
    (h : packBlob raw payload = .ok (blobSectors, blob)) :
    ∃ b, (if raw then rawContainer payload else Lzss.compress payload) = .ok b ∧
      b.length ≤ blobMax ∧ blobSectors = sectorsFor b.length ∧
      blob = b.rightpad (blobSectors * sector) 0 := by
  have hfill {c : Except PyError (List UInt8)} (hc : (c >>= fun b =>
      if b.length > blobMax then
        .error (.exit ("qizo: blob " ++ toString b.length ++ " bytes exceeds " ++ toString blobMax))
      else .ok (sectorsFor b.length, b.rightpad (sectorsFor b.length * sector) 0)) =
      .ok (blobSectors, blob)) : ∃ b, c = .ok b ∧ b.length ≤ blobMax ∧
        blobSectors = sectorsFor b.length ∧ blob = b.rightpad (blobSectors * sector) 0 := by
    obtain ⟨b, hb, hrest⟩ := bind_eq_ok.mp hc
    split at hrest
    · cases hrest
    · next hle =>
      obtain ⟨rfl, rfl⟩ := Prod.mk.inj (Except.ok.inj hrest)
      exact ⟨b, hb, Nat.not_lt.mp hle, rfl, rfl⟩
  cases raw with
  | true => exact hfill h
  | false => exact hfill h

theorem length_packBlob {raw : Bool} {payload blob : List UInt8} {blobSectors : ℕ}
    (h : packBlob raw payload = .ok (blobSectors, blob)) : blob.length = blobSectors * sector := by
  obtain ⟨b, -, -, rfl, rfl⟩ := packBlob_eq_ok h
  have := length_le_sectorsFor b.length
  rw [List.length_rightpad, sector, Nat.max_eq_left this]

theorem length_loadStage1 {file stage1 : List UInt8} (hfile : file.length ≤ 512)
    (h : loadStage1 file = .ok stage1) : stage1.length = 512 := by
  rw [loadStage1] at h
  split at h
  · cases h
  · dsimp only at h
    split at h
    · cases h
    · rw [← Except.ok.inj h, List.length_rightpad]
      omega

/-! ### Tables -/

theorem fits_bootFields {total : ℕ} {layout : FatLayout} {label : List Char} {bs : List UInt8}
    (h : setFields (List.replicate 512 0) (bootFields total layout label) = .ok bs) :
    ∀ f ∈ bootFields total layout label, f.Fits (List.replicate 512 (0 : UInt8)).length := by
  refine fits_of_setFields ?_ h
  have hlabel : (((encode label).take 11).rightpad 11 0x20).length = 11 := by
    rw [List.length_rightpad, List.length_take]
    omega
  have hname : (encode (if layout.bits = .fat16 then "FAT16   " else "FAT12   ").toList).length =
      8 := by
    split <;> rfl
  have hzimg : (encode "QIZOIMG".toList ++ [0]).length = 8 := rfl
  simp only [bootFields, List.forall_mem_cons, Field.PartFits, hlabel, hname, hzimg,
    List.length_replicate, List.length_cons, List.length_nil, List.not_mem_nil, false_imp_iff,
    implies_true, and_true]
  decide

theorem fits_argFields {stage1 mbr : List UInt8} {blobSectors crc : ℕ}
    (h : setFields stage1 (argFields blobSectors crc) = .ok mbr) :
    ∀ f ∈ argFields blobSectors crc, f.Fits stage1.length := by
  refine fits_of_setFields ?_ h
  simp only [argFields, List.forall_mem_cons, Field.PartFits, List.not_mem_nil, false_imp_iff,
    implies_true, and_true]

theorem args_at_mbr {stage1 mbr : List UInt8} {blobSectors crc : ℕ}
    (h : setFields stage1 (argFields blobSectors crc) = .ok mbr) :
    HasAt mbr (stage1ArgsOff + 4) (leBytes 4 partLba) ∧
      HasAt mbr (stage1ArgsOff + 8) (leBytes 2 (stage2Sectors + blobSectors)) ∧
      HasAt mbr (stage1ArgsOff + 12) (leBytes 4 crc) := by
  have hfits := fits_argFields h
  refine ⟨hasAt_setFields (k := 0) hfits h rfl ?_, hasAt_setFields (k := 1) hfits h rfl ?_,
    hasAt_setFields (k := 2) hfits h rfl ?_⟩
  · simp [argFields, Field.patch]
  · simp [argFields, Field.patch]
  · simp [argFields]

theorem fits_partFields {l r : List UInt8} {total : ℕ} {layout : FatLayout} (hl : 512 ≤ l.length)
    (h : setFields l (partFields total layout) = .ok r) :
    ∀ f ∈ partFields total layout, f.Fits l.length := by
  refine fits_of_setFields ?_ h
  simp only [partFields, partEntry, List.forall_mem_cons, Field.PartFits, List.length_cons,
    List.length_nil, List.not_mem_nil, false_imp_iff, implies_true, and_true]
  omega

/-! ### What lies where -/

theorem HasAt.foldl_putFile {img d : List UInt8} {clusterOf : List (List Char × ℕ × ℕ)}
    {files : List File} {a dataLba : ℕ} (h : HasAt img a d)
    (hle : a + d.length ≤ dataLba * sector) :
    HasAt (files.foldl (putFile clusterOf dataLba) img) a d := by
  induction files generalizing img with
  | nil => exact h
  | cons f files ih =>
    refine ih ?_
    rw [putFile]
    split
    · exact h
    · next first _ _ =>
      refine HasAt.setSlice_behind h (hle.trans ?_)
      exact Nat.mul_le_mul_right _ (Nat.le_add_right _ _)

namespace Written

theorem partLba_eq (w : Written ratio args img) : w.layout.partLba = 24 + w.blobSectors :=
  (chooseLayout_spec w.chooseLayout_eq).1

theorem total_eq (w : Written ratio args img) :
    w.total = w.layout.partLba + 32 + 2 * w.layout.fatSize + 14 + w.layout.clusters :=
  (chooseLayout_spec w.chooseLayout_eq).2.2

theorem length_blob (w : Written ratio args img) : w.blob.length = w.blobSectors * sector :=
  length_packBlob w.packBlob_eq

theorem length_bs (w : Written ratio args img) : w.bs.length = 512 := by
  rw [length_setFields (fits_bootFields w.bs_eq) w.bs_eq, List.length_replicate]

theorem length_mbr (w : Written ratio args img) (hstage1 : args.stage1.length ≤ 512) :
    w.mbr.length = 512 := by
  rw [length_setFields (fits_argFields w.mbr_eq) w.mbr_eq,
    length_loadStage1 hstage1 w.loadStage1_eq]

theorem length_stage2 (w : Written ratio args img) :
    (args.stage2.rightpad (stage2Sectors * sector) 0).length = 8 * sector := by
  rw [List.length_rightpad]
  exact Nat.max_eq_left w.stage2_le

/-- The image before the blob and the master boot record are written. -/
def volume (w : Written ratio args img) : List UInt8 :=
  assemble w.total w.layout w.files w.alloc.clusterOf w.bs w.alloc.fat w.root []
    (blobLba * sector) (args.stage2.rightpad (stage2Sectors * sector) 0)

/-- The image before the master boot record is written. -/
def assembled (w : Written ratio args img) : List UInt8 :=
  setSlice w.volume (blobLba * sector) (blobLba * sector + w.blob.length) w.blob

theorem assemble_eq_assembled (w : Written ratio args img) :
    assemble w.total w.layout w.files w.alloc.clusterOf w.bs w.alloc.fat w.root w.blob
      (blobLba * sector) (args.stage2.rightpad (stage2Sectors * sector) 0) = w.assembled := by
  rw [assembled, volume, assemble, assemble, List.length_nil, setSlice_nil]

/-- The boot sector is behind stage2, and in front of everything else. -/
theorem boot_at_volume (w : Written ratio args img) :
    HasAt w.volume (w.layout.partLba * sector) w.bs := by
  have hpart := w.partLba_eq
  have htotal := w.total_eq
  have hreserved := (chooseLayout_spec w.chooseLayout_eq).2.1
  have hbs := w.length_bs
  have hstage2 := w.length_stage2
  rw [volume, assemble, hreserved, List.length_nil, setSlice_nil]
  generalize args.stage2.rightpad (stage2Sectors * sector) 0 = st at hstage2
  have hboot : HasAt (setSlice (List.replicate (w.total * sector) 0) (w.layout.partLba * sector)
      (w.layout.partLba * sector + 512) w.bs) (w.layout.partLba * sector) w.bs :=
    hasAt_setSlice (by rw [List.length_replicate, sector]; omega)
  simp only [sector, partLba] at *
  refine HasAt.foldl_putFile ?_ ?_
  · refine HasAt.setSlice_behind (HasAt.setSlice_behind (HasAt.setSlice_behind ?_ ?_) ?_) ?_
    · exact hboot.setSlice_front (by omega)
    · omega
    · omega
    · omega
  · rw [sector]
    omega

theorem length_volume (w : Written ratio args img) :
    (w.layout.partLba + 1) * sector ≤ w.volume.length := by
  have hbs := w.length_bs
  have := w.boot_at_volume.lt_length (i := 511) (by omega)
  refine le_trans ?_ this
  rw [sector]
  omega

theorem boot_at_assembled (w : Written ratio args img) :
    HasAt w.assembled (w.layout.partLba * sector) w.bs := by
  have hpart := w.partLba_eq
  have hblob := w.length_blob
  refine w.boot_at_volume.setSlice_front ?_
  rw [hblob, blobLba, hpart, sector]
  omega

theorem blob_at_assembled (w : Written ratio args img) :
    HasAt w.assembled (blobLba * sector) w.blob := by
  have hpart := w.partLba_eq
  have hlen := w.length_volume
  have hle : blobLba * sector ≤ w.volume.length := by
    refine le_trans ?_ hlen
    rw [sector, blobLba]
    omega
  rw [assembled]
  exact hasAt_setSlice hle

/-- The image before the partition entry is written. -/
def recorded (w : Written ratio args img) : List UInt8 := setSlice w.assembled 0 sector w.mbr

theorem length_recorded (w : Written ratio args img) (hstage1 : args.stage1.length ≤ 512) :
    512 ≤ w.recorded.length := by
  have hmbr := w.length_mbr hstage1
  rw [recorded, setSlice, List.length_append, List.length_append, List.take_zero, hmbr]
  omega

/-- The partition entry leaves everything else alone. -/
theorem hasAt_of_recorded (w : Written ratio args img) (hstage1 : args.stage1.length ≤ 512) {a : ℕ}
    {d : List UInt8} (h : HasAt w.recorded a d) (ha : a + d.length ≤ 446 ∨ 462 ≤ a) :
    HasAt img a d := by
  have himg := w.img_eq
  rw [w.assemble_eq_assembled] at himg
  refine HasAt.setFields h (fits_partFields (w.length_recorded hstage1) himg) himg ?_
  simp only [partFields, partEntry, List.map_cons, List.map_nil, Field.patch, clear_cons,
    length_leBytes, List.length_cons, List.length_nil, clear_nil, and_true]
  omega

/-- The rest of the image is not touched by the master boot record. -/
theorem hasAt_of_assembled (w : Written ratio args img) (hstage1 : args.stage1.length ≤ 512) {a : ℕ}
    {d : List UInt8} (h : HasAt w.assembled a d) (ha : 512 ≤ a) : HasAt img a d := by
  have hmbr := w.length_mbr hstage1
  refine w.hasAt_of_recorded hstage1 ?_ (by omega)
  have := @HasAt.setSlice_front _ _ w.mbr _ 0 h (by omega)
  rwa [hmbr] at this

/-- **The boot sector of the volume.** -/
theorem boot_at (w : Written ratio args img) (hstage1 : args.stage1.length ≤ 512) :
    HasAt img (w.layout.partLba * sector) w.bs := by
  refine w.hasAt_of_assembled hstage1 w.boot_at_assembled ?_
  have := w.partLba_eq
  rw [sector]
  omega

/-- **The blob.** -/
theorem blob_at (w : Written ratio args img) (hstage1 : args.stage1.length ≤ 512) :
    HasAt img (blobLba * sector) w.blob :=
  w.hasAt_of_assembled hstage1 w.blob_at_assembled (by decide)

/-- **The arguments of stage1.** -/
theorem args_at (w : Written ratio args img) (hstage1 : args.stage1.length ≤ 512) :
    HasAt img (stage1ArgsOff + 4) (leBytes 4 partLba) ∧
      HasAt img (stage1ArgsOff + 8) (leBytes 2 (stage2Sectors + w.blobSectors)) ∧
      HasAt img (stage1ArgsOff + 12) (leBytes 4 (Lzss.checksum w.blob)) := by
  have hat {a : ℕ} {d : List UInt8} (h : HasAt w.mbr a d) (ha : 462 ≤ a) :
      HasAt img a d := by
    refine w.hasAt_of_recorded hstage1 ?_ (Or.inr ha)
    have hmbr : HasAt w.recorded 0 w.mbr := by
      rw [recorded]
      exact hasAt_setSlice (Nat.zero_le _)
    intro i hi
    rw [← Nat.zero_add (a + i), hmbr (a + i) (h.lt_length hi), h i hi]
  obtain ⟨h4, h8, h12⟩ := args_at_mbr w.mbr_eq
  exact ⟨hat h4 (by decide), hat h8 (by decide), hat h12 (by decide)⟩

end Written

/-! ### Runs that succeed -/

theorem fits_argFields_of_lt {n blobSectors crc : ℕ} (hn : 512 ≤ n) (hblob : blobSectors < 2 ^ 15)
    (hcrc : crc < 2 ^ 32) : ∀ f ∈ argFields blobSectors crc, f.Fits n := by
  have hoff : stage1ArgsOff = 464 := rfl
  simp only [argFields, List.forall_mem_cons, Field.Fits, hoff, partLba, stage2Sectors,
    List.not_mem_nil, false_imp_iff, implies_true, and_true]
  omega

theorem fits_partFields_of_lt {n total : ℕ} {layout : FatLayout} (hn : 512 ≤ n)
    (hpart : layout.partLba ≤ total) (htotal : total < 2 ^ 32) :
    ∀ f ∈ partFields total layout, f.Fits n := by
  simp only [partFields, partEntry, List.forall_mem_cons, Field.Fits, List.length_cons,
    List.length_nil, List.not_mem_nil, false_imp_iff, implies_true, and_true]
  omega

/-- What is left to do when the kernel, the blob and the layout are there always succeeds, if the
volume has room for the files. -/
theorem exists_main {stage1 payload blob : List UInt8} {meas : Measures} {blobSectors total : ℕ}
    {layout : FatLayout} (hstage1 : args.stage1.length ≤ 512)
    (hload : loadStage1 args.stage1 = .ok stage1) (hstage2 : args.stage2.length ≤ stage2Bytes)
    (hmeas : measure args = .ok meas) (hmod : packModule meas args.kernel = .ok payload)
    (hblob : packBlob args.raw payload = .ok (blobSectors, blob))
    (hlayout : chooseLayout args.imageSectors blobSectors = .ok (total, layout))
    (hinput : Input total layout [("README.TXT".toList, encode (readme ratio blobSectors
      args.kernel.length meas.entryOff.toNat meas.imgTotal.toNat blob.length payload.length
      layout)), ("KERNEL.BIN".toList, args.kernel)] args.label blob
      (args.stage2.rightpad (stage2Sectors * sector) 0)) :
    ∃ img, main ratio args = .ok img := by
  have hlen := length_loadStage1 hstage1 hload
  obtain ⟨b, -, hmax, hsectors, -⟩ := packBlob_eq_ok hblob
  have hargs : ∀ f ∈ argFields blobSectors (Lzss.checksum blob), f.Fits stage1.length := by
    refine fits_argFields_of_lt hlen.ge ?_ (Lzss.checksum_lt blob)
    rw [sectorsFor, sector] at hsectors
    rw [blobMax] at hmax
    omega
  obtain ⟨img, info, hbuild, hready⟩ := hinput.ready
  obtain ⟨bs, fat, root, -, hlaid⟩ := hready.parts
  have hp := hinput.planned
  have htotal := hp.total_eq
  have hpart := hp.partLba_eq
  have hsmall := hinput.small
  have himg : 512 ≤ img.length := by
    rw [hlaid.length_eq, sector]
    omega
  have hle : layout.partLba ≤ total := by omega
  have hlt : total < 2 ^ 32 := by
    rw [partLba] at hsmall
    omega
  obtain ⟨mbr, hmbr⟩ : ∃ mbr, setFields stage1 (argFields blobSectors (Lzss.checksum blob)) =
    .ok mbr := ⟨_, setFields_eq hargs⟩
  have hput : 512 ≤ (setSlice img 0 sector mbr).length := by
    rw [sector, length_setSlice (Nat.zero_le _) himg (by rw [length_setFields hargs hmbr, hlen])]
    exact himg
  rw [main, hload, ok_bind, raiseIf_of_not (Nat.not_lt.mpr hstage2), ok_bind, hmeas, ok_bind, hmod,
    ok_bind, hblob, ok_bind]
  dsimp only
  rw [hmbr, ok_bind, hlayout, ok_bind]
  dsimp only
  rw [hbuild, ok_bind]
  exact ⟨_, setFields_eq (fits_partFields_of_lt hput hle hlt)⟩

/-! ### A small image -/

/-- A kernel whose bytes repeat, with a hundred bytes of bss, a stage1 that is nothing but its
signature, and an empty stage2. -/
def smallArgs : Args where
  stage1 := List.replicate 510 0 ++ [0x55, 0xAA]
  stage2 := []
  kernel := List.replicate 24 0x90 ++ [0xF4]
  syms := ⟨some ktext, some ktext, some (ktext + 25), some (ktext + 125)⟩
  entry := none
  imageSectors := 0
  raw := false
  label := "QIZO_BOOT".toList

/-- What a module of 65 bytes and the one of that kernel, of 89, are compressed to, in percent:
`100.0 * 512 / 65` and `100.0 * 512 / 89`. -/
def smallRatio (_ n : ℕ) : List Char := (if n = 65 then "787.7" else "575.3").toList

/-- The module of that kernel. -/
def smallPayload : List UInt8 :=
  leBytes 4 qizokMagic ++ leBytes 4 25 ++ leBytes 4 0 ++ leBytes 4 125 ++ leBytes 4 ktext ++
    leBytes 4 sector ++ List.replicate 40 0 ++ (List.replicate 24 0x90 ++ [0xF4])

-- The zeros of the header and the run in the kernel are packed as back references.
example : (Lzss.compress smallPayload).map List.length = .ok 38 := by decide +kernel

theorem exists_packBlob_small : ∃ blob, packBlob false smallPayload = .ok (1, blob) := by
  have hfst : (packBlob false smallPayload).map Prod.fst = .ok 1 := by decide +kernel
  rcases hblob : packBlob false smallPayload with _ | ⟨n, blob⟩
  · rw [hblob] at hfst
    cases hfst
  · rw [hblob] at hfst
    obtain rfl : n = 1 := Except.ok.inj hfst
    exact ⟨blob, rfl⟩

/-- The tool accepts it. -/
theorem exists_main_small : ∃ img, main smallRatio smallArgs = .ok img := by
  obtain ⟨blob, hblob⟩ := exists_packBlob_small
  have hlen : blob.length = 512 := length_packBlob hblob
  refine @exists_main _ _ smallArgs.stage1 _ _ _ _ 4425 ⟨.fat16, 18, 4318, 32, 14, 25⟩
    (by decide +kernel) (by decide +kernel)
    (by decide) rfl (by decide +kernel) hblob (by decide +kernel) ?_
  rw [hlen]
  exact
    { plan := by rw [hlen]; decide +kernel
      small := by decide
      stage2_length := by decide +kernel
      label_ascii := by decide +kernel
      label_length := by decide
      files_length := by decide
      names := by decide +kernel
      nodup := by decide
      room := by decide +kernel }

end Image

end Qizo
