import Mathlib.Data.List.Nodup
import Qizo.Image.Fat

/-!
# The FAT image round trip

`build_image` of `mkqizoimg.py` against the reader of `qizocheck.py`: the two compute sectors from
different data, the writer from the planned layout and the reader from the fields of the boot
sector, and agree on where everything is.

## Method

An image is its **parts**: boot sector, stage2, two allocation tables, root directory, file
contents and blob, put down one after the other (`Input.buildImage_eq`). No two of them overlap, so
each is still there at the end (`Input.laid`). The reader is then followed part by part, with
nothing but "this byte string is at this offset" known about the image.

## Main results

* `buildImage_roundTrip` — the files, the chains and the boot sectors of an image, for every input
  whose label does not start with a zero byte
* `not_roundTrip_nul_label` — a label that does
-/

namespace Qizo

namespace Image

open ByteString Python Record

/-- What `build_image` is given: a FAT16 layout planned behind the blob, a stage2 of eight sectors,
a short label, and files with distinct short names that the volume has room for. -/
structure Input (total : ℕ) (layout : FatLayout) (files : List File) (label : List Char)
    (blob stage2Img : List UInt8) : Prop where
  /-- The layout is one of `plan_layout`, behind the blob. -/
  plan : planLayout total (blobLba + sectorsFor blob.length) reservedSectors .fat16 = some layout
  /-- The number of sectors fits the 16-bit fields. -/
  small : total < partLba + 2 ^ 16
  /-- Stage2 fills its sectors. -/
  stage2_length : stage2Img.length = stage2Sectors * sector
  /-- The label is ASCII. -/
  label_ascii : IsAscii label
  /-- The label fits its field. -/
  label_length : label.length ≤ 11
  /-- The files fit the root directory beside the label. -/
  files_length : files.length ≤ 223
  /-- The names are short. -/
  names : ∀ f ∈ files, ShortName f.1
  /-- No name is used twice. -/
  nodup : (files.map Prod.fst).Nodup
  /-- The files fit the volume. -/
  room : clustersFor files ≤ layout.clusters

variable {total : ℕ} {layout : FatLayout} {files : List File} {label : List Char}
  {blob stage2Img : List UInt8}

namespace Input

theorem planned (h : Input total layout files label blob stage2Img) :
    layout.Planned total (blobLba + sectorsFor blob.length) 32 := planned_of_planLayout h.plan

end Input

/-! ### The boot sector -/

theorem Input.fits_bootFields (h : Input total layout files label blob stage2Img) :
    ∀ f ∈ bootFields total layout label, f.Fits 512 := by
  have hp := h.planned
  have hlabel : (((encode label).take 11).rightpad 11 0x20).length = 11 := by
    rw [List.length_rightpad, List.length_take]
    omega
  have hname :
      (encode (if layout.bits = .fat16 then "FAT16   " else "FAT12   ").toList).length = 8 := by
    rw [hp.bits_eq]
    rfl
  have htotal := hp.total_eq
  have hmin := hp.minimum
  have hsmall := h.small
  have hpart := hp.partLba_eq
  have hres := hp.reserved_eq
  rw [partLba] at hsmall
  have hzimg : (encode "QIZOIMG".toList ++ [0]).length = 8 := rfl
  simp only [bootFields, List.forall_mem_cons, Field.Fits, hlabel, hname, hzimg, List.length_cons,
    List.length_nil, sector, partLba, hres]
  norm_num
  omega

/-- The fields of a boot sector that a reader looks at. -/
structure IsBoot (bs : List UInt8) (reserved fatSize : ℕ) : Prop where
  length_eq : bs.length = 512
  signature : HasAt bs 510 [0x55, 0xAA]
  bps : HasAt bs 11 (leBytes 2 512)
  spc : HasAt bs 13 [1]
  reserved_at : HasAt bs 14 (leBytes 2 reserved)
  nfats : HasAt bs 16 [2]
  rootcnt : HasAt bs 17 (leBytes 2 224)
  media : HasAt bs 21 [0xF8]
  fatSize_at : HasAt bs 22 (leBytes 2 fatSize)

theorem Input.bootSector_eq (h : Input total layout files label blob stage2Img) :
    ∃ bs, setFields (List.replicate 512 0) (bootFields total layout label) = .ok bs ∧
      IsBoot bs 32 layout.fatSize := by
  have hfits := h.fits_bootFields
  have hr : InRange (List.replicate 512 (0 : UInt8)).length
      ((bootFields total layout label).map Field.patch) := by
    rw [List.length_replicate]
    exact inRange_map_patch hfits
  have hread (k : ℕ) {a : ℕ} {d : List UInt8}
      (hk : ((bootFields total layout label).map Field.patch)[k]? = some (a, d))
      (hc : Clear a d.length (((bootFields total layout label).map Field.patch).drop (k + 1))) :=
    hasAt_patches_get hk hr hc
  have hres := h.planned.reserved_eq
  refine ⟨_, setFields_eq (by rwa [List.length_replicate]), ?_⟩
  constructor
  · rw [length_patches hr, List.length_replicate]
  · exact hread 23 rfl (by simp [bootFields])
  · exact hread 2 rfl (by simp [bootFields, Field.patch])
  · exact hread 3 rfl (by simp [bootFields, Field.patch])
  · rw [← hres]
    exact hread 4 rfl (by simp [bootFields, Field.patch])
  · exact hread 5 rfl (by simp [bootFields, Field.patch])
  · exact hread 6 rfl (by simp [bootFields, Field.patch])
  · exact hread 8 rfl (by simp [bootFields, Field.patch])
  · exact hread 9 rfl (by simp [bootFields, Field.patch])

/-! ### The image as a list of patches -/

/-- First data sector of a layout. -/
def FatLayout.dataLba (layout : FatLayout) : ℕ :=
  layout.partLba + layout.reserved + 2 * layout.fatSize + 14

/-- The contents of the files, each at its first cluster. -/
def dataPatches (dataLba : ℕ) (files : List File) : List (ℕ × List UInt8) :=
  (placed 2 files).map fun p => ((dataLba + (p.2 - 2)) * sector, p.1.2)

theorem count_eq_zero_iff {f : File} : f.count = 0 ↔ f.2 = [] := by
  rw [← List.length_eq_zero_iff, File.count, sectorsFor, sector]
  omega

/-- **The data loop** puts down the contents of the files. -/
theorem foldl_putFile {clusterOf : List (List Char × ℕ × ℕ)} {dataLba : ℕ}
    {ps : List (File × ℕ)} (img : List UInt8)
    (h : ∀ p ∈ ps, clusterOf.lookup p.1.1 =
      if p.1.count = 0 then none else some (p.2, p.1.count)) :
    (ps.map Prod.fst).foldl (putFile clusterOf dataLba) img =
      patches img (ps.map fun p => ((dataLba + (p.2 - 2)) * sector, p.1.2)) := by
  induction ps generalizing img with
  | nil => rfl
  | cons p ps ih =>
    rw [List.forall_mem_cons] at h
    rw [List.map_cons, List.foldl_cons, ih _ h.2, List.map_cons, patches_cons]
    congr 1
    rw [putFile, h.1]
    by_cases hz : p.1.count = 0
    · rw [if_pos hz, count_eq_zero_iff.mp hz]
      exact (setSlice_nil _ _).symm
    · rw [if_neg hz]

/-- The parts of an image in the order they are put down. -/
def imagePatches (layout : FatLayout) (files : List File)
    (bs fat root blob stage2Img : List UInt8) :
    List (ℕ × List UInt8) :=
  [(layout.partLba * sector, bs),
   (partLba * sector, stage2Img),
   ((layout.partLba + layout.reserved) * sector, fat),
   ((layout.partLba + layout.reserved + layout.fatSize) * sector, fat),
   ((layout.partLba + layout.reserved + 2 * layout.fatSize) * sector, root)] ++
  dataPatches layout.dataLba files ++ [(blobLba * sector, blob)]

theorem assemble_eq {clusterOf : List (List Char × ℕ × ℕ)} {bs fat root : List UInt8}
    (hbs : bs.length = 512) (hbits : layout.bits = .fat16)
    (hput : ∀ p ∈ placed 2 files, clusterOf.lookup p.1.1 =
      if p.1.count = 0 then none else some (p.2, p.1.count)) :
    assemble total layout files clusterOf bs fat root blob (blobLba * sector) stage2Img =
      patches (List.replicate (total * sector) 0)
        (imagePatches layout files bs fat root blob stage2Img) := by
  have hfold (dataLba : ℕ) (img : List UInt8) := @foldl_putFile _ dataLba _ img hput
  rw [map_fst_placed] at hfold
  rw [assemble, hfold, hbits, imagePatches, patches_append, patches_append, ← hbs]
  rfl

/-- What the parts of an image are. -/
structure Parts (layout : FatLayout) (files : List File) (label : List Char)
    (bs fat root : List UInt8) : Prop where
  /-- The boot sector describes the layout. -/
  boot : IsBoot bs 32 layout.fatSize
  /-- The allocation table links the files. -/
  table : IsFat (layout.fatSize * 256) fat (fatTable files)
  /-- The root directory lists the label and the files. -/
  dir : ∃ e d, root = e ++ d ++ List.replicate ((223 - files.length) * 32) 0 ∧
    IsEntry e (entryBase label) (entryExt label) 0x08 0 0 ∧
    Lines (entryCluster (bindings 2 files [])) files d

namespace Input

variable (h : Input total layout files label blob stage2Img)
include h

theorem clusters_lt : 2 + clustersFor files < 65500 := by
  have hp := h.planned
  have := hp.total_eq
  have := hp.covers
  have := h.small
  have := h.room
  simp only [partLba, blobLba, sector] at *
  omega

theorem size_lt : ∀ f ∈ files, f.2.length < 2 ^ 32 := by
  intro f hf
  rw [← map_fst_placed 2 files] at hf
  obtain ⟨p, hp, rfl⟩ := List.mem_map.mp hf
  have hle := (le_of_mem_placed hp).2
  have := h.clusters_lt
  have := length_le_sectorsFor p.1.2.length
  rw [File.count] at hle
  omega

/-- **The image is its parts.** -/
theorem buildImage_eq : ∃ bs fat root info,
    buildImage total layout files label blob (blobLba * sector) stage2Img =
      .ok (patches (List.replicate (total * sector) 0)
        (imagePatches layout files bs fat root blob stage2Img), info) ∧
    Parts layout files label bs fat root := by
  have hp := h.planned
  have hclusters := h.clusters_lt
  have hcovers := hp.covers
  have hroom := h.room
  rw [sector] at hcovers
  obtain ⟨bs, hbs, hboot⟩ := h.bootSector_eq
  obtain ⟨fat, hfat, htable⟩ := @buildFat_spec _ files hp.bits_eq (by omega) (by omega)
  obtain ⟨e, d, hroot, hdir⟩ := buildRoot_spec h.label_ascii
    (fun f hf => (h.names f hf).isAscii) h.size_lt h.files_length
  have hput : ∀ p ∈ placed 2 files, (bindings 2 files []).lookup p.1.1 =
      if p.1.count = 0 then none else some (p.2, p.1.count) :=
    fun p hmem => lookup_bindings h.nodup hmem
  have hbuild : ∃ info, buildImage total layout files label blob (blobLba * sector) stage2Img =
      .ok (patches (List.replicate (total * sector) 0) (imagePatches layout files bs fat
        (e ++ d ++ List.replicate ((223 - files.length) * 32) 0) blob stage2Img), info) := by
    rw [buildImage, hbs, ok_bind, hfat, ok_bind, hp.bits_eq, hroot, ok_bind,
      ← assemble_eq hboot.length_eq hp.bits_eq hput]
    exact ⟨_, rfl⟩
  obtain ⟨info, hinfo⟩ := hbuild
  exact ⟨bs, fat, _, info, hinfo, hboot, htable, e, d, rfl, hdir⟩

end Input

/-! ### Where the parts are -/

theorem Parts.length_fat {bs fat root : List UInt8}
    (hparts : Parts layout files label bs fat root) :
    fat.length = layout.fatSize * 512 := by
  rw [hparts.table.1]
  omega

theorem Parts.length_root {bs fat root : List UInt8} (hparts : Parts layout files label bs fat root)
    (hfiles : files.length ≤ 223) : root.length = 7168 := by
  obtain ⟨e, d, rfl, he, hlines⟩ := hparts.dir
  simp only [List.length_append, List.length_replicate, he.length_eq, hlines.length_eq]
  omega

theorem clear_dataPatches {a n dataLba : ℕ} (h : a + n ≤ dataLba * sector) :
    Clear a n (dataPatches dataLba files) := by
  intro w hw
  obtain ⟨p, -, rfl⟩ := List.mem_map.mp hw
  have hle : dataLba * sector ≤ (dataLba + (p.2 - 2)) * sector :=
    Nat.mul_le_mul_right _ (Nat.le_add_right _ _)
  exact .inl (h.trans hle)

/-- Where a reader finds the parts of an image. -/
structure Laid (img : List UInt8) (total : ℕ) (layout : FatLayout) (files : List File)
    (bs fat root blob stage2Img : List UInt8) : Prop where
  length_eq : img.length = total * sector
  boot_at : HasAt img (layout.partLba * sector) bs
  stage2_at : HasAt img (partLba * sector) stage2Img
  fat_at : ∀ copy < 2,
    HasAt img ((layout.partLba + layout.reserved + copy * layout.fatSize) * sector) fat
  root_at : HasAt img ((layout.partLba + layout.reserved + 2 * layout.fatSize) * sector) root
  data_at : ∀ p ∈ placed 2 files, HasAt img ((layout.dataLba + (p.2 - 2)) * sector) p.1.2
  blob_at : HasAt img (blobLba * sector) blob

namespace Input

variable (h : Input total layout files label blob stage2Img)
include h

theorem inRange_dataPatches : InRange (total * sector) (dataPatches layout.dataLba files) := by
  intro w hw
  obtain ⟨p, hmem, rfl⟩ := List.mem_map.mp hw
  have hle := le_of_mem_placed hmem
  have hlen := length_le_sectorsFor p.1.2.length
  have hp := h.planned
  have := hp.total_eq
  have := hp.partLba_eq
  have := hp.reserved_eq
  have := h.room
  rw [File.count] at hle
  simp only [FatLayout.dataLba, sector, blobLba] at *
  omega

theorem inRange_imagePatches {bs fat root : List UInt8}
    (hparts : Parts layout files label bs fat root) :
    InRange (total * sector) (imagePatches layout files bs fat root blob stage2Img) := by
  have hbs := hparts.boot.length_eq
  have hfat := hparts.length_fat
  have hroot := hparts.length_root h.files_length
  have hblob := length_le_sectorsFor blob.length
  have hp := h.planned
  have htotal := hp.total_eq
  have hpart := hp.partLba_eq
  have hres := hp.reserved_eq
  have hstage2 := h.stage2_length
  have hdata := h.inRange_dataPatches
  simp only [imagePatches, inRange_append, inRange_cons, inRange_nil, hbs, hfat, hroot, hstage2]
  simp only [sector, partLba, blobLba, stage2Sectors] at *
  refine ⟨⟨⟨?_, ?_, ?_, ?_, ?_, trivial⟩, hdata⟩, ?_, trivial⟩ <;> omega

/-- The contents of a file are not overwritten by the files behind it. -/
theorem hasAt_data {bs fat root : List UInt8}
    (hr : InRange (List.replicate (total * sector) (0 : UInt8)).length
      (imagePatches layout files bs fat root blob stage2Img)) :
    ∀ p ∈ placed 2 files, HasAt (patches (List.replicate (total * sector) 0)
      (imagePatches layout files bs fat root blob stage2Img))
      ((layout.dataLba + (p.2 - 2)) * sector) p.1.2 := by
  intro p hmem
  obtain ⟨pre, post, hsplit⟩ := List.append_of_mem hmem
  have hpair := pairwise_placed 2 files
  have hle := (le_of_mem_placed hmem).1
  have hblob := length_le_sectorsFor blob.length
  have hlen := length_le_sectorsFor p.1.2.length
  have hpart := h.planned.partLba_eq
  rw [hsplit, List.pairwise_append, List.pairwise_cons] at hpair
  rw [imagePatches, dataPatches, hsplit, List.map_append, List.map_cons] at hr ⊢
  rw [← List.append_assoc, List.append_assoc] at hr ⊢
  refine hasAt_patches hr ?_
  change Clear _ _ (List.map _ post ++ [(blobLba * sector, blob)])
  rw [clear_append, clear_cons]
  refine ⟨fun w hw => ?_, .inr ?_, clear_nil _ _⟩
  · obtain ⟨q, hq, rfl⟩ := List.mem_map.mp hw
    have hpq := hpair.2.1.1 q hq
    rw [File.count] at hpq
    left
    simp only [sector]
    omega
  · simp only [FatLayout.dataLba, sector, blobLba] at *
    omega

/-- **Every part is where the layout says.** -/
theorem laid {bs fat root : List UInt8} (hparts : Parts layout files label bs fat root) :
    Laid (patches (List.replicate (total * sector) 0)
      (imagePatches layout files bs fat root blob stage2Img)) total layout files bs fat root blob
      stage2Img := by
  have hbs := hparts.boot.length_eq
  have hfat := hparts.length_fat
  have hroot := hparts.length_root h.files_length
  have hblob := length_le_sectorsFor blob.length
  have hp := h.planned
  have hpart := hp.partLba_eq
  have hres := hp.reserved_eq
  have hstage2 := h.stage2_length
  have hr := h.inRange_imagePatches hparts
  rw [← List.length_replicate (n := total * sector) (a := (0 : UInt8))] at hr
  have hread (k : ℕ) {a : ℕ} {d : List UInt8}
      (hk : (imagePatches layout files bs fat root blob stage2Img)[k]? = some (a, d))
      (hc : Clear a d.length
        ((imagePatches layout files bs fat root blob stage2Img).drop (k + 1))) :=
    hasAt_patches_get hk hr hc
  have hdata {a n : ℕ} (ha : a + n ≤ layout.dataLba * sector) := @clear_dataPatches files _ _ _ ha
  have hdataLba : layout.dataLba = layout.partLba + 32 + 2 * layout.fatSize + 14 := by
    rw [FatLayout.dataLba, hres]
  -- the parts behind the root directory are the files, and the blob lies in front of the volume
  have hfar {a n : ℕ} (ha : a + n ≤ layout.dataLba * 512) (hb : 24 * 512 + blob.length ≤ a)
      {k : ℕ} {ws : List (ℕ × List UInt8)} (hws : Clear a n ws)
      (hdrop : (imagePatches layout files bs fat root blob stage2Img).drop (k + 1) =
        ws ++ dataPatches layout.dataLba files ++ [(blobLba * sector, blob)]) :
      Clear a n ((imagePatches layout files bs fat root blob stage2Img).drop (k + 1)) := by
    rw [hdrop, clear_append, clear_append, clear_cons]
    exact ⟨⟨hws, clear_dataPatches ha⟩, .inr hb, clear_nil _ _⟩
  simp only [sector, blobLba, stage2Sectors] at hdataLba hpart hstage2
  constructor
  · rw [length_patches hr, List.length_replicate]
  · refine hread 0 rfl (hfar (by rw [sector]; omega) (by rw [sector]; omega) ?_ rfl)
    simp only [clear_cons, clear_nil, and_true, sector, partLba]
    omega
  · refine hread 1 rfl ?_
    change Clear _ _ ([_, _, _] ++ dataPatches layout.dataLba files ++ [_])
    rw [clear_append, clear_append]
    refine ⟨⟨?_, clear_dataPatches ?_⟩, ?_⟩
    all_goals
      simp only [clear_cons, clear_nil, and_true, sector, partLba, blobLba]
      omega
  · intro copy hcopy
    rcases Nat.lt_or_ge copy 1 with hzero | hone
    · obtain rfl : copy = 0 := by omega
      rw [Nat.zero_mul, Nat.add_zero]
      refine hread 2 rfl (hfar (by rw [sector]; omega) (by rw [sector]; omega) ?_ rfl)
      simp only [clear_cons, clear_nil, and_true, sector]
      omega
    · obtain rfl : copy = 1 := by omega
      rw [Nat.one_mul]
      refine hread 3 rfl (hfar (by rw [sector]; omega) (by rw [sector]; omega) ?_ rfl)
      simp only [clear_cons, clear_nil, and_true, sector]
      omega
  · refine hread 4 rfl (hfar (by rw [sector]; omega) (by rw [sector]; omega) ?_ rfl)
    exact clear_nil _ _
  · exact h.hasAt_data hr
  · exact hasAt_patches hr (clear_nil _ _)

end Input

/-! ### Reading the volume -/

open Check

/-- The volume a layout describes. -/
def FatLayout.volume (layout : FatLayout) : Volume :=
  ⟨layout.partLba, 1, 32, 2, 224, layout.fatSize⟩

theorem rootLba_volume (layout : FatLayout) :
    layout.volume.rootLba = layout.partLba + 32 + 2 * layout.fatSize := rfl

theorem dataLba_volume (layout : FatLayout) :
    layout.volume.dataLba = layout.partLba + 32 + 2 * layout.fatSize + 14 := by
  simp [Volume.dataLba, Volume.rootLba, FatLayout.volume, sector]

theorem readVolume_eq {img bs : List UInt8} (hat : HasAt img (layout.partLba * sector) bs)
    (hboot : IsBoot bs 32 layout.fatSize) (hsize : layout.fatSize < 65536) :
    readVolume img layout.partLba = .ok layout.volume := by
  have hbs : slice img (layout.partLba * sector) (layout.partLba * sector + sector) = bs := by
    have := hat.slice_eq
    rwa [hboot.length_eq] at this
  have hsig : slice bs 510 512 = [0x55, 0xAA] := hboot.signature.slice_eq
  have hspc : pyIndex bs 13 = .ok 1 := pyIndex_of_hasAt hboot.spc
  have hnfats : pyIndex bs 16 = .ok 2 := pyIndex_of_hasAt hboot.nfats
  have hmedia : pyIndex bs 21 = .ok 0xF8 := pyIndex_of_hasAt hboot.media
  rw [readVolume, hbs, failIf_of_not (not_not.mpr hsig), ok_bind,
    unpackFrom_of_hasAt hboot.bps (by omega) (by omega), ok_bind, hspc, ok_bind,
    unpackFrom_of_hasAt hboot.reserved_at (by omega) (by omega), ok_bind, hnfats, ok_bind,
    unpackFrom_of_hasAt hboot.rootcnt (by omega) (by omega), ok_bind, hmedia, ok_bind,
    unpackFrom_of_hasAt hboot.fatSize_at (by omega) (by omega), ok_bind,
    failIf_of_not (show ¬512 ≠ sector from not_not.mpr rfl), ok_bind, failIf_of_not (by simp)]
  rfl

/-! ### Reading the root directory -/

theorem IsEntry.head?_eq {e : List UInt8} {base ext : List Char} {attrs : UInt8}
    {cluster size : ℕ} (h : IsEntry e base ext attrs cluster size) (hascii : IsAscii base) :
    e.head? = base.head?.map fun c => UInt8.ofNat c.toNat := by
  have hbase := congrArg List.head? h.base_eq
  rwa [encode_of_isAscii hascii, List.head?_map, slice, List.drop_zero,
    List.head?_take, if_neg (by omega)] at hbase

/-- A line that is in use does not start with a zero byte. -/
theorem IsEntry.head_ne_zero {e : List UInt8} {base ext : List Char} {attrs : UInt8}
    {cluster size : ℕ} {c : Char} (h : IsEntry e base ext attrs cluster size)
    (hascii : IsAscii base) (hc : base.head? = some c) (hne : c ≠ '\x00') :
    e.head?.getD 0 ≠ 0 := by
  rw [h.head?_eq hascii, hc, Option.map_some, Option.getD_some]
  intro hzero
  have hlt : c.toNat < 128 := hascii c (List.mem_of_head? hc)
  have htoNat := congrArg UInt8.toNat hzero
  rw [UInt8.toNat_ofNat', Nat.mod_eq_of_lt (by omega)] at htoNat
  exact hne (Char.toNat_inj.mp htoNat)

/-- The first character of a padded upper-case string. -/
theorem head?_padded {s : List Char} {n : ℕ} (h : IsAscii s) :
    ((upper s).take (n + 1) |>.rightpad (n + 1) ' ').head? =
      some ((s.head?.map Char.toUpper).getD ' ') := by
  rw [upper_of_isAscii h]
  cases s with
  | nil => rfl
  | cons c s => rfl

theorem entryBase_head {name : List Char} (hascii : IsAscii name)
    (hne : name.head? ≠ some '\x00') :
    ∃ c, (entryBase name).head? = some c ∧ c ≠ '\x00' := by
  refine ⟨_, head?_padded (isAscii_splitName hascii).1, ?_⟩
  have hbase : (splitName name).1.head? = none ∨ (splitName name).1.head? = name.head? := by
    unfold splitName
    split
    case h_1 p hp =>
      rw [rsplit_eq_some hp]
      cases p.1 with
      | nil => exact .inl rfl
      | cons x xs => exact .inr rfl
    case h_2 => exact .inr rfl
  rcases hbase with hnone | hsome
  · rw [hnone]
    decide
  · rw [hsome]
    cases name with
    | nil => decide
    | cons c s =>
      have hc : c ≠ '\x00' := fun h => hne (by rw [h]; rfl)
      exact forall_ascii (p := fun x => x ≠ '\x00' → x.toUpper ≠ '\x00') (by decide)
        (hascii c List.mem_cons_self) hc

theorem rootLoop_zero {img : List UInt8} {base i k : ℕ}
    (h : HasAt img (base + i * 32) (List.replicate (k * 32) 0)) :
    rootLoop img base k i = .ok [] := by
  cases k with
  | zero => rfl
  | succ k =>
    have hsub := h.sub 0 32
    have hzero : slice (List.replicate ((k + 1) * 32) (0 : UInt8)) 0 32 = List.replicate 32 0 := by
      rw [slice, List.drop_zero, List.take_replicate]
      congr 1
      omega
    rw [hzero] at hsub
    have hslice : slice img (base + i * 32) (base + (i + 1) * 32) = List.replicate 32 0 := by
      have := hsub.slice_eq
      rwa [List.length_replicate, Nat.add_zero, Nat.add_assoc, ← Nat.succ_mul] at this
    rw [rootLoop, hslice]
    rfl

theorem slice_line {img e : List UInt8} {base i : ℕ} (h : HasAt img (base + i * 32) e)
    (hlen : e.length = 32) : slice img (base + i * 32) (base + (i + 1) * 32) = e := by
  have := h.slice_eq
  rwa [hlen, Nat.add_assoc, ← Nat.succ_mul] at this

theorem hasAt_next_line {img e d : List UInt8} {base i : ℕ} (h : HasAt img (base + i * 32) (e ++ d))
    (hlen : e.length = 32) : HasAt img (base + (i + 1) * 32) d := by
  have := h.right
  rwa [hlen, Nat.add_assoc, ← Nat.succ_mul] at this

/-- The label is passed over. -/
theorem rootLoop_label {img e : List UInt8} {base n i cluster size : ℕ} {name : List Char}
    {ext : List Char} (h : HasAt img (base + i * 32) e)
    (he : IsEntry e (entryBase name) ext 0x08 cluster size) (hascii : IsAscii name)
    (hne : name.head? ≠ some '\x00') :
    rootLoop img base (n + 1) i = rootLoop img base n (i + 1) := by
  have hattrs : pyIndex e 11 = .ok 0x08 := pyIndex_ofNat he.attrs_eq
  obtain ⟨c, hc, hne⟩ := entryBase_head hascii hne
  rw [rootLoop, slice_line h he.length_eq, if_neg
    (he.head_ne_zero (isAscii_entryBase hascii) hc hne), hattrs, ok_bind, if_pos (.inr rfl)]

/-- **The lines of the root directory**, read back. -/
theorem rootLoop_lines {img d : List UInt8} {base i k : ℕ} {first : File → ℕ}
    {files : List File} (h : HasAt img (base + i * 32) (d ++ List.replicate (k * 32) 0))
    (hd : Lines first files d) (hname : ∀ f ∈ files, ShortName f.1)
    (hsize : ∀ f ∈ files, f.2.length < 2 ^ 32) (hfirst : ∀ f ∈ files, first f < 65536) :
    rootLoop img base (files.length + k) i =
      .ok (files.map fun f => (f.1, f.2.length, first f)) := by
  induction files generalizing d i with
  | nil =>
    rw [Lines] at hd
    rw [hd, List.nil_append] at h
    rw [List.length_nil, Nat.zero_add]
    exact rootLoop_zero h
  | cons f fs ih =>
    obtain ⟨e, d', rfl, he, hd'⟩ := hd
    rw [List.forall_mem_cons] at hname hsize hfirst
    rw [List.append_assoc] at h
    rw [Nat.mod_eq_of_lt hfirst.1] at he
    have hrest := ih (hasAt_next_line h he.length_eq) hd' hname.2 hsize.2 hfirst.2
    have hattrs : pyIndex e 11 = .ok 0x20 := pyIndex_ofNat he.attrs_eq
    obtain ⟨c, hc, hne⟩ := entryBase_head hname.1.isAscii hname.1.head_ne
    rw [List.length_cons, Nat.add_right_comm, rootLoop, slice_line h.left he.length_eq,
      if_neg (he.head_ne_zero (isAscii_entryBase hname.1.isAscii) hc hne), hattrs, ok_bind,
      if_neg (by decide), parseEntry_eq he hname.1 hfirst.1 hsize.1, ok_bind, hrest, ok_bind]
    rfl

/-! ### Reading the files -/

theorem fat16_eq {img fat : List UInt8} {off n c : ℕ} {t : ℕ → ℕ} (hat : HasAt img off fat)
    (hfat : IsFat n fat t) (hc : c < n) : fat16 img off c = .ok (t c) := by
  have hlen := hfat.1
  have hle := hat.le_length (by rw [ne_eq, ← List.length_eq_zero_iff]; omega)
  rw [fat16, unpackFrom_of_le (by omega), hat.leNat_slice (by omega), hfat.2 c hc]

/-- The chain from inside a file to its end. -/
theorem chainLoop_eq {img fat : List UInt8} {off n stop cur fuel : ℕ} {t : ℕ → ℕ}
    (hat : HasAt img off fat) (hfat : IsFat n fat t) (hcur : 2 ≤ cur)
    (hlink : ∀ c, cur ≤ c → c < stop → t c = if c + 1 = stop then 0xFFFF else c + 1)
    (hn : stop ≤ n) (hmax : stop ≤ 0xFFF8) (hfuel : stop - cur ≤ fuel) :
    cur < stop → chainLoop img off fuel cur = .ok (List.range' cur (stop - cur)) := by
  induction fuel generalizing cur with
  | zero => omega
  | succ fuel ih =>
    intro hlt
    have hrange :
        List.range' cur (stop - cur) = cur :: List.range' (cur + 1) (stop - (cur + 1)) := by
      rw [← List.range'_succ]
      congr 1
      omega
    rw [chainLoop, if_pos ⟨hcur, by omega⟩, fat16_eq hat hfat (by omega), ok_bind,
      hlink cur le_rfl hlt, hrange]
    by_cases hlast : cur + 1 = stop
    · have hend : chainLoop img off fuel 0xFFFF = .ok [] := by cases fuel <;> rfl
      rw [if_pos hlast, hend, hlast, Nat.sub_self]
      rfl
    · rw [if_neg hlast, ih (by omega) (fun c hc => hlink c (by omega)) (by omega) (by omega)]
      rfl

theorem flatMap_clusterData {img : List UInt8} {first : ℕ} (hfirst : 2 ≤ first) (count : ℕ) :
    (List.range' first count).flatMap (clusterData img layout.volume) =
      slice img ((layout.volume.dataLba + (first - 2)) * sector)
        ((layout.volume.dataLba + (first - 2)) * sector + count * sector) := by
  induction count with
  | zero => simp [slice]
  | succ count ih =>
    have hlast : clusterData img layout.volume (first + count) =
        slice img ((layout.volume.dataLba + (first - 2)) * sector + count * sector)
          ((layout.volume.dataLba + (first - 2)) * sector + (count + 1) * sector) := by
      have hspc : layout.volume.spc = 1 := rfl
      have hlba : layout.volume.dataLba + (first + count - 2) * 1 =
          layout.volume.dataLba + (first - 2) + count := by omega
      rw [clusterData, hspc, hlba, Nat.add_mul _ count, Nat.add_assoc _ count,
        Nat.add_mul _ (count + 1)]
    rw [List.range'_1_concat, List.flatMap_append, ih, List.flatMap_singleton, hlast,
      slice_append_slice (by omega) (by simp only [sector]; omega)]

/-- The clusters of every file of a volume, in the order of the root directory. -/
def chains (img : List UInt8) (part copy : ℕ) : Except PyError (List (List ℕ)) := do
  let v ← readVolume img part
  let entries ← rootLoop img (v.rootLba * sector) v.rootcnt 0
  entries.mapM fun e => chain img v copy e.2.2

theorem findFiles_eq {img : List UInt8} {v : Volume} {copy : ℕ} {entry : File → ℕ × ℕ}
    {files : List File} (h : ∀ f ∈ files, readFile img v copy (f.1, entry f) = .ok f.2)
    (found : List File) :
    findFiles img v copy (files.map fun f => (f.1, entry f)) found =
      .ok (files.reverse ++ found) := by
  induction files generalizing found with
  | nil => rfl
  | cons f fs ih =>
    rw [List.forall_mem_cons] at h
    rw [List.map_cons, findFiles, h.1, ok_bind, ih h.2, List.reverse_cons, List.append_assoc]
    rfl

/-- A volume whose parts are in place. -/
structure Ready (img : List UInt8) (total : ℕ) (layout : FatLayout) (files : List File)
    (label : List Char) (blob stage2Img : List UInt8) : Prop where
  /-- The parts were built from a valid input. -/
  input : Input total layout files label blob stage2Img
  /-- The parts are in place. -/
  parts : ∃ bs fat root, Parts layout files label bs fat root ∧
    Laid img total layout files bs fat root blob stage2Img

namespace Ready

variable {img : List UInt8} (h : Ready img total layout files label blob stage2Img)
include h

/-- The line of a file in the root directory. -/
theorem entryCluster_eq {p : File × ℕ} (hp : p ∈ placed 2 files) :
    entryCluster (bindings 2 files []) p.1 = if p.1.count = 0 then 0 else p.2 := by
  rw [entryCluster, lookup_bindings h.input.nodup hp]
  split <;> rfl

theorem fatSize_lt : layout.fatSize < 65536 := by
  have := h.input.planned.total_eq
  have := h.input.small
  rw [partLba] at this
  omega

theorem volume_eq : readVolume img layout.partLba = .ok layout.volume := by
  obtain ⟨bs, fat, root, hparts, hlaid⟩ := h.parts
  exact readVolume_eq hlaid.boot_at hparts.boot h.fatSize_lt

theorem entries_eq (hlabel : label.head? ≠ some '\x00') :
    rootLoop img (layout.volume.rootLba * sector) layout.volume.rootcnt 0 =
      .ok (files.map fun f => (f.1, f.2.length, entryCluster (bindings 2 files []) f)) := by
  obtain ⟨bs, fat, root, hparts, hlaid⟩ := h.parts
  obtain ⟨e, d, hroot, he, hlines⟩ := hparts.dir
  have hat := hlaid.root_at
  have hfiles := h.input.files_length
  rw [h.input.planned.reserved_eq, hroot, List.append_assoc] at hat
  rw [← rootLba_volume, ← Nat.add_zero (layout.volume.rootLba * sector), ← Nat.zero_mul 32] at hat
  have hfirst : ∀ f ∈ files, entryCluster (bindings 2 files []) f < 65536 := by
    intro f hf
    rw [← map_fst_placed 2 files] at hf
    obtain ⟨p, hp, rfl⟩ := List.mem_map.mp hf
    have := (le_of_mem_placed hp).2
    have := h.input.clusters_lt
    rw [h.entryCluster_eq hp]
    split <;> omega
  have hcnt : layout.volume.rootcnt = (files.length + (223 - files.length)) + 1 := by
    change 224 = _
    omega
  rw [hcnt, rootLoop_label hat.left he h.input.label_ascii hlabel]
  exact rootLoop_lines (hasAt_next_line hat he.length_eq) hlines h.input.names h.input.size_lt
    hfirst

theorem chain_eq {copy : ℕ} (hcopy : copy < 2) {p : File × ℕ} (hp : p ∈ placed 2 files) :
    chain img layout.volume copy (entryCluster (bindings 2 files []) p.1) =
      .ok (List.range' p.2 p.1.count) := by
  obtain ⟨bs, fat, root, hparts, hlaid⟩ := h.parts
  have hat := hlaid.fat_at copy hcopy
  rw [h.input.planned.reserved_eq] at hat
  rw [h.entryCluster_eq hp, chain]
  by_cases hz : p.1.count = 0
  · rw [if_pos hz, hz]
    rfl
  · have hle := le_of_mem_placed hp
    have hlt := h.input.clusters_lt
    have hcov := h.input.planned.covers
    have hroom := h.input.room
    rw [sector] at hcov
    rw [if_neg hz]
    have hlink : ∀ c, p.2 ≤ c → c < p.2 + p.1.count → fatTable files c =
        if c + 1 = p.2 + p.1.count then 0xFFFF else c + 1 := fun c hlo hhi => by
      rw [fatTable_of_le (by omega), chained_inside hp hlo hhi]
    have := @chainLoop_eq _ _ _ _ _ _ 100000 _ hat hparts.table hle.1 hlink (by omega) (by omega)
      (by omega) (by omega)
    rwa [Nat.add_sub_cancel_left] at this

theorem readFile_eq {copy : ℕ} (hcopy : copy < 2) {p : File × ℕ} (hp : p ∈ placed 2 files) :
    readFile img layout.volume copy
      (p.1.1, p.1.2.length, entryCluster (bindings 2 files []) p.1) = .ok p.1.2 := by
  obtain ⟨bs, fat, root, hparts, hlaid⟩ := h.parts
  have hle := (le_of_mem_placed hp).1
  have hlen := length_le_sectorsFor p.1.2.length
  have hdata := (hlaid.data_at p hp).slice_eq
  have hlba : layout.volume.dataLba = layout.dataLba := by
    rw [FatLayout.dataLba, h.input.planned.reserved_eq, dataLba_volume]
  have hsize : p.1.2.length ≤ p.1.count * sector := hlen
  rw [readFile, h.chain_eq hcopy hp, ok_bind, flatMap_clusterData hle, hlba,
    take_slice (Nat.add_le_add_left hsize _), hdata]
  rfl

theorem readFiles_eq (hlabel : label.head? ≠ some '\x00') {copy : ℕ} (hcopy : copy < 2) :
    readFiles img layout.partLba copy = .ok files.reverse := by
  have hread : ∀ f ∈ files, readFile img layout.volume copy
      (f.1, f.2.length, entryCluster (bindings 2 files []) f) = .ok f.2 := by
    intro f hf
    rw [← map_fst_placed 2 files] at hf
    obtain ⟨p, hp, rfl⟩ := List.mem_map.mp hf
    exact h.readFile_eq hcopy hp
  rw [readFiles, h.volume_eq, ok_bind, h.entries_eq hlabel, ok_bind,
    findFiles_eq hread,
    List.append_nil]

theorem chains_eq (hlabel : label.head? ≠ some '\x00') {copy : ℕ} (hcopy : copy < 2) :
    chains img layout.partLba copy =
      .ok ((placed 2 files).map fun p => List.range' p.2 p.1.count) := by
  have hentries : (files.map fun f => (f.1, f.2.length, entryCluster (bindings 2 files []) f)) =
      (placed 2 files).map fun p =>
        (p.1.1, p.1.2.length, entryCluster (bindings 2 files []) p.1) := by
    conv_lhs => rw [← map_fst_placed 2 files, List.map_map]
    rw [map_fst_placed]
    rfl
  rw [chains, h.volume_eq, ok_bind, h.entries_eq hlabel, ok_bind, hentries]
  exact mapM_map_eq_ok fun p hp => h.chain_eq hcopy hp

/-- A label that starts with a zero byte reads as the end of the directory. -/
theorem readFiles_eq_nil (hlabel : label.head? = some '\x00') (copy : ℕ) :
    readFiles img layout.partLba copy = .ok [] := by
  obtain ⟨bs, fat, root, hparts, hlaid⟩ := h.parts
  obtain ⟨e, d, hroot, he, -⟩ := hparts.dir
  have hat := hlaid.root_at
  rw [h.input.planned.reserved_eq, hroot, List.append_assoc, ← rootLba_volume,
    ← Nat.add_zero (layout.volume.rootLba * sector), ← Nat.zero_mul 32] at hat
  have hbase : (entryBase label).head? = some '\x00' := by
    obtain ⟨s, rfl⟩ : ∃ s, label = '\x00' :: s := List.head?_eq_some_iff.mp hlabel
    rw [entryBase, head?_padded (isAscii_splitName h.input.label_ascii).1, splitName, rsplit]
    cases rsplit '.' s <;> rfl
  have hhead : e.head?.getD 0 = 0 := by
    rw [he.head?_eq (isAscii_entryBase h.input.label_ascii), hbase]
    rfl
  have hcnt : layout.volume.rootcnt = 223 + 1 := rfl
  rw [readFiles, h.volume_eq, ok_bind, hcnt, rootLoop, slice_line hat.left he.length_eq,
    if_pos hhead]
  rfl

/-- A cluster outside every file is free in both tables. -/
theorem fat16_eq_zero {copy : ℕ} (hcopy : copy < 2) {c : ℕ} (hlo : 2 ≤ c)
    (hhi : c < layout.clusters + 2)
    (hfree : ∀ p ∈ placed 2 files, c ∉ List.range' p.2 p.1.count) :
    fat16 img ((layout.partLba + layout.reserved + copy * layout.fatSize) * sector) c = .ok 0 := by
  obtain ⟨bs, fat, root, hparts, hlaid⟩ := h.parts
  have hcov := h.input.planned.covers
  rw [sector] at hcov
  rw [fat16_eq (hlaid.fat_at copy hcopy) hparts.table (by omega), fatTable_of_le hlo,
    chained_outside]
  by_contra hin
  obtain ⟨p, hp, hlo', hhi'⟩ := @exists_placed _ files _ hlo (by omega)
  exact hfree p hp (List.mem_range'_1.mpr ⟨hlo', hhi'⟩)

end Ready

theorem Input.ready (h : Input total layout files label blob stage2Img) :
    ∃ img info, buildImage total layout files label blob (blobLba * sector) stage2Img =
      .ok (img, info) ∧ Ready img total layout files label blob stage2Img := by
  obtain ⟨bs, fat, root, info, hbuild, hparts⟩ := h.buildImage_eq
  exact ⟨_, info, hbuild, h, bs, fat, root, hparts, h.laid hparts⟩

/-! ### The round trip -/

/-- What is asked of `build_image`: it succeeds, and the image has the planned size; the files read
back through either allocation table; chains do not meet and every other cluster is free; and
neither stage2 nor the blob is touched. -/
def RoundTrip (total : ℕ) (layout : FatLayout) (files : List File) (label : List Char)
    (blob stage2Img : List UInt8) : Prop :=
  ∃ img info, buildImage total layout files label blob (blobLba * sector) stage2Img =
      .ok (img, info) ∧
    img.length = total * sector ∧
    (∀ copy < 2, ∃ found, readFiles img layout.partLba copy = .ok found ∧
      found.length = files.length ∧ ∀ f ∈ files, found.lookup f.1 = some f.2) ∧
    (∀ copy < 2, ∃ cs, chains img layout.partLba copy = .ok cs ∧ cs.Pairwise List.Disjoint ∧
      ∀ c, 2 ≤ c → c < layout.clusters + 2 → (∀ ch ∈ cs, c ∉ ch) →
        fat16 img ((layout.partLba + layout.reserved + copy * layout.fatSize) * sector) c = .ok 0) ∧
    slice img (partLba * sector) (partLba * sector + stage2Sectors * sector) = stage2Img ∧
    slice img (blobLba * sector) (blobLba * sector + blob.length) = blob

/-- **FAT round trip.** -/
theorem buildImage_roundTrip (h : Input total layout files label blob stage2Img)
    (hlabel : label.head? ≠ some '\x00') :
    RoundTrip total layout files label blob stage2Img := by
  obtain ⟨img, info, hbuild, hready⟩ := h.ready
  obtain ⟨bs, fat, root, -, hlaid⟩ := hready.parts
  refine ⟨img, info, hbuild, hlaid.length_eq, fun copy hcopy => ?_, fun copy hcopy => ?_, ?_,
    hlaid.blob_at.slice_eq⟩
  · refine ⟨files.reverse, hready.readFiles_eq hlabel hcopy, List.length_reverse, fun f hf => ?_⟩
    refine lookup_of_mem ?_ (List.mem_reverse.mpr hf)
    rw [List.map_reverse]
    exact List.nodup_reverse.mpr h.nodup
  · refine ⟨_, hready.chains_eq hlabel hcopy, ?_, fun c hlo hhi hfree => ?_⟩
    · rw [List.pairwise_map]
      refine (pairwise_placed 2 files).imp fun {p q} hpq c hc hc' => ?_
      rw [List.mem_range'_1] at hc hc'
      omega
    · refine hready.fat16_eq_zero hcopy hlo hhi fun p hp => ?_
      exact hfree _ (List.mem_map_of_mem hp)
  · have := hlaid.stage2_at.slice_eq
    rwa [h.stage2_length] at this

/-- A file of three clusters, one of two, and an empty one. -/
def smallFiles : List File :=
  [("README.TXT".toList, List.replicate 1025 0x71), ("KERNEL.BIN".toList, List.replicate 600 0x90),
    ("EMPTY".toList, [])]

theorem shortName_smallFiles : ∀ f ∈ smallFiles, ShortName f.1 := fun _ hf =>
  (by decide +kernel : ∀ n ∈ smallFiles.map Prod.fst, ShortName n) _ (List.mem_map_of_mem hf)

/-- Three files behind a blob of two sectors, under the default label. -/
theorem buildImage_roundTrip_small :
    RoundTrip 4426 ⟨.fat16, 18, 4318, 32, 14, 26⟩ smallFiles "QIZO_BOOT".toList
      (List.replicate 1024 0xA5) (List.replicate 4096 0) :=
  buildImage_roundTrip
    { plan := by rw [List.length_replicate]; decide
      small := by decide
      stage2_length := List.length_replicate
      label_ascii := by decide
      label_length := by decide +kernel
      files_length := by decide
      names := shortName_smallFiles
      nodup := by decide +kernel
      room := by decide +kernel } (by decide)

/-- The layout of an image of 4424 sectors without a blob. -/
def smallLayout : FatLayout := ⟨.fat16, 18, 4318, 32, 14, 24⟩

/-- **A label of one zero byte** hides every file. -/
theorem not_roundTrip_nul_label :
    Input 4424 smallLayout [("A".toList, [1])] ['\x00'] [] (List.replicate 4096 0) ∧
      ¬RoundTrip 4424 smallLayout [("A".toList, [1])] ['\x00'] [] (List.replicate 4096 0) := by
  have hinput : Input 4424 smallLayout [("A".toList, [1])] ['\x00'] [] (List.replicate 4096 0) :=
    ⟨by decide, by decide, List.length_replicate, by decide, by decide +kernel, by decide,
      by decide, by decide +kernel, by decide⟩
  refine ⟨hinput, ?_⟩
  rintro ⟨img, info, hbuild, -, hfound, -⟩
  obtain ⟨img', info', hbuild', hready⟩ := hinput.ready
  obtain ⟨rfl, -⟩ : img = img' ∧ info = info' := by
    rw [hbuild] at hbuild'
    simpa using hbuild'
  obtain ⟨found, hread, hlen, -⟩ := hfound 0 (by omega)
  have hnil : found = [] := by
    rw [hready.readFiles_eq_nil rfl] at hread
    exact (Except.ok.inj hread).symm
  rw [hnil] at hlen
  exact absurd hlen (by decide)

end Image

end Qizo
