import Qizo.Boot.RawContainer
import Qizo.Boot.Validated

/-!
# What the checker makes of an image the tool has written

`mkqizoimg.py` and `qizocheck.py` both know the format, each in its own words. For the module they
do not agree: the header has the length of the kernel with its bss, without the 64 bytes of the
header itself, and the checker asks for room for them. A kernel with less bss than that is written,
and boots, and is not accepted. Nor is a raw container with zeros behind the module, which the
checker takes for a part of it.

## Main results

* `Written.ready` — the volume of an image, in the terms of the round trip
* `Written.checkBlob_eq_ok_iff`, `Written.checkModule_eq_ok_iff` — the two checks that can fail
* `checked_iff` — which of the images are accepted
-/

namespace Qizo

namespace Image

open ByteString Python Record Check

variable {ratio : ℕ → ℕ → List Char} {args : Args} {img : List UInt8}

/-- A check that is passed. -/
theorem failIf_bind_eq_ok {α : Type} {c : Prop} [Decidable c] {msg : String}
    {f : Unit → Except PyError α} {a : α} : (failIf c msg >>= f) = .ok a ↔ ¬c ∧ f () = .ok a := by
  rw [bind_eq_ok]
  exact ⟨fun ⟨_, hpass, h⟩ => ⟨raiseIf_eq_ok.mp hpass, h⟩,
    fun ⟨hpass, h⟩ => ⟨(), failIf_of_not hpass, h⟩⟩

/-! ### The volume -/

/-- A FAT16 layout is one that was planned as FAT16. -/
theorem planLayout_of_chooseLayout {imageSectors : ℤ} {blobSectors total : ℕ}
    {layout : FatLayout} (h : chooseLayout imageSectors blobSectors = .ok (total, layout))
    (hbits : layout.bits = .fat16) :
    planLayout total (blobLba + blobSectors) reservedSectors .fat16 = some layout := by
  rw [chooseLayout] at h
  split at h
  · split at h
    · next hsome =>
      obtain ⟨rfl, rfl⟩ := Prod.mk.inj (Except.ok.inj h)
      rcases Option.or_eq_some_iff.mp hsome with h16 | ⟨-, h12⟩
      · obtain ⟨-, -, -, htotal⟩ := total_of_planLayout (by decide) h16
        rwa [Int.toNat_of_nonneg (by omega)]
      · obtain ⟨-, -, h12, -⟩ := total_of_planLayout (by decide) h12
        rw [hbits] at h12
        cases h12
    · cases h
  · rw [pickLayout] at h
    generalize 1 <<< 14 = n at h
    generalize blobLba + blobSectors + reservedSectors + 2 + 14 + 4096 = start at h
    induction n generalizing start with
    | zero => cases h
    | succ n ih =>
      rw [pickLoop] at h
      split at h
      · split at h
        · next hsome =>
          obtain ⟨rfl, rfl⟩ := Prod.mk.inj (Except.ok.inj h)
          exact hsome
        · exact ih _ h
      · cases h

namespace Written

/-- `stage2_img`. -/
abbrev stage2Img (_ : Written ratio args img) : List UInt8 :=
  args.stage2.rightpad (stage2Sectors * sector) 0

theorem total_small (w : Written ratio args img) : w.total < partLba + 2 ^ 16 := by
  have hfits := fits_bootFields w.bs_eq (.num 2 38 (w.total - partLba)) (by simp [bootFields])
  obtain ⟨-, -, hlt⟩ := hfits
  rw [partLba] at hlt ⊢
  omega

theorem map_fst_files (w : Written ratio args img) :
    w.files.map Prod.fst = ["README.TXT".toList, "KERNEL.BIN".toList] := by
  rw [w.files_eq]
  rfl

end Written

theorem shortName_of_mem {name : List Char}
    (h : name ∈ ["README.TXT".toList, "KERNEL.BIN".toList]) : ShortName name := by
  have hshort : ∀ name ∈ ["README.TXT".toList, "KERNEL.BIN".toList], ShortName name := by decide
  exact hshort name h

namespace Written

/-- What `build_image` has been given. -/
theorem input (w : Written ratio args img) (hbits : w.layout.bits = .fat16)
    (hascii : IsAscii args.label) (hlabel : args.label.length ≤ 11)
    (hroom : clustersFor w.files ≤ w.layout.clusters) :
    Input w.total w.layout w.files args.label w.blob w.stage2Img where
  plan := by
    have hsectors : sectorsFor w.blob.length = w.blobSectors := by
      rw [w.length_blob, sectorsFor, sector]
      omega
    rw [hsectors]
    exact planLayout_of_chooseLayout w.chooseLayout_eq hbits
  small := w.total_small
  stage2_length := w.length_stage2
  label_ascii := hascii
  label_length := hlabel
  files_length := by
    rw [← List.length_map (f := Prod.fst), w.map_fst_files]
    decide
  names f hf := by
    have hname : f.1 ∈ w.files.map Prod.fst := List.mem_map_of_mem hf
    rw [w.map_fst_files] at hname
    exact shortName_of_mem hname
  nodup := by
    rw [w.map_fst_files]
    decide
  room := hroom

theorem length_img (w : Written ratio args img) (hstage1 : args.stage1.length ≤ 512) :
    img.length = w.assembled.length := by
  have hmbr := w.length_mbr hstage1
  have hlong := w.boot_at_assembled.lt_length (i := 511) (by rw [w.length_bs]; decide)
  have himg := w.img_eq
  rw [w.assemble_eq_assembled] at himg
  rw [length_setFields (fits_partFields (w.length_recorded hstage1) himg) himg]
  exact length_setSlice (Nat.zero_le _) (by rw [sector]; omega) hmbr

/-- **The volume of the image is in place.** The master boot record is in front of all of it. -/
theorem ready (w : Written ratio args img) (hstage1 : args.stage1.length ≤ 512)
    (hinput : Input w.total w.layout w.files args.label w.blob w.stage2Img) :
    Ready img w.total w.layout w.files args.label w.blob w.stage2Img := by
  obtain ⟨img', info, hbuild, hready⟩ := hinput.ready
  rw [buildImage, w.bs_eq, ok_bind, w.alloc_eq, ok_bind, w.root_eq, ok_bind] at hbuild
  obtain rfl := (Prod.mk.inj (Except.ok.inj hbuild)).1
  rw [w.assemble_eq_assembled] at hready
  obtain ⟨bs, fat, root, hparts, hlaid⟩ := hready.parts
  have hat {a : ℕ} {d : List UInt8} (h : HasAt w.assembled (a * sector) d) (ha : 1 ≤ a) :
      HasAt img (a * sector) d :=
    w.hasAt_of_assembled hstage1 h (Nat.le_mul_of_pos_left sector ha)
  have hpart := w.partLba_eq
  refine ⟨hinput, bs, fat, root, hparts, ?_⟩
  exact
    { length_eq := (w.length_img hstage1).trans hlaid.length_eq
      boot_at := hat hlaid.boot_at (by omega)
      stage2_at := hat hlaid.stage2_at (by decide)
      fat_at := fun copy hcopy => hat (hlaid.fat_at copy hcopy) (by omega)
      root_at := hat hlaid.root_at (by omega)
      data_at := fun p hp => hat (hlaid.data_at p hp) (by rw [FatLayout.dataLba]; omega)
      blob_at := hat hlaid.blob_at (by decide) }

/-- What of the master boot record the partition entry does not touch. -/
theorem hasAt_of_mbr (w : Written ratio args img) (hstage1 : args.stage1.length ≤ 512) {a : ℕ}
    {d : List UInt8} (h : HasAt w.mbr a d) (ha : 462 ≤ a) : HasAt img a d := by
  refine w.hasAt_of_recorded hstage1 (fun i hi => ?_) (.inr ha)
  have hmbr : HasAt w.recorded 0 w.mbr := hasAt_setSlice (Nat.zero_le _)
  rw [← Nat.zero_add (a + i), hmbr (a + i) (h.lt_length hi), h i hi]

/-- The signature of the boot sector. -/
theorem signature_at (w : Written ratio args img) (hstage1 : args.stage1.length ≤ 512) :
    HasAt img 510 [0x55, 0xAA] := by
  have hstage : HasAt w.stage1 510 [0x55, 0xAA] := by
    have hload := w.loadStage1_eq
    rw [loadStage1] at hload
    split at hload
    · cases hload
    · dsimp only at hload
      split at hload
      · cases hload
      · next hsig =>
        rw [Except.ok.inj hload, not_not] at hsig
        exact hasAt_of_slice_eq hsig (by decide)
  have hmbr : HasAt w.mbr 510 [0x55, 0xAA] := by
    refine HasAt.setFields hstage (fits_argFields w.mbr_eq) w.mbr_eq ?_
    have hargs : stage1ArgsOff = 464 := rfl
    simp only [argFields, List.map_cons, List.map_nil, Field.patch, clear_cons, clear_nil, and_true,
      length_leBytes, List.length_cons, List.length_nil, hargs]
    omega
  exact w.hasAt_of_mbr hstage1 hmbr (by omega)

/-- The first sector of the volume, in the partition table. -/
theorem part_at (w : Written ratio args img) (hstage1 : args.stage1.length ≤ 512) :
    HasAt img 0x1C6 (leBytes 4 w.layout.partLba) := by
  have himg := w.img_eq
  rw [w.assemble_eq_assembled] at himg
  refine hasAt_setFields (k := 4) (fits_partFields (w.length_recorded hstage1) himg) himg ?_ ?_
  · simp [partFields, partEntry, Field.patch]
  · simp [partFields, partEntry, Field.patch]

/-! ### The blob -/

/-- A compressed container is its header, the stream and zeros. -/
theorem exists_stream (w : Written ratio args img) (hraw : args.raw = false)
    (hlen : w.payload.length < 2 ^ 32) :
    ∃ b stream, b = leBytes 4 Lzss.lzssMagic ++ leBytes 4 w.payload.length ++ stream ∧
      w.blob = b.rightpad (w.blobSectors * sector) 0 ∧
        ∀ pad, Lzss.decompress (b ++ pad) = .ok w.payload ∧ Lzss.BackRefsInRange (b ++ pad) := by
  obtain ⟨b, hcompress, -, -, hblob⟩ := packBlob_eq_ok w.packBlob_eq
  rw [hraw, if_neg Bool.false_ne_true] at hcompress
  obtain ⟨stream, hstream, hpad⟩ := Lzss.exists_compress hlen
  obtain rfl := Except.ok.inj (hcompress.symm.trans hstream)
  exact ⟨_, stream, rfl, hblob, hpad⟩

/-- The blob decodes to the module, however many zeros fill its last sector. -/
theorem decompress_blob (w : Written ratio args img) (hraw : args.raw = false)
    (hlen : w.payload.length < 2 ^ 32) :
    Lzss.decompress w.blob = .ok w.payload ∧ Lzss.BackRefsInRange w.blob := by
  obtain ⟨b, stream, -, hblob, hpad⟩ := w.exists_stream hraw hlen
  rw [hblob, List.rightpad]
  exact hpad _

/-- A raw container is its header and the module. -/
theorem rawContainer_eq_ok {payload b : List UInt8} (h : rawContainer payload = .ok b) :
    b = Stage2.rawHeader payload.length ++ payload := by
  rw [rawContainer] at h
  obtain ⟨zero, hzero, h⟩ := bind_eq_ok.mp h
  obtain ⟨len, hlen, h⟩ := bind_eq_ok.mp h
  obtain ⟨-, rfl⟩ := pack_eq_ok hzero
  obtain ⟨-, rfl⟩ := pack_eq_ok hlen
  exact (Except.ok.inj h).symm

/-- The container starts with its kind and the length of the module. -/
theorem container_at (w : Written ratio args img) (hlen : w.payload.length < 2 ^ 32) :
    HasAt w.blob 0 (leBytes 4 (if args.raw then 0 else Lzss.lzssMagic) ++
      leBytes 4 w.payload.length) := by
  have hself := hasAt_self w.blob
  cases hraw : args.raw with
  | true =>
    obtain ⟨b, hb, -, -, hblob⟩ := packBlob_eq_ok w.packBlob_eq
    rw [hraw, if_pos rfl] at hb
    obtain rfl := rawContainer_eq_ok hb
    nth_rewrite 2 [hblob] at hself
    rw [List.rightpad] at hself
    exact hself.left.left
  | false =>
    obtain ⟨b, stream, rfl, hblob, -⟩ := w.exists_stream hraw hlen
    nth_rewrite 2 [hblob] at hself
    rw [List.rightpad] at hself
    exact hself.left.left

theorem payload_eq (w : Written ratio args img) :
    w.payload.length = 64 + args.kernel.length ∧ w.payload.length ≤ kernelMax := by
  obtain ⟨-, hlen, -⟩ := Stage2.packModule_eq_ok w.packModule_eq
  obtain ⟨hklen, -, hmax, -⟩ := Stage2.measure_eq_ok w.measure_eq
  omega

theorem blobSectors_spec (w : Written ratio args img) :
    0 < w.blobSectors ∧ w.blobSectors ≤ 248 := by
  have hlen := w.length_blob
  have hle := Stage2.length_blob_le w
  have hmax := w.payload_eq.2
  have hpos := (w.container_at (by rw [kernelMax] at hmax; omega)).lt_length (i := 0) (by
    rw [List.length_append, length_leBytes]
    omega)
  rw [blobMax] at hle
  rw [sector] at hlen
  omega

/-! ### The image and the blob -/

/-- What the checker takes from the arguments of stage1. -/
def stageArgs (w : Written ratio args img) : StageArgs :=
  ⟨partLba, stage2Sectors + w.blobSectors, Lzss.checksum w.blob⟩

theorem checkImage_eq (w : Written ratio args img) (hstage1 : args.stage1.length ≤ 512)
    (hlen : img.length = w.total * sector) : checkImage img = .ok w.stageArgs := by
  obtain ⟨hlba, htotal, hcrc⟩ := w.args_at hstage1
  obtain ⟨hpos, hsectors⟩ := w.blobSectors_spec
  have hwhole : ¬img.length % sector ≠ 0 := by
    rw [hlen, Nat.mul_mod_left]
    exact not_not.mpr rfl
  have hsig : slice img 510 512 = [0x55, 0xAA] := (w.signature_at hstage1).slice_eq
  have hcount : stage2Sectors + w.blobSectors < 256 ^ 2 := by
    rw [stage2Sectors]
    omega
  rw [checkImage, failIf_of_not hwhole, ok_bind, failIf_of_not (not_not.mpr hsig), ok_bind,
    unpackFrom_of_hasAt hlba (by decide) (by decide), ok_bind,
    unpackFrom_of_hasAt htotal hcount (by decide), ok_bind,
    unpackFrom_of_hasAt hcrc (Lzss.checksum_lt _) (by decide), ok_bind,
    failIf_of_not (not_not.mpr rfl), ok_bind, failIf_of_not (by omega)]
  rfl

theorem blobOf_eq (w : Written ratio args img) (hstage1 : args.stage1.length ≤ 512) :
    Check.blobOf img w.stageArgs = w.blob := by
  have haddr : partLba * sector + stage2Bytes = blobLba * sector := by decide
  have hslice := (w.blob_at hstage1).slice_eq
  rw [w.length_blob] at hslice
  rw [Check.blobOf, stageArgs]
  dsimp only
  rw [Nat.add_sub_cancel_left, haddr, hslice]

theorem checkStage2_eq (w : Written ratio args img)
    (hat : HasAt img (partLba * sector) w.stage2Img) :
    checkStage2 img (some args.stage2) w.stageArgs = .ok () := by
  have hslice := hat.slice_eq
  rw [w.length_stage2] at hslice
  exact failIf_of_not (not_not.mpr hslice)

end Written

/-- A raw container has no room for zeros behind the module. -/
def Fills (args : Args) : Prop := args.raw = false ∨ sector ∣ 72 + args.kernel.length

namespace Written

/-- The bytes the checker takes from the container. -/
def contents (w : Written ratio args img) : Except PyError (List UInt8) :=
  if (if args.raw then 0 else Lzss.lzssMagic) = Lzss.lzssMagic then Lzss.decompress w.blob
  else .ok (w.blob.drop 8)

/-- **Zeros behind the module** are taken for a part of it if it is not compressed. -/
theorem contents_eq (w : Written ratio args img) :
    ∃ out, w.contents = .ok out ∧ (out.length = w.payload.length ↔ Fills args) ∧
      (Fills args → out = w.payload) := by
  obtain ⟨hplen, hmax⟩ := w.payload_eq
  rw [contents, Fills]
  cases hraw : args.raw with
  | false =>
    rw [if_neg Bool.false_ne_true, if_pos rfl]
    obtain ⟨hdec, -⟩ := w.decompress_blob hraw (by rw [kernelMax] at hmax; omega)
    exact ⟨_, hdec, iff_of_true rfl (.inl rfl), fun _ => rfl⟩
  | true =>
    have hpack := w.packBlob_eq
    rw [hraw] at hpack
    obtain ⟨-, fill, hblob⟩ := Stage2.packBlob_raw_eq_ok hpack
    have hhead : (Stage2.rawHeader w.payload.length).length = 8 := by
      rw [Stage2.rawHeader, List.length_append, length_leBytes, length_leBytes]
    have hdrop : w.blob.drop 8 = w.payload ++ fill := by
      rw [hblob, List.append_assoc, ← hhead, List.drop_left]
    have hsectors : w.blobSectors = sectorsFor (8 + w.payload.length) := by
      obtain ⟨b, hb, -, hsectors, -⟩ := packBlob_eq_ok hpack
      obtain rfl := rawContainer_eq_ok hb
      rw [hsectors, List.length_append, hhead]
    have hlen := congrArg List.length hblob
    rw [w.length_blob, hsectors, List.length_append, List.length_append, hhead, hplen, sectorsFor,
      sector] at hlen
    have hiff : fill.length = 0 ↔ sector ∣ 72 + args.kernel.length := by
      rw [sector]
      omega
    rw [if_pos rfl, if_neg (by decide), hdrop]
    refine ⟨_, rfl, ?_, fun h => ?_⟩
    · rw [List.length_append, Nat.add_eq_left, hiff]
      simp
    · rcases h with h | h
      · cases h
      · rw [List.length_eq_zero_iff.mp (hiff.mpr h), List.append_nil]

theorem checkBlob_eq_ok_iff (w : Written ratio args img) (hstage1 : args.stage1.length ≤ 512)
    (hat : HasAt img (partLba * sector) w.stage2Img) {out : List UInt8} :
    checkBlob img (some args.stage2) w.stageArgs = .ok out ↔ Fills args ∧ out = w.payload := by
  obtain ⟨-, hmax⟩ := w.payload_eq
  have hsmall : w.payload.length < 2 ^ 32 := by
    rw [kernelMax] at hmax
    omega
  have hcontainer := w.container_at hsmall
  obtain ⟨got, hgot, hlen, hpayload⟩ := w.contents_eq
  have hsize : ¬w.blob.length ≠ (w.stageArgs.total - stage2Sectors) * sector := by
    rw [w.length_blob, stageArgs, Nat.add_sub_cancel_left]
    exact not_not.mpr rfl
  have hmagic : unpackFrom 4 w.blob 0 = .ok (if args.raw then 0 else Lzss.lzssMagic) :=
    unpackFrom_of_hasAt hcontainer.left (by split <;> decide) (by decide)
  have hdeclared : unpackFrom 4 w.blob 4 = .ok w.payload.length := by
    have hright := hcontainer.right
    rw [length_leBytes] at hright
    exact unpackFrom_of_hasAt hright hsmall (by decide)
  have hknown : ¬((if args.raw then 0 else Lzss.lzssMagic) ≠ Lzss.lzssMagic ∧
      (if args.raw then 0 else Lzss.lzssMagic) ≠ 0) := by
    split <;> decide
  have hcrc : ¬Lzss.checksum w.blob ≠ w.stageArgs.crc := not_not.mpr rfl
  have hout : (failIf (got.length ≠ w.payload.length) ("decompressed length " ++
      toString got.length ++ " != declared " ++ toString w.payload.length) >>= fun _ => .ok got) =
        .ok out ↔ Fills args ∧ out = w.payload := by
    rw [failIf_bind_eq_ok, not_not, hlen]
    refine and_congr_right fun hfills => ?_
    rw [← hpayload hfills]
    exact ⟨fun h => (Except.ok.inj h).symm, fun h => h ▸ rfl⟩
  rw [checkBlob, w.blobOf_eq hstage1]
  dsimp only
  rw [w.checkStage2_eq hat, ok_bind, failIf_of_not hsize, ok_bind, failIf_of_not hcrc,
    ok_bind, hmagic, ok_bind, failIf_of_not hknown, ok_bind, hdeclared, ok_bind]
  rw [contents] at hgot
  by_cases hlzss : (if args.raw then 0 else Lzss.lzssMagic) = Lzss.lzssMagic
  · rw [if_pos hlzss] at hgot ⊢
    rw [hgot]
    exact hout
  · rw [if_neg hlzss] at hgot ⊢
    rw [ok_bind, Except.ok.inj hgot]
    exact hout

/-! ### The module -/

/-- What the checker should find: the measures of the kernel, and the kernel. -/
def found (w : Written ratio args img) : Module :=
  ⟨args.kernel.length, w.meas.entryOff.toNat, w.meas.imgTotal.toNat, args.kernel⟩

theorem entryOff_lt (w : Written ratio args img) : w.meas.entryOff.toNat < 256 ^ 4 := by
  have h := w.packModule_eq
  rw [packModule] at h
  obtain ⟨_, -, h⟩ := bind_eq_ok.mp h
  obtain ⟨_, -, h⟩ := bind_eq_ok.mp h
  obtain ⟨_, hentry, -⟩ := bind_eq_ok.mp h
  exact (packInt_eq_ok hentry).2.1

/-- **The checks on the module.** Two of them can fail. -/
theorem checkModule_eq_ok_iff (w : Written ratio args img) {mod : Module} :
    checkModule w.blob.length w.payload = .ok mod ↔ mod = w.found ∧
      args.kernel.length + 64 ≤ w.meas.imgTotal.toNat ∧
        w.meas.entryOff.toNat < args.kernel.length := by
  obtain ⟨hklen, -, hmax, htotal⟩ := Stage2.measure_eq_ok w.measure_eq
  obtain ⟨-, hlen, hat0, hat4, hat8, hat12, -, hkernel⟩ := Stage2.packModule_eq_ok w.packModule_eq
  have hblob := Stage2.length_blob_le w
  rw [hklen, Int.toNat_natCast] at hat4
  rw [hklen] at hmax
  simp only [kernelMax] at hmax htotal
  have hmagic := unpackFrom_of_hasAt hat0 (by decide) (by decide)
  have hsize := unpackFrom_of_hasAt hat4 (by omega) (by decide)
  have hentry := unpackFrom_of_hasAt hat8 w.entryOff_lt (by decide)
  have hall := unpackFrom_of_hasAt hat12 (by omega) (by decide)
  have hslice : slice w.payload 64 (64 + args.kernel.length) = args.kernel := hkernel.slice_eq
  rw [checkModule, hall, ok_bind, hmagic, ok_bind, hsize, ok_bind, hentry, ok_bind]
  simp only [failIf_bind_eq_ok]
  rw [hslice]
  constructor
  · rintro ⟨-, hroom, -, -, hinside, -, -, -, -, -, -, -, h⟩
    exact ⟨(Except.ok.inj h).symm, Nat.not_lt.mp hroom, Nat.not_le.mp hinside⟩
  · rintro ⟨rfl, hroom, hinside⟩
    simp only [kernelMax, blobPhys, blobMax, e820Buf, ktext, scratch, pagePml4] at hblob ⊢
    refine ⟨not_not.mpr rfl, by omega, by omega, by omega, by omega, by omega, by omega, by decide,
      by decide, by omega, by omega, by decide, rfl⟩

/-! ### The files -/

/-- The text of `README.TXT` starts with the name of the system. -/
theorem isPrefixOf_readme {blobSectors kernelLen entryOff imgTotal blobLen payloadLen : ℕ}
    {layout : FatLayout} : (encode "qizo".toList).isPrefixOf (encode (readme ratio blobSectors
      kernelLen entryOff imgTotal blobLen payloadLen layout)) = true := by
  have hprefix : "qizo".toList <+: readme ratio blobSectors kernelLen entryOff imgTotal blobLen
      payloadLen layout := by
    unfold readme
    simp only [List.append_assoc]
    have hfirst : "qizo".toList <+: "qizo bootable image\n".toList := by simp
    exact hfirst.trans (List.prefix_append _ _)
  obtain ⟨rest, hrest⟩ := hprefix
  rw [List.isPrefixOf_iff_prefix, ← hrest, encode, encode, List.flatMap_append]
  exact List.prefix_append _ _

/-- **The files** are what they should be. -/
theorem checkFs_eq (w : Written ratio args img) (hstage1 : args.stage1.length ≤ 512)
    (hready : Ready img w.total w.layout w.files args.label w.blob w.stage2Img)
    (hnul : args.label.head? ≠ some '\x00') : checkFs img args.kernel = .ok () := by
  have htotal := w.total_eq
  have hsmall := w.total_small
  rw [partLba] at hsmall
  have hpart := unpackFrom_of_hasAt (w.part_at hstage1) (by omega) (by decide)
  have hread := @Ready.readFiles_eq _ _ _ _ _ _ _ hready hnul 0 (by decide)
  have hkernel : w.files.reverse.lookup "KERNEL.BIN".toList = some args.kernel := by
    rw [w.files_eq]
    rfl
  obtain ⟨text, htext, hprefix⟩ : ∃ text, w.files.reverse.lookup "README.TXT".toList = some text ∧
      (encode "qizo".toList).isPrefixOf text := by
    rw [w.files_eq]
    exact ⟨_, rfl, isPrefixOf_readme⟩
  rw [checkFs, hpart, ok_bind, hread, ok_bind, hkernel]
  dsimp only
  rw [if_neg (not_not.mpr rfl), htext]
  exact if_pos hprefix

end Written

/-! ### The result -/

/-- **What is accepted.** The checks find what has been written, in exactly the images of a kernel
with 64 bytes of bss and its entry point inside, if no zeros have been added to a raw container. -/
theorem checked_iff (w : Written ratio args img) (hstage1 : args.stage1.length ≤ 512)
    (hbits : w.layout.bits = .fat16) (hascii : IsAscii args.label)
    (hlabel : args.label.length ≤ 11) (hnul : args.label.head? ≠ some '\x00')
    (hroom : clustersFor w.files ≤ w.layout.clusters) (mod : Module) :
    Check.main img (some args.stage2) = .ok mod ↔ mod = w.found ∧ Fills args ∧
      args.kernel.length + 64 ≤ w.meas.imgTotal.toNat ∧
        w.meas.entryOff.toNat < args.kernel.length := by
  have hready := w.ready hstage1 (w.input hbits hascii hlabel hroom)
  obtain ⟨bs, fat, root, -, hlaid⟩ := hready.parts
  have hfs := w.checkFs_eq hstage1 hready hnul
  rw [Check.main, w.checkImage_eq hstage1 hlaid.length_eq, ok_bind, w.blobOf_eq hstage1]
  constructor
  · intro h
    obtain ⟨out, hout, h⟩ := bind_eq_ok.mp h
    obtain ⟨hfills, rfl⟩ := (w.checkBlob_eq_ok_iff hstage1 hlaid.stage2_at).mp hout
    obtain ⟨found, hmod, h⟩ := bind_eq_ok.mp h
    obtain ⟨_, -, h⟩ := bind_eq_ok.mp h
    obtain rfl := Except.ok.inj h
    obtain ⟨hfound, hbss, hentry⟩ := w.checkModule_eq_ok_iff.mp hmod
    exact ⟨hfound, hfills, hbss, hentry⟩
  · rintro ⟨rfl, hfills, hbss, hentry⟩
    rw [(w.checkBlob_eq_ok_iff hstage1 hlaid.stage2_at).mpr ⟨hfills, rfl⟩, ok_bind,
      w.checkModule_eq_ok_iff.mpr ⟨rfl, hbss, hentry⟩, ok_bind]
    change (checkFs img args.kernel >>= _) = _
    rw [hfs]
    rfl

/-- A kernel of one byte with some bss. -/
def withBss (n : ℕ) : Args :=
  { smallArgs with
    kernel := [0xF4]
    syms := ⟨some ktext, some ktext, some (ktext + 1), some (ktext + 1 + n)⟩ }

/-- Its module. -/
def payloadWithBss (n : ℕ) : List UInt8 :=
  leBytes 4 qizokMagic ++ leBytes 4 1 ++ leBytes 4 0 ++ leBytes 4 (1 + n) ++ leBytes 4 ktext ++
    leBytes 4 sector ++ List.replicate 40 0 ++ [0xF4]

/-- The layout of its volume. -/
def bssLayout : FatLayout := ⟨.fat16, 18, 4318, 32, 14, 25⟩

/-- Its files. -/
def bssFiles (n : ℕ) : List File :=
  [("README.TXT".toList, encode (readme smallRatio 1 1 0 (1 + n) 512 65 bssLayout)),
    ("KERNEL.BIN".toList, [0xF4])]

section withBss

variable {n : ℕ}

/-- What the steps of the tool come to, for the two kernels that are looked at. -/
theorem evaluated_withBss :
    loadStage1 smallArgs.stage1 = .ok smallArgs.stage1 ∧ chooseLayout 0 1 = .ok (4425, bssLayout) ∧
      IsAscii smallArgs.label ∧ ∀ n ∈ ([63, 64] : List ℕ),
        packModule ⟨ktext, 1, 0, 1 + n⟩ [0xF4] = .ok (payloadWithBss n) ∧
          (packBlob false (payloadWithBss n)).map Prod.fst = .ok 1 ∧
            clustersFor (bssFiles n) ≤ bssLayout.clusters := by
  decide +kernel

theorem length_stage1_small : smallArgs.stage1.length ≤ 512 := by
  have hstage1 : smallArgs.stage1 = List.replicate 510 0 ++ [0x55, 0xAA] := rfl
  rw [hstage1, List.length_append, List.length_replicate]
  decide

theorem exists_packBlob_withBss (h : n ∈ [63, 64]) :
    ∃ blob, packBlob false (payloadWithBss n) = .ok (1, blob) := by
  obtain ⟨-, -, -, hall⟩ := evaluated_withBss
  obtain ⟨-, hfst, -⟩ := hall n h
  rcases hblob : packBlob false (payloadWithBss n) with _ | ⟨count, blob⟩
  · rw [hblob] at hfst
    cases hfst
  · rw [hblob] at hfst
    obtain rfl : count = 1 := Except.ok.inj hfst
    exact ⟨blob, rfl⟩

theorem measure_withBss (h : n ∈ [63, 64]) : measure (withBss n) = .ok ⟨ktext, 1, 0, 1 + n⟩ := by
  rcases List.mem_pair.mp h with rfl | rfl
  all_goals rfl

theorem input_withBss (h : n ∈ [63, 64]) {blob : List UInt8} (hblob : blob.length = 512) :
    Input 4425 bssLayout (bssFiles n) smallArgs.label blob
      (([] : List UInt8).rightpad (stage2Sectors * sector) 0) where
  plan := by
    have hsectors : sectorsFor 512 = 1 := by decide
    rw [hblob, hsectors]
    exact planLayout_of_chooseLayout evaluated_withBss.2.1 rfl
  small := by decide
  stage2_length := by
    rw [List.length_rightpad, List.length_nil, Nat.max_zero]
  label_ascii := evaluated_withBss.2.2.1
  label_length := by decide
  files_length := (by decide : 2 ≤ 223)
  names f hf := shortName_of_mem (List.mem_map_of_mem hf)
  nodup := (by decide : ["README.TXT".toList, "KERNEL.BIN".toList].Nodup)
  room := (evaluated_withBss.2.2.2 n h).2.2

/-- The tool writes it. -/
theorem written_withBss (h : n ∈ [63, 64]) :
    ∃ img, main smallRatio (withBss n) = .ok img ∧ ∃ w : Written smallRatio (withBss n) img,
      w.meas = ⟨ktext, 1, 0, 1 + n⟩ ∧ w.layout = bssLayout ∧ w.files = bssFiles n := by
  obtain ⟨hload, hlayout, -, hall⟩ := evaluated_withBss
  have hload : loadStage1 (withBss n).stage1 = .ok smallArgs.stage1 := hload
  have hpacked : packModule ⟨ktext, 1, 0, 1 + n⟩ (withBss n).kernel = .ok (payloadWithBss n) :=
    (hall n h).1
  obtain ⟨blob, hblob⟩ := exists_packBlob_withBss h
  have hlen : blob.length = 512 := length_packBlob hblob
  have hpayload : (payloadWithBss n).length = 65 := by
    simp [payloadWithBss]
  obtain ⟨img, himg⟩ := @exists_main smallRatio (withBss n) _ _ _ _ _ _ _
    length_stage1_small hload (by decide : ([] : List UInt8).length ≤ stage2Bytes)
    (measure_withBss h) hpacked hblob hlayout (by
      rw [hlen, hpayload]
      exact input_withBss h hlen)
  obtain ⟨w⟩ := exists_written himg
  have hmeas := Except.ok.inj (w.measure_eq.symm.trans (measure_withBss h))
  have hmod := w.packModule_eq
  rw [hmeas] at hmod
  have hpay := Except.ok.inj (hmod.symm.trans hpacked)
  have hpack : packBlob false w.payload = .ok (w.blobSectors, w.blob) := w.packBlob_eq
  rw [hpay] at hpack
  obtain ⟨hsectors, hbytes⟩ := Prod.mk.inj (Except.ok.inj (hpack.symm.trans hblob))
  have hchoose := w.chooseLayout_eq
  rw [hsectors] at hchoose
  have hlayout := (Prod.mk.inj (Except.ok.inj (hchoose.symm.trans hlayout))).2
  refine ⟨img, himg, w, hmeas, hlayout, ?_⟩
  rw [w.files_eq, hmeas, hpay, hsectors, hbytes, hlayout, hlen, hpayload]
  rfl

end withBss

/-- **64 bytes of bss**, and no less. -/
theorem checked_withBss :
    (∃ img, main smallRatio (withBss 64) = .ok img ∧ ∃ mod, Check.main img (some []) = .ok mod) ∧
      ∃ img, main smallRatio (withBss 63) = .ok img ∧
        ∀ mod, Check.main img (some []) ≠ .ok mod := by
  have hroom {n : ℕ} (h : n ∈ [63, 64]) : clustersFor (bssFiles n) ≤ bssLayout.clusters :=
    (evaluated_withBss.2.2.2 n h).2.2
  have hascii := evaluated_withBss.2.2.1
  obtain ⟨img, himg, w, hmeas, hlayout, hfiles⟩ := written_withBss (n := 64) (by decide)
  obtain ⟨img', himg', w', hmeas', hlayout', hfiles'⟩ := written_withBss (n := 63) (by decide)
  refine ⟨⟨img, himg, w.found, ?_⟩, img', himg', fun mod h => ?_⟩
  · refine (checked_iff w length_stage1_small (by rw [hlayout]; rfl) hascii (by decide)
      (by decide) (by rw [hlayout, hfiles]; exact hroom (by decide)) _).mpr
        ⟨rfl, .inl rfl, ?_, ?_⟩
    all_goals
      rw [hmeas]
      decide
  · obtain ⟨-, -, hbss, -⟩ := (checked_iff w' length_stage1_small (by rw [hlayout']; rfl)
      hascii (by decide) (by decide)
      (by rw [hlayout', hfiles']; exact hroom (by decide)) _).mp h
    rw [hmeas'] at hbss
    exact absurd hbss (by decide)

end Image

end Qizo
