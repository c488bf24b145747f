import Qizo.Image.Written
import Qizo.Kernel.Fat

/-!
# The volume driver on an image of the image tool

`mkqizoimg.py` writes a boot sector and `fat.c` reads it, with no definition in common. They differ
in two fields.

* The number of sectors is a word at 32 for the driver. The tool writes it there and then sets the
  bytes at 34 and 35, which are the upper half of that word, to `0x80` and `0x01`. The driver sees
  at least `0x01800000` sectors, twelve gigabytes, on a volume that has fewer than `2 ^ 16`.
* The label is at 39 for the driver and at 47 for the tool.

## Main results

* `not_agrees` — on no image does the driver report what the tool has laid out
-/

namespace Qizo

namespace Ata

/-! ### A drive with an image -/

/-- What drive 0 hands over are the sectors of an image. -/
def Serves (hw : Hardware) (img : List UInt8) : Prop :=
  ∀ tick r s data, r.drive = 0 → hw.transfer tick r s = some data →
    ∀ i < 512, ∀ b, img[(r.lba + s) * 512 + i]? = some b → data i = b

/-- Drive 0 with an image, which never fails. -/
def driveOf (img : List UInt8) : Hardware where
  attached := true
  identify drv :=
    if drv = 0 then
      some fun i =>
        if i = 60 then .ofNat (img.length / 512)
        else if i = 61 then .ofNat (img.length / 512 / 2 ^ 16)
        else 0
    else none
  transfer _ r s :=
    if r.drive = 0 then some fun i => img[(r.lba + s) * 512 + i]?.getD 0 else none

theorem serves_driveOf (img : List UInt8) : Serves (driveOf img) img := by
  intro tick r s data hdrive hdata i _ b hb
  rw [driveOf] at hdata
  dsimp only at hdata
  rw [if_pos hdrive] at hdata
  rw [← Option.some.inj hdata]
  dsimp only
  rw [hb, Option.getD_some]

/-- **One sector read** from a drive with an image. -/
theorem readDrive_serves {hw : Hardware} {img bs : List UInt8} {s s' : State} {lba : ℕ}
    {m m' : Memory} (hserves : Serves hw img) (hlba : lba < 2 ^ 28)
    (hat : ByteString.HasAt img (lba * 512) bs) (hlen : bs.length = 512)
    (h : readDrive hw s 0 lba 1 0 m = (true, m', s')) : m'.Holds 0 bs := by
  rw [readDrive] at h
  split at h
  · cases h
  · next regs hcmd =>
    obtain ⟨-, -, -, rfl⟩ := readCommand_eq_some_iff.mp hcmd
    rw [readLoop] at h
    cases hdata : hw.transfer s.tick (readRegs 0 lba 1) 0 with
    | none =>
      rw [hdata] at h
      cases h
    | some data =>
      rw [hdata] at h
      dsimp only at h
      rw [readLoop] at h
      rw [← (Prod.mk.inj (Prod.mk.inj h).2).1]
      have hdst {i : ℕ} (hi : i < 512) : ((List.range 512).map data)[i]? = some (data i) := by
        rw [List.getElem?_map, List.getElem?_range hi, Option.map_some]
      generalize (List.range 512).map data = dst at hdst
      intro i b hb
      have hi := (List.getElem?_eq_some_iff.mp hb).1
      rw [hlen] at hi
      have hbyte : data i = b := by
        refine hserves _ _ 0 data (drive_readRegs (by decide) hlba) hdata i hi b ?_
        rw [lba_readRegs (by decide) hlba, Nat.add_zero, hat i (by omega), hb]
      rw [← hbyte]
      exact Memory.holds_write m 0 dst i (data i) (hdst hi)

end Ata

namespace Fat

open ByteString Record Memory Image

/-! ### The boot sector -/

section BootSector

variable {total : ℕ} {layout : FatLayout} {label : List Char} {bs : List UInt8}

/-- The tool counts at most `2 ^ 16` sectors behind the first sixteen. -/
theorem total_lt_of_boot
    (h : setFields (List.replicate 512 0) (bootFields total layout label) = .ok bs) :
    total < 2 ^ 16 + 16 := by
  have hfit := fits_bootFields h (.num 2 38 (total - partLba)) (by simp [bootFields])
  obtain ⟨-, -, hlt⟩ := hfit
  rw [partLba] at hlt
  omega

/-- **The driver's word for the number of sectors** has `0x0180` in its upper half. -/
theorem bigSects_ge
    (h : setFields (List.replicate 512 0) (bootFields total layout label) = .ok bs) {m : Memory}
    (hm : m.Holds 0 bs) : (bpbOf m).mbrSects = 0 ∧ 0x01800000 ≤ (bpbOf m).bigSects := by
  have hfits := fits_bootFields h
  have hat19 : HasAt bs 19 (leBytes 2 0) :=
    hasAt_setFields (k := 7) hfits h rfl (by simp [bootFields, Field.patch])
  have hat34 : HasAt bs 34 [0x80] :=
    hasAt_setFields (k := 14) hfits h rfl (by simp [bootFields, Field.patch])
  have hat35 : HasAt bs 35 [0x01] :=
    hasAt_setFields (k := 15) hfits h rfl (by simp [bootFields, Field.patch])
  have h19 := hm 19 0 (hat19 0 (by decide))
  have h20 := hm 20 0 (hat19 1 (by decide))
  have h34 := hm 34 0x80 (hat34 0 (by decide))
  have h35 := hm 35 0x01 (hat35 0 (by decide))
  rw [Nat.zero_add] at h19 h20 h34 h35
  constructor
  · have : bytes m 19 2 = [m 19, m 20] := rfl
    rw [bpbOf]
    dsimp only
    rw [Memory.load, this, h19, h20]
    rfl
  · have : bytes m 32 4 = [m 32, m 33, m 34, m 35] := rfl
    rw [bpbOf]
    dsimp only
    rw [Memory.load, this, h34, h35]
    simp only [leNat_cons, leNat_nil]
    have h80 : (0x80 : UInt8).toNat = 128 := rfl
    have h01 : (0x01 : UInt8).toNat = 1 := rfl
    omega

/-- No acceptable sector spends as much on its tables as `big_sects` has too much. -/
theorem dataStart_lt {m : Memory} (h : acceptable m = true) : (bpbOf m).dataStart < 2 ^ 19 := by
  have hfats : (bpbOf m).fats ≤ 4 := by
    rw [acceptable, Bool.and_eq_true, Bool.and_eq_true, bpbSane] at h
    by_contra hgt
    simp [show 4 < (bpbOf m).fats by omega] at h
  have hreserved : (bpbOf m).reserved < 2 ^ 16 := load_lt m 2 14
  have hspf : (bpbOf m).spf < 2 ^ 16 := load_lt m 2 22
  have hroot : (bpbOf m).rootent < 2 ^ 16 := load_lt m 2 17
  have hmul : (bpbOf m).fats * (bpbOf m).spf ≤ 4 * (bpbOf m).spf := Nat.mul_le_mul_right _ hfats
  rw [Bpb.dataStart, Bpb.rootSects]
  omega

/-- **The clusters the driver counts** on a volume of the tool with one sector a cluster. -/
theorem clusters_ge
    (h : setFields (List.replicate 512 0) (bootFields total layout label) = .ok bs) {m : Memory}
    (hm : m.Holds 0 bs) (hacc : acceptable m = true) (hspc : (bpbOf m).spc = 1) :
    2 ^ 24 ≤ (bpbOf m).clusters := by
  obtain ⟨hzero, hbig⟩ := bigSects_ge h hm
  have hstart := dataStart_lt hacc
  have htotal : 0x01800000 ≤ (bpbOf m).totalSects := by
    rw [Bpb.totalSects, hzero]
    simp only [ne_eq, not_true_eq_false, if_false]
    split <;> omega
  rw [Bpb.clusters, hspc, Nat.div_one]
  omega

end BootSector

/-! ### The driver -/

/-- A search that succeeds does so in one of its windows. -/
theorem scanWindows_eq_true {hw : Ata.Hardware} {drive : ℕ} {firsts : List ℕ} {out out' : QizoFat}
    {k k' : State} (h : scanWindows hw drive firsts out k = (true, out', k')) :
    ∃ first out₀ k₀, scanDrive hw drive first out₀ k₀ = (true, out', k') := by
  induction firsts generalizing out k with
  | nil => simp [scanWindows] at h
  | cons first rest ih =>
    rw [scanWindows] at h
    rcases hscan : scanDrive hw drive first out k with ⟨ok, out₁, k₁⟩
    rw [hscan] at h
    dsimp only at h
    cases ok with
    | false => exact ih h
    | true => exact ⟨first, out, k, by rw [hscan]; exact h⟩

/-- What the driver and the tool should agree on: the place, the cluster size, the number of
clusters and of free ones, the kind and the label, up to the blanks at its end. -/
structure Agrees (layout : FatLayout) (files : List File) (label : List Char)
    (r : Bool × QizoFat × State) : Prop where
  ok : r.1 = true
  startLba : r.2.1.startLba = layout.partLba
  sectPerClust : r.2.1.sectPerClust = 1
  clusters : r.2.1.clusters = layout.clusters
  freeClusters : r.2.1.freeClusters = layout.clusters - clustersFor files
  type : r.2.1.type = "FAT16   "
  label : r.2.1.label = labelText (Python.encode label)

section Agreement

variable {ratio : ℕ → ℕ → List Char} {args : Args} {img : List UInt8} {hw : Ata.Hardware}

/-- What a search reports on the volume of an image, if it reports it with one sector a cluster. -/
theorem clusters_of_fatForStarted (w : Written ratio args img) (hstage1 : args.stage1.length ≤ 512)
    (hserves : Ata.Serves hw img) {blob : Blob} {out out' : QizoFat} {k k' : State}
    (h : fatForStarted hw blob 0 out k = (true, out', k'))
    (hlba : out'.startLba = w.layout.partLba) (hspc : out'.sectPerClust = 1) :
    2 ^ 24 ≤ out'.clusters := by
  rw [fatForStarted] at h
  split at h
  · cases h
  · split at h
    · cases h
    · obtain ⟨first, out₀, k₀, hscan⟩ := scanWindows_eq_true h
      obtain ⟨j, k₁, k₂, k₃, bytes, hread, hacc, hsector, rfl⟩ := scanLoop_eq_true hscan
      rw [report] at hlba hspc ⊢
      dsimp only at hlba hspc ⊢
      rw [hsector] at hspc ⊢
      refine clusters_ge w.bs_eq ?_ hacc hspc
      have htotal := w.total_eq
      have hsmall := total_lt_of_boot w.bs_eq
      rw [hlba, readBoot] at hread
      rcases hdrive : Ata.readDrive hw k₁.ata 0 w.layout.partLba 1 0 k₁.sector with ⟨ok, m, ata⟩
      rw [hdrive] at hread
      obtain ⟨rfl, rfl⟩ := Prod.mk.inj hread
      exact Ata.readDrive_serves hserves (by omega) (w.boot_at hstage1) w.length_bs hdrive

/-- The driver counts more clusters than the tool ever lays out. -/
theorem not_agrees_of_written (w : Written ratio args img) (hstage1 : args.stage1.length ≤ 512)
    (hserves : Ata.Serves hw img) (blob : Blob) (out : QizoFat) (k : State) :
    ¬Agrees w.layout w.files args.label (fatFor hw blob 0 out k) := by
  intro h
  have htotal := w.total_eq
  have hsmall := total_lt_of_boot w.bs_eq
  rcases hfat : fatFor hw blob 0 out k with ⟨ok, out', k'⟩
  rw [hfat] at h
  obtain rfl : ok = true := h.ok
  have hge := clusters_of_fatForStarted w hstage1 hserves hfat h.startLba h.sectPerClust
  have hclusters : out'.clusters = w.layout.clusters := h.clusters
  omega

/-- **The driver and the tool never agree.** -/
theorem not_agrees (hmain : Image.main ratio args = .ok img) (hstage1 : args.stage1.length ≤ 512)
    (hserves : Ata.Serves hw img) (blob : Blob) (out : QizoFat) (k : State) :
    Nonempty (Written ratio args img) ∧ ∀ w : Written ratio args img,
      ¬Agrees w.layout w.files args.label (fatFor hw blob 0 out k) :=
  ⟨exists_written hmain, fun w => not_agrees_of_written w hstage1 hserves blob out k⟩

/-- A small image, with the blob where stage2 says it is. -/
theorem not_agrees_small :
    ∃ img, Image.main smallRatio smallArgs = .ok img ∧ Ata.Serves (Ata.driveOf img) img ∧
      ∀ w : Written smallRatio smallArgs img, ∀ out k,
        ¬Agrees w.layout w.files smallArgs.label (fatFor (Ata.driveOf img) ⟨16, 9⟩ 0 out k) := by
  obtain ⟨img, hmain⟩ := exists_main_small
  refine ⟨img, hmain, Ata.serves_driveOf img, fun w out k => ?_⟩
  exact (not_agrees hmain (by decide +kernel) (Ata.serves_driveOf img) ⟨16, 9⟩ out k).2 w

/-- **An image on which they do not agree**, with a drive that never fails. -/
theorem exists_not_agrees :
    ∃ img, Image.main smallRatio smallArgs = .ok img ∧ ∃ w : Written smallRatio smallArgs img,
      ∀ out k,
        ¬Agrees w.layout w.files smallArgs.label (fatFor (Ata.driveOf img) ⟨16, 9⟩ 0 out k) := by
  obtain ⟨img, hmain⟩ := exists_main_small
  obtain ⟨w⟩ := exists_written hmain
  exact ⟨img, hmain, w, fun out k =>
    not_agrees_of_written w (by decide +kernel) (Ata.serves_driveOf img) ⟨16, 9⟩ out k⟩

end Agreement

end Fat

end Qizo
