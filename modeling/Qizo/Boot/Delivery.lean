import Qizo.Boot.Handoff
import Qizo.Image.Written
import Qizo.LzssRoundTrip

/-!
# From the image to the kernel

The image tool at one end and the second stage at the other. The tool packs the kernel behind a
header, compresses it, fills it up to whole sectors and writes their number and checksum into the
arguments of stage1; stage2 copies these into bootinfo, decodes the sectors, checks the header and
puts the kernel where it is linked.

Between the two lies what stage1 has loaded, `Loaded`: the first sector of the image at `0x7C00`
and the sectors named in its arguments at `0x20000`. All other memory is arbitrary.

## Real mode

`setupBootinfo` are the stores at `_start`. What the rest of the real mode code writes (probing
the A20 line, `cpuid`, the memory map, its stack) lies in `realModeWrites` and may be anything.

## Main results

* `bootMem_setupBootinfo` — what stage2 finds in memory is what the tool has written
* `delivers` — the kernel the tool was given is the kernel that is entered
-/

namespace Qizo

namespace Stage2

open X86 Reg Operand Label StateTransition ByteString Memory Python Image

/-! ### Real mode -/

/-- The stores to bootinfo at `_start`. -/
def setupBootinfo (m : Memory) : Memory :=
  let m := m.store 4 (bootinfo + biMagic) 0x00010001
  let m := m.store 1 (bootinfo + biDrive) (m.load 1 (biosArg + argDrive))
  let m := m.store 1 (bootinfo + biMode) 1
  let m := m.store 4 (bootinfo + biBlobLba) (m.load 4 (biosArg + argLba))
  let sectors := m.load 2 (biosArg + argTotal)
  let m := m.store 2 (bootinfo + biBlobSectors) sectors
  let m := m.store 4 (bootinfo + biBlobSize)
    (((sectors <<< 9) + (2 ^ 32 - (blobPhys - stage2))) % 2 ^ 32)
  let m := m.store 4 (bootinfo + biBlobPhys) blobPhys
  let m := m.store 4 (bootinfo + biBlobCrc) (m.load 4 (biosArg + argCrc))
  let m := m.store 4 (bootinfo + biScratch) scratch
  let m := m.store 4 (bootinfo + biKtext) ktext
  let m := m.store 4 (bootinfo + biFlags) bootver
  m.store 1 (bootinfo + biErr) 0

/-- Where real mode writes after that: low memory with its stack, the processor's and the A20
fields of bootinfo, the byte that probes A20, the count of the memory map and its buffer. The
processor marks the descriptors it loads, which are in stage2 itself. -/
def realModeWrites : List (ℕ × ℕ) :=
  [(0, bootinfo), (bootinfo + biCpuidMax, 6), (bootinfo + biE820N, 4), (bootinfo + 0x1FF0, 1),
    (stage2, stage2Bytes), (e820Buf, 0x304)]

theorem fixed_realModeWrites {x : ℕ} (h : Fixed x) : Outside realModeWrites x := by
  simp only [Fixed, realModeWrites, outside_cons, outside_nil, and_true, bootinfo, biKernelSize,
    blobPhys, blobMax, biCpuidMax, biE820N, stage2, stage2Bytes, e820Buf] at h ⊢
  omega

variable {m : Memory}

theorem eqOutside_setupBootinfo (m : Memory) :
    EqOutside m (setupBootinfo m) [(bootinfo, biCpuidMax)] := by
  have hin {off w : ℕ} (h : off + w ≤ biCpuidMax) (x : ℕ)
      (hx : Outside [(bootinfo, biCpuidMax)] x) : x < bootinfo + off ∨ bootinfo + off + w ≤ x := by
    simp only [outside_cons, outside_nil, and_true] at hx
    omega
  refine ((((((((((((EqOutside.refl m _).store ?_).store ?_).store ?_).store ?_).store ?_).store
    ?_).store ?_).store ?_).store ?_).store ?_).store ?_).store ?_
  all_goals exact hin (by decide)

theorem setupBootinfo_words (m : Memory) :
    (setupBootinfo m).load 4 (bootinfo + biBlobPhys) = blobPhys ∧
      (setupBootinfo m).load 4 (bootinfo + biBlobSize) =
        ((m.load 2 (biosArg + argTotal) <<< 9) + (2 ^ 32 - (blobPhys - stage2))) % 2 ^ 32 ∧
      (setupBootinfo m).load 4 (bootinfo + biBlobCrc) = m.load 4 (biosArg + argCrc) ∧
      (setupBootinfo m).load 4 (bootinfo + biScratch) = scratch ∧
      (setupBootinfo m).load 4 (bootinfo + biKtext) = ktext := by
  have hcrc : m.load 4 (biosArg + argCrc) < 256 ^ 4 := load_lt _ _ _
  have hsize : ((m.load 2 (biosArg + argTotal) <<< 9) + (2 ^ 32 - (blobPhys - stage2))) % 2 ^ 32 <
      256 ^ 4 := Nat.mod_lt _ (by decide)
  simp (disch := decide) only [setupBootinfo, load_store_of_disjoint]
  exact ⟨load_store_self (by decide), load_store_self hsize, load_store_self hcrc,
    load_store_self (by decide), load_store_self (by decide)⟩

/-! ### What stage1 has loaded -/

/-- The number of sectors in the arguments of stage1. -/
def argSectors (img : List UInt8) : ℕ :=
  leNat (slice img (stage1ArgsOff + argTotal) (stage1ArgsOff + argTotal + 2))

/-- The master boot record is at `0x7C00`, and the sectors it names at `0x20000`. -/
structure Loaded (img : List UInt8) (m : Memory) : Prop where
  mbr_at : m.Holds 0x7C00 (slice img 0 512)
  sectors_at : m.Holds stage2 (slice img (partLba * sector) ((partLba + argSectors img) * sector))

variable {ratio : ℕ → ℕ → List Char} {args : Args} {img : List UInt8}

theorem length_blob_le (w : Written ratio args img) : w.blob.length ≤ blobMax := by
  obtain ⟨b, -, hmax, hsectors, -⟩ := packBlob_eq_ok w.packBlob_eq
  rw [w.length_blob, hsectors, sectorsFor, sector]
  rw [blobMax] at hmax ⊢
  omega

/-- **What stage2 finds in memory** is what the tool has written. -/
theorem bootMem_setupBootinfo (w : Written ratio args img) (hstage1 : args.stage1.length ≤ 512)
    (h : Loaded img m) : BootMem w.blob (Lzss.checksum w.blob) (setupBootinfo m) := by
  obtain ⟨-, htotal_at, hcrc_at⟩ := w.args_at hstage1
  have hblob := w.length_blob
  have hle := length_blob_le w
  have hsectors : w.blobSectors ≤ 248 := by
    rw [hblob, sector, blobMax] at hle
    omega
  have hcount : stage2Sectors + w.blobSectors < 256 ^ 2 := by
    rw [stage2Sectors]
    omega
  have htotal : argSectors img = stage2Sectors + w.blobSectors := by
    have := htotal_at.slice_eq
    rw [length_leBytes] at this
    rw [argSectors, argTotal, this, leNat_leBytes hcount]
  have haddr {off : ℕ} : 0x7C00 + (stage1ArgsOff + off - 0) = biosArg + off := by
    unfold stage1ArgsOff biosArg
    omega
  have hsize : m.load 2 (biosArg + argTotal) = stage2Sectors + w.blobSectors := by
    have := load_of_holds (h.mbr_at.of_hasAt htotal_at (Nat.zero_le _) (by
      rw [length_leBytes]; decide))
    rwa [length_leBytes, leNat_leBytes hcount, haddr] at this
  have hcrc : m.load 4 (biosArg + argCrc) = Lzss.checksum w.blob := by
    have := load_of_holds (h.mbr_at.of_hasAt hcrc_at (Nat.zero_le _) (by
      rw [length_leBytes]; decide))
    rwa [length_leBytes, leNat_leBytes (Lzss.checksum_lt _), haddr] at this
  have hsectors_at : m.Holds blobPhys w.blob := by
    have hphys : stage2 + (blobLba * sector - partLba * sector) = blobPhys := by decide
    rw [← hphys]
    refine h.sectors_at.of_hasAt (w.blob_at hstage1) (by decide) ?_
    rw [htotal, hblob]
    unfold blobLba partLba stage2Sectors sector
    omega
  obtain ⟨hphys, hsize', hcrc', hscratch, hktext⟩ := setupBootinfo_words m
  refine ⟨hphys, ?_, hcrc'.trans hcrc, hscratch, hktext, ?_, hle⟩
  · rw [hsize', hsize, hblob]
    generalize w.blobSectors = n at hsectors
    rw [stage2Sectors, sector, blobPhys, stage2, Nat.shiftLeft_eq]
    omega
  · refine hsectors_at.of_eqOutside (eqOutside_setupBootinfo m) fun x hx _ => ?_
    simp only [outside_cons, outside_nil, and_true, bootinfo, biCpuidMax, blobPhys] at hx ⊢
    omega

/-! ### The module -/

/-- **The measures** of a kernel that is accepted. -/
theorem measure_eq_ok {meas : Measures} (h : Image.measure args = .ok meas) :
    meas.klen = args.kernel.length ∧ meas.klen ≤ meas.imgTotal ∧ meas.klen + 64 ≤ kernelMax ∧
      meas.imgTotal ≤ kernelMax := by
  have hchecked {base imageEnd bssEnd : ℕ} {entry : ℤ} {e₁ e₂ : PyError}
      (h : (if (imageEnd : ℤ) - base ≠ args.kernel.length then Except.error e₁
        else if (imageEnd : ℤ) - base + qizokHdr > kernelMax ∨
          ((max bssEnd imageEnd : ℕ) : ℤ) - base > kernelMax then Except.error e₂
        else Except.ok (⟨base, imageEnd - base, entry - base, (max bssEnd imageEnd : ℕ) - base⟩ :
          Measures)) = .ok meas) :
      meas.klen = args.kernel.length ∧ meas.klen ≤ meas.imgTotal ∧ meas.klen + 64 ≤ kernelMax ∧
        meas.imgTotal ≤ kernelMax := by
    split at h
    · cases h
    · next hklen =>
      split at h
      · cases h
      · next hmax =>
        obtain rfl := Except.ok.inj h
        rw [qizokHdr] at hmax
        dsimp only
        omega
  rw [Image.measure] at h
  split at h
  · simp only [ok_bind] at h
    split at h
    · exact hchecked h
    · exact hchecked h
    · cases h
  · cases h

/-- The words of the header and the kernel behind it. -/
theorem packModule_eq_ok {meas : Measures} {kernel payload : List UInt8}
    (h : packModule meas kernel = .ok payload) :
    0 ≤ meas.entryOff ∧ payload.length = 64 + kernel.length ∧
      HasAt payload 0 (leBytes 4 qizokMagic) ∧ HasAt payload 4 (leBytes 4 meas.klen.toNat) ∧
      HasAt payload 8 (leBytes 4 meas.entryOff.toNat) ∧
      HasAt payload 12 (leBytes 4 meas.imgTotal.toNat) ∧
      HasAt payload 16 (leBytes 4 meas.base) ∧ HasAt payload 64 kernel := by
  rw [packModule] at h
  obtain ⟨_, h1, h⟩ := bind_eq_ok.mp h
  obtain ⟨_, h2, h⟩ := bind_eq_ok.mp h
  obtain ⟨_, h3, h⟩ := bind_eq_ok.mp h
  obtain ⟨_, h4, h⟩ := bind_eq_ok.mp h
  obtain ⟨_, h5, h⟩ := bind_eq_ok.mp h
  obtain ⟨_, h6, h⟩ := bind_eq_ok.mp h
  obtain ⟨-, -, rfl⟩ := packInt_eq_ok h1
  obtain ⟨-, -, rfl⟩ := packInt_eq_ok h2
  obtain ⟨hentry, -, rfl⟩ := packInt_eq_ok h3
  obtain ⟨-, -, rfl⟩ := packInt_eq_ok h4
  obtain ⟨-, -, rfl⟩ := packInt_eq_ok h5
  obtain ⟨-, -, rfl⟩ := packInt_eq_ok h6
  obtain rfl := Except.ok.inj h
  have hhead {p a b c d e f : List UInt8} (ha : a.length = 4) (hb : b.length = 4)
      (hc : c.length = 4) (hd : d.length = 4) (he : e.length = 4) (hf : f.length = 4)
      (hp : p = (a ++ b ++ c ++ d ++ e ++ f).rightpad 64 0 ++ kernel) :
      p.length = 64 + kernel.length ∧ HasAt p 0 a ∧ HasAt p 4 b ∧ HasAt p 8 c ∧ HasAt p 12 d ∧
        HasAt p 16 e ∧ HasAt p 64 kernel := by
    have hlen : ((a ++ b ++ c ++ d ++ e ++ f).rightpad 64 0).length = 64 := by
      simp only [List.length_rightpad, List.length_append]
      omega
    have hself := hasAt_self p
    nth_rewrite 2 [hp] at hself
    have hkernel := hself.right
    rw [hlen] at hkernel
    have hwords := hself.left
    rw [List.rightpad] at hwords
    have he' := hwords.left.left.right
    have hd' := hwords.left.left.left.right
    have hc' := hwords.left.left.left.left.right
    have hb' := hwords.left.left.left.left.left.right
    simp only [List.length_append, ha, hb, hc, hd, Nat.zero_add] at hb' hc' hd' he'
    refine ⟨?_, hwords.left.left.left.left.left.left, hb', hc', hd', he', hkernel⟩
    rw [hp, List.length_append, hlen]
  exact ⟨hentry, hhead (length_leBytes ..) (length_leBytes ..) (length_leBytes ..)
    (length_leBytes ..) (length_leBytes ..) (length_leBytes ..) rfl⟩

/-- **The header in memory.** -/
theorem headerWords_of_holds {meas : Measures} {kernel payload : List UInt8}
    (h : packModule meas kernel = .ok payload) (hklen : meas.klen = kernel.length)
    (hb : HeaderBounds kernel.length meas.entryOff.toNat meas.imgTotal.toNat)
    (hbase : meas.base = ktext) (hm : m.Holds scratch payload) :
    HeaderWords m kernel.length meas.entryOff.toNat meas.imgTotal.toNat ktext ∧
      m.Holds (scratch + qizokHdr) kernel := by
  obtain ⟨-, hlen, h0, h4, h8, h12, h16, h64⟩ := packModule_eq_ok h
  have h1 : kernel.length ≤ 0x80000 := hb.klen_le
  have h2 : meas.imgTotal.toNat ≤ 0x80000 := hb.total_le
  have h3 := hb.entry_lt
  have hword {off v : ℕ} (hat : HasAt payload off (leBytes 4 v)) (hoff : off + 4 ≤ 64)
      (hv : v < 256 ^ 4) : m.load 4 (scratch + off) = v := by
    have hslice := hat.slice_eq
    rw [length_leBytes] at hslice
    rw [load_of_holds_slice hm (by omega), hslice, leNat_leBytes hv]
  rw [hklen, Int.toNat_natCast] at h4
  rw [hbase] at h16
  refine ⟨⟨hword h0 (by decide) (by decide), hword h4 (by decide) (by omega),
    hword h8 (by decide) (by omega), hword h12 (by decide) (by omega),
    hword h16 (by decide) (by decide)⟩, ?_⟩
  have := (hm.slice 64 (64 + kernel.length))
  rwa [h64.slice_eq] at this

/-! ### Delivery -/

variable {s : Cpu} {fst : ℕ} {k : Link Label}

/-- From a comparison of checksums that succeeds to the jump. -/
theorem leadsTo_delivered (w : Written ratio args img) (hraw : args.raw = false)
    (hbase : w.meas.base = ktext) (hentry : w.meas.entryOff < w.meas.klen)
    (hboot : BootMem w.blob (Lzss.checksum w.blob) s.mem) (hesp : s.esp = .ofNat 32 pmStack)
    (heax : s.eax = .ofNat 32 (Lzss.checksum w.blob)) :
    LeadsTo (step fst k) (adlerBack, s)
      (Delivered args.kernel w.meas.entryOff.toNat w.meas.imgTotal.toNat) := by
  obtain ⟨hklen, htotal, hmax, hmax'⟩ := measure_eq_ok w.measure_eq
  obtain ⟨hpos, hlen, -⟩ := packModule_eq_ok w.packModule_eq
  have hb : HeaderBounds args.kernel.length w.meas.entryOff.toNat w.meas.imgTotal.toNat := by
    constructor <;> omega
  have hkernel : args.kernel.length ≤ 0x80000 := hb.klen_le
  -- The blob decodes to the module, however many zeros fill its last sector.
  obtain ⟨b, hcompress, -, -, hblob⟩ := packBlob_eq_ok w.packBlob_eq
  rw [hraw, if_neg Bool.false_ne_true] at hcompress
  obtain ⟨stream, hstream, hpad⟩ := @Lzss.exists_compress w.payload (by omega)
  obtain rfl := Except.ok.inj (hcompress.symm.trans hstream)
  obtain ⟨hdec, hrefs⟩ := hpad (List.replicate (w.blobSectors * sector -
    (leBytes 4 Lzss.lzssMagic ++ leBytes 4 w.payload.length ++ stream).length) 0)
  rw [← List.rightpad, ← hblob] at hdec hrefs
  refine LeadsTo.trans (leadsTo_decompBack hboot hesp heax hdec hrefs (by omega)) ?_
  rintro ⟨_, s₁⟩ ⟨rfl, heax₁, hesp₁, hpayload, hframe₁⟩
  dsimp only at heax₁ hesp₁ hpayload hframe₁
  obtain ⟨hwords, hkernel_at⟩ := headerWords_of_holds w.packModule_eq hklen hb hbase hpayload
  have hboot₁ : BootMem w.blob (Lzss.checksum w.blob) s₁.mem := by
    refine hboot.of_eqOutside hframe₁ fun x hx => ?_
    simp only [Fixed, decodeWrites, outside_cons, outside_nil, and_true, bootinfo, biKernelSize,
      blobPhys, blobMax, scratch, pmStack] at hx ⊢
    omega
  exact leadsTo_entered hboot₁.scratch_eq hboot₁.ktext_eq hwords hb hkernel_at heax₁ hesp₁

/-- **Boot delivery.** Where the checksum compares equal, no later check fails, and the kernel
that is entered is the one the image was made from. -/
theorem delivers {meas : Measures} (hmain : main ratio args = .ok img) (hraw : args.raw = false)
    (hstage1 : args.stage1.length ≤ 512) (hmeas : Image.measure args = .ok meas)
    (hbase : meas.base = ktext) (hentry : meas.entryOff < meas.klen) (hload : Loaded img m)
    (hreal : EqOutside (setupBootinfo m) s.mem realModeWrites) :
    LeadsTo (step fst k) (qizoPm32, s) fun x => x.1 = adlerBack ∧
      (x.2.eax = ld32 x.2.mem (.ofNat 32 (bootinfo + biBlobCrc)) →
        LeadsTo (step fst k) x
          (Delivered args.kernel meas.entryOff.toNat meas.imgTotal.toNat)) := by
  obtain ⟨w⟩ := exists_written hmain
  obtain rfl : w.meas = meas := Except.ok.inj (w.measure_eq.symm.trans hmeas)
  have hboot := (bootMem_setupBootinfo w hstage1 hload).of_eqOutside hreal
    fun x => fixed_realModeWrites
  refine (leadsTo_adlerBack hboot).mono ?_
  rintro ⟨_, s₁⟩ ⟨rfl, hboot₁, -, hesp₁, -⟩
  refine ⟨rfl, fun heax => ?_⟩
  dsimp only at hboot₁ hesp₁ heax
  rw [ld32_ofNat (by decide), hboot₁.blobCrc_eq] at heax
  exact leadsTo_delivered w hraw hbase hentry hboot₁ hesp₁ heax

/-- An image with an exact checksum boots. -/
theorem leadsTo_delivered_of_adlerExact (w : Written ratio args img) (hraw : args.raw = false)
    (hstage1 : args.stage1.length ≤ 512) (hbase : w.meas.base = ktext)
    (hentry : w.meas.entryOff < w.meas.klen) (hexact : AdlerExact w.blob) (hload : Loaded img m)
    (hreal : EqOutside (setupBootinfo m) s.mem realModeWrites) :
    LeadsTo (step fst k) (qizoPm32, s)
      (Delivered args.kernel w.meas.entryOff.toNat w.meas.imgTotal.toNat) := by
  have hboot := (bootMem_setupBootinfo w hstage1 hload).of_eqOutside hreal
    fun x => fixed_realModeWrites
  refine LeadsTo.trans (leadsTo_adlerBack hboot) ?_
  rintro ⟨_, s₁⟩ ⟨rfl, hboot₁, -, hesp₁, heax₁⟩
  dsimp only at hboot₁ hesp₁ heax₁
  rw [(asmValue_eq_checksum_iff w.blob).mpr hexact] at heax₁
  refine leadsTo_delivered w hraw hbase hentry hboot₁ hesp₁ ?_
  rw [← heax₁, ← eq_ofNat_toNat]

/-- Memory as stage1 leaves it, with zeros elsewhere. -/
def loadedMem (img : List UInt8) : Memory :=
  Memory.write (Memory.write (fun _ => 0) 0x7C00 (slice img 0 512)) stage2
    (slice img (partLba * sector) ((partLba + argSectors img) * sector))

theorem loaded_loadedMem (img : List UInt8) : Loaded img (loadedMem img) := by
  refine ⟨?_, holds_write _ _ _⟩
  refine (holds_write _ _ _).of_eqOutside (eqOutside_write _ _ _) fun x _ hx => ?_
  have hlen : (slice img 0 512).length ≤ 512 := by
    rw [slice, List.length_drop, List.length_take]
    omega
  simp only [outside_cons, outside_nil, and_true, stage2]
  omega

/-- The small image: its kernel is unpacked from back references, and its bss is zeroed. -/
theorem delivers_small : ∃ img, main smallRatio smallArgs = .ok img ∧
    ∃ s : Cpu, Loaded img (loadedMem img) ∧ s.mem = setupBootinfo (loadedMem img) ∧
      LeadsTo (step 0x20000 consecutiveLink) (qizoPm32, s) fun x => x.1 = adlerBack ∧
        (x.2.eax = ld32 x.2.mem (.ofNat 32 (bootinfo + biBlobCrc)) →
          LeadsTo (step 0x20000 consecutiveLink) x
            (Delivered (List.replicate 24 0x90 ++ [0xF4]) 0 125)) := by
  obtain ⟨img, himg⟩ := exists_main_small
  refine ⟨img, himg, { callWith [] 0 with mem := setupBootinfo (loadedMem img) },
    loaded_loadedMem img, rfl, ?_⟩
  exact delivers himg rfl (by decide +kernel) rfl rfl (by decide)
    (loaded_loadedMem img) (.refl _ _)

end Stage2

end Qizo
