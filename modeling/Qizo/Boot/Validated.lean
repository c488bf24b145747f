import Qizo.Boot.DecompressBehind
import Qizo.Boot.Delivery
import Qizo.Boot.HeaderChecks
import Qizo.Check.Bootmodel
import Qizo.Check.Qizocheck

/-!
# What the checks on the host promise

`qizocheck.main` and `qizobootmodel.main` look at an image before it is booted. Both decode the
module and compare what is in its header, and neither compares what stage2 compares: the load
address in the header is left out, the checksum is computed without the slip of `qizo_adler`, and a
back reference that reaches in front of the output is resolved from the other end of a Python list,
where stage2 has the memory in front of the scratch area.

`Delivers` is what stage2 should do with an image that has passed, whatever else is in memory.

## Main results

* `validated_iff` — the images that have passed and are booted as the checks have it
-/

namespace Qizo

namespace Stage2

open X86 Label StateTransition ByteString Lzss Memory Python

variable {fst : ℕ} {k : Link Label} {s : Cpu}

/-! ### Checks that fail -/

/-- The labels at which a check has failed. -/
def failLabels : List Label :=
  [failC1, failC2, failC3, failC4, failC5, failC6, failC7, fail32]

/-- A check that fails ends the boot. -/
theorem leadsTo_failed {l : Label} (h : l ∈ failLabels) :
    LeadsTo (step fst k) (l, s) fun x => x.1 = qizoFailPm := by
  have hlast {s : Cpu} : LeadsTo (step fst k) (fail32R, s) fun x => x.1 = qizoFailPm :=
    leadsTo_block rfl (.now rfl)
  simp only [failLabels, List.mem_cons, List.not_mem_nil, or_false] at h
  rcases h with rfl | rfl | rfl | rfl | rfl | rfl | rfl | rfl
  all_goals exact leadsTo_block rfl hlast

/-- A label without code. -/
theorem halted_of_label {x : Label × Cpu} {l : Label} (h : x.1 = l) (hl : code fst l = none) :
    step fst k x = none := by
  rw [step, X86.step, h, hl]
  rfl

theorem Delivered.halted {kernel : List UInt8} {entry total : ℕ} {x : Label × Cpu}
    (h : Delivered kernel entry total x) : step fst k x = none := halted_of_label h.label rfl

/-- A boot that ends in the kernel has not failed. -/
theorem not_failed {kernel : List UInt8} {entry total : ℕ} {x : Label × Cpu}
    (h : LeadsTo (step fst k) x (Delivered kernel entry total))
    (hfail : LeadsTo (step fst k) x fun y => y.1 = qizoFailPm) : False := by
  obtain ⟨y, -, hy, hy'⟩ :=
    h.and_of_halted hfail (fun _ => Delivered.halted) fun _ hy => halted_of_label hy rfl
  rw [hy.label] at hy'
  cases hy'

/-- A checksum that compares unequal. -/
theorem leadsTo_failed_of_ne {blob : List UInt8} {crc : ℕ} (h : BootMem blob crc s.mem)
    (hne : s.eax ≠ .ofNat 32 crc) :
    LeadsTo (step fst k) (adlerBack, s) fun x => x.1 = qizoFailPm := by
  have hcmp : (!s.eax == ld32 s.mem (.ofNat 32 (bootinfo + biBlobCrc))) = true := by
    rw [ld32_ofNat (by decide), h.blobCrc_eq]
    simpa using hne
  refine leadsTo_block rfl ?_
  simp only [runBlock, movl, cmpl, jne, Cpu.read, Cpu.write, Cpu.get, Cpu.set]
  rw [if_pos hcmp]
  exact leadsTo_failed (by decide)

/-- The checks on the header end in the copy, or fail. -/
theorem step_decompBack_cases {x : Label × Cpu} (h : step fst k (decompBack, s) = some x) :
    x.1 = qizoCopy ∨ x.1 ∈ failLabels := by
  simp only [step, X86.step, code, Option.map_some, Option.some.injEq, runBlock, je, jne, ja, jb,
    jae] at h
  subst h
  repeat' split
  all_goals first
    | exact .inl rfl
    | exact .inr (by simp [failLabels])

/-! ### Images that have passed -/

open Check Bootmodel

variable {img out : List UInt8} {file : Option (List UInt8)} {mod : Module} {m : Memory}

/-- The checks of `qizocheck.main` on the image, on the blob and on the module. -/
def imageChecks (img : List UInt8) (file : Option (List UInt8)) : Except PyError Module := do
  let a ← checkImage img
  let out ← checkBlob img file a
  checkModule (Check.blobOf img a).length out

/-- What `qizocheck.main` has found in an image, given what its blob decodes to. -/
structure Passed (img out : List UInt8) (mod : Module) : Prop where
  args : Arguments img
  lba_eq : argWord img 4 argLba = partLba
  magic : headerWord out 0 = qizokMagic
  klen_eq : mod.klen = headerWord out 4
  entry_eq : mod.entry = headerWord out 8
  totalLen_eq : mod.totalLen = headerWord out 12
  kernel_eq : mod.kernel = slice out 64 (64 + headerWord out 4)
  le_total : headerWord out 4 + 64 ≤ headerWord out 12
  total_le : headerWord out 12 ≤ kernelMax
  length_eq : headerWord out 4 + 64 = out.length
  entry_lt : headerWord out 8 < headerWord out 4

namespace Passed

theorem length_kernel (h : Passed img out mod) : mod.kernel.length = headerWord out 4 := by
  have hlen := h.length_eq
  rw [h.kernel_eq, length_slice (by omega), Nat.add_sub_cancel_left]

theorem length_lt (h : Passed img out mod) : out.length < 2 ^ 31 := by
  have hlen := h.length_eq
  have hle := h.le_total
  have htotal := h.total_le
  unfold kernelMax at htotal
  omega

theorem bounds (h : Passed img out mod) :
    HeaderBounds mod.kernel.length mod.entry mod.totalLen := by
  have hle := h.le_total
  have htotal := h.total_le
  have hentry := h.entry_lt
  rw [h.length_kernel, h.entry_eq, h.totalLen_eq]
  constructor <;> omega

end Passed

/-- The checks on the image. -/
theorem of_checkImage {a : StageArgs} (h : checkImage img = .ok a) :
    Arguments img ∧ a.lba = argWord img 4 argLba ∧ a.total = argWord img 2 argTotal ∧
      argWord img 4 argLba = partLba := by
  rw [checkImage] at h
  obtain ⟨_, -, h⟩ := bind_eq_ok.mp h
  obtain ⟨_, hsig, h⟩ := bind_eq_ok.mp h
  obtain ⟨lba, hlba, h⟩ := bind_eq_ok.mp h
  obtain ⟨total, htotal, h⟩ := bind_eq_ok.mp h
  obtain ⟨crc, hcrc, h⟩ := bind_eq_ok.mp h
  obtain ⟨_, hpart, h⟩ := bind_eq_ok.mp h
  obtain ⟨_, hspan, h⟩ := bind_eq_ok.mp h
  obtain rfl := Except.ok.inj h
  have hsig' : slice img 510 512 = [0x55, 0xAA] := not_not.mp (raiseIf_eq_ok.mp hsig)
  have hpart' : lba = partLba := not_not.mp (raiseIf_eq_ok.mp hpart)
  have hspan' : ¬total ≤ stage2Sectors := raiseIf_eq_ok.mp hspan
  obtain ⟨-, hlba'⟩ := unpackFrom_eq_ok_iff.mp hlba
  obtain ⟨-, htotal'⟩ := unpackFrom_eq_ok_iff.mp htotal
  have hlen : 512 ≤ img.length := by
    have := congrArg List.length hsig'
    rw [slice, List.length_drop, List.length_take] at this
    simp only [List.length_cons, List.length_nil] at this
    omega
  have hlba₁ : lba = argWord img 4 argLba := hlba'
  have htotal₁ : total = argWord img 2 argTotal := htotal'
  have hlt : argWord img 2 argTotal < 2 ^ 16 := by
    have h16 := leNat_lt (slice img (stage1ArgsOff + argTotal) (stage1ArgsOff + argTotal + 2))
    rw [length_slice (Nat.le_trans (by decide) hlen), Nat.add_sub_cancel_left] at h16
    exact h16
  refine ⟨⟨hlen, ?_, by omega⟩, hlba₁, htotal₁, hlba₁ ▸ hpart'⟩
  rw [← hlba₁, hpart', partLba]
  omega

theorem arguments_of_imageChecks (h : imageChecks img file = .ok mod) : Arguments img := by
  obtain ⟨a, himage, -⟩ := bind_eq_ok.mp h
  exact (of_checkImage himage).1

/-- Both programs cut the same blob out of the image. -/
theorem blobOf_eq {a : StageArgs} (hlba : a.lba = argWord img 4 argLba)
    (htotal : a.total = argWord img 2 argTotal) (hcovers : stage2Sectors < argWord img 2 argTotal) :
    Check.blobOf img a = Bootmodel.blobOf img := by
  have hbytes : stage2Bytes = stage2Sectors * sector := by decide
  rw [Check.blobOf, Bootmodel.blobOf, hlba, htotal, hbytes, ← Nat.add_mul, ← Nat.add_mul]
  congr 2
  omega

/-- The checks on the blob leave what it decodes to, if it is a container. -/
theorem of_checkBlob {a : StageArgs} {out' : List UInt8}
    (hdec : decompress (Check.blobOf img a) = .ok out) (h : checkBlob img file a = .ok out') :
    out' = out := by
  obtain ⟨h8, hmagic, -⟩ := decompress_eq_ok_iff.mp hdec
  rw [checkBlob] at h
  dsimp only at h
  obtain ⟨_, -, h⟩ := bind_eq_ok.mp h
  obtain ⟨_, -, h⟩ := bind_eq_ok.mp h
  obtain ⟨_, -, h⟩ := bind_eq_ok.mp h
  obtain ⟨magic, hword, h⟩ := bind_eq_ok.mp h
  obtain ⟨-, hword⟩ := unpackFrom_eq_ok_iff.mp hword
  have hkind : magic = lzssMagic := hword.trans hmagic
  obtain ⟨_, -, h⟩ := bind_eq_ok.mp h
  obtain ⟨_, -, h⟩ := bind_eq_ok.mp h
  rw [if_pos hkind, hdec, ok_bind] at h
  obtain ⟨_, -, h⟩ := bind_eq_ok.mp h
  exact (Except.ok.inj h).symm

/-- **What has passed.** -/
theorem of_imageChecks (h : imageChecks img file = .ok mod)
    (hdec : decompress (Bootmodel.blobOf img) = .ok out) : Passed img out mod := by
  rw [imageChecks] at h
  obtain ⟨a, himage, h⟩ := bind_eq_ok.mp h
  obtain ⟨out', hblob, h⟩ := bind_eq_ok.mp h
  obtain ⟨hargs, hlba, htotal, hpart⟩ := of_checkImage himage
  rw [← blobOf_eq hlba htotal hargs.covers] at hdec
  obtain rfl := of_checkBlob hdec hblob
  rw [checkModule] at h
  obtain ⟨total, h12, h⟩ := bind_eq_ok.mp h
  obtain ⟨magic, h0, h⟩ := bind_eq_ok.mp h
  obtain ⟨klen, h4, h⟩ := bind_eq_ok.mp h
  obtain ⟨entry, h8, h⟩ := bind_eq_ok.mp h
  obtain ⟨_, hmagic, h⟩ := bind_eq_ok.mp h
  obtain ⟨_, hle, h⟩ := bind_eq_ok.mp h
  obtain ⟨_, hmax, h⟩ := bind_eq_ok.mp h
  obtain ⟨_, hlen, h⟩ := bind_eq_ok.mp h
  obtain ⟨_, hentry, h⟩ := bind_eq_ok.mp h
  obtain ⟨_, -, h⟩ := bind_eq_ok.mp h
  obtain ⟨_, -, h⟩ := bind_eq_ok.mp h
  obtain ⟨_, -, h⟩ := bind_eq_ok.mp h
  obtain ⟨_, -, h⟩ := bind_eq_ok.mp h
  obtain ⟨_, -, h⟩ := bind_eq_ok.mp h
  obtain ⟨_, -, h⟩ := bind_eq_ok.mp h
  obtain ⟨_, -, h⟩ := bind_eq_ok.mp h
  obtain rfl := Except.ok.inj h
  obtain ⟨-, rfl⟩ := unpackFrom_eq_ok_iff.mp h12
  obtain ⟨-, rfl⟩ := unpackFrom_eq_ok_iff.mp h0
  obtain ⟨-, rfl⟩ := unpackFrom_eq_ok_iff.mp h4
  obtain ⟨-, rfl⟩ := unpackFrom_eq_ok_iff.mp h8
  exact
    { args := hargs
      lba_eq := hpart
      magic := not_not.mp (raiseIf_eq_ok.mp hmagic)
      klen_eq := rfl
      entry_eq := rfl
      totalLen_eq := rfl
      kernel_eq := rfl
      le_total := Nat.not_lt.mp (raiseIf_eq_ok.mp hle)
      total_le := Nat.not_lt.mp (raiseIf_eq_ok.mp hmax)
      length_eq := not_not.mp (raiseIf_eq_ok.mp hlen)
      entry_lt := Nat.not_le.mp (raiseIf_eq_ok.mp hentry) }

/-- **What stage2 finds in memory**, for an image whose sectors are there. -/
theorem bootMem_of_loaded {kernel : List UInt8} (hpass : Passed img out mod)
    (hboots : Boots img kernel out) (h : Loaded img m) :
    BootMem (Bootmodel.blobOf img) (argWord img 4 argCrc) (setupBootinfo m) := by
  have hlen := hpass.args.mbr
  have hcovers := hpass.args.covers
  have hlength := length_blobOf hboots.fits
  have hregion := hboots.fits.in_region
  have hsize : m.load 2 (biosArg + argTotal) = argWord img 2 argTotal :=
    load_of_mbr h.mbr_at hlen (by decide)
  have hcrc : m.load 4 (biosArg + argCrc) = argWord img 4 argCrc :=
    load_of_mbr h.mbr_at hlen (by decide)
  have hblob : m.Holds blobPhys (Bootmodel.blobOf img) := by
    refine holds_blobOf hboots.fits hcovers ?_
    rw [hpass.lba_eq]
    exact h.sectors_at
  obtain ⟨hphys, hsize', hcrc', hscratch, hktext⟩ := setupBootinfo_words m
  refine ⟨hphys, ?_, hcrc'.trans hcrc, hscratch, hktext, ?_, ?_⟩
  · rw [hsize', hsize, hlength]
    generalize argWord img 2 argTotal = n at hcovers hregion
    rw [stage2Sectors, sector, blobPhys, stage2, Nat.shiftLeft_eq]
    simp only [stage2Sectors, stage2, sector, blobPhys, blobMax] at hcovers hregion
    omega
  · refine hblob.of_eqOutside (eqOutside_setupBootinfo m) fun x hx _ => ?_
    simp only [outside_cons, outside_nil, and_true, bootinfo, biCpuidMax, blobPhys] at hx ⊢
    omega
  · rw [hlength]
    simp only [stage2Sectors, stage2, sector, blobPhys, blobMax] at hcovers hregion ⊢
    omega

/-! ### Images that are booted -/

/-- **What stage2 should do** with an image that has passed: whatever else is in memory, it enters
the kernel that was found, at the entry point that was found, with the bss cleared. -/
def Delivers (fst : ℕ) (k : Link Label) (img : List UInt8) (mod : Module) : Prop :=
  ∀ (m : Memory) (s : Cpu), Loaded img m → EqOutside (setupBootinfo m) s.mem realModeWrites →
    LeadsTo (step fst k) (qizoPm32, s) (Delivered mod.kernel mod.entry mod.totalLen)

/-- What stage2 depends on and the checks do not: the sums of the checksum stay small, the load
address in the header is the one stage2 uses, and no byte that stage2 looks at is copied from in
front of the output. -/
structure LoadsAlike (blob out : List UInt8) : Prop where
  exact_sums : AdlerExact blob
  base_eq : headerWord out 16 = ktext
  /-- The header has five words; nothing looks at the rest of its 64 bytes. -/
  own : ∀ p, p < 20 ∨ 64 ≤ p → (borrowed blob)[p]? ≠ some true

theorem slice_congr {x y : List UInt8} {i j : ℕ} (h : ∀ q, i ≤ q → q < j → x[q]? = y[q]?) :
    slice x i j = slice y i j := by
  apply List.ext_getElem?
  intro t
  rw [slice, slice, List.getElem?_drop, List.getElem?_drop, List.getElem?_take, List.getElem?_take]
  split
  · exact h _ (Nat.le_add_right _ _) (by assumption)
  · rfl

/-- A word of the header in the scratch area. -/
theorem load_header {y : List UInt8} {off : ℕ} (hy : m.Holds scratch y)
    (hlen : off + 4 ≤ y.length) :
    m.load 4 (scratch + off) = headerWord y off :=
  load_of_holds_slice hy hlen

/-- The decoder writes none of what is fixed. -/
theorem fixed_behindWrites {x n : ℕ} (h : Fixed x) : Outside (behindWrites n) x := by
  simp only [Fixed, behindWrites, outside_cons, outside_nil, and_true, bootinfo, biKernelSize,
    blobPhys, blobMax, scratch, window, pmStack] at h ⊢
  omega

/-- **Enough for the boot.** -/
theorem delivers_of_loadsAlike (hpass : Passed img out mod) (hboots : Boots img mod.kernel out)
    (h : LoadsAlike (Bootmodel.blobOf img) out) : Delivers fst k img mod := by
  intro m s hload hreal
  have hboot := (bootMem_of_loaded hpass hboots hload).of_eqOutside hreal
    fun x => fixed_realModeWrites
  have hlen := hpass.length_eq
  refine LeadsTo.trans (leadsTo_adlerBack hboot) ?_
  rintro ⟨_, s₁⟩ ⟨rfl, hboot₁, -, hesp₁, heax₁⟩
  dsimp only at hboot₁ hesp₁ heax₁
  have heax : s₁.eax = .ofNat 32 (argWord img 4 argCrc) := by
    rw [← hboots.checksum_eq, ← (asmValue_eq_checksum_iff _).mpr h.exact_sums, ← heax₁,
      ← eq_ofNat_toNat]
  refine LeadsTo.trans
    (leadsTo_decompBack_behind hboot₁ hesp₁ heax hboots.decompress_eq hpass.length_lt) ?_
  rintro ⟨_, s₂⟩ ⟨rfl, heax₂, hesp₂, hframe₂, y, hy, hbehind⟩
  dsimp only at heax₂ hesp₂ hframe₂ hy
  have hylen := hbehind.length_eq
  -- what stage2 looks at is what the checks have seen
  have halike (q : ℕ) (hq : q < 20 ∨ 64 ≤ q) : y[q]? = out[q]? := hbehind.own_of_ne (h.own q hq)
  have hword {off : ℕ} (hoff : off + 4 ≤ 20) :
      s₂.mem.load 4 (scratch + off) = headerWord out off := by
    rw [load_header hy (by omega), headerWord, slice_congr fun q _ hq => halike q (.inl (by omega))]
    rfl
  have hkernel : s₂.mem.Holds (scratch + qizokHdr) mod.kernel := by
    have hheld := hy.slice 64 (64 + headerWord out 4)
    rw [slice_congr fun q hq _ => halike q (.inr hq), ← hpass.kernel_eq] at hheld
    exact hheld
  have hboot₂ := hboot₁.of_eqOutside hframe₂ fun x => fixed_behindWrites
  have hwords : HeaderWords s₂.mem mod.kernel.length mod.entry mod.totalLen ktext := by
    rw [hpass.length_kernel, hpass.entry_eq, hpass.totalLen_eq]
    refine ⟨?_, hword (by decide), hword (by decide), hword (by decide), ?_⟩
    · rw [← hpass.magic]
      exact @hword 0 (by decide)
    · rw [← h.base_eq]
      exact hword (by decide)
  exact leadsTo_entered hboot₂.scratch_eq hboot₂.ktext_eq hwords hpass.bounds hkernel heax₂ hesp₂

/-! ### Images that are not -/

/-- Memory as stage1 leaves it, with one byte all over the window in front of the scratch area. -/
def filledMem (img : List UInt8) (b : UInt8) : Memory :=
  (loadedMem img).write (scratch - window) (List.replicate window b)

theorem eqOutside_filledMem (img : List UInt8) (b : UInt8) :
    EqOutside (loadedMem img) (filledMem img b) [(scratch - window, window)] := by
  have h := eqOutside_write (loadedMem img) (scratch - window) (List.replicate window b)
  rwa [List.length_replicate] at h

theorem loaded_filledMem {b : UInt8} (hfits : Fits img partLba (argSectors img)) :
    Loaded img (filledMem img b) := by
  have hload := loaded_loadedMem img
  have hregion := hfits.in_region
  refine ⟨hload.mbr_at.of_eqOutside (eqOutside_filledMem img b) fun x _ hx => ?_,
    hload.sectors_at.of_eqOutside (eqOutside_filledMem img b) fun x _ hx => ?_⟩
  · have hlen : (slice img 0 512).length ≤ 512 := by
      rw [slice, List.length_drop, List.length_take]
      omega
    refine outside_singleton.mpr (.inl ?_)
    unfold scratch window
    omega
  · rw [length_slice hfits.on_disk, Nat.add_mul, Nat.add_sub_cancel_left] at hx
    refine outside_singleton.mpr (.inl ?_)
    unfold blobPhys blobMax at hregion
    unfold scratch window
    omega

/-- That window is what the decoder finds. -/
theorem pastOf_of_eqOutside {m' : Memory} {b : UInt8}
    (h : EqOutside (setupBootinfo (filledMem img b)) m' mapWrites) :
    pastOf m' = List.replicate window b := by
  have hfilled := holds_iff_bytes_eq.mp
    (holds_write (loadedMem img) (scratch - window) (List.replicate window b))
  rw [List.length_replicate] at hfilled
  rw [← hfilled, pastOf]
  unfold Memory.bytes
  refine List.map_congr_left fun i _ => ?_
  rw [h _ ?_, eqOutside_setupBootinfo _ _ ?_]
  · rfl
  all_goals
    simp only [mapWrites, outside_cons, outside_nil, and_true, bootinfo, biE820, biTotalRam,
      biCpuidMax, pmStack, scratch, window]
    omega

/-- The scratch area of a boot that has gone well, for an output `y`. -/
structure Seen (mod : Module) (out y : List UInt8) : Prop where
  words : ∀ off, off = 4 ∨ off = 8 ∨ off = 12 → headerWord y off = headerWord out off
  magic : headerWord y 0 = qizokMagic
  base : headerWord y 16 = ktext
  kernel : slice y 64 (64 + headerWord out 4) = mod.kernel

/-- The header that is checked is in the scratch area. -/
theorem seen_of_delivered {y : List UInt8} (hpass : Passed img out mod)
    (hscratch : s.mem.load 4 (bootinfo + biScratch) = scratch)
    (hktext : s.mem.load 4 (bootinfo + biKtext) = ktext) (heax : s.eax = 1#32)
    (hesp : s.esp = .ofNat 32 pmStack) (hy : s.mem.Holds scratch y) (hylen : y.length = out.length)
    (h : LeadsTo (step fst k) (decompBack, s) (Delivered mod.kernel mod.entry mod.totalLen)) :
    Seen mod out y := by
  obtain ⟨⟨l, c⟩, hstep⟩ : ∃ x, step fst k (decompBack, s) = some x := ⟨_, rfl⟩
  have hlabel : l = qizoCopy := by
    rcases step_decompBack_cases hstep with hcopy | hfail
    · exact hcopy
    · exact (not_failed h (.head hstep (leadsTo_failed hfail))).elim
  rw [hlabel] at hstep
  obtain ⟨hwords, hbounds, -⟩ := header_of_step hscratch hstep
  -- the boot goes on with what this header says, and ends where it was said to end
  have hheld : s.mem.Holds (scratch + qizokHdr)
      (s.mem.bytes (scratch + qizokHdr) (s.mem.load 4 (scratch + 4))) := by
    rw [holds_iff_bytes_eq, length_bytes]
  have hlen := length_bytes s.mem (scratch + qizokHdr) (s.mem.load 4 (scratch + 4))
  rw [← hlen] at hwords hbounds
  have hrun : LeadsTo (step fst k) (decompBack, s) (Delivered _ _ _) :=
    leadsTo_entered hscratch hktext hwords hbounds hheld heax hesp
  obtain ⟨z, -, hz, hz'⟩ :=
    h.and_of_halted hrun (fun _ => Delivered.halted) fun _ => Delivered.halted
  have hklen : mod.kernel.length = s.mem.load 4 (scratch + 4) :=
    (hz.sizes.size_eq.symm.trans hz'.sizes.size_eq).trans hlen
  have hentry : mod.entry = s.mem.load 4 (scratch + 8) :=
    hz.sizes.entry_eq.symm.trans hz'.sizes.entry_eq
  have htotal : mod.totalLen = s.mem.load 4 (scratch + 12) :=
    hz.sizes.total_eq.symm.trans hz'.sizes.total_eq
  have hkernel : mod.kernel = s.mem.bytes (scratch + qizokHdr) (s.mem.load 4 (scratch + 4)) := by
    rw [← holds_iff_bytes_eq.mp hz.placed.kernel_at, ← holds_iff_bytes_eq.mp hz'.placed.kernel_at,
      hklen, hlen]
  have hsize := hpass.length_eq
  have hpacked := hpass.length_kernel
  have hword {off : ℕ} (hoff : off + 4 ≤ 64) :
      s.mem.load 4 (scratch + off) = headerWord y off := load_header hy (by omega)
  refine ⟨?_, ?_, ?_, ?_⟩
  · rintro off (rfl | rfl | rfl)
    · rw [← hword (by decide), ← hklen, hpacked]
    · rw [← hword (by decide), ← hentry, hpass.entry_eq]
    · rw [← hword (by decide), ← htotal, hpass.totalLen_eq]
  · rw [← hwords.magic]
    exact (@hword 0 (by decide)).symm
  · rw [← hwords.base_eq]
    exact (hword (by decide)).symm
  · have hslice := holds_iff_bytes_eq.mp (hy.slice 64 (64 + headerWord out 4))
    rw [length_slice (by omega), Nat.add_sub_cancel_left] at hslice
    rw [← hslice, hkernel, ← hklen, hpacked]
    rfl

/-- **What a boot shows**, with one byte all over the window. -/
theorem exists_seen (hpass : Passed img out mod) (hboots : Boots img mod.kernel out)
    (h : Delivers fst k img mod) (b : UInt8) :
    AdlerExact (Bootmodel.blobOf img) ∧ ∃ y,
      Behind (List.replicate window b) out y (borrowed (Bootmodel.blobOf img)) ∧
        Seen mod out y := by
  have hfits := hboots.fits
  rw [hpass.lba_eq] at hfits
  have hload := loaded_filledMem (b := b) hfits
  let s : Cpu := { callWith [] 0 with mem := setupBootinfo (filledMem img b) }
  have hboot : BootMem (Bootmodel.blobOf img) (argWord img 4 argCrc) s.mem :=
    bootMem_of_loaded hpass hboots hload
  have hrun := h _ s hload (.refl _ _)
  obtain ⟨⟨_, s₁⟩, hreach₁, rfl, hboot₁, hframe₁, hesp₁, heax₁⟩ := leadsTo_adlerBack hboot
  dsimp only at hboot₁ hframe₁ hesp₁ heax₁
  have hrun₁ := hrun.after (fun _ => Delivered.halted) hreach₁
  have heax : s₁.eax = .ofNat 32 (argWord img 4 argCrc) := by
    by_contra hne
    exact not_failed hrun₁ (leadsTo_failed_of_ne hboot₁ hne)
  have hexact : AdlerExact (Bootmodel.blobOf img) := by
    rw [← asmValue_eq_checksum_iff, ← heax₁, heax, ← hboots.checksum_eq,
      toNat_ofNat_of_lt (Lzss.checksum_lt _)]
  obtain ⟨⟨_, s₂⟩, hreach₂, rfl, heax₂, hesp₂, hframe₂, y, hy, hbehind⟩ :=
    leadsTo_decompBack_behind (k := k) hboot₁ hesp₁ heax hboots.decompress_eq hpass.length_lt
  dsimp only at heax₂ hesp₂ hframe₂ hy
  have hrun₂ := hrun₁.after (fun _ => Delivered.halted) hreach₂
  have hboot₂ := hboot₁.of_eqOutside hframe₂ fun x => fixed_behindWrites
  rw [pastOf_of_eqOutside hframe₁] at hbehind
  exact ⟨hexact, y, hbehind, seen_of_delivered hpass hboot₂.scratch_eq hboot₂.ktext_eq heax₂
    hesp₂ hy hbehind.length_eq hrun₂⟩

/-- Words that are equal have the same bytes. -/
theorem getElem?_of_headerWord_eq {x y : List UInt8} {off p : ℕ} (hx : off + 4 ≤ x.length)
    (hy : off + 4 ≤ y.length) (h : headerWord x off = headerWord y off) (hle : off ≤ p)
    (hlt : p < off + 4) : x[p]? = y[p]? := by
  have hxlen : (slice x off (off + 4)).length = 4 := by
    rw [length_slice hx, Nat.add_sub_cancel_left]
  have hylen : (slice y off (off + 4)).length = 4 := by
    rw [length_slice hy, Nat.add_sub_cancel_left]
  have hslice : slice x off (off + 4) = slice y off (off + 4) := by
    rw [← leBytes_leNat (slice x off (off + 4)), ← leBytes_leNat (slice y off (off + 4)), hxlen,
      hylen]
    exact congrArg (leBytes 4) h
  have hget := congrArg (·[p - off]?) hslice
  rwa [getElem?_slice (by omega), getElem?_slice (by omega), Nat.add_sub_cancel' hle] at hget

/-- Two boots that have gone well have the same bytes wherever stage2 looks. -/
theorem Seen.agree {x y : List UInt8} {p : ℕ} (hx : Seen mod out x) (hy : Seen mod out y)
    (hxlen : x.length = out.length) (hylen : y.length = out.length)
    (hlen : out.length = 64 + headerWord out 4) (hp : p < 20 ∨ 64 ≤ p) : x[p]? = y[p]? := by
  have hword {off : ℕ} (h : headerWord x off = headerWord y off) (hoff : off + 4 ≤ 64)
      (hle : off ≤ p) (hlt : p < off + 4) : x[p]? = y[p]? :=
    getElem?_of_headerWord_eq (by omega) (by omega) h hle hlt
  have hsize {off : ℕ} (h : off = 4 ∨ off = 8 ∨ off = 12) : headerWord x off = headerWord y off :=
    (hx.words off h).trans (hy.words off h).symm
  rcases hp with hp | hp
  · by_cases h4 : p < 4
    · exact hword (hx.magic.trans hy.magic.symm) (by decide) (Nat.zero_le p) h4
    by_cases h8 : p < 8
    · exact hword (hsize (.inl rfl)) (by decide) (Nat.not_lt.mp h4) h8
    by_cases h12 : p < 12
    · exact hword (hsize (.inr (.inl rfl))) (by decide) (Nat.not_lt.mp h8) h12
    by_cases h16 : p < 16
    · exact hword (hsize (.inr (.inr rfl))) (by decide) (Nat.not_lt.mp h12) h16
    exact hword (hx.base.trans hy.base.symm) (by decide) (Nat.not_lt.mp h16) hp
  · by_cases hlt : p < out.length
    · have hget := congrArg (·[p - 64]?) (hx.kernel.trans hy.kernel.symm)
      rwa [getElem?_slice (by omega), getElem?_slice (by omega), Nat.add_sub_cancel' hp] at hget
    · rw [List.getElem?_eq_none (by omega), List.getElem?_eq_none (by omega)]

/-- **Nothing less is enough.** A byte from in front of the output is another one in another
memory. -/
theorem loadsAlike_of_delivers (hpass : Passed img out mod) (hboots : Boots img mod.kernel out)
    (h : Delivers fst k img mod) : LoadsAlike (Bootmodel.blobOf img) out := by
  obtain ⟨hexact, x, hx, hseen⟩ := exists_seen hpass hboots h 0
  obtain ⟨-, y, hy, hseen'⟩ := exists_seen hpass hboots h 1
  have hlen := hpass.length_eq
  have hxlen := hx.length_eq
  have hown : ∀ p, p < 20 ∨ 64 ≤ p → (borrowed (Bootmodel.blobOf img))[p]? ≠ some true := by
    intro p hp hborrowed
    obtain ⟨b, hb, hxp⟩ := hx.of_past p hborrowed
    obtain ⟨c, hc, hyp⟩ := hy.of_past p hborrowed
    have hsame := hseen.agree hseen' hxlen hy.length_eq (by omega) hp
    rw [hxp, hyp, List.eq_of_mem_replicate hb, List.eq_of_mem_replicate hc] at hsame
    exact absurd (Option.some.inj hsame) (by decide)
  refine ⟨hexact, ?_, hown⟩
  rw [← hseen.base, headerWord, headerWord]
  exact congrArg leNat (slice_congr fun p _ hp => (hx.own_of_ne (hown p (.inl (by omega)))).symm)

/-! ### A disk for any blob -/

/-- A disk with nothing on it but the arguments of stage1 and a blob. -/
def bareImage (blob : List UInt8) : List UInt8 :=
  List.replicate (stage1ArgsOff + argLba) 0 ++ leBytes 4 partLba ++
    leBytes 2 (stage2Sectors + blob.length / sector) ++ [0, 0] ++ leBytes 4 (checksum blob) ++
    List.replicate 30 0 ++ [0x55, 0xAA] ++
    List.replicate ((partLba + stage2Sectors - 1) * sector) 0 ++ blob

section bareImage

variable {blob : List UInt8} {n : ℕ}

theorem length_bareImage (h : blob.length = n * sector) :
    (bareImage blob).length = (partLba + stage2Sectors + n) * sector := by
  rw [Nat.add_mul, ← h, bareImage]
  simp only [List.length_append, List.length_replicate, length_leBytes, List.length_cons,
    List.length_nil]
  exact congrArg (· + blob.length) (by decide)

/-- What lies where. -/
theorem hasAt_bareImage (h : blob.length = n * sector) :
    HasAt (bareImage blob) (stage1ArgsOff + argLba) (leBytes 4 partLba) ∧
      HasAt (bareImage blob) (stage1ArgsOff + argTotal) (leBytes 2 (stage2Sectors + n)) ∧
      HasAt (bareImage blob) (stage1ArgsOff + argCrc) (leBytes 4 (checksum blob)) ∧
      HasAt (bareImage blob) 510 [0x55, 0xAA] ∧
      HasAt (bareImage blob) ((partLba + stage2Sectors) * sector) blob := by
  have hself := hasAt_self (bareImage blob)
  nth_rewrite 2 [bareImage] at hself
  have hdiv : blob.length / sector = n := by
    rw [h, sector, Nat.mul_div_cancel _ (by decide)]
  rw [hdiv] at hself
  have hblob := hself.right
  have hsig := hself.left.left.right
  have hcrc := hself.left.left.left.left.right
  have htotal := hself.left.left.left.left.left.left.right
  have hlba := hself.left.left.left.left.left.left.left.right
  simp only [List.length_append, List.length_replicate, length_leBytes, List.length_cons,
    List.length_nil, Nat.zero_add] at hblob hsig hcrc htotal hlba
  have haddr : stage1ArgsOff + argLba + 4 + 2 + 2 + 4 + 30 + 2 +
      (partLba + stage2Sectors - 1) * sector = (partLba + stage2Sectors) * sector := by decide
  rw [haddr] at hblob
  exact ⟨hlba, htotal, hcrc, hsig, hblob⟩

theorem checkImage_bareImage (h : blob.length = n * sector) (hpos : 0 < n)
    (hmax : stage2Sectors + n < 256 ^ 2) :
    checkImage (bareImage blob) = .ok ⟨partLba, stage2Sectors + n, checksum blob⟩ := by
  obtain ⟨hlba, htotal, hcrc, hsig, -⟩ := hasAt_bareImage h
  have hwhole : ¬(bareImage blob).length % sector ≠ 0 := by
    rw [length_bareImage h, Nat.mul_mod_left]
    exact not_not.mpr rfl
  have hmagic : slice (bareImage blob) 510 512 = [0x55, 0xAA] := hsig.slice_eq
  dsimp only [argLba, argTotal, argCrc] at hlba htotal hcrc
  rw [checkImage, failIf_of_not hwhole, ok_bind, failIf_of_not (not_not.mpr hmagic), ok_bind,
    unpackFrom_of_hasAt hlba (by decide) (by decide), ok_bind,
    unpackFrom_of_hasAt htotal hmax (by decide), ok_bind,
    unpackFrom_of_hasAt hcrc (checksum_lt blob) (by decide), ok_bind,
    failIf_of_not (not_not.mpr rfl), ok_bind, failIf_of_not (by omega)]
  rfl

theorem blobOf_bareImage (h : blob.length = n * sector) :
    Check.blobOf (bareImage blob) ⟨partLba, stage2Sectors + n, checksum blob⟩ = blob := by
  obtain ⟨-, -, -, -, hblob⟩ := hasAt_bareImage h
  have haddr : partLba * sector + stage2Bytes = (partLba + stage2Sectors) * sector := by decide
  have hslice := hblob.slice_eq
  rw [h] at hslice
  rw [Check.blobOf]
  dsimp only
  rw [Nat.add_sub_cancel_left, haddr, hslice]

theorem checkBlob_bareImage (h : blob.length = n * sector) (hdec : decompress blob = .ok out)
    (hout : out.length = declared blob) :
    checkBlob (bareImage blob) none ⟨partLba, stage2Sectors + n, checksum blob⟩ = .ok out := by
  obtain ⟨h8, hmagic, -⟩ := decompress_eq_ok_iff.mp hdec
  have hlen : ¬blob.length ≠ (stage2Sectors + n - stage2Sectors) * sector := by
    rw [h, Nat.add_sub_cancel_left]
    exact not_not.mpr rfl
  have hword : unpackFrom 4 blob 0 = .ok lzssMagic := hmagic ▸ unpackFrom_of_le (by omega)
  have hdeclared : unpackFrom 4 blob 4 = .ok (declared blob) := unpackFrom_of_le h8
  rw [checkBlob, blobOf_bareImage h]
  dsimp only
  rw [checkStage2, ok_bind, failIf_of_not hlen, ok_bind, failIf_of_not (not_not.mpr rfl), ok_bind,
    hword, ok_bind, failIf_of_not (by simp), ok_bind, hdeclared, ok_bind, if_pos rfl, hdec, ok_bind,
    failIf_of_not (not_not.mpr hout)]
  rfl

/-- The checks on it. -/
theorem imageChecks_bareImage (h : blob.length = n * sector) (hpos : 0 < n)
    (hmax : stage2Sectors + n < 256 ^ 2) (hdec : decompress blob = .ok out)
    (hout : out.length = declared blob) (hmod : checkModule blob.length out = .ok mod) :
    imageChecks (bareImage blob) none = .ok mod := by
  rw [imageChecks, checkImage_bareImage h hpos hmax, ok_bind, checkBlob_bareImage h hdec hout,
    ok_bind, blobOf_bareImage h]
  exact hmod

theorem argWord_bareImage (h : blob.length = n * sector) (hmax : stage2Sectors + n < 256 ^ 2) :
    argWord (bareImage blob) 4 argLba = partLba ∧
      argWord (bareImage blob) 2 argTotal = stage2Sectors + n ∧
      argWord (bareImage blob) 4 argCrc = checksum blob := by
  obtain ⟨hlba, htotal, hcrc, -, -⟩ := hasAt_bareImage h
  have hword {w off v : ℕ} (hat : HasAt (bareImage blob) (stage1ArgsOff + off) (leBytes w v))
      (hv : v < 256 ^ w) : argWord (bareImage blob) w off = v := by
    have hslice := hat.slice_eq
    rw [length_leBytes] at hslice
    rw [argWord, hslice, leNat_leBytes hv]
  exact ⟨hword hlba (by decide), hword htotal hmax, hword hcrc (checksum_lt blob)⟩

theorem blobOf_eq_self (h : blob.length = n * sector) (hmax : stage2Sectors + n < 256 ^ 2) :
    Bootmodel.blobOf (bareImage blob) = blob := by
  obtain ⟨hlba, htotal, -⟩ := argWord_bareImage h hmax
  obtain ⟨-, -, -, -, hblob⟩ := hasAt_bareImage h
  have hslice := hblob.slice_eq
  rw [h, ← Nat.add_mul, Nat.add_assoc] at hslice
  rw [Bootmodel.blobOf, hlba, htotal, hslice]

/-- The boot model on it. -/
theorem boots_bareImage (h : blob.length = n * sector) (hmax : stage2Sectors + n < 256 ^ 2)
    (hregion : blob.length ≤ blobMax) (hdec : decompress blob = .ok out) (hout : Accepted out) :
    Boots (bareImage blob) (slice out qizokHdr (qizokHdr + headerWord out 4)) out := by
  obtain ⟨hlba, htotal, hcrc⟩ := argWord_bareImage h hmax
  have hcut := blobOf_eq_self h hmax
  refine ⟨?_, by rw [hcut, hcrc], hcut.symm ▸ hdec, hout, rfl⟩
  rw [hlba, htotal]
  refine ⟨?_, ?_⟩
  · rw [length_bareImage h, Nat.add_assoc]
  · have haddr : blobPhys = stage2 + stage2Sectors * sector := by decide
    rw [haddr, Nat.add_mul, ← h]
    omega

end bareImage

/-! ### The result -/

/-- The kernel the boot model has in memory is the one the checks have found. -/
structure SameKernel (mod : Module) (hand : Handoff) : Prop where
  klen_eq : hand.klen = mod.klen
  entry_eq : hand.entry = mod.entry
  total_eq : hand.total = mod.totalLen
  placed : Placed mod.kernel mod.totalLen hand.mem

theorem sameKernel_handoff (hpass : Passed img out mod) (hout : Accepted out) :
    SameKernel mod (handoff m out) := by
  obtain ⟨hkernel, hbss⟩ := holds_handoff m hout
  refine ⟨hpass.klen_eq.symm, hpass.entry_eq.symm, hpass.totalLen_eq.symm, ?_, ?_⟩
  · rw [hpass.kernel_eq]
    exact hkernel
  · rw [hpass.length_kernel, hpass.totalLen_eq]
    exact hbss

/-- **What the checks promise.** For an image that has passed, stage2 does what the checks have
computed exactly if it depends on nothing else. -/
theorem validated_iff {hand : Handoff} (hcheck : imageChecks img file = .ok mod)
    (hmodel : Bootmodel.main img mod.kernel = .ok hand) :
    ∃ out, decompress (Bootmodel.blobOf img) = .ok out ∧ SameKernel mod hand ∧
      (Delivers fst k img mod ↔ LoadsAlike (Bootmodel.blobOf img) out) := by
  obtain ⟨out, m, hboots, rfl⟩ := of_main_eq_ok (arguments_of_imageChecks hcheck) hmodel
  have hpass := of_imageChecks hcheck hboots.decompress_eq
  exact ⟨out, hboots.decompress_eq, sameKernel_handoff hpass hboots.accepted,
    loadsAlike_of_delivers hpass hboots, delivers_of_loadsAlike hpass hboots⟩

/-- The module of a kernel of one byte, with a load address in its header. -/
def tinyModule (base : ℕ) : List UInt8 :=
  leBytes 4 qizokMagic ++ leBytes 4 1 ++ leBytes 4 0 ++ leBytes 4 65 ++ leBytes 4 base ++
    leBytes 4 sector ++ List.replicate 40 0 ++ [0xF4]

/-- A container of it in one sector, without back references. -/
def tinyBlob (base : ℕ) : List UInt8 :=
  (leBytes 4 lzssMagic ++ leBytes 4 (tinyModule base).length ++
    ((tinyModule base).toChunks 8).flatMap (0 :: ·)).rightpad sector 0

/-- What the checks find in it, whatever the load address. -/
def tinyFound : Module := ⟨1, 0, 65, [0xF4]⟩

section tiny

variable {base : ℕ}

theorem tinyBlob_spec (h : base = ktext ∨ base = 2 * ktext) :
    (tinyBlob base).length = 1 * sector ∧ decompress (tinyBlob base) = .ok (tinyModule base) ∧
      (tinyModule base).length = declared (tinyBlob base) := by
  rcases h with rfl | rfl
  all_goals exact ⟨by decide +kernel, by decide +kernel, by decide +kernel⟩

theorem checkModule_tinyModule (h : base = ktext ∨ base = 2 * ktext) :
    checkModule (tinyBlob base).length (tinyModule base) = .ok tinyFound := by
  rw [(tinyBlob_spec h).1]
  rcases h with rfl | rfl
  all_goals rfl

theorem accepted_tinyModule (h : base = ktext ∨ base = 2 * ktext) : Accepted (tinyModule base) := by
  rcases h with rfl | rfl
  all_goals constructor <;> decide +kernel

theorem imageChecks_tiny (h : base = ktext ∨ base = 2 * ktext) :
    imageChecks (bareImage (tinyBlob base)) none = .ok tinyFound := by
  obtain ⟨hlen, hdec, hout⟩ := tinyBlob_spec h
  exact imageChecks_bareImage hlen (by decide) (by decide) hdec hout (checkModule_tinyModule h)

theorem boots_tiny (h : base = ktext ∨ base = 2 * ktext) :
    Boots (bareImage (tinyBlob base)) tinyFound.kernel (tinyModule base) := by
  obtain ⟨hlen, hdec, -⟩ := tinyBlob_spec h
  have hkernel : tinyFound.kernel =
      slice (tinyModule base) qizokHdr (qizokHdr + headerWord (tinyModule base) 4) := by
    rcases h with rfl | rfl
    all_goals decide +kernel
  rw [hkernel]
  exact boots_bareImage hlen (by decide) (by rw [hlen]; decide) hdec (accepted_tinyModule h)

theorem exists_main_tiny (h : base = ktext ∨ base = 2 * ktext) :
    ∃ hand, Bootmodel.main (bareImage (tinyBlob base)) tinyFound.kernel = .ok hand := by
  obtain ⟨m, hmain⟩ := main_eq_ok (arguments_of_imageChecks (imageChecks_tiny h)) (boots_tiny h)
  exact ⟨_, hmain⟩

end tiny

/-- One that boots. -/
theorem delivers_tiny :
    Delivers 0x20000 consecutiveLink (bareImage (tinyBlob ktext)) tinyFound := by
  have hbase : ktext = ktext ∨ ktext = 2 * ktext := .inl rfl
  obtain ⟨hand, hmain⟩ := exists_main_tiny hbase
  obtain ⟨hlen, hdec, -⟩ := tinyBlob_spec hbase
  obtain ⟨out, hout, -, hiff⟩ := validated_iff (imageChecks_tiny hbase) hmain
  rw [blobOf_eq_self hlen (by decide)] at hout hiff
  obtain rfl := Except.ok.inj (hout.symm.trans hdec)
  have hborrowed : borrowed (tinyBlob ktext) = List.replicate 65 false := by decide +kernel
  refine hiff.mpr ⟨by decide +kernel, by decide +kernel, fun p _ hp => ?_⟩
  rw [hborrowed] at hp
  exact Bool.noConfusion (List.eq_of_mem_replicate (List.mem_of_getElem? hp))

/-- **One that does not.** The load address in the header is not the one stage2 uses. -/
theorem not_delivers_tiny : ∃ hand, imageChecks (bareImage (tinyBlob (2 * ktext))) none =
      .ok tinyFound ∧
    Bootmodel.main (bareImage (tinyBlob (2 * ktext))) tinyFound.kernel = .ok hand ∧
      ¬Delivers 0x20000 consecutiveLink (bareImage (tinyBlob (2 * ktext))) tinyFound := by
  have hbase : 2 * ktext = ktext ∨ 2 * ktext = 2 * ktext := .inr rfl
  have hchecks := imageChecks_tiny hbase
  have hboots := boots_tiny hbase
  obtain ⟨hand, hmain⟩ := exists_main_tiny hbase
  refine ⟨hand, hchecks, hmain, fun h => ?_⟩
  have hloads := loadsAlike_of_delivers (of_imageChecks hchecks hboots.decompress_eq) hboots h
  exact absurd hloads.base_eq (by decide +kernel)

end Stage2

end Qizo
