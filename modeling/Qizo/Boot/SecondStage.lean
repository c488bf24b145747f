import Qizo.Boot.CpuCheck
import Qizo.Boot.E820
import Qizo.Boot.Validated
import Qizo.Image.Accepted

/-!
# The second stage

The four parts of the second stage, one after the other: the probe of the A20 gate, the check of the
processor, the memory map, and everything in protected mode up to the first instruction of the
kernel.

## Main results

* `leadsTo_booted` — from a checksum that compares equal to the kernel, and what is still in memory
* `second_stage` — every way the second stage can end, and when it ends that way
-/

namespace Qizo

namespace SecondStage

open StateTransition ByteString Memory

/-! ### The machine -/

/-- A state of the second stage, in one of its parts. -/
inductive State where
  | probe (x : A20.Label × Real.Cpu)
  | check (x : CpuCheck.Label × CpuCheck.Flagged)
  | collect (x : E820.Label × Real.Cpu)
  | protect (x : Stage2.Label × X86.Cpu)

/-- What the second stage runs on, and where its code is. -/
structure System where
  /-- The gate of address line 20. -/
  gate : Real.Gate
  /-- The processor, as it answers `cpuid`. -/
  processor : X64.Processor
  /-- The flags register at `a20_done`. -/
  flags : BitVec 32
  firmware : Real.Firmware
  /-- `qizo_gdtr`. -/
  gdtr : ℕ
  /-- `qizo_fstub_table`. -/
  fst : ℕ
  probeLink : Real.Link A20.Label
  collectLink : Real.Link E820.Label
  protectLink : X86.Link Stage2.Label

/-- One block of the second stage. A part that is at its end hands over to the next one. In
protected mode memory is taken to be flat, which it is behind an open gate only. -/
def step (S : System) : State → Option State
  | .probe x =>
    match S.gate.step S.probeLink A20.code x with
    | some y => some (.probe y)
    | none => if x.1 = .a20Done then some (.check (.a20Done, ⟨x.2, S.flags⟩)) else none
  | .check x =>
    match CpuCheck.step S.processor x with
    | some y => some (.check y)
    | none => if x.1 = .e820Start then some (.collect (.e820Start, x.2.cpu)) else none
  | .collect x =>
    match E820.step S.firmware S.gdtr S.collectLink x with
    | some y => some (.collect y)
    | none =>
      if x.1 = .qizoPm32 ∧ S.gate.isOpen x.2 = true then some (.protect (.qizoPm32, x.2.toCpu))
      else none
  | .protect x => (Stage2.step S.fst S.protectLink x).map .protect

variable {S : System}

/-! ### The probe -/

section Probe

open Real A20

variable {G : Gate} {k : Real.Link A20.Label} {s s' : Real.Cpu} {n : A20.Label}

/-- The extra segment stays as it is in a block that the gate makes no difference to. -/
theorem es_runBlock {body : List (Instr A20.Label)} (hbody : ∀ i ∈ body, i.Plain) :
    (Real.runBlock k n body s).2.es = s.es := by
  induction body generalizing s with
  | nil => rfl
  | cons i is ih =>
    rw [List.forall_mem_cons] at hbody
    cases i with
    | op f =>
      have hf : Real.Plain f := hbody.1
      exact (ih hbody.2).trans (hf.es s)
    | jcc c l =>
      rw [Real.runBlock]
      split
      · rfl
      · exact ih hbody.2
    | jmp l => rfl
    | call l => rfl
    | ret => rfl

/-- The routines of the trace leave the extra segment alone. -/
theorem es_routines {y z : A20.Label × Real.Cpu} (h : Real.step k routines y = some z) :
    z.2.es = y.2.es := by
  obtain ⟨b, hb, rfl⟩ := Option.map_eq_some_iff.mp h
  exact es_runBlock (plain_routines y.1 b hb).2

/-- A byte of the trace. -/
theorem leadsTo_putc (hs : Ready s) :
    LeadsTo (G.step k code) (.qizoTracePutc, s.push (k.addr n)) fun x =>
      x.1 = n ∧ Back s x.2 ∧ x.2.es = s.es := by
  have hputc : Trace.HasPutc routines .qizoTracePutc .qizoTrWait .qizoTrSend .qizoTrDone :=
    ⟨rfl, rfl, rfl, .a20Done, rfl⟩
  have hcalled : Called k n 0x8FEE (s.push (k.addr n)) := called_push hs.ss hs.sp (by decide)
  have hrun := (Trace.leadsTo_putc hputc hcalled (by decide)).and_invariant
    (I := fun y => y.2.es = s.es) rfl fun y z hy hstep => (es_routines hstep).trans hy
  refine (leadsTo_gated plain_routines ((plain_call n).low hs.low) hrun).mono ?_
  rintro x ⟨⟨⟨hx, hbal, hsent⟩, hes⟩, hlow⟩
  exact ⟨hx, ⟨hbal.of_push hs.ss hs.sp (by decide) (by decide), hsent.congr rfl rfl, hlow⟩, hes⟩

/-- What is left when the probe is over. -/
structure Probed (s s' : Real.Cpu) : Prop where
  ss : s'.ss = 0#16
  es : s'.es = .ofNat 16 bootinfoSeg
  sp : s'.sp = .ofNat 16 0x8FF0
  mem : ∃ m, EqOutside s.mem m [(0x7F00, 0x10F0)] ∧
    EqOutside (Function.update (Stage2.setupBootinfo m) (bootinfo + biA20) 1) s'.mem
      [(0x7F00, 0x10F0)]

/-- The segment of bootinfo is in `%es`. -/
def based (s : Real.Cpu) : Real.Cpu := movEs (mov 32 (.imm bootinfoSeg) ax s)

/-- **Filling bootinfo and probing**, in two blocks. -/
theorem leadsTo_restored (hs : Ready s) (hds : s.ds = 0#16) {Q : A20.Label × Real.Cpu → Prop}
    (hQ : Ready (restored (probed (filled (based s)))) →
      (restored (probed (filled (based s)))).es = .ofNat 16 bootinfoSeg →
      (restored (probed (filled (based s)))).mem =
        Function.update (Stage2.setupBootinfo s.mem) (bootinfo + biA20) 1 →
      LeadsTo (G.step k code)
        (.qizoTracePutc, (restored (probed (filled (based s)))).push (k.addr .onDigit)) Q) :
    LeadsTo (G.step k code) (.fill, s) Q := by
  have hes : (based s).es = .ofNat 16 bootinfoSeg := by
    simp only [based, movEs, mov, Cpu.read, Cpu.write, Cpu.setReg, X86.Cpu.set, X86.Cpu.get,
      withLow_32]
    decide
  have hlow : Low (based s) := ⟨hs.low.ds, by rw [hes]; decide, hs.low.ss⟩
  obtain ⟨hfds, hfes, hfss, hfesp, -⟩ := filled_regs (based s)
  obtain ⟨hrds, hres, hrss, hresp, -⟩ := restored_probed_regs (filled (based s))
  have hplain : ∀ i ∈ fillBootinfo.map Instr.op ++ probe, i.Plain := by
    intro i hi
    rcases List.mem_append.mp hi with hi | hi
    · obtain ⟨f, hf, rfl⟩ := List.mem_map.mp hi
      exact plain_fillBootinfo f hf
    · exact plain_probe i hi
  have hrun := @Gate.runBlock_eq A20.Label G k .a20On (based s) _ hplain hlow
  rw [runBlock_map_op] at hrun
  change _ = Real.runBlock k .a20On probe (filled (based s)) ∧
    Low (Real.runBlock k .a20On probe (filled (based s))).2 at hrun
  rw [runBlock_probe (hfds.trans hds) (hfes.trans hes)] at hrun
  refine Gate.leadsTo_block rfl ?_
  have hfirst : G.runBlock k .a20On ([.op (mov 32 (.imm bootinfoSeg) ax), .op movEs] ++
      (fillBootinfo.map .op ++ probe)) s = (.a20On, probed (filled (based s))) := by
    rw [List.cons_append, List.cons_append, List.nil_append, Gate.runBlock, Gate.runBlock,
      exec_of_mem (f := mov 32 (.imm bootinfoSeg) ax) rfl rfl,
      exec_of_mem (f := movEs) rfl rfl]
    exact hrun.1
  rw [hfirst]
  refine Gate.leadsTo_block rfl ?_
  rw [(@Gate.runBlock_eq A20.Label G k .onDigit _ _ (plain_putBack 1) hrun.2).1]
  refine hQ ⟨?_, ?_, ?_, ?_, ?_⟩ (hres.trans (hfes.trans hes)) ?_
  · rw [hrss, hfss]
    exact hs.ss
  · rw [Cpu.sp, hresp, hfesp]
    exact hs.sp
  · rw [hrds, hfds]
    exact hlow.ds
  · rw [hres, hfes]
    exact hlow.es
  · rw [hrss, hfss]
    exact hlow.ss
  · rw [restored_probed_mem (hfds.trans hds) (hfes.trans hes), filled_mem (s := based s) hds hes]
    rfl

/-- **The probe**, with the registers it leaves. -/
theorem leadsTo_probed (s : Real.Cpu) :
    LeadsTo (G.step k code) (.start, s) fun x => x.1 = .a20Done ∧ Probed s x.2 := by
  have hout (a : ℕ) (ha : Outside [(0x7F00, 0x10F0)] a) : a < 0x7F00 ∨ 0x8FF0 ≤ a :=
    outside_singleton.mp ha
  refine (leadsTo_fill s).trans ?_
  rintro ⟨_, s₁⟩ ⟨rfl, hready₁, hds₁, -, hmem₁⟩
  refine leadsTo_restored hready₁ hds₁ fun hready₂ hes₂ hmem₂ => ?_
  generalize restored (probed (filled (based s₁))) = s₂ at hready₂ hes₂ hmem₂
  refine (leadsTo_putc hready₂).trans ?_
  rintro ⟨_, s₃⟩ ⟨rfl, hback₃, hes₃⟩
  have hready₃ := hback₃.ready hready₂
  have hplain := plain_mov 8 (.imm 0x31) ax
  refine Gate.leadsTo_block rfl ?_
  rw [(Gate.runBlock_eq (by
    simp only [List.forall_mem_cons, List.not_mem_nil, false_imp_iff, implies_true, and_true]
    exact ⟨hplain, trivial⟩) hready₃.low).1, Real.runBlock, Real.runBlock]
  have hready₄ : Ready (mov 8 (.imm 0x31) ax s₃) :=
    ⟨hready₃.ss, hready₃.sp, hplain.low hready₃.low⟩
  refine (leadsTo_putc hready₄).trans ?_
  rintro ⟨_, s₅⟩ ⟨rfl, hback₅, hes₅⟩
  have hready₅ := hback₅.ready hready₄
  refine Gate.leadsTo_block rfl (.now ⟨rfl, hready₅.ss, ?_, hready₅.sp, s₁.mem,
    fun a ha => hmem₁ a (hout a ha), fun a ha => ?_⟩)
  · exact hes₅.trans (hes₃.trans hes₂)
  · rw [← hmem₂]
    exact (hback₅.stack.mem a (hout a ha)).trans (hback₃.stack.mem a (hout a ha))

end Probe

/-! ### What stage1 has left -/

section Loading

open Stage2 Image

variable {ratio : ℕ → ℕ → List Char} {args : Args} {img : List UInt8} {m m' : Memory}

/-- The sectors are at `0x20000`. Of the boot sector only the arguments from the first sector on
matter: the drive, the number of tries and the code of an error, around them, are written by stage1
itself. -/
structure Handed (img : List UInt8) (m : Memory) : Prop where
  args_at : m.Holds (biosArg + argLba) (slice img (stage1ArgsOff + argLba) (stage1ArgsOff + argErr))
  sectors_at : m.Holds stage2 (slice img (partLba * sector) ((partLba + argSectors img) * sector))

theorem handed_of_loaded (h : Loaded img m) : Handed img m := by
  refine ⟨?_, h.sectors_at⟩
  have hslice : slice (slice img 0 512) (stage1ArgsOff + argLba) (stage1ArgsOff + argErr) =
      slice img (stage1ArgsOff + argLba) (stage1ArgsOff + argErr) := by
    have hin : min (stage1ArgsOff + argErr) 512 = stage1ArgsOff + argErr := by decide
    rw [slice, slice, slice, List.drop_zero, List.take_take, hin]
  rw [← hslice]
  exact h.mbr_at.slice (stage1ArgsOff + argLba) (stage1ArgsOff + argErr)

theorem length_slice_le (l : List UInt8) (a b : ℕ) : (slice l a b).length ≤ b - a := by
  rw [slice, List.length_drop, List.length_take]
  omega

theorem Handed.of_eqOutside (h : Handed img m) {R : List (ℕ × ℕ)} (hframe : EqOutside m m' R)
    (hR : ∀ x, biosArg ≤ x ∧ x < biosArg + 16 ∨ stage2 ≤ x ∧ x < 0x40000 → Outside R x)
    (hsectors : argSectors img ≤ 256) : Handed img m' := by
  refine ⟨h.args_at.of_eqOutside hframe fun x hx hx' => hR x (.inl ⟨?_, ?_⟩),
    h.sectors_at.of_eqOutside hframe fun x hx hx' => hR x (.inr ⟨hx, ?_⟩)⟩
  · exact Nat.le_trans (Nat.le_add_right _ _) hx
  · have hlen := length_slice_le img (stage1ArgsOff + argLba) (stage1ArgsOff + argErr)
    have hnum : stage1ArgsOff + argErr - (stage1ArgsOff + argLba) = 12 := by decide
    have hlba : argLba = 4 := rfl
    omega
  · have hlen := length_slice_le img (partLba * sector) ((partLba + argSectors img) * sector)
    rw [partLba, sector] at hlen hx'
    rw [stage2] at hx'
    omega

variable (w : Written ratio args img)

theorem argSectors_eq (hstage1 : args.stage1.length ≤ 512) :
    argSectors img = stage2Sectors + w.blobSectors ∧ argSectors img ≤ 256 := by
  obtain ⟨-, htotal_at, -⟩ := w.args_at hstage1
  have hle := length_blob_le w
  rw [w.length_blob, sector, blobMax] at hle
  have hcount : stage2Sectors + w.blobSectors < 256 ^ 2 := by
    rw [stage2Sectors]
    omega
  have htotal := htotal_at.slice_eq
  rw [length_leBytes] at htotal
  rw [argSectors, argTotal, htotal, leNat_leBytes hcount]
  refine ⟨rfl, ?_⟩
  rw [stage2Sectors]
  omega

/-- **What is in bootinfo and behind it** when the second stage has filled it. A boot sector that is
whole has the same arguments, and nothing else of it is looked at. -/
theorem Handed.bootMem (h : Handed img m) (hstage1 : args.stage1.length ≤ 512) :
    BootMem w.blob (Lzss.checksum w.blob) (setupBootinfo m) := by
  have hsector : EqOutside m (m.write 0x7C00 (slice img 0 512)) [(0x7C00, 512)] := by
    refine (eqOutside_write m 0x7C00 (slice img 0 512)).mono fun x hx => ?_
    have hlen := length_slice_le img 0 512
    rw [outside_singleton] at hx ⊢
    omega
  have hboot := bootMem_setupBootinfo w hstage1 (m := m.write 0x7C00 (slice img 0 512))
    ⟨holds_write _ _ _, h.sectors_at.of_eqOutside hsector fun x hx _ => by
      rw [outside_singleton]
      rw [stage2] at hx
      omega⟩
  have hargs (i : ℕ) (hi : 4 ≤ i) (hi' : i < 16) :
      m.write 0x7C00 (slice img 0 512) (biosArg + i) = m (biosArg + i) := by
    have hlt : stage1ArgsOff + 15 < img.length :=
      (w.args_at hstage1).2.2.lt_length (by rw [length_leBytes]; decide : 3 < _)
    have hbyte : img[stage1ArgsOff + i]? = some img[stage1ArgsOff + i] :=
      List.getElem?_eq_getElem (by omega)
    have hoff : stage1ArgsOff = 0x1D0 ∧ biosArg = 0x7DD0 ∧ argLba = 4 ∧ argErr = 16 := by decide
    obtain ⟨hargs, hbios, hlba, herr⟩ := hoff
    have hwhole : m.write 0x7C00 (slice img 0 512) (0x7C00 + (stage1ArgsOff + i)) =
        img[stage1ArgsOff + i] := by
      refine holds_write m 0x7C00 (slice img 0 512) _ _ ?_
      rw [getElem?_slice (by omega), Nat.zero_add, hbyte]
    have hpart : m (biosArg + argLba + (i - 4)) = img[stage1ArgsOff + i] := by
      refine h.args_at _ _ ?_
      rw [getElem?_slice (by omega), ← hbyte]
      congr 1
      omega
    rw [← show biosArg + argLba + (i - 4) = biosArg + i by omega, hpart, ← hwhole]
    congr 1
    omega
  obtain ⟨-, hsize, hcrc, -, -⟩ := setupBootinfo_words (m.write 0x7C00 (slice img 0 512))
  obtain ⟨hphys', hsize', hcrc', hscratch', hktext'⟩ := setupBootinfo_words m
  have htotal_eq : (m.write 0x7C00 (slice img 0 512)).load 2 (biosArg + argTotal) =
      m.load 2 (biosArg + argTotal) :=
    load_congr fun i hi => by
      rw [Nat.add_assoc]
      exact hargs _ (by rw [argTotal]; omega) (by rw [argTotal]; omega)
  have hcrc_eq : (m.write 0x7C00 (slice img 0 512)).load 4 (biosArg + argCrc) =
      m.load 4 (biosArg + argCrc) :=
    load_congr fun i hi => by
      rw [Nat.add_assoc]
      exact hargs _ (by rw [argCrc]; omega) (by rw [argCrc]; omega)
  rw [htotal_eq] at hsize
  rw [hcrc_eq] at hcrc
  refine ⟨hphys', hsize'.trans (hsize.symm.trans hboot.blobSize_eq),
    hcrc'.trans (hcrc.symm.trans hboot.blobCrc_eq), hscratch', hktext', ?_, hboot.length_le⟩
  intro i b hb
  have hinfo : Outside [(bootinfo, biCpuidMax)] (blobPhys + i) := by
    rw [outside_singleton, bootinfo, biCpuidMax, blobPhys]
    omega
  have hmbr : Outside [(0x7C00, 512)] (blobPhys + i) := by
    rw [outside_singleton, blobPhys]
    omega
  rw [eqOutside_setupBootinfo m _ hinfo, ← hsector _ hmbr,
    ← eqOutside_setupBootinfo (m.write 0x7C00 (slice img 0 512)) _ hinfo]
  exact hboot.holds i b hb

end Loading

/-! ### Protected mode -/

section Protect

open X86 Reg Operand Stage2 Image Stage2.Label

variable {fst : ℕ} {k : Link Stage2.Label} {s : X86.Cpu} {klen entry total : ℕ}
  {kernel : List UInt8}

/-- What is written between the checks on the header and the jump. -/
def enteredWrites (total : ℕ) : List (ℕ × ℕ) :=
  (bootinfo + biKernelSize, 16) :: (ktext, total) :: handoffWrites

/-- Clearing the bss writes there and on the stack. -/
theorem leadsTo_zeroBack_frame (hsizes : SizesMem klen entry total s.mem)
    (hb : HeaderBounds klen entry total) (hesp : s.esp = .ofNat 32 pmStack) :
    LeadsTo (Stage2.step fst k) (copyBack, s) fun x => x.1 = zeroBack ∧
      x.2.esp = .ofNat 32 pmStack ∧ SizesMem klen entry total x.2.mem ∧
      EqOutside s.mem x.2.mem (enteredWrites total) := by
  have htotal : total ≤ 0x80000 := hb.total_le
  have hle := hb.klen_le_total
  have hbss : total - klen < 2 ^ 32 := by omega
  refine leadsTo_block rfl ?_
  simp only [runBlock, movl, addl, Cpu.read, Cpu.write, Cpu.get, Cpu.set, hesp]
  rw [ld32_ofNat (by decide), ld32_ofNat (by decide), ld32_ofNat (by decide), hsizes.ktext_eq,
    hsizes.size_eq, hsizes.bss_eq, ofNat_add_ofNat, ofNat_sub_ofNat (by decide),
    st32_ofNat (by decide)]
  have hpush := eqOutside_store s.mem 4 (pmStack - 4) (k.addr zeroBack).toNat
  refine (leadsTo_qizoZero (n := total - klen)
    (called_push (by decide) (by decide) rfl rfl) rfl rfl hbss ?_ ?_).mono ?_
  · rw [ktext]
    omega
  · rw [ktext, pmStack]
    omega
  · rintro ⟨_, s₁⟩ ⟨rfl, hesp₁, -, hframe, -⟩
    dsimp only at hesp₁ hframe ⊢
    have hboth : EqOutside s.mem s₁.mem [(pmStack - 4, 4), (ktext + klen, total - klen)] := by
      refine (hpush.mono fun x hx => ?_).trans (hframe.mono fun x hx => ?_)
      all_goals
        simp only [outside_cons, outside_nil, and_true] at hx ⊢
      · exact hx.1
      · exact hx.2
    refine ⟨rfl, hesp₁, hsizes.of_eqOutside hboth fun x hx hx' => ?_, hboth.mono fun x hx => ?_⟩
    all_goals
      simp only [enteredWrites, handoffWrites, outside_cons, outside_nil, and_true, bootinfo,
        biFlags, pmStack, ktext] at *
      omega

/-- **From the checks on the header to the jump**: what stays of memory, and the page tables. -/
theorem leadsTo_entered_frame (hscratch : s.mem.load 4 (bootinfo + biScratch) = scratch)
    (hktext : s.mem.load 4 (bootinfo + biKtext) = ktext)
    (hw : HeaderWords s.mem klen entry total ktext) (hb : HeaderBounds klen entry total)
    (heax : s.eax = 1#32) (hesp : s.esp = .ofNat 32 pmStack) :
    LeadsTo (Stage2.step fst k) (decompBack, s) fun x => x.1 = entered ∧
      EqOutside s.mem x.2.mem (enteredWrites total) ∧
      Paging.Entries x.2.mem pagePml4 bootEntries 3072 := by
  have htotal : total ≤ 0x80000 := hb.total_le
  have hklen : klen ≤ 0x80000 := hb.klen_le
  have hle := hb.klen_le_total
  obtain ⟨s₁, hstep, hcall, hsizes₁, hframe₁, hesi, hedi, hecx⟩ :=
    @step_decompBack fst k s _ _ _ hscratch hktext hw hb (by rw [heax]; decide) hesp
  refine .head hstep ?_
  refine (leadsTo_qizoCopy hcall hecx hesi hedi (by omega) ?_ ?_ (.inr ?_) (.inr ?_)).trans ?_
  · rw [scratch, qizokHdr]
    omega
  · rw [ktext]
    omega
  · rw [ktext, scratch, qizokHdr]
    omega
  · decide
  rintro ⟨_, s₂⟩ ⟨rfl, hesp₂, -, hframe₂⟩
  dsimp only at hesp₂ hframe₂
  have hsizes₂ := hsizes₁.of_eqOutside hframe₂ fun x hx hx' => by
    simp only [outside_cons, outside_nil, and_true, bootinfo, biFlags, ktext] at hx' ⊢
    omega
  refine (leadsTo_zeroBack_frame hsizes₂ hb hesp₂).trans ?_
  rintro ⟨_, s₃⟩ ⟨rfl, hesp₃, hsizes₃, hframe₃⟩
  dsimp only at hesp₃ hsizes₃ hframe₃
  refine leadsTo_block rfl ?_
  simp only [runBlock, movl, Cpu.read, Cpu.write, Cpu.set]
  refine LeadsTo.trans (leadsTo_fidtFill (n := 31) rfl rfl hesp₃
    (by decide) (by decide) (by decide)) ?_
  rintro ⟨_, s₄⟩ ⟨rfl, hcall₄, hframe₄⟩
  refine (leadsTo_qizoBuildPages hcall₄ (by decide) (.inl (by decide))).trans ?_
  rintro ⟨_, s₅⟩ ⟨rfl, -, hpages, hframe₅, -⟩
  dsimp only at hframe₄ hframe₅ hpages
  have hhandoff : EqOutside s₃.mem s₅.mem (enteredWrites total) := by
    refine (hframe₄.mono fun x hx => ?_).trans (hframe₅.mono fun x hx => ?_)
    all_goals
      simp only [enteredWrites, handoffWrites, outside_cons, outside_nil, and_true, pmStack] at hx ⊢
      omega
  have hsizes₅ : SizesMem klen entry total s₅.mem := by
    refine hsizes₃.of_eqOutside ((hframe₄.mono fun x hx => ?_).trans (hframe₅.mono fun x hx => ?_))
      fun x hx hx' => outside_handoffWrites (.inr ⟨hx, hx'⟩)
    all_goals
      simp only [handoffWrites, outside_cons, outside_nil, and_true, pmStack] at hx ⊢
      omega
  refine (leadsTo_entered_of_pagesBack hsizes₅).mono ?_
  rintro ⟨_, s₆⟩ ⟨rfl, hmem₆, -⟩
  dsimp only at hmem₆ ⊢
  rw [hmem₆]
  refine ⟨rfl, ((hframe₁.mono fun x hx => ?_).trans (hframe₂.mono fun x hx => ?_)).trans
    (hframe₃.trans hhandoff), hpages⟩
  all_goals
    simp only [enteredWrites, handoffWrites, outside_cons, outside_nil, and_true, ktext,
      pmStack] at hx ⊢
    omega

variable {ratio : ℕ → ℕ → List Char} {args : Args} {img : List UInt8}

/-- What is written from the comparison of checksums to the jump. -/
def bootWrites : List (ℕ × ℕ) :=
  (scratch, 0x80000) :: (pmStack - 32, 32) :: enteredWrites kernelMax

/-- **From a checksum that compares equal to the kernel**, with what else stays of memory. -/
theorem leadsTo_delivered_frame (w : Written ratio args img) (hraw : args.raw = false)
    (hbase : w.meas.base = ktext) (hentry : w.meas.entryOff < w.meas.klen)
    (hboot : BootMem w.blob (Lzss.checksum w.blob) s.mem) (hesp : s.esp = .ofNat 32 pmStack)
    (heax : s.eax = .ofNat 32 (Lzss.checksum w.blob)) :
    LeadsTo (Stage2.step fst k) (adlerBack, s) fun x =>
      Delivered args.kernel w.meas.entryOff.toNat w.meas.imgTotal.toNat x ∧
        EqOutside s.mem x.2.mem bootWrites ∧ Paging.Entries x.2.mem pagePml4 bootEntries 3072 := by
  obtain ⟨hklen, htotal, hmax, hmax'⟩ := measure_eq_ok w.measure_eq
  obtain ⟨hpos, hlen, -⟩ := packModule_eq_ok w.packModule_eq
  have hb : HeaderBounds args.kernel.length w.meas.entryOff.toNat w.meas.imgTotal.toNat := by
    constructor <;> omega
  have hmax₀ : kernelMax = 0x80000 := rfl
  obtain ⟨hdec, hrefs⟩ := w.decompress_blob hraw (by omega)
  have hframe : LeadsTo (Stage2.step fst k) (adlerBack, s) fun x => x.1 = entered ∧
      EqOutside s.mem x.2.mem bootWrites ∧ Paging.Entries x.2.mem pagePml4 bootEntries 3072 := by
    refine LeadsTo.trans (leadsTo_decompBack hboot hesp heax hdec hrefs (by omega)) ?_
    rintro ⟨_, s₁⟩ ⟨rfl, heax₁, hesp₁, hpayload, hframe₁⟩
    dsimp only at heax₁ hesp₁ hpayload hframe₁
    obtain ⟨hwords, -⟩ := headerWords_of_holds w.packModule_eq hklen hb hbase hpayload
    have hboot₁ : BootMem w.blob (Lzss.checksum w.blob) s₁.mem := by
      refine hboot.of_eqOutside hframe₁ fun x hx => ?_
      simp only [Fixed, decodeWrites, outside_cons, outside_nil, and_true, bootinfo, biKernelSize,
        blobPhys, blobMax, scratch, pmStack] at hx ⊢
      omega
    refine (leadsTo_entered_frame hboot₁.scratch_eq hboot₁.ktext_eq hwords hb heax₁ hesp₁).mono ?_
    rintro ⟨_, s₂⟩ ⟨rfl, hframe₂, hpages⟩
    refine ⟨rfl, (hframe₁.mono fun x hx => ?_).trans (hframe₂.mono fun x hx => ?_), hpages⟩
    all_goals
      simp only [bootWrites, enteredWrites, handoffWrites, decodeWrites, outside_cons, outside_nil,
        and_true, ktext, kernelMax, scratch, pmStack] at hx ⊢
      omega
  exact ((leadsTo_delivered w hraw hbase hentry hboot hesp heax).and_of_halted hframe
    (fun _ => Delivered.halted) fun x hx => halted_of_label hx.1 rfl).mono
    fun x hx => ⟨hx.1, hx.2.2⟩

/-- A checksum that compares unequal ends the boot with code `0x17`. -/
theorem leadsTo_failed_code {blob : List UInt8} {crc : ℕ} (h : BootMem blob crc s.mem)
    (hne : s.eax ≠ .ofNat 32 crc) :
    LeadsTo (Stage2.step fst k) (adlerBack, s) fun x => x.1 = qizoFailPm ∧
      x.2.mem.load 1 (bootinfo + biErr) = 0x17 := by
  have hcmp : (!s.eax == ld32 s.mem (.ofNat 32 (bootinfo + biBlobCrc))) = true := by
    rw [ld32_ofNat (by decide), h.blobCrc_eq]
    simpa using hne
  refine leadsTo_block rfl ?_
  simp only [runBlock, movl, cmpl, jne, Cpu.read, Cpu.write, Cpu.get, Cpu.set]
  rw [if_pos hcmp]
  refine leadsTo_block rfl (leadsTo_block rfl (.now ⟨rfl, ?_⟩))
  rw [load_one]
  exact congrArg UInt8.toNat (Function.update_self (bootinfo + biErr) (0x17 : UInt8) s.mem)

/-- **Up to the comparison of checksums**, with the memory map. -/
theorem leadsTo_adlerBack_handed {blob : List UInt8} {crc : ℕ} {rs : List E820.Response}
    (h : BootMem blob crc s.mem) (hmap : E820.Gathered rs s.mem) (hle : rs.length ≤ 32) :
    LeadsTo (Stage2.step fst k) (qizoPm32, s) fun x => x.1 = adlerBack ∧ BootMem blob crc x.2.mem ∧
      E820.HandedOver rs x.2.mem ∧ EqOutside s.mem x.2.mem mapWrites ∧
      x.2.esp = .ofNat 32 pmStack ∧ x.2.eax.toNat = asmValue blob := by
  refine LeadsTo.trans leadsTo_qizoAdler_call ?_
  rintro ⟨_, s₁⟩ ⟨rfl, hcall⟩
  have hboot := h.of_eqOutside hcall.frame fun x => fixed_mapWrites
  have hesi := hcall.esi
  have hecx := hcall.ecx
  rw [hboot.blobPhys_eq] at hesi
  rw [hboot.blobSize_eq] at hecx
  have hlen : blob.length ≤ 248 * 512 := h.length_le
  refine (@leadsTo_qizoAdler _ _ _ blob adlerBack ?_ ?_ ?_).mono ?_
  · rw [hecx, toNat_ofNat_of_lt (by omega)]
  · intro i b hb
    have hi := (List.getElem?_eq_some_iff.mp hb).1
    rw [hesi, ofNat_add_ofNat, toNat_ofNat_of_lt (by rw [blobPhys]; omega)]
    exact hboot.holds i b hb
  · rw [hcall.called.esp, ld32_ofNat hcall.called.sp_le, hcall.called.ret, ← eq_ofNat_toNat]
  · rintro ⟨_, s₂⟩ ⟨rfl, hmem₂, -, -, hesp₂, heax₂⟩
    dsimp only at hmem₂ hesp₂ heax₂ ⊢
    rw [hmem₂, hesp₂, hcall.called.esp, ofNat_add_ofNat]
    exact ⟨rfl, hboot, hmap.handedOver hle hcall, hcall.frame, rfl, heax₂⟩

end Protect

/-! ### The whole -/

section Whole

open Image Stage2

variable {ratio : ℕ → ℕ → List Char} {args : Args} {img : List UInt8} {m m' : Memory} {n : ℕ}
  {rs : List E820.Response} {R : List (ℕ × ℕ)}

/-- The fields of bootinfo about processor and gate, with the highest leaf `n`. -/
structure Fields (n : ℕ) (m : Memory) : Prop where
  cpuidMax : m.load 4 (bootinfo + biCpuidMax) = n
  longmode : m.load 1 (bootinfo + biLongmode) = 1
  a20 : m.load 1 (bootinfo + biA20) = 1

theorem Fields.of_eqOutside (h : Fields n m) (hframe : EqOutside m m' R)
    (hR : ∀ x, bootinfo + biCpuidMax ≤ x → x < bootinfo + biCpuidMax + 6 → Outside R x) :
    Fields n m' := by
  refine ⟨?_, ?_, ?_⟩
  · rw [hframe.load_eq fun x hx hx' => hR x hx (by omega), h.cpuidMax]
  · rw [hframe.load_eq fun x hx hx' => hR x ?_ ?_, h.longmode]
    all_goals
      rw [biLongmode, biCpuidMax] at *
      omega
  · rw [hframe.load_eq fun x hx hx' => hR x ?_ ?_, h.a20]
    all_goals
      rw [biA20, biCpuidMax] at *
      omega

theorem handedOver_of_eqOutside (h : E820.HandedOver rs m) (hframe : EqOutside m m' R)
    (hle : rs.length ≤ 32)
    (hR : ∀ x, bootinfo + biE820 ≤ x ∧ x < bootinfo + biE820N + 4 ∨ e820Cnt ≤ x ∧ x < e820Cnt + 4 →
      Outside R x) : E820.HandedOver rs m' := by
  refine ⟨?_, ?_, fun i r hi => (h.map i r hi).of_eqOutside hframe fun x hx hx' => hR x (.inl ?_)⟩
  · rw [hframe.load_eq fun x hx hx' => hR x (.inr ⟨hx, hx'⟩), h.count]
  · rw [hframe.load_eq fun x hx hx' => hR x (.inl ⟨?_, hx'⟩), h.total]
    have hroom : biE820N = biE820 + 768 := rfl
    omega
  · have hlt := (List.getElem?_eq_some_iff.mp hi).1
    have hlen : r.entry.length ≤ 24 := r.entry_le
    have hroom : biE820N = biE820 + 768 := rfl
    omega

/-- The kernel is entered, and what it is given. -/
structure Booted (w : Written ratio args img) (S : System) (rs : List E820.Response)
    (x : Stage2.Label × X86.Cpu) : Prop where
  delivered : Delivered args.kernel w.meas.entryOff.toNat w.meas.imgTotal.toNat x
  pages : Paging.Entries x.2.mem pagePml4 bootEntries 3072
  map : E820.HandedOver rs x.2.mem
  fields : Fields (S.processor 0 0).eax.toNat x.2.mem

/-- **From protected mode on.** -/
theorem leadsTo_booted (w : Written ratio args img) {s : X86.Cpu} (hraw : args.raw = false)
    (hbase : w.meas.base = ktext) (hentry : w.meas.entryOff < w.meas.klen)
    (hboot : BootMem w.blob (Lzss.checksum w.blob) s.mem) (hmap : E820.Gathered rs s.mem)
    (hle : rs.length ≤ 32) (hfields : Fields (S.processor 0 0).eax.toNat s.mem) :
    LeadsTo (Stage2.step S.fst S.protectLink) (.qizoPm32, s) fun x =>
      if AdlerExact w.blob then Booted w S rs x
      else x.1 = .qizoFailPm ∧ x.2.mem.load 1 (bootinfo + biErr) = 0x17 := by
  refine (leadsTo_adlerBack_handed hboot hmap hle).trans ?_
  rintro ⟨_, s₁⟩ ⟨rfl, hboot₁, hmap₁, hframe₁, hesp₁, heax₁⟩
  dsimp only at hboot₁ hmap₁ hframe₁ hesp₁ heax₁
  have hsum : s₁.eax = .ofNat 32 (Lzss.checksum w.blob) ↔ AdlerExact w.blob := by
    rw [← asmValue_eq_checksum_iff, ← heax₁]
    constructor
    · intro h
      rw [h, X86.toNat_ofNat_of_lt (Lzss.checksum_lt _)]
    · intro h
      rw [← h, ← X86.eq_ofNat_toNat]
  have hfields₁ : Fields (S.processor 0 0).eax.toNat s₁.mem :=
    hfields.of_eqOutside hframe₁ fun x hx hx' => by
      simp only [mapWrites, outside_cons, outside_nil, and_true, bootinfo, biCpuidMax, biE820,
        biTotalRam, pmStack] at hx hx' ⊢
      omega
  by_cases hexact : AdlerExact w.blob
  · refine (leadsTo_delivered_frame w hraw hbase hentry hboot₁ hesp₁ (hsum.mpr hexact)).mono ?_
    rintro x ⟨hdelivered, hframe, hpages⟩
    rw [if_pos hexact]
    refine ⟨hdelivered, hpages, handedOver_of_eqOutside hmap₁ hframe hle fun x hx => ?_,
      hfields₁.of_eqOutside hframe fun x hx hx' => ?_⟩
    all_goals
      simp only [bootWrites, enteredWrites, handoffWrites, outside_cons, outside_nil, and_true,
        bootinfo, biE820, biE820N, biCpuidMax, biKernelSize, e820Cnt, ktext, kernelMax, scratch,
        idtBoot, pagePml4, pmStack] at *
      omega
  · refine (leadsTo_failed_code hboot₁ fun heq => hexact (hsum.mp heq)).mono ?_
    rintro x hx
    rwa [if_neg hexact]

/-! The parts inside the whole. -/

theorem step_probe {x y : A20.Label × Real.Cpu}
    (h : S.gate.step S.probeLink A20.code x = some y) : step S (.probe x) = some (.probe y) := by
  simp only [step, h]

theorem step_check {x y : CpuCheck.Label × CpuCheck.Flagged}
    (h : CpuCheck.step S.processor x = some y) : step S (.check x) = some (.check y) := by
  simp only [step, h]

theorem step_collect {x y : E820.Label × Real.Cpu}
    (h : E820.step S.firmware S.gdtr S.collectLink x = some y) :
    step S (.collect x) = some (.collect y) := by
  simp only [step, h]

theorem step_protect {x y : Stage2.Label × X86.Cpu}
    (h : Stage2.step S.fst S.protectLink x = some y) : step S (.protect x) = some (.protect y) := by
  simp only [step, h, Option.map_some]

/-- How the second stage ends. -/
inductive End (w : Written ratio args img) (S : System) (resp : BitVec 32 → E820.Response) :
    State → Prop where
  /-- The processor has no long mode. -/
  | noLongMode {x : CpuCheck.Label × CpuCheck.Flagged} (hl : x.1 = .qizoFail16)
    (herr : x.2.cpu.mem.load 1 (bootinfo + biErr) = 0x12)
    (hmode : CpuCheck.hasLongMode S.processor = false) : End w S resp (.check x)
  /-- The firmware has no memory map. -/
  | noMap {x : E820.Label × Real.Cpu} (hl : x.1 = .qizoFail16)
    (herr : x.2.mem.load 1 (bootinfo + biErr) = 0x14)
    (hmode : CpuCheck.hasLongMode S.processor = true) (hmap : ¬(resp 0#32).accepted) :
    End w S resp (.collect x)
  /-- The checksum does not compare equal. -/
  | noChecksum {x : Stage2.Label × X86.Cpu} (hl : x.1 = .qizoFailPm)
    (herr : x.2.mem.load 1 (bootinfo + biErr) = 0x17)
    (hmode : CpuCheck.hasLongMode S.processor = true) (hmap : (resp 0#32).accepted)
    (hexact : ¬AdlerExact w.blob) : End w S resp (.protect x)
  /-- The kernel is entered. -/
  | booted {x : Stage2.Label × X86.Cpu} (hbooted : Booted w S (E820.mapOf resp) x)
    (hmode : CpuCheck.hasLongMode S.processor = true) (hmap : (resp 0#32).accepted)
    (hexact : AdlerExact w.blob) : End w S resp (.protect x)

/-- Memory when the probe of the gate and the check of the processor are over, in terms of memory
`m` before bootinfo is filled. -/
theorem checkedMem_spec {m₁ m₂ : Memory} (hn : n < 256 ^ 4)
    (hprobe : EqOutside (Function.update (setupBootinfo m) (bootinfo + biA20) 1) m₁
      [(0x7F00, 0x10F0)])
    (hstack : EqOutside m₁ m₂ [(0x8FEC, 4)]) :
    EqOutside (setupBootinfo m) (CpuCheck.checkedMem n m₂)
      [(0x7F00, 0x10F0), (bootinfo + biCpuidMax, 6)] ∧ Fields n (CpuCheck.checkedMem n m₂) := by
  have hboth : EqOutside (Function.update (setupBootinfo m) (bootinfo + biA20) 1) m₂
      [(0x7F00, 0x10F0)] := by
    refine hprobe.trans (hstack.mono fun x hx => ?_)
    rw [outside_singleton] at hx ⊢
    omega
  have hfields : biLongmode = biCpuidMax + 4 ∧ biA20 = biCpuidMax + 5 ∧ bootinfo = 0x10000 := by
    decide
  obtain ⟨hlong, ha20, hbase⟩ := hfields
  have hstores : EqOutside m₂ (CpuCheck.checkedMem n m₂) [(bootinfo + biCpuidMax, 5)] := by
    refine ((EqOutside.refl m₂ _).store fun x hx => ?_).store fun x hx => ?_
    all_goals
      rw [outside_singleton] at hx
      omega
  refine ⟨fun x hx => ?_, ?_, ?_, ?_⟩
  · simp only [outside_cons, outside_nil, and_true] at hx
    have hne : x ≠ bootinfo + biA20 := by omega
    rw [hstores x (outside_singleton.mpr (by omega)), hboth x (outside_singleton.mpr hx.1),
      Function.update_of_ne hne]
  · rw [CpuCheck.checkedMem, load_store_of_disjoint (.inl (by omega)), load_store_self hn]
  · exact load_store_self (by decide)
  · rw [load_one, hstores _ (outside_singleton.mpr (by omega)),
      hboth _ (outside_singleton.mpr (by omega)), Function.update_self]
    rfl

/-! The hand-overs. -/

theorem step_a20Done (s : Real.Cpu) :
    step S (.probe (.a20Done, s)) = some (.check (.a20Done, ⟨s, S.flags⟩)) := rfl

theorem step_e820Start (s : CpuCheck.Flagged) :
    step S (.check (.e820Start, s)) = some (.collect (.e820Start, s.cpu)) := rfl

theorem step_qizoPm32 {s : Real.Cpu} (hgate : S.gate.isOpen s = true) :
    step S (.collect (.qizoPm32, s)) = some (.protect (.qizoPm32, s.toCpu)) := by
  have hhalt : E820.step S.firmware S.gdtr S.collectLink (.qizoPm32, s) = none := rfl
  simp only [step, hhalt, hgate, and_self, if_true]

/-- Into protected mode with the entries, and what stays of memory. -/
theorem leadsTo_gathered_frame {fw : Real.Firmware} {gdtr : ℕ} {k : Real.Link E820.Label}
    {s₀ s : Real.Cpu} (h : E820.Collecting s₀ s rs) :
    LeadsTo (E820.step fw gdtr k) (.e820Done, s) fun x => x.1 = .qizoPm32 ∧
      E820.Gathered rs x.2.mem ∧ EqOutside s.mem x.2.mem E820.pmWrites := by
  have hhalt (x : E820.Label × Real.Cpu) (hx : x.1 = .qizoPm32) : E820.step fw gdtr k x = none := by
    obtain ⟨_, s'⟩ := x
    subst hx
    rfl
  exact ((E820.leadsTo_gathered h).and_of_halted (E820.leadsTo_qizoPm32 h.ds h.stack)
    (fun x hx => hhalt x hx.1) fun x hx => hhalt x hx.1).mono
    fun x hx => ⟨hx.1.1, hx.1.2.1, hx.2.2.2.1⟩

/-- **From the memory map on**, where `m` is memory before bootinfo is filled. -/
theorem leadsTo_end (w : Written ratio args img) {s : Real.Cpu} {resp : BitVec 32 → E820.Response}
    (hraw : args.raw = false) (hstage1 : args.stage1.length ≤ 512) (hbase : w.meas.base = ktext)
    (hentry : w.meas.entryOff < w.meas.klen) (hload : Handed img m)
    (hopen : ∀ s, S.gate.isOpen s = true) (hfw : E820.Replies S.firmware resp)
    (hmode : CpuCheck.hasLongMode S.processor = true) (hstack : E820.HasStack s)
    (hframe : EqOutside (setupBootinfo m) s.mem [(0x7F00, 0x10F0), (bootinfo + biCpuidMax, 6)])
    (hfields : Fields (S.processor 0 0).eax.toNat s.mem) :
    LeadsTo (step S) (.collect (.e820Start, s)) (End w S resp) := by
  refine (E820.leadsTo_e820Done hfw hstack).inside (fun _ _ => step_collect) ?_
  rintro ⟨l, s₁⟩ ⟨-, ⟨rfl, hrej, herr⟩ | ⟨rfl, hacc, h₁⟩⟩
  · exact .now (.noMap rfl herr hmode hrej)
  dsimp only at h₁
  refine (leadsTo_gathered_frame h₁).inside (fun _ _ => step_collect) ?_
  rintro ⟨_, s₂⟩ ⟨rfl, hmap, hframe₂⟩
  dsimp only at hmap hframe₂
  refine .head (step_qizoPm32 (hopen s₂)) ?_
  have hboot : BootMem w.blob (Lzss.checksum w.blob) s₂.mem := by
    refine (hload.bootMem w hstage1).of_eqOutside
      (((hframe.mono fun x hx => ?_).trans (h₁.frame.mono fun x hx => ?_)).trans
        (hframe₂.mono fun x hx => ?_)) fun x => fixed_realModeWrites
    all_goals
      simp only [realModeWrites, E820.pmWrites, outside_cons, outside_nil, and_true,
        bootinfo] at hx ⊢
      omega
  have hfields₂ : Fields (S.processor 0 0).eax.toNat s₂.mem := by
    refine (hfields.of_eqOutside h₁.frame fun x hx hx' => ?_).of_eqOutside hframe₂
      fun x hx hx' => ?_
    all_goals
      simp only [E820.pmWrites, outside_cons, outside_nil, and_true, bootinfo, biCpuidMax, biE820N,
        e820Buf] at *
      omega
  refine (leadsTo_booted w hraw hbase hentry (s := s₂.toCpu) hboot hmap
    (E820.length_chain_le _ _) hfields₂).inside
    (fun _ _ => step_protect) ?_
  intro x hx
  by_cases hexact : AdlerExact w.blob
  · rw [if_pos hexact] at hx
    exact .now (.booted hx hmode hacc hexact)
  · rw [if_neg hexact] at hx
    exact .now (.noChecksum hx.1 hx.2 hmode hacc hexact)

/-- **The second stage**, from its first instruction on. The gate is open and stays open, and the
flags register has interrupts off. What ends it is the processor, the firmware or the checksum of
the blob, in this order, with the code of the one that failed; else the kernel is entered, with all
of bootinfo as it was found. -/
theorem second_stage (w : Written ratio args img) {s : Real.Cpu} {resp : BitVec 32 → E820.Response}
    (hraw : args.raw = false) (hstage1 : args.stage1.length ≤ 512) (hbase : w.meas.base = ktext)
    (hentry : w.meas.entryOff < w.meas.klen) (hload : Handed img s.mem)
    (hopen : ∀ s, S.gate.isOpen s = true) (hflags : S.flags.getLsbD 9 = false)
    (hcpu : CpuCheck.Uniform S.processor) (hfw : E820.Replies S.firmware resp) :
    LeadsTo (step S) (.probe (.start, s)) (End w S resp) := by
  refine (leadsTo_probed s).inside (fun _ _ => step_probe) ?_
  rintro ⟨_, s₁⟩ ⟨rfl, h₁⟩
  dsimp only at h₁
  obtain ⟨m, hm, hmem₁⟩ := h₁.mem
  refine .head (step_a20Done s₁) ?_
  have hat : CpuCheck.At 0x8FF0 s₁.mem S.flags ⟨s₁, S.flags⟩ := ⟨h₁.ss, h₁.es, h₁.sp, rfl, rfl⟩
  refine (CpuCheck.leadsTo_checked hcpu hat hflags).inside (fun _ _ => step_check) ?_
  rintro ⟨l, s₂⟩ h₂
  cases hmode : CpuCheck.hasLongMode S.processor with
  | false =>
    rw [hmode] at h₂
    exact .now (.noLongMode h₂.1 h₂.2 hmode)
  | true =>
    rw [hmode] at h₂
    obtain ⟨rfl, m₂, f₂, hstack₂, hat₂⟩ := h₂
    refine .head (step_e820Start s₂) ?_
    have hload₁ : Handed img m := by
      refine hload.of_eqOutside hm (fun x hx => ?_) (argSectors_eq w hstage1).2
      rw [outside_singleton]
      rw [biosArg, stage2] at hx
      omega
    have hmem₂ : s₂.cpu.mem = CpuCheck.checkedMem (S.processor 0 0).eax.toNat m₂ := hat₂.mem
    obtain ⟨hframe₂, hfields₂⟩ := checkedMem_spec (S.processor 0 0).eax.isLt hmem₁ hstack₂
    rw [← hmem₂] at hframe₂ hfields₂
    have hsp₂ : s₂.cpu.sp = .ofNat 16 0x8FEE := hat₂.sp
    exact leadsTo_end w hraw hstage1 hbase hentry hload₁ hopen hfw hmode
      ⟨hat₂.ss, by rw [hsp₂]; decide, by rw [hsp₂]; decide⟩ hframe₂ hfields₂

/-- A processor with long mode, a gate that is always open, and firmware with two entries. -/
def smallSystem : System where
  gate := ⟨true, fun _ _ => true⟩
  processor _ _ := ⟨1#32, 0#32, 0#32, 0x20000000#32⟩
  flags := 2#32
  firmware := E820.firmwareOf E820.twoEntries
  gdtr := 0x200
  fst := 0x20000
  probeLink := A20.consecutiveLink
  collectLink := E820.consecutiveLink
  protectLink := Stage2.consecutiveLink

/-- The small image. -/
theorem second_stage_small : ∃ img, main smallRatio smallArgs = .ok img ∧
    ∃ w : Written smallRatio smallArgs img, LeadsTo (step smallSystem)
      (.probe (.start, A20.startCpu.setMem (loadedMem img)))
      (End w smallSystem E820.twoEntries) := by
  obtain ⟨img, himg⟩ := exists_main_small
  obtain ⟨w⟩ := exists_written himg
  obtain ⟨hbase, hoff⟩ : w.meas.base = ktext ∧ w.meas.entryOff < w.meas.klen := by
    have hmeas : w.meas = ⟨ktext, 25, 0, 125⟩ := Except.ok.inj (w.measure_eq.symm.trans rfl)
    rw [hmeas]
    exact ⟨rfl, by decide⟩
  have hopen (outs : List (ℕ × UInt8)) : Real.gateAfter (fun _ _ => true) true outs = true := by
    induction outs with
    | nil => rfl
    | cons o os ih =>
      rw [Real.gateAfter, List.foldl_cons, ite_self]
      exact ih
  exact ⟨img, himg, w, second_stage w rfl (by decide +kernel) hbase hoff
    (handed_of_loaded (loaded_loadedMem img)) (fun s => hopen s.outs) rfl (fun _ => ⟨rfl, rfl⟩)
    (E820.replies_firmwareOf E820.twoEntries)⟩

end Whole

end SecondStage

end Qizo
