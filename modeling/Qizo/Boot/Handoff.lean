import Qizo.Boot.Adler
import Qizo.Boot.Decompress
import Qizo.Boot.MemoryMap
import Qizo.Boot.Pages

/-!
# From protected mode to the kernel

The run of `stage2.S` from `qizo_pm32` on, in the three parts between its decisions: up to the
comparison of checksums, from there through the decoder to the checks on the module header, and
from the first store behind them to the jump into the kernel.

## Regions

Whatever the code writes lies in one of eight regions, and what it reads back later in another.
`BootMem` is what it reads of bootinfo and the blob; it is kept by every write outside the first
`0x34` bytes of bootinfo and the sectors of the blob.

## Main results

* `leadsTo_adlerBack` — up to the comparison of checksums
* `leadsTo_decompBack` — a container that decodes
* `leadsTo_entered` — the jump into the kernel
-/

namespace Qizo

namespace Stage2

open X86 Reg Operand Label StateTransition ByteString Memory

variable {fst : ℕ} {k : Link Label} {s : Cpu} {blob : List UInt8} {crc : ℕ}

/-! ### What stays -/

/-- What the code reads of bootinfo and the blob. -/
structure BootMem (blob : List UInt8) (crc : ℕ) (m : Memory) : Prop where
  blobPhys_eq : m.load 4 (bootinfo + biBlobPhys) = blobPhys
  blobSize_eq : m.load 4 (bootinfo + biBlobSize) = blob.length
  blobCrc_eq : m.load 4 (bootinfo + biBlobCrc) = crc
  scratch_eq : m.load 4 (bootinfo + biScratch) = scratch
  ktext_eq : m.load 4 (bootinfo + biKtext) = ktext
  holds : m.Holds blobPhys blob
  length_le : blob.length ≤ blobMax

/-- The regions `BootMem` is about: bootinfo up to the kernel's size, and the blob. -/
def Fixed (x : ℕ) : Prop :=
  bootinfo ≤ x ∧ x < bootinfo + biKernelSize ∨ blobPhys ≤ x ∧ x < blobPhys + blobMax

theorem BootMem.of_eqOutside {R : List (ℕ × ℕ)} {m m' : Memory} (h : BootMem blob crc m)
    (hframe : EqOutside m m' R) (hR : ∀ x, Fixed x → Outside R x) : BootMem blob crc m' := by
  have hle := h.length_le
  have hfield {off : ℕ} (hoff : off + 4 ≤ biKernelSize) :
      m'.load 4 (bootinfo + off) = m.load 4 (bootinfo + off) :=
    hframe.load_eq fun x hx hx' => hR x (.inl (by omega))
  refine ⟨?_, ?_, ?_, ?_, ?_, ?_, hle⟩
  · rw [hfield (by decide), h.blobPhys_eq]
  · rw [hfield (by decide), h.blobSize_eq]
  · rw [hfield (by decide), h.blobCrc_eq]
  · rw [hfield (by decide), h.scratch_eq]
  · rw [hfield (by decide), h.ktext_eq]
  · exact h.holds.of_eqOutside hframe fun x hx hx' => hR x (.inr (by omega))

theorem BootMem.store {m : Memory} {w a v : ℕ} (h : BootMem blob crc m)
    (ha : ∀ x, Fixed x → x < a ∨ a + w ≤ x) : BootMem blob crc (m.store w a v) :=
  h.of_eqOutside (eqOutside_store m w a v) fun x hx => by simpa using ha x hx

/-- The stack is not in the way. -/
theorem fixed_stack {x n : ℕ} (h : Fixed x) (hn : n ≤ 0x1000) : x < pmStack - n ∨ pmStack ≤ x := by
  simp only [Fixed, bootinfo, biKernelSize, blobPhys, blobMax, pmStack] at h ⊢
  omega

/-! ### Up to the checksum -/

theorem fixed_mapWrites {x : ℕ} (h : Fixed x) : Outside mapWrites x := by
  simp only [Fixed, mapWrites, outside_cons, outside_nil, and_true, bootinfo, biKernelSize,
    blobPhys, blobMax, biE820, biTotalRam, pmStack] at h ⊢
  omega

/-- **Up to the comparison of checksums.** -/
theorem leadsTo_adlerBack (h : BootMem blob crc s.mem) :
    LeadsTo (step fst k) (qizoPm32, s) fun x => x.1 = adlerBack ∧ BootMem blob crc x.2.mem ∧
      EqOutside s.mem x.2.mem mapWrites ∧ x.2.esp = .ofNat 32 pmStack ∧
      x.2.eax.toNat = asmValue blob := by
  refine LeadsTo.trans leadsTo_qizoAdler_call ?_
  rintro ⟨_, s₁⟩ ⟨rfl, hcall⟩
  have hboot := h.of_eqOutside hcall.frame fun x => fixed_mapWrites
  have hesi := hcall.esi
  have hecx := hcall.ecx
  rw [hboot.blobPhys_eq] at hesi
  rw [hboot.blobSize_eq] at hecx
  have hlen : blob.length ≤ 248 * 512 := h.length_le
  refine (@leadsTo_qizoAdler _ _ _ blob adlerBack ?_ ?_ ?_).mono ?_
  · rw [hecx, toNat_ofNat_of_lt (by omega)]
  · intro i b hb
    have hi := (List.getElem?_eq_some_iff.mp hb).1
    rw [hesi, ofNat_add_ofNat, toNat_ofNat_of_lt (by rw [blobPhys]; omega)]
    exact hboot.holds i b hb
  · rw [hcall.called.esp, ld32_ofNat hcall.called.sp_le, hcall.called.ret, ← eq_ofNat_toNat]
  · rintro ⟨_, s₂⟩ ⟨rfl, hmem₂, -, -, hesp₂, heax₂⟩
    dsimp only at hmem₂ hesp₂ heax₂ ⊢
    rw [hmem₂]
    refine ⟨rfl, hboot, hcall.frame, ?_, heax₂⟩
    rw [hesp₂, hcall.called.esp, ofNat_add_ofNat]
    rfl

/-! ### The decoder -/

/-- What is in memory when a decoder is called on the blob. -/
theorem leadsTo_qizoDecompress_call (h : BootMem blob crc s.mem) (hesp : s.esp = .ofNat 32 pmStack)
    (heax : s.eax = .ofNat 32 crc) {Q : Label × Cpu → Prop}
    (hQ : ∀ s' : Cpu, Called k decompBack (pmStack - 4) s' → BootMem blob crc s'.mem →
      EqOutside s.mem s'.mem [(pmStack - 4, 4)] → s'.esi = .ofNat 32 blobPhys →
      s'.ecx = .ofNat 32 blob.length → s'.edi = .ofNat 32 scratch →
      LeadsTo (step fst k) (qizoDecompress, s') Q) :
    LeadsTo (step fst k) (adlerBack, s) Q := by
  refine leadsTo_block rfl ?_
  simp only [runBlock, movl, cmpl, jne, Cpu.read, Cpu.write, Cpu.get, Cpu.set, hesp, heax]
  rw [ld32_ofNat (by decide), ld32_ofNat (by decide), ld32_ofNat (by decide),
    ld32_ofNat (by decide), h.blobPhys_eq, h.blobSize_eq, h.blobCrc_eq, h.scratch_eq]
  rw [if_neg (by simp), ofNat_sub_ofNat (by decide), st32_ofNat (by decide)]
  refine hQ _ (called_push (by decide) (by decide) rfl rfl) ?_ ?_ rfl rfl rfl
  · exact h.store fun x hx => fixed_stack (n := 4) hx (by decide)
  · exact eqOutside_store _ _ _ _

/-- What the decoder has written when the header is checked. -/
def decodeWrites (n : ℕ) : List (ℕ × ℕ) := [(scratch, n), (pmStack - 32, 32)]

/-- **A container that decodes.** -/
theorem leadsTo_decompBack {payload : List UInt8} (h : BootMem blob crc s.mem)
    (hesp : s.esp = .ofNat 32 pmStack) (heax : s.eax = .ofNat 32 crc)
    (hdec : Lzss.decompress blob = .ok payload) (hr : Lzss.BackRefsInRange blob)
    (hlen : payload.length < 2 ^ 31) :
    LeadsTo (step fst k) (adlerBack, s) fun x => x.1 = decompBack ∧ x.2.eax = 1#32 ∧
      x.2.esp = .ofNat 32 pmStack ∧ x.2.mem.Holds scratch payload ∧
      EqOutside s.mem x.2.mem (decodeWrites payload.length) := by
  refine leadsTo_qizoDecompress_call h hesp heax fun s₁ hcall hboot hframe hesi hecx hedi => ?_
  have hle : blob.length ≤ 248 * 512 := h.length_le
  have hsrc : s₁.esi.toNat = 0x21000 := by rw [hesi]; rfl
  have hdst : s₁.edi.toNat = 0x180000 := by rw [hedi]; rfl
  have hsp : s₁.esp.toNat = 0x43FFC := by rw [hcall.esp]; rfl
  have hlayout : DecompLayout s₁ blob.length payload.length := by
    constructor <;> omega
  have hret : ld32 s₁.mem s₁.esp = k.addr decompBack := by
    rw [hcall.esp, ld32_ofNat hcall.sp_le, hcall.ret, ← eq_ofNat_toNat]
  have hholds : s₁.mem.Holds s₁.esi.toNat blob := by
    rw [hsrc]
    exact hboot.holds
  refine (leadsTo_qizoDecompress hlayout hholds hret hdec hr).mono ?_
  rintro ⟨_, s₂⟩ ⟨rfl, heax₂, hout, hframe₂, -, -, -, -, hesp₂⟩
  dsimp only at heax₂ hout hframe₂ hesp₂ ⊢
  rw [hdst] at hout
  rw [hdst, hsp] at hframe₂
  refine ⟨rfl, heax₂, ?_, hout, ?_⟩
  · rw [hesp₂, hcall.esp, ofNat_add_ofNat]
    rfl
  · refine (hframe.mono fun x hx => ?_).trans (hframe₂.mono fun x hx => ?_)
    · simp only [decodeWrites, outside_cons, outside_nil, and_true, pmStack] at hx ⊢
      omega
    · simp only [decodeWrites, outside_cons, outside_nil, and_true, pmStack, scratch] at hx ⊢
      omega

/-! ### The module header -/

/-- The words of the header stage2 looks at. -/
structure HeaderWords (m : Memory) (klen entry total base : ℕ) : Prop where
  magic : m.load 4 scratch = qizokMagic
  klen_eq : m.load 4 (scratch + 4) = klen
  entry_eq : m.load 4 (scratch + 8) = entry
  total_eq : m.load 4 (scratch + 12) = total
  base_eq : m.load 4 (scratch + 16) = base

/-- The bounds it checks. -/
structure HeaderBounds (klen entry total : ℕ) : Prop where
  klen_le : klen ≤ kernelMax
  total_le : total ≤ kernelMax
  klen_le_total : klen ≤ total
  entry_lt : entry < klen

variable {klen entry total : ℕ}

/-- The sizes bootinfo has for the kernel. -/
structure SizesMem (klen entry total : ℕ) (m : Memory) : Prop where
  ktext_eq : m.load 4 (bootinfo + biKtext) = ktext
  size_eq : m.load 4 (bootinfo + biKernelSize) = klen
  entry_eq : m.load 4 (bootinfo + biKernelEntry) = entry
  total_eq : m.load 4 (bootinfo + biKernelTotal) = total
  bss_eq : m.load 4 (bootinfo + biKernelBss) = total - klen

theorem SizesMem.of_eqOutside {R : List (ℕ × ℕ)} {m m' : Memory} (h : SizesMem klen entry total m)
    (hframe : EqOutside m m' R)
    (hR : ∀ x, bootinfo + biKtext ≤ x → x < bootinfo + biFlags → Outside R x) :
    SizesMem klen entry total m' := by
  have hfield {off : ℕ} (hge : biKtext ≤ off) (hle : off + 4 ≤ biFlags) :
      m'.load 4 (bootinfo + off) = m.load 4 (bootinfo + off) :=
    hframe.load_eq fun x hx hx' => hR x (by omega) (by omega)
  refine ⟨?_, ?_, ?_, ?_, ?_⟩
  · rw [hfield (by decide) (by decide), h.ktext_eq]
  · rw [hfield (by decide) (by decide), h.size_eq]
  · rw [hfield (by decide) (by decide), h.entry_eq]
  · rw [hfield (by decide) (by decide), h.total_eq]
  · rw [hfield (by decide) (by decide), h.bss_eq]

/-- Bootinfo after the four stores. -/
def sizesStored (klen entry total : ℕ) (m : Memory) : Memory :=
  (((m.store 4 (bootinfo + biKernelSize) klen).store 4 (bootinfo + biKernelEntry) entry).store 4
    (bootinfo + biKernelTotal) total).store 4 (bootinfo + biKernelBss) (total - klen)

theorem eqOutside_sizesStored (m : Memory) :
    EqOutside m (sizesStored klen entry total m) [(bootinfo + biKernelSize, 16)] := by
  refine ((((EqOutside.refl m _).store fun x hx => ?_).store fun x hx => ?_).store
    fun x hx => ?_).store fun x hx => ?_
  all_goals
    simp only [outside_cons, outside_nil, and_true, biKernelSize, biKernelEntry, biKernelTotal,
      biKernelBss] at hx ⊢
    omega

theorem sizesMem_sizesStored {m : Memory} (hb : HeaderBounds klen entry total)
    (hktext : m.load 4 (bootinfo + biKtext) = ktext) :
    SizesMem klen entry total (sizesStored klen entry total m) := by
  have h1 : klen ≤ 0x80000 := hb.klen_le
  have h2 : total ≤ 0x80000 := hb.total_le
  have h3 := hb.entry_lt
  refine ⟨?_, ?_, ?_, ?_, ?_⟩
  · rw [(eqOutside_sizesStored m).load_eq, hktext]
    intro x hx hx'
    simp only [outside_cons, outside_nil, and_true, biKernelSize, biKtext] at hx hx' ⊢
    omega
  · rw [sizesStored, load_store_of_disjoint (.inl (by decide)),
      load_store_of_disjoint (.inl (by decide)), load_store_of_disjoint (.inl (by decide)),
      load_store_self (by omega)]
  · rw [sizesStored, load_store_of_disjoint (.inl (by decide)),
      load_store_of_disjoint (.inl (by decide)), load_store_self (by omega)]
  · rw [sizesStored, load_store_of_disjoint (.inl (by decide)), load_store_self (by omega)]
  · rw [sizesStored, load_store_self (by omega)]

/-- `ja` on numbers. -/
theorem not_above {a b : ℕ} (h : a ≤ b) (hb : b < 2 ^ 32) :
    ¬(!(decide (a < (BitVec.ofNat 32 b).toNat) ||
      BitVec.ofNat 32 a == BitVec.ofNat 32 b)) = true := by
  rw [toNat_ofNat_of_lt hb]
  rcases Nat.lt_or_eq_of_le h with hlt | rfl
  · simp [hlt]
  · simp

/-- **The checks on the header**, passed: in one step to the call of `qizo_copy`. -/
theorem step_decompBack (hscratch : s.mem.load 4 (bootinfo + biScratch) = scratch)
    (hktext : s.mem.load 4 (bootinfo + biKtext) = ktext)
    (hw : HeaderWords s.mem klen entry total ktext) (hb : HeaderBounds klen entry total)
    (heax : s.eax ≠ 0#32) (hesp : s.esp = .ofNat 32 pmStack) :
    ∃ c, step fst k (decompBack, s) = some (qizoCopy, c) ∧ Called k copyBack (pmStack - 4) c ∧
      SizesMem klen entry total c.mem ∧
      EqOutside s.mem c.mem [(bootinfo + biKernelSize, 16), (pmStack - 4, 4)] ∧
      c.esi = .ofNat 32 (scratch + qizokHdr) ∧ c.edi = .ofNat 32 ktext ∧
      c.ecx = .ofNat 32 klen := by
  have hklen : klen ≤ 0x80000 := hb.klen_le
  have htotal : total ≤ 0x80000 := hb.total_le
  have hle := hb.klen_le_total
  have hentry := hb.entry_lt
  have hword {m : Memory} {a v : ℕ} (ha : a + 4 ≤ 2 ^ 32) (hv : m.load 4 a = v) :
      ld32 m (.ofNat 32 a) = .ofNat 32 v := by rw [ld32_ofNat ha, hv]
  have hsizes := sizesMem_sizesStored hb hktext
  have hframe := @eqOutside_sizesStored klen entry total s.mem
  have hscratch' :
      (sizesStored klen entry total s.mem).load 4 (bootinfo + biScratch) = scratch := by
    rw [hframe.load_eq, hscratch]
    intro x hx hx'
    simp only [outside_cons, outside_nil, and_true, biKernelSize, biScratch] at hx hx' ⊢
    omega
  have htotal' : ((s.mem.store 4 (bootinfo + biKernelSize) klen).store 4 (bootinfo + biKernelEntry)
      entry).load 4 (scratch + 12) = total := by
    rw [load_store_of_disjoint (.inr (by decide)), load_store_of_disjoint (.inr (by decide)),
      hw.total_eq]
  simp only [sizesStored] at hsizes hframe hscratch'
  have hlt : klen < 2 ^ 32 ∧ entry < 2 ^ 32 ∧ total < 2 ^ 32 ∧ total - klen < 2 ^ 32 := by omega
  simp only [step, X86.step, code, Option.map_some, Option.some.injEq, runBlock, movl, cmpl, testl,
    subl, addl, je, jne, ja, jb, jae, Cpu.read, Cpu.write, Cpu.get, Cpu.set, BitVec.and_self, hesp,
    hword (by decide) hscratch, ofNat_add_ofNat, Nat.add_zero, hword (by decide) hw.magic,
    hword (by decide) hw.klen_eq, hword (by decide) hw.total_eq,
    hword (by decide) hw.entry_eq, hword (by decide) hw.base_eq,
    st32_ofNat (i := bootinfo + biKernelSize) (by decide),
    st32_ofNat (i := bootinfo + biKernelEntry) (by decide),
    st32_ofNat (i := bootinfo + biKernelTotal) (by decide),
    st32_ofNat (i := bootinfo + biKernelBss) (by decide), toNat_ofNat_of_lt hlt.1,
    toNat_ofNat_of_lt hlt.2.1, toNat_ofNat_of_lt hlt.2.2.1, hword (by decide) htotal',
    ofNat_sub_ofNat hle, toNat_ofNat_of_lt hlt.2.2.2, hword (by decide) hscratch',
    hword (by decide) hsizes.ktext_eq, hword (by decide) hsizes.size_eq]
  rw [if_neg (by simpa using heax), if_neg (by simp), if_neg (not_above hb.klen_le (by decide)),
    if_neg (not_above hb.total_le (by decide)), if_neg (by simpa using hle), if_neg (by simp),
    if_neg (by simpa using hentry), ofNat_sub_ofNat (by decide), st32_ofNat (by decide)]
  refine ⟨_, rfl, called_push (by decide) (by decide) rfl rfl, ?_, ?_, rfl, rfl, rfl⟩
  · refine hsizes.of_eqOutside (eqOutside_store _ _ _ _) fun x hx hx' => ?_
    simp only [outside_cons, outside_nil, and_true, bootinfo, biFlags, pmStack] at hx' ⊢
    omega
  · refine (hframe.mono fun x hx => ?_).store fun x hx => ?_
    · simp only [outside_cons, outside_nil, and_true] at hx ⊢
      exact hx.1
    · simp only [outside_cons, outside_nil, and_true] at hx
      exact hx.2

/-! ### The jump -/

variable {kernel : List UInt8}

/-- The kernel and its bss, as they lie in memory. -/
structure Placed (kernel : List UInt8) (total : ℕ) (m : Memory) : Prop where
  kernel_at : m.Holds ktext kernel
  bss_at : m.Holds (ktext + kernel.length) (List.replicate (total - kernel.length) 0)

theorem Placed.of_eqOutside {R : List (ℕ × ℕ)} {m m' : Memory} (h : Placed kernel total m)
    (hle : kernel.length ≤ total) (hframe : EqOutside m m' R)
    (hR : ∀ x, ktext ≤ x → x < ktext + total → Outside R x) : Placed kernel total m' := by
  refine ⟨h.kernel_at.of_eqOutside hframe fun x hx hx' => hR x hx (by omega),
    h.bss_at.of_eqOutside hframe fun x hx hx' => ?_⟩
  rw [List.length_replicate] at hx'
  exact hR x (by omega) (by omega)

/-- **Delivered**: the state in which the kernel is jumped to. -/
structure Delivered (kernel : List UInt8) (entry total : ℕ) (x : Label × Cpu) : Prop where
  label : x.1 = entered
  placed : Placed kernel total x.2.mem
  sizes : SizesMem kernel.length entry total x.2.mem
  target : x.2.eax = .ofNat 32 (ktext + entry)

/-- From the page tables to the jump: memory stays. -/
theorem leadsTo_entered_of_pagesBack (h : SizesMem klen entry total s.mem) :
    LeadsTo (step fst k) (pagesBack, s) fun x => x.1 = entered ∧ x.2.mem = s.mem ∧
      x.2.eax = .ofNat 32 (ktext + entry) ∧ x.2.idtr = s.idtr := by
  refine leadsTo_block rfl ?_
  simp only [startMark, List.cons_append, List.nil_append, runBlock, movb, movl, orl, rdmsr, wrmsr,
    Cpu.read, Cpu.write, Cpu.read8, Cpu.write8, Cpu.get, Cpu.set]
  refine LeadsTo.trans (leadsTo_poll (n := 3999) rfl (by decide) rfl) ?_
  rintro ⟨_, s₁⟩ ⟨rfl, hmem₁, -, hidtr₁⟩
  dsimp only at hmem₁ hidtr₁
  refine leadsTo_block rfl ?_
  simp only [emitMark, List.cons_append, List.nil_append, runBlock, movb, movl, outb, Cpu.read,
    Cpu.write, Cpu.read8, Cpu.write8, Cpu.get, Cpu.set]
  refine leadsTo_block rfl ?_
  simp only [startMark, List.cons_append, List.nil_append, runBlock, movb, movl, movw, movsr,
    Cpu.read, Cpu.write, Cpu.read8, Cpu.write8, Cpu.get, Cpu.set]
  refine LeadsTo.trans (leadsTo_poll (n := 3999) rfl (by decide) rfl) ?_
  rintro ⟨_, s₂⟩ ⟨rfl, hmem₂, -, hidtr₂⟩
  dsimp only at hmem₂ hidtr₂
  refine leadsTo_block rfl ?_
  simp only [emitMark, List.cons_append, List.nil_append, runBlock, movb, movl, addl, outb,
    Cpu.read, Cpu.write, Cpu.read8, Cpu.write8, Cpu.get, Cpu.set]
  refine .now ⟨rfl, hmem₂.trans hmem₁, ?_, hidtr₂.trans hidtr₁⟩
  dsimp only
  rw [hmem₂, hmem₁, ld32_ofNat (by decide), ld32_ofNat (by decide), h.ktext_eq, h.entry_eq,
    ofNat_add_ofNat]

/-- What the code writes behind the checks, apart from the kernel itself. -/
def handoffWrites : List (ℕ × ℕ) :=
  [(idtBoot, 512), (pagePml4, 0x6000), (pmStack - 8, 8)]

/-- Neither the kernel nor its sizes are in the way of these writes. -/
theorem outside_handoffWrites {x : ℕ}
    (h : ktext ≤ x ∧ x < ktext + kernelMax ∨ bootinfo + biKtext ≤ x ∧ x < bootinfo + biFlags) :
    Outside handoffWrites x := by
  simp only [handoffWrites, outside_cons, outside_nil, and_true, ktext, kernelMax, bootinfo,
    biKtext, biFlags, idtBoot, pagePml4, pmStack] at h ⊢
  omega

/-- Clearing the bss. -/
theorem leadsTo_zeroBack (hsizes : SizesMem kernel.length entry total s.mem)
    (hkernel : s.mem.Holds ktext kernel) (hb : HeaderBounds kernel.length entry total)
    (hesp : s.esp = .ofNat 32 pmStack) :
    LeadsTo (step fst k) (copyBack, s) fun x => x.1 = zeroBack ∧ x.2.esp = .ofNat 32 pmStack ∧
      SizesMem kernel.length entry total x.2.mem ∧ Placed kernel total x.2.mem := by
  have htotal : total ≤ 0x80000 := hb.total_le
  have hle := hb.klen_le_total
  have hbss : total - kernel.length < 2 ^ 32 := by omega
  refine leadsTo_block rfl ?_
  simp only [runBlock, movl, addl, Cpu.read, Cpu.write, Cpu.get, Cpu.set, hesp]
  rw [ld32_ofNat (by decide), ld32_ofNat (by decide), ld32_ofNat (by decide), hsizes.ktext_eq,
    hsizes.size_eq, hsizes.bss_eq, ofNat_add_ofNat, ofNat_sub_ofNat (by decide),
    st32_ofNat (by decide)]
  have hpush := eqOutside_store s.mem 4 (pmStack - 4) (k.addr zeroBack).toNat
  refine (leadsTo_qizoZero (n := total - kernel.length)
    (called_push (by decide) (by decide) rfl rfl) rfl rfl hbss ?_ ?_).mono ?_
  · rw [ktext]
    omega
  · rw [ktext, pmStack]
    omega
  · rintro ⟨_, s₁⟩ ⟨rfl, hesp₁, hzero, hframe, -⟩
    dsimp only at hesp₁ hzero hframe ⊢
    refine ⟨rfl, hesp₁, ?_, ?_, hzero⟩
    · refine (hsizes.of_eqOutside hpush fun x hx hx' => ?_).of_eqOutside hframe fun x hx hx' => ?_
      all_goals
        simp only [outside_cons, outside_nil, and_true, bootinfo, biFlags, pmStack, ktext] at hx' ⊢
        omega
    · refine (hkernel.of_eqOutside hpush fun x hx hx' => ?_).of_eqOutside hframe fun x hx hx' => ?_
      · simp only [outside_cons, outside_nil, and_true, ktext, pmStack] at hx ⊢
        omega
      · simp only [outside_cons, outside_nil, and_true] at hx' ⊢
        exact .inl hx'

/-- The fault table and the page tables: neither touches the kernel. -/
theorem leadsTo_pagesBack (hsizes : SizesMem klen entry total s.mem)
    (hplaced : Placed kernel total s.mem) (hle : kernel.length ≤ total) (htotal : total ≤ kernelMax)
    (hesp : s.esp = .ofNat 32 pmStack) :
    LeadsTo (step fst k) (zeroBack, s) fun x => x.1 = pagesBack ∧
      SizesMem klen entry total x.2.mem ∧ Placed kernel total x.2.mem := by
  refine leadsTo_block rfl ?_
  simp only [runBlock, movl, Cpu.read, Cpu.write, Cpu.set]
  refine LeadsTo.trans (leadsTo_fidtFill (n := 31) rfl rfl hesp
    (by decide) (by decide) (by decide)) ?_
  rintro ⟨_, s₁⟩ ⟨rfl, hcall, hframe₁⟩
  refine (leadsTo_qizoBuildPages hcall (by decide) (.inl (by decide))).mono ?_
  rintro ⟨_, s₂⟩ ⟨rfl, -, -, hframe₂, -⟩
  dsimp only at hframe₁ hframe₂ ⊢
  have hframe : EqOutside s.mem s₂.mem handoffWrites := by
    refine (hframe₁.mono fun x hx => ?_).trans (hframe₂.mono fun x hx => ?_)
    all_goals
      simp only [handoffWrites, outside_cons, outside_nil, and_true, pmStack] at hx ⊢
      omega
  refine ⟨rfl, hsizes.of_eqOutside hframe fun x hx hx' => outside_handoffWrites (.inr ⟨hx, hx'⟩),
    hplaced.of_eqOutside hle hframe fun x hx hx' => outside_handoffWrites (.inl ⟨hx, ?_⟩)⟩
  omega

/-- **From the checks on the header to the jump.** A decoded module whose header passes is
delivered. -/
theorem leadsTo_entered (hscratch : s.mem.load 4 (bootinfo + biScratch) = scratch)
    (hktext : s.mem.load 4 (bootinfo + biKtext) = ktext)
    (hw : HeaderWords s.mem kernel.length entry total ktext)
    (hb : HeaderBounds kernel.length entry total)
    (hkernel : s.mem.Holds (scratch + qizokHdr) kernel)
    (heax : s.eax = 1#32) (hesp : s.esp = .ofNat 32 pmStack) :
    LeadsTo (step fst k) (decompBack, s) (Delivered kernel entry total) := by
  have hklen : kernel.length ≤ 0x80000 := hb.klen_le
  obtain ⟨s₁, hstep, hcall, hsizes₁, hframe₁, hesi, hedi, hecx⟩ :=
    step_decompBack (k := k) hscratch hktext hw hb (by rw [heax]; decide)
      hesp
  refine .head hstep ?_
  have hkernel₁ : s₁.mem.Holds (scratch + qizokHdr) kernel := by
    refine hkernel.of_eqOutside hframe₁ fun x hx _ => ?_
    simp only [outside_cons, outside_nil, and_true, scratch, bootinfo, biKernelSize,
      pmStack] at hx ⊢
    omega
  refine (leadsTo_qizoCopy hcall hecx hesi hedi (by omega) ?_ ?_ (.inr ?_) (.inr ?_)).trans ?_
  · rw [scratch, qizokHdr]
    omega
  · rw [ktext]
    omega
  · rw [ktext, scratch, qizokHdr]
    omega
  · decide
  rintro ⟨_, s₂⟩ ⟨rfl, hesp₂, hcopy, hframe₂⟩
  dsimp only at hesp₂ hcopy hframe₂
  rw [holds_iff_bytes_eq.mp hkernel₁] at hcopy
  have hsizes₂ := hsizes₁.of_eqOutside hframe₂ fun x hx hx' => by
    simp only [outside_cons, outside_nil, and_true, bootinfo, biFlags, ktext] at hx' ⊢
    omega
  refine (leadsTo_zeroBack hsizes₂ hcopy hb hesp₂).trans ?_
  rintro ⟨_, s₃⟩ ⟨rfl, hesp₃, hsizes₃, hplaced₃⟩
  refine (leadsTo_pagesBack hsizes₃ hplaced₃ hb.klen_le_total hb.total_le hesp₃).trans ?_
  rintro ⟨_, s₄⟩ ⟨rfl, hsizes₄, hplaced₄⟩
  refine (leadsTo_entered_of_pagesBack hsizes₄).mono ?_
  rintro ⟨_, s₅⟩ ⟨rfl, hmem₅, heax₅, -⟩
  dsimp only at hmem₅ heax₅ hsizes₄ hplaced₄
  exact ⟨rfl, hmem₅ ▸ hplaced₄, hmem₅ ▸ hsizes₄, heax₅⟩

end Stage2

end Qizo
