import Qizo.Layout
import Qizo.Lib.X86
import Qizo.Lzss

/-!
# stage2 in protected mode

The 32-bit code of `boot/stage2.S` from `qizo_pm32` to the jump into the kernel, with the
subroutines it calls, one label per label of the source and one line per instruction. Labels the
source leaves to the assembler, the return points of calls and the numbered labels of the serial
markers, have names here.

The handful of instructions after the switch to 64-bit mode use 32-bit operands and addresses
below 4 GiB, which the page tables just built map to themselves, so they run on the same machine.

## Where a run ends

`entered` is the jump to the kernel, with its target in `eax`. `qizoFailPm` is where every check
that fails arrives, with its code in bootinfo; from there the source prints the code on the serial
port and halts.
-/

namespace Qizo

namespace Stage2

open X86 Reg Operand

/-- The labels of the protected mode code. -/
inductive Label where
  | qizoPm32 | mark30 | mark31 | mark1 | mark2
  | e820Clamp | ramNext | ramSat | ramSkip | ramDone
  | adlerBack | decompBack | copyBack | zeroBack | fidtFill | pagesBack | mark3 | mark4
  | qizoLong64 | mark5 | mark6 | entered
  | fail32 | fail32R | qizoFailPm
  | qizoAdler | adlerLoop | adlerA | adlerB | adlerDone
  | qizoDecompress | decompRaw | decompTop | decompItem | decompRefill | decompMatch | decompCopy
  | decompCopyByte | decompOk | decompFail | decompRet
  | qizoCopy | qizoZero
  | qizoBuildPages | pagesZeroBack | pdptFill | pdtStart | pdtFill | pagesRet
  | failC1 | failC2 | failC3 | failC4 | failC5 | failC6 | failC7
  deriving DecidableEq, Repr

open Label

/-- The polling loop of a serial marker: wait for the transmitter to be empty, `ecx` tries. -/
def poll (again done : Label) : List (Instr Label) :=
  [.op inb, .op (andb (imm 0x20) eax), jne done, .op (decl ecx), jne again]

/-- Writing a marker byte to COM1. -/
def emitMark (ch : ℕ) : List (Instr Label) :=
  [.op (movb (imm ch) eax), .op (movl (imm 0x3F8) edx), .op outb]

/-- The set-up of a polling loop. -/
def startMark (ch : ℕ) : List (Instr Label) :=
  [.op (movb (imm ch) eax), .op (movl (imm 4000) ecx), .op (movl (imm 0x3FD) edx)]

/-- A check that fails: record the code and stop. -/
def failWith (code : ℕ) : Block Label :=
  ⟨[.op (movb (imm code) (abs (bootinfo + biErr))), .jmp fail32R], fail32R⟩

/-- The code. `fstubTable` is the address of `qizo_fstub_table` inside stage2. -/
def code (fstubTable : ℕ) : Label → Option (Block Label)
  -- section .qizo_pm32
  | qizoPm32 => some ⟨startMark 0x6D, mark30⟩
  | mark30 => some ⟨poll mark30 mark31, mark31⟩
  | mark31 => some ⟨emitMark 0x6D ++
      [.op (movw 0x10 eax), .op movsr, .op movsr, .op movsr,
       .op (movl (imm pmStack) esp)] ++ startMark 0x4D, mark1⟩
  | mark1 => some ⟨poll mark1 mark2, mark2⟩
  | mark2 => some ⟨emitMark 0x4D ++
      [.op (movl (abs (bootinfo + biE820N)) ecx),
       .op (cmpl (imm e820Max) ecx),
       jbe e820Clamp,
       .op (movl (imm e820Max) ecx)], e820Clamp⟩
  | e820Clamp => some ⟨
      [.op (movl ecx (abs (bootinfo + biE820N))),
       .op (shll 3 ecx),
       .op (leal ecx ecx 2 ecx),
       .op (movl (imm e820Buf) esi),
       .op (movl (imm (bootinfo + biE820)) edi),
       .op repMovsb,
       .op (movl (imm (bootinfo + biE820)) esi),
       .op (xorl edx edx),
       .op (movl (abs (bootinfo + biE820N)) ecx)], ramNext⟩
  | ramNext => some ⟨
      [.op (testl ecx ecx),
       je ramDone,
       .op (cmpl (imm 1) (ind 16 esi)),
       jne ramSkip,
       .op (movl (ind 8 esi) eax),
       .op (orl (ind 12 esi) eax),
       jne ramSat,
       .op (addl eax edx),
       jae ramSkip], ramSat⟩
  | ramSat => some ⟨[.op (movl (imm 0xFFFFFFFF) edx)], ramSkip⟩
  | ramSkip => some ⟨
      [.op (addl (imm e820Ent) esi),
       .op (decl ecx),
       jne ramNext], ramDone⟩
  | ramDone => some ⟨
      [.op (movl edx (abs (bootinfo + biTotalRam))),
       .op (movl (abs (bootinfo + biBlobPhys)) esi),
       .op (movl (abs (bootinfo + biBlobSize)) ecx),
       .call qizoAdler], adlerBack⟩
  | adlerBack => some ⟨
      [.op (movl (abs (bootinfo + biBlobPhys)) esi),
       .op (movl (abs (bootinfo + biBlobSize)) ecx),
       .op (cmpl (abs (bootinfo + biBlobCrc)) eax),
       jne failC1,
       .op (movl (abs (bootinfo + biBlobPhys)) esi),
       .op (movl (abs (bootinfo + biBlobSize)) ecx),
       .op (movl (abs (bootinfo + biScratch)) edi),
       .call qizoDecompress], decompBack⟩
  | decompBack => some ⟨
      [.op (testl eax eax),
       je failC2,
       .op (movl (abs (bootinfo + biScratch)) edi),
       .op (cmpl (imm qizokMagic) (ind 0 edi)),
       jne failC3,
       .op (movl (ind 4 edi) ecx),
       .op (cmpl (imm kernelMax) ecx),
       ja failC4,
       .op (movl (ind 12 edi) eax),
       .op (cmpl (imm kernelMax) eax),
       ja failC5,
       .op (cmpl ecx eax),
       jb failC6,
       .op (movl (ind 16 edi) eax),
       .op (cmpl (imm ktext) eax),
       jne failC7,
       .op (movl (ind 8 edi) edx),
       .op (cmpl ecx edx),
       jae fail32,
       .op (movl ecx (abs (bootinfo + biKernelSize))),
       .op (movl edx (abs (bootinfo + biKernelEntry))),
       .op (movl (ind 12 edi) eax),
       .op (movl eax (abs (bootinfo + biKernelTotal))),
       .op (subl ecx eax),
       .op (movl eax (abs (bootinfo + biKernelBss))),
       .op (movl (abs (bootinfo + biScratch)) esi),
       .op (addl (imm qizokHdr) esi),
       .op (movl (abs (bootinfo + biKtext)) edi),
       .op (movl (abs (bootinfo + biKernelSize)) ecx),
       .call qizoCopy], copyBack⟩
  | copyBack => some ⟨
      [.op (movl (abs (bootinfo + biKtext)) edi),
       .op (addl (abs (bootinfo + biKernelSize)) edi),
       .op (movl (abs (bootinfo + biKernelBss)) ecx),
       .call qizoZero], zeroBack⟩
  | zeroBack => some ⟨
      [.op (movl (imm fstubTable) esi),
       .op (movl (imm idtBoot) edi),
       .op (movl (imm 32) ecx)], fidtFill⟩
  | fidtFill => some ⟨
      [.op (movl (ind 0 esi) eax),
       .op (andl (imm 0xFFFF) eax),
       .op (orl (imm 0x00280000) eax),
       .op (movl eax (ind 0 edi)),
       .op (movl (ind 0 esi) eax),
       .op (andl (imm 0xFFFF0000) eax),
       .op (orl (imm 0x8E00) eax),
       .op (movl eax (ind 4 edi)),
       .op (movl (imm 0) (ind 8 edi)),
       .op (movl (imm 0) (ind 12 edi)),
       .op (addl (imm 4) esi),
       .op (addl (imm 16) edi),
       .op (decl ecx),
       jne fidtFill,
       -- `qizo_fidt_ptr` stands right behind the 32 words of `qizo_fstub_table`
       .op (lidt (abs (fstubTable + 128))),
       .call qizoBuildPages], pagesBack⟩
  | pagesBack => some ⟨
      [.op (movl (imm 0x630) eax),
       .op (fun s => { s with cr4 := s.eax }),
       .op (movl (imm pagePml4) eax),
       .op (fun s => { s with cr3 := s.eax }),
       .op (movl (imm 0xC0000080) ecx),
       .op rdmsr,
       .op (orl (imm 0x901) eax),
       .op wrmsr,
       .op (fun s => { s with eax := s.cr0 }),
       .op (orl (imm 0x80000001) eax),
       .op (fun s => { s with cr0 := s.eax })] ++ startMark 0x4C, mark3⟩
  | mark3 => some ⟨poll mark3 mark4, mark4⟩
  | mark4 => some ⟨emitMark 0x4C ++ [.jmp qizoLong64], qizoLong64⟩
  | fail32 => some ⟨[.op (movb (imm 0x16) (abs (bootinfo + biErr)))], fail32R⟩
  | fail32R => some ⟨
      [.op (fun s => { s with eax := s.cr0 }),
       .op (andl (imm 0x7FFFFFFF) eax),
       .op (fun s => { s with cr0 := s.eax }),
       .op (fun s => { s with eax := s.cr0 }),
       .op (andl (imm 0x7FFFFFFF) eax),
       .op (fun s => { s with cr0 := s.eax }),
       .jmp qizoFailPm], qizoFailPm⟩
  | qizoFailPm => none
  -- section .qizo_long64
  | qizoLong64 => some ⟨
      [.op (movw 0x10 eax), .op movsr, .op movsr, .op movsr,
       .op (movl (imm pmStack) esp)] ++ startMark 0x36, mark5⟩
  | mark5 => some ⟨poll mark5 mark6, mark6⟩
  | mark6 => some ⟨emitMark 0x36 ++
      [.op (movl (imm bootinfo) edi),
       .op (movl (abs (bootinfo + biKtext)) eax),
       .op (addl (abs (bootinfo + biKernelEntry)) eax),
       .jmp entered], entered⟩
  | entered => none
  -- section .qizo_aux
  | qizoAdler => some ⟨
      [.op (movl (imm 1) eax),
       .op (xorl edi edi),
       .op (testl ecx ecx),
       je adlerDone], adlerLoop⟩
  | adlerLoop => some ⟨
      [.op (movzbl (ind 0 esi) edx),
       .op (addl edx eax),
       .op (addl eax edi),
       .op (cmpl (imm 65521) eax),
       jb adlerA,
       .op (subl (imm 65521) eax)], adlerA⟩
  | adlerA => some ⟨
      [.op (cmpl (imm 65521) edi),
       jb adlerB,
       .op (subl (imm 65521) edi)], adlerB⟩
  | adlerB => some ⟨
      [.op (incl esi),
       .op (decl ecx),
       jne adlerLoop,
       .op (shll 16 edi),
       .op (orl edi eax)], adlerDone⟩
  | adlerDone => some ⟨[.ret], adlerDone⟩
  | qizoDecompress => some ⟨
      [.op (pushl ebx),
       .op (pushl ebp),
       .op (pushl esi),
       .op (pushl edi),
       .op (movl (ind 0 esi) eax),
       .op (movl (ind 4 esi) edx),
       .op (cmpl (imm Lzss.lzssMagic) eax),
       jne decompRaw,
       .op (addl (imm 8) esi),
       .op (addl edi edx),
       .op (movl (imm 0x80) ebx),
       .op (xorl ebp ebp),
       .op (xorl ecx ecx),
       .jmp decompTop], decompRaw⟩
  | decompRaw => some ⟨
      [.op (movl ecx edx),
       .op (addl edi edx),
       .op (xorl ebp ebp)], decompTop⟩
  | decompTop => some ⟨
      [.op (cmpl edx edi),
       jae decompOk,
       .op (testl ecx ecx),
       jne decompCopyByte,
       .op (addl ebx ebx),
       .op (cmpl (imm 0x100) ebx),
       je decompRefill], decompItem⟩
  | decompItem => some ⟨
      [.op (testl ebx ebp),
       jne decompMatch,
       .op (movb (ind 0 esi) eax),
       .op (incl esi),
       .op (movb eax (ind 0 edi)),
       .op (incl edi),
       .jmp decompTop], decompRefill⟩
  | decompRefill => some ⟨
      [.op (movl (imm 1) ebx),
       .op (movzbl (ind 0 esi) ebp),
       .op (incl esi),
       .jmp decompItem], decompMatch⟩
  | decompMatch => some ⟨
      [.op (movzwl (ind 0 esi) eax),
       .op (addl (imm 2) esi),
       .op (pushl eax),
       .op (shrl 4 eax),
       .op (incl eax),
       .op (pushl eax),
       .op (movl (ind 4 esp) eax),
       .op (andl (imm 0xF) eax),
       .op (addl (imm 3) eax),
       .op (pushl eax)], decompCopy⟩
  | decompCopy => some ⟨
      [.op (movl edi eax),
       .op (subl (ind 4 esp) eax),
       .op (movb (ind 0 eax) eax),
       .op (movb eax (ind 0 edi)),
       .op (incl edi),
       .op (decl (ind 0 esp)),
       jne decompCopy,
       .op (addl (imm 12) esp),
       .jmp decompTop], decompCopyByte⟩
  | decompCopyByte => some ⟨
      [.op (movb (ind 0 esi) eax),
       .op (incl esi),
       .op (movb eax (ind 0 edi)),
       .op (incl edi),
       .op (decl ecx),
       .jmp decompTop], decompOk⟩
  | decompOk => some ⟨[.op (movl (imm 1) eax), .jmp decompRet], decompFail⟩
  | decompFail => some ⟨
      [.op (movb (imm 0x15) (abs (bootinfo + biErr))),
       .op (xorl eax eax)], decompRet⟩
  | decompRet => some ⟨
      [.op (popl edi),
       .op (popl esi),
       .op (popl ebp),
       .op (popl ebx),
       .ret], qizoCopy⟩
  | qizoCopy => some ⟨[.op repMovsb, .ret], qizoZero⟩
  | qizoZero => some ⟨[.op (xorl eax eax), .op repStosb, .ret], qizoBuildPages⟩
  | qizoBuildPages => some ⟨
      [.op (movl (imm pagePml4) edi),
       .op (movl (imm 0x6000) ecx),
       .call qizoZero], pagesZeroBack⟩
  | pagesZeroBack => some ⟨
      [.op (movl (imm pagePdpt) eax),
       .op (orl (imm ptDir) eax),
       .op (movl (imm pagePml4) edi),
       .op (movl eax (ind 0 edi)),
       .op (movl (imm 0) (ind 4 edi)),
       .op (movl (imm pagePdt) eax),
       .op (movl (imm pagePdpt) edi),
       .op (movl (imm 4) ecx)], pdptFill⟩
  | pdptFill => some ⟨
      [.op (orl (imm ptDir) eax),
       .op (movl eax (ind 0 edi)),
       .op (movl (imm 0) (ind 4 edi)),
       .op (addl (imm 0x1000) eax),
       .op (addl (imm 8) edi),
       .op (decl ecx),
       jne pdptFill], pdtStart⟩
  | pdtStart => some ⟨
      [.op (xorl eax eax),
       .op (movl (imm pagePdt) edi),
       .op (movl (imm 2048) ecx)], pdtFill⟩
  | pdtFill => some ⟨
      [.op (movl eax edx),
       .op (orl (imm ptPage) edx),
       .op (movl edx (ind 0 edi)),
       .op (movl (imm 0) (ind 4 edi)),
       .op (addl (imm 0x200000) eax),
       .op (addl (imm 8) edi),
       .op (decl ecx),
       jne pdtFill], pagesRet⟩
  | pagesRet => some ⟨[.ret], failC1⟩
  | failC1 => some (failWith 0x17)
  | failC2 => some (failWith 0x18)
  | failC3 => some (failWith 0x19)
  | failC4 => some (failWith 0x1a)
  | failC5 => some (failWith 0x1b)
  | failC6 => some (failWith 0x1c)
  | failC7 => some (failWith 0x1d)

/-- A placement of the labels: one after the other from the start of the section. -/
def consecutiveLink : Link Label where
  addr l := .ofNat 32 (stage2 + l.ctorIdx)
  label a := Label.ofNat (a.toNat - stage2)
  label_addr l := by
    have hlt : l.ctorIdx < 64 := by cases l <;> decide
    have haddr : (BitVec.ofNat 32 (stage2 + l.ctorIdx)).toNat - stage2 = l.ctorIdx := by
      rw [BitVec.toNat_ofNat, stage2]
      omega
    rw [haddr]
    cases l <;> rfl

/-- One block of the protected mode code. -/
def step (fstubTable : ℕ) (k : Link Label) : Label × Cpu → Option (Label × Cpu) :=
  X86.step k (code fstubTable)

/-! ### A caller -/

/-- A caller's state: `data` at `0x1000`, the return address `ret` at `0x100`. -/
def callWith (data : List UInt8) (ret : BitVec 32) : Cpu where
  eax := 0
  ebx := 0
  ecx := .ofNat 32 data.length
  edx := 0
  esi := 0x1000
  edi := 0
  ebp := 0
  esp := 0x100
  zf := false
  cf := false
  cr0 := 0
  cr3 := 0
  cr4 := 0
  idtr := ⟨0, 0⟩
  msr := fun _ => 0
  ins := fun _ => 0
  outs := []
  mem := Memory.write (Memory.store (fun _ => 0) 4 0x100 ret.toNat) 0x1000 data

theorem callWith_holds (data : List UInt8) (ret : BitVec 32) :
    (callWith data ret).mem.Holds 0x1000 data := Memory.holds_write _ _ _

theorem callWith_ret (data : List UInt8) (ret : BitVec 32) :
    ld32 (callWith data ret).mem (callWith data ret).esp = ret := by
  apply BitVec.eq_of_toNat_eq
  rw [toNat_ld32 (by simp [callWith])]
  have := (Memory.eqOutside_write (Memory.store (fun _ => 0) 4 0x100 ret.toNat) 0x1000 data).load_eq
    (a := 0x100) (w := 4) (fun x _ h => by simp; omega)
  exact this.trans (Memory.load_store_self ret.isLt)

end Stage2

end Qizo
