import Qizo.Lib.LeadsTo
import Qizo.Lib.Memory

/-!
# A 32-bit x86 machine for labelled assembly

Assembly text is embedded as it is written: a program is a set of labels, each with the list of
instructions that follow it, and an instruction is a function on the machine state under its AT&T
mnemonic, source operand first. Straight-line code therefore reads line by line against the source,
and control flow is a transition function on pairs of a label and a state.

## The machine

Eight registers, the zero and carry flags, the control registers, the register of the interrupt
table, a flat memory, and the byte ports. Segments are flat, so a segment register load has
no effect on an address. Addresses wrap at `2 ^ 32`, also inside a multi-byte access. `inb` takes
its bytes from a stream fixed in advance, which a theorem quantifies over; `outb` appends to a log.

## Calls

`call` pushes the address of the label that follows it and `ret` pops an address and continues at
the label found there, so a callee that damages its caller's stack is not assumed to return. Where
labels are placed in memory is a parameter, `Link`: any placement that tells labels apart.
-/

namespace X86

open ByteString StateTransition

/-! ### State -/

/-- The general registers. -/
inductive Reg where
  | eax | ebx | ecx | edx | esi | edi | ebp | esp
  deriving DecidableEq, Repr

/-- A descriptor table register. -/
structure TableReg where
  /-- The last offset inside the table. -/
  limit : BitVec 16
  /-- The address of the table. -/
  base : BitVec 32
  deriving DecidableEq, Repr

/-- The machine state. -/
structure Cpu where
  /-- Accumulator. -/
  eax : BitVec 32
  /-- Base. -/
  ebx : BitVec 32
  /-- Counter. -/
  ecx : BitVec 32
  /-- Data. -/
  edx : BitVec 32
  /-- Source index. -/
  esi : BitVec 32
  /-- Destination index. -/
  edi : BitVec 32
  /-- Frame pointer. -/
  ebp : BitVec 32
  /-- Stack pointer. -/
  esp : BitVec 32
  /-- Zero flag. -/
  zf : Bool
  /-- Carry flag. -/
  cf : Bool
  /-- Mode control. -/
  cr0 : BitVec 32
  /-- Page table base. -/
  cr3 : BitVec 32
  /-- Extension control. -/
  cr4 : BitVec 32
  /-- The interrupt descriptor table register. -/
  idtr : TableReg
  /-- The model specific registers. -/
  msr : BitVec 32 → BitVec 64
  /-- The bytes the coming `inb` instructions read. -/
  ins : ℕ → UInt8
  /-- Port and byte of each `outb` so far. -/
  outs : List (ℕ × UInt8)
  /-- Physical memory. -/
  mem : Memory

namespace Cpu

/-- The value of a register. -/
def get (s : Cpu) : Reg → BitVec 32
  | .eax => s.eax
  | .ebx => s.ebx
  | .ecx => s.ecx
  | .edx => s.edx
  | .esi => s.esi
  | .edi => s.edi
  | .ebp => s.ebp
  | .esp => s.esp

/-- Replace the value of a register. -/
def set (s : Cpu) (r : Reg) (v : BitVec 32) : Cpu :=
  match r with
  | .eax => { s with eax := v }
  | .ebx => { s with ebx := v }
  | .ecx => { s with ecx := v }
  | .edx => { s with edx := v }
  | .esi => { s with esi := v }
  | .edi => { s with edi := v }
  | .ebp => { s with ebp := v }
  | .esp => { s with esp := v }

end Cpu

/-! ### Memory access -/

/-- The double word at an address. -/
def ld32 (m : Memory) (a : BitVec 32) : BitVec 32 :=
  .ofNat 32 (leNat [m a.toNat, m (a + 1#32).toNat, m (a + 2#32).toNat, m (a + 3#32).toNat])

/-- The word at an address. -/
def ld16 (m : Memory) (a : BitVec 32) : BitVec 16 :=
  .ofNat 16 (leNat [m a.toNat, m (a + 1#32).toNat])

/-- Store one byte. -/
def st8 (m : Memory) (a : BitVec 32) (b : UInt8) : Memory := Function.update m a.toNat b

/-- Store a double word. -/
def st32 (m : Memory) (a v : BitVec 32) : Memory :=
  st8 (st8 (st8 (st8 m a (.ofNat v.toNat)) (a + 1#32) (.ofNat (v.toNat / 256))) (a + 2#32)
    (.ofNat (v.toNat / 256 ^ 2))) (a + 3#32) (.ofNat (v.toNat / 256 ^ 3))

/-! ### Operands -/

/-- An operand: an immediate, a register, an absolute address, or a displacement from a
register. -/
inductive Operand where
  | imm (v : ℕ)
  | reg (r : Reg)
  | abs (a : ℕ)
  | ind (d : ℕ) (r : Reg)

instance : Coe Reg Operand := ⟨.reg⟩

namespace Cpu

/-- The address of a memory operand. -/
def ea (s : Cpu) : Operand → BitVec 32
  | .abs a => .ofNat 32 a
  | .ind d r => s.get r + .ofNat 32 d
  | _ => 0#32

/-- The double word an operand denotes. -/
def read (s : Cpu) : Operand → BitVec 32
  | .imm v => .ofNat 32 v
  | .reg r => s.get r
  | .abs a => ld32 s.mem (.ofNat 32 a)
  | .ind d r => ld32 s.mem (s.get r + .ofNat 32 d)

/-- Write a double word to an operand. -/
def write (s : Cpu) (o : Operand) (v : BitVec 32) : Cpu :=
  match o with
  | .imm _ => s
  | .reg r => s.set r v
  | .abs a => { s with mem := st32 s.mem (.ofNat 32 a) v }
  | .ind d r => { s with mem := st32 s.mem (s.get r + .ofNat 32 d) v }

/-- The byte an operand denotes; a register stands for its low byte. -/
def read8 (s : Cpu) : Operand → UInt8
  | .imm v => .ofNat v
  | .reg r => .ofNat (s.get r).toNat
  | .abs a => s.mem (BitVec.ofNat 32 a).toNat
  | .ind d r => s.mem (s.get r + .ofNat 32 d).toNat

/-- Replace the low byte of a double word. -/
def withLow8 (v : BitVec 32) (b : UInt8) : BitVec 32 :=
  .ofNat 32 (v.toNat / 256 * 256 + b.toNat)

/-- Write a byte to an operand; in a register only the low byte changes. -/
def write8 (s : Cpu) (o : Operand) (b : UInt8) : Cpu :=
  match o with
  | .imm _ => s
  | .reg r => s.set r (withLow8 (s.get r) b)
  | .abs a => { s with mem := st8 s.mem (.ofNat 32 a) b }
  | .ind d r => { s with mem := st8 s.mem (s.get r + .ofNat 32 d) b }

end Cpu

/-! ### Instructions

Source operand first. Flags other than zero and carry are not modelled; `incl` and `decl` leave
the carry flag alone. -/

/-- `movl src, dst`. -/
def movl (src dst : Operand) (s : Cpu) : Cpu := s.write dst (s.read src)

/-- `addl src, dst`. -/
def addl (src dst : Operand) (s : Cpu) : Cpu :=
  let v := s.read dst + s.read src
  { s.write dst v with
    zf := v == 0#32, cf := (s.read dst).uaddOverflow (s.read src) }

/-- `subl src, dst`. -/
def subl (src dst : Operand) (s : Cpu) : Cpu :=
  let v := s.read dst - s.read src
  { s.write dst v with zf := v == 0#32, cf := decide ((s.read dst).toNat < (s.read src).toNat) }

/-- `cmpl src, dst`: the flags of `dst - src`. -/
def cmpl (src dst : Operand) (s : Cpu) : Cpu :=
  { s with
    zf := s.read dst == s.read src, cf := decide ((s.read dst).toNat < (s.read src).toNat) }

/-- `testl src, dst`: the flags of the bitwise conjunction. -/
def testl (src dst : Operand) (s : Cpu) : Cpu :=
  { s with zf := s.read dst &&& s.read src == 0#32, cf := false }

/-- `andl src, dst`. -/
def andl (src dst : Operand) (s : Cpu) : Cpu :=
  let v := s.read dst &&& s.read src
  { s.write dst v with zf := v == 0#32, cf := false }

/-- `orl src, dst`. -/
def orl (src dst : Operand) (s : Cpu) : Cpu :=
  let v := s.read dst ||| s.read src
  { s.write dst v with zf := v == 0#32, cf := false }

/-- `xorl src, dst`. -/
def xorl (src dst : Operand) (s : Cpu) : Cpu :=
  let v := s.read dst ^^^ s.read src
  { s.write dst v with zf := v == 0#32, cf := false }

/-- `incl dst`. -/
def incl (dst : Operand) (s : Cpu) : Cpu :=
  let v := s.read dst + 1#32
  { s.write dst v with zf := v == 0#32 }

/-- `decl dst`. -/
def decl (dst : Operand) (s : Cpu) : Cpu :=
  let v := s.read dst - 1#32
  { s.write dst v with zf := v == 0#32 }

/-- `shll $n, dst` for `0 < n < 32`; the carry flag is the last bit shifted out. -/
def shll (n : ℕ) (dst : Operand) (s : Cpu) : Cpu :=
  let v := s.read dst <<< n
  { s.write dst v with zf := v == 0#32, cf := (s.read dst).getLsbD (32 - n) }

/-- `shrl $n, dst` for `0 < n < 32`; the carry flag is the last bit shifted out. -/
def shrl (n : ℕ) (dst : Operand) (s : Cpu) : Cpu :=
  let v := s.read dst >>> n
  { s.write dst v with zf := v == 0#32, cf := (s.read dst).getLsbD (n - 1) }

/-- `leal (base,index,scale), dst`. -/
def leal (base index : Reg) (scale : ℕ) (dst : Reg) (s : Cpu) : Cpu :=
  s.set dst (s.get base + s.get index * .ofNat 32 scale)

/-- `movzbl src, dst`. -/
def movzbl (src : Operand) (dst : Reg) (s : Cpu) : Cpu :=
  s.set dst (.ofNat 32 (s.read8 src).toNat)

/-- `movzwl d(r), dst`. -/
def movzwl (src : Operand) (dst : Reg) (s : Cpu) : Cpu :=
  s.set dst ((ld16 s.mem (s.ea src)).setWidth 32)

/-- `movb src, dst`. -/
def movb (src dst : Operand) (s : Cpu) : Cpu := s.write8 dst (s.read8 src)

/-- `andb src, dst`. -/
def andb (src dst : Operand) (s : Cpu) : Cpu :=
  let v := s.read8 dst &&& s.read8 src
  { s.write8 dst v with zf := v == 0, cf := false }

/-- `movw $v, %ax` and its like: the low half of a register. -/
def movw (v : ℕ) (dst : Reg) (s : Cpu) : Cpu :=
  s.set dst (.ofNat 32 ((s.get dst).toNat / 65536 * 65536 + v % 65536))

/-- Loading a segment register with a flat descriptor. -/
def movsr (s : Cpu) : Cpu := s

/-- `pushl src`. -/
def pushl (src : Operand) (s : Cpu) : Cpu :=
  { s with esp := s.esp - 4#32, mem := st32 s.mem (s.esp - 4#32) (s.read src) }

/-- `popl dst`. -/
def popl (dst : Reg) (s : Cpu) : Cpu :=
  { s with esp := s.esp + 4#32 }.set dst (ld32 s.mem s.esp)

/-- `rep movsb` with the direction flag clear: `n` is the count register. -/
def movsb : (n : ℕ) → (src dst : BitVec 32) → Memory → Memory
  | 0, _, _, m => m
  | n + 1, src, dst, m => movsb n (src + 1#32) (dst + 1#32) (st8 m dst (m src.toNat))

/-- `rep movsb`. -/
def repMovsb (s : Cpu) : Cpu :=
  { s with
    mem := movsb s.ecx.toNat s.esi s.edi s.mem, esi := s.esi + s.ecx, edi := s.edi + s.ecx,
    ecx := 0#32 }

/-- `rep stosb` with the direction flag clear: `n` is the count register. -/
def stosb : (n : ℕ) → (b : UInt8) → (dst : BitVec 32) → Memory → Memory
  | 0, _, _, m => m
  | n + 1, b, dst, m => stosb n b (dst + 1#32) (st8 m dst b)

/-- `rep stosb`. -/
def repStosb (s : Cpu) : Cpu :=
  { s with
    mem := stosb s.ecx.toNat (s.read8 (.reg .eax)) s.edi s.mem, edi := s.edi + s.ecx, ecx := 0#32 }

/-- `lidt src`: the limit, and behind it the address. -/
def lidt (src : Operand) (s : Cpu) : Cpu :=
  { s with idtr := ⟨ld16 s.mem (s.ea src), ld32 s.mem (s.ea src + 2#32)⟩ }

/-- `inb %dx, %al`. -/
def inb (s : Cpu) : Cpu :=
  { s with eax := Cpu.withLow8 s.eax (s.ins 0), ins := fun n => s.ins (n + 1) }

/-- `outb %al, %dx`. -/
def outb (s : Cpu) : Cpu :=
  { s with outs := s.outs ++ [(s.edx.toNat % 65536, s.read8 (.reg .eax))] }

/-- `rdmsr`. -/
def rdmsr (s : Cpu) : Cpu :=
  { s with eax := (s.msr s.ecx).setWidth 32, edx := (s.msr s.ecx >>> 32).setWidth 32 }

/-- `wrmsr`. -/
def wrmsr (s : Cpu) : Cpu :=
  { s with msr := Function.update s.msr s.ecx (s.edx ++ s.eax) }

/-! ### Programs -/

/-- An instruction in a program whose labels are `L`: a state change, a jump taken if a condition
holds, a jump, a call, or a return. -/
inductive Instr (L : Type) where
  | op (f : Cpu → Cpu)
  | jcc (c : Cpu → Bool) (l : L)
  | jmp (l : L)
  | call (l : L)
  | ret

/-- The instructions between a label and the next one, which is where control falls through to
and where a call returns. -/
structure Block (L : Type) where
  /-- The instructions. -/
  body : List (Instr L)
  /-- The label that follows. -/
  next : L

/-- Where the labels of a program are placed. A return to an address that is no label's ends
somewhere unspecified. -/
structure Link (L : Type) where
  /-- The address of a label. -/
  addr : L → BitVec 32
  /-- The label at an address. -/
  label : BitVec 32 → L
  /-- Labels are told apart by their addresses. -/
  label_addr : ∀ l, label (addr l) = l

variable {L : Type}

/-- `je`, `jz`. -/
def je (l : L) : Instr L := .jcc Cpu.zf l
/-- `jne`, `jnz`. -/
def jne (l : L) : Instr L := .jcc (fun s => !s.zf) l
/-- `jb`, `jc`. -/
def jb (l : L) : Instr L := .jcc Cpu.cf l
/-- `jae`, `jnc`. -/
def jae (l : L) : Instr L := .jcc (fun s => !s.cf) l
/-- `jbe`. -/
def jbe (l : L) : Instr L := .jcc (fun s => s.cf || s.zf) l
/-- `ja`. -/
def ja (l : L) : Instr L := .jcc (fun s => !(s.cf || s.zf)) l

/-- Run the rest of a block. -/
def runBlock (k : Link L) (next : L) : List (Instr L) → Cpu → L × Cpu
  | [], s => (next, s)
  | .op f :: is, s => runBlock k next is (f s)
  | .jcc c l :: is, s => if c s then (l, s) else runBlock k next is s
  | .jmp l :: _, s => (l, s)
  | .call l :: _, s =>
    (l, { s with esp := s.esp - 4#32, mem := st32 s.mem (s.esp - 4#32) (k.addr next) })
  | .ret :: _, s => (k.label (ld32 s.mem s.esp), { s with esp := s.esp + 4#32 })

/-- One block of a program; labels without a block end the run. -/
def step (k : Link L) (code : L → Option (Block L)) (x : L × Cpu) : Option (L × Cpu) :=
  (code x.1).map fun b => runBlock k b.next b.body x.2

/-! ### Symbolic execution

`simp` runs a block by unfolding its instructions on the operands they are given. -/

attribute [simp] Cpu.get Cpu.set Cpu.ea Cpu.read Cpu.write Cpu.read8 Cpu.write8 movl addl subl cmpl
  testl andl orl xorl incl decl shll shrl leal movzbl movzwl movb andb movw movsr pushl popl
  repMovsb repStosb lidt inb outb rdmsr wrmsr je jne jb jae jbe ja runBlock

/-- **Running one block.** The goal that remains is about the label and state at the end of the
block, which `simp` computes. -/
theorem leadsTo_block {k : Link L} {code : L → Option (Block L)} {l : L} {s : Cpu} {b : Block L}
    {Q : L × Cpu → Prop} (h : code l = some b)
    (hb : LeadsTo (step k code) (runBlock k b.next b.body s) Q) :
    LeadsTo (step k code) (l, s) Q :=
  .head (by simp [step, h]) hb

/-! ### Accesses that do not wrap -/

section Access

variable {m : Memory} {a v : BitVec 32}

theorem toNat_add_ofNat {i : ℕ} (h : a.toNat + i < 2 ^ 32) :
    (a + BitVec.ofNat 32 i).toNat = a.toNat + i := by
  rw [BitVec.toNat_add, BitVec.toNat_ofNat, Nat.add_mod_mod, Nat.mod_eq_of_lt h]

theorem toNat_sub_ofNat {i : ℕ} (h : i ≤ a.toNat) :
    (a - BitVec.ofNat 32 i).toNat = a.toNat - i := by
  have := a.isLt
  rw [BitVec.toNat_sub, BitVec.toNat_ofNat, Nat.mod_eq_of_lt (a := i) (by omega)]
  omega

theorem toNat_ld32 (h : a.toNat + 4 ≤ 2 ^ 32) : (ld32 m a).toNat = m.load 4 a.toNat := by
  have hb : leNat [m a.toNat, m (a + 1#32).toNat, m (a + 2#32).toNat, m (a + 3#32).toNat]
      = m.load 4 a.toNat := by
    rw [show (a + 1#32).toNat = a.toNat + 1 from toNat_add_ofNat (i := 1) (by omega),
      show (a + 2#32).toNat = a.toNat + 2 from toNat_add_ofNat (i := 2) (by omega),
      show (a + 3#32).toNat = a.toNat + 3 from toNat_add_ofNat (i := 3) (by omega)]
    rfl
  rw [ld32, hb, BitVec.toNat_ofNat]
  exact Nat.mod_eq_of_lt (m.load_lt 4 _)

theorem toNat_ld16 (h : a.toNat + 2 ≤ 2 ^ 32) : (ld16 m a).toNat = m.load 2 a.toNat := by
  have hb : leNat [m a.toNat, m (a + 1#32).toNat] = m.load 2 a.toNat := by
    rw [show (a + 1#32).toNat = a.toNat + 1 from toNat_add_ofNat (i := 1) (by omega)]
    rfl
  rw [ld16, hb, BitVec.toNat_ofNat]
  exact Nat.mod_eq_of_lt (m.load_lt 2 _)

theorem st8_eq_write (m : Memory) (a : BitVec 32) (b : UInt8) :
    st8 m a b = m.write a.toNat [b] := by
  funext x
  rcases Nat.lt_trichotomy x a.toNat with h | rfl | h
  · simp [st8, Memory.write, Nat.not_le.mpr h, Function.update_of_ne (Nat.ne_of_lt h)]
  · simp [st8, Memory.write]
  · rw [st8, Function.update_of_ne (Nat.ne_of_gt h), Memory.write, if_pos (Nat.le_of_lt h),
      List.getElem?_eq_none (by simp; omega)]
    rfl

theorem st32_eq_store (h : a.toNat + 4 ≤ 2 ^ 32) :
    st32 m a v = m.store 4 a.toNat v.toNat := by
  have h1 : (a + 1#32).toNat = a.toNat + 1 := toNat_add_ofNat (i := 1) (by omega)
  have h2 : (a + 2#32).toNat = a.toNat + 2 := toNat_add_ofNat (i := 2) (by omega)
  have h3 : (a + 3#32).toNat = a.toNat + 3 := toNat_add_ofNat (i := 3) (by omega)
  funext x
  simp only [st32, st8, h1, h2, h3, Memory.store, Memory.write, leBytes]
  by_cases hx : a.toNat ≤ x
  · obtain ⟨i, rfl⟩ := Nat.exists_eq_add_of_le hx
    rw [if_pos hx, Nat.add_sub_cancel_left]
    rcases i with _ | _ | _ | _ | i
    all_goals simp [Nat.div_div_eq_div_mul]
  · rw [if_neg hx]
    have : ∀ i, x ≠ a.toNat + i := fun i => by omega
    simp [this, show x ≠ a.toNat from this 0]

/-! Pointers are often known as numbers. These rules move the arithmetic of a register that holds
one into `ℕ`. -/

theorem eq_ofNat_toNat (v : BitVec 32) : v = .ofNat 32 v.toNat := by simp

theorem ofNat_sub_ofNat {i j : ℕ} (h : j ≤ i) :
    BitVec.ofNat 32 i - BitVec.ofNat 32 j = BitVec.ofNat 32 (i - j) := by
  apply BitVec.eq_of_toNat_eq
  rw [BitVec.toNat_sub, BitVec.toNat_ofNat, BitVec.toNat_ofNat, BitVec.toNat_ofNat]
  omega

theorem ofNat_add_ofNat (i j : ℕ) :
    BitVec.ofNat 32 i + BitVec.ofNat 32 j = BitVec.ofNat 32 (i + j) := (BitVec.ofNat_add i j).symm

theorem toNat_ofNat_of_lt {i : ℕ} (h : i < 2 ^ 32) : (BitVec.ofNat 32 i).toNat = i := by
  rw [BitVec.toNat_ofNat, Nat.mod_eq_of_lt h]

theorem ld32_ofNat {i : ℕ} (h : i + 4 ≤ 2 ^ 32) :
    ld32 m (.ofNat 32 i) = .ofNat 32 (m.load 4 i) := by
  apply BitVec.eq_of_toNat_eq
  rw [toNat_ld32 (by rw [toNat_ofNat_of_lt (by omega)]; exact h), toNat_ofNat_of_lt (by omega),
    toNat_ofNat_of_lt (m.load_lt 4 i)]

theorem st32_ofNat {i : ℕ} (h : i + 4 ≤ 2 ^ 32) :
    st32 m (.ofNat 32 i) v = m.store 4 i v.toNat := by
  rw [st32_eq_store (by rw [toNat_ofNat_of_lt (by omega)]; exact h), toNat_ofNat_of_lt (by omega)]

theorem st8_ofNat {i : ℕ} (h : i < 2 ^ 32) (b : UInt8) :
    st8 m (.ofNat 32 i) b = m.write i [b] := by
  rw [st8_eq_write, toNat_ofNat_of_lt h]

/-- A byte moved through the low byte of a register. -/
@[simp] theorem ofNat_toNat_withLow8 (b : UInt8) :
    UInt8.ofNat (Cpu.withLow8 v b).toNat = b := by
  have hb : b.toNat < 256 := b.toNat_lt
  apply UInt8.toNat_inj.mp
  rw [UInt8.toNat_ofNat', Cpu.withLow8, BitVec.toNat_ofNat]
  omega

end Access

/-! ### String instructions -/

section Strings

open Memory

variable {m : Memory}

/-- **`rep movsb`** between ranges that do not overlap. -/
theorem movsb_spec {n src dst : ℕ} (hsrc : src + n ≤ 2 ^ 32) (hdst : dst + n ≤ 2 ^ 32)
    (hdis : src + n ≤ dst ∨ dst + n ≤ src) :
    (movsb n (.ofNat 32 src) (.ofNat 32 dst) m).Holds dst (m.bytes src n) ∧
      EqOutside m (movsb n (.ofNat 32 src) (.ofNat 32 dst) m) [(dst, n)] := by
  induction n generalizing src dst m with
  | zero => exact ⟨holds_nil _ _, .refl _ _⟩
  | succ n ih =>
    set m₁ := m.write dst [m src]
    have hw := eqOutside_write m dst [m src]
    have hstep : movsb (n + 1) (.ofNat 32 src) (.ofNat 32 dst) m =
        movsb n (.ofNat 32 (src + 1)) (.ofNat 32 (dst + 1)) m₁ := by
      rw [movsb, st8_ofNat (by omega), toNat_ofNat_of_lt (by omega), ofNat_add_ofNat,
        ofNat_add_ofNat]
    obtain ⟨hrest, hframe⟩ := @ih m₁ (src + 1) (dst + 1) (by omega) (by omega)
      (by omega)
    have hbytes : m.bytes src (n + 1) = [m src] ++ m₁.bytes (src + 1) n := by
      rw [bytes, List.range_succ_eq_map, List.map_cons, List.map_map, Nat.add_zero]
      refine congrArg (m src :: ·) (List.map_congr_left fun i hi => ?_)
      have := List.mem_range.mp hi
      have hi' : m₁ (src + 1 + i) = m (src + 1 + i) := hw _ (by simp; omega)
      rw [hi', Function.comp_apply, Nat.succ_eq_add_one, Nat.add_right_comm, Nat.add_assoc]
    rw [hstep, hbytes]
    refine ⟨Holds.append ?_ hrest, ?_⟩
    · exact (holds_write m dst [m src]).of_eqOutside hframe fun x _ hx => by
        simp only [List.length_singleton] at hx
        simp only [outside_cons, outside_nil, and_true]
        omega
    · refine (hw.mono fun x hx => ?_).trans (hframe.mono fun x hx => ?_)
      all_goals
        simp only [outside_cons, outside_nil, and_true, List.length_singleton] at hx ⊢
        omega

/-- **`rep stosb`.** -/
theorem stosb_spec {n dst : ℕ} (b : UInt8) (hdst : dst + n ≤ 2 ^ 32) :
    (stosb n b (.ofNat 32 dst) m).Holds dst (List.replicate n b) ∧
      EqOutside m (stosb n b (.ofNat 32 dst) m) [(dst, n)] := by
  induction n generalizing dst m with
  | zero => exact ⟨holds_nil _ _, .refl _ _⟩
  | succ n ih =>
    have hw := eqOutside_write m dst [b]
    have hstep : stosb (n + 1) b (.ofNat 32 dst) m =
        stosb n b (.ofNat 32 (dst + 1)) (m.write dst [b]) := by
      rw [stosb, st8_ofNat (by omega), ofNat_add_ofNat]
    obtain ⟨hrest, hframe⟩ := @ih (m.write dst [b]) (dst + 1) (by omega)
    rw [hstep, List.replicate_succ]
    refine ⟨@Holds.append _ _ [b] _ ?_ hrest, ?_⟩
    · exact (holds_write m dst [b]).of_eqOutside hframe fun x _ hx => by
        simp only [List.length_singleton] at hx
        simp only [outside_cons, outside_nil, and_true]
        omega
    · refine (hw.mono fun x hx => ?_).trans (hframe.mono fun x hx => ?_)
      all_goals
        simp only [outside_cons, outside_nil, and_true, List.length_singleton] at hx ⊢
        omega

end Strings

end X86
