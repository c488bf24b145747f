import Qizo.Lib.LeadsTo
import Qizo.Lib.Memory

/-!
# A 64-bit x86 machine for labelled assembly

The machine of `Qizo.Lib.X86` in 64-bit mode, as far as leaf routines need it: ten registers, two
vector registers, the flags of signed and unsigned comparisons, control registers and a flat
memory. A program is a set of labels with the instructions that follow them, source operand first.
Addresses wrap at `2 ^ 64`, also inside a multi-byte access. A write to the low half of a register
clears the high half.

There are no calls: a routine is entered at a label and its run ends at a label without
instructions, which stands for the `ret`.
-/

namespace X64

open ByteString StateTransition

/-! ### State -/

/-- The general registers. -/
inductive Reg where
  | rax | rbx | rcx | rdx | rsi | rdi | r8 | r9
  deriving DecidableEq, Repr

/-- The bytes of a vector register, lowest first. -/
abbrev Vec := Fin 16 → UInt8

/-- The machine state. -/
structure Cpu where
  /-- Accumulator. -/
  rax : BitVec 64
  /-- Base. -/
  rbx : BitVec 64
  /-- Counter. -/
  rcx : BitVec 64
  /-- Data. -/
  rdx : BitVec 64
  /-- Source index. -/
  rsi : BitVec 64
  /-- Destination index. -/
  rdi : BitVec 64
  /-- Register 8. -/
  r8 : BitVec 64
  /-- Register 9. -/
  r9 : BitVec 64
  /-- Vector register 0. -/
  xmm0 : Vec
  /-- Vector register 1. -/
  xmm1 : Vec
  /-- Zero flag. -/
  zf : Bool
  /-- Carry flag. -/
  cf : Bool
  /-- Sign flag. -/
  sf : Bool
  /-- Overflow flag. -/
  of : Bool
  /-- Mode control. -/
  cr0 : BitVec 64
  /-- Page table base. -/
  cr3 : BitVec 64
  /-- Extension control. -/
  cr4 : BitVec 64
  /-- The model specific registers. -/
  msr : BitVec 32 → BitVec 64
  /-- Physical memory. -/
  mem : Memory

namespace Cpu

/-- The value of a register. -/
def get (s : Cpu) : Reg → BitVec 64
  | .rax => s.rax
  | .rbx => s.rbx
  | .rcx => s.rcx
  | .rdx => s.rdx
  | .rsi => s.rsi
  | .rdi => s.rdi
  | .r8 => s.r8
  | .r9 => s.r9

/-- Replace the value of a register. -/
def set (s : Cpu) (r : Reg) (v : BitVec 64) : Cpu :=
  match r with
  | .rax => { s with rax := v }
  | .rbx => { s with rbx := v }
  | .rcx => { s with rcx := v }
  | .rdx => { s with rdx := v }
  | .rsi => { s with rsi := v }
  | .rdi => { s with rdi := v }
  | .r8 => { s with r8 := v }
  | .r9 => { s with r9 := v }

end Cpu

/-! ### Memory access -/

/-- Store bytes from an address on. -/
def stBytes : (bs : List UInt8) → (a : BitVec 64) → Memory → Memory
  | [], _, m => m
  | b :: bs, a, m => stBytes bs (a + 1#64) (Function.update m a.toNat b)

/-- The byte at a displacement from an address. -/
def ldByte (m : Memory) (a : BitVec 64) (i : ℕ) : UInt8 := m (a + BitVec.ofNat 64 i).toNat

/-- The quad word at an address. -/
def ld64 (m : Memory) (a : BitVec 64) : BitVec 64 :=
  .ofNat 64 (leNat ((List.range 8).map (ldByte m a)))

/-- Store a quad word. -/
def st64 (m : Memory) (a v : BitVec 64) : Memory := stBytes (leBytes 8 v.toNat) a m

/-- The vector at an address. -/
def ld128 (m : Memory) (a : BitVec 64) : Vec := fun i => ldByte m a i

/-- Store a vector. -/
def st128 (m : Memory) (a : BitVec 64) (v : Vec) : Memory := stBytes (List.ofFn v) a m

/-! ### Operands -/

/-- An operand: an immediate, a register, or a place in memory, given by a displacement from a
register and possibly a scaled index. -/
inductive Operand where
  | imm (v : BitVec 64)
  | reg (r : Reg)
  | ind (d : BitVec 64) (r : Reg)
  | sib (d : BitVec 64) (base index : Reg) (scale : BitVec 64)

instance : Coe Reg Operand := ⟨.reg⟩

namespace Cpu

/-- The address of a memory operand. -/
def ea (s : Cpu) : Operand → BitVec 64
  | .ind d r => s.get r + d
  | .sib d base index scale => s.get base + s.get index * scale + d
  | _ => 0#64

/-- The quad word an operand denotes. -/
def read (s : Cpu) (o : Operand) : BitVec 64 :=
  match o with
  | .imm v => v
  | .reg r => s.get r
  | o => ld64 s.mem (s.ea o)

/-- Write a quad word to an operand. -/
def write (s : Cpu) (o : Operand) (v : BitVec 64) : Cpu :=
  match o with
  | .imm _ => s
  | .reg r => s.set r v
  | o => { s with mem := st64 s.mem (s.ea o) v }

end Cpu

/-! ### Instructions -/

/-- `movq src, dst`. -/
def movq (src dst : Operand) (s : Cpu) : Cpu := s.write dst (s.read src)

/-- The flags of a logical operation with result `v`. -/
def logicFlags (v : BitVec 64) (s : Cpu) : Cpu :=
  { s with zf := v == 0#64, cf := false, sf := v.msb, of := false }

/-- The flags of `a - b`. -/
def cmpFlags (a b : BitVec 64) (s : Cpu) : Cpu :=
  { s with
    zf := a == b, cf := decide (a.toNat < b.toNat), sf := (a - b).msb, of := a.ssubOverflow b }

/-- `addq src, dst`. -/
def addq (src dst : Operand) (s : Cpu) : Cpu :=
  let a := s.read dst
  let b := s.read src
  { s.write dst (a + b) with
    zf := a + b == 0#64, cf := a.uaddOverflow b, sf := (a + b).msb, of := a.saddOverflow b }

/-- `subq src, dst`. -/
def subq (src dst : Operand) (s : Cpu) : Cpu :=
  cmpFlags (s.read dst) (s.read src) (s.write dst (s.read dst - s.read src))

/-- `cmpq src, dst`: the flags of `dst - src`. -/
def cmpq (src dst : Operand) (s : Cpu) : Cpu := cmpFlags (s.read dst) (s.read src) s

/-- `andq src, dst`. -/
def andq (src dst : Operand) (s : Cpu) : Cpu :=
  logicFlags (s.read dst &&& s.read src) (s.write dst (s.read dst &&& s.read src))

/-- `orq src, dst`. -/
def orq (src dst : Operand) (s : Cpu) : Cpu :=
  logicFlags (s.read dst ||| s.read src) (s.write dst (s.read dst ||| s.read src))

/-- `incq dst`, which leaves the carry flag alone. -/
def incq (dst : Operand) (s : Cpu) : Cpu :=
  let a := s.read dst
  { s.write dst (a + 1#64) with
    zf := a + 1#64 == 0#64, sf := (a + 1#64).msb, of := a.saddOverflow 1#64 }

/-- `decq dst`, which leaves the carry flag alone. -/
def decq (dst : Operand) (s : Cpu) : Cpu :=
  let a := s.read dst
  { s.write dst (a - 1#64) with
    zf := a == 1#64, sf := (a - 1#64).msb, of := a.ssubOverflow 1#64 }

/-- `leaq d(base), dst`. -/
def leaq (src : Operand) (dst : Reg) (s : Cpu) : Cpu := s.set dst (s.ea src)

/-- `shlq $n, dst`; the flags are not modelled. -/
def shlq (n : ℕ) (dst : Operand) (s : Cpu) : Cpu := s.write dst (s.read dst <<< n)

/-- `shrq $n, dst`; the flags are not modelled. -/
def shrq (n : ℕ) (dst : Operand) (s : Cpu) : Cpu := s.write dst (s.read dst >>> n)

/-- `movl src, dst`. -/
def movl (src : Operand) (dst : Reg) (s : Cpu) : Cpu :=
  s.set dst (((s.read src).setWidth 32).setWidth 64)

/-- `xorl r, r`: the register becomes zero. -/
def clear (dst : Reg) (s : Cpu) : Cpu := logicFlags 0#64 (s.set dst 0#64)

/-- `andl $v, dst`. -/
def andl (v : BitVec 32) (dst : Reg) (s : Cpu) : Cpu :=
  let w := ((s.get dst).setWidth 32 &&& v).setWidth 64
  { s.set dst w with zf := w == 0#64, cf := false, sf := w.getLsbD 31, of := false }

/-- `orl $v, dst`. -/
def orl (v : BitVec 32) (dst : Reg) (s : Cpu) : Cpu :=
  let w := ((s.get dst).setWidth 32 ||| v).setWidth 64
  { s.set dst w with zf := w == 0#64, cf := false, sf := w.getLsbD 31, of := false }

/-- `movzbl (r), dst`. -/
def movzbl (src : Operand) (dst : Reg) (s : Cpu) : Cpu :=
  s.set dst (.ofNat 64 (s.mem (s.ea src).toNat).toNat)

/-- `movb r, (dst)`: the low byte of a register goes to memory. -/
def movb (src : Reg) (dst : Operand) (s : Cpu) : Cpu :=
  { s with mem := Function.update s.mem (s.ea dst).toNat (.ofNat (s.get src).toNat) }

/-! ### Vectors -/

/-- `movd %eax, %xmm0`. -/
def movd (src : Reg) (s : Cpu) : Cpu :=
  { s with xmm0 := fun i => if i.val < 4 then .ofNat ((s.get src).toNat / 256 ^ i.val) else 0 }

/-- `punpcklbw %xmm0, %xmm0`: the low bytes, each twice. -/
def punpcklbw (s : Cpu) : Cpu := { s with xmm0 := fun i => s.xmm0 ⟨i / 2, by omega⟩ }

/-- `punpcklwd %xmm0, %xmm0`: the low words, each twice. -/
def punpcklwd (s : Cpu) : Cpu :=
  { s with xmm0 := fun i => s.xmm0 ⟨i / 4 * 2 + i % 2, by omega⟩ }

/-- `pshufd $0, %xmm0, %xmm0`: the low double word four times. -/
def pshufd0 (s : Cpu) : Cpu := { s with xmm0 := fun i => s.xmm0 ⟨i % 4, by omega⟩ }

/-- `movdqu src, %xmm0`. -/
def load0 (src : Operand) (s : Cpu) : Cpu := { s with xmm0 := ld128 s.mem (s.ea src) }

/-- `movdqu src, %xmm1`. -/
def load1 (src : Operand) (s : Cpu) : Cpu := { s with xmm1 := ld128 s.mem (s.ea src) }

/-- `movdqu %xmm0, dst`. -/
def store0 (dst : Operand) (s : Cpu) : Cpu := { s with mem := st128 s.mem (s.ea dst) s.xmm0 }

/-- `movdqu %xmm1, dst`. -/
def store1 (dst : Operand) (s : Cpu) : Cpu := { s with mem := st128 s.mem (s.ea dst) s.xmm1 }

/-! ### Strings and system registers -/

/-- `rep stosb` with the direction flag clear. -/
def repStosb (s : Cpu) : Cpu :=
  { s with
    mem := stBytes (List.replicate s.rcx.toNat (.ofNat s.rax.toNat)) s.rdi s.mem
    rdi := s.rdi + s.rcx
    rcx := 0#64 }

/-- `movq r, %cr3`. -/
def movCr3 (src : Reg) (s : Cpu) : Cpu := { s with cr3 := s.get src }

/-- `movq r, %cr4`. -/
def movCr4 (src : Reg) (s : Cpu) : Cpu := { s with cr4 := s.get src }

/-- `movq r, %cr0`. -/
def movCr0 (src : Reg) (s : Cpu) : Cpu := { s with cr0 := s.get src }

/-- `movq %cr0, r`. -/
def readCr0 (dst : Reg) (s : Cpu) : Cpu := s.set dst s.cr0

/-- `rdmsr`. -/
def rdmsr (s : Cpu) : Cpu :=
  let v := s.msr (s.rcx.setWidth 32)
  { s with rax := (v.setWidth 32).setWidth 64, rdx := v >>> 32 }

/-- `wrmsr`. -/
def wrmsr (s : Cpu) : Cpu :=
  { s with
    msr := Function.update s.msr (s.rcx.setWidth 32) (s.rdx.setWidth 32 ++ s.rax.setWidth 32) }

/-! ### Programs -/

/-- An instruction in a program whose labels are `L`. -/
inductive Instr (L : Type) where
  | op (f : Cpu → Cpu)
  | jcc (c : Cpu → Bool) (l : L)
  | jmp (l : L)

/-- The instructions between a label and the next one. -/
structure Block (L : Type) where
  /-- The instructions. -/
  body : List (Instr L)
  /-- The label that follows. -/
  next : L

variable {L : Type}

/-- `jz`. -/
def jz (l : L) : Instr L := .jcc Cpu.zf l
/-- `jnz`. -/
def jnz (l : L) : Instr L := .jcc (fun s => !s.zf) l
/-- `jb`. -/
def jb (l : L) : Instr L := .jcc Cpu.cf l
/-- `jg`. -/
def jg (l : L) : Instr L := .jcc (fun s => !s.zf && s.sf == s.of) l

/-- Run the rest of a block. -/
def runBlock (next : L) : List (Instr L) → Cpu → L × Cpu
  | [], s => (next, s)
  | .op f :: is, s => runBlock next is (f s)
  | .jcc c l :: is, s => if c s then (l, s) else runBlock next is s
  | .jmp l :: _, s => (l, s)

/-- One block of a program; labels without a block end the run. -/
def step (code : L → Option (Block L)) (x : L × Cpu) : Option (L × Cpu) :=
  (code x.1).map fun b => runBlock b.next b.body x.2

attribute [simp] Cpu.get Cpu.set Cpu.ea Cpu.read Cpu.write movq logicFlags cmpFlags addq subq cmpq
  andq orq incq decq leaq shlq shrq movl clear andl orl movzbl movb movd punpcklbw punpcklwd pshufd0
  load0 load1 store0 store1 repStosb movCr3 movCr4 movCr0 readCr0 rdmsr wrmsr jz jnz jb jg
  runBlock

/-- **Running one block.** -/
theorem leadsTo_block {code : L → Option (Block L)} {l : L} {s : Cpu} {b : Block L}
    {Q : L × Cpu → Prop} (h : code l = some b)
    (hb : LeadsTo (step code) (runBlock b.next b.body s) Q) : LeadsTo (step code) (l, s) Q :=
  .head (by simp [step, h]) hb

/-! ### Pointers as numbers -/

section Access

variable {m : Memory} {a i : ℕ}

theorem toNat_ofNat_of_lt (h : i < 2 ^ 64) : (BitVec.ofNat 64 i).toNat = i := by
  rw [BitVec.toNat_ofNat, Nat.mod_eq_of_lt h]

theorem ofNat_add_ofNat (i j : ℕ) :
    BitVec.ofNat 64 i + BitVec.ofNat 64 j = BitVec.ofNat 64 (i + j) := (BitVec.ofNat_add i j).symm

theorem ofNat_sub_ofNat {j : ℕ} (h : j ≤ i) :
    BitVec.ofNat 64 i - BitVec.ofNat 64 j = BitVec.ofNat 64 (i - j) := by
  apply BitVec.eq_of_toNat_eq
  rw [BitVec.toNat_sub, BitVec.toNat_ofNat, BitVec.toNat_ofNat, BitVec.toNat_ofNat]
  omega

theorem ofNat_add_neg {j : ℕ} (h : j ≤ i) :
    BitVec.ofNat 64 i + -BitVec.ofNat 64 j = BitVec.ofNat 64 (i - j) := by
  rw [← BitVec.sub_eq_add_neg, ofNat_sub_ofNat h]

theorem toInt_ofNat_of_lt (h : i < 2 ^ 63) : (BitVec.ofNat 64 i).toInt = i := by
  rw [BitVec.toInt_eq_toNat_of_lt (by rw [toNat_ofNat_of_lt (by omega)]; omega),
    toNat_ofNat_of_lt (by omega)]

/-- The low bits of a number. -/
theorem ofNat_and_mask (i k : ℕ) :
    BitVec.ofNat 64 i &&& BitVec.ofNat 64 (2 ^ k - 1) = BitVec.ofNat 64 (i % 2 ^ k) := by
  apply BitVec.eq_of_getLsbD_eq
  intro j hj
  simp only [BitVec.getLsbD_and, BitVec.getLsbD_ofNat, Nat.testBit_two_pow_sub_one,
    Nat.testBit_mod_two_pow, hj, decide_true, Bool.true_and, Bool.and_comm]

/-- Rounding down to a multiple of 16. -/
theorem ofNat_and_neg_sixteen (i : ℕ) :
    BitVec.ofNat 64 i &&& -16#64 = BitVec.ofNat 64 (i / 2 ^ 4 * 2 ^ 4) := by
  have hmask : ∀ j < 64, (-16#64).getLsbD j = decide (4 ≤ j) := by decide
  apply BitVec.eq_of_getLsbD_eq
  intro j hj
  simp only [BitVec.getLsbD_and, BitVec.getLsbD_ofNat, hmask j hj, hj, decide_true, Bool.true_and,
    Nat.testBit_mul_two_pow, Nat.testBit_div_two_pow]
  by_cases h4 : 4 ≤ j
  · simp [h4]
  · simp [h4]

/-- Bytes stored without wrapping. -/
theorem stBytes_ofNat {bs : List UInt8} (h : a + bs.length ≤ 2 ^ 64) :
    stBytes bs (.ofNat 64 a) m = m.write a bs := by
  induction bs generalizing a m with
  | nil =>
    funext x
    simp [stBytes, Memory.write]
  | cons b bs ih =>
    rw [List.length_cons] at h
    rw [stBytes, ofNat_add_ofNat, ih (by omega), toNat_ofNat_of_lt (by omega)]
    funext x
    unfold Memory.write
    rcases Nat.lt_trichotomy x a with hx | rfl | hx
    · rw [if_neg (by omega), if_neg (by omega), Function.update_of_ne (by omega)]
    · rw [if_neg (by omega), if_pos (Nat.le_refl _), Function.update_self, Nat.sub_self]
      rfl
    · rw [if_pos (by omega), if_pos (by omega), Function.update_of_ne (by omega),
        show x - a = x - (a + 1) + 1 by omega, List.getElem?_cons_succ]

theorem ldByte_ofNat (h : a + i < 2 ^ 64) : ldByte m (.ofNat 64 a) i = m (a + i) := by
  rw [ldByte, ofNat_add_ofNat, toNat_ofNat_of_lt h]

theorem st64_ofNat (h : a + 8 ≤ 2 ^ 64) (v : BitVec 64) :
    st64 m (.ofNat 64 a) v = m.store 8 a v.toNat := by
  rw [st64, stBytes_ofNat (by simpa using h), Memory.store]

/-- A vector stored, byte by byte. -/
theorem st128_ofNat (h : a + 16 ≤ 2 ^ 64) (v : Vec) :
    st128 m (.ofNat 64 a) v =
      fun x => if hx : a ≤ x ∧ x < a + 16 then v ⟨x - a, by omega⟩ else m x := by
  rw [st128, stBytes_ofNat (by simpa using h)]
  funext x
  unfold Memory.write
  by_cases hx : a ≤ x ∧ x < a + 16
  · rw [if_pos hx.1, dif_pos hx, List.getElem?_ofFn, dif_pos (by omega)]
    rfl
  · rw [dif_neg hx]
    by_cases hax : a ≤ x
    · rw [if_pos hax, List.getElem?_ofFn, dif_neg (by omega)]
      rfl
    · rw [if_neg hax]

/-- `jg` behind a subtraction compares signed numbers. -/
theorem greater_eq (a b : BitVec 64) :
    (!(a == b) && (a - b).msb == a.ssubOverflow b) = decide (b.toInt < a.toInt) := by
  have ha := a.toInt_lt
  have ha' := a.le_toInt
  have hb := b.toInt_lt
  have hb' := b.le_toInt
  have hsub : (a - b).toInt = (a.toInt - b.toInt).bmod (2 ^ 64) := BitVec.toInt_sub
  rw [Int.bmod_def] at hsub
  have heq : (a == b) = decide (a.toInt = b.toInt) := by
    rw [Bool.eq_iff_iff, beq_iff_eq, decide_eq_true_iff, BitVec.toInt_inj]
  have hover : a.ssubOverflow b = decide ((a - b).toInt ≠ a.toInt - b.toInt) := by
    rw [BitVec.ssubOverflow, Bool.eq_iff_iff, Bool.or_eq_true, decide_eq_true_iff,
      decide_eq_true_iff, decide_eq_true_iff]
    split at hsub <;> omega
  rw [heq, hover, BitVec.msb_eq_toInt, Bool.eq_iff_iff, Bool.and_eq_true, beq_iff_eq,
    Bool.not_eq_true', decide_eq_false_iff_not, decide_eq_true_iff, decide_eq_decide]
  split at hsub <;> omega

end Access

end X64
