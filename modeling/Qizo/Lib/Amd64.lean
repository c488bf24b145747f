import Qizo.Lib.Gate
import Qizo.Lib.X64Stack

/-!
# Calls and interrupts of the 64-bit machine

The machine of `Qizo.Lib.X64` with all sixteen general registers, a stack, byte ports and
interrupts, for the code that runs between an interrupted program and a handler: entry stubs, the
saving and restoring of registers, and `iretq`.

Words are pushed and popped one by one and looked at as a list, `Words`: what a routine has pushed
lies in memory from its stack pointer on, the last word first. Addresses wrap, so that nothing has
to be known about the stack pointer.

## Interrupts

`deliver` is what the processor does between two instructions when vector `v` is raised in
supervisor mode: it aligns the stack pointer, pushes the state of the interrupted program, for
some vectors an error code, and goes to the address in the gate with interrupts off. `iretq` takes
the state back.

## Main results

* `Words.push`, `stacked_deliver`, `iretq_eq` — a stack as a list of words: what is pushed, what the
  processor pushes, and what it takes back
* `runBlock_pushAll`, `runBlock_popAll` — saving registers and taking them back
-/

namespace Amd64

open ByteString StateTransition
open X64 (ldByte stBytes ld64 st64)

/-! ### State -/

/-- The general registers. -/
inductive Reg where
  | rax | rbx | rcx | rdx | rsi | rdi | rbp | rsp | r8 | r9 | r10 | r11 | r12 | r13 | r14 | r15
  deriving DecidableEq, Repr

/-- The number of bytes of the x87 and SSE state. -/
def fpBytes : ℕ := 416

/-- The machine state. -/
structure Cpu where
  /-- The general registers. -/
  gpr : Reg → BitVec 64
  /-- The flags. -/
  rflags : BitVec 64
  /-- The next instruction, where control leaves the program or comes from outside. -/
  rip : BitVec 64
  /-- Code segment. -/
  cs : BitVec 16
  /-- Stack segment. -/
  ss : BitVec 16
  /-- The address of the last page fault. -/
  cr2 : BitVec 64
  /-- The interrupt table. -/
  idtr : BitVec 64
  /-- The x87 and SSE state, as `fxsave` writes it. -/
  fp : Fin fpBytes → UInt8
  /-- The bytes the coming `inb` instructions read. -/
  ins : ℕ → UInt8
  /-- Port and byte of each `outb` so far. -/
  outs : List (ℕ × UInt8)
  /-- Physical memory. -/
  mem : Memory

/-- A flag by its bit. -/
def setFlag (f : BitVec 64) (i : ℕ) (b : Bool) : BitVec 64 :=
  if b then f ||| 1#64 <<< i else f &&& ~~~(1#64 <<< i)

theorem getLsbD_setFlag {f : BitVec 64} {i j : ℕ} {b : Bool} (hi : i < 64) :
    (setFlag f i b).getLsbD j = if j = i then b else f.getLsbD j := by
  by_cases hj : j < 64
  · cases b with
    | true =>
      rw [setFlag, if_pos rfl, BitVec.getLsbD_or, BitVec.getLsbD_shiftLeft, BitVec.getLsbD_one]
      by_cases hij : j = i
      · simp [hij, hi]
      · rw [if_neg hij]
        by_cases hlt : j < i
        · simp [hlt]
        · simp [show ¬j - i = 0 by omega]
    | false =>
      rw [setFlag, if_neg Bool.false_ne_true, BitVec.getLsbD_and, BitVec.getLsbD_not,
        BitVec.getLsbD_shiftLeft, BitVec.getLsbD_one]
      by_cases hij : j = i
      · simp [hij, hi]
      · rw [if_neg hij]
        by_cases hlt : j < i
        · simp [hlt, hj]
        · simp [hj, show ¬j - i = 0 by omega]
  · rw [BitVec.getLsbD_of_ge _ _ (by omega), BitVec.getLsbD_of_ge _ _ (by omega),
      if_neg (by omega)]

namespace Cpu

/-- Carry flag. -/
def cf (s : Cpu) : Bool := s.rflags.getLsbD 0
/-- Zero flag. -/
def zf (s : Cpu) : Bool := s.rflags.getLsbD 6
/-- Sign flag. -/
def sf (s : Cpu) : Bool := s.rflags.getLsbD 7

/-- Set the flags of a comparison or of an arithmetic operation. -/
def flags (cf zf sf : Bool) (s : Cpu) : Cpu :=
  { s with rflags := setFlag (setFlag (setFlag s.rflags 0 cf) 6 zf) 7 sf }

/-- Set the flags of an operation that leaves the carry flag alone. -/
def flags' (zf sf : Bool) (s : Cpu) : Cpu :=
  { s with rflags := setFlag (setFlag s.rflags 6 zf) 7 sf }

@[simp] theorem cf_flags (s : Cpu) (c z n : Bool) : (s.flags c z n).cf = c := by
  simp (disch := decide) only [cf, flags, getLsbD_setFlag]
  rfl

@[simp] theorem zf_flags (s : Cpu) (c z n : Bool) : (s.flags c z n).zf = z := by
  simp (disch := decide) only [zf, flags, getLsbD_setFlag]
  rfl

@[simp] theorem sf_flags (s : Cpu) (c z n : Bool) : (s.flags c z n).sf = n := by
  simp (disch := decide) only [sf, flags, getLsbD_setFlag]
  rfl

@[simp] theorem zf_flags' (s : Cpu) (z n : Bool) : (s.flags' z n).zf = z := by
  simp (disch := decide) only [zf, flags', getLsbD_setFlag]
  rfl

@[simp] theorem flags_gpr (s : Cpu) (c z n : Bool) : (s.flags c z n).gpr = s.gpr := rfl
@[simp] theorem flags_mem (s : Cpu) (c z n : Bool) : (s.flags c z n).mem = s.mem := rfl
@[simp] theorem flags'_gpr (s : Cpu) (z n : Bool) : (s.flags' z n).gpr = s.gpr := rfl
@[simp] theorem flags'_mem (s : Cpu) (z n : Bool) : (s.flags' z n).mem = s.mem := rfl

/-- Replace the value of a register. -/
def set (s : Cpu) (r : Reg) (v : BitVec 64) : Cpu := { s with gpr := Function.update s.gpr r v }

/-- Replace memory. -/
def setMem (s : Cpu) (m : Memory) : Cpu := { s with mem := m }

@[simp] theorem set_gpr (s : Cpu) (r : Reg) (v : BitVec 64) :
    (s.set r v).gpr = Function.update s.gpr r v := rfl

@[simp] theorem set_mem (s : Cpu) (r : Reg) (v : BitVec 64) : (s.set r v).mem = s.mem := rfl
@[simp] theorem setMem_gpr (s : Cpu) (m : Memory) : (s.setMem m).gpr = s.gpr := rfl
@[simp] theorem setMem_mem (s : Cpu) (m : Memory) : (s.setMem m).mem = m := rfl

end Cpu

/-! ### Operands -/

/-- An operand: an immediate, a register, or a place in memory, given by a displacement from a
register. -/
inductive Operand where
  | imm (v : ℕ)
  | reg (r : Reg)
  | ind (d : ℕ) (r : Reg)

instance : Coe Reg Operand := ⟨.reg⟩

namespace Cpu

/-- The address of a memory operand. -/
def ea (s : Cpu) : Operand → BitVec 64
  | .ind d r => s.gpr r + .ofNat 64 d
  | _ => 0#64

/-- The `n` low bits an operand denotes. -/
def read (n : ℕ) (s : Cpu) (o : Operand) : BitVec n :=
  match o with
  | .imm v => .ofNat n v
  | .reg r => (s.gpr r).setWidth n
  | o => .ofNat n (leNat ((List.range (n / 8)).map (ldByte s.mem (s.ea o))))

/-- The low `n` bits of a register are replaced; those of a double word clear the upper half. -/
def withLow (n : ℕ) (old : BitVec 64) (v : BitVec n) : BitVec 64 :=
  if n = 32 then v.setWidth 64 else .ofNat 64 (v.toNat + (old.toNat - old.toNat % 2 ^ n))

/-- Write `n` bits to an operand. -/
def write (n : ℕ) (s : Cpu) (o : Operand) (v : BitVec n) : Cpu :=
  match o with
  | .imm _ => s
  | .reg r => s.set r (withLow n (s.gpr r) v)
  | o => s.setMem (stBytes (leBytes (n / 8) v.toNat) (s.ea o) s.mem)

end Cpu

section Operands

variable {n : ℕ} {s : Cpu} {r : Reg}

@[simp] theorem read_imm (v : ℕ) : s.read n (.imm v) = .ofNat n v := rfl

@[simp] theorem read_reg : s.read n (.reg r) = (s.gpr r).setWidth n := rfl

@[simp] theorem read_64_ind (d : ℕ) :
    s.read 64 (.ind d r) = ld64 s.mem (s.gpr r + .ofNat 64 d) := rfl

@[simp] theorem write_ind (d : ℕ) (v : BitVec n) :
    s.write n (.ind d r) v =
      s.setMem (stBytes (leBytes (n / 8) v.toNat) (s.gpr r + .ofNat 64 d) s.mem) := rfl

@[simp] theorem write_32_reg (v : BitVec 32) :
    s.write 32 (.reg r) v = s.set r (v.setWidth 64) := rfl

@[simp] theorem write_64_reg (v : BitVec 64) : s.write 64 (.reg r) v = s.set r v := by
  have hold : (s.gpr r).toNat - (s.gpr r).toNat % 2 ^ 64 = 0 := by
    rw [Nat.mod_eq_of_lt (s.gpr r).isLt, Nat.sub_self]
  rw [Cpu.write, Cpu.withLow, if_neg (by decide), hold, Nat.add_zero, BitVec.ofNat_toNat,
    BitVec.setWidth_eq]

/-- A byte written to a register leaves the rest of it alone. -/
theorem write_8_reg (v : BitVec 8) : s.write 8 (.reg r) v =
    s.set r (.ofNat 64 (v.toNat + ((s.gpr r).toNat - (s.gpr r).toNat % 2 ^ 8))) := rfl

end Operands

/-! ### Instructions

Source operand first, the width in bits before it. Flags other than carry, zero and sign are not
modelled. -/

/-- `mov src, dst`. -/
def mov (n : ℕ) (src dst : Operand) (s : Cpu) : Cpu := s.write n dst (s.read n src)

/-- `lea symbol(%rip), dst`. -/
def lea (symbol : BitVec 64) (dst : Reg) (s : Cpu) : Cpu := s.set dst symbol

/-- `add src, dst`. -/
def add (n : ℕ) (src dst : Operand) (s : Cpu) : Cpu :=
  let v := s.read n dst + s.read n src
  (s.write n dst v).flags ((s.read n dst).uaddOverflow (s.read n src)) (v == 0) v.msb

/-- `sub src, dst`. -/
def sub (n : ℕ) (src dst : Operand) (s : Cpu) : Cpu :=
  let v := s.read n dst - s.read n src
  (s.write n dst v).flags (decide ((s.read n dst).toNat < (s.read n src).toNat)) (v == 0) v.msb

/-- `cmp src, dst`: the flags of `dst - src`. -/
def cmp (n : ℕ) (src dst : Operand) (s : Cpu) : Cpu :=
  let v := s.read n dst - s.read n src
  s.flags (decide ((s.read n dst).toNat < (s.read n src).toNat)) (v == 0) v.msb

/-- `and src, dst`. -/
def and (n : ℕ) (src dst : Operand) (s : Cpu) : Cpu :=
  let v := s.read n dst &&& s.read n src
  (s.write n dst v).flags false (v == 0) v.msb

/-- `test src, dst`: the flags of the bitwise conjunction. -/
def test (n : ℕ) (src dst : Operand) (s : Cpu) : Cpu :=
  let v := s.read n dst &&& s.read n src
  s.flags false (v == 0) v.msb

/-- `dec dst`. -/
def dec (n : ℕ) (dst : Operand) (s : Cpu) : Cpu :=
  let v := s.read n dst - 1
  (s.write n dst v).flags' (v == 0) v.msb

/-- `shr $k, dst`; the flags are not modelled. -/
def shr (n k : ℕ) (dst : Operand) (s : Cpu) : Cpu := s.write n dst (s.read n dst >>> k)

/-- `shr %cl, dst`; the flags are not modelled. -/
def shrCl (n : ℕ) (dst : Operand) (s : Cpu) : Cpu :=
  s.write n dst (s.read n dst >>> ((s.gpr .rcx).toNat % 64))

/-- `cld`. -/
def cld (s : Cpu) : Cpu := { s with rflags := setFlag s.rflags 10 false }

/-- `cli`. -/
def cli (s : Cpu) : Cpu := { s with rflags := setFlag s.rflags 9 false }

/-- `movq %cr2, dst`. -/
def movCr2 (dst : Reg) (s : Cpu) : Cpu := s.set dst s.cr2

/-- `lidt (r)`: the table's address lies behind its size. -/
def lidt (r : Reg) (s : Cpu) : Cpu := { s with idtr := ld64 s.mem (s.gpr r + 2#64) }

/-- `inb %dx, %al`. -/
def inb (s : Cpu) : Cpu :=
  { s.write 8 (.reg .rax) (.ofNat 8 (s.ins 0).toNat) with ins := fun n => s.ins (n + 1) }

/-- `outb %al, %dx`. -/
def outb (s : Cpu) : Cpu :=
  { s with
    outs := s.outs ++ [((s.gpr .rdx).toNat % 2 ^ 16, .ofNat (s.gpr .rax).toNat)] }

section Dec

variable {s : Cpu} {r : Reg} {j : ℕ}

/-- Counting down in a double word. -/
theorem dec_32_gpr (h : s.gpr r = .ofNat 64 (j + 1)) (hj : j + 1 < 2 ^ 32) :
    (dec 32 (.reg r) s).gpr = Function.update s.gpr r (.ofNat 64 j) := by
  have hv : (BitVec.setWidth 32 (BitVec.ofNat 64 (j + 1)) - 1).setWidth 64 = BitVec.ofNat 64 j := by
    apply BitVec.eq_of_toNat_eq
    simp only [BitVec.ofNat_eq_ofNat, BitVec.toNat_setWidth, BitVec.toNat_sub, BitVec.toNat_ofNat]
    omega
  rw [dec, Cpu.flags'_gpr, write_32_reg, Cpu.set_gpr, read_reg, h, hv]

theorem dec_32_zf (h : s.gpr r = .ofNat 64 (j + 1)) (hj : j + 1 < 2 ^ 32) :
    (dec 32 (.reg r) s).zf = decide (j = 0) := by
  rw [dec, Cpu.zf_flags', read_reg, h, Bool.eq_iff_iff, beq_iff_eq, decide_eq_true_iff,
    ← BitVec.toNat_inj]
  simp only [BitVec.ofNat_eq_ofNat, BitVec.toNat_setWidth, BitVec.toNat_sub, BitVec.toNat_ofNat]
  omega

end Dec

/-! ### The stack -/

namespace Cpu

/-- Push a word. -/
def push (v : BitVec 64) (s : Cpu) : Cpu :=
  (s.set .rsp (s.gpr .rsp - 8#64)).setMem (st64 s.mem (s.gpr .rsp - 8#64) v)

/-- The word at the stack pointer. -/
def top (s : Cpu) : BitVec 64 := ld64 s.mem (s.gpr .rsp)

/-- Drop a word. -/
def drop (s : Cpu) : Cpu := s.set .rsp (s.gpr .rsp + 8#64)

end Cpu

@[simp] theorem Cpu.push_mem (s : Cpu) (v : BitVec 64) :
    (s.push v).mem = st64 s.mem (s.gpr .rsp - 8#64) v := rfl

@[simp] theorem Cpu.push_gpr (s : Cpu) (v : BitVec 64) :
    (s.push v).gpr = Function.update s.gpr .rsp (s.gpr .rsp - 8#64) := rfl

@[simp] theorem Cpu.drop_gpr (s : Cpu) :
    s.drop.gpr = Function.update s.gpr .rsp (s.gpr .rsp + 8#64) := rfl

/-- `pushq src`. -/
def pushq (src : Operand) (s : Cpu) : Cpu := s.push (s.read 64 src)

/-- `popq r`, for another register than the stack pointer. -/
def popq (r : Reg) (s : Cpu) : Cpu := s.drop.set r s.top

@[simp] theorem popq_gpr (r : Reg) (s : Cpu) :
    (popq r s).gpr = Function.update s.drop.gpr r s.top := rfl

/-- `fxsave symbol(%rip)`. -/
def fxsave (symbol : BitVec 64) (s : Cpu) : Cpu :=
  s.setMem (stBytes (List.ofFn s.fp) symbol s.mem)

theorem fxsave_mem (symbol : BitVec 64) (s : Cpu) :
    (fxsave symbol s).mem = stBytes (List.ofFn s.fp) symbol s.mem := by
  rw [fxsave, Cpu.setMem_mem]

/-- `fxrstor symbol(%rip)`. -/
def fxrstor (symbol : BitVec 64) (s : Cpu) : Cpu :=
  { s with fp := fun i => ldByte s.mem symbol i }

/-! ### Interrupts -/

/-- The vectors for which the processor pushes an error code. -/
def hasErrorCode (v : ℕ) : Bool := v ∈ [8, 10, 11, 12, 13, 14, 17, 21, 29, 30]

theorem lt_of_hasErrorCode {v : ℕ} (h : hasErrorCode v = true) : v < 32 := by
  simp only [hasErrorCode, decide_eq_true_eq, List.mem_cons, List.not_mem_nil, or_false] at h
  omega

/-- The error code of vector `v`, or zero where the processor pushes none. -/
def errorWord (v : ℕ) (err : BitVec 64) : BitVec 64 := if hasErrorCode v then err else 0#64

/-- The flags in a handler behind an interrupt gate: no single steps, no interrupts, no nested
task, no resumption. -/
def gateFlags (f : BitVec 64) : BitVec 64 :=
  setFlag (setFlag (setFlag (setFlag f 8 false) 9 false) 14 false) 16 false

/-- The stack pointer from which the state of an interrupted program is pushed. -/
def alignedTop (sp : BitVec 64) : BitVec 64 := sp &&& ~~~15#64

/-- The words the processor pushes when it is interrupted, the last one first. -/
def hardwareFrame (s : Cpu) : List (BitVec 64) :=
  [s.rip, s.cs.setWidth 64, s.rflags, s.gpr .rsp, s.ss.setWidth 64]

/-- Interrupt `v`, with error code `err`. -/
def deliver (v : ℕ) (err : BitVec 64) (s : Cpu) : Cpu :=
  let gate := Gate.gateAt s.mem (s.idtr.toNat + 16 * v)
  let s₁ := ((((s.set .rsp (alignedTop (s.gpr .rsp))).push (s.ss.setWidth 64)).push
    (s.gpr .rsp)).push s.rflags).push (s.cs.setWidth 64) |>.push s.rip
  let s₂ := if hasErrorCode v then s₁.push err else s₁
  { s₂ with
    rip := .ofNat 64 gate.offset, cs := .ofNat 16 gate.selector, rflags := gateFlags s.rflags }

/-- `iretq`. -/
def iretq (s : Cpu) : Cpu :=
  let word (i : ℕ) : BitVec 64 := ld64 s.mem (s.gpr .rsp + .ofNat 64 (8 * i))
  { s.set .rsp (word 3) with
    rip := word 0, cs := (word 1).setWidth 16, rflags := word 2, ss := (word 4).setWidth 16 }

/-! ### Programs -/

/-- An instruction in a program whose labels are `L`. -/
inductive Instr (L : Type) where
  | op (f : Cpu → Cpu)
  | jcc (c : Cpu → Bool) (l : L)
  | jmp (l : L)
  | call (l : L)
  | ret
  | iret

/-- The instructions between a label and the next one, where a call returns to. -/
structure Block (L : Type) where
  /-- The instructions. -/
  body : List (Instr L)
  /-- The label that follows. -/
  next : L

/-- Where the labels of a program are placed. Control that goes to an address that is no label's
is outside the program. -/
structure Link (L : Type) where
  /-- The address of a label. -/
  addr : L → BitVec 64
  /-- The label at an address. -/
  label : BitVec 64 → L
  /-- Labels are told apart by their addresses. -/
  label_addr : ∀ l, label (addr l) = l

variable {L : Type}

/-- `jnz`. -/
def jnz (l : L) : Instr L := .jcc (fun s => !s.zf) l
/-- `jb`. -/
def jb (l : L) : Instr L := .jcc Cpu.cf l
/-- `jns`. -/
def jns (l : L) : Instr L := .jcc (fun s => !s.sf) l

/-- Run the rest of a block. -/
def runBlock (k : Link L) (next : L) : List (Instr L) → Cpu → L × Cpu
  | [], s => (next, s)
  | .op f :: is, s => runBlock k next is (f s)
  | .jcc c l :: is, s => if c s then (l, s) else runBlock k next is s
  | .jmp l :: _, s => (l, s)
  | .call l :: _, s => (l, s.push (k.addr next))
  | .ret :: _, s => (k.label s.top, s.drop)
  | .iret :: _, s => (k.label (iretq s).rip, iretq s)

/-- One block of a program; labels without a block end the run. -/
def step (k : Link L) (code : L → Option (Block L)) (x : L × Cpu) : Option (L × Cpu) :=
  (code x.1).map fun b => runBlock k b.next b.body x.2

/-- **Running one block.** -/
theorem leadsTo_block {k : Link L} {code : L → Option (Block L)} {l : L} {s : Cpu} {b : Block L}
    {Q : L × Cpu → Prop} (h : code l = some b)
    (hb : LeadsTo (step k code) (runBlock k b.next b.body s) Q) :
    LeadsTo (step k code) (l, s) Q :=
  .head (by simp [step, h]) hb

/-- **An interrupt goes to the label its gate leads to.** -/
theorem label_deliver {k : Link L} {v selector : ℕ} {err : BitVec 64} {s : Cpu} {l : L}
    (h : Gate.gateAt s.mem (s.idtr.toNat + 16 * v) = Gate.interruptGate selector (k.addr l).toNat) :
    k.label (deliver v err s).rip = l := by
  have hrip : (deliver v err s).rip = .ofNat 64 (k.addr l).toNat := by
    rw [deliver, h]
    rfl
  rw [hrip, BitVec.ofNat_toNat, BitVec.setWidth_eq, k.label_addr]

/-- A conditional jump that ends a block. -/
theorem leadsTo_branch {f : L × Cpu → Option (L × Cpu)} {c : Prop} [Decidable c] {l l' : L}
    {s : Cpu}
    {Q : L × Cpu → Prop} (h : LeadsTo f (if c then l else l', s) Q) :
    LeadsTo f (if c then (l, s) else (l', s)) Q := by
  split at h
  · rwa [if_pos ‹c›]
  · rwa [if_neg ‹¬c›]

/-- Push registers, in order. -/
def pushAll (rs : List Reg) : List (Instr L) := rs.map fun r : Reg => .op (pushq (.reg r))

/-- Pop registers, in order. -/
def popAll (rs : List Reg) : List (Instr L) := rs.map fun r : Reg => .op (popq r)

/-! ### Words on the stack -/

section Stack

variable {m m' : Memory} {a b : BitVec 64} {v : BitVec 64} {ws : List (BitVec 64)} {n : ℕ}

/-- The words from address `a` on. -/
def Words (m : Memory) (a : BitVec 64) : List (BitVec 64) → Prop
  | [] => True
  | w :: ws => ld64 m a = w ∧ Words m (a + 8#64) ws

/-- Two memories agree on the `n` bytes from `a` on. -/
def SameBytes (m m' : Memory) (a : BitVec 64) (n : ℕ) : Prop :=
  ∀ i < n, ldByte m' a i = ldByte m a i

/-- The `k` bytes from `b` on lie apart from the `n` bytes from `a` on. -/
def Apart (a : BitVec 64) (n : ℕ) (b : BitVec 64) (k : ℕ) : Prop :=
  n ≤ (b - a).toNat ∧ (b - a).toNat + k ≤ 2 ^ 64

/-- Two memories agree outside the `n` bytes from `a` on. -/
def SameBut (m m' : Memory) (a : BitVec 64) (n : ℕ) : Prop :=
  ∀ c : BitVec 64, n ≤ (c - a).toNat → m' c.toNat = m c.toNat

theorem SameBytes.words (h : SameBytes m m' a n) (hws : Words m a ws) (hn : 8 * ws.length ≤ n) :
    Words m' a ws := by
  induction ws generalizing a n with
  | nil => trivial
  | cons w ws ih =>
    rw [List.length_cons] at hn
    refine ⟨(X64.ld64_congr fun i hi => h i (by omega)).trans hws.1, ?_⟩
    refine ih (n := n - 8) (fun i hi => ?_) hws.2 (by omega)
    have hbyte := h (i + 8) (by omega)
    have haddr : a + 8#64 + BitVec.ofNat 64 i = a + BitVec.ofNat 64 (i + 8) := by
      rw [BitVec.add_assoc, X64.ofNat_add_ofNat, Nat.add_comm]
    rw [ldByte, ldByte, haddr]
    exact hbyte

/-- Memory that is kept outside a range is kept in a range apart from it. -/
theorem SameBut.sameBytes {k : ℕ} (h : SameBut m m' a n) (hapart : Apart a n b k) :
    SameBytes m m' b k := by
  intro i hi
  obtain ⟨hlow, hhigh⟩ := hapart
  refine h _ ?_
  bv_omega

theorem sameBut_st64 (m : Memory) (a v : BitVec 64) : SameBut m (st64 m a v) a 8 := by
  intro c hc
  exact X64.stBytes_apply_of_le (by rwa [length_leBytes])

/-- What is apart from a range is apart from a part of it. -/
theorem le_of_sub_ofNat {c : BitVec 64} {k : ℕ} (hn : n + k < 2 ^ 64)
    (h : n + k ≤ (c - (a - .ofNat 64 k)).toNat) : n ≤ (c - a).toNat := by
  bv_omega

theorem sub_ofNat_sub (a : BitVec 64) (i j : ℕ) :
    a - .ofNat 64 i - .ofNat 64 j = a - .ofNat 64 (i + j) := by
  bv_omega

theorem SameBut.refl (m : Memory) (a : BitVec 64) (n : ℕ) : SameBut m m a n := fun _ _ => rfl

theorem SameBut.trans {m'' : Memory} (h : SameBut m m' a n) (h' : SameBut m' m'' a n) :
    SameBut m m'' a n := fun c hc => (h' c hc).trans (h c hc)

/-- A range around the one that is changed. -/
theorem SameBut.mono {k : ℕ} (h : SameBut m m' a n)
    (hin : ∀ c : BitVec 64, k ≤ (c - b).toNat → n ≤ (c - a).toNat) : SameBut m m' b k :=
  fun c hc => h c (hin c hc)

/-- A store in front of a range that is changed. -/
theorem SameBut.push (h : SameBut m m' a n) (v : BitVec 64) (hn : n + 8 < 2 ^ 64) :
    SameBut m (st64 m' (a - 8#64) v) (a - 8#64) (n + 8) := by
  intro c hc
  rw [sameBut_st64 m' (a - 8#64) v c (by omega)]
  exact h c (le_of_sub_ofNat hn hc)

/-- **A push.** -/
theorem Words.push (h : Words m a ws) (v : BitVec 64) (hn : 8 * ws.length + 8 ≤ 2 ^ 64) :
    Words (st64 m (a - 8#64) v) (a - 8#64) (v :: ws) := by
  refine ⟨X64.ld64_st64 v, ?_⟩
  rw [BitVec.sub_add_cancel]
  exact ((sameBut_st64 m (a - 8#64) v).sameBytes (b := a) (k := 8 * ws.length)
    ⟨by bv_omega, by bv_omega⟩).words h le_rfl

/-! ### Saving registers and taking them back -/

variable {s s' : Cpu} {P : BitVec 64 → Prop}
  {rs : List Reg} {g : Reg → BitVec 64}

/-- From `s` to `s'` the words `ws` have been pushed below address `t`. Memory is kept above `t` and
below the stack pointer, where `P` holds. -/
structure Stacked (P : BitVec 64 → Prop) (t : BitVec 64) (ws : List (BitVec 64)) (s s' : Cpu) :
    Prop where
  /-- The stack pointer. -/
  rsp : s'.gpr .rsp = t - .ofNat 64 (8 * ws.length)
  /-- The words. -/
  words : Words s'.mem (s'.gpr .rsp) ws
  /-- The other registers. -/
  gpr : ∀ r, r ≠ .rsp → s'.gpr r = s.gpr r
  /-- The x87 and SSE state. -/
  fp : s'.fp = s.fp
  /-- Memory elsewhere. -/
  kept : ∀ c, 8 * ws.length ≤ (c - s'.gpr .rsp).toNat → P c → s'.mem c.toNat = s.mem c.toNat

theorem Stacked.push {t : BitVec 64} (h : Stacked P t ws s s') (v : BitVec 64)
    (hn : 8 * ws.length + 8 < 2 ^ 64) : Stacked P t (v :: ws) s (s'.push v) where
  rsp := by
    rw [Cpu.push_gpr, Function.update_self, h.rsp, List.length_cons, Nat.mul_succ, sub_ofNat_sub]
  words := by
    rw [Cpu.push_gpr, Function.update_self]
    exact h.words.push v (by omega)
  gpr r hr := by
    rw [Cpu.push_gpr, Function.update_of_ne hr, h.gpr r hr]
  fp := h.fp
  kept c hc hP := by
    rw [Cpu.push_gpr, Function.update_self, List.length_cons, Nat.mul_succ] at hc
    have hword : 8 ≤ (c - (s'.gpr .rsp - 8#64)).toNat := Nat.le_of_add_left_le hc
    rw [Cpu.push_mem, sameBut_st64 s'.mem _ v c hword]
    exact h.kept c (le_of_sub_ofNat hn hc) hP

/-- Nothing is pushed yet. -/
theorem stacked_nil (t : BitVec 64) (s : Cpu) : Stacked P t [] s (s.set .rsp t) where
  rsp := by
    rw [Cpu.set_gpr, Function.update_self]
    exact (BitVec.sub_zero t).symm
  words := trivial
  gpr r hr := Function.update_of_ne hr _ _
  fp := rfl
  kept _ _ _ := rfl

/-- The stack knows nothing of the other parts of the state. -/
theorem Stacked.of_eq {t : BitVec 64} {s'' : Cpu} (h : Stacked P t ws s s')
    (hgpr : s''.gpr = s'.gpr) (hfp : s''.fp = s'.fp) (hmem : s''.mem = s'.mem) :
    Stacked P t ws s s'' where
  rsp := by rw [hgpr, h.rsp]
  words := by rw [hmem, hgpr]; exact h.words
  gpr r hr := by rw [hgpr, h.gpr r hr]
  fp := hfp.trans h.fp
  kept := by rw [hmem, hgpr]; exact h.kept

/-- **What the processor pushes.** -/
theorem stacked_deliver (v : ℕ) (err : BitVec 64) (s : Cpu) :
    Stacked P (alignedTop (s.gpr .rsp))
      ((if hasErrorCode v then [err] else []) ++ hardwareFrame s) s (deliver v err s) := by
  have hframe := (((((stacked_nil (P := P) (alignedTop (s.gpr .rsp)) s).push (s.ss.setWidth 64)
    (by decide)).push (s.gpr .rsp) (by simp)).push s.rflags (by simp)).push
    (s.cs.setWidth 64) (by simp)).push s.rip (by simp)
  rw [deliver]
  split
  · exact (hframe.push err (by simp)).of_eq rfl rfl rfl
  · exact hframe.of_eq rfl rfl rfl

/-- A stub that pushes a zero where the processor has pushed no error code, and the vector. -/
theorem Stacked.stub {t err : BitVec 64} {v : ℕ}
    (h : Stacked P t ((if hasErrorCode v then [err] else []) ++ hardwareFrame s) s s') :
    Stacked P t (.ofNat 64 v :: errorWord v err :: hardwareFrame s) s
      ((if hasErrorCode v then s' else s'.push 0#64).push (.ofNat 64 v)) := by
  have hlen : (hardwareFrame s).length = 5 := rfl
  rw [errorWord]
  split at h
  · rw [if_pos ‹_›, if_pos ‹_›]
    exact h.push _ (by simp [hlen])
  · rw [if_neg ‹_›, if_neg ‹_›]
    exact (h.push 0#64 (by simp [hlen])).push _ (by simp [hlen])

/-- **`iretq` takes back what an interrupt pushes.** -/
theorem iretq_eq (h : Words s'.mem (s'.gpr .rsp) (hardwareFrame s)) : iretq s' =
    { s'.set .rsp (s.gpr .rsp) with rip := s.rip, cs := s.cs, rflags := s.rflags, ss := s.ss } := by
  obtain ⟨hrip, hcs, hrflags, hrsp, hss, -⟩ := h
  simp only [BitVec.add_assoc, BitVec.reduceAdd] at hcs hrflags hrsp hss
  have hword (w : BitVec 16) : (w.setWidth 64).setWidth 16 = w := by
    rw [BitVec.setWidth_setWidth_of_le _ (by decide), BitVec.setWidth_eq]
  simp only [iretq, Nat.reduceMul, BitVec.add_zero, hrip, hcs, hrflags, hrsp, hss, hword]

/-- Pushing registers one after the other. -/
theorem runBlock_pushAll {t : BitVec 64} (h : Stacked P t ws s s') (hrs : .rsp ∉ rs)
    (hn : 8 * (rs.length + ws.length) < 2 ^ 64) :
    ∃ s'', (∀ (k : Link L) next is,
        runBlock k next (pushAll rs ++ is) s' = runBlock k next is s'') ∧
      Stacked P t ((rs.map s.gpr).reverse ++ ws) s s'' ∧
      s''.gpr .rsp = s'.gpr .rsp - .ofNat 64 (8 * rs.length) ∧
      SameBut s'.mem s''.mem (s''.gpr .rsp) (8 * rs.length) := by
  induction rs generalizing s' ws with
  | nil => exact ⟨s', fun _ _ _ => rfl, h, (BitVec.sub_zero _).symm, .refl _ _ _⟩
  | cons r rs ih =>
    rw [List.mem_cons, not_or] at hrs
    rw [List.length_cons] at hn
    have hread : s'.read 64 (.reg r) = s.gpr r := by
      rw [Cpu.read, BitVec.setWidth_eq, h.gpr r (Ne.symm hrs.1)]
    have hpush := h.push (s.gpr r) (by omega)
    obtain ⟨s'', hrun, hs'', hrsp, hsame⟩ := ih hpush hrs.2 (by rw [List.length_cons]; omega)
    rw [Cpu.push_gpr, Function.update_self] at hrsp
    rw [Cpu.push_mem] at hsame
    refine ⟨s'', fun k next is => ?_, ?_, ?_, fun c hc => ?_⟩
    · rw [pushAll, List.map_cons, List.cons_append, runBlock, pushq, hread]
      exact hrun k next is
    · rwa [List.map_cons, List.reverse_cons, List.append_assoc, List.singleton_append]
    · rw [hrsp, sub_ofNat_sub, List.length_cons, Nat.mul_succ, Nat.add_comm]
    · rw [List.length_cons] at hc
      have hfar : 8 ≤ (c - (s'.gpr .rsp - 8#64)).toNat := by
        rw [hrsp] at hc
        exact le_of_sub_ofNat (n := 8) (k := 8 * rs.length) (by omega) (by omega)
      exact (hsame c (by omega)).trans (sameBut_st64 s'.mem _ _ c hfar)

/-- From `s` to `s'` the registers `rs` have been loaded with the values of `g`, from the stack. -/
structure Unstacked (rs : List Reg) (g : Reg → BitVec 64) (s s' : Cpu) : Prop where
  /-- Only registers have changed. -/
  eq : s' = { s with gpr := s'.gpr }
  /-- The stack pointer. -/
  rsp : s'.gpr .rsp = s.gpr .rsp + .ofNat 64 (8 * rs.length)
  /-- The registers that are loaded. -/
  loaded : ∀ r ∈ rs, s'.gpr r = g r
  /-- The other registers. -/
  other : ∀ r, r ∉ rs → r ≠ .rsp → s'.gpr r = s.gpr r

theorem Unstacked.mem (h : Unstacked rs g s s') : s'.mem = s.mem :=
  (congrArg Cpu.mem h.eq).trans rfl

theorem Unstacked.fp (h : Unstacked rs g s s') : s'.fp = s.fp := (congrArg Cpu.fp h.eq).trans rfl

theorem Unstacked.cr2 (h : Unstacked rs g s s') : s'.cr2 = s.cr2 :=
  (congrArg Cpu.cr2 h.eq).trans rfl

theorem Unstacked.outs (h : Unstacked rs g s s') : s'.outs = s.outs :=
  (congrArg Cpu.outs h.eq).trans rfl

/-- Popping registers one after the other. -/
theorem runBlock_popAll (hrs : .rsp ∉ rs) (h : Words s.mem (s.gpr .rsp) (rs.map g ++ ws)) :
    ∃ s', (∀ (k : Link L) next is,
        runBlock k next (popAll rs ++ is) s = runBlock k next is s') ∧
      Unstacked rs g s s' ∧ Words s'.mem (s'.gpr .rsp) ws := by
  induction rs generalizing s with
  | nil => exact ⟨s, fun _ _ _ => rfl, ⟨rfl, by simp, by simp, fun _ _ _ => rfl⟩, h⟩
  | cons r rs ih =>
    rw [List.mem_cons, not_or] at hrs
    obtain ⟨htop, hrest⟩ := h
    have hrsp : (popq r s).gpr .rsp = s.gpr .rsp + 8#64 := by
      rw [popq_gpr, Cpu.drop_gpr, Function.update_of_ne hrs.1, Function.update_self]
    have hr : (popq r s).gpr r = g r := by
      rw [popq_gpr, Function.update_self, Cpu.top, htop]
    have hother : ∀ r', r' ≠ r → r' ≠ .rsp → (popq r s).gpr r' = s.gpr r' := by
      intro r' hne hne'
      rw [popq_gpr, Cpu.drop_gpr, Function.update_of_ne hne, Function.update_of_ne hne']
    obtain ⟨s', hrun, hs', hws⟩ := ih (s := popq r s) hrs.2 (by rw [hrsp]; exact hrest)
    refine ⟨s', hrun, ⟨?_, ?_, ?_, ?_⟩, hws⟩
    · rw [hs'.eq]
      rfl
    · rw [hs'.rsp, hrsp, List.length_cons, Nat.mul_succ, ← X64.ofNat_add_ofNat, BitVec.add_assoc,
        BitVec.add_comm 8#64]
    · intro r' hr'
      by_cases hmem : r' ∈ rs
      · exact hs'.loaded r' hmem
      · obtain rfl : r' = r := (List.mem_cons.mp hr').resolve_right hmem
        rw [hs'.other r' hmem (Ne.symm hrs.1), hr]
    · intro r' hr' hne
      rw [List.mem_cons, not_or] at hr'
      rw [hs'.other r' hr'.2 hne, hother r' hr'.1 hne]

end Stack

end Amd64
