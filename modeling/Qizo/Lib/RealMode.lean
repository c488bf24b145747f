import Qizo.Lib.X86

/-!
# A 16-bit real mode machine for labelled assembly

The real mode side of the machine in `Qizo.Lib.X86`: the same registers with their 16-bit and 8-bit
parts, three segment registers, and firmware behind the `int` instruction.

## Widths

Every instruction takes the width of its operands first, so that `mov 8`, `mov 16` and `mov 32` are
`movb`, `movw` and `movl`. A register operand of a smaller width is the low part of the register,
and writing it leaves the rest as it was; `ah` and its like are operands of their own. Memory
operands name a segment and wrap inside it.

## Firmware

`int` hands the state to a function that a theorem quantifies over, and logs the machine before and
after the call. A theorem assumes of the function what the firmware is documented to do.

`call` and `ret` go through the stack, as in protected mode.
-/

namespace Real

open ByteString StateTransition
open X86 (Reg)

/-! ### State -/

/-- A call of the firmware: its vector, the data segment, and the machine before and after. -/
structure Call where
  vector : ℕ
  ds : BitVec 16
  before : X86.Cpu
  after : X86.Cpu

/-- The machine state. -/
structure Cpu extends X86.Cpu where
  ds : BitVec 16
  es : BitVec 16
  ss : BitVec 16
  /-- The firmware calls so far. -/
  calls : List Call

/-- The answer of the firmware to an interrupt. -/
abbrev Firmware := ℕ → Cpu → Cpu

/-! ### Memory access -/

/-- The linear address of an offset in a segment. -/
def lin (seg off : BitVec 16) : ℕ := 16 * seg.toNat + off.toNat

/-- The `w`-byte number at an offset of a segment. -/
def ld (m : Memory) (seg : BitVec 16) : (w : ℕ) → (off : BitVec 16) → ℕ
  | 0, _ => 0
  | w + 1, off => (m (lin seg off)).toNat + 256 * ld m seg w (off + 1#16)

/-- Store a `w`-byte number. -/
def st (seg : BitVec 16) : (w : ℕ) → (off : BitVec 16) → (v : ℕ) → Memory → Memory
  | 0, _, _, m => m
  | w + 1, off, v, m =>
    st seg w (off + 1#16) (v / 256) (Function.update m (lin seg off) (UInt8.ofNat v))

/-! ### Registers and operands -/

/-- Replace the low `n` bits of a register. -/
def withLow (n : ℕ) (old : BitVec 32) (v : BitVec n) : BitVec 32 :=
  .ofNat 32 (v.toNat + (old.toNat - old.toNat % 2 ^ n))

/-- Replace the second byte of a register. -/
def withHigh (old : BitVec 32) (v : ℕ) : BitVec 32 :=
  .ofNat 32 (old.toNat - old.toNat % 65536 + v % 256 * 256 + old.toNat % 256)

/-- An operand: an immediate, the low part of a register, the second byte of one, an absolute
address in the data or the extra segment, or an address in a register. -/
inductive Operand where
  | imm (v : ℕ)
  | reg (r : Reg)
  | high (r : Reg)
  | abs (a : ℕ)
  | absEs (a : ℕ)
  | ind (r : Reg)

/-! The names of the registers as operands. The width comes from the instruction. -/

/-- `%al`, `%ax` and `%eax`. -/
abbrev ax : Operand := .reg .eax
/-- `%bl`, `%bx` and `%ebx`. -/
abbrev bx : Operand := .reg .ebx
/-- `%cl`, `%cx` and `%ecx`. -/
abbrev cx : Operand := .reg .ecx
/-- `%dl`, `%dx` and `%edx`. -/
abbrev dx : Operand := .reg .edx
/-- `%si` and `%esi`. -/
abbrev si : Operand := .reg .esi
/-- `%di` and `%edi`. -/
abbrev di : Operand := .reg .edi
/-- `%bp` and `%ebp`. -/
abbrev bp : Operand := .reg .ebp
/-- `%sp` and `%esp`. -/
abbrev sp : Operand := .reg .esp
/-- `%ah`. -/
abbrev ah : Operand := .high .eax

namespace Cpu

/-- Replace the value of a register. -/
def setReg (s : Cpu) (r : Reg) (v : BitVec 32) : Cpu := { s with toCpu := s.toCpu.set r v }

/-- Replace memory. -/
def setMem (s : Cpu) (m : Memory) : Cpu := { s with mem := m }

/-- Set the flags. -/
def flags (s : Cpu) (zf cf : Bool) : Cpu := { s with zf := zf, cf := cf }

/-- The value of an operand of `n` bits. -/
def read (n : ℕ) (s : Cpu) : Operand → BitVec n
  | .imm v => .ofNat n v
  | .reg r => (s.get r).setWidth n
  | .high r => .ofNat n ((s.get r).toNat / 256 % 256)
  | .abs a => .ofNat n (ld s.mem s.ds (n / 8) (.ofNat 16 a))
  | .absEs a => .ofNat n (ld s.mem s.es (n / 8) (.ofNat 16 a))
  | .ind r => .ofNat n (ld s.mem s.ds (n / 8) ((s.get r).setWidth 16))

/-- Write an operand of `n` bits. -/
def write (n : ℕ) (s : Cpu) (o : Operand) (v : BitVec n) : Cpu :=
  match o with
  | .imm _ => s
  | .reg r => s.setReg r (withLow n (s.get r) v)
  | .high r => s.setReg r (withHigh (s.get r) v.toNat)
  | .abs a => s.setMem (st s.ds (n / 8) (.ofNat 16 a) v.toNat s.mem)
  | .absEs a => s.setMem (st s.es (n / 8) (.ofNat 16 a) v.toNat s.mem)
  | .ind r => s.setMem (st s.ds (n / 8) ((s.get r).setWidth 16) v.toNat s.mem)

end Cpu

/-! ### Instructions

Source operand first, the width before it. As in protected mode only the zero and the carry flag
are modelled, and `inc` and `dec` leave the latter alone. -/

variable (n : ℕ)

/-- `mov`. -/
def mov (src dst : Operand) (s : Cpu) : Cpu := s.write n dst (s.read n src)

/-- `add`. -/
def add (src dst : Operand) (s : Cpu) : Cpu :=
  let v := s.read n dst + s.read n src
  (s.write n dst v).flags (v == 0) ((s.read n dst).uaddOverflow (s.read n src))

/-- `sub`. -/
def sub (src dst : Operand) (s : Cpu) : Cpu :=
  let v := s.read n dst - s.read n src
  (s.write n dst v).flags (v == 0) (decide ((s.read n dst).toNat < (s.read n src).toNat))

/-- `cmp`. -/
def cmp (src dst : Operand) (s : Cpu) : Cpu :=
  s.flags (s.read n dst == s.read n src) (decide ((s.read n dst).toNat < (s.read n src).toNat))

/-- `test`. -/
def test (src dst : Operand) (s : Cpu) : Cpu := s.flags (s.read n dst &&& s.read n src == 0) false

/-- `and`. -/
def and (src dst : Operand) (s : Cpu) : Cpu :=
  let v := s.read n dst &&& s.read n src
  (s.write n dst v).flags (v == 0) false

/-- `or`. -/
def or (src dst : Operand) (s : Cpu) : Cpu :=
  let v := s.read n dst ||| s.read n src
  (s.write n dst v).flags (v == 0) false

/-- `xor`. -/
def xor (src dst : Operand) (s : Cpu) : Cpu :=
  let v := s.read n dst ^^^ s.read n src
  (s.write n dst v).flags (v == 0) false

/-- `inc`. -/
def inc (dst : Operand) (s : Cpu) : Cpu :=
  let v := s.read n dst + 1
  (s.write n dst v).flags (v == 0) s.cf

/-- `dec`. -/
def dec (dst : Operand) (s : Cpu) : Cpu :=
  let v := s.read n dst - 1
  (s.write n dst v).flags (v == 0) s.cf

/-- `shl $k` for `0 < k < n`. -/
def shl (k : ℕ) (dst : Operand) (s : Cpu) : Cpu :=
  let v := s.read n dst <<< k
  (s.write n dst v).flags (v == 0) ((s.read n dst).getLsbD (n - k))

/-- `shr $k` for `0 < k < n`. -/
def shr (k : ℕ) (dst : Operand) (s : Cpu) : Cpu :=
  let v := s.read n dst >>> k
  (s.write n dst v).flags (v == 0) ((s.read n dst).getLsbD (k - 1))

/-- `not`. -/
def not (dst : Operand) (s : Cpu) : Cpu := s.write n dst (~~~s.read n dst)

/-- `movzwl`. -/
def movzwl (src dst : Operand) (s : Cpu) : Cpu := s.write 32 dst ((s.read 16 src).setWidth 32)

/-- The stack pointer. -/
def Cpu.sp (s : Cpu) : BitVec 16 := s.esp.setWidth 16

/-- Push a word. -/
def Cpu.push (s : Cpu) (v : BitVec 16) : Cpu :=
  (s.setReg .esp (withLow 16 s.esp (s.sp - 2#16))).setMem (st s.ss 2 (s.sp - 2#16) v.toNat s.mem)

/-- `pushw`. -/
def pushw (src : Operand) (s : Cpu) : Cpu := s.push (s.read 16 src)

/-- `popw`. -/
def popw (dst : Operand) (s : Cpu) : Cpu :=
  (s.setReg .esp (withLow 16 s.esp (s.sp + 2#16))).write 16 dst (.ofNat 16 (ld s.mem s.ss 2 s.sp))

/-- `movw %ax, %ds`. -/
def movDs (s : Cpu) : Cpu := { s with ds := s.eax.setWidth 16 }

/-- `movw %ax, %es`. -/
def movEs (s : Cpu) : Cpu := { s with es := s.eax.setWidth 16 }

/-- `movw %ax, %ss`. -/
def movSs (s : Cpu) : Cpu := { s with ss := s.eax.setWidth 16 }

/-- `lodsb` with the direction flag clear. -/
def lodsb (s : Cpu) : Cpu :=
  (mov 8 (.ind .esi) (.reg .eax) s).setReg .esi (withLow 16 s.esi (s.esi.setWidth 16 + 1#16))

/-- `inb %dx, %al`. -/
def inb (s : Cpu) : Cpu := { s with toCpu := X86.inb s.toCpu }

/-- `outb %al, %dx`. -/
def outb (s : Cpu) : Cpu := { s with toCpu := X86.outb s.toCpu }

/-- `outb %al, $port`. -/
def outbTo (port : ℕ) (s : Cpu) : Cpu :=
  { s with outs := s.outs ++ [(port, .ofNat (s.read 8 ax).toNat)] }

/-- `int $v`. -/
def int (fw : Firmware) (v : ℕ) (s : Cpu) : Cpu :=
  { fw v s with calls := s.calls ++ [⟨v, s.ds, s.toCpu, (fw v s).toCpu⟩] }

/-! ### Programs -/

/-- An instruction in a program whose labels are `L`. -/
inductive Instr (L : Type) where
  | op (f : Cpu → Cpu)
  | jcc (c : Cpu → Bool) (l : L)
  | jmp (l : L)
  | call (l : L)
  | ret

/-- The instructions between a label and the next one. -/
structure Block (L : Type) where
  body : List (Instr L)
  next : L

/-- Where the labels of a program are placed in the code segment. -/
structure Link (L : Type) where
  addr : L → BitVec 16
  label : BitVec 16 → L
  label_addr : ∀ l, label (addr l) = l

variable {L : Type}

/-- `je`, `jz`. -/
def je (l : L) : Instr L := .jcc (fun s => s.zf) l
/-- `jne`, `jnz`. -/
def jne (l : L) : Instr L := .jcc (fun s => !s.zf) l
/-- `jb`, `jc`. -/
def jb (l : L) : Instr L := .jcc (fun s => s.cf) l
/-- `jae`, `jnc`. -/
def jae (l : L) : Instr L := .jcc (fun s => !s.cf) l
/-- `jbe`. -/
def jbe (l : L) : Instr L := .jcc (fun s => s.cf || s.zf) l

/-- Run the rest of a block. -/
def runBlock (k : Link L) (next : L) : List (Instr L) → Cpu → L × Cpu
  | [], s => (next, s)
  | .op f :: is, s => runBlock k next is (f s)
  | .jcc c l :: is, s => if c s then (l, s) else runBlock k next is s
  | .jmp l :: _, s => (l, s)
  | .call l :: _, s => (l, s.push (k.addr next))
  | .ret :: _, s =>
    (k.label (.ofNat 16 (ld s.mem s.ss 2 s.sp)),
      s.setReg .esp (withLow 16 s.esp (s.sp + 2#16)))

/-- One block of a program; labels without a block end the run. -/
def step (k : Link L) (code : L → Option (Block L)) (x : L × Cpu) : Option (L × Cpu) :=
  (code x.1).map fun b => runBlock k b.next b.body x.2

/-- **Running one block.** -/
theorem leadsTo_block {k : Link L} {code : L → Option (Block L)} {l : L} {s : Cpu} {b : Block L}
    {Q : L × Cpu → Prop} (h : code l = some b)
    (hb : LeadsTo (step k code) (runBlock k b.next b.body s) Q) :
    LeadsTo (step k code) (l, s) Q :=
  .head (by simp [step, h]) hb

/-! ### Accesses that do not wrap -/

section Access

variable {m : Memory} {seg off : BitVec 16} {w v : ℕ}

theorem lin_succ (h : off.toNat + 1 < 65536) : lin seg (off + 1#16) = lin seg off + 1 := by
  rw [lin, lin, BitVec.toNat_add, Nat.mod_eq_of_lt (by simpa using h)]
  rfl

theorem ld_eq_load (h : off.toNat + w ≤ 65536) : ld m seg w off = m.load w (lin seg off) := by
  induction w generalizing off with
  | zero => rfl
  | succ w ih =>
    have hbytes :
        m.bytes (lin seg off) (w + 1) = m (lin seg off) :: m.bytes (lin seg off + 1) w := by
      rw [Memory.bytes, List.range_succ_eq_map, List.map_cons, List.map_map, Nat.add_zero]
      refine congrArg (m (lin seg off) :: ·) (List.map_congr_left fun i _ => ?_)
      rw [Function.comp_apply, Nat.succ_eq_add_one, Nat.add_right_comm, Nat.add_assoc]
    rw [ld, Memory.load, hbytes, leNat_cons]
    cases w with
    | zero => rfl
    | succ w =>
      have hnext : (off + 1#16).toNat = off.toNat + 1 := by
        rw [BitVec.toNat_add, Nat.mod_eq_of_lt (by simp; omega)]
        rfl
      rw [ih (by omega), lin_succ (by omega)]
      rfl

theorem write_cons (m : Memory) (a : ℕ) (b : UInt8) (bs : List UInt8) :
    m.write a (b :: bs) = Memory.write (Function.update m a b) (a + 1) bs := by
  funext x
  rcases Nat.lt_trichotomy x a with h | rfl | h
  · rw [Memory.write, Memory.write, if_neg (by omega), if_neg (by omega),
      Function.update_of_ne (by omega)]
  · rw [Memory.write, Memory.write, if_pos (Nat.le_refl _), if_neg (by omega), Nat.sub_self,
      Function.update_self]
    rfl
  · obtain ⟨i, rfl⟩ := Nat.exists_eq_add_of_lt h
    rw [Memory.write, Memory.write, if_pos (by omega), if_pos (by omega),
      Function.update_of_ne (by omega), show a + i + 1 - a = i + 1 by omega,
      show a + i + 1 - (a + 1) = i by omega, List.getElem?_cons_succ]

theorem st_eq_store (h : off.toNat + w ≤ 65536) :
    st seg w off v m = m.store w (lin seg off) v := by
  induction w generalizing off v m with
  | zero =>
    funext x
    simp [st, Memory.store, Memory.write, leBytes]
  | succ w ih =>
    rw [st, Memory.store, leBytes, write_cons]
    cases w with
    | zero =>
      funext x
      simp [st, Memory.write, leBytes]
    | succ w =>
      have hnext : (off + 1#16).toNat = off.toNat + 1 := by
        rw [BitVec.toNat_add, Nat.mod_eq_of_lt (by simp; omega)]
        rfl
      rw [ih (by omega), lin_succ (by omega)]
      rfl

/-- A pushed word is popped, wherever the stack is. -/
theorem ld_st_two (m : Memory) (seg off : BitVec 16) (v : BitVec 16) :
    BitVec.ofNat 16 (ld (st seg 2 off v.toNat m) seg 2 off) = v := by
  have hne : lin seg off ≠ lin seg (off + 1#16) := by
    rw [lin, lin]
    bv_omega
  have hv := v.isLt
  apply BitVec.eq_of_toNat_eq
  simp only [ld, st, Function.update_self, Function.update_of_ne hne, UInt8.toNat_ofNat',
    BitVec.toNat_ofNat]
  omega

theorem toNat_withLow {n : ℕ} (hn : n ≤ 32) (old : BitVec 32) (b : BitVec n) :
    (withLow n old b).toNat = b.toNat + old.toNat / 2 ^ n * 2 ^ n := by
  have hrest : old.toNat - old.toNat % 2 ^ n = old.toNat / 2 ^ n * 2 ^ n := by
    have := Nat.div_add_mod' old.toNat (2 ^ n)
    omega
  have hsplit : 2 ^ (32 - n) * 2 ^ n = 2 ^ 32 := Nat.pow_sub_mul_pow 2 hn
  have hquot : old.toNat / 2 ^ n < 2 ^ (32 - n) :=
    Nat.div_lt_of_lt_mul (by rw [Nat.mul_comm, hsplit]; exact old.isLt)
  have hlt : b.toNat + old.toNat / 2 ^ n * 2 ^ n < 2 ^ 32 := calc
    b.toNat + old.toNat / 2 ^ n * 2 ^ n < 2 ^ n + old.toNat / 2 ^ n * 2 ^ n :=
      Nat.add_lt_add_right b.isLt _
    _ = (old.toNat / 2 ^ n + 1) * 2 ^ n := by rw [Nat.succ_mul, Nat.add_comm]
    _ ≤ 2 ^ (32 - n) * 2 ^ n := Nat.mul_le_mul_right _ hquot
    _ = 2 ^ 32 := hsplit
  rw [withLow, hrest, BitVec.toNat_ofNat, Nat.mod_eq_of_lt hlt]

@[simp] theorem setWidth_withLow_8 (old : BitVec 32) (b : BitVec 8) :
    (withLow 8 old b).setWidth 8 = b := by
  apply BitVec.eq_of_toNat_eq
  have := b.isLt
  rw [BitVec.toNat_setWidth, toNat_withLow (by decide)]
  omega

@[simp] theorem setWidth_withLow_16 (old : BitVec 32) (b : BitVec 16) :
    (withLow 16 old b).setWidth 16 = b := by
  apply BitVec.eq_of_toNat_eq
  have := b.isLt
  rw [BitVec.toNat_setWidth, toNat_withLow (by decide)]
  omega

@[simp] theorem setWidth_8_withLow_16 (old : BitVec 32) (b : BitVec 16) :
    (withLow 16 old b).setWidth 8 = b.setWidth 8 := by
  apply BitVec.eq_of_toNat_eq
  rw [BitVec.toNat_setWidth, BitVec.toNat_setWidth, toNat_withLow (by decide)]
  omega

@[simp] theorem withLow_32 (old v : BitVec 32) : withLow 32 old v = v := by
  apply BitVec.eq_of_toNat_eq
  have := old.isLt
  rw [toNat_withLow (by decide)]
  omega

/-- The second byte after it has been set. -/
@[simp] theorem toNat_withHigh_div (old : BitVec 32) (b : ℕ) :
    (withHigh old b).toNat / 256 % 256 = b % 256 := by
  have := old.isLt
  rw [withHigh, BitVec.toNat_ofNat]
  omega

/-- The low byte of a register whose second byte is replaced. -/
theorem setWidth_withHigh (old : BitVec 32) (v : ℕ) :
    (withHigh old v).setWidth 8 = old.setWidth 8 := by
  apply BitVec.eq_of_toNat_eq
  have := old.isLt
  rw [BitVec.toNat_setWidth, BitVec.toNat_setWidth, withHigh, BitVec.toNat_ofNat]
  omega

/-! Offsets and segments are often known as numbers. -/

theorem lin_zero {a : ℕ} (h : a < 65536) : lin 0#16 (.ofNat 16 a) = a := by
  have hoff : (BitVec.ofNat 16 a).toNat = a := by rw [BitVec.toNat_ofNat, Nat.mod_eq_of_lt h]
  rw [lin, hoff]
  exact Nat.zero_add a

theorem ld_zero {a : ℕ} (h : a < 65536) (h' : a + w ≤ 65536) :
    ld m 0#16 w (.ofNat 16 a) = m.load w a := by
  rw [ld_eq_load (by rw [BitVec.toNat_ofNat, Nat.mod_eq_of_lt h]; exact h'), lin_zero h]

theorem st_zero {a : ℕ} (h : a < 65536) (h' : a + w ≤ 65536) :
    st 0#16 w (.ofNat 16 a) v m = m.store w a v := by
  rw [st_eq_store (by rw [BitVec.toNat_ofNat, Nat.mod_eq_of_lt h]; exact h'), lin_zero h]

theorem ofNat_sub_two {p : ℕ} : BitVec.ofNat 16 (p + 2) - 2#16 = .ofNat 16 p := by
  apply BitVec.eq_of_toNat_eq
  rw [BitVec.toNat_sub, BitVec.toNat_ofNat, BitVec.toNat_ofNat, BitVec.toNat_ofNat]
  omega

theorem ofNat_add_two (p : ℕ) : BitVec.ofNat 16 p + 2#16 = .ofNat 16 (p + 2) :=
  (BitVec.ofNat_add p 2).symm

end Access

/-! ### Calls -/

section Calls

open Memory

variable {k : Link L} {l : L} {p : ℕ} {s : Cpu}

/-- A routine has been entered with the stack pointer at `p` in segment zero, from where it will
return to `l`. -/
structure Called (k : Link L) (l : L) (p : ℕ) (s : Cpu) : Prop where
  ss : s.ss = 0#16
  sp : s.sp = .ofNat 16 p
  ret : s.mem.load 2 p = (k.addr l).toNat
  lt : p + 2 < 65536

/-- The state right after a `call`. -/
theorem mem_push {v : BitVec 16} (hss : s.ss = 0#16) (hsp : s.sp = .ofNat 16 (p + 2))
    (hlt : p + 2 < 65536) : (s.push v).mem = s.mem.store 2 p v.toNat := by
  simp only [Cpu.push, Cpu.setMem, Cpu.setReg, X86.Cpu.set, hss, hsp, ofNat_sub_two]
  exact st_zero (by omega) (by omega)

theorem sp_push {v : BitVec 16} (hsp : s.sp = .ofNat 16 (p + 2)) :
    (s.push v).sp = .ofNat 16 p := by
  have hsp' : s.esp.setWidth 16 = .ofNat 16 (p + 2) := hsp
  simp only [Cpu.push, Cpu.sp, Cpu.setMem, Cpu.setReg, X86.Cpu.set, setWidth_withLow_16, hsp',
    ofNat_sub_two]

theorem called_push (hss : s.ss = 0#16) (hsp : s.sp = .ofNat 16 (p + 2)) (hlt : p + 2 < 65536) :
    Called k l p (s.push (k.addr l)) where
  ss := hss
  sp := sp_push hsp
  ret := by rw [mem_push hss hsp hlt]; exact load_store_self (k.addr l).isLt
  lt := hlt

/-- The label a routine returns to. -/
theorem Called.label_eq (h : Called k l p s) : k.label (.ofNat 16 (ld s.mem s.ss 2 s.sp)) = l := by
  have hlt := h.lt
  rw [h.ss, h.sp, ld_zero (by omega) (by omega), h.ret, BitVec.ofNat_toNat, BitVec.setWidth_eq,
    k.label_addr]

/-- The return address is still there after writes elsewhere. -/
theorem Called.of_mem {s' : Cpu} (h : Called k l p s) (hss : s'.ss = s.ss) (hsp : s'.sp = s.sp)
    (hmem : ∀ x, p ≤ x → s'.mem x = s.mem x) : Called k l p s' where
  ss := hss.trans h.ss
  sp := hsp.trans h.sp
  ret := by rw [load_congr fun i _ => hmem (p + i) (Nat.le_add_right p i), h.ret]
  lt := h.lt

variable {lo : ℕ} {s' : Cpu} {f : L × Cpu → Option (L × Cpu)}

/-- From `s` to `s'` only the stack between `lo` and `top` has changed, and of the registers `ds`,
`ss` and `edi` have not. The stack pointer is `p`. -/
structure Stacked (lo top p : ℕ) (s s' : Cpu) : Prop where
  ds : s'.ds = s.ds
  ss : s'.ss = s.ss
  edi : s'.edi = s.edi
  calls : s'.calls = s.calls
  sp : s'.sp = .ofNat 16 p
  mem : ∀ x, x < lo ∨ top ≤ x → s'.mem x = s.mem x

/-- The stack pointer is back, and only the stack below it has changed. -/
abbrev Balanced (lo p : ℕ) (s s' : Cpu) : Prop := Stacked lo p p s s'

variable {top : ℕ} {s'' : Cpu}

theorem Stacked.balanced (h : Stacked lo top p s s') (h' : Balanced lo p s' s'') (hp : p ≤ top) :
    Stacked lo top p s s'' :=
  ⟨h'.ds.trans h.ds, h'.ss.trans h.ss, h'.edi.trans h.edi, h'.calls.trans h.calls, h'.sp,
    fun x hx => (h'.mem x (by omega)).trans (h.mem x hx)⟩

theorem Stacked.push {v : BitVec 16} (h : Stacked lo top (p + 2) s s') (hss : s.ss = 0#16)
    (hlow : lo ≤ p) (hp : p + 2 ≤ top) (hlt : p + 2 < 65536) : Stacked lo top p s (s'.push v) := by
  refine ⟨h.ds, h.ss, h.edi, h.calls, sp_push h.sp, fun x hx => ?_⟩
  rw [mem_push (h.ss.trans hss) h.sp hlt]
  refine (eqOutside_store _ _ _ _ x ?_).trans (h.mem x hx)
  simp only [outside_cons, outside_nil, and_true]
  omega

theorem Stacked.popw {r : Reg} (h : Stacked lo top p s s') (hesp : r ≠ .esp) (hedi : r ≠ .edi) :
    Stacked lo top (p + 2) s (popw (.reg r) s') := by
  have hsp : s'.esp.setWidth 16 = .ofNat 16 p := h.sp
  have hmem : (Real.popw (.reg r) s').mem = s'.mem := by cases r <;> rfl
  refine ⟨h.ds, h.ss, ?_, h.calls, ?_, hmem ▸ h.mem⟩
  · cases r with
    | edi => exact absurd rfl hedi
    | _ => exact h.edi
  · cases r with
    | esp => exact absurd rfl hesp
    | _ => simp only [Real.popw, Cpu.write, Cpu.setReg, X86.Cpu.set, Cpu.sp, setWidth_withLow_16,
        hsp, ofNat_add_two]

/-- A routine that returns with the stack as it was has been called with the stack pointer at
`p + 2`. -/
theorem Balanced.of_push {v : BitVec 16} (hss : s.ss = 0#16) (hsp : s.sp = .ofNat 16 (p + 2))
    (hlow : lo ≤ p) (hlt : p + 2 < 65536) (h : Balanced lo (p + 2) (s.push v) s') :
    Balanced lo (p + 2) s s' := by
  refine ⟨h.ds, h.ss, h.edi, h.calls, h.sp, fun x hx => (h.mem x hx).trans ?_⟩
  rw [mem_push hss hsp hlt]
  refine eqOutside_store _ _ _ _ x ?_
  simp only [outside_cons, outside_nil, and_true]
  omega

/-- **A call.** -/
theorem leadsTo_call {r n : L} (hss : s.ss = 0#16) (hsp : s.sp = .ofNat 16 (p + 2)) (hlow : lo ≤ p)
    (hlt : p + 2 < 65536)
    (hr : ∀ {s : Cpu}, Called k n p s →
      LeadsTo f (r, s) fun x => x.1 = n ∧ Balanced lo (p + 2) s x.2) :
    LeadsTo f (r, s.push (k.addr n)) fun x => x.1 = n ∧ Balanced lo (p + 2) s x.2 := by
  refine (hr (called_push hss hsp hlt)).mono ?_
  rintro ⟨_, s₁⟩ ⟨rfl, h⟩
  exact ⟨rfl, Balanced.of_push hss hsp hlow hlt h⟩

/-- A return: the routine was entered in `s` and has kept the stack at and above its return
address. -/
theorem balanced_ret (n : L) (h : Called k l p s) (ht : Balanced lo p s s') :
    (runBlock k n [.ret] s').1 = l ∧ Balanced lo (p + 2) s (runBlock k n [.ret] s').2 := by
  have hback : Called k l p s' :=
    h.of_mem ht.ss (ht.sp.trans h.sp.symm) fun x hx => ht.mem x (.inr hx)
  have hsp : s'.esp.setWidth 16 = .ofNat 16 p := ht.sp
  refine ⟨hback.label_eq, ht.ds, ht.ss, ht.edi, ht.calls, ?_, fun x hx => ht.mem x (by omega)⟩
  simp only [runBlock, Cpu.setReg, X86.Cpu.set, Cpu.sp, setWidth_withLow_16, hsp, ofNat_add_two]

/-- **A return** that stands alone. -/
theorem leadsTo_ret {code : L → Option (Block L)} {b : Block L} {r : L} (hcode : code r = some b)
    (hret : b.body = [.ret]) (h : Called k l p s) (ht : Balanced lo p s s') :
    LeadsTo (step k code) (r, s') fun x => x.1 = l ∧ Balanced lo (p + 2) s x.2 := by
  refine leadsTo_block hcode (.now ?_)
  rw [hret]
  exact balanced_ret b.next h ht

end Calls

end Real
