import Qizo.Boot.A20
import Qizo.Lib.X64Stack

/-!
# The check of the processor

The part of the 16-bit code of the second stage between the probe of the A20 gate and the memory
map, from `a20_done` to `e820_start`. Two checks: the interrupt flag can be changed, and the
processor has long mode. The highest leaf of `cpuid` goes to bootinfo.

The first check needs a flags register, of which the machine elsewhere only has the two bits that
jumps look at. `pushfl` and `popfl` move a double word, but only its low word is popped and pushed
in between: the high word stays on the stack, and so does, in the end, one word of the second
`pushfl`.

Between `popfl` and `cli` interrupts are on. An interrupt there is the firmware's, and it is taken
to leave everything as it was.

## Main results

* `flipped_spec` — the first check passes
* `leadsTo_checked` — where the checks end, and what they leave
-/

namespace Qizo

namespace CpuCheck

open Real Operand StateTransition ByteString Memory

/-! ### The flags register -/

/-- The machine with its flags register, in which only the bits of `cpu` may be out of date. -/
structure Flagged where
  cpu : Cpu
  flags : BitVec 32

namespace Flagged

variable (s : Flagged)

/-- An instruction that leaves the other flags alone. -/
def op (f : Cpu → Cpu) : Flagged := { s with cpu := f s.cpu }

/-- The flags register: the carry flag is bit 0 and the zero flag is bit 6. -/
def word : BitVec 32 :=
  s.flags &&& ~~~0x41#32 ||| (if s.cpu.cf then 0x01#32 else 0) ||| (if s.cpu.zf then 0x40#32 else 0)

/-- `pushfl`. -/
def pushfl : Flagged :=
  s.op fun c => (c.setReg .esp (withLow 16 c.esp (c.sp - 4#16))).setMem
    (st c.ss 4 (c.sp - 4#16) s.word.toNat c.mem)

/-- `popfl`. -/
def popfl : Flagged :=
  let v := BitVec.ofNat 32 (ld s.cpu.mem s.cpu.ss 4 s.cpu.sp)
  { cpu := (s.cpu.setReg .esp (withLow 16 s.cpu.esp (s.cpu.sp + 4#16))).flags (v.getLsbD 6)
      (v.getLsbD 0)
    flags := v }

/-- `cli`, which clears bit 9. -/
def cli : Flagged := { s with flags := s.flags &&& ~~~0x200#32 }

end Flagged

/-- `cpuid` on the processor `p`. -/
def cpuid (p : X64.Processor) (s : Cpu) : Cpu :=
  let a := p s.eax s.ecx
  (((s.setReg .eax a.eax).setReg .ebx a.ebx).setReg .ecx a.ecx).setReg .edx a.edx

/-! ### The code -/

/-- The labels from `a20_done` on. -/
inductive Label where
  | a20Done | failNocpu | failNoflags | e820Start | qizoFail16
  deriving DecidableEq, Repr

open Label

/-- `fail_nocpu` and `fail_noflags`: record the code. -/
def failWith (code : ℕ) (s : Flagged) : Label × Flagged :=
  (qizoFail16, s.op (mov 8 (imm code) (absEs biErr)))

/-- The interrupt flag is changed, and read back. -/
def flipped (s : Flagged) : Flagged :=
  let s := s.pushfl
  let s := s.op (popw ax)
  let s := s.op (Real.xor 16 (imm 0x200) ax)
  let s := s.op (pushw ax)
  let s := s.popfl
  let s := s.pushfl
  let s := s.op (popw ax)
  s.op (Real.test 16 (imm 0x200) ax)

/-- Both leaves of `cpuid` have been looked at. -/
def asked (p : X64.Processor) (s : Flagged) : Flagged :=
  let s := s.cli
  let s := s.op (Real.xor 32 ax ax)
  let s := s.op (cpuid p)
  let s := s.op (mov 32 ax (absEs biCpuidMax))
  let s := s.op (mov 32 (imm 0x80000001) ax)
  let s := s.op (cpuid p)
  s.op (Real.test 32 (imm 0x20000000) dx)

/-- One label of the code. -/
def step (p : X64.Processor) (x : Label × Flagged) : Option (Label × Flagged) :=
  match x.1 with
  | a20Done =>
    let s := flipped x.2
    if s.cpu.zf then some (failNoflags, s)
    else
      let s := asked p s
      if s.cpu.zf then some (failNocpu, s)
      else some (e820Start, s.op (mov 8 (imm 1) (absEs biLongmode)))
  | failNocpu => some (failWith 0x12 x.2)
  | failNoflags => some (failWith 0x13 x.2)
  | e820Start => none
  | qizoFail16 => none

variable {p : X64.Processor} {s s' : Flagged} {a : ℕ}

/-! ### The stack -/

/-- The state with the stack pointer at `a` in segment zero, memory `m` and flags `f`. -/
structure At (a : ℕ) (m : Memory) (f : BitVec 32) (s : Flagged) : Prop where
  ss : s.cpu.ss = 0#16
  es : s.cpu.es = .ofNat 16 bootinfoSeg
  sp : s.cpu.esp.setWidth 16 = .ofNat 16 a
  mem : s.cpu.mem = m
  flags : s.flags = f

variable {m : Memory} {f : BitVec 32}

theorem At.pushfl (h : At (a + 4) m f s) (ha : a + 4 < 65536) :
    At a (m.store 4 a s.word.toNat) f s.pushfl := by
  have hsub : BitVec.ofNat 16 (a + 4) - 4#16 = .ofNat 16 a := by
    apply BitVec.eq_of_toNat_eq
    rw [BitVec.toNat_sub, BitVec.toNat_ofNat, BitVec.toNat_ofNat, BitVec.toNat_ofNat]
    omega
  refine ⟨h.ss, h.es, ?_, ?_, h.flags⟩
  · simp only [Flagged.pushfl, Flagged.op, Cpu.setReg, Cpu.setMem, X86.Cpu.set, Cpu.sp, h.sp, hsub,
      setWidth_withLow_16]
  · simp only [Flagged.pushfl, Flagged.op, Cpu.setReg, Cpu.setMem, X86.Cpu.set, Cpu.sp, h.sp, hsub,
      h.ss, h.mem]
    exact st_zero (by omega) (by omega)

theorem At.popfl (h : At a m f s) (ha : a + 4 < 65536) :
    At (a + 4) m (.ofNat 32 (m.load 4 a)) s.popfl ∧
      s.popfl.cpu.zf = (BitVec.ofNat 32 (m.load 4 a)).getLsbD 6 ∧
      s.popfl.cpu.cf = (BitVec.ofNat 32 (m.load 4 a)).getLsbD 0 := by
  have hadd : BitVec.ofNat 16 a + 4#16 = .ofNat 16 (a + 4) := (BitVec.ofNat_add a 4).symm
  have hld : ld m 0#16 4 (.ofNat 16 a) = m.load 4 a := ld_zero (by omega) (by omega)
  simp only [Flagged.popfl, Cpu.flags, Cpu.setReg, X86.Cpu.set, Cpu.sp, h.sp, h.ss, h.mem, hld,
    hadd]
  exact ⟨⟨rfl, h.es, setWidth_withLow_16 _ _, rfl, rfl⟩, trivial, trivial⟩

theorem At.popw (h : At a m f s) (ha : a + 2 < 65536) :
    At (a + 2) m f (s.op (popw ax)) ∧
      (s.op (popw ax)).cpu.eax.setWidth 16 = .ofNat 16 (m.load 2 a) := by
  have hadd := ofNat_add_two a
  have hld : ld m 0#16 2 (.ofNat 16 a) = m.load 2 a := ld_zero (by omega) (by omega)
  simp only [Flagged.op, Real.popw, Cpu.write, Cpu.setReg, X86.Cpu.set, X86.Cpu.get, Cpu.sp, h.sp,
    h.ss, h.mem, hld, hadd, setWidth_withLow_16]
  exact ⟨⟨rfl, h.es, setWidth_withLow_16 _ _, rfl, h.flags⟩, trivial⟩

theorem At.pushw (h : At (a + 2) m f s) (ha : a + 2 < 65536) :
    At a (m.store 2 a (s.cpu.eax.setWidth 16).toNat) f (s.op (pushw ax)) := by
  have hsub := @ofNat_sub_two a
  refine ⟨h.ss, h.es, ?_, ?_, h.flags⟩
  · simp only [Flagged.op, Real.pushw, Cpu.push, Cpu.setReg, Cpu.setMem, X86.Cpu.set, Cpu.sp, h.sp,
      hsub, setWidth_withLow_16]
  · simp only [Flagged.op, Real.pushw, Cpu.push, Cpu.read, Cpu.setReg, Cpu.setMem, X86.Cpu.set,
      X86.Cpu.get, Cpu.sp, h.sp, hsub, h.ss, h.mem]
    exact st_zero (by omega) (by omega)

theorem At.test (h : At a m f s) (n : ℕ) (src dst : Operand) :
    At a m f (s.op (Real.test n src dst)) := ⟨h.ss, h.es, h.sp, h.mem, h.flags⟩

/-- A byte for bootinfo. -/
theorem At.byte (h : At a m f s) {off v : ℕ} (hoff : off < 65536) (hv : v < 256) :
    At a (m.store 1 (bootinfo + off) v) f (s.op (mov 8 (imm v) (absEs off))) := by
  have hnum : (BitVec.ofNat 8 v).toNat = v := by rw [BitVec.toNat_ofNat, Nat.mod_eq_of_lt hv]
  refine ⟨h.ss, h.es, h.sp, ?_, h.flags⟩
  simp only [Flagged.op, mov, Cpu.read, Cpu.write, Cpu.setMem, h.es, h.mem, hnum]
  exact A20.st_bootinfo hoff (by omega)

/-! ### The interrupt flag -/

/-- The two bits of `cpu` are not the interrupt flag. -/
theorem getLsbD_word : s.word.getLsbD 9 = s.flags.getLsbD 9 := by
  rw [Flagged.word]
  cases s.cpu.cf <;> cases s.cpu.zf <;> simp

/-- A bit of the low word of a double word in memory. -/
theorem testBit_load_two (m : Memory) (a : ℕ) {i : ℕ} (hi : i < 16) :
    (m.load 2 a).testBit i = (m.load 4 a).testBit i := by
  have hlt : m.load 2 a < 2 ^ 16 := load_lt m 2 a
  have hlow : m.load 4 a % 2 ^ 16 = m.load 2 a := by
    rw [load_four, Nat.add_mul_mod_self_left, Nat.mod_eq_of_lt hlt]
  rw [← hlow, Nat.testBit_mod_two_pow, decide_eq_true hi, Bool.true_and]

/-- **The interrupt flag can be changed**: it was clear, and it reads as set. -/
theorem flipped_spec (h : At 0x8FF0 m f s) (hf : f.getLsbD 9 = false) :
    ∃ m' f', At 0x8FEE m' f' (flipped s) ∧ (flipped s).cpu.zf = false ∧
      EqOutside m m' [(0x8FEC, 4)] := by
  have h₁ := At.pushfl (a := 0x8FEC) h (by decide)
  obtain ⟨h₂, hax₂⟩ := h₁.popw (by decide)
  set s₂ := s.pushfl.op (popw ax)
  have h₃ : At 0x8FEE _ f (s₂.op (Real.xor 16 (imm 0x200) ax)) :=
    ⟨h₂.ss, h₂.es, h₂.sp, h₂.mem, h₂.flags⟩
  have hax₃ : (s₂.op (Real.xor 16 (imm 0x200) ax)).cpu.eax.setWidth 16 =
      s₂.cpu.eax.setWidth 16 ^^^ 0x200#16 := setWidth_withLow_16 _ _
  have h₄ := At.pushw (a := 0x8FEC) h₃ (by decide)
  obtain ⟨h₅, -, -⟩ := h₄.popfl (by decide)
  have h₆ := At.pushfl (a := 0x8FEC) h₅ (by decide)
  obtain ⟨h₇, hax₇⟩ := h₆.popw (by decide)
  -- bit 9 on its way through the stack, there and back
  have hpushed : ((m.store 4 0x8FEC s.word.toNat).load 2 0x8FEC).testBit 9 = false := by
    rw [testBit_load_two _ _ (by decide), load_store_self s.word.isLt, BitVec.testBit_toNat,
      getLsbD_word, h.flags, hf]
  have htoggled : (s₂.cpu.eax.setWidth 16 ^^^ 0x200#16).getLsbD 9 = true := by
    rw [hax₂, BitVec.getLsbD_xor, BitVec.getLsbD_ofNat, hpushed]
    rfl
  rw [hax₃] at h₅ h₆ h₇ hax₇
  set v := s₂.cpu.eax.setWidth 16 ^^^ 0x200#16
  have hpopped : (BitVec.ofNat 32 (((m.store 4 0x8FEC s.word.toNat).store 2 0x8FEC v.toNat).load 4
      0x8FEC)).getLsbD 9 = true := by
    rw [BitVec.getLsbD_ofNat, ← testBit_load_two _ _ (by decide), load_store_self v.isLt,
      BitVec.testBit_toNat, htoggled]
    rfl
  set s₅ := ((s₂.op (Real.xor 16 (imm 0x200) ax)).op (pushw ax)).popfl
  have hread : ((s₅.pushfl.op (popw ax)).cpu.eax.setWidth 16).getLsbD 9 = true := by
    rw [hax₇, BitVec.getLsbD_ofNat, testBit_load_two _ _ (by decide), load_store_self s₅.word.isLt,
      BitVec.testBit_toNat, getLsbD_word, h₅.flags, hpopped]
    rfl
  have hend : flipped s = (s₅.pushfl.op (popw ax)).op (Real.test 16 (imm 0x200) ax) := rfl
  rw [hend]
  refine ⟨_, _, h₇.test _ _ _, ?_, ?_⟩
  · have hbit : ((s₅.pushfl.op (popw ax)).cpu.eax.setWidth 16 &&& 0x200#16).getLsbD 9 = true := by
      rw [BitVec.getLsbD_and, hread]
      rfl
    refine beq_eq_false_iff_ne.mpr fun hzero => ?_
    have hclear := congrArg (BitVec.getLsbD · 9) hzero
    exact Bool.noConfusion (hbit.symm.trans hclear)
  · refine (((EqOutside.refl m _).store fun x hx => ?_).store fun x hx => ?_).store fun x hx => ?_
    all_goals
      rw [outside_singleton] at hx
      omega

/-! ### Long mode -/

/-- The processor does not look at the subleaf for the two leaves that are asked for. -/
def Uniform (p : X64.Processor) : Prop :=
  ∀ c, p 0#32 c = p 0#32 0#32 ∧ p 0x80000001#32 c = p 0x80000001#32 0#32

/-- The processor has long mode. -/
def hasLongMode (p : X64.Processor) : Bool := (p 0x80000001#32 0#32).edx.getLsbD 29

theorem test_longMode (v : BitVec 32) : (v &&& 0x20000000#32 == 0) = !v.getLsbD 29 := by
  have hpow : 0x20000000#32 = BitVec.twoPow 32 29 := rfl
  rw [hpow, BitVec.and_twoPow]
  cases v.getLsbD 29 <;> rfl

/-- The answers of the processor. -/
theorem asked_spec (hp : Uniform p) (h : At a m f s) :
    ∃ f', At a (m.store 4 (bootinfo + biCpuidMax) (p 0 0).eax.toNat) f' (asked p s) ∧
      (asked p s).cpu.zf = !hasLongMode p := by
  have hzero : BitVec.ofNat 32 0 = 0#32 := rfl
  refine ⟨_, ⟨h.ss, h.es, h.sp, ?_, rfl⟩, ?_⟩
  · simp only [asked, Flagged.op, Flagged.cli, cpuid, mov, Real.xor, Real.test, Cpu.read, Cpu.write,
      Cpu.setMem, Cpu.setReg, Cpu.flags, X86.Cpu.get, X86.Cpu.set, withLow_32, BitVec.setWidth_eq,
      BitVec.xor_self, h.es, h.mem, (hp _).1]
    exact A20.st_bootinfo (by decide) (by decide)
  · simp only [asked, Flagged.op, Flagged.cli, cpuid, mov, Real.xor, Real.test, Cpu.read, Cpu.write,
      Cpu.setMem, Cpu.setReg, Cpu.flags, X86.Cpu.get, X86.Cpu.set, withLow_32, BitVec.setWidth_eq,
      (hp _).2]
    exact test_longMode _

/-- Memory with the fields of the processor, where `n` is the highest leaf. -/
def checkedMem (n : ℕ) (m : Memory) : Memory :=
  (m.store 4 (bootinfo + biCpuidMax) n).store 1 (bootinfo + biLongmode) 1

/-- **The checks**: they pass if the processor has long mode, and only then. -/
theorem leadsTo_checked (hp : Uniform p) (h : At 0x8FF0 m f s) (hf : f.getLsbD 9 = false) :
    LeadsTo (step p) (a20Done, s) fun x =>
      if hasLongMode p then
        x.1 = e820Start ∧ ∃ m' f', EqOutside m m' [(0x8FEC, 4)] ∧
          At 0x8FEE (checkedMem (p 0 0).eax.toNat m') f' x.2
      else x.1 = qizoFail16 ∧ x.2.cpu.mem.load 1 (bootinfo + biErr) = 0x12 := by
  obtain ⟨m', f₁, h₁, hset, hframe⟩ := flipped_spec h hf
  obtain ⟨f₂, h₂, hlong⟩ := asked_spec hp h₁
  have hstep : step p (a20Done, s) = if (asked p (flipped s)).cpu.zf
      then some (failNocpu, asked p (flipped s))
      else some (e820Start, (asked p (flipped s)).op (mov 8 (imm 1) (absEs biLongmode))) := by
    rw [step]
    dsimp only
    rw [hset, if_neg Bool.false_ne_true]
  rw [hlong] at hstep
  generalize asked p (flipped s) = t at hstep h₂
  cases hmode : hasLongMode p with
  | true =>
    rw [hmode] at hstep
    exact .head hstep (.now ⟨rfl, m', f₂, hframe, h₂.byte (by decide) (by decide)⟩)
  | false =>
    rw [hmode] at hstep
    refine .head hstep (.head (y := failWith 0x12 t) rfl (.now ⟨rfl, ?_⟩))
    rw [failWith, (h₂.byte (by decide) (by decide)).mem, load_store_self (by decide)]

end CpuCheck

end Qizo
