import Qizo.Boot.FaultTable
import Qizo.Lib.Amd64

/-!
# Exceptions on the way to the kernel

From the switch to long mode to the installation of the kernel's own table, exceptions go to the
handlers in section `.qizo_fault` of `boot/stage2.S`. They report on the serial port, one digit
after the other, and stop. The port is polled for as long as a counter lasts, so that a line that
never becomes ready delays the report and does not lose it.

## Main results

* `leadsTo_faultPutc`, `leadsTo_faultHex16` — the two routines
* `fault_report` — every exception is reported in full, whatever the line status is
-/

namespace Qizo

namespace Fault

open Amd64 Reg Operand StateTransition
open X64 (ld64 st64)

/-! ### Code -/

/-- The labels of the section, with names for the places calls return to. -/
inductive Label where
  | fstub (v : Fin 32) | common | vectorOut | codeOut | ripOut | cr2Out | stopped
  | putc | poll | send | hex16 | digit | below10 | emit | digitBack | outside
  deriving DecidableEq, Repr

/-- The vectors for which `QIZO_FSTUB` pushes no zero. -/
def fstubHasCode (v : ℕ) : Bool := v ∈ [8, 10, 11, 12, 13, 14, 17, 21, 29, 30]

/-- The code of the section. `stopped` is the loop around `hlt`, with interrupts off. -/
def code : Label → Option (Block Label)
  | .fstub v => some ⟨(if fstubHasCode v then [] else [.op (pushq (imm 0))]) ++
      [.op (pushq (imm v)), .jmp .common], .common⟩
  | .common => some ⟨[.op cli, .op (mov 32 (imm 0x46) r8), .call .putc], .vectorOut⟩
  | .vectorOut => some ⟨[.op (mov 64 (ind 0 rsp) r9), .call .hex16], .codeOut⟩
  | .codeOut => some ⟨[.op (mov 64 (ind 8 rsp) r9), .call .hex16], .ripOut⟩
  | .ripOut => some ⟨[.op (mov 64 (ind 16 rsp) r9), .call .hex16], .cr2Out⟩
  | .cr2Out => some ⟨[.op (movCr2 r9), .call .hex16], .stopped⟩
  | .putc => some ⟨
      [.op (pushq rcx),
       .op (pushq rdx),
       .op (mov 32 (imm 0x3FD) rdx),
       .op (mov 32 (imm 4000000) rcx)], .poll⟩
  | .poll => some ⟨
      [.op inb,
       .op (test 8 (imm 0x20) rax),
       jnz .send,
       .op (dec 32 rcx),
       jnz .poll], .send⟩
  | .send => some ⟨
      [.op (mov 8 r8 rax),
       .op (mov 32 (imm 0x3F8) rdx),
       .op outb,
       .op (popq rdx),
       .op (popq rcx),
       .ret], .hex16⟩
  | .hex16 => some ⟨
      [.op (pushq rcx),
       .op (pushq r10),
       .op (mov 32 (imm 60) r10)], .digit⟩
  | .digit => some ⟨
      [.op (mov 64 r9 rax),
       .op (mov 32 r10 rcx),
       .op (shrCl 64 rax),
       .op (Amd64.and 32 (imm 15) rax),
       .op (cmp 32 (imm 10) rax),
       jb .below10,
       .op (add 32 (imm 0x37) rax),
       .jmp .emit], .below10⟩
  | .below10 => some ⟨[.op (add 32 (imm 0x30) rax)], .emit⟩
  | .emit => some ⟨[.op (mov 32 rax r8), .call .putc], .digitBack⟩
  | .digitBack => some ⟨
      [.op (sub 32 (imm 4) r10),
       jns .digit,
       .op (popq r10),
       .op (popq rcx),
       .ret], .outside⟩
  | .stopped | .outside => none

/-! ### Numbers in hexadecimal -/

/-- The character of a digit. -/
def hexDigit (d : ℕ) : UInt8 := .ofNat (if d < 10 then 0x30 + d else 0x37 + d)

/-- The last `n` digits of `v`. -/
def hexDigits : (n v : ℕ) → List UInt8
  | 0, _ => []
  | n + 1, v => hexDigits n (v / 16) ++ [hexDigit (v % 16)]

/-- The digit a character stands for, if it is one of `0` to `9` and `A` to `F`. -/
def hexValue (c : UInt8) : Option ℕ :=
  if 0x30 ≤ c ∧ c ≤ 0x39 then some (c.toNat - 0x30)
  else if 0x41 ≤ c ∧ c ≤ 0x46 then some (c.toNat - 0x37)
  else none

/-- The number digits stand for. -/
def ofHex (cs : List UInt8) : Option ℕ := cs.foldlM (fun n c => (hexValue c).map (16 * n + ·)) 0

@[simp] theorem length_hexDigits (n v : ℕ) : (hexDigits n v).length = n := by
  induction n generalizing v with
  | zero => rfl
  | succ n ih => rw [hexDigits, List.length_append, ih, List.length_singleton]

theorem hexValue_hexDigit : ∀ d < 16, hexValue (hexDigit d) = some d := by decide

/-- **Digits read back.** -/
theorem ofHex_hexDigits {n v : ℕ} (h : v < 16 ^ n) : ofHex (hexDigits n v) = some v := by
  induction n generalizing v with
  | zero =>
    obtain rfl : v = 0 := by simpa using h
    rfl
  | succ n ih =>
    have hhigh : v / 16 < 16 ^ n := by
      rw [Nat.pow_succ] at h
      omega
    have hlow : hexValue (hexDigit (v % 16)) = some (v % 16) :=
      hexValue_hexDigit _ (Nat.mod_lt _ (by decide))
    have hrest := ih hhigh
    rw [ofHex] at hrest ⊢
    rw [hexDigits, List.foldlM_append, hrest]
    simp only [Option.bind_eq_bind, Option.bind_some, List.foldlM_cons, List.foldlM_nil, hlow,
      Option.map_some, Option.pure_def, Nat.div_add_mod]

/-- What a fault report says: vector, error code, place and address, if it is one. -/
def readReport (cs : List UInt8) : Option (ℕ × ℕ × ℕ × ℕ) :=
  if cs.length = 65 ∧ cs.head? = some 0x46 then do
    let vector ← ofHex ((cs.drop 1).take 16)
    let code ← ofHex ((cs.drop 17).take 16)
    let rip ← ofHex ((cs.drop 33).take 16)
    let cr2 ← ofHex ((cs.drop 49).take 16)
    some (vector, code, rip, cr2)
  else none

/-- The text of a report. -/
def report (vector code rip cr2 : ℕ) : List UInt8 :=
  0x46 :: (hexDigits 16 vector ++ hexDigits 16 code ++ hexDigits 16 rip ++ hexDigits 16 cr2)

theorem readReport_report {vector code rip cr2 : ℕ} (h₁ : vector < 2 ^ 64) (h₂ : code < 2 ^ 64)
    (h₃ : rip < 2 ^ 64) (h₄ : cr2 < 2 ^ 64) :
    readReport (report vector code rip cr2) = some (vector, code, rip, cr2) := by
  have hread {v : ℕ} (h : v < 2 ^ 64) : ofHex (hexDigits 16 v) = some v := ofHex_hexDigits h
  rw [readReport, if_pos ⟨by simp [report], rfl⟩]
  simp [report, List.drop_append, List.drop_eq_nil_of_le, List.take_of_length_le, hread h₁,
    hread h₂, hread h₃, hread h₄]

/-! ### Writing a character -/

variable {k : Link Label} {s s' : Cpu} {bs : List UInt8} {n : ℕ} {rs : List Reg} {l : Label}

/-- From `s`, where a routine is called, to `s'`, where it has returned, the bytes `bs` are written
to the serial port. Registers other than `rs` are kept, and memory is but for the `n` bytes below
the stack pointer. -/
structure Wrote (bs : List UInt8) (n : ℕ) (rs : List Reg) (s s' : Cpu) : Prop where
  rsp : s'.gpr .rsp = s.gpr .rsp + 8#64
  gpr : ∀ r, r ∉ rs → r ≠ .rsp → s'.gpr r = s.gpr r
  cr2 : s'.cr2 = s.cr2
  outs : s'.outs = s.outs ++ bs.map fun b => (0x3F8, b)
  mem : SameBut s.mem s'.mem (s.gpr .rsp - .ofNat 64 n) n

/-- Only `rax` and `rcx` change. -/
structure Steady (s s' : Cpu) : Prop where
  gpr : ∀ r, r ≠ .rax → r ≠ .rcx → s'.gpr r = s.gpr r
  cr2 : s'.cr2 = s.cr2
  outs : s'.outs = s.outs
  mem : s'.mem = s.mem

/-- **Polling ends**, with or without the line ready. -/
theorem leadsTo_poll (hrcx : s.gpr rcx = .ofNat 64 (n + 1)) (hn : n + 1 < 2 ^ 32) :
    LeadsTo (step k code) (.poll, s) fun x => x.1 = .send ∧ Steady s x.2 := by
  refine LeadsTo.countdown (P := fun j x => x.1 = .poll ∧ j < 2 ^ 32 ∧
    x.2.gpr rcx = .ofNat 64 j ∧ Steady s x.2) ?_ n
    ⟨rfl, hn, hrcx, fun _ _ _ => rfl, rfl, rfl, rfl⟩
  rintro j ⟨_, s₁⟩ ⟨rfl, hj, hrcx₁, hkept⟩
  dsimp only at hrcx₁
  obtain ⟨s₂, hs₂⟩ : ∃ s₂, s₂ = test 8 (imm 0x20) rax (inb s₁) := ⟨_, rfl⟩
  have hgpr₂ : ∀ r, r ≠ .rax → s₂.gpr r = s₁.gpr r := by
    intro r hr
    rw [hs₂, test, Cpu.flags_gpr, inb, write_8_reg]
    exact Function.update_of_ne hr _ _
  have hkept₂ : Steady s s₂ := by
    refine ⟨fun r hrax hrcx => (hgpr₂ r hrax).trans (hkept.gpr r hrax hrcx), ?_, ?_, ?_⟩
    · exact (congrArg Cpu.cr2 hs₂).trans hkept.cr2
    · exact (congrArg Cpu.outs hs₂).trans hkept.outs
    · exact (congrArg Cpu.mem hs₂).trans hkept.mem
  have hrcx₂ : s₂.gpr rcx = .ofNat 64 (j + 1) := (hgpr₂ rcx (by decide)).trans hrcx₁
  have hdec : (dec 32 rcx s₂).gpr = Function.update s₂.gpr rcx (.ofNat 64 j) := dec_32_gpr hrcx₂ hj
  have hkept₃ : Steady s (dec 32 rcx s₂) := by
    refine ⟨fun r hrax hrcx => ?_, hkept₂.cr2, hkept₂.outs, hkept₂.mem⟩
    rw [hdec, Function.update_of_ne hrcx, hkept₂.gpr r hrax hrcx]
  refine leadsTo_block rfl ?_
  simp only [runBlock, jnz, ← hs₂, dec_32_zf hrcx₂ hj]
  refine LeadsTo.ite (fun _ => .now (.inl ⟨rfl, hkept₂⟩)) fun _ => ?_
  refine LeadsTo.ite (fun hne => .now (.inr ⟨by simpa using hne, rfl, by omega, ?_, hkept₃⟩))
    fun _ => .now (.inl ⟨rfl, hkept₃⟩)
  rw [hdec, Function.update_self]

/-- The byte in the low part of a register. -/
def lowByte (v : BitVec 64) : UInt8 := .ofNat v.toNat

/-- **`qizo_fault_putc`** writes the byte in `r8b`. -/
theorem leadsTo_faultPutc (hret : s.top = k.addr l) :
    LeadsTo (step k code) (.putc, s) fun x => x.1 = l ∧
      Wrote [lowByte (s.gpr r8)] 16 [rax] s x.2 := by
  have hwords : Words s.mem (s.gpr .rsp) [k.addr l] := ⟨hret, trivial⟩
  have hsame := ((SameBut.refl s.mem (s.gpr .rsp) 0).push (s.gpr rcx) (by decide)).push (s.gpr rdx)
    (by decide)
  have hwords₁ := (hwords.push (s.gpr rcx) (by simp)).push (s.gpr rdx) (by simp)
  refine leadsTo_block rfl ?_
  simp only [runBlock, pushq, mov, read_reg, read_imm, write_32_reg, BitVec.setWidth_eq,
    Cpu.push_gpr, ne_eq, reduceCtorEq, not_false_eq_true, Function.update_of_ne]
  refine (leadsTo_poll (n := 3999999) (by simp) (by decide)).trans ?_
  rintro ⟨_, s₂⟩ ⟨rfl, hpoll⟩
  have hgpr₂ : ∀ r, r ≠ .rax → r ≠ .rcx → r ≠ .rdx → r ≠ .rsp → s₂.gpr r = s.gpr r := by
    intro r hrax hrcx hrdx hrsp
    rw [hpoll.gpr r hrax hrcx]
    simp [hrcx, hrdx, hrsp]
  have hrsp₂ : s₂.gpr .rsp = s.gpr .rsp - 8#64 - 8#64 := by
    rw [hpoll.gpr _ (by decide) (by decide)]
    simp
  have hmem₂ := hpoll.mem
  simp only [Cpu.set_mem, Cpu.push_mem, Cpu.push_gpr, Function.update_self] at hmem₂
  -- The byte goes out, and then the two registers come back.
  obtain ⟨s₃, hs₃⟩ : ∃ s₃, s₃ = outb (mov 32 (imm 0x3F8) rdx (mov 8 r8 rax s₂)) := ⟨_, rfl⟩
  have hgpr₃ : ∀ r, r ≠ .rax → r ≠ .rdx → s₃.gpr r = s₂.gpr r := by
    intro r hrax hrdx
    rw [hs₃, outb, mov, mov, write_32_reg, write_8_reg, Cpu.set_gpr, Cpu.set_gpr,
      Function.update_of_ne hrdx, Function.update_of_ne hrax]
  have hout : UInt8.ofNat (BitVec.ofNat 64 (((s₂.gpr r8).setWidth 8).toNat +
      ((s₂.gpr rax).toNat - (s₂.gpr rax).toNat % 2 ^ 8))).toNat = lowByte (s.gpr r8) := by
    rw [hgpr₂ r8 (by decide) (by decide) (by decide) (by decide), lowByte]
    apply UInt8.toNat_inj.mp
    simp only [UInt8.toNat_ofNat', BitVec.toNat_ofNat, BitVec.toNat_setWidth]
    omega
  have houts₃ : s₃.outs = s.outs ++ [(0x3F8, lowByte (s.gpr r8))] := by
    have houts₂ : s₂.outs = s.outs := hpoll.outs
    rw [hs₃, outb, mov, mov, write_32_reg, write_8_reg, read_reg]
    simp only [Cpu.set_gpr, Function.update_self, ne_eq, reduceCtorEq, not_false_eq_true,
      Function.update_of_ne, read_imm, hout]
    exact congrArg (· ++ [_]) houts₂
  have hmem₃ : s₃.mem = s₂.mem := by
    rw [hs₃, outb, mov, mov, write_32_reg, write_8_reg, Cpu.set_mem, Cpu.set_mem]
  have hpops : Words s₃.mem (s₃.gpr .rsp) ([rdx, rcx].map s.gpr ++ [k.addr l]) := by
    rw [hmem₃, hmem₂, hgpr₃ _ (by decide) (by decide), hrsp₂]
    exact hwords₁
  obtain ⟨s₄, hrun, hs₄, htop⟩ := runBlock_popAll (L := Label) (by decide) hpops
  refine leadsTo_block rfl (.now ?_)
  have hret₄ : runBlock k .hex16 [.op (mov 8 r8 rax), .op (mov 32 (imm 0x3F8) rdx), .op outb,
      .op (popq rdx), .op (popq rcx), .ret] s₂ = (k.label s₄.top, s₄.drop) := by
    rw [runBlock, runBlock, runBlock, ← hs₃]
    exact hrun k .hex16 [.ret]
  rw [hret₄, Cpu.top, htop.1, k.label_addr]
  have hrsp₄ : s₄.gpr .rsp = s.gpr .rsp := by
    rw [hs₄.rsp, hgpr₃ _ (by decide) (by decide), hrsp₂]
    simp [BitVec.sub_sub, BitVec.sub_add_cancel]
  refine ⟨rfl, ?_, fun r hr hrsp => ?_, ?_, ?_, ?_⟩
  · rw [Cpu.drop_gpr, Function.update_self, hrsp₄]
  · rw [List.mem_singleton] at hr
    rw [Cpu.drop_gpr, Function.update_of_ne hrsp]
    by_cases hloaded : r ∈ [rdx, rcx]
    · exact hs₄.loaded r hloaded
    · have hother := hs₄.other r hloaded hrsp
      simp only [List.mem_cons, List.not_mem_nil, or_false, not_or] at hloaded
      rw [hother, hgpr₃ r hr hloaded.1, hgpr₂ r hr hloaded.2 hloaded.1 hrsp]
  · have h₃ : s₃.cr2 = s₂.cr2 := by
      rw [hs₃, outb, mov, mov, write_32_reg, write_8_reg]
      rfl
    exact hs₄.cr2.trans (h₃.trans hpoll.cr2)
  · exact hs₄.outs.trans houts₃
  · have hdrop : s₄.drop.mem = s₄.mem := rfl
    rw [hdrop, hs₄.mem, hmem₃, hmem₂]
    have hsub : s.gpr .rsp - .ofNat 64 16 = s.gpr .rsp - 8#64 - 8#64 := by
      rw [sub_ofNat_sub]
    rw [hsub]
    exact hsame

/-! ### Writing a number -/

/-- One digit: the character for it is in `eax`. -/
theorem leadsTo_digit {v : BitVec 64} {j : ℕ} (hr9 : s.gpr r9 = v)
    (hr10 : s.gpr r10 = .ofNat 64 (4 * j))
    (hj : j < 16) :
    LeadsTo (step k code) (.digit, s) fun x => x.1 = .emit ∧ Steady s x.2 ∧
      lowByte (x.2.gpr rax) = hexDigit (v.toNat / 16 ^ j % 16) := by
  obtain ⟨d, hd⟩ : ∃ d, d = v.toNat / 16 ^ j % 16 := ⟨_, rfl⟩
  have hlt : d < 16 := by omega
  have hnibble : (v >>> ((BitVec.setWidth 64 (BitVec.setWidth 32 (BitVec.ofNat 64 (4 * j)))).toNat %
      64)).setWidth 32 &&& 15#32 = .ofNat 32 d := by
    have hshift : (BitVec.setWidth 64 (BitVec.setWidth 32 (BitVec.ofNat 64 (4 * j)))).toNat % 64 =
        4 * j := by
      simp only [BitVec.toNat_setWidth, BitVec.toNat_ofNat]
      omega
    have hpow : 2 ^ (4 * j) = 16 ^ j := Nat.pow_mul 2 4 j
    apply BitVec.eq_of_toNat_eq
    rw [hshift, BitVec.toNat_and, BitVec.toNat_setWidth, BitVec.toNat_ushiftRight,
      Nat.shiftRight_eq_div_pow, hpow, hd, BitVec.toNat_ofNat, BitVec.toNat_ofNat,
      Nat.and_two_pow_sub_one_eq_mod _ 4]
    omega
  have hword : BitVec.setWidth 32 (BitVec.setWidth 64 (BitVec.ofNat 32 d)) = .ofNat 32 d := by
    rw [BitVec.setWidth_setWidth_of_le _ (by decide), BitVec.setWidth_eq]
  have hbelow : (BitVec.ofNat 32 d).toNat = d := by
    rw [BitVec.toNat_ofNat]
    omega
  have hlow {c : ℕ} (hc : d + c < 256) :
      lowByte ((BitVec.ofNat 32 d + .ofNat 32 c).setWidth 64) = .ofNat (c + d) := by
    rw [lowByte, BitVec.toNat_setWidth, BitVec.toNat_add, BitVec.toNat_ofNat, BitVec.toNat_ofNat]
    congr 1
    omega
  refine leadsTo_block rfl ?_
  simp only [runBlock, mov, shrCl, Amd64.and, Amd64.cmp, add, jb, read_reg, read_imm, write_64_reg,
    write_32_reg, Cpu.cf_flags, Cpu.set_gpr, Cpu.flags_gpr, BitVec.setWidth_eq, ne_eq, reduceCtorEq,
    not_false_eq_true, Function.update_self, Function.update_of_ne, hr9, hr10, hnibble, hword,
    hbelow]
  rw [← hd, hexDigit]
  refine LeadsTo.ite (fun hsmall => ?_) fun hlarge => .now ⟨rfl, ⟨?_, rfl, rfl, rfl⟩, ?_⟩
  · refine leadsTo_block rfl (.now ⟨rfl, ⟨?_, rfl, rfl, rfl⟩, ?_⟩)
    · intro r hrax hrcx
      simp [runBlock, add, hrax, hrcx]
    · have hten : d < 10 := by simpa using hsmall
      rw [if_pos hten, ← hlow (show d + 0x30 < 256 by omega)]
      simp [runBlock, add, hword]
  · intro r hrax hrcx
    simp [hrax, hrcx]
  · have hten : ¬d < 10 := by simpa using hlarge
    rw [if_neg hten, ← hlow (show d + 0x37 < 256 by omega)]
    simp

/-- One digit is written. -/
theorem leadsTo_emit {c : UInt8} (hc : lowByte (s.gpr rax) = c) :
    LeadsTo (step k code) (.emit, s) fun x => x.1 = .digitBack ∧ x.2.gpr .rsp = s.gpr .rsp ∧
      (∀ r, r ∉ [rax, r8] → r ≠ .rsp → x.2.gpr r = s.gpr r) ∧ x.2.cr2 = s.cr2 ∧
      x.2.outs = s.outs ++ [(0x3F8, c)] ∧
      SameBut s.mem x.2.mem (s.gpr .rsp - .ofNat 64 24) 24 := by
  refine leadsTo_block rfl ?_
  simp only [runBlock, mov, read_reg, write_32_reg]
  obtain ⟨s₁, hs₁⟩ : ∃ s₁, s₁ = s.set r8 (((s.gpr rax).setWidth 32).setWidth 64) := ⟨_, rfl⟩
  rw [← hs₁]
  have hrsp₁ : s₁.gpr .rsp = s.gpr .rsp := by simp [hs₁]
  have hret : (s₁.push (k.addr .digitBack)).top = k.addr .digitBack := by
    simp only [Cpu.top, Cpu.push_gpr, Cpu.push_mem, Function.update_self]
    exact X64.ld64_st64 _
  refine (leadsTo_faultPutc hret).mono ?_
  rintro ⟨_, x⟩ ⟨rfl, hx⟩
  dsimp only at hx
  have hr8 : lowByte ((s₁.push (k.addr .digitBack)).gpr r8) = c := by
    have hval : (s₁.push (k.addr .digitBack)).gpr r8 = ((s.gpr rax).setWidth 32).setWidth 64 := by
      simp [hs₁]
    rw [hval, ← hc, lowByte, lowByte]
    apply UInt8.toNat_inj.mp
    simp only [UInt8.toNat_ofNat', BitVec.toNat_setWidth]
    omega
  have houts := hx.outs
  rw [hr8] at houts
  refine ⟨rfl, ?_, fun r hr hrsp => ?_, ?_, ?_, ?_⟩
  · rw [hx.rsp, Cpu.push_gpr, Function.update_self, BitVec.sub_add_cancel, hrsp₁]
  · simp only [List.mem_cons, List.not_mem_nil, or_false, not_or] at hr
    rw [hx.gpr r (by simpa using hr.1) hrsp, Cpu.push_gpr, Function.update_of_ne hrsp, hs₁,
      Cpu.set_gpr, Function.update_of_ne hr.2]
  · rw [hx.cr2, hs₁]
    rfl
  · rw [houts, hs₁]
    rfl
  · have hmem := hx.mem
    rw [Cpu.push_gpr, Function.update_self, Cpu.push_mem, hrsp₁] at hmem
    have hmem₁ : s₁.mem = s.mem := by rw [hs₁, Cpu.set_mem]
    rw [hmem₁] at hmem
    refine ((sameBut_st64 s.mem _ _).mono fun c hc => ?_).trans (hmem.mono fun c hc => ?_)
    · bv_omega
    · bv_omega

/-- `qizo_fault_hex16` was called in `s` to return to `l`, and `j` digits of `v` are left. -/
structure Digits (k : Link Label) (l : Label) (s : Cpu) (v : BitVec 64) (j : ℕ) (x : Cpu) :
    Prop where
  rsp : x.gpr .rsp = s.gpr .rsp - .ofNat 64 16
  words : Words x.mem (s.gpr .rsp - .ofNat 64 16) ([.r10, .rcx].map s.gpr ++ [k.addr l])
  gpr : ∀ r, r ∉ [.rax, .rcx, .r8, .r10] → r ≠ .rsp → x.gpr r = s.gpr r
  cr2 : x.cr2 = s.cr2
  outs : x.outs = s.outs ++ (hexDigits (16 - j) (v.toNat / 16 ^ j)).map fun b => (0x3F8, b)
  mem : SameBut s.mem x.mem (s.gpr .rsp - .ofNat 64 40) 40

variable {x : Cpu} {v : BitVec 64} {j : ℕ}

/-- One pass of the loop, up to its end. -/
theorem leadsTo_digitBack (hv : s.gpr r9 = v) (hj : j < 16) (h : Digits k l s v (j + 1) x)
    (hr10 : x.gpr .r10 = .ofNat 64 (4 * j)) :
    LeadsTo (step k code) (.digit, x) fun y => y.1 = .digitBack ∧
      y.2.gpr .r10 = .ofNat 64 (4 * j) ∧ Digits k l s v j y.2 := by
  have hr9 : x.gpr r9 = v := (h.gpr r9 (by decide) (by decide)).trans hv
  refine (leadsTo_digit hr9 hr10 hj).trans ?_
  rintro ⟨_, x₁⟩ ⟨rfl, hsteady, hc⟩
  dsimp only at hsteady hc
  have hrsp₁ : x₁.gpr .rsp = s.gpr .rsp - .ofNat 64 16 := by
    rw [hsteady.gpr _ (by decide) (by decide), h.rsp]
  refine (leadsTo_emit hc).mono ?_
  rintro ⟨_, y⟩ ⟨rfl, hrsp, hgpr, hcr2, houts, hmem⟩
  dsimp only at hrsp hgpr hcr2 houts hmem ⊢
  rw [hrsp₁, sub_ofNat_sub] at hmem
  refine ⟨rfl, ?_, hrsp.trans hrsp₁, ?_, fun r hr hne => ?_, ?_, ?_, ?_⟩
  · rw [hgpr .r10 (by decide) (by decide), hsteady.gpr .r10 (by decide) (by decide), hr10]
  · have hwords := h.words
    rw [← hsteady.mem] at hwords
    refine (hmem.sameBytes (b := s.gpr .rsp - .ofNat 64 16) (k := 24) ⟨?_, ?_⟩).words hwords ?_
    · bv_omega
    · bv_omega
    · simp
  · simp only [List.mem_cons, List.not_mem_nil, or_false, not_or] at hr
    rw [hgpr r (by simp [hr]) hne, hsteady.gpr r hr.1 hr.2.1, h.gpr r (by simp [hr]) hne]
  · rw [hcr2, hsteady.cr2, h.cr2]
  · have hnext : hexDigits (16 - j) (v.toNat / 16 ^ j) =
        hexDigits (16 - (j + 1)) (v.toNat / 16 ^ (j + 1)) ++
        [hexDigit (v.toNat / 16 ^ j % 16)] := by
      have hcount : 16 - j = 16 - (j + 1) + 1 := by omega
      rw [hcount, hexDigits, Nat.div_div_eq_div_mul, ← Nat.pow_succ]
    rw [houts, hsteady.outs, h.outs, hnext, List.map_append, List.append_assoc]
    rfl
  · have hmem₁ := h.mem
    rw [← hsteady.mem] at hmem₁
    exact hmem₁.trans (hmem.mono fun c hc => by bv_omega)

theorem sub_four_gpr (h : x.gpr .r10 = .ofNat 64 (4 * (j + 1))) (hj : j < 16) :
    (sub 32 (imm 4) r10 x).gpr = Function.update x.gpr .r10 (.ofNat 64 (4 * j)) ∧
      (sub 32 (imm 4) r10 x).sf = false := by
  have hv : (BitVec.ofNat 64 (4 * (j + 1))).setWidth 32 - 4#32 = .ofNat 32 (4 * j) := by
    apply BitVec.eq_of_toNat_eq
    simp only [BitVec.toNat_setWidth, BitVec.toNat_sub, BitVec.toNat_ofNat]
    omega
  have hwide : (BitVec.ofNat 32 (4 * j)).setWidth 64 = BitVec.ofNat 64 (4 * j) := by
    apply BitVec.eq_of_toNat_eq
    simp only [BitVec.toNat_setWidth, BitVec.toNat_ofNat]
    omega
  have hpos : (BitVec.ofNat 32 (4 * j)).msb = false := by
    rw [BitVec.msb_eq_false_iff_two_mul_lt, BitVec.toNat_ofNat]
    omega
  constructor
  · rw [sub, Cpu.flags_gpr, write_32_reg, Cpu.set_gpr, read_reg, read_imm, h, hv, hwide]
  · rw [sub, Cpu.sf_flags, read_reg, read_imm, h, hv, hpos]

/-- **`qizo_fault_hex16`** writes the number in `r9`. -/
theorem leadsTo_faultHex16 (hret : s.top = k.addr l) :
    LeadsTo (step k code) (.hex16, s) fun x => x.1 = l ∧
      Wrote (hexDigits 16 (s.gpr r9).toNat) 40 [rax, r8] s x.2 := by
  have hwords : Words s.mem (s.gpr .rsp) [k.addr l] := ⟨hret, trivial⟩
  have hsame := ((SameBut.refl s.mem (s.gpr .rsp) 0).push (s.gpr rcx) (by decide)).push (s.gpr .r10)
    (by decide)
  have hwords₁ := (hwords.push (s.gpr rcx) (by simp)).push (s.gpr .r10) (by simp)
  have hsub : s.gpr .rsp - 8#64 - 8#64 = s.gpr .rsp - .ofNat 64 16 := by rw [sub_ofNat_sub]
  rw [hsub] at hsame hwords₁
  refine leadsTo_block rfl ?_
  simp only [runBlock, pushq, mov, read_reg, read_imm, write_32_reg, BitVec.setWidth_eq,
    Cpu.push_gpr, ne_eq, reduceCtorEq, not_false_eq_true, Function.update_of_ne]
  refine LeadsTo.countdown (P := fun j x => x.1 = .digit ∧ j ≤ 16 ∧
    x.2.gpr .r10 = .ofNat 64 (4 * (j - 1)) ∧ Digits k l s (s.gpr r9) j x.2) ?_ 15
    ⟨rfl, le_rfl, ?_, ?_⟩
  · rintro j ⟨_, x⟩ ⟨rfl, hj, hr10, hx⟩
    refine (leadsTo_digitBack rfl hj hx hr10).trans ?_
    rintro ⟨_, y⟩ ⟨rfl, hr10', hy⟩
    dsimp only at hr10' hy
    refine leadsTo_block rfl ?_
    cases j with
    | succ j =>
      obtain ⟨hgpr, hsf⟩ := sub_four_gpr hr10' (by omega)
      simp only [runBlock, jns, hsf, Bool.not_false, if_true]
      refine .now (.inr ⟨by simp, rfl, by omega, ?_, ?_, ?_, fun r hr hne => ?_, hy.cr2, hy.outs,
        hy.mem⟩)
      · rw [hgpr, Function.update_self, Nat.add_sub_cancel]
      · rw [hgpr, Function.update_of_ne (by decide), hy.rsp]
      · exact hy.words
      · have hr' : r ≠ .r10 := fun heq => hr (by simp [heq])
        rw [hgpr, Function.update_of_ne hr', hy.gpr r hr hne]
    | zero =>
      -- The last digit is written, and the counter is below zero.
      obtain ⟨z, hz⟩ : ∃ z, z = sub 32 (imm 4) r10 y := ⟨_, rfl⟩
      have hsf : z.sf = true := by
        rw [hz, sub, Cpu.sf_flags, read_reg, read_imm, hr10']
        decide
      have hgpr : ∀ r, r ≠ .r10 → z.gpr r = y.gpr r := by
        intro r hr
        rw [hz, sub, Cpu.flags_gpr, write_32_reg, Cpu.set_gpr, Function.update_of_ne hr]
      have hmem : z.mem = y.mem := by rw [hz, sub, Cpu.flags_mem, write_32_reg, Cpu.set_mem]
      have hcr2 : z.cr2 = y.cr2 := by
        rw [hz, sub, write_32_reg]
        rfl
      have houts : z.outs = y.outs := by
        rw [hz, sub, write_32_reg]
        rfl
      have hpops : Words z.mem (z.gpr .rsp) ([.r10, .rcx].map s.gpr ++ [k.addr l]) := by
        rw [hmem, hgpr _ (by decide), hy.rsp]
        exact hy.words
      obtain ⟨w, hrun, hw, htop⟩ := runBlock_popAll (L := Label) (by decide) hpops
      have hlast : runBlock k .outside [.op (sub 32 (imm 4) r10), jns .digit, .op (popq .r10),
          .op (popq rcx), .ret] y = (k.label w.top, w.drop) := by
        rw [runBlock, ← hz, jns, runBlock, hsf]
        exact hrun k .outside [.ret]
      rw [hlast, Cpu.top, htop.1, k.label_addr]
      refine .now (.inl ⟨rfl, ?_, fun r hr hne => ?_, ?_, ?_, ?_⟩)
      · rw [Cpu.drop_gpr, Function.update_self, hw.rsp, hgpr _ (by decide), hy.rsp]
        simp [BitVec.sub_add_cancel]
      · rw [Cpu.drop_gpr, Function.update_of_ne hne]
        simp only [List.mem_cons, List.not_mem_nil, or_false, not_or] at hr
        by_cases hloaded : r ∈ [Reg.r10, Reg.rcx]
        · exact hw.loaded r hloaded
        · have hother := hw.other r hloaded hne
          simp only [List.mem_cons, List.not_mem_nil, or_false, not_or] at hloaded
          rw [hother, hgpr r hloaded.1, hy.gpr r (by simp [hr, hloaded]) hne]
      · exact hw.cr2.trans (hcr2.trans hy.cr2)
      · have hdigits := hy.outs
        rw [Nat.sub_zero, pow_zero, Nat.div_one] at hdigits
        exact hw.outs.trans (houts.trans hdigits)
      · have hdrop : w.drop.mem = w.mem := rfl
        rw [hdrop, hw.mem, hmem]
        exact hy.mem
  · simp
  · refine ⟨?_, ?_, fun r hr hrsp => ?_, rfl, ?_, ?_⟩
    · simp [sub_ofNat_sub]
    · simpa [sub_ofNat_sub] using hwords₁
    · simp only [List.mem_cons, List.not_mem_nil, or_false, not_or] at hr
      simp [hr, hrsp]
    · simp [hexDigits]
      rfl
    · simp only [Cpu.set_mem, Cpu.push_mem, Cpu.push_gpr, Function.update_self, hsub]
      exact hsame.mono fun c hc => by bv_omega

/-! ### The report -/

/-- **A stub** completes what the processor has pushed. -/
theorem leadsTo_common {P : BitVec 64 → Prop} {t : BitVec 64} {err : BitVec 64} {v : ℕ}
    (hv : v < 32)
    (h : Stacked P t ((if hasErrorCode v then [err] else []) ++ hardwareFrame s) s s') :
    LeadsTo (step k code) (.fstub (Fin.ofNat 32 v), s') fun x => x.1 = .common ∧
      Stacked P t (.ofNat 64 v :: errorWord v err :: hardwareFrame s) s x.2 ∧ x.2.cr2 = s'.cr2 ∧
      x.2.outs = s'.outs := by
  have hval : (Fin.ofNat 32 v).val = v := Nat.mod_eq_of_lt hv
  have hpushed := h.stub
  refine leadsTo_block rfl (.now ?_)
  rw [hval]
  cases hcode : hasErrorCode v with
  | true =>
    have hstub : fstubHasCode v = true := hcode
    rw [hcode, if_pos rfl] at hpushed
    rw [if_pos hstub]
    exact ⟨rfl, hpushed, rfl, rfl⟩
  | false =>
    have hstub : fstubHasCode v = false := hcode
    rw [hcode, if_neg Bool.false_ne_true] at hpushed
    rw [hstub, if_neg Bool.false_ne_true]
    exact ⟨rfl, hpushed, rfl, rfl⟩

/-- Between two parts of the report: `bs` is written, and the frame is as it was. -/
structure Reported (s : Cpu) (sp : BitVec 64) (ws : List (BitVec 64)) (bs : List UInt8) (x : Cpu) :
    Prop where
  rsp : x.gpr .rsp = sp
  words : Words x.mem sp ws
  cr2 : x.cr2 = s.cr2
  outs : x.outs = s.outs ++ bs.map fun b => (0x3F8, b)

/-- A call in the report. -/
theorem Reported.call {sp : BitVec 64} {ws : List (BitVec 64)} {cs : List UInt8} {y : Cpu}
    (h : Reported s sp ws bs x) (hn : n + 8 + 8 * ws.length < 2 ^ 64)
    (hy : Wrote cs n rs (x.push (k.addr l)) y) : Reported s sp ws (bs ++ cs) y := by
  have hrsp : (x.push (k.addr l)).gpr .rsp = sp - 8#64 := by
    rw [Cpu.push_gpr, Function.update_self, h.rsp]
  have hmem := hy.mem
  rw [hrsp, Cpu.push_mem, h.rsp] at hmem
  have hsame : SameBut x.mem y.mem (sp - .ofNat 64 (n + 8)) (n + 8) := by
    refine ((sameBut_st64 x.mem _ _).mono fun c hc => ?_).trans (hmem.mono fun c hc => ?_)
    · bv_omega
    · bv_omega
  refine ⟨?_, ?_, hy.cr2.trans h.cr2, ?_⟩
  · rw [hy.rsp, hrsp, BitVec.sub_add_cancel]
  · refine (hsame.sameBytes (b := sp) (k := 8 * ws.length) ⟨?_, ?_⟩).words h.words le_rfl
    · bv_omega
    · bv_omega
  · have houts : (x.push (k.addr l)).outs = x.outs := rfl
    rw [hy.outs, houts, h.outs, List.map_append, List.append_assoc]

/-- A number in the report. -/
theorem leadsTo_reportHex {f : Cpu → Cpu} {l₀ l₁ : Label} {sp : BitVec 64} {ws : List (BitVec 64)}
    (hcode : code l₀ = some ⟨[.op f, .call .hex16], l₁⟩) (hn : 48 + 8 * ws.length < 2 ^ 64)
    (h : Reported s sp ws bs x) (hf : f x = x.set r9 v) :
    LeadsTo (step k code) (l₀, x) fun y => y.1 = l₁ ∧
      Reported s sp ws (bs ++ hexDigits 16 v.toNat) y.2 := by
  have hset : Reported s sp ws bs (x.set r9 v) := by
    refine ⟨?_, h.words, h.cr2, h.outs⟩
    rw [Cpu.set_gpr, Function.update_of_ne (by decide), h.rsp]
  have hr9 : ((x.set r9 v).push (k.addr l₁)).gpr r9 = v := by simp
  have hret : ((x.set r9 v).push (k.addr l₁)).top = k.addr l₁ := by
    simp only [Cpu.top, Cpu.push_gpr, Cpu.push_mem, Function.update_self]
    exact X64.ld64_st64 _
  refine leadsTo_block hcode ?_
  rw [runBlock, runBlock, hf]
  refine (leadsTo_faultHex16 hret).mono ?_
  rintro ⟨_, y⟩ ⟨rfl, hy⟩
  rw [hr9] at hy
  exact ⟨rfl, hset.call (by omega) hy⟩

/-- The letter in front. -/
theorem leadsTo_vectorOut {sp : BitVec 64} {ws : List (BitVec 64)} (h : Reported s sp ws [] x)
    (hn : 24 + 8 * ws.length < 2 ^ 64) :
    LeadsTo (step k code) (.common, x) fun y => y.1 = .vectorOut ∧ Reported s sp ws [0x46] y.2 := by
  have hx : Reported s sp ws [] (mov 32 (imm 0x46) r8 (cli x)) := by
    refine ⟨?_, h.words, h.cr2, ?_⟩
    · simp [mov, cli, h.rsp]
    · rw [mov, write_32_reg]
      exact h.outs
  have hret :
      ((mov 32 (imm 0x46) r8 (cli x)).push (k.addr .vectorOut)).top = k.addr .vectorOut := by
    simp only [Cpu.top, Cpu.push_gpr, Cpu.push_mem, Function.update_self]
    exact X64.ld64_st64 _
  have hletter : lowByte (((mov 32 (imm 0x46) r8 (cli x)).push (k.addr .vectorOut)).gpr r8) =
      0x46 := by
    simp [mov, lowByte]
  refine leadsTo_block rfl ?_
  simp only [runBlock]
  refine (leadsTo_faultPutc hret).mono ?_
  rintro ⟨_, y⟩ ⟨rfl, hy⟩
  rw [hletter] at hy
  exact ⟨rfl, hx.call (by omega) hy⟩

/-- The address of a stub. -/
def fstubAddr (k : Link Label) (v : ℕ) : ℕ := (k.addr (.fstub (Fin.ofNat 32 v))).toNat

/-- The gate of a vector while the kernel is loaded. -/
def fstubGate (k : Link Label) (v : ℕ) : Gate.Descriptor :=
  Gate.interruptGate 0x28 (fstubAddr k v)

/-- **Every exception is reported**: vector, error code, place and the address of the last page
fault, whatever the line status is, and then the machine stops. The report can be read back. -/
theorem fault_report {v : ℕ} {err : BitVec 64} (hv : v < 32)
    (hgates : Gate.Gates s.mem s.idtr.toNat (fstubGate k) 32) :
    (LeadsTo (step k code) (k.label (deliver v err s).rip, deliver v err s) fun x =>
      x.1 = .stopped ∧
        x.2.outs = s.outs ++ (report v (errorWord v err).toNat s.rip.toNat s.cr2.toNat).map
          fun b => (0x3F8, b)) ∧
    readReport (report v (errorWord v err).toNat s.rip.toNat s.cr2.toNat) =
      some (v, (errorWord v err).toNat, s.rip.toNat, s.cr2.toNat) := by
  refine ⟨?_, readReport_report (by omega) (BitVec.isLt _) (BitVec.isLt _) (BitVec.isLt _)⟩
  rw [label_deliver (hgates v hv)]
  have hcr2 : (deliver v err s).cr2 = s.cr2 := by
    rw [deliver]
    split <;> rfl
  have houts : (deliver v err s).outs = s.outs := by
    rw [deliver]
    split <;> rfl
  refine (leadsTo_common hv (stacked_deliver (P := fun _ => True) v err s)).trans ?_
  rintro ⟨_, x₁⟩ ⟨rfl, hx₁, hcr2₁, houts₁⟩
  dsimp only at hx₁ hcr2₁ houts₁
  obtain ⟨sp, hsp⟩ : ∃ sp, sp = x₁.gpr .rsp := ⟨_, rfl⟩
  have hwords := hx₁.words
  rw [← hsp] at hwords
  have hframe : Reported s sp (.ofNat 64 v :: errorWord v err :: hardwareFrame s) [] x₁ := by
    refine ⟨hsp.symm, hwords, hcr2₁.trans hcr2, ?_⟩
    rw [List.map_nil, List.append_nil, houts₁, houts]
  refine (leadsTo_vectorOut hframe (by simp [hardwareFrame])).trans ?_
  rintro ⟨_, x₂⟩ ⟨rfl, h₂⟩
  -- The four numbers: what is read from the frame is what the processor pushed there.
  have hsmall : 48 + 8 * (BitVec.ofNat 64 v :: errorWord v err :: hardwareFrame s).length <
      2 ^ 64 := by
    simp [hardwareFrame]
  have hload {x : Cpu} {bs : List UInt8} (d : ℕ) (w : BitVec 64)
      (h : Reported s sp (.ofNat 64 v :: errorWord v err :: hardwareFrame s) bs x)
      (hw : ld64 x.mem (sp + .ofNat 64 d) = w) : mov 64 (ind d rsp) r9 x = x.set r9 w := by
    rw [mov, write_64_reg, read_64_ind, h.rsp, hw]
  refine (leadsTo_reportHex (v := .ofNat 64 v) rfl hsmall h₂
    (hload 0 _ h₂ (by simpa using h₂.words.1))).trans ?_
  rintro ⟨_, x₃⟩ ⟨rfl, h₃⟩
  refine (leadsTo_reportHex rfl hsmall h₃ (hload 8 _ h₃ h₃.words.2.1)).trans ?_
  rintro ⟨_, x₄⟩ ⟨rfl, h₄⟩
  have hrip : ld64 x₄.mem (sp + .ofNat 64 16) = s.rip := by
    have := h₄.words.2.2.1
    rwa [BitVec.add_assoc] at this
  refine (leadsTo_reportHex rfl hsmall h₄ (hload 16 _ h₄ hrip)).trans ?_
  rintro ⟨_, x₅⟩ ⟨rfl, h₅⟩
  refine (leadsTo_reportHex (v := s.cr2) rfl hsmall h₅ ?_).mono ?_
  · rw [movCr2, h₅.cr2]
  rintro ⟨_, x₆⟩ ⟨rfl, h₆⟩
  have hv64 : (BitVec.ofNat 64 v).toNat = v := by
    rw [BitVec.toNat_ofNat]
    omega
  refine ⟨rfl, ?_⟩
  rw [h₆.outs, hv64, report]
  simp only [List.append_assoc, List.cons_append, List.nil_append]

/-- The labels by number, from `0x8000` on. -/
def place : Label → ℕ
  | .fstub v => 0x8000 + v
  | .common => 0x8020
  | .vectorOut => 0x8021
  | .codeOut => 0x8022
  | .ripOut => 0x8023
  | .cr2Out => 0x8024
  | .stopped => 0x8025
  | .putc => 0x8026
  | .poll => 0x8027
  | .send => 0x8028
  | .hex16 => 0x8029
  | .digit => 0x802A
  | .below10 => 0x802B
  | .emit => 0x802C
  | .digitBack => 0x802D
  | .outside => 0x802E

/-- The label at a number. -/
def placed (n : ℕ) : Label :=
  if 0x8000 ≤ n ∧ n < 0x8020 then .fstub (Fin.ofNat 32 (n - 0x8000)) else
    [.common, .vectorOut, .codeOut, .ripOut, .cr2Out, .stopped, .putc, .poll, .send, .hex16, .digit,
      .below10, .emit, .digitBack].getD (n - 0x8020) .outside

/-- The labels there. -/
def placement : Link Label where
  addr l := .ofNat 64 (place l)
  label a := placed a.toNat
  label_addr l := by
    have hlt : place l < 2 ^ 64 := by
      cases l <;> rw [place] <;> omega
    rw [BitVec.toNat_ofNat, Nat.mod_eq_of_lt hlt]
    cases l with
    | fstub v =>
      rw [place, placed, if_pos (by omega), Nat.add_sub_cancel_left, Fin.ofNat_val_eq_self]
    | _ => rfl

/-- A program that runs with the table in place, and has had a page fault at 4096. -/
def loadingState : Cpu where
  gpr r := if r = rsp then 0x44000#64 else 0
  rflags := 0x2#64
  rip := 0x100000#64
  cs := 0x28
  ss := 0x10
  cr2 := 0x1000#64
  idtr := 0
  fp _ := 0
  ins _ := 0
  outs := []
  mem := Gate.fill Stage2.faultStored (fstubAddr placement) 0 (fun _ => 0) 32

/-- The page fault is reported. -/
theorem fault_report_loadingState :
    (LeadsTo (step placement code)
      (placement.label (deliver 14 2#64 loadingState).rip, deliver 14 2#64 loadingState) fun x =>
        x.1 = .stopped ∧ x.2.outs = (report 14 2 0x100000 0x1000).map fun b => (0x3F8, b)) ∧
    readReport (report 14 2 0x100000 0x1000) = some (14, 2, 0x100000, 0x1000) := by
  have hlt : ∀ v, fstubAddr placement v < 2 ^ 32 := by
    intro v
    have hv := (Fin.ofNat 32 v).isLt
    change (BitVec.ofNat 64 (0x8000 + (Fin.ofNat 32 v).val)).toNat < 2 ^ 32
    rw [BitVec.toNat_ofNat]
    omega
  have hgates : Gate.Gates loadingState.mem 0 (fstubGate placement) 32 :=
    Gate.gates_fill Stage2.eqOutside_faultStored fun _ _ v _ => Stage2.gateAt_faultStored (hlt v)
  exact fault_report (by decide) hgates

end Fault

end Qizo
