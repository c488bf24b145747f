import Qizo.Lib.Amd64

/-!
# Interrupt entry and exit

`kernel/idt.S`: the entry stubs of the 256 vectors, the code they share, and `qizo_idt_install`,
which points every gate of the interrupt table at its stub. The two calls from the shared code go
to C, `qizo_irq_handler` and `qizo_irq_eoi`; runs stop there, and go on in any state a C function
may come back in.

## Main results

* `leadsTo_idtInstall` — every gate leads to its stub
-/

namespace Qizo

namespace Interrupt

open Amd64 Reg Operand StateTransition Memory Gate
open X64 (ld64)

/-! ### Code -/

/-- The labels of `idt.S`, with names for the places calls return to. `outside` is everything
else. -/
inductive Label where
  | stub (v : Fin 256) | isrCommon | irqHandler | handlerBack | irqEoi | eoiBack
  | idtInstall | idtFill | idtLoad | outside
  deriving DecidableEq, Repr

/-- Where the linker puts the data. -/
structure Symbols where
  /-- `qizo_stub_table`. -/
  stubTable : ℕ
  /-- `qizo_idt`. -/
  idt : ℕ
  /-- `qizo_idt_ptr`. -/
  idtPtr : ℕ
  /-- `qizo_fp_area`. -/
  fpArea : BitVec 64

/-- The registers that are saved, in the order they are pushed. -/
def saved : List Reg :=
  [rax, rbx, rcx, rdx, rsi, rdi, rbp, r8, r9, r10, r11, r12, r13, r14, r15]

/-- The vectors for which `QIZO_STUB` pushes no zero. -/
def stubHasCode (v : ℕ) : Bool := v ∈ [8, 10, 11, 12, 13, 14, 17, 21, 29, 30]

/-- `QIZO_STUB` for the first 32 vectors, `QIZO_IRQ` for the others. -/
def stubBody (v : ℕ) : List (Instr Label) :=
  if v < 32 then
    (if stubHasCode v then [] else [.op (pushq (imm 0))]) ++
      [.op (pushq (imm v)), .jmp .isrCommon]
  else [.op (pushq (imm 0)), .op (pushq (imm v)), .jmp .isrCommon]

/-- The code of `idt.S`. -/
def code (sym : Symbols) : Label → Option (Block Label)
  | .stub v => some ⟨stubBody v, .isrCommon⟩
  | .isrCommon => some ⟨.op (fxsave sym.fpArea) :: (pushAll saved ++
      [.op cld,
       .op (mov 64 rsp rbp),
       .op (Amd64.and 64 (imm (2 ^ 64 - 16)) rsp),
       .op (mov 64 rbp rdi),
       .call .irqHandler]), .handlerBack⟩
  | .handlerBack => some ⟨
      [.op (mov 64 rbp rdi),
       .call .irqEoi], .eoiBack⟩
  | .eoiBack => some ⟨
      .op (mov 64 rbp rsp) :: .op (fxrstor sym.fpArea) :: (popAll saved.reverse ++
      [.op (add 64 (imm 16) rsp),
       .iret]), .outside⟩
  | .idtInstall => some ⟨
      [.op (lea (.ofNat 64 sym.stubTable) rsi),
       .op (lea (.ofNat 64 sym.idt) rdi),
       .op (mov 32 (imm 256) rcx)], .idtFill⟩
  | .idtFill => some ⟨
      [.op (mov 64 (ind 0 rsi) rax),
       .op (mov 16 rax (ind 0 rdi)),
       .op (mov 16 (imm 0x0008) (ind 2 rdi)),
       .op (mov 16 (imm 0x8E00) (ind 4 rdi)),
       .op (shr 64 16 rax),
       .op (mov 16 rax (ind 6 rdi)),
       .op (shr 64 16 rax),
       .op (mov 32 rax (ind 8 rdi)),
       .op (mov 32 (imm 0) (ind 12 rdi)),
       .op (add 64 (imm 8) rsi),
       .op (add 64 (imm 16) rdi),
       .op (dec 32 rcx),
       jnz .idtFill], .idtLoad⟩
  | .idtLoad => some ⟨
      [.op (lea (.ofNat 64 sym.idtPtr) rax),
       .op (lidt rax),
       .ret], .outside⟩
  | .irqHandler | .irqEoi | .outside => none

/-! ### Filling the table -/

variable {k : Link Label} {sym : Symbols} {s : Cpu} {m : Memory} {a d j : ℕ}

/-- The six stores of one pass of the loop, for the handler at `v`. -/
def gateStored (m : Memory) (d v : ℕ) : Memory :=
  (((((m.store 2 d (v % 2 ^ 16)).store 2 (d + 2) 0x0008).store 2 (d + 4) 0x8E00).store 2 (d + 6)
    (v / 2 ^ 16 % 2 ^ 16)).store 4 (d + 8) (v / 2 ^ 32)).store 4 (d + 12) 0

/-- One pass of the loop. -/
theorem leadsTo_idtFill_pass {Q : Label × Cpu → Prop} (hrcx : s.gpr rcx = .ofNat 64 (j + 1))
    (hrsi : s.gpr rsi = .ofNat 64 a) (hrdi : s.gpr rdi = .ofNat 64 d) (hj : j < 256)
    (hd : d + 16 ≤ 2 ^ 64)
    (hQ : ∀ s' l, s'.gpr rcx = .ofNat 64 j → s'.gpr rsi = .ofNat 64 (a + 8) →
      s'.gpr rdi = .ofNat 64 (d + 16) → s'.gpr rsp = s.gpr rsp →
      s'.mem = gateStored s.mem d (ld64 s.mem (.ofNat 64 a)).toNat →
      l = (if j = 0 then .idtLoad else .idtFill) → LeadsTo (step k (code sym)) (l, s') Q) :
    LeadsTo (step k (code sym)) (.idtFill, s) Q := by
  have hstore {m : Memory} {w i v : ℕ} (hi : i + w ≤ 16) :
      X64.stBytes (ByteString.leBytes w v) (.ofNat 64 (d + i)) m = m.store w (d + i) v := by
    rw [X64.stBytes_ofNat (by rw [ByteString.length_leBytes]; omega), Memory.store]
  have hcount : (BitVec.ofNat 64 (j + 1)).setWidth 32 - 1#32 = BitVec.ofNat 32 j := by
    apply BitVec.eq_of_toNat_eq
    rw [BitVec.toNat_sub, BitVec.toNat_setWidth, BitVec.toNat_ofNat, BitVec.toNat_ofNat,
      BitVec.toNat_ofNat]
    omega
  have hcount64 : (BitVec.ofNat 32 j).setWidth 64 = BitVec.ofNat 64 j := by
    apply BitVec.eq_of_toNat_eq
    rw [BitVec.toNat_setWidth, BitVec.toNat_ofNat, BitVec.toNat_ofNat]
    omega
  have hzero : (BitVec.ofNat 32 j == 0#32) = decide (j = 0) := by
    rw [Bool.eq_iff_iff, beq_iff_eq, decide_eq_true_iff, ← BitVec.toNat_inj, BitVec.toNat_ofNat,
      BitVec.toNat_ofNat]
    omega
  refine leadsTo_block rfl ?_
  simp only [runBlock, mov, shr, add, dec, jnz, read_reg, read_imm, read_64_ind, write_64_reg,
    write_32_reg, write_ind, Cpu.set_gpr, Cpu.set_mem, Cpu.setMem_gpr, Cpu.setMem_mem,
    Cpu.flags_gpr, Cpu.zf_flags', ne_eq, reduceCtorEq, not_false_eq_true,
    Function.update_self, Function.update_of_ne, hrcx, hrsi, hrdi, X64.ofNat_add_ofNat,
    BitVec.setWidth_eq, BitVec.ofNat_eq_ofNat, hcount, hzero]
  refine leadsTo_branch (hQ _ _ ?_ ?_ ?_ ?_ ?_ ?_)
  · simp [hcount64]
  · simp
  · simp
  · simp
  · simp only [Cpu.flags'_mem, Cpu.set_mem, Cpu.flags_mem, Cpu.setMem_mem]
    generalize ld64 s.mem (.ofNat 64 (a + 0)) = v
    have hlow : (v.setWidth 16).toNat = v.toNat % 2 ^ 16 := BitVec.toNat_setWidth 16 v
    have hmid : ((v >>> 16).setWidth 16).toNat = v.toNat / 2 ^ 16 % 2 ^ 16 := by
      rw [BitVec.toNat_setWidth, BitVec.toNat_ushiftRight, Nat.shiftRight_eq_div_pow]
    have hhigh : ((v >>> 16 >>> 16).setWidth 32).toNat = v.toNat / 2 ^ 32 := by
      have := v.isLt
      rw [BitVec.toNat_setWidth, BitVec.toNat_ushiftRight, BitVec.toNat_ushiftRight,
        Nat.shiftRight_eq_div_pow, Nat.shiftRight_eq_div_pow]
      omega
    rw [hlow, hmid, hhigh, hstore (by decide), hstore (by decide), hstore (by decide),
      hstore (by decide), hstore (by decide), hstore (by decide)]
    rfl
  · simp

theorem eqOutside_gateStored (m : Memory) (d v : ℕ) :
    EqOutside m (gateStored m d v) [(d, 16)] := by
  refine ((((((EqOutside.refl m _).store ?_).store ?_).store ?_).store ?_).store ?_).store ?_
  all_goals
    intro x hx
    rw [outside_singleton] at hx
    omega

/-- What the stores of a pass make is a gate. -/
theorem gateAt_gateStored {v : ℕ} (hv : v < 2 ^ 64) :
    gateAt (gateStored m d v) d = interruptGate 0x08 v := by
  have hword : v % 2 ^ 16 < 256 ^ 2 ∧ v / 2 ^ 16 % 2 ^ 16 < 256 ^ 2 ∧ v / 2 ^ 32 < 256 ^ 4 := by
    omega
  apply gateAt_eq
  · rw [load_four, gateStored]
    simp (disch := omega) only [load_store_of_disjoint]
    rw [load_store_self hword.1, load_store_self (by decide)]
  · rw [load_four, gateStored]
    simp (disch := omega) only [load_store_of_disjoint]
    rw [load_store_self (by decide), load_store_self hword.2.1]
    omega
  · rw [gateStored, load_store_of_disjoint (.inl (by omega)), load_store_self hword.2.2]
  · rw [gateStored, load_store_self (by decide)]

/-- The address of a stub. -/
def stubAddr (k : Link Label) (v : ℕ) : ℕ := (k.addr (.stub (Fin.ofNat 256 v))).toNat

/-- The gate of a vector. -/
def stubGate (k : Link Label) (v : ℕ) : Descriptor :=
  interruptGate 0x08 (stubAddr k v)

/-- What the linker promises: the table of the stubs and the operand of `lidt` hold what they
should, and the parts lie apart. -/
structure Linked (k : Link Label) (sym : Symbols) (m : Memory) : Prop where
  stubs : ∀ v < 256, ld64 m (.ofNat 64 (sym.stubTable + 8 * v)) = k.addr (.stub (Fin.ofNat 256 v))
  ptr : ld64 m (.ofNat 64 (sym.idtPtr + 2)) = .ofNat 64 sym.idt
  stubTable_le : sym.stubTable + 2048 ≤ 2 ^ 64
  idt_le : sym.idt + 4096 ≤ 2 ^ 64
  idtPtr_le : sym.idtPtr + 10 ≤ 2 ^ 64
  stubTable_apart : sym.stubTable + 2048 ≤ sym.idt ∨ sym.idt + 4096 ≤ sym.stubTable
  idtPtr_apart : sym.idtPtr + 10 ≤ sym.idt ∨ sym.idt + 4096 ≤ sym.idtPtr

/-- A quad word outside the ranges that change. -/
theorem ld64_of_eqOutside {m' : Memory} {R : List (ℕ × ℕ)} (he : EqOutside m m' R)
    (ha : a + 8 ≤ 2 ^ 64) (hR : ∀ x, a ≤ x → x < a + 8 → Outside R x) :
    ld64 m' (.ofNat 64 a) = ld64 m (.ofNat 64 a) := by
  refine X64.ld64_congr fun i hi => ?_
  rw [X64.ldByte_ofNat (by omega), X64.ldByte_ofNat (by omega)]
  exact he _ (hR _ (by omega) (by omega))

/-- The table after `256 - j` passes. -/
structure Filled (k : Link Label) (sym : Symbols) (s : Cpu) (j : ℕ) (s' : Cpu) : Prop where
  rcx : s'.gpr rcx = .ofNat 64 j
  rsi : s'.gpr rsi = .ofNat 64 (sym.stubTable + 8 * (256 - j))
  rdi : s'.gpr rdi = .ofNat 64 (sym.idt + 16 * (256 - j))
  rsp : s'.gpr rsp = s.gpr rsp
  mem : s'.mem = fill gateStored (stubAddr k) sym.idt s.mem (256 - j)

/-- **The loop.** -/
theorem leadsTo_idtFill {s' : Cpu} (hl : Linked k sym s.mem) (h : Filled k sym s 256 s') :
    LeadsTo (step k (code sym)) (.idtFill, s') fun x => x.1 = .idtLoad ∧
      Filled k sym s 0 x.2 := by
  have h1 := hl.stubTable_le
  have h2 := hl.idt_le
  have h3 := hl.stubTable_apart
  refine LeadsTo.countdown (P := fun j x => x.1 = .idtFill ∧ j ≤ 256 ∧ Filled k sym s j x.2)
    ?_ 255 ⟨rfl, le_rfl, h⟩
  rintro j ⟨_, s₁⟩ ⟨rfl, hj, hs₁⟩
  refine leadsTo_idtFill_pass hs₁.rcx hs₁.rsi hs₁.rdi hj (by omega) ?_
  rintro s₂ _ hrcx hrsi hrdi hrsp hmem rfl
  have hstub : ld64 s₁.mem (.ofNat 64 (sym.stubTable + 8 * (256 - (j + 1)))) =
      k.addr (.stub (Fin.ofNat 256 (256 - (j + 1)))) := by
    rw [hs₁.mem, ld64_of_eqOutside (eqOutside_fill eqOutside_gateStored _) (by omega)
      fun x hx hx' => ?_, hl.stubs _ (by omega)]
    rw [outside_singleton]
    omega
  rw [hstub] at hmem
  have hindex : 256 - j = 256 - (j + 1) + 1 := by omega
  have hpushed : Filled k sym s j s₂ := by
    refine ⟨hrcx, ?_, ?_, hrsp.trans hs₁.rsp, ?_⟩
    · rw [hrsi, hindex, Nat.mul_succ, Nat.add_assoc]
    · rw [hrdi, hindex, Nat.mul_succ, Nat.add_assoc]
    · rw [hmem, hs₁.mem, hindex]
      rfl
  by_cases hz : j = 0
  · subst hz
    rw [if_pos rfl]
    exact .now (.inl ⟨rfl, hpushed⟩)
  · rw [if_neg hz]
    exact .now (.inr ⟨hz, rfl, by omega, hpushed⟩)

/-- **`qizo_idt_install`** points every gate at its stub, loads the table and changes nothing
else. -/
theorem leadsTo_idtInstall (hl : Linked k sym s.mem) (hsp : (s.gpr rsp).toNat + 8 ≤ 2 ^ 64)
    (hstack : (s.gpr rsp).toNat + 8 ≤ sym.idt ∨ sym.idt + 4096 ≤ (s.gpr rsp).toNat) :
    LeadsTo (step k (code sym)) (.idtInstall, s) fun x => x.1 = k.label s.top ∧
      x.2.gpr rsp = s.gpr rsp + 8#64 ∧ x.2.idtr = .ofNat 64 sym.idt ∧
      Gates x.2.mem sym.idt (stubGate k) 256 ∧ EqOutside s.mem x.2.mem [(sym.idt, 4096)] := by
  have h1 := hl.idtPtr_le
  have h2 := hl.idtPtr_apart
  refine leadsTo_block rfl ?_
  simp only [runBlock, lea, mov, read_imm, write_32_reg]
  refine LeadsTo.trans (leadsTo_idtFill (s := s) hl ⟨?_, ?_, ?_, ?_, rfl⟩) ?_
  · simp
  · simp
  · simp
  · simp
  rintro ⟨_, s₁⟩ ⟨rfl, hs₁⟩
  dsimp only at hs₁
  have hframe : EqOutside s.mem s₁.mem [(sym.idt, 4096)] := by
    rw [hs₁.mem]
    exact eqOutside_fill eqOutside_gateStored 256
  have hgates : Gates s₁.mem sym.idt (stubGate k) 256 := by
    rw [hs₁.mem]
    exact gates_fill eqOutside_gateStored fun _ _ _ _ => gateAt_gateStored (BitVec.isLt _)
  have htop : ld64 s₁.mem (s₁.gpr rsp) = s.top := by
    have hsp' : s.gpr rsp = .ofNat 64 (s.gpr rsp).toNat := by
      rw [BitVec.ofNat_toNat, BitVec.setWidth_eq]
    rw [hs₁.rsp, Cpu.top, hsp']
    refine ld64_of_eqOutside hframe hsp fun x hx hx' => ?_
    rw [outside_singleton]
    omega
  have hptr : ld64 s₁.mem (.ofNat 64 (sym.idtPtr + 2)) = .ofNat 64 sym.idt := by
    rw [ld64_of_eqOutside hframe (by omega) fun x hx hx' => ?_, hl.ptr]
    rw [outside_singleton]
    omega
  refine leadsTo_block rfl (.now ?_)
  have hrsp : (lidt rax (lea (.ofNat 64 sym.idtPtr) rax s₁)).gpr rsp = s₁.gpr rsp := by
    simp [lidt, lea]
  have hmem : (lidt rax (lea (.ofNat 64 sym.idtPtr) rax s₁)).mem = s₁.mem := rfl
  have hidtr : (lidt rax (lea (.ofNat 64 sym.idtPtr) rax s₁)).idtr = .ofNat 64 sym.idt := by
    simp [lidt, lea, X64.ofNat_add_ofNat, hptr]
  refine ⟨congrArg k.label ?_, ?_, hidtr, hgates, hframe⟩
  · rw [Cpu.top, hmem, hrsp, htop]
  · rw [runBlock, runBlock, runBlock, Cpu.drop_gpr, Function.update_self, hrsp, hs₁.rsp]

/-! ### A placement

Stubs behind a page that everything else is in. -/

/-- The labels by number, and the stubs from 256 on. -/
def placed (n : ℕ) : Label :=
  if 256 ≤ n ∧ n < 512 then .stub (Fin.ofNat 256 (n - 256)) else
    [.isrCommon, .irqHandler, .handlerBack, .irqEoi, .eoiBack, .idtInstall, .idtFill,
      .idtLoad].getD n .outside

/-- Where they are. -/
def place : Label → ℕ
  | .stub v => 256 + v
  | .isrCommon => 0
  | .irqHandler => 1
  | .handlerBack => 2
  | .irqEoi => 3
  | .eoiBack => 4
  | .idtInstall => 5
  | .idtFill => 6
  | .idtLoad => 7
  | .outside => 8

/-- The labels there. -/
def placement : Link Label where
  addr l := .ofNat 64 (place l)
  label a := placed a.toNat
  label_addr l := by
    have hlt : place l < 2 ^ 64 := by
      cases l <;> rw [place] <;> omega
    rw [BitVec.toNat_ofNat, Nat.mod_eq_of_lt hlt]
    cases l with
    | stub v =>
      rw [place, placed, if_pos (by omega), Nat.add_sub_cancel_left, Fin.ofNat_val_eq_self]
    | _ => rfl

/-- The table of the stubs at 0, the operand of `lidt` behind it, for a table at `0x1000`. -/
def stubMem : Memory := fun x =>
  if x < 2048 then if x % 8 = 0 then .ofNat (x / 8) else if x % 8 = 1 then 1 else 0
  else if x = 0x803 then 0x10 else 0

theorem linked_stubMem : Linked placement ⟨0, 0x1000, 0x800, 0x3000#64⟩ stubMem where
  stubs v hv := by
    have hbyte (i : ℕ) (hi : i < 8) : X64.ldByte stubMem (.ofNat 64 (0 + 8 * v)) i =
        if i = 0 then .ofNat v else if i = 1 then 1 else 0 := by
      rw [X64.ldByte_ofNat (by omega), stubMem, if_pos (by omega)]
      have hmod : (0 + 8 * v + i) % 8 = i := by omega
      rw [hmod]
      split
      · rw [show (0 + 8 * v + i) / 8 = v by omega]
      · rfl
    have hword : (List.range 8).map (X64.ldByte stubMem (.ofNat 64 (0 + 8 * v))) =
        [.ofNat v, 1, 0, 0, 0, 0, 0, 0] := by
      rw [List.map_congr_left fun i hi => hbyte i (List.mem_range.mp hi)]
      rfl
    have hlow : (UInt8.ofNat v).toNat = v := by
      rw [UInt8.toNat_ofNat']
      omega
    have hval : (Fin.ofNat 256 v).val = v := Nat.mod_eq_of_lt hv
    change X64.ld64 _ _ = .ofNat 64 (256 + (Fin.ofNat 256 v).val)
    rw [ld64, hword, hval, Nat.add_comm 256]
    simp [ByteString.leNat_cons, hlow]
  ptr := by decide
  stubTable_le := by decide
  idt_le := by decide
  idtPtr_le := by decide
  stubTable_apart := by decide
  idtPtr_apart := by decide

/-- A state in which the table can be installed. -/
def installState : Cpu where
  gpr r := if r = rsp then 0x8000#64 else 0
  rflags := 0x2#64
  rip := 0
  cs := 8
  ss := 0x10
  cr2 := 0
  idtr := 0
  fp _ := 0
  ins _ := 0
  outs := []
  mem := stubMem

theorem leadsTo_idtInstall_installState :
    LeadsTo (step placement (code ⟨0, 0x1000, 0x800, 0x3000#64⟩)) (.idtInstall, installState)
      fun x => x.1 = placement.label installState.top ∧
        x.2.gpr rsp = installState.gpr rsp + 8#64 ∧ x.2.idtr = .ofNat 64 0x1000 ∧
        Gates x.2.mem 0x1000 (stubGate placement) 256 ∧
        EqOutside installState.mem x.2.mem [(0x1000, 4096)] :=
  leadsTo_idtInstall linked_stubMem (by decide) (.inr (by decide))

end Interrupt

end Qizo
