import Qizo.Boot.Handoff
import Qizo.Lib.Gate

/-!
# The table of the fault handlers

The loop `fidt_fill` of `boot/stage2.S` splits the address of each stub over two double words of
its gate. The table it makes is the one exceptions go through until the kernel has its own: the
interrupt table register is loaded behind the loop, and nothing loads it again before the jump.

## Main results

* `leadsTo_delivered_gates` — the kernel is entered with every gate in place and the register on
  the table
-/

namespace Qizo

namespace Stage2

open X86 Reg Operand Label StateTransition ByteString Memory Gate

variable {fst : ℕ} {k : Link Label} {s : Cpu} {F : ℕ → ℕ} {m : Memory} {d v : ℕ}

/-! ### One gate -/

/-- The four stores of one pass, for the handler at `v`. -/
def faultStored (m : Memory) (d v : ℕ) : Memory :=
  (((m.store 4 d (v % 2 ^ 16 + 0x280000)).store 4 (d + 4)
    (v / 2 ^ 16 % 2 ^ 16 * 2 ^ 16 + 0x8E00)).store 4 (d + 8) 0).store 4 (d + 12) 0

theorem eqOutside_faultStored (m : Memory) (d v : ℕ) :
    EqOutside m (faultStored m d v) [(d, 16)] := by
  refine ((((EqOutside.refl m _).store ?_).store ?_).store ?_).store ?_
  all_goals
    intro x hx
    rw [outside_singleton] at hx
    omega

/-- What the stores of a pass make is a gate. -/
theorem gateAt_faultStored (hv : v < 2 ^ 32) :
    gateAt (faultStored m d v) d = interruptGate 0x28 v := by
  have hword :
      v % 2 ^ 16 + 0x280000 < 256 ^ 4 ∧ v / 2 ^ 16 % 2 ^ 16 * 2 ^ 16 + 0x8E00 < 256 ^ 4 := by
    omega
  apply gateAt_eq
  · rw [faultStored]
    simp (disch := omega) only [load_store_of_disjoint]
    rw [load_store_self hword.1]
    omega
  · rw [faultStored]
    simp (disch := omega) only [load_store_of_disjoint]
    rw [load_store_self hword.2]
  · rw [faultStored, load_store_of_disjoint (.inl (by omega)), load_store_self (by decide)]
    omega
  · rw [faultStored, load_store_self (by decide)]

/-- The low half of the address, and the selector. -/
theorem toNat_low_word (hv : v < 2 ^ 32) :
    (BitVec.ofNat 32 v &&& BitVec.ofNat 32 0xFFFF ||| BitVec.ofNat 32 0x280000).toNat =
      v % 2 ^ 16 + 0x280000 := by
  rw [BitVec.toNat_or, BitVec.toNat_and, toNat_ofNat_of_lt hv, toNat_ofNat_of_lt (by decide),
    toNat_ofNat_of_lt (by decide), Nat.and_two_pow_sub_one_eq_mod v 16, Nat.or_comm,
    show 0x280000 = 2 ^ 16 * 0x28 from rfl, or_eq_add (Nat.mod_lt _ (by decide)), Nat.add_comm]

/-- The high half of the address, and the attributes. -/
theorem toNat_high_word (hv : v < 2 ^ 32) :
    (BitVec.ofNat 32 v &&& BitVec.ofNat 32 0xFFFF0000 ||| BitVec.ofNat 32 0x8E00).toNat =
      v / 2 ^ 16 % 2 ^ 16 * 2 ^ 16 + 0x8E00 := by
  have hmask : v &&& 0xFFFF0000 = 2 ^ 16 * (v / 2 ^ 16) := by
    have hone : ∀ i < 32, Nat.testBit 0xFFFF0000 i = decide (16 ≤ i) := by decide
    refine Nat.eq_of_testBit_eq fun i => ?_
    rw [Nat.testBit_and, Nat.testBit_two_pow_mul, Nat.testBit_div_two_pow]
    by_cases hi : i < 32
    · rw [hone i hi]
      by_cases h16 : 16 ≤ i
      · simp [h16]
      · simp [h16]
    · have hlarge : v.testBit i = false :=
        Nat.testBit_lt_two_pow (hv.trans_le (Nat.pow_le_pow_right (by decide) (by omega)))
      have hback : v.testBit (i - 16 + 16) = false := by rwa [Nat.sub_add_cancel (by omega)]
      simp [hlarge, hback]
  rw [BitVec.toNat_or, BitVec.toNat_and, toNat_ofNat_of_lt hv, toNat_ofNat_of_lt (by decide),
    toNat_ofNat_of_lt (by decide), hmask, or_eq_add (by decide)]
  omega

/-! ### The loop -/

/-- What `lidt` loads from `a`. -/
def tableReg (m : Memory) (a : ℕ) : TableReg :=
  ⟨ld16 m (.ofNat 32 a), ld32 m (.ofNat 32 (a + 2))⟩

/-- One pass. -/
theorem leadsTo_fidtFill_pass {Q : Label × Cpu → Prop} {j e : ℕ} (hecx : s.ecx = .ofNat 32 (j + 1))
    (hesi : s.esi = .ofNat 32 d) (hedi : s.edi = .ofNat 32 e) (hv : s.mem.load 4 d = v)
    (hj : j < 2 ^ 32) (hd : d + 4 ≤ 2 ^ 32) (he : e + 16 ≤ 2 ^ 32) (hde : d + 4 ≤ e)
    (hback : ∀ s', j ≠ 0 → s'.ecx = .ofNat 32 j → s'.esi = .ofNat 32 (d + 4) →
      s'.edi = .ofNat 32 (e + 16) → s'.esp = s.esp → s'.mem = faultStored s.mem e v →
      LeadsTo (step fst k) (fidtFill, s') Q)
    (hcall : ∀ s', j = 0 → s'.esp = s.esp - 4#32 →
      s'.mem = st32 (faultStored s.mem e v) (s.esp - 4#32) (k.addr pagesBack) →
      s'.idtr = tableReg (faultStored s.mem e v) (fst + 128) →
      LeadsTo (step fst k) (qizoBuildPages, s') Q) :
    LeadsTo (step fst k) (fidtFill, s) Q := by
  have hlt : v < 2 ^ 32 := hv ▸ load_lt s.mem 4 d
  refine leadsTo_block rfl ?_
  simp only [runBlock, movl, andl, orl, addl, decl, jne, lidt, Cpu.ea, Cpu.read, Cpu.write, Cpu.get,
    Cpu.set, hecx, hesi, hedi, BitVec.add_zero, ofNat_add_ofNat, ofNat_succ_sub_one,
    ofNat_beq_zero hj]
  have hread : ld32 s.mem (.ofNat 32 d) = .ofNat 32 v := by rw [ld32_ofNat hd, hv]
  have hagain (w : ℕ) : ld32 (s.mem.store 4 e w) (.ofNat 32 d) = .ofNat 32 v := by
    rw [ld32_ofNat hd, load_store_of_disjoint (by omega), hv]
  have hlow := toNat_low_word hlt
  have hhigh := toNat_high_word hlt
  rw [hread, st32_ofNat (by omega), hlow, hagain, st32_ofNat (by omega), st32_ofNat (by omega),
    st32_ofNat (by omega), hhigh]
  refine LeadsTo.ite (fun hne => hback _ (by simpa using hne) rfl rfl rfl rfl rfl) fun hz =>
    hcall _ (by simpa using hz) rfl rfl rfl

/-- The addresses of the stubs are in stage2, in front of the table, and behind them is the operand
of `lidt`: the last offset of the table and its address. -/
structure StubTable (fst : ℕ) (F : ℕ → ℕ) (m : Memory) : Prop where
  stubs : ∀ v < 32, m.load 4 (fst + 4 * v) = F v
  limit : m.load 2 (fst + 128) = 32 * 16 - 1
  base : m.load 4 (fst + 130) = idtBoot
  fst_le : fst + 134 ≤ idtBoot

/-- The operand stays where it is while the table is filled. -/
theorem StubTable.tableReg_eq {m m' : Memory} {n : ℕ} (h : StubTable fst F m)
    (hframe : EqOutside m m' [(idtBoot, n)]) :
    tableReg m' (fst + 128) = ⟨32 * 16 - 1, .ofNat 32 idtBoot⟩ := by
  have hfst := h.fst_le
  rw [idtBoot] at hfst
  have hlimit : (ld16 m' (.ofNat 32 (fst + 128))).toNat = 32 * 16 - 1 := by
    rw [toNat_ld16 (by rw [toNat_ofNat_of_lt (by omega)]; omega), toNat_ofNat_of_lt (by omega),
      hframe.load_eq fun x hx hx' => ?_, h.limit]
    rw [outside_singleton, idtBoot]
    omega
  have hbase : m'.load 4 (fst + 130) = idtBoot := by
    rw [hframe.load_eq fun x hx hx' => ?_, h.base]
    rw [outside_singleton, idtBoot]
    omega
  rw [tableReg, ld32_ofNat (by omega), hbase]
  congr 1
  exact BitVec.eq_of_toNat_eq hlimit

/-- The table after `32 - j` passes. -/
structure FaultFilled (fst : ℕ) (F : ℕ → ℕ) (s : Cpu) (j : ℕ) (s' : Cpu) : Prop where
  ecx : s'.ecx = .ofNat 32 j
  esi : s'.esi = .ofNat 32 (fst + 4 * (32 - j))
  edi : s'.edi = .ofNat 32 (idtBoot + 16 * (32 - j))
  esp : s'.esp = s.esp
  mem : s'.mem = fill faultStored F idtBoot s.mem (32 - j)

/-- **The loop**, and the call behind it. -/
theorem leadsTo_fidtFill_filled (h : StubTable fst F s.mem) (hesp : s.esp = .ofNat 32 pmStack) :
    LeadsTo (step fst k) (zeroBack, s) fun x => x.1 = qizoBuildPages ∧
      Called k pagesBack (pmStack - 4) x.2 ∧ x.2.idtr = ⟨32 * 16 - 1, .ofNat 32 idtBoot⟩ ∧
      x.2.mem =
        (fill faultStored F idtBoot s.mem 32).store 4 (pmStack - 4) (k.addr pagesBack).toNat := by
  have hfst := h.fst_le
  rw [idtBoot] at hfst
  refine leadsTo_block rfl ?_
  simp only [runBlock, movl, Cpu.read, Cpu.write, Cpu.set]
  refine LeadsTo.countdown
    (P := fun j x => x.1 = fidtFill ∧ j ≤ 32 ∧ FaultFilled fst F s j x.2) ?_ 31
    ⟨rfl, le_rfl, rfl, rfl, rfl, rfl, rfl⟩
  rintro j ⟨_, s₁⟩ ⟨rfl, hj, h₁⟩
  have hstub : s₁.mem.load 4 (fst + 4 * (32 - (j + 1))) = F (32 - (j + 1)) := by
    rw [h₁.mem, (eqOutside_fill eqOutside_faultStored _).load_eq fun x hx hx' => ?_,
      h.stubs _ (by omega)]
    rw [outside_singleton, idtBoot]
    omega
  have hindex : 32 - j = 32 - (j + 1) + 1 := by omega
  have hfill : faultStored s₁.mem (idtBoot + 16 * (32 - (j + 1))) (F (32 - (j + 1))) =
      fill faultStored F idtBoot s.mem (32 - j) := by
    rw [hindex, h₁.mem]
    rfl
  refine leadsTo_fidtFill_pass h₁.ecx h₁.esi h₁.edi hstub (by omega) (by omega) ?_ ?_ ?_ ?_
  · rw [idtBoot]
    omega
  · rw [idtBoot]
    omega
  · intro s' hne hecx hesi hedi hesp' hmem
    refine .now (.inr ⟨hne, rfl, by omega, hecx, ?_, ?_, hesp'.trans h₁.esp, hmem.trans hfill⟩)
    · rw [hesi, hindex, Nat.mul_succ, Nat.add_assoc]
    · rw [hedi, hindex, Nat.mul_succ, Nat.add_assoc]
  · rintro s' rfl hesp' hmem hidtr
    have hsp : s₁.esp - 4#32 = .ofNat 32 (pmStack - 4) := by
      rw [h₁.esp, hesp, ofNat_sub_ofNat (by decide)]
    rw [hfill, hsp, st32_ofNat (by decide)] at hmem
    rw [hfill, h.tableReg_eq (eqOutside_fill eqOutside_faultStored _)] at hidtr
    exact .now (.inl ⟨rfl, called_push (by decide) (by decide) (hesp'.trans hsp) hmem, hidtr, hmem⟩)

theorem leadsTo_gates {klen entry total : ℕ} (h : StubTable fst F s.mem)
    (hesp : s.esp = .ofNat 32 pmStack) (hsizes : SizesMem klen entry total s.mem) :
    LeadsTo (step fst k) (zeroBack, s) fun x => x.1 = entered ∧
      x.2.idtr = ⟨32 * 16 - 1, .ofNat 32 idtBoot⟩ ∧
      Gates x.2.mem idtBoot (fun v => interruptGate 0x28 (F v)) 32 := by
  have hlt : ∀ v < 32, F v < 2 ^ 32 := fun v hv => h.stubs v hv ▸ load_lt s.mem 4 _
  have hgates := gates_fill (w := faultStored) (m := s.mem) (t := idtBoot) (H := F)
    eqOutside_faultStored fun m d v hv => gateAt_faultStored (hlt v hv)
  have hfill := eqOutside_fill (w := faultStored) (m := s.mem) (t := idtBoot) (H := F)
    eqOutside_faultStored 32
  refine (leadsTo_fidtFill_filled h hesp).trans ?_
  rintro ⟨_, s₁⟩ ⟨rfl, hcall, hidtr, hmem⟩
  refine (leadsTo_qizoBuildPages hcall (by decide) (.inl (by decide))).trans ?_
  rintro ⟨_, s₂⟩ ⟨rfl, -, -, hpages, hidtr₂⟩
  dsimp only at hmem hidtr hpages hidtr₂
  have hpush := eqOutside_store (fill faultStored F idtBoot s.mem 32) 4 (pmStack - 4)
    (k.addr pagesBack).toNat
  rw [← hmem] at hpush
  have hsizes₂ : SizesMem klen entry total s₂.mem := by
    refine ((hsizes.of_eqOutside hfill fun x hx hx' => ?_).of_eqOutside hpush
      fun x hx hx' => ?_).of_eqOutside hpages fun x hx hx' => ?_
    all_goals
      simp only [outside_cons, outside_nil, and_true, bootinfo, biFlags, biKtext, idtBoot, pmStack,
        pagePml4] at hx hx' ⊢
      omega
  have hgates₂ : Gates s₂.mem idtBoot (fun v => interruptGate 0x28 (F v)) 32 := by
    refine (hgates.frame hpush fun x hx hx' => ?_).frame hpages fun x hx hx' => ?_
    all_goals
      simp only [outside_cons, outside_nil, and_true, idtBoot, pmStack, pagePml4] at hx hx' ⊢
      omega
  refine (leadsTo_entered_of_pagesBack hsizes₂).mono ?_
  rintro ⟨_, s₃⟩ ⟨rfl, hmem₃, -, hidtr₃⟩
  dsimp only at hmem₃ hidtr₃ ⊢
  exact ⟨rfl, hidtr₃.trans (hidtr₂.trans hidtr), hmem₃ ▸ hgates₂⟩

/-- **The kernel is entered with the table in place**: when it is delivered, every gate leads to
the stub of its vector, and the interrupt table register is on the table. -/
theorem leadsTo_delivered_gates {kernel : List UInt8} {entry total : ℕ} (h : StubTable fst F s.mem)
    (hesp : s.esp = .ofNat 32 pmStack) (hsizes : SizesMem kernel.length entry total s.mem)
    (hplaced : Placed kernel total s.mem) (hle : kernel.length ≤ total)
    (htotal : total ≤ kernelMax) :
    LeadsTo (step fst k) (zeroBack, s) fun x => Delivered kernel entry total x ∧
      x.2.idtr = ⟨32 * 16 - 1, .ofNat 32 idtBoot⟩ ∧
      Gates x.2.mem idtBoot (fun v => interruptGate 0x28 (F v)) 32 := by
  have hdelivered : LeadsTo (step fst k) (zeroBack, s) (Delivered kernel entry total) := by
    refine (leadsTo_pagesBack hsizes hplaced hle htotal hesp).trans ?_
    rintro ⟨_, s₁⟩ ⟨rfl, hsizes₁, hplaced₁⟩
    refine (leadsTo_entered_of_pagesBack hsizes₁).mono ?_
    rintro ⟨_, s₂⟩ ⟨rfl, hmem₂, heax₂, -⟩
    dsimp only at hmem₂ heax₂ hsizes₁ hplaced₁
    exact ⟨rfl, hmem₂ ▸ hplaced₁, hmem₂ ▸ hsizes₁, heax₂⟩
  -- Both runs end at the jump, so that they are one.
  have hend {x : Label × Cpu} (hx : x.1 = entered) : step fst k x = none := by
    rw [step, X86.step, hx]
    rfl
  refine (hdelivered.and_of_halted (leadsTo_gates h hesp hsizes) (fun x hx => hend hx.label)
    fun x hx => hend hx.1).mono fun x hx => ⟨hx.1, hx.2.2⟩

/-- A kernel of one instruction is in place, the stubs are one after the other from `0x8000` on, and
the operand of `lidt` stands behind their addresses. -/
def placedMem : Memory := fun x =>
  if x = ktext then 0xF4
  else if x = bootinfo + biKtext + 2 then 0x10
  else if x = bootinfo + biKernelSize ∨ x = bootinfo + biKernelTotal then 1
  else if 0x9000 ≤ x ∧ x < 0x9080 then
    if x % 4 = 0 then .ofNat ((x - 0x9000) / 4) else if x % 4 = 1 then 0x80 else 0
  else if 0x9080 ≤ x then [0xFF, 0x01, 0x00, 0x70, 0x30, 0x00].getD (x - 0x9080) 0
  else 0

theorem stubTable_placedMem : StubTable 0x9000 (fun v => 0x8000 + v) placedMem :=
  ⟨by decide +kernel, by decide +kernel, by decide +kernel, by decide⟩

theorem leadsTo_delivered_gates_placedMem :
    LeadsTo (step 0x9000 consecutiveLink)
      (zeroBack, { callWith [] 0 with esp := .ofNat 32 pmStack, mem := placedMem }) fun x =>
        Delivered [0xF4] 0 1 x ∧ x.2.idtr = ⟨32 * 16 - 1, .ofNat 32 idtBoot⟩ ∧
          Gates x.2.mem idtBoot (fun v => interruptGate 0x28 (0x8000 + v)) 32 :=
  leadsTo_delivered_gates stubTable_placedMem rfl
    ⟨by decide +kernel, by decide +kernel, by decide +kernel, by decide +kernel, by decide +kernel⟩
    ⟨holds_iff_bytes_eq.mpr (by decide +kernel), holds_nil _ _⟩ (by decide) (by decide)

end Stage2

end Qizo
