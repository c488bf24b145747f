import Qizo.Boot.Pages
import Qizo.Lib.X64

/-!
# The page tables of the kernel

`qizo_paging_setup` of `kernel/boot64.S` builds the tables the kernel runs with, at an address the
linker chooses, and loads them. They map the first GiB twice: at address zero, as the tables of
the loader do, and at `QIZO_HHDM_VIRT`. The routine runs with the loader's tables, under which
the linear addresses it writes to are physical ones.

## Main results

* `leadsTo_qizoPagingSetup` — what `qizo_paging_setup` writes, and that it loads it
* `page_tables` — the translations of the loader's tables and of the kernel's, and that they agree
  on the first GiB
-/

namespace Qizo

namespace Boot64

open X64 Reg Operand StateTransition Memory Paging

/-! ### Code -/

/-- `QIZO_PG_SIZE`. -/
def pgSize : ℕ := 0x6000
/-- `QIZO_HHDM_VIRT`. -/
def hhdmVirt : ℕ := 0xFFFF888000000000
/-- `QIZO_CR4_BITS`. -/
def cr4Bits : ℕ := 0x00000620
/-- `QIZO_EFER`. -/
def efer : ℕ := 0xC0000080

/-- The labels of `qizo_paging_setup`. -/
inductive Label where
  | qizoPagingSetup | zeroFill | tables | lowFill | high | highFill | load | ret
  deriving DecidableEq, Repr

/-- The body of the two loops that fill a page directory. -/
def directoryFill (again : Label) : List (Instr Label) :=
  [.op (movq rdx rcx),
   .op (shlq 21 rcx),
   .op (orq (imm 0x83#64) rcx),
   .op (movq rcx (ind 0#64 rdi)),
   .op (addq (imm 8#64) rdi),
   .op (incq rdx),
   .op (cmpq (imm 512#64) rdx),
   jb again]

/-- `qizo_paging_setup`, with the address of `qizo_pg_tables`. -/
def code (pgTables : BitVec 64) : Label → Option (Block Label)
  | .qizoPagingSetup => some ⟨
      [.op (movq (imm pgTables) r9),
       .op (movq r9 rdi),
       .op (movq r9 r8),
       .op (addq (imm (.ofNat 64 pgSize)) r8),
       .op (clear rax)], .zeroFill⟩
  | .zeroFill => some ⟨
      [.op (movq rax (ind 0#64 rdi)),
       .op (addq (imm 8#64) rdi),
       .op (cmpq r8 rdi),
       jb .zeroFill], .tables⟩
  | .tables => some ⟨
      [.op (movq r9 rax),
       .op (addq (imm 0x1000#64) rax),
       .op (orq (imm 0x03#64) rax),
       .op (movq rax (ind 0#64 r9)),
       .op (movq r9 rax),
       .op (addq (imm 0x3000#64) rax),
       .op (orq (imm 0x03#64) rax),
       .op (movq (imm (.ofNat 64 hhdmVirt)) rdx),
       .op (shrq 39 rdx),
       .op (andl 511#32 rdx),
       .op (movq rax (sib 0#64 r9 rdx 8#64)),
       .op (movq r9 rax),
       .op (addq (imm 0x2000#64) rax),
       .op (orq (imm 0x03#64) rax),
       .op (movq rax (ind 0x1000#64 r9)),
       .op (movq r9 rax),
       .op (addq (imm 0x4000#64) rax),
       .op (orq (imm 0x03#64) rax),
       .op (movq (imm (.ofNat 64 hhdmVirt)) rdx),
       .op (shrq 30 rdx),
       .op (andl 511#32 rdx),
       .op (movq rax (sib 0x3000#64 r9 rdx 8#64)),
       .op (movq r9 rdi),
       .op (addq (imm 0x2000#64) rdi),
       .op (clear rdx)], .lowFill⟩
  | .lowFill => some ⟨directoryFill .lowFill, .high⟩
  | .high => some ⟨
      [.op (movq r9 rdi),
       .op (addq (imm 0x4000#64) rdi),
       .op (clear rdx)], .highFill⟩
  | .highFill => some ⟨directoryFill .highFill, .load⟩
  | .load => some ⟨
      [.op (movq r9 rax),
       .op (movCr3 rax),
       .op (movl (imm (.ofNat 64 cr4Bits)) rax),
       .op (movCr4 rax),
       .op (movl (imm (.ofNat 64 efer)) rcx),
       .op rdmsr,
       .op (orl 0x901#32 rax),
       .op wrmsr,
       .op (readCr0 rax),
       .op (andl 0x9FFFFFFF#32 rax),
       .op (orl 0x80010001#32 rax),
       .op (movCr0 rax)], .ret⟩
  | .ret => none

/-! ### Entries -/

/-- The tables, entry by entry. -/
def kernelEntries (t : ℕ) : ℕ → ℕ :=
  fill (fill (Function.update (Function.update (Function.update (Function.update (fun _ => 0)
    0 (tableEntry (t + 0x1000))) 273 (tableEntry (t + 0x3000))) 512 (tableEntry (t + 0x2000)))
    1536 (tableEntry (t + 0x4000))) 1024 pageEntry 512) 2048 pageEntry 512

variable {t : ℕ} {s : Cpu} {Q : Label × Cpu → Prop} {pg : BitVec 64}

/-! ### Clearing -/

/-- One pass of the loop that clears the tables. -/
theorem leadsTo_zeroFill_pass {e : ℕ} (hrdi : s.rdi = .ofNat 64 e) (hrax : s.rax = 0#64)
    (he : e + 8 < 2 ^ 64)
    (hQ : ∀ s' l, s'.rdi = .ofNat 64 (e + 8) → s'.rax = 0#64 → s'.r8 = s.r8 → s'.r9 = s.r9 →
      s'.mem = s.mem.store 8 e 0 →
      l = (if e + 8 < s.r8.toNat then .zeroFill else .tables) →
      LeadsTo (step (code pg)) (l, s') Q) :
    LeadsTo (step (code pg)) (.zeroFill, s) Q := by
  refine leadsTo_block rfl ?_
  simp only [runBlock, movq, addq, cmpq, cmpFlags, Cpu.read, Cpu.write, Cpu.get, Cpu.set, Cpu.ea,
    jb, BitVec.add_zero, hrdi, hrax, ofNat_add_ofNat, st64_ofNat (by omega : e + 8 ≤ 2 ^ 64),
    toNat_ofNat_of_lt he, decide_eq_true_eq]
  refine LeadsTo.ite (fun hlt => ?_) (fun hlt => ?_)
  · exact hQ _ _ rfl rfl rfl rfl rfl (if_pos hlt).symm
  · exact hQ _ _ rfl rfl rfl rfl rfl (if_neg hlt).symm

/-- What a loop over the region at `t` has done after `i` passes from state `s` on: the entries are
those of `F`, but from number `base` on there are `i` entries of `g`. -/
structure Filling (s : Cpu) (t : ℕ) (F : ℕ → ℕ) (base : ℕ) (g : ℕ → ℕ) (i : ℕ) (s' : Cpu) :
    Prop where
  /-- The write pointer. -/
  rdi : s'.rdi = .ofNat 64 (t + 8 * (base + i))
  /-- The table address. -/
  r9 : s'.r9 = .ofNat 64 t
  /-- The entries so far. -/
  entries : Entries s'.mem t (fill F base g i) 3072
  /-- Nothing else has changed. -/
  frame : EqOutside s.mem s'.mem [(t, pgSize)]

variable {F g : ℕ → ℕ} {base i : ℕ}

/-- A pass. -/
theorem Filling.push {s₁ s₂ : Cpu} {v : ℕ} (h : Filling s t F base g i s₁) (hi : base + i < 3072)
    (hrdi : s₂.rdi = .ofNat 64 (t + 8 * (base + i) + 8)) (hr9 : s₂.r9 = s₁.r9) (hv : v < 2 ^ 64)
    (hg : v = g i) (hmem : s₂.mem = s₁.mem.store 8 (t + 8 * (base + i)) v) :
    Filling s t F base g (i + 1) s₂ where
  rdi := by rw [hrdi]; congr 1
  r9 := hr9.trans h.r9
  entries := by
    rw [hmem, ← update_fill, ← hg]
    exact h.entries.store hv
  frame := by
    rw [hmem]
    refine h.frame.store fun x hx => ?_
    simp only [outside_cons, outside_nil, and_true, pgSize] at hx
    omega

/-- **Clearing the tables.** -/
theorem leadsTo_zeroFill (hrdi : s.rdi = .ofNat 64 t) (hrax : s.rax = 0#64)
    (hr8 : s.r8 = .ofNat 64 (t + pgSize)) (hr9 : s.r9 = .ofNat 64 t) (ht : t < 2 ^ 32) :
    LeadsTo (step (code pg)) (.zeroFill, s) fun x => x.1 = .tables ∧ x.2.r9 = .ofNat 64 t ∧
      Entries x.2.mem t (fun _ => 0) 3072 ∧ EqOutside s.mem x.2.mem [(t, pgSize)] := by
  refine LeadsTo.countdown (P := fun j x => x.1 = .zeroFill ∧ j ≤ 3072 ∧ x.2.rax = 0#64 ∧
    x.2.r8 = s.r8 ∧ Filling s t (fun i => s.mem.load 8 (t + 8 * i)) 0 (fun _ => 0) (3072 - j) x.2)
    ?_ 3071 ⟨rfl, Nat.le_refl _, hrax, rfl, ?_⟩
  · rintro j ⟨_, s₁⟩ ⟨rfl, hj, hrax₁, hr8₁, hfill⟩
    dsimp only at hrax₁ hr8₁ hfill
    refine leadsTo_zeroFill_pass hfill.rdi hrax₁ (by omega) ?_
    rintro s₂ _ hrdi₂ hrax₂ hr8₂ hr9₂ hmem₂ rfl
    have hnext := hfill.push (by omega) hrdi₂ hr9₂ (by omega) rfl hmem₂
    rw [show 3072 - (j + 1) + 1 = 3072 - j by omega] at hnext
    have hend : s₁.r8.toNat = t + pgSize := by
      rw [hr8₁, hr8, toNat_ofNat_of_lt (by rw [pgSize]; omega)]
    rw [hend]
    by_cases hz : j = 0
    · subst hz
      rw [if_neg (by rw [pgSize]; omega)]
      refine .now (.inl ⟨rfl, hnext.r9, fun i hi => ?_, hnext.frame⟩)
      rw [hnext.entries i hi]
      exact if_pos (by omega)
    · rw [if_pos (by rw [pgSize]; omega)]
      exact .now (.inr ⟨hz, rfl, by omega, hrax₂, hr8₂.trans hr8₁, hnext⟩)
  · rw [Nat.sub_self]
    refine ⟨hrdi, hr9, ?_, .refl _ _⟩
    rw [fill_zero]
    exact fun _ _ => rfl

/-! ### Page directories -/

/-- One pass of a loop over a page directory. -/
theorem leadsTo_directoryFill_pass {again next : Label} {e n : ℕ}
    (hcode : code pg again = some ⟨directoryFill again, next⟩) (hrdi : s.rdi = .ofNat 64 e)
    (hrdx : s.rdx = .ofNat 64 n) (he : e + 8 ≤ 2 ^ 64) (hn : n < 512)
    (hQ : ∀ s' l, s'.rdi = .ofNat 64 (e + 8) → s'.rdx = .ofNat 64 (n + 1) → s'.r9 = s.r9 →
      s'.mem = s.mem.store 8 e (pageEntry n) → l = (if n + 1 < 512 then again else next) →
      LeadsTo (step (code pg)) (l, s') Q) :
    LeadsTo (step (code pg)) (again, s) Q := by
  have hval : ((BitVec.ofNat 64 n <<< 21) ||| 0x83#64).toNat = pageEntry n := by
    rw [BitVec.toNat_or, BitVec.toNat_shiftLeft, toNat_ofNat_of_lt (by omega), Nat.shiftLeft_eq,
      Nat.mod_eq_of_lt (by omega), Nat.mul_comm]
    exact (Nat.two_pow_add_eq_or_of_lt (by decide) n).symm
  have hlt : (BitVec.ofNat 64 (n + 1)).toNat < (512#64).toNat ↔ n + 1 < 512 := by
    rw [toNat_ofNat_of_lt (by omega), toNat_ofNat_of_lt (by omega)]
  refine leadsTo_block hcode ?_
  simp only [directoryFill, runBlock, movq, shlq, orq, logicFlags, addq, incq, cmpq, cmpFlags,
    Cpu.read, Cpu.write, Cpu.get, Cpu.set, Cpu.ea, jb, BitVec.add_zero, hrdi, hrdx,
    ofNat_add_ofNat, st64_ofNat he, hval, decide_eq_true_eq, hlt]
  refine LeadsTo.ite (fun hlt => ?_) (fun hlt => ?_)
  · exact hQ _ _ rfl rfl rfl rfl (if_pos hlt).symm
  · exact hQ _ _ rfl rfl rfl rfl (if_neg hlt).symm

/-- **A page directory.** -/
theorem leadsTo_directoryFill {again next : Label} (ht : t < 2 ^ 32)
    (hcode : code pg again = some ⟨directoryFill again, next⟩) (hrdx : s.rdx = 0#64)
    (hbase : base + 512 ≤ 3072) (h : Filling s t F base pageEntry 0 s) :
    LeadsTo (step (code pg)) (again, s) fun x => x.1 = next ∧
      Filling s t F base pageEntry 512 x.2 := by
  refine LeadsTo.countdown (P := fun j x => x.1 = again ∧ j ≤ 512 ∧ x.2.rdx = .ofNat 64 (512 - j) ∧
    Filling s t F base pageEntry (512 - j) x.2) ?_ 511
    ⟨rfl, Nat.le_refl _, by rw [Nat.sub_self]; exact hrdx, by rwa [Nat.sub_self]⟩
  rintro j ⟨_, s₁⟩ ⟨rfl, hj, hrdx₁, hfill⟩
  dsimp only at hrdx₁ hfill
  refine leadsTo_directoryFill_pass hcode hfill.rdi hrdx₁ (by omega) (by omega) ?_
  rintro s₂ _ hrdi₂ hrdx₂ hr9₂ hmem₂ rfl
  have hnext := hfill.push (by omega) hrdi₂ hr9₂ (by rw [pageEntry]; omega) rfl hmem₂
  rw [show 512 - (j + 1) + 1 = 512 - j by omega] at hrdx₂ hnext
  by_cases hz : j = 0
  · subst hz
    rw [if_neg (by omega)]
    exact .now (.inl ⟨rfl, hnext⟩)
  · rw [if_pos (by omega)]
    exact .now (.inr ⟨hz, rfl, by omega, hrdx₂, hnext⟩)

/-! ### The routine -/

/-- The flags of a table entry are ORed into its address. -/
theorem toNat_or_three {a : ℕ} (h : a % 2 ^ 12 = 0) (hlt : a < 2 ^ 64) :
    (BitVec.ofNat 64 a ||| 0x03#64).toNat = tableEntry a := by
  obtain ⟨q, rfl⟩ : ∃ q, a = 2 ^ 12 * q := ⟨a / 2 ^ 12, by omega⟩
  rw [BitVec.toNat_or, toNat_ofNat_of_lt hlt]
  exact (Nat.two_pow_add_eq_or_of_lt (by decide) q).symm

/-- The slots of `QIZO_HHDM_VIRT` in the two upper levels. -/
theorem hhdm_slots :
    ((BitVec.ofNat 64 hhdmVirt >>> 39).setWidth 32 &&& 511#32).setWidth 64 = 273#64 ∧
      ((BitVec.ofNat 64 hhdmVirt >>> 30).setWidth 32 &&& 511#32).setWidth 64 = 0#64 := by decide

/-- **The upper levels**: four entries that lead to tables. -/
theorem leadsTo_tables (ht : t % 2 ^ 12 = 0) (hlt : t < 2 ^ 32) (hr9 : s.r9 = .ofNat 64 t)
    (hQ : ∀ s', s'.r9 = .ofNat 64 t → s'.rdi = .ofNat 64 (t + 0x2000) → s'.rdx = 0#64 →
      s'.mem = (((s.mem.store 8 (t + 8 * 0) (tableEntry (t + 0x1000))).store 8 (t + 8 * 273)
        (tableEntry (t + 0x3000))).store 8 (t + 8 * 512) (tableEntry (t + 0x2000))).store 8
        (t + 8 * 1536) (tableEntry (t + 0x4000)) → LeadsTo (step (code pg)) (.lowFill, s') Q) :
    LeadsTo (step (code pg)) (.tables, s) Q := by
  obtain ⟨hslot39, hslot30⟩ := hhdm_slots
  have h273 : 273#64 * 8#64 = .ofNat 64 (8 * 273) := by decide
  have h0 : 0#64 * 8#64 = 0#64 := by decide
  refine leadsTo_block rfl ?_
  simp only [runBlock, movq, addq, orq, logicFlags, shrq, andl, clear, Cpu.read, Cpu.write, Cpu.get,
    Cpu.set, Cpu.ea, BitVec.add_zero, hr9, ofNat_add_ofNat, hslot39, hslot30, h273, h0]
  rw [st64_ofNat (by omega), st64_ofNat (by omega), st64_ofNat (by omega), st64_ofNat (by omega),
    toNat_or_three (by omega) (by omega), toNat_or_three (by omega) (by omega),
    toNat_or_three (by omega) (by omega), toNat_or_three (by omega) (by omega)]
  exact hQ _ rfl rfl rfl rfl

/-- **`qizo_paging_setup`.** -/
theorem leadsTo_qizoPagingSetup (ht : t % 2 ^ 12 = 0) (hlt : t < 2 ^ 32) :
    LeadsTo (step (code (.ofNat 64 t))) (.qizoPagingSetup, s) fun x => x.1 = .ret ∧
      x.2.cr3 = .ofNat 64 t ∧ Entries x.2.mem t (kernelEntries t) 3072 ∧
      EqOutside s.mem x.2.mem [(t, pgSize)] := by
  refine leadsTo_block rfl ?_
  simp only [runBlock, movq, addq, clear, logicFlags, Cpu.read, Cpu.write, Cpu.get, Cpu.set,
    ofNat_add_ofNat]
  refine LeadsTo.trans (leadsTo_zeroFill (t := t) rfl rfl rfl rfl hlt) ?_
  rintro ⟨_, s₁⟩ ⟨rfl, hr9₁, hentries₁, hframe₁⟩
  dsimp only at hr9₁ hentries₁ hframe₁
  refine leadsTo_tables ht hlt hr9₁ ?_
  intro s₂ hr9₂ hrdi₂ hrdx₂ hmem₂
  have hentries₂ := (((hentries₁.store (j := 0) (v := tableEntry (t + 0x1000))
    (by rw [tableEntry]; omega)).store (j := 273) (v := tableEntry (t + 0x3000))
    (by rw [tableEntry]; omega)).store (j := 512) (v := tableEntry (t + 0x2000))
    (by rw [tableEntry]; omega)).store (j := 1536) (v := tableEntry (t + 0x4000))
    (by rw [tableEntry]; omega)
  rw [← hmem₂] at hentries₂
  have hframe₂ : EqOutside s.mem s₂.mem [(t, pgSize)] := by
    rw [hmem₂]
    refine (((hframe₁.store ?_).store ?_).store ?_).store ?_
    all_goals
      intro x hx
      simp only [outside_cons, outside_nil, and_true, pgSize] at hx
      omega
  refine (@leadsTo_directoryFill _ _ _ _ 1024 _ _ hlt rfl hrdx₂ (by omega)
    ⟨hrdi₂, hr9₂, by rw [fill_zero]; exact hentries₂, .refl _ _⟩).trans ?_
  rintro ⟨_, s₃⟩ ⟨rfl, hfill₃⟩
  dsimp only at hfill₃
  refine leadsTo_block rfl ?_
  simp only [runBlock, movq, addq, clear, logicFlags, Cpu.read, Cpu.write, Cpu.get, Cpu.set,
    hfill₃.r9, ofNat_add_ofNat]
  refine LeadsTo.trans (@leadsTo_directoryFill _ _ _ _ 2048 _ _ hlt rfl rfl (by omega)
    ⟨rfl, rfl, by rw [fill_zero]; exact hfill₃.entries, .refl _ _⟩) ?_
  rintro ⟨_, s₄⟩ ⟨rfl, hfill₄⟩
  dsimp only at hfill₄
  refine leadsTo_block rfl ?_
  simp only [runBlock, movq, movCr3, movl, movCr4, rdmsr, orl, wrmsr, readCr0, andl, movCr0,
    Cpu.read, Cpu.write, Cpu.get, Cpu.set]
  exact .now ⟨rfl, hfill₄.r9, hfill₄.entries, (hframe₂.trans hfill₃.frame).trans hfill₄.frame⟩

/-! ### Translation -/

/-- A table of page directory pointers whose first entry leads to a full page directory and whose
other entries are zero maps one GiB. -/
theorem walkFrom_gib {m : Memory} {a n p d : ℕ} (h : Entries m t F n) (hp : 512 * p + 512 ≤ n)
    (hd : 512 * d + 512 ≤ n) (ht : (t + 4096 * d) % 2 ^ 12 = 0) (hlt : t + 4096 * d < 2 ^ 52)
    (hfirst : F (512 * p) = tableEntry (t + 4096 * d))
    (hrest : ∀ j, 0 < j → j < 512 → F (512 * p + j) = 0)
    (hpages : ∀ j < 512, F (512 * d + j) = pageEntry j) :
    walkFrom m a 2 (t + 4096 * p) true =
      if a % 2 ^ 39 < 2 ^ 30 then some ⟨a % 2 ^ 30, true⟩ else none := by
  have hlt₂ : index 2 a < 512 := Nat.mod_lt _ (by omega)
  have hlt₁ : index 1 a < 512 := Nat.mod_lt _ (by omega)
  have hpdpt := @Entries.load_index _ a _ _ 2 _ h p hp
  by_cases h0 : index 2 a = 0
  · have hcond : a % 2 ^ 39 < 2 ^ 30 := by
      unfold index shift at h0
      omega
    have hentry : F (512 * p + index 2 a) = tableEntry (t + 4096 * d) := by
      rw [h0]
      exact hfirst
    rw [hentry] at hpdpt
    have hpdt := @Entries.load_index _ a _ _ 1 _ h d hd
    rw [hpages _ hlt₁] at hpdt
    rw [walkFrom_tableEntry hpdpt ht hlt, walkFrom_pageEntry hpdt (by omega), if_pos hcond]
    have haddr : 2 ^ 21 * index 1 a + a % 2 ^ 21 = a % 2 ^ 30 := by
      unfold index shift
      omega
    rw [haddr]
  · have hcond : ¬a % 2 ^ 39 < 2 ^ 30 := by
      unfold index shift at h0
      omega
    rw [hrest _ (by omega) hlt₂] at hpdpt
    rw [walkFrom_zero hpdpt, if_neg hcond]

/-- **The first GiB, at zero and at `QIZO_HHDM_VIRT`**, and nothing else. -/
theorem walk_kernelEntries {m : Memory} {a : ℕ} (h : Entries m t (kernelEntries t) 3072)
    (ht : t % 2 ^ 12 = 0) (hlt : t < 2 ^ 32) (ha : Canonical a) :
    walk m t a = if a < 2 ^ 30 then some ⟨a, true⟩
      else if hhdmVirt ≤ a ∧ a < hhdmVirt + 2 ^ 30 then some ⟨a - hhdmVirt, true⟩ else none := by
  have hpages : ∀ d, d = 2 ∨ d = 4 → ∀ j < 512, kernelEntries t (512 * d + j) = pageEntry j := by
    rintro d (rfl | rfl) j hj
    · rw [kernelEntries, fill_outside (by omega)]
      exact fill_inside hj
    · exact fill_inside hj
  have hlow : walkFrom m a 2 (t + 4096 * 1) true =
      if a % 2 ^ 39 < 2 ^ 30 then some ⟨a % 2 ^ 30, true⟩ else none := by
    refine walkFrom_gib h (by omega) (by omega) (d := 2) (by omega) (by omega) ?_ ?_
      (hpages 2 (by omega))
    · simp [kernelEntries, fill]
    · intro j h0 hj
      rw [kernelEntries, fill_outside (by omega), fill_outside (by omega),
        Function.update_of_ne (by omega), Function.update_of_ne (by omega),
        Function.update_of_ne (by omega), Function.update_of_ne (by omega)]
  have hhigh : walkFrom m a 2 (t + 4096 * 3) true =
      if a % 2 ^ 39 < 2 ^ 30 then some ⟨a % 2 ^ 30, true⟩ else none := by
    refine walkFrom_gib h (by omega) (by omega) (d := 4) (by omega) (by omega) ?_ ?_
      (hpages 4 (by omega))
    · simp [kernelEntries, fill]
    · intro j h0 hj
      rw [kernelEntries, fill_outside (by omega), fill_outside (by omega),
        Function.update_of_ne (by omega), Function.update_of_ne (by omega),
        Function.update_of_ne (by omega), Function.update_of_ne (by omega)]
  have hcr3 : Paging.frame 12 t = t := frame_of_dvd (x := 0) ht (by omega) (by omega)
  have hlt₃ : index 3 a < 512 := Nat.mod_lt _ (by omega)
  have hroot := @Entries.load_index _ a _ _ 3 _ h 0 (by omega)
  rw [Nat.mul_zero, Nat.add_zero, Nat.zero_add, kernelEntries, fill_outside (by omega),
    fill_outside (by omega), Function.update_of_ne (by omega), Function.update_of_ne (by omega)]
    at hroot
  have hindex : index 3 a = a / 2 ^ 39 % 512 := rfl
  have hhhdm : hhdmVirt = 2 ^ 64 - 2 ^ 48 + 2 ^ 39 * 273 := by decide
  rw [walk, hcr3]
  unfold Canonical at ha
  by_cases h0 : index 3 a = 0
  · rw [h0, Function.update_of_ne (by decide), Function.update_self, ← h0] at hroot
    rw [walkFrom_tableEntry hroot (by omega) (by omega), hlow]
    have hsmall : a % 2 ^ 39 = a := by omega
    rw [hsmall, if_neg (by omega : ¬(hhdmVirt ≤ a ∧ a < hhdmVirt + 2 ^ 30))]
    by_cases hgib : a < 2 ^ 30
    · rw [if_pos hgib, if_pos hgib, Nat.mod_eq_of_lt hgib]
    · rw [if_neg hgib, if_neg hgib]
  · rw [if_neg (by omega : ¬a < 2 ^ 30)]
    by_cases h273 : index 3 a = 273
    · rw [h273, Function.update_self, ← h273] at hroot
      rw [walkFrom_tableEntry hroot (by omega) (by omega), hhigh]
      by_cases hgib : a % 2 ^ 39 < 2 ^ 30
      · have haddr : a % 2 ^ 30 = a - hhdmVirt := by omega
        rw [if_pos hgib, if_pos (by omega), haddr]
      · rw [if_neg hgib, if_neg (by omega)]
    · rw [Function.update_of_ne h273, Function.update_of_ne h0] at hroot
      rw [walkFrom_zero hroot, if_neg (by omega)]

/-- The translation of the loader's tables. -/
def LoaderMaps (m : Memory) (a : ℕ) : Prop :=
  walk m pagePml4 a = if a < 2 ^ 32 then some ⟨a, true⟩ else none

/-- The translation of the kernel's tables. -/
def KernelMaps (m : Memory) (t a : ℕ) : Prop :=
  walk m t a = if a < 2 ^ 30 then some ⟨a, true⟩
    else if hhdmVirt ≤ a ∧ a < hhdmVirt + 2 ^ 30 then some ⟨a - hhdmVirt, true⟩ else none

/-- **The page tables.** `qizo_build_pages`, called with a stack outside the tables, returns with
tables that map the first 4 GiB to themselves and no other canonical address;
`qizo_paging_setup` returns with its tables loaded, and they map the first GiB to itself and again
at `QIZO_HHDM_VIRT`, and no other canonical address. On the first GiB the two agree. -/
theorem page_tables (fst : ℕ) (k : X86.Link Stage2.Label) (l : Stage2.Label) (sp : ℕ)
    (s₁ : X86.Cpu) (s₂ : Cpu) (t : ℕ) (hcall : Stage2.Called k l sp s₁) (hsp : 4 ≤ sp)
    (hstack : sp + 4 ≤ pagePml4 ∨ pagePml4 + 0x6000 + 4 ≤ sp) (ht : t % 2 ^ 12 = 0)
    (hlt : t < 2 ^ 32) :
    ∃ x y, Reaches (Stage2.step fst k) (.qizoBuildPages, s₁) x ∧ x.1 = l ∧
      Reaches (step (code (.ofNat 64 t))) (.qizoPagingSetup, s₂) y ∧ y.1 = .ret ∧
      y.2.cr3 = .ofNat 64 t ∧
      (∀ a, Canonical a → LoaderMaps x.2.mem a ∧ KernelMaps y.2.mem t a) ∧
      ∀ a < 2 ^ 30, walk x.2.mem pagePml4 a = walk y.2.mem t a := by
  obtain ⟨x, hx, hl, -, hboot, -⟩ := Stage2.leadsTo_qizoBuildPages hcall hsp hstack
  obtain ⟨y, hy, hret, hcr3, hkernel, -⟩ := leadsTo_qizoPagingSetup (s := s₂) ht hlt
  have hmaps : ∀ a, Canonical a → LoaderMaps x.2.mem a ∧ KernelMaps y.2.mem t a := fun a ha =>
    ⟨Stage2.walk_bootEntries hboot ha, walk_kernelEntries hkernel ht hlt ha⟩
  refine ⟨x, y, hx, hl, hy, hret, hcr3, hmaps, fun a ha => ?_⟩
  obtain ⟨hloader, hkern⟩ := hmaps a (.inl (by omega))
  rw [LoaderMaps, if_pos (by omega)] at hloader
  rw [KernelMaps, if_pos ha] at hkern
  rw [hloader, hkern]

/-- A machine with empty memory. -/
def blank : Cpu :=
  ⟨0, 0, 0, 0, 0, 0, 0, 0, fun _ => 0, fun _ => 0, false, false, false, false, 0, 0, 0, fun _ => 0,
    fun _ => 0⟩

/-- A call with the stack at `0x100`, and kernel tables at 2 MiB. -/
theorem page_tables_blank :
    Stage2.Called Stage2.consecutiveLink .pagesBack 0x100
        (Stage2.callWith [] (Stage2.consecutiveLink.addr .pagesBack)) ∧
      ∃ x y, Reaches (Stage2.step 0 Stage2.consecutiveLink)
          (.qizoBuildPages, Stage2.callWith [] (Stage2.consecutiveLink.addr .pagesBack)) x ∧
        x.1 = .pagesBack ∧
        Reaches (step (code (.ofNat 64 0x200000))) (.qizoPagingSetup, blank) y ∧ y.1 = .ret ∧
        y.2.cr3 = .ofNat 64 0x200000 ∧
        (∀ a, Canonical a → LoaderMaps x.2.mem a ∧ KernelMaps y.2.mem 0x200000 a) ∧
        ∀ a < 2 ^ 30, walk x.2.mem pagePml4 a = walk y.2.mem 0x200000 a := by
  have hret := Stage2.callWith_ret [] (Stage2.consecutiveLink.addr .pagesBack)
  have hcall : Stage2.Called Stage2.consecutiveLink .pagesBack 0x100
      (Stage2.callWith [] (Stage2.consecutiveLink.addr .pagesBack)) := by
    refine ⟨rfl, ?_, by omega⟩
    rw [← hret]
    exact (X86.toNat_ld32 (a := 0x100#32) (by decide)).symm
  exact ⟨hcall, page_tables 0 _ _ 0x100 _ blank 0x200000 hcall (by omega) (.inl (by decide))
    (by omega) (by omega)⟩

end Boot64

end Qizo
