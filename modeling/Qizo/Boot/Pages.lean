import Qizo.Boot.Routines
import Qizo.Lib.Paging

/-!
# The page tables of the second stage

`qizo_build_pages` of `stage2.S` clears `0x6000` bytes and fills them with a root table, one table
of page directory pointers and four page directories, in two loops that OR the flags into running
addresses. `bootEntries` is what it leaves there, and its translation is the identity on the first
4 GiB.

## Main results

* `leadsTo_qizoBuildPages` — what `qizo_build_pages` writes, and where
* `walk_bootEntries` — the translation through such tables
-/

namespace Qizo

namespace Stage2

open X86 Reg Operand Label StateTransition ByteString Memory Paging

variable {fst : ℕ} {k : Link Label} {s : Cpu} {l : Label} {sp t : ℕ}

/-- The entry of page directory `i`. -/
def pdptEntry (i : ℕ) : ℕ := tableEntry (0x1000 * (770 + i))

/-- The six tables, entry by entry. -/
def bootEntries : ℕ → ℕ :=
  fill (fill (Function.update (fun _ => 0) 0 (tableEntry pagePdpt)) 512 pdptEntry 4)
    1024 pageEntry 2048

/-! ### The two loops -/

/-- What a table loop has done after `i` of its `n` passes from state `s` on: the entries of the
region at `t` are those of `F`, but from number `base` on there are `i` entries of `g`. -/
structure Filling (s : Cpu) (t : ℕ) (F : ℕ → ℕ) (base : ℕ) (g : ℕ → ℕ) (n i : ℕ) (s' : Cpu) :
    Prop where
  /-- The counter. -/
  ecx : s'.ecx = .ofNat 32 (n - i)
  /-- The write pointer. -/
  edi : s'.edi = .ofNat 32 (t + 8 * (base + i))
  /-- The stack pointer. -/
  esp : s'.esp = s.esp
  /-- The interrupt table. -/
  idtr : s'.idtr = s.idtr
  /-- The entries so far. -/
  entries : Entries s'.mem t (fill F base g i) 3072
  /-- Nothing else has changed. -/
  frame : EqOutside s.mem s'.mem [(t, 0x6000)]

variable {F g : ℕ → ℕ} {base n : ℕ}

/-- A pass of a table loop. -/
theorem Filling.push {s₁ s₂ : Cpu} {i v : ℕ} (h : Filling s t F base g n i s₁)
    (hi : base + i < 3072) (hecx : s₂.ecx = .ofNat 32 (n - (i + 1)))
    (hedi : s₂.edi = .ofNat 32 (t + 8 * (base + i) + 8)) (hesp : s₂.esp = s₁.esp)
    (hidtr : s₂.idtr = s₁.idtr) (hv : v < 2 ^ 32) (hg : v = g i)
    (hmem : s₂.mem = (s₁.mem.store 4 (t + 8 * (base + i)) v).store 4 (t + 8 * (base + i) + 4) 0) :
    Filling s t F base g n (i + 1) s₂ where
  ecx := hecx
  edi := by rw [hedi]; congr 1
  esp := hesp.trans h.esp
  idtr := hidtr.trans h.idtr
  entries := by
    rw [hmem, ← update_fill, ← hg]
    exact h.entries.store_halves hv
  frame := by
    rw [hmem]
    refine (h.frame.store fun x hx => ?_).store fun x hx => ?_
    all_goals
      simp only [outside_cons, outside_nil, and_true] at hx
      omega

/-- A multiple of a power of two, and bits below it. -/
theorem or_eq_add {n v w : ℕ} (hw : w < 2 ^ n) : (2 ^ n * v) ||| w = 2 ^ n * v + w :=
  (Nat.two_pow_add_eq_or_of_lt hw v).symm

theorem toNat_or_ofNat {a b c : ℕ} (ha : a < 2 ^ 32) (hb : b < 2 ^ 32) (h : a ||| b = c) :
    (BitVec.ofNat 32 a ||| BitVec.ofNat 32 b).toNat = c := by
  rw [BitVec.toNat_or, toNat_ofNat_of_lt ha, toNat_ofNat_of_lt hb, h]

/-- One pass of the loop over the page directory pointers. The distance of the tables is a
variable here, so that no literal of its size has to be compared. -/
theorem runBlock_pdptFill (inc : ℕ) {j e : ℕ} (hecx : s.ecx = .ofNat 32 (j + 1))
    (hedi : s.edi = .ofNat 32 e) (hj : j < 2 ^ 32) (he : e + 8 ≤ 2 ^ 32) :
    ∃ s', runBlock k pdtStart
        [.op (orl (imm ptDir) eax), .op (movl eax (ind 0 edi)), .op (movl (imm 0) (ind 4 edi)),
         .op (addl (imm inc) eax), .op (addl (imm 8) edi), .op (decl ecx), jne pdptFill] s =
        (if j = 0 then pdtStart else pdptFill, s') ∧
      s'.ecx = .ofNat 32 j ∧ s'.edi = .ofNat 32 (e + 8) ∧ s'.esp = s.esp ∧
      s'.idtr = s.idtr ∧ s'.eax = (s.eax ||| .ofNat 32 ptDir) + .ofNat 32 inc ∧
      s'.mem = (s.mem.store 4 e (s.eax ||| .ofNat 32 ptDir).toNat).store 4 (e + 4) 0 := by
  simp only [runBlock, movl, orl, addl, decl, jne, Cpu.read, Cpu.write, Cpu.get, Cpu.set,
    hecx, hedi, BitVec.add_zero, ofNat_add_ofNat, ofNat_succ_sub_one, ofNat_beq_zero hj]
  rw [st32_ofNat (by omega), st32_ofNat (by omega)]
  by_cases hz : j = 0
  · rw [if_neg (by simp [hz]), if_pos hz]
    exact ⟨_, rfl, rfl, rfl, rfl, rfl, rfl, rfl⟩
  · rw [if_pos (by simp [hz]), if_neg hz]
    exact ⟨_, rfl, rfl, rfl, rfl, rfl, rfl, rfl⟩

/-- One pass of the loop over the page directories. -/
theorem runBlock_pdtFill (inc : ℕ) {j e : ℕ} (hecx : s.ecx = .ofNat 32 (j + 1))
    (hedi : s.edi = .ofNat 32 e) (hj : j < 2 ^ 32) (he : e + 8 ≤ 2 ^ 32) :
    ∃ s', runBlock k pagesRet
        [.op (movl eax edx), .op (orl (imm ptPage) edx), .op (movl edx (ind 0 edi)),
         .op (movl (imm 0) (ind 4 edi)), .op (addl (imm inc) eax), .op (addl (imm 8) edi),
         .op (decl ecx), jne pdtFill] s = (if j = 0 then pagesRet else pdtFill, s') ∧
      s'.ecx = .ofNat 32 j ∧ s'.edi = .ofNat 32 (e + 8) ∧ s'.esp = s.esp ∧
      s'.idtr = s.idtr ∧ s'.eax = s.eax + .ofNat 32 inc ∧
      s'.mem = (s.mem.store 4 e (s.eax ||| .ofNat 32 ptPage).toNat).store 4 (e + 4) 0 := by
  simp only [runBlock, movl, orl, addl, decl, jne, Cpu.read, Cpu.write, Cpu.get, Cpu.set,
    hecx, hedi, BitVec.add_zero, ofNat_add_ofNat, ofNat_succ_sub_one, ofNat_beq_zero hj]
  rw [st32_ofNat (by omega), st32_ofNat (by omega)]
  by_cases hz : j = 0
  · rw [if_neg (by simp [hz]), if_pos hz]
    exact ⟨_, rfl, rfl, rfl, rfl, rfl, rfl, rfl⟩
  · rw [if_pos (by simp [hz]), if_neg hz]
    exact ⟨_, rfl, rfl, rfl, rfl, rfl, rfl, rfl⟩

/-- **The page directory pointers.** The flags stay in the running address, where ORing them again
changes nothing. -/
theorem leadsTo_pdptFill (h : Filling s t F 512 pdptEntry 4 0 s)
    (heax : s.eax = .ofNat 32 pagePdt) (ht : t + 0x6000 < 2 ^ 32) :
    LeadsTo (step fst k) (pdptFill, s) fun x => x.1 = pdtStart ∧
      Filling s t F 512 pdptEntry 4 4 x.2 := by
  refine LeadsTo.countdown (P := fun j x => x.1 = pdptFill ∧ j ≤ 4 ∧
    (x.2.eax ||| .ofNat 32 ptDir).toNat = pdptEntry (4 - j) ∧
    Filling s t F 512 pdptEntry 4 (4 - j) x.2)
    ?_ 3 ⟨rfl, Nat.le_refl _, by dsimp only; rw [heax]; rfl, by simpa using h⟩
  rintro j ⟨_, s₁⟩ ⟨rfl, hj, heax₁, hfill⟩
  dsimp only at heax₁ hfill
  have hecx₁ := hfill.ecx
  rw [show 4 - (4 - (j + 1)) = j + 1 by omega] at hecx₁
  obtain ⟨s₂, hrun, hecx₂, hedi₂, hesp₂, hidtr₂, heax₂, hmem₂⟩ :=
    runBlock_pdptFill (k := k) 0x1000 hecx₁
    hfill.edi (by omega) (by omega)
  rw [heax₁] at hmem₂
  have hnext := hfill.push (i := 4 - (j + 1)) (by omega) (by rw [hecx₂]; congr 1; omega) hedi₂ hesp₂
    hidtr₂ (by rw [pdptEntry, tableEntry]; omega) rfl hmem₂
  rw [show 4 - (j + 1) + 1 = 4 - j by omega] at hnext
  refine leadsTo_block rfl ?_
  rw [hrun]
  by_cases hz : j = 0
  · subst hz
    rw [if_pos rfl]
    exact .now (.inl ⟨rfl, hnext⟩)
  · rw [if_neg hz]
    refine .now (.inr ⟨hz, rfl, by omega, ?_, hnext⟩)
    dsimp only
    have hsum : s₂.eax = .ofNat 32 (pdptEntry (4 - j)) := by
      apply BitVec.eq_of_toNat_eq
      rw [heax₂, BitVec.toNat_add, heax₁, toNat_ofNat_of_lt (by omega),
        toNat_ofNat_of_lt (by rw [pdptEntry, tableEntry]; omega), pdptEntry, pdptEntry, tableEntry,
        tableEntry]
      omega
    have hor : pdptEntry (4 - j) ||| ptDir = pdptEntry (4 - j) := by
      have h3 : ∀ v, (2 ^ 12 * v + 3) ||| 3 = 2 ^ 12 * v + 3 := fun v => by
        rw [← or_eq_add (n := 12) (v := v) (w := 3) (by omega), Nat.or_assoc, Nat.or_self]
      exact h3 _
    rw [hsum]
    exact toNat_or_ofNat (by rw [pdptEntry, tableEntry]; omega) (by decide) hor

/-- **The page directories.** -/
theorem leadsTo_pdtFill (h : Filling s t F 1024 pageEntry 2048 0 s)
    (heax : s.eax = .ofNat 32 0) (ht : t + 0x6000 < 2 ^ 32) :
    LeadsTo (step fst k) (pdtFill, s) fun x => x.1 = pagesRet ∧
      Filling s t F 1024 pageEntry 2048 2048 x.2 := by
  refine LeadsTo.countdown (P := fun j x => x.1 = pdtFill ∧ j ≤ 2048 ∧
    x.2.eax = .ofNat 32 (2 ^ 21 * (2048 - j)) ∧
    Filling s t F 1024 pageEntry 2048 (2048 - j) x.2)
    ?_ 2047 ⟨rfl, Nat.le_refl _, by rw [heax, Nat.sub_self, Nat.mul_zero], by rwa [Nat.sub_self]⟩
  rintro j ⟨_, s₁⟩ ⟨rfl, hj, heax₁, hfill⟩
  dsimp only at heax₁ hfill
  have hecx₁ := hfill.ecx
  rw [show 2048 - (2048 - (j + 1)) = j + 1 by omega] at hecx₁
  obtain ⟨s₂, hrun, hecx₂, hedi₂, hesp₂, hidtr₂, heax₂, hmem₂⟩ :=
    runBlock_pdtFill (k := k) 0x200000 hecx₁
    hfill.edi (by omega) (by omega)
  have hword : (s₁.eax ||| .ofNat 32 ptPage).toNat = pageEntry (2048 - (j + 1)) := by
    rw [heax₁]
    exact toNat_or_ofNat (by omega) (by decide) (or_eq_add (by decide))
  rw [hword] at hmem₂
  have hnext := hfill.push (i := 2048 - (j + 1)) (by omega) (by rw [hecx₂]; congr 1; omega) hedi₂
    hesp₂ hidtr₂ (by rw [pageEntry]; omega) rfl hmem₂
  rw [show 2048 - (j + 1) + 1 = 2048 - j by omega] at hnext
  refine leadsTo_block rfl ?_
  rw [hrun]
  by_cases hz : j = 0
  · subst hz
    rw [if_pos rfl]
    exact .now (.inl ⟨rfl, hnext⟩)
  · rw [if_neg hz]
    refine .now (.inr ⟨hz, rfl, by omega, ?_, hnext⟩)
    dsimp only
    rw [heax₂, heax₁, ofNat_add_ofNat]
    congr 1
    omega

/-! ### The routine -/

/-- **`qizo_build_pages`.** -/
theorem leadsTo_qizoBuildPages (h : Called k l sp s) (h4 : 4 ≤ sp)
    (hsp : sp + 4 ≤ pagePml4 ∨ pagePml4 + 0x6000 + 4 ≤ sp) :
    LeadsTo (step fst k) (qizoBuildPages, s) fun x => x.1 = l ∧ x.2.esp = .ofNat 32 (sp + 4) ∧
      Entries x.2.mem pagePml4 bootEntries 3072 ∧
      EqOutside s.mem x.2.mem [(pagePml4, 0x6000), (sp - 4, 4)] ∧ x.2.idtr = s.idtr := by
  have hle := h.sp_le
  have hend : pagePml4 + 0x6000 < 2 ^ 32 := by decide
  -- The call of `qizo_zero`.
  refine leadsTo_block rfl ?_
  simp only [runBlock, movl, Cpu.read, Cpu.write, Cpu.set, h.esp]
  rw [ofNat_sub_ofNat h4, st32_ofNat (by omega)]
  refine (leadsTo_qizoZero (n := 0x6000)
    (called_push h4 (by omega) rfl rfl) rfl rfl (by omega) (by omega) (by omega)).trans ?_
  rintro ⟨_, s₁⟩ ⟨rfl, hesp₁, hzero, hframe₁, hidtr₁⟩
  dsimp only at hesp₁ hzero hframe₁ hidtr₁
  rw [Nat.sub_add_cancel h4] at hesp₁
  have hentries₁ : Entries s₁.mem pagePml4 (fun _ => 0) 3072 :=
    entries_of_holds_zero (n := 3072) hzero
  -- The root table.
  refine leadsTo_block rfl ?_
  simp only [runBlock, movl, orl, Cpu.read, Cpu.write, Cpu.get, Cpu.set, BitVec.add_zero,
    ofNat_add_ofNat]
  rw [st32_ofNat (by omega), st32_ofNat (by omega)]
  have hroot : (BitVec.ofNat 32 pagePdpt ||| .ofNat 32 ptDir).toNat = tableEntry pagePdpt := rfl
  rw [hroot]
  refine (leadsTo_pdptFill (t := pagePml4)
    (F := Function.update (fun _ => 0) 0 (tableEntry pagePdpt)) ?_ rfl hend).trans ?_
  · refine ⟨rfl, rfl, rfl, rfl, ?_, .refl _ _⟩
    rw [fill_zero]
    exact hentries₁.store_halves (j := 0) (by decide)
  rintro ⟨_, s₂⟩ ⟨rfl, hfill₂⟩
  dsimp only at hfill₂
  have hesp₂ := hfill₂.esp
  have hframe₂ := hfill₂.frame
  have hidtr₂ := hfill₂.idtr
  dsimp only at hesp₂ hframe₂ hidtr₂
  -- The page directories.
  refine leadsTo_block rfl ?_
  simp only [runBlock, xorl, movl, Cpu.read, Cpu.write, Cpu.get, Cpu.set, BitVec.xor_self]
  refine (leadsTo_pdtFill (t := pagePml4)
    (F := fill (Function.update (fun _ => 0) 0 (tableEntry pagePdpt)) 512 pdptEntry 4)
    ?_ rfl hend).trans ?_
  · refine ⟨rfl, rfl, rfl, rfl, ?_, .refl _ _⟩
    rw [fill_zero]
    exact hfill₂.entries
  rintro ⟨_, s₃⟩ ⟨rfl, hfill₃⟩
  dsimp only at hfill₃
  have hesp₃ := hfill₃.esp
  have hframe₃ := hfill₃.frame
  have hidtr₃ := hfill₃.idtr
  dsimp only at hesp₃ hframe₃ hidtr₃
  -- What has changed, and the return.
  have hframe : EqOutside s.mem s₃.mem [(pagePml4, 0x6000), (sp - 4, 4)] := by
    have hsub : ∀ x, Outside [(pagePml4, 0x6000), (sp - 4, 4)] x →
        Outside [(pagePml4, 0x6000)] x := fun x hx => by
      simp only [outside_cons, outside_nil, and_true] at hx ⊢
      exact hx.1
    have hin : ∀ x w a, pagePml4 ≤ a → a + w ≤ pagePml4 + 0x6000 →
        Outside [(pagePml4, 0x6000), (sp - 4, 4)] x → x < a ∨ a + w ≤ x := fun x w a ha hw hx => by
      simp only [outside_cons, outside_nil, and_true] at hx
      omega
    have hpush : EqOutside s.mem s₁.mem [(pagePml4, 0x6000), (sp - 4, 4)] := by
      refine (EqOutside.store (.refl _ _) fun x hx => ?_).trans (hframe₁.mono hsub)
      simp only [outside_cons, outside_nil, and_true] at hx
      exact hx.2
    have hhead :=
      (hpush.store (a := pagePml4) (w := 4) (v := tableEntry pagePdpt) fun x =>
        hin x 4 _ (by omega) (by omega)).store (a := pagePml4 + 4) (w := 4)
          (v := (BitVec.ofNat 32 0).toNat) fun x => hin x 4 _ (by omega) (by omega)
    exact (hhead.trans (hframe₂.mono hsub)).trans (hframe₃.mono hsub)
  refine leadsTo_block rfl ?_
  simp only [runBlock, hesp₃, hesp₂, hesp₁, ofNat_add_ofNat]
  rw [h.label_eq hframe fun x _ _ => by simp only [outside_cons, outside_nil, and_true]; omega]
  exact .now ⟨rfl, rfl, hfill₃.entries, hframe, hidtr₃.trans (hidtr₂.trans hidtr₁)⟩

/-! ### Translation -/

/-- The second level and the third: an address below 512 GiB. -/
theorem walkFrom_bootEntries {m : Memory} {a : ℕ} (h : Entries m pagePml4 bootEntries 3072)
    (ha : a < 2 ^ 39) :
    walkFrom m a 2 pagePdpt true = if a < 2 ^ 32 then some ⟨a, true⟩ else none := by
  have hlt₂ : index 2 a < 512 := Nat.mod_lt _ (by omega)
  have hlt₁ : index 1 a < 512 := Nat.mod_lt _ (by omega)
  have h2 : index 2 a = a / 2 ^ 30 := by
    unfold index shift
    omega
  have hpdpt : m.load 8 (pagePdpt + 8 * index 2 a) = bootEntries (512 + index 2 a) :=
    h.load_index (a := a) 1 (by omega)
  rw [bootEntries, fill_outside (by omega)] at hpdpt
  by_cases h4 : index 2 a < 4
  · -- The entry of this address in the four page directories.
    rw [fill_inside h4, pdptEntry] at hpdpt
    rw [walkFrom_tableEntry hpdpt (by omega) (by omega)]
    have hpdt := @Entries.load_index _ a _ _ 1 _ h (2 + index 2 a) (by omega)
    have htable : pagePml4 + 4096 * (2 + index 2 a) = 0x1000 * (770 + index 2 a) := by
      unfold pagePml4
      omega
    have hnum : 512 * (2 + index 2 a) + index 1 a = 1024 + (512 * index 2 a + index 1 a) := by omega
    rw [htable, hnum, bootEntries, fill_inside (by omega)] at hpdt
    rw [walkFrom_pageEntry hpdt (by omega), if_pos (by omega)]
    have haddr : 2 ^ 21 * (512 * index 2 a + index 1 a) + a % 2 ^ 21 = a := by
      unfold index shift
      omega
    rw [haddr]
  · rw [fill_outside (by omega), Function.update_of_ne (by omega)] at hpdpt
    rw [walkFrom_zero hpdpt, if_neg (by omega)]

/-- **The identity on the first 4 GiB**, and nothing else. -/
theorem walk_bootEntries {m : Memory} {a : ℕ} (h : Entries m pagePml4 bootEntries 3072)
    (ha : Canonical a) : walk m pagePml4 a = if a < 2 ^ 32 then some ⟨a, true⟩ else none := by
  have hcr3 : Paging.frame 12 pagePml4 = pagePml4 := by decide
  have hroot := @Entries.load_index _ a _ _ 3 _ h 0 (by omega)
  rw [Nat.mul_zero, Nat.add_zero, Nat.zero_add, bootEntries] at hroot
  have hlt₃ : index 3 a < 512 := Nat.mod_lt _ (by omega)
  rw [fill_outside (by omega), fill_outside (by omega)] at hroot
  rw [walk, hcr3]
  by_cases h3 : index 3 a = 0
  · rw [h3, Function.update_self, ← h3] at hroot
    rw [walkFrom_tableEntry hroot (by decide) (by decide)]
    refine walkFrom_bootEntries h ?_
    unfold index shift at h3
    unfold Canonical at ha
    omega
  · rw [Function.update_of_ne h3] at hroot
    rw [walkFrom_zero hroot, if_neg]
    intro hlt
    apply h3
    unfold index shift
    omega

end Stage2

end Qizo
