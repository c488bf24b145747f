import Qizo.Boot.Stage2

/-!
# The small routines of the second stage

The parts of `stage2.S` that neither decide anything about the image nor compute from it: waiting
for the serial port, adding up the memory map, copying, clearing and filling the fault table. They
are specified by the bytes they write and the memory they leave alone.

## Main results

* `leadsTo_poll`, `leadsTo_ramDone` — loops that only change registers
* `leadsTo_qizoCopy`, `leadsTo_qizoZero` — the two string routines
* `leadsTo_fidtFill` — the fault table
-/

namespace Qizo

namespace Stage2

open X86 Reg Operand Label StateTransition ByteString Memory

variable {fst : ℕ} {k : Link Label} {s : Cpu}

/-- Memory and stack are as they were. -/
structure Kept (s s' : Cpu) : Prop where
  /-- Memory. -/
  mem : s'.mem = s.mem
  /-- The stack pointer. -/
  esp : s'.esp = s.esp
  /-- The interrupt table. -/
  idtr : s'.idtr = s.idtr

theorem Kept.trans {s s' s'' : Cpu} (h : Kept s s') (h' : Kept s' s'') : Kept s s'' :=
  ⟨h'.mem.trans h.mem, h'.esp.trans h.esp, h'.idtr.trans h.idtr⟩

theorem ofNat_succ_sub_one (n : ℕ) : BitVec.ofNat 32 (n + 1) - 1#32 = .ofNat 32 n := by
  rw [ofNat_sub_ofNat (Nat.le_add_left 1 n), Nat.add_sub_cancel]

theorem ofNat_beq_zero {n : ℕ} (h : n < 2 ^ 32) : (BitVec.ofNat 32 n == 0#32) = decide (n = 0) := by
  rw [Bool.eq_iff_iff, beq_iff_eq, decide_eq_true_eq, ← BitVec.toNat_inj, toNat_ofNat_of_lt h]
  rfl

/-! ### Serial markers -/

/-- A polling loop ends, with or without the transmitter ready. -/
theorem leadsTo_poll {again done : Label} {n : ℕ}
    (hcode : code fst again = some ⟨poll again done, done⟩) (hn : n + 1 < 2 ^ 32)
    (hecx : s.ecx = .ofNat 32 (n + 1)) :
    LeadsTo (step fst k) (again, s) fun x => x.1 = done ∧ Kept s x.2 := by
  refine LeadsTo.countdown (P := fun n x => x.1 = again ∧ n < 2 ^ 32 ∧ x.2.ecx = .ofNat 32 n ∧
    Kept s x.2) ?_ n ⟨rfl, hn, hecx, rfl, rfl, rfl⟩
  rintro n ⟨_, s₁⟩ ⟨rfl, hn₁, hecx₁, hkept⟩
  refine leadsTo_block hcode ?_
  dsimp only at hecx₁
  simp only [poll, runBlock, inb, andb, decl, jne, Cpu.read8, Cpu.write8, Cpu.read, Cpu.write,
    Cpu.get, Cpu.set, hecx₁, ofNat_succ_sub_one, ofNat_beq_zero (Nat.lt_of_succ_lt hn₁)]
  split
  · exact .now (.inl ⟨rfl, hkept.mem, hkept.esp, hkept.idtr⟩)
  · split
    · rename_i hne
      exact .now (.inr
        ⟨by simpa using hne, rfl, Nat.lt_of_succ_lt hn₁, rfl, hkept.mem, hkept.esp, hkept.idtr⟩)
    · exact .now (.inl ⟨rfl, hkept.mem, hkept.esp, hkept.idtr⟩)

/-! ### Total memory -/

/-- The sum `ram_next` makes of `n` entries from `a` on, started at `v`. The word that is tested
against zero is the low half of the length with the high half in it, so every usable entry that is
not empty saturates the sum, whatever its length. -/
def ramTotal (m : Memory) : (n a : ℕ) → BitVec 32 → BitVec 32
  | 0, _, v => v
  | n + 1, a, v =>
    ramTotal m n (a + e820Ent)
      (if m.load 4 (a + 16) = 1 ∧ m.load 8 (a + 8) ≠ 0 then 0xFFFFFFFF#32 else v)

/-- After one entry at `a`, with `n` to go and the sum at `v`: the loop is left, or comes back. -/
structure RamPass (s₀ : Cpu) (n a : ℕ) (v : BitVec 32) (x : Label × Cpu) : Prop where
  label : x.1 = if n = 0 then ramDone else ramNext
  ecx : x.2.ecx = .ofNat 32 n
  esi : x.2.esi = .ofNat 32 (a + e820Ent)
  edx : x.2.edx = v
  kept : Kept s₀ x.2

section RamPass

variable {s₀ : Cpu} {n a : ℕ}

theorem leadsTo_ramSkip (hn : n + 1 < 2 ^ 32) (hecx : s.ecx = .ofNat 32 (n + 1))
    (hesi : s.esi = .ofNat 32 a) (h : Kept s₀ s) :
    LeadsTo (step fst k) (ramSkip, s) (RamPass s₀ n a s.edx) := by
  refine leadsTo_block rfl ?_
  simp only [runBlock, addl, decl, jne, Cpu.read, Cpu.write, Cpu.get, Cpu.set, hecx, hesi,
    ofNat_succ_sub_one, ofNat_beq_zero (Nat.lt_of_succ_lt hn), ofNat_add_ofNat]
  by_cases hzero : n = 0
  · rw [if_neg (by simp [hzero])]
    exact .now ⟨(if_pos hzero).symm, rfl, rfl, rfl, h.mem, h.esp, h.idtr⟩
  · rw [if_pos (by simp [hzero])]
    exact .now ⟨(if_neg hzero).symm, rfl, rfl, rfl, h.mem, h.esp, h.idtr⟩

theorem leadsTo_ramSat (hn : n + 1 < 2 ^ 32) (hecx : s.ecx = .ofNat 32 (n + 1))
    (hesi : s.esi = .ofNat 32 a) (h : Kept s₀ s) :
    LeadsTo (step fst k) (ramSat, s) (RamPass s₀ n a 0xFFFFFFFF#32) := by
  refine leadsTo_block rfl ?_
  simp only [runBlock, movl, Cpu.read, Cpu.write, Cpu.set]
  exact leadsTo_ramSkip hn hecx hesi ⟨h.mem, h.esp, h.idtr⟩

/-- The two halves of a number are zero together. -/
theorem load_eight_eq_zero_iff {m : Memory} (ha : a + 8 ≤ 2 ^ 32) :
    (ld32 m (.ofNat 32 a) ||| ld32 m (.ofNat 32 (a + 4)) == 0#32) = true ↔ m.load 8 a = 0 := by
  rw [beq_iff_eq, BitVec.or_eq_zero_iff, ← BitVec.toNat_inj, ← BitVec.toNat_inj,
    ld32_ofNat (by omega), ld32_ofNat (by omega), toNat_ofNat_of_lt (load_lt _ 4 _),
    toNat_ofNat_of_lt (load_lt _ 4 _), load_eight]
  simp

/-- **One entry.** -/
theorem leadsTo_ramNext_pass (hn : n + 1 < 2 ^ 32) (hecx : s.ecx = .ofNat 32 (n + 1))
    (hesi : s.esi = .ofNat 32 a) (ha : a + e820Ent ≤ 2 ^ 32) :
    LeadsTo (step fst k) (ramNext, s) (RamPass s n a
      (if s.mem.load 4 (a + 16) = 1 ∧ s.mem.load 8 (a + 8) ≠ 0 then 0xFFFFFFFF#32 else s.edx)) := by
  rw [e820Ent] at ha
  have htype : (ld32 s.mem (.ofNat 32 (a + 16)) == 1#32) = decide (s.mem.load 4 (a + 16) = 1) := by
    rw [Bool.eq_iff_iff, beq_iff_eq, decide_eq_true_eq, ← BitVec.toNat_inj, ld32_ofNat (by omega),
      toNat_ofNat_of_lt (load_lt _ 4 _)]
    rfl
  have hlen := load_eight_eq_zero_iff (m := s.mem) (a := a + 8) (by omega)
  have hkept : Kept s s := ⟨rfl, rfl, rfl⟩
  refine leadsTo_block rfl ?_
  simp only [runBlock, testl, cmpl, movl, orl, addl, je, jne, jae, Cpu.read, Cpu.write, Cpu.get,
    Cpu.set, hecx, hesi, BitVec.and_self, ofNat_beq_zero hn, ofNat_add_ofNat, htype]
  rw [if_neg (by simp)]
  by_cases h1 : s.mem.load 4 (a + 16) = 1
  · rw [if_neg (by simp [h1])]
    by_cases h0 : s.mem.load 8 (a + 8) = 0
    · -- An empty entry: nothing is added, and nothing is carried.
      have hzero := eq_of_beq (hlen.mpr h0)
      have hcarry : s.edx.uaddOverflow 0#32 = false := by
        have := s.edx.isLt
        simp only [BitVec.uaddOverflow, BitVec.toNat_zero, Nat.add_zero, decide_eq_false_iff_not]
        omega
      have hempty : ¬(s.mem.load 4 (a + 16) = 1 ∧ s.mem.load 8 (a + 8) ≠ 0) := fun h => h.2 h0
      rw [if_neg hempty, if_neg (by rw [hlen.mpr h0]; decide), hzero, if_pos (by rw [hcarry]; rfl),
        BitVec.add_zero]
      exact leadsTo_ramSkip hn rfl rfl ⟨rfl, rfl, rfl⟩
    · have hfull : s.mem.load 4 (a + 16) = 1 ∧ s.mem.load 8 (a + 8) ≠ 0 := ⟨h1, h0⟩
      rw [if_pos hfull, if_pos (by rw [Bool.not_eq_true', ← Bool.not_eq_true, hlen]; exact h0)]
      exact leadsTo_ramSat hn rfl rfl ⟨rfl, rfl, rfl⟩
  · have hother : ¬(s.mem.load 4 (a + 16) = 1 ∧ s.mem.load 8 (a + 8) ≠ 0) := fun h => h1 h.1
    rw [if_pos (by simp [h1]), if_neg hother]
    exact leadsTo_ramSkip hn rfl rfl ⟨rfl, rfl, rfl⟩

end RamPass

/-- **Adding up the memory** changes registers only. -/
theorem leadsTo_ramDone {n a : ℕ} (hn : n < 2 ^ 32) (hecx : s.ecx = .ofNat 32 n)
    (hesi : s.esi = .ofNat 32 a) (ha : a + e820Ent * n ≤ 2 ^ 32) :
    LeadsTo (step fst k) (ramNext, s) fun x => x.1 = ramDone ∧ Kept s x.2 ∧
      x.2.edx = ramTotal s.mem n a s.edx := by
  induction n generalizing s a with
  | zero =>
    refine leadsTo_block rfl ?_
    simp only [runBlock, testl, je, Cpu.read, Cpu.get, hecx, BitVec.and_self]
    exact .now ⟨rfl, ⟨rfl, rfl, rfl⟩, rfl⟩
  | succ n ih =>
    have hle : a + e820Ent ≤ 2 ^ 32 := by
      rw [e820Ent] at ha ⊢
      omega
    refine LeadsTo.trans (leadsTo_ramNext_pass hn hecx hesi hle) ?_
    rintro ⟨l, s₁⟩ ⟨hl, hecx₁, hesi₁, hedx₁, hkept⟩
    dsimp only at hl hecx₁ hesi₁ hedx₁ hkept
    by_cases hzero : n = 0
    · subst hzero
      exact .now ⟨hl, hkept, hedx₁⟩
    · rw [if_neg hzero] at hl
      subst hl
      refine (ih (Nat.lt_of_succ_lt hn) hecx₁ hesi₁ ?_).mono ?_
      · rw [e820Ent] at ha ⊢
        omega
      · rintro ⟨_, s₂⟩ ⟨rfl, hkept₂, hedx₂⟩
        refine ⟨rfl, hkept.trans hkept₂, ?_⟩
        rw [ramTotal, ← hedx₁, ← hkept.mem]
        exact hedx₂

/-! ### Calls -/

/-- A routine has been entered with the stack pointer at `sp`, from where it will return
to `l`. -/
structure Called (k : Link Label) (l : Label) (sp : ℕ) (s : Cpu) : Prop where
  /-- The stack pointer. -/
  esp : s.esp = .ofNat 32 sp
  /-- The return address. -/
  ret : s.mem.load 4 sp = (k.addr l).toNat
  /-- The stack does not wrap. -/
  sp_le : sp + 4 ≤ 2 ^ 32

variable {l : Label} {sp : ℕ}

/-- The return address is still there after writes elsewhere. -/
theorem Called.label_eq {R : List (ℕ × ℕ)} {m : Memory} (h : Called k l sp s)
    (hframe : EqOutside s.mem m R) (hR : ∀ x, sp ≤ x → x < sp + 4 → Outside R x) :
    k.label (ld32 m (.ofNat 32 sp)) = l := by
  rw [ld32_ofNat h.sp_le, hframe.load_eq hR, h.ret, ← eq_ofNat_toNat, k.label_addr]

/-- The state right after a `call`. -/
theorem called_push {m : Memory} (hsp : 4 ≤ sp) (hle : sp ≤ 2 ^ 32) {s' : Cpu}
    (hesp : s'.esp = .ofNat 32 (sp - 4)) (hmem : s'.mem = m.store 4 (sp - 4) (k.addr l).toNat) :
    Called k l (sp - 4) s' where
  esp := hesp
  ret := by rw [hmem]; exact load_store_self (k.addr l).isLt
  sp_le := by omega

/-- **`qizo_copy`.** -/
theorem leadsTo_qizoCopy {n src dst : ℕ} (h : Called k l sp s) (hecx : s.ecx = .ofNat 32 n)
    (hesi : s.esi = .ofNat 32 src) (hedi : s.edi = .ofNat 32 dst) (hn : n < 2 ^ 32)
    (hsrc : src + n ≤ 2 ^ 32) (hdst : dst + n ≤ 2 ^ 32) (hdis : src + n ≤ dst ∨ dst + n ≤ src)
    (hsp : dst + n ≤ sp ∨ sp + 4 ≤ dst) :
    LeadsTo (step fst k) (qizoCopy, s) fun x => x.1 = l ∧ x.2.esp = .ofNat 32 (sp + 4) ∧
      x.2.mem.Holds dst (s.mem.bytes src n) ∧ EqOutside s.mem x.2.mem [(dst, n)] := by
  obtain ⟨hholds, hframe⟩ := movsb_spec (m := s.mem) hsrc hdst hdis
  refine leadsTo_block rfl ?_
  simp only [runBlock, repMovsb, h.esp, hecx, hesi, hedi, toNat_ofNat_of_lt hn, ofNat_add_ofNat]
  rw [h.label_eq hframe fun x _ _ => by simp only [outside_cons, outside_nil, and_true]; omega]
  exact .now ⟨rfl, rfl, hholds, hframe⟩

/-- **`qizo_zero`.** -/
theorem leadsTo_qizoZero {n dst : ℕ} (h : Called k l sp s) (hecx : s.ecx = .ofNat 32 n)
    (hedi : s.edi = .ofNat 32 dst) (hn : n < 2 ^ 32) (hdst : dst + n ≤ 2 ^ 32)
    (hsp : dst + n ≤ sp ∨ sp + 4 ≤ dst) :
    LeadsTo (step fst k) (qizoZero, s) fun x => x.1 = l ∧ x.2.esp = .ofNat 32 (sp + 4) ∧
      x.2.mem.Holds dst (List.replicate n 0) ∧ EqOutside s.mem x.2.mem [(dst, n)] ∧
      x.2.idtr = s.idtr := by
  obtain ⟨hholds, hframe⟩ := stosb_spec (m := s.mem) (UInt8.ofNat (0#32).toNat) hdst
  refine leadsTo_block rfl ?_
  simp only [runBlock, xorl, repStosb, Cpu.read, Cpu.write, Cpu.read8, Cpu.get, Cpu.set,
    BitVec.xor_self, h.esp, hecx, hedi, toNat_ofNat_of_lt hn, ofNat_add_ofNat]
  rw [h.label_eq hframe fun x _ _ => by simp only [outside_cons, outside_nil, and_true]; omega]
  exact .now ⟨rfl, rfl, hholds, hframe, rfl⟩

/-! ### The fault table -/

/-- **Filling the fault IDT**: `n` gates of sixteen bytes from `dst` on, and then the call of
`qizo_build_pages`. -/
theorem leadsTo_fidtFill {n dst : ℕ} (hecx : s.ecx = .ofNat 32 (n + 1))
    (hedi : s.edi = .ofNat 32 dst) (hesp : s.esp = .ofNat 32 sp)
    (hdst : dst + 16 * (n + 1) < 2 ^ 32) (hsp : 4 ≤ sp) (hsp' : sp ≤ 2 ^ 32) :
    LeadsTo (step fst k) (fidtFill, s) fun x => x.1 = qizoBuildPages ∧
      Called k pagesBack (sp - 4) x.2 ∧
      EqOutside s.mem x.2.mem [(dst, 16 * (n + 1)), (sp - 4, 4)] := by
  refine LeadsTo.countdown (P := fun j x => x.1 = fidtFill ∧ j ≤ n + 1 ∧ x.2.ecx = .ofNat 32 j ∧
    x.2.edi = .ofNat 32 (dst + 16 * (n + 1 - j)) ∧ x.2.esp = .ofNat 32 sp ∧
    EqOutside s.mem x.2.mem [(dst, 16 * (n + 1)), (sp - 4, 4)]) ?_ n
    ⟨rfl, Nat.le_refl _, hecx, by rw [hedi, Nat.sub_self]; rfl, hesp, .refl _ _⟩
  rintro j ⟨_, s₁⟩ ⟨rfl, hj, hecx₁, hedi₁, hesp₁, hframe⟩
  dsimp only at hecx₁ hedi₁ hesp₁ hframe
  refine leadsTo_block rfl ?_
  simp only [runBlock, movl, andl, orl, addl, decl, jne, lidt, Cpu.read, Cpu.write, Cpu.get,
    Cpu.set, hecx₁, hedi₁, hesp₁, BitVec.add_zero, ofNat_add_ofNat, ofNat_succ_sub_one,
    ofNat_beq_zero (show j < 2 ^ 32 by omega)]
  rw [st32_ofNat (by omega), st32_ofNat (by omega), st32_ofNat (by omega), st32_ofNat (by omega)]
  have hstore {m : Memory} {a v : ℕ} (hm : EqOutside s.mem m [(dst, 16 * (n + 1)), (sp - 4, 4)])
      (ha : dst ≤ a) (ha' : a + 4 ≤ dst + 16 * (n + 1)) :
      EqOutside s.mem (m.store 4 a v) [(dst, 16 * (n + 1)), (sp - 4, 4)] :=
    hm.store fun x hx => by
      simp only [outside_cons, outside_nil, and_true] at hx
      omega
  refine LeadsTo.ite (fun hne => ?_) fun _ => ?_
  · refine .now (.inr ⟨by simpa using hne, rfl, by omega, rfl, ?_, rfl, ?_⟩)
    · dsimp only
      congr 1
      omega
    · exact hstore (hstore (hstore (hstore hframe (by omega) (by omega)) (by omega) (by omega))
        (by omega) (by omega)) (by omega) (by omega)
  · rw [ofNat_sub_ofNat hsp, st32_ofNat (by omega)]
    refine .now (.inl ⟨rfl, called_push hsp hsp' rfl rfl, EqOutside.store ?_ fun x hx => ?_⟩)
    · exact hstore (hstore (hstore (hstore hframe (by omega) (by omega)) (by omega) (by omega))
        (by omega) (by omega)) (by omega) (by omega)
    · simp only [outside_cons, outside_nil, and_true] at hx
      omega

end Stage2

end Qizo
