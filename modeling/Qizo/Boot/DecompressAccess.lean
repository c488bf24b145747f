import Qizo.Boot.Stage2
import Qizo.Lib.Accesses

/-!
# What the decoder of stage2 touches

For each block of `qizo_decompress`, the bytes it reads and writes, in terms of the registers. The
routine looks at neither the end of its input nor the end of its output in between, so what it
touches is decided by the container alone.
-/

namespace Qizo

namespace Stage2

open X86 Reg Operand Label StateTransition Memory

variable {fst : ℕ} {k : Link Label} {s : Cpu} {R W : Set ℕ}

/-! ### Blocks without memory accesses -/

theorem contained_decompRaw : Contained (step fst k) R W (decompRaw, s) :=
  contained_block rfl (fun _ _ _ => rfl) fun _ _ _ => Function.update_self _ _ _

theorem contained_decompOk : Contained (step fst k) R W (decompOk, s) :=
  contained_block rfl (fun _ _ _ => rfl) fun _ _ _ => Function.update_self _ _ _

theorem contained_decompTop : Contained (step fst k) R W (decompTop, s) := by
  have hrun (a : ℕ) (v : UInt8) : runBlock k decompItem
      [.op (cmpl edx edi), jae decompOk, .op (testl ecx ecx), jne decompCopyByte,
        .op (addl ebx ebx), .op (cmpl (imm 0x100) ebx), je decompRefill] (s.poke a v) =
      poke a v (runBlock k decompItem
        [.op (cmpl edx edi), jae decompOk, .op (testl ecx ecx), jne decompCopyByte,
          .op (addl ebx ebx), .op (cmpl (imm 0x100) ebx), je decompRefill] s) := by
    simp only [runBlock, jae, jne, je, apply_ite (poke a v)]
    rfl
  refine contained_block rfl (fun a _ v => hrun a v) fun a _ v => ?_
  exact (congrArg (fun x : Label × Cpu => x.2.mem a) (hrun a v)).trans (Function.update_self _ _ _)

/-! ### Reading the input -/

theorem contained_decompRefill (hesi : s.esi.toNat ∈ R) :
    Contained (step fst k) R W (decompRefill, s) := by
  refine contained_block rfl (fun a ha v => ?_) fun a _ v => ?_
  · simp only [runBlock, movl, movzbl, incl, Cpu.read, Cpu.write, Cpu.read8, Cpu.get, Cpu.set,
      Cpu.poke, poke, BitVec.add_zero, update_of_mem hesi ha]
  · exact Function.update_self _ _ _

theorem contained_decompItem (hlit : s.ebp &&& s.ebx = 0#32 →
    s.esi.toNat ∈ R ∧ s.edi.toNat ∈ R ∧ s.edi.toNat ∈ W) :
    Contained (step fst k) R W (decompItem, s) := by
  by_cases hz : s.ebp &&& s.ebx = 0#32
  · obtain ⟨hesi, hedi, hedi'⟩ := hlit hz
    have hbeq : (s.ebp &&& s.ebx == 0#32) = true := beq_iff_eq.mpr hz
    refine contained_block rfl (fun a ha v => ?_) fun a ha v => ?_
    · simp only [runBlock, testl, jne, movb, incl, Cpu.read, Cpu.write, Cpu.read8, Cpu.write8,
        Cpu.get, Cpu.set, Cpu.poke, poke, BitVec.add_zero, hbeq, update_of_mem hesi ha,
        st8_update hedi ha]
      rfl
    · simp only [runBlock, testl, jne, movb, incl, Cpu.read, Cpu.write, Cpu.read8, Cpu.write8,
        Cpu.get, Cpu.set, Cpu.poke, BitVec.add_zero, hbeq]
      exact (st8_apply_of_mem hedi' ha).trans (Function.update_self _ _ _)
  · have hbeq : (s.ebp &&& s.ebx == 0#32) = false := beq_eq_false_iff_ne.mpr hz
    refine contained_block rfl (fun a ha v => ?_) fun a ha v => ?_
    · simp only [runBlock, testl, jne, Cpu.read, Cpu.get, Cpu.poke, poke, hbeq]
      rfl
    · simp only [runBlock, testl, jne, Cpu.read, Cpu.get, Cpu.poke, hbeq]
      exact Function.update_self _ _ _

theorem contained_decompCopyByte (hesi : s.esi.toNat ∈ R) (hedi : s.edi.toNat ∈ R)
    (hedi' : s.edi.toNat ∈ W) : Contained (step fst k) R W (decompCopyByte, s) := by
  refine contained_block rfl (fun a ha v => ?_) fun a ha v => ?_
  · simp only [runBlock, movb, incl, decl, Cpu.read, Cpu.write, Cpu.read8, Cpu.write8, Cpu.get,
      Cpu.set, Cpu.poke, poke, BitVec.add_zero, update_of_mem hesi ha, st8_update hedi ha]
  · simp only [runBlock, movb, incl, decl, Cpu.read, Cpu.write, Cpu.read8, Cpu.write8, Cpu.get,
      Cpu.set, Cpu.poke, BitVec.add_zero]
    exact (st8_apply_of_mem hedi' ha).trans (Function.update_self _ _ _)

/-! ### The stack -/

theorem contained_decompMatch (hesi : s.esi.toNat ∈ R) (hesi' : (s.esi + 1#32).toNat ∈ R)
    (hR : Word R (s.esp - 4#32) ∧ Word R (s.esp - 4#32 - 4#32) ∧
      Word R (s.esp - 4#32 - 4#32 - 4#32))
    (hW : Word W (s.esp - 4#32) ∧ Word W (s.esp - 4#32 - 4#32) ∧
      Word W (s.esp - 4#32 - 4#32 - 4#32)) :
    Contained (step fst k) R W (decompMatch, s) := by
  have hback : s.esp - 4#32 - 4#32 + 4#32 = s.esp - 4#32 := BitVec.sub_add_cancel _ _
  obtain ⟨h₁, h₂, h₃⟩ := hR
  obtain ⟨h₁', h₂', h₃'⟩ := hW
  refine contained_block rfl (fun a ha v => ?_) fun a ha v => ?_
  · simp only [runBlock, movzwl, addl, pushl, shrl, incl, movl, andl, Cpu.ea, Cpu.read, Cpu.write,
      Cpu.get, Cpu.set, Cpu.poke, poke, BitVec.add_zero, ld16_update hesi hesi' ha, hback,
      st32_update h₁ ha, st32_update h₂ ha, st32_update h₃ ha, ld32_update h₁ ha]
  · simp only [runBlock, movzwl, addl, pushl, shrl, incl, movl, andl, Cpu.ea, Cpu.read, Cpu.write,
      Cpu.get, Cpu.set, Cpu.poke, BitVec.add_zero, hback, st32_apply_of_mem h₁' ha,
      st32_apply_of_mem h₂' ha, st32_apply_of_mem h₃' ha, Function.update_self]

theorem contained_decompRet (hR : Word R s.esp ∧ Word R (s.esp + 4#32) ∧
      Word R (s.esp + 4#32 + 4#32) ∧ Word R (s.esp + 4#32 + 4#32 + 4#32) ∧
      Word R (s.esp + 4#32 + 4#32 + 4#32 + 4#32)) :
    Contained (step fst k) R W (decompRet, s) := by
  obtain ⟨h₀, h₁, h₂, h₃, h₄⟩ := hR
  refine contained_block rfl (fun a ha v => ?_) fun a ha v => ?_
  · simp only [runBlock, popl, Cpu.set, Cpu.poke, poke, ld32_update h₀ ha, ld32_update h₁ ha,
      ld32_update h₂ ha, ld32_update h₃ ha, ld32_update h₄ ha]
  · exact Function.update_self _ _ _

theorem contained_decompCopy (hdist : Word R (s.esp + 4#32))
    (hsrc : (s.edi - ld32 s.mem (s.esp + 4#32)).toNat ∈ R) (hedi : s.edi.toNat ∈ R)
    (hcount : Word R s.esp) (hedi' : s.edi.toNat ∈ W) (hcount' : Word W s.esp) :
    Contained (step fst k) R W (decompCopy, s) := by
  refine contained_block rfl (fun a ha v => ?_) fun a ha v => ?_
  · simp only [runBlock, movl, subl, movb, incl, decl, jne, addl, Cpu.read, Cpu.write, Cpu.read8,
      Cpu.write8, Cpu.get, Cpu.set, Cpu.poke, BitVec.add_zero, ld32_update hdist ha,
      update_of_mem hsrc ha, st8_update hedi ha, ld32_update hcount ha, st32_update hcount ha,
      apply_ite (poke a v)]
    rfl
  · simp only [runBlock, movl, subl, movb, incl, decl, jne, addl, Cpu.read, Cpu.write, Cpu.read8,
      Cpu.write8, Cpu.get, Cpu.set, Cpu.poke, BitVec.add_zero]
    split
    · dsimp only
      rw [st32_apply_of_mem hcount' ha, st8_apply_of_mem hedi' ha, Function.update_self]
    · dsimp only
      rw [st32_apply_of_mem hcount' ha, st8_apply_of_mem hedi' ha, Function.update_self]

theorem contained_qizoDecompress
    (hR : Word R (s.esp - 4#32) ∧ Word R (s.esp - 4#32 - 4#32) ∧
      Word R (s.esp - 4#32 - 4#32 - 4#32) ∧ Word R (s.esp - 4#32 - 4#32 - 4#32 - 4#32))
    (hW : Word W (s.esp - 4#32) ∧ Word W (s.esp - 4#32 - 4#32) ∧
      Word W (s.esp - 4#32 - 4#32 - 4#32) ∧ Word W (s.esp - 4#32 - 4#32 - 4#32 - 4#32))
    (hesi : Word R s.esi) (hesi' : Word R (s.esi + 4#32)) :
    Contained (step fst k) R W (qizoDecompress, s) := by
  obtain ⟨h₁, h₂, h₃, h₄⟩ := hR
  obtain ⟨h₁', h₂', h₃', h₄'⟩ := hW
  refine contained_block rfl (fun a ha v => ?_) fun a ha v => ?_
  · simp only [runBlock, pushl, movl, cmpl, jne, addl, xorl, Cpu.read, Cpu.write, Cpu.get, Cpu.set,
      Cpu.poke, BitVec.add_zero, st32_update h₁ ha, st32_update h₂ ha, st32_update h₃ ha,
      st32_update h₄ ha, ld32_update hesi ha, ld32_update hesi' ha, apply_ite (poke a v)]
    rfl
  · simp only [runBlock, pushl, movl, cmpl, jne, addl, xorl, Cpu.read, Cpu.write, Cpu.get, Cpu.set,
      Cpu.poke, BitVec.add_zero]
    split
    · dsimp only
      rw [st32_apply_of_mem h₄' ha, st32_apply_of_mem h₃' ha, st32_apply_of_mem h₂' ha,
        st32_apply_of_mem h₁' ha, Function.update_self]
    · dsimp only
      rw [st32_apply_of_mem h₄' ha, st32_apply_of_mem h₃' ha, st32_apply_of_mem h₂' ha,
        st32_apply_of_mem h₁' ha, Function.update_self]

/-! ### Bytes outside

When a block is not contained. Each of the accesses of the routine can go astray. -/

theorem ofNat_toNat_inj {b b' : UInt8} (h : BitVec.ofNat 32 b.toNat = .ofNat 32 b'.toNat) :
    b = b' := by
  apply UInt8.toNat.inj
  have := b.toNat_lt
  have := b'.toNat_lt
  rw [← @toNat_ofNat_of_lt b.toNat (by omega), h, toNat_ofNat_of_lt (by omega)]

/-- The next flag byte is behind the end. -/
theorem not_contained_decompRefill (hesi : s.esi.toNat ∉ R) :
    ¬Contained (step fst k) R W (decompRefill, s) := by
  refine not_contained_of_seen (fun y => y.2.ebp) (fun v => .ofNat 32 v.toNat) hesi
    (fun _ => ⟨_, rfl⟩) (fun v y h => ?_) (fun _ _ => rfl) fun heq => ?_
  · obtain rfl := Option.some.inj h
    simp only [runBlock, movl, movzbl, incl, Cpu.read, Cpu.write, Cpu.read8, Cpu.get, Cpu.set,
      poke, Cpu.poke, BitVec.add_zero, Function.update_self]
  · exact add_one_ne _ (ofNat_toNat_inj heq)

/-- A literal is behind the end. -/
theorem not_contained_decompItem (hz : s.ebp &&& s.ebx = 0#32) (hesi : s.esi.toNat ∉ R)
    (hedi : s.edi.toNat ∈ R) : ¬Contained (step fst k) R W (decompItem, s) := by
  have hbeq : (s.ebp &&& s.ebx == 0#32) = true := beq_iff_eq.mpr hz
  have hne : s.edi.toNat ≠ s.esi.toNat := ne_of_mem_of_not_mem hedi hesi
  refine not_contained_of_seen (fun y => y.2.mem s.edi.toNat) (fun v => v) hesi
    (fun _ => ⟨_, rfl⟩) (fun v y h => ?_) (fun _ _ => Function.update_of_ne hne _ _) (add_one_ne _)
  obtain rfl := Option.some.inj h
  simp only [runBlock, testl, jne, movb, incl, Cpu.read, Cpu.write, Cpu.read8, Cpu.write8,
    Cpu.get, Cpu.set, poke, Cpu.poke, BitVec.add_zero, hbeq, Bool.not_true, Bool.false_eq_true,
    if_false, st8, Function.update_self, ofNat_toNat_withLow8]

/-- A byte of a container without the magic goes behind the end of the output. -/
theorem not_contained_decompCopyByte (hne : s.esi.toNat ≠ s.edi.toNat) (hedi : s.edi.toNat ∉ W) :
    ¬Contained (step fst k) R W (decompCopyByte, s) := by
  refine @not_contained_of_writes _ _ _ _ _ _ _ (s.mem s.esi.toNat + 1) rfl hedi ?_
  simp only [runBlock, movb, incl, decl, Cpu.read, Cpu.write, Cpu.read8, Cpu.write8, Cpu.get,
    Cpu.set, poke, Cpu.poke, BitVec.add_zero, st8, Function.update_self, Function.update_of_ne hne,
    ofNat_toNat_withLow8]
  exact (add_one_ne _).symm

/-- The second byte of a match token is behind the end. -/
theorem not_contained_decompMatch {p : ℕ} (hp : 12 ≤ p) (hp' : p < 2 ^ 32)
    (hesp : s.esp = .ofNat 32 p) (hR : ∀ a, p - 12 ≤ a → a < p → a ∈ R)
    (hesi : (s.esi + 1#32).toNat ∉ R) : ¬Contained (step fst k) R W (decompMatch, s) := by
  have hnext : s.esi.toNat ≠ (s.esi + 1#32).toNat := by
    have := s.esi.isLt
    change s.esi.toNat ≠ (s.esi.toNat + 1) % 2 ^ 32
    omega
  refine not_contained_of_seen (fun y => y.2.mem.load 4 (p - 4))
    (fun v => (s.mem s.esi.toNat).toNat + 256 * v.toNat) hesi (fun _ => ⟨_, rfl⟩) (fun v y h => ?_)
    (fun v y => ?_) fun heq => ?_
  · obtain rfl := Option.some.inj h
    have hlo := (s.mem s.esi.toNat).toNat_lt
    have hhi := v.toNat_lt
    simp only [runBlock, movzwl, addl, pushl, shrl, incl, movl, andl, Cpu.ea, Cpu.read, Cpu.write,
      Cpu.get, Cpu.set, poke, Cpu.poke, hesp, BitVec.add_zero]
    rw [ofNat_sub_ofNat (by omega), ofNat_sub_ofNat (by omega), ofNat_sub_ofNat (by omega),
      st32_ofNat (by omega), st32_ofNat (by omega), st32_ofNat (by omega),
      load_store_of_disjoint (Or.inr (by omega)), load_store_of_disjoint (Or.inr (by omega)),
      load_store_self (BitVec.isLt _)]
    simp only [ld16, Function.update_self, Function.update_of_ne hnext, ByteString.leNat_cons,
      ByteString.leNat_nil, BitVec.toNat_setWidth, BitVec.toNat_ofNat]
    omega
  · refine load_congr fun i hi => Function.update_of_ne ?_ _ _
    exact ne_of_mem_of_not_mem (hR _ (by omega) (by omega)) hesi
  · refine add_one_ne (s.mem (s.esi + 1#32).toNat) (UInt8.toNat.inj ?_)
    dsimp only at heq
    omega

/-- What one pass of the copy loop writes. -/
theorem mem_decompCopy {y : Label × Cpu} (h : step fst k (decompCopy, s) = some y)
    (hcount : Word ({s.edi.toNat}ᶜ) s.esp) :
    y.2.mem s.edi.toNat = s.mem (s.edi - ld32 s.mem (s.esp + 4#32)).toNat := by
  obtain rfl := Option.some.inj h
  have hin : s.edi.toNat ∉ ({s.edi.toNat}ᶜ : Set ℕ) := fun h => h rfl
  simp only [runBlock, movl, subl, movb, incl, decl, jne, addl, Cpu.read, Cpu.write, Cpu.read8,
    Cpu.write8, Cpu.get, Cpu.set, BitVec.add_zero, ofNat_toNat_withLow8]
  split
  · dsimp only
    rw [st32_apply_of_mem hcount hin, st8, Function.update_self]
  · dsimp only
    rw [st32_apply_of_mem hcount hin, st8, Function.update_self]

/-- A back reference goes outside. -/
theorem not_contained_decompCopy_read {a : ℕ} (ha : (s.edi - ld32 s.mem (s.esp + 4#32)).toNat = a)
    (hcount : Word ({s.edi.toNat}ᶜ) s.esp) (hdist : Word R (s.esp + 4#32)) (hedi : s.edi.toNat ∈ R)
    (hsrc : a ∉ R) : ¬Contained (step fst k) R W (decompCopy, s) := by
  refine not_contained_of_seen (fun y => y.2.mem s.edi.toNat) (fun v => v) hsrc
    (fun _ => ⟨_, rfl⟩) (fun v y h => ?_)
    (fun _ _ => Function.update_of_ne (ne_of_mem_of_not_mem hedi hsrc) _ _) (add_one_ne _)
  have hbyte := mem_decompCopy (s := s.poke a v) h hcount
  simp only [Cpu.poke, ld32_update hdist hsrc, ha, Function.update_self] at hbyte
  exact hbyte

/-- A copied byte goes behind the end of the output. -/
theorem not_contained_decompCopy_write (hcount : Word ({s.edi.toNat}ᶜ) s.esp)
    (hdist : Word ({s.edi.toNat}ᶜ) (s.esp + 4#32))
    (hsrc : (s.edi - ld32 s.mem (s.esp + 4#32)).toNat ≠ s.edi.toNat) (hedi : s.edi.toNat ∉ W) :
    ¬Contained (step fst k) R W (decompCopy, s) := by
  have hin : s.edi.toNat ∉ ({s.edi.toNat}ᶜ : Set ℕ) := fun h => h rfl
  set v := s.mem (s.edi - ld32 s.mem (s.esp + 4#32)).toNat + 1 with hv
  obtain ⟨y, hy⟩ : ∃ y, step fst k (decompCopy, s.poke s.edi.toNat v) = some y := ⟨_, rfl⟩
  refine not_contained_of_writes hy hedi ?_
  have hbyte := mem_decompCopy hy hcount
  simp only [Cpu.poke, ld32_update hdist hin, Function.update_of_ne hsrc] at hbyte
  rw [hbyte]
  exact (add_one_ne _).symm

/-- Another byte in a double word makes it another one. -/
theorem ld32_update_ne {m : Memory} {i a : ℕ} {v v' : UInt8} (hi : i + 4 ≤ 2 ^ 32) (ha : i ≤ a)
    (ha' : a < i + 4) (hv : v ≠ v') :
    ld32 (Function.update m a v) (.ofNat 32 i) ≠ ld32 (Function.update m a v') (.ofNat 32 i) := by
  intro heq
  have hload := congrArg BitVec.toNat heq
  have haddr : (BitVec.ofNat 32 i).toNat = i := toNat_ofNat_of_lt (by omega)
  rw [toNat_ld32 (by omega), toNat_ld32 (by omega), haddr] at hload
  have hbytes :
      Memory.bytes (Function.update m a v) i 4 = Memory.bytes (Function.update m a v') i 4 := by
    have h := congrArg (ByteString.leBytes 4) hload
    have hback (m : Memory) : ByteString.leBytes 4 (m.load 4 i) = m.bytes i 4 :=
      (congrArg (ByteString.leBytes · _) (length_bytes m i 4).symm).trans
        (ByteString.leBytes_leNat _)
    rwa [hback, hback] at h
  have hbyte := congrArg (·[a - i]?) hbytes
  simp only [getElem?_bytes (show a - i < 4 by omega), Nat.add_sub_cancel' ha,
    Function.update_self] at hbyte
  exact hv (Option.some.inj hbyte)

/-- The header is cut short. -/
theorem not_contained_qizoDecompress {i a : ℕ}
    (hR : Word R (s.esp - 4#32) ∧ Word R (s.esp - 4#32 - 4#32) ∧
      Word R (s.esp - 4#32 - 4#32 - 4#32) ∧ Word R (s.esp - 4#32 - 4#32 - 4#32 - 4#32))
    (hi : i + 8 ≤ 2 ^ 32) (hesi : s.esi = .ofNat 32 i) (hia : i ≤ a) (hai : a < i + 8)
    (ha : a ∉ R) : ¬Contained (step fst k) R W (qizoDecompress, s) := by
  obtain ⟨h₁, h₂, h₃, h₄⟩ := hR
  obtain ⟨m, hm⟩ : ∃ m, st32 (st32 (st32 (st32 s.mem (s.esp - 4#32) s.ebx) (s.esp - 4#32 - 4#32)
      s.ebp) (s.esp - 4#32 - 4#32 - 4#32) s.esi) (s.esp - 4#32 - 4#32 - 4#32 - 4#32) s.edi = m :=
    ⟨_, rfl⟩
  have hrun (v : UInt8) (y : Label × Cpu)
      (h : step fst k (poke a v (qizoDecompress, s)) = some y) :
      y.2.eax = ld32 (Function.update m a v) (.ofNat 32 i) ∧
        (y.2.eax ≠ .ofNat 32 Lzss.lzssMagic →
          y.2.edx = ld32 (Function.update m a v) (.ofNat 32 (i + 4))) ∧
        (y.2.eax = .ofNat 32 Lzss.lzssMagic →
          y.2.edx = ld32 (Function.update m a v) (.ofNat 32 (i + 4)) + s.edi) := by
    obtain rfl := Option.some.inj h
    simp only [runBlock, pushl, movl, cmpl, jne, addl, xorl, Cpu.read, Cpu.write, Cpu.get, Cpu.set,
      poke, Cpu.poke, BitVec.add_zero, st32_update h₁ ha, st32_update h₂ ha, st32_update h₃ ha,
      st32_update h₄ ha, hm]
    rw [hesi, ofNat_add_ofNat]
    split
    · next hne => exact ⟨rfl, fun _ => rfl, fun h => absurd h (by simpa using hne)⟩
    · next heq => exact ⟨rfl, fun h => absurd h (by simpa using heq), fun _ => rfl⟩
  by_cases hlow : a < i + 4
  · refine not_contained_of_seen (fun y => y.2.eax)
      (fun v => ld32 (Function.update m a v) (.ofNat 32 i)) ha (fun _ => ⟨_, rfl⟩)
      (fun v y h => (hrun v y h).1) (fun _ _ => rfl) ?_
    exact ld32_update_ne (by omega) hia hlow (add_one_ne _)
  · have hword (v : UInt8) : ld32 (Function.update m a v) (.ofNat 32 i) = ld32 m (.ofNat 32 i) :=
      ld32_update (word_ofNat (R := {a}ᶜ) (by omega) fun b _ hb h => by
        rw [Set.mem_singleton_iff] at h; omega) fun h => h rfl
    have hother := @ld32_update_ne m (i + 4) a _ _ (by omega) (by omega) (by omega)
      (add_one_ne (s.mem a))
    by_cases hmagic : ld32 m (.ofNat 32 i) = .ofNat 32 Lzss.lzssMagic
    · refine not_contained_of_seen (fun y => y.2.edx)
        (fun v => ld32 (Function.update m a v) (.ofNat 32 (i + 4)) + s.edi) ha (fun _ => ⟨_, rfl⟩)
        (fun v y h => ?_) (fun _ _ => rfl) fun heq => hother ((BitVec.add_left_inj _).mp heq)
      obtain ⟨heax, -, hedx⟩ := hrun v y h
      exact hedx (heax.trans ((hword v).trans hmagic))
    · refine not_contained_of_seen (fun y => y.2.edx)
        (fun v => ld32 (Function.update m a v) (.ofNat 32 (i + 4))) ha (fun _ => ⟨_, rfl⟩)
        (fun v y h => ?_) (fun _ _ => rfl) hother
      obtain ⟨heax, hedx, -⟩ := hrun v y h
      exact hedx fun h => hmagic ((hword v).symm.trans (heax.symm.trans h))

/-! ### The run of the routine -/

/-- What a call of the routine in `s` may touch, with a container of `n` bytes and an output of
`m`: these, and its stack up to the return address. -/
def mayTouch (s : Cpu) (n m : ℕ) : Set ℕ :=
  {a | s.esi.toNat ≤ a ∧ a < s.esi.toNat + n ∨ s.edi.toNat ≤ a ∧ a < s.edi.toNat + m ∨
    s.esp.toNat - 28 ≤ a ∧ a < s.esp.toNat + 4}

/-- What it may write: the output, and its stack. -/
def mayWrite (s : Cpu) (m : ℕ) : Set ℕ :=
  {a | s.edi.toNat ≤ a ∧ a < s.edi.toNat + m ∨ s.esp.toNat - 28 ≤ a ∧ a < s.esp.toNat}

/-- The labels of the routine. -/
def Label.inDecompress : Label → Bool
  | qizoDecompress | decompRaw | decompTop | decompItem | decompRefill | decompMatch | decompCopy
  | decompCopyByte | decompOk | decompFail | decompRet => true
  | _ => false

/-- The run up to where the routine is left. -/
noncomputable def during (fst : ℕ) (k : Link Label) : Label × Cpu → Option (Label × Cpu) :=
  restrict (fun x => x.1.inDecompress = true) (step fst k)

/-- The same, up to the first block that is not contained. -/
noncomputable def within (fst : ℕ) (k : Link Label) (R W : Set ℕ) :
    Label × Cpu → Option (Label × Cpu) :=
  restrict (fun x => x.1.inDecompress = true ∧ Contained (step fst k) R W x) (step fst k)

variable {x : Label × Cpu} {Q : Label × Cpu → Prop}

/-- **One contained block.** -/
theorem leadsTo_within {l : Label} {b : Block Label} (hl : l.inDecompress = true)
    (hc : Contained (step fst k) R W (l, s)) (hcode : code fst l = some b)
    (h : LeadsTo (within fst k R W) (runBlock k b.next b.body s) Q) :
    LeadsTo (within fst k R W) (l, s) Q := by
  have hstep : step fst k (l, s) = some (runBlock k b.next b.body s) := by
    rw [step, X86.step, hcode, Option.map_some]
  exact .head (restrict_eq_some_iff.mpr ⟨⟨hl, hc⟩, hstep⟩) h

theorem leadsTo_during (h : LeadsTo (within fst k R W) x Q) : LeadsTo (during fst k) x Q :=
  h.restrict_mono fun _ hy => hy.1

end Stage2

end Qizo
