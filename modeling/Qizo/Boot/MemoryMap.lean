import Qizo.Boot.Routines
import Mathlib.Algebra.BigOperators.Group.Finset.Basic

/-!
# The memory map in protected mode

The first thing the 32-bit code does is to copy the map the firmware has given from its buffer into
bootinfo and to add up the usable memory. The buffer takes the entries right up to the cell that
counts them, and so does the room in bootinfo.

The sum goes into the low half of a field of eight bytes. What is in the high half stays.

## Main results

* `leadsTo_ramDone_of_start` — the map in bootinfo, and the sum in `edx`
* `leadsTo_qizoAdler_call` — up to the call of `qizo_adler`
* `totalRam_eq_iff` — when the field has the sum of the usable memory
-/

namespace Qizo

namespace Stage2

open X86 Reg Operand Label StateTransition ByteString Memory

variable {fst : ℕ} {k : Link Label} {s : Cpu}

/-! ### The stack -/

/-- The markers at the start, and the stack. -/
theorem leadsTo_mark2 :
    LeadsTo (step fst k) (qizoPm32, s) fun x => x.1 = mark2 ∧ x.2.mem = s.mem ∧
      x.2.esp = .ofNat 32 pmStack := by
  refine leadsTo_block rfl ?_
  simp only [startMark, runBlock, movb, movl, Cpu.read, Cpu.write, Cpu.read8, Cpu.write8, Cpu.get,
    Cpu.set]
  refine LeadsTo.trans (leadsTo_poll (n := 3999) rfl (by decide) rfl) ?_
  rintro ⟨_, s₁⟩ ⟨rfl, hmem₁, -⟩
  dsimp only at hmem₁
  refine leadsTo_block rfl ?_
  simp only [startMark, emitMark, List.cons_append, List.nil_append, runBlock, movb, movl, movw,
    movsr, outb, Cpu.read, Cpu.write, Cpu.read8, Cpu.write8, Cpu.get, Cpu.set]
  refine LeadsTo.trans (leadsTo_poll (n := 3999) rfl (by decide) rfl) ?_
  rintro ⟨_, s₂⟩ ⟨rfl, hmem₂, hesp₂, -⟩
  dsimp only at hmem₂ hesp₂
  exact .now ⟨rfl, hmem₂.trans hmem₁, hesp₂⟩

/-! ### Copying the map -/

/-- The number of entries, clamped. -/
def mapCount (m : Memory) : ℕ := min (m.load 4 (bootinfo + biE820N)) e820Max

theorem mapCount_le (m : Memory) : mapCount m ≤ 32 := Nat.min_le_right _ _

/-- Clamping the number of entries. -/
theorem leadsTo_e820Clamp :
    LeadsTo (step fst k) (mark2, s) fun x => x.1 = e820Clamp ∧ x.2.mem = s.mem ∧
      x.2.esp = s.esp ∧ x.2.ecx = .ofNat 32 (mapCount s.mem) := by
  have hload : ld32 s.mem (.ofNat 32 (bootinfo + biE820N)) =
      .ofNat 32 (s.mem.load 4 (bootinfo + biE820N)) := ld32_ofNat (by decide)
  have hnum : (ld32 s.mem (.ofNat 32 (bootinfo + biE820N))).toNat =
      s.mem.load 4 (bootinfo + biE820N) := by
    rw [hload, toNat_ofNat_of_lt (load_lt _ 4 _)]
  refine leadsTo_block rfl ?_
  simp only [emitMark, List.cons_append, List.nil_append, runBlock, movb, movl, outb, cmpl, jbe,
    Cpu.read, Cpu.write, Cpu.read8, Cpu.write8, Cpu.get, Cpu.set]
  refine LeadsTo.ite (fun hle => ?_) fun hgt => ?_
  · have hmin : mapCount s.mem = s.mem.load 4 (bootinfo + biE820N) := by
      refine Nat.min_eq_left ?_
      rw [← hnum]
      rcases (Bool.or_eq_true _ _).mp hle with hlt | heq
      · exact Nat.le_of_lt (of_decide_eq_true hlt)
      · exact Nat.le_of_eq (congrArg BitVec.toNat (eq_of_beq heq))
    rw [hmin]
    exact .now ⟨rfl, rfl, rfl, hload⟩
  · have hmin : mapCount s.mem = e820Max := by
      refine Nat.min_eq_right
        (Nat.le_of_not_lt fun hlt => hgt ((Bool.or_eq_true _ _).mpr (.inl ?_)))
      rw [← hnum] at hlt
      exact decide_eq_true hlt
    rw [hmin]
    exact .now ⟨rfl, rfl, rfl, rfl⟩

/-- `n` entries of the memory map, in bytes. -/
theorem e820_bytes {n : ℕ} (h : n ≤ e820Max) :
    BitVec.ofNat 32 n <<< 3 + BitVec.ofNat 32 n <<< 3 * 2#32 = .ofNat 32 (24 * n) := by
  have hall : ∀ n ≤ e820Max,
      BitVec.ofNat 32 n <<< 3 + BitVec.ofNat 32 n <<< 3 * 2#32 = .ofNat 32 (24 * n) := by decide
  exact hall n h

/-- The map is in bootinfo. -/
structure MapCopied (m m' : Memory) (n : ℕ) : Prop where
  count_eq : m'.load 4 (bootinfo + biE820N) = n
  map_at : m'.Holds (bootinfo + biE820) (m.bytes e820Buf (24 * n))
  frame : EqOutside m m' [(bootinfo + biE820, 0x304)]

/-- Copying the memory map. -/
theorem leadsTo_ramNext {n : ℕ} (hecx : s.ecx = .ofNat 32 n) (hn : n ≤ e820Max) :
    LeadsTo (step fst k) (e820Clamp, s) fun x => x.1 = ramNext ∧ x.2.esp = s.esp ∧
      MapCopied s.mem x.2.mem n ∧ x.2.ecx = .ofNat 32 n ∧
      x.2.esi = .ofNat 32 (bootinfo + biE820) ∧ x.2.edx = 0#32 := by
  have hn' : n ≤ 32 := hn
  have hsrc : e820Buf + 24 * n ≤ 2 ^ 32 := by
    rw [e820Buf]
    omega
  have hdst : bootinfo + biE820 + 24 * n ≤ bootinfo + biE820N := by
    rw [bootinfo, biE820, biE820N]
    omega
  have hdst' : bootinfo + biE820 + 24 * n ≤ 2 ^ 32 := hdst.trans (by decide)
  have hdis : bootinfo + biE820 + 24 * n ≤ e820Buf := hdst.trans (by decide)
  have hstore := eqOutside_store s.mem 4 (bootinfo + biE820N) n
  have hself : (s.mem.store 4 (bootinfo + biE820N) n).load 4 (bootinfo + biE820N) = n :=
    load_store_self (by omega)
  have hbuf : (s.mem.store 4 (bootinfo + biE820N) n).bytes e820Buf (24 * n) =
      s.mem.bytes e820Buf (24 * n) := by
    have := (@holds_iff_bytes_eq s.mem e820Buf (s.mem.bytes e820Buf (24 * n))).mpr
      (by rw [length_bytes])
    have := holds_iff_bytes_eq.mp (this.of_eqOutside hstore fun x hx _ => by
      simp only [outside_cons, outside_nil, and_true, e820Buf, bootinfo, biE820N] at hx ⊢
      omega)
    rwa [length_bytes] at this
  obtain ⟨hholds, hmove⟩ := movsb_spec (m := s.mem.store 4 (bootinfo + biE820N) n) hsrc hdst'
    (.inr hdis)
  rw [hbuf] at hholds
  refine leadsTo_block rfl ?_
  simp only [runBlock, movl, shll, leal, repMovsb, xorl, Cpu.read, Cpu.write, Cpu.get, Cpu.set,
    hecx, e820_bytes hn, BitVec.xor_self]
  rw [st32_ofNat (by decide), toNat_ofNat_of_lt (by omega : 24 * n < 2 ^ 32),
    toNat_ofNat_of_lt (by omega : n < 2 ^ 32)]
  have hcount : (movsb (24 * n) (.ofNat 32 e820Buf) (.ofNat 32 (bootinfo + biE820))
      (s.mem.store 4 (bootinfo + biE820N) n)).load 4 (bootinfo + biE820N) = n := by
    rw [hmove.load_eq, hself]
    intro x hx _
    simp only [outside_cons, outside_nil, and_true]
    exact .inr (hdst.trans hx)
  refine .now ⟨rfl, rfl, ⟨hcount, hholds, ?_⟩, ?_, rfl, rfl⟩
  · refine (hstore.mono fun x hx => ?_).trans (hmove.mono fun x hx => ?_)
    · simp only [outside_cons, outside_nil, and_true, bootinfo, biE820, biE820N] at hx ⊢
      omega
    · simp only [outside_cons, outside_nil, and_true, bootinfo, biE820] at hx ⊢
      omega
  · dsimp only
    rw [ld32_ofNat (by decide), hcount]

/-! ### The sum -/

/-- The sum only depends on the entries. -/
theorem ramTotal_congr {m m' : Memory} {n a b : ℕ} {v : BitVec 32}
    (h : ∀ i < 24 * n, m' (b + i) = m (a + i)) : ramTotal m' n b v = ramTotal m n a v := by
  induction n generalizing a b v with
  | zero => rfl
  | succ n ih =>
    have hload {w off : ℕ} (hoff : off + w ≤ 24) : m'.load w (b + off) = m.load w (a + off) := by
      refine load_congr fun i hi => ?_
      rw [Nat.add_assoc, Nat.add_assoc]
      exact h _ (by omega)
    rw [ramTotal, ramTotal, hload (by decide), hload (by decide)]
    refine ih fun i hi => ?_
    rw [e820Ent, Nat.add_assoc, Nat.add_assoc]
    exact h _ (by omega)

open Finset in
/-- The usable memory among `n` entries from `a` on. -/
def usableFrom (m : Memory) (n a : ℕ) : ℕ :=
  ∑ i ∈ range n, if m.load 4 (a + 24 * i + 16) = 1 then m.load 8 (a + 24 * i + 8) else 0

theorem usableFrom_succ (m : Memory) (n a : ℕ) :
    usableFrom m (n + 1) a =
      usableFrom m n (a + 24) + if m.load 4 (a + 16) = 1 then m.load 8 (a + 8) else 0 := by
  rw [usableFrom, Finset.sum_range_succ', usableFrom]
  congr 1
  refine Finset.sum_congr rfl fun i _ => ?_
  rw [show a + 24 * (i + 1) = a + 24 + 24 * i by omega]

/-- **What the loop computes**: whether there is any usable memory at all. -/
theorem ramTotal_eq (m : Memory) (n a : ℕ) (v : BitVec 32) :
    ramTotal m n a v = if usableFrom m n a = 0 then v else 0xFFFFFFFF#32 := by
  induction n generalizing a v with
  | zero => rfl
  | succ n ih =>
    rw [ramTotal, ih, e820Ent, usableFrom_succ]
    by_cases hrest : usableFrom m n (a + 24) = 0
    · rw [if_pos hrest, hrest, Nat.zero_add]
      by_cases h1 : m.load 4 (a + 16) = 1
      · by_cases h0 : m.load 8 (a + 8) = 0
        · simp [h1, h0]
        · simp [h1, h0]
      · simp [h1]
    · rw [if_neg hrest, if_neg (by omega)]

/-- **The map and the sum.** -/
theorem leadsTo_ramDone_of_start :
    LeadsTo (step fst k) (qizoPm32, s) fun x => x.1 = ramDone ∧ x.2.esp = .ofNat 32 pmStack ∧
      MapCopied s.mem x.2.mem (mapCount s.mem) ∧
      x.2.edx = if usableFrom s.mem (mapCount s.mem) e820Buf = 0 then 0#32 else 0xFFFFFFFF#32 := by
  have hn := mapCount_le s.mem
  refine LeadsTo.trans leadsTo_mark2 ?_
  rintro ⟨_, s₁⟩ ⟨rfl, hmem₁, hesp₁⟩
  refine LeadsTo.trans leadsTo_e820Clamp ?_
  rintro ⟨_, s₂⟩ ⟨rfl, hmem₂, hesp₂, hecx₂⟩
  dsimp only at hmem₁ hesp₁ hmem₂ hesp₂ hecx₂
  rw [hmem₁] at hecx₂
  refine LeadsTo.trans (leadsTo_ramNext hecx₂ hn) ?_
  rintro ⟨_, s₃⟩ ⟨rfl, hesp₃, hcopied, hecx₃, hesi₃, hedx₃⟩
  dsimp only at hesp₃ hcopied hecx₃ hesi₃ hedx₃
  rw [hmem₂, hmem₁] at hcopied
  refine (leadsTo_ramDone (by omega) hecx₃ hesi₃ ?_).mono ?_
  · rw [bootinfo, biE820, e820Ent]
    omega
  · rintro ⟨_, s₄⟩ ⟨rfl, hkept, hedx₄⟩
    dsimp only at hedx₄ ⊢
    rw [hkept.mem, hkept.esp, hesp₃, hesp₂, hesp₁]
    refine ⟨rfl, rfl, hcopied, ?_⟩
    rw [hedx₄, hedx₃, ← ramTotal_eq]
    refine ramTotal_congr fun i hi => ?_
    exact hcopied.map_at i _ (getElem?_bytes hi)

/-- What the code has written when it calls `qizo_adler`. -/
def mapWrites : List (ℕ × ℕ) :=
  [(bootinfo + biE820, 0x304), (bootinfo + biTotalRam, 4), (pmStack - 4, 4)]

/-- The state at the call of `qizo_adler`, `m` being memory at the start. -/
structure AdlerCall (k : Link Label) (m : Memory) (s : Cpu) : Prop where
  called : Called k adlerBack (pmStack - 4) s
  esi : s.esi = .ofNat 32 (s.mem.load 4 (bootinfo + biBlobPhys))
  ecx : s.ecx = .ofNat 32 (s.mem.load 4 (bootinfo + biBlobSize))
  count_eq : s.mem.load 4 (bootinfo + biE820N) = mapCount m
  map_at : s.mem.Holds (bootinfo + biE820) (m.bytes e820Buf (24 * mapCount m))
  total_eq : s.mem.load 4 (bootinfo + biTotalRam) =
    if usableFrom m (mapCount m) e820Buf = 0 then 0 else 2 ^ 32 - 1
  frame : EqOutside m s.mem mapWrites

/-- **Up to the call of `qizo_adler`.** -/
theorem leadsTo_qizoAdler_call :
    LeadsTo (step fst k) (qizoPm32, s) fun x => x.1 = qizoAdler ∧ AdlerCall k s.mem x.2 := by
  have hn := mapCount_le s.mem
  refine LeadsTo.trans leadsTo_ramDone_of_start ?_
  rintro ⟨_, s₁⟩ ⟨rfl, hesp, hcopied, hedx⟩
  dsimp only at hesp hcopied hedx
  have htotal : s₁.edx.toNat = if usableFrom s.mem (mapCount s.mem) e820Buf = 0 then 0
      else 2 ^ 32 - 1 := by
    rw [hedx]
    split <;> rfl
  refine leadsTo_block rfl ?_
  simp only [runBlock, movl, Cpu.read, Cpu.write, Cpu.get, Cpu.set, hesp]
  rw [st32_ofNat (by decide), ld32_ofNat (by decide), ld32_ofNat (by decide),
    ofNat_sub_ofNat (by decide), st32_ofNat (by decide)]
  have htwo := ((EqOutside.refl s₁.mem [(bootinfo + biTotalRam, 4), (pmStack - 4, 4)]).store
    (a := bootinfo + biTotalRam) (w := 4) (v := s₁.edx.toNat) fun x hx => by
      simp only [outside_cons] at hx
      exact hx.1).store (a := pmStack - 4) (w := 4) (v := (k.addr adlerBack).toNat) fun x hx => by
      simp only [outside_cons] at hx
      exact hx.2.1
  refine .now ⟨rfl, called_push (by decide) (by decide) rfl rfl, ?_, ?_, ?_, ?_, ?_, ?_⟩
  · dsimp only
    rw [load_store_of_disjoint (a := pmStack - 4) (.inl (by decide))]
  · dsimp only
    rw [load_store_of_disjoint (a := pmStack - 4) (.inl (by decide))]
  · dsimp only
    rw [load_store_of_disjoint (.inl (by decide)), load_store_of_disjoint (.inl (by decide)),
      hcopied.count_eq]
  · refine hcopied.map_at.of_eqOutside htwo fun x hx hx' => ?_
    rw [length_bytes] at hx'
    simp only [outside_cons, outside_nil, and_true, bootinfo, biE820, biTotalRam, pmStack] at hx' ⊢
    omega
  · dsimp only
    rw [load_store_of_disjoint (.inl (by decide)), load_store_self s₁.edx.isLt, htotal]
  · refine (hcopied.frame.mono fun x hx => ?_).trans (htwo.mono fun x hx => ?_)
    all_goals
      simp only [mapWrites, outside_cons, outside_nil, and_true] at hx ⊢
    · exact hx.1
    · exact hx.2

/-! ### The total -/

/-- The usable memory of the map in the buffer. -/
def usableRam (m : Memory) : ℕ := usableFrom m (m.load 4 (bootinfo + biE820N)) e820Buf

/-- The field of eight bytes after the loop: a flag in its low half, and in its high half what was
there before. -/
theorem AdlerCall.totalRam_eq {m : Memory} (h : AdlerCall k m s)
    (hN : m.load 4 (bootinfo + biE820N) ≤ e820Max) :
    s.mem.load 8 (bootinfo + biTotalRam) =
      (if usableRam m = 0 then 0 else 2 ^ 32 - 1) +
        2 ^ 32 * m.load 4 (bootinfo + biTotalRam + 4) := by
  have hcount : mapCount m = m.load 4 (bootinfo + biE820N) := Nat.min_eq_left hN
  have hhigh : s.mem.load 4 (bootinfo + biTotalRam + 4) = m.load 4 (bootinfo + biTotalRam + 4) := by
    refine h.frame.load_eq fun x hx hx' => ?_
    simp only [mapWrites, outside_cons, outside_nil, and_true, bootinfo, biE820, biTotalRam,
      pmStack] at hx hx' ⊢
    omega
  rw [load_eight, h.total_eq, hhigh, hcount, usableRam]

/-- **When the total is right**: nothing in the high half before, and no usable memory at all or
at least as much as the field is clamped to. -/
theorem totalRam_eq_iff (hN : s.mem.load 4 (bootinfo + biE820N) ≤ e820Max) :
    LeadsTo (step fst k) (qizoPm32, s) fun x => x.1 = qizoAdler ∧
      (x.2.mem.load 8 (bootinfo + biTotalRam) = min (2 ^ 32 - 1) (usableRam s.mem) ↔
        s.mem.load 4 (bootinfo + biTotalRam + 4) = 0 ∧
          (usableRam s.mem = 0 ∨ 2 ^ 32 - 1 ≤ usableRam s.mem)) := by
  refine leadsTo_qizoAdler_call.mono ?_
  rintro ⟨_, c⟩ ⟨rfl, hcall⟩
  refine ⟨rfl, ?_⟩
  rw [hcall.totalRam_eq hN]
  by_cases h0 : usableRam s.mem = 0
  · rw [if_pos h0]
    omega
  · rw [if_neg h0]
    omega

/-- One entry of 64 MiB, in memory that is zero elsewhere. -/
def oneEntryCpu : Cpu :=
  { callWith [] 0 with
    mem := Memory.store (Memory.store (Memory.store (fun _ => 0) 4 (bootinfo + biE820N) 1) 8
      (e820Buf + 8) 0x4000000) 4 (e820Buf + 16) 1 }

theorem usableRam_oneEntryCpu : usableRam oneEntryCpu.mem = 0x4000000 := by decide +kernel

/-- The condition on one entry. -/
theorem totalRam_eq_iff_oneEntry :
    LeadsTo (step 0x20000 consecutiveLink) (qizoPm32, oneEntryCpu) fun x => x.1 = qizoAdler ∧
      (x.2.mem.load 8 (bootinfo + biTotalRam) = min (2 ^ 32 - 1) (usableRam oneEntryCpu.mem) ↔
        oneEntryCpu.mem.load 4 (bootinfo + biTotalRam + 4) = 0 ∧
          (usableRam oneEntryCpu.mem = 0 ∨ 2 ^ 32 - 1 ≤ usableRam oneEntryCpu.mem)) :=
  totalRam_eq_iff (by decide +kernel)

/-- **A machine with 64 MiB has four GiB**: one short entry saturates the sum. -/
theorem totalRam_ne_oneEntry :
    oneEntryCpu.mem.load 4 (bootinfo + biE820N) ≤ e820Max ∧
    LeadsTo (step 0x20000 consecutiveLink) (qizoPm32, oneEntryCpu) fun x => x.1 = qizoAdler ∧
      x.2.mem.load 8 (bootinfo + biTotalRam) ≠ min (2 ^ 32 - 1) (usableRam oneEntryCpu.mem) := by
  have hN : oneEntryCpu.mem.load 4 (bootinfo + biE820N) ≤ e820Max := by decide +kernel
  refine ⟨hN, leadsTo_qizoAdler_call.mono ?_⟩
  rintro ⟨_, c⟩ ⟨rfl, hcall⟩
  refine ⟨rfl, ?_⟩
  rw [hcall.totalRam_eq hN, usableRam_oneEntryCpu, if_neg (by decide),
    Nat.min_eq_right (by decide)]
  omega

end Stage2

end Qizo
