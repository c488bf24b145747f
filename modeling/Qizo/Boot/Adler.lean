import Qizo.Boot.Stage2
import Mathlib.Data.List.Basic

/-!
# The checksum loop of stage2

`qizo_adler` is meant to be Adler-32. It adds the first sum to the second before reducing it, and
subtracts the modulus at most once from each, so that after a byte that carries the first sum past
the modulus the second sum may be left one modulus too large.

The excess lasts for one byte: the first sum is then small, and the next subtraction removes it.
So the loop returns Adler-32 unless the excess arises at the very last byte, which is when the
two sums before that byte and the byte itself add up to twice the modulus or more.

## Main results

* `leadsTo_qizoAdler` — the assembly computes `asmValue`
* `asmValue_eq_checksum_iff` — when that value is Adler-32
-/

namespace Qizo

namespace Stage2

open X86 Reg Operand Label StateTransition Lzss

variable {fst : ℕ} {k : Link Label}

/-! ### The arithmetic -/

/-- One pass of `adler_loop` on the registers `eax` and `edi`, as numbers. -/
def asmStep (p : ℕ × ℕ) (b : UInt8) : ℕ × ℕ :=
  let a := p.1 + b.toNat
  let c := p.2 + a
  (if a < 65521 then a else a - 65521, if c < 65521 then c else c - 65521)

/-- The two sums `qizo_adler` ends with. -/
def asmSums (data : List UInt8) : ℕ × ℕ := data.foldl asmStep (1, 0)

/-- The assembly's sums `p` against the Adler-32 sums `q`: equal, or the second one modulus too
large right after the first has wrapped. -/
structure AdlerRel (p q : ℕ × ℕ) : Prop where
  /-- The first sums agree. -/
  fst_eq : p.1 = q.1
  /-- Both are reduced. -/
  fst_lt : q.1 < 65521
  /-- So is the second Adler-32 sum. -/
  snd_lt : q.2 < 65521
  /-- The excess, and how small the sums are where there is one. -/
  snd_eq : p.2 = q.2 ∨ p.2 = q.2 + 65521 ∧ q.2 ≤ 253 ∧ q.1 ≤ 254

theorem adlerRel_init : AdlerRel (1, 0) (1, 0) := ⟨rfl, by decide, by decide, Or.inl rfl⟩

/-- One byte keeps the relation, and the excess arises exactly when the sums and the byte reach
twice the modulus. -/
theorem AdlerRel.step {p q : ℕ × ℕ} (h : AdlerRel p q) (b : UInt8) :
    AdlerRel (asmStep p b) (adlerStep q b) ∧
      ((asmStep p b).2 = (adlerStep q b).2 ↔ q.1 + q.2 + b.toNat < 2 * 65521) := by
  obtain ⟨h1, h2, h3, h4⟩ := h
  have hb : b.toNat < 256 := b.toNat_lt
  simp only [asmStep, adlerStep]
  rw [h1]
  refine ⟨⟨?_, Nat.mod_lt _ (by decide), Nat.mod_lt _ (by decide), ?_⟩, ?_⟩
  · dsimp only
    split <;> omega
  · dsimp only
    split <;> omega
  · split <;> omega

theorem asmSums_concat (data : List UInt8) (b : UInt8) :
    asmSums (data ++ [b]) = asmStep (asmSums data) b := by simp [asmSums]

theorem adlerSums_concat (data : List UInt8) (b : UInt8) :
    adlerSums (data ++ [b]) = adlerStep (adlerSums data) b := by simp [adlerSums]

/-- The relation along a whole string. -/
theorem asmSums_rel (data : List UInt8) : AdlerRel (asmSums data) (adlerSums data) := by
  induction data using List.reverseRecOn with
  | nil => exact adlerRel_init
  | append_singleton data b ih =>
    rw [asmSums_concat, adlerSums_concat]
    exact (ih.step b).1

/-- The strings `qizo_adler` gets right: the empty one, and those whose last byte does not bring
the sums before it to twice the modulus. -/
def AdlerExact (data : List UInt8) : Prop :=
  ∀ b ∈ data.getLast?, (adlerSums data.dropLast).1 + (adlerSums data.dropLast).2 + b.toNat
    < 2 * 65521

instance (data : List UInt8) : Decidable (AdlerExact data) :=
  Option.decidableForallMem (p := fun b : UInt8 => (adlerSums data.dropLast).1 +
    (adlerSums data.dropLast).2 + b.toNat < 2 * 65521) data.getLast?

/-- **The sums are Adler-32 exactly on the strings without a final excess.** -/
theorem asmSums_snd_eq_iff (data : List UInt8) :
    (asmSums data).2 = (adlerSums data).2 ↔ AdlerExact data := by
  induction data using List.reverseRecOn with
  | nil => simp [AdlerExact, asmSums, adlerSums]
  | append_singleton data b _ =>
    rw [asmSums_concat, adlerSums_concat]
    simpa [AdlerExact] using ((asmSums_rel data).step b).2

/-- The value `qizo_adler` returns: the second sum shifted above the first, in 32 bits. -/
def asmValue (data : List UInt8) : ℕ :=
  if data = [] then 1 else ((asmSums data).2 * 65536 + (asmSums data).1) % 2 ^ 32

/-- The returned value is the checksum exactly when the sums are right: one modulus too much is
visible in the upper half. -/
theorem asmValue_eq_checksum_iff (data : List UInt8) :
    asmValue data = checksum data ↔ AdlerExact data := by
  rw [← asmSums_snd_eq_iff]
  obtain ⟨h1, h2, h3, h4⟩ := asmSums_rel data
  by_cases hd : data = []
  · subst hd
    simp [asmValue, checksum, asmSums, adlerSums]
  · rw [asmValue, if_neg hd, checksum]
    omega

/-! ### The assembly -/

/-- What `qizo_adler` leaves alone. -/
structure AdlerFrame (s s' : Cpu) : Prop where
  /-- Memory is only read. -/
  mem : s'.mem = s.mem
  /-- The base register. -/
  ebx : s'.ebx = s.ebx
  /-- The frame pointer. -/
  ebp : s'.ebp = s.ebp
  /-- The stack pointer. -/
  esp : s'.esp = s.esp

theorem AdlerFrame.refl (s : Cpu) : AdlerFrame s s := ⟨rfl, rfl, rfl, rfl⟩

theorem AdlerFrame.trans {s s' s'' : Cpu} (h : AdlerFrame s s') (h' : AdlerFrame s' s'') :
    AdlerFrame s s'' :=
  ⟨h'.mem.trans h.mem, h'.ebx.trans h.ebx, h'.ebp.trans h.ebp, h'.esp.trans h.esp⟩

theorem leadsTo_adlerA {s : Cpu} {b : UInt8} (hb : s.mem s.esi.toNat = b)
    (ha : s.eax.toNat < 65521) (hd : s.edi.toNat < 65521 + 254) :
    LeadsTo (step fst k) (adlerLoop, s) fun x => x.1 = adlerA ∧ AdlerFrame s x.2 ∧
      x.2.esi = s.esi ∧ x.2.ecx = s.ecx ∧
      x.2.eax.toNat = (asmStep (s.eax.toNat, s.edi.toNat) b).1 ∧
      x.2.edi.toNat = s.edi.toNat + (s.eax.toNat + b.toNat) := by
  have hlt : b.toNat < 256 := b.toNat_lt
  have hsum : (s.eax + BitVec.ofNat 32 b.toNat).toNat = s.eax.toNat + b.toNat :=
    toNat_add_ofNat (by omega)
  have hsum2 : (s.edi + (s.eax + BitVec.ofNat 32 b.toNat)).toNat
      = s.edi.toNat + (s.eax.toNat + b.toNat) := by
    rw [BitVec.toNat_add, hsum]; omega
  refine leadsTo_block rfl ?_
  by_cases h : s.eax.toNat + b.toNat < 65521
  · simp only [runBlock, movzbl, addl, cmpl, jb, Cpu.read, Cpu.write, Cpu.get, Cpu.set, Cpu.read8,
      BitVec.add_zero, hb, hsum, BitVec.toNat_ofNat]
    rw [if_pos (by simpa using h)]
    refine .now ⟨rfl, ⟨rfl, rfl, rfl, rfl⟩, rfl, rfl, ?_, hsum2⟩
    simpa [asmStep, h] using hsum
  · simp only [runBlock, movzbl, addl, cmpl, subl, jb, Cpu.read, Cpu.write, Cpu.get, Cpu.set,
      Cpu.read8, BitVec.add_zero, hb, hsum, BitVec.toNat_ofNat]
    rw [if_neg (by simpa using h)]
    refine .now ⟨rfl, ⟨rfl, rfl, rfl, rfl⟩, rfl, rfl, ?_, hsum2⟩
    simp only [asmStep, h, if_false, BitVec.toNat_sub, hsum, BitVec.toNat_ofNat]
    omega

theorem leadsTo_adlerB {s : Cpu} :
    LeadsTo (step fst k) (adlerA, s) fun x => x.1 = adlerB ∧ AdlerFrame s x.2 ∧
      x.2.esi = s.esi ∧ x.2.ecx = s.ecx ∧ x.2.eax = s.eax ∧
      x.2.edi.toNat = if s.edi.toNat < 65521 then s.edi.toNat else s.edi.toNat - 65521 := by
  refine leadsTo_block rfl ?_
  by_cases h : s.edi.toNat < 65521
  · simp only [runBlock, cmpl, jb, Cpu.read, Cpu.get, BitVec.toNat_ofNat]
    rw [if_pos (by simpa using h)]
    exact .now ⟨rfl, ⟨rfl, rfl, rfl, rfl⟩, rfl, rfl, rfl, by rw [if_pos h]⟩
  · simp only [runBlock, cmpl, subl, jb, Cpu.read, Cpu.write, Cpu.get, Cpu.set,
      BitVec.toNat_ofNat]
    rw [if_neg (by simpa using h)]
    refine .now ⟨rfl, ⟨rfl, rfl, rfl, rfl⟩, rfl, rfl, rfl, ?_⟩
    have := s.edi.isLt
    rw [if_neg h]
    simp only [BitVec.toNat_sub, BitVec.toNat_ofNat]
    omega

/-- One pass of the loop, up to the end-of-loop test. The bounds keep the sums inside a
register. -/
theorem leadsTo_adler_pass {s : Cpu} {b : UInt8} (hb : s.mem s.esi.toNat = b)
    (ha : s.eax.toNat < 65521) (hd : s.edi.toNat < 65521 + 254) :
    LeadsTo (step fst k) (adlerLoop, s) fun x => x.1 = adlerB ∧ AdlerFrame s x.2 ∧
      x.2.esi = s.esi ∧ x.2.ecx = s.ecx ∧
      (x.2.eax.toNat, x.2.edi.toNat) = asmStep (s.eax.toNat, s.edi.toNat) b := by
  refine (leadsTo_adlerA hb ha hd).trans ?_
  rintro ⟨_, s₁⟩ ⟨rfl, hf₁, hesi₁, hecx₁, heax₁, hedi₁⟩
  refine leadsTo_adlerB.mono ?_
  rintro ⟨_, s₂⟩ ⟨rfl, hf₂, hesi₂, hecx₂, heax₂, hedi₂⟩
  dsimp only at *
  refine ⟨rfl, hf₁.trans hf₂, hesi₂.trans hesi₁, hecx₂.trans hecx₁, ?_⟩
  rw [heax₂, hedi₂, heax₁, hedi₁]
  rfl

/-- The whole loop over a non-empty string, started with any sums that stand in the Adler-32
relation to some others. -/
theorem leadsTo_adlerDone {data : List UInt8} : ∀ {s : Cpu} {q : ℕ × ℕ}, data ≠ [] →
    s.ecx.toNat = data.length → (∀ i b, data[i]? = some b → s.mem (s.esi + .ofNat 32 i).toNat = b) →
    AdlerRel (s.eax.toNat, s.edi.toNat) q →
    LeadsTo (step fst k) (adlerLoop, s) fun x => x.1 = adlerDone ∧ AdlerFrame s x.2 ∧
      x.2.eax.toNat = ((data.foldl asmStep (s.eax.toNat, s.edi.toNat)).2 * 65536
        + (data.foldl asmStep (s.eax.toNat, s.edi.toNat)).1) % 2 ^ 32 := by
  induction data with
  | nil => intro s q h; exact absurd rfl h
  | cons b data ih =>
    intro s q _ hecx hmem hrel
    obtain ⟨h1, h2, h3, h4⟩ := hrel
    have hb : s.mem s.esi.toNat = b := by simpa using hmem 0 b (by simp)
    have ha : s.eax.toNat < 65521 := by dsimp only at h1; omega
    have hd : s.edi.toNat < 65521 + 254 := by dsimp only at h4; omega
    refine (leadsTo_adler_pass hb ha hd).trans ?_
    rintro ⟨_, s₁⟩ ⟨rfl, hf, hesi, hecx₁, hsums⟩
    dsimp only at hf hesi hecx₁ hsums
    have hrel₁ := (AdlerRel.step ⟨h1, h2, h3, h4⟩ b).1
    rw [← hsums] at hrel₁
    rw [List.foldl_cons, ← hsums]
    refine leadsTo_block rfl ?_
    cases data with
    | nil =>
      -- the last byte: fall through to the combination of the two sums
      have hzero : s₁.ecx - 1#32 = 0#32 := by
        apply BitVec.eq_of_toNat_eq
        rw [toNat_sub_ofNat (by rw [hecx₁, hecx]; simp), hecx₁, hecx]
        rfl
      simp only [runBlock, incl, decl, jne, shll, orl, Cpu.read, Cpu.write, Cpu.get, Cpu.set]
      rw [if_neg (by simp [hzero])]
      refine .now ⟨rfl, ⟨hf.mem, hf.ebx, hf.ebp, hf.esp⟩, ?_⟩
      have hlow : s₁.eax.toNat < 2 ^ 16 := by
        have h := hrel₁.fst_eq
        have := hrel₁.fst_lt
        dsimp only at h
        omega
      rw [List.foldl_nil, BitVec.toNat_or, BitVec.toNat_shiftLeft, Nat.or_comm,
        Nat.shiftLeft_eq, Nat.mul_comm]
      rw [show 2 ^ 16 * s₁.edi.toNat % 2 ^ 32 = 2 ^ 16 * (s₁.edi.toNat % 2 ^ 16) by omega,
        ← Nat.two_pow_add_eq_or_of_lt hlow]
      omega
    | cons c data =>
      have hlen : s₁.ecx.toNat = data.length + 2 := by rw [hecx₁, hecx]; rfl
      have hsub : (s₁.ecx - 1#32).toNat = data.length + 1 := by
        rw [toNat_sub_ofNat (by omega), hlen]
        rfl
      have hne : s₁.ecx - 1#32 ≠ 0#32 := by
        intro h
        rw [h] at hsub
        simp at hsub
      simp only [runBlock, incl, decl, jne, Cpu.read, Cpu.write, Cpu.get, Cpu.set]
      rw [if_pos (by simpa using hne)]
      refine (ih (s := { s₁ with
          ecx := s₁.ecx - 1#32, esi := s₁.esi + 1#32, zf := s₁.ecx - 1#32 == 0#32 })
        (List.cons_ne_nil c data) hsub (fun i x hx => ?_) hrel₁).mono ?_
      · have := hmem (i + 1) x (by simpa using hx)
        rw [← this, ← hf.mem, ← hesi, BitVec.ofNat_add, BitVec.add_comm (.ofNat 32 i),
          BitVec.add_assoc]
      · rintro ⟨_, s₂⟩ ⟨rfl, hf₂, heax⟩
        exact ⟨rfl, hf.trans ⟨hf₂.mem, hf₂.ebx, hf₂.ebp, hf₂.esp⟩, heax⟩

/-- **The routine.** Called on a string in memory, `qizo_adler` returns `asmValue` in `eax` to the
label on top of the stack, and changes no memory. -/
theorem leadsTo_qizoAdler {s : Cpu} {data : List UInt8} {l : Label}
    (hecx : s.ecx.toNat = data.length)
    (hmem : ∀ i b, data[i]? = some b → s.mem (s.esi + .ofNat 32 i).toNat = b)
    (hret : ld32 s.mem s.esp = k.addr l) :
    LeadsTo (step fst k) (qizoAdler, s) fun x => x.1 = l ∧ x.2.mem = s.mem ∧ x.2.ebx = s.ebx ∧
      x.2.ebp = s.ebp ∧ x.2.esp = s.esp + 4#32 ∧ x.2.eax.toNat = asmValue data := by
  have hdone : ∀ s₁ : Cpu, AdlerFrame s s₁ → s₁.eax.toNat = asmValue data →
      LeadsTo (step fst k) (adlerDone, s₁) fun x => x.1 = l ∧ x.2.mem = s.mem ∧ x.2.ebx = s.ebx ∧
        x.2.ebp = s.ebp ∧ x.2.esp = s.esp + 4#32 ∧ x.2.eax.toNat = asmValue data := by
    intro s₁ hf heax
    refine leadsTo_block rfl (.now ?_)
    simp only [runBlock, hf.mem, hf.esp, hret, k.label_addr]
    exact ⟨trivial, trivial, hf.ebx, hf.ebp, trivial, heax⟩
  refine leadsTo_block rfl ?_
  simp only [runBlock, movl, xorl, testl, je, Cpu.read, Cpu.write, Cpu.get, Cpu.set,
    BitVec.xor_self, BitVec.and_self]
  by_cases hd : data = []
  · subst hd
    have hzero : s.ecx = 0#32 := BitVec.eq_of_toNat_eq hecx
    rw [if_pos (by simp [hzero])]
    exact hdone _ ⟨rfl, rfl, rfl, rfl⟩ rfl
  · have hne : s.ecx ≠ 0#32 := by
      intro h
      rw [h] at hecx
      exact hd (List.length_eq_zero_iff.mp hecx.symm)
    rw [if_neg (by simpa using hne)]
    refine (leadsTo_adlerDone (s := { s with
      eax := .ofNat 32 1, edi := 0#32, zf := s.ecx == 0#32, cf := false })
      (q := (1, 0)) hd hecx hmem adlerRel_init).trans ?_
    rintro ⟨_, s₁⟩ ⟨rfl, hf, heax⟩
    refine hdone s₁ ⟨hf.mem, hf.ebx, hf.ebp, hf.esp⟩ ?_
    rw [asmValue, if_neg hd]
    exact heax

/-- **`qizo_adler` against Adler-32.** Run over any string in memory the routine returns, and its
result is the checksum the image builder stores exactly on the strings that are `AdlerExact`. -/
theorem qizoAdler_eq_checksum_iff {s : Cpu} {data : List UInt8} {l : Label}
    (hecx : s.ecx.toNat = data.length)
    (hmem : ∀ i b, data[i]? = some b → s.mem (s.esi + .ofNat 32 i).toNat = b)
    (hret : ld32 s.mem s.esp = k.addr l) :
    ∃ s', Reaches (step fst k) (qizoAdler, s) (l, s') ∧ s'.esp = s.esp + 4#32 ∧ s'.mem = s.mem ∧
      (s'.eax.toNat = checksum data ↔ AdlerExact data) := by
  obtain ⟨⟨_, s'⟩, hr, rfl, hm, -, -, hesp, heax⟩ := leadsTo_qizoAdler hecx hmem hret
  exact ⟨s', hr, hesp, hm, by rw [heax, asmValue_eq_checksum_iff]⟩

/-! ### A string with a final excess -/

theorem callWith_mem {data : List UInt8} (h : data.length < 2 ^ 31) (ret : BitVec 32) (i : ℕ)
    (b : UInt8) (hb : data[i]? = some b) :
    (callWith data ret).mem ((callWith data ret).esi + .ofNat 32 i).toNat = b := by
  have hi : i < data.length := (List.getElem?_eq_some_iff.mp hb).1
  have haddr : ((callWith data ret).esi + .ofNat 32 i).toNat = 0x1000 + i :=
    toNat_add_ofNat (a := 0x1000) (by simp; omega)
  rw [haddr]
  exact callWith_holds data ret i b hb

/-- The routine on a string whose last byte leaves no excess. -/
theorem qizoAdler_eq_checksum_iff_short :
    ∃ s', Reaches (step 0x20000 consecutiveLink)
        (qizoAdler, callWith [81, 73, 90] (consecutiveLink.addr adlerBack)) (adlerBack, s') ∧
      s'.esp = 0x104 ∧ s'.mem = (callWith [81, 73, 90] (consecutiveLink.addr adlerBack)).mem ∧
      (s'.eax.toNat = checksum [81, 73, 90] ↔ AdlerExact [81, 73, 90]) :=
  qizoAdler_eq_checksum_iff (by decide) (callWith_mem (by decide) _) (callWith_ret _ _)

/-- Four bytes 125 and 255 bytes 255: the last of them takes the second sum to `2 * 65521`. -/
def excessData : List UInt8 := List.replicate 4 125 ++ List.replicate 255 255

/-- **A string the routine gets wrong.** Over `excessData` it does not return Adler-32, which is
`5`. -/
theorem qizoAdler_ne_checksum_excessData :
    checksum excessData = 5 ∧
    ¬ ∀ (fst : ℕ) (k : Link Label) (s : Cpu) (l : Label), s.ecx.toNat = excessData.length →
      (∀ i b, excessData[i]? = some b → s.mem (s.esi + .ofNat 32 i).toNat = b) →
      ld32 s.mem s.esp = k.addr l →
      LeadsTo (step fst k) (qizoAdler, s) fun x =>
        x.1 = l ∧ x.2.eax.toNat = checksum excessData := by
  refine ⟨by decide +kernel, fun h => ?_⟩
  have hnot : ¬ AdlerExact excessData := by decide +kernel
  -- a return label where the run stops makes the state at the return unique
  have hecx : (callWith excessData (consecutiveLink.addr entered)).ecx.toNat
      = excessData.length := by decide +kernel
  have hmem := @callWith_mem excessData (by decide +kernel) (consecutiveLink.addr entered)
  have hret := callWith_ret excessData (consecutiveLink.addr entered)
  obtain ⟨⟨_, s₁⟩, hr₁, rfl, heax₁⟩ := h 0x20000 consecutiveLink _ entered hecx hmem hret
  obtain ⟨⟨_, s₂⟩, hr₂, rfl, -, -, -, -, heax₂⟩ :=
    leadsTo_qizoAdler (k := consecutiveLink) hecx hmem hret
  have hs : s₁ = s₂ := congrArg Prod.snd (hr₁.halted_unique hr₂ rfl rfl)
  rw [hs] at heax₁
  exact hnot ((asmValue_eq_checksum_iff excessData).mp (heax₂.symm.trans heax₁))

end Stage2

end Qizo
