import Qizo.Boot.Handoff

/-!
# What the checks on the header are worth

Seven comparisons of `qizo_pm32` stand between the decoder and the copy of the kernel. They bound
every number of the header by a constant or by another number of it, and so keep the copy and the
bss away from everything the boot still needs. None of them looks at how much the decoder has
produced: a header that promises more than was decoded passes, and the copy goes on into what was
at the scratch area before.

## Main results

* `header_of_step` — a run that gets to the copy has passed every check
* `copySafe_iff` — what that leaves to the header
-/

namespace Qizo

namespace Stage2

open X86 Reg Operand Label StateTransition ByteString Memory

variable {fst : ℕ} {k : Link Label} {s c : Cpu} {payload : List UInt8}

/-! ### Passing the checks -/

/-- The state in which `qizo_decompress` has left `payload`. -/
structure Decoded (payload : List UInt8) (s : Cpu) : Prop where
  scratch_eq : s.mem.load 4 (bootinfo + biScratch) = scratch
  ktext_eq : s.mem.load 4 (bootinfo + biKtext) = ktext
  esp : s.esp = .ofNat 32 pmStack
  payload_at : s.mem.Holds scratch payload

/-- `ja` not taken. -/
theorem le_of_not_above {x y : BitVec 32}
    (h : ¬(!(decide (x.toNat < y.toNat) || x == y)) = true) : x.toNat ≤ y.toNat := by
  rw [Bool.not_eq_true', Bool.not_eq_false, Bool.or_eq_true] at h
  rcases h with hlt | heq
  · exact Nat.le_of_lt (of_decide_eq_true hlt)
  · exact Nat.le_of_eq (congrArg BitVec.toNat (eq_of_beq heq))

/-- **The checks, read backwards.** A step from the decoder to the copy has gone past every
comparison. -/
theorem header_of_step (hscratch : s.mem.load 4 (bootinfo + biScratch) = scratch)
    (hstep : step fst k (decompBack, s) = some (qizoCopy, c)) :
    HeaderWords s.mem (s.mem.load 4 (scratch + 4)) (s.mem.load 4 (scratch + 8))
      (s.mem.load 4 (scratch + 12)) ktext ∧
    HeaderBounds (s.mem.load 4 (scratch + 4)) (s.mem.load 4 (scratch + 8))
      (s.mem.load 4 (scratch + 12)) ∧ s.eax ≠ 0#32 := by
  have hnum {a : ℕ} (ha : a + 4 ≤ 2 ^ 32) : (ld32 s.mem (.ofNat 32 a)).toNat = s.mem.load 4 a := by
    rw [ld32_ofNat ha, toNat_ofNat_of_lt (load_lt _ 4 a)]
  simp only [step, X86.step, code, Option.map_some, Option.some.injEq, runBlock, movl, cmpl, testl,
    subl, addl, je, jne, ja, jb, jae, Cpu.read, Cpu.write, Cpu.get, Cpu.set, BitVec.and_self,
    ld32_ofNat (m := s.mem) (i := bootinfo + biScratch) (by decide), hscratch, ofNat_add_ofNat,
    Nat.add_zero] at hstep
  split at hstep
  · cases hstep
  next heax =>
  split at hstep
  · cases hstep
  next hmagic =>
  split at hstep
  · cases hstep
  next hklen =>
  split at hstep
  · cases hstep
  next htotal =>
  split at hstep
  · cases hstep
  next hle =>
  split at hstep
  · cases hstep
  next hbase =>
  split at hstep
  · cases hstep
  next hentry =>
  have heq {a v : ℕ} (ha : a + 4 ≤ 2 ^ 32) (hv : v < 2 ^ 32)
      (h : ¬(!ld32 s.mem (BitVec.ofNat 32 a) == BitVec.ofNat 32 v) = true) :
      s.mem.load 4 a = v := by
    rw [Bool.not_eq_true', Bool.not_eq_false, beq_iff_eq] at h
    rw [← hnum ha, h, toNat_ofNat_of_lt hv]
  have hklen' := le_of_not_above hklen
  have htotal' := le_of_not_above htotal
  rw [hnum (by decide)] at hklen' htotal'
  rw [hnum (by decide), hnum (by decide), decide_eq_true_eq, Nat.not_lt] at hle
  rw [hnum (by decide), hnum (by decide), Bool.not_eq_true', Bool.not_eq_false,
    decide_eq_true_eq] at hentry
  refine ⟨⟨heq (by decide) (by decide) hmagic, rfl, rfl, rfl, heq (by decide) (by decide) hbase⟩,
    ⟨hklen', htotal', hle, hentry⟩, fun h => heax (by rw [h]; rfl)⟩

/-! ### Safety of the copy -/

/-- What the boot still needs when the kernel is copied: the source, bootinfo, the code of stage2,
the E820 buffer with the stack above it, the page tables and the fault table. -/
def neededRegions (klen : ℕ) : List (ℕ × ℕ) :=
  [(scratch, qizokHdr + klen), (bootinfo, biSize), (stage2, stage2Bytes),
    (e820Buf, pmStack - e820Buf), (pagePml4, 0x6000), (idtBoot, 512)]

/-- The copy that is about to start is safe: it takes every byte from `payload`, kernel and bss
stay clear of what is needed, the size of the bss does not underflow, and the entry point lies
inside the bytes copied. -/
structure CopySafe (payload : List UInt8) (c : Cpu) : Prop where
  source : ∀ i < c.ecx.toNat, payload[qizokHdr + i]? = some (c.mem (c.esi.toNat + i))
  target : c.edi.toNat = ktext ∧ c.mem.load 4 (bootinfo + biKernelSize) = c.ecx.toNat
  apart : ∀ x, ktext ≤ x → x < ktext + c.mem.load 4 (bootinfo + biKernelTotal) →
    Outside (neededRegions c.ecx.toNat) x
  bss : c.mem.load 4 (bootinfo + biKernelBss) + c.mem.load 4 (bootinfo + biKernelSize) =
    c.mem.load 4 (bootinfo + biKernelTotal)
  entry : c.mem.load 4 (bootinfo + biKernelEntry) < c.ecx.toNat

/-- **What the checks leave to the header.** When they all pass, the copy is safe exactly if the
decoder has produced as much as the header says. -/
theorem copySafe_iff (h : Decoded payload s)
    (hstep : step fst k (decompBack, s) = some (qizoCopy, c)) :
    CopySafe payload c ↔ qizokHdr + s.mem.load 4 (scratch + 4) ≤ payload.length := by
  obtain ⟨hw, hb, heax⟩ := header_of_step h.scratch_eq hstep
  obtain ⟨c', hstep', -, hsizes, hframe, hesi, hedi, hecx⟩ :=
    step_decompBack (k := k) h.scratch_eq h.ktext_eq hw hb heax h.esp
  obtain rfl : c' = c := congrArg Prod.snd (Option.some.inj (hstep'.symm.trans hstep))
  have hklen : s.mem.load 4 (scratch + 4) ≤ 0x80000 := hb.klen_le
  have htotal : s.mem.load 4 (scratch + 12) ≤ 0x80000 := hb.total_le
  have hentry := hb.entry_lt
  have hle := hb.klen_le_total
  have hecx' : c'.ecx.toNat = s.mem.load 4 (scratch + 4) := by
    rw [hecx, toNat_ofNat_of_lt (by omega)]
  have hesi' : c'.esi.toNat = scratch + qizokHdr := by rw [hesi]; decide
  have hpayload : c'.mem.Holds scratch payload := by
    refine h.payload_at.of_eqOutside hframe fun x hx _ => ?_
    simp only [outside_cons, outside_nil, and_true, scratch, bootinfo, biKernelSize,
      pmStack] at hx ⊢
    omega
  constructor
  · intro hsafe
    have hlast := hsafe.source (c'.ecx.toNat - 1) (by omega)
    have := (List.getElem?_eq_some_iff.mp hlast).1
    omega
  · intro hlen
    refine ⟨fun i hi => ?_, ⟨?_, ?_⟩, fun x hx hx' => ?_, ?_, ?_⟩
    · have hlt : qizokHdr + i < payload.length := by omega
      have := hpayload (qizokHdr + i) _ (List.getElem?_eq_getElem hlt)
      rw [List.getElem?_eq_getElem hlt, hesi', Nat.add_assoc, this]
    · rw [hedi]
      decide
    · rw [hsizes.size_eq, hecx']
    · rw [hsizes.total_eq] at hx'
      have hend : x < ktext + 0x80000 := by omega
      simp only [neededRegions, outside_cons, outside_nil, and_true, ktext, scratch, bootinfo,
        biSize, stage2, stage2Bytes, e820Buf, pmStack, pagePml4, idtBoot] at hx hend ⊢
      omega
    · rw [hsizes.bss_eq, hsizes.size_eq, hsizes.total_eq]
      omega
    · rw [hsizes.entry_eq, hecx']
      exact hentry

/-! ### A header that promises too much -/

/-- A module header for a kernel of one byte, and nothing behind it. -/
def bareHeader : List UInt8 :=
  leBytes 4 qizokMagic ++ leBytes 4 1 ++ leBytes 4 0 ++ leBytes 4 1 ++ leBytes 4 ktext ++
    leBytes 4 sector ++ List.replicate 40 0

/-- The state after a decoder that has left `payload`, in zeroed memory. -/
def decodedCpu (payload : List UInt8) : Cpu :=
  { callWith [] 0 with
    eax := 1
    esp := .ofNat 32 pmStack
    mem := Memory.write (Memory.store (Memory.store (fun _ => 0) 4 (bootinfo + biScratch) scratch) 4
      (bootinfo + biKtext) ktext) scratch payload }

theorem decoded_decodedCpu (payload : List UInt8) : Decoded payload (decodedCpu payload) := by
  have hframe (m : Memory) {off : ℕ} (hoff : off + 4 ≤ biSize) :
      (m.write scratch payload).load 4 (bootinfo + off) = m.load 4 (bootinfo + off) := by
    refine (eqOutside_write m scratch payload).load_eq fun x _ hx => ?_
    simp only [outside_cons, outside_nil, and_true, bootinfo, biSize, scratch] at hoff hx ⊢
    omega
  refine ⟨?_, ?_, rfl, holds_write _ _ _⟩
  · exact (hframe _ (by decide)).trans ((load_store_of_disjoint (.inl (by decide))).trans
      (load_store_self (by decide)))
  · exact (hframe _ (by decide)).trans (load_store_self (by decide))

/-- The bare header passes every check. -/
theorem exists_step_bareHeader :
    ∃ c, step 0x20000 consecutiveLink (decompBack, decodedCpu bareHeader) = some (qizoCopy, c) := by
  have h := decoded_decodedCpu bareHeader
  have hword {off v : ℕ} (hat : leNat (slice bareHeader off (off + 4)) = v) (hoff : off + 4 ≤ 64) :
      (decodedCpu bareHeader).mem.load 4 (scratch + off) = v :=
    (load_of_holds_slice h.payload_at hoff).trans hat
  obtain ⟨c, hstep, -⟩ := @step_decompBack _ consecutiveLink _ 1 0 1 h.scratch_eq
    h.ktext_eq ⟨@hword 0 _ (by decide) (by decide), hword (by decide) (by decide),
      hword (by decide) (by decide), hword (by decide) (by decide), hword (by decide) (by decide)⟩
    ⟨by decide, by decide, by decide, by decide⟩ (by decide) h.esp
  exact ⟨c, hstep⟩

/-- The condition on the bare header. -/
theorem copySafe_iff_bareHeader :
    ∃ c, step 0x20000 consecutiveLink (decompBack, decodedCpu bareHeader) = some (qizoCopy, c) ∧
      (CopySafe bareHeader c ↔
        qizokHdr + (decodedCpu bareHeader).mem.load 4 (scratch + 4) ≤ bareHeader.length) := by
  obtain ⟨c, hstep⟩ := exists_step_bareHeader
  exact ⟨c, hstep, copySafe_iff (decoded_decodedCpu bareHeader) hstep⟩

/-- **A copy of stale memory**: the bare header makes stage2 copy one byte that was not decoded. -/
theorem not_copySafe_bareHeader :
    ¬ ∀ (payload : List UInt8) (s c : Cpu) (fst : ℕ) (k : Link Label), Decoded payload s →
      step fst k (decompBack, s) = some (qizoCopy, c) → CopySafe payload c := by
  intro h
  obtain ⟨c, hstep⟩ := exists_step_bareHeader
  have hd := decoded_decodedCpu bareHeader
  have hsafe := h bareHeader _ c _ _ hd hstep
  have hentry := hsafe.entry
  have hsource := hsafe.source 0 (by omega)
  have := (List.getElem?_eq_some_iff.mp hsource).1
  exact absurd this (by decide)

end Stage2

end Qizo
