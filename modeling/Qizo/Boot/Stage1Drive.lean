import Qizo.Boot.Stage1

/-!
# Choosing the drive

From the entry of the boot sector to its first read. The trace comes first, and it loads `dx`: the
drive number the firmware has left in `dl` is gone before it is looked at, and the number of the
serial port stands in for it.

## Main results

* `leadsTo_driveGot` — walking the candidates
* `leadsTo_readChunk` — up to the first read
-/

namespace Qizo

namespace Stage1

open Real Operand Label StateTransition ByteString Memory

variable {fw : Firmware} {cand msg : ℕ} {k : Link Label} {s s' : Cpu} {l : Label} {p : ℕ}

/-! ### The trace -/

/-- A part of the trace is done. -/
abbrev Traced (p : ℕ) (s s' : Cpu) : Prop := Balanced 0x7900 p s s'

theorem leadsTo_qizoTty (h : Called k l p s) :
    LeadsTo (step fw cand msg k) (qizoTty, s) fun x => x.1 = l ∧ Traced (p + 2) s x.2 := by
  have hsp : s.esp.setWidth 16 = .ofNat 16 p := h.sp
  refine leadsTo_block rfl ?_
  simp only [runBlock, mov, outb, X86.outb, Cpu.read, Cpu.write, Cpu.setReg, X86.Cpu.get,
    X86.Cpu.set, X86.Cpu.read8, Cpu.sp]
  refine .now ⟨h.label_eq, rfl, rfl, rfl, rfl, ?_, fun _ _ => rfl⟩
  simp only [Cpu.sp, setWidth_withLow_16, hsp, ofNat_add_two]

theorem leadsTo_ttyOut (h : Called k l p s) (hp : 0x7902 ≤ p) (ht : Traced p s s') :
    LeadsTo (step fw cand msg k) (ttyOut, s') fun x => x.1 = l ∧ Traced (p + 2) s x.2 := by
  obtain ⟨p, rfl⟩ := Nat.exists_eq_add_of_le' (Nat.le_trans (by decide : 2 ≤ 0x7902) hp)
  have hlt := h.lt
  refine leadsTo_block rfl ?_
  simp only [runBlock]
  refine LeadsTo.trans (leadsTo_call (ht.ss.trans h.ss) ht.sp (by omega) (by omega)
    leadsTo_qizoTty) ?_
  rintro ⟨_, s₁⟩ ⟨rfl, h₁⟩
  exact leadsTo_ret rfl rfl h (ht.balanced h₁ le_rfl)

theorem leadsTo_qizoTtyNibble (h : Called k l p s) (hp : 0x7902 ≤ p) :
    LeadsTo (step fw cand msg k) (qizoTtyNibble, s) fun x => x.1 = l ∧ Traced (p + 2) s x.2 := by
  refine leadsTo_block rfl ?_
  simp only [runBlock, Real.cmp, Real.add, jbe, Cpu.read, Cpu.write, Cpu.setReg, Cpu.flags,
    X86.Cpu.get, X86.Cpu.set]
  refine LeadsTo.ite (fun _ => ?_) fun _ => ?_
  · refine leadsTo_block rfl ?_
    simp only [runBlock, Real.add, Cpu.read, Cpu.write, Cpu.setReg, Cpu.flags, X86.Cpu.get,
      X86.Cpu.set]
    exact leadsTo_ttyOut h hp ⟨rfl, rfl, rfl, rfl, h.sp, fun _ _ => rfl⟩
  · exact leadsTo_ttyOut h hp ⟨rfl, rfl, rfl, rfl, h.sp, fun _ _ => rfl⟩

theorem leadsTo_qizoTtyByte (h : Called k l p s) (hp : 0x7904 ≤ p) :
    LeadsTo (step fw cand msg k) (qizoTtyByte, s) fun x => x.1 = l ∧ Traced (p + 2) s x.2 := by
  obtain ⟨p, rfl⟩ := Nat.exists_eq_add_of_le' (Nat.le_trans (by decide : 2 ≤ 0x7904) hp)
  have hlt := h.lt
  refine leadsTo_block rfl ?_
  simp only [runBlock, mov, shr, Cpu.read, Cpu.write, Cpu.setReg, Cpu.flags, X86.Cpu.get,
    X86.Cpu.set]
  refine LeadsTo.trans (leadsTo_call h.ss h.sp (by omega) (by omega) fun hc =>
    leadsTo_qizoTtyNibble hc (by omega)) ?_
  rintro ⟨_, s₁⟩ ⟨rfl, h₁⟩
  have ht₁ : Traced (p + 2) s s₁ := ⟨h₁.ds, h₁.ss, h₁.edi, h₁.calls, h₁.sp, h₁.mem⟩
  refine leadsTo_block rfl ?_
  simp only [runBlock, mov, Real.and, Cpu.read, Cpu.write, Cpu.setReg, Cpu.flags, X86.Cpu.get,
    X86.Cpu.set]
  refine LeadsTo.trans (leadsTo_call (ht₁.ss.trans h.ss) ht₁.sp (by omega) (by omega) fun hc =>
    leadsTo_qizoTtyNibble hc (by omega)) ?_
  rintro ⟨_, s₂⟩ ⟨rfl, h₂⟩
  exact leadsTo_ret rfl rfl h (ht₁.balanced ⟨h₂.ds, h₂.ss, h₂.edi, h₂.calls, h₂.sp, h₂.mem⟩ le_rfl)

/-! ### What stays -/

variable {lba total : ℕ}

/-- `qizo_cand`. -/
def candidates : List UInt8 := [0x80, 0xE8, 0xF0, 0xF8]

/-- What the loader reads of its own sector: the arguments and the candidates, which lie in the
code in front of them. -/
structure SectorMem (cand lba total : ℕ) (m : Memory) : Prop where
  lba_eq : m.load 4 (argAddr + argLba) = lba
  total_eq : m.load 2 (argAddr + argTotal) = total
  cand_at : m.Holds cand candidates
  cand_ge : 0x7C00 ≤ cand
  cand_le : cand + 4 ≤ argAddr

/-- The addresses of the code with its tables, and of the two arguments that are read. -/
def Fixed (x : ℕ) : Prop :=
  0x7C00 ≤ x ∧ x < argAddr ∨ argAddr + argLba ≤ x ∧ x < argAddr + argTotal + 2

instance : DecidablePred Fixed := fun x => inferInstanceAs (Decidable
  (0x7C00 ≤ x ∧ x < argAddr ∨ argAddr + argLba ≤ x ∧ x < argAddr + argTotal + 2))

theorem SectorMem.of_eqOutside {R : List (ℕ × ℕ)} {m m' : Memory} (h : SectorMem cand lba total m)
    (hframe : EqOutside m m' R) (hR : ∀ x, Fixed x → Outside R x) :
    SectorMem cand lba total m' := by
  have hge := h.cand_ge
  have hle := h.cand_le
  refine ⟨?_, ?_, h.cand_at.of_eqOutside hframe fun x hx hx' => hR x (.inl ⟨by omega, ?_⟩), hge,
    hle⟩
  · rw [hframe.load_eq fun x hx hx' => hR x (.inr ⟨hx, ?_⟩), h.lba_eq]
    exact Nat.lt_of_lt_of_le hx' (by decide)
  · rw [hframe.load_eq fun x hx hx' => hR x (.inr ⟨?_, ?_⟩), h.total_eq]
    · exact Nat.le_trans (by decide) hx
    · exact Nat.lt_of_lt_of_le hx' (by decide)
  · exact Nat.lt_of_lt_of_le hx' hle

theorem SectorMem.store {m : Memory} {w a v : ℕ} (h : SectorMem cand lba total m)
    (ha : ∀ x, Fixed x → x < a ∨ a + w ≤ x) : SectorMem cand lba total (m.store w a v) :=
  h.of_eqOutside (eqOutside_store m w a v) fun x hx => by simpa using ha x hx

/-- The state between the parts of the loader. -/
structure Env (cand lba total : ℕ) (s : Cpu) : Prop where
  ds : s.ds = 0#16
  ss : s.ss = 0#16
  sp : s.sp = .ofNat 16 0x7A00
  sector : SectorMem cand lba total s.mem
  dap : s.mem.load 2 dapAddr = 0x10

/-! ### The entry -/

/-- The trace at the start. -/
theorem leadsTo_com1Back :
    LeadsTo (step fw cand msg k) (start, s) fun x => x.1 = com1Back ∧
      x.2.mem = st s.ss 2 (s.sp - 2#16) (k.addr com1Back).toNat s.mem ∧ x.2.edi = s.edi ∧
      x.2.calls = s.calls := by
  refine leadsTo_block rfl ?_
  simp only [runBlock]
  refine leadsTo_block rfl ?_
  simp only [outPort, List.cons_append, List.nil_append, runBlock, mov, outb, X86.outb, Cpu.push,
    Cpu.read, Cpu.write, Cpu.setReg, Cpu.setMem, X86.Cpu.get, X86.Cpu.set, Cpu.sp,
    setWidth_withLow_16, ld_st_two, k.label_addr]
  exact .now ⟨rfl, rfl, rfl, rfl⟩

/-- At the top of the loop over the drives, with `j` drives tried and `d` the next one. -/
structure Probing (cand lba total : ℕ) (boot d : BitVec 8) (j : ℕ) (s : Cpu) : Prop extends
    Env cand lba total s where
  dl : s.edx.setWidth 8 = d
  drive : s.mem.load 1 (argAddr + argDrive) = d.toNat
  bootdrive : s.mem.load 1 (argAddr + argBootdrive) = boot.toNat
  tries : s.mem.load 1 (argAddr + argTry) = j
  si : s.esi.setWidth 16 = .ofNat 16 (cand + j)

/-- The serial port, not the drive of the firmware. -/
def portDrive : BitVec 8 := 0xF8

/-- **Up to the first drive.** Whatever the firmware has left in `dl`, it is the low byte of the
port number the trace was written to. -/
theorem leadsTo_driveTry_of_com1Back (h : SectorMem cand lba total s.mem) :
    LeadsTo (step fw cand msg k) (com1Back, s) fun x => x.1 = driveTry ∧
      Probing cand lba total portDrive portDrive 0 x.2 ∧ x.2.edi = withLow 16 s.edi 0#16 ∧
      x.2.calls = s.calls := by
  have hport : (1016#16).setWidth 8 = 0xF8#8 := rfl
  refine leadsTo_block rfl ?_
  simp only [trace, List.cons_append, List.nil_append, runBlock, mov, Real.xor, Real.cmp, jae,
    movDs, movEs, movSs, outb, X86.outb, Cpu.read, Cpu.write, Cpu.setReg, Cpu.setMem, Cpu.flags,
    X86.Cpu.get, X86.Cpu.set, X86.Cpu.read8, setWidth_withLow_16, setWidth_8_withLow_16,
    BitVec.xor_self, hport]
  rw [if_pos (by decide)]
  refine leadsTo_block rfl ?_
  simp only [runBlock, mov, Real.xor, Cpu.read, Cpu.write, Cpu.setReg, Cpu.setMem, Cpu.flags,
    X86.Cpu.get, X86.Cpu.set, BitVec.xor_self]
  rw [st_zero (by decide) (by decide), st_zero (by decide) (by decide),
    st_zero (by decide) (by decide), st_zero (by decide) (by decide),
    st_zero (by decide) (by decide), st_zero (by decide) (by decide)]
  refine .now ⟨rfl, ⟨⟨rfl, rfl, setWidth_withLow_16 _ _, ?_, ?_⟩, setWidth_8_withLow_16 _ _, ?_, ?_,
    load_store_self (by decide), setWidth_withLow_16 _ _⟩, rfl, rfl⟩
  · refine (((((h.store ?_).store ?_).store ?_).store ?_).store ?_).store ?_
    all_goals
      intro x hx
      simp only [Fixed, argAddr, argDrive, argBootdrive, argErr, argTotal, argTry, argLba,
        dapAddr] at hx ⊢
      omega
  · dsimp only
    rw [load_store_of_disjoint (.inr (by decide)), load_two, load_store_self (by decide),
      load_store_of_disjoint (.inl (by decide)), load_store_self (by decide)]
    rfl
  · dsimp only
    rw [load_store_of_disjoint (.inl (by decide)), load_store_of_disjoint (.inl (by decide)),
      load_store_of_disjoint (.inl (by decide)), load_store_of_disjoint (.inl (by decide)),
      load_store_of_disjoint (.inl (by decide)), load_store_self (by decide)]
    rfl
  · dsimp only
    rw [load_store_of_disjoint (.inl (by decide)), load_store_of_disjoint (.inl (by decide)),
      load_store_of_disjoint (.inl (by decide)), load_store_of_disjoint (.inl (by decide)),
      load_store_self (by decide)]
    rfl

/-! ### Asking a drive -/

/-- An answer to function `0x41`: the carry flag, `ah`, and the interface bits in `cx`. -/
structure Answer where
  carry : Bool
  ah : BitVec 8
  cx : BitVec 16

/-- The drive supports packets. -/
def Answer.good (a : Answer) : Bool := !a.carry && a.ah == 0x30#8 && a.cx.getLsbD 1

/-- The firmware is asked whether the drive in `dl` supports packets. -/
def Asks (s : Cpu) : Prop := s.read 8 ah = 0x41#8 ∧ s.read 16 bx = 0x55AA#16

/-- What function `0x41` does, for the answer `a`. -/
structure Answered (a : Answer) (s s' : Cpu) : Prop where
  carry : s'.cf = a.carry
  ah : s'.read 8 ah = a.ah
  cx : s'.read 16 cx = a.cx
  dl : s'.read 8 dx = s.read 8 dx
  si : s'.read 16 si = s.read 16 si
  mem : s'.mem = s.mem
  ds : s'.ds = s.ds
  ss : s'.ss = s.ss
  sp : s'.sp = s.sp

/-- Firmware whose answers depend on the drive. -/
def Answers (fw : Firmware) (answer : BitVec 8 → Answer) : Prop :=
  ∀ s, Asks s → Answered (answer (s.read 8 dx)) s (fw 0x13 s)

/-- Firmware that leaves `edi` alone when asked. -/
def KeepsEdi (fw : Firmware) : Prop := ∀ s, Asks s → (fw 0x13 s).edi = s.edi

/-- Is it a call of function `0x42`? -/
def isRead (c : Call) : Bool := c.vector == 0x13 && c.before.eax.toNat / 256 % 256 == 0x42

/-- The reads so far. -/
def reads (s : Cpu) : List Call := s.calls.filter isRead

/-- What a question changes at most: nothing that the loader keeps. -/
structure Asked (fw : Firmware) (s s' : Cpu) : Prop where
  dl : s'.edx.setWidth 8 = s.edx.setWidth 8
  si : s'.esi.setWidth 16 = s.esi.setWidth 16
  mem : s'.mem = s.mem
  ds : s'.ds = s.ds
  ss : s'.ss = s.ss
  sp : s'.sp = s.sp
  edi : KeepsEdi fw → s'.edi = s.edi
  reads : reads s' = reads s

theorem Asked.flags (h : Asked fw s s') (zf cf : Bool) : Asked fw s (s'.flags zf cf) :=
  ⟨h.dl, h.si, h.mem, h.ds, h.ss, h.sp, h.edi, h.reads⟩

theorem Env.of_asked (h : Env cand lba total s) (ha : Asked fw s s') : Env cand lba total s' :=
  ⟨ha.ds.trans h.ds, ha.ss.trans h.ss, ha.sp.trans h.sp, ha.mem ▸ h.sector, ha.mem ▸ h.dap⟩

variable {answer : BitVec 8 → Answer}

/-- A question is asked. -/
theorem answered_int (hfw : Answers fw answer) (hasks : Asks s) :
    Answered (answer (s.read 8 dx)) s (int fw 0x13 s) ∧ Asked fw s (int fw 0x13 s) := by
  have h := hfw s hasks
  have hno : isRead ⟨0x13, s.ds, s.toCpu, (fw 0x13 s).toCpu⟩ = false := by
    have hah : s.eax.toNat / 256 % 256 = 0x41 := by
      have := congrArg BitVec.toNat hasks.1
      simp only [Cpu.read, X86.Cpu.get, BitVec.toNat_ofNat] at this
      omega
    simp [isRead, hah]
  refine ⟨⟨h.carry, h.ah, h.cx, h.dl, h.si, h.mem, h.ds, h.ss, h.sp⟩, h.dl, h.si, h.mem, h.ds, h.ss,
    h.sp, fun hedi => hedi s hasks, ?_⟩
  simp only [reads, int, List.filter_append, List.filter_singleton, hno, cond_false,
    List.append_nil]

/-- The registers of a question. -/
theorem asks_of_eq (heax : s.eax = withHigh s'.eax (0x41#8).toNat)
    (hebx : s.ebx = withLow 16 s'.ebx (.ofNat 16 0x55AA)) : Asks s := by
  constructor
  · simp only [Cpu.read, X86.Cpu.get, heax, toNat_withHigh_div]
    rfl
  · simp only [Cpu.read, X86.Cpu.get, hebx, setWidth_withLow_16]

/-- `testb $2, %cl`. -/
theorem test_two (c : BitVec 16) : (c.setWidth 8 &&& BitVec.ofNat 8 2 == 0) = !c.getLsbD 1 := by
  have htwo : BitVec.ofNat 8 2 = BitVec.twoPow 8 1 := by decide
  rw [htwo, BitVec.and_twoPow, BitVec.getLsbD_setWidth]
  cases c.getLsbD 1 with
  | true => rfl
  | false => rfl

/-- **One question.** -/
theorem leadsTo_driveTry (hfw : Answers fw answer) :
    LeadsTo (step fw cand msg k) (driveTry, s) fun x =>
      x.1 = (if (answer (s.edx.setWidth 8)).good then driveGot else driveNext) ∧
      Asked fw s x.2 := by
  refine leadsTo_block rfl ?_
  simp only [runBlock, mov, jae, Cpu.read, Cpu.write, Cpu.setReg, X86.Cpu.get, X86.Cpu.set]
  obtain ⟨hans, hasked⟩ := answered_int hfw (asks_of_eq (s := { s with
    eax := withHigh s.eax (0x41#8).toNat, ebx := withLow 16 s.ebx (.ofNat 16 0x55AA) }) rfl rfl)
  simp only [Cpu.read, X86.Cpu.get] at hans
  generalize hs₁ : int fw 0x13 _ = s₁ at hans hasked ⊢
  have hasked₁ : Asked fw s s₁ := ⟨hasked.dl, hasked.si, hasked.mem, hasked.ds, hasked.ss,
    hasked.sp, hasked.edi, hasked.reads⟩
  rw [hans.carry]
  cases hcarry : (answer (s.edx.setWidth 8)).carry with
  | true =>
    rw [if_neg (by decide), if_neg (by simp [Answer.good, hcarry])]
    exact .now ⟨rfl, hasked₁⟩
  | false =>
    rw [if_pos (by decide)]
    refine leadsTo_block rfl ?_
    have hah := hans.ah
    have hcl : s₁.ecx.setWidth 8 = (answer (s.edx.setWidth 8)).cx.setWidth 8 := by
      rw [← hans.cx]
      exact (BitVec.setWidth_setWidth_of_le _ (by decide)).symm
    simp only [Cpu.read, X86.Cpu.get] at hah
    simp only [runBlock, Real.cmp, Real.test, jne, Cpu.read, Cpu.flags, X86.Cpu.get, hah, hcl,
      test_two]
    by_cases h30 : (answer (s.edx.setWidth 8)).ah = 0x30#8
    · rw [if_neg (by simp [h30])]
      cases hbit : (answer (s.edx.setWidth 8)).cx.getLsbD 1 with
      | true =>
        rw [if_pos (by rfl), if_pos (by simp [Answer.good, hcarry, h30, hbit])]
        exact .now ⟨rfl, hasked₁.flags _ _⟩
      | false =>
        rw [if_neg (by decide), if_neg (by simp only [Answer.good, hbit, Bool.and_false]; decide)]
        exact .now ⟨rfl, hasked₁.flags _ _⟩
    · rw [if_pos (by simp [h30]), if_neg (by simp [Answer.good, h30])]
      exact .now ⟨rfl, hasked₁.flags _ _⟩

/-! ### The candidates -/

variable {boot d : BitVec 8} {j : ℕ}

theorem Probing.of_asked (h : Probing cand lba total boot d j s) (ha : Asked fw s s') :
    Probing cand lba total boot d j s' where
  toEnv := h.toEnv.of_asked ha
  dl := ha.dl.trans h.dl
  drive := by rw [ha.mem, h.drive]
  bootdrive := by rw [ha.mem, h.bootdrive]
  tries := by rw [ha.mem, h.tries]
  si := ha.si.trans h.si

/-- The candidates that are tried: the count stops the loop before the last one. -/
def tried : List (BitVec 8) := [0x80#8, 0xE8#8, 0xF0#8]

/-- A candidate in memory is a candidate. -/
theorem exists_tried (hj : j < 3) :
    ∃ b, candidates[j]? = some b ∧ tried[j]? = some (BitVec.ofNat 8 b.toNat) := by
  have hall :
      ∀ j < 3, (candidates[j]?).map (fun b => BitVec.ofNat 8 b.toNat) = tried[j]? := by decide
  have hlen : j < candidates.length := Nat.lt_trans hj (by decide)
  have hb : candidates[j]? = some candidates[j] := List.getElem?_eq_getElem hlen
  refine ⟨_, hb, ?_⟩
  rw [← hall j hj, hb]
  rfl

/-- A drive that does not do: the next candidate, or none. -/
theorem leadsTo_driveNext (h : Probing cand lba total boot d j s) (hj : j ≤ 3) :
    LeadsTo (step fw cand msg k) (driveNext, s) fun x =>
      x.2.edi = s.edi ∧ reads x.2 = reads s ∧
        match tried[j]? with
        | some c => x.1 = driveTry ∧ Probing cand lba total boot c (j + 1) x.2
        | none => x.1 = driveNone ∧ Env cand lba total x.2 ∧
            x.2.mem.load 1 (argAddr + argBootdrive) = boot.toNat := by
  have hge := h.sector.cand_ge
  have hle : cand + 4 ≤ 0x7DD0 := h.sector.cand_le
  have hds := h.ds
  have htry : ld s.mem 0#16 (8 / 8) (.ofNat 16 (argAddr + argTry)) = j := by
    rw [ld_zero (by decide) (by decide)]
    exact h.tries
  have hsucc : (BitVec.ofNat 8 j + 1).toNat = j + 1 := by
    rw [BitVec.toNat_add, BitVec.toNat_ofNat]
    change (j % 256 + 1) % 256 = j + 1
    omega
  have hst (m : Memory) (v : ℕ) : st 0#16 (8 / 8) (.ofNat 16 (argAddr + argTry)) v m =
      m.store 1 (argAddr + argTry) v := st_zero (by decide) (by decide)
  have htry' : ld (s.mem.store 1 (argAddr + argTry) (j + 1)) 0#16 (8 / 8)
      (.ofNat 16 (argAddr + argTry)) = j + 1 := by
    rw [ld_zero (by decide) (by decide)]
    exact load_store_self (by omega)
  have hlt : (BitVec.ofNat 8 (j + 1)).toNat = j + 1 := by
    rw [BitVec.toNat_ofNat]
    omega
  have hsector : SectorMem cand lba total (s.mem.store 1 (argAddr + argTry) (j + 1)) := by
    refine h.sector.store fun x hx => ?_
    simp only [Fixed, argAddr, argTry, argLba, argTotal] at hx ⊢
    omega
  refine leadsTo_block rfl ?_
  simp only [runBlock, inc, Real.cmp, jae, lodsb, mov, Cpu.read, Cpu.write, Cpu.setReg, Cpu.setMem,
    Cpu.flags, X86.Cpu.get, X86.Cpu.set, hds, h.si, htry, hsucc, hst, htry', hlt]
  have hdap : (s.mem.store 1 (argAddr + argTry) (j + 1)).load 2 dapAddr = 0x10 := by
    rw [load_store_of_disjoint (.inr (by decide)), h.dap]
  have hboot : (s.mem.store 1 (argAddr + argTry) (j + 1)).load 1 (argAddr + argBootdrive) =
      boot.toNat := by
    rw [load_store_of_disjoint (.inl (by decide)), h.bootdrive]
  by_cases hj3 : j = 3
  · subst hj3
    rw [if_pos (by decide)]
    exact .now ⟨rfl, rfl, rfl, ⟨rfl, h.ss, h.sp, hsector, hdap⟩, hboot⟩
  · obtain ⟨b, hb, hc⟩ := exists_tried (by omega : j < 3)
    have hbyte : BitVec.ofNat 8 (ld (s.mem.store 1 (argAddr + argTry) (j + 1)) 0#16 (8 / 8)
        (.ofNat 16 (cand + j))) = BitVec.ofNat 8 b.toNat := by
      have hload : ld (s.mem.store 1 (argAddr + argTry) (j + 1)) 0#16 1 (.ofNat 16 (cand + j)) =
          b.toNat := by
        rw [ld_zero (by omega) (by omega), load_one, hsector.cand_at j b hb]
      exact congrArg _ hload
    have hdrive (m : Memory) (v : ℕ) : st 0#16 (8 / 8) (.ofNat 16 (argAddr + argDrive)) v m =
        m.store 1 (argAddr + argDrive) v := st_zero (by decide) (by decide)
    have hnext : BitVec.ofNat 16 (cand + j) + 1#16 = .ofNat 16 (cand + (j + 1)) :=
      (BitVec.ofNat_add _ _).symm
    rw [if_neg (by simpa using (by omega : j < 3)), hc]
    simp only [hbyte, setWidth_withLow_8, hdrive, hnext]
    refine .now ⟨rfl, rfl, rfl, ⟨rfl, h.ss, h.sp, hsector.store fun x hx => ?_, ?_⟩,
      setWidth_withLow_8 _ _, load_store_self (BitVec.isLt _), ?_, ?_, setWidth_withLow_16 _ _⟩
    · simp only [Fixed, argAddr, argDrive, argLba, argTotal] at hx ⊢
      omega
    · rw [load_store_of_disjoint (.inr (by decide)), hdap]
    · rw [load_store_of_disjoint (.inr (by decide)), hboot]
    · rw [load_store_of_disjoint (.inr (by decide)), load_store_self (by omega)]

/-- The drive is settled, and in the arguments. -/
structure Settled (cand lba total : ℕ) (d : BitVec 8) (s : Cpu) : Prop extends
    Env cand lba total s where
  drive : s.mem.load 1 (argAddr + argDrive) = d.toNat

theorem Probing.settled (h : Probing cand lba total boot d j s) : Settled cand lba total d s :=
  ⟨h.toEnv, h.drive⟩

/-- No drive does. -/
theorem leadsTo_driveNone (h : Env cand lba total s)
    (hboot : s.mem.load 1 (argAddr + argBootdrive) = boot.toNat) :
    LeadsTo (step fw cand msg k) (driveNone, s) fun x => x.1 = driveGot ∧
      Settled cand lba total boot x.2 ∧ x.2.edi = s.edi ∧ reads x.2 = reads s := by
  have hds := h.ds
  have hload : ld s.mem 0#16 (8 / 8) (.ofNat 16 (argAddr + argBootdrive)) = boot.toNat := by
    rw [ld_zero (by decide) (by decide)]
    exact hboot
  refine leadsTo_block rfl ?_
  simp only [runBlock, mov, Cpu.read, Cpu.write, Cpu.setReg, Cpu.setMem, X86.Cpu.get, X86.Cpu.set,
    hds, hload, setWidth_withLow_8, BitVec.ofNat_toNat, BitVec.setWidth_eq]
  rw [st_zero (by decide) (by decide)]
  refine .now ⟨rfl, ⟨⟨rfl, h.ss, h.sp, h.sector.store fun x hx => ?_, ?_⟩,
    load_store_self (BitVec.isLt _)⟩, rfl, rfl⟩
  · simp only [Fixed, argAddr, argDrive, argLba, argTotal] at hx ⊢
    omega
  · exact (load_store_of_disjoint (.inr (by decide))).trans h.dap

/-- The first of `d` and `cs` that does, and `boot` if there is none. -/
def probe (good : BitVec 8 → Bool) (boot : BitVec 8) (d : BitVec 8) : List (BitVec 8) → BitVec 8
  | [] => if good d then d else boot
  | c :: cs => if good d then d else probe good boot c cs

/-- **Walking the candidates.** -/
theorem leadsTo_driveGot {cs : List (BitVec 8)} (hfw : Answers fw answer)
    (h : Probing cand lba total boot d j s) (hj : j ≤ 3) (hcs : tried.drop j = cs) :
    LeadsTo (step fw cand msg k) (driveTry, s) fun x => x.1 = driveGot ∧
      Settled cand lba total (probe (fun d => (answer d).good) boot d cs) x.2 ∧
      (KeepsEdi fw → x.2.edi = s.edi) ∧ reads x.2 = reads s := by
  induction cs generalizing j d s with
  | nil =>
    have hnone : tried[j]? = none := by
      rw [List.drop_eq_nil_iff] at hcs
      exact List.getElem?_eq_none hcs
    refine LeadsTo.trans (leadsTo_driveTry hfw) ?_
    rintro ⟨l, s₁⟩ ⟨hl, hasked⟩
    dsimp only at hl hasked
    rw [h.dl] at hl
    have h₁ := h.of_asked hasked
    rw [probe]
    split at hl
    · next hgood =>
      subst hl
      rw [if_pos hgood]
      exact .now ⟨rfl, h₁.settled, hasked.edi, hasked.reads⟩
    · next hbad =>
      subst hl
      rw [if_neg hbad]
      refine LeadsTo.trans (leadsTo_driveNext h₁ hj) ?_
      rintro ⟨l, s₂⟩ ⟨hedi₂, hreads₂, hnext⟩
      rw [hnone] at hnext
      obtain ⟨rfl, henv, hboot⟩ := hnext
      refine (leadsTo_driveNone henv hboot).mono ?_
      rintro ⟨_, s₃⟩ ⟨rfl, hsettled, hedi₃, hreads₃⟩
      exact ⟨rfl, hsettled, fun hk => hedi₃.trans (hedi₂.trans (hasked.edi hk)),
        hreads₃.trans (hreads₂.trans hasked.reads)⟩
  | cons c cs ih =>
    have hlt : j < tried.length := by
      by_contra hge
      rw [List.drop_eq_nil_of_le (Nat.not_lt.mp hge)] at hcs
      cases hcs
    have hsome : tried[j]? = some c := by
      have := List.drop_eq_getElem_cons hlt
      rw [this] at hcs
      rw [List.getElem?_eq_getElem hlt, (List.cons.inj hcs).1]
    have hrest : tried.drop (j + 1) = cs := by
      have := List.drop_eq_getElem_cons hlt
      rw [this] at hcs
      exact (List.cons.inj hcs).2
    refine LeadsTo.trans (leadsTo_driveTry hfw) ?_
    rintro ⟨l, s₁⟩ ⟨hl, hasked⟩
    dsimp only at hl hasked
    rw [h.dl] at hl
    have h₁ := h.of_asked hasked
    rw [probe]
    split at hl
    · next hgood =>
      subst hl
      rw [if_pos hgood]
      exact .now ⟨rfl, h₁.settled, hasked.edi, hasked.reads⟩
    · next hbad =>
      subst hl
      rw [if_neg hbad]
      refine LeadsTo.trans (leadsTo_driveNext h₁ hj) ?_
      rintro ⟨l, s₂⟩ ⟨hedi₂, hreads₂, hnext⟩
      rw [hsome] at hnext
      obtain ⟨rfl, h₂⟩ := hnext
      refine (ih h₂ hlt hrest).mono ?_
      rintro ⟨_, s₃⟩ ⟨rfl, hsettled, hedi₃, hreads₃⟩
      exact ⟨rfl, hsettled, fun hk => (hedi₃ hk).trans (hedi₂.trans (hasked.edi hk)),
        hreads₃.trans (hreads₂.trans hasked.reads)⟩

/-! ### Up to the first read -/

/-- Changes of the stack do not matter. -/
theorem SectorMem.of_stack {m m' : Memory} (h : SectorMem cand lba total m)
    (hmem : ∀ x, x < 0x7900 ∨ 0x7A00 ≤ x → m' x = m x) : SectorMem cand lba total m' := by
  refine h.of_eqOutside (R := [(0x7900, 0x100)]) (fun x hx => hmem x ?_) fun x hx => ?_
  · simp only [outside_cons, outside_nil, and_true] at hx
    omega
  · simp only [Fixed, outside_cons, outside_nil, and_true, argAddr, argLba, argTotal] at hx ⊢
    omega

/-- The drive is settled, and the packet is pointed to. -/
structure Reading (cand lba total : ℕ) (d : BitVec 8) (s : Cpu) : Prop extends
    Settled cand lba total d s where
  si : s.esi.setWidth 16 = .ofNat 16 dapAddr

/-- Only the stack has changed, and its pointer is `p`. -/
abbrev Pushed (p : ℕ) (s s' : Cpu) : Prop := Stacked 0x7900 0x7A00 p s s'

/-- A byte is written to the trace. -/
theorem leadsTo_traceByte {r n : Label} {o : Operand}
    (hcode : code fw cand msg r = some ⟨[.op (mov 8 o ax), .call qizoTtyByte], n⟩)
    (h : Pushed p s s') (hss : s.ss = 0#16) (hlow : 0x7906 ≤ p) (hp : p ≤ 0x7A00) :
    LeadsTo (step fw cand msg k) (r, s') fun x => x.1 = n ∧ Pushed p s x.2 := by
  obtain ⟨p, rfl⟩ := Nat.exists_eq_add_of_le' (Nat.le_trans (by decide : 2 ≤ 0x7906) hlow)
  have h' : Pushed (p + 2) s (mov 8 o ax s') := ⟨h.ds, h.ss, h.edi, h.calls, h.sp, h.mem⟩
  refine leadsTo_block hcode ?_
  simp only [runBlock]
  refine (leadsTo_call (h'.ss.trans hss) h'.sp (by omega) (by omega) fun hc =>
    leadsTo_qizoTtyByte hc (by omega)).mono ?_
  rintro ⟨_, s₁⟩ ⟨rfl, ht⟩
  exact ⟨rfl, h'.balanced ht hp⟩

/-- The trace of the drive. -/
theorem leadsTo_readChunk_of_driveGot (hfw : Answers fw answer) (h : Settled cand lba total d s) :
    LeadsTo (step fw cand msg k) (driveGot, s) fun x => x.1 = readChunk ∧
      Reading cand lba total d x.2 ∧ (KeepsEdi fw → x.2.edi = s.edi) ∧ reads x.2 = reads s := by
  refine leadsTo_block rfl ?_
  simp only [runBlock, mov, pushw, Cpu.read, Cpu.write, Cpu.setReg, X86.Cpu.get, X86.Cpu.set]
  obtain ⟨-, hasked⟩ := answered_int hfw (asks_of_eq (s := { s with
    eax := withHigh s.eax (0x41#8).toNat, ebx := withLow 16 s.ebx (.ofNat 16 0x55AA),
    edx := withLow 8 s.edx (.ofNat 8 (ld s.mem s.ds (8 / 8) (.ofNat 16 (argAddr + argDrive)))) })
    rfl rfl)
  generalize hs₁ : int fw 0x13 _ = s₁ at hasked ⊢
  have hss : s₁.ss = 0#16 := hasked.ss.trans h.ss
  have hstack : Pushed (0x79FE + 2) s₁ s₁ :=
    ⟨rfl, rfl, rfl, rfl, hasked.sp.trans h.sp, fun _ _ => rfl⟩
  have hpushed := (hstack.push (v := BitVec.setWidth 16 s₁.eax) hss (by decide) (by decide)
    (by decide)).push (p := 0x79FC) (v := BitVec.setWidth 16 s₁.ecx) hss (by decide) (by decide)
    (by decide)
  refine LeadsTo.trans (leadsTo_call (p := 0x79FA) (hpushed.ss.trans hss) hpushed.sp (by decide)
    (by decide) leadsTo_qizoTty) ?_
  rintro ⟨_, s₂⟩ ⟨rfl, ht₂⟩
  have h₂ : Pushed 0x79FC s₁ s₂ := ⟨ht₂.ds.trans hpushed.ds, ht₂.ss.trans hpushed.ss,
    ht₂.edi.trans hpushed.edi, ht₂.calls.trans hpushed.calls, ht₂.sp,
    fun x hx => (ht₂.mem x (by omega)).trans (hpushed.mem x hx)⟩
  refine LeadsTo.trans (leadsTo_traceByte rfl h₂ hss (by decide) (by decide)) ?_
  rintro ⟨_, s₃⟩ ⟨rfl, h₃⟩
  refine LeadsTo.trans (leadsTo_traceByte rfl h₃ hss (by decide) (by decide)) ?_
  rintro ⟨_, s₄⟩ ⟨rfl, h₄⟩
  refine LeadsTo.trans (leadsTo_traceByte rfl h₄ hss (by decide) (by decide)) ?_
  rintro ⟨_, s₅⟩ ⟨rfl, h₅⟩
  have hsp₅ : s₅.esp.setWidth 16 = .ofNat 16 0x79FC := h₅.sp
  refine leadsTo_block rfl ?_
  simp only [runBlock, mov, popw, Cpu.read, Cpu.write, Cpu.setReg, X86.Cpu.get, X86.Cpu.set, Cpu.sp,
    setWidth_withLow_16, hsp₅]
  have hmem (x : ℕ) (hx : x < 0x7900 ∨ 0x7A00 ≤ x) : s₅.mem x = s.mem x :=
    (h₅.mem x hx).trans (congrFun hasked.mem x)
  have hload {w a : ℕ} (ha : 0x7A00 ≤ a) : s₅.mem.load w a = s.mem.load w a :=
    load_congr fun i _ => hmem (a + i) (.inr (by omega))
  refine .now ⟨rfl, ⟨⟨⟨?_, ?_, ?_, h.sector.of_stack hmem, ?_⟩, ?_⟩, setWidth_withLow_16 _ _⟩,
    fun hk => h₅.edi.trans (hasked.edi hk), ?_⟩
  · exact h₅.ds.trans (hasked.ds.trans h.ds)
  · exact h₅.ss.trans hss
  · simp only [Cpu.sp, setWidth_withLow_16]
    rfl
  · exact (hload (by decide)).trans h.dap
  · exact (hload (by decide)).trans h.drive
  · rw [reads, h₅.calls]
    exact hasked.reads

/-- **Up to the first read**, from the entry of the sector. -/
theorem leadsTo_readChunk (hfw : Answers fw answer) (h : SectorMem cand lba total
    (st s.ss 2 (s.sp - 2#16) (k.addr com1Back).toNat s.mem)) :
    LeadsTo (step fw cand msg k) (start, s) fun x => x.1 = readChunk ∧
      Reading cand lba total (probe (fun d => (answer d).good) portDrive portDrive tried) x.2 ∧
      (KeepsEdi fw → x.2.edi = withLow 16 s.edi 0#16) ∧ reads x.2 = reads s := by
  refine LeadsTo.trans leadsTo_com1Back ?_
  rintro ⟨_, s₁⟩ ⟨rfl, hmem₁, hedi₁, hcalls₁⟩
  dsimp only at hmem₁ hedi₁ hcalls₁
  refine LeadsTo.trans (leadsTo_driveTry_of_com1Back (hmem₁ ▸ h)) ?_
  rintro ⟨_, s₂⟩ ⟨rfl, hprobing, hedi₂, hcalls₂⟩
  dsimp only at hprobing hedi₂ hcalls₂
  refine LeadsTo.trans (leadsTo_driveGot hfw hprobing (by decide) rfl) ?_
  rintro ⟨_, s₃⟩ ⟨rfl, hsettled, hedi₃, hreads₃⟩
  dsimp only at hsettled hedi₃ hreads₃
  refine (leadsTo_readChunk_of_driveGot hfw hsettled).mono ?_
  rintro ⟨_, s₄⟩ ⟨rfl, hreading, hedi₄, hreads₄⟩
  refine ⟨rfl, hreading, fun hk => ?_, ?_⟩
  · rw [hedi₄ hk, hedi₃ hk, hedi₂, hedi₁]
  · rw [hreads₄, hreads₃, reads, hcalls₂, hcalls₁, reads]

end Stage1

end Qizo
