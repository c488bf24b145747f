import Qizo.Lib.RealMode

/-!
# Real mode behind an address gate

On a machine whose gate for address line 20 is closed, every physical address has that bit cleared.
An instruction then works on what the gate lets through: it sees each byte of the lower half of
every two MiB twice, and what it writes to the upper copy goes to the lower one. The gate moves when
a byte is written to its port, in a way that a theorem quantifies over.

The gate is no part of the state: it is where the writes to its port have moved it.

## Below one MiB

Segments up to `0xF000` do not reach address line 20. As long as the three segment registers are
that low, the gate makes no difference, and a run of the plain machine is one of the machine with
the gate (`leadsTo_gated`). `Plain` says of an instruction that it leaves the segment registers
alone and that the gate makes no difference to it.
-/

namespace Real

open StateTransition

/-! ### The gate -/

/-- The physical address behind the gate. -/
def masked (isOpen : Bool) (a : ℕ) : ℕ := if isOpen then a else a - a / 2 ^ 20 % 2 * 2 ^ 20

/-- What the gate lets through. -/
def view (isOpen : Bool) (m : Memory) : Memory := fun a => m (masked isOpen a)

/-- The memory `m` after an instruction that has turned what the gate lets through into `m'`. Behind
a closed gate the upper copy of a byte is the byte itself, and the memory it hides stays as it
is. -/
def settle (isOpen : Bool) (m m' : Memory) : Memory := fun a =>
  if isOpen then m' a
  else if a / 2 ^ 20 % 2 = 1 then m a
  else if m' (a + 2 ^ 20) ≠ m a then m' (a + 2 ^ 20) else m' a

/-- The port of the gate. -/
def gatePort : ℕ := 0x92

/-- The gate, after writes to ports. `fx` gives its position after a byte is written to its port. -/
def gateAfter (fx : Bool → UInt8 → Bool) (isOpen : Bool) (outs : List (ℕ × UInt8)) : Bool :=
  outs.foldl (fun g o => if o.1 = gatePort then fx g o.2 else g) isOpen

/-- The machine as an instruction sees it. -/
def Cpu.behind (isOpen : Bool) (s : Cpu) : Cpu := s.setMem (view isOpen s.mem)

/-- Put back into `s` what an instruction has done behind the gate. -/
def Cpu.back (isOpen : Bool) (s s' : Cpu) : Cpu := s'.setMem (settle isOpen s.mem s'.mem)

/-- An instruction behind the gate. -/
def exec (isOpen : Bool) (f : Cpu → Cpu) (s : Cpu) : Cpu := s.back isOpen (f (s.behind isOpen))

/-- What a gate stands for: its position at the start, and what a write to its port does. -/
structure Gate where
  /-- The position at the start. -/
  first : Bool
  /-- The effect of a write. -/
  fx : Bool → UInt8 → Bool

/-- The position of the gate in a state. -/
def Gate.isOpen (G : Gate) (s : Cpu) : Bool := gateAfter G.fx G.first s.outs

variable {L : Type}

/-- Run the rest of a block behind the gate. -/
def Gate.runBlock (G : Gate) (k : Link L) (next : L) : List (Instr L) → Cpu → L × Cpu
  | [], s => (next, s)
  | .op f :: is, s => G.runBlock k next is (exec (G.isOpen s) f s)
  | .jcc c l :: is, s => if c s then (l, s) else G.runBlock k next is s
  | .jmp l :: _, s => (l, s)
  | .call l :: _, s => (l, exec (G.isOpen s) (·.push (k.addr next)) s)
  | .ret :: _, s =>
    (k.label (.ofNat 16 (ld (view (G.isOpen s) s.mem) s.ss 2 s.sp)),
      s.setReg .esp (withLow 16 s.esp (s.sp + 2#16)))

/-- One block of a program behind the gate. -/
def Gate.step (G : Gate) (k : Link L) (code : L → Option (Block L)) (x : L × Cpu) :
    Option (L × Cpu) :=
  (code x.1).map fun b => G.runBlock k b.next b.body x.2

theorem Gate.leadsTo_block {G : Gate} {k : Link L} {code : L → Option (Block L)} {l : L} {s : Cpu}
    {b : Block L} {Q : L × Cpu → Prop} (h : code l = some b)
    (hb : LeadsTo (G.step k code) (G.runBlock k b.next b.body s) Q) :
    LeadsTo (G.step k code) (l, s) Q :=
  .head (by simp [Gate.step, h]) hb

/-! ### Addresses below one MiB -/

section Low

variable {g : Bool} {m m' m₀ : Memory} {seg off : BitVec 16} {w v a : ℕ}

theorem masked_of_lt (h : a < 2 ^ 20) : masked g a = a := by
  rw [masked]
  split <;> omega

theorem lin_lt (hseg : seg.toNat ≤ 0xF000) (off : BitVec 16) : lin seg off < 2 ^ 20 := by
  have := off.isLt
  rw [lin]
  omega

/-- What changes below one MiB only is changed behind the gate as well. -/
theorem settle_eq (hhigh : ∀ a, 2 ^ 20 ≤ a → m' a = view g m₀ a ∧ m a = m₀ a)
    (hlow : ∀ a < 2 ^ 20, m' a = m a) : settle g m₀ m' = m := by
  funext a
  rw [settle]
  cases g with
  | true =>
    rw [if_pos rfl]
    by_cases ha : a < 2 ^ 20
    · exact hlow a ha
    · obtain ⟨h, h₀⟩ := hhigh a (Nat.not_lt.mp ha)
      rw [h, h₀, view, masked, if_pos rfl]
  | false =>
    rw [if_neg Bool.false_ne_true]
    split
    · exact (hhigh a (by omega)).2.symm
    · -- the upper copy is the byte as it was
      have hcopy : m' (a + 2 ^ 20) = m₀ a := by
        rw [(hhigh (a + 2 ^ 20) (by omega)).1, view, masked, if_neg Bool.false_ne_true]
        congr 1
        omega
      rw [if_neg (not_not_intro hcopy)]
      by_cases ha : a < 2 ^ 20
      · exact hlow a ha
      · obtain ⟨h, h₀⟩ := hhigh a (Nat.not_lt.mp ha)
        rw [h, h₀, view, masked, if_neg Bool.false_ne_true]
        congr 1
        omega

theorem settle_view (g : Bool) (m : Memory) : settle g m (view g m) = m :=
  settle_eq (fun _ _ => ⟨rfl, rfl⟩) fun _ ha => by rw [view, masked_of_lt ha]

theorem ld_view (hseg : seg.toNat ≤ 0xF000) : ld (view g m) seg w off = ld m seg w off := by
  induction w generalizing off with
  | zero => rfl
  | succ w ih => rw [ld, ld, ih, view, masked_of_lt (lin_lt hseg off)]

theorem st_high (hseg : seg.toNat ≤ 0xF000) (ha : 2 ^ 20 ≤ a) : st seg w off v m a = m a := by
  induction w generalizing off v m with
  | zero => rfl
  | succ w ih =>
    have := lin_lt hseg off
    rw [st, ih, Function.update_of_ne (by omega)]

theorem st_low (h : ∀ a < 2 ^ 20, m' a = m a) (ha : a < 2 ^ 20) :
    st seg w off v m' a = st seg w off v m a := by
  induction w generalizing off v m m' with
  | zero => exact h a ha
  | succ w ih =>
    refine ih fun b hb => ?_
    by_cases hbl : b = lin seg off
    · rw [hbl, Function.update_self, Function.update_self]
    · rw [Function.update_of_ne hbl, Function.update_of_ne hbl, h b hb]

/-- **A store below one MiB** behind the gate. -/
theorem settle_st (hseg : seg.toNat ≤ 0xF000) :
    settle g m (st seg w off v (view g m)) = st seg w off v m :=
  settle_eq (fun _ ha => ⟨st_high hseg ha, st_high hseg ha⟩) fun _ ha =>
    st_low (fun _ hb => by rw [view, masked_of_lt hb]) ha

/-- The three segment registers do not reach address line 20. -/
structure Low (s : Cpu) : Prop where
  ds : s.ds.toNat ≤ 0xF000
  es : s.es.toNat ≤ 0xF000
  ss : s.ss.toNat ≤ 0xF000

variable {s : Cpu} {n : ℕ}

theorem get_behind (g : Bool) (s : Cpu) (r : X86.Reg) : (s.behind g).get r = s.get r := by
  cases r <;> rfl

theorem Low.read (h : Low s) (o : Operand) : (s.behind g).read n o = s.read n o := by
  cases o with
  | imm v => rfl
  | reg r => rw [Cpu.read, get_behind, Cpu.read]
  | high r => rw [Cpu.read, get_behind, Cpu.read]
  | abs a => exact congrArg (BitVec.ofNat n) (ld_view h.ds)
  | absEs a => exact congrArg (BitVec.ofNat n) (ld_view h.es)
  | ind r =>
    rw [Cpu.read, get_behind, Cpu.read]
    exact congrArg (BitVec.ofNat n) (ld_view h.ds)

theorem back_setMem (g : Bool) (s : Cpu) (m : Memory) :
    s.back g ((s.behind g).setMem m) = s.setMem (settle g s.mem m) := rfl

theorem back_setReg (g : Bool) (s : Cpu) (r : X86.Reg) (v : BitVec 32) :
    s.back g ((s.behind g).setReg r v) = s.setReg r v := by
  have hmem : ((s.behind g).setReg r v).mem = view g s.mem := by cases r <;> rfl
  rw [Cpu.back, hmem, settle_view]
  cases r <;> rfl

theorem Low.write (h : Low s) (o : Operand) (v : BitVec n) :
    s.back g ((s.behind g).write n o v) = s.write n o v := by
  cases o with
  | imm _ => exact congrArg s.setMem (settle_view g s.mem)
  | reg r => rw [Cpu.write, get_behind, back_setReg, Cpu.write]
  | high r => rw [Cpu.write, get_behind, back_setReg, Cpu.write]
  | abs a =>
    rw [Cpu.write, back_setMem, Cpu.write]
    exact congrArg s.setMem (settle_st h.ds)
  | absEs a =>
    rw [Cpu.write, back_setMem, Cpu.write]
    exact congrArg s.setMem (settle_st h.es)
  | ind r =>
    rw [Cpu.write, back_setMem, get_behind, Cpu.write]
    exact congrArg s.setMem (settle_st h.ds)

theorem back_flags (g : Bool) (s s' : Cpu) (zf cf : Bool) :
    s.back g (s'.flags zf cf) = (s.back g s').flags zf cf := rfl

end Low

/-! ### Instructions that the gate makes no difference to -/

/-- The instruction leaves the segment registers alone, and below one MiB the gate makes no
difference to it. -/
structure Plain (f : Cpu → Cpu) : Prop where
  ds : ∀ s, (f s).ds = s.ds
  es : ∀ s, (f s).es = s.es
  ss : ∀ s, (f s).ss = s.ss
  exec : ∀ g s, Low s → exec g f s = f s

section Plain

variable {f : Cpu → Cpu} {n : ℕ} {s : Cpu}

theorem Plain.low (h : Plain f) (hs : Low s) : Low (f s) :=
  ⟨by rw [h.ds]; exact hs.ds, by rw [h.es]; exact hs.es, by rw [h.ss]; exact hs.ss⟩

/-- A value computed from what an instruction sees. -/
def Seen {α : Type} (v : Cpu → α) : Prop := ∀ g s, Low s → v (s.behind g) = v s

theorem seen_read (n : ℕ) (o : Operand) : Seen fun s => s.read n o := fun _ _ h => h.read o

theorem segs_write (s : Cpu) (o : Operand) (v : BitVec n) :
    (s.write n o v).ds = s.ds ∧ (s.write n o v).es = s.es ∧ (s.write n o v).ss = s.ss := by
  cases o <;> exact ⟨rfl, rfl, rfl⟩

/-- **Writing an operand** with a value computed from others. -/
theorem plain_write {v : Cpu → BitVec n} (o : Operand) (hv : Seen v) :
    Plain fun s => s.write n o (v s) where
  ds s := (segs_write s o (v s)).1
  es s := (segs_write s o (v s)).2.1
  ss s := (segs_write s o (v s)).2.2
  exec g s h := by
    rw [Real.exec, hv g s h, h.write]

/-- Writing an operand and the flags. -/
theorem plain_write_flags {v : Cpu → BitVec n} {zf cf : Cpu → Bool} (o : Operand) (hv : Seen v)
    (hzf : Seen zf) (hcf : Seen cf) : Plain fun s => (s.write n o (v s)).flags (zf s) (cf s) where
  ds s := (segs_write s o (v s)).1
  es s := (segs_write s o (v s)).2.1
  ss s := (segs_write s o (v s)).2.2
  exec g s h := by
    rw [Real.exec, hv g s h, hzf g s h, hcf g s h, back_flags, h.write]

theorem plain_mov (n : ℕ) (src dst : Operand) : Plain (mov n src dst) :=
  plain_write dst (seen_read n src)

theorem plain_movzwl (src dst : Operand) : Plain (movzwl src dst) :=
  plain_write dst fun _ _ h => congrArg (BitVec.setWidth 32) (h.read src)

theorem plain_not (n : ℕ) (dst : Operand) : Plain (not n dst) :=
  plain_write dst fun _ _ h => congrArg (~~~·) (h.read dst)

theorem plain_cmp (n : ℕ) (src dst : Operand) : Plain (cmp n src dst) where
  ds _ := rfl
  es _ := rfl
  ss _ := rfl
  exec g s h := by
    rw [Real.exec, cmp, h.read, h.read, back_flags, cmp]
    exact congrArg (fun s : Cpu => s.flags _ _) (congrArg s.setMem (settle_view g s.mem))

/-- Two operands that are seen. -/
theorem seen_op {α : Type} (f : BitVec n → BitVec n → α) (a b : Operand) :
    Seen fun s => f (s.read n a) (s.read n b) := fun _ _ h => by
  dsimp only
  rw [h.read, h.read]

theorem plain_sub (n : ℕ) (src dst : Operand) : Plain (sub n src dst) :=
  plain_write_flags dst (seen_op (fun a b => a - b) dst src)
    (seen_op (fun a b => a - b == 0) dst src)
    (seen_op (fun a b => decide (a.toNat < b.toNat)) dst src)

theorem plain_and (n : ℕ) (src dst : Operand) : Plain (and n src dst) :=
  plain_write_flags dst (seen_op (fun a b => a &&& b) dst src)
    (seen_op (fun a b => a &&& b == 0) dst src) fun _ _ _ => rfl

theorem plain_or (n : ℕ) (src dst : Operand) : Plain (or n src dst) :=
  plain_write_flags dst (seen_op (fun a b => a ||| b) dst src)
    (seen_op (fun a b => a ||| b == 0) dst src) fun _ _ _ => rfl

theorem plain_shl (n k : ℕ) (dst : Operand) : Plain (shl n k dst) :=
  plain_write_flags dst (seen_op (fun a _ => a <<< k) dst dst)
    (seen_op (fun a _ => a <<< k == 0) dst dst) (seen_op (fun a _ => a.getLsbD (n - k)) dst dst)

theorem plain_dec (n : ℕ) (dst : Operand) : Plain (dec n dst) :=
  plain_write_flags dst (seen_op (fun a _ => a - 1) dst dst)
    (seen_op (fun a _ => a - 1 == 0) dst dst) fun _ _ _ => rfl

/-- An instruction that leaves memory alone and does not look at it. -/
theorem exec_of_mem {g : Bool} (hmem : (f (s.behind g)).mem = view g s.mem)
    (hf : (f (s.behind g)).setMem s.mem = f s) : exec g f s = f s := by
  rw [exec, Cpu.back, hmem, settle_view, hf]

theorem plain_inb : Plain inb where
  ds _ := rfl
  es _ := rfl
  ss _ := rfl
  exec _ _ _ := exec_of_mem rfl rfl

theorem plain_outb : Plain outb where
  ds _ := rfl
  es _ := rfl
  ss _ := rfl
  exec _ _ _ := exec_of_mem rfl rfl

theorem plain_outbTo (port : ℕ) : Plain (outbTo port) where
  ds _ := rfl
  es _ := rfl
  ss _ := rfl
  exec _ _ _ := exec_of_mem rfl rfl

theorem plain_push {v : Cpu → BitVec 16} (hv : Seen v) : Plain fun s => s.push (v s) where
  ds _ := rfl
  es _ := rfl
  ss _ := rfl
  exec g s h := by
    rw [Real.exec, hv g s h]
    exact congrArg (Cpu.setMem _) (settle_st h.ss)

theorem plain_pushw (src : Operand) : Plain (pushw src) := plain_push (seen_read 16 src)

theorem plain_popw (r : X86.Reg) : Plain (popw (.reg r)) where
  ds _ := rfl
  es _ := rfl
  ss _ := rfl
  exec g s h := by
    have hld : ld (view g s.mem) s.ss 2 s.sp = ld s.mem s.ss 2 s.sp := ld_view h.ss
    refine exec_of_mem ?_ ?_
    · cases r <;> rfl
    · have hread : ld (s.behind g).mem (s.behind g).ss 2 (s.behind g).sp = ld s.mem s.ss 2 s.sp :=
        hld
      rw [popw, hread, popw]
      cases r <;> rfl

end Plain

/-! ### Runs below one MiB -/

section Runs

variable {L : Type} {G : Gate} {k : Link L} {code code' : L → Option (Block L)} {l next : L}
    {s : Cpu}
  {body : List (Instr L)} {Q : L × Cpu → Prop}

/-- The gate makes no difference to an instruction of a program. -/
def Instr.Plain : Instr L → Prop
  | .op f => Real.Plain f
  | _ => True

/-- **A block below one MiB** runs as it does without the gate. -/
theorem Gate.runBlock_eq (hbody : ∀ i ∈ body, i.Plain) (hs : Low s) :
    G.runBlock k next body s = Real.runBlock k next body s ∧
    Low (Real.runBlock k next body s).2 := by
  induction body generalizing s with
  | nil => exact ⟨rfl, hs⟩
  | cons i is ih =>
    rw [List.forall_mem_cons] at hbody
    cases i with
    | op f =>
      have hf : Real.Plain f := hbody.1
      rw [Gate.runBlock, Real.runBlock, hf.exec _ s hs]
      exact ih hbody.2 (hf.low hs)
    | jcc c l =>
      rw [Gate.runBlock, Real.runBlock]
      split
      · exact ⟨rfl, hs⟩
      · exact ih hbody.2 hs
    | jmp l => exact ⟨rfl, hs⟩
    | call l =>
      have hpush : Real.Plain fun s => s.push (k.addr next) := plain_push fun _ _ _ => rfl
      rw [Gate.runBlock, Real.runBlock, hpush.exec _ s hs]
      exact ⟨rfl, hpush.low hs⟩
    | ret =>
      rw [Gate.runBlock, Real.runBlock, ld_view hs.ss]
      exact ⟨rfl, hs.ds, hs.es, hs.ss⟩

/-- **A run below one MiB** is one behind the gate. `code` is the part of the program `code'` that
the run stays in. -/
theorem leadsTo_gated
    (hcode : ∀ l b, code l = some b → code' l = some b ∧ ∀ i ∈ b.body, i.Plain) (hs : Low s)
    (h : LeadsTo (Real.step k code) (l, s) Q) :
    LeadsTo (G.step k code') (l, s) fun x => Q x ∧ Low x.2 := by
  obtain ⟨y, hy, hq⟩ := h
  suffices hall : ∀ x, Reaches (Real.step k code) x y → Low x.2 →
      Reaches (G.step k code') x y ∧ Low y.2 by
    obtain ⟨hreach, hlow⟩ := hall _ hy hs
    exact ⟨y, hreach, hq, hlow⟩
  intro x hx
  induction hx using Relation.ReflTransGen.head_induction_on with
  | refl => exact fun hlow => ⟨.refl, hlow⟩
  | head hstep _ ih =>
    intro hlow
    obtain ⟨b, hb, rfl⟩ := Option.map_eq_some_iff.mp hstep
    obtain ⟨hb', hplain⟩ := hcode _ b hb
    obtain ⟨heq, hlow'⟩ := @Gate.runBlock_eq L G k b.next _ b.body hplain hlow
    obtain ⟨hreach, hend⟩ := ih hlow'
    refine ⟨.head ?_ hreach, hend⟩
    rw [Gate.step, hb', Option.map_some, heq]
    rfl

end Runs

end Real
