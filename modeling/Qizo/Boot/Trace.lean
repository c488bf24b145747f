import Qizo.Lib.RealMode

/-!
# The boot trace

The routines of the 16-bit code of the second stage that write a byte to the serial port, in any
program that has them. A byte is dropped if the transmitter is not ready in time, so nothing is said
about what is sent, only that it goes to the ports of the serial line, and that the stack is as it
was.

## Main results

* `leadsTo_putc` — `qizo_trace_putc`
* `leadsTo_com1Init` — `qizo_com1_init`
-/

namespace Qizo

namespace Trace

open Real Operand StateTransition Memory

variable {L : Type} {code : L → Option (Block L)} {k : Link L} {putc wait send done com1 l : L}
  {s s' s'' : Cpu} {p : ℕ}

/-- The program has `qizo_trace_putc`, with its three inner labels. -/
structure HasPutc (code : L → Option (Block L)) (putc wait send done : L) : Prop where
  putc : code putc = some ⟨
    [.op (pushw ax),
     .op (pushw cx),
     .op (pushw dx),
     .op (mov 8 ax ah),
     .op (mov 16 (imm 60000) cx),
     .op (mov 16 (imm 0x3FD) dx)], wait⟩
  wait : code wait = some ⟨
    [.op inb,
     .op (Real.and 8 (imm 0x20) ax),
     jne send,
     .op (dec 16 cx),
     jne wait,
     .jmp done], send⟩
  send : code send = some ⟨
    [.op (mov 8 ah ax),
     .op (mov 16 (imm 0x3F8) dx),
     .op outb], done⟩
  done : ∃ n, code done = some ⟨[.op (popw dx), .op (popw cx), .op (popw ax), .ret], n⟩

/-- What has been written to ports between two states has gone to the ports from `0x3F2` on. -/
def Sent (s s' : Cpu) : Prop := ∃ os, s'.outs = s.outs ++ os ∧ ∀ o ∈ os, 0x3F2 ≤ o.1

theorem Sent.refl (h : s'.outs = s.outs) : Sent s s' :=
  ⟨[], by rw [h, List.append_nil], fun _ ho => absurd ho List.not_mem_nil⟩

theorem Sent.trans (h : Sent s s') (h' : Sent s' s'') : Sent s s'' := by
  obtain ⟨os, hos, hall⟩ := h
  obtain ⟨os', hos', hall'⟩ := h'
  refine ⟨os ++ os', by rw [hos', hos, List.append_assoc], fun o ho => ?_⟩
  rcases List.mem_append.mp ho with ho | ho
  · exact hall o ho
  · exact hall' o ho

theorem Sent.congr {t t' : Cpu} (h : Sent s s') (hs : s.outs = t.outs) (hs' : t'.outs = s'.outs) :
    Sent t t' := by
  obtain ⟨os, hos, hall⟩ := h
  exact ⟨os, by rw [hs', hos, hs], hall⟩

theorem outs_write {n : ℕ} (s : Cpu) (o : Operand) (v : BitVec n) :
    (s.write n o v).outs = s.outs := by
  cases o with
  | reg r => cases r <;> rfl
  | high r => cases r <;> rfl
  | _ => rfl

theorem outs_push (s : Cpu) (v : BitVec 16) : (s.push v).outs = s.outs := rfl

/-- A byte written to a port. -/
theorem Sent.out {port : ℕ} {b : UInt8} (h : s'.outs = s.outs ++ [(port, b)])
    (hport : 0x3F2 ≤ port) :
    Sent s s' := by
  refine ⟨[(port, b)], h, fun o ho => ?_⟩
  rw [List.mem_singleton.mp ho]
  exact hport

/-- The port in `%dx`. -/
theorem toNat_withLow_port (old : BitVec 32) {port : ℕ} (h : port < 65536) :
    (withLow 16 old (.ofNat 16 port)).toNat % 65536 = port := by
  rw [toNat_withLow (by decide), BitVec.toNat_ofNat]
  omega

/-- Waiting for the transmitter, with `n + 1` tries left. -/
theorem leadsTo_wait (hcode : HasPutc code putc wait send done) {n : ℕ} (hn : n + 1 < 65536)
    (hcx : s.ecx.setWidth 16 = .ofNat 16 (n + 1)) (hsp : s.sp = .ofNat 16 p) :
    LeadsTo (Real.step k code) (wait, s) fun x => x.1 = done ∧ Balanced 0x7F00 p s x.2 ∧
      x.2.mem = s.mem ∧ Sent s x.2 := by
  refine LeadsTo.countdown (P := fun n x => x.1 = wait ∧ n < 65536 ∧
    x.2.ecx.setWidth 16 = .ofNat 16 n ∧ Balanced 0x7F00 p s x.2 ∧ x.2.mem = s.mem ∧
    x.2.outs = s.outs) ?_ n
    ⟨rfl, hn, hcx, ⟨rfl, rfl, rfl, rfl, hsp, fun _ _ => rfl⟩, rfl, rfl⟩
  rintro n ⟨_, s₁⟩ ⟨rfl, hn₁, hcx₁, ht, hmem, houts⟩
  dsimp only at hcx₁ ht hmem houts
  have hdec : BitVec.ofNat 16 (n + 1) - 1 = .ofNat 16 n := by
    apply BitVec.eq_of_toNat_eq
    rw [BitVec.toNat_sub, BitVec.toNat_ofNat, BitVec.toNat_ofNat]
    change (65536 - 1 + (n + 1) % 65536) % 65536 = n % 65536
    omega
  refine leadsTo_block hcode.wait ?_
  simp only [runBlock, inb, X86.inb, Real.and, dec, jne, Cpu.read, Cpu.write, Cpu.setReg, Cpu.flags,
    X86.Cpu.get, X86.Cpu.set, hcx₁, hdec]
  refine LeadsTo.ite (fun _ => ?_) fun _ => LeadsTo.ite (fun hne => ?_) fun _ => ?_
  · refine leadsTo_block hcode.send ?_
    simp only [runBlock, mov, outb, X86.outb, Cpu.read, Cpu.write, Cpu.setReg, X86.Cpu.get,
      X86.Cpu.set, X86.Cpu.read8]
    refine .now (.inl ⟨rfl, ⟨ht.ds, ht.ss, ht.edi, ht.calls, ht.sp, ht.mem⟩, hmem,
      (Sent.refl houts).trans (.out rfl ?_)⟩)
    have hport := @toNat_withLow_port s₁.edx 0x3F8 (by decide)
    exact Nat.le_trans (by decide) (Nat.le_of_eq hport.symm)
  · refine .now (.inr ⟨?_, rfl, by omega, setWidth_withLow_16 _ _,
      ⟨ht.ds, ht.ss, ht.edi, ht.calls, ht.sp, ht.mem⟩, hmem, houts⟩)
    rintro rfl
    simp at hne
  · exact .now (.inl ⟨rfl, ⟨ht.ds, ht.ss, ht.edi, ht.calls, ht.sp, ht.mem⟩, hmem, .refl houts⟩)

/-- **A byte of the trace.** -/
theorem leadsTo_putc (hcode : HasPutc code putc wait send done) (h : Called k l p s)
    (hp : 0x7F06 ≤ p) :
    LeadsTo (Real.step k code) (putc, s) fun x => x.1 = l ∧ Balanced 0x7F00 (p + 2) s x.2 ∧
      Sent s x.2 := by
  obtain ⟨p, rfl⟩ := Nat.exists_eq_add_of_le' (Nat.le_trans (by decide : 6 ≤ 0x7F06) hp)
  have hlt := h.lt
  have h₀ : Stacked 0x7F00 (p + 6) (p + 6) s s := ⟨rfl, rfl, rfl, rfl, h.sp, fun _ _ => rfl⟩
  have h₁ := ((h₀.push (v := s.eax.setWidth 16) h.ss (by omega) (by omega) (by omega)).push
    (v := s.ecx.setWidth 16) h.ss (by omega) (by omega) (by omega)).push (p := p)
    (v := s.edx.setWidth 16) h.ss (by omega) (by omega) (by omega)
  refine leadsTo_block hcode.putc ?_
  simp only [runBlock]
  refine LeadsTo.trans (leadsTo_wait hcode (n := 59999) (p := p) (by decide) ?_ h₁.sp) ?_
  · simp only [mov, Cpu.read, Cpu.write, Cpu.setReg, X86.Cpu.get, X86.Cpu.set, setWidth_withLow_16]
  rintro ⟨_, s₂⟩ ⟨rfl, ht, hmem, hsent⟩
  dsimp only at ht hmem
  have hsent₂ : Sent s s₂ :=
    hsent.congr (by simp only [mov, pushw, outs_write, outs_push]) rfl
  have h₂ : Stacked 0x7F00 (p + 6) p s s₂ := by
    refine ⟨ht.ds.trans h₁.ds, ht.ss.trans h₁.ss, ht.edi.trans h₁.edi, ht.calls.trans h₁.calls,
      ht.sp, fun x hx => ?_⟩
    rw [hmem]
    exact h₁.mem x hx
  have h₃ := ((h₂.popw (r := .edx) (by decide) (by decide)).popw (r := .ecx) (by decide)
    (by decide)).popw (r := .eax) (by decide) (by decide)
  obtain ⟨n, hdone⟩ := hcode.done
  obtain ⟨hl, hbal⟩ := balanced_ret n h h₃
  exact leadsTo_block hdone (.now ⟨hl, hbal, hsent₂.congr rfl rfl⟩)

/-! ### Setting up the serial line -/

/-- Bytes written to ports, each with its port. -/
def outPorts (os : List (ℕ × ℕ)) : List (Instr L) :=
  os.flatMap fun o => [.op (mov 8 (imm o.2) ax), .op (mov 16 (imm o.1) dx), .op outb]

/-- The ports of `qizo_com1_init` and what goes there. -/
def com1Ports : List (ℕ × ℕ) :=
  [(0x3F9, 0x00), (0x3FB, 0x80), (0x3F8, 0x01), (0x3F9, 0x00), (0x3FB, 0x03), (0x3F2, 0xC7),
    (0x3FD, 0x0B)]

/-- The program has `qizo_com1_init`. -/
def HasCom1Init (code : L → Option (Block L)) (com1 : L) : Prop :=
  ∃ n, code com1 = some ⟨[.op (pushw ax), .op (pushw dx)] ++ (outPorts com1Ports ++
    [.op (popw dx), .op (popw ax), .ret]), n⟩

/-- What `outPorts` does. -/
def sendAll (os : List (ℕ × ℕ)) (s : Cpu) : Cpu :=
  os.foldl (fun s o => outb (mov 16 (imm o.1) dx (mov 8 (imm o.2) ax s))) s

variable {lo top : ℕ} {os : List (ℕ × ℕ)}

theorem runBlock_outPorts (n : L) (is : List (Instr L)) :
    runBlock k n (outPorts os ++ is) s = runBlock k n is (sendAll os s) := by
  induction os generalizing s with
  | nil => rfl
  | cons o os ih => exact ih

theorem stacked_sendAll (os : List (ℕ × ℕ)) (h : Stacked lo top p s s') :
    Stacked lo top p s (sendAll os s') := by
  induction os generalizing s' with
  | nil => exact h
  | cons o os ih => exact ih ⟨h.ds, h.ss, h.edi, h.calls, h.sp, h.mem⟩

theorem sent_sendAll (hos : ∀ o ∈ os, 0x3F2 ≤ o.1 ∧ o.1 < 65536) (s : Cpu) :
    Sent s (sendAll os s) := by
  induction os generalizing s with
  | nil => exact .refl rfl
  | cons o os ih =>
    rw [List.forall_mem_cons] at hos
    obtain ⟨⟨hle, hlt⟩, hrest⟩ := hos
    refine Sent.trans (.out rfl ?_) (ih hrest _)
    exact Nat.le_trans hle (Nat.le_of_eq (toNat_withLow_port s.edx hlt).symm)

/-- **Setting up the serial line.** -/
theorem leadsTo_com1Init (hcode : HasCom1Init code com1) (h : Called k l p s) (hp : 0x7F04 ≤ p) :
    LeadsTo (Real.step k code) (com1, s) fun x => x.1 = l ∧ Balanced 0x7F00 (p + 2) s x.2 ∧
      Sent s x.2 := by
  obtain ⟨n, hn⟩ := hcode
  obtain ⟨p, rfl⟩ := Nat.exists_eq_add_of_le' (Nat.le_trans (by decide : 4 ≤ 0x7F04) hp)
  have hlt := h.lt
  have h₀ : Stacked 0x7F00 (p + 4) (p + 4) s s := ⟨rfl, rfl, rfl, rfl, h.sp, fun _ _ => rfl⟩
  have h₁ := (h₀.push (v := s.eax.setWidth 16) h.ss (by omega) (by omega) (by omega)).push (p := p)
    (v := s.edx.setWidth 16) h.ss (by omega) (by omega) (by omega)
  have h₂ := ((stacked_sendAll com1Ports h₁).popw (r := .edx) (by decide) (by decide)).popw
    (r := .eax) (by decide) (by decide)
  obtain ⟨hl, hbal⟩ := balanced_ret n h h₂
  have hsent := @sent_sendAll com1Ports (by decide)
    ((s.push (s.eax.setWidth 16)).push (s.edx.setWidth 16))
  refine leadsTo_block hn (.now ?_)
  rw [List.cons_append, List.cons_append, List.nil_append, runBlock, runBlock, runBlock_outPorts]
  exact ⟨hl, hbal, hsent.congr rfl rfl⟩

end Trace

end Qizo
