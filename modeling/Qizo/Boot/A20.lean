import Qizo.Boot.Delivery
import Qizo.Boot.Trace
import Qizo.Lib.AddressGate

/-!
# The probe of the A20 gate

The start of the 16-bit code of the second stage, up to `a20_done`, with the boot trace assembled
in, on a machine with an address gate. One label per label of the source; the return points of calls
have names here. `cli` and `cld` have no counterpart.

The probe writes different bytes to two addresses and takes the gate for closed if they turn out to
be one. They are `0x1FF0` and, in the segment of bootinfo, `0x11FF0`. Neither has bit 20 set, so
they are never one, whatever the gate does: the port of the gate is never written to, and the gate
is always taken for open.

## Main results

* `leadsTo_a20Done` — what the probe does
* `tellsTruth_iff` — when it tells the truth
-/

namespace Qizo

namespace A20

open Real Operand StateTransition ByteString Memory

/-- The labels up to `a20_done`. -/
inductive Label where
  | start | com1Back | traceColon | fill | a20On | onDigit | onBack | a20Stuck | stuckDigit
  | stuckBack
  | a20Done
  | qizoCom1Init | qizoTracePutc | qizoTrWait | qizoTrSend | qizoTrDone
  deriving DecidableEq, Repr

open Label

/-- The stores to bootinfo. -/
def fillBootinfo : List (Cpu → Cpu) :=
  [mov 32 (imm 0x00010001) (absEs biMagic),
   mov 8 (abs (biosArg + argDrive)) ax,
   mov 8 ax (absEs biDrive),
   mov 8 (imm 1) (absEs biMode),
   mov 32 (abs (biosArg + argLba)) ax,
   mov 32 ax (absEs biBlobLba),
   movzwl (abs (biosArg + argTotal)) ax,
   mov 16 ax (absEs biBlobSectors),
   shl 32 9 ax,
   sub 32 (imm (blobPhys - stage2)) ax,
   mov 32 ax (absEs biBlobSize),
   mov 32 (imm blobPhys) ax,
   mov 32 ax (absEs biBlobPhys),
   mov 32 (abs (biosArg + argCrc)) ax,
   mov 32 ax (absEs biBlobCrc),
   mov 32 (imm scratch) ax,
   mov 32 ax (absEs biScratch),
   mov 32 (imm ktext) ax,
   mov 32 ax (absEs biKtext),
   mov 32 (imm bootver) ax,
   mov 32 ax (absEs biFlags),
   mov 8 (imm 0) (absEs biErr)]

/-- The probe, up to `a20_on`. -/
def probe : List (Instr Label) :=
  [.op (mov 8 (abs 0x1FF0) cx),
   .op (mov 8 (absEs 0x1FF0) (high .ecx)),
   .op (mov 8 (imm 0x55) ax),
   .op (mov 8 ax (absEs 0x1FF0)),
   .op (Real.not 8 ax),
   .op (mov 8 ax (abs 0x1FF0)),
   .op (cmp 8 ax (absEs 0x1FF0)),
   jne a20On,
   .op inb,
   .op (Real.or 8 (imm 2) ax),
   .op (outbTo 0x92),
   .op inb,
   .op inb,
   .op (mov 8 (imm 0xAA) ax),
   .op (mov 8 ax (abs 0x1FF0)),
   .op (cmp 8 ax (absEs 0x1FF0)),
   je a20Stuck]

/-- The two probed bytes are put back, and the answer goes to bootinfo. -/
def putBack (answer : ℕ) : List (Instr Label) :=
  [.op (mov 8 (high .ecx) (absEs 0x1FF0)),
   .op (mov 8 cx (abs 0x1FF0)),
   .op (mov 8 (imm answer) (absEs biA20)),
   .op (mov 8 (imm 0x41) ax),
   .call qizoTracePutc]

/-- The routines of the trace. -/
def routines : Label → Option (Block Label)
  | qizoCom1Init => some ⟨[.op (pushw ax), .op (pushw dx)] ++ (Trace.outPorts Trace.com1Ports ++
      [.op (popw dx), .op (popw ax), .ret]), qizoTracePutc⟩
  | qizoTracePutc => some ⟨
      [.op (pushw ax),
       .op (pushw cx),
       .op (pushw dx),
       .op (mov 8 ax ah),
       .op (mov 16 (imm 60000) cx),
       .op (mov 16 (imm 0x3FD) dx)], qizoTrWait⟩
  | qizoTrWait => some ⟨
      [.op inb,
       .op (Real.and 8 (imm 0x20) ax),
       jne qizoTrSend,
       .op (dec 16 cx),
       jne qizoTrWait,
       .jmp qizoTrDone], qizoTrSend⟩
  | qizoTrSend => some ⟨
      [.op (mov 8 ah ax),
       .op (mov 16 (imm 0x3F8) dx),
       .op outb], qizoTrDone⟩
  | qizoTrDone => some ⟨[.op (popw dx), .op (popw cx), .op (popw ax), .ret], a20Done⟩
  | _ => none

/-- The code. -/
def code : Label → Option (Block Label)
  | start => some ⟨
      [.op (xor 16 ax ax), .op movDs, .op movEs, .op movSs,
       .op (mov 16 (imm 0x8FF0) sp),
       .call qizoCom1Init], com1Back⟩
  | com1Back => some ⟨[.op (mov 8 (imm 0x32) ax), .call qizoTracePutc], traceColon⟩
  | traceColon => some ⟨[.op (mov 8 (imm 0x3A) ax), .call qizoTracePutc], fill⟩
  | fill => some ⟨
      [.op (mov 32 (imm bootinfoSeg) ax), .op movEs] ++ (fillBootinfo.map .op ++ probe), a20On⟩
  | a20On => some ⟨putBack 1, onDigit⟩
  | onDigit => some ⟨[.op (mov 8 (imm 0x31) ax), .call qizoTracePutc], onBack⟩
  | onBack => some ⟨[.jmp a20Done], a20Stuck⟩
  | a20Stuck => some ⟨putBack 0, stuckDigit⟩
  | stuckDigit => some ⟨[.op (mov 8 (imm 0x30) ax), .call qizoTracePutc], stuckBack⟩
  | stuckBack => some ⟨[], a20Done⟩
  | a20Done => none
  | l => routines l

variable {G : Gate} {k : Link Label} {s s' : Cpu} {n : Label}

/-! ### The trace behind the gate -/

theorem plain_outPorts (os : List (ℕ × ℕ)) {i : Instr Label} (hi : i ∈ Trace.outPorts os) :
    i.Plain := by
  obtain ⟨o, -, hi⟩ := List.mem_flatMap.mp hi
  simp only [List.mem_cons, List.not_mem_nil, or_false] at hi
  rcases hi with rfl | rfl | rfl
  · exact plain_mov _ _ _
  · exact plain_mov _ _ _
  · exact plain_outb

/-- The gate makes no difference to the routines of the trace. -/
theorem plain_routines (l : Label) (b : Block Label) (h : routines l = some b) :
    code l = some b ∧ ∀ i ∈ b.body, i.Plain := by
  cases l with
  | qizoCom1Init =>
    obtain rfl := Option.some.inj h
    refine ⟨rfl, fun i hi => ?_⟩
    rcases List.mem_append.mp hi with hi | hi
    · simp only [List.mem_cons, List.not_mem_nil, or_false] at hi
      rcases hi with rfl | rfl
      · exact plain_pushw _
      · exact plain_pushw _
    · rcases List.mem_append.mp hi with hi | hi
      · exact plain_outPorts _ hi
      · simp only [List.mem_cons, List.not_mem_nil, or_false] at hi
        rcases hi with rfl | rfl | rfl
        · exact plain_popw _
        · exact plain_popw _
        · trivial
  | qizoTracePutc =>
    obtain rfl := Option.some.inj h
    simp only [List.forall_mem_cons, List.not_mem_nil, false_imp_iff, implies_true, and_true]
    exact ⟨rfl, plain_pushw _, plain_pushw _, plain_pushw _, plain_mov _ _ _, plain_mov _ _ _,
      plain_mov _ _ _⟩
  | qizoTrWait =>
    obtain rfl := Option.some.inj h
    simp only [List.forall_mem_cons, List.not_mem_nil, false_imp_iff, implies_true, and_true]
    exact ⟨rfl, plain_inb, plain_and _ _ _, trivial, plain_dec _ _, trivial, trivial⟩
  | qizoTrSend =>
    obtain rfl := Option.some.inj h
    simp only [List.forall_mem_cons, List.not_mem_nil, false_imp_iff, implies_true, and_true]
    exact ⟨rfl, plain_mov _ _ _, plain_mov _ _ _, plain_outb⟩
  | qizoTrDone =>
    obtain rfl := Option.some.inj h
    simp only [List.forall_mem_cons, List.not_mem_nil, false_imp_iff, implies_true, and_true]
    exact ⟨rfl, plain_popw _, plain_popw _, plain_popw _, trivial⟩
  | _ => cases h

/-- A routine of the trace has been called and has returned. -/
structure Back (s s' : Cpu) : Prop where
  stack : Balanced 0x7F00 0x8FF0 s s'
  sent : Trace.Sent s s'
  low : Low s'

/-- The stack of the second stage is empty, and the segments are low. -/
structure Ready (s : Cpu) : Prop where
  ss : s.ss = 0#16
  sp : s.sp = .ofNat 16 0x8FF0
  low : Low s

theorem Back.ready (h : Back s s') (hs : Ready s) : Ready s' :=
  ⟨h.stack.ss.trans hs.ss, h.stack.sp, h.low⟩

theorem plain_call (n : Label) : Plain fun s : Cpu => s.push (k.addr n) :=
  plain_push fun _ _ _ => rfl

/-- **A byte of the trace**, behind the gate. -/
theorem leadsTo_putc (hs : Ready s) :
    LeadsTo (G.step k code) (qizoTracePutc, s.push (k.addr n)) fun x => x.1 = n ∧ Back s x.2 := by
  have hputc : Trace.HasPutc routines qizoTracePutc qizoTrWait qizoTrSend qizoTrDone :=
    ⟨rfl, rfl, rfl, a20Done, rfl⟩
  have hcalled : Called k n 0x8FEE (s.push (k.addr n)) := called_push hs.ss hs.sp (by decide)
  refine (leadsTo_gated plain_routines ((plain_call n).low hs.low)
    (Trace.leadsTo_putc hputc hcalled (by decide))).mono ?_
  rintro x ⟨⟨hx, hbal, hsent⟩, hlow⟩
  exact ⟨hx, hbal.of_push hs.ss hs.sp (by decide) (by decide), hsent.congr rfl rfl, hlow⟩

/-- **Setting up the serial line**, behind the gate. -/
theorem leadsTo_com1Init (hs : Ready s) :
    LeadsTo (G.step k code) (qizoCom1Init, s.push (k.addr n)) fun x => x.1 = n ∧ Back s x.2 := by
  have hcom1 : Trace.HasCom1Init routines qizoCom1Init := ⟨qizoTracePutc, rfl⟩
  have hcalled : Called k n 0x8FEE (s.push (k.addr n)) := called_push hs.ss hs.sp (by decide)
  refine (leadsTo_gated plain_routines ((plain_call n).low hs.low)
    (Trace.leadsTo_com1Init hcom1 hcalled (by decide))).mono ?_
  rintro x ⟨⟨hx, hbal, hsent⟩, hlow⟩
  exact ⟨hx, hbal.of_push hs.ss hs.sp (by decide) (by decide), hsent.congr rfl rfl, hlow⟩

/-- A byte of the trace that stands alone. -/
theorem leadsTo_traced {l : Label} {c : ℕ}
    (hcode : code l = some ⟨[.op (mov 8 (imm c) ax), .call qizoTracePutc], n⟩) (hs : Ready s) :
    LeadsTo (G.step k code) (l, s) fun x => x.1 = n ∧ Back s x.2 := by
  have hplain := plain_mov 8 (imm c) ax
  refine Gate.leadsTo_block hcode ?_
  rw [(Gate.runBlock_eq (by
    simp only [List.forall_mem_cons, List.not_mem_nil, false_imp_iff, implies_true, and_true]
    exact ⟨hplain, trivial⟩) hs.low).1, runBlock, runBlock]
  have hready : Ready (mov 8 (imm c) ax s) := ⟨hs.ss, hs.sp, hplain.low hs.low⟩
  refine (leadsTo_putc hready).mono ?_
  rintro x ⟨hx, hback⟩
  exact ⟨hx, ⟨hback.stack.ds, hback.stack.ss, hback.stack.edi, hback.stack.calls, hback.stack.sp,
    hback.stack.mem⟩, hback.sent.congr rfl rfl, hback.low⟩

/-! ### Up to the probe -/

/-- The segments are zero and the stack is empty. -/
def cleared (s : Cpu) : Cpu := mov 16 (imm 0x8FF0) sp (movSs (movEs (movDs (xor 16 ax ax s))))

theorem ready_cleared (s : Cpu) : Ready (cleared s) ∧ (cleared s).ds = 0#16 := by
  have hzero : (withLow 16 s.eax (s.eax.setWidth 16 ^^^ s.eax.setWidth 16)).setWidth 16 = 0#16 := by
    rw [setWidth_withLow_16, BitVec.xor_self]
  have hds : (cleared s).ds = 0#16 := hzero
  have hes : (cleared s).es = 0#16 := hzero
  have hss : (cleared s).ss = 0#16 := hzero
  refine ⟨⟨hss, setWidth_withLow_16 _ _, ?_⟩, hds⟩
  constructor
  · rw [hds]
    decide
  · rw [hes]
    decide
  · rw [hss]
    decide

/-- **From `_start` to the probe**, where only the stack has changed. -/
theorem leadsTo_fill (s : Cpu) :
    LeadsTo (G.step k code) (start, s) fun x => x.1 = fill ∧ Ready x.2 ∧ x.2.ds = 0#16 ∧
      Trace.Sent s x.2 ∧ ∀ a, a < 0x7F00 ∨ 0x8FF0 ≤ a → x.2.mem a = s.mem a := by
  obtain ⟨hready, hds⟩ := ready_cleared s
  refine Gate.leadsTo_block rfl ?_
  have hrun : G.runBlock k com1Back [.op (xor 16 ax ax), .op movDs, .op movEs, .op movSs,
      .op (mov 16 (imm 0x8FF0) sp), .call qizoCom1Init] s =
      (qizoCom1Init, (cleared s).push (k.addr com1Back)) := by
    have hpush := (plain_call (k := k) com1Back).exec (G.isOpen (cleared s)) _ hready.low
    simp only [Gate.runBlock]
    rw [exec_of_mem (f := xor 16 ax ax) rfl rfl, exec_of_mem (f := movDs) rfl rfl,
      exec_of_mem (f := movEs) rfl rfl, exec_of_mem (f := movSs) rfl rfl,
      exec_of_mem (f := mov 16 (imm 0x8FF0) sp) rfl rfl]
    exact congrArg (Prod.mk qizoCom1Init) hpush
  rw [hrun]
  refine (leadsTo_com1Init hready).trans ?_
  rintro ⟨_, s₁⟩ ⟨rfl, h₁⟩
  refine (leadsTo_traced rfl (h₁.ready hready)).trans ?_
  rintro ⟨_, s₂⟩ ⟨rfl, h₂⟩
  refine (leadsTo_traced rfl (h₂.ready (h₁.ready hready))).mono ?_
  rintro ⟨_, s₃⟩ ⟨rfl, h₃⟩
  refine ⟨rfl, h₃.ready (h₂.ready (h₁.ready hready)), ?_, ?_, fun a ha => ?_⟩
  · rw [h₃.stack.ds, h₂.stack.ds, h₁.stack.ds, hds]
  · exact ((h₁.sent.trans h₂.sent).trans h₃.sent).congr rfl rfl
  · rw [h₃.stack.mem a ha, h₂.stack.mem a ha, h₁.stack.mem a ha]
    rfl

/-! ### The probe -/

theorem runBlock_map_op (fs : List (Cpu → Cpu)) (is : List (Instr Label)) :
    runBlock k n (fs.map .op ++ is) s = runBlock k n is (fs.foldl (fun s f => f s) s) := by
  induction fs generalizing s with
  | nil => rfl
  | cons f fs ih => exact ih

/-- A store to the segment of bootinfo. -/
theorem st_bootinfo {m : Memory} {w off v : ℕ} (h : off < 65536) (hw : off + w ≤ 65536) :
    st (.ofNat 16 bootinfoSeg) w (.ofNat 16 off) v m = m.store w (bootinfo + off) v := by
  have hoff : (BitVec.ofNat 16 off).toNat = off := by rw [BitVec.toNat_ofNat, Nat.mod_eq_of_lt h]
  rw [st_eq_store (by rw [hoff]; exact hw), lin, hoff]
  rfl

/-- The state with bootinfo filled. -/
def filled (s : Cpu) : Cpu := fillBootinfo.foldl (fun s f => f s) s

/-- **Bootinfo is filled.** -/
theorem filled_mem (hds : s.ds = 0#16) (hes : s.es = .ofNat 16 bootinfoSeg) :
    (filled s).mem = Stage2.setupBootinfo s.mem := by
  have hload {w n : ℕ} (hn : 256 ^ w = 2 ^ n) (a : ℕ) :
      (BitVec.ofNat n (s.mem.load w a)).toNat = s.mem.load w a := by
    rw [BitVec.toNat_ofNat, ← hn, Nat.mod_eq_of_lt (load_lt s.mem w a)]
  have hbyte := @hload 1 8 rfl
  have hlong := @hload 4 32 rfl
  have hlt (a : ℕ) : s.mem.load 2 a < 2 ^ 16 := load_lt s.mem 2 a
  have hword (a : ℕ) : ((BitVec.ofNat 16 (s.mem.load 2 a)).setWidth 32).toNat = s.mem.load 2 a := by
    rw [BitVec.toNat_setWidth, @hload 2 16 rfl, Nat.mod_eq_of_lt ((hlt a).trans (by decide))]
  have hsectors (a : ℕ) :
      (((BitVec.ofNat 16 (s.mem.load 2 a)).setWidth 32).setWidth 16).toNat = s.mem.load 2 a := by
    rw [BitVec.toNat_setWidth, hword, Nat.mod_eq_of_lt (hlt a)]
  have hsize (a : ℕ) : ((BitVec.ofNat 16 (s.mem.load 2 a)).setWidth 32 <<< 9 -
      BitVec.ofNat 32 (blobPhys - stage2)).toNat =
        ((s.mem.load 2 a <<< 9) + (2 ^ 32 - (blobPhys - stage2))) % 2 ^ 32 := by
    have hdiff : (BitVec.ofNat 32 (blobPhys - stage2)).toNat = blobPhys - stage2 := rfl
    have := hlt a
    rw [BitVec.toNat_sub, BitVec.toNat_shiftLeft, hword, hdiff, Nat.shiftLeft_eq,
      Nat.mod_eq_of_lt (show s.mem.load 2 a * 2 ^ 9 < 2 ^ 32 by omega), Nat.add_comm]
  simp (disch := decide) only [filled, fillBootinfo, List.foldl_cons, List.foldl_nil, mov, movzwl,
    shl, sub, Cpu.read, Cpu.write, Cpu.setMem, Cpu.setReg, Cpu.flags, X86.Cpu.get, X86.Cpu.set, hds,
    hes, st_bootinfo, ld_zero, withLow_32, setWidth_withLow_8, BitVec.setWidth_eq, Nat.reduceDiv,
    load_store_of_disjoint, hbyte, hlong, hsectors, hsize, Stage2.setupBootinfo]
  rfl

/-- The gate makes no difference to the stores. -/
theorem plain_fillBootinfo : ∀ f ∈ fillBootinfo, Plain f := by
  simp only [fillBootinfo, List.forall_mem_cons, plain_mov, plain_movzwl, plain_shl, plain_sub,
    List.not_mem_nil, false_imp_iff, implies_true, and_self]

theorem keeps_fillBootinfo :
    ∀ f ∈ fillBootinfo, ∀ s : Cpu, (f s).esp = s.esp ∧ (f s).outs = s.outs := by
  simp only [fillBootinfo, List.forall_mem_cons, List.not_mem_nil, false_imp_iff, implies_true,
    and_true]
  and_intros
  all_goals exact fun _ => ⟨rfl, rfl⟩

/-- The stores leave the other registers alone. -/
theorem filled_regs (s : Cpu) : (filled s).ds = s.ds ∧ (filled s).es = s.es ∧ (filled s).ss = s.ss ∧
    (filled s).esp = s.esp ∧ (filled s).outs = s.outs := by
  have hall (fs : List (Cpu → Cpu)) (hplain : ∀ f ∈ fs, Plain f)
      (hkeeps : ∀ f ∈ fs, ∀ s : Cpu, (f s).esp = s.esp ∧ (f s).outs = s.outs) (s : Cpu) :
      (fs.foldl (fun s f => f s) s).ds = s.ds ∧ (fs.foldl (fun s f => f s) s).es = s.es ∧
        (fs.foldl (fun s f => f s) s).ss = s.ss ∧ (fs.foldl (fun s f => f s) s).esp = s.esp ∧
        (fs.foldl (fun s f => f s) s).outs = s.outs := by
    induction fs generalizing s with
    | nil => exact ⟨rfl, rfl, rfl, rfl, rfl⟩
    | cons f fs ih =>
      rw [List.forall_mem_cons] at hplain hkeeps
      obtain ⟨hds, hes, hss, hesp, houts⟩ := ih hplain.2 hkeeps.2 (f s)
      exact ⟨hds.trans (hplain.1.ds s), hes.trans (hplain.1.es s), hss.trans (hplain.1.ss s),
        hesp.trans (hkeeps.1 s).1, houts.trans (hkeeps.1 s).2⟩
  exact hall fillBootinfo plain_fillBootinfo keeps_fillBootinfo s

/-- The state after the two bytes have been written and compared. -/
def probed (s : Cpu) : Cpu :=
  Real.cmp 8 ax (absEs 0x1FF0) (mov 8 ax (abs 0x1FF0) (Real.not 8 ax (mov 8 ax (absEs 0x1FF0)
    (mov 8 (imm 0x55) ax (mov 8 (absEs 0x1FF0) (high .ecx) (mov 8 (abs 0x1FF0) cx s))))))

/-- The probed byte in segment zero. -/
theorem lin_ds : lin 0#16 (.ofNat 16 0x1FF0) = 0x1FF0 := rfl

/-- The probed byte in the segment of bootinfo. -/
theorem lin_es : lin (.ofNat 16 bootinfoSeg) (.ofNat 16 0x1FF0) = 0x11FF0 := rfl

theorem lin_a20 : lin (.ofNat 16 bootinfoSeg) (.ofNat 16 biA20) = bootinfo + biA20 := rfl

/-- **The two bytes are not one**, so that they differ. -/
theorem probed_zf (hds : s.ds = 0#16) (hes : s.es = .ofNat 16 bootinfoSeg) :
    (probed s).zf = false := by
  simp only [probed, Real.cmp, mov, Real.not, Cpu.read, Cpu.write, Cpu.setMem, Cpu.setReg,
    Cpu.flags, X86.Cpu.get, X86.Cpu.set, hds, hes, Nat.reduceDiv, st, ld, lin_ds, lin_es,
    setWidth_withLow_8]
  rfl

/-- The state after they have been put back. -/
def restored (s : Cpu) : Cpu :=
  mov 8 (imm 0x41) ax (mov 8 (imm 1) (absEs biA20) (mov 8 cx (abs 0x1FF0)
    (mov 8 (high .ecx) (absEs 0x1FF0) s)))

/-- A byte that has been through a register. -/
theorem ofNat_toNat_byte (b : UInt8) :
    UInt8.ofNat (BitVec.ofNat 8 b.toNat).toNat = b ∧
      UInt8.ofNat (BitVec.ofNat 8 ((BitVec.ofNat 8 b.toNat).toNat % 256)).toNat = b := by
  have := b.toNat_lt
  constructor <;>
  · apply UInt8.toNat.inj
    simp only [UInt8.toNat_ofNat', BitVec.toNat_ofNat]
    omega

/-- Two bytes that are written and put back. -/
theorem update_put_back (m : Memory) {a b : ℕ} (h : a ≠ b) (u v : UInt8) :
    Function.update (Function.update (Function.update (Function.update m a u) b v) a (m a))
      b (m b) = m := by
  rw [Function.update_comm h, Function.update_idem, Function.update_comm h, Function.update_idem,
    Function.update_eq_self, Function.update_eq_self]

/-- **Both bytes are put back.** -/
theorem restored_probed_mem (hds : s.ds = 0#16) (hes : s.es = .ofNat 16 bootinfoSeg) :
    (restored (probed s)).mem = Function.update s.mem (bootinfo + biA20) 1 := by
  have hcl := (ofNat_toNat_byte (s.mem 0x1FF0)).1
  have hch := (ofNat_toNat_byte (s.mem 0x11FF0)).2
  simp only [restored, probed, Real.cmp, mov, Real.not, Cpu.read, Cpu.write, Cpu.setMem, Cpu.setReg,
    Cpu.flags, X86.Cpu.get, X86.Cpu.set, hds, hes, Nat.reduceDiv, st, ld, lin_ds, lin_es, lin_a20,
    setWidth_withLow_8, setWidth_withHigh, toNat_withHigh_div, Nat.mul_zero, Nat.add_zero, hcl, hch]
  rw [update_put_back s.mem (by decide)]
  rfl

/-- The probe leaves the other registers alone. -/
theorem restored_probed_regs (s : Cpu) :
    (restored (probed s)).ds = s.ds ∧ (restored (probed s)).es = s.es ∧
      (restored (probed s)).ss = s.ss ∧ (restored (probed s)).esp = s.esp ∧
      (restored (probed s)).outs = s.outs :=
  ⟨rfl, rfl, rfl, rfl, rfl⟩

/-- The gate makes no difference to the probe. -/
theorem plain_probe : ∀ i ∈ probe, i.Plain := by
  simp only [probe, List.forall_mem_cons, List.not_mem_nil, false_imp_iff, implies_true, and_true]
  exact ⟨plain_mov _ _ _, plain_mov _ _ _, plain_mov _ _ _, plain_mov _ _ _, plain_not _ _,
    plain_mov _ _ _, plain_cmp _ _ _, trivial, plain_inb, plain_or _ _ _, plain_outbTo _, plain_inb,
    plain_inb, plain_mov _ _ _, plain_mov _ _ _, plain_cmp _ _ _, trivial⟩

theorem plain_putBack (answer : ℕ) : ∀ i ∈ putBack answer, i.Plain := by
  simp only [putBack, List.forall_mem_cons, List.not_mem_nil, false_imp_iff, implies_true, and_true]
  exact ⟨plain_mov _ _ _, plain_mov _ _ _, plain_mov _ _ _, plain_mov _ _ _, trivial⟩

/-- Probing ends at `a20_on`. -/
theorem runBlock_probe (hds : s.ds = 0#16) (hes : s.es = .ofNat 16 bootinfoSeg) :
    runBlock k a20On probe s = (a20On, probed s) := by
  have hjump : (!(probed s).zf) = true := by rw [probed_zf hds hes, Bool.not_false]
  rw [probed] at hjump
  rw [probe, runBlock, runBlock, runBlock, runBlock, runBlock, runBlock, runBlock, jne, runBlock,
    if_pos hjump, probed]

/-- **The probe**, which always takes the gate for open. -/
theorem leadsTo_putBack (hs : Ready s) (hds : s.ds = 0#16) :
    LeadsTo (G.step k code) (fill, s) fun x => ∃ s', x = (qizoTracePutc, s'.push (k.addr onDigit)) ∧
      Ready s' ∧ s'.outs = s.outs ∧
        s'.mem = Function.update (Stage2.setupBootinfo s.mem) (bootinfo + biA20) 1 := by
  set s₁ : Cpu := movEs (mov 32 (imm bootinfoSeg) ax s) with hs₁
  have hes₁ : s₁.es = .ofNat 16 bootinfoSeg := by
    rw [hs₁]
    simp only [movEs, mov, Cpu.read, Cpu.write, Cpu.setReg, X86.Cpu.set, X86.Cpu.get, withLow_32]
    decide
  have hds₁ : s₁.ds = 0#16 := hds
  have hlow₁ : Low s₁ := ⟨hs.low.ds, by rw [hes₁]; decide, hs.low.ss⟩
  obtain ⟨hfds, hfes, hfss, hfesp, hfouts⟩ := filled_regs s₁
  obtain ⟨hrds, hres, hrss, hresp, hrouts⟩ := restored_probed_regs (filled s₁)
  have hplain : ∀ i ∈ fillBootinfo.map Instr.op ++ probe, i.Plain := by
    intro i hi
    rcases List.mem_append.mp hi with hi | hi
    · obtain ⟨f, hf, rfl⟩ := List.mem_map.mp hi
      exact plain_fillBootinfo f hf
    · exact plain_probe i hi
  have hrun := @Gate.runBlock_eq Label G k a20On s₁ _ hplain hlow₁
  rw [runBlock_map_op] at hrun
  change _ = runBlock k a20On probe (filled s₁) ∧ Low (runBlock k a20On probe (filled s₁)).2 at hrun
  rw [runBlock_probe (hfds.trans hds₁) (hfes.trans hes₁)] at hrun
  have hback := @Gate.runBlock_eq Label G k onDigit _ _ (plain_putBack 1) hrun.2
  refine Gate.leadsTo_block rfl ?_
  have hfirst : G.runBlock k a20On ([.op (mov 32 (imm bootinfoSeg) ax), .op movEs] ++
      (fillBootinfo.map .op ++ probe)) s = (a20On, probed (filled s₁)) := by
    rw [List.cons_append, List.cons_append, List.nil_append, Gate.runBlock, Gate.runBlock,
      exec_of_mem (f := mov 32 (imm bootinfoSeg) ax) rfl rfl, exec_of_mem (f := movEs) rfl rfl]
    exact hrun.1
  rw [hfirst]
  refine Gate.leadsTo_block rfl (.now ?_)
  rw [hback.1]
  refine ⟨restored (probed (filled s₁)), rfl, ⟨?_, ?_, ?_, ?_, ?_⟩, ?_, ?_⟩
  · rw [hrss, hfss]
    exact hs.ss
  · rw [Cpu.sp, hresp, hfesp]
    exact hs.sp
  · rw [hrds, hfds]
    exact hlow₁.ds
  · rw [hres, hfes]
    exact hlow₁.es
  · rw [hrss, hfss]
    exact hlow₁.ss
  · rw [hrouts, hfouts]
    rfl
  · rw [restored_probed_mem (hfds.trans hds₁) (hfes.trans hes₁), filled_mem hds₁ hes₁]
    rfl

/-- **What the probe does.** `m` is memory with what the trace has left on the stack. -/
theorem leadsTo_a20Done (s : Cpu) :
    LeadsTo (G.step k code) (start, s) fun x => x.1 = a20Done ∧ Trace.Sent s x.2 ∧ ∃ m,
      EqOutside s.mem m [(0x7F00, 0x10F0)] ∧
        EqOutside (Function.update (Stage2.setupBootinfo m) (bootinfo + biA20) 1) x.2.mem
          [(0x7F00, 0x10F0)] := by
  have hout (a : ℕ) (ha : Outside [(0x7F00, 0x10F0)] a) : a < 0x7F00 ∨ 0x8FF0 ≤ a :=
    outside_singleton.mp ha
  refine (leadsTo_fill s).trans ?_
  rintro ⟨_, s₁⟩ ⟨rfl, hready₁, hds₁, hsent₁, hmem₁⟩
  refine (leadsTo_putBack hready₁ hds₁).trans ?_
  rintro _ ⟨s₂, rfl, hready₂, houts₂, hmem₂⟩
  refine (leadsTo_putc hready₂).trans ?_
  rintro ⟨_, s₃⟩ ⟨rfl, hback₃⟩
  refine (leadsTo_traced rfl (hback₃.ready hready₂)).trans ?_
  rintro ⟨_, s₄⟩ ⟨rfl, hback₄⟩
  refine Gate.leadsTo_block rfl (.now ⟨rfl, ?_, s₁.mem, fun a ha => hmem₁ a (hout a ha),
    fun a ha => ?_⟩)
  · exact ((hsent₁.trans (.refl houts₂)).trans hback₃.sent).trans hback₄.sent
  · rw [← hmem₂]
    exact (hback₄.stack.mem a (hout a ha)).trans (hback₃.stack.mem a (hout a ha))

/-! ### Whether it tells the truth -/

/-- The trace does not move the gate. -/
theorem isOpen_of_sent (h : Trace.Sent s s') : G.isOpen s' = G.isOpen s := by
  obtain ⟨os, hos, hall⟩ := h
  have hstays (g : Bool) : gateAfter G.fx g os = g := by
    clear hos
    induction os with
    | nil => rfl
    | cons o os ih =>
      rw [List.forall_mem_cons] at hall
      have hne : o.1 ≠ gatePort := by
        have := hall.1
        unfold gatePort
        omega
      rw [gateAfter, List.foldl_cons, if_neg hne]
      exact ih hall.2
  rw [Gate.isOpen, Gate.isOpen, hos, gateAfter, List.foldl_append]
  exact hstays _

/-- The answer in bootinfo is right, and the two probed bytes are as they were. -/
structure Told (G : Gate) (s s' : Cpu) : Prop where
  answer : s'.mem.load 1 (bootinfo + biA20) = 1 ↔ G.isOpen s' = true
  low : s'.mem 0x1FF0 = s.mem 0x1FF0
  high : s'.mem 0x11FF0 = s.mem 0x11FF0

/-- From `s`, the probe comes to its end with the right answer. -/
def TellsTruth (G : Gate) (k : Link Label) (s : Cpu) : Prop :=
  LeadsTo (G.step k code) (start, s) fun x => x.1 = a20Done ∧ Told G s x.2

/-- The probe says that the gate is open, and puts the two bytes back. -/
theorem leadsTo_answer (s : Cpu) :
    LeadsTo (G.step k code) (start, s) fun x => x.1 = a20Done ∧ G.isOpen x.2 = G.isOpen s ∧
      x.2.mem.load 1 (bootinfo + biA20) = 1 ∧ x.2.mem 0x1FF0 = s.mem 0x1FF0 ∧
      x.2.mem 0x11FF0 = s.mem 0x11FF0 := by
  refine (leadsTo_a20Done s).mono ?_
  rintro ⟨_, s'⟩ ⟨rfl, hsent, m, hm, hmem⟩
  dsimp only at hmem
  have hkept (a : ℕ) (hstack : a < 0x7F00 ∨ 0x7F00 + 0x10F0 ≤ a) (hne : a ≠ bootinfo + biA20)
      (hinfo : a < bootinfo ∨ bootinfo + biCpuidMax ≤ a) : s'.mem a = s.mem a := by
    rw [hmem a (outside_singleton.mpr hstack), Function.update_of_ne hne,
      Stage2.eqOutside_setupBootinfo m a (outside_singleton.mpr hinfo),
      hm a (outside_singleton.mpr hstack)]
  refine ⟨rfl, isOpen_of_sent hsent, ?_, hkept _ (by decide) (by decide) (by decide),
    hkept _ (by decide) (by decide) (by decide)⟩
  rw [load_one, hmem _ (outside_singleton.mpr (by decide)), Function.update_self]
  rfl

/-- The answer is the same for a closed gate, so the right one was about an open gate. -/
theorem TellsTruth.isOpen (h : TellsTruth G k s) : G.isOpen s = true := by
  obtain ⟨⟨_, s'⟩, hreach, rfl, htold⟩ := h
  obtain ⟨⟨_, s''⟩, hreach', rfl, hopen, hanswer, -, -⟩ := @leadsTo_answer G k s
  have hend : (a20Done, s') = (a20Done, s'') := hreach.halted_unique hreach' rfl rfl
  obtain rfl : s' = s'' := congrArg Prod.snd hend
  rw [← hopen]
  exact htold.answer.mp hanswer

/-- **The probe tells the truth about an open gate only.** -/
theorem tellsTruth_iff (G : Gate) (k : Link Label) (s : Cpu) :
    TellsTruth G k s ↔ G.isOpen s = true := by
  refine ⟨TellsTruth.isOpen, fun hopen => ?_⟩
  refine (leadsTo_answer s).mono ?_
  rintro ⟨_, s'⟩ ⟨rfl, hgate, hanswer, hlow, hhigh⟩
  exact ⟨rfl, ⟨fun _ => hgate.trans hopen, fun _ => hanswer⟩, hlow, hhigh⟩

/-- A gate that is closed, and that any byte written to its port opens. -/
def closedGate : Gate := ⟨false, fun _ _ => true⟩

/-- A machine that has just been started. -/
def startCpu : Cpu where
  eax := 0
  ebx := 0
  ecx := 0
  edx := 0
  esi := 0
  edi := 0
  ebp := 0
  esp := 0x7C00
  zf := false
  cf := false
  cr0 := 0
  cr3 := 0
  cr4 := 0
  idtr := ⟨0, 0⟩
  msr := fun _ => 0
  ins := fun _ => 0
  outs := []
  mem := fun _ => 0
  ds := 0
  es := 0
  ss := 0
  calls := []

/-- The labels, placed one after the other. -/
def consecutiveLink : Link Label where
  addr l := .ofNat 16 l.ctorIdx
  label a := Label.ofNat a.toNat
  label_addr l := by cases l <;> rfl

/-- A closed gate is not noticed, and not opened either. -/
theorem not_tellsTruth_closedGate : ¬TellsTruth closedGate consecutiveLink startCpu :=
  fun h => Bool.false_ne_true h.isOpen

end A20

end Qizo
