import Qizo.Kernel.Interrupt

/-!
# What an interrupted program notices

An interrupt enters through its gate, saves the state of the interrupted program, calls two C
functions and takes the state back. The functions may do whatever the calling convention allows:
they keep the callee-saved registers and their caller's stack frame, and nothing else is known
about them. They need not return either: `qizo_irq_handler` stops the machine for the exceptions,
the vectors below 32. The kernel is compiled without a red zone, so that what lies below the stack
pointer of the interrupted program is free.

## Main results

* `leadsTo_irqHandler` — from a stub to the first call, and what the handler is given
* `interrupt_transparent` — the interrupted program goes on in the state it was in, if C returns
-/

namespace Qizo

namespace Interrupt

open Amd64 Reg Operand StateTransition Memory Gate
open X64 (ld64 st64 ldByte)

variable {k : Link Label} {sym : Symbols} {s s' : Cpu} {m m' : Memory} {v : ℕ} {err : BitVec 64}
  {a area : BitVec 64} {fp : Fin fpBytes → UInt8}

/-! ### The x87 and SSE state -/

/-- The area at `a` holds the state `fp`. -/
def SavedAt (m : Memory) (a : BitVec 64) (fp : Fin fpBytes → UInt8) : Prop :=
  ∀ i : Fin fpBytes, ldByte m a i = fp i

theorem savedAt_fxsave (a : BitVec 64) (s : Cpu) : SavedAt (fxsave a s).mem a s.fp := by
  intro i
  have hlen : (List.ofFn s.fp).length ≤ 2 ^ 64 := by
    rw [List.length_ofFn, fpBytes]
    decide
  rw [fxsave_mem]
  exact X64.ldByte_stBytes hlen (by rw [List.getElem?_ofFn, dif_pos i.isLt])

theorem SavedAt.of_sameBytes (h : SavedAt m a fp) (hs : SameBytes m m' a fpBytes) :
    SavedAt m' a fp := fun i => (hs i i.isLt).trans (h i)

theorem SavedAt.fxrstor_fp (h : SavedAt s.mem a fp) : (fxrstor a s).fp = fp := funext h

theorem sameBut_fxsave (a : BitVec 64) (s : Cpu) : SameBut s.mem (fxsave a s).mem a fpBytes := by
  intro c hc
  rw [fxsave_mem]
  exact X64.stBytes_apply_of_le (by rwa [List.length_ofFn])

/-! ### The frame -/

/-- What is saved of the interrupted program, lowest word first. -/
def trapFrame (v : ℕ) (err : BitVec 64) (s : Cpu) : List (BitVec 64) :=
  (saved.map s.gpr).reverse ++ (.ofNat 64 v :: errorWord v err :: hardwareFrame s)

/-- Outside the area of the x87 and SSE state. -/
abbrev OutsideArea (area c : BitVec 64) : Prop := fpBytes ≤ (c - area).toNat

theorem alignedTop_mod (sp : BitVec 64) : (alignedTop sp).toNat % 16 = 0 := by
  have hmask : ~~~15#64 = -16#64 := by decide
  have hsp : sp = .ofNat 64 sp.toNat := by rw [BitVec.ofNat_toNat, BitVec.setWidth_eq]
  rw [alignedTop, hmask, hsp, X64.ofNat_and_neg_sixteen, BitVec.toNat_ofNat]
  omega

/-- Aligning a stack pointer that is aligned. -/
theorem and_neg_sixteen {sp : BitVec 64} (h : sp.toNat % 16 = 0) :
    sp &&& .ofNat 64 (2 ^ 64 - 16) = sp := by
  have hmask : BitVec.ofNat 64 (2 ^ 64 - 16) = -16#64 := by decide
  have hsp : sp = .ofNat 64 sp.toNat := by rw [BitVec.ofNat_toNat, BitVec.setWidth_eq]
  rw [hmask, hsp, X64.ofNat_and_neg_sixteen]
  congr 1
  omega

/-- **A stub** completes what the processor has pushed by the vector, and by a zero where there is
no error code. -/
theorem leadsTo_isrCommon {P : BitVec 64 → Prop} {t : BitVec 64} (hv : v < 256)
    (h : Stacked P t ((if hasErrorCode v then [err] else []) ++ hardwareFrame s) s s') :
    LeadsTo (step k (code sym)) (.stub (Fin.ofNat 256 v), s') fun x => x.1 = .isrCommon ∧
      Stacked P t (.ofNat 64 v :: errorWord v err :: hardwareFrame s) s x.2 := by
  have hval : (Fin.ofNat 256 v).val = v := Nat.mod_eq_of_lt hv
  have hpushed := h.stub
  refine leadsTo_block rfl (.now ?_)
  rw [stubBody, hval]
  cases hcode : hasErrorCode v with
  | true =>
    have hstub : stubHasCode v = true := hcode
    rw [hcode, if_pos rfl] at hpushed
    rw [if_pos (lt_of_hasErrorCode hcode), if_pos hstub]
    exact ⟨rfl, hpushed⟩
  | false =>
    have hstub : stubHasCode v = false := hcode
    rw [hcode, if_neg Bool.false_ne_true] at hpushed
    by_cases hlt : v < 32
    · rw [if_pos hlt, hstub, if_neg Bool.false_ne_true]
      exact ⟨rfl, hpushed⟩
    · rw [if_neg hlt]
      exact ⟨rfl, hpushed⟩

/-! ### The first call -/

@[simp] theorem length_trapFrame (v : ℕ) (err : BitVec 64) (s : Cpu) :
    (trapFrame v err s).length = 22 := rfl

/-- The place of the saved state. -/
def framePtr (s : Cpu) : BitVec 64 := alignedTop (s.gpr rsp) - 176#64

theorem framePtr_mod (s : Cpu) : (framePtr s).toNat % 16 = 0 := by
  have h := alignedTop_mod (s.gpr .rsp)
  rw [framePtr]
  generalize alignedTop (s.gpr .rsp) = t at h
  bv_omega

/-- The frame, the return address below it, and the area lie apart. -/
abbrev FrameApart (sym : Symbols) (s : Cpu) : Prop :=
  Apart (framePtr s - 8#64) 184 sym.fpArea fpBytes

/-- The interrupted state `s` is saved, and memory is as it was, apart from the bytes in `W`, the
frame with the return address below it, and the area. -/
structure Suspended (sym : Symbols) (v : ℕ) (err : BitVec 64) (W : BitVec 64 → Prop) (s x : Cpu) :
    Prop where
  rbp : x.gpr rbp = framePtr s
  frame : Words x.mem (framePtr s) (trapFrame v err s)
  fp : SavedAt x.mem sym.fpArea s.fp
  kept : ∀ c, ¬W c → 184 ≤ (c - (framePtr s - 8#64)).toNat → OutsideArea sym.fpArea c →
    x.mem c.toNat = s.mem c.toNat

/-- A C function is called, to return to `l`: the stack is aligned and the argument points at the
saved state. -/
structure Called (k : Link Label) (sym : Symbols) (v : ℕ) (err : BitVec 64) (W : BitVec 64 → Prop)
    (s : Cpu) (l : Label) (x : Cpu) : Prop extends Suspended sym v err W s x where
  rsp : x.gpr rsp = framePtr s - 8#64
  ret : x.top = k.addr l
  rdi : x.gpr rdi = framePtr s
  aligned : (x.gpr .rsp + 8#64).toNat % 16 = 0

variable {W : BitVec 64 → Prop} {l : Label} {x x' : Cpu}

/-- A call out of the shared code. -/
theorem Suspended.call (h : Suspended sym v err W s x) (hapart : FrameApart sym s)
    (hrsp : x.gpr rsp = framePtr s) (hrdi : x.gpr rdi = framePtr s) :
    Called k sym v err W s l (x.push (k.addr l)) := by
  have hstore := sameBut_st64 x.mem (framePtr s - 8#64) (k.addr l)
  have hmem : (x.push (k.addr l)).mem = st64 x.mem (framePtr s - 8#64) (k.addr l) := by
    rw [Cpu.push_mem, hrsp]
  have hsp : (x.push (k.addr l)).gpr rsp = framePtr s - 8#64 := by
    rw [Cpu.push_gpr, Function.update_self, hrsp]
  refine ⟨⟨?_, ?_, ?_, ?_⟩, hsp, ?_, ?_, ?_⟩
  · rw [Cpu.push_gpr, Function.update_of_ne (by decide), h.rbp]
  · rw [hmem]
    exact (hstore.sameBytes (b := framePtr s) (k := 176) ⟨by bv_omega, by bv_omega⟩).words h.frame
      (by rw [length_trapFrame])
  · rw [hmem]
    exact h.fp.of_sameBytes (hstore.sameBytes ⟨by have := hapart.1; omega, hapart.2⟩)
  · intro c hW hframe harea
    rw [hmem, hstore c (by omega), h.kept c hW hframe harea]
  · rw [Cpu.top, hmem, hsp]
    exact X64.ld64_st64 _
  · rw [Cpu.push_gpr, Function.update_of_ne (by decide), hrdi]
  · rw [hsp, BitVec.sub_add_cancel, framePtr_mod]

/-- **The shared code**, up to the first call. -/
theorem leadsTo_irqHandler (hapart : FrameApart sym s)
    (h : Stacked (OutsideArea sym.fpArea) (alignedTop (s.gpr .rsp))
      (.ofNat 64 v :: errorWord v err :: hardwareFrame s) s s') :
    LeadsTo (step k (code sym)) (.isrCommon, s') fun x => x.1 = .irqHandler ∧
      Called k sym v err W s .handlerBack x.2 := by
  have hptr : framePtr s = alignedTop (s.gpr .rsp) - 176#64 := rfl
  have hand : framePtr s &&& .ofNat 64 (2 ^ 64 - 16) = framePtr s :=
    and_neg_sixteen (framePtr_mod s)
  obtain ⟨hlow, hhigh⟩ := hapart
  rw [fpBytes] at hhigh
  generalize alignedTop (s.gpr .rsp) = t at h hptr
  -- The state of the x87 and SSE units goes to its area, which is not on the stack.
  have hstack : Apart sym.fpArea fpBytes (t - 56#64) 56 := by
    rw [hptr] at hlow hhigh
    rw [fpBytes]
    exact ⟨by bv_omega, by bv_omega⟩
  have hsame := sameBut_fxsave sym.fpArea s'
  have h₁ : Stacked (OutsideArea sym.fpArea) t (.ofNat 64 v :: errorWord v err :: hardwareFrame s)
      s (fxsave sym.fpArea s') := by
    refine ⟨h.rsp, ?_, h.gpr, h.fp, fun c hc hP => (hsame c hP).trans (h.kept c hc hP)⟩
    refine (hsame.sameBytes ?_).words h.words le_rfl
    have hsp : (fxsave sym.fpArea s').gpr .rsp = t - 56#64 := h.rsp
    rw [hsp]
    exact hstack
  have hsaved : rsp ∉ saved := by decide
  obtain ⟨s₂, hrun, h₂, -, hpushed⟩ := runBlock_pushAll (L := Label) h₁ hsaved
    (show 8 * (15 + 7) < 2 ^ 64 by decide)
  have hrsp₂ : s₂.gpr .rsp = framePtr s := by rw [hptr]; exact h₂.rsp
  have hfp : SavedAt s₂.mem sym.fpArea s.fp := by
    rw [← h.fp]
    refine (savedAt_fxsave sym.fpArea s').of_sameBytes (hpushed.sameBytes ?_)
    have hpushedlen : 8 * saved.length = 120 := rfl
    rw [hrsp₂, hpushedlen, fpBytes]
    exact ⟨by bv_omega, by bv_omega⟩
  refine leadsTo_block rfl (.now ?_)
  rw [runBlock, hrun]
  -- The frame is aligned already, so that the mask changes nothing.
  simp only [runBlock, cld, mov, Amd64.and, read_reg, read_imm, write_64_reg, BitVec.setWidth_eq,
    true_and, Cpu.set_gpr, Cpu.flags_gpr, ne_eq, reduceCtorEq, not_false_eq_true,
    Function.update_self, Function.update_of_ne, hrsp₂, hand]
  refine Suspended.call ⟨?_, ?_, ?_, ?_⟩ ⟨hlow, hhigh⟩ ?_ ?_
  · simp
  · rw [← hrsp₂]
    exact h₂.words
  · exact hfp
  · intro c _ hframe harea
    refine h₂.kept c ?_ harea
    rw [hrsp₂]
    exact le_of_sub_ofNat (n := 176) (k := 8) (by decide) hframe
  · simp
  · simp

/-! ### The way back -/

/-- The registers a C function gives back as it found them. -/
def calleeSaved : List Reg := [rbx, rbp, r12, r13, r14, r15]

/-- What is known of a C function that is called in `x` and returns in `x'`, when it writes to
bytes in `W` only. -/
structure Keeps (W : BitVec 64 → Prop) (x x' : Cpu) : Prop where
  rsp : x'.gpr rsp = x.gpr rsp + 8#64
  callee : ∀ r ∈ calleeSaved, x'.gpr r = x.gpr r
  kept : ∀ c, ¬W c → x'.mem c.toNat = x.mem c.toNat

/-- The bytes C writes to are not those where the interrupted state is saved. -/
structure Leaves (sym : Symbols) (s : Cpu) (W : BitVec 64 → Prop) : Prop where
  frame : ∀ c, W c → 176 ≤ (c - framePtr s).toNat
  area : ∀ c, W c → fpBytes ≤ (c - sym.fpArea).toNat

/-- C gives the saved state back. -/
theorem Called.back (h : Called k sym v err W s l x) (hW : Leaves sym s W) (hx : Keeps W x x') :
    Suspended sym v err W s x' ∧ x'.gpr .rsp = framePtr s := by
  have hbytes {a : BitVec 64} {n : ℕ} (hn : n ≤ 2 ^ 64) (ha : ∀ c, W c → n ≤ (c - a).toNat) :
      SameBytes x.mem x'.mem a n := by
    intro i hi
    refine hx.kept _ fun hc => absurd (ha _ hc) ?_
    bv_omega
  refine ⟨⟨?_, ?_, ?_, ?_⟩, ?_⟩
  · rw [hx.callee rbp (by decide), h.rbp]
  · exact (hbytes (by decide) hW.frame).words h.frame (by rw [length_trapFrame])
  · exact h.fp.of_sameBytes (hbytes (by decide) hW.area)
  · intro c hc hframe harea
    rw [hx.kept c hc, h.kept c hc hframe harea]
  · rw [hx.rsp, h.rsp, BitVec.sub_add_cancel]

/-- From the first call to the second. -/
theorem leadsTo_irqEoi (h : Suspended sym v err W s x) (hapart : FrameApart sym s)
    (hrsp : x.gpr rsp = framePtr s) :
    LeadsTo (step k (code sym)) (.handlerBack, x) fun y => y.1 = .irqEoi ∧
      Called k sym v err W s .eoiBack y.2 := by
  refine leadsTo_block rfl (.now ?_)
  simp only [runBlock, mov, read_reg, write_64_reg, BitVec.setWidth_eq, true_and, h.rbp]
  refine Suspended.call ⟨?_, h.frame, h.fp, h.kept⟩ hapart ?_ ?_
  · simp [h.rbp]
  · simp [hrsp]
  · simp

/-- The interrupted program goes on from `s` in state `x`. -/
structure Resumed (sym : Symbols) (W : BitVec 64 → Prop) (s x : Cpu) : Prop where
  gpr : x.gpr = s.gpr
  rflags : x.rflags = s.rflags
  rip : x.rip = s.rip
  cs : x.cs = s.cs
  ss : x.ss = s.ss
  fp : x.fp = s.fp
  kept : ∀ c, ¬W c → 184 ≤ (c - (framePtr s - 8#64)).toNat → OutsideArea sym.fpArea c →
    x.mem c.toNat = s.mem c.toNat

/-- **The way back**, from the second call. -/
theorem leadsTo_resumed (h : Suspended sym v err W s x) :
    LeadsTo (step k (code sym)) (.eoiBack, x) fun y => y.1 = k.label s.rip ∧
      Resumed sym W s y.2 := by
  have hframe : Words x.mem (framePtr s)
      (saved.reverse.map s.gpr ++ (.ofNat 64 v :: errorWord v err :: hardwareFrame s)) := by
    have := h.frame
    rwa [trapFrame, ← List.map_reverse] at this
  have hsaved : rsp ∉ saved.reverse := by decide
  -- The registers come off the stack in the opposite order.
  obtain ⟨x₁, hrun, hx₁, hws⟩ := runBlock_popAll (L := Label)
    (s := fxrstor sym.fpArea (x.set .rsp (framePtr s))) hsaved (by simpa [fxrstor] using hframe)
  refine leadsTo_block rfl (.now ?_)
  simp only [runBlock, mov, read_reg, write_64_reg, BitVec.setWidth_eq, h.rbp]
  rw [hrun]
  set x₂ := Amd64.add 64 (imm 16) rsp x₁ with hx₂
  have hmem₂ : x₂.mem = x.mem := by
    rw [hx₂, Amd64.add, write_64_reg, Cpu.flags_mem, Cpu.set_mem, hx₁.mem]
    rfl
  have hrsp₂ : x₂.gpr .rsp = x₁.gpr .rsp + 8#64 + 8#64 := by
    simp [hx₂, Amd64.add, BitVec.add_assoc]
  have hgpr₂ : ∀ r, r ≠ .rsp → x₂.gpr r = s.gpr r := by
    intro r hr
    have hmem : r ∈ saved.reverse := by
      cases r <;> first | exact absurd rfl hr | decide
    simp [hx₂, Amd64.add, hr, hx₁.loaded r hmem]
  have hwords : Words x₂.mem (x₂.gpr .rsp) (hardwareFrame s) := by
    have hmem : x₂.mem = x₁.mem := by
      rw [hx₂, Amd64.add, write_64_reg, Cpu.flags_mem, Cpu.set_mem]
    rw [hmem, hrsp₂]
    exact hws.2.2
  have hfp₂ : x₂.fp = s.fp := by
    have hadd : x₂.fp = x₁.fp := by
      rw [hx₂, Amd64.add, write_64_reg]
      rfl
    rw [hadd, hx₁.fp]
    exact SavedAt.fxrstor_fp h.fp
  simp only [runBlock, ← hx₂, iretq_eq hwords, true_and]
  refine ⟨?_, rfl, rfl, rfl, rfl, hfp₂, ?_⟩
  · funext r
    rw [Cpu.set_gpr]
    by_cases hr : r = .rsp
    · rw [hr, Function.update_self]
    · rw [Function.update_of_ne hr, hgpr₂ r hr]
  · intro c hc hframe harea
    exact (congrFun hmem₂ _).trans (h.kept c hc hframe harea)

/-! ### The whole interrupt -/

/-- The kernel with its C functions. `c` says what they do to the state, if they return. -/
def system (k : Link Label) (sym : Symbols) (c : Label → Cpu → Option Cpu) (y : Label × Cpu) :
    Option (Label × Cpu) :=
  match y.1 with
  | .irqHandler => (c .irqHandler y.2).map fun x => (k.label y.2.top, x)
  | .irqEoi => (c .irqEoi y.2).map fun x => (k.label y.2.top, x)
  | _ => step k (code sym) y

theorem step_le_system (c : Label → Cpu → Option Cpu) (y z : Label × Cpu)
    (h : step k (code sym) y = some z) : system k sym c y = some z := by
  obtain ⟨l, x⟩ := y
  cases l <;> first | exact h | simp [step, code] at h

/-- A C function that was called for the interrupt does not return. -/
inductive Stopped (k : Link Label) (sym : Symbols) (c : Label → Cpu → Option Cpu) (v : ℕ)
    (err : BitVec 64) (W : BitVec 64 → Prop) (s : Cpu) : Label × Cpu → Prop
  | irqHandler {x : Cpu} (hcalled : Called k sym v err W s .handlerBack x)
      (hstop : c .irqHandler x = none) : Stopped k sym c v err W s (.irqHandler, x)
  | irqEoi {x : Cpu} (hcalled : Called k sym v err W s .eoiBack x)
      (hstop : c .irqEoi x = none) : Stopped k sym c v err W s (.irqEoi, x)

/-- **Interrupts are transparent**, unless one of the two C functions does not return. -/
theorem interrupt_transparent {c : Label → Cpu → Option Cpu} (hv : v < 256)
    (hgates : Gates s.mem s.idtr.toNat (stubGate k) 256) (hapart : FrameApart sym s)
    (hW : Leaves sym s W)
    (hhandler : ∀ x, Called k sym v err W s .handlerBack x →
      ∀ x', c .irqHandler x = some x' → Keeps W x x')
    (heoi : ∀ x, Called k sym v err W s .eoiBack x →
      ∀ x', c .irqEoi x = some x' → Keeps W x x') :
    LeadsTo (system k sym c) (k.label (deliver v err s).rip, deliver v err s) fun y =>
      y.1 = k.label s.rip ∧ Resumed sym W s y.2 ∨ Stopped k sym c v err W s y := by
  rw [label_deliver (hgates v hv)]
  have hle := @step_le_system k sym c
  have hpushed := stacked_deliver (P := OutsideArea sym.fpArea) v err s
  refine ((leadsTo_isrCommon hv hpushed).step_mono hle).trans ?_
  rintro ⟨_, x₁⟩ ⟨rfl, hx₁⟩
  refine ((leadsTo_irqHandler (W := W) hapart hx₁).step_mono hle).trans ?_
  rintro ⟨_, x₂⟩ ⟨rfl, hx₂⟩
  cases hret : c .irqHandler x₂ with
  | none => exact .now (.inr (.irqHandler hx₂ hret))
  | some x₃ =>
    obtain ⟨hx₃, hrsp₃⟩ := hx₂.back hW (hhandler _ hx₂ _ hret)
    refine LeadsTo.head (y := (.handlerBack, x₃)) ?_ ?_
    · rw [system, hret, Option.map_some, hx₂.ret, k.label_addr]
    refine ((leadsTo_irqEoi hx₃ hapart hrsp₃).step_mono hle).trans ?_
    rintro ⟨_, x₄⟩ ⟨rfl, hx₄⟩
    cases hret' : c .irqEoi x₄ with
    | none => exact .now (.inr (.irqEoi hx₄ hret'))
    | some x₅ =>
      have hx₅ := (hx₄.back hW (heoi _ hx₄ _ hret')).1
      refine LeadsTo.head (y := (.eoiBack, x₅)) ?_ ?_
      · rw [system, hret', Option.map_some, hx₄.ret, k.label_addr]
      exact ((leadsTo_resumed hx₅).step_mono hle).mono fun _ hy => .inl hy

/-- A program that runs with the table installed. -/
def runningState : Cpu :=
  installState.setMem (fill gateStored (stubAddr placement) 0 (fun _ => 0) 256)

/-- The timer interrupts it, and C only returns. -/
theorem interrupt_transparent_runningState :
    LeadsTo (system placement ⟨0, 0x1000, 0x800, 0x3000#64⟩ fun _ x => some x.drop)
      (placement.label (deliver 32 0#64 runningState).rip, deliver 32 0#64 runningState) fun y =>
        y.1 = placement.label runningState.rip ∧
          Resumed ⟨0, 0x1000, 0x800, 0x3000#64⟩ (fun _ => False) runningState y.2 := by
  have hdrop : ∀ x x' : Cpu, some x.drop = some x' → Keeps (fun _ => False) x x' := by
    rintro x _ ⟨⟩
    exact ⟨rfl, fun r hr => Function.update_of_ne (by rintro rfl; exact absurd hr (by decide)) _ _,
      fun _ _ => rfl⟩
  have hgates : Gates runningState.mem 0 (stubGate placement) 256 :=
    gates_fill eqOutside_gateStored fun _ _ _ _ => gateAt_gateStored (BitVec.isLt _)
  refine (interrupt_transparent (by decide) hgates ⟨by decide, by decide⟩
    ⟨fun _ h => h.elim, fun _ h => h.elim⟩ (fun x _ => hdrop x) (fun x _ => hdrop x)).mono ?_
  rintro y (hresumed | ⟨-, hstop⟩ | ⟨-, hstop⟩)
  · exact hresumed
  · cases hstop
  · cases hstop

end Interrupt

end Qizo
