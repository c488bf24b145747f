import Qizo.Kernel.Kbd
import Qizo.Kernel.Mouse
import Qizo.Lib.Pic

/-!
# The interrupts of devices

`kernel/main.c`: the set-up of the two interrupt controllers, the handler and the end of an
interrupt. `pic_init` sends eight bytes of set-up and a mask for each controller. The second
controller has not had its fourth word when its mask comes, and takes the mask for it; so all its
lines stay open. The mask of the first one closes the line the second one is on.

A run is any sequence of requests of devices and of what the processor does: it takes an interrupt
while it runs with interrupts on, the handler runs, and then the controllers are told. Both run with
interrupts off, so that there is one interrupt at a time; requests come at any moment. The
exceptions of the processor are not part of a run, and neither is what the interrupted program does
to the keyboard and the mouse (`qizo_kbd_get`, `qizo_mouse_start` and the like).

## Main results

* `Served.step` — what every step keeps
* `irqs_served` — timer and keyboard are heard whatever happens, and the mouse never
-/

namespace Qizo

namespace Irq

open Pic

/-! ### Code -/

/-- The static variables the handlers change. -/
structure Kernel where
  /-- `ticks`. -/
  ticks : UInt64
  /-- `keyboard_irqs`. -/
  keyboardIrqs : UInt64
  /-- `spurious`. -/
  spurious : UInt64
  /-- The keyboard. -/
  kbd : Kbd.State
  /-- The mouse. -/
  mouse : Mouse.State

/-- `qizo_io_wait`. -/
def ioWait : ℕ × UInt8 := (0x80, 0)

/-- `pic_init`. -/
def picInit : List (ℕ × UInt8) :=
  [(0x20, 0x11), ioWait, (0xA0, 0x11), ioWait, (0x21, 0x20), ioWait, (0xA1, 0x28), ioWait,
    (0x21, 0x04), ioWait, (0xA1, 0x02), ioWait, (0x21, 0x01), ioWait, (0xA1, 0xEF), ioWait,
    (0x21, 0xFC), ioWait]

/-- `qizo_irq_handler`, with what it reads from the ports of the keyboard controller; it does not
come back from an exception. -/
def irqHandler (vector : ℕ) (status data : UInt8) (k : Kernel) : Option Kernel :=
  if vector < 32 then none
  else if vector = 32 then some { k with ticks := k.ticks + 1 }
  else if vector = 33 then
    let k := { k with keyboardIrqs := k.keyboardIrqs + 1 }
    some (if status &&& 1 ≠ 0 then { k with kbd := Kbd.kbdInterrupt k.kbd data } else k)
  else if vector = 44 then
    some (if status &&& 0x21 = 0x21 then { k with mouse := Mouse.mouseInterrupt k.mouse data }
      else k)
  else some { k with spurious := k.spurious + 1 }

/-- `qizo_irq_eoi`. -/
def irqEoi (vector : ℕ) : List (ℕ × UInt8) :=
  if 32 ≤ vector ∧ vector < 48 then
    (if 40 ≤ vector then [(0xA0, 0x20)] else []) ++ [(0x20, 0x20)]
  else []

/-! ### Runs -/

/-- What the processor is doing. -/
inductive Phase where
  /-- It runs with interrupts on. -/
  | running
  /-- It has taken an interrupt. -/
  | taken (vector : ℕ)
  /-- The handler has come back. -/
  | handled (vector : ℕ)
  /-- An exception was reported. -/
  | halted
  deriving DecidableEq

/-- The machine, and what has happened so far. -/
structure World where
  pics : Pair
  kernel : Kernel
  phase : Phase
  /-- The vectors that were handled. -/
  log : List ℕ
  /-- The scan codes that were read. -/
  codes : List UInt8

/-- What can happen. -/
inductive Act where
  /-- A device makes a request, or withdraws it. -/
  | request (line : Fin 16) (b : Bool)
  /-- The processor takes an interrupt. The request may have been withdrawn. -/
  | accept
  /-- The handler runs. -/
  | handle (status data : UInt8)
  /-- The controllers are told. -/
  | eoi

/-- One step. What cannot happen now changes nothing. -/
def step (w : World) (a : Act) : World :=
  match a, w.phase with
  | .request line b, _ => { w with pics := w.pics.setRequest line b }
  | .accept, .running =>
    { w with pics := w.pics.acknowledge.2, phase := .taken w.pics.acknowledge.1 }
  | .handle status data, .taken v =>
    match irqHandler v status data w.kernel with
    | some k =>
      { w with
        kernel := k
        phase := .handled v
        log := w.log ++ [v]
        codes := if v = 33 ∧ status &&& 1 ≠ 0 then w.codes ++ [data] else w.codes }
    | none => { w with phase := .halted }
  | .eoi, .handled v => { w with pics := (irqEoi v).foldl Pair.outb w.pics, phase := .running }
  | _, _ => w

/-- Several steps. -/
def runs (w : World) (acts : List Act) : World := acts.foldl step w

/-- Interrupts go on, behind `pic_init`. -/
def start (p : Pair) (k : Kernel) : World := ⟨picInit.foldl Pair.outb p, k, .running, [], []⟩

/-! ### The invariant -/

variable {w : World} {k₀ : Kernel} {v : ℕ}

/-- The line in service for a vector. A spurious interrupt is not in service. -/
def serving (v : ℕ) : Lines := fun i => v == 32 + i && v != 39

/-- The first controller is set up for timer and keyboard. -/
structure Wired (c : Chip) : Prop where
  base : c.base = 32
  mask : c.mask = fun i => decide (2 ≤ i)
  autoEoi : c.autoEoi = false

/-- One of the vectors that occur. -/
def Known (v : ℕ) : Prop := v = 32 ∨ v = 33 ∨ v = 39

/-- What is in service is what the processor is busy with. -/
def InService (c : Chip) : Phase → Prop
  | .running => c.service = fun _ => false
  | .taken v | .handled v => Known v ∧ c.service = serving v
  | .halted => False

/-- Every interrupt so far was the timer's, the keyboard's or spurious, and had its effect. -/
structure Served (k₀ : Kernel) (w : World) : Prop where
  wired : Wired w.pics.master
  phase : InService w.pics.master w.phase
  known : ∀ v ∈ w.log, Known v
  ticks : w.kernel.ticks = k₀.ticks + .ofNat (w.log.count 32)
  keyboardIrqs : w.kernel.keyboardIrqs = k₀.keyboardIrqs + .ofNat (w.log.count 33)
  spurious : w.kernel.spurious = k₀.spurious + .ofNat (w.log.count 39)
  kbd : w.kernel.kbd = Kbd.feed k₀.kbd w.codes
  mouse : w.kernel.mouse = k₀.mouse

theorem master_picInit (p : Pair) : (picInit.foldl Pair.outb p).master =
    { p.master with
      base := 32
      mask := fun i => (0xFC : UInt8).toNat.testBit i
      request := fun _ => false
      service := fun _ => false
      autoEoi := false
      expect := .mask
      single := false
      fourth := true } := rfl

theorem served_start (p : Pair) (k₀ : Kernel) : Served k₀ (start p k₀) where
  wired := by
    refine ⟨?_, ?_, ?_⟩
    · rw [start, master_picInit]
    · rw [start, master_picInit]
      funext i
      revert i
      decide
    · rw [start, master_picInit]
  phase := by
    rw [start, master_picInit]
    rfl
  known := by simp [start]
  ticks := by simp [start]
  keyboardIrqs := by simp [start]
  spurious := by simp [start]
  kbd := rfl
  mouse := rfl

/-! ### Steps -/

/-- A request changes nothing else of the first controller. -/
theorem master_setRequest (p : Pair) (line : Fin 16) (b : Bool) :
    ∃ r, (p.setRequest line b).master = { p.master with request := r } := by
  rw [Pair.setRequest]
  split
  · exact ⟨_, rfl⟩
  · exact ⟨p.master.request, rfl⟩

theorem Wired.setRequest {c : Chip} (h : Wired c) (r : Lines) : Wired { c with request := r } :=
  ⟨h.base, h.mask, h.autoEoi⟩

/-- The vector that is next: the timer goes first, and then the keyboard. -/
def nextVector (r : Lines) : ℕ := if r line0 then 32 else if r line1 then 33 else 39

theorem known_nextVector (r : Lines) : Known (nextVector r) := by
  rw [nextVector]
  split
  · exact .inl rfl
  · split
    · exact .inr (.inl rfl)
    · exact .inr (.inr rfl)

variable {p : Pair}

/-- The line the second controller is on is masked. -/
theorem pending_upper (h : Wired p.master) (hs : p.master.service = fun _ => false) :
    p.upper.pending = if p.master.request 0 then some 0 else if p.master.request 1 then some 1
      else none := by
  have hidle : ∀ i, p.upper.service i = false := fun i => congrFun hs i
  have hmask : ∀ i, p.upper.mask i = decide (2 ≤ i) := fun i => congrFun h.mask i
  have hreq : ∀ i, i ≠ 2 → p.upper.request i = p.master.request i := fun _ =>
    Pair.upper_request_of_ne
  split
  · refine (Chip.pending_eq_some_iff_of_idle hidle).mpr ⟨⟨?_, ?_⟩, fun j hj => ?_⟩
    · rwa [hreq 0 (by decide)]
    · rw [hmask]
      rfl
    · exact absurd hj (Nat.not_lt_zero _)
  · split
    · refine (Chip.pending_eq_some_iff_of_idle hidle).mpr ⟨⟨?_, ?_⟩, fun j hj hj' => ?_⟩
      · rwa [hreq 1 (by decide)]
      · rw [hmask]
        rfl
      · obtain rfl : j = 0 := by omega
        rw [hreq 0 (by decide)] at hj'
        exact absurd hj' ‹_›
    · refine (Chip.pending_eq_none_iff_of_idle hidle).mpr fun i hi => ?_
      rw [hmask, decide_eq_true_eq]
      by_contra hlt
      have hcase : i = 0 ∨ i = 1 := by omega
      rw [hreq i (by rintro rfl; exact hlt le_rfl)] at hi
      rcases hcase with rfl | rfl
      · exact absurd hi ‹_›
      · exact absurd hi ‹_›

/-- **Taking an interrupt.** -/
theorem acknowledge_running (h : Wired p.master) (hs : p.master.service = fun _ => false) :
    p.acknowledge.1 = nextVector p.master.request ∧ Wired p.acknowledge.2.master ∧
      p.acknowledge.2.master.service = serving (nextVector p.master.request) ∧
      (p.master.request 1 = true → nextVector p.master.request ≠ 33 →
        p.acknowledge.2.master.request 1 = true) := by
  have hpending := pending_upper h hs
  have hone : p.upper.request 1 = p.master.request 1 := Pair.upper_request_of_ne (by decide)
  have hserving0 : Function.update (fun _ => false) 0 true = serving 32 := by
    funext i
    revert i
    decide
  have hserving1 : Function.update (fun _ => false) 1 true = serving 33 := by
    funext i
    revert i
    decide
  have hserving : (fun _ => false) = serving 39 := by
    funext i
    revert i
    decide
  rw [nextVector]
  split at hpending
  · rw [Pair.acknowledge_of_some hpending (by decide) h.autoEoi, h.base, hs, if_pos ‹_›]
    refine ⟨rfl, ⟨h.base, h.mask, h.autoEoi⟩, hserving0, fun h1 _ => ?_⟩
    have hkeep : Function.update p.upper.request 0 false 1 = true := by
      rw [Function.update_of_ne (by decide), hone, h1]
    exact hkeep
  · rw [if_neg ‹_›]
    split at hpending
    · rw [Pair.acknowledge_of_some hpending (by decide) h.autoEoi, h.base, hs, if_pos ‹_›]
      exact ⟨rfl, ⟨h.base, h.mask, h.autoEoi⟩, hserving1, fun _ hne => absurd rfl hne⟩
    · rw [Pair.acknowledge_of_none hpending, h.base, if_neg ‹_›]
      exact ⟨rfl, ⟨h.base, h.mask, h.autoEoi⟩, hs.trans hserving, fun h1 _ => absurd h1 ‹_›⟩

/-- **The end of an interrupt.** Nothing is in service behind it. -/
theorem master_eoi (hv : Known v) (hs : p.master.service = serving v) :
    ((irqEoi v).foldl Pair.outb p).master = { p.master with service := fun _ => false } := by
  have hone : ∀ j, p.master.service j = true → j = if v = 33 then 1 else 0 := by
    intro j
    rw [hs]
    rcases hv with rfl | rfl | rfl
    all_goals
      revert j
      decide
  have heoi : irqEoi v = [(0x20, 0x20)] := by
    rcases hv with rfl | rfl | rfl <;> rfl
  have hcommand := Chip.command_eoi hone
  rw [heoi]
  exact hcommand

/-- **The handler** of a vector that occurs. -/
theorem irqHandler_known (hv : Known v) (status data : UInt8) (k : Kernel) :
    irqHandler v status data k = some
      { k with
        ticks := k.ticks + .ofNat ([v].count 32)
        keyboardIrqs := k.keyboardIrqs + .ofNat ([v].count 33)
        spurious := k.spurious + .ofNat ([v].count 39)
        kbd := if v = 33 ∧ status &&& 1 ≠ 0 then Kbd.kbdInterrupt k.kbd data else k.kbd } := by
  rcases hv with rfl | rfl | rfl
  · simp [irqHandler]
  · by_cases hstatus : status &&& 1 = 0
    · simp [irqHandler, hstatus]
    · simp [irqHandler, hstatus]
  · simp [irqHandler]

/-- **What every step keeps.** -/
theorem Served.step (h : Served k₀ w) (a : Act) : Served k₀ (step w a) := by
  cases a with
  | request line b =>
    obtain ⟨r, hr⟩ := master_setRequest w.pics line b
    have hphase := h.phase
    refine ⟨?_, ?_, h.known, h.ticks, h.keyboardIrqs, h.spurious, h.kbd, h.mouse⟩
    · simp only [Irq.step]
      rw [hr]
      exact h.wired.setRequest r
    · simp only [Irq.step]
      rw [hr]
      cases hw : w.phase
      all_goals
        rw [hw] at hphase
        exact hphase
  | accept =>
    cases hw : w.phase with
    | running =>
      have hphase := h.phase
      rw [hw] at hphase
      obtain ⟨hv, hwired, hserve, -⟩ := acknowledge_running h.wired hphase
      simp only [Irq.step, hw]
      refine ⟨hwired, ?_, h.known, h.ticks, h.keyboardIrqs, h.spurious, h.kbd, h.mouse⟩
      dsimp only
      rw [hv]
      exact ⟨known_nextVector _, hserve⟩
    | taken v => simpa only [Irq.step, hw] using h
    | handled v => simpa only [Irq.step, hw] using h
    | halted => simpa only [Irq.step, hw] using h
  | handle status data =>
    cases hw : w.phase with
    | taken v =>
      have hphase := h.phase
      rw [hw] at hphase
      simp only [Irq.step, hw, irqHandler_known hphase.1]
      refine ⟨h.wired, hphase, ?_, ?_, ?_, ?_, ?_, h.mouse⟩
      · intro u hu
        rcases List.mem_append.mp hu with hu | hu
        · exact h.known u hu
        · exact List.mem_singleton.mp hu ▸ hphase.1
      · simp only [List.count_append, UInt64.ofNat_add, h.ticks, UInt64.add_assoc]
      · simp only [List.count_append, UInt64.ofNat_add, h.keyboardIrqs, UInt64.add_assoc]
      · simp only [List.count_append, UInt64.ofNat_add, h.spurious, UInt64.add_assoc]
      · dsimp only
        split
        · rw [h.kbd, Kbd.feed, Kbd.feed, List.foldl_append]
          rfl
        · exact h.kbd
    | running => simpa only [Irq.step, hw] using h
    | handled v => simpa only [Irq.step, hw] using h
    | halted => simpa only [Irq.step, hw] using h
  | eoi =>
    cases hw : w.phase with
    | handled v =>
      have hphase := h.phase
      rw [hw] at hphase
      have hmaster := master_eoi hphase.1 hphase.2
      simp only [Irq.step, hw]
      refine ⟨?_, ?_, h.known, h.ticks, h.keyboardIrqs, h.spurious, h.kbd, h.mouse⟩
      · dsimp only
        rw [hmaster]
        exact ⟨h.wired.base, h.wired.mask, h.wired.autoEoi⟩
      · dsimp only
        rw [hmaster]
        rfl
    | running => simpa only [Irq.step, hw] using h
    | taken v => simpa only [Irq.step, hw] using h
    | halted => simpa only [Irq.step, hw] using h

theorem served_runs (p : Pair) (k₀ : Kernel) (acts : List Act) :
    Served k₀ (runs (start p k₀) acts) := by
  induction acts using List.reverseRecOn with
  | nil => exact served_start p k₀
  | append_singleton acts a ih =>
    rw [runs, List.foldl_append]
    exact ih.step a

/-- A request of the keyboard that is not withdrawn waits until it is taken. -/
theorem keyboard_waits (h : Served k₀ w) (hkey : w.pics.master.request 1 = true) (a : Act)
    (ha : ∀ b, a ≠ .request 1 b) :
    (step w a).pics.master.request 1 = true ∨
      a = .accept ∧ w.phase = .running ∧ (step w a).phase = .taken 33 := by
  cases a with
  | request line b =>
    have hline : line ≠ 1 := fun heq => ha b (heq ▸ rfl)
    left
    simp only [Irq.step, Pair.setRequest]
    split
    · have hother : (1 : Fin 8) ≠ Fin.ofNat 8 line := by
        intro heq
        have hval : (1 : ℕ) = line.val % 8 := congrArg Fin.val heq
        exact hline (Fin.ext (by rw [Nat.mod_eq_of_lt ‹line.val < 8›] at hval; exact hval.symm))
      exact (Function.update_of_ne hother b w.pics.master.request).trans hkey
    · exact hkey
  | accept =>
    cases hw : w.phase with
    | running =>
      have hphase := h.phase
      rw [hw] at hphase
      obtain ⟨hv, -, -, hkept⟩ := acknowledge_running h.wired hphase
      simp only [Irq.step, hw, hv]
      by_cases hnext : nextVector w.pics.master.request = 33
      · exact .inr ⟨trivial, trivial, by rw [hnext]⟩
      · exact .inl (hkept hkey hnext)
    | taken v => exact .inl (by simpa only [Irq.step, hw] using hkey)
    | handled v => exact .inl (by simpa only [Irq.step, hw] using hkey)
    | halted => exact .inl (by simpa only [Irq.step, hw] using hkey)
  | handle status data =>
    left
    cases hw : w.phase with
    | taken v =>
      simp only [Irq.step, hw]
      split <;> exact hkey
    | running => simpa only [Irq.step, hw] using hkey
    | handled v => simpa only [Irq.step, hw] using hkey
    | halted => simpa only [Irq.step, hw] using hkey
  | eoi =>
    left
    cases hw : w.phase with
    | handled v =>
      have hphase := h.phase
      rw [hw] at hphase
      simp only [Irq.step, hw, master_eoi hphase.1 hphase.2]
      exact hkey
    | running => simpa only [Irq.step, hw] using hkey
    | taken v => simpa only [Irq.step, hw] using hkey
    | halted => simpa only [Irq.step, hw] using hkey

/-- **Timer and keyboard are served, and nothing else.** Whatever the devices do and whenever the
processor takes an interrupt: every interrupt has been the timer's, the keyboard's or spurious, has
had its effect, and none of them an effect on the mouse; with interrupts on, a request of the timer
is taken at once, and one of the keyboard if there is none of the timer; and one of the keyboard
waits until then. -/
theorem irqs_served (p : Pair) (k₀ : Kernel) (acts : List Act) :
    Served k₀ (runs (start p k₀) acts) ∧
      ((runs (start p k₀) acts).phase = .running →
        (step (runs (start p k₀) acts) .accept).phase =
          .taken (nextVector (runs (start p k₀) acts).pics.master.request)) ∧
      ((runs (start p k₀) acts).pics.master.request 1 = true → ∀ a, (∀ b, a ≠ .request 1 b) →
        (step (runs (start p k₀) acts) a).pics.master.request 1 = true ∨
          a = .accept ∧ (runs (start p k₀) acts).phase = .running ∧
            (step (runs (start p k₀) acts) a).phase = .taken 33) := by
  have h := served_runs p k₀ acts
  generalize runs (start p k₀) acts = w at h
  refine ⟨h, fun hw => ?_, fun hkey a ha => keyboard_waits h hkey a ha⟩
  have hphase := h.phase
  rw [hw] at hphase
  simp only [step, hw, (acknowledge_running h.wired hphase).1]

end Irq

end Qizo
