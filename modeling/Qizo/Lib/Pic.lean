import Mathlib.Data.Fin.Tuple.Basic

/-!
# A pair of interrupt controllers

Two 8259 controllers, the second on line 2 of the first. A controller is set up by a sequence of
bytes, of which all but the first go to its data port; what such a byte means depends on how far
the sequence has come. Once it is through, a byte for the data port is the mask.

A line with a request is served if it is not masked and no line of the same or a higher priority is
in service. A line stays in service until the controller is told that its interrupt is over, or not
at all where interrupts are over by themselves. A request that is withdrawn before it is served
makes a spurious interrupt on line 7.

Rotating priorities, the special modes and the reading of registers are not modelled.
-/

namespace Pic

/-- A set of lines. -/
abbrev Lines := Fin 8 → Bool

/-- The line of the highest priority. -/
abbrev line0 : Fin 8 := 0

/-- The line after it. -/
abbrev line1 : Fin 8 := 1

/-- What the next byte for the data port is: one of the command words of the set-up, or the mask. -/
inductive Expect where
  | icw2 | icw3 | icw4 | mask
  deriving DecidableEq, Repr

/-- One controller. -/
structure Chip where
  /-- The vector of line 0. -/
  base : ℕ
  /-- The lines that are masked. -/
  mask : Lines
  /-- The lines with a request. -/
  request : Lines
  /-- The lines in service. -/
  service : Lines
  /-- Interrupts are over by themselves. -/
  autoEoi : Bool
  /-- The next byte for the data port. -/
  expect : Expect
  /-- The set-up has no third word. -/
  single : Bool
  /-- The set-up has a fourth word. -/
  fourth : Bool

namespace Chip

/-- A byte for the command port. -/
def command (c : Chip) (v : UInt8) : Chip :=
  if v &&& 0x10 ≠ 0 then
    { c with
      mask := fun _ => false
      request := fun _ => false
      service := fun _ => false
      autoEoi := false
      expect := .icw2
      single := v &&& 0x02 != 0
      fourth := v &&& 0x01 != 0 }
  else if v &&& 0x08 ≠ 0 then c
  else if v &&& 0xE0 = 0x20 then
    match Fin.find? c.service with
    | some i => { c with service := Function.update c.service i false }
    | none => c
  else if v &&& 0xE0 = 0x60 then
    { c with service := Function.update c.service (Fin.ofNat 8 v.toNat) false }
  else c

/-- A byte for the data port. -/
def data (c : Chip) (v : UInt8) : Chip :=
  match c.expect with
  | .icw2 =>
    { c with
      base := (v &&& 0xF8).toNat
      expect := if !c.single then .icw3 else if c.fourth then .icw4 else .mask }
  | .icw3 => { c with expect := if c.fourth then .icw4 else .mask }
  | .icw4 => { c with autoEoi := v &&& 0x02 != 0, expect := .mask }
  | .mask => { c with mask := fun i => v.toNat.testBit i }

/-- A line makes a request, or withdraws it. -/
def setRequest (c : Chip) (i : Fin 8) (b : Bool) : Chip :=
  { c with request := Function.update c.request i b }

/-- The line that is served next. -/
def pending (c : Chip) : Option (Fin 8) :=
  match Fin.find? fun i => c.request i && !c.mask i with
  | some i => if (Fin.find? c.service).any (· ≤ i) then none else some i
  | none => none

/-- The processor takes an interrupt: its vector. -/
def acknowledge (c : Chip) : ℕ × Chip :=
  match c.pending with
  | some i =>
    (c.base + i,
      { c with
        request := Function.update c.request i false
        service := if c.autoEoi then c.service else Function.update c.service i true })
  | none => (c.base + 7, c)

end Chip

/-- The two controllers. -/
structure Pair where
  master : Chip
  slave : Chip

namespace Pair

/-- `outb`. -/
def outb (p : Pair) (o : ℕ × UInt8) : Pair :=
  if o.1 = 0x20 then { p with master := p.master.command o.2 }
  else if o.1 = 0x21 then { p with master := p.master.data o.2 }
  else if o.1 = 0xA0 then { p with slave := p.slave.command o.2 }
  else if o.1 = 0xA1 then { p with slave := p.slave.data o.2 }
  else p

/-- A device makes a request, or withdraws it. -/
def setRequest (p : Pair) (line : Fin 16) (b : Bool) : Pair :=
  if line.val < 8 then { p with master := p.master.setRequest (Fin.ofNat 8 line) b }
  else { p with slave := p.slave.setRequest (Fin.ofNat 8 line) b }

/-- The first controller, with the second on its line 2. -/
def upper (p : Pair) : Chip := p.master.setRequest 2 p.slave.pending.isSome

/-- The processor takes an interrupt: its vector. -/
def acknowledge (p : Pair) : ℕ × Pair :=
  let (v, master) := p.upper.acknowledge
  if p.upper.pending = some 2 then
    let (v, slave) := p.slave.acknowledge
    (v, ⟨master, slave⟩)
  else (v, ⟨master, p.slave⟩)

end Pair

section Chip

variable {c : Chip} {i : Fin 8}

theorem find?_of_none {l : Lines} (h : ∀ i, l i = false) : Fin.find? l = none :=
  Fin.find?_eq_none_iff.mpr h

/-- No line is in service. -/
theorem Chip.pending_of_idle (h : ∀ i, c.service i = false) :
    c.pending = Fin.find? fun i => c.request i && !c.mask i := by
  rw [Chip.pending, find?_of_none h]
  cases Fin.find? fun i => c.request i && !c.mask i <;> rfl

theorem Chip.pending_eq_some_iff_of_idle (h : ∀ i, c.service i = false) :
    c.pending = some i ↔ (c.request i = true ∧ c.mask i = false) ∧
      ∀ j < i, c.request j = true → c.mask j = true := by
  rw [Chip.pending_of_idle h, Fin.find?_eq_some_iff]
  simp

theorem Chip.pending_eq_none_iff_of_idle (h : ∀ i, c.service i = false) :
    c.pending = none ↔ ∀ i, c.request i = true → c.mask i = true := by
  rw [Chip.pending_of_idle h, Fin.find?_eq_none_iff]
  simp

/-- **The end of an interrupt**: the one line in service no longer is. -/
theorem Chip.command_eoi (h : ∀ j, c.service j = true → j = i) :
    c.command 0x20 = { c with service := fun _ => false } := by
  have h₁ : ¬(0x20 : UInt8) &&& 0x10 ≠ 0 := by decide
  have h₂ : ¬(0x20 : UInt8) &&& 0x08 ≠ 0 := by decide
  rw [Chip.command, if_neg h₁, if_neg h₂, if_pos (by decide)]
  cases hfind : Fin.find? c.service with
  | none =>
    have hnone : c.service = fun _ => false := funext (Fin.find?_eq_none_iff.mp hfind)
    dsimp only
    rw [← hnone]
  | some j =>
    dsimp only
    congr 1
    funext m
    by_cases hm : m = j
    · rw [hm, Function.update_self]
    · rw [Function.update_of_ne hm]
      have hj := h j (Fin.find?_eq_some_iff.mp hfind).1
      exact Bool.eq_false_iff.mpr fun htrue => hm ((h m htrue).trans hj.symm)

end Chip

namespace Pair

variable {p : Pair} {i : Fin 8}

theorem upper_request_of_ne (h : i ≠ 2) : p.upper.request i = p.master.request i :=
  Function.update_of_ne h _ _

/-- An interrupt of the first controller. -/
theorem acknowledge_of_some (h : p.upper.pending = some i) (hi : i ≠ 2)
    (hauto : p.master.autoEoi = false) :
    p.acknowledge = (p.master.base + i, ⟨{ p.upper with
      request := Function.update p.upper.request i false
      service := Function.update p.master.service i true }, p.slave⟩) := by
  have hauto' : p.upper.autoEoi = false := hauto
  have hne : ¬some i = some 2 := fun heq => hi (Option.some.inj heq)
  rw [acknowledge, Chip.acknowledge, h]
  simp only [hauto', if_neg hne, Bool.false_eq_true, if_false]
  rfl

/-- A spurious interrupt. -/
theorem acknowledge_of_none (h : p.upper.pending = none) :
    p.acknowledge = (p.master.base + 7, ⟨p.upper, p.slave⟩) := by
  rw [acknowledge, Chip.acknowledge, h]
  rfl

end Pair

end Pic
