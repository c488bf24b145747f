import Qizo.Lib.X86
import Mathlib.Data.Set.Basic

/-!
# The bytes a step touches

Instructions are functions on the machine state, so which bytes of memory one of them reads is not
written down anywhere. It can be told from outside: put another byte at an address and take the
step. If the address has nothing to do with the step, the same happens, and the other byte is
carried along. `Touches` is the negation of this, and `Writes` says that some byte put there does
not survive.

`Contained` bounds both. A block of a program is shown to be contained by computing it on the state
with another byte; the lemmas on loads and stores move that byte out of the way.
-/

namespace X86

open StateTransition

variable {L : Type}

/-! ### Touching and writing -/

/-- The state with the byte `v` at the address `a`. -/
def Cpu.poke (a : ℕ) (v : UInt8) (s : Cpu) : Cpu := { s with mem := Function.update s.mem a v }

/-- The same, for a state at a label. -/
def poke (a : ℕ) (v : UInt8) (x : L × Cpu) : L × Cpu := (x.1, x.2.poke a v)

/-- The step from `x` reads or writes the byte at `a`: another byte there is not just carried
along. -/
def Touches (f : L × Cpu → Option (L × Cpu)) (x : L × Cpu) (a : ℕ) : Prop :=
  ∃ v, f (poke a v x) ≠ (f x).map (poke a v)

/-- The step from `x` writes the byte at `a`: some byte there does not survive it. -/
def Writes (f : L × Cpu → Option (L × Cpu)) (x : L × Cpu) (a : ℕ) : Prop :=
  ∃ v y, f (poke a v x) = some y ∧ y.2.mem a ≠ v

/-- The step from `x` touches nothing outside `R` and writes nothing outside `W`. -/
structure Contained (f : L × Cpu → Option (L × Cpu)) (R W : Set ℕ) (x : L × Cpu) : Prop where
  /-- What is read or written. -/
  touched : ∀ a, Touches f x a → a ∈ R
  /-- What is written. -/
  written : ∀ a, Writes f x a → a ∈ W

/-- **A block that stays inside.** A byte outside `R` is carried along, and one outside `W`
survives. -/
theorem contained_block {k : Link L} {code : L → Option (Block L)} {l : L} {s : Cpu} {b : Block L}
    {R W : Set ℕ} (h : code l = some b)
    (hR : ∀ a ∉ R, ∀ v, runBlock k b.next b.body (s.poke a v) =
      poke a v (runBlock k b.next b.body s))
    (hW : ∀ a ∉ W, ∀ v, (runBlock k b.next b.body (s.poke a v)).2.mem a = v) :
    Contained (step k code) R W (l, s) := by
  have hstep (s : Cpu) : step k code (l, s) = some (runBlock k b.next b.body s) := by
    rw [step, h, Option.map_some]
  constructor
  · rintro a ⟨v, hv⟩
    by_contra ha
    refine hv ?_
    rw [poke, hstep, hstep, Option.map_some, hR a ha v]
  · rintro a ⟨v, y, hy, hne⟩
    by_contra ha
    rw [poke, hstep] at hy
    obtain rfl := Option.some.inj hy
    exact hne (hW a ha v)

variable {f : L × Cpu → Option (L × Cpu)} {R W : Set ℕ} {x y y' : L × Cpu} {a : ℕ} {v : UInt8}

/-- Another byte. -/
theorem add_one_ne (b : UInt8) : b + 1 ≠ b := by
  intro h
  have hlt := b.toNat_lt
  have hnat : (b.toNat + 1) % 256 = b.toNat := (UInt8.toNat_add b 1).symm.trans (congrArg _ h)
  omega

/-- **A step that touches a byte outside `R`.** Something that can be seen of the next state depends
on that byte and would not be changed by putting another one there afterwards. -/
theorem not_contained_of_seen {α : Type} (see : L × Cpu → α) (val : UInt8 → α) (ha : a ∉ R)
    (hdef : ∀ v, ∃ y, f (poke a v x) = some y)
    (hval : ∀ v y, f (poke a v x) = some y → see y = val v)
    (hsee : ∀ v y, see (poke a v y) = see y) (hne : val (x.2.mem a + 1) ≠ val (x.2.mem a)) :
    ¬Contained f R W x := by
  intro hc
  have hself : poke a (x.2.mem a) x = x := by
    rw [poke, Cpu.poke, Function.update_eq_self]
  obtain ⟨y, hy⟩ := hdef (x.2.mem a)
  obtain ⟨y', hy'⟩ := hdef (x.2.mem a + 1)
  have hold := hval _ _ hy
  have hnew := hval _ _ hy'
  rw [hself] at hy
  refine ha (hc.touched a ⟨x.2.mem a + 1, fun heq => hne ?_⟩)
  rw [hy, hy', Option.map_some] at heq
  rw [← hnew, ← hold, Option.some.inj heq, hsee]

/-- A step that writes a byte outside `W`. -/
theorem not_contained_of_writes (h : f (poke a v x) = some y) (ha : a ∉ W) (hne : y.2.mem a ≠ v) :
    ¬Contained f R W x :=
  fun hc => ha (hc.written a ⟨v, y, h, hne⟩)

theorem Contained.mono {R' W' : Set ℕ} (h : Contained f R W x) (hR : R ⊆ R') (hW : W ⊆ W') :
    Contained f R' W' x :=
  ⟨fun a ha => hR (h.touched a ha), fun a ha => hW (h.written a ha)⟩

/-! ### Loads and stores beside another byte -/

section Beside

variable {m : Memory} {R : Set ℕ} {a : ℕ} {v : UInt8} {p w : BitVec 32}

/-- The four bytes at `p` are in `R`. -/
def Word (R : Set ℕ) (p : BitVec 32) : Prop :=
  p.toNat ∈ R ∧ (p + 1#32).toNat ∈ R ∧ (p + 2#32).toNat ∈ R ∧ (p + 3#32).toNat ∈ R

theorem Word.mono {R' : Set ℕ} (h : Word R p) (hR : R ⊆ R') : Word R' p :=
  ⟨hR h.1, hR h.2.1, hR h.2.2.1, hR h.2.2.2⟩

theorem word_ofNat {i : ℕ} (hi : i + 4 ≤ 2 ^ 32) (h : ∀ a, i ≤ a → a < i + 4 → a ∈ R) :
    Word R (.ofNat 32 i) := by
  refine ⟨?_, ?_, ?_, ?_⟩
  · rw [toNat_ofNat_of_lt (by omega)]
    exact h _ (by omega) (by omega)
  all_goals
    rw [ofNat_add_ofNat, toNat_ofNat_of_lt (by omega)]
    exact h _ (by omega) (by omega)

theorem update_of_mem (h : p.toNat ∈ R) (ha : a ∉ R) :
    Function.update m a v p.toNat = m p.toNat :=
  Function.update_of_ne (ne_of_mem_of_not_mem h ha) v m

theorem ld32_update (h : Word R p) (ha : a ∉ R) : ld32 (Function.update m a v) p = ld32 m p := by
  rw [ld32, update_of_mem h.1 ha, update_of_mem h.2.1 ha, update_of_mem h.2.2.1 ha,
    update_of_mem h.2.2.2 ha]
  rfl

theorem ld16_update (h : p.toNat ∈ R) (h' : (p + 1#32).toNat ∈ R) (ha : a ∉ R) :
    ld16 (Function.update m a v) p = ld16 m p := by
  rw [ld16, update_of_mem h ha, update_of_mem h' ha]
  rfl

theorem st8_update {b : UInt8} (h : p.toNat ∈ R) (ha : a ∉ R) :
    st8 (Function.update m a v) p b = Function.update (st8 m p b) a v := by
  rw [st8, st8, Function.update_comm (ne_of_mem_of_not_mem h ha)]

theorem st32_update (h : Word R p) (ha : a ∉ R) :
    st32 (Function.update m a v) p w = Function.update (st32 m p w) a v := by
  rw [st32, st8_update h.1 ha, st8_update h.2.1 ha, st8_update h.2.2.1 ha,
    st8_update h.2.2.2 ha]
  rfl

theorem st8_apply_of_mem {b : UInt8} (h : p.toNat ∈ R) (ha : a ∉ R) : st8 m p b a = m a := by
  rw [st8, Function.update_of_ne (ne_of_mem_of_not_mem h ha).symm]

theorem st32_apply_of_mem (h : Word R p) (ha : a ∉ R) : st32 m p w a = m a := by
  rw [st32, st8_apply_of_mem h.2.2.2 ha, st8_apply_of_mem h.2.2.1 ha, st8_apply_of_mem h.2.1 ha,
    st8_apply_of_mem h.1 ha]

end Beside

end X86
