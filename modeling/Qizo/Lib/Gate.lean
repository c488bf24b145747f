import Qizo.Lib.Memory

/-!
# Interrupt gates

The table of the interrupt handlers in long mode, as a function of memory: 16 bytes for each
vector, which hold the address of the handler in three parts. A program fills a table in a loop,
one gate after the other, so that a table is described by the function from its vectors to the
gates (`Gates`).

## Main results

* `gateAt_eq` — a gate from its four double words
* `gates_fill`, `eqOutside_fill` — what a loop that writes one gate after the other does to memory
-/

namespace Gate

open Memory

/-! ### One gate -/

/-- A gate. -/
structure Descriptor where
  /-- The address of the handler. -/
  offset : ℕ
  /-- The code segment it runs in. -/
  selector : ℕ
  /-- The stack it runs on: zero for the one that is interrupted. -/
  ist : ℕ
  /-- Present bit, privilege level and type. -/
  attr : ℕ
  /-- The double word that must be zero. -/
  reserved : ℕ
  deriving DecidableEq, Repr

/-- The gate at an address. -/
def gateAt (m : Memory) (a : ℕ) : Descriptor where
  offset := m.load 4 a % 2 ^ 16 + m.load 4 (a + 4) / 2 ^ 16 * 2 ^ 16 + 2 ^ 32 * m.load 4 (a + 8)
  selector := m.load 4 a / 2 ^ 16
  ist := m.load 4 (a + 4) % 2 ^ 8
  attr := m.load 4 (a + 4) / 2 ^ 8 % 2 ^ 8
  reserved := m.load 4 (a + 12)

/-- A present gate of the highest privilege that turns interrupts off. -/
def interruptGate (selector offset : ℕ) : Descriptor := ⟨offset, selector, 0, 0x8E, 0⟩

variable {m m' : Memory} {a t n offset selector : ℕ} {F : ℕ → Descriptor}

/-- **A gate from its double words.** -/
theorem gateAt_eq (h0 : m.load 4 a = offset % 2 ^ 16 + 2 ^ 16 * selector)
    (h1 : m.load 4 (a + 4) = offset / 2 ^ 16 % 2 ^ 16 * 2 ^ 16 + 0x8E00)
    (h2 : m.load 4 (a + 8) = offset / 2 ^ 32) (h3 : m.load 4 (a + 12) = 0) :
    gateAt m a = interruptGate selector offset := by
  rw [gateAt, interruptGate, h0, h1, h2, h3, Descriptor.mk.injEq]
  omega

theorem gateAt_congr (h : ∀ x, a ≤ x → x < a + 16 → m' x = m x) : gateAt m' a = gateAt m a := by
  have hload {d : ℕ} (hd : d + 4 ≤ 16) : m'.load 4 (a + d) = m.load 4 (a + d) :=
    load_congr fun i hi => h _ (by omega) (by omega)
  have h0 : m'.load 4 a = m.load 4 a := hload (d := 0) (by decide)
  rw [gateAt, gateAt, h0, hload (by decide), hload (by decide), hload (by decide)]

/-! ### Tables -/

/-- The first `n` gates of the table at `t` are given by `F`. -/
def Gates (m : Memory) (t : ℕ) (F : ℕ → Descriptor) (n : ℕ) : Prop :=
  ∀ v < n, gateAt m (t + 16 * v) = F v

theorem gates_zero (m : Memory) (t : ℕ) (F : ℕ → Descriptor) : Gates m t F 0 :=
  fun _ h => absurd h (Nat.not_lt_zero _)

theorem Gates.frame {R : List (ℕ × ℕ)} (h : Gates m t F n) (he : EqOutside m m' R)
    (hR : ∀ x, t ≤ x → x < t + 16 * n → Outside R x) : Gates m' t F n := by
  intro v hv
  rw [gateAt_congr fun x hx hx' => he x (hR x (by omega) (by omega)), h v hv]

/-- **One more gate.** -/
theorem Gates.push (h : Gates m t F n) (he : EqOutside m m' [(t + 16 * n, 16)])
    (hgate : gateAt m' (t + 16 * n) = F n) : Gates m' t F (n + 1) := by
  intro v hv
  rcases Nat.lt_succ_iff_lt_or_eq.mp hv with hlt | rfl
  · refine h.frame he (fun x _ hx => ?_) v hlt
    rw [outside_singleton]
    omega
  · exact hgate

/-! ### Filling a table

The writer `w m d v` makes the gate at `d` lead to the handler at `v`. -/

/-- The first `n` gates of the table at `t` are written, for the handlers at `F`. -/
def fill (w : Memory → ℕ → ℕ → Memory) (F : ℕ → ℕ) (t : ℕ) (m : Memory) : ℕ → Memory
  | 0 => m
  | n + 1 => w (fill w F t m n) (t + 16 * n) (F n)

variable {w : Memory → ℕ → ℕ → Memory} {H : ℕ → ℕ}

theorem eqOutside_fill (hw : ∀ m d v, EqOutside m (w m d v) [(d, 16)]) (n : ℕ) :
    EqOutside m (fill w H t m n) [(t, 16 * n)] := by
  induction n with
  | zero => exact .refl _ _
  | succ n ih =>
    refine (ih.mono fun x hx => ?_).trans ((hw _ _ _).mono fun x hx => ?_)
    all_goals
      rw [outside_singleton] at hx ⊢
      omega

/-- **A table that is filled.** -/
theorem gates_fill (hw : ∀ m d v, EqOutside m (w m d v) [(d, 16)])
    (hgate : ∀ m d v, v < n → gateAt (w m d (H v)) d = interruptGate selector (H v)) :
    Gates (fill w H t m n) t (fun v => interruptGate selector (H v)) n := by
  suffices ∀ i ≤ n, Gates (fill w H t m i) t (fun v => interruptGate selector (H v)) i from
    this n le_rfl
  intro i hi
  induction i with
  | zero => exact gates_zero _ _ _
  | succ i ih => exact (ih (by omega)).push (hw _ _ _) (hgate _ _ _ hi)

end Gate
