import Mathlib.Computability.StateTransition

/-!
# Runs that arrive

`LeadsTo f x Q` says that the deterministic transition function `f`, started in `x`, gets to a
state satisfying `Q` in finitely many steps. It is the total-correctness reading of
`StateTransition.Reaches`: a run that never arrives satisfies no such statement. The rules let a
proof follow a run step by step and cut it where the states are best described by a predicate.
-/

namespace StateTransition

variable {σ : Type*} {f : σ → Option σ} {x y : σ} {P Q : σ → Prop}

/-- From `x` the run gets to a state satisfying `Q`. -/
def LeadsTo (f : σ → Option σ) (x : σ) (Q : σ → Prop) : Prop := ∃ y, Reaches f x y ∧ Q y

theorem LeadsTo.now (h : Q x) : LeadsTo f x Q := ⟨x, .refl, h⟩

/-- One step, and then the rest of the run. -/
theorem LeadsTo.head (h : f x = some y) (hy : LeadsTo f y Q) : LeadsTo f x Q := by
  obtain ⟨z, hz, hq⟩ := hy
  exact ⟨z, .head h hz, hq⟩

/-- Cutting a run at the states satisfying `P`. -/
theorem LeadsTo.trans (h : LeadsTo f x P) (hP : ∀ y, P y → LeadsTo f y Q) : LeadsTo f x Q := by
  obtain ⟨y, hy, hp⟩ := h
  obtain ⟨z, hz, hq⟩ := hP y hp
  exact ⟨z, hy.trans hz, hq⟩

theorem LeadsTo.mono (h : LeadsTo f x P) (hPQ : ∀ y, P y → Q y) : LeadsTo f x Q := by
  obtain ⟨y, hy, hp⟩ := h
  exact ⟨y, hy, hPQ y hp⟩

/-- A machine that takes every step of another one. -/
theorem LeadsTo.step_mono {g : σ → Option σ} (h : LeadsTo f x Q)
    (hfg : ∀ y z, f y = some z → g y = some z) : LeadsTo g x Q := by
  obtain ⟨y, hy, hq⟩ := h
  exact ⟨y, Relation.ReflTransGen.mono hfg _ _ hy, hq⟩

/-- **A part of a larger machine**: every step of one is a step of the other on the images, and the
larger one goes on where the part has got to. -/
theorem LeadsTo.inside {τ : Type*} {F : τ → Option τ} {g : σ → τ} {R : τ → Prop} (h : LeadsTo f x Q)
    (hfg : ∀ y z, f y = some z → F (g y) = some (g z)) (hQ : ∀ y, Q y → LeadsTo F (g y) R) :
    LeadsTo F (g x) R := by
  obtain ⟨y, hy, hq⟩ := h
  obtain ⟨z, hz, hr⟩ := hQ y hq
  exact ⟨z, .trans (Relation.ReflTransGen.lift g hfg _ _ hy) hz, hr⟩

/-- A branch. -/
theorem LeadsTo.ite {c : Prop} [Decidable c] (ht : c → LeadsTo f x Q) (hf : ¬c → LeadsTo f y Q) :
    LeadsTo f (if c then x else y) Q := by
  split
  · exact ht ‹c›
  · exact hf ‹¬c›

/-- **A loop with a counter.** One pass with `n + 1` in the counter either leaves the loop or comes
back with `n`, and it does not come back with zero. -/
theorem LeadsTo.countdown {P : ℕ → σ → Prop}
    (hpass : ∀ n x, P (n + 1) x → LeadsTo f x fun y => Q y ∨ n ≠ 0 ∧ P n y) (n : ℕ)
    (h : P (n + 1) x) : LeadsTo f x Q := by
  induction n generalizing x with
  | zero =>
    refine (hpass 0 x h).mono ?_
    rintro y (hy | ⟨hne, -⟩)
    · exact hy
    · exact absurd rfl hne
  | succ n ih =>
    refine (hpass (n + 1) x h).trans ?_
    rintro y (hy | ⟨-, hy⟩)
    · exact .now hy
    · exact ih hy

/-- **An invariant.** What every step keeps holds of everything that is reached. -/
theorem Reaches.invariant {I : σ → Prop} (hstep : ∀ y z, I y → f y = some z → I z) (h : I x)
    (hy : Reaches f x y) : I y := by
  induction hy with
  | refl => exact h
  | tail _ hstep' ih => exact hstep _ _ ih hstep'

theorem LeadsTo.and_invariant {I : σ → Prop} (h : LeadsTo f x Q) (hx : I x)
    (hstep : ∀ y z, I y → f y = some z → I z) : LeadsTo f x fun y => Q y ∧ I y := by
  obtain ⟨y, hy, hq⟩ := h
  exact ⟨y, hy, hq, hy.invariant hstep hx⟩

/-- A run that gets where it can no longer end in `T` does not end there. -/
theorem LeadsTo.never {T : σ → Prop} {z : σ} (hT : ∀ y, T y → f y = none)
    (h : LeadsTo f x fun y => ∀ z, Reaches f y z → ¬T z) (hz : Reaches f x z) : ¬T z := by
  obtain ⟨y, hy, hnever⟩ := h
  intro hTz
  rcases reaches_total hy hz with hyz | hzy
  · exact hnever z hyz hTz
  · have hyz : y = z := (eval_maximal (mem_eval.mpr ⟨hz, hT z hTz⟩)).mp hzy
    exact hnever z (hyz ▸ .refl) hTz

/-- A run ends in at most one state. -/
theorem Reaches.halted_unique {z : σ} (hy : Reaches f x y) (hz : Reaches f x z) (hfy : f y = none)
    (hfz : f z = none) : y = z :=
  Part.mem_unique (mem_eval.mpr ⟨hy, hfy⟩) (mem_eval.mpr ⟨hz, hfz⟩)

/-- A run that ends in `Q` gets there from wherever it comes by. -/
theorem LeadsTo.after (h : LeadsTo f x Q) (hend : ∀ y, Q y → f y = none) (hy : Reaches f x y) :
    LeadsTo f y Q := by
  obtain ⟨z, hz, hQ⟩ := h
  rcases reaches_total hy hz with hyz | hzy
  · exact ⟨z, hyz, hQ⟩
  · have hyz : y = z := (eval_maximal (mem_eval.mpr ⟨hz, hend z hQ⟩)).mp hzy
    exact ⟨z, hyz ▸ .refl, hQ⟩

/-- Two descriptions of where a run ends are about the same state. -/
theorem LeadsTo.and_of_halted (hP : LeadsTo f x P) (hQ : LeadsTo f x Q)
    (hPend : ∀ y, P y → f y = none) (hQend : ∀ y, Q y → f y = none) :
    LeadsTo f x fun y => P y ∧ Q y := by
  obtain ⟨y, hy, hPy⟩ := hP
  obtain ⟨z, hz, hQz⟩ := hQ
  obtain rfl := hy.halted_unique hz (hPend y hPy) (hQend z hQz)
  exact ⟨y, hy, hPy, hQz⟩

/-! ### Runs that stop early

A statement about every state of a run up to some point is one about a run that is made to stop
there. -/

section Restrict

open Classical in
/-- `f` as long as `P` holds: a run stops in the first state where it does not. -/
noncomputable def restrict (P : σ → Prop) (f : σ → Option σ) (x : σ) : Option σ :=
  if P x then f x else none

theorem restrict_of_pos (h : P x) : restrict P f x = f x := by
  classical
  rw [restrict, if_pos h]

theorem restrict_of_neg (h : ¬P x) : restrict P f x = none := by
  classical
  rw [restrict, if_neg h]

/-- A step of the run that may stop early is one of the run itself, from a state where `P` holds. -/
theorem restrict_eq_some_iff : restrict P f x = some y ↔ P x ∧ f x = some y := by
  by_cases h : P x
  · rw [restrict_of_pos h, and_iff_right h]
  · rw [restrict_of_neg h]
    exact ⟨nofun, fun h' => absurd h'.1 h⟩

theorem Reaches.restrict_mono {I : σ → Prop} (hPI : ∀ y, P y → I y)
    (h : Reaches (restrict P f) x y) : Reaches (restrict I f) x y := by
  refine Relation.ReflTransGen.mono (fun a b hab => ?_) _ _ h
  obtain ⟨hPa, hstep⟩ := restrict_eq_some_iff.mp hab
  exact restrict_eq_some_iff.mpr ⟨hPI a hPa, hstep⟩

theorem LeadsTo.restrict_mono {I : σ → Prop} (hPI : ∀ y, P y → I y)
    (h : LeadsTo (restrict P f) x Q) : LeadsTo (restrict I f) x Q := by
  obtain ⟨y, hy, hq⟩ := h
  exact ⟨y, hy.restrict_mono hPI, hq⟩

theorem LeadsTo.of_restrict (h : LeadsTo (restrict P f) x Q) : LeadsTo f x Q := by
  obtain ⟨y, hy, hq⟩ := h
  refine ⟨y, Relation.ReflTransGen.mono (fun a b hab => ?_) _ _ hy, hq⟩
  exact (restrict_eq_some_iff.mp hab).2

/-- **What holds on the way.** If a run that also stops where `I` fails leaves `P`, then `I` holds
wherever the run gets before it leaves `P`. -/
theorem LeadsTo.along {I : σ → Prop} {z : σ}
    (h : LeadsTo (restrict (fun y => P y ∧ I y) f) x fun y => ¬P y)
    (hz : Reaches (restrict P f) x z) (hPz : P z) : I z := by
  obtain ⟨y, hy, hleft⟩ := h
  induction hy using Relation.ReflTransGen.head_induction_on with
  | refl =>
    -- already outside, so nothing else is reached
    rcases Relation.ReflTransGen.cases_head hz with rfl | ⟨w, hw, -⟩
    · exact absurd hPz hleft
    · exact absurd (restrict_eq_some_iff.mp hw).1 hleft
  | head hstep _ ih =>
    obtain ⟨⟨-, hI⟩, hf⟩ := restrict_eq_some_iff.mp hstep
    rcases Relation.ReflTransGen.cases_head hz with rfl | ⟨w, hw, hwz⟩
    · exact hI
    · obtain rfl := Option.some.inj (hf.symm.trans (restrict_eq_some_iff.mp hw).2)
      exact ih hwz

end Restrict

end StateTransition
