import Qizo.Kernel.PmaSearch

/-!
# Single frames that are given back

`qizo_pma_free` reads the bit of the frame it is given and returns where `frame_ok` is false. A set
bit is a free frame, so the call goes on only where there is nothing to give back, and a frame that
was allocated stays allocated.

## Main results

* `undoes_iff`, `freeAgain_iff` — when a call gives back, and when a second one does nothing
* `undoes_and_freeAgain_iff` — both together, in every state of every run
-/

namespace Qizo

namespace Pma

/-! ### Variables along a run -/

variable {s : State} {sym : Symbols} {info : Option BootInfo} {x y : Sys} {op : Op} {ops : List Op}

theorem Wf.pmaAlloc (hs : Wf s) : Wf (pmaAlloc s).2 := by
  rcases pmaAlloc_cases s with hnone | ⟨f, -, hsome⟩
  · rw [hnone]
    exact hs
  · rw [hsome]
    exact hs.takeFrame

theorem Wf.pmaFree (hs : Wf s) (a : ℕ) : Wf (pmaFree s a) := by
  rcases pmaFree_cases s a with h | ⟨-, -, h⟩
  · rw [h]
    exact hs
  · have htotal := hs.total_le
    have hfree := hs.free_lt
    have hused := hs.used_lt
    rw [maxFrames_eq] at htotal
    rw [h]
    refine ⟨mark_totalFrames.trans_le hs.total_le, ?_, ?_, ?_⟩
    · exact mark_hint.trans_lt (hs.hint_lt.trans_eq mark_totalFrames.symm)
    · dsimp only
      split <;> omega
    · dsimp only
      omega

theorem Wf.step (hs : Wf x.st) (h : x.step op = some y) : Wf y.st := by
  cases op with
  | pmaAlloc =>
    cases h
    exact hs.pmaAlloc
  | pageAlloc n =>
    cases h
    exact hs.pageAlloc n
  | pmaFree a =>
    cases h
    exact hs.pmaFree a
  | pageFree p n =>
    rw [Sys.step] at h
    split at h
    · cases h
      exact hs.pageFree p n
    · cases h

/-- **The variables stay well formed** along every run. -/
theorem Wf.run (hs : Wf x.st) (h : x.run ops = some y) : Wf y.st := by
  induction ops generalizing x with
  | nil =>
    cases h
    exact hs
  | cons op ops ih =>
    rw [Sys.run, Option.bind_eq_some_iff] at h
    obtain ⟨z, hz, h⟩ := h
    exact ih (hs.step hz) h

/-! ### Giving back a frame -/

/-- `qizo_pma_free(a)` gives the frame of `a` back. -/
def GivesBack (s : State) (a : ℕ) : Prop :=
  frameOk (pmaFree s a) (frameOf a) = true ∧ (pmaFree s a).freeFrames = s.freeFrames + 1 ∧
    (pmaFree s a).usedFrames + 1 = s.usedFrames

/-- The call does not release the frame `f`. -/
def Op.Spares (f : ℕ) : Op → Prop
  | .pmaFree a => frameOf a ≠ f
  | .pageFree p n => ¬(frameOf p ≤ f ∧ f < frameOf p + n)
  | _ => True

/-- What `qizo_pma_alloc` returns is given back by `qizo_pma_free`, at once and after any calls
that leave that frame alone. -/
def Sys.Undoes (x : Sys) : Prop :=
  ∀ a y, x.step .pmaAlloc = some y → (Pma.pmaAlloc x.st).1 = a → a ≠ 0 → ∀ ops z,
    (∀ op ∈ ops, op.Spares (frameOf a)) → y.run ops = some z → GivesBack z.st a

/-- `qizo_pma_free` of a frame that is free changes nothing. -/
def Sys.FreeAgain (x : Sys) : Prop :=
  ∀ a, hhdmVirt ≤ a → frameOk x.st (frameOf a) = true → Pma.pmaFree x.st a = x.st

/-- A frame that is in use is not given back. -/
theorem not_givesBack {a : ℕ} (h : frameOk s (frameOf a) = false) : ¬GivesBack s a := by
  rintro ⟨hok, -⟩
  rw [frameOk_pmaFree, h] at hok
  cases hok

/-- **A frame that is allocated cannot be given back**: the property holds only where there is none
to allocate. -/
theorem undoes_iff (hs : Wf x.st) :
    x.Undoes ↔ ∀ f < x.st.totalFrames, frameOk x.st f = false := by
  rcases pmaAlloc_first hs.hint_lt with ⟨hnone, h⟩ | ⟨f, ⟨-, -, -, hok, -⟩, h⟩
  · refine iff_of_true (fun a y _ ha hne => ?_) hnone
    rw [h] at ha
    exact absurd ha.symm hne
  · have hlt := lt_of_frameOk hok
    refine iff_of_false (fun hundo => ?_) fun hnone => ?_
    · refine not_givesBack ?_ (hundo _ _ rfl rfl ?_ [] _ (fun _ hop => nomatch hop) rfl)
      · rw [h]
        dsimp only
        rw [frameOf_addr hs hok, frameOk_takeFrame, if_pos ⟨rfl, hlt⟩]
      · rw [h]
        exact physToVirt_ne_zero hs hok
    · rw [hnone f hlt] at hok
      cases hok

/-- Marking a free frame free changes nothing. -/
theorem mark_true_eq {f : ℕ} (hf : frameOk s f = true) : mark true s f = s := by
  have hbits : (mark true s f).bitmap = s.bitmap := by
    refine bitmap_eq mark_totalFrames (fun k => ?_) fun k hk => test_foldl_mark (l := [f]) hk
    rw [frameOk_mark]
    split
    · next hk => rw [hk.1, hf]
    · rfl
  have hlt := lt_of_frameOk hf
  rw [mark, if_neg (by omega)] at hbits ⊢
  dsimp only at hbits
  rw [hbits]

/-- **A second release** changes nothing where nothing is free, or where every counter is at its
bound. -/
theorem freeAgain_iff (hs : Wf x.st) :
    x.FreeAgain ↔ (∀ f < x.st.totalFrames, frameOk x.st f = false) ∨
      x.st.totalFrames ≤ x.st.freeFrames ∧ x.st.usedFrames = 0 := by
  constructor
  · intro h
    by_cases hnone : ∀ f < x.st.totalFrames, frameOk x.st f = false
    · exact .inl hnone
    · push Not at hnone
      obtain ⟨f, hlt, hok⟩ := hnone
      rw [ne_eq, Bool.not_eq_false] at hok
      have hmax := hlt.trans_le hs.total_le
      have hlow : hhdmVirt ≤ physToVirt (f * pageSize) := by
        rw [physToVirt_eq hmax]
        exact Nat.le_add_right _ _
      have hok' : frameOk x.st (frameOf (physToVirt (f * pageSize))) = true := by
        rwa [frameOf_physToVirt hmax]
      have heq := h _ hlow hok'
      rw [pmaFree_of_frameOk hlow hok'] at heq
      have hfree := congrArg State.freeFrames heq
      have hused := congrArg State.usedFrames heq
      dsimp only at hfree hused
      split at hfree
      · omega
      · exact .inr ⟨by omega, by omega⟩
  · rintro (hnone | ⟨hfree, hused⟩) a hlow hok
    · rw [hnone _ (lt_of_frameOk hok)] at hok
      cases hok
    · have hsub : x.st.usedFrames - 1 = x.st.usedFrames := by omega
      rw [pmaFree_of_frameOk hlow hok, mark_true_eq hok, if_neg (by omega), hsub]

/-- **When `qizo_pma_free` undoes `qizo_pma_alloc`**: in the states of a run in which no frame is
free, and in no other. -/
theorem undoes_and_freeAgain_iff (sym : Symbols) (info : Option BootInfo) (ops : List Op) (x : Sys)
    (hr : (Sys.init sym info).run ops = some x) :
    x.Undoes ∧ x.FreeAgain ↔ ∀ f < x.st.totalFrames, frameOk x.st f = false := by
  have hs : Wf x.st := Wf.run (wf_pmaInit sym info) hr
  rw [undoes_iff hs, freeAgain_iff hs]
  exact ⟨And.left, fun h => ⟨h, .inl h⟩⟩

/-- The first call after `qizo_pma_init` on a map of 64 MiB. -/
theorem undoes_and_freeAgain_iff_holed :
    (Sys.init linkedSymbols (some holedInfo)).Undoes ∧
        (Sys.init linkedSymbols (some holedInfo)).FreeAgain ↔
      ∀ f < (pmaInit linkedSymbols (some holedInfo)).totalFrames,
        frameOk (pmaInit linkedSymbols (some holedInfo)) f = false :=
  undoes_and_freeAgain_iff linkedSymbols (some holedInfo) [] _ rfl

/-- **A frame that is lost**: on a map of 64 MiB, the frame the first `qizo_pma_alloc` returns is
not given back by the `qizo_pma_free` that follows. -/
theorem not_undoes_holed :
    ¬ ∀ (sym : Symbols) (info : Option BootInfo) (ops : List Op) (x : Sys),
      (Sys.init sym info).run ops = some x → x.Undoes ∧ x.FreeAgain := by
  intro h
  have hundo := (h linkedSymbols (some holedInfo) [] _ rfl).1
  have hs : Wf (Sys.init linkedSymbols (some holedInfo)).st := wf_pmaInit _ _
  have hok : frameOk (Sys.init linkedSymbols (some holedInfo)).st 0x1000 = true :=
    holedInfo_frameOk _ (by decide) (by decide)
  rw [(undoes_iff hs).mp hundo 0x1000 (lt_of_frameOk hok)] at hok
  cases hok

end Pma

end Qizo
