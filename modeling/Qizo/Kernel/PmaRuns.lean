import Qizo.Kernel.PmaInit
import Qizo.Lib.Pool
import Mathlib.Data.List.Pairwise

/-!
# Runs of the frame allocator

A system is the allocator together with the blocks its callers hold. Its steps are the four
operations, with whatever arguments, except that `qizo_page_free` is only called on a block that is
held, with the number of pages it was asked for or has. `qizo_pma_free` is called on any address.

The bitmap and the held blocks form a pool, and every step is a step of the pool, so that no frame
is handed out twice. The counters are exact as long as `qizo_pma_free` is never given a frame that
is free already.

## Main results

* `Sys.pool_step` — every step is a step of the pool, or changes nothing
* `RunInv.run` — the invariant of every run
-/

namespace Qizo

namespace Pma

/-! ### Systems -/

/-- A block handed out: its first frame, and the number of pages asked for. -/
structure Block where
  /-- First frame. -/
  frame : ℕ
  /-- The argument of the call. -/
  req : ℕ
  deriving DecidableEq, Repr

namespace Block

/-- The number of frames of the block. -/
def pages (b : Block) : ℕ := atLeastOne b.req

/-- The address returned. -/
def addr (b : Block) : ℕ := physToVirt (b.frame * pageSize)

/-- The frames of the block. -/
def frames (b : Block) : Set ℕ := {f | b.frame ≤ f ∧ f < b.frame + b.pages}

end Block

/-- The calls. -/
inductive Op where
  /-- `qizo_pma_alloc()`. -/
  | pmaAlloc
  /-- `qizo_page_alloc(n)`. -/
  | pageAlloc (n : ℕ)
  /-- `qizo_pma_free(a)`. -/
  | pmaFree (a : ℕ)
  /-- `qizo_page_free(p, n)`. -/
  | pageFree (p n : ℕ)
  deriving DecidableEq, Repr

/-- The allocator and the blocks returned and not yet freed. -/
structure Sys where
  /-- The variables of the allocator. -/
  st : State
  /-- The blocks that are held, the latest first. -/
  live : List Block

namespace Sys

/-- The blocks held after a call that returned `a` for `n` pages. -/
def hold (live : List Block) (a n : ℕ) : List Block :=
  if a = 0 then live else ⟨frameOf a, n⟩ :: live

/-- One call. -/
def step (x : Sys) : Op → Option Sys
  | .pmaAlloc => some ⟨(pmaAlloc x.st).2, hold x.live (pmaAlloc x.st).1 1⟩
  | .pageAlloc n => some ⟨(pageAlloc x.st n).2, hold x.live (pageAlloc x.st n).1 n⟩
  | .pmaFree a =>
    some ⟨pmaFree x.st a, x.live.eraseP fun b => b.addr = a ∧ b.pages = 1⟩
  | .pageFree p n =>
    if ∃ b ∈ x.live, b.addr = p ∧ (n = b.req ∨ n = b.pages) then
      some ⟨pageFree x.st p n, x.live.eraseP fun b => b.addr = p⟩
    else none

/-- A sequence of calls. -/
def run (x : Sys) : List Op → Option Sys
  | [] => some x
  | op :: ops => (x.step op).bind fun y => run y ops

/-- The system right after `qizo_pma_init`. -/
def init (sym : Symbols) (info : Option BootInfo) : Sys := ⟨pmaInit sym info, []⟩

/-- The pool of a system: the frames marked free, and the frames of the blocks that are held. -/
def pool (x : Sys) : Pool ℕ := ⟨{f | frameOk x.st f = true}, x.live.map Block.frames⟩

end Sys

/-! ### Steps are steps of the pool -/

/-- The invariant of a run: the number of frames stays what it was and fits the direct map, and the
frames that were free at the start form a pool. -/
structure RunInv (sym : Symbols) (info : Option BootInfo) (x : Sys) : Prop where
  /-- The number of frames. -/
  total : x.st.totalFrames = (pmaInit sym info).totalFrames
  /-- The end of the managed memory. -/
  maxPhys : x.st.maxPhys = (pmaInit sym info).maxPhys
  /-- The pool. -/
  pool : Pool.Inv {f | frameOk (pmaInit sym info) f = true} x.pool

variable {sym : Symbols} {info : Option BootInfo} {x y : Sys} {op : Op} {b : Block}

theorem RunInv.init (sym : Symbols) (info : Option BootInfo) : RunInv sym info (.init sym info) :=
  ⟨rfl, rfl, Pool.Inv.init _⟩

/-- Frames of the initial map are frames of the direct map. -/
theorem lt_maxFrames_of_frameOk {f : ℕ} (h : frameOk (pmaInit sym info) f = true) :
    f < maxFrames := Nat.lt_of_lt_of_le (lt_of_frameOk h) pmaInit_totalFrames_le

theorem Block.frame_mem (b : Block) : b.frame ∈ b.frames := by
  refine ⟨Nat.le_refl _, ?_⟩
  rw [Block.pages, atLeastOne]
  split <;> omega

/-- A block is not given back with more pages than it has. -/
theorem Block.le_pages {n : ℕ} (b : Block) (h : n = b.req ∨ n = b.pages) : n ≤ b.pages := by
  rcases h with h | h
  · rw [h, Block.pages, atLeastOne]
    split <;> omega
  · exact Nat.le_of_eq h

theorem Block.mem_frames {f : ℕ} : f ∈ b.frames ↔ b.frame ≤ f ∧ f < b.frame + b.pages := Iff.rfl

/-- A block of one page is its first frame. -/
theorem Block.mem_frames_one {f k : ℕ} : k ∈ (Block.mk f 1).frames ↔ k = f := by
  rw [Block.mem_frames, show (Block.mk f 1).pages = 1 from rfl]
  dsimp only
  omega

theorem RunInv.frameOk_init {f : ℕ} (h : RunInv sym info x) (hf : frameOk x.st f = true) :
    frameOk (pmaInit sym info) f = true := h.pool.free_subset hf

theorem RunInv.live_init {f : ℕ} (h : RunInv sym info x) (hb : b ∈ x.live) (hf : f ∈ b.frames) :
    frameOk (pmaInit sym info) f = true :=
  h.pool.live_subset b.frames (List.mem_map_of_mem hb) hf

/-- The frames of a held block are marked in use. -/
theorem RunInv.frameOk_live {f : ℕ} (h : RunInv sym info x) (hb : b ∈ x.live) (hf : f ∈ b.frames) :
    frameOk x.st f = false :=
  Bool.eq_false_iff.mpr fun hfree =>
    Set.disjoint_left.mp (h.pool.live_free b.frames (List.mem_map_of_mem hb)) hf hfree

/-- The address of a held block leads back to its frame. -/
theorem RunInv.frameOf_addr (h : RunInv sym info x) (hb : b ∈ x.live) :
    frameOf b.addr = b.frame ∧ b.addr ≠ 0 := by
  have hlt := lt_maxFrames_of_frameOk (h.live_init hb b.frame_mem)
  refine ⟨frameOf_physToVirt hlt, ?_⟩
  rw [Block.addr, physToVirt_eq hlt]
  exact Nat.ne_of_gt (Nat.lt_of_lt_of_le (by decide) (Nat.le_add_right hhdmVirt _))

/-- A frame is in at most one held block. -/
theorem RunInv.live_unique {c : Block} {f : ℕ} (h : RunInv sym info x) (hb : b ∈ x.live)
    (hc : c ∈ x.live) (hfb : f ∈ b.frames) (hfc : f ∈ c.frames) : b = c := by
  by_contra hne
  have hpair : x.live.Pairwise fun b c => Disjoint b.frames c.frames :=
    List.pairwise_map.mp h.pool.pairwise
  have : Std.Symm fun b c : Block => Disjoint b.frames c.frames := ⟨fun _ _ h => h.symm⟩
  have hdis := hpair.forall hb hc hne
  exact Set.disjoint_left.mp hdis hfb hfc

/-- A block taken at `f`: the pool loses it and the caller holds it. -/
theorem Sys.take_step {st : State} {f n : ℕ} (hlt : f < maxFrames)
    (hfree : ∀ k ∈ (Block.mk f n).frames, frameOk x.st k = true)
    (hst : ∀ k, frameOk st k = true ↔ frameOk x.st k = true ∧ k ∉ (Block.mk f n).frames) :
    Pool.Step x.pool (Sys.mk st (hold x.live (physToVirt (f * pageSize)) n)).pool := by
  have hne : physToVirt (f * pageSize) ≠ 0 := by
    rw [physToVirt_eq hlt]
    exact Nat.ne_of_gt (Nat.lt_of_lt_of_le (by decide) (Nat.le_add_right hhdmVirt _))
  have hpool : (Sys.mk st (hold x.live (physToVirt (f * pageSize)) n)).pool
      = ⟨x.pool.free \ (Block.mk f n).frames, (Block.mk f n).frames :: x.pool.live⟩ := by
    rw [hold, if_neg hne, frameOf_physToVirt hlt, Sys.pool]
    congr 1
    exact Set.ext hst
  rw [hpool]
  exact .take _ hfree

/-- Taking a block out of the held ones, with some of its frames becoming free. -/
theorem Sys.release_step {st : State} {p : Block → Bool} {r : Set ℕ}
    (hp : ∃ b ∈ x.live, p b = true) (hr : ∀ b ∈ x.live, p b = true → r ⊆ b.frames)
    (hst : ∀ k, frameOk st k = true ↔ frameOk x.st k = true ∨ k ∈ r) :
    Pool.Step x.pool (Sys.mk st (x.live.eraseP p)).pool := by
  obtain ⟨b, hb, hpb⟩ := hp
  obtain ⟨c, l₁, l₂, -, hpc, hl, he⟩ := List.exists_of_eraseP hb hpb
  have hc : c ∈ x.live := by rw [hl]; simp
  have hpool : x.pool = ⟨x.pool.free, l₁.map Block.frames ++ c.frames :: l₂.map Block.frames⟩ := by
    rw [Sys.pool, hl, List.map_append, List.map_cons]
  have hpool' : (Sys.mk st (x.live.eraseP p)).pool
      = ⟨x.pool.free ∪ r, l₁.map Block.frames ++ l₂.map Block.frames⟩ := by
    rw [Sys.pool, he, List.map_append]
    congr 1
    exact Set.ext hst
  rw [hpool, hpool']
  exact .release (hr c hc hpc)

/-- **Every step is a step of the pool, or changes neither map nor blocks.** -/
theorem Sys.pool_step (h : RunInv sym info x) (hs : x.step op = some y) :
    y.pool = x.pool ∨ Pool.Step x.pool y.pool := by
  cases op with
  | pmaAlloc =>
    rw [Sys.step] at hs
    rcases pmaAlloc_cases x.st with ha | ⟨f, hf, ha⟩
    · rw [ha] at hs
      cases hs
      exact Or.inl rfl
    · rw [ha] at hs
      cases hs
      refine Or.inr (Sys.take_step (lt_maxFrames_of_frameOk (h.frameOk_init hf)) ?_ ?_)
      · intro k hk
        rw [Block.mem_frames_one.mp hk]
        exact hf
      · intro k
        rw [frameOk_takeFrame, Block.mem_frames_one]
        have := lt_of_frameOk hf
        by_cases hk : k = f
        · subst hk; simp [this]
        · simp [hk]
  | pageAlloc n =>
    rw [Sys.step] at hs
    rcases pageAlloc_cases x.st n with ha | ⟨f, hf, ha⟩
    · rw [ha] at hs
      cases hs
      exact Or.inl rfl
    · rw [ha] at hs
      cases hs
      have hfree : ∀ k ∈ (Block.mk f n).frames, frameOk x.st k = true := by
        rintro k ⟨h1, h2⟩
        have := hf (k - f) (by simp only [Block.pages] at h2; dsimp only at h1; omega)
        rwa [Nat.add_sub_cancel' h1] at this
      have hlt := lt_maxFrames_of_frameOk (h.frameOk_init (hfree f (Block.mk f n).frame_mem))
      refine Or.inr (Sys.take_step hlt hfree fun k => ?_)
      rw [frameOk_takeRun]
      by_cases hk : k ∈ (Block.mk f n).frames
      · have hlt := lt_of_frameOk (hfree k hk)
        rw [if_pos ⟨hk, hlt⟩]
        simp [hk]
      · rw [if_neg fun h => hk h.1]
        simp [hk]
  | pmaFree a =>
    rw [Sys.step] at hs
    cases hs
    by_cases hb : ∃ b ∈ x.live, decide (b.addr = a ∧ b.pages = 1) = true
    · refine Or.inr (Sys.release_step (r := ∅) hb (fun _ _ _ => Set.empty_subset _) fun k => ?_)
      rw [frameOk_pmaFree]
      simp
    · refine Or.inl ?_
      rw [Sys.pool, List.eraseP_of_forall_not fun b hm hp => hb ⟨b, hm, hp⟩]
      simp only [frameOk_pmaFree]
      rfl
  | pageFree p n =>
    rw [Sys.step] at hs
    split at hs
    · next hb =>
      cases hs
      obtain ⟨b, hm, hp, hn⟩ := hb
      obtain ⟨hframe, hne⟩ := h.frameOf_addr hm
      have hle : n ≤ b.pages := b.le_pages hn
      refine Or.inr (Sys.release_step (r := {f | b.frame ≤ f ∧ f < b.frame + n})
        ⟨b, hm, by simpa using hp⟩ ?_ ?_)
      · -- the block that is found is the one that was asked for
        intro c hc hpc
        have hcb : c.frame = b.frame := by
          rw [← (h.frameOf_addr hc).1, ← hframe, hp]
          exact congrArg frameOf (by simpa using hpc)
        rw [h.live_unique hc hm c.frame_mem (hcb ▸ b.frame_mem)]
        rintro f ⟨h1, h2⟩
        exact ⟨h1, by omega⟩
      · intro k
        rw [frameOk_pageFree (hp ▸ hne), ← hp, hframe]
        by_cases hk : b.frame ≤ k ∧ k < b.frame + n
        · have hlt : k < x.st.totalFrames := by
            rw [h.total]
            exact lt_of_frameOk (h.live_init hm ⟨hk.1, by omega⟩)
          rw [if_pos ⟨hk, hlt⟩]
          exact ⟨fun _ => Or.inr hk, fun _ => rfl⟩
        · rw [if_neg fun h => hk h.1]
          exact ⟨Or.inl, fun h => h.resolve_right hk⟩
    · cases hs

theorem Sys.step_totalFrames (hs : x.step op = some y) :
    y.st.totalFrames = x.st.totalFrames ∧ y.st.maxPhys = x.st.maxPhys := by
  cases op with
  | pmaAlloc =>
    rw [Sys.step] at hs
    rcases pmaAlloc_cases x.st with ha | ⟨f, -, ha⟩ <;> rw [ha] at hs <;> cases hs <;> simp
  | pageAlloc n =>
    rw [Sys.step] at hs
    rcases pageAlloc_cases x.st n with ha | ⟨f, -, ha⟩ <;> rw [ha] at hs <;> cases hs <;> simp
  | pmaFree a =>
    rw [Sys.step] at hs
    cases hs
    simp
  | pageFree p n =>
    rw [Sys.step] at hs
    split at hs
    · cases hs
      simp
    · cases hs

/-- One call keeps the invariant. -/
theorem RunInv.step (h : RunInv sym info x) (hs : x.step op = some y) : RunInv sym info y := by
  obtain ⟨htotal, hmax⟩ := Sys.step_totalFrames hs
  refine ⟨htotal.trans h.total, hmax.trans h.maxPhys, ?_⟩
  rcases Sys.pool_step h hs with hp | hp
  · rw [hp]
    exact h.pool
  · exact h.pool.step hp

/-- **The invariant holds in every run.** -/
theorem RunInv.run {ops : List Op} (h : RunInv sym info x) (hr : x.run ops = some y) :
    RunInv sym info y := by
  induction ops generalizing x with
  | nil => cases hr; exact h
  | cons op ops ih =>
    rw [Sys.run, Option.bind_eq_some_iff] at hr
    obtain ⟨z, hz, hr⟩ := hr
    exact ih (h.step hz) hr

/-! ### No frame twice -/

/-- **No frame is handed out twice.** For every boot record and every sequence of calls, the blocks
returned and not yet freed are pairwise disjoint, all their frames exist and are marked in use, and
they were free right after `qizo_pma_init`. -/
theorem live_disjoint (sym : Symbols) (info : Option BootInfo) (ops : List Op) (x : Sys)
    (hr : (Sys.init sym info).run ops = some x) :
    (x.live.Pairwise fun b c => Disjoint b.frames c.frames) ∧
    ∀ b ∈ x.live, ∀ f ∈ b.frames, f < x.st.totalFrames ∧ x.st.bitmap.test f = false ∧
      frameOk (pmaInit sym info) f = true := by
  have h := (RunInv.init sym info).run hr
  refine ⟨List.pairwise_map.mp h.pool.pairwise, fun b hb f hf => ?_⟩
  have hinit := h.live_init hb hf
  have hlt : f < x.st.totalFrames := by rw [h.total]; exact lt_of_frameOk hinit
  refine ⟨hlt, ?_, hinit⟩
  have hused := h.frameOk_live hb hf
  rwa [frameOk, if_neg (by omega)] at hused

/-- The statement for three calls on a map of 64 MiB. -/
theorem live_disjoint_holed :
    ∃ x, (Sys.init linkedSymbols (some holedInfo)).run [.pmaAlloc, .pageAlloc 2, .pmaFree 0]
        = some x ∧
      (x.live.Pairwise fun b c => Disjoint b.frames c.frames) ∧
      ∀ b ∈ x.live, ∀ f ∈ b.frames, f < x.st.totalFrames ∧ x.st.bitmap.test f = false ∧
        frameOk (pmaInit linkedSymbols (some holedInfo)) f = true :=
  ⟨_, rfl, live_disjoint linkedSymbols (some holedInfo) [.pmaAlloc, .pageAlloc 2, .pmaFree 0] _ rfl⟩

/-! ### Blocks and the address space -/

/-- A frame that was free at the start ends below the end of the managed memory. -/
theorem frame_end_le {f : ℕ} (h : frameOk (pmaInit sym info) f = true) :
    (f + 1) * pageSize ≤ (pmaInit sym info).maxPhys := by
  have hlt := lt_of_frameOk h
  rw [pmaInit_totalFrames] at hlt
  rw [pmaInit_maxPhys]
  exact Nat.le_trans (Nat.mul_le_mul_right _ hlt) (Nat.div_mul_le_self _ _)

theorem pmaInit_maxPhys_le : (pmaInit sym info).maxPhys ≤ 2 ^ 30 := by
  rw [pmaInit_maxPhys]
  exact Nat.le_trans (topOf_le info) (by decide)

theorem Block.pages_pos (b : Block) : 0 < b.pages := by
  rw [Block.pages, atLeastOne]
  split <;> omega

/-- The last frame of a block. -/
theorem Block.last_mem (b : Block) : b.frame + (b.pages - 1) ∈ b.frames :=
  ⟨Nat.le_add_right _ _, by have := b.pages_pos; omega⟩

/-- The frame of a byte of a block. -/
theorem Block.mem_frames_of_byte {p : ℕ} (h1 : b.frame * pageSize ≤ p)
    (h2 : p < (b.frame + b.pages) * pageSize) : p / pageSize ∈ b.frames :=
  ⟨(Nat.le_div_iff_mul_le (by decide)).mpr h1, (Nat.div_lt_iff_lt_mul (by decide)).mpr h2⟩

/-- **Blocks are in mapped memory and outside the kernel.** With the record stage2 hands over, every
block that is held after any sequence of calls is page aligned, lies in the direct map below both
the end of the managed memory and 1 GiB, and has no byte in the first MiB, in the kernel with its
bss or in the scratch buffer. -/
theorem live_mapped {b : BootInfo} (h : Handover b) (ops : List Op) (x : Sys)
    (hr : (Sys.init sym (some b)).run ops = some x) :
    ∀ blk ∈ x.live, blk.addr % pageSize = 0 ∧ hhdmVirt ≤ blk.addr ∧
      blk.addr + blk.pages * pageSize ≤ hhdmVirt + min x.st.maxPhys (2 ^ 30) ∧
      ∀ p, blk.addr ≤ hhdmVirt + p → hhdmVirt + p < blk.addr + blk.pages * pageSize →
        0x100000 ≤ p ∧
        ¬ (b.ktext.toNat ≤ p ∧ p < b.ktext.toNat + b.kernelTotal.toNat) ∧
        ¬ (b.scratch.toNat ≤ p ∧ p < b.scratch.toNat + 0x80000) := by
  intro blk hb
  have hi := (RunInv.init sym (some b)).run hr
  have haddr : blk.addr = hhdmVirt + blk.frame * pageSize :=
    physToVirt_eq (lt_maxFrames_of_frameOk (hi.live_init hb blk.frame_mem))
  have hend := frame_end_le (hi.live_init hb blk.last_mem)
  rw [← hi.maxPhys, show blk.frame + (blk.pages - 1) + 1 = blk.frame + blk.pages by
    have := blk.pages_pos; omega] at hend
  have hmax : x.st.maxPhys ≤ 2 ^ 30 := by rw [hi.maxPhys]; exact pmaInit_maxPhys_le
  rw [haddr]
  refine ⟨?_, Nat.le_add_right _ _, ?_, fun p h1 h2 => ?_⟩
  · rw [Nat.add_mul_mod_self_right]
    decide
  · rw [Nat.min_eq_left hmax, Nat.add_assoc, ← Nat.add_mul]
    exact Nat.add_le_add_left hend _
  · rw [Nat.add_assoc, ← Nat.add_mul] at h2
    have hp1 := Nat.le_of_add_le_add_left h1
    have hp2 := Nat.lt_of_add_lt_add_left h2
    have hinit := hi.live_init hb (Block.mem_frames_of_byte hp1 hp2)
    have hres := ((frameOk_pmaInit h).mp hinit).2
    have hlo : p / pageSize * pageSize ≤ p := Nat.div_mul_le_self _ _
    have hhi : p < (p / pageSize + 1) * pageSize := by simp only [pageSize]; omega
    refine ⟨?_, ?_, ?_⟩
    · refine Nat.not_lt.mp fun hlt => hres (Or.inl ⟨p, hlo, hhi, Nat.zero_le _, ?_⟩)
      rwa [Nat.zero_add]
    · exact fun hk => hres (Or.inr (Or.inl ⟨p, hlo, hhi, hk⟩))
    · exact fun hk => hres (Or.inr (Or.inr (Or.inr ⟨p, hlo, hhi, hk⟩)))

/-- The statement for two allocations on a map of 64 MiB. -/
theorem live_mapped_holed :
    ∃ x, (Sys.init linkedSymbols (some holedInfo)).run [.pmaAlloc, .pageAlloc 2] = some x ∧
      ∀ blk ∈ x.live, blk.addr % pageSize = 0 ∧ hhdmVirt ≤ blk.addr ∧
        blk.addr + blk.pages * pageSize ≤ hhdmVirt + min x.st.maxPhys (2 ^ 30) ∧
        ∀ p, blk.addr ≤ hhdmVirt + p → hhdmVirt + p < blk.addr + blk.pages * pageSize →
          0x100000 ≤ p ∧
          ¬ (holedInfo.ktext.toNat ≤ p ∧
            p < holedInfo.ktext.toNat + holedInfo.kernelTotal.toNat) ∧
          ¬ (holedInfo.scratch.toNat ≤ p ∧ p < holedInfo.scratch.toNat + 0x80000) :=
  ⟨_, rfl, live_mapped holedInfo_handover [.pmaAlloc, .pageAlloc 2] _ rfl⟩

end Pma

end Qizo
