import Qizo.Kernel.FatBuffer
import Qizo.Kernel.Shell

/-!
# The reporting commands

`mem`, `bench`, `micro` and `sysmngr`, as far as they touch the frame allocator: `qizo_memstat` of
`sysinfo.c`, the two functions of `bench.c`, and `sysmngr.c` with the volume driver below it. What
the commands print and what they write to the frames they take is not part of this model.

All four are meant to report only, and to give back the frames they take. `mem` frees a null
pointer in place of its four frames, `micro` returns without freeing when it got only one of its
two pages, and `sysmngr` has the volume driver take its table buffer when it is not there yet.

## Main results

* `ready_of_reachable` — what holds in every state of a session
* `keeps_iff` — the states in which a command gives back what it takes
-/

namespace Qizo

namespace Report

open Pma Fat Ata

/-! ### `mem`, `bench`, `micro` -/

/-- The loop of `qizo_memstat`, with `n` frames to go: whether it ran to its end. -/
def memLoop : (n : ℕ) → Pma.State → Bool × Pma.State
  | 0, s => (true, s)
  | n + 1, s =>
    let (p, s) := pmaAlloc s
    if p = 0 then (false, s) else memLoop n s

/-- `qizo_memstat`. -/
def memstat (info : Option BootInfo) (s : Pma.State) : Pma.State :=
  if info.isNone then s
  else
    match memLoop 4 s with
    | (false, s) => s
    | (true, s) => pmaFree s 0

/-- `BENCH_BLOCK`. -/
def benchBlock : ℕ := 16 * 1024

/-- `qizo_bench`. -/
def bench (s : Pma.State) : Pma.State :=
  let (a, s) := pageAlloc s (benchBlock / pageSize)
  let (b, s) := pageAlloc s (benchBlock / pageSize)
  if a = 0 ∨ b = 0 then
    let s := if a ≠ 0 then pageFree s a (benchBlock / pageSize) else s
    if b ≠ 0 then pageFree s b (benchBlock / pageSize) else s
  else pageFree (pageFree s a (benchBlock / pageSize)) b (benchBlock / pageSize)

/-- `qizo_bench_memcpy_cycles`. The length and the mode decide only what is done with the two
pages. -/
def benchMemcpyCycles (_n : ℕ) (_mode : ℤ) (s : Pma.State) : Pma.State :=
  let (a, s) := pageAlloc s 1
  let (b, s) := pageAlloc s 1
  if a = 0 ∨ b = 0 then s
  else
    let s := if a ≠ 0 then pageFree s a 1 else s
    if b ≠ 0 then pageFree s b 1 else s

/-! ### `sysmngr` -/

/-- `SM_WORD`. -/
def smWord : ℕ := 32

/-- A blank or a tab. -/
def isBlank (c : UInt8) : Bool := c = 32 || c = 9

/-- `word`: the next word of a string, cut to `max - 1` characters, and the rest. -/
def word (max : ℕ) (s : List UInt8) : Option (List UInt8 × List UInt8) :=
  match s.dropWhile isBlank with
  | [] => none
  | c :: cs =>
    some (((c :: cs).takeWhile (!isBlank ·)).take (max - 1), (c :: cs).dropWhile (!isBlank ·))

/-- The drive a name stands for. -/
def driveOf (name : List UInt8) : ℕ :=
  match name.head? with
  | some c =>
    if c = Printf.code 'd' ∨ c = Printf.code 'D' then 1
    else if c = Printf.code 'f' ∨ c = Printf.code 'F' then 2
    else 0
  | none => 0

/-- The record on the stack of `free_drive`; every field is filled in before it is printed. -/
def noFat : QizoFat := ⟨false, 0, 0, 0, 0, 0, 0, [], ""⟩

/-- `free_drive`. -/
def freeDrive (hw : Hardware) (blob : Blob) (k : Fat.State) (drive : ℕ) : Fat.State :=
  match driveSectorsOf k.ata drive with
  | none => k
  | some _ => (fatFor hw blob drive noFat k).2.2

/-- What an argument asks `sysmngr` for, as far as the drivers are concerned. -/
inductive Request where
  /-- Numbers the kernel holds already, or a text. -/
  | nothing
  /-- `-drivers` or `-net`, which start the drivers. -/
  | drivers
  /-- The free space of some drives. -/
  | volumes (drives : List ℕ)
  deriving DecidableEq, Repr

/-- The dispatch of `qizo_sysmngr`. -/
def request (arg : List UInt8) : Request :=
  match word smWord arg with
  | none => .nothing
  | some (a, rest) =>
    if a ∈ ["-help", "help", "-h"].map Shell.chars then .nothing
    else if a = Shell.chars "-doc" then .nothing
    else if a = Shell.chars "-update" then .nothing
    else if a ∈ ["-drivers", "-dev"].map Shell.chars then .drivers
    else if a = Shell.chars "-net" then .drivers
    else if a = Shell.chars "-free" then
      match word smWord rest with
      | none => .nothing
      | some (b, _) =>
        if b ∈ ["mem", "memory"].map Shell.chars then .nothing
        else if b ∈ ["vram", "video"].map Shell.chars then .nothing
        else if b = Shell.chars "all" then
          .volumes (["c/", "d/", "f/"].map fun name => driveOf (Shell.chars name))
        else .volumes [driveOf b]
    else .nothing

/-- `qizo_sysmngr`. -/
def sysmngr (hw : Hardware) (blob : Blob) (arg : List UInt8) (k : Fat.State) : Fat.State :=
  match request arg with
  | .nothing => k
  | .drivers => driversStart hw blob k
  | .volumes drives => drives.foldl (freeDrive hw blob) k

/-! ### Runs -/

/-- The reporting commands. -/
inductive Command where
  | mem
  | bench
  | micro (n : ℕ) (mode : ℤ)
  | sysmngr (arg : List UInt8)

/-- What the kernel was booted with: the boot record, the symbols and the disks. -/
structure Machine where
  /-- The linker's symbols. -/
  sym : Pma.Symbols
  /-- The boot record. -/
  info : BootInfo
  /-- Its fields on the blob. -/
  blob : Blob
  /-- The disks. -/
  hw : Hardware

/-- Run a command. -/
def Machine.run (M : Machine) (k : Fat.State) : Command → Fat.State
  | .mem => { k with pma := memstat (some M.info) k.pma }
  | .bench => { k with pma := Report.bench k.pma }
  | .micro n mode => { k with pma := benchMemcpyCycles n mode k.pma }
  | .sysmngr arg => Report.sysmngr M.hw M.blob arg k

/-- The state the shell starts in: the allocator is set up, and then the drivers. -/
def Machine.boot (M : Machine) (mem sector : Memory) : Fat.State :=
  driversStart M.hw M.blob
    ⟨pmaInit M.sym (some M.info), mem, Ata.State.boot, sector, 0, noFat, false, false⟩

/-- The states of a session. -/
inductive Machine.Reachable (M : Machine) : Fat.State → Prop
  | boot (mem sector : Memory) : M.Reachable (M.boot mem sector)
  | run {k : Fat.State} (c : Command) : M.Reachable k → M.Reachable (M.run k c)

/-! ### `mem`, `bench` and `micro` -/

section Commands

variable {s s' : Pma.State}

/-- Taking frames one by one frees none. -/
theorem frameOk_memLoop {n f : ℕ} (h : frameOk s f = false) :
    frameOk (memLoop n s).2 f = false := by
  induction n generalizing s with
  | zero => exact h
  | succ n ih =>
    rw [memLoop]
    rcases pmaAlloc_cases s with hnone | ⟨g, -, hsome⟩
    · rw [hnone]
      exact h
    · rw [hsome]
      dsimp only
      have htake : frameOk (takeFrame s g) f = false := by
        rw [frameOk_takeFrame, h, ite_self]
      split
      · exact htake
      · exact ih htake

theorem memLoop_totalFrames {n : ℕ} : (memLoop n s).2.totalFrames = s.totalFrames := by
  induction n generalizing s with
  | zero => rfl
  | succ n ih =>
    rw [memLoop]
    rcases pmaAlloc_cases s with hnone | ⟨g, -, hsome⟩
    · rw [hnone]
      rfl
    · rw [hsome]
      dsimp only
      split
      · exact takeFrame_totalFrames
      · exact ih.trans takeFrame_totalFrames

/-- `mem` frees nothing: it keeps the allocator's state exactly where no frame is free. -/
theorem keeps_memstat_iff (hs : Wf s) (info : BootInfo) :
    Keeps s (memstat (some info) s) ↔ ∀ f, frameOk s f = false := by
  have hzero : ∀ s : Pma.State, pmaFree s 0 = s := fun s => if_pos (by decide)
  have hmem : memstat (some info) s = (memLoop 4 s).2 := by
    rw [memstat, if_neg (by simp)]
    split <;> simp_all
  rw [hmem, memLoop]
  constructor
  · intro hkeeps f
    by_contra hf
    rw [Bool.not_eq_false] at hf
    have hne : (pmaAlloc s).1 ≠ 0 := by
      intro hnone
      rw [(pmaAlloc_eq_zero_iff hs).mp hnone f] at hf
      exact absurd hf (by decide)
    rcases pmaAlloc_cases s with hnone | ⟨g, hg, hsome⟩
    · rw [hnone] at hne
      exact hne rfl
    · -- Frame `g` is taken by the first pass and not given back.
      rw [hsome] at hne hkeeps
      dsimp only at hne hkeeps
      rw [if_neg hne] at hkeeps
      have hlost : frameOk (memLoop 3 (takeFrame s g)).2 g = false :=
        frameOk_memLoop (by rw [frameOk_takeFrame, if_pos ⟨rfl, lt_of_frameOk hg⟩])
      exact not_keeps_of_lost (memLoop_totalFrames.trans takeFrame_totalFrames) hg hlost hkeeps
  · intro h
    rcases pmaAlloc_cases s with hnone | ⟨g, hg, -⟩
    · rw [hnone]
      exact ⟨rfl, rfl, rfl⟩
    · rw [h g] at hg
      exact absurd hg (by decide)

/-- `bench` gives back what it takes. -/
theorem keeps_bench (hs : Wf s) : Keeps s (bench s) := by
  have hpages : atLeastOne (benchBlock / pageSize) = benchBlock / pageSize := by decide
  rw [bench]
  rcases pageAlloc_spec hs (benchBlock / pageSize) with ⟨-, hnone⟩ | ⟨f, hf, hsome, ha, haf⟩
  · -- Then the second call fails as well.
    rw [hnone]
    dsimp only
    rw [hnone]
    exact ⟨rfl, rfl, rfl⟩
  · rw [hpages] at hf hsome
    have hlacks := lacks_takeRun hf
    rw [hsome]
    dsimp only
    rcases pageAlloc_spec hs.takeRun (benchBlock / pageSize) with
      ⟨-, hnone⟩ | ⟨g, hg, hsome', hb, hbg⟩
    · rw [hnone]
      dsimp only
      rw [if_pos (.inr rfl), if_pos ha, if_neg (by simp)]
      exact hlacks.keeps_pageFree hs hf ha haf
    · rw [hpages] at hg hsome'
      rw [hsome']
      dsimp only
      rw [if_neg (by simp [ha, hb])]
      have hrest := hlacks.pageFree_first (lacks_takeRun hg) hf hg ha haf
      refine hrest.keeps_pageFree hs (fun j hj => ?_) hb hbg
      have := hg j hj
      rw [hlacks.ok] at this
      split at this
      · exact absurd this (by decide)
      · exact this

/-- `micro` gives back what it takes unless it gets only one of its two pages. -/
theorem keeps_benchMemcpyCycles_iff (hs : Wf s) (n : ℕ) (mode : ℤ) :
    Keeps s (benchMemcpyCycles n mode s) ↔ ¬∃! f, frameOk s f = true := by
  have hone : ∀ {s : Pma.State} {f : ℕ}, frameOk s f = true → HasRun s (atLeastOne 1) :=
    fun {s f} hf => ⟨f, fun j hj => by
      have hj' : j < 1 := hj
      rw [show f + j = f by omega]
      exact hf⟩
  rw [benchMemcpyCycles]
  rcases pageAlloc_spec hs 1 with ⟨hrun, hnone⟩ | ⟨f, hf, hsome, ha, haf⟩
  · -- No frame is free.
    rw [hnone]
    dsimp only
    rw [hnone]
    dsimp only
    rw [if_pos (.inl rfl)]
    exact iff_of_true ⟨rfl, rfl, rfl⟩ fun ⟨f, hf, _⟩ => hrun (hone hf)
  · change ∀ j < 1, _ at hf
    have hlacks : Lacks s f 1 (takeRun s f 1) := lacks_takeRun hf
    have hf₀ : frameOk s f = true := hf 0 (by omega)
    rw [hsome]
    dsimp only
    rcases pageAlloc_spec hs.takeRun 1 with ⟨hrun, hnone⟩ | ⟨g, hg, hsome', hb, hbg⟩
    · -- Frame `f` was the last one.
      rw [hnone]
      dsimp only
      rw [if_pos (.inr rfl)]
      refine iff_of_false (not_keeps_of_lost hlacks.total hf₀ ?_) (not_not_intro ⟨f, hf₀, ?_⟩)
      · exact (hlacks.ok f).trans (if_pos (by omega))
      · intro g hg
        by_contra hne
        refine hrun (hone (f := g) ?_)
        exact (hlacks.ok g).trans ((if_neg (by omega)).trans hg)
    · change ∀ j < 1, _ at hg
      have hg₀ : frameOk s g = true ∧ g ≠ f := by
        have := hg 0 (by omega)
        rw [Nat.add_zero] at this
        have hok := (hlacks.ok g).symm.trans this
        split at hok
        · exact absurd hok (by decide)
        · exact ⟨hok, by omega⟩
      rw [hsome']
      dsimp only
      rw [if_neg (by simp [ha, hb]), if_pos ha, if_pos hb]
      refine iff_of_true ?_ fun ⟨c, _, hc⟩ => hg₀.2 ((hc g hg₀.1).trans (hc f hf₀).symm)
      have hrest := hlacks.pageFree_first (lacks_takeRun hg) hf hg ha haf
      refine hrest.keeps_pageFree hs (fun j hj => ?_) hb hbg
      rw [show g + j = g by omega]
      exact hg₀.1

end Commands

/-! ### The drives of `sysmngr` -/

section Drives

variable {hw : Hardware} {blob : Blob} {drive : ℕ} {out : QizoFat} {k k' : Fat.State}

theorem fatFor_eq (hstarted : k.started = true) :
    fatFor hw blob drive out k = fatForStarted hw blob drive out k := by
  rw [fatFor, driversStart, if_pos hstarted]

theorem looked_freeDrive (hs : Wf k.pma) (hstarted : k.started = true) (hbuf : k.fatbuf ≠ 0)
    (drive : ℕ) : Looked k (freeDrive hw blob k drive) := by
  rw [freeDrive]
  split
  · exact .refl k
  · rw [fatFor_eq hstarted, fatForStarted]
    split
    · exact .refl k
    · split
      · exact .refl k
      · exact looked_scanWindows hs hbuf _ _

/-- **One drive**, without the buffer. -/
theorem freeDrive_cases (hs : Wf k.pma) (hstarted : k.started = true) (hbuf : k.fatbuf = 0)
    (drive : ℕ) :
    Attached k drive ∧ Takes hw drive (windows blob) k ∧ Took k (freeDrive hw blob k drive) ∨
      Attached k drive ∧ ¬Takes hw drive (windows blob) k ∧
        freeDrive hw blob k drive = look hw drive (windows blob) k ∨
      ¬Attached k drive ∧ freeDrive hw blob k drive = k := by
  rw [freeDrive, Attached]
  rcases hsectors : driveSectorsOf k.ata drive with _ | n
  · exact .inr (.inr ⟨fun h => Bool.false_ne_true h.2, rfl⟩)
  · have hdrive : ¬1 < drive := by
      intro hlt
      rw [driveSectorsOf, if_pos (.inl hlt)] at hsectors
      exact absurd hsectors (by simp)
    dsimp only
    rw [fatFor_eq hstarted, fatForStarted]
    cases hlive : k.ata.ataLive with
    | false => exact .inr (.inr ⟨fun h => Bool.false_ne_true h.1, rfl⟩)
    | true =>
      rw [if_neg (by decide), if_neg hdrive]
      rcases scanWindows_cases hs hbuf (windows blob)
        (clearFat noFat) with ⟨htakes, htook⟩ | ⟨hnot, hscan⟩
      · exact .inl ⟨⟨rfl, rfl⟩, htakes, htook⟩
      · exact .inr (.inl ⟨⟨rfl, rfl⟩, hnot, by rw [hscan]⟩)

theorem looked_freeDrives (hs : Wf k.pma) (hstarted : k.started = true) (hbuf : k.fatbuf ≠ 0)
    (drives : List ℕ) : Looked k (drives.foldl (freeDrive hw blob) k) := by
  induction drives generalizing k with
  | nil => exact .refl k
  | cons drive rest ih =>
    have hlook := @looked_freeDrive hw blob _ hs hstarted hbuf drive
    rw [List.foldl_cons]
    exact hlook.trans (ih (by rwa [hlook.pma]) (hlook.started.trans hstarted)
      (by rwa [hlook.fatbuf]))

/-- **Several drives**, without the buffer: it is taken, or nothing is. -/
theorem freeDrives_cases (hs : Wf k.pma) (hstarted : k.started = true) (hbuf : k.fatbuf = 0)
    (drives : List ℕ) :
    TakesAny hw blob drives k ∧ Took k (drives.foldl (freeDrive hw blob) k) ∨
      ¬TakesAny hw blob drives k ∧ Looked k (drives.foldl (freeDrive hw blob) k) := by
  induction drives generalizing k with
  | nil => exact .inr ⟨id, .refl k⟩
  | cons drive rest ih =>
    rw [List.foldl_cons, TakesAny]
    rcases freeDrive_cases hs hstarted hbuf drive with
      ⟨hatt, htakes, htook⟩ | ⟨hatt, hnot, hfree⟩ | ⟨hatt, hfree⟩
    · rw [if_pos hatt]
      exact .inl ⟨.inl htakes, htook.looked (looked_freeDrives (htook.wf hs)
        (htook.started.trans hstarted) htook.fatbuf_ne rest)⟩
    · have hlook := looked_look hw drive (windows blob) k
      rw [if_pos hatt, hfree]
      rcases ih (by rwa [hlook.pma]) (hlook.started.trans hstarted) (hlook.fatbuf.trans hbuf) with
        ⟨htakes, htook⟩ | ⟨hnot', hrest⟩
      · exact .inl ⟨.inr htakes, hlook.took htook⟩
      · exact .inr ⟨fun h => h.elim hnot hnot', hlook.trans hrest⟩
    · rw [if_neg hatt, hfree]
      exact ih hs hstarted hbuf

end Drives

/-! ### Sessions -/

section Sessions

variable {M : Machine} {k k' : Fat.State} {s : Pma.State}

theorem wf_memLoop (hs : Wf s) (n : ℕ) : Wf (memLoop n s).2 := by
  induction n generalizing s with
  | zero => exact hs
  | succ n ih =>
    rw [memLoop]
    rcases pmaAlloc_cases s with hnone | ⟨f, -, hsome⟩
    · rw [hnone]
      exact hs
    · rw [hsome]
      dsimp only
      split
      · exact hs.takeFrame
      · exact ih hs.takeFrame

theorem wf_memstat (hs : Wf s) (info : Option BootInfo) : Wf (memstat info s) := by
  have hzero : ∀ s : Pma.State, pmaFree s 0 = s := fun s => if_pos (by decide)
  have hloop := wf_memLoop hs 4
  rw [memstat]
  split
  · exact hs
  · split
    · next heq => rwa [heq] at hloop
    · next heq =>
      rw [hzero]
      rwa [heq] at hloop

theorem wf_bench (hs : Wf s) : Wf (bench s) := by
  have hfree := (hs.pageAlloc (benchBlock / pageSize)).pageAlloc (benchBlock / pageSize)
  rw [bench]
  dsimp only
  split
  · split
    · split
      · exact (hfree.pageFree _ _).pageFree _ _
      · exact hfree.pageFree _ _
    · split
      · exact hfree.pageFree _ _
      · exact hfree
  · exact (hfree.pageFree _ _).pageFree _ _

theorem wf_benchMemcpyCycles (hs : Wf s) (n : ℕ) (mode : ℤ) : Wf (benchMemcpyCycles n mode s) := by
  have hfree := (hs.pageAlloc 1).pageAlloc 1
  rw [benchMemcpyCycles]
  dsimp only
  split
  · exact hfree
  · split
    · split
      · exact (hfree.pageFree _ _).pageFree _ _
      · exact hfree.pageFree _ _
    · split
      · exact hfree.pageFree _ _
      · exact hfree

/-- What holds in every state of a session. -/
structure Ready (k : Fat.State) : Prop where
  /-- The drivers are started. -/
  started : k.started = true
  /-- The allocator. -/
  wf : Wf k.pma

theorem Ready.looked (h : Ready k) (hl : Looked k k') : Ready k' :=
  ⟨hl.started.trans h.started, by rw [hl.pma]; exact h.wf⟩

theorem Ready.took (h : Ready k) (ht : Took k k') : Ready k' :=
  ⟨ht.started.trans h.started, ht.wf h.wf⟩

theorem Ready.fatForStarted (h : Ready k) (hw : Hardware) (blob : Blob) (drive : ℕ)
    (out : QizoFat) : Ready (fatForStarted hw blob drive out k).2.2 := by
  rw [Fat.fatForStarted]
  split
  · exact h
  · split
    · exact h
    · by_cases hbuf : k.fatbuf = 0
      · rcases scanWindows_cases h.wf hbuf (windows blob)
          (clearFat out) with ⟨-, htook⟩ | ⟨-, hscan⟩
        · exact h.took htook
        · rw [hscan]
          exact h.looked (looked_look hw drive (windows blob) k)
      · exact h.looked (looked_scanWindows h.wf hbuf _ _)

theorem Ready.driversStart {k₀ : Fat.State} (hs : Wf k₀.pma) (hw : Hardware) (blob : Blob) :
    Ready (driversStart hw blob k₀) := by
  rw [Fat.driversStart]
  split
  · next hstarted => exact ⟨hstarted, hs⟩
  · have hprobe : ∀ k, Ready k → Ready (fatProbe hw blob k).2 := by
      intro k hk
      rw [fatProbe]
      split
      · exact hk
      · split
        · exact hk
        · exact ⟨(hk.fatForStarted hw blob 0 k.fs).started, (hk.fatForStarted hw blob 0 k.fs).wf⟩
    have hfat : ∀ k, Ready k → Ready (fatStart hw blob k) := by
      intro k hk
      rw [fatStart]
      split
      · exact hk
      · exact ⟨(hk.fatForStarted hw blob 0 k.fs).started, (hk.fatForStarted hw blob 0 k.fs).wf⟩
    have hboth : ∀ k, Ready k → Ready (if (fatProbe hw blob k).1 = true then
        fatStart hw blob (fatProbe hw blob k).2 else (fatProbe hw blob k).2) := by
      intro k hk
      split
      · exact hfat _ (hprobe _ hk)
      · exact hprobe _ hk
    dsimp only
    split
    · exact hboth _ ⟨rfl, hs⟩
    · exact hboth _ ⟨rfl, hs⟩

theorem Ready.sysmngr (h : Ready k) (hw : Hardware) (blob : Blob) (arg : List UInt8) :
    Ready (sysmngr hw blob arg k) := by
  rw [Report.sysmngr]
  split
  · exact h
  · exact Ready.driversStart h.wf hw blob
  · next drives _ =>
    by_cases hbuf : k.fatbuf = 0
    · rcases freeDrives_cases h.wf h.started hbuf drives with
        ⟨-, htook⟩ | ⟨-, hlook⟩
      · exact h.took htook
      · exact h.looked hlook
    · exact h.looked (looked_freeDrives h.wf h.started hbuf drives)

theorem Ready.run (h : Ready k) (c : Command) : Ready (M.run k c) := by
  cases c with
  | mem => exact ⟨h.started, wf_memstat h.wf (some M.info)⟩
  | bench => exact ⟨h.started, wf_bench h.wf⟩
  | micro n mode => exact ⟨h.started, wf_benchMemcpyCycles h.wf n mode⟩
  | sysmngr arg => exact h.sysmngr M.hw M.blob arg

/-- **Every state of a session.** -/
theorem ready_of_reachable (h : M.Reachable k) : Ready k := by
  induction h with
  | boot mem sector =>
    refine Ready.driversStart ?_ M.hw M.blob
    exact wf_pmaInit M.sym (some M.info)
  | run c _ ih => exact ih.run c

/-- When a command gives back what it takes: `mem` where no frame is free; `bench` always; `micro`
unless exactly one frame is free; and `sysmngr` unless it is asked for drives, the table buffer
has not been taken yet, and one of the drives has a volume for whose table there is room. -/
def Machine.GivesBack (M : Machine) (k : Fat.State) : Command → Prop
  | .mem => ∀ f, frameOk k.pma f = false
  | .bench => True
  | .micro _ _ => ¬∃! f, frameOk k.pma f = true
  | .sysmngr arg =>
    match request arg with
    | .volumes drives => k.fatbuf ≠ 0 ∨ ¬TakesAny M.hw M.blob drives k
    | _ => True

theorem keeps_sysmngr_iff (h : Ready k) (arg : List UInt8) :
    Keeps k.pma (sysmngr M.hw M.blob arg k).pma ↔ M.GivesBack k (.sysmngr arg) := by
  rw [Machine.GivesBack, sysmngr]
  cases request arg with
  | nothing => exact iff_of_true ⟨rfl, rfl, rfl⟩ trivial
  | drivers =>
    dsimp only
    rw [driversStart, if_pos h.started]
    exact iff_of_true ⟨rfl, rfl, rfl⟩ trivial
  | volumes drives =>
    dsimp only
    by_cases hbuf : k.fatbuf = 0
    · rcases freeDrives_cases h.wf h.started hbuf drives with
        ⟨htakes, htook⟩ | ⟨hnot, hlook⟩
      · exact iff_of_false htook.not_keeps fun h => h.elim (fun h => h hbuf) (fun h => h htakes)
      · exact iff_of_true (by rw [hlook.pma]; exact ⟨rfl, rfl, rfl⟩) (.inr hnot)
    · have hlook := @looked_freeDrives M.hw M.blob _ h.wf h.started hbuf drives
      exact iff_of_true (by rw [hlook.pma]; exact ⟨rfl, rfl, rfl⟩) (.inl hbuf)

/-- One command. -/
theorem keeps_run_iff (h : Ready k) (c : Command) :
    Keeps k.pma (M.run k c).pma ↔ M.GivesBack k c := by
  cases c with
  | mem => exact keeps_memstat_iff h.wf M.info
  | bench => exact iff_of_true (keeps_bench h.wf) trivial
  | micro n mode => exact keeps_benchMemcpyCycles_iff h.wf n mode
  | sysmngr arg => exact keeps_sysmngr_iff h arg

/-- Every command of a list gives back what it takes, each in the state it is run in. -/
def Machine.AllGiveBack (M : Machine) : Fat.State → List Command → Prop
  | _, [] => True
  | k, c :: cs => M.GivesBack k c ∧ M.AllGiveBack (M.run k c) cs

theorem keeps_foldl_run (h : Ready k) (cs : List Command) (hall : M.AllGiveBack k cs) :
    Keeps k.pma (cs.foldl M.run k).pma := by
  induction cs generalizing k with
  | nil => exact ⟨rfl, rfl, rfl⟩
  | cons c cs ih =>
    obtain ⟨hbitmap, hfree, hused⟩ := (keeps_run_iff h c).mpr hall.1
    obtain ⟨hbitmap', hfree', hused'⟩ := ih (h.run c) hall.2
    exact ⟨hbitmap'.trans hbitmap, hfree'.trans hfree, hused'.trans hused⟩

/-- **The states in which a command gives back what it takes**, and the sessions that leave the
allocator as it was. -/
theorem keeps_iff (M : Machine) (k : Fat.State) (h : M.Reachable k) :
    (∀ c, Keeps k.pma (M.run k c).pma ↔ M.GivesBack k c) ∧
      ∀ cs, M.AllGiveBack k cs → Keeps k.pma (cs.foldl M.run k).pma :=
  ⟨keeps_run_iff (ready_of_reachable h), keeps_foldl_run (ready_of_reachable h)⟩

theorem run_mem_pma (M : Machine) (k : Fat.State) :
    (M.run k .mem).pma = memstat (some M.info) k.pma := rfl

/-- A machine without disks, with memory as in `holedInfo`. -/
def disklessMachine : Machine where
  sym := linkedSymbols
  info := holedInfo
  blob := ⟨16, 8⟩
  hw := ⟨false, fun _ => none, fun _ _ _ => none⟩

/-- Right after boot. -/
theorem keeps_iff_boot :
    disklessMachine.Reachable (disklessMachine.boot (fun _ => 0) (fun _ => 0)) ∧
      (∀ c, Keeps (disklessMachine.boot (fun _ => 0) (fun _ => 0)).pma
          (disklessMachine.run (disklessMachine.boot (fun _ => 0) (fun _ => 0)) c).pma ↔
        disklessMachine.GivesBack (disklessMachine.boot (fun _ => 0) (fun _ => 0)) c) ∧
      ∀ cs, disklessMachine.AllGiveBack (disklessMachine.boot (fun _ => 0) (fun _ => 0)) cs →
        Keeps (disklessMachine.boot (fun _ => 0) (fun _ => 0)).pma
          (cs.foldl disklessMachine.run (disklessMachine.boot (fun _ => 0) (fun _ => 0))).pma :=
  ⟨.boot _ _, keeps_iff disklessMachine _ (.boot _ _)⟩

/-- **`mem`, right after boot**, keeps four frames. -/
theorem not_keeps_mem :
    ¬Keeps (disklessMachine.boot (fun _ => 0) (fun _ => 0)).pma
      (disklessMachine.run (disklessMachine.boot (fun _ => 0) (fun _ => 0)) .mem).pma := by
  have hready : Ready (disklessMachine.boot (fun _ => 0) (fun _ => 0)) :=
    ready_of_reachable (.boot _ _)
  have hpma : (disklessMachine.boot (fun _ => 0) (fun _ => 0)).pma =
      pmaInit linkedSymbols (some holedInfo) := rfl
  intro hkeeps
  rw [run_mem_pma, keeps_memstat_iff hready.wf, hpma] at hkeeps
  have hfree := holedInfo_frameOk (k := 0x1000) linkedSymbols (by decide) (by decide)
  exact Bool.false_ne_true ((hkeeps 0x1000).symm.trans hfree)

end Sessions

end Report

end Qizo
