import Qizo.Kernel.Fat
import Qizo.Kernel.PmaGiveBack

/-!
# When the table buffer is taken

The volume driver allocates its buffer for the allocation table the first time a search stops at a
volume for whose table there is room. Every other search leaves the frame allocator alone.

## Main results

* `looked_scanWindows` — the searches of `fat_for` with the buffer in place
* `scanWindows_cases` — and without it
-/

namespace Qizo

namespace Fat

open Memory Pma Ata

/-! ### Looking for volumes

`Takes` follows the searches of `fat_for` without a table buffer: they stop at a volume for whose
table there is room, and otherwise leave everything but the sector buffer and the clock as it
was. -/

section Volumes

variable {hw : Hardware} {blob : Blob} {drive : ℕ} {out : QizoFat} {k k' : State}

/-- The search from `first` on stops at an acceptable sector, and there is room for its table. -/
def TakesAt (hw : Hardware) (drive first : ℕ) (k : State) : Prop :=
  (search hw drive first fatScanLbas 0 k).1.isSome = true ∧
    HasRun k.pma (atLeastOne (bpbOf (search hw drive first fatScanLbas 0 k).2.sector).fatPages)

/-- One of the searches comes to a volume for whose table there is room. -/
def Takes (hw : Hardware) (drive : ℕ) : List ℕ → State → Prop
  | [], _ => False
  | first :: rest, k =>
    TakesAt hw drive first k ∨ Takes hw drive rest (search hw drive first fatScanLbas 0 k).2

/-- The state after searches that take nothing. -/
def look (hw : Hardware) (drive : ℕ) : List ℕ → State → State
  | [], k => k
  | first :: rest, k => look hw drive rest (search hw drive first fatScanLbas 0 k).2

/-- `fat_for` looks for a volume on this drive. -/
def Attached (k : State) (drive : ℕ) : Prop :=
  k.ata.ataLive = true ∧ (driveSectorsOf k.ata drive).isSome = true

instance (k : State) (drive : ℕ) : Decidable (Attached k drive) :=
  inferInstanceAs (Decidable (_ ∧ _))

/-- One of the drives has a volume for whose table there is room. -/
def TakesAny (hw : Hardware) (blob : Blob) : List ℕ → State → Prop
  | [], _ => False
  | drive :: rest, k =>
    if Attached k drive then
      Takes hw drive (windows blob) k ∨ TakesAny hw blob rest (look hw drive (windows blob) k)
    else TakesAny hw blob rest k

/-- The allocator and the disk driver are as they were, but for the clock. -/
structure Looked (k k' : State) : Prop where
  /-- The allocator. -/
  pma : k'.pma = k.pma
  /-- The table buffer. -/
  fatbuf : k'.fatbuf = k.fatbuf
  /-- The drivers are started. -/
  started : k'.started = k.started
  /-- The disk driver. -/
  ata : ∃ t, k'.ata = { k.ata with tick := t }

/-- The table buffer has been taken. -/
structure Took (k k' : State) : Prop where
  /-- It was not there. -/
  fatbuf_eq : k.fatbuf = 0
  /-- A run of frames is gone. -/
  run : ∃ f n, 0 < n ∧ (∀ j < n, frameOk k.pma (f + j) = true) ∧ k'.pma = takeRun k.pma f n
  /-- It is there. -/
  fatbuf_ne : k'.fatbuf ≠ 0
  /-- The drivers are started. -/
  started : k'.started = k.started
  /-- The disk driver. -/
  ata : ∃ t, k'.ata = { k.ata with tick := t }

theorem Looked.refl (k : State) : Looked k k := ⟨rfl, rfl, rfl, _, rfl⟩

theorem Looked.trans {k'' : State} (h : Looked k k') (h' : Looked k' k'') : Looked k k'' := by
  obtain ⟨t, ht⟩ := h.ata
  obtain ⟨t', ht'⟩ := h'.ata
  exact ⟨h'.pma.trans h.pma, h'.fatbuf.trans h.fatbuf, h'.started.trans h.started, t', by
    rw [ht', ht]⟩

theorem Looked.took {k'' : State} (h : Looked k k') (h' : Took k' k'') : Took k k'' := by
  obtain ⟨t, ht⟩ := h.ata
  obtain ⟨t', ht'⟩ := h'.ata
  have hrun := h'.run
  rw [h.pma] at hrun
  exact ⟨h.fatbuf ▸ h'.fatbuf_eq, hrun, h'.fatbuf_ne, h'.started.trans h.started, t', by
    rw [ht', ht]⟩

theorem Took.looked {k'' : State} (h : Took k k') (h' : Looked k' k'') : Took k k'' := by
  obtain ⟨t, ht⟩ := h.ata
  obtain ⟨t', ht'⟩ := h'.ata
  have hrun := h.run
  rw [← h'.pma] at hrun
  exact ⟨h.fatbuf_eq, hrun, h'.fatbuf ▸ h.fatbuf_ne, h'.started.trans h.started, t', by
    rw [ht', ht]⟩

theorem looked_search (hw : Hardware) (drive first fuel i : ℕ) (k : State) :
    Looked k (search hw drive first fuel i k).2 := by
  obtain ⟨m, t, h⟩ := search_state hw drive first fuel i k
  rw [h]
  exact ⟨rfl, rfl, rfl, t, rfl⟩

theorem looked_look (hw : Hardware) (drive : ℕ) (firsts : List ℕ) (k : State) :
    Looked k (look hw drive firsts k) := by
  induction firsts generalizing k with
  | nil => exact .refl k
  | cons first rest ih => exact (looked_search hw drive first fatScanLbas 0 k).trans (ih _)

/-- The buffer is there already, there is no room for it, or it is taken. -/
theorem takeBuffer_cases (hs : Wf k.pma) :
    k.fatbuf ≠ 0 ∧ takeBuffer k = k ∨
      k.fatbuf = 0 ∧ ¬HasRun k.pma (atLeastOne (bpbOf k.sector).fatPages) ∧ takeBuffer k = k ∨
      HasRun k.pma (atLeastOne (bpbOf k.sector).fatPages) ∧ Took k (takeBuffer k) := by
  unfold takeBuffer
  by_cases hbuf : k.fatbuf = 0
  · refine .inr ?_
    rw [if_pos hbuf]
    rcases pageAlloc_spec hs (bpbOf k.sector).fatPages with ⟨hrun, hnone⟩ | ⟨f, hf, hsome, ha, -⟩
    · refine .inl ⟨hbuf, hrun, ?_⟩
      rw [hnone]
      dsimp only
      rw [← hbuf]
    · refine .inr ⟨⟨f, hf⟩, hbuf, ⟨f, _, ?_, hf, ?_⟩, ?_, rfl, _, rfl⟩
      · unfold atLeastOne
        split <;> omega
      · rw [hsome]
      · rw [hsome]
        exact ha
  · exact .inl ⟨hbuf, if_neg hbuf⟩

/-- One search, with the buffer in place. -/
theorem looked_scanDrive (hs : Wf k.pma) (hbuf : k.fatbuf ≠ 0) (first : ℕ) :
    Looked k (scanDrive hw drive first out k).2.2 := by
  have hlook := looked_search hw drive first fatScanLbas 0 k
  rw [scanDrive, scanLoop_eq]
  generalize search hw drive first fatScanLbas 0 k = r at hlook ⊢
  rcases r with ⟨_ | lba, k₁⟩
  · exact hlook
  · dsimp only at hlook ⊢
    obtain ⟨m, t, hmount, -⟩ := mount_cases hw drive first lba out k₁
    rw [hmount]
    have hs₁ : Wf k₁.pma := by rwa [hlook.pma]
    rcases takeBuffer_cases hs₁ with ⟨-, hsame⟩ | ⟨hzero, -⟩ | ⟨-, htook⟩
    · rw [hsame]
      exact hlook.trans ⟨rfl, rfl, rfl, t, rfl⟩
    · exact absurd (hlook.fatbuf ▸ hzero) hbuf
    · exact absurd (hlook.fatbuf ▸ htook.fatbuf_eq) hbuf

/-- One search, without the buffer. -/
theorem scanDrive_cases (hs : Wf k.pma) (hbuf : k.fatbuf = 0) (out : QizoFat) (first : ℕ) :
    TakesAt hw drive first k ∧ Took k (scanDrive hw drive first out k).2.2 ∨
      ¬TakesAt hw drive first k ∧ scanDrive hw drive first out k =
        (false, out, (search hw drive first fatScanLbas 0 k).2) := by
  have hlook := looked_search hw drive first fatScanLbas 0 k
  rw [scanDrive, scanLoop_eq, TakesAt]
  generalize search hw drive first fatScanLbas 0 k = r at hlook ⊢
  rcases r with ⟨_ | lba, k₁⟩
  · exact .inr ⟨fun h => Bool.false_ne_true h.1, rfl⟩
  · dsimp only at hlook ⊢
    have hs₁ : Wf k₁.pma := by rwa [hlook.pma]
    have hbuf₁ : k₁.fatbuf = 0 := hlook.fatbuf.trans hbuf
    rw [← hlook.pma]
    rcases takeBuffer_cases hs₁ with ⟨hne, -⟩ | ⟨-, hrun, hsame⟩ | ⟨hrun, htook⟩
    · exact absurd hbuf₁ hne
    · refine .inr ⟨fun h => hrun h.2, ?_⟩
      rw [mount]
      dsimp only
      rw [hsame, if_pos hbuf₁]
    · obtain ⟨m, t, hmount, -⟩ := mount_cases hw drive first lba out k₁
      refine .inl ⟨⟨rfl, hrun⟩, ?_⟩
      rw [hmount]
      have hata : (takeBuffer k₁).ata = k₁.ata := takeBuffer_ata
      exact hlook.took (htook.looked ⟨rfl, rfl, rfl, t, by rw [hata]⟩)

theorem looked_scanWindows (hs : Wf k.pma) (hbuf : k.fatbuf ≠ 0) (firsts : List ℕ)
    (out : QizoFat) : Looked k (scanWindows hw drive firsts out k).2.2 := by
  induction firsts generalizing out k with
  | nil => exact .refl k
  | cons first rest ih =>
    have hlook := @looked_scanDrive hw drive out _ hs hbuf first
    rw [scanWindows]
    dsimp only
    split
    · exact hlook
    · exact hlook.trans (ih (by rwa [hlook.pma]) (by rwa [hlook.fatbuf]) _)

theorem Took.wf (h : Took k k') (hs : Wf k.pma) : Wf k'.pma := by
  obtain ⟨f, n, -, -, hpma⟩ := h.run
  rw [hpma]
  exact hs.takeRun

/-- **The searches of `fat_for`**, without the buffer. -/
theorem scanWindows_cases (hs : Wf k.pma) (hbuf : k.fatbuf = 0) (firsts : List ℕ)
    (out : QizoFat) :
    Takes hw drive firsts k ∧ Took k (scanWindows hw drive firsts out k).2.2 ∨
      ¬Takes hw drive firsts k ∧
        scanWindows hw drive firsts out k = (false, out, look hw drive firsts k) := by
  induction firsts generalizing k with
  | nil => exact .inr ⟨id, rfl⟩
  | cons first rest ih =>
    rw [scanWindows, Takes, look]
    rcases scanDrive_cases hs hbuf out first with
      ⟨htakes, htook⟩ | ⟨hnot, hscan⟩
    · refine .inl ⟨.inl htakes, ?_⟩
      dsimp only
      split
      · exact htook
      · exact htook.looked (looked_scanWindows (htook.wf hs) htook.fatbuf_ne rest _)
    · have hlook := looked_search hw drive first fatScanLbas 0 k
      rw [hscan]
      dsimp only
      rw [if_neg Bool.false_ne_true]
      rcases ih (k := (search hw drive first fatScanLbas 0 k).2) (by rwa [hlook.pma])
        (hlook.fatbuf.trans hbuf) with ⟨htakes, htook⟩ | ⟨hnot', hrest⟩
      · exact .inl ⟨.inr htakes, hlook.took htook⟩
      · exact .inr ⟨fun h => h.elim hnot hnot', hrest⟩

theorem Took.not_keeps (h : Took k k') : ¬Keeps k.pma k'.pma := by
  obtain ⟨f, n, hn, hf, hpma⟩ := h.run
  have hlacks := lacks_takeRun hf
  rw [hpma]
  refine not_keeps_of_lost hlacks.total (f := f) (hf 0 hn) ?_
  exact (hlacks.ok f).trans (if_pos (by omega))

end Volumes

end Fat

end Qizo
