import Qizo.Kernel.Ata

/-!
# Reading from a disk

The disk driver over drives that hold something: what a drive hands over are its sectors, though it
may fail at any time. A request that succeeds puts the sectors it names where they were asked for,
and one that fails has put down some of them.

## Main results

* `readDrive_eq_true` — what a request that succeeds has done
* `readDrive_fst_iff` — when it succeeds
-/

namespace Qizo

namespace Ata

open Memory

/-- What a drive hands over are its sectors. `disk` gives the bytes of each sector of each drive. -/
def Reads (hw : Hardware) (disk : ℕ → ℕ → Memory) : Prop :=
  ∀ tick r s data, hw.transfer tick r s = some data →
    ∀ i < 512, data i = disk r.drive (r.lba + s) i

/-- The request becomes a command, and the drive hands over every sector of it. -/
def Handed (hw : Hardware) (s : State) (drive lba count : ℕ) : Prop :=
  ∃ regs, readCommand s drive lba count = some regs ∧
    ∀ j < count, (hw.transfer (s.tick + j) regs j).isSome = true

variable {hw : Hardware} {disk : ℕ → ℕ → Memory} {regs : Regs} {st st' : State}
  {n s dst tick t drive lba count : ℕ} {ok : Bool} {m m' : Memory}

/-! ### The loop over the sectors -/

/-- **When the loop succeeds.** -/
theorem readLoop_fst_iff (hw : Hardware) (regs : Regs) (n s dst tick : ℕ) (m : Memory) :
    (readLoop hw regs n s dst tick m).1 = true ↔
      ∀ j < n, (hw.transfer (tick + j) regs (s + j)).isSome = true := by
  induction n generalizing s dst tick m with
  | zero => exact iff_of_true rfl fun j hj => absurd hj (Nat.not_lt_zero j)
  | succ n ih =>
    rw [readLoop]
    rcases hdata : hw.transfer tick regs s with _ | data
    · refine iff_of_false Bool.false_ne_true fun hall => ?_
      have := hall 0 n.succ_pos
      rw [Nat.add_zero, Nat.add_zero, hdata] at this
      cases this
    · dsimp only
      rw [ih]
      constructor
      · intro hall j hj
        cases j with
        | zero => rw [Nat.add_zero, Nat.add_zero, hdata, Option.isSome_some]
        | succ j =>
          rw [Nat.add_comm j, ← Nat.add_assoc, ← Nat.add_assoc]
          exact hall j (Nat.lt_of_succ_lt_succ hj)
      · intro hall j hj
        rw [Nat.add_assoc, Nat.add_assoc, Nat.add_comm 1]
        exact hall (j + 1) (Nat.succ_lt_succ hj)

/-- The loop writes to the room of its sectors. -/
theorem readLoop_eqOutside (hw : Hardware) (regs : Regs) (n s dst tick : ℕ) (m : Memory) :
    EqOutside m (readLoop hw regs n s dst tick m).2.1 [(dst, n * 512)] := by
  induction n generalizing s dst tick m with
  | zero => exact .refl m _
  | succ n ih =>
    rw [readLoop]
    split
    · exact .refl m _
    · next data _ =>
      refine ((eqOutside_write m dst _).mono fun x hx => ?_).trans
        ((ih _ _ _ _).mono fun x hx => ?_)
      · rw [outside_cons] at hx ⊢
        rw [List.length_map, List.length_range]
        exact ⟨by omega, hx.2⟩
      · rw [outside_cons] at hx ⊢
        exact ⟨by omega, hx.2⟩

/-- **What a loop that succeeds has read.** -/
theorem readLoop_eq_true (hreads : Reads hw disk)
    (h : readLoop hw regs n s dst tick m = (true, m', t)) :
    t = tick + n ∧ ∀ i < n * 512,
      m' (dst + i) = disk regs.drive (regs.lba + s + i / 512) (i % 512) := by
  induction n generalizing s dst tick m with
  | zero =>
    rw [readLoop] at h
    refine ⟨(Prod.mk.inj (Prod.mk.inj h).2).2.symm, fun i hi => ?_⟩
    omega
  | succ n ih =>
    rw [readLoop] at h
    rcases hdata : hw.transfer tick regs s with _ | data
    · rw [hdata] at h
      cases h
    · rw [hdata] at h
      dsimp only at h
      obtain ⟨ht, hrest⟩ := ih h
      refine ⟨by omega, fun i hi => ?_⟩
      by_cases hfirst : i < 512
      · -- the first sector, which the others leave alone
        have hframe := readLoop_eqOutside hw regs n (s + 1) (dst + 512) (tick + 1)
          (m.write dst ((List.range 512).map data)) (dst + i)
          (by rw [outside_cons]; exact ⟨Or.inl (by omega), outside_nil _⟩)
        rw [h] at hframe
        dsimp only at hframe
        have hget : ((List.range 512).map data)[i]? = some (data i) := by
          rw [List.getElem?_map, List.getElem?_range hfirst, Option.map_some]
        have hwrite := holds_write m dst ((List.range 512).map data) i (data i) hget
        rw [hframe, hwrite, hreads _ _ _ _ hdata i hfirst, Nat.div_eq_of_lt hfirst, Nat.add_zero,
          Nat.mod_eq_of_lt hfirst]
      · have hother := hrest (i - 512) (by omega)
        rw [show dst + 512 + (i - 512) = dst + i by omega,
          show regs.lba + (s + 1) + (i - 512) / 512 = regs.lba + s + i / 512 by omega,
          show (i - 512) % 512 = i % 512 by omega] at hother
        exact hother

/-! ### Requests -/

/-- **When a request succeeds.** -/
theorem readDrive_fst_iff (hw : Hardware) (st : State) (drive lba count dst : ℕ) (m : Memory) :
    (readDrive hw st drive lba count dst m).1 = true ↔ Handed hw st drive lba count := by
  rw [readDrive, Handed]
  rcases hcmd : readCommand st drive lba count with _ | regs
  · exact iff_of_false Bool.false_ne_true nofun
  · dsimp only
    rw [readLoop_fst_iff]
    simp only [Nat.zero_add]
    constructor
    · exact fun hall => ⟨regs, rfl, hall⟩
    · rintro ⟨_, hregs, hall⟩
      obtain rfl := Option.some.inj hregs
      exact hall

/-- A request writes to the room of its sectors. -/
theorem readDrive_eqOutside (hw : Hardware) (st : State) (drive lba count dst : ℕ) (m : Memory) :
    EqOutside m (readDrive hw st drive lba count dst m).2.1 [(dst, count * 512)] := by
  rw [readDrive]
  split
  · exact .refl m _
  · exact readLoop_eqOutside hw _ count 0 dst st.tick m

/-- **What a request that succeeds has done.** -/
theorem readDrive_eq_true (hreads : Reads hw disk) (hsectors : st.driveSectors drive < 2 ^ 28)
    (hwrap : lba + count < 2 ^ 64) (h : readDrive hw st drive lba count dst m = (true, m', st')) :
    lba + count ≤ st.driveSectors drive ∧ st' = { st with tick := st.tick + count } ∧
      ∀ i < count * 512, m' (dst + i) = disk drive (lba + i / 512) (i % 512) := by
  rw [readDrive] at h
  rcases hcmd : readCommand st drive lba count with _ | regs
  · rw [hcmd] at h
    cases h
  · obtain ⟨⟨hdrive, -⟩, -, hrange, rfl⟩ := readCommand_eq_some_iff.mp hcmd
    rw [Nat.mod_eq_of_lt hwrap] at hrange
    rw [hcmd] at h
    dsimp only at h
    rcases hloop : readLoop hw (readRegs drive lba count) count 0 dst st.tick m with ⟨ok, m₁, t⟩
    rw [hloop] at h
    dsimp only at h
    obtain ⟨rfl, hrest⟩ := Prod.mk.inj h
    obtain ⟨rfl, rfl⟩ := Prod.mk.inj hrest
    obtain ⟨rfl, hmem⟩ := readLoop_eq_true hreads hloop
    refine ⟨hrange, rfl, fun i hi => ?_⟩
    rw [hmem i hi, drive_readRegs hdrive (by omega), lba_readRegs hdrive (by omega), Nat.add_zero]

/-- The driver never takes a drive for larger than the 28 bits of a sector number. -/
theorem start_driveSectors_lt (hw : Hardware) (st : State) (hdrive : drive ≤ 1) :
    (start hw st).driveSectors drive < 2 ^ 28 := by
  have hcap (total : ℕ) : (if 0x0FFFFFFF < total then 0x0FFFFFFF else total) < 2 ^ 28 := by
    split <;> omega
  have htotal (id : ℕ → UInt16) : totalOf id < 2 ^ 28 := hcap _
  have hself (st : State) (drv : ℕ) : (startDrive hw st drv).driveSectors drv < 2 ^ 28 := by
    rw [startDrive]
    split
    · next total hid =>
      rw [identify, Option.bind_eq_some_iff] at hid
      obtain ⟨id, -, hid⟩ := hid
      split at hid
      · cases hid
      · obtain rfl := Option.some.inj hid
        dsimp only
        rw [Function.update_self]
        exact htotal id
    · dsimp only
      rw [Function.update_self]
      exact Nat.two_pow_pos 28
  rw [start]
  rcases Nat.le_one_iff_eq_zero_or_eq_one.mp hdrive with rfl | rfl
  · rw [(startDrive_of_ne hw _ Nat.zero_ne_one).2]
    exact hself st 0
  · exact hself _ 1

end Ata

end Qizo
