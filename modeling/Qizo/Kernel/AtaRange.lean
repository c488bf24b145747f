import Qizo.Kernel.Ata

/-!
# Capacity and range

A drive declares its capacity in words 60 and 61 of the answer to IDENTIFY, low word first.
`ata_identify` shifts the second word by 32 places instead of 16. A drive with a second word other
than zero then seems to have too many sectors, and the driver takes the words of the old geometry in
their place, as if they were one number.

`qizo_ata_read_drive` compares `lba + count` with the capacity in 64 bits, where the sum can wrap
around to a small number.

## Main results

* `totalOf_eq` — the capacity that is recorded
* `onDisk_iff` — the drives and requests for which it is the declared one and reads stay on the disk
-/

namespace Qizo

namespace Ata

/-- The answer of an ATA drive to IDENTIFY: bit 15 of the first word is clear, and the capacity fits
the 28 bits of a sector number. -/
structure IdentifyBlock where
  /-- The words. -/
  words : ℕ → UInt16
  /-- It is an ATA drive. -/
  ata : words 0 &&& 0x8000 = 0
  /-- It has a sector. -/
  pos : 1 ≤ (words 60).toNat + 2 ^ 16 * (words 61).toNat
  /-- It has no more than can be addressed. -/
  le : (words 60).toNat + 2 ^ 16 * (words 61).toNat ≤ 0x0FFFFFFF

namespace IdentifyBlock

/-- The declared capacity. -/
def sectors (b : IdentifyBlock) : ℕ := (b.words 60).toNat + 2 ^ 16 * (b.words 61).toNat

/-- The words of the old geometry as one number. -/
def geometry (b : IdentifyBlock) : ℕ :=
  (b.words 1).toNat + 2 ^ 16 * (b.words 3).toNat + 2 ^ 32 * (b.words 6).toNat

end IdentifyBlock

variable {hw : Hardware} {s : State} {b : IdentifyBlock} {drive lba count : ℕ}

/-- **The capacity that is recorded.** -/
theorem totalOf_eq (b : IdentifyBlock) :
    totalOf b.words =
      if b.words 61 = 0 then b.sectors else min b.geometry 0x0FFFFFFF := by
  have h60 := (b.words 60).toNat_lt
  have h61 := (b.words 61).toNat_lt
  have h1 := (b.words 1).toNat_lt
  have h3 := (b.words 3).toNat_lt
  have hpos := b.pos
  have hle := b.le
  have htotal : (b.words 60).toNat ||| (b.words 61).toNat <<< 32 =
      (b.words 60).toNat + 2 ^ 32 * (b.words 61).toNat := or_shiftLeft (by omega)
  have hold : (b.words 1).toNat ||| (b.words 3).toNat <<< 16 ||| (b.words 6).toNat <<< 32 =
      b.geometry := by
    rw [or_shiftLeft h1, or_shiftLeft (by omega)]
    rfl
  simp only [totalOf, htotal, hold]
  by_cases hzero : b.words 61 = 0
  · have hz : (b.words 61).toNat = 0 := by rw [hzero]; rfl
    have htake : ¬((b.words 60).toNat + 2 ^ 32 * (b.words 61).toNat = 0 ∨
        0x0FFFFFFF < (b.words 60).toNat + 2 ^ 32 * (b.words 61).toNat) := by omega
    rw [if_pos hzero, if_neg htake, if_neg (by omega), IdentifyBlock.sectors, hz, Nat.mul_zero,
      Nat.mul_zero]
  · have hz : (b.words 61).toNat ≠ 0 := fun heq => hzero (UInt16.toNat_inj.mp heq)
    have hgive : (b.words 60).toNat + 2 ^ 32 * (b.words 61).toNat = 0 ∨
        0x0FFFFFFF < (b.words 60).toNat + 2 ^ 32 * (b.words 61).toNat := by omega
    rw [if_neg hzero, if_pos hgive]
    split <;> omega

/-- After `qizo_ata_start` a drive that answers is there, with that capacity. -/
theorem start_eq (s : State) (hdrive : drive ≤ 1) (hid : hw.identify drive = some b.words) :
    (start hw s).driveOk drive = true ∧ (start hw s).driveSectors drive = totalOf b.words := by
  have hident : identify hw drive = some (totalOf b.words) := by
    rw [identify, hid, Option.bind_some, if_neg (by simp [b.ata])]
  have hstarted (s : State) : (startDrive hw s drive).driveOk drive = true ∧
      (startDrive hw s drive).driveSectors drive = totalOf b.words := by
    rw [startDrive, hident]
    exact ⟨Function.update_self .., Function.update_self ..⟩
  rw [start]
  rcases Nat.le_one_iff_eq_zero_or_eq_one.mp hdrive with rfl | rfl
  · obtain ⟨hok, hsectors⟩ := startDrive_of_ne hw (startDrive hw s 0) Nat.zero_ne_one
    rw [hok, hsectors]
    exact hstarted s
  · exact hstarted _

/-- The recorded capacity is the declared one, and a request that is handed to the drive is for one
to sixteen sectors, all on the disk, and the registers say so. -/
def OnDisk (hw : Hardware) (s : State) (b : IdentifyBlock) (drive lba count : ℕ) : Prop :=
  (start hw s).driveSectors drive = b.sectors ∧
    ∀ regs, readCommand (start hw s) drive lba count = some regs →
      1 ≤ count ∧ count ≤ 16 ∧ lba + count ≤ b.sectors ∧
        regs.count.toNat = count ∧ regs.lba = lba ∧ regs.drive = drive

/-- The sum of sector number and count wraps around, to a number in the range of the disk. -/
def Wraps (b : IdentifyBlock) (lba count : ℕ) : Prop :=
  1 ≤ count ∧ count ≤ 16 ∧ 2 ^ 64 ≤ lba + count ∧ lba + count - 2 ^ 64 ≤ b.sectors

/-- **Reads stay on the disk** exactly if the second word of the capacity is zero, or the old
geometry read as one number is the capacity by chance, and the sum in the range check does not wrap
into the disk. -/
theorem onDisk_iff (hw : Hardware) (s : State) (b : IdentifyBlock) (hdrive : drive ≤ 1)
    (hid : hw.identify drive = some b.words) (hlba : lba < 2 ^ 64) :
    OnDisk hw s b drive lba count ↔
      (b.words 61 = 0 ∨ min b.geometry 0x0FFFFFFF = b.sectors) ∧ ¬Wraps b lba count := by
  obtain ⟨hok, hsectors⟩ := start_eq s hdrive hid
  have hle : b.sectors ≤ 0x0FFFFFFF := b.le
  have hcapacity : (start hw s).driveSectors drive = b.sectors ↔
      b.words 61 = 0 ∨ min b.geometry 0x0FFFFFFF = b.sectors := by
    rw [hsectors, totalOf_eq]
    by_cases hzero : b.words 61 = 0
    · rw [if_pos hzero]
      exact iff_of_true rfl (.inl hzero)
    · rw [if_neg hzero, or_iff_right hzero]
  rw [OnDisk, ← hcapacity]
  refine and_congr_right fun hcap => ?_
  simp only [readCommand_eq_some_iff, hcap]
  constructor
  · rintro hread ⟨hpos, hmax, hover, hin⟩
    obtain ⟨-, -, hon, -⟩ := hread _ ⟨⟨hdrive, hok⟩, ⟨hpos, hmax⟩, by omega, rfl⟩
    omega
  · rintro hwraps regs ⟨-, ⟨hpos, hmax⟩, hin, rfl⟩
    have hon : lba + count ≤ b.sectors := by
      by_contra hoff
      refine hwraps ⟨hpos, hmax, ?_, ?_⟩
      all_goals omega
    exact ⟨hpos, hmax, hon, count_readRegs hmax, lba_readRegs hdrive (by omega),
      drive_readRegs hdrive (by omega)⟩

/-- A drive with the given words 60 and 61, the others zero. -/
def plainDrive (low high : UInt16) : Hardware where
  attached := true
  identify drv := if drv = 0 then some fun i => if i = 60 then low else if i = 61 then high else 0
    else none
  transfer _ _ _ := none

/-- A hundred sectors. -/
def smallBlock : IdentifyBlock :=
  ⟨fun i => if i = 60 then 100 else if i = 61 then 0 else 0, by decide, by decide, by decide⟩

/-- The condition on a small drive. -/
theorem onDisk_iff_small :
    OnDisk (plainDrive 100 0) State.boot smallBlock 0 99 1 ↔
      (smallBlock.words 61 = 0 ∨ min smallBlock.geometry 0x0FFFFFFF = smallBlock.sectors) ∧
        ¬Wraps smallBlock 99 1 :=
  onDisk_iff _ _ _ (by decide) rfl (by decide)

/-- 65536 sectors, which is 32 MiB. -/
def largeBlock : IdentifyBlock :=
  ⟨fun i => if i = 60 then 0 else if i = 61 then 1 else 0, by decide, by decide, by decide⟩

/-- **The capacity of a larger drive is lost.** -/
theorem not_onDisk_large :
    (plainDrive 0 1).identify 0 = some largeBlock.words ∧
      ¬OnDisk (plainDrive 0 1) State.boot largeBlock 0 0 1 := by
  refine ⟨rfl, fun h => ?_⟩
  have hsectors := (@start_eq (plainDrive 0 1) largeBlock 0 State.boot (by decide) rfl).2
  rw [h.1] at hsectors
  exact absurd hsectors (by decide)

end Ata

end Qizo
