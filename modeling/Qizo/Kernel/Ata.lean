import Qizo.Kernel.Pma
import Qizo.Lib.Memory

/-!
# The disk driver

`kernel/drivers/ata.c`, less its model strings and counters. The hardware is a parameter: an
arbitrary function from the registers the driver programs, and from the number of sectors that
have been asked for so far, to what the drive answers. A drive may answer the same command
differently at different times, and fail at any sector.
-/

namespace Qizo

namespace Ata

open Memory

/-- The registers of a command: device and head, sector count, and the low three bytes of the
sector number. -/
structure Regs where
  /-- Port `0x1F6`. -/
  device : UInt8
  /-- Port `0x1F2`. -/
  count : UInt8
  /-- Port `0x1F3`. -/
  lbaLow : UInt8
  /-- Port `0x1F4`. -/
  lbaMid : UInt8
  /-- Port `0x1F5`. -/
  lbaHigh : UInt8
  deriving DecidableEq, Repr

/-- What the hardware answers. -/
structure Hardware where
  /-- One of the two status ports does not read as `0xFF`. -/
  attached : Bool
  /-- The words of the answer to IDENTIFY, where the drive answers. -/
  identify : (drv : ℕ) → Option (ℕ → UInt16)
  /-- The bytes of sector `s` of a READ command, where the drive gets ready to hand it over. -/
  transfer : (tick : ℕ) → Regs → (s : ℕ) → Option (ℕ → UInt8)

/-- The static variables, with the number of sectors asked for so far. -/
structure State where
  /-- `drive_ok`. -/
  driveOk : ℕ → Bool
  /-- `drive_sectors`. -/
  driveSectors : ℕ → ℕ
  /-- `ata_live`. -/
  ataLive : Bool
  /-- The sectors asked for. -/
  tick : ℕ

/-- The state at boot. -/
def State.boot : State := ⟨fun _ => false, fun _ => 0, false, 0⟩

/-! ### Identification -/

/-- The number of sectors in the words of IDENTIFY, as `ata_identify` computes it. -/
def totalOf (id : ℕ → UInt16) : ℕ :=
  let total := (id 60).toNat ||| (id 61).toNat <<< 32
  let total :=
    if total = 0 ∨ 0x0FFFFFFF < total then
      (id 1).toNat ||| (id 3).toNat <<< 16 ||| (id 6).toNat <<< 32
    else total
  if 0x0FFFFFFF < total then 0x0FFFFFFF else total

/-- `ata_identify`: the number of sectors of a drive that is there. -/
def identify (hw : Hardware) (drv : ℕ) : Option ℕ :=
  (hw.identify drv).bind fun id =>
    if id 0 &&& 0x8000 ≠ 0 then none else some (totalOf id)

/-- The body of the loop of `qizo_ata_start`. -/
def startDrive (hw : Hardware) (s : State) (drv : ℕ) : State :=
  match identify hw drv with
  | some total =>
    { s with
      driveSectors := Function.update s.driveSectors drv total
      driveOk := Function.update s.driveOk drv true
      ataLive := true }
  | none => { s with driveSectors := Function.update s.driveSectors drv 0 }

/-- `qizo_ata_start`. -/
def start (hw : Hardware) (s : State) : State := startDrive hw (startDrive hw s 0) 1

/-- `qizo_ata_drive_sectors`. -/
def driveSectorsOf (s : State) (drv : ℕ) : Option ℕ :=
  if 1 < drv ∨ s.driveOk drv = false then none else some (s.driveSectors drv)

/-! ### Reading -/

/-- The registers of a READ command. -/
def readRegs (drive lba count : ℕ) : Regs where
  device := 0xE0 ||| .ofNat (drive <<< 4) ||| (.ofNat ((lba % 2 ^ 32) >>> 24) &&& 0x0F)
  count := .ofNat count
  lbaLow := .ofNat lba
  lbaMid := .ofNat (lba >>> 8)
  lbaHigh := .ofNat (lba >>> 16)

/-- The command `qizo_ata_read_drive` gives, if it gives one. -/
def readCommand (s : State) (drive lba count : ℕ) : Option Regs :=
  if 1 < drive ∨ s.driveOk drive = false then none
  else if count = 0 ∨ 16 < count then none
  else if s.driveSectors drive < (lba + count) % 2 ^ 64 then none
  else some (readRegs drive lba count)

/-- The loop over the sectors of a command, from sector `s` on with `n` left: they go to memory at
`dst`. -/
def readLoop (hw : Hardware) (regs : Regs) : (n s dst tick : ℕ) → Memory → Bool × Memory × ℕ
  | 0, _, _, tick, m => (true, m, tick)
  | n + 1, s, dst, tick, m =>
    match hw.transfer tick regs s with
    | none => (false, m, tick + 1)
    | some data =>
      readLoop hw regs n (s + 1) (dst + 512) (tick + 1) (m.write dst ((List.range 512).map data))

/-- `qizo_ata_read_drive`: whether it succeeds, the memory it reads to, and the driver's state. -/
def readDrive (hw : Hardware) (s : State) (drive lba count dst : ℕ) (m : Memory) :
    Bool × Memory × State :=
  match readCommand s drive lba count with
  | none => (false, m, s)
  | some regs =>
    let (ok, m, tick) := readLoop hw regs count 0 dst s.tick m
    (ok, m, { s with tick := tick })

/-- What is known of a drive changes only by its own IDENTIFY. -/
theorem startDrive_of_ne {drive drv : ℕ} (hw : Hardware) (s : State) (hne : drive ≠ drv) :
    (startDrive hw s drv).driveOk drive = s.driveOk drive ∧
      (startDrive hw s drv).driveSectors drive = s.driveSectors drive := by
  rw [startDrive]
  split
  · exact ⟨Function.update_of_ne hne .., Function.update_of_ne hne ..⟩
  · exact ⟨rfl, Function.update_of_ne hne ..⟩

/-- A request that becomes a command is for a few sectors of a drive that is there, on the disk but
for a sum that wraps around. -/
theorem readCommand_eq_some_iff {s : State} {drive lba count : ℕ} {regs : Regs} :
    readCommand s drive lba count = some regs ↔
      (drive ≤ 1 ∧ s.driveOk drive = true) ∧ (1 ≤ count ∧ count ≤ 16) ∧
        (lba + count) % 2 ^ 64 ≤ s.driveSectors drive ∧ readRegs drive lba count = regs := by
  rw [readCommand]
  by_cases hdrive : 1 < drive ∨ s.driveOk drive = false
  · rw [if_pos hdrive]
    refine iff_of_false nofun fun h => ?_
    rcases hdrive with hdrive | hdrive
    · omega
    · exact Bool.false_ne_true (hdrive.symm.trans h.1.2)
  · rw [if_neg hdrive]
    rw [not_or, Bool.not_eq_false, Nat.not_lt] at hdrive
    by_cases hcount : count = 0 ∨ 16 < count
    · rw [if_pos hcount]
      exact iff_of_false nofun fun h => by omega
    · rw [if_neg hcount]
      by_cases hrange : s.driveSectors drive < (lba + count) % 2 ^ 64
      · rw [if_pos hrange]
        exact iff_of_false nofun fun h => by omega
      · rw [if_neg hrange, Option.some.injEq]
        exact ⟨fun h => ⟨hdrive, by omega, by omega, h⟩, fun h => h.2.2.2⟩

/-- A read changes the clock and nothing else of the driver. -/
theorem readDrive_state (hw : Hardware) (s : State) (drive lba count dst : ℕ) (m : Memory) :
    ∃ t, (readDrive hw s drive lba count dst m).2.2 = { s with tick := t } := by
  unfold readDrive
  split
  · exact ⟨s.tick, rfl⟩
  · exact ⟨_, rfl⟩

/-! ### What the registers name -/

/-- Numbers next to each other. -/
theorem or_shiftLeft {n a w : ℕ} (h : a < 2 ^ n) : a ||| w <<< n = a + 2 ^ n * w := by
  rw [Nat.or_comm, ← Nat.shiftLeft_add_eq_or_of_lt h, Nat.shiftLeft_eq, Nat.mul_comm,
    Nat.add_comm]

/-- The sector the registers name. -/
def Regs.lba (r : Regs) : ℕ :=
  r.lbaLow.toNat + 2 ^ 8 * r.lbaMid.toNat + 2 ^ 16 * r.lbaHigh.toNat +
    2 ^ 24 * (r.device.toNat % 16)

/-- The drive the registers name. -/
def Regs.drive (r : Regs) : ℕ := r.device.toNat / 16 % 2

section Registers

variable {drive lba count : ℕ}

theorem device_readRegs (hdrive : drive ≤ 1) (h : lba < 2 ^ 28) :
    (readRegs drive lba count).device.toNat = 0xE0 + 16 * drive + lba / 2 ^ 24 := by
  have hhigh : (lba % 2 ^ 32) >>> 24 = lba / 2 ^ 24 := by
    rw [Nat.mod_eq_of_lt (by omega), Nat.shiftRight_eq_div_pow]
  have hall : ∀ d ≤ 1, ∀ n < 16, ((0xE0 : UInt8) ||| .ofNat (d <<< 4) |||
      (.ofNat n &&& 0x0F)).toNat = 0xE0 + 16 * d + n := by decide
  rw [readRegs]
  dsimp only
  rw [hhigh]
  exact hall _ hdrive _ (by omega)

/-- A read command names its sector. -/
theorem lba_readRegs (hdrive : drive ≤ 1) (h : lba < 2 ^ 28) :
    (readRegs drive lba count).lba = lba := by
  rw [Regs.lba, device_readRegs hdrive h, readRegs]
  dsimp only
  rw [UInt8.toNat_ofNat', UInt8.toNat_ofNat', UInt8.toNat_ofNat', Nat.shiftRight_eq_div_pow,
    Nat.shiftRight_eq_div_pow]
  omega

/-- A read command names its drive. -/
theorem drive_readRegs (hdrive : drive ≤ 1) (h : lba < 2 ^ 28) :
    (readRegs drive lba count).drive = drive := by
  rw [Regs.drive, device_readRegs hdrive h]
  omega

theorem count_readRegs (h : count ≤ 16) : (readRegs drive lba count).count.toNat = count := by
  rw [readRegs]
  dsimp only
  rw [UInt8.toNat_ofNat']
  omega

end Registers

end Ata

end Qizo
