import Mathlib.Data.List.Sort
import Qizo.Layout
import Qizo.Lib.Memory
import Qizo.Lib.Python
import Qizo.Lzss

/-!
# The boot model

`tools/qizocheck/qizobootmodel.py`: the boot chain once more in Python, on a disk image and the
kernel it should deliver. It reads the sectors named in the master boot record the way stage1 does,
fills in bootinfo, decodes the module, copies the kernel, and compares.

The memory of the model is a byte array of 64 MiB. Every address the model uses is a constant or
bounded by a check before it, and far below that, so a total function from addresses to bytes
stands for it here.

`copy_offset` looks for the operand of an `addl` in `boot/stage2.S`, finds `QIZO_QIZOK_HDR` and
evaluates it.

## Main results

* `stage1_eq_ok`, `fits_of_stage1` — which images are read, and what is in memory then
* `of_main_eq_ok`, `main_eq_ok` — what the model accepts
-/

namespace Qizo

namespace Bootmodel

open ByteString Python Memory

/-- `if c: raise SystemExit("model: ...")`. -/
def exitIf (c : Prop) [Decidable c] (msg : String) : Except PyError Unit :=
  raiseIf c (.exit ("model: " ++ msg))

/-- `mem.put_u16` and `mem.put_u32`. -/
def put (m : Memory) (w addr v : ℕ) : Except PyError Memory := do
  let b ← pack w v
  return m.write addr b

/-- A number in hexadecimal, as `%x` prints it. -/
def hex (n : ℕ) : String := .ofList (Nat.toDigits 16 n)

/-! ### Reading the disk -/

/-- `int13_read(mem, disk, dap)`: the number of sectors, where they went, and the memory. -/
def int13Read (m : Memory) (disk : List UInt8) (dap : ℕ) : Except PyError (ℕ × ℕ × Memory) := do
  exitIf (dap % 16 ≠ 0) "disk address packet not paragraph aligned"
  exitIf (m.load 1 dap ≠ 0x10) "disk address packet size byte is not 0x10"
  exitIf (m.load 2 (dap + 4) ≠ 0) "disk address packet reserved word is not zero"
  let count := m.load 2 (dap + 2)
  let off := m.load 2 (dap + 4)
  let seg := m.load 2 (dap + 6)
  let lba := m.load 4 (dap + 8)
  let dest := seg * 16 + off
  exitIf (count = 0 ∨ 127 < count) ("sector count " ++ toString count ++ " out of range")
  let src := slice disk (lba * sector) (lba * sector + count * sector)
  exitIf (src.length ≠ count * sector) ("disk underrun at lba " ++ toString lba)
  return (count, dest, m.write dest src)

/-- One pass of the loop of `stage1`: the number of sectors read after it, and the memory. -/
def stage1Pass (m : Memory) (disk : List UInt8) (bx total : ℕ) : Except PyError (ℕ × Memory) := do
  let count := min 64 (total - bx)
  let m := m.store 1 dapAddr 0x10
  let m ← put m 2 (dapAddr + 2) count
  let lin := stage2 + bx * sector
  let m ← put m 2 (dapAddr + 4) (lin &&& 0xF)
  let m ← put m 2 (dapAddr + 6) (lin >>> 4)
  let m ← put m 4 (dapAddr + 8) (m.load 4 (argAddr + argLba) + bx)
  let m ← put m 4 (dapAddr + 12) 0
  let (n, dest, m) ← int13Read m disk dapAddr
  exitIf (blobPhys + blobMax < dest + n * sector) "read overruns the blob region"
  return (bx + n, m)

/-- `while bx < total`. Each pass reads at least one sector, so `total` passes are enough. -/
def stage1Loop (disk : List UInt8) (total : ℕ) :
    (fuel : ℕ) → (bx : ℕ) → Memory → Except PyError (ℕ × Memory)
  | 0, bx, m => .ok (bx, m)
  | fuel + 1, bx, m =>
    if bx < total then do
      let (bx, m) ← stage1Pass m disk bx total
      stage1Loop disk total fuel bx m
    else .ok (bx, m)

/-- `stage1(mem, disk, drive)`: the number of bytes read, and the memory. -/
def stage1 (m : Memory) (disk : List UInt8) (drive : ℕ) : Except PyError (ℕ × Memory) := do
  let m := m.write 0x7C00 (slice disk 0 512)
  let m := m.store 1 (argAddr + argDrive) (drive &&& 0xFF)
  let total := m.load 2 (argAddr + argTotal)
  let (bx, m) ← stage1Loop disk total total 0 m
  return (bx * sector, m)

/-! ### Bootinfo and the module -/

/-- `stage2_real(mem)`. Only the size of the blob can be out of the range of its field. -/
def stage2Real (m : Memory) : Except PyError Memory := do
  let m := m.store 4 (bootinfo + biMagic) 0x00010001
  let m := m.store 1 (bootinfo + biDrive) (m.load 1 (argAddr + 0))
  let m := m.store 1 (bootinfo + biMode) 1
  let m := m.store 4 (bootinfo + biBlobLba) (m.load 4 (argAddr + 4))
  let m := m.store 2 (bootinfo + biBlobSectors) (m.load 2 (argAddr + 8))
  let size ← packInt 4 ((m.load 2 (argAddr + argTotal) * sector : ℕ) - (stage2Bytes : ℤ))
  let m := m.write (bootinfo + biBlobSize) size
  let m := m.store 4 (bootinfo + biBlobPhys) blobPhys
  let m := m.store 4 (bootinfo + biBlobCrc) (m.load 4 (argAddr + 12))
  let m := m.store 4 (bootinfo + biScratch) scratch
  let m := m.store 4 (bootinfo + biKtext) ktext
  let m := m.store 4 (bootinfo + biFlags) bootver
  let m := m.store 1 (bootinfo + biA20) 1
  return m.store 1 (bootinfo + biLongmode) 1

/-- What the model hands to the kernel. -/
structure Handoff where
  /-- Length of the kernel. -/
  klen : ℕ
  /-- Entry point, from the load address. -/
  entry : ℕ
  /-- Length of the kernel with its bss. -/
  total : ℕ
  /-- The memory. -/
  mem : Memory

/-- `copy_offset()`. -/
def copyOffset : ℕ := qizokHdr

/-- `stage2_pm32(mem)`. -/
def stage2Pm32 (m : Memory) : Except PyError Handoff := do
  let blob := m.bytes blobPhys (m.load 4 (bootinfo + biBlobSize))
  exitIf (Lzss.checksum blob ≠ m.load 4 (bootinfo + biBlobCrc)) "stage2 adler mismatch"
  let out ← Lzss.decompress blob
  let m := m.write scratch out
  let magic := m.load 4 scratch
  let klen := m.load 4 (scratch + 4)
  let entry := m.load 4 (scratch + 8)
  let total := m.load 4 (scratch + 12)
  exitIf (magic ≠ qizokMagic) "module magic missing"
  exitIf (kernelMax < klen ∨ kernelMax < total ∨ klen ≤ entry) "module header out of range"
  exitIf (klen + qizokHdr ≠ out.length) "decompressed size mismatch"
  let image := m.bytes (scratch + copyOffset) klen
  let m := m.write ktext image
  let m := m.write (ktext + klen) (List.replicate (total - klen) 0)
  return ⟨klen, entry, total, m⟩

/-! ### Regions -/

/-- A region of memory: its name, its first address and the one behind it. -/
abbrev Region := String × ℕ × ℕ

/-- `regions(klen, total)`. -/
def regions (klen total : ℕ) : List Region :=
  [("stage2+blob", stage2, blobPhys + blobMax),
    ("e820", e820Buf, e820Buf + e820Max * 24 + 8),
    ("pmstack", pmStack - 0x1000, pmStack),
    ("bootinfo", bootinfo, bootinfo + biSize),
    ("kernel", ktext, ktext + max klen total),
    ("scratch", scratch, scratch + kernelMax + qizokHdr),
    ("pages", pagePml4, pagePdt + 4 * 0x1000),
    ("fault idt", idtBoot, idtBoot + 32 * 16)]

/-- `for a, b in zip(rs, rs[1:])`. -/
def checkRegions : List Region → Except PyError Unit
  | a :: b :: rs => do
    exitIf (b.2.1 < a.2.2) (a.1 ++ " [" ++ hex a.2.1 ++ "," ++ hex a.2.2 ++ ") overlaps " ++ b.1 ++
      " [" ++ hex b.2.1 ++ "," ++ hex b.2.2 ++ ")")
    checkRegions (b :: rs)
  | _ => .ok ()

/-! ### The model -/

/-- Where two kernels first differ, or where the shorter one ends if they differ in length. -/
def differsAt (got kernel : List UInt8) : ℕ :=
  if got.length = kernel.length then
    ((List.range kernel.length).find? fun i => got[i]? ≠ kernel[i]?).getD 0
  else min got.length kernel.length

/-- `main()`, on the image and the kernel binary. -/
def main (disk kernel : List UInt8) : Except PyError Handoff := do
  let (sectors, m) ← stage1 (fun _ => 0) disk 0x80
  exitIf (sectors ≤ stage2Bytes) "nothing to decompress"
  let m ← stage2Real m
  let h ← stage2Pm32 m
  let got := h.mem.bytes ktext h.klen
  exitIf (got ≠ kernel)
    ("kernel at 0x" ++ hex ktext ++ " differs at +" ++ toString (differsAt got kernel))
  let first ← pyIndex kernel 0
  exitIf (h.mem ktext ≠ first) "entry byte mismatch"
  checkRegions ((regions h.klen h.total).insertionSort fun a b => a.2.1 ≤ b.2.1)
  return h

/-! ### One read -/

variable {m m' : Memory} {disk kernel out : List UInt8} {w a v bx total lba count fuel drive : ℕ}

/-- A check in front of a computation that raises nothing. -/
theorem exitIf_bind_eq_ok {α : Type} {c : Prop} [Decidable c] {msg : String} {r : α}
    {f : Unit → Except PyError α} : (exitIf c msg >>= f) = .ok r ↔ ¬c ∧ f () = .ok r := by
  rw [bind_eq_ok]
  constructor
  · rintro ⟨u, hu, h⟩
    exact ⟨raiseIf_eq_ok.mp hu, h⟩
  · rintro ⟨hc, h⟩
    exact ⟨(), raiseIf_of_not hc, h⟩

/-- A store in front of a computation that raises nothing. -/
theorem put_bind_eq_ok {α : Type} {r : α} {f : Memory → Except PyError α} :
    (put m w a v >>= f) = .ok r ↔ v < 256 ^ w ∧ f (m.store w a v) = .ok r := by
  rw [put, bind_assoc, bind_eq_ok]
  constructor
  · rintro ⟨b, hb, h⟩
    obtain ⟨hlt, rfl⟩ := pack_eq_ok hb
    exact ⟨hlt, h⟩
  · rintro ⟨hlt, h⟩
    exact ⟨_, pack_of_lt hlt, h⟩

/-- The disk address packet for `count` sectors from `lba + bx` on. -/
def packet (m : Memory) (lba bx count : ℕ) : Memory :=
  (((((m.store 1 dapAddr 0x10).store 2 (dapAddr + 2) count).store 2 (dapAddr + 4)
    ((stage2 + bx * sector) &&& 0xF)).store 2 (dapAddr + 6) ((stage2 + bx * sector) >>> 4)).store 4
      (dapAddr + 8) (lba + bx)).store 4 (dapAddr + 12) 0

theorem eqOutside_packet (m : Memory) (lba bx count : ℕ) :
    EqOutside m (packet m lba bx count) [(dapAddr, 16)] := by
  have hin {off w : ℕ} (h : off + w ≤ 16) (x : ℕ) (hx : Outside [(dapAddr, 16)] x) :
      x < dapAddr + off ∨ dapAddr + off + w ≤ x := by
    rw [outside_singleton] at hx
    omega
  refine ((((((EqOutside.refl m _).store ?_).store ?_).store ?_).store ?_).store ?_).store ?_
  · exact @hin 0 1 (by decide)
  all_goals exact hin (by decide)

/-- The offset in the packet is zero. -/
theorem linear_and (bx : ℕ) : (stage2 + bx * sector) &&& 0xF = 0 := by
  rw [show (0xF : ℕ) = 2 ^ 4 - 1 from rfl, Nat.and_two_pow_sub_one_eq_mod, stage2, sector]
  omega

theorem packet_words (hcount : count < 2 ^ 16) (hseg : (stage2 + bx * sector) >>> 4 < 2 ^ 16)
    (hlba : lba + bx < 2 ^ 32) :
    (packet m lba bx count).load 1 dapAddr = 0x10 ∧
      (packet m lba bx count).load 2 (dapAddr + 2) = count ∧
      (packet m lba bx count).load 2 (dapAddr + 4) = 0 ∧
      (packet m lba bx count).load 2 (dapAddr + 6) = (stage2 + bx * sector) >>> 4 ∧
      (packet m lba bx count).load 4 (dapAddr + 8) = lba + bx := by
  simp (disch := decide) only [packet, load_store_of_disjoint, linear_and]
  exact ⟨load_store_self (by decide), load_store_self hcount, load_store_self (by decide),
    load_store_self hseg, load_store_self hlba⟩

/-- The sectors of one read. -/
def chunk (disk : List UInt8) (lba bx count : ℕ) : List UInt8 :=
  slice disk ((lba + bx) * sector) ((lba + bx) * sector + count * sector)

/-- **One pass** succeeds exactly if the sectors are on the disk and end before the blob region
does. -/
theorem stage1Pass_eq_ok_iff {r : ℕ × Memory} (hlba : m.load 4 (argAddr + argLba) = lba)
    (hlt : lba + total < 2 ^ 32) (hbx : bx < total) (hcount : count = min 64 (total - bx)) :
    stage1Pass m disk bx total = .ok r ↔
      (chunk disk lba bx count).length = count * sector ∧
        stage2 + (bx + count) * sector ≤ blobPhys + blobMax ∧
        r = (bx + count, (packet m lba bx count).write (stage2 + bx * sector)
          (chunk disk lba bx count)) := by
  have hcount' : 0 < count ∧ count ≤ 64 := by omega
  have harg {w off v : ℕ} {m : Memory} (hoff : off ≤ 12) :
      (m.store w (dapAddr + off) v).load 4 (argAddr + argLba) = m.load 4 (argAddr + argLba) :=
    load_store_of_disjoint (.inl (by unfold argAddr argLba dapAddr; omega))
  have hload : ((((m.store 1 dapAddr 0x10).store 2 (dapAddr + 2) count).store 2 (dapAddr + 4)
      ((stage2 + bx * sector) &&& 0xF)).store 2 (dapAddr + 6)
      ((stage2 + bx * sector) >>> 4)).load 4 (argAddr + argLba) = lba := by
    rw [harg (by decide), harg (by decide), harg (by decide),
      load_store_of_disjoint (.inl (by decide)), hlba]
  have hread {r : ℕ × ℕ × Memory} (hseg : (stage2 + bx * sector) >>> 4 < 2 ^ 16) :
      int13Read (packet m lba bx count) disk dapAddr = .ok r ↔
        (chunk disk lba bx count).length = count * sector ∧
          (count, stage2 + bx * sector, (packet m lba bx count).write (stage2 + bx * sector)
            (chunk disk lba bx count)) = r := by
    obtain ⟨h0, h2, h4, h6, h8⟩ := @packet_words m bx lba count (by omega) hseg (by omega)
    have hdest : (stage2 + bx * sector) >>> 4 * 16 + 0 = stage2 + bx * sector := by
      rw [Nat.shiftRight_eq_div_pow, stage2, sector]
      omega
    rw [int13Read]
    simp only [exitIf_bind_eq_ok, h0, h2, h4, h6, h8, hdest]
    constructor
    · rintro ⟨-, -, -, -, hlen, h⟩
      exact ⟨not_not.mp hlen, Except.ok.inj h⟩
    · rintro ⟨hlen, rfl⟩
      exact ⟨by decide, by decide, by decide, by omega, not_not.mpr hlen, rfl⟩
  rw [stage1Pass, ← hcount]
  simp only [put_bind_eq_ok, hload]
  rw [← packet]
  constructor
  · rintro ⟨-, -, hseg, -, -, h⟩
    obtain ⟨_, hchunk, h⟩ := bind_eq_ok.mp h
    obtain ⟨hlen, rfl⟩ := (hread hseg).mp hchunk
    obtain ⟨hfit, h⟩ := exitIf_bind_eq_ok.mp h
    dsimp only at hfit
    refine ⟨hlen, ?_, (Except.ok.inj h).symm⟩
    rw [Nat.add_mul]
    omega
  · rintro ⟨hlen, hfit, rfl⟩
    have hseg : (stage2 + bx * sector) >>> 4 < 2 ^ 16 := by
      rw [Nat.shiftRight_eq_div_pow]
      simp only [stage2, sector, blobPhys, blobMax] at hfit ⊢
      omega
    refine ⟨by omega, by rw [linear_and]; decide, hseg, by omega, by decide, ?_⟩
    refine bind_eq_ok.mpr ⟨_, (hread hseg).mpr ⟨hlen, rfl⟩, exitIf_bind_eq_ok.mpr ⟨?_, rfl⟩⟩
    dsimp only
    rw [Nat.add_mul] at hfit
    omega

/-! ### The loop -/

/-- The sectors are on the disk, and they end before the blob region does. -/
structure Fits (disk : List UInt8) (lba total : ℕ) : Prop where
  on_disk : (lba + total) * sector ≤ disk.length
  in_region : stage2 + total * sector ≤ blobPhys + blobMax

theorem length_chunk_iff (hcount : 0 < count) :
    (chunk disk lba bx count).length = count * sector ↔
      (lba + (bx + count)) * sector ≤ disk.length := by
  rw [chunk, slice, List.length_drop, List.length_take, ← Nat.add_mul, ← Nat.add_assoc]
  simp only [sector]
  omega

/-- What a pass writes. -/
theorem eqOutside_pass (m : Memory) (hlen : (chunk disk lba bx count).length = count * sector) :
    EqOutside m ((packet m lba bx count).write (stage2 + bx * sector) (chunk disk lba bx count))
      [(dapAddr, 16), (stage2 + bx * sector, count * sector)] := by
  refine ((eqOutside_packet m lba bx count).mono fun x hx => ?_).trans
    ((eqOutside_write _ _ _).mono fun x hx => ?_)
  · exact outside_singleton.mpr (outside_cons.mp hx).1
  · rw [hlen]
    exact (outside_cons.mp hx).2

theorem load_lba_pass (m : Memory) (hlen : (chunk disk lba bx count).length = count * sector) :
    ((packet m lba bx count).write (stage2 + bx * sector) (chunk disk lba bx count)).load 4
      (argAddr + argLba) = m.load 4 (argAddr + argLba) := by
  refine (eqOutside_pass m hlen).load_eq fun x hx hx' => ?_
  simp only [outside_cons, outside_nil, and_true, argAddr, argLba, dapAddr, stage2] at hx hx' ⊢
  omega

/-- **The loop reads every sector**, and writes nothing but the packet and the sectors. -/
theorem stage1Loop_eq_ok (hfits : Fits disk lba total) (hlt : lba + total < 2 ^ 32)
    (hlba : m.load 4 (argAddr + argLba) = lba) (hbx : bx ≤ total) (hfuel : total ≤ bx + fuel)
    (hheld : m.Holds stage2 (slice disk (lba * sector) ((lba + bx) * sector))) :
    ∃ m', stage1Loop disk total fuel bx m = .ok (total, m') ∧
      m'.Holds stage2 (slice disk (lba * sector) ((lba + total) * sector)) ∧
      EqOutside m m' [(dapAddr, 16), (stage2, total * sector)] := by
  induction fuel generalizing bx m with
  | zero =>
    obtain rfl : bx = total := by omega
    exact ⟨m, rfl, hheld, .refl m _⟩
  | succ fuel ih =>
    rw [stage1Loop]
    by_cases hmore : bx < total
    · rw [if_pos hmore]
      obtain ⟨count, hcount⟩ : ∃ count, count = min 64 (total - bx) := ⟨_, rfl⟩
      have hdisk := hfits.on_disk
      have hregion := hfits.in_region
      have hlen : (chunk disk lba bx count).length = count * sector := by
        rw [length_chunk_iff (by omega)]
        refine Nat.le_trans (Nat.mul_le_mul_right _ ?_) hdisk
        omega
      have hend : stage2 + (bx + count) * sector ≤ blobPhys + blobMax := by
        refine Nat.le_trans (Nat.add_le_add_left (Nat.mul_le_mul_right _ ?_) _) hregion
        omega
      rw [(stage1Pass_eq_ok_iff hlba hlt hmore hcount).mpr ⟨hlen, hend, rfl⟩, ok_bind]
      dsimp only
      have hframe := eqOutside_pass m hlen
      have hread : (lba + bx) * sector ≤ disk.length :=
        Nat.le_trans (Nat.mul_le_mul_right _ (by omega)) hdisk
      have hslice : slice disk (lba * sector) ((lba + (bx + count)) * sector) =
          slice disk (lba * sector) ((lba + bx) * sector) ++ chunk disk lba bx count := by
        rw [chunk, slice_append_slice (Nat.mul_le_mul_right _ (Nat.le_add_right _ _))
          (Nat.le_add_right _ _), ← Nat.add_mul, Nat.add_assoc]
      have hlen' : (slice disk (lba * sector) ((lba + bx) * sector)).length = bx * sector := by
        rw [length_slice hread, Nat.add_mul, Nat.add_sub_cancel_left]
      have hbefore : bx * sector + count * sector ≤ total * sector := by
        rw [← Nat.add_mul]
        exact Nat.mul_le_mul_right _ (by omega)
      have hheld₁ : ((packet m lba bx count).write (stage2 + bx * sector)
          (chunk disk lba bx count)).Holds stage2
          (slice disk (lba * sector) ((lba + (bx + count)) * sector)) := by
        rw [hslice]
        refine Holds.append (hheld.of_eqOutside hframe fun x hx hx' => ?_) ?_
        · rw [hlen'] at hx'
          simp only [outside_cons, outside_nil, and_true, dapAddr, stage2] at hx hx' ⊢
          omega
        · rw [hlen']
          exact holds_write _ _ _
      obtain ⟨m', hm', hheld', hframe'⟩ :=
        ih ((load_lba_pass m hlen).trans hlba) (by omega) (by omega) hheld₁
      refine ⟨m', hm', hheld', (hframe.mono fun x hx => ?_).trans hframe'⟩
      simp only [outside_cons, outside_nil, and_true] at hx ⊢
      omega
    · rw [if_neg hmore]
      obtain rfl : bx = total := by omega
      exact ⟨m, rfl, hheld, .refl m _⟩

/-- The sectors the loop has read are there. -/
theorem fits_of_stage1Loop {r : ℕ × Memory} (hlt : lba + total < 2 ^ 32)
    (hlba : m.load 4 (argAddr + argLba) = lba) (hbx : bx < total) (hfuel : total ≤ bx + fuel)
    (h : stage1Loop disk total fuel bx m = .ok r) : Fits disk lba total := by
  induction fuel generalizing bx m with
  | zero => omega
  | succ fuel ih =>
    rw [stage1Loop, if_pos hbx] at h
    obtain ⟨count, hcount⟩ : ∃ count, count = min 64 (total - bx) := ⟨_, rfl⟩
    obtain ⟨_, hpass, h⟩ := bind_eq_ok.mp h
    obtain ⟨hlen, hend, rfl⟩ := (stage1Pass_eq_ok_iff hlba hlt hbx hcount).mp hpass
    rw [length_chunk_iff (by omega)] at hlen
    by_cases hmore : bx + count < total
    · refine ih ?_ hmore (by omega) h
      rw [load_lba_pass m ((length_chunk_iff (by omega)).mpr hlen), hlba]
    · obtain rfl : bx + count = total := by omega
      exact ⟨hlen, hend⟩

/-! ### stage1 -/

/-- A word of the arguments of stage1 in an image. -/
def argWord (disk : List UInt8) (w off : ℕ) : ℕ :=
  leNat (slice disk (stage1ArgsOff + off) (stage1ArgsOff + off + w))

/-- The memory the loop of `stage1` starts with. -/
def entryMem (m : Memory) (disk : List UInt8) (drive : ℕ) : Memory :=
  (m.write 0x7C00 (slice disk 0 512)).store 1 (argAddr + argDrive) (drive &&& 0xFF)

/-- The arguments in memory, where the master boot record is. -/
theorem load_of_mbr {off : ℕ} (hm : m.Holds 0x7C00 (slice disk 0 512)) (hlen : 512 ≤ disk.length)
    (hle : off + w ≤ 16) : m.load w (argAddr + off) = argWord disk w off := by
  have hmbr : (slice disk 0 512).length = 512 := length_slice hlen
  have haddr : argAddr + off = 0x7C00 + (stage1ArgsOff + off) := by
    unfold argAddr stage1ArgsOff biosArg
    omega
  have hbound : stage1ArgsOff + off + w ≤ 512 := by
    unfold stage1ArgsOff biosArg
    omega
  have hself : HasAt disk 0 (slice disk 0 512) := by
    intro i hi
    rw [hmbr] at hi
    rw [getElem?_slice (by omega)]
  have hword := hself.leNat_slice (k := stage1ArgsOff + off) (w := w) (by omega)
  rw [Nat.zero_add] at hword
  rw [haddr, load_of_holds_slice hm (by omega), argWord, hword]

/-- The arguments behind the drive number are those of the image. -/
theorem load_entryMem {off : ℕ} (hlen : 512 ≤ disk.length) (hoff : 1 ≤ off)
    (hle : off + w ≤ 16) :
    (entryMem m disk drive).load w (argAddr + off) = argWord disk w off := by
  rw [entryMem, load_store_of_disjoint (.inr (by unfold argDrive; omega)),
    load_of_mbr (holds_write _ _ _) hlen hle]

/-- What the image has in memory after `stage1`. -/
structure Read (disk : List UInt8) (m : Memory) : Prop where
  total_eq : m.load 2 (argAddr + argTotal) = argWord disk 2 argTotal
  crc_eq : m.load 4 (argAddr + argCrc) = argWord disk 4 argCrc
  sectors_at : m.Holds stage2 (slice disk (argWord disk 4 argLba * sector)
    ((argWord disk 4 argLba + argWord disk 2 argTotal) * sector))

/-- **An image that fits is read.** -/
theorem stage1_eq_ok (hlen : 512 ≤ disk.length)
    (hlt : argWord disk 4 argLba + argWord disk 2 argTotal < 2 ^ 32)
    (hfits : Fits disk (argWord disk 4 argLba) (argWord disk 2 argTotal)) :
    ∃ m', stage1 m disk drive = .ok (argWord disk 2 argTotal * sector, m') ∧ Read disk m' := by
  have hload {w off : ℕ} (hoff : 1 ≤ off) (hle : off + w ≤ 16) :
      (entryMem m disk drive).load w (argAddr + off) = argWord disk w off :=
    load_entryMem hlen hoff hle
  have hnone : (entryMem m disk drive).Holds stage2 (slice disk (argWord disk 4 argLba * sector)
      ((argWord disk 4 argLba + 0) * sector)) := by
    rw [Nat.add_zero, slice, List.drop_eq_nil_of_le (by rw [List.length_take]; omega)]
    exact holds_nil _ _
  obtain ⟨m', hm', hheld, hframe⟩ := @stage1Loop_eq_ok (entryMem m disk drive) disk 0
    (argWord disk 2 argTotal) (argWord disk 4 argLba) (argWord disk 2 argTotal) hfits hlt
    (hload (by decide) (by decide)) (Nat.zero_le _) (Nat.le_add_left _ _) hnone
  have hkept {w off : ℕ} (hoff : 1 ≤ off) (hle : off + w ≤ 16) :
      m'.load w (argAddr + off) = argWord disk w off := by
    rw [hframe.load_eq fun x hx hx' => ?_, hload hoff hle]
    simp only [outside_cons, outside_nil, and_true, argAddr, dapAddr, stage2] at hx hx' ⊢
    omega
  refine ⟨m', ?_, hkept (by decide) (by decide), hkept (by decide) (by decide), hheld⟩
  rw [stage1]
  dsimp only
  rw [← entryMem, hload (by decide) (by decide), hm']
  rfl

/-- **An image that is read fits.** -/
theorem fits_of_stage1 {r : ℕ × Memory} (hlen : 512 ≤ disk.length)
    (hlt : argWord disk 4 argLba + argWord disk 2 argTotal < 2 ^ 32)
    (hpos : 0 < argWord disk 2 argTotal) (h : stage1 m disk drive = .ok r) :
    Fits disk (argWord disk 4 argLba) (argWord disk 2 argTotal) := by
  rw [stage1] at h
  dsimp only at h
  rw [← entryMem, load_entryMem hlen (by decide) (by decide)] at h
  obtain ⟨_, hloop, -⟩ := bind_eq_ok.mp h
  exact fits_of_stage1Loop hlt (load_entryMem hlen (by decide) (by decide)) hpos
    (Nat.le_add_left _ _) hloop

/-! ### stage2 -/

/-- What `stage2_pm32` reads: the blob and what bootinfo has about it. -/
structure Staged (blob : List UInt8) (crc : ℕ) (m : Memory) : Prop where
  size_eq : m.load 4 (bootinfo + biBlobSize) = blob.length
  crc_eq : m.load 4 (bootinfo + biBlobCrc) = crc
  blob_at : m.Holds blobPhys blob

/-- The blob of an image, as the arguments of stage1 have it. -/
def blobOf (disk : List UInt8) : List UInt8 :=
  slice disk ((argWord disk 4 argLba + stage2Sectors) * sector)
    ((argWord disk 4 argLba + argWord disk 2 argTotal) * sector)

theorem length_blobOf (hfits : Fits disk (argWord disk 4 argLba) (argWord disk 2 argTotal)) :
    (blobOf disk).length = (argWord disk 2 argTotal - stage2Sectors) * sector := by
  rw [blobOf, length_slice hfits.on_disk, ← Nat.sub_mul, Nat.add_sub_add_left]

/-- The blob lies behind stage2. -/
theorem holds_blobOf (hfits : Fits disk (argWord disk 4 argLba) (argWord disk 2 argTotal))
    (hmore : stage2Sectors < argWord disk 2 argTotal)
    (h : m.Holds stage2 (slice disk (argWord disk 4 argLba * sector)
      ((argWord disk 4 argLba + argWord disk 2 argTotal) * sector))) :
    m.Holds blobPhys (blobOf disk) := by
  have hlba : argWord disk 4 argLba * sector ≤
      (argWord disk 4 argLba + stage2Sectors) * sector :=
    Nat.mul_le_mul_right _ (Nat.le_add_right _ _)
  have hslice := slice_append_slice (l := disk) hlba
    (Nat.mul_le_mul_right sector (Nat.add_le_add_left (Nat.le_of_lt hmore) _))
  rw [← hslice] at h
  have hright := h.right
  have hdisk : (argWord disk 4 argLba + stage2Sectors) * sector ≤ disk.length :=
    Nat.le_trans (Nat.mul_le_mul_right _ (by omega)) hfits.on_disk
  have haddr : stage2 + stage2Sectors * sector = blobPhys := by decide
  rw [length_slice hdisk, Nat.add_mul, Nat.add_sub_cancel_left, ← Nat.add_mul, haddr] at hright
  exact hright

/-- **Bootinfo.** -/
theorem stage2Real_eq_ok (hread : Read disk m)
    (hfits : Fits disk (argWord disk 4 argLba) (argWord disk 2 argTotal))
    (hmore : stage2Sectors < argWord disk 2 argTotal) :
    ∃ m', stage2Real m = .ok m' ∧ Staged (blobOf disk) (argWord disk 4 argCrc) m' := by
  have hcrc : argWord disk 4 argCrc < 256 ^ 4 := hread.crc_eq ▸ load_lt _ _ _
  have htotal : argWord disk 2 argTotal < 256 ^ 2 := hread.total_eq ▸ load_lt _ _ _
  have hsize : packInt 4 ((argWord disk 2 argTotal * sector : ℕ) - (stage2Bytes : ℤ)) =
      .ok (leBytes 4 (blobOf disk).length) := by
    have hbytes : ((argWord disk 2 argTotal * sector : ℕ) - (stage2Bytes : ℤ)) =
        ((blobOf disk).length : ℕ) := by
      rw [length_blobOf hfits]
      simp only [stage2Sectors, sector, stage2Bytes] at hmore ⊢
      omega
    rw [hbytes, packInt, if_pos (Int.natCast_nonneg _), Int.toNat_natCast, pack_of_lt]
    rw [length_blobOf hfits]
    simp only [stage2Sectors, sector] at hmore ⊢
    omega
  have hblob := holds_blobOf hfits hmore hread.sectors_at
  rw [stage2Real]
  simp (disch := decide) only [load_store_of_disjoint]
  rw [hread.total_eq, hsize, ok_bind, ← Memory.store]
  simp (disch := decide) only [load_store_of_disjoint]
  refine ⟨_, rfl, ?_, ?_, ?_⟩
  · simp (disch := decide) only [load_store_of_disjoint]
    refine load_store_self ?_
    rw [length_blobOf hfits]
    simp only [stage2Sectors, sector] at hmore ⊢
    omega
  · simp (disch := decide) only [load_store_of_disjoint]
    rw [show argAddr + 12 = argAddr + argCrc from rfl, hread.crc_eq]
    exact load_store_self hcrc
  · refine hblob.of_eqOutside (R := [(bootinfo, biSize)]) ?_ fun x hx _ => ?_
    · have hin {off w : ℕ} (h : off + w ≤ biSize) (x : ℕ) (hx : Outside [(bootinfo, biSize)] x) :
          x < bootinfo + off ∨ bootinfo + off + w ≤ x := by
        rw [outside_singleton] at hx
        omega
      refine (((((((((((((EqOutside.refl m _).store ?_).store ?_).store ?_).store ?_).store
        ?_).store ?_).store ?_).store ?_).store ?_).store ?_).store ?_).store ?_).store ?_
      all_goals exact hin (by decide)
    · rw [outside_singleton]
      simp only [blobPhys, bootinfo, biSize] at hx ⊢
      omega

/-- A word of the header of a module. -/
def headerWord (out : List UInt8) (off : ℕ) : ℕ := leNat (slice out off (off + 4))

/-- What `stage2_pm32` asks of a module. -/
structure Accepted (out : List UInt8) : Prop where
  magic : headerWord out 0 = qizokMagic
  klen_le : headerWord out 4 ≤ kernelMax
  total_le : headerWord out 12 ≤ kernelMax
  entry_lt : headerWord out 8 < headerWord out 4
  length_eq : headerWord out 4 + qizokHdr = out.length

/-- What it returns for one. -/
def handoff (m : Memory) (out : List UInt8) : Handoff where
  klen := headerWord out 4
  entry := headerWord out 8
  total := headerWord out 12
  mem := ((m.write scratch out).write ktext
    (slice out qizokHdr (qizokHdr + headerWord out 4))).write (ktext + headerWord out 4)
      (List.replicate (headerWord out 12 - headerWord out 4) 0)

/-- **The module.** -/
theorem stage2Pm32_eq_ok_iff {blob : List UInt8} {crc : ℕ} {h : Handoff} (hm : Staged blob crc m) :
    stage2Pm32 m = .ok h ↔ Lzss.checksum blob = crc ∧
      ∃ out, Lzss.decompress blob = .ok out ∧ Accepted out ∧ handoff m out = h := by
  have hwords {out : List UInt8} (hlen : qizokHdr ≤ out.length) :
      (m.write scratch out).load 4 scratch = headerWord out 0 ∧
      (m.write scratch out).load 4 (scratch + 4) = headerWord out 4 ∧
      (m.write scratch out).load 4 (scratch + 8) = headerWord out 8 ∧
      (m.write scratch out).load 4 (scratch + 12) = headerWord out 12 := by
    have hword {off : ℕ} (hoff : off + 4 ≤ qizokHdr) :
        (m.write scratch out).load 4 (scratch + off) = headerWord out off :=
      load_of_holds_slice (holds_write m scratch out) (Nat.le_trans hoff hlen)
    exact ⟨@hword 0 (by decide), hword (by decide), hword (by decide), hword (by decide)⟩
  have himage {out : List UInt8} {n : ℕ} (hlen : qizokHdr + n ≤ out.length) :
      (m.write scratch out).bytes (scratch + copyOffset) n = slice out qizokHdr (qizokHdr + n) := by
    have hheld := (holds_write m scratch out).slice qizokHdr (qizokHdr + n)
    have := holds_iff_bytes_eq.mp hheld
    rwa [length_slice hlen, Nat.add_sub_cancel_left] at this
  rw [stage2Pm32]
  dsimp only
  rw [hm.size_eq, hm.crc_eq, holds_iff_bytes_eq.mp hm.blob_at, exitIf_bind_eq_ok, not_not]
  refine and_congr_right fun _ => ?_
  rw [bind_eq_ok]
  refine exists_congr fun out => and_congr_right fun _ => ?_
  simp only [exitIf_bind_eq_ok, not_or, Nat.not_lt, Nat.not_le, not_not]
  constructor
  · rintro ⟨hmagic, ⟨hklen, htotal, hentry⟩, hlen, h⟩
    obtain ⟨h0, h4, h8, h12⟩ := hwords (show qizokHdr ≤ out.length by omega)
    rw [h4] at hlen
    rw [h4, h8, h12, himage (by omega)] at h
    exact ⟨⟨h0 ▸ hmagic, h4 ▸ hklen, h12 ▸ htotal, h4 ▸ h8 ▸ hentry, hlen⟩, Except.ok.inj h⟩
  · rintro ⟨hout, rfl⟩
    have hlen := hout.length_eq
    obtain ⟨h0, h4, h8, h12⟩ := hwords (show qizokHdr ≤ out.length by omega)
    rw [h0, h4, h8, h12, himage (by omega)]
    exact ⟨hout.magic, ⟨hout.klen_le, hout.total_le, hout.entry_lt⟩, hlen, rfl⟩

/-- The kernel and its bss are in place. -/
theorem holds_handoff (m : Memory) (hout : Accepted out) :
    (handoff m out).mem.Holds ktext (slice out qizokHdr (qizokHdr + headerWord out 4)) ∧
      (handoff m out).mem.Holds (ktext + headerWord out 4)
        (List.replicate (headerWord out 12 - headerWord out 4) 0) := by
  have hlen := hout.length_eq
  refine ⟨(holds_write _ _ _).of_eqOutside (eqOutside_write _ _ _) fun x _ hx => ?_,
    holds_write _ _ _⟩
  rw [length_slice (by omega), Nat.add_sub_cancel_left] at hx
  exact outside_singleton.mpr (.inl hx)

/-! ### The regions -/

/-- The regions in the order of their addresses, whatever the kernel. -/
theorem insertionSort_regions (klen total : ℕ) :
    ((regions klen total).insertionSort fun a b => a.2.1 ≤ b.2.1) =
      [("bootinfo", bootinfo, bootinfo + biSize),
        ("stage2+blob", stage2, blobPhys + blobMax),
        ("e820", e820Buf, e820Buf + e820Max * 24 + 8),
        ("pmstack", pmStack - 0x1000, pmStack),
        ("kernel", ktext, ktext + max klen total),
        ("scratch", scratch, scratch + kernelMax + qizokHdr),
        ("pages", pagePml4, pagePdt + 4 * 0x1000),
        ("fault idt", idtBoot, idtBoot + 32 * 16)] := by
  simp [regions, List.insertionSort, List.orderedInsert, stage2, e820Buf, pmStack, bootinfo, ktext,
    scratch, pagePml4, idtBoot]

/-- **The regions are disjoint** for every kernel that fits. -/
theorem checkRegions_eq_ok {klen : ℕ} (hklen : klen ≤ kernelMax) (htotal : total ≤ kernelMax) :
    checkRegions ((regions klen total).insertionSort fun a b => a.2.1 ≤ b.2.1) = .ok () := by
  have hkernel : ¬scratch < ktext + max klen total := by
    have hroom : ktext + kernelMax ≤ scratch := by decide
    omega
  have hpair {a b : Region} {rs : List Region} (h : ¬b.2.1 < a.2.2) :
      checkRegions (a :: b :: rs) = checkRegions (b :: rs) := by
    rw [checkRegions, exitIf, raiseIf_of_not h]
    rfl
  have hstack : ¬ktext < pmStack := by decide
  rw [insertionSort_regions, hpair (by decide), hpair (by decide), hpair (by decide),
    hpair hstack, hpair hkernel, hpair (by decide), hpair (by decide)]
  rfl

/-! ### What the model accepts -/

/-- The words of an image that the model reads, as far as they do not depend on the disk. -/
structure Arguments (disk : List UInt8) : Prop where
  mbr : 512 ≤ disk.length
  no_wrap : argWord disk 4 argLba + argWord disk 2 argTotal < 2 ^ 32
  covers : stage2Sectors < argWord disk 2 argTotal

/-- What the model has found in an image it accepts. -/
structure Boots (disk kernel out : List UInt8) : Prop where
  fits : Fits disk (argWord disk 4 argLba) (argWord disk 2 argTotal)
  checksum_eq : Lzss.checksum (blobOf disk) = argWord disk 4 argCrc
  decompress_eq : Lzss.decompress (blobOf disk) = .ok out
  accepted : Accepted out
  kernel_eq : slice out qizokHdr (qizokHdr + headerWord out 4) = kernel

/-- The kernel in memory is the one in the module. -/
theorem bytes_handoff (m : Memory) (hout : Accepted out) :
    (handoff m out).mem.bytes ktext (headerWord out 4) =
      slice out qizokHdr (qizokHdr + headerWord out 4) := by
  have hlen := hout.length_eq
  have hheld := holds_iff_bytes_eq.mp (holds_handoff m hout).1
  rwa [length_slice (by omega), Nat.add_sub_cancel_left] at hheld

/-- **An image the model accepts.** -/
theorem of_main_eq_ok {h : Handoff} (harg : Arguments disk) (hmain : main disk kernel = .ok h) :
    ∃ out m, Boots disk kernel out ∧ handoff m out = h := by
  rw [main] at hmain
  obtain ⟨⟨sectors, m₁⟩, hstage1, hmain⟩ := bind_eq_ok.mp hmain
  dsimp only at hmain
  have hfits := fits_of_stage1 harg.mbr harg.no_wrap (Nat.zero_lt_of_lt harg.covers) hstage1
  obtain ⟨m₁', hread, hheld⟩ := @stage1_eq_ok (fun _ => 0) disk 0x80 harg.mbr harg.no_wrap hfits
  obtain ⟨rfl, rfl⟩ := Prod.mk.inj (Except.ok.inj (hstage1.symm.trans hread))
  obtain ⟨-, hmain⟩ := exitIf_bind_eq_ok.mp hmain
  obtain ⟨m₂, hreal, hmain⟩ := bind_eq_ok.mp hmain
  obtain ⟨m₂', hreal', hstaged⟩ := stage2Real_eq_ok hheld hfits harg.covers
  obtain rfl := Except.ok.inj (hreal.symm.trans hreal')
  obtain ⟨h', hpm32, hmain⟩ := bind_eq_ok.mp hmain
  obtain ⟨hcrc, out, hdec, hout, rfl⟩ := (stage2Pm32_eq_ok_iff hstaged).mp hpm32
  obtain ⟨hsame, hmain⟩ := exitIf_bind_eq_ok.mp hmain
  obtain ⟨_, -, hmain⟩ := bind_eq_ok.mp hmain
  obtain ⟨-, hmain⟩ := exitIf_bind_eq_ok.mp hmain
  obtain ⟨_, -, hmain⟩ := bind_eq_ok.mp hmain
  refine ⟨out, m₂, ⟨hfits, hcrc, hdec, hout, ?_⟩, Except.ok.inj hmain⟩
  rw [← bytes_handoff m₂ hout]
  exact not_not.mp hsame

/-- **The model accepts every such image.** -/
theorem main_eq_ok (harg : Arguments disk) (hboots : Boots disk kernel out) :
    ∃ m, main disk kernel = .ok (handoff m out) := by
  have hout := hboots.accepted
  obtain ⟨m₁, hread, hheld⟩ :=
    @stage1_eq_ok (fun _ => 0) disk 0x80 harg.mbr harg.no_wrap hboots.fits
  obtain ⟨m₂, hreal, hstaged⟩ := stage2Real_eq_ok hheld hboots.fits harg.covers
  have hpm32 := (stage2Pm32_eq_ok_iff hstaged).mpr
    ⟨hboots.checksum_eq, out, hboots.decompress_eq, hout, rfl⟩
  have hklen : (handoff m₂ out).klen = headerWord out 4 := rfl
  have hgot : (handoff m₂ out).mem.bytes ktext (handoff m₂ out).klen = kernel := by
    rw [hklen, bytes_handoff m₂ hout, hboots.kernel_eq]
  have hentry := hout.entry_lt
  -- the kernel is not empty, so there is a first byte to compare
  obtain ⟨b, hb⟩ : ∃ b, kernel[0]? = some b := by
    refine ⟨_, List.getElem?_eq_getElem ?_⟩
    rw [← hgot, length_bytes, hklen]
    omega
  have hfirst : (handoff m₂ out).mem ktext = b := by
    rw [← hgot, getElem?_bytes (by rw [hklen]; omega), Nat.add_zero] at hb
    exact Option.some.inj hb
  refine ⟨m₂, ?_⟩
  rw [main, hread, ok_bind]
  dsimp only
  rw [exitIf_bind_eq_ok]
  refine ⟨?_, ?_⟩
  · have hcovers := harg.covers
    simp only [stage2Bytes, stage2Sectors, sector] at hcovers ⊢
    omega
  rw [hreal, ok_bind, hpm32, ok_bind, exitIf_bind_eq_ok]
  refine ⟨not_not.mpr hgot, ?_⟩
  rw [show pyIndex kernel 0 = .ok b from pyIndex_ofNat hb, ok_bind, exitIf_bind_eq_ok]
  refine ⟨not_not.mpr hfirst, ?_⟩
  have hregions := @checkRegions_eq_ok (handoff m₂ out).total (handoff m₂ out).klen hout.klen_le
    hout.total_le
  rw [hregions, ok_bind]
  rfl

end Bootmodel

end Qizo
