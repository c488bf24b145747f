import Qizo.Layout
import Qizo.Lib.PyString
import Qizo.Lzss

/-!
# The image checker

`tools/qizocheck/qizocheck.py`: the checks on a disk image, on the blob and the module in it, and
on its FAT volume. The checks of `main` on other files (the stage1 and stage2 binaries, the
kernel's symbols, the ISO) are left out, except the comparison of stage2 with the sectors it was
copied to.

`fail` prints its message and makes the program end with status 1. Here it is the `SystemExit` that
follows.
-/

namespace Qizo

namespace Check

open ByteString Python

/-- `fail(msg)`. -/
def fail {α : Type} (msg : String) : Except PyError α :=
  .error (.exit ("qizo: check FAIL: " ++ msg))

/-- `if c: return fail(msg)`. -/
def failIf (c : Prop) [Decidable c] (msg : String) : Except PyError Unit :=
  raiseIf c (.exit ("qizo: check FAIL: " ++ msg))

theorem failIf_of_not {c : Prop} [Decidable c] {msg : String} (h : ¬c) : failIf c msg = .ok () :=
  raiseIf_of_not h

/-- A byte in two hexadecimal digits. -/
def hexByte (b : UInt8) : String :=
  .ofList [Nat.digitChar (b.toNat / 16), Nat.digitChar (b.toNat % 16)]

/-! ### The FAT volume -/

/-- The fields of the boot sector the checker uses, with the sector it was read from. -/
structure Volume where
  /-- First sector of the volume. -/
  part : ℕ
  /-- Sectors per cluster. -/
  spc : ℕ
  /-- Sectors in front of the first allocation table. -/
  reserved : ℕ
  /-- Number of allocation tables. -/
  nfats : ℕ
  /-- Entries of the root directory. -/
  rootcnt : ℕ
  /-- Sectors of one allocation table. -/
  fatSize : ℕ
  deriving DecidableEq, Repr

namespace Volume

/-- `root_lba`. -/
def rootLba (v : Volume) : ℕ := v.part + v.reserved + v.nfats * v.fatSize

/-- `data_lba`. -/
def dataLba (v : Volume) : ℕ := v.rootLba + (v.rootcnt * 32 + sector - 1) / sector

/-- The byte offset of allocation table number `copy`. The checker reads the first. -/
def fatOff (v : Volume) (copy : ℕ) : ℕ := (v.part + v.reserved + copy * v.fatSize) * sector

end Volume

/-- The boot sector of the volume at sector `part`. -/
def readVolume (img : List UInt8) (part : ℕ) : Except PyError Volume := do
  let bs := slice img (part * sector) (part * sector + sector)
  failIf (slice bs 510 512 ≠ [0x55, 0xAA]) "boot sector signature missing"
  let bps ← unpackFrom 2 bs 11
  let spc ← pyIndex bs 13
  let reserved ← unpackFrom 2 bs 14
  let nfats ← pyIndex bs 16
  let rootcnt ← unpackFrom 2 bs 17
  let media ← pyIndex bs 21
  let fatSize ← unpackFrom 2 bs 22
  failIf (bps ≠ sector) ("unexpected bytes per sector " ++ toString bps)
  failIf (media ≠ 0xF8 ∧ media ≠ 0xF9) ("unexpected media byte " ++ hexByte media)
  return ⟨part, spc.toNat, reserved, nfats.toNat, rootcnt, fatSize⟩

/-- A line of the root directory: name, size and first cluster. -/
abbrev Entry := List Char × ℕ × ℕ

/-- `b.decode().strip()`. -/
def decodeName (b : List UInt8) : Except PyError (List Char) :=
  match decode b with
  | some s => .ok (strip s)
  | none => .error (.value "utf-8")

/-- The name, size and first cluster in one line. -/
def parseEntry (e : List UInt8) : Except PyError Entry := do
  let name ← decodeName (slice e 0 8)
  let ext ← decodeName (slice e 8 11)
  let cluster ← unpackFrom 2 e 26
  let size ← unpackFrom 4 e 28
  return (stripBy (· == '.') (name ++ '.' :: ext), size, cluster)

/-- `for i in range(rootcnt)`, entered at `i` with `n` lines left. The directory ends at the first
line that starts with a zero byte; labels and long name parts are passed over. -/
def rootLoop (img : List UInt8) (base : ℕ) : ℕ → (i : ℕ) → Except PyError (List Entry)
  | 0, _ => .ok []
  | n + 1, i =>
    let e := slice img (base + i * 32) (base + (i + 1) * 32)
    if e.head?.getD 0 = 0 then .ok []
    else do
      let attrs ← pyIndex e 11
      if attrs = 0x0F ∨ attrs = 0x08 then rootLoop img base n (i + 1)
      else do
        let entry ← parseEntry e
        let rest ← rootLoop img base n (i + 1)
        return entry :: rest

/-- `fat16(img, fat_off_bytes, index)`. -/
def fat16 (img : List UInt8) (fatOff index : ℕ) : Except PyError ℕ :=
  unpackFrom 2 img (fatOff + index * 2)

/-- The clusters `while cur >= 2 and cur < 0xFFF8 and spins < 100000` goes through, from `cur` on
with that many passes left. -/
def chainLoop (img : List UInt8) (fatOff : ℕ) : ℕ → (cur : ℕ) → Except PyError (List ℕ)
  | 0, _ => .ok []
  | n + 1, cur =>
    if 2 ≤ cur ∧ cur < 0xFFF8 then do
      let nxt ← fat16 img fatOff cur
      let rest ← chainLoop img fatOff n nxt
      return cur :: rest
    else .ok []

/-- The cluster chain that starts at `cur`. -/
def chain (img : List UInt8) (v : Volume) (copy cur : ℕ) : Except PyError (List ℕ) :=
  chainLoop img (v.fatOff copy) 100000 cur

/-- The sectors of one cluster. -/
def clusterData (img : List UInt8) (v : Volume) (c : ℕ) : List UInt8 :=
  let lba := v.dataLba + (c - 2) * v.spc
  slice img (lba * sector) ((lba + v.spc) * sector)

/-- The contents of the file an entry describes. -/
def readFile (img : List UInt8) (v : Volume) (copy : ℕ) (e : Entry) :
    Except PyError (List UInt8) := do
  let clusters ← chain img v copy e.2.2
  return (clusters.flatMap (clusterData img v)).take e.2.1

/-- The dictionary `found`, latest binding first. -/
def findFiles (img : List UInt8) (v : Volume) (copy : ℕ) :
    List Entry → (found : List (List Char × List UInt8)) →
      Except PyError (List (List Char × List UInt8))
  | [], found => .ok found
  | e :: es, found => do
    let data ← readFile img v copy e
    findFiles img v copy es ((e.1, data) :: found)

/-- The files of the volume at sector `part`, read through allocation table `copy`. -/
def readFiles (img : List UInt8) (part copy : ℕ) :
    Except PyError (List (List Char × List UInt8)) := do
  let v ← readVolume img part
  let entries ← rootLoop img (v.rootLba * sector) v.rootcnt 0
  findFiles img v copy entries []

/-- `check_fs(img, kernel)`. -/
def checkFs (img kernel : List UInt8) : Except PyError Unit := do
  let part ← unpackFrom 4 img 0x1C6
  let found ← readFiles img part 0
  match found.lookup "KERNEL.BIN".toList with
  | none => fail "KERNEL.BIN missing from root directory"
  | some data =>
    if data ≠ kernel then fail "KERNEL.BIN in the filesystem differs from the module kernel"
    else
      match found.lookup "README.TXT".toList with
      | none => fail "README.TXT missing or unexpected"
      | some text =>
        if (encode "qizo".toList).isPrefixOf text then .ok ()
        else fail "README.TXT missing or unexpected"

/-! ### Image, blob and module -/

/-- The arguments of stage1. -/
structure StageArgs where
  /-- First sector to read. -/
  lba : ℕ
  /-- Number of sectors to read. -/
  total : ℕ
  /-- Checksum of the blob. -/
  crc : ℕ

/-- The checks on the image and the stage1 arguments in it. -/
def checkImage (img : List UInt8) : Except PyError StageArgs := do
  failIf (img.length % sector ≠ 0) "image not a whole number of sectors"
  failIf (slice img 510 512 ≠ [0x55, 0xAA]) "mbr signature missing"
  let lba ← unpackFrom 4 img (stage1ArgsOff + 4)
  let total ← unpackFrom 2 img (stage1ArgsOff + 8)
  let crc ← unpackFrom 4 img (stage1ArgsOff + 12)
  failIf (lba ≠ partLba) ("stage1 blob lba is not " ++ toString partLba)
  failIf (total ≤ stage2Sectors) "read span does not cover the blob"
  return ⟨lba, total, crc⟩

/-- The blob the stage1 arguments describe. -/
def blobOf (img : List UInt8) (a : StageArgs) : List UInt8 :=
  let start := a.lba * sector + stage2Bytes
  slice img start (start + (a.total - stage2Sectors) * sector)

/-- The comparison with the stage2 binary, if one was given. -/
def checkStage2 (img : List UInt8) (stage2 : Option (List UInt8)) (a : StageArgs) :
    Except PyError Unit :=
  match stage2 with
  | some file =>
    failIf (slice img (a.lba * sector) (a.lba * sector + stage2Bytes) ≠
      file.rightpad stage2Bytes 0) "stage2 in the image differs from the built binary"
  | none => .ok ()

/-- The checks on the blob, down to the bytes in the container. -/
def checkBlob (img : List UInt8) (stage2 : Option (List UInt8)) (a : StageArgs) :
    Except PyError (List UInt8) := do
  let blob := blobOf img a
  checkStage2 img stage2 a
  failIf (blob.length ≠ (a.total - stage2Sectors) * sector) "blob extends past end of image"
  failIf (Lzss.checksum blob ≠ a.crc) "blob adler mismatch"
  let magic ← unpackFrom 4 blob 0
  failIf (magic ≠ Lzss.lzssMagic ∧ magic ≠ 0) "blob has neither lzss nor raw header"
  let blobLen ← unpackFrom 4 blob 4
  let out ← if magic = Lzss.lzssMagic then Lzss.decompress blob else .ok (blob.drop 8)
  failIf (out.length ≠ blobLen)
    ("decompressed length " ++ toString out.length ++ " != declared " ++ toString blobLen)
  return out

/-- What the checker has found in a module. -/
structure Module where
  /-- Length of the kernel. -/
  klen : ℕ
  /-- Entry point, from the load address. -/
  entry : ℕ
  /-- Length of the kernel with its bss. -/
  totalLen : ℕ
  /-- The kernel. -/
  kernel : List UInt8

/-- The checks on the module and on the regions of memory it is loaded to. -/
def checkModule (blobLen : ℕ) (out : List UInt8) : Except PyError Module := do
  let totalLen ← unpackFrom 4 out 12
  let modMagic ← unpackFrom 4 out 0
  let klen ← unpackFrom 4 out 4
  let entry ← unpackFrom 4 out 8
  failIf (modMagic ≠ qizokMagic) "module header magic missing"
  failIf (totalLen < klen + 64)
    ("module total " ++ toString totalLen ++ " smaller than image " ++ toString (klen + 64))
  failIf (totalLen > kernelMax)
    ("module total " ++ toString totalLen ++ " exceeds load budget")
  failIf (klen + 64 ≠ out.length) "module klen mismatch with stream"
  failIf (entry ≥ klen) ("entry " ++ toString entry ++ " outside kernel")
  failIf (klen > kernelMax) "kernel oversized"
  failIf (blobPhys + blobLen > e820Buf) "blob overlaps the e820 buffer"
  failIf (e820Buf + e820Max * e820Ent + 4 > pmStack - 0x1000)
    "e820 buffer crowds the 32 bit stack"
  failIf (stage2 + stage2Bytes > blobPhys) "stage2 code region does not end before the blob"
  failIf (ktext + totalLen > scratch)
    "kernel image and bss reach the decompression scratch"
  failIf (scratch + totalLen > pagePml4) "decompression scratch reaches the page tables"
  failIf (bootinfo + biSize > Qizo.stage2) "bootinfo reaches the stage2 load area"
  return ⟨klen, entry, totalLen, slice out 64 (64 + klen)⟩

/-- `main()`, as far as it is about the image. -/
def main (img : List UInt8) (stage2 : Option (List UInt8)) : Except PyError Module := do
  let a ← checkImage img
  let out ← checkBlob img stage2 a
  let mod ← checkModule (blobOf img a).length out
  checkFs img mod.kernel
  return mod

end Check

end Qizo
