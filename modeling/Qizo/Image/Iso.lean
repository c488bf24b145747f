import Qizo.Lib.PyString
import Qizo.Lib.Record

/-!
# The ISO tool

`tools/mkqizoiso/mkqizoiso.py`: an ISO 9660 volume with one file, the disk image, which is also the
hard disk image of an El Torito boot catalog. The blocks of the volume are tables of assignments
to a sector of zeros, as the script lists them.

Only the writing of the file is left out: `buildIso` returns the bytes that `ART.write` is given,
beside the dictionary of the source.
-/

namespace Qizo

namespace Iso

open Python Record

/-! ### Places -/

/-- `SECTOR`. -/
def sector : ℕ := 2048

/-- `PVD_LBA`. -/
def pvdLba : ℕ := 16

/-- `CATALOG_LBA`. -/
def catalogLba : ℕ := 19

/-- `ROOT_LBA`. -/
def rootLba : ℕ := 20

/-- `FILE_LBA`. -/
def fileLba : ℕ := 21

/-- `FILE_NAME`. -/
def fileName : List Char := "QIZO.IMG;1".toList

/-- `DATE`. -/
def date : List UInt8 := encode "20260101000000000".toList

/-- `b"CD001"`, the identifier of every descriptor. -/
def standardId : List UInt8 := encode "CD001".toList

/-! ### Fields -/

/-- A number of `w` bytes in both byte orders. -/
def both (w v : ℕ) : Except PyError (List UInt8) := do
  let little ← pack w v
  let big ← packBig w v
  return little ++ big

/-- `both32(v)`. -/
def both32 (v : ℕ) : Except PyError (List UInt8) := both 4 v

/-- `both16(v)`. -/
def both16 (v : ℕ) : Except PyError (List UInt8) := both 2 v

/-- `dir_record(lba, size, flags, ident)`. The first byte is the length of the record, filled up to
an even one. -/
def dirRecord (lba size : ℕ) (flags : UInt8) (ident : List UInt8) :
    Except PyError (List UInt8) := do
  let extent ← both32 lba
  let size ← both32 size
  let sequence ← both16 1
  let identLen ← pyByte ident.length
  let body := [0, 0] ++ extent ++ size ++ [26, 1, 1, 0, 0, 0, 0] ++ [flags] ++ [0] ++ [0] ++
    sequence ++ [identLen] ++ ident
  let body := if body.length % 2 ≠ 0 then body ++ [0] else body
  let len ← pyByte body.length
  return body.set 0 len

/-- `text_field(buf, off, n, value)`. -/
def textField (off n : ℕ) (value : List Char) : Field :=
  .part off (off + n) (((encode value).take n).rightpad n 0x20)

/-- `buf[off] = v`. -/
def byteField (off : ℕ) (v : UInt8) : Field := .part off (off + 1) [v]

/-! ### Blocks -/

/-- `root_body`: the two records of the directory itself, the file, and zeros to the end of the
sector. -/
def rootBody (size : ℕ) : Except PyError (List UInt8) := do
  let self ← dirRecord rootLba 0 2 [0]
  let parent ← dirRecord rootLba 0 2 [1]
  let file ← dirRecord fileLba size 0 (encode fileName)
  let body := self ++ parent ++ file
  return body ++ List.replicate (sector - body.length % sector) 0

/-- The assignments to the primary volume descriptor, for the encoded name of the volume. -/
def pvdFields (volume total one block zero rootRec : List UInt8) : List Field :=
  [byteField 0 1,
   .part 1 6 standardId,
   byteField 6 1,
   .part 8 40 ((encode "QIZO".toList).rightpad 32 0x20),
   .part 40 72 ((volume.take 32).rightpad 32 0x20),
   .part 80 88 total,
   .part 120 124 one,
   .part 124 128 one,
   .part 128 132 block,
   .part 132 140 zero,
   .num 4 140 0,
   .num 4 144 0,
   .num 4 148 0,
   .num 4 152 0,
   .part 156 (156 + rootRec.length) rootRec,
   textField 190 128 "QIZO".toList,
   textField 318 128 "ARENA AI AGENT MODE".toList,
   textField 446 128 "ARENA AI AGENT MODE".toList,
   byteField 582 0,
   byteField 619 0,
   byteField 656 0,
   byteField 693 1,
   textField 702 32 "QIZO MKQIZOISO".toList,
   textField 734 32 "ARENA AI AGENT MODE".toList,
   textField 766 32 "SEIGH-SWORD".toList,
   textField 798 32 "SURIEWEPEDI".toList,
   .part 830 (830 + 17) date,
   .part 847 (847 + 17) date,
   .part 864 (864 + 17) date,
   .part 881 (881 + 17) date,
   .part 898 sector (List.replicate (sector - 898) 0)]

/-- `pvd`. A name with a surrogate in it cannot be encoded. -/
def primaryDescriptor (volume : List CodePoint) (total rootLen : ℕ) :
    Except PyError (List UInt8) := do
  let volume ← encodeStr volume
  let total ← both32 total
  let one ← both16 1
  let block ← both16 sector
  let zero ← both32 0
  let rootRec ← dirRecord rootLba rootLen 2 [0]
  setFields (List.replicate sector 0) (pvdFields volume total one block zero rootRec)

/-- The assignments to the boot record. -/
def brvdFields : List Field :=
  [byteField 0 0,
   .part 1 6 standardId,
   byteField 6 1,
   .part 7 39 ((encode "EL TORITO SPECIFICATION".toList).rightpad 32 0),
   .num 4 71 catalogLba]

/-- The assignments to the terminator. -/
def terminatorFields : List Field :=
  [byteField 0 255, .part 1 6 standardId, byteField 6 1]

/-- The assignments to the entry of the boot catalog. A file of 65535 sectors or more has the load
size 0. -/
def entryFields (fileSectors : ℕ) : List Field :=
  [byteField 0 0x88,
   byteField 1 4,
   .num 2 2 0x07C0,
   byteField 4 0,
   byteField 5 0,
   .num 2 6 (if fileSectors < 0xFFFF then fileSectors else 0 : ℕ),
   .num 4 8 fileLba,
   .num 4 12 0]

/-- The assignments to the validation entry, in front of its checksum. -/
def validationFields : List Field :=
  [byteField 0 0x01,
   byteField 1 0,
   .part 4 28 ((encode "QIZO MKQIZOISO".toList).rightpad 24 0),
   byteField 30 0x55,
   byteField 31 0xAA]

/-- `acc`: the sum of the sixteen words of the validation entry, without the word at 28. -/
def wordSum (cat : List UInt8) : Except PyError ℕ :=
  (List.range 16).foldlM (fun acc k =>
    if 2 * k = 28 then .ok acc
    else do
      let word ← unpackFrom 2 cat (2 * k)
      return (acc + word) % 65536) 0

/-- `cat`: the validation entry with its checksum, then the boot entry. -/
def catalog (entry : List UInt8) : Except PyError (List UInt8) := do
  let cat ← setFields (List.replicate sector 0) validationFields
  let acc ← wordSum cat
  setFields cat [.num 2 28 ((-(acc : ℤ)) % 65536), .part 32 64 entry]

/-! ### The volume -/

/-- The dictionary returned beside the volume. -/
structure IsoInfo where
  /-- Sectors of the volume. -/
  sectors : ℕ
  /-- The sector of the boot catalog. -/
  catalog : ℕ
  /-- The sector of the root directory. -/
  rootLba : ℕ
  /-- The first sector of the disk image. -/
  fileLba : ℕ
  /-- Sectors of the disk image. -/
  fileSectors : ℕ
  /-- Bytes of the disk image. -/
  image : ℕ
  deriving DecidableEq, Repr

/-- The disk image, filled up to whole sectors. -/
def payloadOf (image : List UInt8) : List UInt8 :=
  if image.length % sector ≠ 0 then
    image ++ List.replicate (sector - image.length % sector) 0
  else image

/-- `for name, blk in …`: every block is a whole number of sectors. -/
def checkBlocks : List (String × List UInt8) → Except PyError Unit
  | [] => .ok ()
  | (name, blk) :: rest =>
    if blk.length % sector ≠ 0 then
      .error (.exit ("qizo: " ++ name ++ " block is " ++ toString blk.length ++
        " bytes, not a whole number of sectors"))
    else checkBlocks rest

/-- `build_iso(image, out, volume)`. -/
def buildIso (image : List UInt8) (volume : List CodePoint) :
    Except PyError (List UInt8 × IsoInfo) := do
  let payload := payloadOf image
  let fileSectors := payload.length / sector
  let rootBody ← rootBody image.length
  let total := fileLba + fileSectors
  let pvd ← primaryDescriptor volume total rootBody.length
  let brvd ← setFields (List.replicate sector 0) brvdFields
  let terminator ← setFields (List.replicate sector 0) terminatorFields
  let entry ← setFields (List.replicate 32 0) (entryFields fileSectors)
  let cat ← catalog entry
  let out := List.replicate (pvdLba * sector) 0 ++ pvd ++ brvd ++ terminator ++ cat ++ rootBody ++
    payload
  checkBlocks [("pvd", pvd), ("brvd", brvd), ("terminator", terminator), ("catalog", cat),
    ("root", rootBody)]
  raiseIf (out.length ≠ total * sector) (.exit ("qizo: iso is " ++ toString out.length ++
    " bytes but the layout promised " ++ toString total ++ " sectors"))
  return (out, ⟨out.length / sector, catalogLba, rootLba, fileLba, fileSectors, image.length⟩)

end Iso

end Qizo
