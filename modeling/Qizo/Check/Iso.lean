import Qizo.Check.Qizocheck

/-!
# The checks on an ISO

`check_iso` of `tools/qizocheck/qizocheck.py`: the volume descriptors, the boot catalog, the image
at the extent the catalog names, and the walk over the root directory. As in the checks on a disk
image, `fail` is the `SystemExit` that follows it.
-/

namespace Qizo

namespace Check

namespace Iso

open ByteString Python

/-- `S`. -/
def sector : ℕ := 2048

/-! ### Volume descriptors -/

/-- What the primary volume descriptor puts into `seen`. -/
structure Primary where
  /-- `root_lba`. -/
  rootLba : ℕ
  /-- `root_size`. -/
  rootSize : ℕ
  /-- `block`. -/
  block : ℕ
  /-- `blocks`. -/
  blocks : ℕ
  deriving DecidableEq, Repr

/-- The checks on a primary volume descriptor. -/
def checkPrimary (desc : List UInt8) : Except PyError Primary := do
  failIf (slice desc 1 6 ≠ encode "CD001".toList) "primary volume descriptor id"
  let root := slice desc 156 (156 + 34)
  failIf (root.length < 34) "root directory record malformed"
  let len ← pyIndex root 0
  failIf (len ≠ 34) "root directory record malformed"
  let rootLba ← unpackFrom 4 root 2
  let rootSize ← unpackFrom 4 root 10
  let block ← unpackFrom 2 desc 128
  let version ← pyIndex desc 693
  failIf (version ≠ 1) "primary volume descriptor file structure version"
  let setSize ← unpackFrom 2 desc 120
  failIf (setSize ≠ 1) "primary volume descriptor volume set size"
  let big ← unpackBig 2 desc 130
  let little ← unpackFrom 2 desc 128
  failIf (big ≠ little) "primary volume descriptor block size is not both-endian"
  failIf (block ≠ sector) ("logical block size " ++ toString block)
  let blocks ← unpackFrom 4 desc 80
  return ⟨rootLba, rootSize, block, blocks⟩

/-- The check on a boot record, down to the sector of the catalog. -/
def checkBootRecord (desc : List UInt8) : Except PyError ℕ := do
  failIf (slice desc 7 30 ≠ (encode "EL TORITO SPECIFICATION".toList).rightpad 23 0)
    "boot record volume descriptor id"
  unpackFrom 4 desc 71

/-- `while True`, entered at sector `lba` with that many sectors of the file left to look at: the
last primary descriptor and the last catalog named. -/
def descriptorLoop (iso : List UInt8) :
    ℕ → (lba : ℕ) → Option Primary → (catalog : Option ℕ) →
      Except PyError (Option Primary × Option ℕ)
  | 0, _, _, _ => fail "volume descriptor set runs off the end"
  | n + 1, lba, seen, catalog =>
    if lba * sector + sector > iso.length then fail "volume descriptor set runs off the end"
    else do
      let desc := slice iso (lba * sector) (lba * sector + sector)
      let typ ← pyIndex desc 0
      if typ = 255 then return (seen, catalog)
      else if typ = 1 then
        let primary ← checkPrimary desc
        descriptorLoop iso n (lba + 1) (some primary) catalog
      else if typ = 0 ∧ slice desc 1 6 = encode "CD001".toList then
        let catalog ← checkBootRecord desc
        descriptorLoop iso n (lba + 1) seen (some catalog)
      else descriptorLoop iso n (lba + 1) seen catalog

/-- The descriptor set, from sector 16 on. -/
def descriptors (iso : List UInt8) : Except PyError (Option Primary × Option ℕ) :=
  descriptorLoop iso (iso.length / sector + 1) 16 none none

/-! ### Boot catalog -/

/-- `acc`: the sum of the sixteen words of the validation entry. -/
def wordSum (cat : List UInt8) : Except PyError ℕ :=
  (List.range 16).foldlM (fun acc k => do
    let word ← unpackFrom 2 cat (2 * k)
    return (acc + word) % 65536) 0

/-- The checks on the boot catalog, down to the first sector of the image. -/
def checkCatalog (cat : List UInt8) : Except PyError ℕ := do
  let c0 ← pyIndex cat 0
  failIf (c0 ≠ 1) "boot catalog validation header"
  let c1 ← pyIndex cat 1
  failIf (c1 ≠ 0) "boot catalog validation header"
  let c30 ← pyIndex cat 30
  failIf (c30 ≠ 0x55) "boot catalog key"
  let c31 ← pyIndex cat 31
  failIf (c31 ≠ 0xAA) "boot catalog key"
  let acc ← wordSum cat
  failIf (acc ≠ 0) "boot catalog checksum does not cancel"
  let entry := slice cat 32 64
  let e0 ← pyIndex entry 0
  failIf (e0 ≠ 0x88) "boot entry not bootable"
  let e1 ← pyIndex entry 1
  failIf (e1 ≠ 4) "boot entry is not a hard disk image"
  let segment ← unpackFrom 2 entry 2
  failIf (segment ≠ 0x07C0) "boot entry load segment"
  let load ← unpackFrom 2 entry 6
  failIf ((load ≠ 4 ∧ load ≠ 0) ∧ load < 66) "boot entry load size"
  unpackFrom 4 entry 8

/-! ### Root directory -/

/-- `while o + 34 <= len(root)`, entered at `o` with more passes left than bytes: the extent and the
size of the last record whose name starts with `QIZO`. -/
def recordLoop (root : List UInt8) :
    ℕ → (o : ℕ) → (found : Option (ℕ × ℕ)) → Except PyError (Option (ℕ × ℕ))
  | 0, _, found => .ok found
  | passes + 1, o, found =>
    if o + 34 ≤ root.length then do
      let n ← pyIndex root o
      if n = 0 then return found
      else
        let idlen ← pyIndex root (o + 32 : ℕ)
        let ident := slice root (o + 33) (o + 33 + idlen.toNat)
        if (encode "QIZO".toList).isPrefixOf ident then
          let extent ← unpackFrom 4 root (o + 2)
          let size ← unpackFrom 4 root (o + 10)
          recordLoop root passes (o + n.toNat) (some (extent, size))
        else recordLoop root passes (o + n.toNat) found
    else .ok found

/-- The extent and the size the root directory gives for the image. -/
def findImage (root : List UInt8) : Except PyError (Option (ℕ × ℕ)) :=
  recordLoop root (root.length + 1) 0 none

/-! ### The volume -/

/-- What the last line printed names. -/
structure Report where
  /-- The sector of the boot catalog. -/
  catalog : ℕ
  /-- The sector of the root directory. -/
  rootLba : ℕ
  /-- The first sector of the image. -/
  fileLba : ℕ
  deriving DecidableEq, Repr

/-- `check_iso(iso, image)`. -/
def checkIso (iso image : List UInt8) : Except PyError Report := do
  match ← descriptors iso with
  | (none, _) => fail "no primary volume descriptor"
  | (some _, none) => fail "no el torito boot volume descriptor"
  | (some seen, some catalog) =>
    let fileLba ← checkCatalog (slice iso (catalog * sector) (catalog * sector + sector))
    failIf (fileLba * sector + image.length > iso.length)
      "boot image runs off the end of the iso"
    failIf (slice iso (fileLba * sector) (fileLba * sector + image.length) ≠ image)
      "embedded image bytes differ"
    let root := slice iso (seen.rootLba * sector) (seen.rootLba * sector + seen.rootSize)
    match ← findImage root with
    | none => fail "QIZO.IMG missing from the root directory"
    | some (extent, size) =>
      failIf (extent ≠ fileLba ∨ size ≠ image.length) ("root directory extent " ++
        toString extent ++ "/" ++ toString size ++ " != catalog " ++ toString fileLba ++ "/" ++
        toString image.length)
      return ⟨catalog, seen.rootLba, fileLba⟩

end Iso

end Check

end Qizo
