import Qizo.Layout
import Qizo.Lib.PyString
import Qizo.Lib.Record
import Qizo.Lzss

/-!
# The image builder

`tools/mkqizoimg/mkqizoimg.py`: planning a FAT volume behind the boot sectors, laying out boot
sector, allocation tables, root directory and file data, and the program around it, which packs
the kernel into a module, compresses it and patches the arguments of stage1 into the master boot
record.

Assignments to records are tables of fields in the order of the source, one line each. A sector
count that the source computes as a difference is an integer here until a check has shown it
positive; the sizes of a layout that was accepted are natural numbers.
-/

namespace Qizo

namespace Image

open ByteString Python Record

/-! ### Planning the volume -/

/-- The widths of a FAT entry the tool knows. -/
inductive FatBits where
  | fat12 | fat16 | fat32
  deriving DecidableEq, Repr

/-- `fat_size_for(clusters, bits)`, in sectors. The 12-bit rule counts three bits a cluster. -/
def fatSizeFor (clusters : ℤ) : FatBits → ℕ
  | .fat12 => (max 1 ((clusters * 3 + sector * 8 - 1) / (sector * 8))).toNat
  | .fat16 => (max 1 ((clusters * 16 + sector * 8 - 1) / (sector * 8))).toNat
  | .fat32 => (max 1 ((clusters * 32 + sector * 8 - 1) / (sector * 8))).toNat

/-- `ROOT_SECTORS`. -/
def rootSectorsOf : FatBits → ℕ
  | .fat12 => 14
  | .fat16 => 14
  | .fat32 => 0

/-- The layout of a volume. -/
structure FatLayout where
  /-- Entry width. -/
  bits : FatBits
  /-- Sectors of one allocation table. -/
  fatSize : ℕ
  /-- Data clusters, of one sector each. -/
  clusters : ℕ
  /-- Sectors in front of the first table. -/
  reserved : ℕ
  /-- Sectors of the root directory. -/
  rootSectors : ℕ
  /-- First sector of the volume. -/
  partLba : ℕ
  deriving DecidableEq, Repr

/-- The sectors left for data by tables of `fatSize` sectors. -/
def dataSectors (total : ℤ) (part reserved : ℕ) (bits : FatBits) (fatSize : ℕ) : ℤ :=
  total - part - reserved - 2 * fatSize - rootSectorsOf bits

/-- `for _ in range(48)`: grow the tables until they cover the clusters they leave. -/
def growFat (total : ℤ) (part reserved : ℕ) (bits : FatBits) : ℕ → (fatSize : ℕ) → ℕ
  | 0, fatSize => fatSize
  | n + 1, fatSize =>
    let need := fatSizeFor (dataSectors total part reserved bits fatSize + 2) bits
    if need ≤ fatSize then fatSize else growFat total part reserved bits n need

/-- `plan_layout(total_sectors, part_lba, reserved, bits)`. -/
def planLayout (total : ℤ) (part reserved : ℕ) (bits : FatBits) : Option FatLayout :=
  let minimum : ℤ := if bits = .fat16 then 4085 else 4085
  let fatSize := growFat total part reserved bits 48 1
  let clusters := dataSectors total part reserved bits fatSize
  if clusters < minimum then none
  else some ⟨bits, fatSize, clusters.toNat, reserved, rootSectorsOf bits, part⟩

/-- `RESERVED`. -/
def reservedSectors : ℕ := 32

/-- `while total < 1 << 22`, entered with enough passes: each adds 256 sectors. -/
def pickLoop (part : ℕ) : ℕ → (total : ℕ) → Except PyError (ℕ × FatLayout)
  | 0, _ => .error (.exit "qizo: unable to lay out a filesystem image")
  | n + 1, total =>
    if total < 1 <<< 22 then
      match planLayout total part reservedSectors .fat16 with
      | some layout => .ok (total, layout)
      | none => pickLoop part n (total + 256)
    else .error (.exit "qizo: unable to lay out a filesystem image")

/-- `pick_layout(blob_sectors)`. -/
def pickLayout (blobSectors : ℕ) : Except PyError (ℕ × FatLayout) :=
  let part := blobLba + blobSectors
  pickLoop part (1 <<< 14) (part + reservedSectors + 2 + 14 + 4096)

/-! ### Directory entries -/

/-- The split of a name into base and extension in `dir_entry`. -/
def splitName (name : List Char) : List Char × List Char :=
  match rsplit '.' name with
  | some p => p
  | none => (name, [])

/-- The eight base characters of a directory entry. -/
def entryBase (name : List Char) : List Char := ((upper (splitName name).1).take 8).rightpad 8 ' '

/-- The three extension characters of a directory entry. -/
def entryExt (name : List Char) : List Char := ((upper (splitName name).2).take 3).rightpad 3 ' '

/-- The default of `modtime`. -/
def modtime : ℕ := 0x4000

/-- The default of `moddate`. -/
def moddate : ℕ := 0x5C61

/-- The assignments of `dir_entry`. -/
def entryFields (name : List Char) (size cluster : ℕ) (attrs : UInt8) : List Field :=
  [.part 0 8 (encode (entryBase name)),
   .part 8 11 (encode (entryExt name)),
   .part 11 12 [attrs],
   .part 12 13 [0],
   .part 13 14 [0],
   .num 2 14 modtime,
   .num 2 16 moddate,
   .num 2 18 moddate,
   .num 2 20 0,
   .num 2 22 modtime,
   .num 2 24 moddate,
   .num 2 26 (cluster % 65536 : ℕ),
   .num 4 28 size]

/-- `dir_entry(name, size, cluster, attrs)`. -/
def dirEntry (name : List Char) (size cluster : ℕ) (attrs : UInt8) : Except PyError (List UInt8) :=
  setFields (List.replicate 32 0) (entryFields name size cluster attrs)

/-! ### Allocation tables -/

/-- `l[i] = v` for a natural index. -/
def setIndex (l : List UInt8) (i : ℕ) (v : UInt8) : Except PyError (List UInt8) :=
  if i < l.length then .ok (l.set i v) else .error .index

/-- `fat_set(fat, bits, index, value)`. -/
def fatSet (bits : FatBits) (fat : List UInt8) (index value : ℕ) : Except PyError (List UInt8) :=
  match bits with
  | .fat12 => do
    let off := index * 3 / 2
    if index % 2 = 1 then
      let old ← pyIndex fat off
      let fat ← setIndex fat off ((old &&& (0x0F : UInt8)) ||| UInt8.ofNat ((value % 16) <<< 4))
      setIndex fat (off + 1) (UInt8.ofNat (value >>> 4))
    else
      let fat ← setIndex fat off (UInt8.ofNat value)
      let old ← pyIndex fat (off + 1 : ℕ)
      setIndex fat (off + 1) ((old &&& (0xF0 : UInt8)) ||| UInt8.ofNat ((value >>> 8) % 16))
  | _ => packInto 2 fat (index * 2) (value % 65536)

/-- A file: its name and its contents. -/
abbrev File := List Char × List UInt8

/-- The sectors that hold `size` bytes. -/
def sectorsFor (size : ℕ) : ℕ := (size + sector - 1) / sector

/-- The clusters a file occupies. -/
def File.count (f : File) : ℕ := sectorsFor f.2.length

/-- What the allocation loop carries along. -/
structure Alloc where
  /-- The allocation table. -/
  fat : List UInt8
  /-- The dictionary `cluster_of`: first cluster and number of clusters, latest binding first. -/
  clusterOf : List (List Char × ℕ × ℕ)
  /-- The next free cluster. -/
  nxt : ℕ

/-- `for i in range(count - 1): fat_set(fat, bits, nxt + i, nxt + i + 1)`, from `i` on. -/
def linkLoop (bits : FatBits) (nxt : ℕ) : ℕ → (i : ℕ) → List UInt8 → Except PyError (List UInt8)
  | 0, _, fat => .ok fat
  | n + 1, i, fat => do
    let fat ← fatSet bits fat (nxt + i) (nxt + i + 1)
    linkLoop bits nxt n (i + 1) fat

/-- One pass of the allocation loop. An empty file gets no cluster and no binding. -/
def allocFile (bits : FatBits) (eof : ℕ) (st : Alloc) (f : File) : Except PyError Alloc :=
  if f.count = 0 then .ok st
  else do
    let fat ← linkLoop bits st.nxt (f.count - 1) 0 st.fat
    let fat ← fatSet bits fat (st.nxt + f.count - 1) eof
    return ⟨fat, (f.1, st.nxt, f.count) :: st.clusterOf, st.nxt + f.count⟩

/-! ### The image -/

/-- `eof` for an entry width. -/
def eofMark (bits : FatBits) : ℕ := if bits = .fat12 then 0xFFF else 0xFFFF

/-- The assignments to the boot sector. The two bytes at 34 come after the number at 32 and
overwrite its upper half. -/
def bootFields (total : ℕ) (layout : FatLayout) (label : List Char) : List Field :=
  [.part 0 3 [0xEB, 0x3E, 0x90],
   .part 3 11 (encode "QIZOIMG".toList ++ [0]),
   .num 2 11 sector,
   .part 13 14 [1],
   .num 2 14 layout.reserved,
   .part 16 17 [2],
   .num 2 17 224,
   .num 2 19 0,
   .part 21 22 [0xF8],
   .num 2 22 layout.fatSize,
   .num 2 24 63,
   .num 2 26 255,
   .num 4 28 layout.partLba,
   .num 4 32 (total - layout.partLba),
   .part 34 35 [0x80],
   .part 35 36 [0x01],
   .num 2 36 0,
   .num 2 38 (total - partLba),
   .part 42 43 [0x29],
   .num 4 43 0x51495A4F,
   .part 47 58 (((encode label).take 11).rightpad 11 0x20),
   .part 58 66 (encode (if layout.bits = .fat16 then "FAT16   " else "FAT12   ").toList),
   .part 66 68 [0x29, 0x00],
   .part 510 512 [0x55, 0xAA]]

/-- The allocation table of a list of files, with the clusters given out. -/
def buildFat (layout : FatLayout) (files : List File) : Except PyError Alloc := do
  let bits := layout.bits
  let eof := eofMark bits
  let st ← files.foldlM (allocFile bits eof) ⟨List.replicate (layout.fatSize * sector) 0, [], 2⟩
  let fat ← fatSet bits st.fat 0 (if bits = .fat16 then eof else 0xF8)
  let fat ← fatSet bits fat 1 eof
  return { st with fat }

/-- One file's line of the root directory: the directory and the offset of the next line. -/
def addEntry (clusterOf : List (List Char × ℕ × ℕ)) (st : List UInt8 × ℕ) (f : File) :
    Except PyError (List UInt8 × ℕ) := do
  let first := ((clusterOf.lookup f.1).getD (0, 0)).1
  let e ← dirEntry f.1 f.2.length first 0x20
  return (setSlice st.1 st.2 (st.2 + 32) e, st.2 + 32)

/-- The root directory: the label, then the files. -/
def buildRoot (bits : FatBits) (label : List Char) (clusterOf : List (List Char × ℕ × ℕ))
    (files : List File) : Except PyError (List UInt8) := do
  let e ← dirEntry label 0 0 0x08
  let root := setSlice (List.replicate (rootSectorsOf bits * sector) 0) 0 32 e
  let st ← files.foldlM (addEntry clusterOf) (root, 32)
  return st.1

/-- The contents of one file, at its first cluster. -/
def putFile (clusterOf : List (List Char × ℕ × ℕ)) (dataLba : ℕ) (img : List UInt8) (f : File) :
    List UInt8 :=
  match clusterOf.lookup f.1 with
  | none => img
  | some (first, _) =>
    let lba := dataLba + (first - 2)
    setSlice img (lba * sector) (lba * sector + f.2.length) f.2

/-- The dictionary returned beside the image. -/
structure ImageInfo where
  /-- First sector of the first allocation table. -/
  fatLba : ℕ
  /-- First sector of the root directory. -/
  rootLba : ℕ
  /-- First data sector. -/
  dataLba : ℕ
  /-- The file system name in the boot sector. -/
  fatname : List Char
  /-- Clusters given out. -/
  clusters : ℕ

/-- The slice assignments that put the parts into the image. -/
def assemble (total : ℕ) (layout : FatLayout) (files : List File)
    (clusterOf : List (List Char × ℕ × ℕ)) (bs fat root blob : List UInt8) (blobOffset : ℕ)
    (stage2Img : List UInt8) : List UInt8 :=
  let p0 := layout.partLba * sector
  let img := setSlice (List.replicate (total * sector) 0) p0 (p0 + 512) bs
  let img := setSlice img (partLba * sector) (partLba * sector + stage2Img.length) stage2Img
  let fatLba := layout.partLba + layout.reserved
  let rootLba := fatLba + 2 * layout.fatSize
  let dataLba := rootLba + rootSectorsOf layout.bits
  let img := setSlice img (fatLba * sector) (fatLba * sector + fat.length) fat
  let img := setSlice img ((fatLba + layout.fatSize) * sector)
    ((fatLba + layout.fatSize) * sector + fat.length) fat
  let img := setSlice img (rootLba * sector) (rootLba * sector + root.length) root
  let img := files.foldl (putFile clusterOf dataLba) img
  setSlice img blobOffset (blobOffset + blob.length) blob

/-- `build_image(total_sectors, layout, files, label, blob, blob_offset, stage2_img)`. -/
def buildImage (total : ℕ) (layout : FatLayout) (files : List File) (label : List Char)
    (blob : List UInt8) (blobOffset : ℕ) (stage2Img : List UInt8) :
    Except PyError (List UInt8 × ImageInfo) := do
  let bs ← setFields (List.replicate 512 0) (bootFields total layout label)
  let alloc ← buildFat layout files
  let root ← buildRoot layout.bits label alloc.clusterOf files
  let fatLba := layout.partLba + layout.reserved
  let rootLba := fatLba + 2 * layout.fatSize
  return (assemble total layout files alloc.clusterOf bs alloc.fat root blob blobOffset stage2Img,
    ⟨fatLba, rootLba, rootLba + rootSectorsOf layout.bits,
      (if layout.bits = .fat16 then "FAT16   " else "FAT12   ").toList, alloc.nxt - 2⟩)

/-! ### The program -/

/-- The symbols the tool looks up in the kernel's symbol table. -/
structure Symbols where
  /-- `__qizo_phys_base`. -/
  physBase : Option ℕ
  /-- `qizo_kernel_entry`. -/
  kernelEntry : Option ℕ
  /-- `__qizo_image_end`. -/
  imageEnd : Option ℕ
  /-- `__qizo_bss_end`. -/
  bssEnd : Option ℕ

/-- The files and options of a call. -/
structure Args where
  /-- The contents of `--stage1`. -/
  stage1 : List UInt8
  /-- The contents of `--stage2`. -/
  stage2 : List UInt8
  /-- The contents of `--kernel-bin`. -/
  kernel : List UInt8
  /-- The symbols of `--kernel-elf`. -/
  syms : Symbols
  /-- `--entry`. -/
  entry : Option ℤ
  /-- `--image-sectors`. -/
  imageSectors : ℤ
  /-- `--raw`. -/
  raw : Bool
  /-- `--label`, which is a string of characters: one with a lone surrogate has no encoding, so that
  `main` fails before it writes anything. -/
  label : List Char

/-- The stage1 sector, checked and filled up. -/
def loadStage1 (file : List UInt8) : Except PyError (List UInt8) :=
  if slice file stage1ArgsOff (stage1ArgsOff + 20) ≠ List.replicate 20 0 then
    .error (.exit "qizo: stage1 argument block is not clear")
  else
    let stage1 := file.rightpad 512 0
    if slice stage1 510 512 ≠ [0x55, 0xAA] then
      .error (.exit "qizo: stage1 missing boot signature")
    else .ok stage1

/-- `base`, `klen`, `entry_off` and `img_total` as the symbols give them. -/
structure Measures where
  /-- Load address. -/
  base : ℕ
  /-- Length of the kernel image. -/
  klen : ℤ
  /-- Entry point, from the load address. -/
  entryOff : ℤ
  /-- Length of the kernel image with its bss. -/
  imgTotal : ℤ

/-- The measures of a kernel, with the checks on its size. -/
def measure (args : Args) : Except PyError Measures := do
  let base ←
    match args.syms.physBase with
    | some base => .ok base
    | none => .error .key
  let entry : ℤ ←
    match args.entry, args.syms.kernelEntry with
    | some entry, _ => .ok entry
    | none, some entry => .ok (entry : ℤ)
    | none, none => .error (.exit "qizo: cannot determine kernel entry")
  let imageEnd := args.syms.imageEnd.getD (base + args.kernel.length)
  let bssEnd := args.syms.bssEnd.getD imageEnd
  let klen : ℤ := (imageEnd : ℤ) - base
  let imgTotal : ℤ := ((max bssEnd imageEnd : ℕ) : ℤ) - base
  if klen ≠ args.kernel.length then
    .error (.exit ("qizo: kernel file " ++ toString args.kernel.length ++
      " bytes but image span " ++ toString klen))
  else if klen + qizokHdr > kernelMax ∨ imgTotal > kernelMax then
    .error (.exit ("qizo: kernel " ++ toString klen ++ " bytes exceeds the " ++
      toString kernelMax ++ " byte load budget"))
  else .ok ⟨base, klen, entry - base, imgTotal⟩

/-- The module: a header of 64 bytes in front of the kernel. -/
def packModule (k : Measures) (kernel : List UInt8) : Except PyError (List UInt8) := do
  let magic ← packInt 4 qizokMagic
  let klen ← packInt 4 k.klen
  let entryOff ← packInt 4 k.entryOff
  let imgTotal ← packInt 4 k.imgTotal
  let base ← packInt 4 k.base
  let sectorSize ← packInt 4 sector
  return (magic ++ klen ++ entryOff ++ imgTotal ++ base ++ sectorSize).rightpad 64 0 ++ kernel

/-- The container of `--raw`: a zero word, the length, and the payload as it is. -/
def rawContainer (payload : List UInt8) : Except PyError (List UInt8) := do
  let zero ← pack 4 0
  let len ← pack 4 payload.length
  return zero ++ len ++ payload

/-- The sectors the blob takes, and the blob filled up to whole sectors. -/
def packBlob (raw : Bool) (payload : List UInt8) : Except PyError (ℕ × List UInt8) := do
  let blob ← if raw then rawContainer payload else Lzss.compress payload
  if blob.length > blobMax then
    .error (.exit ("qizo: blob " ++ toString blob.length ++ " bytes exceeds " ++ toString blobMax))
  else
    let blobSectors := sectorsFor blob.length
    .ok (blobSectors, blob.rightpad (blobSectors * sector) 0)

/-- The size of the image and its layout. -/
def chooseLayout (imageSectors : ℤ) (blobSectors : ℕ) : Except PyError (ℕ × FatLayout) :=
  let part := blobLba + blobSectors
  if imageSectors ≠ 0 then
    match (planLayout imageSectors part reservedSectors .fat16).or
        (planLayout imageSectors part reservedSectors .fat12) with
    | some layout => .ok (imageSectors.toNat, layout)
    | none => .error (.exit "qizo: image too small for a valid FAT volume")
  else pickLayout blobSectors

/-- The assignments to the arguments of stage1. -/
def argFields (blobSectors crc : ℕ) : List Field :=
  [.num 4 (stage1ArgsOff + 4) partLba,
   .num 2 (stage1ArgsOff + 8) (stage2Sectors + blobSectors : ℕ),
   .num 4 (stage1ArgsOff + 12) crc]

/-- The text of `README.TXT`. `ratio a b` is `100.0 * a / b` with one digit after the point. -/
def readme (ratio : ℕ → ℕ → List Char) (blobSectors kernelLen entryOff imgTotal blobLen
    payloadLen : ℕ) (layout : FatLayout) : List Char :=
  "qizo bootable image\n".toList ++
  "stage2 at lba ".toList ++ decimal partLba ++ " (".toList ++ decimal stage2Sectors ++
    " sectors), module blob at lba ".toList ++ decimal blobLba ++ " (".toList ++
    decimal blobSectors ++ " sectors)\n".toList ++
  "kernel image ".toList ++ decimal kernelLen ++ " bytes, entry +".toList ++ decimal entryOff ++
    ", image plus bss ".toList ++ decimal ((imgTotal + 1023) / 1024) ++ " KiB\n".toList ++
  "compressed payload ".toList ++ decimal blobLen ++ " bytes, ratio ".toList ++
    ratio blobLen payloadLen ++ "%\n".toList ++
  "filesystem: FAT".toList ++ (if layout.bits = .fat16 then "16" else "12").toList ++ ", ".toList ++
    decimal layout.clusters ++ " clusters of ".toList ++ decimal 1 ++
    " sector(s), reserved lba 0..".toList ++ decimal (layout.partLba - 1) ++ "\n".toList

/-- The offset of the partition entry in the master boot record. -/
def partEntry : ℕ := 0x1BE

/-- The assignments to the partition entry. -/
def partFields (total : ℕ) (layout : FatLayout) : List Field :=
  [.part partEntry (partEntry + 1) [0x80],
   .part (partEntry + 1) (partEntry + 4) [0x00, 0x02, 0x01],
   .part (partEntry + 4) (partEntry + 5) [if layout.bits = .fat16 then 0x06 else 0x01],
   .part (partEntry + 5) (partEntry + 8) [0xFE, 0xFF, 0xFF],
   .num 4 (partEntry + 8) layout.partLba,
   .num 4 (partEntry + 12) (total - layout.partLba)]

/-- `main()`, up to the file it writes. -/
def main (ratio : ℕ → ℕ → List Char) (args : Args) : Except PyError (List UInt8) := do
  let stage1 ← loadStage1 args.stage1
  raiseIf (args.stage2.length > stage2Bytes) (.exit ("qizo: stage2 code " ++
    toString args.stage2.length ++ " bytes exceeds " ++ toString stage2Bytes))
  let k ← measure args
  let payload ← packModule k args.kernel
  let (blobSectors, blob) ← packBlob args.raw payload
  let stage1 ← setFields stage1 (argFields blobSectors (Lzss.checksum blob))
  let stage2Img := args.stage2.rightpad (stage2Sectors * sector) 0
  let (total, layout) ← chooseLayout args.imageSectors blobSectors
  let text := readme ratio blobSectors args.kernel.length k.entryOff.toNat k.imgTotal.toNat
    blob.length payload.length layout
  let files : List File := [("README.TXT".toList, encode text), ("KERNEL.BIN".toList, args.kernel)]
  let (img, _) ← buildImage total layout files args.label blob (blobLba * sector) stage2Img
  setFields (setSlice img 0 sector stage1) (partFields total layout)

end Image

end Qizo
