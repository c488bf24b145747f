import Qizo.Kernel.Ata

/-!
# The volume driver

`kernel/drivers/fat.c`, with the part of `driver.c` that starts it: the search for a boot sector,
the buffer for the allocation table, which is taken from the frame allocator when the first volume
is found and never given back, and the numbers that are reported.

The driver's own sector buffer is a memory addressed from zero; the buffer for the allocation
table lies in the kernel's memory at the address the frame allocator returned.

## Main results

* `scanLoop_eq_true` — what a successful search has found
-/

namespace Qizo

namespace Fat

open Memory Pma Ata

/-- `FAT_SCAN_LBAS`. -/
def fatScanLbas : ℕ := 96

/-- Reduction to 32 bits. -/
def u32 (x : ℕ) : ℕ := x % 2 ^ 32

/-- Subtraction in 32 bits. -/
def sub32 (x y : ℕ) : ℕ := (x + (2 ^ 32 - y % 2 ^ 32)) % 2 ^ 32

/-! ### The boot sector -/

/-- `struct qizo_bpb`, read from the sector buffer. -/
structure Bpb where
  /-- Bytes per sector. -/
  bytssec : ℕ
  /-- Sectors per cluster. -/
  spc : ℕ
  /-- Sectors in front of the first allocation table. -/
  reserved : ℕ
  /-- Allocation tables. -/
  fats : ℕ
  /-- Entries of the root directory. -/
  rootent : ℕ
  /-- Sectors of the volume, if they fit. -/
  mbrSects : ℕ
  /-- Media descriptor. -/
  media : ℕ
  /-- Sectors of an allocation table. -/
  spf : ℕ
  /-- Sectors of the volume otherwise. -/
  bigSects : ℕ
  /-- The volume label. -/
  label : List UInt8
  deriving DecidableEq, Repr

/-- The fields at their places in the packed structure. -/
def bpbOf (sector : Memory) : Bpb where
  bytssec := sector.load 2 11
  spc := sector.load 1 13
  reserved := sector.load 2 14
  fats := sector.load 1 16
  rootent := sector.load 2 17
  mbrSects := sector.load 2 19
  media := sector.load 1 21
  spf := sector.load 2 22
  bigSects := sector.load 4 32
  label := sector.bytes 39 11

/-- `bpb_sane`. -/
def bpbSane (sector : Memory) : Bool :=
  let b := bpbOf sector
  if sector 510 ≠ 0x55 ∨ sector 511 ≠ 0xAA then false
  else if b.bytssec ≠ 512 then false
  else if b.spc = 0 ∨ b.spc &&& (b.spc - 1) ≠ 0 then false
  else if 128 < b.spc then false
  else if b.fats < 1 ∨ 4 < b.fats then false
  else if b.spf = 0 ∨ b.rootent = 0 then false
  else if b.mbrSects = 0 ∧ b.bigSects = 0 then false
  else if b.media ≠ 0xF0 ∧ b.media ≠ 0xF8 ∧ b.media ≠ 0x00 then false
  else true

namespace Bpb

variable (b : Bpb)

/-- `total_sects`. -/
def totalSects : ℕ :=
  let total := if b.mbrSects ≠ 0 then b.mbrSects else b.bigSects
  if 0x0FFFFFFF < total then 0x0FFFFFFF else total

/-- `root_sects`. -/
def rootSects : ℕ := (b.rootent * 32 + 511) / 512

/-- `data_start`. -/
def dataStart : ℕ := b.reserved + b.fats * b.spf + b.rootSects

/-- `clusters`. -/
def clusters : ℕ := (b.totalSects - b.dataStart) / b.spc

/-- `bytes`, what is read of the allocation table. -/
def fatBytes : ℕ := if 256 * 1024 < b.spf * 512 then 256 * 1024 else b.spf * 512

/-- The pages of the buffer for it. -/
def fatPages : ℕ := (b.fatBytes + 4095) / 4096

end Bpb

/-- The checks a sector has to pass for the search to stop at it. -/
def acceptable (sector : Memory) : Bool :=
  let b := bpbOf sector
  bpbSane sector && b.dataStart < b.totalSects && 2 ≤ b.clusters

/-! ### The allocation table -/

/-- `fat_entry_12`. -/
def fatEntry12 (m : Memory) (f i : ℕ) : ℕ :=
  let v := (m (f + (i + i / 2))).toNat ||| (m (f + (i + i / 2 + 1))).toNat <<< 8
  if i &&& 1 ≠ 0 then v >>> 4 else v &&& 0x0FFF

/-- `fat_entry_16`. -/
def fatEntry16 (m : Memory) (f i : ℕ) : ℕ :=
  (m (f + i * 2)).toNat ||| (m (f + (i * 2 + 1))).toNat <<< 8

/-- `count_free`. -/
def countFree (is12 : Bool) (m : Memory) (f bytes clusters : ℕ) : ℕ :=
  let limit := if is12 then u32 (bytes * 2) / 3 else bytes / 2
  let limit := if u32 (clusters + 2) < limit then u32 (clusters + 2) else limit
  let free := (List.range' 2 (limit - 2)).countP fun i =>
    (if is12 then fatEntry12 m f i else fatEntry16 m f i) = 0
  if sub32 limit 2 < clusters then u32 (free + (clusters - sub32 limit 2)) else free

/-- A character of a label: a blank for what is not printable. -/
def labelChar (c : UInt8) : UInt8 := if c < 32 ∨ 126 < c then 32 else c

/-- `label_text`: the string it leaves, which ends behind the last character that is no blank. -/
def labelText (src : List UInt8) : List UInt8 :=
  ((src.map labelChar).reverse.dropWhile (· = 32)).reverse

/-! ### State -/

/-- `struct qizo_fat`. -/
structure QizoFat where
  /-- A volume was found. -/
  present : Bool
  /-- Sectors per cluster. -/
  sectPerClust : ℕ
  /-- Clusters. -/
  clusters : ℕ
  /-- Free clusters. -/
  freeClusters : ℕ
  /-- Size in bytes. -/
  totalBytes : ℕ
  /-- Free bytes. -/
  freeBytes : ℕ
  /-- The sector of the boot sector. -/
  startLba : ℕ
  /-- The label. -/
  label : List UInt8
  /-- The kind. -/
  type : String
  deriving DecidableEq, Repr

/-- The static variables of the drivers, the frame allocator and the kernel's memory. -/
structure State where
  /-- The frame allocator. -/
  pma : Pma.State
  /-- The kernel's memory. -/
  mem : Memory
  /-- The disk driver. -/
  ata : Ata.State
  /-- `sector`. -/
  sector : Memory
  /-- `fatbuf`, zero before it is taken. -/
  fatbuf : ℕ
  /-- `fs`. -/
  fs : QizoFat
  /-- `fs_ready`. -/
  fsReady : Bool
  /-- `started`. -/
  started : Bool

/-- What the boot record says of the blob: its first sector and its number of sectors. -/
structure Blob where
  /-- The field at `QIZO_BI_BLOB_LBA`. -/
  lba : UInt32
  /-- The field at `QIZO_BI_BLOB_SECTORS`. -/
  sectors : UInt16

/-! ### The search -/

/-- `read_sectors` to the sector buffer. -/
def readBoot (hw : Hardware) (drive lba : ℕ) (k : State) : Bool × State :=
  let (ok, m, ata) := readDrive hw k.ata drive lba 1 0 k.sector
  (ok, { k with sector := m, ata := ata })

/-- `read_sectors` to the buffer of the allocation table, `done` sectors behind its start. -/
def readFat (hw : Hardware) (drive lba count done : ℕ) (k : State) : Bool × State :=
  let (ok, m, ata) := readDrive hw k.ata drive lba count (k.fatbuf + done * 512) k.mem
  (ok, { k with mem := m, ata := ata })

/-- The loop that reads the table in chunks: the number of sectors read when it is left. Every
pass reads at least one sector, so that `total` passes are enough. -/
def chunkLoop (hw : Hardware) (drive lba total : ℕ) : (fuel done : ℕ) → State → ℕ × State
  | 0, done, k => (done, k)
  | fuel + 1, done, k =>
    if done < total then
      let chunk := if 16 < total - done then 16 else total - done
      let (ok, k) := readFat hw drive (u64 (lba + done)) chunk done k
      if !ok then (done, k) else chunkLoop hw drive lba total fuel (done + chunk) k
    else (done, k)

/-- The buffer is taken when it is not there yet. -/
def takeBuffer (k : State) : State :=
  if k.fatbuf = 0 then
    let (addr, pma) := pageAlloc k.pma (bpbOf k.sector).fatPages
    { k with fatbuf := addr, pma := pma }
  else k

/-- The report on a volume of whose table `bytes` bytes have been read. -/
def report (lba bytes : ℕ) (k : State) : QizoFat :=
  let b := bpbOf k.sector
  let is12 : Bool := b.clusters < 4085
  let free := countFree is12 k.mem k.fatbuf bytes b.clusters
  let totalBytes := b.clusters * b.spc * 512
  let freeBytes := free * b.spc * 512
  { present := true
    sectPerClust := b.spc
    clusters := b.clusters
    freeClusters := free
    totalBytes := totalBytes
    freeBytes := if totalBytes < freeBytes then totalBytes else freeBytes
    startLba := lba
    label := labelText b.label
    type := if is12 then "FAT12   " else "FAT16   " }

/-- The rest of the body of `scan_drive`, with an acceptable sector in the buffer. The table is
looked for behind `first`, not behind the sector that was found. -/
def mount (hw : Hardware) (drive first lba : ℕ) (out : QizoFat) (k : State) :
    Bool × QizoFat × State :=
  let b := bpbOf k.sector
  let k := takeBuffer k
  if k.fatbuf = 0 then (false, out, k)
  else
    let fatLba := u64 (first + b.reserved)
    let (ok, k) := readFat hw drive fatLba (b.fatBytes / 512) 0 k
    if ok then (true, report lba b.fatBytes k, k)
    else
      let (done, k) := chunkLoop hw drive fatLba (b.fatBytes / 512) (b.fatBytes / 512) 0 k
      if done = 0 then (false, out, k) else (true, report lba (done * 512) k, k)

/-- The loop of `scan_drive`, entered at `i` with `fuel` passes left. -/
def scanLoop (hw : Hardware) (drive first : ℕ) :
    (fuel i : ℕ) → QizoFat → State → Bool × QizoFat × State
  | 0, _, out, k => (false, out, k)
  | fuel + 1, i, out, k =>
    let lba := u64 (first + i)
    let (ok, k) := readBoot hw drive lba k
    if !ok then scanLoop hw drive first fuel (i + 1) out k
    else if !acceptable k.sector then scanLoop hw drive first fuel (i + 1) out k
    else mount hw drive first lba out k

/-- `scan_drive`. -/
def scanDrive (hw : Hardware) (drive first : ℕ) (out : QizoFat) (k : State) :
    Bool × QizoFat × State :=
  scanLoop hw drive first fatScanLbas 0 out k

/-- The places `fat_for` looks for a volume from. -/
def windows (blob : Blob) : List ℕ := [u32 (blob.lba.toNat + blob.sectors.toNat), 63, 2048]

/-- The searches of `fat_for`, one after the other until one succeeds. -/
def scanWindows (hw : Hardware) (drive : ℕ) : List ℕ → QizoFat → State → Bool × QizoFat × State
  | [], out, k => (false, out, k)
  | first :: rest, out, k =>
    let (ok, out, k) := scanDrive hw drive first out k
    if ok then (true, out, k) else scanWindows hw drive rest out k

/-- What `fat_for` fills in first. -/
def clearFat (out : QizoFat) : QizoFat :=
  { out with
    present := false, label := [], type := "none    ", totalBytes := 0, freeBytes := 0
    clusters := 0, freeClusters := 0, startLba := 0 }

/-- `fat_for`, with the drivers started. -/
def fatForStarted (hw : Hardware) (blob : Blob) (drive : ℕ) (out : QizoFat) (k : State) :
    Bool × QizoFat × State :=
  if k.ata.ataLive = false then (false, clearFat out, k)
  else if 1 < drive then (false, clearFat out, k)
  else scanWindows hw drive (windows blob) (clearFat out) k

/-! ### Starting -/

/-- `qizo_fat_probe`, called while the drivers are started. -/
def fatProbe (hw : Hardware) (blob : Blob) (k : State) : Bool × State :=
  if hw.attached = false then (false, k)
  else if k.fsReady then (true, k)
  else
    let (ok, fs, k) := fatForStarted hw blob 0 k.fs k
    (ok, { k with fs := fs, fsReady := ok })

/-- `qizo_fat_start`. -/
def fatStart (hw : Hardware) (blob : Blob) (k : State) : State :=
  if k.fsReady then k
  else
    let (ok, fs, k) := fatForStarted hw blob 0 k.fs k
    { k with fs := fs, fsReady := ok }

/-- `qizo_drivers_start`, of which the disk and the volume driver are modelled. -/
def driversStart (hw : Hardware) (blob : Blob) (k : State) : State :=
  if k.started then k
  else
    let k := { k with started := true }
    let k := if hw.attached then { k with ata := Ata.start hw k.ata } else k
    let (ok, k) := fatProbe hw blob k
    if ok then fatStart hw blob k else k

/-- `fat_for`. -/
def fatFor (hw : Hardware) (blob : Blob) (drive : ℕ) (out : QizoFat) (k : State) :
    Bool × QizoFat × State :=
  fatForStarted hw blob drive out (driversStart hw blob k)

/-! ### What a search does

A search reads sectors until one is acceptable, and only then does anything else happen. -/

section Search

variable {hw : Hardware} {drive first fuel i lba count done : ℕ} {out out' : QizoFat} {k k' : State}

/-- The part of the search loop in front of `mount`: the sector it stops at. -/
def search (hw : Hardware) (drive first : ℕ) : (fuel i : ℕ) → State → Option ℕ × State
  | 0, _, k => (none, k)
  | fuel + 1, i, k =>
    let lba := u64 (first + i)
    let (ok, k) := readBoot hw drive lba k
    if ok && acceptable k.sector then (some lba, k) else search hw drive first fuel (i + 1) k

/-- **The loop is the search, and then `mount`.** -/
theorem scanLoop_eq (hw : Hardware) (drive first fuel i : ℕ) (out : QizoFat) (k : State) :
    scanLoop hw drive first fuel i out k =
      match search hw drive first fuel i k with
      | (some lba, k) => mount hw drive first lba out k
      | (none, k) => (false, out, k) := by
  induction fuel generalizing i k with
  | zero => rfl
  | succ fuel ih =>
    rw [scanLoop, search]
    rcases readBoot hw drive (u64 (first + i)) k with ⟨ok, k₁⟩
    cases ok with
    | false => simpa using ih (i + 1) k₁
    | true =>
      cases hacc : acceptable k₁.sector with
      | false => simpa [hacc] using ih (i + 1) k₁
      | true => simp [hacc]

/-- A sector the search stops at has been read and is acceptable. -/
theorem search_eq_some (h : search hw drive first fuel i k = (some lba, k')) :
    ∃ j k₀, i ≤ j ∧ lba = u64 (first + j) ∧ readBoot hw drive lba k₀ = (true, k') ∧
      acceptable k'.sector = true := by
  induction fuel generalizing i k with
  | zero => simp [search] at h
  | succ fuel ih =>
    rw [search] at h
    rcases hread : readBoot hw drive (u64 (first + i)) k with ⟨ok, k₁⟩
    rw [hread] at h
    dsimp only at h
    split at h
    · rename_i hok
      rw [Bool.and_eq_true] at hok
      obtain ⟨hlba, rfl⟩ : some (u64 (first + i)) = some lba ∧ k₁ = k' := by simpa using h
      obtain rfl := Option.some.inj hlba
      exact ⟨i, k, le_rfl, rfl, by rw [hread, hok.1], hok.2⟩
    · obtain ⟨j, k₀, hj, hrest⟩ := ih h
      exact ⟨j, k₀, by omega, hrest⟩

/-- Reading a sector changes the sector buffer and the clock. -/
theorem readBoot_state (hw : Hardware) (drive lba : ℕ) (k : State) :
    ∃ m t, (readBoot hw drive lba k).2 =
      { k with sector := m, ata := { k.ata with tick := t } } := by
  obtain ⟨t, ht⟩ := readDrive_state hw k.ata drive lba 1 0 k.sector
  rw [readBoot]
  dsimp only
  exact ⟨_, t, by rw [ht]⟩

/-- And so does a whole search. -/
theorem search_state (hw : Hardware) (drive first fuel i : ℕ) (k : State) :
    ∃ m t, (search hw drive first fuel i k).2 =
      { k with sector := m, ata := { k.ata with tick := t } } := by
  induction fuel generalizing i k with
  | zero => exact ⟨_, _, rfl⟩
  | succ fuel ih =>
    obtain ⟨m, t, hread⟩ := readBoot_state hw drive (u64 (first + i)) k
    rw [search]
    dsimp only
    split
    · exact ⟨m, t, hread⟩
    · obtain ⟨m', t', hrest⟩ := ih (i + 1) (readBoot hw drive (u64 (first + i)) k).2
      rw [hread] at hrest
      exact ⟨m', t', by rw [hread, hrest]⟩

/-- Reading the table changes the table buffer and the clock. -/
theorem readFat_state (hw : Hardware) (drive lba count done : ℕ) (k : State) :
    ∃ m t, (readFat hw drive lba count done k).2 =
      { k with mem := m, ata := { k.ata with tick := t } } := by
  obtain ⟨t, ht⟩ := readDrive_state hw k.ata drive lba count (k.fatbuf + done * 512) k.mem
  rw [readFat]
  dsimp only
  exact ⟨_, t, by rw [ht]⟩

theorem chunkLoop_state (hw : Hardware) (drive lba total fuel done : ℕ) (k : State) :
    ∃ m t, (chunkLoop hw drive lba total fuel done k).2 =
      { k with mem := m, ata := { k.ata with tick := t } } := by
  induction fuel generalizing done k with
  | zero => exact ⟨_, _, rfl⟩
  | succ fuel ih =>
    rw [chunkLoop]
    split
    · dsimp only
      generalize (if 16 < total - done then 16 else total - done) = chunk
      obtain ⟨m, t, hread⟩ := readFat_state hw drive (u64 (lba + done)) chunk done k
      split
      · exact ⟨m, t, hread⟩
      · obtain ⟨m', t', hrest⟩ :=
          ih (done + chunk) (readFat hw drive (u64 (lba + done)) chunk done k).2
        rw [hread] at hrest
        exact ⟨m', t', by rw [hread, hrest]⟩
    · exact ⟨_, _, rfl⟩

theorem takeBuffer_sector : (takeBuffer k).sector = k.sector := by
  unfold takeBuffer
  split <;> rfl

theorem takeBuffer_ata : (takeBuffer k).ata = k.ata := by
  unfold takeBuffer
  split <;> rfl

/-- Mounting a volume takes the buffer, reads the table, and reports what is then in the two
buffers. -/
theorem mount_cases (hw : Hardware) (drive first lba : ℕ) (out : QizoFat) (k : State) :
    ∃ m t, (mount hw drive first lba out k).2.2 =
        { takeBuffer k with mem := m, ata := { k.ata with tick := t } } ∧
      ((mount hw drive first lba out k).1 = true → ∃ bytes,
        (mount hw drive first lba out k).2.1 =
          report lba bytes { takeBuffer k with mem := m, ata := { k.ata with tick := t } }) := by
  rw [mount]
  dsimp only
  obtain ⟨m, t, hread⟩ := readFat_state hw drive (u64 (first + (bpbOf k.sector).reserved))
    ((bpbOf k.sector).fatBytes / 512) 0 (takeBuffer k)
  rw [takeBuffer_ata] at hread
  split
  · exact ⟨_, k.ata.tick, by rw [← takeBuffer_ata], fun h => nomatch h⟩
  · split
    · exact ⟨m, t, hread, fun _ => ⟨_, by rw [← hread]⟩⟩
    · obtain ⟨m', t', hchunk⟩ := chunkLoop_state hw drive
        (u64 (first + (bpbOf k.sector).reserved)) ((bpbOf k.sector).fatBytes / 512)
        ((bpbOf k.sector).fatBytes / 512) 0
        (readFat hw drive (u64 (first + (bpbOf k.sector).reserved))
          ((bpbOf k.sector).fatBytes / 512) 0 (takeBuffer k)).2
      have hstate : { (readFat hw drive (u64 (first + (bpbOf k.sector).reserved))
          ((bpbOf k.sector).fatBytes / 512) 0 (takeBuffer k)).2 with
            mem := m'
            ata := { (readFat hw drive (u64 (first + (bpbOf k.sector).reserved))
              ((bpbOf k.sector).fatBytes / 512) 0 (takeBuffer k)).2.ata with tick := t' } } =
          { takeBuffer k with mem := m', ata := { k.ata with tick := t' } } := by rw [hread]
      rw [hstate] at hchunk
      split
      · exact ⟨m', t', hchunk, fun h => nomatch h⟩
      · exact ⟨m', t', hchunk, fun _ => ⟨_, by rw [← hchunk]⟩⟩

/-- **What a successful search has found.** -/
theorem scanLoop_eq_true (h : scanLoop hw drive first fuel i out k = (true, out', k')) :
    ∃ j k₀ k₁ k₂ bytes, readBoot hw drive (u64 (first + j)) k₀ = (true, k₁) ∧
      acceptable k₁.sector = true ∧ k₂.sector = k₁.sector ∧
      out' = report (u64 (first + j)) bytes k₂ := by
  rw [scanLoop_eq] at h
  rcases hsearch : search hw drive first fuel i k with ⟨_ | lba, k₁⟩
  · rw [hsearch] at h
    simp at h
  · rw [hsearch] at h
    obtain ⟨j, k₀, -, rfl, hread, hacc⟩ := search_eq_some hsearch
    obtain ⟨m, t, -, hreport⟩ := mount_cases hw drive first (u64 (first + j)) out k₁
    dsimp only at h
    rw [h] at hreport
    obtain ⟨bytes, hout⟩ := hreport rfl
    exact ⟨j, k₀, k₁, { takeBuffer k₁ with mem := m, ata := { k₁.ata with tick := t } }, bytes,
      hread, hacc, takeBuffer_sector, hout⟩

end Search

end Fat

end Qizo
