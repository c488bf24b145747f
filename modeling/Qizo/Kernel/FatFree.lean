import Qizo.Kernel.Fat
import Qizo.Kernel.AtaRead

/-!
# What is free on a volume

`scan_drive` finds a boot sector, reads the allocation table and counts the entries that are zero.
The count is that of the volume if the right sectors are read, and all of them. The driver gets this
wrong in two ways. It looks for the table behind the sector where the search began, not behind the
boot sector. And an entry that has not been read, because the table is longer than the buffer or a
sector of it could not be read, counts as free.

## Main results

* `loaded_chunkLoop`, `le_chunkLoop` — how much of the table is read, and that it is the table
* `countFree_eq` — the count, over a table that has been read
* `truthful_of_covered` — the searches that report what is free on the volume
-/

namespace Qizo

namespace Fat

open Memory Pma Ata

/-! ### A volume on a disk -/

/-- The bytes of a disk from a sector on. -/
def table (disk : ℕ → Memory) (lba : ℕ) : Memory := fun a => disk (lba + a / 512) (a % 512)

/-- An entry of an allocation table: 12 bits, two of them in three bytes, or 16 bits. -/
def entryOf (is12 : Bool) (fat : Memory) (i : ℕ) : ℕ :=
  if is12 then fat.load 2 (i * 3 / 2) / 16 ^ (i % 2) % 2 ^ 12 else fat.load 2 (i * 2)

/-- The clusters that are free, of a volume with that many clusters whose table starts at `lba`. -/
def freeOn (disk : ℕ → Memory) (lba clusters : ℕ) : ℕ :=
  (List.range' 2 clusters).countP fun i => entryOf (clusters < 4085) (table disk lba) i = 0

/-- **A report is truthful** if the free clusters are those of the volume, whose table is behind the
reserved sectors of the boot sector that was found, and no more bytes are free than there are. -/
def Truthful (disk : ℕ → Memory) (out : QizoFat) : Prop :=
  out.freeClusters =
      freeOn disk (out.startLba + (bpbOf (disk out.startLba)).reserved) out.clusters ∧
    out.freeBytes ≤ out.totalBytes

/-- The bytes of a table with entries for that many clusters. -/
def tableBytes (clusters : ℕ) : ℕ :=
  if clusters < 4085 then (3 * (clusters + 2) + 1) / 2 else 2 * (clusters + 2)

/-- The sectors of such a table. -/
def tableSectors (clusters : ℕ) : ℕ := (tableBytes clusters + 511) / 512

/-- **The searches that read the table they should**: the boot sector is the first sector that is
looked at, the table is not cut off, and if it is read in chunks, no chunk with an entry in it
fails. -/
structure Covered (hw : Hardware) (disk : ℕ → Memory) (drive first : ℕ) (k : State) : Prop where
  wrap : first + 1 < 2 ^ 64
  handed : Handed hw k.ata drive first 1
  boot : acceptable (disk first) = true
  room : tableSectors (bpbOf (disk first)).clusters ≤ (bpbOf (disk first)).fatBytes / 512
  chunks : 16 < (bpbOf (disk first)).fatBytes / 512 →
    ∀ d, d % 16 = 0 → d < tableSectors (bpbOf (disk first)).clusters →
      Handed hw { k.ata with tick := k.ata.tick + 1 + d } drive
        (first + (bpbOf (disk first)).reserved + d)
        (min 16 ((bpbOf (disk first)).fatBytes / 512 - d))

section Reading

variable {hw : Hardware} {disk : ℕ → ℕ → Memory} {drive first lba count done total need fuel : ℕ}
  {out out' : QizoFat} {k k' : State}

/-! ### The boot sector -/

theorem bpbOf_congr {m m' : Memory} (h : ∀ i < 512, m' i = m i) : bpbOf m' = bpbOf m := by
  have hload {w a : ℕ} (hw : a + w ≤ 512) : m'.load w a = m.load w a :=
    load_congr fun i hi => h (a + i) (by omega)
  have hlabel : m'.bytes 39 11 = m.bytes 39 11 :=
    List.map_congr_left fun i hi => h (39 + i) (by rw [List.mem_range] at hi; omega)
  simp only [bpbOf, hlabel, hload (show 11 + 2 ≤ 512 by decide),
    hload (show 13 + 1 ≤ 512 by decide), hload (show 14 + 2 ≤ 512 by decide),
    hload (show 16 + 1 ≤ 512 by decide), hload (show 17 + 2 ≤ 512 by decide),
    hload (show 19 + 2 ≤ 512 by decide), hload (show 21 + 1 ≤ 512 by decide),
    hload (show 22 + 2 ≤ 512 by decide), hload (show 32 + 4 ≤ 512 by decide)]

theorem acceptable_congr {m m' : Memory} (h : ∀ i < 512, m' i = m i) :
    acceptable m' = acceptable m := by
  rw [acceptable, acceptable, bpbSane, bpbSane, bpbOf_congr h, h 510 (by decide), h 511 (by decide)]

/-- **A boot sector at the start** ends the search at once. -/
theorem search_first (hreads : Reads hw disk) (hsectors : k.ata.driveSectors drive < 2 ^ 28)
    (hwrap : first + 1 < 2 ^ 64) (hhanded : Handed hw k.ata drive first 1)
    (hboot : acceptable (disk drive first) = true) :
    first < 2 ^ 28 ∧ ∃ k₁, search hw drive first fatScanLbas 0 k = (some first, k₁) ∧
      (∀ i < 512, k₁.sector i = disk drive first i) ∧
      k₁.ata = { k.ata with tick := k.ata.tick + 1 } := by
  rcases hread : readDrive hw k.ata drive first 1 0 k.sector with ⟨ok, m, ata⟩
  obtain rfl : ok = true := by
    have := (readDrive_fst_iff hw k.ata drive first 1 0 k.sector).mpr hhanded
    rwa [hread] at this
  obtain ⟨hrange, rfl, hmem⟩ := readDrive_eq_true hreads hsectors hwrap hread
  have hsector (i : ℕ) (hi : i < 512) : m i = disk drive first i := by
    have := hmem i (by omega)
    rwa [Nat.zero_add, Nat.div_eq_of_lt hi, Nat.mod_eq_of_lt hi] at this
  refine ⟨by omega, { k with sector := m, ata := { k.ata with tick := k.ata.tick + 1 } }, ?_,
    hsector, rfl⟩
  rw [fatScanLbas, search, Nat.add_zero, u64, Nat.mod_eq_of_lt (by omega), readBoot, hread]
  dsimp only
  rw [acceptable_congr hsector, hboot]
  rfl

/-! ### The table -/

/-- The buffer holds that many sectors from `lba` on. -/
def Loaded (disk : ℕ → ℕ → Memory) (drive lba done : ℕ) (k : State) : Prop :=
  ∀ i < done * 512, k.mem (k.fatbuf + i) = table (disk drive) lba i

/-- A part of the table is read behind the others. -/
theorem loaded_readFat (hreads : Reads hw disk) (hsectors : k.ata.driveSectors drive < 2 ^ 28)
    (hwrap : lba + done + count < 2 ^ 64) (hload : Loaded disk drive lba done k)
    (h : readFat hw drive (u64 (lba + done)) count done k = (true, k')) :
    Loaded disk drive lba (done + count) k' ∧ k'.sector = k.sector ∧ k'.fatbuf = k.fatbuf ∧
      k'.ata = { k.ata with tick := k.ata.tick + count } := by
  rw [u64, Nat.mod_eq_of_lt (by omega), readFat] at h
  rcases hread : readDrive hw k.ata drive (lba + done) count (k.fatbuf + done * 512) k.mem with
    ⟨ok, m, ata⟩
  rw [hread] at h
  obtain ⟨rfl, rfl⟩ := Prod.mk.inj h
  obtain ⟨-, rfl, hmem⟩ := readDrive_eq_true hreads hsectors hwrap hread
  have hframe := readDrive_eqOutside hw k.ata drive (lba + done) count (k.fatbuf + done * 512) k.mem
  rw [hread] at hframe
  refine ⟨fun i hi => ?_, rfl, rfl, rfl⟩
  dsimp only
  by_cases hold : i < done * 512
  · rw [← hload i hold]
    exact hframe _ (by rw [outside_cons]; exact ⟨Or.inl (by omega), outside_nil _⟩)
  · have hnew := hmem (i - done * 512) (by omega)
    rw [show k.fatbuf + done * 512 + (i - done * 512) = k.fatbuf + i by omega] at hnew
    rw [hnew, table, show lba + done + (i - done * 512) / 512 = lba + i / 512 by omega,
      show (i - done * 512) % 512 = i % 512 by omega]

/-- A request behind what has been read leaves it alone. -/
theorem Loaded.readFat (h : Loaded disk drive lba done k) (hw : Hardware) (lba' count : ℕ) :
    Loaded disk drive lba done (readFat hw drive lba' count done k).2 := by
  have hframe := readDrive_eqOutside hw k.ata drive lba' count (k.fatbuf + done * 512) k.mem
  intro i hi
  rw [← h i hi]
  exact hframe (k.fatbuf + i) (by rw [outside_cons]; exact ⟨Or.inl (by omega), outside_nil _⟩)

/-- What is left to read, but no more than 16 sectors. -/
theorem chunk_eq (total done : ℕ) :
    (if 16 < total - done then 16 else total - done) = min 16 (total - done) := by
  split <;> omega

theorem chunkLoop_le (hdone : done ≤ total) :
    (chunkLoop hw drive lba total fuel done k).1 ≤ total := by
  induction fuel generalizing done k with
  | zero => exact hdone
  | succ fuel ih =>
    rw [chunkLoop]
    split
    · dsimp only
      rw [chunk_eq]
      split
      · exact hdone
      · exact ih (by omega)
    · exact hdone

/-- **What the loop reads is the table.** -/
theorem loaded_chunkLoop (hreads : Reads hw disk) (hsectors : k.ata.driveSectors drive < 2 ^ 28)
    (hwrap : lba + total < 2 ^ 64) (hload : Loaded disk drive lba done k) :
    Loaded disk drive lba (chunkLoop hw drive lba total fuel done k).1
      (chunkLoop hw drive lba total fuel done k).2 := by
  induction fuel generalizing done k with
  | zero => exact hload
  | succ fuel ih =>
    rw [chunkLoop]
    split
    case isFalse => exact hload
    case isTrue =>
      dsimp only
      rw [chunk_eq]
      rcases hread : readFat hw drive (u64 (lba + done)) (min 16 (total - done)) done k with
        ⟨ok, k₁⟩
      cases ok with
      | true =>
        obtain ⟨hload₁, -, -, hata⟩ := loaded_readFat hreads hsectors (by omega) hload hread
        exact ih (by rw [hata]; exact hsectors) hload₁
      | false =>
        -- what a part that fails has put down is behind what has been read
        have hkeep := hload.readFat hw (u64 (lba + done)) (min 16 (total - done))
        rwa [hread] at hkeep

theorem done_le_chunkLoop : done ≤ (chunkLoop hw drive lba total fuel done k).1 := by
  induction fuel generalizing done k with
  | zero => exact Nat.le_refl _
  | succ fuel ih =>
    rw [chunkLoop]
    split
    · dsimp only
      rw [chunk_eq]
      split
      · exact Nat.le_refl _
      · exact (Nat.le_add_right _ _).trans ih
    · exact Nat.le_refl _

/-- **How much the loop reads.** If every part up to `need` can be read, it comes that far. -/
theorem le_chunkLoop (hreads : Reads hw disk) (hsectors : k.ata.driveSectors drive < 2 ^ 28)
    (hwrap : lba + total < 2 ^ 64) (hneed : need ≤ total) (hfuel : total ≤ done + fuel)
    (hstart : done % 16 = 0 ∨ need ≤ done)
    (hload : Loaded disk drive lba done k)
    (hparts : ∀ d, done ≤ d → d % 16 = 0 → d < need →
      Handed hw { k.ata with tick := k.ata.tick + (d - done) } drive (lba + d)
        (min 16 (total - d))) :
    need ≤ (chunkLoop hw drive lba total fuel done k).1 := by
  induction fuel generalizing done k with
  | zero => exact hneed.trans hfuel
  | succ fuel ih =>
    by_cases hlt : need ≤ done
    · exact hlt.trans done_le_chunkLoop
    · have hmod : done % 16 = 0 := hstart.resolve_right hlt
      have hhanded := hparts done (Nat.le_refl _) hmod (by omega)
      rw [Nat.sub_self, Nat.add_zero] at hhanded
      rw [chunkLoop, if_pos (by omega)]
      dsimp only
      rw [chunk_eq]
      rcases hread : readFat hw drive (u64 (lba + done)) (min 16 (total - done)) done k with
        ⟨ok, k₁⟩
      obtain rfl : ok = true := by
        have hok := (readDrive_fst_iff hw k.ata drive (lba + done) (min 16 (total - done))
          (k.fatbuf + done * 512) k.mem).mpr hhanded
        rw [u64, Nat.mod_eq_of_lt (by omega), readFat] at hread
        rw [← hok]
        exact (Prod.mk.inj hread).1.symm
      obtain ⟨hload₁, -, -, hata⟩ := loaded_readFat hreads hsectors (by omega) hload hread
      refine ih (by rw [hata]; exact hsectors) (by omega) (by omega) hload₁
        fun d hd hmod' hlt' => ?_
      have hpart := hparts d (by omega) hmod' hlt'
      rw [hata]
      rwa [show k.ata.tick + (d - done) =
        k.ata.tick + min 16 (total - done) + (d - (done + min 16 (total - done))) by omega] at hpart

/-! ### Counting -/

/-- The two bytes of a word. -/
theorem or_eq_load (m : Memory) (a : ℕ) :
    (m a).toNat ||| (m (a + 1)).toNat <<< 8 = m.load 2 a := by
  rw [or_shiftLeft (m a).toNat_lt, load_two, load_one, load_one]
  rfl

theorem fatEntry12_eq (m : Memory) (f i : ℕ) :
    fatEntry12 m f i = entryOf true (fun a => m (f + a)) i := by
  have hword := or_eq_load (fun a => m (f + a)) (i * 3 / 2)
  have hlt := load_lt (fun a => m (f + a)) 2 (i * 3 / 2)
  have hmask (v : ℕ) : v &&& 0x0FFF = v % 2 ^ 12 := Nat.and_two_pow_sub_one_eq_mod v 12
  have hodd : i &&& 1 = i % 2 := Nat.and_one_is_mod i
  simp only [fatEntry12, entryOf, if_true]
  rw [show i + i / 2 = i * 3 / 2 by omega, hword, hodd]
  generalize (Memory.load (fun a => m (f + a)) 2 (i * 3 / 2)) = v at hlt ⊢
  rcases Nat.mod_two_eq_zero_or_one i with hi | hi
  · rw [hi, if_neg (by decide), hmask, pow_zero, Nat.div_one]
  · rw [hi, if_pos (by decide), Nat.shiftRight_eq_div_pow, pow_one]
    omega

theorem fatEntry16_eq (m : Memory) (f i : ℕ) :
    fatEntry16 m f i = entryOf false (fun a => m (f + a)) i :=
  or_eq_load (fun a => m (f + a)) (i * 2)

/-- An entry depends on its own two bytes. -/
theorem entryOf_congr {is12 : Bool} {m m' : Memory} {bytes i : ℕ}
    (hbytes : (if is12 then (3 * (i + 1) + 1) / 2 else 2 * (i + 1)) ≤ bytes)
    (h : ∀ a < bytes, m' a = m a) : entryOf is12 m' i = entryOf is12 m i := by
  have hload {a : ℕ} (ha : a + 2 ≤ bytes) : m'.load 2 a = m.load 2 a :=
    load_congr fun j hj => h (a + j) (by omega)
  cases is12 with
  | true =>
    simp only [entryOf, if_true] at hbytes ⊢
    rw [hload (by omega)]
  | false =>
    simp only [entryOf, Bool.false_eq_true, if_false] at hbytes ⊢
    rw [hload (by omega)]

/-- **The count, over a table that has been read** far enough. -/
theorem countFree_eq {m fat : Memory} {f bytes clusters : ℕ} (hbytes : bytes ≤ 2 ^ 18)
    (hfit : tableBytes clusters ≤ bytes) (hmem : ∀ a < bytes, m (f + a) = fat a) :
    countFree (clusters < 4085) m f bytes clusters =
      (List.range' 2 clusters).countP fun i => entryOf (clusters < 4085) fat i = 0 := by
  have hlimit : clusters + 2 ≤ (if decide (clusters < 4085) then u32 (bytes * 2) / 3
      else bytes / 2) := by
    rw [tableBytes] at hfit
    rw [u32, Nat.mod_eq_of_lt (by omega)]
    by_cases hlt : clusters < 4085
    · rw [if_pos hlt] at hfit
      rw [if_pos (decide_eq_true hlt)]
      omega
    · rw [if_neg hlt] at hfit
      rw [if_neg (by simpa using hlt)]
      omega
  have hsmall : clusters + 2 ≤ 2 ^ 18 := by
    rw [tableBytes] at hfit
    split at hfit <;> omega
  have hentry (i : ℕ) (hi : i < clusters + 2) :
      (if decide (clusters < 4085) then fatEntry12 m f i else fatEntry16 m f i) =
        entryOf (clusters < 4085) fat i := by
    have hcongr : entryOf (clusters < 4085) (fun a => m (f + a)) i =
        entryOf (clusters < 4085) fat i := by
      refine entryOf_congr (Nat.le_trans ?_ hfit) hmem
      rw [tableBytes]
      by_cases hlt : clusters < 4085
      · rw [if_pos (decide_eq_true hlt), if_pos hlt]
        omega
      · rw [if_neg (by simpa using hlt), if_neg hlt]
        omega
    rw [← hcongr]
    by_cases hlt : clusters < 4085
    · rw [if_pos (decide_eq_true hlt), fatEntry12_eq, decide_eq_true hlt]
    · rw [if_neg (by simpa using hlt), fatEntry16_eq, decide_eq_false hlt]
  simp only [countFree]
  generalize (if decide (clusters < 4085) then u32 (bytes * 2) / 3 else bytes / 2) = limit at *
  have hcut : (if u32 (clusters + 2) < limit then u32 (clusters + 2) else limit) =
      clusters + 2 := by
    rw [show u32 (clusters + 2) = clusters + 2 from Nat.mod_eq_of_lt (by omega)]
    split <;> omega
  rw [hcut, show sub32 (clusters + 2) 2 = clusters by rw [sub32]; omega, Nat.add_sub_cancel,
    if_neg (Nat.lt_irrefl _)]
  refine List.countP_congr fun i hi => ?_
  rw [List.mem_range'_1] at hi
  rw [hentry i (by omega)]

/-! ### The report -/

/-- A table of no more than 16 sectors is read as a whole, or not at all. -/
theorem chunkLoop_small (htotal : total ≤ 16) :
    (chunkLoop hw drive lba total total 0 k).1 = 0 ∨
      (chunkLoop hw drive lba total total 0 k).1 = total := by
  cases total with
  | zero => exact Or.inl rfl
  | succ n =>
    rw [chunkLoop, if_pos n.succ_pos]
    dsimp only
    rw [chunk_eq, Nat.sub_zero, Nat.min_eq_right htotal, Nat.zero_add]
    split
    · exact Or.inl rfl
    · refine Or.inr ?_
      cases n with
      | zero => rfl
      | succ n => rw [chunkLoop, if_neg (Nat.lt_irrefl _)]

/-- A request for more than 16 sectors does nothing. -/
theorem readFat_large (hcount : 16 < count) : readFat hw drive lba count done k = (false, k) := by
  have hnone : readCommand k.ata drive lba count = none := by
    rw [readCommand]
    split
    · rfl
    · rw [if_pos (Or.inr hcount)]
  rw [readFat, readDrive, hnone]

/-- The bytes read are whole sectors, and no more than 256 KiB. -/
theorem fatBytes_eq (b : Bpb) : b.fatBytes = b.fatBytes / 512 * 512 ∧ b.fatBytes ≤ 2 ^ 18 := by
  rw [Bpb.fatBytes]
  split
  · exact ⟨rfl, Nat.le_refl _⟩
  · omega

/-- **Mounting a volume** reads some sectors of the table, and all that are needed if there is room
for them and no chunk with one of them fails. -/
theorem mount_eq_true (hreads : Reads hw disk) (hsectors : k.ata.driveSectors drive < 2 ^ 28)
    (hfirst : first < 2 ^ 28) (hneed : need ≤ (bpbOf k.sector).fatBytes / 512)
    (hparts : 16 < (bpbOf k.sector).fatBytes / 512 → ∀ d, d % 16 = 0 → d < need →
      Handed hw { k.ata with tick := k.ata.tick + d } drive
        (first + (bpbOf k.sector).reserved + d) (min 16 ((bpbOf k.sector).fatBytes / 512 - d)))
    (h : mount hw drive first lba out k = (true, out', k')) :
    ∃ done, need ≤ done ∧ done ≤ (bpbOf k.sector).fatBytes / 512 ∧
      Loaded disk drive (first + (bpbOf k.sector).reserved) done k' ∧ k'.sector = k.sector ∧
      out' = report lba (done * 512) k' := by
  obtain ⟨hmul, hmax⟩ := fatBytes_eq (bpbOf k.sector)
  have hreserved : (bpbOf k.sector).reserved < 2 ^ 16 := load_lt k.sector 2 14
  have hnone : Loaded disk drive (first + (bpbOf k.sector).reserved) 0 (takeBuffer k) :=
    fun i hi => absurd hi (by omega)
  have hsectors' : (takeBuffer k).ata.driveSectors drive < 2 ^ 28 := by
    rw [takeBuffer_ata]
    exact hsectors
  have hlba : u64 (first + (bpbOf k.sector).reserved) = first + (bpbOf k.sector).reserved :=
    Nat.mod_eq_of_lt (by omega)
  rw [mount] at h
  dsimp only at h
  rw [hlba] at h
  generalize (bpbOf k.sector).fatBytes = bytes at *
  generalize (bpbOf k.sector).reserved = reserved at *
  split at h
  · cases h
  · rcases hread : readFat hw drive (first + reserved) (bytes / 512) 0 (takeBuffer k) with ⟨ok, k₁⟩
    rw [hread] at h
    dsimp only at h
    cases ok with
    | true =>
      obtain ⟨rfl, rfl⟩ := Prod.mk.inj (Prod.mk.inj h).2
      rw [← hlba, ← Nat.add_zero (first + reserved)] at hread
      obtain ⟨hload, hsector, -, -⟩ := loaded_readFat hreads hsectors' (by omega) hnone hread
      rw [Nat.zero_add] at hload
      refine ⟨bytes / 512, hneed, Nat.le_refl _, hload, ?_, ?_⟩
      · rw [hsector, takeBuffer_sector]
      · rw [← hmul]
    | false =>
      rw [if_neg Bool.false_ne_true] at h
      have hkeep := hnone.readFat hw (first + reserved) (bytes / 512)
      obtain ⟨m, t, hstate⟩ := readFat_state hw drive (first + reserved) (bytes / 512) 0
        (takeBuffer k)
      rw [hread] at hkeep hstate
      dsimp only at hkeep hstate
      have hsectors₁ : k₁.ata.driveSectors drive < 2 ^ 28 := by
        rw [hstate]
        exact hsectors'
      have hwrap : first + reserved + bytes / 512 < 2 ^ 64 := by omega
      have hload := @loaded_chunkLoop _ _ _ _ _ _ (bytes / 512) _ hreads hsectors₁ hwrap hkeep
      have hle : (chunkLoop hw drive (first + reserved) (bytes / 512) (bytes / 512) 0 k₁).1 ≤
        bytes / 512 := chunkLoop_le (Nat.zero_le _)
      obtain ⟨m', t', hchunk⟩ := chunkLoop_state hw drive (first + reserved) (bytes / 512)
        (bytes / 512) 0 k₁
      -- either the whole table was asked for, and read again, or nothing was
      have hfar :
          need ≤ (chunkLoop hw drive (first + reserved) (bytes / 512) (bytes / 512) 0 k₁).1 ∨
          (chunkLoop hw drive (first + reserved) (bytes / 512) (bytes / 512) 0 k₁).1 = 0 := by
        by_cases hlarge : 16 < bytes / 512
        · rw [readFat_large hlarge] at hread
          obtain rfl := (Prod.mk.inj hread).2
          refine Or.inl (le_chunkLoop hreads hsectors₁ hwrap hneed (by omega) (Or.inl rfl) hkeep
            fun d _ hmod hlt => ?_)
          rw [Nat.sub_zero, takeBuffer_ata]
          exact hparts hlarge d hmod hlt
        · rcases chunkLoop_small (Nat.not_lt.mp hlarge) with hzero | hall
          · exact Or.inr hzero
          · exact Or.inl (by rw [hall]; exact hneed)
      generalize chunkLoop hw drive (first + reserved) (bytes / 512) (bytes / 512) 0 k₁ = r at *
      rcases r with ⟨done, k₂⟩
      dsimp only at h hload hle hchunk hfar
      split at h
      · cases h
      · next hdone =>
        obtain ⟨rfl, rfl⟩ := Prod.mk.inj (Prod.mk.inj h).2
        refine ⟨done, hfar.resolve_right hdone, hle, hload, ?_, rfl⟩
        rw [hchunk, hstate]
        exact takeBuffer_sector

/-- **The searches that report what is free on the volume.** -/
theorem truthful_of_covered (hreads : Reads hw disk)
    (hstart : ∃ st t, k.ata = { Ata.start hw st with tick := t })
    (hcov : Covered hw (disk drive) drive first k)
    (h : scanDrive hw drive first out k = (true, out', k')) : Truthful (disk drive) out' := by
  have hsectors : k.ata.driveSectors drive < 2 ^ 28 := by
    obtain ⟨st, t, hata⟩ := hstart
    obtain ⟨regs, hcmd, -⟩ := hcov.handed
    rw [hata]
    exact start_driveSectors_lt hw st (readCommand_eq_some_iff.mp hcmd).1.1
  obtain ⟨hfirst, k₁, hsearch, hsector, hata⟩ :=
    search_first hreads hsectors hcov.wrap hcov.handed hcov.boot
  have hbpb := bpbOf_congr hsector
  rw [scanDrive, scanLoop_eq, hsearch] at h
  dsimp only at h
  have hroom := hcov.room
  have hchunks := hcov.chunks
  rw [← hbpb] at hroom hchunks
  obtain ⟨done, hneed, hle, hload, hsector', rfl⟩ := mount_eq_true hreads
    (by rw [hata]; exact hsectors) hfirst hroom (by rw [hata]; exact hchunks) h
  obtain ⟨hmul, hmax⟩ := fatBytes_eq (bpbOf k₁.sector)
  rw [report, hsector']
  refine ⟨?_, ?_⟩
  · dsimp only
    rw [hbpb] at hneed hload ⊢
    rw [tableSectors] at hneed
    exact countFree_eq (by omega) (by omega) hload
  · dsimp only
    split
    · exact Nat.le_refl _
    · next hnot => exact Nat.not_lt.mp hnot

end Reading

/-! ### Two disks -/

/-- A boot sector of a volume with two clusters, one sector each: one reserved sector, one table of
one sector, and one sector for the root directory. -/
def smallBoot : Memory := fun i =>
  if i = 12 then 2 else if i = 13 then 1 else if i = 14 then 1 else if i = 16 then 1
  else if i = 17 then 16 else if i = 19 then 5 else if i = 21 then 0xF8 else if i = 22 then 1
  else if i = 510 then 0x55 else if i = 511 then 0xAA else 0

/-- A disk with that boot sector at `lba`. Behind it is a table with no free cluster, and everything
else is zero. -/
def smallDisk (lba : ℕ) (_drive s : ℕ) : Memory := fun i =>
  if s = lba then smallBoot i else if s = lba + 1 then (if i < 8 then 0xFF else 0) else 0

/-- Two drives of a hundred sectors, which never fail. -/
def diskDrive (disk : ℕ → ℕ → Memory) : Hardware where
  attached := true
  identify _ := some fun i => if i = 60 then 100 else 0
  transfer _ r s := some fun i => disk r.drive (r.lba + s) i

theorem reads_diskDrive (disk : ℕ → ℕ → Memory) : Reads (diskDrive disk) disk := by
  intro tick r s data hdata i _
  rw [← Option.some.inj hdata]

/-- The drivers started, with a buffer at `0x300000`. -/
def smallState (hw : Hardware) : State where
  pma := ⟨Bitmap.zero, 0, 0, 0, 0, 0⟩
  mem := fun _ => 0
  ata := Ata.start hw .boot
  sector := fun _ => 0
  fatbuf := 0x300000
  fs := ⟨false, 0, 0, 0, 0, 0, 0, [], ""⟩
  fsReady := false
  started := true

/-- What a search from sector 0 on gives on such a disk. -/
def scanSmall (lba : ℕ) : Bool × QizoFat × State :=
  scanDrive (diskDrive (smallDisk lba)) 0 0 ⟨false, 0, 0, 0, 0, 0, 0, [], ""⟩
    (smallState (diskDrive (smallDisk lba)))

/-- **A boot sector in the first sector.** -/
theorem truthful_of_covered_small :
    (scanSmall 0).1 = true ∧ Truthful (smallDisk 0 0) (scanSmall 0).2.1 := by
  have hok : (scanSmall 0).1 = true := by decide +kernel
  have hscan : scanDrive (diskDrive (smallDisk 0)) 0 0 ⟨false, 0, 0, 0, 0, 0, 0, [], ""⟩
      (smallState (diskDrive (smallDisk 0))) =
      (true, (scanSmall 0).2.1, (scanSmall 0).2.2) := by
    have hall {r : Bool × QizoFat × State} (h : r.1 = true) : r = (true, r.2.1, r.2.2) := by
      rw [← h]
    rw [← hall hok, scanSmall]
  refine ⟨hok, truthful_of_covered (reads_diskDrive _) ⟨.boot, 0, rfl⟩ ?_ hscan⟩
  exact
    { wrap := by decide
      handed := ⟨readRegs 0 0 1, by decide, fun _ _ => rfl⟩
      boot := by decide +kernel
      room := by decide +kernel
      chunks := fun hlarge => absurd hlarge (by decide +kernel) }

/-- **A boot sector in the second sector** of which the first one is taken for the table. Both
clusters are reported free, and none is. -/
theorem not_truthful_second : (scanSmall 1).1 = true ∧ (scanSmall 1).2.1.startLba = 1 ∧
    (scanSmall 1).2.1.freeClusters = 2 ∧ ¬Truthful (smallDisk 1 0) (scanSmall 1).2.1 := by
  have hlba : (scanSmall 1).2.1.startLba = 1 := by decide +kernel
  have hclusters : (scanSmall 1).2.1.clusters = 2 := by decide +kernel
  have hfree : (scanSmall 1).2.1.freeClusters = 2 := by decide +kernel
  refine ⟨by decide +kernel, hlba, hfree, fun htrue => ?_⟩
  have heq := htrue.1
  rw [hlba, hclusters, hfree] at heq
  exact absurd heq (by decide +kernel)

end Fat

end Qizo
