import Qizo.Boot.Stage1Read

/-!
# What the boot sector reads

The runs of the boot sector, from the entry by the firmware to the second stage or to the error
message, against what they are for: the sectors of the boot area, each once and in its place, from
the drive that was booted.

The first thing the boot trace does is a call, with the stack of the firmware still in place. The
return address must not go into the sector itself; `Clear` says so.

## Main results

* `readsOnce_packets_iff` — when the packets of the loop make up the boot area
* `readsOnce_pushed_iff` — the same for a run whose first call has left code and number alone
* `readsOnce_iff` — when every sector is read once, in order and to its place
* `drive_iff` — when the drive is the one to boot from
-/

namespace Qizo

namespace Stage1

open Real Operand Label StateTransition ByteString Memory

variable {fw : Firmware} {cand msg : ℕ} {k : Link Label} {s : Cpu} {lba total fuel e i j : ℕ}

/-! ### The boot area -/

/-- The sectors of a packet, each with the address it is read to. -/
def Packet.sectors (p : Packet) : List (ℕ × ℕ) :=
  (List.range p.count).map fun i => (p.lba + i, p.buf + 512 * i)

/-- The `total` sectors from `lba` on are read once, in order and to their places, in packets of 1
to 64 sectors none of which crosses a boundary of 64 KiB. -/
structure ReadsOnce (lba total : ℕ) (ps : List Packet) : Prop where
  sectors : ps.flatMap Packet.sectors =
    (List.range total).map fun i => (lba + i, stage2 + 512 * i)
  count : ∀ p ∈ ps, 1 ≤ p.count ∧ p.count ≤ 64
  within : ∀ p ∈ ps, p.buf / 65536 = (p.buf + 512 * p.count - 1) / 65536

/-- What is left of the boot area after `i` sectors. -/
def rest (lba total i : ℕ) : List (ℕ × ℕ) :=
  (List.range' i (total - i)).map fun i => (lba + i, stage2 + 512 * i)

theorem rest_eq_append {n : ℕ} (h : i + n ≤ total) :
    rest lba total i = (Packet.mk n (stage2 + 512 * i) (lba + i)).sectors ++
      rest lba total (i + n) := by
  have hsplit : total - i = n + (total - (i + n)) := by omega
  rw [rest, rest, hsplit, ← List.range'_append_1, List.map_append, Packet.sectors,
    List.range'_eq_map_range, List.map_map]
  congr 1
  refine List.map_congr_left fun t _ => ?_
  rw [Function.comp_apply, Nat.add_assoc, Nat.mul_add, Nat.add_assoc]

/-- Where a packet starts: at a round number of sectors, until all are read. -/
def Aligned (total i : ℕ) : Prop := i < total → 64 ∣ i

theorem Aligned.add_min (h : Aligned total i) : Aligned total (i + min 64 (total - i)) := by
  intro hlt
  obtain ⟨q, rfl⟩ := h (by omega)
  exact ⟨q + 1, by omega⟩

/-- The packets from `i` on, as long as the sector numbers fit. -/
theorem sectors_packets (h : lba + 64 * ((total - 1) / 64) < 2 ^ 32) (htotal : total ≤ 1024)
    (hi : Aligned total i) (hfuel : total - i ≤ fuel) (hle : i ≤ 1024) :
    (packets lba total fuel i).flatMap Packet.sectors = rest lba total i := by
  induction fuel generalizing i with
  | zero =>
    have hnone : total - i = 0 := by omega
    rw [packets, rest, hnone]
    rfl
  | succ fuel ih =>
    have hmod : i % 65536 = i := Nat.mod_eq_of_lt (by omega)
    rw [packets, hmod]
    split
    · next hend =>
      rw [rest, Nat.sub_eq_zero_of_le hend]
      rfl
    · next hmore =>
      have hfirst : (lba + i) % 2 ^ 32 = lba + i := by
        obtain ⟨q, rfl⟩ := hi (by omega)
        exact Nat.mod_eq_of_lt (by omega)
      rw [rest_eq_append (n := min 64 (total - i)) (by omega), hfirst, List.flatMap_cons,
        ih hi.add_min (by omega) (by omega)]

/-- What is in the upper half of the counter goes to the start sector. -/
theorem packets_add {q : ℕ} (htotal : total ≤ 1024) (hi : i ≤ total) :
    packets lba total fuel (65536 * q + i) =
      packets ((lba + 65536 * q) % 2 ^ 32) total fuel i := by
  induction fuel generalizing i with
  | zero => rfl
  | succ fuel ih =>
    have hlow : (65536 * q + i) % 65536 = i := by omega
    have hmod : i % 65536 = i := Nat.mod_eq_of_lt (by omega)
    have hsector :
        (lba + (65536 * q + i)) % 2 ^ 32 = ((lba + 65536 * q) % 2 ^ 32 + i) % 2 ^ 32 := by
      rw [Nat.mod_add_mod, Nat.add_assoc]
    rw [packets, packets, hlow, hmod, hsector]
    dsimp only
    rw [Nat.add_assoc, ih (by omega)]

/-- The packet that starts at `64 * j` is among them. -/
theorem mem_packets (htotal : total ≤ 1024) (hfuel : total - i ≤ fuel) (hj : i + 64 * j < total) :
    ∃ n, 0 < n ∧ (⟨n, stage2 + 512 * (i + 64 * j), (lba + (i + 64 * j)) % 2 ^ 32⟩ : Packet) ∈
      packets lba total fuel i := by
  induction fuel generalizing i j with
  | zero => omega
  | succ fuel ih =>
    have hmod : i % 65536 = i := Nat.mod_eq_of_lt (by omega)
    rw [packets, hmod, if_neg (by omega)]
    cases j with
    | zero => exact ⟨_, by omega, List.mem_cons_self⟩
    | succ j =>
      have hmin : min 64 (total - i) = 64 := by omega
      have hnext : 64 + 64 * j = 64 * (j + 1) := by omega
      rw [hmin]
      obtain ⟨n, hn, hmem⟩ := ih (i := i + 64) (j := j) (by omega) (by omega)
      rw [Nat.add_assoc i, hnext] at hmem
      exact ⟨n, hn, List.mem_cons_of_mem _ hmem⟩

/-- Sizes and boundaries. -/
theorem packets_within (htotal : total ≤ 1024) (hi : Aligned total i) {p : Packet}
    (hp : p ∈ packets lba total fuel i) (hle : i ≤ total) : (1 ≤ p.count ∧ p.count ≤ 64) ∧
      p.buf / 65536 = (p.buf + 512 * p.count - 1) / 65536 := by
  induction fuel generalizing i with
  | zero => simp [packets] at hp
  | succ fuel ih =>
    have hmod : i % 65536 = i := Nat.mod_eq_of_lt (by omega)
    rw [packets, hmod] at hp
    split at hp
    · simp at hp
    · next hmore =>
      rcases List.mem_cons.mp hp with rfl | hp
      · obtain ⟨q, rfl⟩ := hi (by omega)
        refine ⟨⟨by dsimp only; omega, by dsimp only; omega⟩, ?_⟩
        dsimp only
        rw [stage2]
        omega
      · exact ih hi.add_min hp (by omega)

/-- **The boot area is read** from sector `lba'` on if and only if there is nothing to read, or
`lba'` is where it starts and no packet starts beyond 32 bits. -/
theorem readsOnce_packets_iff {lba' : ℕ} (hlba : lba' < 2 ^ 32) (htotal : total ≤ 1024)
    (hfuel : total ≤ fuel) :
    ReadsOnce lba total (packets lba' total fuel 0) ↔
      total = 0 ∨ lba' = lba ∧ lba + 64 * ((total - 1) / 64) < 2 ^ 32 := by
  have haligned : Aligned total 0 := fun _ => Nat.dvd_zero 64
  constructor
  · intro h
    by_contra hnot
    rw [not_or] at hnot
    have hplace (j : ℕ) (hj : 64 * j < total) : (lba' + 64 * j) % 2 ^ 32 = lba + 64 * j := by
      obtain ⟨n, hn, hmem⟩ := @mem_packets lba' _ _ _ _ htotal (by omega : total - 0 ≤ fuel)
        (by omega : 0 + 64 * j < total)
      rw [Nat.zero_add] at hmem
      have hsector : ((lba' + 64 * j) % 2 ^ 32, stage2 + 512 * (64 * j)) ∈
          (packets lba' total fuel 0).flatMap Packet.sectors :=
        List.mem_flatMap.mpr ⟨_, hmem, List.mem_map.mpr ⟨0, List.mem_range.mpr hn, rfl⟩⟩
      rw [h.sectors] at hsector
      obtain ⟨t, -, ht⟩ := List.mem_map.mp hsector
      rw [Prod.mk.injEq] at ht
      omega
    have hfirst := hplace 0 (by omega)
    have hlast := hplace ((total - 1) / 64) (by omega)
    omega
  · intro hcond
    refine ⟨?_, fun p hp => (packets_within htotal haligned hp (Nat.zero_le _)).1,
      fun p hp => (packets_within htotal haligned hp (Nat.zero_le _)).2⟩
    have hrest :
        rest lba total 0 = (List.range total).map fun i => (lba + i, stage2 + 512 * i) := by
      rw [rest, List.range_eq_range', Nat.sub_zero]
    rw [← hrest]
    rcases hcond with rfl | ⟨rfl, hfits⟩
    · cases fuel with
      | zero => rfl
      | succ fuel => rw [packets, if_pos (Nat.zero_le _)]; rfl
    · exact sectors_packets hfits htotal haligned hfuel (by decide)

/-! ### Whole runs -/

/-- Memory when the first call has left its return address. -/
def pushedMem (k : Link Label) (s : Cpu) : Memory :=
  st s.ss 2 (s.sp - 2#16) (k.addr com1Back).toNat s.mem

/-- The return address of the first call, below the stack of the firmware, goes neither to the code
and its tables nor to the two arguments that are read. -/
def Clear (s : Cpu) : Prop := ¬Fixed (lin s.ss (s.sp - 2#16)) ∧ ¬Fixed (lin s.ss (s.sp - 1#16))

/-- The entry by the firmware: the sector is in place, and the first call leaves it as it is. -/
structure Entry (cand lba total : ℕ) (s : Cpu) : Prop where
  sector : SectorMem cand lba total s.mem
  clear : Clear s
  calls : s.calls = []

theorem Clear.pushed (h : Clear s) (hsector : SectorMem cand lba total s.mem) :
    SectorMem cand lba total (pushedMem k s) := by
  have hnext : s.sp - 2#16 + 1#16 = s.sp - 1#16 := by bv_omega
  refine hsector.of_eqOutside
    (R := [(lin s.ss (s.sp - 2#16), 1), (lin s.ss (s.sp - 1#16), 1)]) (fun x hx => ?_)
    fun x hx => ?_
  · simp only [outside_cons, outside_nil, and_true] at hx
    simp only [pushedMem, st, hnext]
    rw [Function.update_of_ne (by omega), Function.update_of_ne (by omega)]
  · have hlow : x ≠ lin s.ss (s.sp - 2#16) := fun heq => h.1 (heq ▸ hx)
    have hhigh : x ≠ lin s.ss (s.sp - 1#16) := fun heq => h.2 (heq ▸ hx)
    simp only [outside_cons, outside_nil, and_true]
    omega

theorem reads_eq_nil (h : s.calls = []) : reads s = [] := by
  rw [reads, h, List.filter_nil]

variable {answer : BitVec 8 → Answer}

/-- The drive that is read from. -/
def chosen (answer : BitVec 8 → Answer) : BitVec 8 :=
  probe (fun d => (answer d).good) portDrive portDrive tried

/-- **A run**, from the entry to its end. -/
theorem leadsTo_end (hfw : Answers fw answer) (hread : ReadsDisk fw)
    (h : SectorMem cand lba total (pushedMem k s)) (hcalls : s.calls = []) (htotal : total ≤ 1024) :
    LeadsTo (step fw cand msg k) (start, s) fun x => ∃ s₁,
      (KeepsEdi fw → s₁.edi = withLow 16 s.edi 0#16) ∧
        Done fw lba total (chosen answer) total s₁ (reads x.2) x := by
  refine LeadsTo.trans (leadsTo_readChunk hfw h) ?_
  rintro ⟨_, s₁⟩ ⟨rfl, hreading, hedi, hreads⟩
  dsimp only at hreading hedi hreads
  refine (leadsTo_reads hread htotal total hreading (by omega)).mono ?_
  rintro x ⟨cs, hdone⟩
  have hcs : reads x.2 = cs := by rw [hdone.reads, hreads, reads_eq_nil hcalls, List.nil_append]
  exact ⟨s₁, hedi, hcs ▸ hdone⟩

/-- The counter the loop starts with. -/
theorem toNat_withLow_zero (e : BitVec 32) :
    (withLow 16 e 0#16).toNat = e.toNat / 65536 * 65536 := by
  have hzero : (0#16).toNat = 0 := rfl
  rw [toNat_withLow (by decide), hzero, Nat.zero_add]
  rfl

theorem SectorMem.lba_lt {m : Memory} (h : SectorMem cand lba total m) : lba < 2 ^ 32 := by
  have hlt := load_lt m 4 (argAddr + argLba)
  rw [h.lba_eq] at hlt
  exact hlt

/-- The first sector that is read if the argument is `lba`: what the firmware has left in the upper
half of `edi` is added. -/
def firstRead (lba : ℕ) (s : Cpu) : ℕ := (lba + 65536 * (s.edi.toNat / 65536)) % 2 ^ 32

theorem firstRead_lt (lba : ℕ) (s : Cpu) : firstRead lba s < 2 ^ 32 := Nat.mod_lt _ (by decide)

theorem firstRead_eq_iff (hlba : lba < 2 ^ 32) : firstRead lba s = lba ↔ s.edi.toNat < 65536 := by
  have hlt := s.edi.isLt
  rw [firstRead]
  omega

/-- What ends a run in which a read has failed: the code is recorded, and the second stage is never
entered. -/
def Stopped (fw : Firmware) (cand msg : ℕ) (k : Link Label) (s : Cpu) (x : Label × Cpu) : Prop :=
  x.1 = print ∧ Failed (reads x.2) x.2 ∧
    ∀ y, Reaches (step fw cand msg k) (start, s) y → y.1 ≠ stage2Entry

/-- A run whose first call has left the code and the number of sectors alone. The start sector may
be another one then. -/
theorem readsOnce_pushed_iff {lba' : ℕ} (hfw : Answers fw answer) (hedi : KeepsEdi fw)
    (hread : ReadsDisk fw) (h : SectorMem cand lba' total (pushedMem k s)) (hcalls : s.calls = [])
    (htotal : stage2 + 512 * total ≤ 0xA0000) :
    LeadsTo (step fw cand msg k) (start, s) fun x =>
      x.1 = stage2Entry ∧ (∀ c ∈ reads x.2, c.after.cf = false) ∧
          (ReadsOnce lba total ((reads x.2).map packet) ↔
            total = 0 ∨ firstRead lba' s = lba ∧ lba + 64 * ((total - 1) / 64) < 2 ^ 32) ∨
        Stopped fw cand msg k s x := by
  have hsectors : total ≤ 1024 := by
    rw [stage2] at htotal
    omega
  obtain ⟨x, hx, s₁, hedi₁, hdone⟩ := leadsTo_end (k := k) hfw hread h hcalls hsectors
  refine ⟨x, hx, ?_⟩
  rcases hdone.outcome with ⟨hl, hall, hpackets⟩ | ⟨hl, hfailed⟩
  · have hcounter : s₁.edi.toNat = 65536 * (s.edi.toNat / 65536) + 0 := by
      rw [hedi₁ hedi, toNat_withLow_zero, Nat.mul_comm, Nat.add_zero]
    refine .inl ⟨hl, hall, ?_⟩
    rw [hpackets, hcounter, packets_add hsectors (Nat.zero_le _), ← firstRead,
      readsOnce_packets_iff (firstRead_lt lba' s) hsectors le_rfl]
  · refine .inr ⟨hl, hfailed, fun y hy => ?_⟩
    refine LeadsTo.never (T := fun y => y.1 = stage2Entry) ?_
      ⟨x, hx, fun z hz => ne_stage2Entry_of_print hl hz⟩ hy
    rintro ⟨l, s₂⟩ rfl
    rfl

/-- **Every sector once, in order and to its place.** The firmware may leave anything in the
registers and answer as it likes, as long as function `0x42` reads what its packet says and neither
function touches `edi`. Let the first call leave the sector alone. If no read fails, the second
stage is entered, and what has been read is the boot area if and only if the area is empty, or the
upper half of `edi` was zero at the entry and the last packet starts below sector `2 ^ 32`. If a
read fails, its code is recorded and the second stage is never entered. -/
theorem readsOnce_iff (hfw : Answers fw answer) (hedi : KeepsEdi fw) (hread : ReadsDisk fw)
    (hsector : SectorMem cand lba total s.mem) (hcalls : s.calls = [])
    (htotal : stage2 + 512 * total ≤ 0xA0000) :
    (Clear s ∧ (total = 0 ∨ s.edi.toNat < 65536 ∧ lba + 64 * ((total - 1) / 64) < 2 ^ 32) →
      LeadsTo (step fw cand msg k) (start, s) fun x =>
        x.1 = stage2Entry ∧ (∀ c ∈ reads x.2, c.after.cf = false) ∧
            ReadsOnce lba total ((reads x.2).map packet) ∨
          Stopped fw cand msg k s x) ∧
    (Clear s → LeadsTo (step fw cand msg k) (start, s) fun x =>
      x.1 = stage2Entry ∧ (∀ c ∈ reads x.2, c.after.cf = false) ∧
          (ReadsOnce lba total ((reads x.2).map packet) ↔
            total = 0 ∨ s.edi.toNat < 65536 ∧ lba + 64 * ((total - 1) / 64) < 2 ^ 32) ∨
        Stopped fw cand msg k s x) := by
  have hrun (hclear : Clear s) := @readsOnce_pushed_iff _ _ msg k s lba total answer lba hfw hedi
    hread (hclear.pushed hsector) hcalls htotal
  rw [firstRead_eq_iff hsector.lba_lt] at hrun
  refine ⟨fun hcond => (hrun hcond.1).mono ?_, hrun⟩
  rintro x (⟨hl, hall, hiff⟩ | hstopped)
  · exact .inl ⟨hl, hall, hiff.mpr hcond.2⟩
  · exact .inr hstopped

/-! ### A disk of zeros -/

/-- Firmware with a drive full of zeros under every number. -/
def zeroDisk : Firmware := fun _ s =>
  if s.read 8 ah = 0x41#8 then
    { s with cf := false, eax := withHigh s.eax 0x30, ecx := withLow 16 s.ecx 7#16 }
  else
    let p := packetAt s.ds s.toCpu
    { s with
      cf := false
      eax := withHigh s.eax 0
      mem := fun x => if p.buf ≤ x ∧ x < p.buf + 512 * p.count then 0 else s.mem x }

theorem answers_zeroDisk : Answers zeroDisk fun _ => ⟨false, 0x30#8, 7#16⟩ := by
  intro s hs
  rw [zeroDisk, if_pos hs.1]
  refine ⟨rfl, ?_, setWidth_withLow_16 _ _, rfl, rfl, rfl, rfl, rfl, rfl⟩
  simp only [Cpu.read, X86.Cpu.get, toNat_withHigh_div]

theorem keepsEdi_zeroDisk : KeepsEdi zeroDisk := by
  intro s hs
  rw [zeroDisk, if_pos hs.1]

theorem zeroDisk_eq_of_read {s : Cpu} (hs : s.read 8 ah = 0x42#8) :
    (zeroDisk 0x13 s).cf = false ∧ Transferred s (zeroDisk 0x13 s) := by
  have hne : ¬s.read 8 ah = 0x41#8 := by
    rw [hs]
    decide
  rw [zeroDisk, if_neg hne]
  refine ⟨rfl, rfl, rfl, rfl, rfl, rfl, fun x hx => ?_⟩
  simp only [outside_cons, outside_nil, and_true] at hx
  exact if_neg (by omega)

theorem readsDisk_zeroDisk : ReadsDisk zeroDisk := fun _ hs => (zeroDisk_eq_of_read hs).2

/-- The sector in memory, with nine sectors from sector 16 on to read. -/
def sectorMem : Memory :=
  Memory.store
    (Memory.store (Memory.write (fun _ => 0) 0x7D80 candidates) 4 (argAddr + argLba) 16) 2
    (argAddr + argTotal) 9

/-- The entry with `edi` and the drive left to the firmware. -/
def entryCpu (edi : BitVec 32) (dl : BitVec 8) : Cpu where
  eax := 0
  ebx := 0
  ecx := 0
  edx := dl.setWidth 32
  esi := 0
  edi := edi
  ebp := 0
  esp := 0x7000
  zf := false
  cf := false
  cr0 := 0
  cr3 := 0
  cr4 := 0
  idtr := ⟨0, 0⟩
  msr := fun _ => 0
  ins := fun _ => 0
  outs := []
  mem := sectorMem
  ds := 0
  es := 0
  ss := 0
  calls := []

theorem sectorMem_sectorMem : SectorMem 0x7D80 16 9 sectorMem := by
  refine ⟨by decide +kernel, by decide +kernel, ?_, by decide, by decide⟩
  rw [holds_iff_bytes_eq]
  decide +kernel

theorem entry_entryCpu (edi : BitVec 32) (dl : BitVec 8) :
    Entry 0x7D80 16 9 (entryCpu edi dl) := by
  refine ⟨sectorMem_sectorMem, ⟨?_, ?_⟩, rfl⟩
  · exact (by decide : ¬Fixed (lin 0#16 ((0x7000#32).setWidth 16 - 2#16)))
  · exact (by decide : ¬Fixed (lin 0#16 ((0x7000#32).setWidth 16 - 1#16)))

/-- The labels, placed one after the other. -/
def consecutiveLink : Link Label where
  addr l := .ofNat 16 (0x7C00 + l.ctorIdx)
  label a := Label.ofNat (a.toNat - 0x7C00)
  label_addr l := by
    have hlt : l.ctorIdx < 64 := by cases l <;> decide
    have haddr : (BitVec.ofNat 16 (0x7C00 + l.ctorIdx)).toNat - 0x7C00 = l.ctorIdx := by
      rw [BitVec.toNat_ofNat]
      omega
    rw [haddr]
    cases l <;> rfl

/-- A run with nothing above the counter. -/
theorem readsOnce_iff_zeroDisk :
    LeadsTo (step zeroDisk 0x7D80 0x7D60 consecutiveLink) (start, entryCpu 0 0x80) fun x =>
      x.1 = stage2Entry ∧ (∀ c ∈ reads x.2, c.after.cf = false) ∧
          ReadsOnce 16 9 ((reads x.2).map packet) ∨
        Stopped zeroDisk 0x7D80 0x7D60 consecutiveLink (entryCpu 0 0x80) x := by
  have hentry := entry_entryCpu 0 0x80
  exact (readsOnce_iff answers_zeroDisk keepsEdi_zeroDisk readsDisk_zeroDisk hentry.sector
    hentry.calls (by decide)).1 ⟨hentry.clear, by decide⟩

/-- Every run with the disk of zeros enters the second stage. -/
theorem leadsTo_stage2Entry_zeroDisk (edi : BitVec 32) (dl : BitVec 8) :
    LeadsTo (step zeroDisk 0x7D80 0x7D60 consecutiveLink) (start, entryCpu edi dl) fun x =>
      x.1 = stage2Entry ∧ (∀ c ∈ reads x.2, c.after.cf = false) ∧
        (reads x.2).map packet = packets 16 9 9 (edi.toNat / 65536 * 65536) ∧
        (∀ c ∈ reads x.2, drive c = 0xF8#8) ∧ x.2.mem.load 1 (argAddr + argDrive) = 0xF8 := by
  have hentry := entry_entryCpu edi dl
  refine (leadsTo_end answers_zeroDisk readsDisk_zeroDisk (hentry.clear.pushed hentry.sector)
    hentry.calls (by decide)).mono ?_
  rintro x ⟨s₁, hedi₁, hdone⟩
  rcases hdone.outcome with ⟨hl, hall, hpackets⟩ | ⟨-, cs, c, hreads, -, hcf, -⟩
  · rw [hedi₁ keepsEdi_zeroDisk, toNat_withLow_zero] at hpackets
    exact ⟨hl, hall, hpackets, hdone.drive, hdone.left⟩
  · obtain ⟨s₂, hs₂, hafter⟩ := hdone.served c (by rw [hreads]; simp)
    rw [hafter, (zeroDisk_eq_of_read hs₂).1] at hcf
    cases hcf

/-- **A boot area that is not read.** One bit above the counter, and the nine sectors come from
sector `0x10010` on. Every read succeeds, and the second stage is entered. -/
theorem not_readsOnce_zeroDisk :
    LeadsTo (step zeroDisk 0x7D80 0x7D60 consecutiveLink) (start, entryCpu 0x10000 0x80) fun x =>
      x.1 = stage2Entry ∧ (∀ c ∈ reads x.2, c.after.cf = false) ∧
        (reads x.2).map packet = [⟨9, 0x20000, 0x10010⟩] ∧
        ¬ReadsOnce 16 9 ((reads x.2).map packet) := by
  refine (leadsTo_stage2Entry_zeroDisk 0x10000 0x80).mono ?_
  rintro x ⟨hl, hall, hpackets, -⟩
  rw [hpackets]
  refine ⟨hl, hall, by decide +kernel, ?_⟩
  have hshift : packets 16 9 9 ((0x10000 : BitVec 32).toNat / 65536 * 65536) =
      packets 0x10010 9 9 0 := by
    decide
  rw [hshift, readsOnce_packets_iff (by decide) (by decide) le_rfl]
  decide

/-! ### The drive -/

/-- The drive to start with: the one of the firmware, unless it is not a hard disk. -/
def firstDrive (dl : BitVec 8) : BitVec 8 := if dl.toNat < 0x80 then 0x80#8 else dl

/-- The drive to boot from: the first in order that supports packets, and the one of the firmware
if there is none. -/
def rightDrive (good : BitVec 8 → Bool) (dl : BitVec 8) : BitVec 8 :=
  ([firstDrive dl, 0x80#8, 0xE8#8, 0xF0#8, 0xF8#8].find? good).getD dl

/-- When the number of the serial port does no harm: it is the number of the drive; or a drive has
it that supports packets, and none in front of it does; or none has it, and the drive of the
firmware is not preferred to the first of the candidates. -/
def Harmless (good : BitVec 8 → Bool) (dl : BitVec 8) : Prop :=
  dl = 0xF8#8 ∨
  good 0xF8#8 ∧ ¬good (firstDrive dl) ∧ ¬good 0x80#8 ∧ ¬good 0xE8#8 ∧ ¬good 0xF0#8 ∨
  ¬good 0xF8#8 ∧ ∃ c, tried.find? good = some c ∧ (good (firstDrive dl) → firstDrive dl = c)

theorem firstDrive_ne {dl : BitVec 8} (h : dl ≠ 0xF8#8) : firstDrive dl ≠ 0xF8#8 := by
  rw [firstDrive]
  split
  · decide
  · exact h

/-- Walking a list of drives finds the first that does. -/
theorem probe_eq_find? (good : BitVec 8 → Bool) (boot d : BitVec 8) (cs : List (BitVec 8)) :
    probe good boot d cs = ((d :: cs).find? good).getD boot := by
  induction cs generalizing d with
  | nil =>
    rw [probe, List.find?_cons]
    cases good d with
    | true => rfl
    | false => rfl
  | cons c cs ih =>
    rw [probe, List.find?_cons, ih]
    cases good d with
    | true => rfl
    | false => rfl

/-- The right drive, with the candidates that are tried in front. -/
theorem rightDrive_eq (good : BitVec 8 → Bool) (dl : BitVec 8) :
    rightDrive good dl = if good (firstDrive dl) then firstDrive dl
      else ((tried.find? good).or ([0xF8#8].find? good)).getD dl := by
  have hlist : [0x80#8, 0xE8#8, 0xF0#8, 0xF8#8] = tried ++ [0xF8#8] := rfl
  rw [rightDrive, List.find?_cons, hlist, List.find?_append]
  cases good (firstDrive dl) with
  | true => rfl
  | false => rfl

theorem find?_tried_eq_none {good : BitVec 8 → Bool} :
    tried.find? good = none ↔ ¬good 0x80#8 ∧ ¬good 0xE8#8 ∧ ¬good 0xF0#8 := by
  simp [tried]

/-- What is found among the candidates that are tried is not the port. -/
theorem ne_of_find?_tried {good : BitVec 8 → Bool} {c : BitVec 8} (h : tried.find? good = some c) :
    c ≠ 0xF8#8 := by
  rintro rfl
  exact absurd (List.mem_of_find?_eq_some h) (by decide)

theorem probe_eq_rightDrive_iff (good : BitVec 8 → Bool) (dl : BitVec 8) :
    probe good portDrive portDrive tried = rightDrive good dl ↔ Harmless good dl := by
  rw [probe_eq_find?, rightDrive_eq, Harmless, portDrive, List.find?_cons, List.find?_cons,
    List.find?_nil]
  by_cases hdl : dl = 0xF8#8
  · subst hdl
    have hfirst : firstDrive 0xF8#8 = 0xF8#8 := by decide
    refine iff_of_true ?_ (.inl rfl)
    rw [hfirst]
    cases good 0xF8#8 with
    | true => rfl
    | false => cases tried.find? good with
      | none => rfl
      | some c => rfl
  · have hne := firstDrive_ne hdl
    generalize firstDrive dl = b at hne ⊢
    rw [← find?_tried_eq_none]
    cases hport : good 0xF8#8 with
    | true =>
      -- the port is taken at once: nothing in front of it may do
      cases hb : good b with
      | true => simp [hdl, hne.symm]
      | false =>
        cases hfind : tried.find? good with
        | none => simp
        | some c => simp [hdl, (ne_of_find?_tried hfind).symm]
    | false =>
      cases hfind : tried.find? good with
      | none =>
        -- the port is taken because nothing else does
        cases hb : good b with
        | true => simp [hdl, hne.symm]
        | false => simp [hdl, Ne.symm hdl]
      | some c =>
        cases hb : good b with
        | true => simp [hdl, eq_comm]
        | false => simp

/-- **The drive.** Whatever drive the firmware has booted from, all reads are from the first drive
in the order of the documentation that supports packets, and this drive is left to the second stage,
if and only if the number of the serial port, which the trace has put in the place of the drive's,
does no harm. -/
theorem drive_iff (hfw : Answers fw answer) (hread : ReadsDisk fw) (h : Entry cand lba total s)
    (htotal : stage2 + 512 * total ≤ 0xA0000) :
    LeadsTo (step fw cand msg k) (start, s) fun x => (x.1 = stage2Entry ∨ x.1 = print) ∧
      ((∀ c ∈ reads x.2, drive c = rightDrive (fun d => (answer d).good) (s.edx.setWidth 8)) ∧
          x.2.mem.load 1 (argAddr + argDrive) =
            (rightDrive (fun d => (answer d).good) (s.edx.setWidth 8)).toNat ↔
        Harmless (fun d => (answer d).good) (s.edx.setWidth 8)) := by
  have hsectors : total ≤ 1024 := by
    rw [stage2] at htotal
    omega
  refine (leadsTo_end hfw hread (h.clear.pushed h.sector) h.calls hsectors).mono ?_
  rintro x ⟨s₁, -, hdone⟩
  have hleft := hdone.left
  refine ⟨hdone.outcome.imp And.left And.left, ?_⟩
  rw [← probe_eq_rightDrive_iff]
  constructor
  · rintro ⟨-, hmem⟩
    exact BitVec.eq_of_toNat_eq (hleft.symm.trans hmem)
  · intro heq
    rw [← heq]
    exact ⟨hdone.drive, hleft⟩

/-- A run from drive `0xF8`. -/
theorem drive_iff_zeroDisk :
    stage2 + 512 * 9 ≤ 0xA0000 ∧
    LeadsTo (step zeroDisk 0x7D80 0x7D60 consecutiveLink) (start, entryCpu 0 0xF8) fun x =>
      (x.1 = stage2Entry ∨ x.1 = print) ∧
      ((∀ c ∈ reads x.2, drive c = rightDrive (fun _ => true) 0xF8#8) ∧
          x.2.mem.load 1 (argAddr + argDrive) = (rightDrive (fun _ => true) 0xF8#8).toNat ↔
        Harmless (fun _ => true) 0xF8#8) :=
  ⟨by decide, drive_iff answers_zeroDisk readsDisk_zeroDisk (entry_entryCpu 0 0xF8) (by decide)⟩

/-- **Another disk is booted.** The firmware boots from drive `0x80`, every drive supports packets,
and all sectors are read from drive `0xF8`. -/
theorem drive_ne_zeroDisk :
    rightDrive (fun _ => true) 0x80#8 = 0x80#8 ∧
    LeadsTo (step zeroDisk 0x7D80 0x7D60 consecutiveLink) (start, entryCpu 0 0x80) fun x =>
      x.1 = stage2Entry ∧ reads x.2 ≠ [] ∧ (∀ c ∈ reads x.2, drive c = 0xF8#8) ∧
        x.2.mem.load 1 (argAddr + argDrive) = 0xF8 := by
  refine ⟨by decide, (leadsTo_stage2Entry_zeroDisk 0 0x80).mono ?_⟩
  rintro x ⟨hl, -, hpackets, hdrive, hleft⟩
  refine ⟨hl, fun hnil => ?_, hdrive, hleft⟩
  rw [hnil] at hpackets
  exact absurd hpackets (by decide)

end Stage1

end Qizo
