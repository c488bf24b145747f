import Qizo.Kernel.FatFree

/-!
# What happens to the table buffer

The volume driver takes its buffer for an allocation table once, as large as the first volume it
finds needs it, and uses it from then on for every volume. A trace lists what happens to the buffer:
it is taken, sectors are read to it, and entries are read from it. The traces are computed by
functions that follow those of the driver.

A step is *traced* by a list of events if, where every table that is found fits the buffer there is,
all the events stay inside the buffer, and if the memory changes nowhere but where sectors are read
to. The steps of the driver are traced, and so is every session.

## Main results

* `Traced.append`, `Traced.session` — traces of steps one after the other
* `inside_of_fits` — the sessions that stay inside the buffer
-/

namespace Qizo

namespace Fat

open Memory Pma Ata

/-! ### Traces -/

/-- What happens to the buffer. -/
inductive Event where
  /-- A boot sector was accepted whose table takes that many pages. -/
  | found (pages : ℕ)
  /-- `qizo_page_alloc` was asked for that many pages and returned `addr`. -/
  | alloc (addr pages : ℕ)
  /-- A sector was read to `addr`. -/
  | sectorTo (addr : ℕ)
  /-- The two bytes of an entry were read from `addr`. -/
  | entryAt (addr : ℕ)
  deriving DecidableEq, Repr

namespace Event

/-- The buffer, by its address and its pages, after an event. -/
def next (buf : Option (ℕ × ℕ)) : Event → Option (ℕ × ℕ)
  | alloc addr pages => if addr = 0 then buf else some (addr, pages)
  | _ => buf

/-- A use of the buffer stays inside its pages. -/
def Inside (buf : Option (ℕ × ℕ)) : Event → Prop
  | sectorTo addr => ∃ b ∈ buf, b.1 ≤ addr ∧ addr + 512 ≤ b.1 + b.2 * pageSize
  | entryAt addr => ∃ b ∈ buf, b.1 ≤ addr ∧ addr + 2 ≤ b.1 + b.2 * pageSize
  | _ => True

/-- A table that is found fits the buffer, if that is there already. -/
def Fits (buf : Option (ℕ × ℕ)) : Event → Prop
  | found pages => ∀ b ∈ buf, pages ≤ b.2
  | _ => True

/-- A use of the `n` bytes at `a`. -/
def Within (a n : ℕ) : Event → Prop
  | sectorTo addr => a ≤ addr ∧ addr + 512 ≤ a + n
  | entryAt addr => a ≤ addr ∧ addr + 2 ≤ a + n
  | _ => False

/-- The bytes an event may change. -/
def written : Event → List (ℕ × ℕ)
  | sectorTo addr => [(addr, 512)]
  | _ => []

end Event

/-- The buffer after a trace. -/
def after (buf : Option (ℕ × ℕ)) (log : List Event) : Option (ℕ × ℕ) := log.foldl Event.next buf

/-- Every event of a trace has a property of the buffer at its time. -/
def Along (P : Option (ℕ × ℕ) → Event → Prop) : Option (ℕ × ℕ) → List Event → Prop
  | _, [] => True
  | buf, e :: log => P buf e ∧ Along P (e.next buf) log

/-- The buffer the driver holds. -/
def Held : Option (ℕ × ℕ) → State → Prop
  | none, k => k.fatbuf = 0
  | some b, k => k.fatbuf = b.1 ∧ b.1 ≠ 0

/-- **A step that is traced.** -/
structure Traced (k : State) (log : List Event) (k' : State) : Prop where
  inside : ∀ buf, Held buf k → Along Event.Fits buf log →
    Along Event.Inside buf log ∧ Held (after buf log) k'
  frame : EqOutside k.mem k'.mem (log.flatMap Event.written)

section Traces

variable {P : Option (ℕ × ℕ) → Event → Prop} {buf : Option (ℕ × ℕ)} {log log' : List Event}
  {a n pages : ℕ} {k k' k'' : State}

theorem along_append :
    Along P buf (log ++ log') ↔ Along P buf log ∧ Along P (after buf log) log' := by
  induction log generalizing buf with
  | nil => exact (and_iff_right trivial).symm
  | cons e log ih =>
    rw [List.cons_append, Along, ih, Along, and_assoc]
    exact Iff.rfl

theorem after_append : after buf (log ++ log') = after (after buf log) log' := List.foldl_append

theorem Traced.append (h : Traced k log k') (h' : Traced k' log' k'') :
    Traced k (log ++ log') k'' := by
  constructor
  · intro buf hheld hfits
    rw [along_append] at hfits ⊢
    obtain ⟨hin, hheld'⟩ := h.inside buf hheld hfits.1
    obtain ⟨hin', hheld''⟩ := h'.inside _ hheld' hfits.2
    rw [after_append]
    exact ⟨⟨hin, hin'⟩, hheld''⟩
  · intro x hx
    rw [List.flatMap_append] at hx
    rw [h'.frame x fun r hr => hx r (List.mem_append_right _ hr),
      h.frame x fun r hr => hx r (List.mem_append_left _ hr)]

theorem Held.congr (h : Held buf k) (hbuf : k'.fatbuf = k.fatbuf) : Held buf k' := by
  cases buf with
  | none => exact hbuf.trans h
  | some b => exact ⟨hbuf.trans h.1, h.2⟩

/-- A step that leaves the buffer and the memory alone. -/
theorem Traced.nil (hbuf : k'.fatbuf = k.fatbuf) (hmem : k'.mem = k.mem) : Traced k [] k' :=
  ⟨fun _ hheld _ => ⟨trivial, hheld.congr hbuf⟩, fun _ _ => by rw [hmem]⟩

/-- What follows a step that leaves them alone. -/
theorem Traced.of_nil (h : Traced k [] k') (h' : Traced k' log k'') : Traced k log k'' :=
  h.append h'

/-- What is followed by such a step. -/
theorem Traced.congr (h : Traced k log k') (hbuf : k''.fatbuf = k'.fatbuf)
    (hmem : k''.mem = k'.mem) : Traced k log k'' := by
  have happend := h.append (.nil hbuf hmem)
  rwa [List.append_nil] at happend

/-- Uses of a part of the buffer stay inside it and leave it where it is. -/
theorem along_inside (hlog : ∀ e ∈ log, e.Within a n) (hn : n ≤ pages * pageSize) :
    Along Event.Inside (some (a, pages)) log ∧ after (some (a, pages)) log = some (a, pages) := by
  induction log with
  | nil => exact ⟨trivial, rfl⟩
  | cons e log ih =>
    rw [List.forall_mem_cons] at hlog
    obtain ⟨hin, hafter⟩ := ih hlog.2
    have he := hlog.1
    cases e with
    | found pages => exact absurd he id
    | alloc addr pages => exact absurd he id
    | sectorTo addr =>
      obtain ⟨hle, hend⟩ := he
      refine ⟨⟨⟨_, rfl, hle, ?_⟩, hin⟩, hafter⟩
      dsimp only
      omega
    | entryAt addr =>
      obtain ⟨hle, hend⟩ := he
      refine ⟨⟨⟨_, rfl, hle, ?_⟩, hin⟩, hafter⟩
      dsimp only
      omega

theorem Event.Within.mono {e : Event} {a' n' : ℕ} (h : e.Within a n) (ha : a' ≤ a)
    (hn : a + n ≤ a' + n') : e.Within a' n' := by
  cases e with
  | found pages => exact absurd h id
  | alloc addr pages => exact absurd h id
  | sectorTo addr => exact ⟨ha.trans h.1, h.2.trans hn⟩
  | entryAt addr => exact ⟨ha.trans h.1, h.2.trans hn⟩

end Traces

/-! ### The traces of the driver -/

/-- The sectors of a command that are handed over. -/
def readLog (hw : Hardware) (regs : Regs) : (n s dst tick : ℕ) → List Event
  | 0, _, _, _ => []
  | n + 1, s, dst, tick =>
    match hw.transfer tick regs s with
    | none => []
    | some _ => .sectorTo dst :: readLog hw regs n (s + 1) (dst + 512) (tick + 1)

/-- The trace of `readFat`. -/
def readFatLog (hw : Hardware) (drive lba count done : ℕ) (k : State) : List Event :=
  match readCommand k.ata drive lba count with
  | none => []
  | some regs => readLog hw regs count 0 (k.fatbuf + done * 512) k.ata.tick

/-- The trace of `chunkLoop`. -/
def chunkLog (hw : Hardware) (drive lba total : ℕ) : (fuel done : ℕ) → State → List Event
  | 0, _, _ => []
  | fuel + 1, done, k =>
    if done < total then
      let chunk := if 16 < total - done then 16 else total - done
      let (ok, k') := readFat hw drive (u64 (lba + done)) chunk done k
      readFatLog hw drive (u64 (lba + done)) chunk done k ++
        if !ok then [] else chunkLog hw drive lba total fuel (done + chunk) k'
    else []

/-- The trace of `count_free`. -/
def countLog (is12 : Bool) (f bytes clusters : ℕ) : List Event :=
  let limit := if is12 then u32 (bytes * 2) / 3 else bytes / 2
  let limit := if u32 (clusters + 2) < limit then u32 (clusters + 2) else limit
  (List.range' 2 (limit - 2)).map fun i => .entryAt (f + if is12 then i + i / 2 else i * 2)

/-- The trace of `takeBuffer`. -/
def allocLog (k : State) : List Event :=
  if k.fatbuf = 0 then [.alloc (takeBuffer k).fatbuf (atLeastOne (bpbOf k.sector).fatPages)] else []

/-- The trace of `report`. -/
def reportLog (bytes : ℕ) (k : State) : List Event :=
  let b := bpbOf k.sector
  countLog (b.clusters < 4085) k.fatbuf bytes b.clusters

/-- The trace of `mount` behind the allocation. -/
def useLog (hw : Hardware) (drive first : ℕ) (b : Bpb) (k : State) : List Event :=
  if k.fatbuf = 0 then []
  else
    let fatLba := u64 (first + b.reserved)
    let (ok, k₁) := readFat hw drive fatLba (b.fatBytes / 512) 0 k
    readFatLog hw drive fatLba (b.fatBytes / 512) 0 k ++
      if ok then reportLog b.fatBytes k₁
      else
        let (done, k₂) := chunkLoop hw drive fatLba (b.fatBytes / 512) (b.fatBytes / 512) 0 k₁
        chunkLog hw drive fatLba (b.fatBytes / 512) (b.fatBytes / 512) 0 k₁ ++
          if done = 0 then [] else reportLog (done * 512) k₂

/-- The trace of `mount`. -/
def mountLog (hw : Hardware) (drive first : ℕ) (k : State) : List Event :=
  .found (bpbOf k.sector).fatPages :: allocLog k ++
    useLog hw drive first (bpbOf k.sector) (takeBuffer k)

/-- The trace of `scan_drive`. -/
def scanLog (hw : Hardware) (drive first : ℕ) (k : State) : List Event :=
  match search hw drive first fatScanLbas 0 k with
  | (some _, k) => mountLog hw drive first k
  | (none, _) => []

/-- The trace of `scanWindows`. -/
def windowsLog (hw : Hardware) (drive : ℕ) : List ℕ → QizoFat → State → List Event
  | [], _, _ => []
  | first :: rest, out, k =>
    let (ok, out', k') := scanDrive hw drive first out k
    scanLog hw drive first k ++ if ok then [] else windowsLog hw drive rest out' k'

/-- The trace of `fatForStarted`. -/
def fatForStartedLog (hw : Hardware) (blob : Blob) (drive : ℕ) (out : QizoFat) (k : State) :
    List Event :=
  if k.ata.ataLive = false then []
  else if 1 < drive then []
  else windowsLog hw drive (windows blob) (clearFat out) k

/-- The trace of `fatProbe`. -/
def fatProbeLog (hw : Hardware) (blob : Blob) (k : State) : List Event :=
  if hw.attached = false then [] else if k.fsReady then [] else fatForStartedLog hw blob 0 k.fs k

/-- The trace of `fatStart`. -/
def fatStartLog (hw : Hardware) (blob : Blob) (k : State) : List Event :=
  if k.fsReady then [] else fatForStartedLog hw blob 0 k.fs k

/-- The trace of `driversStart`. -/
def driversStartLog (hw : Hardware) (blob : Blob) (k : State) : List Event :=
  if k.started then []
  else
    let k := { k with started := true }
    let k := if hw.attached then { k with ata := Ata.start hw k.ata } else k
    let (ok, k') := fatProbe hw blob k
    fatProbeLog hw blob k ++ if ok then fatStartLog hw blob k' else []

/-! ### Sessions -/

/-- The calls of the driver. -/
inductive Call where
  /-- `qizo_fat_probe`. -/
  | probe
  /-- `qizo_fat_stat`. -/
  | stat (out : QizoFat)
  /-- `qizo_fat_stat_drive`. -/
  | statDrive (drive : ℕ) (out : QizoFat)

namespace Call

/-- The state after a call. `qizo_fat_probe` starts the drivers where it looks for a volume. -/
def run (hw : Hardware) (blob : Blob) (k : State) : Call → State
  | probe =>
    if hw.attached = false then k
    else if k.fsReady then k
    else
      let k := driversStart hw blob k
      let (ok, fs, k) := fatForStarted hw blob 0 k.fs k
      { k with fs := fs, fsReady := ok }
  | stat out => (fatFor hw blob 0 out k).2.2
  | statDrive drive out => (fatFor hw blob drive out k).2.2

/-- The trace of a call. -/
def log (hw : Hardware) (blob : Blob) (k : State) : Call → List Event
  | probe =>
    if hw.attached = false then []
    else if k.fsReady then []
    else
      driversStartLog hw blob k ++
        fatForStartedLog hw blob 0 (driversStart hw blob k).fs (driversStart hw blob k)
  | stat out => driversStartLog hw blob k ++ fatForStartedLog hw blob 0 out (driversStart hw blob k)
  | statDrive drive out =>
    driversStartLog hw blob k ++ fatForStartedLog hw blob drive out (driversStart hw blob k)

end Call

/-- The state after a session, in which the disks may be others at every call. -/
def session (blob : Blob) (calls : List (Hardware × Call)) (k : State) : State :=
  calls.foldl (fun k c => c.2.run c.1 blob k) k

/-- The trace of a session. -/
def sessionLog (blob : Blob) : List (Hardware × Call) → State → List Event
  | [], _ => []
  | c :: calls, k => c.2.log c.1 blob k ++ sessionLog blob calls (c.2.run c.1 blob k)

/-! ### Reading and counting -/

section Steps

variable {hw : Hardware} {blob : Blob} {drive first lba count done total fuel bytes : ℕ}
  {out : QizoFat} {k : State} {e : Event}

theorem within_readLog {regs : Regs} {n s dst tick : ℕ} (he : e ∈ readLog hw regs n s dst tick) :
    e.Within dst (n * 512) := by
  induction n generalizing s dst tick with
  | zero => cases he
  | succ n ih =>
    rw [readLog] at he
    split at he
    · cases he
    · rcases List.mem_cons.mp he with rfl | he
      · exact ⟨Nat.le_refl _, by omega⟩
      · exact (ih he).mono (by omega) (by omega)

theorem frame_readLog (hw : Hardware) (regs : Regs) (n s dst tick : ℕ) (m : Memory) :
    EqOutside m (readLoop hw regs n s dst tick m).2.1
      ((readLog hw regs n s dst tick).flatMap Event.written) := by
  induction n generalizing s dst tick m with
  | zero => exact .refl m _
  | succ n ih =>
    rw [readLoop, readLog]
    rcases hw.transfer tick regs s with _ | data
    · exact .refl m _
    · intro x hx
      rw [List.flatMap_cons, Event.written, List.singleton_append, outside_cons] at hx
      dsimp only
      rw [ih _ _ _ _ x hx.2]
      refine eqOutside_write m dst _ x ?_
      rw [outside_cons, List.length_map, List.length_range]
      exact ⟨hx.1, outside_nil x⟩

theorem within_readFatLog (he : e ∈ readFatLog hw drive lba count done k) :
    e.Within (k.fatbuf + done * 512) (count * 512) := by
  rw [readFatLog] at he
  split at he
  · cases he
  · exact within_readLog he

theorem frame_readFatLog (hw : Hardware) (drive lba count done : ℕ) (k : State) :
    EqOutside k.mem (readFat hw drive lba count done k).2.mem
      ((readFatLog hw drive lba count done k).flatMap Event.written) := by
  rw [readFat, readFatLog, readDrive]
  rcases readCommand k.ata drive lba count with _ | regs
  · exact .refl k.mem _
  · exact frame_readLog hw regs count 0 (k.fatbuf + done * 512) k.ata.tick k.mem

theorem readFat_fatbuf : (readFat hw drive lba count done k).2.fatbuf = k.fatbuf := rfl

/-- The loop stays in the room of the sectors that are asked for. -/
theorem within_chunkLog (hdone : done ≤ total) (he : e ∈ chunkLog hw drive lba total fuel done k) :
    e.Within k.fatbuf (total * 512) := by
  induction fuel generalizing done k with
  | zero => cases he
  | succ fuel ih =>
    rw [chunkLog] at he
    split at he
    case isFalse => cases he
    case isTrue =>
      dsimp only at he
      rw [chunk_eq] at he
      rcases List.mem_append.mp he with he | he
      · exact (within_readFatLog he).mono (by omega) (by omega)
      · split at he
        · cases he
        · have hwithin := @ih (done + min 16 (total - done)) _ (by omega) he
          exact hwithin

theorem frame_chunkLog (hw : Hardware) (drive lba total fuel done : ℕ) (k : State) :
    EqOutside k.mem (chunkLoop hw drive lba total fuel done k).2.mem
      ((chunkLog hw drive lba total fuel done k).flatMap Event.written) := by
  induction fuel generalizing done k with
  | zero => exact .refl k.mem _
  | succ fuel ih =>
    rw [chunkLoop, chunkLog]
    by_cases hdone : done < total
    · rw [if_pos hdone, if_pos hdone]
      dsimp only
      rw [chunk_eq]
      intro x hx
      rw [List.flatMap_append] at hx
      have hread := frame_readFatLog hw drive (u64 (lba + done)) (min 16 (total - done)) done k x
        fun r hr => hx r (List.mem_append_left _ hr)
      have hrest := fun r hr => hx r (List.mem_append_right _ hr)
      cases hok : (readFat hw drive (u64 (lba + done)) (min 16 (total - done)) done k).1 with
      | false => exact hread
      | true =>
        rw [hok] at hrest
        exact (ih _ _ x hrest).trans hread
    · rw [if_neg hdone, if_neg hdone]
      exact .refl k.mem _

/-- The entries that are read are among the bytes that were. -/
theorem within_countLog {is12 : Bool} {f clusters : ℕ} (he : e ∈ countLog is12 f bytes clusters) :
    e.Within f bytes := by
  rw [countLog] at he
  obtain ⟨i, hi, rfl⟩ := List.mem_map.mp he
  rw [List.mem_range'_1] at hi
  have hcut (x y : ℕ) : (if x < y then x else y) ≤ y := by split <;> omega
  have hlimit : i < if is12 then u32 (bytes * 2) / 3 else bytes / 2 := by
    refine Nat.lt_of_lt_of_le ?_ (hcut (u32 (clusters + 2)) _)
    omega
  refine ⟨Nat.le_add_right _ _, ?_⟩
  cases is12 with
  | true =>
    have hmod : u32 (bytes * 2) ≤ bytes * 2 := Nat.mod_le _ _
    rw [if_pos rfl] at hlimit ⊢
    omega
  | false =>
    rw [if_neg Bool.false_ne_true] at hlimit ⊢
    omega

/-- The count depends on the bytes of its entries only. -/
theorem countFree_congr {is12 : Bool} {f clusters : ℕ} {m m' : Memory}
    (h : ∀ addr, .entryAt addr ∈ countLog is12 f bytes clusters →
      m' addr = m addr ∧ m' (addr + 1) = m (addr + 1)) :
    countFree is12 m' f bytes clusters = countFree is12 m f bytes clusters := by
  simp only [countLog, countFree] at h ⊢
  generalize (if u32 (clusters + 2) < (if is12 then u32 (bytes * 2) / 3 else bytes / 2) then
    u32 (clusters + 2) else if is12 then u32 (bytes * 2) / 3 else bytes / 2) = limit at h ⊢
  have hentry (i : ℕ) (hi : i ∈ List.range' 2 (limit - 2)) :
      (if is12 then fatEntry12 m' f i else fatEntry16 m' f i) =
        if is12 then fatEntry12 m f i else fatEntry16 m f i := by
    obtain ⟨h0, h1⟩ := h (f + if is12 then i + i / 2 else i * 2) (List.mem_map.mpr ⟨i, hi, rfl⟩)
    cases is12 with
    | true =>
      have h1' : m' (f + (i + i / 2 + 1)) = m (f + (i + i / 2 + 1)) := h1
      rw [if_pos rfl] at h0
      rw [if_pos rfl, if_pos rfl, fatEntry12, fatEntry12, h0, h1']
    | false =>
      have h1' : m' (f + (i * 2 + 1)) = m (f + (i * 2 + 1)) := h1
      rw [if_neg Bool.false_ne_true] at h0
      rw [if_neg Bool.false_ne_true, if_neg Bool.false_ne_true, fatEntry16, fatEntry16, h0, h1']
  have hcount : (List.range' 2 (limit - 2)).countP (fun i =>
      decide ((if is12 then fatEntry12 m' f i else fatEntry16 m' f i) = 0)) =
      (List.range' 2 (limit - 2)).countP fun i =>
        decide ((if is12 then fatEntry12 m f i else fatEntry16 m f i) = 0) :=
    List.countP_congr fun i hi => by rw [hentry i hi]
  rw [hcount]

/-! ### Mounting -/

/-- Everything behind the allocation stays in the room of the table. -/
theorem within_useLog {b : Bpb} (he : e ∈ useLog hw drive first b k) :
    e.Within k.fatbuf b.fatBytes := by
  obtain ⟨hmul, -⟩ := fatBytes_eq b
  rw [useLog] at he
  split at he
  · cases he
  · dsimp only at he
    rcases List.mem_append.mp he with he | he
    · exact (within_readFatLog he).mono (by omega) (by omega)
    · split at he
      · exact within_countLog he
      · generalize hk : (readFat hw drive (u64 (first + b.reserved)) (b.fatBytes / 512) 0 k).2 = k₁
          at he
        have hbuf : k₁.fatbuf = k.fatbuf := by rw [← hk, readFat_fatbuf]
        rw [← hbuf]
        rcases List.mem_append.mp he with he | he
        · exact (within_chunkLog (Nat.zero_le _) he).mono (Nat.le_refl _) (by omega)
        · have hle : (chunkLoop hw drive (u64 (first + b.reserved)) (b.fatBytes / 512)
            (b.fatBytes / 512) 0 k₁).1 ≤ b.fatBytes / 512 := chunkLoop_le (Nat.zero_le _)
          obtain ⟨m, t, hchunk⟩ := chunkLoop_state hw drive (u64 (first + b.reserved))
            (b.fatBytes / 512) (b.fatBytes / 512) 0 k₁
          split at he
          · cases he
          · rw [reportLog, hchunk] at he
            dsimp only at he
            exact (within_countLog he).mono (Nat.le_refl _) (by omega)

/-- The memory changes where the trace has sectors. -/
theorem frame_useLog (hw : Hardware) (drive first lba : ℕ) (out : QizoFat) (k : State) :
    EqOutside (takeBuffer k).mem (mount hw drive first lba out k).2.2.mem
      ((useLog hw drive first (bpbOf k.sector) (takeBuffer k)).flatMap Event.written) := by
  have hcount (is12 : Bool) (f bytes clusters : ℕ) :
      (countLog is12 f bytes clusters).flatMap Event.written = [] := by
    rw [countLog, List.flatMap_map]
    exact List.flatMap_eq_nil_iff.mpr fun _ _ => rfl
  rw [mount, useLog]
  dsimp only
  generalize (bpbOf k.sector).fatBytes / 512 = n
  generalize u64 (first + (bpbOf k.sector).reserved) = fatLba
  split
  · exact .refl _ _
  · have hread := frame_readFatLog hw drive fatLba n 0 (takeBuffer k)
    rw [List.flatMap_append]
    generalize hk : readFat hw drive fatLba n 0 (takeBuffer k) = r at hread ⊢
    rcases r with ⟨ok, k₁⟩
    cases ok with
    | true =>
      rw [if_pos rfl, if_pos rfl, reportLog, hcount, List.append_nil]
      exact hread
    | false =>
      have hchunk := frame_chunkLog hw drive fatLba n n 0 k₁
      rw [if_neg Bool.false_ne_true, if_neg Bool.false_ne_true]
      dsimp only
      generalize chunkLoop hw drive fatLba n n 0 k₁ = r at hchunk ⊢
      rcases r with ⟨done, k₂⟩
      have hboth : EqOutside (takeBuffer k).mem k₂.mem
          ((readFatLog hw drive fatLba n 0 (takeBuffer k)).flatMap Event.written ++
            (chunkLog hw drive fatLba n n 0 k₁).flatMap Event.written) := by
        intro x hx
        rw [← hread x fun r hr => hx r (List.mem_append_left _ hr)]
        exact hchunk x fun r hr => hx r (List.mem_append_right _ hr)
      rw [List.flatMap_append]
      by_cases hdone : done = 0
      · rw [if_pos hdone, if_pos hdone, List.flatMap_nil, List.append_nil]
        exact hboth
      · rw [if_neg hdone, if_neg hdone, reportLog, hcount, List.append_nil]
        exact hboth

theorem takeBuffer_mem : (takeBuffer k).mem = k.mem := by
  unfold takeBuffer
  split <;> rfl

/-- **Mounting a volume is traced.** -/
theorem traced_mount (hw : Hardware) (drive first lba : ℕ) (out : QizoFat) (k : State) :
    Traced k (mountLog hw drive first k) (mount hw drive first lba out k).2.2 := by
  obtain ⟨m, t, hmount, -⟩ := mount_cases hw drive first lba out k
  have hbuf : (mount hw drive first lba out k).2.2.fatbuf = (takeBuffer k).fatbuf := by rw [hmount]
  have hpages : (bpbOf k.sector).fatBytes ≤ (bpbOf k.sector).fatPages * pageSize := by
    rw [Bpb.fatPages, pageSize]
    omega
  -- with a buffer that is large enough, everything stays inside
  have huse {pages : ℕ} (hne : (takeBuffer k).fatbuf ≠ 0)
      (hle : (bpbOf k.sector).fatPages ≤ pages) :
      Along Event.Inside (some ((takeBuffer k).fatbuf, pages))
          (useLog hw drive first (bpbOf k.sector) (takeBuffer k)) ∧
        Held (after (some ((takeBuffer k).fatbuf, pages))
          (useLog hw drive first (bpbOf k.sector) (takeBuffer k)))
          (mount hw drive first lba out k).2.2 := by
    obtain ⟨hin, hafter⟩ := along_inside (fun e he => within_useLog he)
      (hpages.trans (Nat.mul_le_mul_right pageSize hle))
    rw [hafter]
    exact ⟨hin, hbuf, hne⟩
  refine ⟨fun buf hheld hfits => ?_, ?_⟩
  · rw [mountLog, allocLog] at hfits ⊢
    cases buf with
    | none =>
      rw [if_pos (show k.fatbuf = 0 from hheld)]
      by_cases hzero : (takeBuffer k).fatbuf = 0
      · -- there is no room for a buffer, and nothing is read
        rw [useLog, if_pos hzero, hzero]
        exact ⟨⟨trivial, trivial, trivial⟩, hbuf.trans hzero⟩
      · have hnext : Event.next none (.alloc (takeBuffer k).fatbuf
            (atLeastOne (bpbOf k.sector).fatPages)) =
            some ((takeBuffer k).fatbuf, atLeastOne (bpbOf k.sector).fatPages) := if_neg hzero
        have hle : (bpbOf k.sector).fatPages ≤ atLeastOne (bpbOf k.sector).fatPages := by
          unfold atLeastOne
          split <;> omega
        obtain ⟨hin, hheld'⟩ := huse hzero hle
        rw [← hnext] at hin hheld'
        exact ⟨⟨trivial, trivial, hin⟩, hheld'⟩
    | some b =>
      obtain ⟨haddr, hne⟩ := hheld
      have hkept : k.fatbuf ≠ 0 := by rwa [haddr]
      have htake : takeBuffer k = k := if_neg hkept
      rw [if_neg hkept] at hfits ⊢
      obtain ⟨hin, hheld'⟩ := huse (by rwa [htake]) (hfits.1 b rfl)
      have hb : ((takeBuffer k).fatbuf, b.2) = b := by rw [htake, haddr]
      rw [hb] at hin hheld'
      exact ⟨⟨trivial, hin⟩, hheld'⟩
  · have hframe := frame_useLog hw drive first lba out k
    rw [takeBuffer_mem] at hframe
    refine hframe.mono fun x hx r hr => hx r ?_
    rw [mountLog, List.flatMap_append]
    exact List.mem_append_right _ hr

/-! ### Searches and calls -/

theorem traced_scanDrive (hw : Hardware) (drive first : ℕ) (out : QizoFat) (k : State) :
    Traced k (scanLog hw drive first k) (scanDrive hw drive first out k).2.2 := by
  obtain ⟨m, t, hstate⟩ := search_state hw drive first fatScanLbas 0 k
  rw [scanDrive, scanLoop_eq, scanLog]
  generalize search hw drive first fatScanLbas 0 k = r at hstate ⊢
  rcases r with ⟨found, k₁⟩
  dsimp only at hstate
  have hsearch : Traced k [] k₁ := .nil (by rw [hstate]) (by rw [hstate])
  cases found with
  | none => exact hsearch
  | some lba => exact hsearch.of_nil (traced_mount hw drive first lba out k₁)

theorem traced_scanWindows (hw : Hardware) (drive : ℕ) (firsts : List ℕ) (out : QizoFat)
    (k : State) :
    Traced k (windowsLog hw drive firsts out k) (scanWindows hw drive firsts out k).2.2 := by
  induction firsts generalizing out k with
  | nil => exact .nil rfl rfl
  | cons first rest ih =>
    have hscan := traced_scanDrive hw drive first out k
    rw [windowsLog, scanWindows]
    generalize scanDrive hw drive first out k = r at hscan ⊢
    rcases r with ⟨ok, out', k₁⟩
    refine hscan.append ?_
    cases ok with
    | true => exact .nil rfl rfl
    | false => exact ih out' k₁

theorem traced_fatForStarted (hw : Hardware) (blob : Blob) (drive : ℕ) (out : QizoFat) (k : State) :
    Traced k (fatForStartedLog hw blob drive out k) (fatForStarted hw blob drive out k).2.2 := by
  rw [fatForStartedLog, fatForStarted]
  split
  · exact .nil rfl rfl
  · split
    · exact .nil rfl rfl
    · exact traced_scanWindows hw drive (windows blob) (clearFat out) k

theorem traced_fatProbe (hw : Hardware) (blob : Blob) (k : State) :
    Traced k (fatProbeLog hw blob k) (fatProbe hw blob k).2 := by
  rw [fatProbeLog, fatProbe]
  split
  · exact .nil rfl rfl
  · split
    · exact .nil rfl rfl
    · exact (traced_fatForStarted hw blob 0 k.fs k).congr rfl rfl

theorem traced_fatStart (hw : Hardware) (blob : Blob) (k : State) :
    Traced k (fatStartLog hw blob k) (fatStart hw blob k) := by
  rw [fatStartLog, fatStart]
  split
  · exact .nil rfl rfl
  · exact (traced_fatForStarted hw blob 0 k.fs k).congr rfl rfl

theorem traced_driversStart (hw : Hardware) (blob : Blob) (k : State) :
    Traced k (driversStartLog hw blob k) (driversStart hw blob k) := by
  rw [driversStartLog, driversStart]
  split
  case isTrue => exact .nil rfl rfl
  case isFalse =>
    dsimp only
    generalize hk : (if hw.attached then _ else _ : State) = k₁
    have hsame : Traced k [] k₁ := by
      rw [← hk]
      split
      · exact .nil rfl rfl
      · exact .nil rfl rfl
    have hprobe := traced_fatProbe hw blob k₁
    generalize fatProbe hw blob k₁ = r at hprobe ⊢
    rcases r with ⟨ok, k₂⟩
    refine (hsame.of_nil hprobe).append ?_
    cases ok with
    | true => exact traced_fatStart hw blob k₂
    | false => exact .nil rfl rfl

/-- **A call is traced.** -/
theorem Traced.call (hw : Hardware) (blob : Blob) (k : State) (c : Call) :
    Traced k (c.log hw blob k) (c.run hw blob k) := by
  have hstart := traced_driversStart hw blob k
  cases c with
  | probe =>
    rw [Call.log, Call.run]
    split
    · exact .nil rfl rfl
    · split
      · exact .nil rfl rfl
      · exact (hstart.append (traced_fatForStarted hw blob 0 _ _)).congr rfl rfl
  | stat out => exact hstart.append (traced_fatForStarted hw blob 0 out _)
  | statDrive drive out => exact hstart.append (traced_fatForStarted hw blob drive out _)

/-- **A session is traced.** -/
theorem Traced.session (blob : Blob) (calls : List (Hardware × Call)) (k : State) :
    Traced k (sessionLog blob calls k) (session blob calls k) := by
  induction calls generalizing k with
  | nil => exact .nil rfl rfl
  | cons c calls ih => exact (Traced.call c.1 blob k c.2).append (ih _)

end Steps

/-! ### Sessions that stay inside the buffer -/

/-- **Reads stay inside the buffer** in a session in which every table that is found fits the buffer
there is. -/
theorem inside_of_fits (blob : Blob) (calls : List (Hardware × Call)) (k : State)
    (hbuf : k.fatbuf = 0) (hfits : Along Event.Fits none (sessionLog blob calls k)) :
    Along Event.Inside none (sessionLog blob calls k) :=
  ((Traced.session blob calls k).inside none hbuf hfits).1

instance (buf : Option (ℕ × ℕ)) : (e : Event) → Decidable (e.Inside buf)
  | .found _ => .isTrue trivial
  | .alloc _ _ => .isTrue trivial
  | .sectorTo addr =>
    inferInstanceAs (Decidable (∃ b ∈ buf, b.1 ≤ addr ∧ addr + 512 ≤ b.1 + b.2 * pageSize))
  | .entryAt addr =>
    inferInstanceAs (Decidable (∃ b ∈ buf, b.1 ≤ addr ∧ addr + 2 ≤ b.1 + b.2 * pageSize))

instance (buf : Option (ℕ × ℕ)) : (e : Event) → Decidable (e.Fits buf)
  | .found pages => inferInstanceAs (Decidable (∀ b ∈ buf, pages ≤ b.2))
  | .alloc _ _ => .isTrue trivial
  | .sectorTo _ => .isTrue trivial
  | .entryAt _ => .isTrue trivial

instance (P : Option (ℕ × ℕ) → Event → Prop) [∀ buf e, Decidable (P buf e)] :
    (buf : Option (ℕ × ℕ)) → (log : List Event) → Decidable (Along P buf log)
  | _, [] => .isTrue trivial
  | buf, e :: log =>
    have : Decidable (Along P (e.next buf) log) := instDecidableAlong P (e.next buf) log
    inferInstanceAs (Decidable (P buf e ∧ Along P (e.next buf) log))

-- so that a property of a trace is not taken apart along the trace to see what it says
attribute [irreducible] Along

/-- At boot, with 64 free frames from 3 MiB on. -/
def bootState : State where
  pma := ⟨fun w => if w = 12 then .allOnes 64 else 0, 1024, 64, 0, 0x400000, 0⟩
  mem := fun _ => 0
  ata := .boot
  sector := fun _ => 0
  fatbuf := 0
  fs := ⟨false, 0, 0, 0, 0, 0, 0, [], ""⟩
  fsReady := false
  started := false

/-- A disk for each drive: the boot sector of `smallBoot` on the first, and on the second one with a
table of `spf` sectors. -/
def twoDisks (spf : UInt8) (drive s : ℕ) : Memory := fun i =>
  if s ≠ 0 then 0
  else if drive = 0 then smallBoot i
  else if i = 19 then spf + 4 else if i = 22 then spf else smallBoot i

/-- What happens when the free space of both drives is asked for, one after the other. -/
def bothDrives (spf : UInt8) : List Event :=
  sessionLog ⟨0, 0⟩ [(diskDrive (twoDisks spf), .statDrive 0 bootState.fs),
    (diskDrive (twoDisks spf), .statDrive 1 bootState.fs)] bootState

/-- Two tables of one page. -/
theorem inside_of_fits_eight :
    Along Event.Fits none (bothDrives 8) ∧ Along Event.Inside none (bothDrives 8) := by
  have hfits : Along Event.Fits none (bothDrives 8) := by decide +kernel
  have hbuf : bootState.fatbuf = 0 := by rw [bootState]
  exact ⟨hfits, inside_of_fits _ _ _ hbuf hfits⟩

/-- **A larger table on the second drive** is read past the end of the buffer. -/
theorem not_inside_nine : ¬Along Event.Inside none (bothDrives 9) := by
  decide +kernel

end Fat

end Qizo
