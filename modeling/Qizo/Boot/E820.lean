import Qizo.Boot.MemoryMap
import Qizo.Boot.Trace

/-!
# Collecting the memory map

The last part of the 16-bit code of the second stage, from `e820_start` to the first instruction in
protected mode, with the boot trace assembled in. One label per label of the source; the return
points of calls have names here.

The firmware hands out the map one entry at a time. The entries go into a buffer of 32 and the count
into the cell right behind it, and the 32-bit code copies both into bootinfo, where the cell lies
right behind the room for the entries again.

`lgdt` has no counterpart: segments are not translated. The data segments that are loaded last are
selectors of flat segments, and nothing is read or written before the 32-bit code starts.

## Where a run ends

`qizoPm32` is the far jump to the 32-bit code, which `Qizo.Boot.Stage2` takes up. `qizoFail16` is
the end with an error code in bootinfo.

## Main results

* `leadsTo_e820Next` — one call of the firmware
* `leadsTo_collected` — the loop
* `memoryMap_handed_over` — what arrives in bootinfo
-/

namespace Qizo

namespace E820

open Real Operand StateTransition ByteString Memory

/-- The labels from `e820_start` on. -/
inductive Label where
  | e820Start | e820Next | e820Check | e820Done | cr4Set | pm16Jump | qizoPm16 | pm16Back | qizoPm32
  | qizoFail16
  | qizoTracePutc | qizoTrWait | qizoTrSend | qizoTrDone
  deriving DecidableEq, Repr

open Label

/-- `SMAP`. -/
def smap : ℕ := 0x534D4150

/-- The code. `gdtr` is the offset of `qizo_gdtr`. -/
def code (fw : Firmware) (gdtr : ℕ) : Label → Option (Block Label)
  | e820Start => some ⟨
      [.op (mov 16 (imm e820Seg) ax), .op movDs, .op movEs,
       .op (xor 16 di di),
       .op (xor 32 bp bp),
       .op (xor 32 bx bx),
       .op (mov 16 (imm e820CntOfs) si),
       .op (mov 32 (imm 0) (ind .esi))], e820Next⟩
  | e820Next => some ⟨
      [.op (cmp 32 (imm e820Max) bp),
       jae e820Done,
       .op (mov 32 (imm e820Ent) cx),
       .op (mov 32 (imm 0xE820) ax),
       .op (mov 32 (imm smap) dx),
       .op (int fw 0x15),
       jb e820Check,
       .op (cmp 32 (imm smap) ax),
       jne e820Check,
       .op (cmp 32 (imm 20) cx),
       jb e820Check,
       .op (add 16 (imm e820Ent) di),
       .op (inc 16 bp),
       .op (inc 32 (ind .esi)),
       .op (test 32 bx bx),
       jne e820Next], e820Check⟩
  | e820Check => some ⟨
      [.op (test 32 bp bp),
       jne e820Done,
       .op (mov 16 (imm bootinfoSeg) ax), .op movEs,
       .op (mov 8 (imm 0x14) (absEs biErr)),
       .jmp qizoFail16], e820Done⟩
  | e820Done => some ⟨
      [.op (mov 16 (imm bootinfoSeg) ax), .op movEs,
       .op (mov 16 (imm e820CntOfs) si),
       .op (mov 32 (ind .esi) ax),
       .op (mov 32 ax (absEs biE820N)),
       .op (mov 16 (imm stage2Seg) ax), .op movDs,
       .op (mov 16 (imm gdtr) bx),
       .op (mov 8 (imm 0x61) ax),
       .call qizoTracePutc], cr4Set⟩
  | cr4Set => some ⟨
      [.op (mov 32 (imm 0x630) ax),
       .op (fun s => { s with cr4 := s.eax }),
       .op (fun s => { s with eax := s.cr0 }),
       .op (and 32 (imm 0x9FFFFFFF) ax),
       .op (or 32 (imm 1) ax),
       .op (fun s => { s with cr0 := s.eax }),
       .op (pushw ax),
       .op (mov 8 (imm 0x50) ax),
       .call qizoTracePutc], pm16Jump⟩
  | pm16Jump => some ⟨[.op (popw ax), .jmp qizoPm16], qizoPm16⟩
  | qizoPm16 => some ⟨[.op (mov 8 (imm 0x6D) ax), .call qizoTracePutc], pm16Back⟩
  | pm16Back => some ⟨
      [.op (mov 16 (imm 0x10) ax), .op movDs, .op movEs, .op movSs,
       .op (mov 32 (imm pmStack) sp),
       .jmp qizoPm32], qizoPm32⟩
  | qizoPm32 => none
  | qizoFail16 => none
  | qizoTracePutc => some ⟨
      [.op (pushw ax),
       .op (pushw cx),
       .op (pushw dx),
       .op (mov 8 ax ah),
       .op (mov 16 (imm 60000) cx),
       .op (mov 16 (imm 0x3FD) dx)], qizoTrWait⟩
  | qizoTrWait => some ⟨
      [.op inb,
       .op (and 8 (imm 0x20) ax),
       jne qizoTrSend,
       .op (dec 16 cx),
       jne qizoTrWait,
       .jmp qizoTrDone], qizoTrSend⟩
  | qizoTrSend => some ⟨
      [.op (mov 8 ah ax),
       .op (mov 16 (imm 0x3F8) dx),
       .op outb], qizoTrDone⟩
  | qizoTrDone => some ⟨[.op (popw dx), .op (popw cx), .op (popw ax), .ret], qizoTracePutc⟩

/-- One block of the code. -/
def step (fw : Firmware) (gdtr : ℕ) (k : Link Label) : Label × Cpu → Option (Label × Cpu) :=
  Real.step k (code fw gdtr)

variable {fw : Firmware} {gdtr : ℕ} {k : Link Label} {s s' : Cpu} {l : Label} {p : ℕ}

/-! ### The trace -/

/-- A part of the trace is done. -/
abbrev Traced (p : ℕ) (s s' : Cpu) : Prop := Balanced 0x7F00 p s s'

theorem leadsTo_qizoTracePutc (h : Called k l p s) (hp : 0x7F06 ≤ p) :
    LeadsTo (step fw gdtr k) (qizoTracePutc, s) fun x => x.1 = l ∧ Traced (p + 2) s x.2 := by
  have hcode : Trace.HasPutc (code fw gdtr) qizoTracePutc qizoTrWait qizoTrSend qizoTrDone :=
    ⟨rfl, rfl, rfl, qizoTracePutc, rfl⟩
  exact (Trace.leadsTo_putc hcode h hp).mono fun _ hx => ⟨hx.1, hx.2.1⟩

/-! ### Into protected mode -/

/-- The stack of the 16-bit code, with room for the trace. -/
structure HasStack (s : Cpu) : Prop where
  ss : s.ss = 0#16
  ge : 0x7F0A ≤ s.sp.toNat
  le : s.sp.toNat ≤ 0x8FF0

/-- A byte of the trace. -/
theorem leadsTo_traced {r : Label} (hss : s.ss = 0#16) (hsp : s.sp = .ofNat 16 p) (hge : 0x7F08 ≤ p)
    (hle : p ≤ 0x8FF0) :
    LeadsTo (step fw gdtr k) (qizoTracePutc, s.push (k.addr r)) fun x => x.1 = r ∧
      Traced p s x.2 := by
  obtain ⟨p, rfl⟩ := Nat.exists_eq_add_of_le' (Nat.le_trans (by decide : 2 ≤ 0x7F08) hge)
  exact leadsTo_call hss hsp (by omega) (by omega) fun hc => leadsTo_qizoTracePutc hc (by omega)

/-- What the way into protected mode may change of memory. -/
def pmWrites : List (ℕ × ℕ) := [(0x7F00, 0x10F0), (bootinfo + biE820N, 4)]

/-- **Into protected mode**, with the count in bootinfo. -/
theorem leadsTo_qizoPm32 (hds : s.ds = .ofNat 16 e820Seg) (hstack : HasStack s) :
    LeadsTo (step fw gdtr k) (e820Done, s) fun x => x.1 = qizoPm32 ∧
      x.2.mem.load 4 (bootinfo + biE820N) = s.mem.load 4 e820Cnt ∧
      EqOutside s.mem x.2.mem pmWrites ∧ x.2.calls = s.calls := by
  have hge := hstack.ge
  have hle := hstack.le
  obtain ⟨p, hp⟩ := Nat.exists_eq_add_of_le' (Nat.le_trans (by decide : 2 ≤ 0x7F0A) hge)
  have hsp : s.sp = .ofNat 16 (p + 2) := by
    rw [← hp, BitVec.ofNat_toNat, BitVec.setWidth_eq]
  rw [hp] at hge hle
  have hcnt : ld s.mem (.ofNat 16 e820Seg) (32 / 8) (.ofNat 16 e820CntOfs) = s.mem.load 4 e820Cnt :=
    ld_eq_load (by decide)
  have hnum : (BitVec.ofNat 32 (s.mem.load 4 e820Cnt)).toNat = s.mem.load 4 e820Cnt :=
    (BitVec.toNat_ofNat _ _).trans (Nat.mod_eq_of_lt (load_lt s.mem 4 e820Cnt))
  have hst (v : ℕ) : st (.ofNat 16 bootinfoSeg) (32 / 8) (.ofNat 16 biE820N) v s.mem =
      s.mem.store 4 (bootinfo + biE820N) v := st_eq_store (by decide)
  refine leadsTo_block rfl ?_
  simp only [runBlock, mov, movEs, movDs, Cpu.read, Cpu.write, Cpu.setReg, Cpu.setMem, X86.Cpu.get,
    X86.Cpu.set, hds, withLow_32, setWidth_withLow_16, BitVec.setWidth_eq, hcnt, hst, hnum]
  refine LeadsTo.trans (leadsTo_traced hstack.ss hsp (by omega) hle) ?_
  rintro ⟨_, s₁⟩ ⟨rfl, h₁⟩
  have hss₁ : s₁.ss = 0#16 := h₁.ss.trans hstack.ss
  refine leadsTo_block rfl ?_
  simp only [runBlock]
  have h₂ : Stacked 0x7F00 (p + 2) (p + 2) s₁ s₁ := ⟨rfl, rfl, rfl, rfl, h₁.sp, fun _ _ => rfl⟩
  have h₃ (v : BitVec 16) : Stacked 0x7F00 (p + 2) p s₁ (s₁.push v) :=
    h₂.push hss₁ (by omega) (by omega) (by omega)
  refine LeadsTo.trans (leadsTo_traced (p := p) hss₁ (h₃ 0).sp (by omega) (by omega)) ?_
  rintro ⟨_, s₃⟩ ⟨rfl, ht₃⟩
  have h₄ : Stacked 0x7F00 (p + 2) p s₁ s₃ :=
    ⟨ht₃.ds, ht₃.ss, ht₃.edi, ht₃.calls, ht₃.sp,
      fun x hx => (ht₃.mem x (by omega)).trans ((h₃ _).mem x hx)⟩
  have h₅ := h₄.popw (r := .eax) (by decide) (by decide)
  refine leadsTo_block rfl ?_
  refine leadsTo_block rfl ?_
  refine LeadsTo.trans (leadsTo_traced (p := p + 2) (h₅.ss.trans hss₁) h₅.sp (by omega) (by omega))
    ?_
  rintro ⟨_, s₆⟩ ⟨rfl, ht₆⟩
  have hmem (x : ℕ) (hx : x < 0x7F00 ∨ p + 2 ≤ x) :
      s₆.mem x = s.mem.store 4 (bootinfo + biE820N) (s.mem.load 4 e820Cnt) x :=
    (ht₆.mem x (by omega)).trans ((h₅.mem x hx).trans (h₁.mem x hx))
  refine leadsTo_block rfl ?_
  simp only [runBlock, mov, movDs, movEs, movSs, Cpu.read, Cpu.write, Cpu.setReg, X86.Cpu.get,
    X86.Cpu.set]
  refine .now ⟨rfl, ?_, fun x hx => ?_, ht₆.calls.trans (h₅.calls.trans h₁.calls)⟩
  · dsimp only
    rw [load_congr fun i _ => hmem _ (.inr ?_), load_store_self (load_lt _ 4 _)]
    rw [bootinfo, biE820N]
    omega
  · rw [pmWrites, outside_cons, outside_cons] at hx
    refine (hmem x (by omega)).trans (eqOutside_store _ _ _ _ x ?_)
    rw [outside_cons]
    exact hx.2

/-! ### The firmware -/

/-- A response of the firmware: the carry flag, the signature in `eax`, the size in `ecx`, the
bytes of the entry, for which there is room for 24, and the next continuation value. -/
structure Response where
  carry : Bool
  sig : BitVec 32
  size : BitVec 32
  entry : List UInt8
  next : BitVec 32
  entry_le : entry.length ≤ e820Ent

/-- The entry is taken. -/
def Response.accepted (r : Response) : Bool :=
  !r.carry && r.sig == .ofNat 32 smap && decide (20 ≤ r.size.toNat)

/-- The firmware is asked for an entry. -/
def Asks (s : Cpu) : Prop :=
  s.eax = .ofNat 32 0xE820 ∧ s.ecx = .ofNat 32 e820Ent ∧ s.edx = .ofNat 32 smap

/-- What the firmware does, for the response `r`. -/
structure Responded (r : Response) (s s' : Cpu) : Prop where
  cf : s'.cf = r.carry
  eax : s'.eax = r.sig
  ecx : s'.ecx = r.size
  ebx : s'.ebx = r.next
  mem : s'.mem = s.mem.write (lin s.es (s.edi.setWidth 16)) r.entry
  esi : s'.esi = s.esi
  edi : s'.edi = s.edi
  ebp : s'.ebp = s.ebp
  esp : s'.esp = s.esp
  ds : s'.ds = s.ds
  es : s'.es = s.es
  ss : s'.ss = s.ss

/-- Firmware whose responses depend on the continuation value. -/
def Replies (fw : Firmware) (resp : BitVec 32 → Response) : Prop :=
  ∀ s, Asks s → Responded (resp s.ebx) s (fw 0x15 s)

/-- The continuation values the firmware is called with, from the value `c` on: each call has the
value that came with the entry before it. The calls end behind an entry that is not taken, behind
the last one, and when `n` entries have been taken. -/
def asked (resp : BitVec 32 → Response) : (n : ℕ) → (c : BitVec 32) → List (BitVec 32)
  | 0, _ => []
  | n + 1, c =>
    if (resp c).accepted ∧ (resp c).next ≠ 0#32 then c :: asked resp n (resp c).next else [c]

/-- The entries that are taken in these calls. -/
def chain (resp : BitVec 32 → Response) : (n : ℕ) → (c : BitVec 32) → List Response
  | 0, _ => []
  | n + 1, c =>
    if (resp c).accepted then
      resp c :: if (resp c).next ≠ 0#32 then chain resp n (resp c).next else []
    else []

/-- The memory map of a firmware: the entries from continuation value zero on. -/
def mapOf (resp : BitVec 32 → Response) : List Response := chain resp e820Max 0#32

variable {resp : BitVec 32 → Response} {s₀ : Cpu} {rs : List Response}

theorem chain_eq (resp : BitVec 32 → Response) (n : ℕ) (c : BitVec 32) :
    chain resp n c = ((asked resp n c).map resp).filter Response.accepted := by
  induction n generalizing c with
  | zero => rfl
  | succ n ih =>
    rw [chain, asked]
    by_cases hacc : (resp c).accepted = true
    · rw [if_pos hacc]
      by_cases hnext : (resp c).next ≠ 0#32
      · rw [if_pos hnext, if_pos ⟨hacc, hnext⟩, List.map_cons, List.filter_cons_of_pos hacc, ih]
      · rw [if_neg hnext, if_neg fun h => hnext h.2, List.map_singleton,
          List.filter_cons_of_pos hacc, List.filter_nil]
    · rw [if_neg hacc, if_neg fun h => hacc h.1, List.map_singleton, List.filter_cons_of_neg hacc,
        List.filter_nil]

theorem length_chain_le (n : ℕ) (c : BitVec 32) : (chain resp n c).length ≤ n := by
  induction n generalizing c with
  | zero => exact le_rfl
  | succ n ih =>
    rw [chain]
    split
    · split
      · exact Nat.succ_le_succ (ih _)
      · exact Nat.succ_le_succ (Nat.zero_le n)
    · exact Nat.zero_le _

theorem chain_eq_nil_iff {n : ℕ} (hn : n ≠ 0) (c : BitVec 32) :
    chain resp n c = [] ↔ ¬(resp c).accepted := by
  obtain ⟨n, rfl⟩ := Nat.exists_eq_add_one_of_ne_zero hn
  rw [chain]
  split
  · next hacc => exact iff_of_false (List.cons_ne_nil _ _) (not_not_intro hacc)
  · next hrej => exact iff_of_true rfl hrej

/-! ### The loop -/

/-- At the top of the loop, and behind it: the responses `rs` have been taken. -/
structure Collecting (s₀ s : Cpu) (rs : List Response) : Prop where
  ds : s.ds = .ofNat 16 e820Seg
  es : s.es = .ofNat 16 e820Seg
  stack : HasStack s
  si : s.esi.setWidth 16 = .ofNat 16 e820CntOfs
  di : s.edi.setWidth 16 = .ofNat 16 (24 * rs.length)
  bp : s.ebp = .ofNat 32 rs.length
  count : s.mem.load 4 e820Cnt = rs.length
  entries : ∀ i r, rs[i]? = some r → s.mem.Holds (e820Buf + 24 * i) r.entry
  frame : EqOutside s₀.mem s.mem [(e820Buf, 0x304)]

/-- The beginning. -/
theorem leadsTo_start (hstack : HasStack s) :
    LeadsTo (step fw gdtr k) (e820Start, s) fun x => x.1 = e820Next ∧ Collecting s x.2 [] ∧
      x.2.ebx = 0#32 ∧ x.2.calls = s.calls := by
  have hst (v : ℕ) : st (.ofNat 16 e820Seg) (32 / 8) (.ofNat 16 e820CntOfs) v s.mem =
      s.mem.store 4 e820Cnt v := st_eq_store (by decide)
  refine leadsTo_block rfl ?_
  simp only [runBlock, mov, movDs, movEs, Real.xor, Cpu.read, Cpu.write, Cpu.setReg, Cpu.setMem,
    Cpu.flags, X86.Cpu.get, X86.Cpu.set, withLow_32, setWidth_withLow_16, BitVec.xor_self, hst]
  refine .now ⟨rfl, ⟨rfl, rfl, ⟨hstack.ss, hstack.ge, hstack.le⟩, setWidth_withLow_16 _ _,
    setWidth_withLow_16 _ _, rfl, load_store_self (by decide), by simp, ?_⟩, rfl, rfl⟩
  refine (eqOutside_store s.mem 4 e820Cnt _).mono fun x hx => ?_
  simp only [outside_cons, outside_nil, and_true, e820Buf, e820Cnt] at hx ⊢
  omega

/-- The firmware has written into the slot behind the entries that are there. -/
theorem Collecting.of_responded {r : Response} (h : Collecting s₀ s rs) (hlt : rs.length < 32)
    (hr : Responded r s s') : Collecting s₀ s' rs ∧
      s'.mem.Holds (e820Buf + 24 * rs.length) r.entry := by
  have hlen : r.entry.length ≤ 24 := r.entry_le
  have hlin : lin s.es (s.edi.setWidth 16) = e820Buf + 24 * rs.length := by
    have hoff : (BitVec.ofNat 16 (24 * rs.length)).toNat = 24 * rs.length := by
      rw [BitVec.toNat_ofNat]
      omega
    rw [h.es, h.di, lin, hoff]
    rfl
  have hmem := hr.mem
  rw [hlin] at hmem
  have hframe := eqOutside_write s.mem (e820Buf + 24 * rs.length) r.entry
  rw [← hmem] at hframe
  refine ⟨⟨hr.ds.trans h.ds, hr.es.trans h.es, ⟨hr.ss.trans h.stack.ss, ?_, ?_⟩, ?_, ?_,
    hr.ebp.trans h.bp, ?_, fun i r' hi => ?_, h.frame.trans (hframe.mono fun x hx => ?_)⟩, ?_⟩
  · rw [Cpu.sp, hr.esp]
    exact h.stack.ge
  · rw [Cpu.sp, hr.esp]
    exact h.stack.le
  · rw [hr.esi, h.si]
  · rw [hr.edi, h.di]
  · rw [hframe.load_eq, h.count]
    intro x hx _
    simp only [outside_cons, outside_nil, and_true, e820Buf, e820Cnt] at hx ⊢
    omega
  · have hi' : i < rs.length := (List.getElem?_eq_some_iff.mp hi).1
    have hlen' : r'.entry.length ≤ 24 := r'.entry_le
    refine (h.entries i r' hi).of_eqOutside hframe fun x _ hx => ?_
    simp only [outside_cons, outside_nil, and_true] at hx ⊢
    omega
  · simp only [outside_cons, outside_nil, and_true] at hx ⊢
    omega
  · rw [hmem]
    exact holds_write _ _ _

/-- An entry is counted. -/
theorem Collecting.push {r : Response} (h : Collecting s₀ s rs) (hlt : rs.length < 32)
    (hentry : s.mem.Holds (e820Buf + 24 * rs.length) r.entry)
    (hds : s'.ds = s.ds) (hes : s'.es = s.es) (hss : s'.ss = s.ss) (hesp : s'.esp = s.esp)
    (hesi : s'.esi = s.esi) (hdi : s'.edi.setWidth 16 = s.edi.setWidth 16 + .ofNat 16 e820Ent)
    (hbp : s'.ebp = withLow 16 s.ebp (s.ebp.setWidth 16 + 1))
    (hmem : s'.mem = s.mem.store 4 e820Cnt (rs.length + 1)) : Collecting s₀ s' (rs ++ [r]) := by
  have hframe := eqOutside_store s.mem 4 e820Cnt (rs.length + 1)
  rw [← hmem] at hframe
  have hlength : (rs ++ [r]).length = rs.length + 1 := List.length_append
  have hslot {i : ℕ} {e : List UInt8} (he : e.length ≤ 24) (hi : i ≤ rs.length)
      (hold : s.mem.Holds (e820Buf + 24 * i) e) : s'.mem.Holds (e820Buf + 24 * i) e := by
    refine hold.of_eqOutside hframe fun x _ hx => ?_
    simp only [outside_cons, outside_nil, and_true, e820Buf, e820Cnt] at hx ⊢
    omega
  refine ⟨hds.trans h.ds, hes.trans h.es, ⟨hss.trans h.stack.ss, ?_, ?_⟩, ?_, ?_, ?_, ?_, ?_, ?_⟩
  · rw [Cpu.sp, hesp]
    exact h.stack.ge
  · rw [Cpu.sp, hesp]
    exact h.stack.le
  · rw [hesi, h.si]
  · rw [hdi, h.di, hlength, Nat.mul_succ]
    exact (BitVec.ofNat_add _ _).symm
  · have hone : (1 : BitVec 16).toNat = 1 := rfl
    rw [hbp, h.bp, hlength]
    apply BitVec.eq_of_toNat_eq
    rw [toNat_withLow (by decide), BitVec.toNat_add, BitVec.toNat_setWidth, BitVec.toNat_ofNat,
      BitVec.toNat_ofNat, hone]
    omega
  · rw [hmem, load_store_self (by omega), hlength]
  · intro i r' hi
    by_cases hlast : i < rs.length
    · rw [List.getElem?_append_left hlast] at hi
      exact hslot r'.entry_le (Nat.le_of_lt hlast) (h.entries i r' hi)
    · obtain rfl : i = rs.length := by
        have := (List.getElem?_eq_some_iff.mp hi).1
        omega
      rw [List.getElem?_concat_length, Option.some.injEq] at hi
      exact hi ▸ hslot r.entry_le le_rfl hentry
  · refine h.frame.trans (hframe.mono fun x hx => ?_)
    simp only [outside_cons, outside_nil, and_true, e820Buf, e820Cnt] at hx ⊢
    omega

/-- What `e820_next` does with a response. -/
def taking : List (Instr Label) :=
  [jb e820Check,
   .op (cmp 32 (imm smap) ax),
   jne e820Check,
   .op (cmp 32 (imm 20) cx),
   jb e820Check,
   .op (add 16 (imm e820Ent) di),
   .op (inc 16 bp),
   .op (inc 32 (ind .esi)),
   .op (test 32 bx bx),
   jne e820Next]

/-- A call of the firmware. -/
theorem leadsTo_taking {Q : Label × Cpu → Prop} (hfw : Replies fw resp) (h : Collecting s₀ s rs)
    (hlt : rs.length < 32)
    (hrest : ∀ s₁, Responded (resp s.ebx) s s₁ →
      (∃ c : Call, s₁.calls = s.calls ++ [c] ∧ c.before.ebx = s.ebx) →
      LeadsTo (step fw gdtr k) (runBlock k e820Check taking s₁) Q) :
    LeadsTo (step fw gdtr k) (e820Next, s) Q := by
  have hmore : ¬(!decide ((BitVec.ofNat 32 rs.length).toNat < (BitVec.ofNat 32 e820Max).toNat)) =
      true := by
    have hmax : (BitVec.ofNat 32 e820Max).toNat = 32 := rfl
    rw [BitVec.toNat_ofNat, hmax, Bool.not_eq_true', decide_eq_false_iff_not]
    omega
  refine leadsTo_block rfl ?_
  simp only [runBlock, Real.cmp, mov, jae, Cpu.read, Cpu.write, Cpu.setReg, Cpu.flags, X86.Cpu.get,
    X86.Cpu.set, h.bp, BitVec.setWidth_eq, withLow_32]
  rw [if_neg hmore]
  refine hrest _ ?_ ⟨_, rfl, rfl⟩
  have hr := hfw { s with
    eax := .ofNat 32 0xE820
    ecx := .ofNat 32 e820Ent
    edx := .ofNat 32 smap
    ebp := .ofNat 32 rs.length
    zf := BitVec.ofNat 32 rs.length == BitVec.ofNat 32 e820Max
    cf := decide ((BitVec.ofNat 32 rs.length).toNat < (BitVec.ofNat 32 e820Max).toNat) }
    ⟨rfl, rfl, rfl⟩
  exact ⟨hr.cf, hr.eax, hr.ecx, hr.ebx, hr.mem, hr.esi, hr.edi, hr.ebp.trans h.bp.symm, hr.esp,
    hr.ds, hr.es, hr.ss⟩

/-- **One call of the firmware.** -/
theorem leadsTo_e820Next (hfw : Replies fw resp) (h : Collecting s₀ s rs) (hlt : rs.length < 32) :
    LeadsTo (step fw gdtr k) (e820Next, s) fun x =>
      (∃ c : Call, x.2.calls = s.calls ++ [c] ∧ c.before.ebx = s.ebx) ∧
        if (resp s.ebx).accepted then
          Collecting s₀ x.2 (rs ++ [resp s.ebx]) ∧ x.2.ebx = (resp s.ebx).next ∧
            x.1 = if (resp s.ebx).next = 0#32 then e820Check else e820Next
        else x.1 = e820Check ∧ Collecting s₀ x.2 rs := by
  refine leadsTo_taking hfw h hlt fun s₁ hr hcall => ?_
  obtain ⟨h₁, hentry⟩ := h.of_responded hlt hr
  generalize resp s.ebx = r at hr hentry ⊢
  have hcount : ld s₁.mem (.ofNat 16 e820Seg) (32 / 8) (.ofNat 16 e820CntOfs) = rs.length :=
    (ld_eq_load (by decide)).trans h₁.count
  have hst (v : ℕ) : st (.ofNat 16 e820Seg) (32 / 8) (.ofNat 16 e820CntOfs) v s₁.mem =
      s₁.mem.store 4 e820Cnt v := st_eq_store (by decide)
  have hsucc : (BitVec.ofNat 32 rs.length + 1).toNat = rs.length + 1 := by
    have hone : (1 : BitVec 32).toNat = 1 := rfl
    rw [BitVec.toNat_add, BitVec.toNat_ofNat, hone]
    omega
  simp only [taking, runBlock, Real.cmp, Real.add, inc, Real.test, jb, jne, Cpu.read, Cpu.write,
    Cpu.setReg, Cpu.setMem, Cpu.flags, X86.Cpu.get, X86.Cpu.set, hr.cf, hr.eax, hr.ecx, hr.ebx,
    h₁.ds, h₁.si, hcount, hst, hsucc, BitVec.and_self, BitVec.setWidth_eq]
  refine LeadsTo.ite (fun hcarry => ?_) fun hcarry => LeadsTo.ite (fun hsig => ?_) fun hsig =>
    LeadsTo.ite (fun hsmall => ?_) fun hsmall => ?_
  · refine .now ⟨hcall, ?_⟩
    rw [if_neg (by simp [Response.accepted, hcarry])]
    exact ⟨rfl, h₁⟩
  · have hsig' : ¬r.sig = .ofNat 32 smap := by simpa using hsig
    refine .now ⟨hcall, ?_⟩
    rw [if_neg (by simp [Response.accepted, hsig'])]
    exact ⟨rfl, rfl, h₁.es, ⟨h₁.stack.ss, h₁.stack.ge, h₁.stack.le⟩, h₁.si, h₁.di, h₁.bp, h₁.count,
      h₁.entries, h₁.frame⟩
  · have hsmall' : ¬20 ≤ r.size.toNat := Nat.not_le.mpr (of_decide_eq_true hsmall)
    refine .now ⟨hcall, ?_⟩
    rw [if_neg (by simp [Response.accepted, hsmall'])]
    exact ⟨rfl, rfl, h₁.es, ⟨h₁.stack.ss, h₁.stack.ge, h₁.stack.le⟩, h₁.si, h₁.di, h₁.bp, h₁.count,
      h₁.entries, h₁.frame⟩
  · have hacc : r.accepted = true := by
      rw [Response.accepted, Bool.and_eq_true, Bool.and_eq_true]
      exact ⟨⟨by simpa using hcarry, by simpa using hsig⟩,
        decide_eq_true (Nat.not_lt.mp fun hlt' => hsmall (decide_eq_true hlt'))⟩
    refine LeadsTo.ite (fun hnext => ?_) fun hnext => ?_
    · have hnext' : ¬r.next = 0#32 := by simpa using hnext
      refine .now ⟨hcall, ?_⟩
      rw [if_pos hacc, if_neg hnext']
      exact ⟨h₁.push hlt hentry h₁.ds.symm rfl rfl rfl rfl (setWidth_withLow_16 _ _) rfl rfl, rfl,
        rfl⟩
    · have hnext' : r.next = 0#32 := by simpa using hnext
      refine .now ⟨hcall, ?_⟩
      rw [if_pos hacc, if_pos hnext']
      exact ⟨h₁.push hlt hentry h₁.ds.symm rfl rfl rfl rfl (setWidth_withLow_16 _ _) rfl rfl, rfl,
        rfl⟩

/-- **The loop.** It takes the entries of the chain, and is left with 32 entries, or for the
check. -/
theorem leadsTo_collected (hfw : Replies fw resp) (fuel : ℕ) (h : Collecting s₀ s rs)
    (hfuel : rs.length + fuel = 32) :
    LeadsTo (step fw gdtr k) (e820Next, s) fun x =>
      (∃ cs : List Call, x.2.calls = s.calls ++ cs ∧
        cs.map (fun c => c.before.ebx) = asked resp fuel s.ebx) ∧
      Collecting s₀ x.2 (rs ++ chain resp fuel s.ebx) ∧
      (x.1 = e820Done ∧ (rs ++ chain resp fuel s.ebx).length = 32 ∨ x.1 = e820Check) := by
  induction fuel generalizing s rs with
  | zero =>
    have hfull : (!decide ((BitVec.ofNat 32 rs.length).toNat < (BitVec.ofNat 32 e820Max).toNat)) =
        true := by
      rw [show rs.length = 32 from hfuel]
      decide
    refine leadsTo_block rfl ?_
    simp only [runBlock, Real.cmp, jae, Cpu.read, Cpu.flags, X86.Cpu.get, h.bp, BitVec.setWidth_eq]
    rw [if_pos hfull, chain, List.append_nil]
    exact .now ⟨⟨[], (List.append_nil _).symm, rfl⟩, ⟨h.ds, h.es,
      ⟨h.stack.ss, h.stack.ge, h.stack.le⟩, h.si, h.di, rfl, h.count, h.entries, h.frame⟩,
      .inl ⟨rfl, hfuel⟩⟩
  | succ fuel ih =>
    refine LeadsTo.trans (leadsTo_e820Next hfw h (by omega)) ?_
    rintro ⟨l, s₁⟩ ⟨⟨c, hcalls, hebx⟩, hnext⟩
    dsimp only at hcalls hnext
    rw [asked, chain]
    split at hnext
    · next hacc =>
      obtain ⟨h₁, hebx₁, hl⟩ := hnext
      have hlen : (rs ++ [resp s.ebx]).length + fuel = 32 := by
        rw [List.length_append, List.length_singleton]
        omega
      rw [if_pos hacc]
      by_cases hlast : (resp s.ebx).next = 0#32
      · rw [if_pos hlast] at hl
        subst hl
        rw [if_neg fun hmore => hmore.2 hlast, if_neg (not_not_intro hlast)]
        exact .now ⟨⟨[c], hcalls, by rw [List.map_singleton, hebx]⟩, h₁, .inr rfl⟩
      · rw [if_neg hlast] at hl
        subst hl
        rw [if_pos ⟨hacc, hlast⟩, if_pos hlast]
        refine (ih h₁ hlen).mono ?_
        rintro x ⟨⟨cs, hcalls', hcs⟩, h', hend⟩
        rw [hebx₁] at hcs h' hend
        rw [← List.append_cons] at h' hend
        refine ⟨⟨c :: cs, ?_, by rw [List.map_cons, hebx, hcs]⟩, h', hend⟩
        rw [hcalls', hcalls, List.append_assoc, List.singleton_append]
    · next hrej =>
      obtain ⟨rfl, h₁⟩ := hnext
      rw [if_neg fun hmore => hrej hmore.1, if_neg hrej, List.append_nil]
      exact .now ⟨⟨[c], hcalls, by rw [List.map_singleton, hebx]⟩, h₁, .inr rfl⟩

/-- The check: no entry is an error. -/
theorem leadsTo_checked (h : Collecting s₀ s rs) (hle : rs.length ≤ 32) :
    LeadsTo (step fw gdtr k) (e820Check, s) fun x => x.2.calls = s.calls ∧
      if rs = [] then x.1 = qizoFail16 ∧ x.2.mem.load 1 (bootinfo + biErr) = 0x14
      else x.1 = e820Done ∧ Collecting s₀ x.2 rs := by
  have hst (v : ℕ) : st (.ofNat 16 bootinfoSeg) (8 / 8) (.ofNat 16 biErr) v s.mem =
      s.mem.store 1 (bootinfo + biErr) v := st_eq_store (by decide)
  refine leadsTo_block rfl ?_
  simp only [runBlock, Real.test, mov, movEs, jne, Cpu.read, Cpu.write, Cpu.setReg, Cpu.setMem,
    Cpu.flags, X86.Cpu.get, X86.Cpu.set, h.bp, BitVec.setWidth_eq, BitVec.and_self,
    setWidth_withLow_16, hst]
  by_cases hnil : rs = []
  · subst hnil
    rw [if_neg (by decide)]
    refine .now ⟨rfl, ?_⟩
    rw [if_pos rfl]
    exact ⟨rfl, load_store_self (by decide)⟩
  · have hne : (!BitVec.ofNat 32 rs.length == 0) = true := by
      have hpos := List.length_pos_iff.mpr hnil
      have hzero : BitVec.toNat (0 : BitVec 32) = 0 := rfl
      rw [Bool.not_eq_true', beq_eq_false_iff_ne, ne_eq, ← BitVec.toNat_inj, BitVec.toNat_ofNat,
        hzero]
      omega
    rw [if_pos hne]
    refine .now ⟨rfl, ?_⟩
    rw [if_neg hnil]
    exact ⟨rfl, h.ds, h.es, ⟨h.stack.ss, h.stack.ge, h.stack.le⟩, h.si, h.di, rfl, h.count,
      h.entries, h.frame⟩

/-- **The collection**: it fails if the first response is not taken, and only then. -/
theorem leadsTo_e820Done (hfw : Replies fw resp) (hstack : HasStack s) :
    LeadsTo (step fw gdtr k) (e820Start, s) fun x =>
      (∃ cs : List Call, x.2.calls = s.calls ++ cs ∧
        cs.map (fun c => c.before.ebx) = asked resp e820Max 0#32) ∧
      (x.1 = qizoFail16 ∧ ¬(resp 0#32).accepted ∧ x.2.mem.load 1 (bootinfo + biErr) = 0x14 ∨
        x.1 = e820Done ∧ (resp 0#32).accepted ∧ Collecting s x.2 (mapOf resp)) := by
  have hnil := @chain_eq_nil_iff resp e820Max (by decide) 0#32
  rw [← mapOf] at hnil
  refine LeadsTo.trans (leadsTo_start hstack) ?_
  rintro ⟨_, s₁⟩ ⟨rfl, h₁, hebx₁, hcalls₁⟩
  dsimp only at h₁ hebx₁ hcalls₁
  refine LeadsTo.trans (leadsTo_collected hfw e820Max h₁ rfl) ?_
  rintro ⟨l, s₂⟩ ⟨⟨cs, hcalls₂, hcs⟩, h₂, hend⟩
  dsimp only at hcalls₂ h₂ hend
  rw [hebx₁, List.nil_append, ← mapOf] at h₂ hend
  rw [hcalls₁] at hcalls₂
  rw [hebx₁] at hcs
  rcases hend with ⟨rfl, hfull⟩ | rfl
  · refine .now ⟨⟨cs, hcalls₂, hcs⟩, .inr ⟨rfl, not_not.mp fun hrej => ?_, h₂⟩⟩
    rw [hnil.mpr hrej] at hfull
    cases hfull
  · refine (leadsTo_checked h₂ (length_chain_le _ _)).mono ?_
    rintro ⟨l, s₃⟩ ⟨hcalls₃, hnext⟩
    dsimp only at hcalls₃ hnext
    refine ⟨⟨cs, hcalls₃.trans hcalls₂, hcs⟩, ?_⟩
    split at hnext
    · next hempty => exact .inl ⟨hnext.1, hnil.mp hempty, hnext.2⟩
    · next hsome =>
      exact .inr ⟨hnext.1, not_not.mp fun hrej => hsome (hnil.mpr hrej), hnext.2⟩

/-! ### What arrives -/

/-- The end of the 16-bit code: the entries in the buffer, and their number behind them and in
bootinfo. -/
structure Gathered (rs : List Response) (m : Memory) : Prop where
  count : m.load 4 e820Cnt = rs.length
  total : m.load 4 (bootinfo + biE820N) = rs.length
  entries : ∀ i r, rs[i]? = some r → m.Holds (e820Buf + 24 * i) r.entry

/-- Into protected mode with the entries. -/
theorem leadsTo_gathered (h : Collecting s₀ s rs) :
    LeadsTo (step fw gdtr k) (e820Done, s) fun x => x.1 = qizoPm32 ∧ Gathered rs x.2.mem ∧
      x.2.calls = s.calls := by
  refine (leadsTo_qizoPm32 h.ds h.stack).mono ?_
  rintro ⟨_, s₁⟩ ⟨rfl, htotal, hframe, hcalls⟩
  dsimp only at htotal hframe
  refine ⟨rfl, ⟨?_, htotal.trans h.count, fun i r hi => ?_⟩, hcalls⟩
  · rw [hframe.load_eq, h.count]
    intro x hx _
    simp only [pmWrites, outside_cons, outside_nil, and_true, e820Cnt, bootinfo, biE820N] at hx ⊢
    omega
  · refine (h.entries i r hi).of_eqOutside hframe fun x hx _ => ?_
    simp only [pmWrites, outside_cons, outside_nil, and_true, e820Buf, bootinfo, biE820N] at hx ⊢
    omega

/-- The map in bootinfo, and the number of its entries there and in the buffer. -/
structure HandedOver (rs : List Response) (m : Memory) : Prop where
  count : m.load 4 e820Cnt = rs.length
  total : m.load 4 (bootinfo + biE820N) = rs.length
  map : ∀ i r, rs[i]? = some r → m.Holds (bootinfo + biE820 + 24 * i) r.entry

/-- What the 32-bit code makes of it. -/
theorem Gathered.handedOver {m : Memory} {c : X86.Cpu} {k : X86.Link Stage2.Label}
    (h : Gathered rs m) (hle : rs.length ≤ 32) (hcall : Stage2.AdlerCall k m c) :
    HandedOver rs c.mem := by
  have hcount : Stage2.mapCount m = rs.length := by
    rw [Stage2.mapCount, h.total, e820Max, Nat.min_eq_left hle]
  have hmap := hcall.map_at
  rw [hcount] at hmap
  refine ⟨?_, hcall.count_eq.trans hcount, fun i r hi j b hb => ?_⟩
  · rw [hcall.frame.load_eq, h.count]
    intro x hx hx'
    simp only [Stage2.mapWrites, outside_cons, outside_nil, and_true, e820Cnt, bootinfo, biE820,
      biTotalRam, pmStack] at hx hx' ⊢
    omega
  · have hi' : i < rs.length := (List.getElem?_eq_some_iff.mp hi).1
    have hj : j < r.entry.length := (List.getElem?_eq_some_iff.mp hb).1
    have hlen : r.entry.length ≤ 24 := r.entry_le
    have hbyte : m (e820Buf + (24 * i + j)) = b := by
      rw [← Nat.add_assoc]
      exact h.entries i r hi j b hb
    rw [Nat.add_assoc, hmap (24 * i + j) b]
    rw [getElem?_bytes (by omega), hbyte]

/-- **The memory map is handed over.** The firmware may respond as it likes to each continuation
value. The first call has the value zero and each one behind it the value that came with the entry
before; they end when a response is not taken, when the value is zero, or with 32 entries. The
collection fails with code `0x14` if the first response is not taken, and only then. Otherwise the
32-bit code has the entries in bootinfo when it goes on to the kernel, in order, and their number in
both cells behind them. -/
theorem memoryMap_handed_over {fst : ℕ} {k' : X86.Link Stage2.Label} (hfw : Replies fw resp)
    (hstack : HasStack s) :
    (mapOf resp).length ≤ 32 ∧
    LeadsTo (step fw gdtr k) (e820Start, s) fun x =>
      (∃ cs : List Call, x.2.calls = s.calls ++ cs ∧
        cs.map (fun c => c.before.ebx) = asked resp e820Max 0#32 ∧
        mapOf resp = (cs.map fun c => resp c.before.ebx).filter Response.accepted) ∧
      (x.1 = qizoFail16 ∧ ¬(resp 0#32).accepted ∧ x.2.mem.load 1 (bootinfo + biErr) = 0x14 ∨
        x.1 = qizoPm32 ∧ (resp 0#32).accepted ∧
          LeadsTo (Stage2.step fst k') (.qizoPm32, x.2.toCpu) fun y => y.1 = .qizoAdler ∧
            HandedOver (mapOf resp) y.2.mem) := by
  have hle : (mapOf resp).length ≤ 32 := length_chain_le _ _
  refine ⟨hle, LeadsTo.trans (leadsTo_e820Done hfw hstack) ?_⟩
  rintro ⟨l, s₁⟩ ⟨⟨cs, hcalls₁, hcs⟩, hend⟩
  have hmap : mapOf resp = (cs.map fun c => resp c.before.ebx).filter Response.accepted := by
    rw [mapOf, chain_eq, ← hcs, List.map_map]
    rfl
  rcases hend with ⟨rfl, hrej, herr⟩ | ⟨rfl, hacc, h₁⟩
  · exact .now ⟨⟨cs, hcalls₁, hcs, hmap⟩, .inl ⟨rfl, hrej, herr⟩⟩
  · refine (leadsTo_gathered h₁).mono ?_
    rintro ⟨_, s₂⟩ ⟨rfl, hgathered, hcalls₂⟩
    refine ⟨⟨cs, hcalls₂.trans hcalls₁, hcs, hmap⟩, .inr ⟨rfl, hacc, ?_⟩⟩
    refine Stage2.leadsTo_qizoAdler_call.mono ?_
    rintro ⟨_, c⟩ ⟨rfl, hcall⟩
    exact ⟨rfl, hgathered.handedOver hle hcall⟩

/-! ### A map of two entries -/

/-- Firmware with given responses. -/
def firmwareOf (resp : BitVec 32 → Response) : Firmware := fun _ s =>
  { s with
    cf := (resp s.ebx).carry
    eax := (resp s.ebx).sig
    ecx := (resp s.ebx).size
    ebx := (resp s.ebx).next
    mem := s.mem.write (lin s.es (s.edi.setWidth 16)) (resp s.ebx).entry }

theorem replies_firmwareOf (resp : BitVec 32 → Response) : Replies (firmwareOf resp) resp :=
  fun _ _ => ⟨rfl, rfl, rfl, rfl, rfl, rfl, rfl, rfl, rfl, rfl, rfl, rfl⟩

/-- The low 640 KiB and 64 MiB from 1 MiB on, and the end. -/
def twoEntries (c : BitVec 32) : Response :=
  if c = 0#32 then
    ⟨false, .ofNat 32 smap, 20, leBytes 8 0 ++ leBytes 8 0xA0000 ++ leBytes 4 1, 1#32, by decide⟩
  else
    ⟨false, .ofNat 32 smap, 20, leBytes 8 0x100000 ++ leBytes 8 0x4000000 ++ leBytes 4 1, 0#32,
      by decide⟩

/-- The machine at `e820_start`. -/
def startCpu : Cpu where
  eax := 0
  ebx := 0
  ecx := 0
  edx := 0
  esi := 0
  edi := 0
  ebp := 0
  esp := 0x8FEE
  zf := false
  cf := false
  cr0 := 0
  cr3 := 0
  cr4 := 0
  idtr := ⟨0, 0⟩
  msr := fun _ => 0
  ins := fun _ => 0
  outs := []
  mem := fun _ => 0
  ds := 0
  es := .ofNat 16 bootinfoSeg
  ss := 0
  calls := []

/-- The labels, placed one after the other. -/
def consecutiveLink : Link Label where
  addr l := .ofNat 16 l.ctorIdx
  label a := Label.ofNat a.toNat
  label_addr l := by cases l <;> rfl

/-- Two entries are handed over. -/
theorem memoryMap_handed_over_twoEntries :
    mapOf twoEntries = [twoEntries 0#32, twoEntries 1#32] ∧
    LeadsTo (step (firmwareOf twoEntries) 0x200 consecutiveLink) (e820Start, startCpu) fun x =>
      x.1 = qizoPm32 ∧
        LeadsTo (Stage2.step 0x20000 Stage2.consecutiveLink) (.qizoPm32, x.2.toCpu) fun y =>
          y.1 = .qizoAdler ∧ HandedOver (mapOf twoEntries) y.2.mem := by
  have hfirst : (twoEntries 0#32).accepted = true := by decide
  have h := (@memoryMap_handed_over (firmwareOf twoEntries) 0x200 consecutiveLink startCpu
    twoEntries 0x20000 Stage2.consecutiveLink (replies_firmwareOf twoEntries)
    ⟨rfl, by decide, by decide⟩).2
  refine ⟨rfl, h.mono ?_⟩
  rintro x ⟨-, ⟨-, hrej, -⟩ | ⟨hl, -, hmap⟩⟩
  · exact absurd hfirst hrej
  · exact ⟨hl, hmap⟩

end E820

end Qizo
