import Qizo.Lib.X64

/-!
# Called routines of the 64-bit machine

The machine of `Qizo.Lib.X64` with a stack pointer, for routines that are called: `push`, `pop`,
double words in memory, `cpuid` and `ret`. At the entry of a routine the stack pointer points at
the return address.

Addresses wrap, so two places in memory are compared by the distance from the one up to the other
modulo `2 ^ 64`: a store of `n` bytes leaves a byte alone that is at least `n` above its start.

## Main results

* `stBytes_apply_of_le` — what a store leaves alone
* `ld32_st32`, `ld32_st32_of_apart` — reading back a double word, and reading one stored elsewhere
-/

namespace X64

open ByteString

/-! ### Double words -/

/-- The double word at an address. -/
def ld32 (m : Memory) (a : BitVec 64) : BitVec 32 :=
  .ofNat 32 (leNat ((List.range 4).map (ldByte m a)))

/-- Store a double word. -/
def st32 (m : Memory) (a : BitVec 64) (v : BitVec 32) : Memory := stBytes (leBytes 4 v.toNat) a m

/-! ### State -/

/-- The machine state of a called routine. -/
structure Frame extends Cpu where
  /-- Stack pointer. -/
  rsp : BitVec 64
  /-- Where the run goes on; only `ret` sets it. -/
  rip : BitVec 64

/-- The four words of an answer of `cpuid`. -/
structure Answer where
  /-- Accumulator. -/
  eax : BitVec 32
  /-- Base. -/
  ebx : BitVec 32
  /-- Counter. -/
  ecx : BitVec 32
  /-- Data. -/
  edx : BitVec 32
  deriving DecidableEq

/-- A processor, as far as `cpuid` tells: the answer for a leaf and a subleaf. -/
abbrev Processor := BitVec 32 → BitVec 32 → Answer

/-! ### Instructions -/

/-- `pushq r`. -/
def pushq (r : Reg) (s : Frame) : Frame :=
  { s with rsp := s.rsp - 8#64, mem := st64 s.mem (s.rsp - 8#64) (s.get r) }

/-- `popq r`. -/
def popq (r : Reg) (s : Frame) : Frame :=
  { s with toCpu := s.set r (ld64 s.mem s.rsp), rsp := s.rsp + 8#64 }

/-- `movl d(%rsp), r`. -/
def movlStack (d : BitVec 64) (r : Reg) (s : Frame) : Frame :=
  { s with toCpu := s.set r ((ld32 s.mem (s.rsp + d)).setWidth 64) }

/-- `movl r, d(base)`. -/
def movlStore (r : Reg) (d : BitVec 64) (base : Reg) (s : Frame) : Frame :=
  { s with mem := st32 s.mem (s.get base + d) ((s.get r).setWidth 32) }

/-- `cpuid`, which clears the high halves of its registers. -/
def cpuid (p : Processor) (s : Frame) : Frame :=
  let answer := p (s.rax.setWidth 32) (s.rcx.setWidth 32)
  { s with
    rax := answer.eax.setWidth 64
    rbx := answer.ebx.setWidth 64
    rcx := answer.ecx.setWidth 64
    rdx := answer.edx.setWidth 64 }

/-- `ret`. -/
def ret (s : Frame) : Frame := { s with rip := ld64 s.mem s.rsp, rsp := s.rsp + 8#64 }

/-- Run instructions one after the other. -/
def runAll (code : List (Frame → Frame)) (s : Frame) : Frame := code.foldl (fun s f => f s) s

/-! ### What a store changes -/

section Store

variable {m : Memory} {a b c : BitVec 64} {bs : List UInt8}

/-- **A store of `n` bytes leaves a byte alone that is `n` or more above its start.** -/
theorem stBytes_apply_of_le (h : bs.length ≤ (c - a).toNat) :
    stBytes bs a m c.toNat = m c.toNat := by
  induction bs generalizing a m with
  | nil => rfl
  | cons x bs ih =>
    rw [List.length_cons] at h
    have hne : c.toNat ≠ a.toNat := by bv_omega
    rw [stBytes, ih (by bv_omega), Function.update_of_ne hne]

/-- **The bytes of a store.** -/
theorem ldByte_stBytes {i : ℕ} {x : UInt8} (hlen : bs.length ≤ 2 ^ 64) (h : bs[i]? = some x) :
    ldByte (stBytes bs a m) a i = x := by
  induction bs generalizing a m i with
  | nil => simp at h
  | cons y bs ih =>
    rw [List.length_cons] at hlen
    cases i with
    | zero =>
      obtain rfl : y = x := by simpa using h
      -- the rest of the store starts one above and does not come round
      have hrest : bs.length ≤ (a - (a + 1#64)).toNat := by bv_omega
      rw [ldByte, BitVec.add_zero, stBytes, stBytes_apply_of_le hrest, Function.update_self]
    | succ i =>
      have hnext : a + BitVec.ofNat 64 (i + 1) = a + 1#64 + BitVec.ofNat 64 i := by
        rw [BitVec.add_assoc, ofNat_add_ofNat, Nat.add_comm]
      rw [ldByte, hnext, stBytes]
      exact ih (by omega) (by simpa using h)

theorem map_ldByte_stBytes (hlen : bs.length ≤ 2 ^ 64) :
    (List.range bs.length).map (ldByte (stBytes bs a m) a) = bs := by
  apply List.ext_getElem?
  intro i
  by_cases hi : i < bs.length
  · rw [List.getElem?_map, List.getElem?_range hi, Option.map_some,
      ldByte_stBytes hlen (List.getElem?_eq_getElem hi), List.getElem?_eq_getElem hi]
  · rw [List.getElem?_eq_none (by simpa using hi), List.getElem?_eq_none (by omega)]

/-- A byte that is `n` or more above the start of a store of `n` bytes. -/
theorem ldByte_stBytes_of_le {i : ℕ} (h : bs.length ≤ (b + BitVec.ofNat 64 i - a).toNat) :
    ldByte (stBytes bs a m) b i = ldByte m b i := stBytes_apply_of_le h

theorem ld32_st32 (v : BitVec 32) : ld32 (st32 m a v) a = v := by
  have hbytes := @map_ldByte_stBytes m a (leBytes 4 v.toNat) (by rw [length_leBytes]; decide)
  rw [length_leBytes] at hbytes
  rw [ld32, st32, hbytes, leNat_leBytes (by simpa using v.isLt), BitVec.ofNat_toNat,
    BitVec.setWidth_eq]

theorem ld64_st64 (v : BitVec 64) : ld64 (st64 m a v) a = v := by
  have hbytes := @map_ldByte_stBytes m a (leBytes 8 v.toNat) (by rw [length_leBytes]; decide)
  rw [length_leBytes] at hbytes
  rw [ld64, st64, hbytes, leNat_leBytes (by simpa using v.isLt), BitVec.ofNat_toNat,
    BitVec.setWidth_eq]

/-- Two memories with the same four bytes have the same double word. -/
theorem ld32_congr {m' : Memory} (h : ∀ i < 4, ldByte m' a i = ldByte m a i) :
    ld32 m' a = ld32 m a := by
  have hbytes : (List.range 4).map (ldByte m' a) = (List.range 4).map (ldByte m a) :=
    List.map_congr_left fun i hi => h i (List.mem_range.mp hi)
  rw [ld32, ld32, hbytes]

/-- Two memories with the same eight bytes have the same quad word. -/
theorem ld64_congr {m' : Memory} (h : ∀ i < 8, ldByte m' a i = ldByte m a i) :
    ld64 m' a = ld64 m a := by
  have hbytes : (List.range 8).map (ldByte m' a) = (List.range 8).map (ldByte m a) :=
    List.map_congr_left fun i hi => h i (List.mem_range.mp hi)
  rw [ld64, ld64, hbytes]

/-- A double word apart from the one that is stored. -/
theorem ld32_st32_of_apart {v : BitVec 32} (hlow : 4 ≤ (b - a).toNat)
    (hhigh : (b - a).toNat ≤ 2 ^ 64 - 4) : ld32 (st32 m a v) b = ld32 m b := by
  refine ld32_congr fun i hi => ldByte_stBytes_of_le ?_
  rw [length_leBytes]
  bv_omega

/-- A double word apart from a quad word that is stored. -/
theorem ld32_st64_of_apart {v : BitVec 64} (hlow : 8 ≤ (b - a).toNat)
    (hhigh : (b - a).toNat ≤ 2 ^ 64 - 4) : ld32 (st64 m a v) b = ld32 m b := by
  refine ld32_congr fun i hi => ldByte_stBytes_of_le ?_
  rw [length_leBytes]
  bv_omega

end Store

end X64
