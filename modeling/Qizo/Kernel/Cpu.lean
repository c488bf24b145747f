import Qizo.Lib.X64Stack
import Mathlib.Data.Fin.Tuple.Basic

/-!
# The identity of the processor

`qizo_cpu_init` of `kernel/drivers/cpu.c` and the routine `qizo_cpuid` of `kernel/boot64.S` that it
calls. The C code hands over the place for the four words, the leaf and the subleaf in `rdi`,
`esi` and `edx`; the routine takes leaf and subleaf from the two double words above its return
address, which are whatever the frame of the caller holds there. So `qizo_cpu_init` is modelled
with an arbitrary machine state at each of its calls.

## Main results

* `qizoCpuid_regs` — the words a call leaves in its array
* `returns_qizoCpuid` — a call comes back to its caller and changes nothing else
* `qizoCpuHas_eq` — the features that are reported
* `identified_iff` — when the kernel knows which processor it runs on
-/

namespace Qizo

namespace Cpu

open X64 ByteString

/-! ### The assembly -/

open Reg in
/-- `qizo_cpuid`. -/
def qizoCpuid (p : Processor) : Frame → Frame :=
  runAll [
    pushq rbx,
    movlStack 16#64 rax,
    movlStack 20#64 rcx,
    cpuid p,
    movlStore rax 0#64 rdi,
    movlStore rbx 4#64 rdi,
    movlStore rcx 8#64 rdi,
    movlStore rdx 12#64 rdi,
    popq rbx,
    ret]

/-- An array `u32 regs[4]`. -/
abbrev Regs := Fin 4 → BitVec 32

/-- The array of four words at an address. -/
def regsAt (m : Memory) (a : BitVec 64) : Regs := fun i => ld32 m (a + BitVec.ofNat 64 (4 * i))

/-- The words of an answer in the order in which they are stored. -/
def words (answer : Answer) : Regs
  | 0 => answer.eax
  | 1 => answer.ebx
  | 2 => answer.ecx
  | 3 => answer.edx

/-- The memory with an answer stored at an address. -/
def storeAnswer (m : Memory) (a : BitVec 64) (answer : Answer) : Memory :=
  st32 (st32 (st32 (st32 m a answer.eax) (a + 4#64) answer.ebx) (a + 8#64) answer.ecx)
    (a + 12#64) answer.edx

/-- The answer the routine gets: the one for the two double words above the return address. -/
def answered (p : Processor) (s : Frame) : Answer :=
  p (ld32 s.mem (s.rsp + 8#64)) (ld32 s.mem (s.rsp + 12#64))

theorem regsAt_storeAnswer (m : Memory) (a : BitVec 64) (answer : Answer) :
    regsAt (storeAnswer m a answer) a = words answer := by
  funext i
  match i with
  | 0 =>
    show ld32 (storeAnswer m a answer) (a + 0#64) = answer.eax
    rw [BitVec.add_zero, storeAnswer, ld32_st32_of_apart (by bv_omega) (by bv_omega),
      ld32_st32_of_apart (by bv_omega) (by bv_omega),
      ld32_st32_of_apart (by bv_omega) (by bv_omega), ld32_st32]
  | 1 =>
    show ld32 (storeAnswer m a answer) (a + 4#64) = answer.ebx
    rw [storeAnswer, ld32_st32_of_apart (by bv_omega) (by bv_omega),
      ld32_st32_of_apart (by bv_omega) (by bv_omega), ld32_st32]
  | 2 =>
    show ld32 (storeAnswer m a answer) (a + 8#64) = answer.ecx
    rw [storeAnswer, ld32_st32_of_apart (by bv_omega) (by bv_omega), ld32_st32]
  | 3 => exact ld32_st32 answer.edx

/-- An answer takes sixteen bytes. -/
theorem storeAnswer_apply_of_le {m : Memory} {a c : BitVec 64} {answer : Answer}
    (h : 16 ≤ (c - a).toNat) : storeAnswer m a answer c.toNat = m c.toNat := by
  have hlen : ∀ v : BitVec 32, (leBytes 4 v.toNat).length = 4 := fun v => length_leBytes 4 _
  rw [storeAnswer, st32, stBytes_apply_of_le (by rw [hlen]; bv_omega), st32,
    stBytes_apply_of_le (by rw [hlen]; bv_omega), st32,
    stBytes_apply_of_le (by rw [hlen]; bv_omega), st32,
    stBytes_apply_of_le (by rw [hlen]; bv_omega)]

section Run

variable (p : Processor) (s : Frame)

/-- **The memory behind a call.** -/
theorem mem_qizoCpuid :
    (qizoCpuid p s).mem =
      storeAnswer (st64 s.mem (s.rsp - 8#64) s.rbx) s.rdi (answered p s) := by
  have hleaf : ld32 (st64 s.mem (s.rsp - 8#64) s.rbx) (s.rsp - 8#64 + 16#64) =
      ld32 s.mem (s.rsp + 8#64) := by
    rw [ld32_st64_of_apart (by bv_omega) (by bv_omega)]
    exact congrArg (ld32 s.mem) (by bv_omega)
  have hsub : ld32 (st64 s.mem (s.rsp - 8#64) s.rbx) (s.rsp - 8#64 + 20#64) =
      ld32 s.mem (s.rsp + 12#64) := by
    rw [ld32_st64_of_apart (by bv_omega) (by bv_omega)]
    exact congrArg (ld32 s.mem) (by bv_omega)
  simp [qizoCpuid, runAll, pushq, movlStack, cpuid, movlStore, popq, ret, hleaf, hsub, answered,
    storeAnswer]

/-- **The words a call leaves in its array** are those for the double words above the return
address, whatever the argument registers hold. -/
theorem qizoCpuid_regs : regsAt (qizoCpuid p s).mem s.rdi = words (answered p s) := by
  rw [mem_qizoCpuid, regsAt_storeAnswer]

end Run

/-- What a caller relies on: the run goes on behind the call, with the stack pointer and `rbx` as
they were, and only the array and the stack below the frame have changed. -/
structure Returns (s s' : Frame) : Prop where
  rip : s'.rip = ld64 s.mem s.rsp
  rsp : s'.rsp = s.rsp + 8#64
  rbx : s'.rbx = s.rbx
  mem : ∀ c : BitVec 64, 16 ≤ (c - s.rdi).toNat → 8 ≤ (c - (s.rsp - 8#64)).toNat →
    s'.mem c.toNat = s.mem c.toNat

/-- **A call comes back**, if its array is not where the routine keeps `rbx` or the return
address. -/
theorem returns_qizoCpuid (p : Processor) {s : Frame}
    (h : ∀ i < 16, 16 ≤ (s.rsp - 8#64 + BitVec.ofNat 64 i - s.rdi).toNat) :
    Returns s (qizoCpuid p s) := by
  have hpushed : ∀ i < 16, ldByte (qizoCpuid p s).mem (s.rsp - 8#64) i =
      ldByte (st64 s.mem (s.rsp - 8#64) s.rbx) (s.rsp - 8#64) i := by
    intro i hi
    rw [mem_qizoCpuid]
    exact storeAnswer_apply_of_le (h i hi)
  have hquad : ∀ v : BitVec 64, (leBytes 8 v.toNat).length = 8 := fun v => length_leBytes 8 _
  refine ⟨?_, by show s.rsp - 8#64 + 8#64 + 8#64 = _; bv_omega, ?_, ?_⟩
  · show ld64 (qizoCpuid p s).mem (s.rsp - 8#64 + 8#64) = ld64 s.mem s.rsp
    have htop : s.rsp - 8#64 + 8#64 = s.rsp := by bv_omega
    rw [htop]
    refine ld64_congr fun i hi => ?_
    -- the return address is the second half of the sixteen bytes
    have hbyte : s.rsp + BitVec.ofNat 64 i = s.rsp - 8#64 + BitVec.ofNat 64 (8 + i) := by bv_omega
    rw [ldByte, hbyte]
    refine (hpushed (8 + i) (by omega)).trans ?_
    rw [st64, ldByte_stBytes_of_le (by rw [hquad]; bv_omega), ldByte, ← hbyte, ldByte]
  · show ld64 (qizoCpuid p s).mem (s.rsp - 8#64) = s.rbx
    rw [ld64_congr fun i hi => hpushed i (by omega), ld64_st64]
  · intro c hout hstack
    rw [mem_qizoCpuid, storeAnswer_apply_of_le hout, st64,
      stBytes_apply_of_le (by rw [hquad]; exact hstack)]

/-! ### The C code -/

/-- A machine state in which compiled code calls `qizo_cpuid(out, leaf, sub)`: the arguments are in
their registers, and everything else is arbitrary. -/
structure Call (leaf sub : BitVec 32) where
  /-- The state at the entry of the routine. -/
  entry : Frame
  leaf_eq : entry.rsi.setWidth 32 = leaf
  sub_eq : entry.rdx.setWidth 32 = sub

/-- What the array of a call holds when it is back. -/
def Call.regs {leaf sub : BitVec 32} (c : Call leaf sub) (p : Processor) : Regs :=
  regsAt (qizoCpuid p c.entry).mem c.entry.rdi

/-- The calls of `qizo_cpu_init`, in the order of the code. The first one for leaf 7 is left out:
nothing reads its array. -/
structure Calls where
  /-- `qizo_cpuid(regs, 0, 0)`. -/
  vendor : Call 0#32 0#32
  /-- `qizo_cpuid((u32 *)brand_string, 0x80000002, 0)`. -/
  brand2 : Call 0x80000002#32 0#32
  /-- `qizo_cpuid((u32 *)brand_string + 4, 0x80000003, 0)`. -/
  brand3 : Call 0x80000003#32 0#32
  /-- `qizo_cpuid((u32 *)brand_string + 8, 0x80000004, 0)`. -/
  brand4 : Call 0x80000004#32 0#32
  /-- `qizo_cpuid(regs, 1, 0)`. -/
  signature : Call 1#32 0#32
  /-- `qizo_cpuid(regs, 0x80000001, 0)`. -/
  extended : Call 0x80000001#32 0#32
  /-- `qizo_cpuid(regs, 7, 0)`. -/
  features : Call 7#32 0#32

/-- The static variables of `kernel/drivers/cpu.c`. -/
structure Statics where
  /-- `brand_string`. -/
  brandString : Fin 96 → UInt8
  /-- `vendor_string`. -/
  vendorString : Fin 16 → UInt8
  /-- `feat_bits`. -/
  featBits : BitVec 64
  /-- `cpu_family`. -/
  cpuFamily : BitVec 32
  /-- `cpu_model`. -/
  cpuModel : BitVec 32
  /-- `cpu_stepping`. -/
  cpuStepping : BitVec 32

/-- The bytes of an array of four words. -/
def Regs.byte (regs : Regs) (i : Fin 16) : UInt8 :=
  .ofNat ((regs ⟨i / 4, by omega⟩).toNat / 256 ^ (i.val % 4))

/-- `tag`, filled from the three words behind the first. -/
def tagOf (regs : Regs) : Fin 13 → UInt8 :=
  Fin.snoc (fun i : Fin 12 => regs.byte (i.natAdd 4)) 0

/-- The copy of the tag into `vendor_string`. -/
def copyTag (tag : Fin 13 → UInt8) (v : Fin 16 → UInt8) : Fin 16 → UInt8 :=
  Function.update
    ((List.finRange 12).foldl
      (fun v i => Function.update v (i.castLE (by decide)) (tag i.castSucc)) v)
    12 0

/-- The first loop of `trim_ascii`: what is not printable becomes a blank. A `char` is signed in the
source, so that the bytes from 128 on are below 32; they are above 126 here. -/
def blanked (n : ℕ) (s : Fin 96 → UInt8) : Fin 96 → UInt8 :=
  fun i => if i.val < n ∧ (s i < 32 ∨ 126 < s i) then 32 else s i

/-- The second loop of `trim_ascii`: one behind the last byte that is not zero. -/
def lastByte (n : ℕ) (s : Fin 96 → UInt8) : ℕ :=
  (List.finRange 96).foldl (fun len i => if i.val < n ∧ s i ≠ 0 then i + 1 else len) 0

/-- The third loop of `trim_ascii`: blanks at the end are dropped. -/
def dropBlanks (s : Fin 96 → UInt8) : ℕ → ℕ
  | 0 => 0
  | len + 1 => if s (Fin.ofNat 96 len) = 32 then dropBlanks s len else len + 1

/-- `trim_ascii`, for `brand_string`. -/
def trimAscii (n : ℕ) (s : Fin 96 → UInt8) : Fin 96 → UInt8 :=
  Function.update (blanked n s)
    (Fin.ofNat 96 (dropBlanks (blanked n s) (lastByte n (blanked n s)))) 0

/-- Four words written into `brand_string` from a word on. -/
def putWords (regs : Regs) (k : ℕ) (s : Fin 96 → UInt8) : Fin 96 → UInt8 :=
  fun i => if h : 4 * k ≤ i.val ∧ i.val < 4 * k + 16 then regs.byte ⟨i - 4 * k, by omega⟩ else s i

/-- The `QIZO_FEAT_` constants. -/
inductive Feature where
  | sse2 | sse3 | ssse3 | sse41 | sse42 | avx | avx2 | avx512f | bmi2 | fsgsbase | smep | smap
  | erms | oneGb | popcnt | lahf
  deriving DecidableEq

/-- The position of a feature in `feat_bits`. -/
def Feature.pos : Feature → ℕ
  | sse2 => 0
  | sse3 => 1
  | ssse3 => 2
  | sse41 => 3
  | sse42 => 4
  | avx => 5
  | avx2 => 6
  | avx512f => 7
  | bmi2 => 8
  | fsgsbase => 9
  | smep => 10
  | smap => 11
  | erms => 12
  | oneGb => 13
  | popcnt => 14
  | lahf => 15

/-- The value of a feature constant. -/
def Feature.mask (f : Feature) : BitVec 64 := 1#64 <<< f.pos

/-- `word & (1 << k)`, as a condition. -/
def isSet {w : ℕ} (word : BitVec w) (k : ℕ) : Bool := word &&& 1#w <<< k != 0#w

/-- A sequence of `if (condition) feat_bits |= feature`. -/
def collect (checks : List (Bool × Feature)) (feat : BitVec 64) : BitVec 64 :=
  checks.foldl (fun feat x => if x.1 then feat ||| x.2.mask else feat) feat

/-- The feature checks of `qizo_cpu_init`, in the order of the code. -/
def checksOf (maxLeaf : BitVec 32) (sig ext seven : Regs) (cr4 : BitVec 64) :
    List (Bool × Feature) :=
  [ (isSet (sig 3) 26, .sse2), (isSet (sig 2) 0, .sse3), (isSet (sig 2) 9, .ssse3),
    (isSet (sig 2) 19, .sse41), (isSet (sig 2) 20, .sse42), (isSet (sig 2) 23, .popcnt),
    (isSet (sig 2) 27, .avx),
    (isSet (ext 3) 0, .lahf), (isSet (ext 3) 29, .oneGb) ] ++
  (if 7#32 ≤ maxLeaf then
    [ (isSet (seven 1) 5, .avx2), (isSet (seven 1) 8, .bmi2), (isSet (seven 1) 16, .avx512f),
      (isSet (seven 3) 2, .fsgsbase), (isSet (seven 3) 4, .erms) ]
  else []) ++
  [ (isSet cr4 20, .smep), (isSet cr4 21, .smap) ]

/-- `cpu_family` before the extension. -/
def baseFamily (eax : BitVec 32) : BitVec 32 := eax >>> 8 &&& 0xF#32

/-- What becomes `cpu_model`. -/
def modelOf (eax : BitVec 32) : BitVec 32 :=
  if baseFamily eax = 6#32 ∨ baseFamily eax = 15#32 then
    (eax >>> 4 &&& 0xF#32) + (eax >>> 16 &&& 0xF#32)
  else eax >>> 4 &&& 0xF#32

/-- What becomes `cpu_family`. -/
def familyOf (eax : BitVec 32) : BitVec 32 :=
  if baseFamily eax = 15#32 then baseFamily eax + (eax >>> 20 &&& 0xFF#32) else baseFamily eax

/-- What becomes `brand_string`. -/
def brandOf (p : Processor) (c : Calls) (info : Option (BitVec 32)) (s : Fin 96 → UInt8) :
    Fin 96 → UInt8 :=
  if info.any (0x80000004#32 ≤ ·) then
    trimAscii 95 (putWords (c.brand4.regs p) 8
      (putWords (c.brand3.regs p) 4 (putWords (c.brand2.regs p) 0 s)))
  else s

/-- `qizo_cpu_init`; of the boot information it reads `cpuid_max`, if there is any. -/
def qizoCpuInit (p : Processor) (c : Calls) (info : Option (BitVec 32)) (cr4 : BitVec 64)
    (g : Statics) : Statics :=
  let regs := c.vendor.regs p
  let sig := c.signature.regs p
  { brandString := brandOf p c info (Function.update g.brandString 0 0)
    vendorString := copyTag (tagOf regs) (Function.update g.vendorString 0 0)
    featBits := collect (checksOf (regs 0) sig (c.extended.regs p) (c.features.regs p) cr4) 0#64
    cpuFamily := familyOf (sig 0)
    cpuModel := modelOf (sig 0)
    cpuStepping := sig 0 &&& 0xF#32 }

/-- `qizo_cpu_has`. -/
def qizoCpuHas (g : Statics) (feature : BitVec 64) : Bool := g.featBits &&& feature != 0#64

/-! ### The vendor string -/

section Vendor

variable (tag : Fin 13 → UInt8) (v : Fin 16 → UInt8)

/-- A loop that writes to different places. -/
theorem foldl_update_apply {ι κ : Type} [DecidableEq κ] {f : ι → κ} (hf : f.Injective)
    (t : ι → UInt8) (l : List ι) (v : κ → UInt8) (i : ι) (hi : i ∈ l) :
    l.foldl (fun v i => Function.update v (f i) (t i)) v (f i) = t i := by
  induction l using List.reverseRecOn with
  | nil => simp at hi
  | append_singleton l j ih =>
    rw [List.foldl_append, List.foldl_cons, List.foldl_nil]
    by_cases hij : i = j
    · rw [hij, Function.update_self]
    · rw [Function.update_of_ne (hf.ne hij)]
      refine ih ?_
      simpa [hij] using hi

theorem copyTag_castLE (i : Fin 12) : copyTag tag v (i.castLE (by decide)) = tag i.castSucc := by
  have hne : (i.castLE (by decide) : Fin 16) ≠ 12 := by
    intro h
    have hval : i.val = 12 := congrArg Fin.val h
    omega
  rw [copyTag, Function.update_of_ne hne]
  exact foldl_update_apply (Fin.castLE_injective _) (fun i => tag i.castSucc) _ v i
    (List.mem_finRange i)

theorem copyTag_end : copyTag tag v 12 = 0 := by
  rw [copyTag, Function.update_self]

/-- The text of a vendor: three words, four bytes each. -/
def vendorText (a b c : BitVec 32) : List UInt8 :=
  leBytes 4 a.toNat ++ leBytes 4 b.toNat ++ leBytes 4 c.toNat

theorem vendorText_inj {a b c a' b' c' : BitVec 32} :
    vendorText a b c = vendorText a' b' c' ↔ a = a' ∧ b = b' ∧ c = c' := by
  have hword : ∀ x y : BitVec 32, leBytes 4 x.toNat = leBytes 4 y.toNat → x = y := by
    intro x y h
    exact BitVec.eq_of_toNat_eq (leBytes_inj (by simpa using x.isLt) (by simpa using y.isLt) h)
  constructor
  · intro h
    obtain ⟨hab, hc⟩ := List.append_inj h (by simp)
    obtain ⟨ha, hb⟩ := List.append_inj hab (by simp)
    exact ⟨hword a a' ha, hword b b' hb, hword c c' hc⟩
  · rintro ⟨rfl, rfl, rfl⟩
    rfl

/-- The first bytes of `vendor_string`, with the one that ends it. -/
def Statics.vendor (g : Statics) : List UInt8 :=
  List.ofFn fun i : Fin 13 => g.vendorString (i.castLE (by decide))

theorem ofFn_byte (regs : Regs) :
    List.ofFn (fun i : Fin 12 => regs.byte (i.natAdd 4)) =
      vendorText (regs 1) (regs 2) (regs 3) := by
  simp [vendorText, leBytes, List.ofFn_succ, Regs.byte, Nat.div_div_eq_div_mul]

end Vendor

section Init

variable (p : Processor) (c : Calls) (info : Option (BitVec 32)) (cr4 : BitVec 64) (g : Statics)

/-- **The vendor string** is the second, third and fourth word in the order of the array. -/
theorem vendor_qizoCpuInit :
    (qizoCpuInit p c info cr4 g).vendor =
      vendorText (c.vendor.regs p 1) (c.vendor.regs p 2) (c.vendor.regs p 3) ++ [0] := by
  have hcopied : ∀ i : Fin 12,
      copyTag (tagOf (c.vendor.regs p)) (Function.update g.vendorString 0 0)
        (i.castLE (by decide)) = (c.vendor.regs p).byte (i.natAdd 4) := by
    intro i
    rw [copyTag_castLE, tagOf, Fin.snoc_castSucc]
  have hlast := copyTag_end (tagOf (c.vendor.regs p)) (Function.update g.vendorString 0 0)
  rw [Statics.vendor, List.ofFn_succ_last, ← ofFn_byte]
  exact congrArg₂ (fun l b => l ++ [b]) (congrArg List.ofFn (funext hcopied)) hlast

end Init

/-! ### The features -/

section Features

/-- Masking with one bit asks for it. -/
theorem isSet_eq {w : ℕ} (word : BitVec w) {k : ℕ} (hk : k < w) :
    isSet word k = word.getLsbD k := by
  have hne : BitVec.twoPow w k ≠ 0#w := by
    intro h
    have hbit := congrArg (·.getLsbD k) h
    simp [hk] at hbit
  rw [isSet, ← BitVec.twoPow_eq, BitVec.and_twoPow]
  cases word.getLsbD k with
  | false => simp
  | true => simpa using hne

theorem Feature.pos_lt (f : Feature) : f.pos < 64 := by
  cases f <;> decide

theorem Feature.pos_injective : Function.Injective Feature.pos := by
  intro f f' h
  cases f <;> cases f' <;> first | rfl | exact absurd h (by decide)

theorem Feature.getLsbD_mask (f f' : Feature) : f.mask.getLsbD f'.pos = decide (f = f') := by
  rw [Feature.mask, ← BitVec.twoPow_eq, BitVec.getLsbD_twoPow, decide_eq_true f.pos_lt,
    Bool.true_and, decide_eq_decide]
  exact Feature.pos_injective.eq_iff

/-- A feature is collected if one of its checks succeeds. -/
theorem getLsbD_collect (f : Feature) (checks : List (Bool × Feature)) (feat : BitVec 64) :
    (collect checks feat).getLsbD f.pos =
      (feat.getLsbD f.pos || checks.any fun x => x.1 && decide (x.2 = f)) := by
  induction checks generalizing feat with
  | nil => simp [collect]
  | cons x checks ih =>
    rw [collect, List.foldl_cons]
    refine (ih _).trans ?_
    rw [List.any_cons]
    cases hx : x.1 with
    | false => simp
    | true => simp [Feature.getLsbD_mask, Bool.or_assoc]

/-- **The features that are reported** are those one of whose checks succeeds. -/
theorem qizoCpuHas_eq (p : Processor) (c : Calls) (info : Option (BitVec 32)) (cr4 : BitVec 64)
    (g : Statics) (f : Feature) :
    qizoCpuHas (qizoCpuInit p c info cr4 g) f.mask =
      (checksOf (c.vendor.regs p 0) (c.signature.regs p) (c.extended.regs p) (c.features.regs p)
        cr4).any fun x => x.1 && decide (x.2 = f) := by
  have hfeat : (qizoCpuInit p c info cr4 g).featBits =
      collect (checksOf (c.vendor.regs p 0) (c.signature.regs p) (c.extended.regs p)
        (c.features.regs p) cr4) 0#64 := by
    rw [qizoCpuInit]
  have hhas : qizoCpuHas (qizoCpuInit p c info cr4 g) f.mask =
      isSet (qizoCpuInit p c info cr4 g).featBits f.pos := by
    rw [qizoCpuHas, isSet, Feature.mask]
  rw [hhas, isSet_eq _ f.pos_lt, hfeat, getLsbD_collect, BitVec.getLsbD_zero, Bool.false_or]

end Features

/-! ### The signature -/

/-- A field of a word: `n` bits from bit `lo` on. -/
def field (w : BitVec 32) (lo n : ℕ) : ℕ := w.toNat / 2 ^ lo % 2 ^ n

theorem field_lt (w : BitVec 32) (lo n : ℕ) : field w lo n < 2 ^ n :=
  Nat.mod_lt _ (Nat.two_pow_pos n)

/-- The stepping of a processor, by its signature. -/
def archStepping (eax : BitVec 32) : ℕ := field eax 0 4

/-- The family of a processor, by its signature. -/
def archFamily (eax : BitVec 32) : ℕ :=
  if field eax 8 4 = 15 then 15 + field eax 20 8 else field eax 8 4

/-- The model of a processor, by its signature. -/
def archModel (eax : BitVec 32) : ℕ :=
  if field eax 8 4 = 6 ∨ field eax 8 4 = 15 then field eax 4 4 + 16 * field eax 16 4
  else field eax 4 4

section Signature

variable (eax : BitVec 32)

/-- Shifting and masking is taking a field. -/
theorem toNat_shift_and (lo n : ℕ) (hn : n < 32) :
    (eax >>> lo &&& BitVec.ofNat 32 (2 ^ n - 1)).toNat = field eax lo n := by
  have hpow : 2 ^ n < 2 ^ 32 := Nat.pow_lt_pow_right (by decide) hn
  rw [BitVec.toNat_and, BitVec.toNat_ushiftRight, BitVec.toNat_ofNat,
    Nat.mod_eq_of_lt (by omega), Nat.and_two_pow_sub_one_eq_mod, Nat.shiftRight_eq_div_pow, field]

theorem toNat_stepping : (eax &&& 0xF#32).toNat = archStepping eax := by
  have h := toNat_shift_and eax 0 4 (by decide)
  rwa [BitVec.ushiftRight_zero] at h

theorem toNat_baseFamily : (baseFamily eax).toNat = field eax 8 4 :=
  toNat_shift_and eax 8 4 (by decide)

theorem baseFamily_eq_iff {k : ℕ} (hk : k < 2 ^ 32) :
    baseFamily eax = BitVec.ofNat 32 k ↔ field eax 8 4 = k := by
  rw [← BitVec.toNat_inj, toNat_baseFamily, BitVec.toNat_ofNat, Nat.mod_eq_of_lt hk]

theorem toNat_familyOf : (familyOf eax).toNat = archFamily eax := by
  have hext : (eax >>> 20 &&& 0xFF#32).toNat = field eax 20 8 :=
    toNat_shift_and eax 20 8 (by decide)
  have hlt := field_lt eax 20 8
  rw [familyOf, archFamily, if_congr (baseFamily_eq_iff eax (by decide)) rfl rfl]
  split
  · next h =>
    rw [BitVec.toNat_add, toNat_baseFamily, hext, h, Nat.mod_eq_of_lt (by omega)]
  · exact toNat_baseFamily eax

/-- **The model as the code computes it** has the extension added, not put in front. -/
theorem toNat_modelOf :
    (modelOf eax).toNat =
      if field eax 8 4 = 6 ∨ field eax 8 4 = 15 then field eax 4 4 + field eax 16 4
      else field eax 4 4 := by
  have hbase : (eax >>> 4 &&& 0xF#32).toNat = field eax 4 4 := toNat_shift_and eax 4 4 (by decide)
  have hext : (eax >>> 16 &&& 0xF#32).toNat = field eax 16 4 := toNat_shift_and eax 16 4 (by decide)
  have hlt := field_lt eax 4 4
  have hlt' := field_lt eax 16 4
  rw [modelOf, if_congr (or_congr (baseFamily_eq_iff eax (by decide))
    (baseFamily_eq_iff eax (by decide))) rfl rfl]
  split
  · rw [BitVec.toNat_add, hbase, hext, Nat.mod_eq_of_lt (by omega)]
  · exact hbase

/-- Two signatures of one family. -/
theorem archFamily_eq_iff {eax eax' : BitVec 32} :
    archFamily eax = archFamily eax' ↔
      field eax 8 4 = field eax' 8 4 ∧
        (field eax' 8 4 = 15 → field eax 20 8 = field eax' 20 8) := by
  have hlt := field_lt eax 8 4
  have hlt' := field_lt eax' 8 4
  unfold archFamily
  split <;> split <;> omega

end Signature

/-! ### The identity -/

/-- **The kernel knows its processor**: the vendor is in the string, as leaf 0 spells it, and
stepping, family and model are those of the signature. -/
structure Identified (p : Processor) (g : Statics) : Prop where
  vendor : g.vendor = vendorText (p 0#32 0#32).ebx (p 0#32 0#32).edx (p 0#32 0#32).ecx ++ [0]
  stepping : g.cpuStepping.toNat = archStepping (p 1#32 0#32).eax
  family : g.cpuFamily.toNat = archFamily (p 1#32 0#32).eax
  model : g.cpuModel.toNat = archModel (p 1#32 0#32).eax

/-- The answer to the call for the vendor has the words of leaf 0, with the last two
exchanged. -/
structure SwapsVendor (answer leaf0 : Answer) : Prop where
  ebx : answer.ebx = leaf0.ebx
  ecx : answer.ecx = leaf0.edx
  edx : answer.edx = leaf0.ecx

/-- A signature that reads like another one although the extended model is only added. -/
structure ReadsLike (eax eax' : BitVec 32) : Prop where
  stepping : field eax 0 4 = field eax' 0 4
  family : field eax 8 4 = field eax' 8 4
  extendedFamily : field eax' 8 4 = 15 → field eax 20 8 = field eax' 20 8
  model : field eax' 8 4 ≠ 6 → field eax' 8 4 ≠ 15 → field eax 4 4 = field eax' 4 4
  extendedModel : field eax' 8 4 = 6 ∨ field eax' 8 4 = 15 →
    field eax 4 4 + field eax 16 4 = field eax' 4 4 + 16 * field eax' 16 4

theorem readsLike_iff {eax eax' : BitVec 32} :
    ReadsLike eax eax' ↔
      (eax &&& 0xF#32).toNat = archStepping eax' ∧ (familyOf eax).toNat = archFamily eax' ∧
        (modelOf eax).toNat = archModel eax' := by
  rw [toNat_stepping, toNat_familyOf, toNat_modelOf, archFamily_eq_iff, archModel]
  constructor
  · rintro ⟨hstep, hfam, hext, hmodel, hextm⟩
    refine ⟨hstep, ⟨hfam, hext⟩, ?_⟩
    rw [hfam]
    split
    · next h => exact hextm h
    · next h =>
      rw [not_or] at h
      exact hmodel h.1 h.2
  · rintro ⟨hstep, ⟨hfam, hext⟩, hmodel⟩
    rw [hfam] at hmodel
    refine ⟨hstep, hfam, hext, fun h6 h15 => ?_, fun h => ?_⟩
    · rwa [if_neg (by tauto), if_neg (by tauto)] at hmodel
    · rwa [if_pos h, if_pos h] at hmodel

section Init

variable (p : Processor) (c : Calls) (info : Option (BitVec 32)) (cr4 : BitVec 64) (g : Statics)

/-- The vendor string is right for the answers with two words exchanged. -/
theorem vendor_iff :
    (qizoCpuInit p c info cr4 g).vendor =
        vendorText (p 0#32 0#32).ebx (p 0#32 0#32).edx (p 0#32 0#32).ecx ++ [0] ↔
      SwapsVendor (answered p c.vendor.entry) (p 0#32 0#32) := by
  have hregs : c.vendor.regs p = words (answered p c.vendor.entry) := qizoCpuid_regs p _
  rw [vendor_qizoCpuInit, hregs, List.append_left_inj, vendorText_inj]
  constructor
  · rintro ⟨hb, hc, hd⟩
    exact ⟨hb, hc, hd⟩
  · rintro ⟨hb, hc, hd⟩
    exact ⟨hb, hc, hd⟩

/-- Stepping, family and model are right for the answers that read like the signature. -/
theorem signature_iff :
    ReadsLike (answered p c.signature.entry).eax (p 1#32 0#32).eax ↔
      (qizoCpuInit p c info cr4 g).cpuStepping.toNat = archStepping (p 1#32 0#32).eax ∧
        (qizoCpuInit p c info cr4 g).cpuFamily.toNat = archFamily (p 1#32 0#32).eax ∧
        (qizoCpuInit p c info cr4 g).cpuModel.toNat = archModel (p 1#32 0#32).eax := by
  have heax : c.signature.regs p 0 = (answered p c.signature.entry).eax :=
    congrFun (qizoCpuid_regs p c.signature.entry) 0
  rw [readsLike_iff, ← heax]
  rfl

/-- **When the kernel knows which processor it runs on.** Whatever the states at the calls, it is
the answers for the double words above the return addresses that count. -/
theorem identified_iff :
    Identified p (qizoCpuInit p c info cr4 g) ↔
      SwapsVendor (answered p c.vendor.entry) (p 0#32 0#32) ∧
        ReadsLike (answered p c.signature.entry).eax (p 1#32 0#32).eax := by
  rw [← vendor_iff p c info cr4 g, signature_iff p c info cr4 g]
  constructor
  · intro h
    exact ⟨h.vendor, h.stepping, h.family, h.model⟩
  · rintro ⟨hvendor, hstepping, hfamily, hmodel⟩
    exact ⟨hvendor, hstepping, hfamily, hmodel⟩

variable {p c} in
/-- **Arguments on the stack.** Even where the double words above the return addresses are the
leaf and the subleaf that are asked for, the vendor is right only if its last two words are the
same, and the model only if it is not extended. -/
theorem identified_iff_of_passed (hvendor : answered p c.vendor.entry = p 0#32 0#32)
    (hsig : answered p c.signature.entry = p 1#32 0#32) :
    (qizoCpuInit p c info cr4 g).vendor =
          vendorText (p 0#32 0#32).ebx (p 0#32 0#32).edx (p 0#32 0#32).ecx ++ [0] ∧
        (qizoCpuInit p c info cr4 g).cpuModel.toNat = archModel (p 1#32 0#32).eax ↔
      (p 0#32 0#32).ecx = (p 0#32 0#32).edx ∧
        (field (p 1#32 0#32).eax 8 4 = 6 ∨ field (p 1#32 0#32).eax 8 4 = 15 →
          field (p 1#32 0#32).eax 16 4 = 0) := by
  have hmodel : (qizoCpuInit p c info cr4 g).cpuModel = modelOf (p 1#32 0#32).eax := by
    have heax := congrFun (qizoCpuid_regs p c.signature.entry) 0
    rw [hsig] at heax
    exact congrArg modelOf heax
  rw [vendor_iff, hvendor, hmodel, toNat_modelOf, archModel]
  refine and_congr ⟨fun h => h.ecx, fun h => ⟨rfl, h, h.symm⟩⟩ ?_
  split
  · next hext =>
    rw [Nat.add_left_cancel_iff, imp_iff_right hext]
    omega
  · next hext => simp only [hext, false_imp_iff]

end Init

/-! ### A processor that is not identified -/

/-- A state at a call with nothing but zeros in memory. -/
def blankCall (leaf : BitVec 32) : Call leaf 0#32 where
  entry :=
    { rax := 0#64, rbx := 0#64, rcx := 0#64, rdx := 0#64, rsi := leaf.setWidth 64
      rdi := 0x1FFF00#64, r8 := 0#64, r9 := 0#64, xmm0 := fun _ => 0, xmm1 := fun _ => 0
      zf := false, cf := false, sf := false, of := false, cr0 := 0#64, cr3 := 0#64, cr4 := 0#64
      msr := fun _ => 0#64, mem := fun _ => 0, rsp := 0x1FFE00#64, rip := 0#64 }
  leaf_eq := by simp
  sub_eq := rfl

/-- The calls of `qizo_cpu_init`, all with zeros in memory. -/
def blankCalls : Calls :=
  ⟨blankCall _, blankCall _, blankCall _, blankCall _, blankCall _, blankCall _, blankCall _⟩

/-- A processor that answers "GenuineIntel" and the signature of family 6, model 0x9E. -/
def genuineIntel : Processor := fun leaf _ =>
  if leaf = 0#32 then ⟨0x16#32, 0x756E6547#32, 0x6C65746E#32, 0x49656E69#32⟩
  else if leaf = 1#32 then ⟨0x906EA#32, 0x100800#32, 0x7FFAFBBF#32, 0xBFEBFBFF#32⟩
  else ⟨0#32, 0#32, 0#32, 0#32⟩

/-- Static variables before the start. -/
def blankStatics : Statics := ⟨fun _ => 0, fun _ => 0, 0#64, 0#32, 0#32, 0#32⟩

/-- The vendor becomes "GenuntelineI". -/
theorem not_identified_genuineIntel :
    ¬Identified genuineIntel (qizoCpuInit genuineIntel blankCalls none 0#64 blankStatics) := by
  intro h
  have hswap := (vendor_iff genuineIntel blankCalls none 0#64 blankStatics).mp h.vendor
  exact absurd hswap.ecx (by decide)

end Cpu

end Qizo
