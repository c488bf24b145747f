import Qizo.Boot.Decompress
import Qizo.Boot.Routines
import Qizo.Image.Written

/-!
# Raw containers

The builder can leave the module as it is: `--raw` puts a zero word and the length in front of it
and fills up the last sector. `qizo_decompress` knows such a container by its first word and copies
it byte by byte, all of it: the length is the one in `ecx`, which is that of the blob, and the copy
starts where the container does. So the module ends up eight bytes behind the place where its header
is looked for.

## Main results

* `leadsTo_rawCopied` — the copy loop
* `rawPayload_at_scratch_iff` — the payloads for which it makes no difference
-/

namespace Qizo

namespace Stage2

open X86 Reg Operand Label StateTransition ByteString Memory Python Image

variable {fst : ℕ} {k : Link Label} {s s₀ : Cpu} {src payload blob : List UInt8} {i : ℕ}

/-! ### The copy -/

/-- At the top of the loop with `i` bytes copied. -/
structure RawCopying (s₀ : Cpu) (src : List UInt8) (i : ℕ) (s : Cpu) : Prop where
  esi : s.esi = .ofNat 32 (s₀.esi.toNat + i)
  edi : s.edi = .ofNat 32 (s₀.edi.toNat + i)
  edx : s.edx = .ofNat 32 (s₀.edi.toNat + src.length)
  ecx : s.ecx = .ofNat 32 (src.length - i)
  esp : s.esp = .ofNat 32 (s₀.esp.toNat - 16)
  copied : s.mem.Holds s₀.edi.toNat (src.take i)
  frame : EqOutside (savedMem s₀) s.mem [(s₀.edi.toNat, src.length)]

/-- The container stays where it is. -/
theorem RawCopying.byte (h : RawCopying s₀ src i s) (hl : DecompLayout s₀ src.length src.length)
    (hsrc : s₀.mem.Holds s₀.esi.toNat src) (hi : i < src.length) :
    s.mem (s₀.esi.toNat + i) = src[i] := by
  have hsp := hl.sp_ge
  have hdis := hl.inp_dst
  have hdis' := hl.inp_sp
  have hsaved := hsrc.of_eqOutside (savedMem_frame (s := s₀) (by omega)) fun x _ _ => by
    simp only [outside_cons, outside_nil, and_true]
    omega
  refine hsaved.of_eqOutside h.frame (fun x _ _ => ?_) i _ (List.getElem?_eq_getElem hi)
  simp only [outside_cons, outside_nil, and_true]
  omega

/-- There are bytes left. -/
theorem leadsTo_decompCopyByte (h : RawCopying s₀ src i s)
    (hl : DecompLayout s₀ src.length src.length) (hi : i < src.length) :
    LeadsTo (within fst k (mayTouch s₀ src.length src.length) (mayWrite s₀ src.length))
      (decompTop, s)
      fun x => x.1 = decompCopyByte ∧ RawCopying s₀ src i x.2 := by
  have hin := hl.inp_le
  have hout := hl.dst_lt
  have hbelow : (BitVec.ofNat 32 (s₀.edi.toNat + i)).toNat <
      (BitVec.ofNat 32 (s₀.edi.toNat + src.length)).toNat := by
    rw [toNat_ofNat_of_lt (by omega), toNat_ofNat_of_lt (by omega)]
    omega
  have hleft : (BitVec.ofNat 32 (src.length - i) == 0#32) = false := by
    rw [ofNat_beq_zero (by omega), decide_eq_false_iff_not]
    omega
  refine leadsTo_within rfl contained_decompTop rfl ?_
  simp only [runBlock, cmpl, testl, addl, jae, jne, je, Cpu.read, Cpu.write, Cpu.get, Cpu.set,
    h.edi, h.edx, h.ecx, BitVec.and_self, hleft]
  rw [if_neg (by simpa using hbelow), if_pos (by rfl)]
  exact .now ⟨rfl, h.esi, rfl, rfl, rfl, h.esp, h.copied, h.frame⟩

/-- **One byte.** -/
theorem leadsTo_rawCopying_succ (h : RawCopying s₀ src i s)
    (hl : DecompLayout s₀ src.length src.length) (hsrc : s₀.mem.Holds s₀.esi.toNat src)
    (hi : i < src.length) :
    LeadsTo (within fst k (mayTouch s₀ src.length src.length) (mayWrite s₀ src.length))
      (decompTop, s)
      fun x => x.1 = decompTop ∧ RawCopying s₀ src (i + 1) x.2 := by
  have hin := hl.inp_le
  have hout := hl.dst_lt
  have hesi : (BitVec.ofNat 32 (s₀.esi.toNat + i)).toNat = s₀.esi.toNat + i :=
    toNat_ofNat_of_lt (by omega)
  have hedi : (BitVec.ofNat 32 (s₀.edi.toNat + i)).toNat = s₀.edi.toNat + i :=
    toNat_ofNat_of_lt (by omega)
  refine (leadsTo_decompCopyByte h hl hi).trans ?_
  rintro ⟨_, s₁⟩ ⟨rfl, h₁⟩
  dsimp only at h₁
  have hbyte := h₁.byte hl hsrc hi
  refine leadsTo_within rfl (contained_decompCopyByte ?_ ?_ ?_) rfl ?_
  · rw [h₁.esi, hesi]
    exact Or.inl (by omega)
  · rw [h₁.edi, hedi]
    exact Or.inr (Or.inl (by omega))
  · rw [h₁.edi, hedi]
    exact Or.inl (by omega)
  simp only [runBlock, movb, incl, decl, Cpu.read, Cpu.write, Cpu.read8, Cpu.write8, Cpu.get,
    Cpu.set, h₁.esi, h₁.edi, h₁.ecx, BitVec.add_zero, ofNat_toNat_withLow8]
  rw [st8_ofNat (by omega), hesi, hbyte, ofNat_add_ofNat, ofNat_add_ofNat,
    ofNat_sub_ofNat (by omega)]
  refine .now ⟨rfl, rfl, rfl, h₁.edx, ?_, h₁.esp, ?_, ?_⟩
  · exact congrArg (BitVec.ofNat 32) (Nat.sub_sub _ _ _)
  · have htake : src.take (i + 1) = src.take i ++ [src[i]] := List.take_succ_eq_append_getElem hi
    have hlen : (src.take i).length = i := List.length_take_of_le (Nat.le_of_lt hi)
    dsimp only
    rw [htake]
    refine Holds.append (h₁.copied.of_eqOutside (eqOutside_write _ _ _) fun x _ hx => ?_) ?_
    · simp only [outside_cons, outside_nil, and_true]
      omega
    · rw [hlen]
      exact holds_write _ _ _
  · refine h₁.frame.trans ((eqOutside_write _ _ _).mono fun x hx => ?_)
    simp only [outside_cons, outside_nil, and_true, List.length_singleton] at hx ⊢
    omega

/-- Some bytes. -/
theorem leadsTo_rawCopying_add {n : ℕ} (h : RawCopying s₀ src i s)
    (hl : DecompLayout s₀ src.length src.length) (hsrc : s₀.mem.Holds s₀.esi.toNat src)
    (hn : i + n ≤ src.length) :
    LeadsTo (within fst k (mayTouch s₀ src.length src.length) (mayWrite s₀ src.length))
      (decompTop, s)
      fun x => x.1 = decompTop ∧ RawCopying s₀ src (i + n) x.2 := by
  induction n generalizing i s with
  | zero => exact .now ⟨rfl, h⟩
  | succ n ih =>
    refine LeadsTo.trans (leadsTo_rawCopying_succ h hl hsrc (by omega)) ?_
    rintro ⟨_, s₁⟩ ⟨rfl, h₁⟩
    rw [← Nat.succ_add_eq_add_succ]
    exact ih h₁ (by omega)

/-- **The loop.** -/
theorem leadsTo_rawCopied (h : RawCopying s₀ src 0 s) (hl : DecompLayout s₀ src.length src.length)
    (hsrc : s₀.mem.Holds s₀.esi.toNat src) :
    LeadsTo (within fst k (mayTouch s₀ src.length src.length) (mayWrite s₀ src.length))
      (decompTop, s)
      fun x => x.1 = decompOk ∧ RawCopying s₀ src src.length x.2 := by
  refine (leadsTo_rawCopying_add h hl hsrc (Nat.zero_add _).le).trans ?_
  rintro ⟨_, s₁⟩ ⟨rfl, h₁⟩
  rw [Nat.zero_add] at h₁
  dsimp only at h₁
  refine leadsTo_within rfl contained_decompTop rfl ?_
  simp only [runBlock, cmpl, jae, Cpu.read, Cpu.get, h₁.edi, h₁.edx]
  rw [if_pos (by simp)]
  exact .now ⟨rfl, h₁.esi, rfl, rfl, h₁.ecx, h₁.esp, h₁.copied, h₁.frame⟩

/-- Saving the registers of a call on a container without the magic. -/
theorem leadsTo_rawCopying (hl : DecompLayout s src.length src.length)
    (hsrc : s.mem.Holds s.esi.toNat src) (hecx : s.ecx = .ofNat 32 src.length)
    (h8 : 8 ≤ src.length) (hmagic : leNat (slice src 0 4) ≠ Lzss.lzssMagic) :
    LeadsTo (within fst k (mayTouch s src.length src.length) (mayWrite s src.length))
      (qizoDecompress, s) fun x => x.1 = decompTop ∧ RawCopying s src 0 x.2 := by
  have hsp := hl.sp_ge
  have hsp' := hl.sp_le
  have hin := hl.inp_le
  have hdis := hl.dst_sp
  have hdis' := hl.inp_sp
  have hpush := pushes_eq_savedMem (s := s) (by omega) hsp'
  have hesp := esp_pushes (s := s) (by omega)
  have hsaved := hsrc.of_eqOutside (savedMem_frame (s := s) (by omega)) fun x _ _ => by
    simp only [outside_cons, outside_nil, and_true]
    omega
  have hword : (ld32 (savedMem s) s.esi == BitVec.ofNat 32 Lzss.lzssMagic) = false := by
    rw [beq_eq_false_iff_ne]
    intro heq
    have hload : (savedMem s).load 4 s.esi.toNat = leNat (slice src 0 4) :=
      load_of_holds_slice (k := 0) (w := 4) hsaved (by omega)
    refine hmagic ?_
    rw [← hload, ← toNat_ld32 (by omega), heq]
    rfl
  refine leadsTo_within rfl (contained_qizoDecompress_of (by omega) (by omega)
    (fun a _ _ => Or.inl (by omega))
    fun a _ _ => ⟨Or.inr (Or.inr (by omega)), Or.inr (by omega)⟩) rfl ?_
  simp only [runBlock, pushl, movl, cmpl, jne, addl, xorl, Cpu.read, Cpu.write, Cpu.get, Cpu.set,
    BitVec.add_zero, hpush, hword]
  rw [if_pos (by rfl)]
  refine leadsTo_within rfl contained_decompRaw rfl ?_
  simp only [runBlock, movl, addl, xorl, Cpu.read, Cpu.write, Cpu.get, Cpu.set, hecx]
  refine .now ⟨rfl, eq_ofNat_toNat s.esi, eq_ofNat_toNat s.edi, ?_, rfl, hesp, holds_nil _ _,
    .refl _ _⟩
  dsimp only
  rw [← ofNat_add_ofNat, ← eq_ofNat_toNat, BitVec.add_comm]

/-- **The routine on a container without the magic.** It copies as many bytes as `ecx` says. -/
theorem leadsTo_qizoDecompress_raw {l : Label} (hl : DecompLayout s src.length src.length)
    (hsrc : s.mem.Holds s.esi.toNat src) (hecx : s.ecx = .ofNat 32 src.length)
    (hret : ld32 s.mem s.esp = k.addr l) (h8 : 8 ≤ src.length)
    (hmagic : leNat (slice src 0 4) ≠ Lzss.lzssMagic) :
    LeadsTo (within fst k (mayTouch s src.length src.length) (mayWrite s src.length))
      (qizoDecompress, s) fun x => x.1 = l ∧ x.2.eax = 1#32 ∧ x.2.mem.Holds s.edi.toNat src := by
  have hsp := hl.sp_ge
  have hdis := hl.dst_sp
  refine (leadsTo_rawCopying hl hsrc hecx h8 hmagic).trans ?_
  rintro ⟨_, s₀⟩ ⟨rfl, h₀⟩
  refine LeadsTo.trans (leadsTo_rawCopied h₀ hl hsrc) ?_
  rintro ⟨_, s₁⟩ ⟨rfl, h₁⟩
  refine (leadsTo_decompRet (by omega) hl.sp_le hret h₁.esp h₁.frame (fun x _ _ => ?_)
    fun x _ _ => Or.inr (Or.inr (by omega))).mono ?_
  · simp only [outside_cons, outside_nil, and_true]
    omega
  rintro ⟨_, s₂⟩ ⟨rfl, heax, hmem, -⟩
  dsimp only at hmem ⊢
  rw [hmem, ← List.take_length (l := src)]
  exact ⟨rfl, heax, h₁.copied⟩

/-! ### Where the module ends up -/

/-- The header of a raw container. -/
def rawHeader (n : ℕ) : List UInt8 := leBytes 4 0 ++ leBytes 4 n

/-- The payload is nothing but its own container header, over and over, up to its length. -/
def RepeatsHeader (payload : List UInt8) : Prop :=
  ∀ i < payload.length, payload[i]? = (rawHeader payload.length)[i % 8]?

/-- The payload is what comes eight bytes before it. -/
theorem repeatsHeader_iff :
    RepeatsHeader payload ↔
      ∀ i < payload.length, payload[i]? = (rawHeader payload.length ++ payload)[i]? := by
  have hlen : (rawHeader payload.length).length = 8 := by simp [rawHeader]
  have hcase (i : ℕ) : (rawHeader payload.length ++ payload)[i]? =
      if i < 8 then (rawHeader payload.length)[i]? else payload[i - 8]? := by
    rw [List.getElem?_append, hlen]
  constructor
  · intro h i hi
    rw [h i hi, hcase]
    split
    · next h8 => rw [Nat.mod_eq_of_lt h8]
    · next h8 => rw [h (i - 8) (by omega), ← Nat.mod_eq_sub_mod (Nat.not_lt.mp h8)]
  · intro h i
    induction i using Nat.strong_induction_on with
    | _ i ih =>
      intro hi
      rw [h i hi, hcase]
      split
      · next h8 => rw [Nat.mod_eq_of_lt h8]
      · next h8 => rw [ih (i - 8) (by omega) (by omega), ← Nat.mod_eq_sub_mod (Nat.not_lt.mp h8)]

/-- What the builder writes with `--raw`. -/
theorem packBlob_raw_eq_ok {n : ℕ} (h : packBlob true payload = .ok (n, blob)) :
    blob.length ≤ blobMax ∧ ∃ fill, blob = rawHeader payload.length ++ payload ++ fill := by
  obtain ⟨b, hb, hmax, hsectors, hblob⟩ := packBlob_eq_ok h
  have hlength := length_packBlob h
  rw [if_pos rfl, rawContainer] at hb
  obtain ⟨zero, hzero, hb⟩ := bind_eq_ok.mp hb
  obtain ⟨len, hlen, hb⟩ := bind_eq_ok.mp hb
  obtain ⟨-, rfl⟩ := pack_eq_ok hzero
  obtain ⟨-, rfl⟩ := pack_eq_ok hlen
  obtain rfl := Except.ok.inj hb
  refine ⟨?_, _, hblob⟩
  rw [hlength, hsectors, sectorsFor, sector]
  rw [blobMax] at hmax ⊢
  omega

/-- The call of `qizo_decompress` on `blob`. -/
structure DecompressCall (k : Link Label) (blob : List UInt8) (s : Cpu) : Prop where
  called : Called k decompBack (pmStack - 4) s
  esi : s.esi = .ofNat 32 blobPhys
  ecx : s.ecx = .ofNat 32 blob.length
  edi : s.edi = .ofNat 32 scratch
  blob_at : s.mem.Holds blobPhys blob

/-- **What is at scratch**: the container, with its header. -/
theorem leadsTo_container_at_scratch {n : ℕ} (hpack : packBlob true payload = .ok (n, blob))
    (h : DecompressCall k blob s) :
    LeadsTo (step fst k) (qizoDecompress, s) fun x => x.1 = decompBack ∧ x.2.eax = 1#32 ∧
      x.2.mem.Holds scratch (rawHeader payload.length ++ payload) := by
  obtain ⟨hmax, fill, hblob⟩ := packBlob_raw_eq_ok hpack
  have hle : blob.length ≤ 248 * 512 := hmax
  have hlen : 8 ≤ blob.length := by
    rw [hblob, List.length_append, List.length_append, rawHeader, List.length_append,
      length_leBytes, length_leBytes]
    omega
  have hsrc : s.esi.toNat = 0x21000 := by rw [h.esi]; rfl
  have hdst : s.edi.toNat = 0x180000 := by rw [h.edi]; rfl
  have hsp : s.esp.toNat = 0x43FFC := by rw [h.called.esp]; rfl
  have hlayout : DecompLayout s blob.length blob.length := by
    constructor <;> omega
  have hret : ld32 s.mem s.esp = k.addr decompBack := by
    rw [h.called.esp, ld32_ofNat h.called.sp_le, h.called.ret, ← eq_ofNat_toNat]
  have hholds : s.mem.Holds s.esi.toNat blob := by
    rw [hsrc]
    exact h.blob_at
  have hmagic : leNat (slice blob 0 4) ≠ Lzss.lzssMagic := by
    have hzero : slice blob 0 4 = leBytes 4 0 := by
      rw [hblob]
      rfl
    rw [hzero, leNat_leBytes (by decide)]
    decide
  refine (leadsTo_qizoDecompress_raw hlayout hholds h.ecx hret hlen hmagic).of_restrict.mono ?_
  rintro ⟨_, s₁⟩ ⟨rfl, heax, hcopy⟩
  rw [hdst, hblob] at hcopy
  exact ⟨rfl, heax, hcopy.left⟩

/-- **When a raw container loads**: the header of the module is where it is looked for exactly if
the module is a repetition of its container's header. -/
theorem rawPayload_at_scratch_iff {n : ℕ} (hpack : packBlob true payload = .ok (n, blob))
    (h : DecompressCall k blob s) :
    LeadsTo (step fst k) (qizoDecompress, s) fun x => x.1 = decompBack ∧ x.2.eax = 1#32 ∧
      (x.2.mem.Holds scratch payload ↔ RepeatsHeader payload) := by
  refine (leadsTo_container_at_scratch hpack h).mono ?_
  rintro ⟨_, s₁⟩ ⟨rfl, heax, hcopy⟩
  refine ⟨rfl, heax, ?_⟩
  have hmem {i : ℕ} (hi : i < payload.length) :
      (rawHeader payload.length ++ payload)[i]? = some (s₁.mem (scratch + i)) := by
    have hlt : i < (rawHeader payload.length ++ payload).length := by
      rw [List.length_append]
      omega
    rw [List.getElem?_eq_getElem hlt]
    exact congrArg some (hcopy i _ (List.getElem?_eq_getElem hlt)).symm
  rw [repeatsHeader_iff]
  constructor
  · intro hpay i hi
    rw [hmem hi, List.getElem?_eq_getElem hi]
    exact congrArg some (hpay i _ (List.getElem?_eq_getElem hi)).symm
  · intro hrep i b hb
    have hi := (List.getElem?_eq_some_iff.mp hb).1
    rw [hrep i hi, hmem hi] at hb
    exact Option.some.inj hb

/-! ### A module that does not load -/

/-- A module of one byte. -/
def onePayload : List UInt8 := [1]

/-- Its raw container, filled up. -/
def oneBlob : List UInt8 := (rawHeader 1 ++ onePayload).rightpad 512 0

theorem packBlob_onePayload : packBlob true onePayload = .ok (1, oneBlob) := by decide +kernel

theorem length_oneBlob : oneBlob.length = 512 := length_packBlob packBlob_onePayload

/-- The call on `blob`, in memory that is zero elsewhere. -/
def decompressCpu (blob : List UInt8) : Cpu :=
  { callWith [] 0 with
    esi := .ofNat 32 blobPhys
    ecx := .ofNat 32 blob.length
    edi := .ofNat 32 scratch
    esp := .ofNat 32 (pmStack - 4)
    mem := Memory.write (Memory.store (fun _ => 0) 4 (pmStack - 4)
      (consecutiveLink.addr decompBack).toNat) blobPhys blob }

theorem decompressCall_decompressCpu {blob : List UInt8} (h : blob.length ≤ blobMax) :
    DecompressCall consecutiveLink blob (decompressCpu blob) := by
  refine ⟨⟨rfl, ?_, by decide⟩, rfl, rfl, rfl, holds_write _ _ _⟩
  refine ((eqOutside_write _ _ _).load_eq fun x hx _ => ?_).trans
    (load_store_self (BitVec.isLt _))
  simp only [outside_cons, outside_nil, and_true, pmStack, blobPhys, blobMax] at h hx ⊢
  omega

/-- The condition on the module of one byte. -/
theorem rawPayload_at_scratch_iff_onePayload :
    LeadsTo (step 0x20000 consecutiveLink) (qizoDecompress, decompressCpu oneBlob) fun x =>
      x.1 = decompBack ∧ x.2.eax = 1#32 ∧
      (x.2.mem.Holds scratch onePayload ↔ RepeatsHeader onePayload) :=
  rawPayload_at_scratch_iff packBlob_onePayload
    (decompressCall_decompressCpu (by rw [length_oneBlob]; decide))

/-- **A container header in place of the module**: the byte at scratch is the first of the zero
word, not the module's. -/
theorem rawPayload_not_at_scratch_onePayload :
    packBlob true onePayload = .ok (1, oneBlob) ∧
    LeadsTo (step 0x20000 consecutiveLink) (qizoDecompress, decompressCpu oneBlob) fun x =>
      x.1 = decompBack ∧ ¬x.2.mem.Holds scratch onePayload := by
  have hlen : oneBlob.length ≤ blobMax := by
    rw [length_oneBlob]
    decide
  refine ⟨packBlob_onePayload, (leadsTo_container_at_scratch packBlob_onePayload
    (decompressCall_decompressCpu hlen)).mono ?_⟩
  rintro ⟨_, s₁⟩ ⟨rfl, -, hcopy⟩
  refine ⟨rfl, fun hpay => ?_⟩
  have hzero : s₁.mem (scratch + 0) = 0 := hcopy 0 0 rfl
  have hone : s₁.mem (scratch + 0) = 1 := hpay 0 1 rfl
  exact absurd (hzero.symm.trans hone) (by decide)

end Stage2

end Qizo
