import Qizo.Boot.DecompressAccess
import Qizo.LzssDecode

/-!
# The decoder of stage2

`qizo_decompress` decodes the same container as the reference decoder, with another control
structure: one loop over items instead of two nested ones, a mask in `ebx` that is doubled before
each item and brings in the next flag byte when it reaches `0x100`, and the distance and the length
of a match on the stack while its bytes are copied one by one.

The proof is a simulation. `Decoding` relates a machine state at the top of the loop to the input
position and the output of the reference decoder, and each item, group and pass of the latter is
matched by a run of the former. On the way each block is contained: it touches nothing but the
container, the output and the stack of the routine.

## Main results

* `leadsTo_decompCopy` — the copy loop appends `copyBack`
* `leadsTo_decompBits`, `leadsTo_decompLoop` — a group, and all groups
* `leadsTo_qizoDecompress` — the routine, from call to return
-/

namespace Qizo

namespace Stage2

open X86 Reg Operand Label StateTransition ByteString Lzss Memory

variable {fst : ℕ} {k : Link Label}

/-- A call of `qizo_decompress` as the loop sees it, after the registers have been saved: the
container and where it lies, the destination with the number of bytes that may be written there,
the stack pointer, and the memory. -/
structure DecompCall where
  /-- The container. -/
  src : List UInt8
  /-- The declared length of the output. -/
  total : ℕ
  /-- Address of the container. -/
  inp : ℕ
  /-- Address of the output. -/
  dst : ℕ
  /-- The bytes available there. -/
  cap : ℕ
  /-- The stack pointer inside the loop. -/
  sp : ℕ
  /-- Memory at the start of the loop. -/
  mem : Memory
  /-- The container is in memory. -/
  holds : mem.Holds inp src
  /-- The declared length fits. -/
  total_le : total ≤ cap
  /-- The container does not wrap. -/
  inp_le : inp + src.length ≤ 2 ^ 32
  /-- Neither does the output, nor the pointer behind it. -/
  dst_lt : dst + cap < 2 ^ 32
  /-- Three more words fit on the stack. -/
  sp_ge : 12 ≤ sp
  /-- The stack pointer is an address. -/
  sp_lt : sp < 2 ^ 32
  /-- Container and output are apart. -/
  inp_dst : inp + src.length ≤ dst ∨ dst + cap ≤ inp
  /-- Container and stack are apart. -/
  inp_sp : inp + src.length ≤ sp - 12 ∨ sp ≤ inp
  /-- Output and stack are apart. -/
  dst_sp : dst + cap ≤ sp - 12 ∨ sp ≤ dst

namespace DecompCall

/-- What the loop may write. -/
def regions (c : DecompCall) : List (ℕ × ℕ) := [(c.dst, c.cap), (c.sp - 12, 12)]

/-- What the routine may touch: the container, the output, and its stack, up to the return
address. -/
def touched (c : DecompCall) : Set ℕ :=
  {a | c.inp ≤ a ∧ a < c.inp + c.src.length ∨ c.dst ≤ a ∧ a < c.dst + c.cap ∨
    c.sp - 12 ≤ a ∧ a < c.sp + 20}

/-- What it may write: the output, and its stack. -/
def written (c : DecompCall) : Set ℕ :=
  {a | c.dst ≤ a ∧ a < c.dst + c.cap ∨ c.sp - 12 ≤ a ∧ a < c.sp + 16}

end DecompCall

variable {c : DecompCall} {s : Cpu} {i : ℕ} {o : List UInt8}

/-- The memory of a run that has produced `o` so far. -/
structure DecompMem (c : DecompCall) (o : List UInt8) (m : Memory) : Prop where
  /-- The output so far. -/
  out : m.Holds c.dst o
  /-- Nothing else has changed. -/
  frame : EqOutside c.mem m c.regions

/-- The registers that stay put between items: the input pointer at `i`, the output pointer behind
`o`, the end of the output, and no byte left over to copy. -/
structure DecompRegs (c : DecompCall) (i : ℕ) (o : List UInt8) (s : Cpu) : Prop where
  /-- The input pointer. -/
  esi : s.esi = .ofNat 32 (c.inp + i)
  /-- The output pointer. -/
  edi : s.edi = .ofNat 32 (c.dst + o.length)
  /-- The end of the output. -/
  edx : s.edx = .ofNat 32 (c.dst + c.total)
  /-- The counter of the other container kind. -/
  ecx : s.ecx = 0#32

/-- The state between two items of the reference decoder at input position `i` with output `o`. -/
structure Decoding (c : DecompCall) (i : ℕ) (o : List UInt8) (s : Cpu) : Prop extends
    DecompRegs c i o s, DecompMem c o s.mem where
  /-- The stack is back where it was. -/
  esp : s.esp = .ofNat 32 c.sp

/-! ### What is touched -/

namespace DecompCall

theorem inp_touched (hi : i < c.src.length) : (BitVec.ofNat 32 (c.inp + i)).toNat ∈ c.touched := by
  have := c.inp_le
  rw [toNat_ofNat_of_lt (by omega)]
  exact Or.inl (by omega)

theorem out_written {n : ℕ} (hn : n < c.cap) : (BitVec.ofNat 32 (c.dst + n)).toNat ∈ c.written := by
  have := c.dst_lt
  rw [toNat_ofNat_of_lt (by omega)]
  exact Or.inl (by omega)

theorem written_subset (c : DecompCall) : c.written ⊆ c.touched := by
  rintro a (ha | ha)
  · exact Or.inr (Or.inl ha)
  · exact Or.inr (Or.inr (by omega))

theorem word_written {a : ℕ} (ha : c.sp - 12 ≤ a) (ha' : a + 4 ≤ c.sp + 16) (hlt : a + 4 ≤ 2 ^ 32) :
    Word c.written (.ofNat 32 a) :=
  word_ofNat hlt fun b hb hb' => Or.inr (by omega)

end DecompCall

/-! ### Reading the container -/

theorem DecompMem.input {m : Memory} (h : DecompMem c o m) : m.Holds c.inp c.src := by
  refine c.holds.of_eqOutside h.frame fun x _ _ => ?_
  have := c.inp_dst
  have := c.inp_sp
  have := c.sp_ge
  simp only [DecompCall.regions, outside_cons, outside_nil, and_true]
  omega

theorem DecompMem.byte {m : Memory} {b : UInt8} (h : DecompMem c o m) (hb : c.src[i]? = some b) :
    m (BitVec.ofNat 32 (c.inp + i)).toNat = b := by
  have hi : i < c.src.length := (List.getElem?_eq_some_iff.mp hb).1
  have := c.inp_le
  rw [toNat_ofNat_of_lt (by omega)]
  exact h.input i b hb

theorem DecompMem.token {m : Memory} (h : DecompMem c o m) (hi : i + 2 ≤ c.src.length) :
    (ld16 m (.ofNat 32 (c.inp + i))).toNat = leNat (slice c.src i (i + 2)) := by
  have := c.inp_le
  have haddr : (BitVec.ofNat 32 (c.inp + i)).toNat = c.inp + i := toNat_ofNat_of_lt (by omega)
  rw [toNat_ld16 (by rw [haddr]; omega), haddr, load_of_holds_slice h.input hi]

/-! ### Writing the output -/

/-- One more byte of output. -/
theorem DecompMem.push {m : Memory} (h : DecompMem c o m) (hcap : o.length < c.cap) (b : UInt8) :
    DecompMem c (o ++ [b]) (m.write (c.dst + o.length) [b]) := by
  have hw := eqOutside_write m (c.dst + o.length) [b]
  refine ⟨Holds.append ?_ (holds_write m _ [b]), h.frame.trans (hw.mono fun x hx => ?_)⟩
  · exact h.out.of_eqOutside hw fun x _ _ => by simp; omega
  · simp only [DecompCall.regions, outside_cons, outside_nil, and_true] at hx
    simp only [outside_cons, outside_nil, and_true, List.length_singleton]
    omega

/-- A word pushed below the stack pointer. -/
theorem DecompMem.store {m : Memory} (h : DecompMem c o m) (hcap : o.length ≤ c.cap) {a v : ℕ}
    (ha : c.sp - 12 ≤ a) (ha' : a + 4 ≤ c.sp) : DecompMem c o (m.store 4 a v) := by
  have hw := eqOutside_store m 4 a v
  refine ⟨h.out.of_eqOutside hw fun x _ _ => ?_, h.frame.trans (hw.mono fun x hx => ?_)⟩
  · have := c.dst_sp
    simp only [outside_cons, outside_nil, and_true]
    omega
  · simp only [DecompCall.regions, outside_cons, outside_nil, and_true] at hx
    have := c.sp_ge
    simp only [outside_cons, outside_nil, and_true]
    omega

/-! ### The copy loop -/

/-- The state of the copy loop, with `n` bytes to go at distance `off`: both numbers are on the
stack, above the token. -/
structure Copying (c : DecompCall) (i : ℕ) (o : List UInt8) (off n : ℕ) (s : Cpu) : Prop extends
    DecompRegs c i o s, DecompMem c o s.mem where
  /-- Three words are on the stack. -/
  esp : s.esp = .ofNat 32 (c.sp - 12)
  /-- The uppermost is the count. -/
  count : s.mem.load 4 (c.sp - 12) = n
  /-- The next is the distance. -/
  dist : s.mem.load 4 (c.sp - 8) = off

/-- One pass of the copy loop. -/
theorem leadsTo_decompCopy_pass {off n : ℕ} (h : Copying c i o off (n + 1) s) (hoff : 1 ≤ off)
    (hle : off ≤ o.length) (hcap : o.length < c.cap) :
    LeadsTo (within fst k c.touched c.written) (decompCopy, s) fun x =>
      x.2.ebx = s.ebx ∧ x.2.ebp = s.ebp ∧
      (n = 0 ∧ x.1 = decompTop ∧ Decoding c i (o ++ [o.getD (o.length - off) 0]) x.2 ∨
        n ≠ 0 ∧ x.1 = decompCopy ∧ Copying c i (o ++ [o.getD (o.length - off) 0]) off n x.2) := by
  have hdst := c.dst_lt
  have hsp := c.sp_lt
  have hsp' := c.sp_ge
  have hds := c.dst_sp
  have hn : n + 1 < 2 ^ 32 := by rw [← h.count]; exact load_lt _ 4 _
  set b := o.getD (o.length - off) 0
  set m₁ := s.mem.write (c.dst + o.length) [b]
  have hdist : ld32 s.mem (.ofNat 32 (c.sp - 12 + 4)) = .ofNat 32 off := by
    rw [ld32_ofNat (by omega), show c.sp - 12 + 4 = c.sp - 8 by omega, h.dist]
  have hbyte : s.mem (BitVec.ofNat 32 (c.dst + o.length - off)).toNat = b := by
    rw [toNat_ofNat_of_lt (by omega),
      show c.dst + o.length - off = c.dst + (o.length - off) by omega]
    refine h.out _ _ ?_
    simp only [b, List.getD_eq_getElem?_getD]
    rw [List.getElem?_eq_getElem (by omega), Option.getD_some]
  have hm₁ : DecompMem c (o ++ [b]) m₁ := h.toDecompMem.push hcap b
  have hfar : ∀ a, c.sp - 12 ≤ a → a + 4 ≤ c.sp → m₁.load 4 a = s.mem.load 4 a := by
    intro a ha ha'
    refine (eqOutside_write s.mem (c.dst + o.length) [b]).load_eq fun x _ _ => ?_
    simp only [outside_cons, outside_nil, and_true, List.length_singleton]
    omega
  have hcount : ld32 m₁ (.ofNat 32 (c.sp - 12)) - 1#32 = .ofNat 32 n := by
    rw [ld32_ofNat (by omega), hfar _ (by omega) (by omega), h.count,
      ofNat_sub_ofNat (Nat.le_add_left 1 n), Nat.add_sub_cancel]
  have hm₂ : DecompMem c (o ++ [b]) (m₁.store 4 (c.sp - 12) n) :=
    hm₁.store (by simp; omega) (by omega) (by omega)
  have hedi : BitVec.ofNat 32 (c.dst + o.length + 1) = .ofNat 32 (c.dst + (o ++ [b]).length) := by
    rw [List.length_append]; rfl
  have hcontained : Contained (step fst k) c.touched c.written (decompCopy, s) := by
    have hbelow := c.word_written (a := c.sp - 12) (by omega) (by omega) (by omega)
    have hdist' := c.word_written (a := c.sp - 12 + 4) (by omega) (by omega) (by omega)
    have hnew := c.out_written hcap
    refine contained_decompCopy ?_ ?_ ?_ ?_ ?_ ?_
    · rw [h.esp, ofNat_add_ofNat]
      exact hdist'.mono c.written_subset
    · rw [h.esp, h.edi, ofNat_add_ofNat, hdist, ofNat_sub_ofNat (by omega), Nat.add_sub_assoc hle]
      exact c.written_subset (c.out_written (by omega))
    · rw [h.edi]
      exact c.written_subset hnew
    · rw [h.esp]
      exact hbelow.mono c.written_subset
    · rw [h.edi]
      exact hnew
    · rw [h.esp]
      exact hbelow
  refine leadsTo_within rfl hcontained rfl ?_
  simp only [runBlock, movl, subl, movb, incl, decl, jne, addl, Cpu.read, Cpu.write, Cpu.read8,
    Cpu.write8, Cpu.get, Cpu.set, h.esp, h.edi, BitVec.add_zero, ofNat_add_ofNat,
    ofNat_toNat_withLow8, hdist]
  rw [ofNat_sub_ofNat (by omega), hbyte, st8_ofNat (by omega), hcount, st32_ofNat (by omega),
    toNat_ofNat_of_lt (i := n) (by omega), hedi]
  by_cases hz : n = 0
  · subst hz
    rw [if_neg (by simp)]
    refine .now ⟨rfl, rfl, Or.inl ⟨rfl, rfl, ⟨⟨h.esi, rfl, h.edx, h.ecx⟩, hm₂, ?_⟩⟩⟩
    rw [Nat.sub_add_cancel hsp']
  · have hne : BitVec.ofNat 32 n ≠ 0#32 := by
      intro he
      have := congrArg BitVec.toNat he
      rw [toNat_ofNat_of_lt (by omega)] at this
      exact hz this
    rw [if_pos (by simpa using hne)]
    refine .now ⟨rfl, rfl, Or.inr ⟨hz, rfl, ⟨⟨h.esi, rfl, h.edx, h.ecx⟩, hm₂, rfl, ?_, ?_⟩⟩⟩
    · exact load_store_self (w := 4) (by omega)
    · dsimp only
      rw [load_store_of_disjoint (Or.inr (by omega)), hfar _ (by omega) (by omega), h.dist]

/-- **The copy loop appends `copyBack`.** By induction on the bytes to go. -/
theorem leadsTo_decompCopy {off n : ℕ} (h : Copying c i o off (n + 1) s) (hoff : 1 ≤ off)
    (hle : off ≤ o.length) (hcap : o.length + (n + 1) ≤ c.cap) :
    LeadsTo (within fst k c.touched c.written) (decompCopy, s) fun x =>
      x.1 = decompTop ∧ x.2.ebx = s.ebx ∧ x.2.ebp = s.ebp ∧
        Decoding c i (Lzss.copyBack off (n + 1) o) x.2 := by
  induction n generalizing o s with
  | zero =>
    refine (leadsTo_decompCopy_pass h hoff hle hcap).mono ?_
    rintro ⟨l, s₁⟩ ⟨hebx, hebp, ⟨-, hl, hd⟩ | ⟨hne, -, -⟩⟩
    · exact ⟨hl, hebx, hebp, hd⟩
    · exact absurd rfl hne
  | succ n ih =>
    refine (leadsTo_decompCopy_pass h hoff hle (by omega)).trans ?_
    rintro ⟨_, s₁⟩ ⟨hebx, hebp, ⟨h0, -, -⟩ | ⟨-, rfl, hc⟩⟩
    · exact absurd h0 (Nat.succ_ne_zero n)
    · refine (ih hc ?_ ?_).mono ?_
      · simp only [List.length_append]; omega
      · simp only [List.length_append, List.length_singleton]; omega
      · rintro ⟨_, s₂⟩ ⟨rfl, hebx₂, hebp₂, hd⟩
        exact ⟨rfl, hebx₂.trans hebx, hebp₂.trans hebp, hd⟩

/-! ### One item -/

theorem tokenOff_eq (tok : ℕ) : tokenOff tok = tok / 16 + 1 := by
  rw [tokenOff, Nat.shiftRight_eq_div_pow]

theorem tokenLen_eq (tok : ℕ) : tokenLen tok = tok % 16 + 3 := by
  rw [tokenLen, show (0xF : ℕ) = 2 ^ 4 - 1 from rfl, Nat.and_two_pow_sub_one_eq_mod]
  rfl

/-- A match token is split into distance and length on the stack. -/
theorem leadsTo_decompMatch_split {tok : ℕ} (h : Decoding c i o s) (hi : i + 2 ≤ c.src.length)
    (htok : tok = leNat (slice c.src i (i + 2))) (hcap : o.length ≤ c.cap) :
    LeadsTo (within fst k c.touched c.written) (decompMatch, s) fun x =>
      x.1 = decompCopy ∧ x.2.ebx = s.ebx ∧ x.2.ebp = s.ebp ∧
        Copying c (i + 2) o (tokenOff tok) (tokenLen tok) x.2 := by
  have hsp := c.sp_lt
  have hsp' := c.sp_ge
  have hlt : tok < 65536 := by
    rw [htok]
    exact Nat.lt_of_lt_of_eq (leNat_lt _) (by rw [length_slice hi]; simp)
  have hofflt : tokenOff tok < 2 ^ 32 := by rw [tokenOff_eq]; omega
  have hlenlt : tokenLen tok < 2 ^ 32 := by rw [tokenLen_eq]; omega
  have hload : (ld16 s.mem (.ofNat 32 (c.inp + i))).setWidth 32 = BitVec.ofNat 32 tok := by
    apply BitVec.eq_of_toNat_eq
    rw [BitVec.toNat_setWidth, h.token hi, ← htok, BitVec.toNat_ofNat]
  have hoff : BitVec.ofNat 32 tok >>> 4 + 1#32 = .ofNat 32 (tokenOff tok) := by
    apply BitVec.eq_of_toNat_eq
    rw [tokenOff_eq, BitVec.toNat_add, BitVec.toNat_ushiftRight, toNat_ofNat_of_lt (by omega),
      toNat_ofNat_of_lt (by omega), Nat.shiftRight_eq_div_pow]
    rw [toNat_ofNat_of_lt (i := tok / 16 + 1) (by omega)]
    exact Nat.mod_eq_of_lt (by omega)
  have hlen : BitVec.ofNat 32 tok &&& 15#32 = .ofNat 32 (tok % 16) := by
    apply BitVec.eq_of_toNat_eq
    rw [BitVec.toNat_and, toNat_ofNat_of_lt (by omega), toNat_ofNat_of_lt (by omega),
      toNat_ofNat_of_lt (by omega), show (15 : ℕ) = 2 ^ 4 - 1 from rfl,
      Nat.and_two_pow_sub_one_eq_mod]
  have hcontained : Contained (step fst k) c.touched c.written (decompMatch, s) := by
    have hstack (a : ℕ) (ha : c.sp - 12 ≤ a) (ha' : a + 4 ≤ c.sp) : Word c.written (.ofNat 32 a) :=
      c.word_written ha (by omega) (by omega)
    have hpushed : Word c.written (s.esp - 4#32) ∧ Word c.written (s.esp - 4#32 - 4#32) ∧
        Word c.written (s.esp - 4#32 - 4#32 - 4#32) := by
      rw [h.esp, ofNat_sub_ofNat (by omega), ofNat_sub_ofNat (by omega), ofNat_sub_ofNat (by omega)]
      exact ⟨hstack _ (by omega) (by omega), hstack _ (by omega) (by omega),
        hstack _ (by omega) (by omega)⟩
    refine contained_decompMatch ?_ ?_ ⟨hpushed.1.mono c.written_subset,
      hpushed.2.1.mono c.written_subset, hpushed.2.2.mono c.written_subset⟩ hpushed
    · rw [h.esi]
      exact c.inp_touched (by omega)
    · rw [h.esi, ofNat_add_ofNat, Nat.add_assoc]
      exact c.inp_touched (by omega)
  refine leadsTo_within rfl hcontained rfl ?_
  simp only [runBlock, movzwl, addl, pushl, shrl, incl, movl, andl, Cpu.ea, Cpu.read, Cpu.write,
    Cpu.get, Cpu.set, h.esp, h.esi, BitVec.add_zero, hload, hoff, ofNat_add_ofNat]
  rw [ofNat_sub_ofNat (by omega), ofNat_sub_ofNat (by omega), ofNat_sub_ofNat (by omega),
    ofNat_add_ofNat, show c.sp - 4 - 4 + 4 = c.sp - 4 by omega,
    show c.sp - 4 - 4 = c.sp - 8 by omega, show c.sp - 8 - 4 = c.sp - 12 by omega,
    st32_ofNat (by omega), st32_ofNat (by omega), st32_ofNat (by omega),
    toNat_ofNat_of_lt (i := tok) (by omega), toNat_ofNat_of_lt hofflt, ld32_ofNat (by omega),
    load_store_of_disjoint (Or.inr (by omega)), load_store_self (w := 4) (by omega), hlen,
    ofNat_add_ofNat, ← tokenLen_eq, toNat_ofNat_of_lt hlenlt]
  have hmem :
      DecompMem c o (((s.mem.store 4 (c.sp - 4) tok).store 4 (c.sp - 8) (tokenOff tok)).store
        4 (c.sp - 12) (tokenLen tok)) :=
    ((h.toDecompMem.store hcap (by omega) (by omega)).store hcap (by omega) (by omega)).store hcap
      (by omega) (by omega)
  refine .now ⟨rfl, rfl, rfl, ⟨⟨rfl, h.edi, h.edx, h.ecx⟩, hmem, rfl, ?_, ?_⟩⟩
  · exact load_store_self (w := 4) hlenlt
  · dsimp only
    rw [load_store_of_disjoint (Or.inr (by omega))]
    exact load_store_self (w := 4) hofflt

/-- The mask in `ebx` selects the flag bit that Python shifts to. -/
theorem mask_eq_zero_iff {flags bit : ℕ} (hflags : flags < 256) (hbit : bit < 8) :
    BitVec.ofNat 32 flags &&& BitVec.ofNat 32 (2 ^ bit) = 0#32 ↔ flags &&& (1 <<< bit) = 0 := by
  have hpow : 2 ^ bit < 2 ^ 32 := Nat.pow_lt_pow_right (by decide) (by omega)
  rw [← BitVec.toNat_inj, BitVec.toNat_and, toNat_ofNat_of_lt (by omega), toNat_ofNat_of_lt hpow,
    Nat.one_shiftLeft]
  rfl

/-- A set flag bit: the item is a match. -/
theorem leadsTo_decompMatch {flags bit : ℕ} (h : Decoding c i o s) (hflags : flags < 256)
    (hbit : bit < 8) (hebx : s.ebx = .ofNat 32 (2 ^ bit)) (hebp : s.ebp = .ofNat 32 flags)
    (hset : flags &&& (1 <<< bit) ≠ 0) :
    LeadsTo (within fst k c.touched c.written) (decompItem, s) fun x => x.1 = decompMatch ∧
      x.2.ebx = s.ebx ∧ x.2.ebp = s.ebp ∧ Decoding c i o x.2 := by
  have hmask := mask_eq_zero_iff hflags hbit
  refine leadsTo_within rfl (contained_decompItem fun hz => ?_) rfl ?_
  · rw [hebx, hebp, hmask] at hz
    exact absurd hz hset
  · simp only [runBlock, testl, jne, Cpu.read, Cpu.get, hebx, hebp]
    rw [if_pos (by simpa using fun hz => hset (hmask.mp hz))]
    exact .now ⟨rfl, rfl, rfl, ⟨⟨h.esi, h.edi, h.edx, h.ecx⟩, h.toDecompMem, h.esp⟩⟩

/-- **One item.** With the mask on its flag bit, the machine does what the reference decoder
does. -/
theorem leadsTo_decompItem {flags bit i' : ℕ} {o' : List UInt8} (h : Decoding c i o s)
    (hflags : flags < 256) (hbit : bit < 8) (hebx : s.ebx = .ofNat 32 (2 ^ bit))
    (hebp : s.ebp = .ofNat 32 flags) (hitem : decompressItem c.src flags bit i o = .ok (i', o'))
    (hr : ∀ r ∈ itemBackRefs c.src flags bit i o, r.1 ≤ r.2) (hcap : o'.length ≤ c.cap) :
    LeadsTo (within fst k c.touched c.written) (decompItem, s) fun x =>
      x.1 = decompTop ∧ x.2.ebx = s.ebx ∧ x.2.ebp = s.ebp ∧ Decoding c i' o' x.2 := by
  have hdst := c.dst_lt
  have hmask := mask_eq_zero_iff hflags hbit
  rcases decompressItem_cases hitem hr with
    ⟨hz, b, hb, rfl, rfl⟩ | ⟨hnz, tok, hi, htok, hoff, rfl, rfl⟩
  · -- a literal
    rw [List.length_append, List.length_singleton] at hcap
    have hnew := c.out_written (n := o.length) (by omega)
    refine leadsTo_within rfl (contained_decompItem fun _ => ?_) rfl ?_
    · rw [h.esi, h.edi]
      exact ⟨c.inp_touched (List.getElem?_eq_some_iff.mp hb).1, c.written_subset hnew, hnew⟩
    simp only [runBlock, testl, jne, movb, incl, Cpu.read, Cpu.write, Cpu.read8, Cpu.write8,
      Cpu.get, Cpu.set, hebx, hebp, h.esi, h.edi, BitVec.add_zero, ofNat_add_ofNat,
      ofNat_toNat_withLow8]
    rw [if_neg (by simpa using hmask.mpr hz), h.byte hb, st8_ofNat (by omega)]
    refine .now ⟨rfl, rfl, rfl, ⟨⟨rfl, ?_, h.edx, h.ecx⟩, h.push (by omega) b, h.esp⟩⟩
    rw [List.length_append]
    rfl
  · -- a match
    rw [length_copyBack] at hcap
    refine (leadsTo_decompMatch h hflags hbit hebx hebp hnz).trans ?_
    rintro ⟨_, s₀⟩ ⟨rfl, hebx₀, hebp₀, hd⟩
    refine LeadsTo.trans (leadsTo_decompMatch_split hd hi htok (by omega : o.length ≤ c.cap)) ?_
    rintro ⟨_, s₁⟩ ⟨rfl, hebx₁, hebp₁, hc⟩
    obtain ⟨n, hn⟩ : ∃ n, tokenLen tok = n + 1 := ⟨tok % 16 + 2, by rw [tokenLen_eq]⟩
    rw [hn] at hc hcap ⊢
    refine (leadsTo_decompCopy hc (tokenOff_pos tok) hoff hcap).mono ?_
    rintro ⟨_, s₂⟩ ⟨rfl, hebx₂, hebp₂, hd⟩
    exact ⟨rfl, (hebx₂.trans hebx₁).trans hebx₀, (hebp₂.trans hebp₁).trans hebp₀, hd⟩

/-! ### The top of the loop -/

/-- The end of the output has been reached. -/
theorem leadsTo_decompOk (h : Decoding c i o s) (htotal : c.total ≤ o.length)
    (hcap : o.length ≤ c.cap) :
    LeadsTo (within fst k c.touched c.written) (decompTop, s) fun x =>
      x.1 = decompOk ∧ Decoding c i o x.2 := by
  have hdst := c.dst_lt
  refine leadsTo_within rfl contained_decompTop rfl ?_
  simp only [runBlock, cmpl, jae, Cpu.read, Cpu.get, h.edi, h.edx]
  rw [toNat_ofNat_of_lt (by omega), toNat_ofNat_of_lt (by omega), if_pos (by simp; omega)]
  exact .now ⟨rfl, ⟨⟨h.esi, rfl, rfl, h.ecx⟩, h.toDecompMem, h.esp⟩⟩

/-- Output is missing and the mask has room: it moves to the next bit. -/
theorem leadsTo_decompItem_next {bit : ℕ} (h : Decoding c i o s) (htotal : o.length < c.total)
    (hbit : bit < 7) (hebx : s.ebx = .ofNat 32 (2 ^ bit)) :
    LeadsTo (within fst k c.touched c.written) (decompTop, s) fun x => x.1 = decompItem ∧
      x.2.ebx = .ofNat 32 (2 ^ (bit + 1)) ∧ x.2.ebp = s.ebp ∧ Decoding c i o x.2 := by
  have hdst := c.dst_lt
  have hcap := c.total_le
  have hdouble : 2 ^ bit + 2 ^ bit = 2 ^ (bit + 1) := by rw [Nat.pow_succ]; omega
  have hpow : 2 ^ (bit + 1) < 256 :=
    Nat.lt_of_lt_of_eq (Nat.pow_lt_pow_right (by decide) (by omega : bit + 1 < 8)) rfl
  have hne : BitVec.ofNat 32 (2 ^ (bit + 1)) ≠ 256#32 := by
    intro he
    have := congrArg BitVec.toNat he
    rw [toNat_ofNat_of_lt (by omega), toNat_ofNat_of_lt (by omega)] at this
    omega
  refine leadsTo_within rfl contained_decompTop rfl ?_
  simp only [runBlock, cmpl, testl, addl, jae, jne, je, Cpu.read, Cpu.write, Cpu.get, Cpu.set,
    h.edi, h.edx, h.ecx, hebx, ofNat_add_ofNat, hdouble, BitVec.and_self]
  rw [toNat_ofNat_of_lt (by omega), toNat_ofNat_of_lt (by omega), if_neg (by simp; omega),
    if_neg (by simp), if_neg (by simpa using hne)]
  exact .now ⟨rfl, rfl, rfl, ⟨⟨h.esi, rfl, rfl, rfl⟩, h.toDecompMem, h.esp⟩⟩

/-- Output is missing and the group is used up. -/
theorem leadsTo_decompRefill (h : Decoding c i o s) (htotal : o.length < c.total)
    (hebx : s.ebx = 0x80#32) :
    LeadsTo (within fst k c.touched c.written) (decompTop, s) fun x => x.1 = decompRefill ∧
      Decoding c i o x.2 := by
  have hdst := c.dst_lt
  have hcap := c.total_le
  refine leadsTo_within rfl contained_decompTop rfl ?_
  simp only [runBlock, cmpl, testl, addl, jae, jne, je, Cpu.read, Cpu.write, Cpu.get, Cpu.set,
    h.edi, h.edx, h.ecx, hebx, ofNat_add_ofNat, BitVec.and_self]
  rw [toNat_ofNat_of_lt (by omega), toNat_ofNat_of_lt (by omega), if_neg (by simp; omega),
    if_neg (by simp), if_pos (by simp)]
  exact .now ⟨rfl, ⟨⟨h.esi, rfl, rfl, rfl⟩, h.toDecompMem, h.esp⟩⟩

/-- The next flag byte comes in. -/
theorem leadsTo_decompItem_refill {f : UInt8} (h : Decoding c i o s) (htotal : o.length < c.total)
    (hebx : s.ebx = 0x80#32) (hf : c.src[i]? = some f) :
    LeadsTo (within fst k c.touched c.written) (decompTop, s) fun x => x.1 = decompItem ∧
      x.2.ebx = .ofNat 32 (2 ^ 0) ∧ x.2.ebp = .ofNat 32 f.toNat ∧ Decoding c (i + 1) o x.2 := by
  refine (leadsTo_decompRefill h htotal hebx).trans ?_
  rintro ⟨_, s₁⟩ ⟨rfl, hd⟩
  dsimp only at hd
  refine leadsTo_within rfl (contained_decompRefill ?_) rfl ?_
  · rw [hd.esi]
    exact c.inp_touched (List.getElem?_eq_some_iff.mp hf).1
  simp only [runBlock, movl, movzbl, incl, Cpu.read, Cpu.write, Cpu.read8, Cpu.get, Cpu.set, hd.esi,
    BitVec.add_zero, ofNat_add_ofNat, hd.byte hf]
  exact .now ⟨rfl, rfl, rfl, ⟨⟨rfl, hd.edi, hd.edx, hd.ecx⟩, hd.toDecompMem, hd.esp⟩⟩

/-! ### Groups -/

/-- **The rest of a group.** The machine is at the top of the loop after the item of bit `bit`; `n`
bits are left. It comes back to the top with the mask used up, or with the output complete. -/
theorem leadsTo_decompBits {flags bit n i' : ℕ} {o' : List UInt8} (hn : bit + 1 + n = 8)
    (hflags : flags < 256) (h : Decoding c i o s) (hebx : s.ebx = .ofNat 32 (2 ^ bit))
    (hebp : s.ebp = .ofNat 32 flags)
    (hbits : decompressBits c.src c.total flags (List.range' (bit + 1) n) i o = .ok (i', o'))
    (hr : ∀ r ∈ bitsBackRefs c.src c.total flags (List.range' (bit + 1) n) i o, r.1 ≤ r.2)
    (hcap : o'.length ≤ c.cap) :
    LeadsTo (within fst k c.touched c.written) (decompTop, s) fun x => x.1 = decompTop ∧
      (x.2.ebx = 0x80#32 ∨ c.total ≤ o'.length) ∧ Decoding c i' o' x.2 := by
  induction n generalizing bit i o s with
  | zero =>
    cases hbits
    have : bit = 7 := by omega
    subst this
    exact .now ⟨rfl, Or.inl hebx, h⟩
  | succ n ih =>
    rw [List.range'_succ, decompressBits] at hbits
    rw [List.range'_succ, bitsBackRefs] at hr
    by_cases htotal : c.total ≤ o.length
    · rw [if_pos htotal] at hbits
      cases hbits
      exact .now ⟨rfl, Or.inr htotal, h⟩
    · rw [if_neg htotal] at hbits hr
      cases hitem : decompressItem c.src flags (bit + 1) i o with
      | error e => rw [hitem] at hbits; cases hbits
      | ok p =>
        rw [hitem] at hbits hr
        have hgrow : p.2.length ≤ o'.length := length_le_of_decompressBits hbits
        refine (leadsTo_decompItem_next h (by omega) (by omega) hebx).trans ?_
        rintro ⟨_, s₁⟩ ⟨rfl, hebx₁, hebp₁, hd₁⟩
        refine (leadsTo_decompItem hd₁ hflags (by omega) hebx₁ (hebp₁.trans hebp) hitem
          (fun r hm => hr r (List.mem_append_left _ hm)) (by omega)).trans ?_
        rintro ⟨_, s₂⟩ ⟨rfl, hebx₂, hebp₂, hd₂⟩
        exact ih (by omega) hd₂ (hebx₂.trans hebx₁) (hebp₂.trans (hebp₁.trans hebp)) hbits
          fun r hm => hr r (List.mem_append_right _ hm)

/-- **A whole group**, from the flag byte on. -/
theorem leadsTo_decompGroup {f : UInt8} {i' : ℕ} {o' : List UInt8} (h : Decoding c i o s)
    (htotal : o.length < c.total) (hebx : s.ebx = 0x80#32) (hf : c.src[i]? = some f)
    (hbits : decompressBits c.src c.total f.toNat (List.range 8) (i + 1) o = .ok (i', o'))
    (hr : ∀ r ∈ bitsBackRefs c.src c.total f.toNat (List.range 8) (i + 1) o, r.1 ≤ r.2)
    (hcap : o'.length ≤ c.cap) :
    LeadsTo (within fst k c.touched c.written) (decompTop, s) fun x => x.1 = decompTop ∧
      (x.2.ebx = 0x80#32 ∨ c.total ≤ o'.length) ∧ Decoding c i' o' x.2 := by
  have hflags : f.toNat < 256 := f.toNat_lt
  rw [show List.range 8 = 0 :: List.range' 1 7 from rfl, decompressBits,
    if_neg (Nat.not_le.mpr htotal)] at hbits
  rw [show List.range 8 = 0 :: List.range' 1 7 from rfl, bitsBackRefs,
    if_neg (Nat.not_le.mpr htotal)] at hr
  cases hitem : decompressItem c.src f.toNat 0 (i + 1) o with
  | error e => rw [hitem] at hbits; cases hbits
  | ok p =>
    rw [hitem] at hbits hr
    have hgrow : p.2.length ≤ o'.length := length_le_of_decompressBits hbits
    refine (leadsTo_decompItem_refill h htotal hebx hf).trans ?_
    rintro ⟨_, s₁⟩ ⟨rfl, hebx₁, hebp₁, hd₁⟩
    refine (leadsTo_decompItem hd₁ hflags (by decide) hebx₁ hebp₁ hitem
      (fun r hm => hr r (List.mem_append_left _ hm)) (by omega)).trans ?_
    rintro ⟨_, s₂⟩ ⟨rfl, hebx₂, hebp₂, hd₂⟩
    exact leadsTo_decompBits (by decide) hflags hd₂ (hebx₂.trans hebx₁) (hebp₂.trans hebp₁) hbits
      (fun r hm => hr r (List.mem_append_right _ hm)) hcap

/-- **All groups.** By induction on the passes of the reference decoder. -/
theorem leadsTo_decompLoop {fuel : ℕ} {out : List UInt8} (h : Decoding c i o s)
    (hebx : s.ebx = 0x80#32 ∨ c.total ≤ o.length)
    (hloop : decompressLoop c.src c.total fuel i o = .ok out)
    (hfuel : c.total ≤ o.length + fuel)
    (hr : ∀ r ∈ loopBackRefs c.src c.total fuel i o, r.1 ≤ r.2) (hcap : out.length ≤ c.cap) :
    LeadsTo (within fst k c.touched c.written) (decompTop, s) fun x => x.1 = decompOk ∧
      ∃ i', Decoding c i' out x.2 := by
  induction fuel generalizing i o s with
  | zero =>
    cases hloop
    refine (leadsTo_decompOk h (by omega) hcap).mono ?_
    rintro ⟨_, s₁⟩ ⟨rfl, hd⟩
    exact ⟨rfl, i, hd⟩
  | succ fuel ih =>
    rw [decompressLoop] at hloop
    rw [loopBackRefs] at hr
    by_cases htotal : c.total ≤ o.length
    · rw [if_pos htotal] at hloop
      cases hloop
      refine (leadsTo_decompOk h htotal hcap).mono ?_
      rintro ⟨_, s₁⟩ ⟨rfl, hd⟩
      exact ⟨rfl, i, hd⟩
    · rw [if_neg htotal] at hloop hr
      by_cases hi : c.src.length ≤ i
      · rw [if_pos hi] at hloop; cases hloop
      · rw [if_neg hi] at hloop
        cases hf : Python.pyIndex c.src (i : ℤ) with
        | error e => rw [hf] at hloop; cases hloop
        | ok f =>
          rw [hf] at hloop hr
          simp only [bind, Except.bind] at hloop hr
          cases hbits : decompressBits c.src c.total f.toNat (List.range 8) (i + 1) o with
          | error e => rw [hbits] at hloop; cases hloop
          | ok p =>
            rw [hbits] at hloop hr
            have hgrow : o.length < p.2.length := length_lt_of_decompressBits htotal hbits
            have hgrow' : p.2.length ≤ out.length := length_le_of_decompressLoop hloop
            refine (leadsTo_decompGroup h (by omega) (hebx.resolve_right htotal)
              (pyIndex_ofNat_eq_ok_iff.mp hf) hbits
              (fun r hm => hr r (List.mem_append_left _ hm)) (by omega)).trans ?_
            rintro ⟨_, s₁⟩ ⟨rfl, hebx₁, hd₁⟩
            exact ih hd₁ hebx₁ hloop (by omega) fun r hm => hr r (List.mem_append_right _ hm)

/-! ### The routine -/

/-- The memory layout of a call with a container of `ilen` bytes at `esi`, an output of `olen` bytes
at `edi` and the return address on the stack: nothing wraps, and container, output and stack do not
overlap. The routine uses 28 bytes of stack. -/
structure DecompLayout (s : Cpu) (ilen olen : ℕ) : Prop where
  /-- The container does not wrap. -/
  inp_le : s.esi.toNat + ilen ≤ 2 ^ 32
  /-- Neither does the output, nor the pointer behind it. -/
  dst_lt : s.edi.toNat + olen < 2 ^ 32
  /-- There is room on the stack. -/
  sp_ge : 28 ≤ s.esp.toNat
  /-- The return address does not wrap. -/
  sp_le : s.esp.toNat + 4 ≤ 2 ^ 32
  /-- Container and output are apart. -/
  inp_dst : s.esi.toNat + ilen ≤ s.edi.toNat ∨ s.edi.toNat + olen ≤ s.esi.toNat
  /-- Container and stack are apart. -/
  inp_sp : s.esi.toNat + ilen ≤ s.esp.toNat - 28 ∨ s.esp.toNat + 4 ≤ s.esi.toNat
  /-- Output and stack are apart. -/
  dst_sp : s.edi.toNat + olen ≤ s.esp.toNat - 28 ∨ s.esp.toNat + 4 ≤ s.edi.toNat

/-- The memory after the four pushes at the start of the routine. -/
def savedMem (s : Cpu) : Memory :=
  (((s.mem.store 4 (s.esp.toNat - 4) s.ebx.toNat).store 4 (s.esp.toNat - 8) s.ebp.toNat).store 4
    (s.esp.toNat - 12) s.esi.toNat).store 4 (s.esp.toNat - 16) s.edi.toNat

theorem savedMem_frame (h : 16 ≤ s.esp.toNat) :
    EqOutside s.mem (savedMem s) [(s.esp.toNat - 16, 16)] := by
  have hsub : ∀ (m : Memory) (a v : ℕ), s.esp.toNat - 16 ≤ a → a + 4 ≤ s.esp.toNat →
      EqOutside m (m.store 4 a v) [(s.esp.toNat - 16, 16)] := by
    intro m a v ha ha'
    refine (eqOutside_store m 4 a v).mono fun x hx => ?_
    simp only [outside_cons, outside_nil, and_true] at hx ⊢
    omega
  exact (((hsub _ _ _ (by omega) (by omega)).trans (hsub _ _ _ (by omega) (by omega))).trans
    (hsub _ _ _ (by omega) (by omega))).trans (hsub _ _ _ (by omega) (by omega))

/-- The saved registers, in the order in which they are popped. -/
theorem savedMem_load (h : 16 ≤ s.esp.toNat) :
    (savedMem s).load 4 (s.esp.toNat - 16) = s.edi.toNat ∧
    (savedMem s).load 4 (s.esp.toNat - 12) = s.esi.toNat ∧
    (savedMem s).load 4 (s.esp.toNat - 8) = s.ebp.toNat ∧
    (savedMem s).load 4 (s.esp.toNat - 4) = s.ebx.toNat := by
  refine ⟨load_store_self s.edi.isLt, ?_, ?_, ?_⟩
  · rw [savedMem, load_store_of_disjoint (Or.inr (by omega)), load_store_self s.esi.isLt]
  · rw [savedMem, load_store_of_disjoint (Or.inr (by omega)),
      load_store_of_disjoint (Or.inr (by omega)), load_store_self s.ebp.isLt]
  · rw [savedMem, load_store_of_disjoint (Or.inr (by omega)),
      load_store_of_disjoint (Or.inr (by omega)), load_store_of_disjoint (Or.inr (by omega)),
      load_store_self s.ebx.isLt]

/-- The four pushes. -/
theorem pushes_eq_savedMem (h : 16 ≤ s.esp.toNat) (h' : s.esp.toNat + 4 ≤ 2 ^ 32) :
    st32 (st32 (st32 (st32 s.mem (s.esp - 4#32) s.ebx) (s.esp - 4#32 - 4#32) s.ebp)
      (s.esp - 4#32 - 4#32 - 4#32) s.esi) (s.esp - 4#32 - 4#32 - 4#32 - 4#32) s.edi
      = savedMem s := by
  rw [eq_ofNat_toNat s.esp, ofNat_sub_ofNat (by omega), ofNat_sub_ofNat (by omega),
    ofNat_sub_ofNat (by omega), ofNat_sub_ofNat (by omega), st32_ofNat (by omega),
    st32_ofNat (by omega), st32_ofNat (by omega), st32_ofNat (by omega)]
  rfl

theorem esp_pushes (h : 16 ≤ s.esp.toNat) :
    s.esp - 4#32 - 4#32 - 4#32 - 4#32 = .ofNat 32 (s.esp.toNat - 16) := by
  rw [eq_ofNat_toNat s.esp, ofNat_sub_ofNat (by omega), ofNat_sub_ofNat (by omega),
    ofNat_sub_ofNat (by omega), ofNat_sub_ofNat (by omega), toNat_ofNat_of_lt s.esp.isLt]
  rfl

/-- The input survives the pushes. -/
theorem holds_savedMem {n : ℕ} {src : List UInt8} (hl : DecompLayout s src.length n)
    (hsrc : s.mem.Holds s.esi.toNat src) : (savedMem s).Holds s.esi.toNat src := by
  have hge := hl.sp_ge
  refine hsrc.of_eqOutside (savedMem_frame (by omega)) fun x _ _ => ?_
  have := hl.inp_sp
  simp only [outside_cons, outside_nil, and_true]
  omega

/-- The call as the loop sees it. -/
def callOf {src out : List UInt8} (hl : DecompLayout s src.length out.length)
    (hsrc : s.mem.Holds s.esi.toNat src) (htotal : leNat (slice src 4 8) ≤ out.length) :
    DecompCall where
  src := src
  total := leNat (slice src 4 8)
  inp := s.esi.toNat
  dst := s.edi.toNat
  cap := out.length
  sp := s.esp.toNat - 16
  mem := savedMem s
  holds := holds_savedMem hl hsrc
  total_le := htotal
  inp_le := hl.inp_le
  dst_lt := hl.dst_lt
  sp_ge := by have := hl.sp_ge; omega
  sp_lt := by have := hl.sp_le; omega
  inp_dst := hl.inp_dst
  inp_sp := by have := hl.inp_sp; have := hl.sp_ge; omega
  dst_sp := by have := hl.dst_sp; have := hl.sp_ge; omega

/-- `c` is the call of the routine in `s`. -/
structure DecompCall.Entered (c : DecompCall) (s : Cpu) : Prop where
  inp : s.esi.toNat = c.inp
  dst : s.edi.toNat = c.dst
  sp : s.esp.toNat = c.sp + 16
  sp_le : c.sp + 20 ≤ 2 ^ 32
  dst_sp : c.dst + c.cap ≤ c.sp - 12 ∨ c.sp + 20 ≤ c.dst
  mem : c.mem = savedMem s
  total : c.total = leNat (slice c.src 4 8)

theorem entered_callOf {src out : List UInt8} (hl : DecompLayout s src.length out.length)
    (hsrc : s.mem.Holds s.esi.toNat src) (htotal : leNat (slice src 4 8) ≤ out.length) :
    (callOf hl hsrc htotal).Entered s := by
  have hsp := hl.sp_ge
  have hsp' := hl.sp_le
  have hds := hl.dst_sp
  have heq : s.esp.toNat = s.esp.toNat - 16 + 16 := by omega
  refine ⟨rfl, rfl, heq, ?_, ?_, rfl, rfl⟩
  all_goals
    dsimp only [callOf]
    omega

/-- The words pushed at the start of the routine. -/
theorem words_pushed {T : Set ℕ} (hsp : 16 ≤ s.esp.toNat)
    (hT : ∀ a, s.esp.toNat - 16 ≤ a → a < s.esp.toNat → a ∈ T) :
    Word T (s.esp - 4#32) ∧ Word T (s.esp - 4#32 - 4#32) ∧ Word T (s.esp - 4#32 - 4#32 - 4#32) ∧
      Word T (s.esp - 4#32 - 4#32 - 4#32 - 4#32) := by
  have hlt := s.esp.isLt
  rw [eq_ofNat_toNat s.esp, ofNat_sub_ofNat (by omega), ofNat_sub_ofNat (by omega),
    ofNat_sub_ofNat (by omega), ofNat_sub_ofNat (by omega)]
  refine ⟨?_, ?_, ?_, ?_⟩ <;>
    exact word_ofNat (by omega) fun a _ _ => hT a (by omega) (by omega)

/-- The pushes at the start of the routine, and the two words of the header, are in `R`. -/
theorem contained_qizoDecompress_of {R W : Set ℕ} (hsp : 16 ≤ s.esp.toNat)
    (hin : s.esi.toNat + 8 ≤ 2 ^ 32)
    (hR : ∀ a, s.esi.toNat ≤ a → a < s.esi.toNat + 8 → a ∈ R)
    (hstack : ∀ a, s.esp.toNat - 16 ≤ a → a < s.esp.toNat → a ∈ R ∧ a ∈ W) :
    Contained (step fst k) R W (qizoDecompress, s) := by
  refine contained_qizoDecompress (words_pushed hsp fun a h h' => (hstack a h h').1)
    (words_pushed hsp fun a h h' => (hstack a h h').2) ?_ ?_
  · rw [eq_ofNat_toNat s.esi]
    exact word_ofNat (by omega) fun a _ _ => hR a (by omega) (by omega)
  · rw [eq_ofNat_toNat s.esi, ofNat_add_ofNat]
    exact word_ofNat (by omega) fun a _ _ => hR a (by omega) (by omega)

/-- Saving the registers and reading the header. -/
theorem leadsTo_header {R W : Set ℕ} {src : List UInt8} (hsp : 16 ≤ s.esp.toNat)
    (hsp' : s.esp.toNat + 4 ≤ 2 ^ 32) (hin : s.esi.toNat + 8 ≤ 2 ^ 32)
    (hholds : (savedMem s).Holds s.esi.toNat src) (h8 : 8 ≤ src.length)
    (hmagic : leNat (slice src 0 4) = lzssMagic)
    (hcontained : Contained (step fst k) R W (qizoDecompress, s)) :
    LeadsTo (within fst k R W) (qizoDecompress, s) fun x => x.1 = decompTop ∧ x.2.ebx = 0x80#32 ∧
      x.2.ecx = 0#32 ∧ x.2.esi = s.esi + 8#32 ∧ x.2.edi = s.edi ∧
      x.2.edx = .ofNat 32 (leNat (slice src 4 8)) + s.edi ∧
      x.2.esp = .ofNat 32 (s.esp.toNat - 16) ∧ x.2.mem = savedMem s := by
  have hw0 : (savedMem s).load 4 s.esi.toNat = lzssMagic := by
    rw [← hmagic]
    exact load_of_holds_slice (k := 0) hholds (by omega)
  have hw4 : (savedMem s).load 4 (s.esi.toNat + 4) = leNat (slice src 4 8) :=
    load_of_holds_slice (k := 4) hholds (by omega)
  have hpush := pushes_eq_savedMem (s := s) hsp hsp'
  have hesp := esp_pushes (s := s) hsp
  have hmag : ld32 (savedMem s) s.esi = .ofNat 32 lzssMagic := by
    rw [eq_ofNat_toNat s.esi, ld32_ofNat (by omega), hw0]
  have htot : ld32 (savedMem s) (s.esi + 4#32) = .ofNat 32 (leNat (slice src 4 8)) := by
    rw [eq_ofNat_toNat s.esi, ofNat_add_ofNat, ld32_ofNat (by omega), hw4]
  refine leadsTo_within rfl hcontained rfl ?_
  simp only [runBlock, pushl, movl, cmpl, jne, addl, xorl, Cpu.read, Cpu.write, Cpu.get, Cpu.set,
    BitVec.add_zero, BitVec.xor_self, hpush, hmag, htot]
  rw [if_neg (by simp)]
  exact .now ⟨rfl, rfl, rfl, rfl, rfl, rfl, hesp, rfl⟩

theorem leadsTo_decompTop (h : c.Entered s) (h8 : 8 ≤ c.src.length)
    (hmagic : leNat (slice c.src 0 4) = lzssMagic) :
    LeadsTo (within fst k c.touched c.written) (qizoDecompress, s) fun x => x.1 = decompTop ∧
      x.2.ebx = 0x80#32 ∧ Decoding c 8 [] x.2 := by
  have hsp := h.sp
  have hsp' := h.sp_le
  have hin := c.inp_le
  have hinp := h.inp
  have hholds : (savedMem s).Holds s.esi.toNat c.src := by
    rw [hinp, ← h.mem]
    exact c.holds
  have hcontained : Contained (step fst k) c.touched c.written (qizoDecompress, s) := by
    refine contained_qizoDecompress_of (by omega) (by omega) (fun a _ _ => Or.inl (by omega))
      fun a _ _ => ⟨Or.inr (Or.inr (by omega)), Or.inr (by omega)⟩
  refine (leadsTo_header (by omega) (by omega) (by omega) hholds h8 hmagic hcontained).mono ?_
  rintro ⟨_, s₁⟩ ⟨rfl, hebx, hecx, hesi, hedi, hedx, hesp, hmem⟩
  refine ⟨rfl, hebx, ⟨⟨?_, ?_, ?_, hecx⟩, ⟨holds_nil _ _, ?_⟩, ?_⟩⟩
  · rw [hesi, ← hinp, ← ofNat_add_ofNat, ← eq_ofNat_toNat]
  · exact hedi.trans ((eq_ofNat_toNat s.edi).trans (congrArg (BitVec.ofNat 32) h.dst))
  · rw [hedx, h.total, ← h.dst, ← ofNat_add_ofNat, ← eq_ofNat_toNat, BitVec.add_comm]
  · rw [h.mem, hmem]
    exact .refl _ _
  · rw [hesp, hsp, Nat.add_sub_cancel]

/-- Restoring the registers and returning. -/
theorem leadsTo_decompRet {R W : Set ℕ} {F : List (ℕ × ℕ)} {l : Label} {s₁ : Cpu}
    (hsp : 16 ≤ s.esp.toNat) (hsp' : s.esp.toNat + 4 ≤ 2 ^ 32) (hret : ld32 s.mem s.esp = k.addr l)
    (hesp : s₁.esp = .ofNat 32 (s.esp.toNat - 16)) (hframe : EqOutside (savedMem s) s₁.mem F)
    (hF : ∀ x, s.esp.toNat - 16 ≤ x → x < s.esp.toNat + 4 → Outside F x)
    (hR : ∀ x, s.esp.toNat - 16 ≤ x → x < s.esp.toNat + 4 → x ∈ R) :
    LeadsTo (within fst k R W) (decompOk, s₁) fun x => x.1 = l ∧ x.2.eax = 1#32 ∧
      x.2.mem = s₁.mem ∧ x.2.ebx = s.ebx ∧ x.2.ebp = s.ebp ∧ x.2.esi = s.esi ∧ x.2.edi = s.edi ∧
      x.2.esp = s.esp + 4#32 := by
  have hkept : ∀ a, s.esp.toNat - 16 ≤ a → a ≤ s.esp.toNat →
      ld32 s₁.mem (.ofNat 32 a) = .ofNat 32 ((savedMem s).load 4 a) := by
    intro a ha ha'
    rw [ld32_ofNat (by omega), hframe.load_eq fun x hx hx' => hF x (by omega) (by omega)]
  obtain ⟨hedi, hesi, hebp, hebx⟩ := savedMem_load (s := s) (by omega)
  have htop : (savedMem s).load 4 s.esp.toNat = (k.addr l).toNat := by
    rw [(savedMem_frame (s := s) (by omega)).load_eq, ← toNat_ld32 (by omega), hret]
    intro x _ _
    simp only [outside_cons, outside_nil, and_true]
    omega
  refine leadsTo_within rfl contained_decompOk rfl ?_
  simp only [runBlock, movl, Cpu.read, Cpu.write, Cpu.set]
  refine leadsTo_within rfl (contained_decompRet ?_) rfl ?_
  · dsimp only
    simp only [hesp, ofNat_add_ofNat]
    refine ⟨?_, ?_, ?_, ?_, ?_⟩ <;>
      exact word_ofNat (by omega) fun a _ _ => hR a (by omega) (by omega)
  simp only [runBlock, popl, Cpu.set, hesp, ofNat_add_ofNat]
  rw [show s.esp.toNat - 16 + 4 = s.esp.toNat - 12 by omega,
    show s.esp.toNat - 12 + 4 = s.esp.toNat - 8 by omega,
    show s.esp.toNat - 8 + 4 = s.esp.toNat - 4 by omega,
    show s.esp.toNat - 4 + 4 = s.esp.toNat by omega, hkept _ (by omega) (by omega),
    hkept _ (by omega) (by omega), hkept _ (by omega) (by omega), hkept _ (by omega) (by omega),
    hkept _ (by omega) (by omega), hedi, hesi, hebp, hebx, htop, ← eq_ofNat_toNat, ← eq_ofNat_toNat,
    ← eq_ofNat_toNat, ← eq_ofNat_toNat, ← eq_ofNat_toNat, k.label_addr]
  refine .now ⟨rfl, rfl, rfl, rfl, rfl, rfl, rfl, ?_⟩
  dsimp only
  rw [← ofNat_add_ofNat, ← eq_ofNat_toNat]

/-- **The routine, from call to return.** -/
theorem leadsTo_decompressed {out : List UInt8} {l : Label} (h : c.Entered s)
    (hret : ld32 s.mem s.esp = k.addr l) (hdec : decompress c.src = .ok out)
    (hr : BackRefsInRange c.src) (hcap : out.length ≤ c.cap) :
    LeadsTo (within fst k c.touched c.written) (qizoDecompress, s) fun x => x.1 = l ∧
      x.2.eax = 1#32 ∧ DecompMem c out x.2.mem ∧
      x.2.ebx = s.ebx ∧ x.2.ebp = s.ebp ∧ x.2.esi = s.esi ∧ x.2.edi = s.edi ∧
      x.2.esp = s.esp + 4#32 := by
  obtain ⟨h8, hmagic, hloop⟩ := decompress_eq_ok_iff.mp hdec
  rw [BackRefsInRange, backRefs_eq h8] at hr
  rw [← h.total] at hloop hr
  refine (leadsTo_decompTop h h8 hmagic).trans ?_
  rintro ⟨_, s₁⟩ ⟨rfl, hebx₁, hd₁⟩
  refine (leadsTo_decompLoop hd₁ (Or.inl hebx₁) hloop (Nat.le_add_left _ _) hr hcap).trans ?_
  rintro ⟨_, s₂⟩ ⟨rfl, i', hd₂⟩
  have hsp := h.sp
  have hsp' := h.sp_le
  have hds := h.dst_sp
  have hge := c.sp_ge
  refine (leadsTo_decompRet (by omega) (by omega) hret ?_ (h.mem ▸ hd₂.frame) (fun x hx hx' => ?_)
    fun x hx hx' => Or.inr (Or.inr (by omega))).mono ?_
  · rw [hsp, Nat.add_sub_cancel]
    exact hd₂.esp
  · simp only [DecompCall.regions, outside_cons, outside_nil, and_true]
    omega
  rintro ⟨_, s₃⟩ ⟨rfl, heax, hmem, hregs⟩
  dsimp only at *
  exact ⟨rfl, heax, hmem ▸ hd₂.toDecompMem, hregs⟩

/-- **The routine, from call to return.** -/
theorem leadsTo_qizoDecompress {src out : List UInt8} {l : Label}
    (hl : DecompLayout s src.length out.length) (hsrc : s.mem.Holds s.esi.toNat src)
    (hret : ld32 s.mem s.esp = k.addr l) (hdec : decompress src = .ok out)
    (hr : BackRefsInRange src) :
    LeadsTo (step fst k) (qizoDecompress, s) fun x => x.1 = l ∧ x.2.eax = 1#32 ∧
      x.2.mem.Holds s.edi.toNat out ∧
      EqOutside s.mem x.2.mem [(s.edi.toNat, out.length), (s.esp.toNat - 28, 28)] ∧
      x.2.ebx = s.ebx ∧ x.2.ebp = s.ebp ∧ x.2.esi = s.esi ∧ x.2.edi = s.edi ∧
      x.2.esp = s.esp + 4#32 := by
  obtain ⟨h8, hmagic, hloop⟩ := decompress_eq_ok_iff.mp hdec
  have htotal : leNat (slice src 4 8) ≤ out.length :=
    le_length_of_decompressLoop (Nat.le_add_left _ _) hloop
  have hsp := hl.sp_ge
  refine (leadsTo_decompressed (entered_callOf hl hsrc htotal) hret hdec hr
    (Nat.le_refl _)).of_restrict.mono ?_
  rintro ⟨_, s₃⟩ ⟨rfl, heax, hmem, hregs⟩
  refine ⟨rfl, heax, hmem.out, ?_, hregs⟩
  refine ((savedMem_frame (by omega)).mono fun x hx => ?_).trans (hmem.frame.mono fun x hx => ?_)
  · simp only [outside_cons, outside_nil, and_true] at hx ⊢
    omega
  · simp only [DecompCall.regions, callOf, outside_cons, outside_nil, and_true] at hx ⊢
    omega

/-- **The two decoders agree.** Called on a container from which the reference decoder returns `out`
without a back reference that reaches before the output, with container, output and stack apart and
nothing wrapping, the routine returns one, leaves exactly `out` at the destination, changes nothing
else outside its stack frame, and restores the registers it saves. -/
theorem qizoDecompress_eq_decompress {src out : List UInt8} {l : Label}
    (hdec : decompress src = .ok out) (hr : BackRefsInRange src)
    (hl : DecompLayout s src.length out.length) (hsrc : s.mem.Holds s.esi.toNat src)
    (hret : ld32 s.mem s.esp = k.addr l) :
    ∃ s', Reaches (step fst k) (qizoDecompress, s) (l, s') ∧ s'.eax = 1#32 ∧
      s'.mem.bytes s.edi.toNat out.length = out ∧
      (∀ x, x < s.edi.toNat ∨ s.edi.toNat + out.length ≤ x →
        x < s.esp.toNat - 28 ∨ s.esp.toNat ≤ x → s'.mem x = s.mem x) ∧
      s'.ebx = s.ebx ∧ s'.ebp = s.ebp ∧ s'.esi = s.esi ∧ s'.edi = s.edi ∧
      s'.esp = s.esp + 4#32 := by
  obtain ⟨⟨_, s'⟩, hreach, rfl, heax, hout, hframe, hregs⟩ :=
    leadsTo_qizoDecompress hl hsrc hret hdec hr
  refine ⟨s', hreach, heax, holds_iff_bytes_eq.mp hout, fun x hx hx' => hframe x ?_, hregs⟩
  have := hl.sp_ge
  simp only [outside_cons, outside_nil, and_true]
  omega

/-- A container whose only match overlaps what it writes and goes one byte past the declared
length of four. -/
def overrunSrc : List UInt8 := [0x4C, 0x5A, 0x49, 0x51, 4, 0, 0, 0, 2, 97, 1, 0]

/-- The decoders on that container. -/
theorem qizoDecompress_eq_decompress_overrun :
    decompress overrunSrc = .ok [97, 97, 97, 97, 97] ∧
    ∃ s', Reaches (step 0x20000 consecutiveLink)
        (qizoDecompress,
          { callWith overrunSrc (consecutiveLink.addr decompBack) with edi := 0x2000#32 })
        (decompBack, s') ∧
      s'.eax = 1#32 ∧ s'.mem.bytes 0x2000 5 = [97, 97, 97, 97, 97] ∧
      (∀ x, x < 0x2000 ∨ 0x2000 + 5 ≤ x → x < 0x100 - 28 ∨ 0x100 ≤ x →
        s'.mem x = (callWith overrunSrc (consecutiveLink.addr decompBack)).mem x) ∧
      s'.ebx = 0#32 ∧ s'.ebp = 0#32 ∧ s'.esi = 0x1000#32 ∧ s'.edi = 0x2000#32 ∧
      s'.esp = 0x104#32 := by
  have hdec : decompress overrunSrc = .ok [97, 97, 97, 97, 97] := by decide
  refine ⟨hdec, qizoDecompress_eq_decompress hdec (by decide) ?_
    (callWith_holds overrunSrc _) (callWith_ret overrunSrc _)⟩
  constructor <;> decide

end Stage2

end Qizo
