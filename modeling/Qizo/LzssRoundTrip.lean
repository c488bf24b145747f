import Qizo.LzssDecode
import Mathlib.Data.List.Nodup
import Mathlib.Data.Nat.Bitwise

/-!
# Decompression undoes compression

The encoder and the reference decoder of `qizolzss.py` step through the same groups. The invariant
is that after any prefix of the groups the decoder's output is the prefix of the source the
encoder has consumed; what follows the stream, such as the zero padding of a sector, is never
looked at.

The argument has three layers: a match returned by `findMatch` describes bytes that are really
there (`isMatch_findMatch`), so copying it extends a prefix of the source to a longer prefix
(`copyLoop_take`); one group of the encoder is undone by one group of the decoder
(`compressBits_spec`); and so is the whole stream (`compressLoop_spec`).
-/

namespace Qizo

namespace Lzss

open ByteString Python

variable {src : List UInt8}

/-! ### What the match search returns -/

/-- A back reference of distance `off` and length `ln` at position `i` that describes the bytes
of `src` found there, possibly overlapping its own output. -/
structure IsMatch (src : List UInt8) (i limit off ln : ℕ) : Prop where
  /-- The distance is not zero. -/
  off_pos : 1 ≤ off
  /-- The distance fits the window. -/
  off_le_window : off ≤ window
  /-- The reference stays inside the source. -/
  off_le : off ≤ i
  /-- The length keeps to the limit. -/
  len_le : ln ≤ limit
  /-- The bytes agree. -/
  agree : ∀ t < ln, src[i - off + t]? = src[i + t]?

theorem agreeLoop_le (src : List UInt8) (j i fuel l : ℕ) :
    agreeLoop src j i fuel l ≤ l + fuel := by
  induction fuel generalizing l with
  | zero => exact Nat.le_refl l
  | succ fuel ih =>
    rw [agreeLoop]
    split
    · exact Nat.le_trans (ih (l + 1)) (by omega)
    · omega

theorem agree_of_lt_agreeLoop {j i fuel l t : ℕ} (hl : l ≤ t)
    (ht : t < agreeLoop src j i fuel l) : src[j + t]? = src[i + t]? := by
  induction fuel generalizing l with
  | zero => rw [agreeLoop] at ht; omega
  | succ fuel ih =>
    rw [agreeLoop] at ht
    split at ht
    · rename_i heq
      rcases Nat.eq_or_lt_of_le hl with rfl | hlt
      · exact heq
      · exact ih hlt ht
    · omega

/-- One candidate of the search is a match of the length the comparison loop found. -/
theorem isMatch_agreeLoop {i limit j : ℕ} (hj : j < i) (hw : i - window ≤ j) :
    IsMatch src i limit (i - j) (agreeLoop src j i limit 0) where
  off_pos := by omega
  off_le_window := by omega
  off_le := Nat.sub_le i j
  len_le := by simpa using agreeLoop_le src j i limit 0
  agree t ht := by
    rw [show i - (i - j) = j by omega]
    exact agree_of_lt_agreeLoop (Nat.zero_le t) ht

theorem isMatch_searchLoop {i limit j : ℕ} {best : ℕ × ℕ} (hj : j ≤ i)
    (hbest : best.1 = 0 ∨ IsMatch src i limit best.2 best.1) :
    (searchLoop src i limit (i - window) j best).1 = 0 ∨
      IsMatch src i limit (searchLoop src i limit (i - window) j best).2
        (searchLoop src i limit (i - window) j best).1 := by
  induction j generalizing best with
  | zero => exact hbest
  | succ j ih =>
    rw [searchLoop]
    split
    · exact hbest
    · rename_i hstart
      have hcand := @isMatch_agreeLoop src i limit j (by omega)
        (Nat.not_lt.mp hstart)
      dsimp only
      split
      · split
        · exact Or.inr hcand
        · exact ih (by omega) (Or.inr hcand)
      · exact ih (by omega) hbest

/-- **A returned match is one.** Where `findMatch` returns a length, it is within the limits of a
token and the reference describes the source. -/
theorem isMatch_findMatch {i n : ℕ} (h : (findMatch src i n).2 ≠ 0) :
    minMatch ≤ (findMatch src i n).2 ∧
      IsMatch src i (min maxMatch (n - i)) (findMatch src i n).1 (findMatch src i n).2 := by
  rw [findMatch] at h ⊢
  dsimp only at h ⊢
  split at h
  · exact absurd rfl h
  · rename_i hlimit
    rw [if_neg hlimit] at *
    split at h
    · exact absurd rfl h
    · rename_i hbest
      rw [if_neg hbest] at *
      refine ⟨Nat.not_lt.mp hbest, ?_⟩
      rcases @isMatch_searchLoop _ _ _ _ (0, 0)
        (Nat.le_refl i) (Or.inl rfl) with h0 | hm
      · exact absurd h0 h
      · exact hm

/-! ### Tokens -/

section Token

variable {off ln : ℕ}

/-- The token of a match as a sum: its two fields do not overlap. -/
theorem token_eq (hln : ln ≤ maxMatch) :
    ((off - 1) <<< 4) ||| (ln - minMatch) = (off - 1) * 16 + (ln - minMatch) := by
  have hlt : ln - minMatch < 2 ^ 4 := by unfold maxMatch at hln; unfold minMatch; omega
  rw [← Nat.shiftLeft_add_eq_or_of_lt hlt, Nat.shiftLeft_eq]

theorem token_lt (hoff : off ≤ window) (hln : ln ≤ maxMatch) :
    ((off - 1) <<< 4) ||| (ln - minMatch) < 256 ^ 2 := by
  rw [token_eq hln]
  unfold window at hoff
  unfold maxMatch at hln
  unfold minMatch
  omega

theorem tokenOff_token (hoff : 1 ≤ off) (hln : ln ≤ maxMatch) :
    tokenOff (((off - 1) <<< 4) ||| (ln - minMatch)) = off := by
  rw [tokenOff, token_eq hln, Nat.shiftRight_eq_div_pow]
  unfold maxMatch at hln
  unfold minMatch
  omega

theorem tokenLen_token (hmin : minMatch ≤ ln) (hln : ln ≤ maxMatch) :
    tokenLen (((off - 1) <<< 4) ||| (ln - minMatch)) = ln := by
  rw [tokenLen, token_eq hln, show (0xF : ℕ) = 2 ^ 4 - 1 from rfl, Nat.and_two_pow_sub_one_eq_mod]
  unfold maxMatch at hln
  unfold minMatch at hmin ⊢
  omega

end Token

theorem and_shiftLeft_ne_zero_iff (flags bit : ℕ) :
    flags &&& (1 <<< bit) ≠ 0 ↔ flags.testBit bit = true := by
  rw [Nat.one_shiftLeft, Nat.and_two_pow]
  cases flags.testBit bit <;> simp

/-! ### Items -/

/-- Copying a match extends a prefix of the source to a longer prefix. The copy may read bytes it
has itself just written: each byte read is below the end of the output at that moment. -/
theorem copyLoop_take {i limit off ln : ℕ} (hm : IsMatch src i limit off ln)
    (hlen : i + ln ≤ src.length) : ∀ {fuel k : ℕ}, k + fuel = ln →
    copyLoop ((i : ℤ) - off) fuel k (src.take (i + k)) = .ok (src.take (i + ln)) := by
  intro fuel
  induction fuel with
  | zero => intro k hk; rw [copyLoop, show k = ln by omega]
  | succ fuel ih =>
    intro k hk
    have hoff := hm.off_le
    have hpos := hm.off_pos
    have hlt : i + k < src.length := by omega
    have hread : (src.take (i + k))[i - off + k]? = some src[i + k] := by
      rw [List.getElem?_take_of_lt (by omega), hm.agree k (by omega),
        List.getElem?_eq_getElem hlt]
    have hidx : ((i : ℤ) - off + k) = ((i - off + k : ℕ) : ℤ) := by omega
    rw [copyLoop, hidx, pyIndex_ofNat hread]
    simp only [bind, Except.bind]
    rw [show src.take (i + k) ++ [src[i + k]] = src.take (i + (k + 1)) by
      rw [← Nat.add_assoc, List.take_add_one, List.getElem?_eq_getElem hlt]; rfl]
    exact ih (by omega)

theorem slice_append_mid (pre mid rest : List UInt8) :
    slice (pre ++ mid ++ rest) pre.length (pre.length + mid.length) = mid := by
  rw [slice, ← List.length_append, List.take_left, List.drop_left]

theorem pyIndex_append_cons (pre rest : List UInt8) (b : UInt8) :
    pyIndex (pre ++ b :: rest) (pre.length : ℤ) = .ok b :=
  pyIndex_ofNat (by simp)

/-- The item of a literal is decoded to the byte. -/
theorem decompressItem_literal {flags bit i : ℕ} {pre rest : List UInt8}
    (hbit : flags.testBit bit = false) (hi : i < src.length) :
    decompressItem (pre ++ [src[i]] ++ rest) flags bit pre.length (src.take i)
      = .ok (pre.length + 1, src.take (i + 1)) := by
  have hclear : ¬ flags &&& (1 <<< bit) ≠ 0 := by
    rw [and_shiftLeft_ne_zero_iff, hbit]; exact Bool.false_ne_true
  rw [decompressItem, if_neg hclear, List.append_assoc, List.singleton_append, pyIndex_append_cons,
    List.take_add_one, List.getElem?_eq_getElem hi]
  rfl

/-- The item of a match is decoded to the bytes it stands for. -/
theorem decompressItem_match {flags bit i limit off ln : ℕ} {pre rest : List UInt8}
    (hbit : flags.testBit bit = true) (hm : IsMatch src i limit off ln) (hmin : minMatch ≤ ln)
    (hmax : ln ≤ maxMatch) (hlen : i + ln ≤ src.length) :
    decompressItem (pre ++ leBytes 2 (((off - 1) <<< 4) ||| (ln - minMatch)) ++ rest) flags bit
        pre.length (src.take i)
      = .ok (pre.length + 2, src.take (i + ln)) := by
  have hset : flags &&& (1 <<< bit) ≠ 0 := (and_shiftLeft_ne_zero_iff flags bit).mpr hbit
  have htok := slice_append_mid pre (leBytes 2 (((off - 1) <<< 4) ||| (ln - minMatch))) rest
  rw [length_leBytes] at htok
  have hcopy := @copyLoop_take _ _ _ _ _ hm hlen ln 0 (by omega)
  have hout : (src.take i).length = i := by rw [List.length_take]; omega
  rw [decompressItem, if_pos hset, unpackFrom_of_le (by simp), htok,
    leNat_leBytes (token_lt hm.off_le_window hmax)]
  simp only [bind, Except.bind, tokenOff_token hm.off_pos hmax, tokenLen_token hmin hmax, hout]
  rw [Nat.add_zero] at hcopy
  rw [hcopy]
  rfl

/-- A literal refers to nothing. -/
theorem itemBackRefs_literal {flags bit i : ℕ} {s out : List UInt8}
    (hbit : flags.testBit bit = false) : itemBackRefs s flags bit i out = [] := by
  have hclear : ¬ flags &&& (1 <<< bit) ≠ 0 := by
    rw [and_shiftLeft_ne_zero_iff, hbit]; exact Bool.false_ne_true
  rw [itemBackRefs, if_neg hclear]

/-- A match of the encoder starts inside what has been decoded. -/
theorem itemBackRefs_match {flags bit i limit off ln : ℕ} {pre rest : List UInt8}
    (hm : IsMatch src i limit off ln) (hmax : ln ≤ maxMatch) (hi : i ≤ src.length) :
    ∀ r ∈ itemBackRefs (pre ++ leBytes 2 (((off - 1) <<< 4) ||| (ln - minMatch)) ++ rest) flags bit
      pre.length (src.take i), r.1 ≤ r.2 := by
  have htok := slice_append_mid pre (leBytes 2 (((off - 1) <<< 4) ||| (ln - minMatch))) rest
  rw [length_leBytes] at htok
  have hout : (src.take i).length = i := by rw [List.length_take]; omega
  rw [itemBackRefs]
  split
  · rw [unpackFrom_of_le (by simp), htok, leNat_leBytes (token_lt hm.off_le_window hmax)]
    intro r hr
    rw [List.mem_singleton.mp hr, tokenOff_token hm.off_pos hmax, hout]
    exact hm.off_le
  · simp

/-! ### Groups -/

/-- What one pass over the remaining bits of a group does: the encoder moves from `i` to `i'`,
appends `new` to the items and adds its bits to the flag byte; a decoder that sees the finished
flag byte and finds `new` at its position moves from the prefix of length `i` to that of length
`i'`. -/
structure GroupSpec (src : List UInt8) (bits : List ℕ) (i flags : ℕ) (i' flags' : ℕ)
    (new : List UInt8) : Prop where
  /-- The encoder does not move back. -/
  le : i ≤ i'
  /-- Nor past the end of the source. -/
  le_length : i' ≤ src.length
  /-- It moves if there is something to encode. -/
  lt : bits ≠ [] → i < src.length → i < i'
  /-- Bits of other items are left alone. -/
  testBit_of_notMem : ∀ b, b ∉ bits → flags'.testBit b = flags.testBit b
  /-- The decoder undoes the pass. -/
  decode : ∀ pre rest : List UInt8,
    decompressBits (pre ++ new ++ rest) src.length flags' bits pre.length (src.take i)
      = .ok (pre.length + new.length, src.take i')
  /-- And finds no back reference that reaches before its output. -/
  inRange : ∀ pre rest : List UInt8,
    ∀ r ∈ bitsBackRefs (pre ++ new ++ rest) src.length flags' bits pre.length (src.take i),
      r.1 ≤ r.2

theorem GroupSpec.refl {bits : List ℕ} {i flags : ℕ} (hi : i ≤ src.length)
    (h : bits = [] ∨ i = src.length) : GroupSpec src bits i flags i flags [] where
  le := Nat.le_refl i
  le_length := hi
  lt hb hlt := by rcases h with h | h <;> [exact absurd h hb; omega]
  testBit_of_notMem _ _ := rfl
  decode pre rest := by
    rcases h with rfl | rfl
    · rfl
    · cases bits with
      | nil => rfl
      | cons b bits => rw [decompressBits, if_pos (by simp)]; rfl
  inRange pre rest := by
    rcases h with rfl | rfl
    · simp [bitsBackRefs]
    · cases bits with
      | nil => simp [bitsBackRefs]
      | cons b bits => simp [bitsBackRefs]

/-- Prepending one item. `item` is what the encoder appends for it. -/
theorem GroupSpec.cons {bit : ℕ} {bits : List ℕ} {i flags i₁ flags₁ i' flags' : ℕ}
    {item new : List UInt8} (hi : i < src.length) (hlt : i < i₁) (hnot : bit ∉ bits)
    (hother : ∀ b, b ≠ bit → flags₁.testBit b = flags.testBit b)
    (hitem : ∀ pre rest : List UInt8, flags'.testBit bit = flags₁.testBit bit →
      decompressItem (pre ++ item ++ rest) flags' bit pre.length (src.take i)
        = .ok (pre.length + item.length, src.take i₁))
    (hrefs : ∀ pre rest : List UInt8, flags'.testBit bit = flags₁.testBit bit →
      ∀ r ∈ itemBackRefs (pre ++ item ++ rest) flags' bit pre.length (src.take i), r.1 ≤ r.2)
    (h : GroupSpec src bits i₁ flags₁ i' flags' new) :
    GroupSpec src (bit :: bits) i flags i' flags' (item ++ new) where
  le := Nat.le_trans (Nat.le_of_lt hlt) h.le
  le_length := h.le_length
  lt _ _ := Nat.lt_of_lt_of_le hlt h.le
  testBit_of_notMem b hb := by
    rw [List.mem_cons, not_or] at hb
    rw [h.testBit_of_notMem b hb.2, hother b hb.1]
  decode pre rest := by
    have hmore : ¬ src.length ≤ (src.take i).length := by rw [List.length_take]; omega
    have hfirst := hitem pre (new ++ rest) (h.testBit_of_notMem bit hnot)
    have hrest := h.decode (pre ++ item) rest
    rw [decompressBits, if_neg hmore, ← List.append_assoc pre, List.append_assoc (pre ++ item),
      hfirst]
    simp only [bind, Except.bind]
    rw [← List.append_assoc, ← List.length_append, hrest, List.length_append, List.length_append,
      Nat.add_assoc]
  inRange pre rest := by
    have hmore : ¬ src.length ≤ (src.take i).length := by rw [List.length_take]; omega
    have hbit := h.testBit_of_notMem bit hnot
    have hfirst := hitem pre (new ++ rest) hbit
    intro r hr
    rw [bitsBackRefs, if_neg hmore, ← List.append_assoc pre, List.append_assoc (pre ++ item),
      hfirst, List.mem_append] at hr
    rcases hr with hr | hr
    · exact hrefs pre (new ++ rest) hbit r hr
    · rw [← List.length_append, ← List.append_assoc] at hr
      exact h.inRange (pre ++ item) rest r hr

/-- **One group.** The encoder's pass over the bits of a group succeeds, and the decoder undoes
it. The flag bits of the items to come have to be clear at the start. -/
theorem compressBits_spec {bits : List ℕ} (hnd : bits.Nodup) {i flags : ℕ} (items : List UInt8)
    (hi : i ≤ src.length) (hclear : ∀ b ∈ bits, flags.testBit b = false) :
    ∃ i' flags' new, compressBits src src.length bits i flags items
        = .ok (i', flags', items ++ new) ∧ GroupSpec src bits i flags i' flags' new := by
  induction bits generalizing i flags items with
  | nil => exact ⟨i, flags, [], by rw [compressBits, List.append_nil], .refl hi (.inl rfl)⟩
  | cons bit bits ih =>
    obtain ⟨hnot, hnd⟩ := List.nodup_cons.mp hnd
    rw [compressBits]
    split
    · rename_i hend
      exact ⟨i, flags, [], by rw [List.append_nil], .refl hi (.inr (by omega))⟩
    · rename_i hmore
      have hlt : i < src.length := Nat.not_le.mp hmore
      dsimp only
      split
      · -- a match: the bit is set and the token appended
        rename_i hmatch
        obtain ⟨hmin, hm⟩ := isMatch_findMatch hmatch
        have hlen := hm.len_le
        have hmax : (findMatch src i src.length).2 ≤ maxMatch :=
          Nat.le_trans hlen (Nat.min_le_left _ _)
        have hin : i + (findMatch src i src.length).2 ≤ src.length := by omega
        have hother : ∀ b, b ≠ bit → (flags ||| 1 <<< bit).testBit b = flags.testBit b := by
          intro b hb
          rw [Nat.testBit_or, Nat.one_shiftLeft, Nat.testBit_two_pow_of_ne (Ne.symm hb),
            Bool.or_false]
        rw [pack_of_lt (token_lt hm.off_le_window hmax)]
        simp only [bind, Except.bind]
        obtain ⟨i', flags', new, heq, hspec⟩ := ih hnd _ hin fun b hb => by
          rw [hother b (by rintro rfl; exact hnot hb)]
          exact hclear b (List.mem_cons_of_mem _ hb)
        refine ⟨i', flags', leBytes 2 _ ++ new, by rw [heq, List.append_assoc], ?_⟩
        refine .cons hlt (by unfold minMatch at hmin; omega) hnot hother (fun pre rest hbit => ?_)
          (fun pre rest _ => itemBackRefs_match hm hmax hi) hspec
        rw [length_leBytes]
        refine decompressItem_match ?_ hm hmin hmax hin
        rw [hbit, Nat.testBit_or, Nat.one_shiftLeft, Nat.testBit_two_pow_self, Bool.or_true]
      · -- a literal: the bit stays clear and the byte is appended
        rw [pyIndex_ofNat (List.getElem?_eq_getElem hlt)]
        simp only [bind, Except.bind]
        obtain ⟨i', flags', new, heq, hspec⟩ := ih hnd (items ++ [src[i]]) (i := i + 1) hlt
          fun b hb => hclear b (List.mem_cons_of_mem _ hb)
        refine ⟨i', flags', [src[i]] ++ new, by rw [heq, List.append_assoc], ?_⟩
        have hzero : flags.testBit bit = false := hclear bit (List.mem_cons_self ..)
        refine .cons hlt (Nat.lt_succ_self i) hnot (fun b _ => rfl)
          (fun pre rest hbit => decompressItem_literal (hbit.trans hzero) hlt)
          (fun pre rest hbit => ?_) hspec
        rw [itemBackRefs_literal (hbit.trans hzero)]
        simp

/-! ### The whole stream -/

/-- A decoder that has produced enough stops, whatever it was given. -/
theorem decompressLoop_of_le {s out : List UInt8} {total i : ℕ} (fuel : ℕ)
    (h : total ≤ out.length) : decompressLoop s total fuel i out = .ok out := by
  cases fuel with
  | zero => rfl
  | succ fuel => rw [decompressLoop, if_pos h]

theorem loopBackRefs_of_le {s out : List UInt8} {total i : ℕ} (fuel : ℕ)
    (h : total ≤ out.length) : loopBackRefs s total fuel i out = [] := by
  cases fuel with
  | zero => rfl
  | succ fuel => rw [loopBackRefs, if_pos h]

/-- **The stream.** From any position the encoder's loop succeeds, and the decoder's loop turns
what it appended back into the rest of the source, whatever stands before and behind it. -/
theorem compressLoop_spec {fuel i : ℕ} (hi : i ≤ src.length) (hfuel : src.length ≤ i + fuel)
    (out : List UInt8) :
    ∃ stream, compressLoop src src.length fuel i out = .ok (out ++ stream) ∧
      ∀ (pre rest : List UInt8) (fuel' : ℕ), src.length ≤ i + fuel' →
        decompressLoop (pre ++ stream ++ rest) src.length fuel' pre.length (src.take i)
          = .ok src ∧
        ∀ r ∈ loopBackRefs (pre ++ stream ++ rest) src.length fuel' pre.length (src.take i),
          r.1 ≤ r.2 := by
  have hdone : ∀ {i}, src.length ≤ i → ∀ (s : List UInt8) (fuel' p : ℕ),
      decompressLoop s src.length fuel' p (src.take i) = .ok src ∧
        ∀ r ∈ loopBackRefs s src.length fuel' p (src.take i), r.1 ≤ r.2 := by
    intro i hi s fuel' p
    rw [List.take_of_length_le hi, loopBackRefs_of_le fuel' (Nat.le_refl _)]
    exact ⟨decompressLoop_of_le fuel' (Nat.le_refl _), by simp⟩
  induction fuel generalizing i out with
  | zero =>
    refine ⟨[], by rw [compressLoop, List.append_nil], fun pre rest fuel' _ => ?_⟩
    exact hdone (by omega) _ fuel' _
  | succ fuel ih =>
    rw [compressLoop]
    split
    · rename_i hend
      exact ⟨[], by rw [List.append_nil], fun pre rest fuel' _ => hdone hend _ fuel' _⟩
    · rename_i hmore
      have hlt : i < src.length := Nat.not_le.mp hmore
      obtain ⟨i', flags', new, heq, hspec⟩ := @compressBits_spec _ (List.range 8)
        List.nodup_range _ 0 [] hi fun b _ => Nat.zero_testBit b
      have hlt' : i < i' := hspec.lt (by simp) hlt
      -- all eight flags are below bit 8, so the flag byte is the number
      have hflags : (UInt8.ofNat flags').toNat = flags' := by
        rw [UInt8.toNat_ofNat']
        refine Nat.mod_eq_of_lt (Nat.lt_pow_two_of_testBit flags' fun b hb => ?_)
        rw [hspec.testBit_of_notMem b (by simp; omega), Nat.zero_testBit]
      obtain ⟨stream, hstream, hdec⟩ := ih hspec.le_length (by omega)
        (out ++ UInt8.ofNat flags' :: new)
      refine ⟨UInt8.ofNat flags' :: new ++ stream, ?_, fun pre rest fuel' hfuel' => ?_⟩
      · rw [heq]
        simp only [bind, Except.bind, List.nil_append]
        rw [hstream, List.append_assoc]
      · obtain ⟨fuel', rfl⟩ := Nat.exists_eq_succ_of_ne_zero (n := fuel') (by omega)
        have hnotdone : ¬ src.length ≤ (src.take i).length := by rw [List.length_take]; omega
        have hgroup := hspec.decode (pre ++ [UInt8.ofNat flags']) (stream ++ rest)
        have hrefs := hspec.inRange (pre ++ [UInt8.ofNat flags']) (stream ++ rest)
        obtain ⟨htail, htailrefs⟩ := hdec (pre ++ UInt8.ofNat flags' :: new) rest fuel' (by omega)
        have hshape : pre ++ (UInt8.ofNat flags' :: new ++ stream) ++ rest
            = pre ++ UInt8.ofNat flags' :: (new ++ (stream ++ rest)) := by simp
        have hafter : pre ++ [UInt8.ofNat flags'] ++ new ++ (stream ++ rest)
            = pre ++ UInt8.ofNat flags' :: (new ++ (stream ++ rest)) := by simp
        have hnext : pre ++ UInt8.ofNat flags' :: new ++ stream ++ rest
            = pre ++ UInt8.ofNat flags' :: (new ++ (stream ++ rest)) := by simp
        have hpos : (pre ++ [UInt8.ofNat flags']).length = pre.length + 1 := by simp
        have hpos' : (pre ++ UInt8.ofNat flags' :: new).length = pre.length + 1 + new.length := by
          simp; omega
        rw [hafter, hpos] at hgroup hrefs
        rw [hnext, hpos'] at htail htailrefs
        constructor
        · rw [decompressLoop, if_neg hnotdone, if_neg (by simp), hshape, pyIndex_append_cons]
          simp only [bind, Except.bind]
          rw [hflags, hgroup]
          exact htail
        · rw [loopBackRefs, if_neg hnotdone, hshape, pyIndex_append_cons]
          dsimp only
          rw [hflags, hgroup]
          intro r hr
          exact (List.mem_append.mp hr).elim (hrefs r) (htailrefs r)

/-- The container of a source: its header, and a stream the decoder turns back into the source
whatever follows it. -/
theorem exists_compress (h : src.length < 2 ^ 32) :
    ∃ stream, compress src = .ok (leBytes 4 lzssMagic ++ leBytes 4 src.length ++ stream) ∧
      ∀ pad, decompress (leBytes 4 lzssMagic ++ leBytes 4 src.length ++ stream ++ pad)
          = .ok src ∧
        BackRefsInRange (leBytes 4 lzssMagic ++ leBytes 4 src.length ++ stream ++ pad) := by
  have hmagic : lzssMagic < 256 ^ 4 := by decide
  have hlen : src.length < 256 ^ 4 := h
  obtain ⟨stream, hstream, hdec⟩ := @compressLoop_spec src src.length _
    (Nat.zero_le _) (by omega) (leBytes 4 lzssMagic ++ leBytes 4 src.length)
  refine ⟨stream, ?_, fun pad => ?_⟩
  · rw [compress, pack_of_lt hmagic, pack_of_lt hlen]
    exact hstream
  · have htotal := slice_append_mid (leBytes 4 lzssMagic) (leBytes 4 src.length) (stream ++ pad)
    have hword := slice_append_mid [] (leBytes 4 lzssMagic) (leBytes 4 src.length ++ stream ++ pad)
    simp only [length_leBytes, List.length_nil, List.nil_append, ← List.append_assoc]
      at htotal hword
    obtain ⟨hloop, hrefs⟩ :=
      hdec (leBytes 4 lzssMagic ++ leBytes 4 src.length) pad src.length (by omega)
    simp only [List.length_append, length_leBytes, List.take_zero] at hloop hrefs
    constructor
    · rw [decompress, unpackFrom_of_le (by simp; omega), htotal, leNat_leBytes hlen]
      simp only [bind, Except.bind]
      rw [unpackFrom_of_le (by simp), hword, leNat_leBytes hmagic]
      simpa using hloop
    · have hbefore : 8 ≤ (leBytes 4 lzssMagic ++ leBytes 4 src.length ++ stream ++ pad).length := by
        simp only [List.length_append, length_leBytes]
        omega
      rw [BackRefsInRange, backRefs_eq hbefore, htotal, leNat_leBytes hlen]
      exact hrefs

/-- **Decompression undoes compression, under any padding.** -/
theorem decompress_compress (src pad : List UInt8) (h : src.length < 2 ^ 32) :
    (do let blob ← compress src; decompress (blob ++ pad)) = .ok src := by
  obtain ⟨stream, hc, hd⟩ := exists_compress h
  rw [hc]
  exact (hd pad).1

/-- The round trip at an input whose only match overlaps its own output, padded with a byte that
could start another group. -/
theorem decompress_compress_overlap :
    (do let blob ← compress [7, 7, 7, 7, 7]; decompress (blob ++ [1])) = .ok [7, 7, 7, 7, 7] :=
  decompress_compress [7, 7, 7, 7, 7] [1] (by decide)

end Lzss

end Qizo
