import Qizo.LzssRoundTrip

/-!
# The format of a container

What a well-formed container is, said without a decoder: the magic, the length of the output, and
groups of one flag byte and up to eight items. A group has fewer than eight items only if the last
of them completes the output. `Container` puts this together, and allows for bytes behind the last
item, which the builder uses to fill up a sector.

The reference decoder accepts every well-formed container, and it accepts others: a match may run
past the declared length, and a distance of up to twice the output so far is an index from the
end of the list in Python. `scan` reads a stream by its lengths alone and says where it ends, how
long the output gets, and which references it contains.

## Main results

* `decompress_of_container` — well-formed containers are accepted
* `exists_decompress_of_scan`, `scan_of_decompress` — the streams that are accepted
* `decompress_eq_ok_iff_container_iff` — the byte strings on which acceptance and well-formedness
  agree
-/

namespace Qizo

namespace Lzss

open ByteString Python

variable {s src out out' v bytes stream rest : List UInt8} {total flags bit i i' n fuel : ℕ}
  {bits : List ℕ}

/-! ### The format -/

/-- One item: its flag, its bytes, and the output after it. -/
inductive Item (out : List UInt8) : Bool → List UInt8 → List UInt8 → Prop
  | literal (b : UInt8) : Item out false [b] (out ++ [b])
  | backRef {off ln : ℕ} (hpos : 1 ≤ off) (hoff : off ≤ out.length) (hwindow : off ≤ window)
      (hmin : minMatch ≤ ln) (hmax : ln ≤ maxMatch) :
      Item out true (leBytes 2 (((off - 1) <<< 4) ||| (ln - minMatch))) (copyBack off ln out)

/-- Items for some bits of a flag byte. -/
inductive Items (flags : ℕ) : List ℕ → List UInt8 → List UInt8 → List UInt8 → Prop
  | nil (out : List UInt8) : Items flags [] out [] out
  | cons {bit : ℕ} {bits : List ℕ} {out o out' b bs : List UInt8}
      (hitem : Item out (flags.testBit bit) b o) (hitems : Items flags bits o bs out') :
      Items flags (bit :: bits) out (b ++ bs) out'

/-- Groups that continue the output `out` to `v`. -/
inductive Groups (v : List UInt8) : List UInt8 → List UInt8 → Prop
  | done : Groups v v []
  | group {f : UInt8} {out o bytes rest : List UInt8}
      (hitems : Items f.toNat (List.range 8) out bytes o) (hgroups : Groups v o rest) :
      Groups v out (f :: (bytes ++ rest))
  | last {f : UInt8} {n : ℕ} {out bytes : List UInt8} (hpos : 0 < n) (hn : n ≤ 8)
      (hitems : Items f.toNat (List.range n) out bytes v) : Groups v out (f :: bytes)

/-- **A well-formed container** for `v`, with `rest` behind it. -/
def Container (s v rest : List UInt8) : Prop :=
  v.length < 2 ^ 32 ∧ ∃ stream, Groups v [] stream ∧
    s = leBytes 4 lzssMagic ++ leBytes 4 v.length ++ stream ++ rest

theorem Item.length_lt {flag : Bool} (h : Item out flag bytes out') : out.length < out'.length := by
  cases h with
  | literal b => simp
  | backRef _ _ _ hmin _ =>
    rw [length_copyBack]
    unfold minMatch at hmin
    omega

theorem Items.length_le (h : Items flags bits out bytes out') : out.length ≤ out'.length := by
  induction h with
  | nil => exact Nat.le_refl _
  | cons hitem _ ih => exact Nat.le_trans (Nat.le_of_lt hitem.length_lt) ih

theorem Groups.length_le (h : Groups v out stream) : out.length ≤ v.length := by
  induction h with
  | done => exact Nat.le_refl _
  | group hitems _ ih => exact Nat.le_trans hitems.length_le ih
  | last _ _ hitems => exact hitems.length_le

/-- Items that are there make the output longer. -/
theorem Items.length_lt (h : Items flags bits out bytes out') (hbits : bits ≠ []) :
    out.length < out'.length := by
  cases h with
  | nil => exact absurd rfl hbits
  | cons hitem hitems => exact Nat.lt_of_lt_of_le hitem.length_lt hitems.length_le

/-! ### Well-formed containers are accepted -/

theorem decompressItem_of_item (h : Item out (flags.testBit bit) bytes out')
    (hat : HasAt src i bytes) :
    decompressItem src flags bit i out = .ok (i + bytes.length, out') ∧
      ∀ r ∈ itemBackRefs src flags bit i out, r.1 ≤ r.2 := by
  generalize hflag : flags.testBit bit = flag at h
  cases h with
  | literal b =>
    have hclear : ¬flags &&& (1 <<< bit) ≠ 0 := by
      rw [and_shiftLeft_ne_zero_iff, hflag]
      exact Bool.false_ne_true
    rw [decompressItem, itemBackRefs, if_neg hclear, if_neg hclear, pyIndex_of_hasAt hat]
    exact ⟨rfl, by simp⟩
  | @backRef off ln hpos hoff hwindow hmin hmax =>
    have hset : flags &&& (1 <<< bit) ≠ 0 := (and_shiftLeft_ne_zero_iff flags bit).mpr hflag
    have htok := unpackFrom_of_hasAt hat (token_lt hwindow hmax) (by decide)
    rw [decompressItem, itemBackRefs, if_pos hset, if_pos hset, htok, length_leBytes]
    simp only [ok_bind, tokenOff_token hpos hmax, tokenLen_token hmin hmax,
      copyLoop_eq_copyBack hpos hoff (Nat.add_zero out.length).symm, List.forall_mem_singleton]
    exact ⟨rfl, hoff⟩

/-- **A group is accepted**, up to the bits that are not needed. -/
theorem decompressBits_of_items {bits' : List ℕ} (h : Items flags bits out bytes out')
    (hat : HasAt src i bytes) (hle : out'.length ≤ total)
    (hend : bits' = [] ∨ total ≤ out'.length) :
    decompressBits src total flags (bits ++ bits') i out = .ok (i + bytes.length, out') ∧
      ∀ r ∈ bitsBackRefs src total flags (bits ++ bits') i out, r.1 ≤ r.2 := by
  induction h generalizing i with
  | nil out =>
    cases bits' with
    | nil => exact ⟨rfl, by simp [bitsBackRefs]⟩
    | cons bit bits' =>
      have hfull : total ≤ out.length := hend.resolve_left (List.cons_ne_nil _ _)
      rw [List.nil_append, decompressBits, bitsBackRefs, if_pos hfull, if_pos hfull]
      exact ⟨rfl, by simp⟩
  | @cons bit bits out o out' b bs hitem hitems ih =>
    have hmore : ¬total ≤ out.length := by
      have := hitem.length_lt
      have := hitems.length_le
      omega
    obtain ⟨hone, hrefs⟩ := decompressItem_of_item hitem hat.left
    obtain ⟨hrest, hrefs'⟩ := ih hat.right hle hend
    rw [List.cons_append, decompressBits, bitsBackRefs, if_neg hmore, if_neg hmore, hone]
    simp only [ok_bind, hrest, List.length_append, Nat.add_assoc, List.mem_append]
    exact ⟨trivial, fun r hr => hr.elim (hrefs r) (hrefs' r)⟩

/-! ### Reading a stream by its lengths -/

/-- One item at `i` with `len` bytes of output before it: the position and the length behind it,
and its back reference. Nothing if the stream is too short, or if the reference reaches back more
than twice the output. -/
def scanItem (src : List UInt8) (flags bit i len : ℕ) : Option (ℕ × ℕ × List (ℕ × ℕ)) :=
  if flags &&& (1 <<< bit) ≠ 0 then
    (unpackAt 2 src i).bind fun tok =>
      if tokenOff tok ≤ 2 * len then some (i + 2, len + tokenLen tok, [(tokenOff tok, len)])
      else none
  else if i < src.length then some (i + 1, len + 1, []) else none

/-- The remaining items of a group. -/
def scanBits (src : List UInt8) (total flags : ℕ) :
    List ℕ → (i len : ℕ) → Option (ℕ × ℕ × List (ℕ × ℕ))
  | [], i, len => some (i, len, [])
  | bit :: bits, i, len =>
    if total ≤ len then some (i, len, [])
    else
      (scanItem src flags bit i len).bind fun p =>
        (scanBits src total flags bits p.1 p.2.1).map fun q => (q.1, q.2.1, p.2.2 ++ q.2.2)

/-- The remaining groups. -/
def scanLoop (src : List UInt8) (total : ℕ) :
    (fuel : ℕ) → (i len : ℕ) → Option (ℕ × ℕ × List (ℕ × ℕ))
  | 0, i, len => some (i, len, [])
  | fuel + 1, i, len =>
    if total ≤ len then some (i, len, [])
    else
      src[i]?.bind fun f =>
        (scanBits src total f.toNat (List.range 8) (i + 1) len).bind fun p =>
          (scanLoop src total fuel p.1 p.2.1).map fun q => (q.1, q.2.1, p.2.2 ++ q.2.2)

/-- The declared length of the output. -/
def declared (s : List UInt8) : ℕ := leNat (slice s 4 8)

/-- **Where the stream of `s` ends**, how long the output is then, and the back references on the
way, each with the length of the output before it. -/
def scan (s : List UInt8) : Option (ℕ × ℕ × List (ℕ × ℕ)) :=
  if 8 ≤ s.length ∧ leNat (slice s 0 4) = lzssMagic then scanLoop s (declared s) (declared s) 8 0
  else none

/-- A reference that is an index for Python. -/
theorem exists_copyLoop {off len k : ℕ} (hoff : off ≤ 2 * len) (hlen : out.length = len + k)
    (hpos : 1 ≤ off) : ∃ o, copyLoop ((len : ℤ) - off) fuel k out = .ok o := by
  induction fuel generalizing k out with
  | zero => exact ⟨out, rfl⟩
  | succ fuel ih =>
    have hread : ∃ b, pyIndex out ((len : ℤ) - off + k) = .ok b := by
      by_cases hneg : 0 ≤ (len : ℤ) - off + k
      · have hlt : ((len : ℤ) - off + k).toNat < out.length := by omega
        refine ⟨out[((len : ℤ) - off + k).toNat], ?_⟩
        simp only [pyIndex, if_pos hneg, List.getElem?_eq_getElem hlt]
      · have hlt : ((len : ℤ) - off + k + out.length).toNat < out.length := by omega
        refine ⟨out[((len : ℤ) - off + k + out.length).toNat], ?_⟩
        simp only [pyIndex, if_neg hneg, List.getElem?_eq_getElem hlt]
        rw [if_pos (by omega)]
    obtain ⟨b, hb⟩ := hread
    rw [copyLoop, hb, ok_bind]
    exact ih (by rw [List.length_append, hlen, List.length_singleton, Nat.add_assoc])

/-- A reference that is not. -/
theorem copyLoop_eq_error {off : ℕ} (hoff : 2 * out.length < off) :
    copyLoop ((out.length : ℤ) - off) (fuel + 1) 0 out = .error .index := by
  have hneg : ¬0 ≤ (out.length : ℤ) - off + (0 : ℕ) := by omega
  have hneg' : ¬0 ≤ (out.length : ℤ) - off + (0 : ℕ) + out.length := by omega
  rw [copyLoop, pyIndex]
  simp only [if_neg hneg, if_neg hneg']
  rfl

/-- **An item is scanned as it is decoded.** -/
theorem scanItem_eq (src out : List UInt8) (flags bit i : ℕ) :
    scanItem src flags bit i out.length =
      (decompressItem src flags bit i out).toOption.map fun p =>
        (p.1, p.2.length, itemBackRefs src flags bit i out) := by
  rw [scanItem, decompressItem, itemBackRefs]
  by_cases hset : flags &&& (1 <<< bit) ≠ 0
  · rw [if_pos hset, if_pos hset, if_pos hset, unpackFrom]
    cases htok : unpackAt 2 src i with
    | none => rfl
    | some tok =>
      obtain ⟨m, hm⟩ := Nat.exists_eq_add_of_le' (tokenLen_pos tok)
      simp only [Option.bind_some, ok_bind]
      by_cases hoff : tokenOff tok ≤ 2 * out.length
      · obtain ⟨o, ho⟩ := exists_copyLoop hoff (Nat.add_zero _).symm
          (tokenOff_pos tok)
        rw [if_pos hoff, ho, ← length_copyLoop ho]
        rfl
      · rw [if_neg hoff, hm, copyLoop_eq_error (Nat.not_le.mp hoff)]
        rfl
  · rw [if_neg hset, if_neg hset, if_neg hset]
    by_cases hi : i < src.length
    · rw [if_pos hi, pyIndex_ofNat (List.getElem?_eq_getElem hi), ok_bind]
      simp [Except.toOption, pure, Except.pure]
    · have hnone : pyIndex src (i : ℤ) = .error .index := by
        simp only [pyIndex, Int.natCast_nonneg, if_true, Int.toNat_natCast,
          List.getElem?_eq_none (Nat.not_lt.mp hi)]
      rw [if_neg hi, hnone]
      rfl

/-- **A group is scanned as it is decoded.** -/
theorem scanBits_eq (src out : List UInt8) (total flags : ℕ) (bits : List ℕ) (i : ℕ) :
    scanBits src total flags bits i out.length =
      (decompressBits src total flags bits i out).toOption.map fun p =>
        (p.1, p.2.length, bitsBackRefs src total flags bits i out) := by
  induction bits generalizing i out with
  | nil => rfl
  | cons bit bits ih =>
    rw [scanBits, decompressBits, bitsBackRefs]
    by_cases hfull : total ≤ out.length
    · rw [if_pos hfull, if_pos hfull, if_pos hfull]
      rfl
    · rw [if_neg hfull, if_neg hfull, if_neg hfull, scanItem_eq]
      cases hitem : decompressItem src flags bit i out with
      | error e => rfl
      | ok p =>
        simp only [Except.toOption, Option.map_some, Option.bind_some, ok_bind]
        rw [ih]
        cases hbits : decompressBits src total flags bits p.1 p.2 with
        | error e => rfl
        | ok q => rfl

theorem scanLoop_of_le {len : ℕ} (h : total ≤ len) :
    scanLoop src total fuel i len = some (i, len, []) := by
  cases fuel with
  | zero => rfl
  | succ fuel => rw [scanLoop, if_pos h]

/-- What is decoded can be scanned. -/
theorem scanLoop_of_decompressLoop (h : decompressLoop src total fuel i out = .ok v) :
    ∃ p refs, scanLoop src total fuel i out.length = some (p, v.length, refs) := by
  induction fuel generalizing i out with
  | zero =>
    obtain rfl := Except.ok.inj h
    exact ⟨i, [], rfl⟩
  | succ fuel ih =>
    rw [decompressLoop] at h
    by_cases hfull : total ≤ out.length
    · rw [if_pos hfull] at h
      obtain rfl := Except.ok.inj h
      exact ⟨i, [], scanLoop_of_le hfull⟩
    · rw [if_neg hfull] at h
      split at h
      · cases h
      · obtain ⟨f, hf, h⟩ := bind_eq_ok.mp h
        obtain ⟨p, hp, h⟩ := bind_eq_ok.mp h
        obtain ⟨q, refs, hq⟩ := ih h
        have hbits := scanBits_eq src out total f.toNat (List.range 8) (i + 1)
        rw [hp] at hbits
        refine ⟨q, bitsBackRefs src total f.toNat (List.range 8) (i + 1) out ++ refs, ?_⟩
        rw [scanLoop, if_neg hfull, pyIndex_ofNat_eq_ok_iff.mp hf, Option.bind_some, hbits]
        simp only [Except.toOption, Option.map_some, Option.bind_some]
        rw [hq, Option.map_some]

/-! ### What is accepted -/

theorem token_tokenOff_tokenLen (tok : ℕ) :
    ((tokenOff tok - 1) <<< 4) ||| (tokenLen tok - minMatch) = tok := by
  have hmod : tok &&& 0xF = tok % 16 := Nat.and_two_pow_sub_one_eq_mod tok 4
  rw [token_eq, tokenOff, tokenLen, Nat.add_sub_cancel, Nat.add_sub_cancel,
    Nat.shiftRight_eq_div_pow, hmod, Nat.div_add_mod']
  rw [tokenLen, hmod, minMatch, maxMatch]
  omega

/-- An accepted item with its reference in range is an item of the format. -/
theorem item_of_decompressItem (h : decompressItem src flags bit i out = .ok (i', out'))
    (hr : ∀ r ∈ itemBackRefs src flags bit i out, r.1 ≤ r.2) :
    Item out (flags.testBit bit) (slice src i i') out' ∧ i ≤ i' ∧ i' ≤ src.length := by
  rcases decompressItem_cases h hr with ⟨hclear, b, hb, rfl, rfl⟩ |
    ⟨hset, tok, hle, htok, hoff, rfl, rfl⟩
  · have hflag : flags.testBit bit = false := by
      rw [← Bool.not_eq_true, ← and_shiftLeft_ne_zero_iff, not_not]
      exact hclear
    have hi := (List.getElem?_eq_some_iff.mp hb).1
    have hslice : slice src i (i + 1) = [b] := by
      refine HasAt.slice_eq (d := [b]) fun t ht => ?_
      obtain rfl : t = 0 := by simpa using ht
      exact hb
    rw [hflag, hslice]
    exact ⟨.literal b, by omega, hi⟩
  · have hlen : (slice src i (i + 2)).length = 2 := by
      rw [length_slice hle]
      omega
    have hbytes : slice src i (i + 2) =
        leBytes 2 (((tokenOff tok - 1) <<< 4) ||| (tokenLen tok - minMatch)) := by
      rw [token_tokenOff_tokenLen, htok]
      have := leBytes_leNat (slice src i (i + 2))
      rw [hlen] at this
      exact this.symm
    have hlt : tok < 256 ^ 2 := by
      have := leNat_lt (slice src i (i + 2))
      rwa [hlen, ← htok] at this
    have hmod : tok &&& 0xF = tok % 16 := Nat.and_two_pow_sub_one_eq_mod tok 4
    rw [(and_shiftLeft_ne_zero_iff flags bit).mp hset, hbytes]
    refine ⟨.backRef (tokenOff_pos tok) hoff ?_ (Nat.le_add_left _ _) ?_, by omega, hle⟩
    · rw [tokenOff, Nat.shiftRight_eq_div_pow, window]
      omega
    · rw [tokenLen, hmod, minMatch, maxMatch]
      omega

/-- **An accepted group** with its references in range is one of the format, or the front of one
that completes the output. -/
theorem items_of_decompressBits (h : decompressBits src total flags bits i out = .ok (i', out'))
    (hr : ∀ r ∈ bitsBackRefs src total flags bits i out, r.1 ≤ r.2) (hi : i ≤ src.length) :
    i ≤ i' ∧ i' ≤ src.length ∧ ∃ n ≤ bits.length,
      Items flags (bits.take n) out (slice src i i') out' ∧
      (n = bits.length ∨ total ≤ out'.length) ∧ (bits ≠ [] → out.length < total → 0 < n) := by
  have hnil : slice src i i = [] := by
    rw [← List.length_eq_zero_iff, length_slice hi, Nat.sub_self]
  induction bits generalizing i out with
  | nil =>
    obtain ⟨rfl, rfl⟩ := Prod.mk.inj (Except.ok.inj h)
    refine ⟨Nat.le_refl _, hi, 0, Nat.le_refl _, ?_, .inl rfl, fun hne => absurd rfl hne⟩
    rw [hnil]
    exact .nil out
  | cons bit bits ih =>
    rw [decompressBits] at h
    rw [bitsBackRefs] at hr
    by_cases hfull : total ≤ out.length
    · rw [if_pos hfull] at h
      obtain ⟨rfl, rfl⟩ := Prod.mk.inj (Except.ok.inj h)
      refine ⟨Nat.le_refl _, hi, 0, Nat.zero_le _, ?_, .inr hfull, fun _ hlt => ?_⟩
      · rw [hnil]
        exact .nil out
      · omega
    · rw [if_neg hfull] at h hr
      obtain ⟨⟨j, o⟩, hitem, h⟩ := bind_eq_ok.mp h
      rw [hitem] at hr
      obtain ⟨hone, hij, hj⟩ :=
        item_of_decompressItem hitem fun r hmem => hr r (List.mem_append_left _ hmem)
      have hnil' : slice src j j = [] := by
        rw [← List.length_eq_zero_iff, length_slice hj, Nat.sub_self]
      obtain ⟨hji, hi', n, hn, hitems, hend, -⟩ :=
        ih h (fun r hmem => hr r (List.mem_append_right _ hmem)) hj hnil'
      refine ⟨Nat.le_trans hij hji, hi', n + 1, Nat.succ_le_succ hn, ?_, ?_,
        fun _ _ => Nat.succ_pos n⟩
      · rw [← slice_append_slice hij hji, List.take_succ_cons]
        exact .cons hone hitems
      · exact hend.imp_left (congrArg Nat.succ)

/-- An accepted group, and groups of the format behind it. -/
theorem groups_of_decompressBits {f : UInt8} {p : ℕ} (hf : src[i]? = some f)
    (h : decompressBits src total f.toNat (List.range 8) (i + 1) out = .ok (i', out'))
    (hr : ∀ r ∈ bitsBackRefs src total f.toNat (List.range 8) (i + 1) out, r.1 ≤ r.2)
    (hmore : out.length < total)
    (hrest : i' ≤ src.length → i' ≤ p ∧ p ≤ src.length ∧ Groups v out' (slice src i' p))
    (hlast : total ≤ out'.length → out' = v ∧ p = i') :
    i ≤ p ∧ p ≤ src.length ∧ Groups v out (slice src i p) := by
  have hi : i < src.length := (List.getElem?_eq_some_iff.mp hf).1
  have hflag : slice src i (i + 1) = [f] := by
    refine HasAt.slice_eq (d := [f]) fun t ht => ?_
    obtain rfl : t = 0 := by simpa using ht
    exact hf
  obtain ⟨hle, hi', n, hn, hitems, hend, hpos⟩ := items_of_decompressBits h hr hi
  obtain ⟨hp, hp', hgroups⟩ := hrest hi'
  refine ⟨by omega, hp', ?_⟩
  rw [← slice_append_slice (Nat.le_succ i) (Nat.le_trans hle hp), hflag, List.singleton_append]
  rw [List.take_range, Nat.min_eq_left (by simpa using hn)] at hitems
  rw [List.length_range] at hn hend
  rcases hend with rfl | hfull
  · rw [← slice_append_slice hle hp]
    exact .group hitems hgroups
  · obtain ⟨rfl, rfl⟩ := hlast hfull
    exact .last (hpos (by simp) hmore) hn hitems

/-- **What can be scanned is decoded**, and if the references are in range and the output has the
declared length, the stream is well-formed. -/
theorem exists_decompressLoop_of_scanLoop {p : ℕ} {refs : List (ℕ × ℕ)}
    (h : scanLoop src total fuel i out.length = some (p, n, refs))
    (hfuel : total ≤ out.length + fuel) :
    ∃ v, decompressLoop src total fuel i out = .ok v ∧ v.length = n ∧
      ((∀ r ∈ refs, r.1 ≤ r.2) → n = total → i ≤ src.length →
        i ≤ p ∧ p ≤ src.length ∧ Groups v out (slice src i p)) := by
  -- The output is complete: nothing is read.
  have hdone {i : ℕ} {out : List UInt8} {fuel : ℕ} {refs : List (ℕ × ℕ)}
      (hfull : total ≤ out.length)
      (h : scanLoop src total fuel i out.length = some (p, n, refs)) :
      out.length = n ∧ p = i ∧ (i ≤ src.length →
        i ≤ p ∧ p ≤ src.length ∧ Groups out out (slice src i p)) := by
    rw [scanLoop_of_le hfull] at h
    simp only [Option.some.injEq, Prod.mk.injEq] at h
    obtain ⟨rfl, hn, -⟩ := h
    refine ⟨hn, rfl, fun hi => ⟨Nat.le_refl _, hi, ?_⟩⟩
    have hnil : slice src i i = [] := by
      rw [← List.length_eq_zero_iff, length_slice hi, Nat.sub_self]
    rw [hnil]
    exact .done
  induction fuel generalizing i out refs with
  | zero =>
    obtain ⟨hn, -, hgroups⟩ := hdone (by omega) h
    exact ⟨out, rfl, hn, fun _ _ => hgroups⟩
  | succ fuel ih =>
    by_cases hfull : total ≤ out.length
    · obtain ⟨hn, -, hgroups⟩ := hdone hfull h
      exact ⟨out, decompressLoop_of_le _ hfull, hn, fun _ _ => hgroups⟩
    · rw [scanLoop, if_neg hfull] at h
      obtain ⟨f, hf, h⟩ := Option.bind_eq_some_iff.mp h
      obtain ⟨q, hq, h⟩ := Option.bind_eq_some_iff.mp h
      obtain ⟨q', hq', heq⟩ := Option.map_eq_some_iff.mp h
      simp only [Prod.mk.injEq] at heq
      obtain ⟨rfl, rfl, rfl⟩ := heq
      rw [scanBits_eq] at hq
      obtain ⟨⟨i', o⟩, ho, rfl⟩ := Option.map_eq_some_iff.mp hq
      have hbits : decompressBits src total f.toNat (List.range 8) (i + 1) out = .ok (i', o) := by
        cases hb : decompressBits src total f.toNat (List.range 8) (i + 1) out with
        | error e => rw [hb] at ho; cases ho
        | ok r => rw [hb] at ho; exact congrArg Except.ok (Option.some.inj ho)
      have hgrow : out.length < o.length := length_lt_of_decompressBits hfull hbits
      obtain ⟨v, hv, hlen, hgroups⟩ := ih hq' (by dsimp only; omega)
      have hi : i < src.length := (List.getElem?_eq_some_iff.mp hf).1
      refine ⟨v, ?_, hlen, fun hr hn _ => ?_⟩
      · rw [decompressLoop, if_neg hfull, if_neg (Nat.not_le.mpr hi), pyIndex_ofNat hf, ok_bind,
          hbits, ok_bind]
        exact hv
      · refine groups_of_decompressBits hf hbits (fun r hm => hr r (List.mem_append_left _ hm))
          (Nat.not_le.mp hfull)
          (hgroups (fun r hm => hr r (List.mem_append_right _ hm)) hn) fun hfull' => ?_
        obtain ⟨-, hp, -⟩ := hdone hfull' hq'
        rw [decompressLoop_of_le _ hfull'] at hv
        exact ⟨Except.ok.inj hv, hp⟩

/-- **Groups of the format are accepted**, and the scan finds nothing wrong with them. -/
theorem decompressLoop_of_groups (h : Groups v out stream) (hat : HasAt src i stream)
    (hfuel : v.length ≤ out.length + fuel) :
    decompressLoop src v.length fuel i out = .ok v ∧
      ∃ refs, scanLoop src v.length fuel i out.length = some (i + stream.length, v.length, refs) ∧
        ∀ r ∈ refs, r.1 ≤ r.2 := by
  -- One group, and the rest of the run.
  have hgroup {i fuel n : ℕ} {f : UInt8} {out o bytes rest : List UInt8}
      (hitems : Items f.toNat (List.range n) out bytes o) (hpos : 0 < n) (hn : n ≤ 8)
      (hend : n = 8 ∨ v.length ≤ o.length) (hle : o.length ≤ v.length)
      (hat : HasAt src i (f :: bytes))
      (hrest : decompressLoop src v.length fuel (i + 1 + bytes.length) o = .ok v ∧
        ∃ refs, scanLoop src v.length fuel (i + 1 + bytes.length) o.length =
          some (i + 1 + bytes.length + rest.length, v.length, refs) ∧ ∀ r ∈ refs, r.1 ≤ r.2) :
      decompressLoop src v.length (fuel + 1) i out = .ok v ∧
        ∃ refs, scanLoop src v.length (fuel + 1) i out.length =
          some (i + (f :: (bytes ++ rest)).length, v.length, refs) ∧ ∀ r ∈ refs, r.1 ≤ r.2 := by
    have hne : List.range n ≠ [] := by simpa using Nat.ne_of_gt hpos
    have hmore : ¬v.length ≤ out.length := by
      have := hitems.length_lt hne
      omega
    have hf : src[i]? = some f := hat 0 (by simp)
    have hi : i < src.length := (List.getElem?_eq_some_iff.mp hf).1
    have hat' : HasAt src (i + 1) bytes := HasAt.right (d := [f]) hat
    have hsplit : List.range n ++ (List.range 8).drop n = List.range 8 := by
      have := List.take_append_drop n (List.range 8)
      rwa [List.take_range, Nat.min_eq_left hn] at this
    have hend' : (List.range 8).drop n = [] ∨ v.length ≤ o.length :=
      hend.imp_left fun h8 => by rw [h8]; rfl
    obtain ⟨hbits, hrefs⟩ := decompressBits_of_items hitems hat' hle hend'
    rw [hsplit] at hbits hrefs
    obtain ⟨hdec, refs, hscan, hrefs'⟩ := hrest
    refine ⟨?_, bitsBackRefs src v.length f.toNat (List.range 8) (i + 1) out ++ refs, ?_,
      fun r hr => (List.mem_append.mp hr).elim (hrefs r) (hrefs' r)⟩
    · rw [decompressLoop, if_neg hmore, if_neg (Nat.not_le.mpr hi), pyIndex_ofNat hf, ok_bind,
        hbits, ok_bind]
      exact hdec
    · rw [scanLoop, if_neg hmore, hf, Option.bind_some, scanBits_eq, hbits]
      simp only [Except.toOption, Option.map_some, Option.bind_some]
      rw [hscan, Option.map_some, List.length_cons, List.length_append]
      congr 2
      omega
  induction h generalizing i fuel with
  | done =>
    refine ⟨decompressLoop_of_le _ (Nat.le_refl _), [], scanLoop_of_le (Nat.le_refl _), by simp⟩
  | @group f out o bytes rest hitems hgroups ih =>
    have hlt := hitems.length_lt (by simp)
    have hle := hgroups.length_le
    obtain ⟨fuel, rfl⟩ := Nat.exists_eq_succ_of_ne_zero (n := fuel) (by omega)
    have hat' : HasAt src i ((f :: bytes) ++ rest) := hat
    have hpos : i + (f :: bytes).length = i + 1 + bytes.length := by
      rw [List.length_cons]
      omega
    refine hgroup hitems (by decide) (Nat.le_refl _) (.inl rfl) hle hat'.left (ih ?_ (by omega))
    rw [← hpos]
    exact hat'.right
  | @last f n out bytes hpos hn hitems =>
    have hlt := hitems.length_lt (by simpa using Nat.ne_of_gt hpos)
    obtain ⟨fuel, rfl⟩ := Nat.exists_eq_succ_of_ne_zero (n := fuel) (by omega)
    have := @hgroup _ fuel _ _ _ _ _ [] hitems hpos hn (.inr (Nat.le_refl _)) (Nat.le_refl _)
      hat ⟨decompressLoop_of_le _ (Nat.le_refl _), [], scanLoop_of_le (Nat.le_refl _), by simp⟩
    rwa [List.append_nil] at this

/-! ### Containers -/

/-- The header of a container. -/
theorem Container.header (h : Container s v rest) :
    8 ≤ s.length ∧ leNat (slice s 0 4) = lzssMagic ∧ declared s = v.length ∧
      ∃ stream, Groups v [] stream ∧ HasAt s 8 stream ∧
        s.length = 8 + stream.length + rest.length := by
  obtain ⟨hlt, stream, hgroups, rfl⟩ := h
  have hall : HasAt (leBytes 4 lzssMagic ++ leBytes 4 v.length ++ stream ++ rest) 0
      (leBytes 4 lzssMagic ++ leBytes 4 v.length ++ stream ++ rest) := hasAt_self _
  have hmagic := hall.left.left.left.slice_eq
  have hlength := hall.left.left.right.slice_eq
  have hstream := hall.left.right
  simp only [List.length_append, length_leBytes, Nat.zero_add, Nat.reduceAdd]
    at hmagic hlength hstream
  refine ⟨?_, ?_, ?_, stream, hgroups, hstream, ?_⟩
  · simp only [List.length_append, length_leBytes]
    omega
  · rw [hmagic, leNat_leBytes (by decide)]
  · rw [declared, hlength, leNat_leBytes hlt]
  · simp only [List.length_append, length_leBytes]

/-- **Well-formed containers are accepted.** -/
theorem decompress_of_container (h : Container s v rest) :
    decompress s = .ok v ∧
      ∃ refs, scan s = some (s.length - rest.length, v.length, refs) ∧ ∀ r ∈ refs, r.1 ≤ r.2 := by
  obtain ⟨h8, hmagic, hlen, stream, hgroups, hat, htotal⟩ := h.header
  have hdeclared : leNat (slice s 4 8) = v.length := hlen
  obtain ⟨hdec, refs, hscan, hrefs⟩ :=
    decompressLoop_of_groups hgroups hat (Nat.le_add_left _ _)
  refine ⟨decompress_eq_ok_iff.mpr ⟨h8, hmagic, ?_⟩, refs, ?_, hrefs⟩
  · rw [hdeclared]
    exact hdec
  · rw [scan, if_pos ⟨h8, hmagic⟩, hlen, show s.length - rest.length = 8 + stream.length by omega]
    exact hscan

/-- **The streams that are accepted.** -/
theorem exists_decompress_of_scan {p : ℕ} {refs : List (ℕ × ℕ)} (h : scan s = some (p, n, refs)) :
    ∃ v, decompress s = .ok v ∧ v.length = n ∧ ((∀ r ∈ refs, r.1 ≤ r.2) → n = declared s →
      p ≤ s.length ∧ Container s v (s.drop p)) := by
  rw [scan] at h
  split at h
  · next hheader =>
    obtain ⟨v, hv, hlen, hgroups⟩ :=
      @exists_decompressLoop_of_scanLoop _ [] _ _ _ _ _ _ h (Nat.le_add_left _ _)
    refine ⟨v, decompress_eq_ok_iff.mpr ⟨hheader.1, hheader.2, hv⟩, hlen, fun hr hn => ?_⟩
    obtain ⟨h8, hp, hg⟩ := hgroups hr hn hheader.1
    refine ⟨hp, ?_, _, hg, ?_⟩
    · rw [hlen, hn, declared]
      have := leNat_lt (slice s 4 8)
      rwa [length_slice hheader.1] at this
    · have hword {a : ℕ} (ha : a + 4 ≤ s.length) :
          leBytes 4 (leNat (slice s a (a + 4))) = slice s a (a + 4) := by
        have := leBytes_leNat (slice s a (a + 4))
        rwa [length_slice ha, Nat.add_sub_cancel_left] at this
      have hfirst : slice s 0 4 = leBytes 4 lzssMagic := by
        rw [← hheader.2]
        exact (hword (a := 0) (by omega)).symm
      have hsecond : slice s 4 8 = leBytes 4 v.length := by
        rw [hlen, hn, declared]
        exact (hword (a := 4) hheader.1).symm
      have hfront : slice s 0 p = s.take p := rfl
      rw [← hfirst, ← hsecond, slice_append_slice (by decide) (by decide),
        slice_append_slice (by decide) h8, hfront, List.take_append_drop]
  · cases h

theorem scan_of_decompress (h : decompress s = .ok v) :
    ∃ p refs, scan s = some (p, v.length, refs) := by
  obtain ⟨h8, hmagic, hloop⟩ := decompress_eq_ok_iff.mp h
  rw [scan, if_pos ⟨h8, hmagic⟩]
  exact scanLoop_of_decompressLoop hloop

/-! ### Acceptance and well-formedness -/

/-- The stream breaks off, or it ends at the declared length with every reference in range. -/
def EndsWell (s : List UInt8) : Prop :=
  ∀ p n refs, scan s = some (p, n, refs) → n = declared s ∧ ∀ r ∈ refs, r.1 ≤ r.2

/-- The stream breaks off, or nothing comes behind it. -/
def EndsLast (s : List UInt8) : Prop := ∀ p n refs, scan s = some (p, n, refs) → p = s.length

/-- **Where acceptance is well-formedness.** The decoder accepts exactly the well-formed containers
on the byte strings whose stream ends well; and if a container may have nothing behind it, on those
of them where nothing is. -/
theorem decompress_eq_ok_iff_container_iff (s : List UInt8) :
    ((∀ v, decompress s = .ok v ↔ ∃ rest, Container s v rest) ↔ EndsWell s) ∧
      ((∀ v, decompress s = .ok v ↔ Container s v []) ↔ EndsWell s ∧ EndsLast s) := by
  have hwell {v rest : List UInt8} (hc : Container s v rest) {p n : ℕ} {refs : List (ℕ × ℕ)}
      (hscan : scan s = some (p, n, refs)) :
      n = declared s ∧ (∀ r ∈ refs, r.1 ≤ r.2) ∧ p = s.length - rest.length := by
    obtain ⟨-, refs', hscan', hrefs⟩ := decompress_of_container hc
    simp only [hscan, Option.some.injEq, Prod.mk.injEq] at hscan'
    obtain ⟨rfl, rfl, rfl⟩ := hscan'
    exact ⟨hc.header.2.2.1.symm, hrefs, rfl⟩
  have hback (h : EndsWell s) {v : List UInt8} (hv : decompress s = .ok v) :
      ∃ p refs, scan s = some (p, v.length, refs) ∧ Container s v (s.drop p) := by
    obtain ⟨p, refs, hscan⟩ := scan_of_decompress hv
    obtain ⟨hn, hrefs⟩ := h _ _ _ hscan
    obtain ⟨v', hv', -, hc⟩ := exists_decompress_of_scan hscan
    obtain rfl : v = v' := Except.ok.inj (hv.symm.trans hv')
    exact ⟨p, refs, hscan, (hc hrefs hn).2⟩
  refine ⟨⟨fun h p n refs hscan => ?_, fun h v => ⟨fun hv => ?_, fun ⟨rest, hc⟩ => ?_⟩⟩,
    ⟨fun h => ⟨fun p n refs hscan => ?_, fun p n refs hscan => ?_⟩, fun ⟨h, hlast⟩ v =>
      ⟨fun hv => ?_, fun hc => (decompress_of_container hc).1⟩⟩⟩
  · obtain ⟨v, hv, -, -⟩ := exists_decompress_of_scan hscan
    obtain ⟨rest, hc⟩ := (h v).mp hv
    exact ⟨(hwell hc hscan).1, (hwell hc hscan).2.1⟩
  · obtain ⟨p, refs, -, hc⟩ := hback h hv
    exact ⟨_, hc⟩
  · exact (decompress_of_container hc).1
  · obtain ⟨v, hv, -, -⟩ := exists_decompress_of_scan hscan
    have hc := (h v).mp hv
    exact ⟨(hwell hc hscan).1, (hwell hc hscan).2.1⟩
  · obtain ⟨v, hv, -, -⟩ := exists_decompress_of_scan hscan
    exact (hwell ((h v).mp hv) hscan).2.2
  · obtain ⟨p, refs, hscan, hc⟩ := hback h hv
    rwa [hlast _ _ _ hscan, List.drop_length] at hc

/-- A declared length of four, one literal, and a match of three at distance two: the reference
starts before the output and is read from its end. -/
def beforeStart : List UInt8 := [0x4C, 0x5A, 0x49, 0x51, 4, 0, 0, 0, 2, 97, 0x10, 0]

/-- **A malformed container is accepted.** -/
theorem decompress_beforeStart :
    decompress beforeStart = .ok [97, 97, 97, 97] ∧
      ¬∃ rest, Container beforeStart [97, 97, 97, 97] rest := by
  refine ⟨by decide, ?_⟩
  rintro ⟨rest, hc⟩
  obtain ⟨-, refs, hscan, hrefs⟩ := decompress_of_container hc
  have hscan' : scan beforeStart = some (12, 4, [(2, 1)]) := by decide
  simp only [hscan', Option.some.injEq, Prod.mk.injEq] at hscan
  obtain ⟨-, -, rfl⟩ := hscan
  exact absurd (hrefs (2, 1) (by simp)) (by decide)

end Lzss

end Qizo
