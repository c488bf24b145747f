import Qizo.Boot.RawContainer
import Qizo.LzssFormat

/-!
# Containers that end too early

`qizo_decompress` is given the length of the container, and there is an error code for a container
that ends before the output is complete. Nothing in the routine compares the input pointer with the
end of the container: `decomp_fail` is never reached. It reads on behind the container, and a match
is copied without regard to the end of the output or to its start.

## Main results

* `strays_or_decoded` — the routine leaves its memory on every container that is not complete
* `rejectsExhausted_iff` — the containers on which it does what it should
-/

namespace Qizo

namespace Lzss

open ByteString Python

variable {src out out' : List UInt8} {total flags bit i i' len len' fuel : ℕ} {bits : List ℕ}

/-! ### Where a stream ends -/

/-- One item at `i` with `len` bytes of output before it: the position and the length behind it.
Nothing if the stream ends inside the item. -/
def itemEnd (src : List UInt8) (flags bit i len : ℕ) : Option (ℕ × ℕ) :=
  if flags &&& (1 <<< bit) ≠ 0 then
    (unpackAt 2 src i).map fun tok => (i + 2, len + tokenLen tok)
  else if i < src.length then some (i + 1, len + 1) else none

/-- The remaining items of a group. -/
def bitsEnd (src : List UInt8) (total flags : ℕ) : List ℕ → (i len : ℕ) → Option (ℕ × ℕ)
  | [], i, len => some (i, len)
  | bit :: bits, i, len =>
    if total ≤ len then some (i, len)
    else (itemEnd src flags bit i len).bind fun p => bitsEnd src total flags bits p.1 p.2

/-- The remaining groups. -/
def streamEnd (src : List UInt8) (total : ℕ) : (fuel : ℕ) → (i len : ℕ) → Option (ℕ × ℕ)
  | 0, i, len => some (i, len)
  | fuel + 1, i, len =>
    if total ≤ len then some (i, len)
    else
      src[i]?.bind fun f =>
        (bitsEnd src total f.toNat (List.range 8) (i + 1) len).bind fun p =>
          streamEnd src total fuel p.1 p.2

/-- **The container is exhausted** before the output has its declared length. -/
def Exhausted (src : List UInt8) : Prop :=
  8 ≤ src.length ∧ leNat (slice src 0 4) = lzssMagic ∧
    streamEnd src (declared src) (declared src) 8 0 = none

theorem itemEnd_of_decompressItem (h : decompressItem src flags bit i out = .ok (i', out')) :
    itemEnd src flags bit i out.length = some (i', out'.length) := by
  rw [decompressItem] at h
  rw [itemEnd]
  split at h
  · next hset =>
    obtain ⟨tok, htok, h⟩ := bind_eq_ok.mp h
    obtain ⟨o, ho, h⟩ := bind_eq_ok.mp h
    obtain ⟨rfl, rfl⟩ := Prod.mk.inj (Except.ok.inj h)
    obtain ⟨hlen, rfl⟩ := unpackFrom_eq_ok_iff.mp htok
    rw [if_pos hset, unpackAt, if_pos hlen, Option.map_some, length_copyLoop ho]
  · next hclear =>
    obtain ⟨b, hb, h⟩ := bind_eq_ok.mp h
    obtain ⟨rfl, rfl⟩ := Prod.mk.inj (Except.ok.inj h)
    have hi := (List.getElem?_eq_some_iff.mp (pyIndex_ofNat_eq_ok_iff.mp hb)).1
    rw [if_neg hclear, if_pos hi, List.length_append, List.length_singleton]

theorem bitsEnd_of_decompressBits
    (h : decompressBits src total flags bits i out = .ok (i', out')) :
    bitsEnd src total flags bits i out.length = some (i', out'.length) := by
  induction bits generalizing i out with
  | nil =>
    obtain ⟨rfl, rfl⟩ := Prod.mk.inj (Except.ok.inj h)
    rfl
  | cons bit bits ih =>
    rw [decompressBits] at h
    rw [bitsEnd]
    split at h
    · next hfull =>
      obtain ⟨rfl, rfl⟩ := Prod.mk.inj (Except.ok.inj h)
      rw [if_pos hfull]
    · next hmore =>
      obtain ⟨p, hp, h⟩ := bind_eq_ok.mp h
      rw [if_neg hmore, itemEnd_of_decompressItem hp, Option.bind_some]
      exact ih h

theorem streamEnd_of_decompressLoop (h : decompressLoop src total fuel i out = .ok out') :
    ∃ i', streamEnd src total fuel i out.length = some (i', out'.length) := by
  induction fuel generalizing i out with
  | zero =>
    obtain rfl := Except.ok.inj h
    exact ⟨i, rfl⟩
  | succ fuel ih =>
    rw [decompressLoop] at h
    rw [streamEnd]
    by_cases hfull : total ≤ out.length
    · rw [if_pos hfull] at h ⊢
      obtain rfl := Except.ok.inj h
      exact ⟨i, rfl⟩
    · rw [if_neg hfull] at h ⊢
      split at h
      · cases h
      · obtain ⟨f, hf, h⟩ := bind_eq_ok.mp h
        obtain ⟨p, hp, h⟩ := bind_eq_ok.mp h
        rw [pyIndex_ofNat_eq_ok_iff.mp hf, Option.bind_some, bitsEnd_of_decompressBits hp,
          Option.bind_some]
        exact ih h

/-- What the reference decoder accepts is not exhausted. -/
theorem not_exhausted_of_decompress (h : decompress src = .ok out) : ¬Exhausted src := by
  rintro ⟨-, -, hnone⟩
  obtain ⟨-, -, hloop⟩ := decompress_eq_ok_iff.mp h
  obtain ⟨i', hsome⟩ := streamEnd_of_decompressLoop hloop
  exact Option.some_ne_none _ (hsome.symm.trans hnone)

/-! ### Items that are decoded -/

theorem decompressItem_of_byte {b : UInt8} (hclear : flags &&& (1 <<< bit) = 0)
    (hb : src[i]? = some b) :
    decompressItem src flags bit i out = .ok (i + 1, out ++ [b]) ∧
      ∀ r ∈ itemBackRefs src flags bit i out, r.1 ≤ r.2 := by
  rw [decompressItem, itemBackRefs, if_neg (not_not_intro hclear), if_neg (not_not_intro hclear),
    pyIndex_ofNat hb]
  exact ⟨rfl, fun r hr => absurd hr List.not_mem_nil⟩

theorem decompressItem_of_token {tok : ℕ} (hset : flags &&& (1 <<< bit) ≠ 0)
    (hi : i + 2 ≤ src.length) (htok : tok = leNat (slice src i (i + 2)))
    (hoff : tokenOff tok ≤ out.length) :
    decompressItem src flags bit i out = .ok (i + 2, copyBack (tokenOff tok) (tokenLen tok) out) ∧
      ∀ r ∈ itemBackRefs src flags bit i out, r.1 ≤ r.2 := by
  rw [decompressItem, itemBackRefs, if_pos hset, if_pos hset, unpackFrom_of_le hi, ← htok]
  simp only [ok_bind, copyLoop_eq_copyBack (tokenOff_pos tok) hoff (Nat.add_zero out.length).symm,
    List.forall_mem_singleton]
  exact ⟨rfl, hoff⟩

/-! ### How much a stream can produce -/

/-- The stream has moved on from `i` to `i'`, and the output from `len` to `len'`. -/
structure Advance (src : List UInt8) (i len i' len' : ℕ) : Prop where
  le : i' ≤ src.length
  mono : i ≤ i'
  grows : len ≤ len'
  bound : len' + 18 * i ≤ len + 18 * i'

theorem Advance.refl (h : i ≤ src.length) : Advance src i len i len :=
  ⟨h, Nat.le_refl _, Nat.le_refl _, Nat.le_refl _⟩

theorem Advance.trans {j n : ℕ} (h : Advance src i len j n) (h' : Advance src j n i' len') :
    Advance src i len i' len' := by
  have := h.bound
  have := h'.bound
  exact ⟨h'.le, Nat.le_trans h.mono h'.mono, Nat.le_trans h.grows h'.grows, by omega⟩

/-- **A match token stands for eighteen bytes at most.** -/
theorem advance_itemEnd (h : itemEnd src flags bit i len = some (i', len')) :
    Advance src i len i' len' ∧ len < len' := by
  rw [itemEnd] at h
  split at h
  · obtain ⟨tok, htok, h⟩ := Option.map_eq_some_iff.mp h
    obtain ⟨rfl, rfl⟩ := Prod.mk.inj h
    have hpos := tokenLen_pos tok
    have hlen : tokenLen tok ≤ 18 := by
      have hmod := @Nat.and_two_pow_sub_one_eq_mod tok 4
      rw [tokenLen, show (0xF : ℕ) = 2 ^ 4 - 1 from rfl, hmod, minMatch]
      omega
    rw [unpackAt] at htok
    split at htok
    · exact ⟨⟨by omega, by omega, by omega, by omega⟩, by omega⟩
    · cases htok
  · split at h
    · obtain ⟨rfl, rfl⟩ := Prod.mk.inj (Option.some.inj h)
      exact ⟨⟨by omega, by omega, by omega, by omega⟩, by omega⟩
    · cases h

theorem advance_bitsEnd (h : bitsEnd src total flags bits i len = some (i', len'))
    (hi : i ≤ src.length) : Advance src i len i' len' := by
  induction bits generalizing i len with
  | nil =>
    obtain ⟨rfl, rfl⟩ := Prod.mk.inj (Option.some.inj h)
    exact .refl hi
  | cons bit bits ih =>
    rw [bitsEnd] at h
    split at h
    · obtain ⟨rfl, rfl⟩ := Prod.mk.inj (Option.some.inj h)
      exact .refl hi
    · obtain ⟨p, hp, h⟩ := Option.bind_eq_some_iff.mp h
      have hone := (advance_itemEnd hp).1
      exact hone.trans (ih h hone.le)

/-- A group that is entered makes the output longer. -/
theorem lt_bitsEnd (h : bitsEnd src total flags (bit :: bits) i len = some (i', len'))
    (hmore : ¬total ≤ len) : len < len' := by
  rw [bitsEnd, if_neg hmore] at h
  obtain ⟨p, hp, h⟩ := Option.bind_eq_some_iff.mp h
  obtain ⟨hone, hlt⟩ := advance_itemEnd hp
  exact Nat.lt_of_lt_of_le hlt (advance_bitsEnd h hone.le).grows

theorem advance_streamEnd (h : streamEnd src total fuel i len = some (i', len'))
    (hi : i ≤ src.length) (hfuel : total ≤ len + fuel) :
    Advance src i len i' len' ∧ total ≤ len' := by
  induction fuel generalizing i len with
  | zero =>
    obtain ⟨rfl, rfl⟩ := Prod.mk.inj (Option.some.inj h)
    exact ⟨.refl hi, hfuel⟩
  | succ fuel ih =>
    rw [streamEnd] at h
    split at h
    · next hfull =>
      obtain ⟨rfl, rfl⟩ := Prod.mk.inj (Option.some.inj h)
      exact ⟨.refl hi, hfull⟩
    · next hmore =>
      obtain ⟨f, hf, h⟩ := Option.bind_eq_some_iff.mp h
      obtain ⟨p, hp, h⟩ := Option.bind_eq_some_iff.mp h
      have hlt := (List.getElem?_eq_some_iff.mp hf).1
      have hflag : Advance src i len (i + 1) len := ⟨hlt, by omega, by omega, by omega⟩
      have hgroup := advance_bitsEnd hp hlt
      have hgrow : len < p.2 := lt_bitsEnd hp hmore
      obtain ⟨hrest, htotal⟩ := ih h hgroup.le (by omega)
      exact ⟨(hflag.trans hgroup).trans hrest, htotal⟩

/-- A container that declares more than its bytes can stand for is exhausted. -/
theorem exhausted_of_lt (h8 : 8 ≤ src.length) (hmagic : leNat (slice src 0 4) = lzssMagic)
    (hlt : 18 * src.length < declared src) : Exhausted src := by
  refine ⟨h8, hmagic, Option.eq_none_iff_forall_ne_some.mpr fun p hp => ?_⟩
  obtain ⟨hadv, htotal⟩ := advance_streamEnd hp h8 (Nat.le_add_left _ _)
  have hle := hadv.le
  have hbound := hadv.bound
  omega

end Lzss

namespace Stage2

open X86 Reg Operand Label StateTransition ByteString Memory Python Lzss

variable {fst : ℕ} {k : Link Label} {c : DecompCall} {s : Cpu} {i : ℕ} {o : List UInt8}

/-! ### Straying -/

/-- The run gets to a block that is not contained. -/
def Strays (fst : ℕ) (k : Link Label) (c : DecompCall) (x : Label × Cpu) : Prop :=
  LeadsTo (within fst k c.touched c.written) x fun y =>
    y.1.inDecompress = true ∧ ¬Contained (step fst k) c.touched c.written y

theorem Strays.of_leadsTo {x : Label × Cpu} {P : Label × Cpu → Prop}
    (h : LeadsTo (within fst k c.touched c.written) x P) (hP : ∀ y, P y → Strays fst k c y) :
    Strays fst k c x :=
  h.trans hP

theorem Strays.of_reaches {x y : Label × Cpu}
    (h : Reaches (within fst k c.touched c.written) x y) (hy : Strays fst k c y) :
    Strays fst k c x := by
  obtain ⟨z, hz, hstray⟩ := hy
  exact ⟨z, h.trans hz, hstray⟩

/-- The declared length is what fits, and what is next to container and output belongs to
neither. -/
structure Apart (c : DecompCall) : Prop where
  cap : c.cap = c.total
  room : 4096 ≤ c.dst
  inp_le : c.inp + c.src.length + 2 ≤ 2 ^ 32
  behind : ∀ a, c.inp + c.src.length ≤ a → a < c.inp + c.src.length + 2 → a ∉ c.touched
  before : ∀ a, c.dst ≤ a + 4096 → a < c.dst → a ∉ c.touched
  after : c.dst + c.cap ∉ c.written

/-- The counter and the distance are not where the output goes. -/
theorem word_compl {a d : ℕ} (ha : a + 4 ≤ 2 ^ 32) (hd : d < a ∨ a + 4 ≤ d) :
    Word ({d}ᶜ) (.ofNat 32 a) :=
  word_ofNat ha fun b hb hb' h => by
    rw [Set.mem_singleton_iff] at h
    omega

/-- **A reference to before the output.** -/
theorem strays_of_before {off n : ℕ} (ha : Apart c) (h : Copying c i o off (n + 1) s)
    (hlt : o.length < off) (hoff : off ≤ 4096) (hcap : o.length < c.cap) :
    Strays fst k c (decompCopy, s) := by
  have hroom := ha.room
  have hdst := c.dst_lt
  have hsp := c.sp_lt
  have hge := c.sp_ge
  have hds := c.dst_sp
  have hdist : ld32 s.mem (.ofNat 32 (c.sp - 12 + 4)) = .ofNat 32 off := by
    rw [ld32_ofNat (by omega), show c.sp - 12 + 4 = c.sp - 8 by omega, h.dist]
  have hedi : s.edi.toNat = c.dst + o.length := by
    rw [h.edi, toNat_ofNat_of_lt (by omega)]
  refine .now ⟨rfl, not_contained_decompCopy_read (a := c.dst + o.length - off) ?_ ?_ ?_ ?_ ?_⟩
  · rw [h.esp, ofNat_add_ofNat, hdist, h.edi, ofNat_sub_ofNat (by omega),
      toNat_ofNat_of_lt (by omega)]
  · rw [hedi, h.esp]
    exact word_compl (by omega) (by omega)
  · rw [h.esp, ofNat_add_ofNat]
    exact (c.word_written (by omega) (by omega) (by omega)).mono c.written_subset
  · rw [h.edi]
    exact c.written_subset (c.out_written hcap)
  · exact ha.before _ (by omega) (by omega)

/-- **A match that goes past the end of the output.** By induction on the room that is left. -/
theorem strays_of_overrun {off n : ℕ} (ha : Apart c) (h : Copying c i o off (n + 1) s)
    (hoff : 1 ≤ off) (hle : off ≤ o.length) (hcap : o.length ≤ c.cap)
    (hover : c.cap < o.length + (n + 1)) : Strays fst k c (decompCopy, s) := by
  induction hroom : c.cap - o.length generalizing n o s with
  | zero =>
    have hfull : o.length = c.cap := by omega
    have hdst := c.dst_lt
    have hsp := c.sp_lt
    have hge := c.sp_ge
    have hds := c.dst_sp
    have hdist : ld32 s.mem (.ofNat 32 (c.sp - 12 + 4)) = .ofNat 32 off := by
      rw [ld32_ofNat (by omega), show c.sp - 12 + 4 = c.sp - 8 by omega, h.dist]
    have hedi : s.edi.toNat = c.dst + o.length := by
      rw [h.edi, toNat_ofNat_of_lt (by omega)]
    have hafter := ha.after
    have houtside : c.dst + c.cap < c.sp - 12 ∨ c.sp + 16 ≤ c.dst + c.cap := by
      by_contra hin
      exact hafter (Or.inr (by omega))
    refine .now ⟨rfl, not_contained_decompCopy_write ?_ ?_ ?_ ?_⟩
    · rw [hedi, h.esp]
      exact word_compl (by omega) (by omega)
    · rw [hedi, h.esp, ofNat_add_ofNat]
      exact word_compl (by omega) (by omega)
    · rw [hedi, h.esp, ofNat_add_ofNat, hdist, h.edi, ofNat_sub_ofNat (by omega),
        toNat_ofNat_of_lt (by omega)]
      omega
    · rw [hedi, hfull]
      exact hafter
  | succ r ih =>
    refine .of_leadsTo (leadsTo_decompCopy_pass h hoff hle (by omega)) ?_
    rintro ⟨l, s₁⟩ ⟨-, -, ⟨rfl, -, -⟩ | ⟨hne, rfl, hc⟩⟩
    · omega
    · obtain ⟨n, rfl⟩ := Nat.exists_eq_succ_of_ne_zero hne
      refine ih hc ?_ ?_ ?_ ?_
      all_goals
        rw [List.length_append, List.length_singleton]
        omega

/-! ### Straying or decoding -/

/-- **One item** either strays or is decoded. -/
theorem strays_or_item {flags bit : ℕ} (ha : Apart c) (h : Decoding c i o s) (hflags : flags < 256)
    (hbit : bit < 8) (hebx : s.ebx = .ofNat 32 (2 ^ bit)) (hebp : s.ebp = .ofNat 32 flags)
    (hmore : o.length < c.total) (hi : i ≤ c.src.length) :
    Strays fst k c (decompItem, s) ∨ ∃ i' o', decompressItem c.src flags bit i o = .ok (i', o') ∧
      (∀ r ∈ itemBackRefs c.src flags bit i o, r.1 ≤ r.2) ∧ o'.length ≤ c.total ∧
      i' ≤ c.src.length := by
  have hcap := ha.cap
  have hdst := c.dst_lt
  have hin := ha.inp_le
  have hesi : s.esi.toNat = c.inp + i := by rw [h.esi, toNat_ofNat_of_lt (by omega)]
  by_cases hset : flags &&& (1 <<< bit) = 0
  · by_cases hlt : i < c.src.length
    · obtain ⟨hitem, hrefs⟩ := @decompressItem_of_byte c.src o flags bit i _ hset
        (List.getElem?_eq_getElem hlt)
      refine Or.inr ⟨_, _, hitem, hrefs, ?_, hlt⟩
      rw [List.length_append, List.length_singleton]
      exact hmore
    · -- the literal is behind the end
      refine Or.inl (.now ⟨rfl, not_contained_decompItem ?_ ?_ ?_⟩)
      · rw [hebx, hebp]
        exact (mask_eq_zero_iff hflags hbit).mpr hset
      · rw [hesi]
        exact ha.behind _ (by omega) (by omega)
      · rw [h.edi]
        exact c.written_subset (c.out_written (by omega))
  · have hmatch := @leadsTo_decompMatch fst k c s i o flags bit h hflags hbit hebx hebp hset
    by_cases hlt : i + 2 ≤ c.src.length
    · obtain ⟨tok, htok⟩ : ∃ tok, tok = leNat (slice c.src i (i + 2)) := ⟨_, rfl⟩
      obtain ⟨n, hn⟩ : ∃ n, tokenLen tok = n + 1 := ⟨tok % 16 + 2, by rw [tokenLen_eq]⟩
      have hsplit {P : Prop} (hstray : ∀ s, Copying c (i + 2) o (tokenOff tok) (n + 1) s →
          Strays fst k c (decompCopy, s)) : Strays fst k c (decompItem, s) ∨ P := by
        refine Or.inl (.of_leadsTo hmatch ?_)
        rintro ⟨_, s₁⟩ ⟨rfl, -, -, hd⟩
        refine .of_leadsTo (leadsTo_decompMatch_split hd hlt htok (by omega)) ?_
        rintro ⟨_, s₂⟩ ⟨rfl, -, -, hc⟩
        rw [hn] at hc
        exact hstray s₂ hc
      by_cases hoff : tokenOff tok ≤ o.length
      · by_cases hlen : o.length + tokenLen tok ≤ c.total
        · obtain ⟨hitem, hrefs⟩ := decompressItem_of_token hset hlt htok hoff
          refine Or.inr ⟨_, _, hitem, hrefs, ?_, hlt⟩
          rw [length_copyBack]
          exact hlen
        · exact hsplit fun s₂ hc =>
            strays_of_overrun ha hc (tokenOff_pos tok) hoff (by omega) (by omega)
      · have hwindow : tokenOff tok ≤ 4096 := by
          have hbound : tok < 65536 := by
            rw [htok]
            exact Nat.lt_of_lt_of_eq (leNat_lt _) (by rw [length_slice hlt]; simp)
          rw [tokenOff_eq]
          omega
        exact hsplit fun s₂ hc => strays_of_before ha hc (by omega) hwindow (by omega)
    · -- the token is cut short
      refine Or.inl (.of_leadsTo hmatch ?_)
      rintro ⟨_, s₁⟩ ⟨rfl, -, -, hd⟩
      dsimp only at hd
      refine .now ⟨rfl, not_contained_decompMatch c.sp_ge c.sp_lt hd.esp
        (fun a _ _ => Or.inr (Or.inr (by omega))) ?_⟩
      rw [hd.esi, ofNat_add_ofNat, toNat_ofNat_of_lt (by omega)]
      exact ha.behind _ (by omega) (by omega)

/-- **The rest of a group** either strays or is decoded. -/
theorem strays_or_bits {flags bit n : ℕ} (ha : Apart c) (hn : bit + 1 + n = 8)
    (hflags : flags < 256)
    (h : Decoding c i o s) (hebx : s.ebx = .ofNat 32 (2 ^ bit)) (hebp : s.ebp = .ofNat 32 flags)
    (hi : i ≤ c.src.length) (hle : o.length ≤ c.total) :
    Strays fst k c (decompTop, s) ∨ ∃ i' o',
      decompressBits c.src c.total flags (List.range' (bit + 1) n) i o = .ok (i', o') ∧
      (∀ r ∈ bitsBackRefs c.src c.total flags (List.range' (bit + 1) n) i o, r.1 ≤ r.2) ∧
      o'.length ≤ c.total ∧ i' ≤ c.src.length := by
  induction n generalizing bit i o s with
  | zero => exact Or.inr ⟨i, o, rfl, fun r hr => absurd hr List.not_mem_nil, hle, hi⟩
  | succ n ih =>
    have hcap := ha.cap
    rw [List.range'_succ, decompressBits, bitsBackRefs]
    by_cases hfull : c.total ≤ o.length
    · rw [if_pos hfull, if_pos hfull]
      exact Or.inr ⟨i, o, rfl, fun r hr => absurd hr List.not_mem_nil, hle, hi⟩
    · rw [if_neg hfull, if_neg hfull]
      obtain ⟨⟨_, s₁⟩, hreach, rfl, hebx₁, hebp₁, hd₁⟩ :=
        @leadsTo_decompItem_next fst k c s i o bit h (by omega) (by omega) hebx
      have hebp₁ := hebp₁.trans hebp
      rcases strays_or_item ha hd₁ hflags (by omega) hebx₁ hebp₁ (by omega) hi with
        hstray | ⟨i₁, o₁, hitem, hrefs, hle₁, hi₁⟩
      · exact Or.inl (hstray.of_reaches hreach)
      · obtain ⟨⟨_, s₂⟩, hreach₂, rfl, hebx₂, hebp₂, hd₂⟩ :=
          @leadsTo_decompItem fst k c s₁ i o flags (bit + 1) i₁ o₁ hd₁ hflags (by omega) hebx₁ hebp₁
            hitem hrefs (by omega)
        rw [hitem]
        rcases ih (by omega) hd₂ (hebx₂.trans hebx₁) (hebp₂.trans hebp₁) hi₁ hle₁ with
          hstray | ⟨i', o', hbits, hrefs', hle', hi'⟩
        · exact Or.inl (hstray.of_reaches (hreach.trans hreach₂))
        · exact Or.inr ⟨i', o', hbits,
            fun r hr => (List.mem_append.mp hr).elim (hrefs r) (hrefs' r), hle', hi'⟩

/-- **A whole group**, from the flag byte on. -/
theorem strays_or_group (ha : Apart c) (h : Decoding c i o s) (hmore : o.length < c.total)
    (hebx : s.ebx = 0x80#32) (hi : i ≤ c.src.length) :
    Strays fst k c (decompTop, s) ∨ ∃ f i' o', c.src[i]? = some f ∧
      decompressBits c.src c.total f.toNat (List.range 8) (i + 1) o = .ok (i', o') ∧
      (∀ r ∈ bitsBackRefs c.src c.total f.toNat (List.range 8) (i + 1) o, r.1 ≤ r.2) ∧
      o'.length ≤ c.total ∧ i' ≤ c.src.length := by
  have hcap := ha.cap
  have hin := ha.inp_le
  by_cases hlt : i < c.src.length
  · obtain ⟨f, hf⟩ : ∃ f, c.src[i]? = some f := ⟨_, List.getElem?_eq_getElem hlt⟩
    have hflags : f.toNat < 256 := f.toNat_lt
    obtain ⟨⟨_, s₁⟩, hreach, rfl, hebx₁, hebp₁, hd₁⟩ :=
      @leadsTo_decompItem_refill fst k c s i o f h hmore hebx hf
    rcases strays_or_item ha hd₁ hflags (by decide) hebx₁ hebp₁ hmore hlt with
      hstray | ⟨i₁, o₁, hitem, hrefs, hle₁, hi₁⟩
    · exact Or.inl (hstray.of_reaches hreach)
    · obtain ⟨⟨_, s₂⟩, hreach₂, rfl, hebx₂, hebp₂, hd₂⟩ :=
        @leadsTo_decompItem fst k c s₁ (i + 1) o f.toNat 0 i₁ o₁ hd₁ hflags (by decide) hebx₁ hebp₁
          hitem hrefs (by omega)
      rcases @strays_or_bits fst k c s₂ i₁ o₁ f.toNat 0 7 ha rfl hflags hd₂ (hebx₂.trans hebx₁)
        (hebp₂.trans hebp₁) hi₁ hle₁ with hstray | ⟨i', o', hbits, hrefs', hle', hi'⟩
      · exact Or.inl (hstray.of_reaches (hreach.trans hreach₂))
      · refine Or.inr ⟨f, i', o', hf, ?_, ?_, hle', hi'⟩
        · rw [show List.range 8 = 0 :: List.range' 1 7 from rfl, decompressBits,
            if_neg (Nat.not_le.mpr hmore), hitem]
          exact hbits
        · rw [show List.range 8 = 0 :: List.range' 1 7 from rfl, bitsBackRefs,
            if_neg (Nat.not_le.mpr hmore), hitem]
          exact fun r hr => (List.mem_append.mp hr).elim (hrefs r) (hrefs' r)
  · -- the flag byte is behind the end
    refine Or.inl (.of_leadsTo (leadsTo_decompRefill h hmore hebx) ?_)
    rintro ⟨_, s₁⟩ ⟨rfl, hd⟩
    dsimp only at hd
    refine .now ⟨rfl, not_contained_decompRefill ?_⟩
    rw [hd.esi, toNat_ofNat_of_lt (by omega)]
    exact ha.behind _ (by omega) (by omega)

/-- **All groups.** By induction on the passes of the reference decoder. -/
theorem strays_or_loop {fuel : ℕ} (ha : Apart c) (h : Decoding c i o s)
    (hebx : s.ebx = 0x80#32 ∨ c.total ≤ o.length) (hfuel : c.total ≤ o.length + fuel)
    (hi : i ≤ c.src.length) (hle : o.length ≤ c.total) :
    Strays fst k c (decompTop, s) ∨ ∃ out, decompressLoop c.src c.total fuel i o = .ok out ∧
      (∀ r ∈ loopBackRefs c.src c.total fuel i o, r.1 ≤ r.2) ∧ out.length = c.total := by
  induction fuel generalizing i o s with
  | zero =>
    exact Or.inr ⟨o, rfl, fun r hr => absurd hr List.not_mem_nil, Nat.le_antisymm hle hfuel⟩
  | succ fuel ih =>
    rw [decompressLoop, loopBackRefs]
    by_cases hfull : c.total ≤ o.length
    · rw [if_pos hfull, if_pos hfull]
      exact Or.inr ⟨o, rfl, fun r hr => absurd hr List.not_mem_nil, Nat.le_antisymm hle hfull⟩
    · have hmore := Nat.not_le.mp hfull
      have hebx := hebx.resolve_right hfull
      rw [if_neg hfull, if_neg hfull]
      rcases strays_or_group ha h hmore hebx hi with
        hstray | ⟨f, i₁, o₁, hf, hbits, hrefs, hle₁, hi₁⟩
      · exact Or.inl hstray
      · have hcap := ha.cap
        have hgrow : o.length < o₁.length := length_lt_of_decompressBits hfull hbits
        have hlt := (List.getElem?_eq_some_iff.mp hf).1
        obtain ⟨⟨_, s₁⟩, hreach, rfl, hebx₁, hd₁⟩ :=
          @leadsTo_decompGroup fst k c s i o f i₁ o₁ h hmore hebx hf hbits hrefs (by omega)
        rw [if_neg (Nat.not_le.mpr hlt), pyIndex_ofNat hf]
        simp only [ok_bind, hbits]
        rcases ih hd₁ hebx₁ (by omega) hi₁ hle₁ with hstray | ⟨out, hloop, hrefs', hlen⟩
        · exact Or.inl (hstray.of_reaches hreach)
        · exact Or.inr ⟨out, hloop, fun r hr => (List.mem_append.mp hr).elim (hrefs r) (hrefs' r),
            hlen⟩

/-- **The routine strays** on a container that is not complete. -/
theorem strays_or_decoded (ha : Apart c) (h : c.Entered s) (h8 : 8 ≤ c.src.length)
    (hmagic : leNat (slice c.src 0 4) = lzssMagic) :
    Strays fst k c (qizoDecompress, s) ∨ ∃ out, decompress c.src = .ok out ∧
      BackRefsInRange c.src ∧ out.length = c.total := by
  obtain ⟨⟨_, s₁⟩, hreach, rfl, hebx₁, hd₁⟩ := @leadsTo_decompTop fst k c s h h8 hmagic
  rcases strays_or_loop ha hd₁ (Or.inl hebx₁) (Nat.le_add_left c.total _) h8 (Nat.zero_le _) with
    hstray | ⟨out, hloop, hrefs, hlen⟩
  · exact Or.inl (hstray.of_reaches hreach)
  · rw [h.total] at hloop hrefs
    refine Or.inr ⟨out, decompress_eq_ok_iff.mpr ⟨h8, hmagic, hloop⟩, ?_, hlen⟩
    rw [BackRefsInRange, backRefs_eq h8]
    exact hrefs

/-! ### A length that wraps -/

/-- A declared length that takes the end of the output around the address space: nothing is
decoded. -/
theorem leadsTo_wrapped {src : List UInt8} {l : Label} (hsp : 16 ≤ s.esp.toNat)
    (hsp' : s.esp.toNat + 4 ≤ 2 ^ 32) (hin : s.esi.toNat + 8 ≤ 2 ^ 32)
    (hret : ld32 s.mem s.esp = k.addr l) (hholds : (savedMem s).Holds s.esi.toNat src)
    (h8 : 8 ≤ src.length) (hmagic : leNat (slice src 0 4) = lzssMagic)
    (hwrap : 2 ^ 32 ≤ s.edi.toNat + declared src) :
    LeadsTo (during fst k) (qizoDecompress, s) fun x => x.1 = l ∧ x.2.eax = 1#32 := by
  have hall (x : Label × Cpu) : Contained (step fst k) Set.univ Set.univ x :=
    ⟨fun _ _ => trivial, fun _ _ => trivial⟩
  refine leadsTo_during (R := Set.univ) (W := Set.univ) ?_
  refine (leadsTo_header hsp hsp' hin hholds h8 hmagic (hall _)).trans ?_
  rintro ⟨_, s₁⟩ ⟨rfl, -, -, -, hedi, hedx, hesp, hmem⟩
  dsimp only at hedi hedx hesp hmem
  have hend : ¬s.edi.toNat < s₁.edx.toNat := by
    have hlt := s.edi.isLt
    have hlt' : declared src < 2 ^ 32 := by
      have := leNat_lt (slice src 4 8)
      rwa [length_slice h8] at this
    rw [hedx, BitVec.toNat_add, show leNat (slice src 4 8) = declared src from rfl,
      toNat_ofNat_of_lt hlt']
    omega
  refine leadsTo_within rfl (hall _) rfl ?_
  simp only [runBlock, cmpl, jae, Cpu.read, Cpu.get, hedi, decide_eq_false hend]
  rw [if_pos (by rfl)]
  refine LeadsTo.mono (leadsTo_decompRet hsp hsp' hret ?_ (F := []) ?_ (fun _ _ _ => outside_nil _)
    fun _ _ _ => Set.mem_univ _) ?_
  · exact hesp
  · intro x _
    exact congrFun hmem x
  · rintro ⟨_, s₂⟩ ⟨rfl, heax, -⟩
    exact ⟨rfl, heax⟩

/-! ### The routine -/

theorem DecompCall.Entered.mayTouch_eq (h : c.Entered s) :
    mayTouch s c.src.length c.cap = c.touched ∧ mayWrite s c.cap = c.written := by
  have hge := c.sp_ge
  have hsp := h.sp
  constructor
  · ext a
    simp only [mayTouch, DecompCall.touched, Set.mem_ofPred_eq, h.inp, h.dst]
    omega
  · ext a
    simp only [mayWrite, DecompCall.written, Set.mem_ofPred_eq, h.dst]
    omega

variable {blob : List UInt8}

/-- **The routine rejects exhausted containers**, and stays in its memory: it touches nothing but
the container, the output of the declared length and its stack, and writes nothing but the latter
two. -/
structure RejectsExhausted (fst : ℕ) (k : Link Label) (blob : List UInt8) (s : Cpu) : Prop where
  /-- An exhausted container. -/
  rejects : Exhausted blob → LeadsTo (during fst k) (qizoDecompress, s) fun x =>
    x.1 = decompBack ∧ x.2.eax = 0#32 ∧ x.2.mem.load 1 (bootinfo + biErr) = 0x15
  /-- Any container. -/
  contained : ∀ x, Reaches (during fst k) (qizoDecompress, s) x → x.1.inDecompress = true →
    Contained (step fst k) (mayTouch s blob.length (declared blob)) (mayWrite s (declared blob)) x

/-- **The container is complete.** With the magic, it decodes to the declared length, and its back
references do not reach before the output. Without, it has at most the declared length. -/
def Complete (blob : List UInt8) : Prop :=
  8 ≤ blob.length ∧
    (leNat (slice blob 0 4) = lzssMagic ∧ (∃ out, decompress blob = .ok out ∧
        out.length = declared blob) ∧ BackRefsInRange blob ∨
      leNat (slice blob 0 4) ≠ lzssMagic ∧ blob.length ≤ declared blob)

/-- The addresses of the call. -/
theorem DecompressCall.addresses (h : DecompressCall k blob s) :
    s.esi.toNat = 0x21000 ∧ s.edi.toNat = 0x180000 ∧ s.esp.toNat = 0x43FFC ∧
      ld32 s.mem s.esp = k.addr decompBack := by
  refine ⟨by rw [h.esi]; rfl, by rw [h.edi]; rfl, by rw [h.called.esp]; rfl, ?_⟩
  rw [h.called.esp, ld32_ofNat h.called.sp_le, h.called.ret, ← eq_ofNat_toNat]

/-- Container and stack are apart. -/
theorem DecompressCall.holds_savedMem (h : DecompressCall k blob s) (hmax : blob.length ≤ blobMax) :
    (savedMem s).Holds s.esi.toNat blob := by
  obtain ⟨hesi, -, hesp, -⟩ := h.addresses
  have hle : blob.length ≤ 0x1F000 := hmax
  have hat : s.mem.Holds s.esi.toNat blob := by
    rw [hesi]
    exact h.blob_at
  refine hat.of_eqOutside (savedMem_frame (by omega)) fun x _ _ => ?_
  simp only [outside_cons, outside_nil, and_true]
  omega

/-- The call as the loop sees it, if the output does not wrap. -/
def declaredCall (h : DecompressCall k blob s) (hmax : blob.length ≤ blobMax)
    (hfits : 0x180000 + declared blob < 2 ^ 32) : DecompCall where
  src := blob
  total := declared blob
  inp := 0x21000
  dst := 0x180000
  cap := declared blob
  sp := 0x43FEC
  mem := savedMem s
  holds := h.addresses.1 ▸ h.holds_savedMem hmax
  total_le := Nat.le_refl _
  inp_le := by
    have hle : blob.length ≤ 0x1F000 := hmax
    omega
  dst_lt := hfits
  sp_ge := by decide
  sp_lt := by decide
  inp_dst := by
    have hle : blob.length ≤ 0x1F000 := hmax
    omega
  inp_sp := by
    have hle : blob.length ≤ 0x1F000 := hmax
    omega
  dst_sp := Or.inr (by decide)

theorem entered_declaredCall (h : DecompressCall k blob s) (hmax : blob.length ≤ blobMax)
    (hfits : 0x180000 + declared blob < 2 ^ 32) : (declaredCall h hmax hfits).Entered s := by
  obtain ⟨hesi, hedi, hesp, -⟩ := h.addresses
  exact ⟨hesi, hedi, hesp, (by decide : 0x43FEC + 20 ≤ 2 ^ 32),
    Or.inr (by decide : 0x43FEC + 20 ≤ 0x180000), rfl, rfl⟩

theorem apart_declaredCall (h : DecompressCall k blob s) (hmax : blob.length ≤ blobMax)
    (hfits : 0x180000 + declared blob < 2 ^ 32) : Apart (declaredCall h hmax hfits) := by
  have hle : blob.length ≤ 0x1F000 := hmax
  refine ⟨rfl, (by decide : 4096 ≤ 0x180000), ?_, fun a _ _ => ?_, fun a _ _ => ?_, ?_⟩
  · dsimp only [declaredCall]
    omega
  all_goals
    simp only [declaredCall, DecompCall.touched, DecompCall.written, Set.mem_ofPred_eq] at *
    omega

/-- Every block of the call is contained, if it is left on the way of contained blocks. -/
theorem contained_of_leadsTo {R W : Set ℕ} {P : Label × Cpu → Prop}
    (h : LeadsTo (within fst k R W) (qizoDecompress, s) fun x => x.1 = decompBack ∧ P x) (x)
    (hx : Reaches (during fst k) (qizoDecompress, s) x) (hin : x.1.inDecompress = true) :
    Contained (step fst k) R W x := by
  have hleft : LeadsTo (restrict (fun y => y.1.inDecompress = true ∧
      Contained (step fst k) R W y) (step fst k)) (qizoDecompress, s)
      fun y => ¬y.1.inDecompress = true := by
    refine h.mono fun y hy => ?_
    rw [hy.1]
    exact Bool.false_ne_true
  exact hleft.along hx hin

/-- **Complete containers** are no problem. -/
theorem rejectsExhausted_of_complete (h : DecompressCall k blob s) (hmax : blob.length ≤ blobMax)
    (hc : Complete blob) : RejectsExhausted fst k blob s := by
  have hle : blob.length ≤ 0x1F000 := hmax
  obtain ⟨hesi, hedi, hesp, hret⟩ := h.addresses
  obtain ⟨h8, ⟨hmagic, ⟨out, hdec, hlen⟩, hrefs⟩ | ⟨hmagic, hshort⟩⟩ := hc
  · have hnot := not_exhausted_of_decompress hdec
    have hfits : 0x180000 + declared blob < 2 ^ 32 := by
      by_contra hwrap
      exact hnot (exhausted_of_lt h8 hmagic (by omega))
    have hentered := entered_declaredCall h hmax hfits
    obtain ⟨htouch, hwrite⟩ := hentered.mayTouch_eq
    refine ⟨fun hex => absurd hex hnot, fun x hx hin => ?_⟩
    have hcontained :=
      contained_of_leadsTo (leadsTo_decompressed hentered hret hdec hrefs hlen.le) x
      hx hin
    rw [← htouch, ← hwrite] at hcontained
    exact hcontained
  · refine ⟨fun hex => absurd hex.2.1 hmagic, fun x hx hin => ?_⟩
    have hlayout : DecompLayout s blob.length blob.length := by
      constructor <;> omega
    have hat : s.mem.Holds s.esi.toNat blob := by
      rw [hesi]
      exact h.blob_at
    refine (contained_of_leadsTo (leadsTo_qizoDecompress_raw hlayout hat h.ecx hret h8 hmagic) x hx
      hin).mono ?_ ?_
    · rintro a (ha | ha | ha)
      · exact Or.inl ha
      · exact Or.inr (Or.inl (by omega))
      · exact Or.inr (Or.inr ha)
    · rintro a (ha | ha)
      · exact Or.inl (by omega)
      · exact Or.inr ha

/-- A container without the magic that is longer than declared is written past the declared end. -/
theorem RejectsExhausted.length_le (h : DecompressCall k blob s) (hmax : blob.length ≤ blobMax)
    (hr : RejectsExhausted fst k blob s) (h8 : 8 ≤ blob.length)
    (hmagic : leNat (slice blob 0 4) ≠ lzssMagic) : blob.length ≤ declared blob := by
  have hle : blob.length ≤ 0x1F000 := hmax
  obtain ⟨hesi, hedi, hesp, -⟩ := h.addresses
  by_contra hlong
  have hlayout : DecompLayout s blob.length blob.length := by
    constructor <;> omega
  have hat : s.mem.Holds s.esi.toNat blob := by
    rw [hesi]
    exact h.blob_at
  have hrun : LeadsTo (during fst k) (qizoDecompress, s) fun x => x.1 = decompCopyByte ∧
      RawCopying s blob (declared blob) x.2 := by
    refine leadsTo_during (LeadsTo.trans (leadsTo_rawCopying hlayout hat h.ecx h8 hmagic) ?_)
    rintro ⟨_, s₁⟩ ⟨rfl, h₁⟩
    refine LeadsTo.trans (leadsTo_rawCopying_add (n := declared blob) h₁ hlayout hat (by omega)) ?_
    rintro ⟨_, s₂⟩ ⟨rfl, h₂⟩
    rw [Nat.zero_add] at h₂
    exact leadsTo_decompCopyByte h₂ hlayout (by omega)
  obtain ⟨⟨_, s₁⟩, hreach, rfl, h₁⟩ := hrun
  dsimp only at h₁
  have hesi₁ : s₁.esi.toNat = 0x21000 + declared blob := by
    rw [h₁.esi, toNat_ofNat_of_lt (by omega), hesi]
  have hedi₁ : s₁.edi.toNat = 0x180000 + declared blob := by
    rw [h₁.edi, toNat_ofNat_of_lt (by omega), hedi]
  refine not_contained_decompCopyByte (by omega) ?_ (hr.contained _ hreach rfl)
  rintro (ha | ha)
  · omega
  · omega

/-- **Nothing else is rejected.** -/
theorem RejectsExhausted.complete (h : DecompressCall k blob s) (hmax : blob.length ≤ blobMax)
    (hr : RejectsExhausted fst k blob s) : Complete blob := by
  have hle : blob.length ≤ 0x1F000 := hmax
  obtain ⟨hesi, hedi, hesp, hret⟩ := h.addresses
  have h8 : 8 ≤ blob.length := by
    by_contra hshort
    refine not_contained_qizoDecompress (i := 0x21000) (a := 0x21000 + blob.length)
      (words_pushed (by omega) fun a _ _ => Or.inr (Or.inr (by omega))) (by decide) h.esi (by omega)
      (by omega) ?_ (hr.contained _ .refl rfl)
    rintro (ha | ha | ha)
    all_goals omega
  refine ⟨h8, ?_⟩
  by_cases hmagic : leNat (slice blob 0 4) = lzssMagic
  · refine Or.inl ⟨hmagic, ?_⟩
    by_cases hfits : 0x180000 + declared blob < 2 ^ 32
    · have hentered := entered_declaredCall h hmax hfits
      obtain ⟨htouch, hwrite⟩ := hentered.mayTouch_eq
      rcases strays_or_decoded (apart_declaredCall h hmax hfits) hentered h8 hmagic with
        hstray | ⟨out, hdec, hrefs, hlen⟩
      · obtain ⟨y, hreach, hin, hnot⟩ := leadsTo_during hstray
        rw [← htouch, ← hwrite] at hnot
        exact absurd (hr.contained y hreach hin) hnot
      · exact ⟨⟨out, hdec, hlen⟩, hrefs⟩
    · -- the end of the output wraps, and the routine returns at once
      have hex : Exhausted blob := exhausted_of_lt h8 hmagic (by omega)
      obtain ⟨⟨_, s₁⟩, hreach₁, rfl, heax₁, -⟩ := hr.rejects hex
      obtain ⟨⟨_, s₂⟩, hreach₂, rfl, heax₂⟩ := @leadsTo_wrapped fst k s blob decompBack (by omega)
        (by omega) (by omega) hret (h.holds_savedMem hmax) h8 hmagic (by omega)
      have hstop (s : Cpu) : during fst k (decompBack, s) = none :=
        restrict_of_neg Bool.false_ne_true
      have heq := hreach₁.halted_unique hreach₂ (hstop s₁) (hstop s₂)
      obtain rfl : s₁ = s₂ := congrArg Prod.snd heq
      exact absurd (heax₁.symm.trans heax₂) (by decide)
  · exact Or.inr ⟨hmagic, hr.length_le h hmax h8 hmagic⟩

/-- **When the routine does what it should**: on complete containers, which it has no reason to
reject. -/
theorem rejectsExhausted_iff (h : DecompressCall k blob s) (hmax : blob.length ≤ blobMax) :
    RejectsExhausted fst k blob s ↔ Complete blob :=
  ⟨RejectsExhausted.complete h hmax, rejectsExhausted_of_complete h hmax⟩

/-- A container of one literal. -/
def literalBlob : List UInt8 := [0x4C, 0x5A, 0x49, 0x51, 1, 0, 0, 0, 0, 97]

/-- The routine on it. -/
theorem rejectsExhausted_iff_literalBlob : Complete literalBlob ∧
    (RejectsExhausted 0x20000 consecutiveLink literalBlob (decompressCpu literalBlob) ↔
      Complete literalBlob) :=
  ⟨⟨by decide, Or.inl ⟨by decide, ⟨[97], by decide, by decide⟩, by decide⟩⟩,
    rejectsExhausted_iff (decompressCall_decompressCpu (by decide)) (by decide)⟩

/-- The same without the literal. -/
def cutBlob : List UInt8 := [0x4C, 0x5A, 0x49, 0x51, 1, 0, 0, 0, 0]

/-- **An exhausted container** that is not rejected. -/
theorem not_rejectsExhausted_cutBlob : Exhausted cutBlob ∧
    ¬RejectsExhausted 0x20000 consecutiveLink cutBlob (decompressCpu cutBlob) := by
  refine ⟨⟨by decide, by decide, by decide⟩, fun hr => ?_⟩
  obtain ⟨-, ⟨-, ⟨out, hdec, -⟩, -⟩ | ⟨hmagic, -⟩⟩ :=
    hr.complete (decompressCall_decompressCpu (by decide)) (by decide)
  · have herror : decompress cutBlob = .error .index := by decide
    exact absurd (herror.symm.trans hdec) nofun
  · exact hmagic (by decide)

end Stage2

end Qizo
