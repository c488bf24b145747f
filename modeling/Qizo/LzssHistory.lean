import Qizo.LzssFormat

/-!
# What lies before the output

A back reference may be longer than the output is so far. The reference decoder then counts from
the other end of its list. A decoder that writes to memory finds whatever lies in front of its
output, and the byte it copies may be copied again.

`borrowed` says which bytes of an output come from there, directly or through other copies, from
the container alone. A decoder in memory is the reference decoder started behind a window of bytes
that are not its own: with so much in front of it no reference is too long.

## Main results

* `Behind.loop` — a run behind a window follows the run without one, and the outputs agree on every
  byte that is not borrowed
* `exists_behind` — the same for a container
-/

namespace Qizo

namespace Lzss

open ByteString Python

variable {src out out' x past : List UInt8} {marks : List Bool}
  {total flags bit i i' n off fuel : ℕ} {bits : List ℕ}

/-! ### Borrowed bytes -/

/-- Append `n` marks, each that of the byte `off` places before the end, or a mark for a byte in
front of the output. -/
def markBack (off : ℕ) : (n : ℕ) → (marks : List Bool) → List Bool
  | 0, marks => marks
  | n + 1, marks =>
    markBack off n
      (marks ++ [if off ≤ marks.length then marks.getD (marks.length - off) true else true])

/-- One item: a literal is not borrowed. -/
def markItem (src : List UInt8) (flags bit i : ℕ) (marks : List Bool) : ℕ × List Bool :=
  if flags &&& (1 <<< bit) ≠ 0 then
    let tok := leNat (slice src i (i + 2))
    (i + 2, markBack (tokenOff tok) (tokenLen tok) marks)
  else (i + 1, marks ++ [false])

/-- The items for some bits of a flag byte. -/
def markBits (src : List UInt8) (total flags : ℕ) :
    List ℕ → (i : ℕ) → (marks : List Bool) → ℕ × List Bool
  | [], i, marks => (i, marks)
  | bit :: bits, i, marks =>
    if total ≤ marks.length then (i, marks)
    else
      let r := markItem src flags bit i marks
      markBits src total flags bits r.1 r.2

/-- The groups. -/
def markLoop (src : List UInt8) (total : ℕ) : (fuel : ℕ) → (i : ℕ) → (marks : List Bool) → List Bool
  | 0, _, marks => marks
  | fuel + 1, i, marks =>
    if total ≤ marks.length then marks
    else
      let r := markBits src total (src.getD i 0).toNat (List.range 8) (i + 1) marks
      markLoop src total fuel r.1 r.2

/-- For each byte of the output of a container, whether it comes from before the output. -/
def borrowed (src : List UInt8) : List Bool := markLoop src (declared src) (declared src) 8 []

/-! ### Two outputs -/

/-- `x` has been decoded behind `past` from what gives `out` without it. -/
structure Behind (past out x : List UInt8) (marks : List Bool) : Prop where
  length_eq : x.length = out.length
  length_marks : marks.length = out.length
  /-- Bytes that are not borrowed are the same. -/
  own : ∀ p : ℕ, marks[p]? = some false → x[p]? = out[p]?
  /-- The others are bytes of `past`. -/
  of_past : ∀ p : ℕ, marks[p]? = some true → ∃ b ∈ past, x[p]? = some b

/-- A byte that is not borrowed, also behind the end. -/
theorem Behind.own_of_ne {p : ℕ} (h : Behind past out x marks) (hp : marks[p]? ≠ some true) :
    x[p]? = out[p]? := by
  have hx := h.length_eq
  have hmarks := h.length_marks
  by_cases hlt : p < out.length
  · refine h.own p ?_
    rw [List.getElem?_eq_getElem (by omega)] at hp ⊢
    simpa using hp
  · rw [List.getElem?_eq_none (by omega), List.getElem?_eq_none (by omega)]

theorem behind_nil (past : List UInt8) : Behind past [] [] [] :=
  ⟨rfl, rfl, fun _ _ => rfl, fun p h => by simp at h⟩

/-- One more byte. -/
theorem Behind.push {b c : UInt8} {t : Bool} (h : Behind past out x marks)
    (hown : t = false → c = b) (hpast : t = true → c ∈ past) :
    Behind past (out ++ [b]) (x ++ [c]) (marks ++ [t]) := by
  have hlen := h.length_eq
  have hmarks := h.length_marks
  have hlast {p : ℕ} {t' : Bool} (hp : (marks ++ [t])[p]? = some t') (hge : ¬p < out.length) :
      p = out.length ∧ t = t' := by
    rw [List.getElem?_append_right (by omega)] at hp
    obtain ⟨hlt, heq⟩ := List.getElem?_eq_some_iff.mp hp
    rw [List.length_singleton] at hlt
    exact ⟨by omega, by simpa [Nat.lt_one_iff.mp hlt] using heq⟩
  refine ⟨by simp [hlen], by simp [hmarks], fun p hp => ?_, fun p hp => ?_⟩
  · by_cases hlt : p < out.length
    · rw [List.getElem?_append_left (by omega)] at hp
      rw [List.getElem?_append_left (by omega), List.getElem?_append_left hlt]
      exact h.own p hp
    · obtain ⟨rfl, rfl⟩ := hlast hp hlt
      rw [List.getElem?_concat_length, hown rfl, ← hlen, List.getElem?_concat_length]
  · by_cases hlt : p < out.length
    · rw [List.getElem?_append_left (by omega)] at hp
      rw [List.getElem?_append_left (by omega)]
      exact h.of_past p hp
    · obtain ⟨rfl, rfl⟩ := hlast hp hlt
      exact ⟨c, hpast rfl, by rw [← hlen, List.getElem?_concat_length]⟩

/-- **A copy.** Behind a window that is long enough, every byte is there. -/
theorem Behind.copy {len k : ℕ} (h : Behind past out x marks) (hpos : 1 ≤ off)
    (hoff : off ≤ past.length) (hlen : out.length = len + k)
    (hcopy : copyLoop ((len : ℤ) - off) n k out = .ok out') :
    ∃ x', copyBack off n (past ++ x) = past ++ x' ∧ Behind past out' x' (markBack off n marks) := by
  induction n generalizing k out x marks with
  | zero =>
    obtain rfl := Except.ok.inj hcopy
    exact ⟨x, rfl, h⟩
  | succ n ih =>
    rw [copyLoop] at hcopy
    obtain ⟨b, hb, hcopy⟩ := bind_eq_ok.mp hcopy
    have hx := h.length_eq
    have hmarks := h.length_marks
    rw [copyBack, markBack, List.append_assoc]
    refine ih (h.push ?_ ?_) (by rw [List.length_append, hlen]; rfl) hcopy
    · -- a byte of the output is the same byte in both
      intro hown
      split at hown
      · next hle =>
        have hidx : (len : ℤ) - off + k = ((out.length - off : ℕ) : ℤ) := by omega
        rw [hidx, pyIndex_ofNat_eq_ok_iff] at hb
        have hmark : marks[out.length - off]? = some false := by
          rw [hmarks, List.getD_eq_getElem?_getD] at hown
          rcases hget : marks[out.length - off]? with _ | t
          · rw [hget] at hown
            cases hown
          · rw [hget] at hown
            exact congrArg some hown
        have hsame := h.own _ hmark
        rw [List.getD_eq_getElem?_getD, List.length_append,
          List.getElem?_append_right (by omega),
          show past.length + x.length - off - past.length = out.length - off by omega, hsame, hb]
        rfl
      · cases hown
    · intro hborrowed
      split at hborrowed
      · next hle =>
        have hmark : marks[out.length - off]? = some true := by
          have hlt : out.length - off < marks.length := by omega
          rw [hmarks, List.getD_eq_getElem?_getD, List.getElem?_eq_getElem hlt] at hborrowed
          rw [List.getElem?_eq_getElem hlt]
          exact congrArg some hborrowed
        obtain ⟨c, hc, hget⟩ := h.of_past _ hmark
        rw [List.getD_eq_getElem?_getD, List.length_append,
          List.getElem?_append_right (by omega),
          show past.length + x.length - off - past.length = out.length - off by omega, hget]
        exact hc
      · next hlt =>
        have hin : past.length + x.length - off < past.length := by omega
        rw [List.getD_eq_getElem?_getD, List.length_append, List.getElem?_append_left hin,
          List.getElem?_eq_getElem hin]
        exact List.getElem_mem hin

/-! ### Two runs -/

/-- A token is a word of two bytes. -/
theorem slice_two_lt (h : i + 2 ≤ src.length) : leNat (slice src i (i + 2)) < 65536 := by
  have := leNat_lt (slice src i (i + 2))
  rwa [length_slice h, Nat.add_sub_cancel_left] at this

theorem tokenOff_le {tok : ℕ} (h : tok < 65536) : tokenOff tok ≤ window := by
  rw [tokenOff, window, Nat.shiftRight_eq_div_pow]
  omega

/-- An item. -/
theorem Behind.item (h : Behind past out x marks) (hpast : window ≤ past.length)
    (hitem : decompressItem src flags bit i out = .ok (i', out')) :
    ∃ x', decompressItem src flags bit i (past ++ x) = .ok (i', past ++ x') ∧
      i' = (markItem src flags bit i marks).1 ∧
      Behind past out' x' (markItem src flags bit i marks).2 := by
  rw [decompressItem] at hitem
  rw [decompressItem, markItem]
  by_cases hbit : flags &&& (1 <<< bit) ≠ 0
  · rw [if_pos hbit] at hitem
    obtain ⟨tok, htok, hitem⟩ := bind_eq_ok.mp hitem
    obtain ⟨o, hcopy, hitem⟩ := bind_eq_ok.mp hitem
    obtain ⟨rfl, rfl⟩ := Prod.mk.inj (Except.ok.inj hitem)
    obtain ⟨hlen, hval⟩ := unpackFrom_eq_ok_iff.mp htok
    have hoff : tokenOff tok ≤ past.length :=
      Nat.le_trans (tokenOff_le (hval ▸ slice_two_lt hlen)) hpast
    obtain ⟨x', hx', hbehind⟩ :=
      h.copy (tokenOff_pos tok) hoff (Nat.add_zero out.length).symm hcopy
    rw [if_pos hbit, if_pos hbit, htok, ok_bind,
      copyLoop_eq_copyBack (tokenOff_pos tok) (by rw [List.length_append]; omega)
        (Nat.add_zero (past ++ x).length).symm, ok_bind, hx', ← hval]
    exact ⟨x', rfl, rfl, hbehind⟩
  · rw [if_neg hbit] at hitem
    obtain ⟨b, hb, hitem⟩ := bind_eq_ok.mp hitem
    obtain ⟨rfl, rfl⟩ := Prod.mk.inj (Except.ok.inj hitem)
    rw [if_neg hbit, if_neg hbit, hb, ok_bind]
    refine ⟨x ++ [b], ?_, rfl, h.push (fun _ => rfl) (absurd · Bool.false_ne_true)⟩
    rw [List.append_assoc]
    rfl

/-- The rest of a group. -/
theorem Behind.group (h : Behind past out x marks) (hpast : window ≤ past.length)
    (hbits : decompressBits src total flags bits i out = .ok (i', out')) :
    ∃ x', decompressBits src (past.length + total) flags bits i (past ++ x) =
        .ok (i', past ++ x') ∧
      i' = (markBits src total flags bits i marks).1 ∧
      Behind past out' x' (markBits src total flags bits i marks).2 := by
  induction bits generalizing i out x marks with
  | nil =>
    obtain ⟨rfl, rfl⟩ := Prod.mk.inj (Except.ok.inj hbits)
    exact ⟨x, rfl, rfl, h⟩
  | cons bit bits ih =>
    have hx := h.length_eq
    have hmarks := h.length_marks
    rw [decompressBits] at hbits
    rw [decompressBits, markBits, List.length_append, hmarks]
    by_cases hfull : total ≤ out.length
    · rw [if_pos hfull] at hbits
      obtain ⟨rfl, rfl⟩ := Prod.mk.inj (Except.ok.inj hbits)
      rw [if_pos (by omega), if_pos hfull]
      exact ⟨x, rfl, rfl, h⟩
    · rw [if_neg hfull] at hbits
      obtain ⟨⟨i₁, o₁⟩, hitem, hbits⟩ := bind_eq_ok.mp hbits
      obtain ⟨x₁, hitem', hi₁, hbehind⟩ := h.item hpast hitem
      rw [if_neg (by omega), if_neg hfull, hitem', ok_bind]
      dsimp only at hbits ⊢
      rw [← hi₁]
      exact ih hbehind hbits

/-- **A run behind a window.** -/
theorem Behind.loop (h : Behind past out x marks) (hpast : window ≤ past.length)
    (hloop : decompressLoop src total fuel i out = .ok out') :
    ∃ x', decompressLoop src (past.length + total) fuel i (past ++ x) = .ok (past ++ x') ∧
      Behind past out' x' (markLoop src total fuel i marks) := by
  induction fuel generalizing i out x marks with
  | zero =>
    obtain rfl := Except.ok.inj hloop
    exact ⟨x, rfl, h⟩
  | succ fuel ih =>
    have hx := h.length_eq
    have hmarks := h.length_marks
    rw [decompressLoop] at hloop
    rw [decompressLoop, markLoop, List.length_append, hmarks]
    by_cases hfull : total ≤ out.length
    · rw [if_pos hfull] at hloop
      obtain rfl := Except.ok.inj hloop
      rw [if_pos (by omega), if_pos hfull]
      exact ⟨x, rfl, h⟩
    · rw [if_neg hfull] at hloop
      by_cases hi : src.length ≤ i
      · rw [if_pos hi] at hloop
        cases hloop
      · rw [if_neg hi] at hloop
        obtain ⟨f, hf, hloop⟩ := bind_eq_ok.mp hloop
        obtain ⟨⟨i₁, o₁⟩, hbits, hloop⟩ := bind_eq_ok.mp hloop
        have hget : src.getD i 0 = f := by
          rw [List.getD_eq_getElem?_getD, pyIndex_ofNat_eq_ok_iff.mp hf]
          rfl
        obtain ⟨x₁, hbits', hi₁, hbehind⟩ := h.group hpast hbits
        rw [if_neg (by omega), if_neg hfull, if_neg hi, hf, ok_bind, hbits', ok_bind, hget]
        dsimp only at hloop ⊢
        rw [← hi₁]
        exact ih hbehind hloop

/-- No reference is longer than a window. -/
theorem itemBackRefs_le (hout : window ≤ out.length) :
    ∀ r ∈ itemBackRefs src flags bit i out, r.1 ≤ r.2 := by
  intro r hr
  rw [itemBackRefs] at hr
  split at hr
  · split at hr
    · next tok htok =>
      obtain ⟨hlen, hval⟩ := unpackFrom_eq_ok_iff.mp htok
      obtain rfl := List.mem_singleton.mp hr
      exact Nat.le_trans (tokenOff_le (hval ▸ slice_two_lt hlen)) hout
    · cases hr
  · cases hr

theorem bitsBackRefs_le (hout : window ≤ out.length) :
    ∀ r ∈ bitsBackRefs src total flags bits i out, r.1 ≤ r.2 := by
  induction bits generalizing i out with
  | nil => exact fun r hr => nomatch hr
  | cons bit bits ih =>
    intro r hr
    rw [bitsBackRefs] at hr
    split at hr
    · cases hr
    · rcases List.mem_append.mp hr with hr | hr
      · exact itemBackRefs_le hout r hr
      · split at hr
        · next i' out' hitem =>
          exact ih (Nat.le_trans hout (Nat.le_of_lt (length_lt_of_decompressItem hitem))) r hr
        · cases hr

theorem loopBackRefs_le (hout : window ≤ out.length) :
    ∀ r ∈ loopBackRefs src total fuel i out, r.1 ≤ r.2 := by
  induction fuel generalizing i out with
  | zero => exact fun r hr => nomatch hr
  | succ fuel ih =>
    intro r hr
    rw [loopBackRefs] at hr
    split at hr
    · cases hr
    · split at hr
      · rcases List.mem_append.mp hr with hr | hr
        · exact bitsBackRefs_le hout r hr
        · split at hr
          · next i' out' hbits =>
            exact ih (Nat.le_trans hout (length_le_of_decompressBits hbits)) r hr
          · cases hr
      · cases hr

/-- **A container behind a window.** -/
theorem exists_behind (h : decompress src = .ok out) (hpast : window ≤ past.length) :
    ∃ x, decompressLoop src (past.length + declared src) (declared src) 8 past =
        .ok (past ++ x) ∧ Behind past out x (borrowed src) := by
  obtain ⟨-, -, hloop⟩ := decompress_eq_ok_iff.mp h
  obtain ⟨x, hx, hbehind⟩ := (behind_nil past).loop hpast hloop
  rw [List.append_nil] at hx
  exact ⟨x, hx, hbehind⟩

end Lzss

end Qizo
