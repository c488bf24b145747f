import Qizo.LzssRoundTrip

/-!
# What the compressor emits

`_find_match` tries the starts of the window from the nearest to the farthest and keeps a start only
if it agrees on more bytes than the best before it. So the longest agreement wins, and among equal
ones the nearest; the search may stop at an agreement of the full limit, which none can exceed.

`compress` then emits one code for each position it comes to, a literal or a match, in groups of
eight behind a flag byte (`compress_eq`). No code has more bytes than it stands for, and this bounds
the length of the container.

## Main results

* `findMatch_exact` — the match that is returned
* `compress_bounded` — the length of a container, and the range of its tokens
-/

namespace Qizo

namespace Lzss

open ByteString Python

variable {src : List UInt8} {i j l limit start : ℕ} {best : ℕ × ℕ}

/-! ### The search -/

/-- `l` bytes from `j` on agree with those from `i` on. The two may overlap. -/
def Agrees (src : List UInt8) (j i l : ℕ) : Prop := ∀ t < l, src[j + t]? = src[i + t]?

theorem le_agreeLoop_of_agrees {fuel l₀ : ℕ} (hle : l ≤ l₀ + fuel) (h : Agrees src j i l) :
    l ≤ agreeLoop src j i fuel l₀ := by
  induction fuel generalizing l₀ with
  | zero => exact hle
  | succ fuel ih =>
    rw [agreeLoop]
    split
    · exact ih (by omega)
    · rename_i hdiff
      exact Nat.not_lt.mp fun hlt => hdiff (h l₀ hlt)

/-- The comparison loop finds the longest agreement within the limit. -/
theorem le_agreeLoop_iff (hle : l ≤ limit) :
    l ≤ agreeLoop src j i limit 0 ↔ Agrees src j i l := by
  constructor
  · intro h t ht
    exact agree_of_lt_agreeLoop (Nat.zero_le t) (Nat.lt_of_lt_of_le ht h)
  · exact le_agreeLoop_of_agrees (by omega)

/-- `best` is a length and a distance: the greatest length of the candidates from `low` up to `i`,
at the nearest that has it. -/
structure Nearest (len : ℕ → ℕ) (i low : ℕ) (best : ℕ × ℕ) : Prop where
  longest : ∀ k, low ≤ k → k < i → len k ≤ best.1
  nearest : best.1 = 0 ∨ ∃ k, low ≤ k ∧ k < i ∧ best = (len k, i - k) ∧
    ∀ k', k < k' → k' < i → len k' < len k

section Nearest

variable {len : ℕ → ℕ}

/-- A candidate that is not longer. -/
theorem Nearest.keep (h : Nearest len i (j + 1) best) (hle : len j ≤ best.1) :
    Nearest len i j best where
  longest k hk hki := by
    rcases Nat.eq_or_lt_of_le hk with rfl | hlt
    · exact hle
    · exact h.longest k hlt hki
  nearest := h.nearest.imp_right fun ⟨k, hk, hrest⟩ => ⟨k, by omega, hrest⟩

/-- A longer one. -/
theorem Nearest.replace (h : Nearest len i (j + 1) best) (hji : j < i) (hlt : best.1 < len j) :
    Nearest len i j (len j, i - j) where
  longest k hk hki := by
    rcases Nat.eq_or_lt_of_le hk with rfl | hgt
    · exact Nat.le_refl _
    · exact Nat.le_of_lt (Nat.lt_of_le_of_lt (h.longest k hgt hki) hlt)
  nearest := .inr ⟨j, Nat.le_refl j, hji, rfl, fun k' hk' hki =>
    Nat.lt_of_le_of_lt (h.longest k' hk' hki) hlt⟩

/-- One of the full limit ends the search. -/
theorem Nearest.stop (h : Nearest len i j best) (hlow : start ≤ j)
    (hlimit : ∀ k, len k ≤ best.1) : Nearest len i start best where
  longest k _ _ := hlimit k
  nearest := h.nearest.imp_right fun ⟨k, hk, hrest⟩ => ⟨k, by omega, hrest⟩

end Nearest

/-- **The search loop.** -/
theorem nearest_searchLoop (hstart : start ≤ j) (hji : j ≤ i)
    (h : Nearest (agreeLoop src · i limit 0) i j best) :
    Nearest (agreeLoop src · i limit 0) i start (searchLoop src i limit start j best) := by
  induction j generalizing best with
  | zero =>
    obtain rfl : start = 0 := Nat.le_zero.mp hstart
    exact h
  | succ j ih =>
    rw [searchLoop]
    split
    · rename_i hlt
      obtain rfl : start = j + 1 := by omega
      exact h
    · rename_i hge
      have hle : start ≤ j := Nat.not_lt.mp hge
      dsimp only
      split
      · rename_i hlonger
        have hnew := h.replace hji hlonger
        split
        · rename_i hfull
          refine hnew.stop hle fun k => ?_
          dsimp only
          rw [hfull]
          simpa using agreeLoop_le src k i limit 0
        · exact ih hle (by omega) hnew
      · rename_i hshorter
        exact ih hle (by omega) (h.keep (Nat.not_lt.mp hshorter))

/-- A match for position `i`: it starts in the window, has at least three bytes, and stays within
the limit. -/
structure Candidate (src : List UInt8) (i j l : ℕ) : Prop where
  inWindow : i - window ≤ j ∧ j < i
  minMatch_le : minMatch ≤ l
  le_limit : l ≤ min maxMatch (src.length - i)
  agrees : ∀ t < l, src[j + t]? = src[i + t]?

/-- What the search returns: the longest match, at the nearest start that reaches it. -/
structure Exact (src : List UInt8) (i : ℕ) (found : ℕ × ℕ) : Prop where
  none : (∀ j l, ¬Candidate src i j l) → found = (0, 0)
  some : (∃ j l, Candidate src i j l) → ∃ j l, found = (i - j, l) ∧ Candidate src i j l ∧
    (∀ j' l', Candidate src i j' l' → l' ≤ l) ∧ ∀ j', Candidate src i j' l → j' ≤ j

/-- **The match search is exact.** -/
theorem findMatch_exact (src : List UInt8) (i : ℕ) : Exact src i (findMatch src i src.length) := by
  rw [findMatch]
  dsimp only
  by_cases hlimit : min maxMatch (src.length - i) < minMatch
  · rw [if_pos hlimit]
    refine ⟨fun _ => rfl, ?_⟩
    rintro ⟨j, l, h⟩
    exact absurd (Nat.le_trans h.minMatch_le h.le_limit) (Nat.not_le.mpr hlimit)
  rw [if_neg hlimit]
  have hbest := @nearest_searchLoop src i i (min maxMatch (src.length - i)) (i - window) (0, 0)
    (Nat.sub_le ..) (Nat.le_refl i) ⟨fun k hk hki => absurd hki (Nat.not_lt.mpr hk), .inl rfl⟩
  generalize searchLoop src i _ (i - window) i (0, 0) = best at hbest
  have hlongest {j l : ℕ} (h : Candidate src i j l) : l ≤ best.1 :=
    Nat.le_trans ((le_agreeLoop_iff h.le_limit).mpr h.agrees)
      (hbest.longest j h.inWindow.1 h.inWindow.2)
  by_cases hshort : best.1 < minMatch
  · rw [if_pos hshort]
    refine ⟨fun _ => rfl, ?_⟩
    rintro ⟨j, l, h⟩
    exact absurd (Nat.le_trans h.minMatch_le (hlongest h)) (Nat.not_le.mpr hshort)
  rw [if_neg hshort]
  rcases hbest.nearest with hzero | ⟨j, hj, hji, rfl, hnear⟩
  · exact absurd (hzero ▸ (by decide : 0 < minMatch)) hshort
  have hle : agreeLoop src j i (min maxMatch (src.length - i)) 0 ≤
      min maxMatch (src.length - i) := by
    simpa using agreeLoop_le src j i (min maxMatch (src.length - i)) 0
  have hcand : Candidate src i j (agreeLoop src j i (min maxMatch (src.length - i)) 0) :=
    ⟨⟨hj, hji⟩, Nat.not_lt.mp hshort, hle, (le_agreeLoop_iff hle).mp (Nat.le_refl _)⟩
  refine ⟨fun h => absurd hcand (h _ _), fun _ => ?_⟩
  refine ⟨j, _, rfl, hcand, fun j' l' h => hlongest h, fun j' h => ?_⟩
  refine Nat.not_lt.mp fun hlt => ?_
  have hlonger := (le_agreeLoop_iff hle).mpr h.agrees
  exact absurd (hnear j' hlt h.inWindow.2) (Nat.not_lt.mpr hlonger)

/-! ### Codes -/

/-- What is emitted for a position. -/
inductive Code where
  | literal (b : UInt8)
  | token (off ln : ℕ)

namespace Code

/-- The bytes of the source that it stands for. -/
def size : Code → ℕ
  | literal _ => 1
  | token _ ln => ln

/-- The bytes it is written as. -/
def bytes : Code → List UInt8
  | literal b => [b]
  | token off ln => leBytes 2 (((off - 1) <<< 4) ||| (ln - minMatch))

/-- Its bit in the flag byte. -/
def flag (bit : ℕ) : Code → ℕ
  | literal _ => 0
  | token _ _ => 1 <<< bit

/-- A token that fits its two bytes. -/
def InRange : Code → Prop
  | literal _ => True
  | token off ln => (1 ≤ off ∧ off ≤ 4096) ∧ (3 ≤ ln ∧ ln ≤ 18) ∧
    ((off - 1) <<< 4) ||| (ln - minMatch) < 2 ^ 16

end Code

/-- The code for position `i`. -/
def codeAt (src : List UInt8) (i : ℕ) : Code :=
  let m := findMatch src i src.length
  if m.2 ≠ 0 then .token m.1 m.2 else .literal (src.getD i 0)

theorem size_codeAt_pos (src : List UInt8) (i : ℕ) : 0 < (codeAt src i).size := by
  rw [codeAt]
  split
  · rename_i h
    exact Nat.pos_of_ne_zero h
  · exact Nat.one_pos

/-- The codes from position `i` on. -/
def codesFrom (src : List UInt8) (i : ℕ) : List Code :=
  if i < src.length then codeAt src i :: codesFrom src (i + (codeAt src i).size) else []
termination_by src.length - i
decreasing_by
  have := size_codeAt_pos src i
  omega

/-- The flag bits of some codes, added to `flags`. -/
def addFlags (flags : ℕ) (codes : List (ℕ × Code)) : ℕ :=
  codes.foldl (fun flags p => flags ||| p.2.flag p.1) flags

/-- One flag byte and up to eight codes. -/
def group (codes : List Code) : List UInt8 :=
  UInt8.ofNat (addFlags 0 ((List.range 8).zip codes)) :: codes.flatMap Code.bytes

/-- All groups. -/
def groups : List Code → List UInt8
  | [] => []
  | c :: codes => group ((c :: codes).take 8) ++ groups ((c :: codes).drop 8)
termination_by codes => codes.length
decreasing_by
  rw [List.length_drop, List.length_cons]
  omega

theorem codesFrom_of_lt (h : i < src.length) :
    codesFrom src i = codeAt src i :: codesFrom src (i + (codeAt src i).size) := by
  rw [codesFrom, if_pos h]

theorem codesFrom_of_le (h : src.length ≤ i) : codesFrom src i = [] := by
  rw [codesFrom, if_neg (Nat.not_lt.mpr h)]

/-- A code stands for bytes of the source, and is in range. -/
theorem codeAt_spec (h : i < src.length) :
    i + (codeAt src i).size ≤ src.length ∧ (codeAt src i).InRange := by
  rw [codeAt]
  split
  · rename_i hmatch
    obtain ⟨hmin, hm⟩ := isMatch_findMatch hmatch
    have hlen := hm.len_le
    have hmax := Nat.le_trans hlen (Nat.min_le_left _ _)
    refine ⟨?_, ⟨hm.off_pos, hm.off_le_window⟩, ⟨hmin, hmax⟩, token_lt hm.off_le_window hmax⟩
    dsimp only [Code.size]
    omega
  · exact ⟨h, trivial⟩

theorem inRange_of_mem_codesFrom {c : Code} (h : c ∈ codesFrom src i) : c.InRange := by
  induction i using codesFrom.induct src with
  | case1 i hlt ih =>
    rw [codesFrom_of_lt hlt, List.mem_cons] at h
    rcases h with rfl | h
    · exact (codeAt_spec hlt).2
    · exact ih h
  | case2 i hge =>
    rw [codesFrom_of_le (Nat.not_lt.mp hge)] at h
    cases h

/-- The codes stand for what is left of the source. -/
theorem size_codesFrom (hi : i ≤ src.length) :
    i + ((codesFrom src i).map Code.size).sum = src.length := by
  induction i using codesFrom.induct src with
  | case1 i hlt ih =>
    rw [codesFrom_of_lt hlt, List.map_cons, List.sum_cons, ← Nat.add_assoc]
    exact ih (codeAt_spec hlt).1
  | case2 i hge =>
    rw [codesFrom_of_le (Nat.not_lt.mp hge), List.map_nil, List.sum_nil]
    omega

/-! ### Groups -/

/-- One pass over the bits of a group takes the next codes. -/
structure TakesCodes (src : List UInt8) (bits : List ℕ) (i flags : ℕ) (items : List UInt8)
    (codes : List Code) : Prop where
  result : compressBits src src.length bits i flags items =
    .ok (i + (codes.map Code.size).sum, addFlags flags (bits.zip codes),
      items ++ codes.flatMap Code.bytes)
  le : i + (codes.map Code.size).sum ≤ src.length
  rest : codesFrom src (i + (codes.map Code.size).sum) = (codesFrom src i).drop bits.length

/-- No code is left. -/
theorem takesCodes_nil {bits : List ℕ} {flags : ℕ} {items : List UInt8} (hi : i ≤ src.length)
    (h : compressBits src src.length bits i flags items = .ok (i, flags, items))
    (hrest : codesFrom src i = (codesFrom src i).drop bits.length) :
    TakesCodes src bits i flags items [] where
  result := by
    rw [h, List.zip_nil_right, List.flatMap_nil, List.append_nil]
    rfl
  le := hi
  rest := hrest

/-- What one bit does. -/
theorem compressBits_cons {bit flags : ℕ} {bits : List ℕ} {items : List UInt8}
    (hlt : i < src.length) :
    compressBits src src.length (bit :: bits) i flags items =
      compressBits src src.length bits (i + (codeAt src i).size)
        (flags ||| (codeAt src i).flag bit) (items ++ (codeAt src i).bytes) := by
  rw [compressBits, if_neg (Nat.not_le.mpr hlt), codeAt]
  dsimp only
  split
  · rename_i hmatch
    obtain ⟨-, hm⟩ := isMatch_findMatch hmatch
    have hmax := Nat.le_trans hm.len_le (Nat.min_le_left _ _)
    rw [pack_of_lt (token_lt hm.off_le_window hmax)]
    rfl
  · rw [pyIndex_ofNat (List.getElem?_eq_getElem hlt), List.getD_eq_getElem _ _ hlt]
    dsimp only [Code.flag]
    rw [Nat.or_zero]
    rfl

theorem takesCodes_take {bits : List ℕ} {flags : ℕ} {items : List UInt8} (hi : i ≤ src.length) :
    TakesCodes src bits i flags items ((codesFrom src i).take bits.length) := by
  induction bits generalizing i flags items with
  | nil =>
    rw [List.length_nil, List.take_zero]
    exact takesCodes_nil hi rfl rfl
  | cons bit bits ih =>
    by_cases hlt : i < src.length
    · obtain ⟨hresult, hle, hrest⟩ := @ih (i + (codeAt src i).size)
        (flags ||| (codeAt src i).flag bit) (items ++ (codeAt src i).bytes) (codeAt_spec hlt).1
      rw [codesFrom_of_lt hlt, List.length_cons, List.take_succ_cons]
      refine ⟨?_, ?_, ?_⟩
      · rw [compressBits_cons hlt, hresult, List.map_cons, List.sum_cons, List.zip_cons_cons,
          List.flatMap_cons, Nat.add_assoc, List.append_assoc]
        rfl
      · rw [List.map_cons, List.sum_cons, ← Nat.add_assoc]
        exact hle
      · rw [List.map_cons, List.sum_cons, ← Nat.add_assoc, hrest, codesFrom_of_lt hlt]
        rfl
    · have hnil := codesFrom_of_le (Nat.not_lt.mp hlt)
      rw [hnil, List.take_nil]
      refine takesCodes_nil hi ?_ ?_
      · rw [compressBits, if_pos (Nat.not_lt.mp hlt)]
      · rw [hnil, List.drop_nil]

theorem groups_of_ne_nil {codes : List Code} (h : codes ≠ []) :
    groups codes = group (codes.take 8) ++ groups (codes.drop 8) := by
  cases codes with
  | nil => exact absurd rfl h
  | cons c codes => rw [groups]

/-- **The loop of the compressor** writes the groups of the codes. -/
theorem compressLoop_eq {fuel : ℕ} (out : List UInt8) (hi : i ≤ src.length)
    (hfuel : src.length ≤ i + fuel) :
    compressLoop src src.length fuel i out = .ok (out ++ groups (codesFrom src i)) := by
  induction fuel generalizing i out with
  | zero =>
    have hend : src.length ≤ i := hfuel
    rw [compressLoop, codesFrom_of_le hend, groups, List.append_nil]
  | succ fuel ih =>
    rw [compressLoop]
    by_cases hend : src.length ≤ i
    · rw [if_pos hend, codesFrom_of_le hend, groups, List.append_nil]
    · have hlt : i < src.length := Nat.not_le.mp hend
      have hne : codesFrom src i ≠ [] := by
        rw [codesFrom_of_lt hlt]
        exact List.cons_ne_nil _ _
      obtain ⟨hresult, hle, hrest⟩ := @takesCodes_take src i (List.range 8) 0 [] hi
      rw [List.length_range] at hresult hle hrest
      have hpos : 0 < (((codesFrom src i).take 8).map Code.size).sum := by
        have := size_codeAt_pos src i
        rw [codesFrom_of_lt hlt, List.take_succ_cons, List.map_cons, List.sum_cons]
        omega
      rw [if_neg hend, hresult, groups_of_ne_nil hne, ← hrest, ← List.append_assoc]
      exact ih _ hle (by omega)

/-- **The container of a source.** -/
theorem compress_eq (src : List UInt8) : compress src =
    if src.length < 2 ^ 32 then
      .ok (leBytes 4 lzssMagic ++ leBytes 4 src.length ++ groups (codesFrom src 0))
    else .error .struct := by
  rw [compress, pack_of_lt (show lzssMagic < 256 ^ 4 by decide)]
  split
  · rename_i hlen
    rw [pack_of_lt (show src.length < 256 ^ 4 from hlen)]
    exact compressLoop_eq _ (Nat.zero_le _) (by omega)
  · rename_i hlen
    rw [pack, if_neg (show ¬src.length < 256 ^ 4 from hlen)]
    rfl

/-! ### The length -/

theorem length_groups (codes : List Code) :
    (groups codes).length = (codes.length + 7) / 8 + (codes.flatMap Code.bytes).length := by
  induction codes using groups.induct with
  | case1 =>
    rw [groups]
    rfl
  | case2 c codes ih =>
    have hsplit := congrArg List.length
      (congrArg (List.flatMap Code.bytes) (List.take_append_drop 8 (c :: codes)))
    rw [List.flatMap_append, List.length_append] at hsplit
    rw [groups, List.length_append, ih, group, List.length_cons, ← hsplit, List.length_drop,
      List.length_cons]
    omega

/-- A code has no more bytes than it stands for. -/
theorem Code.InRange.length_bytes_le {c : Code} (h : c.InRange) :
    c.bytes.length ≤ c.size ∧ 1 ≤ c.size := by
  cases c with
  | literal b => exact ⟨Nat.le_refl 1, Nat.le_refl 1⟩
  | token off ln =>
    obtain ⟨-, ⟨hmin, -⟩, -⟩ := h
    rw [Code.bytes, length_leBytes, Code.size]
    omega

theorem length_bytes_le {codes : List Code} (h : ∀ c ∈ codes, c.InRange) :
    (codes.flatMap Code.bytes).length ≤ (codes.map Code.size).sum ∧
      codes.length ≤ (codes.map Code.size).sum := by
  induction codes with
  | nil => exact ⟨Nat.le_refl 0, Nat.le_refl 0⟩
  | cons c codes ih =>
    obtain ⟨hbytes, hlength⟩ := ih fun c' hc => h c' (List.mem_cons_of_mem _ hc)
    obtain ⟨hc, hpos⟩ := (h c (List.mem_cons_self ..)).length_bytes_le
    rw [List.flatMap_cons, List.length_append, List.map_cons, List.sum_cons, List.length_cons]
    omega

/-- What is emitted for a source. -/
structure Bounded (src : List UInt8) : Prop where
  /-- A length of 32 bits can be written. Then the container is the header and the groups of the
  codes, and exceeds the source by at most the header and the flag bytes. -/
  returns : src.length < 2 ^ 32 → ∃ blob, compress src = .ok blob ∧
    blob = leBytes 4 lzssMagic ++ leBytes 4 src.length ++ groups (codesFrom src 0) ∧
    blob.length ≤ 8 + src.length + (src.length + 7) / 8
  /-- A longer one cannot. -/
  raises : 2 ^ 32 ≤ src.length → compress src = .error .struct
  /-- Every token fits 16 bits. -/
  tokens : ∀ off ln, Code.token off ln ∈ codesFrom src 0 → (1 ≤ off ∧ off ≤ 4096) ∧
    (3 ≤ ln ∧ ln ≤ 18) ∧ ((off - 1) <<< 4) ||| (ln - minMatch) < 2 ^ 16

/-- **Compression expands by no more than the flag bytes.** -/
theorem compress_bounded (src : List UInt8) : Bounded src where
  returns h := by
    refine ⟨_, by rw [compress_eq, if_pos h], rfl, ?_⟩
    obtain ⟨hbytes, hcount⟩ := @length_bytes_le (codesFrom src 0) fun _ => inRange_of_mem_codesFrom
    have hsize := @size_codesFrom src 0 (Nat.zero_le _)
    rw [Nat.zero_add] at hsize
    rw [hsize] at hbytes hcount
    simp only [List.length_append, length_leBytes, length_groups]
    omega
  raises h := by rw [compress_eq, if_neg (Nat.not_lt.mpr h)]
  tokens _ _ h := inRange_of_mem_codesFrom h

/-- The length of a container, for every source. -/
def BoundedAlways (src : List UInt8) : Prop :=
  ∃ blob, compress src = .ok blob ∧ blob.length ≤ 8 + src.length + (src.length + 7) / 8

/-- There is no container for `2 ^ 32` bytes. -/
theorem not_boundedAlways_zeros : ¬BoundedAlways (List.replicate (2 ^ 32) 0) := by
  rintro ⟨blob, hblob, -⟩
  rw [compress_eq, List.length_replicate, if_neg (by decide)] at hblob
  cases hblob

end Lzss

end Qizo
