import Qizo.Lzss

/-!
# Runs of the reference decoder

What a successful run of `decompress` did: the back references it used, the bytes a back reference
inside the output stands for, and that the output only ever grows.

A back reference larger than the output produced so far makes the Python index negative, which
reads from the other end of the output. No encoder emits one, and no other decoder has to agree on
it, so statements about other decoders speak of the runs that have none.
-/

namespace Qizo

namespace Lzss

open ByteString Python

variable {src out out' : List UInt8} {total flags bit i i' : ℕ}

/-! ### The back references of a run -/

/-- Distance of the back reference of an item, if it is one, and the length of the output at that
moment. -/
def itemBackRefs (src : List UInt8) (flags bit i : ℕ) (out : List UInt8) : List (ℕ × ℕ) :=
  if flags &&& (1 <<< bit) ≠ 0 then
    match unpackFrom 2 src i with
    | .ok tok => [(tokenOff tok, out.length)]
    | .error _ => []
  else []

/-- The back references of the remaining items of a group. -/
def bitsBackRefs (src : List UInt8) (total flags : ℕ) :
    List ℕ → (i : ℕ) → (out : List UInt8) → List (ℕ × ℕ)
  | [], _, _ => []
  | bit :: bits, i, out =>
    if total ≤ out.length then []
    else itemBackRefs src flags bit i out ++
      match decompressItem src flags bit i out with
      | .ok (i', out') => bitsBackRefs src total flags bits i' out'
      | .error _ => []

/-- The back references of the remaining groups. -/
def loopBackRefs (src : List UInt8) (total : ℕ) :
    (fuel : ℕ) → (i : ℕ) → (out : List UInt8) → List (ℕ × ℕ)
  | 0, _, _ => []
  | fuel + 1, i, out =>
    if total ≤ out.length then []
    else
      match pyIndex src i with
      | .ok flags =>
        bitsBackRefs src total flags.toNat (List.range 8) (i + 1) out ++
          match decompressBits src total flags.toNat (List.range 8) (i + 1) out with
          | .ok (i', out') => loopBackRefs src total fuel i' out'
          | .error _ => []
      | .error _ => []

/-- The back references `decompress(src)` uses, in order: distance, and length of the output so
far. -/
def backRefs (src : List UInt8) : List (ℕ × ℕ) :=
  match unpackFrom 4 src 4 with
  | .ok total => loopBackRefs src total total 8 []
  | .error _ => []

/-- No back reference of the run reaches before the start of the output. -/
def BackRefsInRange (src : List UInt8) : Prop := ∀ r ∈ backRefs src, r.1 ≤ r.2

instance (src : List UInt8) : Decidable (BackRefsInRange src) := by
  unfold BackRefsInRange; infer_instance

/-! ### Back references inside the output -/

/-- Append `n` bytes, each a copy of the byte `off` places before the end. -/
def copyBack (off : ℕ) : (n : ℕ) → (out : List UInt8) → List UInt8
  | 0, out => out
  | n + 1, out => copyBack off n (out ++ [out.getD (out.length - off) 0])

@[simp] theorem length_copyBack (off n : ℕ) (out : List UInt8) :
    (copyBack off n out).length = out.length + n := by
  induction n generalizing out with
  | zero => rfl
  | succ n ih => rw [copyBack, ih, List.length_append]; simp; omega

/-- The copy loop of the decoder, for a reference that stays inside the output. -/
theorem copyLoop_eq_copyBack {off len fuel k : ℕ} (hpos : 1 ≤ off) (hoff : off ≤ len)
    (hlen : out.length = len + k) :
    copyLoop ((len : ℤ) - off) fuel k out = .ok (copyBack off fuel out) := by
  induction fuel generalizing k out with
  | zero => rfl
  | succ fuel ih =>
    have hlt : out.length - off < out.length := by omega
    have hread : out[out.length - off]? = some (out.getD (out.length - off) 0) := by
      rw [List.getD_eq_getElem?_getD, List.getElem?_eq_getElem hlt]
      rfl
    have hidx : (len : ℤ) - off + k = ((out.length - off : ℕ) : ℤ) := by omega
    rw [copyLoop, hidx, pyIndex_ofNat hread, copyBack]
    simp only [bind, Except.bind]
    exact ih (by rw [List.length_append, hlen]; rfl)

/-! ### What a successful item did -/

theorem tokenOff_pos (tok : ℕ) : 1 ≤ tokenOff tok := Nat.le_add_left 1 _

theorem tokenLen_pos (tok : ℕ) : 1 ≤ tokenLen tok :=
  Nat.le_trans (by decide : 1 ≤ minMatch) (Nat.le_add_left _ _)

theorem unpackFrom_eq_ok_iff {w v off : ℕ} :
    unpackFrom w src off = .ok v ↔ off + w ≤ src.length ∧ v = leNat (slice src off (off + w)) := by
  rw [unpackFrom, unpackAt]
  by_cases h : off + w ≤ src.length
  · simp [h, eq_comm]
  · simp [h]

theorem pyIndex_ofNat_eq_ok_iff {b : UInt8} : pyIndex src (i : ℤ) = .ok b ↔ src[i]? = some b := by
  rw [pyIndex]
  simp only [Int.natCast_nonneg, if_true, Int.toNat_natCast]
  cases src[i]? <;> simp

/-- **A literal or a match.** A successful item with its back reference in range either appends
the byte at the input position, or copies what its token says. -/
theorem decompressItem_cases (h : decompressItem src flags bit i out = .ok (i', out'))
    (hr : ∀ r ∈ itemBackRefs src flags bit i out, r.1 ≤ r.2) :
    (flags &&& (1 <<< bit) = 0 ∧ ∃ b, src[i]? = some b ∧ i' = i + 1 ∧ out' = out ++ [b]) ∨
    (flags &&& (1 <<< bit) ≠ 0 ∧ ∃ tok, i + 2 ≤ src.length ∧ tok = leNat (slice src i (i + 2)) ∧
      tokenOff tok ≤ out.length ∧ i' = i + 2 ∧
      out' = copyBack (tokenOff tok) (tokenLen tok) out) := by
  rw [decompressItem] at h
  by_cases hbit : flags &&& (1 <<< bit) ≠ 0
  · refine Or.inr ⟨hbit, ?_⟩
    rw [if_pos hbit] at h
    cases htok : unpackFrom 2 src i with
    | error e => rw [htok] at h; cases h
    | ok tok =>
      rw [itemBackRefs, if_pos hbit, htok] at hr
      have hoff : tokenOff tok ≤ out.length := by simpa using hr
      rw [htok] at h
      simp only [bind, Except.bind,
        copyLoop_eq_copyBack (tokenOff_pos tok) hoff (Nat.add_zero out.length).symm] at h
      obtain ⟨hlen, hval⟩ := unpackFrom_eq_ok_iff.mp htok
      cases h
      exact ⟨tok, hlen, hval, hoff, rfl, rfl⟩
  · refine Or.inl ⟨not_not.mp hbit, ?_⟩
    rw [if_neg hbit] at h
    cases hb : pyIndex src (i : ℤ) with
    | error e => rw [hb] at h; cases h
    | ok b =>
      rw [hb] at h
      cases h
      exact ⟨b, pyIndex_ofNat_eq_ok_iff.mp hb, rfl, rfl⟩

/-! ### The output grows -/

theorem length_copyLoop {start : ℤ} {fuel k : ℕ} (h : copyLoop start fuel k out = .ok out') :
    out'.length = out.length + fuel := by
  induction fuel generalizing k out with
  | zero => cases h; rfl
  | succ fuel ih =>
    rw [copyLoop] at h
    cases hb : pyIndex out (start + k) with
    | error e => rw [hb] at h; cases h
    | ok b =>
      rw [hb] at h
      rw [ih h, List.length_append]
      simp
      omega

theorem length_lt_of_decompressItem (h : decompressItem src flags bit i out = .ok (i', out')) :
    out.length < out'.length := by
  rw [decompressItem] at h
  split at h
  · cases htok : unpackFrom 2 src i with
    | error e => rw [htok] at h; cases h
    | ok tok =>
      rw [htok] at h
      simp only [bind, Except.bind] at h
      cases hc : copyLoop (out.length - tokenOff tok) (tokenLen tok) 0 out with
      | error e => rw [hc] at h; cases h
      | ok o =>
        rw [hc] at h
        cases h
        have := length_copyLoop hc
        have := tokenLen_pos tok
        omega
  · cases hb : pyIndex src (i : ℤ) with
    | error e => rw [hb] at h; cases h
    | ok b =>
      rw [hb] at h
      cases h
      simp

theorem length_le_of_decompressBits {bits : List ℕ}
    (h : decompressBits src total flags bits i out = .ok (i', out')) :
    out.length ≤ out'.length := by
  induction bits generalizing i out with
  | nil => cases h; exact Nat.le_refl _
  | cons bit bits ih =>
    rw [decompressBits] at h
    split at h
    · cases h; exact Nat.le_refl _
    · cases hitem : decompressItem src flags bit i out with
      | error e => rw [hitem] at h; cases h
      | ok p =>
        rw [hitem] at h
        exact Nat.le_trans (Nat.le_of_lt (length_lt_of_decompressItem hitem)) (ih h)

/-- A group that is entered appends something. -/
theorem length_lt_of_decompressBits {bits : List ℕ} (hout : ¬ total ≤ out.length)
    (h : decompressBits src total flags (bit :: bits) i out = .ok (i', out')) :
    out.length < out'.length := by
  rw [decompressBits, if_neg hout] at h
  cases hitem : decompressItem src flags bit i out with
  | error e => rw [hitem] at h; cases h
  | ok p =>
    rw [hitem] at h
    exact Nat.lt_of_lt_of_le (length_lt_of_decompressItem hitem) (length_le_of_decompressBits h)

theorem length_le_of_decompressLoop {fuel : ℕ}
    (h : decompressLoop src total fuel i out = .ok out') : out.length ≤ out'.length := by
  induction fuel generalizing i out with
  | zero => cases h; exact Nat.le_refl _
  | succ fuel ih =>
    rw [decompressLoop] at h
    split at h
    · cases h; exact Nat.le_refl _
    · split at h
      · cases h
      · cases hf : pyIndex src (i : ℤ) with
        | error e => rw [hf] at h; cases h
        | ok f =>
          rw [hf] at h
          simp only [bind, Except.bind] at h
          cases hb : decompressBits src total f.toNat (List.range 8) (i + 1) out with
          | error e => rw [hb] at h; cases h
          | ok p =>
            rw [hb] at h
            exact Nat.le_trans (length_le_of_decompressBits hb) (ih h)

/-- A run that returns has produced at least the declared length. -/
theorem le_length_of_decompressLoop {fuel : ℕ} (hfuel : total ≤ out.length + fuel)
    (h : decompressLoop src total fuel i out = .ok out') : total ≤ out'.length := by
  induction fuel generalizing i out with
  | zero => cases h; omega
  | succ fuel ih =>
    rw [decompressLoop] at h
    by_cases hout : total ≤ out.length
    · rw [if_pos hout] at h; cases h; exact hout
    · rw [if_neg hout] at h
      split at h
      · cases h
      · cases hf : pyIndex src (i : ℤ) with
        | error e => rw [hf] at h; cases h
        | ok f =>
          rw [hf] at h
          simp only [bind, Except.bind] at h
          cases hb : decompressBits src total f.toNat (List.range 8) (i + 1) out with
          | error e => rw [hb] at h; cases h
          | ok p =>
            rw [hb] at h
            have hgrow : out.length < p.2.length := length_lt_of_decompressBits hout hb
            exact ih (by omega) h

/-- **What a returned value means.** The header is there, the magic is right, and the loop ran from
the first group with an empty output. -/
theorem decompress_eq_ok_iff :
    decompress src = .ok out ↔ 8 ≤ src.length ∧ leNat (slice src 0 4) = lzssMagic ∧
      decompressLoop src (leNat (slice src 4 8)) (leNat (slice src 4 8)) 8 [] = .ok out := by
  rw [decompress]
  by_cases h8 : 8 ≤ src.length
  · rw [unpackFrom_of_le (by omega), unpackFrom_of_le (by omega)]
    simp only [bind, Except.bind, Nat.zero_add, Nat.reduceAdd]
    by_cases hm : leNat (slice src 0 4) = lzssMagic
    · simp [hm, h8]
    · simp [hm]
  · constructor
    · intro h
      cases hu : unpackFrom 4 src 4 with
      | error e => rw [hu] at h; cases h
      | ok v => exact absurd (unpackFrom_eq_ok_iff.mp hu).1 h8
    · exact fun h => absurd h.1 h8

theorem backRefs_eq (h8 : 8 ≤ src.length) :
    backRefs src = loopBackRefs src (leNat (slice src 4 8)) (leNat (slice src 4 8)) 8 [] := by
  rw [backRefs, unpackFrom_of_le (by omega)]

/-- The bound on the number of passes does not matter once it covers the missing bytes. -/
theorem decompressLoop_congr {fuel fuel' : ℕ} (hfuel : total ≤ out.length + fuel)
    (hfuel' : total ≤ out.length + fuel') :
    decompressLoop src total fuel i out = decompressLoop src total fuel' i out := by
  induction fuel generalizing fuel' i out with
  | zero =>
    cases fuel' with
    | zero => rfl
    | succ fuel' => rw [decompressLoop, decompressLoop, if_pos (by omega)]
  | succ fuel ih =>
    cases fuel' with
    | zero => rw [decompressLoop, decompressLoop, if_pos (by omega)]
    | succ fuel' =>
      rw [decompressLoop, decompressLoop]
      by_cases hout : total ≤ out.length
      · rw [if_pos hout, if_pos hout]
      · rw [if_neg hout, if_neg hout]
        by_cases hi : src.length ≤ i
        · rw [if_pos hi, if_pos hi]
        · rw [if_neg hi, if_neg hi]
          cases hf : pyIndex src (i : ℤ) with
          | error e => rfl
          | ok f =>
            simp only [bind, Except.bind]
            cases hb : decompressBits src total f.toNat (List.range 8) (i + 1) out with
            | error e => rfl
            | ok p =>
              have hgrow : out.length < p.2.length := length_lt_of_decompressBits hout hb
              exact ih (by omega) (by omega)

/-- **The `while` loop without its bound.** With at least as many passes as there are bytes
missing, the recursion is the Python loop: it stops only when the output is complete. -/
theorem decompressLoop_eq (src : List UInt8) (total i : ℕ) (out : List UInt8) :
    decompressLoop src total (total - out.length) i out =
      if total ≤ out.length then .ok out
      else if src.length ≤ i then .error (.value "truncated lzss stream")
      else (pyIndex src i).bind fun flags =>
        (decompressBits src total flags.toNat (List.range 8) (i + 1) out).bind fun p =>
          decompressLoop src total (total - p.2.length) p.1 p.2 := by
  by_cases hout : total ≤ out.length
  · rw [if_pos hout, Nat.sub_eq_zero_of_le hout, decompressLoop]
  · obtain ⟨fuel, hfuel⟩ : ∃ fuel, total - out.length = fuel + 1 :=
      ⟨total - out.length - 1, by omega⟩
    rw [if_neg hout, hfuel, decompressLoop, if_neg hout]
    by_cases hi : src.length ≤ i
    · rw [if_pos hi, if_pos hi]
    · rw [if_neg hi, if_neg hi]
      cases hf : pyIndex src (i : ℤ) with
      | error e => rfl
      | ok f =>
        simp only [bind, Except.bind]
        cases hb : decompressBits src total f.toNat (List.range 8) (i + 1) out with
        | error e => rfl
        | ok p =>
          have hgrow : out.length < p.2.length := length_lt_of_decompressBits hout hb
          exact decompressLoop_congr (by omega) (by omega)

end Lzss

end Qizo
