import Qizo.Lib.Python

/-!
# Records in a byte array

A record is laid out by assigning its fields one after the other into a byte array: slices of a
given length, and little-endian numbers of a given width. A table of such assignments is a list of
`Field`s, and `setFields` carries it out as a script does, with the exceptions that `struct`
raises.

## Patches

Where every field fits, `setFields` is a list of **patches**: byte strings put down at offsets,
each of which changes nothing but its own bytes. What a later reader finds is then a matter of
which ranges overlap: a patch that no later one touches is there (`hasAt_patches`), and so is
whatever was there before and is touched by none (`HasAt.patches`).
-/

namespace Record

open ByteString Python

/-! ### Patches -/

/-- Put down each byte string at its offset, in order. -/
def patches (l : List UInt8) (ws : List (ℕ × List UInt8)) : List UInt8 :=
  ws.foldl (fun l w => setSlice l w.1 (w.1 + w.2.length) w.2) l

/-- Every patch ends within the first `n` bytes. -/
def InRange (n : ℕ) (ws : List (ℕ × List UInt8)) : Prop := ∀ w ∈ ws, w.1 + w.2.length ≤ n

/-- No patch touches the `n` bytes at `a`. -/
def Clear (a n : ℕ) (ws : List (ℕ × List UInt8)) : Prop :=
  ∀ w ∈ ws, a + n ≤ w.1 ∨ w.1 + w.2.length ≤ a

section Patches

variable {l d : List UInt8} {a n : ℕ} {w : ℕ × List UInt8} {ws ws' : List (ℕ × List UInt8)}

@[simp] theorem patches_nil (l : List UInt8) : patches l [] = l := rfl

@[simp] theorem patches_cons (l : List UInt8) (w : ℕ × List UInt8) (ws : List (ℕ × List UInt8)) :
    patches l (w :: ws) = patches (setSlice l w.1 (w.1 + w.2.length) w.2) ws := rfl

theorem patches_append (l : List UInt8) (ws ws' : List (ℕ × List UInt8)) :
    patches l (ws ++ ws') = patches (patches l ws) ws' := List.foldl_append

@[simp] theorem inRange_nil (n : ℕ) : InRange n [] := by simp [InRange]

@[simp] theorem inRange_cons :
    InRange n (w :: ws) ↔ w.1 + w.2.length ≤ n ∧ InRange n ws := by simp [InRange]

@[simp] theorem inRange_append : InRange n (ws ++ ws') ↔ InRange n ws ∧ InRange n ws' := by
  simp [InRange, or_imp, forall_and]

@[simp] theorem clear_nil (a n : ℕ) : Clear a n [] := by simp [Clear]

@[simp] theorem clear_cons :
    Clear a n (w :: ws) ↔ (a + n ≤ w.1 ∨ w.1 + w.2.length ≤ a) ∧ Clear a n ws := by simp [Clear]

@[simp] theorem clear_append : Clear a n (ws ++ ws') ↔ Clear a n ws ∧ Clear a n ws' := by
  simp [Clear, or_imp, forall_and]

theorem length_patch (h : w.1 + w.2.length ≤ l.length) :
    (setSlice l w.1 (w.1 + w.2.length) w.2).length = l.length :=
  length_setSlice (Nat.le_add_right _ _) h (by omega)

/-- Patches inside an array leave its length alone. -/
theorem length_patches (h : InRange l.length ws) : (patches l ws).length = l.length := by
  induction ws generalizing l with
  | nil => rfl
  | cons w ws ih =>
    rw [inRange_cons] at h
    have hlen := length_patch h.1
    rw [patches_cons, ih (by rw [hlen]; exact h.2), hlen]

/-- **Frame.** What no patch touches stays. -/
theorem HasAt.patches (h : HasAt l a d) (hr : InRange l.length ws) (hc : Clear a d.length ws) :
    HasAt (patches l ws) a d := by
  induction ws generalizing l with
  | nil => exact h
  | cons w ws ih =>
    rw [inRange_cons] at hr
    rw [clear_cons] at hc
    rw [patches_cons]
    refine ih (h.setSlice (Nat.le_add_right _ _) hr.1 (by omega) hc.1) ?_ hc.2
    rw [length_patch hr.1]
    exact hr.2

/-- **Reading back a patch** that no later one touches. -/
theorem hasAt_patches (hr : InRange l.length (ws ++ (a, d) :: ws'))
    (hc : Clear a d.length ws') : HasAt (patches l (ws ++ (a, d) :: ws')) a d := by
  rw [inRange_append, inRange_cons] at hr
  have hlen := length_patches hr.1
  rw [patches_append, patches_cons]
  have hpatch : (setSlice (patches l ws) a (a + d.length) d).length = l.length := by
    rw [length_patch (w := (a, d)) (by rw [hlen]; exact hr.2.1), hlen]
  refine HasAt.patches (hasAt_setSlice ?_) (by rw [hpatch]; exact hr.2.2) hc
  have := hr.2.1
  rw [hlen]
  omega

/-- Reading back patch number `k`. -/
theorem hasAt_patches_get {k : ℕ} (hk : ws[k]? = some (a, d)) (hr : InRange l.length ws)
    (hc : Clear a d.length (ws.drop (k + 1))) : HasAt (patches l ws) a d := by
  obtain ⟨hlt, hget⟩ := List.getElem?_eq_some_iff.mp hk
  have hws : ws.take k ++ (a, d) :: ws.drop (k + 1) = ws := by
    rw [← hget, ← List.drop_eq_getElem_cons hlt, List.take_append_drop]
  rw [← hws] at hr
  have := hasAt_patches hr hc
  rwa [hws] at this

end Patches

/-! ### Fields -/

/-- An assignment to a byte array. -/
inductive Field where
  /-- `l[a:b] = d`, or `l[a] = d` for one byte. -/
  | part (a b : ℕ) (d : List UInt8)
  /-- `struct.pack_into` of a `w`-byte number. -/
  | num (w off : ℕ) (v : ℤ)

/-- Carry out one assignment. -/
def setField (l : List UInt8) : Field → Except PyError (List UInt8)
  | .part a b d => .ok (setSlice l a b d)
  | .num w off v => if 0 ≤ v then packInto w l off v.toNat else .error .struct

/-- Carry out the assignments of a table, in order. -/
def setFields (l : List UInt8) (fs : List Field) : Except PyError (List UInt8) :=
  fs.foldlM setField l

namespace Field

/-- The field lies within the first `n` bytes, and what is assigned has its size. -/
def Fits (n : ℕ) : Field → Prop
  | part a b d => b ≤ n ∧ a + d.length = b
  | num w off v => off + w ≤ n ∧ 0 ≤ v ∧ v < 256 ^ w

/-- The field fits if it is a slice. -/
def PartFits (n : ℕ) : Field → Prop
  | part a b d => b ≤ n ∧ a + d.length = b
  | num _ _ _ => True

/-- What a field that fits puts down, and where. -/
def patch : Field → ℕ × List UInt8
  | part a _ d => (a, d)
  | num w off v => (off, leBytes w v.toNat)

instance (n : ℕ) : (f : Field) → Decidable (f.Fits n)
  | part a b d => inferInstanceAs (Decidable (b ≤ n ∧ a + d.length = b))
  | num w off v => inferInstanceAs (Decidable (off + w ≤ n ∧ 0 ≤ v ∧ v < 256 ^ w))

theorem Fits.inRange {n : ℕ} {f : Field} (h : f.Fits n) : f.patch.1 + f.patch.2.length ≤ n := by
  cases f with
  | part a b d =>
    obtain ⟨hb, hab⟩ := h
    simp only [patch]
    omega
  | num w off v => simpa [patch] using h.1

end Field

theorem setField_eq {l : List UInt8} {f : Field} (h : f.Fits l.length) :
    setField l f = .ok (setSlice l f.patch.1 (f.patch.1 + f.patch.2.length) f.patch.2) := by
  cases f with
  | part a b d => rw [setField, Field.patch, h.2]
  | num w off v =>
    obtain ⟨hoff, hv, hlt⟩ := h
    have hlt' : v.toNat < 256 ^ w := by
      rw [Int.toNat_lt hv]
      exact_mod_cast hlt
    rw [setField, if_pos hv, packInto_of_lt hlt' hoff, Field.patch, length_leBytes]

theorem inRange_map_patch {n : ℕ} {fs : List Field} (h : ∀ f ∈ fs, f.Fits n) :
    InRange n (fs.map Field.patch) := by
  intro w hw
  obtain ⟨f, hf, rfl⟩ := List.mem_map.mp hw
  exact (h f hf).inRange

/-- Where the parts fit and nothing is raised, the numbers fit as well. -/
theorem fits_of_setFields {l r : List UInt8} {fs : List Field}
    (hpart : ∀ f ∈ fs, f.PartFits l.length)
    (h : setFields l fs = .ok r) : ∀ f ∈ fs, f.Fits l.length := by
  induction fs generalizing l with
  | nil => simp
  | cons f fs ih =>
    rw [List.forall_mem_cons] at hpart
    rw [setFields, List.foldlM_cons] at h
    obtain ⟨l', hf, hrest⟩ := bind_eq_ok.mp h
    have hfits : f.Fits l.length := by
      cases f with
      | part a b d => exact hpart.1
      | num w off v =>
        rw [setField] at hf
        split at hf
        · next hv =>
          rw [Python.packInto, ByteString.packInto] at hf
          split at hf
          · next hsome =>
            split at hsome
            · next hlt =>
              refine ⟨hlt.2, hv, ?_⟩
              have := hlt.1
              rw [Int.toNat_lt hv] at this
              exact_mod_cast this
            · cases hsome
          · cases hf
        · cases hf
    have hlen : l'.length = l.length := by
      rw [setField_eq hfits] at hf
      rw [← Except.ok.inj hf, length_patch hfits.inRange]
    intro g hg
    rcases List.mem_cons.mp hg with rfl | hg
    · exact hfits
    · rw [← hlen]
      refine ih ?_ hrest g hg
      rw [hlen]
      exact hpart.2

/-- **A table whose fields all fit is a list of patches.** -/
theorem setFields_eq {l : List UInt8} {fs : List Field} (h : ∀ f ∈ fs, f.Fits l.length) :
    setFields l fs = .ok (patches l (fs.map Field.patch)) := by
  induction fs generalizing l with
  | nil => rfl
  | cons f fs ih =>
    have hf := h f (by simp)
    have hlen := length_patch hf.inRange
    rw [setFields, List.foldlM_cons, setField_eq hf]
    exact ih fun g hg => by rw [hlen]; exact h g (List.mem_cons_of_mem _ hg)

section SetFields

variable {l r d : List UInt8} {fs : List Field} {a k : ℕ}

theorem length_setFields (hfits : ∀ f ∈ fs, f.Fits l.length) (h : setFields l fs = .ok r) :
    r.length = l.length := by
  rw [setFields_eq hfits] at h
  rw [← Except.ok.inj h, length_patches (inRange_map_patch hfits)]

/-- **Reading back a field** that no later one touches. -/
theorem hasAt_setFields (hfits : ∀ f ∈ fs, f.Fits l.length) (h : setFields l fs = .ok r)
    (hk : (fs.map Field.patch)[k]? = some (a, d))
    (hc : Clear a d.length ((fs.map Field.patch).drop (k + 1))) : HasAt r a d := by
  rw [setFields_eq hfits] at h
  rw [← Except.ok.inj h]
  exact hasAt_patches_get hk (inRange_map_patch hfits) hc

/-- What no field touches stays. -/
theorem HasAt.setFields (hat : HasAt l a d) (hfits : ∀ f ∈ fs, f.Fits l.length)
    (h : setFields l fs = .ok r) (hc : Clear a d.length (fs.map Field.patch)) : HasAt r a d := by
  rw [setFields_eq hfits] at h
  rw [← Except.ok.inj h]
  exact HasAt.patches hat (inRange_map_patch hfits) hc

end SetFields

end Record
