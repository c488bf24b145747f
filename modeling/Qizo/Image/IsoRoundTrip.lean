import Qizo.Check.Iso
import Qizo.Image.Iso

/-!
# The ISO round trip

`build_iso` of `mkqizoiso.py` against `check_iso` of `qizocheck.py`.

## Method

The volume is its blocks one behind the other. Each block is described by the fields that the
checker looks at (`IsRecord`, `IsPrimary`, `IsBootRecord`, `IsCatalog`); the checker is then
followed block by block, and for the root directory record by record.

## Main results

* `checkIso_buildIso` — the checker accepts the volume of every disk image of more than 4085
  sectors, and finds the image where the tool put it, unless the name has a surrogate in it
* `not_buildIso_surrogate` — such a name
-/

namespace Qizo

namespace Iso

open ByteString Python Record

/-! ### Numbers in both byte orders -/

theorem both_eq {w v : ℕ} (h : v < 256 ^ w) :
    both w v = .ok (leBytes w v ++ (leBytes w v).reverse) := by
  rw [both, pack_of_lt h, packBig, if_pos h]
  rfl

/-! ### Directory records -/

/-- The fields of a directory record that a reader looks at. -/
structure IsRecord (r : List UInt8) (lba size : ℕ) (ident : List UInt8) : Prop where
  length_lt : r.length < 256
  length_ge : 34 ≤ r.length
  len_at : HasAt r 0 [UInt8.ofNat r.length]
  lba_at : HasAt r 2 (leBytes 4 lba)
  size_at : HasAt r 10 (leBytes 4 size)
  identLen_at : HasAt r 32 [UInt8.ofNat ident.length]
  ident_at : HasAt r 33 ident

/-- The bytes of a record with the first byte `len`, filled up with `pad`. -/
def recordBytes (len : UInt8) (lba size : ℕ) (flags : UInt8) (ident pad : List UInt8) :
    List UInt8 :=
  [len, 0] ++ (leBytes 4 lba ++ (leBytes 4 lba).reverse) ++
    (leBytes 4 size ++ (leBytes 4 size).reverse) ++ [26, 1, 1, 0, 0, 0, 0] ++ [flags] ++ [0] ++
    [0] ++ (leBytes 2 1 ++ (leBytes 2 1).reverse) ++ [UInt8.ofNat ident.length] ++ ident ++ pad

theorem length_recordBytes (len : UInt8) (lba size : ℕ) (flags : UInt8) (ident pad : List UInt8) :
    (recordBytes len lba size flags ident pad).length = 33 + ident.length + pad.length := by
  simp [recordBytes]
  omega

theorem dirRecord_eq {lba size : ℕ} (flags : UInt8) {ident : List UInt8} (hlba : lba < 256 ^ 4)
    (hsize : size < 256 ^ 4) (hident : ident.length < 200) :
    dirRecord lba size flags ident = .ok (recordBytes
      (UInt8.ofNat (33 + ident.length + (33 + ident.length) % 2)) lba size flags ident
      (List.replicate ((33 + ident.length) % 2) 0)) := by
  rw [dirRecord, both32, both32, both16, both_eq hlba, ok_bind, both_eq hsize, ok_bind,
    both_eq (by norm_num), ok_bind, pyByte, if_pos (by omega), ok_bind]
  dsimp only
  rw [← List.append_nil ([0, 0] ++ (leBytes 4 lba ++ (leBytes 4 lba).reverse) ++ _ ++ _ ++ _ ++ _ ++
    _ ++ _ ++ _ ++ ident), ← recordBytes, length_recordBytes, List.length_nil, Nat.add_zero]
  rcases Nat.mod_two_eq_zero_or_one (33 + ident.length) with hmod | hmod
  · rw [hmod, if_neg (by simp), length_recordBytes, pyByte,
      if_pos (by rw [List.length_nil]; omega)]
    rfl
  · rw [hmod, if_pos (by simp), recordBytes, List.append_nil, ← recordBytes, length_recordBytes,
      pyByte, if_pos (by rw [List.length_singleton]; omega)]
    rfl

theorem isRecord_recordBytes {n lba size : ℕ} {flags : UInt8} {ident pad : List UInt8}
    (hlen : 33 + ident.length + pad.length = n) (hge : 34 ≤ n) (hlt : n < 256) :
    IsRecord (recordBytes (UInt8.ofNat n) lba size flags ident pad) lba size ident := by
  have hall := hasAt_self (recordBytes (UInt8.ofNat n) lba size flags ident pad)
  have hhead := hall.left.left.left.left.left.left.left.left
  constructor
  · rwa [length_recordBytes, hlen]
  · rwa [length_recordBytes, hlen]
  · rw [length_recordBytes, hlen]
    exact hhead.left.left.left (d := [_])
  · exact hhead.left.right.left
  · simpa using hhead.right.left
  · simpa using hall.left.left.right
  · simpa using hall.left.right

/-- **A record spells its fields.** -/
theorem exists_dirRecord {lba size : ℕ} (flags : UInt8) {ident : List UInt8} (hlba : lba < 256 ^ 4)
    (hsize : size < 256 ^ 4) (hpos : 0 < ident.length) (hident : ident.length < 200) :
    ∃ r, dirRecord lba size flags ident = .ok r ∧
      r.length = 33 + ident.length + (33 + ident.length) % 2 ∧ IsRecord r lba size ident := by
  refine ⟨_, dirRecord_eq flags hlba hsize hident, ?_, ?_⟩
  · rw [length_recordBytes, List.length_replicate]
  · exact isRecord_recordBytes (by rw [List.length_replicate]) (by omega) (by omega)

/-- One record of a directory, at offset `o`. -/
theorem recordLoop_record {root r ident : List UInt8} {lba size passes o : ℕ}
    {found : Option (ℕ × ℕ)} (hlba : lba < 256 ^ 4) (hsize : size < 256 ^ 4)
    (hident : ident.length < 256) (hrec : IsRecord r lba size ident) (hat : HasAt root o r) :
    Check.Iso.recordLoop root (passes + 1) o found =
      Check.Iso.recordLoop root passes (o + r.length)
        (if (encode "QIZO".toList).isPrefixOf ident then some (lba, size) else found) := by
  have hlt := hrec.length_lt
  have hge := hrec.length_ge
  have hroot := hat.le_length (by rw [ne_eq, ← List.length_eq_zero_iff]; omega)
  have hpart {a : ℕ} {d : List UInt8} (hd : HasAt r a d) (hle : a + d.length ≤ r.length) :
      HasAt root (o + a) d := by
    intro i hi
    rw [← hd i hi, Nat.add_assoc, hat (a + i) (by omega)]
  have hlen : pyIndex root o = .ok (UInt8.ofNat r.length) :=
    pyIndex_of_hasAt (hpart hrec.len_at (by rw [List.length_singleton]; omega))
  have hidentLen : pyIndex root (o + 32 : ℕ) = .ok (UInt8.ofNat ident.length) :=
    pyIndex_of_hasAt (hpart hrec.identLen_at (by rw [List.length_singleton]; omega))
  have hname : slice root (o + 33) (o + 33 + (UInt8.ofNat ident.length).toNat) = ident := by
    rw [UInt8.toNat_ofNat', Nat.mod_eq_of_lt (by omega)]
    refine (hpart hrec.ident_at ?_).slice_eq
    rcases Nat.eq_zero_or_pos ident.length with hzero | hpos
    · omega
    · exact hrec.ident_at.le_length (by rw [ne_eq, ← List.length_eq_zero_iff]; omega)
  have hextent : unpackFrom 4 root (o + 2) = .ok lba :=
    unpackFrom_of_hasAt (hpart hrec.lba_at (by rw [length_leBytes]; omega)) hlba (by omega)
  have hbytes : unpackFrom 4 root (o + 10) = .ok size :=
    unpackFrom_of_hasAt (hpart hrec.size_at (by rw [length_leBytes]; omega)) hsize (by omega)
  have htoNat : (UInt8.ofNat r.length).toNat = r.length := by
    rw [UInt8.toNat_ofNat', Nat.mod_eq_of_lt (by omega)]
  have hne : UInt8.ofNat r.length ≠ 0 := by
    intro h
    rw [h, UInt8.toNat_zero] at htoNat
    omega
  rw [Check.Iso.recordLoop, if_pos (by omega), hlen, ok_bind, if_neg hne, hidentLen, ok_bind]
  dsimp only
  rw [hname, hextent, hbytes, htoNat]
  split
  · rfl
  · rfl

/-- The directory ends at a zero byte. -/
theorem recordLoop_zero {root : List UInt8} {passes o : ℕ} {found : Option (ℕ × ℕ)}
    (hroom : o + 34 ≤ root.length) (hat : HasAt root o [0]) :
    Check.Iso.recordLoop root (passes + 1) o found = .ok found := by
  rw [Check.Iso.recordLoop, if_pos hroom, pyIndex_of_hasAt hat, ok_bind, if_pos rfl]
  rfl

/-- **The root directory** is one sector in which the checker finds the image. -/
theorem exists_rootBody {size : ℕ} (hsize : size < 256 ^ 4) :
    ∃ root, rootBody size = .ok root ∧ root.length = sector ∧
      Check.Iso.findImage root = .ok (some (fileLba, size)) := by
  obtain ⟨self, hself, hselfLen, hselfRec⟩ :=
    @exists_dirRecord rootLba 0 2 [0] (by decide) (by decide)
      (by decide) (by decide)
  obtain ⟨parent, hparent, hparentLen, hparentRec⟩ :=
    @exists_dirRecord rootLba 0 2 [1] (by decide) (by decide)
      (by decide) (by decide)
  have hname : (encode fileName).length = 10 := by decide
  obtain ⟨file, hfile, hfileLen, hfileRec⟩ :=
    @exists_dirRecord fileLba _ 0 _ (by decide) hsize
      (by rw [hname]; decide) (by rw [hname]; decide)
  replace hselfLen : self.length = 34 := hselfLen
  replace hparentLen : parent.length = 34 := hparentLen
  replace hfileLen : file.length = 44 := by rw [hfileLen, hname]
  have hbody : (self ++ parent ++ file).length = 112 := by
    rw [List.length_append, List.length_append, hselfLen, hparentLen, hfileLen]
  refine ⟨self ++ parent ++ file ++ List.replicate (sector - 112) 0, ?_, ?_, ?_⟩
  · rw [rootBody, hself, ok_bind, hparent, ok_bind, hfile, ok_bind]
    dsimp only
    rw [hbody]
    rfl
  · rw [List.length_append, hbody, List.length_replicate]
    rfl
  · have hall := hasAt_self (self ++ parent ++ file ++ List.replicate (sector - 112) 0)
    have hlen : (self ++ parent ++ file ++ List.replicate (sector - 112) 0).length = 2048 := by
      rw [List.length_append, hbody, List.length_replicate]
      rfl
    have hself_at : HasAt (self ++ parent ++ file ++ List.replicate (sector - 112) 0) 0 self :=
      hall.left.left.left
    have hparent_at := hall.left.left.right
    have hfile_at := hall.left.right
    have hzeros := hall.right
    rw [Nat.zero_add, hselfLen] at hparent_at
    rw [Nat.zero_add, List.length_append, hselfLen, hparentLen] at hfile_at
    rw [Nat.zero_add, hbody] at hzeros
    have hend : HasAt (self ++ parent ++ file ++ List.replicate (sector - 112) 0) 112 [0] :=
      hzeros.left (d := [0])
    rw [Check.Iso.findImage, hlen,
      recordLoop_record (by decide) (by decide) (by decide) hselfRec hself_at, hselfLen,
      recordLoop_record (by decide) (by decide) (by decide) hparentRec hparent_at, hparentLen,
      recordLoop_record (by decide) hsize (by decide) hfileRec hfile_at, hfileLen,
      recordLoop_zero (by rw [hlen]; decide) hend]
    rfl

/-! ### Volume descriptors -/

@[simp] theorem length_standardId : standardId.length = 5 := rfl

/-- The fields of a primary volume descriptor that a reader looks at. -/
structure IsPrimary (pvd : List UInt8) (total rootLen : ℕ) : Prop where
  length_eq : pvd.length = sector
  type_at : HasAt pvd 0 [1]
  id_at : HasAt pvd 1 standardId
  total_at : HasAt pvd 80 (leBytes 4 total ++ (leBytes 4 total).reverse)
  setSize_at : HasAt pvd 120 (leBytes 2 1 ++ (leBytes 2 1).reverse)
  block_at : HasAt pvd 128 (leBytes 2 sector ++ (leBytes 2 sector).reverse)
  root_at : ∃ r, r.length = 34 ∧ IsRecord r rootLba rootLen [0] ∧ HasAt pvd 156 r
  version_at : HasAt pvd 693 [1]

theorem fits_pvdFields (volume : List UInt8) {total one block zero rootRec : List UInt8}
    (htotal : total.length = 8) (hone : one.length = 4) (hblock : block.length = 4)
    (hzero : zero.length = 8) (hroot : rootRec.length = 34) :
    ∀ f ∈ pvdFields volume total one block zero rootRec,
      f.Fits (List.replicate sector (0 : UInt8)).length := by
  have htext (n : ℕ) (s : List UInt8) : ((s.take n).rightpad n 0x20).length = n := by
    rw [List.length_rightpad, List.length_take]
    omega
  have hdate : date.length = 17 := rfl
  have hsystem : ((encode "QIZO".toList).rightpad 32 0x20).length = 32 := rfl
  simp only [pvdFields, textField, byteField, List.forall_mem_cons, Field.Fits, htext, hdate,
    length_standardId, hsystem, htotal, hone, hblock, hzero, hroot, List.length_singleton,
    List.length_replicate, List.not_mem_nil, false_imp_iff, implies_true, and_true, sector]
  decide

/-- **The primary descriptor spells its fields.** -/
theorem exists_primaryDescriptor {volume : List CodePoint} {name : List UInt8}
    (hname : encodeStr volume = .ok name) {total rootLen : ℕ} (htotal : total < 256 ^ 4)
    (hroot : rootLen < 256 ^ 4) :
    ∃ pvd, primaryDescriptor volume total rootLen = .ok pvd ∧ IsPrimary pvd total rootLen := by
  obtain ⟨r, hr, hlen, hrec⟩ :=
    @exists_dirRecord rootLba _ 2 [0] (by decide) hroot (by decide) (by decide)
  replace hlen : r.length = 34 := hlen
  have hboth (w v : ℕ) : (leBytes w v ++ (leBytes w v).reverse).length = 2 * w := by
    rw [List.length_append, List.length_reverse, length_leBytes]
    omega
  have hfits := fits_pvdFields name (hboth 4 total) (hboth 2 1) (hboth 2 sector) (hboth 4 0) hlen
  have hset := setFields_eq hfits
  refine ⟨_, Eq.trans ?_ hset, ?_⟩
  · rw [primaryDescriptor, hname, ok_bind, both32, both_eq htotal, ok_bind, both16,
      both_eq (by decide), ok_bind, both16, both_eq (by decide), ok_bind, both32,
      both_eq (by decide), ok_bind, hr, ok_bind]
  · refine ⟨?_, ?_, ?_, ?_, ?_, ?_, ⟨r, hlen, hrec, ?_⟩, ?_⟩
    · rw [length_setFields hfits hset, List.length_replicate]
    · exact hasAt_setFields (k := 0) hfits hset rfl
        (by simp [pvdFields, byteField, textField, Field.patch])
    · exact hasAt_setFields (k := 1) hfits hset rfl
        (by simp [pvdFields, byteField, textField, Field.patch])
    · exact hasAt_setFields (k := 5) hfits hset rfl
        (by simp [pvdFields, byteField, textField, Field.patch])
    · exact hasAt_setFields (k := 6) hfits hset rfl
        (by simp [pvdFields, byteField, textField, Field.patch])
    · exact hasAt_setFields (k := 8) hfits hset rfl
        (by simp [pvdFields, byteField, textField, Field.patch])
    · exact hasAt_setFields (k := 14) hfits hset rfl
        (by simp [pvdFields, byteField, textField, Field.patch, hlen])
    · exact hasAt_setFields (k := 21) hfits hset rfl
        (by simp [pvdFields, byteField, textField, Field.patch])

/-- The checker on a primary descriptor. -/
theorem IsPrimary.checkPrimary_eq {pvd : List UInt8} {total rootLen : ℕ}
    (h : IsPrimary pvd total rootLen) (htotal : total < 256 ^ 4) (hroot : rootLen < 256 ^ 4) :
    Check.Iso.checkPrimary pvd = .ok ⟨rootLba, rootLen, sector, total⟩ := by
  obtain ⟨r, hlen, hrec, hat⟩ := h.root_at
  have hr : slice pvd 156 (156 + 34) = r := by
    rw [← hlen]
    exact hat.slice_eq
  have hid : slice pvd 1 6 = encode "CD001".toList := h.id_at.slice_eq
  have hfirst : pyIndex r 0 = .ok 34 := by
    have := pyIndex_of_hasAt hrec.len_at
    rwa [hlen] at this
  have hlba : unpackFrom 4 r 2 = .ok rootLba :=
    unpackFrom_of_hasAt hrec.lba_at (by decide) (by decide)
  have hsize : unpackFrom 4 r 10 = .ok rootLen :=
    unpackFrom_of_hasAt hrec.size_at hroot (by decide)
  have hblock : unpackFrom 2 pvd 128 = .ok sector :=
    unpackFrom_of_hasAt h.block_at.left (by decide) (by decide)
  have hbig : unpackBig 2 pvd 130 = .ok sector :=
    unpackBig_of_hasAt h.block_at.right (by decide) (by decide)
  have hversion : pyIndex pvd 693 = .ok 1 := pyIndex_of_hasAt h.version_at
  have hset : unpackFrom 2 pvd 120 = .ok 1 :=
    unpackFrom_of_hasAt h.setSize_at.left (by decide) (by decide)
  have hblocks : unpackFrom 4 pvd 80 = .ok total :=
    unpackFrom_of_hasAt h.total_at.left htotal (by decide)
  rw [Check.Iso.checkPrimary, hid, Check.failIf_of_not (by simp), ok_bind, hr]
  dsimp only
  rw [Check.failIf_of_not (by omega), ok_bind, hfirst, ok_bind, Check.failIf_of_not (by simp),
    ok_bind, hlba, ok_bind, hsize, ok_bind, hblock, ok_bind, hversion, ok_bind,
    Check.failIf_of_not (by simp), ok_bind, hset, ok_bind, Check.failIf_of_not (by simp), ok_bind,
    hbig, ok_bind, ok_bind, Check.failIf_of_not (by simp), ok_bind,
    Check.failIf_of_not (by simp [sector, Check.Iso.sector]), ok_bind, hblocks]
  rfl

/-- The fields of a boot record that a reader looks at. -/
structure IsBootRecord (brvd : List UInt8) : Prop where
  length_eq : brvd.length = sector
  type_at : HasAt brvd 0 [0]
  id_at : HasAt brvd 1 standardId
  system_at : HasAt brvd 7 ((encode "EL TORITO SPECIFICATION".toList).rightpad 32 0)
  catalog_at : HasAt brvd 71 (leBytes 4 catalogLba)

theorem exists_bootRecord :
    ∃ brvd, setFields (List.replicate sector 0) brvdFields = .ok brvd ∧ IsBootRecord brvd := by
  have hfits : ∀ f ∈ brvdFields, f.Fits (List.replicate sector (0 : UInt8)).length := by
    rw [List.length_replicate]
    decide
  have hset := setFields_eq hfits
  refine ⟨_, hset, ?_, ?_, ?_, ?_, ?_⟩
  · rw [length_setFields hfits hset, List.length_replicate]
  · exact hasAt_setFields (k := 0) hfits hset rfl (by simp [brvdFields, byteField, Field.patch])
  · exact hasAt_setFields (k := 1) hfits hset rfl (by simp [brvdFields, byteField, Field.patch])
  · refine hasAt_setFields (k := 3) hfits hset rfl ?_
    simp only [brvdFields, byteField, Field.patch, List.map_cons, List.drop_succ_cons,
      List.drop_zero, List.map_nil, clear_cons, clear_nil, and_true]
    decide
  · exact hasAt_setFields (k := 4) hfits hset rfl (by simp [brvdFields, byteField, Field.patch])

/-- The checker on a boot record. -/
theorem IsBootRecord.checkBootRecord_eq {brvd : List UInt8} (h : IsBootRecord brvd) :
    Check.Iso.checkBootRecord brvd = .ok catalogLba := by
  have hsystem : slice brvd 7 30 = (encode "EL TORITO SPECIFICATION".toList).rightpad 23 0 :=
    (h.system_at.sub 0 23).slice_eq
  rw [Check.Iso.checkBootRecord, hsystem, Check.failIf_of_not (by simp), ok_bind]
  exact unpackFrom_of_hasAt h.catalog_at (by decide) (by decide)

theorem exists_terminator :
    ∃ t, setFields (List.replicate sector 0) terminatorFields = .ok t ∧ t.length = sector ∧
      HasAt t 0 [255] := by
  have hfits : ∀ f ∈ terminatorFields, f.Fits (List.replicate sector (0 : UInt8)).length := by
    rw [List.length_replicate]
    decide
  have hset := setFields_eq hfits
  refine ⟨_, hset, ?_, ?_⟩
  · rw [length_setFields hfits hset, List.length_replicate]
  · exact hasAt_setFields (k := 0) hfits hset rfl
      (by simp [terminatorFields, byteField, Field.patch])

/-! ### Boot catalog -/

/-- Word number `k`. -/
def word (l : List UInt8) (k : ℕ) : ℕ := leNat (slice l (2 * k) (2 * k + 2))

/-- A sum modulo `2 ^ 16`, word by word. -/
theorem foldlM_words {f : ℕ → ℕ → Except PyError ℕ} {w : ℕ → ℕ} {ks : List ℕ}
    (h : ∀ k ∈ ks, ∀ acc < 65536, f acc k = .ok ((acc + w k) % 65536)) (acc : ℕ)
    (hacc : acc < 65536) : ks.foldlM f acc = .ok ((acc + (ks.map w).sum) % 65536) := by
  induction ks generalizing acc with
  | nil =>
    rw [List.map_nil, List.sum_nil, Nat.add_zero, Nat.mod_eq_of_lt hacc]
    rfl
  | cons k ks ih =>
    rw [List.forall_mem_cons] at h
    rw [List.foldlM_cons, h.1 acc hacc, ok_bind, ih h.2 _ (Nat.mod_lt _ (by norm_num)),
      List.map_cons, List.sum_cons, Nat.mod_add_mod, Nat.add_assoc]

/-- The sum the tool computes. -/
theorem wordSum_eq {cat : List UInt8} (h : 32 ≤ cat.length) :
    wordSum cat =
      .ok (((List.range 16).map fun k => if k = 14 then 0 else word cat k).sum % 65536) := by
  rw [wordSum, foldlM_words (w := fun k => if k = 14 then 0 else word cat k) ?_ 0 (by decide),
    Nat.zero_add]
  intro k hk acc hacc
  rw [List.mem_range] at hk
  by_cases h14 : k = 14
  · rw [if_pos (by omega), if_pos h14, Nat.add_zero, Nat.mod_eq_of_lt hacc]
  · rw [if_neg (by omega), if_neg h14, unpackFrom_of_le (by omega)]
    rfl

/-- The sum the checker computes. -/
theorem checkWordSum_eq {cat : List UInt8} (h : 32 ≤ cat.length) :
    Check.Iso.wordSum cat = .ok (((List.range 16).map (word cat)).sum % 65536) := by
  rw [Check.Iso.wordSum, foldlM_words (w := word cat) ?_ 0 (by decide), Nat.zero_add]
  intro k hk acc hacc
  rw [List.mem_range] at hk
  rw [unpackFrom_of_le (by omega)]
  rfl

/-- The word at 28 taken out of the sum. -/
theorem sum_words (w : ℕ → ℕ) : ((List.range 16).map w).sum =
    ((List.range 16).map fun k => if k = 14 then 0 else w k).sum + w 14 := by
  simp [List.range_succ]
  omega

/-- The sum with its negative in the word left out cancels. -/
theorem checkWordSum_cancels {v cat : List UInt8} {acc : ℕ} (hv : 32 ≤ v.length)
    (hcat : 32 ≤ cat.length) (hacc : wordSum v = .ok acc)
    (hword : ∀ k < 16, k ≠ 14 → word cat k = word v k)
    (h14 : word cat 14 = ((-(acc : ℤ)) % 65536).toNat) : Check.Iso.wordSum cat = .ok 0 := by
  have hmap : (List.range 16).map (fun k => if k = 14 then 0 else word v k) =
      (List.range 16).map fun k => if k = 14 then 0 else word cat k := by
    refine List.map_congr_left fun k hk => ?_
    by_cases h : k = 14
    · rw [if_pos h, if_pos h]
    · rw [if_neg h, if_neg h, hword k (List.mem_range.mp hk) h]
  rw [wordSum_eq hv, hmap] at hacc
  replace hacc := Except.ok.inj hacc
  rw [checkWordSum_eq hcat, sum_words, h14]
  generalize ((List.range 16).map fun k => if k = 14 then 0 else word cat k).sum = sum at hacc
  have hzero : (sum + ((-(acc : ℤ)) % 65536).toNat) % 65536 = 0 := by omega
  rw [hzero]

/-- The fields of a boot catalog that a reader looks at. -/
structure IsCatalog (cat entry : List UInt8) : Prop where
  length_eq : cat.length = sector
  header_at : HasAt cat 0 [1]
  platform_at : HasAt cat 1 [0]
  key_at : HasAt cat 30 [0x55]
  key_at' : HasAt cat 31 [0xAA]
  sum_eq : Check.Iso.wordSum cat = .ok 0
  entry_at : HasAt cat 32 entry

/-- **The checksum of the catalog cancels**, whatever the boot entry. -/
theorem exists_catalog {entry : List UInt8} (hentry : entry.length = 32) :
    ∃ cat, catalog entry = .ok cat ∧ IsCatalog cat entry := by
  have hfits : ∀ f ∈ validationFields, f.Fits (List.replicate sector (0 : UInt8)).length := by
    rw [List.length_replicate]
    decide
  have hset := setFields_eq hfits
  generalize patches (List.replicate sector 0) (validationFields.map Field.patch) = v at hset
  have hv : v.length = sector := by rw [length_setFields hfits hset, List.length_replicate]
  obtain ⟨acc, hacc⟩ : ∃ acc, wordSum v = .ok acc := ⟨_, wordSum_eq (by rw [hv]; decide)⟩
  have hfits' : ∀ f ∈ [Field.num 2 28 ((-(acc : ℤ)) % 65536), Field.part 32 64 entry],
      f.Fits v.length := by
    simp only [List.forall_mem_cons, Field.Fits, hentry, hv, sector, List.not_mem_nil,
      false_imp_iff, implies_true, and_true]
    omega
  obtain ⟨cat, hset'⟩ : ∃ cat, setFields v [.num 2 28 ((-(acc : ℤ)) % 65536), .part 32 64 entry] =
    .ok cat := ⟨_, setFields_eq hfits'⟩
  have hcat : cat.length = sector := by rw [length_setFields hfits' hset', hv]
  have hkeep {a : ℕ} {d : List UInt8} (hd : HasAt v a d)
      (hc : a + d.length ≤ 28 ∨ 30 ≤ a ∧ a + d.length ≤ 32) : HasAt cat a d := by
    refine HasAt.setFields hd hfits' hset' ?_
    simp only [List.map_cons, Field.patch, List.map_nil, clear_cons, length_leBytes, clear_nil,
      and_true]
    omega
  have hword (k : ℕ) (hk : k < 16) (h14 : k ≠ 14) : word cat k = word v k := by
    have hat := (hasAt_self v).sub (2 * k) (2 * k + 2)
    have hlen : (slice v (2 * k) (2 * k + 2)).length = 2 := by
      rw [length_slice (by rw [hv, sector]; omega)]
      omega
    have := (hkeep hat (by omega)).slice_eq
    rw [hlen, Nat.zero_add] at this
    rw [word, this, word]
  have hword14 : word cat 14 = ((-(acc : ℤ)) % 65536).toNat := by
    have := (hasAt_setFields (k := 0) hfits' hset' rfl (by simp [Field.patch])).slice_eq
    rw [length_leBytes] at this
    rw [word, this, leNat_leBytes (by omega)]
  refine ⟨cat, ?_, hcat, ?_, ?_, ?_, ?_, ?_, ?_⟩
  · rw [catalog, hset, ok_bind, hacc, ok_bind, hset']
  · exact hkeep (hasAt_setFields (k := 0) hfits hset rfl
      (by simp [validationFields, byteField, Field.patch])) (by simp)
  · exact hkeep (hasAt_setFields (k := 1) hfits hset rfl
      (by simp [validationFields, byteField, Field.patch])) (by simp)
  · exact hkeep (hasAt_setFields (k := 3) hfits hset rfl
      (by simp [validationFields, byteField, Field.patch])) (by simp)
  · exact hkeep (hasAt_setFields (k := 4) hfits hset rfl
      (by simp [validationFields, byteField, Field.patch])) (by simp)
  · exact checkWordSum_cancels (by rw [hv]; decide) (by rw [hcat]; decide) hacc hword hword14
  · exact hasAt_setFields (k := 1) hfits' hset' rfl (by simp)

/-- `load size` of a file of that many sectors. -/
def loadSize (fileSectors : ℕ) : ℕ := if fileSectors < 0xFFFF then fileSectors else 0

/-- The fields of a boot entry that a reader looks at. -/
structure IsBootEntry (entry : List UInt8) (fileSectors : ℕ) : Prop where
  length_eq : entry.length = 32
  bootable_at : HasAt entry 0 [0x88]
  media_at : HasAt entry 1 [4]
  segment_at : HasAt entry 2 (leBytes 2 0x07C0)
  load_at : HasAt entry 6 (leBytes 2 (loadSize fileSectors))
  extent_at : HasAt entry 8 (leBytes 4 fileLba)

theorem exists_bootEntry (fileSectors : ℕ) :
    ∃ entry, setFields (List.replicate 32 0) (entryFields fileSectors) = .ok entry ∧
      IsBootEntry entry fileSectors := by
  have hload : loadSize fileSectors < 0xFFFF := by
    rw [loadSize]
    split
    · assumption
    · decide
  have hfits : ∀ f ∈ entryFields fileSectors, f.Fits (List.replicate 32 (0 : UInt8)).length := by
    rw [List.length_replicate, entryFields, ← loadSize]
    simp only [byteField, List.forall_mem_cons, Field.Fits, List.length_singleton, fileLba,
      List.not_mem_nil, false_imp_iff, implies_true, and_true]
    omega
  have hset := setFields_eq hfits
  refine ⟨_, hset, ?_, ?_, ?_, ?_, ?_, ?_⟩
  · rw [length_setFields hfits hset, List.length_replicate]
  · exact hasAt_setFields (k := 0) hfits hset rfl (by simp [entryFields, byteField, Field.patch])
  · exact hasAt_setFields (k := 1) hfits hset rfl (by simp [entryFields, byteField, Field.patch])
  · exact hasAt_setFields (k := 2) hfits hset rfl (by simp [entryFields, byteField, Field.patch])
  · exact hasAt_setFields (k := 5) hfits hset rfl (by simp [entryFields, byteField, Field.patch])
  · exact hasAt_setFields (k := 6) hfits hset rfl (by simp [entryFields, byteField, Field.patch])

/-- The checker on a boot catalog. A file of fewer than 66 sectors would not pass. -/
theorem IsCatalog.checkCatalog_eq {cat entry : List UInt8} {fileSectors : ℕ}
    (h : IsCatalog cat entry) (he : IsBootEntry entry fileSectors) (hmin : 66 ≤ fileSectors) :
    Check.Iso.checkCatalog cat = .ok fileLba := by
  have hentry : slice cat 32 64 = entry := by
    have := h.entry_at.slice_eq
    rwa [he.length_eq] at this
  have hload : loadSize fileSectors < 256 ^ 2 ∧
      ¬((loadSize fileSectors ≠ 4 ∧ loadSize fileSectors ≠ 0) ∧ loadSize fileSectors < 66) := by
    rw [loadSize]
    split <;> omega
  have h0 : pyIndex cat 0 = .ok 1 := pyIndex_of_hasAt h.header_at
  have h1 : pyIndex cat 1 = .ok 0 := pyIndex_of_hasAt h.platform_at
  have h30 : pyIndex cat 30 = .ok 0x55 := pyIndex_of_hasAt h.key_at
  have h31 : pyIndex cat 31 = .ok 0xAA := pyIndex_of_hasAt h.key_at'
  have he0 : pyIndex entry 0 = .ok 0x88 := pyIndex_of_hasAt he.bootable_at
  have he1 : pyIndex entry 1 = .ok 4 := pyIndex_of_hasAt he.media_at
  have hsegment : unpackFrom 2 entry 2 = .ok 0x07C0 :=
    unpackFrom_of_hasAt he.segment_at (by decide) (by decide)
  have hsize : unpackFrom 2 entry 6 = .ok (loadSize fileSectors) :=
    unpackFrom_of_hasAt he.load_at hload.1 (by decide)
  rw [Check.Iso.checkCatalog, h0, ok_bind, Check.failIf_of_not (by simp), ok_bind, h1, ok_bind,
    Check.failIf_of_not (by simp), ok_bind, h30, ok_bind, Check.failIf_of_not (by simp), ok_bind,
    h31, ok_bind, Check.failIf_of_not (by simp), ok_bind, h.sum_eq, ok_bind,
    Check.failIf_of_not (by simp), ok_bind, hentry]
  dsimp only
  rw [he0, ok_bind, Check.failIf_of_not (by simp), ok_bind, he1, ok_bind,
    Check.failIf_of_not (by simp), ok_bind, hsegment, ok_bind, Check.failIf_of_not (by simp),
    ok_bind, hsize, ok_bind, Check.failIf_of_not hload.2, ok_bind]
  exact unpackFrom_of_hasAt he.extent_at (by decide) (by decide)

/-! ### The volume -/

/-- Sectors that hold a file of `n` bytes. -/
def sectorsFor (n : ℕ) : ℕ := (n + 2047) / 2048

theorem length_payloadOf (image : List UInt8) :
    (payloadOf image).length = sectorsFor image.length * sector := by
  rw [payloadOf, sectorsFor, sector]
  split
  · rw [List.length_append, List.length_replicate]
    omega
  · omega

theorem hasAt_payloadOf (image : List UInt8) : HasAt (payloadOf image) 0 image := by
  rw [payloadOf]
  split
  · exact (hasAt_self _).left
  · exact hasAt_self _

theorem checkBlocks_eq {blocks : List (String × List UInt8)}
    (h : ∀ b ∈ blocks, b.2.length = sector) : checkBlocks blocks = .ok () := by
  induction blocks with
  | nil => rfl
  | cons b blocks ih =>
    rw [List.forall_mem_cons] at h
    rw [checkBlocks, h.1, if_neg (by simp), ih h.2]

/-- The blocks of a volume in order. -/
structure IsVolume (iso image : List UInt8) : Prop where
  length_eq : iso.length = (fileLba + sectorsFor image.length) * sector
  primary : ∃ pvd, HasAt iso (16 * sector) pvd ∧
    IsPrimary pvd (fileLba + sectorsFor image.length) sector
  bootRecord : ∃ brvd, HasAt iso (17 * sector) brvd ∧ IsBootRecord brvd
  terminator : ∃ t, HasAt iso (18 * sector) t ∧ t.length = sector ∧ HasAt t 0 [255]
  catalog : ∃ cat entry, HasAt iso (catalogLba * sector) cat ∧ IsCatalog cat entry ∧
    IsBootEntry entry (sectorsFor image.length)
  root : ∃ root, HasAt iso (rootLba * sector) root ∧ root.length = sector ∧
    Check.Iso.findImage root = .ok (some (fileLba, image.length))
  image_at : HasAt iso (fileLba * sector) image

theorem length_lt_of_volume {image : List UInt8}
    (hmax : (fileLba + sectorsFor image.length) * sector < 2 ^ 32) : image.length < 256 ^ 4 := by
  rw [fileLba, sectorsFor, sector] at hmax
  omega

/-- A name without an encoding ends the tool at the primary descriptor. -/
theorem buildIso_eq_error {image : List UInt8} {volume : List CodePoint} {e : PyError}
    (hname : encodeStr volume = .error e)
    (hmax : (fileLba + sectorsFor image.length) * sector < 2 ^ 32) :
    buildIso image volume = .error e := by
  obtain ⟨root, hroot, -, -⟩ := exists_rootBody (length_lt_of_volume hmax)
  rw [buildIso]
  dsimp only
  rw [hroot, ok_bind, primaryDescriptor, hname]
  rfl

/-- The volume of an image whose size and extents the fields can hold. -/
theorem exists_buildIso {image : List UInt8} {volume : List CodePoint} {name : List UInt8}
    (hname : encodeStr volume = .ok name)
    (hmax : (fileLba + sectorsFor image.length) * sector < 2 ^ 32) :
    ∃ iso, buildIso image volume = .ok (iso, ⟨fileLba + sectorsFor image.length, catalogLba,
      rootLba, fileLba, sectorsFor image.length, image.length⟩) ∧ IsVolume iso image := by
  have hmax' : (21 + sectorsFor image.length) * 2048 < 2 ^ 32 := hmax
  have hsize := length_lt_of_volume hmax
  have hpayload := length_payloadOf image
  have hsectors : (payloadOf image).length / sector = sectorsFor image.length := by
    rw [hpayload, sector, Nat.mul_div_cancel _ (by decide)]
  obtain ⟨root, hroot, hrootLen, hfind⟩ := exists_rootBody hsize
  obtain ⟨pvd, hpvd, hprimary⟩ := @exists_primaryDescriptor _ _ hname
    (fileLba + sectorsFor image.length) sector (by rw [fileLba]; omega) (by decide)
  obtain ⟨brvd, hbrvd, hboot⟩ := exists_bootRecord
  obtain ⟨t, ht, htLen, htype⟩ := exists_terminator
  obtain ⟨entry, hentry, hisEntry⟩ := exists_bootEntry (sectorsFor image.length)
  obtain ⟨cat, hcat, hisCat⟩ := exists_catalog hisEntry.length_eq
  have hlen : (List.replicate (pvdLba * sector) 0 ++ pvd ++ brvd ++ t ++ cat ++ root ++
      payloadOf image).length = (fileLba + sectorsFor image.length) * sector := by
    simp only [List.length_append, List.length_replicate, hprimary.length_eq, hboot.length_eq,
      htLen, hisCat.length_eq, hrootLen, hpayload, sector, fileLba, pvdLba]
    omega
  refine ⟨List.replicate (pvdLba * sector) 0 ++ pvd ++ brvd ++ t ++ cat ++ root ++ payloadOf image,
    ?_, ?_⟩
  · rw [buildIso]
    dsimp only
    rw [hsectors, hroot, ok_bind, hrootLen, hpvd, ok_bind, hbrvd, ok_bind, ht, ok_bind, hentry,
      ok_bind, hcat, ok_bind, checkBlocks_eq (by simp [hprimary.length_eq, hboot.length_eq, htLen,
        hisCat.length_eq, hrootLen]), ok_bind, hlen, raiseIf_of_not (by simp), ok_bind,
      Nat.mul_div_cancel _ (by decide)]
    rfl
  · have hall := hasAt_self
      (List.replicate (pvdLba * sector) 0 ++ pvd ++ brvd ++ t ++ cat ++ root ++
      payloadOf image)
    have hat {a b : ℕ} {d : List UInt8} (h : HasAt (List.replicate (pvdLba * sector) 0 ++ pvd ++
        brvd ++ t ++ cat ++ root ++ payloadOf image) a d) (hab : a = b) :
        HasAt (List.replicate (pvdLba * sector) 0 ++ pvd ++ brvd ++ t ++ cat ++ root ++
          payloadOf image) b d := hab ▸ h
    refine ⟨hlen, ⟨pvd, ?_, hprimary⟩, ⟨brvd, ?_, hboot⟩, ⟨t, ?_, htLen, htype⟩,
      ⟨cat, entry, ?_, hisCat, hisEntry⟩, ⟨root, ?_, hrootLen, hfind⟩, ?_⟩
    · refine hat hall.left.left.left.left.left.right ?_
      rw [List.length_replicate, Nat.zero_add, pvdLba]
    · refine hat hall.left.left.left.left.right ?_
      simp only [List.length_append, List.length_replicate, hprimary.length_eq, pvdLba]
      omega
    · refine hat hall.left.left.left.right ?_
      simp only [List.length_append, List.length_replicate, hprimary.length_eq, hboot.length_eq,
        pvdLba]
      omega
    · refine hat hall.left.left.right ?_
      simp only [List.length_append, List.length_replicate, hprimary.length_eq, hboot.length_eq,
        htLen, pvdLba, catalogLba]
      omega
    · refine hat hall.left.right ?_
      simp only [List.length_append, List.length_replicate, hprimary.length_eq, hboot.length_eq,
        htLen, hisCat.length_eq, pvdLba, rootLba]
      omega
    · have himage := hasAt_payloadOf image
      have hpay := hat (b := fileLba * sector) hall.right (by
        simp only [List.length_append, List.length_replicate, hprimary.length_eq, hboot.length_eq,
          htLen, hisCat.length_eq, hrootLen, pvdLba, fileLba]
        omega)
      intro i hi
      rw [hpay i ?_, ← himage i hi, Nat.zero_add]
      rw [hpayload, sectorsFor, sector]
      omega

/-- One descriptor of the set. -/
theorem descriptorLoop_block {iso desc : List UInt8} {n lba : ℕ} {seen : Option Check.Iso.Primary}
    {catalog : Option ℕ} {typ : UInt8} (hat : HasAt iso (lba * sector) desc)
    (hlen : desc.length = sector) (htyp : HasAt desc 0 [typ]) :
    Check.Iso.descriptorLoop iso (n + 1) lba seen catalog =
      if typ = 255 then .ok (seen, catalog)
      else if typ = 1 then do
        let primary ← Check.Iso.checkPrimary desc
        Check.Iso.descriptorLoop iso n (lba + 1) (some primary) catalog
      else if typ = 0 ∧ slice desc 1 6 = encode "CD001".toList then do
        let catalog ← Check.Iso.checkBootRecord desc
        Check.Iso.descriptorLoop iso n (lba + 1) seen (some catalog)
      else Check.Iso.descriptorLoop iso n (lba + 1) seen catalog := by
  have hle := hat.le_length (by rw [ne_eq, ← List.length_eq_zero_iff, hlen]; decide)
  have hslice := hat.slice_eq
  have htyp' : pyIndex desc 0 = .ok typ := pyIndex_of_hasAt htyp
  rw [hlen] at hle hslice
  have hsector : Check.Iso.sector = sector := rfl
  rw [Check.Iso.descriptorLoop, hsector, if_neg (by omega)]
  dsimp only
  rw [hslice, htyp', ok_bind]
  rfl

namespace IsVolume

variable {iso image : List UInt8}

/-- **The descriptor set terminates** behind the boot record. -/
theorem descriptors_eq (h : IsVolume iso image)
    (hmax : (fileLba + sectorsFor image.length) * sector < 2 ^ 32) :
    Check.Iso.descriptors iso = .ok (some ⟨rootLba, sector, sector,
      fileLba + sectorsFor image.length⟩, some catalogLba) := by
  have hmax' : (21 + sectorsFor image.length) * 2048 < 2 ^ 32 := hmax
  obtain ⟨pvd, hpvd, hprimary⟩ := h.primary
  obtain ⟨brvd, hbrvd, hboot⟩ := h.bootRecord
  obtain ⟨t, ht, htLen, htype⟩ := h.terminator
  have hid : slice brvd 1 6 = encode "CD001".toList := hboot.id_at.slice_eq
  obtain ⟨n, hn⟩ : ∃ n, iso.length / Check.Iso.sector + 1 = n + 1 + 1 + 1 := by
    refine ⟨19 + sectorsFor image.length, ?_⟩
    rw [h.length_eq, fileLba, sector, Check.Iso.sector, Nat.mul_div_cancel _ (by decide)]
    omega
  rw [Check.Iso.descriptors, hn, descriptorLoop_block hpvd hprimary.length_eq hprimary.type_at,
    if_neg (by decide), if_pos rfl,
    hprimary.checkPrimary_eq (by rw [fileLba]; omega) (by decide), ok_bind,
    descriptorLoop_block hbrvd hboot.length_eq hboot.type_at, if_neg (by decide),
    if_neg (by decide), if_pos ⟨rfl, hid⟩, hboot.checkBootRecord_eq, ok_bind,
    descriptorLoop_block ht htLen htype, if_pos rfl]

end IsVolume

/-- **The ISO round trip.** For every disk image of more than 4085 sectors whose volume is below
4 GiB, and every volume name without a lone surrogate, the tool ends without an error and the
checker accepts what it has written: the descriptor set terminates, the catalog (with a checksum
that cancels) and the root directory name the same extent, with the size of the image, and the image
lies there. A name with a lone surrogate ends the tool before it writes anything. -/
theorem checkIso_buildIso {image : List UInt8} (volume : List CodePoint)
    (hmin : 4085 * 512 < image.length)
    (hmax : (fileLba + sectorsFor image.length) * sector < 2 ^ 32) :
    (IsScalar volume → ∃ iso info, buildIso image volume = .ok (iso, info) ∧
      Check.Iso.descriptors iso =
        .ok (some ⟨info.rootLba, sector, sector, info.sectors⟩, some info.catalog) ∧
      Check.Iso.wordSum (slice iso (info.catalog * sector) (info.catalog * sector + sector)) =
        .ok 0 ∧
      Check.Iso.checkCatalog (slice iso (info.catalog * sector) (info.catalog * sector + sector)) =
        .ok info.fileLba ∧
      Check.Iso.findImage (slice iso (info.rootLba * sector) (info.rootLba * sector + sector)) =
        .ok (some (info.fileLba, image.length)) ∧
      slice iso (info.fileLba * sector) (info.fileLba * sector + image.length) = image ∧
      Check.Iso.checkIso iso image = .ok ⟨info.catalog, info.rootLba, info.fileLba⟩) ∧
    (¬ IsScalar volume → buildIso image volume = .error .unicodeEncode) := by
  refine ⟨fun hscalar => ?_, fun hscalar =>
    buildIso_eq_error (encodeStr_of_not_isScalar hscalar) hmax⟩
  obtain ⟨text, rfl⟩ := hscalar.exists_eq_map
  obtain ⟨iso, hbuild, hvol⟩ := exists_buildIso (encodeStr_map_char text) hmax
  obtain ⟨cat, entry, hcat, hisCat, hisEntry⟩ := hvol.catalog
  obtain ⟨root, hroot, hrootLen, hfind⟩ := hvol.root
  have hcatSlice := hcat.slice_eq
  have hrootSlice := hroot.slice_eq
  have himage := hvol.image_at.slice_eq
  rw [hisCat.length_eq] at hcatSlice
  rw [hrootLen] at hrootSlice
  have hsectors : 66 ≤ sectorsFor image.length := by
    rw [sectorsFor]
    omega
  have hcheck := hisCat.checkCatalog_eq hisEntry hsectors
  have hroom : fileLba * sector + image.length ≤ iso.length := by
    rw [hvol.length_eq, fileLba, sectorsFor, sector]
    omega
  refine ⟨iso, _, hbuild, hvol.descriptors_eq hmax, ?_, ?_, ?_, himage, ?_⟩
  · rw [hcatSlice, hisCat.sum_eq]
  · rw [hcatSlice, hcheck]
  · rw [hrootSlice, hfind]
  · have hsector : Check.Iso.sector = sector := rfl
    rw [Check.Iso.checkIso, hvol.descriptors_eq hmax, ok_bind, hsector]
    dsimp only
    rw [hcatSlice, hcheck, ok_bind, Check.failIf_of_not (by omega), ok_bind, himage,
      Check.failIf_of_not (by simp), ok_bind, hrootSlice, hfind, ok_bind]
    dsimp only
    rw [Check.failIf_of_not (by simp), ok_bind]
    rfl

/-- The smallest image with room for a volume, with nothing in it. -/
theorem checkIso_buildIso_blank :
    ∃ iso info, buildIso (List.replicate (4086 * 512) 0) ("QIZO".toList.map .char) =
        .ok (iso, info) ∧
      Check.Iso.checkIso iso (List.replicate (4086 * 512) 0) = .ok ⟨19, 20, 21⟩ := by
  have hlen : (List.replicate (4086 * 512) (0 : UInt8)).length = 4086 * 512 := List.length_replicate
  have hmax : (fileLba + sectorsFor (List.replicate (4086 * 512) (0 : UInt8)).length) * sector <
      2 ^ 32 := by
    rw [hlen]
    decide
  have hscalar : IsScalar ("QIZO".toList.map .char) := fun n => by
    rw [List.mem_map]
    rintro ⟨c, -, h⟩
    cases h
  obtain ⟨iso, info, hbuild, -, -, -, -, -, hcheck⟩ :=
    (checkIso_buildIso ("QIZO".toList.map .char) (by rw [hlen]; decide) hmax).1 hscalar
  obtain ⟨iso', hbuild', -⟩ := exists_buildIso (encodeStr_map_char "QIZO".toList) hmax
  have hinfo := congrArg Prod.snd (Except.ok.inj (hbuild.symm.trans hbuild'))
  dsimp only at hinfo
  subst hinfo
  exact ⟨iso, _, hbuild, hcheck⟩

/-- An argument of the one byte `0xFF` is the string of the surrogate `0xDCFF`, and no volume can be
named by it. -/
theorem not_buildIso_surrogate :
    ¬ ∃ iso info,
      buildIso (List.replicate (4086 * 512) 0) [.surrogate 0x4FF] = .ok (iso, info) := by
  rintro ⟨iso, info, h⟩
  have hlen : (List.replicate (4086 * 512) (0 : UInt8)).length = 4086 * 512 := List.length_replicate
  rw [buildIso_eq_error (e := .unicodeEncode) rfl (by rw [hlen]; decide)] at h
  cases h

end Iso

end Qizo
