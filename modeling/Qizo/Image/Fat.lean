import Qizo.Check.Qizocheck
import Qizo.Image.Builder

/-!
# The parts of a FAT volume

What `build_image` writes, part by part, in the terms of a reader: an accepted layout and the sizes
it promises, a directory entry and the name it spells, an allocation table as a function on
clusters, and the root directory as a run of lines.

## Back to back

Clusters are given out in the order of the files and without gaps, so the whole allocation is
described by `placed`, the list of the files with their first clusters. Everything a reader needs
follows from it: `chained_inside` (the links of one file), `exists_placed` and `chained_outside`
(nothing else is linked), `pairwise_placed` (no two files meet) and `lookup_bindings` (the
dictionary of the source agrees).

## Main results

* `planned_of_planLayout` — the tables of an accepted layout cover its clusters
* `dirEntry_eq`, `parseEntry_eq` — a directory entry written, and read back
* `buildFat_spec`, `buildRoot_spec` — the two structures as built
-/

namespace Qizo

namespace Image

open ByteString Python Record

/-! ### Planning -/

/-- What an accepted FAT16 layout looks like. -/
structure FatLayout.Planned (layout : FatLayout) (total part reserved : ℕ) : Prop where
  bits_eq : layout.bits = .fat16
  reserved_eq : layout.reserved = reserved
  partLba_eq : layout.partLba = part
  total_eq : total = part + reserved + 2 * layout.fatSize + 14 + layout.clusters
  minimum : 4085 ≤ layout.clusters
  covers : (layout.clusters + 2) * 2 ≤ layout.fatSize * sector

theorem fatSizeFor_le_iff {z : ℤ} {n : ℕ} (hn : 1 ≤ n) :
    fatSizeFor z .fat16 ≤ n ↔ z * 16 ≤ n * 4096 := by
  simp only [fatSizeFor, sector]
  omega

theorem fatSizeFor_anti {total : ℤ} {part reserved m n : ℕ} (h : m ≤ n) :
    fatSizeFor (dataSectors total part reserved .fat16 n + 2) .fat16 ≤
      fatSizeFor (dataSectors total part reserved .fat16 m + 2) .fat16 := by
  simp only [fatSizeFor, sector, dataSectors]
  omega

theorem one_le_fatSizeFor (z : ℤ) : 1 ≤ fatSizeFor z .fat16 := by
  simp only [fatSizeFor]
  omega

/-- The second pass of the loop is the last. -/
theorem growFat_covers {total : ℤ} {part reserved m : ℕ} (n : ℕ) (hm : 1 ≤ m) :
    1 ≤ growFat total part reserved .fat16 (n + 2) m ∧
    fatSizeFor (dataSectors total part reserved .fat16
      (growFat total part reserved .fat16 (n + 2) m) + 2) .fat16 ≤
      growFat total part reserved .fat16 (n + 2) m := by
  rw [growFat]
  split
  case isTrue h => exact ⟨hm, h⟩
  case isFalse h =>
    have hanti := @fatSizeFor_anti total part reserved _ _
      (Nat.le_of_lt (Nat.not_le.mp h))
    rw [growFat, if_pos hanti]
    exact ⟨one_le_fatSizeFor _, hanti⟩

theorem planned_of_planLayout {total part reserved : ℕ} {layout : FatLayout}
    (h : planLayout total part reserved .fat16 = some layout) :
    layout.Planned total part reserved := by
  obtain ⟨hone, hneed⟩ := growFat_covers
    46 le_rfl
  rw [planLayout] at h
  simp only [if_pos] at h
  split at h
  case isTrue => exact absurd h (by simp)
  case isFalse hmin =>
    have heq := Option.some.inj h
    generalize growFat (total : ℤ) part reserved .fat16 48 1 = fatSize at *
    rw [fatSizeFor_le_iff hone] at hneed
    simp only [dataSectors, rootSectorsOf] at hmin hneed heq
    subst heq
    exact ⟨rfl, rfl, rfl, by dsimp only; omega, by dsimp only; omega, by
      simp only [sector]; omega⟩

/-! ### Directory entries -/

theorem forall_ascii {p : Char → Prop} (h : ∀ n < 128, p (Char.ofNat n)) {c : Char}
    (hc : c.toNat < 128) : p c := by
  have := h c.toNat hc
  rwa [Char.ofNat_toNat] at this

theorem isAscii_upper {s : List Char} (h : IsAscii s) : IsAscii (upper s) := by
  intro c hc
  rw [upper_of_isAscii h] at hc
  obtain ⟨x, hx, rfl⟩ := List.mem_map.mp hc
  exact forall_ascii (p := fun x => x.toUpper.toNat < 128) (by decide) (h x hx)

theorem isAscii_rightpad {s : List Char} {n : ℕ} (h : IsAscii s) : IsAscii (s.rightpad n ' ') := by
  intro c hc
  rw [List.rightpad, List.mem_append] at hc
  rcases hc with hc | hc
  · exact h c hc
  · rw [List.eq_of_mem_replicate hc]
    decide

theorem rsplit_eq_some {c : Char} {s a b : List Char} (h : rsplit c s = some (a, b)) :
    s = a ++ c :: b := by
  induction s generalizing a with
  | nil => simp [rsplit] at h
  | cons x xs ih =>
    rw [rsplit] at h
    split at h
    case h_1 a' b' heq =>
      obtain ⟨rfl, rfl⟩ : x :: a' = a ∧ b' = b := by simpa using h
      rw [ih heq, List.cons_append]
    case h_2 =>
      split at h
      case isTrue hx =>
        obtain ⟨rfl, rfl⟩ : [] = a ∧ xs = b := by simpa using h
        rw [hx, List.nil_append]
      case isFalse => exact absurd h (by simp)

theorem isAscii_splitName {name : List Char} (h : IsAscii name) :
    IsAscii (splitName name).1 ∧ IsAscii (splitName name).2 := by
  unfold splitName
  split
  case h_1 p hp =>
    have hname := rsplit_eq_some hp
    exact ⟨fun c hc => h c (by rw [hname]; simp [hc]), fun c hc => h c (by rw [hname]; simp [hc])⟩
  case h_2 => exact ⟨h, by simp [IsAscii]⟩

theorem isAscii_take {s : List Char} {n : ℕ} (h : IsAscii s) : IsAscii (s.take n) :=
  fun c hc => h c (List.mem_of_mem_take hc)

theorem isAscii_entryBase {name : List Char} (h : IsAscii name) : IsAscii (entryBase name) :=
  isAscii_rightpad (isAscii_take (isAscii_upper (isAscii_splitName h).1))

theorem isAscii_entryExt {name : List Char} (h : IsAscii name) : IsAscii (entryExt name) :=
  isAscii_rightpad (isAscii_take (isAscii_upper (isAscii_splitName h).2))

theorem length_encode_entryBase {name : List Char} (h : IsAscii name) :
    (encode (entryBase name)).length = 8 := by
  rw [length_encode (isAscii_entryBase h), entryBase, List.rightpad]
  simp only [List.length_append, List.length_take, List.length_replicate]
  omega

theorem length_encode_entryExt {name : List Char} (h : IsAscii name) :
    (encode (entryExt name)).length = 3 := by
  rw [length_encode (isAscii_entryExt h), entryExt, List.rightpad]
  simp only [List.length_append, List.length_take, List.length_replicate]
  omega

/-- The fields of a directory entry that a reader looks at. -/
structure IsEntry (e : List UInt8) (base ext : List Char) (attrs : UInt8) (cluster size : ℕ) :
    Prop where
  length_eq : e.length = 32
  base_eq : slice e 0 8 = encode base
  ext_eq : slice e 8 11 = encode ext
  attrs_eq : e[11]? = some attrs
  cluster_eq : slice e 26 28 = leBytes 2 cluster
  size_eq : slice e 28 32 = leBytes 4 size

theorem fits_entryFields {name : List Char} {size : ℕ} (h : IsAscii name) (hsize : size < 2 ^ 32)
    (cluster : ℕ) (attrs : UInt8) : ∀ f ∈ entryFields name size cluster attrs, f.Fits 32 := by
  have hbase := length_encode_entryBase h
  have hext := length_encode_entryExt h
  simp only [entryFields, List.forall_mem_cons, Field.Fits, hbase, hext, List.length_singleton,
    modtime, moddate]
  norm_num
  omega

/-- **A directory entry as written.** -/
theorem dirEntry_eq {name : List Char} {size : ℕ} (h : IsAscii name) (hsize : size < 2 ^ 32)
    (cluster : ℕ) (attrs : UInt8) : ∃ e, dirEntry name size cluster attrs = .ok e ∧
      IsEntry e (entryBase name) (entryExt name) attrs (cluster % 65536) size := by
  have hfits := fits_entryFields h hsize cluster attrs
  refine ⟨_, setFields_eq (by rwa [List.length_replicate]), ?_⟩
  have hr := inRange_map_patch hfits
  have hr' : InRange (List.replicate 32 (0 : UInt8)).length
    ((entryFields name size cluster attrs).map Field.patch) := by rwa [List.length_replicate]
  have hbase := length_encode_entryBase h
  have hext := length_encode_entryExt h
  have hread (k : ℕ) {a : ℕ} {d : List UInt8}
      (hk : ((entryFields name size cluster attrs).map Field.patch)[k]? = some (a, d))
      (hc : Clear a d.length
        (((entryFields name size cluster attrs).map Field.patch).drop (k + 1))) :=
    hasAt_patches_get hk hr' hc
  refine ⟨?_, ?_, ?_, ?_, ?_, ?_⟩
  · rw [length_patches hr', List.length_replicate]
  · have := (hread 0 rfl (by simp [entryFields, Field.patch, hbase])).slice_eq
    rwa [hbase] at this
  · have := (hread 1 rfl (by simp [entryFields, Field.patch, hext])).slice_eq
    rwa [hext] at this
  · exact hread 2 rfl (by simp [entryFields, Field.patch]) 0 (by simp)
  · have := (hread 11 rfl (by simp [entryFields, Field.patch])).slice_eq
    rwa [length_leBytes, Int.toNat_natCast] at this
  · have := (hread 12 rfl (by simp [entryFields, Field.patch])).slice_eq
    rwa [length_leBytes, Int.toNat_natCast] at this

/-! ### Short names -/

/-- A part of an 8.3 name: at most `n` printable ASCII characters, none of them a dot or a lower
case letter, with no blank at either end. -/
def ShortPart (n : ℕ) (s : List Char) : Prop :=
  s.length ≤ n ∧ (∀ c ∈ s, 0x20 ≤ c.toNat ∧ c.toNat < 0x7F ∧ c ≠ '.' ∧ c.toUpper = c) ∧
    s.head? ≠ some ' ' ∧ s.getLast? ≠ some ' '

/-- An upper-case 8.3 name: a base, and an extension behind a dot unless it is empty. -/
def ShortName (name : List Char) : Prop :=
  (splitName name).1 ≠ [] ∧ ShortPart 8 (splitName name).1 ∧ ShortPart 3 (splitName name).2 ∧
    name = if (splitName name).2 = [] then (splitName name).1
      else (splitName name).1 ++ '.' :: (splitName name).2

instance (n : ℕ) (s : List Char) : Decidable (ShortPart n s) :=
  haveI := List.decidableBAll
    (fun c : Char => 0x20 ≤ c.toNat ∧ c.toNat < 0x7F ∧ c ≠ '.' ∧ c.toUpper = c) s
  inferInstanceAs (Decidable (_ ∧ _ ∧ _ ∧ _))

instance (name : List Char) : Decidable (ShortName name) :=
  inferInstanceAs (Decidable (_ ∧ _ ∧ _ ∧ _))

section ShortPart

variable {n : ℕ} {s : List Char}

theorem ShortPart.isAscii (h : ShortPart n s) : IsAscii s := fun c hc => by
  have := h.2.1 c hc
  omega

theorem ShortPart.upper_eq (h : ShortPart n s) : upper s = s :=
  (upper_of_isAscii h.isAscii).trans <|
    (List.map_congr_left fun c hc => (h.2.1 c hc).2.2.2).trans (List.map_id s)

theorem ShortPart.padded (h : ShortPart n s) :
    ((upper s).take n).rightpad n ' ' = s.rightpad n ' ' := by
  rw [h.upper_eq, List.take_of_length_le h.1]

theorem isSpace_eq_false {c : Char} (hlo : 0x20 < c.toNat) (hhi : c.toNat < 0x7F) :
    isSpace c = false := by
  simp only [isSpace, decide_eq_false_iff_not]
  omega

theorem ShortPart.strip_rightpad (h : ShortPart n s) : strip (s.rightpad n ' ') = s := by
  have hnot {c : Char} (hc : c ∈ s) (hne : c ≠ ' ') : isSpace c = false := by
    have hb := h.2.1 c hc
    refine isSpace_eq_false ?_ hb.2.1
    rcases Nat.eq_or_lt_of_le hb.1 with heq | hlt
    · exact absurd (Char.toNat_inj.mp heq.symm) hne
    · exact hlt
  refine Python.strip_rightpad ?_ ?_
  · intro c hc
    refine hnot (List.mem_of_head? hc) ?_
    rintro rfl
    exact h.2.2.1 hc
  · intro c hc
    refine hnot (List.mem_of_getLast? hc) ?_
    rintro rfl
    exact h.2.2.2 hc

theorem ShortPart.decodeName_eq (h : ShortPart n s) :
    Check.decodeName (encode (s.rightpad n ' ')) = .ok s := by
  rw [Check.decodeName, decode_encode (isAscii_rightpad h.isAscii)]
  exact congrArg _ h.strip_rightpad

end ShortPart

theorem ShortName.isAscii {name : List Char} (h : ShortName name) : IsAscii name := by
  obtain ⟨-, hbase, hext, hjoin⟩ := h
  rw [hjoin]
  split
  · exact hbase.isAscii
  · intro c hc
    rcases List.mem_append.mp hc with hc | hc
    · exact hbase.isAscii c hc
    · rcases List.mem_cons.mp hc with rfl | hc
      · decide
      · exact hext.isAscii c hc

theorem ShortName.head_ne {name : List Char} (h : ShortName name) :
    name.head? ≠ some '\x00' := by
  obtain ⟨hne, hbase, -, hjoin⟩ := h
  obtain ⟨c, s, hcs⟩ := List.exists_cons_of_ne_nil hne
  have hc := (hbase.2.1 c (by rw [hcs]; exact List.mem_cons_self)).1
  have hhead : name.head? = some c := by
    rw [hjoin, hcs]
    split <;> rfl
  rw [hhead]
  rintro ⟨⟩
  exact absurd hc (by decide)

/-- Dots at the ends of a joined name are cut off, and there is one only behind an empty
extension. -/
theorem stripBy_dot {base ext : List Char} (hbase : '.' ∉ base) (hne : base ≠ [])
    (hext : '.' ∉ ext) : stripBy (· == '.') (base ++ '.' :: ext) =
      if ext = [] then base else base ++ '.' :: ext := by
  have hself {s : List Char} (hs : '.' ∉ s) : s.dropWhile (· == '.') = s := by
    rw [List.dropWhile_eq_self_iff]
    intro hlen heq
    exact hs (beq_iff_eq.mp heq ▸ List.getElem_mem hlen)
  have hdrop : (base ++ '.' :: ext).dropWhile (· == '.') = base ++ '.' :: ext := by
    rw [List.dropWhile_append, hself hbase]
    simp [hne]
  rw [stripBy, hdrop, List.rdropWhile]
  split
  case isTrue h =>
    rw [h, List.reverse_append, List.reverse_singleton, List.singleton_append,
      List.dropWhile_cons_of_pos (by rfl), hself (by simpa using hbase), List.reverse_reverse]
  case isFalse h =>
    rw [List.reverse_append, List.reverse_cons, List.append_assoc, List.dropWhile_append,
      hself (by simpa using hext)]
    simp [h]

/-- **A directory line read back.** -/
theorem parseEntry_eq {e : List UInt8} {name : List Char} {attrs : UInt8} {cluster size : ℕ}
    (h : IsEntry e (entryBase name) (entryExt name) attrs cluster size) (hname : ShortName name)
    (hcluster : cluster < 65536) (hsize : size < 2 ^ 32) :
    Check.parseEntry e = .ok (name, size, cluster) := by
  obtain ⟨hne, hbase, hext, hjoin⟩ := hname
  have h8 := hbase.decodeName_eq
  have h3 := hext.decodeName_eq
  rw [← hbase.padded, ← entryBase, ← h.base_eq] at h8
  rw [← hext.padded, ← entryExt, ← h.ext_eq] at h3
  have hdot {n : ℕ} {s : List Char} (hs : ShortPart n s) : '.' ∉ s := fun hc =>
    (hs.2.1 _ hc).2.2.1 rfl
  rw [Check.parseEntry, h8, h3, unpackFrom_of_le (by rw [h.length_eq]; omega),
    unpackFrom_of_le (by rw [h.length_eq])]
  simp only [ok_bind, h.cluster_eq, h.size_eq]
  rw [leNat_leBytes (by omega), leNat_leBytes (by omega)]
  exact congrArg (fun x => Except.ok (x, size, cluster))
    ((stripBy_dot (hdot hbase) hne (hdot hext)).trans hjoin.symm)

/-! ### Allocation tables -/

/-- The bytes of a table of `n` 16-bit entries spell the function `t`. -/
def IsFat (n : ℕ) (fat : List UInt8) (t : ℕ → ℕ) : Prop :=
  fat.length = n * 2 ∧ ∀ i < n, leNat (slice fat (i * 2) (i * 2 + 2)) = t i

/-- The table `t` with the clusters from `first` on linked into a chain of `count`. -/
def linked (t : ℕ → ℕ) (first count : ℕ) : ℕ → ℕ := fun c =>
  if first ≤ c ∧ c < first + count then (if c + 1 = first + count then 0xFFFF else c + 1) else t c

section IsFat

variable {n nxt : ℕ} {fat : List UInt8} {t : ℕ → ℕ}

theorem isFat_zero (n : ℕ) : IsFat n (List.replicate (n * 2) 0) fun _ => 0 := by
  refine ⟨List.length_replicate, fun i hi => ?_⟩
  have hz : slice (List.replicate (n * 2) (0 : UInt8)) (i * 2) (i * 2 + 2) = [0, 0] := by
    rw [slice, List.take_replicate, List.drop_replicate]
    have : min (i * 2 + 2) (n * 2) - i * 2 = 2 := by omega
    rw [this]
    rfl
  rw [hz]
  rfl

theorem fatSet_spec {i : ℕ} (h : IsFat n fat t) (hi : i < n) (v : ℕ) :
    ∃ fat', fatSet .fat16 fat i v = .ok fat' ∧
      IsFat n fat' (Function.update t i (v % 65536)) := by
  have hlen := h.1
  refine ⟨_, packInto_of_lt (Nat.mod_lt _ (by omega)) (by omega), ?_, fun j hj => ?_⟩
  · rw [length_setSlice (by omega) (by omega) (by simp), hlen]
  · by_cases hij : j = i
    · have hat := hasAt_setSlice (l := fat) (a := i * 2) (b := i * 2 + 2)
        (d := leBytes 2 (v % 65536)) (by omega)
      have := hat.slice_eq
      rw [length_leBytes] at this
      have hlt : v % 65536 < 256 ^ 2 := Nat.mod_lt _ (by omega)
      rw [hij, this, leNat_leBytes hlt, Function.update_self]
    · rw [Function.update_of_ne hij, ← h.2 j hj]
      congr 1
      apply List.ext_getElem?
      intro k
      by_cases hk : k < 2
      · rw [getElem?_slice (by omega), getElem?_slice (by omega)]
        rcases Nat.lt_or_gt_of_ne hij with hlt | hgt
        · exact getElem?_setSlice_of_lt (by omega) (by omega)
        · exact getElem?_setSlice_of_le (by omega) (by omega) (by simp) (by omega)
      · simp only [slice, List.getElem?_drop, List.getElem?_take]
        rw [if_neg (by omega), if_neg (by omega)]

/-- The inner loop links a chain up to, but not including, its last cluster. -/
theorem linkLoop_spec {i k : ℕ} (h : IsFat n fat t) (hn : nxt + i + k ≤ n)
    (hmax : nxt + i + k < 65536) :
    ∃ fat', linkLoop .fat16 nxt k i fat = .ok fat' ∧
      IsFat n fat' fun c => if nxt + i ≤ c ∧ c < nxt + i + k then c + 1 else t c := by
  induction k generalizing i fat t with
  | zero =>
    refine ⟨fat, rfl, ?_⟩
    have : (fun c => if nxt + i ≤ c ∧ c < nxt + i + 0 then c + 1 else t c) = t := by
      funext c
      exact if_neg (by omega)
    rwa [this]
  | succ k ih =>
    obtain ⟨fat₁, hset, h₁⟩ := fatSet_spec h (by omega : nxt + i < n) (nxt + i + 1)
    obtain ⟨fat₂, hloop, h₂⟩ := ih (i := i + 1) h₁ (by omega) (by omega)
    refine ⟨fat₂, ?_, ?_⟩
    · rw [linkLoop, hset]
      exact hloop
    · convert h₂ using 2 with c
      rw [Nat.mod_eq_of_lt (by omega), Function.update_apply]
      split_ifs <;> omega

theorem linkChain_spec {count : ℕ} (h : IsFat n fat t) (hcount : count ≠ 0)
    (hn : nxt + count ≤ n) (hmax : nxt + count < 65536) :
    ∃ fat₁ fat₂, linkLoop .fat16 nxt (count - 1) 0 fat = .ok fat₁ ∧
      fatSet .fat16 fat₁ (nxt + count - 1) 0xFFFF = .ok fat₂ ∧
      IsFat n fat₂ (linked t nxt count) := by
  obtain ⟨fat₁, hloop, h₁⟩ := @linkLoop_spec _ nxt _ _ 0 (count - 1) h
    (by omega) (by omega)
  obtain ⟨fat₂, hset, h₂⟩ := fatSet_spec h₁ (by omega : nxt + count - 1 < n) 0xFFFF
  refine ⟨fat₁, fat₂, hloop, hset, ?_⟩
  convert h₂ using 1
  funext c
  rw [linked, Function.update_apply]
  split_ifs <;> omega

end IsFat

/-! ### Giving out clusters -/

theorem length_le_sectorsFor (n : ℕ) : n ≤ sectorsFor n * 512 := by
  simp only [sectorsFor, sector]
  omega

/-- The files with their first clusters, given out back to back from `nxt` on. -/
def placed : ℕ → List File → List (File × ℕ)
  | _, [] => []
  | nxt, f :: fs => (f, nxt) :: placed (nxt + f.count) fs

/-- The clusters a list of files occupies. -/
def clustersFor (files : List File) : ℕ := (files.map File.count).sum

/-- The table `t` with the chains of the files. -/
def chained : ℕ → List File → (ℕ → ℕ) → ℕ → ℕ
  | _, [], t => t
  | nxt, f :: fs, t => chained (nxt + f.count) fs (linked t nxt f.count)

/-- The dictionary `cluster_of` of the files. -/
def bindings : ℕ → List File → List (List Char × ℕ × ℕ) → List (List Char × ℕ × ℕ)
  | _, [], acc => acc
  | nxt, f :: fs, acc =>
    bindings (nxt + f.count) fs (if f.count = 0 then acc else (f.1, nxt, f.count) :: acc)

@[simp] theorem clustersFor_nil : clustersFor [] = 0 := rfl

@[simp] theorem clustersFor_cons (f : File) (fs : List File) :
    clustersFor (f :: fs) = f.count + clustersFor fs := by simp [clustersFor]

theorem linked_zero (t : ℕ → ℕ) (first : ℕ) : linked t first 0 = t := by
  funext c
  exact if_neg (by omega)

theorem allocFile_spec {n : ℕ} {t : ℕ → ℕ} {st : Alloc} {f : File} (h : IsFat n st.fat t)
    (hn : st.nxt + f.count ≤ n) (hmax : st.nxt + f.count < 65536) :
    ∃ fat', allocFile .fat16 0xFFFF st f = .ok ⟨fat',
        if f.count = 0 then st.clusterOf else (f.1, st.nxt, f.count) :: st.clusterOf,
        st.nxt + f.count⟩ ∧
      IsFat n fat' (linked t st.nxt f.count) := by
  by_cases hz : f.count = 0
  · refine ⟨st.fat, ?_, by rwa [hz, linked_zero]⟩
    rw [allocFile, if_pos hz, if_pos hz, hz, Nat.add_zero]
  · obtain ⟨fat₁, fat₂, hloop, hset, h₂⟩ := linkChain_spec h hz hn hmax
    refine ⟨fat₂, ?_, h₂⟩
    rw [allocFile, if_neg hz, if_neg hz, hloop, ok_bind, hset]
    rfl

/-- **The allocation loop.** -/
theorem allocFiles_spec {n : ℕ} {t : ℕ → ℕ} {st : Alloc} {files : List File}
    (h : IsFat n st.fat t) (hn : st.nxt + clustersFor files ≤ n)
    (hmax : st.nxt + clustersFor files < 65536) :
    ∃ fat', files.foldlM (allocFile .fat16 0xFFFF) st =
        .ok ⟨fat', bindings st.nxt files st.clusterOf, st.nxt + clustersFor files⟩ ∧
      IsFat n fat' (chained st.nxt files t) := by
  induction files generalizing st t with
  | nil => exact ⟨st.fat, rfl, h⟩
  | cons f fs ih =>
    rw [clustersFor_cons] at hn hmax
    obtain ⟨fat₁, hf, h₁⟩ := allocFile_spec (f := f) h (by omega) (by omega)
    obtain ⟨fat₂, hfs, h₂⟩ := @ih _ ⟨fat₁, if f.count = 0 then st.clusterOf else
        (f.1, st.nxt, f.count) :: st.clusterOf, st.nxt + f.count⟩ h₁ (by dsimp only; omega)
      (by dsimp only; omega)
    refine ⟨fat₂, ?_, h₂⟩
    rw [List.foldlM_cons, hf, clustersFor_cons, ← Nat.add_assoc]
    exact hfs

/-! ### Reading the allocation back -/

section Placed

variable {nxt : ℕ} {files : List File} {t : ℕ → ℕ} {p : File × ℕ}

theorem map_fst_placed (nxt : ℕ) (files : List File) : (placed nxt files).map Prod.fst = files := by
  induction files generalizing nxt with
  | nil => rfl
  | cons f fs ih => rw [placed, List.map_cons, ih]

theorem le_of_mem_placed (h : p ∈ placed nxt files) :
    nxt ≤ p.2 ∧ p.2 + p.1.count ≤ nxt + clustersFor files := by
  induction files generalizing nxt with
  | nil => simp [placed] at h
  | cons f fs ih =>
    rw [clustersFor_cons]
    rcases List.mem_cons.mp h with rfl | h
    · dsimp only
      omega
    · have := ih h
      omega

/-- The files lie behind one another. -/
theorem pairwise_placed (nxt : ℕ) (files : List File) :
    (placed nxt files).Pairwise fun p q => p.2 + p.1.count ≤ q.2 := by
  induction files generalizing nxt with
  | nil => exact .nil
  | cons f fs ih => exact .cons (fun q hq => (le_of_mem_placed hq).1) (ih _)

theorem chained_outside {c : ℕ} (h : c < nxt ∨ nxt + clustersFor files ≤ c) :
    chained nxt files t c = t c := by
  induction files generalizing nxt t with
  | nil => rfl
  | cons f fs ih =>
    rw [clustersFor_cons] at h
    rw [chained, ih (by omega), linked, if_neg (by omega)]

theorem chained_inside {c : ℕ} (h : p ∈ placed nxt files) (hlo : p.2 ≤ c)
    (hhi : c < p.2 + p.1.count) :
    chained nxt files t c = if c + 1 = p.2 + p.1.count then 0xFFFF else c + 1 := by
  induction files generalizing nxt t with
  | nil => simp [placed] at h
  | cons f fs ih =>
    rw [chained]
    rcases List.mem_cons.mp h with rfl | h
    · rw [chained_outside (.inl hhi), linked, if_pos ⟨hlo, hhi⟩]
    · exact ih h

/-- Every cluster given out belongs to a file. -/
theorem exists_placed {c : ℕ} (hlo : nxt ≤ c) (hhi : c < nxt + clustersFor files) :
    ∃ p ∈ placed nxt files, p.2 ≤ c ∧ c < p.2 + p.1.count := by
  induction files generalizing nxt with
  | nil => simp only [clustersFor_nil] at hhi; omega
  | cons f fs ih =>
    rw [clustersFor_cons] at hhi
    by_cases hc : c < nxt + f.count
    · exact ⟨(f, nxt), List.mem_cons_self, hlo, hc⟩
    · obtain ⟨p, hp, hpc⟩ := ih (by omega) (by omega : c < nxt + f.count + clustersFor fs)
      exact ⟨p, List.mem_cons_of_mem _ hp, hpc⟩

theorem lookup_bindings_of_notMem {name : List Char} {acc : List (List Char × ℕ × ℕ)}
    (h : name ∉ files.map Prod.fst) :
    (bindings nxt files acc).lookup name = acc.lookup name := by
  induction files generalizing nxt acc with
  | nil => rfl
  | cons f fs ih =>
    rw [List.map_cons, List.mem_cons, not_or] at h
    rw [bindings, ih h.2]
    split
    · rfl
    · rw [List.lookup_cons, beq_false_of_ne h.1]

theorem lookup_bindings {acc : List (List Char × ℕ × ℕ)} (hnd : (files.map Prod.fst).Nodup)
    (h : p ∈ placed nxt files) :
    (bindings nxt files acc).lookup p.1.1 =
      if p.1.count = 0 then acc.lookup p.1.1 else some (p.2, p.1.count) := by
  induction files generalizing nxt acc with
  | nil => simp [placed] at h
  | cons f fs ih =>
    rw [List.map_cons, List.nodup_cons] at hnd
    rw [bindings]
    rcases List.mem_cons.mp h with rfl | h
    · rw [lookup_bindings_of_notMem hnd.1]
      dsimp only
      split
      · rfl
      · rw [List.lookup_cons, beq_self_eq_true]
    · rw [ih hnd.2 h]
      have hmem : p.1.1 ∈ fs.map Prod.fst := by
        rw [← map_fst_placed (nxt + f.count) fs]
        exact List.mem_map_of_mem (List.mem_map_of_mem h)
      have hne : p.1.1 ≠ f.1 := fun heq => hnd.1 (heq ▸ hmem)
      split
      · split
        · rfl
        · rw [List.lookup_cons, beq_false_of_ne hne]
      · rfl

end Placed

/-! ### The two structures as built -/

/-- The allocation table of a volume with the given files. -/
def fatTable (files : List File) : ℕ → ℕ :=
  Function.update (Function.update (chained 2 files fun _ => 0) 0 0xFFFF) 1 0xFFFF

theorem fatTable_of_le {files : List File} {c : ℕ} (h : 2 ≤ c) :
    fatTable files c = chained 2 files (fun _ => 0) c := by
  rw [fatTable, Function.update_of_ne (by omega), Function.update_of_ne (by omega)]

theorem buildFat_spec {layout : FatLayout} {files : List File} (hbits : layout.bits = .fat16)
    (hn : 2 + clustersFor files ≤ layout.fatSize * 256) (hmax : 2 + clustersFor files < 65536) :
    ∃ fat, buildFat layout files = .ok ⟨fat, bindings 2 files [], 2 + clustersFor files⟩ ∧
      IsFat (layout.fatSize * 256) fat (fatTable files) := by
  have hzero : layout.fatSize * sector = layout.fatSize * 256 * 2 := by rw [sector]; omega
  obtain ⟨fat₁, hfold, h₁⟩ := @allocFiles_spec _ _
    ⟨List.replicate (layout.fatSize * 256 * 2) 0, [], 2⟩ _ (isFat_zero _) hn hmax
  obtain ⟨fat₂, hset₀, h₂⟩ := fatSet_spec h₁ (by omega : 0 < layout.fatSize * 256) 0xFFFF
  obtain ⟨fat₃, hset₁, h₃⟩ := fatSet_spec h₂ (by omega : 1 < layout.fatSize * 256) 0xFFFF
  refine ⟨fat₃, ?_, h₃⟩
  rw [buildFat, hbits, hzero]
  simp only [eofMark, reduceCtorEq, if_false, if_true]
  rw [hfold, ok_bind, hset₀, ok_bind, hset₁]
  rfl

/-- A run of directory lines: one for each file, with its size and `first` as its cluster. -/
def Lines (first : File → ℕ) : List File → List UInt8 → Prop
  | [], d => d = []
  | f :: fs, d => ∃ e d', d = e ++ d' ∧
      IsEntry e (entryBase f.1) (entryExt f.1) 0x20 (first f % 65536) f.2.length ∧ Lines first fs d'

theorem Lines.length_eq {first : File → ℕ} {files : List File} {d : List UInt8}
    (h : Lines first files d) : d.length = files.length * 32 := by
  induction files generalizing d with
  | nil => rw [Lines] at h; simp [h]
  | cons f fs ih =>
    obtain ⟨e, d', rfl, he, h⟩ := h
    rw [List.length_append, he.length_eq, ih h, List.length_cons]
    omega

/-- A line put behind the lines already there. -/
theorem setSlice_append_replicate {pre e : List UInt8} {k : ℕ} :
    setSlice (pre ++ List.replicate k 0) pre.length (pre.length + e.length) e =
      pre ++ e ++ List.replicate (k - e.length) 0 := by
  rw [setSlice, List.take_left, Nat.max_eq_right (Nat.le_add_right _ _), ← List.drop_drop,
    List.drop_left, List.drop_replicate]

/-- The first cluster the directory names for a file. -/
def entryCluster (clusterOf : List (List Char × ℕ × ℕ)) (f : File) : ℕ :=
  ((clusterOf.lookup f.1).getD (0, 0)).1

theorem addEntries_spec {clusterOf : List (List Char × ℕ × ℕ)} {files : List File}
    {pre : List UInt8} {k : ℕ} (hname : ∀ f ∈ files, IsAscii f.1)
    (hsize : ∀ f ∈ files, f.2.length < 2 ^ 32) (hk : files.length * 32 ≤ k) :
    ∃ d, files.foldlM (addEntry clusterOf) (pre ++ List.replicate k 0, pre.length) =
        .ok (pre ++ d ++ List.replicate (k - d.length) 0, pre.length + d.length) ∧
      Lines (entryCluster clusterOf) files d := by
  induction files generalizing pre k with
  | nil => exact ⟨[], by simp; rfl, rfl⟩
  | cons f fs ih =>
    rw [List.length_cons] at hk
    rw [List.forall_mem_cons] at hname hsize
    obtain ⟨e, he, hentry⟩ := dirEntry_eq hname.1 hsize.1 (entryCluster clusterOf f) 0x20
    have hlen := hentry.length_eq
    obtain ⟨d, hd, hlines⟩ := ih (k := k - e.length) hname.2 hsize.2 (by omega)
    refine ⟨e ++ d, ?_, e, d, rfl, hentry, hlines⟩
    have hstep : addEntry clusterOf (pre ++ List.replicate k 0, pre.length) f =
        .ok (pre ++ e ++ List.replicate (k - e.length) 0, (pre ++ e).length) := by
      rw [addEntry, ← entryCluster, he, ok_bind, List.length_append, hlen]
      have := @setSlice_append_replicate pre e k
      rw [hlen] at this
      rw [this]
      rfl
    rw [List.foldlM_cons, hstep, ok_bind, hd]
    simp [Nat.sub_sub, Nat.add_assoc]

theorem buildRoot_spec {label : List Char} {clusterOf : List (List Char × ℕ × ℕ)}
    {files : List File} (hlabel : IsAscii label) (hname : ∀ f ∈ files, IsAscii f.1)
    (hsize : ∀ f ∈ files, f.2.length < 2 ^ 32) (hcount : files.length ≤ 223) :
    ∃ e d, buildRoot .fat16 label clusterOf files =
        .ok (e ++ d ++ List.replicate ((223 - files.length) * 32) 0) ∧
      IsEntry e (entryBase label) (entryExt label) 0x08 0 0 ∧
      Lines (entryCluster clusterOf) files d := by
  obtain ⟨e, he, hentry⟩ := dirEntry_eq hlabel (by omega : 0 < 2 ^ 32) 0 0x08
  have hlen := hentry.length_eq
  obtain ⟨d, hd, hlines⟩ := addEntries_spec (k := 7168 - 32)
    hname hsize (by omega)
  refine ⟨e, d, ?_, hentry, hlines⟩
  have hroot : rootSectorsOf .fat16 * sector = 7168 := rfl
  have hfirst : setSlice (List.replicate 7168 0) 0 32 e = e ++ List.replicate (7168 - 32) 0 := by
    have := @setSlice_append_replicate [] e 7168
    simpa only [List.nil_append, List.length_nil, hlen, Nat.zero_add] using this
  have hrest : 7168 - 32 - d.length = (223 - files.length) * 32 := by
    rw [hlines.length_eq]
    omega
  rw [hlen, hrest] at hd
  rw [buildRoot, he, ok_bind, hroot, hfirst]
  dsimp only
  rw [hd]
  rfl

end Image

end Qizo
