import Qizo.Image.Fat

/-!
# Planned volumes

`plan_layout` chooses the size of the allocation tables and leaves the rest for data. A volume it
plans should add up, its tables should have room for every cluster, and a reader, who knows the
width of an entry only from the number of clusters, should come to the width it was planned for.

For 16 bits the loop ends in its second pass, with the tables that the whole space would need. What
is missing is an upper bound on the number of clusters. For 12 bits the lower bound is the one for
16, so no volume planned with that width is read with it.

## Main results

* `growFat_eq` — where the loop ends
* `consistent_iff` — the volumes that are planned as they are read
-/

namespace Qizo

namespace Image

open ByteString Python

/-- The width a reader gives to a volume with that many clusters. -/
def Classified : FatBits → ℕ → Prop
  | .fat12, clusters => clusters < 4085
  | .fat16, clusters => 4085 ≤ clusters ∧ clusters ≤ 65524
  | .fat32, clusters => 65524 < clusters

/-- The sectors of the volume add up, `fat_set` stays inside a table for every cluster, and the
number of clusters stands for the width. -/
structure Consistent (total : ℤ) (layout : FatLayout) : Prop where
  total_eq : (layout.partLba + layout.reserved + 2 * layout.fatSize + layout.rootSectors +
    layout.clusters : ℤ) = total
  room : ∀ index < layout.clusters + 2, ∀ fat value, fat.length = layout.fatSize * 512 →
    ∃ fat', fatSet layout.bits fat index value = .ok fat'
  classified : Classified layout.bits layout.clusters

variable {total : ℤ} {part reserved : ℕ} {bits : FatBits} {layout : FatLayout}

/-- **The loop for 16 bits** ends with the size that the space behind the root directory would
need. -/
theorem growFat_eq (total : ℤ) (part reserved n : ℕ) :
    growFat total part reserved .fat16 (n + 2) 1 =
      fatSizeFor (dataSectors total part reserved .fat16 1 + 2) .fat16 := by
  have hone := one_le_fatSizeFor (dataSectors total part reserved .fat16 1 + 2)
  rw [growFat]
  split
  case isTrue h => exact Nat.le_antisymm hone h
  case isFalse h =>
    rw [growFat, if_pos (fatSizeFor_anti (Nat.le_of_lt (Nat.not_le.mp h)))]

theorem planLayout_eq_some (h : planLayout total part reserved bits = some layout) :
    layout = ⟨bits, growFat total part reserved bits 48 1,
      (dataSectors total part reserved bits (growFat total part reserved bits 48 1)).toNat,
      reserved, rootSectorsOf bits, part⟩ ∧
    4085 ≤ dataSectors total part reserved bits (growFat total part reserved bits 48 1) := by
  rw [planLayout] at h
  simp only [ite_self] at h
  split at h
  · cases h
  · next hmin => exact ⟨(Option.some.inj h).symm, Int.not_lt.mp hmin⟩

theorem fatSet_eq_ok {fat : List UInt8} {index : ℕ} (h : index * 2 + 2 ≤ fat.length) (value : ℕ) :
    ∃ fat', fatSet .fat16 fat index value = .ok fat' :=
  ⟨_, packInto_of_lt (Nat.mod_lt _ (by decide)) h⟩

/-- **Volumes that are planned as they are read** are those with entries of 16 bits and no more
space than 65524 clusters and their tables take. -/
theorem consistent_iff (hbits : bits ≠ .fat32)
    (h : planLayout total part reserved bits = some layout) :
    Consistent total layout ↔ bits = .fat16 ∧ total ≤ part + reserved + 66054 := by
  obtain ⟨rfl, hmin⟩ := planLayout_eq_some h
  cases bits with
  | fat32 => exact absurd rfl hbits
  | fat12 =>
    -- there are too many clusters, whatever the tables
    refine iff_of_false (fun hc => ?_) nofun
    have hlt : (dataSectors total part reserved .fat12
      (growFat total part reserved .fat12 48 1)).toNat < 4085 := hc.classified
    omega
  | fat16 =>
    obtain ⟨hone, hneed⟩ := @growFat_covers total part reserved 1 46 (Nat.le_refl 1)
    rw [fatSizeFor_le_iff hone] at hneed
    have hgrow := growFat_eq total part reserved 46
    simp only [fatSizeFor, dataSectors, rootSectorsOf, sector] at hgrow
    simp only [dataSectors, rootSectorsOf] at hmin hneed
    generalize growFat total part reserved .fat16 48 1 = fatSize at *
    constructor
    · intro hc
      have hmax : (total - part - reserved - 2 * fatSize - 14).toNat ≤ 65524 := hc.classified.2
      refine ⟨rfl, ?_⟩
      omega
    · rintro ⟨-, hle⟩
      refine ⟨?_, fun index hindex fat value hfat => fatSet_eq_ok ?_ value, ?_⟩
      · simp only [dataSectors, rootSectorsOf]
        omega
      · simp only [dataSectors, rootSectorsOf] at hindex hfat
        omega
      · simp only [dataSectors, rootSectorsOf]
        constructor
        · omega
        · omega

/-- The condition on a volume of the size the tool chooses by itself. -/
theorem consistent_iff_small :
    Consistent 4424 ⟨.fat16, 18, 4318, 32, 14, 24⟩ ↔
      FatBits.fat16 = .fat16 ∧ (4424 : ℤ) ≤ (24 : ℕ) + (32 : ℕ) + 66054 :=
  consistent_iff (by decide) (by decide +kernel)

/-- **A volume with 12 bits** is planned where 16 would leave too few clusters. Its tables have 2048
bytes for 4092 clusters, and a reader takes them for 16-bit ones. -/
theorem not_consistent_fat12 :
    planLayout 4171 25 32 .fat16 = none ∧
      planLayout 4171 25 32 .fat12 = some ⟨.fat12, 4, 4092, 32, 14, 25⟩ ∧
      ¬Consistent 4171 ⟨.fat12, 4, 4092, 32, 14, 25⟩ := by
  refine ⟨by decide +kernel, by decide +kernel, fun hc => ?_⟩
  exact absurd (show 4092 < 4085 from hc.classified) (by decide)

end Image

end Qizo
