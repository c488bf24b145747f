import Mathlib.Data.List.Chain
import Mathlib.Data.List.Sort
import Qizo.Layout
import Qizo.Lib.PackedStruct
import Qizo.Lib.Python

/-!
# The bootinfo header

`tools/qizoartifacts/qizobootinfo.py`: the C header through which the kernel reads bootinfo. The
assembly writes each field at the value of a symbol, and the header declares a packed structure
whose members should lie at the same places. Where one field does not begin right behind the one
before it, the script puts padding between them, and it tracks the end of what it has declared.

The symbols are those of `boot/qizoboot.inc`. `parse_inc` has the expressions in there evaluated by
Python; here the result is an arbitrary dictionary.
-/

namespace Qizo

namespace Bootinfo

open PackedStruct Python

/-! ### Symbols -/

/-- The dictionary `v`. A symbol whose expression cannot be evaluated is bound to `None`. -/
structure Symbols where
  /-- The bindings. -/
  entries : List (String × Option ℤ)
  /-- A key is bound once. -/
  nodup : (entries.map Prod.fst).Nodup

namespace Symbols

/-- `v.get(sym)`. -/
def get (v : Symbols) (sym : String) : Option ℤ := (v.entries.lookup sym).join

/-- `v[sym]`, where it is used as a number. -/
def index (v : Symbols) (sym : String) : Except PyError ℤ :=
  match v.get sym with
  | some n => .ok n
  | none => .error .key

/-- The symbols that are defined: `sorted(k for k in v if k.startswith("QIZO_"))`. -/
def sorted (v : Symbols) : List String :=
  ((v.entries.map Prod.fst).filter fun k => "QIZO_".toList.isPrefixOf k.toList).insertionSort
    (· ≤ ·)

end Symbols

/-! ### Fields -/

/-- The types that occur in `FIELDS` and `E820`. -/
inductive FieldType where
  | u8
  | u32
  | u64
  | u8arr16
  | u8arr80
  | e820arr
  deriving DecidableEq, Repr

/-- The type as `FIELDS` has it. -/
def FieldType.name : FieldType → String
  | u8 => "u8"
  | u32 => "u32"
  | u64 => "u64"
  | u8arr16 => "u8arr16"
  | u8arr80 => "u8arr80"
  | e820arr => "e820arr"

/-- `SIZES`. -/
def sizes : FieldType → Option ℤ
  | .u8 => some 1
  | .u32 => some 4
  | .u64 => some 8
  | .u8arr16 => some 16
  | .u8arr80 => some 80
  | .e820arr => none

/-- `ARRS`. -/
def arrs : FieldType → Option (String × ℕ)
  | .u8arr16 => some ("u8", 16)
  | .u8arr80 => some ("u8", 80)
  | _ => none

/-- A line of `FIELDS`. -/
structure Field where
  /-- The type. -/
  type : FieldType
  /-- The name of the member. -/
  name : String
  /-- The symbol whose value is the offset. -/
  sym : String
  deriving DecidableEq, Repr

/-- `FIELDS`. -/
def fields : List Field :=
  [⟨.u32, "magic", "QIZO_BI_MAGIC"⟩,
    ⟨.u8, "drive", "QIZO_BI_DRIVE"⟩,
    ⟨.u8, "mode", "QIZO_BI_MODE"⟩,
    ⟨.u8, "err", "QIZO_BI_ERR"⟩,
    ⟨.u32, "blob_lba", "QIZO_BI_BLOB_LBA"⟩,
    ⟨.u32, "blob_sectors", "QIZO_BI_BLOB_SECTORS"⟩,
    ⟨.u32, "blob_crc", "QIZO_BI_BLOB_CRC"⟩,
    ⟨.u32, "blob_phys", "QIZO_BI_BLOB_PHYS"⟩,
    ⟨.u32, "blob_size", "QIZO_BI_BLOB_SIZE"⟩,
    ⟨.u32, "scratch", "QIZO_BI_SCRATCH"⟩,
    ⟨.u32, "ktext", "QIZO_BI_KTEXT"⟩,
    ⟨.u32, "kernel_size", "QIZO_BI_KERNEL_SIZE"⟩,
    ⟨.u32, "kernel_entry", "QIZO_BI_KERNEL_ENTRY"⟩,
    ⟨.u32, "kernel_total", "QIZO_BI_KERNEL_TOTAL"⟩,
    ⟨.u32, "kernel_bss", "QIZO_BI_KERNEL_BSS"⟩,
    ⟨.u32, "flags", "QIZO_BI_FLAGS"⟩,
    ⟨.u32, "cpus", "QIZO_BI_CPUS"⟩,
    ⟨.u32, "cpuid_max", "QIZO_BI_CPUID_MAX"⟩,
    ⟨.u8, "longmode", "QIZO_BI_LONGMODE"⟩,
    ⟨.u8, "a20", "QIZO_BI_A20"⟩,
    ⟨.e820arr, "map", "QIZO_BI_E820"⟩,
    ⟨.u32, "map_count", "QIZO_BI_E820_N"⟩,
    ⟨.u8arr16, "vendor", "QIZO_BI_VENDOR"⟩,
    ⟨.u8arr80, "brand", "QIZO_BI_BRAND"⟩,
    ⟨.u64, "total_ram", "QIZO_BI_TOTAL_RAM"⟩]

/-- `E820`, with the offset of each member. -/
def e820 : List (FieldType × String × ℕ) :=
  [(.u64, "base", 0), (.u64, "size", 8), (.u32, "type", 16), (.u32, "acpi", 20)]

/-- The symbols that `emit` needs beside those of the fields. -/
def extras : List String :=
  ["QIZO_BI_E820", "QIZO_BI_SIZE", "QIZO_E820_MAX", "QIZO_E820_ENT", "QIZO_KTEXT",
    "QIZO_BOOTINFO", "QIZO_SCRATCH", "QIZO_BLOB_MAX"]

/-! ### The text -/

/-- `decl(t, name, v)`. -/
def decl (v : Symbols) (t : FieldType) (name : String) : Except PyError String :=
  if t = .e820arr then do
    let n ← v.index "QIZO_E820_MAX"
    return "struct qizo_e820 " ++ name ++ "[" ++ toString n ++ "];"
  else
    match arrs t with
    | some (base, n) => .ok (base ++ " " ++ name ++ "[" ++ toString n ++ "];")
    | none => .ok (t.name ++ " " ++ name ++ ";")

/-- `cur` behind a field of type `t` at `off`. -/
def fieldEnd (v : Symbols) (t : FieldType) (off : ℤ) : Except PyError ℤ :=
  if t = .e820arr then do
    let ent ← v.index "QIZO_E820_ENT"
    let max ← v.index "QIZO_E820_MAX"
    return off + ent * max
  else
    match sizes t with
    | some n => .ok (off + n)
    | none => .error .key

/-- The padding in front of the field `name`. -/
def padLines (name : String) (cur off : ℤ) : List String :=
  if cur < off then ["\tu8 pad_" ++ name ++ "[" ++ toString (off - cur) ++ "];"] else []

/-- The members of the structure: `for t, name, sym in FIELDS`, entered at `cur`. -/
def fieldLines (v : Symbols) : List Field → (cur : ℤ) → Except PyError (List String)
  | [], _ => .ok []
  | f :: fs, cur => do
    let off ← v.index f.sym
    raiseIf (off < cur)
      (.exit ("qizo: bootinfo field " ++ f.name ++ " overlaps previous field"))
    let d ← decl v f.type f.name
    let next ← fieldEnd v f.type off
    let rest ← fieldLines v fs next
    return padLines f.name cur off ++ ("\t" ++ d) :: rest

/-- `%X`. -/
def upperHex (n : ℤ) : String :=
  (if n < 0 then "-" else "") ++ .ofList ((Nat.toDigits 16 n.natAbs).map Char.toUpper)

/-- The definitions of the symbols. -/
def defineLines (v : Symbols) : List String :=
  v.sorted.filterMap fun sym =>
    (v.get sym).map fun n => "#define " ++ sym ++ " 0x" ++ upperHex n

/-- The symbols that are missing. -/
def unresolved (v : Symbols) : List String :=
  ((fields.map Field.sym) ++ extras).filter fun sym => v.get sym = none

/-- What is in front of the structures. -/
def preamble (v : Symbols) : List String :=
  ["#pragma once",
    "/* generated by tools/qizoartifacts/qizobootinfo.py from boot/qizoboot.inc */"] ++
    defineLines v ++ [""]

/-- The assertions about `struct qizo_e820`. -/
def e820Asserts : List String :=
  (e820.map fun e => "_Static_assert(__builtin_offsetof(struct qizo_e820, " ++ e.2.1 ++ ") == " ++
    toString e.2.2 ++ ", \"e820 " ++ e.2.1 ++ "\");") ++
    ["_Static_assert(sizeof(struct qizo_e820) == QIZO_E820_ENT, \"e820 size\");"]

/-- The assertions about `struct qizo_bootinfo`. -/
def bootinfoAsserts : List String :=
  (fields.map fun f => "_Static_assert(__builtin_offsetof(struct qizo_bootinfo, " ++ f.name ++
    ") == " ++ f.sym ++ ", \"" ++ f.name ++ "\");") ++
    ["_Static_assert(sizeof(struct qizo_bootinfo) <= QIZO_BI_SIZE, \"bootinfo size\");"]

/-- `emit(inc_path, out_path)`: the lines of the header. The script joins them by line feeds and
returns how many there are. -/
def emit (v : Symbols) : Except PyError (List String) := do
  raiseIf (unresolved v ≠ [])
    (.exit ("qizo: unresolved bootinfo symbols: " ++ ", ".intercalate (unresolved v)))
  let entry ← e820.mapM fun e => do
    let d ← decl v e.1 e.2.1
    return "\t" ++ d
  let members ← fieldLines v fields 0
  return preamble v ++ "struct qizo_e820 \x7b" :: (entry ++ "\x7d __attribute__((packed));" ::
    (e820Asserts ++ [""])) ++ "struct qizo_bootinfo \x7b" ::
      (members ++ "\x7d __attribute__((packed));" :: bootinfoAsserts)

/-! ### Which symbols are accepted -/

/-- The value of a symbol that is not missing. -/
def Symbols.value (v : Symbols) (sym : String) : ℤ := (v.get sym).getD 0

/-- The bytes of a field. -/
def width (v : Symbols) (t : FieldType) : ℤ :=
  (sizes t).getD (v.value "QIZO_E820_ENT" * v.value "QIZO_E820_MAX")

/-- No symbol that `emit` needs is missing. -/
def Resolved (v : Symbols) : Prop := ∀ sym ∈ fields.map Field.sym ++ extras, v.get sym ≠ none

/-- The first field begins at `cur` or behind it, and every other one at the end of the field
before it or behind that. -/
structure InOrder (v : Symbols) (cur : ℤ) (fs : List Field) : Prop where
  first : ∀ f ∈ fs.head?, cur ≤ v.value f.sym
  next : fs.IsChain fun f g => v.value f.sym + width v f.type ≤ v.value g.sym

section Accepted

variable {v : Symbols} {sym : String} {ent max cur : ℤ} {f : Field} {fs : List Field}

theorem value_of_get {n : ℤ} (h : v.get sym = some n) : v.value sym = n := by
  rw [Symbols.value, h, Option.getD_some]

theorem get_eq_value (h : v.get sym ≠ none) : v.get sym = some (v.value sym) := by
  obtain ⟨n, hn⟩ := Option.ne_none_iff_exists'.mp h
  rw [hn, value_of_get hn]

theorem index_of_get {n : ℤ} (h : v.get sym = some n) : v.index sym = .ok n := by
  rw [Symbols.index, h]

theorem inOrder_nil (v : Symbols) (cur : ℤ) : InOrder v cur [] where
  first _ h := nomatch h
  next := .nil

theorem inOrder_cons :
    InOrder v cur (f :: fs) ↔
      cur ≤ v.value f.sym ∧ InOrder v (v.value f.sym + width v f.type) fs := by
  constructor
  · intro h
    obtain ⟨hfirst, hnext⟩ := List.isChain_cons.mp h.next
    exact ⟨h.first f rfl, hfirst, hnext⟩
  · rintro ⟨hle, h⟩
    refine ⟨fun g hg => ?_, List.isChain_cons.mpr ⟨h.first, h.next⟩⟩
    obtain rfl := Option.some.inj hg
    exact hle

theorem exists_decl (hmax : v.get "QIZO_E820_MAX" = some max) (t : FieldType) (name : String) :
    ∃ d, decl v t name = .ok d := by
  cases t with
  | e820arr => exact ⟨_, by rw [decl, if_pos rfl, index_of_get hmax]; rfl⟩
  | _ => exact ⟨_, rfl⟩

theorem fieldEnd_eq (hent : v.get "QIZO_E820_ENT" = some ent)
    (hmax : v.get "QIZO_E820_MAX" = some max) (t : FieldType) (off : ℤ) :
    fieldEnd v t off = .ok (off + width v t) := by
  cases t with
  | e820arr =>
    rw [fieldEnd, if_pos rfl, index_of_get hent, index_of_get hmax, width, value_of_get hent,
      value_of_get hmax]
    rfl
  | _ => rfl

/-- **One field.** -/
theorem fieldLines_cons (hent : v.get "QIZO_E820_ENT" = some ent)
    (hmax : v.get "QIZO_E820_MAX" = some max) (hf : v.get f.sym ≠ none) {d : String}
    (hd : decl v f.type f.name = .ok d) :
    fieldLines v (f :: fs) cur =
      if v.value f.sym < cur then
        .error (.exit ("qizo: bootinfo field " ++ f.name ++ " overlaps previous field"))
      else (fieldLines v fs (v.value f.sym + width v f.type)).map fun rest =>
        padLines f.name cur (v.value f.sym) ++ ("\t" ++ d) :: rest := by
  rw [fieldLines, index_of_get (get_eq_value hf), ok_bind]
  by_cases hlt : v.value f.sym < cur
  · rw [raiseIf, if_pos hlt, if_pos hlt]
    rfl
  · rw [raiseIf_of_not hlt, ok_bind, hd, ok_bind, fieldEnd_eq hent hmax, ok_bind, if_neg hlt]
    rfl

/-- A field that has been declared. -/
theorem of_fieldLines_cons (hent : v.get "QIZO_E820_ENT" = some ent)
    (hmax : v.get "QIZO_E820_MAX" = some max) (hf : v.get f.sym ≠ none) {d : String}
    (hd : decl v f.type f.name = .ok d) {lines : List String}
    (h : fieldLines v (f :: fs) cur = .ok lines) :
    cur ≤ v.value f.sym ∧ ∃ rest,
      fieldLines v fs (v.value f.sym + width v f.type) = .ok rest ∧
        lines = padLines f.name cur (v.value f.sym) ++ ("\t" ++ d) :: rest := by
  rw [fieldLines_cons hent hmax hf hd] at h
  by_cases hlt : v.value f.sym < cur
  · rw [if_pos hlt] at h
    cases h
  · rw [if_neg hlt] at h
    refine ⟨by omega, ?_⟩
    cases hrest : fieldLines v fs (v.value f.sym + width v f.type) with
    | error e =>
      rw [hrest] at h
      cases h
    | ok rest =>
      rw [hrest] at h
      exact ⟨rest, rfl, (Except.ok.inj h).symm⟩

/-- **Fields in order** are declared. -/
theorem exists_fieldLines (hent : v.get "QIZO_E820_ENT" = some ent)
    (hmax : v.get "QIZO_E820_MAX" = some max) (hfs : ∀ f ∈ fs, v.get f.sym ≠ none)
    (h : InOrder v cur fs) : ∃ lines, fieldLines v fs cur = .ok lines := by
  induction fs generalizing cur with
  | nil => exact ⟨[], rfl⟩
  | cons f fs ih =>
    rw [List.forall_mem_cons] at hfs
    obtain ⟨hle, h⟩ := inOrder_cons.mp h
    obtain ⟨d, hd⟩ := exists_decl hmax f.type f.name
    obtain ⟨rest, hrest⟩ := ih hfs.2 h
    rw [fieldLines_cons hent hmax hfs.1 hd, if_neg (by omega), hrest]
    exact ⟨_, rfl⟩

/-- **Others** end the script. -/
theorem exists_exit (hent : v.get "QIZO_E820_ENT" = some ent)
    (hmax : v.get "QIZO_E820_MAX" = some max) (hfs : ∀ f ∈ fs, v.get f.sym ≠ none)
    (h : ¬InOrder v cur fs) : ∃ msg, fieldLines v fs cur = .error (.exit msg) := by
  induction fs generalizing cur with
  | nil => exact absurd (inOrder_nil v cur) h
  | cons f fs ih =>
    rw [List.forall_mem_cons] at hfs
    rw [inOrder_cons] at h
    obtain ⟨d, hd⟩ := exists_decl hmax f.type f.name
    rw [fieldLines_cons hent hmax hfs.1 hd]
    by_cases hlt : v.value f.sym < cur
    · exact ⟨_, if_pos hlt⟩
    · obtain ⟨msg, hmsg⟩ := ih hfs.2 fun h' => h ⟨by omega, h'⟩
      rw [if_neg hlt, hmsg]
      exact ⟨msg, rfl⟩

end Accepted

end Bootinfo

end Qizo
