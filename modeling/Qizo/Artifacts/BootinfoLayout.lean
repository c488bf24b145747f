import Qizo.Artifacts.Bootinfo

/-!
# What the bootinfo header declares

The header is read the way a C compiler reads it: the size of each member comes from the text, and
its offset is the sum of the sizes in front of it. Where the size of the map is not negative, every
field is at the value of its symbol, because the padding makes up exactly for the difference. The
script does not look at the sign of `QIZO_E820_MAX`. If it is negative the text is no structure, and
the end that the script tracks goes back by the size of the map, so that the fields behind it may
lie on those before it.

## Main results

* `mapM_fieldLines` — the members that are read
* `exists_placed` — where the fields are
* `emit_laidOut_iff` — the symbols for which the header is right
-/

namespace Qizo

namespace Bootinfo

open PackedStruct Python

/-! ### Reading the header -/

/-- The integer types of `kernel/qizo.h`. -/
def typedefs (name : String) : Option ℕ :=
  if name = "u8" then some 1
  else if name = "u16" then some 2
  else if name = "u32" then some 4
  else if name = "u64" then some 8
  else none

/-- The size of a type without the structures of the header. -/
def typedefSize : TypeName → Option ℕ
  | .named name => typedefs name
  | .struct _ => none

/-- The size of a type in the header. -/
def sizeIn (lines : List String) : TypeName → Option ℕ
  | .named name => typedefs name
  | .struct tag => (readStruct typedefSize tag lines).map totalSize

/-- `struct qizo_bootinfo` as the header declares it. -/
def bootinfoStruct (lines : List String) : Option (List (Placed String)) :=
  (readStruct (sizeIn lines) "qizo_bootinfo" lines).map (place 0)

/-- **The structure the assembly writes**: every field is where its symbol is, and members are
apart. -/
structure LaidOut (v : Symbols) (ps : List (Placed String)) : Prop where
  placed : ∀ f ∈ fields, ∃ p ∈ ps, p.name = f.name ∧ v.get f.sym = some (p.off : ℤ) ∧
    (p.size : ℤ) = width v f.type
  /-- A name says which member. -/
  names : (ps.map (·.name)).Nodup
  apart : ps.Pairwise fun p q => p.off + p.size ≤ q.off

/-- `emit` exits, or the header has the structure. -/
def ExitsOrLaidOut (v : Symbols) : Prop :=
  (∃ msg, emit v = .error (.exit msg)) ∨
    ∃ lines ps, emit v = .ok lines ∧ bootinfoStruct lines = some ps ∧ LaidOut v ps

/-! ### Declarations -/

/-- The type a field is declared with. -/
def element : FieldType → TypeName
  | .u8 | .u8arr16 | .u8arr80 => .named "u8"
  | .u32 => .named "u32"
  | .u64 => .named "u64"
  | .e820arr => .struct "qizo_e820"

/-- The number of elements a field is declared with. -/
def count (max : ℕ) : FieldType → Option ℕ
  | .u8arr16 => some 16
  | .u8arr80 => some 80
  | .e820arr => some max
  | _ => none

section Declarations

variable {v : Symbols} {n : ℕ} {t : FieldType} {name d : String}

theorem decl_eq_render (hmax : v.get "QIZO_E820_MAX" = some (n : ℤ))
    (hd : decl v t name = .ok d) : "\t" ++ d = Decl.render ⟨element t, name, count n t⟩ := by
  have hcount : toString (n : ℤ) = toString n := rfl
  cases t
  case e820arr =>
    rw [decl, if_pos rfl, index_of_get hmax, ok_bind, hcount] at hd
    obtain rfl := Except.ok.inj hd
    refine String.toList_inj.mp ?_
    simp [Decl.render, TypeName.render, element, count]
  all_goals
    obtain rfl := Except.ok.inj hd
    refine String.toList_inj.mp ?_
    simp [Decl.render, TypeName.render, element, count, FieldType.name]

theorem padLines_eq_render (cur off : ℤ) :
    padLines name cur off =
      if cur < off then [Decl.render ⟨.named "u8", "pad_" ++ name, some (off - cur).toNat⟩]
      else [] := by
  rw [padLines]
  by_cases hlt : cur < off
  · rw [if_pos hlt, if_pos hlt]
    obtain ⟨k, hk⟩ : ∃ k : ℕ, off - cur = k := ⟨(off - cur).toNat, by omega⟩
    have hcount : toString (k : ℤ) = toString k := rfl
    rw [hk, hcount, Int.toNat_natCast]
    refine congrArg (fun s => [s]) (String.toList_inj.mp ?_)
    simp [Decl.render, TypeName.render]
  · rw [if_neg hlt, if_neg hlt]

end Declarations

/-! ### Members -/

/-- The member that fills a gap. -/
def padMembers (name : String) (cur off : ℤ) : List (Member String) :=
  if cur < off then [⟨"pad_" ++ name, (off - cur).toNat⟩] else []

/-- The members for some fields, entered at `cur`. -/
def members (v : Symbols) : List Field → (cur : ℤ) → List (Member String)
  | [], _ => []
  | f :: fs, cur =>
    padMembers f.name cur (v.value f.sym) ++ ⟨f.name, (width v f.type).toNat⟩ ::
      members v fs (v.value f.sym + width v f.type)

/-- The sizes of the types that fields have. -/
structure Sizes (sizeOf : TypeName → Option ℕ) : Prop where
  u8 : sizeOf (.named "u8") = some 1
  u32 : sizeOf (.named "u32") = some 4
  u64 : sizeOf (.named "u64") = some 8
  e820 : sizeOf (.struct "qizo_e820") = some 24

section Members

variable {v : Symbols} {n : ℕ} {max cur off : ℤ} {t : FieldType} {name d : String} {f : Field}
  {fs : List Field} {sizeOf : TypeName → Option ℕ} {lines : List String}

theorem width_nonneg (hent : v.get "QIZO_E820_ENT" = some 24)
    (hmax : v.get "QIZO_E820_MAX" = some (n : ℤ)) (t : FieldType) : 0 ≤ width v t := by
  rw [width, value_of_get hent, value_of_get hmax]
  cases t
  case e820arr => exact Int.mul_nonneg (by decide) (Int.natCast_nonneg n)
  all_goals simp [sizes]

theorem legible_element (t : FieldType) : (element t).Legible := by
  cases t <;> decide

/-- A field that is declared is read, with its size. -/
theorem readMember_decl (hs : Sizes sizeOf) (hent : v.get "QIZO_E820_ENT" = some 24)
    (hmax : v.get "QIZO_E820_MAX" = some (n : ℤ)) (hname : IsIdent name)
    (hd : decl v t name = .ok d) :
    readMember sizeOf ("\t" ++ d) = some ⟨name, (width v t).toNat⟩ := by
  rw [decl_eq_render hmax hd, readMember, readDecl_render (legible_element t) hname]
  dsimp only [Option.bind_eq_bind, Option.bind_some]
  rw [width, value_of_get hent, value_of_get hmax]
  cases t
  case e820arr =>
    rw [element, hs.e820]
    exact congrArg (fun k => some (Member.mk name k)) (by simp [count, sizes]; omega)
  case u32 =>
    rw [element, hs.u32]
    rfl
  case u64 =>
    rw [element, hs.u64]
    rfl
  all_goals
    rw [element, hs.u8]
    rfl

/-- So is padding. -/
theorem mapM_padLines (hs : Sizes sizeOf) (hname : IsIdent name) (cur off : ℤ) :
    (padLines name cur off).mapM (readMember sizeOf) = some (padMembers name cur off) := by
  have hpad : IsIdent ("pad_" ++ name) := by
    intro c hc
    rw [String.toList_append, List.mem_append] at hc
    rcases hc with hc | hc
    · exact (show IsIdent "pad_" by decide) c hc
    · exact hname c hc
  have hu8 : (TypeName.named "u8").Legible := by decide
  rw [padLines_eq_render, padMembers]
  by_cases hlt : cur < off
  · rw [if_pos hlt, if_pos hlt, List.mapM_cons, List.mapM_nil, readMember,
      readDecl_render hu8 hpad]
    dsimp only [Option.bind_eq_bind, Option.bind_some]
    rw [hs.u8]
    dsimp only [Option.bind_some, Option.getD_some]
    rw [Nat.one_mul]
    rfl
  · rw [if_neg hlt, if_neg hlt]
    rfl

/-- **The members that are read.** -/
theorem mapM_fieldLines (hs : Sizes sizeOf) (hent : v.get "QIZO_E820_ENT" = some 24)
    (hmax : v.get "QIZO_E820_MAX" = some (n : ℤ)) (hfs : ∀ f ∈ fs, v.get f.sym ≠ none)
    (hnames : ∀ f ∈ fs, IsIdent f.name) (h : fieldLines v fs cur = .ok lines) :
    lines.mapM (readMember sizeOf) = some (members v fs cur) := by
  induction fs generalizing cur lines with
  | nil =>
    obtain rfl := Except.ok.inj h
    rfl
  | cons f fs ih =>
    rw [List.forall_mem_cons] at hfs hnames
    obtain ⟨d, hd⟩ := exists_decl hmax f.type f.name
    obtain ⟨-, rest, hrest, rfl⟩ := of_fieldLines_cons hent hmax hfs.1 hd h
    rw [List.mapM_append, mapM_padLines hs hnames.1, List.mapM_cons,
      readMember_decl hs hent hmax hnames.1 hd, ih hfs.2 hnames.2 hrest]
    rfl

/-- The padding reaches from the field before to this one. -/
theorem totalSize_padMembers (hle : cur ≤ off) :
    totalSize (padMembers name cur off) = (off - cur).toNat := by
  rw [padMembers]
  split
  · rfl
  · rw [totalSize]
    omega

/-- One field is where its symbol is, and the next ones follow it. -/
theorem place_members_cons (hcur : 0 ≤ cur) (hle : cur ≤ v.value f.sym)
    (hwidth : 0 ≤ width v f.type) :
    place cur.toNat (members v (f :: fs) cur) =
      place cur.toNat (padMembers f.name cur (v.value f.sym)) ++
        ⟨⟨f.name, (width v f.type).toNat⟩, (v.value f.sym).toNat⟩ ::
          place (v.value f.sym + width v f.type).toNat
            (members v fs (v.value f.sym + width v f.type)) := by
  have hoff : cur.toNat + (v.value f.sym - cur).toNat = (v.value f.sym).toNat := by omega
  have hend : (v.value f.sym).toNat + (width v f.type).toNat =
      (v.value f.sym + width v f.type).toNat := by omega
  rw [members, place_append, totalSize_padMembers hle, hoff, place_cons, hend]

/-- **Where the fields are.** The padding and the fields so far end at `cur`. -/
theorem exists_placed (hent : v.get "QIZO_E820_ENT" = some 24)
    (hmax : v.get "QIZO_E820_MAX" = some (n : ℤ)) (hcur : 0 ≤ cur) (h : InOrder v cur fs) :
    ∀ f ∈ fs, ∃ p ∈ place cur.toNat (members v fs cur), p.name = f.name ∧
      (p.off : ℤ) = v.value f.sym ∧ (p.size : ℤ) = width v f.type := by
  induction fs generalizing cur with
  | nil => exact fun f hf => nomatch hf
  | cons f fs ih =>
    obtain ⟨hle, h⟩ := inOrder_cons.mp h
    have hwidth := width_nonneg hent hmax f.type
    rw [place_members_cons hcur hle hwidth, List.forall_mem_cons]
    refine ⟨⟨_, List.mem_append_right _ List.mem_cons_self, rfl, by simp; omega, by simp; omega⟩,
      fun g hg => ?_⟩
    obtain ⟨p, hp, hplaced⟩ := ih (by omega) h g hg
    exact ⟨p, List.mem_append_right _ (List.mem_cons_of_mem _ hp), hplaced⟩

/-- The names the members can have. -/
theorem map_name_members (v : Symbols) (fs : List Field) (cur : ℤ) :
    ((members v fs cur).map Member.name).Sublist
      (fs.flatMap fun f => ["pad_" ++ f.name, f.name]) := by
  induction fs generalizing cur with
  | nil => exact .slnil
  | cons f fs ih =>
    rw [members, padMembers, List.flatMap_cons]
    split
    · exact .cons_cons _ (.cons_cons _ (ih _))
    · exact .cons _ (.cons_cons _ (ih _))

end Members

/-! ### A map of negative size -/

section Negative

variable {v : Symbols} {max cur : ℤ} {t : FieldType} {name d : String} {f : Field}
  {fs : List Field} {sizeOf : TypeName → Option ℕ} {lines : List String}

/-- A map of negative size is no declaration. -/
theorem readMember_eq_none (hmax : v.get "QIZO_E820_MAX" = some max) (hneg : max < 0)
    (hname : IsIdent name) (hd : decl v .e820arr name = .ok d) :
    readMember sizeOf ("\t" ++ d) = none := by
  obtain ⟨k, rfl⟩ := Int.eq_negSucc_of_lt_zero hneg
  have hminus : toString (Int.negSucc k) = "-" ++ toString (k + 1) := rfl
  rw [decl, if_pos rfl, index_of_get hmax, ok_bind, hminus] at hd
  obtain rfl := Except.ok.inj hd
  have htype : (TypeName.struct "qizo_e820").Legible := by decide
  have hline : ("\t" ++ ("struct qizo_e820 " ++ name ++ "[" ++ ("-" ++ toString (k + 1)) ++
      "];")).toList = '\t' :: ((TypeName.struct "qizo_e820").render.toList ++
        ' ' :: (name.toList ++ '[' :: '-' :: (Nat.toDigits 10 (k + 1) ++ [']', ';']))) := by
    simp [TypeName.render]
  rw [readMember, readDecl_of_toList htype hname rfl hline, readCount_eq_none rfl]
  rfl

/-- **One line is no member.** -/
theorem mapM_fieldLines_eq_none {ent : ℤ} (hent : v.get "QIZO_E820_ENT" = some ent)
    (hmax : v.get "QIZO_E820_MAX" = some max) (hneg : max < 0)
    (hfs : ∀ f ∈ fs, v.get f.sym ≠ none) (hf : f ∈ fs) (htype : f.type = .e820arr)
    (hname : IsIdent f.name) (h : fieldLines v fs cur = .ok lines) :
    lines.mapM (readMember sizeOf) = none := by
  suffices hline : ∃ line ∈ lines, readMember sizeOf line = none by
    obtain ⟨line, hmem, hnone⟩ := hline
    exact mapM_readMember_eq_none hmem hnone
  induction fs generalizing cur lines with
  | nil => cases hf
  | cons g fs ih =>
    rw [List.forall_mem_cons] at hfs
    obtain ⟨d, hd⟩ := exists_decl hmax g.type g.name
    obtain ⟨-, rest, hrest, rfl⟩ := of_fieldLines_cons hent hmax hfs.1 hd h
    rcases List.mem_cons.mp hf with rfl | hf
    · rw [htype] at hd
      exact ⟨_, List.mem_append_right _ List.mem_cons_self, readMember_eq_none hmax hneg hname hd⟩
    · obtain ⟨line, hmem, hnone⟩ := ih hfs.2 hf hrest
      exact ⟨line, List.mem_append_right _ (List.mem_cons_of_mem _ hmem), hnone⟩

end Negative

/-! ### The header -/

section Header

variable {v : Symbols} {ent max cur : ℤ} {fs : List Field} {lines body : List String}

/-- Every line of a structure but the last one is indented. -/
theorem ne_closing_of_tab {line : String} (h : line.toList.head? = some '\t') :
    line ≠ closing := by
  rintro rfl
  exact absurd h (by decide)

theorem fieldLines_ne_closing (hent : v.get "QIZO_E820_ENT" = some ent)
    (hmax : v.get "QIZO_E820_MAX" = some max) (hfs : ∀ f ∈ fs, v.get f.sym ≠ none)
    (h : fieldLines v fs cur = .ok lines) : ∀ line ∈ lines, line ≠ closing := by
  induction fs generalizing cur lines with
  | nil =>
    obtain rfl := Except.ok.inj h
    exact fun line hline => nomatch hline
  | cons f fs ih =>
    rw [List.forall_mem_cons] at hfs
    obtain ⟨d, hd⟩ := exists_decl hmax f.type f.name
    obtain ⟨-, rest, hrest, rfl⟩ := of_fieldLines_cons hent hmax hfs.1 hd h
    intro line hline
    rcases List.mem_append.mp hline with hline | hline
    · rw [padLines] at hline
      split at hline
      · obtain rfl := List.mem_singleton.mp hline
        exact ne_closing_of_tab (by simp)
      · cases hline
    · rcases List.mem_cons.mp hline with rfl | hline
      · exact ne_closing_of_tab (by simp)
      · exact ih hfs.2 hrest line hline

/-- The members of `struct qizo_e820`. -/
def entryLines : List String := ["\tu64 base;", "\tu64 size;", "\tu32 type;", "\tu32 acpi;"]

/-- The lines in front of the structure. -/
def front (v : Symbols) : List String :=
  preamble v ++ "struct qizo_e820 \x7b" :: (entryLines ++ "\x7d __attribute__((packed));" ::
    (e820Asserts ++ [""]))

/-- The header for members that are declared. -/
def header (v : Symbols) (body : List String) : List String :=
  front v ++ "struct qizo_bootinfo \x7b" ::
    (body ++ "\x7d __attribute__((packed));" :: bootinfoAsserts)

theorem emit_of_resolved (h : Resolved v) :
    emit v = (fieldLines v fields 0).map (header v) := by
  have hnone : unresolved v = [] := by
    rw [unresolved, List.filter_eq_nil_iff]
    exact fun sym hsym => by simpa using h sym hsym
  have hentry : (e820.mapM fun e => do
      let d ← decl v e.1 e.2.1
      return "\t" ++ d) = .ok entryLines := rfl
  rw [emit, raiseIf_of_not (not_not.mpr hnone), ok_bind, hentry, ok_bind]
  cases fieldLines v fields 0 <;> rfl

theorem emit_eq_error (h : Resolved v) {e : PyError} :
    emit v = .error e ↔ fieldLines v fields 0 = .error e := by
  rw [emit_of_resolved h]
  cases fieldLines v fields 0 with
  | error e' => rfl
  | ok body =>
    constructor
    all_goals
      intro h
      cases h

theorem exists_exit_of_not_resolved (h : ¬Resolved v) : ∃ msg, emit v = .error (.exit msg) := by
  have hsome : unresolved v ≠ [] := by
    intro hnone
    rw [unresolved, List.filter_eq_nil_iff] at hnone
    exact h fun sym hsym => by simpa using hnone sym hsym
  rw [emit, raiseIf, if_pos hsome]
  exact ⟨_, rfl⟩

/-- A definition is a line of its own kind. -/
theorem head_of_mem_defineLines {line : String} (h : line ∈ defineLines v) :
    line.toList.head? = some '#' := by
  obtain ⟨sym, -, hsym⟩ := List.mem_filterMap.mp h
  obtain ⟨n, -, rfl⟩ := Option.map_eq_some_iff.mp hsym
  simp

theorem ne_opening_of_mem_preamble {line tag : String} (h : line ∈ preamble v) :
    line ≠ opening tag := by
  rintro rfl
  simp only [preamble, List.mem_append, List.mem_cons, List.not_mem_nil, or_false] at h
  have hhead : (opening tag).toList.head? = some 's' := by simp [opening]
  rcases h with ((h | h) | h) | h
  case inl.inr =>
    rw [head_of_mem_defineLines h] at hhead
    exact absurd hhead (by decide)
  all_goals
    rw [h] at hhead
    exact absurd hhead (by decide)

/-- No line in front of the structure looks like its first one. -/
theorem ne_opening_of_mem_front {line : String} (h : line ∈ front v) :
    line ≠ opening "qizo_bootinfo" := by
  have hrest : ∀ l ∈ "struct qizo_e820 \x7b" :: (entryLines ++
      "\x7d __attribute__((packed));" :: (e820Asserts ++ [""])), l ≠ opening "qizo_bootinfo" := by
    decide +kernel
  rcases List.mem_append.mp h with h | h
  · exact ne_opening_of_mem_preamble h
  · exact hrest line h

theorem sizes_header (v : Symbols) (body : List String) : Sizes (sizeIn (header v body)) where
  u8 := rfl
  u32 := rfl
  u64 := rfl
  e820 := by
    have hne : ∀ line ∈ entryLines, line ≠ closing := by decide
    have hread : entryLines.mapM (readMember typedefSize) =
        some [⟨"base", 8⟩, ⟨"size", 8⟩, ⟨"type", 4⟩, ⟨"acpi", 4⟩] := by decide +kernel
    have hheader : ∃ rest, header v body =
        preamble v ++ opening "qizo_e820" :: (entryLines ++ closing :: rest) := by
      rw [header, front, List.append_assoc, List.cons_append, List.append_assoc, List.cons_append]
      exact ⟨_, rfl⟩
    obtain ⟨rest, hrest⟩ := hheader
    rw [sizeIn, hrest, readStruct_append fun _ => ne_opening_of_mem_preamble,
      readMembers_append hne, hread]
    rfl

/-- **The structure in the header.** -/
theorem bootinfoStruct_header (hbody : ∀ line ∈ body, line ≠ closing) :
    bootinfoStruct (header v body) =
      ((body.mapM (readMember (sizeIn (header v body)))).bind fun ms =>
        if (ms.map Member.name).Nodup then some ms else none).map (place 0) := by
  have hheader : header v body =
      front v ++ opening "qizo_bootinfo" :: (body ++ closing :: bootinfoAsserts) := rfl
  rw [bootinfoStruct]
  generalize sizeIn (header v body) = sizeOf
  rw [hheader, readStruct_append fun _ => ne_opening_of_mem_front, readMembers_append hbody]

end Header

/-! ### The result -/

section Result

variable {v : Symbols} {max : ℤ} {lines : List String}

theorem Resolved.of_field (h : Resolved v) : ∀ f ∈ fields, v.get f.sym ≠ none :=
  fun f hf => h f.sym (List.mem_append_left _ (List.mem_map_of_mem hf))

theorem Resolved.get_ent (h : Resolved v) :
    v.get "QIZO_E820_ENT" = some (v.value "QIZO_E820_ENT") :=
  get_eq_value (h _ (by decide))

theorem Resolved.get_max (h : Resolved v) :
    v.get "QIZO_E820_MAX" = some (v.value "QIZO_E820_MAX") :=
  get_eq_value (h _ (by decide))

theorem isIdent_fields : ∀ f ∈ fields, IsIdent f.name := by decide +kernel

/-- No two members have the same name. -/
theorem nodup_names (v : Symbols) (cur : ℤ) :
    ((members v fields cur).map Member.name).Nodup := by
  have hall : (fields.flatMap fun f => ["pad_" ++ f.name, f.name]).Nodup := by decide +kernel
  exact hall.sublist (map_name_members v fields cur)

/-- **A map of a size that is not negative** is laid out. -/
theorem laidOut_of_nonneg (hres : Resolved v) (hent : v.get "QIZO_E820_ENT" = some 24)
    (hmax : 0 ≤ v.value "QIZO_E820_MAX") (h : InOrder v 0 fields) :
    ∃ lines ps, emit v = .ok lines ∧ bootinfoStruct lines = some ps ∧ LaidOut v ps := by
  have hget : v.get "QIZO_E820_MAX" = some ((v.value "QIZO_E820_MAX").toNat : ℤ) := by
    rw [Int.toNat_of_nonneg hmax]
    exact hres.get_max
  obtain ⟨body, hbody⟩ := exists_fieldLines hent hget hres.of_field h
  have hclosing := fieldLines_ne_closing hent hget hres.of_field hbody
  have hread := mapM_fieldLines (sizes_header v body) hent hget hres.of_field isIdent_fields hbody
  refine ⟨header v body, place 0 (members v fields 0), ?_, ?_, ?_, ?_, pairwise_place _ _⟩
  · rw [emit_of_resolved hres, hbody]
    rfl
  · rw [bootinfoStruct_header hclosing, hread, Option.bind_some, if_pos (nodup_names v 0)]
    rfl
  · intro f hf
    obtain ⟨p, hp, hname, hoff, hsize⟩ := exists_placed hent hget (Int.le_refl 0) h f hf
    exact ⟨p, hp, hname, hoff ▸ get_eq_value (hres.of_field f hf), hsize⟩
  · rw [map_name_place]
    exact nodup_names v 0

/-- **A map of negative size** is not. -/
theorem bootinfoStruct_eq_none (hres : Resolved v) (hmax : v.value "QIZO_E820_MAX" < 0)
    (h : emit v = .ok lines) : bootinfoStruct lines = none := by
  have hent := hres.get_ent
  have hmap : (⟨.e820arr, "map", "QIZO_BI_E820"⟩ : Field) ∈ fields := by decide
  rw [emit_of_resolved hres] at h
  cases hbody : fieldLines v fields 0 with
  | error e =>
    rw [hbody] at h
    cases h
  | ok body =>
    rw [hbody] at h
    obtain rfl := Except.ok.inj h
    rw [bootinfoStruct_header (fieldLines_ne_closing hent hres.get_max hres.of_field hbody),
      mapM_fieldLines_eq_none hent hres.get_max hmax hres.of_field hmap rfl
        (isIdent_fields _ hmap) hbody]
    rfl

/-- **When the header is right.** The script exits where a symbol is missing or the fields are not
in order. Otherwise there is a header, and it declares the structure exactly if the map does not
have a negative size. -/
theorem emit_laidOut_iff (hent : v.get "QIZO_E820_ENT" = some 24) :
    ExitsOrLaidOut v ↔ (Resolved v → InOrder v 0 fields → 0 ≤ v.value "QIZO_E820_MAX") := by
  constructor
  · intro h hres horder
    by_contra hneg
    rcases h with ⟨msg, hexit⟩ | ⟨lines, ps, hlines, hps, -⟩
    · obtain ⟨body, hbody⟩ := exists_fieldLines hent hres.get_max hres.of_field horder
      rw [emit_of_resolved hres, hbody] at hexit
      cases hexit
    · rw [bootinfoStruct_eq_none hres (Int.not_le.mp hneg) hlines] at hps
      cases hps
  · intro h
    by_cases hres : Resolved v
    · by_cases horder : InOrder v 0 fields
      · exact .inr (laidOut_of_nonneg hres hent (h hres horder) horder)
      · obtain ⟨msg, hmsg⟩ := exists_exit hent hres.get_max hres.of_field horder
        exact .inl ⟨msg, (emit_eq_error hres).mpr hmsg⟩
    · exact .inl (exists_exit_of_not_resolved hres)

end Result

/-! ### The symbols of the repository -/

/-- The symbols of `boot/qizoboot.inc` that a field or a check of `emit` names. The others are
only defined again in the header. -/
def qizobootInc : List (String × ℕ) :=
  [("QIZO_BLOB_MAX", blobMax), ("QIZO_BOOTINFO", bootinfo), ("QIZO_SCRATCH", scratch),
    ("QIZO_KTEXT", ktext), ("QIZO_BI_MAGIC", biMagic), ("QIZO_BI_DRIVE", biDrive),
    ("QIZO_BI_MODE", biMode), ("QIZO_BI_ERR", biErr), ("QIZO_BI_BLOB_LBA", biBlobLba),
    ("QIZO_BI_BLOB_SECTORS", biBlobSectors), ("QIZO_BI_BLOB_CRC", biBlobCrc),
    ("QIZO_BI_BLOB_PHYS", biBlobPhys), ("QIZO_BI_BLOB_SIZE", biBlobSize),
    ("QIZO_BI_SCRATCH", biScratch), ("QIZO_BI_KTEXT", biKtext),
    ("QIZO_BI_KERNEL_SIZE", biKernelSize), ("QIZO_BI_KERNEL_ENTRY", biKernelEntry),
    ("QIZO_BI_KERNEL_TOTAL", biKernelTotal), ("QIZO_BI_KERNEL_BSS", biKernelBss),
    ("QIZO_BI_FLAGS", biFlags), ("QIZO_BI_CPUS", biCpus), ("QIZO_BI_CPUID_MAX", biCpuidMax),
    ("QIZO_BI_LONGMODE", biLongmode), ("QIZO_BI_A20", biA20), ("QIZO_BI_E820", biE820),
    ("QIZO_BI_E820_N", biE820N), ("QIZO_BI_VENDOR", biVendor), ("QIZO_BI_BRAND", biBrand),
    ("QIZO_BI_TOTAL_RAM", biTotalRam), ("QIZO_BI_SIZE", biSize), ("QIZO_E820_ENT", e820Ent),
    ("QIZO_E820_MAX", e820Max)]

/-- Its dictionary. -/
def qizoboot : Symbols where
  entries := qizobootInc.map fun e => (e.1, some (e.2 : ℤ))
  nodup := by decide +kernel

/-- A dictionary with another number for a symbol. -/
def Symbols.rebind (v : Symbols) (sym : String) (n : ℤ) : Symbols where
  entries := v.entries.map fun e => (e.1, if e.1 = sym then some n else e.2)
  nodup := by
    rw [List.map_map]
    exact v.nodup

/-- The kernel reads every field where the assembly writes it. -/
theorem exists_laidOut_qizoboot : ∃ lines ps,
    emit qizoboot = .ok lines ∧ bootinfoStruct lines = some ps ∧ LaidOut qizoboot ps := by
  have hent : qizoboot.get "QIZO_E820_ENT" = some 24 := by decide +kernel
  have hmax : qizoboot.get "QIZO_E820_MAX" = some 32 := by decide +kernel
  have hres : Resolved qizoboot := by unfold Resolved; decide +kernel
  have horder : InOrder qizoboot 0 fields :=
    ⟨by decide +kernel, by decide +kernel⟩
  obtain ⟨msg, hexit⟩ | h := (emit_laidOut_iff hent).mpr fun _ _ => by
    rw [value_of_get hmax]
    decide
  · obtain ⟨body, hbody⟩ := exists_fieldLines hent hmax hres.of_field horder
    rw [emit_eq_error hres, hbody] at hexit
    cases hexit
  · exact h

/-- A map of size `-1`, and its count behind it: in the middle of `kernel_bss`. -/
def crossed : Symbols :=
  ((qizoboot.rebind "QIZO_E820_MAX" (-1)).rebind "QIZO_BI_E820" 0x5A).rebind "QIZO_BI_E820_N" 0x42

/-- **Fields that overlap** are declared. -/
theorem not_exitsOrLaidOut_crossed :
    crossed.get "QIZO_E820_ENT" = some 24 ∧ (∃ lines, emit crossed = .ok lines) ∧
      crossed.get "QIZO_BI_KERNEL_BSS" = some 0x40 ∧ crossed.get "QIZO_BI_E820_N" = some 0x42 ∧
        ¬ExitsOrLaidOut crossed := by
  have hent : crossed.get "QIZO_E820_ENT" = some 24 := by decide +kernel
  have hmax : crossed.get "QIZO_E820_MAX" = some (-1) := by decide +kernel
  have hres : Resolved crossed := by unfold Resolved; decide +kernel
  have horder : InOrder crossed 0 fields := ⟨by decide +kernel, by decide +kernel⟩
  obtain ⟨body, hbody⟩ := exists_fieldLines hent hmax hres.of_field horder
  have hemit : emit crossed = .ok (header crossed body) := by
    rw [emit_of_resolved hres, hbody]
    rfl
  refine ⟨hent, ⟨_, hemit⟩, by decide +kernel, by decide +kernel, ?_⟩
  rintro (⟨msg, hexit⟩ | ⟨lines, ps, hlines, hps, -⟩)
  · rw [hemit] at hexit
    cases hexit
  · have hneg : crossed.value "QIZO_E820_MAX" < 0 := by
      rw [value_of_get hmax]
      decide
    rw [bootinfoStruct_eq_none hres hneg hlines] at hps
    cases hps

end Bootinfo

end Qizo
