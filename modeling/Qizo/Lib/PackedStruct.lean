import Mathlib.Data.List.Sublists
import Mathlib.Data.List.TakeWhile

/-!
# Packed structures

A packed structure puts each member directly behind the one before it, so that where a member
starts is a sum of sizes. `place` computes these sums; the members it puts down are in order and
apart (`pairwise_place`).

The second half reads such a structure from the text of a C header that declares one member a line.
A number of elements is a decimal numeral, and zero is one, as it is for GNU C; anything else in
the brackets is no declaration. The reader takes back what `Decl.render` writes.

## Main results

* `pairwise_place` — members are apart
* `readDecl_render` — a declaration that is written is read
* `readStruct_append` — so is a structure, wherever it stands in the header
-/

namespace PackedStruct

/-! ### Offsets -/

/-- A member: its name and its size in bytes. -/
structure Member (α : Type*) where
  /-- The name. -/
  name : α
  /-- The size. -/
  size : ℕ
  deriving DecidableEq, Repr

/-- A member where it is. -/
structure Placed (α : Type*) extends Member α where
  /-- The first byte of the member. -/
  off : ℕ
  deriving DecidableEq, Repr

/-- Put the members down, the first one at `off`. -/
def place {α : Type*} (off : ℕ) : List (Member α) → List (Placed α)
  | [] => []
  | m :: ms => ⟨m, off⟩ :: place (off + m.size) ms

/-- The size of all members together. -/
def totalSize {α : Type*} : List (Member α) → ℕ
  | [] => 0
  | m :: ms => m.size + totalSize ms

section Offsets

variable {α : Type*} {off : ℕ} {ms : List (Member α)} {p : Placed α}

@[simp] theorem place_nil (off : ℕ) : place off ([] : List (Member α)) = [] := rfl

@[simp] theorem place_cons (off : ℕ) (m : Member α) (ms : List (Member α)) :
    place off (m :: ms) = ⟨m, off⟩ :: place (off + m.size) ms := rfl

/-- Where the members of the second list are depends on the size of the first alone. -/
theorem place_append (off : ℕ) (ms ms' : List (Member α)) :
    place off (ms ++ ms') = place off ms ++ place (off + totalSize ms) ms' := by
  induction ms generalizing off with
  | nil => rfl
  | cons m ms ih => rw [List.cons_append, place_cons, ih, place_cons, totalSize, Nat.add_assoc,
      List.cons_append]

theorem le_off_of_mem_place (h : p ∈ place off ms) : off ≤ p.off := by
  induction ms generalizing off with
  | nil => cases h
  | cons m ms ih =>
    rcases List.mem_cons.mp h with rfl | h
    · exact Nat.le_refl _
    · exact Nat.le_trans (Nat.le_add_right _ _) (ih h)

/-- **Members are apart.** -/
theorem pairwise_place (off : ℕ) (ms : List (Member α)) :
    (place off ms).Pairwise fun p q => p.off + p.size ≤ q.off := by
  induction ms generalizing off with
  | nil => exact .nil
  | cons m ms ih => exact .cons (fun q hq => le_off_of_mem_place hq) (ih _)

@[simp] theorem map_name_place (off : ℕ) (ms : List (Member α)) :
    (place off ms).map (·.name) = ms.map (·.name) := by
  induction ms generalizing off with
  | nil => rfl
  | cons m ms ih => rw [place_cons, List.map_cons, List.map_cons, ih]

end Offsets

/-! ### Declarations -/

/-- The type a member is declared with. -/
inductive TypeName where
  /-- A type with a name of its own. -/
  | named (name : String)
  /-- A structure. -/
  | struct (tag : String)
  deriving DecidableEq, Repr

/-- A declaration of a member, or of an array of members. -/
structure Decl where
  /-- The type of the member, or of one element. -/
  type : TypeName
  /-- The name. -/
  name : String
  /-- The number of elements. -/
  count : Option ℕ
  deriving DecidableEq, Repr

/-- A character of an identifier. -/
def isIdent (c : Char) : Bool := c.isAlphanum || c == '_'

/-- A type as it is written. -/
def TypeName.render : TypeName → String
  | named name => name
  | struct tag => "struct " ++ tag

/-- A declaration as it is written, in a line of its own. -/
def Decl.render (d : Decl) : String :=
  "\t" ++ d.type.render ++ " " ++ d.name ++
    (match d.count with
      | none => ""
      | some n => "[" ++ toString n ++ "]") ++ ";"

/-- An identifier and what is behind it. -/
def word (s : List Char) : List Char × List Char := (s.takeWhile isIdent, s.dropWhile isIdent)

/-- What is behind the character `c`. -/
def expect (c : Char) : List Char → Option (List Char)
  | [] => none
  | x :: s => if x = c then some s else none

/-- A type and what is behind it. -/
def readType (s : List Char) : Option (TypeName × List Char) :=
  if (word s).1 = "struct".toList then do
    let r ← expect ' ' (word s).2
    return (.struct (.ofList (word r).1), (word r).2)
  else some (.named (.ofList (word s).1), (word s).2)

/-- What may stand behind the name of a member: nothing, or a number of elements. -/
def readCount (s : List Char) : Option (Option ℕ) :=
  if s = [';'] then some none
  else do
    let s ← expect '[' s
    let digits := s.takeWhile Char.isDigit
    let n := Nat.ofDigitChars 10 digits 0
    if Nat.toDigits 10 n = digits ∧ s.dropWhile Char.isDigit = [']', ';'] then some (some n)
    else none

/-- A declaration in a line of its own. -/
def readDecl (line : String) : Option Decl := do
  let s ← expect '\t' line.toList
  let (type, s) ← readType s
  let s ← expect ' ' s
  let count ← readCount (word s).2
  return ⟨type, .ofList (word s).1, count⟩

/-- An identifier. -/
def IsIdent (s : String) : Prop := ∀ c ∈ s.toList, isIdent c

/-- Only the characters of the string are looked at. -/
instance (s : String) : Decidable (IsIdent s) := List.decidableBAll (fun c => isIdent c) s.toList

/-- A type that can be read back. -/
def TypeName.Legible : TypeName → Prop
  | named name => IsIdent name ∧ name ≠ "struct"
  | struct tag => IsIdent tag

instance : (t : TypeName) → Decidable t.Legible
  | .named name => inferInstanceAs (Decidable (IsIdent name ∧ name ≠ "struct"))
  | .struct tag => inferInstanceAs (Decidable (IsIdent tag))

section Reading

variable {w r : List Char} {c : Char} {t : TypeName}

@[simp] theorem expect_cons_self (c : Char) (s : List Char) : expect c (c :: s) = some s :=
  if_pos rfl

theorem word_append (hw : ∀ c ∈ w, isIdent c) (hc : isIdent c = false) :
    word (w ++ c :: r) = (w, c :: r) := by
  rw [word, List.takeWhile_append_of_pos hw, List.dropWhile_append_of_pos hw,
    List.takeWhile_cons_of_neg (by simp [hc]), List.dropWhile_cons_of_neg (by simp [hc]),
    List.append_nil]

theorem readType_render (ht : t.Legible) :
    readType (t.render.toList ++ ' ' :: r) = some (t, ' ' :: r) := by
  cases t with
  | named name =>
    have hne : name.toList ≠ "struct".toList := fun h => ht.2 (String.toList_inj.mp h)
    rw [readType, TypeName.render, word_append ht.1 rfl, if_neg hne, String.ofList_toList]
  | struct tag =>
    have hword : word (("struct " ++ tag).toList ++ ' ' :: r) =
        ("struct".toList, ' ' :: (tag.toList ++ ' ' :: r)) := by
      rw [String.toList_append, List.append_assoc]
      exact word_append (show IsIdent "struct" by decide) rfl
    have htag : word (tag.toList ++ ' ' :: r) = (tag.toList, ' ' :: r) := word_append ht rfl
    rw [readType, TypeName.render, hword, if_pos rfl, expect_cons_self]
    dsimp only [Option.bind_eq_bind, Option.bind_some]
    rw [htag, String.ofList_toList]
    rfl

theorem readCount_array (n : ℕ) :
    readCount ('[' :: (Nat.toDigits 10 n ++ [']', ';'])) = some (some n) := by
  have hdigits : ∀ c ∈ Nat.toDigits 10 n, c.isDigit := fun c hc =>
    Nat.isDigit_of_mem_toDigits (by decide) (by decide) hc
  rw [readCount, if_neg (by simp), expect_cons_self]
  dsimp only [Option.bind_eq_bind, Option.bind_some]
  rw [List.takeWhile_append_of_pos hdigits, List.dropWhile_append_of_pos hdigits,
    List.takeWhile_cons_of_neg (by decide), List.dropWhile_cons_of_neg (by decide),
    List.append_nil, Nat.ofDigitChars_ten_toDigits, if_pos ⟨rfl, rfl⟩]

/-- A number that does not begin with a digit is none. -/
theorem readCount_eq_none (hc : c.isDigit = false) : readCount ('[' :: c :: r) = none := by
  have hempty : (c :: r).takeWhile Char.isDigit = [] := List.takeWhile_cons_of_neg (by simp [hc])
  rw [readCount, if_neg (by simp), expect_cons_self]
  dsimp only [Option.bind_eq_bind, Option.bind_some]
  rw [hempty, if_neg (by simp)]

/-- The text of a line, up to what is behind the name. -/
theorem readDecl_of_toList {line name : String} (ht : t.Legible) (hname : IsIdent name)
    (hc : isIdent c = false)
    (hline : line.toList = '\t' :: (t.render.toList ++ ' ' :: (name.toList ++ c :: r))) :
    readDecl line = (readCount (c :: r)).map fun count => ⟨t, name, count⟩ := by
  rw [readDecl, hline, expect_cons_self]
  dsimp only [Option.bind_eq_bind, Option.bind_some]
  rw [readType_render ht]
  dsimp only [Option.bind_eq_bind, Option.bind_some]
  rw [expect_cons_self]
  dsimp only [Option.bind_eq_bind, Option.bind_some]
  rw [word_append hname hc, String.ofList_toList]
  cases readCount (c :: r) <;> rfl

/-- **A declaration that is written is read.** -/
theorem readDecl_render {d : Decl} (ht : d.type.Legible) (hname : IsIdent d.name) :
    readDecl d.render = some d := by
  obtain ⟨type, name, count⟩ := d
  dsimp only at ht hname
  -- behind the name there is a semicolon or a bracket, and neither is a part of it
  have htail : ∃ c r, isIdent c = false ∧ readCount (c :: r) = some count ∧
      (Decl.render ⟨type, name, count⟩).toList =
        '\t' :: (type.render.toList ++ ' ' :: (name.toList ++ c :: r)) := by
    cases count with
    | none => exact ⟨';', [], rfl, rfl, by simp [Decl.render]⟩
    | some n => exact ⟨'[', _, rfl, readCount_array n, by simp [Decl.render]⟩
  obtain ⟨c, r, hc, hcount, htext⟩ := htail
  rw [readDecl_of_toList ht hname hc htext, hcount]
  rfl

end Reading

/-! ### Structures -/

/-- The line a structure begins with. -/
def opening (tag : String) : String := "struct " ++ tag ++ " \x7b"

/-- The line a packed structure ends with. -/
def closing : String := "\x7d __attribute__((packed));"

/-- The member a line declares. -/
def readMember (sizeOf : TypeName → Option ℕ) (line : String) : Option (Member String) := do
  let d ← readDecl line
  let n ← sizeOf d.type
  return ⟨d.name, n * d.count.getD 1⟩

/-- The members up to the end of the structure. -/
def readMembers (sizeOf : TypeName → Option ℕ) : List String → Option (List (Member String))
  | [] => none
  | line :: lines =>
    if line = closing then some []
    else do
      let m ← readMember sizeOf line
      let ms ← readMembers sizeOf lines
      return m :: ms

/-- The members of the structure `tag`. No two have the same name. -/
def readStruct (sizeOf : TypeName → Option ℕ) (tag : String) (lines : List String) :
    Option (List (Member String)) := do
  let ms ← readMembers sizeOf ((lines.dropWhile (· ≠ opening tag)).tail)
  if (ms.map Member.name).Nodup then some ms else none

section Structures

variable {sizeOf : TypeName → Option ℕ} {tag line : String} {lines rest pre : List String}

/-- Up to the end every line declares a member. -/
theorem readMembers_append (hne : ∀ l ∈ lines, l ≠ closing) :
    readMembers sizeOf (lines ++ closing :: rest) = lines.mapM (readMember sizeOf) := by
  induction lines with
  | nil => rw [List.nil_append, readMembers, if_pos rfl, List.mapM_nil]; rfl
  | cons l lines ih =>
    rw [List.forall_mem_cons] at hne
    rw [List.cons_append, readMembers, if_neg hne.1, ih hne.2, List.mapM_cons]

/-- One line that declares nothing is enough. -/
theorem mapM_readMember_eq_none (hl : line ∈ lines) (hm : readMember sizeOf line = none) :
    lines.mapM (readMember sizeOf) = none := by
  induction lines with
  | nil => cases hl
  | cons l lines ih =>
    rw [List.mapM_cons]
    rcases List.mem_cons.mp hl with rfl | hl
    · rw [hm]
      rfl
    · rw [ih hl]
      cases readMember sizeOf l <;> rfl

/-- **A structure in a header.** -/
theorem readStruct_append (hpre : ∀ l ∈ pre, l ≠ opening tag) :
    readStruct sizeOf tag (pre ++ opening tag :: lines) =
      (readMembers sizeOf lines).bind fun ms =>
        if (ms.map Member.name).Nodup then some ms else none := by
  have hdrop : (pre ++ opening tag :: lines).dropWhile (· ≠ opening tag) =
      opening tag :: lines := by
    rw [List.dropWhile_append_of_pos (by simpa using hpre), List.dropWhile_cons_of_neg (by simp)]
  rw [readStruct, hdrop]
  rfl

end Structures

end PackedStruct
