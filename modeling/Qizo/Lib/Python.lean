import Qizo.Lib.ByteString

/-!
# Python computations on bytes

The fragment of Python's run-time behaviour that byte-level scripts rely on: which exceptions end a
computation, how a sequence is indexed, and how `struct` reads and writes integers. A script is
embedded as a function into `Except PyError`, so that "raises nothing" is a statement about the
value returned.

Indexing follows the language: an index below zero counts from the end of the sequence, and only
an index outside both ranges raises.
-/

namespace Python

/-- The exceptions a script can end with. -/
inductive PyError where
  /-- `ValueError` with its message. -/
  | value (msg : String)
  /-- `IndexError`. -/
  | index
  /-- `KeyError`. -/
  | key
  /-- `struct.error`. -/
  | struct
  /-- `UnicodeEncodeError`. -/
  | unicodeEncode
  /-- `SystemExit` with its message. -/
  | exit (msg : String)
  deriving DecidableEq, Repr

/-- `l[i]` for an integer index. -/
def pyIndex {α : Type} (l : List α) (i : ℤ) : Except PyError α :=
  let k := if 0 ≤ i then i else i + l.length
  if 0 ≤ k then
    match l[k.toNat]? with
    | some x => .ok x
    | none => .error .index
  else .error .index

/-- `struct.unpack_from` of one little-endian unsigned integer of `w` bytes. -/
def unpackFrom (w : ℕ) (l : List UInt8) (off : ℕ) : Except PyError ℕ :=
  match ByteString.unpackAt w l off with
  | some v => .ok v
  | none => .error .struct

/-- `struct.pack` of one little-endian unsigned integer of `w` bytes. -/
def pack (w v : ℕ) : Except PyError (List UInt8) :=
  if v < 256 ^ w then .ok (ByteString.leBytes w v) else .error .struct

/-- `struct.pack` of one big-endian unsigned integer of `w` bytes. -/
def packBig (w v : ℕ) : Except PyError (List UInt8) :=
  if v < 256 ^ w then .ok (ByteString.leBytes w v).reverse else .error .struct

/-- `struct.unpack_from` of one big-endian unsigned integer of `w` bytes. -/
def unpackBig (w : ℕ) (l : List UInt8) (off : ℕ) : Except PyError ℕ :=
  if off + w ≤ l.length then .ok (ByteString.leNat (ByteString.slice l off (off + w)).reverse)
  else .error .struct

/-- The byte `v` of a byte array. -/
def pyByte (v : ℕ) : Except PyError UInt8 :=
  if v < 256 then .ok (UInt8.ofNat v) else .error (.value "byte must be in range(0, 256)")

/-- `struct.pack_into` of one little-endian unsigned integer of `w` bytes. -/
def packInto (w : ℕ) (l : List UInt8) (off v : ℕ) : Except PyError (List UInt8) :=
  match ByteString.packInto w l off v with
  | some l' => .ok l'
  | none => .error .struct

/-- `struct.pack` of one integer of any sign into an unsigned field of `w` bytes. -/
def packInt (w : ℕ) (v : ℤ) : Except PyError (List UInt8) :=
  if 0 ≤ v then pack w v.toNat else .error .struct

/-- `if c: raise e`. -/
def raiseIf (c : Prop) [Decidable c] (e : PyError) : Except PyError Unit :=
  if c then .error e else .ok ()

/-! ### Sequencing -/

@[simp] theorem ok_bind {α β : Type} (a : α) (f : α → Except PyError β) :
    (Except.ok a >>= f) = f a := rfl

/-- **A sequence that raises nothing** is two computations that raise nothing. -/
theorem bind_eq_ok {α β : Type} {x : Except PyError α} {f : α → Except PyError β} {b : β} :
    (x >>= f) = .ok b ↔ ∃ a, x = .ok a ∧ f a = .ok b := by
  cases x with
  | error e =>
    constructor
    · intro h
      cases h
    · rintro ⟨a, h, -⟩
      cases h
  | ok a => simp

theorem raiseIf_of_not {c : Prop} [Decidable c] {e : PyError} (h : ¬c) : raiseIf c e = .ok () :=
  if_neg h

theorem raiseIf_eq_ok {c : Prop} [Decidable c] {e : PyError} {u : Unit} :
    raiseIf c e = .ok u ↔ ¬c := by
  unfold raiseIf
  split <;> simp_all

theorem mapM_map_eq_ok {α β γ : Type} {f : α → Except PyError β} {e : γ → α} {g : γ → β}
    {l : List γ} (h : ∀ c ∈ l, f (e c) = .ok (g c)) : (l.map e).mapM f = .ok (l.map g) := by
  induction l with
  | nil => rfl
  | cons c l ih =>
    rw [List.forall_mem_cons] at h
    rw [List.map_cons, List.mapM_cons, h.1, ok_bind, ih h.2]
    rfl

/-! ### Fields -/

theorem pyIndex_ofNat {α : Type} {l : List α} {i : ℕ} {x : α} (h : l[i]? = some x) :
    pyIndex l (i : ℤ) = .ok x := by
  simp [pyIndex, h]

theorem unpackFrom_of_le {w off : ℕ} {l : List UInt8} (h : off + w ≤ l.length) :
    unpackFrom w l off = .ok (ByteString.leNat (ByteString.slice l off (off + w))) := by
  simp [unpackFrom, ByteString.unpackAt, h]

theorem unpackFrom_of_hasAt {w v off : ℕ} {l : List UInt8}
    (h : ByteString.HasAt l off (ByteString.leBytes w v)) (hv : v < 256 ^ w) (hw : 0 < w) :
    unpackFrom w l off = .ok v := by
  have hle :=
    h.le_length (by rw [ne_eq, ← List.length_eq_zero_iff, ByteString.length_leBytes]; omega)
  have hslice := h.slice_eq
  rw [ByteString.length_leBytes] at hle hslice
  rw [unpackFrom_of_le hle, hslice, ByteString.leNat_leBytes hv]

theorem unpackBig_of_hasAt {w v off : ℕ} {l : List UInt8}
    (h : ByteString.HasAt l off (ByteString.leBytes w v).reverse) (hv : v < 256 ^ w) (hw : 0 < w) :
    unpackBig w l off = .ok v := by
  have hlen : (ByteString.leBytes w v).reverse.length = w := by
    rw [List.length_reverse, ByteString.length_leBytes]
  have hle := h.le_length (by rw [ne_eq, ← List.length_eq_zero_iff]; omega)
  have hslice := h.slice_eq
  rw [hlen] at hle hslice
  rw [unpackBig, if_pos hle, hslice, List.reverse_reverse, ByteString.leNat_leBytes hv]

theorem pyIndex_of_hasAt {i : ℕ} {l : List UInt8} {b : UInt8} (h : ByteString.HasAt l i [b]) :
    pyIndex l i = .ok b := pyIndex_ofNat (h 0 (by simp))

theorem pack_of_lt {w v : ℕ} (h : v < 256 ^ w) : pack w v = .ok (ByteString.leBytes w v) :=
  if_pos h

theorem pack_eq_ok {w v : ℕ} {d : List UInt8} (h : pack w v = .ok d) :
    v < 256 ^ w ∧ d = ByteString.leBytes w v := by
  rw [pack] at h
  split at h
  · next hlt => exact ⟨hlt, (Except.ok.inj h).symm⟩
  · cases h

theorem packInt_eq_ok {w : ℕ} {v : ℤ} {d : List UInt8} (h : packInt w v = .ok d) :
    0 ≤ v ∧ v.toNat < 256 ^ w ∧ d = ByteString.leBytes w v.toNat := by
  rw [packInt] at h
  split at h
  · next hv => exact ⟨hv, pack_eq_ok h⟩
  · cases h

theorem packInto_of_lt {w off v : ℕ} {l : List UInt8} (hv : v < 256 ^ w)
    (hoff : off + w ≤ l.length) :
    packInto w l off v =
      .ok (ByteString.setSlice l off (off + w) (ByteString.leBytes w v)) := by
  simp [packInto, ByteString.packInto, hv, hoff]

/-! ### Dictionaries -/

/-- A dictionary without repeated keys finds each of its items. -/
theorem lookup_of_mem {α β : Type} [BEq α] [LawfulBEq α] {l : List (α × β)} {x : α × β}
    (hnd : (l.map Prod.fst).Nodup) (hx : x ∈ l) : l.lookup x.1 = some x.2 := by
  induction l with
  | nil => simp at hx
  | cons y ys ih =>
    rw [List.map_cons, List.nodup_cons] at hnd
    rcases List.mem_cons.mp hx with rfl | hx
    · rw [List.lookup_cons, beq_self_eq_true]
    · have hne : x.1 ≠ y.1 := fun heq => hnd.1 (heq ▸ List.mem_map_of_mem hx)
      rw [List.lookup_cons, beq_false_of_ne hne, ih hnd.2 hx]

end Python
