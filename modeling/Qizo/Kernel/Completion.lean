import Qizo.Kernel.Shell
import Qizo.Lib.CommonPrefix

/-!
# Tab completion

`complete` of `kernel/shell.c`, for any table of commands. A working copy is made of the first name
that the text in the line is a proper prefix of, and cut back at each further one to what the two
have in common. No name is read behind its terminator, and neither the line nor the working copy
outside its array.

## Main results

* `exists_namePrefixLoop` — the names that are looked at
* `exists_foldlM_tablePass` — the working copy behind the first loop
* `complete_extends` — what is left in the line
-/

namespace Qizo

namespace Shell

open Memory CommonPrefix

/-! ### Names -/

/-- A table of command names. -/
structure Table where
  names : List (List UInt8)
  nodup : names.Nodup
  ne_nil : ∀ name ∈ names, name ≠ []
  short : ∀ name ∈ names, name.length < 126
  zero_notMem : ∀ name ∈ names, 0 ∉ name

/-- The text in the line. -/
def State.text (s : State) : List UInt8 := bytes s.line 0 s.len

/-- The text is a prefix of the name, and shorter. -/
def Proper (b name : List UInt8) : Prop := b <+: name ∧ b ≠ name

instance (b name : List UInt8) : Decidable (Proper b name) :=
  inferInstanceAs (Decidable (b <+: name ∧ b ≠ name))

variable {name best b : List UInt8} {m : Memory} {n i len : ℕ} {s s' : State}

theorem charAt_of_lt (h : i < name.length) : charAt name i = some name[i] := by
  rw [charAt, List.getElem?_append_left h, List.getElem?_eq_getElem h]

theorem charAt_length (name : List UInt8) : charAt name name.length = some 0 := by
  rw [charAt, List.getElem?_append_right (Nat.le_refl _), Nat.sub_self]
  rfl

theorem lineAt_of_lt (h : i < 128) : lineAt m i = some (m i) := if_pos h

theorem bytes_succ (m : Memory) (a n : ℕ) : bytes m a (n + 1) = m a :: bytes m (a + 1) n := by
  rw [bytes, List.range_succ_eq_map, List.map_cons, List.map_map, bytes]
  refine congrArg (m a :: ·) (List.map_congr_left fun i _ => ?_)
  rw [Function.comp_apply, Nat.succ_eq_add_one, Nat.add_assoc, Nat.add_comm 1]

/-- **The names that are looked at.** A name that is too short ends at its terminator, which no
character of the text equals. -/
theorem exists_namePrefixLoop (hi : i ≤ name.length) (hline : i + n ≤ 127)
    (hname : 0 ∉ name) (htext : ∀ k, i ≤ k → k < i + n → m k ≠ 0) :
    ∃ r, namePrefixLoop name m n i = some r ∧
      (r = true ↔ Proper (bytes m i n) (name.drop i)) := by
  induction n generalizing i with
  | zero =>
    have hnil : bytes m i 0 = [] := rfl
    rw [namePrefixLoop, hnil, Proper]
    rcases Nat.eq_or_lt_of_le hi with rfl | hlt
    · refine ⟨false, by rw [charAt_length]; rfl, ?_⟩
      rw [List.drop_length]
      simp
    · refine ⟨true, ?_, ?_⟩
      · have hne : name[i] ≠ 0 := fun h => hname (h ▸ List.getElem_mem hlt)
        rw [charAt_of_lt hlt, Option.map_some, Option.some.injEq, bne_iff_ne]
        exact hne
      · rw [List.drop_eq_getElem_cons hlt]
        exact iff_of_true rfl ⟨List.nil_prefix, Ne.symm (List.cons_ne_nil _ _)⟩
  | succ n ih =>
    have hne : m i ≠ 0 := htext i (Nat.le_refl i) (by omega)
    rw [namePrefixLoop, lineAt_of_lt (by omega), bytes_succ]
    rcases Nat.eq_or_lt_of_le hi with rfl | hlt
    · refine ⟨false, ?_, ?_⟩
      · rw [charAt_length]
        exact if_pos (Ne.symm hne)
      · rw [List.drop_length, Proper, List.prefix_nil]
        simp
    · rw [charAt_of_lt hlt, List.drop_eq_getElem_cons hlt]
      simp only [Option.bind_eq_bind, Option.bind_some]
      by_cases hsame : name[i] = m i
      · obtain ⟨r, hr, hiff⟩ := ih hlt (by omega) fun k hk hk' => htext k (by omega) (by omega)
        refine ⟨r, by rw [if_neg (not_not.mpr hsame), hr], ?_⟩
        rw [hiff, hsame, Proper, Proper, List.cons_prefix_cons]
        simp
      · refine ⟨false, if_pos hsame, ?_⟩
        rw [Proper, List.cons_prefix_cons]
        refine iff_of_false Bool.false_ne_true fun h => hsame h.1.1.symm

/-! ### The working copy -/

/-- The loop finds the length of what two strings have in common. -/
theorem commonLoop_eq {fuel : ℕ} (hbest : n ≤ best.length) (hname : n ≤ name.length)
    (hfuel : best.length < n + fuel) (hzero : 0 ∉ best) :
    commonLoop best name fuel n =
      some (n + (common (best.drop n) (name.drop n)).length) := by
  induction fuel generalizing n with
  | zero => omega
  | succ fuel ih =>
    rw [commonLoop]
    rcases Nat.eq_or_lt_of_le hbest with rfl | hlt
    · rw [charAt_length, List.drop_length, common_nil_left]
      rfl
    · have hne : best[n] ≠ 0 := fun h => hzero (h ▸ List.getElem_mem hlt)
      rw [charAt_of_lt hlt, List.drop_eq_getElem_cons hlt]
      simp only [Option.bind_eq_bind, Option.bind_some]
      rw [if_neg hne]
      rcases Nat.eq_or_lt_of_le hname with rfl | hlt'
      · rw [charAt_length, List.drop_length, common_nil_right]
        exact if_neg hne
      · rw [charAt_of_lt hlt', List.drop_eq_getElem_cons hlt']
        simp only [Option.bind_some]
        by_cases hsame : best[n] = name[n]
        · rw [if_pos hsame, @ih (n + 1) hlt hlt' (by omega), hsame, common_cons_self,
            List.length_cons, Nat.add_assoc, Nat.add_comm 1]
        · rw [if_neg hsame, common_cons_of_ne hsame]
          rfl

/-- The working copy is cut back to it. -/
theorem take_commonLoop (name : List UInt8) (hzero : 0 ∉ best) :
    (commonLoop best name (best.length + 1) 0).map best.take = some (common best name) := by
  rw [commonLoop_eq (Nat.zero_le _) (Nat.zero_le _) (by omega) hzero, List.drop_zero,
    List.drop_zero, Nat.zero_add, Option.map_some,
    ← (List.prefix_iff_eq_take.mp (common_prefix_left best name))]

/-- The names of a table that the text is a proper prefix of. -/
def candidates (b : List UInt8) (table : List (List UInt8)) : List (List UInt8) :=
  table.filter (Proper b ·)

/-- The first loop behind some names: their number, and what those have in common that matched. -/
structure Copied (b : List UInt8) (seen : List (List UInt8)) (r : List UInt8 × ℕ) : Prop where
  count : r.2 = (candidates b seen).length
  longest : r.2 ≠ 0 → Longest r.1 (candidates b seen)
  zero_notMem : 0 ∉ r.1
  short : r.1.length < 126

variable {seen table : List (List UInt8)} {r : List UInt8 × ℕ}

theorem copied_nil (b : List UInt8) : Copied b [] ([], 0) where
  count := rfl
  longest h := absurd rfl h
  zero_notMem := List.not_mem_nil
  short := by decide

theorem Copied.skip (h : Copied b seen r) (hname : ¬Proper b name) :
    Copied b (seen ++ [name]) r := by
  have hsame : candidates b (seen ++ [name]) = candidates b seen := by
    rw [candidates, List.filter_append, List.filter_singleton, decide_eq_false hname]
    exact List.append_nil _
  refine ⟨?_, ?_, h.zero_notMem, h.short⟩
  · rw [hsame]
    exact h.count
  · rw [hsame]
    exact h.longest

theorem Copied.take (h : Copied b seen r) (hname : Proper b name) (hzero : 0 ∉ name)
    (hshort : name.length < 126) :
    ∃ r', takeName r name = some r' ∧ Copied b (seen ++ [name]) r' := by
  have hmore : candidates b (seen ++ [name]) = candidates b seen ++ [name] := by
    rw [candidates, List.filter_append, List.filter_singleton, decide_eq_true hname]
    rfl
  rw [takeName]
  by_cases hfirst : r.2 = 0
  · have hnil : candidates b seen = [] := List.length_eq_zero_iff.mp (h.count.symm.trans hfirst)
    rw [hnil, List.nil_append] at hmore
    have hroom : name.length + 1 ≤ lineMax := by
      rw [lineMax]
      omega
    refine ⟨(name, 1), by rw [if_pos hfirst, if_pos hroom], ?_, fun _ => ?_, hzero, hshort⟩
    · rw [hmore]
      rfl
    · rw [hmore]
      exact Longest.singleton name
  · have hcommon := take_commonLoop name h.zero_notMem
    obtain ⟨n, hn, htake⟩ := Option.map_eq_some_iff.mp hcommon
    refine ⟨(common r.1 name, r.2 + 1), by rw [if_neg hfirst, hn, ← htake]; rfl, ?_, fun _ => ?_,
      fun hmem => ?_, ?_⟩
    · rw [hmore, List.length_append, h.count]
      rfl
    · rw [hmore]
      exact (h.longest hfirst).concat name
    · exact h.zero_notMem ((common_prefix_left r.1 name).subset hmem)
    · exact Nat.lt_of_le_of_lt (common_prefix_left r.1 name).length_le h.short

/-- A line whose text is that of a C string. -/
structure Editable (s : State) : Prop where
  len_le : s.len ≤ 127
  ne_zero : ∀ i < s.len, s.line i ≠ 0

theorem Copied.pass (h : Copied s.text seen r) (hs : Editable s) (hzero : 0 ∉ name)
    (hshort : name.length < 126) :
    ∃ r', tablePass s.line s.len r name = some r' ∧ Copied s.text (seen ++ [name]) r' := by
  obtain ⟨matched, hmatched, hiff⟩ := @exists_namePrefixLoop name s.line s.len 0 (Nat.zero_le _)
    (by have := hs.len_le; omega) hzero fun k _ hk => hs.ne_zero k (by omega)
  rw [List.drop_zero] at hiff
  rw [tablePass, hmatched]
  cases matched with
  | false => exact ⟨r, rfl, h.skip (mt hiff.mpr Bool.false_ne_true)⟩
  | true => exact h.take (hiff.mp rfl) hzero hshort

/-- **The first loop.** -/
theorem exists_foldlM_tablePass (hs : Editable s) (hzero : ∀ name ∈ table, 0 ∉ name)
    (hshort : ∀ name ∈ table, name.length < 126) :
    ∃ r, table.foldlM (tablePass s.line s.len) ([], 0) = some r ∧ Copied s.text table r := by
  induction table using List.reverseRecOn with
  | nil => exact ⟨_, rfl, copied_nil _⟩
  | append_singleton table name ih =>
    obtain ⟨r, hr, hcopied⟩ := ih (fun x hx => hzero x (List.mem_append_left _ hx))
      fun x hx => hshort x (List.mem_append_left _ hx)
    have hmem : name ∈ table ++ [name] := List.mem_append_right _ (List.mem_singleton_self name)
    obtain ⟨r', hr', hcopied'⟩ := hcopied.pass hs (hzero name hmem) (hshort name hmem)
    refine ⟨r', ?_, hcopied'⟩
    rw [List.foldlM_append, hr]
    simp only [List.foldlM_cons, List.foldlM_nil, bind_pure]
    exact hr'

/-! ### The line -/

theorem appendChar_text (c : UInt8) (h : s.len < 128) :
    ∃ s', appendChar s c = some s' ∧ s'.text = s.text ++ [c] ∧ s'.len = s.len + 1 := by
  have hlen : s.text.length = s.len := length_bytes ..
  have hholds : Holds s.line 0 s.text := by
    rw [holds_iff_bytes_eq, hlen]
    rfl
  have hpush := hholds.push c
  rw [holds_iff_bytes_eq, List.length_append, hlen, Nat.zero_add] at hpush
  exact ⟨_, if_pos h, hpush, rfl⟩

/-- The second loop writes the rest of the working copy behind the text. -/
theorem extendLoop_text {fuel : ℕ} (hlen : best.length ≤ 127) (htext : s.text <+: best)
    (hfuel : best.length ≤ s.len + fuel) :
    ∃ s', extendLoop best fuel s = some s' ∧ s'.text = best ∧ s'.len = best.length := by
  have hle : s.text.length = s.len := length_bytes ..
  induction fuel generalizing s with
  | zero =>
    have heq := htext.eq_of_length_le (by omega)
    exact ⟨s, rfl, heq, by rw [← heq, hle]⟩
  | succ fuel ih =>
    rw [extendLoop]
    by_cases hlt : s.len < best.length
    · obtain ⟨s', hs', htext', hlen'⟩ := appendChar_text best[s.len] (by omega : s.len < 128)
      have hgrown : s'.text <+: best := by
        have htake := List.prefix_iff_eq_take.mp htext
        rw [hle] at htake
        rw [htext', htake, List.take_concat_get' best s.len hlt]
        exact List.take_prefix _ _
      obtain ⟨s'', hs'', hrest⟩ := ih hgrown (by omega) (length_bytes ..)
      refine ⟨s'', ?_, hrest⟩
      rw [if_pos hlt, charAt_of_lt hlt]
      simp only [Option.bind_eq_bind, Option.bind_some]
      rw [hs']
      exact hs''
    · rw [if_neg hlt]
      have heq := htext.eq_of_length_le (by omega)
      exact ⟨s, rfl, heq, by rw [← heq, hle]⟩

theorem mem_candidates : name ∈ candidates b table ↔ name ∈ table ∧ Proper b name := by
  rw [candidates, List.mem_filter, decide_eq_true_eq]

/-- In a table without repetitions, one match is one name. -/
theorem length_candidates_eq_one_iff (hnodup : table.Nodup) :
    (candidates b table).length = 1 ↔ ∃! name, name ∈ table ∧ Proper b name := by
  constructor
  · intro h
    obtain ⟨name, hname⟩ := List.length_eq_one_iff.mp h
    refine ⟨name, ?_, fun other hother => ?_⟩
    · exact mem_candidates.mp (hname ▸ List.mem_singleton_self name)
    · exact List.mem_singleton.mp (hname ▸ mem_candidates.mpr hother)
  · rintro ⟨name, hname, hunique⟩
    have hmem := mem_candidates.mpr hname
    have hsame : candidates b table = List.replicate (candidates b table).length name :=
      List.eq_replicate_of_mem fun x hx => hunique x (mem_candidates.mp hx)
    have hle : (candidates b table).length ≤ 1 := by
      refine (@List.nodup_replicate _ _ name).mp ?_
      rw [← hsame]
      exact hnodup.filter _
    have hpos := List.length_pos_of_mem hmem
    omega

/-- The commands of the shell. -/
def commands : Table where
  names := names
  nodup := by decide
  ne_nil := by decide
  short := by decide
  zero_notMem := by decide

/-- What `complete` makes of the line. -/
structure Completes (table : List (List UInt8)) (s s' : State) : Prop where
  /-- Nothing happens if no name has the text as a proper prefix. -/
  unchanged : (∀ name ∈ table, ¬Proper s.text name) → s' = s
  /-- Otherwise the text becomes what all such names have in common, and a blank behind it if there
  is one such name. -/
  extended : (∃ name ∈ table, Proper s.text name) → ∃ p,
    Longest p (candidates s.text table) ∧
    ((∃! name, name ∈ table ∧ Proper s.text name) → s'.text = p ++ [blank]) ∧
    ((¬∃! name, name ∈ table ∧ Proper s.text name) → s'.text = p)
  len_le : s'.len ≤ 127

/-- **Tab completion.** No read leaves a name or an array, and the line is completed. -/
theorem complete_extends (t : Table) (s : State) (hs : Editable s) :
    ∃ s', completeTable t.names s = some s' ∧ Completes t.names s s' := by
  obtain ⟨⟨best, found⟩, hloop, hcopied⟩ := exists_foldlM_tablePass hs t.zero_notMem t.short
  obtain ⟨hcount, hlongest, -, hshort⟩ := hcopied
  dsimp only at hcount hlongest hshort
  rw [completeTable, hloop]
  simp only [Option.bind_eq_bind, Option.bind_some]
  by_cases hnone : found = 0
  · have hnil : candidates s.text t.names = [] :=
      List.length_eq_zero_iff.mp (hcount.symm.trans hnone)
    refine ⟨s, if_pos hnone, fun _ => rfl, fun ⟨name, hname⟩ => ?_, hs.len_le⟩
    exact absurd (mem_candidates.mpr hname) (hnil ▸ List.not_mem_nil)
  rw [if_neg hnone]
  have hbest := hlongest hnone
  have htext : s.text <+: best :=
    hbest.greatest _ fun name hname => (mem_candidates.mp hname).2.1
  obtain ⟨s₁, hs₁, htext₁, hlen₁⟩ := extendLoop_text (by omega) htext (Nat.le_add_left _ s.len)
  have hsome : ∃ name ∈ t.names, Proper s.text name := by
    obtain ⟨name, hname⟩ := List.exists_mem_of_length_pos
      (by omega : 0 < (candidates s.text t.names).length)
    exact ⟨name, mem_candidates.mp hname⟩
  have hchanged {P : Prop} (hP : ∀ name ∈ t.names, ¬Proper s.text name) : P := by
    obtain ⟨name, hname, hproper⟩ := hsome
    exact absurd hproper (hP name hname)
  rw [hs₁]
  simp only [Option.bind_some]
  have hunique := @length_candidates_eq_one_iff s.text t.names t.nodup
  rw [← hcount] at hunique
  by_cases hone : found = 1
  · obtain ⟨s₂, hs₂, htext₂, hlen₂⟩ := appendChar_text blank (by omega : s₁.len < 128)
    refine ⟨s₂, by rw [if_pos hone, hs₂], fun h => hchanged h, fun _ => ?_, by omega⟩
    refine ⟨best, hbest, fun _ => by rw [htext₂, htext₁], fun h => ?_⟩
    exact absurd (hunique.mp hone) h
  · refine ⟨s₁, if_neg hone, fun h => hchanged h, fun _ => ?_, by omega⟩
    exact ⟨best, hbest, fun h => absurd (hunique.mpr h) hone, fun _ => htext₁⟩

/-- With `he` in the line. -/
def halfTyped : State := { State.boot with line := State.boot.line.write 0 (chars "he"), len := 2 }

theorem editable_halfTyped : Editable halfTyped := ⟨by decide, by decide⟩

/-- `he` is completed to `help` and a blank. -/
theorem complete_extends_halfTyped :
    ∃ s', completeTable commands.names halfTyped = some s' ∧
      Completes commands.names halfTyped s' :=
  complete_extends commands halfTyped editable_halfTyped

end Shell

end Qizo
