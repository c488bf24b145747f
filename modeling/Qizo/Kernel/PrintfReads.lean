import Qizo.Kernel.Printf
import Qizo.Lib.Memory

/-!
# What `qizo_printf` reads of its format

The loop of `qizo_printf` with its pointer: `p` is advanced in the loop header, once more behind a
percent sign, and once more behind an `l`. The zero at the end of the format stops it only where the
header looks at it. A zero that comes as the second or third character of a conversion is taken for
a character to print, and the pointer steps over it.

`printfAt` runs over a memory, and keeps the addresses at which it has read.

## Main results

* `printfAt_of_complete` — a format whose conversions are complete
* `printfAt_of_cut` — a format that ends inside a conversion, whatever stands behind it
* `staysInside_iff` — the formats that are not left
-/

namespace Qizo

namespace Printf

open Console Memory

/-! ### The loop over memory -/

/-- What a run has done: the addresses read, the calls of the console, and the slots taken. -/
structure Reading where
  reads : List ℕ
  calls : List (List UInt8)
  slots : ℕ

/-- The calls made for the letter behind a percent sign, and the slots taken. -/
def letter (str : UInt64 → List UInt8) (w : UInt64) (c : UInt8) : Option (List (List UInt8) × ℕ) :=
  if c = code 'c' then some ([[w.toUInt8]], 1)
  else if c = code 'd' ∨ c = code 'i' then
    (putUint w.toUInt32.toInt32.toInt64.toUInt64 10 true).map fun cs => (putcs cs, 1)
  else if c = code 'u' then (putUint w.toUInt32.toUInt64 10 false).map fun cs => (putcs cs, 1)
  else if c = code 'x' then (putUint w.toUInt32.toUInt64 16 false).map fun cs => (putcs cs, 1)
  else if c = code 'p' then (putUint w 16 false).map fun cs => (putcs cs, 1)
  else if c = code 's' then some ([if w ≠ 0 then str w else "(null)".toList.map code], 1)
  else if c = code '%' then some ([[code '%']], 0)
  else some (putcs [code '%', c], 0)

/-- The calls made for the letter behind `%l`, and the slots taken. -/
def longLetter (w : UInt64) (c : UInt8) : Option (List (List UInt8) × ℕ) :=
  if c = code 'l' then (putUint w 10 false).map fun cs => (putcs cs, 1)
  else if c = code 'x' then (putUint w 16 false).map fun cs => (putcs cs, 1)
  else some (putcs [code '%', code 'l', c], 0)

/-- One pass of the loop at `p`, where the format does not end: what is read, the calls, and where
the pointer is when the header has advanced it. -/
def pass (str : UInt64 → List UInt8) (w : UInt64) (mem : Memory) (p : ℕ) :
    Option (List ℕ × (List (List UInt8) × ℕ) × ℕ) :=
  if mem p ≠ code '%' then some ([p], ([[mem p]], 0), p + 1)
  else if mem (p + 1) = code 'l' then
    (longLetter w (mem (p + 2))).map fun done => ([p, p + 1, p + 2], done, p + 3)
  else (letter str w (mem (p + 1))).map fun done => ([p, p + 1], done, p + 2)

/-- `qizo_printf` from `p` on, with `k` slots taken, for a number of passes. -/
def printfAt (str : UInt64 → List UInt8) (args : ℕ → UInt64) (mem : Memory) :
    (passes p k : ℕ) → Option Reading
  | 0, _, _ => none
  | passes + 1, p, k =>
    if mem p = 0 then some ⟨[p], [], k⟩
    else do
      let (reads, (calls, slots), p') ← pass str (args k) mem p
      let r ← printfAt str args mem passes p' (k + slots)
      some ⟨reads ++ r.reads, calls ++ r.calls, r.slots⟩

/-- A format at `p`, with its terminator. -/
structure IsFormat (mem : Memory) (p : ℕ) (fmt : List UInt8) : Prop where
  holds : mem.Holds p fmt
  zero_notMem : 0 ∉ fmt
  terminated : mem (p + fmt.length) = 0

/-- **The run ends, and has read nothing behind the terminator.** -/
def StaysInside (str : UInt64 → List UInt8) (args : ℕ → UInt64) (mem : Memory) (p : ℕ)
    (fmt : List UInt8) : Prop :=
  ∃ passes r, printfAt str args mem passes p 0 = some r ∧ ∀ a ∈ r.reads, a ≤ p + fmt.length

/-! ### Complete formats -/

/-- **A format in which every conversion is complete**: a percent sign has a letter behind it, and
`%l` one more. -/
inductive Complete : List UInt8 → Prop
  | nil : Complete []
  | plain {c : UInt8} {fmt : List UInt8} (h : c ≠ code '%') (hfmt : Complete fmt) :
      Complete (c :: fmt)
  | letter {c : UInt8} {fmt : List UInt8} (h : c ≠ code 'l') (hfmt : Complete fmt) :
      Complete (code '%' :: c :: fmt)
  | longLetter {c : UInt8} {fmt : List UInt8} (hfmt : Complete fmt) :
      Complete (code '%' :: code 'l' :: c :: fmt)

/-- A format that ends inside a conversion. -/
inductive Cut : List UInt8 → Prop
  | percent : Cut [code '%']
  | long : Cut [code '%', code 'l']
  | plain {c : UInt8} {fmt : List UInt8} (h : c ≠ code '%') (hfmt : Cut fmt) : Cut (c :: fmt)
  | letter {c : UInt8} {fmt : List UInt8} (h : c ≠ code 'l') (hfmt : Cut fmt) :
      Cut (code '%' :: c :: fmt)
  | longLetter {c : UInt8} {fmt : List UInt8} (hfmt : Cut fmt) :
      Cut (code '%' :: code 'l' :: c :: fmt)

/-- Every format is one or the other. -/
theorem complete_or_cut : ∀ fmt : List UInt8, Complete fmt ∨ Cut fmt
  | [] => .inl .nil
  | [c] =>
    if h : c = code '%' then h ▸ .inr .percent
    else .inl (.plain h .nil)
  | c :: d :: fmt =>
    if h : c = code '%' then
      if hl : d = code 'l' then
        match fmt with
        | [] => h ▸ hl ▸ .inr .long
        | _ :: fmt => h ▸ hl ▸ (complete_or_cut fmt).imp .longLetter .longLetter
      else h ▸ (complete_or_cut fmt).imp (.letter hl) (.letter hl)
    else (complete_or_cut (d :: fmt)).imp (.plain h) (.plain h)

variable {str : UInt64 → List UInt8} {args : ℕ → UInt64} {mem : Memory} {p k passes : ℕ}
  {c : UInt8} {fmt : List UInt8} {r : Reading}

theorem IsFormat.cons (h : IsFormat mem p (c :: fmt)) :
    mem p = c ∧ c ≠ 0 ∧ IsFormat mem (p + 1) fmt := by
  have hne := h.zero_notMem
  rw [List.mem_cons, not_or] at hne
  refine ⟨h.holds 0 c rfl, Ne.symm hne.1, fun i b hb => ?_, hne.2, ?_⟩
  · rw [Nat.add_assoc, Nat.add_comm 1]
    exact h.holds (i + 1) b hb
  · rw [Nat.add_assoc, Nat.add_comm 1]
    exact h.terminated

theorem exists_letter (w : UInt64) (c : UInt8) : ∃ done, letter str w c = some done := by
  unfold letter
  repeat' split
  all_goals first
    | exact ⟨_, rfl⟩
    | rw [@putUint_unsigned 10 (by omega)]; exact ⟨_, rfl⟩
    | rw [@putUint_unsigned 16 (by omega)]; exact ⟨_, rfl⟩
    | rw [putUint_signed]; exact ⟨_, rfl⟩

theorem exists_longLetter (w : UInt64) (c : UInt8) : ∃ done, longLetter w c = some done := by
  unfold longLetter
  split
  · rw [@putUint_unsigned 10 (by omega)]
    exact ⟨_, rfl⟩
  · split
    · rw [@putUint_unsigned 16 (by omega)]
      exact ⟨_, rfl⟩
    · exact ⟨_, rfl⟩

/-! ### One pass -/

/-- A pass at a place where the format does not end, and the rest of the run. -/
theorem printfAt_succ {reads : List ℕ} {calls : List (List UInt8)} {slots p' : ℕ} (hp : mem p ≠ 0)
    (hpass : pass str (args k) mem p = some (reads, (calls, slots), p')) :
    printfAt str args mem (passes + 1) p k =
      (printfAt str args mem passes p' (k + slots)).map fun r =>
        ⟨reads ++ r.reads, calls ++ r.calls, r.slots⟩ := by
  rw [printfAt, if_neg hp, hpass]
  exact Option.map_eq_bind.symm

theorem pass_plain (h : mem p ≠ code '%') :
    pass str (args k) mem p = some ([p], ([[mem p]], 0), p + 1) := if_pos h

theorem pass_letter {done : List (List UInt8) × ℕ} (h : mem p = code '%')
    (hl : mem (p + 1) ≠ code 'l') (hdone : letter str (args k) (mem (p + 1)) = some done) :
    pass str (args k) mem p = some ([p, p + 1], done, p + 2) := by
  rw [pass, if_neg (not_not.mpr h), if_neg hl, hdone]
  rfl

theorem pass_longLetter {done : List (List UInt8) × ℕ} (h : mem p = code '%')
    (hl : mem (p + 1) = code 'l') (hdone : longLetter (args k) (mem (p + 2)) = some done) :
    pass str (args k) mem p = some ([p, p + 1, p + 2], done, p + 3) := by
  rw [pass, if_neg (not_not.mpr h), if_pos hl, hdone]
  rfl

/-- A run reads where it starts. -/
theorem mem_reads (h : printfAt str args mem passes p k = some r) : p ∈ r.reads := by
  cases passes with
  | zero => cases h
  | succ passes =>
    by_cases hp : mem p = 0
    · rw [printfAt, if_pos hp] at h
      obtain rfl := Option.some.inj h
      exact List.mem_singleton_self p
    · obtain ⟨reads, done, p', hpass, hmem⟩ : ∃ reads done p',
          pass str (args k) mem p = some (reads, done, p') ∧ p ∈ reads := by
        by_cases hpct : mem p = code '%'
        · by_cases hl : mem (p + 1) = code 'l'
          · obtain ⟨done, hdone⟩ := exists_longLetter (args k) (mem (p + 2))
            exact ⟨_, _, _, pass_longLetter hpct hl hdone, List.mem_cons_self⟩
          · obtain ⟨done, hdone⟩ := @exists_letter str (args k) (mem (p + 1))
            exact ⟨_, _, _, pass_letter hpct hl hdone, List.mem_cons_self⟩
        · exact ⟨_, _, _, pass_plain hpct, List.mem_cons_self⟩
      rw [printfAt_succ hp hpass] at h
      obtain ⟨r', -, rfl⟩ := Option.map_eq_some_iff.mp h
      exact List.mem_append_left _ hmem

/-! ### Whole formats -/

/-- A number takes one slot. -/
theorem emit_number {digits : Option (List UInt8)} {done : List (List UInt8) × ℕ}
    (h : (digits.map fun cs => (putcs cs, 1)) = some done) (rest : ℕ → Run) :
    emit (digits.map putcs) (rest (k + 1)) = emit (some done.1) (rest (k + done.2)) := by
  obtain ⟨cs, rfl, rfl⟩ := Option.map_eq_some_iff.mp h
  rfl

theorem emit_done {calls : List (List UInt8)} {slots : ℕ} {done : List (List UInt8) × ℕ}
    (h : some (calls, slots) = some done) (rest : ℕ → Run) :
    emit (some calls) (rest (k + slots)) = emit (some done.1) (rest (k + done.2)) := by
  obtain rfl := Option.some.inj h
  rfl

theorem printfLoop_letter (hl : c ≠ code 'l') {done : List (List UInt8) × ℕ}
    (hdone : letter str (args k) c = some done) :
    printfLoop str args (code '%' :: c :: fmt) k =
      emit (some done.1) (printfLoop str args fmt (k + done.2)) := by
  rw [printfLoop.eq_def]
  simp only [ne_eq, not_true_eq_false, if_false, hl]
  rw [letter] at hdone
  by_cases hc : c = code 'c'
  · rw [if_pos hc] at hdone ⊢
    exact emit_done hdone (printfLoop str args fmt)
  rw [if_neg hc] at hdone ⊢
  by_cases hd : c = code 'd' ∨ c = code 'i'
  · rw [if_pos hd] at hdone ⊢
    exact emit_number hdone (printfLoop str args fmt)
  rw [if_neg hd] at hdone ⊢
  by_cases hu : c = code 'u'
  · rw [if_pos hu] at hdone ⊢
    exact emit_number hdone (printfLoop str args fmt)
  rw [if_neg hu] at hdone ⊢
  by_cases hx : c = code 'x'
  · rw [if_pos hx] at hdone ⊢
    exact emit_number hdone (printfLoop str args fmt)
  rw [if_neg hx] at hdone ⊢
  by_cases hp : c = code 'p'
  · rw [if_pos hp] at hdone ⊢
    exact emit_number hdone (printfLoop str args fmt)
  rw [if_neg hp] at hdone ⊢
  by_cases hs : c = code 's'
  · rw [if_pos hs] at hdone ⊢
    exact emit_done hdone (printfLoop str args fmt)
  rw [if_neg hs] at hdone ⊢
  by_cases hpct : c = code '%'
  · rw [if_pos hpct] at hdone ⊢
    exact emit_done hdone (printfLoop str args fmt)
  · rw [if_neg hpct] at hdone ⊢
    exact emit_done hdone (printfLoop str args fmt)

theorem printfLoop_longLetter {done : List (List UInt8) × ℕ}
    (hdone : longLetter (args k) c = some done) :
    printfLoop str args (code '%' :: code 'l' :: c :: fmt) k =
      emit (some done.1) (printfLoop str args fmt (k + done.2)) := by
  have hletters : code 'l' ≠ code 'c' ∧ code 'l' ≠ code 'd' ∧ code 'l' ≠ code 'i' := by decide
  obtain ⟨hc, hd, hi⟩ := hletters
  rw [printfLoop.eq_def]
  simp only [ne_eq, not_true_eq_false, if_false, if_true, hc, hd, hi, or_self]
  rw [longLetter] at hdone
  by_cases hl : c = code 'l'
  · rw [if_pos hl] at hdone ⊢
    exact emit_number hdone (printfLoop str args fmt)
  rw [if_neg hl] at hdone ⊢
  by_cases hx : c = code 'x'
  · rw [if_pos hx] at hdone ⊢
    exact emit_number hdone (printfLoop str args fmt)
  · rw [if_neg hx] at hdone ⊢
    exact emit_done hdone (printfLoop str args fmt)

/-- One conversion in front of the rest of a format. -/
theorem exists_printfAt_succ {reads : List ℕ} {done : List (List UInt8) × ℕ} {p' stop : ℕ}
    {fmt' : List UInt8} (hp : mem p ≠ 0)
    (hpass : pass str (args k) mem p = some (reads, done, p')) (hreads : ∀ a ∈ reads, a ≤ stop)
    (hloop : printfLoop str args fmt' k = emit (some done.1) (printfLoop str args fmt (k + done.2)))
    (h : ∃ passes r, printfAt str args mem passes p' (k + done.2) = some r ∧
      (∀ a ∈ r.reads, a ≤ stop) ∧
      printfLoop str args fmt (k + done.2) = some (r.calls, r.slots)) :
    ∃ passes r, printfAt str args mem passes p k = some r ∧ (∀ a ∈ r.reads, a ≤ stop) ∧
      printfLoop str args fmt' k = some (r.calls, r.slots) := by
  obtain ⟨passes, r, hrun, hinside, hrest⟩ := h
  refine ⟨passes + 1, ⟨reads ++ r.reads, done.1 ++ r.calls, r.slots⟩, ?_, ?_, ?_⟩
  · rw [printfAt_succ hp hpass, hrun]
    rfl
  · intro a ha
    rcases List.mem_append.mp ha with ha | ha
    · exact hreads a ha
    · exact hinside a ha
  · rw [hloop, hrest]
    rfl

/-- **A complete format** is read up to its terminator, and the calls are those of the model that
stops there. -/
theorem printfAt_of_complete (hfmt : Complete fmt) (h : IsFormat mem p fmt) :
    ∃ passes r, printfAt str args mem passes p k = some r ∧ (∀ a ∈ r.reads, a ≤ p + fmt.length) ∧
      printfLoop str args fmt k = some (r.calls, r.slots) := by
  induction hfmt generalizing p k with
  | nil =>
    refine ⟨1, ⟨[p], [], k⟩, ?_, fun a ha => ?_, rfl⟩
    · rw [printfAt, if_pos (by simpa using h.terminated)]
    · rw [List.mem_singleton.mp ha]
      exact Nat.le_add_right _ _
  | @plain c fmt hc hfmt ih =>
    obtain ⟨rfl, hne, hrest⟩ := h.cons
    refine exists_printfAt_succ hne (pass_plain hc) ?_ (printfLoop_cons fmt k hc) ?_
    · simp
    · have hih := @ih (p + 1) (k + 0) hrest
      rwa [Nat.add_assoc, Nat.add_comm 1] at hih
  | @letter c fmt hl hfmt ih =>
    obtain ⟨hp, hne, hrest⟩ := h.cons
    obtain ⟨rfl, -, hrest⟩ := hrest.cons
    obtain ⟨done, hdone⟩ := @exists_letter str (args k) (mem (p + 1))
    refine exists_printfAt_succ (hp ▸ hne) (pass_letter hp hl hdone) ?_
      (printfLoop_letter hl hdone) ?_
    · simp
    · have hih := @ih (p + 2) (k + done.2) hrest
      rwa [Nat.add_assoc, Nat.add_comm 2] at hih
  | @longLetter c fmt hfmt ih =>
    obtain ⟨hp, hne, hrest⟩ := h.cons
    obtain ⟨hl, -, hrest⟩ := hrest.cons
    obtain ⟨rfl, -, hrest⟩ := hrest.cons
    obtain ⟨done, hdone⟩ := exists_longLetter (args k) (mem (p + 2))
    refine exists_printfAt_succ (hp ▸ hne) (pass_longLetter hp hl hdone) ?_
      (printfLoop_longLetter hdone) ?_
    · simp
    · have hih := @ih (p + 3) (k + done.2) hrest
      rwa [Nat.add_assoc, Nat.add_comm 3] at hih

/-- What is read behind a pass is read by the run. -/
theorem exists_read_of_pass {reads : List ℕ} {done : List (List UInt8) × ℕ} {p' stop : ℕ}
    (hp : mem p ≠ 0) (hpass : pass str (args k) mem p = some (reads, done, p'))
    (hrun : printfAt str args mem passes p k = some r)
    (h : ∀ passes r, printfAt str args mem passes p' (k + done.2) = some r →
      ∃ a ∈ r.reads, stop < a) : ∃ a ∈ r.reads, stop < a := by
  cases passes with
  | zero => cases hrun
  | succ passes =>
    rw [printfAt_succ hp hpass] at hrun
    obtain ⟨r', hr', rfl⟩ := Option.map_eq_some_iff.mp hrun
    obtain ⟨a, ha, hlt⟩ := h passes r' hr'
    exact ⟨a, List.mem_append_right _ ha, hlt⟩

/-- **A format that ends inside a conversion** is left, if the run ends at all. -/
theorem printfAt_of_cut (hfmt : Cut fmt) (h : IsFormat mem p fmt)
    (hrun : printfAt str args mem passes p k = some r) : ∃ a ∈ r.reads, p + fmt.length < a := by
  induction hfmt generalizing p k passes r with
  | percent =>
    obtain ⟨hp, hne, hrest⟩ := h.cons
    have hzero : mem (p + 1) = 0 := hrest.terminated
    obtain ⟨done, hdone⟩ := @exists_letter str (args k) (mem (p + 1))
    have hpass := pass_letter hp (by rw [hzero]; decide) hdone
    refine exists_read_of_pass (hp ▸ hne) hpass hrun fun passes r hr => ?_
    exact ⟨p + 2, mem_reads hr, Nat.lt_succ_self _⟩
  | long =>
    obtain ⟨hp, hne, hrest⟩ := h.cons
    obtain ⟨hl, -, hrest⟩ := hrest.cons
    obtain ⟨done, hdone⟩ := exists_longLetter (args k) (mem (p + 2))
    refine exists_read_of_pass (hp ▸ hne) (pass_longLetter hp hl hdone) hrun fun passes r hr => ?_
    exact ⟨p + 3, mem_reads hr, Nat.lt_succ_self _⟩
  | @plain c fmt hc hfmt ih =>
    obtain ⟨rfl, hne, hrest⟩ := h.cons
    refine exists_read_of_pass hne (pass_plain hc) hrun fun passes r hr => ?_
    have hih := ih hrest hr
    rwa [Nat.add_assoc, Nat.add_comm 1] at hih
  | @letter c fmt hl hfmt ih =>
    obtain ⟨hp, hne, hrest⟩ := h.cons
    obtain ⟨rfl, -, hrest⟩ := hrest.cons
    obtain ⟨done, hdone⟩ := @exists_letter str (args k) (mem (p + 1))
    refine exists_read_of_pass (hp ▸ hne) (pass_letter hp hl hdone) hrun fun passes r hr => ?_
    have hih := ih hrest hr
    rwa [Nat.add_assoc p, Nat.add_assoc p, Nat.add_comm (1 + 1)] at hih
  | @longLetter c fmt hfmt ih =>
    obtain ⟨hp, hne, hrest⟩ := h.cons
    obtain ⟨hl, -, hrest⟩ := hrest.cons
    obtain ⟨rfl, -, hrest⟩ := hrest.cons
    obtain ⟨done, hdone⟩ := exists_longLetter (args k) (mem (p + 2))
    refine exists_read_of_pass (hp ▸ hne) (pass_longLetter hp hl hdone) hrun fun passes r hr => ?_
    have hih := ih hrest hr
    rwa [Nat.add_assoc p, Nat.add_assoc p, Nat.add_assoc p, Nat.add_comm (1 + 1 + 1)] at hih

/-- **The formats that are not left.** -/
theorem staysInside_iff (str : UInt64 → List UInt8) (args : ℕ → UInt64) (mem : Memory) (p : ℕ)
    (fmt : List UInt8) (h : IsFormat mem p fmt) :
    StaysInside str args mem p fmt ↔ Complete fmt := by
  constructor
  · rintro ⟨passes, r, hrun, hinside⟩
    refine (complete_or_cut fmt).resolve_right fun hcut => ?_
    obtain ⟨a, ha, hlt⟩ := printfAt_of_cut hcut h hrun
    exact absurd (hinside a ha) (Nat.not_le.mpr hlt)
  · intro hcomplete
    obtain ⟨passes, r, hrun, hinside, -⟩ := printfAt_of_complete hcomplete h
    exact ⟨passes, r, hrun, hinside⟩

/-- A memory with a string at its beginning. -/
def withText (fmt : List UInt8) : Memory := fun a => fmt.getD a 0

theorem isFormat_withText (h : 0 ∉ fmt) : IsFormat (withText fmt) 0 fmt where
  holds i b hb := by
    rw [Nat.zero_add, withText, List.getD_eq_getElem?_getD, hb]
    rfl
  zero_notMem := h
  terminated := by
    rw [Nat.zero_add, withText, List.getD_eq_getElem?_getD, List.getElem?_eq_none (Nat.le_refl _)]
    rfl

/-- `%d` is read as far as its terminator. -/
theorem staysInside_iff_d :
    StaysInside (fun _ => []) (fun _ => 7) (withText [code '%', code 'd']) 0 [code '%', code 'd'] ↔
      Complete [code '%', code 'd'] :=
  staysInside_iff (fun _ => []) (fun _ => 7) (withText [code '%', code 'd']) 0
    [code '%', code 'd'] (isFormat_withText (by decide))

/-- A lone percent sign is followed by a read behind the terminator. -/
theorem not_staysInside_percent :
    ¬StaysInside (fun _ => []) (fun _ => 0) (withText [code '%']) 0 [code '%'] := by
  rintro ⟨passes, r, hrun, hinside⟩
  obtain ⟨a, ha, hlt⟩ := printfAt_of_cut .percent (isFormat_withText (by decide)) hrun
  exact absurd (hinside a ha) (Nat.not_le.mpr hlt)

end Printf

end Qizo
