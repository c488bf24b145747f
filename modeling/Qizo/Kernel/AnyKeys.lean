import Qizo.Kernel.Completion
import Qizo.Kernel.History
import Qizo.Kernel.LineEditor

/-!
# The shell under any keys

The results on the line editor, on the history and on completion are about some of the keys each.
Here every byte is a key, in any order, with the echo of key codes on or off. A command can be
recalled, changed, completed and entered again, so what one of the parts leaves behind is what the
next one starts from.

`Sound` is what all of them keep. The line has room for its terminator and none inside, every slot
of the history ends in its array, no byte outside the two arrays has been written, and the entries
are distinct strings with a word in each.

## Main results

* `Sound.exists_recallEntry` — an entry of the history in the line
* `Sound.enter_of_blank`, `Sound.enter_of_command` — the enter key
* `Sound.step`, `Sound.steps` — one key, and any
* `exists_steps` — any keys from boot
-/

namespace Qizo

namespace Shell

open Memory

variable {s s' s₁ s₂ : State} {b x : List UInt8} {k : UInt8} {n : ℕ}

/-! ### What the editor leaves alone -/

/-- Nothing of the shell has changed but the line, its length and the console. -/
structure Edits (s s' : State) : Prop where
  hist : s'.hist = s.hist
  count : s'.histCount = s.histCount
  histAt : s'.histAt = s.histAt
  keys : s'.keysMode = s.keysMode
  ran : s'.ran = s.ran
  /-- The bytes behind the array. -/
  behind : ∀ i, 128 ≤ i → s'.line i = s.line i

theorem Edits.refl (s : State) : Edits s s := ⟨rfl, rfl, rfl, rfl, rfl, fun _ _ => rfl⟩

theorem Edits.trans (h : Edits s s₁) (h' : Edits s₁ s') : Edits s s' where
  hist := h'.hist.trans h.hist
  count := h'.count.trans h.count
  histAt := h'.histAt.trans h.histAt
  keys := h'.keys.trans h.keys
  ran := h'.ran.trans h.ran
  behind i hi := (h'.behind i hi).trans (h.behind i hi)

/-- One byte of the line. -/
theorem Edits.write {i : ℕ} (hi : i < 128) (c : UInt8) (n : ℕ) (out : List Console.Call) :
    Edits s { s with line := Function.update s.line i c, len := n, out := out } :=
  ⟨rfl, rfl, rfl, rfl, rfl, fun j hj => Function.update_of_ne (by omega) _ _⟩

theorem Edits.histFirst_eq (h : Edits s s') : histFirst s' = histFirst s := by
  rw [histFirst, histFirst, h.count]

theorem Edits.older_eq (h : Edits s s') : older s' = older s := by
  rw [older, older, h.histFirst_eq, h.histAt]

/-- The entries are those of the slots and the counter. -/
theorem entries_congr (hhist : s'.hist = s.hist) (hcount : s'.histCount = s.histCount) :
    entries s' = entries s := by
  rw [entries_eq, entries_eq, hhist, hcount]

theorem edits_rubLoop (p : UInt8 → Bool) (n : ℕ) (hlen : s.len ≤ 127) :
    Edits s (rubLoop p n s) := by
  induction n generalizing s with
  | zero => exact .refl s
  | succ n ih =>
    rw [rubLoop]
    split
    · have hrub : Edits s (rubOut s) := .write (by omega) 0 _ _
      exact hrub.trans (ih (le_trans (Nat.sub_le s.len 1) hlen))
    · exact .refl s

theorem edits_setLoop {i : ℕ} (hi : i ≤ 127) : Edits s (setLoop x i s) := by
  have hend : Edits s { s with line := Function.update s.line i 0, len := i } :=
    .write (by omega) 0 _ _
  induction x generalizing i s with
  | nil => exact hend
  | cons c x ih =>
    rw [setLoop]
    split
    · next hroom =>
      rw [lineMax] at hroom
      have hput : Edits s (puts { s with line := Function.update s.line i c } [c]) :=
        .write (by omega) c _ _
      exact hput.trans (ih (by omega) (.write (by omega) 0 _ _))
    · exact hend

theorem edits_appendChar {c : UInt8} (h : appendChar s c = some s') : Edits s s' := by
  rw [appendChar] at h
  split at h
  · next hroom =>
    obtain rfl := Option.some.inj h
    exact .write hroom c _ _
  · cases h

theorem edits_extendLoop {best : List UInt8} (fuel : ℕ) (h : extendLoop best fuel s = some s') :
    Edits s s' := by
  induction fuel generalizing s with
  | zero =>
    obtain rfl := Option.some.inj h
    exact .refl s
  | succ fuel ih =>
    rw [extendLoop] at h
    split at h
    · obtain ⟨c, -, h⟩ := Option.bind_eq_some_iff.mp h
      obtain ⟨s₁, hs₁, h⟩ := Option.bind_eq_some_iff.mp h
      exact (edits_appendChar hs₁).trans (ih h)
    · obtain rfl := Option.some.inj h
      exact .refl s

/-! ### What is left in the line -/

/-- A line without a terminator inside, and with room for one. -/
theorem tracks_text (hlen : s.len ≤ 127) (hx : 0 ∉ s.text) : Tracks s s.text := by
  have hlength : s.text.length = s.len := length_bytes ..
  refine ⟨?_, hlength.symm, hlength.trans_le hlen, hx⟩
  rw [holds_iff_bytes_eq, hlength]
  rfl

theorem Tracks.editable (h : Tracks s b) : Editable s := by
  refine ⟨h.len.trans_le h.room, fun i hi hzero => h.noNul ?_⟩
  rw [h.len] at hi
  have hbyte := h.holds i b[i] (List.getElem?_eq_getElem hi)
  rw [Nat.zero_add, hzero] at hbyte
  exact hbyte ▸ List.getElem_mem hi

/-- **A line that can be edited**, after nothing but editing. -/
def Edited (s s' : State) : Prop := Edits s s' ∧ ∃ b, Tracks s' b

theorem Tracks.edited_clearLine (h : Tracks s b) : Edited s (Shell.clearLine s) :=
  ⟨edits_rubLoop _ _ (h.len.trans_le h.room), [], h.clearLine.1⟩

theorem Tracks.edited_eraseWord (h : Tracks s b) : Edited s (Shell.eraseWord s) := by
  obtain ⟨h₁, -⟩ := h.rubLoop (· = blank) s.len (Nat.le_of_eq h.len.symm)
  have hblank := @edits_rubLoop s (· = blank) s.len (h.len.trans_le h.room)
  have hword := @edits_rubLoop (Shell.rubLoop (· = blank) s.len s) (· ≠ blank)
    (Shell.rubLoop (· = blank) s.len s).len (h₁.len.trans_le h₁.room)
  exact ⟨hblank.trans hword, _, h.eraseWord.1⟩

/-- Only printable characters are accepted. -/
theorem printable_of_accepted (h : accepted k = true) : 32 ≤ k ∧ k ≤ 126 := by
  simp only [accepted, blank, ← UInt8.toNat_inj, UInt8.reduceToNat, Printf.code, Char.reduceToNat,
    UInt8.reduceOfNat, UInt8.le_iff_toNat_le, Bool.or_eq_true, decide_eq_true_eq,
    Bool.and_eq_true] at h ⊢
  omega

/-- **Any key that reaches the editor.** -/
theorem Tracks.edited_editLine (h : Tracks s b) (k : UInt8) : Edited s (Shell.editLine k s) := by
  have hlen := h.len.trans_le h.room
  by_cases hacc : accepted k = true
  · refine ⟨?_, _, (h.editLine (printable_of_accepted hacc)).1⟩
    rw [Shell.editLine]
    split
    · split
      · exact .write (by omega) 0 _ _
      · exact .refl s
    split
    · exact h.edited_clearLine.1
    split
    · exact h.edited_eraseWord.1
    split
    · next hroom =>
      rw [lineMax] at hroom
      have hput : Edits s { s with line := Function.update s.line s.len k } :=
        .write (by omega) k _ _
      exact hput.trans (.write (by omega) 0 _ _)
    · exact .refl s
  · rw [Shell.editLine]
    split
    · rcases List.eq_nil_or_concat b with rfl | ⟨b, c, rfl⟩
      · have hempty : s.len = 0 := h.len
        rw [if_neg (not_not.mpr hempty)]
        exact ⟨.refl s, _, h⟩
      · rw [List.concat_eq_append] at h
        rw [if_pos (by rw [h.len]; simp)]
        exact ⟨.write (by omega) 0 _ _, _, h.rubOut⟩
    split
    · exact h.edited_clearLine
    split
    · exact h.edited_eraseWord
    · exact ⟨.refl s, _, h⟩

theorem setLoop_text (i : ℕ) (s : State) (b : List UInt8) (hb : Holds s.line 0 b)
    (hi : b.length = i) (hlen : i + x.length ≤ 127) : (setLoop x i s).text = b ++ x := by
  induction x generalizing i s b with
  | nil =>
    subst hi
    rw [List.append_nil]
    exact holds_iff_bytes_eq.mp (hb.update 0 (Or.inr (by omega)))
  | cons c x ih =>
    subst hi
    rw [List.length_cons] at hlen
    have hnext : Holds (Function.update s.line b.length c) 0 (b ++ [c]) := by
      have := hb.push c
      rwa [Nat.zero_add] at this
    rw [setLoop, if_pos (by rw [lineMax]; omega), List.append_cons]
    exact ih (b.length + 1) _ (b ++ [c]) hnext (by simp) (by omega)

/-- **A recalled line.** -/
theorem Tracks.edited_setLine (h : Tracks s b) (hlen : x.length ≤ 127) (hx : 0 ∉ x) :
    Edited s (setLine (Shell.clearLine s) x) ∧ (setLine (Shell.clearLine s) x).text = x := by
  have htext : (setLine (Shell.clearLine s) x).text = x :=
    setLoop_text 0 (Shell.clearLine s) [] (holds_nil _ _) rfl (by omega)
  have hlength : (setLine (Shell.clearLine s) x).text.length = _ := length_bytes ..
  rw [htext] at hlength
  refine ⟨⟨h.edited_clearLine.1.trans (edits_setLoop (Nat.zero_le _)), x, ?_⟩, htext⟩
  have htracks := @tracks_text (setLine (Shell.clearLine s) x) (by omega) (by rwa [htext])
  rwa [htext] at htracks

/-- **A completed line.** -/
theorem Tracks.edited_complete (h : Tracks s b) :
    ∃ s', Shell.complete s = some s' ∧ Edited s s' := by
  obtain ⟨r, hr, hcopied⟩ :=
    exists_foldlM_tablePass h.editable commands.zero_notMem commands.short
  have hshort := hcopied.short
  rw [Shell.complete, completeTable,
    show names.foldlM (tablePass s.line s.len) ([], 0) = some r from hr]
  simp only [Option.bind_eq_bind, Option.bind_some]
  by_cases hnone : r.2 = 0
  · exact ⟨s, if_pos hnone, .refl s, b, h⟩
  have htext : s.text <+: r.1 :=
    (hcopied.longest hnone).greatest _ fun name hname => (mem_candidates.mp hname).2.1
  obtain ⟨s₁, hs₁, htext₁, hlen₁⟩ := extendLoop_text (by omega) htext (Nat.le_add_left _ s.len)
  have hzero₁ : 0 ∉ s₁.text := htext₁ ▸ hcopied.zero_notMem
  rw [if_neg hnone, hs₁]
  simp only [Option.bind_some]
  by_cases hone : r.2 = 1
  · obtain ⟨s₂, hs₂, htext₂, hlen₂⟩ := appendChar_text blank (by omega : s₁.len < 128)
    refine ⟨s₂, by rw [if_pos hone, hs₂],
      (edits_extendLoop _ hs₁).trans (edits_appendChar hs₂), s₂.text, tracks_text (by omega) ?_⟩
    rw [htext₂, List.mem_append, not_or]
    exact ⟨hzero₁, by decide⟩
  · exact ⟨s₁, if_neg hone, edits_extendLoop _ hs₁, s₁.text, tracks_text (by omega) hzero₁⟩

/-! ### The enter key -/

theorem scanLoop_lt {p : UInt8 → Bool} {m : Memory} {a e : ℕ} (h : scanLoop p m n a = some e) :
    e < a + n := by
  induction n generalizing a with
  | zero => cases h
  | succ n ih =>
    rw [scanLoop] at h
    split at h
    · have hrest := ih h
      omega
    · obtain rfl := Option.some.inj h
      omega

theorem scan_lt {p : UInt8 → Bool} {m : Memory} {a e : ℕ} (h : scan p m a = some e) : e < 128 := by
  rw [scan] at h
  have hpos : lineMax - a ≠ 0 := by
    intro hzero
    rw [hzero] at h
    cases h
  have hlt := scanLoop_lt h
  rw [lineMax] at hlt hpos
  omega

/-- The line is split inside its array. -/
theorem splitLine_behind {m m' : Memory} {cmd arg i : ℕ} (h : splitLine m = some (m', cmd, arg))
    (hi : 128 ≤ i) : m' i = m i := by
  rw [splitLine] at h
  simp only [Option.bind_eq_bind, Option.bind_eq_some_iff] at h
  obtain ⟨c, -, a, ha, h⟩ := h
  have hlt := scan_lt ha
  split at h
  · obtain ⟨e, -, h⟩ := Option.bind_eq_some_iff.mp h
    obtain rfl := (Prod.mk.inj (Option.some.inj h)).1
    exact Function.update_of_ne (by omega) _ _
  · obtain rfl := (Prod.mk.inj (Option.some.inj h)).1
    rfl

/-- What is remembered is the line, in the slot of the next entry. -/
theorem pushHistory_cases (h : pushHistory s = some s₁) :
    s₁.line = s.line ∧ (s₁.hist = s.hist ∧ s₁.histCount = s.histCount ∨
      s₁.hist = Function.update s.hist (s.histCount % histMax)
        ((s.hist (s.histCount % histMax)).write 0 (bytes s.line 0 (s.len + 1))) ∧
      s₁.histCount = u32 (s.histCount + 1)) := by
  rw [pushHistory] at h
  split at h
  · obtain rfl := Option.some.inj h
    exact ⟨rfl, .inl ⟨rfl, rfl⟩⟩
  · obtain ⟨found, -, h⟩ := Option.bind_eq_some_iff.mp h
    split at h
    · obtain rfl := Option.some.inj h
      exact ⟨rfl, .inl ⟨rfl, rfl⟩⟩
    · obtain rfl := Option.some.inj h
      exact ⟨rfl, .inr ⟨rfl, rfl⟩⟩

theorem run_line (s : State) (word arg : List UInt8) : (run s word arg).line = s.line := by
  rw [run]
  dsimp only
  split
  · rfl
  · split
    · rfl
    · rfl

/-- What enter does to the arrays, if the line is blank and if it is not. -/
theorem enter_cases (h : enter s = some s') :
    ∃ m cmd arg, splitLine (Function.update s.line s.len 0) = some (m, cmd, arg) ∧ s'.line = m ∧
      (m cmd = 0 → s'.hist = s.hist ∧ s'.histCount = s.histCount ∧ s'.histAt = s.histAt ∧
        s'.keysMode = s.keysMode) := by
  rw [enter] at h
  obtain ⟨⟨m, cmd, arg⟩, hsplit, h⟩ := Option.bind_eq_some_iff.mp h
  refine ⟨m, cmd, arg, hsplit, ?_⟩
  dsimp only at h
  split at h
  · obtain rfl := Option.some.inj h
    exact ⟨rfl, fun _ => ⟨rfl, rfl, rfl, rfl⟩⟩
  · next hne =>
    obtain ⟨s₁, hpush, h⟩ := Option.bind_eq_some_iff.mp h
    obtain ⟨word, -, h⟩ := Option.bind_eq_some_iff.mp h
    obtain ⟨rest, -, h⟩ := Option.bind_eq_some_iff.mp h
    obtain rfl := Option.some.inj h
    exact ⟨(run_line _ _ _).trans (pushHistory_cases hpush).1, fun hzero => absurd hzero hne⟩

/-! ### What every key keeps -/

/-- A string that ends inside the array. -/
def Terminated (m : Memory) : Prop := ∃ x, 0 ∉ x ∧ x.length ≤ 127 ∧ Holds m 0 (x ++ [0])

/-- A command line as a command expects it: a word without blanks, and its argument, which fit into
the line together. -/
structure Submission.Valid (c : Submission) : Prop where
  word_ne_nil : c.word ≠ []
  blank_notMem : blank ∉ c.word
  length_le : c.word.length + c.arg.length ≤ 127
  zero_notMem : 0 ∉ c.word ++ c.arg
  index_eq : c.index = find c.word

/-- The shell waiting for a key. -/
structure Sound (s : State) : Prop where
  /-- The line can be edited. -/
  tracks : ∃ b, Tracks s b
  /-- The bytes behind the line. -/
  behind : ∀ i, 128 ≤ i → s.line i = 0
  /-- The slots of the history. -/
  slot : ∀ j, Terminated (s.hist j)
  /-- The bytes behind a slot, and behind the last slot. -/
  slot_behind : ∀ j i, 16 ≤ j ∨ 128 ≤ i → s.hist j i = 0
  /-- The entries are distinct. -/
  entries_nodup : (entries s).Nodup
  /-- Each is a string with a word in it. -/
  entries_word : ∀ e ∈ entries s, ∃ x, e = some x ∧ ∃ c ∈ x, c ≠ blank
  count_lt : s.histCount < 2 ^ 32
  at_lt : s.histAt < 2 ^ 32
  /-- The walk through the history is at a line that is remembered, or behind the last one, as long
  as the counter is not at its last value. -/
  at_mem : s.histCount + 1 < 2 ^ 32 → histFirst s ≤ s.histAt ∧ s.histAt ≤ s.histCount
  /-- The commands run. -/
  valid : ∀ c ∈ s.ran, c.Valid

theorem histFirst_le (s : State) : histFirst s ≤ s.histCount := by
  rw [histFirst]
  split
  · exact Nat.sub_le _ _
  · exact Nat.zero_le _

/-- **Editing.** -/
theorem Sound.edited (h : Sound s) (he : Edited s s') : Sound s' where
  tracks := he.2
  behind i hi := (he.1.behind i hi).trans (h.behind i hi)
  slot := by
    rw [he.1.hist]
    exact h.slot
  slot_behind := by
    rw [he.1.hist]
    exact h.slot_behind
  entries_nodup := by
    rw [entries_congr he.1.hist he.1.count]
    exact h.entries_nodup
  entries_word := by
    rw [entries_congr he.1.hist he.1.count]
    exact h.entries_word
  count_lt := he.1.count.trans_lt h.count_lt
  at_lt := he.1.histAt.trans_lt h.at_lt
  at_mem := by
    rw [he.1.histFirst_eq, he.1.histAt, he.1.count]
    exact h.at_mem
  valid := by
    rw [he.1.ran]
    exact h.valid

/-- **Another entry of the history.** -/
theorem Sound.move (h : Sound s) {a : ℕ} (ha : a < 2 ^ 32)
    (hmem : s.histCount + 1 < 2 ^ 32 → histFirst s ≤ a ∧ a ≤ s.histCount) :
    Sound { s with histAt := a } where
  tracks := by
    obtain ⟨b, hb⟩ := h.tracks
    exact ⟨b, hb.congr rfl rfl⟩
  behind := h.behind
  slot := h.slot
  slot_behind := h.slot_behind
  entries_nodup := h.entries_nodup
  entries_word := h.entries_word
  count_lt := h.count_lt
  at_lt := ha
  at_mem := hmem
  valid := h.valid

theorem Sound.edited_clearLine (h : Sound s) :
    Edited s (Shell.clearLine s) ∧ (Shell.clearLine s).text = [] := by
  obtain ⟨b, hb⟩ := h.tracks
  exact ⟨hb.edited_clearLine, hb.clearLine.1.bytes_eq⟩

/-- **An entry in the line**, or nothing behind the last one. -/
theorem Sound.exists_recallEntry (h : Sound s) :
    ∃ s', recallEntry s = some s' ∧ Sound s' ∧ Edits s s' ∧
      if s.histCount ≤ s.histAt then s'.text = []
      else cstr (s.hist (older s % histMax)) 0 = some s'.text := by
  obtain ⟨b, hb⟩ := h.tracks
  obtain ⟨hclear, htext⟩ := h.edited_clearLine
  have hedits := hclear.1
  rw [recallEntry, hedits.count, hedits.histAt, hedits.hist, hedits.older_eq]
  split
  · exact ⟨_, rfl, h.edited hclear, hedits, htext⟩
  · obtain ⟨x, hx, hlen, hholds⟩ := h.slot (older s % histMax)
    obtain ⟨hset, hsettext⟩ := hb.edited_setLine hlen hx
    rw [cstr_eq hholds hx (by omega)]
    exact ⟨_, rfl, h.edited hset, hset.1, congrArg some hsettext.symm⟩

/-- **Up and down.** -/
theorem Sound.recall (h : Sound s) (back : Bool) :
    ∃ s', Shell.recall back s = some s' ∧ Sound s' := by
  have hcount := h.count_lt
  have hat := h.at_lt
  have hmem := h.at_mem
  have hfirst := histFirst_le s
  rw [Shell.recall]
  split
  · exact ⟨s, rfl, h⟩
  split
  · split
    · exact ⟨s, rfl, h⟩
    · have hback : s.histCount + 1 < 2 ^ 32 → u32 (s.histAt + 2 ^ 32 - 1) = s.histAt - 1 := by
        rw [u32]
        omega
      obtain ⟨s', hs', hsound, -⟩ := (h.move (a := u32 (s.histAt + 2 ^ 32 - 1))
        (Nat.mod_lt _ (by decide)) (by omega)).exists_recallEntry
      exact ⟨s', hs', hsound⟩
  split
  · have hlast : Sound { s with histAt := s.histCount } := h.move hcount (by omega)
    exact ⟨_, rfl, hlast.edited hlast.edited_clearLine.1⟩
  · have hnext : s.histCount + 1 < 2 ^ 32 → u32 (s.histAt + 1) = s.histAt + 1 := by
      rw [u32]
      omega
    obtain ⟨s', hs', hsound, -⟩ := (h.move (a := u32 (s.histAt + 1))
      (Nat.mod_lt _ (by decide)) (by omega)).exists_recallEntry
    exact ⟨s', hs', hsound⟩

/-- A slot that a terminated line is written to. -/
theorem terminated_write {m m' : Memory} {len : ℕ} (hholds : Holds m' 0 (x ++ [0])) (hx : 0 ∉ x)
    (hlen : x.length ≤ len) (hroom : len ≤ 127) :
    Terminated (m.write 0 (bytes m' 0 (len + 1))) := by
  refine ⟨x, hx, hlen.trans hroom, fun i c hc => ?_⟩
  have hi := (List.getElem?_eq_some_iff.mp hc).1
  rw [List.length_append, List.length_singleton] at hi
  refine holds_write _ 0 _ i c ?_
  rw [getElem?_bytes (by omega), hholds i c hc]

/-- **Remembering** writes inside one slot. -/
theorem slots_pushHistory (hpush : pushHistory s = some s₁) (hslot : ∀ j, Terminated (s.hist j))
    (hbehind : ∀ j i, 16 ≤ j ∨ 128 ≤ i → s.hist j i = 0) (hroom : s.len ≤ 127)
    (hholds : Holds s.line 0 (x ++ [0])) (hx : 0 ∉ x) (hlen : x.length ≤ s.len) :
    (∀ j, Terminated (s₁.hist j)) ∧ ∀ j i, 16 ≤ j ∨ 128 ≤ i → s₁.hist j i = 0 := by
  obtain ⟨-, ⟨hsame, -⟩ | ⟨hwrite, -⟩⟩ := pushHistory_cases hpush
  · rw [hsame]
    exact ⟨hslot, hbehind⟩
  have hlast : s.histCount % histMax < 16 := Nat.mod_lt _ (by decide)
  rw [hwrite]
  constructor
  · intro j
    by_cases hj : j = s.histCount % histMax
    · rw [hj, Function.update_self]
      exact terminated_write hholds hx hlen hroom
    · rw [Function.update_of_ne hj]
      exact hslot j
  · intro j i hji
    by_cases hj : j = s.histCount % histMax
    · rw [hj, Function.update_self, eqOutside_write _ 0 _ i ?_]
      · exact hbehind _ i (by omega)
      · rw [outside_singleton, length_bytes]
        omega
    · rw [Function.update_of_ne hj]
      exact hbehind j i hji

/-- A line up to the end of its first word has that word in it. -/
theorem exists_mem_cutLine (hne : ∃ c ∈ b, c ≠ blank) : ∃ c ∈ cutLine b, c ≠ blank := by
  have hword : wordOf b ≠ [] := by
    rw [Ne, wordOf_eq_nil_iff]
    obtain ⟨c, hc, hcb⟩ := hne
    exact fun hall => hcb (hall c hc)
  obtain ⟨c, hc⟩ := List.exists_mem_of_ne_nil _ hword
  refine ⟨c, List.mem_append_right _ hc, ?_⟩
  rw [wordOf] at hc
  simpa using List.mem_takeWhile_imp hc

/-- **The entries stay distinct words.** -/
theorem entries_pushHistory (hpush : pushHistory s = some s₁) (hcount_lt : s.histCount < 2 ^ 32)
    (hnodup : (entries s).Nodup) (hwords : ∀ e ∈ entries s, ∃ x, e = some x ∧ ∃ c ∈ x, c ≠ blank)
    (hholds : Holds s.line 0 (x ++ [0])) (hx : 0 ∉ x) (hlen : x.length ≤ s.len)
    (hroom : s.len ≤ 127) (hne : s.len ≠ 0) (hword : ∃ c ∈ x, c ≠ blank) :
    (entries s₁).Nodup ∧ ∀ e ∈ entries s₁, ∃ x, e = some x ∧ ∃ c ∈ x, c ≠ blank := by
  obtain ⟨s₂, hs₂, hspec⟩ := pushHistory_eq hholds hx hlen (by omega) hne
  obtain rfl := Option.some.inj (hpush.symm.trans hs₂)
  split at hspec
  · rw [hspec.2]
    exact ⟨hnodup, hwords⟩
  next hnew =>
  obtain ⟨hcount, hentries⟩ := hspec
  by_cases hwrap : s.histCount + 1 < 2 ^ 32
  · have hsub : (entries s₁).Sublist (entries s ++ [some x]) := by
      rw [hentries hwrap]
      exact List.drop_sublist _ _
    refine ⟨hsub.nodup ?_, fun e he => ?_⟩
    · rw [List.nodup_append]
      refine ⟨hnodup, List.nodup_singleton _, fun e he e' he' heq => hnew ?_⟩
      rw [← List.mem_singleton.mp he', ← heq]
      exact he
    · rcases List.mem_append.mp (hsub.subset he) with he | he
      · exact hwords e he
      · exact ⟨x, List.mem_singleton.mp he, hword⟩
  · -- the counter wraps, and the history is empty
    have hzero : s₁.histCount = 0 := by
      rw [hcount, u32]
      omega
    rw [entries_eq_nil hzero]
    exact ⟨List.nodup_nil, fun e he => absurd he List.not_mem_nil⟩

/-- The words handed over are those of the line. -/
theorem valid_submission (hlen : b.length ≤ 127) (hb : 0 ∉ b) (hne : ∃ c ∈ b, c ≠ blank) :
    Submission.Valid ⟨wordOf b, argOf b, find (wordOf b)⟩ := by
  have hcut := cutLine_append b
  have hsub : argOf b <:+ (b.dropWhile (· = blank)).dropWhile (· ≠ blank) :=
    List.dropWhile_suffix _
  have harg := hsub.length_le
  rw [cutLine, List.append_assoc] at hcut
  have hlength := congrArg List.length hcut
  rw [List.length_append, List.length_append] at hlength
  constructor
  · rw [Ne, wordOf_eq_nil_iff]
    obtain ⟨c, hc, hcb⟩ := hne
    exact fun hall => hcb (hall c hc)
  · intro hmem
    rw [wordOf] at hmem
    have hword := List.mem_takeWhile_imp hmem
    exact absurd hword (by decide)
  · dsimp only
    omega
  · rw [List.mem_append, not_or]
    rw [← hcut, List.mem_append, List.mem_append, not_or, not_or] at hb
    exact ⟨hb.2.1, fun hmem => hb.2.2 (hsub.subset hmem)⟩
  · rfl

theorem Sound.behind_enter (h : Sound s) (hs' : Shell.enter s = some s') {i : ℕ} (hi : 128 ≤ i) :
    s'.line i = 0 := by
  obtain ⟨b, hb⟩ := h.tracks
  have hroom := hb.len.trans_le hb.room
  obtain ⟨m, cmd, arg, hsplit, rfl, -⟩ := enter_cases hs'
  rw [splitLine_behind hsplit hi, Function.update_of_ne (by omega)]
  exact h.behind i hi

/-- **Enter on a blank line.** The line stays. -/
theorem Sound.enter_of_blank (h : Sound s) (hb : Tracks s b) (hblank : ∀ c ∈ b, c = blank) :
    ∃ s', Shell.enter s = some s' ∧ Sound s' := by
  have hroom : b.length < 128 := Nat.lt_succ_of_le hb.room
  obtain ⟨s', hs', hholds, hlen, hran⟩ := enter_blank hb.holds hb.len hroom hblank
  obtain ⟨m, cmd, arg, hsplit, -, hsame⟩ := enter_cases hs'
  have hzero : m cmd = 0 := by
    obtain ⟨m', cmd', arg', hsplit', hcmd, -⟩ :=
      splitLine_eq (holds_terminated hb.holds hb.len) hb.noNul hroom
    obtain ⟨rfl, hcmd'⟩ := Prod.mk.inj (Option.some.inj (hsplit.symm.trans hsplit'))
    obtain rfl := (Prod.mk.inj hcmd').1
    exact hcmd.mpr ((wordOf_eq_nil_iff b).mpr hblank)
  obtain ⟨hhist, hcount, hat, hkeys⟩ := hsame hzero
  have hedits : Edits s s' := ⟨hhist, hcount, hat, hkeys, hran,
    fun i hi => (h.behind_enter hs' hi).trans (h.behind i hi).symm⟩
  exact ⟨s', hs', h.edited ⟨hedits, b, hholds, hlen.trans hb.len, hb.room, hb.noNul⟩⟩

/-- **Enter on a command.** It is remembered and run, and the next line is empty. -/
theorem Sound.enter_of_command (h : Sound s) (hb : Tracks s b) (hne : ∃ c ∈ b, c ≠ blank) :
    ∃ s', Shell.enter s = some s' ∧ Sound s' := by
  have hroom := hb.room
  have hslen := hb.len
  obtain ⟨m', s₁, s', hcut, hpush, hs', hhist, hcount, hat, hlen, hran⟩ :=
    enter_eq hb.holds hb.len (by omega) hb.noNul hne
  have hstart : cutLine b <+: b := ⟨_, cutLine_append b⟩
  have hcutlen := hstart.length_le
  have hcutnul : 0 ∉ cutLine b := fun hzero => hb.noNul (hstart.subset hzero)
  have hfilled : s.len ≠ 0 := by
    obtain ⟨c, hc, -⟩ := hne
    have hpos := List.length_pos_of_mem hc
    omega
  obtain ⟨-, hcases⟩ := pushHistory_cases hpush
  obtain ⟨hslot, hslot_behind⟩ := slots_pushHistory hpush h.slot h.slot_behind
    (hslen.trans_le hroom) hcut hcutnul (hcutlen.trans_eq hslen.symm)
  have hat' : s'.histAt = s'.histCount := hat.trans hcount.symm
  have hcount_lt : s'.histCount < 2 ^ 32 := by
    rw [hcount]
    rcases hcases with ⟨-, hsame⟩ | ⟨-, hnext⟩
    · exact hsame.trans_lt h.count_lt
    · rw [hnext, u32]
      exact Nat.mod_lt _ (by decide)
  obtain ⟨hnodup, hword⟩ := entries_pushHistory hpush h.count_lt h.entries_nodup h.entries_word
    hcut hcutnul (hcutlen.trans_eq hslen.symm) (hslen.trans_le hroom) hfilled
    (exists_mem_cutLine hne)
  rw [← entries_congr hhist hcount] at hnodup hword
  rw [← hhist] at hslot hslot_behind
  refine ⟨s', hs', ⟨[], holds_nil _ _, hlen, Nat.zero_le _, List.not_mem_nil⟩,
    fun i hi => h.behind_enter hs' hi, hslot, hslot_behind, hnodup, hword, hcount_lt,
    hat'.trans_lt hcount_lt, fun _ => ⟨(histFirst_le s').trans_eq hat'.symm, hat'.le⟩, ?_⟩
  intro c hc
  rw [hran, List.mem_append, List.mem_singleton] at hc
  rcases hc with hc | rfl
  · exact h.valid c hc
  · exact valid_submission hroom hb.noNul hne

/-- **Enter.** -/
theorem Sound.enter (h : Sound s) : ∃ s', Shell.enter s = some s' ∧ Sound s' := by
  obtain ⟨b, hb⟩ := h.tracks
  by_cases hblank : ∀ c ∈ b, c = blank
  · exact h.enter_of_blank hb hblank
  · exact h.enter_of_command hb (by simpa using hblank)

/-! ### Any keys -/

/-- The echo of a key code. -/
theorem exists_printf_edits (s : State) (w : UInt64) :
    ∃ s₁, printf s (chars "key     : %x\r\n") [w] = some s₁ ∧ Edits s s₁ ∧ s₁.line = s.line ∧
      s₁.len = s.len := by
  obtain ⟨s₁, hs₁, hline, hlen, -⟩ := exists_printf_key s w
  refine ⟨s₁, hs₁, ?_, hline, hlen⟩
  rw [printf] at hs₁
  obtain ⟨⟨calls, k⟩, -, hs₁⟩ := Option.bind_eq_some_iff.mp hs₁
  obtain rfl := Option.some.inj hs₁
  exact ⟨rfl, rfl, rfl, rfl, rfl, fun _ _ => rfl⟩

/-- **One key.** -/
theorem Sound.step (h : Sound s) (k : UInt8) : ∃ s', Shell.step s k = some s' ∧ Sound s' := by
  obtain ⟨s₁, hs, hecho⟩ : ∃ s₁, Sound s₁ ∧ ∀ f : State → Option State,
      (if s.keysMode = true ∧ k ≠ 10 then
        printf s (chars "key     : %x\r\n") [k.toUInt64] >>= f else some s >>= f) = f s₁ := by
    split
    · obtain ⟨s₁, hs₁, hedits, hline, hlen⟩ := exists_printf_edits s k.toUInt64
      obtain ⟨b, hb⟩ := h.tracks
      refine ⟨s₁, h.edited ⟨hedits, b, hb.congr hline hlen⟩, fun f => ?_⟩
      rw [hs₁]
      rfl
    · exact ⟨s, h, fun _ => rfl⟩
  obtain ⟨b, hb⟩ := hs.tracks
  rw [Shell.step, hecho]
  dsimp only
  split
  · exact ⟨s₁, rfl, hs⟩
  split
  · exact hs.recall true
  split
  · exact hs.recall false
  split
  · obtain ⟨s', hs', hedited⟩ := hb.edited_complete
    exact ⟨s', hs', hs.edited hedited⟩
  split
  · exact ⟨_, rfl, hs.edited ⟨⟨rfl, rfl, rfl, rfl, rfl, fun _ _ => rfl⟩, b, hb.congr rfl rfl⟩⟩
  split
  · have hputs : Tracks (puts s₁ (chars "^C\r\n")) b := hb.congr rfl rfl
    have hclear := hputs.edited_clearLine
    obtain ⟨b', hb'⟩ := hclear.2
    exact ⟨_, rfl, hs.edited ⟨⟨hclear.1.hist, hclear.1.count, hclear.1.histAt, hclear.1.keys,
      hclear.1.ran, hclear.1.behind⟩, b', hb'.congr rfl rfl⟩⟩
  split
  · exact hs.enter
  · exact ⟨_, rfl, hs.edited (hb.edited_editLine k)⟩

theorem sound_boot : Sound State.boot where
  tracks := ⟨[], holds_nil _ _, rfl, Nat.zero_le _, List.not_mem_nil⟩
  behind _ _ := rfl
  slot _ := ⟨[], List.not_mem_nil, Nat.zero_le _, holds_cons_iff.mpr ⟨rfl, holds_nil _ _⟩⟩
  slot_behind _ _ _ := rfl
  entries_nodup := List.nodup_nil
  entries_word _ he := absurd he List.not_mem_nil
  count_lt := by decide
  at_lt := by decide
  at_mem _ := ⟨le_rfl, le_rfl⟩
  valid _ hc := absurd hc List.not_mem_nil

theorem steps_append (s : State) (keys keys' : List UInt8) :
    steps s (keys ++ keys') = (steps s keys).bind (steps · keys') := List.foldlM_append

theorem steps_singleton (s : State) (k : UInt8) : steps s [k] = Shell.step s k := by
  simp [steps]

/-- Any keys, from any sound state. -/
theorem Sound.steps (h : Sound s) (keys : List UInt8) :
    ∃ s', Shell.steps s keys = some s' ∧ Sound s' := by
  induction keys using List.reverseRecOn with
  | nil => exact ⟨s, rfl, h⟩
  | append_singleton keys k ih =>
    obtain ⟨s₁, hs₁, hsound₁⟩ := ih
    obtain ⟨s', hs', hsound'⟩ := hsound₁.step k
    exact ⟨s', by rw [steps_append, hs₁, Option.bind_some, steps_singleton, hs'], hsound'⟩

end Shell

end Qizo
