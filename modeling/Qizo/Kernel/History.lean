import Qizo.Kernel.Shell
import Qizo.Lib.Ring

/-!
# The command history

What `push_history` of `kernel/shell.c` remembers over a session, and what `hist` prints of it. The
slots are a ring of 16, and a line is added unless it is one of those remembered. The line has been
split before it gets there, so what is compared and kept ends with its first word. The counter has
32 bits.

## Main results

* `pushHistory_eq` — one line is remembered as in a ring of distinct strings
* `exists_submitLines` — so is every sequence, cut behind the first words
* `remembers_iff_and_lists_iff` — when whole lines are remembered, and when they are listed
-/

namespace Qizo

namespace Shell

open Memory Printf

/-! ### Entries -/

/-- The remembered strings, in the order of the loop of `hist`. -/
def entries (s : State) : List (Option (List UInt8)) :=
  (List.range' (histFirst s) (s.histCount - histFirst s)).map fun i => cstr (s.hist (i % histMax)) 0

/-- A line that can be entered: at most 127 characters, none of them a terminator, not all of them
blank. -/
structure Line where
  /-- The characters. -/
  text : List UInt8
  /-- They fit. -/
  length_le : text.length ≤ 127
  /-- None ends the string. -/
  noNul : 0 ∉ text
  /-- There is a word. -/
  nonblank : ∃ c ∈ text, c ≠ blank

/-- The enter key with a line in the editor. -/
def submitLine (s : State) (l : Line) : Option State :=
  enter { s with line := s.line.write 0 l.text, len := l.text.length }

/-- Lines entered one after the other. -/
def submitLines (s : State) (ls : List Line) : Option State := ls.foldlM submitLine s

/-- The lines a history remembers: each one that is not among the last 16 remembered. -/
def remembered (ls : List (List UInt8)) : List (List UInt8) := ls.foldl (Ring.remember histMax) []

/-- After these lines the history holds the last 16 of those to be remembered. -/
def Remembers (ls : List Line) : Prop :=
  ∃ s, submitLines .boot ls = some s ∧
    entries s = ((remembered (ls.map Line.text)).rtake histMax).map some

/-! ### The listing -/

/-- The calls of `qizo_printf` by `hist`, for `n` entries from `i` on. `addr` is where a slot is,
`str` the string at an address, `junk` what the variable argument list holds behind the
arguments. -/
def histCalls (str : UInt64 → List UInt8) (addr : ℕ → UInt64) (junk : ℕ → UInt64) (first : ℕ) :
    (n i : ℕ) → Option (List (List UInt8))
  | 0, _ => some []
  | n + 1, i => do
    let (out, _) ← qizoPrintf str
      (fun k => [UInt64.ofNat (i - first + 1), addr (i % histMax)].getD k (junk k))
      (chars "  %2u  %s\r\n")
    let outs ← histCalls str addr junk first n (i + 1)
    some (out ++ outs)

/-- `cmd_hist`. -/
def cmdHist (str : UInt64 → List UInt8) (addr : ℕ → UInt64) (junk : ℕ → UInt64) (s : State) :
    Option (List UInt8) := do
  let out ← histCalls str addr junk (histFirst s) (s.histCount - histFirst s) (histFirst s)
  some (out.flatten ++
    if histFirst s = s.histCount then chars "hist    : nothing remembered yet\r\n" else [])

/-- Where the entries are, and the strings there: `addr` gives the address of a slot, and `str` has
at that address the string that is in the slot. -/
structure Placed (s : State) (str : UInt64 → List UInt8) (addr : ℕ → UInt64) : Prop where
  /-- No slot is at the null pointer. -/
  addr_ne : ∀ i, histFirst s ≤ i → i < s.histCount → addr (i % histMax) ≠ 0
  /-- A slot is read where it is. -/
  str_addr : ∀ i, histFirst s ≤ i → i < s.histCount →
    cstr (s.hist (i % histMax)) 0 = some (str (addr (i % histMax)))

/-- A listing of lines, numbered from `k` on. -/
def listing : (k : ℕ) → List (List UInt8) → List UInt8
  | _, [] => []
  | k, l :: ls => chars "  " ++ (numeral 10 k).leftpad 2 blank ++ chars "  " ++ l ++
      chars "\r\n" ++ listing (k + 1) ls

/-- After these lines `hist` lists those remembered. -/
def Lists (ls : List Line) : Prop :=
  ∃ s, submitLines .boot ls = some s ∧ ∀ str addr junk, Placed s str addr →
    cmdHist str addr junk s =
      some (match (remembered (ls.map Line.text)).rtake histMax with
        | [] => chars "hist    : nothing remembered yet\r\n"
        | ls => listing 1 ls)

/-! ### Comparing with an entry -/

variable {s : State} {m : Memory} {x : List UInt8}

/-- `qizo_strcmp` finds a string equal to the one in the line where it is one. -/
theorem exists_strcmpLoop_eq {a b : Memory} (n i : ℕ) (hb : Holds b i (x ++ [0])) (hx : 0 ∉ x)
    (hn : x.length < n) :
    ∃ d, strcmpLoop a b n i = some d ∧ (d = 0 ↔ Holds a i (x ++ [0])) := by
  induction x generalizing n i with
  | nil =>
    obtain ⟨n, rfl⟩ := Nat.exists_eq_add_one_of_ne_zero (by omega : n ≠ 0)
    have hbi : b i = 0 := hb 0 0 rfl
    rw [strcmpLoop, hbi, if_neg (fun hand => hand.1 hand.2)]
    refine ⟨_, rfl, ?_⟩
    rw [List.nil_append, holds_cons_iff, ← UInt8.toNat_inj]
    simp [holds_nil]
  | cons c x ih =>
    obtain ⟨n, rfl⟩ := Nat.exists_eq_add_one_of_ne_zero (by omega : n ≠ 0)
    rw [List.mem_cons, not_or] at hx
    rw [List.length_cons] at hn
    rw [List.cons_append, holds_cons_iff] at hb
    rw [List.cons_append, strcmpLoop, hb.1, holds_cons_iff]
    by_cases hac : a i = c
    · rw [if_pos ⟨by rw [hac]; exact Ne.symm hx.1, hac⟩]
      obtain ⟨d, hd, hiff⟩ := ih n (i + 1) hb.2 hx.2 (by omega)
      exact ⟨d, hd, by rw [hiff]; simp [hac]⟩
    · rw [if_neg (fun hand => hac hand.2)]
      refine ⟨_, rfl, iff_of_false (fun hd => hac (UInt8.toNat_inj.mp ?_)) fun hand => hac hand.1⟩
      omega

theorem scanLoop_stop {p : UInt8 → Bool} {n a e : ℕ} (h : scanLoop p m n a = some e) :
    a ≤ e ∧ p (m e) = false := by
  induction n generalizing a with
  | zero => exact absurd h (Option.some_ne_none e).symm
  | succ n ih =>
    rw [scanLoop] at h
    split at h
    · obtain ⟨hle, hp⟩ := ih h
      exact ⟨by omega, hp⟩
    · rename_i hp
      obtain rfl := Option.some.inj h
      exact ⟨le_rfl, by simpa using hp⟩

/-- A string that is read is there with its terminator. -/
theorem holds_of_cstr_eq (h : cstr m 0 = some x) : Holds m 0 (x ++ [0]) := by
  rw [cstr, Option.map_eq_some_iff] at h
  obtain ⟨e, he, hx⟩ := h
  obtain ⟨-, hstop⟩ := scanLoop_stop he
  have hm : m e = 0 := by simpa using hstop
  have hlen : x.length = e := by rw [← hx, length_bytes, Nat.sub_zero]
  have hholds : Holds m 0 x := by
    rw [holds_iff_bytes_eq, hlen]
    simpa using hx
  have := hholds.push 0
  rwa [Nat.zero_add, hlen, ← hm, Function.update_eq_self, hm] at this

theorem cstr_eq_iff (hx : 0 ∉ x) (hlen : x.length < 128) :
    cstr m 0 = some x ↔ Holds m 0 (x ++ [0]) :=
  ⟨holds_of_cstr_eq, fun h => cstr_eq h hx (by omega)⟩

/-- The search finds a remembered string. -/
theorem exists_histLoop_eq (hs : Holds s.line 0 (x ++ [0])) (hx : 0 ∉ x) (hlen : x.length < 128)
    (n i : ℕ) : ∃ found, histLoop s n i = some found ∧ (found = true ↔
      some x ∈ (List.range' i n).map fun j => cstr (s.hist (j % histMax)) 0) := by
  induction n generalizing i with
  | zero => exact ⟨false, rfl, by simp⟩
  | succ n ih =>
    obtain ⟨d, hd, hiff⟩ := exists_strcmpLoop_eq (a := s.hist (i % histMax)) lineMax 0 hs hx hlen
    rw [← cstr_eq_iff hx hlen] at hiff
    obtain ⟨found, hfound, hmem⟩ := ih (i + 1)
    rw [histLoop, qizoStrcmp, hd, Option.bind_eq_bind, Option.bind_some, List.range'_succ,
      List.map_cons, List.mem_cons]
    by_cases hd0 : d = 0
    · rw [if_pos hd0]
      exact ⟨true, rfl, by simp [hiff.mp hd0]⟩
    · rw [if_neg hd0]
      refine ⟨found, hfound, ?_⟩
      rw [hmem]
      have hne : some x ≠ cstr (s.hist (i % histMax)) 0 := fun heq => hd0 (hiff.mpr heq.symm)
      simp [hne]

/-! ### One line -/

/-- The entries are the window of a ring of strings. -/
theorem entries_eq (s : State) :
    entries s = Ring.window histMax (fun j => cstr (s.hist j) 0) s.histCount := by
  have hfirst : histFirst s = s.histCount - histMax := by
    unfold histFirst
    split <;> omega
  rw [entries, Ring.window, hfirst]

/-- **A line is remembered** unless an entry is equal to it. -/
theorem pushHistory_eq (hs : Holds s.line 0 (x ++ [0])) (hx : 0 ∉ x) (hlen : x.length ≤ s.len)
    (hroom : s.len < 128) (hne : s.len ≠ 0) :
    ∃ s', pushHistory s = some s' ∧
      if some x ∈ entries s then s'.histCount = s.histCount ∧ entries s' = entries s
      else s'.histCount = u32 (s.histCount + 1) ∧ (s.histCount + 1 < 2 ^ 32 →
        entries s' = (entries s ++ [some x]).rtake histMax) := by
  obtain ⟨found, hfound, hiff⟩ :=
    exists_histLoop_eq hs hx (by omega) (s.histCount - histFirst s) (histFirst s)
  rw [pushHistory, if_neg hne, hfound, Option.bind_eq_bind, Option.bind_some]
  rw [← entries] at hiff
  by_cases hf : found = true
  · rw [if_pos hf]
    refine ⟨_, rfl, ?_⟩
    rw [if_pos (hiff.mp hf)]
    exact ⟨rfl, rfl⟩
  · rw [if_neg hf]
    refine ⟨_, rfl, ?_⟩
    rw [if_neg (fun hm => hf (hiff.mpr hm))]
    refine ⟨rfl, fun hcount => ?_⟩
    -- The slot now holds the string with its terminator, and the other slots are as before.
    have hslot : Holds ((s.hist (s.histCount % histMax)).write 0 (bytes s.line 0 (s.len + 1))) 0
        (x ++ [0]) := by
      intro i b hb
      have hi : i < s.len + 1 := by
        have := (List.getElem?_eq_some_iff.mp hb).1
        rw [List.length_append, List.length_singleton] at this
        omega
      refine holds_write _ 0 _ i b ?_
      rw [getElem?_bytes hi, hs i b hb]
    have hupdate : (fun j => cstr (Function.update s.hist (s.histCount % histMax)
        ((s.hist (s.histCount % histMax)).write 0 (bytes s.line 0 (s.len + 1))) j) 0) =
        Function.update (fun j => cstr (s.hist j) 0) (s.histCount % histMax) (some x) := by
      funext j
      by_cases hj : j = s.histCount % histMax
      · subst hj
        rw [Function.update_self, Function.update_self, cstr_eq hslot hx (by omega)]
      · rw [Function.update_of_ne hj, Function.update_of_ne hj]
    rw [entries_eq, entries_eq, u32, Nat.mod_eq_of_lt hcount, hupdate,
      Ring.window_push (by decide)]

/-- **Entering a line** remembers it up to the end of its first word. -/
theorem submitLine_eq (s : State) (l : Line) :
    ∃ s', submitLine s l = some s' ∧ s'.histAt = s'.histCount ∧
      if some (cutLine l.text) ∈ entries s then
        s'.histCount = s.histCount ∧ entries s' = entries s
      else s'.histCount = u32 (s.histCount + 1) ∧ (s.histCount + 1 < 2 ^ 32 →
        entries s' = (entries s ++ [some (cutLine l.text)]).rtake histMax) := by
  have hcut := cutLine_append l.text
  have hlen : (cutLine l.text).length ≤ l.text.length := by
    have := congrArg List.length hcut
    rw [List.length_append] at this
    omega
  have hnul : 0 ∉ cutLine l.text := fun hm => l.noNul (by rw [← hcut]; simp [hm])
  have hne : l.text.length ≠ 0 := by
    obtain ⟨c, hc, -⟩ := l.nonblank
    have := List.length_pos_of_mem hc
    omega
  have hroom := l.length_le
  have hline : Holds (s.line.write 0 l.text) 0 l.text := holds_write _ _ _
  obtain ⟨m', s₁, s', hholds, hpush, henter, hhist, hcount, hat, -, -⟩ :=
    enter_eq (s := { s with line := s.line.write 0 l.text, len := l.text.length }) hline rfl
      (by omega) l.noNul l.nonblank
  obtain ⟨s₂, hpush₂, hspec⟩ := pushHistory_eq
    (s := { puts { s with line := s.line.write 0 l.text, len := l.text.length } (chars "\r\n") with
      line := m' }) hholds hnul hlen (by simp only [puts]; omega) hne
  obtain rfl : s₁ = s₂ := Option.some.inj (hpush.symm.trans hpush₂)
  have hentries : entries s' = entries s₁ := by
    rw [entries_eq, entries_eq, hhist, hcount]
  refine ⟨s', henter, hat.trans hcount.symm, ?_⟩
  rw [hcount, hentries]
  exact hspec

/-! ### Sessions -/

theorem remembered_concat (ls : List (List UInt8)) (l : List UInt8) :
    remembered (ls ++ [l]) = Ring.remember histMax (remembered ls) l := by
  simp [remembered]

theorem submitLines_concat (s : State) (ls : List Line) (l : Line) :
    submitLines s (ls ++ [l]) = (submitLines s ls).bind (submitLine · l) := by
  simp [submitLines]

/-- The lines cut behind their first words. -/
def cutLines (ls : List Line) : List (List UInt8) := ls.map fun l => cutLine l.text

/-- **A session** remembers the lines cut behind their first words, while the counter has not
wrapped. -/
theorem exists_submitLines (ls : List Line) :
    ∃ s, submitLines .boot ls = some s ∧ ((remembered (cutLines ls)).length < 2 ^ 32 →
      s.histCount = (remembered (cutLines ls)).length ∧
      entries s = ((remembered (cutLines ls)).rtake histMax).map some) := by
  induction ls using List.reverseRecOn with
  | nil => exact ⟨.boot, rfl, fun _ => ⟨rfl, rfl⟩⟩
  | append_singleton ls l ih =>
    obtain ⟨s, hs, ih⟩ := ih
    obtain ⟨s', hs', -, hspec⟩ := submitLine_eq s l
    refine ⟨s', by rw [submitLines_concat, hs]; exact hs', fun hlt => ?_⟩
    rw [cutLines, List.map_append, List.map_singleton, ← cutLines, remembered_concat] at hlt ⊢
    obtain ⟨hcount, hentries⟩ := ih ((Ring.length_le_remember _ _ _).trans_lt hlt)
    have hmem : some (cutLine l.text) ∈ entries s ↔
        cutLine l.text ∈ (remembered (cutLines ls)).rtake histMax := by
      rw [hentries]
      exact List.mem_map_of_injective (Option.some_injective _)
    rw [Ring.rtake_remember]
    unfold Ring.remember at hlt ⊢
    by_cases hm : cutLine l.text ∈ (remembered (cutLines ls)).rtake histMax
    · rw [if_pos (hmem.mpr hm)] at hspec
      rw [if_pos hm, if_pos hm, hspec.1, hspec.2]
      exact ⟨hcount, hentries⟩
    · rw [if_neg (fun hm' => hm (hmem.mp hm'))] at hspec
      rw [if_neg hm] at hlt
      rw [if_neg hm, if_neg hm]
      rw [List.length_append, List.length_singleton] at hlt ⊢
      refine ⟨?_, ?_⟩
      · rw [hspec.1, hcount, u32, Nat.mod_eq_of_lt hlt]
      · rw [hspec.2 (by omega), hentries]
        simp [List.rtake]

theorem mem_of_mem_remembered {ls : List (List UInt8)} (h : x ∈ remembered ls) : x ∈ ls := by
  induction ls using List.reverseRecOn with
  | nil => exact h
  | append_singleton ls l ih =>
    rw [remembered_concat, Ring.remember] at h
    split at h
    · simp [ih h]
    · rcases List.mem_append.mp h with h | h
      · simp [ih h]
      · simp [List.mem_singleton.mp h]

theorem length_remembered_le {ls ls' : List (List UInt8)} (h : ls <+: ls') :
    (remembered ls).length ≤ (remembered ls').length := by
  obtain ⟨rest, rfl⟩ := h
  induction rest using List.reverseRecOn with
  | nil => rw [List.append_nil]
  | append_singleton rest l ih =>
    rw [← List.append_assoc, remembered_concat]
    exact ih.trans (Ring.length_le_remember _ _ _)

theorem entries_eq_nil (h : s.histCount = 0) : entries s = [] := by
  rw [entries_eq, h]
  rfl

theorem cutLines_eq {ls : List Line} (h : ∀ l ∈ ls, cutLine l.text = l.text) :
    cutLines ls = ls.map Line.text := List.map_congr_left h

/-- Whole lines are remembered where they end with their first words. -/
theorem remembers_of_cutLine {ls : List Line} (h : ∀ l ∈ ls, cutLine l.text = l.text)
    (hlt : (remembered (ls.map Line.text)).length < 2 ^ 32) : Remembers ls := by
  obtain ⟨s, hs, hspec⟩ := exists_submitLines ls
  rw [cutLines_eq h] at hspec
  exact ⟨s, hs, (hspec hlt).2⟩

/-- The line last entered is the last one remembered, if it is new. -/
theorem mem_rtake_remember {l : List (List UInt8)} (h : x ∉ l.rtake histMax) :
    x ∈ (Ring.remember histMax l x).rtake histMax := by
  rw [Ring.rtake_remember, if_neg h, List.rtake]
  simp only [List.length_append, List.length_singleton]
  rw [List.drop_append_of_le_length (by have : 0 < histMax := by decide
                                        omega)]
  simp

/-- One line more: if whole lines have been remembered so far and still are, the line ends with
its first word and the counter has not wrapped. -/
theorem cutLine_of_remembers {ls : List Line} {l : Line} (h : ∀ l ∈ ls, cutLine l.text = l.text)
    (hlt : (remembered (ls.map Line.text)).length < 2 ^ 32) (hr : Remembers (ls ++ [l])) :
    cutLine l.text = l.text ∧
      (remembered ((ls ++ [l]).map Line.text)).length < 2 ^ 32 := by
  obtain ⟨s, hs, hspec⟩ := exists_submitLines ls
  rw [cutLines_eq h] at hspec
  obtain ⟨hcount, hentries⟩ := hspec hlt
  obtain ⟨s', hs', -, hline⟩ := submitLine_eq s l
  obtain ⟨s'', hs'', hr⟩ := hr
  rw [submitLines_concat, hs, Option.bind_some, hs', Option.some.injEq] at hs''
  subst hs''
  rw [List.map_append, List.map_singleton, remembered_concat] at hr ⊢
  have hmem : ∀ y, some y ∈ entries s ↔
      y ∈ (remembered (ls.map Line.text)).rtake histMax := by
    intro y
    rw [hentries]
    exact List.mem_map_of_injective (Option.some_injective _)
  have hwindow : ∀ y ∈ (remembered (ls.map Line.text)).rtake histMax, cutLine y = y := by
    intro y hy
    obtain ⟨l', hl', rfl⟩ := List.mem_map.mp (mem_of_mem_remembered (List.mem_of_mem_drop hy))
    exact h l' hl'
  have hwrap : some (cutLine l.text) ∉ entries s → ¬s.histCount + 1 < 2 ^ 32 →
      entries s' = [] := by
    intro hm hc
    rw [if_neg hm] at hline
    refine entries_eq_nil (hline.1.trans ?_)
    rw [u32, show s.histCount + 1 = 2 ^ 32 by omega, Nat.mod_self]
  have hlast : l.text ∉ (remembered (ls.map Line.text)).rtake histMax →
      some l.text ∈ entries s' := by
    intro hnew
    rw [hr]
    exact List.mem_map_of_mem (mem_rtake_remember hnew)
  have hfix : cutLine l.text = l.text := by
    by_contra hne
    have hnew : l.text ∉ (remembered (ls.map Line.text)).rtake histMax :=
      fun hm => hne (hwindow _ hm)
    have hin := hlast hnew
    by_cases hm : some (cutLine l.text) ∈ entries s
    · rw [if_pos hm] at hline
      rw [hline.2, hmem] at hin
      exact hnew hin
    · by_cases hc : s.histCount + 1 < 2 ^ 32
      · rw [if_neg hm] at hline
        rw [hline.2 hc] at hin
        rcases List.mem_append.mp (List.mem_of_mem_drop hin) with hin | hin
        · exact hnew ((hmem _).mp hin)
        · exact hne (Option.some.inj (List.mem_singleton.mp hin)).symm
      · rw [hwrap hm hc] at hin
        exact absurd hin (by simp)
  refine ⟨hfix, ?_⟩
  rw [hfix, hmem] at hwrap
  by_cases hm : l.text ∈ (remembered (ls.map Line.text)).rtake histMax
  · rwa [Ring.remember, if_pos hm]
  · rw [Ring.remember, if_neg hm, List.length_append, List.length_singleton, ← hcount]
    by_contra hc
    have hin := hlast hm
    rw [hwrap hm hc] at hin
    exact absurd hin (by simp)

/-! ### The listing of a session -/

variable {str : UInt64 → List UInt8} {addr junk : ℕ → UInt64}

/-- A conforming `printf` would write the line of the listing. -/
theorem prints_histFormat {n : ℕ} {a : UInt64} (hn : n < 2 ^ 32) (ha : a ≠ 0) :
    prints str (fun k => [UInt64.ofNat n, a].getD k (junk k)) histFormat 0 =
      chars "  " ++ (numeral 10 n).leftpad 2 blank ++ chars "  " ++ str a ++ chars "\r\n" := by
  have hnum : (UInt64.ofNat n).toUInt32.toNat = n := by
    rw [UInt64.toNat_toUInt32, UInt64.toNat_ofNat', Nat.mod_mod_of_dvd _ (by decide)]
    exact Nat.mod_eq_of_lt hn
  have hstr : Directive.string str a = str a := if_neg ha
  have hblanks : chars "  " = [blank, blank] := by decide
  have hend : chars "\r\n" = [13, 10] := by decide
  simp only [histFormat, prints, Directive.prints, Directive.takes, Nat.add_zero, Nat.zero_add,
    List.getD_cons_zero, List.getD_cons_succ, hnum, hstr, hblanks, hend, List.append_assoc]
  rfl

/-- So the calls of `hist` ask for the listing of the entries. -/
theorem listing_eq_prints {s : State} {ls : List (List UInt8)} (hplaced : Placed s str addr)
    (hls : entries s = ls.map some) :
    listing 1 ls = (List.range' (histFirst s) (s.histCount - histFirst s)).flatMap fun i =>
      prints str (fun k => [UInt64.ofNat (i - histFirst s + 1), addr (i % histMax)].getD k (junk k))
        histFormat 0 := by
  have hrun (n i : ℕ) (ls : List (List UInt8)) (hi : histFirst s ≤ i) (hn : i + n = s.histCount)
      (hls : ((List.range' i n).map fun j => cstr (s.hist (j % histMax)) 0) = ls.map some) :
      listing (i - histFirst s + 1) ls = (List.range' i n).flatMap fun j =>
        prints str
          (fun k => [UInt64.ofNat (j - histFirst s + 1), addr (j % histMax)].getD k (junk k))
          histFormat 0 := by
    induction n generalizing i ls with
    | zero =>
      obtain rfl := List.map_eq_nil_iff.mp hls.symm
      rfl
    | succ n ih =>
      rw [List.range'_succ, List.map_cons] at hls
      obtain ⟨l, ls, rfl, hl, htail⟩ := List.map_eq_cons_iff.mp hls.symm
      have hnum : i - histFirst s + 1 < 2 ^ 32 := by
        have : histMax = 16 := rfl
        unfold histFirst at hi ⊢
        split at hi <;> split <;> omega
      have hslot := hplaced.str_addr i hi (by omega)
      rw [← hl, Option.some.injEq] at hslot
      rw [List.range'_succ, List.flatMap_cons,
        prints_histFormat hnum (hplaced.addr_ne i hi (by omega)), ← hslot,
        ← ih (i + 1) ls (by omega) (by omega) htail.symm, listing, Nat.sub_add_comm hi]
  have h := hrun (s.histCount - histFirst s) (histFirst s) ls le_rfl
    (by unfold histFirst; split <;> omega) hls
  rwa [Nat.sub_self] at h

/-- An entry is printed behind a copy of the conversion meant for its number. -/
theorem exists_histCall (str : UInt64 → List UInt8) (args : ℕ → UInt64) :
    ∃ out k, qizoPrintf str args (chars "  %2u  %s\r\n") = some (out, k) ∧
      out.flatten[2]? = some (code '%') := by
  obtain ⟨out, hout, hrun⟩ := exists_printfLoop histFormat 0
  rw [format_histFormat] at hrun
  refine ⟨out, _, hrun, ?_⟩
  rw [hout]
  rfl

/-- A single line is not listed, wherever the slots are. -/
theorem not_lists_singleton (l : Line) : ¬Lists [l] := by
  rintro ⟨s, hs, hlist⟩
  obtain ⟨s', hs', hspec⟩ := exists_submitLines [l]
  obtain rfl : s = s' := Option.some.inj (hs.symm.trans hs')
  have hone : remembered (cutLines [l]) = [cutLine l.text] := rfl
  obtain ⟨hcount, hentries⟩ := hspec (by rw [hone, List.length_singleton]; omega)
  rw [hone, List.length_singleton] at hcount
  have hfirst : histFirst s = 0 := by
    rw [histFirst, hcount]
    rfl
  have hslot : cstr (s.hist 0) 0 = some (cutLine l.text) := by
    rw [entries, hfirst, hcount, hone] at hentries
    exact List.singleton_inj.mp hentries
  have hplaced : Placed s (fun _ => cutLine l.text) fun _ => 1 := by
    refine ⟨fun _ _ _ => by decide, fun i _ hi => ?_⟩
    obtain rfl : i = 0 := by omega
    exact hslot
  obtain ⟨out, k, hout, hflat⟩ := exists_histCall (fun _ => cutLine l.text)
    (fun k => [UInt64.ofNat (0 - 0 + 1), 1].getD k 0)
  have hhist : cmdHist (fun _ => cutLine l.text) (fun _ => 1) (fun _ => 0) s =
      some out.flatten := by
    rw [cmdHist, hfirst, hcount, Nat.sub_zero, histCalls, hout]
    simp [histCalls]
  have hwant : (listing 1 [l.text])[2]? = some blank := rfl
  have hlist := hlist _ _ (fun _ => 0) hplaced
  rw [hhist, Option.some.injEq] at hlist
  rw [hlist] at hflat
  exact absurd (hwant.symm.trans hflat) (by decide)

/-- **The history and its listing.** Whole lines are remembered along a session exactly if every
line ends with its first word and the counter has not wrapped; `hist` lists them only while there
are none. -/
theorem remembers_iff_and_lists_iff (ls : List Line) :
    ((∀ p, p <+: ls → Remembers p) ↔
      (∀ l ∈ ls, cutLine l.text = l.text) ∧
        (remembered (ls.map Line.text)).length < 2 ^ 32) ∧
    ((∀ p, p <+: ls → Remembers p ∧ Lists p) ↔ ls = []) := by
  refine ⟨⟨?_, ?_⟩, ⟨?_, ?_⟩⟩
  · intro h
    induction ls using List.reverseRecOn with
    | nil => exact ⟨by simp, by simp [remembered]⟩
    | append_singleton ls l ih =>
      obtain ⟨hfix, hlt⟩ := ih fun p hp => h p (hp.trans (List.prefix_append _ _))
      obtain ⟨hl, hlt'⟩ := cutLine_of_remembers hfix hlt (h _ (List.prefix_refl _))
      refine ⟨fun l' hl' => ?_, hlt'⟩
      rcases List.mem_append.mp hl' with hl' | hl'
      · exact hfix l' hl'
      · rw [List.mem_singleton.mp hl', hl]
  · rintro ⟨hfix, hlt⟩ p hp
    exact remembers_of_cutLine (fun l hl => hfix l (hp.subset hl))
      ((length_remembered_le (hp.map Line.text)).trans_lt hlt)
  · intro h
    cases ls with
    | nil => rfl
    | cons l ls =>
      exact absurd (h [l] (List.prefix_append [l] ls)).2 (not_lists_singleton l)
  · rintro rfl p hp
    rw [List.prefix_nil] at hp
    subst hp
    exact ⟨⟨.boot, rfl, rfl⟩, ⟨.boot, rfl, fun _ _ _ _ => rfl⟩⟩

/-- `echo hi`, remembered as `echo`. -/
theorem not_remembers_echo :
    ¬Remembers [⟨chars "echo hi", by decide, by decide, by decide⟩] := by
  intro hr
  have h := @cutLine_of_remembers [] _ (by simp) (by simp [remembered]) hr
  exact absurd h.1 (by decide)

end Shell

end Qizo
