import Qizo.Kernel.Shell

/-!
# The line editor is a text buffer

The keys of `kernel/shell.c` that edit a line, against a plain text buffer: a list of characters
that a printable key makes longer and the control keys make shorter. The buffer knows nothing of
the array, its terminators or the splitting of an entered line.

The editor differs from the buffer in two places only. A digit is in none of the ranges of
`edit_line`, and a line of blanks is left in the editor when it is entered.

## Main results

* `Tracks.step` — one key that the editor handles keeps the two together
* `Tracks.step_ne` — any other key drives them apart
* `follows_iff` — the key sequences along which the editor is the buffer
-/

namespace Qizo

namespace Shell

open Memory

/-! ### The buffer -/

/-- The keys that edit a line. -/
def IsEditKey (k : UInt8) : Prop :=
  (32 ≤ k ∧ k ≤ 126) ∨ k = 8 ∨ k = 0x15 ∨ k = 0x17 ∨ k = 0x03 ∨ k = 10

instance : DecidablePred IsEditKey := fun k =>
  inferInstanceAs (Decidable ((32 ≤ k ∧ k ≤ 126) ∨ k = 8 ∨ k = 0x15 ∨ k = 0x17 ∨ k = 0x03 ∨ k = 10))

/-- A key that edits a line. -/
abbrev EditKey := { k : UInt8 // IsEditKey k }

/-- What a key does to the buffer: backspace drops the last character, ctrl-u and ctrl-c drop all
of them, ctrl-w drops the last word and the blanks behind it, enter leaves the buffer empty, and a
printable key appends itself while fewer than 127 characters are held. -/
def press (b : List UInt8) (k : UInt8) : List UInt8 :=
  if k = 8 then b.dropLast
  else if k = 0x15 ∨ k = 0x03 then []
  else if k = 0x17 then (b.rdropWhile (· = blank)).rdropWhile (· ≠ blank)
  else if k = 10 then []
  else if b.length < 127 then b ++ [k] else b

/-- What a key submits: on enter the first word of the buffer and the rest. -/
def submit (b : List UInt8) (k : UInt8) : List (List UInt8 × List UInt8) :=
  if k = 10 ∧ ∃ c ∈ b, c ≠ blank then [(wordOf b, argOf b)] else []

/-- The buffer after a sequence of keys. -/
def typed (keys : List EditKey) : List UInt8 := keys.foldl (fun b (k : EditKey) => press b k.1) []

/-- What a sequence of keys submits. -/
def submitted : List EditKey → (b : List UInt8) → List (List UInt8 × List UInt8)
  | [], _ => []
  | k :: keys, b => submit b k ++ submitted keys (press b k)

/-- The editor has gone along with the buffer: it holds the same characters, and the words and
arguments it has handed over are the ones submitted. -/
def Follows (s₀ : State) (keys : List EditKey) : Prop :=
  ∃ s, steps s₀ (keys.map Subtype.val) = some s ∧ bytes s.line 0 s.len = typed keys ∧
    s.ran.map (fun c => (c.word, c.arg)) =
      s₀.ran.map (fun c => (c.word, c.arg)) ++ submitted keys []

/-- The editor does with a key what the buffer does: a digit finds the line full, and enter finds
it empty or with something in it that is not a blank. -/
def Handled (b : List UInt8) (k : UInt8) : Prop :=
  ((48 ≤ k ∧ k ≤ 57) → 127 ≤ b.length) ∧ (k = 10 → b ≠ [] → ∃ c ∈ b, c ≠ blank)

/-! ### One key -/

variable {s s' : State} {b : List UInt8} {k : UInt8}

/-- The editor holds the characters of the buffer. -/
structure Tracks (s : State) (b : List UInt8) : Prop where
  /-- The line starts with them. -/
  holds : Holds s.line 0 b
  /-- There are no more. -/
  len : s.len = b.length
  /-- There is room for a terminator. -/
  room : b.length ≤ 127
  /-- No character is a terminator. -/
  noNul : 0 ∉ b

/-- Only the line and its length matter. -/
theorem Tracks.congr (h : Tracks s b) (hline : s'.line = s.line) (hlen : s'.len = s.len) :
    Tracks s' b :=
  ⟨by rw [hline]; exact h.holds, by rw [hlen]; exact h.len, h.room, h.noNul⟩

theorem Tracks.bytes_eq (h : Tracks s b) : bytes s.line 0 s.len = b := by
  rw [h.len]
  exact holds_iff_bytes_eq.mp h.holds

/-- Rubbing out the last character. -/
theorem Tracks.rubOut {c : UInt8} (h : Tracks s (b ++ [c])) : Tracks (rubOut s) b := by
  obtain ⟨hholds, hlen, hroom, hnul⟩ := h
  rw [List.length_append, List.length_singleton] at hlen hroom
  refine ⟨hholds.left.update 0 (Or.inr ?_), ?_, by omega, fun hm => hnul (by simp [hm])⟩
  · rw [hlen]
    omega
  · change s.len - 1 = _
    omega

/-- **The loops that rub out** drop what they accept from the end. -/
theorem Tracks.rubLoop (p : UInt8 → Bool) (n : ℕ) (h : Tracks s b) (hn : b.length ≤ n) :
    Tracks (rubLoop p n s) (b.rdropWhile p) ∧ (rubLoop p n s).ran = s.ran := by
  induction n generalizing s b with
  | zero =>
    obtain rfl : b = [] := List.length_eq_zero_iff.mp (by omega)
    exact ⟨h, rfl⟩
  | succ n ih =>
    rw [Shell.rubLoop]
    rcases List.eq_nil_or_concat b with rfl | ⟨b, c, rfl⟩
    · rw [if_neg (by simp [h.len])]
      exact ⟨h, rfl⟩
    · rw [List.concat_eq_append] at h hn ⊢
      rw [List.length_append, List.length_singleton] at hn
      have hc : s.line (s.len - 1) = c := by
        have := h.holds.right 0 c rfl
        rw [h.len, List.length_append, List.length_singleton]
        simpa using this
      rw [List.rdropWhile_concat, hc]
      by_cases hp : p c = true
      · rw [if_pos ⟨by rw [h.len]; simp, hp⟩, if_pos hp]
        exact ih h.rubOut (by omega)
      · rw [if_neg (fun hand => hp hand.2), if_neg hp]
        exact ⟨h, rfl⟩

theorem Tracks.clearLine (h : Tracks s b) :
    Tracks (clearLine s) [] ∧ (clearLine s).ran = s.ran := by
  have hnil : b.rdropWhile (fun _ => true) = [] := List.rdropWhile_eq_nil_iff.mpr fun _ _ => rfl
  have := h.rubLoop (fun _ => true) s.len (Nat.le_of_eq h.len.symm)
  rwa [hnil] at this

theorem Tracks.eraseWord (h : Tracks s b) :
    Tracks (eraseWord s) ((b.rdropWhile (· = blank)).rdropWhile (· ≠ blank)) ∧
      (eraseWord s).ran = s.ran := by
  obtain ⟨h₁, hran₁⟩ := h.rubLoop (· = blank) s.len (Nat.le_of_eq h.len.symm)
  obtain ⟨h₂, hran₂⟩ := h₁.rubLoop (· ≠ blank) _ (Nat.le_of_eq h₁.len.symm)
  exact ⟨h₂, hran₂.trans hran₁⟩

/-- The printable characters `edit_line` accepts are those that are no digits. -/
theorem accepted_iff (hk : 32 ≤ k ∧ k ≤ 126) : accepted k = true ↔ ¬(48 ≤ k ∧ k ≤ 57) := by
  have hall : ∀ i : Fin 256, 32 ≤ UInt8.ofNat i ∧ UInt8.ofNat i ≤ 126 →
      (accepted (.ofNat i) = true ↔ ¬(48 ≤ UInt8.ofNat i ∧ UInt8.ofNat i ≤ 57)) := by
    decide +kernel
  have hk' := hall ⟨k.toNat, k.toNat_lt⟩
  rw [UInt8.ofNat_toNat] at hk'
  exact hk' hk

/-- **A printable key.** -/
theorem Tracks.editLine (h : Tracks s b) (hk : 32 ≤ k ∧ k ≤ 126) :
    Tracks (editLine k s)
      (if ¬(48 ≤ k ∧ k ≤ 57) ∧ b.length < 127 then b ++ [k] else b) ∧
      (editLine k s).ran = s.ran := by
  have hne : ∀ x : UInt8, x < 32 → k ≠ x := by
    rintro x hx rfl
    exact absurd hk.1 (UInt8.not_le.mpr hx)
  rw [Shell.editLine, if_neg (hne 8 (by decide)), if_neg (hne 0x15 (by decide)),
    if_neg (hne 0x17 (by decide))]
  by_cases hdigit : 48 ≤ k ∧ k ≤ 57
  · rw [if_neg (fun ha => (accepted_iff hk).mp ha hdigit), if_neg (fun hand => hand.1 hdigit)]
    exact ⟨h, rfl⟩
  · rw [if_pos ((accepted_iff hk).mpr hdigit), lineMax, h.len]
    by_cases hroom : b.length < 127
    · rw [if_pos hroom, if_pos ⟨hdigit, hroom⟩]
      refine ⟨⟨?_, ?_, ?_, ?_⟩, rfl⟩
      · have hpush := h.holds.push k
        rw [Nat.zero_add] at hpush
        exact hpush.update 0 (Or.inr (by simp))
      · change b.length + 1 = _
        simp
      · simpa using hroom
      · have : k ≠ 0 := hne 0 (by decide)
        simp [h.noNul, Ne.symm this]
    · rw [if_neg hroom, if_neg (fun hand => hroom hand.2)]
      exact ⟨h, rfl⟩

/-- The echo of key codes writes to the console and changes nothing of the editor. -/
theorem exists_printf_key (s : State) (w : UInt64) :
    ∃ s', printf s (chars "key     : %x\r\n") [w] = some s' ∧ s'.line = s.line ∧
      s'.len = s.len ∧ s'.ran = s.ran ∧ s'.keysMode = s.keysMode ∧ s'.out ≠ s.out := by
  obtain ⟨calls, hcalls, hrun⟩ :=
    @Printf.exists_printfLoop (fun _ => []) (fun i => [w].getD i 0) keyFormat 0
  rw [format_keyFormat] at hrun
  have hne : calls ≠ [] := by
    rintro rfl
    cases hcalls
  rw [printf, Printf.qizoPrintf, hrun]
  refine ⟨_, rfl, rfl, rfl, rfl, rfl, fun hout => hne ?_⟩
  simpa using hout

/-- The keys that edit a line pass the other branches of the loop. -/
theorem exists_step_eq (s : State) (hk : IsEditKey k) :
    ∃ s₁, s₁.line = s.line ∧ s₁.len = s.len ∧ s₁.ran = s.ran ∧
      step s k = if k = 0x03 then some (prompt (clearLine (puts s₁ (chars "^C\r\n"))))
        else if k = 10 then enter s₁ else some (editLine k s₁) := by
  have hne : k ≠ 1 ∧ k ≠ 2 ∧ k ≠ 9 ∧ k ≠ 0x0C := by
    rcases hk with hk | rfl | rfl | rfl | rfl | rfl
    · refine ⟨?_, ?_, ?_, ?_⟩
      all_goals
        rintro rfl
        exact absurd hk.1 (by decide)
    all_goals decide
  obtain ⟨h1, h2, h9, hC⟩ := hne
  by_cases hmode : s.keysMode = true ∧ k ≠ 10
  · obtain ⟨s₁, hs₁, hline, hlen, hran, -, -⟩ := exists_printf_key s k.toUInt64
    refine ⟨s₁, hline, hlen, hran, ?_⟩
    simp only [step, if_pos hmode, hs₁, Option.bind_eq_bind, Option.bind_some, h1, h2, h9, hC,
      or_self, and_false, if_false]
  · refine ⟨s, rfl, rfl, rfl, ?_⟩
    simp only [step, if_neg hmode, Option.bind_eq_bind, Option.bind_some, h1, h2, h9, hC,
      or_self, and_false, if_false]

/-- The words and arguments handed over. -/
def handed (s : State) : List (List UInt8 × List UInt8) := s.ran.map fun c => (c.word, c.arg)

/-- **One key that the editor handles.** -/
theorem Tracks.step (h : Tracks s b) (hk : IsEditKey k) (hh : Handled b k) :
    ∃ s', step s k = some s' ∧ Tracks s' (press b k) ∧ handed s' = handed s ++ submit b k := by
  obtain ⟨s₁, hline, hlen, hran, hstep⟩ := exists_step_eq s hk
  have h₁ : Tracks s₁ b := h.congr hline hlen
  have hsame : k ≠ 10 → ∀ s', s'.ran = s₁.ran → handed s' = handed s ++ submit b k := by
    intro hne s' hs'
    rw [submit, if_neg (fun hand => hne hand.1), List.append_nil, handed, hs', hran, handed]
  rw [hstep]
  rcases hk with hk | rfl | rfl | rfl | rfl | rfl
  · have hne : ∀ x : UInt8, x < 32 → k ≠ x := by
      rintro x hx rfl
      exact absurd hk.1 (UInt8.not_le.mpr hx)
    obtain ⟨h', hran'⟩ := h₁.editLine hk
    rw [if_neg (hne 0x03 (by decide)), if_neg (hne 10 (by decide))]
    refine ⟨_, rfl, ?_, hsame (hne 10 (by decide)) _ hran'⟩
    rw [press, if_neg (hne 8 (by decide)), if_neg (by simp [hne 0x15, hne 0x03]),
      if_neg (hne 0x17 (by decide)), if_neg (hne 10 (by decide))]
    convert h' using 1
    by_cases hroom : b.length < 127
    · rw [if_pos hroom, if_pos ⟨fun hdigit => absurd (hh.1 hdigit) (by omega), hroom⟩]
    · rw [if_neg hroom, if_neg (fun hand => hroom hand.2)]
  · rcases List.eq_nil_or_concat b with rfl | ⟨b, c, rfl⟩
    · refine ⟨s₁, ?_, h₁, hsame (by decide) _ rfl⟩
      rw [Shell.editLine, h₁.len]
      rfl
    · rw [List.concat_eq_append] at h₁ ⊢
      have hlen₁ : s₁.len ≠ 0 := by
        rw [h₁.len]
        simp
      refine ⟨Shell.rubOut s₁, ?_, ?_, ?_⟩
      · rw [Shell.editLine, if_pos rfl, if_pos hlen₁]
        rfl
      · rw [press, if_pos rfl, List.dropLast_concat]
        exact h₁.rubOut
      · rw [← List.concat_eq_append]
        exact hsame (by decide) _ rfl
  · obtain ⟨h', hran'⟩ := h₁.clearLine
    exact ⟨_, rfl, h', hsame (by decide) _ hran'⟩
  · obtain ⟨h', hran'⟩ := h₁.eraseWord
    exact ⟨_, rfl, h', hsame (by decide) _ hran'⟩
  · obtain ⟨h', hran'⟩ := Tracks.clearLine (s := puts s₁ (chars "^C\r\n")) (h₁.congr rfl rfl)
    exact ⟨_, rfl, h'.congr rfl rfl, hsame (by decide) _ hran'⟩
  · have hroom : b.length < 128 := by
      have := h.room
      omega
    have hempty : ∀ s' : State, s'.len = 0 → Tracks s' [] := fun s' hs' =>
      ⟨holds_nil _ _, hs', Nat.zero_le _, by simp⟩
    rw [if_neg (by decide), if_pos rfl]
    by_cases hb : ∃ c ∈ b, c ≠ blank
    · obtain ⟨-, -, s', -, -, hs', -, -, -, hlen', hran'⟩ :=
        enter_eq h₁.holds h₁.len hroom h₁.noNul hb
      refine ⟨s', hs', hempty s' hlen', ?_⟩
      rw [submit, if_pos ⟨rfl, hb⟩, handed, hran', hran, List.map_append]
      rfl
    · obtain rfl : b = [] := by
        by_contra hne
        exact hb (hh.2 rfl hne)
      obtain ⟨s', hs', -, hlen', hran'⟩ := enter_blank h₁.holds h₁.len hroom (by simp)
      refine ⟨s', hs', hempty s' (hlen'.trans h₁.len), ?_⟩
      rw [submit, if_neg (by simp), List.append_nil, handed, hran', hran, handed]

/-- **Any other key** leaves the editor with another line than the buffer. -/
theorem Tracks.step_ne (h : Tracks s b) (hk : IsEditKey k) (hh : ¬Handled b k) :
    ∃ s', Shell.step s k = some s' ∧ bytes s'.line 0 s'.len ≠ press b k := by
  obtain ⟨s₁, hline, hlen, -, hstep⟩ := exists_step_eq s hk
  have h₁ : Tracks s₁ b := h.congr hline hlen
  rw [hstep]
  rw [Handled, not_and_or, Classical.not_imp, Classical.not_imp, Classical.not_imp] at hh
  rcases hh with ⟨hdigit, hroom⟩ | ⟨rfl, hne, hblank⟩
  · have hrange : 32 ≤ k ∧ k ≤ 126 := by
      refine ⟨?_, ?_⟩
      · exact UInt8.le_trans (by decide) hdigit.1
      · exact UInt8.le_trans hdigit.2 (by decide)
    have hctl : ∀ x : UInt8, x < 32 → k ≠ x := by
      rintro x hx rfl
      exact absurd hrange.1 (UInt8.not_le.mpr hx)
    obtain ⟨h', -⟩ := h₁.editLine hrange
    rw [if_neg (fun hand => hand.1 hdigit)] at h'
    rw [if_neg (hctl 0x03 (by decide)), if_neg (hctl 10 (by decide))]
    refine ⟨_, rfl, ?_⟩
    rw [h'.bytes_eq, press, if_neg (hctl 8 (by decide)), if_neg (by simp [hctl 0x15, hctl 0x03]),
      if_neg (hctl 0x17 (by decide)), if_neg (hctl 10 (by decide)), if_pos (by omega)]
    exact fun heq => absurd (congrArg List.length heq) (by simp)
  · have hall : ∀ c ∈ b, c = blank := by
      intro c hc
      by_contra hcb
      exact hblank ⟨c, hc, hcb⟩
    obtain ⟨s', hs', hholds, hlen', -⟩ :=
      enter_blank h₁.holds h₁.len (by have := h.room; omega) hall
    refine ⟨s', hs', ?_⟩
    rw [hlen', h₁.len, holds_iff_bytes_eq.mp hholds]
    exact hne

/-! ### Sequences of keys -/

theorem typed_concat (keys : List EditKey) (k : EditKey) :
    typed (keys ++ [k]) = press (typed keys) k := by
  simp [typed]

theorem submitted_concat (keys : List EditKey) (k : EditKey) (b : List UInt8) :
    submitted (keys ++ [k]) b =
      submitted keys b ++ submit (keys.foldl (fun b (k : EditKey) => press b k.1) b) k := by
  induction keys generalizing b with
  | nil => simp [submitted]
  | cons k' keys ih =>
    rw [List.cons_append, submitted, ih, submitted, List.foldl_cons, List.append_assoc]

theorem steps_concat (s : State) (keys : List EditKey) (k : EditKey) :
    steps s ((keys ++ [k]).map Subtype.val) = (steps s (keys.map Subtype.val)).bind (step · k) := by
  simp [steps]

/-- Keys that are all handled keep the editor with the buffer. -/
theorem exists_steps_tracks {s₀ : State} (hs₀ : s₀.len = 0) (keys : List EditKey)
    (hh : ∀ p (k : EditKey), p ++ [k] <+: keys → Handled (typed p) k) :
    ∃ s, steps s₀ (keys.map Subtype.val) = some s ∧ Tracks s (typed keys) ∧
      handed s = handed s₀ ++ submitted keys [] := by
  induction keys using List.reverseRecOn with
  | nil => exact ⟨s₀, rfl, ⟨holds_nil _ _, hs₀, Nat.zero_le _, by simp [typed]⟩,
      (List.append_nil _).symm⟩
  | append_singleton keys k ih =>
    obtain ⟨s, hs, ht, hhanded⟩ :=
      ih fun p k' hp => hh p k' (hp.trans (List.prefix_append _ _))
    obtain ⟨s', hs', ht', hhanded'⟩ := ht.step k.2 (hh keys k (List.prefix_refl _))
    refine ⟨s', ?_, ?_, ?_⟩
    · rw [steps_concat, hs]
      exact hs'
    · rw [typed_concat]
      exact ht'
    · rw [hhanded', hhanded, List.append_assoc, submitted_concat]
      rfl

/-- **The line editor is the plain buffer** along exactly those sequences of keys in which every
digit finds the line full and no line of blanks is entered. -/
theorem follows_iff (s₀ : State) (hs₀ : s₀.len = 0) (keys : List EditKey) :
    (∀ p, p <+: keys → Follows s₀ p) ↔
      ∀ p (k : EditKey), p ++ [k] <+: keys → Handled (typed p) k := by
  constructor
  · intro hfollows
    -- By induction on the length of `p`: up to a key the two have stayed together.
    suffices hn : ∀ n p (k : EditKey), p.length = n → p ++ [k] <+: keys → Handled (typed p) k from
      fun p k => hn p.length p k rfl
    intro n
    induction n using Nat.strong_induction_on with
    | _ n ih =>
      intro p k hpn hp
      have hprev : ∀ q (k' : EditKey), q ++ [k'] <+: p → Handled (typed q) k' := by
        intro q k' hq
        have hlt : q.length < n := by
          have := hq.length_le
          rw [List.length_append, List.length_singleton] at this
          omega
        exact ih q.length hlt q k' rfl (hq.trans ((List.prefix_append _ _).trans hp))
      obtain ⟨s, hs, ht, -⟩ := exists_steps_tracks hs₀ p hprev
      by_contra hh
      obtain ⟨s', hs', hne⟩ := ht.step_ne k.2 hh
      obtain ⟨s'', hs'', hbytes, -⟩ := hfollows _ hp
      rw [steps_concat, hs, Option.bind_some, hs', Option.some.injEq] at hs''
      rw [hs'', hbytes, typed_concat] at hne
      exact hne rfl
  · intro hh p hp
    obtain ⟨s, hs, ht, hhanded⟩ :=
      exists_steps_tracks hs₀ p fun q k hq => hh q k (hq.trans hp)
    exact ⟨s, hs, ht.bytes_eq, hhanded⟩

/-- Two letters and the enter key, at boot. -/
theorem follows_iff_boot :
    State.boot.len = 0 ∧
      ((∀ p, p <+: [⟨97, by decide⟩, ⟨98, by decide⟩, ⟨10, by decide⟩] →
          Follows State.boot p) ↔
        ∀ p (k : EditKey), p ++ [k] <+: [⟨97, by decide⟩, ⟨98, by decide⟩, ⟨10, by decide⟩] →
          Handled (typed p) k) :=
  ⟨rfl, follows_iff State.boot rfl _⟩

/-- A digit typed at boot is lost. -/
theorem not_follows_digit : ¬Follows State.boot [⟨49, by decide⟩] := by
  rintro ⟨s, hs, hbytes, -⟩
  have ht : Tracks State.boot [] := ⟨holds_nil _ _, rfl, Nat.zero_le _, by simp⟩
  have hh : ¬Handled [] 49 := fun hh => absurd (hh.1 (by decide)) (by decide)
  obtain ⟨s', hs', hne⟩ := ht.step_ne (k := 49) (by decide) hh
  have heq : s' = s := by
    have : steps State.boot [49] = step State.boot 49 := by simp [steps]
    rw [List.map_singleton, this, hs', Option.some.injEq] at hs
    exact hs
  rw [heq, hbytes] at hne
  exact hne rfl

end Shell

end Qizo
