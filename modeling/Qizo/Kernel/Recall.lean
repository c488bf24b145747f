import Qizo.Kernel.AnyKeys

/-!
# Walking through the history

The keys up and down walk through the remembered lines with `recall`. Entry `i` of the history is in
slot `i % HIST_MAX`, and `hist` lists it from there. `recall` counts slots from the first entry that
is still there: it looks for entry `i` in slot `(i - first) % HIST_MAX`. The two are the same while
nothing has been dropped, and again whenever the number of dropped entries is a multiple of
`HIST_MAX`.

A walk need not start at the newest line. Of the ways to a fresh prompt only a command that is run
brings `hist_at` back behind the last entry; ctrl-c and a line of blanks leave it where it is. With
the echo of key codes on, the two keys are printed and nothing else.

## Main results

* `At.up`, `At.down` — one key
* `At.ups`, `At.downs` — the same key several times
* `Sound.recalls_iff` — the prompts from which the history is recalled as it is listed
* `recalls_steps_iff` — the same for the prompts that any keys lead to
-/

namespace Qizo

namespace Shell

open Memory

/-- A fresh prompt: there is nothing but blanks in the line. -/
def Fresh (s : State) : Prop := ∀ c ∈ s.text, c = blank

theorem fresh_of_text_eq_nil {s : State} (h : s.text = []) : Fresh s := fun c hc => by
  rw [h] at hc
  cases hc

/-- `k` times up and then fewer times down leads to the line that many places from the end of the
listing, and at the oldest line up does nothing. Up is key 1, and down is key 2. -/
def Recalls (s : State) : Prop :=
  (∀ k j, j < k → k ≤ (entries s).length → ∃ x s',
    (entries s)[(entries s).length - (k - j)]? = some (some x) ∧
    steps s (List.replicate k 1 ++ List.replicate j 2) = some s' ∧ s'.text = x) ∧
  ∀ i, steps s (List.replicate ((entries s).length + i) 1) =
    steps s (List.replicate (entries s).length 1)

variable {s s' s₀ : State} {x : List UInt8} {a d : ℕ}

/-! ### Entries and slots -/

theorem length_entries (s : State) : (entries s).length = s.histCount - histFirst s := by
  rw [entries, List.length_map, List.length_range']

theorem getElem?_entries {i : ℕ} (hi : i < s.histCount - histFirst s) :
    (entries s)[i]? = some (cstr (s.hist ((histFirst s + i) % histMax)) 0) := by
  rw [entries, List.getElem?_map, List.getElem?_range' hi, Nat.one_mul]
  rfl

/-- The entries that are left: all of them, or the last sixteen. -/
theorem histFirst_cases (s : State) :
    histFirst s = 0 ∧ s.histCount ≤ 16 ∨ histFirst s + 16 = s.histCount ∧ 16 < s.histCount := by
  unfold histFirst histMax
  split <;> omega

/-- The slot where `recall` looks for an entry with `d` older ones holds an entry, but one that may
be some places further round. -/
theorem slot_eq (hd : d < s.histCount - histFirst s) :
    ∃ i < s.histCount - histFirst s, i % 16 = (d + (16 - histFirst s % 16)) % 16 ∧
      (entries s)[i]? = some (cstr (s.hist (d % histMax)) 0) := by
  have hwindow := histFirst_cases s
  have hi : (d + (16 - histFirst s % 16)) % 16 < s.histCount - histFirst s := by
    omega
  refine ⟨_, hi, Nat.mod_mod _ _, ?_⟩
  have hslot : (histFirst s + (d + (16 - histFirst s % 16)) % 16) % histMax = d % histMax := by
    unfold histMax
    omega
  rw [getElem?_entries hi, hslot]

/-! ### One key -/

theorem step_up (h : s.keysMode = false) : step s 1 = «recall» true s := by
  simp [step, h]

theorem step_down (h : s.keysMode = false) : step s 2 = «recall» false s := by
  simp [step, h]

/-- The history is that of `s₀`, and the walk is at an entry with `d` older ones. -/
structure At (s₀ : State) (d : ℕ) (s : State) : Prop where
  sound : Sound s
  hist : s.hist = s₀.hist
  count : s.histCount = s₀.histCount
  keys : s.keysMode = false
  older : older s = d

theorem At.first (h : At s₀ d s) : histFirst s = histFirst s₀ := by
  rw [histFirst, histFirst, h.count]

/-- Where the walk is. -/
theorem At.histAt_eq (h : At s₀ d s) (hd : histFirst s₀ + d < 2 ^ 32) :
    s.histAt = histFirst s₀ + d := by
  have hat := h.sound.at_lt
  have hcount := h.sound.count_lt
  have hfirst := histFirst_le s
  have hd' := h.older
  rw [Shell.older, u32, h.first] at hd'
  rw [h.first] at hfirst
  omega

/-- What both keys end with: the walk is at another entry, whose string is put in the line. -/
theorem At.exists_recallEntry (h : At s₀ d s) (ha : a < 2 ^ 32)
    (hmem : s.histCount + 1 < 2 ^ 32 → histFirst s ≤ a ∧ a ≤ s.histCount) :
    ∃ s', recallEntry { s with histAt := a } = some s' ∧
      At s₀ (u32 (a + 2 ^ 32 - histFirst s₀)) s' ∧
      (a < s₀.histCount →
        cstr (s₀.hist (u32 (a + 2 ^ 32 - histFirst s₀) % histMax)) 0 = some s'.text) := by
  obtain ⟨s', hs', hsound, hedits, htext⟩ := (h.sound.move ha hmem).exists_recallEntry
  have hold : Shell.older { s with histAt := a } = u32 (a + 2 ^ 32 - histFirst s₀) := by
    rw [Shell.older, ← h.first]
    rfl
  refine ⟨s', hs', ⟨hsound, hedits.hist.trans h.hist, hedits.count.trans h.count,
    hedits.keys.trans h.keys, hedits.older_eq.trans hold⟩, fun hlt => ?_⟩
  rw [if_neg (by dsimp only; rw [h.count]; omega), hold] at htext
  rwa [← h.hist]

/-- **Up.** -/
theorem At.up (h : At s₀ (d + 1) s) (hne : s₀.histCount ≠ histFirst s₀) :
    ∃ s', step s 1 = some s' ∧ At s₀ d s' ∧
      (d < s₀.histCount - histFirst s₀ → cstr (s₀.hist (d % histMax)) 0 = some s'.text) := by
  have hat := h.sound.at_lt
  have hcount := h.sound.count_lt
  have hmem := h.sound.at_mem
  have hfirst := histFirst_le s
  have hd := h.older
  rw [Shell.older, u32] at hd
  have hneq : s.histAt ≠ histFirst s := by omega
  have hcountne : s.histCount ≠ histFirst s := by rwa [h.count, h.first]
  have hback : u32 (u32 (s.histAt + 2 ^ 32 - 1) + 2 ^ 32 - histFirst s₀) = d := by
    rw [← h.first, u32, u32]
    omega
  obtain ⟨s', hs', hat', htext⟩ := h.exists_recallEntry (a := u32 (s.histAt + 2 ^ 32 - 1))
    (Nat.mod_lt _ (by decide)) (by rw [u32]; omega)
  rw [hback] at hat' htext
  refine ⟨s', ?_, hat', fun hlt => htext ?_⟩
  · rw [step_up h.keys, «recall», if_neg hcountne, if_pos rfl, if_neg hneq]
    exact hs'
  · rw [← h.count, ← h.first] at hlt
    rw [← h.count, u32]
    omega

/-- **Up** at the oldest line. -/
theorem At.up_oldest (h : At s₀ 0 s) : step s 1 = some s := by
  have hat := h.sound.at_lt
  have hcount := h.sound.count_lt
  have hfirst := histFirst_le s
  have hd := h.older
  rw [Shell.older, u32] at hd
  have hfix : s.histAt = histFirst s := by omega
  rw [step_up h.keys, «recall», if_pos rfl, if_pos hfix, ite_self]

/-- **Down.** -/
theorem At.down (h : At s₀ d s) (hd : d + 1 < s₀.histCount - histFirst s₀) :
    ∃ s', step s 2 = some s' ∧ At s₀ (d + 1) s' ∧
      cstr (s₀.hist ((d + 1) % histMax)) 0 = some s'.text := by
  have hcount := h.sound.count_lt
  rw [h.count] at hcount
  have hat := h.histAt_eq (by omega)
  have hnext : u32 (s.histAt + 1) = histFirst s₀ + d + 1 := by
    rw [hat, u32]
    omega
  have hback : u32 (u32 (s.histAt + 1) + 2 ^ 32 - histFirst s₀) = d + 1 := by
    rw [hnext, u32]
    omega
  have hcountne : s.histCount ≠ histFirst s := by
    rw [h.count, h.first]
    omega
  have hmore : ¬s.histCount ≤ u32 (s.histAt + 1) := by
    rw [hnext, h.count]
    omega
  obtain ⟨s', hs', hat', htext⟩ := h.exists_recallEntry (a := u32 (s.histAt + 1))
    (Nat.mod_lt _ (by decide)) (by rw [hnext, h.first, h.count]; omega)
  rw [hback] at hat' htext
  refine ⟨s', ?_, hat', htext ?_⟩
  · rw [step_down h.keys, «recall», if_neg hcountne, if_neg Bool.false_ne_true, if_neg hmore]
    exact hs'
  · rw [hnext]
    omega

/-! ### The same key several times -/

theorem steps_replicate_succ (s : State) (n : ℕ) (k : UInt8) :
    steps s (List.replicate (n + 1) k) = (steps s (List.replicate n k)).bind (step · k) := by
  simp only [List.replicate_succ', steps_append, steps_singleton]

theorem At.ups (h : At s₀ d s) (hne : s₀.histCount ≠ histFirst s₀) (i : ℕ) :
    ∃ s', steps s (List.replicate i 1) = some s' ∧ At s₀ (d - i) s' ∧
      (i ≠ 0 → i ≤ d → d - i < s₀.histCount - histFirst s₀ →
        cstr (s₀.hist ((d - i) % histMax)) 0 = some s'.text) := by
  induction i with
  | zero => exact ⟨s, rfl, h, fun hzero => absurd rfl hzero⟩
  | succ i ih =>
    obtain ⟨s₁, hs₁, hat₁, -⟩ := ih
    rw [steps_replicate_succ, hs₁, Option.bind_some]
    by_cases hi : i < d
    · rw [show d - i = d - (i + 1) + 1 by omega] at hat₁
      obtain ⟨s', hs', hat', htext⟩ := hat₁.up hne
      exact ⟨s', hs', hat', fun _ _ => htext⟩
    · rw [Nat.sub_eq_zero_of_le (Nat.le_of_not_lt hi)] at hat₁
      refine ⟨s₁, hat₁.up_oldest, ?_, fun _ hle => absurd hle (by omega)⟩
      rwa [Nat.sub_eq_zero_of_le (by omega)]

/-- From the oldest line on, up does nothing. -/
theorem At.ups_oldest (h : At s₀ d s) (hne : s₀.histCount ≠ histFirst s₀) (i : ℕ) :
    steps s (List.replicate (d + i) 1) = steps s (List.replicate d 1) := by
  induction i with
  | zero => rfl
  | succ i ih =>
    obtain ⟨s', hs', hat', -⟩ := h.ups hne (d + i)
    rw [Nat.sub_eq_zero_of_le (Nat.le_add_right _ _)] at hat'
    rw [← ih, ← Nat.add_assoc, steps_replicate_succ, hs', Option.bind_some, hat'.up_oldest]

theorem At.downs {j : ℕ} (h : At s₀ d s) (hj : d + j < s₀.histCount - histFirst s₀)
    (hs : cstr (s₀.hist (d % histMax)) 0 = some s.text) :
    ∃ s', steps s (List.replicate j 2) = some s' ∧ At s₀ (d + j) s' ∧
      cstr (s₀.hist ((d + j) % histMax)) 0 = some s'.text := by
  induction j with
  | zero => exact ⟨s, rfl, h, hs⟩
  | succ j ih =>
    obtain ⟨s₁, hs₁, hat₁, -⟩ := ih (by omega)
    obtain ⟨s', hs', hat', htext'⟩ := hat₁.down hj
    exact ⟨s', by rw [steps_replicate_succ, hs₁, Option.bind_some, hs'], hat', htext'⟩

/-- **Walks** from behind the last entry. Up `k` times and then down `j` times shows what `recall`
finds for the entry `k - j` places from the end. -/
theorem At.walk {k j : ℕ} (h : At s (s.histCount - histFirst s) s) (hj : j < k)
    (hk : k ≤ s.histCount - histFirst s) :
    ∃ s', steps s (List.replicate k 1 ++ List.replicate j 2) = some s' ∧
      cstr (s.hist ((s.histCount - histFirst s - (k - j)) % histMax)) 0 = some s'.text := by
  obtain ⟨s₁, hs₁, hat₁, htext₁⟩ := h.ups (by omega) k
  obtain ⟨s', hs', -, htext'⟩ := hat₁.downs (j := j) (by omega) (htext₁ (by omega) hk (by omega))
  refine ⟨s', by rw [steps_append, hs₁, Option.bind_some, hs'], ?_⟩
  rwa [show s.histCount - histFirst s - (k - j) = s.histCount - histFirst s - k + j by omega]

/-! ### The echo of key codes -/

/-- With the echo on, up is printed. -/
theorem exists_step_echo (h : s.keysMode = true) :
    ∃ s', step s 1 = some s' ∧ s'.keysMode = true ∧ s'.out ≠ s.out := by
  obtain ⟨s', hs', -, -, -, hmode, hout⟩ := exists_printf_key s (1 : UInt8).toUInt64
  rw [h] at hmode
  refine ⟨s', ?_, hmode, hout⟩
  simp only [step, h, hs', hmode, true_and, true_or, if_true, ne_eq, Option.bind_eq_bind,
    Option.bind_some, show ¬(1 : UInt8) = 10 by decide, not_false_eq_true]

theorem exists_ups_echo (h : s.keysMode = true) (i : ℕ) :
    ∃ s', steps s (List.replicate i 1) = some s' ∧ s'.keysMode = true := by
  induction i with
  | zero => exact ⟨s, rfl, h⟩
  | succ i ih =>
    obtain ⟨s₁, hs₁, hmode₁⟩ := ih
    obtain ⟨s', hs', hmode', -⟩ := exists_step_echo hmode₁
    exact ⟨s', by rw [steps_replicate_succ, hs₁, Option.bind_some, hs'], hmode'⟩

/-! ### The prompts from which the history is recalled -/

/-- The echo is off. -/
theorem Recalls.keysMode (h : Recalls s) : s.keysMode = false := by
  by_contra hon
  obtain ⟨s₁, hs₁, hmode₁⟩ := exists_ups_echo (Bool.eq_true_of_not_eq_false hon) (entries s).length
  obtain ⟨s', hs', -, hout⟩ := exists_step_echo hmode₁
  have hsame := h.2 1
  rw [steps_replicate_succ, hs₁, Option.bind_some, hs', Option.some.injEq] at hsame
  exact hout (congrArg State.out hsame)

/-- The walk starts behind the last entry. Otherwise up shows one entry twice, or nothing new, or it
has not come to the oldest line in time. -/
theorem Recalls.older_eq (h : Recalls s) (hs : Sound s) (hfresh : Fresh s)
    (hne : s.histCount ≠ histFirst s) : older s = s.histCount - histFirst s := by
  have hlen := length_entries s
  have hat : At s (older s) s := ⟨hs, rfl, rfl, h.keysMode, rfl⟩
  refine Nat.le_antisymm ?_ ?_
  · by_contra hlate
    obtain ⟨s₁, hs₁, hat₁, -⟩ := hat.ups hne (entries s).length
    obtain ⟨d, hd⟩ := Nat.exists_eq_add_one_of_ne_zero
      (by omega : older s - (entries s).length ≠ 0)
    rw [hd] at hat₁
    obtain ⟨s', hs', hat', -⟩ := hat₁.up hne
    have hsame := h.2 1
    rw [steps_replicate_succ, hs₁, Option.bind_some, hs', Option.some.injEq] at hsame
    have holder := hat'.older
    rw [hsame, hat₁.older] at holder
    omega
  · by_contra hearly
    -- one more time up is the same
    have hstay := hat.ups_oldest hne 1
    obtain ⟨x, s₁, hentry₁, hs₁, htext₁⟩ := h.1 (older s + 1) 0 (by omega) (by omega)
    rw [List.replicate_zero, List.append_nil, hstay] at hs₁
    rcases Nat.eq_zero_or_pos (older s) with hzero | hpos
    · rw [hzero] at hs₁
      obtain rfl := Option.some.inj hs₁
      obtain ⟨x', hx', c, hc, hcb⟩ := hs.entries_word _ (List.mem_of_getElem? hentry₁)
      obtain rfl := Option.some.inj hx'
      exact hcb (hfresh c (htext₁ ▸ hc))
    · obtain ⟨x', s₂, hentry₂, hs₂, htext₂⟩ := h.1 (older s) 0 hpos (by omega)
      rw [List.replicate_zero, List.append_nil, hs₁] at hs₂
      obtain rfl := Option.some.inj hs₂
      obtain rfl : x = x' := htext₁.symm.trans htext₂
      have heq := (List.getElem?_inj (by omega) hs.entries_nodup).mp (hentry₁.trans hentry₂.symm)
      omega

/-- `recall` finds the newest line in the slot where it looks for it. -/
theorem Recalls.count (h : Recalls s) (hs : Sound s) (hat : At s (s.histCount - histFirst s) s)
    (hne : s.histCount ≠ histFirst s) : s.histCount ≤ 16 ∨ s.histCount % 16 = 0 := by
  have hlen := length_entries s
  have hwindow := histFirst_cases s
  obtain ⟨x, s₁, hentry, hs₁, htext⟩ := h.1 1 0 (by decide) (by omega)
  obtain ⟨s₂, hs₂, hslot⟩ := @At.walk s 1 0 hat (by decide) (by omega)
  obtain rfl := Option.some.inj (hs₁.symm.trans hs₂)
  obtain ⟨i, hi, hmod, hfound⟩ :=
    @slot_eq s (s.histCount - histFirst s - (1 - 0)) (by omega)
  rw [hslot, htext] at hfound
  have heq := (List.getElem?_inj (by omega) hs.entries_nodup).mp (hfound.trans hentry.symm)
  omega

/-- A walk that starts behind the last entry, with the slots where `recall` looks for them. -/
theorem At.recalls (h : At s (s.histCount - histFirst s) s)
    (hgood : s.histCount ≤ 16 ∨ s.histCount % 16 = 0) : Recalls s := by
  have hlen := length_entries s
  have hwindow := histFirst_cases s
  refine ⟨fun k j hj hk => ?_, fun i => ?_⟩
  · rw [hlen] at hk ⊢
    obtain ⟨s', hs', hslot⟩ := h.walk hj hk
    obtain ⟨i, hi, hmod, hfound⟩ :=
      @slot_eq s (s.histCount - histFirst s - (k - j)) (by omega)
    obtain rfl : i = s.histCount - histFirst s - (k - j) := by omega
    exact ⟨s'.text, s', by rw [hfound, hslot], hs', rfl⟩
  · rw [hlen]
    by_cases hne : s.histCount = histFirst s
    · have hzero : s.histCount - histFirst s = 0 := by omega
      rw [hzero] at h ⊢
      rw [Nat.zero_add]
      induction i with
      | zero => rfl
      | succ i ih => rw [steps_replicate_succ, ih]; exact h.up_oldest
    · exact h.ups_oldest hne i

/-- **The histories that are recalled as they are listed.** -/
theorem Sound.recalls_iff (hs : Sound s) (hfresh : Fresh s) :
    Recalls s ↔ s.keysMode = false ∧ s.histAt = s.histCount ∧
      (s.histCount ≤ 16 ∨ s.histCount % 16 = 0) := by
  have hfirst := histFirst_le s
  have hwindow := histFirst_cases s
  have hcount := hs.count_lt
  have hat := hs.at_lt
  have holder : s.histAt = s.histCount ↔ older s = s.histCount - histFirst s := by
    rw [older, u32]
    omega
  constructor
  · intro h
    have hkeys := h.keysMode
    by_cases hne : s.histCount = histFirst s
    · have hmem := hs.at_mem
      exact ⟨hkeys, by omega, by omega⟩
    · have hbehind := h.older_eq hs hfresh hne
      exact ⟨hkeys, holder.mpr hbehind, h.count hs ⟨hs, rfl, rfl, hkeys, hbehind⟩ hne⟩
  · rintro ⟨hkeys, hbehind, hgood⟩
    exact At.recalls ⟨hs, rfl, rfl, hkeys, holder.mp hbehind⟩ hgood

/-- **Recalling.** At every fresh prompt, whatever keys have led there, the walk through the history
is the listing exactly if the echo is off, the walk starts behind the last entry, and no line has
been dropped or the number of lines is a multiple of 16. -/
theorem recalls_steps_iff (keys : List UInt8) :
    ∃ s, steps State.boot keys = some s ∧
      (Fresh s → (Recalls s ↔ s.keysMode = false ∧ s.histAt = s.histCount ∧
        (s.histCount ≤ 16 ∨ s.histCount % 16 = 0))) := by
  obtain ⟨s, hs, hsound⟩ := sound_boot.steps keys
  exact ⟨s, hs, fun hfresh => hsound.recalls_iff hfresh⟩

/-- The lines `a`, `b` and `c`, then up and ctrl-c. -/
def interruptedWalk : List UInt8 := [97, 10, 98, 10, 99, 10, 1, 3]

/-- **The line before.** The next walk goes on where this one has been left. -/
theorem recalls_steps_iff_interruptedWalk :
    ∃ s, steps State.boot interruptedWalk = some s ∧ ¬Recalls s := by
  obtain ⟨s, hs, hiff⟩ := recalls_steps_iff interruptedWalk
  have hrun : (steps State.boot interruptedWalk).map (fun s => (s.histAt, s.histCount, s.text)) =
      some (2, 3, []) := by decide +kernel
  rw [hs, Option.map_some, Option.some.injEq, Prod.mk.injEq, Prod.mk.injEq] at hrun
  obtain ⟨hat, hcount, htext⟩ := hrun
  refine ⟨s, hs, fun hrecalls => ?_⟩
  have hbehind := ((hiff (fresh_of_text_eq_nil htext)).mp hrecalls).2.1
  omega

/-- The lines `a` to `q`. -/
def seventeenLines : List UInt8 := (List.range 17).flatMap fun i => [.ofNat (97 + i), 10]

/-- **The line before last.** After seventeen lines the slots have moved on by one. -/
theorem not_recalls_seventeen :
    ∃ s, steps State.boot seventeenLines = some s ∧ Fresh s ∧ ¬Recalls s := by
  obtain ⟨s, hs, hsound⟩ := sound_boot.steps seventeenLines
  have hrun : (steps State.boot seventeenLines).map (fun s => (s.histCount, s.text)) =
      some (17, []) := by decide +kernel
  rw [hs, Option.map_some, Option.some.injEq, Prod.mk.injEq] at hrun
  obtain ⟨hcount, htext⟩ := hrun
  have hfresh := fresh_of_text_eq_nil htext
  refine ⟨s, hs, hfresh, fun hrecalls => ?_⟩
  have hgood := ((hsound.recalls_iff hfresh).mp hrecalls).2.2
  omega

end Shell

end Qizo
