import Qizo.Kernel.Printf
import Qizo.Lib.Memory
import Mathlib.Data.List.DropRight

/-!
# The shell

`kernel/shell.c`: the line editor, the history and the loop that reads keys and runs commands.
Each character array is a memory of its own, addressed from zero. A walk along a string that finds
no end inside the array of `LINE_MAX` characters is an error here (`none`). So is a read behind the
terminator of a command's name.

The state records what the shell sends to the console and, for each command it runs, the word and
the argument handed over. What the commands print and read is not part of it, and the two commands
that never come back, `reboot` and `halt`, come back here.

## Main results

* `scan_eq`, `cstr_eq` — a walk along a string that ends in its array
* `splitLine_eq` — the parts of a line
* `enter_blank`, `enter_eq` — what the enter key does with a line of blanks, and with any other
-/

namespace Qizo

namespace Shell

open Memory Printf

/-- `LINE_MAX`. -/
def lineMax : ℕ := 128
/-- `HIST_MAX`. -/
def histMax : ℕ := 16

/-- The code of a blank. -/
def blank : UInt8 := 32

/-- The characters of a literal. -/
def chars (s : String) : List UInt8 := s.toList.map code

/-- The names of `cmds`, in order. -/
def names : List (List UInt8) :=
  ["help", "sysmngr", "mouse", "info", "cpu", "cpuid", "mem", "bench", "micro", "speed", "ticks",
    "uptime", "rtc", "keys", "hist", "color", "banner", "echo", "wait", "clear", "fs", "about",
    "reboot", "halt"].map chars

/-- A command line handed over: the command word, its argument, and the index of the command in
the table, or the size of the table if there is none of that name. -/
structure Submission where
  /-- The string at `cmd`. -/
  word : List UInt8
  /-- The string at `arg`. -/
  arg : List UInt8
  /-- `i` behind the search. -/
  index : ℕ
  deriving DecidableEq

/-- The static variables, with what was sent to the console and the commands run. -/
structure State where
  /-- `line`. -/
  line : Memory
  /-- `len`. -/
  len : ℕ
  /-- `hist_at`. -/
  histAt : ℕ
  /-- `hist`. -/
  hist : ℕ → Memory
  /-- `hist_count`. -/
  histCount : ℕ
  /-- `keys_mode`. -/
  keysMode : Bool
  /-- The calls of the console. -/
  out : List Console.Call
  /-- The commands run. -/
  ran : List Submission

/-- The state at boot: static variables are zero. -/
def State.boot : State := ⟨fun _ => 0, 0, 0, fun _ _ => 0, 0, false, [], []⟩

/-- Reduction to 32 bits. -/
def u32 (x : ℕ) : ℕ := x % 2 ^ 32

/-! ### Strings -/

/-- The first place from `a` on whose character `p` does not accept, with `n` characters left in
the array. -/
def scanLoop (p : UInt8 → Bool) (m : Memory) : (n a : ℕ) → Option ℕ
  | 0, _ => none
  | n + 1, a => if p (m a) then scanLoop p m n (a + 1) else some a

/-- A walk along a line from place `a` on. -/
def scan (p : UInt8 → Bool) (m : Memory) (a : ℕ) : Option ℕ := scanLoop p m (lineMax - a) a

/-- The string at place `a`. -/
def cstr (m : Memory) (a : ℕ) : Option (List UInt8) :=
  (scan (· ≠ 0) m a).map fun e => bytes m a (e - a)

/-- The loop of `qizo_strcmp`. -/
def strcmpLoop (a b : Memory) : (n i : ℕ) → Option ℤ
  | 0, _ => none
  | n + 1, i =>
    if a i ≠ 0 ∧ a i = b i then strcmpLoop a b n (i + 1)
    else some ((a i).toNat - (b i).toNat)

/-- `qizo_strcmp` on two lines. -/
def qizoStrcmp (a b : Memory) : Option ℤ := strcmpLoop a b lineMax 0

/-- `word_eq`, on the characters before the terminators. -/
def wordEq : (a b : List UInt8) → Bool
  | a :: as, b :: bs => if a ≠ b then false else wordEq as bs
  | as, bs => as.headD 0 == bs.headD 0

/-! ### The console -/

/-- `qizo_puts`. -/
def puts (s : State) (text : List UInt8) : State := { s with out := s.out ++ [.write text] }

/-- `qizo_printf` with numbers as arguments. -/
def printf (s : State) (fmt : List UInt8) (args : List UInt64) : Option State := do
  let (calls, _) ← qizoPrintf (fun _ => []) (fun i => args.getD i 0) fmt
  some { s with out := s.out ++ calls.map .write }

/-- `prompt`. -/
def prompt (s : State) : State :=
  { s with out := s.out ++
      [.color 0x0A, .write (chars "qizo"), .color 0x07, .write (chars "> ")] }

/-! ### History -/

/-- `hist_first`. -/
def histFirst (s : State) : ℕ := if histMax < s.histCount then s.histCount - histMax else 0

/-- The search of `push_history` for an entry equal to the line, among `n` from `i` on. -/
def histLoop (s : State) : (n i : ℕ) → Option Bool
  | 0, _ => some false
  | n + 1, i => do
    let d ← qizoStrcmp (s.hist (i % histMax)) s.line
    if d = 0 then some true else histLoop s n (i + 1)

/-- `push_history`. -/
def pushHistory (s : State) : Option State :=
  if s.len = 0 then some s
  else do
    let found ← histLoop s (s.histCount - histFirst s) (histFirst s)
    if found then some { s with len := 0 }
    else
      let slot := s.histCount % histMax
      some { s with
        hist := Function.update s.hist slot ((s.hist slot).write 0 (bytes s.line 0 (s.len + 1)))
        histCount := u32 (s.histCount + 1)
        len := 0 }

/-! ### The line editor -/

/-- Rub out the last character. -/
def rubOut (s : State) : State :=
  puts { s with len := s.len - 1, line := Function.update s.line (s.len - 1) 0 }
    [8, blank, 8]

/-- The loops `while (len && p(line[len - 1]))` that rub out, at most `n` times. -/
def rubLoop (p : UInt8 → Bool) : (n : ℕ) → State → State
  | 0, s => s
  | n + 1, s => if s.len ≠ 0 ∧ p (s.line (s.len - 1)) then rubLoop p n (rubOut s) else s

/-- `clear_line`. -/
def clearLine (s : State) : State := rubLoop (fun _ => true) s.len s

/-- The loop of `set_line` over the characters of the text. -/
def setLoop : (text : List UInt8) → (i : ℕ) → State → State
  | [], i, s => { s with line := Function.update s.line i 0, len := i }
  | c :: text, i, s =>
    if i < lineMax - 1 then
      setLoop text (i + 1) (puts { s with line := Function.update s.line i c } [c])
    else { s with line := Function.update s.line i 0, len := i }

/-- `set_line`. -/
def setLine (s : State) (text : List UInt8) : State := setLoop text 0 s

/-- How many entries lie before the one the walk is at: `hist_at - first`. -/
def older (s : State) : ℕ := u32 (s.histAt + 2 ^ 32 - histFirst s)

/-- The end of `recall`: the line is replaced by the entry the walk is at. -/
def recallEntry (s : State) : Option State :=
  let s := clearLine s
  if s.histCount ≤ s.histAt then some s
  else (cstr (s.hist (older s % histMax)) 0).map (setLine s)

/-- `recall`, towards older entries for `back`. -/
def «recall» (back : Bool) (s : State) : Option State :=
  let first := histFirst s
  if s.histCount = first then some s
  else if back then
    if s.histAt = first then some s
    else recallEntry { s with histAt := u32 (s.histAt + 2 ^ 32 - 1) }
  else if s.histCount ≤ u32 (s.histAt + 1) then some (clearLine { s with histAt := s.histCount })
  else recallEntry { s with histAt := u32 (s.histAt + 1) }

/-- `erase_word`. -/
def eraseWord (s : State) : State :=
  let s := rubLoop (· = blank) s.len s
  rubLoop (· ≠ blank) s.len s

/-! ### Tab completion -/

/-- A character of a string, the terminator included. -/
def charAt (text : List UInt8) (i : ℕ) : Option UInt8 := (text ++ [0])[i]?

/-- A character of the line. -/
def lineAt (m : Memory) (i : ℕ) : Option UInt8 := if i < lineMax then some (m i) else none

/-- `name_prefix` from index `i` on, with `n` characters of the text left. -/
def namePrefixLoop (name : List UInt8) (m : Memory) : (n i : ℕ) → Option Bool
  | 0, i => (charAt name i).map (· != 0)
  | n + 1, i => do
    let c ← charAt name i
    let t ← lineAt m i
    if c ≠ t then some false else namePrefixLoop name m n (i + 1)

/-- `while (best[n] && best[n] == name[n]) n++`. -/
def commonLoop (best name : List UInt8) : (fuel n : ℕ) → Option ℕ
  | 0, _ => none
  | fuel + 1, n => do
    let b ← charAt best n
    if b = 0 then some n
    else
      let c ← charAt name n
      if b = c then commonLoop best name fuel (n + 1) else some n

/-- What a matching name does to `best` and `matches`. -/
def takeName (r : List UInt8 × ℕ) (name : List UInt8) : Option (List UInt8 × ℕ) :=
  if r.2 = 0 then if name.length + 1 ≤ lineMax then some (name, 1) else none
  else (commonLoop r.1 name (r.1.length + 1) 0).map fun n => (r.1.take n, r.2 + 1)

/-- One pass of the first loop. -/
def tablePass (m : Memory) (len : ℕ) (r : List UInt8 × ℕ) (name : List UInt8) :
    Option (List UInt8 × ℕ) := do
  let matched ← namePrefixLoop name m len 0
  if matched then takeName r name else some r

/-- A character at the end of the line, and on the console. -/
def appendChar (s : State) (c : UInt8) : Option State :=
  if s.len < lineMax then
    some (puts { s with line := Function.update s.line s.len c, len := s.len + 1 } [c])
  else none

/-- `while (len < n)`. -/
def extendLoop (best : List UInt8) : (fuel : ℕ) → State → Option State
  | 0, s => some s
  | fuel + 1, s =>
    if s.len < best.length then do
      let c ← charAt best s.len
      let s ← appendChar s c
      extendLoop best fuel s
    else some s

/-- `complete` with a table. -/
def completeTable (table : List (List UInt8)) (s : State) : Option State := do
  let (best, found) ← table.foldlM (tablePass s.line s.len) ([], 0)
  if found = 0 then some s
  else
    let s ← extendLoop best best.length s
    if found = 1 then appendChar s blank else some s

/-- `complete`. -/
def complete (s : State) : Option State := completeTable names s

/-! ### Editing -/

/-- The characters `edit_line` accepts. -/
def accepted (key : UInt8) : Bool :=
  key = blank || (code '!' ≤ key && key ≤ code '/') || (code ':' ≤ key && key ≤ code '@') ||
    (code 'a' ≤ key && key ≤ code 'z') || (code 'A' ≤ key && key ≤ code 'Z') ||
    (code '[' ≤ key && key ≤ 96) || (123 ≤ key && key ≤ code '~')

/-- `edit_line`. -/
def editLine (key : UInt8) (s : State) : State :=
  if key = 8 then if s.len ≠ 0 then rubOut s else s
  else if key = 0x15 then clearLine s
  else if key = 0x17 then eraseWord s
  else if accepted key then
    if s.len < lineMax - 1 then
      puts { s with
        line := Function.update (Function.update s.line s.len key) (s.len + 1) 0
        len := s.len + 1 } [key]
    else s
  else s

/-! ### The loop of the shell -/

/-- The search for a command, from index `i` on. -/
def findLoop (word : List UInt8) : (table : List (List UInt8)) → (i : ℕ) → ℕ
  | [], i => i
  | name :: table, i => if wordEq word name then i else findLoop word table (i + 1)

/-- `?` is `help`. -/
def resolve (word : List UInt8) : List UInt8 :=
  if wordEq word (chars "?") then chars "help" else word

/-- The index of a command. -/
def find (word : List UInt8) : ℕ := findLoop (resolve word) names 0

/-- Run the command of a word: `keys` is the one that changes a variable of the shell. What a
command does elsewhere is left out, and every command comes back. -/
def run (s : State) (word arg : List UInt8) : State :=
  let i := find word
  let s := { s with ran := s.ran ++ [⟨word, arg, i⟩] }
  if names[i]? = some (chars "keys") then { s with keysMode := !s.keysMode }
  else if i = names.length then
    puts (puts (puts s (chars "qizo: unknown command '")) (resolve word))
      (chars "' (help, or tab)\r\n")
  else s

/-- The line is split where its first word ends. The result is the line, and the places of the
word and of the argument. -/
def splitLine (m : Memory) : Option (Memory × ℕ × ℕ) := do
  let cmd ← scan (· = blank) m 0
  let arg ← scan (fun c => c ≠ 0 && c ≠ blank) m cmd
  if m arg ≠ 0 then
    let m := Function.update m arg 0
    let arg ← scan (· = blank) m (arg + 1)
    some (m, cmd, arg)
  else some (m, cmd, arg)

/-- The branch of `qizo_shell` for the enter key. -/
def enter (s : State) : Option State := do
  let s := puts s (chars "\r\n")
  let (m, cmd, arg) ← splitLine (Function.update s.line s.len 0)
  let s := { s with line := m }
  if s.line cmd = 0 then some (prompt s)
  else
    let s ← pushHistory s
    let s := { s with histAt := s.histCount }
    let word ← cstr s.line cmd
    let arg ← cstr s.line arg
    some (prompt { run s word arg with len := 0 })

/-- One key through the loop of `qizo_shell`. -/
def step (s : State) (c : UInt8) : Option State := do
  let s ← if s.keysMode ∧ c ≠ 10 then printf s (chars "key     : %x\r\n") [c.toUInt64] else some s
  if s.keysMode ∧ (c = 1 ∨ c = 2) then some s
  else if c = 1 then «recall» true s
  else if c = 2 then «recall» false s
  else if c = 9 then complete s
  else if c = 0x0C then some (prompt { s with out := s.out ++ [.clear] })
  else if c = 0x03 then some (prompt (clearLine (puts s (chars "^C\r\n"))))
  else if c = 10 then enter s
  else some (editLine c s)

/-- Keys one after the other. -/
def steps (s : State) (keys : List UInt8) : Option State := keys.foldlM step s

/-! ### Formats

The formats with a conversion in them, as lists of directives. -/

/-- The format of the echo of key codes. -/
def keyFormat : List Directive :=
  [.plain 107 (by decide), .plain 101 (by decide), .plain 121 (by decide), .plain 32 (by decide),
    .plain 32 (by decide), .plain 32 (by decide), .plain 32 (by decide), .plain 32 (by decide),
    .plain 58 (by decide), .plain 32 (by decide), .x, .plain 13 (by decide), .plain 10 (by decide)]

theorem format_keyFormat : format keyFormat = chars "key     : %x\r\n" := by decide

/-- The format of one entry of `hist`. -/
def histFormat : List Directive :=
  [.plain 32 (by decide), .plain 32 (by decide), .wideU 2 (by decide), .plain 32 (by decide),
    .plain 32 (by decide), .s, .plain 13 (by decide), .plain 10 (by decide)]

theorem format_histFormat : format histFormat = chars "  %2u  %s\r\n" := by decide

/-! ### Words -/

/-- The first word of a line. -/
def wordOf (b : List UInt8) : List UInt8 := (b.dropWhile (· = blank)).takeWhile (· ≠ blank)

/-- What follows the first word and the blanks behind it. -/
def argOf (b : List UInt8) : List UInt8 :=
  ((b.dropWhile (· = blank)).dropWhile (· ≠ blank)).dropWhile (· = blank)

/-- A line up to the end of its first word. -/
def cutLine (b : List UInt8) : List UInt8 := b.takeWhile (· = blank) ++ wordOf b

/-! ### Strings in memory -/

variable {m : Memory} {a : ℕ} {xs ys : List UInt8} {s : State}

theorem scanLoop_eq {p : UInt8 → Bool} (n : ℕ) (h : Holds m a (xs ++ [0])) (h0 : p 0 = false)
    (hn : xs.length < n) : scanLoop p m n a = some (a + (xs.takeWhile p).length) := by
  induction xs generalizing n a with
  | nil =>
    obtain ⟨n, rfl⟩ := Nat.exists_eq_add_one_of_ne_zero (by omega : n ≠ 0)
    have hma : m a = 0 := h 0 0 rfl
    rw [scanLoop, hma, h0]
    rfl
  | cons x xs ih =>
    obtain ⟨n, rfl⟩ := Nat.exists_eq_add_one_of_ne_zero (by omega : n ≠ 0)
    have hma : m a = x := h 0 x rfl
    have htail : Holds m (a + 1) (xs ++ [0]) := @Holds.right m a [x] _ h
    rw [scanLoop, hma, List.takeWhile_cons]
    split
    · rw [ih n htail (by rw [List.length_cons] at hn; omega), List.length_cons, Nat.add_assoc,
        Nat.add_comm 1]
    · rfl

/-- **A walk along a string** ends at the first character that is not accepted. -/
theorem scan_eq {p : UInt8 → Bool} (h : Holds m a (xs ++ [0])) (h0 : p 0 = false)
    (ha : a + xs.length < 128) : scan p m a = some (a + (xs.takeWhile p).length) :=
  scanLoop_eq _ h h0 (by rw [lineMax]; omega)

theorem cstr_eq (h : Holds m a (xs ++ [0])) (hxs : 0 ∉ xs) (ha : a + xs.length < 128) :
    cstr m a = some xs := by
  have htake : xs.takeWhile (fun c => decide (c ≠ 0)) = xs := by
    rw [List.takeWhile_eq_self_iff]
    intro x hx
    rw [decide_eq_true_iff]
    rintro rfl
    exact hxs hx
  rw [cstr, scan_eq h (by simp) ha, htake, Option.map_some, Nat.add_sub_cancel_left,
    holds_iff_bytes_eq.mp h.left]

/-- The parts of a line. -/
theorem cutLine_append (b : List UInt8) :
    cutLine b ++ (b.dropWhile (· = blank)).dropWhile (· ≠ blank) = b := by
  rw [cutLine, List.append_assoc, wordOf, List.takeWhile_append_dropWhile,
    List.takeWhile_append_dropWhile]

theorem wordOf_eq_nil_iff (b : List UInt8) : wordOf b = [] ↔ ∀ c ∈ b, c = blank := by
  rw [wordOf]
  cases hd : b.dropWhile (· = blank) with
  | nil => simpa [List.dropWhile_eq_nil_iff] using hd
  | cons c t =>
    have hc : c ≠ blank := by
      have := List.head?_dropWhile_not (fun c => decide (c = blank)) b
      rw [hd] at this
      simpa using this
    refine iff_of_false (by simp [hc]) fun hall => ?_
    have hmem : c ∈ b.dropWhile (· = blank) := by simp [hd]
    exact hc (hall c ((List.dropWhile_sublist _).subset hmem))

theorem takeWhile_word {t : List UInt8} (ht : 0 ∉ t) :
    t.takeWhile (fun c => c ≠ 0 && c ≠ blank) = t.takeWhile (· ≠ blank) := by
  induction t with
  | nil => rfl
  | cons c t ih =>
    rw [List.mem_cons, not_or] at ht
    rw [List.takeWhile_cons, List.takeWhile_cons, ih ht.2]
    simp [Ne.symm ht.1]

theorem eq_zero_iff_nil (h : Holds m a (xs ++ [0])) (hxs : 0 ∉ xs) : m a = 0 ↔ xs = [] := by
  cases xs with
  | nil => exact iff_of_true (h 0 0 rfl) rfl
  | cons x xs =>
    have hx : m a = x := h 0 x rfl
    rw [List.mem_cons, not_or] at hxs
    rw [hx]
    exact iff_of_false (Ne.symm hxs.1) (List.cons_ne_nil _ _)

/-- **The line is split behind its first word.** -/
theorem splitLine_eq {b : List UInt8} (h : Holds m 0 (b ++ [0])) (hb : 0 ∉ b)
    (hlen : b.length < 128) :
    ∃ m' cmd arg, splitLine m = some (m', cmd, arg) ∧ (m' cmd = 0 ↔ wordOf b = []) ∧
      cstr m' cmd = some (wordOf b) ∧ cstr m' arg = some (argOf b) ∧
      Holds m' 0 (cutLine b ++ [0]) ∧ (wordOf b = [] → m' = m) := by
  have hcut := cutLine_append b
  have hpre : b.takeWhile (· = blank) ++ b.dropWhile (· = blank) = b :=
    List.takeWhile_append_dropWhile
  have hword : wordOf b ++ (b.dropWhile (· = blank)).dropWhile (· ≠ blank) =
      b.dropWhile (· = blank) := List.takeWhile_append_dropWhile
  rw [argOf, cutLine] at *
  generalize hpre' : b.takeWhile (· = blank) = pre at *
  generalize ht' : b.dropWhile (· = blank) = t at *
  generalize hr' : t.dropWhile (· ≠ blank) = r at *
  have hw' : t.takeWhile (· ≠ blank) = wordOf b := by rw [wordOf, ht']
  generalize wordOf b = w at *
  subst hword
  subst hpre
  rw [List.mem_append, List.mem_append, not_or, not_or] at hb
  obtain ⟨hpre0, hw0, hr0⟩ := hb
  rw [List.length_append, List.length_append] at hlen
  rw [List.append_assoc] at h
  have ht : Holds m pre.length ((w ++ r) ++ [0]) := by simpa using h.right
  have hrest : Holds m (pre.length + w.length) (r ++ [0]) := by
    rw [List.append_assoc] at ht
    exact ht.right
  have hcmd : scan (· = blank) m 0 = some pre.length := by
    rw [scan_eq (by rwa [List.append_assoc] : Holds m 0 ((pre ++ (w ++ r)) ++ [0])) (by decide)
      (by simp; omega), hpre', Nat.zero_add]
  have harg : scan (fun c => c ≠ 0 && c ≠ blank) m pre.length = some (pre.length + w.length) := by
    rw [scan_eq ht (by decide) (by simp; omega), takeWhile_word (by simp [hw0, hr0]), hw']
  rw [splitLine, hcmd, Option.bind_eq_bind, Option.bind_some, harg, Option.bind_some]
  cases r with
  | nil =>
    have hend : m (pre.length + w.length) = 0 := hrest 0 0 rfl
    rw [if_neg (not_not.mpr hend)]
    rw [List.append_nil] at ht h
    refine ⟨m, _, _, rfl, ?_, cstr_eq ht hw0 (by omega), cstr_eq hrest (by simp) (by simp; omega),
      by simpa using h, fun _ => rfl⟩
    exact eq_zero_iff_nil ht hw0
  | cons c r =>
    have hc : c = blank := by
      have := List.head?_dropWhile_not (fun c => decide (c ≠ blank)) (w ++ c :: r)
      rw [hr'] at this
      simpa using this
    subst hc
    have hend : m (pre.length + w.length) = blank := hrest 0 blank rfl
    have hw : Holds (Function.update m (pre.length + w.length) 0) pre.length (w ++ [0]) := by
      rw [List.append_assoc] at ht
      exact ht.left.push 0
    have hr : Holds (Function.update m (pre.length + w.length) 0) (pre.length + w.length + 1)
        (r ++ [0]) :=
      (@Holds.right _ _ [blank] _ hrest).update 0 (Or.inl (Nat.lt_succ_self _))
    have hlast : Holds (Function.update m (pre.length + w.length) 0)
        (pre.length + w.length + 1 + (r.takeWhile (· = blank)).length)
        (r.dropWhile (· = blank) ++ [0]) := by
      refine Holds.right ?_
      rwa [← List.append_assoc, List.takeWhile_append_dropWhile]
    rw [List.mem_cons, not_or] at hr0
    rw [List.length_cons] at hlen
    have hdrop : (blank :: r).dropWhile (· = blank) = r.dropWhile (· = blank) := by simp
    have hrlen : r.length = (r.takeWhile (· = blank)).length +
        (r.dropWhile (· = blank)).length := by
      rw [← List.length_append, List.takeWhile_append_dropWhile]
    have hskip := scan_eq (p := (· = blank)) hr (by decide) (by omega)
    rw [if_pos (by rw [hend]; decide)]
    simp only [hskip, Option.bind_some, hdrop]
    refine ⟨_, _, _, rfl, eq_zero_iff_nil hw hw0, cstr_eq hw hw0 (by omega),
      cstr_eq hlast (fun hm => hr0.2 ((List.dropWhile_sublist _).subset hm)) (by omega), ?_, ?_⟩
    · have hpw : Holds m 0 (pre ++ w) := by
        rw [← List.append_assoc, ← List.append_assoc] at h
        exact h.left.left
      simpa using hpw.push 0
    · rintro rfl
      have := List.head?_dropWhile_not (fun c => decide (c = blank)) (pre ++ ([] ++ blank :: r))
      rw [ht'] at this
      simp at this

/-! ### The enter key -/

/-- A comparison with a terminated string ends. -/
theorem exists_strcmpLoop {a b : Memory} (n i k : ℕ) (hk : k < n) (hb : b (i + k) = 0) :
    ∃ d, strcmpLoop a b n i = some d := by
  induction n generalizing i k with
  | zero => omega
  | succ n ih =>
    rw [strcmpLoop]
    split
    · rename_i hab
      obtain ⟨k, rfl⟩ : ∃ k', k = k' + 1 := by
        refine Nat.exists_eq_add_one_of_ne_zero fun hk0 => hab.1 ?_
        rw [hab.2, ← hb, hk0, Nat.add_zero]
      exact ih (i + 1) k (by omega) (by rw [← hb]; congr 1; omega)
    · exact ⟨_, rfl⟩

theorem exists_histLoop {k : ℕ} (hk : k < 128) (hs : s.line k = 0) (n i : ℕ) :
    ∃ found, histLoop s n i = some found := by
  induction n generalizing i with
  | zero => exact ⟨false, rfl⟩
  | succ n ih =>
    obtain ⟨d, hd⟩ := exists_strcmpLoop (a := s.hist (i % histMax)) (b := s.line) lineMax 0 k hk
      (by rwa [Nat.zero_add])
    rw [histLoop, qizoStrcmp, hd, Option.bind_eq_bind, Option.bind_some]
    split
    · exact ⟨true, rfl⟩
    · exact ih (i + 1)

/-- Remembering a line empties it and touches nothing of the editor but its length. -/
theorem exists_pushHistory {k : ℕ} (hk : k < 128) (hs : s.line k = 0) (hlen : s.len ≠ 0) :
    ∃ s', pushHistory s = some s' ∧ s'.line = s.line ∧ s'.len = 0 ∧ s'.ran = s.ran := by
  obtain ⟨found, hfound⟩ := exists_histLoop hk hs (s.histCount - histFirst s) (histFirst s)
  rw [pushHistory, if_neg hlen, hfound, Option.bind_eq_bind, Option.bind_some]
  split
  · exact ⟨_, rfl, rfl, rfl, rfl⟩
  · exact ⟨_, rfl, rfl, rfl, rfl⟩

theorem run_spec (s : State) (word arg : List UInt8) :
    (run s word arg).hist = s.hist ∧ (run s word arg).histCount = s.histCount ∧
      (run s word arg).histAt = s.histAt ∧
      (run s word arg).ran = s.ran ++ [⟨word, arg, find word⟩] := by
  rw [run]
  by_cases hkeys : names[find word]? = some (chars "keys")
  · simp only [if_pos hkeys, and_self]
  · by_cases hend : find word = names.length
    · simp only [if_neg hkeys, if_pos hend, puts, and_self]
    · simp only [if_neg hkeys, if_neg hend, and_self]

/-- The line with a terminator written behind it. -/
theorem holds_terminated {b : List UInt8} (h : Holds s.line 0 b) (hs : s.len = b.length) :
    Holds (Function.update s.line s.len 0) 0 (b ++ [0]) := by
  simpa [hs] using h.push 0

/-- **A line of blanks** stays where it is. -/
theorem enter_blank {b : List UInt8} (h : Holds s.line 0 b) (hs : s.len = b.length)
    (hlen : b.length < 128) (hb : ∀ c ∈ b, c = blank) :
    ∃ s', enter s = some s' ∧ Holds s'.line 0 b ∧ s'.len = s.len ∧ s'.ran = s.ran := by
  have hb0 : 0 ∉ b := fun hm => absurd (hb 0 hm) (by decide)
  have hterm := holds_terminated h hs
  obtain ⟨m', cmd, arg, hsplit, hcmd, -, -, -, hm'⟩ := splitLine_eq hterm hb0 hlen
  have hword := (wordOf_eq_nil_iff b).mpr hb
  refine ⟨prompt { puts s (chars "\r\n") with line := m' }, ?_, ?_, rfl, rfl⟩
  · rw [enter]
    simp only [puts, hsplit, Option.bind_eq_bind, Option.bind_some, if_pos (hcmd.mpr hword)]
  · change Holds m' 0 b
    rw [hm' hword]
    exact hterm.left

/-- **Any other line** is split, remembered up to the end of its first word, and run. -/
theorem enter_eq {b : List UInt8} (h : Holds s.line 0 b) (hs : s.len = b.length)
    (hlen : b.length < 128) (hb0 : 0 ∉ b) (hb : ∃ c ∈ b, c ≠ blank) :
    ∃ m' s₁ s', Holds m' 0 (cutLine b ++ [0]) ∧
      pushHistory { puts s (chars "\r\n") with line := m' } = some s₁ ∧ enter s = some s' ∧
      s'.hist = s₁.hist ∧ s'.histCount = s₁.histCount ∧ s'.histAt = s₁.histCount ∧ s'.len = 0 ∧
      s'.ran = s.ran ++ [⟨wordOf b, argOf b, find (wordOf b)⟩] := by
  have hword : wordOf b ≠ [] := by
    rw [Ne, wordOf_eq_nil_iff, not_forall]
    obtain ⟨c, hc, hne⟩ := hb
    exact ⟨c, fun hall => hne (hall hc)⟩
  obtain ⟨m', cmd, arg, hsplit, hcmd, hcstr, harg, hcut, -⟩ :=
    splitLine_eq (holds_terminated h hs) hb0 hlen
  have hlen0 : s.len ≠ 0 := by
    rw [hs]
    rintro hnil
    rw [List.length_eq_zero_iff.mp hnil] at hb
    simp at hb
  have hcutlen : (cutLine b).length ≤ b.length := by
    rw [← cutLine_append b, List.length_append, cutLine_append]
    omega
  have hend : m' (cutLine b).length = 0 := by
    have := hcut.right 0 0 rfl
    simpa using this
  obtain ⟨s₁, hs₁, hline, -, hran⟩ := exists_pushHistory
    (s := { puts s (chars "\r\n") with line := m' }) (by omega) hend hlen0
  obtain ⟨hhist, hcount, hat, hrun⟩ :=
    run_spec { s₁ with histAt := s₁.histCount } (wordOf b) (argOf b)
  refine ⟨m', s₁, prompt { run { s₁ with histAt := s₁.histCount } (wordOf b) (argOf b) with
    len := 0 }, hcut, hs₁, ?_, hhist, hcount, hat, rfl, ?_⟩
  · rw [enter]
    simp only [hsplit, puts, Option.bind_eq_bind, Option.bind_some] at hs₁ hline ⊢
    rw [if_neg (hcmd.not.mpr hword)]
    simp only [hs₁, Option.bind_some, hline, hcstr, harg]
  · change (run { s₁ with histAt := s₁.histCount } (wordOf b) (argOf b)).ran = _
    rw [hrun, hran]
    rfl

end Shell

end Qizo
