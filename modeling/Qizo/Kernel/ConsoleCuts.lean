import Qizo.Kernel.Printf

/-!
# Cutting output into writes

`qizo_console_write` sends its bytes to the serial port and to the screen. The screen keeps all it
needs in the cursor, so that it does not matter how a text is cut into calls. The serial port does
not: `serial_write` leaves out a line feed that a carriage return follows, and looks for the
carriage return only in the bytes of the same call.

A `Screen` is a console in which the cursor is on the screen and the controller knows where; every
write leaves it so, and there every call succeeds.

## Main results

* `Screen.calls_eq_write_iff` — any sequence of calls against one call
* `cut_iff_and_printf_iff` — the cuts and the texts that make no difference
-/

namespace Qizo

namespace Console

open Printf

/-! ### The serial port -/

/-- The bytes `serial_write` sends for one byte with another behind it. -/
def serialByte (c : UInt8) (next : Option UInt8) : List UInt8 :=
  if c = 10 ∧ next = some 13 then [] else if c = 10 then [c, 0x0D] else [c]

/-- The bytes it sends. -/
def serialOut : List UInt8 → List UInt8
  | [] => []
  | c :: data => serialByte c data.head? ++ serialOut data

variable {t u : Term} {c : UInt8} {a b data text : List UInt8}

theorem serialByte_none (c : UInt8) : serialByte c none = if c = 10 then [c, 0x0D] else [c] :=
  if_neg fun h => by cases h.2

theorem serialByte_of_not {next : Option UInt8} (h : ¬(c = 10 ∧ next = some 13)) :
    serialByte c next = serialByte c none := by
  rw [serialByte_none]
  exact if_neg h

theorem serialWrite_eq (t : Term) (data : List UInt8) :
    serialWrite t data =
      { t with serial := t.serial ++ if t.serialOk then serialOut data else [] } := by
  induction data generalizing t with
  | nil =>
    rw [serialWrite, serialOut, ite_self, List.append_nil]
  | cons c data ih =>
    rw [serialWrite, ih, serialOut, serialByte]
    by_cases hskip : c = 10 ∧ data.head? = some 13
    · rw [if_pos hskip, if_pos hskip, List.nil_append]
    · rw [if_neg hskip, if_neg hskip, serialPutc]
      cases hok : t.serialOk <;> simp [hok]

@[simp] theorem serialWrite_vgaOk (t : Term) (data : List UInt8) :
    (serialWrite t data).vgaOk = t.vgaOk := by rw [serialWrite_eq]

@[simp] theorem serialWrite_serialOk (t : Term) (data : List UInt8) :
    (serialWrite t data).serialOk = t.serialOk := by rw [serialWrite_eq]

/-- A line feed at the end and a carriage return at the beginning. -/
def Parts (a b : List UInt8) : Prop := a.getLast? = some 10 ∧ b.head? = some 13

theorem parts_cons_cons {d : UInt8} : Parts (c :: d :: a) b ↔ Parts (d :: a) b := by
  rw [Parts, Parts, List.getLast?_cons_cons]

theorem serialOut_append (h : ¬Parts a b) : serialOut (a ++ b) = serialOut a ++ serialOut b := by
  induction a with
  | nil => rfl
  | cons c a ih =>
    cases a with
    | nil =>
      have hskip : ¬(c = 10 ∧ b.head? = some 13) := fun hc => h ⟨by rw [hc.1]; rfl, hc.2⟩
      rw [List.singleton_append, serialOut, serialByte_of_not hskip, serialOut, serialOut,
        List.append_nil]
      rfl
    | cons d a =>
      rw [List.cons_append, serialOut, ih (parts_cons_cons.not.mp h), serialOut.eq_2 c,
        List.append_assoc]
      rfl

/-- A cut between a line feed and a carriage return makes the line feed, and another carriage
return, come out. -/
theorem length_serialOut_of_parts (h : Parts a b) :
    (serialOut a).length + (serialOut b).length = (serialOut (a ++ b)).length + 2 := by
  induction a with
  | nil => cases h.1
  | cons c a ih =>
    cases a with
    | nil =>
      obtain ⟨hc, hb⟩ := h
      obtain rfl : c = 10 := Option.some.inj hc
      have hskip : serialOut (10 :: b) = serialOut b := by
        rw [serialOut, hb]
        rfl
      rw [List.singleton_append, hskip, Nat.add_comm]
      rfl
    | cons d a =>
      have hlen := ih (parts_cons_cons.mp h)
      rw [List.cons_append, serialOut, serialOut.eq_2 c, List.length_append, List.length_append,
        List.head?_cons, List.cons_append, List.head?_cons]
      rw [List.cons_append] at hlen
      omega

/-- **The cuts that the serial port does not notice.** -/
theorem serialOut_append_iff : serialOut (a ++ b) = serialOut a ++ serialOut b ↔ ¬Parts a b := by
  constructor
  · intro h hparts
    have hlen := length_serialOut_of_parts hparts
    rw [h, List.length_append] at hlen
    omega
  · exact serialOut_append

theorem prefix_cons_iff : [10, 13] <+: c :: data ↔ c = 10 ∧ data.head? = some 13 := by
  rw [List.cons_prefix_cons, eq_comm]
  refine and_congr_right fun _ => ?_
  cases data with
  | nil => simp
  | cons d data => simp [List.cons_prefix_cons, eq_comm]

/-- A carriage return behind a line feed saves two bytes. -/
theorem length_serialByte (c : UInt8) (next : Option UInt8) :
    (serialByte c none).length =
      (serialByte c next).length + if c = 10 ∧ next = some 13 then 2 else 0 := by
  by_cases hskip : c = 10 ∧ next = some 13
  · rw [if_pos hskip, serialByte_none, if_pos hskip.1, serialByte, if_pos hskip]
    rfl
  · rw [if_neg hskip, serialByte_of_not hskip, Nat.add_zero]

theorem length_serialOut_le (text : List UInt8) :
    (serialOut text).length ≤ (text.flatMap (serialByte · none)).length := by
  induction text with
  | nil => exact Nat.le_refl 0
  | cons c text ih =>
    have hbyte := length_serialByte c text.head?
    rw [serialOut, List.flatMap_cons, List.length_append, List.length_append]
    omega

/-- **The texts that the serial port shows alike when they come byte by byte.** -/
theorem serialOut_bytes_iff :
    serialOut text = text.flatMap (serialByte · none) ↔ ¬[10, 13] <:+: text := by
  induction text with
  | nil => simp [serialOut]
  | cons c text ih =>
    have hbyte := length_serialByte c text.head?
    rw [List.infix_cons_iff, prefix_cons_iff, not_or, ← ih, serialOut, List.flatMap_cons]
    by_cases hskip : c = 10 ∧ text.head? = some 13
    · rw [if_pos hskip] at hbyte
      refine iff_of_false (fun h => ?_) fun h => h.1 hskip
      have hle := length_serialOut_le text
      have hlen := congrArg List.length h
      rw [List.length_append, List.length_append] at hlen
      omega
    · rw [serialByte_of_not hskip, List.append_cancel_left_eq, and_iff_right hskip]

/-! ### The screen -/

/-- The cells, the cursor and the colour of a console, with the rest from another one. -/
def Term.on (t o : Term) : Term :=
  { o with
    vga := t.vga, cursorCol := t.cursorCol, cursorRow := t.cursorRow, baseAttr := t.baseAttr }

/-- The controller is told where the cursor is, and nothing else changes. -/
theorem cursorUpdate_eq (t : Term) : cursorUpdate t = { t with crtc := (cursorUpdate t).crtc } := by
  rw [cursorUpdate]
  split <;> rfl

theorem lineFeed_on (t o : Term) : lineFeed (t.on o) = (lineFeed t).map (·.on o) := by
  unfold lineFeed termScroll
  dsimp only [Term.on]
  by_cases hrow : t.cursorRow + 1 < termRows
  · simp only [hrow, if_true]
    rfl
  · simp only [hrow, if_false]
    cases moveLoop ((termRows - 1) * termCols) 0 t.vga with
    | none => rfl
    | some v =>
      simp only [Option.bind_eq_bind, Option.bind_some]
      cases fillLoop (cell space t.baseAttr) termCols ((termRows - 1) * termCols) v <;> rfl

/-- Printing at the cursor. -/
theorem poke_on (x : UInt8) (t o : Term) :
    (do
      let v ← poke (t.on o).vga ((t.on o).cursorRow * termCols + (t.on o).cursorCol)
        (cell x (t.on o).baseAttr)
      some { t.on o with vga := v, cursorCol := (t.on o).cursorCol + 1 }) =
    (do
      let v ← poke t.vga (t.cursorRow * termCols + t.cursorCol) (cell x t.baseAttr)
      some { t with vga := v, cursorCol := t.cursorCol + 1 } : Option Term).map (·.on o) := by
  dsimp only [Term.on]
  cases poke t.vga (t.cursorRow * termCols + t.cursorCol) (cell x t.baseAttr) <;> rfl

/-- `term_putc` depends on the cells, the cursor and the colour only, and changes nothing else. -/
theorem termPutc_on (t o : Term) (c : UInt8) :
    termPutc (t.on o) c = (termPutc t c).map (·.on o) := by
  unfold termPutc
  by_cases hcr : c = 13
  · rw [if_pos hcr, if_pos hcr]
    rfl
  rw [if_neg hcr, if_neg hcr]
  by_cases hlf : c = 10
  · rw [if_pos hlf, if_pos hlf]
    exact lineFeed_on t o
  rw [if_neg hlf, if_neg hlf]
  have hcol : (t.on o).cursorCol = t.cursorCol := rfl
  by_cases hbs : c = 8
  · rw [if_pos hbs, if_pos hbs, hcol]
    by_cases hzero : t.cursorCol = 0
    · rw [if_neg (not_not.mpr hzero), if_neg (not_not.mpr hzero)]
      rfl
    · rw [if_pos hzero, if_pos hzero]
      dsimp only [Term.on]
      cases poke t.vga (t.cursorRow * termCols + (t.cursorCol - 1)) (cell space t.baseAttr) <;> rfl
  rw [if_neg hbs, if_neg hbs, hcol]
  by_cases hfull : termCols ≤ t.cursorCol
  · simp only [if_pos hfull]
    rw [lineFeed_on]
    cases lineFeed t with
    | none => rfl
    | some u => exact poke_on _ u o
  · simp only [if_neg hfull]
    exact poke_on _ t o

theorem termWrite_on (t o : Term) (data : List UInt8) :
    termWrite (t.on o) data = (termWrite t data).map (·.on o) := by
  induction data generalizing t with
  | nil => rfl
  | cons c data ih =>
    rw [termWrite, List.foldlM_cons, termPutc_on, termWrite, List.foldlM_cons]
    cases termPutc t c with
    | none => rfl
    | some u => exact ih u

theorem serialWrite_on (t : Term) (data : List UInt8) :
    t.on (serialWrite t data) = serialWrite t data := by
  rw [serialWrite_eq]
  rfl

/-- **One call**, screen and serial port apart. -/
theorem qizoConsoleWrite_eq (t : Term) (data : List UInt8) :
    qizoConsoleWrite t data =
      if t.vgaOk then (termWrite t data).map fun u => cursorUpdate (u.on (serialWrite t data))
      else some (serialWrite t data) := by
  have hwrite := termWrite_on t (serialWrite t data) data
  rw [serialWrite_on] at hwrite
  simp only [qizoConsoleWrite, serialWrite_vgaOk, hwrite]
  cases t.vgaOk with
  | false => rfl
  | true =>
    simp only [Bool.not_true, Bool.false_eq_true, if_false, if_true, Option.bind_eq_bind]
    cases termWrite t data <;> rfl

/-- The second of two calls has the same cells and the same cursor as one call for both. -/
theorem qizoConsoleWrite_append (h : qizoConsoleWrite t a = some u) (b : List UInt8) :
    qizoConsoleWrite t (a ++ b) =
      (qizoConsoleWrite u b).map fun w => { w with serial := (serialWrite t (a ++ b)).serial } := by
  rw [qizoConsoleWrite_eq] at h
  rw [qizoConsoleWrite_eq, qizoConsoleWrite_eq]
  cases hok : t.vgaOk with
  | false =>
    rw [hok, if_neg Bool.false_ne_true] at h
    obtain rfl := Option.some.inj h
    rw [if_neg Bool.false_ne_true, serialWrite_vgaOk, hok, if_neg Bool.false_ne_true,
      Option.map_some, serialWrite_eq (serialWrite t a), serialWrite_eq t, serialWrite_eq t]
  | true =>
    rw [hok, if_pos rfl] at h
    obtain ⟨v, hv, rfl⟩ := Option.map_eq_some_iff.mp h
    have hon : v.on (cursorUpdate (v.on (serialWrite t a))) =
        cursorUpdate (v.on (serialWrite t a)) := by
      rw [cursorUpdate_eq]
      rfl
    have hok' : (cursorUpdate (v.on (serialWrite t a))).vgaOk = true := by
      rw [cursorUpdate_eq]
      exact (serialWrite_vgaOk t a).trans hok
    have hsplit : termWrite t (a ++ b) = termWrite v b := by
      rw [termWrite, List.foldlM_append]
      rw [termWrite] at hv
      rw [hv]
      rfl
    have hsecond := termWrite_on v (cursorUpdate (v.on (serialWrite t a))) b
    rw [hon] at hsecond
    rw [if_pos rfl, hok', if_pos rfl, hsplit, hsecond, Option.map_map, Option.map_map]
    congr 1
    funext w
    -- the controller is told the last position in both cases, or never
    rw [serialWrite_eq, serialWrite_eq, serialWrite_eq]
    cases hplain : t.plainMode <;> simp [cursorUpdate, Term.on, hok]

/-! ### Consoles with the cursor on the screen -/

theorem lineFeed_onScreen (h : t.cursorRow < 25) :
    ∃ u, lineFeed t = some u ∧ u.cursorRow < 25 ∧ u.cursorCol = 0 := by
  by_cases hrow : t.cursorRow + 1 < 25
  · exact ⟨_, if_pos hrow, hrow, rfl⟩
  · refine ⟨_, termScroll_eq _ ?_, Nat.lt_succ_self _, rfl⟩
    dsimp only
    omega

theorem poke_onScreen (hrow : t.cursorRow < 25) (hcol : t.cursorCol < 80) (x : UInt8) :
    ∃ u, ((poke t.vga (t.cursorRow * termCols + t.cursorCol) (cell x t.baseAttr)).bind fun v =>
      some { t with vga := v, cursorCol := t.cursorCol + 1 }) = some u ∧ u.cursorRow < 25 ∧
      u.cursorCol ≤ 80 := by
  rw [poke_of_lt _ (by rw [termCols]; omega)]
  exact ⟨_, rfl, hrow, hcol⟩

theorem termPutc_onScreen (hrow : t.cursorRow < 25) (hcol : t.cursorCol ≤ 80) (c : UInt8) :
    ∃ u, termPutc t c = some u ∧ u.cursorRow < 25 ∧ u.cursorCol ≤ 80 := by
  unfold termPutc
  by_cases hcr : c = 13
  · rw [if_pos hcr]
    exact ⟨t, rfl, hrow, hcol⟩
  rw [if_neg hcr]
  by_cases hlf : c = 10
  · rw [if_pos hlf]
    obtain ⟨u, hu, hrow', hcol'⟩ := lineFeed_onScreen hrow
    exact ⟨u, hu, hrow', by omega⟩
  rw [if_neg hlf]
  by_cases hbs : c = 8
  · rw [if_pos hbs]
    by_cases hzero : t.cursorCol = 0
    · rw [if_neg (not_not.mpr hzero)]
      exact ⟨t, rfl, hrow, hcol⟩
    · rw [if_pos hzero]
      have hpoke := @poke_of_lt t.vga (t.cursorRow * termCols + (t.cursorCol - 1))
        (cell space t.baseAttr) (by rw [termCols]; omega)
      simp only [hpoke, Option.bind_eq_bind, Option.bind_some]
      exact ⟨_, rfl, hrow, by dsimp only; omega⟩
  rw [if_neg hbs]
  by_cases hfull : termCols ≤ t.cursorCol
  · obtain ⟨u, hu, hrow', hcol'⟩ := lineFeed_onScreen hrow
    simp only [if_pos hfull, hu, Option.bind_eq_bind, Option.bind_some]
    exact poke_onScreen hrow' (by omega) _
  · simp only [if_neg hfull]
    exact poke_onScreen hrow (Nat.not_le.mp hfull) _

theorem termWrite_onScreen (hrow : t.cursorRow < 25) (hcol : t.cursorCol ≤ 80)
    (data : List UInt8) : ∃ u, termWrite t data = some u ∧ u.cursorRow < 25 ∧ u.cursorCol ≤ 80 := by
  induction data generalizing t with
  | nil => exact ⟨t, rfl, hrow, hcol⟩
  | cons c data ih =>
    obtain ⟨u, hu, hrow', hcol'⟩ := termPutc_onScreen hrow hcol c
    obtain ⟨w, hw, hon⟩ := ih hrow' hcol'
    refine ⟨w, ?_, hon⟩
    rw [termWrite, List.foldlM_cons, hu]
    exact hw

/-- **A console with the cursor on the screen**, and shown where it is. -/
@[ext]
structure Screen where
  term : Term
  row_lt : term.cursorRow < 25
  col_le : term.cursorCol ≤ 80
  /-- The controller has the position of the cursor. -/
  inStep : cursorUpdate term = term

theorem cursorUpdate_cursorUpdate (t : Term) : cursorUpdate (cursorUpdate t) = cursorUpdate t := by
  by_cases h : (!t.vgaOk || t.plainMode) = true
  · have hsame : cursorUpdate t = t := if_pos h
    rw [hsame, hsame]
  · simp [cursorUpdate, h]

namespace Screen

/-- A call succeeds and leaves a screen. -/
theorem exists_write (s : Screen) (data : List UInt8) :
    ∃ s' : Screen, qizoConsoleWrite s.term data = some s'.term := by
  rw [qizoConsoleWrite_eq]
  cases hok : s.term.vgaOk with
  | false =>
    have hsame : cursorUpdate (serialWrite s.term data) = serialWrite s.term data := by
      rw [serialWrite_eq, cursorUpdate, hok]
      rfl
    exact ⟨⟨_, by rw [serialWrite_eq]; exact s.row_lt, by rw [serialWrite_eq]; exact s.col_le,
      hsame⟩, rfl⟩
  | true =>
    obtain ⟨u, hu, hrow, hcol⟩ := termWrite_onScreen s.row_lt s.col_le data
    have hrow' : (cursorUpdate (u.on (serialWrite s.term data))).cursorRow < 25 := by
      rw [cursorUpdate_eq]
      exact hrow
    have hcol' : (cursorUpdate (u.on (serialWrite s.term data))).cursorCol ≤ 80 := by
      rw [cursorUpdate_eq]
      exact hcol
    exact ⟨⟨_, hrow', hcol', cursorUpdate_cursorUpdate _⟩, by rw [if_pos rfl, hu]; rfl⟩

theorem isSome_write (s : Screen) (data : List UInt8) :
    (qizoConsoleWrite s.term data).isSome = true := by
  obtain ⟨s', h⟩ := s.exists_write data
  rw [h]
  rfl

theorem exists_get_eq (s : Screen) (data : List UInt8) :
    ∃ s' : Screen, (qizoConsoleWrite s.term data).get (s.isSome_write data) = s'.term := by
  obtain ⟨s', h⟩ := s.exists_write data
  exact ⟨s', Option.get_of_eq_some _ h⟩

/-- `qizo_console_write`. -/
def write (s : Screen) (data : List UInt8) : Screen where
  term := (qizoConsoleWrite s.term data).get (s.isSome_write data)
  row_lt := by
    obtain ⟨s', h⟩ := s.exists_get_eq data
    rw [h]
    exact s'.row_lt
  col_le := by
    obtain ⟨s', h⟩ := s.exists_get_eq data
    rw [h]
    exact s'.col_le
  inStep := by
    obtain ⟨s', h⟩ := s.exists_get_eq data
    rw [h]
    exact s'.inStep

/-- Several calls. -/
def calls (s : Screen) (css : List (List UInt8)) : Screen := css.foldl write s

theorem write_spec (s : Screen) (data : List UInt8) :
    qizoConsoleWrite s.term data = some (s.write data).term :=
  (Option.some_get (s.isSome_write data)).symm

variable (s : Screen)

theorem write_append (a b : List UInt8) : (s.write (a ++ b)).term =
    { ((s.write a).write b).term with serial := (serialWrite s.term (a ++ b)).serial } := by
  have h := qizoConsoleWrite_append (s.write_spec a) b
  rw [write_spec, write_spec] at h
  exact Option.some.inj h

theorem write_serial (data : List UInt8) : (s.write data).term.serialOk = s.term.serialOk ∧
    (s.write data).term.serial =
      s.term.serial ++ if s.term.serialOk then serialOut data else [] := by
  have h := s.write_spec data
  rw [qizoConsoleWrite_eq] at h
  split at h
  · obtain ⟨u, -, hu⟩ := Option.map_eq_some_iff.mp h
    rw [← hu, cursorUpdate_eq, serialWrite_eq]
    exact ⟨rfl, rfl⟩
  · rw [← Option.some.inj h, serialWrite_eq]
    exact ⟨rfl, rfl⟩

theorem write_nil : s.write [] = s := by
  have h := s.write_spec []
  rw [qizoConsoleWrite_eq, serialWrite] at h
  ext1
  split at h
  · rw [← Option.some.inj h]
    exact s.inStep
  · exact (Option.some.inj h).symm

/-- Cells and cursor are the same after several calls as after one. -/
theorem write_flatten (css : List (List UInt8)) : (s.write css.flatten).term =
    { (s.calls css).term with serial := (serialWrite s.term css.flatten).serial } := by
  induction css generalizing s with
  | nil =>
    rw [List.flatten_nil, write_nil, serialWrite]
    rfl
  | cons a css ih =>
    rw [List.flatten_cons, write_append, ih]
    rfl

theorem calls_serial (css : List (List UInt8)) : (s.calls css).term.serial =
    s.term.serial ++ if s.term.serialOk then css.flatMap serialOut else [] := by
  induction css generalizing s with
  | nil => rw [List.flatMap_nil, ite_self, List.append_nil, calls, List.foldl_nil]
  | cons a css ih =>
    obtain ⟨hok, hserial⟩ := s.write_serial a
    rw [calls, List.foldl_cons, ← calls, ih, hok, hserial, List.flatMap_cons]
    cases s.term.serialOk <;> simp

/-- **Several calls do what one call does** if they send the same bytes to the serial port. -/
theorem calls_eq_write_iff (css : List (List UInt8)) : s.write css.flatten = s.calls css ↔
    (s.term.serialOk = true → serialOut css.flatten = css.flatMap serialOut) := by
  have hterm := s.write_flatten css
  have hserial := s.calls_serial css
  have hone := (s.write_serial css.flatten).2
  constructor
  · intro h hok
    rw [h, hserial, hok, if_pos rfl, if_pos rfl] at hone
    exact (List.append_cancel_left hone).symm
  · intro h
    ext1
    rw [hterm, serialWrite_eq]
    have hsame : (if s.term.serialOk = true then serialOut css.flatten else []) =
        if s.term.serialOk = true then css.flatMap serialOut else [] := by
      split
      · rename_i hok
        exact h hok
      · rfl
    rw [hsame, ← hserial]

end Screen

/-! ### Cuts and characters -/

/-- **The cuts that make no difference, and the texts that `qizo_puts` and `qizo_printf` show
alike.** -/
theorem cut_iff_and_printf_iff (s : Screen) :
    (∀ a b, s.write (a ++ b) = (s.write a).write b ↔ ¬(s.term.serialOk = true ∧ Parts a b)) ∧
    ∀ str args text, code '%' ∉ text → ∃ css, qizoPrintf str args text = some (css, 0) ∧
      (s.write text = s.calls css ↔ ¬(s.term.serialOk = true ∧ [10, 13] <:+: text)) := by
  constructor
  · intro a b
    have h := s.calls_eq_write_iff [a, b]
    rw [List.flatten_cons, List.flatten_singleton, List.flatMap_cons, List.flatMap_singleton,
      serialOut_append_iff, ← not_and] at h
    exact h
  · intro str args text htext
    have hprintf : qizoPrintf str args text = some (putcs text, 0) := by
      have h := @printfLoop_plain str args text [] 0 htext
      rw [List.append_nil] at h
      rw [qizoPrintf, h, printfLoop.eq_1, emit_some, List.append_nil]
    have hbytes : (putcs text).flatMap serialOut = text.flatMap (serialByte · none) := by
      rw [putcs, List.flatMap_map]
      exact congrArg (text.flatMap ·) (funext fun c => List.append_nil _)
    refine ⟨putcs text, hprintf, ?_⟩
    have h := s.calls_eq_write_iff (putcs text)
    rw [flatten_putcs, hbytes, serialOut_bytes_iff, ← not_and] at h
    exact h

/-- The console after `qizo_clear`, with a serial port. -/
def cleared : Screen where
  term := ⟨fun _ => cell space 7, 0, 0, 7, true, true, false, [], 0⟩
  row_lt := by decide
  col_le := by decide
  inStep := rfl

/-- A line feed and a carriage return in two calls are sent as three bytes, and in one call as
one. -/
theorem cleared_cut_between :
    cleared.write ([10] ++ [13]) ≠ (cleared.write [10]).write [13] := by
  intro h
  have hsent := (cleared.calls_eq_write_iff [[10], [13]]).mp h rfl
  exact absurd hsent (by decide)

end Console

end Qizo
