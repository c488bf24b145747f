import Mathlib.Data.List.GetD

/-!
# Scrollback

What a text terminal is for: a text that only grows downwards, of which a window of fixed height
shows the last rows. A row holds what was typed into it; cells to the right of it, and rows of the
window below the last one, show a blank.

## Main results

* `view_newline_of_lt`, `view_newline_of_le` — a new row leaves the window where it is, or moves it
  down by one
* `view_push`, `view_rub` — typing and rubbing out change one cell of the last row
-/

/-- The rows above the current one, oldest first, and the current one. -/
structure Scrollback (α : Type*) where
  /-- The finished rows. -/
  above : List (List α)
  /-- The current row, up to the cursor. -/
  row : List α

namespace Scrollback

variable {α : Type*} {h r c : ℕ} {blank a : α} {s : Scrollback α}

/-- No text. -/
def empty : Scrollback α := ⟨[], []⟩

/-- The rows of the text. -/
def rows (s : Scrollback α) : List (List α) := s.above ++ [s.row]

/-- Start a new row. -/
def newline (s : Scrollback α) : Scrollback α := ⟨s.rows, []⟩

/-- Type a character into the current row. -/
def push (s : Scrollback α) (a : α) : Scrollback α := { s with row := s.row ++ [a] }

/-- Type a character; in a row of full width a new row is started for it. -/
def put (w : ℕ) (s : Scrollback α) (a : α) : Scrollback α :=
  if w ≤ s.row.length then s.newline.push a else s.push a

/-- Step back and rub out the last character of the current row, if it has one. -/
def rub (s : Scrollback α) : Scrollback α := { s with row := s.row.dropLast }

/-- The number of rows that have left a window of height `h`. -/
def top (h : ℕ) (s : Scrollback α) : ℕ := s.rows.length - h

/-- The character a window of height `h` shows in row `r` and column `c`. -/
def view (h : ℕ) (blank : α) (s : Scrollback α) (r c : ℕ) : α :=
  (s.rows.getD (s.top h + r) []).getD c blank

/-- The row of the window that the cursor is in. -/
def cursor (h : ℕ) (s : Scrollback α) : ℕ := min s.above.length (h - 1)

@[simp] theorem length_rows (s : Scrollback α) : s.rows.length = s.above.length + 1 := by
  simp [rows]

@[simp] theorem view_empty (r c : ℕ) : view h blank empty r c = blank := by
  have hrow : ∀ i, (empty : Scrollback α).rows.getD i [] = [] := by
    intro i
    cases i <;> simp [rows, empty]
  rw [view, hrow]
  rfl

theorem rows_newline (s : Scrollback α) : s.newline.rows = s.rows ++ [[]] := rfl

theorem top_newline_of_lt (hs : s.above.length + 1 < h) : s.newline.top h = s.top h := by
  simp only [top, length_rows, newline]
  omega

theorem top_newline_of_le (hs : h ≤ s.above.length + 1) : s.newline.top h = s.top h + 1 := by
  simp only [top, length_rows, newline]
  omega

theorem getD_rows_newline (s : Scrollback α) (i : ℕ) :
    s.newline.rows.getD i [] = s.rows.getD i [] := by
  rw [rows_newline, List.getD_eq_getElem?_getD, List.getD_eq_getElem?_getD, List.getElem?_append]
  split
  · rfl
  · rw [List.getElem?_eq_none (by omega : s.rows.length ≤ i)]
    cases i - s.rows.length <;> simp

/-- **A new row while the window is not full.** -/
theorem view_newline_of_lt (hs : s.above.length + 1 < h) (r c : ℕ) :
    s.newline.view h blank r c = s.view h blank r c := by
  rw [view, view, top_newline_of_lt hs, getD_rows_newline]

/-- **A new row in a full window.** -/
theorem view_newline_of_le (hs : h ≤ s.above.length + 1) (r c : ℕ) :
    s.newline.view h blank r c = s.view h blank (r + 1) c := by
  rw [view, view, top_newline_of_le hs, getD_rows_newline, Nat.add_right_comm, Nat.add_assoc]

/-- The window ends with the current row. -/
theorem view_of_cursor_lt (hr : s.cursor h < r) (c : ℕ) : s.view h blank r c = blank := by
  have hlen : s.rows.length ≤ s.top h + r := by
    simp only [top, length_rows, cursor] at hr ⊢
    omega
  rw [view, List.getD_eq_default _ _ hlen]
  rfl

theorem top_add_cursor (hh : 0 < h) : s.top h + s.cursor h = s.above.length := by
  simp only [top, length_rows, cursor]
  omega

/-- The row the cursor is in. -/
theorem view_cursor (hh : 0 < h) (c : ℕ) :
    s.view h blank (s.cursor h) c = s.row.getD c blank := by
  rw [view, top_add_cursor hh, rows, List.getD_append_right _ _ _ _ (Nat.le_refl _), Nat.sub_self]
  rfl

/-- Changing the current row changes no other row of the window. -/
theorem view_row_of_ne (row : List α) (hh : 0 < h) (hr : r ≠ s.cursor h) (c : ℕ) :
    ({ s with row := row } : Scrollback α).view h blank r c = s.view h blank r c := by
  have hne : s.top h + r ≠ s.above.length := by
    have := top_add_cursor (s := s) hh
    omega
  have htop : ({ s with row := row } : Scrollback α).top h = s.top h := by simp [top]
  rw [view, view, htop, rows, rows]
  rcases Nat.lt_or_gt_of_ne hne with hlt | hgt
  · rw [List.getD_append _ _ _ _ hlt, List.getD_append _ _ _ _ hlt]
  · have hlen : ∀ last : List α, (s.above ++ [last]).length ≤ s.top h + r := by
      intro last
      rw [List.length_append, List.length_singleton]
      omega
    rw [List.getD_eq_default _ [] (hlen row), List.getD_eq_default _ [] (hlen s.row)]

/-- **Typing changes the cell under the cursor.** -/
theorem view_push (hh : 0 < h) (r c : ℕ) :
    (s.push a).view h blank r c =
      if r = s.cursor h ∧ c = s.row.length then a else s.view h blank r c := by
  by_cases hr : r = s.cursor h
  · subst hr
    have hcur : s.cursor h = (s.push a).cursor h := rfl
    rw [hcur, view_cursor hh, ← hcur, view_cursor hh, push]
    rcases Nat.lt_trichotomy c s.row.length with hc | rfl | hc
    · rw [List.getD_append _ _ _ _ hc, if_neg (by omega)]
    · rw [List.getD_append_right _ _ _ _ (Nat.le_refl _), Nat.sub_self, if_pos ⟨rfl, rfl⟩]
      rfl
    · rw [List.getD_eq_default _ _ (by simp; omega), List.getD_eq_default _ _ (by omega),
        if_neg (by omega)]
  · rw [push, view_row_of_ne _ hh hr, if_neg (by omega)]

/-- **Rubbing out blanks the cell before the cursor.** -/
theorem view_rub (hh : 0 < h) (r c : ℕ) :
    s.rub.view h blank r c =
      if r = s.cursor h ∧ c + 1 = s.row.length then blank else s.view h blank r c := by
  by_cases hr : r = s.cursor h
  · subst hr
    have hcur : s.cursor h = s.rub.cursor h := rfl
    rw [hcur, view_cursor hh, ← hcur, view_cursor hh, rub]
    by_cases hc : c + 1 < s.row.length
    · rw [if_neg (by omega), List.getD_eq_getElem?_getD, List.getD_eq_getElem?_getD,
        List.getElem?_dropLast, if_pos (by omega)]
    · rw [List.getD_eq_default _ _ (by simp; omega)]
      split
      · rfl
      · rw [List.getD_eq_default _ _ (by omega)]
  · rw [rub, view_row_of_ne _ hh hr, if_neg (by omega)]

end Scrollback
