import Mathlib.Algebra.GroupWithZero.Nat
import Mathlib.Logic.Function.Basic
import Mathlib.Tactic.Common

/-! Terminals that print on an unbounded roll of paper: the last rows are in view, and the cursor is
among them. Cells are also counted from the beginning of the roll, row after row. -/
namespace PaperTerminal

open Function

/-- Rows of `w` cells, of which the last `h` are in view. -/
structure Paper (α : Type*) (w h : Nat) where
  rows : List (Fin w → α)
  top : Nat
  row : Nat
  column : Nat
  full : rows.length = top + h
  above : top ≤ row
  below : row < top + h
  inside : column < w

namespace Paper

variable {α : Type*} {w h : Nat}

/-- A new roll, with the cursor in its first cell. -/
def blank [NeZero w] [NeZero h] (b : α) : Paper α w h where
  rows := List.replicate h fun _ => b
  top := 0
  row := 0
  column := 0
  full := by simp
  above := Nat.le_refl 0
  below := by simpa using Nat.pos_of_neZero h
  inside := Nat.pos_of_neZero w

/-- Fill the cell at the cursor. -/
def put (p : Paper α w h) (a : α) : Paper α w h where
  rows := p.rows.modify p.row fun line => update line ⟨p.column, p.inside⟩ a
  top := p.top
  row := p.row
  column := p.column
  full := by simpa using p.full
  above := p.above
  below := p.below
  inside := p.inside

/-- Go to the next row, which may have to be appended. -/
def newline (p : Paper α w h) (b : α) : Paper α w h :=
  if more : p.row + 1 < p.top + h then
    { p with
      row := p.row + 1
      column := 0
      above := Nat.le_succ_of_le p.above
      below := more
      inside := Nat.zero_lt_of_lt p.inside }
  else
    { rows := p.rows ++ [fun _ => b]
      top := p.top + 1
      row := p.row + 1
      column := 0
      full := by
        rw [List.length_append, p.full, List.length_singleton, Nat.add_right_comm]
      above := Nat.succ_le_succ p.above
      below := by
        have below := p.below
        omega
      inside := Nat.zero_lt_of_lt p.inside }

/-- Go to the next cell, at the end of a row to the next row. -/
def advance (p : Paper α w h) (b : α) : Paper α w h :=
  if more : p.column + 1 < w then { p with column := p.column + 1, inside := more }
  else p.newline b

/-- Go back one cell, but not out of view. -/
def back (p : Paper α w h) : Paper α w h :=
  if 0 < p.column then
    { p with column := p.column - 1, inside := Nat.lt_of_le_of_lt (Nat.sub_le ..) p.inside }
  else if room : p.top < p.row then
    { p with
      row := p.row - 1
      column := w - 1
      above := Nat.le_sub_one_of_lt room
      below := Nat.lt_of_le_of_lt (Nat.sub_le ..) p.below
      inside := Nat.sub_one_lt_of_lt p.inside }
  else p

def print (p : Paper α w h) (a b : α) : Paper α w h := (p.put a).advance b

def erase (p : Paper α w h) (b : α) : Paper α w h := p.back.put b

/-! ### Cells -/

def cell (p : Paper α w h) (r c : Nat) : Option α :=
  if inside : c < w then p.rows[r]?.map fun line => line ⟨c, inside⟩ else none

variable {p : Paper α w h} {a b : α} {r c : Nat}

theorem cell_eq_none (beyond : p.top + h ≤ r) : p.cell r c = none := by
  rw [cell]
  split
  · rw [List.getElem?_eq_none (p.full ▸ beyond), Option.map_none]
  · rfl

theorem cell_blank [NeZero w] [NeZero h] (below : r < h) (inside : c < w) :
    (blank b : Paper α w h).cell r c = some b := by
  rw [cell, dif_pos inside, blank, List.getElem?_replicate, if_pos below]
  rfl

theorem cell_put :
    (p.put a).cell r c = if r = p.row ∧ c = p.column then some a else p.cell r c := by
  have there : p.row < p.rows.length := p.full ▸ p.below
  by_cases inside : c < w
  · rw [cell, dif_pos inside, put]
    dsimp only
    by_cases row : r = p.row
    · subst row
      rw [List.getElem?_modify_eq, List.getElem?_eq_getElem there, Option.map_eq_map,
        Option.map_some, Option.map_some]
      by_cases column : c = p.column
      · subst column
        simp
      · simp [column, cell, inside, there]
    · rw [List.getElem?_modify_ne _ _ (Ne.symm row), if_neg (fun here => row here.1), cell,
        dif_pos inside]
  · have other : c ≠ p.column := fun same => inside (same ▸ p.inside)
    rw [if_neg (fun here => other here.2), cell, cell, dif_neg inside, dif_neg inside]

/-- The rows that there are stay as they are. -/
theorem cell_newline_old (there : r < p.top + h) : (p.newline b).cell r c = p.cell r c := by
  rw [newline]
  split
  · rfl
  · simp only [cell]
    rw [List.getElem?_append_left (p.full ▸ there)]

/-- An appended row is blank. -/
theorem cell_newline_new (last : p.row + 1 = p.top + h) (inside : c < w) :
    (p.newline b).cell (p.top + h) c = some b := by
  have scrolled : ¬p.row + 1 < p.top + h := by omega
  rw [newline, dif_neg scrolled, cell, dif_pos inside, ← p.full, List.getElem?_concat_length]
  rfl

/-! ### The roll as one line of cells -/

def position (p : Paper α w h) : Nat := p.row * w + p.column

def cellAt (p : Paper α w h) (i : Nat) : Option α := p.cell (i / w) (i % w)

variable {i start : Nat} {text : List α}

theorem position_div_mod (p : Paper α w h) :
    p.position / w = p.row ∧ p.position % w = p.column := by
  have width : 0 < w := Nat.zero_lt_of_lt p.inside
  constructor
  · rw [position, Nat.add_comm, Nat.add_mul_div_right _ _ width, Nat.div_eq_of_lt p.inside,
      Nat.zero_add]
  · rw [position, Nat.add_comm, Nat.add_mul_mod_self_right, Nat.mod_eq_of_lt p.inside]

theorem top_le_position (p : Paper α w h) : p.top * w ≤ p.position :=
  Nat.le_add_right_of_le (Nat.mul_le_mul_right w p.above)

theorem cellAt_put : (p.put a).cellAt i = if i = p.position then some a else p.cellAt i := by
  obtain ⟨row, column⟩ := p.position_div_mod
  have here : i / w = p.row ∧ i % w = p.column ↔ i = p.position := by
    constructor
    · rintro ⟨sameRow, sameColumn⟩
      rw [position, ← sameRow, ← sameColumn, Nat.div_add_mod']
    · rintro rfl
      exact ⟨row, column⟩
  rw [cellAt, cell_put]
  simp only [here, cellAt]

theorem cellAt_advance (there : p.cellAt i = some a) : (p.advance b).cellAt i = some a := by
  rw [advance]
  split
  · exact there
  · rw [cellAt, cell_newline_old, ← cellAt, there]
    by_contra beyond
    rw [cellAt, cell_eq_none (Nat.le_of_not_lt beyond)] at there
    cases there

theorem position_newline : (p.newline b).position = (p.row + 1) * w := by
  rw [newline]
  split <;> rfl

/-- The cursor moves on by one cell. The view moves with it when it leaves the last row. -/
theorem position_advance : (p.advance b).position = p.position + 1 := by
  have inside := p.inside
  rw [advance]
  split
  · rfl
  · have last : p.column + 1 = w := by omega
    rw [position_newline, position, Nat.add_assoc, last, Nat.succ_mul]

theorem top_advance : (p.advance b).top = p.top ∨
    (p.advance b).top = p.top + 1 ∧ p.position + 1 = (p.top + h) * w := by
  rw [← position_advance (b := b), advance]
  split
  · exact .inl rfl
  · rw [position_newline, newline]
    split
    · exact .inl rfl
    · have last : p.row + 1 = p.top + h := by
        have below := p.below
        omega
      exact .inr ⟨rfl, by rw [last]⟩

/-- Unless the cursor is in the first cell in view it moves back by one cell. -/
theorem position_back (room : p.top * w < p.position) : p.back.position + 1 = p.position := by
  have inside := p.inside
  rw [back]
  split
  · simp only [position]
    omega
  · have first : p.column = 0 := by omega
    rw [position, first, Nat.add_zero] at room
    have lower := Nat.lt_of_mul_lt_mul_right room
    have up : p.row = p.row - 1 + 1 := by omega
    rw [dif_pos lower, position, position, first]
    calc (p.row - 1) * w + (w - 1) + 1 = (p.row - 1) * w + w := by omega
      _ = (p.row - 1 + 1) * w := (Nat.succ_mul ..).symm
      _ = p.row * w + 0 := by rw [← up, Nat.add_zero]

theorem top_back : p.back.top = p.top := by
  rw [back]
  split
  · rfl
  · split <;> rfl

theorem cellAt_back : p.back.cellAt i = p.cellAt i := by
  rw [back]
  split
  · rfl
  · split <;> rfl

/-! ### Text in front of the cursor -/

/-- The cells from `start` up to the cursor hold a text, and are in view. -/
structure Holds (p : Paper α w h) (start : Nat) (text : List α) : Prop where
  cursor : p.position = start + text.length
  cells : ∀ i a, text[i]? = some a → p.cellAt (start + i) = some a
  visible : p.top * w ≤ start

theorem Holds.nil (p : Paper α w h) : p.Holds p.position [] where
  cursor := rfl
  cells i a there := by cases there
  visible := p.top_le_position

/-- Printing appends to a text that leaves a row of the view to spare. -/
theorem Holds.print (holds : p.Holds start text) (room : text.length < (h - 1) * w) (a b : α) :
    (p.print a b).Holds start (text ++ [a]) where
  cursor := by
    rw [Paper.print, position_advance, List.length_append, ← Nat.add_assoc, ← holds.cursor]
    rfl
  cells i c there := by
    have cursor := holds.cursor
    apply cellAt_advance
    rw [cellAt_put]
    rcases Nat.lt_trichotomy i text.length with old | rfl | beyond
    · rw [List.getElem?_append_left old] at there
      rw [if_neg (by omega)]
      exact holds.cells i c there
    · rw [List.getElem?_concat_length] at there
      rw [if_pos cursor.symm, there]
    · rw [List.getElem?_eq_none (by rw [List.length_append]; exact beyond)] at there
      cases there
  visible := by
    rcases (p.put a).top_advance (b := b) with same | ⟨moved, last⟩
    · exact same.symm ▸ holds.visible
    · -- the text ends in the last row, and so it begins below the first one
      have cursor : (p.put a).position = start + text.length := holds.cursor
      have below := p.below
      have above := p.above
      have height : (p.put a).top + h = ((p.put a).top + 1) + (h - 1) := by
        have same : (p.put a).top = p.top := rfl
        omega
      rw [Paper.print, moved]
      rw [cursor, height, Nat.add_mul] at last
      omega

/-- Going back and blanking the cell takes back what was printed last. -/
theorem Holds.erase (holds : p.Holds start (text ++ [a])) (b : α) :
    (p.erase b).Holds start text := by
  have cursor := holds.cursor
  have visible := holds.visible
  rw [List.length_append, List.length_singleton] at cursor
  have moved := p.position_back (by omega)
  refine ⟨?_, fun i c there => ?_, ?_⟩
  · have same : (p.erase b).position = p.back.position := rfl
    omega
  · obtain ⟨bound, -⟩ := List.getElem?_eq_some_iff.mp there
    rw [Paper.erase, cellAt_put, if_neg (by omega), cellAt_back]
    apply holds.cells
    rw [List.getElem?_append_left bound, there]
  · have same : (p.erase b).top = p.back.top := rfl
    rw [same, top_back]
    exact visible

end Paper

end PaperTerminal
