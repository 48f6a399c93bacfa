import FriscaOS.Lib.Paper

/-! Rows of text on paper: the rows hold the lines of a text, each cut where a row is full, and blanks
behind them. What is read off a cell is a parameter. -/
namespace PaperTerminal

variable {α β : Type*} {w h : Nat}

/-- The cell in row `r` and column `c` where rows hold `lines`. -/
def sheet (b : α) (lines : List (List α)) (r c : Nat) : α := ((lines[r]?.getD [])[c]?).getD b

/-- The rows that a line takes. A line that fills a row goes on in the next one. -/
def rowsOf (w : Nat) (line : List α) : List (List α) :=
  if _ : 0 < w ∧ w ≤ line.length then line.take w :: rowsOf w (line.drop w) else [line]
termination_by line.length
decreasing_by
  rw [List.length_drop]
  omega

theorem rowsOf_short {line : List α} (short : line.length < w) : rowsOf w line = [line] := by
  rw [rowsOf, dif_neg (by omega)]

theorem rowsOf_long {line : List α} (positive : 0 < w) (long : w ≤ line.length) :
    rowsOf w line = line.take w :: rowsOf w (line.drop w) := by
  rw [rowsOf, dif_pos ⟨positive, long⟩]

/-- Lines by what is left of them when a row is full. -/
theorem rowsOf_induction {motive : List α → Prop} (positive : 0 < w) (line : List α)
    (short : ∀ line, line.length < w → motive line)
    (long : ∀ line, w ≤ line.length → motive (line.drop w) → motive line) : motive line := by
  induction size : line.length using Nat.strongRecOn generalizing line with
  | ind _ ih =>
    subst size
    by_cases fits : line.length < w
    · exact short line fits
    · have rest : (line.drop w).length < line.length := by
        rw [List.length_drop]
        omega
      exact long line (Nat.le_of_not_lt fits) (ih _ rest (line.drop w) rfl)

theorem length_rowsOf (positive : 0 < w) (line : List α) :
    (rowsOf w line).length = line.length / w + 1 := by
  induction line using rowsOf_induction positive with
  | short line short =>
    rw [rowsOf_short short, Nat.div_eq_of_lt short]
    rfl
  | long line long ih =>
    rw [rowsOf_long positive long, List.length_cons, ih, List.length_drop, Nat.div_eq line.length w,
      if_pos ⟨positive, long⟩]

theorem flatMap_rowsOf_short {lines : List (List α)} (short : ∀ line ∈ lines, line.length < w) :
    lines.flatMap (rowsOf w) = lines := by
  induction lines with
  | nil => rfl
  | cons line lines ih =>
    obtain ⟨first, rest⟩ := List.forall_mem_cons.mp short
    rw [List.flatMap_cons, rowsOf_short first, ih rest]
    rfl

theorem rowsOf_map (positive : 0 < w) (f : α → β) (line : List α) :
    rowsOf w (line.map f) = (rowsOf w line).map (·.map f) := by
  induction line using rowsOf_induction positive with
  | short line short =>
    rw [rowsOf_short short, rowsOf_short (by rwa [List.length_map])]
    rfl
  | long line long ih =>
    rw [rowsOf_long positive long, rowsOf_long positive (by rwa [List.length_map]), ← List.map_take,
      ← List.map_drop, ih]
    rfl

/-- The last row has room for one more cell. -/
theorem rowsOf_concat (positive : 0 < w) (line : List α) :
    ∃ rows last, rowsOf w line = rows ++ [last] ∧ last.length < w := by
  induction line using rowsOf_induction positive with
  | short line short => exact ⟨[], line, rowsOf_short short, short⟩
  | long line long ih =>
    obtain ⟨rows, last, rest, room⟩ := ih
    exact ⟨line.take w :: rows, last, by rw [rowsOf_long positive long, rest]; rfl, room⟩

/-- One more cell, which may fill the last row. -/
theorem rowsOf_append (positive : 0 < w) (line : List α) (a : α) {rows : List (List α)}
    {last : List α} (split : rowsOf w line = rows ++ [last]) :
    rowsOf w (line ++ [a]) =
      if last.length + 1 < w then rows ++ [last ++ [a]] else rows ++ [last ++ [a], []] := by
  induction line using rowsOf_induction positive generalizing rows with
  | short line short =>
    rw [rowsOf_short short, ← List.nil_append [line]] at split
    obtain ⟨rfl, same⟩ := List.append_inj' split rfl
    obtain rfl : line = last := List.singleton_inj.mp same
    have length : (line ++ [a]).length = line.length + 1 := List.length_append
    split
    · exact rowsOf_short (by omega)
    · have full : (line ++ [a]).length = w := by omega
      have empty : rowsOf w ([] : List α) = [[]] := rowsOf_short positive
      rw [rowsOf_long positive (Nat.le_of_eq full.symm), List.take_of_length_le (Nat.le_of_eq full),
        List.drop_of_length_le (Nat.le_of_eq full), empty]
      rfl
  | long line long ih =>
    have longer : w ≤ (line ++ [a]).length := by
      rw [List.length_append]
      omega
    obtain ⟨before, last', rest, -⟩ := rowsOf_concat positive (line.drop w)
    rw [rowsOf_long positive long, rest, ← List.cons_append] at split
    obtain ⟨rfl, same⟩ := List.append_inj' split rfl
    obtain rfl : last' = last := List.singleton_inj.mp same
    rw [rowsOf_long positive longer, List.take_append_of_le_length long,
      List.drop_append_of_le_length long, ih rest]
    split <;> rfl

/-! ### Sheets -/

variable {a b : α} {d e : β} {lines : List (List β)} {line last : List β} {r c : Nat} {f : α → β}

theorem sheet_nil : sheet b [[]] r c = b := by
  cases r <;> rfl

theorem sheet_append_singleton : sheet d (lines ++ [last ++ [e]]) r c =
    if r = lines.length ∧ c = last.length then e else sheet d (lines ++ [last]) r c := by
  rcases Nat.lt_trichotomy r lines.length with before | rfl | beyond
  · have other : r ≠ lines.length := by omega
    simp [sheet, List.getElem?_append_left before, other]
  · simp only [sheet, List.getElem?_concat_length, Option.getD_some, true_and]
    rcases Nat.lt_trichotomy c last.length with before | rfl | beyond
    · rw [List.getElem?_append_left before, if_neg (by omega)]
    · rw [List.getElem?_concat_length, if_pos rfl]
      rfl
    · rw [if_neg (by omega), List.getElem?_eq_none (by simp; omega),
        List.getElem?_eq_none (by omega)]
  · have other : r ≠ lines.length := by omega
    have outside (l : List β) : (lines ++ [l])[r]? = none :=
      List.getElem?_eq_none (by simp; omega)
    simp [sheet, outside, other]

theorem sheet_append_nil : sheet d (lines ++ [[]]) r c = sheet d lines r c := by
  rcases Nat.lt_trichotomy r lines.length with before | rfl | beyond
  · rw [sheet, sheet, List.getElem?_append_left before]
  · simp [sheet]
  · have outside : (lines ++ [([] : List β)])[r]? = none :=
      List.getElem?_eq_none (by simp; omega)
    rw [sheet, sheet, outside, List.getElem?_eq_none (by omega : lines.length ≤ r)]

theorem sheet_beyond (beyond : lines.length ≤ r) : sheet d lines r c = d := by
  rw [sheet, List.getElem?_eq_none beyond]
  rfl

/-- The last cell is taken away. -/
theorem sheet_dropLast : sheet d (lines ++ [last]) r c =
    if r = lines.length ∧ c = last.length then d else sheet d (lines ++ [last ++ [e]]) r c := by
  rw [sheet_append_singleton]
  split
  · next place =>
    rw [place.1, place.2, sheet, List.getElem?_concat_length, Option.getD_some,
      List.getElem?_eq_none (Nat.le_refl _), Option.getD_none]
  · rfl

/-- The last cell of a row is taken away, and the row filled up to it. -/
theorem sheet_cut (inside : c < w) :
    sheet d (lines ++ [(last ++ List.replicate (w - 1) d).take (w - 1)]) r c =
      if r = lines.length ∧ c = w - 1 then d else sheet d (lines ++ [last]) r c := by
  rcases Nat.lt_trichotomy r lines.length with before | rfl | beyond
  · have other : r ≠ lines.length := by omega
    simp [sheet, List.getElem?_append_left before, other]
  · simp only [sheet, List.getElem?_concat_length, Option.getD_some, true_and, List.getElem?_take]
    by_cases cut : c = w - 1
    · rw [if_neg (by omega), if_pos cut, Option.getD_none]
    · rw [if_pos (by omega), if_neg cut, List.getElem?_append]
      split
      · rfl
      · rw [List.getElem?_replicate, List.getElem?_eq_none (by omega)]
        split <;> rfl
  · rw [if_neg (by omega), sheet_beyond (by simp; omega), sheet_beyond (by simp; omega)]

theorem sheet_map (f : α → β) (b : α) (lines : List (List α)) (r c : Nat) :
    sheet (f b) (lines.map (·.map f)) r c = f (sheet b lines r c) := by
  cases row : lines[r]? with
  | none => simp [sheet, row]
  | some cells => cases cell : cells[c]? <;> simp [sheet, row, cell]

namespace Paper

variable {p : Paper α w h} {t : Nat} {before : List (List β)}

/-! ### Rows -/

/-- The rows down to the cursor hold `lines`, all that is behind them is blank, and the view has only
moved, from `t` on, for the cursor. -/
structure Shown (p : Paper α w h) (f : α → β) (d : β) (t : Nat) (lines : List (List β)) : Prop where
  top : p.top = max t (p.row + 1 - h)
  row : lines.length = p.row + 1
  cells : ∀ r < p.top + h, ∀ c < w, (p.cell r c).map f = some (sheet d lines r c)

theorem Shown.put (shown : p.Shown f d t (lines ++ [last])) (column : p.column = last.length)
    (a : α) : (p.put a).Shown f d t (lines ++ [last ++ [f a]]) where
  top := shown.top
  row := by
    have row := shown.row
    rw [List.length_append] at row ⊢
    exact row
  cells r below c inside := by
    have row := shown.row
    rw [List.length_append, List.length_singleton, Nat.add_right_cancel_iff] at row
    rw [cell_put, sheet_append_singleton, row, ← column]
    split
    · rfl
    · exact shown.cells r below c inside

/-- Where the paper ends a row is appended. -/
theorem Shown.newline (shown : p.Shown f d t lines) (space : f b = d) :
    (p.newline b).Shown f d t (lines ++ [[]]) := by
  have top := shown.top
  have above := p.above
  have below := p.below
  rw [Paper.newline]
  split
  · refine ⟨?_, ?_, fun r there c inside => ?_⟩
    · dsimp only
      omega
    · rw [List.length_append, shown.row]
      rfl
    · rw [sheet_append_nil]
      exact shown.cells r there c inside
  · refine ⟨?_, ?_, fun r there c inside => ?_⟩
    · dsimp only
      omega
    · rw [List.length_append, shown.row]
      rfl
    · have scrolled : p.newline b = _ := dif_neg ‹_›
      rw [← scrolled, sheet_append_nil]
      dsimp only at there
      rcases Nat.lt_or_ge r (p.top + h) with old | new
      · rw [cell_newline_old old]
        exact shown.cells r old c inside
      · obtain rfl : r = p.top + h := by omega
        have row := shown.row
        rw [cell_newline_new (by omega) inside, sheet_beyond (by omega), Option.map_some, space]

/-! ### A line being written -/

/-- The cursor is behind a line, which began in a row of its own. -/
structure Written (p : Paper α w h) (f : α → β) (d : β) (t : Nat) (before : List (List β))
    (line : List β) : Prop where
  shown : p.Shown f d t (before ++ rowsOf w line)
  column : ∀ rows last, rowsOf w line = rows ++ [last] → p.column = last.length

theorem written_blank [NeZero w] [NeZero h] (f : α → β) (b : α) :
    (blank b : Paper α w h).Written f (f b) 0 [] [] := by
  have empty : rowsOf w ([] : List β) = [[]] := rowsOf_short (Nat.pos_of_neZero w)
  have positive := Nat.pos_of_neZero h
  refine ⟨⟨?_, ?_, fun r below c inside => ?_⟩, fun rows last split => ?_⟩
  · simp only [blank]
    omega
  · rw [empty]
    rfl
  · rw [empty, List.nil_append, sheet_nil, cell_blank (by simpa [blank] using below) inside]
    rfl
  · rw [empty, ← List.nil_append [[]]] at split
    obtain ⟨-, same⟩ := List.append_inj' split rfl
    rw [← List.singleton_inj.mp same]
    rfl

theorem Written.print (written : p.Written f d t before line) (space : f b = d) (a : α) :
    (p.print a b).Written f d t before (line ++ [f a]) := by
  have positive : 0 < w := Nat.zero_lt_of_lt p.inside
  obtain ⟨rows, last, split, room⟩ := rowsOf_concat positive line
  have column := written.column rows last split
  have next := rowsOf_append positive line (f a) split
  have shown := written.shown
  rw [split, ← List.append_assoc] at shown
  have put := shown.put column a
  have here : (p.put a).column = last.length := column
  rw [Paper.print, advance]
  by_cases more : last.length + 1 < w
  · have stays : (p.put a).column + 1 < w := here ▸ more
    rw [dif_pos stays]
    rw [if_pos more] at next
    refine ⟨?_, fun rows' last' split' => ?_⟩
    · rw [next, ← List.append_assoc]
      exact ⟨put.top, put.row, put.cells⟩
    · rw [next] at split'
      obtain ⟨-, same⟩ := List.append_inj' split' rfl
      rw [← List.singleton_inj.mp same, List.length_append]
      exact congrArg (· + 1) here
  · have full : ¬(p.put a).column + 1 < w := here ▸ more
    have pair : rows ++ [last ++ [f a], []] = rows ++ [last ++ [f a]] ++ [[]] := by
      rw [List.append_assoc]
      rfl
    rw [dif_neg full]
    rw [if_neg more, pair] at next
    refine ⟨?_, fun rows' last' split' => ?_⟩
    · rw [next, ← List.append_assoc, ← List.append_assoc]
      exact put.newline space
    · rw [next] at split'
      obtain ⟨-, same⟩ := List.append_inj' split' rfl
      rw [← List.singleton_inj.mp same, Paper.newline]
      split <;> rfl

theorem Written.newline (written : p.Written f d t before line) (space : f b = d) :
    (p.newline b).Written f d t (before ++ rowsOf w line) [] := by
  have positive : 0 < w := Nat.zero_lt_of_lt p.inside
  have empty : rowsOf w ([] : List β) = [[]] := rowsOf_short positive
  refine ⟨?_, fun rows last split => ?_⟩
  · rw [empty]
    exact written.shown.newline space
  · rw [empty, ← List.nil_append [[]]] at split
    obtain ⟨-, same⟩ := List.append_inj' split rfl
    rw [← List.singleton_inj.mp same, Paper.newline]
    split <;> rfl

/-! ### Nothing behind the cursor -/

/-- The rows end at the cursor. -/
def Tidy (p : Paper α w h) (f : α → β) (d : β) : Prop :=
  ∃ before last, p.Shown f d p.top (before ++ [last]) ∧ p.column = last.length

/-- The view as it is now. -/
theorem Shown.here (shown : p.Shown f d t lines) : p.Shown f d p.top lines where
  top := by
    have below := p.below
    omega
  row := shown.row
  cells := shown.cells

theorem Written.tidy (written : p.Written f d t before line) : p.Tidy f d := by
  obtain ⟨rows, last, split, -⟩ := rowsOf_concat (Nat.zero_lt_of_lt p.inside) line
  have shown := written.shown
  rw [split, ← List.append_assoc] at shown
  exact ⟨_, last, shown.here, written.column rows last split⟩

theorem Tidy.written (tidy : p.Tidy f d) :
    ∃ before last, p.Written f d p.top before last ∧ last.length = p.column := by
  obtain ⟨before, last, shown, column⟩ := tidy
  have short : rowsOf w last = [last] := rowsOf_short (column ▸ p.inside)
  refine ⟨before, last, ⟨by rwa [short], fun rows last' split => ?_⟩, column.symm⟩
  rw [short, ← List.nil_append [last]] at split
  obtain ⟨-, same⟩ := List.append_inj' split rfl
  rw [← List.singleton_inj.mp same, column]

theorem tidy_blank [NeZero w] [NeZero h] (f : α → β) (b : α) :
    (blank b : Paper α w h).Tidy f (f b) := (written_blank f b).tidy

theorem Tidy.print (tidy : p.Tidy f d) (space : f b = d) (a : α) : (p.print a b).Tidy f d := by
  obtain ⟨before, last, written, -⟩ := tidy.written
  exact (written.print space a).tidy

theorem Tidy.newline (tidy : p.Tidy f d) (space : f b = d) : (p.newline b).Tidy f d := by
  obtain ⟨before, last, written, -⟩ := tidy.written
  exact (written.newline space).tidy

/-- Going back leaves the cells alone; then one of them is blanked. -/
theorem Shown.erase {after : List (List β)} (shown : p.Shown f d t lines) (space : f b = d)
    (row : after.length = p.back.row + 1)
    (change : ∀ r, ∀ c < w, sheet d after r c =
      if r = p.back.row ∧ c = p.back.column then d else sheet d lines r c) :
    (p.erase b).Shown f d (p.erase b).top after where
  top := by
    have below := (p.erase b).below
    omega
  row := row
  cells r below c inside := by
    have top : (p.erase b).top = p.top := top_back
    have kept : p.back.cell r c = p.cell r c := by
      rw [back]
      split
      · rfl
      · split <;> rfl
    rw [Paper.erase, cell_put, change r c inside]
    split
    · rw [Option.map_some, space]
    · rw [kept]
      exact shown.cells r (top ▸ below) c inside

/-- The cell that is blanked is in front of the cursor, in the last column of the row above, or in
the first column in view. -/
theorem Tidy.erase (tidy : p.Tidy f d) (space : f b = d) : (p.erase b).Tidy f d := by
  obtain ⟨before, last, shown, column⟩ := tidy
  have row := shown.row
  have inside := p.inside
  rw [List.length_append, List.length_singleton, Nat.add_right_cancel_iff] at row
  have here : (p.erase b).column = p.back.column := rfl
  by_cases first : 0 < p.column
  · obtain ⟨last, x, rfl⟩ : ∃ last' x, last = last' ++ [x] := by
      obtain rfl | ⟨last', x, rfl⟩ := List.eq_nil_or_concat last
      · exact absurd column (Nat.ne_of_gt first)
      · exact ⟨last', x, List.concat_eq_append⟩
    rw [List.length_append, List.length_singleton] at column
    have place : p.back.row = p.row ∧ p.back.column = last.length := by
      rw [back, if_pos first]
      exact ⟨rfl, Nat.sub_eq_of_eq_add column⟩
    refine ⟨before, last, shown.erase space ?_ fun r c _ => ?_, here.trans place.2⟩
    · rw [List.length_append, row, place.1]
      rfl
    · have cut : sheet d (before ++ [last]) r c = if r = before.length ∧ c = last.length then d
          else sheet d (before ++ [last ++ [x]]) r c := sheet_dropLast
      rw [place.1, place.2, ← row, cut]
  · obtain rfl : last = [] := List.length_eq_zero_iff.mp (by omega)
    by_cases room : p.top < p.row
    · obtain ⟨before, prev, rfl⟩ : ∃ before' prev, before = before' ++ [prev] := by
        obtain rfl | ⟨before', prev, rfl⟩ := List.eq_nil_or_concat before
        · rw [List.length_nil] at row
          omega
        · exact ⟨before', prev, List.concat_eq_append⟩
      rw [List.length_append, List.length_singleton] at row
      have place : p.back.row = before.length ∧ p.back.column = w - 1 := by
        rw [back, if_neg first, dif_pos room]
        exact ⟨Nat.sub_eq_of_eq_add row.symm, rfl⟩
      refine ⟨before, (prev ++ List.replicate (w - 1) d).take (w - 1),
        shown.erase space ?_ fun r c inside => ?_, ?_⟩
      · rw [List.length_append, place.1]
        rfl
      · rw [place.1, place.2, sheet_cut inside, sheet_append_nil]
      · rw [here, place.2, List.length_take_of_le (by simp)]
    · have place : p.back.row = p.row ∧ p.back.column = 0 := by
        rw [back, if_neg first, dif_neg room]
        exact ⟨rfl, column⟩
      refine ⟨before, [], shown.erase space ?_ fun r c _ => ?_, here.trans place.2⟩
      · rw [List.length_append, row, place.1]
        rfl
      · rw [place.1, place.2]
        split
        · next same => rw [sheet_append_nil, sheet_beyond (by omega)]
        · rfl

end Paper

end PaperTerminal
