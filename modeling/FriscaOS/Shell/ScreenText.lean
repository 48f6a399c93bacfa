import FriscaOS.Lib.PaperRows
import FriscaOS.Shell.ScreenLine
import Mathlib.Data.List.TakeWhile

/-! Text on a cleared screen: as long as the text takes fewer rows than there are, the screen shows
all of it. -/
namespace FriscaOS

open PaperTerminal Numeral

/-- The characters of lines that each end with a newline. -/
def textOf (lines : List (List UInt8)) : List UInt8 := lines.flatMap (· ++ [newline])

/-- At most `n` characters, each of which fills a cell. -/
def Fits (n : Nat) (text : List UInt8) : Prop := text.length ≤ n ∧ ∀ c ∈ text, Plain c

/-- `Fits`, to be evaluated on a literal. -/
def fitsCheck (n : Nat) (text : List UInt8) : Bool :=
  text.length ≤ n && text.all fun c => c != 0 && c != newline && c != backspace

theorem fits_of_check {n : Nat} {text : List UInt8} (check : fitsCheck n text = true) :
    Fits n text := by
  simpa [fitsCheck, Fits, Plain, and_assoc] using check

theorem fits_all_of_check {n : Nat} {texts : List String}
    (check : texts.all (fun s => fitsCheck n (ascii s)) = true) : ∀ s ∈ texts, Fits n (ascii s) :=
  fun s member => fits_of_check (List.all_eq_true.mp check s member)

theorem fits_map {lines : List String} (fits : ∀ s ∈ lines, Fits 79 (ascii s)) :
    ∀ line ∈ lines.map ascii, Fits 79 line := List.forall_mem_map.mpr fits

theorem Fits.noNul {n : Nat} {text : List UInt8} (fits : Fits n text) :
    text.contains 0 = false := by
  rw [List.contains_eq_mem, decide_eq_false_iff_not]
  exact fun zero => (fits.2 0 zero).1 rfl

theorem Fits.append {n k : Nat} {text more : List UInt8} (fits : Fits n text)
    (fits' : Fits k more) : Fits (n + k) (text ++ more) := by
  refine ⟨?_, List.forall_mem_append.mpr ⟨fits.2, fits'.2⟩⟩
  rw [List.length_append]
  exact Nat.add_le_add fits.1 fits'.1

theorem Fits.mono {n k : Nat} {text : List UInt8} (fits : Fits n text) (le : n ≤ k) :
    Fits k text :=
  ⟨fits.1.trans le, fits.2⟩

theorem fits_numeral {num : Nat} (small : num < 10 ^ 10) : Fits 10 (numeral 10 digitChar num) := by
  refine ⟨length_numeral_le (by decide) small (by decide), fun c member => ?_⟩
  obtain ⟨d, digit, rfl⟩ := mem_numeral (by decide) member
  have char := toNat_digitChar digit
  refine ⟨?_, ?_, ?_⟩ <;> intro same <;> rw [same] at char
  · exact absurd char (by rw [UInt8.toNat_zero]; omega)
  · exact absurd char (by simp only [newline, UInt8.reduceToNat]; omega)
  · exact absurd char (by simp only [backspace, UInt8.reduceToNat]; omega)

/-- The driver after some calls, on a screen that held `buffer`. -/
def screenAfter (buffer : UInt32 → UInt16) (calls : List VgaCall) : VgaDriver :=
  calls.foldl (fun v call => call.op.exec v) (.boot buffer)

/-- The lines in a new colour, on a cleared screen. -/
def clearedText (foreground background : VgaColor) (lines : List (List UInt8)) : List VgaCall :=
  .setColor foreground background :: .clear :: (textOf lines).map .putchar

/-- The screen is blank but for these rows, all in one colour. -/
def ScreenReads (v : VgaDriver) (colour : UInt8) (rows : List (List UInt8)) : Prop :=
  ∀ y < 25, ∀ x < 80, v.cell y x = vgaEntry (sheet 32 rows y x) colour

/-- The characters of a row. -/
def VgaDriver.rowText (v : VgaDriver) (y : Nat) : List UInt8 :=
  (List.range 80).map fun x => (v.cell y x).toUInt8

/-- A text, and spaces up to the end of its row. -/
def spaced (row : List UInt8) : List UInt8 := row ++ List.replicate (80 - row.length) 32

variable {β : Type} {f : Cell → β} {d : β} {t y : Nat} {v : VgaDriver} {p : Page}
  {before : List (List β)} {held : List β} {lines rows : List (List UInt8)} {row text : List UInt8} {c colour : UInt8}

/-! ### Printing -/

theorem foldl_putchar_colour (text : List UInt8) : (text.foldl Page.putchar p).colour = p.colour := by
  induction text generalizing p with
  | nil => rfl
  | cons c text ih => exact ih

theorem Page.written_putchar (written : p.paper.Written f d t before held) (space : f p.space = d)
    (other : c ≠ newline) (shown : c ≠ backspace) :
    (p.putchar c).paper.Written f d t before (held ++ [f ⟨c, p.colour⟩]) := by
  rw [Page.putchar, if_neg other, if_neg shown]
  exact written.print space _

theorem Page.written_newline (written : p.paper.Written f d t before held) (space : f p.space = d) :
    (p.putchar newline).paper.Written f d t (before ++ rowsOf 80 held) [] := by
  rw [Page.putchar, if_pos rfl]
  exact written.newline space

theorem Page.written_text (written : p.paper.Written f d t before held) (space : f p.space = d)
    (text : List UInt8) (plain : ∀ c ∈ text, Plain c) : (text.foldl Page.putchar p).paper.Written
      f d t before (held ++ text.map fun c => f ⟨c, p.colour⟩) := by
  induction text generalizing p held with
  | nil => rwa [List.map_nil, List.append_nil]
  | cons c text ih =>
    obtain ⟨-, other, shown⟩ := plain c (.head _)
    have rest := ih (Page.written_putchar written space other shown) space
      fun c member => plain c (.tail _ member)
    rwa [List.append_assoc] at rest

/-- The rest of a line, and its newline. -/
theorem Page.written_line (written : p.paper.Written f d t before held) (space : f p.space = d)
    (plain : ∀ c ∈ text, Plain c) :
    ((text ++ [newline]).foldl Page.putchar p).paper.Written f d t
      (before ++ rowsOf 80 (held ++ text.map fun c => f ⟨c, p.colour⟩)) [] := by
  have colour := foldl_putchar_colour (p := p) text
  rw [List.foldl_append]
  exact Page.written_newline (Page.written_text written space text plain)
    (by rwa [Page.space, colour])

theorem Page.written_lines (written : p.paper.Written f d t before []) (space : f p.space = d)
    (lines : List (List UInt8)) (plain : ∀ line ∈ lines, ∀ c ∈ line, Plain c) :
    ((textOf lines).foldl Page.putchar p).paper.Written f d t
      (before ++ lines.flatMap fun line => rowsOf 80 (line.map fun c => f ⟨c, p.colour⟩)) [] := by
  induction lines generalizing p before with
  | nil => rwa [List.flatMap_nil, List.append_nil]
  | cons line lines ih =>
    obtain ⟨plain, plain'⟩ := List.forall_mem_cons.mp plain
    have colour := foldl_putchar_colour (p := p) (line ++ [newline])
    have rest := ih (Page.written_line written space plain) (by rwa [Page.space, colour]) plain'
    rw [colour, List.nil_append, List.append_assoc] at rest
    rw [textOf, List.flatMap_cons, List.foldl_append, List.flatMap_cons]
    exact rest

/-! ### A cleared screen -/

theorem shows_screenAfter (buffer : UInt32 → UInt16) (calls : List VgaCall) :
    Shows (screenAfter buffer calls) ((Page.boot buffer).replay calls) := by
  have ops := shows_foldl (shows_boot buffer) (calls.map VgaCall.op)
  rwa [List.foldl_map, List.foldl_map] at ops

/-- What was on the screen before, and where the cursor was, does not matter. -/
theorem screenReads_clearedText (buffer : UInt32 → UInt16) (calls : List VgaCall)
    (foreground background : VgaColor) (plain : ∀ line ∈ lines, ∀ c ∈ line, Plain c)
    (room : (lines.flatMap (rowsOf 80)).length < 25) :
    ScreenReads (screenAfter buffer (calls ++ clearedText foreground background lines))
      (vgaEntryColor foreground.toByte background.toByte) (lines.flatMap (rowsOf 80)) := by
  obtain ⟨colour, same⟩ : ∃ colour, colour = vgaEntryColor foreground.toByte background.toByte :=
    ⟨_, rfl⟩
  let cleared : Page := ⟨.blank ⟨32, colour⟩, colour⟩
  have shown := shows_screenAfter buffer (calls ++ clearedText foreground background lines)
  have replayed : (Page.boot buffer).replay (calls ++ clearedText foreground background lines) =
      (textOf lines).foldl Page.putchar cleared := by
    simp only [cleared, same]
    rw [Page.replay, List.foldl_append, clearedText, List.foldl_cons, List.foldl_cons,
      List.foldl_map]
    rfl
  have blank : cleared.paper.Written id (⟨32, colour⟩ : Cell) 0 [] [] := Paper.written_blank id _
  have text := Page.written_lines blank rfl lines plain
  have rows : (lines.flatMap fun line => rowsOf 80 (line.map fun c => id (⟨c, colour⟩ : Cell))) =
      (lines.flatMap (rowsOf 80)).map (·.map fun c => (⟨c, colour⟩ : Cell)) := by
    rw [List.map_flatMap]
    exact List.flatMap_congr fun line _ => rowsOf_map (by decide) _ line
  have empty : rowsOf 80 ([] : List Cell) = [[]] := rowsOf_short (by decide)
  have onPaper := text.shown
  rw [rows, empty, List.nil_append] at onPaper
  -- so few rows do not move the view
  have top : ((textOf lines).foldl Page.putchar cleared).paper.top = 0 := by
    have row := onPaper.row
    have view := onPaper.top
    rw [List.length_append, List.length_map, List.length_singleton] at row
    omega
  rw [replayed] at shown
  rw [← same]
  intro y below x inside
  have cell := shown.cells y below x inside
  have paper := onPaper.cells y (by omega) x inside
  have read := sheet_map (fun c => (⟨c, colour⟩ : Cell)) 32 (lines.flatMap (rowsOf 80)) y x
  rw [sheet_append_nil, read, Option.map_id] at paper
  rw [top, Nat.zero_add, ← id_eq (Paper.cell ..), paper, Option.map_some,
    Option.some.injEq] at cell
  exact cell.symm

/-! ### Reading rows -/

theorem toUInt8_vgaEntry (c colour : UInt8) : (vgaEntry c colour).toUInt8 = c := by
  have shifted : (colour.toUInt16 <<< 8).toUInt8 = 0 := by
    apply UInt8.toNat_inj.mp
    simp [Nat.shiftLeft_eq, Nat.mod_mod_of_dvd]
  rw [vgaEntry, UInt16.toUInt8_or, shifted]
  simp

theorem rowText_eq (short : row.length ≤ 80)
    (cells : ∀ x < 80, (v.cell y x).toUInt8 = row[x]?.getD 32) : v.rowText y = spaced row := by
  rw [spaced]
  apply List.ext_getElem
  · simp only [VgaDriver.rowText, List.length_map, List.length_range, List.length_append,
      List.length_replicate]
    omega
  · intro x inside _
    have column : x < 80 := by simpa [VgaDriver.rowText] using inside
    simp only [VgaDriver.rowText, List.getElem_map, List.getElem_range]
    rw [cells x column, List.getElem_append]
    split
    · rw [List.getElem?_eq_getElem ‹_›, Option.getD_some]
    · rw [List.getElem?_eq_none (by omega), Option.getD_none, List.getElem_replicate]

/-- A row of the screen is a row of the text, filled up with spaces. -/
theorem ScreenReads.rowText (reads : ScreenReads v colour rows) (below : y < 25)
    (there : rows[y]? = some row) (short : row.length ≤ 80) : v.rowText y = spaced row := by
  refine rowText_eq short fun x inside => ?_
  rw [reads y below x inside, toUInt8_vgaEntry, sheet, there, Option.getD_some]

/-- A row of the screen is a row of the paper. -/
theorem Shows.rowText (shows : Shows v p) (written : p.paper.Shown Cell.char 32 t rows) (below : y < 25)
    (there : rows[p.paper.top + y]? = some row) (short : row.length ≤ 80) :
    v.rowText y = spaced row := by
  refine rowText_eq short fun x inside => ?_
  have cell := shows.cells y below x inside
  have paper := written.cells (p.paper.top + y) (Nat.add_lt_add_left below _) x inside
  rw [sheet, there, Option.getD_some] at paper
  obtain ⟨a, here, char⟩ := Option.map_eq_some_iff.mp paper
  rw [here, Option.map_some, Option.some.injEq] at cell
  rw [← cell, Cell.entry, toUInt8_vgaEntry, char]

/-! ### String literals -/

theorem textOf_append (lines more : List (List UInt8)) :
    textOf (lines ++ more) = textOf lines ++ textOf more := List.flatMap_append

theorem textOf_cons (line : List UInt8) (lines : List (List UInt8)) :
    textOf (line :: lines) = line ++ newline :: textOf lines := by
  rw [textOf, List.flatMap_cons, ← textOf, List.append_assoc]
  rfl

theorem ascii_append (s t : String) : ascii (s ++ t) = ascii s ++ ascii t := by
  rw [ascii, String.toList_append, List.map_append]
  rfl

theorem ascii_join (texts : List String) : ascii (String.join texts) = texts.flatMap ascii := by
  induction texts with
  | nil => rfl
  | cons s texts ih =>
    rw [String.join_cons, ascii_append, ih]
    rfl

theorem printed_plain {text : String} (noNul : (ascii text).contains 0 = false) :
    printed text = (ascii text).map .putchar := by
  rw [List.contains_eq_mem, decide_eq_false_iff_not] at noNul
  have all : (ascii text).takeWhile (· ≠ 0) = ascii text := by
    rw [List.takeWhile_eq_self_iff]
    intro c member
    have other : c ≠ 0 := fun zero => noNul (zero ▸ member)
    simpa using other
  rw [printed, all]

/-- Literals that make up some lines. -/
theorem vgaWrites_lines {texts lines : List String}
    (same : String.join texts = String.join (lines.map (· ++ "\n")))
    (fits : ∀ s ∈ lines, Fits 79 (ascii s)) :
    vgaWrites texts = some ((textOf (lines.map ascii)).map .putchar) := by
  have bytes : texts.flatMap ascii = textOf (lines.map ascii) := by
    rw [← ascii_join, same, ascii_join, textOf, List.flatMap_map, List.flatMap_map]
    apply List.flatMap_congr
    intro s _
    rw [ascii_append]
    rfl
  have noNul : 0 ∉ texts.flatMap ascii := by
    rw [bytes, textOf, List.flatMap_map]
    intro member
    obtain ⟨s, there, inside⟩ := List.mem_flatMap.mp member
    rcases List.mem_append.mp inside with char | mark
    · exact ((fits s there).2 0 char).1 rfl
    · exact absurd (List.mem_singleton.mp mark) (by decide)
  rw [vgaWrites_eq, ← bytes, List.map_flatMap]
  congr 1
  apply List.flatMap_congr
  intro s there
  refine printed_plain ?_
  rw [List.contains_eq_mem, decide_eq_false_iff_not]
  exact fun zero => noNul (List.mem_flatMap.mpr ⟨s, there, zero⟩)

/-- A literal that makes up some lines. -/
theorem vgaWrite_lines {text : String} {lines : List String}
    (same : text = String.join (lines.map (· ++ "\n")))
    (fits : ∀ s ∈ lines, Fits 79 (ascii s)) :
    vgaWrite (literal text) = some ((textOf (lines.map ascii)).map .putchar) := by
  have joined : String.join [text] = String.join (lines.map (· ++ "\n")) := by
    rw [← same]
    exact String.empty_append
  rw [← vgaWrites_lines joined fits, vgaWrites_eq, vgaWrite_literal, List.flatMap_singleton]

end FriscaOS
