import FriscaOS.Drivers.VgaDriver
import FriscaOS.Lib.Paper

/-! The screen shows the rows in view of a terminal that prints on paper, and the cursor is that of
the terminal. -/
namespace FriscaOS

open ByteMemory Function PaperTerminal

/-! ### The terminal -/

/-- A byte in a colour. -/
structure Cell where
  char : UInt8
  colour : UInt8

def Cell.entry (c : Cell) : UInt16 := vgaEntry c.char c.colour

/-- The paper, and the current colour. -/
structure Page where
  paper : Paper Cell 80 25
  colour : UInt8

namespace Page

def space (p : Page) : Cell := ⟨32, p.colour⟩

def init : Page := ⟨.blank ⟨32, 0x0F⟩, 0x0F⟩

def putchar (p : Page) (c : UInt8) : Page :=
  { p with paper :=
      if c = newline then p.paper.newline p.space
      else if c = backspace then p.paper.erase p.space
      else p.paper.print ⟨c, p.colour⟩ p.space }

end Page

def VgaOp.onPage (p : Page) : VgaOp → Page
  | putchar c => p.putchar c
  | write data => (data.takeWhile (· ≠ 0)).foldl Page.putchar p
  | clear => { p with paper := .blank p.space }
  | setColor foreground background => { p with colour := vgaEntryColor foreground background }

/-- The terminal after `vga_init` and some calls. -/
def Page.after (ops : List VgaOp) : Page := ops.foldl VgaOp.onPage .init

/-- The cell of the screen in row `y` and column `x`. -/
def VgaDriver.cell (v : VgaDriver) (y x : Nat) : UInt16 := v.buffer (.ofNat (y * 80 + x))

structure Shows (v : VgaDriver) (p : Page) : Prop where
  stores : ∀ i ∈ v.stores, i.toNat < 2000
  row : p.paper.row = p.paper.top + v.row.toNat
  column : p.paper.column = v.column.toNat
  colour : p.colour = v.currentColor
  cells : ∀ y < 25, ∀ x < 80,
    (p.paper.cell (p.paper.top + y) x).map Cell.entry = some (v.cell y x)

variable {v u : VgaDriver} {p : Page} {x y : UInt32} {n : Nat} {c : UInt8}
  {value : VgaDriver → UInt32 → UInt16}

/-! ### Stores -/

theorem toNat_vgaGetIndex (below : y.toNat < 25) (inside : x.toNat < 80) :
    (vgaGetIndex x y).toNat = y.toNat * 80 + x.toNat := by
  have width : vgaWidth.toNat = 80 := rfl
  have row : (y * vgaWidth).toNat = y.toNat * 80 := by
    rw [UInt32.toNat_mul, width, Nat.mod_eq_of_lt (by omega)]
  rw [vgaGetIndex, toNat_add_of_lt (by omega), row]

theorem cell_store (below : y.toNat < 25) (inside : x.toNat < 80) (entry : UInt16) {y' x' : Nat}
    (below' : y' < 25) (inside' : x' < 80) : (v.store (vgaGetIndex x y) entry).cell y' x' =
      if y' = y.toNat ∧ x' = x.toNat then entry else v.cell y' x' := by
  have index := toNat_vgaGetIndex below inside
  have index' : (UInt32.ofNat (y' * 80 + x')).toNat = y' * 80 + x' :=
    UInt32.toNat_ofNat_of_lt' (Nat.lt_trans (by omega : y' * 80 + x' < 2000) (by decide))
  have here : UInt32.ofNat (y' * 80 + x') = vgaGetIndex x y ↔ y' = y.toNat ∧ x' = x.toNat := by
    rw [← UInt32.toNat_inj, index, index']
    omega
  simp only [VgaDriver.cell, VgaDriver.store, update_apply, here]

/-- Cells were drawn, and the rest is as before. -/
structure Drawn (v u : VgaDriver) : Prop where
  row : u.row = v.row
  column : u.column = v.column
  colour : u.currentColor = v.currentColor
  crtc : u.crtc = v.crtc
  stores : ∀ i ∈ u.stores, i ∈ v.stores ∨ i.toNat < 2000

theorem Drawn.refl (v : VgaDriver) : Drawn v v := ⟨rfl, rfl, rfl, rfl, fun _ member => .inl member⟩

theorem Drawn.trans {w : VgaDriver} (first : Drawn v u) (second : Drawn u w) : Drawn v w where
  row := second.row.trans first.row
  column := second.column.trans first.column
  colour := second.colour.trans first.colour
  crtc := second.crtc.trans first.crtc
  stores i member := (second.stores i member).elim (first.stores i) .inr

theorem drawn_store (below : y.toNat < 25) (inside : x.toNat < 80) (entry : UInt16) :
    Drawn v (v.store (vgaGetIndex x y) entry) where
  row := rfl
  column := rfl
  colour := rfl
  crtc := rfl
  stores i member := by
    rcases List.mem_cons.mp member with rfl | old
    · right
      rw [toNat_vgaGetIndex below inside]
      omega
    · exact .inl old

/-! ### Loops -/

/-- The value stored does not depend on the row that is being stored to. -/
def Steady (value : VgaDriver → UInt32 → UInt16) (y : UInt32) (v : VgaDriver) : Prop :=
  ∀ u, Drawn v u → (∀ y' < 25, y' ≠ y.toNat → ∀ x' < 80, u.cell y' x' = v.cell y' x') →
    ∀ x : UInt32, x.toNat < 80 → value u x = value v x

theorem storeRow_spec (below : y.toNat < 25) (last : x.toNat + n ≤ 80) (steady : Steady value y v) :
    Drawn v (storeRow value y n x v) ∧ ∀ y' < 25, ∀ x' < 80, (storeRow value y n x v).cell y' x' =
      if y' = y.toNat ∧ x.toNat ≤ x' ∧ x' < x.toNat + n then value v (.ofNat x')
      else v.cell y' x' := by
  induction n generalizing x v with
  | zero =>
    refine ⟨.refl v, fun y' _ x' _ => ?_⟩
    rw [if_neg (by omega)]
    rfl
  | succ n ih =>
    have one : (1 : UInt32).toNat = 1 := rfl
    have next : (x + 1).toNat = x.toNat + 1 := toNat_add_of_lt (by omega)
    have inside : x.toNat < 80 := by omega
    have first := drawn_store (v := v) below inside (value v x)
    have stored {y' x' : Nat} (below' : y' < 25) (inside' : x' < 80) :=
      cell_store (v := v) below inside (value v x) below' inside'
    have other : ∀ y' < 25, y' ≠ y.toNat → ∀ x' < 80,
        (v.store (vgaGetIndex x y) (value v x)).cell y' x' = v.cell y' x' := by
      intro y' below' different x' inside'
      rw [stored below' inside', if_neg fun here => different here.1]
    have steady' : Steady value y (v.store (vgaGetIndex x y) (value v x)) := by
      intro u drawn same x' inside'
      rw [steady _ first other x' inside', steady u (first.trans drawn) ?_ x' inside']
      intro y' below' different x'' inside''
      rw [same y' below' different x'' inside'', other y' below' different x'' inside'']
    obtain ⟨drawn, cells⟩ := ih (x := x + 1) (by omega) steady'
    rw [storeRow]
    refine ⟨first.trans drawn, fun y' below' x' inside' => ?_⟩
    rw [cells y' below' x' inside', next, stored below' inside']
    by_cases row : y' = y.toNat
    · by_cases later : x.toNat + 1 ≤ x' ∧ x' < x.toNat + 1 + n
      · have number : (UInt32.ofNat x').toNat = x' :=
          UInt32.toNat_ofNat_of_lt' (Nat.lt_trans inside' (by decide))
        rw [if_pos ⟨row, later⟩, if_pos (by omega), steady _ first other _ (by omega)]
      · rw [if_neg (fun both => later both.2)]
        by_cases here : x' = x.toNat
        · subst here
          rw [if_pos ⟨row, rfl⟩, if_pos (by omega), UInt32.ofNat_toNat]
        · rw [if_neg (fun both => here both.2), if_neg (by omega)]
    · simp only [row, false_and, ↓reduceIte]

/-- A row of spaces. -/
theorem clearRow_spec (below : y.toNat < 25) : Drawn v (clearRow y v) ∧ ∀ y' < 25, ∀ x' < 80,
    (clearRow y v).cell y' x' = if y' = y.toNat then v.space else v.cell y' x' := by
  have steady : Steady (fun v _ => v.space) y v := by
    intro u drawn _ x _
    exact congrArg (vgaEntry 32) drawn.colour
  obtain ⟨drawn, cells⟩ := storeRow_spec (x := 0) (n := 80) below (by decide) steady
  refine ⟨drawn, fun y' below' x' inside' => ?_⟩
  have whole : (0 : UInt32).toNat ≤ x' ∧ x' < (0 : UInt32).toNat + 80 :=
    ⟨Nat.zero_le x', by rwa [UInt32.toNat_zero, Nat.zero_add]⟩
  rw [clearRow, cells y' below' x' inside']
  simp only [whole, and_true]

theorem copyRow_spec (below : y.toNat + 1 < 25) : Drawn v (copyRow y v) ∧ ∀ y' < 25, ∀ x' < 80,
    (copyRow y v).cell y' x' = if y' = y.toNat then v.cell (y' + 1) x' else v.cell y' x' := by
  have one : (1 : UInt32).toNat = 1 := rfl
  have next : (y + 1).toNat = y.toNat + 1 := toNat_add_of_lt (by omega)
  -- the row that is read is the next one
  have read (u : VgaDriver) (x : UInt32) (inside : x.toNat < 80) :
      u.buffer (vgaGetIndex x (y + 1)) = u.cell (y.toNat + 1) x.toNat := by
    rw [VgaDriver.cell, ← next, ← toNat_vgaGetIndex (by omega) inside, UInt32.ofNat_toNat]
  have steady : Steady (fun v x => v.buffer (vgaGetIndex x (y + 1))) y v := by
    intro u _ same x inside
    simp only [read _ _ inside]
    exact same _ below (Nat.succ_ne_self _) _ inside
  obtain ⟨drawn, cells⟩ := storeRow_spec (x := 0) (n := 80) (by omega) (by decide) steady
  refine ⟨drawn, fun y' below' x' inside' => ?_⟩
  have whole : (0 : UInt32).toNat ≤ x' ∧ x' < (0 : UInt32).toNat + 80 :=
    ⟨Nat.zero_le x', by rwa [UInt32.toNat_zero, Nat.zero_add]⟩
  have number : (UInt32.ofNat x').toNat = x' :=
    UInt32.toNat_ofNat_of_lt' (Nat.lt_trans inside' (by decide))
  rw [copyRow, cells y' below' x' inside']
  simp only [whole, and_true]
  by_cases here : y' = y.toNat
  · rw [if_pos here, if_pos here, read v _ (by omega), number, here]
  · rw [if_neg here, if_neg here]

theorem clearRows_spec (last : y.toNat + n ≤ 25) : Drawn v (clearRows n y v) ∧
    ∀ y' < 25, ∀ x' < 80, (clearRows n y v).cell y' x' =
      if y.toNat ≤ y' ∧ y' < y.toNat + n then v.space else v.cell y' x' := by
  induction n generalizing y v with
  | zero =>
    refine ⟨.refl v, fun y' _ x' _ => ?_⟩
    rw [if_neg (by omega)]
    rfl
  | succ n ih =>
    have one : (1 : UInt32).toNat = 1 := rfl
    have next : (y + 1).toNat = y.toNat + 1 := toNat_add_of_lt (by omega)
    obtain ⟨first, row⟩ := clearRow_spec (v := v) (y := y) (by omega)
    obtain ⟨drawn, cells⟩ := ih (y := y + 1) (v := clearRow y v) (by omega)
    have space : (clearRow y v).space = v.space := congrArg (vgaEntry 32) first.colour
    rw [clearRows]
    refine ⟨first.trans drawn, fun y' below x' inside => ?_⟩
    rw [cells y' below x' inside, next, row y' below x' inside, space]
    by_cases here : y' = y.toNat
    · rw [if_neg (by omega), if_pos here, if_pos (by omega)]
    · rw [if_neg here]
      simp only [show (y.toNat + 1 ≤ y' ∧ y' < y.toNat + 1 + n) ↔
        (y.toNat ≤ y' ∧ y' < y.toNat + (n + 1)) by omega]

/-- Every row is read before it is stored to. -/
theorem copyRows_spec (last : y.toNat + n < 25) : Drawn v (copyRows n y v) ∧
    ∀ y' < 25, ∀ x' < 80, (copyRows n y v).cell y' x' =
      if y.toNat ≤ y' ∧ y' < y.toNat + n then v.cell (y' + 1) x' else v.cell y' x' := by
  induction n generalizing y v with
  | zero =>
    refine ⟨.refl v, fun y' _ x' _ => ?_⟩
    rw [if_neg (by omega)]
    rfl
  | succ n ih =>
    have one : (1 : UInt32).toNat = 1 := rfl
    have next : (y + 1).toNat = y.toNat + 1 := toNat_add_of_lt (by omega)
    obtain ⟨first, row⟩ := copyRow_spec (v := v) (y := y) (by omega)
    obtain ⟨drawn, cells⟩ := ih (y := y + 1) (v := copyRow y v) (by omega)
    rw [copyRows]
    refine ⟨first.trans drawn, fun y' below x' inside => ?_⟩
    rw [cells y' below x' inside, next, row y' below x' inside]
    by_cases later : y.toNat + 1 ≤ y' ∧ y' < y.toNat + 1 + n
    · rw [if_pos later, row _ (by omega) _ inside, if_neg (by omega), if_pos (by omega)]
    · rw [if_neg later]
      by_cases here : y' = y.toNat
      · rw [if_pos here, if_pos (by omega)]
      · rw [if_neg here, if_neg (by omega)]

theorem cell_row (v : VgaDriver) (r : UInt32) {y x : Nat} :
    VgaDriver.cell { v with row := r } y x = v.cell y x := rfl

theorem vgaScroll_spec : ((vgaScroll v).row = 24 ∧ (vgaScroll v).column = v.column ∧
      (vgaScroll v).currentColor = v.currentColor ∧ (vgaScroll v).crtc = v.crtc ∧
      ∀ i ∈ (vgaScroll v).stores, i ∈ v.stores ∨ i.toNat < 2000) ∧
    ∀ y' < 25, ∀ x' < 80, (vgaScroll v).cell y' x' =
      if y' < 24 then v.cell (y' + 1) x' else v.space := by
  have last : (vgaHeight - 1).toNat = 24 := rfl
  have zero : (0 : UInt32).toNat = 0 := rfl
  obtain ⟨copied, moved⟩ := copyRows_spec (v := v) (y := 0) (n := 24) (by decide)
  obtain ⟨cleared, blank⟩ :=
    clearRow_spec (v := copyRows 24 0 v) (y := vgaHeight - 1) (by decide)
  have drawn := copied.trans cleared
  have space : (copyRows 24 0 v).space = v.space := congrArg (vgaEntry 32) copied.colour
  rw [vgaScroll]
  dsimp only
  refine ⟨⟨rfl, drawn.column, drawn.colour, drawn.crtc, drawn.stores⟩, fun y' below x' inside => ?_⟩
  rw [cell_row, blank y' below x' inside, moved y' below x' inside, last, zero, space]
  by_cases bottom : y' = 24
  · rw [if_pos bottom, if_neg (by omega)]
  · rw [if_neg bottom, if_pos (by omega), if_pos (by omega)]

/-! ### The calls -/

def putchars (text : List UInt8) (v : VgaDriver) : VgaDriver :=
  text.foldl (fun v c => vgaPutchar c v) v

/-- A string is written up to its terminator. -/
theorem vgaWriteString_eq (data : List UInt8) :
    vgaWriteString data v = putchars (data.takeWhile (· ≠ 0)) v := by
  induction data generalizing v with
  | nil => rfl
  | cons c data ih =>
    rw [vgaWriteString, List.takeWhile_cons]
    by_cases zero : c = 0
    · rw [if_neg (not_not.mpr zero), if_neg (by simpa using zero)]
      rfl
    · rw [if_pos zero, if_pos (by simpa using zero)]
      exact ih

namespace Shows

theorem bounds (shows_ : Shows v p) : v.row.toNat < 25 ∧ v.column.toNat < 80 := by
  have row := shows_.row
  have below := p.paper.below
  exact ⟨by omega, shows_.column ▸ p.paper.inside⟩

theorem space (shows_ : Shows v p) : p.space.entry = v.space :=
  congrArg (vgaEntry 32) shows_.colour

/-- Storing the cell at the cursor. -/
theorem put (shows_ : Shows v p) {c : Cell} {entry : UInt16} (same : c.entry = entry) :
    Shows (v.store (vgaGetIndex v.column v.row) entry) { p with paper := p.paper.put c } where
  stores i member := by
    obtain ⟨below, inside⟩ := shows_.bounds
    exact ((drawn_store below inside entry).stores i member).elim (shows_.stores i) id
  row := shows_.row
  column := shows_.column
  colour := shows_.colour
  cells y below x inside := by
    obtain ⟨below', inside'⟩ := shows_.bounds
    have cursor : p.paper.top + y = p.paper.row ∧ x = p.paper.column ↔
        y = v.row.toNat ∧ x = v.column.toNat := by
      rw [shows_.row, shows_.column, Nat.add_left_cancel_iff]
    rw [cell_store below' inside' entry below inside]
    dsimp only
    have top : (p.paper.put c).top = p.paper.top := rfl
    rw [top, Paper.cell_put]
    simp only [cursor]
    split
    · exact congrArg some same
    · exact shows_.cells y below x inside

/-- The next row is in view already, or the view scrolls. -/
theorem nextRow (shows_ : Shows v p) :
    Shows (FriscaOS.nextRow v) { p with paper := p.paper.newline p.space } := by
  obtain ⟨below, inside⟩ := shows_.bounds
  have row := shows_.row
  have one : (1 : UInt32).toNat = 1 := rfl
  have height : vgaHeight.toNat = 25 := rfl
  have next : (v.row + 1).toNat = v.row.toNat + 1 := toNat_add_of_lt (by omega)
  have bottom : v.row + 1 = vgaHeight ↔ ¬p.paper.row + 1 < p.paper.top + 25 := by
    rw [← UInt32.toNat_inj, next, height]
    omega
  rw [FriscaOS.nextRow]
  dsimp only
  by_cases scroll : v.row + 1 = vgaHeight
  · have last := bottom.mp scroll
    rw [if_pos scroll]
    obtain ⟨⟨atRow, atColumn, sameColour, -, stores⟩, cells⟩ :=
      vgaScroll_spec (v := { v with column := 0, row := v.row + 1 })
    have top : (p.paper.newline p.space).top = p.paper.top + 1 := by
      rw [Paper.newline, dif_neg last]
    have newRow : (p.paper.newline p.space).row = p.paper.row + 1 := by
      rw [Paper.newline, dif_neg last]
    have newColumn : (p.paper.newline p.space).column = 0 := by
      rw [Paper.newline, dif_neg last]
    refine ⟨fun i member => (stores i member).elim (shows_.stores i) id, ?_, ?_, ?_, ?_⟩
    · rw [atRow]
      dsimp only
      have twentyFour : (24 : UInt32).toNat = 24 := rfl
      rw [newRow, top, twentyFour]
      omega
    · rw [atColumn]
      exact newColumn
    · exact shows_.colour.trans sameColour.symm
    · intro y inView x inRow
      rw [cells y inView x inRow]
      dsimp only
      rw [top]
      by_cases upper : y < 24
      · rw [if_pos upper, Nat.add_assoc, Nat.add_comm 1 y, Paper.cell_newline_old (by omega)]
        exact shows_.cells (y + 1) (by omega) x inRow
      · have appended : p.paper.top + 1 + y = p.paper.top + 25 := by omega
        rw [if_neg upper, appended, Paper.cell_newline_new (by omega) inRow]
        exact congrArg some shows_.space
  · have more : p.paper.row + 1 < p.paper.top + 25 := not_not.mp (mt bottom.mpr scroll)
    rw [if_neg scroll, Paper.newline, dif_pos more]
    refine ⟨shows_.stores, ?_, rfl, shows_.colour, shows_.cells⟩
    dsimp only
    rw [next]
    omega

theorem updateCursor (shows_ : Shows v p) (x y : UInt32) : Shows (vgaUpdateCursor x y v) p :=
  ⟨shows_.stores, shows_.row, shows_.column, shows_.colour, shows_.cells⟩

/-- At the end of a row the cursor goes to the next one. -/
theorem advance (shows_ : Shows v p) :
    Shows (if v.column + 1 = vgaWidth then FriscaOS.nextRow { v with column := v.column + 1 }
        else { v with column := v.column + 1 })
      { p with paper := p.paper.advance p.space } := by
  obtain ⟨-, inside⟩ := shows_.bounds
  have column := shows_.column
  have one : (1 : UInt32).toNat = 1 := rfl
  have width : vgaWidth.toNat = 80 := rfl
  have next : (v.column + 1).toNat = v.column.toNat + 1 := toNat_add_of_lt (by omega)
  have last : v.column + 1 = vgaWidth ↔ ¬p.paper.column + 1 < 80 := by
    rw [← UInt32.toNat_inj, next, width]
    omega
  by_cases wrap : v.column + 1 = vgaWidth
  · rw [if_pos wrap, Paper.advance, dif_neg (last.mp wrap)]
    exact shows_.nextRow
  · have more : p.paper.column + 1 < 80 := not_not.mp (mt last.mpr wrap)
    rw [if_neg wrap, Paper.advance, dif_pos more]
    refine ⟨shows_.stores, shows_.row, ?_, shows_.colour, shows_.cells⟩
    dsimp only
    rw [next, column]

theorem back (shows_ : Shows v p) :
    Shows (if v.column > 0 then { v with column := v.column - 1 }
        else if v.row > 0 then { v with row := v.row - 1, column := vgaWidth - 1 } else v)
      { p with paper := p.paper.back } := by
  have row := shows_.row
  have column := shows_.column
  have one : (1 : UInt32).toNat = 1 := rfl
  have previous {n : UInt32} (positive : 0 < n) : (n - 1).toNat = n.toNat - 1 := by
    have positive' : 0 < n.toNat := UInt32.lt_iff_toNat_lt.mp positive
    rw [UInt32.toNat_sub_of_le _ _ (UInt32.le_iff_toNat_le.mpr (by omega)), one]
  have inRow : v.column > 0 ↔ 0 < p.paper.column := by
    rw [gt_iff_lt, UInt32.lt_iff_toNat_lt, column]
    rfl
  have inView : v.row > 0 ↔ p.paper.top < p.paper.row := by
    have zero : (0 : UInt32).toNat = 0 := rfl
    rw [gt_iff_lt, UInt32.lt_iff_toNat_lt, zero]
    omega
  rw [Paper.back]
  by_cases positive : v.column > 0
  · rw [if_pos positive, if_pos (inRow.mp positive)]
    refine ⟨shows_.stores, row, ?_, shows_.colour, shows_.cells⟩
    dsimp only
    rw [previous positive, column]
  · rw [if_neg positive, if_neg (mt inRow.mpr positive)]
    by_cases lower : v.row > 0
    · have room := inView.mp lower
      rw [if_pos lower, dif_pos room]
      refine ⟨shows_.stores, ?_, rfl, shows_.colour, shows_.cells⟩
      dsimp only
      rw [previous lower]
      omega
    · rw [if_neg lower, dif_neg (mt inView.mpr lower)]
      exact shows_

theorem putchar (shows_ : Shows v p) (c : UInt8) : Shows (vgaPutchar c v) (p.putchar c) := by
  rw [vgaPutchar, Page.putchar]
  split
  · exact shows_.nextRow
  · split
    · have erased := shows_.back
      exact (erased.put erased.space).updateCursor _ _
    · have entry : Cell.entry ⟨c, p.colour⟩ = vgaEntry c v.currentColor :=
        congrArg (vgaEntry c) shows_.colour
      exact (shows_.put entry).advance.updateCursor _ _

theorem putchars (shows_ : Shows v p) (text : List UInt8) :
    Shows (FriscaOS.putchars text v) (text.foldl Page.putchar p) := by
  induction text generalizing v p with
  | nil => exact shows_
  | cons c text ih => exact ih (shows_.putchar c)

end Shows

/-- The cleared screen, from any contents. -/
theorem shows_clear (stores : ∀ i ∈ v.stores, i.toNat < 2000) (colour : p.colour = v.currentColor) :
    Shows (vgaClear v) { p with paper := .blank p.space } := by
  have zero : (0 : UInt32).toNat = 0 := rfl
  obtain ⟨drawn, cells⟩ := clearRows_spec (v := v) (y := 0) (n := 25) (by decide)
  rw [vgaClear]
  generalize clearRows 25 0 v = u at drawn cells
  refine ⟨fun i member => (drawn.stores i member).elim (stores i) id, rfl, rfl,
    colour.trans drawn.colour.symm, fun y below x inside => ?_⟩
  have cell : VgaDriver.cell { u with row := 0, column := 0 } y x = u.cell y x := rfl
  have top : (Paper.blank p.space : Paper Cell 80 25).top + y = y := Nat.zero_add y
  rw [cell, cells y below x inside, zero, if_pos (by omega), top, Paper.cell_blank below inside]
  exact congrArg (fun colour => some (vgaEntry 32 colour)) colour

theorem Shows.exec (shows_ : Shows v p) (op : VgaOp) : Shows (op.exec v) (op.onPage p) := by
  cases op with
  | putchar c => exact shows_.putchar c
  | write data =>
    rw [VgaOp.exec, vgaWriteString_eq]
    exact shows_.putchars _
  | clear => exact shows_clear shows_.stores shows_.colour
  | setColor foreground background =>
    exact ⟨shows_.stores, shows_.row, shows_.column, rfl, shows_.cells⟩

theorem shows_init (buffer : UInt32 → UInt16) : Shows (vgaInit (.boot buffer)) .init :=
  shows_clear (p := .init) (List.forall_mem_nil _) rfl

theorem shows_foldl (shows_ : Shows v p) (ops : List VgaOp) :
    Shows (ops.foldl (fun v op => op.exec v) v) (ops.foldl VgaOp.onPage p) := by
  induction ops generalizing v p with
  | nil => exact shows_
  | cons op ops ih => exact ih (shows_.exec op)

/-! ### Text in front of the cursor -/

theorem Shows.text (shows_ : Shows v p) {start : Nat} {text : List Cell}
    (holds : p.paper.Holds start text) :
    text.length ≤ v.row.toNat * 80 + v.column.toNat ∧ ∀ i c, text[i]? = some c →
      v.buffer (.ofNat (v.row.toNat * 80 + v.column.toNat - text.length + i)) = c.entry := by
  have row := shows_.row
  have column := shows_.column
  have cursor := holds.cursor
  have visible := holds.visible
  obtain ⟨below, inside⟩ := shows_.bounds
  rw [Paper.position, row, column, Nat.add_mul] at cursor
  refine ⟨by omega, fun i c there => ?_⟩
  obtain ⟨bound, -⟩ := List.getElem?_eq_some_iff.mp there
  have shown := holds.cells i c there
  have lower : p.paper.top ≤ (start + i) / 80 := by omega
  have upper : (start + i) / 80 - p.paper.top < 25 := by omega
  have inRow : (start + i) % 80 < 80 := Nat.mod_lt _ (by decide)
  have same := shows_.cells _ upper _ inRow
  rw [Nat.add_sub_cancel' lower, ← Paper.cellAt, shown, Option.map_some, Option.some.injEq] at same
  have index : ((start + i) / 80 - p.paper.top) * 80 + (start + i) % 80 =
      v.row.toNat * 80 + v.column.toNat - text.length + i := by omega
  rw [same, VgaDriver.cell, index]

/-! ### Before the first call -/

/-- The byte and the colour of an entry. -/
def cellOf (entry : UInt16) : Cell := ⟨entry.toUInt8, (entry >>> 8).toUInt8⟩

theorem high_or_low (n : UInt16) :
    (n >>> 8).toUInt8.toUInt16 <<< 8 ||| n.toUInt8.toUInt16 = n := by
  have size : n.toNat < 65536 := n.toNat_lt
  have high : ((n >>> 8).toUInt8.toUInt16 <<< 8).toNat = (n.toNat / 256) <<< 8 := by
    simp only [UInt16.toNat_shiftLeft, UInt8.toNat_toUInt16, UInt16.toNat_toUInt8,
      UInt16.toNat_shiftRight]
    simp [Nat.shiftLeft_eq, Nat.shiftRight_eq_div_pow]
    omega
  rw [← UInt16.toNat_inj, UInt16.toNat_or, high, UInt8.toNat_toUInt16, UInt16.toNat_toUInt8,
    ← Nat.shiftLeft_add_eq_or_of_lt (Nat.mod_lt _ (by decide)), Nat.shiftLeft_eq]
  omega

theorem entry_cellOf (entry : UInt16) : (cellOf entry).entry = entry :=
  (UInt16.or_comm ..).trans (high_or_low entry)

/-- The screen as it is found. -/
def Page.boot (buffer : UInt32 → UInt16) : Page where
  paper :=
    { (Paper.blank ⟨0, 0⟩ : Paper Cell 80 25) with
      rows := (List.range 25).map fun y x => cellOf (buffer (.ofNat (y * 80 + x)))
      full := rfl }
  colour := 0

theorem shows_boot (buffer : UInt32 → UInt16) : Shows (.boot buffer) (.boot buffer) where
  stores i member := by cases member
  row := rfl
  column := rfl
  colour := rfl
  cells y below x inside := by
    have line : (Page.boot buffer).paper.rows[(Page.boot buffer).paper.top + y]? =
        some fun x : Fin 80 => cellOf (buffer (.ofNat (y * 80 + x))) := by
      have top : (Page.boot buffer).paper.top + y = y := Nat.zero_add y
      rw [top]
      simp [Page.boot, below]
    rw [Paper.cell, dif_pos inside, line, Option.map_some, Option.map_some, entry_cellOf]
    rfl

/-- What the screen and the cursor have to be. -/
structure ScreenOf (v : VgaDriver) (p : Page) : Prop where
  stores : ∀ i ∈ v.stores, i.toNat < 2000
  inside : v.row < vgaHeight ∧ v.column < vgaWidth
  cursor : p.paper.row = p.paper.top + v.row.toNat ∧ p.paper.column = v.column.toNat
  rows : ∀ y < 25, ∃ line, p.paper.rows[p.paper.top + y]? = some line ∧
    ∀ x : Fin 80, v.buffer (.ofNat (y * 80 + x)) = (line x).entry

theorem Shows.screenOf (shows_ : Shows v p) : ScreenOf v p where
  stores := shows_.stores
  inside := shows_.bounds
  cursor := ⟨shows_.row, shows_.column⟩
  rows y below := by
    have there : p.paper.top + y < p.paper.rows.length := by
      rw [p.paper.full]
      omega
    refine ⟨_, List.getElem?_eq_getElem there, fun x => ?_⟩
    have shown := shows_.cells y below x x.isLt
    rw [Paper.cell, dif_pos x.isLt, List.getElem?_eq_getElem there, Option.map_some,
      Option.map_some] at shown
    exact (Option.some.inj shown).symm

/-- After any calls the screen shows the last rows of the paper. -/
theorem vga_refines_paper (buffer : UInt32 → UInt16) (ops : List VgaOp) :
    ScreenOf (.after buffer ops) (.after ops) :=
  (shows_foldl (shows_init buffer) ops).screenOf

end FriscaOS
