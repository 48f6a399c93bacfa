import FriscaOS.Drivers.VgaRefinement
import FriscaOS.Lib.Transition
import Mathlib.Data.List.DropRight

/-! The cursor of the CRT controller against `row` and `column`. A newline and `vga_clear` move the
one without the other. -/
namespace FriscaOS

open ByteMemory PaperTerminal Transition

/-- The last position that was sent is that of the cursor. -/
def Synced (v : VgaDriver) : Prop :=
  ∃ pos, v.crtc.position = some pos ∧ pos.toNat = v.row.toNat * 80 + v.column.toNat

/-- The characters that a call writes. -/
def VgaOp.text : VgaOp → List UInt8
  | putchar c => [c]
  | write data => data.takeWhile (· ≠ 0)
  | clear => []
  | setColor .. => []

/-- Some call has written a character. -/
def Written (ops : List VgaOp) : Prop := ∃ op ∈ ops, op.text ≠ []

/-- A text without the newlines at its end. -/
def withoutNewlines (text : List UInt8) : List UInt8 := text.rdropWhile (· = newline)

namespace Page

/-- The cursor is in the first cell in view. -/
def AtHome (p : Page) : Prop := p.paper.row = p.paper.top ∧ p.paper.column = 0

/-- The cursor is in the first cell of the last row. -/
def AtBottom (p : Page) : Prop := p.paper.row = p.paper.top + 24 ∧ p.paper.column = 0

end Page

/-- A call after which the positions agree: text that does not end in a newline, and otherwise
nothing that moves the cursor of the terminal away. -/
def VgaOp.KeepsSync (written : Prop) (p : Page) (op : VgaOp) : Prop :=
  match op with
  | clear => written → p.AtHome
  | _ => withoutNewlines op.text = op.text ∨
      (written ∨ withoutNewlines op.text ≠ []) ∧
        ((withoutNewlines op.text).foldl Page.putchar p).AtBottom

variable {v : VgaDriver} {p : Page} {op : VgaOp} {text : List UInt8} {written : Prop}

/-- The cursor of the terminal is at the row and the column of the driver. -/
theorem Shows.atBottom_iff (shows_ : Shows v p) :
    p.AtBottom ↔ v.row.toNat = 24 ∧ v.column.toNat = 0 := by
  rw [Page.AtBottom, shows_.row, shows_.column, Nat.add_left_cancel_iff]

theorem Shows.atHome_iff (shows_ : Shows v p) :
    p.AtHome ↔ v.row.toNat = 0 ∧ v.column.toNat = 0 := by
  rw [Page.AtHome, shows_.row, shows_.column, Nat.add_eq_left]

/-! ### Positions sent -/

theorem bytes_of_pos (pos : UInt16) :
    ((pos >>> 8) &&& 0xFF).toUInt8.toUInt16 <<< 8 ||| (pos &&& 0xFF).toUInt8.toUInt16 = pos := by
  have mask (n : UInt16) : (n &&& 0xFF).toUInt8 = n.toUInt8 := by
    have low (m : Nat) : m &&& 255 = m % 256 := Nat.and_two_pow_sub_one_eq_mod m 8
    simp [← UInt8.toNat_inj, low]
  rw [mask, mask, high_or_low]

theorem synced_vgaUpdateCursor (shows_ : Shows v p) :
    Synced (vgaUpdateCursor v.column v.row v) := by
  obtain ⟨below, inside⟩ := shows_.bounds
  refine ⟨(v.row * vgaWidth + v.column).toUInt16, congrArg some (bytes_of_pos _), ?_⟩
  have index := toNat_vgaGetIndex below inside
  rw [vgaGetIndex] at index
  rw [UInt32.toNat_toUInt16, index, Nat.mod_eq_of_lt (by omega)]
  rfl

/-- A newline sends nothing. -/
theorem crtc_nextRow : (nextRow v).crtc = v.crtc := by
  rw [nextRow]
  dsimp only
  split
  · exact vgaScroll_spec.1.2.2.2.1
  · rfl

theorem nextRow_cursor (below : v.row.toNat < 25) :
    (nextRow v).row.toNat = min (v.row.toNat + 1) 24 ∧ (nextRow v).column = 0 := by
  have one : (1 : UInt32).toNat = 1 := rfl
  have next : (v.row + 1).toNat = v.row.toNat + 1 := toNat_add_of_lt (by omega)
  rw [nextRow]
  dsimp only
  split
  · next scroll =>
    have bottom : (v.row + 1).toNat = 25 := congrArg UInt32.toNat scroll
    obtain ⟨⟨row, column, -⟩, -⟩ := vgaScroll_spec (v := { v with column := 0, row := v.row + 1 })
    rw [row, column, Nat.min_eq_right (by omega)]
    exact ⟨rfl, rfl⟩
  · next more =>
    have other : (v.row + 1).toNat ≠ 25 := fun same => more (UInt32.toNat_inj.mp same)
    dsimp only
    rw [next, Nat.min_eq_left (by omega)]
    exact ⟨rfl, rfl⟩

theorem crtc_vgaClear : (vgaClear v).crtc = v.crtc := by
  obtain ⟨drawn, -⟩ := clearRows_spec (v := v) (y := 0) (n := 25) (by decide)
  rw [vgaClear]
  generalize clearRows 25 0 v = u at drawn
  exact drawn.crtc

/-- Any other character sends the position at which it leaves the cursor. -/
theorem synced_vgaPutchar (shows_ : Shows v p) {c : UInt8} (other : c ≠ newline) :
    Synced (vgaPutchar c v) := by
  rw [vgaPutchar, if_neg other]
  by_cases erases : c = backspace
  · have erased := shows_.back
    have sent := synced_vgaUpdateCursor (erased.put erased.space)
    rw [if_pos erases]
    exact sent
  · have entry : Cell.entry ⟨c, p.colour⟩ = vgaEntry c v.currentColor :=
      congrArg (vgaEntry c) shows_.colour
    have sent := synced_vgaUpdateCursor (shows_.put entry).advance
    rw [if_neg erases]
    exact sent

/-! ### Texts -/

theorem putchars_append (text more : List UInt8) :
    putchars (text ++ more) v = putchars more (putchars text v) := List.foldl_append

theorem putchars_newlines (below : v.row.toNat < 25) (k : Nat) :
    (putchars (.replicate (k + 1) newline) v).crtc = v.crtc ∧
    (putchars (.replicate (k + 1) newline) v).row.toNat = min (v.row.toNat + (k + 1)) 24 ∧
    (putchars (.replicate (k + 1) newline) v).column.toNat = 0 := by
  induction k with
  | zero =>
    obtain ⟨row, column⟩ := nextRow_cursor below
    exact ⟨crtc_nextRow, row, congrArg UInt32.toNat column⟩
  | succ k ih =>
    obtain ⟨crtc, row, column⟩ := ih
    rw [List.replicate_succ', putchars_append]
    obtain ⟨nextRow, nextColumn⟩ :=
      nextRow_cursor (v := putchars (.replicate (k + 1) newline) v) (by omega)
    refine ⟨crtc_nextRow.trans crtc, nextRow.trans ?_, congrArg UInt32.toNat nextColumn⟩
    omega

theorem newlines_at_end (text : List UInt8) :
    ∃ k, text = withoutNewlines text ++ .replicate k newline := by
  have rest : text.rtakeWhile (· = newline) =
      .replicate (text.rtakeWhile (· = newline)).length newline := by
    refine List.eq_replicate_iff.mpr ⟨rfl, fun c member => ?_⟩
    exact of_decide_eq_true (List.mem_rtakeWhile_imp (p := (· = newline)) member)
  refine ⟨(text.rtakeWhile (· = newline)).length, ?_⟩
  rw [withoutNewlines, ← rest, List.rdropWhile_append_rtakeWhile]

/-- Text that ends in another character leaves the positions in agreement. -/
theorem synced_withoutNewlines (shows_ : Shows v p) (some_ : withoutNewlines text ≠ []) :
    Synced (putchars (withoutNewlines text) v) := by
  have last : (withoutNewlines text).getLast some_ ≠ newline := by
    have other := List.rdropWhile_last_not (· = newline) text some_
    rwa [decide_eq_true_eq] at other
  rw [← List.dropLast_append_getLast some_, putchars_append]
  exact synced_vgaPutchar (shows_.putchars _) last

/-- Newlines at the end of a text move the cursor unless it is at the bottom, and nothing is
sent. -/
theorem synced_putchars_iff (shows_ : Shows v p) (sync : written → Synced v)
    (unsent : ¬written → v.crtc.position = none) (text : List UInt8) :
    (written ∨ text ≠ [] → Synced (putchars text v)) ↔ withoutNewlines text = text ∨
      (written ∨ withoutNewlines text ≠ []) ∧
        ((withoutNewlines text).foldl Page.putchar p).AtBottom := by
  rw [(shows_.putchars _).atBottom_iff]
  by_cases whole : withoutNewlines text = text
  · refine ⟨fun _ => .inl whole, fun _ sends => ?_⟩
    by_cases empty : text = []
    · subst empty
      exact sync (sends.resolve_right (not_not.mpr rfl))
    · rw [← whole]
      exact synced_withoutNewlines shows_ (whole.symm ▸ empty)
  · obtain ⟨k, ends⟩ := newlines_at_end text
    cases k with
    | zero => exact absurd (ends.trans (List.append_nil _)).symm whole
    | succ k =>
      have some_ : text ≠ [] := fun empty => whole (by rw [empty]; rfl)
      have reached := shows_.putchars (withoutNewlines text)
      obtain ⟨below, inside⟩ := reached.bounds
      obtain ⟨crtc, row, column⟩ := putchars_newlines below k
      rw [← putchars_append, ← ends] at crtc row column
      have position : (putchars text v).crtc.position =
          (putchars (withoutNewlines text) v).crtc.position := by rw [crtc]
      -- what was sent last is the position before the newlines
      have before (sends : written ∨ withoutNewlines text ≠ []) :
          Synced (putchars (withoutNewlines text) v) := by
        by_cases empty : withoutNewlines text = []
        · rw [empty] at sends ⊢
          exact sync (sends.resolve_right (not_not.mpr rfl))
        · exact synced_withoutNewlines shows_ empty
      constructor
      · intro synced
        obtain ⟨pos, sent, here⟩ := synced (.inr some_)
        rw [position] at sent
        rw [row, column] at here
        have sends : written ∨ withoutNewlines text ≠ [] := by
          by_contra none_
          obtain ⟨never, empty⟩ := not_or.mp none_
          rw [not_not.mp empty] at sent
          cases (unsent never).symm.trans sent
        refine .inr ⟨sends, ?_⟩
        obtain ⟨pos', sent', there⟩ := before sends
        cases sent.symm.trans sent'
        constructor <;> omega
      · rintro (same | ⟨sends, bottom⟩) -
        · exact absurd same whole
        · obtain ⟨pos, sent, there⟩ := before sends
          obtain ⟨atRow, atColumn⟩ := bottom
          refine ⟨pos, position.trans sent, ?_⟩
          omega

/-! ### Runs -/

theorem synced_exec_iff (shows_ : Shows v p) (sync : written → Synced v)
    (unsent : ¬written → v.crtc.position = none) (op : VgaOp) :
    (written ∨ op.text ≠ [] → Synced (op.exec v)) ↔ op.KeepsSync written p := by
  cases op with
  | putchar c => exact synced_putchars_iff shows_ sync unsent [c]
  | write data =>
    rw [VgaOp.exec, vgaWriteString_eq]
    exact synced_putchars_iff shows_ sync unsent _
  | setColor => exact ⟨fun _ => .inl rfl, fun _ sends => sync (sends.resolve_right (· rfl))⟩
  | clear =>
    obtain ⟨below, inside⟩ := shows_.bounds
    have cleared : Synced (vgaClear v) ↔ ∃ pos, v.crtc.position = some pos ∧ pos.toNat = 0 := by
      rw [Synced, crtc_vgaClear]
      rfl
    simp only [VgaOp.exec, VgaOp.KeepsSync, VgaOp.text, ne_eq, not_true_eq_false, or_false, cleared,
      shows_.atHome_iff]
    refine forall_congr' fun sent => ?_
    obtain ⟨pos, position, here⟩ := sync sent
    constructor
    · rintro ⟨pos', position', there⟩
      cases position.symm.trans position'
      omega
    · intro home
      exact ⟨pos, position, by omega⟩

theorem written_append {ops : List VgaOp} :
    Written (ops ++ [op]) ↔ Written ops ∨ op.text ≠ [] := by
  simp only [Written, List.mem_append, List.mem_singleton, or_and_right, exists_or, exists_eq_left]

theorem VgaDriver.after_append (buffer : UInt32 → UInt16) (ops : List VgaOp) :
    VgaDriver.after buffer (ops ++ [op]) = op.exec (.after buffer ops) := by
  rw [VgaDriver.after, List.foldl_append]
  rfl

theorem unsent_after (buffer : UInt32 → UInt16) {ops : List VgaOp} (never : ¬Written ops) :
    (VgaDriver.after buffer ops).crtc.position = none := by
  induction ops using List.reverseRecOn with
  | nil =>
    have boot : VgaDriver.after buffer [] = vgaInit (.boot buffer) := rfl
    rw [boot, vgaInit, crtc_vgaClear]
    rfl
  | append_singleton ops op ih =>
    obtain ⟨before, empty⟩ := not_or.mp (mt written_append.mpr never)
    rw [VgaDriver.after_append, ← ih before]
    cases op with
    | putchar c => exact absurd (List.cons_ne_nil c []) empty
    | write data =>
      have nothing : data.takeWhile (· ≠ 0) = [] := not_not.mp empty
      rw [VgaOp.exec, vgaWriteString_eq, nothing]
      rfl
    | clear => exact congrArg Crtc.position crtc_vgaClear
    | setColor => rfl

/-- From the first character on the positions agree after every call exactly when no call ends in a
newline, except at the bottom, or clears a screen, except from its first cell. -/
theorem cursor_synced_iff (buffer : UInt32 → UInt16) (ops : List VgaOp) :
    (∀ before, before <+: ops → Written before → Synced (.after buffer before)) ↔
      ∀ before op, before ++ [op] <+: ops →
        op.KeepsSync (Written before) (.after before) := by
  apply forall_prefix_iff
  case initial =>
    rintro ⟨op, member, -⟩
    cases member
  case step =>
    intro before op _ sync
    rw [written_append, VgaDriver.after_append]
    exact synced_exec_iff (shows_foldl (shows_init buffer) before) sync (unsent_after buffer) op

/-- A character and a newline: the cursor is in row 1, and the position that was sent in row 0. -/
theorem newline_not_synced : ¬∀ before,
    before <+: [VgaOp.putchar 97, .putchar newline] → Written before →
      Synced (.after (fun _ => 0) before) := by
  intro synced
  have shown : Shows (.after (fun _ => 0) [.putchar 97]) (.after [.putchar 97]) :=
    shows_foldl (shows_init fun _ => 0) _
  have page : (Page.after [.putchar 97]).paper.top = 0 ∧
      (Page.after [.putchar 97]).paper.row = 0 ∧ (Page.after [.putchar 97]).paper.column = 1 :=
    ⟨rfl, rfl, rfl⟩
  have row := shown.row
  have column := shown.column
  rw [page.1, page.2.1, Nat.zero_add] at row
  rw [page.2.2] at column
  obtain ⟨pos, sent, here⟩ :=
    synced [.putchar 97] (List.prefix_append _ [_]) ⟨_, List.mem_singleton_self _, by decide⟩
  obtain ⟨pos', sent', there⟩ :=
    synced ([.putchar 97] ++ [.putchar newline]) (List.prefix_refl _)
      ⟨.putchar 97, List.mem_cons_self, by decide⟩
  rw [VgaDriver.after_append] at sent' there
  have second : VgaOp.exec (.putchar newline) (.after (fun _ => 0) [.putchar 97]) =
      nextRow (.after (fun _ => 0) [.putchar 97]) := by
    rw [VgaOp.exec, vgaPutchar, if_pos rfl]
  obtain ⟨row', column'⟩ := nextRow_cursor (v := .after (fun _ => 0) [.putchar 97]) (by omega)
  rw [second, crtc_nextRow, sent] at sent'
  rw [second, row', column', ← row] at there
  cases sent'
  rw [← row, ← column, there] at here
  cases here

end FriscaOS
