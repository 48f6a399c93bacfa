import FriscaOS.Drivers.VgaRefinement
import FriscaOS.Shell.StoreEffects

/-! The line on the screen: the cells in front of the cursor show the prompt and what the line
editor holds. -/
namespace FriscaOS

open ByteMemory Transition PaperTerminal

/-! ### The screen -/

def VgaCall.op : VgaCall → VgaOp
  | putchar c => .putchar c
  | setColor foreground background => .setColor foreground.toByte background.toByte
  | clear => .clear

/-- The VGA driver after all calls so far, on a screen that held `buffer`. -/
def Os.screen (s : Os) (buffer : UInt32 → UInt16) : VgaDriver :=
  s.vga.foldl (fun v call => call.op.exec v) (.boot buffer)

/-- A prompt was just printed. -/
def Os.Prompted (s : Os) : Prop := ∃ calls, s.vga = calls ++ prompt

def promptText : List UInt8 := ascii "frisca-os> "

/-- The prompt in light cyan and a line in white, on black. -/
def promptLine (line : List UInt8) : List Cell :=
  promptText.map (⟨·, 0x0B⟩) ++ line.map (⟨·, 0x0F⟩)

/-- Cells of the screen that linearly precede the cursor. -/
def PrecedesCursor (v : VgaDriver) (cells : List Cell) : Prop :=
  cells.length ≤ v.row.toNat * 80 + v.column.toNat ∧ ∀ i c, cells[i]? = some c →
    v.buffer (.ofNat (v.row.toNat * 80 + v.column.toNat - cells.length + i)) = c.entry

/-- What the line editor sends to the screen for a key other than Enter. -/
def editCalls (line : List UInt8) (c : UInt8) : List VgaCall :=
  if c = backspace then if line = [] then [] else [.putchar backspace]
  else if line.length < 255 then [.putchar c] else []

def Page.replay (p : Page) (calls : List VgaCall) : Page :=
  calls.foldl (fun p call => call.op.onPage p) p

variable {L : KernelLayout} {s t : Os} {p : Page} {env : Env} {c : UInt8} {start : Nat}
  {line text keys : List UInt8} {held : List Cell}

theorem Page.replay_append (calls more : List VgaCall) :
    p.replay (calls ++ more) = (p.replay calls).replay more := List.foldl_append

theorem Os.shows_screen (s : Os) (buffer : UInt32 → UInt16) :
    Shows (s.screen buffer) ((Page.boot buffer).replay s.vga) := by
  have ops := shows_foldl (shows_boot buffer) (s.vga.map VgaCall.op)
  rwa [List.foldl_map, List.foldl_map] at ops

/-! ### Keys -/

theorem shellInput_calls (inv : EditInv s) (other : c ≠ newline)
    (result : shellInput env c s = some (t, .returned)) : t.vga = s.vga ++ editCalls s.line c := by
  have length := s.length_line
  have index := inv.index
  rw [shellInput, if_neg other] at result
  rw [editCalls]
  by_cases back : c = backspace
  · rw [if_pos back] at result ⊢
    by_cases some_ : s.bufferIdx > 0
    · have nonempty : s.line ≠ [] := fun empty => by
        rw [Os.line_eq_nil_iff.mp empty] at some_
        exact absurd some_ (by decide)
      rw [if_pos some_] at result
      rw [if_neg nonempty]
      cases result
      rfl
    · have empty : s.line = [] :=
        Os.line_eq_nil_iff.mpr (UInt32.le_antisymm (UInt32.not_lt.mp some_) (UInt32.zero_le))
      rw [if_neg some_] at result
      rw [if_pos empty, List.append_nil]
      cases result
      rfl
  · rw [if_neg back] at result ⊢
    have room : s.bufferIdx < maxCommandLen - 1 ↔ s.line.length < 255 := by
      rw [UInt32.lt_iff_toNat_lt, length]
      rfl
    by_cases below : s.bufferIdx < maxCommandLen - 1
    · rw [if_pos below] at result
      rw [if_pos (room.mp below)]
      cases result
      rfl
    · rw [if_neg below] at result
      rw [if_neg (mt room.mpr below), List.append_nil]
      cases result
      rfl

/-! ### Prompts -/

theorem not_prompted (calls : List VgaCall) (c : UInt8)
    (last : s.vga = calls ++ [.putchar c]) : ¬s.Prompted := by
  rintro ⟨before, ends⟩
  rw [last, prompt, ← List.append_assoc] at ends
  cases List.append_inj_right' ends rfl

theorem editCalls_cases (line : List UInt8) (c : UInt8) :
    editCalls line c = [] ∨ ∃ b, editCalls line c = [.putchar b] := by
  unfold editCalls
  split_ifs
  exacts [.inl rfl, .inr ⟨_, rfl⟩, .inr ⟨_, rfl⟩, .inl rfl]

/-- No key is in the buffer when a prompt was just printed. -/
def PromptInv (s : Os) : Prop := s.Prompted → s.bufferIdx = 0

theorem PromptInv.edit (prompt : PromptInv s) (inv : EditInv s) (key : c ≠ 0) (other : c ≠ newline)
    (result : shellInput env c s = some (t, .returned)) : PromptInv t := by
  obtain ⟨t', result', -, line, -⟩ := shellInput_edit inv env key other
  rw [result, Option.some.injEq, Prod.mk.injEq] at result'
  obtain ⟨rfl, -⟩ := result'
  have shown := shellInput_calls inv other result
  intro prompted
  rcases editCalls_cases s.line c with silent | ⟨b, last⟩
  · rw [silent, List.append_nil] at shown
    have before : s.Prompted := by rwa [Os.Prompted, ← shown]
    have empty := Os.line_eq_nil_iff.mpr (prompt before)
    rw [empty, editLine] at line
    rw [empty, editCalls] at silent
    -- only backspace is not shown on an empty line
    by_cases back : c = backspace
    · rw [if_pos back] at line
      exact Os.line_eq_nil_iff.mp line
    · simp [back] at silent
  · rw [last] at shown
    exact absurd prompted (not_prompted _ _ shown)

/-- A command that sleeps leaves its own text on the screen, and no prompt. -/
theorem PromptInv.enter {progress : Progress} (store : StoreInv L s.toStore) (inv : EditInv s)
    (result : executeCommand env s = some (t, progress)) (goesOn : progress ≠ .halted) :
    PromptInv t := by
  obtain ⟨t', progress', result', executed⟩ := executeCommand_executed store inv env
  rw [result, Option.some.injEq, Prod.mk.injEq] at result'
  obtain ⟨rfl, rfl⟩ := result'
  by_cases returns : progress = .returned
  · exact fun _ => executed.returned returns
  · have waits : commandOf s.line = .testdelay := by
      have ended := executed.ended
      cases command : commandOf s.line <;> rw [command] at ended
      case crash | divzero | reboot => exact absurd ended goesOn
      all_goals exact absurd ended returns
    have nonempty : s.bufferIdx ≠ 0 := fun empty => by
      rw [Os.line_eq_nil_iff.mpr empty] at waits
      exact absurd waits (by decide)
    rw [executeCommand_line inv env nonempty, waits] at result
    simp only [runCommand, Os.print, vgaWrite_literal, Option.map_some, Option.bind_eq_bind,
      Option.bind_some, Option.pure_def] at result
    cases result
    have text : printed "Waiting 2 seconds...\n" =
        printed "Waiting 2 seconds..." ++ [.putchar newline] := by decide
    intro prompted
    apply absurd prompted
    apply not_prompted (s.entered.vga ++ printed "Waiting 2 seconds...") newline
    dsimp only
    rw [text, List.append_assoc]

theorem PromptInv.step {s t : ShellSystem} {op : ShellOp} (prompt : PromptInv s.os)
    (inv : ShellInv L s.os) (taken : ShellStep L s op t) : PromptInv t.os := by
  cases taken with
  | @key env c os progress key result goesOn =>
    by_cases enter : c = newline
    · rw [shellInput, if_pos enter] at result
      exact .enter inv.store inv.edit result goesOn
    · obtain ⟨os', result', -⟩ := shellInput_edit inv.edit env key enter
      rw [result, Option.some.injEq, Prod.mk.injEq] at result'
      obtain ⟨-, rfl⟩ := result'
      exact prompt.edit inv.edit key enter result
  | wake waiting result =>
    rw [afterSleep_eq, Option.some.injEq] at result
    subst result
    exact fun _ => rfl
  | tasks change => exact prompt

theorem ShellReachable.prompt {s : ShellSystem} (reach : ShellReachable L s) : PromptInv s.os := by
  obtain ⟨os, ops, idle, run⟩ := reach
  have boot : ShellReachable L ⟨os, 0⟩ ∧ PromptInv os :=
    ⟨idle.reachable, fun _ => Os.line_eq_nil_iff.mp idle.inv.2⟩
  exact (run.invariant (fun s => ShellReachable L s ∧ PromptInv s.os)
    (fun s _ _ inv taken => ⟨inv.1.run (.single taken), inv.2.step inv.1.inv taken⟩) boot).2

/-! ### Text in front of the cursor -/

/-- A character of a line, in the colour of the page. -/
theorem holds_putchar (holds : p.paper.Holds start held) (room : held.length < 1920)
    (other : c ≠ newline) (shown : c ≠ backspace) :
    (p.putchar c).paper.Holds start (held ++ [⟨c, p.colour⟩]) := by
  rw [Page.putchar, if_neg other, if_neg shown]
  exact holds.print room _ _

theorem holds_text (holds : p.paper.Holds start held) (room : held.length + text.length ≤ 1920)
    (plain : ∀ c ∈ text, c ≠ newline ∧ c ≠ backspace) :
    (p.replay (text.map .putchar)).colour = p.colour ∧
      (p.replay (text.map .putchar)).paper.Holds start (held ++ text.map (⟨·, p.colour⟩)) := by
  induction text generalizing p held with
  | nil =>
    rw [List.map_nil, List.map_nil, List.append_nil]
    exact ⟨rfl, holds⟩
  | cons c text ih =>
    obtain ⟨other, shown⟩ := plain c (.head _)
    rw [List.length_cons] at room
    have first := holds_putchar holds (by omega) other shown
    obtain ⟨colour, rest⟩ := ih (p := p.putchar c) first
      (by rw [List.length_append, List.length_singleton]; omega)
      fun c member => plain c (.tail _ member)
    refine ⟨colour, ?_⟩
    rw [List.append_assoc] at rest
    exact rest

theorem Page.replay_setColor (foreground background : VgaColor) (calls : List VgaCall) :
    p.replay (.setColor foreground background :: calls) =
      { p with colour := vgaEntryColor foreground.toByte background.toByte }.replay calls := rfl

theorem holds_prompt (p : Page) : (p.replay prompt).colour = 0x0F ∧
    (p.replay prompt).paper.Holds p.paper.position (promptLine []) := by
  have text : printed "frisca-os> " = promptText.map .putchar := by decide
  have plain : ∀ c ∈ promptText, c ≠ newline ∧ c ≠ backspace :=
    List.all_iff_forall_prop.mp (by decide)
  have cyan : vgaEntryColor VgaColor.lightCyan.toByte VgaColor.black.toByte = 0x0B := by decide
  have white : vgaEntryColor VgaColor.white.toByte VgaColor.black.toByte = 0x0F := by decide
  have held : ({ p with colour := 0x0B } : Page).paper.Holds p.paper.position [] := .nil p.paper
  have room : ([] : List Cell).length + promptText.length ≤ 1920 := by decide
  obtain ⟨-, holds⟩ := holds_text held room plain
  rw [List.nil_append] at holds
  rw [prompt, Page.replay_append, Page.replay_setColor, Page.replay_setColor, text, cyan, white]
  refine ⟨rfl, ?_⟩
  rw [promptLine, List.map_nil, List.append_nil]
  generalize ({ p with colour := 0x0B } : Page).replay (promptText.map .putchar) = q at holds
  exact holds

/-- The line that the editor holds is in front of the cursor, behind the prompt. -/
structure LineShown (start : Nat) (line : List UInt8) (p : Page) : Prop where
  colour : p.colour = 0x0F
  holds : p.paper.Holds start (promptLine line)

theorem length_promptLine (line : List UInt8) : (promptLine line).length = 11 + line.length := by
  have prompt : promptText.length = 11 := by decide
  rw [promptLine, List.length_append, List.length_map, List.length_map, prompt]

theorem promptLine_append (line : List UInt8) (c : UInt8) :
    promptLine (line ++ [c]) = promptLine line ++ [⟨c, 0x0F⟩] := by
  rw [promptLine, promptLine, List.map_append, List.append_assoc]
  rfl

theorem LineShown.edit (shown : LineShown start line p) (fits : line.length ≤ 255)
    (other : c ≠ newline) : LineShown start (editLine line c) (p.replay (editCalls line c)) := by
  obtain ⟨colour, holds⟩ := shown
  have length := length_promptLine line
  rw [editLine, editCalls]
  by_cases back : c = backspace
  · rw [if_pos back, if_pos back]
    rcases List.eq_nil_or_concat line with rfl | ⟨before, last, rfl⟩
    · exact ⟨colour, holds⟩
    · rw [List.concat_eq_append] at holds ⊢
      rw [if_neg (by simp), List.dropLast_concat]
      rw [promptLine_append] at holds
      exact ⟨colour, holds.erase p.space⟩
  · rw [if_neg back, if_neg back]
    by_cases room : line.length < 255
    · have appended := holds_putchar holds (by omega) other back
      rw [colour, ← promptLine_append] at appended
      rw [if_pos room, if_pos room]
      exact ⟨colour, appended⟩
    · rw [if_neg room, if_neg room]
      exact ⟨colour, holds⟩

/-! ### Typing -/

theorem typeKeys_shown (inv : EditInv s) (shown : LineShown start s.line (p.replay s.vga))
    (keys : List UInt8) (plain : ∀ c ∈ keys, c ≠ 0 ∧ c ≠ newline) (env : Env) :
    ∃ t, typeKeys env keys s = some t ∧ t.line = keys.foldl editLine s.line ∧ EditInv t ∧
      LineShown start t.line (p.replay t.vga) := by
  induction keys generalizing s with
  | nil => exact ⟨s, rfl, rfl, inv, shown⟩
  | cons c keys ih =>
    obtain ⟨key, other⟩ := plain c (.head _)
    obtain ⟨t, result, -, line, edit⟩ := shellInput_edit inv env key other
    have fits : s.line.length ≤ 255 := s.length_line ▸ inv.index
    have next : LineShown start t.line (p.replay t.vga) := by
      rw [shellInput_calls inv other result, Page.replay_append, line]
      exact shown.edit fits other
    obtain ⟨u, rest, line', edit', final⟩ := ih edit next fun c member => plain c (.tail _ member)
    refine ⟨u, ?_, ?_, edit', final⟩
    · rw [typeKeys, result]
      exact rest
    · rw [line', line, List.foldl_cons]

/-- The line editor and the screen agree on the line, and on the prompt in front of it. -/
theorem line_on_screen {s : ShellSystem} (reach : ShellReachable L s) (prompted : s.os.Prompted)
    (keys : List UInt8) (plain : ∀ c ∈ keys, c ≠ 0 ∧ c ≠ newline) (env : Env)
    (buffer : UInt32 → UInt16) :
    ∃ t, typeKeys env keys s.os = some t ∧ t.bufferIdx.toNat ≤ 255 ∧
      t.line = keys.foldl editLine [] ∧ PrecedesCursor (t.screen buffer) (promptLine t.line) := by
  have empty := Os.line_eq_nil_iff.mpr (reach.prompt prompted)
  obtain ⟨calls, ends⟩ := prompted
  have shown : LineShown ((Page.boot buffer).replay calls).paper.position s.os.line
      ((Page.boot buffer).replay s.os.vga) := by
    rw [ends, Page.replay_append, empty]
    exact ⟨(holds_prompt _).1, (holds_prompt _).2⟩
  obtain ⟨t, result, line, edit, shown'⟩ := typeKeys_shown reach.inv.edit shown keys plain env
  rw [empty] at line
  exact ⟨t, result, edit.index, line, (t.shows_screen buffer).text shown'.holds⟩

/-- A character that is taken back, a backspace with nothing left, and another character. -/
theorem line_on_first_screen : ∃ os, Booted.Idle bootLayout os ∧
    ∃ t, typeKeys ⟨0, 0, fun _ => 0⟩ [97, backspace, backspace, 98] os = some t ∧
      t.bufferIdx.toNat ≤ 255 ∧ t.line = [98] ∧
      PrecedesCursor (t.screen fun _ => 0) (promptLine t.line) := by
  obtain ⟨os, idle⟩ := kernelMain_idle (L := bootLayout) rfl
  have prompted : os.Prompted := by
    obtain ⟨region, m, r, v, buffer, entryPoint, result⟩ := idle
    obtain ⟨b, h, tasks, p, -, -, result'⟩ := kernelMain_some region m r v buffer entryPoint
    rw [result', Option.some.injEq] at result
    subst result
    refine ⟨[.setColor .white .black, .clear, .setColor .lightGreen .black] ++
      printed "=== Welcome to Frisca OS Shell ===\n" ++ [.setColor .white .black], ?_⟩
    simp [welcome]
  have plain : ∀ c ∈ [97, backspace, backspace, 98], c ≠ 0 ∧ c ≠ newline :=
    List.all_iff_forall_prop.mp (by decide)
  obtain ⟨t, typing, index, line, shown⟩ := line_on_screen idle.reachable prompted
    [97, backspace, backspace, 98] plain ⟨0, 0, fun _ => 0⟩ fun _ => 0
  exact ⟨os, idle, t, typing, index, line.trans (by decide), shown⟩

end FriscaOS
