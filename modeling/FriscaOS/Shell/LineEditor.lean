import FriscaOS.Shell.Commands

/-! The line editor of `shell_input`, and what Enter does with the line. -/
namespace FriscaOS

open ByteMemory

/-- The characters typed so far. -/
def Os.line (s : Os) : List UInt8 := s.commandBuffer.bytes 0 s.bufferIdx.toNat

/-- A key that stands for a character of the line. -/
def Plain (c : UInt8) : Prop := c ≠ 0 ∧ c ≠ newline ∧ c ≠ backspace

instance : DecidablePred Plain := fun c =>
  inferInstanceAs (Decidable (c ≠ 0 ∧ c ≠ newline ∧ c ≠ backspace))

/-- What a key other than Enter makes of a line: backspace removes the last character, any other
key is appended while there is room. -/
def editLine (line : List UInt8) (c : UInt8) : List UInt8 :=
  if c = backspace then line.dropLast else if line.length < 255 then line ++ [c] else line

/-- The line fits in the buffer, with its terminator. -/
structure EditInv (s : Os) : Prop where
  index : s.bufferIdx.toNat ≤ 255
  plain : ∀ c ∈ s.line, Plain c

variable {s t : Os} {env : Env} {c : UInt8} {L : KernelLayout}

theorem Os.length_line (s : Os) : s.line.length = s.bufferIdx.toNat := Mem.length_bytes ..

theorem Os.line_eq_nil_iff : s.line = [] ↔ s.bufferIdx = 0 := by
  rw [← List.length_eq_zero_iff, s.length_line, ← UInt32.toNat_inj, UInt32.toNat_zero]

theorem EditInv.noNul (inv : EditInv s) : 0 ∉ s.line := fun member => (inv.plain 0 member).1 rfl

theorem EditInv.of_empty (empty : s.bufferIdx = 0) : EditInv s where
  index := by simp [empty]
  plain := by simp [Os.line_eq_nil_iff.mpr empty]

/-! ### Keys other than Enter -/

theorem Os.toNat_pred (some_ : s.bufferIdx > 0) :
    (s.bufferIdx - 1).toNat + 1 = s.bufferIdx.toNat := by
  have positive : 0 < s.bufferIdx.toNat := UInt32.lt_iff_toNat_lt.mp some_
  have one : (1 : UInt32).toNat = 1 := rfl
  rw [toNat_sub_of_le (by omega), one]
  omega

theorem Os.line_backspace (some_ : s.bufferIdx > 0) :
    s.commandBuffer.bytes 0 (s.bufferIdx - 1).toNat = s.line.dropLast := by
  rw [Os.line, ← Os.toNat_pred some_, Mem.bytes_add, Mem.bytes_one, List.dropLast_concat]

theorem Os.toNat_succ (room : s.bufferIdx.toNat < 255) :
    (s.bufferIdx + 1).toNat = s.bufferIdx.toNat + 1 := toNat_add_of_lt (by simp; omega)

theorem Os.line_append (room : s.bufferIdx.toNat < 255) (c : UInt8) :
    (s.commandBuffer.write8 s.bufferIdx.toNat c).bytes 0 (s.bufferIdx + 1).toNat = s.line ++ [c] := by
  have kept : (s.commandBuffer.write8 s.bufferIdx.toNat c).bytes 0 s.bufferIdx.toNat = s.line :=
    Mem.bytes_congr fun x _ upper => s.commandBuffer.write8_other c (by omega)
  rw [Os.toNat_succ room, Mem.bytes_add, kept, Mem.bytes_one, Nat.zero_add, Mem.write8_same]

/-- The editor edits the line, whatever is in it. -/
theorem shellInput_line (index : s.bufferIdx.toNat ≤ 255) (env : Env) (other : c ≠ newline) :
    ∃ t, shellInput env c s = some (t, .returned) ∧ t.toStore = s.toStore ∧
      t.line = editLine s.line c ∧ t.bufferIdx.toNat ≤ 255 ∧
      (c = backspace → t.commandBuffer = s.commandBuffer) := by
  have length := s.length_line
  rw [shellInput, if_neg other]
  by_cases back : c = backspace
  · subst back
    rw [if_pos rfl]
    by_cases some_ : s.bufferIdx > 0
    · have fewer := Os.toNat_pred some_
      refine ⟨_, if_pos some_, rfl, (Os.line_backspace some_).trans (if_pos rfl).symm, ?_,
        fun _ => rfl⟩
      dsimp only
      omega
    · have empty : s.line = [] :=
        Os.line_eq_nil_iff.mpr (UInt32.le_antisymm (UInt32.not_lt.mp some_) (UInt32.zero_le))
      refine ⟨s, if_neg some_, rfl, ?_, index, fun _ => rfl⟩
      rw [empty]
      rfl
  · rw [if_neg back]
    by_cases room : s.bufferIdx.toNat < 255
    · have more := Os.toNat_succ room
      refine ⟨_, if_pos (UInt32.lt_iff_toNat_lt.mpr room), rfl, ?_, ?_, fun same => absurd same back⟩
      · rw [editLine, if_neg back, if_pos (by omega)]
        exact Os.line_append room c
      · dsimp only
        omega
    · have full : ¬s.bufferIdx < maxCommandLen - 1 := fun below =>
        room (UInt32.lt_iff_toNat_lt.mp below)
      refine ⟨s, if_neg full, rfl, ?_, index, fun same => absurd same back⟩
      rw [editLine, if_neg back, if_neg (by omega)]

theorem editLine_plain {line : List UInt8} (plain : Plain c) (room : line.length < 255) :
    editLine line c = line ++ [c] := by
  rw [editLine, if_neg plain.2.2, if_pos room]

/-- A line with other characters in front of it is edited in the same way. -/
theorem suffix_editLine {line buffer : List UInt8} (kept : line <:+ buffer)
    (limit : buffer.length ≤ 255)
    (room : c ≠ backspace → buffer.length < 255 ∨ line.length = 255) :
    editLine line c <:+ editLine buffer c := by
  have shorter := kept.length_le
  obtain ⟨old, rfl⟩ := kept
  by_cases back : c = backspace
  · rw [editLine, if_pos back, editLine, if_pos back]
    by_cases empty : line = []
    · simp [empty]
    · rw [List.dropLast_append_of_ne_nil empty]
      exact List.suffix_append ..
  · rw [editLine, if_neg back, editLine, if_neg back]
    rcases room back with room | full
    · rw [if_pos (shorter.trans_lt room), if_pos room, List.append_assoc]
      exact List.suffix_append ..
    · -- a line of 255 characters is all that there is
      have none_ : old = [] := by
        rw [List.length_append] at limit
        exact List.length_eq_zero_iff.mp (by omega)
      rw [none_, List.nil_append]

/-- Editing leaves only characters in the line. -/
theorem plain_editLine {line : List UInt8} (plain : ∀ b ∈ line, Plain b) (key : c ≠ 0)
    (other : c ≠ newline) : ∀ b ∈ editLine line c, Plain b := by
  intro b member
  rw [editLine] at member
  split_ifs at member with back
  · exact plain b (List.mem_of_mem_dropLast member)
  · rw [List.mem_append, List.mem_singleton] at member
    rcases member with old | rfl
    · exact plain b old
    · exact ⟨key, other, back⟩
  · exact plain b member

theorem shellInput_edit (inv : EditInv s) (env : Env) (key : c ≠ 0) (other : c ≠ newline) :
    ∃ t, shellInput env c s = some (t, .returned) ∧ t.toStore = s.toStore ∧
      t.line = editLine s.line c ∧ EditInv t := by
  obtain ⟨t, result, store, line, index, -⟩ := shellInput_line inv.index env other
  exact ⟨t, result, store, line, index, line ▸ plain_editLine inv.plain key other⟩

/-! ### Enter -/

def prompt : List VgaCall :=
  .setColor .lightCyan .black :: printed "frisca-os> " ++ [.setColor .white .black]

theorem printPrompt_eq : printPrompt = some prompt := by simp [printPrompt, prompt]

theorem endCommand_eq (s : Os) :
    endCommand s = some { s with bufferIdx := 0, vga := s.vga ++ prompt } := by
  simp [endCommand, printPrompt_eq, Os.print]

theorem afterSleep_eq (s : Os) : afterSleep s =
    some { s with bufferIdx := 0, vga := s.vga ++ (printed "Done!\n" ++ prompt) } := by
  simp [afterSleep, endCommand_eq, Os.print]

/-- The state in which a line is dispatched. -/
def Os.entered (s : Os) : Os :=
  { s with
    commandBuffer := s.commandBuffer.write8 s.bufferIdx.toNat 0
    vga := s.vga ++ printed "\n" }

theorem EditInv.held (inv : EditInv s) : LineHeld s.entered s.line := by
  have index := inv.index
  have length := s.length_line
  refine ⟨?_, inv.noNul, by omega⟩
  rw [Mem.bytes_append, Nat.zero_add, length]
  constructor
  · exact Mem.bytes_congr fun x _ upper => s.commandBuffer.write8_other 0 (by omega)
  · exact congrArg (fun b => [b]) (Mem.write8_same ..)

theorem executeCommand_empty (empty : s.bufferIdx = 0) : executeCommand env s =
    some ({ s with vga := s.vga ++ (printed "\n" ++ prompt) }, .returned) := by
  simp [executeCommand, empty, Os.print, printPrompt_eq]

theorem executeCommand_line (inv : EditInv s) (env : Env) (nonempty : s.bufferIdx ≠ 0) :
    executeCommand env s = (runCommand env s.entered (commandOf s.line)).bind fun (t, progress) =>
      if progress = .returned then (endCommand t).map fun t => (t, .returned)
      else some (t, progress) := by
  obtain ⟨x, bytes⟩ := inv.held.suffix (p := []) (q := s.line)
  have dispatched : dispatch (s.entered.commandBytes 0) commandTable = some (commandOf s.line) :=
    bytes ▸ dispatch_commandOf inv.noNul
  simp only [Os.entered] at dispatched ⊢
  simp only [executeCommand, Os.print, vgaWrite_literal, Option.map_some, Option.bind_eq_bind,
    Option.bind_some, if_neg nonempty, dispatched]
  rfl

/-- What a call of `execute_command` leaves behind. -/
structure Executed (s t : Os) (progress : Progress) : Prop where
  ended : progress = (commandOf s.line).progress
  effect : ∃ file, Requested s.line file ∧ StoreEffect s.toStore file t.toStore
  returned : progress = .returned → t.bufferIdx = 0
  -- until the command returns the buffer holds its line
  blocked : progress ≠ .returned → t.line = s.line ∧ t.bufferIdx = s.bufferIdx

theorem executeCommand_executed (store : StoreInv L s.toStore) (inv : EditInv s) (env : Env) :
    ∃ t progress, executeCommand env s = some (t, progress) ∧ Executed s t progress := by
  by_cases empty : s.bufferIdx = 0
  · have line := Os.line_eq_nil_iff.mpr empty
    refine ⟨_, _, executeCommand_empty empty, line ▸ rfl, ⟨none, ?_, .kept⟩, fun _ => empty,
      absurd rfl⟩
    rw [line]
    exact .nothing fun f c _ _ _ same => by cases same
  · obtain ⟨t, file, result, index, buffer, asked, effect⟩ :=
      runCommand_answers (s := s.entered) store env inv.held
    rw [executeCommand_line inv env empty, result, Option.bind_some]
    by_cases returns : (commandOf s.line).progress = .returned
    · refine ⟨{ t with bufferIdx := 0, vga := t.vga ++ prompt }, .returned, ?_, returns.symm,
        ⟨file, asked, effect⟩, fun _ => rfl, absurd rfl⟩
      dsimp only
      rw [if_pos returns, endCommand_eq]
      rfl
    · refine ⟨t, _, if_neg returns, rfl, ⟨file, asked, effect⟩, fun same => absurd same returns,
        fun _ => ⟨?_, index⟩⟩
      have other : commandOf s.line ≠ .write := fun same => returns (same ▸ rfl)
      rw [Os.line, index, buffer other]
      exact Mem.bytes_congr fun x _ upper =>
        s.commandBuffer.write8_other 0 (by rw [Nat.zero_add] at upper; exact Nat.ne_of_lt upper)

theorem Executed.edit {progress : Progress} (executed : Executed s t progress) (inv : EditInv s) :
    EditInv t := by
  by_cases returns : progress = .returned
  · exact .of_empty (executed.returned returns)
  · obtain ⟨line, index⟩ := executed.blocked returns
    exact ⟨index ▸ inv.index, line ▸ inv.plain⟩

end FriscaOS
