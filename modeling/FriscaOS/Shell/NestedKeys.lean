import FriscaOS.Shell.NestedCalls

/-! What was typed against what calls of `execute_command` find in the buffer. All calls share the
buffer and its index, and a call resets the index only at its end. -/
namespace FriscaOS

open ByteMemory Function Transition

/-! ### What is typed -/

/-- The lines entered so far and the one that is being typed, by the rules of the editor. -/
structure Typing where
  lines : List (List UInt8)
  line : List UInt8

def Typing.step (t : Typing) : NestedOp → Typing
  | .key _ c => { t with line := editLine t.line c }
  | .enter => ⟨t.lines ++ [t.line], []⟩
  | .advance .. => t
  | .tasks _ => t

structure TypedShell where
  typing : Typing
  shell : NestedShell

def TypedShell.idle (os : Os) : TypedShell := ⟨⟨[], []⟩, .idle os⟩

/-- A step of the shell, with the key that was typed if it is one. -/
structure TypedStep (L : KernelLayout) (s : TypedShell) (op : NestedOp) (t : TypedShell) : Prop where
  taken : NestedStep L s.shell op t.shell
  typed : t.typing = s.typing.step op

/-! ### The condition -/

/-- The call still looks at its line. -/
def Phase.readsLine : Phase → Bool
  | entered => true
  | comparing _ => true
  | running command => command.readsLine
  | sleeping => false
  | finishing => false

namespace NestedShell

/-- Every call that was started has put the terminator behind its line. -/
def NoneEntered (s : NestedShell) : Prop := ∀ call, s.calls call ≠ some .entered

def NoneReads (s : NestedShell) : Prop :=
  ∀ call phase, s.calls call = some phase → phase.readsLine = false

end NestedShell

/-- The step does not mix the line that is being typed with that of a call in progress. -/
def Apart (s : TypedShell) : NestedOp → Prop
  | .key _ c =>
    if c = backspace then s.shell.os.bufferIdx = 0 ∨ s.shell.NoneEntered
    else s.shell.NoneReads ∧ (s.shell.os.bufferIdx.toNat < 255 ∨ s.typing.line.length = 255)
  -- nothing is left in the buffer in front of the line
  | .enter => s.shell.os.bufferIdx.toNat = s.typing.line.length
  -- the end of a call empties the buffer
  | .advance _ call => s.shell.calls call = some .finishing →
      s.typing.line = [] ∧ (s.shell.os.bufferIdx = 0 ∨ s.shell.NoneEntered)
  | .tasks _ => True

/-! ### The property -/

/-- What a call finds of the line that it was started for. -/
def OwnLine (os : Os) (line : List UInt8) : Phase → Prop
  | .entered => os.line = line
  | .comparing _ => ∃ x, os.commandBytes 0 = line ++ 0 :: x
  | .running command => dispatch (line ++ [0]) commandTable = some command ∧
      (command.readsLine = true → ∃ x, os.commandBytes 0 = line ++ 0 :: x)
  | .sleeping => True
  | .finishing => True

/-- What a call finds of its line, with the tests that are left. -/
def Finds (os : Os) (line : List UInt8) : Phase → Prop
  | .entered => os.line = line
  | .comparing rest => line ≠ [] ∧ LineHeld os line ∧ commandIn line rest = commandOf line ∧
      ∀ entry ∈ rest, entry.1.Sound
  | .running command => command = commandOf line ∧
      (command.readsLine = true → line ≠ [] ∧ LineHeld os line)
  | .sleeping => True
  | .finishing => True

variable {L : KernelLayout} {s t : TypedShell} {os os' : Os} {env : Env} {c : UInt8} {call : Nat}
  {line : List UInt8} {phase : Phase} {next : Option Phase} {op : NestedOp} {ops : List NestedOp}
  {command : Command}

theorem LineHeld.congr (held : LineHeld os line) (buffer : os'.commandBuffer = os.commandBuffer) :
    LineHeld os' line := ⟨buffer ▸ held.bytes, held.noNul, held.short⟩

theorem LineHeld.text (held : LineHeld os line) : ∃ x, os.commandBytes 0 = line ++ 0 :: x :=
  held.suffix (p := [])

namespace Finds

theorem own (finds : Finds os line phase) (noNul : 0 ∉ line) : OwnLine os line phase := by
  cases phase with
  | entered => exact finds
  | comparing rest => exact finds.2.1.text
  | running command =>
    obtain ⟨rfl, reads⟩ := finds
    exact ⟨dispatch_commandOf noNul, fun again => (reads again).2.text⟩
  | sleeping | finishing => trivial

/-- A call that does not look at its line any more does not depend on the buffer. -/
theorem other (finds : Finds os line phase) (quiet : phase.readsLine = false) (os' : Os) :
    Finds os' line phase := by
  cases phase with
  | entered | comparing => cases quiet
  | running command => exact ⟨finds.1, fun reads => absurd (quiet.symm.trans reads) (by decide)⟩
  | sleeping | finishing => trivial

theorem congr (finds : Finds os line phase) (buffer : os'.commandBuffer = os.commandBuffer)
    (entered : phase = .entered → os'.line = os.line) : Finds os' line phase := by
  cases phase with
  | entered => exact (entered rfl).trans finds
  | comparing rest => exact ⟨finds.1, finds.2.1.congr buffer, finds.2.2⟩
  | running command =>
    exact ⟨finds.1, fun reads => (finds.2 reads).imp_right fun held => held.congr buffer⟩
  | sleeping | finishing => trivial

/-- A call that still looks at an empty line has just been started. -/
theorem entered_of_nil (finds : Finds os [] phase) (reads : phase.readsLine = true) :
    phase = .entered := by
  cases phase with
  | entered => rfl
  | comparing rest => exact absurd rfl finds.1
  | running command => exact absurd rfl (finds.2 reads).1
  | sleeping | finishing => cases reads

end Finds

/-- What a step of a call does. -/
structure Continued (L : KernelLayout) (os : Os) (line : List UInt8) (phase : Phase) (os' : Os)
    (next : Option Phase) : Prop where
  store : StoreInv L os'.toStore
  index : os'.bufferIdx = os.bufferIdx ∨ phase = .finishing ∧ os'.bufferIdx = 0
  -- only a call that looks at its line stores to the buffer
  buffer : os'.commandBuffer = os.commandBuffer ∨ phase.readsLine = true ∧ line ≠ []
  finds : ∀ p, next = some p → Finds os' line p ∧ (p.readsLine = true → phase.readsLine = true)

/-- The terminator is stored behind the line. -/
theorem Finds.terminate (finds : Finds os line .entered) (index : os.bufferIdx.toNat ≤ 255)
    (plain : ∀ b ∈ line, Plain b) :
    LineHeld { os with commandBuffer := os.commandBuffer.write8 os.bufferIdx.toNat 0 } line := by
  have same : os.line = line := finds
  have edit : EditInv os := ⟨index, same ▸ plain⟩
  exact same ▸ edit.held.congr rfl

/-- The command of a call does not touch the buffer, unless it looks at the line. -/
theorem Finds.runs (finds : Finds os line (.running command)) (store : StoreInv L os.toStore)
    (env : Env) : ∃ os', runCommand env os command = some (os', command.progress) ∧
      os'.bufferIdx = os.bufferIdx ∧
      (os'.commandBuffer = os.commandBuffer ∨ command.readsLine = true ∧ line ≠ []) ∧
      StoreInv L os'.toStore := by
  obtain ⟨rfl, again⟩ := finds
  by_cases reads : (commandOf line).readsLine = true
  · obtain ⟨nonempty, held⟩ := again reads
    obtain ⟨os', file, result, index, -, -, effect⟩ := runCommand_answers store env held
    exact ⟨os', result, index, .inr ⟨reads, nonempty⟩, effect.inv store⟩
  · obtain ⟨os', result, index, buffer, effect⟩ :=
      runCommand_other store env (Bool.not_eq_true _ ▸ reads)
    exact ⟨os', result, index, .inl buffer, effect.inv store⟩

/-- A comparison decides whether the test holds of the line. -/
theorem Finds.compares {test : LineTest} {rest : List (LineTest × Command)}
    (finds : Finds os line (.comparing ((test, command) :: rest))) (env : Env) :
    ∃ phase, continueCall env os (.comparing ((test, command) :: rest)) = some (os, some phase) ∧
      Finds os line phase := by
  obtain ⟨nonempty, held, chosen, sound⟩ := finds
  obtain ⟨x, text⟩ := held.text
  obtain ⟨d, compared, decides⟩ := (sound _ (.head _)).compare (x := x) held.noNul
  rw [← text] at compared
  rw [commandIn] at chosen
  by_cases holds : test.Holds line
  · rw [if_pos holds] at chosen
    exact ⟨.running command, by simp [continueCall, compared, decides.mpr holds], chosen,
      fun _ => ⟨nonempty, held⟩⟩
  · rw [if_neg holds] at chosen
    exact ⟨.comparing rest, by simp [continueCall, compared, mt decides.mp holds], nonempty, held,
      chosen, fun entry member => sound entry (.tail _ member)⟩

/-- A call finds its line, and so its next step is that of the command that the line stands for. -/
theorem Finds.continued (finds : Finds os line phase) (store : StoreInv L os.toStore)
    (index : os.bufferIdx.toNat ≤ 255) (plain : ∀ b ∈ line, Plain b) (env : Env) :
    (∃ command, phase = .running command ∧ command.progress = .halted ∧
      continueCall env os phase = none) ∨
    ∃ os' next, continueCall env os phase = some (os', next) ∧
      Continued L os line phase os' next := by
  cases phase with
  | entered =>
    right
    by_cases empty : os.bufferIdx = 0
    · exact ⟨_, none, continueCall_empty env empty, store, .inl rfl, .inl rfl,
        fun p same => by cases same⟩
    · have nonempty : line ≠ [] := fun none_ => empty (Os.line_eq_nil_iff.mp (finds.trans none_))
      refine ⟨_, _, if_neg empty, store, .inl rfl, .inr ⟨rfl, nonempty⟩, fun p same => ?_⟩
      cases same
      exact ⟨⟨nonempty, finds.terminate index plain, rfl, commandTable_sound⟩, fun _ => rfl⟩
  | comparing rest =>
    right
    cases rest with
    | nil =>
      obtain ⟨nonempty, held, chosen, -⟩ := finds
      refine ⟨os, _, rfl, store, .inl rfl, .inl rfl, fun p same => ?_⟩
      cases same
      exact ⟨⟨chosen, fun _ => ⟨nonempty, held⟩⟩, fun _ => rfl⟩
    | cons entry rest =>
      obtain ⟨phase, step, found⟩ := finds.compares env
      refine ⟨os, _, step, store, .inl rfl, .inl rfl, fun p same => ?_⟩
      cases same
      exact ⟨found, fun _ => rfl⟩
  | running command =>
    obtain ⟨os', result, kept, buffer, store'⟩ := finds.runs store env
    by_cases halts : command.progress = .halted
    · exact .inl ⟨command, rfl, halts, by simp [continueCall, result, halts]⟩
    · refine .inr ⟨os', _, continueCall_running result halts, store', .inl kept, buffer,
        fun p same => ?_⟩
      -- the call sleeps, or its branch is done
      have quiet : Finds os' line p ∧ p.readsLine = false := by
        rcases ends : command.progress
        all_goals
          rw [ends] at same halts
          cases same
        · exact ⟨trivial, rfl⟩
        · exact ⟨trivial, rfl⟩
      exact ⟨quiet.1, fun reads => absurd (quiet.2.symm.trans reads) (by decide)⟩
  | sleeping =>
    refine .inr ⟨_, _, continueCall_sleeping env os, store, .inl rfl, .inl rfl,
      fun p same => ?_⟩
    cases same
    exact ⟨trivial, fun reads => by cases reads⟩
  | finishing =>
    exact .inr ⟨_, none, continueCall_finishing env os, store, .inr ⟨rfl, rfl⟩,
      .inl rfl, fun p same => by cases same⟩

/-! ### The invariant -/

structure NestedInv (L : KernelLayout) (s : TypedShell) : Prop where
  store : StoreInv L s.shell.os.toStore
  index : s.shell.os.bufferIdx.toNat ≤ 255
  count : s.typing.lines.length = s.shell.started
  plain : ∀ line, line = s.typing.line ∨ line ∈ s.typing.lines → ∀ b ∈ line, Plain b
  kept : s.typing.line <:+ s.shell.os.line
  calls : ∀ call phase, s.shell.calls call = some phase → ∃ line,
    s.typing.lines[call]? = some line ∧ Finds s.shell.os line phase
  -- nothing is typed while a call looks at its line
  quiet : ∀ call phase, s.shell.calls call = some phase → phase.readsLine = true →
    s.typing.line = []
  -- and of two calls that look at theirs one has found an empty line
  alone : ∀ call phase other phase', s.shell.calls call = some phase → phase.readsLine = true →
    s.shell.calls other = some phase' → phase'.readsLine = true → call ≠ other →
      s.typing.lines[call]? = some [] ∨ s.typing.lines[other]? = some []

namespace NestedInv

theorem plain_of_call (inv : NestedInv L s) (known : s.typing.lines[call]? = some line) :
    ∀ b ∈ line, Plain b := inv.plain line (.inr (List.mem_of_getElem? known))

/-- A key that is not Enter. -/
theorem key (inv : NestedInv L s) (valid : c ≠ 0) (other : c ≠ newline) (apart : Apart s (.key env c))
    (result : shellInput env c s.shell.os = some (os', .returned)) :
    NestedInv L ⟨s.typing.step (.key env c), { s.shell with os := os' }⟩ := by
  obtain ⟨os'', result', store, edited, index, buffer⟩ := shellInput_line inv.index env other
  rw [result', Option.some.injEq, Prod.mk.injEq] at result
  obtain ⟨rfl, -⟩ := result
  rw [Apart, ← Os.length_line] at apart
  have limit : s.shell.os.line.length ≤ 255 := s.shell.os.length_line ▸ inv.index
  refine ⟨store ▸ inv.store, index, inv.count, ?_, ?_, fun call phase here => ?_,
    fun call phase here reads => ?_, inv.alone⟩
  · rintro line (rfl | earlier)
    · exact plain_editLine (inv.plain _ (.inl rfl)) valid other
    · exact inv.plain line (.inr earlier)
  · rw [edited]
    exact suffix_editLine inv.kept limit fun back => (if_neg back ▸ apart).2
  · obtain ⟨line, known, finds⟩ := inv.calls call phase here
    refine ⟨line, known, ?_⟩
    by_cases back : c = backspace
    · -- backspace stores nothing, and a call that has just been started has found an empty line
      refine finds.congr (buffer back) fun entered => ?_
      rw [if_pos back] at apart
      rcases apart with none_ | stored
      · rw [edited, Os.line_eq_nil_iff.mpr none_, editLine, if_pos back]
        rfl
      · exact absurd (entered ▸ here) (stored call)
    · rw [if_neg back] at apart
      exact finds.other (apart.1 call phase here) _
  · -- while a call looks at its line nothing but backspace is typed
    have nothing := inv.quiet call phase here reads
    by_cases back : c = backspace
    · rw [Typing.step, nothing, editLine, if_pos back]
      rfl
    · rw [if_neg back] at apart
      cases (apart.1 call phase here).symm.trans reads

/-- The calls of a state in which one more was started. -/
theorem started_or (inv : NestedInv L s) {phase' : Phase}
    (here : (s.shell.reached os' (some .entered)).calls call = some phase') :
    call = s.shell.started ∧ phase' = .entered ∧
        (s.typing.step .enter).lines[call]? = some s.typing.line ∨
      call ≠ s.shell.started ∧ s.shell.calls call = some phase' ∧
        (s.typing.step .enter).lines[call]? = s.typing.lines[call]? := by
  by_cases new : call = s.shell.started
  · subst new
    rw [NestedShell.reached_self, Option.some.injEq] at here
    refine .inl ⟨rfl, here.symm, ?_⟩
    rw [Typing.step, ← inv.count, List.getElem?_concat_length]
  · rw [NestedShell.reached_other new] at here
    obtain ⟨line, known, -⟩ := inv.calls call phase' here
    obtain ⟨old, -⟩ := List.getElem?_eq_some_iff.mp known
    exact .inr ⟨new, here, List.getElem?_append_left old⟩

/-- Enter starts a call with the line that was typed. -/
theorem enter (inv : NestedInv L s) (apart : Apart s .enter)
    (result : s.shell.os.print (vgaWrite (literal "\n")) = some os') :
    NestedInv L ⟨s.typing.step .enter, s.shell.reached os' (some .entered)⟩ := by
  rw [vgaWrite_literal, Os.print, Option.map_some, Option.some.injEq] at result
  subst result
  have whole : s.shell.os.line = s.typing.line := by
    apply Eq.symm
    apply inv.kept.eq_of_length
    rw [Os.length_line]
    exact apart.symm
  -- the invariant speaks of one call more, and of an empty line under edit
  refine ⟨inv.store, inv.index, ?_, ?_, List.nil_suffix, fun call phase here => ?_,
    fun call phase here reads => rfl, fun call phase other phase' here reads there reads' apart => ?_⟩
  · simp [Typing.step, NestedShell.reached, inv.count]
  · rintro line (rfl | known) b member
    · cases member
    · rcases List.mem_append.mp known with earlier | new
      · exact inv.plain line (.inr earlier) b member
      · exact inv.plain line (.inl (List.mem_singleton.mp new)) b member
  · rcases inv.started_or here with ⟨-, rfl, known⟩ | ⟨-, before, known⟩
    · exact ⟨_, known, whole⟩
    · obtain ⟨line, known', finds⟩ := inv.calls call phase before
      exact ⟨line, known.trans known', finds.congr rfl fun _ => rfl⟩
  · -- a line that is entered while another call looks at its own is empty
    rcases inv.started_or here with ⟨new, -, known⟩ | ⟨-, before, known⟩
    · rcases inv.started_or there with ⟨new', -, -⟩ | ⟨-, before', -⟩
      · exact absurd (new.trans new'.symm) apart
      · exact .inl (inv.quiet _ _ before' reads' ▸ known)
    · rcases inv.started_or there with ⟨-, -, known'⟩ | ⟨-, before', known'⟩
      · exact .inr (inv.quiet _ _ before reads ▸ known')
      · rw [known, known']
        exact inv.alone call phase other phase' before reads before' reads' apart

/-- The other calls do not notice a step of a call. -/
theorem others_find (inv : NestedInv L s) (apart : Apart s (.advance env call))
    (here : s.shell.calls call = some phase) (known : s.typing.lines[call]? = some line)
    (step : Continued L s.shell.os line phase os' next) {other : Nat} {phase' : Phase}
    {line' : List UInt8} (different : call ≠ other) (there : s.shell.calls other = some phase')
    (known' : s.typing.lines[other]? = some line') (finds : Finds s.shell.os line' phase') :
    Finds os' line' phase' := by
  by_cases reads : phase'.readsLine = true
  · rcases step.buffer with buffer | ⟨looks, nonempty⟩
    · refine finds.congr buffer fun entered => ?_
      rcases step.index with index | ⟨ends, zero⟩
      · rw [Os.line, Os.line, buffer, index]
      · rcases (apart (ends ▸ here)).2 with empty | stored
        · rw [Os.line_eq_nil_iff.mpr zero, Os.line_eq_nil_iff.mpr empty]
        · exact absurd (entered ▸ there) (stored other)
    · -- the call has a line, so the other one has none
      have empty : line' = [] := by
        rcases inv.alone call phase other phase' here looks there reads different with none_ | none_
        · exact absurd (Option.some.inj (known.symm.trans none_)) nonempty
        · exact Option.some.inj (known'.symm.trans none_)
      subst empty
      obtain rfl := finds.entered_of_nil reads
      rcases step.index with index | ⟨rfl, -⟩
      · exact Os.line_eq_nil_iff.mpr (index.trans (Os.line_eq_nil_iff.mp finds))
      · cases looks
  · exact finds.other (Bool.not_eq_true _ ▸ reads) os'

/-- A step of a call. -/
theorem goOn (inv : NestedInv L s) (apart : Apart s (.advance env call))
    (here : s.shell.calls call = some phase)
    (result : continueCall env s.shell.os phase = some (os', next)) :
    NestedInv L ⟨s.typing, s.shell.goOn call os' next⟩ := by
  obtain ⟨line, known, finds⟩ := inv.calls call phase here
  rcases finds.continued inv.store inv.index (inv.plain_of_call known) env with
    ⟨-, -, -, stuck⟩ | ⟨os'', next', result', step⟩
  · cases stuck.symm.trans result
  rw [result', Option.some.injEq, Prod.mk.injEq] at result
  obtain ⟨rfl, rfl⟩ := result
  -- a call that looks at its line afterwards did so before
  have before {x : Nat} {p : Phase} (after : (s.shell.goOn call os'' next').calls x = some p) :
      ∃ q, s.shell.calls x = some q ∧ (p.readsLine = true → q.readsLine = true) := by
    by_cases same : x = call
    · subst same
      rw [NestedShell.goOn_self] at after
      exact ⟨phase, here, (step.finds p after).2⟩
    · rw [NestedShell.goOn_other same] at after
      exact ⟨p, after, id⟩
  -- the index and the line under edit, then what the calls find, then who else looks
  refine ⟨step.store, ?_, inv.count, inv.plain, ?_, fun x p after => ?_, fun x p after reads => ?_,
    fun x p y q after reads after' reads' different => ?_⟩
  · rcases step.index with index | ⟨-, zero⟩
    · exact index ▸ inv.index
    · exact zero ▸ Nat.zero_le _
  · rcases step.buffer with buffer | ⟨looks, -⟩
    · rcases step.index with index | ⟨rfl, -⟩
      · have same : os''.line = s.shell.os.line := by rw [Os.line, Os.line, buffer, index]
        exact same ▸ inv.kept
      · exact (apart here).1 ▸ List.nil_suffix
    · exact inv.quiet call phase here looks ▸ List.nil_suffix
  · by_cases same : x = call
    · subst same
      rw [NestedShell.goOn_self] at after
      exact ⟨line, known, (step.finds p after).1⟩
    · rw [NestedShell.goOn_other same] at after
      obtain ⟨line', known', finds'⟩ := inv.calls x p after
      exact ⟨line', known', inv.others_find apart here known step (Ne.symm same) after known' finds'⟩
  · obtain ⟨q, old, looked⟩ := before after
    exact inv.quiet x q old (looked reads)
  · obtain ⟨p', old, looked⟩ := before after
    obtain ⟨q', old', looked'⟩ := before after'
    exact inv.alone x p' y q' old (looked reads) old' (looked' reads') different

theorem step (inv : NestedInv L s) (taken : TypedStep L s op t) (apart : Apart s op) :
    NestedInv L t := by
  obtain ⟨typing, shell⟩ := t
  obtain ⟨taken, rfl⟩ := taken
  cases taken with
  | key valid other result => exact inv.key valid other apart result
  | enter result => exact inv.enter apart result
  | advance here result => exact inv.goOn apart here result
  | @tasks mem change =>
    obtain ⟨k, kernel, tracks⟩ := inv.store.kernel
    obtain ⟨-, -, -, -, store⟩ := inv.store.tasks kernel tracks change
    refine ⟨store, inv.index, inv.count, inv.plain, inv.kept, fun call phase here => ?_, inv.quiet,
      inv.alone⟩
    obtain ⟨line, known, finds⟩ := inv.calls call phase here
    exact ⟨line, known, finds.congr rfl fun _ => rfl⟩

end NestedInv

/-! ### Runs -/

namespace NestedShell

/-- The call has chosen its command, and the command is over. -/
def Past (s : NestedShell) (call : Nat) : Prop := call < s.started ∧
  ∀ phase, s.calls call = some phase → phase = .sleeping ∨ phase = .finishing

variable {a b : NestedShell}

theorem Past.step (past : a.Past call) (taken : NestedStep L a op b) : b.Past call := by
  obtain ⟨started, phases⟩ := past
  cases taken with
  | key => exact ⟨started, phases⟩
  | enter =>
    refine ⟨Nat.lt_succ_of_lt started, fun phase here => phases phase ?_⟩
    rwa [reached_other (Nat.ne_of_lt started)] at here
  | @advance env call' phase os next here result =>
    refine ⟨started, fun phase' after => ?_⟩
    by_cases same : call = call'
    · subst same
      rw [goOn_self] at after
      subst after
      rcases phases phase here with rfl | rfl
      · rw [continueCall_sleeping] at result
        cases result
        exact .inr rfl
      · rw [continueCall_finishing] at result
        cases result
    · rw [goOn_other same] at after
      exact phases phase' after
  | tasks => exact ⟨started, phases⟩

theorem Past.run (past : a.Past call) (run : Run (NestedStep L) a ops b) : b.Past call :=
  run.invariant (fun s => s.Past call) (fun _ _ _ past taken => past.step taken) past

end NestedShell

end FriscaOS
