import FriscaOS.Shell.ScreenText
import FriscaOS.Shell.ShellRuns

/-! What commands print stays on the screen: nothing is behind the cursor, and the lines that a
command prints are in the rows above the next prompt. -/
namespace FriscaOS

open ByteMemory PaperTerminal Transition

/-! ### Calls are only added -/

/-- What is printed comes behind what was printed before. -/
structure Grows (s : Os) (r : Option Os) : Prop where
  vga : ∀ t, r = some t → s.vga <+: t.vga

variable {L : KernelLayout} {s t : ShellSystem} {os os' u : Os} {op : ShellOp} {ops : List ShellOp}
  {env : Env} {c : UInt8} {p : Page} {progress : Progress} {lines : List (List UInt8)} {v : VgaDriver}

theorem grows_refl (os : Os) : Grows os (some os) where
  vga t result := by
    cases result
    exact List.prefix_refl _

theorem grows_print (os : Os) (calls : Option (List VgaCall)) : Grows os (os.print calls) where
  vga t result := by
    obtain ⟨calls, -, rfl⟩ := Option.map_eq_some_iff.mp result
    exact List.prefix_append _ _

/-- The other fields do not matter. -/
theorem Grows.of_vga {r : Option Os} (grows : Grows os' r) (same : os.vga = os'.vga) : Grows os r where
  vga t result := same ▸ grows.vga t result

theorem Grows.bind {α : Type} {x : Option α} {k : α → Option Os} (rest : ∀ a, Grows os (k a)) :
    Grows os (x >>= k) where
  vga t result := by
    obtain ⟨a, -, later⟩ := Option.bind_eq_some_iff.mp result
    exact (rest a).vga t later

theorem Grows.then {r : Option Os} {k : Os → Option Os} (first : Grows os r)
    (rest : ∀ u, Grows u (k u)) : Grows os (r >>= k) where
  vga t result := by
    obtain ⟨u, here, later⟩ := Option.bind_eq_some_iff.mp result
    exact (first.vga u here).trans ((rest u).vga t later)

theorem Grows.ite {q : Prop} [Decidable q] {r r' : Option Os} (yes : Grows os r)
    (no : Grows os r') : Grows os (if q then r else r') := by
  split
  · exact yes
  · exact no

theorem Grows.paired {r : Option Os} (grows : Grows os r) (progress : Progress) :
    Grows os (Option.map Prod.fst (r >>= fun t => pure (t, progress))) := by
  cases r with
  | none => exact ⟨fun t => nofun⟩
  | some u => exact grows

/-! ### The commands -/

theorem grows_timer (env : Env) (os : Os) : Grows os (timerCommand env os) :=
  (grows_print _ _).then fun _ => (grows_print _ _).then fun _ => (grows_print _ _).then fun _ =>
    (grows_print _ _).then fun _ => grows_print _ _

theorem grows_mem (env : Env) (os : Os) : Grows os (memCommand env os) :=
  (grows_print _ _).then fun _ => (grows_print _ _).then fun _ => grows_print _ _

theorem grows_testmem (env : Env) (os : Os) : Grows os (testmemCommand env os) := by
  refine (grows_print _ _).then fun u => ?_
  rcases pmmAllocBlock u.pmm with ⟨pmm, ptr1⟩
  refine Grows.of_vga ((grows_print _ _).then fun _ => (grows_print _ _).then fun _ => ?_) rfl
  exact (grows_print _ _).then fun u' => (grows_print _ _).of_vga rfl

theorem grows_testheap (os : Os) : Grows os (testheapCommand os) := by
  refine (grows_print _ _).then fun u => Grows.bind fun (heap, str) => ?_
  refine Grows.ite ?_ ((grows_print _ _).of_vga rfl)
  refine Grows.of_vga ((grows_print _ _).then fun u' => ?_) rfl
  exact Grows.bind fun heap' => (grows_print _ _).of_vga rfl

theorem grows_ps (env : Env) (os : Os) : Grows os (psCommand env os) :=
  (grows_print _ _).then fun _ => (grows_print _ _).then fun _ => grows_print _ _

theorem grows_cat (os : Os) : Grows os (catCommand os) := by
  refine Grows.bind fun len => Grows.ite (grows_print _ _) (Grows.bind fun found => ?_)
  cases found with
  | some i => exact Grows.ite (grows_print _ _) (grows_print _ _)
  | none => exact grows_print _ _

theorem grows_writeArguments (os : Os) (filename content : List UInt8) :
    Grows os (writeArguments os filename content) := by
  refine Grows.bind fun len => Grows.ite (Grows.bind fun len' => Grows.ite ?_ (grows_print _ _))
    (grows_print _ _)
  exact Grows.bind fun (heap, vfs, res) => (grows_print _ _).of_vga rfl

theorem grows_write (os : Os) : Grows os (writeCommand os) := by
  refine Grows.bind fun found => ?_
  cases found with
  | some space => exact (grows_writeArguments _ _ _).of_vga rfl
  | none => exact grows_print _ _

theorem grows_unknown (os : Os) : Grows os (unknownCommand os) :=
  (grows_print _ _).then fun _ => (grows_print _ _).then fun _ => (grows_print _ _).then fun _ =>
    (grows_print _ _).then fun _ => grows_print _ _

theorem grows_runCommand (env : Env) (os : Os) (command : Command) :
    Grows os ((runCommand env os command).map Prod.fst) := by
  cases command
  case divzero => exact grows_refl os
  case timer => exact Grows.paired (grows_timer env os) _
  case mem => exact Grows.paired (grows_mem env os) _
  case testmem => exact Grows.paired (grows_testmem env os) _
  case testheap => exact Grows.paired (grows_testheap os) _
  case ps => exact Grows.paired (grows_ps env os) _
  case cat => exact Grows.paired (grows_cat os) _
  case write => exact Grows.paired (grows_write os) _
  case unknown => exact Grows.paired (grows_unknown os) _
  all_goals exact Grows.paired (grows_print ..) _

/-! ### Runs -/

theorem executeCommand_grows (result : executeCommand env os = some (u, progress)) :
    os.vga <+: u.vga := by
  simp only [executeCommand, Option.bind_eq_bind] at result
  obtain ⟨entered, first, rest⟩ := Option.bind_eq_some_iff.mp result
  refine ((grows_print os _).vga entered first).trans ?_
  split at rest
  · obtain ⟨prompted, shown, same⟩ := Option.bind_eq_some_iff.mp rest
    cases same
    exact (grows_print entered _).vga _ shown
  · obtain ⟨command, -, rest⟩ := Option.bind_eq_some_iff.mp rest
    obtain ⟨⟨t, progress'⟩, ran, rest⟩ := Option.bind_eq_some_iff.mp rest
    have grown := (grows_runCommand env _ command).vga t (by rw [ran]; rfl)
    refine List.IsPrefix.trans grown ?_
    dsimp only at rest
    split at rest
    · rw [endCommand_eq] at rest
      cases rest
      exact List.prefix_append _ _
    · cases rest
      exact List.prefix_refl _

theorem shellInput_grows (result : shellInput env c os = some (u, progress)) :
    os.vga <+: u.vga := by
  rw [shellInput] at result
  split_ifs at result
  · exact executeCommand_grows result
  · cases result
    exact List.prefix_append _ _
  · cases result
    exact List.prefix_refl _
  · cases result
    exact List.prefix_append _ _
  · cases result
    exact List.prefix_refl _

theorem ShellStep.grows (taken : ShellStep L s op t) : s.os.vga <+: t.os.vga := by
  cases taken with
  | key _ result => exact shellInput_grows result
  | wake _ result =>
    rw [afterSleep_eq] at result
    cases result
    exact List.prefix_append _ _
  | tasks => exact List.prefix_refl _

/-- `vga_init` comes first. -/
theorem ShellReachable.cleared (reach : ShellReachable L s) :
    [.setColor .white .black, .clear] <+: s.os.vga := by
  obtain ⟨os, ops, idle, run⟩ := reach
  have boot : [.setColor .white .black, .clear] <+: os.vga := by
    obtain ⟨region, m, r, v, buffer, entryPoint, result⟩ := idle
    obtain ⟨b, h, tasks, p, -, -, result'⟩ := kernelMain_some region m r v buffer entryPoint
    rw [result', Option.some.injEq] at result
    subst result
    exact List.prefix_append _ _
  refine run.invariant (fun s => [.setColor .white .black, .clear] <+: s.os.vga) ?_ boot
  intro s op t before taken
  exact List.IsPrefix.trans before taken.grows

/-! ### Behind the cursor -/

/-- Nothing but spaces is behind the cursor. -/
def Page.Tidy (p : Page) : Prop := p.paper.Tidy Cell.char 32

theorem Page.Tidy.putchar (tidy : p.Tidy) (c : UInt8) : (p.putchar c).Tidy := by
  have space : Cell.char p.space = 32 := rfl
  rw [Page.putchar]
  split_ifs
  · exact Paper.Tidy.newline tidy space
  · exact Paper.Tidy.erase tidy space
  · exact Paper.Tidy.print tidy space _

theorem Page.Tidy.replay (tidy : p.Tidy) (calls : List VgaCall) : (p.replay calls).Tidy := by
  induction calls generalizing p with
  | nil => exact tidy
  | cons call calls ih =>
    have next : (call.op.onPage p).Tidy := by
      cases call with
      | putchar c => exact tidy.putchar c
      | setColor foreground background => exact tidy
      | clear => exact Paper.tidy_blank Cell.char p.space
    exact ih next

theorem ShellReachable.tidy (reach : ShellReachable L s) (buffer : UInt32 → UInt16) :
    ((Page.boot buffer).replay s.os.vga).Tidy := by
  obtain ⟨calls, same⟩ := reach.cleared
  have cleared : ((Page.boot buffer).replay [.setColor .white .black, .clear]).Tidy :=
    Paper.tidy_blank Cell.char _
  rw [← same, Page.replay_append]
  exact cleared.replay calls

/-! ### Lines among the calls -/

def VgaCall.char : VgaCall → Option UInt8
  | putchar c => some c
  | _ => none

/-- The calls print this text, in whatever colours. -/
structure Writes (calls : List VgaCall) (text : List UInt8) : Prop where
  keeps : .clear ∉ calls
  text : calls.filterMap VgaCall.char = text

/-- The calls print these lines. -/
structure Prints (calls : List VgaCall) (lines : List (List UInt8)) : Prop where
  writes : Writes calls (textOf lines)
  plain : ∀ line ∈ lines, ∀ c ∈ line, Plain c

theorem Writes.append {calls more : List VgaCall} {text text' : List UInt8}
    (first : Writes calls text) (second : Writes more text') :
    Writes (calls ++ more) (text ++ text') where
  keeps := by
    rw [List.mem_append, not_or]
    exact ⟨first.keeps, second.keeps⟩
  text := by rw [List.filterMap_append, first.text, second.text]

theorem Prints.append {calls more : List VgaCall} {lines' : List (List UInt8)}
    (first : Prints calls lines) (second : Prints more lines') :
    Prints (calls ++ more) (lines ++ lines') where
  writes := by
    rw [textOf_append]
    exact first.writes.append second.writes
  plain := List.forall_mem_append.mpr ⟨first.plain, second.plain⟩

/-- A line that is written to its end. -/
theorem Writes.line {calls : List VgaCall} {text line : List UInt8} (writes : Writes calls text)
    (ends : text = line ++ [newline]) (plain : ∀ c ∈ line, Plain c) : Prints calls [line] where
  writes := by
    rw [textOf, List.flatMap_singleton, ← ends]
    exact writes
  plain := List.forall_mem_singleton.mpr plain

/-- The rows so far and the line behind them, once a character more is printed. -/
def typeset (rows : List (List UInt8) × List UInt8) (c : UInt8) :
    List (List UInt8) × List UInt8 :=
  if c = newline then (rows.1 ++ rowsOf 80 rows.2, []) else (rows.1, rows.2 ++ [c])

theorem foldl_typeset (before : List (List UInt8)) (held text : List UInt8)
    (other : newline ∉ text) : text.foldl typeset (before, held) = (before, held ++ text) := by
  induction text generalizing held with
  | nil => rw [List.foldl_nil, List.append_nil]
  | cons c text ih =>
    obtain ⟨first, rest⟩ := List.ne_and_not_mem_of_not_mem_cons other
    rw [List.foldl_cons, typeset, if_neg first.symm, ih _ rest, List.append_assoc]
    rfl

theorem foldl_typeset_textOf (before : List (List UInt8)) (lines : List (List UInt8))
    (other : ∀ line ∈ lines, newline ∉ line) :
    (textOf lines).foldl typeset (before, []) = (before ++ lines.flatMap (rowsOf 80), []) := by
  induction lines generalizing before with
  | nil => rw [List.flatMap_nil, List.append_nil]; rfl
  | cons line lines ih =>
    obtain ⟨first, rest⟩ := List.forall_mem_cons.mp other
    rw [textOf_cons, List.foldl_append, foldl_typeset _ _ _ first, List.foldl_cons, typeset,
      if_pos rfl, ih _ rest, List.flatMap_cons, List.append_assoc]
    rfl

/-- Colours do not move the text. -/
theorem Page.written_replay {t : Nat} {before : List (List UInt8)} {held : List UInt8}
    (written : p.paper.Written Cell.char 32 t before held) (calls : List VgaCall)
    (keeps : .clear ∉ calls) (shown : backspace ∉ calls.filterMap VgaCall.char) :
    (p.replay calls).paper.Written Cell.char 32 t
      ((calls.filterMap VgaCall.char).foldl typeset (before, held)).1
      ((calls.filterMap VgaCall.char).foldl typeset (before, held)).2 := by
  induction calls generalizing p before held with
  | nil => exact written
  | cons call calls ih =>
    have keeps' := mt (List.mem_cons_of_mem call) keeps
    cases call with
    | putchar c =>
      have chars : (VgaCall.putchar c :: calls).filterMap VgaCall.char =
        c :: calls.filterMap VgaCall.char := rfl
      rw [chars] at shown ⊢
      obtain ⟨first, rest⟩ := List.ne_and_not_mem_of_not_mem_cons shown
      rw [List.foldl_cons, typeset]
      by_cases enter : c = newline
      · subst enter
        rw [if_pos rfl]
        exact ih (Page.written_newline written rfl) keeps' rest
      · rw [if_neg enter]
        exact ih (Page.written_putchar written rfl enter first.symm) keeps' rest
    | setColor foreground background =>
      exact ih (p := { p with colour := vgaEntryColor foreground.toByte background.toByte }) written
        keeps' shown
    | clear => exact absurd (List.mem_cons_self ..) keeps

/-! ### Above the prompt -/

/-- Enter, what a command prints, and the next prompt. -/
def answer (calls : List VgaCall) : List VgaCall := printed "\n" ++ (calls ++ prompt)

/-- Lines from the beginning of a row on, and the prompt behind them. -/
theorem Prints.written {calls : List VgaCall} {t : Nat} {before : List (List UInt8)}
    (prints : Prints calls lines) (written : p.paper.Written Cell.char 32 t before []) :
    (p.replay (calls ++ prompt)).paper.Written Cell.char 32 t
      (before ++ lines.flatMap (rowsOf 80)) promptText := by
  have chars : prompt.filterMap VgaCall.char = promptText := by decide
  have text : (calls ++ prompt).filterMap VgaCall.char = textOf lines ++ promptText := by
    rw [List.filterMap_append, prints.writes.text, chars]
  have keeps : VgaCall.clear ∉ calls ++ prompt := by
    rw [List.mem_append, not_or]
    exact ⟨prints.writes.keeps, by decide⟩
  have shown : backspace ∉ (calls ++ prompt).filterMap VgaCall.char := by
    rw [text, List.mem_append, not_or, textOf]
    refine ⟨fun member => ?_, by decide⟩
    obtain ⟨line, there, inside⟩ := List.mem_flatMap.mp member
    rcases List.mem_append.mp inside with char | mark
    · exact (prints.plain line there _ char).2.2 rfl
    · exact absurd (List.mem_singleton.mp mark) (by decide)
  have replayed := Page.written_replay written (calls ++ prompt) keeps shown
  have other : ∀ line ∈ lines, newline ∉ line :=
    fun line there member => (prints.plain line there _ member).2.1 rfl
  rw [text, List.foldl_append, foldl_typeset_textOf _ _ other,
    foldl_typeset _ _ _ (by decide : newline ∉ promptText)] at replayed
  exact replayed

end FriscaOS
