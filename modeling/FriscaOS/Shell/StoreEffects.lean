import FriscaOS.Shell.ShellRuns
import Mathlib.Data.Bool.AllAny

/-! A line that is typed and entered with no other key in between. Only `write` leaves a trace in
the store, the one of `vfs_create_file`. -/
namespace FriscaOS

open ByteMemory Transition

/-- `shell_input` for one character after the other. -/
def typeKeys (env : Env) : List UInt8 → Os → Option Os
  | [], s => some s
  | c :: typed, s => (shellInput env c s).bind fun (s, _) => typeKeys env typed s

/-- The characters and Enter. A command that sleeps wakes up. -/
def runLine (env : Env) (typed : List UInt8) (s : Os) : Option (Os × Progress) := do
  let s ← typeKeys env typed s
  let (s, progress) ← shellInput env newline s
  match progress with
  | .sleeping _ => (afterSleep s).map fun s => (s, .returned)
  | progress => some (s, progress)

/-- Characters were appended to the line, and shown. -/
structure Typed (s : Os) (typed : List UInt8) (t : Os) : Prop where
  store : t.toStore = s.toStore
  line : t.line = s.line ++ typed
  shown : t.vga = s.vga ++ typed.map .putchar
  edit : EditInv t

variable {L : KernelLayout} {s t u : Os} {a b : Store} {env : Env} {c : UInt8} {n : Nat}
  {typed line : List UInt8} {name content : CString} {file : Option (CString × CString)}

/-! ### Typing -/

theorem shellInput_shown (plain : Plain c) (room : s.bufferIdx.toNat < 255)
    (result : shellInput env c s = some (t, .returned)) : t.vga = s.vga ++ [.putchar c] := by
  have below : s.bufferIdx < maxCommandLen - 1 := UInt32.lt_iff_toNat_lt.mpr room
  rw [shellInput, if_neg plain.2.1, if_neg plain.2.2, if_pos below] at result
  cases result
  rfl

theorem typeKeys_typed (L : KernelLayout) (env : Env) (n : Nat) (inv : EditInv s)
    (plain : ∀ c ∈ typed, Plain c) (fits : (s.line ++ typed).length ≤ 255) :
    ∃ t, typeKeys env typed s = some t ∧
      Typed s typed t ∧ Run (ShellStep L) ⟨s, n⟩ (typed.map (.key env)) ⟨t, n⟩ := by
  induction typed generalizing s with
  | nil => exact ⟨s, rfl, ⟨rfl, (List.append_nil _).symm, (List.append_nil _).symm, inv⟩, .nil _⟩
  | cons c typed ih =>
    have first := plain c (.head _)
    rw [List.length_append, List.length_cons] at fits
    have room : s.line.length < 255 := by omega
    obtain ⟨t, result, store, line, edit⟩ := shellInput_edit inv env first.1 first.2.1
    rw [editLine_plain first room] at line
    have returned : Progress.returned ≠ .halted := by decide
    have step : ShellStep L ⟨s, n⟩ (.key env c) ⟨t, n⟩ := .key first.1 result returned
    have shown := shellInput_shown first (s.length_line ▸ room) result
    obtain ⟨u, rest, typed', run⟩ := ih edit (fun c member => plain c (.tail _ member)) (by
      simp only [line, List.length_append, List.length_singleton]
      omega)
    refine ⟨u, ?_, ⟨typed'.store.trans store, ?_, ?_, typed'.edit⟩, .cons step run⟩
    · rw [typeKeys, result]
      exact rest
    · rw [typed'.line, line, List.append_assoc]
      rfl
    · rw [typed'.shown, shown, List.append_assoc]
      rfl

/-! ### Executing -/

/-- The commands that do not return, not even after a while. -/
def haltingLines : List (List UInt8) := [ascii "crash", ascii "divzero", ascii "reboot"]

theorem mem_haltingLines (halts : (commandOf line).progress = .halted) : line ∈ haltingLines := by
  rcases chosen : commandOf line
  all_goals rw [chosen] at halts
  case crash =>
    obtain rfl := line_of_command "crash" chosen (by decide) (by decide)
    exact .head _
  case divzero =>
    obtain rfl := line_of_command "divzero" chosen (by decide) (by decide)
    exact .tail _ (.head _)
  case reboot =>
    obtain rfl := line_of_command "reboot" chosen (by decide) (by decide)
    exact .tail _ (.tail _ (.head _))
  all_goals exact absurd halts (by decide)

/-- What a whole line leaves behind. -/
structure LineRun (L : KernelLayout) (s : Os) (line : List UInt8) (t : Os) : Prop where
  inv : ShellInv L t
  empty : t.line = []
  effect : ∃ file, Requested line file ∧ StoreEffect s.toStore file t.toStore

theorem runLine_spec (env : Env) (n : Nat) (inv : ShellInv L s) (plain : ∀ c ∈ typed, Plain c)
    (fits : (s.line ++ typed).length ≤ 255) (goesOn : s.line ++ typed ∉ haltingLines) :
    ∃ t ops, runLine env typed s = some (t, .returned) ∧ LineRun L s (s.line ++ typed) t ∧
      Run (ShellStep L) ⟨s, n⟩ ops ⟨t, n⟩ := by
  obtain ⟨t, result, entered, run⟩ := typeKeys_typed L env n inv.edit plain fits
  obtain ⟨u, progress, executed, after⟩ :=
    executeCommand_executed (entered.store ▸ inv.store) entered.edit env
  obtain ⟨file, asked, effect⟩ := after.effect
  have ended := after.ended
  rw [entered.line] at ended asked
  rw [entered.store] at effect
  have pressed : shellInput env newline t = some (u, progress) := (if_pos rfl).trans executed
  have alive : progress ≠ .halted := fun halts => goesOn (mem_haltingLines (ended ▸ halts))
  have enter : ShellStep L ⟨t, n⟩ (.key env newline) ⟨u, n + progress.blocks⟩ :=
    .key (by decide) pressed alive
  have inv' := effect.inv inv.store
  cases progress with
  | returned =>
    refine ⟨u, _, ?_, ⟨⟨inv', after.edit entered.edit⟩, ?_, file, asked, effect⟩,
      run.append (.single enter)⟩
    · simp [runLine, result, pressed]
    · exact Os.line_eq_nil_iff.mpr (after.returned rfl)
  | sleeping ms =>
    let woken : Os := { u with bufferIdx := 0, vga := u.vga ++ (printed "Done!\n" ++ prompt) }
    have wake : ShellStep L ⟨u, n + 1⟩ .wake ⟨woken, n⟩ := .wake rfl (afterSleep_eq u)
    have edit : EditInv woken := .of_empty rfl
    refine ⟨woken, _, ?_, ⟨⟨inv', edit⟩, rfl, file, asked, effect⟩,
      run.append (.cons enter (.single wake))⟩
    simp [runLine, result, pressed, afterSleep_eq, woken]
  | halted => exact absurd rfl alive

/-! ### The effect -/

theorem CString.eq_of_chars {p q : CString} (same : p.chars = q.chars) : p = q := by
  cases p
  cases q
  cases same
  rfl

/-- The line determines what it asks for. -/
theorem Requested.file_eq (asked : Requested (writeLine name.chars content.chars) file)
    (nonempty : name.chars ≠ []) (absent : 32 ∉ name.chars) (nonempty' : content.chars ≠ []) :
    file = some (name, content) := by
  generalize same : writeLine name.chars content.chars = line at asked
  cases asked with
  | file _ absent' _ same' =>
    obtain ⟨names, contents⟩ := writeLine_inj absent absent' (same.trans same')
    rw [CString.eq_of_chars names, CString.eq_of_chars contents]
  | nothing other => exact absurd same.symm (other _ _ nonempty absent nonempty')

theorem Requested.none_eq (asked : Requested line file)
    (other : ∀ f c, f ≠ [] → 32 ∉ f → c ≠ [] → line ≠ writeLine f c) : file = none := by
  cases asked with
  | file nonempty absent nonempty' same => exact absurd same (other _ _ nonempty absent nonempty')
  | nothing => rfl

theorem StoreEffect.created_eq (effect : StoreEffect a (some (name, content)) b) :
    b.pmm = a.pmm ∧
      ∃ r, vfsCreateFile a.heap a.vfs name.bytes content.bytes = some (b.heap, b.vfs, r) := by
  cases effect with
  | created result => exact ⟨rfl, _, result⟩

/-- A block that is taken and freed again leaves no trace in the node list. -/
theorem StoreEffect.unchanged (effect : StoreEffect a none b) (inv : StoreInv L a) :
    b.pmm = a.pmm ∧ b.heap.nodes = a.heap.nodes ∧ b.vfs = a.vfs := by
  cases effect with
  | kept => exact ⟨rfl, rfl, rfl⟩
  | tested taken nonnull freed =>
    obtain ⟨k, kernel, tracks⟩ := inv.kernel
    obtain ⟨bs, heap⟩ := kernel.heap
    rw [← tracks.heap] at taken
    obtain ⟨h', freed', nodes⟩ := heap.free_fresh taken nonnull
    rw [freed', Option.some.injEq] at freed
    subst freed
    exact ⟨rfl, nodes.trans (congrArg Heap.nodes tracks.heap), rfl⟩

/-- `write` with a name and a content is a call of `vfs_create_file`, and every other line leaves the
store as it was. -/
structure OnlyWriteStores (s : Os) (line : List UInt8) (t : Os) : Prop where
  write : ∀ name content : CString, name.chars ≠ [] → 32 ∉ name.chars → content.chars ≠ [] →
    line = writeLine name.chars content.chars → t.pmm = s.pmm ∧
      ∃ r, vfsCreateFile s.heap s.vfs name.bytes content.bytes = some (t.heap, t.vfs, r)
  other : (∀ f c, f ≠ [] → 32 ∉ f → c ≠ [] → line ≠ writeLine f c) →
    t.pmm = s.pmm ∧ t.heap.nodes = s.heap.nodes ∧ t.vfs = s.vfs

theorem LineRun.onlyWriteStores (after : LineRun L s line t) (store : StoreInv L s.toStore) :
    OnlyWriteStores s line t := by
  obtain ⟨file, asked, effect⟩ := after.effect
  refine ⟨fun name content nonempty absent nonempty' same => ?_, fun other => ?_⟩
  · subst same
    rw [asked.file_eq nonempty absent nonempty'] at effect
    exact effect.created_eq
  · rw [asked.none_eq other] at effect
    exact effect.unchanged store

/-- A line that does not halt the system returns to the prompt, in every reachable state. -/
theorem only_write_stores {s : ShellSystem} (reach : ShellReachable L s)
    (plain : ∀ c ∈ typed, Plain c) (fits : (s.os.line ++ typed).length ≤ 255)
    (goesOn : s.os.line ++ typed ∉ haltingLines) :
    ∃ t, runLine env typed s.os = some (t, .returned) ∧
      OnlyWriteStores s.os (s.os.line ++ typed) t := by
  obtain ⟨t, _, result, after, _⟩ := runLine_spec env s.blocked reach.inv plain fits goesOn
  exact ⟨t, result, after.onlyWriteStores reach.inv.store⟩

/-- At the first prompt. -/
theorem only_write_stores_boot : ∃ s t : Os, Booted.Idle bootLayout s ∧ s.line = [] ∧
    runLine ⟨0, 0, fun _ => 0⟩ (ascii "write a hi") s = some (t, .returned) ∧
      OnlyWriteStores s (ascii "write a hi") t := by
  obtain ⟨s, idle⟩ := kernelMain_idle (L := bootLayout) rfl
  have empty := idle.inv.2
  have plain : ∀ c ∈ ascii "write a hi", Plain c := List.all_iff_forall_prop.mp (by decide)
  have fits : (s.line ++ ascii "write a hi").length ≤ 255 := by
    rw [empty]
    decide
  have goesOn : s.line ++ ascii "write a hi" ∉ haltingLines := by
    rw [empty]
    decide
  obtain ⟨t, result, stores⟩ := only_write_stores idle.reachable plain fits goesOn
  rw [empty] at stores
  exact ⟨s, t, idle, empty, result, stores⟩

end FriscaOS
