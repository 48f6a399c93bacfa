import FriscaOS.Fs.FileNames
import FriscaOS.Shell.StoreEffects

/-! `cat` after `write`. A file keeps its index and its content, so it is found again unless its name
was cut when it was stored. -/
namespace FriscaOS

open ByteMemory Transition

variable {L : KernelLayout} {k k' : Kernel} {name content : CString} {h : Heap} {v : Vfs} {r : Int}
  {s t : Os} {env : Env} {typed f c : List UInt8} {ops : List ShellOp}

/-! ### The table -/

/-- A name that was not cut is found where its file was added. -/
theorem KernelInv.findFile_created (inv : KernelInv L k) (short : name.chars.length ≤ 31)
    {earlier later : List (CString × CString)} (files : k.created = earlier ++ (name, content) :: later)
    (fresh : name.chars ∉ earlier.map fun file => file.1.stored) :
    findFile k.vfs name.bytes = some (some earlier.length) := by
  have named := inv.named
  rw [Kernel.names, files, List.map_append, List.map_cons, CString.stored_of_short short] at named
  rw [findFile_first named fresh, List.length_map]

/-- A name that was cut is never found. -/
theorem KernelInv.findFile_long (inv : KernelInv L k) (long : 31 < name.chars.length) :
    findFile k.vfs name.bytes = some none := by
  obtain ⟨r, result, absent, -⟩ := findFile_spec name inv.named
  have missing : r = none := absent.mpr fun member =>
    absurd (Kernel.short_of_mem_names member) (Nat.not_le.mpr long)
  rw [result, missing]

/-! ### The line -/

/-- `cat` is typed to its end and entered: the file is found, and `c` is printed and a newline. -/
def CatPrints (s : Os) (f c : List UInt8) : Prop :=
  ∀ env typed, s.line ++ typed = catLine f →
    (∃ i, vfsReadFile s.vfs (f ++ [0]) = some (some i)) ∧
      ∃ t, runLine env typed s = some (t, .returned) ∧ t.vga = s.vga ++ (typed.map .putchar ++
        (printed "\n" ++ (c.map .putchar ++ (printed "\n" ++ prompt))))

theorem runLine_cat {calls : List VgaCall} {i : Nat} (env : Env) (inv : EditInv s)
    (plain : ∀ c ∈ typed, Plain c)
    (line : s.line ++ typed = catLine f) (nonempty : f ≠ []) (fits : (catLine f).length ≤ 255)
    (found : findFile s.vfs (f ++ [0]) = some (some i)) (nonnull : (s.vfs.fileTable i).buffer ≠ NULL)
    (shown : printFile s.heap.mem (s.vfs.fileTable i) = some calls) :
    ∃ t, runLine env typed s = some (t, .returned) ∧
      t.vga = s.vga ++ (typed.map .putchar ++ (printed "\n" ++ (calls ++ prompt))) := by
  obtain ⟨t, typing, entered, -⟩ := typeKeys_typed bootLayout env 0 inv plain (line ▸ fits)
  have whole : t.line = catLine f := entered.line.trans line
  have four : (ascii "cat ").length = 4 := rfl
  have held := entered.edit.held
  rw [whole] at held
  obtain ⟨x, text⟩ := held.suffix
  rw [four] at text
  have noNul : 0 ∉ f := fun member => held.noNul (List.mem_append_right _ member)
  have short : f.length ≤ 255 := by
    rw [catLine, List.length_append] at fits
    omega
  have vfs : t.entered.vfs = s.vfs := congrArg Store.vfs entered.store
  have mem : t.entered.heap.mem = s.heap.mem := congrArg (fun a => a.heap.mem) entered.store
  have answer := catCommand_eq text noNul short nonempty (vfs ▸ found)
  rw [vfs, mem] at answer
  simp only [if_pos nonnull, shown] at answer
  have some_ : t.bufferIdx ≠ 0 := by
    rw [ne_eq, ← Os.line_eq_nil_iff, whole]
    exact nofun
  have executed := executeCommand_line entered.edit env some_
  rw [whole, commandOf_cat] at executed
  have pressed : shellInput env newline t = executeCommand env t := if_pos rfl
  let u : Os := { t.entered with bufferIdx := 0, vga := t.entered.vga ++ calls ++ prompt }
  refine ⟨u, ?_, ?_⟩
  · simp [runLine, typing, pressed, executed, runCommand, answer, Os.print, endCommand_eq, u]
  · calc u.vga = t.vga ++ printed "\n" ++ calls ++ prompt := rfl
      _ = _ := by simp only [entered.shown, List.append_assoc]

/-! ### Later states -/

/-- A file that was created stays where it is, whatever the system does. -/
theorem KernelInv.kept {a b : ShellSystem} (kernel : KernelInv L k) (tracks : Tracks a.os.toStore k)
    (inv : ShellInv L a.os) (run : Run (ShellStep L) a ops b) :
    ShellInv L b.os ∧ ∃ k', KernelInv L k' ∧ Tracks b.os.toStore k' ∧ k.created <+: k'.created := by
  obtain ⟨inv', ops', k', matched, tracks'⟩ := inv.run kernel tracks run
  exact ⟨inv', k', (kernel.run matched).1, tracks', created_extended matched⟩

/-- `cat` prints a file that is found. -/
theorem ShellInv.catPrints (inv : ShellInv L s) (kernel : KernelInv L k) (tracks : Tracks s.toStore k)
    (nonempty : name.chars ≠ []) (plain : ∀ c ∈ name.chars, Plain c)
    (short : name.chars.length ≤ 31) {earlier later : List (CString × CString)}
    (files : k.created = earlier ++ (name, content) :: later)
    (fresh : name.chars ∉ earlier.map fun file => file.1.stored) :
    CatPrints s name.chars content.chars := by
  intro env typed line
  have found := kernel.findFile_created short files fresh
  have there : k.created[earlier.length]? = some (name, content) := by simp [files]
  obtain ⟨nonnull, shown⟩ := kernel.printFile there
  have mem : k.mem = s.heap.mem := congrArg Heap.mem tracks.heap
  rw [tracks.vfs] at found nonnull shown
  rw [mem] at shown
  have fits : (catLine name.chars).length ≤ 255 := by
    have four : (ascii "cat ").length = 4 := rfl
    rw [catLine, List.length_append, four]
    omega
  have plain' : ∀ c ∈ typed, Plain c := by
    intro c member
    have whole : c ∈ ascii "cat " ++ name.chars := by
      rw [← catLine, ← line]
      exact List.mem_append_right _ member
    have word : ∀ c ∈ ascii "cat ", Plain c := List.all_iff_forall_prop.mp (by decide)
    exact (List.mem_append.mp whole).elim (word c) (plain c)
  obtain ⟨t, result, printed⟩ := runLine_cat env inv.edit plain' line nonempty fits found nonnull
    shown
  exact ⟨⟨_, found⟩, t, result, by rw [printed, List.append_assoc (content.chars.map _)]⟩

/-- A file whose name was cut is not found. -/
theorem KernelInv.not_catPrints (kernel : KernelInv L k) (tracks : Tracks s.toStore k)
    (empty : s.line = []) (long : 31 < name.chars.length) : ¬CatPrints s name.chars content.chars := by
  intro prints
  obtain ⟨⟨i, found⟩, -⟩ := prints ⟨0, 0, fun _ => 0⟩ (catLine name.chars) (by
    rw [empty]
    rfl)
  have missing := kernel.findFile_long long
  rw [tracks.vfs] at missing
  rw [vfsReadFile, ← CString.bytes, missing] at found
  cases found

theorem writeLine_goesOn : writeLine f c ∉ haltingLines := by
  have others : ∀ line ∈ haltingLines, commandOf line ≠ .write := by decide
  intro member
  apply others _ member
  rw [writeLine, List.append_assoc, commandOf_write]

/-- A line that makes `vfs_create_file` return 0 adds the file at the end. -/
theorem LineRun.created {u : Os} (after : LineRun L s (writeLine name.chars content.chars) u)
    (kernel : KernelInv L k) (tracks : Tracks s.toStore k) (nonempty : name.chars ≠ [])
    (absent : 32 ∉ name.chars) (nonempty' : content.chars ≠ [])
    (success : vfsCreateFile s.heap s.vfs name.bytes content.bytes = some (h, v, 0)) :
    ∃ k', KernelInv L k' ∧ Tracks u.toStore k' ∧ k'.created = k.created ++ [(name, content)] := by
  obtain ⟨file, asked, effect⟩ := after.effect
  rw [asked.file_eq nonempty absent nonempty'] at effect
  generalize u.toStore = b at effect ⊢
  cases effect with
  | created result =>
    rw [success, Option.some.injEq, Prod.mk.injEq, Prod.mk.injEq] at result
    obtain ⟨rfl, rfl, rfl⟩ := result
    rw [← tracks.heap, ← tracks.vfs] at success
    exact ⟨_, (kernel.fileCreated success).1, ⟨rfl, rfl, tracks.taskBlocks, tracks.clientBlocks⟩, rfl⟩

/-- After a `write` that succeeded, `cat` prints the content in every later state exactly if the name
fits in its slot. -/
theorem write_cat_iff {s : ShellSystem} {u : Os} {progress : Progress} (reach : ShellReachable L s)
    (nonempty : name.chars ≠ []) (absent : 32 ∉ name.chars) (nonempty' : content.chars ≠ [])
    (plain : ∀ c ∈ typed, Plain c) (line : s.os.line ++ typed = writeLine name.chars content.chars)
    (fits : (writeLine name.chars content.chars).length ≤ 255)
    (result : runLine env typed s.os = some (u, progress))
    (success : vfsCreateFile s.os.heap s.os.vfs name.bytes content.bytes = some (h, v, 0)) :
    (∀ ops t, Run (ShellStep L) ⟨u, s.blocked⟩ ops t → CatPrints t.os name.chars content.chars) ↔
      name.chars.length ≤ 31 := by
  have inv := reach.inv
  obtain ⟨k, kernel, tracks⟩ := inv.store.kernel
  have goesOn : s.os.line ++ typed ∉ haltingLines := by
    rw [line]
    exact writeLine_goesOn
  obtain ⟨u', _, result', after, -⟩ :=
    runLine_spec env s.blocked inv plain (line ▸ fits) goesOn
  rw [result', Option.some.injEq, Prod.mk.injEq] at result
  obtain ⟨rfl, -⟩ := result
  rw [line] at after
  obtain ⟨k', kernel', tracks', files⟩ :=
    after.created kernel tracks nonempty absent nonempty' success
  constructor
  · intro prints
    by_contra long
    exact kernel'.not_catPrints tracks' after.empty (Nat.not_le.mp long) (prints [] _ (.nil _))
  · intro short ops t run
    have fresh : name.chars ∉ k.names := by
      rw [← tracks.heap, ← tracks.vfs] at success
      exact (kernel.passed success).2.1
    obtain ⟨inv', k'', kernel'', tracks'', later, files'⟩ := kernel'.kept tracks' after.inv run
    rw [files, List.append_assoc] at files'
    apply inv'.catPrints kernel'' tracks'' nonempty ?_ short files'.symm fresh
    intro c member
    have whole : c ∈ s.os.line ++ typed := by
      rw [line, writeLine]
      simp [member]
    exact (List.mem_append.mp whole).elim (inv.edit.plain c) (plain c)

/-! ### The first file -/

/-- The first `write` after boot succeeds. -/
theorem Booted.Idle.write (idle : Booted.Idle L s) (env : Env) (name content : CString)
    (nonempty : name.chars ≠ []) (absent : 32 ∉ name.chars) (nonempty' : content.chars ≠ [])
    (plain : ∀ c ∈ writeLine name.chars content.chars, Plain c)
    (fits : (writeLine name.chars content.chars).length ≤ 255) :
    ∃ u h v k, runLine env (writeLine name.chars content.chars) s = some (u, .returned) ∧
      vfsCreateFile s.heap s.vfs name.bytes content.bytes = some (h, v, 0) ∧ u.line = [] ∧
      KernelInv L k ∧ Tracks u.toStore k := by
  obtain ⟨inv, empty⟩ := idle.inv
  obtain ⟨none, room⟩ := idle.room
  obtain ⟨k, kernel, tracks⟩ := inv.store.kernel
  have whole : s.line ++ writeLine name.chars content.chars = writeLine name.chars content.chars := by
    rw [empty, List.nil_append]
  obtain ⟨u, _, result, after, -⟩ := runLine_spec env 0 inv plain (by rwa [whole])
    (by rw [whole]; exact writeLine_goesOn)
  rw [whole] at after
  have nobody : k.names = [] := by
    rw [← List.length_eq_zero_iff, ← kernel.named.1, tracks.vfs, none]
    rfl
  have small : content.size.toNat ≤ 256 := by
    rw [content.toNat_size]
    simp only [writeLine, List.length_append, List.length_cons] at fits
    omega
  obtain ⟨h₁, p, taken, nonnull⟩ := room content.size content.size_ne_zero small
  obtain ⟨h, v, r, created, outcome⟩ := kernel.createFile name content
  rw [nobody] at outcome
  have success : r = 0 := by
    cases outcome with
    | full many => cases many
    | duplicate _ member => cases member
    | noMemory _ _ failed =>
      rw [tracks.heap, taken] at failed
      cases failed
      exact absurd rfl nonnull
    | created => rfl
  rw [success, tracks.heap, tracks.vfs] at created
  obtain ⟨k', kernel', tracks', -⟩ :=
    after.created kernel tracks nonempty absent nonempty' created
  exact ⟨u, h, v, k', result, created, after.empty, kernel', tracks'⟩

theorem write_cat_boot : ∃ s u : Os, Booted.Idle bootLayout s ∧
    runLine ⟨0, 0, fun _ => 0⟩ (writeLine shortName.chars greeting.chars) s = some (u, .returned) ∧
      ∀ ops t, Run (ShellStep bootLayout) ⟨u, 0⟩ ops t →
        CatPrints t.os shortName.chars greeting.chars := by
  obtain ⟨s, idle⟩ := kernelMain_idle (L := bootLayout) rfl
  have plain : ∀ c ∈ writeLine shortName.chars greeting.chars, Plain c :=
    List.all_iff_forall_prop.mp (by decide)
  obtain ⟨u, h, v, k, result, created, -⟩ := idle.write ⟨0, 0, fun _ => 0⟩ shortName greeting
    (by decide) (by decide) (by decide) plain (by decide)
  have line : s.line ++ writeLine shortName.chars greeting.chars =
      writeLine shortName.chars greeting.chars := by
    rw [idle.inv.2, List.nil_append]
  have prints := (write_cat_iff idle.reachable (by decide) (by decide) (by decide) plain line
    (by decide) result created).mpr (by decide)
  exact ⟨s, u, idle, result, prints⟩

/-- A name of 32 characters: `write` reports success, and `cat` does not find the file. -/
theorem not_write_cat : ∃ (s u : Os) (h : Heap) (v : Vfs), Booted.Idle bootLayout s ∧
    runLine ⟨0, 0, fun _ => 0⟩ (writeLine longName.chars greeting.chars) s = some (u, .returned) ∧
      vfsCreateFile s.heap s.vfs longName.bytes greeting.bytes = some (h, v, 0) ∧
      ¬CatPrints u longName.chars greeting.chars := by
  obtain ⟨s, idle⟩ := kernelMain_idle (L := bootLayout) rfl
  have plain : ∀ c ∈ writeLine longName.chars greeting.chars, Plain c :=
    List.all_iff_forall_prop.mp (by decide)
  obtain ⟨u, h, v, k, result, created, empty, kernel, tracks⟩ := idle.write ⟨0, 0, fun _ => 0⟩
    longName greeting (by decide) (by decide) (by decide) plain (by decide)
  exact ⟨s, u, h, v, idle, result, created, kernel.not_catPrints tracks empty (by decide)⟩

end FriscaOS
