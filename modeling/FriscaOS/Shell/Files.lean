import FriscaOS.Fs.FileMap
import FriscaOS.Shell.FileRoundTrip

/-! The files as the user knows them: names and contents, in the order of the table. In every
reachable state they are parts of lines that were typed. -/
namespace FriscaOS

open ByteMemory Transition

/-- A name and a content. -/
abbrev File : Type := List UInt8 × List UInt8

/-- The slots in use show exactly these files. -/
structure Os.Files (s : Os) (files : List File) : Prop where
  count : s.vfs.fileCount.toNat = files.length
  shows : ∀ i name content, files[i]? = some (name, content) →
    (s.vfs.fileTable i).Shows s.heap.mem name content

/-- What the table keeps of a file. -/
def keptFile (file : CString × CString) : File := (file.1.stored, file.2.chars)

/-- The name and the content were parts of a line. -/
def FromLine (file : CString × CString) : Prop :=
  (∀ c ∈ file.1.chars, Plain c) ∧ (∀ c ∈ file.2.chars, Plain c) ∧ file.2.chars.length ≤ 255

variable {L : KernelLayout} {k k' : Kernel} {s t : ShellSystem} {os os' : Os} {a b : Store}
  {op : ShellOp} {files files' : List File} {name content : CString} {h : Heap} {v : Vfs} {r : Int}

/-! ### The slots -/

theorem VfsNode.Shows.unique {n : VfsNode} {m : Mem} {f c f' c' : List UInt8}
    (first : n.Shows m f c) (second : n.Shows m f' c') : f = f' ∧ c = c' := by
  have length : c.length = c'.length := first.length.symm.trans second.length
  have same : c ++ [0] = c' ++ [0] := by rw [← first.content, ← second.content, length]
  exact ⟨first.named.text.symm.trans second.named.text, List.append_cancel_right same⟩

theorem Os.Files.unique (first : os.Files files) (second : os.Files files') : files = files' := by
  have length : files.length = files'.length := first.count.symm.trans second.count
  refine List.ext_getElem length fun i inside inside' => ?_
  have there := first.shows i _ _ (List.getElem?_eq_getElem inside)
  have there' := second.shows i _ _ (List.getElem?_eq_getElem inside')
  exact Prod.ext (there.unique there').1 (there.unique there').2

/-- Without a change of the table no file was created. -/
theorem KernelInv.created_eq {ops : List KernelOp} (kernel : KernelInv L k)
    (run : Run (KernelStep L) k ops k') (same : k'.vfs = k.vfs) : k'.created = k.created := by
  have count := (kernel.run run).1.count
  rw [same, kernel.count] at count
  exact ((created_extended run).eq_of_length count).symm

theorem StoreEffect.vfs_eq (effect : StoreEffect a none b) : b.vfs = a.vfs := by
  cases effect with
  | kept | tested => rfl

/-- A line that asks for no file creates none. -/
theorem StoreEffect.none_created (effect : StoreEffect a none b) (kernel : KernelInv L k)
    (tracks : Tracks a k) : ∃ k', KernelInv L k' ∧ Tracks b k' ∧ k'.created = k.created := by
  obtain ⟨ops, k', run, tracks'⟩ := effect.run tracks
  have same : k'.vfs = k.vfs := by rw [tracks'.vfs, tracks.vfs, effect.vfs_eq]
  exact ⟨k', (kernel.run run).1, tracks', kernel.created_eq run same⟩

/-- A line that asks for a file creates it exactly if `vfs_create_file` returns 0. -/
theorem StoreEffect.some_created (effect : StoreEffect a (some (name, content)) b)
    (result : vfsCreateFile a.heap a.vfs name.bytes content.bytes = some (h, v, r))
    (kernel : KernelInv L k) (tracks : Tracks a k) : ∃ k', KernelInv L k' ∧ Tracks b k' ∧
      k'.created = if r = 0 then k.created ++ [(name, content)] else k.created := by
  cases effect with
  | created result' =>
    rw [result, Option.some.injEq, Prod.mk.injEq, Prod.mk.injEq] at result'
    obtain ⟨rfl, rfl, rfl⟩ := result'
    rw [← tracks.heap, ← tracks.vfs] at result
    by_cases success : r = 0
    · subst success
      rw [if_pos rfl]
      exact ⟨_, (kernel.fileCreated result).1, ⟨rfl, rfl, tracks.taskBlocks, tracks.clientBlocks⟩,
        rfl⟩
    · rw [if_neg success]
      obtain ⟨sameHeap, sameVfs⟩ := kernel.refused result success
      exact ⟨k, kernel, ⟨sameHeap.symm, sameVfs.symm, tracks.taskBlocks, tracks.clientBlocks⟩, rfl⟩

/-- A file that a line asks for is a part of it. -/
theorem Requested.fromLine {line : List UInt8} (asked : Requested line (some (name, content)))
    (plain : ∀ c ∈ line, Plain c) (short : line.length ≤ 255) : FromLine (name, content) := by
  cases asked with
  | file _ _ _ same =>
    subst same
    refine ⟨fun c member => plain c ?_, fun c member => plain c ?_, ?_⟩
    · simp [writeLine, member]
    · simp [writeLine, member]
    · simp only [writeLine, List.length_append, List.length_cons] at short ⊢
      omega

/-- The store with the files that were created, all of them from lines. -/
structure FilesInv (L : KernelLayout) (os : Os) (k : Kernel) : Prop where
  kernel : KernelInv L k
  tracks : Tracks os.toStore k
  lines : ∀ file ∈ k.created, FromLine file

theorem FilesInv.enter {env : Env} {progress : Progress} (files : FilesInv L os k)
    (inv : ShellInv L os) (result : executeCommand env os = some (os', progress)) :
    ∃ k', FilesInv L os' k' := by
  obtain ⟨u, progress', result', executed⟩ := executeCommand_executed inv.store inv.edit env
  rw [result, Option.some.injEq, Prod.mk.injEq] at result'
  obtain ⟨rfl, -⟩ := result'
  obtain ⟨file, asked, effect⟩ := executed.effect
  cases file with
  | none =>
    obtain ⟨k', kernel', tracks', same⟩ := effect.none_created files.kernel files.tracks
    exact ⟨k', kernel', tracks', same ▸ files.lines⟩
  | some file =>
    obtain ⟨name, content⟩ := file
    obtain ⟨h, v, r, created, -⟩ := files.kernel.createFile name content
    rw [files.tracks.heap, files.tracks.vfs] at created
    obtain ⟨k', kernel', tracks', same⟩ := effect.some_created created files.kernel files.tracks
    refine ⟨k', kernel', tracks', ?_⟩
    have short : os.line.length ≤ 255 := os.length_line ▸ inv.edit.index
    have fresh := asked.fromLine inv.edit.plain short
    rw [same]
    split_ifs
    · exact List.forall_mem_append.mpr ⟨files.lines, List.forall_mem_singleton.mpr fresh⟩
    · exact files.lines

theorem FilesInv.step (files : FilesInv L s.os k) (inv : ShellInv L s.os)
    (taken : ShellStep L s op t) : ∃ k', FilesInv L t.os k' := by
  obtain ⟨-, ops, k', run, tracks'⟩ := inv.step files.kernel files.tracks taken
  -- only Enter can change the table
  by_cases same : t.os.vfs = s.os.vfs
  · rw [← files.tracks.vfs] at same
    have created := files.kernel.created_eq run (tracks'.vfs.trans same)
    exact ⟨k', (files.kernel.run run).1, tracks', created ▸ files.lines⟩
  · cases taken with
    | @key env c os progress key result =>
      by_cases enter : c = newline
      · rw [shellInput, if_pos enter] at result
        exact files.enter inv result
      · obtain ⟨os', result', store, -⟩ := shellInput_edit inv.edit env key enter
        rw [result, Option.some.injEq, Prod.mk.injEq] at result'
        obtain ⟨rfl, -⟩ := result'
        exact absurd (congrArg Store.vfs store) same
    | wake waiting result =>
      rw [afterSleep_eq, Option.some.injEq] at result
      subst result
      exact absurd rfl same
    | tasks change => exact absurd rfl same

end FriscaOS
