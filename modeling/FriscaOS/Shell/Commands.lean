import FriscaOS.Fs.KernelRuns
import FriscaOS.Memory.HeapCanonical
import FriscaOS.Shell.CommandLine

/-! What the commands do: most of them only print, `testmem` and `testheap` give back what they
take, and `write` calls `vfs_create_file`. -/
namespace FriscaOS

open ByteMemory Function

/-! ### Printing -/

/-- Only calls of the VGA driver were added. -/
def Os.Shown (s t : Os) : Prop := ∃ calls, t = { s with vga := s.vga ++ calls }

variable {s t u : Os} {env : Env} {calls : Option (List VgaCall)} {line f c : List UInt8}
  {L : KernelLayout} {k k' : Kernel} {a b : Store}

namespace Os.Shown

theorem refl (s : Os) : s.Shown s := ⟨[], by rw [List.append_nil]⟩

theorem toStore (shown : s.Shown t) : t.toStore = s.toStore := by
  obtain ⟨calls, rfl⟩ := shown
  rfl

theorem buffer (shown : s.Shown t) :
    t.commandBuffer = s.commandBuffer ∧ t.bufferIdx = s.bufferIdx := by
  obtain ⟨calls, rfl⟩ := shown
  exact ⟨rfl, rfl⟩

theorem print (before : s.Shown t) (total : ∃ shown, calls = some shown) :
    ∃ u, t.print calls = some u ∧ s.Shown u := by
  obtain ⟨earlier, rfl⟩ := before
  obtain ⟨calls, rfl⟩ := total
  exact ⟨_, rfl, earlier ++ calls, by rw [← List.append_assoc]⟩

theorem bind (before : s.Shown t) (total : ∃ shown, calls = some shown) {rest : Os → Option Os}
    (later : ∀ u, s.Shown u → ∃ r, rest u = some r ∧ s.Shown r) :
    ∃ r, (t.print calls >>= rest) = some r ∧ s.Shown r := by
  obtain ⟨u, printed, shown⟩ := before.print total
  rw [printed]
  exact later u shown

end Os.Shown

theorem literal_total (text : String) : ∃ shown, vgaWrite (literal text) = some shown :=
  ⟨_, vgaWrite_literal text⟩

theorem timerCommand_shown (env : Env) (s : Os) : ∃ t, timerCommand env s = some t ∧ s.Shown t := by
  rw [timerCommand]
  refine (Os.Shown.refl s).bind (literal_total _) fun t shown => ?_
  refine shown.bind (printUint_total _ _) fun t shown => ?_
  refine shown.bind (literal_total _) fun t shown => ?_
  refine shown.bind (printUint_total _ _) fun t shown => ?_
  exact shown.print (literal_total _)

theorem memCommand_shown (env : Env) (s : Os) : ∃ t, memCommand env s = some t ∧ s.Shown t := by
  rw [memCommand]
  refine (Os.Shown.refl s).bind (literal_total _) fun t shown => ?_
  refine shown.bind (printUint_total _ _) fun t shown => ?_
  exact shown.print (literal_total _)

theorem psCommand_shown (env : Env) (s : Os) : ∃ t, psCommand env s = some t ∧ s.Shown t := by
  rw [psCommand]
  refine (Os.Shown.refl s).bind ⟨_, vgaWrites_eq _⟩ fun t shown => ?_
  refine shown.bind (printUint_total _ _) fun t shown => ?_
  exact shown.print (literal_total _)

theorem unknownCommand_shown (text : ∃ x, s.commandBytes 0 = line ++ 0 :: x) (noNul : 0 ∉ line) :
    ∃ t, unknownCommand s = some t ∧ s.Shown t := by
  obtain ⟨x, text⟩ := text
  rw [unknownCommand]
  refine (Os.Shown.refl s).bind ⟨_, rfl⟩ fun t shown => ?_
  refine shown.bind (literal_total _) fun t shown => ?_
  refine shown.bind ?_ fun t shown => ?_
  · rw [Os.commandBytes, shown.buffer.1, ← Os.commandBytes, text]
    exact ⟨_, vgaWrite_append noNul⟩
  refine shown.bind (literal_total _) fun t shown => ?_
  exact shown.print ⟨_, rfl⟩

/-! ### The store -/

/-- What a line asks of the file table. -/
inductive Requested (line : List UInt8) : Option (CString × CString) → Prop
  | file {name content : CString} : name.chars ≠ [] → 32 ∉ name.chars → content.chars ≠ [] →
      line = writeLine name.chars content.chars → Requested line (some (name, content))
  | nothing : (∀ f c, f ≠ [] → 32 ∉ f → c ≠ [] → line ≠ writeLine f c) → Requested line none

/-- What a command that was asked for a file, or for none, makes of the store. -/
inductive StoreEffect (a : Store) : Option (CString × CString) → Store → Prop
  | kept : StoreEffect a none a
  | tested {h p h'} : kmalloc a.heap 32 = some (h, p) → p ≠ NULL → kfree h p = some h' →
      StoreEffect a none { a with heap := h' }
  | created {name content h v r} :
      vfsCreateFile a.heap a.vfs name.bytes content.bytes = some (h, v, r) →
      StoreEffect a (some (name, content)) { a with heap := h, vfs := v }

/-- The store is part of a kernel whose blocks and files are accounted for. -/
structure Tracks (a : Store) (k : Kernel) : Prop where
  heap : k.heap.heap = a.heap
  vfs : k.vfs = a.vfs
  taskBlocks : k.taskBlocks = a.taskBlocks
  clientBlocks : k.clientBlocks = []

structure StoreInv (L : KernelLayout) (a : Store) : Prop where
  kernel : ∃ k, KernelInv L k ∧ Tracks a k
  -- a block is free, so that `testmem` gives back what it took
  restores : ∀ pmm addr, pmmAllocBlock a.pmm = (pmm, addr) → pmmFreeBlock pmm addr = a.pmm

theorem testmemCommand_shown (env : Env) (inv : StoreInv L s.toStore) :
    ∃ t, testmemCommand env s = some t ∧ s.Shown t := by
  rcases result : pmmAllocBlock s.pmm with ⟨pmm, ptr1⟩
  have back := inv.restores pmm ptr1 result
  obtain ⟨digits, shown⟩ := printUint_total ptr1 env.locals
  refine ⟨{ s with vga := s.vga ++ (printed "Allocating 1 Block (4KB)...\n" ++
    (printed "Allocated Block Address: " ++ (digits ++ (printed "\nFreeing block...\n" ++
      printed "Done!\n")))) }, ?_, _, rfl⟩
  simp [testmemCommand, Os.print, result, shown, back]

theorem testheapCommand_effect (inv : StoreInv L s.toStore) : ∃ t, testheapCommand s = some t ∧
    t.bufferIdx = s.bufferIdx ∧ t.commandBuffer = s.commandBuffer ∧
    StoreEffect s.toStore none t.toStore := by
  obtain ⟨k, kernel, tracks⟩ := inv.kernel
  obtain ⟨bs, heap⟩ := kernel.heap
  obtain ⟨h, p, allocated, -⟩ := heap.kmalloc_spec 32
  have taken := allocated
  rw [tracks.heap] at taken
  by_cases null : p = NULL
  · subst null
    have same := heap.kmalloc_null allocated
    rw [tracks.heap] at same
    subst same
    refine ⟨{ s with vga := s.vga ++ (printed "Testing Heap Allocator (kmalloc)...\n" ++
      printed "Failed to allocate memory!\n") }, ?_, rfl, rfl, .kept⟩
    simp [testheapCommand, Os.print, taken]
  · obtain ⟨h', freed, -⟩ := heap.free_fresh allocated null
    refine ⟨{ s with
      heap := h'
      vga := s.vga ++ (printed "Testing Heap Allocator (kmalloc)...\n" ++
        (printed "Memory allocated successfully!\n" ++ (printed "Freeing heap memory...\n" ++
          printed "Done!\n"))) }, ?_, rfl, rfl, .tested taken null freed⟩
    simp [testheapCommand, Os.print, taken, null, freed]

/-! ### Files -/

theorem Os.commandBytes_append {q : List UInt8} {offset : Nat}
    (here : s.commandBuffer.bytes offset q.length = q) (fits : offset + q.length ≤ 256) :
    ∃ x, s.commandBytes offset = q ++ x := by
  have size : maxCommandLen.toNat - offset = q.length + (256 - offset - q.length) := by
    have limit : maxCommandLen.toNat = 256 := rfl
    omega
  exact ⟨_, by rw [commandBytes, size, Mem.bytes_add, here]⟩

theorem strlen_zero_iff (noNul : 0 ∉ f) (short : f.length ≤ 255) {x : List UInt8} :
    ∃ len, strlen (f ++ 0 :: x) = some len ∧ (len = 0 ↔ f = []) := by
  refine ⟨_, strlen_append noNul, ?_⟩
  rw [← UInt32.toNat_inj, UInt32.toNat_ofNat', UInt32.toNat_zero, Nat.mod_eq_of_lt (by omega),
    List.length_eq_zero_iff]

/-- A part of a line is a string. -/
def partString (f : List UInt8) (noNul : 0 ∉ f) (short : f.length ≤ 255) : CString :=
  ⟨f, noNul, by omega⟩

theorem cstringFrom_eq {m : Mem} {n address : Nat} (noNul : 0 ∉ f)
    (here : m.bytes address (f ++ [0]).length = f ++ [0]) (room : f.length < n) :
    cstringFrom m n address = some (f ++ [0]) := by
  induction f generalizing n address with
  | nil =>
    have zero : m address = 0 := by simpa [Mem.bytes] using here
    cases n with
    | zero => cases room
    | succ n => exact if_pos zero
  | cons ch f ih =>
    obtain ⟨first, rest⟩ := List.ne_and_not_mem_of_not_mem_cons noNul
    have split : ch :: f ++ [0] = [ch] ++ (f ++ [0]) := rfl
    rw [split, Mem.bytes_append] at here
    obtain ⟨char, later⟩ := here
    have char : m address = ch := by simpa [Mem.bytes] using char
    have next : address + [ch].length = address + 1 := rfl
    rw [next] at later
    cases n with
    | zero => cases room
    | succ n =>
      rw [cstringFrom, char, if_neg first.symm, ih rest later (Nat.lt_of_succ_lt_succ room)]
      rfl

/-- What `cat` shows of a file. -/
theorem KernelInv.printFile {i : Nat} {name content : CString} (inv : KernelInv L k)
    (there : k.created[i]? = some (name, content)) :
    (k.vfs.fileTable i).buffer ≠ NULL ∧ FriscaOS.printFile k.mem (k.vfs.fileTable i) =
      some (content.chars.map .putchar ++ printed "\n") := by
  obtain ⟨bs, heap⟩ := inv.heap
  obtain ⟨bound, _⟩ := List.getElem?_eq_some_iff.mp there
  have live := (inv.buffers_apart (Kernel.mem_buffers bound)).1
  have stored := inv.stored i name content there
  refine ⟨heap.payload_nonnull live, ?_⟩
  -- the content ends inside the heap
  have region := heap.payload_region live
  have top := L.region.top
  have room := stored.room
  have text : content.chars ++ [0] = content.bytes := rfl
  have here : k.mem.bytes (k.vfs.fileTable i).buffer.toNat (content.chars ++ [0]).length =
      content.chars ++ [0] := by
    rw [List.length_append, List.length_singleton, text]
    exact stored.holds.content
  have mem : k.mem = k.heap.heap.mem := rfl
  rw [mem] at room
  rw [FriscaOS.printFile, cstringFrom_eq content.noNul here (by omega)]
  simp [vgaWrite_append content.noNul]

/-- What `cat` with a name prints, by the result of the search. -/
theorem catCommand_eq {x : List UInt8} (text : s.commandBytes 4 = f ++ 0 :: x) (noNul : 0 ∉ f)
    (short : f.length ≤ 255) (nonempty : f ≠ []) {r : Option Nat} :
    findFile s.vfs (f ++ [0]) = some r → catCommand s = match r with
      | some i => if (s.vfs.fileTable i).buffer ≠ NULL then
          s.print (printFile s.heap.mem (s.vfs.fileTable i))
        else s.print (vgaWrite (literal "File not found!\n"))
      | none => s.print (vgaWrite (literal "File not found!\n")) := by
  intro found
  obtain ⟨len, measured, zero⟩ := strlen_zero_iff noNul short (x := x)
  have long : len ≠ 0 := fun same => nonempty (zero.mp same)
  have searched : vfsReadFile s.vfs (f ++ 0 :: x) = some r := by
    rw [vfsReadFile, findFile_terminator, found]
  cases r with
  | none => simp [catCommand, text, measured, searched, long]
  | some i => simp [catCommand, text, measured, searched, long]

theorem catCommand_shown (inv : StoreInv L s.toStore) {x : List UInt8}
    (text : s.commandBytes 4 = f ++ 0 :: x) (noNul : 0 ∉ f) (short : f.length ≤ 255) :
    ∃ t, catCommand s = some t ∧ s.Shown t := by
  obtain ⟨k, kernel, tracks⟩ := inv.kernel
  by_cases empty : f = []
  · obtain ⟨len, measured, zero⟩ := strlen_zero_iff noNul short (x := x)
    obtain ⟨t, printed, shown⟩ :=
      (Os.Shown.refl s).print (literal_total "Usage: cat <filename>\n")
    refine ⟨t, ?_, shown⟩
    simpa [catCommand, text, measured, zero.mpr empty] using printed
  · have named := kernel.named
    rw [tracks.vfs] at named
    obtain ⟨r, found, -, there⟩ := findFile_spec (partString f noNul short) named
    rw [catCommand_eq text noNul short empty found]
    cases r with
    | none => exact (Os.Shown.refl s).print (literal_total _)
    | some i =>
      obtain ⟨⟨name, content⟩, created, -⟩ :=
        Option.map_eq_some_iff.mp (List.getElem?_map.symm.trans (there i rfl))
      obtain ⟨nonnull, text⟩ := kernel.printFile created
      have mem : k.mem = s.heap.mem := congrArg Heap.mem tracks.heap
      rw [tracks.vfs] at nonnull text
      rw [mem] at text
      simp only [if_pos nonnull]
      exact (Os.Shown.refl s).print ⟨_, text⟩

/-- The name and the content of a `write` line are determined by the line. -/
theorem writeLine_inj {f' c' : List UInt8} (absent : 32 ∉ f) (absent' : 32 ∉ f')
    (same : writeLine f c = writeLine f' c') : f = f' ∧ c = c' := by
  simp only [writeLine, List.append_assoc, List.append_cancel_left_eq] at same
  exact append_cons_unique absent absent' same

/-- A `write` line without a name or without a content asks for nothing. -/
theorem requested_nothing (absent : 32 ∉ f) (missing : f = [] ∨ c = []) :
    Requested (writeLine f c) none := by
  refine .nothing fun f' c' name absent' content same => ?_
  obtain ⟨rfl, rfl⟩ := writeLine_inj absent absent' same
  exact missing.elim name content

/-- The buffer holds the line and its terminator. -/
structure LineHeld (s : Os) (line : List UInt8) : Prop where
  bytes : s.commandBuffer.bytes 0 (line ++ [0]).length = line ++ [0]
  noNul : 0 ∉ line
  short : line.length ≤ 255

theorem LineHeld.suffix {p q : List UInt8} (held : LineHeld s (p ++ q)) :
    ∃ x, s.commandBytes p.length = q ++ 0 :: x := by
  have short := held.short
  have bytes := held.bytes
  rw [List.append_assoc, Mem.bytes_append, Nat.zero_add] at bytes
  rw [List.length_append] at short
  obtain ⟨x, text⟩ := Os.commandBytes_append bytes.2 (by
    rw [List.length_append, List.length_singleton]
    omega)
  exact ⟨x, by rw [text, List.append_assoc]; rfl⟩

/-- The terminator in place of the space splits a `write` line. -/
theorem LineHeld.split (held : LineHeld s (writeLine f c)) :
    let t := { s with commandBuffer := s.commandBuffer.write8 (6 + f.length) 0 }
    (∃ x, t.commandBytes 6 = f ++ 0 :: x) ∧
      ∃ x, t.commandBytes (6 + f.length + 1) = c ++ 0 :: x := by
  intro t
  have short := held.short
  have bytes := held.bytes
  have six : (ascii "write ").length = 6 := rfl
  have shape : writeLine f c ++ [0] = (ascii "write " ++ f) ++ ([32] ++ (c ++ [0])) := by
    simp [writeLine]
  rw [shape, Mem.bytes_append, Mem.bytes_append, Mem.bytes_append, List.length_append, six,
    List.length_singleton] at bytes
  obtain ⟨⟨-, name⟩, -, content⟩ := bytes
  simp only [writeLine, List.length_append, List.length_cons, six] at short
  have kept {a n : Nat} (apart : 6 + f.length < a ∨ a + n ≤ 6 + f.length) :
      t.commandBuffer.bytes a n = s.commandBuffer.bytes a n :=
    Mem.bytes_congr fun x lower upper => s.commandBuffer.write8_other 0 (by omega)
  have ended : t.commandBuffer.bytes 6 (f ++ [0]).length = f ++ [0] := by
    rw [Mem.bytes_append, kept (.inr (Nat.le_refl _))]
    refine ⟨name, ?_⟩
    exact congrArg (fun b => [b]) (Mem.write8_same ..)
  have rest : t.commandBuffer.bytes (6 + f.length + 1) (c ++ [0]).length = c ++ [0] := by
    rw [kept (.inl (Nat.lt_succ_self _))]
    rwa [Nat.zero_add] at content
  constructor
  · obtain ⟨x, text⟩ := Os.commandBytes_append ended (by
      rw [List.length_append, List.length_singleton]
      omega)
    exact ⟨x, by rw [text, List.append_assoc]; rfl⟩
  · obtain ⟨x, text⟩ := Os.commandBytes_append rest (by
      rw [List.length_append, List.length_singleton]
      omega)
    exact ⟨x, by rw [text, List.append_assoc]; rfl⟩

/-- `write` without a name or without a content prints how it is used. -/
theorem writeArguments_usage {y z : List UInt8} (noNul : 0 ∉ f) (noNul' : 0 ∉ c)
    (short : f.length ≤ 255) (short' : c.length ≤ 255) (missing : f = [] ∨ c = []) :
    writeArguments s (f ++ 0 :: y) (c ++ 0 :: z) =
      some { s with vga := s.vga ++ printed "Usage: write <filename> <content>\n" } := by
  obtain ⟨nameLen, nameMeasured, nameZero⟩ := strlen_zero_iff noNul short (x := y)
  obtain ⟨len, measured, zero⟩ := strlen_zero_iff noNul' short' (x := z)
  rw [writeArguments, nameMeasured, measured]
  by_cases nameless : f = []
  · simp [nameZero.mpr nameless, writeUsage, Os.print]
  · simp [zero.mpr (missing.resolve_left nameless), writeUsage, Os.print]

/-- With both it calls `vfs_create_file`. -/
theorem writeArguments_create (name content : CString) {y z : List UInt8} {h : Heap} {v : Vfs} {r : Int}
    (short : name.chars.length ≤ 255) (short' : content.chars.length ≤ 255)
    (nonempty : name.chars ≠ []) (nonempty' : content.chars ≠ [])
    (result : vfsCreateFile s.heap s.vfs name.bytes content.bytes = some (h, v, r)) :
    ∃ calls, writeArguments s (name.chars ++ 0 :: y) (content.chars ++ 0 :: z) =
      some { s with heap := h, vfs := v, vga := s.vga ++ calls } := by
  obtain ⟨nameLen, nameMeasured, nameZero⟩ := strlen_zero_iff name.noNul short (x := y)
  obtain ⟨len, measured, zero⟩ := strlen_zero_iff content.noNul short' (x := z)
  have positive : nameLen > 0 := UInt32.pos_iff_ne_zero.mpr fun same => nonempty (nameZero.mp same)
  have positive' : len > 0 := UInt32.pos_iff_ne_zero.mpr fun same => nonempty' (zero.mp same)
  rw [← vfsCreateFile_terminator name content y z] at result
  obtain ⟨calls, message⟩ : ∃ calls, vgaWrite (createMessage r) = some calls := by
    rw [createMessage]
    split_ifs
    all_goals exact literal_total _
  refine ⟨calls, ?_⟩
  rw [writeArguments, nameMeasured, measured, result]
  simp [positive, positive', message, Os.print]

theorem writeCommand_effect {args : List UInt8} (inv : StoreInv L s.toStore)
    (held : LineHeld s (ascii "write " ++ args)) : ∃ t file, writeCommand s = some t ∧
      t.bufferIdx = s.bufferIdx ∧ Requested (ascii "write " ++ args) file ∧
      StoreEffect s.toStore file t.toStore := by
  have noNul := held.noNul
  have short := held.short
  have six : (ascii "write ").length = 6 := rfl
  obtain ⟨x, text⟩ := held.suffix
  rw [six] at text
  rw [List.mem_append, not_or] at noNul
  rw [List.length_append, six] at short
  by_cases space : 32 ∈ args
  · obtain ⟨f, c, rfl, absent⟩ := List.eq_append_cons_of_mem space
    have line : ascii "write " ++ (f ++ 32 :: c) = writeLine f c := by simp [writeLine]
    rw [line] at held ⊢
    simp only [List.mem_append, List.mem_cons, not_or] at noNul
    rw [List.length_append, List.length_cons] at short
    obtain ⟨⟨y, filename⟩, z, content⟩ := held.split
    have found : strchr (s.commandBytes 6) 32 = some (some f.length) := by
      rw [text, List.append_assoc, List.cons_append]
      exact strchr_append noNul.2.1 absent
    rw [writeCommand, found, Option.bind_eq_bind, Option.bind_some]
    dsimp only
    rw [filename, content]
    by_cases missing : f = [] ∨ c = []
    · rw [writeArguments_usage noNul.2.1 noNul.2.2.2 (by omega) (by omega) missing]
      exact ⟨_, none, rfl, rfl, requested_nothing absent missing, .kept⟩
    · rw [not_or] at missing
      let name := partString f noNul.2.1 (by omega)
      let body := partString c noNul.2.2.2 (by omega)
      obtain ⟨k, kernel, tracks⟩ := inv.kernel
      obtain ⟨h, v, r, result, -⟩ := kernel.createFile name body
      rw [tracks.heap, tracks.vfs] at result
      obtain ⟨calls, written⟩ := writeArguments_create name body (y := y)
        (z := z) (s := { s with commandBuffer := s.commandBuffer.write8 (6 + f.length) 0 })
        (Nat.le_of_lt_succ (by dsimp only [name, partString]; omega))
        (Nat.le_of_lt_succ (by dsimp only [body, partString]; omega)) missing.1 missing.2 result
      exact ⟨_, some (name, body), written, rfl, .file missing.1 absent missing.2 rfl,
        .created result⟩
  · refine ⟨{ s with vga := s.vga ++ printed "Usage: write <filename> <content>\n" }, none, ?_, rfl,
      .nothing fun f c _ _ _ same => ?_, .kept⟩
    · have found : strchr (s.commandBytes 6) 32 = some none := by
        rw [text]
        exact strchr_none noNul.2 space (by decide)
      simp [writeCommand, found, writeUsage, Os.print]
    · simp only [writeLine, List.append_assoc, List.append_cancel_left_eq] at same
      exact space (by simp [same])

/-! ### Every command -/

def Command.progress : Command → Progress
  | testdelay => .sleeping 2000
  | crash | divzero | reboot => .halted
  | _ => .returned

/-- The commands that look at the line again: for a file name, or to print it. -/
def Command.readsLine : Command → Bool
  | cat | write | unknown => true
  | _ => false

/-- Every other command leaves the line alone, and gives back what it takes. -/
theorem runCommand_other (inv : StoreInv L s.toStore) (env : Env) {command : Command}
    (other : command.readsLine = false) : ∃ t, runCommand env s command =
      some (t, command.progress) ∧ t.bufferIdx = s.bufferIdx ∧ t.commandBuffer = s.commandBuffer ∧
        StoreEffect s.toStore none t.toStore := by
  have shows {t : Os} (shown : s.Shown t)
      (result : runCommand env s command = some (t, command.progress)) : ∃ t, runCommand env s
        command = some (t, command.progress) ∧ t.bufferIdx = s.bufferIdx ∧
          t.commandBuffer = s.commandBuffer ∧ StoreEffect s.toStore none t.toStore :=
    ⟨t, result, shown.buffer.2, shown.buffer.1, shown.toStore ▸ .kept⟩
  have text (calls : List VgaCall) (result : runCommand env s command =
      some ({ s with vga := s.vga ++ calls }, command.progress)) := shows ⟨calls, rfl⟩ result
  cases command with
  | cat | write | unknown => cases other
  | help =>
    exact text (helpTexts.flatMap printed) (by simp [runCommand, Os.print, Command.progress])
  | version =>
    exact text (printed "Frisca OS v0.1.0 (32-bit Protected Mode, Multitasking & VFS Active)\n")
      (by simp [runCommand, Os.print, Command.progress])
  | testdelay =>
    exact text (printed "Waiting 2 seconds...\n")
      (by simp [runCommand, Os.print, Command.progress])
  | crash =>
    exact text (printed "Triggering page fault...\n")
      (by simp [runCommand, Os.print, Command.progress])
  | reboot =>
    exact text (printed "Rebooting system...\n") (by simp [runCommand, Os.print, Command.progress])
  | clear => exact text _ rfl
  | divzero => exact shows (.refl s) rfl
  | timer =>
    obtain ⟨t, result, shown⟩ := timerCommand_shown env s
    exact shows shown (by simp [runCommand, result, Command.progress])
  | mem =>
    obtain ⟨t, result, shown⟩ := memCommand_shown env s
    exact shows shown (by simp [runCommand, result, Command.progress])
  | ps =>
    obtain ⟨t, result, shown⟩ := psCommand_shown env s
    exact shows shown (by simp [runCommand, result, Command.progress])
  | testmem =>
    obtain ⟨t, result, shown⟩ := testmemCommand_shown env inv
    exact shows shown (by simp [runCommand, result, Command.progress])
  | testheap =>
    obtain ⟨t, result, index, buffer, effect⟩ := testheapCommand_effect inv
    exact ⟨t, by simp [runCommand, result, Command.progress], index, buffer, effect⟩
  | ls =>
    obtain ⟨k, kernel, tracks⟩ := inv.kernel
    obtain ⟨calls, listed⟩ := vfsListFiles_total (tracks.vfs ▸ kernel.named) env.locals
    exact text calls (by simp [runCommand, Os.print, listed, Command.progress])

/-- A branch of `execute_command` answers the line. -/
def AnswersLine (env : Env) (s : Os) (line : List UInt8) (command : Command) : Prop :=
  ∃ t file, runCommand env s command = some (t, command.progress) ∧ t.bufferIdx = s.bufferIdx ∧
    (command ≠ .write → t.commandBuffer = s.commandBuffer) ∧ Requested line file ∧
    StoreEffect s.toStore file t.toStore

theorem Os.Shown.answers {command : Command} (shown : s.Shown t)
    (result : runCommand env s command = some (t, command.progress))
    (asked : Requested line none) : AnswersLine env s line command :=
  ⟨t, none, result, shown.buffer.2, fun _ => shown.buffer.1, asked, shown.toStore ▸ .kept⟩

theorem runCommand_answers (inv : StoreInv L s.toStore) (env : Env) (held : LineHeld s line) :
    AnswersLine env s line (commandOf line) := by
  have other (different : commandOf line ≠ .write) : Requested line none :=
    .nothing fun f c _ _ _ same => different (by rw [same, writeLine, List.append_assoc]; rfl)
  by_cases ignores : (commandOf line).readsLine = false
  · obtain ⟨t, result, index, buffer, effect⟩ := runCommand_other inv env ignores
    refine ⟨t, none, result, index, fun _ => buffer, other fun same => ?_, effect⟩
    rw [same] at ignores
    cases ignores
  · have noNul := held.noNul
    have short := held.short
    rcases chosen : commandOf line
    all_goals rw [chosen] at other ignores
    case unknown =>
      obtain ⟨x, bytes⟩ := held.suffix (p := []) (q := line)
      obtain ⟨t, result, shown⟩ := unknownCommand_shown ⟨x, bytes⟩ noNul
      exact shown.answers (by simp [runCommand, result, Command.progress]) (other (by decide))
    case cat =>
      obtain ⟨f, rfl⟩ := prefix_of_command "cat " 4 chosen (by decide) (by decide)
      obtain ⟨x, bytes⟩ := held.suffix
      rw [List.mem_append, not_or] at noNul
      rw [List.length_append] at short
      obtain ⟨t, result, shown⟩ := catCommand_shown inv bytes noNul.2 (by omega)
      exact shown.answers (by simp [runCommand, result, Command.progress]) (other (by decide))
    case write =>
      obtain ⟨args, rfl⟩ := prefix_of_command "write " 6 chosen (by decide) (by decide)
      obtain ⟨t, file, result, index, asked, effect⟩ := writeCommand_effect inv held
      exact ⟨t, file, by simp [runCommand, result, Command.progress], index, absurd rfl, asked,
        effect⟩
    all_goals exact absurd rfl ignores

end FriscaOS
