import FriscaOS.Fs.FileOwnership

/-! The names in the file table. The search for a duplicate compares the whole name, the slot
keeps 31 characters of it: long names with a common start are stored as the same name. -/
namespace FriscaOS

open ByteMemory FreeList Transition

variable {L : KernelLayout} {k k' : Kernel} {name content : CString} {op : KernelOp}
  {ops : List KernelOp}

/-- The names stored in the slots that are in use. -/
def Vfs.storedNames (v : Vfs) : List (List UInt8) :=
  (List.range v.fileCount.toNat).map fun i => (v.fileTable i).text

theorem KernelInv.storedNames_eq (inv : KernelInv L k) : k.vfs.storedNames = k.names := by
  apply List.ext_getElem
  · simp [Vfs.storedNames, inv.named.1]
  · intro i _ bound
    simp only [Vfs.storedNames, List.getElem_map, List.getElem_range]
    exact (inv.named.2 i _ (List.getElem?_eq_getElem bound)).text

/-- A file creation cannot lead to a second file of the same stored name. Either nothing is
stored (the table is full, or no block can hold the content), or the name is not cut, or what is
left of it is new. -/
def NoClash (k : Kernel) : KernelOp → Prop
  | .createFile name content _ =>
    name.chars.length ≤ 31 ∨ name.stored ∉ k.vfs.storedNames ∨ maxFiles ≤ k.vfs.fileCount ∨
      k.heap.heap.NoFit content.size
  | _ => True

theorem CString.stored_of_short (short : name.chars.length ≤ 31) : name.stored = name.chars :=
  List.take_of_length_le short

/-- Stored names are short, so a name that equals one is not cut. -/
theorem Kernel.short_of_mem_names {s : List UInt8} (member : s ∈ k.names) : s.length ≤ 31 := by
  obtain ⟨file, _, rfl⟩ := List.mem_map.mp member
  exact List.length_take_le ..

theorem CString.size_ne_zero (s : CString) : s.size ≠ 0 := by
  intro zero
  have positive := s.toNat_size
  rw [zero] at positive
  cases positive

/-- A refused file has no effect, so the condition asks nothing of it. -/
theorem KernelInv.noClash_of_refused {h : Heap} {v : Vfs} {r : Int} (inv : KernelInv L k)
    (result : vfsCreateFile k.heap.heap k.vfs name.bytes content.bytes = some (h, v, r))
    (negative : r ≠ 0) : NoClash k (.createFile name content r) := by
  obtain ⟨bs, heap⟩ := inv.heap
  cases inv.outcome result with
  | full count =>
    refine .inr (.inr (.inl ?_))
    rw [UInt32.le_iff_toNat_le, inv.named.1]
    exact count
  -- a name that was found equals a stored one
  | duplicate _ member => exact .inl (Kernel.short_of_mem_names member)
  | noMemory _ _ failed =>
    exact .inr (.inr (.inr ((heap.kmalloc_null_iff content.size_ne_zero).mp ⟨_, failed⟩)))
  | created => exact absurd rfl negative

/-- A created file got past the checks, so only its name decides. -/
theorem KernelInv.noClash_of_created {h : Heap} {v : Vfs} (inv : KernelInv L k)
    (result : vfsCreateFile k.heap.heap k.vfs name.bytes content.bytes = some (h, v, 0)) :
    NoClash k (.createFile name content 0) ↔ name.stored ∉ k.names := by
  obtain ⟨bs, heap⟩ := inv.heap
  obtain ⟨room, fresh, h', buf, allocated, nonnull⟩ := inv.passed result
  rw [NoClash, inv.storedNames_eq]
  constructor
  · rintro (short | new | full | noFit)
    · -- an uncut name passed the search for duplicates
      rw [CString.stored_of_short short]
      exact fresh
    · exact new
    · rw [UInt32.le_iff_toNat_le, inv.named.1] at full
      exact absurd full (Nat.not_le.mpr room)
    · obtain ⟨h'', failed⟩ := (heap.kmalloc_null_iff content.size_ne_zero).mpr noFit
      rw [allocated, Option.some.injEq, Prod.mk.injEq] at failed
      exact absurd failed.2 nonnull
  · exact fun new => .inr (.inl new)

/-- One step keeps distinct names distinct exactly under the condition. -/
theorem KernelInv.names_nodup_step (inv : KernelInv L k) (taken : KernelStep L k op k')
    (distinct : k.names.Nodup) : k'.names.Nodup ↔ NoClash k op := by
  cases taken with
  | fileCreated result =>
    -- the new name comes last, so it has to differ from all before it
    rw [inv.noClash_of_created result, Kernel.names, List.map_append, List.map_singleton,
      List.nodup_append_comm, List.singleton_append, List.nodup_cons]
    exact and_iff_left distinct
  | fileRefused result negative =>
    exact iff_of_true distinct (inv.noClash_of_refused result negative)
  | _ => exact iff_of_true distinct trivial

/-- Files are only ever added. -/
theorem created_extended (run : Run (KernelStep L) k ops k') : k.created <+: k'.created := by
  apply run.invariant (fun t => k.created <+: t.created)
  · intro s op t before taken
    cases taken with
    | fileCreated => exact before.trans (List.prefix_append ..)
    | _ => exact before
  · exact List.prefix_refl _

theorem names_extended (run : Run (KernelStep L) k ops k') : k.names <+: k'.names :=
  (created_extended run).map _

/-- Distinct names at the end were distinct in every state before, so each step was allowed. -/
theorem KernelInv.guarded_of_distinct (inv : KernelInv L k) (run : Run (KernelStep L) k ops k')
    (before : k.names.Nodup) (after : k'.names.Nodup) :
    Run (Guarded (KernelStep L) NoClash) k ops k' := by
  induction run with
  | nil s => exact .nil s
  | cons taken rest ih =>
    have between := after.sublist (names_extended rest).sublist
    have allowed := (inv.names_nodup_step taken before).mp between
    exact .cons ⟨allowed, taken⟩ (ih (inv.step taken).1 between after)

/-- Allowed steps keep distinct names distinct. -/
theorem KernelInv.distinct_of_guarded (inv : KernelInv L k)
    (run : Run (Guarded (KernelStep L) NoClash) k ops k') (before : k.names.Nodup) :
    k'.names.Nodup := by
  apply And.right
  apply run.invariant (fun k => KernelInv L k ∧ k.names.Nodup)
  · rintro s op t ⟨inv, distinct⟩ ⟨allowed, taken⟩
    exact ⟨(inv.step taken).1, (inv.names_nodup_step taken distinct).mpr allowed⟩
  · exact ⟨inv, before⟩

/-- The stored names are pairwise distinct after a run exactly if every step of the run met the
condition. -/
theorem names_distinct_iff {m : Mem} {v : Vfs} (run : Run (KernelStep L) (.init L m v) ops k) :
    k.vfs.storedNames.Nodup ↔ Run (Guarded (KernelStep L) NoClash) (.init L m v) ops k := by
  have boot := kernelInv_init (L := L) m v
  rw [(boot.run run).1.storedNames_eq]
  constructor
  · exact boot.guarded_of_distinct run .nil
  · exact fun guarded => boot.distinct_of_guarded guarded .nil

/-- The results of two creations after boot. -/
def twoResults (first second : CString) : Option (Int × Int) :=
  (vfsCreateFile bootKernel.heap.heap bootKernel.vfs first.bytes greeting.bytes).bind fun call =>
    (vfsCreateFile call.1 call.2.1 second.bytes greeting.bytes).map fun call' =>
      (call.2.2, call'.2.2)

/-- Where both succeed, two files are there. -/
theorem bootKernel_createTwo (first second : CString) (codes : twoResults first second = some (0, 0)) :
    ∃ k k', KernelStep bootLayout bootKernel (.createFile first greeting 0) k ∧
      KernelStep bootLayout k (.createFile second greeting 0) k' ∧
      k'.vfs.storedNames = [first.stored, second.stored] := by
  obtain ⟨⟨h, v, r⟩, created, rest⟩ := Option.bind_eq_some_iff.mp codes
  obtain ⟨⟨h', v', r'⟩, created', zero⟩ := Option.map_eq_some_iff.mp rest
  obtain ⟨rfl, rfl⟩ := Prod.mk.inj zero
  obtain ⟨k, taken, heap, vfs, one⟩ : ∃ k, KernelStep bootLayout bootKernel
      (.createFile first greeting 0) k ∧ k.heap.heap = h ∧ k.vfs = v ∧
      k.created = [(first, greeting)] := ⟨_, .fileCreated created, rfl, rfl, rfl⟩
  subst heap vfs
  have taken' := KernelStep.fileCreated (L := bootLayout) created'
  have stored := (bootKernel_reachable.run (.cons taken (.single taken'))).inv.storedNames_eq
  refine ⟨k, _, taken, taken', stored.trans ?_⟩
  simp [Kernel.names, one]

/-- Two files of different names. -/
theorem names_distinct_boot : ∃ k, Run (KernelStep bootLayout) bootKernel
    [.createFile shortName greeting 0, .createFile greeting greeting 0] k ∧
      k.vfs.storedNames = [shortName.stored, greeting.stored] ∧ k.vfs.storedNames.Nodup := by
  obtain ⟨k, k', taken, taken', stored⟩ :=
    bootKernel_createTwo shortName greeting (by decide +kernel)
  have run := Run.cons taken (.single taken')
  refine ⟨k', run, stored, (names_distinct_iff run).mpr (.cons ⟨.inl ?_, taken⟩
    (.single ⟨.inl ?_, taken'⟩))⟩
  all_goals decide

/-- One character more than a slot can keep. -/
def longName : CString := ⟨List.replicate 32 97, by decide, by decide⟩

/-- A name of 32 characters is created twice: the second time it is not found, since the slot
holds 31 characters of it. -/
theorem not_names_distinct : ∃ k, Run (KernelStep bootLayout) bootKernel
    [.createFile longName greeting 0, .createFile longName greeting 0] k ∧
      ¬k.vfs.storedNames.Nodup := by
  obtain ⟨k, k', taken, taken', stored⟩ :=
    bootKernel_createTwo longName longName (by decide +kernel)
  refine ⟨k', .cons taken (.single taken'), ?_⟩
  rw [stored]
  decide

end FriscaOS
