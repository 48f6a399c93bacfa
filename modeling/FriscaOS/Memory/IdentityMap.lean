import FriscaOS.Memory.Layers

/-! What `paging_init` maps: the first 16 MB, each address to itself, in five blocks from
anywhere. -/
namespace FriscaOS

open ByteMemory FramePool Transition

def pageUser : UInt32 := 0x4

/-- Present and writable, and for the kernel only. -/
def KernelEntry (entry : UInt32) : Prop :=
  entry &&& pagePresent ≠ 0 ∧ entry &&& pageRw ≠ 0 ∧ entry &&& pageUser = 0

/-- The blocks that `paging_init` obtains: the directory and four tables. -/
def pagingBlocks (s : Pmm) : List UInt32 := (pmmAllocBlocks 5 s).2

/-- `m'` and `r'` map the first 16 MB, where `m` was the memory before. -/
structure IdentityMap (blocks : List UInt32) (m m' : Mem) (r' : ControlRegs) : Prop where
  five : blocks.length = 5 ∧ blocks.Nodup ∧ 0 ∉ blocks
  directory : blocks.head? = some r'.cr3
  low : ∀ v : UInt32, v.toNat < 0x1000000 → KernelEntry (directoryEntry m' r' v) ∧
    KernelEntry (tableEntry m' r' v) ∧ translate m' r' v = some v
  high : ∀ v : UInt32, 0x1000000 ≤ v.toNat → directoryEntry m' r' v &&& pagePresent = 0
  frame : Within {x | ∃ q ∈ blocks, x ∈ pageBytes q} m m'

variable {memSize p q t i v : UInt32} {m m' : Mem} {r : ControlRegs} {f : Frames} {s : Pmm}
  {tables ps owned : List UInt32} {pool : Pool Nat} {calls : List FrameCall}

/-! ### Entries -/

theorem kernelEntry_flags (aligned : q.toNat % 4096 = 0) :
    KernelEntry (q ||| pagePresent ||| pageRw) := by
  have value := toNat_flags aligned
  have bits (mask : UInt32) (small : mask.toNat < 8) :
      ((q ||| pagePresent ||| pageRw) &&& mask).toNat = 3 &&& mask.toNat := by
    have low : mask.toNat = 7 &&& mask.toNat := by
      rw [Nat.and_comm]
      exact (Nat.and_two_pow_sub_one_of_lt_two_pow (n := 3) small).symm
    have three : (q.toNat + 3) &&& 7 = 3 := by
      rw [Nat.and_two_pow_sub_one_eq_mod _ 3]
      omega
    rw [UInt32.toNat_and, value]
    calc (q.toNat + 3) &&& mask.toNat = (q.toNat + 3) &&& (7 &&& mask.toNat) := congrArg _ low
      _ = 3 &&& mask.toNat := by rw [← Nat.and_assoc, three]
  refine ⟨?_, ?_, ?_⟩
  · rw [ne_eq, ← UInt32.toNat_inj, bits _ (by decide)]
    decide
  · rw [ne_eq, ← UInt32.toNat_inj, bits _ (by decide)]
    decide
  · rw [← UInt32.toNat_inj, bits _ (by decide)]
    decide

/-- The page that entry `i` of table `t` maps. -/
theorem toNat_identityPage (table : t.toNat < 4) (entry : i.toNat < 1024) :
    (t * 4 * 1024 * 1024 + i * 0x1000).toNat = t.toNat * 4194304 + i.toNat * 4096 := by
  simp only [UInt32.toNat_add, UInt32.toNat_mul, UInt32.reduceToNat]
  omega

theorem toNat_directoryIndex (v : UInt32) : (directoryIndex v).toNat = v.toNat / 4194304 := by
  rw [directoryIndex, UInt32.toNat_shiftRight, Nat.shiftRight_eq_div_pow]
  rfl

theorem toNat_tableIndex (v : UInt32) : (tableIndex v).toNat = v.toNat / 4096 % 1024 := by
  rw [tableIndex, UInt32.toNat_and, UInt32.toNat_shiftRight, Nat.shiftRight_eq_div_pow]
  exact Nat.and_two_pow_sub_one_eq_mod _ 10

/-- The page and the offset together are the address. -/
theorem identityPage_offset (low : v.toNat < 0x1000000) :
    directoryIndex v * 4 * 1024 * 1024 + tableIndex v * 0x1000 ||| v &&& 0xFFF = v := by
  have directory := toNat_directoryIndex v
  have table := toNat_tableIndex v
  have page := toNat_identityPage (t := directoryIndex v) (i := tableIndex v) (by omega) (by omega)
  have offset : (v &&& 0xFFF).toNat = v.toNat % 4096 := by
    rw [UInt32.toNat_and]
    exact Nat.and_two_pow_sub_one_eq_mod _ 12
  have split : v.toNat / 4194304 * 4194304 + v.toNat / 4096 % 1024 * 4096 =
      2 ^ 12 * (v.toNat / 4096) := by omega
  rw [← UInt32.toNat_inj, UInt32.toNat_or, page, directory, table, offset, split,
    ← Nat.two_pow_add_eq_or_of_lt (Nat.mod_lt _ (by decide))]
  omega

theorem enablePaging_on (r : ControlRegs) : ¬(enablePaging r).cr0 &&& 0x80000000 = 0 := by
  intro off
  have bit := congrArg (fun cr0 : UInt32 => cr0.toNat.testBit 31) off
  simp only [enablePaging, UInt32.toNat_and, UInt32.toNat_or, Nat.testBit_and,
    Nat.testBit_or] at bit
  have set : (0x80000000 : UInt32).toNat.testBit 31 = true := by decide
  rw [set, Bool.or_true, Bool.true_and] at bit
  exact absurd bit (by decide)

/-! ### The walk -/

/-- A directory with four tables is the identity on the first 16 MB. -/
theorem DirectoryBuilt.identity (built : DirectoryBuilt p tables m m')
    (placed : TablesPlaced p tables) (four : tables.length = 4) (low : v.toNat < 0x1000000) :
    KernelEntry (directoryEntry m' (enablePaging (loadPageDirectory r p)) v) ∧
      KernelEntry (tableEntry m' (enablePaging (loadPageDirectory r p)) v) ∧
      translate m' (enablePaging (loadPageDirectory r p)) v = some v := by
  have directory := toNat_directoryIndex v
  have table := toNat_tableIndex v
  have page := toNat_identityPage (t := directoryIndex v) (i := tableIndex v) (by omega) (by omega)
  have there : (directoryIndex v).toNat < tables.length := by omega
  have aligned := placed.aligned _ (List.getElem_mem there)
  have mapped := built.mapped (directoryIndex v) _ (List.getElem?_eq_getElem there)
  have root : frameOf (enablePaging (loadPageDirectory r p)).cr3 = p :=
    frameOf_aligned placed.directory
  have first : directoryEntry m' (enablePaging (loadPageDirectory r p)) v =
      tables[(directoryIndex v).toNat] ||| pagePresent ||| pageRw := by
    rw [directoryEntry, root]
    exact mapped.registered
  have second : tableEntry m' (enablePaging (loadPageDirectory r p)) v =
      identityEntry (directoryIndex v) (tableIndex v) := by
    rw [tableEntry, first, frameOf_flags aligned]
    exact mapped.entries _ (by omega)
  have pageAligned :
      (directoryIndex v * 4 * 1024 * 1024 + tableIndex v * 0x1000).toNat % 4096 = 0 := by omega
  have entry := kernelEntry_flags aligned
  have entry' := kernelEntry_flags pageAligned
  have paging := enablePaging_on (loadPageDirectory r p)
  refine ⟨first ▸ entry, second ▸ entry', ?_⟩
  rw [translate, if_neg paging, first, if_neg entry.1, second, identityEntry, if_neg entry'.1,
    frameOf_flags pageAligned, identityPage_offset low]

/-- Behind the first 16 MB nothing is present. -/
theorem DirectoryBuilt.absent (built : DirectoryBuilt p tables m m')
    (placed : TablesPlaced p tables) (four : tables.length = 4) (high : 0x1000000 ≤ v.toNat) :
    directoryEntry m' (enablePaging (loadPageDirectory r p)) v &&& pagePresent = 0 := by
  have directory := toNat_directoryIndex v
  have root : frameOf (enablePaging (loadPageDirectory r p)).cr3 = p :=
    frameOf_aligned placed.directory
  rw [directoryEntry, root, built.empty _ (by omega) (directoryIndex_lt v)]
  rfl

/-! ### Five blocks -/

/-- Blocks of their own, wherever they are. -/
theorem FrameInv.tablesPlaced (inv : FrameInv memSize ⟨s, (p :: tables).reverse ++ owned⟩ pool) :
    TablesPlaced p tables := by
  have aligned (q : UInt32) (member : q ∈ p :: tables) : q.toNat % 4096 = 0 :=
    Nat.mod_eq_zero_of_dvd (inv.rep.aligned q
      (List.mem_append_left _ (List.mem_reverse.mpr member)))
  have nodup : (p :: tables).Nodup :=
    List.nodup_reverse.mp (List.nodup_append.mp inv.rep.nodup).1
  have apart : (p :: tables).Pairwise PagesApart := by
    apply nodup.imp_of_mem
    intro a b ha hb other
    exact pagesApart_of_ne (aligned a ha) (aligned b hb) other
  exact ⟨aligned p (.head _), fun q member => aligned q (.tail _ member),
    (List.pairwise_cons.mp apart).1, (List.pairwise_cons.mp apart).2⟩

/-- With five blocks left `paging_init` maps the first 16 MB to itself. -/
theorem paging_identity (run : Run FrameStep ⟨pmmInit memSize, []⟩ calls f)
    (room : 5 ≤ f.pmm.freeBlocks.card) (m : Mem) (r : ControlRegs) :
    IdentityMap (pagingBlocks f.pmm) m (pagingInit f.pmm m r).2.1 (pagingInit f.pmm m r).2.2 := by
  obtain ⟨pool, inv⟩ := FrameInv.of_run run
  obtain ⟨t, ps, pool', five, length, inv'⟩ := inv.alloc_blocks room
  obtain ⟨p, tables, rfl⟩ : ∃ p tables, ps = p :: tables :=
    List.exists_cons_of_length_eq_add_one length
  have four : tables.length = 4 := Nat.succ.inj length
  have placed := inv'.tablesPlaced
  have built := pagingMem_spec (m := m) placed (by omega)
  have blocks : pagingBlocks f.pmm = p :: tables := congrArg Prod.snd five
  rw [pagingInit_eq five, blocks]
  refine ⟨⟨length, List.nodup_reverse.mp (List.nodup_append.mp inv'.rep.nodup).1, fun zero => ?_⟩,
    rfl, fun v low => built.identity placed four low, fun v high => built.absent placed four high,
    built.frame.mono ?_⟩
  · have above := inv'.rep.above 0 (List.mem_append_left _ (List.mem_reverse.mpr zero))
    exact absurd above (by decide)
  · rintro x (inside | ⟨q, member, inside⟩)
    · exact ⟨p, .head _, inside⟩
    · exact ⟨q, .tail _ member, inside⟩

/-- In the smallest memory with five blocks above 1 MB. -/
theorem paging_identity_smallest : ∃ f, Run FrameStep ⟨pmmInit 0x105000, []⟩ [] f ∧
    IdentityMap (pagingBlocks f.pmm) (fun _ => 0) (pagingInit f.pmm (fun _ => 0) ⟨0, 0⟩).2.1
      (pagingInit f.pmm (fun _ => 0) ⟨0, 0⟩).2.2 := by
  have room : 5 ≤ (pmmInit 0x105000).freeBlocks.card := by
    rw [(FrameInv.initial 0x105000).2, Nat.card_Ico]
    decide
  have run : Run FrameStep ⟨pmmInit 0x105000, []⟩ [] _ := .nil _
  exact ⟨_, run, paging_identity run room (fun _ => 0) ⟨0, 0⟩⟩

end FriscaOS
