import FriscaOS.Lib.ByteMemory
import FriscaOS.Memory.Pmm

/-! The kernel heap of `heap.c` over byte memory: every node is a 12-byte header in front of
its payload, and the list is threaded through the headers. A loop takes a bound on its
iterations and yields `none` when it exceeds the bound. -/
namespace FriscaOS

open ByteMemory

/-- `sizeof(heap_node_t)` on i386. -/
def sizeofHeapNode : UInt32 := 12

/-! The fields of the `heap_node_t` at `p`: `size`, `is_free` and `next`, four bytes each. -/

def nodeSize (m : Mem) (p : UInt32) : UInt32 := m.read32 p.toNat
def nodeIsFree (m : Mem) (p : UInt32) : UInt32 := m.read32 (p.toNat + 4)
def nodeNext (m : Mem) (p : UInt32) : UInt32 := m.read32 (p.toNat + 8)

def setNodeSize (m : Mem) (p v : UInt32) : Mem := m.write32 p.toNat v
def setNodeIsFree (m : Mem) (p v : UInt32) : Mem := m.write32 (p.toNat + 4) v
def setNodeNext (m : Mem) (p v : UInt32) : Mem := m.write32 (p.toNat + 8) v

/-- The memory and the static `heap_start`. -/
structure Heap where
  mem : Mem
  heapStart : UInt32

/-- What `heap_init` does with the first block it obtained: one free node that covers all
four blocks. -/
def heapInitAt (m : Mem) (initialMem : UInt32) : Heap :=
  let m := setNodeSize m initialMem (4 * pmmBlockSize - sizeofHeapNode)
  let m := setNodeIsFree m initialMem 1
  let m := setNodeNext m initialMem NULL
  ⟨m, initialMem⟩

/-- `heap_init`: only the first of the four blocks is used by address, the results of the
other three calls are dropped. -/
def heapInit (s : Pmm) (m : Mem) : Pmm × Heap :=
  let (s, initialMem) := pmmAllocBlock s
  let s := (pmmAllocBlock s).1
  let s := (pmmAllocBlock s).1
  let s := (pmmAllocBlock s).1
  (s, heapInitAt m initialMem)

/-- More iterations than there are addresses: a walk that needs more never ends. -/
def walkBound : Nat := 2 ^ 32

/-- The body of `kmalloc` on the node it chose: split it when the rest can hold a header and
16 bytes, and mark it allocated. -/
def takeNode (m : Mem) (current size : UInt32) : Mem :=
  let m :=
    -- the fit test of the caller bounds `size`, but this sum is still taken modulo 2 ^ 32
    if nodeSize m current ≥ size + sizeofHeapNode + 16 then
      let newNode := current + sizeofHeapNode + size
      let m := setNodeSize m newNode (nodeSize m current - size - sizeofHeapNode)
      let m := setNodeIsFree m newNode 1
      let m := setNodeNext m newNode (nodeNext m current)
      -- shrink the node only after the new one took over its rest and its successor
      let m := setNodeSize m current size
      setNodeNext m current newNode
    else m
  setNodeIsFree m current 0

def kmallocLoop (size : UInt32) (m : Mem) : Nat → UInt32 → Option (Mem × UInt32)
  | 0, _ => none
  | n + 1, current =>
    if current = NULL then some (m, NULL)
    -- first fit: the walk stops at the first free node that is large enough
    else if nodeIsFree m current ≠ 0 ∧ nodeSize m current ≥ size then
      some (takeNode m current size, current + sizeofHeapNode)
    else kmallocLoop size m n (nodeNext m current)

/-- The request rounded up to a multiple of 4, in 32-bit arithmetic. -/
def roundUp (size : UInt32) : UInt32 := (size + 3) &&& ~~~3

def kmalloc (h : Heap) (size : UInt32) : Option (Heap × UInt32) :=
  if size = 0 then some (h, NULL)
  else (kmallocLoop (roundUp size) h.mem walkBound h.heapStart).map fun (m, p) =>
    ({ h with mem := m }, p)

/-- The coalescing loop of `kfree`: after a merge it stays at the same node. -/
def coalesceLoop : Nat → Mem → UInt32 → Option Mem
  | 0, _, _ => none
  | n + 1, m, current =>
    if current ≠ NULL ∧ nodeNext m current ≠ NULL then
      if nodeIsFree m current ≠ 0 ∧ nodeIsFree m (nodeNext m current) ≠ 0 then
        -- absorb the next node and look at the new neighbour from the same place
        let m := setNodeSize m current
          (nodeSize m current + (sizeofHeapNode + nodeSize m (nodeNext m current)))
        let m := setNodeNext m current (nodeNext m (nodeNext m current))
        coalesceLoop n m current
      else coalesceLoop n m (nodeNext m current)
    else some m

def kfree (h : Heap) (ptr : UInt32) : Option Heap :=
  if ptr = NULL then some h
  else
    -- the header in front of the payload, whoever owns these bytes
    let node := ptr - sizeofHeapNode
    (coalesceLoop walkBound (setNodeIsFree h.mem node 1) h.heapStart).map fun m =>
      { h with mem := m }

/-! ### The node list in memory -/

/-- A node of the list with the address it is stored at. -/
structure HeapNode where
  addr : UInt32
  size : UInt32
  isFree : UInt32
  next : UInt32
  deriving DecidableEq, Repr

def loadNode (m : Mem) (p : UInt32) : HeapNode := ⟨p, nodeSize m p, nodeIsFree m p, nodeNext m p⟩

/-- The nodes met by following `next` from `p`, if the walk ends. -/
def nodesFrom (m : Mem) : Nat → UInt32 → Option (List HeapNode)
  | 0, _ => none
  | n + 1, p =>
    if p = NULL then some []
    else (nodesFrom m n (nodeNext m p)).map fun rest => loadNode m p :: rest

def Heap.nodes (h : Heap) : Option (List HeapNode) := nodesFrom h.mem walkBound h.heapStart

/-- The size field of the node whose payload starts at `p`. -/
def payloadSize (m : Mem) (p : UInt32) : UInt32 := nodeSize m (p - sizeofHeapNode)

end FriscaOS
