import Mathlib.Tactic.Common

/-! The bitmap frame allocator of `pmm.c`: bit `i` of the bitmap is set when the 4 KB block
`i` is used or reserved. -/
namespace FriscaOS

def NULL : UInt32 := 0

def pmmBlockSize : UInt32 := 4096

/-- `BITMAP_SIZE`: the number of 32-bit words of the bitmap. -/
def bitmapSize : UInt32 := 128

structure Pmm where
  -- `pmm_bitmap`, by word index
  bitmap : Nat → UInt32
  maxBlocks : UInt32
  usedBlocks : UInt32

namespace Pmm

def setWord (s : Pmm) (i : Nat) (w : UInt32) : Pmm :=
  { s with bitmap := fun j => if j = i then w else s.bitmap j }

def setBit (s : Pmm) (bit : UInt32) : Pmm :=
  s.setWord (bit / 32).toNat (s.bitmap (bit / 32).toNat ||| (1 <<< (bit % 32)))

def clearBit (s : Pmm) (bit : UInt32) : Pmm :=
  s.setWord (bit / 32).toNat (s.bitmap (bit / 32).toNat &&& ~~~(1 <<< (bit % 32)))

/-- Non-zero when the bit is set. -/
def testBit (s : Pmm) (bit : UInt32) : UInt32 :=
  s.bitmap (bit / 32).toNat &&& (1 <<< (bit % 32))

end Pmm

/-- The last loop of `pmm_init`, with `n` iterations left from block `i` on. -/
def pmmInitLoop : Nat → UInt32 → Pmm → Pmm
  | 0, _, s => s
  | n + 1, i, s =>
    -- `pmm_bitmap[i / 32] &= ~(1 << (i % 32))`
    let s := s.clearBit i
    pmmInitLoop n (i + 1) { s with usedBlocks := s.usedBlocks - 1 }

def pmmInit (memSize : UInt32) : Pmm :=
  let maxBlocks := memSize / pmmBlockSize
  -- clamp to what the bitmap can represent
  let maxBlocks := if maxBlocks > bitmapSize * 32 then bitmapSize * 32 else maxBlocks
  -- the first megabyte stays reserved
  let startBlock : UInt32 := (1 * 1024 * 1024) / pmmBlockSize
  pmmInitLoop (maxBlocks.toNat - startBlock.toNat) startBlock
    { bitmap := fun _ => 0xFFFFFFFF, maxBlocks := maxBlocks, usedBlocks := maxBlocks }

/-- The scan of `pmm_alloc_block`, with `n` blocks left to look at from `i` on. -/
def pmmScan (s : Pmm) : Nat → UInt32 → Pmm × UInt32
  | 0, _ => (s, 0)
  | n + 1, i =>
    if s.testBit i = 0 then
      -- the lowest free block: mark it used and return its address
      let s := s.setBit i
      ({ s with usedBlocks := s.usedBlocks + 1 }, i * pmmBlockSize)
    else pmmScan s n (i + 1)

def pmmAllocBlock (s : Pmm) : Pmm × UInt32 :=
  -- out of memory
  if s.maxBlocks - s.usedBlocks = 0 then (s, 0) else pmmScan s s.maxBlocks.toNat 0

/-- `pmm_free_block`: an address outside the managed blocks, or of a free one, is ignored. -/
def pmmFreeBlock (s : Pmm) (addr : UInt32) : Pmm :=
  let block := addr / pmmBlockSize
  if block < s.maxBlocks ∧ s.testBit block ≠ 0 then
    let s := s.clearBit block
    { s with usedBlocks := s.usedBlocks - 1 }
  else s

def pmmGetFreeMemory (s : Pmm) : UInt32 := (s.maxBlocks - s.usedBlocks) * pmmBlockSize

end FriscaOS
