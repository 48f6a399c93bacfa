import FriscaOS.Shell.Files
import FriscaOS.Shell.Transcript

/-! The list of files: `vfs_list_files` prints a line for each of them, with its name, spaces up to
column 33 and its size. -/
namespace FriscaOS

open ByteMemory Numeral

/-- The decimal numeral. -/
def decimal (n : Nat) : List UInt8 := numeral 10 digitChar n

def listingRow (file : File) : List UInt8 :=
  file.1 ++ List.replicate (33 - file.1.length) 32 ++ decimal file.2.length

/-- A file that fills no row of the list. -/
structure Listable (file : File) : Prop where
  name : ∀ c ∈ file.1, Plain c
  short : file.1.length ≤ 31
  content : ∀ c ∈ file.2, Plain c
  small : file.2.length ≤ 255

variable {s : Os} {v : Vfs} {m locals : Mem} {node : VfsNode} {file : File} {files : List File}
  {i : Nat}

theorem Listable.fits (listable : Listable file) : Fits 79 (listingRow file) := by
  have short := listable.short
  have small := listable.small
  have name : Fits 31 file.1 := ⟨short, listable.name⟩
  have gap : Fits 33 (List.replicate (33 - file.1.length) 32) := by
    refine ⟨?_, fun c member => ?_⟩
    · rw [List.length_replicate]
      omega
    · rw [List.eq_of_mem_replicate member]
      decide
  exact ((name.append gap).append (fits_numeral (by omega))).mono (by decide)

end FriscaOS
