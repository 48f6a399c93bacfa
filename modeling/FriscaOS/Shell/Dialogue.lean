import FriscaOS.Shell.Replies

/-! A line and its reply: whatever happened before, and whatever else runs, the screen shows the reply
above the next prompt, and the files are those that the reply names. -/
namespace FriscaOS

open ByteMemory Transition PaperTerminal

variable {L : KernelLayout} {k : Kernel} {s : ShellSystem} {os e u : Os} {env : Env}
  {typed line : List UInt8} {files : List File} {h : Heap}

/-! ### Room on the screen -/

theorem FilesInv.congr (files : FilesInv L os k) (same : e.toStore = os.toStore) : FilesInv L e k :=
  ⟨files.kernel, same ▸ files.tracks, files.lines⟩

end FriscaOS
