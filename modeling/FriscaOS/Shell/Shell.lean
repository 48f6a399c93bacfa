import FriscaOS.Memory.Layers
import FriscaOS.Shell.Printing
import FriscaOS.Task.Task

/-! The shell of `shell.c`: the line buffer, the dispatch of a line and the commands, and the boot
sequence that ends at the first prompt. -/
namespace FriscaOS

open ByteMemory

/-- `MAX_COMMAND_LEN`. -/
def maxCommandLen : UInt32 := 256

/-- The memory and the files that commands work on. -/
structure Store where
  pmm : Pmm
  heap : Heap
  vfs : Vfs
  -- the blocks of the heap that belong to tasks
  taskBlocks : List UInt32

/-- What the shell and its commands read and change. -/
structure Os extends Store where
  commandBuffer : Mem
  bufferIdx : UInt32
  -- the calls of the VGA driver so far
  vga : List VgaCall

/-- What a command reads and does not change: the counters of the timer and of the background task,
and what the memory of local arrays held before. -/
structure Env where
  ticks : UInt32
  bgCounter : UInt32
  locals : Mem

/-- How far a call of `execute_command` has come. -/
inductive Progress
  | returned
  -- it waits in `sleep(ms)`
  | sleeping (ms : UInt32)
  -- an exception or the reset of the CPU ended it
  | halted
  deriving DecidableEq, Repr

namespace Os

/-- Calls of the VGA driver, if the strings that they print end in time. -/
def print (s : Os) (calls : Option (List VgaCall)) : Option Os :=
  calls.map fun calls => { s with vga := s.vga ++ calls }

/-- The bytes that may be read from `command_buffer + offset`. -/
def commandBytes (s : Os) (offset : Nat) : List UInt8 :=
  s.commandBuffer.bytes offset (maxCommandLen.toNat - offset)

end Os

def printPrompt : Option (List VgaCall) := do
  let text ← vgaWrite (literal "frisca-os> ")
  return .setColor .lightCyan .black :: text ++ [.setColor .white .black]

/-! ### The commands -/

inductive Command
  | help | version | timer | testdelay | mem | testmem | testheap | crash | divzero | ps | ls
  | cat | write | clear | reboot | unknown
  deriving DecidableEq, Repr

/-- A test of the line: `strcmp(command_buffer, text) == 0`, or `strncmp` with a length. -/
inductive LineTest
  | equals (text : String)
  | startsWith (text : String) (n : Nat)
  deriving DecidableEq

def LineTest.compare (buffer : List UInt8) : LineTest → Option Int
  | equals text => strcmp buffer (literal text)
  | startsWith text n => strncmp buffer (literal text) n

/-- The branches of `execute_command`, in the order of the source. -/
def commandTable : List (LineTest × Command) :=
  [(.equals "help", .help), (.equals "version", .version), (.equals "timer", .timer),
    (.equals "testdelay", .testdelay), (.equals "mem", .mem), (.equals "testmem", .testmem),
    (.equals "testheap", .testheap), (.equals "crash", .crash), (.equals "divzero", .divzero),
    (.equals "ps", .ps), (.equals "ls", .ls), (.startsWith "cat " 4, .cat),
    (.startsWith "write " 6, .write), (.equals "clear", .clear), (.equals "reboot", .reboot)]

/-- The first branch whose test holds. -/
def dispatch (buffer : List UInt8) : List (LineTest × Command) → Option Command
  | [] => some .unknown
  | (test, command) :: rest => do
    if (← test.compare buffer) = 0 then return command else dispatch buffer rest

def helpTexts : List String :=
  ["Available commands:\n",
    "  help      - Show this help message\n",
    "  version   - Display Frisca OS version\n",
    "  timer     - Show system uptime in seconds and ticks\n",
    "  testdelay - Test 2 seconds sleep delay\n",
    "  mem       - Show free physical memory\n",
    "  testmem   - Test Physical Memory Manager (PMM)\n",
    "  testheap  - Test Heap Allocator (kmalloc/kfree)\n",
    "  ps        - List running tasks & background counter\n",
    "  ls        - List all files in VFS RAMDisk\n",
    "  cat       - Display file content (Usage: cat <filename>)\n",
    "  write     - Write to file (Usage: write <filename> <content>)\n",
    "  clear     - Clear the screen\n",
    "  reboot    - Restart the system\n"]

def timerCommand (env : Env) (s : Os) : Option Os := do
  let seconds := env.ticks / 100
  let s ← s.print (vgaWrite (literal "System Uptime: "))
  let s ← s.print (printUint seconds env.locals)
  let s ← s.print (vgaWrite (literal " s (Total Ticks: "))
  let s ← s.print (printUint env.ticks env.locals)
  s.print (vgaWrite (literal ")\n"))

def memCommand (env : Env) (s : Os) : Option Os := do
  let freeMem := pmmGetFreeMemory s.pmm
  let s ← s.print (vgaWrite (literal "Free Memory: "))
  let s ← s.print (printUint (freeMem / 1024) env.locals)
  s.print (vgaWrite (literal " KB\n"))

def testmemCommand (env : Env) (s : Os) : Option Os := do
  let s ← s.print (vgaWrite (literal "Allocating 1 Block (4KB)...\n"))
  let (pmm, ptr1) := pmmAllocBlock s.pmm
  let s := { s with pmm := pmm }
  let s ← s.print (vgaWrite (literal "Allocated Block Address: "))
  let s ← s.print (printUint ptr1 env.locals)
  let s ← s.print (vgaWrite (literal "\nFreeing block...\n"))
  let s := { s with pmm := pmmFreeBlock s.pmm ptr1 }
  s.print (vgaWrite (literal "Done!\n"))

def testheapCommand (s : Os) : Option Os := do
  let s ← s.print (vgaWrite (literal "Testing Heap Allocator (kmalloc)...\n"))
  let (heap, str) ← kmalloc s.heap 32
  let s := { s with heap := heap }
  if str ≠ NULL then
    let s ← s.print (vgaWrites ["Memory allocated successfully!\n", "Freeing heap memory...\n"])
    let s := { s with heap := ← kfree s.heap str }
    s.print (vgaWrite (literal "Done!\n"))
  else s.print (vgaWrite (literal "Failed to allocate memory!\n"))

def psCommand (env : Env) (s : Os) : Option Os := do
  let s ← s.print (vgaWrites ["Running Tasks:\n",
    "  PID 0: Shell (Main Task) [RUNNING]\n",
    "  PID 1: Background Counter Task [RUNNING]\n",
    "Background Task Counter: "])
  let s ← s.print (printUint env.bgCounter env.locals)
  s.print (vgaWrite (literal "\n"))

/-- The string at an address: the bytes up to the first terminator, with `n` left to look at. -/
def cstringFrom (m : Mem) : Nat → Nat → Option (List UInt8)
  | 0, _ => none
  | n + 1, a => if m a = 0 then some [0] else (cstringFrom m n (a + 1)).map (m a :: ·)

/-- `vga_write(file->buffer)` and a newline. -/
def printFile (m : Mem) (file : VfsNode) : Option (List VgaCall) := do
  let text ← vgaWrite (← cstringFrom m (2 ^ 32 - file.buffer.toNat) file.buffer.toNat)
  return text ++ (← vgaWrite (literal "\n"))

def catCommand (s : Os) : Option Os := do
  let filename := s.commandBytes 4
  if (← strlen filename) = 0 then s.print (vgaWrite (literal "Usage: cat <filename>\n"))
  else match ← vfsReadFile s.vfs filename with
    | some i =>
      let file := s.vfs.fileTable i
      if file.buffer ≠ NULL then s.print (printFile s.heap.mem file)
      else s.print (vgaWrite (literal "File not found!\n"))
    | none => s.print (vgaWrite (literal "File not found!\n"))

/-- The message for a result of `vfs_create_file`. -/
def createMessage (res : Int) : List UInt8 :=
  if res = 0 then literal "File created successfully!\n"
  else if res = -2 then literal "Error: File already exists!\n"
  else literal "Error creating file!\n"

def writeUsage : List UInt8 := literal "Usage: write <filename> <content>\n"

/-- `write`, with the bytes behind `filename` and `content`. -/
def writeArguments (s : Os) (filename content : List UInt8) : Option Os := do
  if (← strlen filename) > 0 then
    if (← strlen content) > 0 then
      let (heap, vfs, res) ← vfsCreateFile s.heap s.vfs filename content
      let s := { s with heap := heap, vfs := vfs }
      s.print (vgaWrite (createMessage res))
    else s.print (vgaWrite writeUsage)
  else s.print (vgaWrite writeUsage)

def writeCommand (s : Os) : Option Os := do
  match ← strchr (s.commandBytes 6) 32 with
  | some space =>
    -- `*space_ptr = '\0'` ends the name, and the content begins behind it
    let s := { s with commandBuffer := s.commandBuffer.write8 (6 + space) 0 }
    writeArguments s (s.commandBytes 6) (s.commandBytes (6 + space + 1))
  | none => s.print (vgaWrite writeUsage)

def unknownCommand (s : Os) : Option Os := do
  let s ← s.print (some [.setColor .lightRed .black])
  let s ← s.print (vgaWrite (literal "Unknown command: "))
  let s ← s.print (vgaWrite (s.commandBytes 0))
  let s ← s.print (vgaWrite (literal "\nType 'help' for a list of commands.\n"))
  s.print (some [.setColor .white .black])

/-- A branch of `execute_command`. The store to `0xDEADBEEF` is a page fault, the division by zero an
exception, and both halt the CPU; `reboot` resets it. -/
def runCommand (env : Env) (s : Os) : Command → Option (Os × Progress)
  | .help => return (← s.print (vgaWrites helpTexts), .returned)
  | .version => return (← s.print (vgaWrite (literal
      "Frisca OS v0.1.0 (32-bit Protected Mode, Multitasking & VFS Active)\n")), .returned)
  | .timer => return (← timerCommand env s, .returned)
  | .testdelay => return (← s.print (vgaWrite (literal "Waiting 2 seconds...\n")), .sleeping 2000)
  | .mem => return (← memCommand env s, .returned)
  | .testmem => return (← testmemCommand env s, .returned)
  | .testheap => return (← testheapCommand s, .returned)
  | .crash => return (← s.print (vgaWrite (literal "Triggering page fault...\n")), .halted)
  | .divzero => return (s, .halted)
  | .ps => return (← psCommand env s, .returned)
  | .ls => return (← s.print (vfsListFiles s.vfs env.locals), .returned)
  | .cat => return (← catCommand s, .returned)
  | .write => return (← writeCommand s, .returned)
  | .clear => return (← s.print (some [.clear]), .returned)
  | .reboot => return (← s.print (vgaWrite (literal "Rebooting system...\n")), .halted)
  | .unknown => return (← unknownCommand s, .returned)

/-! ### The line -/

/-- The end of `execute_command`. -/
def endCommand (s : Os) : Option Os := { s with bufferIdx := 0 }.print printPrompt

def executeCommand (env : Env) (s : Os) : Option (Os × Progress) := do
  let s ← s.print (vgaWrite (literal "\n"))
  if s.bufferIdx = 0 then return (← s.print printPrompt, .returned)
  else
    let s := { s with commandBuffer := s.commandBuffer.write8 s.bufferIdx.toNat 0 }
    let command ← dispatch (s.commandBytes 0) commandTable
    let (s, progress) ← runCommand env s command
    if progress = .returned then return (← endCommand s, .returned) else return (s, progress)

/-- What `execute_command` does once `sleep` has returned. -/
def afterSleep (s : Os) : Option Os := do
  let s ← s.print (vgaWrite (literal "Done!\n"))
  endCommand s

def shellInput (env : Env) (c : UInt8) (s : Os) : Option (Os × Progress) :=
  if c = newline then executeCommand env s
  else if c = backspace then
    if s.bufferIdx > 0 then
      some ({ s with bufferIdx := s.bufferIdx - 1, vga := s.vga ++ [.putchar backspace] }, .returned)
    else some (s, .returned)
  else if s.bufferIdx < maxCommandLen - 1 then
    some ({ s with
      commandBuffer := s.commandBuffer.write8 s.bufferIdx.toNat c
      bufferIdx := s.bufferIdx + 1
      vga := s.vga ++ [.putchar c] }, .returned)
  else some (s, .returned)

/-! ### Boot -/

def shellInit (s : Os) : Option Os := do
  let s := { s with bufferIdx := 0 }
  let s ← s.print (some [.setColor .lightGreen .black])
  let s ← s.print (vgaWrite (literal "=== Welcome to Frisca OS Shell ===\n"))
  let s ← s.print (some [.setColor .white .black])
  s.print printPrompt

/-- `kernel_main` up to the idle loop, on memory `m`: `vga_init`, the memory subsystems, the file
table, the tasks and the shell. -/
def kernelMain (m : Mem) (r : ControlRegs) (v : Vfs) (buffer : Mem)
    (mainTask backgroundTask : UInt32) : Option Os := do
  let layers := memoryInit (16 * 1024 * 1024) m r
  let vfs := vfsInit v
  let (mem, tasks) := taskInit layers.heap.mem mainTask
  let (heap, _, task) ← createTask ⟨mem, layers.heap.heapStart⟩ tasks backgroundTask
  shellInit
    { pmm := layers.pmm, heap := heap, vfs := vfs
      taskBlocks := if task = NULL then [] else [taskStack heap.mem task, task]
      commandBuffer := buffer, bufferIdx := 0, vga := [.setColor .white .black, .clear] }

end FriscaOS
