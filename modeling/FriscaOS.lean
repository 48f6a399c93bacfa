import FriscaOS.Lib.Transition
import FriscaOS.Lib.ByteMemory
import FriscaOS.Lib.Bitmap
import FriscaOS.Lib.FramePool
import FriscaOS.Lib.FreeList
import FriscaOS.Lib.FreeListGaps
import FriscaOS.Lib.FreeListRuns
import FriscaOS.Lib.Ring
import FriscaOS.Lib.BoundedMap
import FriscaOS.Lib.Numeral
import FriscaOS.Lib.I386
import FriscaOS.Lib.I386Interrupts
import FriscaOS.Lib.I386Gates
import FriscaOS.Lib.Paper
import FriscaOS.Lib.PaperRows
import FriscaOS.Lib.Pic8259
import FriscaOS.Memory.Pmm
import FriscaOS.Memory.PmmAccounting
import FriscaOS.Memory.PmmRefinement
import FriscaOS.Memory.Heap
import FriscaOS.Memory.HeapRefinement
import FriscaOS.Memory.HeapRuns
import FriscaOS.Memory.HeapSafety
import FriscaOS.Memory.HeapCanonical
import FriscaOS.Memory.Coalescing
import FriscaOS.Memory.Paging
import FriscaOS.Memory.Layers
import FriscaOS.Memory.HeapInit
import FriscaOS.Memory.IdentityMap
import FriscaOS.Task.Task
import FriscaOS.Task.Creation
import FriscaOS.Task.Switch
import FriscaOS.Task.Scheduling
import FriscaOS.Task.Preemption
import FriscaOS.Task.RunQueue
import FriscaOS.Task.RoundRobin
import FriscaOS.Task.InterruptedCreation
import FriscaOS.Task.AtomicCreation
import FriscaOS.Task.Interruption
import FriscaOS.Fs.CString
import FriscaOS.Fs.Vfs
import FriscaOS.Fs.KernelRuns
import FriscaOS.Fs.FileOwnership
import FriscaOS.Fs.FileNames
import FriscaOS.Fs.FileMap
import FriscaOS.Drivers.Vga
import FriscaOS.Drivers.VgaDriver
import FriscaOS.Drivers.VgaRefinement
import FriscaOS.Drivers.VgaCursor
import FriscaOS.Drivers.Keyboard
import FriscaOS.Drivers.Typing
import FriscaOS.Drivers.Timer
import FriscaOS.Arch.Interrupts
import FriscaOS.Arch.DescriptorTable
import FriscaOS.Arch.ExceptionStub
import FriscaOS.Shell.Printing
import FriscaOS.Shell.Shell
import FriscaOS.Shell.CommandLine
import FriscaOS.Shell.Commands
import FriscaOS.Shell.LineEditor
import FriscaOS.Shell.ShellRuns
import FriscaOS.Shell.StoreEffects
import FriscaOS.Shell.FileRoundTrip
import FriscaOS.Shell.NestedCalls
import FriscaOS.Shell.NestedKeys
import FriscaOS.Shell.ScreenLine
import FriscaOS.Shell.ScreenText
import FriscaOS.Shell.Transcript
import FriscaOS.Shell.Console
import FriscaOS.Shell.Files
import FriscaOS.Shell.Listing
import FriscaOS.Shell.Replies
import FriscaOS.Shell.Dialogue
import FriscaOS.Arch.ExceptionReport
import FriscaOS.Arch.FaultScreen
