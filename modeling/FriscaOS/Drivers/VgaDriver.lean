import FriscaOS.Drivers.Vga
import FriscaOS.Lib.ByteMemory

/-! The driver of `vga.c`: the text buffer, the cursor, and the cursor registers of the CRT
controller. -/
namespace FriscaOS

open ByteMemory Function

def vgaWidth : UInt32 := 80

def vgaHeight : UInt32 := 25

def vgaCtrlPort : UInt16 := 0x3D4

def vgaDataPort : UInt16 := 0x3D5

/-- The register that the CRT controller has selected, and the two bytes of the cursor position,
once they were sent. -/
structure Crtc where
  index : UInt8
  cursorHigh : Option UInt8
  cursorLow : Option UInt8

namespace Crtc

def outb (d : Crtc) (port : UInt16) (value : UInt8) : Crtc :=
  if port = vgaCtrlPort then { d with index := value }
  else if port = vgaDataPort then
    if d.index = 0x0E then { d with cursorHigh := some value }
    else if d.index = 0x0F then { d with cursorLow := some value }
    else d
  else d

/-- The last position that was sent. -/
def position (d : Crtc) : Option UInt16 := do
  let high ← d.cursorHigh
  let low ← d.cursorLow
  return high.toUInt16 <<< 8 ||| low.toUInt16

end Crtc

/-- The text buffer and the static variables, with the devices that the driver writes to. -/
structure VgaDriver where
  -- by index, also behind the 2000 cells of the screen
  buffer : UInt32 → UInt16
  row : UInt32
  column : UInt32
  currentColor : UInt8
  crtc : Crtc
  -- the indices of `buffer` that were stored to, the last one first
  stores : List UInt32

namespace VgaDriver

/-- Before `vga_init`: static variables are zero, and the buffer holds anything. -/
def boot (buffer : UInt32 → UInt16) : VgaDriver where
  buffer := buffer
  row := 0
  column := 0
  currentColor := 0
  crtc := ⟨0, none, none⟩
  stores := []

/-- `buffer[i] = entry`. -/
def store (v : VgaDriver) (i : UInt32) (entry : UInt16) : VgaDriver :=
  { v with buffer := update v.buffer i entry, stores := i :: v.stores }

end VgaDriver

def vgaEntry (uc color : UInt8) : UInt16 := uc.toUInt16 ||| color.toUInt16 <<< 8

def vgaEntryColor (fg bg : UInt8) : UInt8 := fg ||| bg <<< 4

def vgaGetIndex (x y : UInt32) : UInt32 := y * vgaWidth + x

/-- `vga_entry(' ', current_color)`. -/
def VgaDriver.space (v : VgaDriver) : UInt16 := vgaEntry 32 v.currentColor

def vgaUpdateCursor (x y : UInt32) (v : VgaDriver) : VgaDriver :=
  let pos : UInt16 := (y * vgaWidth + x).toUInt16
  let crtc := v.crtc.outb vgaCtrlPort 0x0E
  let crtc := crtc.outb vgaDataPort ((pos >>> 8) &&& 0xFF).toUInt8
  let crtc := crtc.outb vgaCtrlPort 0x0F
  let crtc := crtc.outb vgaDataPort (pos &&& 0xFF).toUInt8
  { v with crtc := crtc }

/-- A loop over the cells of a row, `n` of them from column `x` on. -/
def storeRow (value : VgaDriver → UInt32 → UInt16) (y : UInt32) :
    Nat → UInt32 → VgaDriver → VgaDriver
  | 0, _, v => v
  | n + 1, x, v => storeRow value y n (x + 1) (v.store (vgaGetIndex x y) (value v x))

/-- Fill a row with spaces. -/
def clearRow (y : UInt32) (v : VgaDriver) : VgaDriver := storeRow (fun v _ => v.space) y 80 0 v

/-- The loop of `vga_clear` over the rows, `n` of them from row `y` on. -/
def clearRows : Nat → UInt32 → VgaDriver → VgaDriver
  | 0, _, v => v
  | n + 1, y, v => clearRows n (y + 1) (clearRow y v)

def vgaClear (v : VgaDriver) : VgaDriver := { clearRows 25 0 v with row := 0, column := 0 }

def vgaInit (v : VgaDriver) : VgaDriver :=
  vgaClear { v with currentColor := vgaEntryColor VgaColor.white.toByte VgaColor.black.toByte }

def vgaSetColor (foreground background : UInt8) (v : VgaDriver) : VgaDriver :=
  { v with currentColor := vgaEntryColor foreground background }

/-- Copy a row from the row below it. -/
def copyRow (y : UInt32) (v : VgaDriver) : VgaDriver :=
  storeRow (fun v x => v.buffer (vgaGetIndex x (y + 1))) y 80 0 v

/-- The loop of `vga_scroll` over the rows, `n` of them from row `y` on. -/
def copyRows : Nat → UInt32 → VgaDriver → VgaDriver
  | 0, _, v => v
  | n + 1, y, v => copyRows n (y + 1) (copyRow y v)

def vgaScroll (v : VgaDriver) : VgaDriver :=
  let v := copyRows 24 0 v
  let v := clearRow (vgaHeight - 1) v
  { v with row := vgaHeight - 1 }

/-- `column = 0; if (++row == VGA_HEIGHT) vga_scroll();` -/
def nextRow (v : VgaDriver) : VgaDriver :=
  let v := { v with column := 0, row := v.row + 1 }
  if v.row = vgaHeight then vgaScroll v else v

def vgaPutchar (c : UInt8) (v : VgaDriver) : VgaDriver :=
  -- a newline leaves the hardware cursor where it is
  if c = newline then nextRow v
  else if c = backspace then
    let v :=
      if v.column > 0 then { v with column := v.column - 1 }
      else if v.row > 0 then { v with row := v.row - 1, column := vgaWidth - 1 }
      else v
    let v := v.store (vgaGetIndex v.column v.row) v.space
    vgaUpdateCursor v.column v.row v
  else
    let v := v.store (vgaGetIndex v.column v.row) (vgaEntry c v.currentColor)
    let v := { v with column := v.column + 1 }
    let v := if v.column = vgaWidth then nextRow v else v
    vgaUpdateCursor v.column v.row v

/-- `vga_write`, with the bytes of the string. The terminator is the first zero, or comes behind
them. -/
def vgaWriteString : List UInt8 → VgaDriver → VgaDriver
  | [], v => v
  | c :: data, v => if c ≠ 0 then vgaWriteString data (vgaPutchar c v) else v

inductive VgaOp
  | putchar (c : UInt8)
  | write (data : List UInt8)
  | clear
  | setColor (foreground background : UInt8)

def VgaOp.exec : VgaOp → VgaDriver → VgaDriver
  | putchar c => vgaPutchar c
  | write data => vgaWriteString data
  | clear => vgaClear
  | setColor foreground background => vgaSetColor foreground background

/-- The driver after `vga_init` and some calls. -/
def VgaDriver.after (buffer : UInt32 → UInt16) (ops : List VgaOp) : VgaDriver :=
  ops.foldl (fun v op => op.exec v) (vgaInit (.boot buffer))

end FriscaOS
