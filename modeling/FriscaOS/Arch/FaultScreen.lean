import FriscaOS.Arch.ExceptionReport
import FriscaOS.Memory.IdentityMap

/-! From a failing instruction to the screen: what can be read off the screen after an exception is
what the CPU knew of it, and every access behind the mapped 16 MB ends up there. -/
namespace FriscaOS

open ByteMemory I386 Numeral PaperTerminal Transition

/-! ### Reading the screen -/

def hexValue (c : UInt8) : Nat := if c < 97 then c.toNat - 48 else c.toNat - 87

/-- The eight hexadecimal digits from a column on. -/
def hexAt (row : List UInt8) (column : Nat) : UInt32 :=
  .ofNat (value 16 hexValue ((row.drop column).take 8))

/-- The decimal number behind the first `#`. -/
def numberAfterHash (row : List UInt8) : UInt32 :=
  .ofNat (decimalValue (((row.dropWhile (· != 35)).drop 1).takeWhile fun c => 48 ≤ c && c ≤ 57))

variable {v : VgaDriver} {rows : List (List UInt8)} {row before after : List UInt8} {y : Nat}
  {colour : UInt8}

theorem hexValue_hexChar : ∀ d < 16, hexValue (hexChar d) = d := by
  have all : ((List.range 16).all fun d => hexValue (hexChar d) == d) = true := by decide
  intro d small
  exact eq_of_beq (List.all_eq_true.mp all d (List.mem_range.mpr small))

/-- What `print_hex` printed is read back. -/
theorem hexAt_text (before after : List UInt8) (number : UInt32) {column : Nat}
    (place : before.length + 2 = column) :
    hexAt (before ++ hexText number ++ after) column = number := by
  have digits : (((before ++ hexText number ++ after).drop column).take 8) =
      padded 16 hexChar 8 number.toNat := by
    have mark : (before ++ ascii "0x").length = column := by
      rw [List.length_append, ← place]
      rfl
    have parts : before ++ hexText number ++ after =
        (before ++ ascii "0x") ++ (padded 16 hexChar 8 number.toNat ++ after) := by
      simp only [hexText, List.append_assoc]
    rw [parts, ← mark, List.drop_left, List.take_left' length_padded]
  have bound := number.toNat_lt
  rw [hexAt, digits, value_padded (by decide) hexValue_hexChar, Nat.mod_eq_of_lt (by omega),
    UInt32.ofNat_toNat]

/-- What `print_uint` printed is read back. -/
theorem numberAfterHash_text (before after : List UInt8) (number : UInt32)
    (noHash : before.contains 35 = false) (stop : ∀ c ∈ after.head?, ¬(48 ≤ c ∧ c ≤ 57)) :
    numberAfterHash (before ++ 35 :: (numeral 10 digitChar number.toNat ++ after)) = number := by
  have decimal := decimalOf_numeral number
  have start : (before ++ 35 :: (numeral 10 digitChar number.toNat ++ after)).dropWhile (· != 35) =
      35 :: (numeral 10 digitChar number.toNat ++ after) := by
    rw [List.dropWhile_append_of_pos, List.dropWhile_cons_of_neg (by decide)]
    intro c member
    rw [List.contains_eq_mem, decide_eq_false_iff_not] at noHash
    exact bne_iff_ne.mpr fun hash => noHash (hash ▸ member)
  have stopped : after.takeWhile (fun c => 48 ≤ c && c ≤ 57) = [] := by
    cases after with
    | nil => rfl
    | cons c after => exact List.takeWhile_cons_of_neg (by simpa using stop c rfl)
  have digits : (numeral 10 digitChar number.toNat ++ after).takeWhile
      (fun c => 48 ≤ c && c ≤ 57) = numeral 10 digitChar number.toNat := by
    rw [List.takeWhile_append_of_pos, stopped, List.append_nil]
    intro c member
    simpa [UInt8.le_iff_toNat_le] using decimal.digits c member
  rw [numberAfterHash, start, List.drop_succ_cons, List.drop_zero, digits, decimal.value,
    UInt32.ofNat_toNat]

/-! ### The rows of the reports -/

/-- The lines of an exception are the rows of the screen. -/
theorem exceptionRows (regs : Registers) (other : regs.intNo ≠ 14) (cr2 : UInt32) :
    (faultReport regs cr2).flatMap (rowsOf 80) = exceptionReport regs := by
  rw [faultReport, if_neg other]
  exact flatMap_rowsOf_short fun line member =>
    Nat.lt_succ_of_le (fits_exceptionReport regs line member).1

/-- The line of a page fault's error code. -/
def errorCodeLine (errorCode : UInt32) : List UInt8 :=
  ascii "Error code:       0x" ++ hexText errorCode ++
    (ascii "  (" ++ pageFaultWords errorCode ++ ascii ")")

theorem rowsOf_first (line : List UInt8) : ∃ rest, rowsOf 80 line = line.take 80 :: rest := by
  by_cases short : line.length < 80
  · exact ⟨[], by rw [rowsOf_short short, List.take_of_length_le short.le]⟩
  · exact ⟨_, rowsOf_long (by decide) (Nat.le_of_not_lt short)⟩

theorem pageFaultRows (regs : Registers) (pageFault : regs.intNo = 14) (cr2 : UInt32) :
    ∃ after, (faultReport regs cr2).flatMap (rowsOf 80) =
      (reportHeader "|          *** PAGE FAULT ***              |").map ascii ++
        (ascii "Faulting address: 0x" ++ hexText cr2) ::
          (errorCodeLine regs.errCode).take 80 :: after := by
  have title : Fits 79 (ascii "|          *** PAGE FAULT ***              |") :=
    fits_of_check (by decide)
  have address : Fits 20 (ascii "Faulting address: 0x") := fits_of_check (by decide)
  have header := flatMap_rowsOf_short fun line member =>
    Nat.lt_succ_of_le (fits_map (fits_header title) line member).1
  have short := rowsOf_short (w := 80) (Nat.lt_of_le_of_lt
    (address.append (fits_hexText cr2)).1 (by decide))
  obtain ⟨rest, first⟩ := rowsOf_first (errorCodeLine regs.errCode)
  rw [errorCodeLine] at first
  simp only [faultReport, if_pos pageFault, pageFaultReport, List.flatMap_append, header,
    List.flatMap_cons, short, List.append_assoc] at first ⊢
  rw [first]
  exact ⟨_, rfl⟩

theorem exceptionName_noHash (intNo : UInt32) :
    (ascii "Exception: " ++ ascii (exceptionName intNo) ++ ascii " (").contains 35 = false := by
  rw [exceptionName]
  split <;> decide

/-! ### What can be read back -/

variable {regs : Registers} {cr2 : UInt32}

/-- Other exceptions: the vector, the error code, EIP, CS and EFLAGS. -/
theorem ScreenReads.exception (reads : ScreenReads v colour ((faultReport regs cr2).flatMap
    (rowsOf 80))) (other : regs.intNo ≠ 14) :
    numberAfterHash (v.rowText 6) = regs.intNo ∧ hexAt (v.rowText 7) 16 = regs.errCode ∧
      hexAt (v.rowText 8) 9 = regs.eip ∧ hexAt (v.rowText 9) 9 = regs.cs ∧
      hexAt (v.rowText 9) 31 = regs.eflags := by
  rw [exceptionRows regs other] at reads
  have fits := fits_exceptionReport regs
  have row {y : Nat} {text : List UInt8} (below : y < 25)
      (there : (exceptionReport regs)[y]? = some text) :
      v.rowText y = text ++ List.replicate (80 - text.length) 32 :=
    reads.rowText below there
      ((fits text (List.mem_of_getElem? there)).1.trans (by decide))
  have third : (ascii "CS:  0x" ++ hexText regs.cs ++ ascii "  EFLAGS: 0x").length = 29 := by
    rw [List.length_append, List.length_append, length_hexText]
    rfl
  refine ⟨?_, ?_, ?_, ?_, ?_⟩
  · have hash : ascii " (#" = ascii " (" ++ [35] := rfl
    have text (n : Nat) := numberAfterHash_text (ascii "Exception: " ++
      ascii (exceptionName regs.intNo) ++ ascii " (") (ascii ")" ++ List.replicate n 32)
      regs.intNo (exceptionName_noHash regs.intNo) (by
        rintro c ⟨⟩
        decide)
    rw [row (by decide) rfl]
    simp only [hash, List.append_assoc, List.cons_append,
      List.nil_append] at text ⊢
    exact text _
  · rw [row (by decide) rfl]
    exact hexAt_text _ _ _ rfl
  · rw [row (by decide) rfl]
    exact hexAt_text _ _ _ rfl
  · have text (n : Nat) := hexAt_text (ascii "CS:  0x")
      (ascii "  EFLAGS: 0x" ++ (hexText regs.eflags ++ List.replicate n 32)) regs.cs rfl
    rw [row (by decide) rfl]
    simp only [List.append_assoc] at text ⊢
    exact text _
  · rw [row (by decide) rfl]
    exact hexAt_text _ _ _ (by rw [third])

/-- A page fault: the address and the error code. -/
theorem ScreenReads.pageFault (reads : ScreenReads v colour ((faultReport regs cr2).flatMap
    (rowsOf 80))) (pageFault : regs.intNo = 14) :
    v.rowText 6 = spaced (ascii "Faulting address: 0x" ++ hexText cr2) ∧
      (errorCodeLine regs.errCode).take 80 <+: v.rowText 7 := by
  obtain ⟨rest, rows⟩ := pageFaultRows regs pageFault cr2
  rw [rows] at reads
  have address : (ascii "Faulting address: 0x" ++ hexText cr2).length = 30 := by
    rw [List.length_append, length_hexText]
    rfl
  refine ⟨reads.rowText (by decide) rfl (by omega), ?_⟩
  · rw [reads.rowText (by decide) rfl (List.length_take_le ..)]
    exact List.prefix_append _ _

/-- The error code of the page fault that an access of the kernel raises, or `none` where it raises
none. Only with the WP bit of CR0 do read-only pages count. -/
def accessFault (m : Mem) (r : ControlRegs) (v : UInt32) (write : Bool) : Option UInt32 :=
  if r.cr0 &&& 0x80000000 = 0 then none
  else if directoryEntry m r v &&& pagePresent = 0 ∨ tableEntry m r v &&& pagePresent = 0 then
    some (if write then 2 else 0)
  else if write ∧ r.cr0 &&& 0x10000 ≠ 0 ∧
      (directoryEntry m r v &&& pageRw = 0 ∨ tableEntry m r v &&& pageRw = 0) then some 3
  else none

variable {memSize : UInt32} {r : ControlRegs} {b s : Layers} {ops : List LayerOp} {m : Mem}

/-- The entries of the first 16 MB, and all of the directory, are as boot left them. -/
theorem LayersInv.directoryEntry_eq (inv : LayersInv memSize b s) (booted : Booted memSize r b)
    (v : UInt32) : directoryEntry s.heap.mem s.regs v = directoryEntry b.heap.mem b.regs v := by
  have root : frameOf b.regs.cr3 = bootDirectory := by
    rw [booted.regs]
    exact frameOf_aligned (q := bootDirectory) (by decide)
  rw [directoryEntry, directoryEntry, inv.regs, root]
  exact inv.word (.head _) (directoryIndex_lt v)

theorem LayersInv.tableEntry_eq {v : UInt32} (inv : LayersInv memSize b s)
    (booted : Booted memSize r b) (low : v.toNat < 0x1000000) :
    tableEntry s.heap.mem s.regs v = tableEntry b.heap.mem b.regs v := by
  have index := toNat_directoryIndex v
  have mapped : (directoryIndex v).toNat < bootTables.length := by
    have four : bootTables.length = 4 := rfl
    omega
  have member := List.getElem_mem mapped
  have root : frameOf b.regs.cr3 = bootDirectory := by
    rw [booted.regs]
    exact frameOf_aligned (q := bootDirectory) (by decide)
  have table : frameOf (directoryEntry b.heap.mem b.regs v) =
      bootTables[(directoryIndex v).toNat] := by
    rw [directoryEntry, root, booted.entry (List.getElem?_eq_getElem mapped),
      frameOf_flags (bootPages_aligned _ (.tail _ member))]
  rw [tableEntry, tableEntry, inv.directoryEntry_eq booted, table]
  exact inv.word (.tail _ member) (tableIndex_lt v)

/-- In every run after boot exactly the accesses behind the first 16 MB fail. -/
theorem LayersInv.accessFault_eq (inv : LayersInv memSize b s) (booted : Booted memSize r b)
    (v : UInt32) (write : Bool) : accessFault s.heap.mem s.regs v write =
      if v.toNat < 0x1000000 then none else some (if write then 2 else 0) := by
  obtain ⟨m, built⟩ := booted.directory
  have on : ¬s.regs.cr0 &&& 0x80000000 = 0 := by
    rw [inv.regs, booted.regs]
    exact enablePaging_on _
  rw [accessFault, if_neg on]
  by_cases low : v.toNat < 0x1000000
  · -- both entries are present and writable
    obtain ⟨directory, table, -⟩ := built.identity (r := r) bootTables_placed rfl low
    rw [← booted.regs, ← inv.directoryEntry_eq booted] at directory
    rw [← booted.regs, ← inv.tableEntry_eq booted low] at table
    rw [if_pos low, if_neg fun absent => absent.elim directory.1 table.1,
      if_neg fun readOnly => readOnly.2.2.elim directory.2.1 table.2.1]
  · have absent := built.absent (r := r) bootTables_placed rfl (Nat.le_of_not_lt low)
    rw [← booted.regs, ← inv.directoryEntry_eq booted] at absent
    rw [if_neg low, if_pos (.inl absent)]

/-- What is printed of an access behind the first 16 MB. -/
def wildAccess (write : Bool) : String :=
  if write then "Error code:       0x0x00000002  (not-present, write, kernel)"
  else "Error code:       0x0x00000000  (not-present, read, kernel)"

theorem take_errorCodeLine (write : Bool) :
    (errorCodeLine (if write then 2 else 0)).take 80 = ascii (wildAccess write) := by
  cases write <;> rfl

/-- In every run after boot, an access of the kernel fails exactly if it is behind the first 16 MB;
then the screen names the address, and tells a read from a write. -/
theorem wild_access_reported (enough : 0x100000 + 9 * 4096 ≤ memSize.toNat)
    (run : Run LayerStep (memoryInit memSize m r) ops s) (c : Core)
    (room : 60 ≤ c.cpu.esp.toNat) (stack : c.cpu.esp.toNat ≤ 0x1000000) (v handler : UInt32)
    (write : Bool) (buffer : UInt32 → UInt16) (before : List VgaCall) (locals : Mem) :
    (v.toNat < 0x1000000 → accessFault s.heap.mem s.regs v write = none) ∧
      (0x1000000 ≤ v.toNat → ∃ code calls, accessFault s.heap.mem s.regs v write = some code ∧
        (∀ x : UInt32, c.cpu.esp.toNat - 60 ≤ x.toNat → x.toNat < c.cpu.esp.toNat →
          accessFault s.heap.mem s.regs x true = none) ∧
        let c' := exceptionEntry c 14 handler (some code)
        isrHandler (Registers.read c'.cpu.mem c'.cpu.top) v locals = some calls ∧
          (screenAfter buffer (before ++ calls)).rowText 6 =
            spaced (ascii "Faulting address: 0x" ++ hexText v) ∧
          ascii (wildAccess write) <+: (screenAfter buffer (before ++ calls)).rowText 7) := by
  have booted := memoryInit_booted enough m r
  have inv : LayersInv memSize (memoryInit memSize m r) s :=
    run.invariant _ (fun _ _ _ inv taken => inv.step taken) booted.inv
  refine ⟨fun low => ?_, fun high => ?_⟩
  · rw [inv.accessFault_eq booted, if_pos low]
  · have fault := inv.accessFault_eq booted v write
    rw [if_neg (Nat.not_lt.mpr high)] at fault
    have reads := screenReads_faultReport buffer before
      (failedRegisters c 14 (some (if write then 2 else 0))) v
    obtain ⟨address, line⟩ := reads.pageFault rfl
    refine ⟨_, _, fault, fun x _ upper => ?_, ?_, address, ?_⟩
    · rw [inv.accessFault_eq booted, if_pos (upper.trans_le stack)]
    · rw [read_exceptionEntry (by cases write <;> rfl) room]
      exact isrHandler_eq ..
    · rw [← take_errorCodeLine]
      exact line

/-- A write to 0xDEADBEEF, right after boot with 16 MB. -/
theorem wild_access_reported_boot :
    let s := memoryInit 0x1000000 (fun _ => 0) ⟨0, 0⟩
    ∃ code calls, accessFault s.heap.mem s.regs 0xDEADBEEF true = some code ∧
      isrHandler (Registers.read (exceptionEntry faultingCore 14 0x3000 (some code)).cpu.mem
        (exceptionEntry faultingCore 14 0x3000 (some code)).cpu.top) 0xDEADBEEF (fun _ => 0) =
          some calls ∧
      ascii "Error code:       0x0x00000002  (not-present, write, kernel)" <+:
        (screenAfter (fun _ => 0) calls).rowText 7 := by
  intro s
  have boot : Run LayerStep s [] s := .nil s
  obtain ⟨-, wild⟩ := wild_access_reported (by decide) boot faultingCore (by decide) (by decide)
    0xDEADBEEF 0x3000 true (fun _ => 0) [] (fun _ => 0)
  obtain ⟨code, calls, fault, -, handled, -, line⟩ := wild (by decide)
  exact ⟨code, calls, fault, handled, line⟩

end FriscaOS
