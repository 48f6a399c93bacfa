import FriscaOS.Arch.ExceptionStub
import FriscaOS.Shell.ScreenText

/-! What `isr_handler` and `page_fault_handler` leave on the screen before they halt. Neither
returns: the calls below are their last ones. -/
namespace FriscaOS

open ByteMemory Numeral PaperTerminal

/-! ### The code -/

/-- `hex_chars[digit]`. -/
def hexChar (digit : Nat) : UInt8 := (ascii "0123456789abcdef").getD digit 0

/-- The loop of `print_hex`, with `n` digits left. -/
def printHexLoop : Nat → UInt32 → Mem → Mem
  | 0, _, buf => buf
  | n + 1, value, buf =>
    printHexLoop n (value >>> 4) (buf.write8 (n + 2) (hexChar (value &&& 0xF).toNat))

/-- `print_hex`. -/
def printHex (value : UInt32) (locals : Mem) : Option (List VgaCall) :=
  let buf := ((locals.write8 0 48).write8 1 120).write8 10 0
  vgaWrite ((printHexLoop 8 value buf).bytes 0 11)

/-- `if (flag) vga_write(text);` -/
def vgaWriteIf (flag : Bool) (text : String) : Option (List VgaCall) :=
  if flag then vgaWrite (literal text) else some []

/-- The hints of `page_fault_handler`. -/
def pageFaultAdvice (errorCode : UInt32) : Option (List VgaCall) :=
  if errorCode &&& 1 = 0 then
    vgaWrites ["Hint: The page is not mapped. Common causes:\n",
      "  - Dereferencing a NULL or wild pointer\n",
      "  - Accessing memory beyond the identity-mapped 16 MB\n",
      "  - Forgetting to map a page before using it\n"]
  else if errorCode &&& 1 ≠ 0 ∧ errorCode &&& 2 ≠ 0 then
    vgaWrite (literal "Hint: Write to a read-only page.\n")
  else if errorCode &&& 4 ≠ 0 then
    vgaWrite (literal "Hint: User-mode access to kernel-only memory.\n")
  else some []

/-- `page_fault_handler`, where CR2 holds `faultAddr`. -/
def pageFaultHandler (errorCode faultAddr : UInt32) (locals : Mem) : Option (List VgaCall) := do
  let banner ← vgaWrites ["\n\n", "+==========================================+\n",
    "|          *** PAGE FAULT ***              |\n",
    "+==========================================+\n", "\n"]
  let address := (← vgaWrite (literal "Faulting address: 0x")) ++ (← printHex faultAddr locals) ++
    (← vgaWrite (literal "\n"))
  let code := (← vgaWrite (literal "Error code:       0x")) ++ (← printHex errorCode locals) ++
    (← vgaWrite (literal "  ("))
  let words ← vgaWrites [if errorCode &&& 1 ≠ 0 then "protection" else "not-present", ", ",
    if errorCode &&& 2 ≠ 0 then "write" else "read", ", ",
    if errorCode &&& 4 ≠ 0 then "user" else "kernel"]
  let reserved ← vgaWriteIf (errorCode &&& 8 ≠ 0) ", reserved-bit"
  let fetch ← vgaWriteIf (errorCode &&& 0x10 ≠ 0) ", instruction-fetch"
  let close ← vgaWrite (literal ")\n\n")
  let advice ← pageFaultAdvice errorCode
  let halted ← vgaWrite (literal "\nSystem halted. Please reboot.\n")
  return [.setColor .white .red, .clear] ++ banner ++ address ++
    (code ++ words ++ reserved ++ fetch ++ close) ++ advice ++ halted

/-- The `switch` of `isr_handler`. -/
def exceptionName (intNo : UInt32) : String :=
  match intNo.toNat with
  | 0 => "Divide-by-zero"
  | 1 => "Debug"
  | 2 => "Non-maskable interrupt"
  | 3 => "Breakpoint"
  | 4 => "Overflow"
  | 5 => "Bound range exceeded"
  | 6 => "Invalid opcode"
  | 7 => "Device not available"
  | 8 => "Double fault"
  | 9 => "Coprocessor segment overrun"
  | 10 => "Invalid TSS"
  | 11 => "Segment not present"
  | 12 => "Stack-segment fault"
  | 13 => "General protection fault"
  | 14 => "Page fault"
  | 15 => "Reserved"
  | 16 => "x87 floating-point exception"
  | 17 => "Alignment check"
  | 18 => "Machine check"
  | 19 => "SIMD floating-point exception"
  | 20 => "Virtualization exception"
  | 21 => "Control protection exception"
  | 30 => "Security exception"
  | _ => "Reserved exception"

/-- The hints of `isr_handler`. -/
def exceptionAdvice (intNo : UInt32) : Option (List VgaCall) :=
  if intNo = 0 then vgaWrite (literal "\nHint: Division by zero. Check your math.\n")
  else if intNo = 6 then
    vgaWrites ["\nHint: Bad instruction. EIP may point into data, or\n",
      "      the instruction is invalid for this CPU.\n"]
  else if intNo = 8 then
    vgaWrites ["\nHint: Double fault. Usually means an exception handler\n",
      "      itself crashed. Check the IDT and stack.\n"]
  else if intNo = 13 then
    vgaWrites ["\nHint: General protection fault. Common causes:\n",
      "  - Accessing unmapped segment\n", "  - Writing to read-only segment\n",
      "  - Privilege violation\n"]
  else some []

/-- `isr_handler`, with the registers at the pointer. -/
def isrHandler (regs : Registers) (cr2 : UInt32) (locals : Mem) : Option (List VgaCall) :=
  if regs.intNo = 14 then pageFaultHandler regs.errCode cr2 locals
  else do
    let banner ← vgaWrites ["\n\n", "+==========================================+\n",
      "|       *** CPU EXCEPTION ***              |\n",
      "+==========================================+\n", "\n"]
    let exception := (← vgaWrites ["Exception: ", exceptionName regs.intNo, " (#"]) ++
      (← printUint regs.intNo locals) ++ (← vgaWrite (literal ")\n"))
    let code := (← vgaWrite (literal "Error code: 0x")) ++ (← printHex regs.errCode locals) ++
      (← vgaWrite (literal "\n"))
    let eip := (← vgaWrite (literal "EIP: 0x")) ++ (← printHex regs.eip locals) ++
      (← vgaWrite (literal "\n"))
    let flags := (← vgaWrite (literal "CS:  0x")) ++ (← printHex regs.cs locals) ++
      (← vgaWrite (literal "  EFLAGS: 0x")) ++ (← printHex regs.eflags locals) ++
      (← vgaWrite (literal "\n"))
    let advice ← exceptionAdvice regs.intNo
    let halted ← vgaWrite (literal "\nSystem halted. Please reboot.\n")
    return [.setColor .white .red, .clear] ++ banner ++ exception ++ code ++ eip ++ flags ++
      advice ++ halted

/-! ### Hexadecimal numbers -/

/-- What `print_hex` prints: `0x` and eight digits. -/
def hexText (value : UInt32) : List UInt8 := ascii "0x" ++ padded 16 hexChar 8 value.toNat

variable {value : UInt32} {buf : Mem} {n : Nat} {c : UInt8}

theorem printHexLoop_digits (n : Nat) (value : UInt32) (buf : Mem) :
    (printHexLoop n value buf).bytes 2 n = padded 16 hexChar n value.toNat ∧
      Within {x | 2 ≤ x ∧ x < n + 2} buf (printHexLoop n value buf) := by
  induction n generalizing value buf with
  | zero => exact ⟨rfl, .refl _ buf⟩
  | succ n ih =>
    have quotient : (value >>> 4).toNat = value.toNat / 16 := by
      simp [Nat.shiftRight_eq_div_pow]
    have last : (value &&& 0xF).toNat = value.toNat % 16 := by
      simpa using Nat.and_two_pow_sub_one_eq_mod value.toNat 4
    obtain ⟨written, change⟩ := ih (value >>> 4) (buf.write8 (n + 2) (hexChar (value &&& 0xF).toNat))
    have kept := change (n + 2) (by simp)
    rw [printHexLoop]
    refine ⟨?_, ?_⟩
    · rw [Mem.bytes_add, written, Mem.bytes_one, Nat.add_comm 2 n, kept, Mem.write8_same, padded,
        quotient, last]
    · refine (Within.write8 _ ?_).trans (change.mono fun x inside => ?_)
      · exact ⟨by omega, by omega⟩
      · exact ⟨inside.1, Nat.lt_succ_of_lt inside.2⟩

theorem hexChar_plain {d : Nat} (small : d < 16) : Plain (hexChar d) := by
  have plain : Fits 16 (ascii "0123456789abcdef") := fits_of_check (by decide)
  refine plain.2 _ ?_
  rw [hexChar, List.getD_eq_getElem _ _ (by exact small)]
  exact List.getElem_mem _

theorem mem_hexText (member : c ∈ hexText value) : Plain c := by
  have mark : Fits 2 (ascii "0x") := fits_of_check (by decide)
  rcases List.mem_append.mp member with start | digit
  · exact mark.2 c start
  · obtain ⟨d, small, rfl⟩ := mem_padded (by decide) digit
    exact hexChar_plain small

theorem length_hexText (value : UInt32) : (hexText value).length = 10 := by
  rw [hexText, List.length_append, length_padded]
  rfl

theorem printHex_eq (value : UInt32) (locals : Mem) :
    printHex value locals = some ((hexText value).map .putchar) := by
  obtain ⟨digits, change⟩ :=
    printHexLoop_digits 8 value (((locals.write8 0 48).write8 1 120).write8 10 0)
  have mark : (printHexLoop 8 value (((locals.write8 0 48).write8 1 120).write8 10 0)).bytes 0 2 =
      ascii "0x" := by
    refine (Mem.bytes_congr fun x _ below => change x ?_).trans rfl
    rintro ⟨start, -⟩
    omega
  have terminator : (printHexLoop 8 value (((locals.write8 0 48).write8 1 120).write8 10 0)) 10 =
      0 := change 10 (by simp)
  have text : (printHexLoop 8 value (((locals.write8 0 48).write8 1 120).write8 10 0)).bytes 0 11 =
      hexText value ++ [0] := by
    rw [show 11 = 2 + (8 + 1) from rfl, Mem.bytes_add, Mem.bytes_add, Mem.bytes_one, mark, digits,
      terminator, hexText, List.append_assoc]
  rw [printHex, text]
  exact vgaWrite_append fun member => (mem_hexText member).1 rfl

/-! ### The reports -/

/-- A title between blank lines. -/
def reportHeader (title : String) : List String :=
  ["", "", "+==========================================+", title,
    "+==========================================+", ""]

def haltLines : List String := ["", "System halted. Please reboot."]

/-- What an error code says of a page fault. -/
def pageFaultWords (errorCode : UInt32) : List UInt8 :=
  ascii (if errorCode &&& 1 ≠ 0 then "protection" else "not-present") ++ ascii ", " ++
    ascii (if errorCode &&& 2 ≠ 0 then "write" else "read") ++ ascii ", " ++
    ascii (if errorCode &&& 4 ≠ 0 then "user" else "kernel") ++
    ascii (if errorCode &&& 8 ≠ 0 then ", reserved-bit" else "") ++
    ascii (if errorCode &&& 0x10 ≠ 0 then ", instruction-fetch" else "")

def pageFaultHint (errorCode : UInt32) : List String :=
  if errorCode &&& 1 = 0 then
    ["Hint: The page is not mapped. Common causes:", "  - Dereferencing a NULL or wild pointer",
      "  - Accessing memory beyond the identity-mapped 16 MB",
      "  - Forgetting to map a page before using it"]
  else if errorCode &&& 2 ≠ 0 then ["Hint: Write to a read-only page."]
  else if errorCode &&& 4 ≠ 0 then ["Hint: User-mode access to kernel-only memory."]
  else []

/-- The lines of a page fault. -/
def pageFaultReport (errorCode faultAddr : UInt32) : List (List UInt8) :=
  (reportHeader "|          *** PAGE FAULT ***              |").map ascii ++
    [ascii "Faulting address: 0x" ++ hexText faultAddr,
      ascii "Error code:       0x" ++ hexText errorCode ++ ascii "  (" ++
        pageFaultWords errorCode ++ ascii ")", []] ++
    (pageFaultHint errorCode).map ascii ++ haltLines.map ascii

def exceptionHint (intNo : UInt32) : List String :=
  if intNo = 0 then ["", "Hint: Division by zero. Check your math."]
  else if intNo = 6 then
    ["", "Hint: Bad instruction. EIP may point into data, or",
      "      the instruction is invalid for this CPU."]
  else if intNo = 8 then
    ["", "Hint: Double fault. Usually means an exception handler",
      "      itself crashed. Check the IDT and stack."]
  else if intNo = 13 then
    ["", "Hint: General protection fault. Common causes:", "  - Accessing unmapped segment",
      "  - Writing to read-only segment", "  - Privilege violation"]
  else []

/-- The lines of any other exception. -/
def exceptionReport (regs : Registers) : List (List UInt8) :=
  (reportHeader "|       *** CPU EXCEPTION ***              |").map ascii ++
    [ascii "Exception: " ++ ascii (exceptionName regs.intNo) ++ ascii " (#" ++
        numeral 10 digitChar regs.intNo.toNat ++ ascii ")",
      ascii "Error code: 0x" ++ hexText regs.errCode,
      ascii "EIP: 0x" ++ hexText regs.eip,
      ascii "CS:  0x" ++ hexText regs.cs ++ ascii "  EFLAGS: 0x" ++ hexText regs.eflags] ++
    (exceptionHint regs.intNo).map ascii ++ haltLines.map ascii

/-- The lines that an exception leaves on the screen. -/
def faultReport (regs : Registers) (cr2 : UInt32) : List (List UInt8) :=
  if regs.intNo = 14 then pageFaultReport regs.errCode cr2 else exceptionReport regs

/-! ### Lines of literals -/

theorem fits_header {title : String} (fits : Fits 79 (ascii title)) :
    ∀ s ∈ reportHeader title, Fits 79 (ascii s) := by
  have empty : Fits 79 (ascii "") := fits_of_check (by decide)
  have rule : Fits 79 (ascii "+==========================================+") :=
    fits_of_check (by decide)
  simp only [reportHeader, List.forall_mem_cons]
  exact ⟨empty, empty, rule, fits, rule, empty, List.forall_mem_nil _⟩

theorem fits_halt : ∀ s ∈ haltLines, Fits 79 (ascii s) := fits_all_of_check (by decide)

theorem fits_pageFaultHint (errorCode : UInt32) : ∀ s ∈ pageFaultHint errorCode, Fits 79 (ascii s) := by
  refine fits_all_of_check ?_
  rw [pageFaultHint]
  split_ifs <;> decide

theorem fits_exceptionHint (intNo : UInt32) : ∀ s ∈ exceptionHint intNo, Fits 79 (ascii s) := by
  refine fits_all_of_check ?_
  rw [exceptionHint]
  split_ifs <;> decide

/-! ### What is printed -/

theorem pageFaultAdvice_eq (errorCode : UInt32) : pageFaultAdvice errorCode =
    some ((textOf ((pageFaultHint errorCode).map ascii)).map .putchar) := by
  have plain := fits_pageFaultHint errorCode
  rw [pageFaultAdvice]
  rw [pageFaultHint] at plain ⊢
  by_cases present : errorCode &&& 1 = 0
  · rw [if_pos present] at plain ⊢
    rw [if_pos present]
    exact vgaWrites_lines rfl plain
  · rw [if_neg present] at plain ⊢
    rw [if_neg present]
    by_cases write : errorCode &&& 2 ≠ 0
    · rw [if_pos write] at plain ⊢
      rw [if_pos ⟨present, write⟩]
      exact vgaWrite_lines rfl plain
    · rw [if_neg write] at plain ⊢
      rw [if_neg fun both => write both.2]
      by_cases user : errorCode &&& 4 ≠ 0
      · rw [if_pos user] at plain ⊢
        rw [if_pos user]
        exact vgaWrite_lines rfl plain
      · rw [if_neg user, if_neg user]
        rfl

theorem exceptionAdvice_eq (intNo : UInt32) : exceptionAdvice intNo =
    some ((textOf ((exceptionHint intNo).map ascii)).map .putchar) := by
  have plain := fits_exceptionHint intNo
  rw [exceptionAdvice]
  rw [exceptionHint] at plain ⊢
  split_ifs at plain ⊢
  · exact vgaWrite_lines rfl plain
  · exact vgaWrites_lines rfl plain
  · exact vgaWrites_lines rfl plain
  · exact vgaWrites_lines rfl plain
  · rfl

theorem printed_ite {flag : Prop} [Decidable flag] {s t : String} (first : (ascii s).contains 0 = false)
    (second : (ascii t).contains 0 = false) :
    printed (if flag then s else t) = (ascii (if flag then s else t)).map .putchar := by
  split
  · exact printed_plain first
  · exact printed_plain second

theorem vgaWriteIf_eq {text : String} (flag : Bool) (noNul : (ascii text).contains 0 = false) :
    vgaWriteIf flag text = some ((ascii (if flag then text else "")).map .putchar) := by
  cases flag with
  | false => rfl
  | true => exact (vgaWrite_literal text).trans (congrArg some (printed_plain noNul))

theorem pageFaultWords_eq (errorCode : UInt32) :
    ∃ words reserved fetch, vgaWrites [if errorCode &&& 1 ≠ 0 then "protection" else "not-present",
        ", ", if errorCode &&& 2 ≠ 0 then "write" else "read", ", ",
        if errorCode &&& 4 ≠ 0 then "user" else "kernel"] = some words ∧
      vgaWriteIf (errorCode &&& 8 ≠ 0) ", reserved-bit" = some reserved ∧
      vgaWriteIf (errorCode &&& 0x10 ≠ 0) ", instruction-fetch" = some fetch ∧
      words ++ reserved ++ fetch = (pageFaultWords errorCode).map .putchar := by
  refine ⟨_, _, _, vgaWrites_eq _, vgaWriteIf_eq _ (by decide),
    vgaWriteIf_eq _ (by decide), ?_⟩
  have comma : printed ", " = (ascii ", ").map .putchar := printed_plain (by decide)
  simp only [List.flatMap_cons, List.flatMap_nil, List.append_nil, comma, pageFaultWords,
    decide_eq_true_eq, List.map_append, List.append_assoc]
  rw [printed_ite (by decide) (by decide),
    printed_ite (by decide) (by decide),
    printed_ite (by decide) (by decide)]

/-- `page_fault_handler` prints its report and nothing else. -/
theorem pageFaultHandler_eq (errorCode faultAddr : UInt32) (locals : Mem) :
    pageFaultHandler errorCode faultAddr locals =
      some (clearedText .white .red (pageFaultReport errorCode faultAddr)) := by
  have title : Fits 79 (ascii "|          *** PAGE FAULT ***              |") :=
    fits_of_check (by decide)
  have banner : vgaWrites ["\n\n", "+==========================================+\n",
    "|          *** PAGE FAULT ***              |\n",
    "+==========================================+\n", "\n"] = _ :=
    vgaWrites_lines rfl (fits_header title)
  have halted : vgaWrite (literal "\nSystem halted. Please reboot.\n") = _ :=
    vgaWrite_lines rfl fits_halt
  have address : printed "Faulting address: 0x" = (ascii "Faulting address: 0x").map .putchar :=
    printed_plain (by decide)
  have code : printed "Error code:       0x" = (ascii "Error code:       0x").map .putchar :=
    printed_plain (by decide)
  have open_ : printed "  (" = (ascii "  (").map .putchar := printed_plain (by decide)
  have close : printed ")\n\n" = (ascii ")" ++ [newline, newline]).map .putchar := rfl
  have end_ : printed "\n" = [VgaCall.putchar newline] := rfl
  obtain ⟨words, reserved, fetch, hwords, hreserved, hfetch, all⟩ := pageFaultWords_eq errorCode
  simp only [pageFaultHandler, pageFaultAdvice_eq, banner, halted, hwords, hreserved, hfetch,
    vgaWrite_literal, printHex_eq, Option.bind_eq_bind, Option.bind_some, Option.pure_def]
  have joined (rest : List VgaCall) : words ++ (reserved ++ (fetch ++ rest)) =
      (pageFaultWords errorCode).map .putchar ++ rest := by
    rw [← all, List.append_assoc, List.append_assoc]
  rw [Option.some.injEq]
  simp only [address, code, open_, close, end_, clearedText, pageFaultReport, textOf_append,
    textOf_cons, List.map_append, List.append_assoc, List.map_cons, List.map_nil,
    List.cons_append, List.nil_append, joined]

theorem fits_exceptionName (intNo : UInt32) : Fits 29 (ascii (exceptionName intNo)) := by
  refine fits_of_check ?_
  rw [exceptionName]
  split <;> decide

/-- `isr_handler` prints one report and nothing else. -/
theorem isrHandler_eq (regs : Registers) (cr2 : UInt32) (locals : Mem) :
    isrHandler regs cr2 locals = some (clearedText .white .red (faultReport regs cr2)) := by
  rw [isrHandler, faultReport]
  split
  · exact pageFaultHandler_eq ..
  have title : Fits 79 (ascii "|       *** CPU EXCEPTION ***              |") :=
    fits_of_check (by decide)
  have banner : vgaWrites ["\n\n", "+==========================================+\n",
    "|       *** CPU EXCEPTION ***              |\n",
    "+==========================================+\n", "\n"] = _ :=
    vgaWrites_lines rfl (fits_header title)
  have halted : vgaWrite (literal "\nSystem halted. Please reboot.\n") = _ :=
    vgaWrite_lines rfl fits_halt
  have head : vgaWrites ["Exception: ", exceptionName regs.intNo, " (#"] = _ := vgaWrites_eq _
  have name : printed (exceptionName regs.intNo) = (ascii (exceptionName regs.intNo)).map .putchar :=
    printed_plain (fits_exceptionName regs.intNo).noNul
  have exception : printed "Exception: " = (ascii "Exception: ").map .putchar :=
    printed_plain (by decide)
  have open_ : printed " (#" = (ascii " (#").map .putchar := printed_plain (by decide)
  have close : printed ")\n" = (ascii ")" ++ [newline]).map .putchar := rfl
  have code : printed "Error code: 0x" = (ascii "Error code: 0x").map .putchar :=
    printed_plain (by decide)
  have eip : printed "EIP: 0x" = (ascii "EIP: 0x").map .putchar := printed_plain (by decide)
  have cs : printed "CS:  0x" = (ascii "CS:  0x").map .putchar := printed_plain (by decide)
  have eflags : printed "  EFLAGS: 0x" = (ascii "  EFLAGS: 0x").map .putchar :=
    printed_plain (by decide)
  have end_ : printed "\n" = [VgaCall.putchar newline] := rfl
  simp only [head, exceptionAdvice_eq, banner, halted, printUint_numeral, vgaWrite_literal,
    printHex_eq, Option.bind_eq_bind, Option.bind_some, Option.pure_def]
  rw [Option.some.injEq]
  simp only [exception, open_, close, code, eip, cs, eflags, name, end_, clearedText,
    exceptionReport, textOf_append, textOf_cons, List.map_append, List.append_assoc, List.map_cons,
    List.map_nil, List.cons_append, List.nil_append, List.flatMap_cons, List.flatMap_nil]

/-! ### The screen -/

theorem fits_hexText (value : UInt32) : Fits 10 (hexText value) :=
  ⟨(length_hexText value).le, fun _ member => mem_hexText member⟩

theorem fits_ite {flag : Prop} [Decidable flag] {n : Nat} {s t : String} (first : Fits n (ascii s))
    (second : Fits n (ascii t)) : Fits n (ascii (if flag then s else t)) := by
  split
  · exact first
  · exact second

theorem fits_pageFaultWords (errorCode : UInt32) : Fits 59 (pageFaultWords errorCode) := by
  have comma : Fits 2 (ascii ", ") := fits_of_check (by decide)
  have present : Fits 11 (ascii (if errorCode &&& 1 ≠ 0 then "protection" else "not-present")) :=
    fits_ite (fits_of_check (by decide)) (fits_of_check (by decide))
  have write : Fits 5 (ascii (if errorCode &&& 2 ≠ 0 then "write" else "read")) :=
    fits_ite (fits_of_check (by decide)) (fits_of_check (by decide))
  have user : Fits 6 (ascii (if errorCode &&& 4 ≠ 0 then "user" else "kernel")) :=
    fits_ite (fits_of_check (by decide)) (fits_of_check (by decide))
  have reserved : Fits 14 (ascii (if errorCode &&& 8 ≠ 0 then ", reserved-bit" else "")) :=
    fits_ite (fits_of_check (by decide)) (fits_of_check (by decide))
  have fetch : Fits 19 (ascii (if errorCode &&& 0x10 ≠ 0 then ", instruction-fetch" else "")) :=
    fits_ite (fits_of_check (by decide)) (fits_of_check (by decide))
  exact (((((present.append comma).append write).append comma).append user).append reserved).append
    fetch

theorem fits_exceptionReport (regs : Registers) : ∀ line ∈ exceptionReport regs, Fits 79 line := by
  have title : Fits 79 (ascii "|       *** CPU EXCEPTION ***              |") :=
    fits_of_check (by decide)
  have exception : Fits 11 (ascii "Exception: ") := fits_of_check (by decide)
  have open_ : Fits 3 (ascii " (#") := fits_of_check (by decide)
  have close : Fits 1 (ascii ")") := fits_of_check (by decide)
  have code : Fits 14 (ascii "Error code: 0x") := fits_of_check (by decide)
  have eip : Fits 7 (ascii "EIP: 0x") := fits_of_check (by decide)
  have cs : Fits 7 (ascii "CS:  0x") := fits_of_check (by decide)
  have eflags : Fits 12 (ascii "  EFLAGS: 0x") := fits_of_check (by decide)
  have name := fits_exceptionName regs.intNo
  have number := fits_numeral (Nat.lt_trans regs.intNo.toNat_lt (by decide))
  simp only [exceptionReport, List.forall_mem_append, List.forall_mem_cons]
  refine ⟨⟨⟨fits_map (fits_header title), ?_, ?_, ?_, ?_, List.forall_mem_nil _⟩,
    fits_map (fits_exceptionHint _)⟩, fits_map fits_halt⟩
  · exact ((((exception.append name).append open_).append number).append close).mono (by decide)
  · exact (code.append (fits_hexText _)).mono (by decide)
  · exact (eip.append (fits_hexText _)).mono (by decide)
  · exact (((cs.append (fits_hexText _)).append eflags).append (fits_hexText _)).mono (by decide)

/-- Of a page fault, only the line of the error code can be longer than a row. -/
theorem fits_pageFaultReport (errorCode faultAddr : UInt32) :
    ∃ before line after, pageFaultReport errorCode faultAddr = before ++ line :: after ∧
      before.length = 7 ∧ after.length ≤ 7 ∧ Fits 93 line ∧ ∀ l ∈ before ++ after, Fits 79 l := by
  have title : Fits 79 (ascii "|          *** PAGE FAULT ***              |") :=
    fits_of_check (by decide)
  have address : Fits 20 (ascii "Faulting address: 0x") := fits_of_check (by decide)
  have code : Fits 20 (ascii "Error code:       0x") := fits_of_check (by decide)
  have open_ : Fits 3 (ascii "  (") := fits_of_check (by decide)
  have close : Fits 1 (ascii ")") := fits_of_check (by decide)
  have empty : Fits 79 [] := fits_of_check (by decide)
  have hints : (pageFaultHint errorCode).length ≤ 4 := by
    rw [pageFaultHint]
    split_ifs <;> decide
  refine ⟨(reportHeader "|          *** PAGE FAULT ***              |").map ascii ++
      [ascii "Faulting address: 0x" ++ hexText faultAddr], _,
    [] :: ((pageFaultHint errorCode).map ascii ++ haltLines.map ascii), ?_, rfl, ?_,
    (((code.append (fits_hexText errorCode)).append open_).append
      (fits_pageFaultWords errorCode)).append close, ?_⟩
  · simp only [pageFaultReport, List.append_assoc, List.cons_append, List.nil_append]
  · have two : haltLines.length = 2 := rfl
    rw [List.length_cons, List.length_append, List.length_map, List.length_map]
    omega
  · simp only [List.forall_mem_append, List.forall_mem_cons]
    exact ⟨⟨fits_map (fits_header title), (address.append (fits_hexText _)).mono (by decide),
      List.forall_mem_nil _⟩, empty, fits_map (fits_pageFaultHint _), fits_map fits_halt⟩

/-- The report is as the rows of a screen, of which it leaves some to spare. -/
theorem faultReport_rows (regs : Registers) (cr2 : UInt32) :
    (∀ line ∈ faultReport regs cr2, ∀ c ∈ line, Plain c) ∧
      ((faultReport regs cr2).flatMap (rowsOf 80)).length < 25 := by
  rw [faultReport]
  split
  · obtain ⟨before, line, after, report, seven, few, long, short⟩ :=
      fits_pageFaultReport regs.errCode cr2
    rw [report]
    constructor
    · intro l member
      rcases List.mem_append.mp member with early | late
      · exact (short l (List.mem_append_left _ early)).2
      · rcases List.mem_cons.mp late with rfl | late
        · exact long.2
        · exact (short l (List.mem_append_right _ late)).2
    · have rows : (rowsOf 80 line).length ≤ 2 := by
        have bound := long.1
        rw [length_rowsOf (by decide)]
        omega
      have early : before.flatMap (rowsOf 80) = before := flatMap_rowsOf_short fun l member =>
        Nat.lt_succ_of_le (short l (List.mem_append_left _ member)).1
      have late : after.flatMap (rowsOf 80) = after := flatMap_rowsOf_short fun l member =>
        Nat.lt_succ_of_le (short l (List.mem_append_right _ member)).1
      rw [List.flatMap_append, List.flatMap_cons, early, late, List.length_append,
        List.length_append]
      omega
  · have fits := fits_exceptionReport regs
    have hints : (exceptionHint regs.intNo).length ≤ 5 := by
      rw [exceptionHint]
      split_ifs <;> decide
    refine ⟨fun line member => (fits line member).2, ?_⟩
    rw [flatMap_rowsOf_short fun line member => Nat.lt_succ_of_le (fits line member).1]
    have six : (reportHeader "|       *** CPU EXCEPTION ***              |").length = 6 := rfl
    have two : haltLines.length = 2 := rfl
    simp only [exceptionReport, List.length_append, List.length_map, List.length_cons,
      List.length_nil]
    omega

theorem screenReads_faultReport (buffer : UInt32 → UInt16) (before : List VgaCall)
    (regs : Registers) (cr2 : UInt32) :
    ScreenReads (screenAfter buffer (before ++ clearedText .white .red (faultReport regs cr2))) 0x4F
      ((faultReport regs cr2).flatMap (rowsOf 80)) := by
  obtain ⟨plain, room⟩ := faultReport_rows regs cr2
  exact screenReads_clearedText buffer before .white .red plain room

/-- Whatever was on the screen, after an exception it shows the report of the exception and nothing
else, white on red. -/
theorem fault_on_screen (buffer : UInt32 → UInt16) (before : List VgaCall) (regs : Registers)
    (cr2 : UInt32) (locals : Mem) : ∃ calls, isrHandler regs cr2 locals = some calls ∧
      ((faultReport regs cr2).flatMap (rowsOf 80)).length < 25 ∧
      ScreenReads (screenAfter buffer (before ++ calls)) 0x4F
        ((faultReport regs cr2).flatMap (rowsOf 80)) := by
  exact ⟨_, isrHandler_eq regs cr2 locals, (faultReport_rows regs cr2).2,
    screenReads_faultReport buffer before regs cr2⟩

end FriscaOS
