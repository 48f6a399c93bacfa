import FriscaOS.Lib.I386Gates
import FriscaOS.Lib.Pic8259

/-! `idt_init`: the gates it writes, the interrupt controllers as it leaves them, and where every
exception and every interrupt line ends up. -/
namespace FriscaOS

open ByteMemory I386 Pic8259

/-! ### The code -/

/-- The addresses that `idt.c` refers to. -/
structure IdtSymbols where
  idt : UInt32
  isrHandler : Nat → UInt32
  irq0Handler : UInt32
  irq1Handler : UInt32
  fits : idt.toNat + 2048 ≤ 2 ^ 32

/-- The CPU and the devices that `idt_init` sets up. -/
structure Platform where
  core : Core
  idtr : Idtr
  pics : Pair

/-- `outb`, as far as the interrupt controllers see it. -/
def outb (p : Pair) (port : UInt16) (val : UInt8) : Pair :=
  if port = 0x20 then { p with master := p.master.command val }
  else if port = 0x21 then { p with master := p.master.data val }
  else if port = 0xA0 then { p with slave := p.slave.command val }
  else if port = 0xA1 then { p with slave := p.slave.data val }
  else p

/-- `pic_remap`. -/
def picRemap (p : Pair) : Pair :=
  -- ICW1
  let p := outb p 0x20 0x11
  let p := outb p 0xA0 0x11
  -- ICW2: vector offsets
  let p := outb p 0x21 0x20
  let p := outb p 0xA1 0x28
  -- ICW3: how the two are wired together
  let p := outb p 0x21 0x04
  let p := outb p 0xA1 0x02
  -- ICW4: 8086 mode
  let p := outb p 0x21 0x01
  let p := outb p 0xA1 0x01
  -- the masks
  let p := outb p 0x21 0xFC
  outb p 0xA1 0xFF

/-- `idt_set_gate`, where the table is at `idt`. -/
def idtSetGate (idt : UInt32) (m : Mem) (num : UInt8) (base : UInt32) (sel : UInt16)
    (flags : UInt8) : Mem :=
  let entry := idt.toNat + 8 * num.toNat
  let m := m.write16 entry base.toUInt16
  let m := m.write16 (entry + 6) (base >>> 16).toUInt16
  let m := m.write16 (entry + 2) sel
  let m := m.write8 (entry + 4) 0
  m.write8 (entry + 5) flags

/-- The gates of vectors `0` to `n - 1`, in this order. -/
def idtSetGates (idt : UInt32) (base : Nat → UInt32) (sel : UInt16) (flags : UInt8) (n : Nat)
    (m : Mem) : Mem :=
  (List.range n).foldl (fun m i => idtSetGate idt m (UInt8.ofNat i) (base i) sel flags) m

/-- `idt_init`. -/
def idtInit (sym : IdtSymbols) (p : Platform) : Platform :=
  let idtp : Idtr := ⟨8 * 256 - 1, sym.idt⟩
  let m := p.core.cpu.mem
  let m := idtSetGates sym.idt (fun _ => 0) 0 0 256 m
  let m := idtSetGates sym.idt sym.isrHandler 0x08 0x8E 32 m
  let pics := picRemap p.pics
  let m := idtSetGate sym.idt m 0x20 sym.irq0Handler 0x08 0x8E
  let m := idtSetGate sym.idt m 0x21 sym.irq1Handler 0x08 0x8E
  -- `lidt`, then `sti`
  { core := { p.core with
      cpu := { p.core.cpu with mem := m, eflags := p.core.cpu.eflags ||| flagIF } }
    idtr := idtp
    pics := pics }

/-! ### Gates in memory -/

section gates

variable {idt base : UInt32} {m : Mem} {num : UInt8} {sel : UInt16} {flags : UInt8} {v n : Nat}

theorem idtSetGate_within :
    Within {x | idt.toNat + 8 * num.toNat ≤ x ∧ x < idt.toNat + 8 * num.toNat + 8} m
      (idtSetGate idt m num base sel flags) := by
  intro x outside
  have apart : x < idt.toNat + 8 * num.toNat ∨ idt.toNat + 8 * num.toNat + 8 ≤ x := by
    by_contra inside
    exact outside ⟨by omega, by omega⟩
  simp only [idtSetGate]
  rw [Mem.write8_other _ _ (by omega), Mem.write8_other _ _ (by omega),
    Mem.write16_other _ _ (by omega), Mem.write16_other _ _ (by omega),
    Mem.write16_other _ _ (by omega)]

/-- A gate is decoded as it was set, and the other gates are as before. -/
theorem read_idtSetGate : Gate.read (idtSetGate idt m num base sel flags) (idt.toNat + 8 * v) =
    if v = num.toNat then ⟨base, sel, flags⟩ else Gate.read m (idt.toNat + 8 * v) := by
  split
  · next same =>
    subst same
    simp (disch := omega) only [Gate.read, idtSetGate, Mem.read16_write8_apart,
      Mem.read16_write16_apart, Mem.read16_write16, Mem.write8_same, halves]
  · next other =>
    apply Gate.read_congr
    intro x lower upper
    apply idtSetGate_within x
    rintro ⟨start, stop⟩
    omega

/-- The loop sets the gates it counts. -/
theorem read_idtSetGates (handlers : Nat → UInt32) (small : n ≤ 256) :
    Gate.read (idtSetGates idt handlers sel flags n m) (idt.toNat + 8 * v) =
      if v < n then ⟨handlers v, sel, flags⟩ else Gate.read m (idt.toNat + 8 * v) := by
  induction n with
  | zero => rfl
  | succ n ih =>
    have index : (UInt8.ofNat n).toNat = n := UInt8.toNat_ofNat_of_lt' small
    rw [idtSetGates, List.range_succ, List.foldl_append, List.foldl_cons, List.foldl_nil,
      ← idtSetGates, read_idtSetGate, index, ih (by omega)]
    grind

theorem idtSetGates_within (handlers : Nat → UInt32) (small : n ≤ 256) :
    Within {x | idt.toNat ≤ x ∧ x < idt.toNat + 2048} m
      (idtSetGates idt handlers sel flags n m) := by
  induction n with
  | zero => exact .refl _ m
  | succ n ih =>
    have index : (UInt8.ofNat n).toNat = n := UInt8.toNat_ofNat_of_lt' small
    rw [idtSetGates, List.range_succ, List.foldl_append, List.foldl_cons, List.foldl_nil,
      ← idtSetGates]
    apply (ih (by omega)).trans
    apply idtSetGate_within.mono
    rintro x ⟨start, stop⟩
    exact ⟨by omega, by omega⟩

end gates

/-! ### Where interrupts end up -/

/-- The handler of a vector. -/
def IdtSymbols.handler (sym : IdtSymbols) (v : UInt8) : Option UInt32 :=
  if v < 32 then some (sym.isrHandler v.toNat)
  else if v = 0x20 then some sym.irq0Handler
  else if v = 0x21 then some sym.irq1Handler
  else none

/-- What the table says of a vector. -/
def IdtSymbols.gate (sym : IdtSymbols) (v : UInt8) : Gate :=
  match sym.handler v with
  | some handler => ⟨handler, 0x08, 0x8E⟩
  | none => ⟨0, 0, 0⟩

variable {sym : IdtSymbols} {p q : Platform}

theorem read_idtInit (p : Platform) (v : UInt8) :
    Gate.read (idtInit sym p).core.cpu.mem (sym.idt.toNat + 8 * v.toNat) = sym.gate v := by
  have bound := v.toNat_lt
  simp only [idtInit, read_idtSetGate, read_idtSetGates _ (Nat.le_refl 256),
    read_idtSetGates _ (show 32 ≤ 256 by decide), if_pos bound, IdtSymbols.gate, IdtSymbols.handler,
    UInt8.lt_iff_toNat_lt, ← UInt8.toNat_inj, UInt8.reduceToNat]
  split_ifs
  all_goals first | rfl | omega

/-- `idt_init` stores to the table only. -/
theorem idtInit_within : Within {x | sym.idt.toNat ≤ x ∧ x < sym.idt.toNat + 2048} p.core.cpu.mem
    (idtInit sym p).core.cpu.mem := by
  have one {m : Mem} {num : UInt8} {base : UInt32} :
      Within {x | sym.idt.toNat ≤ x ∧ x < sym.idt.toNat + 2048} m
        (idtSetGate sym.idt m num base 0x08 0x8E) := by
    apply idtSetGate_within.mono
    have bound := num.toNat_lt
    rintro x ⟨start, stop⟩
    exact ⟨by omega, by omega⟩
  exact (idtSetGates_within _ (by decide)).trans
    ((idtSetGates_within _ (by decide)).trans (one.trans one))

/-- The controllers are set up whatever they were doing before. -/
theorem picRemap_eq (p : Pair) : picRemap p =
    ⟨⟨.mask, false, true, 0x20, 0x04, 0x01, 0xFC⟩, ⟨.mask, false, true, 0x28, 0x02, 0x01, 0xFF⟩⟩ := by
  have parts : picRemap p =
    ⟨((((p.master.command 0x11).data 0x20).data 0x04).data 0x01).data 0xFC,
      ((((p.slave.command 0x11).data 0x28).data 0x02).data 0x01).data 0xFF⟩ := rfl
  rw [parts, Chip.initialised _ (by decide) (by decide) (by decide),
    Chip.initialised _ (by decide) (by decide) (by decide)]
  rfl

/-- The machine some time after `idt_init`: the table, its register and the controllers are as it
left them. -/
structure Platform.SetUp (sym : IdtSymbols) (p q : Platform) : Prop where
  idtr : q.idtr = (idtInit sym p).idtr
  pics : q.pics = (idtInit sym p).pics
  table : ∀ x, sym.idt.toNat ≤ x → x < sym.idt.toNat + 2048 →
    q.core.cpu.mem x = (idtInit sym p).core.cpu.mem x

/-- An interrupt request on a line, up to the first instruction of its handler. -/
def Platform.raise (p : Platform) (line : Nat) : Option (Except GateFault Core) :=
  (p.pics.vector line).map fun v => p.core.accept p.idtr v none

theorem Platform.SetUp.accept (later : Platform.SetUp sym p q) (v : UInt8)
    (errorCode : Option UInt32) : q.core.accept q.idtr v errorCode =
      (sym.handler v).elim (.error .generalProtection) fun handler =>
        .ok (q.core.deliver 0x08 handler errorCode) := by
  have bound := v.toNat_lt
  have gate : Gate.read q.core.cpu.mem (sym.idt.toNat + 8 * v.toNat) = sym.gate v := by
    rw [← read_idtInit p v]
    exact Gate.read_congr fun x lower upper => later.table x (by omega) (by omega)
  have idtr : q.idtr = ⟨2047, sym.idt⟩ := later.idtr
  have inside : ¬(2047 : UInt16).toNat < 8 * v.toNat + 7 := by
    simp
    omega
  simp only [Core.accept, idtr, if_neg inside, gate, IdtSymbols.gate]
  cases sym.handler v with
  | none => rfl
  | some handler =>
    dsimp only
    rw [if_neg (by decide), if_neg (by decide)]
    rfl

theorem Platform.SetUp.vector (later : Platform.SetUp sym p q) (line : Fin 16) :
    q.pics.vector line =
      if line = 0 then some 0x20 else if line = 1 then some 0x21 else none := by
  have pics : q.pics = picRemap p.pics := later.pics
  rw [pics, picRemap_eq]
  revert line
  decide

/-- After `idt_init` only the timer and the keyboard interrupt, and they reach their handlers. Every
exception reaches its own stub, which no interrupt does, and the other vectors fault. -/
theorem interrupts_reach_handlers (later : Platform.SetUp sym p q) :
    (∀ line : Fin 16, q.raise line =
      if line = 0 then some (.ok (q.core.deliver 0x08 sym.irq0Handler none))
      else if line = 1 then some (.ok (q.core.deliver 0x08 sym.irq1Handler none))
      else none) ∧
    (∀ v < 32, ∀ errorCode, q.core.accept q.idtr v errorCode =
      .ok (q.core.deliver 0x08 (sym.isrHandler v.toNat) errorCode)) ∧
    ∀ v > 0x21, ∀ errorCode, q.core.accept q.idtr v errorCode = .error .generalProtection := by
  refine ⟨fun line => ?_, fun v exception errorCode => ?_, fun v beyond errorCode => ?_⟩
  · rw [Platform.raise, later.vector]
    split_ifs with timer keyboard
    · rw [Option.map_some, later.accept]
      rfl
    · rw [Option.map_some, later.accept]
      rfl
    · rfl
  · rw [later.accept, IdtSymbols.handler, if_pos exception]
    rfl
  · have high : ¬v < 32 ∧ v ≠ 0x20 ∧ v ≠ 0x21 := by
      grind
    rw [later.accept, IdtSymbols.handler, if_neg high.1, if_neg high.2.1, if_neg high.2.2]
    rfl

/-- A kernel image with its table at 0x9000. -/
def bootSymbols : IdtSymbols := ⟨0x9000, fun v => 0x1000 + UInt32.ofNat (16 * v), 0x2000, 0x2100,
  by decide⟩

/-- The controllers as the firmware leaves them: IRQ 0 on vector 8. -/
def bootPlatform : Platform where
  core := ⟨⟨fun _ => 0, 0x8FF00, 0x1000, 0x2, fun _ => 0xFF⟩, fun _ => 0x10⟩
  idtr := ⟨0x3FF, 0⟩
  pics := ⟨⟨.mask, false, true, 8, 4, 1, 0xB8⟩, ⟨.mask, false, true, 0x70, 2, 1, 0x8F⟩⟩

theorem interrupts_reach_handlers_boot :
    (idtInit bootSymbols bootPlatform).raise 0 =
      some (.ok ((idtInit bootSymbols bootPlatform).core.deliver 0x08 0x2000 none)) := by
  have later : Platform.SetUp bootSymbols bootPlatform (idtInit bootSymbols bootPlatform) :=
    ⟨rfl, rfl, fun _ _ _ => rfl⟩
  exact (interrupts_reach_handlers later).1 0

end FriscaOS
