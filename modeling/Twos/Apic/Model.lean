import Twos.Acpi.Model

/-!
# The interrupt controllers

`apic.c` and `ioapic.c`. The registers of the IOAPIC are 32 bits wide and are reached through a
select register, of which the low eight bits count; a redirection entry is a pair of them. The
registers of the local APIC are only written here.

A read or a write of a register is one of memory too, at the base that the MADT gives. So the routines
that do it have a `Space` among their arguments, and stop where it has no page; what they do to the
registers is kept apart from that, as functions on `Regs`. The tables of records are read through a
`Reader`, as in `Acpi.Model`.
-/

namespace Twos.Apic

open Lib Acpi

/-! ## The local APIC -/

abbrev APIC_SPURIOUS_VECTOR_REG : Nat := 0xf0
abbrev APIC_ENABLE : Nat := 1 <<< 8
abbrev SPURIOUS_INT : Nat := 0xff

/-- `lapic`, and what `lapic_enable` writes to the spurious-vector register. -/
structure Lapic where
  id : Nat
  base : Nat
  spurious : Nat

/-- `lapic_write`, as far as memory goes. -/
def lapicTouch (s : Space) (base reg : Nat) : Except Stop Unit := s.touch (base + reg) 4

/-- `apic_init`, with the answer of `apic_is_available`. -/
def apicInit (s : Space) (acpi : AcpiInst) (available : Bool) : Except Stop (Space × Lapic) := do
  lift (assert available "apic_is_available()")
  let base ← s.read (acpi.madt + 36) 4
  let proc ← acpi.tblAt .procApic 0
  let id ← s.read (proc + 3) 1
  let s := s.mapSelf base
  lapicTouch s base APIC_SPURIOUS_VECTOR_REG
  .ok (s, { id, base, spurious := APIC_ENABLE ||| SPURIOUS_INT })

/-! ## Registers of the IOAPIC -/

abbrev IOAPICVER : Nat := 1
abbrev IDT_EXCEPTIONS : Nat := 32
abbrev NUM_IRQ : Nat := 16

/-- The register file. -/
abbrev Regs : Type := Nat → BitVec 32

/-- `ioapic_read`. -/
def ioapicRead (regs : Regs) (reg : Nat) : BitVec 32 := regs (reg % 256)

/-- `ioapic_write`, whose data is a `uint32_t`. -/
def ioapicWrite (regs : Regs) (reg : Nat) (data : BitVec 32) : Regs := fun r =>
  if r = reg % 256 then data else regs r

/-- `IOAPICREDTBL(n)`, as the `uint8_t` it is put into. -/
def redtbl (n : Nat) : Nat := (0x10 + 2 * (n % 256)) % 256

/-- `ioapic_read_redtbl_entry`. The upper half is shifted by 31, in 32 bits. -/
def ioapicReadRedtblEntry (regs : Regs) (entry : Nat) : BitVec 64 :=
  let offset := redtbl entry
  (ioapicRead regs offset).setWidth 64 ||| (ioapicRead regs (offset + 1) <<< 31).setWidth 64

/-- `ioapic_mask_gsi`, with `max_redir`, and the value it returns. -/
def ioapicMaskGsi (maxRedir : Nat) (regs : Regs) (idx : Nat) : Nat × Regs :=
  let data := ioapicReadRedtblEntry regs idx
  if idx > maxRedir then (1, regs)
  else (0, ioapicWrite regs (redtbl idx) ((data ||| 1#64 <<< 16).setWidth 32))

/-- `ioapic_unmask_gsi`. -/
def ioapicUnmaskGsi (maxRedir : Nat) (regs : Regs) (idx : Nat) : Nat × Regs :=
  let data := ioapicReadRedtblEntry regs idx
  if idx > maxRedir then (1, regs)
  else (0, ioapicWrite regs (redtbl idx) ((data &&& ~~~(1#64 <<< 16)).setWidth 32))

/-- The assignments to `vector`, `mask` and `destination` of a `redirection_entry_t`. -/
def setFields (data : BitVec 64) (vector : Nat) : BitVec 64 :=
  let data := (data &&& ~~~0xFF#64) ||| BitVec.ofNat 64 (vector % 256)
  let data := data ||| 1#64 <<< 16
  data &&& ~~~(0xFF#64 <<< 56)

/-- `ioapic_map_redtbl_entry`. -/
def ioapicMapRedtblEntry (regs : Regs) (entry vector : Nat) : Regs :=
  let data := setFields (ioapicReadRedtblEntry regs entry) (vector + IDT_EXCEPTIONS)
  let offset := redtbl entry
  let regs := ioapicWrite regs offset (data.setWidth 32)
  ioapicWrite regs (offset + 1) ((data >>> 32).setWidth 32)

/-! ## Setting up the IOAPIC -/

/-- `ioapic`, and its registers. -/
structure Ioapic where
  base : Nat
  gsiBase : Nat
  maxRedir : Nat
  regs : Regs

/-- The two words of memory through which the registers are reached. -/
def ioapicTouch (s : Space) (base : Nat) : Except Stop Unit := do
  s.touch base 4
  s.touch (base + 0x10) 4

/-- An interrupt source override, `acpi.tbl.ioso_apic[i]`. -/
structure Override where
  irq : Nat
  gsi : Nat
  deriving DecidableEq

/-- Its fields that are read. -/
def readOverride (read : Reader) (acpi : AcpiInst) (i : Nat) : Except Stop Override := do
  let ptr ← acpi.tblAt .iosoApic i
  let gsi ← read (ptr + 4) 4
  let irq ← read (ptr + 3) 1
  .ok { irq, gsi }

/-- The first loop of `ioapic_init`: `for (uint8_t i = 0; i < max_redir + 1; i++)`. -/
def maskEntries (maxRedir : Nat) (regs : Regs) : Except Stop Regs := do
  let (_, regs) ← whileLoop (.fault .neverEnds) (fun s => decide (s.1 < maxRedir + 1))
    (fun s => .ok ((s.1 + 1) % 256, (ioapicMaskGsi maxRedir s.2 s.1).2)) 257 (0, regs)
  .ok regs

/-- One iteration of the second loop, over the overrides, with `irq_map`. -/
def mapOverride (o : Override) (s : Regs × (Nat → Bool)) : Regs × (Nat → Bool) :=
  let regs := ioapicMapRedtblEntry s.1 (o.gsi % 256) o.irq
  (regs, if o.gsi < 16 then fun i => if i = o.gsi then true else s.2 i else s.2)

/-- The second loop. -/
def mapOverrides (read : Reader) (acpi : AcpiInst) (regs : Regs) :
    Except Stop (Regs × (Nat → Bool)) :=
  forLt (fun i s => do
    let o ← readOverride read acpi i
    .ok (mapOverride o s)) (acpi.tbl .iosoApic).length (regs, fun _ => false)

/-- The third loop, over the interrupts that no override has claimed. -/
def mapIdentity (irqMap : Nat → Bool) (regs : Regs) : Regs :=
  (List.range NUM_IRQ).foldl (fun regs i =>
    if irqMap i then regs else ioapicMapRedtblEntry regs i i) regs

/-- `ioapic.max_redir`: bits 16 to 23 of the version register, plus one, as a `uint8_t`. -/
def readMaxRedir (regs : Regs) : Nat := ((ioapicRead regs IOAPICVER).toNat / 2 ^ 16 + 1) % 256

/-- What `ioapic_init` does to the registers: `max_redir`, and the registers it leaves. -/
def ioapicProgram (read : Reader) (acpi : AcpiInst) (regs : Regs) : Except Stop (Nat × Regs) := do
  let maxRedir := readMaxRedir regs
  let regs ← maskEntries maxRedir regs
  let (regs, irqMap) ← mapOverrides read acpi regs
  .ok (maxRedir, mapIdentity irqMap regs)

/-- What `ioapic_init` asserts of the base. -/
def baseInWindow (base : Nat) : Bool :=
  decide ((base + KERNEL_VADDR) % WORD < KERNEL_VADDR + KERNEL_VADDR_SIZE)

/-- `ioapic_init`, with the registers as it finds them. -/
def ioapicInit (s : Space) (acpi : AcpiInst) (regs : Regs) : Except Stop (Space × Ioapic) := do
  let io ← acpi.tblAt .ioApic 0
  let base ← s.read (io + 4) 4
  let gsiBase ← s.read (io + 8) 4
  lift (assert (baseInWindow base)
    "ioapic.base + KERNEL_VADDR < (KERNEL_VADDR + KERNEL_VADDR_SIZE)")
  let s := s.mapSelf base
  ioapicTouch s base
  let (maxRedir, regs) ← ioapicProgram s.read acpi regs
  .ok (s, { base, gsiBase, maxRedir, regs })

/-! ## Masking single interrupts -/

/-- What `ioapic_mask` and `ioapic_unmask` share: the entry that an interrupt goes to. -/
def findOverride (read : Reader) (acpi : AcpiInst) (irq : Nat) : Nat → Nat → Except Stop Nat
  | 0, _ => .ok irq
  | n + 1, i => do
      let ptr ← acpi.tblAt .iosoApic i
      let source ← read (ptr + 3) 1
      if source = irq then do
        let gsi ← read (ptr + 4) 4
        .ok (gsi % 256)
      else findOverride read acpi irq n (i + 1)

/-- The same, with interrupt 0 left alone. -/
def entryOf (read : Reader) (acpi : AcpiInst) (irq : Nat) : Except Stop Nat :=
  if irq = 0 then .ok irq else findOverride read acpi irq (acpi.tbl .iosoApic).length 0

/-- `ioapic_mask`. -/
def ioapicMask (s : Space) (acpi : AcpiInst) (io : Ioapic) (irq : Nat) : Except Stop Ioapic := do
  let entry ← entryOf s.read acpi irq
  ioapicTouch s io.base
  .ok { io with regs := (ioapicMaskGsi io.maxRedir io.regs entry).2 }

/-- `ioapic_unmask`. -/
def ioapicUnmask (s : Space) (acpi : AcpiInst) (io : Ioapic) (irq : Nat) : Except Stop Ioapic := do
  let entry ← entryOf s.read acpi irq
  ioapicTouch s io.base
  .ok { io with regs := (ioapicUnmaskGsi io.maxRedir io.regs entry).2 }

/-! ## Masking all interrupts -/

/-- `ioapic_mask_all`, whose counter starts at the first vector behind the exceptions. -/
def ioapicMaskAll (s : Space) (acpi : AcpiInst) (io : Ioapic) : Except Stop Ioapic :=
  forLt (fun i io => ioapicMask s acpi io (IDT_EXCEPTIONS + i)) NUM_IRQ io

/-- `ioapic_unmask_all`. -/
def ioapicUnmaskAll (s : Space) (acpi : AcpiInst) (io : Ioapic) : Except Stop Ioapic :=
  forLt (fun i io => ioapicUnmask s acpi io (IDT_EXCEPTIONS + i)) NUM_IRQ io

end Twos.Apic
