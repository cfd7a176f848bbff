import Twos.Apic.Modes
import Twos.Isr.Gates
import Twos.Lib.Views

/-!
# Interrupts, from the pin to the handler

`irq_handler` and `register_interupt_handler` of `isr.c`, with what stands before them: the entries of
the IOAPIC, the local APIC that holds what has been requested and what is being served, and the gates.
Devices signal at any time, also while a handler runs, and handlers may register, mask and unmask; what
is said here is said of all orders of these.

All of it together is a small machine, `Lines`: pins that are heard or not, sixteen interrupts that wait
or do not, and one at a time that is served. This file has the two machines, `Irqs` and `Lines`, each
with its step on an `Act`, and what is seen of the first as the second, `Irqs.lines`. `Isr.Lines` has the
simulation, and `Isr.Served` what follows from it.
-/

namespace Twos.Isr

open Lib Acpi Apic

/-! ## The local APIC -/

/-- What has been requested, and what is being served. Nothing writes the task priority, which is 0. -/
structure LocalApic where
  irr : Nat → Bool
  isr : Nat → Bool

/-- The class of what is served. There are 16 vectors to a class. -/
def LocalApic.serving (l : LocalApic) : Nat :=
  match topmost l.isr 256 with
  | none => 0
  | some v => v / 16

/-- The vector that the processor is offered: the topmost, if it is of a higher class than what is
served. -/
def LocalApic.offers (l : LocalApic) : Option Nat :=
  (topmost l.irr 256).filter fun v => decide (l.serving < v / 16)

def LocalApic.request (l : LocalApic) (v : Nat) : LocalApic :=
  { l with irr := fun w => if w = v then true else l.irr w }

/-- The processor takes a vector. -/
def LocalApic.accept (l : LocalApic) (v : Nat) : LocalApic :=
  ⟨without l.irr v, fun w => if w = v then true else l.isr w⟩

/-- `lapic_sendEOI`: the topmost vector that is served is not any more. -/
def LocalApic.sendEOI (l : LocalApic) : LocalApic :=
  match topmost l.isr 256 with
  | none => l
  | some v => { l with isr := without l.isr v }

/-! ## `isr.c` -/

/-- `irq_handler`, up to its `lapic_sendEOI`: the handlers that it calls, with the `int_no` they find.
A slot is empty where it holds 0. -/
def irqHandler (interuptHandlers : Nat → Nat) (intNo : BitVec 64) : Except Fault (List (Nat × Nat)) :=
  if interuptHandlers (intNo &&& 0xff).toNat ≠ 0 then
    if intNo.toNat < 256 then .ok [(intNo.toNat, interuptHandlers intNo.toNat)]
    else .error .outOfBounds
  else .ok []

/-- `register_interupt_handler`. -/
def registerInteruptHandler (interuptHandlers : Nat → Nat) (n handlerFn : Nat) : Nat → Nat :=
  fun v => if v = n % 256 then handlerFn else interuptHandlers v

/-! ## The whole -/

/-- The machine's tables, which nothing here changes, and the number of the local APIC. -/
structure Board where
  image : Image
  idt : Nat → IdtEntry
  space : Space
  acpi : AcpiInst
  id : BitVec 8

/-- The two controllers, `interupt_handlers`, the `int_no` that `irq_handler` is at, and the handlers
that it has called. -/
structure Irqs where
  io : Ioapic
  lapic : LocalApic
  handlers : Nat → Nat
  running : Option Nat
  calls : List (Nat × Nat)

/-- What can happen. `software` is an `int` of the kernel, which does not go through the controllers. -/
inductive Act where
  | signal (pin : Nat)
  | take
  | software (v : Nat)
  | finish
  | register (n handlerFn : Nat)
  | mask (irq : Nat)
  | unmask (irq : Nat)
  deriving DecidableEq

/-- The processor goes through a gate into `irq_handler`, as far as the call of the handler. Where there
is no such gate, the kernel does not come back. -/
def Board.enter (b : Board) (s : Irqs) (v : Nat) : Option Irqs :=
  match deliver b.image b.idt (fun _ => 0) v with
  | some (.irqHandler, n) =>
      match irqHandler s.handlers n with
      | .ok called => some { s with running := some n.toNat, calls := s.calls ++ called }
      | .error _ => none
  | _ => none

/-- One act, where it is possible. Entries of other modes, or for other processors, are not modelled: a
signal that comes to one is `none`. -/
def Board.step (b : Board) (s : Irqs) : Act → Option Irqs
  | .signal pin =>
      let entry := redirection s.io.regs pin
      if masked entry then some s
      else if modes entry = 0 ∧ destination entry = b.id then
        some { s with lapic := s.lapic.request (vector entry).toNat }
      else none
  | .take =>
      if s.running.isSome then none
      else match s.lapic.offers with
        | none => none
        | some v => b.enter { s with lapic := s.lapic.accept v } v
  | .software v => if s.running.isSome then none else b.enter s v
  | .finish =>
      if s.running.isSome then some { s with running := none, lapic := s.lapic.sendEOI } else none
  | .register n handlerFn =>
      some { s with handlers := registerInteruptHandler s.handlers n handlerFn }
  | .mask irq => (ioapicMask b.space b.acpi s.io irq).toOption.map fun io => { s with io }
  | .unmask irq => (ioapicUnmask b.space b.acpi s.io irq).toOption.map fun io => { s with io }

/-- After `ioapic_init`, with what has been registered by then. -/
def Irqs.boot (io : Ioapic) (handlers : Nat → Nat) : Irqs :=
  ⟨io, ⟨fun _ => false, fun _ => false⟩, handlers, none, []⟩

/-! ## What it comes down to -/

/-- The pins that are heard, the interrupts that wait and the one that is served. -/
structure Lines where
  heard : Nat → Bool
  waiting : Nat → Bool
  serving : Option Nat
  handlers : Nat → Nat
  calls : List (Nat × Nat)

/-- The interrupt that comes in at a pin. -/
def lineOf (os : List Override) (pin : Nat) : Nat :=
  match os.find? fun o => o.gsi == pin with
  | some o => o.irq
  | none => pin

/-- The pin that `ioapic_mask` and `ioapic_unmask` go to, which for interrupt 0 is pin 0. -/
def pinOf (os : List Override) (irq : Nat) : Nat := if irq = 0 then 0 else serving os irq

/-- What is called for an interrupt. -/
def called (handlers : Nat → Nat) (line : Nat) : List (Nat × Nat) :=
  if handlers (32 + line) = 0 then [] else [(32 + line, handlers (32 + line))]

def Lines.enter (l : Lines) (line : Nat) : Lines :=
  { l with serving := some line, calls := l.calls ++ called l.handlers line }

def Lines.step (os : List Override) (l : Lines) : Act → Option Lines
  | .signal pin =>
      some (if l.heard pin then
        { l with waiting := fun i => if i = lineOf os pin then true else l.waiting i } else l)
  | .take =>
      if l.serving.isSome then none
      else match topmost l.waiting NUM_IRQ with
        | none => none
        | some line => some ({ l with waiting := without l.waiting line }.enter line)
  | .software v => if l.serving.isSome then none else some (l.enter (v - 32))
  | .finish => if l.serving.isSome then some { l with serving := none } else none
  | .register n handlerFn =>
      some { l with handlers := registerInteruptHandler l.handlers n handlerFn }
  | .mask irq => some { l with heard := fun k => if k = pinOf os irq then false else l.heard k }
  | .unmask irq => some { l with heard := fun k => if k = pinOf os irq then true else l.heard k }

/-- No pin is heard and nothing waits. -/
def Lines.boot (handlers : Nat → Nat) : Lines := ⟨fun _ => false, fun _ => false, none, handlers, []⟩

/-- The machine as `Lines`. -/
def Irqs.lines (count : Nat) (s : Irqs) : Lines where
  heard k := decide (k < count) && !masked (redirection s.io.regs k)
  waiting i := decide (i < NUM_IRQ) && s.lapic.irr (32 + i)
  serving := s.running.map (· - 32)
  handlers := s.handlers
  calls := s.calls

/-- The acts that the machine and the kernel are up to: the IOAPIC has `count` pins, the kernel raises
vectors of interrupts and unmasks interrupts below 16. -/
def Act.Possible (count : Nat) : Act → Prop
  | .signal pin => pin < count
  | .software v => 32 ≤ v ∧ v < 48
  | .unmask irq => irq < NUM_IRQ
  | _ => True

instance (count : Nat) : (a : Act) → Decidable (a.Possible count)
  | .signal _ => inferInstanceAs (Decidable (_ < _))
  | .software _ => inferInstanceAs (Decidable (_ ∧ _))
  | .unmask _ => inferInstanceAs (Decidable (_ < _))
  | .take | .finish | .register _ _ | .mask _ => .isTrue trivial

end Twos.Isr
