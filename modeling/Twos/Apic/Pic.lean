import Twos.Lib.Memory
import Twos.Lib.Overwrite
import Twos.Lib.Ports

/-!
# The old interrupt controllers

`pic.c`, against the pair of 8259 that it programs. Devices raise and lower their lines at any time,
and the processor acknowledges what the master asks for; so what the routines leave behind is said for
every order in which this can happen, and for chips that may have been left in the middle of being set
up.

* What is written to the ports settles the registers, whatever the devices do (`owned_pics`): requests
  and services change, and the registers do not. So a routine can be evaluated on the registers alone
  (`eval_picRetire`, `eval_maskCalls`), and the rules of `Lib.Ports` carry that over to every
  interleaving.
* `picRetire_silences` is about what `kmain` does with the controllers: from then on they are silent,
  through any events and any program that leaves the masks alone (`wp_silent`), such as the other
  routines of this file (`picCalls_silent`).
* `masks_last_call` is about a system that uses them: a line is masked if the last call about it said
  so, and after `picEnable` none is (`picEnable_unmasks`).
-/

namespace Twos.Apic

open Lib

abbrev PIC1_COMMAND : Nat := 0x20
abbrev PIC1_DATA : Nat := 0x21
abbrev PIC2_COMMAND : Nat := 0xA0
abbrev PIC2_DATA : Nat := 0xA1
abbrev PIC_EOI : Byte := 0x20
abbrev PIC_READ_IRR : Byte := 0x0a
abbrev PIC_READ_ISR : Byte := 0x0b
abbrev ICW1_ICW4 : Byte := 0x01
abbrev ICW1_INIT : Byte := 0x10
abbrev ICW4_8086 : Byte := 0x01

/-! ## The chips

An 8259 with what the routines program into it, its requests and what it serves. Initialization
takes up to four words, and a chip may be found in the middle of it, so what a write to the data
port does depends on the stage.
-/

/-- Which word the data port takes next. -/
inductive Stage where
  | ready
  | icw2
  | icw3
  | icw4
  deriving DecidableEq

/-- What has been programmed into a chip. -/
structure PicRegs where
  offset : Byte
  imr : Byte
  stage : Stage
  single : Bool
  withIcw4 : Bool
  readIsr : Bool
  deriving DecidableEq

/-- The command port: the first word of an initialization, or what the next read of the port gives. -/
def PicRegs.command (r : PicRegs) (v : Byte) : PicRegs :=
  if v.getLsbD 4 then
    { r with imr := 0, stage := .icw2, single := v.getLsbD 1, withIcw4 := v.getLsbD 0, readIsr := false }
  else if v.getLsbD 3 && v.getLsbD 1 then { r with readIsr := v.getLsbD 0 }
  else r

/-- The data port: the words that are still missing from an initialization, or the mask. -/
def PicRegs.data (r : PicRegs) (v : Byte) : PicRegs :=
  match r.stage with
  | .ready => { r with imr := v }
  | .icw2 =>
      { r with
        offset := v &&& 0xF8
        stage := if r.single then (if r.withIcw4 then .icw4 else .ready) else .icw3 }
  | .icw3 => { r with stage := if r.withIcw4 then .icw4 else .ready }
  | .icw4 => { r with stage := .ready }

/-- A chip: what it has been programmed to, what is requested of it, and what is being served. -/
structure Pic where
  regs : PicRegs
  irr : Byte
  isr : Byte
  deriving DecidableEq

/-- The line that the chip asks to be served: the lowest that is requested and not masked, if no lower
one is being served. -/
def Pic.asks (p : Pic) : Option Nat :=
  (List.range 8).find? fun i =>
    p.irr.getLsbD i && !p.regs.imr.getLsbD i && !(List.range (i + 1)).any p.isr.getLsbD

/-- A line is served. -/
def Pic.serve (p : Pic) (i : Nat) : Pic :=
  { p with irr := p.irr &&& ~~~(1#8 <<< i), isr := p.isr ||| 1#8 <<< i }

/-- The end of the interrupt that is served, which is the lowest. -/
def Pic.eoi (p : Pic) : Pic :=
  match (List.range 8).find? p.isr.getLsbD with
  | none => p
  | some i => { p with isr := p.isr &&& ~~~(1#8 <<< i) }

/-- What the command port does beside the registers. -/
def Pic.commanded (p : Pic) (v : Byte) : Pic :=
  if v.getLsbD 4 then { p with regs := p.regs.command v, irr := 0 }
  else if v.getLsbD 3 then { p with regs := p.regs.command v }
  else if v.getLsbD 5 then Pic.eoi { p with regs := p.regs.command v }
  else { p with regs := p.regs.command v }

/-- The two chips, the slave on line 2 of the master, and the vectors that the processor has been
given. -/
structure Pics where
  master : Pic
  slave : Pic
  vectors : List Byte
  deriving DecidableEq

/-- The master, with the slave's line as it stands. -/
def Pics.cascaded (s : Pics) : Pic :=
  { s.master with irr := if s.slave.asks.isSome then s.master.irr ||| 0x04 else s.master.irr &&& 0xFB }

/-- The line to the processor. -/
def Pics.int (s : Pics) : Bool := s.cascaded.asks.isSome

/-- What goes on beside the program: a line is raised or lowered, or the processor, where it is asked,
takes an interrupt. -/
inductive Request where
  | raise (irq : Nat)
  | lower (irq : Nat)
  | acknowledge
  deriving DecidableEq

/-- The processor takes an interrupt. -/
def Pics.acknowledge (s : Pics) : Pics :=
  match s.cascaded.asks with
  | none => s
  | some i =>
      let master := s.cascaded.serve i
      match if i = 2 then s.slave.asks else none with
      | none => { s with master, vectors := s.vectors ++ [s.master.regs.offset + BitVec.ofNat 8 i] }
      | some j =>
          { master
            slave := s.slave.serve j
            vectors := s.vectors ++ [s.slave.regs.offset + BitVec.ofNat 8 j] }

def Pics.happen (s : Pics) : Request → Pics
  | .raise irq =>
      if irq < 8 then { s with master := { s.master with irr := s.master.irr ||| 1#8 <<< irq } }
      else { s with slave := { s.slave with irr := s.slave.irr ||| 1#8 <<< (irq - 8) } }
  | .lower irq =>
      if irq < 8 then { s with master := { s.master with irr := s.master.irr &&& ~~~(1#8 <<< irq) } }
      else { s with slave := { s.slave with irr := s.slave.irr &&& ~~~(1#8 <<< (irq - 8)) } }
  | .acknowledge => s.acknowledge

def Pics.input (port : Nat) (s : Pics) : Byte × Pics :=
  if port = PIC1_COMMAND then (if s.master.regs.readIsr then s.master.isr else s.cascaded.irr, s)
  else if port = PIC1_DATA then (s.master.regs.imr, s)
  else if port = PIC2_COMMAND then (if s.slave.regs.readIsr then s.slave.isr else s.slave.irr, s)
  else if port = PIC2_DATA then (s.slave.regs.imr, s)
  else (0xff, s)

def Pics.output (port : Nat) (v : Byte) (s : Pics) : Pics :=
  if port = PIC1_COMMAND then { s with master := s.master.commanded v }
  else if port = PIC1_DATA then { s with master := { s.master with regs := s.master.regs.data v } }
  else if port = PIC2_COMMAND then { s with slave := s.slave.commanded v }
  else if port = PIC2_DATA then { s with slave := { s.slave with regs := s.slave.regs.data v } }
  else s

def pics : Chip Nat Byte Pics Request := ⟨Pics.input, Pics.output, fun e s => s.happen e⟩

/-! ## The routines

The routines of `pic.c` as programs of reads and writes, in the order in which the source makes
them.
-/

/-- `io_wait`. -/
def ioWait : Prog Nat Byte Unit := outb 0x80 0

/-- `PIC_sendEOI`. -/
def picSendEOI (irq : Nat) : Prog Nat Byte Unit := do
  if irq ≥ 8 then outb PIC2_COMMAND PIC_EOI
  outb PIC1_COMMAND PIC_EOI

/-- `__pic_get_irq_req`. The operands of the `|` are read in the order in which they stand. -/
def picGetIrqReq (ocw3 : Byte) : Prog Nat Byte Nat := do
  outb PIC1_COMMAND ocw3
  outb PIC2_COMMAND ocw3
  let high ← inb PIC2_COMMAND
  let low ← inb PIC1_COMMAND
  pure (high.toNat <<< 8 ||| low.toNat)

/-- `pic_get_irr`. -/
def picGetIrr : Prog Nat Byte Nat := picGetIrqReq PIC_READ_IRR

/-- `pic_get_isr`. -/
def picGetIsr : Prog Nat Byte Nat := picGetIrqReq PIC_READ_ISR

/-- `PIC_disable`. -/
def picDisable : Prog Nat Byte Unit := do
  outb PIC1_DATA 0xff
  outb PIC2_DATA 0xff

/-- `PIC_enable`. -/
def picEnable : Prog Nat Byte Unit := do
  outb PIC1_DATA 0
  outb PIC2_DATA 0

/-- `(1 << irq)`, in the low byte of it that is kept. The distance counts by its low five bits. -/
def maskBit (irq : Nat) : Byte := BitVec.ofNat 8 (1 <<< (irq % 32))

/-- The port and the line on it, as `PIC_set_mask` and `PIC_clear_mask` find them. -/
def maskLine (irq : Nat) : Nat × Nat := if irq < 8 then (PIC1_DATA, irq) else (PIC2_DATA, irq - 8)

/-- `PIC_set_mask`. -/
def picSetMask (irq : Nat) : Prog Nat Byte Unit := do
  let value ← inb (maskLine irq).1
  outb (maskLine irq).1 (value ||| maskBit (maskLine irq).2)

/-- `PIC_clear_mask`. -/
def picClearMask (irq : Nat) : Prog Nat Byte Unit := do
  let value ← inb (maskLine irq).1
  outb (maskLine irq).1 (value &&& ~~~maskBit (maskLine irq).2)

/-- `PIC_remap`. -/
def picRemap (off1 off2 : Byte) : Prog Nat Byte Unit := do
  let _a1 ← inb PIC1_DATA
  let _a2 ← inb PIC2_DATA
  picDisable
  outb PIC1_COMMAND (ICW1_INIT ||| ICW1_ICW4)
  ioWait
  outb PIC2_COMMAND (ICW1_INIT ||| ICW1_ICW4)
  ioWait
  outb PIC1_DATA off1
  ioWait
  outb PIC2_DATA off2
  ioWait
  outb PIC1_DATA 0x04
  ioWait
  outb PIC2_DATA 0x02
  ioWait
  outb PIC1_DATA ICW4_8086
  ioWait
  outb PIC2_DATA ICW4_8086
  ioWait
  outb PIC1_DATA 0
  ioWait
  outb PIC2_DATA 0
  ioWait
  picClearMask 0x20
  picClearMask 0x21

/-! ## What has been programmed

The devices and the processor change what is requested and served, and nothing else, so the
registers are the driver's own in the sense of `Lib.Ports`.
-/

/-- What has been programmed into the two chips. -/
def Pics.regs (s : Pics) : PicRegs × PicRegs := (s.master.regs, s.slave.regs)

/-- What a write does to that. -/
def writeRegs (port : Nat) (v : Byte) (r : PicRegs × PicRegs) : PicRegs × PicRegs :=
  if port = PIC1_COMMAND then (r.1.command v, r.2)
  else if port = PIC1_DATA then (r.1.data v, r.2)
  else if port = PIC2_COMMAND then (r.1, r.2.command v)
  else if port = PIC2_DATA then (r.1, r.2.data v)
  else r

/-- What a data port gives is the mask. -/
def readRegs (port : Nat) (r : PicRegs × PicRegs) : Option Byte :=
  if port = PIC1_DATA then some r.1.imr else if port = PIC2_DATA then some r.2.imr else none

theorem eoi_regs (p : Pic) : p.eoi.regs = p.regs := by
  unfold Pic.eoi
  split <;> rfl

theorem commanded_regs (p : Pic) (v : Byte) : (p.commanded v).regs = p.regs.command v := by
  unfold Pic.commanded
  split
  · rfl
  · split
    · rfl
    · split
      · rw [eoi_regs]
      · rfl

/-- The devices and the processor program nothing. -/
theorem regs_happen (s : Pics) (e : Request) : (s.happen e).regs = s.regs := by
  cases e with
  | raise irq =>
      rw [Pics.happen]
      split <;> rfl
  | lower irq =>
      rw [Pics.happen]
      split <;> rfl
  | acknowledge =>
      show s.acknowledge.regs = s.regs
      unfold Pics.acknowledge
      split
      · rfl
      · dsimp only
        split <;> rfl

theorem owned_pics : Owned pics Pics.regs readRegs writeRegs where
  event e s := regs_happen s e
  read port s := by
    show (Pics.input port s).2.regs = s.regs
    unfold Pics.input
    repeat' split
    all_goals rfl
  write port v s := by
    show (Pics.output port v s).regs = writeRegs port v s.regs
    -- the four ports of the two chips: a command or data for each, and anything else is not theirs
    unfold Pics.output writeRegs
    split
    · exact congrArg (·, s.slave.regs) (commanded_regs s.master v)
    split
    · rfl
    split
    · exact congrArg (s.master.regs, ·) (commanded_regs s.slave v)
    split <;> rfl
  -- only the masks can be read back, at the data ports
  value port s v h := by
    unfold readRegs at h
    split at h
    · next hport =>
      rw [hport, ← Option.some.inj h]
      rfl
    split at h
    · next hport =>
      rw [hport, ← Option.some.inj h]
      rfl
    · cases h

/-- A chip that has been set up. -/
def remapped (off imr : Byte) : PicRegs := ⟨off &&& 0xF8, imr, .ready, false, true, false⟩

/-- `PIC_remap` sets both chips up, whatever they had been set to and in whatever stage they were. The
masks it reads first it does not put back. -/
theorem eval_picRemap (off1 off2 : Byte) (r : PicRegs × PicRegs) :
    (picRemap off1 off2).eval readRegs writeRegs r =
      some ((), remapped off1 0, remapped off2 0) := by
  simp [picRemap, picDisable, ioWait, picClearMask, outb, Prog.eval, readRegs, writeRegs,
    PicRegs.command, PicRegs.data, remapped, maskLine, PIC1_COMMAND, PIC1_DATA, PIC2_COMMAND,
    PIC2_DATA, ICW1_INIT, ICW1_ICW4, ICW4_8086]

/-! ## Silence

Chips that mask all their lines ask for nothing, so nothing is acknowledged and the processor gets
no vector. This is kept by every event and by every write that does not go to the masks.
-/

/-- Both chips mask all their lines, and the processor has been given the vectors `vs`. -/
structure Pics.Silent (vs : List Byte) (s : Pics) : Prop where
  master : s.master.regs.imr = 0xff
  slave : s.slave.regs.imr = 0xff
  vectors : s.vectors = vs

variable {s t u : Pics} {vs : List Byte}

/-- A chip that masks all its lines asks for nothing. -/
theorem asks_masked {p : Pic} (h : p.regs.imr = 0xff) : p.asks = none := by
  apply List.find?_eq_none.mpr
  intro i hi
  have hmask : (0xff : Byte).getLsbD i = true := by
    rw [show (0xff : Byte) = BitVec.allOnes 8 from rfl, BitVec.getLsbD_allOnes]
    exact decide_eq_true (List.mem_range.mp hi)
  rw [h, hmask]
  simp

theorem Pics.Silent.cascaded (h : s.Silent vs) : s.cascaded.asks = none := asks_masked h.master

theorem Pics.Silent.int (h : s.Silent vs) : s.int = false := by
  rw [Pics.int, h.cascaded]
  rfl

/-- Whatever the devices do, the processor is given nothing. -/
theorem Pics.Silent.stable (vs : List Byte) : Stable pics (Pics.Silent vs) := by
  intro e s h
  have hregs : (s.happen e).regs = s.regs := regs_happen s e
  refine ⟨?_, ?_, ?_⟩
  · show (s.happen e).regs.1.imr = 0xff
    rw [hregs]
    exact h.master
  · show (s.happen e).regs.2.imr = 0xff
    rw [hregs]
    exact h.slave
  · cases e with
    | raise irq =>
        show (s.happen (.raise irq)).vectors = vs
        rw [Pics.happen]
        split <;> exact h.vectors
    | lower irq =>
        show (s.happen (.lower irq)).vectors = vs
        rw [Pics.happen]
        split <;> exact h.vectors
    | acknowledge =>
        show s.acknowledge.vectors = vs
        rw [Pics.acknowledge, h.cascaded]
        exact h.vectors

/-- A write that neither sets a mask nor begins an initialization. -/
def NoMask (port : Nat) (v : Byte) : Prop :=
  port ≠ PIC1_DATA ∧ port ≠ PIC2_DATA ∧
    (port = PIC1_COMMAND ∨ port = PIC2_COMMAND → v.getLsbD 4 = false)

theorem command_imr {r : PicRegs} {v : Byte} (h : v.getLsbD 4 = false) : (r.command v).imr = r.imr := by
  rw [PicRegs.command, h, if_neg Bool.false_ne_true]
  split <;> rfl

/-- Silence lasts, whatever is done that is not to the masks. -/
theorem wp_silent {α : Type} {q : Prog Nat Byte α} (hq : q.Writes NoMask) (h : s.Silent vs) :
    wp pics (Pics.Silent vs) q (fun _ => Pics.Silent vs) s := by
  refine wp_keeps (Pics.Silent.stable vs) ?_ ?_ hq h
  · intro port s h
    show (Pics.input port s).2.Silent vs
    unfold Pics.input
    repeat' split
    all_goals exact h
  · rintro port v s ⟨hne1, hne2, hcommand⟩ h
    show (Pics.output port v s).Silent vs
    unfold Pics.output
    simp only [if_neg hne1, if_neg hne2]
    split
    · next hport =>
      refine ⟨?_, h.slave, h.vectors⟩
      rw [commanded_regs, command_imr (hcommand (.inl hport))]
      exact h.master
    split
    · next hport =>
      refine ⟨h.master, ?_, h.vectors⟩
      rw [commanded_regs, command_imr (hcommand (.inr hport))]
      exact h.slave
    · exact h

/-- The part of `apic_init` that has to do with the old controllers. -/
def picRetire (off1 off2 : Byte) : Prog Nat Byte Unit := do
  picRemap off1 off2
  picDisable

theorem eval_picRetire (off1 off2 : Byte) (r : PicRegs × PicRegs) :
    (picRetire off1 off2).eval readRegs writeRegs r =
      some ((), remapped off1 0xff, remapped off2 0xff) := by
  rw [picRetire, eval_bind (eval_picRemap off1 off2 r)]
  rfl

/-- From chips in any state, with devices and the processor doing what they may at any time: behind the
routines of `apic_init` both chips are set up with their new offsets and mask everything, and from then
on the processor is never asked for an interrupt nor given one again, whatever runs that does not write
to their masks. -/
theorem picRetire_silences (off1 off2 : Byte) (u : Pics) :
    (∃ t, GetsTo pics (picRetire off1 off2) u (.ret ()) t) ∧
      ∀ t, GetsTo pics (picRetire off1 off2) u (.ret ()) t →
        t.regs = (remapped off1 0xff, remapped off2 0xff) ∧
          ∀ (α : Type) (q : Prog Nat Byte α), q.Writes NoMask →
            ∀ q' t', GetsTo pics q t q' t' → t'.int = false ∧ t'.vectors = t.vectors := by
  have heval := eval_picRetire off1 off2 u.regs
  refine ⟨getsTo_eval owned_pics heval, fun t hrun => ?_⟩
  have hregs := (wp_ends (wp_eval owned_pics heval) hrun).2
  refine ⟨hregs, fun α q hq q' t' hlater => ?_⟩
  have hmaster : t.regs.1.imr = 0xff := by rw [hregs]; rfl
  have hslave : t.regs.2.imr = 0xff := by rw [hregs]; rfl
  have hsilent : t'.Silent t.vectors := wp_always (wp_silent hq ⟨hmaster, hslave, rfl⟩) hlater
  exact ⟨hsilent.int, hsilent.vectors⟩

/-! ## Requests and their ends -/

/-- The routines that ask the chips what is requested or served, and that end an interrupt. -/
inductive PicCall where
  | sendEOI (irq : Nat)
  | getIrr
  | getIsr

def picCall : PicCall → Prog Nat Byte Unit
  | .sendEOI irq => picSendEOI irq
  | .getIrr => picGetIrr >>= fun _ => pure ()
  | .getIsr => picGetIsr >>= fun _ => pure ()

/-- Calls of these, one after the other. -/
def picCalls : List PicCall → Prog Nat Byte Unit
  | [] => pure ()
  | call :: calls => do
      picCall call
      picCalls calls

/-- A command that begins no initialization, to either chip. -/
theorem noMask_command {v : Byte} (hv : v.getLsbD 4 = false) :
    NoMask PIC1_COMMAND v ∧ NoMask PIC2_COMMAND v :=
  ⟨⟨by decide, by decide, fun _ => hv⟩, by decide, by decide, fun _ => hv⟩

theorem writes_picGetIrqReq {ocw3 : Byte} (h : ocw3.getLsbD 4 = false) :
    (picGetIrqReq ocw3).Writes NoMask := by
  obtain ⟨hmaster, hslave⟩ := noMask_command h
  exact ⟨hmaster, hslave, fun _ _ => trivial⟩

theorem writes_picSendEOI (irq : Nat) : (picSendEOI irq).Writes NoMask := by
  obtain ⟨hmaster, hslave⟩ := noMask_command (v := PIC_EOI) (by decide)
  unfold picSendEOI
  split
  · exact ⟨hslave, hmaster, trivial⟩
  · exact ⟨hmaster, trivial⟩

theorem writes_picCalls (calls : List PicCall) : (picCalls calls).Writes NoMask := by
  induction calls with
  | nil => exact trivial
  | cons call calls ih =>
      refine Prog.Writes.bind ?_ fun _ => ih
      cases call with
      | sendEOI irq => exact writes_picSendEOI irq
      | getIrr => exact (writes_picGetIrqReq (by decide)).bind fun _ => trivial
      | getIsr => exact (writes_picGetIrqReq (by decide)).bind fun _ => trivial

/-- So chips that mask everything stay silent through any calls of them. -/
theorem picCalls_silent (calls : List PicCall) (h : s.Silent vs) {q' : Prog Nat Byte Unit}
    (hrun : GetsTo pics (picCalls calls) s q' t) : t.int = false ∧ t.vectors = vs := by
  have hsilent : t.Silent vs := wp_always (wp_silent (writes_picCalls calls) h) hrun
  exact ⟨hsilent.int, hsilent.vectors⟩

/-! ## Masks

A call changes one bit of one mask, so after a sequence of calls each line is as the last call for it
left it. The number in a call is the distance of a shift, of which the low byte is kept, so the calls for
lines behind the sixteen, up to 39, change no mask.
-/

/-- Whether line `q` of the sixteen is masked. -/
def lineMasked (r : PicRegs × PicRegs) (q : Nat) : Bool :=
  if q < 8 then r.1.imr.getLsbD q else r.2.imr.getLsbD (q - 8)

/-- `PIC_set_mask` or `PIC_clear_mask`. -/
def maskCall (call : Nat × Bool) : Prog Nat Byte Unit :=
  if call.2 then picSetMask call.1 else picClearMask call.1

/-- Calls of the two, one after the other. -/
def maskCalls : List (Nat × Bool) → Prog Nat Byte Unit
  | [] => pure ()
  | call :: calls => do
      maskCall call
      maskCalls calls

/-- The byte keeps the bit of the eight lines only. -/
theorem getLsbD_maskBit {irq q : Nat} (hirq : irq < 32) (hq : q < 8) :
    (maskBit irq).getLsbD q = decide (irq = q) := by
  rw [maskBit, BitVec.getLsbD_ofNat, Nat.mod_eq_of_lt hirq, Nat.one_shiftLeft, Nat.testBit_two_pow]
  simp [hq]

/-- The mask with one more bit, or one less. -/
def newMask (on : Bool) (imr : Byte) (irq : Nat) : Byte :=
  if on then imr ||| maskBit irq else imr &&& ~~~maskBit irq

theorem getLsbD_newMask {irq q : Nat} (on : Bool) (imr : Byte) (hirq : irq < 32) (hq : q < 8) :
    (newMask on imr irq).getLsbD q = if irq = q then on else imr.getLsbD q := by
  cases on with
  | true =>
      rw [newMask, if_pos rfl, BitVec.getLsbD_or, getLsbD_maskBit hirq hq]
      by_cases heq : irq = q <;> simp [heq]
  | false =>
      rw [newMask, if_neg Bool.false_ne_true, BitVec.getLsbD_and, BitVec.getLsbD_not,
        getLsbD_maskBit hirq hq]
      by_cases heq : irq = q <;> simp [heq, hq]

/-- A call changes the mask of its line, and of no line behind the sixteen. -/
theorem eval_maskCall (call : Nat × Bool) (off1 off2 imr1 imr2 : Byte) (hirq : call.1 < 40) :
    ∃ imr1' imr2', (maskCall call).eval readRegs writeRegs (remapped off1 imr1, remapped off2 imr2) =
        some ((), remapped off1 imr1', remapped off2 imr2') ∧
      ∀ q, q < 16 → lineMasked (remapped off1 imr1', remapped off2 imr2') q =
        if call.1 = q then call.2 else lineMasked (remapped off1 imr1, remapped off2 imr2) q := by
  obtain ⟨irq, on⟩ := call
  by_cases hlow : irq < 8
  · -- a line of the master: its mask changes in one bit, and the slave's does not
    refine ⟨newMask on imr1 irq, imr2, ?_, fun q hq => ?_⟩
    · cases on <;>
        simp [maskCall, picSetMask, picClearMask, maskLine, hlow, outb, Prog.eval, readRegs, writeRegs,
          PicRegs.data, remapped, newMask, PIC1_COMMAND, PIC1_DATA]
    · unfold lineMasked
      split
      · next hq => exact getLsbD_newMask on imr1 (by omega) hq
      · next hq =>
        rw [if_neg (by dsimp only; omega)]
  · -- a line of the slave, with the master's lines counted off
    refine ⟨imr1, newMask on imr2 (irq - 8), ?_, fun q hq => ?_⟩
    · cases on <;>
        simp [maskCall, picSetMask, picClearMask, maskLine, hlow, outb, Prog.eval, readRegs, writeRegs,
          PicRegs.data, remapped, newMask, PIC1_COMMAND, PIC1_DATA, PIC2_COMMAND, PIC2_DATA]
    · unfold lineMasked
      split
      · next hq =>
        rw [if_neg (by dsimp only; omega)]
      · next hq =>
        have hline := @getLsbD_newMask (irq - 8) (q - 8) on imr2 (by dsimp only at hirq; omega) (by omega)
        show (newMask on imr2 (irq - 8)).getLsbD (q - 8) = _
        rw [hline]
        by_cases heq : irq = q
        · rw [if_pos heq, if_pos (by omega)]
        · rw [if_neg heq, if_neg (by omega)]
          rfl

theorem eval_maskCalls {calls : List (Nat × Bool)} (hcalls : ∀ call ∈ calls, call.1 < 40)
    (off1 off2 imr1 imr2 : Byte) :
    ∃ imr1' imr2', (maskCalls calls).eval readRegs writeRegs
        (remapped off1 imr1, remapped off2 imr2) =
          some ((), remapped off1 imr1', remapped off2 imr2') ∧
      ∀ q, q < 16 → lineMasked (remapped off1 imr1', remapped off2 imr2') q =
        overwrite (fun irq q => decide (irq = q)) calls
          (lineMasked (remapped off1 imr1, remapped off2 imr2)) q := by
  induction calls generalizing imr1 imr2 with
  | nil => exact ⟨imr1, imr2, rfl, fun _ _ => rfl⟩
  | cons call calls ih =>
      obtain ⟨imr1', imr2', hfirst, hmask⟩ :=
        eval_maskCall call off1 off2 imr1 imr2 (hcalls call List.mem_cons_self)
      obtain ⟨imr1'', imr2'', hrest, hmasks⟩ :=
        ih (fun call hcall => hcalls call (List.mem_cons_of_mem _ hcall)) imr1' imr2'
      refine ⟨imr1'', imr2'', ?_, fun q hq => ?_⟩
      · rw [maskCalls, eval_bind hfirst]
        exact hrest
      · rw [hmasks q hq, overwrite_eq, overwrite_eq, lastWrite, hmask q hq]
        cases lastWrite (fun irq q => decide (irq = q)) q calls with
        | some on => rfl
        | none => by_cases heq : call.1 = q <;> simp [heq]

/-- From chips in any state and with devices doing what they may: after `PIC_remap`, which unmasks all
lines whatever was masked before, and any calls of `PIC_set_mask` and `PIC_clear_mask`, a line is masked
if the last call for it was to mask it. Calls for lines behind the sixteen change nothing, as long as
the shift is by fewer than 32 bits. -/
theorem masks_last_call {calls : List (Nat × Bool)} (hcalls : ∀ call ∈ calls, call.1 < 40)
    (off1 off2 : Byte) (u : Pics) :
    (∃ t, GetsTo pics (picRemap off1 off2 >>= fun _ => maskCalls calls) u (.ret ()) t) ∧
      ∀ t, GetsTo pics (picRemap off1 off2 >>= fun _ => maskCalls calls) u (.ret ()) t →
        ∀ q, q < 16 → lineMasked t.regs q =
          (lastWrite (fun irq q => decide (irq = q)) q calls).getD false := by
  obtain ⟨imr1, imr2, hcalls, hmasks⟩ := eval_maskCalls hcalls off1 off2 0 0
  have heval := (eval_bind (f := fun _ => maskCalls calls) (eval_picRemap off1 off2 u.regs)).trans hcalls
  refine ⟨getsTo_eval owned_pics heval, fun t hrun q hq => ?_⟩
  rw [(wp_ends (wp_eval owned_pics heval) hrun).2, hmasks q hq, overwrite_eq]
  have hclear : lineMasked (remapped off1 0, remapped off2 0) q = false := by
    unfold lineMasked
    split <;> exact BitVec.getLsbD_zero
  rw [hclear]

/-- `PIC_enable` behind the routines of `apic_init` unmasks all lines again, also those that were masked
before these. -/
theorem picEnable_unmasks (off1 off2 : Byte) {u t : Pics}
    (hrun : GetsTo pics (picRetire off1 off2 >>= fun _ => picEnable) u (.ret ()) t) (q : Nat) :
    lineMasked t.regs q = false := by
  have heval : (picRetire off1 off2 >>= fun _ => picEnable).eval readRegs writeRegs u.regs =
      some ((), remapped off1 0, remapped off2 0) := by
    rw [eval_bind (eval_picRetire off1 off2 u.regs)]
    rfl
  rw [(wp_ends (wp_eval owned_pics heval) hrun).2]
  unfold lineMasked
  split <;> exact BitVec.getLsbD_zero

/-- The chips as a firmware leaves them. -/
def Pics.found : Pics :=
  ⟨⟨⟨0x08, 0xb8, .ready, false, true, false⟩, 0, 0⟩, ⟨⟨0x70, 0x8f, .ready, false, true, false⟩, 0, 0⟩, []⟩

theorem masks_last_call_some :
    (∃ t, GetsTo pics
        (picRemap 0x20 0x28 >>= fun _ => maskCalls [(3, true), (24, true), (9, true), (3, false)])
        .found (.ret ()) t) ∧
      ∀ t, GetsTo pics
          (picRemap 0x20 0x28 >>= fun _ => maskCalls [(3, true), (24, true), (9, true), (3, false)])
          .found (.ret ()) t →
        ∀ q, q < 16 → lineMasked t.regs q =
          (lastWrite (fun irq q => decide (irq = q)) q
            [(3, true), (24, true), (9, true), (3, false)]).getD false :=
  masks_last_call (by decide) 0x20 0x28 .found

end Twos.Apic
