import Twos.Isr.Idt
import Twos.Lib.Stack

/-!
# The code of the stubs

`idt_table.asm` instruction by instruction: the stubs that `isr_stub_table` lists, and the two shared
ones that they jump to, on a machine with the registers that occur in them and memory of bytes.

What surrounds the code is here as well: the words that the processor has pushed when it comes to a stub
(`Interrupted`), the `registers_t` that the handler finds at its argument (`Machine.registersT`), and what
the code needs of a handler that comes back (`Returned`). `Isr.Entry` runs it.
-/

namespace Twos.Isr

open Lib

/-! ## The machine -/

/-- The general registers other than `rsp`. -/
inductive Reg where
  | rax | rbx | rcx | rdx | rbp | rsi | rdi
  | r8 | r9 | r10 | r11 | r12 | r13 | r14 | r15
  deriving DecidableEq

inductive Seg where
  | ds | es | fs | gs
  deriving DecidableEq

structure Machine where
  reg : Reg → BitVec 64
  rsp : BitVec 64
  cr3 : BitVec 64
  seg : Seg → BitVec 16
  /-- The interrupt flag. -/
  enabled : Bool
  mem : Bytes64

def Machine.setReg (m : Machine) (r : Reg) (v : BitVec 64) : Machine :=
  { m with reg := fun r' => if r' = r then v else m.reg r' }

def Machine.setSeg (m : Machine) (s : Seg) (v : BitVec 16) : Machine :=
  { m with seg := fun s' => if s' = s then v else m.seg s' }

/-- A write to the low 16 bits of a register leaves the others. -/
def withLow16 (x : BitVec 64) (v : BitVec 16) : BitVec 64 := x.extractLsb' 16 48 ++ v

def Machine.push (m : Machine) (v : BitVec 64) : Machine :=
  { m with rsp := m.rsp - 8, mem := putWord m.mem (m.rsp - 8) v }

/-- The instructions of the stubs. -/
inductive Instr where
  | push (r : Reg)
  | pushImm (v : BitVec 64)
  | pop (r : Reg)
  | readCr3 (r : Reg)
  | writeCr3 (r : Reg)
  | readSeg (r : Reg) (s : Seg)
  | writeSeg (s : Seg) (r : Reg)
  | movImm16 (r : Reg) (v : BitVec 16)
  | addRsp (v : BitVec 64)
  | cli
  | sti

def Instr.exec (m : Machine) : Instr → Machine
  | .push r => m.push (m.reg r)
  | .pushImm v => m.push v
  | .pop r => { m.setReg r (word m.mem m.rsp) with rsp := m.rsp + 8 }
  | .readCr3 r => m.setReg r m.cr3
  | .writeCr3 r => { m with cr3 := m.reg r }
  | .readSeg r s => m.setReg r (withLow16 (m.reg r) (m.seg s))
  | .writeSeg s r => m.setSeg s ((m.reg r).setWidth 16)
  | .movImm16 r v => m.setReg r (withLow16 (m.reg r) v)
  | .addRsp v => { m with rsp := m.rsp + v }
  | .cli => { m with enabled := false }
  | .sti => { m with enabled := true }

/-- A piece of code without jumps. -/
def Machine.run (m : Machine) (code : List Instr) : Machine := code.foldl Instr.exec m

/-! ## The code -/

/-- `pushAll`. -/
def pushAll : List Instr :=
  [.push .rax, .readCr3 .rax, .push .rax,
    .push .rcx, .push .rdx, .push .rbx, .push .rdi, .push .rsi, .push .rbp,
    .push .r8, .push .r9, .push .r10, .push .r11, .push .r12, .push .r13, .push .r14, .push .r15]

/-- `popAll`. -/
def popAll : List Instr :=
  [.pop .r15, .pop .r14, .pop .r13, .pop .r12, .pop .r11, .pop .r10, .pop .r9, .pop .r8,
    .pop .rbp, .pop .rsi, .pop .rdi, .pop .rbx, .pop .rdx, .pop .rcx,
    .pop .rax, .writeCr3 .rax, .pop .rax]

/-- `isr_err_stub`, `isr_no_err_stub`, `irq` and `isr_syscall`, up to their `jmp`. -/
def Label.code : Label → List Instr
  | .isrStub n =>
      if hasErrorCode n then [.cli, .pushImm (BitVec.ofNat 64 n)]
      else [.cli, .pushImm 0, .pushImm (BitVec.ofNat 64 n)]
  | .irq n => [.pushImm 0, .pushImm (BitVec.ofNat 64 (32 + n))]
  | .isrSyscall => [.cli, .pushImm 0, .pushImm 0x69]

/-- The shared stub that a stub jumps to, by what that calls. -/
def Label.handler : Label → Handler
  | .isrStub _ => .isrHandler
  | .irq _ => .irqHandler
  | .isrSyscall => .irqHandler

/-- Both shared stubs, up to their `call`. -/
def sharedEntry : List Instr :=
  pushAll ++
    [.readSeg .rax .ds, .push .rax, .movImm16 .rax 0x10,
      .writeSeg .ds .rax, .writeSeg .es .rax, .writeSeg .fs .rax, .writeSeg .gs .rax]

/-- `sti`, which only one of the shared stubs has. -/
def enable : Handler → List Instr
  | .isrHandler => [.sti]
  | .irqHandler => []

/-- From the `call` to the `iretq`. -/
def sharedExit (handler : Handler) : List Instr :=
  [.pop .rbx, .writeSeg .ds .rbx, .writeSeg .es .rbx, .writeSeg .fs .rbx, .writeSeg .gs .rbx] ++
    popAll ++ .addRsp 16 :: enable handler

/-- The machine at the call of the handler. -/
def Machine.atCall (m : Machine) (l : Label) : Machine := m.run (l.code ++ sharedEntry)

/-- The machine at the `iretq`, from the one that the handler returns. -/
def Machine.atIretq (m : Machine) (l : Label) : Machine := m.run (sharedExit l.handler)

/-! ## What surrounds it -/

/-- The words that the processor pushes. -/
structure CpuFrame where
  rip : BitVec 64
  cs : BitVec 64
  rflags : BitVec 64
  rsp : BitVec 64
  ss : BitVec 64

/-- Lowest address first. -/
def CpuFrame.words (frame : CpuFrame) : List (BitVec 64) :=
  [frame.rip, frame.cs, frame.rflags, frame.rsp, frame.ss]

/-- The stubs for exceptions with an error code. -/
def Label.pushesError : Label → Bool
  | .isrStub n => hasErrorCode n
  | _ => false

/-- The processor has pushed its frame, and an error code if the stub expects one. -/
def Interrupted (m : Machine) (l : Label) (frame : CpuFrame) (error : BitVec 64) : Prop :=
  StackAt m.mem m.rsp (if l.pushesError then error :: frame.words else frame.words)

/-- A field of the `registers_t` that the handler is passed on the stack. -/
def Machine.registersT (m : Machine) (f : Field) : BitVec 64 :=
  word m.mem (m.rsp + BitVec.ofNat 64 (8 * registersFields.idxOf f))

/-- The handler has returned: to the `rsp` of the call, and with the bytes of the `registers_t` as
they were. Everything else may be different. -/
structure Returned (call ret : Machine) : Prop where
  rsp : ret.rsp = call.rsp
  saved : ∀ i, i < 8 * registersFields.length →
    ret.mem (call.rsp + BitVec.ofNat 64 i) = call.mem (call.rsp + BitVec.ofNat 64 i)

/-- What the fields of `registers_t` are named after. -/
def interruptedValue (m : Machine) (v : Nat) (l : Label) (frame : CpuFrame) (error : BitVec 64) :
    Field → BitVec 64
  | .ds => withLow16 m.cr3 (m.seg .ds)
  | .r15 => m.reg .r15
  | .r14 => m.reg .r14
  | .r13 => m.reg .r13
  | .r12 => m.reg .r12
  | .r11 => m.reg .r11
  | .r10 => m.reg .r10
  | .r9 => m.reg .r9
  | .r8 => m.reg .r8
  | .rbp => m.reg .rbp
  | .rsi => m.reg .rsi
  | .rdi => m.reg .rdi
  | .rbx => m.reg .rbx
  | .rdx => m.reg .rdx
  | .rcx => m.reg .rcx
  | .cr3 => m.cr3
  | .rax => m.reg .rax
  | .intNo => BitVec.ofNat 64 v
  | .errCode => if l.pushesError then error else 0
  | .rip => frame.rip
  | .cs => frame.cs
  | .rflags => frame.rflags
  | .rsp => frame.rsp
  | .ss => frame.ss

end Twos.Isr
