import Twos.Isr.Gates
import Twos.Isr.Stubs

/-!
# Interrupts are transparent

What the handler finds in its `registers_t`, and the registers at the `iretq`. A list of `push` puts
registers on the stack in front of what is there, and a list of `pop` gives registers the words at
its top, so that both shared stubs come down to comparing three lists.

`run_push` and `run_pop` are these two, by induction on the list. The way in is `stub_spec`, which puts
the number and the error code on the stack, and `pushAll_spec`; what the handler finds is `atCall_spec`.
The way out is `sharedExit_spec`, in the order of the code: the segments, the registers, `cr3`, and the
two words of the stub. `interrupts_transparent` joins them, with a handler in between of which only
`Returned` is known: it comes back with `rsp` and the bytes of the `registers_t` as they were.
-/

namespace Twos.Isr

open Lib

/-! ## Running it

The instructions run one by one, on a stack of which only the words from `rsp` up are known. A row
of `push` or `pop` is one lemma, by induction on the registers.
-/

variable {m c : Machine} {l : Label} {ws vs : List (BitVec 64)} {rs : List Reg}

/-- The words at the top of the stack. -/
def Machine.Top (m : Machine) (ws : List (BitVec 64)) : Prop := StackAt m.mem m.rsp ws

theorem run_append (m : Machine) (code code' : List Instr) :
    m.run (code ++ code') = (m.run code).run code' := List.foldl_append

theorem run_cons (m : Machine) (i : Instr) (code : List Instr) :
    m.run (i :: code) = (i.exec m).run code := rfl

theorem Machine.Top.push (h : m.Top ws) (hlen : 8 * (ws.length + 1) ≤ 2 ^ 64) (v : BitVec 64) :
    (m.push v).Top (v :: ws) := StackAt.push h hlen

/-- The registers after they have got the words. -/
def assignRegs (reg : Reg → BitVec 64) : List Reg → List (BitVec 64) → Reg → BitVec 64
  | r :: rs, w :: ws => assignRegs (fun r' => if r' = r then w else reg r') rs ws
  | _, _ => reg

theorem assignRegs_of_notMem {r : Reg} (hr : r ∉ rs) (reg : Reg → BitVec 64) (ws : List (BitVec 64)) :
    assignRegs reg rs ws r = reg r := by
  induction rs generalizing reg ws with
  | nil => cases ws <;> rfl
  | cons r' rs ih =>
      cases ws with
      | nil => rfl
      | cons w ws =>
          rw [List.mem_cons, not_or] at hr
          rw [assignRegs, ih hr.2, if_neg hr.1]

theorem assignRegs_of_mem {r : Reg} (hr : r ∈ rs) (hnodup : rs.Nodup) (reg f : Reg → BitVec 64) :
    assignRegs reg rs (rs.map f) r = f r := by
  induction rs generalizing reg with
  | nil => simp at hr
  | cons r' rs ih =>
      rw [List.nodup_cons] at hnodup
      rw [List.map_cons, assignRegs]
      by_cases hmem : r ∈ rs
      · exact ih hmem hnodup.2 _
      · have hhead : r = r' := (List.mem_cons.mp hr).resolve_right hmem
        rw [assignRegs_of_notMem hmem, if_pos hhead, hhead]

/-- A run of `push`. -/
theorem run_push (rs : List Reg) (h : m.Top ws) (hlen : 8 * (ws.length + rs.length) ≤ 2 ^ 64) :
    (m.run (rs.map .push)).Top ((rs.map m.reg).reverse ++ ws) ∧
      (m.run (rs.map .push)).reg = m.reg ∧ (m.run (rs.map .push)).seg = m.seg ∧
      (m.run (rs.map .push)).rsp + BitVec.ofNat 64 (8 * rs.length) = m.rsp := by
  induction rs generalizing m ws with
  | nil => exact ⟨h, rfl, rfl, by simp [Machine.run]⟩
  | cons r rs ih =>
      rw [List.length_cons] at hlen
      have hpush : (m.push (m.reg r)).Top (m.reg r :: ws) := h.push (by omega) (m.reg r)
      obtain ⟨htop, hreg, hseg, hrsp⟩ := ih hpush (by rw [List.length_cons]; omega)
      refine ⟨?_, hreg, hseg, ?_⟩
      · rw [List.map_cons, List.map_cons, List.reverse_cons, List.append_assoc]
        exact htop
      · have hpushed : (m.push (m.reg r)).rsp = m.rsp - 8 := rfl
        rw [hpushed] at hrsp
        rw [List.map_cons, run_cons, List.length_cons, ← add_word]
        show ((m.push (m.reg r)).run (rs.map .push)).rsp + _ + _ = _
        grind

/-- A run of `pop`. -/
theorem run_pop (h : m.Top (vs ++ ws)) (hlen : vs.length = rs.length) :
    (m.run (rs.map .pop)).Top ws ∧ (m.run (rs.map .pop)).reg = assignRegs m.reg rs vs ∧
      (m.run (rs.map .pop)).rsp = m.rsp + BitVec.ofNat 64 (8 * rs.length) ∧
      (m.run (rs.map .pop)).cr3 = m.cr3 ∧ (m.run (rs.map .pop)).seg = m.seg := by
  induction rs generalizing m vs with
  | nil =>
      have hnil : vs = [] := List.eq_nil_of_length_eq_zero hlen
      subst hnil
      exact ⟨h, rfl, by simp [Machine.run], rfl, rfl⟩
  | cons r rs ih =>
      cases vs with
      | nil => simp at hlen
      | cons v vs =>
          obtain ⟨hword, hrest⟩ := h
          have hpop : (Instr.exec m (.pop r)).Top (vs ++ ws) := hrest
          obtain ⟨htop, hreg, hrsp, hcr3, hseg⟩ := ih hpop (by simpa using hlen)
          refine ⟨htop, ?_, ?_, hcr3, hseg⟩
          · rw [List.map_cons, run_cons, hreg]
            simp only [Instr.exec, Machine.setReg, hword, assignRegs]
          · rw [List.map_cons, run_cons, hrsp]
            exact add_word m.rsp rs.length

/-! ## On the way in

The words that a stub, the shared entry and `pushAll` push, from the frame of the processor down.
Together they are the fields of `registers_t`, in the order in which the structure has them.
-/

/-- What `pushAll` pushes after the first two. -/
def savedRegs : List Reg :=
  [.rcx, .rdx, .rbx, .rdi, .rsi, .rbp, .r8, .r9, .r10, .r11, .r12, .r13, .r14, .r15]

/-- The stack at the call, above what the processor and the stub have pushed. -/
def savedWords (m : Machine) : List (BitVec 64) :=
  withLow16 m.cr3 (m.seg .ds) :: ((savedRegs.map m.reg).reverse ++ [m.cr3, m.reg .rax])

theorem pushAll_spec (h : m.Top ws) (hlen : 8 * (ws.length + 16) ≤ 2 ^ 64) :
    (m.run pushAll).Top ((savedRegs.map m.reg).reverse ++ m.cr3 :: m.reg .rax :: ws) ∧
      (m.run pushAll).reg .rax = m.cr3 ∧ (m.run pushAll).seg = m.seg ∧
      (m.run pushAll).rsp + 128 = m.rsp := by
  have hrax : (m.push (m.reg .rax)).Top (m.reg .rax :: ws) := h.push (by omega) _
  -- `rax` takes the value of `cr3` on its way to the stack
  have hcr3 : (((m.push (m.reg .rax)).setReg .rax m.cr3).push m.cr3).Top
      (m.cr3 :: m.reg .rax :: ws) := StackAt.push hrax (by rw [List.length_cons]; omega)
  obtain ⟨htop, hreg, hseg, hrsp⟩ := run_push savedRegs hcr3 (by simp [savedRegs]; omega)
  have hrun : m.run pushAll =
      (((m.push (m.reg .rax)).setReg .rax m.cr3).push m.cr3).run (savedRegs.map .push) := by
    simp [pushAll, savedRegs, run_cons, Instr.exec, Machine.setReg, Machine.push]
  rw [hrun]
  refine ⟨htop, ?_, hseg, ?_⟩
  · rw [hreg]
    rfl
  · have hpushed : (((m.push (m.reg .rax)).setReg .rax m.cr3).push m.cr3).rsp = m.rsp - 8 - 8 := rfl
    have hsize : BitVec.ofNat 64 (8 * savedRegs.length) = 112 := rfl
    rw [hpushed, hsize] at hrsp
    grind

theorem sharedEntry_spec (h : m.Top ws) (hlen : 8 * (ws.length + 17) ≤ 2 ^ 64) :
    (m.run sharedEntry).Top (savedWords m ++ ws) ∧ (m.run sharedEntry).rsp + 136 = m.rsp := by
  obtain ⟨htop, hreg, hseg, hrsp⟩ := pushAll_spec h (by omega)
  have hds := htop.push (by simp [savedRegs]; omega) (withLow16 m.cr3 (m.seg .ds))
  rw [sharedEntry, run_append, savedWords, List.cons_append, List.append_assoc]
  generalize m.run pushAll = c at *
  constructor
  · show (c.push (withLow16 (c.reg .rax) (c.seg .ds))).Top _
    rw [hreg, hseg]
    exact hds
  · show c.rsp - 8 + 136 = m.rsp
    grind

/-- The vector that a stub is for. -/
def Label.number : Label → Nat
  | .isrStub n => n
  | .irq n => 32 + n
  | .isrSyscall => 0x69

theorem labelOf_number {v : Nat} (hv : v < 48) : (labelOf v hv).number = v := by
  unfold labelOf
  split
  · rfl
  · show 32 + (v - 32) = v
    omega

/-- What a stub leaves on the stack for the shared one. -/
def stubWords (l : Label) (frame : CpuFrame) (error : BitVec 64) : List (BitVec 64) :=
  BitVec.ofNat 64 l.number :: (if l.pushesError then error else 0) :: frame.words

/-- Every stub makes the two words before the frame its own, whichever of them the processor has
pushed. -/
theorem stub_spec {frame : CpuFrame} {error : BitVec 64} (h : Interrupted m l frame error) :
    (m.run l.code).Top (stubWords l frame error) ∧
      (m.run l.code).reg = m.reg ∧ (m.run l.code).cr3 = m.cr3 ∧ (m.run l.code).seg = m.seg ∧
      (m.run l.code).rsp + 16 = m.rsp + if l.pushesError then 8 else 0 := by
  have hlen : frame.words.length = 5 := rfl
  have hrsp : m.rsp - 8 - 8 + 16 = m.rsp + 0 := by grind
  -- without an error code the stub pushes both words
  have hboth : StackAt m.mem m.rsp frame.words → ∀ enabled,
      (({ m with enabled := enabled }.push 0).push (BitVec.ofNat 64 l.number)).Top
        (BitVec.ofNat 64 l.number :: 0 :: frame.words) := by
    intro hframe enabled
    exact (StackAt.push hframe (by omega)).push (by rw [List.length_cons]; omega)
  -- the labels of exceptions, of interrupts, and of the system call
  cases l with
  | isrStub n =>
      unfold Interrupted at h
      cases herror : hasErrorCode n with
      | true =>
          -- the processor has pushed the error code
          simp only [Label.pushesError, herror, if_true] at h
          simp only [Label.code, stubWords, Label.pushesError, herror, if_true]
          refine ⟨StackAt.push h (by rw [List.length_cons]; omega), rfl, rfl, rfl, ?_⟩
          show m.rsp - 8 + 16 = m.rsp + 8
          grind
      | false =>
          -- it has not, and the stub pushes a zero in its place
          simp only [Label.pushesError, herror] at h
          simp only [Label.code, stubWords, Label.pushesError, herror]
          exact ⟨hboth h false, rfl, rfl, rfl, hrsp⟩
  | irq n => exact ⟨hboth h m.enabled, rfl, rfl, rfl, hrsp⟩
  | isrSyscall => exact ⟨hboth h false, rfl, rfl, rfl, hrsp⟩

/-- The machine at the call. -/
theorem atCall_spec {frame : CpuFrame} {error : BitVec 64} (h : Interrupted m l frame error) :
    (m.atCall l).Top (savedWords m ++ stubWords l frame error) ∧
      (m.atCall l).rsp + 152 = m.rsp + if l.pushesError then 8 else 0 := by
  obtain ⟨htop, hreg, hcr3, hseg, hrsp⟩ := stub_spec h
  have hlen : (stubWords l frame error).length = 7 := rfl
  obtain ⟨hshared, hrsp'⟩ := sharedEntry_spec htop (by omega)
  have hsaved : savedWords (m.run l.code) = savedWords m := by
    rw [savedWords, savedWords, hreg, hcr3, hseg]
  rw [hsaved] at hshared
  rw [Machine.atCall, run_append]
  exact ⟨hshared, by grind⟩

/-- The stack at the call is the one that `Label.run` gives. -/
theorem atCall_refines {frame : CpuFrame} {error : BitVec 64} (h : Interrupted m l frame error) :
    (m.atCall l).Top (l.run (interruptedValue m l.number l frame error)
      (if l.pushesError then error :: frame.words else frame.words)).2 := by
  have hstack : (l.run (interruptedValue m l.number l frame error)
      (if l.pushesError then error :: frame.words else frame.words)).2 =
        savedWords m ++ stubWords l frame error := by
    cases l with
    | isrStub n =>
        simp only [Label.run, stubWords, Label.pushesError]
        by_cases herror : hasErrorCode n = true
        · simp only [herror, ↓reduceIte]
          rfl
        · simp only [herror]
          rfl
    | irq n => rfl
    | isrSyscall => rfl
  rw [hstack]
  exact (atCall_spec h).1

/-- The fields of `registers_t` are the words on the stack in their order. -/
theorem registersT_eq {frame : CpuFrame} {error : BitVec 64} (h : Interrupted m l frame error)
    (f : Field) :
    (m.atCall l).registersT f = interruptedValue m l.number l frame error f := by
  obtain ⟨htop, -⟩ := atCall_spec h
  have hidx : registersFields.idxOf f < registersFields.length := by cases f <;> decide
  have hlen : registersFields.length = (savedWords m ++ stubWords l frame error).length := rfl
  rw [Machine.registersT, htop.get (hlen ▸ hidx)]
  cases f <;> rfl

/-! ## On the way out

`popAll` takes the words in the opposite order. What `cr3` gets goes through `rax`, whose own word
is popped last.
-/

theorem withLow16_setWidth (x : BitVec 64) (v : BitVec 16) : (withLow16 x v).setWidth 16 = v := by
  apply BitVec.eq_of_getLsbD_eq
  intro i hi
  have hbit : (x.extractLsb' 16 48 ++ v).getLsbD i = v.getLsbD i := by
    rw [BitVec.getLsbD_append, if_pos hi]
  rw [BitVec.getLsbD_setWidth, decide_eq_true hi, Bool.true_and]
  exact hbit

/-- What the registers get in the first part of `popAll`, `rax` among them on behalf of `cr3`. -/
def restored (m : Machine) (r : Reg) : BitVec 64 := if r = .rax then m.cr3 else m.reg r

theorem saved_eq (m : Machine) :
    (savedRegs.map m.reg).reverse ++ [m.cr3] = (savedRegs.reverse ++ [Reg.rax]).map (restored m) := by
  simp [savedRegs, restored]

theorem mem_restored (r : Reg) : r ∈ savedRegs.reverse ++ [Reg.rax] := by
  cases r <;> decide

/-- The end of `popAll`, where `rax` has the value for `cr3`. -/
theorem restoreCr3_spec (h : c.Top (m.reg .rax :: ws)) (hreg : ∀ r, c.reg r = restored m r) :
    (c.run [.writeCr3 .rax, .pop .rax]).Top ws ∧
      (c.run [.writeCr3 .rax, .pop .rax]).reg = m.reg ∧
      (c.run [.writeCr3 .rax, .pop .rax]).cr3 = m.cr3 ∧
      (c.run [.writeCr3 .rax, .pop .rax]).seg = c.seg ∧
      (c.run [.writeCr3 .rax, .pop .rax]).rsp = c.rsp + 8 := by
  refine ⟨h.2, ?_, hreg .rax, rfl, rfl⟩
  funext r
  show (if r = .rax then word c.mem c.rsp else c.reg r) = m.reg r
  rw [hreg, restored, show word c.mem c.rsp = m.reg .rax from h.1]
  by_cases hr : r = .rax
  · rw [if_pos hr, hr]
  · rw [if_neg hr, if_neg hr]

/-- `popAll` gives the registers the words that `pushAll` has saved them in. -/
theorem popAll_spec (h : c.Top ((savedRegs.map m.reg).reverse ++ m.cr3 :: m.reg .rax :: ws)) :
    (c.run popAll).Top ws ∧ (c.run popAll).reg = m.reg ∧ (c.run popAll).cr3 = m.cr3 ∧
      (c.run popAll).seg = c.seg ∧ (c.run popAll).rsp = c.rsp + 128 := by
  have hsplit : c.Top ((savedRegs.reverse ++ [Reg.rax]).map (restored m) ++ m.reg .rax :: ws) := by
    rw [← saved_eq, List.append_assoc]
    exact h
  obtain ⟨htop, hreg, hrsp, -, hseg⟩ := run_pop hsplit (List.length_map _)
  have hrun : c.run popAll =
      (c.run ((savedRegs.reverse ++ [Reg.rax]).map .pop)).run [.writeCr3 .rax, .pop .rax] := by
    rw [← run_append]
    rfl
  have hgot : ∀ r, (c.run ((savedRegs.reverse ++ [Reg.rax]).map .pop)).reg r = restored m r :=
    fun r => by rw [hreg, assignRegs_of_mem (mem_restored r) (by decide)]
  obtain ⟨htop', hreg', hcr3', hseg', hrsp'⟩ := restoreCr3_spec htop hgot
  rw [hrun]
  refine ⟨htop', hreg', hcr3', hseg'.trans hseg, ?_⟩
  rw [hrsp', hrsp, show BitVec.ofNat 64 (8 * (savedRegs.reverse ++ [Reg.rax]).length) = 120 from rfl]
  grind

/-- The segment registers are loaded from the first word. -/
def loadSegments : List Instr :=
  [.pop .rbx, .writeSeg .ds .rbx, .writeSeg .es .rbx, .writeSeg .fs .rbx, .writeSeg .gs .rbx]

theorem loadSegments_spec (h : c.Top (withLow16 m.cr3 (m.seg .ds) :: ws)) :
    (c.run loadSegments).Top ws ∧ (c.run loadSegments).seg .ds = m.seg .ds ∧
      (c.run loadSegments).rsp = c.rsp + 8 := by
  refine ⟨h.2, ?_, rfl⟩
  show (word c.mem c.rsp).setWidth 16 = m.seg .ds
  rw [show word c.mem c.rsp = withLow16 m.cr3 (m.seg .ds) from h.1, withLow16_setWidth]

/-- What comes behind `popAll` drops the two words of the stub. -/
theorem dropStub_spec (h : c.Top (v :: w :: ws)) (handler : Handler) :
    (c.run (.addRsp 16 :: enable handler)).Top ws ∧
      (c.run (.addRsp 16 :: enable handler)).reg = c.reg ∧
      (c.run (.addRsp 16 :: enable handler)).cr3 = c.cr3 ∧
      (c.run (.addRsp 16 :: enable handler)).seg = c.seg ∧
      (c.run (.addRsp 16 :: enable handler)).rsp = c.rsp + 16 := by
  have hbelow : StackAt c.mem (c.rsp + 16) ws := by
    have htwo : c.rsp + 8 + 8 = c.rsp + 16 := by grind
    rw [← htwo]
    exact h.2.2
  cases handler with
  | isrHandler => exact ⟨hbelow, rfl, rfl, rfl, rfl⟩
  | irqHandler => exact ⟨hbelow, rfl, rfl, rfl, rfl⟩

/-- What the way out does with the words that the way in has saved. -/
theorem sharedExit_spec {handler : Handler} (h : c.Top (savedWords m ++ v :: w :: ws)) :
    (c.run (sharedExit handler)).Top ws ∧ (c.run (sharedExit handler)).reg = m.reg ∧
      (c.run (sharedExit handler)).cr3 = m.cr3 ∧ (c.run (sharedExit handler)).seg .ds = m.seg .ds ∧
      (c.run (sharedExit handler)).rsp = c.rsp + 152 := by
  rw [savedWords, List.cons_append, List.append_assoc] at h
  obtain ⟨hloaded, hds, hrsp⟩ := loadSegments_spec h
  obtain ⟨hpopped, hreg, hcr3, hseg, hrsp'⟩ := popAll_spec hloaded
  obtain ⟨htop, hreg', hcr3', hseg', hrsp''⟩ := dropStub_spec hpopped handler
  have hrun : c.run (sharedExit handler) =
      ((c.run loadSegments).run popAll).run (.addRsp 16 :: enable handler) := by
    rw [← run_append, ← run_append]
    rfl
  rw [hrun]
  refine ⟨htop, hreg'.trans hreg, hcr3'.trans hcr3, ?_, ?_⟩
  · rw [hseg', hseg, hds]
  · rw [hrsp'', hrsp', hrsp]
    grind

/-! ## Both ways

A handler may leave anything in the registers, but comes back to the `rsp` of the call and leaves the
words of `registers_t` as they were; that is `Returned`. What is popped is then what was pushed, and
`iretq` gets the frame of the processor.
-/

/-- For every stub in `isr_stub_table`: the handler finds in its `registers_t` what was interrupted,
and when it returns with that as it was, the interrupted registers are back at the `iretq`. -/
theorem interrupts_transparent {image : Image} {v : Nat} (hv : v < 48)
    (hl : image.find ((isrStubTable image).getD v 0) = some l) {frame : CpuFrame}
    {error : BitVec 64} (hm : Interrupted m l frame error) (hc : Returned (m.atCall l) c) :
    ((∀ f, (m.atCall l).registersT f = interruptedValue m v l frame error f) ∧
        ((m.atCall l).registersT .ds).setWidth 16 = m.seg .ds) ∧
      (c.atIretq l).reg = m.reg ∧ (c.atIretq l).cr3 = m.cr3 ∧
      (c.atIretq l).seg .ds = m.seg .ds ∧ (c.atIretq l).Top frame.words ∧
      (c.atIretq l).rsp = m.rsp + if l.pushesError then 8 else 0 := by
  have hlabel : l = labelOf v hv := by
    rw [isrStubTable_getD image hv, image.find_addr] at hl
    exact (Option.some.inj hl).symm
  have hnumber : l.number = v := hlabel ▸ labelOf_number hv
  obtain ⟨htop, hrsp⟩ := atCall_spec hm
  -- the stack of the handler's return is that of the call
  have hret : c.Top (savedWords m ++ stubWords l frame error) := by
    unfold Machine.Top
    rw [hc.rsp]
    exact htop.congr hc.saved
  obtain ⟨hframe, hreg, hcr3, hseg, hexit⟩ := @sharedExit_spec _ _ _ _ _ l.handler hret
  refine ⟨⟨fun f => ?_, ?_⟩, hreg, hcr3, hseg, hframe, ?_⟩
  · rw [registersT_eq hm, hnumber]
  · rw [registersT_eq hm]
    exact withLow16_setWidth ..
  · rw [Machine.atIretq, hexit, hc.rsp, hrsp]

/-- The registers of a thread of the kernel, no two of them the same. -/
def threadRegs : Reg → BitVec 64
  | .rax => 0x1111000000000001
  | .rbx => 0x2222000000000002
  | .rcx => 0x3333000000000003
  | .rdx => 0x4444000000000004
  | .rbp => 0xffffffff80110000
  | .rsi => 0x5555000000000005
  | .rdi => 0x6666000000000006
  | .r8 => 0x7777000000000007
  | .r9 => 0x8888000000000008
  | .r10 => 0x9999000000000009
  | .r11 => 0xaaaa00000000000a
  | .r12 => 0xbbbb00000000000b
  | .r13 => 0xcccc00000000000c
  | .r14 => 0xdddd00000000000d
  | .r15 => 0xeeee00000000000e

/-- What the processor pushes when that thread writes to a page that is not there. -/
def faultFrame : CpuFrame := ⟨0xffffffff80001234, 0x08, 0x10202, 0xffffffff8010ff00, 0x10⟩

/-- The thread at the stub, with the error code above the frame on its own stack. -/
def faultMachine : Machine :=
  ([faultFrame.ss, faultFrame.rsp, faultFrame.rflags, faultFrame.cs, faultFrame.rip, 2].foldl
    Machine.push
    { reg := threadRegs
      rsp := faultFrame.rsp
      cr3 := 0x101000
      seg := fun s => if s = .ds then 0x10 else 0x18
      enabled := true
      mem := fun _ => 0xcc })

/-- A handler that leaves other values in all registers but `rsp`. -/
def clobbered (call : Machine) : Machine := { call with reg := fun _ => 0, cr3 := 0, seg := fun _ => 0 }

theorem clobbered_returned (call : Machine) : Returned call (clobbered call) := ⟨rfl, fun _ _ => rfl⟩

/-- The page fault. -/
theorem interrupts_transparent_pageFault :
    ((∀ f, (faultMachine.atCall (.isrStub 14)).registersT f =
          interruptedValue faultMachine 14 (.isrStub 14) faultFrame 2 f) ∧
        ((faultMachine.atCall (.isrStub 14)).registersT .ds).setWidth 16 = faultMachine.seg .ds) ∧
      ((clobbered (faultMachine.atCall (.isrStub 14))).atIretq (.isrStub 14)).reg = faultMachine.reg ∧
      ((clobbered (faultMachine.atCall (.isrStub 14))).atIretq (.isrStub 14)).cr3 = faultMachine.cr3 ∧
      ((clobbered (faultMachine.atCall (.isrStub 14))).atIretq (.isrStub 14)).seg .ds =
        faultMachine.seg .ds ∧
      ((clobbered (faultMachine.atCall (.isrStub 14))).atIretq (.isrStub 14)).Top faultFrame.words ∧
      ((clobbered (faultMachine.atCall (.isrStub 14))).atIretq (.isrStub 14)).rsp =
        faultMachine.rsp + 8 := by
  have hlabel : someImage.find ((isrStubTable someImage).getD 14 0) = some (.isrStub 14) := by
    rw [isrStubTable_getD someImage (by decide : 14 < 48), someImage.find_addr]
    rfl
  have hframe : Interrupted faultMachine (.isrStub 14) faultFrame 2 :=
    ⟨by decide +kernel, by decide +kernel, by decide +kernel, by decide +kernel, by decide +kernel,
      by decide +kernel, trivial⟩
  exact interrupts_transparent (by decide) hlabel hframe (clobbered_returned _)

end Twos.Isr
