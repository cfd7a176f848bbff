import Twos.Driver.Log
import Twos.Isr.Idt
import Twos.Kstd.Denote

/-!
# Exceptions

The first half of `isr.c`: what the handlers of exceptions report, and after which exceptions they give
up. The handlers keep three counts between their calls, so which exceptions a kernel survives is a
question about the whole sequence of them.

`isrHandler_ok` is one exception: it is survived if the count of its handler allows it
(`Raised.Survived`), and then leaves the counts of `Raised.count`. `Survivable` is the condition on a
sequence, said of the numbers of its exceptions alone; `survivable_cons` takes the first one off, and so
`exceptions_ok_iff` is an induction on the sequence. `exceptions_survived_iff` starts from the counts of
a kernel that has just booted.
-/

namespace Twos.Isr

open Lib Kstd Driver

/-! ## Reports -/

/-- A call of `debugf`: its format, and what is passed. -/
abbrev Message : Type := List Item × List Arg

/-- Plain characters of a format. -/
def lit (text : String) : List Item := text.toList.map fun c => .char c.toNat

/-- A string that is passed. -/
def strArg (text : String) : Arg := .str (text.toList.map Char.toNat)

/-- The format `"name = %lx\n"`. -/
def hexLine (name : String) (v : BitVec 64) : Message :=
  (lit name ++ lit " = " ++ [.spec .lx] ++ lit "\n", [.long v])

/-- `print_isr_regs`, with what `get_cr2` returns. -/
def printIsrRegs (cr2 : BitVec 64) (regs : Field → BitVec 64) (extended : Bool) : List Message :=
  [(lit "===isr[" ++ [.spec .lx] ++ lit "] err\x7b" ++ [.spec .lx] ++ lit "\x7d====\n",
      [.long (regs .intNo), .long (regs .errCode)]),
    hexLine "err_code" (regs .errCode)] ++
  (if 0 < cr2 then [hexLine "cr2" cr2] else []) ++
  [hexLine "rbp" (regs .rbp), hexLine "rip" (regs .rip), hexLine "rsp" (regs .rsp),
    hexLine "cs" (regs .cs), hexLine "rflags" (regs .rflags), hexLine "cr3" (regs .cr3),
    hexLine "ds" (regs .ds &&& 0xffff), hexLine "ss" (regs .ss), hexLine "rax" (regs .rax),
    hexLine "rbx" (regs .rbx), hexLine "rcx" (regs .rcx), hexLine "rdx" (regs .rdx),
    hexLine "rdi" (regs .rdi), hexLine "rsi" (regs .rsi), hexLine "r8" (regs .r8),
    hexLine "r9" (regs .r9)] ++
  if extended then
    [hexLine "r10" (regs .r10), hexLine "r11" (regs .r11), hexLine "r12" (regs .r12),
      hexLine "r13" (regs .r13), hexLine "r14" (regs .r14), hexLine "r15" (regs .r15)]
  else []

/-! ## The handlers

The three handlers with their static counters, and the reports they make, as lists of what they hand
to `printk`. A run over a list of exceptions stops at the first one that is not survived.
-/

abbrev ISR_InvalidOpcode : BitVec 64 := 6
abbrev ISR_GeneralProtectionFault : BitVec 64 := 13
abbrev ISR_PageFault : BitVec 64 := 14

/-- `exception_names`. -/
def exceptionNames : List String :=
  ["ISR_DivisionError", "ISR_Debug", "ISR_NonMaskableInterrupt", "ISR_Breakpoint", "ISR_Overflow",
    "ISR_BoundRangeExceeded", "ISR_InvalidOpcode", "ISR_DeviceNotAvailable", "ISR_DoubleFault",
    "ISR_CoProcessorLegacy", "ISR_InvalidTSS", "ISR_SegmentNotPresent", "ISR_StackSegmentFault",
    "ISR_GeneralProtectionFault", "ISR_PageFault", "ISR_Reserved", "ISR_Reserved",
    "ISR_x87FloatingPoint", "ISR_AlignmentCheck", "ISR_MachineCheck", "ISR_SIMDFloatingPoint",
    "ISR_VirtualizationException", "ISR_ControlProtectionException", "ISR_Reserved", "ISR_Reserved",
    "ISR_Reserved", "ISR_Reserved", "ISR_Reserved", "ISR_HypervisorInjection",
    "ISR_VMMCommException", "ISR_SecurityException"]

/-- `last_num`, `num_pfs` and `num_gpfs`. -/
structure Counts where
  lastNum : Int
  numPfs : Nat
  numGpfs : Nat
  deriving DecidableEq

/-- What they are when the kernel starts. -/
def Counts.start : Counts := ⟨-1, 0, 0⟩

/-- What a handler has reported, and how it ends. -/
abbrev Handled : Type := List Message × Except Fault Counts

/-- `panic`, behind what has been reported. -/
def panicked (report : List Message) (msg : String) : Handled :=
  (report ++ [(lit msg, [])], .error (.panic msg))

/-- `handle_error_generic`. -/
def handleErrorGeneric (st : Counts) (cr2 : BitVec 64) (regs : Field → BitVec 64) (recover : Bool) :
    Handled :=
  let num := ((regs .intNo).setWidth 32).toInt
  let err := ((regs .errCode).setWidth 32).toInt
  let opening : List Message := [(lit "=======", [])]
  let known : Except Fault (List Message) :=
    if 0 ≤ num ∧ num < 32 then
      match exceptionNames[num.toNat]? with
      | none => .error .outOfBounds
      | some name =>
          .ok ([([.spec .s] ++ lit " = " ++ [.spec .i], [strArg name, .int ((regs .intNo).setWidth 32)])] ++
            (if err ≠ 0 then
              [([.spec .s] ++ lit " = " ++ [.spec .i], [strArg "Non-Zero Error Code", .int 0])] else []) ++
            printIsrRegs cr2 regs (num = 1 ∨ num = 3))
    else
      .ok [([.spec .s] ++ lit " = " ++ [.spec .i],
        [strArg "ISR_Unknown", .int ((regs .intNo).setWidth 32)])]
  match known with
  | .error fault => (opening, .error fault)
  | .ok body =>
      let report := opening ++ body ++ [(lit "=======", [])]
      if num = st.lastNum ∨ recover = false then panicked report "Can't Recover From Exception"
      else (report, .ok { st with lastNum := num })

/-- `handle_pagefault`. -/
def handlePagefault (st : Counts) (cr2 : BitVec 64) (regs : Field → BitVec 64) : Handled :=
  let bit (i : Nat) : Bool := (regs .errCode).getLsbD i
  let cause (i : Nat) (text : String) : List Message := if bit i then [(lit text, [])] else []
  let report : List Message :=
    [(lit "\n== PAGE FAULT ==", []),
      (lit "Error: " ++ [.spec .lu] ++ lit " \n", [.long (regs .errCode)]),
      (lit "At Address [CR2]: " ++ [.spec .lx] ++ lit " \n", [.long cr2]),
      (lit "RIP = " ++ [.spec .lx] ++ lit " \n", [.long (regs .rip)]),
      (lit (if bit 2 then "USER" else "KERNEL"), []),
      (lit (if bit 1 then "WRITE" else "READ"), []),
      (lit (if bit 0 then "PAGE-PROTECTION VIOLATION" else "PAGE NOT PRESENT"), [])] ++
    cause 3 "CAUSE = RESERVED WRITE" ++ cause 4 "CAUSE = INSTRUCTION FETCH" ++
    cause 5 "CAUSE = PROTECTION KEY VIOLATION" ++ cause 6 "CAUSE = SHADOW STACK ACCESS" ++
    [(lit "==============", [])]
  if 3 < st.numPfs then panicked (report ++ printIsrRegs cr2 regs true) "Triple Fault!"
  else (report, .ok { st with numPfs := st.numPfs + 1 })

/-- `handle_gpf`. -/
def handleGpf (st : Counts) (cr2 : BitVec 64) (regs : Field → BitVec 64) : Handled :=
  let st := { st with numGpfs := st.numGpfs + 1 }
  let report : List Message :=
    [(lit "\n=== GPF ===", []),
      (lit "Error: " ++ [.spec .lu] ++ lit " \n", [.long (regs .errCode)]),
      (lit "rbp " ++ [.spec .lx] ++ lit " \n", [.long (regs .rbp)]),
      (lit "==============", [])] ++ printIsrRegs cr2 regs true
  if 1 < st.numGpfs then panicked report "Triple Fault!" else (report, .ok st)

/-- `isr_handler`. -/
def isrHandler (st : Counts) (cr2 : BitVec 64) (regs : Field → BitVec 64) : Handled :=
  let recoverable := decide (regs .intNo ≠ ISR_InvalidOpcode)
  if regs .intNo = ISR_PageFault then handlePagefault st cr2 regs
  else if regs .intNo = ISR_GeneralProtectionFault then handleGpf st cr2 regs
  else handleErrorGeneric st cr2 regs recoverable

/-- An exception: what is in `cr2`, and the `registers_t`. -/
structure Raised where
  cr2 : BitVec 64
  regs : Field → BitVec 64

/-- The exceptions of a run, one after the other, up to the one that is not survived. -/
def exceptions (st : Counts) : List Raised → Handled
  | [] => ([], .ok st)
  | e :: es =>
      match isrHandler st e.cr2 e.regs with
      | (report, .error fault) => (report, .error fault)
      | (report, .ok st') => (report ++ (exceptions st' es).1, (exceptions st' es).2)

/-! ## Which exceptions are survived

Whether an exception is survived depends on the counts that the ones before it have left.
`survivable_cons` moves one exception from the front of a list into the counts, so the condition on
the whole list follows by induction on it.
-/

/-- The exceptions that `handle_error_generic` is called for. -/
def Raised.generic (e : Raised) : Bool :=
  decide (e.regs .intNo ≠ ISR_PageFault ∧ e.regs .intNo ≠ ISR_GeneralProtectionFault)

def Raised.pageFault (e : Raised) : Bool := decide (e.regs .intNo = ISR_PageFault)

def Raised.gpf (e : Raised) : Bool := decide (e.regs .intNo = ISR_GeneralProtectionFault)

/-- `int num = regs->int_no`. -/
def Raised.num (e : Raised) : Int := ((e.regs .intNo).setWidth 32).toInt

/-- What an exception does to the counts, if it is survived. -/
def Raised.count (st : Counts) (e : Raised) : Counts :=
  if e.pageFault then { st with numPfs := st.numPfs + 1 }
  else if e.gpf then { st with numGpfs := st.numGpfs + 1 }
  else { st with lastNum := e.num }

/-- The counts after which an exception is survived. -/
structure Raised.Survived (st : Counts) (e : Raised) : Prop where
  pageFault : e.pageFault = true → st.numPfs ≤ 3
  gpf : e.gpf = true → st.numGpfs = 0
  opcode : e.regs .intNo ≠ ISR_InvalidOpcode
  named : e.num ≠ 31
  fresh : e.generic = true → e.num ≠ st.lastNum

variable {st st' : Counts} {e : Raised} {es : List Raised}

theorem num_of_intNo {n : BitVec 64} (h : e.regs .intNo = n) :
    e.num = (n.setWidth 32).toInt := by
  rw [Raised.num, h]

/-- `exception_names` has a name for every number below 32 but the last. -/
theorem exceptionNames_get {n : Nat} (hn : n < 32) : exceptionNames[n]? = none ↔ n = 31 := by
  rw [List.getElem?_eq_none_iff]
  show 31 ≤ n ↔ n = 31
  omega

theorem handlePagefault_ok (st : Counts) (e : Raised) :
    (handlePagefault st e.cr2 e.regs).2 = .ok st' ↔
      st.numPfs ≤ 3 ∧ st' = { st with numPfs := st.numPfs + 1 } := by
  unfold handlePagefault panicked
  dsimp only
  split
  · next hmany => exact iff_of_false (fun h => by cases h) (fun h => by omega)
  · next hfew =>
    rw [Except.ok.injEq]
    exact ⟨fun h => ⟨by omega, h.symm⟩, fun h => h.2.symm⟩

theorem handleGpf_ok (st : Counts) (e : Raised) :
    (handleGpf st e.cr2 e.regs).2 = .ok st' ↔
      st.numGpfs = 0 ∧ st' = { st with numGpfs := st.numGpfs + 1 } := by
  unfold handleGpf panicked
  dsimp only
  split
  · next hmany => exact iff_of_false (fun h => by cases h) (fun h => by omega)
  · next hfew =>
    rw [Except.ok.injEq]
    exact ⟨fun h => ⟨by omega, h.symm⟩, fun h => h.2.symm⟩

theorem handleErrorGeneric_ok (st : Counts) (e : Raised) (recover : Bool) :
    (handleErrorGeneric st e.cr2 e.regs recover).2 = .ok st' ↔
      e.num ≠ 31 ∧ e.num ≠ st.lastNum ∧ recover = true ∧ st' = { st with lastNum := e.num } := by
  -- what comes after the name: the same number again, or no recovery, is the end
  have hcheck (report : List Message) :
      (if e.num = st.lastNum ∨ recover = false then panicked report "Can't Recover From Exception"
        else (report, .ok { st with lastNum := e.num }) : Handled).2 = .ok st' ↔
      e.num ≠ st.lastNum ∧ recover = true ∧ st' = { st with lastNum := e.num } := by
    split
    · next hstop =>
      refine iff_of_false (fun h => by cases h) (fun ⟨hfresh, hrecover, _⟩ => ?_)
      rcases hstop with heq | hoff
      · exact hfresh heq
      · rw [hoff] at hrecover
        cases hrecover
    · next hgo =>
      rw [not_or, Bool.not_eq_false] at hgo
      rw [Except.ok.injEq]
      exact ⟨fun h => ⟨hgo.1, hgo.2, h.symm⟩, fun h => h.2.2.symm⟩
  unfold handleErrorGeneric
  dsimp only
  rw [← Raised.num]
  by_cases hrange : 0 ≤ e.num ∧ e.num < 32
  · rw [if_pos hrange]
    have hname := exceptionNames_get (n := e.num.toNat) (by omega)
    cases hget : exceptionNames[e.num.toNat]? with
    | none =>
        -- the table of names has none for 31
        have hlast := hname.mp hget
        exact iff_of_false (fun h => by cases h) (fun h => by omega)
    | some name =>
        have hnamed : e.num ≠ 31 := by
          intro heq
          rw [hname.mpr (by omega)] at hget
          cases hget
        rw [and_iff_right hnamed]
        exact hcheck _
  · rw [if_neg hrange, and_iff_right (by omega)]
    exact hcheck _

/-- What one exception does: it is survived after some counts, and changes these. -/
theorem isrHandler_ok (st : Counts) (e : Raised) :
    (isrHandler st e.cr2 e.regs).2 = .ok st' ↔ e.Survived st ∧ st' = e.count st := by
  unfold isrHandler Raised.count
  -- page faults, general protection faults, and all others, as in the code
  by_cases hpf : e.regs .intNo = ISR_PageFault
  · have hpageFault : e.pageFault = true := decide_eq_true hpf
    have hgpf : e.gpf = false := by simp [Raised.gpf, hpf]
    have hgeneric : e.generic = false := by simp [Raised.generic, hpf]
    rw [if_pos hpf, if_pos hpageFault, handlePagefault_ok]
    refine and_congr_left fun _ => ⟨fun hfew => ?_, fun h => h.pageFault hpageFault⟩
    refine ⟨fun _ => hfew, by simp [hgpf], by rw [hpf]; decide, ?_, by simp [hgeneric]⟩
    rw [num_of_intNo hpf]
    decide
  have hpageFault : e.pageFault = false := decide_eq_false hpf
  rw [if_neg hpf, hpageFault, if_neg Bool.false_ne_true]
  by_cases hgp : e.regs .intNo = ISR_GeneralProtectionFault
  · have hgpf : e.gpf = true := decide_eq_true hgp
    have hgeneric : e.generic = false := by simp [Raised.generic, hgp]
    rw [if_pos hgp, if_pos hgpf, handleGpf_ok]
    refine and_congr_left fun _ => ⟨fun hfew => ?_, fun h => h.gpf hgpf⟩
    refine ⟨by simp [hpageFault], fun _ => hfew, by rw [hgp]; decide, ?_, by simp [hgeneric]⟩
    rw [num_of_intNo hgp]
    decide
  · have hgpf : e.gpf = false := decide_eq_false hgp
    have hgeneric : e.generic = true := decide_eq_true ⟨hpf, hgp⟩
    rw [if_neg hgp, hgpf, if_neg Bool.false_ne_true, handleErrorGeneric_ok, decide_eq_true_iff]
    constructor
    · rintro ⟨hnamed, hfresh, hopcode, hst⟩
      exact ⟨⟨by simp [hpageFault], by simp [hgpf], hopcode, hnamed, fun _ => hfresh⟩, hst⟩
    · rintro ⟨h, hst⟩
      exact ⟨h.named, h.fresh hgeneric, h.opcode, hst⟩

/-- The run that is survived. -/
theorem exceptions_cons (st : Counts) (e : Raised) (es : List Raised) :
    (∃ st', (exceptions st (e :: es)).2 = .ok st') ↔
      e.Survived st ∧ ∃ st', (exceptions (e.count st) es).2 = .ok st' := by
  rw [exceptions]
  cases hhandled : isrHandler st e.cr2 e.regs with
  | mk report verdict =>
      cases verdict with
      | error fault =>
          refine iff_of_false ?_ fun h => ?_
          · rintro ⟨st', h⟩
            cases h
          · have hok := (isrHandler_ok st e).mpr ⟨h.1, rfl⟩
            rw [hhandled] at hok
            cases hok
      | ok st₁ =>
          have hverdict : (isrHandler st e.cr2 e.regs).2 = .ok st₁ := by rw [hhandled]
          have hok := (isrHandler_ok st e).mp hverdict
          obtain ⟨hsurvived, rfl⟩ := hok
          exact ⟨fun h => ⟨hsurvived, h⟩, fun h => h.2⟩

/-- The sequences of exceptions that a kernel survives from counts on. -/
structure Survivable (st : Counts) (es : List Raised) : Prop where
  pageFaults : st.numPfs + es.countP Raised.pageFault ≤ 4
  gpfs : st.numGpfs + es.countP Raised.gpf ≤ 1
  opcodes : ∀ e ∈ es, e.regs .intNo ≠ ISR_InvalidOpcode
  named : ∀ e ∈ es, e.num ≠ 31
  fresh : (st.lastNum :: (es.filter Raised.generic).map Raised.num).IsChain (· ≠ ·)

/-- An exception is of one of the three kinds. -/
theorem Raised.kind (e : Raised) :
    (e.pageFault = true ∧ e.gpf = false ∧ e.generic = false) ∨
      (e.pageFault = false ∧ e.gpf = true ∧ e.generic = false) ∨
      (e.pageFault = false ∧ e.gpf = false ∧ e.generic = true) := by
  unfold Raised.pageFault Raised.gpf Raised.generic
  simp only [decide_eq_true_iff, decide_eq_false_iff_not]
  by_cases hpf : e.regs .intNo = ISR_PageFault
  · simp [hpf]
  · by_cases hgp : e.regs .intNo = ISR_GeneralProtectionFault
    · exact .inr (.inl ⟨hpf, hgp, fun h => h.2 hgp⟩)
    · exact .inr (.inr ⟨hpf, hgp, hpf, hgp⟩)

/-- One exception more at the beginning. -/
theorem survivable_cons (st : Counts) (e : Raised) (es : List Raised) (hpf : st.numPfs ≤ 4)
    (hgpf : st.numGpfs ≤ 1) :
    Survivable st (e :: es) ↔ e.Survived st ∧ Survivable (e.count st) es := by
  -- one case for each handler: its own count changes, and the other conditions are handed on
  rcases e.kind with ⟨h₁, h₂, h₃⟩ | ⟨h₁, h₂, h₃⟩ | ⟨h₁, h₂, h₃⟩
  · have hcount : e.count st = { st with numPfs := st.numPfs + 1 } := if_pos h₁
    rw [hcount]
    constructor
    · rintro ⟨hpfs, hgpfs, hopcodes, hnamed, hfresh⟩
      simp only [List.countP_cons, h₁, h₂, List.filter_cons, h₃] at hpfs hgpfs hfresh
      rw [List.forall_mem_cons] at hopcodes hnamed
      refine ⟨⟨fun _ => ?_, by simp [h₂], hopcodes.1, hnamed.1, by simp [h₃]⟩,
        ⟨?_, hgpfs, hopcodes.2, hnamed.2, hfresh⟩⟩
      · -- one fault more is counted from here on
        simp only [if_pos] at hpfs
        omega
      · simp only [if_pos] at hpfs
        dsimp only
        omega
    · rintro ⟨hsurvived, hpfs, hgpfs, hopcodes, hnamed, hfresh⟩
      dsimp only at hpfs hgpfs hfresh
      refine ⟨?_, ?_, List.forall_mem_cons.mpr ⟨hsurvived.opcode, hopcodes⟩,
        List.forall_mem_cons.mpr ⟨hsurvived.named, hnamed⟩, ?_⟩
      · rw [List.countP_cons, if_pos h₁]
        omega
      · rwa [List.countP_cons, h₂, if_neg Bool.false_ne_true, Nat.add_zero]
      · rwa [List.filter_cons, h₃, if_neg Bool.false_ne_true]
  · have hcount : e.count st = { st with numGpfs := st.numGpfs + 1 } := by
      rw [Raised.count, h₁, if_neg Bool.false_ne_true, if_pos h₂]
    rw [hcount]
    constructor
    · rintro ⟨hpfs, hgpfs, hopcodes, hnamed, hfresh⟩
      simp only [List.countP_cons, h₁, h₂, List.filter_cons, h₃] at hpfs hgpfs hfresh
      rw [List.forall_mem_cons] at hopcodes hnamed
      refine ⟨⟨by simp [h₁], fun _ => ?_, hopcodes.1, hnamed.1, by simp [h₃]⟩,
        ⟨hpfs, ?_, hopcodes.2, hnamed.2, hfresh⟩⟩
      · -- the same for the other kind of fault
        simp only [if_pos] at hgpfs
        omega
      · simp only [if_pos] at hgpfs
        dsimp only
        omega
    · rintro ⟨hsurvived, hpfs, hgpfs, hopcodes, hnamed, hfresh⟩
      dsimp only at hpfs hgpfs hfresh
      refine ⟨?_, ?_, List.forall_mem_cons.mpr ⟨hsurvived.opcode, hopcodes⟩,
        List.forall_mem_cons.mpr ⟨hsurvived.named, hnamed⟩, ?_⟩
      · rwa [List.countP_cons, h₁, if_neg Bool.false_ne_true, Nat.add_zero]
      · rw [List.countP_cons, if_pos h₂]
        omega
      · rwa [List.filter_cons, h₃, if_neg Bool.false_ne_true]
  · have hcount : e.count st = { st with lastNum := e.num } := by
      rw [Raised.count, h₁, h₂, if_neg Bool.false_ne_true, if_neg Bool.false_ne_true]
    rw [hcount]
    constructor
    · rintro ⟨hpfs, hgpfs, hopcodes, hnamed, hfresh⟩
      simp only [List.countP_cons, h₁, h₂, List.filter_cons, h₃, if_true, List.map_cons,
        List.isChain_cons_cons] at hpfs hgpfs hfresh
      rw [List.forall_mem_cons] at hopcodes hnamed
      -- the exceptions of this kind differ, each from the one before
      exact ⟨⟨by simp [h₁], by simp [h₂], hopcodes.1, hnamed.1, fun _ => hfresh.1.symm⟩,
        ⟨hpfs, hgpfs, hopcodes.2, hnamed.2, hfresh.2⟩⟩
    · rintro ⟨hsurvived, hpfs, hgpfs, hopcodes, hnamed, hfresh⟩
      dsimp only at hpfs hgpfs hfresh
      refine ⟨?_, ?_, List.forall_mem_cons.mpr ⟨hsurvived.opcode, hopcodes⟩,
        List.forall_mem_cons.mpr ⟨hsurvived.named, hnamed⟩, ?_⟩
      · rwa [List.countP_cons, h₁, if_neg Bool.false_ne_true, Nat.add_zero]
      · rwa [List.countP_cons, h₂, if_neg Bool.false_ne_true, Nat.add_zero]
      · rw [List.filter_cons, if_pos h₃, List.map_cons, List.isChain_cons_cons]
        exact ⟨(hsurvived.fresh h₃).symm, hfresh⟩

theorem exceptions_ok_iff (hpf : st.numPfs ≤ 4) (hgpf : st.numGpfs ≤ 1) :
    (∃ st', (exceptions st es).2 = .ok st') ↔ Survivable st es := by
  induction es generalizing st with
  | nil =>
      refine iff_of_true ⟨st, rfl⟩ ⟨hpf, hgpf, ?_, ?_, List.isChain_singleton _⟩
      · intro e he
        cases he
      · intro e he
        cases he
  | cons e es ih =>
      rw [exceptions_cons, survivable_cons st e es hpf hgpf]
      refine and_congr_right fun hsurvived => ih ?_ ?_
      · unfold Raised.count
        split
        · next h => exact Nat.succ_le_succ (hsurvived.pageFault h)
        · split <;> exact hpf
      · unfold Raised.count
        split
        · exact hgpf
        · split
          · next h => exact Nat.succ_le_succ (Nat.le_of_eq (hsurvived.gpf h))
          · exact hgpf

/-- A kernel survives a sequence of exceptions exactly if there are at most four page faults and one
general protection fault among them, no invalid opcode, none without a name, and no two that are of the
same kind one after the other, page faults and general protection faults aside. -/
theorem exceptions_survived_iff (es : List Raised) :
    (∃ st', (exceptions .start es).2 = .ok st') ↔ Survivable .start es :=
  exceptions_ok_iff (Nat.zero_le 4) (Nat.zero_le 1)

end Twos.Isr
