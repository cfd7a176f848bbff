/-!
# Interrupt gates

`idt.c` and `idt_table.asm`: the descriptors that `idt_init` installs, and what the stubs they lead
to hand over to the handlers.

The assembler decides the addresses of the stubs, so an `Image` is any assignment of addresses in
which the labels can be told apart.

`installStubs_spec` is the loop of `idt_init`, and `gateFor_idtInit` what the processor finds at a
vector after it: the gate of its stub below 48, and none behind. `deliver_spec` follows an interrupt
through the gate and the pushes to the fields of `registers_t`.
-/

namespace Twos.Isr

abbrev IDT_MAX_DESCRIPTORS : Nat := 255

/-! ## The stubs -/

/-- The labels that `isr_stub_table` lists. -/
inductive Label where
  | isrStub (n : Fin 32)
  | irq (n : Fin 16)
  | isrSyscall
  deriving DecidableEq

/-- Where the assembler has put the code. -/
structure Image where
  addr : Label → BitVec 64
  find : BitVec 64 → Option Label
  find_addr : ∀ l, find (addr l) = some l

/-- `isr_stub_table`. -/
def isrStubTable (image : Image) : List (BitVec 64) :=
  List.ofFn (fun n : Fin 32 => image.addr (.isrStub n)) ++
    List.ofFn (fun n : Fin 16 => image.addr (.irq n)) ++ [image.addr .isrSyscall]

/-- The fields of `registers_t`. -/
inductive Field where
  | ds
  | r15 | r14 | r13 | r12 | r11 | r10 | r9 | r8
  | rbp | rsi | rdi | rbx | rdx | rcx | cr3 | rax
  | intNo | errCode
  | rip | cs | rflags | rsp | ss
  deriving DecidableEq

/-- Their order in memory. -/
def registersFields : List Field :=
  [.ds, .r15, .r14, .r13, .r12, .r11, .r10, .r9, .r8, .rbp, .rsi, .rdi, .rbx, .rdx, .rcx, .cr3, .rax,
    .intNo, .errCode, .rip, .cs, .rflags, .rsp, .ss]

/-- A field of the `registers_t` at the top of the stack. -/
def fieldOf (stack : List (BitVec 64)) (f : Field) : BitVec 64 :=
  stack.getD (registersFields.idxOf f) 0

/-- What `pushAll` pushes. -/
def pushAllOrder : List Field :=
  [.rax, .cr3, .rcx, .rdx, .rbx, .rdi, .rsi, .rbp, .r8, .r9, .r10, .r11, .r12, .r13, .r14, .r15]

/-- `pushAll`, and the `push rax` that follows it in both shared stubs. -/
def pushRegisters (value : Field → BitVec 64) (stack : List (BitVec 64)) : List (BitVec 64) :=
  value .ds :: pushAllOrder.foldl (fun stack f => value f :: stack) stack

/-- What the processor pushes when an interrupt arrives. -/
def arrive (value : Field → BitVec 64) : List (BitVec 64) :=
  [value .rip, value .cs, value .rflags, value .rsp, value .ss]

/-- The routines that the shared stubs call. -/
inductive Handler where
  | isrHandler
  | irqHandler
  deriving DecidableEq

/-- The exceptions for which the processor pushes an error code: those with `isr_err_stub`. -/
def hasErrorCode (n : Nat) : Bool := n ∈ [8, 10, 11, 12, 13, 14, 17, 30]

/-- What the code at a label calls, and the stack at the call. -/
def Label.run (value : Field → BitVec 64) (stack : List (BitVec 64)) :
    Label → Handler × List (BitVec 64)
  | .isrStub n =>
      let stack := if hasErrorCode n then stack else 0 :: stack
      (.isrHandler, pushRegisters value (BitVec.ofNat 64 n :: stack))
  | .irq n => (.irqHandler, pushRegisters value (BitVec.ofNat 64 (32 + n) :: 0 :: stack))
  | .isrSyscall => (.irqHandler, pushRegisters value (0x69 :: 0 :: stack))

/-! ## The descriptors -/

/-- `idt_entry_t`. -/
structure IdtEntry where
  isrLow : BitVec 16
  kernelCs : BitVec 16
  ist : BitVec 8
  attributes : BitVec 8
  isrMid : BitVec 16
  isrHigh : BitVec 32
  reserved : BitVec 32
  deriving DecidableEq

/-- Where the processor goes through an entry. -/
def IdtEntry.offset (e : IdtEntry) : BitVec 64 := e.isrHigh ++ e.isrMid ++ e.isrLow

/-- The present bit. -/
def IdtEntry.present (e : IdtEntry) : Bool := e.attributes.getLsbD 7

/-- `idt_set_descriptor`. -/
def idtSetDescriptor (idt : Nat → IdtEntry) (vector : Nat) (isr : BitVec 64) (flags : BitVec 8) :
    Nat → IdtEntry := fun i =>
  if i = vector then
    { isrLow := (isr &&& 0xFFFF).setWidth 16
      kernelCs := 0x8
      ist := 0
      attributes := flags
      isrMid := ((isr >>> 16) &&& 0xFFFF).setWidth 16
      isrHigh := ((isr >>> 32) &&& 0xFFFFFFFF).setWidth 32
      reserved := 0 }
  else idt i

/-- The `memset` of `idt_init`, which leaves out the last byte of the table. -/
def idtCleared (idt : Nat → IdtEntry) : Nat → IdtEntry := fun i =>
  if i < 255 then ⟨0, 0, 0, 0, 0, 0, 0⟩
  else ⟨0, 0, 0, 0, 0, 0, (idt i).reserved &&& 0xFF000000⟩

/-- `idt_ptr.limit`. -/
abbrev IDT_LIMIT : Nat := 16 * IDT_MAX_DESCRIPTORS - 1

/-- The loop of `idt_init`, up to vector `n`. -/
def installStubs (image : Image) (idt : Nat → IdtEntry) (n : Nat) : Nat → IdtEntry :=
  (List.range n).foldl (fun idt vec =>
    idtSetDescriptor idt vec ((isrStubTable image).getD vec 0) 0x8E) idt

/-- `idt_init`. -/
def idtInit (image : Image) (idt : Nat → IdtEntry) : Nat → IdtEntry :=
  installStubs image (idtCleared idt) 48

/-! ## Interrupts -/

/-- The gate that an interrupt goes through, if it is within the limit and present. -/
def gateFor (idt : Nat → IdtEntry) (vector : Nat) : Option IdtEntry :=
  if 16 * vector + 15 ≤ IDT_LIMIT ∧ (idt vector).present = true then some (idt vector) else none

/-- The handler that an interrupt ends up in, and the `int_no` it finds there. -/
def deliver (image : Image) (idt : Nat → IdtEntry) (value : Field → BitVec 64) (vector : Nat) :
    Option (Handler × BitVec 64) := do
  let gate ← gateFor idt vector
  let label ← image.find gate.offset
  let (handler, stack) := label.run value (arrive value)
  some (handler, fieldOf stack .intNo)

/-! ## What is installed

The address of a stub goes into a descriptor in three parts, and masking and shifting finds it
again. The loop writes the first 48 descriptors and leaves the others as they were cleared.
-/

theorem mask_setWidth_low (x : BitVec 64) : (x &&& 0xFFFF).setWidth 16 = x.setWidth 16 := by
  have hones : ∀ i, i < 16 → (0xFFFF#16).getLsbD i = true := by decide
  apply BitVec.eq_of_getLsbD_eq
  intro i hi
  simp [hones i hi]

theorem mask_setWidth_high (x : BitVec 64) : (x &&& 0xFFFFFFFF).setWidth 32 = x.setWidth 32 := by
  have hones : ∀ i, i < 32 → (0xFFFFFFFF#32).getLsbD i = true := by decide
  apply BitVec.eq_of_getLsbD_eq
  intro i hi
  simp [hones i hi]

/-- The three parts of an address in a descriptor. -/
theorem idtSetDescriptor_offset (idt : Nat → IdtEntry) (vector : Nat) (isr : BitVec 64)
    (flags : BitVec 8) : (idtSetDescriptor idt vector isr flags vector).offset = isr := by
  simp only [idtSetDescriptor, if_true, IdtEntry.offset, mask_setWidth_low, mask_setWidth_high]
  apply BitVec.eq_of_getLsbD_eq
  intro i hi
  simp only [BitVec.getLsbD_append, BitVec.getLsbD_setWidth, BitVec.getLsbD_ushiftRight]
  grind

theorem idtSetDescriptor_attributes (idt : Nat → IdtEntry) (vector : Nat) (isr : BitVec 64)
    (flags : BitVec 8) : (idtSetDescriptor idt vector isr flags vector).attributes = flags := by
  simp [idtSetDescriptor]

theorem idtSetDescriptor_ne {idt : Nat → IdtEntry} {vector i : Nat} (h : i ≠ vector)
    (isr : BitVec 64) (flags : BitVec 8) :
    idtSetDescriptor idt vector isr flags i = idt i := if_neg h

theorem installStubs_spec (image : Image) (idt : Nat → IdtEntry) (n : Nat) :
    (∀ v, v < n → (installStubs image idt n v).offset = (isrStubTable image).getD v 0 ∧
        (installStubs image idt n v).attributes = 0x8E) ∧
      ∀ v, n ≤ v → installStubs image idt n v = idt v := by
  induction n with
  | zero => exact ⟨fun v hv => absurd hv (Nat.not_lt_zero v), fun v _ => rfl⟩
  | succ n ih =>
      have hstep : installStubs image idt (n + 1) = idtSetDescriptor (installStubs image idt n) n
          ((isrStubTable image).getD n 0) 0x8E := by
        rw [installStubs, List.range_succ, List.foldl_append]
        rfl
      rw [hstep]
      refine ⟨fun v hv => ?_, fun v hv => ?_⟩
      · by_cases hvn : v = n
        · subst hvn
          exact ⟨idtSetDescriptor_offset .., idtSetDescriptor_attributes ..⟩
        · rw [idtSetDescriptor_ne hvn]
          exact ih.1 v (by omega)
      · rw [idtSetDescriptor_ne (by omega)]
        exact ih.2 v (by omega)

/-- Gates that lead to the stubs, and none behind them. -/
theorem gateFor_idtInit (image : Image) (idt : Nat → IdtEntry) (v : Nat) :
    gateFor (idtInit image idt) v =
      if v < 48 then some (idtInit image idt v) else none := by
  obtain ⟨hinstalled, hrest⟩ := installStubs_spec image (idtCleared idt) 48
  unfold gateFor
  by_cases hv : v < 48
  · have hattr : (idtInit image idt v).attributes = 0x8E := (hinstalled v hv).2
    have hpresent : (idtInit image idt v).present = true := by
      rw [IdtEntry.present, hattr]
      decide
    rw [if_pos ⟨by lia, hpresent⟩, if_pos hv]
  · have hcleared : (idtInit image idt v) = idtCleared idt v := hrest v (by omega)
    have habsent : (idtInit image idt v).present = false := by
      have hzero : (idtCleared idt v).attributes = 0 := by
        unfold idtCleared
        split
        · rfl
        · rfl
      rw [hcleared, IdtEntry.present, hzero]
      decide
    rw [if_neg hv, if_neg (by simp [habsent])]

/-! ## What is delivered -/

/-- `registers_t` has `int_no` where the stubs push the number. -/
theorem fieldOf_intNo (value : Field → BitVec 64) (n : BitVec 64) (stack : List (BitVec 64)) :
    fieldOf (pushRegisters value (n :: stack)) .intNo = n := rfl

/-- The label in slot `v` of `isr_stub_table`. -/
def labelOf (v : Nat) (hv : v < 48) : Label :=
  if h : v < 32 then .isrStub ⟨v, h⟩ else .irq ⟨v - 32, by omega⟩

theorem isrStubTable_getD (image : Image) {v : Nat} (hv : v < 48) :
    (isrStubTable image).getD v 0 = image.addr (labelOf v hv) := by
  rw [List.getD_eq_getElem?_getD, isrStubTable, labelOf]
  by_cases hlow : v < 32
  · rw [List.append_assoc, List.getElem?_append_left (by rw [List.length_ofFn]; exact hlow),
      List.getElem?_ofFn, dif_pos hlow, dif_pos hlow]
    rfl
  · have hirq : v - 32 < 16 := by omega
    rw [List.getElem?_append_left (by rw [List.length_append]; simp only [List.length_ofFn, hv]),
      List.getElem?_append_right (by rw [List.length_ofFn]; omega), List.length_ofFn,
      List.getElem?_ofFn, dif_pos hirq, dif_neg hlow]
    rfl

/-- An interrupt reaches a handler if and only if its vector is below 48, and the handler finds the
vector in `int_no`. -/
theorem deliver_spec (image : Image) (idt : Nat → IdtEntry) (value : Field → BitVec 64) (v : Nat) :
    deliver image (idtInit image idt) value v =
      if v < 32 then some (.isrHandler, BitVec.ofNat 64 v)
      else if v < 48 then some (.irqHandler, BitVec.ofNat 64 v)
      else none := by
  unfold deliver
  rw [gateFor_idtInit]
  by_cases hv : v < 48
  · obtain ⟨hinstalled, -⟩ := installStubs_spec image (idtCleared idt) 48
    have hoffset : (idtInit image idt v).offset = image.addr (labelOf v hv) := by
      rw [← isrStubTable_getD image hv]
      exact (hinstalled v hv).1
    simp only [if_pos hv, Option.bind_eq_bind, Option.bind_some, hoffset, image.find_addr]
    by_cases hlow : v < 32
    · rw [if_pos hlow, labelOf, dif_pos hlow]
      rfl
    · rw [if_neg hlow, labelOf, dif_neg hlow]
      simp only [Label.run, fieldOf_intNo]
      rw [show 32 + (v - 32) = v by omega]
  · rw [if_neg hv, if_neg (by omega), if_neg hv]
    rfl

end Twos.Isr
