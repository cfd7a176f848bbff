import Twos.Isr.Gates
import Twos.Kernel.Base
import Twos.Lib.Memory

/-!
# Segments, and the stack for interrupts

`gdt.c` and the table `gdt64` of `multiboot.asm`. What the processor needs of them when an interrupt
arrives is a segment for the code of the gate and, if that is of a higher privilege than what is
interrupted, a stack: the descriptor of the task state segment says where the segment is, and the
segment says where the stack is. `make_tss` takes an address apart for the descriptor, and the processor
puts it together again.

`baseOf_tssEntry` and `limitOf_tssEntry` are that round trip, for every address. `initGdtTss_spec` goes
through `init_gdt_tss`: `make_tss` writes the descriptor and the stack, and `ltr` accepts them and marks
the segment as busy, which leaves base and limit as they are. After it (`Ready`) the segment of the
kernel's code is the one of `gdt64`, and the stack for privilege 0 the one that was given, so that
`interrupt_entry` can follow the processor through every gate that `idt_init` has set.
-/

namespace Twos.Boot

open Lib Isr

/-! ## Descriptors -/

abbrev KERNEL_CS : Nat := 0x8
abbrev TSS_GDT_OFFSET : Nat := 0x28

/-- `gdt64`, before there is a task state segment. -/
def gdt64 : List (BitVec 64) :=
  [0,
    1#64 <<< 44 ||| 1#64 <<< 47 ||| 1#64 <<< 41 ||| 1#64 <<< 43 ||| 1#64 <<< 53,
    1#64 <<< 44 ||| 1#64 <<< 47 ||| 1#64 <<< 41,
    1#64 <<< 44 ||| 1#64 <<< 47 ||| 1#64 <<< 41 ||| 1#64 <<< 43 ||| 1#64 <<< 53 ||| 1#64 <<< 46 ||| 1#64 <<< 45,
    1#64 <<< 44 ||| 1#64 <<< 47 ||| 1#64 <<< 41 ||| 1#64 <<< 46 ||| 1#64 <<< 45,
    0, 0]

/-- `gdt64.pointer`, as it is loaded last. -/
structure Gdtr where
  limit : Nat
  base : Nat

def gdtPointer (gdt : Nat) : Gdtr := ⟨8 * gdt64.length - 1, gdt⟩

/-- `access_bit_t`. -/
structure AccessBit where
  accessed : BitVec 1
  rw : BitVec 1
  dc : BitVec 1
  exec : BitVec 1
  notSys : BitVec 1
  priv : BitVec 2
  present : BitVec 1

def AccessBit.byte (a : AccessBit) : BitVec 8 :=
  a.present ++ a.priv ++ a.notSys ++ a.exec ++ a.dc ++ a.rw ++ a.accessed

/-- `gdt_entry_sys_t`. -/
structure GdtEntrySys where
  size : BitVec 16
  base0to15 : BitVec 16
  base16to23 : BitVec 8
  access : AccessBit
  flags : BitVec 8
  base24to31 : BitVec 8
  base31to64 : BitVec 32
  reserved0 : BitVec 32

/-- As it lies in memory, the lowest byte first. -/
def GdtEntrySys.bits (e : GdtEntrySys) : BitVec 128 :=
  e.reserved0 ++ e.base31to64 ++ e.base24to31 ++ e.flags ++ e.access.byte ++ e.base16to23 ++
    e.base0to15 ++ e.size

/-! ## `gdt.c` -/

/-- `sizeof(tss_t)`. -/
abbrev TSS_SIZE : Nat := 104

/-- The variables of the two files: `gdt64`, `task_state_segment` and `kernel_stack`. -/
structure Segments where
  gdt : Nat
  tss : Nat
  kernelStack : BitVec 64

/-- What `GDT_TSS_PTR` holds. -/
def Segments.gdtTssPtr (l : Segments) : Nat := l.gdt + 40

/-- The descriptor that `make_tss` fills in. -/
def tssEntry (addr : BitVec 64) : GdtEntrySys where
  size := BitVec.ofNat 16 TSS_SIZE
  base0to15 := (addr &&& 0xffff).setWidth 16
  base16to23 := ((addr >>> 16) &&& 0xff).setWidth 8
  access := ⟨1, 0, 0, 1, 0, 0, 1⟩
  flags := 0
  base24to31 := ((addr >>> 24) &&& 0xff).setWidth 8
  base31to64 := (addr >>> 32).setWidth 32
  reserved0 := 0

/-- `make_tss`. -/
def makeTss (l : Segments) (m : Memory) : Memory :=
  let m := fill m l.tss TSS_SIZE 0
  let m := store m (l.tss + 4) 8 l.kernelStack.toNat
  store m l.gdtTssPtr 16 (tssEntry (BitVec.ofNat 64 l.tss)).bits.toNat

/-! ## The processor

What `ltr` and an interrupt do, as far as the tables of the kernel go into it. A descriptor that is
not accepted is a fault, which there is no gate for at this point.
-/

/-- The 16 bytes of a system descriptor. -/
def systemDescriptor (m : Memory) (a : Nat) : BitVec 128 := BitVec.ofNat 128 (load m a 16)

/-- The base that a system descriptor says. -/
def baseOf (d : BitVec 128) : BitVec 64 :=
  d.extractLsb' 64 32 ++ d.extractLsb' 56 8 ++ d.extractLsb' 32 8 ++ d.extractLsb' 16 16

/-- The limit, counted in bytes. -/
def limitOf (d : BitVec 128) : BitVec 20 := d.extractLsb' 48 4 ++ d.extractLsb' 0 16

/-- The task register. -/
structure TaskRegister where
  base : Nat
  limit : Nat

/-- `ltr`: the descriptor must be within the table, present, and of an available task state segment of 64
bits, and is busy from then on. -/
def ltr (m : Memory) (r : Gdtr) (selector : Nat) : Option (Memory × TaskRegister) :=
  let d := systemDescriptor m (r.base + selector)
  if selector + 15 ≤ r.limit ∧ d.getLsbD 47 = true ∧ d.extractLsb' 40 5 = 0b01001 then
    some (store m (r.base + selector) 16 (d ||| 1#128 <<< 41).toNat, ⟨(baseOf d).toNat, (limitOf d).toNat⟩)
  else none

/-- `init_gdt_tss`. Where the processor does not take the segment, it faults, and there is no gate yet. -/
def initGdtTss (l : Segments) (m : Memory) : Except Fault (Option (Memory × TaskRegister)) := do
  assert (l.gdtTssPtr - l.gdt == TSS_GDT_OFFSET) "(GDT_TSS_PTR - GDT_PTR) == TSS_GDT_OFFSET"
  .ok (ltr (makeTss l m) (gdtPointer l.gdt) TSS_GDT_OFFSET)

/-- The descriptor of a segment, if the selector is not null and within the table. -/
def segment (m : Memory) (r : Gdtr) (selector : Nat) : Option (BitVec 64) :=
  if selector / 8 ≠ 0 ∧ selector / 8 * 8 + 7 ≤ r.limit then
    some (BitVec.ofNat 64 (load m (r.base + selector / 8 * 8) 8))
  else none

/-- Present code of 64 bits, which a processor at this level may enter. -/
def enterable (d : BitVec 64) (cpl : Nat) : Bool :=
  d.getLsbD 47 && d.getLsbD 44 && d.getLsbD 43 && d.getLsbD 53 && !d.getLsbD 54 &&
    decide ((d.extractLsb' 45 2).toNat ≤ cpl)

/-- What the processor goes on with: where, with which selector and at which level, on which stack, and
whether interrupts are off. -/
structure Entered where
  rip : BitVec 64
  cs : Nat
  cpl : Nat
  rsp : Nat
  off : Bool
  deriving DecidableEq

/-- The stack that a gate and a change of level ask for, if the task state segment reaches so far. -/
def stackFor (m : Memory) (tr : TaskRegister) (ist : BitVec 8) (cpl newCpl rsp : Nat) : Option Nat :=
  let ist := ist.toNat % 8
  let slot := if ist = 0 then 4 + 8 * newCpl else 36 + 8 * (ist - 1)
  if ist = 0 ∧ newCpl = cpl then some rsp
  else if slot + 7 ≤ tr.limit then some (load m (tr.base + slot) 8)
  else none

/-- An interrupt at a level and on a stack, or an `int` of the software there. -/
def enter (m : Memory) (r : Gdtr) (tr : TaskRegister) (idt : Nat → IdtEntry) (software : Bool)
    (cpl rsp v : Nat) : Option Entered := do
  let gate ← gateFor idt v
  if software ∧ (gate.attributes.extractLsb' 5 2).toNat < cpl then none
  else
    let d ← segment m r gate.kernelCs.toNat
    let newCpl := if d.getLsbD 42 then cpl else (d.extractLsb' 45 2).toNat
    if enterable d cpl ∧ (gate.attributes.extractLsb' 1 3).toNat = 7 then
      let stack ← stackFor m tr gate.ist cpl newCpl rsp
      some ⟨gate.offset, gate.kernelCs.toNat / 8 * 8 + newCpl, newCpl, stack / 16 * 16,
        !gate.attributes.getLsbD 0⟩
    else none

/-! ## Taken apart and put together -/

theorem AccessBit.tss_byte : (⟨1, 0, 0, 1, 0, 0, 1⟩ : AccessBit).byte = 0b10001001 := by decide

/-- The processor finds the address that `make_tss` took apart. -/
theorem baseOf_tssEntry (addr : BitVec 64) : baseOf (tssEntry addr).bits = addr := by
  have hbyte : ∀ i, i < 8 → (0xff#64).getLsbD i = true := by decide
  have hword : ∀ i, i < 16 → (0xffff#64).getLsbD i = true := by decide
  apply BitVec.eq_of_getLsbD_eq
  intro i hi
  simp only [baseOf, GdtEntrySys.bits, tssEntry, BitVec.getLsbD_append, BitVec.getLsbD_extractLsb',
    BitVec.getLsbD_setWidth, BitVec.getLsbD_and, BitVec.getLsbD_ushiftRight]
  grind

theorem limitOf_tssEntry (addr : BitVec 64) : limitOf (tssEntry addr).bits = BitVec.ofNat 20 TSS_SIZE := by
  have hzero : ∀ i, i < 4 → (0#8).getLsbD i = false := by decide
  have hhigh : ∀ i, i < 4 → (BitVec.ofNat 20 TSS_SIZE).getLsbD (16 + i) = false := by decide
  have hlow : ∀ i, i < 16 →
      (BitVec.ofNat 16 TSS_SIZE).getLsbD i = (BitVec.ofNat 20 TSS_SIZE).getLsbD i := by decide
  apply BitVec.eq_of_getLsbD_eq
  intro i hi
  simp only [limitOf, GdtEntrySys.bits, tssEntry, BitVec.getLsbD_append, BitVec.getLsbD_extractLsb']
  grind

theorem type_tssEntry (addr : BitVec 64) : (tssEntry addr).bits.getLsbD 47 = true ∧
    (tssEntry addr).bits.extractLsb' 40 5 = 0b01001 := by
  have hbyte {i : Nat} (hi : i < 8) :
      (tssEntry addr).bits.getLsbD (40 + i) = (0b10001001#8).getLsbD i := by
    simp only [GdtEntrySys.bits, tssEntry, BitVec.getLsbD_append, AccessBit.tss_byte]
    grind
  constructor
  · exact hbyte (i := 7) (by decide)
  · have hfive : ∀ i, i < 5 → (0b10001001#8).getLsbD i = (0b01001#5).getLsbD i := by decide
    apply BitVec.eq_of_getLsbD_eq
    intro i hi
    rw [BitVec.getLsbD_extractLsb', decide_eq_true hi, Bool.true_and, hbyte (by omega), hfive i hi]
    rfl

/-! ## What `init_gdt_tss` leaves

The descriptor of the task state segment is written in its two words, and `ltr` marks it busy. Both
stores are inside `gdt64` and the segment, and the descriptors of the code and data segments are not
touched.
-/

variable {l : Segments} {m : Memory}

/-- `gdt64` as it was loaded, with the task state segment somewhere else. -/
structure Segments.Placed (l : Segments) (m : Memory) : Prop where
  table : ∀ i, i < 7 → load m (l.gdt + 8 * i) 8 = (gdt64.getD i 0).toNat
  address : l.tss < WORD
  apart : l.tss + TSS_SIZE ≤ l.gdt ∨ l.gdt + 8 * 7 ≤ l.tss

/-- What is neither in the task state segment nor in its descriptor. -/
def Segments.Elsewhere (l : Segments) (x : Nat) : Prop :=
  (x < l.tss ∨ l.tss + TSS_SIZE ≤ x) ∧ (x < l.gdtTssPtr ∨ l.gdtTssPtr + 16 ≤ x)

theorem makeTss_elsewhere {x : Nat} (hx : l.Elsewhere x) : makeTss l m x = m x := by
  obtain ⟨htss, hdescriptor⟩ := hx
  rw [makeTss]
  rw [store_outside hdescriptor, store_outside (by lia), fill_outside htss]

theorem makeTss_descriptor (l : Segments) (m : Memory) :
    systemDescriptor (makeTss l m) l.gdtTssPtr = (tssEntry (BitVec.ofNat 64 l.tss)).bits := by
  have hlt : (tssEntry (BitVec.ofNat 64 l.tss)).bits.toNat < 256 ^ 16 := BitVec.isLt _
  rw [systemDescriptor, makeTss]
  rw [load_store_same hlt, BitVec.ofNat_toNat, BitVec.setWidth_eq]

theorem makeTss_stack (hplaced : l.Placed m) :
    load (makeTss l m) (l.tss + 4) 8 = l.kernelStack.toNat := by
  have hlt : l.kernelStack.toNat < 256 ^ 8 := l.kernelStack.isLt
  have hapart := hplaced.apart
  rw [makeTss]
  rw [load_store_disjoint, load_store_same hlt]
  unfold Segments.gdtTssPtr
  lia

/-- The task register, and what memory has become. -/
structure Ready (l : Segments) (m m' : Memory) (tr : TaskRegister) : Prop where
  base : tr.base = l.tss
  limit : tr.limit = TSS_SIZE
  stack : load m' (l.tss + 4) 8 = l.kernelStack.toNat
  frame : ∀ x, l.Elsewhere x → m' x = m x

theorem initGdtTss_spec (hplaced : l.Placed m) :
    ∃ m' tr, initGdtTss l m = .ok (some (m', tr)) ∧ Ready l m m' tr := by
  have hdescriptor := makeTss_descriptor l m
  have haddr : (BitVec.ofNat 64 l.tss).toNat = l.tss := by
    rw [BitVec.toNat_ofNat]
    exact Nat.mod_eq_of_lt hplaced.address
  have hlimit : (BitVec.ofNat 20 TSS_SIZE).toNat = TSS_SIZE := by decide
  have hoffset : l.gdtTssPtr - l.gdt = TSS_GDT_OFFSET := by
    unfold Segments.gdtTssPtr
    lia
  -- `ltr` reads back what `make_tss` has written, and finds the table long enough for it
  have hltr : ltr (makeTss l m) (gdtPointer l.gdt) TSS_GDT_OFFSET = some
      (store (makeTss l m) l.gdtTssPtr 16
        ((tssEntry (BitVec.ofNat 64 l.tss)).bits ||| 1#128 <<< 41).toNat, ⟨l.tss, TSS_SIZE⟩) := by
    have hbase : (gdtPointer l.gdt).base + TSS_GDT_OFFSET = l.gdtTssPtr := rfl
    have hroom : TSS_GDT_OFFSET + 15 ≤ (gdtPointer l.gdt).limit := Nat.le_refl 55
    rw [ltr, hbase]
    simp only [hdescriptor, baseOf_tssEntry, limitOf_tssEntry, haddr, hlimit]
    rw [if_pos ⟨hroom, type_tssEntry _⟩]
  refine ⟨store (makeTss l m) l.gdtTssPtr 16
    ((tssEntry (BitVec.ofNat 64 l.tss)).bits ||| 1#128 <<< 41).toNat, ⟨l.tss, TSS_SIZE⟩, ?_,
    ⟨rfl, rfl, ?_, fun x hx => ?_⟩⟩
  · rw [initGdtTss, hoffset, hltr]
    rfl
  · -- the busy bit is in the descriptor, and the stack in the segment
    have hapart := hplaced.apart
    rw [load_store_disjoint, makeTss_stack hplaced]
    unfold Segments.gdtTssPtr
    lia
  · rw [store_outside hx.2, makeTss_elsewhere hx]

/-- The descriptors of the segments are the ones of `gdt64`. -/
theorem Ready.segment {m' : Memory} {tr : TaskRegister} (h : Ready l m m' tr) (hplaced : l.Placed m)
    {i : Nat} (hlow : 0 < i) (hhigh : i < 5) :
    segment m' (gdtPointer l.gdt) (8 * i) = some (gdt64.getD i 0) := by
  have hindex : 8 * i / 8 = i := by omega
  have hlimit : i * 8 + 7 ≤ (gdtPointer l.gdt).limit := by
    show i * 8 + 7 ≤ 55
    omega
  have hload : load m' (l.gdt + i * 8) 8 = load m (l.gdt + 8 * i) 8 := by
    have hapart := hplaced.apart
    rw [Nat.mul_comm i 8]
    apply load_congr
    intro x hlo hhi
    apply h.frame
    unfold Segments.Elsewhere Segments.gdtTssPtr
    lia
  rw [Boot.segment, hindex, if_pos ⟨by omega, hlimit⟩]
  show some (BitVec.ofNat 64 (load m' (l.gdt + i * 8) 8)) = _
  rw [hload, hplaced.table i (by omega), BitVec.ofNat_toNat, BitVec.setWidth_eq]

/-! ## Interrupts

The gates of `idt_init` all have the kernel's code segment and level 0, so an interrupt enters at
level 0 on the stack that was interrupted, or on that of the task state segment if it comes from
another level.
-/

/-- The gates that `idt_init` installs, with all their fields. -/
theorem installStubs_eq (image : Image) (idt : Nat → IdtEntry) (n : Nat) {v : Nat} (hv : v < n) :
    installStubs image idt n v =
      idtSetDescriptor idt v ((isrStubTable image).getD v 0) 0x8E v := by
  induction n with
  | zero => exact absurd hv (Nat.not_lt_zero v)
  | succ n ih =>
      have hstep : installStubs image idt (n + 1) = idtSetDescriptor (installStubs image idt n) n
          ((isrStubTable image).getD n 0) 0x8E := by
        rw [installStubs, List.range_succ, List.foldl_append]
        rfl
      rw [hstep]
      by_cases hvn : v = n
      · subst hvn
        simp [idtSetDescriptor]
      · rw [idtSetDescriptor_ne hvn]
        exact ih (by omega)

/-- An interrupt gate of level 0 into the kernel's code. -/
theorem idtInit_gate (image : Image) (idt : Nat → IdtEntry) {v : Nat} (hv : v < 48) :
    (idtInit image idt v).offset = image.addr (labelOf v hv) ∧ (idtInit image idt v).kernelCs = 0x8 ∧
      (idtInit image idt v).ist = 0 ∧ (idtInit image idt v).attributes = 0x8E := by
  have hgate : idtInit image idt v = _ := installStubs_eq image (idtCleared idt) 48 hv
  rw [hgate, idtSetDescriptor_offset, isrStubTable_getD image hv]
  simp [idtSetDescriptor]

/-- The code segment of the kernel may be entered from every level, at level 0. -/
theorem kernelCs_enterable (cpl : Nat) :
    enterable (gdt64.getD 1 0) cpl = true ∧ (gdt64.getD 1 0).getLsbD 42 = false ∧
      ((gdt64.getD 1 0).extractLsb' 45 2).toNat = 0 := by
  have hdpl : ((gdt64.getD 1 0).extractLsb' 45 2).toNat = 0 := by decide
  have hbits : ((gdt64.getD 1 0).getLsbD 47 && (gdt64.getD 1 0).getLsbD 44 &&
      (gdt64.getD 1 0).getLsbD 43 && (gdt64.getD 1 0).getLsbD 53 &&
      !(gdt64.getD 1 0).getLsbD 54) = true := by decide
  refine ⟨?_, by decide, hdpl⟩
  rw [enterable, hbits, hdpl]
  simp

/-- Through such a gate, into such a segment. -/
theorem enter_gate {r : Gdtr} {tr : TaskRegister} {idt : Nat → IdtEntry} {gate : IdtEntry}
    {d : BitVec 64} {v cpl : Nat} (hgate : gateFor idt v = some gate)
    (hsegment : segment m r gate.kernelCs.toNat = some d) (hattributes : gate.attributes = 0x8E)
    (henter : enterable d cpl = true) (hconforming : d.getLsbD 42 = false)
    (hdpl : (d.extractLsb' 45 2).toNat = 0) (software : Bool) (rsp : Nat) :
    enter m r tr idt software cpl rsp v =
      if software ∧ 0 < cpl then none
      else (stackFor m tr gate.ist cpl 0 rsp).map fun stack =>
        ⟨gate.offset, gate.kernelCs.toNat / 8 * 8, 0, stack / 16 * 16, true⟩ := by
  have hlevel : ((0x8E : BitVec 8).extractLsb' 5 2).toNat = 0 := by decide
  have htype : ((0x8E : BitVec 8).extractLsb' 1 3).toNat = 7 := by decide
  have hoff : (0x8E : BitVec 8).getLsbD 0 = false := by decide
  rw [enter, hgate, Option.bind_eq_bind, Option.bind_some, hattributes, hlevel]
  split
  · rfl
  · rw [hsegment, Option.bind_eq_bind, Option.bind_some, hconforming, htype, hoff, hdpl]
    dsimp only
    rw [if_neg Bool.false_ne_true, if_pos ⟨henter, rfl⟩]
    cases stackFor m tr gate.ist cpl 0 rsp with
    | none => rfl
    | some stack => rfl

theorem Ready.stackFor {m' : Memory} {tr : TaskRegister} (h : Ready l m m' tr) (cpl rsp : Nat) :
    stackFor m' tr 0 cpl 0 rsp = some (if cpl = 0 then rsp else l.kernelStack.toNat) := by
  have hzero : (0 : BitVec 8).toNat % 8 = 0 := by decide
  rw [Boot.stackFor, hzero]
  by_cases hcpl : cpl = 0
  · simp [hcpl]
  · have hslot : 4 + 8 * 0 + 7 ≤ tr.limit := by
      rw [h.limit]
      decide
    simp only [hcpl, Ne.symm hcpl, and_false, if_true, if_false]
    rw [if_pos hslot, h.base]
    exact congrArg some h.stack

/-- After `init_gdt_tss` and `idt_init`, every interrupt with a vector below 48 goes to its stub, at
level 0, on the interrupted stack if that was at level 0 too and on `kernel_stack` otherwise, with
interrupts off; no other vector goes anywhere, and no `int` from another level does. -/
theorem interrupt_entry (hplaced : l.Placed m) (image : Image) (idt : Nat → IdtEntry) :
    ∃ m' tr, initGdtTss l m = .ok (some (m', tr)) ∧ (∀ x, l.Elsewhere x → m' x = m x) ∧
      ∀ cpl rsp v, enter m' (gdtPointer l.gdt) tr (idtInit image idt) false cpl rsp v =
          (if hv : v < 48 then some ⟨image.addr (labelOf v hv), KERNEL_CS, 0,
            (if cpl = 0 then rsp else l.kernelStack.toNat) / 16 * 16, true⟩ else none) ∧
        (0 < cpl → enter m' (gdtPointer l.gdt) tr (idtInit image idt) true cpl rsp v = none) := by
  obtain ⟨m', tr, hinit, hready⟩ := initGdtTss_spec hplaced
  refine ⟨m', tr, hinit, hready.frame, fun cpl rsp v => ?_⟩
  have hgateFor := gateFor_idtInit image idt v
  -- a gate of `idt_init`, or none
  by_cases hv : v < 48
  · obtain ⟨hoffset, hcs, hist, hattributes⟩ := idtInit_gate image idt hv
    obtain ⟨henter, hconforming, hdpl⟩ := kernelCs_enterable cpl
    have hsegment : segment m' (gdtPointer l.gdt) (idtInit image idt v).kernelCs.toNat =
        some (gdt64.getD 1 0) := by
      rw [hcs]
      exact hready.segment hplaced (i := 1) (by decide) (by decide)
    rw [if_pos hv] at hgateFor
    have hspec (software : Bool) :
        enter m' (gdtPointer l.gdt) tr (idtInit image idt) software cpl rsp v = _ :=
      enter_gate hgateFor hsegment hattributes henter hconforming hdpl software rsp
    rw [dif_pos hv]
    -- an interrupt of the hardware enters, and `int` of a lower privilege does not
    constructor
    · rw [hspec, hist, hready.stackFor, hoffset, hcs]
      rfl
    · intro hcpl
      rw [hspec, if_pos ⟨rfl, hcpl⟩]
  · -- behind the limit the processor finds no gate
    rw [if_neg hv] at hgateFor
    rw [dif_neg hv, enter, enter, hgateFor]
    exact ⟨rfl, fun _ => rfl⟩

/-- A kernel that has been linked and loaded: `gdt64` at 4096, the task state segment at 8192. -/
def linked : Segments := ⟨4096, 8192, 0xffffffff80200000⟩

def loaded : Memory :=
  (List.range 7).foldl (fun m i => store m (linked.gdt + 8 * i) 8 (gdt64.getD i 0).toNat) fun _ => 0

theorem linked_placed : linked.Placed loaded := by
  have htable : ∀ i, i < 7 → load loaded (linked.gdt + 8 * i) 8 = (gdt64.getD i 0).toNat := by
    decide +kernel
  exact ⟨htable, by decide, .inr (by decide)⟩

theorem interrupt_entry_linked :
    ∃ m' tr, initGdtTss linked loaded = .ok (some (m', tr)) ∧
      (∀ x, linked.Elsewhere x → m' x = loaded x) ∧
      ∀ cpl rsp v, enter m' (gdtPointer linked.gdt) tr
            (idtInit someImage fun _ => ⟨0, 0, 0, 0, 0, 0, 0⟩) false cpl rsp v =
          (if hv : v < 48 then some ⟨someImage.addr (labelOf v hv), KERNEL_CS, 0,
            (if cpl = 0 then rsp else linked.kernelStack.toNat) / 16 * 16, true⟩ else none) ∧
        (0 < cpl → enter m' (gdtPointer linked.gdt) tr
          (idtInit someImage fun _ => ⟨0, 0, 0, 0, 0, 0, 0⟩) true cpl rsp v = none) :=
  interrupt_entry linked_placed someImage _

end Twos.Boot
