import Twos.Apic.Routing

/-!
# Masking all interrupts

`ioapic_mask` and `ioapic_unmask` take the number of an interrupt, and look for the entry that serves
it. `ioapic_mask_all` and `ioapic_unmask_all` call them with 32 to 47, the vectors of the interrupts
0 to 15. So what they reach are the entries that serve the interrupts 32 to 47, and whether those of
the interrupts 0 to 15 are among them is up to the overrides.

`eachEntry_spec` is the loop that the two have in common, by induction on its turns, and
`masksAll_iff_servedAgain` what follows for one state. What it needs of a state, that the records and
the registers can be reached (`Usable`), is there when `ioapic_init` returns and is kept by every call,
and so `masksAll_iff` is about every state that the calls come to.
-/

namespace Twos.Apic

open Lib Acpi

variable {s s' : Space} {acpi : AcpiInst} {os : List Override} {regs : Regs} {io io₀ : Ioapic}

/-! ## The entry of an interrupt

`ioapic_mask` searches the overrides and keeps the last one that matches, in eight bits. Interrupt 0
is not searched for at all.
-/

/-- The redirection entry that serves an interrupt: its override's, or the one of its number. -/
def serving (os : List Override) (irq : Nat) : Nat :=
  match os.find? fun o => o.irq == irq with
  | some o => o.gsi
  | none => irq

/-- The entry that the search of `ioapic_mask` ends with. -/
def selected (os : List Override) (irq : Nat) : Nat :=
  match os.find? fun o => o.irq == irq with
  | some o => o.gsi % 256
  | none => irq

theorem selected_cons (o : Override) (os : List Override) (irq : Nat) :
    selected (o :: os) irq = if o.irq = irq then o.gsi % 256 else selected os irq := by
  rw [selected, List.find?_cons]
  by_cases hirq : o.irq = irq
  · simp [hirq]
  · have hne : (o.irq == irq) = false := by simp [hirq]
    rw [hne, if_neg hirq, selected]

theorem selected_eq (hgsi : ∀ o ∈ os, o.gsi < 256) (irq : Nat) :
    selected os irq = serving os irq := by
  unfold selected serving
  split
  · next o hfind => exact Nat.mod_eq_of_lt (hgsi o (List.mem_of_find?_eq_some hfind))
  · rfl

/-- What the IOAPIC's operations rely on: the overrides and the registers can be reached. -/
structure Usable (s : Space) (acpi : AcpiInst) (base : Nat) : Prop where
  overrides : ∀ i, i < (acpi.tbl .iosoApic).length → ∃ o, readOverride s.read acpi i = .ok o
  registers : ioapicTouch s base = .ok ()

theorem readOverride_reads {i : Nat} {o : Override} (h : readOverride s.read acpi i = .ok o) :
    ∃ ptr, acpi.tblAt .iosoApic i = .ok ptr ∧ s.read (ptr + 4) 4 = .ok o.gsi ∧
      s.read (ptr + 3) 1 = .ok o.irq := by
  obtain ⟨ptr, hptr, h⟩ := seq_ok.mp h
  obtain ⟨gsi, hgsi, h⟩ := seq_ok.mp h
  obtain ⟨irq, hirq, h⟩ := seq_ok.mp h
  obtain rfl := Except.ok.inj h
  exact ⟨ptr, hptr, hgsi, hirq⟩

/-- The search goes through the overrides that are left. -/
theorem findOverride_spec
    (hread : ∀ i, i < (acpi.tbl .iosoApic).length → ∃ o, readOverride s.read acpi i = .ok o)
    (irq : Nat) {n i : Nat} (hlen : n + i = (acpi.tbl .iosoApic).length) :
    findOverride s.read acpi irq n i = .ok (selected ((overridesOf s.mem acpi).drop i) irq) := by
  have hlength : (overridesOf s.mem acpi).length = (acpi.tbl .iosoApic).length := List.length_map _
  induction n generalizing i with
  | zero =>
      rw [List.drop_eq_nil_of_le (by omega)]
      rfl
  | succ n ih =>
      have hi : i < (overridesOf s.mem acpi).length := by omega
      obtain ⟨o, ho⟩ := hread i (by omega)
      have hspec := readOverride_spec s hi
      rw [ho, outcome_ok] at hspec
      obtain ⟨ptr, hptr, hgsi, hirq⟩ := readOverride_reads ho
      rw [List.drop_eq_getElem_cons hi, ← hspec, selected_cons, findOverride, hptr, ok_seq, hirq,
        ok_seq, hgsi, ok_seq]
      split
      · rfl
      · exact ih (by omega)

/-- The interrupts other than 0 are looked for among the overrides. -/
theorem entryOf_spec {base : Nat} (h : Usable s acpi base) {irq : Nat} (hirq : irq ≠ 0) :
    entryOf s.read acpi irq = .ok (selected (overridesOf s.mem acpi) irq) := by
  rw [entryOf, if_neg hirq]
  exact findOverride_spec h.overrides irq (Nat.add_zero _)

/-! ## The mask of every entry -/

/-- What `ioapic_mask_gsi` writes for `e` is the lower register of entry `k`. -/
def Reaches (maxRedir e k : Nat) : Prop := e ≤ maxRedir ∧ redtbl e = 0x10 + 2 * k

instance (maxRedir e k : Nat) : Decidable (Reaches maxRedir e k) := inferInstanceAs (Decidable (_ ∧ _))

/-- Writing any lower register, whether it is one of an entry or not. -/
theorem masked_writeLow (regs : Regs) (e k : Nat) (low : BitVec 32) :
    masked (redirection (ioapicWrite regs (redtbl e) low) k) =
      if redtbl e = 0x10 + 2 * k then low.getLsbD 16 else masked (redirection regs k) := by
  have hmod : redtbl e % 256 = redtbl e := Nat.mod_mod _ _
  simp only [masked, redirection, ioapicWrite, BitVec.getLsbD_append, hmod]
  grind

theorem masked_maskGsi (maxRedir : Nat) (regs : Regs) (e k : Nat) :
    masked (redirection (ioapicMaskGsi maxRedir regs e).2 k) =
      if Reaches maxRedir e k then true else masked (redirection regs k) := by
  rw [ioapicMaskGsi]
  by_cases hle : e ≤ maxRedir
  · rw [if_neg (Nat.not_lt.mpr hle), masked_writeLow]
    simp [Reaches, hle]
  · rw [if_pos (Nat.lt_of_not_le hle)]
    simp [Reaches, hle]

theorem masked_unmaskGsi (maxRedir : Nat) (regs : Regs) (e k : Nat) :
    masked (redirection (ioapicUnmaskGsi maxRedir regs e).2 k) =
      if Reaches maxRedir e k then false else masked (redirection regs k) := by
  rw [ioapicUnmaskGsi]
  by_cases hle : e ≤ maxRedir
  · rw [if_neg (Nat.not_lt.mpr hle), masked_writeLow]
    simp [Reaches, hle]
  · rw [if_pos (Nat.lt_of_not_le hle)]
    simp [Reaches, hle]

/-! ## The two loops

Masking and unmasking all interrupts are one loop with different operations. The loop reaches the
entries that serve the interrupts 32 to 47.
-/

/-- One of the two operations on every entry that serves one of the interrupts 32 to 47. -/
theorem eachEntry_spec {gsi : Nat → Regs → Nat → Nat × Regs} {b : Bool}
    (hgsi : ∀ maxRedir regs e k, masked (redirection (gsi maxRedir regs e).2 k) =
      if Reaches maxRedir e k then b else masked (redirection regs k))
    (h : Usable s acpi io.base) (n : Nat) :
    ∃ io', forLt (fun i io => do
          let entry ← entryOf s.read acpi (IDT_EXCEPTIONS + i)
          ioapicTouch s io.base
          .ok { io with regs := (gsi io.maxRedir io.regs entry).2 }) n io = .ok io' ∧
      io'.base = io.base ∧ io'.maxRedir = io.maxRedir ∧
      ∀ k, masked (redirection io'.regs k) =
        if ∃ i, i < n ∧ Reaches io.maxRedir
            (selected (overridesOf s.mem acpi) (IDT_EXCEPTIONS + i)) k
        then b else masked (redirection io.regs k) := by
  -- the entries that the first `n` turns have reached, and then the one of the next turn
  induction n with
  | zero => exact ⟨io, rfl, rfl, rfl, fun k => by simp⟩
  | succ n ih =>
      obtain ⟨io', hloop, hbase, hmax, hmasked⟩ := ih
      have hentry := entryOf_spec h (show IDT_EXCEPTIONS + n ≠ 0 by lia)
      refine ⟨{ io' with regs := (gsi io'.maxRedir io'.regs
        (selected (overridesOf s.mem acpi) (IDT_EXCEPTIONS + n))).2 }, ?_, hbase, hmax, ?_⟩
      · -- the turn returns, since the records and the registers are within reach
        rw [forLt, hloop, ok_seq, hentry, ok_seq, hbase, h.registers, ok_seq]
      · intro k
        dsimp only
        rw [hgsi, hmasked, hmax]
        simp only [Nat.exists_lt_succ_right]
        grind

/-- The entries of the interrupts 0 to 15 all have this mask. -/
def ServedMasked (os : List Override) (b : Bool) (regs : Regs) : Prop :=
  ∀ irq, irq < NUM_IRQ → masked (redirection regs (serving os irq)) = b

/-- Masking all interrupts masks them all, and unmasking them unmasks them all. -/
structure MasksAll (s : Space) (acpi : AcpiInst) (io : Ioapic) : Prop where
  mask : ∃ io', ioapicMaskAll s acpi io = .ok io' ∧
    ServedMasked (overridesOf s.mem acpi) true io'.regs
  unmask : ∃ io', ioapicUnmaskAll s acpi io = .ok io' ∧
    ServedMasked (overridesOf s.mem acpi) false io'.regs

/-- Every entry that serves one of the interrupts 0 to 15 serves one of 32 to 47 as well. -/
def ServedAgain (maxRedir : Nat) (os : List Override) : Prop :=
  ∀ irq, irq < NUM_IRQ → ∃ i, i < NUM_IRQ ∧
    Reaches maxRedir (serving os (IDT_EXCEPTIONS + i)) (serving os irq)

theorem masksAll_iff_servedAgain (h : Usable s acpi io.base)
    (hgsi : ∀ o ∈ overridesOf s.mem acpi, o.gsi < 256) :
    MasksAll s acpi io ↔ ServedAgain io.maxRedir (overridesOf s.mem acpi) := by
  obtain ⟨io₁, hmask, -, -, hmasked⟩ := eachEntry_spec masked_maskGsi h NUM_IRQ
  obtain ⟨io₂, hunmask, -, -, hunmasked⟩ := eachEntry_spec masked_unmaskGsi h NUM_IRQ
  simp only [selected_eq hgsi] at hmasked hunmasked
  constructor
  · rintro ⟨⟨io', hrun, hall⟩, io'', hrun', hnone⟩ irq hirq
    obtain rfl := Except.ok.inj (hmask.symm.trans hrun)
    obtain rfl := Except.ok.inj (hunmask.symm.trans hrun')
    -- an entry that neither loop reaches would keep one mask
    by_contra hno
    have htrue := hall irq hirq
    have hfalse := hnone irq hirq
    rw [hmasked, if_neg hno] at htrue
    rw [hunmasked, if_neg hno, htrue] at hfalse
    cases hfalse
  · intro hagain
    refine ⟨⟨io₁, hmask, fun irq hirq => ?_⟩, io₂, hunmask, fun irq hirq => ?_⟩
    · rw [hmasked, if_pos (hagain irq hirq)]
    · rw [hunmasked, if_pos (hagain irq hirq)]

/-! ## The states after `ioapic_init`

What the operations read is the firmware's tables, and what they write is registers, so the tables
stay what they are for all later calls.
-/

/-- What `ioapic_init` read and wrote can still be reached. -/
theorem ioapicInit_usable (h : ioapicInit s acpi regs = .ok (s', io)) :
    s'.mem = s.mem ∧ io.maxRedir = readMaxRedir regs ∧ Usable s' acpi io.base := by
  obtain ⟨record, -, h⟩ := seq_ok.mp h
  obtain ⟨base, -, h⟩ := seq_ok.mp h
  obtain ⟨gsiBase, -, h⟩ := seq_ok.mp h
  obtain ⟨-, -, h⟩ := seq_ok.mp h
  obtain ⟨⟨⟩, htouch, h⟩ := seq_ok.mp h
  obtain ⟨⟨maxRedir, regs'⟩, hprogram, h⟩ := seq_ok.mp h
  obtain ⟨rfl, rfl⟩ := Prod.mk.inj (Except.ok.inj h)
  obtain ⟨start, -, hrest⟩ := seq_ok.mp hprogram
  obtain ⟨⟨mapped, irqMap⟩, hmap, hlast⟩ := seq_ok.mp hrest
  have hcount : readMaxRedir regs = maxRedir := congrArg Prod.fst (Except.ok.inj hlast)
  refine ⟨rfl, hcount.symm, fun i hi => ?_, htouch⟩
  obtain ⟨before, after, hbody⟩ := forLt_iterations hmap hi
  obtain ⟨o, ho, -⟩ := seq_ok.mp hbody
  exact ⟨o, ho⟩

/-- The calls that the rest of the kernel can make. -/
inductive IoapicOp where
  | mask (irq : Nat)
  | unmask (irq : Nat)
  | maskAll
  | unmaskAll

/-- One of them. -/
def ioapicCall (s : Space) (acpi : AcpiInst) (io : Ioapic) : IoapicOp → Except Stop Ioapic
  | .mask irq => ioapicMask s acpi io irq
  | .unmask irq => ioapicUnmask s acpi io irq
  | .maskAll => ioapicMaskAll s acpi io
  | .unmaskAll => ioapicUnmaskAll s acpi io

/-- A call that returns. -/
def IoapicStep (s : Space) (acpi : AcpiInst) (io : Ioapic) (op : IoapicOp) (io' : Ioapic) : Prop :=
  ioapicCall s acpi io op = .ok io'

/-- The registers are all that these calls change. -/
theorem IoapicStep.keeps {op : IoapicOp} {io' : Ioapic} (hstep : IoapicStep s acpi io op io')
    (h : Usable s acpi io.base) : io'.base = io.base ∧ io'.maxRedir = io.maxRedir := by
  cases op with
  | mask irq =>
      obtain ⟨entry, -, hrest⟩ := seq_ok.mp hstep
      obtain ⟨-, -, hlast⟩ := seq_ok.mp hrest
      obtain rfl := Except.ok.inj hlast
      exact ⟨rfl, rfl⟩
  | unmask irq =>
      obtain ⟨entry, -, hrest⟩ := seq_ok.mp hstep
      obtain ⟨-, -, hlast⟩ := seq_ok.mp hrest
      obtain rfl := Except.ok.inj hlast
      exact ⟨rfl, rfl⟩
  | maskAll =>
      obtain ⟨io₁, hrun, hbase, hmax, -⟩ := eachEntry_spec masked_maskGsi h NUM_IRQ
      obtain rfl := Except.ok.inj (hrun.symm.trans hstep)
      exact ⟨hbase, hmax⟩
  | unmaskAll =>
      obtain ⟨io₁, hrun, hbase, hmax, -⟩ := eachEntry_spec masked_unmaskGsi h NUM_IRQ
      obtain rfl := Except.ok.inj (hrun.symm.trans hstep)
      exact ⟨hbase, hmax⟩

theorem run_usable {ops : List IoapicOp} (h : Usable s acpi io₀.base)
    (hrun : Run (IoapicStep s acpi) io₀ ops io) :
    io.base = io₀.base ∧ io.maxRedir = io₀.maxRedir := by
  apply hrun.invariant (fun io => io.base = io₀.base ∧ io.maxRedir = io₀.maxRedir) ⟨rfl, rfl⟩
  rintro io op io' ⟨hbase, hmax⟩ hstep
  obtain ⟨hbase', hmax'⟩ := hstep.keeps (hbase ▸ h)
  exact ⟨hbase'.trans hbase, hmax'.trans hmax⟩

/-- In a state reached after `ioapic_init`, all interrupts can be masked and unmasked at once if and
only if the entries that serve them serve the interrupts 32 to 47 too. -/
theorem masksAll_iff {ops : List IoapicOp} (hinit : ioapicInit s acpi regs = .ok (s', io₀))
    (hrun : Run (IoapicStep s' acpi) io₀ ops io)
    (hgsi : ∀ o ∈ overridesOf s.mem acpi, o.gsi < readMaxRedir regs) :
    MasksAll s' acpi io ↔ ServedAgain (readMaxRedir regs) (overridesOf s.mem acpi) := by
  obtain ⟨hmem, hmax, husable⟩ := ioapicInit_usable hinit
  obtain ⟨hbase, hkept⟩ := run_usable husable hrun
  have hbyte : ∀ o ∈ overridesOf s'.mem acpi, o.gsi < 256 := by
    intro o ho
    rw [hmem] at ho
    exact Nat.lt_trans (hgsi o ho) (Nat.mod_lt _ (by decide))
  rw [masksAll_iff_servedAgain (hbase ▸ husable) hbyte, hkept, hmax, hmem]

/-- A machine whose timer interrupt is overridden, after `ioapic_init` and a call. -/
theorem timer_run : ∃ s' io₀ io,
    ioapicInit (everywhere timerOverride) timerTables usualRegs = .ok (s', io₀) ∧
      Run (IoapicStep s' timerTables) io₀ [.unmask 1] io := by
  have hsome : (do
      let r ← ioapicInit (everywhere timerOverride) timerTables usualRegs
      ioapicUnmask r.1 timerTables r.2 1).toOption.isSome = true := by
    decide +kernel
  generalize hcalls : (ioapicInit (everywhere timerOverride) timerTables usualRegs >>= fun r =>
    ioapicUnmask r.1 timerTables r.2 1) = calls at hsome
  cases calls with
  | error err => cases hsome
  | ok io =>
      obtain ⟨⟨s', io₀⟩, hinit, hunmask⟩ := seq_ok.mp hcalls
      exact ⟨s', io₀, io, hinit, Run.nil.snoc hunmask⟩

theorem masksAll_iff_timer : ∃ s' io₀ io,
    ioapicInit (everywhere timerOverride) timerTables usualRegs = .ok (s', io₀) ∧
      Run (IoapicStep s' timerTables) io₀ [.unmask 1] io ∧
      (∀ o ∈ overridesOf timerOverride timerTables, o.gsi < readMaxRedir usualRegs) ∧
      (MasksAll s' timerTables io ↔
        ServedAgain (readMaxRedir usualRegs) (overridesOf timerOverride timerTables)) := by
  have hgsi : ∀ o ∈ overridesOf timerOverride timerTables, o.gsi < readMaxRedir usualRegs := by
    decide
  obtain ⟨s', io₀, io, hinit, hrun⟩ := timer_run
  exact ⟨s', io₀, io, hinit, hrun, hgsi, masksAll_iff hinit hrun hgsi⟩

/-- There neither `ioapic_mask_all` nor `ioapic_unmask_all` reaches the entry of the keyboard. -/
theorem timer_not_masksAll : overridesOf timerOverride timerTables = [⟨0, 2⟩] ∧
    ∃ s' io₀ io, ioapicInit (everywhere timerOverride) timerTables usualRegs = .ok (s', io₀) ∧
      Run (IoapicStep s' timerTables) io₀ [.unmask 1] io ∧ ¬ MasksAll s' timerTables io := by
  have hone : overridesOf timerOverride timerTables = [⟨0, 2⟩] := by decide
  obtain ⟨s', io₀, io, hinit, hrun⟩ := timer_run
  refine ⟨hone, s', io₀, io, hinit, hrun, ?_⟩
  obtain ⟨hmem, hmax, husable⟩ := ioapicInit_usable hinit
  obtain ⟨hbase, hkept⟩ := run_usable husable hrun
  have hover : overridesOf s'.mem timerTables = [⟨0, 2⟩] := hmem ▸ hone
  rw [masksAll_iff_servedAgain (hbase ▸ husable) (by rw [hover]; decide), hkept, hmax, hover]
  intro hagain
  obtain ⟨i, hi, hle, -⟩ := hagain 1 (by decide)
  have hnone : ∀ i, i < NUM_IRQ → ¬ serving [⟨0, 2⟩] (IDT_EXCEPTIONS + i) ≤ readMaxRedir usualRegs := by
    decide
  exact hnone i hi hle

end Twos.Apic
