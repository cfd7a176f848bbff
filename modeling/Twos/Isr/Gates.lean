import Twos.Apic.Routing
import Twos.Isr.Idt

/-!
# Vectors and gates

The vectors that the interrupt controllers are told to raise, against the gates that `idt_init` has
installed. An entry of the IOAPIC gets the vector of its interrupt plus 32, in eight bits, and there
are gates for the sixteen of them that come from an interrupt below 16. There is none for the
spurious vector.

`mapCalls` lists the calls of `ioapic_map_redtbl_entry` that `ioapic_init` makes, and
`ioapicInit_replays` says that these are the ones that its registers come from. `mapCalls_gated_iff` has
the overrides for which all their vectors have gates. But the vector that `apic_init` gives to spurious
interrupts is one behind the table (`spurious_not_gated`), whatever the overrides are.
-/

namespace Twos.Isr

open Lib Acpi Apic

/-- What the vectors that are raised need. -/
structure Gated (image : Image) (idt : Nat → IdtEntry) (v : Nat) : Prop where
  noException : 32 ≤ v
  delivered : ∀ value, deliver image idt value v = some (.irqHandler, BitVec.ofNat 64 v)

theorem gated_iff (image : Image) (idt : Nat → IdtEntry) (v : Nat) :
    Gated image (idtInit image idt) v ↔ 32 ≤ v ∧ v < 48 := by
  constructor
  · intro h
    refine ⟨h.noException, Nat.lt_of_not_le fun hle => ?_⟩
    have hdeliver := h.delivered fun _ => 0
    rw [deliver_spec, if_neg (by omega), if_neg (by omega)] at hdeliver
    cases hdeliver
  · rintro ⟨hlow, hhigh⟩
    refine ⟨hlow, fun value => ?_⟩
    rw [deliver_spec, if_neg (by omega), if_pos hhigh]

/-! ## The vectors of the IOAPIC

The loops of `ioapic_init` are taken as the calls that they make, and what is in an entry at the end
is what the last call for it has written. Every vector written is 32 more than the number of an
interrupt, and the 48 gates cover the first sixteen of those.
-/

/-- The entry and the interrupt of every call of `ioapic_map_redtbl_entry`, in order. -/
def mapCalls (overrides : List Override) : List (Nat × Nat) :=
  overrides.map (fun o => (o.gsi % 256, o.irq)) ++
    ((List.range NUM_IRQ).filter fun i => overrides.all fun o => o.gsi != i).map fun i => (i, i)

/-- The vector that such a call puts into its entry. -/
def vectorWritten (call : Nat × Nat) : Nat := (call.2 + IDT_EXCEPTIONS) % 256

/-- The registers after the calls. -/
def replay (regs : Regs) (calls : List (Nat × Nat)) : Regs :=
  calls.foldl (fun regs call => ioapicMapRedtblEntry regs call.1 call.2) regs

theorem replay_append (regs : Regs) (calls calls' : List (Nat × Nat)) :
    replay regs (calls ++ calls') = replay (replay regs calls) calls' := List.foldl_append

theorem mapOverride_snd (o : Override) (regs : Regs) (irqMap : Nat → Bool) {i : Nat}
    (hi : i < NUM_IRQ) : (mapOverride o (regs, irqMap)).2 i = (irqMap i || o.gsi == i) := by
  by_cases hgsi : i = o.gsi
  · subst hgsi
    simp [mapOverride, hi]
  · have hne : (o.gsi == i) = false := beq_false_of_ne (Ne.symm hgsi)
    rw [hne, Bool.or_false, mapOverride]
    split
    · exact if_neg hgsi
    · rfl

/-- The second loop as calls, and the map it leaves. -/
theorem foldl_mapOverride (os : List Override) (regs : Regs) (irqMap : Nat → Bool) :
    (os.foldl (fun r o => mapOverride o r) (regs, irqMap)).1 =
        replay regs (os.map fun o => (o.gsi % 256, o.irq)) ∧
      ∀ i, i < NUM_IRQ → (os.foldl (fun r o => mapOverride o r) (regs, irqMap)).2 i =
        (irqMap i || os.any fun o => o.gsi == i) := by
  induction os generalizing regs irqMap with
  | nil => exact ⟨rfl, fun i _ => by simp⟩
  | cons o os ih =>
      obtain ⟨hregs, hmap⟩ := ih (mapOverride o (regs, irqMap)).1 (mapOverride o (regs, irqMap)).2
      refine ⟨hregs, fun i hi => (hmap i hi).trans ?_⟩
      rw [mapOverride_snd o regs irqMap hi, List.any_cons, Bool.or_assoc]

/-- The third loop as calls. -/
theorem mapIdentity_eq (irqMap : Nat → Bool) (regs : Regs) :
    mapIdentity irqMap regs =
      replay regs (((List.range NUM_IRQ).filter fun i => !irqMap i).map fun i => (i, i)) := by
  rw [replay, List.foldl_map, List.foldl_filter, mapIdentity]
  congr 1
  funext regs i
  cases irqMap i with
  | true => rfl
  | false => rfl

theorem ioapicProgram_replays (s : Space) (acpi : AcpiInst) (regs : Regs) :
    Outcome (fun r => ∃ start, maskEntries (readMaxRedir regs) regs = .ok start ∧
        r.2 = replay start (mapCalls (overridesOf s.mem acpi)))
      (fun _ => True) (ioapicProgram s.read acpi regs) := by
  rw [ioapicProgram]
  cases hmask : maskEntries (readMaxRedir regs) regs with
  | error err => exact trivial
  | ok start =>
      have hoverrides := mapOverrides_spec s acpi start
      apply (hoverrides.imp (fun _ h => h) fun _ _ => trivial).bind
      rintro r rfl
      refine ⟨start, rfl, ?_⟩
      obtain ⟨hregs, hmap⟩ := foldl_mapOverride (overridesOf s.mem acpi) start fun _ => false
      show mapIdentity _ _ = _
      rw [mapIdentity_eq, hregs, mapCalls, replay_append]
      congr 2
      apply List.filter_congr
      intro i hi
      rw [hmap i (List.mem_range.mp hi), Bool.false_or, List.not_any_eq_all_not]
      rfl

theorem ioapicInit_replays {s s' : Space} {acpi : AcpiInst} {regs : Regs} {io : Ioapic}
    (hrun : ioapicInit s acpi regs = .ok (s', io)) :
    ∃ start, maskEntries (readMaxRedir regs) regs = .ok start ∧
      io.regs = replay start (mapCalls (overridesOf s.mem acpi)) := by
  obtain ⟨record, -, hrun⟩ := seq_ok.mp hrun
  obtain ⟨base, -, hrun⟩ := seq_ok.mp hrun
  obtain ⟨gsiBase, -, hrun⟩ := seq_ok.mp hrun
  obtain ⟨-, -, hrun⟩ := seq_ok.mp hrun
  obtain ⟨-, -, hrun⟩ := seq_ok.mp hrun
  obtain ⟨⟨maxRedir, regs'⟩, hprogram, hrun⟩ := seq_ok.mp hrun
  obtain ⟨rfl, rfl⟩ := Prod.mk.inj (Except.ok.inj hrun)
  have hreplays := ioapicProgram_replays (s.mapSelf base) acpi regs
  rw [hprogram] at hreplays
  exact hreplays

/-- All entries get a vector with a gate if and only if all overrides are of an interrupt below 16:
the interrupts that are not overridden are below 16 anyway. -/
theorem mapCalls_gated_iff (image : Image) (idt : Nat → IdtEntry) {overrides : List Override}
    (hbyte : ∀ o ∈ overrides, o.irq < 256) :
    (∀ call ∈ mapCalls overrides, Gated image (idtInit image idt) (vectorWritten call)) ↔
      ∀ o ∈ overrides, o.irq < NUM_IRQ := by
  simp only [gated_iff]
  constructor
  · intro hall o ho
    have hvector := hall (o.gsi % 256, o.irq)
      (List.mem_append_left _ (List.mem_map_of_mem ho))
    have := hbyte o ho
    simp only [vectorWritten] at hvector
    lia
  · intro hall call hcall
    have hirq : call.2 < NUM_IRQ := by
      rcases List.mem_append.mp hcall with hmem | hmem
      · obtain ⟨o, ho, rfl⟩ := List.mem_map.mp hmem
        exact hall o ho
      · obtain ⟨i, hi, rfl⟩ := List.mem_map.mp hmem
        exact List.mem_range.mp (List.mem_filter.mp hi).1
    simp only [vectorWritten]
    lia

theorem overridesOf_irq_lt (m : Memory) (acpi : AcpiInst) : ∀ o ∈ overridesOf m acpi, o.irq < 256 := by
  intro o ho
  obtain ⟨ptr, -, rfl⟩ := List.mem_map.mp ho
  exact load_lt m (ptr + 3) 1

/-! ## The spurious vector

The vector in the spurious register is 255, whatever the tables of the firmware say, and lies behind
the last gate. So not every vector has one, in any kernel; for the vectors of the IOAPIC alone it
depends on the overrides.
-/

/-- `lapic_enable` writes vector 255. -/
theorem apicInit_spurious {s s' : Space} {acpi : AcpiInst} {available : Bool} {lapic : Lapic}
    (hrun : apicInit s acpi available = .ok (s', lapic)) : lapic.spurious % 256 = SPURIOUS_INT := by
  obtain ⟨-, -, hrun⟩ := seq_ok.mp hrun
  obtain ⟨base, -, hrun⟩ := seq_ok.mp hrun
  obtain ⟨proc, -, hrun⟩ := seq_ok.mp hrun
  obtain ⟨id, -, hrun⟩ := seq_ok.mp hrun
  obtain ⟨-, -, hrun⟩ := seq_ok.mp hrun
  obtain ⟨-, rfl⟩ := Prod.mk.inj (Except.ok.inj hrun)
  show (APIC_ENABLE ||| SPURIOUS_INT) % 256 = SPURIOUS_INT
  decide

/-- For which there is no gate. -/
theorem spurious_not_gated (image : Image) (idt : Nat → IdtEntry) {s s' : Space} {acpi : AcpiInst}
    {available : Bool} {lapic : Lapic} (hrun : apicInit s acpi available = .ok (s', lapic)) :
    ¬ Gated image (idtInit image idt) (lapic.spurious % 256) := by
  rw [apicInit_spurious hrun, gated_iff]
  decide

/-- Every vector that is raised has a gate. -/
structure AllGated (image : Image) (idt : Nat → IdtEntry) (calls : List (Nat × Nat))
    (lapic : Lapic) : Prop where
  ioapic : ∀ call ∈ calls, Gated image idt (vectorWritten call)
  lapic : Gated image idt (lapic.spurious % 256)

/-- Whatever the overrides are, the spurious vector has no gate; the vectors of the IOAPIC have
theirs if and only if every override is of an interrupt below 16. -/
theorem vectors_not_gated (image : Image) (idt : Nat → IdtEntry) {s s₁ s₂ : Space} {acpi : AcpiInst}
    {regs : Regs} {lapic : Lapic} {io : Ioapic} (hapic : apicInit s acpi true = .ok (s₁, lapic))
    (hioapic : ioapicInit s₁ acpi regs = .ok (s₂, io)) :
    (∃ start, maskEntries (readMaxRedir regs) regs = .ok start ∧
        io.regs = replay start (mapCalls (overridesOf s₁.mem acpi))) ∧
      ((∀ call ∈ mapCalls (overridesOf s₁.mem acpi),
          Gated image (idtInit image idt) (vectorWritten call)) ↔
        ∀ o ∈ overridesOf s₁.mem acpi, o.irq < NUM_IRQ) ∧
      ¬ AllGated image (idtInit image idt) (mapCalls (overridesOf s₁.mem acpi)) lapic := by
  refine ⟨ioapicInit_replays hioapic, ?_, fun hgated => ?_⟩
  · exact mapCalls_gated_iff image idt (overridesOf_irq_lt s₁.mem acpi)
  · exact spurious_not_gated image idt hapic hgated.lapic

/-- Code that lies where its labels say. -/
def someImage : Image where
  addr
    | .isrStub n => BitVec.ofNat 64 n
    | .irq n => BitVec.ofNat 64 (32 + n)
    | .isrSyscall => 48
  find a :=
    if h : a.toNat < 32 then some (.isrStub ⟨a.toNat, h⟩)
    else if h : a.toNat - 32 < 16 then some (.irq ⟨a.toNat - 32, h⟩)
    else some .isrSyscall
  find_addr l := by
    cases l with
    | isrStub n => decide +revert
    | irq n => decide +revert
    | isrSyscall => rfl

/-- A processor record at 100, an IOAPIC record at 300, and one override, of the timer. -/
def smallTables : AcpiInst :=
  ⟨true, 0, 0, fun kind => match kind with
    | .procApic => [100]
    | .ioApic => [300]
    | .iosoApic => [200]
    | _ => []⟩

/-- The two controllers are set up. -/
theorem smallTables_run : ∃ s₁ lapic s₂ io,
    apicInit (everywhere timerOverride) smallTables true = .ok (s₁, lapic) ∧
      ioapicInit s₁ smallTables usualRegs = .ok (s₂, io) := by
  have hrun : Outcome (fun _ => True) (fun _ => False) (do
      let r ← apicInit (everywhere timerOverride) smallTables true
      ioapicInit r.1 smallTables usualRegs) := by
    decide +kernel
  obtain ⟨r, hr, -⟩ := hrun.returns
  obtain ⟨r₁, hr₁, hr₂⟩ := seq_ok.mp hr
  exact ⟨r₁.1, r₁.2, r.1, r.2, hr₁, hr₂⟩

/-- With a descriptor table that was zero before. -/
theorem vectors_not_gated_timer : ∃ s₁ lapic s₂ io,
    apicInit (everywhere timerOverride) smallTables true = .ok (s₁, lapic) ∧
      ioapicInit s₁ smallTables usualRegs = .ok (s₂, io) ∧
      (∃ start, maskEntries (readMaxRedir usualRegs) usualRegs = .ok start ∧
        io.regs = replay start (mapCalls (overridesOf s₁.mem smallTables))) ∧
      ((∀ call ∈ mapCalls (overridesOf s₁.mem smallTables),
          Gated someImage (idtInit someImage fun _ => ⟨0, 0, 0, 0, 0, 0, 0⟩) (vectorWritten call)) ↔
        ∀ o ∈ overridesOf s₁.mem smallTables, o.irq < NUM_IRQ) ∧
      ¬ AllGated someImage (idtInit someImage fun _ => ⟨0, 0, 0, 0, 0, 0, 0⟩)
        (mapCalls (overridesOf s₁.mem smallTables)) lapic := by
  obtain ⟨s₁, lapic, s₂, io, hapic, hioapic⟩ := smallTables_run
  exact ⟨s₁, lapic, s₂, io, hapic, hioapic, vectors_not_gated someImage _ hapic hioapic⟩

/-- Already with the override that PCs have. -/
theorem timer_not_gated : overridesOf timerOverride smallTables = [⟨0, 2⟩] ∧
    ∃ s₁ lapic s₂ io, apicInit (everywhere timerOverride) smallTables true = .ok (s₁, lapic) ∧
      ioapicInit s₁ smallTables usualRegs = .ok (s₂, io) ∧
      ¬ AllGated someImage (idtInit someImage fun _ => ⟨0, 0, 0, 0, 0, 0, 0⟩)
        (mapCalls [⟨0, 2⟩]) lapic := by
  obtain ⟨s₁, lapic, s₂, io, hapic, hioapic⟩ := smallTables_run
  refine ⟨by decide, s₁, lapic, s₂, io, hapic, hioapic, fun hgated => ?_⟩
  exact spurious_not_gated someImage _ hapic hgated.lapic

end Twos.Isr
