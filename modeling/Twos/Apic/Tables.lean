import Twos.Acpi.Madt
import Twos.Apic.Model

/-!
# The tables of pointers and their bounds

`acpi_init_madt` puts a pointer into one of seven tables for every record that the firmware wrote,
and each table is a block of 256 bytes. `apic_init` and `ioapic_init` take the first entries of two
of the tables without looking at the counts. So the accesses stay within the tables for the MADTs
that have at most 32 records of each type, a processor and an IOAPIC.

The stores are known from `madtWalk_spec`. For the loads there is a lemma for each routine, with all of
memory within reach, so that a missing record is the only way to fail: `apicInit_inBounds` and
`ioapicInit_inBounds` need one, `ioapicMask_returns` and `ioapicUnmask_returns` none, since these two
count the overrides.
-/

namespace Twos.Apic

open Lib Acpi

/-- Every store is within the memory of its table, and every load is of something stored. -/
structure InBounds (s : Space) (acpi : AcpiInst) (w : Walk) (available : Bool) : Prop where
  stores : ∀ kind i, (kind, i) ∈ w.stores → i < TBL_SLOTS
  apicInit : apicInit s acpi available ≠ .error (.fault .outOfBounds)
  ioapicInit : ∀ regs, ioapicInit s acpi regs ≠ .error (.fault .outOfBounds)
  ioapicMask : ∀ io irq, ioapicMask s acpi io irq ≠ .error (.fault .outOfBounds)
  ioapicUnmask : ∀ io irq, ioapicUnmask s acpi io irq ≠ .error (.fault .outOfBounds)

/-- The numbers of records that the code is made for. -/
structure FewRecords (m : Memory) (records : List Nat) (available : Bool) : Prop where
  slots : ∀ kind, (ofKind m kind records).length ≤ TBL_SLOTS
  proc : available = true → 0 < (ofKind m .procApic records).length
  io : 0 < (ofKind m .ioApic records).length

variable {m : Memory} {acpi : AcpiInst}

/-! ## The loads

With all of memory within reach, a routine can stop at a missing record, an assertion or an endless
loop. So whether it loads what was never stored depends on the numbers of records alone.
-/

theorem apicInit_inBounds (available : Bool) :
    apicInit (everywhere m) acpi available ≠ .error (.fault .outOfBounds) ↔
      (available = true → 0 < (acpi.tbl .procApic).length) := by
  cases available with
  | false =>
      have hstop : apicInit (everywhere m) acpi false =
          .error (.fault (.assertFailed "apic_is_available()")) := rfl
      simp [hstop]
  | true =>
      have hstart : apicInit (everywhere m) acpi true = (do
          let proc ← acpi.tblAt .procApic 0
          let id := load m (proc + 3) 1
          .ok (everywhere m, ⟨id, load m (acpi.madt + 36) 4, APIC_ENABLE ||| SPURIOUS_INT⟩)) := by
        simp only [apicInit, lapicTouch, everywhere_read, everywhere_mapSelf, everywhere_touch, plain_eq]
        rfl
      rw [hstart]
      by_cases hproc : 0 < (acpi.tbl .procApic).length
      · obtain ⟨ptr, hptr⟩ := acpi.tblAt_lt .procApic hproc
        simp [hptr, hproc]
      · rw [acpi.tblAt_ge .procApic (by omega)]
        simp [hproc]

/-- The overrides are loaded by index, up to their number. -/
theorem readOverride_lt (m : Memory) {i : Nat} (hi : i < (acpi.tbl .iosoApic).length) :
    ∃ o, readOverride (plain m) acpi i = .ok o := by
  obtain ⟨ptr, hptr⟩ := acpi.tblAt_lt .iosoApic hi
  exact ⟨⟨load m (ptr + 3) 1, load m (ptr + 4) 4⟩, by simp only [readOverride, hptr, plain_eq, ok_seq]⟩

theorem mapOverrides_returns (m : Memory) (acpi : AcpiInst) (regs : Regs) : ∃ r, mapOverrides (plain m) acpi regs = .ok r := by
  have hloop : Outcome (fun _ => True) (fun _ => False) (mapOverrides (plain m) acpi regs) := by
    apply forLt_rule (fun _ _ => True) (fun _ => False) trivial
    intro i hi s _
    obtain ⟨o, ho⟩ := readOverride_lt m hi
    rw [ho]
    trivial
  obtain ⟨r, hr, -⟩ := hloop.returns
  exact ⟨r, hr⟩

theorem maskEntries_outcome (maxRedir : Nat) (regs : Regs) :
    Outcome (fun _ => True) (fun e => e = .fault .neverEnds) (maskEntries maxRedir regs) := by
  apply Outcome.bind (P := fun _ => True)
  · exact whileLoop_out fun s => ⟨_, rfl⟩
  · rintro ⟨i, regs⟩ -
    trivial

theorem ioapicProgram_outcome (m : Memory) (acpi : AcpiInst) (regs : Regs) :
    Outcome (fun _ => True) (fun e => e = .fault .neverEnds)
      (ioapicProgram (plain m) acpi regs) := by
  apply (maskEntries_outcome (readMaxRedir regs) regs).bind
  intro regs' _
  obtain ⟨r, hr⟩ := mapOverrides_returns m acpi regs'
  rw [hr, ok_seq]
  trivial

theorem ioapicTouch_everywhere (m : Memory) (base : Nat) :
    ioapicTouch (everywhere m) base = .ok () := by
  simp only [ioapicTouch, everywhere_touch, ok_seq]

theorem ioapicInit_inBounds (regs : Regs) :
    ioapicInit (everywhere m) acpi regs ≠ .error (.fault .outOfBounds) ↔
      0 < (acpi.tbl .ioApic).length := by
  by_cases hio : 0 < (acpi.tbl .ioApic).length
  · simp only [hio, iff_true]
    obtain ⟨ptr, hptr⟩ := acpi.tblAt_lt .ioApic hio
    have hprogram := ioapicProgram_outcome m acpi regs
    unfold ioapicInit
    rw [hptr, ok_seq, everywhere_read, plain_eq, ok_seq, plain_eq, ok_seq]
    generalize baseInWindow (load m (ptr + 4) 4) = inWindow
    -- a failed assertion is no access out of bounds
    cases inWindow with
    | false =>
        rw [lift_assert_false, error_seq]
        exact fun h => by cases h
    | true =>
        rw [lift_assert_true, ok_seq, everywhere_mapSelf]
        dsimp only
        rw [ioapicTouch_everywhere, ok_seq, everywhere_read]
        cases hrun : ioapicProgram (plain m) acpi regs with
        | error e =>
            -- neither is the first loop, should it not end
            rw [hrun] at hprogram
            obtain rfl : e = .fault .neverEnds := hprogram
            exact fun h => by cases h
        | ok r => exact fun h => by cases h
  · have hstop : ioapicInit (everywhere m) acpi regs = .error (.fault .outOfBounds) := by
      unfold ioapicInit
      rw [acpi.tblAt_ge .ioApic (by omega), error_seq]
    simp [hstop, hio]

/-- Looking for an override goes through those there are. -/
theorem findOverride_returns (m : Memory) (irq : Nat) {n i : Nat}
    (h : n + i = (acpi.tbl .iosoApic).length) :
    ∃ entry, findOverride (plain m) acpi irq n i = .ok entry := by
  induction n generalizing i with
  | zero => exact ⟨irq, rfl⟩
  | succ n ih =>
      obtain ⟨ptr, hptr⟩ := acpi.tblAt_lt .iosoApic (i := i) (by omega)
      unfold findOverride
      simp only [hptr, plain_eq, ok_seq]
      split
      · exact ⟨_, rfl⟩
      · exact ih (by omega)

theorem entryOf_returns (m : Memory) (acpi : AcpiInst) (irq : Nat) : ∃ entry, entryOf (plain m) acpi irq = .ok entry := by
  unfold entryOf
  split
  · exact ⟨irq, rfl⟩
  · exact findOverride_returns m irq rfl

theorem ioapicMask_returns (m : Memory) (acpi : AcpiInst) (io : Ioapic) (irq : Nat) :
    ∃ io', ioapicMask (everywhere m) acpi io irq = .ok io' := by
  obtain ⟨entry, hentry⟩ := entryOf_returns m acpi irq
  refine ⟨{ io with regs := (ioapicMaskGsi io.maxRedir io.regs entry).2 }, ?_⟩
  simp only [ioapicMask, ioapicTouch, everywhere_read, everywhere_touch, hentry, ok_seq]

theorem ioapicUnmask_returns (m : Memory) (acpi : AcpiInst) (io : Ioapic) (irq : Nat) :
    ∃ io', ioapicUnmask (everywhere m) acpi io irq = .ok io' := by
  obtain ⟨entry, hentry⟩ := entryOf_returns m acpi irq
  refine ⟨{ io with regs := (ioapicUnmaskGsi io.maxRedir io.regs entry).2 }, ?_⟩
  simp only [ioapicUnmask, ioapicTouch, everywhere_read, everywhere_touch, hentry, ok_seq]

/-! ## The tables -/

/-- After `acpi_init_madt` on a MADT that its records tile, all stores and loads of the tables are
within bounds if and only if the numbers of records are those the code is made for. -/
theorem tables_inBounds_iff {madt : Nat} {records : List Nat}
    (hfind : acpiFindTbl (plain m) acpi SIG_APIC = .ok madt) (hmadt : madt ≠ 0)
    (h : IsMadt m madt records) (available : Bool) :
    ∃ acpi' w, acpiInitMadt (plain m) acpi = .ok (acpi', w) ∧
      (InBounds (everywhere m) acpi' w available ↔ FewRecords m records available) := by
  obtain ⟨w, hrun, -, hwalked⟩ := madtWalk_spec h
  let acpi' : AcpiInst := { acpi with madt, tbl := w.tbl }
  have htbl (kind : MadtKind) : (acpi'.tbl kind).length = (ofKind m kind records).length :=
    congrArg List.length (hwalked.tbl kind)
  -- the stores into a table are at the indices below the number of its records
  have hstores : (∀ kind i, (kind, i) ∈ w.stores → i < TBL_SLOTS) ↔
      ∀ kind, (ofKind m kind records).length ≤ TBL_SLOTS := by
    simp only [hwalked.stores]
    constructor
    · intro hall kind
      apply Nat.le_of_not_lt
      exact fun hgt => Nat.lt_irrefl _ (hall kind TBL_SLOTS hgt)
    · exact fun hall kind i hi => Nat.lt_of_lt_of_le hi (hall kind)
  refine ⟨acpi', w, ?_, fun hin => ?_, fun hfew => ?_⟩
  · rw [acpiInitMadt, hfind, ok_seq, if_neg hmadt, hrun, ok_seq]
  · -- what the accesses say about the numbers
    refine ⟨hstores.mp hin.stores, ?_, ?_⟩
    · rw [← htbl]
      exact (apicInit_inBounds available).mp hin.apicInit
    · rw [← htbl]
      exact (ioapicInit_inBounds fun _ => 0).mp (hin.ioapicInit _)
  · -- what the numbers say about the accesses
    refine ⟨hstores.mpr hfew.slots, ?_, fun regs => ?_, fun io irq => ?_, fun io irq => ?_⟩
    · exact (apicInit_inBounds available).mpr ((htbl .procApic).symm ▸ hfew.proc)
    · exact (ioapicInit_inBounds regs).mpr ((htbl .ioApic).symm ▸ hfew.io)
    · obtain ⟨io', hio⟩ := ioapicMask_returns m acpi' io irq
      simp [hio]
    · obtain ⟨io', hio⟩ := ioapicUnmask_returns m acpi' io irq
      simp [hio]

/-- Two processors, an IOAPIC and two overrides are what the code is made for. -/
theorem tables_inBounds_usual :
    ∃ acpi' w, acpiInitMadt (plain usualTables) ⟨true, 4096, 0, fun _ => []⟩ = .ok (acpi', w) ∧
      InBounds (everywhere usualTables) acpi' w true := by
  have hfew : FewRecords usualTables recordsFound true := by
    refine ⟨fun kind => ?_, by decide +kernel, by decide +kernel⟩
    cases kind <;> decide +kernel
  obtain ⟨acpi', w, hrun, hiff⟩ :=
    tables_inBounds_iff usualTables_find (by decide) usualTables_isMadt true
  exact ⟨acpi', w, hrun, hiff.mpr hfew⟩

/-- A root table at 4096 that lists one table, a MADT at 4352 of so many processors. -/
def machine (rootChecksum madtChecksum n : Nat) : Memory :=
  placed (placed (processors 4396 n) 4096 (sdtHeader SIG_XSDT 44 rootChecksum ++ bytesOf 8 4352))
    4352 (sdtHeader SIG_APIC (44 + 8 * n) madtChecksum ++ madtBody [])

/-- The records of a machine with 33 processors. -/
def manyRecords : List Nat := (List.range 33).map fun i => 4396 + 8 * i

/-- For the 33rd processor the store is at index 32, behind the memory of the table. -/
theorem tables_not_inBounds :
    acpiFindTbl (plain (machine 127 165 33)) ⟨true, 4096, 0, fun _ => []⟩ SIG_APIC = .ok 4352 ∧
      IsMadt (machine 127 165 33) 4352 manyRecords ∧
      ∃ acpi' w, acpiInitMadt (plain (machine 127 165 33)) ⟨true, 4096, 0, fun _ => []⟩ =
          .ok (acpi', w) ∧ (.procApic, TBL_SLOTS) ∈ w.stores ∧
        ¬ InBounds (everywhere (machine 127 165 33)) acpi' w true := by
  have hfind : acpiFindTbl (plain (machine 127 165 33)) ⟨true, 4096, 0, fun _ => []⟩ SIG_APIC =
      .ok 4352 := Outcome.eq_ok (by decide +kernel)
  have hmadt : IsMadt (machine 127 165 33) 4352 manyRecords :=
    ⟨by decide +kernel, by decide +kernel⟩
  obtain ⟨w, hrun, -, hwalked⟩ := madtWalk_spec hmadt
  have hstore : (.procApic, TBL_SLOTS) ∈ w.stores := by
    rw [hwalked.stores]
    decide +kernel
  refine ⟨hfind, hmadt, ⟨true, 4096, 4352, w.tbl⟩, w, ?_, hstore, fun hin => ?_⟩
  · rw [acpiInitMadt, hfind, ok_seq, if_neg (by decide), hrun, ok_seq]
  · exact Nat.lt_irrefl _ (hin.stores _ _ hstore)

end Twos.Apic
