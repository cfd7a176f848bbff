import Twos.Acpi.Reach
import Twos.Apic.Routing
import Twos.Driver.Framebuffer
import Twos.Timer.Hpet

/-!
# Following the firmware's pointers

After `virtmem_init` the low addresses are gone, apart from the pages of the framebuffer. From there
on `acpi_init`, `apic_init`, `ioapic_init` and `hpet_init` each map one page to itself: the page of
the root table, of the local APIC, of the IOAPIC and of the HPET's table. Everything else that they
read is within reach only if it lies in one of these pages already.

`FirmwareCovered` says what that comes to for a layout of tables: which bytes must be in which pages,
and that no table of pointers gets more records than it has slots.

* Each routine has a lemma `…_stays` that takes it apart: its own reads must be covered, and what
  comes after it must stay within reach from the state that it leaves. `acpi_find_tbl` and the loop
  over the MADT come from `Acpi/Reach.lean`, the registers and overrides from `Apic/Routing.lean`.
* `firmware_stays_iff` puts them together in the order of `kmain`.
* `firmware_stays_usual` is a layout that is covered, and `firmware_astray` has three that are not.
-/

namespace Twos.Boot

open Lib Acpi Apic Timer Driver

/-! ## The sequence -/

/-- Memory as `virtmem_init` leaves it: the higher half, and the pages of the framebuffer. -/
def afterVirtmem (m : Memory) (fb : Framebuffer) : Space where
  mem := m
  mapped p := decide (KERNEL_VADDR / PAGE_SIZE ≤ p) || (fbPages fb).any fun a => a / PAGE_SIZE == p

/-- What `kmain` does next. -/
def startFirmware (s : Space) (rsdp : Nat) (available : Bool) (regs : Regs) :
    Except Stop (Space × AcpiInst × Ioapic × Hpet) := do
  let (s, acpi, _) ← acpiInit s rsdp
  let (s, _) ← apicInit s acpi available
  let (s, io) ← ioapicInit s acpi regs
  let (s, hpet) ← hpetInit s acpi
  .ok (s, acpi, io, hpet)

/-- `rsdp->xsdt_addr`. -/
def xsdtOf (m : Memory) (rsdp : Nat) : Nat := load m (rsdp + 24) 8

/-- A layout that passes the checks of `acpi_init`. The RSDP is a part of the multiboot information,
which `kmain` has in the higher half. -/
structure Checked (m : Memory) (rsdp : Nat) : Prop where
  high : KERNEL_VADDR ≤ rsdp
  revision : 2 ≤ revisionOf m rsdp
  summed : byteSum m rsdp RSDP_CHECKSUM_VALIDATE_SIZE = 0
  short : tableLength m (xsdtOf m rsdp) < PAGE_SIZE
  xsdt : IsTable m SIG_XSDT (xsdtOf m rsdp)
  madt : tableOf m (xsdtOf m rsdp) SIG_APIC ≠ 0

/-! ## What has to be in reach

The condition follows the code: one structure for each routine, with what it reads before it maps
its page and, in the space with that page, what it reads afterwards.
-/

/-- `acpi_init`: the root table, the tables in it up to the MADT, and the MADT, whose records have
slots. -/
structure AcpiCovered (s : Space) (xsdt madt : Nat) : Prop where
  sum : SumCovered s xsdt
  sig : SigCovered s SIG_XSDT xsdt
  search : SearchCovered s xsdt SIG_APIC
  slots : SlotsSuffice s.mem madt
  madt : MadtCovered s madt

/-- `acpi.madt->lapic_addr`. -/
def lapicBase (m : Memory) (madt : Nat) : Nat := load m (madt + 36) 4

/-- `apic_init`: its base, the first processor, and after mapping the base the register. -/
structure LapicCovered (s : Space) (madt : Nat) (procs : List Nat) : Prop where
  base : s.Covers (madt + 36) 4
  proc : ∃ proc, procs[0]? = some proc ∧ s.Covers (proc + 3) 1
  register : (s.mapSelf (lapicBase s.mem madt)).Covers
    (lapicBase s.mem madt + APIC_SPURIOUS_VECTOR_REG) 4

/-- `acpi.tbl.io_apic[0]->io_apic_addr`. -/
def ioapicBase (m : Memory) (ios : List Nat) : Nat := load m (ios.headD 0 + 4) 4

/-- The record that `ioapic_init` starts with. -/
def IoapicCovered (s : Space) (ios : List Nat) : Prop :=
  ∃ io, ios[0]? = some io ∧ s.Covers (io + 4) 4 ∧ s.Covers (io + 8) 4

/-- `hpet_init` after mapping its table: the table, and the registers. -/
structure TimerCovered (s : Space) (sdt : Nat) : Prop where
  address : s.Covers (sdt + 44) 8
  capabilities : s.Covers (load s.mem (sdt + 44) 8) 8
  config : load s.mem (load s.mem (sdt + 44) 8) 8 / 2 ^ 32 ≠ 0 →
    s.Covers (load s.mem (sdt + 44) 8 + CONFIG_REGISTER_OFFSET) 8

/-- `hpet_init`. -/
structure HpetCovered (s : Space) (xsdt : Nat) : Prop where
  search : SearchCovered s xsdt SIG_HPET
  timer : tableOf s.mem xsdt SIG_HPET ≠ 0 →
    TimerCovered (s.mapSelf (tableOf s.mem xsdt SIG_HPET)) (tableOf s.mem xsdt SIG_HPET)

/-- `ioapic_init`, and what comes after it. -/
structure RestCovered (s : Space) (xsdt : Nat) (regs : Regs) (ios isos : List Nat) : Prop where
  record : IoapicCovered s ios
  registers : baseInWindow (ioapicBase s.mem ios) = true →
    RegistersCovered (s.mapSelf (ioapicBase s.mem ios)) (ioapicBase s.mem ios)
  overrides : baseInWindow (ioapicBase s.mem ios) = true → readMaxRedir regs ≠ 255 →
    OverridesCovered (s.mapSelf (ioapicBase s.mem ios)) isos
  hpet : baseInWindow (ioapicBase s.mem ios) = true → readMaxRedir regs ≠ 255 →
    HpetCovered (s.mapSelf (ioapicBase s.mem ios)) xsdt

/-- The layouts that can be read with one page mapped by each routine, `s` being the space with the
page of the root table. -/
structure FirmwareCovered (s : Space) (xsdt madt : Nat) (available : Bool) (regs : Regs) : Prop where
  acpi : AcpiCovered s xsdt madt
  lapic : available = true → ∀ n, EndsAfter s.mem madt n →
    LapicCovered s madt (ofKind s.mem .procApic (recordsOf s.mem madt n))
  rest : available = true → ∀ n, EndsAfter s.mem madt n →
    RestCovered (s.mapSelf (lapicBase s.mem madt)) xsdt regs
      (ofKind s.mem .ioApic (recordsOf s.mem madt n))
      (ofKind s.mem .iosoApic (recordsOf s.mem madt n))

/-! ## The routines, one by one

Each lemma takes a routine that is followed by anything else (`f`), and says when the two together
stay within reach: what the routine reads must be covered, and `f` must stay within reach from the
space, the tables and the registers that the routine leaves. Where a routine stops for another
reason, `f` is not run and nothing is asked of it.
-/

variable {α : Type} {s : Space} {acpi : AcpiInst} {regs : Regs}

/-- Following one of the pointers that `acpi_init_madt` stored. -/
theorem stays_tblAt (acpi : AcpiInst) (kind : MadtKind) (i : Nat) (f : Nat → Except Stop α) :
    Stays (acpi.tblAt kind i >>= f) ↔ ∃ ptr, (acpi.tbl kind)[i]? = some ptr ∧ Stays (f ptr) := by
  cases hentry : (acpi.tbl kind)[i]? with
  | some ptr =>
      have hptr : acpi.tblAt kind i = .ok ptr := by rw [AcpiInst.tblAt, hentry]
      rw [hptr, ok_seq]
      simp
  | none =>
      have hptr : acpi.tblAt kind i = .error (.fault .outOfBounds) := by rw [AcpiInst.tblAt, hentry]
      rw [hptr, error_seq]
      simp [not_stays_outOfBounds]

/-- The part of `hpet_init` that reads the timer. -/
theorem timer_stays (sdt : Nat) {f : Nat → Nat → Nat → α} :
    Stays (do
        let tbl ← s.read (sdt + 44) 8
        let capabilities ← s.read tbl 8
        if capabilities / 2 ^ 32 = 0 then .error (.fault .divideByZero)
        else do
          let config ← s.read (tbl + CONFIG_REGISTER_OFFSET) 8
          s.touch (tbl + CONFIG_REGISTER_OFFSET) 8
          .ok (f tbl capabilities config)) ↔ TimerCovered s sdt := by
  have hparts : TimerCovered s sdt ↔ s.Covers (sdt + 44) 8 ∧
      s.Covers (load s.mem (sdt + 44) 8) 8 ∧
      (load s.mem (load s.mem (sdt + 44) 8) 8 / 2 ^ 32 ≠ 0 →
        s.Covers (load s.mem (sdt + 44) 8 + CONFIG_REGISTER_OFFSET) 8) :=
    ⟨fun h => ⟨h.address, h.capabilities, h.config⟩, fun h => ⟨h.1, h.2.1, h.2.2⟩⟩
  rw [hparts, (s.read_yields (sdt + 44) 8).stays_bind]
  generalize load s.mem (sdt + 44) 8 = tbl
  refine and_congr_right fun _ => ?_
  rw [(s.read_yields tbl 8).stays_bind]
  generalize load s.mem tbl 8 = capabilities
  refine and_congr_right fun _ => ?_
  by_cases hzero : capabilities / 2 ^ 32 = 0
  · rw [if_pos hzero]
    exact ⟨fun _ hne => absurd hzero hne, fun _ => stays_fault (by decide)⟩
  · rw [if_neg hzero, (s.read_yields _ 8).stays_bind, (s.touch_yields _ 8).stays_bind]
    exact ⟨fun h _ => h.1, fun h => ⟨h hzero, h hzero, stays_ok _⟩⟩

theorem hpetInit_stays (hv2 : acpi.isV2 = true) :
    Stays (hpetInit s acpi) ↔ HpetCovered s acpi.xsdt := by
  have hfind := acpiFindTbl_yields (s := s) hv2 (by decide : IsSig SIG_HPET)
  have hparts : HpetCovered s acpi.xsdt ↔ SearchCovered s acpi.xsdt SIG_HPET ∧
      (tableOf s.mem acpi.xsdt SIG_HPET ≠ 0 →
        TimerCovered (s.mapSelf (tableOf s.mem acpi.xsdt SIG_HPET))
          (tableOf s.mem acpi.xsdt SIG_HPET)) :=
    ⟨fun h => ⟨h.search, h.timer⟩, fun h => ⟨h.1, h.2⟩⟩
  rw [hparts, hpetInit, hfind.stays_bind]
  refine and_congr_right fun _ => ?_
  generalize tableOf s.mem acpi.xsdt SIG_HPET = sdt
  by_cases hnone : sdt = 0
  · rw [if_pos hnone]
    exact ⟨fun _ hne => absurd hnone hne, fun _ => stays_fault (by decide)⟩
  · rw [if_neg hnone]
    exact ⟨fun h _ => (timer_stays sdt).mp h, fun h => (timer_stays sdt).mpr (h hnone)⟩

/-- The first loop of `ioapic_init` ends, unless the number of entries is 255. -/
theorem maskEntries_ends {maxRedir : Nat} (hmax : maxRedir < 255) (regs : Regs) :
    ∃ regs', maskEntries maxRedir regs = .ok regs' := by
  have hloop : Outcome (fun s : Nat × Regs => s.1 ≤ maxRedir + 1 ∧
        decide (s.1 < maxRedir + 1) = false) (fun _ => False)
      (whileLoop (Stop.fault .neverEnds) (fun s => decide (s.1 < maxRedir + 1))
        (fun s => .ok ((s.1 + 1) % 256, (ioapicMaskGsi maxRedir s.2 s.1).2)) 257 (0, regs)) := by
    apply whileLoop_rule (fun s : Nat × Regs => s.1 ≤ maxRedir + 1) (fun _ => False)
      (fun s => maxRedir + 1 - s.1)
    · exact Nat.zero_le _
    · show maxRedir + 1 - 0 < 257
      omega
    · rintro ⟨i, regs⟩ - hcond
      have hlt : i < maxRedir + 1 := of_decide_eq_true hcond
      have hnext : (i + 1) % 256 = i + 1 := Nat.mod_eq_of_lt (by omega)
      simp only [outcome_ok, hnext]
      omega
  obtain ⟨⟨i, regs'⟩, hrun, -⟩ := hloop.returns
  refine ⟨regs', ?_⟩
  rw [maskEntries, hrun, ok_seq]

/-- With 255 entries the counter wraps before it gets there. -/
theorem maskEntries_endless (regs : Regs) :
    maskEntries 255 regs = .error (.fault .neverEnds) := by
  rw [maskEntries, whileLoop_never fun j => ?_, error_seq]
  cases j with
  | zero => rfl
  | succ j =>
      rw [Function.iterate_succ_apply']
      exact decide_eq_true (Nat.mod_lt _ (by decide))

theorem readMaxRedir_le (regs : Regs) : readMaxRedir regs ≤ 255 := by
  have hlt : readMaxRedir regs < 256 := Nat.mod_lt _ (by decide)
  omega

/-- The override that a pointer points to. -/
def overrideAt (m : Memory) (ptr : Nat) : Override :=
  { irq := load m (ptr + 3) 1, gsi := load m (ptr + 4) 4 }

theorem readOverride_yields {i ptr : Nat} (hptr : acpi.tblAt .iosoApic i = .ok ptr) :
    Yields (readOverride s.read acpi i) (OverrideCovered s ptr) (overrideAt s.mem ptr) := by
  rw [readOverride, hptr, ok_seq]
  exact (s.read_yields (ptr + 4) 4).bind fun _ =>
    (s.read_yields (ptr + 3) 1).map fun irq => Override.mk irq (load s.mem (ptr + 4) 4)

/-- The second loop reads the overrides, one after the other. -/
theorem mapOverrides_yields (s : Space) (acpi : AcpiInst) (regs : Regs) :
    ∃ r, Yields (mapOverrides s.read acpi regs) (OverridesCovered s (acpi.tbl .iosoApic)) r := by
  let isos := acpi.tbl .iosoApic
  have hbody (i : Nat) (hi : i < isos.length) (r : Regs × (Nat → Bool)) :
      Yields (do
          let o ← readOverride s.read acpi i
          .ok (mapOverride o r))
        (OverrideCovered s (isos.getD i 0)) (mapOverride (overrideAt s.mem (isos.getD i 0)) r) := by
    have hptr : acpi.tblAt .iosoApic i = .ok (isos.getD i 0) := by
      rw [AcpiInst.tblAt, List.getElem?_eq_getElem hi, List.getD_eq_getElem _ _ hi]
    exact (readOverride_yields hptr).map fun o => mapOverride o r
  have hall : OverridesCovered s isos ↔
      ∀ i, i < isos.length → OverrideCovered s (isos.getD i 0) := by
    constructor
    · intro h i hi
      rw [List.getD_eq_getElem _ _ hi]
      exact h _ (List.getElem_mem hi)
    · intro h ptr hmem
      obtain ⟨i, hi, rfl⟩ := List.getElem_of_mem hmem
      have hcovered := h i hi
      rwa [List.getD_eq_getElem _ _ hi] at hcovered
  exact ⟨_, (forLt_yields hbody (regs, fun _ => false)).congr hall⟩

theorem ioapicProgram_stays (s : Space) (acpi : AcpiInst) (regs : Regs) :
    ∃ r, ∀ f : Nat × Regs → Except Stop α, Stays (ioapicProgram s.read acpi regs >>= f) ↔
      (readMaxRedir regs ≠ 255 →
        OverridesCovered s (acpi.tbl .iosoApic) ∧ Stays (f (readMaxRedir regs, r))) := by
  by_cases hend : readMaxRedir regs = 255
  · refine ⟨regs, fun f => ?_⟩
    rw [ioapicProgram]
    simp only [hend, maskEntries_endless, error_seq]
    exact ⟨fun _ hne => absurd rfl hne, fun _ => stays_fault (by decide)⟩
  · have := readMaxRedir_le regs
    obtain ⟨regs', hmask⟩ := maskEntries_ends (by omega : readMaxRedir regs < 255) regs
    obtain ⟨r, hmap⟩ := mapOverrides_yields s acpi regs'
    refine ⟨mapIdentity r.2 r.1, fun f => ?_⟩
    have hprogram : Yields (ioapicProgram s.read acpi regs)
        (OverridesCovered s (acpi.tbl .iosoApic)) (readMaxRedir regs, mapIdentity r.2 r.1) := by
      rw [ioapicProgram]
      simp only [hmask, ok_seq]
      exact hmap.map fun r => (readMaxRedir regs, mapIdentity r.2 r.1)
    rw [hprogram.stays_bind]
    exact ⟨fun h _ => h, fun h => h hend⟩

theorem ioapicTouch_yields (s : Space) (base : Nat) :
    Yields (ioapicTouch s base) (RegistersCovered s base) () :=
  (s.touch_yields base 4).bind fun _ => s.touch_yields (base + 0x10) 4

/-- `ioapic_init`, and `hpet_init` after it. -/
theorem rest_stays (hv2 : acpi.isV2 = true) :
    Stays (do
        let (s, io) ← ioapicInit s acpi regs
        let (s, hpet) ← hpetInit s acpi
        .ok (s, acpi, io, hpet)) ↔
      RestCovered s acpi.xsdt regs (acpi.tbl .ioApic) (acpi.tbl .iosoApic) := by
  rw [ioapicInit, bind_assoc, stays_tblAt]
  cases hio : (acpi.tbl .ioApic)[0]? with
  | none =>
      -- there is no IOAPIC, and the first one is dereferenced
      constructor
      · rintro ⟨io, hfirst, -⟩
        cases hfirst
      · intro h
        obtain ⟨io, hfirst, -⟩ := h.record
        rw [hio] at hfirst
        cases hfirst
  | some io =>
      have hbase : ioapicBase s.mem (acpi.tbl .ioApic) = load s.mem (io + 4) 4 := by
        rw [ioapicBase, List.headD_eq_head?_getD, List.head?_eq_getElem?, hio]
        rfl
      -- the condition, with the first record in place of the list
      have hparts : RestCovered s acpi.xsdt regs (acpi.tbl .ioApic) (acpi.tbl .iosoApic) ↔
          (s.Covers (io + 4) 4 ∧ s.Covers (io + 8) 4) ∧
            (baseInWindow (load s.mem (io + 4) 4) = true →
              RegistersCovered (s.mapSelf (load s.mem (io + 4) 4)) (load s.mem (io + 4) 4) ∧
              (readMaxRedir regs ≠ 255 →
                OverridesCovered (s.mapSelf (load s.mem (io + 4) 4)) (acpi.tbl .iosoApic) ∧
                HpetCovered (s.mapSelf (load s.mem (io + 4) 4)) acpi.xsdt)) := by
        rw [← hbase]
        constructor
        · rintro ⟨⟨io', hfirst, hrecord⟩, hregisters, hoverrides, hhpet⟩
          rw [hio] at hfirst
          obtain rfl := Option.some.inj hfirst
          exact ⟨hrecord, fun hin => ⟨hregisters hin, fun hne => ⟨hoverrides hin hne, hhpet hin hne⟩⟩⟩
        · rintro ⟨hrecord, hin⟩
          exact ⟨⟨io, hio, hrecord⟩, fun h => (hin h).1, fun h hne => ((hin h).2 hne).1,
            fun h hne => ((hin h).2 hne).2⟩
      rw [hparts]
      -- now the parts of `ioapic_init` one after another, in the order of the code
      simp only [Option.some.injEq, exists_eq_left']
      rw [bind_assoc, (s.read_yields (io + 4) 4).stays_bind, and_assoc]
      generalize load s.mem (io + 4) 4 = base
      refine and_congr_right fun _ => ?_
      rw [bind_assoc, (s.read_yields (io + 8) 4).stays_bind]
      refine and_congr_right fun _ => ?_
      rw [bind_assoc, stays_assert]
      refine imp_congr_right fun _ => ?_
      rw [bind_assoc, (ioapicTouch_yields (s.mapSelf base) base).stays_bind]
      refine and_congr_right fun _ => ?_
      obtain ⟨r, hprogram⟩ := ioapicProgram_stays (s.mapSelf base) acpi regs
      rw [bind_assoc, hprogram]
      refine imp_congr_right fun _ => and_congr_right fun _ => ?_
      -- behind the overrides comes `hpet_init`, which sees the pages mapped so far
      rw [ok_seq]
      exact (stays_bind_last fun _ => stays_ok _).trans (hpetInit_stays hv2)

/-- `apic_init`. -/
theorem apicInit_stays (available : Bool) (f : Space × Lapic → Except Stop α)
    (hf : ∀ s lapic lapic', Stays (f (s, lapic)) ↔ Stays (f (s, lapic'))) (lapic : Lapic) :
    Stays (apicInit s acpi available >>= f) ↔ (available = true →
      LapicCovered s acpi.madt (acpi.tbl .procApic) ∧
        Stays (f (s.mapSelf (lapicBase s.mem acpi.madt), lapic))) := by
  have hparts : LapicCovered s acpi.madt (acpi.tbl .procApic) ↔ s.Covers (acpi.madt + 36) 4 ∧
      (∃ proc, (acpi.tbl .procApic)[0]? = some proc ∧ s.Covers (proc + 3) 1) ∧
      (s.mapSelf (lapicBase s.mem acpi.madt)).Covers
        (lapicBase s.mem acpi.madt + APIC_SPURIOUS_VECTOR_REG) 4 :=
    ⟨fun h => ⟨h.base, h.proc, h.register⟩, fun h => ⟨h.1, h.2.1, h.2.2⟩⟩
  rw [apicInit, bind_assoc, stays_assert]
  refine imp_congr_right fun _ => ?_
  rw [hparts, bind_assoc, (s.read_yields (acpi.madt + 36) 4).stays_bind, lapicBase, and_assoc]
  generalize load s.mem (acpi.madt + 36) 4 = base
  refine and_congr_right fun _ => ?_
  rw [bind_assoc, stays_tblAt, and_assoc, ← exists_and_right]
  refine exists_congr fun proc => ?_
  rw [and_assoc, bind_assoc, (s.read_yields (proc + 3) 1).stays_bind]
  refine and_congr_right fun _ => and_congr_right fun _ => ?_
  rw [bind_assoc, lapicTouch, ((s.mapSelf base).touch_yields _ 4).stays_bind]
  exact and_congr_right fun _ => hf _ _ _

/-- The tables of pointers that the loop of `acpi_init_madt` leaves after `n` records. -/
def tablesAfter (m : Memory) (madt n : Nat) (kind : MadtKind) : List Nat :=
  ofKind m kind (recordsOf m madt n)

/-- `acpi_init_madt`. -/
theorem acpiInitMadt_stays (hv2 : acpi.isV2 = true) {madt : Nat}
    (hmadt : tableOf s.mem acpi.xsdt SIG_APIC = madt) (hfound : madt ≠ 0)
    (f : AcpiInst × Walk → Except Stop α)
    (hf : ∀ acpi w w', Stays (f (acpi, w)) ↔ Stays (f (acpi, w'))) (w : Walk) :
    Stays (acpiInitMadtWithin s.read acpi >>= f) ↔
      SearchCovered s acpi.xsdt SIG_APIC ∧ MadtCovered s madt ∧ SlotsSuffice s.mem madt ∧
        ∀ n, EndsAfter s.mem madt n →
          Stays (f ({ acpi with madt, tbl := tablesAfter s.mem madt n }, w)) := by
  have hfind := acpiFindTbl_yields (s := s) hv2 (by decide : IsSig SIG_APIC)
  rw [hmadt] at hfind
  rw [acpiInitMadtWithin, bind_assoc, hfind.stays_bind, if_neg hfound, bind_assoc,
    madtWalkWithin_stays]
  refine and_congr_right fun _ => and_congr_right fun _ => and_congr_right fun _ => ?_
  refine forall_congr' fun n => imp_congr_right fun _ => ?_
  have htbl : (walkAt s.mem madt n).tbl = tablesAfter s.mem madt n :=
    funext (nextWalk_iterate s.mem madt n).2.tbl
  rw [ok_seq, htbl]
  exact hf _ _ _

/-- A valid RSDP that can be reached. -/
theorem acpiValidateRsdp_valid {rsdp : Nat} (hreach : ∀ a n, rsdp ≤ a → s.Covers a n)
    (h : Checked s.mem rsdp) : acpiValidateRsdp s.read rsdp = .ok true := by
  have hne : rsdp ≠ 0 := by
    have := h.high
    lia
  have hsum := (sumBytes_yields s rsdp RSDP_CHECKSUM_VALIDATE_SIZE).inside
    (hreach rsdp _ (Nat.le_refl rsdp))
  rw [acpiValidateRsdp, if_neg hne, hsum, h.summed]
  rfl

/-- `acpi_init` after mapping the root table. -/
theorem root_stays {xsdt madt : Nat} (hshort : tableLength s.mem xsdt < PAGE_SIZE)
    (htable : IsTable s.mem SIG_XSDT xsdt) (hmadt : tableOf s.mem xsdt SIG_APIC = madt)
    (hfound : madt ≠ 0) (f : Space × AcpiInst × Walk → Except Stop α)
    (hf : ∀ s acpi w w', Stays (f (s, acpi, w)) ↔ Stays (f (s, acpi, w'))) (w : Walk) :
    Stays ((do
      let length ← s.read (xsdt + 4) 4
      lift (assert (decide (length < PAGE_SIZE)) "(phys_addr_t)acpi.rsdt->header.length < PAGE_SIZE")
      let summed ← acpiValidateChecksum s.read xsdt
      if summed = false then .error (.fault (.panic "ACPI: invalid RSDT Checksum"))
      else do
        let named ← acpiValidateSig s.read xsdt SIG_XSDT
        if named = false then .error (.fault (.panic "ACPI: invalid RSDT Sig"))
        else do
          let (acpi, w) ← acpiInitMadtWithin s.read ⟨true, xsdt, 0, fun _ => []⟩
          .ok (s, acpi, w)) >>= f) ↔
      AcpiCovered s xsdt madt ∧ ∀ n, EndsAfter s.mem madt n →
        Stays (f (s, ⟨true, xsdt, madt, tablesAfter s.mem madt n⟩, w)) := by
  have hparts : AcpiCovered s xsdt madt ↔ s.Covers (xsdt + 4) 4 ∧ SumCovered s xsdt ∧
      SigCovered s SIG_XSDT xsdt ∧ SearchCovered s xsdt SIG_APIC ∧ MadtCovered s madt ∧
        SlotsSuffice s.mem madt :=
    ⟨fun h => ⟨h.sum.1, h.sum, h.sig, h.search, h.madt, h.slots⟩,
      -- the checks of the root table pass, so what is left of them is what they read
      fun h => ⟨h.2.1, h.2.2.1, h.2.2.2.1, h.2.2.2.2.2, h.2.2.2.2.1⟩⟩
  have hsum := acpiValidateChecksum_yields (s := s) xsdt
  have hsig := acpiValidateSig_yields (s := s) (by decide : IsSig SIG_XSDT) xsdt
  rw [decide_eq_true htable.2] at hsum
  rw [decide_eq_true htable.1] at hsig
  have hassert : lift (assert (decide (load s.mem (xsdt + 4) 4 < PAGE_SIZE))
      "(phys_addr_t)acpi.rsdt->header.length < PAGE_SIZE") = .ok () := by
    rw [decide_eq_true (show load s.mem (xsdt + 4) 4 < PAGE_SIZE from hshort), lift_assert_true]
  simp only [hparts, and_assoc]
  -- the same order as in the code: the length, the sum, the signature, and then the MADT
  rw [bind_assoc, (s.read_yields (xsdt + 4) 4).stays_bind, hassert, ok_seq, bind_assoc,
    hsum.stays_bind, if_neg (by decide), bind_assoc, hsig.stays_bind, if_neg (by decide), bind_assoc]
  refine and_congr_right fun _ => and_congr_right fun _ => and_congr_right fun _ => ?_
  exact acpiInitMadt_stays rfl hmadt hfound _ (fun acpi w w' => hf s acpi w w') w

/-- `acpi_init`. -/
theorem acpiInit_stays {rsdp : Nat} (hreach : ∀ a n, rsdp ≤ a → s.Covers a n)
    (h : Checked s.mem rsdp) (f : Space × AcpiInst × Walk → Except Stop α)
    (hf : ∀ s acpi w w', Stays (f (s, acpi, w)) ↔ Stays (f (s, acpi, w'))) (w : Walk)
    {xsdt madt : Nat} (hxsdt : xsdtOf s.mem rsdp = xsdt) (hmadt : tableOf s.mem xsdt SIG_APIC = madt) :
    Stays (acpiInit s rsdp >>= f) ↔ AcpiCovered (s.mapSelf xsdt) xsdt madt ∧
      ∀ n, EndsAfter s.mem madt n →
        Stays (f (s.mapSelf xsdt, ⟨true, xsdt, madt, tablesAfter s.mem madt n⟩, w)) := by
  have hrevision : s.read (rsdp + 15) 1 = .ok (revisionOf s.mem rsdp) :=
    (s.read_yields (rsdp + 15) 1).inside (hreach _ _ (Nat.le_add_right _ _))
  have haddr : s.read (rsdp + 24) 8 = .ok xsdt := by
    rw [← hxsdt]
    exact (s.read_yields (rsdp + 24) 8).inside (hreach _ _ (Nat.le_add_right _ _))
  have hv2 : decide (revisionOf s.mem rsdp ≥ 2) = true := decide_eq_true h.revision
  have hshort := h.short
  have htable := h.xsdt
  have hfound := h.madt
  rw [hxsdt] at hshort htable hfound
  rw [hmadt] at hfound
  rw [acpiInit, acpiValidateRsdp_valid hreach h, ok_seq, if_neg (by decide), hrevision, ok_seq]
  simp only [hv2, if_true, haddr, ok_seq]
  exact root_stays (s := s.mapSelf xsdt) hshort htable hmadt hfound f hf w

/-! ## The whole sequence -/

/-- The RSDP can be reached. -/
theorem afterVirtmem_high (m : Memory) (fb : Framebuffer) {a : Nat} (h : KERNEL_VADDR ≤ a) (n : Nat) :
    (afterVirtmem m fb).Covers a n := by
  intro x _
  have hpage : KERNEL_VADDR / PAGE_SIZE ≤ (a + x) / PAGE_SIZE :=
    Nat.div_le_div_right (Nat.le_trans h (Nat.le_add_right a x))
  show (decide _ || _) = true
  rw [decide_eq_true hpage, Bool.true_or]

/-- `apic_init` and what comes after it. -/
theorem devices_stays (hv2 : acpi.isV2 = true) (available : Bool) :
    Stays (do
        let (s, _) ← apicInit s acpi available
        let (s, io) ← ioapicInit s acpi regs
        let (s, hpet) ← hpetInit s acpi
        .ok (s, acpi, io, hpet)) ↔
      (available = true → LapicCovered s acpi.madt (acpi.tbl .procApic) ∧
        RestCovered (s.mapSelf (lapicBase s.mem acpi.madt)) acpi.xsdt regs (acpi.tbl .ioApic)
          (acpi.tbl .iosoApic)) := by
  refine (apicInit_stays available _ (fun _ _ _ => Iff.rfl) ⟨0, 0, 0⟩).trans ?_
  exact imp_congr_right fun _ => and_congr_right fun _ => rest_stays hv2

/-- An RSDP of revision 2. -/
def rsdpBytes (xsdt : Nat) : List Nat :=
  let rest := List.replicate 6 0 ++ [2] ++ List.replicate 4 0
  let sig := [82, 83, 68, 32, 80, 84, 82, 32]
  sig ++ [checksumOf (sig ++ rest)] ++ rest ++ bytesOf 4 36 ++ bytesOf 8 xsdt ++ List.replicate 4 0

/-- Where the boot loader leaves the RSDP. -/
abbrev RSDP : Nat := KERNEL_VADDR + 0x9000

/-- A root table that lists a MADT with these records and an HPET, and the registers of a timer that
ticks every 10 ns. -/
def firmware (xsdt madt hpet timer : Nat) (records : List Nat) : Memory :=
  placed (placed (placed (placed (placed (fun _ => 0)
    RSDP (rsdpBytes xsdt))
    xsdt (sdt SIG_XSDT (bytesOf 8 madt ++ bytesOf 8 hpet)))
    madt (sdt SIG_APIC (madtBody records)))
    hpet (sdt SIG_HPET (bytesOf 8 0 ++ bytesOf 8 timer ++ bytesOf 4 0)))
    timer (bytesOf 8 (10000000 * 2 ^ 32))

/-- The usual framebuffer. -/
def usualFramebuffer : Framebuffer := ⟨0xfd000000, 0xfd000000, 1024, 768, 4096, 32⟩

instance (m : Memory) (rsdp : Nat) : Decidable (Checked m rsdp) :=
  decidable_of_iff (KERNEL_VADDR ≤ rsdp ∧ 2 ≤ revisionOf m rsdp ∧
      byteSum m rsdp RSDP_CHECKSUM_VALIDATE_SIZE = 0 ∧
      tableLength m (xsdtOf m rsdp) < PAGE_SIZE ∧ IsTable m SIG_XSDT (xsdtOf m rsdp) ∧
      tableOf m (xsdtOf m rsdp) SIG_APIC ≠ 0)
    ⟨fun h => ⟨h.1, h.2.1, h.2.2.1, h.2.2.2.1, h.2.2.2.2.1, h.2.2.2.2.2⟩,
      fun h => ⟨h.high, h.revision, h.summed, h.short, h.xsdt, h.madt⟩⟩

/-- A layout with all tables in one page, and the timer in the page of the IOAPIC. -/
def usualFirmware : Memory := firmware 0x7fe1000 0x7fe1100 0x7fe1200 0xfed00000 usualRecords

theorem usualFirmware_checked : Checked usualFirmware RSDP := by decide +kernel

theorem usualFirmware_stays :
    Stays (startFirmware (afterVirtmem usualFirmware usualFramebuffer) RSDP true usualRegs) := by
  decide +kernel

/-- A layout with the MADT in the page behind the root table's. -/
def straddlingFirmware : Memory := firmware 0x7fe1000 0x8000000 0x7fe1200 0xfed00000 usualRecords

/-- A layout with a timer in none of the pages. -/
def remoteTimer : Memory := firmware 0x7fe1000 0x7fe1100 0x7fe1200 0xd0000000 usualRecords

/-- A layout with more processors than there are slots for, behind the record of the IOAPIC. -/
def crowdedFirmware : Memory :=
  let others := firmware 0x7fe1000 0x7fe2000 0x7fe1200 0xfed00000 []
  placed (fun x => if 0x7fe2038 ≤ x ∧ x < 0x7fe2260 then processors 0x7fe2038 69 x else others x)
    0x7fe2000 (sdtHeader SIG_APIC 608 103 ++ madtBody ioapicRecord)

end Twos.Boot
