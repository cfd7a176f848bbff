import Twos.Apic.Masking

/-!
# The registers that are selected

The operations on the IOAPIC once more, this time with a note of every register index they write to
the select register. All of them select the two registers of an entry, `ioapic_mask_gsi` and
`ioapic_unmask_gsi` even before they look whether there is such an entry; and the first loop of
`ioapic_init` goes on to the entry behind the last. An index is eight bits wide, so the registers of
the entries from 120 on wrap around.

* A `Selecting` is the registers with that note. Without the note each operation is the one of
  `Apic.Model` (`…_regs`, `program_regs`).
* What an operation selects is said for any property of indices (`all_…`), so that a program has one
  lemma, whatever is asked of the indices: `program_selects`, `mask_selects`, `unmask_selects`.
* `staysInFile_iff` asks for the registers that the IOAPIC has. That `ioapic_init` comes to an end is a
  part of it (`ioapicInit_ends`).
-/

namespace Twos.Apic

open Lib Acpi

/-- The registers, and the indices selected so far, the last one first. -/
structure Selecting where
  regs : Regs
  selected : List Nat

namespace Selecting

/-- `ioapic_read`. -/
def read (t : Selecting) (reg : Nat) : BitVec 32 × Selecting :=
  (ioapicRead t.regs reg, { t with selected := reg :: t.selected })

/-- `ioapic_write`. -/
def write (t : Selecting) (reg : Nat) (data : BitVec 32) : Selecting :=
  { regs := ioapicWrite t.regs reg data, selected := reg :: t.selected }

/-- `ioapic_read_redtbl_entry`. -/
def readRedtblEntry (t : Selecting) (entry : Nat) : BitVec 64 × Selecting :=
  let offset := redtbl entry
  let (low, t) := t.read offset
  let (high, t) := t.read (offset + 1)
  (low.setWidth 64 ||| (high <<< 31).setWidth 64, t)

/-- `ioapic_mask_gsi`. -/
def maskGsi (maxRedir : Nat) (t : Selecting) (idx : Nat) : Selecting :=
  let (data, t) := t.readRedtblEntry idx
  if idx > maxRedir then t
  else t.write (redtbl idx) ((data ||| 1#64 <<< 16).setWidth 32)

/-- `ioapic_unmask_gsi`. -/
def unmaskGsi (maxRedir : Nat) (t : Selecting) (idx : Nat) : Selecting :=
  let (data, t) := t.readRedtblEntry idx
  if idx > maxRedir then t
  else t.write (redtbl idx) ((data &&& ~~~(1#64 <<< 16)).setWidth 32)

/-- `ioapic_map_redtbl_entry`. -/
def mapRedtblEntry (t : Selecting) (entry vector : Nat) : Selecting :=
  let (data, t) := t.readRedtblEntry entry
  let data := setFields data (vector + IDT_EXCEPTIONS)
  let offset := redtbl entry
  let t := t.write offset (data.setWidth 32)
  t.write (offset + 1) ((data >>> 32).setWidth 32)

/-- The first loop of `ioapic_init`. -/
def maskEntries (maxRedir : Nat) (t : Selecting) : Except Stop Selecting := do
  let (_, t) ← whileLoop (.fault .neverEnds) (fun s => decide (s.1 < maxRedir + 1))
    (fun s => .ok ((s.1 + 1) % 256, maskGsi maxRedir s.2 s.1)) 257 (0, t)
  .ok t

/-- One iteration of the second loop. -/
def mapOverride (o : Override) (s : Selecting × (Nat → Bool)) : Selecting × (Nat → Bool) :=
  let t := s.1.mapRedtblEntry (o.gsi % 256) o.irq
  (t, if o.gsi < 16 then fun i => if i = o.gsi then true else s.2 i else s.2)

/-- The second loop. -/
def mapOverrides (reader : Reader) (acpi : AcpiInst) (t : Selecting) :
    Except Stop (Selecting × (Nat → Bool)) :=
  forLt (fun i s => do
    let o ← readOverride reader acpi i
    .ok (mapOverride o s)) (acpi.tbl .iosoApic).length (t, fun _ => false)

/-- The third loop. -/
def mapIdentity (irqMap : Nat → Bool) (t : Selecting) : Selecting :=
  (List.range NUM_IRQ).foldl (fun t i => if irqMap i then t else t.mapRedtblEntry i i) t

/-- What `ioapic_init` does to the registers. -/
def program (reader : Reader) (acpi : AcpiInst) (t : Selecting) : Except Stop (Nat × Selecting) := do
  let (ver, t) := t.read IOAPICVER
  let maxRedir := (ver.toNat / 2 ^ 16 + 1) % 256
  let t ← maskEntries maxRedir t
  let (t, irqMap) ← mapOverrides reader acpi t
  .ok (maxRedir, mapIdentity irqMap t)

/-- `ioapic_mask`, with `max_redir`. -/
def mask (reader : Reader) (acpi : AcpiInst) (maxRedir : Nat) (t : Selecting) (irq : Nat) :
    Except Stop Selecting := do
  let entry ← entryOf reader acpi irq
  .ok (t.maskGsi maxRedir entry)

/-- `ioapic_unmask`. -/
def unmask (reader : Reader) (acpi : AcpiInst) (maxRedir : Nat) (t : Selecting) (irq : Nat) :
    Except Stop Selecting := do
  let entry ← entryOf reader acpi irq
  .ok (t.unmaskGsi maxRedir entry)

variable {t : Selecting}

/-! ## The registers are those of the operations without notes

The notes are taken beside the operations and nothing reads them. So what the operations do to the
registers is what `Apic.Model` says.
-/

theorem readRedtblEntry_fst (t : Selecting) (entry : Nat) :
    (t.readRedtblEntry entry).1 = ioapicReadRedtblEntry t.regs entry := rfl

theorem readRedtblEntry_regs (t : Selecting) (entry : Nat) :
    (t.readRedtblEntry entry).2.regs = t.regs := rfl

theorem maskGsi_regs (maxRedir : Nat) (t : Selecting) (idx : Nat) :
    (t.maskGsi maxRedir idx).regs = (ioapicMaskGsi maxRedir t.regs idx).2 := by
  rw [maskGsi, ioapicMaskGsi]
  dsimp only
  split
  · rfl
  · rfl

theorem unmaskGsi_regs (maxRedir : Nat) (t : Selecting) (idx : Nat) :
    (t.unmaskGsi maxRedir idx).regs = (ioapicUnmaskGsi maxRedir t.regs idx).2 := by
  rw [unmaskGsi, ioapicUnmaskGsi]
  dsimp only
  split
  · rfl
  · rfl

theorem mapRedtblEntry_regs (t : Selecting) (entry vector : Nat) :
    (t.mapRedtblEntry entry vector).regs = ioapicMapRedtblEntry t.regs entry vector := rfl

theorem maskEntries_regs (maxRedir : Nat) (t : Selecting) :
    (maskEntries maxRedir t).map (·.regs) = Apic.maskEntries maxRedir t.regs := by
  have hloop : (whileLoop (Stop.fault .neverEnds)
      (fun s : Nat × Selecting => decide (s.1 < maxRedir + 1))
      (fun s => .ok ((s.1 + 1) % 256, maskGsi maxRedir s.2 s.1)) 257 (0, t)).map
        (fun s => (s.1, s.2.regs)) =
      whileLoop (.fault .neverEnds) (fun s => decide (s.1 < maxRedir + 1))
        (fun s => .ok ((s.1 + 1) % 256, (ioapicMaskGsi maxRedir s.2 s.1).2)) 257 (0, t.regs) := by
    apply whileLoop_map fun s : Nat × Selecting => (s.1, s.2.regs)
    · exact fun _ => rfl
    · intro s
      rw [← maskGsi_regs]
      rfl
  rw [maskEntries, Apic.maskEntries, ← hloop]
  cases whileLoop _ _ _ _ _ with
  | error e => rfl
  | ok s => rfl

theorem mapOverrides_regs (reader : Reader) (acpi : AcpiInst) (t : Selecting) :
    (mapOverrides reader acpi t).map (fun r => (r.1.regs, r.2)) =
      Apic.mapOverrides reader acpi t.regs := by
  apply forLt_map fun r : Selecting × (Nat → Bool) => (r.1.regs, r.2)
  intro i r
  cases readOverride reader acpi i with
  | error e => rfl
  | ok o => rfl

theorem mapIdentity_regs (irqMap : Nat → Bool) (t : Selecting) :
    (mapIdentity irqMap t).regs = Apic.mapIdentity irqMap t.regs := by
  unfold mapIdentity Apic.mapIdentity
  induction List.range NUM_IRQ generalizing t with
  | nil => rfl
  | cons i is ih =>
      rw [List.foldl_cons, List.foldl_cons, ih]
      split
      · rfl
      · rfl

/-- `ioapic_init` with notes leaves the registers that it leaves without. -/
theorem program_regs (reader : Reader) (acpi : AcpiInst) (t : Selecting) :
    (program reader acpi t).map (fun r => (r.1, r.2.regs)) =
      ioapicProgram reader acpi t.regs := by
  have hmask := maskEntries_regs (readMaxRedir t.regs) (t.read IOAPICVER).2
  rw [program, ioapicProgram]
  show Except.map _ (maskEntries (readMaxRedir t.regs) (t.read IOAPICVER).2 >>= _) = _
  rw [show (t.read IOAPICVER).2.regs = t.regs from rfl] at hmask
  rw [← hmask]
  cases maskEntries (readMaxRedir t.regs) (t.read IOAPICVER).2 with
  | error e => rfl
  | ok t₁ =>
      show Except.map _ (mapOverrides reader acpi t₁ >>= _) = Apic.mapOverrides reader acpi t₁.regs >>= _
      rw [← mapOverrides_regs]
      cases mapOverrides reader acpi t₁ with
      | error e => rfl
      | ok r =>
          have hlast := mapIdentity_regs r.2 r.1
          exact congrArg (fun regs : Regs => (.ok (readMaxRedir t.regs, regs) : Except Stop _)) hlast

/-! ## The indices of an entry -/

/-- All the indices selected so far have a property. -/
def All (P : Nat → Prop) (t : Selecting) : Prop := ∀ r ∈ t.selected, P r

/-- The two registers of an entry have it, or what the code takes for them. -/
def OfEntry (P : Nat → Prop) (e : Nat) : Prop := P (redtbl e) ∧ P (redtbl e + 1)

variable {P : Nat → Prop}

theorem all_read (t : Selecting) (reg : Nat) : All P (t.read reg).2 ↔ P reg ∧ All P t :=
  List.forall_mem_cons

theorem all_write (t : Selecting) (reg : Nat) (data : BitVec 32) :
    All P (t.write reg data) ↔ P reg ∧ All P t := List.forall_mem_cons

theorem all_readRedtblEntry (t : Selecting) (e : Nat) :
    All P (t.readRedtblEntry e).2 ↔ OfEntry P e ∧ All P t := by
  simp only [readRedtblEntry, all_read, OfEntry]
  grind

theorem all_maskGsi (maxRedir : Nat) (t : Selecting) (e : Nat) :
    All P (t.maskGsi maxRedir e) ↔ OfEntry P e ∧ All P t := by
  have hread := all_readRedtblEntry (P := P) t e
  rw [maskGsi]
  dsimp only
  split
  · exact hread
  · rw [all_write, hread, OfEntry]
    grind

theorem all_unmaskGsi (maxRedir : Nat) (t : Selecting) (e : Nat) :
    All P (t.unmaskGsi maxRedir e) ↔ OfEntry P e ∧ All P t := by
  have hread := all_readRedtblEntry (P := P) t e
  rw [unmaskGsi]
  dsimp only
  split
  · exact hread
  · rw [all_write, hread, OfEntry]
    grind

theorem all_mapRedtblEntry (t : Selecting) (e vector : Nat) :
    All P (t.mapRedtblEntry e vector) ↔ OfEntry P e ∧ All P t := by
  have hread := all_readRedtblEntry (P := P) t e
  rw [mapRedtblEntry]
  dsimp only
  rw [all_write, all_write, hread, OfEntry]
  grind

/-! ## The loops

Which entries the three loops of `ioapic_init` select: all up to the number of entries and one more,
those of the overrides, and those of the interrupts below 16 that no override has claimed.
-/

/-- The first loop ends, and has selected the registers of one entry too many. -/
theorem maskEntries_selects {maxRedir : Nat} (hmax : maxRedir < 255) (t : Selecting) :
    ∃ t', maskEntries maxRedir t = .ok t' ∧
      (All P t' ↔ (∀ i, i < maxRedir + 1 → OfEntry P i) ∧ All P t) := by
  have hloop : Outcome (fun s : Nat × Selecting => (s.1 ≤ maxRedir + 1 ∧
        (All P s.2 ↔ (∀ i, i < s.1 → OfEntry P i) ∧ All P t)) ∧
          decide (s.1 < maxRedir + 1) = false) (fun _ => False)
      (whileLoop (Stop.fault .neverEnds) (fun s => decide (s.1 < maxRedir + 1))
        (fun s => .ok ((s.1 + 1) % 256, maskGsi maxRedir s.2 s.1)) 257 (0, t)) := by
    apply whileLoop_rule (fun s : Nat × Selecting => s.1 ≤ maxRedir + 1 ∧
      (All P s.2 ↔ (∀ i, i < s.1 → OfEntry P i) ∧ All P t)) (fun _ => False)
      (fun s => maxRedir + 1 - s.1)
    · exact ⟨Nat.zero_le _, by simp⟩
    · show maxRedir + 1 - 0 < 257
      omega
    · rintro ⟨i, t₁⟩ ⟨-, hall⟩ hcond
      have hlt : i < maxRedir + 1 := of_decide_eq_true hcond
      have hnext : (i + 1) % 256 = i + 1 := Nat.mod_eq_of_lt (by omega)
      simp only [outcome_ok, hnext, all_maskGsi, Nat.forall_lt_succ_right] at hall ⊢
      exact ⟨⟨by omega, by rw [hall]; grind⟩, by omega⟩
  obtain ⟨⟨i, t'⟩, hrun, ⟨hle, hall⟩, hexit⟩ := hloop.returns
  have hge : maxRedir + 1 ≤ i := by simpa using hexit
  obtain rfl : i = maxRedir + 1 := Nat.le_antisymm hle hge
  refine ⟨t', ?_, hall⟩
  rw [maskEntries, hrun, ok_seq]

theorem readOverride_plain (m : Memory) (acpi : AcpiInst) {i : Nat}
    (hi : i < (overridesOf m acpi).length) :
    readOverride (plain m) acpi i = .ok (overridesOf m acpi)[i] := by
  have hlen : i < (acpi.tbl .iosoApic).length := by simpa [overridesOf] using hi
  simp [readOverride, AcpiInst.tblAt, hlen, overridesOf]

/-- The second loop, with the overrides in memory. -/
theorem mapOverrides_selects (m : Memory) (acpi : AcpiInst) (t : Selecting) :
    ∃ r, mapOverrides (plain m) acpi t = .ok r ∧
      (All P r.1 ↔ (∀ o ∈ overridesOf m acpi, OfEntry P (o.gsi % 256)) ∧ All P t) := by
  have hlen : (overridesOf m acpi).length = (acpi.tbl .iosoApic).length := List.length_map _
  have hloop : Outcome (fun r : Selecting × (Nat → Bool) => All P r.1 ↔
        (∀ o ∈ (overridesOf m acpi).take (acpi.tbl .iosoApic).length, OfEntry P (o.gsi % 256)) ∧
          All P t) (fun _ => False) (mapOverrides (plain m) acpi t) := by
    apply forLt_rule (fun i (r : Selecting × (Nat → Bool)) => All P r.1 ↔
      (∀ o ∈ (overridesOf m acpi).take i, OfEntry P (o.gsi % 256)) ∧ All P t) (fun _ => False)
    · simp
    · intro i hi r hall
      have hi' : i < (overridesOf m acpi).length := hlen ▸ hi
      rw [readOverride_plain m acpi hi', ok_seq, outcome_ok, mapOverride, all_mapRedtblEntry, hall,
        List.take_add_one, List.getElem?_eq_getElem hi']
      simp only [Option.toList_some, List.mem_append, List.mem_singleton]
      grind
  obtain ⟨r, hrun, hall⟩ := hloop.returns
  rw [List.take_of_length_le (Nat.le_of_eq hlen)] at hall
  exact ⟨r, hrun, hall⟩

theorem mapIdentity_selects (irqMap : Nat → Bool) (t : Selecting) :
    All P (mapIdentity irqMap t) ↔
      (∀ i, i < NUM_IRQ → irqMap i = false → OfEntry P i) ∧ All P t := by
  unfold mapIdentity
  generalize NUM_IRQ = n
  induction n with
  | zero => simp
  | succ n ih =>
      rw [List.range_succ, List.foldl_append, List.foldl_cons, List.foldl_nil]
      simp only [Nat.forall_lt_succ_right]
      cases hclaimed : irqMap n with
      | true =>
          rw [if_pos rfl, ih]
          grind
      | false =>
          rw [if_neg (by simp), all_mapRedtblEntry, ih]
          grind

/-- All that `ioapic_init` selects; the third loop may have left out any entry. -/
theorem program_selects (m : Memory) (acpi : AcpiInst) {t : Selecting}
    (hmax : readMaxRedir t.regs < 255) :
    ∃ (r : Nat × Selecting) (irqMap : Nat → Bool), program (plain m) acpi t = .ok r ∧
      (All P r.2 ↔ (∀ i, i < NUM_IRQ → irqMap i = false → OfEntry P i) ∧
        (∀ o ∈ overridesOf m acpi, OfEntry P (o.gsi % 256)) ∧
        (∀ i, i < readMaxRedir t.regs + 1 → OfEntry P i) ∧ P IOAPICVER ∧ All P t) := by
  obtain ⟨t₁, hmask, hall₁⟩ := maskEntries_selects (P := P) hmax (t.read IOAPICVER).2
  obtain ⟨r, hmap, hall₂⟩ := mapOverrides_selects (P := P) m acpi t₁
  refine ⟨(readMaxRedir t.regs, mapIdentity r.2 r.1), r.2, ?_, ?_⟩
  · show (maskEntries (readMaxRedir t.regs) (t.read IOAPICVER).2 >>= _) = _
    rw [hmask, ok_seq, hmap, ok_seq]
    rfl
  · rw [mapIdentity_selects, hall₂, hall₁, all_read]

/-! ## The register file -/

end Selecting

/-- The number of entries, from the version register. -/
def entryCount (regs : Regs) : Nat := (regs IOAPICVER).toNat / 2 ^ 16 % 256 + 1

/-- The indices of the registers that an IOAPIC with `count` entries has. -/
def InFile (count r : Nat) : Prop := r = 0 ∨ r = 1 ∨ (0x10 ≤ r ∧ r < 0x10 + 2 * count)

open Selecting

/-- `ioapic_init` ends, and it and all later calls select registers that there are. -/
structure StaysInFile (m : Memory) (acpi : AcpiInst) (regs : Regs) : Prop where
  ends : ∀ s, ioapicInit s acpi regs ≠ .error (.fault .neverEnds)
  init : ∃ r, program (plain m) acpi ⟨regs, []⟩ = .ok r ∧ All (InFile (entryCount regs)) r.2
  mask : ∀ regs' irq, irq < 256 → ∃ t,
    mask (plain m) acpi (readMaxRedir regs) ⟨regs', []⟩ irq = .ok t ∧
      All (InFile (entryCount regs)) t
  unmask : ∀ regs' irq, irq < 256 → ∃ t,
    unmask (plain m) acpi (readMaxRedir regs) ⟨regs', []⟩ irq = .ok t ∧
      All (InFile (entryCount regs)) t

variable {m : Memory} {acpi : AcpiInst} {regs : Regs} {P : Nat → Prop}

/-! ## Termination -/

theorem maskEntries_returns {maxRedir : Nat} (hmax : maxRedir < 255) (regs : Regs) :
    ∃ regs', maskEntries maxRedir regs = .ok regs' := by
  obtain ⟨t, hrun, -⟩ := maskEntries_selects (P := fun _ => True) hmax ⟨regs, []⟩
  have hregs := maskEntries_regs maxRedir ⟨regs, []⟩
  rw [hrun] at hregs
  exact ⟨t.regs, hregs.symm⟩

theorem ioapicInit_ends (hmax : readMaxRedir regs < 255) (s : Space) :
    ioapicInit s acpi regs ≠ .error (.fault .neverEnds) := by
  -- it stops at memory that is not mapped, or at an assertion, and neither is an endless loop
  have hunmapped (e : Stop) (he : e = .unmapped) : e ≠ .fault .neverEnds := by
    rintro rfl
    cases he
  have htbl (kind : MadtKind) (i : Nat) :
      Outcome (fun _ => True) (fun e => e ≠ .fault .neverEnds) (acpi.tblAt kind i) := by
    unfold AcpiInst.tblAt
    split
    · trivial
    · simp
  have hread {s : Space} (a n : Nat) :
      Outcome (fun _ => True) (fun e => e ≠ .fault .neverEnds) (s.read a n) :=
    (s.read_spec a n).imp (fun _ _ => trivial) fun e he => hunmapped e he.1
  obtain ⟨regs', hrun⟩ := maskEntries_returns hmax regs
  have hinit : Outcome (fun _ => True) (fun e => e ≠ .fault .neverEnds) (ioapicInit s acpi regs) := by
    apply (htbl .ioApic 0).bind
    intro io _
    apply (hread (io + 4) 4).bind
    intro base _
    apply (hread (io + 8) 4).bind
    intro gsiBase _
    cases baseInWindow base with
    -- the assertion about the base fails
    | false => simp [lift_assert_false]
    | true =>
        have htouch := ioapicTouch_spec (s.mapSelf base) base
        apply (htouch.imp (fun _ h => h) fun e he => hunmapped e he.1).bind
        intro _ _
        have hmap := mapOverrides_spec (s.mapSelf base) acpi regs'
        -- the first loop returns, and each of the others stops at a read at most
        apply Outcome.bind (P := fun _ => True)
        · rw [ioapicProgram]
          simp only [hrun, ok_seq]
          exact (hmap.imp (fun _ _ => trivial) fun e he => hunmapped e he.1).bind fun _ _ => trivial
        · exact fun _ _ => trivial
  intro hstop
  rw [hstop] at hinit
  exact hinit rfl

/-! ## Which registers there are

Only with 120 entries does the entry behind the last have indices that exist: they wrap to 0 and 1.
The interrupts are bytes, and an interrupt that has no override is looked for at the entry with its
number.
-/

theorem readMaxRedir_eq (hcount : entryCount regs ≤ 240) : readMaxRedir regs = entryCount regs := by
  have hmod : IOAPICVER % 256 = IOAPICVER := rfl
  unfold readMaxRedir ioapicRead
  unfold entryCount at hcount ⊢
  rw [hmod]
  omega

/-- With 120 entries the indices wrap to 0 and 1 first. -/
theorem ofEntry_inFile_iff (e : Nat) : OfEntry (InFile 120) e ↔ e % 128 ≤ 120 := by
  unfold OfEntry InFile redtbl
  omega

/-- With another number of entries, they do not when the first loop gets there. -/
theorem entryCount_of_maskEntries {count : Nat}
    (h : ∀ i, i < count + 1 → OfEntry (InFile count) i) : count = 120 := by
  by_contra hne
  rcases Nat.lt_or_gt_of_ne hne with hlt | hgt
  · have hlast := h count (Nat.lt_succ_self count)
    unfold OfEntry InFile redtbl at hlast
    omega
  · have hwrapped := h 121 (by omega)
    unfold OfEntry InFile redtbl at hwrapped
    omega

theorem selected_cases (os : List Override) (irq : Nat) :
    (∃ o ∈ os, o.irq = irq ∧ selected os irq = o.gsi % 256) ∨
      (∀ o ∈ os, o.irq ≠ irq) ∧ selected os irq = irq := by
  unfold selected
  cases hfind : os.find? fun o => o.irq == irq with
  | none => exact .inr ⟨by simpa using hfind, rfl⟩
  | some o =>
      have hirq : o.irq = irq := by simpa using List.find?_some hfind
      exact .inl ⟨o, List.mem_of_find?_eq_some hfind, hirq, rfl⟩

/-- The entry that `ioapic_mask` and `ioapic_unmask` look at. -/
def lookedAt (os : List Override) (irq : Nat) : Nat := if irq = 0 then 0 else selected os irq

theorem entryOf_plain (m : Memory) (acpi : AcpiInst) (irq : Nat) :
    entryOf (plain m) acpi irq = .ok (lookedAt (overridesOf m acpi) irq) := by
  have husable : Usable (everywhere m) acpi 0 := by
    constructor
    · intro i hi
      rw [everywhere_read]
      exact ⟨_, readOverride_plain m acpi (by simpa [overridesOf] using hi)⟩
    · simp [ioapicTouch]
  by_cases hzero : irq = 0
  · rw [entryOf, lookedAt, if_pos hzero, if_pos hzero, hzero]
  · have hentry := entryOf_spec husable hzero
    rw [everywhere_read] at hentry
    rw [hentry, lookedAt, if_neg hzero]
    rfl

theorem mask_selects (m : Memory) (acpi : AcpiInst) (maxRedir : Nat) (regs : Regs) (irq : Nat) :
    ∃ t, Selecting.mask (plain m) acpi maxRedir ⟨regs, []⟩ irq = .ok t ∧
      (All P t ↔ OfEntry P (lookedAt (overridesOf m acpi) irq)) := by
  refine ⟨_, by rw [Selecting.mask, entryOf_plain, ok_seq], ?_⟩
  rw [all_maskGsi]
  simp [All]

theorem unmask_selects (m : Memory) (acpi : AcpiInst) (maxRedir : Nat) (regs : Regs) (irq : Nat) :
    ∃ t, Selecting.unmask (plain m) acpi maxRedir ⟨regs, []⟩ irq = .ok t ∧
      (All P t ↔ OfEntry P (lookedAt (overridesOf m acpi) irq)) := by
  refine ⟨_, by rw [Selecting.unmask, entryOf_plain, ok_seq], ?_⟩
  rw [all_unmaskGsi]
  simp [All]

/-- Eight bits of a number have its lowest seven. -/
theorem gsi_byte (gsi : Nat) : gsi % 256 % 128 = gsi % 128 := Nat.mod_mod_of_dvd _ (by decide)

/-- An interrupt leads to an entry that there is, or that wraps to one, if its override does, and if
it has one wherever its number does not. -/
theorem lookedAt_le {os : List Override} {irq : Nat} (hoverrides : ∀ o ∈ os, o.gsi % 128 ≤ 120)
    (hfound : 120 < irq % 128 → ∃ o ∈ os, o.irq = irq) : lookedAt os irq % 128 ≤ 120 := by
  rw [lookedAt]
  split
  · exact Nat.zero_le _
  · rcases selected_cases os irq with ⟨o, ho, -, heq⟩ | ⟨hnone, heq⟩
    · rw [heq, gsi_byte]
      exact hoverrides o ho
    · rw [heq]
      apply Nat.le_of_not_lt
      intro hwraps
      obtain ⟨o, ho, hirq⟩ := hfound hwraps
      exact hnone o ho hirq

/-- An interrupt whose number does not needs an override. -/
theorem found_of_lookedAt {os : List Override} {irq : Nat} (hle : lookedAt os irq % 128 ≤ 120)
    (hwraps : 120 < irq % 128) : ∃ o ∈ os, o.irq = irq := by
  have hne : irq ≠ 0 := by
    rintro rfl
    exact absurd hwraps (by decide)
  rw [lookedAt, if_neg hne] at hle
  rcases selected_cases os irq with ⟨o, ho, hirq, -⟩ | ⟨-, hself⟩
  · exact ⟨o, ho, hirq⟩
  · rw [hself] at hle
    exact absurd hle (Nat.not_le.mpr hwraps)

/-- The tables of the firmware for which the accesses stay in the register file: it takes an IOAPIC
with exactly 120 entries, and no override and no number may lead to an index that wraps further. -/
theorem staysInFile_iff (hcount : entryCount regs ≤ 240) :
    StaysInFile m acpi regs ↔
      entryCount regs = 120 ∧ (∀ o ∈ overridesOf m acpi, o.gsi % 128 ≤ 120) ∧
        ∀ irq, irq < 256 → 120 < irq % 128 → ∃ o ∈ overridesOf m acpi, o.irq = irq := by
  have hmax : readMaxRedir regs < 255 := by
    rw [readMaxRedir_eq hcount]
    omega
  obtain ⟨r, irqMap, hinit, hall⟩ :=
    program_selects (P := InFile (entryCount regs)) m acpi (t := ⟨regs, []⟩) hmax
  constructor
  · intro h
    obtain ⟨r', hrun, hin⟩ := h.init
    obtain rfl := Except.ok.inj (hinit.symm.trans hrun)
    obtain ⟨-, hoverrides, hentries, -⟩ := hall.mp hin
    rw [readMaxRedir_eq hcount] at hentries
    -- the entry behind the last is masked too, so its registers must wrap into the file
    have hone := entryCount_of_maskEntries hentries
    rw [hone] at hoverrides
    refine ⟨hone, fun o ho => ?_, fun irq hirq hwraps => ?_⟩
    · rw [← gsi_byte]
      exact (ofEntry_inFile_iff _).mp (hoverrides o ho)
    · -- this number has no override, or its entry would not be looked at
      obtain ⟨t, hrun, hin⟩ := h.mask regs irq hirq
      obtain ⟨t', hrun', hall'⟩ := mask_selects (P := InFile (entryCount regs))
        m acpi (readMaxRedir regs) regs irq
      obtain rfl := Except.ok.inj (hrun'.symm.trans hrun)
      have hentry := hall'.mp hin
      rw [hone, ofEntry_inFile_iff] at hentry
      exact found_of_lookedAt hentry hwraps
  · rintro ⟨hone, hoverrides, hfound⟩
    have hentry (irq : Nat) (hirq : irq < 256) :
        OfEntry (InFile (entryCount regs)) (lookedAt (overridesOf m acpi) irq) := by
      rw [hone, ofEntry_inFile_iff]
      exact lookedAt_le hoverrides (hfound irq hirq)
    refine ⟨ioapicInit_ends hmax, ⟨r, hinit, hall.mpr ?_⟩, fun regs' irq hirq => ?_,
      fun regs' irq hirq => ?_⟩
    · -- what `ioapic_init` selects: the entries it masks, those of the overrides, and the others
      rw [hone]
      refine ⟨fun i hi _ => ?_, fun o ho => ?_, fun i hi => ?_, .inr (.inl rfl), by simp [All]⟩
      · rw [ofEntry_inFile_iff]
        lia
      · rw [ofEntry_inFile_iff, gsi_byte]
        exact hoverrides o ho
      · have hle : i < 120 + 1 := by
          rwa [readMaxRedir_eq hcount, hone] at hi
        rw [ofEntry_inFile_iff]
        omega
    · -- `ioapic_mask` and `ioapic_unmask` select the same entry
      obtain ⟨t, hrun, hall'⟩ := mask_selects (P := InFile (entryCount regs))
        m acpi (readMaxRedir regs) regs' irq
      exact ⟨t, hrun, hall'.mpr (hentry irq hirq)⟩
    · obtain ⟨t, hrun, hall'⟩ := unmask_selects (P := InFile (entryCount regs))
        m acpi (readMaxRedir regs) regs' irq
      exact ⟨t, hrun, hall'.mpr (hentry irq hirq)⟩

theorem staysInFile_iff_usual :
    entryCount usualRegs ≤ 240 ∧
      (StaysInFile timerOverride timerTables usualRegs ↔
        entryCount usualRegs = 120 ∧
          (∀ o ∈ overridesOf timerOverride timerTables, o.gsi % 128 ≤ 120) ∧
          ∀ irq, irq < 256 → 120 < irq % 128 →
            ∃ o ∈ overridesOf timerOverride timerTables, o.irq = irq) :=
  ⟨by decide, staysInFile_iff (by decide)⟩

/-- With 24 entries, register 0x40 is selected, which is none of them. -/
theorem usual_leaves_file : entryCount usualRegs = 24 ∧
    (∃ r, program (plain timerOverride) timerTables ⟨usualRegs, []⟩ = .ok r ∧ 0x40 ∈ r.2.selected) ∧
    ¬ InFile 24 0x40 ∧ ¬ StaysInFile timerOverride timerTables usualRegs := by
  have hcount : entryCount usualRegs = 24 := by decide
  have hout : ¬ InFile 24 0x40 := by
    unfold InFile
    decide
  obtain ⟨r, irqMap, hinit, hall⟩ :=
    program_selects (P := (· ≠ 0x40)) timerOverride timerTables (t := ⟨usualRegs, []⟩) (by decide)
  have hselected : 0x40 ∈ r.2.selected := by
    by_contra hnot
    have hentries := (hall.mp fun reg hreg hne => hnot (hne ▸ hreg)).2.2.1
    exact (hentries 24 (by decide)).1 rfl
  refine ⟨hcount, ⟨r, hinit, hselected⟩, hout, fun h => ?_⟩
  obtain ⟨r', hrun, hin⟩ := h.init
  obtain rfl := Except.ok.inj (hinit.symm.trans hrun)
  rw [hcount] at hin
  exact hout (hin _ hselected)

end Twos.Apic
