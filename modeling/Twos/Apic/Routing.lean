import Twos.Apic.Model

/-!
# Routing interrupts

What `ioapic_init` makes of the redirection table. A redirection entry is read here as the 64 bits
of its two registers. Each of the three loops writes one entry after the other, and writing an entry
leaves the others as they are; so an override's entry keeps its vector until the end as long as no
other override has the same entry, and the third loop stays away from it.

There is a lemma for each loop, all three by induction on the turns: `maskEntries_spec`,
`mapOverrides_spec` over `Mapped.step`, and `mapIdentity_spec`. `ioapicProgram_spec` runs them one
after another, and `ioapicInit_routes` adds the reads and the assertion in front of them. It says of
the outcomes other than success what they mean (`StopsEarly`): there is no IOAPIC, its base is refused,
or something that is read is not mapped (`InReach`).
-/

namespace Twos.Apic

open Lib Acpi

/-! ## Redirection entries -/

/-- Entries whose registers are where an eight-bit register number reaches. -/
abbrev MAX_ENTRIES : Nat := 120

/-- A redirection entry, from the registers that hold its halves. -/
def redirection (regs : Regs) (n : Nat) : BitVec 64 := regs (0x11 + 2 * n) ++ regs (0x10 + 2 * n)

/-- `redirection_entry.vector`. -/
def vector (e : BitVec 64) : BitVec 8 := e.extractLsb' 0 8

/-- `redirection_entry.mask`. -/
def masked (e : BitVec 64) : Bool := e.getLsbD 16

/-- `redirection_entry.destination`. -/
def destination (e : BitVec 64) : BitVec 8 := e.extractLsb' 56 8

theorem setFields_vector (data : BitVec 64) (v : Nat) :
    vector (setFields data v) = BitVec.ofNat 8 v := by
  have hclear : ∀ i, i < 8 → (~~~0xFF#64).getLsbD i = false := by decide
  have hmask : ∀ i, i < 8 → (1#64 <<< 16).getLsbD i = false := by decide
  have hkeep : ∀ i, i < 8 → (~~~(0xFF#64 <<< 56)).getLsbD i = true := by decide
  apply BitVec.eq_of_getLsbD_eq
  intro i hi
  have hbit : (v % 256).testBit i = v.testBit i := by
    rw [show 256 = 2 ^ 8 from rfl, Nat.testBit_mod_two_pow]
    simp [hi]
  rw [vector, BitVec.getLsbD_extractLsb', Nat.zero_add, setFields]
  simp only [BitVec.getLsbD_and, BitVec.getLsbD_or, hclear i hi, hmask i hi, hkeep i hi,
    BitVec.getLsbD_ofNat, hbit]
  simp [hi]
  omega

theorem setFields_masked (data : BitVec 64) (v : Nat) : masked (setFields data v) = true := by
  simp [masked, setFields]

theorem setFields_destination (data : BitVec 64) (v : Nat) :
    destination (setFields data v) = 0#8 := by
  have hclear : ∀ i, i < 8 → (~~~(0xFF#64 <<< 56)).getLsbD (56 + i) = false := by decide
  apply BitVec.eq_of_getLsbD_eq
  intro i hi
  rw [destination, BitVec.getLsbD_extractLsb', setFields]
  simp only [BitVec.getLsbD_and, hclear i hi, Bool.and_false, BitVec.getLsbD_zero]

/-! ## Writing an entry

An entry is two registers, and its number is eight bits wide, so up to 119 entries do not get into
each other's way.
-/

theorem redtbl_eq {e : Nat} (he : e < MAX_ENTRIES) : redtbl e = 0x10 + 2 * e := by
  unfold redtbl
  lia

theorem redtbl_mod {e : Nat} (he : e < MAX_ENTRIES) : redtbl e % 256 = 0x10 + 2 * e := by
  rw [redtbl_eq he]
  lia

/-- Writing both registers of an entry. -/
theorem redirection_write {regs : Regs} {e n : Nat} (he : e < MAX_ENTRIES)
    (low high : BitVec 32) :
    redirection (ioapicWrite (ioapicWrite regs (redtbl e) low) (redtbl e + 1) high) n =
      if n = e then high ++ low else redirection regs n := by
  have hhigh : (redtbl e + 1) % 256 = 0x11 + 2 * e := by
    rw [redtbl_eq he]
    lia
  simp only [redirection, ioapicWrite, redtbl_mod he, hhigh]
  grind

/-- Writing its lower register only. -/
theorem redirection_writeLow {regs : Regs} {e n : Nat} (he : e < MAX_ENTRIES)
    (low : BitVec 32) :
    redirection (ioapicWrite regs (redtbl e) low) n =
      if n = e then regs (0x11 + 2 * e) ++ low else redirection regs n := by
  simp only [redirection, ioapicWrite, redtbl_mod he]
  grind

/-- What `ioapic_map_redtbl_entry` writes, and that it writes nothing else. -/
theorem redirection_map {regs : Regs} {e n : Nat} (he : e < MAX_ENTRIES) (v : Nat) :
    redirection (ioapicMapRedtblEntry regs e v) n =
      if n = e then setFields (ioapicReadRedtblEntry regs e) (v + IDT_EXCEPTIONS)
      else redirection regs n := by
  rw [ioapicMapRedtblEntry, redirection_write he]
  congr 1
  apply BitVec.eq_of_getLsbD_eq
  intro i hi
  simp only [BitVec.getLsbD_append, BitVec.getLsbD_setWidth, BitVec.getLsbD_ushiftRight]
  grind

/-- An entry raises this vector, at the processor with number 0. -/
structure Programmed (regs : Regs) (n v : Nat) : Prop where
  vector : vector (redirection regs n) = BitVec.ofNat 8 v
  destination : destination (redirection regs n) = 0#8

/-- The first `count` entries are masked. -/
def AllMasked (regs : Regs) (count : Nat) : Prop :=
  ∀ n, n < count → masked (redirection regs n) = true

variable {regs : Regs} {count e n : Nat}

theorem programmed_map (he : e < MAX_ENTRIES) (v : Nat) :
    Programmed (ioapicMapRedtblEntry regs e v) e (v + IDT_EXCEPTIONS) := by
  constructor
  · rw [redirection_map he, if_pos rfl, setFields_vector]
  · rw [redirection_map he, if_pos rfl, setFields_destination]

theorem Programmed.map {v : Nat} (h : Programmed regs n v) (he : e < MAX_ENTRIES) (hne : n ≠ e)
    (w : Nat) : Programmed (ioapicMapRedtblEntry regs e w) n v := by
  constructor
  · rw [redirection_map he, if_neg hne, h.vector]
  · rw [redirection_map he, if_neg hne, h.destination]

theorem AllMasked.map (h : AllMasked regs count) (he : e < MAX_ENTRIES) (v : Nat) :
    AllMasked (ioapicMapRedtblEntry regs e v) count := by
  intro n hn
  rw [redirection_map he]
  split
  · exact setFields_masked _ _
  · exact h n hn

/-- `ioapic_mask_gsi` masks its entry, and no entry loses its mask. -/
theorem AllMasked.mask {maxRedir : Nat} (h : AllMasked regs n) (hn : n < MAX_ENTRIES)
    (hle : n ≤ maxRedir) : AllMasked (ioapicMaskGsi maxRedir regs n).2 (n + 1) := by
  intro k hk
  rw [ioapicMaskGsi, if_neg (Nat.not_lt.mpr hle)]
  show masked (redirection (ioapicWrite _ _ _) k) = true
  rw [redirection_writeLow hn]
  split
  · rw [masked, BitVec.getLsbD_append]
    simp
  · exact h k (by omega)

/-! ## The three loops

The first loop masks all entries and the other two program some of them. An entry that has been
programmed is left alone by the rest, since the overrides have distinct entries and the third loop
looks whether an interrupt is noted.
-/

/-- The first loop ends, with all entries masked. -/
theorem maskEntries_spec {maxRedir : Nat} (hmax : maxRedir < MAX_ENTRIES) (regs : Regs) :
    ∃ regs', maskEntries maxRedir regs = .ok regs' ∧ AllMasked regs' (maxRedir + 1) := by
  have hloop : Outcome (fun s : Nat × Regs => (AllMasked s.2 s.1 ∧ s.1 ≤ maxRedir + 1) ∧
        decide (s.1 < maxRedir + 1) = false) (fun _ => False)
      (whileLoop (Stop.fault .neverEnds) (fun s => decide (s.1 < maxRedir + 1))
        (fun s => .ok ((s.1 + 1) % 256, (ioapicMaskGsi maxRedir s.2 s.1).2)) 257 (0, regs)) := by
    apply whileLoop_rule (fun s : Nat × Regs => AllMasked s.2 s.1 ∧ s.1 ≤ maxRedir + 1)
      (fun _ => False) (fun s => maxRedir + 1 - s.1)
    · exact ⟨fun n hn => absurd hn (Nat.not_lt_zero n), Nat.zero_le _⟩
    · show maxRedir + 1 - 0 < 257
      lia
    · rintro ⟨i, regs⟩ ⟨hmasked, -⟩ hcond
      have hlt : i < maxRedir + 1 := of_decide_eq_true hcond
      have hnext : (i + 1) % 256 = i + 1 := Nat.mod_eq_of_lt (by lia)
      simp only [outcome_ok, hnext]
      exact ⟨⟨hmasked.mask (by lia) (by omega), by omega⟩, by omega⟩
  obtain ⟨⟨i, regs'⟩, hrun, ⟨hmasked, hle⟩, hexit⟩ := hloop.returns
  have hge : maxRedir + 1 ≤ i := by simpa using hexit
  refine ⟨regs', ?_, fun n hn => hmasked n (by omega)⟩
  rw [maskEntries, hrun, ok_seq]

/-- The overrides that memory holds. -/
def overridesOf (m : Memory) (acpi : AcpiInst) : List Override :=
  (acpi.tbl .iosoApic).map fun ptr => { irq := load m (ptr + 3) 1, gsi := load m (ptr + 4) 4 }

/-- The fields of an override can be reached. -/
def OverrideCovered (s : Space) (ptr : Nat) : Prop := s.Covers (ptr + 4) 4 ∧ s.Covers (ptr + 3) 1

/-- All overrides can be reached. -/
def OverridesCovered (s : Space) (isos : List Nat) : Prop := ∀ ptr ∈ isos, OverrideCovered s ptr

/-- Reading override `i` gives override `i`, where memory can be reached. -/
theorem readOverride_spec (s : Space) {acpi : AcpiInst} {i : Nat}
    (hi : i < (overridesOf s.mem acpi).length) :
    Outcome (fun o => o = (overridesOf s.mem acpi)[i])
      (fun err => err = .unmapped ∧ ¬ OverridesCovered s (acpi.tbl .iosoApic))
      (readOverride s.read acpi i) := by
  have hlen : i < (acpi.tbl .iosoApic).length := by simpa [overridesOf] using hi
  have hptr : acpi.tblAt .iosoApic i = .ok (acpi.tbl .iosoApic)[i] := by
    rw [AcpiInst.tblAt, List.getElem?_eq_getElem hlen]
  have hmem := List.getElem_mem hlen
  rw [readOverride, hptr, ok_seq]
  have hgsi := s.read_spec ((acpi.tbl .iosoApic)[i] + 4) 4
  apply (hgsi.imp (fun _ h => h) fun _ h => ⟨h.1, fun hall => h.2 (hall _ hmem).1⟩).bind
  rintro gsi rfl
  have hirq := s.read_spec ((acpi.tbl .iosoApic)[i] + 3) 1
  apply (hirq.imp (fun _ h => h) fun _ h => ⟨h.1, fun hall => h.2 (hall _ hmem).2⟩).bind
  rintro irq rfl
  simp [overridesOf]

/-- The overrides so far are in place, and noted. -/
structure Mapped (done : List Override) (count : Nat) (regs : Regs) (irqMap : Nat → Bool) :
    Prop where
  programmed : ∀ o ∈ done, Programmed regs o.gsi (o.irq + IDT_EXCEPTIONS)
  noted : ∀ i, irqMap i = true ↔ i < 16 ∧ ∃ o ∈ done, o.gsi = i
  masked : AllMasked regs count

theorem Mapped.step {done : List Override} {irqMap : Nat → Bool} {o : Override}
    (h : Mapped done count regs irqMap) (hgsi : o.gsi < MAX_ENTRIES)
    (hnew : ∀ o' ∈ done, o'.gsi ≠ o.gsi) :
    Mapped (done ++ [o]) count (mapOverride o (regs, irqMap)).1
      (mapOverride o (regs, irqMap)).2 := by
  have hmod : o.gsi % 256 = o.gsi := Nat.mod_eq_of_lt (by lia)
  simp only [mapOverride, hmod]
  refine ⟨fun o' ho' => ?_, fun i => ?_, h.masked.map hgsi _⟩
  · rcases List.mem_append.mp ho' with hold | hlast
    · exact (h.programmed o' hold).map hgsi (hnew o' hold) _
    · obtain rfl := List.mem_singleton.mp hlast
      exact programmed_map hgsi _
  · have hi := h.noted i
    simp only [List.mem_append, List.mem_singleton]
    split
    · grind
    · grind

theorem Mapped.foldl {done os : List Override} {r : Regs × (Nat → Bool)}
    (h : Mapped done count r.1 r.2) (hgsi : ∀ o ∈ os, o.gsi < MAX_ENTRIES)
    (hdistinct : (done ++ os).Pairwise fun o o' => o.gsi ≠ o'.gsi) :
    Mapped (done ++ os) count (os.foldl (fun r o => mapOverride o r) r).1
      (os.foldl (fun r o => mapOverride o r) r).2 := by
  induction os generalizing done r with
  | nil => rwa [List.append_nil]
  | cons o os ih =>
      have hnew : ∀ o' ∈ done, o'.gsi ≠ o.gsi := fun o' ho' =>
        (List.pairwise_append.mp hdistinct).2.2 o' ho' o List.mem_cons_self
      have hstep := h.step (hgsi o List.mem_cons_self) hnew
      rw [List.append_cons] at hdistinct ⊢
      exact ih hstep (fun o' ho' => hgsi o' (List.mem_cons_of_mem _ ho')) hdistinct

/-- The second loop goes through the overrides that memory holds. -/
theorem mapOverrides_spec (s : Space) (acpi : AcpiInst) (regs : Regs) :
    Outcome (fun r => r = (overridesOf s.mem acpi).foldl (fun r o => mapOverride o r)
        (regs, fun _ => false))
      (fun err => err = .unmapped ∧ ¬ OverridesCovered s (acpi.tbl .iosoApic))
      (mapOverrides s.read acpi regs) := by
  have hlen : (overridesOf s.mem acpi).length = (acpi.tbl .iosoApic).length := List.length_map _
  have hall : (overridesOf s.mem acpi).take (acpi.tbl .iosoApic).length = overridesOf s.mem acpi :=
    List.take_of_length_le (Nat.le_of_eq hlen)
  rw [← hall, mapOverrides]
  apply forLt_rule (fun i r => r = ((overridesOf s.mem acpi).take i).foldl
    (fun r o => mapOverride o r) (regs, fun _ => false))
    (fun err : Stop => err = .unmapped ∧ ¬ OverridesCovered s (acpi.tbl .iosoApic))
  · rfl
  · rintro i hi r rfl
    have hi' : i < (overridesOf s.mem acpi).length := hlen ▸ hi
    apply (readOverride_spec s hi').bind
    rintro o rfl
    rw [outcome_ok, List.take_add_one, List.getElem?_eq_getElem hi', Option.toList_some,
      List.foldl_append]
    rfl

/-- The third loop after its first `n` iterations. -/
structure Filled (irqMap : Nat → Bool) (before after : Regs) (count n : Nat) : Prop where
  programmed : ∀ i, i < n → irqMap i = false → Programmed after i (i + IDT_EXCEPTIONS)
  kept : ∀ k v, irqMap k = true ∨ NUM_IRQ ≤ k → Programmed before k v → Programmed after k v
  masked : AllMasked after count

theorem mapIdentity_spec {irqMap : Nat → Bool} (hmasked : AllMasked regs count) :
    Filled irqMap regs (mapIdentity irqMap regs) count NUM_IRQ := by
  suffices hloop : ∀ n, n ≤ NUM_IRQ → Filled irqMap regs ((List.range n).foldl (fun regs i =>
      if irqMap i then regs else ioapicMapRedtblEntry regs i i) regs) count n from
    hloop NUM_IRQ (Nat.le_refl _)
  intro n
  induction n with
  | zero => exact fun _ => ⟨fun i hi => absurd hi (Nat.not_lt_zero i), fun k v _ h => h, hmasked⟩
  | succ n ih =>
      intro hn
      have h := ih (by omega)
      have hentry : n < MAX_ENTRIES := by lia
      rw [List.range_succ, List.foldl_append, List.foldl_cons, List.foldl_nil]
      cases hclaimed : irqMap n with
      | true =>
          -- an override has claimed this entry, and the loop leaves it to it
          rw [if_pos rfl]
          refine ⟨fun i hi hfree => ?_, h.kept, h.masked⟩
          have hne : i ≠ n := by
            rintro rfl
            rw [hclaimed] at hfree
            cases hfree
          exact h.programmed i (by omega) hfree
      | false =>
          -- the entry is written, and no other; one that an override has is not this one
          rw [if_neg (by simp)]
          refine ⟨fun i hi hfree => ?_, fun k v hk hbefore => ?_, h.masked.map hentry n⟩
          · by_cases hin : i = n
            · subst hin
              exact programmed_map hentry i
            · exact (h.programmed i (by omega) hfree).map hentry hin n
          · have hne : k ≠ n := by
              rintro rfl
              rcases hk with htrue | hle
              · rw [hclaimed] at htrue
                cases htrue
              · lia
            exact (h.kept k v hk hbefore).map hentry hne n

/-! ## The whole table

What the loops leave is the table, and before them come the reads of the record and the assertion on
the base. All that can be read must be in mapped pages, and one of them is mapped on the way.
-/

/-- The redirection table that `ioapic_init` is there to set up. -/
structure Routed (overrides : List Override) (count : Nat) (regs : Regs) : Prop where
  overridden : ∀ o ∈ overrides, Programmed regs o.gsi (o.irq + IDT_EXCEPTIONS)
  identity : ∀ i, i < NUM_IRQ → (∀ o ∈ overrides, o.gsi ≠ i) →
    Programmed regs i (i + IDT_EXCEPTIONS)
  masked : AllMasked regs count

theorem Mapped.routed {overrides : List Override} {irqMap : Nat → Bool}
    (h : Mapped overrides count regs irqMap) :
    Routed overrides count (mapIdentity irqMap regs) := by
  have hfilled : Filled irqMap regs (mapIdentity irqMap regs) count NUM_IRQ :=
    mapIdentity_spec h.masked
  refine ⟨fun o ho => ?_, fun i hi hfree => ?_, hfilled.masked⟩
  · apply hfilled.kept _ _ _ (h.programmed o ho)
    by_cases hlow : o.gsi < NUM_IRQ
    · exact .inl ((h.noted _).mpr ⟨hlow, o, ho, rfl⟩)
    · exact .inr (Nat.le_of_not_lt hlow)
  · apply hfilled.programmed i hi
    rw [Bool.eq_false_iff]
    intro htrue
    obtain ⟨-, o, ho, hgsi⟩ := (h.noted i).mp htrue
    exact hfree o ho hgsi

theorem ioapicProgram_spec {s : Space} {acpi : AcpiInst} (hcount : readMaxRedir regs < MAX_ENTRIES)
    (hdistinct : (overridesOf s.mem acpi).Pairwise fun o o' => o.gsi ≠ o'.gsi)
    (hgsi : ∀ o ∈ overridesOf s.mem acpi, o.gsi < readMaxRedir regs) :
    Outcome (fun r => r.1 = readMaxRedir regs ∧
        Routed (overridesOf s.mem acpi) (readMaxRedir regs) r.2)
      (fun err => err = .unmapped ∧ ¬ OverridesCovered s (acpi.tbl .iosoApic))
      (ioapicProgram s.read acpi regs) := by
  obtain ⟨regs', hrun, hmasked⟩ := maskEntries_spec hcount regs
  rw [ioapicProgram]
  simp only [hrun, ok_seq]
  have hall : AllMasked regs' (readMaxRedir regs) := fun n hn => hmasked n (by omega)
  have hstart : Mapped [] (readMaxRedir regs) regs' fun _ => false :=
    ⟨fun o ho => absurd ho List.not_mem_nil, fun i => by simp, hall⟩
  apply (mapOverrides_spec s acpi regs').bind
  rintro r rfl
  have hmapped := hstart.foldl (r := (regs', fun _ => false))
    (fun o ho => Nat.lt_trans (hgsi o ho) hcount) hdistinct
  exact ⟨rfl, hmapped.routed⟩

/-- The two words of the IOAPIC can be reached. -/
def RegistersCovered (s : Space) (base : Nat) : Prop := s.Covers base 4 ∧ s.Covers (base + 0x10) 4

theorem ioapicTouch_spec (s : Space) (base : Nat) :
    Outcome (fun _ => True) (fun err => err = .unmapped ∧ ¬ RegistersCovered s base)
      (ioapicTouch s base) := by
  apply ((s.touch_spec base 4).imp (fun _ h => h) fun _ h => ⟨h.1, fun hall => h.2 hall.1⟩).bind
  rintro - -
  exact (s.touch_spec (base + 0x10) 4).imp (fun _ h => h) fun _ h => ⟨h.1, fun hall => h.2 hall.2⟩

/-- All that `ioapic_init` accesses can be reached: the first record of an IOAPIC, and with the page
of its base the registers and the overrides. -/
structure InReach (s : Space) (acpi : AcpiInst) (io : Nat) : Prop where
  base : s.Covers (io + 4) 4
  gsiBase : s.Covers (io + 8) 4
  registers : RegistersCovered (s.mapSelf (load s.mem (io + 4) 4)) (load s.mem (io + 4) 4)
  overrides : OverridesCovered (s.mapSelf (load s.mem (io + 4) 4)) (acpi.tbl .iosoApic)

/-- How `ioapic_init` may stop before its end, which its loops have no part in: there is no record of
an IOAPIC, something that it accesses is out of reach, or the base is not as the assertion has it. -/
def StopsEarly (s : Space) (acpi : AcpiInst) (err : Stop) : Prop :=
  (err = .fault .outOfBounds ∧ acpi.tbl .ioApic = []) ∨
    ∃ io, (acpi.tbl .ioApic)[0]? = some io ∧
      ((err = .unmapped ∧ ¬ InReach s acpi io) ∨
        baseInWindow (load s.mem (io + 4) 4) = false ∧ ∃ text, err = .fault (.assertFailed text))

/-- For all contents of the registers and all overrides with distinct GSIs below the number of
entries, `ioapic_init` routes every interrupt as it should, unless it stops before. -/
theorem ioapicInit_routes (s : Space) (acpi : AcpiInst) (regs : Regs)
    (hcount : NUM_IRQ ≤ readMaxRedir regs ∧ readMaxRedir regs < MAX_ENTRIES)
    (hdistinct : (overridesOf s.mem acpi).Pairwise fun o o' => o.gsi ≠ o'.gsi)
    (hgsi : ∀ o ∈ overridesOf s.mem acpi, o.gsi < readMaxRedir regs) :
    Outcome (fun r => r.2.maxRedir = readMaxRedir regs ∧
        Routed (overridesOf s.mem acpi) (readMaxRedir regs) r.2.regs)
      (StopsEarly s acpi) (ioapicInit s acpi regs) := by
  cases htbl : (acpi.tbl .ioApic)[0]? with
  | none =>
      have hptr : acpi.tblAt .ioApic 0 = .error (.fault .outOfBounds) := by
        rw [AcpiInst.tblAt, htbl]
      rw [ioapicInit, hptr, error_seq]
      exact .inl ⟨rfl, by simpa using htbl⟩
  | some io =>
      have hptr : acpi.tblAt .ioApic 0 = .ok io := by
        rw [AcpiInst.tblAt, htbl]
      -- an access that fails is one of those that `InReach` lists
      have hunmapped {c : Prop} (hc : InReach s acpi io → c) (err : Stop)
          (herr : err = .unmapped ∧ ¬ c) : StopsEarly s acpi err :=
        .inr ⟨io, htbl, .inl ⟨herr.1, fun hreach => herr.2 (hc hreach)⟩⟩
      rw [ioapicInit, hptr, ok_seq]
      apply ((s.read_spec (io + 4) 4).imp (fun _ h => h) (hunmapped InReach.base)).bind
      rintro base rfl
      apply ((s.read_spec (io + 8) 4).imp (fun _ h => h) (hunmapped InReach.gsiBase)).bind
      rintro gsiBase -
      cases hwindow : baseInWindow (load s.mem (io + 4) 4) with
      | false =>
          -- the base lies in the higher half or behind the window, and the assertion fails
          rw [lift_assert_false, error_seq]
          exact .inr ⟨io, htbl, .inr ⟨hwindow, _, rfl⟩⟩
      | true =>
          rw [lift_assert_true, ok_seq]
          have htouch := ioapicTouch_spec (s.mapSelf (load s.mem (io + 4) 4)) (load s.mem (io + 4) 4)
          -- from here on it is the registers, in the page that has just been mapped
          apply (htouch.imp (fun _ h => h) (hunmapped InReach.registers)).bind
          rintro - -
          have hprogram := ioapicProgram_spec (s := s.mapSelf (load s.mem (io + 4) 4)) hcount.2
            hdistinct hgsi
          apply (hprogram.imp (fun _ h => h) (hunmapped InReach.overrides)).bind
          rintro ⟨maxRedir, regs'⟩ h
          exact h

/-- Memory with an IOAPIC record at 300, and at 200 an override of interrupt 0 to GSI 2. -/
def timerOverride : Memory := fun x => if x = 204 then 2 else 0

/-- The pointers to the two records. -/
def timerTables : AcpiInst :=
  ⟨true, 0, 0, fun kind => match kind with
    | .ioApic => [300]
    | .iosoApic => [200]
    | _ => []⟩

/-- An IOAPIC with 24 entries. -/
def usualRegs : Regs := fun r => if r = IOAPICVER then 23 <<< 16 else 0

/-- The same with a base, and with two more overrides: of interrupt 9 to its own entry, and of
interrupt 14 to entry 20. -/
def threeOverrides : Memory := fun x =>
  match x with
  | 204 => 2
  | 213 => 9
  | 214 => 9
  | 223 => 14
  | 224 => 20
  | 306 => 0xC0
  | 307 => 0xFE
  | _ => 0

/-- The pointers to its records. -/
def threeTables : AcpiInst :=
  ⟨true, 0, 0, fun kind => match kind with
    | .ioApic => [300]
    | .iosoApic => [200, 210, 220]
    | _ => []⟩

/-- 24 entries that are unmasked and ask for vector 0x5A at another processor. -/
def busyRegs : Regs := fun r => if r = IOAPICVER then 23 <<< 16 else 0x0300005A

theorem ioapicInit_routes_three :
    (NUM_IRQ ≤ readMaxRedir busyRegs ∧ readMaxRedir busyRegs < MAX_ENTRIES) ∧
      overridesOf threeOverrides threeTables = [⟨0, 2⟩, ⟨9, 9⟩, ⟨14, 20⟩] ∧
      (ioapicInit (everywhere threeOverrides) threeTables busyRegs).toOption.isSome = true ∧
      Outcome (fun r => r.2.maxRedir = readMaxRedir busyRegs ∧
          Routed (overridesOf threeOverrides threeTables) (readMaxRedir busyRegs) r.2.regs)
        (StopsEarly (everywhere threeOverrides) threeTables)
        (ioapicInit (everywhere threeOverrides) threeTables busyRegs) := by
  have hthree : overridesOf threeOverrides threeTables = [⟨0, 2⟩, ⟨9, 9⟩, ⟨14, 20⟩] := by decide
  refine ⟨by decide, hthree, by decide +kernel,
    ioapicInit_routes (everywhere threeOverrides) threeTables busyRegs (by decide) ?_ ?_⟩
  · show (overridesOf threeOverrides threeTables).Pairwise _
    rw [hthree]
    decide
  · show ∀ o ∈ overridesOf threeOverrides threeTables, _
    rw [hthree]
    decide

end Twos.Apic
