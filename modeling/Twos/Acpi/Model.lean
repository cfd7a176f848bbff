import Twos.Kstd.Compare

/-!
# ACPI tables

`acpi.c`: the tables that firmware leaves in memory. `acpiInit` checks the root table and finds the
MADT in it, whose records `acpiInitMadt` sorts by type into seven tables of pointers.

Pointers are plain addresses, and pointer arithmetic does not wrap. The tables of pointers are
lists: `acpi.tbl.X[0..idx.X-1]`, with `idx.X` the length. `acpiInitMadt` lets them grow as the indices
do; `acpiInitMadtWithin` stops at the first store behind a table of 256 bytes, and up to there it is
the same routine (`acpiInitMadtWithin_ok`). `acpiInit`, which hands the tables on, takes the latter.

* `Madt.lean` shows that a table of records is sorted by type, in order (`madt_classified`).
* `Reach.lean` gives each routine the bytes that it reads, as a condition.
* `Lookup.lean` shows which table is found (`acpiFindTbl_exact`), and `Confined.lean` when the loops
  stay inside of the tables they go through.
-/

namespace Twos.Acpi

open Lib Kstd

/-- `sizeof(acpi_sdt_header_t)`. -/
abbrev SDT_HEADER : Nat := 36

/-- Where the records of a MADT start. -/
abbrev MADT_RECORDS : Nat := 44

abbrev RSDP_CHECKSUM_VALIDATE_SIZE : Nat := 20
abbrev SDT_SIG_LEN : Nat := 4
abbrev ACPI_APIC_TBL_SIZE : Nat := 256

/-- The pointers that a table of `ACPI_APIC_TBL_SIZE` bytes has room for. -/
abbrev TBL_SLOTS : Nat := ACPI_APIC_TBL_SIZE / 8

/-- The types of records that are kept. -/
inductive MadtKind where
  | procApic
  | ioApic
  | iosoApic
  | ionmiApic
  | nmiLapic
  | addroLapic
  | procx2Lapic
  deriving DecidableEq, Repr

/-- The cases of the `switch`. -/
def MadtKind.ofType : Nat → Option MadtKind
  | 0 => some .procApic
  | 1 => some .ioApic
  | 2 => some .iosoApic
  | 3 => some .ionmiApic
  | 4 => some .nmiLapic
  | 5 => some .addroLapic
  | 9 => some .procx2Lapic
  | _ => none

/-- `acpi_inst_t`. -/
structure AcpiInst where
  isV2 : Bool
  xsdt : Nat
  madt : Nat
  tbl : MadtKind → List Nat

/-- `acpi.tbl.X[i]`. Behind `idx.X` the table holds nothing that was put there. -/
def AcpiInst.tblAt (acpi : AcpiInst) (kind : MadtKind) (i : Nat) : Except Stop Nat :=
  match (acpi.tbl kind)[i]? with
  | some ptr => .ok ptr
  | none => .error (.fault .outOfBounds)

theorem AcpiInst.tblAt_lt (acpi : AcpiInst) (kind : MadtKind) {i : Nat}
    (h : i < (acpi.tbl kind).length) : ∃ ptr, acpi.tblAt kind i = .ok ptr := by
  unfold AcpiInst.tblAt
  rw [List.getElem?_eq_getElem h]
  exact ⟨_, rfl⟩

theorem AcpiInst.tblAt_ge (acpi : AcpiInst) (kind : MadtKind) {i : Nat}
    (h : (acpi.tbl kind).length ≤ i) : acpi.tblAt kind i = .error (.fault .outOfBounds) := by
  unfold AcpiInst.tblAt
  rw [List.getElem?_eq_none h]

/-! ## Checks -/

/-- The sum of `n` bytes, as a `uint8_t`. -/
def sumBytes (read : Reader) (p n : Nat) : Except Stop Nat :=
  forLt (fun i sum => do
    let b ← read (p + i) 1
    .ok ((sum + b) % 256)) n 0

/-- `acpi_validate_rsdp`. -/
def acpiValidateRsdp (read : Reader) (rsdp : Nat) : Except Stop Bool :=
  if rsdp = 0 then .ok false
  else do
    let sum ← sumBytes read rsdp RSDP_CHECKSUM_VALIDATE_SIZE
    .ok (decide (sum = 0))

/-- `acpi_validate_sig`. -/
def acpiValidateSig (read : Reader) (header : Nat) (sig : List Nat) : Except Stop Bool := do
  let r ← strncmp (charsAt read header) (literal sig) SDT_SIG_LEN
  .ok (decide (r = 0))

/-- `acpi_validate_checksum`. -/
def acpiValidateChecksum (read : Reader) (header : Nat) : Except Stop Bool := do
  let length ← read (header + 4) 4
  let sum ← sumBytes read header length
  .ok (decide (sum = 0))

/-! ## Finding a table -/

/-- The loop of `acpi_find_tbl`, with `n` entries left from entry `i` on. -/
def findFrom (read : Reader) (xsdt : Nat) (sig : List Nat) : Nat → Nat → Except Stop Nat
  | 0, _ => .ok 0
  | n + 1, i => do
      let entry ← read (xsdt + SDT_HEADER + 8 * i) 8
      let named ← acpiValidateSig read entry sig
      if named then do
        let summed ← acpiValidateChecksum read entry
        if summed then .ok entry else findFrom read xsdt sig n (i + 1)
      else findFrom read xsdt sig n (i + 1)

/-- `acpi_find_tbl`: the address of the table, or 0. -/
def acpiFindTbl (read : Reader) (acpi : AcpiInst) (sig : List Nat) : Except Stop Nat :=
  if acpi.isV2 = false then .error (.fault (.panic "lazy acpi v1 support not done"))
  else do
    let length ← read (acpi.xsdt + 4) 4
    let numEntries := (length + (WORD - SDT_HEADER)) % WORD / 8
    findFrom read acpi.xsdt sig numEntries 0

/-- `"APIC"`. -/
abbrev SIG_APIC : List Nat := [65, 80, 73, 67]

/-- `"HPET"`. -/
abbrev SIG_HPET : List Nat := [72, 80, 69, 84]

/-- `"XSDT"`. -/
abbrev SIG_XSDT : List Nat := [88, 83, 68, 84]

/-- `"RSDT"`. -/
abbrev SIG_RSDT : List Nat := [82, 83, 68, 84]

/-! ## The MADT -/

/-- The state of the loop of `acpi_init_madt`: the cursor and the tables. What has been done so far
is kept beside them: the records that were visited, and the table and index of every store. -/
structure Walk where
  ptr : Nat
  tbl : MadtKind → List Nat
  visited : List Nat
  stores : List (MadtKind × Nat)

/-- `acpi.tbl.X[acpi.idx.X++] = ptr`. -/
def Walk.put (w : Walk) (kind : MadtKind) : Walk :=
  { w with
    tbl := fun k => if k = kind then w.tbl k ++ [w.ptr] else w.tbl k
    stores := w.stores ++ [(kind, (w.tbl kind).length)] }

/-- One iteration. -/
def madtStep (read : Reader) (w : Walk) : Except Stop Walk := do
  let type ← read w.ptr 1
  let w := { w with visited := w.visited ++ [w.ptr] }
  let w := match MadtKind.ofType type with
    | some kind => w.put kind
    | none => w
  let length ← read (w.ptr + 1) 1
  .ok { w with ptr := w.ptr + length }

/-- The loop of `acpi_init_madt`. A record of length 0 makes it go on for ever. -/
def madtWalk (read : Reader) (madt : Nat) : Except Stop Walk := do
  let length ← read (madt + 4) 4
  let maxMadtAddr := madt + length
  whileLoop (.fault .neverEnds) (fun w => decide (w.ptr < maxMadtAddr)) (madtStep read)
    (maxMadtAddr + 1) ⟨madt + MADT_RECORDS, fun _ => [], [], []⟩

/-- `acpi_init_madt`, after `acpi` has been cleared. -/
def acpiInitMadt (read : Reader) (acpi : AcpiInst) : Except Stop (AcpiInst × Walk) := do
  let madt ← acpiFindTbl read acpi SIG_APIC
  if madt = 0 then .error (.fault (.panic "acpi_init_madt() - no madt found"))
  else do
    let w ← madtWalk read madt
    .ok ({ acpi with madt, tbl := w.tbl }, w)

/-! ## Tables of their size -/

/-- All stores so far went into the memory of their tables. -/
def Walk.Fits (w : Walk) : Prop := ∀ store ∈ w.stores, store.2 < TBL_SLOTS

instance (w : Walk) : Decidable w.Fits := inferInstanceAs (Decidable (∀ store ∈ w.stores, _))

/-- One iteration, which stops if its store is behind the table. -/
def madtStepWithin (read : Reader) (w : Walk) : Except Stop Walk := do
  let w ← madtStep read w
  if w.Fits then .ok w else .error (.fault .outOfBounds)

/-- The loop, up to such a store. -/
def madtWalkWithin (read : Reader) (madt : Nat) : Except Stop Walk := do
  let length ← read (madt + 4) 4
  let maxMadtAddr := madt + length
  whileLoop (.fault .neverEnds) (fun w => decide (w.ptr < maxMadtAddr)) (madtStepWithin read)
    (maxMadtAddr + 1) ⟨madt + MADT_RECORDS, fun _ => [], [], []⟩

/-- `acpi_init_madt`, up to such a store. -/
def acpiInitMadtWithin (read : Reader) (acpi : AcpiInst) : Except Stop (AcpiInst × Walk) := do
  let madt ← acpiFindTbl read acpi SIG_APIC
  if madt = 0 then .error (.fault (.panic "acpi_init_madt() - no madt found"))
  else do
    let w ← madtWalkWithin read madt
    .ok ({ acpi with madt, tbl := w.tbl }, w)

theorem madtStepWithin_ok {read : Reader} {w w' : Walk} :
    madtStepWithin read w = .ok w' ↔ madtStep read w = .ok w' ∧ w'.Fits := by
  rw [madtStepWithin, seq_ok]
  constructor
  · rintro ⟨next, hstep, hcheck⟩
    split at hcheck
    · next hfits =>
      obtain rfl := Except.ok.inj hcheck
      exact ⟨hstep, hfits⟩
    · cases hcheck
  · rintro ⟨hstep, hfits⟩
    exact ⟨w', hstep, if_pos hfits⟩

/-- A run that returns is a run of `acpi_init_madt`. -/
theorem acpiInitMadtWithin_ok {read : Reader} {acpi : AcpiInst} {r : AcpiInst × Walk}
    (h : acpiInitMadtWithin read acpi = .ok r) : acpiInitMadt read acpi = .ok r := by
  obtain ⟨madt, hfind, hrest⟩ := seq_ok.mp h
  refine seq_ok.mpr ⟨madt, hfind, ?_⟩
  split at hrest
  · cases hrest
  · next hfound =>
    obtain ⟨w, hwalk, hlast⟩ := seq_ok.mp hrest
    obtain ⟨length, hlength, hloop⟩ := seq_ok.mp hwalk
    rw [if_neg hfound]
    refine seq_ok.mpr ⟨w, seq_ok.mpr ⟨length, hlength, ?_⟩, hlast⟩
    exact whileLoop_mono (fun _ _ hstep => (madtStepWithin_ok.mp hstep).1) hloop

/-! ## Starting up -/

/-- `acpi_init`. -/
def acpiInit (s : Space) (rsdp : Nat) : Except Stop (Space × AcpiInst × Walk) := do
  let valid ← acpiValidateRsdp s.read rsdp
  if valid = false then .error (.fault (.panic "ACPI - RSDP Invalid?!"))
  else do
    let revision ← s.read (rsdp + 15) 1
    let isV2 := decide (revision ≥ 2)
    let sdtAddr ← if isV2 then s.read (rsdp + 24) 8 else s.read (rsdp + 16) 4
    let s := s.mapSelf sdtAddr
    let length ← s.read (sdtAddr + 4) 4
    lift (assert (decide (length < PAGE_SIZE)) "(phys_addr_t)acpi.rsdt->header.length < PAGE_SIZE")
    let summed ← acpiValidateChecksum s.read sdtAddr
    if summed = false then .error (.fault (.panic "ACPI: invalid RSDT Checksum"))
    else do
      let named ← acpiValidateSig s.read sdtAddr (if isV2 then SIG_XSDT else SIG_RSDT)
      if named = false then .error (.fault (.panic "ACPI: invalid RSDT Sig"))
      else do
        let (acpi, w) ← acpiInitMadtWithin s.read ⟨isV2, sdtAddr, 0, fun _ => []⟩
        .ok (s, acpi, w)

end Twos.Acpi
