import Twos.Acpi.Model
import Twos.Lib.Tiling

/-!
# The records of the MADT

When the records tile the table, the loop of `acpi_init_madt` visits each of them once, in order,
and each table of pointers ends up with the records of its type. So table `X` gets one store for
each record of its type, at the indices 0, 1, 2 and so on.

`madtStep_spec` is one turn: the record is put into the table of its type, or skipped when there is no
such table. `madtWalk_spec` is the loop. Its invariant splits the records into those that are visited,
of which `Walked` says where they are, and those that still tile the rest of the table, and what gets
smaller is the distance to the end.
-/

namespace Twos.Acpi

open Lib

/-- The length a record says it has. -/
def recordLength (m : Memory) (r : Nat) : Nat := load m (r + 1) 1

/-- The records of one type. -/
def ofKind (m : Memory) (kind : MadtKind) (records : List Nat) : List Nat :=
  records.filter fun r => decide (MadtKind.ofType (load m r 1) = some kind)

/-- The MADT at `madt` consists of its fixed part and these records. -/
structure IsMadt (m : Memory) (madt : Nat) (records : List Nat) : Prop where
  tiles : Tiles id (recordLength m) (madt + MADT_RECORDS) records (madt + load m (madt + 4) 4)
  long : ∀ r ∈ records, 2 ≤ recordLength m r

variable {m : Memory} {madt : Nat} {records : List Nat}

/-- The walk has been through the records `done`. -/
structure Walked (m : Memory) (done : List Nat) (w : Walk) : Prop where
  visited : w.visited = done
  tbl : ∀ kind, w.tbl kind = ofKind m kind done
  stores : ∀ kind i, (kind, i) ∈ w.stores ↔ i < (ofKind m kind done).length

theorem ofKind_snoc (kind : MadtKind) (r : Nat) :
    ofKind m kind (records ++ [r]) =
      if MadtKind.ofType (load m r 1) = some kind then ofKind m kind records ++ [r]
      else ofKind m kind records := by
  unfold ofKind
  rw [List.filter_append]
  by_cases h : MadtKind.ofType (load m r 1) = some kind
  · simp [h]
  · simp [h]

/-- Putting a record into the table of its type. -/
theorem Walked.put {done : List Nat} {w : Walk} {kind : MadtKind} (h : Walked m done w)
    (hkind : MadtKind.ofType (load m w.ptr 1) = some kind) :
    Walked m (done ++ [w.ptr]) ({ w with visited := w.visited ++ [w.ptr] }.put kind) := by
  have hiff (k : MadtKind) : MadtKind.ofType (load m w.ptr 1) = some k ↔ k = kind := by
    rw [hkind, Option.some.injEq, eq_comm]
  refine ⟨?_, fun k => ?_, fun k i => ?_⟩
  · show w.visited ++ [w.ptr] = _
    rw [h.visited]
  · rw [ofKind_snoc]
    show (if k = kind then w.tbl k ++ [w.ptr] else w.tbl k) = _
    simp only [hiff, h.tbl]
  · rw [ofKind_snoc]
    show (k, i) ∈ w.stores ++ [(kind, (w.tbl kind).length)] ↔ _
    rw [List.mem_append, h.stores, List.mem_singleton, Prod.mk.injEq, h.tbl]
    by_cases hk : k = kind
    · subst hk
      rw [if_pos hkind, List.length_append, List.length_singleton]
      simp only [true_and]
      omega
    · rw [if_neg (fun hof => hk ((hiff k).mp hof))]
      simp only [hk, false_and, or_false]

/-- Skipping a record of an unknown type. -/
theorem Walked.skip {done : List Nat} {w : Walk} (h : Walked m done w)
    (hkind : MadtKind.ofType (load m w.ptr 1) = none) :
    Walked m (done ++ [w.ptr]) { w with visited := w.visited ++ [w.ptr] } := by
  have hnot (k : MadtKind) : ofKind m k (done ++ [w.ptr]) = ofKind m k done := by
    rw [ofKind_snoc, hkind]
    rfl
  refine ⟨?_, fun k => ?_, fun k i => ?_⟩
  · show w.visited ++ [w.ptr] = _
    rw [h.visited]
  · rw [hnot]
    exact h.tbl k
  · rw [hnot]
    exact h.stores k i

/-- One iteration visits one record and moves to the next. -/
theorem madtStep_spec {done : List Nat} {w : Walk} (h : Walked m done w) :
    ∃ w', madtStep (plain m) w = .ok w' ∧ w'.ptr = w.ptr + recordLength m w.ptr ∧
      Walked m (done ++ [w.ptr]) w' := by
  unfold madtStep plain
  simp only [ok_seq]
  cases hkind : MadtKind.ofType (load m w.ptr 1) with
  | some kind =>
      have hput := h.put hkind
      exact ⟨_, rfl, rfl, hput.visited, hput.tbl, hput.stores⟩
  | none =>
      have hskip := h.skip hkind
      exact ⟨_, rfl, rfl, hskip.visited, hskip.tbl, hskip.stores⟩

/-- The loop ends, after a visit to every record. -/
theorem madtWalk_spec (h : IsMadt m madt records) :
    ∃ w, madtWalk (plain m) madt = .ok w ∧ w.ptr = madt + load m (madt + 4) 4 ∧
      Walked m records w := by
  let stop := madt + load m (madt + 4) 4
  -- the records that are left tile what is left of the table
  let I : Walk → Prop := fun w => ∃ done rest, records = done ++ rest ∧
    Tiles id (recordLength m) w.ptr rest stop ∧ Walked m done w
  have hloop : Outcome (fun w => I w ∧ decide (w.ptr < stop) = false) (fun _ => False)
      (whileLoop (Stop.fault .neverEnds) (fun w => decide (w.ptr < stop)) (madtStep (plain m))
        (stop + 1) ⟨madt + MADT_RECORDS, fun _ => [], [], []⟩) := by
    apply whileLoop_rule I (fun _ => False) (fun w => stop - w.ptr)
    · -- at first nothing is visited, and the tables are empty
      refine ⟨[], records, rfl, h.tiles, rfl, fun _ => rfl, fun kind i => ?_⟩
      exact ⟨fun hmem => absurd hmem List.not_mem_nil, fun hlt => absurd hlt (Nat.not_lt_zero _)⟩
    · show stop - _ < stop + 1
      omega
    · -- a turn visits the first of the records that are left
      rintro w ⟨done, rest, hrecords, htiles, hwalked⟩ hcond
      have hlt : w.ptr < stop := of_decide_eq_true hcond
      cases rest with
      | nil =>
          have hend : w.ptr = stop := htiles
          omega
      | cons r rest =>
          obtain ⟨hr, hrest⟩ := htiles
          obtain rfl : r = w.ptr := hr
          have hlong := h.long w.ptr (hrecords ▸ List.mem_append_right _ List.mem_cons_self)
          obtain ⟨w', hstep, hptr, hwalked'⟩ := madtStep_spec hwalked
          rw [hstep]
          refine ⟨⟨done ++ [w.ptr], rest, ?_, hptr ▸ hrest, hwalked'⟩, ?_⟩
          · rw [hrecords, List.append_assoc]
            rfl
          · -- no record is empty
            rw [hptr]
            omega
  obtain ⟨w, hrun, ⟨done, rest, hrecords, htiles, hwalked⟩, hexit⟩ := hloop.returns
  have hge : stop ≤ w.ptr := by simpa using hexit
  -- records of positive length do not fit where nothing is left
  cases rest with
  | nil =>
      rw [List.append_nil] at hrecords
      subst hrecords
      exact ⟨w, hrun, htiles, hwalked⟩
  | cons r rest =>
      have hlong := h.long r (hrecords ▸ List.mem_append_right _ List.mem_cons_self)
      have hle := htiles.2.le
      omega

/-- For every MADT that its records tile, `acpi_init_madt` returns after a visit to every record,
and each table holds the records of its type, in the order of the MADT. -/
theorem madt_classified {acpi : AcpiInst} (hfind : acpiFindTbl (plain m) acpi SIG_APIC = .ok madt)
    (hmadt : madt ≠ 0) (h : IsMadt m madt records) :
    ∃ acpi' w, acpiInitMadt (plain m) acpi = .ok (acpi', w) ∧ acpi'.madt = madt ∧
      w.visited = records ∧ ∀ kind, acpi'.tbl kind = ofKind m kind records := by
  obtain ⟨w, hrun, -, hwalked⟩ := madtWalk_spec h
  refine ⟨{ acpi with madt, tbl := w.tbl }, w, ?_, rfl, hwalked.visited, hwalked.tbl⟩
  rw [acpiInitMadt, hfind, ok_seq, if_neg hmadt, hrun, ok_seq]

/-! ## Some tables

The tables of a machine, byte by byte: a root table with four entries, of which the first that has
both the name and the sum of a MADT is not the first that is looked at.
-/

/-- A number as `n` bytes, lowest first. -/
def bytesOf : Nat → Nat → List Nat
  | 0, _ => []
  | n + 1, v => v % 256 :: bytesOf n (v / 256)

/-- Bytes from an address on, over what is there already. -/
def placed (m : Memory) (base : Nat) (bytes : List Nat) : Memory := fun x =>
  if base ≤ x ∧ x < base + bytes.length then BitVec.ofNat 8 (bytes.getD (x - base) 0) else m x

/-- The header of a table. -/
def sdtHeader (sig : List Nat) (length checksum : Nat) : List Nat :=
  sig ++ bytesOf 4 length ++ [1, checksum] ++ List.replicate 26 0

/-- What makes the sum of some bytes 0. -/
def checksumOf (bytes : List Nat) : Nat := (256 - bytes.sum % 256) % 256

/-- A table with this body. -/
def sdt (sig body : List Nat) : List Nat :=
  sdtHeader sig (SDT_HEADER + body.length)
      (checksumOf (sdtHeader sig (SDT_HEADER + body.length) 0 ++ body)) ++ body

/-- A processor with its local APIC. -/
def processorRecord (id : Nat) : List Nat := [0, 8, id, id] ++ bytesOf 4 1

/-- The IOAPIC. -/
def ioapicRecord : List Nat := [1, 12, 2, 0] ++ bytesOf 4 0xfec00000 ++ bytesOf 4 0

/-- An override of an interrupt. -/
def overrideRecord (irq gsi : Nat) : List Nat := [2, 10, 0, irq] ++ bytesOf 4 gsi ++ [0, 0]

/-- `n` records of processors from an address on. -/
def processors (base n : Nat) : Memory := fun x =>
  if base ≤ x ∧ x < base + 8 * n then
    if (x - base) % 8 = 1 then 8 else if (x - base) % 8 = 4 then 1 else 0
  else 0

/-- Two processors, a record of an unknown type, an IOAPIC, the overrides of the timer and of
interrupt 9, and the local NMI. -/
def usualRecords : List Nat :=
  processorRecord 0 ++ processorRecord 1 ++ [7, 5, 0, 0, 0] ++ ioapicRecord ++ overrideRecord 0 2 ++
    overrideRecord 9 9 ++ [4, 6, 255, 5, 0, 1]

/-- The body of a MADT. -/
def madtBody (records : List Nat) : List Nat := bytesOf 4 0xfee00000 ++ bytesOf 4 1 ++ records

/-- A root table at 4096 that lists four tables: one with the signature of the MADT and a wrong
checksum, one with a NUL in its signature, one of another signature, and the MADT at 5120. -/
def usualTables : Memory :=
  placed (placed (placed (placed (placed (fun _ => 0)
    4096 (sdt SIG_XSDT (bytesOf 8 4352 ++ bytesOf 8 4480 ++ bytesOf 8 4608 ++ bytesOf 8 5120)))
    4352 (sdtHeader SIG_APIC SDT_HEADER 0))
    4480 (sdt [65, 80, 0, 67] []))
    4608 (sdt [70, 65, 67, 80] [1, 2, 3]))
    5120 (sdt SIG_APIC (madtBody usualRecords))

/-- Where the records of the MADT are. -/
def recordsFound : List Nat := [5164, 5172, 5180, 5185, 5197, 5207, 5217]

theorem usualTables_find :
    acpiFindTbl (plain usualTables) ⟨true, 4096, 0, fun _ => []⟩ SIG_APIC = .ok 5120 :=
  Outcome.eq_ok (by decide +kernel)

theorem usualTables_isMadt : IsMadt usualTables 5120 recordsFound :=
  ⟨by decide +kernel, by decide +kernel⟩

theorem madt_classified_usual :
    ∃ acpi' w, acpiInitMadt (plain usualTables) ⟨true, 4096, 0, fun _ => []⟩ = .ok (acpi', w) ∧
      acpi'.madt = 5120 ∧ w.visited = recordsFound ∧ acpi'.tbl .procApic = [5164, 5172] ∧
      acpi'.tbl .ioApic = [5185] ∧ acpi'.tbl .iosoApic = [5197, 5207] ∧
      acpi'.tbl .nmiLapic = [5217] ∧ acpi'.tbl .procx2Lapic = [] := by
  obtain ⟨acpi', w, hrun, hmadt, hvisited, htbl⟩ :=
    madt_classified usualTables_find (by decide) usualTables_isMadt
  refine ⟨acpi', w, hrun, hmadt, hvisited, ?_, ?_, ?_, ?_, ?_⟩ <;>
    rw [htbl] <;> decide +kernel

end Twos.Acpi
