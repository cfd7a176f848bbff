import Twos.Acpi.Reach

/-!
# Staying inside a table

The loop over the records of the MADT and the loop over the entries of the root table, run with a
reader that refuses what lies behind the end of the table. The first takes the length of a record from
the record, whatever it is, and the second computes the number of entries from the length of the table
by a subtraction that may wrap.

* `madtWalk_confined_iff` is about the first. Sound records advance the walk, so it ends, and it has
  read nothing else (`walkConfined_of_sound`); a record of length 0 stops it on the spot, and one that
  begins in the last byte has its second byte behind the table (`WalkConfined.sound`).
* `acpiFindTbl_confined_iff` is about the second. Long enough tables are searched up to the last entry
  at most (`searchConfined_of_length`); in the others the number of entries wraps, and the first one
  already is behind the end (`SearchConfined.length`).
-/

namespace Twos.Acpi

open Lib Kstd

variable {m : Memory} {madt : Nat}

/-! ## The MADT

The walk ends and stays in the table if each record has its two bytes there and leads to another
place. If one does not, the walk gets to it: all records before it were sound.
-/

/-- Memory below an address. -/
def below (m : Memory) (stop : Nat) : Reader := fun a n =>
  if a + n ≤ stop then .ok (load m a n) else .error .unmapped

theorem below_yields (m : Memory) (stop a n : Nat) :
    Yields (below m stop a n) (a + n ≤ stop) (load m a n) :=
  ⟨fun h => if_pos h, fun h => if_neg h⟩

/-- The end of a table. -/
def tableEnd (m : Memory) (header : Nat) : Nat := header + tableLength m header

/-- The loop of `acpi_init_madt` ends, without a look at the end of the table or behind it. -/
def WalkConfined (m : Memory) (madt : Nat) : Prop :=
  ∃ w, walkTo (madtStep (below m (tableEnd m madt))) madt (tableEnd m madt) = .ok w ∧
    madtWalk (plain m) madt = .ok w

/-- Each record that starts in the table has its type and its length there, and the length is not
zero. -/
def RecordsSound (m : Memory) (madt : Nat) : Prop :=
  ∀ i, recordAt m madt i < tableEnd m madt →
    recordAt m madt i + 2 ≤ tableEnd m madt ∧ recordLength m (recordAt m madt i) ≠ 0

theorem below_step (m : Memory) (stop : Nat) (w : Walk) :
    Yields (madtStep (below m stop) w) (w.ptr + 2 ≤ stop) (nextWalk m w) := by
  refine (madtStep_yields_of (below_yields m stop w.ptr 1)
    (below_yields m stop (w.ptr + 1) 1)).congr ?_
  rw [Nat.add_assoc]
  omega

/-- Records of positive length come to the end of the table. -/
theorem endsAfter_of_lengths
    (h : ∀ i, recordAt m madt i < tableEnd m madt → recordLength m (recordAt m madt i) ≠ 0) :
    ∃ n, EndsAfter m madt n := by
  classical
  have hpast : ∃ n, tableEnd m madt ≤ recordAt m madt n := by
    by_contra hnone
    have hinside (i : Nat) : recordAt m madt i < tableEnd m madt :=
      Nat.lt_of_not_le fun hle => hnone ⟨i, hle⟩
    -- the records move on by at least one byte each
    have hle := @le_recordAt m madt (tableEnd m madt) fun i _ => h i (hinside i)
    exact absurd (hinside (tableEnd m madt)) (Nat.not_lt.mpr (Nat.le_of_add_left_le hle))
  refine ⟨Nat.find hpast, fun i hi => Nat.lt_of_not_le fun hle => ?_, Nat.find_spec hpast⟩
  exact Nat.find_min hpast hi hle

/-- The walk through all of memory. -/
theorem madtWalk_plain (m : Memory) (madt : Nat) :
    madtWalk (plain m) madt = walkTo (fun w => .ok (nextWalk m w)) madt (tableEnd m madt) := by
  refine Eq.trans rfl (walk_inside fun i _ => ?_)
  rw [walkAt_succ, ← everywhere_read]
  exact (madtStep_yields (everywhere m) _).inside fun _ _ => rfl

theorem walkConfined_of_sound (h : RecordsSound m madt) : WalkConfined m madt := by
  obtain ⟨n, hn⟩ := endsAfter_of_lengths fun i hi => (h i hi).2
  have hends := walk_ends hn
  refine ⟨_, ?_, (madtWalk_plain m madt).trans hends⟩
  refine Eq.trans (walk_inside fun i hi => ?_) hends
  rw [walkAt_succ]
  exact (below_step m _ _).inside ((walkAt_ptr m madt i).symm ▸ (h i hi).1)

/-- A record of length zero in the table is never left. -/
theorem no_end_of_stuck {i : Nat} (hi : recordAt m madt i < tableEnd m madt)
    (hzero : recordLength m (recordAt m madt i) = 0) (n : Nat) : ¬ EndsAfter m madt n := by
  intro hn
  have hpast : tableEnd m madt ≤ recordAt m madt n := hn.past
  rcases Nat.le_total i n with hle | hle
  · rw [recordAt_stuck hzero hle] at hpast
    omega
  · have := @recordAt_mono m madt n i hle
    omega

theorem WalkConfined.sound (h : WalkConfined m madt) : RecordsSound m madt := by
  obtain ⟨w, hrun, hplain⟩ := h
  rw [madtWalk_plain] at hplain
  intro i hi
  constructor
  · by_contra hout
    have hstop := walk_unmapped (fun p => p + 2 ≤ tableEnd m madt) (below_step m _) ⟨i, hi, hout⟩
    rw [hstop] at hrun
    cases hrun
  · intro hzero
    have hstop := walk_endless (no_end_of_stuck hi hzero)
    rw [tableEnd, hstop] at hplain
    cases hplain

/-- For every MADT, the loop of `acpi_init_madt` ends and stays below the end of the table if and only
if each record on its way has two bytes in the table and a length that is not zero. -/
theorem madtWalk_confined_iff (m : Memory) (madt : Nat) :
    WalkConfined m madt ↔ RecordsSound m madt :=
  ⟨WalkConfined.sound, walkConfined_of_sound⟩

/-- A MADT at 4096, with these bytes for records. -/
def madtWith (length checksum : Nat) (records : List Nat) : Memory :=
  placed (fun _ => 0) 4096
    (sdtHeader SIG_APIC length checksum ++ madtBody records)

/-- A record of length 0 that is put into no table, and a table that ends behind the type of a record. -/
theorem madtWalk_not_confined :
    (byteSum (madtWith 46 206 [7, 0]) 4096 46 = 0 ∧
        tableLength (madtWith 46 206 [7, 0]) 4096 = 46 ∧
        ¬ WalkConfined (madtWith 46 206 [7, 0]) 4096) ∧
      byteSum (madtWith 45 214 [0]) 4096 45 = 0 ∧ tableLength (madtWith 45 214 [0]) 4096 = 45 ∧
        ¬ WalkConfined (madtWith 45 214 [0]) 4096 := by
  have hcut : tableEnd (madtWith 45 214 [0]) 4096 = 4141 := by decide +kernel
  have hstuck : tableEnd (madtWith 46 206 [7, 0]) 4096 = 4142 := by decide +kernel
  refine ⟨⟨by decide +kernel, by decide +kernel, fun h => ?_⟩, by decide +kernel, by decide +kernel,
    fun h => ?_⟩
  · have hzero : recordLength (madtWith 46 206 [7, 0]) 4140 = 0 := by decide +kernel
    exact (h.sound 0 (hstuck ▸ by decide)).2 hzero
  · have hroom := (h.sound 0 (hcut ▸ by decide)).1
    rw [hcut] at hroom
    exact absurd hroom (by decide)

/-! ## The root table

The number of entries is computed from the length without a check, and the header takes 36 bytes of
it. With fewer, the subtraction wraps to a very large number; with at least as many, no entry that
is read ends behind the table.
-/

/-- What `acpi_init` has checked before a table is looked for. -/
structure RootChecked (m : Memory) (xsdt : Nat) : Prop where
  length : tableLength m xsdt < PAGE_SIZE
  sum : byteSum m xsdt (tableLength m xsdt) = 0
  sig : Named m SIG_XSDT xsdt

/-- Memory, with the entries of the root table alone: these are what is read in eight bytes. -/
def entriesOnly (m : Memory) (xsdt : Nat) : Reader := fun a n =>
  if n = 8 ∧ tableEnd m xsdt < a + 8 then .error .unmapped else .ok (load m a n)

/-- `acpi_find_tbl` returns, and `entries[i]` is read only where it ends inside the root table. -/
def SearchConfined (m : Memory) (acpi : AcpiInst) (sig : List Nat) : Prop :=
  ∃ entry, acpiFindTbl (entriesOnly m acpi.xsdt) acpi sig = .ok entry ∧
    acpiFindTbl (plain m) acpi sig = .ok entry

variable {xsdt : Nat} {sig : List Nat}

theorem entriesOnly_of_ne {n : Nat} (hn : n ≠ 8) (a : Nat) :
    entriesOnly m xsdt a n = plain m a n := if_neg fun h => hn h.1

/-- A table is checked byte by byte. -/
theorem entriesOnly_checks (m : Memory) (xsdt header : Nat) (sig : List Nat) :
    acpiValidateSig (entriesOnly m xsdt) header sig = acpiValidateSig (plain m) header sig ∧
      acpiValidateChecksum (entriesOnly m xsdt) header = acpiValidateChecksum (plain m) header := by
  have hbyte (a : Nat) : entriesOnly m xsdt a 1 = plain m a 1 := entriesOnly_of_ne (by decide) a
  have hword (a : Nat) : entriesOnly m xsdt a 4 = plain m a 4 := entriesOnly_of_ne (by decide) a
  constructor
  · simp only [acpiValidateSig, charsAt, hbyte]
  · simp only [acpiValidateChecksum, sumBytes, hbyte, hword]

/-- Entries that lie inside are found as in all of memory. -/
theorem findFrom_entriesOnly {n i : Nat} (h : SDT_HEADER + 8 * (i + n) ≤ tableLength m xsdt) :
    findFrom (entriesOnly m xsdt) xsdt sig n i = findFrom (plain m) xsdt sig n i := by
  induction n generalizing i with
  | zero => rfl
  | succ n ih =>
      have hread : entriesOnly m xsdt (xsdt + SDT_HEADER + 8 * i) 8 =
          plain m (xsdt + SDT_HEADER + 8 * i) 8 := by
        refine if_neg ?_
        rintro ⟨-, hlt⟩
        rw [tableEnd] at hlt
        omega
      have hrest := @ih (i + 1) (by omega)
      have hsig (header : Nat) := (entriesOnly_checks m xsdt header sig).1
      have hsum (header : Nat) := (entriesOnly_checks m xsdt header sig).2
      simp only [findFrom, hread, hrest, hsig, hsum]

/-- The checks of a table return, whatever is in memory. -/
theorem scan_returns (str1 str2 : Nat → Nat) (num fuel c : Nat) :
    ∃ stop, strncmpScan (fun c => .ok (str1 c)) (fun c => .ok (str2 c)) num fuel c = .ok stop := by
  induction fuel generalizing c with
  | zero => exact ⟨c, rfl⟩
  | succ fuel ih =>
      simp only [strncmpScan, ok_seq]
      split
      · exact ih (c + 1)
      · exact ⟨c, rfl⟩

theorem acpiValidateSig_returns (m : Memory) (header : Nat) (sig : List Nat) :
    ∃ named, acpiValidateSig (plain m) header sig = .ok named := by
  have hcmp : ∃ r, strncmp (charsAt (plain m) header) (literal sig) SDT_SIG_LEN = .ok r := by
    rw [charsAt]
    split
    · exact ⟨0, rfl⟩
    · obtain ⟨stop, hstop⟩ := scan_returns (fun c => load m (header + c) 1) (fun c => sig.getD c 0)
        SDT_SIG_LEN (SDT_SIG_LEN + 1) 0
      simp only [strncmp, literal, plain_eq, hstop, ok_seq]
      split
      · exact ⟨_, rfl⟩
      · split
        · exact ⟨_, rfl⟩
        · split
          · exact ⟨_, rfl⟩
          · exact ⟨_, rfl⟩
  obtain ⟨r, hr⟩ := hcmp
  exact ⟨decide (r = 0), by rw [acpiValidateSig, hr, ok_seq]⟩

theorem acpiValidateChecksum_returns (m : Memory) (header : Nat) :
    ∃ summed, acpiValidateChecksum (plain m) header = .ok summed := by
  rw [← everywhere_read]
  exact ⟨_, (acpiValidateChecksum_yields header).inside ⟨fun _ _ => rfl, fun _ _ => rfl⟩⟩

theorem findFrom_returns (m : Memory) (xsdt : Nat) (sig : List Nat) (n i : Nat) :
    ∃ entry, findFrom (plain m) xsdt sig n i = .ok entry := by
  induction n generalizing i with
  | zero => exact ⟨0, rfl⟩
  | succ n ih =>
      obtain ⟨named, hnamed⟩ := acpiValidateSig_returns m (load m (xsdt + SDT_HEADER + 8 * i) 8) sig
      obtain ⟨summed, hsummed⟩ := acpiValidateChecksum_returns m (load m (xsdt + SDT_HEADER + 8 * i) 8)
      simp only [findFrom, plain_eq, ok_seq, hnamed, hsummed]
      cases named with
      | false => exact ih (i + 1)
      | true =>
          cases summed with
          | false => exact ih (i + 1)
          | true => exact ⟨_, rfl⟩

variable {acpi : AcpiInst}

theorem acpiFindTbl_eq (hv2 : acpi.isV2 = true) {read : Reader}
    (hread : read (acpi.xsdt + 4) 4 = .ok (tableLength m acpi.xsdt)) :
    acpiFindTbl read acpi sig = findFrom read acpi.xsdt sig (numEntries m acpi.xsdt) 0 := by
  rw [acpiFindTbl, if_neg (by simp [hv2]), hread, ok_seq]
  rfl

theorem searchConfined_of_length (hv2 : acpi.isV2 = true) (sig : List Nat)
    (h : SDT_HEADER ≤ tableLength m acpi.xsdt) : SearchConfined m acpi sig := by
  have hlt : tableLength m acpi.xsdt < 2 ^ 32 := load_lt m (acpi.xsdt + 4) 4
  have hcount : SDT_HEADER + 8 * (0 + numEntries m acpi.xsdt) ≤ tableLength m acpi.xsdt := by
    rw [numEntries]
    lia
  obtain ⟨entry, hentry⟩ := findFrom_returns m acpi.xsdt sig (numEntries m acpi.xsdt) 0
  refine ⟨entry, ?_, ?_⟩
  · rw [acpiFindTbl_eq hv2 (entriesOnly_of_ne (by decide) _), findFrom_entriesOnly hcount, hentry]
  · rw [acpiFindTbl_eq hv2 rfl, hentry]

/-- With a length below that of the header, the number of entries wraps, and the first one is read. -/
theorem SearchConfined.length (hv2 : acpi.isV2 = true) (h : SearchConfined m acpi sig) :
    SDT_HEADER ≤ tableLength m acpi.xsdt := by
  by_contra hshort
  obtain ⟨entry, hrun, -⟩ := h
  rw [acpiFindTbl_eq hv2 (entriesOnly_of_ne (by decide) _)] at hrun
  have hsome : numEntries m acpi.xsdt ≠ 0 := by
    unfold numEntries
    lia
  obtain ⟨n, hn⟩ := Nat.exists_eq_succ_of_ne_zero hsome
  have hrefused : entriesOnly m acpi.xsdt (acpi.xsdt + SDT_HEADER + 8 * 0) 8 = .error .unmapped := by
    refine if_pos ⟨rfl, ?_⟩
    rw [tableEnd]
    omega
  rw [hn, findFrom, hrefused, error_seq] at hrun
  cases hrun

/-- For every root table and every signature, the search returns and reads no entry that ends behind
the table if and only if the table is at least as long as its header. That it has passed the checks of
`acpi_init` does not matter. -/
theorem acpiFindTbl_confined_iff (hv2 : acpi.isV2 = true) (sig : List Nat) :
    SearchConfined m acpi sig ↔ SDT_HEADER ≤ tableLength m acpi.xsdt :=
  ⟨SearchConfined.length hv2, searchConfined_of_length hv2 sig⟩

/-- A root table with four entries. -/
theorem acpiFindTbl_confined_usual : SearchConfined usualTables ⟨true, 4096, 0, fun _ => []⟩ SIG_APIC :=
  (@acpiFindTbl_confined_iff _ ⟨true, 4096, 0, fun _ => []⟩ rfl SIG_APIC).mpr (by decide +kernel)

/-- A root table that says that it has ten bytes. -/
theorem acpiFindTbl_not_confined :
    RootChecked (placed (fun _ => 0) 4096 (sdtHeader SIG_XSDT 10 178)) 4096 ∧
      ¬ SearchConfined (placed (fun _ => 0) 4096 (sdtHeader SIG_XSDT 10 178))
        ⟨true, 4096, 0, fun _ => []⟩ SIG_APIC := by
  have hlength : tableLength (placed (fun _ => 0) 4096 (sdtHeader SIG_XSDT 10 178)) 4096 = 10 := by
    decide +kernel
  refine ⟨⟨by rw [hlength]; decide, by rw [hlength]; decide +kernel, Or.inr (by decide +kernel)⟩,
    fun h => ?_⟩
  have hheader := h.length rfl
  rw [hlength] at hheader
  exact absurd hheader (by decide)

end Twos.Acpi
