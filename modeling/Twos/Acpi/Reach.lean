import Mathlib.Data.Nat.Find
import Twos.Acpi.Madt
import Twos.Kernel.Reach

/-!
# What the ACPI routines read

Each routine of `acpi.c` has a counterpart that knows all of memory, and a condition: the bytes that
the routine reads on the way to its answer. A signature is read up to its first wrong character, a
table whose signature is right is read as far as it says it is long, the root table up to the entry
that is looked for, and the MADT record by record.

* Up to the lookup the statements are of the form `Yields`: where the condition holds the routine
  returns that value, and elsewhere it stops at memory that is not mapped. They follow the code from
  the inside out: `scan_yields`, `acpiValidateSig_yields`, `entry_yields`, `acpiFindTbl_yields`.
* The walk of the MADT need not end, and its tables may run full. So its states are numbered
  (`walkAt`), and `madtWalkWithin_stays` says when it stays within reach: all records up to the end are
  covered, and every table has a slot for each of its records. If not, there is a first record at which
  one of the two fails, and the walk stops there (`walkWithin_stops`).
-/

namespace Twos.Acpi

open Lib Kstd

/-! ## Sums and signatures

A table is summed up byte by byte, and its signature is compared up to the first wrong character, so
how far is read depends on what is read. `ScanEnd` says where the scan has stopped and that
everything before was right, and `SigCovered` is the same in terms of the signature.
-/

/-- The sum of `n` bytes, as a `uint8_t`. -/
def byteSum (m : Memory) (p n : Nat) : Nat :=
  (List.range n).foldl (fun sum i => (sum + load m (p + i) 1) % 256) 0

variable {s : Space}

theorem sumBytes_yields (s : Space) (p n : Nat) :
    Yields (sumBytes s.read p n) (s.Covers p n) (byteSum s.mem p n) := by
  refine Yields.congr ?_ (s.covers_bytes p n)
  exact forLt_yields
    (fun i _ sum => (s.read_yields (p + i) 1).map fun b => (sum + b) % 256) 0

/-- Character `c` of the signature is the one that is looked for. -/
def CharIs (m : Memory) (sig : List Nat) (header c : Nat) : Prop :=
  load m (header + c) 1 = sig.getD c 0

instance (m : Memory) (sig : List Nat) (header c : Nat) : Decidable (CharIs m sig header c) :=
  inferInstanceAs (Decidable (_ = _))

/-- `acpi_validate_sig`. A null pointer has every signature. -/
def Named (m : Memory) (sig : List Nat) (header : Nat) : Prop :=
  header = 0 ∨ ∀ c, c < SDT_SIG_LEN → CharIs m sig header c

instance (m : Memory) (sig : List Nat) (header : Nat) : Decidable (Named m sig header) :=
  inferInstanceAs (Decidable (_ ∨ _))

/-- The characters up to the first wrong one can be reached, or all of them and the one behind. -/
def SigCovered (s : Space) (sig : List Nat) (header : Nat) : Prop :=
  header ≠ 0 → ∀ c, c ≤ SDT_SIG_LEN → (∀ j, j < c → CharIs s.mem sig header j) →
    s.Covers (header + c) 1

/-- A signature that has no NUL in it. -/
def IsSig (sig : List Nat) : Prop := ∀ c, c < SDT_SIG_LEN → sig.getD c 0 ≠ 0

instance (sig : List Nat) : Decidable (IsSig sig) := inferInstanceAs (Decidable (∀ _, _))

/-- What the scan of `strncmp` has read before character `c`, and where it ends. -/
structure ScanEnd (m : Memory) (sig : List Nat) (header c stop : Nat) : Prop where
  le : c ≤ stop ∧ stop ≤ SDT_SIG_LEN
  before : ∀ j, c ≤ j → j < stop → CharIs m sig header j
  wrong : stop < SDT_SIG_LEN → ¬ CharIs m sig header stop

theorem scan_yields {sig : List Nat} (hsig : IsSig sig) (header : Nat) (fuel c : Nat)
    (hc : c ≤ SDT_SIG_LEN) (hfuel : SDT_SIG_LEN < c + fuel) :
    ∃ stop, ScanEnd s.mem sig header c stop ∧
      Yields (strncmpScan (fun c => s.read (header + c) 1) (fun c => .ok (sig.getD c 0)) SDT_SIG_LEN
        fuel c) (∀ k, c ≤ k → k ≤ stop → s.Covers (header + k) 1) stop := by
  induction fuel generalizing c with
  | zero => omega
  | succ fuel ih =>
      have hread := s.read_yields (header + c) 1
      -- the character is right and not the last, so it is read and the scan goes on
      by_cases hgo : CharIs s.mem sig header c ∧ c < SDT_SIG_LEN
      · obtain ⟨stop, hend, hrest⟩ := ih (c + 1) hgo.2 (by omega)
        refine ⟨stop, ⟨⟨by have := hend.le; omega, hend.le.2⟩, fun j hj hlt => ?_, hend.wrong⟩, ?_⟩
        · rcases Nat.eq_or_lt_of_le hj with rfl | hlater
          · exact hgo.1
          · exact hend.before j hlater hlt
        · rw [strncmpScan]
          refine (hread.bind (w := stop) (d := ∀ k, c + 1 ≤ k → k ≤ stop → s.Covers (header + k) 1)
            fun _ => ?_).congr ⟨fun h => ⟨h c (Nat.le_refl c) (by have := hend.le; omega),
              fun k hk => h k (by omega)⟩, fun h k hk hle => ?_⟩
          · have hne := hsig c hgo.2
            have hchar : load s.mem (header + c) 1 = sig.getD c 0 := hgo.1
            rw [ok_seq, if_pos ⟨hchar, hgo.2, hchar ▸ hne, hne⟩]
            exact hrest
          · rcases Nat.eq_or_lt_of_le hk with rfl | hlater
            · exact h.1
            · exact h.2 k hlater hle
      · -- the scan stops at this character, which is the last one read
        refine ⟨c, ⟨⟨Nat.le_refl c, hc⟩, fun j hj hlt => by omega, fun hlt his => hgo ⟨his, hlt⟩⟩, ?_⟩
        rw [strncmpScan]
        refine (hread.bind (d := True) fun _ => ?_).congr ⟨fun h => ⟨h c (Nat.le_refl c) (Nat.le_refl c),
          trivial⟩, fun h k hk hle => ?_⟩
        · rw [ok_seq, if_neg fun h => hgo ⟨h.1, h.2.1⟩]
          exact .ok c
        · obtain rfl : k = c := Nat.le_antisymm hle hk
          exact h.1

/-- Where the scan ends, in terms of the signature. -/
theorem ScanEnd.reads_iff {m : Memory} {sig : List Nat} {header stop k : Nat}
    (h : ScanEnd m sig header 0 stop) :
    k ≤ stop ↔ k ≤ SDT_SIG_LEN ∧ ∀ j, j < k → CharIs m sig header j := by
  constructor
  · intro hk
    exact ⟨by have := h.le; omega, fun j hj => h.before j (Nat.zero_le j) (by omega)⟩
  · rintro ⟨hk, hall⟩
    refine Nat.le_of_not_lt fun hlt => ?_
    exact h.wrong (by omega) (hall stop hlt)

theorem ScanEnd.full_iff {m : Memory} {sig : List Nat} {header stop : Nat}
    (h : ScanEnd m sig header 0 stop) :
    stop = SDT_SIG_LEN ↔ ∀ c, c < SDT_SIG_LEN → CharIs m sig header c := by
  constructor
  · rintro rfl c hc
    exact h.before c (Nat.zero_le c) hc
  · intro hall
    have := h.reads_iff.mpr ⟨Nat.le_refl _, hall⟩
    exact Nat.le_antisymm h.le.2 this

/-- `strncmp` has one of its answers, which is 0 when the scan goes through the whole signature. -/
theorem strncmp_yields {sig : List Nat} {header stop : Nat} {c : Prop}
    (hscan : Yields (strncmpScan (fun c => s.read (header + c) 1) (fun c => .ok (sig.getD c 0))
      SDT_SIG_LEN (SDT_SIG_LEN + 1) 0) c stop) (hlast : c → s.Covers (header + stop) 1) :
    ∃ r, (r = 0 ↔ stop = SDT_SIG_LEN) ∧
      Yields (strncmp (some fun c => s.read (header + c) 1) (literal sig) SDT_SIG_LEN) c r := by
  by_cases hstop : stop = SDT_SIG_LEN
  · refine ⟨0, by simp [hstop], (hscan.bind (d := True) fun _ => ?_).congr (and_true c).symm.to_iff⟩
    rw [if_pos hstop]
    exact .ok 0
  · let r : Int := if toChar (load s.mem (header + stop) 1) > toChar (sig.getD stop 0) then -1 else 1
    have hr : r ≠ 0 := by
      show (if _ then (-1 : Int) else 1) ≠ 0
      split
      · decide
      · decide
    refine ⟨r, by simp [hr, hstop], (hscan.bind (d := True) fun hc => ?_).congr
      (and_true c).symm.to_iff⟩
    have hread : s.read (header + stop) 1 = .ok (load s.mem (header + stop) 1) :=
      (s.read_yields (header + stop) 1).inside (hlast hc)
    rw [if_neg hstop]
    show Yields (s.read (header + stop) 1 >>= _) True (if _ then _ else _)
    rw [hread, ok_seq, ok_seq]
    split
    · exact .ok _
    · exact .ok _

theorem acpiValidateSig_yields {sig : List Nat} (hsig : IsSig sig) (header : Nat) :
    Yields (acpiValidateSig s.read header sig) (SigCovered s sig header)
      -- a null pointer is valid, and nothing is read
      (decide (Named s.mem sig header)) := by
  unfold acpiValidateSig
  by_cases hnull : header = 0
  · -- the characters that are read are those up to the first wrong one
    have hnamed : Named s.mem sig header := .inl hnull
    rw [charsAt, if_pos hnull, decide_eq_true hnamed]
    exact (Yields.ok true).congr ⟨fun _ => trivial, fun _ hne => absurd hnull hne⟩
  · obtain ⟨stop, hend, hscan⟩ := scan_yields hsig header (SDT_SIG_LEN + 1) 0 (Nat.zero_le _)
      (Nat.lt_of_lt_of_eq (Nat.lt_succ_self _) (Nat.zero_add _).symm)
    have hnamed : Named s.mem sig header ↔ stop = SDT_SIG_LEN := by
      rw [hend.full_iff]
      exact or_iff_right hnull
    have hcovered : SigCovered s sig header ↔
        ∀ k, 0 ≤ k → k ≤ stop → s.Covers (header + k) 1 := by
      constructor
      · intro h k _ hk
        obtain ⟨hle, hall⟩ := hend.reads_iff.mp hk
        exact h hnull k hle hall
      · intro h _ k hk hall
        exact h k (Nat.zero_le k) (hend.reads_iff.mpr ⟨hk, hall⟩)
    obtain ⟨r, hr, hcmp⟩ := strncmp_yields hscan fun h => h stop (Nat.zero_le stop) (Nat.le_refl stop)
    have hanswer : decide (r = 0) = decide (Named s.mem sig header) := by
      rw [decide_eq_decide, hr, hnamed]
    rw [charsAt, if_neg hnull, ← hanswer]
    exact (hcmp.map fun r => decide (r = 0)).congr hcovered

/-! ## Tables

The root table is read entry by entry up to the first match, and of each table on the way what the
check of it reads. Both are recursive on the number of entries, and so is the proof.
-/

/-- The length that a table says it has. -/
def tableLength (m : Memory) (header : Nat) : Nat := load m (header + 4) 4

/-- The bytes that a checksum is made of. -/
def SumCovered (s : Space) (header : Nat) : Prop :=
  s.Covers (header + 4) 4 ∧ s.Covers header (tableLength s.mem header)

theorem acpiValidateChecksum_yields (header : Nat) :
    Yields (acpiValidateChecksum s.read header) (SumCovered s header)
      (decide (byteSum s.mem header (tableLength s.mem header) = 0)) :=
  (s.read_yields (header + 4) 4).bind fun _ => (sumBytes_yields s header _).map fun sum => decide (sum = 0)

/-- A table with this signature, and a right checksum. -/
def IsTable (m : Memory) (sig : List Nat) (header : Nat) : Prop :=
  Named m sig header ∧ byteSum m header (tableLength m header) = 0

instance (m : Memory) (sig : List Nat) (header : Nat) : Decidable (IsTable m sig header) :=
  inferInstanceAs (Decidable (_ ∧ _))

/-- What is read of a table to find out if it is one. -/
def TableCovered (s : Space) (sig : List Nat) (header : Nat) : Prop :=
  SigCovered s sig header ∧ (Named s.mem sig header → SumCovered s header)

/-- Entry `i` of the root table. -/
def entryAt (m : Memory) (xsdt i : Nat) : Nat := load m (xsdt + SDT_HEADER + 8 * i) 8

/-- How many entries `acpi_find_tbl` takes the root table to have. -/
def numEntries (m : Memory) (xsdt : Nat) : Nat :=
  (tableLength m xsdt + (WORD - SDT_HEADER)) % WORD / 8

/-- The first table with this signature among `n` entries from entry `i` on, or 0. -/
def firstTable (m : Memory) (xsdt : Nat) (sig : List Nat) : Nat → Nat → Nat
  | 0, _ => 0
  | n + 1, i =>
      if IsTable m sig (entryAt m xsdt i) then entryAt m xsdt i else firstTable m xsdt sig n (i + 1)

/-- The table with this signature that is found in the root table. -/
def tableOf (m : Memory) (xsdt : Nat) (sig : List Nat) : Nat :=
  firstTable m xsdt sig (numEntries m xsdt) 0

/-- Each entry up to the first that is such a table can be reached, and the table in it. -/
def EntriesCovered (s : Space) (xsdt : Nat) (sig : List Nat) (n i : Nat) : Prop :=
  ∀ k, k < n → (∀ j, j < k → ¬ IsTable s.mem sig (entryAt s.mem xsdt (i + j))) →
    s.Covers (xsdt + SDT_HEADER + 8 * (i + k)) 8 ∧
      TableCovered s sig (entryAt s.mem xsdt (i + k))

theorem entriesCovered_succ (s : Space) (xsdt : Nat) (sig : List Nat) (n i : Nat) :
    EntriesCovered s xsdt sig (n + 1) i ↔
      (s.Covers (xsdt + SDT_HEADER + 8 * i) 8 ∧ TableCovered s sig (entryAt s.mem xsdt i)) ∧
        (¬ IsTable s.mem sig (entryAt s.mem xsdt i) → EntriesCovered s xsdt sig n (i + 1)) := by
  have hshift (k : Nat) : i + 1 + k = i + (k + 1) := by omega
  constructor
  · intro h
    refine ⟨h 0 (Nat.succ_pos n) fun j hj => absurd hj (Nat.not_lt_zero j), fun hnot k hk hall => ?_⟩
    rw [hshift]
    refine h (k + 1) (by omega) fun j hj => ?_
    cases j with
    | zero => exact hnot
    | succ j =>
        rw [← hshift]
        exact hall j (by omega)
  · rintro ⟨hfirst, hrest⟩ k hk hall
    cases k with
    | zero => exact hfirst
    | succ k =>
        rw [← hshift]
        refine hrest (hall 0 (Nat.succ_pos k)) k (by omega) fun j hj => ?_
        rw [hshift]
        exact hall (j + 1) (by omega)

/-- Looking at one entry, and going on with `rest` if it is not the table. -/
theorem entry_yields {sig : List Nat} (hsig : IsSig sig) (header : Nat) {rest : Except Stop Nat}
    {c : Prop} {v : Nat} (hrest : Yields rest c v) :
    Yields (do
        let named ← acpiValidateSig s.read header sig
        if named then do
          let summed ← acpiValidateChecksum s.read header
          if summed then .ok header else rest
        else rest)
      (TableCovered s sig header ∧ (¬ IsTable s.mem sig header → c))
      (if IsTable s.mem sig header then header else v) := by
  have hcheck := acpiValidateSig_yields (s := s) hsig header
  -- first the signature, and the sum only where it is right
  by_cases hnamed : Named s.mem sig header
  · have hsum := acpiValidateChecksum_yields (s := s) header
    by_cases hzero : byteSum s.mem header (tableLength s.mem header) = 0
    · have htable : IsTable s.mem sig header := ⟨hnamed, hzero⟩
      rw [decide_eq_true hnamed] at hcheck
      rw [decide_eq_true hzero] at hsum
      rw [if_pos htable]
      refine (hcheck.bind fun _ => hsum.bind fun _ => .ok header).congr ?_
      simp [TableCovered, hnamed, htable]
    · have htable : ¬ IsTable s.mem sig header := fun h => hzero h.2
      rw [decide_eq_true hnamed] at hcheck
      rw [decide_eq_false hzero] at hsum
      rw [if_neg htable]
      refine (hcheck.bind fun _ => hsum.bind fun _ => hrest).congr ?_
      simp [TableCovered, hnamed, htable, and_assoc]
  · have htable : ¬ IsTable s.mem sig header := fun h => hnamed h.1
    rw [decide_eq_false hnamed] at hcheck
    rw [if_neg htable]
    refine (hcheck.bind fun _ => hrest).congr ?_
    simp [TableCovered, hnamed, htable]

theorem findFrom_yields {sig : List Nat} (hsig : IsSig sig) (xsdt n i : Nat) :
    Yields (findFrom s.read xsdt sig n i) (EntriesCovered s xsdt sig n i)
      (firstTable s.mem xsdt sig n i) := by
  induction n generalizing i with
  | zero =>
      exact (Yields.ok 0).congr ⟨fun _ => trivial, fun _ k hk => absurd hk (Nat.not_lt_zero k)⟩
  | succ n ih =>
      have hread : Yields (s.read (xsdt + SDT_HEADER + 8 * i) 8)
          (s.Covers (xsdt + SDT_HEADER + 8 * i) 8) (entryAt s.mem xsdt i) := s.read_yields _ 8
      have hentry := entry_yields (s := s) hsig (entryAt s.mem xsdt i) (ih (i + 1))
      rw [findFrom, firstTable]
      refine Yields.congr (hread.bind fun _ => hentry) ?_
      rw [entriesCovered_succ, and_assoc]

/-- What `acpi_find_tbl` reads. -/
def SearchCovered (s : Space) (xsdt : Nat) (sig : List Nat) : Prop :=
  s.Covers (xsdt + 4) 4 ∧ EntriesCovered s xsdt sig (numEntries s.mem xsdt) 0

theorem acpiFindTbl_yields {acpi : AcpiInst} (hv2 : acpi.isV2 = true) {sig : List Nat}
    (hsig : IsSig sig) :
    Yields (acpiFindTbl s.read acpi sig) (SearchCovered s acpi.xsdt sig)
      (tableOf s.mem acpi.xsdt sig) := by
  rw [acpiFindTbl, if_neg (by simp [hv2])]
  refine (s.read_yields (acpi.xsdt + 4) 4).bind fun _ => ?_
  rw [tableOf, numEntries, tableLength]
  exact findFrom_yields hsig _ _ _

/-! ## Records

The records are numbered, each starting where the length of the one before says. The number of a
record says how far the loop has come, which makes the states of the loop a sequence that does not
depend on where it stops.
-/

/-- Record `i` of the MADT, whatever follows the records before it. -/
def recordAt (m : Memory) (madt : Nat) : Nat → Nat
  | 0 => madt + MADT_RECORDS
  | i + 1 => recordAt m madt i + recordLength m (recordAt m madt i)

/-- The first `n` records. -/
def recordsOf (m : Memory) (madt n : Nat) : List Nat := (List.range n).map (recordAt m madt)

/-- The loop ends after `n` records. -/
structure EndsAfter (m : Memory) (madt n : Nat) : Prop where
  inside : ∀ i, i < n → recordAt m madt i < madt + tableLength m madt
  past : madt + tableLength m madt ≤ recordAt m madt n

/-- What the loop reads of the MADT. -/
def MadtCovered (s : Space) (madt : Nat) : Prop :=
  s.Covers (madt + 4) 4 ∧
    ∀ i, recordAt s.mem madt i < madt + tableLength s.mem madt → s.Covers (recordAt s.mem madt i) 2

variable {m : Memory} {madt : Nat}

theorem recordAt_mono {i j : Nat} (h : i ≤ j) : recordAt m madt i ≤ recordAt m madt j := by
  induction h with
  | refl => exact Nat.le_refl _
  | step _ ih => exact Nat.le_trans ih (Nat.le_add_right _ _)

/-- Behind a record of length 0 there is no other. -/
theorem recordAt_stuck {i j : Nat} (hzero : recordLength m (recordAt m madt i) = 0) (h : i ≤ j) :
    recordAt m madt j = recordAt m madt i := by
  induction h with
  | refl => rfl
  | step _ ih => rw [recordAt, ih, hzero, Nat.add_zero]

/-- Before a record that was not visited yet, no record has length 0. -/
theorem long_of_new {n : Nat} (hnew : ∀ i, i < n → recordAt m madt i ≠ recordAt m madt n) (i : Nat)
    (hi : i < n) : recordLength m (recordAt m madt i) ≠ 0 :=
  fun hzero => hnew i hi (recordAt_stuck hzero (Nat.le_of_lt hi)).symm

/-- The records before took at least one byte each. -/
theorem le_recordAt {n : Nat} (hlong : ∀ i, i < n → recordLength m (recordAt m madt i) ≠ 0) :
    MADT_RECORDS + n ≤ recordAt m madt n := by
  induction n with
  | zero => exact Nat.le_add_left _ _
  | succ n ih =>
      have hbelow := ih fun i hi => hlong i (by omega)
      have hlast := hlong n (Nat.lt_succ_self n)
      rw [recordAt]
      omega

/-- One iteration, with all of memory. -/
def nextWalk (m : Memory) (w : Walk) : Walk :=
  let seen := { w with visited := w.visited ++ [w.ptr] }
  let put := match MadtKind.ofType (load m w.ptr 1) with
    | some kind => seen.put kind
    | none => seen
  { put with ptr := w.ptr + recordLength m w.ptr }

theorem covers_two (s : Space) (p : Nat) : s.Covers p 2 ↔ s.Covers p 1 ∧ s.Covers (p + 1) 1 := by
  rw [s.covers_bytes p 2, Nat.forall_lt_succ_right, Nat.forall_lt_succ_right, and_congr_left_iff]
  intro _
  exact and_iff_right fun i hi => absurd hi (Nat.not_lt_zero i)

/-- One iteration reads the type of a record and its length. -/
theorem madtStep_yields_of {read : Reader} {w : Walk} {c d : Prop}
    (htype : Yields (read w.ptr 1) c (load m w.ptr 1))
    (hlength : Yields (read (w.ptr + 1) 1) d (load m (w.ptr + 1) 1)) :
    Yields (madtStep read w) (c ∧ d) (nextWalk m w) := by
  rw [madtStep, nextWalk]
  refine htype.bind fun _ => ?_
  cases MadtKind.ofType (load m w.ptr 1) with
  | some kind => exact hlength.map _
  | none => exact hlength.map _

theorem madtStep_yields (s : Space) (w : Walk) :
    Yields (madtStep s.read w) (s.Covers w.ptr 2) (nextWalk s.mem w) :=
  (madtStep_yields_of (s.read_yields w.ptr 1) (s.read_yields (w.ptr + 1) 1)).congr
    (covers_two s w.ptr)

/-- The state before the first record. -/
def walkStart (madt : Nat) : Walk := ⟨madt + MADT_RECORDS, fun _ => [], [], []⟩

/-- After `n` iterations the loop is at record `n`, and has sorted the records before it. -/
theorem nextWalk_iterate (m : Memory) (madt n : Nat) :
    ((nextWalk m)^[n] (walkStart madt)).ptr = recordAt m madt n ∧
      Walked m (recordsOf m madt n) ((nextWalk m)^[n] (walkStart madt)) := by
  induction n with
  | zero =>
      refine ⟨rfl, rfl, fun _ => rfl, fun kind i => ?_⟩
      exact ⟨fun hmem => absurd hmem List.not_mem_nil, fun hlt => absurd hlt (Nat.not_lt_zero _)⟩
  | succ n ih =>
      obtain ⟨hptr, hwalked⟩ := ih
      obtain ⟨w, hstep, hnext, hwalked'⟩ := madtStep_spec hwalked
      have hall : madtStep (plain m) ((nextWalk m)^[n] (walkStart madt)) =
          .ok (nextWalk m ((nextWalk m)^[n] (walkStart madt))) := by
        rw [← everywhere_read m]
        exact (madtStep_yields (everywhere m) _).inside fun _ _ => rfl
      obtain rfl : w = _ := Except.ok.inj (hstep.symm.trans hall)
      rw [Function.iterate_succ_apply', recordsOf, List.range_succ, List.map_append]
      rw [hptr] at hnext hwalked'
      exact ⟨hnext, hwalked'⟩

/-- The loop of `acpi_init_madt`, up to an address. -/
abbrev walkTo (step : Walk → Except Stop Walk) (madt stop : Nat) : Except Stop Walk :=
  whileLoop (.fault .neverEnds) (fun w => decide (w.ptr < stop)) step (stop + 1) (walkStart madt)

/-- The loop is still running at record `i`. -/
theorem walk_running (m : Memory) (madt stop i : Nat) :
    decide (((nextWalk m)^[i] (walkStart madt)).ptr < stop) = true ↔ recordAt m madt i < stop := by
  rw [decide_eq_true_iff, (nextWalk_iterate m madt i).1]

/-- The state after `n` records. -/
def walkAt (m : Memory) (madt n : Nat) : Walk := (nextWalk m)^[n] (walkStart madt)

theorem walkAt_succ (m : Memory) (madt n : Nat) :
    walkAt m madt (n + 1) = nextWalk m (walkAt m madt n) :=
  Function.iterate_succ_apply' _ _ _

theorem walkAt_ptr (m : Memory) (madt n : Nat) : (walkAt m madt n).ptr = recordAt m madt n :=
  (nextWalk_iterate m madt n).1

section Walking

variable {step : Walk → Except Stop Walk} {stop : Nat}

/-- A MADT that is within reach is walked as if all of memory were. -/
theorem walk_inside (hall : ∀ i, recordAt m madt i < stop →
      step (walkAt m madt i) = .ok (walkAt m madt (i + 1))) :
    walkTo step madt stop = walkTo (fun w => .ok (nextWalk m w)) madt stop := by
  refine whileLoop_inside _ _ fun i hrunning => ?_
  have hstep := hall i ((walk_running m madt stop i).mp (hrunning i (Nat.le_refl i)))
  rwa [walkAt_succ] at hstep

/-- The first record that the loop does not get over stops the walk. -/
theorem walk_outside {i : Nat} {err : Stop} (hlt : recordAt m madt i < stop)
    (hbefore : ∀ j, j < i → step (walkAt m madt j) = .ok (walkAt m madt (j + 1)))
    (hout : step (walkAt m madt i) = .error err) (hfuel : i ≤ stop) :
    walkTo step madt stop = .error err := by
  refine whileLoop_outside (i := i) (fun j hj => ?_) (fun j hj => ?_) hout (by omega)
  · rw [walk_running]
    exact Nat.lt_of_le_of_lt (recordAt_mono hj) hlt
  · have hstep := hbefore j hj
    rwa [walkAt_succ] at hstep

variable {read : Reader} (reach : Nat → Prop)

/-- So does the first record out of reach. -/
theorem walk_unmapped (hstep : ∀ w, Yields (madtStep read w) (reach w.ptr) (nextWalk m w))
    (hout : ∃ i, recordAt m madt i < stop ∧ ¬ reach (recordAt m madt i)) :
    walkTo (madtStep read) madt stop = .error .unmapped := by
  classical
  obtain ⟨hlt, hnot⟩ := Nat.find_spec hout
  have hmin (j : Nat) (hj : j < Nat.find hout) : reach (recordAt m madt j) := by
    by_contra hj'
    refine Nat.find_min hout hj ⟨?_, hj'⟩
    exact Nat.lt_of_le_of_lt (recordAt_mono (Nat.le_of_lt hj)) hlt
  -- it is a record that was not visited before, so the fuel lasts until there
  have hfuel : MADT_RECORDS + Nat.find hout ≤ recordAt m madt (Nat.find hout) :=
    le_recordAt (long_of_new fun j hj heq => hnot (heq ▸ hmin j hj))
  refine walk_outside hlt (fun j hj => ?_) ((hstep _).outside ?_) (by omega)
  · rw [walkAt_succ]
    exact (hstep _).inside ((walkAt_ptr m madt j).symm ▸ hmin j hj)
  · rwa [walkAt_ptr]

end Walking

/-- A walk that ends. -/
theorem walk_ends {n : Nat} (h : EndsAfter m madt n) :
    walkTo (fun w => .ok (nextWalk m w)) madt (madt + tableLength m madt) =
      .ok (walkAt m madt n) := by
  have hlong := long_of_new fun i hi => Nat.ne_of_lt (Nat.lt_of_lt_of_le (h.inside i hi) h.past)
  refine whileLoop_iterate (fun j hj => ?_) ?_ ?_
  · rw [walk_running]
    exact h.inside j hj
  · rw [decide_eq_false_iff_not, (nextWalk_iterate m madt n).1]
    exact Nat.not_lt.mpr h.past
  · cases n with
    | zero => exact Nat.zero_le _
    | succ n =>
        have hlast := h.inside n (Nat.lt_succ_self n)
        have hbelow : MADT_RECORDS + n ≤ recordAt m madt n := le_recordAt fun i hi => hlong i (Nat.lt_succ_of_lt hi)
        omega

theorem endsAfter_unique {n k : Nat} (h : EndsAfter m madt n) (h' : EndsAfter m madt k) : n = k := by
  rcases Nat.lt_trichotomy n k with hlt | heq | hgt
  · exact absurd (h'.inside n hlt) (Nat.not_lt.mpr h.past)
  · exact heq
  · exact absurd (h.inside k hgt) (Nat.not_lt.mpr h'.past)

/-- A walk that does not end. -/
theorem walk_endless (h : ∀ n, ¬ EndsAfter m madt n) :
    walkTo (fun w => .ok (nextWalk m w)) madt (madt + tableLength m madt) =
      .error (.fault .neverEnds) := by
  refine whileLoop_never fun j => ?_
  rw [walk_running]
  induction j using Nat.strongRecOn with
  | ind j ih =>
      refine Nat.lt_of_not_le fun hpast => h j ⟨fun i hi => ih i hi, hpast⟩

/-! ## Tables of their size

The same loop with a table of 32 slots for each type. It stops at the first record that is out of
reach or for which there is no slot. The fuel lasts until then, although the loop may be stuck at
one record: it is put into its table at most 33 times.
-/

/-- No table gets more records than it has slots, as far as the walk goes. -/
def SlotsSuffice (m : Memory) (madt : Nat) : Prop :=
  ∀ n, (∀ i, i < n → recordAt m madt i < madt + tableLength m madt) →
    ∀ kind, (ofKind m kind (recordsOf m madt n)).length ≤ TBL_SLOTS

theorem walkAt_fits (m : Memory) (madt n : Nat) :
    (walkAt m madt n).Fits ↔ ∀ kind, (ofKind m kind (recordsOf m madt n)).length ≤ TBL_SLOTS := by
  have hstores := (nextWalk_iterate m madt n).2.stores
  constructor
  · intro h kind
    refine Nat.le_of_not_lt fun hlt => ?_
    exact Nat.lt_irrefl _ (h (kind, TBL_SLOTS) ((hstores kind TBL_SLOTS).mpr hlt))
  · rintro h ⟨kind, i⟩ hstore
    exact Nat.lt_of_lt_of_le ((hstores kind i).mp hstore) (h kind)

theorem recordsOf_succ (m : Memory) (madt n : Nat) :
    recordsOf m madt (n + 1) = recordsOf m madt n ++ [recordAt m madt n] := by
  rw [recordsOf, List.range_succ, List.map_append]
  rfl

/-- A table that overflows at a record has that record's type. -/
theorem overflow_kind {n : Nat} (hbefore : (walkAt m madt n).Fits)
    (hover : ¬ (walkAt m madt (n + 1)).Fits) : ∃ kind,
      MadtKind.ofType (load m (recordAt m madt n) 1) = some kind ∧
        (ofKind m kind (recordsOf m madt n)).length = TBL_SLOTS := by
  rw [walkAt_fits] at hbefore hover
  obtain ⟨kind, hlong⟩ := not_forall.mp hover
  have hle := hbefore kind
  rw [recordsOf_succ, ofKind_snoc] at hlong
  split at hlong
  · next hkind =>
    rw [List.length_append, List.length_singleton] at hlong
    exact ⟨kind, hkind, by omega⟩
  · exact absurd hle hlong

/-- A record that the walk does not leave is put into its table again and again. -/
theorem length_stuck {i n : Nat} {kind : MadtKind}
    (hzero : recordLength m (recordAt m madt i) = 0)
    (hkind : MadtKind.ofType (load m (recordAt m madt i) 1) = some kind) (hle : i ≤ n) :
    n - i ≤ (ofKind m kind (recordsOf m madt n)).length := by
  induction n, hle using Nat.le_induction with
  | base => omega
  | succ n hle ih =>
      rw [recordsOf_succ, ofKind_snoc, recordAt_stuck hzero hle, if_pos hkind, List.length_append,
        List.length_singleton]
      omega

/-- The fuel lasts until the first table overflows: either each record so far took a byte, or the
walk is stuck at one of them, for no more times than a table has slots. -/
theorem overflow_le {n : Nat} (hbefore : (walkAt m madt n).Fits)
    (hover : ¬ (walkAt m madt (n + 1)).Fits) : n ≤ recordAt m madt n := by
  classical
  obtain ⟨kind, hkind, hfull⟩ := overflow_kind hbefore hover
  by_cases hlong : ∀ i, i < n → recordLength m (recordAt m madt i) ≠ 0
  · have := le_recordAt hlong
    omega
  · have hstuck : ∃ i, i < n ∧ recordLength m (recordAt m madt i) = 0 := by
      simpa only [not_forall, exists_prop, not_not] using hlong
    obtain ⟨hlt, hzero⟩ := Nat.find_spec hstuck
    have hsame := recordAt_stuck hzero (Nat.le_of_lt hlt)
    have hcount := length_stuck hzero (hsame ▸ hkind) (Nat.le_of_lt hlt)
    have hpassed : MADT_RECORDS + Nat.find hstuck ≤ recordAt m madt (Nat.find hstuck) :=
      le_recordAt fun i hi hnone => Nat.find_min hstuck hi ⟨Nat.lt_trans hi hlt, hnone⟩
    rw [hfull] at hcount
    rw [hsame]
    have hroom : TBL_SLOTS ≤ MADT_RECORDS := by decide
    omega

/-- The slots suffice if the tables fit after each record on the way. -/
theorem slotsSuffice_iff : SlotsSuffice m madt ↔
    ∀ i, recordAt m madt i < madt + tableLength m madt → (walkAt m madt (i + 1)).Fits := by
  constructor
  · intro h i hlt
    rw [walkAt_fits]
    exact h (i + 1) fun j hj =>
      Nat.lt_of_le_of_lt (recordAt_mono (Nat.le_of_lt_succ hj)) hlt
  · intro h n hinside
    rw [← walkAt_fits]
    cases n with
    | zero =>
        intro store hstore
        cases hstore
    | succ n => exact h n (hinside n (Nat.lt_succ_self n))

/-- One iteration: its reads, then its store. -/
theorem madtStepWithin_walkAt (s : Space) (madt i : Nat) :
    madtStepWithin s.read (walkAt s.mem madt i) =
      if s.Covers (recordAt s.mem madt i) 2 then
        if (walkAt s.mem madt (i + 1)).Fits then .ok (walkAt s.mem madt (i + 1))
        else .error (.fault .outOfBounds)
      else .error .unmapped := by
  have hstep := madtStep_yields s (walkAt s.mem madt i)
  rw [walkAt_ptr, ← walkAt_succ] at hstep
  rw [madtStepWithin]
  split
  · next hcovered => rw [hstep.inside hcovered, ok_seq]
  · next hcovered => rw [hstep.outside hcovered, error_seq]

/-- The first record that is out of reach, or for which there is no slot, stops the walk. -/
theorem walkWithin_stops (s : Space) {madt stop : Nat}
    (hbad : ¬ ∀ i, recordAt s.mem madt i < stop →
      s.Covers (recordAt s.mem madt i) 2 ∧ (walkAt s.mem madt (i + 1)).Fits) :
    -- the first record that is not covered, or has no slot left
    ∃ err, Astray err ∧ walkTo (madtStepWithin s.read) madt stop = .error err := by
  classical
  have hfirst : ∃ i, recordAt s.mem madt i < stop ∧
      ¬ (s.Covers (recordAt s.mem madt i) 2 ∧ (walkAt s.mem madt (i + 1)).Fits) := by
    simpa only [not_forall, exists_prop] using hbad
  obtain ⟨hlt, hnot⟩ := Nat.find_spec hfirst
  have hmin (j : Nat) (hj : j < Nat.find hfirst) :
      s.Covers (recordAt s.mem madt j) 2 ∧ (walkAt s.mem madt (j + 1)).Fits := by
    by_contra hj'
    refine Nat.find_min hfirst hj ⟨?_, hj'⟩
    exact Nat.lt_of_le_of_lt (recordAt_mono (Nat.le_of_lt hj)) hlt
  generalize Nat.find hfirst = n at hlt hnot hmin
  have hbefore (j : Nat) (hj : j < n) :
      madtStepWithin s.read (walkAt s.mem madt j) = .ok (walkAt s.mem madt (j + 1)) := by
    rw [madtStepWithin_walkAt, if_pos (hmin j hj).1, if_pos (hmin j hj).2]
  -- the walk has come there: its tables were large enough up to this record
  by_cases hcovered : s.Covers (recordAt s.mem madt n) 2
  · have hover : ¬ (walkAt s.mem madt (n + 1)).Fits := fun hfits => hnot ⟨hcovered, hfits⟩
    have hfits : (walkAt s.mem madt n).Fits := by
      cases n with
      | zero =>
          intro store hstore
          cases hstore
      | succ n => exact (hmin n (Nat.lt_succ_self n)).2
    have hfuel := overflow_le hfits hover
    refine ⟨_, .inr rfl, walk_outside hlt hbefore ?_ (by omega)⟩
    rw [madtStepWithin_walkAt, if_pos hcovered, if_neg hover]
  · -- it is a record that was not visited before, so the fuel lasts until there
    have hfuel := le_recordAt (long_of_new fun j hj heq => hcovered (heq ▸ (hmin j hj).1))
    refine ⟨_, .inl rfl, walk_outside hlt hbefore ?_ (by omega)⟩
    rw [madtStepWithin_walkAt, if_neg hcovered]

/-- `acpi_init_madt`'s loop reads the MADT record by record and stores each into its table, and what
comes after it starts from the records up to the end, if there is one. -/
theorem madtWalkWithin_stays {α : Type} (s : Space) (madt : Nat) (f : Walk → Except Stop α) :
    Stays (madtWalkWithin s.read madt >>= f) ↔
      MadtCovered s madt ∧ SlotsSuffice s.mem madt ∧
        ∀ n, EndsAfter s.mem madt n → Stays (f (walkAt s.mem madt n)) := by
  have hread := s.read_yields (madt + 4) 4
  -- the length of the table is read before anything else
  by_cases hlength : s.Covers (madt + 4) 4
  · have hwalk : madtWalkWithin s.read madt =
        walkTo (madtStepWithin s.read) madt (madt + tableLength s.mem madt) := by
      rw [madtWalkWithin, hread.inside hlength, ok_seq]
      rfl
    rw [hwalk]
    by_cases hall : ∀ i, recordAt s.mem madt i < madt + tableLength s.mem madt →
        s.Covers (recordAt s.mem madt i) 2 ∧ (walkAt s.mem madt (i + 1)).Fits
    · have hcovered : MadtCovered s madt := ⟨hlength, fun i hi => (hall i hi).1⟩
      have hslots : SlotsSuffice s.mem madt := slotsSuffice_iff.mpr fun i hi => (hall i hi).2
      have hplain := walk_inside fun i hi => (madtStepWithin_walkAt s madt i).trans
        ((if_pos (hall i hi).1).trans (if_pos (hall i hi).2))
      rw [hplain, and_iff_right hcovered, and_iff_right hslots]
      -- the records come to the end of the table
      by_cases hends : ∃ n, EndsAfter s.mem madt n
      · obtain ⟨n, hn⟩ := hends
        rw [walk_ends hn, ok_seq]
        constructor
        · intro h k hk
          rwa [endsAfter_unique hk hn]
        · intro h
          exact h n hn
      · -- or they never do, and the walk goes on within reach for ever
        have hnone (n : Nat) : ¬ EndsAfter s.mem madt n := fun hn => hends ⟨n, hn⟩
        rw [walk_endless hnone, error_seq]
        constructor
        · intro _ n hn
          exact absurd hn (hnone n)
        · intro _
          exact stays_fault (by decide)
    · -- some record is not covered, or one too many of its type
      obtain ⟨err, hastray, hstop⟩ := walkWithin_stops s hall
      rw [hstop, error_seq]
      refine ⟨fun h => absurd hastray (stays_error.mp h), fun h => absurd ?_ hall⟩
      exact fun i hi => ⟨h.1.2 i hi, slotsSuffice_iff.mp h.2.1 i hi⟩
  · rw [madtWalkWithin, hread.outside hlength, error_seq, error_seq]
    exact ⟨fun h => absurd h not_stays_unmapped, fun h => absurd h.1.1 hlength⟩

end Twos.Acpi
