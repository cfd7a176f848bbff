import Twos.Acpi.Reach

/-!
# Looking up a table

`acpi_find_tbl` returns the first table of the root table that has the signature and whose bytes add up
to zero. A signature is compared by `strncmp`, which returns 0 only when it has been through all four
characters: it cannot stop at a NUL before, since the signature that is looked for has none.

`Acpi.Reach` has run the code already, and what it computes is `firstTable`. So `firstTable_spec` is
what is left: by induction on the entries, it is the first one that matches, or 0 if none does. The
entries of the root table are not null here. `acpi_validate_sig` lets a null entry pass, as it does a
table with the right name.
-/

namespace Twos.Acpi

open Lib Kstd

variable {m : Memory} {xsdt k n i : Nat} {sig : List Nat}

/-- The four bytes of a table's signature. -/
def HasSignature (m : Memory) (sig : List Nat) (header : Nat) : Prop :=
  ∀ c, c < SDT_SIG_LEN → load m (header + c) 1 = sig.getD c 0

/-- The bytes of a table, as many as it says it has, add up to zero modulo 256. -/
def SumsToZero (m : Memory) (header : Nat) : Prop :=
  ((List.range (tableLength m header)).map fun i => load m (header + i) 1).sum % 256 = 0

/-- The table that a signature stands for. -/
def IsMatch (m : Memory) (sig : List Nat) (header : Nat) : Prop :=
  HasSignature m sig header ∧ SumsToZero m header

instance (m : Memory) (sig : List Nat) (header : Nat) : Decidable (HasSignature m sig header) :=
  inferInstanceAs (Decidable (∀ _, _))

instance (m : Memory) (header : Nat) : Decidable (SumsToZero m header) :=
  inferInstanceAs (Decidable (_ = _))

instance (m : Memory) (sig : List Nat) (header : Nat) : Decidable (IsMatch m sig header) :=
  inferInstanceAs (Decidable (_ ∧ _))

/-- A root table with `k` entries, each of which points to a table. -/
structure IsXsdt (m : Memory) (xsdt k : Nat) : Prop where
  length : tableLength m xsdt = SDT_HEADER + 8 * k
  tables : ∀ i, i < k → entryAt m xsdt i ≠ 0

/-- Four characters, none of which is the NUL. -/
structure IsSignature (sig : List Nat) : Prop where
  length : sig.length = SDT_SIG_LEN
  noNul : 0 ∉ sig

theorem IsSignature.isSig (h : IsSignature sig) : IsSig sig := by
  intro c hc
  rw [← h.length] at hc
  rw [List.getD_eq_getElem _ _ hc]
  exact fun hzero => h.noNul (hzero ▸ List.getElem_mem hc)

/-- The running sum of the checksum is the sum, reduced at the end. -/
theorem byteSum_eq (m : Memory) (p n : Nat) :
    byteSum m p n = ((List.range n).map fun i => load m (p + i) 1).sum % 256 := by
  induction n with
  | zero => rfl
  | succ n ih =>
      have hlast : byteSum m p (n + 1) = (byteSum m p n + load m (p + n) 1) % 256 := by
        rw [byteSum, List.range_succ, List.foldl_append]
        rfl
      rw [hlast, ih, List.range_succ, List.map_append, List.sum_append, List.map_singleton,
        List.sum_singleton, Nat.mod_add_mod]

/-- The checks of `acpi_find_tbl`, for a table that is there. -/
theorem isTable_iff {header : Nat} (hne : header ≠ 0) :
    IsTable m sig header ↔ IsMatch m sig header := by
  rw [IsTable, IsMatch, Named, or_iff_right hne, byteSum_eq]
  exact Iff.rfl

/-- The search finds the first match among `n` entries from entry `i` on, or none. -/
theorem firstTable_spec (h : ∀ j, i ≤ j → j < i + n → entryAt m xsdt j ≠ 0) :
    (firstTable m xsdt sig n i = 0 ∧ ∀ j, i ≤ j → j < i + n → ¬ IsMatch m sig (entryAt m xsdt j)) ∨
      ∃ j, i ≤ j ∧ j < i + n ∧ firstTable m xsdt sig n i = entryAt m xsdt j ∧
        IsMatch m sig (entryAt m xsdt j) ∧
        ∀ l, i ≤ l → l < j → ¬ IsMatch m sig (entryAt m xsdt l) := by
  -- the induction is on the entries that are left, from `i` on
  induction n generalizing i with
  | zero =>
      refine Or.inl ⟨rfl, fun j hlo hhi => ?_⟩
      omega
  | succ n ih =>
      have hfirst := @isTable_iff m sig _ (h i (Nat.le_refl i) (by omega))
      rw [firstTable]
      by_cases hmatch : IsMatch m sig (entryAt m xsdt i)
      · rw [if_pos (hfirst.mpr hmatch)]
        refine Or.inr ⟨i, Nat.le_refl i, by omega, rfl, hmatch, fun l hlo hhi => ?_⟩
        omega
      · rw [if_neg (hfirst.not.mpr hmatch)]
        -- what is said of the entries behind the first holds of all of them
        have hbefore {P : Nat → Prop} (hrest : ∀ l, i + 1 ≤ l → P l → ¬ IsMatch m sig (entryAt m xsdt l))
            (l : Nat) (hl : i ≤ l) (hP : P l) : ¬ IsMatch m sig (entryAt m xsdt l) := by
          rcases Nat.eq_or_lt_of_le hl with rfl | hlt
          · exact hmatch
          · exact hrest l hlt hP
        rcases @ih (i + 1) fun j hlo hhi => h j (by omega) (by omega) with ⟨hnone, hrest⟩ |
          ⟨j, hlo, hhi, hfound, hj, hrest⟩
        · exact Or.inl ⟨hnone, hbefore fun l hl hlt => hrest l hl (by omega)⟩
        · exact Or.inr ⟨j, by omega, by omega, hfound, hj, hbefore hrest⟩

/-- For every root table with any tables in it and every signature, `acpi_find_tbl` returns the first
table, in the order of the root table, that has the four bytes of the signature and a sum of zero, and
it returns the null pointer exactly when there is none. -/
theorem acpiFindTbl_exact {acpi : AcpiInst} (hv2 : acpi.isV2 = true) (hxsdt : IsXsdt m acpi.xsdt k)
    (hsig : IsSignature sig) :
    ∃ entry, acpiFindTbl (plain m) acpi sig = .ok entry ∧
      (entry = 0 ↔ ∀ i, i < k → ¬ IsMatch m sig (entryAt m acpi.xsdt i)) ∧
      (entry ≠ 0 → ∃ i, i < k ∧ entry = entryAt m acpi.xsdt i ∧
        IsMatch m sig (entryAt m acpi.xsdt i) ∧
        ∀ j, j < i → ¬ IsMatch m sig (entryAt m acpi.xsdt j)) := by
  have hrun : acpiFindTbl (plain m) acpi sig = .ok (tableOf m acpi.xsdt sig) := by
    rw [← everywhere_read]
    -- everywhere is covered, so nothing is refused
    refine (acpiFindTbl_yields hv2 hsig.isSig).inside ⟨fun _ _ => rfl, fun _ _ _ => ⟨fun _ _ => rfl, ?_⟩⟩
    exact ⟨fun _ _ _ _ _ _ => rfl, fun _ => ⟨fun _ _ => rfl, fun _ _ => rfl⟩⟩
  have hcount : numEntries m acpi.xsdt = k := by
    have hlt : tableLength m acpi.xsdt < 2 ^ 32 := load_lt m (acpi.xsdt + 4) 4
    have hlength := hxsdt.length
    rw [numEntries]
    lia
  refine ⟨_, hrun, ?_⟩
  rw [tableOf, hcount]
  rcases @firstTable_spec m acpi.xsdt k 0 sig fun j _ hj => hxsdt.tables j (by omega) with
    ⟨hnone, hrest⟩ | ⟨j, -, hhi, hfound, hj, hrest⟩
  · -- no match, and the answer is 0, which no entry is
    rw [hnone]
    refine ⟨⟨fun _ i hi => hrest i (Nat.zero_le i) (by omega), fun _ => rfl⟩, fun hne => ?_⟩
    exact absurd rfl hne
  · -- the first match is the answer
    have hj0 : j < k := by omega
    rw [hfound]
    refine ⟨⟨fun hzero => absurd hzero (hxsdt.tables j hj0), fun hall => absurd hj (hall j hj0)⟩,
      fun _ => ⟨j, hj0, rfl, hj, fun l hl => hrest l (Nat.zero_le l) hl⟩⟩

/-- The MADT is found behind three tables that are not it. -/
theorem acpiFindTbl_exact_usual :
    acpiFindTbl (plain usualTables) ⟨true, 4096, 0, fun _ => []⟩ SIG_APIC = .ok 5120 ∧
      IsMatch usualTables SIG_APIC 5120 ∧
      ∀ j, j < 3 → ¬ IsMatch usualTables SIG_APIC (entryAt usualTables 4096 j) := by
  have hxsdt : IsXsdt usualTables 4096 4 := ⟨by decide +kernel, by decide +kernel⟩
  have hlast : entryAt usualTables 4096 3 = 5120 := by decide +kernel
  have hmatch : IsMatch usualTables SIG_APIC (entryAt usualTables 4096 3) := by decide +kernel
  have hothers : ∀ j, j < 3 → ¬ IsMatch usualTables SIG_APIC (entryAt usualTables 4096 j) := by
    decide +kernel
  obtain ⟨entry, hrun, hnone, hsome⟩ := @acpiFindTbl_exact usualTables 4 SIG_APIC
    ⟨true, 4096, 0, fun _ => []⟩ rfl hxsdt ⟨rfl, by decide⟩
  obtain ⟨i, hi, hentry, hfound, -⟩ := hsome fun hzero => hnone.mp hzero 3 (by decide) hmatch
  have hthird : i = 3 := by
    have hlow : ¬ i < 3 := fun hlt => hothers i hlt hfound
    omega
  subst hthird
  exact ⟨by rw [hrun, hentry, hlast], hlast ▸ hmatch, hothers⟩

end Twos.Acpi
