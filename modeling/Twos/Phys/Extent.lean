import Twos.Phys.Import

/-!
# The extent of the bitmap

The bitmap has words for 64 GiB, and `physmem_init` takes its size and its indices from the boot
loader's memory map without comparing them to that. So there are maps for which it writes beyond
the array, and maps of so little memory that `mm_end` is zero, which `get_phys` divides by. In the
model both stop the routine; `WithinBitmap` is the condition under which neither happens.

* `setRange_beyond` is an entry that ends above the bitmap: `set_phys` leaves the array on the way.
* `importMap_outcome` goes through the entries, and `physmemInit_outcome` adds the loop that fills
  the words and the calls at the end.
* `physmemInit_contained_iff` reads it as an equivalence, and `physmemInit_not_contained` has a map
  for each of the three ways to fail it.
-/

namespace Twos.Phys

open Lib

/-- `physmem.end`: where available memory ends, up to a page. -/
def endAvail (map : List MmapEntry) : Nat := roundUpToPage (highestAvail map)

/-- The entries that are imported: those before the first one that starts above the end. -/
def imported (end_ : Nat) (map : List MmapEntry) : List MmapEntry :=
  map.takeWhile fun e => decide (e.addr ≤ end_)

/-- The pages of an entry, if it has any, have bits. -/
def MmapEntry.Fits (e : MmapEntry) : Prop :=
  roundUpToPage e.addr < roundUpToPage (e.addr + e.len) →
    roundUpToPage (e.addr + e.len) ≤ PAGE_SIZE * PMM_PAGES

/-- The maps that the bitmap is large enough for, and that bring at least one word of it into
use. -/
structure WithinBitmap (map : List MmapEntry) : Prop where
  oneWord : PAGE_SIZE * WORD_BITS ≤ endAvail map
  words : endAvail map < PAGE_SIZE * (PMM_PAGES + WORD_BITS)
  entries : ∀ e ∈ imported (endAvail map) map, e.Fits

instance (e : MmapEntry) : Decidable e.Fits := inferInstanceAs (Decidable (_ → _))

/-! ## Ranges that leave the bitmap

The loops of `physmem_init` go upwards, so each of them stops at the first page beyond the bitmap,
or not at all. `setRange_entry` is the loop over one entry and `importMap_outcome` the loop over the
map; that the divisor of the closing percentage is not zero is the last condition.
-/

theorem roundUpToPage_dvd (x : Nat) : PAGE_SIZE ∣ roundUpToPage x := by
  apply Nat.dvd_of_mod_eq_zero
  unfold roundUpToPage
  split
  · assumption
  · rw [Nat.mod_mod_of_dvd _ (by decide)]
    have hlt : x % PAGE_SIZE < PAGE_SIZE := Nat.mod_lt _ (by decide)
    rw [Nat.add_mod, Nat.add_mod_mod, Nat.add_sub_cancel' (Nat.le_of_lt hlt), Nat.mod_self]

/-- A loop over nothing. -/
theorem setRange_nothing (b : Nat → Bool) {start stop : Nat} (pmm : Pmm) (h : stop ≤ start) :
    setRange b stop start pmm = .ok pmm := by
  have hcond : ¬ decide (start < stop) = true := by simpa using h
  rw [setRange, whileLoop, if_neg hcond, ok_seq]

/-- A loop of `set_phys` whose range ends above the bitmap does not get to its end. -/
theorem setRange_beyond (b : Nat → Bool) {start stop : Nat} (pmm : Pmm) (hstart : PAGE_SIZE ∣ start)
    (hlt : start < stop) (hstop : PAGE_SIZE * PMM_PAGES < stop) :
    setRange b stop start pmm = .error .outOfBounds := by
  have hloop : Outcome (fun _ => False) (fun e => e = Fault.outOfBounds)
      (whileLoop Fault.neverEnds (fun s => decide (s.1 < stop)) (setNext b)
        (WORD / PAGE_SIZE + 1) (start, pmm)) := by
    -- the address never reaches the end of the range, since the bitmap ends first
    refine Outcome.imp (whileLoop_rule (fun s => PAGE_SIZE ∣ s.1 ∧ s.1 < stop)
      (fun e => e = Fault.outOfBounds) (fun s => PMM_PAGES - s.1 / PAGE_SIZE) ⟨hstart, hlt⟩ ?_ ?_)
      ?_ fun _ he => he
    · exact Nat.lt_of_le_of_lt (Nat.sub_le _ _) (by decide)
    · rintro ⟨addr, pmm₁⟩ ⟨⟨p, hp⟩, haddr⟩ -
      dsimp only at hp haddr
      subst hp
      have hpages (q : Nat) : PAGE_SIZE * q / PAGE_SIZE = q := Nat.mul_div_cancel_left q (by decide)
      unfold setNext
      dsimp only
      by_cases hin : p < PMM_PAGES
      · -- a page inside the bitmap is written, and the next address is taken
        have hnext : (PAGE_SIZE * p + PAGE_SIZE) % WORD = PAGE_SIZE * (p + 1) := by
          rw [← Nat.mul_succ]
          exact Nat.mod_eq_of_lt (by lia)
        obtain ⟨pmm₂, hset, -⟩ := setPhys_spec pmm₁ (b (PAGE_SIZE * p)) ((hpages p).symm ▸ hin)
        rw [hset, ok_seq, hnext, outcome_ok]
        dsimp only
        rw [hpages, hpages]
        exact ⟨⟨⟨p + 1, rfl⟩, by lia⟩, by omega⟩
      · -- the first page behind it is not
        have hout : setPhys pmm₁ (PAGE_SIZE * p) (b (PAGE_SIZE * p)) = .error .outOfBounds := by
          unfold setPhys
          dsimp only
          rw [hpages, if_neg (by lia)]
        rw [hout, error_seq, outcome_error]
    · rintro s ⟨⟨-, hs⟩, hexit⟩
      simp [hs] at hexit
  unfold setRange
  cases hrun : whileLoop Fault.neverEnds (fun s => decide (s.1 < stop)) (setNext b)
      (WORD / PAGE_SIZE + 1) (start, pmm) with
  | error e =>
      rw [hrun] at hloop
      rw [error_seq]
      exact congrArg _ hloop
  | ok s =>
      rw [hrun] at hloop
      exact hloop.elim

/-- The loop over an entry returns exactly when the entry fits. -/
theorem setRange_entry (b : Nat → Bool) (e : MmapEntry) (pmm : Pmm) :
    Outcome (fun _ => e.Fits) (fun f => f = .outOfBounds ∧ ¬ e.Fits)
      (setRange b (roundUpToPage (e.addr + e.len)) (roundUpToPage e.addr) pmm) := by
  obtain ⟨a, ha⟩ := roundUpToPage_dvd e.addr
  unfold MmapEntry.Fits
  generalize roundUpToPage (e.addr + e.len) = stop
  rw [ha]
  by_cases hempty : stop ≤ PAGE_SIZE * a
  · rw [setRange_nothing b pmm hempty]
    exact fun hlt => absurd hlt (Nat.not_lt.mpr hempty)
  · by_cases hstop : stop ≤ PAGE_SIZE * PMM_PAGES
    · obtain ⟨pmm', hset, -⟩ := setRange_spec b a pmm hstop
      rw [hset]
      exact fun _ => hstop
    · rw [setRange_beyond b pmm ⟨a, rfl⟩ (by omega) (by omega)]
      exact ⟨rfl, fun hfits => hstop (hfits (by omega))⟩

/-- The second loop returns exactly when every entry that it gets to fits. -/
theorem importMap_outcome (end_ : Nat) {map : List MmapEntry}
    (hwrap : ∀ e ∈ map, e.addr + e.len < WORD) (pmm : Pmm) :
    Outcome (fun _ => ∀ e ∈ imported end_ map, e.Fits)
      (fun f => f = .outOfBounds ∧ ¬ ∀ e ∈ imported end_ map, e.Fits) (importMap end_ map pmm) := by
  induction map generalizing pmm with
  | nil => exact fun e he => absurd he List.not_mem_nil
  | cons e rest ih =>
      unfold importMap imported
      rw [List.takeWhile_cons]
      by_cases habove : e.addr > end_
      · rw [if_pos habove, if_neg (by simpa using habove)]
        exact fun e he => absurd he List.not_mem_nil
      · rw [if_neg habove, if_pos (by simpa using habove), List.forall_mem_cons,
          Nat.mod_eq_of_lt (hwrap e List.mem_cons_self)]
        have hset := setRange_entry e.used e pmm
        show Outcome _ _ (setRange e.used _ _ pmm >>= _)
        cases hrun : setRange e.used (roundUpToPage (e.addr + e.len)) (roundUpToPage e.addr) pmm with
        | error f =>
            rw [hrun] at hset
            exact ⟨hset.1, fun hall => hset.2 hall.1⟩
        | ok pmm₁ =>
            rw [hrun] at hset
            refine (ih (fun f hf => hwrap f (List.mem_cons_of_mem _ hf)) pmm₁).imp ?_ ?_
            · exact fun _ hrest => ⟨hset, hrest⟩
            · exact fun f hf => ⟨hf.1, fun hall => hf.2 hall.2⟩

/-- How many words an end brings into use. -/
theorem words_eq (e : Nat) : (e / PAGE_SIZE + 64) / WORD_BITS - 1 = e / (PAGE_SIZE * WORD_BITS) := by
  rw [← Nat.div_div_eq_div_mul]
  generalize e / PAGE_SIZE = p
  lia

/-- `physmem_init` stops at the first index beyond the bitmap, and at a division by zero. -/
theorem physmemInit_outcome {map : List MmapEntry}
    (hwrap : ∀ e ∈ map, e.addr + e.len < WORD) :
    Outcome (fun _ => WithinBitmap map)
      (fun e => (e = .outOfBounds ∨ e = .divideByZero) ∧ ¬ WithinBitmap map) (physmemInit map) := by
  have htally : (tally map (0, 0)).2 = highestAvail map := by
    rw [tally_snd hwrap]
    exact Nat.zero_max _
  have hend : roundUpToPage (highestAvail map) = endAvail map := rfl
  unfold physmemInit
  simp only [htally, hend, words_eq]
  by_cases hwords : endAvail map / (PAGE_SIZE * WORD_BITS) ≤ PMM_SIZE
  · rw [dif_pos hwords]
    have hlt : endAvail map < PAGE_SIZE * (PMM_PAGES + WORD_BITS) := by
      have := Nat.lt_mul_div_succ (endAvail map) (b := PAGE_SIZE * WORD_BITS) (by decide)
      generalize endAvail map / (PAGE_SIZE * WORD_BITS) = n at *
      lia
    obtain ⟨pmm₁, hfill, -⟩ := fill_spec _ hwords (Vector.replicate PMM_SIZE 0x0101010101010101#64)
    rw [hfill, ok_seq]
    have himport := importMap_outcome (endAvail map) hwrap pmm₁
    cases hrun : importMap (endAvail map) map pmm₁ with
    | error e =>
        -- an entry has left the bitmap
        rw [hrun] at himport
        rw [error_seq]
        exact ⟨.inl himport.1, fun hin => himport.2 hin.entries⟩
    | ok pmm₂ =>
        -- all entries fit, and what is left is the division by `mm_end`
        rw [hrun] at himport
        obtain ⟨pmm₃, hreserve, -⟩ := reserve_spec 16 (Nat.le_refl _) pmm₂
        rw [ok_seq, hreserve, ok_seq]
        have hone : endAvail map / (PAGE_SIZE * WORD_BITS) = 0 ↔
            ¬ PAGE_SIZE * WORD_BITS ≤ endAvail map := by
          rw [Nat.div_eq_zero_iff, Nat.not_le]
          exact or_iff_right (by decide)
        refine (closing_reads _).imp ?_ ?_
        · exact fun _ hs => ⟨Decidable.not_not.mp (hone.not.mp hs.2), hlt, himport⟩
        · exact fun _ he => ⟨.inr he.1, fun hin => hone.mp he.2 hin.oneWord⟩
  · -- the first loop already fills words behind the array
    rw [dif_neg hwords]
    refine ⟨.inl rfl, fun hin => hwords ?_⟩
    have := hin.words
    exact Nat.le_of_lt_succ (Nat.div_lt_of_lt_mul (by lia))

/-- For every map that does not wrap, `physmem_init` returns, with every index within the bitmap and
every divisor nonzero, if and only if the bitmap is large enough for the map and has a word in use.
Otherwise it leaves the bitmap or divides by zero. -/
theorem physmemInit_contained_iff {map : List MmapEntry}
    (hwrap : ∀ e ∈ map, e.addr + e.len < WORD) :
    ((∃ s, physmemInit map = .ok s) ↔ WithinBitmap map) ∧
      ∀ e, physmemInit map = .error e → e = .outOfBounds ∨ e = .divideByZero := by
  have h := physmemInit_outcome hwrap
  cases hrun : physmemInit map with
  | error e =>
      rw [hrun] at h
      refine ⟨⟨?_, fun hin => absurd hin h.2⟩, ?_⟩
      · rintro ⟨s, hs⟩
        cases hs
      · rintro _ ⟨⟩
        exact h.1
  | ok s =>
      rw [hrun] at h
      refine ⟨⟨fun _ => h, fun _ => ⟨s, rfl⟩⟩, ?_⟩
      rintro e ⟨⟩

theorem physmemInit_contained_ragged :
    WithinBitmap raggedMap ∧ ((∃ s, physmemInit raggedMap = .ok s) ↔ WithinBitmap raggedMap) ∧
      ∀ e, physmemInit raggedMap = .error e → e = .outOfBounds ∨ e = .divideByZero :=
  ⟨⟨by decide +kernel, by decide +kernel, by decide +kernel⟩,
    physmemInit_contained_iff (by decide +kernel)⟩

/-- Too little available memory. -/
def tooSmall : List MmapEntry := [⟨0, PAGE_SIZE * 63, MULTIBOOT_MEMORY_AVAILABLE⟩]

/-- Too much of it. -/
def tooLarge : List MmapEntry :=
  [⟨0, PAGE_SIZE * (PMM_PAGES + WORD_BITS), MULTIBOOT_MEMORY_AVAILABLE⟩]

/-- A reserved range that starts where available memory ends, and ends above the bitmap. -/
def straddling : List MmapEntry :=
  [⟨0, PAGE_SIZE * WORD_BITS, MULTIBOOT_MEMORY_AVAILABLE⟩,
    ⟨PAGE_SIZE * WORD_BITS, PAGE_SIZE * PMM_PAGES, 2⟩]

/-- On a map without overflow, `physmem_init` leaves the bitmap or divides by zero. -/
structure Escapes (map : List MmapEntry) : Prop where
  wrap : ∀ e ∈ map, e.addr + e.len < WORD
  avail : ∃ e ∈ map, e.type = MULTIBOOT_MEMORY_AVAILABLE
  stops : ∃ e, physmemInit map = .error e ∧ (e = .outOfBounds ∨ e = .divideByZero)

theorem escapes_of {map : List MmapEntry} (hwrap : ∀ e ∈ map, e.addr + e.len < WORD)
    (havail : ∃ e ∈ map, e.type = MULTIBOOT_MEMORY_AVAILABLE) (hout : ¬ WithinBitmap map) :
    Escapes map := by
  refine ⟨hwrap, havail, ?_⟩
  have h := physmemInit_outcome hwrap
  cases hrun : physmemInit map with
  | error e =>
      rw [hrun] at h
      exact ⟨e, rfl, h.1⟩
  | ok s =>
      rw [hrun] at h
      exact absurd h hout

theorem physmemInit_not_contained : Escapes tooSmall ∧ Escapes tooLarge ∧ Escapes straddling := by
  refine ⟨escapes_of (by decide) (by decide) fun hin => ?_,
    escapes_of (by decide) (by decide) fun hin => ?_,
    escapes_of (by decide) (by decide) fun hin => ?_⟩
  · exact absurd hin.oneWord (by decide)
  · exact absurd hin.words (by decide)
  · exact absurd hin.entries (by decide)

end Twos.Phys
