import Twos.Phys.Extent

/-!
# The order of the memory map

What `physmem_init` makes of a memory map should not depend on the order of its entries, as long as
they do not overlap. The available total and `mm_end` do not. The bitmap does, for two reasons: the
map is read up to the first entry that starts above the end of available memory, whatever comes after
it, and the mask of `set_phys` lets an entry write the bits of another entry's pages, so that the
one that comes later decides. `Freed` says which entry decides about a page; two orders of a map
leave the same bitmap exactly when it is an entry of the same kind for every page.

* `lastWrite_entry` and `lastWrite_entries` find the last write for a bit in one entry and in a map.
* `physmemInit_freed` is the result of the import in these terms, for a map in any order.
* `physmemInit_order_iff` compares two orders. `physmemInit_order_matters` has a pair for each reason.
-/

namespace Twos.Phys

open Lib

/-- Maps as the boot loader delivers them, in any order: no overlaps, borders on page borders, and
nothing above the 64 GiB that the bitmap has bits for. -/
structure AlignedMap (map : List MmapEntry) : Prop where
  aligned : ∀ e ∈ map, PAGE_SIZE ∣ e.addr ∧ PAGE_SIZE ∣ e.len
  disjoint : map.Pairwise fun e f => Disjoint e.range f.range
  below : ∀ e ∈ map, e.addr + e.len ≤ PAGE_SIZE * PMM_PAGES

/-- The entry has a page whose `set_phys` writes the bit of page `p`. -/
def MmapEntry.Decides (p : Nat) (e : MmapEntry) : Bool :=
  decide (PAGE_SIZE * lower p ∈ e.range ∨ PAGE_SIZE * upper p ∈ e.range)

/-- The last of the imported entries that decide about page `p` is available memory. -/
def Freed (map : List MmapEntry) (p : Nat) : Bool :=
  ((imported (endAvail map) map).filter (MmapEntry.Decides p)).getLast?.any fun e =>
    decide (e.type = MULTIBOOT_MEMORY_AVAILABLE)

/-- In both orders, entries of the same kind decide. -/
def DecidedAlike (map₁ map₂ : List MmapEntry) : Prop :=
  ∀ p, 16 ≤ p → p / WORD_BITS < bitmapWords map₁ → Freed map₁ p = Freed map₂ p

/-- Both imports leave the same total, the same `mm_end` and the same words below it. -/
structure SameImport (s₁ s₂ : Physmem) : Prop where
  totalAvail : s₁.totalAvail = s₂.totalAvail
  mmEnd : s₁.mmEnd = s₂.mmEnd
  words : ∀ i, i < s₁.mmEnd → wordAt s₁.pmm i = wordAt s₂.pmm i

/-! ## What does not depend on the order -/

theorem highestAvail_perm {map₁ map₂ : List MmapEntry} (h : map₁.Perm map₂) :
    highestAvail map₁ = highestAvail map₂ := by
  induction h with
  | nil => rfl
  | cons e _ ih => simp only [highestAvail, ih]
  | swap e f map =>
      simp only [highestAvail]
      split <;> split
      · exact Nat.max_left_comm _ _ _
      · rfl
      · rfl
      · rfl
  | trans _ _ ih₁ ih₂ => exact ih₁.trans ih₂

/-- One entry's part in the available total. -/
def addAvail (total : Nat) (e : MmapEntry) : Nat :=
  if e.type = MULTIBOOT_MEMORY_AVAILABLE then (total + e.len) % WORD else total

theorem tally_fst (map : List MmapEntry) (acc : Nat × Nat) :
    (tally map acc).1 = map.foldl addAvail acc.1 := by
  induction map generalizing acc with
  | nil => rfl
  | cons e rest ih =>
      unfold tally
      rw [ih]
      rfl

theorem tally_fst_perm {map₁ map₂ : List MmapEntry} (h : map₁.Perm map₂) (acc : Nat × Nat) :
    (tally map₁ acc).1 = (tally map₂ acc).1 := by
  rw [tally_fst, tally_fst]
  apply h.foldl_eq'
  intro e _ f _ total
  unfold addAvail
  split <;> split
  · rw [Nat.mod_add_mod, Nat.mod_add_mod, Nat.add_right_comm]
  · rfl
  · rfl
  · rfl

/-! ## What decides about a page

With entries in any order the writes are not sorted. But they go entry by entry, and an entry writes
its own kind, so a page is free after them if the last entry that has anything to do with its bit is
an available one.
-/

/-- The writes of the map are those of the imported entries. -/
theorem mapWrites_eq (end_ : Nat) (map : List MmapEntry) :
    mapWrites end_ map = (imported end_ map).flatMap entryWrites := by
  induction map with
  | nil => rfl
  | cons e rest ih =>
      unfold mapWrites imported
      rw [List.takeWhile_cons]
      split
      · next habove => rw [if_neg (by simpa using habove), List.flatMap_nil]
      · next hle => rw [if_pos (by simpa using hle), List.flatMap_cons, ih, imported]

/-- An entry that decides about a page writes its own kind. -/
theorem lastWrite_entry {p : Nat} (hp : 0 < p) (e : MmapEntry) :
    lastWrite Touches p (entryWrites e) =
      if e.Decides p then some (decide (e.type ≠ MULTIBOOT_MEMORY_AVAILABLE)) else none := by
  have hlower : 0 < lower p := by
    unfold lower
    split <;> omega
  -- what an entry writes to the bit says of which kind the entry is
  have hused : ∀ op ∈ entryWrites e, Touches op.1 p = true →
      e.Decides p = true ∧ op.2 = decide (e.type ≠ MULTIBOOT_MEMORY_AVAILABLE) := by
    rintro ⟨q, b⟩ hop ht
    obtain ⟨hrange, rfl⟩ := mem_entryWrites.mp hop
    have hq : q = lower p ∨ q = upper p := (touches_iff q p).mp ht
    constructor
    · rcases hq with rfl | rfl
      · exact decide_eq_true (.inl hrange)
      · exact decide_eq_true (.inr hrange)
    · have hpos : 0 < q := by
        rcases hq with rfl | rfl
        · exact hlower
        · unfold upper
          omega
      have habove : ¬ PAGE_SIZE * q < PAGE_SIZE := by lia
      simp only [MmapEntry.used, habove, or_false]
  cases hlast : lastWrite Touches p (entryWrites e) with
  | some b =>
      -- the entry has written the bit
      obtain ⟨op, hop, ht, rfl⟩ := lastWrite_mem hlast
      obtain ⟨hdecides, heq⟩ := hused op hop ht
      rw [if_pos hdecides, heq]
  | none =>
      -- it has not, so it holds neither of the two pages
      rw [if_neg]
      intro hdecides
      have hnone := lastWrite_eq_none.mp hlast
      have hno (q : Nat) (hrange : PAGE_SIZE * q ∈ e.range) (ht : Touches q p = true) : False := by
        have hfalse := hnone (q, e.used (PAGE_SIZE * q)) (mem_entryWrites.mpr ⟨hrange, rfl⟩)
        rw [ht] at hfalse
        cases hfalse
      rcases of_decide_eq_true hdecides with hrange | hrange
      · exact hno _ hrange ((touches_iff _ _).mpr (.inl rfl))
      · exact hno _ hrange ((touches_iff _ _).mpr (.inr rfl))

/-- Of several entries, the last one that decides about a page does. -/
theorem lastWrite_entries {p : Nat} (hp : 0 < p) (map : List MmapEntry) :
    lastWrite Touches p (map.flatMap entryWrites) =
      (map.filter (MmapEntry.Decides p)).getLast?.map fun e =>
        decide (e.type ≠ MULTIBOOT_MEMORY_AVAILABLE) := by
  induction map with
  | nil => rfl
  | cons e rest ih =>
      rw [List.flatMap_cons, lastWrite_append, ih, lastWrite_entry hp, List.filter_cons]
      by_cases hdecides : e.Decides p = true
      · rw [if_pos hdecides, if_pos hdecides, List.getLast?_cons]
        cases (rest.filter (MmapEntry.Decides p)).getLast? <;> rfl
      · rw [if_neg hdecides, if_neg hdecides, Option.or_none]

/-- A page is free after the writes when it has been freed. -/
theorem mapWrites_freed {map : List MmapEntry} {p : Nat} (hp : 0 < p) {old : Nat → Bool}
    (hold : old p = true) :
    overwrite Touches (mapWrites (endAvail map) map) old p = !Freed map p := by
  rw [overwrite_eq, mapWrites_eq, lastWrite_entries hp, Freed, hold]
  cases ((imported (endAvail map) map).filter (MmapEntry.Decides p)).getLast? with
  | none => rfl
  | some e => simp

/-! ## The routine

Two orders of a map have the same size and the same total, so the bitmaps are what is left to
compare, page by page. That is the condition, and it is a condition on the entries alone.
-/

/-- What the import leaves, in terms of what decides about each page. -/
theorem physmemInit_freed {map : List MmapEntry}
    (hbelow : ∀ e ∈ map, e.addr + e.len ≤ PAGE_SIZE * PMM_PAGES) :
    Outcome
      (fun s => s.mmEnd = bitmapWords map ∧ s.mmEnd ≠ 0 ∧ s.totalAvail = (tally map (0, 0)).1 ∧
        ∀ p, p / WORD_BITS < s.mmEnd → (bitAt s.pmm p = (decide (p < 16) || !Freed map p)))
      (fun e => e = .divideByZero ∧ bitmapWords map = 0) (physmemInit map) := by
  apply (physmemInit_writes hbelow).imp
  · rintro s ⟨hmm, hne, htotal, hbits⟩
    refine ⟨hmm, hne, htotal, fun p hp => ?_⟩
    rw [hbits p hp]
    by_cases h16 : p < 16
    · rw [decide_eq_true h16, Bool.true_or, Bool.true_or]
    · rw [decide_eq_false h16, Bool.false_or, Bool.false_or]
      exact mapWrites_freed (by omega) rfl
  · exact fun e he => he

/-- Words are equal when their bits are. -/
theorem words_eq_iff {pmm₁ pmm₂ : Pmm} {n : Nat} :
    (∀ i, i < n → wordAt pmm₁ i = wordAt pmm₂ i) ↔
      ∀ p, p / WORD_BITS < n → bitAt pmm₁ p = bitAt pmm₂ p := by
  constructor
  · intro h p hp
    unfold bitAt
    rw [h _ hp]
  · intro h i hi
    apply BitVec.eq_of_getLsbD_eq
    intro b hb
    have hdiv : (WORD_BITS * i + b) / WORD_BITS = i := by lia
    have hmod : (WORD_BITS * i + b) % WORD_BITS = b := by lia
    have hbit := h (WORD_BITS * i + b) (hdiv.symm ▸ hi)
    unfold bitAt at hbit
    rwa [hdiv, hmod] at hbit

/-- For two orders of a map, both imports stop at the division by zero, or both return; and then
they leave the same if and only if entries of the same kind decide about every page. -/
theorem physmemInit_order_iff {map₁ map₂ : List MmapEntry} (hperm : map₁.Perm map₂)
    (h : AlignedMap map₁) :
    (physmemInit map₁ = .error .divideByZero ∧ physmemInit map₂ = .error .divideByZero) ∨
      ∃ s₁ s₂, physmemInit map₁ = .ok s₁ ∧ physmemInit map₂ = .ok s₂ ∧
        (SameImport s₁ s₂ ↔ DecidedAlike map₁ map₂) := by
  have h₁ := physmemInit_freed h.below
  have h₂ := physmemInit_freed fun e he => h.below e (hperm.mem_iff.mpr he)
  have hwords : bitmapWords map₁ = bitmapWords map₂ := by
    unfold bitmapWords
    rw [highestAvail_perm hperm]
  cases hrun₁ : physmemInit map₁ with
  | error e₁ =>
      -- too little memory for one order is too little for the other
      rw [hrun₁] at h₁
      obtain ⟨rfl, hzero⟩ := h₁
      cases hrun₂ : physmemInit map₂ with
      | error e₂ =>
          rw [hrun₂] at h₂
          obtain ⟨rfl, -⟩ := h₂
          exact .inl ⟨rfl, rfl⟩
      | ok s₂ =>
          rw [hrun₂] at h₂
          obtain ⟨hmm, hne, -⟩ := h₂
          omega
  | ok s₁ =>
      rw [hrun₁] at h₁
      obtain ⟨hmm₁, hne, htotal₁, hbits₁⟩ := h₁
      cases hrun₂ : physmemInit map₂ with
      | error e₂ =>
          rw [hrun₂] at h₂
          have := h₂.2
          omega
      | ok s₂ =>
          rw [hrun₂] at h₂
          obtain ⟨hmm₂, -, htotal₂, hbits₂⟩ := h₂
          have hmm : s₁.mmEnd = s₂.mmEnd := by omega
          -- the same words, so the same entries have decided
          refine .inr ⟨s₁, s₂, rfl, rfl, fun hsame p hp hword => ?_, fun halike => ?_⟩
          · have hbit := words_eq_iff.mp hsame.words p (hmm₁.symm ▸ hword)
            rw [hbits₁ p (by omega), hbits₂ p (by omega), decide_eq_false (by omega)] at hbit
            simpa using hbit
          · -- the same entries decide, so the same words
            refine ⟨?_, hmm, words_eq_iff.mpr fun p hp => ?_⟩
            · rw [htotal₁, htotal₂, tally_fst_perm hperm]
            · rw [hbits₁ p hp, hbits₂ p (by omega)]
              by_cases h16 : p < 16
              · rw [decide_eq_true h16, Bool.true_or, Bool.true_or]
              · rw [halike p (by omega) (by omega)]

/-- A word of available memory and a reserved page above it, in two orders. -/
def availFirst : List MmapEntry :=
  [⟨0, PAGE_SIZE * WORD_BITS, MULTIBOOT_MEMORY_AVAILABLE⟩, ⟨PAGE_SIZE * WORD_BITS, PAGE_SIZE, 2⟩]

def reservedFirst : List MmapEntry :=
  [⟨PAGE_SIZE * WORD_BITS, PAGE_SIZE, 2⟩, ⟨0, PAGE_SIZE * WORD_BITS, MULTIBOOT_MEMORY_AVAILABLE⟩]

theorem AlignedMap.of_chain {map : List MmapEntry}
    (haligned : ∀ e ∈ map, PAGE_SIZE ∣ e.addr ∧ PAGE_SIZE ∣ e.len)
    (hchain : map.Pairwise fun e f => e.addr + e.len ≤ f.addr)
    (hbelow : ∀ e ∈ map, e.addr + e.len ≤ PAGE_SIZE * PMM_PAGES) : AlignedMap map where
  aligned := haligned
  disjoint := (validMap_of_chain hchain hbelow).disjoint
  below := hbelow

theorem availFirst_alike : DecidedAlike availFirst reservedFirst := by
  have hone : bitmapWords availFirst = 1 := by decide +kernel
  have hall : ∀ p, p < 64 → Freed availFirst p = Freed reservedFirst p := by decide +kernel
  intro p _ hword
  rw [hone] at hword
  exact hall p (by lia)

/-- In both of these orders the import is the same. -/
theorem physmemInit_order_availFirst :
    availFirst.Perm reservedFirst ∧ AlignedMap availFirst ∧ DecidedAlike availFirst reservedFirst ∧
      ((physmemInit availFirst = .error .divideByZero ∧
          physmemInit reservedFirst = .error .divideByZero) ∨
        ∃ s₁ s₂, physmemInit availFirst = .ok s₁ ∧ physmemInit reservedFirst = .ok s₂ ∧
          (SameImport s₁ s₂ ↔ DecidedAlike availFirst reservedFirst)) := by
  have hperm : availFirst.Perm reservedFirst := List.Perm.swap _ _ _
  have haligned : AlignedMap availFirst := .of_chain (by decide) (by decide) (by decide)
  exact ⟨hperm, haligned, availFirst_alike, physmemInit_order_iff hperm haligned⟩

/-- A reserved range that starts above the end of available memory. -/
def reservedAbove : List MmapEntry :=
  [⟨0, PAGE_SIZE * WORD_BITS, MULTIBOOT_MEMORY_AVAILABLE⟩,
    ⟨PAGE_SIZE * (WORD_BITS + 1), PAGE_SIZE, 2⟩]

/-- Both reasons at work. Reading the first map backwards, page 20 is no longer freed by the write
for page 52. Reading the second one backwards, nothing is imported. -/
theorem physmemInit_order_matters :
    (AlignedMap wholePages ∧ ∃ s₁ s₂, physmemInit wholePages = .ok s₁ ∧
        physmemInit wholePages.reverse = .ok s₂ ∧ ¬ SameImport s₁ s₂) ∧
      AlignedMap reservedAbove ∧ ∃ s₁ s₂, physmemInit reservedAbove = .ok s₁ ∧
        physmemInit reservedAbove.reverse = .ok s₂ ∧ ¬ SameImport s₁ s₂ := by
  -- page 20 is free after one of the imports and used after the other
  have hdiffer : ∀ map,
      (physmemInit map).toOption.map (fun s => (s.mmEnd, bitAt s.pmm 20)) = some (1, false) →
      (physmemInit map.reverse).toOption.map (fun s => bitAt s.pmm 20) = some true →
      ∃ s₁ s₂, physmemInit map = .ok s₁ ∧ physmemInit map.reverse = .ok s₂ ∧
        ¬ SameImport s₁ s₂ := by
    intro map h₁ h₂
    cases hrun₁ : physmemInit map with
    | error e =>
        rw [hrun₁] at h₁
        cases h₁
    | ok s₁ =>
        cases hrun₂ : physmemInit map.reverse with
        | error e =>
            rw [hrun₂] at h₂
            cases h₂
        | ok s₂ =>
            rw [hrun₁] at h₁
            rw [hrun₂] at h₂
            obtain ⟨hmm, hfree⟩ := Prod.mk.inj (Option.some.inj h₁)
            have hused : bitAt s₂.pmm 20 = true := Option.some.inj h₂
            refine ⟨s₁, s₂, rfl, rfl, fun hsame => ?_⟩
            have hbit := words_eq_iff.mp hsame.words 20 (by rw [hmm]; decide)
            rw [hfree, hused] at hbit
            cases hbit
  refine ⟨⟨.of_chain (by decide) (by decide) (by decide), ?_⟩,
    .of_chain (by decide) (by decide) (by decide), ?_⟩
  · exact hdiffer wholePages (by decide +kernel) (by decide +kernel)
  · exact hdiffer reservedAbove (by decide +kernel) (by decide +kernel)

end Twos.Phys
