import Mathlib.Data.List.Pairwise
import Mathlib.Order.CompletePartialOrder
import Mathlib.Order.Interval.Set.Disjoint
import Twos.Phys.Bits

/-!
# Importing the memory map

`physmem_init` starts from a bitmap with every page used and lets the entries of the boot loader's
memory map write it, in the order of the list. What one wants of the result is that a page marked
free lies, as a whole, in available memory.

The code does not keep this for every map. Both borders of an entry are rounded up, so a page gets
the type of the entry its first byte lies in, wherever the rest of it lies; and the mask of
`set_phys` takes the bit of a page from another page. `decider` names the page whose first byte
settles a bit, `physmemInit_bits` says that it does, and the import is sound for a map exactly when
no page that is not wholly available is settled by an available first byte.

* `mapWrites` lists the writes of a map, which are in order of their pages (`mapWrites_sorted`), so
  that the last one that reaches a bit is the one for the higher of its two pages.
* `importMap_spec` is the loop over the entries, `physmemInit_writes` the routine around it.
* `physmemInit_sound_iff` is the condition, and `physmemInit_not_sound` shows what rounding and what
  the mask do to two maps.
-/

namespace Twos.Phys

open Lib

/-! ## Memory maps -/

/-- The addresses of an entry. -/
def MmapEntry.range (e : MmapEntry) : Set Nat := Set.Ico e.addr (e.addr + e.len)

instance (e : MmapEntry) (x : Nat) : Decidable (x ∈ e.range) :=
  inferInstanceAs (Decidable (e.addr ≤ x ∧ x < e.addr + e.len))

/-- The maps a boot loader delivers: sorted, without overlaps, and within the 64 GiB that the bitmap
has bits for. -/
structure ValidMap (map : List MmapEntry) : Prop where
  sorted : map.Pairwise fun e f => e.addr ≤ f.addr
  disjoint : map.Pairwise fun e f => Disjoint e.range f.range
  below : ∀ e ∈ map, e.addr + e.len ≤ PAGE_SIZE * PMM_PAGES

/-- The address lies in some entry. -/
def InMap (map : List MmapEntry) (x : Nat) : Prop := ∃ e ∈ map, x ∈ e.range

/-- The address lies in available memory. -/
def InAvailable (map : List MmapEntry) (x : Nat) : Prop :=
  ∃ e ∈ map, e.type = MULTIBOOT_MEMORY_AVAILABLE ∧ x ∈ e.range

instance (map : List MmapEntry) (x : Nat) : Decidable (InMap map x) :=
  inferInstanceAs (Decidable (∃ e ∈ map, x ∈ e.range))

instance (map : List MmapEntry) (x : Nat) : Decidable (InAvailable map x) :=
  inferInstanceAs (Decidable (∃ e ∈ map, e.type = MULTIBOOT_MEMORY_AVAILABLE ∧ x ∈ e.range))

/-- The addresses of page `p`. -/
def pageRange (p : Nat) : Set Nat := Set.Ico (p * PAGE_SIZE) ((p + 1) * PAGE_SIZE)

/-- The page is available memory from its first byte to its last, and nothing else. -/
structure PageAvailable (map : List MmapEntry) (p : Nat) : Prop where
  covered : ∀ x ∈ pageRange p, InAvailable map x
  alone : ∀ e ∈ map, e.type ≠ MULTIBOOT_MEMORY_AVAILABLE → Disjoint (pageRange p) e.range

/-- Every page that the search can find free is available memory. -/
def Sound (map : List MmapEntry) (s : Physmem) : Prop :=
  ∀ p, p / WORD_BITS < s.mmEnd → bitAt s.pmm p = false → PageAvailable map p

/-! ## The page that settles a bit -/

/-- The lower of the two pages whose `set_phys` writes the bit of page `p`. -/
def lower (p : Nat) : Nat := if p % WORD_BITS < 31 then p else p / WORD_BITS * WORD_BITS + 31

/-- The upper of the two. -/
def upper (p : Nat) : Nat := lower p + 32

/-- The page whose first byte settles the bit of page `p`: the upper of the two when the map says
anything about it, since it is written later. -/
def decider (map : List MmapEntry) (p : Nat) : Nat :=
  if InMap map (PAGE_SIZE * upper p) then upper p else lower p

/-- The last address of available memory, plus one. -/
def highestAvail : List MmapEntry → Nat
  | [] => 0
  | e :: rest =>
      if e.type = MULTIBOOT_MEMORY_AVAILABLE then max (e.addr + e.len) (highestAvail rest)
      else highestAvail rest

/-- How many words of the bitmap a map brings into use. -/
def bitmapWords (map : List MmapEntry) : Nat :=
  (highestAvail map + (PAGE_SIZE - 1)) / PAGE_SIZE / WORD_BITS

/-- No page that the map leaves partly unavailable is settled by an available first byte. -/
def WellRounded (map : List MmapEntry) : Prop :=
  ∀ p, 16 ≤ p → p / WORD_BITS < bitmapWords map →
    InAvailable map (PAGE_SIZE * decider map p) → PageAvailable map p

theorem touches_iff (p q : Nat) : Touches p q = true ↔ p = lower q ∨ p = upper q := by
  simp only [Touches, upper, lower, decide_eq_true_eq]
  split <;> split <;> lia

/-! ## Entries and the pages they write

An entry is walked page by page, from its start rounded up, so the second loop of `physmem_init`
comes to a list of writes, a page and a value each (`importMap_spec`). In a map without overlaps the
list is sorted by pages, which is how the last write for a bit can be found.
-/

/-- `x` up to the nearest page, as a page number. -/
def ceilPage (x : Nat) : Nat := (x + (PAGE_SIZE - 1)) / PAGE_SIZE

theorem ceilPage_le {x p : Nat} : ceilPage x ≤ p ↔ x ≤ PAGE_SIZE * p := by
  unfold ceilPage
  lia

theorem lt_ceilPage {x p : Nat} : p < ceilPage x ↔ PAGE_SIZE * p < x := by
  rw [← Nat.not_le, ceilPage_le, Nat.not_le]

theorem roundUpToPage_eq {x : Nat} (hx : x ≤ PAGE_SIZE * PMM_PAGES) :
    roundUpToPage x = PAGE_SIZE * ceilPage x := by
  unfold roundUpToPage ceilPage
  split
  · lia
  · rw [Nat.mod_eq_of_lt (by lia)]
    lia

/-- The value `physmem_init` writes for an address of an entry. -/
def MmapEntry.used (e : MmapEntry) (addr : Nat) : Bool :=
  decide (e.type ≠ MULTIBOOT_MEMORY_AVAILABLE ∨ addr < PAGE_SIZE)

/-- The writes of one entry. -/
def entryWrites (e : MmapEntry) : List (Nat × Bool) :=
  rangeWrites e.used (ceilPage e.addr) (ceilPage (e.addr + e.len) - ceilPage e.addr)

/-- The writes of the map, up to the first entry above `end_`. -/
def mapWrites (end_ : Nat) : List MmapEntry → List (Nat × Bool)
  | [] => []
  | e :: rest => if e.addr > end_ then [] else entryWrites e ++ mapWrites end_ rest

/-- An entry writes the pages whose first byte it contains. -/
theorem mem_entryWrites {e : MmapEntry} {p : Nat} {b : Bool} :
    (p, b) ∈ entryWrites e ↔ PAGE_SIZE * p ∈ e.range ∧ b = e.used (PAGE_SIZE * p) := by
  have hpages : (ceilPage e.addr ≤ p ∧
      p < ceilPage e.addr + (ceilPage (e.addr + e.len) - ceilPage e.addr)) ↔
      PAGE_SIZE * p ∈ e.range := by
    rw [MmapEntry.range, Set.mem_Ico, ← ceilPage_le, ← lt_ceilPage]
    omega
  simp only [entryWrites, rangeWrites, List.mem_map, List.mem_range'_1, Prod.mk.injEq]
  constructor
  · rintro ⟨p, hp, rfl, rfl⟩
    exact ⟨hpages.mp hp, rfl⟩
  · rintro ⟨hp, rfl⟩
    exact ⟨p, hpages.mpr hp, rfl, rfl⟩

theorem mem_mapWrites {end_ : Nat} {map : List MmapEntry}
    (hsorted : map.Pairwise fun e f => e.addr ≤ f.addr) {p : Nat} {b : Bool} :
    (p, b) ∈ mapWrites end_ map ↔
      ∃ e ∈ map, e.addr ≤ end_ ∧ PAGE_SIZE * p ∈ e.range ∧ b = e.used (PAGE_SIZE * p) := by
  induction map with
  | nil => simp [mapWrites]
  | cons e rest ih =>
      obtain ⟨hhead, htail⟩ := List.pairwise_cons.mp hsorted
      rw [mapWrites]
      split
      · next habove =>
        -- every later entry lies above `end_` as well
        constructor
        · exact fun h => absurd h List.not_mem_nil
        · rintro ⟨f, hf, hle, -⟩
          rcases List.mem_cons.mp hf with rfl | hf
          · omega
          · have := hhead f hf
            omega
      · next hle =>
        rw [List.mem_append, mem_entryWrites, ih htail]
        constructor
        · rintro (h | ⟨f, hf, h⟩)
          · exact ⟨e, List.mem_cons_self, by omega, h⟩
          · exact ⟨f, List.mem_cons_of_mem _ hf, h⟩
        · rintro ⟨f, hf, hend, h⟩
          rcases List.mem_cons.mp hf with rfl | hf
          · exact Or.inl h
          · exact Or.inr ⟨f, hf, hend, h⟩

/-- Of two entries without overlap, the one that starts first lies below the other. -/
theorem range_below {e f : MmapEntry} (hle : e.addr ≤ f.addr) (hdisj : Disjoint e.range f.range)
    {x y : Nat} (hx : x ∈ e.range) (hy : y ∈ f.range) : x < y := by
  apply Nat.lt_of_not_le
  intro hyx
  have hye : y ∈ e.range := ⟨Nat.le_trans hle hy.1, Nat.lt_of_le_of_lt hyx hx.2⟩
  exact Set.disjoint_left.mp hdisj hye hy

/-- An entry writes its pages upwards. -/
theorem entryWrites_sorted (e : MmapEntry) :
    (entryWrites e).Pairwise fun op op' => op.1 < op'.1 := by
  unfold entryWrites rangeWrites
  rw [List.pairwise_map]
  exact List.pairwise_lt_range'

/-- So does the map. -/
theorem mapWrites_sorted (end_ : Nat) {map : List MmapEntry}
    (hsorted : map.Pairwise fun e f => e.addr ≤ f.addr)
    (hdisj : map.Pairwise fun e f => Disjoint e.range f.range) :
    (mapWrites end_ map).Pairwise fun op op' => op.1 < op'.1 := by
  induction map with
  | nil => exact List.Pairwise.nil
  | cons e rest ih =>
      obtain ⟨hhead, htail⟩ := List.pairwise_cons.mp hsorted
      obtain ⟨hdhead, hdtail⟩ := List.pairwise_cons.mp hdisj
      rw [mapWrites]
      split
      · exact List.Pairwise.nil
      · refine List.pairwise_append.mpr ⟨entryWrites_sorted e, ih htail hdtail, ?_⟩
        rintro ⟨p, b⟩ hp ⟨q, c⟩ hq
        obtain ⟨f, hf, -, hqf, -⟩ := (mem_mapWrites htail).mp hq
        have hpe := (mem_entryWrites.mp hp).1
        have := range_below (hhead f hf) (hdhead f hf) hpe hqf
        exact Nat.lt_of_mul_lt_mul_left this

/-- The second loop of `physmem_init` performs the writes of the map. -/
theorem importMap_spec (end_ : Nat) {map : List MmapEntry} (pmm : Pmm)
    (hbelow : ∀ e ∈ map, e.addr + e.len ≤ PAGE_SIZE * PMM_PAGES) :
    ∃ pmm', importMap end_ map pmm = .ok pmm' ∧
      bitAt pmm' = overwrite Touches (mapWrites end_ map) (bitAt pmm) := by
  induction map generalizing pmm with
  | nil => exact ⟨pmm, rfl, rfl⟩
  | cons e rest ih =>
      unfold importMap mapWrites
      split
      · exact ⟨pmm, rfl, rfl⟩
      · have he := hbelow e List.mem_cons_self
        have hend : PAGE_SIZE * ceilPage (e.addr + e.len) ≤ PAGE_SIZE * PMM_PAGES :=
          Nat.mul_le_mul_left _ (ceilPage_le.mpr he)
        obtain ⟨pmm₁, hset, hbits⟩ := setRange_spec e.used (ceilPage e.addr) pmm hend
        obtain ⟨pmm₂, hrest, hbits'⟩ := ih pmm₁ fun f hf => hbelow f (List.mem_cons_of_mem _ hf)
        refine ⟨pmm₂, ?_, ?_⟩
        · rw [Nat.mod_eq_of_lt (by lia), roundUpToPage_eq he, roundUpToPage_eq (by lia)]
          show setRange e.used _ _ pmm >>= _ = _
          rw [hset]
          exact hrest
        · have hcount : pageCount (PAGE_SIZE * ceilPage e.addr)
              (PAGE_SIZE * ceilPage (e.addr + e.len)) =
              ceilPage (e.addr + e.len) - ceilPage e.addr := by
            unfold pageCount
            generalize ceilPage (e.addr + e.len) = b
            generalize ceilPage e.addr = a
            lia
          rw [hbits', hbits, hcount, overwrite_append]
          rfl

/-! ## What settles a bit

`set_phys` makes its mask from an `int`, so that a write for a page changes the bit of another one
as well. The last write for a bit decides, and the page that was meant by it is the bit's decider.
Whether that page starts in available memory is then all that matters.
-/

/-- Entries without overlap that share an address are one entry. -/
theorem ValidMap.unique {map : List MmapEntry} (h : ValidMap map) {e f : MmapEntry} (he : e ∈ map)
    (hf : f ∈ map) {x : Nat} (hxe : x ∈ e.range) (hxf : x ∈ f.range) : e = f := by
  by_contra hne
  have hsymm : Std.Symm fun e f : MmapEntry => Disjoint e.range f.range := ⟨fun _ _ hd => hd.symm⟩
  have hdisj := h.disjoint.forall he hf hne
  exact Set.disjoint_left.mp hdisj hxe hxf

/-- Above page 0, what an entry writes for a page says whether the page starts in available
memory. -/
theorem ValidMap.used_eq_false {map : List MmapEntry} (h : ValidMap map) {e : MmapEntry}
    (he : e ∈ map) {c : Nat} (hc : 0 < c) (hx : PAGE_SIZE * c ∈ e.range) :
    e.used (PAGE_SIZE * c) = false ↔ InAvailable map (PAGE_SIZE * c) := by
  have habove : ¬ PAGE_SIZE * c < PAGE_SIZE := by lia
  simp only [MmapEntry.used, habove, or_false, decide_eq_false_iff_not, not_not]
  constructor
  · exact fun htype => ⟨e, he, htype, hx⟩
  · rintro ⟨f, hf, htype, hxf⟩
    rwa [h.unique he hf hx hxf]

/-- The writes of the map leave a bit that was set clear exactly when its decider starts in
available memory. -/
theorem mapWrites_clear {map : List MmapEntry} (h : ValidMap map) {end_ p : Nat}
    (hend : PAGE_SIZE * upper p ≤ end_) (hp : 0 < p) {old : Nat → Bool} (hold : old p = true) :
    overwrite Touches (mapWrites end_ map) old p = false ↔
      InAvailable map (PAGE_SIZE * decider map p) := by
  have hlower : 0 < lower p := by
    unfold lower
    split <;> omega
  -- the write of the last page that has the bit is what is left in it
  have hsettle : ∀ c, 0 < c → c ≤ upper p → Touches c p = true → InMap map (PAGE_SIZE * c) →
      (∀ op ∈ mapWrites end_ map, Touches op.1 p = true → ¬ c < op.1) →
      (overwrite Touches (mapWrites end_ map) old p = false ↔
        InAvailable map (PAGE_SIZE * c)) := by
    rintro c hc hcp htouch ⟨e, he, hx⟩ hlast
    have hmem : (c, e.used (PAGE_SIZE * c)) ∈ mapWrites end_ map := by
      apply (mem_mapWrites h.sorted).mpr
      refine ⟨e, he, ?_, hx, rfl⟩
      exact Nat.le_trans hx.1 (Nat.le_trans (Nat.mul_le_mul_left _ hcp) hend)
    rw [overwrite_eq, lastWrite_of_last (mapWrites_sorted end_ h.sorted h.disjoint) hmem htouch
      hlast]
    exact h.used_eq_false he hc hx
  have hin : ∀ op ∈ mapWrites end_ map, InMap map (PAGE_SIZE * op.1) := by
    rintro ⟨q, b⟩ hop
    obtain ⟨e, he, -, hx, -⟩ := (mem_mapWrites h.sorted).mp hop
    exact ⟨e, he, hx⟩
  unfold decider
  -- the map has an entry for the upper page, whose write comes last
  by_cases hupper : InMap map (PAGE_SIZE * upper p)
  · rw [if_pos hupper]
    apply hsettle _ (by unfold upper; omega) (Nat.le_refl _) ((touches_iff _ _).mpr (Or.inr rfl))
      hupper
    intro op _ ht
    rcases (touches_iff _ _).mp ht with hq | hq <;> rw [hq] <;> unfold upper <;> omega
  · rw [if_neg hupper]
    have honly : ∀ op ∈ mapWrites end_ map, Touches op.1 p = true → op.1 = lower p := by
      intro op hop ht
      rcases (touches_iff _ _).mp ht with hq | hq
      · exact hq
      · exact absurd (hq ▸ hin op hop) hupper
    -- otherwise for the lower one
    by_cases hlow : InMap map (PAGE_SIZE * lower p)
    · apply hsettle _ hlower (by unfold upper; omega) ((touches_iff _ _).mpr (Or.inl rfl)) hlow
      intro op hop ht
      rw [honly op hop ht]
      exact Nat.lt_irrefl _
    · -- no entry says anything about either page, so the bit is still set
      have hnone : lastWrite Touches p (mapWrites end_ map) = none := by
        apply lastWrite_eq_none.mpr
        intro op hop
        apply Bool.eq_false_iff.mpr
        intro ht
        exact hlow (honly op hop ht ▸ hin op hop)
      rw [overwrite_eq, hnone, Option.getD_none, hold]
      constructor
      · intro hfalse
        cases hfalse
      · rintro ⟨e, he, -, hx⟩
        exact absurd ⟨e, he, hx⟩ hlow

/-! ## The routine

The loops one after another, from the first, which finds the end of the bitmap, to the last, which
takes the low pages. `physmemInit_bits` says of each page whether it is free, and
`physmemInit_sound_iff` when that is what the map says.
-/

theorem highestAvail_le {map : List MmapEntry} {n : Nat} (h : ∀ e ∈ map, e.addr + e.len ≤ n) :
    highestAvail map ≤ n := by
  induction map with
  | nil => exact Nat.zero_le _
  | cons e rest ih =>
      have hrest := ih fun f hf => h f (List.mem_cons_of_mem _ hf)
      unfold highestAvail
      split
      · exact Nat.max_le.mpr ⟨h e List.mem_cons_self, hrest⟩
      · exact hrest

/-- The first loop finds the highest available address. -/
theorem tally_snd {map : List MmapEntry} (h : ∀ e ∈ map, e.addr + e.len < WORD)
    (acc : Nat × Nat) : (tally map acc).2 = max acc.2 (highestAvail map) := by
  induction map generalizing acc with
  | nil => simp [tally, highestAvail]
  | cons e rest ih =>
      unfold tally highestAvail
      rw [ih fun f hf => h f (List.mem_cons_of_mem _ hf)]
      dsimp only
      rw [Nat.mod_eq_of_lt (h e List.mem_cons_self)]
      by_cases htype : e.type = MULTIBOOT_MEMORY_AVAILABLE
      · simp only [htype, and_true, if_true]
        split <;> omega
      · simp only [htype, and_false, if_false]

/-- Filling the words below `mm_end`. -/
theorem fill_spec (n : Nat) (hn : n ≤ PMM_SIZE) (pmm : Pmm) :
    ∃ pmm', forLt (fun i pmm => (.ok (pmm.setIfInBounds i FULL) : Except Fault Pmm)) n pmm
        = .ok pmm' ∧ ∀ i, i < n → wordAt pmm' i = FULL := by
  apply Outcome.returns
  apply forLt_rule (fun n (pmm' : Pmm) => ∀ i, i < n → wordAt pmm' i = FULL)
  · exact fun i hi => absurd hi (Nat.not_lt_zero _)
  · intro n' hn' pmm₁ hfull i hi
    rw [wordAt, Vector.getElem?_setIfInBounds]
    split
    · next heq =>
      rw [if_pos (by omega)]
      rfl
    · exact hfull i (by omega)

/-- The last loop marks the first pages, which are few enough for the mask to be right. -/
theorem reserve_spec (n : Nat) (hn : n ≤ 16) (pmm : Pmm) :
    ∃ pmm', forLt (fun i pmm => setPhys pmm (PAGE_SIZE * i) true) n pmm = .ok pmm' ∧
      ∀ q, bitAt pmm' q = (decide (q < n) || bitAt pmm q) := by
  apply Outcome.returns
  apply forLt_rule (fun n (pmm' : Pmm) => ∀ q, bitAt pmm' q = (decide (q < n) || bitAt pmm q))
  · exact fun q => (Bool.false_or _).symm
  · intro i hi pmm₁ hbits
    have hpage : PAGE_SIZE * i / PAGE_SIZE = i := by lia
    have hin : PAGE_SIZE * i / PAGE_SIZE < PMM_PAGES := by lia
    obtain ⟨pmm₂, hset, hbit⟩ := setPhys_spec pmm₁ true hin
    rw [hset]
    intro q
    have htouch : Touches i q = true ↔ q = i := by
      rw [touches_iff, upper, lower]
      split <;> lia
    rw [hbit, hpage, hbits]
    by_cases hq : q = i
    · rw [if_pos (htouch.mpr hq), decide_eq_true (by omega), Bool.true_or]
    · rw [if_neg (fun ht => hq (htouch.mp ht))]
      have hlt : q < i + 1 ↔ q < i := by omega
      rw [decide_eq_decide.mpr hlt]

/-- The last loop of `physmem_init` leaves the first 16 pages in use. -/
theorem physmemInit_reserved {map : List MmapEntry} {phys : Physmem} {q : Nat}
    (hphys : physmemInit map = .ok phys) (hq : q < 16) : bitAt phys.pmm q = true := by
  unfold physmemInit at hphys
  dsimp only at hphys
  split at hphys
  · obtain ⟨pmm₁, -, hrest⟩ := seq_ok.mp hphys
    obtain ⟨pmm₂, -, hrest⟩ := seq_ok.mp hrest
    obtain ⟨pmm₃, hloop, hrest⟩ := seq_ok.mp hrest
    obtain ⟨pmm, hreserve, hbits⟩ := reserve_spec 16 (Nat.le_refl _) pmm₂
    rw [hloop] at hreserve
    obtain rfl := Except.ok.inj hreserve
    -- the four reads of the closing `debugf`
    obtain ⟨_, -, hrest⟩ := seq_ok.mp hrest
    obtain ⟨_, -, hrest⟩ := seq_ok.mp hrest
    obtain ⟨_, -, hrest⟩ := seq_ok.mp hrest
    obtain ⟨_, -, hrest⟩ := seq_ok.mp hrest
    obtain rfl := Except.ok.inj hrest
    dsimp only
    rw [hbits, decide_eq_true hq, Bool.true_or]
  · cases hphys

/-- A bitmap for `n` pages, rounded down to whole words. -/
theorem words_of_pages (n : Nat) :
    (PAGE_SIZE * n / PAGE_SIZE + 64) / WORD_BITS - 1 = n / WORD_BITS := by
  rw [Nat.mul_div_cancel_left n (by decide)]
  lia

theorem getPhys_returns {s : Physmem} (addr : Nat) (hmm : s.mmEnd ≠ 0)
    (haddr : addr / PAGE_SIZE / WORD_BITS < PMM_SIZE) : ∃ b, getPhys s addr = .ok b := by
  unfold getPhys
  rw [if_neg hmm, if_pos haddr]
  exact ⟨_, rfl⟩

/-- The arguments of the closing `debugf` can be computed unless `mm_end` is zero. -/
theorem closing_reads (s : Physmem) :
    Outcome (fun t => t = s ∧ s.mmEnd ≠ 0) (fun e => e = .divideByZero ∧ s.mmEnd = 0)
      (do
        let _ ← getPhys s 0xfffc0000
        let _ ← getPhys s (0x100000000 + PAGE_SIZE)
        let _ ← getPhys s 0x100000000
        let _ ← getPhys s (0xbffe0000 - PAGE_SIZE)
        .ok s) := by
  by_cases hmm : s.mmEnd = 0
  · unfold getPhys
    simp only [if_pos hmm, error_seq]
    exact ⟨rfl, hmm⟩
  · obtain ⟨_, h₁⟩ := getPhys_returns 0xfffc0000 hmm (by decide)
    obtain ⟨_, h₂⟩ := getPhys_returns (0x100000000 + PAGE_SIZE) hmm (by decide)
    obtain ⟨_, h₃⟩ := getPhys_returns 0x100000000 hmm (by decide)
    obtain ⟨_, h₄⟩ := getPhys_returns (0xbffe0000 - PAGE_SIZE) hmm (by decide)
    rw [h₁, ok_seq, h₂, ok_seq, h₃, ok_seq, h₄, ok_seq]
    exact ⟨rfl, hmm⟩

/-- What `physmem_init` leaves, for every map that the bitmap has bits for: the size of the bitmap
and the total from the first loop, and in the words that the search reads the first 16 pages used
and the rest as the writes of the map have left it. It returns unless no word is in use, when the
arguments of its last `debugf` divide by zero. -/
theorem physmemInit_writes {map : List MmapEntry}
    (hbelow : ∀ e ∈ map, e.addr + e.len ≤ PAGE_SIZE * PMM_PAGES) :
    Outcome
      (fun s => s.mmEnd = bitmapWords map ∧ s.mmEnd ≠ 0 ∧
        s.totalAvail = (tally map (0, 0)).1 ∧ ∀ p, p / WORD_BITS < s.mmEnd →
          bitAt s.pmm p = (decide (p < 16) || overwrite Touches
            (mapWrites (roundUpToPage (highestAvail map)) map) (fun _ => true) p))
      (fun e => e = .divideByZero ∧ bitmapWords map = 0) (physmemInit map) := by
  have hhigh : highestAvail map ≤ PAGE_SIZE * PMM_PAGES := highestAvail_le hbelow
  have htally : (tally map (0, 0)).2 = highestAvail map := by
    rw [tally_snd (fun e he => Nat.lt_of_le_of_lt (hbelow e he) (by decide))]
    exact Nat.zero_max _
  have hceil : ceilPage (highestAvail map) ≤ PMM_PAGES := ceilPage_le.mpr hhigh
  have hwords : (roundUpToPage (highestAvail map) / PAGE_SIZE + 64) / WORD_BITS - 1 =
      bitmapWords map := by
    rw [roundUpToPage_eq hhigh]
    exact words_of_pages _
  have hle : bitmapWords map ≤ PMM_SIZE := by
    apply Nat.div_le_of_le_mul
    rw [Nat.mul_comm]
    exact hceil
  -- fill the words, import the entries, reserve the first pages
  obtain ⟨pmm₁, hfill, hfull⟩ := fill_spec (bitmapWords map) hle
    (Vector.replicate PMM_SIZE 0x0101010101010101#64)
  obtain ⟨pmm₂, himport, hbits⟩ := importMap_spec (roundUpToPage (highestAvail map)) pmm₁ hbelow
  obtain ⟨pmm₃, hreserve, hfirst⟩ := reserve_spec 16 (Nat.le_refl _) pmm₂
  unfold physmemInit
  simp only [htally, hwords]
  rw [dif_pos hle, hfill, ok_seq, himport, ok_seq, hreserve, ok_seq]
  apply (closing_reads _).imp
  · rintro s ⟨rfl, hmm⟩
    refine ⟨rfl, hmm, rfl, fun p hp => ?_⟩
    have hset : bitAt pmm₁ p = true := bitAt_of_full (by decide) (hfull _ hp)
    dsimp only
    rw [hfirst, hbits, overwrite_eq, overwrite_eq, hset]
  · exact fun e he => he

/-- For a valid map, a page is free exactly when it is not one of the first 16 and its decider
starts in available memory. -/
theorem physmemInit_bits {map : List MmapEntry} (h : ValidMap map) :
    Outcome
      (fun s => s.mmEnd = bitmapWords map ∧ ∀ p, p / WORD_BITS < s.mmEnd →
        (bitAt s.pmm p = false ↔ 16 ≤ p ∧ InAvailable map (PAGE_SIZE * decider map p)))
      (fun e => e = .divideByZero ∧ bitmapWords map = 0) (physmemInit map) := by
  apply (physmemInit_writes h.below).imp
  · rintro s ⟨hmm, -, -, hbits⟩
    refine ⟨hmm, fun p hp => ?_⟩
    rw [hbits p hp]
    by_cases h16 : 16 ≤ p
    · -- the entries up to `end_` are all that can decide a bit below `mm_end`
      have hupper : PAGE_SIZE * upper p ≤ roundUpToPage (highestAvail map) := by
        have hle : upper p ≤ WORD_BITS * bitmapWords map := by
          unfold upper lower
          split <;> lia
        have hbelow : WORD_BITS * bitmapWords map ≤ ceilPage (highestAvail map) :=
          Nat.mul_div_le _ _
        rw [roundUpToPage_eq (highestAvail_le h.below)]
        exact Nat.mul_le_mul_left _ (Nat.le_trans hle hbelow)
      rw [decide_eq_false (by omega), Bool.false_or, mapWrites_clear h hupper (by omega) rfl]
      exact (and_iff_right h16).symm
    · -- the first 16 pages are in use whatever the map says
      rw [decide_eq_true (by omega), Bool.true_or]
      constructor
      · exact fun hfalse => absurd hfalse Bool.noConfusion
      · exact fun hclear => absurd hclear.1 h16
  · exact fun e he => he

/-- The import is sound for a map exactly when the map is well rounded. -/
theorem physmemInit_sound_iff {map : List MmapEntry} (h : ValidMap map) :
    Outcome (fun s => Sound map s ↔ WellRounded map)
      (fun e => e = .divideByZero ∧ bitmapWords map = 0) (physmemInit map) := by
  apply (physmemInit_bits h).imp
  · rintro s ⟨hmm, hbits⟩
    constructor
    · intro hsound p hp hword hfirst
      rw [← hmm] at hword
      exact hsound p hword ((hbits p hword).mpr ⟨hp, hfirst⟩)
    · intro hmap p hword hclear
      obtain ⟨hp, hfirst⟩ := (hbits p hword).mp hclear
      rw [hmm] at hword
      exact hmap p hp hword hfirst
  · exact fun e he => he

/-- Entries that end before the next one starts make a valid map. -/
theorem validMap_of_chain {map : List MmapEntry}
    (hchain : map.Pairwise fun e f => e.addr + e.len ≤ f.addr)
    (hbelow : ∀ e ∈ map, e.addr + e.len ≤ PAGE_SIZE * PMM_PAGES) : ValidMap map where
  sorted := hchain.imp fun h => Nat.le_trans (Nat.le_add_right _ _) h
  disjoint := hchain.imp fun h => Set.disjoint_left.mpr fun _ hx hy =>
    absurd (Nat.lt_of_lt_of_le hx.2 h) (Nat.not_lt.mpr hy.1)
  below := hbelow

/-- Page 63 is reserved and a bit of page 64, so that the memory behind it starts inside a page; the
borders of conventional memory and the end of all memory lie inside pages too. -/
def raggedMap : List MmapEntry :=
  [⟨0, 0x9fc00, MULTIBOOT_MEMORY_AVAILABLE⟩, ⟨0x9fc00, 0x400, 2⟩, ⟨0xf0000, 0x10000, 2⟩,
    ⟨0x100000, 63 * PAGE_SIZE - 0x100000, MULTIBOOT_MEMORY_AVAILABLE⟩,
    ⟨63 * PAGE_SIZE, PAGE_SIZE + 0x1000, 2⟩,
    ⟨64 * PAGE_SIZE + 0x1000, 2 * PAGE_SIZE + 0x4000, MULTIBOOT_MEMORY_AVAILABLE⟩,
    ⟨0xfffc0000, 0x40000, 2⟩]

/-- One word is brought into use. Page 63 settles the bits from 31 on, so what is left are the pages
16 to 30, which lie in the fourth entry. -/
theorem physmemInit_sound_ragged :
    WellRounded raggedMap ∧ Outcome (fun s => Sound raggedMap s ↔ WellRounded raggedMap)
      (fun e => e = .divideByZero ∧ bitmapWords raggedMap = 0) (physmemInit raggedMap) := by
  refine ⟨fun p hp hword hfirst => ?_,
    physmemInit_sound_iff (validMap_of_chain (by decide +kernel) (by decide +kernel))⟩
  have hone : bitmapWords raggedMap = 1 := by decide +kernel
  have hlow : ∀ p < 64, 16 ≤ p → InAvailable raggedMap (PAGE_SIZE * decider raggedMap p) →
      p ≤ 30 := by decide +kernel
  have hp30 := hlow p (by rw [hone] at hword; lia) hp hfirst
  have hinside : ∀ x ∈ pageRange p, 0x100000 ≤ x ∧ x < 63 * PAGE_SIZE := by
    rintro x ⟨hlo, hhi⟩
    lia
  have hothers : ∀ e ∈ raggedMap, e.type ≠ MULTIBOOT_MEMORY_AVAILABLE →
      e.addr + e.len ≤ 0x100000 ∨ 63 * PAGE_SIZE ≤ e.addr := by decide +kernel
  constructor
  · intro x hx
    obtain ⟨hlo, hhi⟩ := hinside x hx
    refine ⟨⟨0x100000, 63 * PAGE_SIZE - 0x100000, MULTIBOOT_MEMORY_AVAILABLE⟩, by decide +kernel,
      rfl, hlo, ?_⟩
    dsimp only
    lia
  · intro e he htype
    refine Set.disjoint_left.mpr fun x hx hxe => ?_
    obtain ⟨hlo, hhi⟩ := hinside x hx
    obtain ⟨hstart, hend⟩ := hxe
    rcases hothers e he htype with h | h
    · omega
    · omega

/-- Available memory ends inside page 20, and what follows is reserved. -/
def splitPage : List MmapEntry :=
  [⟨0, 20 * PAGE_SIZE + 0x1000, MULTIBOOT_MEMORY_AVAILABLE⟩,
    ⟨20 * PAGE_SIZE + 0x1000, PAGE_SIZE - 0x1000, 2⟩,
    ⟨53 * PAGE_SIZE, 11 * PAGE_SIZE, MULTIBOOT_MEMORY_AVAILABLE⟩]

/-- Page 20 is reserved, page 52 is available. -/
def wholePages : List MmapEntry :=
  [⟨0, 20 * PAGE_SIZE, MULTIBOOT_MEMORY_AVAILABLE⟩, ⟨20 * PAGE_SIZE, PAGE_SIZE, 2⟩,
    ⟨21 * PAGE_SIZE, 43 * PAGE_SIZE, MULTIBOOT_MEMORY_AVAILABLE⟩]

/-- Both defects at work: the first map shows what rounding does, the second, in which every border
is a page border, what the mask does. -/
theorem physmemInit_not_sound :
    (ValidMap splitPage ∧ ∃ s, physmemInit splitPage = .ok s ∧ ¬ Sound splitPage s) ∧
      ValidMap wholePages ∧ ∃ s, physmemInit wholePages = .ok s ∧ ¬ Sound wholePages s := by
  -- page 20 holds a reserved byte and is marked free
  have hbad : ∀ map e x, e ∈ map → e.type ≠ MULTIBOOT_MEMORY_AVAILABLE → x ∈ pageRange 20 →
      x ∈ e.range → ∀ s, s.mmEnd = 1 → bitAt s.pmm 20 = false → ¬ Sound map s := by
    intro map e x he htype hxp hxe s hmm hclear hsound
    have halone := (hsound 20 (by rw [hmm]; decide) hclear).alone e he htype
    exact Set.disjoint_left.mp halone hxp hxe
  have hrun : ∀ map, (physmemInit map).toOption.map (fun s => (s.mmEnd, bitAt s.pmm 20)) =
      some (1, false) → ∃ s, physmemInit map = .ok s ∧ s.mmEnd = 1 ∧ bitAt s.pmm 20 = false := by
    intro map h
    cases hs : physmemInit map with
    | error e =>
        rw [hs] at h
        cases h
    | ok s =>
        rw [hs] at h
        obtain ⟨hmm, hclear⟩ := Prod.mk.inj (Option.some.inj h)
        exact ⟨s, rfl, hmm, hclear⟩
  refine ⟨⟨validMap_of_chain (by decide) (by decide), ?_⟩,
    validMap_of_chain (by decide) (by decide), ?_⟩
  · obtain ⟨s, hs, hmm, hclear⟩ := hrun splitPage (by decide +kernel)
    refine ⟨s, hs, hbad _ _ (20 * PAGE_SIZE + 0x1000)
      (List.mem_cons_of_mem _ List.mem_cons_self) (by decide) ?_ ?_ s hmm hclear⟩
    · exact ⟨by decide, by decide⟩
    · exact ⟨by decide, by decide⟩
  · obtain ⟨s, hs, hmm, hclear⟩ := hrun wholePages (by decide +kernel)
    refine ⟨s, hs, hbad _ _ (20 * PAGE_SIZE)
      (List.mem_cons_of_mem _ List.mem_cons_self) (by decide) ?_ ?_ s hmm hclear⟩
    · exact ⟨by decide, by decide⟩
    · exact ⟨by decide, by decide⟩

end Twos.Phys
