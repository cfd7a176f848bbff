import Twos.Phys.FirstFit
import Twos.Phys.Import

/-!
# Available memory that is not lost

Whether a page of available memory can be had once the memory map has been imported. Two things
stand in the way: `mm_end` leaves out a word of the bitmap that available memory fills only in part,
and the mask of `set_phys` may leave the bit of the page to another page. A page that neither of
these concerns is handed out by one of the first calls for a single page.

* `handedOut_of_free`: a free page is handed out after as many calls as there are free pages below
  it, by induction on these.
* `recovered_iff` is about one page, from what `physmemInit_bits` says of its bit;
  `physmemInit_loses_nothing_iff` is about all of them.
-/

namespace Twos.Phys

open Lib

/-- The page lies in one entry of available memory, and no other entry has a part of it. -/
def WholePage (map : List MmapEntry) (p : Nat) : Prop :=
  ∃ e ∈ map, e.type = MULTIBOOT_MEMORY_AVAILABLE ∧ pageRange p ⊆ e.range ∧
    ∀ f ∈ map, f ≠ e → Disjoint (pageRange p) f.range

/-- `k` calls of `phys_malloc(PAGE_SIZE)`, whatever they return. -/
def pageCalls : Nat → Physmem → Except Fault Physmem
  | 0, s => .ok s
  | k + 1, s => do
      let (_, s) ← physMalloc s (pagesSize 1)
      pageCalls k s

/-- One of the calls of `phys_malloc(PAGE_SIZE)` returns the page. -/
def HandedOut (s : Physmem) (p : Nat) : Prop :=
  ∃ k s₁ s₂, pageCalls k s = .ok s₁ ∧ physMalloc s₁ (pagesSize 1) = .ok (p * PAGE_SIZE, s₂)

/-- `physmem_init` has made the page available. -/
def Recovered (map : List MmapEntry) (p : Nat) : Prop :=
  ∃ s, physmemInit map = .ok s ∧ bitAt s.pmm p = false ∧ p < WORD_BITS * s.mmEnd ∧ HandedOut s p

/-- Available memory goes on to the end of the page's word, and the page that settles its bit starts
in available memory. -/
structure Spared (map : List MmapEntry) (p : Nat) : Prop where
  word : WORD_BITS * (p / WORD_BITS + 1) ≤ ceilPage (highestAvail map)
  settled : InAvailable map (PAGE_SIZE * decider map p)

/-- Every whole page of available memory is recovered, other than those of the first 32 MiB. -/
def NothingLost (map : List MmapEntry) : Prop :=
  ∀ p, 16 ≤ p → WholePage map p → Recovered map p

/-! ## Page by page -/

/-- Marking a free page leaves one page less free above it. -/
theorem freeBelow_marked {old new : Pmm} {start p : Nat} (hfree : bitAt old start = false)
    (hbits : ∀ q, bitAt new q = (bitAt old q || decide (start ≤ q ∧ q < start + 1)))
    (hp : start < p) : freeBelow new p + 1 = freeBelow old p := by
  have hbelow : ∀ q, q ≤ start → freeBelow new q = freeBelow old q := by
    intro q
    induction q with
    | zero => exact fun _ => rfl
    | succ q ih =>
        intro hq
        rw [freeBelow, freeBelow, ih (by omega), hbits, decide_eq_false (by omega), Bool.or_false]
  induction p with
  | zero => exact absurd hp (Nat.not_lt_zero _)
  | succ p ih =>
      rcases Nat.lt_or_eq_of_le (Nat.le_of_lt_succ hp) with hlt | rfl
      · have hrest := ih hlt
        rw [freeBelow, freeBelow, hbits, decide_eq_false (by omega), Bool.or_false]
        omega
      · have hused : bitAt new start = true := by
          rw [hbits, decide_eq_true (by omega), Bool.or_true]
        rw [freeBelow_used hused, freeBelow_free hfree, hbelow start (Nat.le_refl _)]

theorem numPages_one : numPages (pagesSize 1) = 1 := by decide

/-- While a page is free, the lowest free page is handed out. -/
theorem lowest_free {s : Physmem} {p : Nat} (hfree : bitAt s.pmm p = false)
    (hp : p < WORD_BITS * s.mmEnd) :
    ∃ start s', physMalloc s (pagesSize 1) = .ok (start * PAGE_SIZE, s') ∧ FirstFit s 1 start s' ∧
      start ≤ p := by
  have hspec := @physMalloc_spec s (pagesSize 1) (numPages_one ▸ scanUnbroken_one s)
  rw [numPages_one] at hspec
  have hrun : FreeRun s.pmm p 1 := fun i hi => by
    obtain rfl : i = 0 := by omega
    exact hfree
  rcases hspec with ⟨start, s', hmalloc, hfit⟩ | ⟨-, hnone⟩
  · exact ⟨start, s', hmalloc, hfit, Nat.le_of_not_lt fun hlt => hfit.first p hlt hrun⟩
  · exact absurd hrun (hnone Nat.one_pos p (by omega))

/-- Every free page has its turn, after those below it. -/
theorem handedOut_of_free {s : Physmem} {p : Nat} (hfree : bitAt s.pmm p = false)
    (hp : p < WORD_BITS * s.mmEnd) : HandedOut s p := by
  generalize hk : freeBelow s.pmm p = k
  -- each call takes one of the pages below
  induction k generalizing s with
  | zero =>
      obtain ⟨start, s', hmalloc, hfit, hle⟩ := lowest_free hfree hp
      rcases Nat.lt_or_eq_of_le hle with hlt | rfl
      · have hcount := freeBelow_marked (hfit.free 0 Nat.one_pos) hfit.bits hlt
        omega
      · exact ⟨0, s, s', rfl, hmalloc⟩
  | succ k ih =>
      obtain ⟨start, s', hmalloc, hfit, hle⟩ := lowest_free hfree hp
      rcases Nat.lt_or_eq_of_le hle with hlt | rfl
      · have hcount := freeBelow_marked (hfit.free 0 Nat.one_pos) hfit.bits hlt
        have hstill : bitAt s'.pmm p = false := by
          rw [hfit.bits, hfree, decide_eq_false (by omega), Bool.or_false]
        obtain ⟨j, s₁, s₂, hcalls, hlast⟩ := ih hstill (by rw [hfit.mmEnd]; exact hp) (by omega)
        refine ⟨j + 1, s₁, s₂, ?_, hlast⟩
        rw [pageCalls, hmalloc]
        exact hcalls
      · exact ⟨0, s, s', rfl, hmalloc⟩

/-! ## After the import

A page that is free in the bitmap can be handed out: single pages are requested until it is its
turn. What was lost in the import is not handed out by any number of requests. So a map loses
nothing if the bits of all its whole pages are spared.
-/

/-- A page is recovered exactly when it is spared. -/
theorem recovered_iff {map : List MmapEntry} (h : ValidMap map) {p : Nat} (hp : 16 ≤ p) :
    Recovered map p ↔ Spared map p := by
  have hword : p / WORD_BITS < bitmapWords map ↔
      WORD_BITS * (p / WORD_BITS + 1) ≤ ceilPage (highestAvail map) := by
    rw [← Nat.succ_le_iff, bitmapWords, Nat.le_div_iff_mul_le (by decide), Nat.mul_comm]
    rfl
  have hinit := physmemInit_bits h
  constructor
  · -- the bit says that the page is settled, and the bound that its word is in use
    rintro ⟨s, hrun, hfree, hlt, -⟩
    rw [hrun] at hinit
    obtain ⟨hmm, hbits⟩ := hinit
    have hin : p / WORD_BITS < s.mmEnd := Nat.div_lt_of_lt_mul hlt
    exact ⟨hword.mp (hmm ▸ hin), ((hbits p hin).mp hfree).2⟩
  · -- a page that is settled as available is free, and so handed out
    rintro ⟨hin, hsettled⟩
    have hin' := hword.mpr hin
    cases hrun : physmemInit map with
    | error e =>
        rw [hrun] at hinit
        rw [hinit.2] at hin'
        exact absurd hin' (Nat.not_lt_zero _)
    | ok s =>
        rw [hrun] at hinit
        obtain ⟨hmm, hbits⟩ := hinit
        rw [← hmm] at hin'
        have hfree := (hbits p hin').mpr ⟨hp, hsettled⟩
        have hlt : p < WORD_BITS * s.mmEnd := by
          rw [Nat.mul_comm]
          exact (Nat.div_lt_iff_lt_mul (by decide)).mp hin'
        exact ⟨s, hrun, hfree, hlt, handedOut_of_free hfree hlt⟩

/-- A map loses nothing exactly when every whole page is spared. -/
theorem physmemInit_loses_nothing_iff {map : List MmapEntry} (h : ValidMap map) :
    NothingLost map ↔ ∀ p, 16 ≤ p → WholePage map p → Spared map p :=
  forall_congr' fun _ => forall_congr' fun hp => forall_congr' fun _ => recovered_iff h hp

/-- The map of a machine with 256 MiB: the borders of conventional memory lie inside page 0, and the
last 128 KiB of page 127 are reserved. -/
def usualMap : List MmapEntry :=
  [⟨0, 0x9fc00, MULTIBOOT_MEMORY_AVAILABLE⟩, ⟨0x9fc00, 0x400, 2⟩, ⟨0xf0000, 0x10000, 2⟩,
    ⟨0x100000, 0xfee0000, MULTIBOOT_MEMORY_AVAILABLE⟩, ⟨0xffe0000, 0x20000, 2⟩,
    ⟨0xfffc0000, 0x40000, 2⟩]

/-- Every page up to 127 starts in available memory, and all that settle a bit are among them. -/
theorem physmemInit_loses_nothing_usual :
    (∀ p, 16 ≤ p → WholePage usualMap p → Spared usualMap p) ∧ NothingLost usualMap := by
  have hspared : ∀ p, 16 ≤ p → WholePage usualMap p → Spared usualMap p := by
    rintro p hp ⟨e, he, htype, hsub, -⟩
    have hends : ∀ f ∈ usualMap, f.type = MULTIBOOT_MEMORY_AVAILABLE →
        f.addr + f.len ≤ 128 * PAGE_SIZE := by decide +kernel
    have hfirst := (hsub (show p * PAGE_SIZE ∈ pageRange p from ⟨le_rfl, by lia⟩)).2
    have hlt : p < 128 := by
      have hend := hends e he htype
      lia
    constructor
    · have hceil : ceilPage (highestAvail usualMap) = 128 := by decide +kernel
      rw [hceil]
      lia
    · have hsettled : ∀ q < 128, 16 ≤ q → InAvailable usualMap (PAGE_SIZE * decider usualMap q) := by
        decide +kernel
      exact hsettled p hlt hp
  exact ⟨hspared, (physmemInit_loses_nothing_iff
    (validMap_of_chain (by decide +kernel) (by decide +kernel))).mpr hspared⟩

/-- Available memory ends in the second word. -/
def partWord : List MmapEntry := [⟨0, 100 * PAGE_SIZE, MULTIBOOT_MEMORY_AVAILABLE⟩]

/-- Page 52 is reserved, and everything else is available. -/
def reservedTwin : List MmapEntry :=
  [⟨0, 52 * PAGE_SIZE, MULTIBOOT_MEMORY_AVAILABLE⟩, ⟨52 * PAGE_SIZE, PAGE_SIZE, 2⟩,
    ⟨53 * PAGE_SIZE, 11 * PAGE_SIZE, MULTIBOOT_MEMORY_AVAILABLE⟩]

/-- Both ways to lose a page: page 70 lies above `mm_end`, and page 20 has the bit that is set for
page 52. -/
theorem physmemInit_loses :
    (ValidMap partWord ∧ WholePage partWord 70 ∧ ¬ Recovered partWord 70) ∧
      ValidMap reservedTwin ∧ WholePage reservedTwin 20 ∧ ¬ Recovered reservedTwin 20 := by
  refine ⟨⟨validMap_of_chain (by decide) (by decide), ?_, ?_⟩,
    validMap_of_chain (by decide) (by decide), ?_, ?_⟩
  · -- page 70 lies in available memory, but in a word that is not filled
    refine ⟨_, List.mem_singleton_self _, rfl, fun x hx => ?_, fun f hf hne => ?_⟩
    · exact ⟨Nat.zero_le _, Nat.lt_of_lt_of_le hx.2 (by decide)⟩
    · exact absurd (List.mem_singleton.mp hf) hne
  · rintro ⟨s, hrun, -, hlt, -⟩
    have hmm : (physmemInit partWord).toOption.map Physmem.mmEnd = some 1 := by decide +kernel
    rw [hrun] at hmm
    rw [show s.mmEnd = 1 from Option.some.inj hmm] at hlt
    exact absurd hlt (by decide)
  · -- page 20 lies in available memory, but its bit is that of page 52
    refine ⟨_, List.mem_cons_self, rfl, fun x hx => ?_, fun f hf hne => ?_⟩
    · exact ⟨Nat.zero_le _, Nat.lt_of_lt_of_le hx.2 (by decide)⟩
    · have hlater : ∀ g ∈ reservedTwin.tail, 52 * PAGE_SIZE ≤ g.addr := by decide
      refine Set.disjoint_left.mpr fun x hx hxf => ?_
      have habove : 52 * PAGE_SIZE ≤ f.addr := by
        rcases List.mem_cons.mp hf with rfl | hf
        · exact absurd rfl hne
        · exact hlater f hf
      exact absurd (Nat.le_trans habove hxf.1) (Nat.not_le.mpr (Nat.lt_of_lt_of_le hx.2 (by decide)))
  · rintro ⟨s, hrun, hfree, -⟩
    have hbit : (physmemInit reservedTwin).toOption.map (fun s => bitAt s.pmm 20) = some true := by
      decide +kernel
    rw [hrun] at hbit
    rw [show bitAt s.pmm 20 = true from Option.some.inj hbit] at hfree
    cases hfree

end Twos.Phys
