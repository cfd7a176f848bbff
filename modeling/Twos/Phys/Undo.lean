import Twos.Phys.FirstFit

/-!
# Freeing what was just allocated

`phys_malloc` marks the bits of its pages one by one. `phys_free` clears them through `set_phys`,
whose mask has the bit of the page only for the lower half of a word and for its last page. What is
left of an allocation after it has been given back is therefore a matter of where in their words its
pages lie.

`Undoable` is the condition: the masks of the pages have all bits of the pages (`covered_iff`), and no
bit of another page that was in use. `restored_iff` is about three bitmaps, before, between and
after; `physFree_undoes_iff` puts `phys_malloc` and `phys_free` in their places.
-/

namespace Twos.Phys

open Lib

/-- Page `q` is one of the `n` pages from `start` on. -/
def InRun (start n q : Nat) : Prop := start ≤ q ∧ q < start + n

/-- The masks for the pages of the run clear all of the run, and nothing else that was set: pages at
the bits 32 to 62 of a word come together with the one at bit 31 or 63, whose mask has all of
these. -/
structure Undoable (old : Pmm) (start n : Nat) : Prop where
  covered : ∀ q, InRun start n q → 31 < q % WORD_BITS → q % WORD_BITS < 63 →
    InRun start n (q / WORD_BITS * WORD_BITS + 31) ∨ InRun start n (q / WORD_BITS * WORD_BITS + 63)
  clear : ∀ p q, InRun start n p → ¬ InRun start n q → Touches p q = true → bitAt old q = false

/-- The pages whose own mask has their bit. -/
theorem touches_self {q : Nat} (h : q % WORD_BITS ≤ 31 ∨ q % WORD_BITS = 63) :
    Touches q q = true := by
  rw [Touches, decide_eq_true_eq]
  refine ⟨rfl, ?_⟩
  split
  · lia
  · lia

/-- The bits from 32 up are in the masks for bit 31 and bit 63 only. -/
theorem touches_upper {p q : Nat} (hlo : 31 < q % WORD_BITS) :
    Touches p q = true ↔
      p = q / WORD_BITS * WORD_BITS + 31 ∨ p = q / WORD_BITS * WORD_BITS + 63 := by
  rw [Touches, decide_eq_true_eq]
  split
  · lia
  · lia

/-- All of a run is cleared exactly when its upper pages have company. -/
theorem covered_iff {start n : Nat} :
    (∀ q, InRun start n q → ∃ p, InRun start n p ∧ Touches p q = true) ↔
      ∀ q, InRun start n q → 31 < q % WORD_BITS → q % WORD_BITS < 63 →
        InRun start n (q / WORD_BITS * WORD_BITS + 31) ∨
          InRun start n (q / WORD_BITS * WORD_BITS + 63) := by
  constructor
  · intro h q hq hlo hhi
    obtain ⟨p, hp, htouch⟩ := h q hq
    rcases (touches_upper hlo).mp htouch with rfl | rfl
    · exact Or.inl hp
    · exact Or.inr hp
  · intro h q hq
    by_cases hself : q % WORD_BITS ≤ 31 ∨ q % WORD_BITS = 63
    · exact ⟨q, hq, touches_self hself⟩
    · have hlo : 31 < q % WORD_BITS := by lia
      have hhi : q % WORD_BITS < 63 := by lia
      rcases h q hq hlo hhi with hp | hp
      · exact ⟨_, hp, (touches_upper hlo).mpr (Or.inl rfl)⟩
      · exact ⟨_, hp, (touches_upper hlo).mpr (Or.inr rfl)⟩

/-- Marking a free run and clearing what the masks of its pages have restores every bit exactly when the
run is undoable. -/
theorem restored_iff {old marked freed : Pmm} {start n : Nat} (hfree : FreeRun old start n)
    (hmarked : ∀ q, bitAt marked q = (bitAt old q || decide (start ≤ q ∧ q < start + n)))
    (hcleared : ∀ p q, InRun start n p → Touches p q = true → bitAt freed q = false)
    (hkept : ∀ q, (∀ p, InRun start n p → Touches p q = false) → bitAt freed q = bitAt marked q) :
    (∀ q, bitAt freed q = bitAt old q) ↔ Undoable old start n := by
  have hwas {q : Nat} (hq : InRun start n q) : bitAt old q = false := by
    have hpage := hfree (q - start) (by have := hq.1; have := hq.2; omega)
    rwa [Nat.add_sub_cancel' hq.1] at hpage
  have hstill {q : Nat} (hnone : ¬ ∃ p, InRun start n p ∧ Touches p q = true) :
      bitAt freed q = bitAt marked q :=
    hkept q fun p hp => Bool.eq_false_iff.mpr fun htouch => hnone ⟨p, hp, htouch⟩
  constructor
  · intro hsame
    refine ⟨covered_iff.mp fun q hq => ?_, fun p q hp _ htouch => ?_⟩
    · -- a page of the run that no mask has would still be marked
      refine Classical.byContradiction fun hnone => ?_
      have hset := hstill hnone
      rw [hsame, hmarked, hwas hq, decide_eq_true ⟨hq.1, hq.2⟩] at hset
      cases hset
    · -- a bit of another page that a mask has was clear before
      rw [← hsame, hcleared p q hp htouch]
  · rintro ⟨hcovered, hclear⟩ q
    -- a page of the run
    by_cases hq : InRun start n q
    · obtain ⟨p, hp, htouch⟩ := covered_iff.mpr hcovered q hq
      rw [hcleared p q hp htouch, hwas hq]
    · -- another page that a mask reaches
      by_cases hany : ∃ p, InRun start n p ∧ Touches p q = true
      · obtain ⟨p, hp, htouch⟩ := hany
        rw [hcleared p q hp htouch, hclear p q hp hq htouch]
      · -- a page that nothing has written
        have hout : ¬ (start ≤ q ∧ q < start + n) := hq
        rw [hstill hany, hmarked, decide_eq_false hout, Bool.or_false]

/-- Bitmaps are equal when their bits are. -/
theorem words_eq_iff_bits {pmm pmm' : Pmm} :
    (∀ i, wordAt pmm i = wordAt pmm' i) ↔ ∀ q, bitAt pmm q = bitAt pmm' q := by
  constructor
  · exact fun h q => by rw [bitAt, h, bitAt]
  · exact fun h i => by rw [table_ext (by decide) h]

/-- An allocation whose pages were all free is undone by freeing it exactly when it is undoable. -/
theorem physFree_undoes_iff {s s' : Physmem} {size : BitVec 64} {a : Nat}
    (hmalloc : physMalloc s size = .ok (a, s')) (ha : a ≠ 0)
    (hfree : FreeRun s.pmm (a / PAGE_SIZE) (ceilPages size)) :
    ∃ s'', physFree s' a size = .ok s'' ∧
      ((∀ i, wordAt s''.pmm i = wordAt s.pmm i) ↔
        Undoable s.pmm (a / PAGE_SIZE) (ceilPages size)) := by
  have hmm := s.mmEnd_le
  rcases physMalloc_counts s size with
    ⟨start, e, t, hpos, hrun, hlimit, hcounted, hmarked⟩ | ⟨hrun, -⟩
  · rw [hrun] at hmalloc
    obtain ⟨rfl, rfl⟩ := Prod.mk.inj (Except.ok.inj hmalloc)
    have hsize : size.toNat ≤ 2 ^ 64 - PAGE_SIZE := by
      have hlt := size.isLt
      rw [numPages] at hpos
      lia
    rw [numPages_eq_ceilPages hsize] at hcounted hmarked
    rw [Nat.mul_div_cancel start (by decide)] at hfree ⊢
    have hle := hcounted.le
    have hpages : (Alloc.mk (start * PAGE_SIZE) size).pages = ceilPages size := by
      rw [pages_eq_numPages _ hpos, numPages_eq_ceilPages hsize]
    have hholds : ∀ p, (Alloc.mk (start * PAGE_SIZE) size).Holds p ↔
        InRun start (ceilPages size) p := fun p => by
      rw [Alloc.holds_iff rfl, hpages, InRun]
    have hbitmap : (Alloc.mk (start * PAGE_SIZE) size).InBitmap :=
      ⟨start, rfl, by rw [hpages]; lia⟩
    obtain ⟨u, hfreed, -, hcleared, hkept⟩ := physFree_spec (s := t) hbitmap
    simp only [hholds] at hcleared hkept
    exact ⟨u, hfreed, words_eq_iff_bits.trans (restored_iff hfree hmarked.bits hcleared hkept)⟩
  · rw [hrun] at hmalloc
    exact absurd (congrArg Prod.fst (Except.ok.inj hmalloc)).symm ha

/-- A word with one free page, in its lower half. -/
def lowPage : Physmem := machine 1 one_word_fits [18]

/-- The same in its upper half. -/
def highPage : Physmem := machine 1 one_word_fits [50]

theorem malloc_returns {s : Physmem} {size : BitVec 64} {a : Nat}
    (h : (physMalloc s size).toOption.map Prod.fst = some a) :
    ∃ s', physMalloc s size = .ok (a, s') := by
  cases hrun : physMalloc s size with
  | error e =>
      rw [hrun] at h
      cases h
  | ok r =>
      rw [hrun] at h
      exact ⟨r.2, by rw [← Option.some.inj h]⟩

theorem physFree_undoes_lowPage :
    ∃ s', physMalloc lowPage (pagesSize 1) = .ok (18 * PAGE_SIZE, s') ∧
      ∃ s'', physFree s' (18 * PAGE_SIZE) (pagesSize 1) = .ok s'' ∧
        ((∀ i, wordAt s''.pmm i = wordAt lowPage.pmm i) ↔
          Undoable lowPage.pmm (18 * PAGE_SIZE / PAGE_SIZE) (ceilPages (pagesSize 1))) := by
  obtain ⟨s', hmalloc⟩ := @malloc_returns lowPage (pagesSize 1)
    (18 * PAGE_SIZE) (by decide +kernel)
  exact ⟨s', hmalloc, physFree_undoes_iff hmalloc (by decide) (by decide +kernel)⟩

/-- Page 50 stays in use for good. -/
theorem physFree_not_undone :
    bitAt highPage.pmm 0 = true ∧ FreeRun highPage.pmm 50 (ceilPages (pagesSize 1)) ∧
      ∃ s' s'', physMalloc highPage (pagesSize 1) = .ok (50 * PAGE_SIZE, s') ∧
        physFree s' (50 * PAGE_SIZE) (pagesSize 1) = .ok s'' ∧
        ¬ ∀ i, wordAt s''.pmm i = wordAt highPage.pmm i := by
  have hword : (physMalloc highPage (pagesSize 1) >>= fun r =>
      physFree r.2 r.1 (pagesSize 1)).toOption.map (fun u => wordAt u.pmm 0) ≠
        some (wordAt highPage.pmm 0) := by decide +kernel
  obtain ⟨s', hmalloc⟩ := @malloc_returns highPage (pagesSize 1)
    (50 * PAGE_SIZE) (by decide +kernel)
  have hbitmap : (Alloc.mk (50 * PAGE_SIZE) (pagesSize 1)).InBitmap :=
    ⟨50, rfl, by decide +kernel⟩
  obtain ⟨s'', hfree, -⟩ := physFree_spec (s := s') hbitmap
  refine ⟨by decide +kernel, by decide +kernel, s', s'', hmalloc, hfree, fun hsame => hword ?_⟩
  rw [hmalloc, ok_seq, hfree]
  exact congrArg some (hsame 0)

end Twos.Phys
