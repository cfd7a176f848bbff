import Twos.Phys.Model
import Twos.Lib.Overwrite

/-!
# Which bits `set_phys` writes

`set_phys` means to write the bit of one page. Its mask is `1 << bit` on an `int`, so it writes the
bits `Touches` describes: the low bits 0 to 30 answer to the page with their number and to the one
32 above it, and everything from bit 31 up answers to the two pages that end a half-word. A loop of
`set_phys` calls over a range of pages is then a sequence of writes in the sense of
`Lib.overwrite`.

* `intMask_getLsbD` is the mask, bit by bit, and `setPhys_spec` what a call does to the bitmap.
* `setRange_spec` is the loop, by the invariant that after `i` turns `i` pages have been written.
-/

namespace Twos.Phys

open Lib

/-- Pages the bitmap has a bit for. -/
abbrev PMM_PAGES : Nat := PMM_SIZE * WORD_BITS

/-- `set_phys` on page `p` writes the bit of page `q`. -/
def Touches (p q : Nat) : Bool :=
  decide (p / WORD_BITS = q / WORD_BITS ∧
    if p % 32 = 31 then 31 ≤ q % WORD_BITS else q % WORD_BITS = p % 32)

/-- The bits the mask has set: one bit below 31, or everything from 31 up. -/
theorem intMask_getLsbD (bit i : Nat) :
    (intMask bit).getLsbD i =
      decide (i < WORD_BITS ∧ if bit % 32 = 31 then 31 ≤ i else i = bit % 32) := by
  have hbit : bit % 32 < 32 := Nat.mod_lt _ (by decide)
  unfold intMask
  generalize bit % 32 = k at hbit
  have hone : ∀ j, (1#32 <<< k).getLsbD j = decide (j < 32 ∧ j = k) := by
    intro j
    rw [BitVec.getLsbD_shiftLeft, BitVec.getLsbD_one]
    simp
    lia
  rw [BitVec.getLsbD_signExtend, BitVec.msb_eq_getLsbD_last, hone, hone]
  by_cases hlow : i < 32
  · -- inside the int
    rw [if_pos hlow]
    simp
    lia
  · -- the sign, which is bit 31 of the int
    rw [if_neg hlow]
    simp
    lia

theorem setPhys_spec (pmm : Pmm) {addr : Nat} (b : Bool) (haddr : addr / PAGE_SIZE < PMM_PAGES) :
    ∃ pmm', setPhys pmm addr b = .ok pmm' ∧
      ∀ q, bitAt pmm' q = if Touches (addr / PAGE_SIZE) q then b else bitAt pmm q := by
  have hidx : addr / PAGE_SIZE / WORD_BITS < PMM_SIZE := by lia
  refine ⟨_, if_pos hidx, fun q => ?_⟩
  have hmod : addr / PAGE_SIZE % WORD_BITS % 32 = addr / PAGE_SIZE % 32 := by lia
  have hq : q % WORD_BITS < WORD_BITS := Nat.mod_lt _ (by decide)
  rw [bitAt_assign _ hidx, intMask_getLsbD, hmod]
  simp only [Touches, decide_eq_true_eq, hq, true_and, @eq_comm _ (q / WORD_BITS)]

/-! ## Ranges of pages

A loop over page addresses is its writes, one for each page and upwards. With that the loops of the
page allocator are the folds over a bit table that `Lib.BitTable` is about.
-/

/-- How many iterations a loop over page addresses makes between two addresses. -/
def pageCount (start stop : Nat) : Nat := (stop - start + (PAGE_SIZE - 1)) / PAGE_SIZE

/-- The writes a loop of `set_phys` makes: page by page, upwards from page `a`. -/
def rangeWrites (b : Nat → Bool) (a k : Nat) : List (Nat × Bool) :=
  (List.range' a k).map fun p => (p, b (PAGE_SIZE * p))

theorem rangeWrites_succ (b : Nat → Bool) (a k : Nat) :
    rangeWrites b a (k + 1) = rangeWrites b a k ++ [(a + k, b (PAGE_SIZE * (a + k)))] := by
  simp [rangeWrites, List.range'_concat]

/-- A loop of `set_phys` over a range inside the bitmap ends, and writes page by page. -/
theorem setRange_spec (b : Nat → Bool) (a : Nat) {stop : Nat} (pmm : Pmm)
    (hstop : stop ≤ PAGE_SIZE * PMM_PAGES) :
    ∃ pmm', setRange b stop (PAGE_SIZE * a) pmm = .ok pmm' ∧
      bitAt pmm' =
        overwrite Touches (rangeWrites b a (pageCount (PAGE_SIZE * a) stop)) (bitAt pmm) := by
  -- after `i` iterations, `i` pages are written and the address has moved up `i` pages
  let I : Nat × Pmm → Prop := fun s =>
    ∃ i, i ≤ pageCount (PAGE_SIZE * a) stop ∧ s.1 = PAGE_SIZE * (a + i) ∧
      bitAt s.2 = overwrite Touches (rangeWrites b a i) (bitAt pmm)
  have hloop : Outcome (fun s => I s ∧ decide (s.1 < stop) = false) (fun _ => False)
      (whileLoop Fault.neverEnds (fun s => decide (s.1 < stop)) (setNext b)
        (WORD / PAGE_SIZE + 1) (PAGE_SIZE * a, pmm)) := by
    apply whileLoop_rule I (fun _ => False) (fun s => pageCount s.1 stop)
    · exact ⟨0, Nat.zero_le _, rfl, rfl⟩
    · simp only [pageCount]
      lia
    · rintro ⟨addr, pmm₁⟩ ⟨i, hi, haddr, hbits⟩ hcond
      dsimp only at haddr hbits hcond
      have hlt : addr < stop := by simpa using hcond
      have hpage : addr / PAGE_SIZE = a + i := by lia
      have hin : addr / PAGE_SIZE < PMM_PAGES := by lia
      obtain ⟨pmm₂, hset, hbit⟩ := setPhys_spec pmm₁ (b addr) hin
      show Outcome _ _ (setPhys pmm₁ addr (b addr) >>= _)
      rw [hset]
      refine ⟨⟨i + 1, ?_, ?_, ?_⟩, ?_⟩
      · simp only [pageCount] at hi ⊢
        lia
      · dsimp only
        lia
      · funext q
        rw [rangeWrites_succ, overwrite_snoc, ← hbits, ← haddr]
        dsimp only
        rw [hbit q, hpage]
      · simp only [pageCount]
        lia
  obtain ⟨⟨addr, pmm'⟩, hrun, ⟨i, hi, haddr, hbits⟩, hexit⟩ := hloop.returns
  -- the loop left because the address passed `stop`, so every page was written
  have hdone : i = pageCount (PAGE_SIZE * a) stop := by
    dsimp only at haddr hexit
    have hge : stop ≤ addr := by simpa using hexit
    simp only [pageCount] at hi ⊢
    lia
  refine ⟨pmm', ?_, ?_⟩
  · rw [setRange, hrun]
    rfl
  · rw [← hdone]
    exact hbits

end Twos.Phys
