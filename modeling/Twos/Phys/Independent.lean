import Twos.Phys.Bits

/-!
# Page bits are independent

What `get_phys` reads after a `set_phys`, for any two pages. The getter shifts the 64-bit word down
and the setter shifts an `int` up, so for half of the pages the two do not mean the same bit. The
others obey the law that one expects of a bitmap.

`Strays p q` says that a write meant for page `p` reaches `q`, or does not reach `p` itself.
`independent_iff` is about two pages, a state and a value; `pageBits_independent_iff` draws from it
which pages obey the law in every state, the lower 31 of a word, with the bitmap in which all pages
are free for the others.
-/

namespace Twos.Phys

open Lib

variable {s : Physmem} {a c p q : Nat} {b : Bool}

/-- What `get_phys` returns for a bit. -/
def bitWord (b : Bool) : BitVec WORD_BITS := if b then 1#64 else 0#64

theorem bitWord_inj {x y : Bool} : bitWord x = bitWord y ↔ x = y := by
  cases x <;> cases y <;> decide

/-- `get_phys` reads the bit of its page. -/
theorem getPhys_eq (hmm : s.mmEnd ≠ 0) (hc : c / PAGE_SIZE < PMM_PAGES) :
    getPhys s c = .ok (bitWord (bitAt s.pmm (c / PAGE_SIZE))) := by
  have hidx : c / PAGE_SIZE / WORD_BITS < PMM_SIZE := by lia
  unfold getPhys
  rw [if_neg hmm, if_pos hidx]
  congr 1
  rw [BitVec.and_one_eq_setWidth_ofBool_getLsbD, BitVec.getLsbD_ushiftRight, Nat.add_zero, bitAt]
  cases (wordAt s.pmm (c / PAGE_SIZE / WORD_BITS)).getLsbD (c / PAGE_SIZE % WORD_BITS)
  · rfl
  · rfl

/-- After `set_phys(a, b)`, `get_phys(c)` is `b` for the page that was set, and what it was before
for any other. -/
def Independent (s : Physmem) (a c : Nat) (b : Bool) : Prop :=
  ∃ pmm, setPhys s.pmm a b = .ok pmm ∧
    getPhys { s with pmm } c =
      if a / PAGE_SIZE = c / PAGE_SIZE then .ok (bitWord b) else getPhys s c

/-- Setting page `p` goes wrong at page `q`. The last page of a lower half-word takes the upper half
along, and that of an upper half-word all that lies between the two; any other page of an upper
half-word is missed, and the one 32 below it is set instead. -/
def Strays (p q : Nat) : Prop :=
  p / WORD_BITS = q / WORD_BITS ∧
    ((p % WORD_BITS = 31 ∧ 31 < q % WORD_BITS) ∨
      (p % WORD_BITS = 63 ∧ 31 ≤ q % WORD_BITS ∧ q % WORD_BITS < 63) ∨
      (31 < p % WORD_BITS ∧ p % WORD_BITS < 63 ∧ (q = p ∨ q + 32 = p)))

/-- Elsewhere the mask is that of the page. -/
theorem not_strays_iff : ¬ Strays p q ↔ (Touches p q = true ↔ p = q) := by
  simp only [Strays, Touches, decide_eq_true_eq]
  split
  · lia
  · lia

/-- The 32nd page of a word and all behind it go wrong somewhere. -/
theorem strays_of_upper (hp : p < PMM_PAGES) (hupper : 31 ≤ p % WORD_BITS) :
    ∃ q, q < PMM_PAGES ∧ Strays p q := by
  rcases Nat.lt_trichotomy (p % WORD_BITS) 63 with hlt | hlast | hgt
  · rcases Nat.eq_or_lt_of_le hupper with hlower | hgt
    · -- the page behind it is taken along
      exact ⟨p + 1, by lia, by lia, .inl ⟨hlower.symm, by lia⟩⟩
    · -- its own bit is missed
      exact ⟨p, hp, rfl, .inr (.inr ⟨hgt, hlt, .inl rfl⟩)⟩
  · -- the page in front of it is taken along
    exact ⟨p - 1, by lia, by lia, .inr (.inl ⟨hlast, by lia, by lia⟩)⟩
  · lia

/-- One bit, written when it is meant to be, or already as it should be. -/
theorem write_eq_iff {t : Bool} {meant : Prop} [Decidable meant] {x : Bool} :
    (if t = true then b else x) = (if meant then b else x) ↔ x = b ∨ (t = true ↔ meant) := by
  by_cases hmeant : meant
  · cases t
    · simp [hmeant]
    · simp [hmeant]
  · cases t
    · simp [hmeant]
    · simp [hmeant, eq_comm]

/-- The law for two pages. -/
theorem independent_iff (hmm : s.mmEnd ≠ 0) (ha : a / PAGE_SIZE < PMM_PAGES)
    (hc : c / PAGE_SIZE < PMM_PAGES) :
    Independent s a c b ↔
      bitAt s.pmm (c / PAGE_SIZE) = b ∨ ¬ Strays (a / PAGE_SIZE) (c / PAGE_SIZE) := by
  obtain ⟨pmm, hset, hbits⟩ := setPhys_spec s.pmm b ha
  have hget : getPhys { s with pmm } c = .ok (bitWord (bitAt pmm (c / PAGE_SIZE))) :=
    getPhys_eq (s := { s with pmm }) hmm hc
  have hmeant : (if a / PAGE_SIZE = c / PAGE_SIZE then .ok (bitWord b) else getPhys s c) =
      .ok (bitWord (if a / PAGE_SIZE = c / PAGE_SIZE then b else bitAt s.pmm (c / PAGE_SIZE))) := by
    rw [getPhys_eq hmm hc]
    split
    · rfl
    · rfl
  -- both sides read one bit, so the law is about bits
  have hlaw : Independent s a c b ↔ bitAt pmm (c / PAGE_SIZE) =
      if a / PAGE_SIZE = c / PAGE_SIZE then b else bitAt s.pmm (c / PAGE_SIZE) := by
    rw [Independent, hmeant, ← bitWord_inj]
    constructor
    · rintro ⟨pmm', hset', hlaw⟩
      obtain rfl := Except.ok.inj (hset.symm.trans hset')
      exact Except.ok.inj (hget.symm.trans hlaw)
    · intro hlaw
      exact ⟨pmm, hset, hget.trans (congrArg _ hlaw)⟩
  rw [hlaw, hbits, write_eq_iff, not_strays_iff]

/-- A bitmap of free pages. -/
def freePages : Physmem where
  pmm := Vector.replicate PMM_SIZE 0#64
  mmEnd := 1
  mmEnd_le := by decide
  end_ := 0
  totalAvail := 0

theorem bitAt_freePages (p : Nat) : bitAt freePages.pmm p = false := by
  unfold bitAt wordAt freePages
  rw [Vector.getElem?_replicate]
  split
  · exact BitVec.getLsbD_zero
  · exact BitVec.getLsbD_zero

/-- Two pages obey the law exactly if the mask of the one is right at the other, or the bit there is
what is written anyway. A page obeys it with all others, in all bitmaps, exactly if it is one of the
first 31 of its word. -/
theorem pageBits_independent_iff (ha : a < PMM_SIZE * WORD_BITS * PAGE_SIZE) :
    (∀ (s : Physmem) (c : Nat) (b : Bool), s.mmEnd ≠ 0 → c < PMM_SIZE * WORD_BITS * PAGE_SIZE →
      (Independent s a c b ↔
        bitAt s.pmm (c / PAGE_SIZE) = b ∨ ¬ Strays (a / PAGE_SIZE) (c / PAGE_SIZE))) ∧
    ((∀ (s : Physmem) (c : Nat) (b : Bool), s.mmEnd ≠ 0 → c < PMM_SIZE * WORD_BITS * PAGE_SIZE →
      Independent s a c b) ↔ a / PAGE_SIZE % WORD_BITS < 31) := by
  have hpage : ∀ x, x < PMM_SIZE * WORD_BITS * PAGE_SIZE → x / PAGE_SIZE < PMM_PAGES := by
    intro x hx
    exact Nat.div_lt_of_lt_mul (Nat.mul_comm _ _ ▸ hx)
  refine ⟨fun s c b hmm hc => independent_iff hmm (hpage a ha) (hpage c hc), ?_⟩
  constructor
  · intro hall
    apply Nat.lt_of_not_le
    intro hupper
    -- where all pages are free, setting the page shows at `q`
    obtain ⟨q, hq, hstrays⟩ := strays_of_upper (hpage a ha) hupper
    have hmul : q * PAGE_SIZE / PAGE_SIZE = q := Nat.mul_div_cancel q (by decide)
    have hlt : q * PAGE_SIZE < PMM_SIZE * WORD_BITS * PAGE_SIZE :=
      Nat.mul_lt_mul_of_pos_right hq (by decide)
    have hlaw := hall freePages (q * PAGE_SIZE) true (by decide) hlt
    rw [independent_iff (by decide) (hpage a ha) (hpage _ hlt), bitAt_freePages, hmul] at hlaw
    rcases hlaw with hbit | hnot
    · cases hbit
    · exact hnot hstrays
  · -- below bit 31 the mask is the bit of the page
    intro hlow s c b hmm hc
    apply (independent_iff hmm (hpage a ha) (hpage c hc)).mpr
    right
    rintro ⟨-, h | h | h⟩
    · omega
    · omega
    · omega

/-- Page 30, where the mask is right, with page 31 beside it, and page 40, which is free anyway. -/
theorem pageBits_independent_thirty :
    Independent freePages (30 * PAGE_SIZE) (31 * PAGE_SIZE) true ∧
      Independent freePages (30 * PAGE_SIZE) (30 * PAGE_SIZE) true ∧
      Independent freePages (40 * PAGE_SIZE) (40 * PAGE_SIZE) false :=
  have hthirty := (pageBits_independent_iff
    (by decide : 30 * PAGE_SIZE < PMM_SIZE * WORD_BITS * PAGE_SIZE)).2.mpr (by decide)
  have hforty := (pageBits_independent_iff
    (by decide : 40 * PAGE_SIZE < PMM_SIZE * WORD_BITS * PAGE_SIZE)).1 freePages
    (40 * PAGE_SIZE) false (by decide) (by decide)
  ⟨hthirty freePages (31 * PAGE_SIZE) true (by decide) (by decide),
    hthirty freePages (30 * PAGE_SIZE) true (by decide) (by decide),
    hforty.mpr (.inl (bitAt_freePages _))⟩

/-- Page 31 takes page 32 along, and page 40 is missed. -/
theorem pageBits_not_independent :
    ¬ Independent freePages (31 * PAGE_SIZE) (32 * PAGE_SIZE) true ∧
      ¬ Independent freePages (40 * PAGE_SIZE) (40 * PAGE_SIZE) true := by
  constructor
  · rw [independent_iff (by decide) (by decide) (by decide), bitAt_freePages]
    unfold Strays
    decide
  · rw [independent_iff (by decide) (by decide) (by decide), bitAt_freePages]
    unfold Strays
    decide

end Twos.Phys
