/-!
# Tables of bits

A vector of machine words read as one long row of bits, `w` to a word. An update goes through a
mask, as C code writes it: `words[i] |= mask` or `words[i] &= ~mask`. Which bits such an update
touches is a matter of the mask alone, and `bitAt_assign` says so once for every mask: a mask with
one bit set touches one bit, a mask that came out wrong touches whatever it has set.

* `bitAt_assign` is by cases on the word and on the bit of the mask.
* `getLsbD_bit` and `and_bit_eq_zero` are about masks that were made as they should be.
* `table_ext` says that a table is its bits.
-/

namespace Twos.Lib

variable {w n : Nat}

/-- Word `i` of the table; words past the end read as zero. -/
def wordAt (table : Vector (BitVec w) n) (i : Nat) : BitVec w := table[i]?.getD 0#w

/-- Bit `p` of the table, counted across words from the low end. -/
def bitAt (table : Vector (BitVec w) n) (p : Nat) : Bool := (wordAt table (p / w)).getLsbD (p % w)

/-- `words[i] |= mask` when `b` holds, `words[i] &= ~mask` when it does not. -/
def assign (table : Vector (BitVec w) n) (i : Nat) (mask : BitVec w) (b : Bool) :
    Vector (BitVec w) n :=
  let old := wordAt table i
  table.setIfInBounds i (if b then old ||| mask else old &&& ~~~mask)

theorem wordAt_assign (table : Vector (BitVec w) n) {i : Nat} (hi : i < n) (mask : BitVec w)
    (b : Bool) (j : Nat) :
    wordAt (assign table i mask b) j =
      if i = j then (if b then wordAt table i ||| mask else wordAt table i &&& ~~~mask)
      else wordAt table j := by
  unfold assign
  simp only [wordAt, Vector.getElem?_setIfInBounds]
  by_cases hij : i = j
  · subst hij
    simp [hi]
  · simp [hij]

/-- A masked update puts `b` into the bits of word `i` that the mask selects, and no other bit of
the table changes. -/
theorem bitAt_assign (table : Vector (BitVec w) n) {i : Nat} (hi : i < n) (mask : BitVec w)
    (b : Bool) (p : Nat) :
    bitAt (assign table i mask b) p =
      if p / w = i ∧ mask.getLsbD (p % w) = true then b else bitAt table p := by
  unfold bitAt
  rw [wordAt_assign table hi]
  by_cases hword : i = p / w
  · -- the word that is written, bit by bit
    subst hword
    rw [if_pos rfl]
    cases b with
    | true =>
        rw [if_pos rfl, BitVec.getLsbD_or]
        cases hm : mask.getLsbD (p % w) <;> simp
    | false =>
        rw [if_neg Bool.false_ne_true, BitVec.getLsbD_and, BitVec.getLsbD_not]
        cases hm : mask.getLsbD (p % w) with
        | true => simp
        | false =>
            -- past the top of the word both sides read zero
            by_cases hlt : p % w < w
            · simp [hlt]
            · simp [hlt, BitVec.getLsbD_of_ge _ _ (Nat.le_of_not_lt hlt)]
  · rw [if_neg hword, if_neg (fun h => hword h.1.symm)]

/-- The usual test of one bit: `(mask & (1 << bit)) == 0`. -/
theorem and_bit_eq_zero {mask : BitVec w} {bit : Nat} (hbit : bit < w) :
    mask &&& (1#w <<< bit) = 0#w ↔ mask.getLsbD bit = false := by
  rw [← BitVec.twoPow_eq, BitVec.and_twoPow]
  cases mask.getLsbD bit with
  | false => simp
  | true =>
      have hne : BitVec.twoPow w bit ≠ 0#w := by
        intro h
        have hget := BitVec.getLsbD_twoPow (w := w) bit bit
        rw [h] at hget
        simp [hbit] at hget
      simp [hne]

/-- The mask `1 << bit` selects bit `bit`. -/
theorem getLsbD_bit {bit i : Nat} (hi : i < w) :
    (1#w <<< bit).getLsbD i = decide (i = bit) := by
  rw [← BitVec.twoPow_eq, BitVec.getLsbD_twoPow]
  grind

/-- A word with every bit set has no clear bit. -/
theorem bitAt_of_full {table : Vector (BitVec w) n} {p : Nat} (hw : 0 < w)
    (hfull : wordAt table (p / w) = BitVec.allOnes w) : bitAt table p = true := by
  unfold bitAt
  rw [hfull, BitVec.getLsbD_allOnes]
  simpa using Nat.mod_lt p hw

/-- A table is its bits. -/
theorem table_ext (hw : 0 < w) {table table' : Vector (BitVec w) n}
    (h : ∀ p, bitAt table p = bitAt table' p) : table = table' := by
  have hword : ∀ (t : Vector (BitVec w) n) (i : Nat) (hi : i < n), wordAt t i = t[i] := by
    intro t i hi
    rw [wordAt, Vector.getElem?_eq_getElem hi, Option.getD_some]
  apply Vector.ext
  intro i hi
  rw [← hword table i hi, ← hword table' i hi]
  apply BitVec.eq_of_getLsbD_eq
  intro j hj
  have hbit := h (w * i + j)
  unfold bitAt at hbit
  rwa [Nat.mul_add_div hw, Nat.div_eq_of_lt hj, Nat.add_zero, Nat.mul_add_mod,
    Nat.mod_eq_of_lt hj] at hbit

end Twos.Lib
