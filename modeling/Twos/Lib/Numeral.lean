import Mathlib.Data.Nat.Digits.Defs

/-!
# Numerals

The digits of a number as they are written, the most significant one first. Zero is written with one
digit, and no other number starts with a zero. Numerals in base two may be longer than they need be;
these are given by their bits.

* `numeral_lt` and `numeral_div` are the two equations that a loop over digits goes by.
* `ofDigits_numeral` reads a numeral back, and `length_numeral_le` bounds its length.
* `testBit_ofDigits` reads back one that is given by its bits.
-/

namespace Twos.Lib

variable {base a d : Nat}

/-- The digits of a number. -/
def numeral (base a : Nat) : List Nat := if a = 0 then [0] else (Nat.digits base a).reverse

theorem numeral_lt (ha : a < base) : numeral base a = [a] := by
  rw [numeral]
  split
  · next hzero => rw [hzero]
  · next hne => rw [Nat.digits_of_lt base a hne ha, List.reverse_singleton]

/-- Dividing by the base takes off the last digit. -/
theorem numeral_div (hbase : 1 < base) (ha : a / base ≠ 0) :
    numeral base a = numeral base (a / base) ++ [a % base] := by
  have hne : a ≠ 0 := by
    rintro rfl
    exact ha (Nat.zero_div base)
  rw [numeral, if_neg hne, numeral, if_neg ha, Nat.digits_def' hbase (Nat.pos_of_ne_zero hne),
    List.reverse_cons]

theorem numeral_ne_nil (base a : Nat) : numeral base a ≠ [] := by
  unfold numeral
  split
  · exact List.cons_ne_nil _ _
  · next hne =>
    rw [ne_eq, List.reverse_eq_nil_iff]
    exact Nat.digits_ne_nil_iff_ne_zero.mpr hne

theorem lt_of_mem_numeral (hbase : 1 < base) (hd : d ∈ numeral base a) : d < base := by
  unfold numeral at hd
  split at hd
  · rw [List.mem_singleton.mp hd]
    omega
  · exact Nat.digits_lt_base hbase (List.mem_reverse.mp hd)

/-- A numeral denotes the number. -/
theorem ofDigits_numeral (base a : Nat) : Nat.ofDigits base (numeral base a).reverse = a := by
  unfold numeral
  split
  · next hzero => simp [hzero]
  · rw [List.reverse_reverse, Nat.ofDigits_digits]

/-- Only zero is less than the first power. -/
theorem pos_of_lt_pow {k : Nat} (hne : a ≠ 0) (ha : a < base ^ k) : 0 < k := by
  rcases Nat.eq_zero_or_pos k with rfl | hpos
  · exact absurd (Nat.lt_one_iff.mp ha) hne
  · exact hpos

/-- A number of less than `base ^ k` has `k` digits or fewer. -/
theorem length_numeral_le {k : Nat} (hbase : 1 < base) (hk : 0 < k) (ha : a < base ^ k) :
    (numeral base a).length ≤ k := by
  induction k generalizing a with
  | zero => exact absurd hk (Nat.lt_irrefl 0)
  | succ k ih =>
      by_cases hlast : a / base = 0
      · rw [numeral_lt ((Nat.div_eq_zero_iff_lt (by omega)).mp hlast), List.length_singleton]
        omega
      · have hquot : a / base < base ^ k := Nat.div_lt_of_lt_mul (by rwa [Nat.pow_succ'] at ha)
        have hpos := pos_of_lt_pow hlast hquot
        rw [numeral_div hbase hlast, List.length_append, List.length_singleton]
        exact Nat.succ_le_succ (ih hpos hquot)

/-! ## Bits -/

/-- The number with these bits. -/
theorem testBit_ofDigits (bit : Nat → Bool) (n i : Nat) :
    (Nat.ofDigits 2 ((List.range n).map fun i => (bit i).toNat)).testBit i =
      (decide (i < n) && bit i) := by
  induction n generalizing i with
  | zero => simp
  | succ n ih =>
      have hlt : Nat.ofDigits 2 ((List.range n).map fun i => (bit i).toNat) < 2 ^ n := by
        have hpow := Nat.ofDigits_lt_base_pow_length (b := 2) (by decide)
          (l := (List.range n).map fun i => (bit i).toNat) (by
            intro d hd
            obtain ⟨j, -, rfl⟩ := List.mem_map.mp hd
            exact Bool.toNat_lt (bit j))
        simpa using hpow
      rw [List.range_succ, List.map_append, Nat.ofDigits_append, List.length_map, List.length_range,
        List.map_singleton, Nat.ofDigits_singleton, Nat.add_comm,
        Nat.testBit_two_pow_mul_add _ hlt, ih]
      -- the digit that is added stands for bit `n`
      by_cases hi : i < n
      · simp [hi, Nat.lt_succ_of_lt hi]
      · rw [if_neg hi]
        rcases Nat.lt_trichotomy i n with hless | rfl | hmore
        · exact absurd hless hi
        · cases bit i <;> simp
        · have hout : (bit n).toNat.testBit (i - n) = false := by
            apply Nat.testBit_lt_two_pow
            have := Bool.toNat_lt (bit n)
            have := Nat.one_lt_two_pow (show i - n ≠ 0 by omega)
            omega
          rw [hout, decide_eq_false (by omega), Bool.false_and]

end Twos.Lib
