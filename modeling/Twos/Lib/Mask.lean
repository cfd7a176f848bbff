import Mathlib.Data.Nat.Bitwise

/-!
# Masks that keep a range of bits

`x & mask` for a mask whose set bits are the bits from `k` up to but not including `n`, as
arithmetic (`and_mask`), and what becomes of flags that are put into the bits below `k` of a number
that has none there (`or_aligned`, `aligned_and`, `or_and_aligned`). This is how addresses and flags
share a page table entry.
-/

namespace Twos.Lib

/-- Bit `i` of such a mask. -/
theorem testBit_mask {k n : Nat} (hk : k ≤ n) (i : Nat) :
    (2 ^ n - 2 ^ k).testBit i = decide (k ≤ i ∧ i < n) := by
  have hlt : 2 ^ k - 1 < 2 ^ n := by
    have := Nat.pow_le_pow_right Nat.two_pos hk
    have := Nat.two_pow_pos k
    omega
  have hmask := Nat.testBit_two_pow_sub_succ hlt i
  rw [Nat.sub_add_cancel (Nat.two_pow_pos k), Nat.testBit_two_pow_sub_one] at hmask
  rw [hmask]
  by_cases hki : k ≤ i
  · by_cases hin : i < n <;> simp [hki, hin, Nat.not_lt.mpr hki]
  · simp [hki, Nat.lt_of_not_le hki]

/-- The mask keeps bits `k` to `n`. -/
theorem and_mask {k n : Nat} (hk : k ≤ n) (x : Nat) :
    x &&& (2 ^ n - 2 ^ k) = x % 2 ^ n / 2 ^ k * 2 ^ k := by
  apply Nat.eq_of_testBit_eq
  intro i
  rw [Nat.testBit_and, testBit_mask hk, Nat.mul_comm, Nat.testBit_two_pow_mul,
    Nat.testBit_div_two_pow, Nat.testBit_mod_two_pow]
  by_cases hki : k ≤ i
  · have hsum : i - k + k = i := by omega
    by_cases hin : i < n <;> simp [hki, hin, hsum]
  · simp [hki]

/-- Flags below an aligned number. -/
theorem or_aligned {k x flags : Nat} (hx : x % 2 ^ k = 0) (hflags : flags < 2 ^ k) :
    x ||| flags = x + flags := by
  have hmul : x = 2 ^ k * (x / 2 ^ k) := by
    have := Nat.div_add_mod x (2 ^ k)
    omega
  rw [hmul]
  exact (Nat.two_pow_add_eq_or_of_lt hflags _).symm

/-- An aligned number has no bit of a small mask. -/
theorem aligned_and {k x mask : Nat} (hx : x % 2 ^ k = 0) (hmask : mask < 2 ^ k) :
    x &&& mask = 0 := by
  apply Nat.eq_of_testBit_eq
  intro i
  rw [Nat.testBit_and, Nat.zero_testBit]
  by_cases hi : i < k
  · have hbit := Nat.testBit_mod_two_pow x k i
    rw [hx, Nat.zero_testBit, decide_eq_true hi, Bool.true_and] at hbit
    rw [← hbit, Bool.false_and]
  · have hle := Nat.pow_le_pow_right Nat.two_pos (Nat.le_of_not_lt hi)
    rw [Nat.testBit_lt_two_pow (Nat.lt_of_lt_of_le hmask hle), Bool.and_false]

/-- A small mask sees the flags only. -/
theorem or_and_aligned {k x flags mask : Nat} (hx : x % 2 ^ k = 0) (hmask : mask < 2 ^ k) :
    (x ||| flags) &&& mask = flags &&& mask := by
  rw [Nat.and_or_distrib_right, aligned_and hx hmask, Nat.zero_or]

end Twos.Lib
