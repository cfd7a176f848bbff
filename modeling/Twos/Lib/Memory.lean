import Mathlib.Algebra.Group.Nat.Defs

/-!
# Byte memory

Memory as a total function from addresses to bytes, with little-endian loads and stores of any
width. Three lemmas carry everything that is done with it: a store changes no byte outside
(`store_outside`), a load sees what a store to the same place left (`load_store_same`), and a load
elsewhere sees what was there before (`load_store_disjoint`). `load_part` takes a field out of a
wider load, and `load_eq_iff` compares two loads byte by byte.

Addresses are natural numbers. An access that would run over the top of the address space is outside
of what is modelled.
-/

namespace Twos.Lib

/-- A byte. -/
abbrev Byte : Type := BitVec 8

/-- What every address holds. -/
abbrev Memory : Type := Nat → Byte

variable {m m' : Memory} {a b n k v x : Nat}

/-- The `n` bytes from `a` on, as a number, lowest byte first. -/
def load (m : Memory) (a : Nat) : Nat → Nat
  | 0 => 0
  | n + 1 => (m a).toNat + 256 * load m (a + 1) n

/-- Put the number `v` into the `n` bytes from `a` on, lowest byte first. -/
def store (m : Memory) (a n v : Nat) : Memory := fun x =>
  if a ≤ x ∧ x < a + n then BitVec.ofNat 8 (v / 256 ^ (x - a)) else m x

/-- Put one byte value into all `n` bytes from `a` on. -/
def fill (m : Memory) (a n : Nat) (byte : Byte) : Memory := fun x =>
  if a ≤ x ∧ x < a + n then byte else m x

theorem load_lt (m : Memory) (a n : Nat) : load m a n < 256 ^ n := by
  induction n generalizing a with
  | zero => exact Nat.one_pos
  | succ n ih =>
      have hbyte := (m a).isLt
      have hrest := ih (a + 1)
      rw [load, Nat.pow_succ]
      omega

/-- A load depends on the bytes it covers. -/
theorem load_congr (h : ∀ x, a ≤ x → x < a + n → m x = m' x) : load m a n = load m' a n := by
  induction n generalizing a with
  | zero => rfl
  | succ n ih =>
      rw [load, load, h a (Nat.le_refl a) (by omega), ih]
      intro x hlo hhi
      exact h x (by omega) (by omega)

/-- Two loads are equal exactly when the bytes are. -/
theorem load_eq_iff :
    load m a n = load m' b n ↔ ∀ x, x < n → m (a + x) = m' (b + x) := by
  induction n generalizing a b with
  | zero => simp [load]
  | succ n ih =>
      have hm := (m a).isLt
      have hm' := (m' b).isLt
      -- a number determines its lowest byte and the rest
      have hsplit : load m a (n + 1) = load m' b (n + 1) ↔
          m a = m' b ∧ load m (a + 1) n = load m' (b + 1) n := by
        rw [load, load, ← BitVec.toNat_inj]
        omega
      rw [hsplit, ih]
      constructor
      · rintro ⟨hhead, htail⟩ x hx
        cases x with
        | zero => exact hhead
        | succ x =>
            rw [Nat.add_comm x 1, ← Nat.add_assoc, ← Nat.add_assoc]
            exact htail x (by omega)
      · intro h
        refine ⟨h 0 (Nat.succ_pos n), fun x hx => ?_⟩
        rw [Nat.add_assoc, Nat.add_assoc, Nat.add_comm 1 x]
        exact h (x + 1) (by omega)

/-- A store changes nothing outside the bytes it covers. -/
theorem store_outside (h : x < a ∨ a + n ≤ x) : store m a n v x = m x := by
  apply if_neg
  omega

/-- The first byte of a store. -/
theorem store_head (h : 0 < n) : store m a n v a = BitVec.ofNat 8 v := by
  unfold store
  rw [if_pos (by omega), Nat.sub_self, Nat.pow_zero, Nat.div_one]

/-- A load sees what a store to the same place left. -/
theorem load_store_same (hv : v < 256 ^ n) : load (store m a n v) a n = v := by
  induction n generalizing m a v with
  | zero =>
      rw [Nat.pow_zero] at hv
      rw [load]
      omega
  | succ n ih =>
      -- the bytes above the first are those of a store of `v / 256`
      have htail : load (store m a (n + 1) v) (a + 1) n =
          load (store m (a + 1) n (v / 256)) (a + 1) n := by
        apply load_congr
        intro x hlo hhi
        unfold store
        rw [if_pos (by omega), if_pos (by omega), Nat.div_div_eq_div_mul, ← Nat.pow_succ']
        congr 3
        omega
      rw [Nat.pow_succ] at hv
      rw [load, htail, ih (by omega), store_head (Nat.succ_pos n), BitVec.toNat_ofNat]
      omega

/-- A load elsewhere sees what was there before. -/
theorem load_store_disjoint (h : b + k ≤ a ∨ a + n ≤ b) :
    load (store m a n v) b k = load m b k := by
  apply load_congr
  intro x hlo hhi
  apply store_outside
  omega

theorem fill_inside {byte : Byte} (h : a ≤ x ∧ x < a + n) : fill m a n byte x = byte := if_pos h

theorem fill_outside {byte : Byte} (h : x < a ∨ a + n ≤ x) : fill m a n byte x = m x := by
  apply if_neg
  omega

/-- A load from bytes that are all zero. -/
theorem load_zeros (h : ∀ x, a ≤ x → x < a + n → m x = 0) : load m a n = 0 := by
  induction n generalizing a with
  | zero => rfl
  | succ n ih =>
      have htail := ih (a := a + 1) fun x hlo hhi => h x (by omega) (by omega)
      rw [load, h a (Nat.le_refl a) (by omega), htail]
      rfl

/-- Part of a longer load. -/
theorem load_part (m : Memory) (a : Nat) {i k n : Nat} (h : i + k ≤ n) :
    load m (a + i) k = load m a n / 256 ^ i % 256 ^ k := by
  induction i generalizing a n with
  | zero =>
      -- the low bytes
      rw [Nat.pow_zero, Nat.div_one, Nat.add_zero]
      induction k generalizing a n with
      | zero => rw [Nat.pow_zero, Nat.mod_one, load]
      | succ k ih =>
          obtain ⟨n, rfl⟩ : ∃ l, n = l + 1 := ⟨n - 1, by omega⟩
          have hbyte := (m a).isLt
          rw [load, load, ih (a + 1) (n := n) (by omega), Nat.pow_succ', Nat.mod_mul]
          have hlow : ((m a).toNat + 256 * load m (a + 1) n) % 256 = (m a).toNat := by omega
          have hhigh : ((m a).toNat + 256 * load m (a + 1) n) / 256 = load m (a + 1) n := by omega
          rw [hlow, hhigh]
  | succ i ih =>
      obtain ⟨n, rfl⟩ : ∃ l, n = l + 1 := ⟨n - 1, by omega⟩
      have hbyte := (m a).isLt
      have hhigh : ((m a).toNat + 256 * load m (a + 1) n) / 256 = load m (a + 1) n := by omega
      rw [show a + (i + 1) = a + 1 + i by omega, ih (a + 1) (n := n) (by omega), load,
        Nat.pow_succ', ← Nat.div_div_eq_div_mul, hhigh]

end Twos.Lib
