import Mathlib.Algebra.Group.Nat.Defs

/-!
# A stack of words

Words of eight bytes in a byte memory with 64-bit addresses, lowest byte first, and lists of them
that lie one behind the other. Addresses wrap around, so that a stack may begin anywhere: whether
two words overlap is decided by the distance of their addresses.

`word_putWord` and `putWord_outside` are about one word; `StackAt.push` puts one in front of a list,
`StackAt.get` reads one of the list, and `StackAt.congr` leaves it alone.
-/

namespace Twos.Lib

/-- What every 64-bit address holds. -/
abbrev Bytes64 : Type := BitVec 64 → BitVec 8

variable {m m' : Bytes64} {a b v w : BitVec 64} {ws : List (BitVec 64)}

/-- The word at `a`. -/
def word (m : Bytes64) (a : BitVec 64) : BitVec 64 :=
  m (a + 7) ++ m (a + 6) ++ m (a + 5) ++ m (a + 4) ++ m (a + 3) ++ m (a + 2) ++ m (a + 1) ++ m a

/-- Put the word `v` at `a`. -/
def putWord (m : Bytes64) (a v : BitVec 64) : Bytes64 := fun x =>
  if (x - a).toNat < 8 then v.extractLsb' (8 * (x - a).toNat) 8 else m x

/-- A word depends on its eight bytes. -/
theorem word_congr (h : ∀ i, i < 8 → m (a + BitVec.ofNat 64 i) = m' (a + BitVec.ofNat 64 i)) :
    word m a = word m' a := by
  have h0 := h 0 (by omega)
  rw [show BitVec.ofNat 64 0 = 0#64 from rfl, BitVec.add_zero] at h0
  have h1 : m (a + 1) = m' (a + 1) := h 1 (by omega)
  have h2 : m (a + 2) = m' (a + 2) := h 2 (by omega)
  have h3 : m (a + 3) = m' (a + 3) := h 3 (by omega)
  have h4 : m (a + 4) = m' (a + 4) := h 4 (by omega)
  have h5 : m (a + 5) = m' (a + 5) := h 5 (by omega)
  have h6 : m (a + 6) = m' (a + 6) := h 6 (by omega)
  have h7 : m (a + 7) = m' (a + 7) := h 7 (by omega)
  simp only [word, h0, h1, h2, h3, h4, h5, h6, h7]

theorem putWord_byte {i : Nat} (hi : i < 8) :
    putWord m a v (a + BitVec.ofNat 64 i) = v.extractLsb' (8 * i) 8 := by
  have hdist : (a + BitVec.ofNat 64 i - a).toNat = i := by
    rw [BitVec.add_comm, BitVec.add_sub_cancel, BitVec.toNat_ofNat]
    omega
  rw [putWord, hdist, if_pos hi]

/-- A word is found where it was put. -/
theorem word_putWord : word (putWord m a v) a = v := by
  have h0 := putWord_byte (m := m) (a := a) (v := v) (show 0 < 8 by omega)
  rw [show BitVec.ofNat 64 0 = 0#64 from rfl, BitVec.add_zero] at h0
  have h1 : putWord m a v (a + 1) = _ := putWord_byte (show 1 < 8 by omega)
  have h2 : putWord m a v (a + 2) = _ := putWord_byte (show 2 < 8 by omega)
  have h3 : putWord m a v (a + 3) = _ := putWord_byte (show 3 < 8 by omega)
  have h4 : putWord m a v (a + 4) = _ := putWord_byte (show 4 < 8 by omega)
  have h5 : putWord m a v (a + 5) = _ := putWord_byte (show 5 < 8 by omega)
  have h6 : putWord m a v (a + 6) = _ := putWord_byte (show 6 < 8 by omega)
  have h7 : putWord m a v (a + 7) = _ := putWord_byte (show 7 < 8 by omega)
  rw [word, h0, h1, h2, h3, h4, h5, h6, h7]
  apply BitVec.eq_of_getLsbD_eq
  intro i hi
  simp only [BitVec.getLsbD_append, BitVec.getLsbD_extractLsb']
  grind

/-- A byte that is not one of the word's stays. -/
theorem putWord_outside {x : BitVec 64} (h : 8 ≤ (x - a).toNat) : putWord m a v x = m x := by
  rw [putWord, if_neg (Nat.not_lt.mpr h)]

theorem add_word (a : BitVec 64) (n : Nat) :
    a + 8 + BitVec.ofNat 64 (8 * n) = a + BitVec.ofNat 64 (8 * (n + 1)) := by
  rw [Nat.mul_succ, Nat.add_comm, BitVec.ofNat_add, BitVec.add_assoc]
  rfl

/-- The words lie one behind the other from `a` on. -/
def StackAt (m : Bytes64) (a : BitVec 64) : List (BitVec 64) → Prop
  | [] => True
  | w :: ws => word m a = w ∧ StackAt m (a + 8) ws

/-- The word with number `i`. -/
theorem StackAt.get (h : StackAt m a ws) {i : Nat} (hi : i < ws.length) :
    word m (a + BitVec.ofNat 64 (8 * i)) = ws[i] := by
  induction ws generalizing a i with
  | nil => exact absurd hi (Nat.not_lt_zero i)
  | cons w ws ih =>
      cases i with
      | zero =>
          rw [Nat.mul_zero, show BitVec.ofNat 64 0 = 0#64 from rfl, BitVec.add_zero]
          exact h.1
      | succ i =>
          rw [← add_word]
          exact ih h.2 (Nat.lt_of_succ_lt_succ hi)

/-- Words stay where they are while their bytes do. -/
theorem StackAt.congr (h : StackAt m a ws)
    (heq : ∀ i, i < 8 * ws.length → m' (a + BitVec.ofNat 64 i) = m (a + BitVec.ofNat 64 i)) :
    StackAt m' a ws := by
  induction ws generalizing a with
  | nil => trivial
  | cons w ws ih =>
      rw [List.length_cons] at heq
      refine ⟨(word_congr fun i hi => heq i (by omega)).trans h.1, ih h.2 fun i hi => ?_⟩
      have hnext : a + 8 + BitVec.ofNat 64 i = a + BitVec.ofNat 64 (8 + i) := by
        rw [BitVec.ofNat_add, BitVec.add_assoc]
        rfl
      rw [hnext]
      exact heq (8 + i) (by omega)

/-- A word put below a stack is its new top, as long as the two do not meet around the end of the
address space. -/
theorem StackAt.push (h : StackAt m a ws) (hlen : 8 * (ws.length + 1) ≤ 2 ^ 64) :
    StackAt (putWord m (a - 8) v) (a - 8) (v :: ws) := by
  refine ⟨word_putWord, ?_⟩
  rw [BitVec.sub_add_cancel]
  refine h.congr fun i hi => putWord_outside ?_
  have hdist : a + BitVec.ofNat 64 i - (a - 8) = BitVec.ofNat 64 i + 8 := by grind
  rw [hdist, BitVec.toNat_add, BitVec.toNat_ofNat]
  have h8 : (8 : BitVec 64).toNat = 8 := rfl
  rw [h8]
  omega

end Twos.Lib
