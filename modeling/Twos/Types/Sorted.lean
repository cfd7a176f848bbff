import Twos.Lib.Sorted
import Twos.Types.Within

/-!
# Insertion into a sorted array

What `oarray_insert` makes of an array that is in order: the sorted list with one more element, in
the first free slot and those below it. All comparisons are made before the first store, so the order
is that of the comparison in the memory that the call finds.

`oarrayInsert_sorted` is about every strict weak order: the elements are the old ones and the new one,
in order, those alike in the order in which they came, and a full array stays as it is.
-/

namespace Twos

open Lib

variable {m m' : Memory} {map element : Nat}

/-- One element more: in order, nothing lost or gained, behind those that are alike, and with nothing
read or written of the array behind the first free slot. -/
structure Inserted (greater : Memory → Nat → Nat → Bool) (m m' : Memory) (map element : Nat) :
    Prop where
  count : oarrayIdx m' map = oarrayIdx m map + 1
  sorted : InOrder (greater m) (elements m' map)
  perm : (elements m' map).Perm (element :: elements m map)
  stable : ∀ x, (elements m' map).filter (alike (greater m) x) =
    (elements m map).filter (alike (greater m) x) ++ if alike (greater m) x element then [element] else []
  written : ∀ x, ¬ InArray map (oarrayIdx m map + 1) x → m' x = m x
  within : oarrayInsertWithin map (map + SIZEOF_OARRAY + 8 * (oarrayIdx m map + 1)) greater m map
    element = .ok (element, m')

/-- An insertion into an array with room. -/
theorem oarrayInsert_insertSorted (greater : Memory → Nat → Nat → Bool)
    (hroom : oarrayIdx m map < maxElements m map) (he : element < WORD) :
    ∃ m', oarrayInsert greater m map element = .ok (element, m') ∧
      elements m' map = insertSorted (greater m) element (elements m map) ∧
      ∀ x, ¬ InArray map (oarrayIdx m map + 1) x → m' x = m x := by
  obtain ⟨m', k, hrun, hplace, helements, hframe⟩ := oarrayInsert_spec greater hroom he
  exact ⟨m', hrun, helements.trans hplace.eq_insertSorted, hframe⟩

/-- Into an array in order an insertion is a sorted one, unless the array is full. Then nothing
happens, and 0 is returned. -/
theorem oarrayInsert_sorted (greater : Memory → Nat → Nat → Bool)
    (horder : IsStrictWeakOrder Nat fun a b => greater m a b = true)
    (hsorted : InOrder (greater m) (elements m map)) (he : element < WORD) :
    (oarrayIdx m map < maxElements m map →
      ∃ m', oarrayInsert greater m map element = .ok (element, m') ∧
        Inserted greater m m' map element) ∧
    (maxElements m map ≤ oarrayIdx m map → oarrayInsert greater m map element = .ok (0, m)) := by
  constructor
  · intro hroom
    obtain ⟨m', hrun, helements, hframe⟩ := oarrayInsert_insertSorted greater hroom he
    refine ⟨m', hrun, ?_, ?_, ?_, ?_, hframe, ?_⟩
    · have hlength := congrArg List.length helements
      rwa [length_elements, List.orderedInsert_length, length_elements] at hlength
    · rw [helements]
      exact hsorted.insert horder element
    · rw [helements]
      exact List.perm_orderedInsert _ _ _
    · intro x
      rw [helements]
      exact filter_insert horder hsorted element x
    · rw [← hrun]
      exact oarrayInsertWithin_eq greater element hroom (Nat.le_refl _) (Nat.le_refl _)
  · intro hfull
    exact if_pos hfull

/-- Numbers by their tens. -/
def byTens (_ : Memory) (a b : Nat) : Bool := decide (b / 10 < a / 10)

/-- An array of four slots with two items. -/
def twoItems : Memory :=
  store (store (store (store (fun _ => 0) 32 4 4) 40 4 2) 48 8 11) 56 8 25

theorem byTens_order (m : Memory) : IsStrictWeakOrder Nat fun a b => byTens m a b = true :=
  order_by (· / 10)

theorem oarrayInsert_sorted_middle :
    ∃ m', oarrayInsert byTens twoItems 0 12 = .ok (12, m') ∧
      Inserted byTens twoItems m' 0 12 ∧ elements twoItems 0 = [11, 25] :=
  have helements : elements twoItems 0 = [11, 25] := by decide +kernel
  have hsorted : InOrder (byTens twoItems) (elements twoItems 0) := by
    rw [helements]
    simp [InOrder, byTens]
  have hinsert := (oarrayInsert_sorted byTens (byTens_order twoItems) hsorted (by decide)).1
    (by decide +kernel : oarrayIdx twoItems 0 < maxElements twoItems 0)
  ⟨hinsert.choose, hinsert.choose_spec.1, hinsert.choose_spec.2, helements⟩

end Twos
