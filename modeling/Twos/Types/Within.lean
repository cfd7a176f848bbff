import Twos.Types.OrderedArray

/-!
# Accesses of the ordered array

The functions of `orderedarray.h` with every access to the structure checked against a region, so
that a run that does not fault has stayed inside. `oarrayInsertWithin_eq` says that an insertion into
an array with a slot to spare, in a region that covers the slots, is the one without the checks; the
two loops come first (`searchWithin_eq`, `shiftWithin_eq`).
-/

namespace Twos

open Lib

/-! ## Insertion with checked accesses

The insertion once more, with a check of each access to the structure. Its search looks at elements
only, and the loop that moves elements up goes as far as the first free slot.
-/

/-- An access to `n` bytes from `a` on. -/
def access (lo hi a n : Nat) : Except Fault Unit :=
  if lo ≤ a ∧ a + n ≤ hi then .ok () else .error .outOfBounds

/-- `oarray_insert`, with every access to the structure checked. -/
def oarrayInsertWithin (lo hi : Nat) (greater : Memory → Nat → Nat → Bool) (m : Memory)
    (map element : Nat) : Except Fault (Nat × Memory) := do
  access lo hi (map + 40) 4
  access lo hi (map + 32) 4
  if oarrayIdx m map ≥ maxElements m map then .ok (0, m)
  else do
    access lo hi (map + 16) 8
    let itr ← whileLoop .neverEnds
      (fun itr => decide (itr < oarrayIdx m map) && !greater m (item m map itr) element)
      (fun itr => do
        access lo hi (itemAddr map itr) 8
        .ok (itr + 1)) (2 ^ 32) 0
    -- the item of the last comparison, and of the first store
    access lo hi (itemAddr map itr) 8
    if itr = oarrayIdx m map then
      let m := store m (itemAddr map itr) 8 element
      .ok (element, store m (map + 40) 4 ((oarrayIdx m map + 1) % 2 ^ 32))
    else do
      let displaced := item m map itr
      let s ← whileLoop .neverEnds (fun s => decide (s.itr < oarrayIdx s.mem map))
        (fun s => do
          access lo hi (itemAddr map (s.itr + 1)) 8
          shiftStep map s)
        (2 ^ 32) ⟨itr, displaced, store m (itemAddr map itr) 8 element⟩
      .ok (element, store s.mem (map + 40) 4 ((oarrayIdx s.mem map + 1) % 2 ^ 32))

variable {m : Memory} {lo hi map : Nat}

theorem access_ok {a n : Nat} (hlo : lo ≤ a) (hhi : a + n ≤ hi) : access lo hi a n = .ok () :=
  if_pos ⟨hlo, hhi⟩

theorem access_item {n i : Nat} (hlo : lo ≤ map) (hhi : map + SIZEOF_OARRAY + 8 * (n + 1) ≤ hi)
    (hle : i ≤ n) : access lo hi (itemAddr map i) 8 = .ok () := by
  apply access_ok
  · unfold itemAddr
    omega
  · unfold itemAddr
    omega

section Loops

variable (hitem : ∀ i, i ≤ oarrayIdx m map → access lo hi (itemAddr map i) 8 = .ok ())

include hitem

/-- The search looks at elements only. -/
theorem searchWithin_eq (found : Nat → Bool) :
    whileLoop Fault.neverEnds (fun itr => decide (itr < oarrayIdx m map) && !found itr)
        (fun itr => do
          access lo hi (itemAddr map itr) 8
          .ok (itr + 1)) (2 ^ 32) 0 =
      whileLoop Fault.neverEnds (fun itr => decide (itr < oarrayIdx m map) && !found itr)
        (fun itr => .ok (itr + 1)) (2 ^ 32) 0 := by
  apply whileLoop_congr (fun itr => itr ≤ oarrayIdx m map) (Nat.zero_le _)
  intro itr hle hcond
  rw [Bool.and_eq_true, decide_eq_true_eq] at hcond
  refine ⟨by rw [hitem itr hle, ok_seq], ?_⟩
  rintro _ ⟨⟩
  exact hcond.1

/-- The loop that moves elements up goes as far as the first free slot. -/
theorem shiftWithin_eq {s : Shift}
    (hs : oarrayIdx s.mem map = oarrayIdx m map ∧ s.itr ≤ oarrayIdx m map) :
    whileLoop Fault.neverEnds (fun s => decide (s.itr < oarrayIdx s.mem map))
        (fun s => do
          access lo hi (itemAddr map (s.itr + 1)) 8
          shiftStep map s) (2 ^ 32) s =
      whileLoop Fault.neverEnds (fun s => decide (s.itr < oarrayIdx s.mem map)) (shiftStep map)
        (2 ^ 32) s := by
  apply whileLoop_congr (fun s => oarrayIdx s.mem map = oarrayIdx m map ∧
    s.itr ≤ oarrayIdx m map) hs
  rintro s ⟨hidx, -⟩ hcond
  rw [decide_eq_true_eq, hidx] at hcond
  refine ⟨by rw [hitem (s.itr + 1) hcond, ok_seq], ?_⟩
  rintro _ ⟨⟩
  exact ⟨oarrayIdx_store_item.trans hidx, hcond⟩

end Loops

/-- An array with room stays inside the slots up to the first free one. -/
theorem oarrayInsertWithin_eq (greater : Memory → Nat → Nat → Bool) (element : Nat)
    (hroom : oarrayIdx m map < maxElements m map) (hlo : lo ≤ map)
    (hhi : map + SIZEOF_OARRAY + 8 * (oarrayIdx m map + 1) ≤ hi) :
    oarrayInsertWithin lo hi greater m map element = oarrayInsert greater m map element := by
  have hitem : ∀ i, i ≤ oarrayIdx m map → access lo hi (itemAddr map i) 8 = .ok () :=
    fun i hle => access_item hlo hhi hle
  have hlen := length_elements m map
  obtain ⟨k, hfound, hpos⟩ := search_spec (fun e => greater m e element) (elements m map)
    (item m map) (fun j hj => by simp [elements]) (by
      have := oarrayIdx_lt m map
      omega)
  have hle := hpos.le
  rw [hlen] at hfound hle
  unfold oarrayInsertWithin oarrayInsert
  rw [access_ok (by omega) (by lia), ok_seq, access_ok (by omega) (by lia), ok_seq,
    if_neg (by omega), if_neg (by omega), access_ok (by omega) (by lia), ok_seq,
    searchWithin_eq hitem, hfound, ok_seq, ok_seq, hitem k hle, ok_seq]
  split
  · rfl
  · next hmid =>
    dsimp only
    rw [shiftWithin_eq hitem ⟨oarrayIdx_store_item, hle⟩]

end Twos
