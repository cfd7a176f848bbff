import Twos.Types.Within

/-!
# Removal and access

`oarray_remove` closes the gap by moving down everything behind it, up to and with the slot behind
the last element, and `oarray_get` takes the index of that slot for one of an element. An array that
is full has no such slot.

* `close_spec` is the loop, by the invariant `Closing`; `oarrayRemove_spec` the routine.
* `removeWithin_room` and `removeWithin_full` are the same with every access checked: with a slot to
  spare nothing faults, in a full array the last turn reads behind the slots.
* `getsItem_iff` and `removesItem_iff` say for a single call when it does what it should.
-/

namespace Twos

open Lib

/-! ## The functions -/

/-- The locals of the loop that moves elements down. -/
structure Removal where
  idx : Nat
  mem : Memory

/-- One iteration of that loop. -/
def removeStep (map : Nat) (s : Removal) : Except Fault Removal :=
  .ok { idx := s.idx + 1, mem := store s.mem (itemAddr map s.idx) 8 (item s.mem map (s.idx + 1)) }

/-- `oarray_remove`. It is declared to return a number and returns none. -/
def oarrayRemove (m : Memory) (map idx : Nat) : Except Fault Memory := do
  let s ← whileLoop .neverEnds (fun s => decide (s.idx < oarrayIdx s.mem map)) (removeStep map)
    (2 ^ 32) ⟨idx, m⟩
  -- `map->idx--` on a `uint32_t`
  .ok (store s.mem (map + 40) 4 ((oarrayIdx s.mem map + (2 ^ 32 - 1)) % 2 ^ 32))

/-- `oarray_remove`, with every access to the structure checked. -/
def oarrayRemoveWithin (lo hi : Nat) (m : Memory) (map idx : Nat) : Except Fault Memory := do
  access lo hi (map + 40) 4
  let s ← whileLoop .neverEnds (fun s => decide (s.idx < oarrayIdx s.mem map))
    (fun s => do
      access lo hi (itemAddr map (s.idx + 1)) 8
      access lo hi (itemAddr map s.idx) 8
      removeStep map s) (2 ^ 32) ⟨idx, m⟩
  .ok (store s.mem (map + 40) 4 ((oarrayIdx s.mem map + (2 ^ 32 - 1)) % 2 ^ 32))

/-- `oarray_get`, with every access to the structure checked. -/
def oarrayGetWithin (lo hi : Nat) (m : Memory) (map idx : Nat) : Except Fault Nat := do
  access lo hi (map + 40) 4
  if idx > oarrayIdx m map then .ok 0
  else do
    access lo hi (itemAddr map idx) 8
    .ok (item m map idx)

/-- Where the slots of an array end. -/
def slotsEnd (m : Memory) (map : Nat) : Nat := map + SIZEOF_OARRAY + 8 * maxElements m map

variable {m m' : Memory} {map i j n : Nat}

/-! ## Access

`oarray_get` asserts that the index is at most the size, which lets the index of the slot behind the
last element pass. What is there is not an element.
-/

theorem getD_elements (m : Memory) (map i : Nat) :
    (elements m map).getD i 0 = if i < oarrayIdx m map then item m map i else 0 := by
  split
  · next hlt =>
    rw [List.getD_eq_getElem _ _ (by rw [length_elements]; exact hlt)]
    simp [elements]
  · next hge =>
    rw [List.getD_eq_default]
    rw [length_elements]
    exact Nat.le_of_not_lt hge

/-- `oarray_get` answers as the list does, and stays inside the slots. -/
def GetsItem (m : Memory) (map i : Nat) : Prop :=
  oarrayGet m map i = (elements m map).getD i 0 ∧
    oarrayGetWithin map (slotsEnd m map) m map i = .ok (oarrayGet m map i)

theorem access_slot (hi : i < maxElements m map) :
    access map (slotsEnd m map) (itemAddr map i) 8 = .ok () := by
  apply access_ok
  · unfold itemAddr
    lia
  · unfold itemAddr slotsEnd
    lia

/-- There is no slot behind the last one. -/
theorem access_beyond : access map (slotsEnd m map) (itemAddr map (maxElements m map)) 8 =
    .error .outOfBounds := by
  apply if_neg
  unfold itemAddr slotsEnd
  lia

theorem access_idx : access map (slotsEnd m map) (map + 40) 4 = .ok () := by
  apply access_ok
  · exact Nat.le_add_right _ _
  · unfold slotsEnd
    lia

theorem getWithin_or (m : Memory) (map i : Nat) :
    oarrayGetWithin map (slotsEnd m map) m map i = .ok (oarrayGet m map i) ∨
      oarrayGetWithin map (slotsEnd m map) m map i = .error .outOfBounds := by
  rw [oarrayGetWithin, access_idx, ok_seq, oarrayGet]
  split
  · exact .inl rfl
  · unfold access
    split
    · exact .inl rfl
    · exact .inr rfl

/-- The index of the slot behind the last element is taken for that of an element. -/
theorem getsItem_iff (hn : oarrayIdx m map ≤ maxElements m map) :
    GetsItem m map i ↔
      (i = oarrayIdx m map → oarrayIdx m map < maxElements m map ∧ item m map i = 0) := by
  rw [GetsItem, getD_elements, oarrayGetWithin, access_idx, ok_seq, oarrayGet]
  rcases Nat.lt_trichotomy i (oarrayIdx m map) with hlt | heq | hgt
  · rw [if_neg (Nat.lt_asymm hlt), if_pos hlt, if_neg (Nat.lt_asymm hlt),
      access_slot (Nat.lt_of_lt_of_le hlt hn)]
    exact iff_of_true ⟨rfl, rfl⟩ fun heq => absurd heq (Nat.ne_of_lt hlt)
  · rw [if_neg (Nat.not_lt_of_le (Nat.le_of_eq heq)), if_neg (Nat.not_lt_of_le (Nat.le_of_eq heq.symm)),
      if_neg (Nat.not_lt_of_le (Nat.le_of_eq heq))]
    -- the comparison lets this index pass
    rcases Nat.lt_or_eq_of_le hn with hroom | hfull
    · rw [access_slot (heq ▸ hroom)]
      simp [heq, hroom, ok_seq]
    · rw [heq, hfull, access_beyond]
      simp
  · rw [if_pos hgt, if_neg (Nat.lt_asymm hgt), if_pos hgt]
    exact iff_of_true ⟨rfl, rfl⟩ fun heq => absurd heq.symm (Nat.ne_of_lt hgt)

/-! ## Moving elements down

The loop starts at the element that is taken out and copies each one from behind it. It makes a
round for the last element as well, and reads the slot behind that; `Closing` is what it keeps.
-/

/-- The state of the loop that moves elements down, for an element that was at position `i` of an
array `m` with `n` elements: the items behind it have moved down as far as `idx`. -/
structure Closing (m : Memory) (map n i : Nat) (s : Removal) : Prop where
  le : i ≤ s.idx ∧ s.idx ≤ n
  idx : oarrayIdx s.mem map = n
  items : ∀ j, item s.mem map j = if i ≤ j ∧ j < s.idx then item m map (j + 1) else item m map j
  frame : ∀ x, ¬ InArray map n x → s.mem x = m x

theorem closing_init (hi : i < oarrayIdx m map) : Closing m map (oarrayIdx m map) i ⟨i, m⟩ where
  le := ⟨Nat.le_refl _, Nat.le_of_lt hi⟩
  idx := rfl
  items := by
    intro j
    have hnone : ¬ (i ≤ j ∧ j < i) := by omega
    rw [if_neg hnone]
  frame := fun x _ => rfl

theorem closing_step {s : Removal} (h : Closing m map n i s) (hlt : s.idx < n) :
    Outcome (fun s' => Closing m map n i s' ∧ n - s'.idx < n - s.idx) (fun _ => False)
      (removeStep map s) := by
  obtain ⟨hi, _⟩ := h.le
  refine ⟨⟨⟨?_, ?_⟩, ?_, ?_, ?_⟩, ?_⟩
  · dsimp only
    omega
  · exact hlt
  · exact oarrayIdx_store_item.trans h.idx
  · intro j
    dsimp only
    rw [item_store_item (item_lt s.mem map _), h.items, h.items]
    split
    · next heq =>
      -- the item behind has not moved yet
      rw [if_neg (by omega), if_pos (by omega), heq]
    · next hne =>
      have hiff : (i ≤ j ∧ j < s.idx) ↔ (i ≤ j ∧ j < s.idx + 1) := by omega
      simp only [hiff]
  · intro x hx
    rw [← h.frame x hx]
    exact store_item_outside hx hlt
  · dsimp only
    omega

/-- The items of an array out of which an element at position `i` went, as a list. -/
theorem map_range_erase (f : Nat → Nat) (hi : i < n) :
    (List.range (n - 1)).map (fun j => if i ≤ j then f (j + 1) else f j) =
      ((List.range n).map f).eraseIdx i := by
  have hlen : i < ((List.range n).map f).length := by
    rw [List.length_map, List.length_range]
    exact hi
  apply List.ext_getElem
  · rw [List.length_eraseIdx_of_lt hlen]
    simp
  · intro j hj hj'
    rw [List.getElem_eraseIdx]
    grind

/-- The loop that moves elements down moves all of them. -/
theorem close_spec (hi : i < oarrayIdx m map) :
    ∃ s, whileLoop Fault.neverEnds (fun s => decide (s.idx < oarrayIdx s.mem map)) (removeStep map)
        (2 ^ 32) ⟨i, m⟩ = .ok s ∧
      Closing m map (oarrayIdx m map) i s ∧ s.idx = oarrayIdx m map := by
  have hlen := oarrayIdx_lt m map
  have hloop : Outcome (fun s => Closing m map (oarrayIdx m map) i s ∧
      decide (s.idx < oarrayIdx s.mem map) = false) (fun _ => False)
      (whileLoop Fault.neverEnds (fun s => decide (s.idx < oarrayIdx s.mem map)) (removeStep map)
        (2 ^ 32) ⟨i, m⟩) := by
    apply whileLoop_rule (Closing m map (oarrayIdx m map) i) (fun _ => False)
      (fun s => oarrayIdx m map - s.idx)
    · exact closing_init hi
    · dsimp only
      omega
    · intro s hs hcond
      rw [hs.idx, decide_eq_true_eq] at hcond
      exact closing_step hs hcond
  obtain ⟨s, hrun, hs, hexit⟩ := hloop.returns
  refine ⟨s, hrun, hs, ?_⟩
  rw [hs.idx, decide_eq_false_iff_not] at hexit
  have := hs.le
  omega

/-! ## Removal

The slot that is read behind the last element is inside the array as long as this is not full. In a
full array it is the word behind the slots, and the removal takes the element out nevertheless.
-/

/-- A removal takes the element out and changes nothing outside the array. -/
theorem oarrayRemove_spec (hi : i < oarrayIdx m map) :
    ∃ m', oarrayRemove m map i = .ok m' ∧ elements m' map = (elements m map).eraseIdx i ∧
      ∀ x, ¬ InArray map (oarrayIdx m map) x → m' x = m x := by
  have hlen := oarrayIdx_lt m map
  obtain ⟨s, hrun, hs, hend⟩ := close_spec hi
  have hidx : (oarrayIdx s.mem map + (2 ^ 32 - 1)) % 2 ^ 32 = oarrayIdx m map - 1 := by
    rw [hs.idx]
    omega
  refine ⟨store s.mem (map + 40) 4 (oarrayIdx m map - 1), ?_, ?_, ?_⟩
  · rw [oarrayRemove, hrun, ok_seq, hidx]
  · show List.map _ (List.range (oarrayIdx _ map)) = _
    rw [oarrayIdx_store_idx (by omega)]
    refine Eq.trans ?_ (map_range_erase (item m map) hi)
    apply List.map_congr_left
    intro j hj
    have hlt := List.mem_range.mp hj
    rw [item_store_idx, hs.items, hend]
    have hiff : (i ≤ j ∧ j < oarrayIdx m map) ↔ i ≤ j := by omega
    simp only [hiff]
  · intro x hx
    rw [store_idx_outside hx]
    exact hs.frame x hx

/-- In an array with room the removal reads no slot that there is not. -/
theorem removeWithin_room (hroom : oarrayIdx m map < maxElements m map) :
    oarrayRemoveWithin map (slotsEnd m map) m map i = oarrayRemove m map i := by
  rw [oarrayRemoveWithin, oarrayRemove, access_idx, ok_seq]
  congr 1
  apply whileLoop_congr (fun s => oarrayIdx s.mem map = oarrayIdx m map) rfl
  intro s hs hcond
  rw [hs, decide_eq_true_eq] at hcond
  refine ⟨?_, ?_⟩
  · rw [access_slot (by omega), ok_seq, access_slot (by omega), ok_seq]
  · rintro _ ⟨⟩
    exact oarrayIdx_store_item.trans hs

/-- In a full one it reads the word behind the slots. -/
theorem removeWithin_full (hi : i < oarrayIdx m map) (hfull : oarrayIdx m map = maxElements m map) :
    oarrayRemoveWithin map (slotsEnd m map) m map i = .error .outOfBounds := by
  have hlen := oarrayIdx_lt m map
  have hloop : Outcome (fun s => (oarrayIdx s.mem map = oarrayIdx m map ∧ s.idx < oarrayIdx m map) ∧
      decide (s.idx < oarrayIdx s.mem map) = false) (· = Fault.outOfBounds)
      (whileLoop Fault.neverEnds (fun s => decide (s.idx < oarrayIdx s.mem map))
        (fun s => do
          access map (slotsEnd m map) (itemAddr map (s.idx + 1)) 8
          access map (slotsEnd m map) (itemAddr map s.idx) 8
          removeStep map s) (2 ^ 32) ⟨i, m⟩) := by
    apply whileLoop_rule
      (fun s : Removal => oarrayIdx s.mem map = oarrayIdx m map ∧ s.idx < oarrayIdx m map)
      (· = Fault.outOfBounds) (fun s => oarrayIdx m map - s.idx)
    · exact ⟨rfl, hi⟩
    · dsimp only
      omega
    · rintro s ⟨hs, hlt⟩ -
      -- an element further down, with a slot behind it
      rcases Nat.lt_or_eq_of_le (Nat.succ_le_of_lt hlt) with hnext | hlast
      · rw [access_slot (by omega), ok_seq, access_slot (by omega), ok_seq]
        refine ⟨⟨oarrayIdx_store_item.trans hs, hnext⟩, ?_⟩
        dsimp only
        omega
      · -- the last element: behind it there is no slot
        rw [show s.idx + 1 = maxElements m map by omega, access_beyond]
        rfl
  rw [oarrayRemoveWithin, access_idx, ok_seq]
  generalize whileLoop Fault.neverEnds _ _ _ _ = r at hloop
  cases r with
  | error e =>
      obtain rfl : e = Fault.outOfBounds := hloop
      rfl
  | ok s =>
      obtain ⟨⟨hs, hlt⟩, hexit⟩ := hloop
      rw [hs, decide_eq_false_iff_not] at hexit
      exact absurd hlt hexit

/-- `oarray_remove` takes the element out, and stays inside the slots. -/
def RemovesItem (m : Memory) (map i : Nat) : Prop :=
  ∃ m', oarrayRemove m map i = .ok m' ∧ elements m' map = (elements m map).eraseIdx i ∧
    oarrayRemoveWithin map (slotsEnd m map) m map i = .ok m'

/-- A removal needs a slot behind the last element. -/
theorem removesItem_iff (hi : i < oarrayIdx m map) (hn : oarrayIdx m map ≤ maxElements m map) :
    RemovesItem m map i ↔ oarrayIdx m map < maxElements m map := by
  obtain ⟨m', hrun, helements, -⟩ := oarrayRemove_spec hi
  constructor
  · rintro ⟨m'', -, -, hwithin⟩
    apply Nat.lt_of_le_of_ne hn
    intro hfull
    rw [removeWithin_full hi hfull] at hwithin
    cases hwithin
  · intro hroom
    exact ⟨m', hrun, helements, (removeWithin_room hroom).trans hrun⟩

end Twos
