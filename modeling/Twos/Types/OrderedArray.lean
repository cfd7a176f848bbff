import Twos.Kernel.Base
import Twos.Lib.Loop
import Twos.Lib.Memory
import Twos.Lib.Sorted

/-!
# The ordered array

`orderedarray.h`: an array of words in memory, kept in the order of a comparison that its owner
supplies. The comparison is a C function, so it may read memory. The functions here read and write
the bytes of the structure the way the compiled code does, and `oarrayInsert_spec` says what an
insertion comes to: the new element goes in front of the first one that is greater, everything
behind it moves up, and no byte outside the array changes.

* `search_spec` is the first loop, which finds the place, and `shift_spec` the second, which moves
  up what lies behind it; `Shifting` is its invariant.
* `InsertsAt.eq_insertSorted` and `InsertsAt.sorted` turn the place into an insertion in order, if
  the array was in order.
-/

namespace Twos

open Lib

/-! ## The structure in memory -/

/-- `sizeof(oarray_t)`: three function pointers, `max_size_bytes`, `max_elements` and `idx`, each
aligned to eight bytes. -/
abbrev SIZEOF_OARRAY : Nat := 48

/-- The function pointers that `oarray_init` stores. -/
structure OarrayHooks where
  bmalloc : Nat
  bfree : Nat
  bgreater : Nat

/-- `map->prop.max_elements`. -/
def maxElements (m : Memory) (map : Nat) : Nat := load m (map + 32) 4

/-- `map->idx`, the number of elements. -/
def oarrayIdx (m : Memory) (map : Nat) : Nat := load m (map + 40) 4

/-- The address of `map->items[i]`. -/
def itemAddr (map i : Nat) : Nat := map + SIZEOF_OARRAY + 8 * i

/-- `map->items[i]`. -/
def item (m : Memory) (map i : Nat) : Nat := load m (itemAddr map i) 8

/-- The elements, in order. -/
def elements (m : Memory) (map : Nat) : List Nat :=
  (List.range (oarrayIdx m map)).map (item m map)

/-! ## Its functions -/

/-- `oarray_init`, given the block its allocator returned. -/
def oarrayInit (hooks : OarrayHooks) (size map : Nat) (m : Memory) : Memory :=
  let m := store m (map + 24) 8 size
  let m := store m (map + 16) 8 hooks.bgreater
  let m := store m (map + 8) 8 hooks.bfree
  let m := store m map 8 hooks.bmalloc
  let m := store m (map + 32) 4 ((size - SIZEOF_OARRAY) / 8 % 2 ^ 32)
  store m (map + 40) 4 0

/-- `oarray_get`. -/
def oarrayGet (m : Memory) (map idx : Nat) : Nat :=
  if idx > oarrayIdx m map then 0 else item m map idx

/-- The locals of the loop that moves elements up. -/
structure Shift where
  itr : Nat
  displaced : Nat
  mem : Memory

/-- One iteration of that loop. -/
def shiftStep (map : Nat) (s : Shift) : Except Fault Shift :=
  let itr := s.itr + 1
  let tmp := item s.mem map itr
  .ok { itr, displaced := tmp, mem := store s.mem (itemAddr map itr) 8 s.displaced }

/-- `oarray_insert`: the element, or 0 when the array is full. -/
def oarrayInsert (greater : Memory → Nat → Nat → Bool) (m : Memory) (map element : Nat) :
    Except Fault (Nat × Memory) :=
  if oarrayIdx m map ≥ maxElements m map then .ok (0, m)
  else do
    let itr ← whileLoop .neverEnds
      (fun itr => decide (itr < oarrayIdx m map) && !greater m (item m map itr) element)
      (fun itr => .ok (itr + 1)) (2 ^ 32) 0
    if itr = oarrayIdx m map then
      let m := store m (itemAddr map itr) 8 element
      .ok (element, store m (map + 40) 4 ((oarrayIdx m map + 1) % 2 ^ 32))
    else do
      let displaced := item m map itr
      let s ← whileLoop .neverEnds (fun s => decide (s.itr < oarrayIdx s.mem map)) (shiftStep map)
        (2 ^ 32) ⟨itr, displaced, store m (itemAddr map itr) 8 element⟩
      .ok (element, store s.mem (map + 40) 4 ((oarrayIdx s.mem map + 1) % 2 ^ 32))

/-! ## Reading after writing -/

variable {m m' : Memory} {map i j n v element : Nat}

theorem oarrayIdx_lt (m : Memory) (map : Nat) : oarrayIdx m map < 2 ^ 32 := load_lt m (map + 40) 4

theorem item_lt (m : Memory) (map i : Nat) : item m map i < WORD := load_lt m (itemAddr map i) 8

@[simp] theorem length_elements (m : Memory) (map : Nat) :
    (elements m map).length = oarrayIdx m map := by
  simp [elements]

/-- Storing an item changes that item only. -/
theorem item_store_item (hv : v < WORD) :
    item (store m (itemAddr map i) 8 v) map j = if j = i then v else item m map j := by
  unfold item
  split
  · next heq =>
    rw [heq]
    exact load_store_same hv
  · next hne =>
    apply load_store_disjoint
    unfold itemAddr
    omega

@[simp] theorem oarrayIdx_store_item :
    oarrayIdx (store m (itemAddr map i) 8 v) map = oarrayIdx m map := by
  apply load_store_disjoint
  unfold itemAddr
  lia

@[simp] theorem item_store_idx : item (store m (map + 40) 4 v) map i = item m map i := by
  apply load_store_disjoint
  unfold itemAddr
  lia

theorem oarrayIdx_store_idx (hv : v < 2 ^ 32) : oarrayIdx (store m (map + 40) 4 v) map = v :=
  load_store_same hv

/-- What holds the array's contents: every byte of it that an insertion may write. -/
def InArray (map n x : Nat) : Prop :=
  (map + 40 ≤ x ∧ x < map + 44) ∨ (map + SIZEOF_OARRAY ≤ x ∧ x < map + SIZEOF_OARRAY + 8 * n)

/-- Storing an item changes no byte outside. -/
theorem store_item_outside {x : Nat} (hx : ¬ InArray map n x) (hi : i < n) :
    store m (itemAddr map i) 8 v x = m x := by
  apply store_outside
  unfold InArray at hx
  unfold itemAddr
  omega

/-- Nor does storing the index. -/
theorem store_idx_outside {x : Nat} (hx : ¬ InArray map n x) : store m (map + 40) 4 v x = m x := by
  apply store_outside
  unfold InArray at hx
  omega

/-! ## Moving elements up -/

/-- The state of the loop that moves elements up, for an element that went to position `k` of an
array `m` with `n` elements: the items behind `k` have moved up as far as `itr`. -/
structure Shifting (m : Memory) (map n k element : Nat) (s : Shift) : Prop where
  le : k ≤ s.itr ∧ s.itr ≤ n
  displaced : s.displaced = item m map s.itr
  idx : oarrayIdx s.mem map = n
  items : ∀ j, item s.mem map j =
    if j = k then element else if k < j ∧ j ≤ s.itr then item m map (j - 1) else item m map j
  frame : ∀ x, ¬ InArray map (n + 1) x → s.mem x = m x

theorem shifting_init {k : Nat} (hk : k < oarrayIdx m map) (he : element < WORD) :
    Shifting m map (oarrayIdx m map) k element
      ⟨k, item m map k, store m (itemAddr map k) 8 element⟩ where
  le := ⟨Nat.le_refl _, Nat.le_of_lt hk⟩
  displaced := rfl
  idx := oarrayIdx_store_item
  items := by
    intro j
    rw [item_store_item he]
    have hnone : ¬ (k < j ∧ j ≤ k) := by omega
    rw [if_neg hnone]
  frame _ hx := store_item_outside hx (Nat.lt_succ_of_lt hk)

theorem shifting_step {k : Nat} {s : Shift} (h : Shifting m map n k element s) (hlt : s.itr < n) :
    Outcome (fun s' => Shifting m map n k element s' ∧ n - s'.itr < n - s.itr) (fun _ => False)
      (shiftStep map s) := by
  obtain ⟨hk, _⟩ := h.le
  refine ⟨⟨⟨?_, ?_⟩, ?_, ?_, ?_, ?_⟩, ?_⟩
  · dsimp only
    omega
  · exact hlt
  · dsimp only
    rw [h.items, if_neg (by omega), if_neg (by omega)]
  · exact oarrayIdx_store_item.trans h.idx
  · intro j
    dsimp only
    rw [item_store_item (h.displaced ▸ item_lt m map _), h.items, h.displaced]
    split
    · next heq =>
      rw [if_neg (by omega), if_pos (by omega), heq, Nat.add_sub_cancel]
    · next hne =>
      have hiff : (k < j ∧ j ≤ s.itr) ↔ (k < j ∧ j ≤ s.itr + 1) := by omega
      simp only [hiff]
  · intro x hx
    rw [← h.frame x hx]
    exact store_item_outside hx (Nat.succ_lt_succ hlt)
  · dsimp only
    omega

/-! ## Insertion

The insertion searches from the front and moves the rest up by one. `search_spec` says where the
search stops, and `shift_spec`, by induction on how many elements are still to be moved, what the
loop leaves. `InsertsAt` is the result without the loops: the element is in front of the first that
is greater.
-/

/-- Where an element goes: in front of the first one that is greater. -/
structure InsertsAt (greater : Nat → Bool) (es : List Nat) (k : Nat) : Prop where
  le : k ≤ es.length
  before : ∀ e ∈ es.take k, greater e = false
  here : ∀ h : k < es.length, greater es[k] = true

/-- The items of an array into which an element went at position `k`, as a list. -/
theorem map_range_insert (f : Nat → Nat) {k n : Nat} (hk : k ≤ n) :
    (List.range (n + 1)).map (fun j => if j = k then element else if k < j then f (j - 1) else f j) =
      ((List.range n).map f).take k ++ element :: ((List.range n).map f).drop k := by
  apply List.ext_getElem
  · simp only [List.length_map, List.length_range, List.length_append, List.length_take,
      List.length_cons, List.length_drop]
    omega
  · intro j hj hj'
    rw [List.getElem_append]
    grind

/-- The search loop stops in front of the first greater element. -/
theorem search_spec (greater : Nat → Bool) (es : List Nat) (get : Nat → Nat)
    (hget : ∀ j, (h : j < es.length) → get j = es[j]) (hlen : es.length < 2 ^ 32) :
    ∃ k, whileLoop Fault.neverEnds (fun itr => decide (itr < es.length) && !greater (get itr))
        (fun itr => .ok (itr + 1)) (2 ^ 32) 0 = .ok k ∧ InsertsAt greater es k := by
  have hloop : Outcome (fun k => (k ≤ es.length ∧ ∀ e ∈ es.take k, greater e = false) ∧
      (decide (k < es.length) && !greater (get k)) = false) (fun _ => False)
      (whileLoop Fault.neverEnds (fun itr => decide (itr < es.length) && !greater (get itr))
        (fun itr => .ok (itr + 1)) (2 ^ 32) 0) := by
    apply whileLoop_rule (fun k => k ≤ es.length ∧ ∀ e ∈ es.take k, greater e = false)
      (fun _ => False) (fun k => es.length - k)
    · exact ⟨Nat.zero_le _, fun e he => absurd he List.not_mem_nil⟩
    · exact hlen
    · -- the element is not greater, and neither are those in front of it
      rintro k ⟨hk, hbefore⟩ hcond
      rw [Bool.and_eq_true, decide_eq_true_eq, Bool.not_eq_true'] at hcond
      obtain ⟨hlt, hnot⟩ := hcond
      refine ⟨⟨hlt, fun e he => ?_⟩, ?_⟩
      · rw [List.take_succ_eq_append_getElem hlt, List.mem_append, List.mem_singleton] at he
        rcases he with he | rfl
        · exact hbefore e he
        · rw [← hget k hlt]
          exact hnot
      · omega
  obtain ⟨k, hrun, ⟨hk, hbefore⟩, hexit⟩ := hloop.returns
  refine ⟨k, hrun, hk, hbefore, fun hlt => ?_⟩
  rw [decide_eq_true hlt, Bool.true_and, hget k hlt, Bool.not_eq_false'] at hexit
  exact hexit

/-- The loop that moves elements up moves all of them. -/
theorem shift_spec {k : Nat} (hk : k < oarrayIdx m map) (he : element < WORD) :
    ∃ s, whileLoop Fault.neverEnds (fun s => decide (s.itr < oarrayIdx s.mem map)) (shiftStep map)
        (2 ^ 32) ⟨k, item m map k, store m (itemAddr map k) 8 element⟩ = .ok s ∧
      Shifting m map (oarrayIdx m map) k element s ∧ s.itr = oarrayIdx m map := by
  have hlen := oarrayIdx_lt m map
  have hloop : Outcome (fun s => Shifting m map (oarrayIdx m map) k element s ∧
      decide (s.itr < oarrayIdx s.mem map) = false) (fun _ => False)
      (whileLoop Fault.neverEnds (fun s => decide (s.itr < oarrayIdx s.mem map)) (shiftStep map)
        (2 ^ 32) ⟨k, item m map k, store m (itemAddr map k) 8 element⟩) := by
    apply whileLoop_rule (Shifting m map (oarrayIdx m map) k element) (fun _ => False)
      (fun s => oarrayIdx m map - s.itr)
    · exact shifting_init hk he
    · dsimp only
      omega
    · intro s hs hcond
      rw [hs.idx, decide_eq_true_eq] at hcond
      exact shifting_step hs hcond
  obtain ⟨s, hrun, hs, hexit⟩ := hloop.returns
  refine ⟨s, hrun, hs, ?_⟩
  rw [hs.idx, decide_eq_false_iff_not] at hexit
  have := hs.le
  omega

/-- An insertion adds the element. -/
theorem insert_perm (es : List Nat) (k e : Nat) :
    (es.take k ++ e :: es.drop k).Perm (e :: es) := by
  have h : (es.take k ++ e :: es.drop k).Perm (e :: (es.take k ++ es.drop k)) := List.perm_middle
  rwa [List.take_append_drop] at h

/-- The place that the search finds is the one of a sorted insertion. -/
theorem InsertsAt.eq_insertSorted {gt : Nat → Nat → Bool} {es : List Nat} {k e : Nat}
    (h : InsertsAt (fun x => gt x e) es k) :
    es.take k ++ e :: es.drop k = insertSorted gt e es := by
  induction es generalizing k with
  | nil =>
      obtain rfl : k = 0 := Nat.le_zero.mp h.le
      rfl
  | cons a es ih =>
      rw [insertSorted, List.orderedInsert_cons]
      cases k with
      | zero =>
          have hgreater : gt a e = true := h.here (Nat.succ_pos _)
          rw [if_pos hgreater]
          rfl
      | succ k =>
          have hnot : gt a e = false := h.before a List.mem_cons_self
          rw [if_neg (Bool.eq_false_iff.mp hnot)]
          refine congrArg (a :: ·) (ih ⟨Nat.le_of_succ_le_succ h.le, fun x hx => ?_, fun hlt => ?_⟩)
          · exact h.before x (List.mem_cons_of_mem _ hx)
          · exact h.here (Nat.succ_lt_succ hlt)

/-- An element that goes in front of the first greater one leaves a sorted array sorted. -/
theorem InsertsAt.sorted {f : Nat → Nat} {es : List Nat} {k e : Nat}
    (h : InsertsAt (fun x => decide (f x > f e)) es k)
    (hsorted : es.Pairwise fun a b => f a ≤ f b) :
    (es.take k ++ e :: es.drop k).Pairwise fun a b => f a ≤ f b := by
  have hplace : es.take k ++ e :: es.drop k = insertSorted (fun a b => decide (f b < f a)) e es :=
    h.eq_insertSorted
  rw [hplace]
  exact inOrder_by.mp ((inOrder_by.mpr hsorted).insert (order_by f) e)

/-- An insertion into an array with room puts the element in front of the first greater one and
changes nothing outside the array. -/
theorem oarrayInsert_spec (greater : Memory → Nat → Nat → Bool)
    (hroom : oarrayIdx m map < maxElements m map) (he : element < WORD) :
    ∃ m' k, oarrayInsert greater m map element = .ok (element, m') ∧
      InsertsAt (fun e => greater m e element) (elements m map) k ∧
      elements m' map = (elements m map).take k ++ element :: (elements m map).drop k ∧
      ∀ x, ¬ InArray map (oarrayIdx m map + 1) x → m' x = m x := by
  have hmax : oarrayIdx m map + 1 < 2 ^ 32 := Nat.lt_of_le_of_lt hroom (load_lt m (map + 32) 4)
  have hlen := length_elements m map
  obtain ⟨k, hsearch, hpos⟩ := search_spec (fun e => greater m e element) (elements m map)
    (item m map) (fun j hj => by simp [elements]) (by omega)
  rw [hlen] at hsearch
  have hle := hpos.le
  rw [hlen] at hle
  unfold oarrayInsert
  rw [if_neg (by omega), hsearch, ok_seq]
  -- what both branches come to, given the items they leave
  have hdone : ∀ m₁, oarrayIdx m₁ map = oarrayIdx m map →
      (∀ j, j ≤ oarrayIdx m map → item m₁ map j =
        if j = k then element else if k < j then item m map (j - 1) else item m map j) →
      elements (store m₁ (map + 40) 4 ((oarrayIdx m₁ map + 1) % 2 ^ 32)) map =
        (elements m map).take k ++ element :: (elements m map).drop k := by
    intro m₁ hidx hitems
    rw [hidx, Nat.mod_eq_of_lt hmax]
    show List.map _ (List.range (oarrayIdx _ map)) = _
    rw [oarrayIdx_store_idx hmax]
    refine Eq.trans ?_ (map_range_insert (item m map) hle)
    apply List.map_congr_left
    intro j hj
    rw [item_store_idx]
    exact hitems j (Nat.le_of_lt_succ (List.mem_range.mp hj))
  split
  · next hlast =>
    -- the largest goes to the end
    refine ⟨_, k, rfl, hpos, hdone _ oarrayIdx_store_item ?_, ?_⟩
    · intro j hj
      rw [item_store_item he]
      have hnone : ¬ k < j := by omega
      rw [if_neg hnone]
    · intro x hx
      rw [store_idx_outside hx, store_item_outside hx (Nat.lt_succ_of_le hle)]
  · -- an element in the middle: the items from `k` on have moved up by one
    next hmid =>
    have hlt : k < oarrayIdx m map := by omega
    obtain ⟨s, hshift, hs, hitr⟩ := shift_spec hlt he
    dsimp only
    rw [hshift, ok_seq]
    refine ⟨_, k, rfl, hpos, hdone _ hs.idx ?_, ?_⟩
    · intro j hj
      rw [hs.items, hitr]
      simp only [hj, and_true]
    · intro x hx
      rw [store_idx_outside hx]
      exact hs.frame x hx

end Twos
