import Twos.Lib.Answers
import Twos.Types.Removal
import Twos.Types.Sorted

/-!
# The ordered array as a sorted list

Sequences of insertions, removals and accesses, on the array and on a sorted list that can hold as
many elements. The comparison is the owner's: it may read memory, though not the array.

* `Holds` relates the two: the same elements, in order, and as many slots as the list may have.
* `agrees_insert`, `agrees_remove` and `agrees_get` take one call each, with the accesses checked
  against the slots of the array.
* `likeList_iff` puts them together by the rule of `Lib/Answers.lean`: a sequence of calls answers
  like the list, without an access outside of the slots, exactly if `remove` and `get` of the index
  behind the last element always find a slot there.
-/

namespace Twos

open Lib

/-! ## Calls

The calls on an array, what each returns, and the same calls on a sorted list. `SlotBehind` is what
they need of the word behind the last element, at which two of them look.
-/

inductive OarrayCall where
  | insert (element : Nat)
  | remove (idx : Nat)
  | get (idx : Nat)

/-- A call, with what it returns. -/
def oarrayCall (greater : Memory → Nat → Nat → Bool) (map : Nat) (m : Memory) :
    OarrayCall → Except Fault (Option Nat × Memory)
  | .insert element => do
      let (r, m) ← oarrayInsert greater m map element
      .ok (some r, m)
  | .remove idx => do
      let m ← oarrayRemove m map idx
      .ok (none, m)
  | .get idx => .ok (some (oarrayGet m map idx), m)

/-- The same, with every access checked against the slots of the array. -/
def oarrayCallWithin (greater : Memory → Nat → Nat → Bool) (map : Nat) (m : Memory) :
    OarrayCall → Except Fault (Option Nat × Memory)
  | .insert element => do
      let (r, m) ← oarrayInsertWithin map (slotsEnd m map) greater m map element
      .ok (some r, m)
  | .remove idx => do
      let m ← oarrayRemoveWithin map (slotsEnd m map) m map idx
      .ok (none, m)
  | .get idx => do
      let r ← oarrayGetWithin map (slotsEnd m map) m map idx
      .ok (some r, m)

/-- What the calls do to a sorted list. -/
def listCall {gt : Nat → Nat → Bool} {max : Nat} (l : SortedList gt max) :
    OarrayCall → Except Fault (Option Nat × SortedList gt max)
  | .insert element => .ok (some (if l.items.length < max then element else 0), l.insert element)
  | .remove idx => .ok (none, l.erase idx)
  | .get idx => .ok (some (l.items.getD idx 0), l)

/-- Elements are words, and only elements that are there are removed. -/
def ValidCall (map : Nat) (m : Memory) : OarrayCall → Prop
  | .insert element => element < WORD
  | .remove idx => idx < oarrayIdx m map
  | .get _ => True

/-- A removal needs a slot behind the last element, and an access with the index of that slot a 0 in
it. -/
def SlotBehind (map : Nat) (m : Memory) : OarrayCall → Prop
  | .insert _ => True
  | .remove _ => oarrayIdx m map < maxElements m map
  | .get idx => idx = oarrayIdx m map → oarrayIdx m map < maxElements m map ∧ item m map idx = 0

instance (map : Nat) (m : Memory) (call : OarrayCall) : Decidable (ValidCall map m call) :=
  match call with
  | .insert element => inferInstanceAs (Decidable (element < WORD))
  | .remove idx => inferInstanceAs (Decidable (idx < oarrayIdx m map))
  | .get _ => .isTrue trivial

instance (map : Nat) (m : Memory) (call : OarrayCall) : Decidable (SlotBehind map m call) :=
  match call with
  | .insert _ => .isTrue trivial
  | .remove _ => inferInstanceAs (Decidable (oarrayIdx m map < maxElements m map))
  | .get idx => inferInstanceAs (Decidable (idx = oarrayIdx m map →
      oarrayIdx m map < maxElements m map ∧ item m map idx = 0))

variable {greater : Memory → Nat → Nat → Bool} {gt : Nat → Nat → Bool} {m m' : Memory}
  {map max : Nat} {l l' : SortedList gt max}

/-! ## Arrays and lists -/

/-- The array holds the elements of the list, and its comparison orders the list, whatever the array
holds. -/
structure Holds (greater : Memory → Nat → Nat → Bool) (map : Nat) (m : Memory)
    (l : SortedList gt max) : Prop where
  items : elements m map = l.items
  slots : maxElements m map = max
  compares : ∀ m', (∀ x, ¬ InArray map max x → m' x = m x) → greater m' = gt

theorem Holds.count (h : Holds greater map m l) : l.items.length = oarrayIdx m map := by
  rw [← h.items]
  exact length_elements m map

theorem Holds.le (h : Holds greater map m l) : oarrayIdx m map ≤ maxElements m map := by
  rw [← h.count, h.slots]
  exact l.bound

/-- Other elements in the array are another list. -/
theorem Holds.update (h : Holds greater map m l) (hitems : elements m' map = l'.items)
    (hframe : ∀ x, ¬ InArray map max x → m' x = m x) : Holds greater map m' l' where
  items := hitems
  slots := by
    refine Eq.trans (load_congr fun x hlo hhi => hframe x ?_) h.slots
    unfold InArray
    lia
  compares := by
    intro m'' hm''
    apply h.compares
    intro x hx
    rw [hm'' x hx, hframe x hx]

/-- An array as `oarray_init` makes it holds the empty list, with as many slots as the block has room
for. -/
theorem holds_oarrayInit (hooks : OarrayHooks) (size : Nat) (m : Memory)
    (hl : l.items = []) (hmax : max = (size - SIZEOF_OARRAY) / 8 % 2 ^ 32)
    (hcompares : ∀ m', (∀ x, ¬ InArray map max x → m' x = oarrayInit hooks size map m x) →
      greater m' = gt) : Holds greater map (oarrayInit hooks size map m) l where
  items := by
    have hidx : oarrayIdx (oarrayInit hooks size map m) map = 0 := oarrayIdx_store_idx (by decide)
    rw [elements, hidx, hl]
    rfl
  slots := by
    refine Eq.trans (load_store_disjoint (.inl (by omega))) ?_
    rw [hmax]
    exact load_store_same (Nat.mod_lt _ (by decide))
  compares := hcompares

/-- The bytes of fewer slots are among those of all. -/
theorem InArray.mono {n x : Nat} (h : InArray map n x) (hn : n ≤ max) : InArray map max x := by
  unfold InArray at h ⊢
  omega

/-! ## One call

One lemma for each call: where its condition holds it returns on the array what it returns on the
list, and leaves arrays that are lists again.
-/

/-- An insertion goes as on the list. -/
theorem agrees_insert {element : Nat} (h : Holds greater map m l) (he : element < WORD) :
    Agrees (Holds greater map) (SlotBehind map) (oarrayCall greater map)
      (oarrayCallWithin greater map) listCall m l (.insert element) := by
  have hgreater : greater m = gt := h.compares m fun _ _ => rfl
  rcases Nat.lt_or_ge (oarrayIdx m map) (maxElements m map) with hroom | hfull
  · -- there is a slot left
    obtain ⟨m', hrun, helements, hframe⟩ := oarrayInsert_insertSorted greater hroom he
    have hwithin := oarrayInsertWithin_eq greater element hroom (Nat.le_refl map)
      (show _ ≤ slotsEnd m map by unfold slotsEnd; lia)
    have hlength : l.items.length < max := by
      rw [h.count, ← h.slots]
      exact hroom
    have hcall : oarrayCall greater map m (.insert element) = .ok (some element, m') := by
      rw [oarrayCall, hrun]
      rfl
    have hsame : oarrayCallWithin greater map m (.insert element) =
        oarrayCall greater map m (.insert element) := by
      rw [oarrayCallWithin, oarrayCall, hwithin]
    apply Agrees.of_same trivial hcall hsame
    · rw [listCall, if_pos hlength]
    · apply h.update
      · rw [helements, hgreater, h.items, SortedList.insert_items hlength]
      · intro x hx
        refine hframe x fun hin => hx (hin.mono ?_)
        rw [← h.slots]
        exact hroom
  · -- the array is full, and so is the list
    have hlength : ¬ l.items.length < max := by
      rw [h.count, ← h.slots]
      exact Nat.not_lt_of_le hfull
    have hcall : oarrayCall greater map m (.insert element) = .ok (some 0, m) := by
      rw [oarrayCall, oarrayInsert, if_pos hfull]
      rfl
    have hsame : oarrayCallWithin greater map m (.insert element) =
        oarrayCall greater map m (.insert element) := by
      rw [oarrayCallWithin, oarrayInsertWithin, access_idx, ok_seq,
        access_ok (by omega) (by unfold slotsEnd; lia), ok_seq, if_pos hfull, hcall]
      rfl
    refine Agrees.of_same trivial hcall hsame ?_ h
    rw [listCall, if_neg hlength, SortedList.insert_full hlength]

/-- A removal does, except for the word that it reads behind a full array. -/
theorem agrees_remove {idx : Nat} (h : Holds greater map m l) (hidx : idx < oarrayIdx m map) :
    Agrees (Holds greater map) (SlotBehind map) (oarrayCall greater map)
      (oarrayCallWithin greater map) listCall m l (.remove idx) := by
  obtain ⟨m', hrun, helements, hframe⟩ := oarrayRemove_spec hidx
  have hcall : oarrayCall greater map m (.remove idx) = .ok (none, m') := by
    rw [oarrayCall, hrun]
    rfl
  have hholds : Holds greater map m' (l.erase idx) := by
    apply h.update
    · rw [helements, h.items]
      rfl
    · intro x hx
      refine hframe x fun hin => hx (hin.mono ?_)
      rw [← h.slots]
      exact h.le
  -- there is a slot behind the last element
  rcases Nat.lt_or_eq_of_le h.le with hroom | hfull
  · have hsame : oarrayCallWithin greater map m (.remove idx) =
        oarrayCall greater map m (.remove idx) := by
      rw [oarrayCallWithin, oarrayCall, removeWithin_room hroom]
    exact Agrees.of_same hroom hcall hsame rfl hholds
  · -- the list comes out right all the same
    have hfault : oarrayCallWithin greater map m (.remove idx) = .error .outOfBounds := by
      rw [oarrayCallWithin, removeWithin_full hidx hfull]
      rfl
    refine ⟨.inr ⟨_, hfault⟩, none, m', none, l.erase idx, hcall, rfl, hholds, ?_⟩
    refine iff_of_false (Nat.not_lt_of_le (Nat.le_of_eq hfull.symm)) ?_
    rintro ⟨hsame, -⟩
    rw [hfault, hcall] at hsame
    cases hsame

/-- An access does, except for one with the index of the slot behind the last element. -/
theorem agrees_get {idx : Nat} (h : Holds greater map m l) :
    Agrees (Holds greater map) (SlotBehind map) (oarrayCall greater map)
      (oarrayCallWithin greater map) listCall m l (.get idx) := by
  have hcall : oarrayCall greater map m (.get idx) = .ok (some (oarrayGet m map idx), m) := rfl
  have hwithin : oarrayCallWithin greater map m (.get idx) =
      oarrayGetWithin map (slotsEnd m map) m map idx >>= fun r => .ok (some r, m) := rfl
  refine ⟨?_, some (oarrayGet m map idx), m, some (l.items.getD idx 0), l, rfl, rfl, h, ?_⟩
  · rcases getWithin_or m map idx with hok | hfault
    · rw [hwithin, hok]
      exact .inl rfl
    · rw [hwithin, hfault]
      exact .inr ⟨_, rfl⟩
  · rw [SlotBehind, ← getsItem_iff h.le, GetsItem, hwithin, hcall, ← h.items, Option.some.injEq]
    constructor
    · rintro ⟨hsame, hok⟩
      rw [hok]
      exact ⟨rfl, hsame⟩
    · rintro ⟨hsame, hanswer⟩
      refine ⟨hanswer, ?_⟩
      obtain ⟨r, hok, hlast⟩ := seq_ok.mp hsame
      obtain ⟨hr, -⟩ := Prod.mk.inj (Except.ok.inj hlast)
      rw [hok, Option.some.inj hr]

/-! ## Sequences of calls

The sequences go by induction on the calls, with the list in step with the array. The condition is
asked of each call in the state that it finds, and where it fails, that call already differs.
-/

/-- The calls go on the array as on the list, and stay inside its slots. -/
def LikeList (greater : Memory → Nat → Nat → Bool) (map : Nat) (calls : List OarrayCall)
    (m : Memory) (l : SortedList gt max) : Prop :=
  SameAnswers (Holds greater map) (oarrayCall greater map) (oarrayCallWithin greater map) listCall
    calls m l

/-- The array is a sorted list, except for what lies behind the last element: an access sees it, and
a removal reads it, though in a full array it is no slot. -/
theorem likeList_iff (hn : oarrayIdx m map ≤ maxElements m map) :
    (∀ i, GetsItem m map i ↔ SlotBehind map m (.get i)) ∧
    (∀ i, i < oarrayIdx m map → (RemovesItem m map i ↔ SlotBehind map m (.remove i))) ∧
    ∀ (greater : Memory → Nat → Nat → Bool) (gt : Nat → Nat → Bool)
      (l : SortedList gt (maxElements m map)) (calls : List OarrayCall), Holds greater map m l →
      Throughout (ValidCall map) (oarrayCall greater map) calls m →
      (LikeList greater map calls m l ↔
        Throughout (SlotBehind map) (oarrayCall greater map) calls m) := by
  refine ⟨fun i => getsItem_iff hn, fun i hi => removesItem_iff hi hn, ?_⟩
  intro greater gt l calls hholds hvalid
  refine sameAnswers_iff (fun m l call h hcall => ?_) hholds hvalid
  cases call with
  | insert element => exact agrees_insert h hcall
  | remove idx => exact agrees_remove h hcall
  | get idx => exact agrees_get h

theorem twoItems_sorted : InOrder (byTens twoItems) [11, 25] := by simp [InOrder, byTens]

theorem twoItems_bound : [11, 25].length ≤ maxElements twoItems 0 := by decide +kernel

/-- The list of the array with two items. -/
def twoSorted : SortedList (byTens twoItems) (maxElements twoItems 0) where
  order := byTens_order twoItems
  items := [11, 25]
  sorted := twoItems_sorted
  bound := twoItems_bound

def someCalls : List OarrayCall := [.insert 12, .remove 0, .get 1, .get 2]

theorem likeList_iff_twoItems :
    GetsItem twoItems 0 2 ∧ RemovesItem twoItems 0 1 ∧
      LikeList byTens 0 someCalls twoItems twoSorted :=
  have hn : oarrayIdx twoItems 0 ≤ maxElements twoItems 0 := by decide +kernel
  have hholds : Holds byTens 0 twoItems twoSorted :=
    { items := by decide +kernel
      slots := rfl
      compares := fun _ _ => rfl }
  have hvalid : Throughout (ValidCall 0) (oarrayCall byTens 0) someCalls twoItems := by
    decide +kernel
  have hgood : Throughout (SlotBehind 0) (oarrayCall byTens 0) someCalls twoItems := by
    decide +kernel
  ⟨((likeList_iff hn).1 2).mpr (by decide +kernel),
    ((likeList_iff hn).2.1 1 (by decide +kernel)).mpr (by decide +kernel),
    ((likeList_iff hn).2.2 byTens _ twoSorted someCalls hholds hvalid).mpr hgood⟩

/-- An array of one slot, with an item in it and another word behind it. -/
def fullArray : Memory :=
  store (store (store (store (fun _ => 0) 32 4 1) 40 4 1) 48 8 5) 56 8 9

/-- The word behind a full array is answered for an item, and read by a removal. -/
theorem fullArray_beyond : ¬ GetsItem fullArray 0 1 ∧ ¬ RemovesItem fullArray 0 0 := by
  have hn : oarrayIdx fullArray 0 ≤ maxElements fullArray 0 := by decide +kernel
  constructor
  · rw [getsItem_iff hn]
    decide +kernel
  · rw [removesItem_iff (by decide +kernel) hn]
    decide +kernel

end Twos
