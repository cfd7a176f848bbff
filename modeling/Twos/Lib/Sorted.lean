import Mathlib.Data.List.Sort

/-!
# Sorted insertion

Lists in the order of a strict weak order that is given as a test, `gt a b`, and the insertion of an
element in front of the first one that is greater. Elements of which neither is greater keep the
order in which they came.

* `InOrder.insert`: the order is kept.
* `filter_insert`: among those alike, the new element comes last. The proof is by induction on the
  list, and turns where the element is put in.
* `SortedList` carries order and bound as fields, with the insertion and the removal on it; this is
  what an array with a fixed number of slots is meant to be.
-/

namespace Twos.Lib

variable {α : Type} {gt : α → α → Bool} {a b c e x : α} {l : List α}

/-- No element is greater than one behind it. -/
def InOrder (gt : α → α → Bool) (l : List α) : Prop := l.Pairwise fun a b => gt a b = false

/-- Neither of the two is greater. -/
def alike (gt : α → α → Bool) (a b : α) : Bool := !gt a b && !gt b a

/-- The list with an element in front of the first one that is greater. -/
abbrev insertSorted (gt : α → α → Bool) (e : α) (l : List α) : List α :=
  l.orderedInsert (fun a b => gt b a = true) e

/-! ## Strict weak orders as tests -/

/-- The order of a number that every element has. -/
theorem order_by (f : α → Nat) : IsStrictWeakOrder α fun a b => decide (f b < f a) = true where
  irrefl a := by simp
  trans a b c := by
    simp only [decide_eq_true_eq]
    omega
  incomp_trans a b c := by
    simp only [decide_eq_true_eq]
    omega

theorem inOrder_by {f : α → Nat} :
    InOrder (fun a b => decide (f b < f a)) l ↔ l.Pairwise fun a b => f a ≤ f b := by
  simp [InOrder]

section Order

variable (h : IsStrictWeakOrder α fun a b => gt a b = true)

include h

theorem gt_asymm (hab : gt a b = true) : gt b a = false := by
  apply Bool.eq_false_iff.mpr
  intro hba
  exact h.irrefl a (h.trans a b a hab hba)

/-- What is not greater is not greater in turn. -/
theorem not_gt_trans (hab : gt a b = false) (hbc : gt b c = false) : gt a c = false := by
  apply Bool.eq_false_iff.mpr
  intro hac
  have hba : ¬ gt b a = true := fun hba => by
    rw [h.trans b a c hba hac] at hbc
    cases hbc
  have hcb : ¬ gt c b = true := fun hcb => by
    rw [h.trans a c b hac hcb] at hab
    cases hab
  have hequal := h.incomp_trans a b c ⟨Bool.eq_false_iff.mp hab, hba⟩ ⟨Bool.eq_false_iff.mp hbc, hcb⟩
  exact hequal.1 hac

/-- An insertion keeps the order. -/
theorem InOrder.insert (hl : InOrder gt l) (e : α) : InOrder gt (insertSorted gt e l) := by
  induction l with
  | nil => exact List.pairwise_singleton _ e
  | cons b l ih =>
      obtain ⟨hbehind, hrest⟩ := List.pairwise_cons.mp hl
      rw [insertSorted, List.orderedInsert_cons]
      split
      · next hgreater =>
        refine List.pairwise_cons.mpr ⟨fun x hx => ?_, hl⟩
        have hnot := gt_asymm h hgreater
        rcases List.mem_cons.mp hx with rfl | hx
        · exact hnot
        · exact not_gt_trans h hnot (hbehind x hx)
      · next hnot =>
        refine List.pairwise_cons.mpr ⟨fun x hx => ?_, ih hrest⟩
        rcases (List.mem_orderedInsert _).mp hx with rfl | hx
        · exact Bool.eq_false_iff.mpr hnot
        · exact hbehind x hx

/-- Among elements that are alike, the new one comes last. -/
theorem filter_insert (hl : InOrder gt l) (e x : α) :
    (insertSorted gt e l).filter (alike gt x) =
      l.filter (alike gt x) ++ if alike gt x e then [e] else [] := by
  induction l with
  | nil =>
      rw [insertSorted, List.orderedInsert_nil, List.filter_cons]
      simp
  | cons b l ih =>
      obtain ⟨hbehind, hrest⟩ := List.pairwise_cons.mp hl
      rw [insertSorted, List.orderedInsert_cons]
      split
      · next hgreater =>
        rw [List.filter_cons]
        split
        · next halike =>
          -- everything from here on is greater than the new element
          have hnone : (b :: l).filter (alike gt x) = [] := by
            apply List.filter_eq_nil_iff.mpr
            intro y hy
            have hy : gt y e = true := by
              apply Bool.eq_true_of_not_eq_false
              intro hnot
              rcases List.mem_cons.mp hy with rfl | hy
              · rw [hgreater] at hnot
                cases hnot
              · rw [not_gt_trans h (hbehind y hy) hnot] at hgreater
                cases hgreater
            intro hsame
            simp only [alike, Bool.and_eq_true, Bool.not_eq_true'] at halike hsame
            rw [not_gt_trans h hsame.2 halike.1] at hy
            cases hy
          rw [hnone, List.nil_append]
        · rw [List.append_nil]
      · -- the head is not greater, so the element goes further down
        rw [List.filter_cons, List.filter_cons, ih hrest]
        split
        · rfl
        · rfl

end Order

/-! ## Sorted lists of bounded length -/

/-- A list in order with at most `max` elements. -/
structure SortedList (gt : α → α → Bool) (max : Nat) where
  order : IsStrictWeakOrder α fun a b => gt a b = true
  items : List α
  sorted : InOrder gt items
  bound : items.length ≤ max

namespace SortedList

variable {max : Nat}

/-- The list with one more element, if there is room. -/
def insert (s : SortedList gt max) (e : α) : SortedList gt max :=
  if h : s.items.length < max then
    { s with
      items := insertSorted gt e s.items
      sorted := s.sorted.insert s.order e
      bound := by
        rw [List.orderedInsert_length]
        exact h }
  else s

/-- The list without the element at an index. -/
def erase (s : SortedList gt max) (i : Nat) : SortedList gt max :=
  { s with
    items := s.items.eraseIdx i
    sorted := List.Pairwise.sublist (List.eraseIdx_sublist _ _) s.sorted
    bound := Nat.le_trans (List.length_eraseIdx_le _ _) s.bound }

theorem insert_items {s : SortedList gt max} (h : s.items.length < max) (e : α) :
    (s.insert e).items = insertSorted gt e s.items := by
  rw [insert, dif_pos h]

theorem insert_full {s : SortedList gt max} (h : ¬ s.items.length < max) (e : α) :
    s.insert e = s := dif_neg h

end SortedList

end Twos.Lib
