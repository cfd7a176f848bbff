import Mathlib.Data.List.Induction

/-!
# Paths through linked tables

Tables that link to tables: `links t i` is the table that entry `i` of table `t` leads to, if it
leads anywhere. `follow` goes along a path of indices. As long as no two paths of some length lead
to the same table, a change of one entry is a change of one path: a link to a table that nothing leads
to adds the path that ends with it, and what becomes of the entries at the ends of the paths changes
no path.

* `follow_congr` is for tables that have not changed on the way.
* `follow_link` says what a new link does to every path, by induction on the path from its end.
* `Unshared.congr` and `Unshared.link` carry on the property itself, so that one call after another
  can be treated in this way.
-/

namespace Twos.Lib

variable {T I : Type} {links links' : T → I → Option T} {root t u : T} {p q : List I} {i : I}
  {depth : Nat}

/-- The table at the end of a path. -/
def follow (links : T → I → Option T) (root : T) (path : List I) : Option T :=
  path.foldlM links root

/-- Every table is at the end of one path at most. -/
def Unshared (links : T → I → Option T) (root : T) (depth : Nat) : Prop :=
  ∀ p q t, p.length ≤ depth → q.length ≤ depth → follow links root p = some t →
    follow links root q = some t → p = q

theorem follow_nil : follow links root [] = some root := rfl

theorem follow_snoc (p : List I) (i : I) :
    follow links root (p ++ [i]) = (follow links root p).bind fun t => links t i := by
  unfold follow
  rw [List.foldlM_append]
  cases List.foldlM links root p with
  | none => rfl
  | some t =>
      show (do let s ← links t i; some s) = links t i
      cases links t i <;> rfl

/-- A path is settled by the links of the tables on it. -/
theorem follow_congr
    (h : ∀ p t i, p.length < depth → follow links root p = some t → links' t i = links t i)
    (hp : p.length ≤ depth) : follow links' root p = follow links root p := by
  induction p using List.reverseRecOn with
  | nil => rfl
  | append_singleton p i ih =>
      rw [List.length_append, List.length_singleton] at hp
      rw [follow_snoc, follow_snoc, ih (by omega)]
      cases hfollow : follow links root p with
      | none => rfl
      | some t => exact h p t i hp hfollow

/-- A link from where nothing led to a table that nothing led to. -/
theorem follow_link (hunshared : Unshared links root depth) (hq : q.length < depth)
    (htable : follow links root q = some t) (hnone : links t i = none)
    (hlink : links' t i = some u) (hblank : ∀ j, links' u j = none)
    (hsame : ∀ p s j, p.length < depth → follow links root p = some s → (s, j) ≠ (t, i) →
      links' s j = links s j) (hp : p.length ≤ depth) :
    (p = q ++ [i] → follow links' root p = some u) ∧
      (p ≠ q ++ [i] → follow links' root p = follow links root p) := by
  induction p using List.reverseRecOn with
  | nil =>
      constructor
      · intro h
        exact absurd (congrArg List.length h) (by simp)
      · exact fun _ => rfl
  | append_singleton p j ih =>
      -- from the end of the path, where the entry that has changed may be
      rw [List.length_append, List.length_singleton] at hp
      obtain ⟨ihlinked, ihother⟩ := ih (by omega)
      constructor
      · -- the path of the new link itself
        intro h
        obtain ⟨rfl, rfl⟩ := List.append_inj' h rfl |>.imp id List.singleton_inj.mp
        have hne : p ≠ p ++ [j] := fun h => absurd (congrArg List.length h) (by simp)
        rw [follow_snoc, ihother hne, htable]
        exact hlink
      · -- any other path, on which the new link may lie but does not come last
        intro h
        by_cases hlinked : p = q ++ [i]
        · -- beyond the new link there is nothing, and there was nothing before
          rw [follow_snoc, follow_snoc, ihlinked hlinked, hlinked, follow_snoc, htable]
          simp only [Option.bind_some, hnone, Option.bind_none, hblank]
        · rw [follow_snoc, follow_snoc, ihother hlinked]
          cases hfollow : follow links root p with
          | none => rfl
          | some s =>
              refine hsame p s j hp hfollow fun heq => ?_
              obtain ⟨rfl, rfl⟩ := Prod.mk.inj heq
              exact h (by rw [hunshared p q s (by omega) (by omega) hfollow htable])

theorem Unshared.congr (hunshared : Unshared links root depth)
    (h : ∀ p t i, p.length < depth → follow links root p = some t → links' t i = links t i) :
    Unshared links' root depth := by
  intro p q t hp hq hfollow hfollow'
  rw [follow_congr h hp] at hfollow
  rw [follow_congr h hq] at hfollow'
  exact hunshared p q t hp hq hfollow hfollow'

theorem Unshared.link (hunshared : Unshared links root depth) (hq : q.length < depth)
    (htable : follow links root q = some t) (hnone : links t i = none)
    (hlink : links' t i = some u) (hblank : ∀ j, links' u j = none)
    (hnew : ∀ p, p.length ≤ depth → follow links root p ≠ some u)
    (hsame : ∀ p s j, p.length < depth → follow links root p = some s → (s, j) ≠ (t, i) →
      links' s j = links s j) : Unshared links' root depth := by
  have hpaths {p : List I} (hp : p.length ≤ depth) :=
    follow_link hunshared hq htable hnone hlink hblank hsame hp
  intro p p' s hp hp' hfollow hfollow'
  by_cases heq : p = q ++ [i] <;> by_cases heq' : p' = q ++ [i]
  · rw [heq, heq']
  · rw [(hpaths hp).1 heq] at hfollow
    rw [(hpaths hp').2 heq', ← hfollow] at hfollow'
    exact absurd hfollow' (hnew p' hp')
  · rw [(hpaths hp').1 heq'] at hfollow'
    rw [(hpaths hp).2 heq, ← hfollow'] at hfollow
    exact absurd hfollow (hnew p hp)
  · rw [(hpaths hp).2 heq] at hfollow
    rw [(hpaths hp').2 heq'] at hfollow'
    exact hunshared p p' s hp hp' hfollow hfollow'

end Twos.Lib
