import Twos.Lib.Paths
import Twos.Virt.Model

/-!
# The walk of the page tables

What the processor makes of the tables: a walk takes four indices out of an address and follows the
entries. The tables of this kernel are a tree of two levels of links, `p4` and `p3`, over tables of
2 MiB pages, which is what `PageTree` says.

Two things can happen to such a tree. A table with no entries present can be linked where nothing
was present (`Linked`), which keeps the tree (`PageTree.linked`) and changes no walk
(`PageTree.linked_walk`); and an entry of a table of pages can be replaced (`Replaced`), which keeps
it as well (`PageTree.replaced`) and changes the walks of one page (`PageTree.replaced_walk`).

Both proofs go over `PageTree.walk_eq`: in a tree, a walk is the path of two links followed by the
entry of the page, and paths are what `Lib.Paths` knows about.
-/

namespace Twos.Virt

open Lib

variable {m m' : Memory} {pt t u v e flags : Nat} {p q : List (Fin 512)} {i : Fin 512}

/-! ## Walks -/

/-- The table that an entry points to, by its address in the direct map. The processor takes bits
12 to 51. -/
def tableOf (e : Nat) : Nat := KERNEL_VADDR + (e &&& 0x000FFFFFFFFFF000)

/-- The nine bits of an address from bit `shift` on. -/
def indexAt (v shift : Nat) : Fin 512 :=
  ⟨(v >>> shift) &&& PAGEINDEXMASK, Nat.lt_succ_of_le Nat.and_le_right⟩

/-- What the processor translates an address to, with `pt` as the first table. -/
def walk (m : Memory) (pt v : Nat) : Option Nat :=
  let e4 := entry m pt (indexAt v 39)
  let e3 := entry m (tableOf e4) (indexAt v 30)
  let e2 := entry m (tableOf e3) (indexAt v 21)
  let e1 := entry m (tableOf e2) (indexAt v 12)
  if e4 &&& PAGE_PRESENT_FLAG = 0 then none
  else if e3 &&& PAGE_PRESENT_FLAG = 0 then none
  else if e3 &&& PAGE_SIZE_2MB ≠ 0 then some ((e3 &&& 0x000FFFFFC0000000) + v % 2 ^ 30)
  else if e2 &&& PAGE_PRESENT_FLAG = 0 then none
  else if e2 &&& PAGE_SIZE_2MB ≠ 0 then some ((e2 &&& 0x000FFFFFFFE00000) + v % 2 ^ 21)
  else if e1 &&& PAGE_PRESENT_FLAG = 0 then none
  else some ((e1 &&& 0x000FFFFFFFFFF000) + v % 2 ^ 12)

/-- Bits 48 to 63 of the address are like bit 47. -/
def Canonical (v : Nat) : Prop := v < 2 ^ 47 ∨ 2 ^ 64 - 2 ^ 47 ≤ v ∧ v < 2 ^ 64

/-! ## Trees of tables -/

/-- Where the entries of a table lead to. -/
def links (m : Memory) (t : Nat) (i : Fin 512) : Option Nat :=
  if entry m t i &&& PAGE_PRESENT_FLAG = 0 then none else some (tableOf (entry m t i))

/-- A table in the direct map. -/
def DirectTable (t : Nat) : Prop :=
  ∃ phys, t = KERNEL_VADDR + phys ∧ TABLE_SIZE ∣ phys ∧ phys + TABLE_SIZE ≤ KERNEL_VADDR_SIZE

/-- The table is reached from `pt` through the first two levels. -/
def Reached (m : Memory) (pt t : Nat) : Prop :=
  ∃ p, p.length ≤ 2 ∧ follow (links m) pt p = some t

/-- The tables from `pt` on are a tree: none is shared, all are in the direct map, what is present
in the two upper levels is a table with flags, and what is present in the third level is a page. -/
structure PageTree (m : Memory) (pt : Nat) : Prop where
  unshared : Unshared (links m) pt 2
  direct : ∀ t, Reached m pt t → DirectTable t
  upper : ∀ p t (i : Fin 512), p.length < 2 → follow (links m) pt p = some t →
    entry m t i &&& PAGE_PRESENT_FLAG ≠ 0 → ∃ flags, flags < 512 ∧ flags &&& PAGE_SIZE_2MB = 0 ∧
      entry m t i = (tableOf (entry m t i) - KERNEL_VADDR) ||| flags
  lower : ∀ p t (i : Fin 512), p.length = 2 → follow (links m) pt p = some t →
    entry m t i &&& PAGE_PRESENT_FLAG ≠ 0 → entry m t i &&& PAGE_SIZE_2MB ≠ 0

/-! ## Entries

A link is the physical address of a table with flags in the low bits, and both the processor and the
code take the table out of it again. Tables are aligned, so that a store to an entry of one changes
no entry of another.
-/

/-- An entry that is a table with flags. -/
theorem link_eq {phys : Nat} (hphys : TABLE_SIZE ∣ phys) (hflags : flags < 512) :
    phys ||| flags = phys + flags :=
  or_aligned (k := 12) (Nat.mod_eq_zero_of_dvd hphys) (by omega)

theorem link_flags {phys mask : Nat} (hphys : TABLE_SIZE ∣ phys) (hmask : mask < TABLE_SIZE) :
    (phys ||| flags) &&& mask = flags &&& mask :=
  or_and_aligned (k := 12) (Nat.mod_eq_zero_of_dvd hphys) hmask

theorem tableOf_link {phys : Nat} (hphys : TABLE_SIZE ∣ phys) (hlt : phys < 2 ^ 52)
    (hflags : flags < 512) : tableOf (phys ||| flags) = KERNEL_VADDR + phys := by
  have hmask : (phys + flags) &&& 0x000FFFFFFFFFF000 = (phys + flags) % 2 ^ 52 / 2 ^ 12 * 2 ^ 12 :=
    and_mask (by decide : 12 ≤ 52) _
  have hkept : (phys + flags) % 2 ^ 52 / 2 ^ 12 * 2 ^ 12 = phys := by
    obtain ⟨k, hk⟩ : 4096 ∣ phys := hphys
    omega
  rw [tableOf, link_eq hphys hflags, hmask, hkept]

/-- How `virt_get_next_map_level` takes the table out of such an entry. -/
theorem nextLevel_link {phys : Nat} (hphys : TABLE_SIZE ∣ phys)
    (hlt : phys + TABLE_SIZE ≤ KERNEL_VADDR_SIZE) (hflags : flags < 512) :
    (((phys ||| flags) &&& 0xFFFFFFFFFFFFFE00) + KERNEL_VADDR) % WORD = KERNEL_VADDR + phys := by
  have hmask : (phys + flags) &&& 0xFFFFFFFFFFFFFE00 = (phys + flags) % 2 ^ 64 / 2 ^ 9 * 2 ^ 9 :=
    and_mask (by decide : 9 ≤ 64) _
  have hkept : (phys + flags) % 2 ^ 64 / 2 ^ 9 * 2 ^ 9 = phys + flags / 512 * 512 := by
    obtain ⟨k, hk⟩ : 4096 ∣ phys := hphys
    have hsmall : phys + 4096 ≤ 0x40000000 := hlt
    omega
  rw [link_eq hphys hflags, hmask, hkept, Nat.div_eq_of_lt hflags]
  lia

/-- Tables do not overlap. -/
theorem DirectTable.apart (ht : DirectTable t) (hu : DirectTable u) (hne : t ≠ u) :
    t + TABLE_SIZE ≤ u ∨ u + TABLE_SIZE ≤ t := by
  obtain ⟨p, rfl, ⟨i, rfl⟩, -⟩ := ht
  obtain ⟨q, rfl, ⟨j, rfl⟩, -⟩ := hu
  rcases Nat.lt_trichotomy i j with h | h | h
  · exact .inl (by lia)
  · exact absurd (by rw [h]) hne
  · exact .inr (by lia)

/-- A store to an entry leaves the other entries alone. -/
theorem entry_store_of_ne (ht : DirectTable t) (hu : DirectTable u) (i j : Fin 512)
    (hne : (u, j) ≠ (t, i)) : entry (store m (entryAddr t i) 8 e) u j = entry m u j := by
  have hi := i.isLt
  have hj := j.isLt
  apply load_store_disjoint
  unfold entryAddr
  by_cases htables : u = t
  · subst htables
    have hindex : j.val ≠ i.val := fun h => hne (by rw [Fin.ext h])
    omega
  · have := ht.apart hu (Ne.symm htables)
    lia

theorem entry_store (he : e < WORD) : entry (store m (entryAddr t u) 8 e) t u = e :=
  load_store_same he

/-- All bytes of the table are zero. -/
def Blank (m : Memory) (t : Nat) : Prop := ∀ x, t ≤ x → x < t + TABLE_SIZE → m x = 0

theorem Blank.entry_eq (h : Blank m t) (j : Fin 512) : entry m t j = 0 := by
  have hj := j.isLt
  apply load_zeros
  intro x hlo hhi
  unfold entryAddr at hlo hhi
  exact h x (by omega) (by lia)

theorem links_eq_some (h : entry m t i &&& PAGE_PRESENT_FLAG ≠ 0) :
    links m t i = some (tableOf (entry m t i)) := if_neg h

theorem links_eq_none (h : entry m t i &&& PAGE_PRESENT_FLAG = 0) : links m t i = none := if_pos h

theorem links_congr (h : entry m' t i = entry m t i) : links m' t i = links m t i := by
  unfold links
  rw [h]

theorem root_reached (m : Memory) (pt : Nat) : Reached m pt pt := ⟨[], Nat.zero_le 2, rfl⟩

/-- Nothing is reached from a table with no entries. -/
theorem follow_blank (h : Blank m pt) (hfollow : follow (links m) pt p = some t) :
    p = [] ∧ t = pt := by
  cases p with
  | nil => exact ⟨rfl, (Option.some.inj hfollow).symm⟩
  | cons i p =>
      have hnone : links m pt i = none := links_eq_none (by rw [h.entry_eq, Nat.zero_and])
      rw [follow, List.foldlM_cons, hnone] at hfollow
      cases hfollow

theorem PageTree.blank (hpt : DirectTable pt) (h : Blank m pt) : PageTree m pt where
  unshared p q t _ _ hp hq := by rw [(follow_blank h hp).1, (follow_blank h hq).1]
  direct t ht := by
    obtain ⟨p, -, hfollow⟩ := ht
    rw [(follow_blank h hfollow).2]
    exact hpt
  upper p t i _ hfollow hpresent := by
    rw [(follow_blank h hfollow).2, h.entry_eq, Nat.zero_and] at hpresent
    exact absurd rfl hpresent
  lower p t i _ hfollow hpresent := by
    rw [(follow_blank h hfollow).2, h.entry_eq, Nat.zero_and] at hpresent
    exact absurd rfl hpresent

/-! ## Walks of a tree -/

/-- The first two indices of an address. -/
def pathOf (v : Nat) : List (Fin 512) := [indexAt v 39, indexAt v 30]

/-- What the entry of a page says. -/
def pageEntry (e v : Nat) : Option Nat :=
  if e &&& PAGE_PRESENT_FLAG = 0 then none else some ((e &&& 0x000FFFFFFFE00000) + v % PAGE_SIZE)

/-- In a tree, a walk follows two links and then reads the entry of a page. -/
theorem PageTree.walk_eq (h : PageTree m pt) (v : Nat) :
    walk m pt v = (follow (links m) pt (pathOf v)).bind fun t =>
      pageEntry (entry m t (indexAt v 21)) v := by
  have hroot : follow (links m) pt [] = some pt := rfl
  unfold walk pathOf
  dsimp only
  -- a walk ends at the first entry that is not present, and so does the path
  by_cases h4 : entry m pt (indexAt v 39) &&& PAGE_PRESENT_FLAG = 0
  · have hpath : follow (links m) pt [indexAt v 39, indexAt v 30] = none := by
      rw [show [indexAt v 39, indexAt v 30] = ([] ++ [indexAt v 39]) ++ [indexAt v 30] from rfl,
        follow_snoc, follow_snoc, hroot, Option.bind_some, links_eq_none h4, Option.bind_none]
    rw [if_pos h4, hpath, Option.bind_none]
  · have hthird : follow (links m) pt [indexAt v 39] =
        some (tableOf (entry m pt (indexAt v 39))) := by
      rw [show [indexAt v 39] = [] ++ [indexAt v 39] from rfl, follow_snoc, hroot,
        Option.bind_some, links_eq_some h4]
    generalize tableOf (entry m pt (indexAt v 39)) = p3 at hthird ⊢
    have hpath : follow (links m) pt [indexAt v 39, indexAt v 30] = links m p3 (indexAt v 30) := by
      rw [show [indexAt v 39, indexAt v 30] = [indexAt v 39] ++ [indexAt v 30] from rfl,
        follow_snoc, hthird, Option.bind_some]
    rw [if_neg h4, hpath]
    by_cases h3 : entry m p3 (indexAt v 30) &&& PAGE_PRESENT_FLAG = 0
    · rw [if_pos h3, links_eq_none h3, Option.bind_none]
    · have hlinks := links_eq_some h3
      obtain ⟨flags, hflags, hsmall, heq⟩ := h.upper [indexAt v 39] _ _ Nat.one_lt_two hthird h3
      have htable : DirectTable (tableOf (entry m p3 (indexAt v 30))) :=
        h.direct _ ⟨[indexAt v 39, indexAt v 30], Nat.le_refl 2, hpath.trans hlinks⟩
      have hlarge : ¬ entry m p3 (indexAt v 30) &&& PAGE_SIZE_2MB ≠ 0 := by
        -- the address of a table has no bit there, and the flags do not have this one
        obtain ⟨phys, hphys, hdvd, -⟩ := htable
        rw [heq, hphys, Nat.add_sub_cancel_left, link_flags hdvd (by decide), not_not]
        exact hsmall
      rw [if_neg h3, if_neg hlarge, hlinks, Option.bind_some]
      unfold pageEntry
      by_cases h2 : entry m (tableOf (entry m p3 (indexAt v 30))) (indexAt v 21) &&&
          PAGE_PRESENT_FLAG = 0
      · rw [if_pos h2, if_pos h2]
      · have hpage := h.lower _ _ _ rfl (hpath.trans hlinks) h2
        rw [if_neg h2, if_neg h2, if_pos hpage]
        rfl

/-! ## Changes to a tree

Each of the two changes is a structure that says what has changed in the entries of reached tables,
and a store is one of these changes (`Linked.of_store`, `Replaced.of_store`). Trees and walks are
then followed through the structure alone. A new link adds one path, to a table in which nothing is
present.
-/

/-- The entries of all tables are as they were. -/
def SameEntries (m m' : Memory) (pt : Nat) : Prop :=
  ∀ t (i : Fin 512), Reached m pt t → entry m' t i = entry m t i

/-- A table with no entries has been linked where nothing was present. -/
structure Linked (m m' : Memory) (pt t : Nat) (i : Fin 512) (u flags : Nat) : Prop where
  absent : entry m t i &&& PAGE_PRESENT_FLAG = 0
  direct : DirectTable u
  unreached : ¬ Reached m pt u
  blank : ∀ j : Fin 512, entry m' u j = 0
  flags_lt : flags < 512
  present : flags &&& PAGE_PRESENT_FLAG ≠ 0
  small : flags &&& PAGE_SIZE_2MB = 0
  link : entry m' t i = (u - KERNEL_VADDR) ||| flags
  same : ∀ s (j : Fin 512), Reached m pt s → (s, j) ≠ (t, i) → entry m' s j = entry m s j

/-- A link that is stored after the entries of the new table have been cleared. -/
theorem Linked.of_store (flags : Nat) {m₁ : Memory} (h : PageTree m pt) (ht : Reached m pt t)
    (habsent : entry m t i &&& PAGE_PRESENT_FLAG = 0) (hsame : SameEntries m m₁ pt)
    (hu : DirectTable u) (hnew : ¬ Reached m pt u) (hblank : Blank m₁ u) (hflags : flags < 512)
    (hpresent : flags &&& PAGE_PRESENT_FLAG ≠ 0) (hsmall : flags &&& PAGE_SIZE_2MB = 0) :
    Linked m (store m₁ (entryAddr t i) 8 ((u - KERNEL_VADDR) ||| flags)) pt t i u flags := by
  have hdirect := h.direct t ht
  have hword : (u - KERNEL_VADDR) ||| flags < WORD := by
    obtain ⟨phys, hphys, hdvd, hlt⟩ := hu
    rw [hphys, Nat.add_sub_cancel_left, link_eq hdvd hflags]
    lia
  refine ⟨habsent, hu, hnew, fun j => ?_, hflags, hpresent, hsmall, entry_store hword,
    fun s j hs hne => ?_⟩
  · have hne : (u, j) ≠ (t, i) := by
      intro heq
      obtain ⟨rfl, -⟩ := Prod.mk.inj heq
      exact hnew ht
    exact (entry_store_of_ne hdirect hu i j hne).trans (hblank.entry_eq j)
  · exact (entry_store_of_ne hdirect (h.direct s hs) i j hne).trans (hsame s j hs)

theorem Linked.links_eq (h : Linked m m' pt t i u flags) : links m' t i = some u := by
  obtain ⟨phys, rfl, hdvd, hlt⟩ := h.direct
  have hlink := h.link
  rw [Nat.add_sub_cancel_left] at hlink
  have hpresent : entry m' t i &&& PAGE_PRESENT_FLAG ≠ 0 := by
    rw [hlink, link_flags hdvd (by decide)]
    exact h.present
  rw [links_eq_some hpresent, hlink, tableOf_link hdvd (by lia) h.flags_lt]

theorem Linked.links_blank (h : Linked m m' pt t i u flags) (j : Fin 512) :
    links m' u j = none := by
  apply links_eq_none
  rw [h.blank, Nat.zero_and]

/-- The link adds one path, and nothing else. -/
theorem Linked.paths (h : PageTree m pt) (hl : Linked m m' pt t i u flags) (hq : q.length < 2)
    (ht : follow (links m) pt q = some t) (hp : p.length ≤ 2) :
    (p = q ++ [i] → follow (links m') pt p = some u) ∧
      (p ≠ q ++ [i] → follow (links m') pt p = follow (links m) pt p) :=
  follow_link h.unshared hq ht (links_eq_none hl.absent) hl.links_eq hl.links_blank
    (fun p s j hp hs hne => links_congr (hl.same s j ⟨p, Nat.le_of_lt hp, hs⟩ hne)) hp

/-- A table of the new tree is the new one or one of the old tree. -/
theorem Linked.reached (h : PageTree m pt) (hl : Linked m m' pt t i u flags) (hq : q.length < 2)
    (ht : follow (links m) pt q = some t) {s : Nat} (hp : p.length ≤ 2)
    (hs : follow (links m') pt p = some s) :
    (p = q ++ [i] ∧ s = u) ∨ follow (links m) pt p = some s := by
  obtain ⟨hnew, hold⟩ := hl.paths h hq ht hp
  by_cases heq : p = q ++ [i]
  · rw [hnew heq] at hs
    exact .inl ⟨heq, (Option.some.inj hs).symm⟩
  · rw [hold heq] at hs
    exact .inr hs

theorem Linked.eq_or_reached (h : PageTree m pt) (hl : Linked m m' pt t i u flags)
    (hq : q.length < 2) (ht : follow (links m) pt q = some t) {s : Nat} (hs : Reached m' pt s) :
    s = u ∨ Reached m pt s := by
  obtain ⟨p, hp, hfollow⟩ := hs
  rcases hl.reached h hq ht hp hfollow with ⟨-, heq⟩ | hold
  · exact .inl heq
  · exact .inr ⟨p, hp, hold⟩

theorem PageTree.linked (h : PageTree m pt) (hl : Linked m m' pt t i u flags) (hq : q.length < 2)
    -- the only new path is the one that ends in the linked table
    (ht : follow (links m) pt q = some t) : PageTree m' pt where
  unshared := h.unshared.link hq ht (links_eq_none hl.absent) hl.links_eq hl.links_blank
    (fun p hp hu => hl.unreached ⟨p, hp, hu⟩)
    (fun p s j hp hs hne => links_congr (hl.same s j ⟨p, Nat.le_of_lt hp, hs⟩ hne))
  direct s hs := by
    obtain ⟨p, hp, hfollow⟩ := hs
    rcases hl.reached h hq ht hp hfollow with ⟨-, rfl⟩ | hold
    · exact hl.direct
    · exact h.direct s ⟨p, hp, hold⟩
  upper p s j hp hfollow hpresent := by
    rcases hl.reached h hq ht (Nat.le_of_lt hp) hfollow with ⟨-, rfl⟩ | hold
    · -- the new table is blank, so none of its entries is present
      exact absurd (by rw [hl.blank, Nat.zero_and]) hpresent
    · -- an entry in the table that got the link, and the link itself is the new entry
      by_cases hentry : (s, j) = (t, i)
      · obtain ⟨rfl, rfl⟩ := Prod.mk.inj hentry
        have htable := hl.links_eq
        rw [links_eq_some hpresent, Option.some.injEq] at htable
        exact ⟨flags, hl.flags_lt, hl.small, by rw [htable]; exact hl.link⟩
      · rw [hl.same s j ⟨p, Nat.le_of_lt hp, hold⟩ hentry] at hpresent ⊢
        exact h.upper p s j hp hold hpresent
  lower p s j hp hfollow hpresent := by
    rcases hl.reached h hq ht (Nat.le_of_eq hp) hfollow with ⟨-, rfl⟩ | hold
    · exact absurd (by rw [hl.blank, Nat.zero_and]) hpresent
    · have hentry : (s, j) ≠ (t, i) := by
        -- the link was put on an upper level, and `s` is a table of pages
        intro heq
        obtain ⟨rfl, rfl⟩ := Prod.mk.inj heq
        have := h.unshared p q s (Nat.le_of_eq hp) (Nat.le_of_lt hq) hold ht
        rw [this] at hp
        omega
      rw [hl.same s j ⟨p, Nat.le_of_eq hp, hold⟩ hentry] at hpresent ⊢
      exact h.lower p s j hp hold hpresent

/-- The last step of a walk depends on the entry that it reads. -/
theorem bind_entry_congr {found : Option Nat} {v : Nat}
    (h : ∀ s, found = some s → entry m' s (indexAt v 21) = entry m s (indexAt v 21)) :
    (found.bind fun s => pageEntry (entry m' s (indexAt v 21)) v) =
      found.bind fun s => pageEntry (entry m s (indexAt v 21)) v := by
  cases found with
  | none => rw [Option.bind_none, Option.bind_none]
  | some s => rw [Option.bind_some, Option.bind_some, h s rfl]

theorem PageTree.linked_walk (h : PageTree m pt) (hl : Linked m m' pt t i u flags)
    (hq : q.length < 2) (ht : follow (links m) pt q = some t) (v : Nat) :
    walk m' pt v = walk m pt v := by
  obtain ⟨hnew, hold⟩ := hl.paths h hq ht (p := pathOf v) (Nat.le_refl 2)
  rw [(h.linked hl hq ht).walk_eq, h.walk_eq]
  by_cases heq : pathOf v = q ++ [i]
  · -- the walk now gets one table further, and finds nothing there
    have hnone : follow (links m) pt (q ++ [i]) = none := by
      rw [follow_snoc, ht, Option.bind_some, links_eq_none hl.absent]
    rw [hnew heq, heq, hnone, Option.bind_some, Option.bind_none, hl.blank]
    exact if_pos (Nat.zero_and _)
  · rw [hold heq]
    refine bind_entry_congr fun s hfollow => hl.same s _ ⟨pathOf v, Nat.le_refl 2, hfollow⟩ ?_
    intro heq
    obtain ⟨rfl, -⟩ := Prod.mk.inj heq
    have hpath := h.unshared (pathOf v) q s (Nat.le_refl 2) (Nat.le_of_lt hq) hfollow ht
    rw [← hpath] at hq
    exact Nat.lt_irrefl 2 hq

/-- An entry of a table of pages has been replaced. -/
structure Replaced (m m' : Memory) (pt t : Nat) (i : Fin 512) : Prop where
  page : entry m' t i &&& PAGE_PRESENT_FLAG ≠ 0 → entry m' t i &&& PAGE_SIZE_2MB ≠ 0
  same : ∀ s (j : Fin 512), Reached m pt s → (s, j) ≠ (t, i) → entry m' s j = entry m s j

theorem Replaced.of_store (h : PageTree m pt) (ht : Reached m pt t) (he : e < WORD)
    (hpage : e &&& PAGE_PRESENT_FLAG ≠ 0 → e &&& PAGE_SIZE_2MB ≠ 0) :
    Replaced m (store m (entryAddr t i) 8 e) pt t i := by
  have hentry : entry (store m (entryAddr t i) 8 e) t i = e := entry_store he
  refine ⟨fun hpresent => ?_, fun s j hs hne => ?_⟩
  · rw [hentry] at hpresent ⊢
    exact hpage hpresent
  · exact entry_store_of_ne (h.direct t ht) (h.direct s hs) i j hne

theorem Replaced.links_eq (h : PageTree m pt) (hr : Replaced m m' pt t i) (hq : q.length = 2)
    (ht : follow (links m) pt q = some t) {s : Nat} {j : Fin 512} (hp : p.length < 2)
    (hs : follow (links m) pt p = some s) : entry m' s j = entry m s j := by
  refine hr.same s j ⟨p, Nat.le_of_lt hp, hs⟩ fun heq => ?_
  obtain ⟨rfl, -⟩ := Prod.mk.inj heq
  have hpath := h.unshared p q s (Nat.le_of_lt hp) (Nat.le_of_eq hq) hs ht
  rw [hpath, hq] at hp
  exact Nat.lt_irrefl 2 hp

theorem Replaced.follow_eq (h : PageTree m pt) (hr : Replaced m m' pt t i) (hq : q.length = 2)
    (ht : follow (links m) pt q = some t) (hp : p.length ≤ 2) :
    follow (links m') pt p = follow (links m) pt p :=
  follow_congr (fun _ _ _ hp hs => links_congr (hr.links_eq h hq ht hp hs)) hp

theorem Replaced.reached_iff (h : PageTree m pt) (hr : Replaced m m' pt t i) (hq : q.length = 2)
    (ht : follow (links m) pt q = some t) {s : Nat} : Reached m' pt s ↔ Reached m pt s :=
  exists_congr fun _ => and_congr_right fun hp => by rw [hr.follow_eq h hq ht hp]

theorem PageTree.replaced (h : PageTree m pt) (hr : Replaced m m' pt t i) (hq : q.length = 2)
    (ht : follow (links m) pt q = some t) : PageTree m' pt where
  unshared := h.unshared.congr fun _ _ _ hp hs => links_congr (hr.links_eq h hq ht hp hs)
  direct s hs := h.direct s ((hr.reached_iff h hq ht).mp hs)
  upper p s j hp hfollow := by
    rw [hr.follow_eq h hq ht (Nat.le_of_lt hp)] at hfollow
    rw [hr.links_eq h hq ht hp hfollow]
    exact h.upper p s j hp hfollow
  lower p s j hp hfollow hpresent := by
    rw [hr.follow_eq h hq ht (Nat.le_of_eq hp)] at hfollow
    by_cases hentry : (s, j) = (t, i)
    · obtain ⟨rfl, rfl⟩ := Prod.mk.inj hentry
      exact hr.page hpresent
    · rw [hr.same s j ⟨p, Nat.le_of_eq hp, hfollow⟩ hentry] at hpresent ⊢
      exact h.lower p s j hp hfollow hpresent

theorem PageTree.replaced_walk (h : PageTree m pt) (hr : Replaced m m' pt t i) (hq : q.length = 2)
    (ht : follow (links m) pt q = some t) (v : Nat) :
    walk m' pt v = if pathOf v = q ∧ indexAt v 21 = i then pageEntry (entry m' t i) v
      else walk m pt v := by
  have hpath := hr.follow_eq (p := pathOf v) h hq ht (Nat.le_refl 2)
  rw [(h.replaced hr hq ht).walk_eq, h.walk_eq, hpath]
  split
  · next hpage =>
    rw [hpage.1, ht, Option.bind_some, hpage.2]
  · next hother =>
    refine bind_entry_congr fun s hfollow => hr.same s _ ⟨pathOf v, Nat.le_refl 2, hfollow⟩ ?_
    intro heq
    obtain ⟨rfl, hindex⟩ := Prod.mk.inj heq
    have hpath := h.unshared (pathOf v) q s (Nat.le_refl 2) (Nat.le_of_eq hq) hfollow ht
    exact hother ⟨hpath, hindex⟩

end Twos.Virt
