import Twos.Phys.Search
import Twos.Virt.Tables
import Twos.Virt.Translation

/-!
# The rights of a page

The processor grants a right on a page if all three entries on the way to it do: those of `p4`, `p3`
and `p2`. The entries of the two upper levels are written at boot or by `virt_get_next_map_level`,
and all of them allow writing and none allows the user. So what `virt_map_page` puts into the entry
of the page decides about writing, and about the user it decides nothing.

* `granted_eq` computes the rights of a mapped page from its last entry, where all links are plain.
* `Built` is the invariant of the runs: the links are plain, the tables form a tree, and `n` of the
  tables come out of the one block in use. `Built.map` is the step of one call of `virt_map_page`,
  put together from `Built.levels`, which makes the missing tables, and `Built.replaced`, which
  writes the entry.
* `built_of_run` carries it over a run of mappings, and `Built.grants_iff` reads the rights off.

A block has room for 255 tables, since `idx` counts twice for each one, and the runs here stay within
these.
-/

namespace Twos.Virt

open Lib

variable {m m' : Memory} {pt t u v e right : Nat} {p q : List (Fin 512)} {i : Fin 512}

/-! ## Effective rights

What a walk needs of an entry, a right needs of all three: its bit must be set in each of them. The
links all have the same flags, so the entry of the page decides (`granted_eq`).
-/

/-- The entries on the way to a page of 2 MiB. -/
def pathEntries (m : Memory) (pt v : Nat) : List Nat :=
  let e4 := entry m pt (indexAt v 39)
  let e3 := entry m (tableOf e4) (indexAt v 30)
  let e2 := entry m (tableOf e3) (indexAt v 21)
  [e4, e3, e2]

/-- The hardware rule, for a right given by its bit. -/
def granted (m : Memory) (pt v right : Nat) : Bool :=
  (pathEntries m pt v).all fun e => decide (e &&& right ≠ 0)

/-- The entry of a page, if there is a table for it. -/
def leaf (m : Memory) (pt v : Nat) : Option Nat :=
  (follow (links m) pt (pathOf v)).map fun t => entry m t (indexAt v 21)

/-- All links have the flags that the code gives them. -/
def PlainLinks (m : Memory) (pt : Nat) : Prop :=
  ∀ p t (i : Fin 512), p.length < 2 → follow (links m) pt p = some t →
    entry m t i &&& PAGE_PRESENT_FLAG ≠ 0 →
    entry m t i = (tableOf (entry m t i) - KERNEL_VADDR) ||| LINK_FLAGS

theorem PlainLinks.flags (h : PlainLinks m pt) (htree : PageTree m pt) (hp : p.length < 2)
    (ht : follow (links m) pt p = some t) (hlink : links m t i = some u)
    (hright : right < TABLE_SIZE) : entry m t i &&& right = LINK_FLAGS &&& right := by
  have hpresent : entry m t i &&& PAGE_PRESENT_FLAG ≠ 0 := by
    intro habsent
    rw [links_eq_none habsent] at hlink
    cases hlink
  obtain ⟨phys, hphys, hdvd, -⟩ :=
    htree.direct u ⟨p ++ [i], by rw [List.length_append]; exact hp, by rw [follow_snoc, ht]; exact hlink⟩
  have htable := links_eq_some hpresent
  rw [hlink, Option.some.injEq] at htable
  rw [h p t i hp ht hpresent, ← htable, hphys, Nat.add_sub_cancel_left, link_flags hdvd hright]

/-- Where there is a table for a page, the entry in it decides about all that links grant. -/
theorem granted_eq (h : PlainLinks m pt) (htree : PageTree m pt) (hleaf : leaf m pt v = some e)
    (hright : right < TABLE_SIZE) :
    granted m pt v right = decide (LINK_FLAGS &&& right ≠ 0 ∧ e &&& right ≠ 0) := by
  obtain ⟨t, hpath, rfl⟩ := Option.map_eq_some_iff.mp hleaf
  have hroot : follow (links m) pt [] = some pt := follow_nil
  rw [show pathOf v = [indexAt v 39] ++ [indexAt v 30] from rfl, follow_snoc] at hpath
  obtain ⟨p3, hthird, hsecond⟩ := Option.bind_eq_some_iff.mp hpath
  have hfirst : links m pt (indexAt v 39) = some p3 := by
    rw [← hthird, show [indexAt v 39] = [] ++ [indexAt v 39] from rfl, follow_snoc, hroot,
      Option.bind_some]
  have h4 := h.flags (p := []) htree Nat.two_pos hroot hfirst hright
  have h3 := h.flags (p := [indexAt v 39]) htree Nat.one_lt_two hthird hsecond hright
  have hp3 : tableOf (entry m pt (indexAt v 39)) = p3 := by
    unfold links at hfirst
    split at hfirst
    · cases hfirst
    · exact Option.some.inj hfirst
  have hp2 : tableOf (entry m p3 (indexAt v 30)) = t := by
    unfold links at hsecond
    split at hsecond
    · cases hsecond
    · exact Option.some.inj hsecond
  simp only [granted, pathEntries, hp3, hp2, List.all_cons, List.all_nil, Bool.and_true, h4, h3]
  grind

/-- A page that is mapped has an entry. -/
theorem leaf_of_walk (htree : PageTree m pt) (hwalk : walk m pt v ≠ none) :
    ∃ e, leaf m pt v = some e := by
  rw [htree.walk_eq] at hwalk
  unfold leaf
  cases hpath : follow (links m) pt (pathOf v) with
  | none =>
      rw [hpath, Option.bind_none] at hwalk
      exact absurd rfl hwalk
  | some t => exact ⟨_, rfl⟩

/-! ## What becomes of the entries

Linking a blank table and replacing an entry are the two changes to a tree. The first keeps all
entries of pages, and the second those of the other pages.
-/

/-- No page loses its entry. -/
def KeepsLeaves (m m' : Memory) (pt : Nat) : Prop :=
  ∀ v e, leaf m pt v = some e → leaf m' pt v = some e

theorem Linked.keepsLeaves {flags : Nat} (h : PageTree m pt) (hl : Linked m m' pt t i u flags)
    (hq : q.length < 2) (ht : follow (links m) pt q = some t) : KeepsLeaves m m' pt := by
  intro v e hleaf
  obtain ⟨s, hpath, rfl⟩ := Option.map_eq_some_iff.mp hleaf
  have hne : pathOf v ≠ q ++ [i] := by
    intro heq
    rw [heq, follow_snoc, ht, Option.bind_some, links_eq_none hl.absent] at hpath
    cases hpath
  have hkept := (hl.paths h hq ht (p := pathOf v) (Nat.le_refl 2)).2 hne
  unfold leaf
  rw [hkept, hpath, Option.map_some, hl.same s _ ⟨pathOf v, Nat.le_refl 2, hpath⟩]
  intro heq
  obtain ⟨rfl, -⟩ := Prod.mk.inj heq
  have hshared := h.unshared (pathOf v) q s (Nat.le_refl 2) (Nat.le_of_lt hq) hpath ht
  rw [← hshared] at hq
  exact Nat.lt_irrefl 2 hq

theorem Linked.plainLinks (h : PageTree m pt) (hp : PlainLinks m pt)
    (hl : Linked m m' pt t i u LINK_FLAGS) (hq : q.length < 2)
    (ht : follow (links m) pt q = some t) : PlainLinks m' pt := by
  intro p s j hlen hfollow hpresent
  rcases hl.reached h hq ht (Nat.le_of_lt hlen) hfollow with ⟨-, rfl⟩ | hold
  · exact absurd (by rw [hl.blank, Nat.zero_and]) hpresent
  · by_cases hentry : (s, j) = (t, i)
    · obtain ⟨rfl, rfl⟩ := Prod.mk.inj hentry
      have htable := hl.links_eq
      rw [links_eq_some hpresent, Option.some.injEq] at htable
      rw [htable]
      exact hl.link
    · rw [hl.same s j ⟨p, Nat.le_of_lt hlen, hold⟩ hentry] at hpresent ⊢
      exact hp p s j hlen hold hpresent

theorem Replaced.plainLinks (h : PageTree m pt) (hp : PlainLinks m pt) (hr : Replaced m m' pt t i)
    (hq : q.length = 2) (ht : follow (links m) pt q = some t) : PlainLinks m' pt := by
  intro p s j hlen hfollow
  rw [hr.follow_eq h hq ht (Nat.le_of_lt hlen)] at hfollow
  rw [hr.links_eq h hq ht hlen hfollow]
  exact hp p s j hlen hfollow

/-- Of the entries of pages, only the one that is replaced changes. -/
theorem Replaced.leaf_eq (h : PageTree m pt) (hr : Replaced m m' pt t i) (hq : q.length = 2)
    (ht : follow (links m) pt q = some t) (v : Nat) :
    leaf m' pt v = if pathOf v = q ∧ indexAt v 21 = i then some (entry m' t i) else leaf m pt v := by
  have hpath := hr.follow_eq (p := pathOf v) h hq ht (Nat.le_refl 2)
  unfold leaf
  rw [hpath]
  split
  · next hpage =>
    rw [hpage.1, ht, Option.map_some, hpage.2]
  · next hother =>
    cases hfollow : follow (links m) pt (pathOf v) with
    | none => rw [Option.map_none, Option.map_none]
    | some s =>
        rw [Option.map_some, Option.map_some, hr.same s _ ⟨pathOf v, Nat.le_refl 2, hfollow⟩]
        intro heq
        obtain ⟨rfl, hindex⟩ := Prod.mk.inj heq
        have hshared := h.unshared (pathOf v) q s (Nat.le_refl 2) (Nat.le_of_eq hq) hfollow ht
        exact hother ⟨hshared, hindex⟩

/-! ## The tables that have been made

The tables a run makes come from one block, one behind the other. `Built` counts them, and says that
the others are outside of the block, so that the next one is a table that is not in the tree
(`Built.handout`). `Untouched` is what is needed before there is a block.
-/

variable {σ : Type} {physMalloc : σ → BitVec 64 → Except Fault (Nat × σ)} {s s₁ s' : VirtMem σ}
  {n b : Nat} {room : Prop}

/-- Before the first table is made: if there is room, the page that its block will come from is a page
of the direct map with no table of the tree in it. -/
structure Untouched (physMalloc : σ → BitVec 64 → Except Fault (Nat × σ)) (room : Prop)
    (s : VirtMem σ) (pt : Nat) : Prop where
  cur : s.cur = 0
  page : room → ∀ page phys, physMalloc s.phys ONE_PAGE = .ok (page, phys) → page ≠ 0 →
    DirectPage page ∧ ∀ t, Reached s.mem pt t →
      t + TABLE_SIZE ≤ KERNEL_VADDR + page ∨ KERNEL_VADDR + page + PAGE_SIZE ≤ t

/-- A table outside of the block `b`, or one of the first `n` that were taken from it. -/
def OldTable (b n t : Nat) : Prop :=
  t + TABLE_SIZE ≤ b ∨ b + PAGE_SIZE ≤ t ∨ ∃ k, k < n ∧ t = b + TABLE_SIZE * (2 * k + 1)

/-- The first `n` tables have been made, all of them from the block `b`. -/
structure FromBlock (s : VirtMem σ) (pt b n : Nat) : Prop where
  half : Tables.Half b n s
  old : ∀ t, Reached s.mem pt t → OldTable b n t

/-- `n` tables have been made since boot. -/
structure Built (physMalloc : σ → BitVec 64 → Except Fault (Nat × σ)) (room : Prop) (s : VirtMem σ)
    (pt n : Nat) : Prop where
  tree : PageTree s.mem pt
  plain : PlainLinks s.mem pt
  supply : (n = 0 ∧ Untouched physMalloc room s pt) ∨ ∃ b, FromBlock s pt b n

/-- What is written outside of the block does not concern the tables to come. -/
theorem half_congr (h : Tables.Half b n s)
    (hmem : ∀ x, b ≤ x → x < b + PAGE_SIZE → m' x = s.mem x) :
    Tables.Half b n { s with mem := m' } := by
  have hcur : s.cur ≠ 0 := by
    rw [h.cur]
    exact h.direct.ne_zero
  refine ⟨h.direct, h.cur, ?_, fun k hk hodd x hx => ?_⟩
  · have hidx := h.idx
    rw [supply_idx s hcur] at hidx
    rw [supply_idx { s with mem := m' } hcur, ← hidx]
    apply load_congr
    intro x hlo hhi
    dsimp only at hlo hhi
    rw [h.cur] at hlo hhi
    exact hmem x (by omega) (by lia)
  · obtain ⟨hlo, hhi⟩ := Tables.inTable_dir hodd hx
    dsimp only
    rw [hmem x hlo (by lia), h.clear k hk hodd x hx]

theorem half_store (h : Tables.Half b n s) (hn : n < 256) (ht : OldTable b n t) (i : Fin 512) (e : Nat) :
    Tables.Half b n { s with mem := store s.mem (entryAddr t i) 8 e } := by
  have hi := i.isLt
  rcases ht with hbefore | hbehind | ⟨k, hk, rfl⟩
  · refine half_congr h fun x hlo hhi => store_outside ?_
    unfold entryAddr
    lia
  · refine half_congr h fun x hlo hhi => store_outside ?_
    unfold entryAddr
    lia
  · exact Tables.half_write h hk (by lia) hi

theorem OldTable.mono {k : Nat} (h : OldTable b n t) (hk : n ≤ k) : OldTable b k t :=
  h.imp id fun h => h.imp id fun ⟨l, hl, heq⟩ => ⟨l, Nat.lt_of_lt_of_le hl hk, heq⟩

theorem OldTable.ne_next (h : OldTable b n t) (hn : n < 255) : t ≠ b + TABLE_SIZE * (2 * n + 1) := by
  rintro rfl
  rcases h with hbefore | hbehind | ⟨k, hk, heq⟩
  · lia
  · lia
  · lia

/-- Where a block keeps its own words there is none of them. -/
theorem OldTable.ne_fields (h : OldTable b n t) (hn : n < 255) : t ≠ b + OFF_IDX := by
  rintro rfl
  rcases h with hbefore | hbehind | ⟨k, hk, heq⟩
  · lia
  · lia
  · lia

theorem Untouched.old (h : Untouched physMalloc room s pt) (hroom : room) {page : Nat} {phys : σ}
    (hrun : physMalloc s.phys ONE_PAGE = .ok (page, phys)) (hne : page ≠ 0)
    (ht : Reached s.mem pt t) : OldTable (KERNEL_VADDR + page) n t :=
  ((h.page hroom page phys hrun hne).2 t ht).imp id .inl

/-- The next table, up to number 254, counted from 0. -/
theorem Built.handout (h : Built physMalloc room s pt n) (hroom : room) (hn : n < 255)
    (hrun : newPageTable physMalloc s = .ok (u, s₁)) :
    Handout physMalloc s pt u s₁ ∧ ∃ b, u = b + TABLE_SIZE * (2 * n + 1) ∧
      Tables.Half b (n + 1) s₁ ∧ ∀ t, Reached s.mem pt t → OldTable b n t := by
  have hodd : 2 * n + 1 < DIRS := by lia
  rcases h.supply with ⟨rfl, hfirst⟩ | ⟨b, hblock⟩
  · -- the first table of all comes out of the page that `phys_malloc` gives
    have hpage := fun page phys hmalloc hne => (hfirst.page hroom page phys hmalloc hne).1
    obtain ⟨b, htaken⟩ := Tables.taken_first hfirst.cur hpage hrun
    have hblank : Blank s₁.mem u := fun x hlo hhi =>
      htaken.clear 0 (Nat.le_refl 0) hodd x (htaken.table ▸ ⟨hlo, hhi⟩)
    have hplaced := placed_of_run (.inl hfirst.cur) (fun _ => hpage) hrun hblank
    obtain ⟨-, page, hmalloc, hne, hcur⟩ := hplaced.new (.inl hfirst.cur)
    rw [htaken.cur] at hcur
    have hold : ∀ t, Reached s.mem pt t → OldTable b 0 t := fun t ht =>
      hcur ▸ hfirst.old hroom hmalloc hne ht
    have hfields : ¬ Reached s.mem pt (s.cur + OFF_IDX) := by
      intro hreached
      obtain ⟨phys, heq, -⟩ := h.tree.direct _ hreached
      rw [hfirst.cur] at heq
      lia
    have hcur₁ : s₁.supply.cur = b := htaken.cur
    refine ⟨⟨hrun, hplaced.supplied.same h.tree (.inl hfirst.cur) hfields fun _ t ht => ?_,
      hplaced.direct, fun hu => (hold u hu).ne_next hn htaken.table, hblank⟩,
      b, htaken.table, htaken.half, hold⟩
    rcases hold t ht with hbefore | hbehind | ⟨k, hk, -⟩
    · exact .inl (hcur₁ ▸ hbefore)
    · exact .inr (hcur₁ ▸ hbehind)
    · exact absurd hk (Nat.not_lt_zero k)
  · -- later ones out of the block in use, where half of the tables are taken
    have hhalf := hblock.half
    obtain ⟨htaken, -⟩ := Tables.taken_next hhalf (by omega) hrun
    have hnot := hhalf.not_renews (by omega)
    have hcur : s.cur = 0 ∨ DirectBlock s.cur := .inr (hhalf.cur ▸ hhalf.direct)
    have hblank : Blank s₁.mem u := fun x hlo hhi =>
      htaken.clear n (Nat.le_refl n) hodd x (htaken.table ▸ ⟨hlo, hhi⟩)
    have hplaced := placed_of_run hcur (fun hrenews => absurd hrenews hnot) hrun hblank
    have hfields : ¬ Reached s.mem pt (s.cur + OFF_IDX) := fun hreached =>
      (hblock.old _ hreached).ne_fields hn (by rw [hhalf.cur])
    exact ⟨⟨hrun, hplaced.supplied.same h.tree hcur hfields fun hrenews => absurd hrenews hnot,
      hplaced.direct, fun hu => (hblock.old u hu).ne_next hn htaken.table, hblank⟩,
      b, htaken.table, htaken.half, hblock.old⟩

/-- A level that is there. -/
theorem Built.level_present (h : Built physMalloc room s pt n) (hq : q.length < 2)
    (ht : follow (links s.mem) pt q = some t) (hlink : links s.mem t i ≠ none)
    (hrun : virtGetNextMapLevel physMalloc s t i LINK_FLAGS = .ok (u, s')) :
    s' = s ∧ links s.mem t i = some u := by
  have hpresent : entry s.mem t i &&& PAGE_PRESENT_FLAG ≠ 0 := fun habsent =>
    hlink (links_eq_none habsent)
  obtain ⟨p, hlevel, hpath⟩ := Virt.level_present physMalloc h.tree hq ht hpresent
  obtain ⟨rfl, rfl⟩ := Prod.mk.inj (Except.ok.inj (hlevel.symm.trans hrun))
  rw [follow_snoc, ht, Option.bind_some] at hpath
  exact ⟨rfl, hpath⟩

/-- A level that has to be made. -/
theorem Built.level_absent (h : Built physMalloc room s pt n) (hroom : room) (hn : n < 255) (hq : q.length < 2)
    (ht : follow (links s.mem) pt q = some t) (hlink : links s.mem t i = none)
    (hrun : virtGetNextMapLevel physMalloc s t i LINK_FLAGS = .ok (u, s')) :
    Built physMalloc room s' pt (n + 1) ∧ follow (links s'.mem) pt (q ++ [i]) = some u ∧
      KeepsLeaves s.mem s'.mem pt ∧ ∀ j : Fin 512, links s'.mem u j = none := by
  have habsent : entry s.mem t i &&& PAGE_PRESENT_FLAG = 0 := by
    unfold links at hlink
    split at hlink
    · assumption
    · cases hlink
  have hdirect := h.tree.direct t ⟨q, Nat.le_of_lt hq, ht⟩
  have hcall := hrun
  rw [virtGetNextMapLevel, if_neg hdirect.ne_zero, if_neg (not_not.mpr habsent)] at hcall
  obtain ⟨⟨v, s₁⟩, hnew, -⟩ := seq_ok.mp hcall
  obtain ⟨hhandout, b, hv, hhalf, hold⟩ := h.handout hroom hn hnew
  obtain ⟨hlevel, hl⟩ := Virt.level_absent h.tree hq ht habsent hhandout
  obtain ⟨rfl, rfl⟩ := Prod.mk.inj (Except.ok.inj (hlevel.symm.trans hrun))
  have hpath := (hl.paths h.tree hq ht (p := q ++ [i]) (by rw [List.length_append]; exact hq)).1 rfl
  refine ⟨⟨h.tree.linked hl hq ht, hl.plainLinks h.tree h.plain hq ht, .inr ⟨b, ?_, fun w hw => ?_⟩⟩,
    hpath, hl.keepsLeaves h.tree hq ht, hl.links_blank⟩
  · exact half_store hhalf (by omega) ((hold t ⟨q, Nat.le_of_lt hq, ht⟩).mono (Nat.le_succ n)) i _
  · rcases hl.eq_or_reached h.tree hq ht hw with rfl | hreached
    · exact .inr (.inr ⟨n, Nat.lt_succ_self n, hv⟩)
    · exact (hold w hreached).mono (Nat.le_succ n)

/-- The entry of a page, stored. -/
theorem Built.replaced (h : Built physMalloc room s pt n) (hn : n < 256) (hq : q.length = 2)
    (ht : follow (links s.mem) pt q = some t)
    (hr : Replaced s.mem (store s.mem (entryAddr t i) 8 e) pt t i) :
    Built physMalloc room { s with mem := store s.mem (entryAddr t i) 8 e } pt n := by
  have hsame {w : Nat} := hr.reached_iff h.tree hq ht (s := w)
  refine ⟨h.tree.replaced hr hq ht, hr.plainLinks h.tree h.plain hq ht, ?_⟩
  rcases h.supply with ⟨hzero, hfirst⟩ | ⟨b, hblock⟩
  · refine .inl ⟨hzero, hfirst.cur, fun hroom page phys hrun hne => ?_⟩
    obtain ⟨hdirect, hout⟩ := hfirst.page hroom page phys hrun hne
    exact ⟨hdirect, fun w hw => hout w (hsame.mp hw)⟩
  · refine .inr ⟨b, half_store hblock.half hn (hblock.old t ⟨q, Nat.le_of_eq hq, ht⟩) i e, fun w hw => ?_⟩
    exact hblock.old w (hsame.mp hw)

/-! ## Mapping a page

A mapping goes down two levels, each of which is there or is made, and stores an entry. So it makes
as many tables as are missing, and then changes the entry of one page.
-/

/-- The two levels on the way to a page. -/
theorem Built.levels {v p3 p2 : Nat} {s₃ s₄ : VirtMem σ} (h : Built physMalloc room s pt n)
    (hroom : 0 < tablesNeeded s.mem pt v → room) (hfew : n + tablesNeeded s.mem pt v < 256)
    (hthird : virtGetNextMapLevel physMalloc s pt (indexAt v 39) LINK_FLAGS = .ok (p3, s₃))
    (hsecond : virtGetNextMapLevel physMalloc s₃ p3 (indexAt v 30) LINK_FLAGS = .ok (p2, s₄)) :
    Built physMalloc room s₄ pt (n + tablesNeeded s.mem pt v) ∧
      follow (links s₄.mem) pt (pathOf v) = some p2 ∧ KeepsLeaves s.mem s₄.mem pt := by
  have hroot : follow (links s.mem) pt [] = some pt := follow_nil
  have hstart : follow (links s.mem) pt [indexAt v 39] = links s.mem pt (indexAt v 39) := by
    rw [show [indexAt v 39] = [] ++ [indexAt v 39] from rfl, follow_snoc, hroot, Option.bind_some]
  have hend (m : Memory) : follow (links m) pt (pathOf v) =
      (follow (links m) pt [indexAt v 39]).bind fun t => links m t (indexAt v 30) :=
    follow_snoc [indexAt v 39] (indexAt v 30)
  unfold tablesNeeded at hfew hroom ⊢
  by_cases h4 : links s.mem pt (indexAt v 39) = none
  · -- nothing is linked in the table that has just been made
    rw [if_pos h4] at hfew hroom ⊢
    have hroom := hroom Nat.two_pos
    obtain ⟨h₃, hpath, hleaves, hblank⟩ :=
      h.level_absent (q := []) hroom (by omega) Nat.two_pos hroot h4 hthird
    obtain ⟨h₄, hpath', hleaves', -⟩ :=
      h₃.level_absent (q := [indexAt v 39]) hroom (by omega) Nat.one_lt_two hpath (hblank _) hsecond
    exact ⟨h₄, hpath', fun w e hleaf => hleaves' w e (hleaves w e hleaf)⟩
  · rw [if_neg h4] at hfew hroom ⊢
    obtain ⟨rfl, hlink⟩ := h.level_present (q := []) Nat.two_pos hroot h4 hthird
    have hpath : follow (links s₃.mem) pt [indexAt v 39] = some p3 := hstart.trans hlink
    rw [hend, hpath, Option.bind_some] at hfew hroom ⊢
    by_cases h3 : links s₃.mem p3 (indexAt v 30) = none
    · rw [if_pos h3] at hfew hroom ⊢
      obtain ⟨h₄, hpath', hleaves, -⟩ :=
        h.level_absent (q := [indexAt v 39]) (hroom Nat.one_pos) (by omega) Nat.one_lt_two hpath h3 hsecond
      exact ⟨h₄, hpath', hleaves⟩
    · -- both links are there, and no table is made
      rw [if_neg h3]
      obtain ⟨rfl, hlink'⟩ :=
        h.level_present (q := [indexAt v 39]) Nat.one_lt_two hpath h3 hsecond
      exact ⟨h, by rw [hend, hpath]; exact hlink', fun _ _ hleaf => hleaf⟩

/-- The addresses in a page, by what a walk looks at. -/
def InPage (virt v : Nat) : Prop :=
  pathOf v = pathOf (pageAlign virt) ∧ indexAt v 21 = indexAt (pageAlign virt) 21

/-- `virt_map_page` sets the entry of its page and keeps those of the others. -/
theorem Built.map {phys virt flags a : Nat} (h : Built physMalloc room s pt n)
    (hroom : 0 < tablesNeeded s.mem pt (pageAlign virt) → room)
    (hfew : n + tablesNeeded s.mem pt (pageAlign virt) < 256)
    (hlt : pageAlign phys ||| flags < WORD)
    (hpage : (pageAlign phys ||| flags) &&& PAGE_PRESENT_FLAG ≠ 0 →
      (pageAlign phys ||| flags) &&& PAGE_SIZE_2MB ≠ 0)
    (hrun : virtMapPage physMalloc s pt phys virt flags = .ok (a, s')) :
    Built physMalloc room s' pt (n + tablesNeeded s.mem pt (pageAlign virt)) ∧
      (∀ v, InPage virt v → leaf s'.mem pt v = some (pageAlign phys ||| flags)) ∧
      ∀ v e, ¬ InPage virt v → leaf s.mem pt v = some e → leaf s'.mem pt v = some e := by
  obtain ⟨⟨p3, s₃⟩, hthird, hrest⟩ := seq_ok.mp hrun
  obtain ⟨⟨p2, s₄⟩, hsecond, hlast⟩ := seq_ok.mp hrest
  obtain ⟨rfl, rfl⟩ := Prod.mk.inj (Except.ok.inj hlast)
  obtain ⟨h₄, hpath, hleaves⟩ := h.levels hroom hfew hthird hsecond
  have htwo : (pathOf (pageAlign virt)).length = 2 := rfl
  have hreplaced : Replaced s₄.mem (store s₄.mem (entryAddr p2 (indexAt (pageAlign virt) 21)) 8
      (pageAlign phys ||| flags)) pt p2 (indexAt (pageAlign virt) 21) :=
    .of_store h₄.tree ⟨_, Nat.le_of_eq htwo, hpath⟩ hlt hpage
  have hleaf := hreplaced.leaf_eq h₄.tree htwo hpath
  rw [entry_store hlt] at hleaf
  refine ⟨h₄.replaced hfew htwo hpath hreplaced, fun v hv => ?_, fun v e hv hold => ?_⟩
  · exact (hleaf v).trans (if_pos hv)
  · exact ((hleaf v).trans (if_neg hv)).trans (hleaves v e hold)

/-! ## Runs

A run is followed with the number of tables it has made so far, because the 256th would be the one
that overlaps the fields of the block.
-/

/-- The state, and how many tables have been made. -/
structure Mapping (σ : Type) where
  vm : VirtMem σ
  made : Nat

inductive MapCall where
  | map (phys virt flags : Nat)
  | unmap (virt : Nat)

/-- The 32 bits of `flags`, for a page of 2 MiB or for none. -/
structure PageFlags (flags : Nat) : Prop where
  lt : flags < 2 ^ 32
  page : flags &&& PAGE_PRESENT_FLAG ≠ 0 → flags &&& PAGE_SIZE_2MB ≠ 0

theorem pageFlags_default {flags : Nat} (h : flags = PAGE_DEFAULT ∨ flags = PAGE_USER_DEFAULT) :
    PageFlags flags := by
  rcases h with rfl | rfl
  · exact ⟨by decide, by decide⟩
  · exact ⟨by decide, by decide⟩

/-- A call that returns. -/
inductive MapStep (physMalloc : σ → BitVec 64 → Except Fault (Nat × σ)) (pt : Nat) :
    Mapping σ → MapCall → Mapping σ → Prop
  | map {s : Mapping σ} {vm : VirtMem σ} {phys virt flags a : Nat} (hflags : PageFlags flags)
      (hrun : virtMapPage physMalloc s.vm pt phys virt flags = .ok (a, vm)) :
      MapStep physMalloc pt s (.map phys virt flags)
        ⟨vm, s.made + tablesNeeded s.vm.mem pt (pageAlign virt)⟩
  | unmap {s : Mapping σ} {vm : VirtMem σ} {virt : Nat}
      (hrun : virtUnmapPage physMalloc s.vm pt virt = .ok vm) :
      MapStep physMalloc pt s (.unmap virt)
        ⟨vm, s.made + tablesNeeded s.vm.mem pt (pageAlign virt)⟩

theorem pageAlign_mod (phys : Nat) : pageAlign phys % 2 ^ 21 = 0 := by
  have hmask : pageAlign phys = phys % 2 ^ 64 / 2 ^ 21 * 2 ^ 21 :=
    and_mask (by decide : 21 ≤ 64) phys
  rw [hmask]
  exact Nat.mul_mod_left _ _

/-- The entry of a page with the flags of a call. -/
theorem PageFlags.entry {flags : Nat} (h : PageFlags flags) (phys : Nat) :
    pageAlign phys ||| flags < WORD ∧
      ((pageAlign phys ||| flags) &&& PAGE_PRESENT_FLAG ≠ 0 →
        (pageAlign phys ||| flags) &&& PAGE_SIZE_2MB ≠ 0) := by
  have halign : pageAlign phys < WORD := Nat.lt_of_le_of_lt Nat.and_le_right (by decide)
  constructor
  · exact Nat.or_lt_two_pow (n := 64) halign (Nat.lt_trans h.lt (by decide))
  · rw [or_and_aligned (pageAlign_mod phys) (by decide),
      or_and_aligned (pageAlign_mod phys) (by decide)]
    exact h.page

/-- Runs that make fewer than 256 tables keep the tables as they should be. Room is needed if they
make any. -/
theorem built_of_run {calls : List MapCall} {r : Mapping σ} (h : Built physMalloc room s pt 0)
    (hrun : Run (MapStep physMalloc pt) ⟨s, 0⟩ calls r) (hroom : 0 < r.made → room)
    (hfew : r.made < 256) : Built physMalloc room r.vm pt r.made := by
  have hbuilt := hrun.invariant
    (fun r => (0 < r.made → room) → r.made < 256 → Built physMalloc room r.vm pt r.made)
    fun _ _ => h
  refine hbuilt ?_ hroom hfew
  -- tables that have been made before are among those that have been made
  intro r call r' hr hstep hroom hfew
  cases hstep with
  | map hflags hmap =>
      obtain ⟨hlt, hpage⟩ := hflags.entry _
      have hbefore := hr (fun hmade => hroom (Nat.add_pos_left hmade _))
        (Nat.lt_of_le_of_lt (Nat.le_add_right _ _) hfew)
      exact (hbefore.map (fun hnew => hroom (Nat.add_pos_right _ hnew)) hfew hlt hpage hmap).1
  | unmap hunmap =>
      obtain ⟨⟨a, vm'⟩, hmap, hlast⟩ := seq_ok.mp hunmap
      obtain rfl := Except.ok.inj hlast
      have hbefore := hr (fun hmade => hroom (Nat.add_pos_left hmade _))
        (Nat.lt_of_le_of_lt (Nat.le_add_right _ _) hfew)
      exact (hbefore.map (fun hnew => hroom (Nat.add_pos_right _ hnew)) hfew (by decide)
        (fun hpresent => absurd rfl hpresent) hmap).1

/-! ## Rights that are asked for and rights that are granted -/

/-- The page gets the rights that the flags ask for, and those of the others stay. -/
structure GrantsRights (m m' : Memory) (pt virt flags : Nat) : Prop where
  page : ∀ v right, Canonical v → pageAlign v = pageAlign virt →
    right = PAGE_WRITE_FLAG ∨ right = PAGE_USER →
    granted m' pt v right = decide (flags &&& right ≠ 0)
  others : ∀ v right, Canonical v → pageAlign v ≠ pageAlign virt → walk m pt v ≠ none →
    right = PAGE_WRITE_FLAG ∨ right = PAGE_USER → granted m' pt v right = granted m pt v right

/-- Links grant writing only, and so does the page then. -/
theorem Built.grants_iff {phys virt flags a : Nat} (h : Built physMalloc room s pt n)
    (hvirt : Canonical virt) (hflags : flags = PAGE_DEFAULT ∨ flags = PAGE_USER_DEFAULT)
    (hroom : 0 < tablesNeeded s.mem pt (pageAlign virt) → room)
    (hfew : n + tablesNeeded s.mem pt (pageAlign virt) < 256)
    (hrun : virtMapPage physMalloc s pt phys virt flags = .ok (a, s')) :
    GrantsRights s.mem s'.mem pt virt flags ↔ flags = PAGE_DEFAULT := by
  -- the map is as before in all but the entry of this page
  obtain ⟨hlt, hpresent⟩ := (pageFlags_default hflags).entry phys
  obtain ⟨hafter, hpage, hothers⟩ := h.map hroom hfew hlt hpresent hrun
  have hright {right : Nat} (hright : right = PAGE_WRITE_FLAG ∨ right = PAGE_USER) :
      right < TABLE_SIZE := by rcases hright with rfl | rfl <;> decide
  have hgranted (v right : Nat) (hv : Canonical v) (hsame : pageAlign v = pageAlign virt)
      (hsmall : right < TABLE_SIZE) :
      granted s'.mem pt v right = decide (LINK_FLAGS &&& right ≠ 0 ∧ flags &&& right ≠ 0) := by
    have hleaf := hpage v ((samePage_iff hv hvirt).mpr hsame)
    rw [granted_eq hafter.plain hafter.tree hleaf hsmall,
      or_and_aligned (pageAlign_mod phys) (Nat.lt_trans hsmall (by decide))]
  constructor
  · intro hgrants
    rcases hflags with rfl | rfl
    · rfl
    · -- the links do not let the user in
      have huser := hgrants.page virt PAGE_USER hvirt rfl (.inr rfl)
      rw [hgranted virt PAGE_USER hvirt rfl (by decide)] at huser
      exact absurd huser (by decide)
  · rintro rfl
    refine ⟨fun v right hv hsame hbit => ?_, fun v right hv hother hmapped hbit => ?_⟩
    · -- the page itself: its links and its entry all allow the write and refuse the user
      rw [hgranted v right hv hsame (hright hbit)]
      rcases hbit with rfl | rfl <;> decide
    · -- any other mapped page: its last entry is the old one, and its links are plain before and after
      obtain ⟨e, hleaf⟩ := leaf_of_walk h.tree hmapped
      have hkept := hothers v e (fun hin => hother ((samePage_iff hv hvirt).mp hin)) hleaf
      rw [granted_eq hafter.plain hafter.tree hkept (hright hbit),
        granted_eq h.plain h.tree hleaf (hright hbit)]

end Twos.Virt
