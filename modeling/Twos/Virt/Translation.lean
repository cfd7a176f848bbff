import Twos.Phys.Exclusive
import Twos.Virt.Supply
import Twos.Virt.Walk

/-!
# Mapping

`virt_map_page` and `virt_unmap_page` as updates of the translation: the walks of one page change,
and no others. They create the tables that are missing on the way. What may go wrong is what
`new_page_table` writes for itself: the last of the tables that it hands out from a block lies where
the block keeps `idx`, `prev` and `next`, so that a tree with that table in it is damaged when the
next block is linked to it.

* `Spare` gives the two tables that the next calls of `new_page_table` hand out, and `Apart` what
  they have to be clear of. Both are about the tables that the call needs, `tablesNeeded` of them,
  and about a new page only where one of these calls starts a block (`StartsBlock`).
* `level_present` and `level_absent` are `virt_get_next_map_level` with a link there and without one.
  `first_handout` and `second_handout` are the tables it makes, the second one asked for after the
  first has been linked, and `levels_spec` goes down both levels.
* `virtMapPage_spec` adds the entry of the page, and `mapping_updates` says it of the two calls in
  the terms of the processor: which addresses are translated, and to what.
-/

namespace Twos.Virt

open Lib

variable {σ : Type} {physMalloc : σ → BitVec 64 → Except Fault (Nat × σ)} {s s₁ s₂ s' : VirtMem σ}
  {pt t u : Nat} {q : List (Fin 512)} {i : Fin 512}

/-! ## New tables

A table that is blank when it is handed out is one of the 511 of its block: the one behind them
begins with `idx`, which cannot be zero after a call. `Placed` says this of a call that has
returned, and which block it is.
-/

/-- One of the next `n` calls of `new_page_table`, of which there are at most two, starts a block. -/
def StartsBlock (s : Supply σ) (n : Nat) : Prop :=
  (0 < n ∧ s.Renews) ∨ (1 < n ∧ DIRS ≤ s.idx + 2)

/-- Where a table that is blank when `new_page_table` returns it lies in its block. -/
structure Placed (physMalloc : σ → BitVec 64 → Except Fault (Nat × σ)) (s : VirtMem σ) (u : Nat)
    (s₁ : VirtMem σ) : Prop where
  block : DirectBlock s₁.cur
  table : ∃ k, k < DIRS ∧ u = s₁.cur + TABLE_SIZE * k
  advance : advance physMalloc s.supply = .ok (u, s₁.supply)
  supplied : Supplied s s₁.supply s₁
  old : ¬ s.supply.Renews → s₁.cur = s.cur ∧ s₁.phys = s.phys
  new : s.supply.Renews → ¬ s₁.supply.Renews ∧
    ∃ page, physMalloc s.phys ONE_PAGE = .ok (page, s₁.phys) ∧ page ≠ 0 ∧
      s₁.cur = KERNEL_VADDR + page

/-- The block of a call. -/
theorem ready_cases {r : Supply σ} (hcur : s.cur = 0 ∨ DirectBlock s.cur)
    (hpage : s.supply.Renews → ∀ page phys, physMalloc s.phys ONE_PAGE = .ok (page, phys) →
      page ≠ 0 → DirectPage page) (h : ready physMalloc s.supply = .ok r) :
    DirectBlock r.cur ∧ r.idx < DIRS ∧
      (¬ s.supply.Renews → r = s.supply ∧ r.cur = s.cur) ∧
      (s.supply.Renews → r.idx = 0 ∧ ∃ page, physMalloc s.phys ONE_PAGE = .ok (page, r.phys) ∧
        page ≠ 0 ∧ r.cur = KERNEL_VADDR + page) := by
  unfold ready at h
  split at h
  · next hrenews =>
    have hdirect := renew_direct h (hpage hrenews)
    have hidx := renew_idx h
    refine ⟨hdirect, by rw [hidx]; decide, fun hnot => absurd hrenews hnot, fun _ => ⟨hidx, ?_⟩⟩
    obtain ⟨⟨page, phys⟩, hmalloc, hrest⟩ := seq_ok.mp h
    obtain ⟨_, hassert, hr⟩ := seq_ok.mp hrest
    have hne : page ≠ 0 := by
      rintro rfl
      cases hassert
    obtain rfl := Except.ok.inj hr
    have hle := (hpage hrenews page phys hmalloc hne).2
    refine ⟨page, hmalloc, hne, ?_⟩
    show (page + KERNEL_VADDR) % WORD = _
    rw [Nat.mod_eq_of_lt (by lia), Nat.add_comm]
  · -- no new block: `cur` and `idx` stay
    next hnot =>
    obtain rfl := Except.ok.inj h
    have hne : s.cur ≠ 0 := fun hzero => hnot (.inl hzero)
    refine ⟨hcur.resolve_left hne, ?_, fun _ => ⟨rfl, rfl⟩, fun hrenews => absurd hrenews hnot⟩
    exact Nat.lt_of_not_le fun hle => hnot (.inr hle)

theorem placed_of_run (hcur : s.cur = 0 ∨ DirectBlock s.cur)
    (hpage : s.supply.Renews → ∀ page phys, physMalloc s.phys ONE_PAGE = .ok (page, phys) →
      page ≠ 0 → DirectPage page)
    (hrun : newPageTable physMalloc s = .ok (u, s₁)) (hblank : Blank s₁.mem u) :
    Placed physMalloc s u s₁ := by
  have hrenew : s.supply.Renews → ∀ r, renew physMalloc s.phys = .ok r → DirectBlock r.cur :=
    fun hrenews r hr => renew_direct hr (hpage hrenews)
  obtain ⟨r, hready, rfl, hsupplied⟩ := newPageTable_inv hcur hrenew hrun
  obtain ⟨hblock, hidx, hold, hnew⟩ := ready_cases hcur hpage hready
  have hsupply := hsupplied.supply
  have hcur₁ : s₁.cur = r.cur := congrArg Supply.cur hsupply
  have hphys₁ : s₁.phys = r.phys := congrArg Supply.phys hsupply
  have htake : (take r).1 = r.cur + TABLE_SIZE * (r.idx + 1) := by
    have hlt := hblock.offset_lt (TABLE_SIZE * (r.idx + 1)) (by lia)
    show (r.cur + TABLE_SIZE * ((r.idx + 1) % WORD)) % WORD = _
    rw [Nat.mod_eq_of_lt (by lia : r.idx + 1 < WORD), Nat.mod_eq_of_lt hlt]
  have hidx₁ : s₁.supply.idx = r.idx + 2 := by
    rw [hsupply]
    show ((r.idx + 1) % WORD + 1) % WORD = _
    lia
  -- the table behind the others has `idx` for its first entry
  have hlast : r.idx + 1 < DIRS := by
    refine Nat.lt_of_le_of_ne hidx fun heq => ?_
    have hzero : load s₁.mem (r.cur + OFF_IDX) 8 = 0 := by
      apply load_zeros
      intro x hlo hhi
      apply hblank x
      · rw [htake, heq]
        lia
      · rw [htake, heq]
        lia
    rw [supply_idx s₁ (hcur₁ ▸ hblock.ne_zero), hcur₁, hzero] at hidx₁
    omega
  refine ⟨hcur₁ ▸ hblock, ⟨r.idx + 1, hlast, hcur₁ ▸ htake⟩, ?_, hsupply ▸ hsupplied, ?_, ?_⟩
  · -- the run is the one that `advance` computes
    unfold advance
    rw [hready, ok_seq, hsupply]
  · -- without a new block the allocator was not asked
    intro hnot
    obtain ⟨rfl, hsame⟩ := hold hnot
    exact ⟨hcur₁, hphys₁⟩
  · -- with one, its first pages are those that `phys_malloc` gave
    intro hrenews
    obtain ⟨hzero, page, hmalloc, hne, hpage⟩ := hnew hrenews
    refine ⟨?_, page, hphys₁ ▸ hmalloc, hne, hcur₁.trans hpage⟩
    rintro (hcurzero | hfull)
    · exact absurd hcurzero (hsupply ▸ hblock.ne_zero)
    · rw [hidx₁, hzero] at hfull
      exact absurd hfull (by decide)

/-- The block in use has no room for the call after this one. -/
theorem Placed.full (h : Placed physMalloc s u s₁) (hnot : ¬ s.supply.Renews)
    (hrenews : s₁.supply.Renews) : DIRS ≤ s.supply.idx + 2 := by
  obtain ⟨r, hready, -, htake⟩ := advance_ok h.advance
  rw [ready, if_neg hnot] at hready
  obtain rfl := Except.ok.inj hready
  have hroom : s.supply.idx < DIRS := Nat.lt_of_not_le fun hle => hnot (.inr hle)
  have hidx : s₁.supply.idx = s.supply.idx + 2 := by
    rw [htake]
    show ((s.supply.idx + 1) % WORD + 1) % WORD = _
    lia
  rcases hrenews with hzero | hfull
  · exact absurd hzero h.block.ne_zero
  · rwa [hidx] at hfull

theorem DirectBlock.table {b k : Nat} (h : DirectBlock b) (hk : k ≤ DIRS) :
    DirectTable (b + TABLE_SIZE * k) := by
  obtain ⟨page, rfl, ⟨n, rfl⟩, hle⟩ := h
  exact ⟨PAGE_SIZE * n + TABLE_SIZE * k, Nat.add_assoc _ _ _, ⟨512 * n + k, by lia⟩, by lia⟩

theorem Placed.direct (h : Placed physMalloc s u s₁) : DirectTable u := by
  obtain ⟨k, hk, rfl⟩ := h.table
  exact h.block.table (Nat.le_of_lt hk)

/-- A call leaves the tables alone that have neither the fields of the block in use nor a part of a
new block. -/
theorem Supplied.same {r : Supply σ} (h : Supplied s r s₁) (htree : PageTree s.mem pt)
    (hcur : s.cur = 0 ∨ DirectBlock s.cur) (hfields : ¬ Reached s.mem pt (s.cur + OFF_IDX))
    (hnew : s.supply.Renews → ∀ t, Reached s.mem pt t →
      t + TABLE_SIZE ≤ r.cur ∨ r.cur + PAGE_SIZE ≤ t) : SameEntries s.mem s₁.mem pt := by
  intro t i ht
  have hi := i.isLt
  have hdirect := htree.direct t ht
  apply load_congr
  intro x hlo hhi
  apply h.frame
  unfold entryAddr at hlo hhi
  rintro (⟨hne, hin⟩ | ⟨hrenews, hblock⟩)
  · -- the fields are at the start of what would be the block's last table
    have hblock := hcur.resolve_left hne
    have hlast : DirectTable (s.cur + OFF_IDX) := hblock.table (Nat.le_refl DIRS)
    have happart := hdirect.apart hlast fun heq => hfields (heq ▸ ht)
    obtain ⟨hlo', hhi'⟩ := hin
    change s.cur + OFF_IDX ≤ x at hlo'
    change x < s.cur + OFF_IDX + 24 at hhi'
    lia
  · have hout := hnew hrenews t ht
    lia

/-! ## One level -/

/-- A call of `new_page_table` that suits the tree. -/
structure Handout (physMalloc : σ → BitVec 64 → Except Fault (Nat × σ)) (s : VirtMem σ)
    (pt u : Nat) (s₁ : VirtMem σ) : Prop where
  run : newPageTable physMalloc s = .ok (u, s₁)
  same : SameEntries s.mem s₁.mem pt
  direct : DirectTable u
  unreached : ¬ Reached s.mem pt u
  blank : Blank s₁.mem u

/-- The flags of a link. -/
abbrev LINK_FLAGS : Nat := PAGE_PRESENT_FLAG ||| PAGE_WRITE_FLAG

/-- The state with the new table linked. -/
def linkTable (s : VirtMem σ) (t i u : Nat) : VirtMem σ :=
  { s with mem := store s.mem (entryAddr t i) 8 ((u - KERNEL_VADDR) ||| LINK_FLAGS) }

theorem DirectTable.ne_zero (h : DirectTable t) : t ≠ 0 := by
  obtain ⟨phys, rfl, -⟩ := h
  lia

theorem level_present (physMalloc : σ → BitVec 64 → Except Fault (Nat × σ))
    (h : PageTree s.mem pt) (hq : q.length < 2) (ht : follow (links s.mem) pt q = some t)
    (hpresent : entry s.mem t i &&& PAGE_PRESENT_FLAG ≠ 0) :
    ∃ u, virtGetNextMapLevel physMalloc s t i LINK_FLAGS = .ok (u, s) ∧
      follow (links s.mem) pt (q ++ [i]) = some u := by
  have hpath : follow (links s.mem) pt (q ++ [i]) = some (tableOf (entry s.mem t i)) := by
    rw [follow_snoc, ht, Option.bind_some, links_eq_some hpresent]
  have hdirect := h.direct _ ⟨q ++ [i], by rw [List.length_append]; exact hq, hpath⟩
  obtain ⟨flags, hflags, -, heq⟩ := h.upper q t i hq ht hpresent
  refine ⟨_, ?_, hpath⟩
  obtain ⟨phys, hphys, hdvd, hlt⟩ := hdirect
  have hne := (h.direct t ⟨q, Nat.le_of_lt hq, ht⟩).ne_zero
  rw [hphys, Nat.add_sub_cancel_left] at heq
  rw [virtGetNextMapLevel, if_neg hne, if_pos hpresent, hphys, heq, nextLevel_link hdvd hlt hflags]

theorem level_absent (h : PageTree s.mem pt) (hq : q.length < 2)
    (ht : follow (links s.mem) pt q = some t) (habsent : entry s.mem t i &&& PAGE_PRESENT_FLAG = 0)
    (hnew : Handout physMalloc s pt u s₁) :
    virtGetNextMapLevel physMalloc s t i LINK_FLAGS = .ok (u, linkTable s₁ t i u) ∧
      Linked s.mem (linkTable s₁ t i u).mem pt t i u LINK_FLAGS := by
  have hreached : Reached s.mem pt t := ⟨q, Nat.le_of_lt hq, ht⟩
  have hdirect := h.direct t hreached
  obtain ⟨phys, hphys, hdvd, hlt⟩ := hnew.direct
  have hentry : (u + (WORD - KERNEL_VADDR)) % WORD = u - KERNEL_VADDR := by lia
  constructor
  · rw [virtGetNextMapLevel, if_neg hdirect.ne_zero, if_neg (not_not.mpr habsent), hnew.run, ok_seq]
    dsimp only
    rw [hentry]
    rfl
  · exact .of_store LINK_FLAGS h hreached habsent hnew.same hnew.direct hnew.unreached hnew.blank
      (by decide) (by decide) (by decide)

/-! ## The next two tables

A mapping takes at most two tables, and links the first before it asks for the second. The link is
written into the tree, so it concerns neither the fields of a block nor the second table, and the
second call is the one it would have been without it. What both calls write for themselves is apart
from the tree by assumption, and `Apart` asks for a page only if one of them starts a block.
-/

/-- The tables that `new_page_table` returns next: two of them, blank when they are returned, and
none of the tree. -/
structure Spare (physMalloc : σ → BitVec 64 → Except Fault (Nat × σ)) (s : VirtMem σ) (pt : Nat)
    (t₁ : Nat) (s₁ : VirtMem σ) (t₂ : Nat) (s₂ : VirtMem σ) : Prop where
  first : newPageTable physMalloc s = .ok (t₁, s₁)
  second : newPageTable physMalloc s₁ = .ok (t₂, s₂)
  distinct : t₁ ≠ t₂
  blank₁ : Blank s₁.mem t₁
  blank₂ : Blank s₂.mem t₂
  unreached₁ : ¬ Reached s.mem pt t₁
  unreached₂ : ¬ Reached s.mem pt t₂

/-- What `n` calls of `new_page_table` write for themselves is apart from the tree: the block in use
has no table of the tree where its fields are, and if a block is started, the page that `phys_malloc`
returns for it is a page of the direct map with no table of the tree in it, and not that of the block
in use. -/
structure Apart (physMalloc : σ → BitVec 64 → Except Fault (Nat × σ)) (s : VirtMem σ) (pt n : Nat) :
    Prop where
  cur : s.cur = 0 ∨ DirectBlock s.cur
  fields : ¬ Reached s.mem pt (s.cur + OFF_IDX)
  page : StartsBlock s.supply n →
    ∀ page phys, physMalloc s.phys ONE_PAGE = .ok (page, phys) → page ≠ 0 →
      DirectPage page ∧ KERNEL_VADDR + page ≠ s.cur ∧
        ∀ t, Reached s.mem pt t →
          t + TABLE_SIZE ≤ KERNEL_VADDR + page ∨ KERNEL_VADDR + page + PAGE_SIZE ≤ t

section
variable {t₁ t₂ n : Nat} (htree : PageTree s.mem pt) (hapart : Apart physMalloc s pt n)
  (hspare : Spare physMalloc s pt t₁ s₁ t₂ s₂)

section
variable (hn : 0 < n)
include hapart hspare hn

theorem first_placed : Placed physMalloc s t₁ s₁ :=
  placed_of_run hapart.cur
    (fun hrenews page phys hrun hne => (hapart.page (.inl ⟨hn, hrenews⟩) page phys hrun hne).1)
    hspare.first hspare.blank₁

/-- A new block has no table of the tree in it. -/
theorem first_new (hrenews : s.supply.Renews) {t : Nat} (ht : Reached s.mem pt t) :
    t + TABLE_SIZE ≤ s₁.cur ∨ s₁.cur + PAGE_SIZE ≤ t := by
  obtain ⟨-, page, hmalloc, hne, hcur⟩ := (first_placed hapart hspare hn).new hrenews
  rw [hcur]
  exact (hapart.page (.inl ⟨hn, hrenews⟩) page _ hmalloc hne).2.2 t ht

/-- No block that is in use has a table of the tree where its fields are. -/
theorem first_fields : ¬ Reached s.mem pt (s₁.cur + OFF_IDX) := by
  intro hreached
  by_cases hrenews : s.supply.Renews
  · have hout := first_new hapart hspare hn hrenews hreached
    lia
  · rw [((first_placed hapart hspare hn).old hrenews).1] at hreached
    exact hapart.fields hreached

include htree

theorem first_handout : Handout physMalloc s pt t₁ s₁ where
  run := hspare.first
  same := (first_placed hapart hspare hn).supplied.same htree hapart.cur hapart.fields
    fun hrenews _ ht => first_new hapart hspare hn hrenews ht
  direct := (first_placed hapart hspare hn).direct
  unreached := hspare.unreached₁
  blank := hspare.blank₁

end

variable (hn : 1 < n)
include hapart hspare hn

/-- A second block comes from the page that the first one would have come from. -/
theorem second_page {page : Nat} {phys : σ} (hrenews : s₁.supply.Renews)
    (hrun : physMalloc s₁.phys ONE_PAGE = .ok (page, phys)) (hne : page ≠ 0) :
    s₁.cur = s.cur ∧ DirectPage page ∧ KERNEL_VADDR + page ≠ s.cur ∧
      ∀ t, Reached s.mem pt t →
        t + TABLE_SIZE ≤ KERNEL_VADDR + page ∨ KERNEL_VADDR + page + PAGE_SIZE ≤ t := by
  have hplaced := first_placed hapart hspare (Nat.lt_of_succ_lt hn)
  have hnot : ¬ s.supply.Renews := fun h => (hplaced.new h).1 hrenews
  obtain ⟨hcur, hphys⟩ := hplaced.old hnot
  rw [hphys] at hrun
  exact ⟨hcur, hapart.page (.inr ⟨hn, hplaced.full hnot hrenews⟩) page phys hrun hne⟩

theorem second_placed : Placed physMalloc s₁ t₂ s₂ :=
  placed_of_run (.inr (first_placed hapart hspare (Nat.lt_of_succ_lt hn)).block)
    (fun hrenews _ _ hrun hne => (second_page hapart hspare hn hrenews hrun hne).2.1)
    hspare.second hspare.blank₂

include htree

/-- The entry that links the first table lies outside of the fields of the block. -/
theorem link_supply (i : Fin 512) : (linkTable s₁ pt i t₁).supply = s₁.supply := by
  have hblock := (first_placed hapart hspare (Nat.lt_of_succ_lt hn)).block
  have hi := i.isLt
  have hroot : DirectTable pt := htree.direct pt (root_reached _ _)
  have hlast : DirectTable (s₁.cur + OFF_IDX) := hblock.table (Nat.le_refl DIRS)
  have happart := hroot.apart hlast fun heq =>
    first_fields hapart hspare (Nat.lt_of_succ_lt hn) (heq ▸ root_reached s.mem pt)
  have hload : load (linkTable s₁ pt i t₁).mem (s₁.cur + OFF_IDX) 8 =
      load s₁.mem (s₁.cur + OFF_IDX) 8 := by
    apply load_store_disjoint
    unfold entryAddr
    lia
  have hcur : (linkTable s₁ pt i t₁).cur = s₁.cur := rfl
  have hidx := supply_idx s₁ hblock.ne_zero
  exact supply_eq hcur hblock.ne_zero (hload.trans hidx.symm) rfl

/-- The second table is blank when it is returned, although the link has been written before. -/
theorem link_blank {s' : VirtMem σ} (h : Supplied (linkTable s₁ pt i t₁) s₂.supply s') :
    Blank s'.mem t₂ := by
  have hplaced := second_placed hapart hspare hn
  have hsupply := link_supply htree hapart hspare hn i
  obtain ⟨k, hk, htable⟩ := hplaced.table
  intro x hlo hhi
  by_cases hrenews : s₁.supply.Renews
  · -- the table is in a block that has just been cleared
    have hlo' : s₂.cur ≤ x := Nat.le_trans (by rw [htable]; exact Nat.le_add_right _ _) hlo
    have hhi' : x < s₂.cur + OFF_IDX := by lia
    rw [← hsupply] at hrenews
    exact h.clear hrenews x hlo' hhi'
  · -- neither the link nor the call has written anything in the table
    have hcur := (hplaced.old hrenews).1
    have hout : ¬ Footprint s₁.supply s₂.supply x := by
      -- `cur` keeps its books behind `t₂`, and no new block was filled
      rintro (⟨-, hin⟩ | ⟨h, -⟩)
      · have hlo' : s₁.cur + OFF_IDX ≤ x := hin.1
        lia
      · exact hrenews h
    have hi := i.isLt
    -- the link went into `pt`, which is not `t₂`
    have hroot : DirectTable pt := htree.direct pt (root_reached _ _)
    have happart := hroot.apart hplaced.direct fun heq =>
      hspare.unreached₂ (heq ▸ root_reached s.mem pt)
    have hstore : (linkTable s₁ pt i t₁).mem x = s₁.mem x := by
      apply store_outside
      unfold entryAddr
      lia
    have hframe := h.frame x
    rw [hsupply] at hframe
    rw [hframe hout, hstore, ← hplaced.supplied.frame x hout]
    exact hspare.blank₂ x hlo hhi

variable {i : Fin 512} {flags : Nat}
  (hl : Linked s.mem (linkTable s₁ pt i t₁).mem pt pt i t₁ flags)
include hl

theorem link_fields : ¬ Reached (linkTable s₁ pt i t₁).mem pt (s₁.cur + OFF_IDX) := by
  intro hreached
  rcases hl.eq_or_reached (q := []) htree Nat.two_pos follow_nil hreached with heq | hold
  · obtain ⟨k, hk, htable⟩ := (first_placed hapart hspare (Nat.lt_of_succ_lt hn)).table
    lia
  · exact first_fields hapart hspare (Nat.lt_of_succ_lt hn) hold

theorem link_new (hrenews : s₁.supply.Renews) (ht : Reached (linkTable s₁ pt i t₁).mem pt t) :
    t + TABLE_SIZE ≤ s₂.cur ∨ s₂.cur + PAGE_SIZE ≤ t := by
  obtain ⟨-, page, hmalloc, hne, hcur⟩ := (second_placed hapart hspare hn).new hrenews
  obtain ⟨hcur₁, -, hother, houtside⟩ := second_page hapart hspare hn hrenews hmalloc hne
  rcases hl.eq_or_reached (q := []) htree Nat.two_pos follow_nil ht with rfl | hold
  · -- the first table is in the old block
    obtain ⟨k, hk, htable⟩ := (first_placed hapart hspare (Nat.lt_of_succ_lt hn)).table
    have hblocks := (first_placed hapart hspare (Nat.lt_of_succ_lt hn)).block.apart (second_placed hapart hspare hn).block
      (by rw [hcur, hcur₁]; exact hother.symm)
    lia
  · rw [hcur]
    exact houtside t hold

/-- When the first table has been linked, the second one is handed out as it would have been without
that. -/
theorem second_handout : ∃ s', Handout physMalloc (linkTable s₁ pt i t₁) pt t₂ s' := by
  have hplaced₁ := first_placed hapart hspare (Nat.lt_of_succ_lt hn)
  have hplaced₂ := second_placed hapart hspare hn
  have hsupply := link_supply htree hapart hspare hn i
  have hcur : (linkTable s₁ pt i t₁).cur = 0 ∨ DirectBlock (linkTable s₁ pt i t₁).cur :=
    .inr hplaced₁.block
  have hadvance := hplaced₂.advance
  rw [← hsupply] at hadvance
  obtain ⟨s', hrun, hsupplied⟩ := newPageTable_spec hcur hadvance fun _ => hplaced₂.block
  have hlinked : PageTree (linkTable s₁ pt i t₁).mem pt :=
    htree.linked (q := []) hl Nat.two_pos follow_nil
  refine ⟨s', hrun, hsupplied.same hlinked hcur (link_fields htree hapart hspare hn hl) ?_,
    hplaced₂.direct, ?_, link_blank htree hapart hspare hn hsupplied⟩
  · intro hrenews t ht
    rw [hsupply] at hrenews
    exact link_new htree hapart hspare hn hl hrenews ht
  · intro hreached
    rcases hl.eq_or_reached (q := []) htree Nat.two_pos follow_nil hreached with heq | hold
    · exact hspare.distinct heq.symm
    · exact hspare.unreached₂ hold

end

/-! ## Mapping a page

Three cases: both tables are missing, the second is, or none is. Each level that is made links a
blank table, which changes no walk, so after both levels the walks are those of before, and there is
a table for the page.
-/

/-- How many tables are missing on the way to a page: both, or the one that the p3 entry should link,
or none. -/
def tablesNeeded (m : Memory) (pt v : Nat) : Nat :=
  if links m pt (indexAt v 39) = none then 2
  else if follow (links m) pt (pathOf v) = none then 1
  else 0

/-- Both levels of links, which exist or are made. -/
theorem levels_spec {t₁ t₂ : Nat} (htree : PageTree s.mem pt)
    (hspare : Spare physMalloc s pt t₁ s₁ t₂ s₂) (virt : Nat) {i j : Fin 512}
    (hi : i = indexAt virt 39) (hj : j = indexAt virt 30)
    (hapart : 0 < tablesNeeded s.mem pt virt → Apart physMalloc s pt (tablesNeeded s.mem pt virt)) :
    ∃ p3 s₃ p2 s₄, virtGetNextMapLevel physMalloc s pt i LINK_FLAGS = .ok (p3, s₃) ∧
      virtGetNextMapLevel physMalloc s₃ p3 j LINK_FLAGS = .ok (p2, s₄) ∧ PageTree s₄.mem pt ∧
      follow (links s₄.mem) pt [i, j] = some p2 ∧ ∀ v, walk s₄.mem pt v = walk s.mem pt v := by
  have hzero : ([] : List (Fin 512)).length < 2 := Nat.two_pos
  have hone : [i].length < 2 := Nat.one_lt_two
  have htwo : [i, j].length ≤ 2 := Nat.le_refl 2
  have hroot : follow (links s.mem) pt [] = some pt := follow_nil
  have hsecond : follow (links s.mem) pt [i, j] =
      (follow (links s.mem) pt [i]).bind fun t => links s.mem t j := follow_snoc [i] j
  by_cases h4 : entry s.mem pt i &&& PAGE_PRESENT_FLAG = 0
  · -- the first table is new, so there is nothing in it yet
    have hthird : follow (links s.mem) pt [i] = none :=
      (follow_snoc [] i).trans (links_eq_none h4)
    have htables : tablesNeeded s.mem pt virt = 2 := if_pos (hi ▸ links_eq_none h4)
    rw [htables] at hapart
    have hapart := hapart Nat.two_pos
    have hfirst := first_handout htree hapart hspare Nat.two_pos
    obtain ⟨hlevel, hl⟩ := level_absent htree hzero hroot h4 hfirst
    have hpath := (hl.paths htree hzero hroot (Nat.le_of_lt hone)).1 rfl
    have htree₃ := htree.linked hl hzero hroot
    obtain ⟨s', hnext⟩ := second_handout htree hapart hspare Nat.one_lt_two hl
    have habsent : entry (linkTable s₁ pt i t₁).mem t₁ j &&& PAGE_PRESENT_FLAG = 0 := by
      rw [hl.blank, Nat.zero_and]
    obtain ⟨hlevel', hl'⟩ := level_absent htree₃ hone hpath habsent hnext
    have hpath' := (hl'.paths htree₃ hone hpath htwo).1 rfl
    refine ⟨_, _, _, _, hlevel, hlevel', htree₃.linked hl' hone hpath, hpath', fun v => ?_⟩
    rw [htree₃.linked_walk hl' hone hpath, htree.linked_walk hl hzero hroot]
  · -- the first link is there, and the second may be missing
    obtain ⟨p3, hlevel, hpath⟩ := level_present physMalloc htree hzero hroot h4
    by_cases h3 : entry s.mem p3 j &&& PAGE_PRESENT_FLAG = 0
    · have hthird : follow (links s.mem) pt [i] = some p3 := hpath
      have hmissing : follow (links s.mem) pt (pathOf virt) = none := by
        rw [pathOf, ← hi, ← hj, hsecond, hthird, Option.bind_some, links_eq_none h3]
      have htables : tablesNeeded s.mem pt virt = 1 := by
        rw [tablesNeeded, ← hi, links_eq_some h4, if_neg (Option.some_ne_none _), if_pos hmissing]
      rw [htables] at hapart
      have hapart := hapart Nat.one_pos
      have hfirst := first_handout htree hapart hspare Nat.one_pos
      -- one table is made, and it is linked into `p3`
      obtain ⟨hlevel', hl⟩ := level_absent htree hone hpath h3 hfirst
      have hpath' := (hl.paths htree hone hpath htwo).1 rfl
      exact ⟨_, _, _, _, hlevel, hlevel', htree.linked hl hone hpath, hpath',
        htree.linked_walk hl hone hpath⟩
    · -- nothing is missing, and no table is made
      obtain ⟨p2, hlevel', hpath'⟩ := level_present physMalloc htree hone hpath h3
      exact ⟨_, _, _, _, hlevel, hlevel', htree, hpath', fun _ => rfl⟩

/-- `virt_map_page` replaces one entry of a table of pages. -/
theorem virtMapPage_spec (phys virt flags : Nat) {t₁ t₂ : Nat} (htree : PageTree s.mem pt)
    (hspare : Spare physMalloc s pt t₁ s₁ t₂ s₂)
    (hapart : 0 < tablesNeeded s.mem pt (pageAlign virt) →
      Apart physMalloc s pt (tablesNeeded s.mem pt (pageAlign virt)))
    (hlt : pageAlign phys ||| flags < WORD)
    (hpage : (pageAlign phys ||| flags) &&& PAGE_PRESENT_FLAG ≠ 0 →
      (pageAlign phys ||| flags) &&& PAGE_SIZE_2MB ≠ 0) :
    ∃ s', virtMapPage physMalloc s pt phys virt flags = .ok (pageAlign virt, s') ∧
      PageTree s'.mem pt ∧ ∀ v, walk s'.mem pt v =
        if pathOf v = pathOf (pageAlign virt) ∧ indexAt v 21 = indexAt (pageAlign virt) 21 then
          pageEntry (pageAlign phys ||| flags) v
        else walk s.mem pt v := by
  obtain ⟨p3, s₃, p2, s₄, hlevel, hlevel', htree₄, hpath, hwalk⟩ :=
    levels_spec htree hspare (pageAlign virt) rfl rfl hapart
  have htwo : (pathOf (pageAlign virt)).length = 2 := rfl
  let i := indexAt (pageAlign virt) 21
  let m := store s₄.mem (entryAddr p2 i) 8 (pageAlign phys ||| flags)
  have hentry : entry m p2 i = pageAlign phys ||| flags := entry_store hlt
  have hreplaced : Replaced s₄.mem m pt p2 i :=
    .of_store htree₄ ⟨_, Nat.le_of_eq htwo, hpath⟩ hlt hpage
  refine ⟨{ s₄ with mem := m }, ?_, htree₄.replaced hreplaced htwo hpath, fun v => ?_⟩
  · -- the run: two levels and a store, the indices being written as masks in the code
    change virtGetNextMapLevel physMalloc s pt ((pageAlign virt >>> 39) &&& PAGEINDEXMASK)
      (PAGE_PRESENT_FLAG ||| PAGE_WRITE_FLAG) = _ at hlevel
    change virtGetNextMapLevel physMalloc s₃ p3 ((pageAlign virt >>> 30) &&& PAGEINDEXMASK)
      (PAGE_PRESENT_FLAG ||| PAGE_WRITE_FLAG) = _ at hlevel'
    unfold virtMapPage
    dsimp only
    rw [hlevel, ok_seq]
    dsimp only
    rw [hlevel', ok_seq]
    rfl
  · -- the walks: the levels changed none, and the store those of one page
    rw [htree₄.replaced_walk hreplaced htwo hpath, hentry, hwalk]

/-! ## Pages

A walk looks at three indices, and two canonical addresses with the same three are in the same page.
The bits above the 47th repeat the highest of these, which is why it holds for canonical addresses
only.
-/

/-- The indices of an address are those of its page's number. -/
theorem indexAt_val (v shift : Nat) :
    (indexAt v (21 + shift)).val = v / PAGE_SIZE / 2 ^ shift % 512 := by
  show (v >>> (21 + shift)) &&& PAGEINDEXMASK = _
  rw [Nat.shiftRight_eq_div_pow, Nat.pow_add, ← Nat.div_div_eq_div_mul]
  exact Nat.and_two_pow_sub_one_eq_mod _ 9

/-- The numbers of canonical pages, from their three indices. -/
theorem page_of_indices {x y : Nat} (hx : x < 2 ^ 26 ∨ 2 ^ 43 - 2 ^ 26 ≤ x ∧ x < 2 ^ 43)
    (hy : y < 2 ^ 26 ∨ 2 ^ 43 - 2 ^ 26 ≤ y ∧ y < 2 ^ 43)
    (h18 : x / 2 ^ 18 % 512 = y / 2 ^ 18 % 512) (h9 : x / 2 ^ 9 % 512 = y / 2 ^ 9 % 512)
    (h0 : x / 2 ^ 0 % 512 = y / 2 ^ 0 % 512) : x = y := by
  have hmod : x % 2 ^ 27 = y % 2 ^ 27 := by omega
  omega

theorem Canonical.page {v : Nat} (h : Canonical v) :
    v / PAGE_SIZE < 2 ^ 26 ∨ 2 ^ 43 - 2 ^ 26 ≤ v / PAGE_SIZE ∧ v / PAGE_SIZE < 2 ^ 43 := by
  unfold Canonical at h
  lia

theorem Canonical.lt {v : Nat} (h : Canonical v) : v < WORD := by
  unfold Canonical at h
  lia

/-- Canonical addresses with the same three indices lie in the same page. -/
theorem samePage_iff {v w : Nat} (hv : Canonical v) (hw : Canonical w) :
    (pathOf v = pathOf (pageAlign w) ∧ indexAt v 21 = indexAt (pageAlign w) 21) ↔
      pageAlign v = pageAlign w := by
  have halign : pageAlign w / PAGE_SIZE = w / PAGE_SIZE := by
    rw [pageAlign_eq hw.lt, Nat.mul_div_cancel _ (by decide)]
  have hindex (shift : Nat) : indexAt v (21 + shift) = indexAt (pageAlign w) (21 + shift) ↔
      v / PAGE_SIZE / 2 ^ shift % 512 = w / PAGE_SIZE / 2 ^ shift % 512 := by
    rw [Fin.ext_iff, indexAt_val, indexAt_val, halign]
  have hpages : pageAlign v = pageAlign w ↔ v / PAGE_SIZE = w / PAGE_SIZE := by
    rw [pageAlign_eq hv.lt, pageAlign_eq hw.lt, Nat.mul_left_inj (by decide)]
  rw [hpages, pathOf, pathOf, List.cons.injEq, List.cons.injEq]
  constructor
  · rintro ⟨⟨h39, h30, -⟩, h21⟩
    exact page_of_indices hv.page hw.page ((hindex 18).mp h39) ((hindex 9).mp h30)
      ((hindex 0).mp h21)
  · intro h
    exact ⟨⟨(hindex 18).mpr (by rw [h]), (hindex 9).mpr (by rw [h]), rfl⟩,
      (hindex 0).mpr (by rw [h])⟩

/-- The entry of a page with flags. -/
theorem page_link {phys flags : Nat} (hphys : phys < 2 ^ 52) (hflags : flags < 512) :
    pageAlign phys ||| flags = phys / PAGE_SIZE * PAGE_SIZE + flags := by
  rw [pageAlign_eq (by lia)]
  exact or_aligned (k := 21) (Nat.mul_mod_left _ _) (by omega)

theorem page_flags {phys flags mask : Nat} (hphys : phys < 2 ^ 52) (hmask : mask < PAGE_SIZE) :
    (pageAlign phys ||| flags) &&& mask = flags &&& mask := by
  rw [pageAlign_eq (by lia)]
  exact or_and_aligned (k := 21) (Nat.mul_mod_left _ _) hmask

theorem pageEntry_page {phys flags v : Nat} (hphys : phys < 2 ^ 52)
    (hpresent : flags &&& PAGE_PRESENT_FLAG ≠ 0) (hflags : flags < 512) :
    pageEntry (pageAlign phys ||| flags) v = some (pageAlign phys + v % PAGE_SIZE) := by
  have hmask (x : Nat) : x &&& 0x000FFFFFFFE00000 = x % 2 ^ 52 / 2 ^ 21 * 2 ^ 21 :=
    and_mask (by decide : 21 ≤ 52) _
  have hkept : (phys / PAGE_SIZE * PAGE_SIZE + flags) % 2 ^ 52 / 2 ^ 21 * 2 ^ 21 =
      phys / PAGE_SIZE * PAGE_SIZE := by
    have hsize : PAGE_SIZE = 2097152 := rfl
    rw [hsize]
    omega
  have hpage : (pageAlign phys ||| flags) &&& 0x000FFFFFFFE00000 = pageAlign phys := by
    rw [page_link hphys hflags, hmask, hkept, pageAlign_eq (by lia)]
  rw [pageEntry, page_flags hphys (by decide), if_neg hpresent, hpage]

/-! ## Mapping as an update

The two calls are one routine with different entries. What is left to show is what the entry makes
of the walks of its page. The rest is a machine on which the conditions hold: nothing is mapped, and
there is one free page.
-/

/-- `virt_map_page` and `virt_unmap_page` update the translation of one page and keep the tree, as
long as what `new_page_table` writes for itself is apart from it, if a table is needed. -/
theorem mapping_updates {t₁ t₂ phys virt flags : Nat} (htree : PageTree s.mem pt)
    (hspare : Spare physMalloc s pt t₁ s₁ t₂ s₂) (hphys : phys < 2 ^ 52) (hvirt : Canonical virt)
    (hapart : 0 < tablesNeeded s.mem pt virt →
      Apart physMalloc s pt (tablesNeeded s.mem pt virt))
    (hflags : flags = PAGE_DEFAULT ∨ flags = PAGE_USER_DEFAULT) :
    (∃ s', virtMapPage physMalloc s pt phys virt flags = .ok (pageAlign virt, s') ∧
      PageTree s'.mem pt ∧ ∀ v, Canonical v → walk s'.mem pt v =
        if pageAlign v = pageAlign virt then some (pageAlign phys + v % PAGE_SIZE)
        else walk s.mem pt v) ∧
    (∃ s', virtUnmapPage physMalloc s pt virt = .ok s' ∧
      PageTree s'.mem pt ∧ ∀ v, Canonical v → walk s'.mem pt v =
        if pageAlign v = pageAlign virt then none else walk s.mem pt v) := by
  have hneeded : tablesNeeded s.mem pt virt = tablesNeeded s.mem pt (pageAlign virt) := by
    have hpath := ((samePage_iff hvirt hvirt).mpr rfl).1
    rw [tablesNeeded, tablesNeeded, hpath, (List.cons.inj hpath).1]
  rw [hneeded] at hapart
  constructor
  · -- mapping: the flags are those of a present 2 MiB page
    have hsmall : flags < 512 := by rcases hflags with rfl | rfl <;> decide
    have hpresent : flags &&& PAGE_PRESENT_FLAG ≠ 0 := by rcases hflags with rfl | rfl <;> decide
    have hlarge : flags &&& PAGE_SIZE_2MB ≠ 0 := by rcases hflags with rfl | rfl <;> decide
    have hlt : pageAlign phys ||| flags < WORD := by
      rw [page_link hphys hsmall]
      lia
    obtain ⟨s', hrun, htree', hwalk⟩ := virtMapPage_spec phys virt flags htree hspare hapart hlt
      fun _ => by rw [page_flags hphys (by decide)]; exact hlarge
    refine ⟨s', hrun, htree', fun v hv => ?_⟩
    rw [hwalk, pageEntry_page hphys hpresent hsmall]
    exact if_congr (samePage_iff hv hvirt) rfl rfl
  · -- unmapping maps the page to nothing: the entry 0
    have hzero : pageAlign 0 ||| 0 = 0 := rfl
    obtain ⟨s', hrun, htree', hwalk⟩ := virtMapPage_spec 0 virt 0 htree hspare hapart
      (by decide) fun hpresent => absurd rfl hpresent
    refine ⟨s', ?_, htree', fun v hv => ?_⟩
    · rw [virtUnmapPage, hrun, ok_seq]
    · have hnone : pageEntry (pageAlign 0 ||| 0) v = none := rfl
      rw [hwalk, hnone]
      exact if_congr (samePage_iff hv hvirt) rfl rfl

/-- A new block begins with two blank tables. -/
theorem renewed_tables {r : Supply σ} (hcur : s.cur = 0 ∨ DirectBlock s.cur)
    (hrenews : s.supply.Renews) (h : renew physMalloc s.phys = .ok r) (hblock : DirectBlock r.cur) :
    ∃ s₁ s₂, newPageTable physMalloc s = .ok (r.cur + TABLE_SIZE, s₁) ∧
      newPageTable physMalloc s₁ = .ok (r.cur + TABLE_SIZE * 3, s₂) ∧
      Blank s₁.mem (r.cur + TABLE_SIZE) ∧ Blank s₂.mem (r.cur + TABLE_SIZE * 3) := by
  have hidx := renew_idx h
  have hlt := hblock.offset_lt (TABLE_SIZE * 3) (by decide)
  have htake₁ : take r = (r.cur + TABLE_SIZE, ⟨r.cur, 2, r.phys⟩) := by
    unfold take
    rw [hidx]
    show ((r.cur + TABLE_SIZE * 1) % WORD, _) = _
    rw [Nat.mul_one, Nat.mod_eq_of_lt (by lia)]
    rfl
  have hadvance₁ : advance physMalloc s.supply = .ok (r.cur + TABLE_SIZE, ⟨r.cur, 2, r.phys⟩) := by
    rw [advance, ready, if_pos hrenews, show s.supply.phys = s.phys from rfl, h, ok_seq, htake₁]
  obtain ⟨s₁, hrun₁, hsupplied₁⟩ := newPageTable_spec hcur hadvance₁ fun _ => hblock
  have hsupply₁ := hsupplied₁.supply
  have hcur₁ : s₁.cur = r.cur := congrArg Supply.cur hsupply₁
  -- the first call leaves a block with room, so the second one goes on in it
  have hnot : ¬ s₁.supply.Renews := by
    rw [hsupply₁]
    rintro (hzero | hfull)
    · exact hblock.ne_zero hzero
    · exact absurd hfull (by decide : ¬ 2 ≥ DIRS)
  have hadvance₂ : advance physMalloc s₁.supply =
      .ok (r.cur + TABLE_SIZE * 3, ⟨r.cur, 4, r.phys⟩) := by
    rw [advance, ready, if_neg hnot, ok_seq, hsupply₁]
    show Except.ok ((r.cur + TABLE_SIZE * 3) % WORD, _) = _
    rw [Nat.mod_eq_of_lt hlt]
    rfl
  obtain ⟨s₂, hrun₂, hsupplied₂⟩ := newPageTable_spec (.inr (hcur₁ ▸ hblock)) hadvance₂
    fun hrenews => absurd hrenews hnot
  refine ⟨s₁, s₂, hrun₁, hrun₂, fun x hlo hhi => ?_, fun x hlo hhi => ?_⟩
  · -- the first table is in the block that was filled
    exact hsupplied₁.clear hrenews x (by dsimp only; lia) (by dsimp only; lia)
  · -- so is the second, and the books that the second call writes lie behind it
    have hout : ¬ Footprint s₁.supply ⟨r.cur, 4, r.phys⟩ x := by
      rintro (⟨-, hin⟩ | ⟨hrenews, -⟩)
      · have hlo' : s₁.cur + OFF_IDX ≤ x := hin.1
        lia
      · exact hnot hrenews
    rw [hsupplied₂.frame x hout]
    exact hsupplied₁.clear hrenews x (by dsimp only; lia) (by dsimp only; lia)

/-- A page allocator with one free page. -/
def onePage : Phys.Physmem := Phys.machine 1 Phys.one_word_fits [3]

theorem onePage_page {page : Nat} {phys : Phys.Physmem}
    (hrun : Phys.physMalloc onePage ONE_PAGE = .ok (page, phys)) : page = 3 * PAGE_SIZE := by
  have hcomp : (Phys.physMalloc onePage ONE_PAGE).toOption.map Prod.fst = some (3 * PAGE_SIZE) := by
    decide +kernel
  rw [hrun] at hcomp
  exact Option.some.inj hcomp

theorem onePage_renew :
    ∃ r, renew Phys.physMalloc onePage = .ok r ∧ r.cur = KERNEL_VADDR + 3 * PAGE_SIZE :=
  Outcome.returns (by decide +kernel)

theorem directBlock_third : DirectBlock (KERNEL_VADDR + 3 * PAGE_SIZE) :=
  ⟨3 * PAGE_SIZE, rfl, Nat.dvd_mul_left _ _, by decide⟩

/-- A block in the free page gives two tables that a tree outside of it does not have. -/
theorem spare_onePage (s : VirtMem Phys.Physmem) (pt : Nat) (hphys : s.phys = onePage)
    (hcur : s.cur = 0 ∨ DirectBlock s.cur) (hrenews : s.supply.Renews)
    (hout : ∀ t, Reached s.mem pt t → t < KERNEL_VADDR + 3 * PAGE_SIZE) :
    ∃ t₁ s₁ t₂ s₂, Spare Phys.physMalloc s pt t₁ s₁ t₂ s₂ := by
  obtain ⟨r, hrenew, hr⟩ := onePage_renew
  rw [← hphys] at hrenew
  obtain ⟨s₁, s₂, hrun₁, hrun₂, hblank₁, hblank₂⟩ :=
    renewed_tables hcur hrenews hrenew (hr ▸ directBlock_third)
  refine ⟨_, s₁, _, s₂, hrun₁, hrun₂, by lia, hblank₁, hblank₂, fun ht => ?_, fun ht => ?_⟩
  · have := hout _ ht
    lia
  · have := hout _ ht
    lia

/-- Where the first table is. -/
abbrev P4 : Nat := KERNEL_VADDR + 0x1000

theorem directTable_P4 : DirectTable P4 := ⟨0x1000, rfl, by decide, by decide⟩

/-- No page is mapped, and no block is in use. -/
def noTables : VirtMem Phys.Physmem := ⟨fun _ => 0, 0, onePage⟩

theorem reached_noTables {t : Nat} (ht : Reached noTables.mem P4 t) : t = P4 := by
  obtain ⟨p, -, hfollow⟩ := ht
  exact (follow_blank (fun _ _ _ => rfl) hfollow).2

theorem apart_noTables (n : Nat) : Apart Phys.physMalloc noTables P4 n where
  cur := .inl rfl
  fields := fun ht => absurd (reached_noTables ht) (by decide)
  page := by
    intro _ page phys hrun _
    rw [onePage_page hrun]
    refine ⟨⟨Nat.dvd_mul_left _ _, by decide⟩, by decide, fun t ht => ?_⟩
    rw [reached_noTables ht]
    decide

/-- Both tables are made on the way to the first page. -/
theorem mapping_updates_noTables :
    (∃ s', virtMapPage Phys.physMalloc noTables P4 (5 * PAGE_SIZE) 0 PAGE_DEFAULT = .ok (0, s') ∧
      PageTree s'.mem P4 ∧ ∀ v, Canonical v → walk s'.mem P4 v =
        if pageAlign v = 0 then some (5 * PAGE_SIZE + v % PAGE_SIZE)
        else walk noTables.mem P4 v) ∧
    (∃ s', virtUnmapPage Phys.physMalloc noTables P4 0 = .ok s' ∧
      PageTree s'.mem P4 ∧ ∀ v, Canonical v → walk s'.mem P4 v =
        if pageAlign v = 0 then none else walk noTables.mem P4 v) := by
  obtain ⟨t₁, s₁, t₂, s₂, hspare⟩ := spare_onePage noTables P4 rfl (.inl rfl)
    (.inl rfl) fun t ht => by rw [reached_noTables ht]; decide
  exact mapping_updates (.blank directTable_P4 fun _ _ _ => rfl) hspare (by decide)
    (.inl (by decide)) (fun _ => apart_noTables _) (.inl rfl)

/-! ## The last table of a block

A tree that has the last table of a block in it, as `new_page_table` may have handed it out. When
the next block is linked, its address is stored into an entry of that table.
-/

/-- The table after the first one. -/
abbrev P3 : Nat := KERNEL_VADDR + 0x2000

/-- The last table of the block in page 1, where its fields are. -/
abbrev P2 : Nat := KERNEL_VADDR + PAGE_SIZE + OFF_IDX

/-- The path to the last table of the block. -/
def twoLinks : Memory :=
  store (store (fun _ => 0) (entryAddr P4 0) 8 ((P3 - KERNEL_VADDR) ||| LINK_FLAGS))
    (entryAddr P3 0) 8 ((P2 - KERNEL_VADDR) ||| LINK_FLAGS)

/-- The index of a block that all tables have been taken from, and a page that is mapped by the
third entry of the last one. -/
def overlapped : VirtMem Phys.Physmem where
  mem := store (store twoLinks (entryAddr P2 0) 8 512) (entryAddr P2 2) 8
    (4 * PAGE_SIZE ||| PAGE_DEFAULT)
  cur := KERNEL_VADDR + PAGE_SIZE
  phys := onePage

theorem twoLinks_tree : PageTree twoLinks P4 ∧ follow (links twoLinks) P4 [0, 0] = some P2 ∧
    ∀ t, Reached twoLinks P4 t → t = P2 ∨ t = P3 ∨ t = P4 := by
  have hp3 : DirectTable P3 := ⟨0x2000, rfl, by decide, by decide⟩
  have hp2 : DirectTable P2 := ⟨PAGE_SIZE + OFF_IDX, rfl, by decide, by decide⟩
  have hzero : ([] : List (Fin 512)).length < 2 := Nat.two_pos
  have hone : [(0 : Fin 512)].length < 2 := Nat.one_lt_two
  have htwo : [(0 : Fin 512), 0].length ≤ 2 := Nat.le_refl 2
  have hblank (t : Nat) : Blank (fun _ => 0) t := fun _ _ _ => rfl
  have htree : PageTree (fun _ => 0) P4 := .blank directTable_P4 (hblank P4)
  have hroot : follow (links fun _ => 0) P4 [] = some P4 := follow_nil
  have honly {t : Nat} (ht : Reached (fun _ => 0) P4 t) : t = P4 := by
    obtain ⟨p, -, hfollow⟩ := ht
    exact (follow_blank (hblank P4) hfollow).2
  have hl := Linked.of_store (i := 0) LINK_FLAGS htree (root_reached _ _)
    (by rw [(hblank P4).entry_eq, Nat.zero_and]) (fun _ _ _ => rfl) hp3
    (fun ht => absurd (honly ht) (by decide)) (hblank P3) (by decide) (by decide) (by decide)
  have htree' := htree.linked hl hzero hroot
  have hpath := (hl.paths htree hzero hroot (Nat.le_of_lt hone)).1 rfl
  have honly' {t : Nat} (ht : Reached _ P4 t) :=
    (hl.eq_or_reached htree hzero hroot ht).imp id honly
  have hblank' : Blank (store (fun _ => 0) (entryAddr P4 0) 8 ((P3 - KERNEL_VADDR) ||| LINK_FLAGS))
      P2 := by
    intro x hlo _
    have hbelow : entryAddr P4 0 + 8 ≤ P2 := by decide
    exact store_outside (.inr (Nat.le_trans hbelow hlo))
  have hl' := Linked.of_store (i := 0) LINK_FLAGS htree' ⟨_, Nat.le_of_lt hone, hpath⟩
    (by rw [hl.blank, Nat.zero_and]) (fun _ _ _ => rfl) hp2
    (fun ht => by rcases honly' ht with h | h <;> exact absurd h (by decide)) hblank'
    (by decide) (by decide) (by decide)
  exact ⟨htree'.linked hl' hone hpath, (hl'.paths htree' hone hpath htwo).1 rfl,
    fun t ht => (hl'.eq_or_reached htree' hone hpath ht).imp id honly'⟩

theorem overlapped_tree : PageTree overlapped.mem P4 ∧
    ∀ t, Reached overlapped.mem P4 t → t = P2 ∨ t = P3 ∨ t = P4 := by
  obtain ⟨htree, hpath, hreached⟩ := twoLinks_tree
  have htwo : [(0 : Fin 512), 0].length = 2 := rfl
  have hr := Replaced.of_store (i := 0) (e := 512) htree ⟨_, Nat.le_of_eq htwo, hpath⟩ (by decide)
    fun h => absurd rfl h
  have htree' := htree.replaced hr htwo hpath
  have hpath' := (hr.follow_eq htree htwo hpath (Nat.le_of_eq htwo)).trans hpath
  have hr' := Replaced.of_store (i := 2) (e := 4 * PAGE_SIZE ||| PAGE_DEFAULT) htree'
    ⟨_, Nat.le_of_eq htwo, hpath'⟩ (by decide) fun _ => by decide
  exact ⟨htree'.replaced hr' htwo hpath', fun t ht => hreached t
    ((hr.reached_iff htree htwo hpath).mp ((hr'.reached_iff htree' htwo hpath').mp ht))⟩

/-- Mapping a page that needs a new block unmaps another one. -/
theorem mapping_not_update : PageTree overlapped.mem P4 ∧
    (∃ t₁ s₁ t₂ s₂, Spare Phys.physMalloc overlapped P4 t₁ s₁ t₂ s₂) ∧
    ∃ r, virtMapPage Phys.physMalloc overlapped P4 (512 * PAGE_SIZE) (512 * PAGE_SIZE) PAGE_DEFAULT
        = .ok r ∧
      walk overlapped.mem P4 (2 * PAGE_SIZE) = some (4 * PAGE_SIZE) ∧
      walk r.2.mem P4 (2 * PAGE_SIZE) = none := by
  have hblock : DirectBlock overlapped.cur := ⟨PAGE_SIZE, rfl, Nat.dvd_refl _, by decide⟩
  have hrenews : overlapped.supply.Renews := .inr (by decide +kernel)
  obtain ⟨htree, hreached⟩ := overlapped_tree
  refine ⟨htree, spare_onePage overlapped P4 rfl (.inr hblock) hrenews fun t ht => ?_,
    Outcome.returns (by decide +kernel)⟩
  rcases hreached t ht with rfl | rfl | rfl <;> decide

end Twos.Virt
