import Twos.Boot.HeapPages
import Twos.Virt.Rights

/-!
# Mapping from the boot tables on

What `kmain` finds in `cr3` are three tables, and everything that `virt_map_page` does starts from
there. Whether a call grants the rights it is asked for depends on the tables on its way, of which
the three from boot and those that earlier calls have made are different: neither has the user bit.

`HigherHalf.follow_cases` lists the paths of the boot tables, of which there are three, and so they are
a tree (`HigherHalf.pageTree`) with plain links. That is what the invariant of `Virt.Rights` starts
from (`Booted.built`), and `grantsRights_iff` is the result of that module at the boot tables.
-/

namespace Twos.Boot

open Lib Virt

variable {m m' : Memory} {t u e n : Nat}

/-! ## The tree of the higher half

The three boot tables, as a tree: one link in each of the upper two, and a table of pages below
them. Nothing else is reached, which is a matter of listing the paths of at most two links.
-/

variable {b : BootTables} {p : List (Fin 512)}

theorem tableOf_boot (ht : DirectTable t) : tableOf ((t - KERNEL_VADDR) ||| 0b11) = t := by
  obtain ⟨phys, rfl, hdvd, hphys⟩ := ht
  rw [Nat.add_sub_cancel_left, tableOf_link hdvd (by lia) (by decide)]

theorem present_boot (ht : DirectTable t) :
    ((t - KERNEL_VADDR) ||| 0b11) &&& PAGE_PRESENT_FLAG ≠ 0 := by
  obtain ⟨phys, rfl, hdvd, -⟩ := ht
  rw [Nat.add_sub_cancel_left, link_flags hdvd (by decide)]
  decide

theorem BootTables.Placed.mem (h : b.Placed) :
    DirectTable b.p4Table ∧ DirectTable b.p3Higher ∧ DirectTable b.p2Higher := by
  refine ⟨h.direct _ ?_, h.direct _ ?_, h.direct _ ?_⟩ <;> simp [BootTables.tables]

/-- A table with one link. -/
theorem links_single {i j : Fin 512} (hu : DirectTable u)
    (h : entry m t j = if j = i then (u - KERNEL_VADDR) ||| 0b11 else 0) :
    links m t j = if j = i then some u else none := by
  by_cases hij : j = i
  · rw [if_pos hij] at h ⊢
    rw [links_eq_some (h ▸ present_boot hu), h, tableOf_boot hu]
  · rw [if_neg hij] at h ⊢
    exact links_eq_none (by rw [h, Nat.zero_and])

/-- The three tables are all that is reached. -/
theorem HigherHalf.follow_cases (h : HigherHalf m b) (hb : b.Placed) (hp : p.length ≤ 2)
    (hfollow : follow (links m) b.p4Table p = some t) :
    (p = [] ∧ t = b.p4Table) ∨ (p = [511] ∧ t = b.p3Higher) ∨
      (p = [511, 510] ∧ t = b.p2Higher) := by
  obtain ⟨-, hp3, hp2⟩ := hb.mem
  have h4 (i : Fin 512) := links_single hp3 (h.p4 i)
  have h3 (i : Fin 512) := links_single hp2 (h.p3 i)
  match p, hp with
  | [], _ => exact .inl ⟨rfl, (Option.some.inj hfollow).symm⟩
  | [i], _ =>
      have hlink : links m b.p4Table i = some t := by
        rw [← hfollow, show [i] = [] ++ [i] from rfl, follow_snoc, follow_nil, Option.bind_some]
      grind
  | [i, j], _ =>
      have hlink : (links m b.p4Table i).bind (fun t => links m t j) = some t := by
        rw [← hfollow, show [i, j] = ([] ++ [i]) ++ [j] from rfl, follow_snoc, follow_snoc,
          follow_nil, Option.bind_some]
      grind

/-- In the two upper levels, what is present is a table with the flags of a link. -/
theorem HigherHalf.link_entry (h : HigherHalf m b) (hb : b.Placed) {i : Fin 512} (hp : p.length < 2)
    (hfollow : follow (links m) b.p4Table p = some t)
    (hpresent : entry m t i &&& PAGE_PRESENT_FLAG ≠ 0) :
    entry m t i = (tableOf (entry m t i) - KERNEL_VADDR) ||| LINK_FLAGS := by
  obtain ⟨-, hp3, hp2⟩ := hb.mem
  show _ = _ ||| 0b11
  rcases h.follow_cases hb (Nat.le_of_lt hp) hfollow with ⟨-, rfl⟩ | ⟨-, rfl⟩ | ⟨rfl, -⟩
  · rw [h.p4] at hpresent ⊢
    split at hpresent
    · next hi => rw [if_pos hi, tableOf_boot hp3]
    · exact absurd (Nat.zero_and _) hpresent
  · rw [h.p3] at hpresent ⊢
    split at hpresent
    · next hi => rw [if_pos hi, tableOf_boot hp2]
    · exact absurd (Nat.zero_and _) hpresent
  · exact absurd hp (Nat.lt_irrefl 2)

theorem HigherHalf.pageTree (h : HigherHalf m b) (hb : b.Placed) : PageTree m b.p4Table where
  unshared p q t hp hq hfollow hfollow' := by
    have hdistinct := hb.distinct
    simp only [BootTables.tables, List.nodup_cons, List.mem_cons, List.not_mem_nil, or_false,
      not_or] at hdistinct
    have hcases := h.follow_cases hb hp hfollow
    have hcases' := h.follow_cases hb hq hfollow'
    grind
  direct t ht := by
    obtain ⟨p, hp, hfollow⟩ := ht
    obtain ⟨hp4, hp3, hp2⟩ := hb.mem
    rcases h.follow_cases hb hp hfollow with ⟨-, rfl⟩ | ⟨-, rfl⟩ | ⟨-, rfl⟩
    · exact hp4
    · exact hp3
    · exact hp2
  upper p t i hp hfollow hpresent :=
    ⟨LINK_FLAGS, by decide, by decide, h.link_entry hb hp hfollow hpresent⟩
  lower p t i hp hfollow _ := by
    rcases h.follow_cases hb (Nat.le_of_eq hp) hfollow with ⟨rfl, -⟩ | ⟨rfl, -⟩ | ⟨-, rfl⟩
    · cases hp
    · cases hp
    · have halign : PAGE_SIZE * i % 2 ^ 32 % 2 ^ 21 = 0 := by lia
      rw [h.p2, hiMapP2, or_and_aligned halign (by decide)]
      decide

/-! ## Rights from then on

The boot tables have plain links, so the invariant of `Virt.Rights` holds of them with no tables
made yet. All that a run needs beyond that is a free page of the direct map, and only if it makes a
table.
-/

variable {s s' : VirtMem Phys.Physmem} {virt phys flags a : Nat} {calls : List MapCall}
  {r : Mapping Phys.Physmem}

/-- When the kernel maps its first page: the tables are those of the boot code, the pages that they
lie in are in use, and no block of tables has been taken. -/
structure Booted (s : VirtMem Phys.Physmem) (b : BootTables) : Prop where
  placed : b.Placed
  tables : HigherHalf s.mem b
  cur : s.cur = 0
  used : ∀ t ∈ b.tables, bitAt s.phys.pmm ((t - KERNEL_VADDR) / PAGE_SIZE) = true

/-- Tables in the first 16 pages, where the kernel is loaded, are in use after `physmem_init`. -/
theorem booted_init {map : List Phys.MmapEntry} {mem : Phys.Physmem} (hb : b.Placed)
    (hblank : ∀ t ∈ b.tables, Blank m t) (hlow : ∀ t ∈ b.tables, t < KERNEL_VADDR + 16 * PAGE_SIZE)
    (hinit : Phys.physmemInit map = .ok mem) : Booted ⟨setupPaging b m, 0, mem⟩ b where
  placed := hb
  tables := setupPaging_higherHalf hb hblank
  cur := rfl
  used t ht := by
    have := hlow t ht
    exact Phys.physmemInit_reserved hinit (by lia)

/-- There is a free page in the direct map. -/
def DirectRoom (mem : Phys.Physmem) : Prop :=
  ∃ p, p < KERNEL_VADDR_SIZE / PAGE_SIZE ∧ p < Phys.WORD_BITS * mem.mmEnd ∧ bitAt mem.pmm p = false

/-- Then the block of the first tables is taken from there, and it is none of the boot tables. -/
theorem Booted.untouched (h : Booted s b) :
    Untouched Phys.physMalloc (DirectRoom s.phys) s b.p4Table where
  cur := h.cur
  page hroom page phys hrun _ := by
    obtain ⟨p, hp, hin, hfree⟩ := hroom
    obtain ⟨start, mem, hmalloc, hfit, hle⟩ := Phys.lowest_free hfree hin
    obtain ⟨rfl, -⟩ := Prod.mk.inj (Except.ok.inj (hrun.symm.trans hmalloc))
    have hfree : bitAt s.phys.pmm start = false := hfit.free 0 Nat.one_pos
    refine ⟨⟨Nat.dvd_mul_left _ _, by lia⟩, fun t ht => ?_⟩
    obtain ⟨q, hq, hfollow⟩ := ht
    have hmem : t ∈ b.tables := by
      rcases h.tables.follow_cases h.placed hq hfollow with ⟨-, rfl⟩ | ⟨-, rfl⟩ | ⟨-, rfl⟩
      all_goals simp [BootTables.tables]
    have hused := h.used t hmem
    have hpage : (t - KERNEL_VADDR) / PAGE_SIZE ≠ start := by
      intro heq
      rw [heq, hfree] at hused
      cases hused
    obtain ⟨phys, rfl, ⟨k, rfl⟩, -⟩ := h.placed.direct t hmem
    rw [Nat.add_sub_cancel_left] at hpage
    lia

theorem Booted.built (h : Booted s b) :
    Built Phys.physMalloc (DirectRoom s.phys) s b.p4Table 0 where
  tree := h.tables.pageTree h.placed
  plain _ _ _ hp hfollow hpresent := h.tables.link_entry h.placed hp hfollow hpresent
  supply := .inl ⟨rfl, h.untouched⟩

/-- A page gets the rights that it is mapped with, and no other page loses or gains any, exactly if
it is mapped for the kernel: no table above it lets the user in, and none ever will. A free page in the
direct map is asked for only if a table is made. -/
theorem grantsRights_iff (hboot : Booted s b)
    (hrun : Run (MapStep Phys.physMalloc b.p4Table) ⟨s, 0⟩ calls r) (hvirt : Canonical virt)
    (hflags : flags = PAGE_DEFAULT ∨ flags = PAGE_USER_DEFAULT)
    (hroom : 0 < r.made + tablesNeeded r.vm.mem b.p4Table (pageAlign virt) → DirectRoom s.phys)
    (hfew : r.made + tablesNeeded r.vm.mem b.p4Table (pageAlign virt) < 256)
    (hmap : virtMapPage Phys.physMalloc r.vm b.p4Table phys virt flags = .ok (a, s')) :
    GrantsRights r.vm.mem s'.mem b.p4Table virt flags ↔ flags = PAGE_DEFAULT := by
  have hbuilt := built_of_run hboot.built hrun (fun hmade => hroom (Nat.add_pos_left hmade _))
    (Nat.lt_of_le_of_lt (Nat.le_add_right _ _) hfew)
  exact hbuilt.grants_iff hvirt hflags (fun hnew => hroom (Nat.add_pos_right _ hnew)) hfew hmap

/-- In the higher half no table is missing. -/
theorem HigherHalf.maps (h : HigherHalf s.mem b) (hb : b.Placed) (virt phys flags : Nat)
    (h4 : indexAt (pageAlign virt) 39 = 511) (h3 : indexAt (pageAlign virt) 30 = 510) :
    tablesNeeded s.mem b.p4Table (pageAlign virt) = 0 ∧
      ∃ a s', virtMapPage Phys.physMalloc s b.p4Table phys virt flags = .ok (a, s') := by
  obtain ⟨-, hp3, hp2⟩ := hb.mem
  have htree := h.pageTree hb
  have hlink4 := links_single hp3 (h.p4 511)
  have hlink3 := links_single hp2 (h.p3 510)
  rw [if_pos rfl] at hlink4 hlink3
  have hthird : follow (links s.mem) b.p4Table [511] = some b.p3Higher := by
    rw [show ([511] : List (Fin 512)) = [] ++ [511] from rfl, follow_snoc, follow_nil,
      Option.bind_some, hlink4]
  have hsecond : follow (links s.mem) b.p4Table [511, 510] = some b.p2Higher := by
    rw [show ([511, 510] : List (Fin 512)) = [511] ++ [510] from rfl, follow_snoc, hthird,
      Option.bind_some, hlink3]
  have hpresent4 : entry s.mem b.p4Table (511 : Fin 512) &&& PAGE_PRESENT_FLAG ≠ 0 := by
    rw [h.p4, if_pos rfl]
    exact present_boot hp3
  have hpresent3 : entry s.mem b.p3Higher (510 : Fin 512) &&& PAGE_PRESENT_FLAG ≠ 0 := by
    rw [h.p3, if_pos rfl]
    exact present_boot hp2
  -- both links are present, so neither level makes a table
  obtain ⟨t₁, hlevel₁, hpath₁⟩ :=
    level_present Phys.physMalloc (q := []) htree Nat.two_pos follow_nil hpresent4
  obtain rfl : b.p3Higher = t₁ := Option.some.inj (hthird.symm.trans hpath₁)
  obtain ⟨t₂, hlevel₂, -⟩ :=
    level_present Phys.physMalloc (q := [511]) htree Nat.one_lt_two hthird hpresent3
  -- no table is needed, and the call returns
  constructor
  · rw [tablesNeeded, pathOf, h4, h3, if_neg (by rw [hlink4]; exact Option.some_ne_none _),
      if_neg (by rw [hsecond]; exact Option.some_ne_none _)]
  · have hthird : virtGetNextMapLevel Phys.physMalloc s b.p4Table
        (indexAt (pageAlign virt) 39) LINK_FLAGS = .ok (b.p3Higher, s) := by rw [h4, hlevel₁]
    have hsecond : virtGetNextMapLevel Phys.physMalloc s b.p3Higher
        (indexAt (pageAlign virt) 30) LINK_FLAGS = .ok (t₂, s) := by rw [h3, hlevel₂]
    exact ⟨_, _, seq_ok.mpr ⟨_, hthird, seq_ok.mpr ⟨_, hsecond, rfl⟩⟩⟩

/-- A machine with one free page, number 16, before its first page is mapped. -/
def kernelStart : VirtMem Phys.Physmem :=
  ⟨setupPaging kernelTables fun _ => 0, 0, Phys.machine 1 Phys.one_word_fits [16]⟩

theorem kernelStart_booted : Booted kernelStart kernelTables where
  placed := kernelTables_placed
  tables := setupPaging_higherHalf kernelTables_placed fun _ _ _ _ _ => rfl
  cur := rfl
  used := by decide +kernel

theorem kernelStart_room : DirectRoom kernelStart.phys :=
  ⟨16, by decide, by decide, by decide +kernel⟩

/-- The page behind the kernel, which has a table at boot. -/
abbrev behindKernel : Nat := KERNEL_VADDR + 16 * PAGE_SIZE

theorem behindKernel_canonical : Canonical behindKernel := .inr ⟨by decide, by decide⟩

theorem grantsRights_iff_behindKernel :
    ∃ a s', virtMapPage Phys.physMalloc kernelStart kernelTables.p4Table 0 behindKernel
        PAGE_DEFAULT = .ok (a, s') ∧
      GrantsRights kernelStart.mem s'.mem kernelTables.p4Table behindKernel PAGE_DEFAULT := by
  obtain ⟨hnone, a, s', hmap⟩ := kernelStart_booted.tables.maps kernelTables_placed
    behindKernel 0 PAGE_DEFAULT (by decide) (by decide)
  exact ⟨a, s', hmap, (grantsRights_iff kernelStart_booted .nil behindKernel_canonical (.inl rfl)
    (fun _ => kernelStart_room) (by rw [hnone]; decide) hmap).mpr rfl⟩

/-- A page that is mapped for the user is not for the user. -/
theorem user_not_granted :
    ∃ a s', Booted kernelStart kernelTables ∧ DirectRoom kernelStart.phys ∧
      virtMapPage Phys.physMalloc kernelStart kernelTables.p4Table 0 behindKernel
        PAGE_USER_DEFAULT = .ok (a, s') ∧
      ¬ GrantsRights kernelStart.mem s'.mem kernelTables.p4Table behindKernel
        PAGE_USER_DEFAULT := by
  obtain ⟨hnone, a, s', hmap⟩ := kernelStart_booted.tables.maps kernelTables_placed
    behindKernel 0 PAGE_USER_DEFAULT (by decide) (by decide)
  have hiff := kernelStart_booted.built.grants_iff behindKernel_canonical (.inr rfl)
    (fun _ => kernelStart_room) (by rw [hnone]; decide) hmap
  refine ⟨a, s', kernelStart_booted, kernelStart_room, hmap, fun hgrants => ?_⟩
  exact absurd (hiff.mp hgrants) (by decide)

end Twos.Boot
