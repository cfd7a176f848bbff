import Twos.Boot.Paging

/-!
# Blocks of tables in the direct map

`alloc_pt_block` takes the page that `phys_malloc` gives it to be at `KERNEL_VADDR`, where the boot
tables map the first GiB and nothing else. The bitmap has bits for 64. So what a block needs is that
the lowest free page lies in the first GiB, and everything that was allocated and freed before has a
part in that.

`inWindow_of_page` is the one half: a block in a page of the first GiB is mapped, cleared, and its
tables can be linked and followed again. `below_iff` is the other: the page that `phys_malloc` gives
is below the border exactly when a page below it is free. `inWindow_iff` carries both over every run,
by induction on the run in one direction and by an invariant in the other.
-/

namespace Twos.Boot

open Lib Virt
open Phys (MmapEntry Physmem physmemInit pagesSize)

variable {m : Memory} {b : BootTables} {x page : Nat} {s s' : VirtMem Physmem}

/-! ## The direct map -/

/-- The indices of the addresses there. -/
theorem indices_direct (hx : x < KERNEL_VADDR_SIZE) :
    pathOf (KERNEL_VADDR + x) = [511, 510] ∧ (indexAt (KERNEL_VADDR + x) 21).val = x / PAGE_SIZE := by
  have hpage : (KERNEL_VADDR + x) / PAGE_SIZE = 8796093021184 + x / PAGE_SIZE := by lia
  have hsmall : x / PAGE_SIZE < 512 := by lia
  have h39 := indexAt_val (KERNEL_VADDR + x) 18
  have h30 := indexAt_val (KERNEL_VADDR + x) 9
  have h21 := indexAt_val (KERNEL_VADDR + x) 0
  rw [hpage] at h39 h30 h21
  generalize x / PAGE_SIZE = q at h39 h30 h21 hsmall ⊢
  constructor
  · rw [pathOf, show indexAt (KERNEL_VADDR + x) 39 = 511 from Fin.ext (h39.trans (by omega)),
      show indexAt (KERNEL_VADDR + x) 30 = 510 from Fin.ext (h30.trans (by omega))]
  · exact h21.trans (by omega)

theorem hiMapP2_page (hx : x < KERNEL_VADDR_SIZE) :
    hiMapP2 (x / PAGE_SIZE) = pageAlign x ||| 0b10000011 := by
  rw [hiMapP2, pageAlign_eq (by lia), Nat.mod_eq_of_lt (by lia), Nat.mul_comm]

/-- The boot tables map the first GiB at `KERNEL_VADDR`. -/
theorem HigherHalf.walk_eq (h : HigherHalf m b) (hb : b.Placed) (hx : x < KERNEL_VADDR_SIZE) :
    walk m b.p4Table (KERNEL_VADDR + x) = some x := by
  obtain ⟨-, hp3, hp2⟩ := hb.mem
  have hlink4 := links_single hp3 (h.p4 511)
  have hlink3 := links_single hp2 (h.p3 510)
  rw [if_pos rfl] at hlink4 hlink3
  obtain ⟨hpath, hindex⟩ := indices_direct hx
  have hfollow : follow (links m) b.p4Table [511, 510] = some b.p2Higher := by
    rw [show ([511, 510] : List (Fin 512)) = ([] ++ [511]) ++ [510] from rfl, follow_snoc,
      follow_snoc, follow_nil, Option.bind_some, hlink4, Option.bind_some, hlink3]
  have hoffset : (KERNEL_VADDR + x) % PAGE_SIZE = x % PAGE_SIZE := by lia
  have halign : pageAlign x = x / PAGE_SIZE * PAGE_SIZE := pageAlign_eq (by lia)
  rw [(h.pageTree hb).walk_eq, hpath, hfollow, Option.bind_some, h.p2, hindex, hiMapP2_page hx,
    pageEntry_page (by lia) (by decide) (by decide), halign, hoffset, Nat.div_add_mod']

/-! ## Blocks

A block is used at the address of the direct map, whatever its page. The boot tables map the first
GiB there, so a block is where it is taken to be if its page is below 1 GiB.
-/

/-- A block of tables as `alloc_pt_block` makes it. -/
structure PtBlock where
  before : Memory
  page : Nat
  after : Memory

/-- The block is where the code takes it to be: all of it below 1 GiB, where adding `KERNEL_VADDR`
does not wrap and leads to it; nothing else has been cleared; and an entry with a table of the block
is read back as that table. -/
structure InWindow (b : PtBlock) : Prop where
  below : b.page + PAGE_SIZE ≤ KERNEL_VADDR_SIZE
  noWrap : KERNEL_VADDR + b.page + PAGE_SIZE ≤ WORD
  mapped : ∀ (m : Memory) (tables : BootTables), tables.Placed → HigherHalf m tables →
    ∀ x, b.page ≤ x → x < b.page + PAGE_SIZE → walk m tables.p4Table (KERNEL_VADDR + x) = some x
  cleared : b.after = fill b.before (KERNEL_VADDR + b.page) PAGE_SIZE 0
  decodes : ∀ (s s' : VirtMem Physmem) (t i k flags : Nat), k < DIRS → flags < 512 →
    flags &&& PAGE_PRESENT_FLAG ≠ 0 → entry s.mem t i &&& PAGE_PRESENT_FLAG = 0 →
    virtGetNextMapLevel Phys.physMalloc s t i flags =
      .ok (KERNEL_VADDR + b.page + TABLE_SIZE * k, s') →
    virtGetNextMapLevel Phys.physMalloc s' t i flags =
      .ok (KERNEL_VADDR + b.page + TABLE_SIZE * k, s')

/-- An entry that has been stored for a table of the direct map is read back as that table. -/
theorem nextLevel_again {t i phys flags : Nat} (hphys : TABLE_SIZE ∣ phys)
    (hlt : phys + TABLE_SIZE ≤ KERNEL_VADDR_SIZE) (hflags : flags < 512)
    (hpresent : flags &&& PAGE_PRESENT_FLAG ≠ 0) (habsent : entry s.mem t i &&& PAGE_PRESENT_FLAG = 0)
    (hrun : virtGetNextMapLevel Phys.physMalloc s t i flags = .ok (KERNEL_VADDR + phys, s')) :
    virtGetNextMapLevel Phys.physMalloc s' t i flags = .ok (KERNEL_VADDR + phys, s') := by
  unfold virtGetNextMapLevel at hrun
  split at hrun
  · cases hrun
  · next ht =>
    rw [if_neg (not_not.mpr habsent)] at hrun
    obtain ⟨⟨npt, s₁⟩, -, hlast⟩ := seq_ok.mp hrun
    obtain ⟨rfl, rfl⟩ := Prod.mk.inj (Except.ok.inj hlast)
    have hcancel : (KERNEL_VADDR + phys + (WORD - KERNEL_VADDR)) % WORD = phys := by lia
    have hword : phys ||| flags < WORD := by
      rw [link_eq hphys hflags]
      lia
    rw [hcancel, virtGetNextMapLevel, if_neg ht, entry_store hword, link_flags hphys (by decide),
      if_pos hpresent, nextLevel_link hphys hlt hflags]

/-- A page of the direct map makes a good block. -/
theorem inWindow_of_page (hrun : allocPtBlock Phys.physMalloc s = .ok (page, s'))
    (hpage : DirectPage page) : InWindow ⟨s.mem, page, s'.mem⟩ where
  below := hpage.2
  noWrap := by
    have := hpage.2
    lia
  mapped m tables hplaced htables x hlo hhi := by
    have := hpage.2
    exact htables.walk_eq hplaced (by lia)
  cleared := by
    have hlt : KERNEL_VADDR + page < WORD := by
      have := hpage.2
      lia
    rw [allocPtBlock_eq] at hrun
    obtain ⟨⟨page', phys⟩, -, hrest⟩ := seq_ok.mp hrun
    obtain ⟨⟨⟩, -, hlast⟩ := seq_ok.mp hrest
    obtain ⟨rfl, rfl⟩ := Prod.mk.inj (Except.ok.inj hlast)
    dsimp only
    rw [Nat.mod_eq_of_lt hlt]
  decodes s s' t i k flags hk hflags hpresent habsent hcall := by
    have hend := hpage.2
    have hdvd : TABLE_SIZE ∣ page + TABLE_SIZE * k :=
      Nat.dvd_add (Nat.dvd_trans (by decide) hpage.1) (Nat.dvd_mul_right _ _)
    rw [Nat.add_assoc] at hcall ⊢
    exact nextLevel_again hdvd (by lia) hflags hpresent habsent hcall

/-- `alloc_pt_block` gets a page, and one of the direct map exactly if one is free there. -/
theorem below_iff (hrun : allocPtBlock Phys.physMalloc s = .ok (page, s')) :
    PAGE_SIZE ∣ page ∧ (page + PAGE_SIZE ≤ KERNEL_VADDR_SIZE ↔ DirectRoom s.phys) := by
  rw [allocPtBlock_eq] at hrun
  obtain ⟨⟨page', phys⟩, hmalloc, hrest⟩ := seq_ok.mp hrun
  obtain ⟨⟨⟩, hassert, hlast⟩ := seq_ok.mp hrest
  obtain ⟨rfl, -⟩ := Prod.mk.inj (Except.ok.inj hlast)
  have hscan : Phys.ScanUnbroken s.phys (Phys.numPages ONE_PAGE) :=
    numPages_onePage ▸ Phys.scanUnbroken_one s.phys
  rcases Phys.physMalloc_spec hscan with ⟨start, mem, hfound, hfit⟩ | ⟨hnone, -⟩
  · obtain ⟨rfl, -⟩ := Prod.mk.inj (Except.ok.inj (hmalloc.symm.trans hfound))
    rw [numPages_onePage] at hfit
    refine ⟨Nat.dvd_mul_left _ _, fun hend => ?_, ?_⟩
    · have hle := hfit.le
      exact ⟨start, by lia, by omega, hfit.free 0 Nat.one_pos⟩
    · rintro ⟨p, hp, -, hfree⟩
      by_contra hbeyond
      -- the free page below is a fit
      refine hfit.first p (by lia) fun i hi => ?_
      obtain rfl : i = 0 := by omega
      exact hfree
  · obtain ⟨rfl, -⟩ := Prod.mk.inj (Except.ok.inj (hmalloc.symm.trans hnone))
    unfold assert at hassert
    cases hassert

/-! ## Runs

Requests, frees and blocks in any order. `phys_malloc` gives the lowest free page, so the block of a
call is in the window if there was room at the time, and all blocks are if there was room each time.
-/

/-- The allocator and the tables, and the blocks that were made. -/
structure PtSession where
  vm : VirtMem Physmem
  blocks : List PtBlock

inductive PtCall where
  | malloc (size : BitVec 64)
  | free (addr : Nat) (size : BitVec 64)
  | ptBlock

/-- One call, of anyone with anything. There is no step out of a call that faults, such as an
`alloc_pt_block` that gets no page. -/
def ptStep (s : PtSession) : PtCall → Option PtSession
  | .malloc size =>
      match Phys.physMalloc s.vm.phys size with
      | .ok (_, phys) => some { s with vm := { s.vm with phys } }
      | .error _ => none
  | .free addr size =>
      match Phys.physFree s.vm.phys addr size with
      | .ok phys => some { s with vm := { s.vm with phys } }
      | .error _ => none
  | .ptBlock =>
      match allocPtBlock Phys.physMalloc s.vm with
      | .ok (page, vm) => some ⟨vm, ⟨s.vm.mem, page, vm.mem⟩ :: s.blocks⟩
      | .error _ => none

/-- A block is only asked for while the direct map has room. -/
def HasRoom (s : PtSession) : PtCall → Prop
  | .ptBlock => DirectRoom s.vm.phys
  | _ => True

/-- A run of calls after `physmem_init`. -/
def RunFrom (step : PtSession → PtCall → PtSession → Prop) (map : List MmapEntry) (m : Memory)
    (calls : List PtCall) (s : PtSession) : Prop :=
  ∃ mem, physmemInit map = .ok mem ∧ Run step ⟨⟨m, 0, mem⟩, []⟩ calls s

/-- The blocks after a call: those before it, and the one that it made. -/
theorem ptStep_cases {s t : PtSession} {call : PtCall} (h : ptStep s call = some t) :
    (call ≠ .ptBlock ∧ t.blocks = s.blocks) ∨
      (call = .ptBlock ∧ ∃ page, allocPtBlock Phys.physMalloc s.vm = .ok (page, t.vm) ∧
        t.blocks = ⟨s.vm.mem, page, t.vm.mem⟩ :: s.blocks) := by
  cases call with
  | malloc size =>
      simp only [ptStep] at h
      split at h
      · obtain rfl := Option.some.inj h
        exact .inl ⟨PtCall.noConfusion, rfl⟩
      · cases h
  | free addr size =>
      simp only [ptStep] at h
      split at h
      · obtain rfl := Option.some.inj h
        exact .inl ⟨PtCall.noConfusion, rfl⟩
      · cases h
  | ptBlock =>
      simp only [ptStep] at h
      split at h
      · next page vm halloc =>
        obtain rfl := Option.some.inj h
        exact .inr ⟨rfl, page, halloc, rfl⟩
      · cases h

/-- The blocks of a run are all in the direct map exactly if each was asked for while there was room
in it. -/
theorem inWindow_iff {map : List MmapEntry} {calls : List PtCall} {s : PtSession}
    (hrun : RunFrom (StepOf ptStep) map m calls s) :
    (∀ b ∈ s.blocks, InWindow b) ↔ RunFrom (Lib.Checked HasRoom (StepOf ptStep)) map m calls s := by
  obtain ⟨mem, hinit, hrun⟩ := hrun
  constructor
  · intro hall
    refine ⟨mem, hinit, ?_⟩
    induction hrun with
    | nil => exact .nil
    | snoc hrun hstep ih =>
        -- another call leaves the blocks as they are
        rcases ptStep_cases hstep with ⟨hcall, hsame⟩ | ⟨rfl, page, halloc, hnew⟩
        · refine (ih (hsame ▸ hall)).snoc ⟨?_, hstep⟩
          unfold HasRoom
          split
          · exact absurd rfl hcall
          · trivial
        · -- a new block: it is in the window, so the call had room
          rw [hnew] at hall
          have hblock := hall _ List.mem_cons_self
          exact (ih fun b hb => hall b (List.mem_cons_of_mem _ hb)).snoc
            ⟨(below_iff halloc).2.mp hblock.below, hstep⟩
  · rintro ⟨mem', -, hchecked⟩
    clear hrun
    refine hchecked.invariant (fun s => ∀ b ∈ s.blocks, InWindow b)
      (fun b hb => absurd hb List.not_mem_nil) ?_
    intro s call t hgood hstep b hb
    rcases ptStep_cases hstep.2 with ⟨-, hsame⟩ | ⟨rfl, page, halloc, hnew⟩
    · -- the blocks are the old ones
      exact hgood b (hsame ▸ hb)
    · -- the new block is in a page below the border
      rw [hnew] at hb
      rcases List.mem_cons.mp hb with rfl | hold
      · obtain ⟨hdvd, hbelow⟩ := below_iff halloc
        exact inWindow_of_page halloc ⟨hdvd, hbelow.mpr hstep.1⟩
      · exact hgood b hold

/-- The addresses of the blocks of a run, computed. -/
def blockPages (map : List MmapEntry) (calls : List PtCall) : Option (List Nat) := do
  let mem ← (physmemInit map).toOption
  let s ← calls.foldlM ptStep ⟨⟨fun _ => 0, 0, mem⟩, []⟩
  some (s.blocks.map PtBlock.page)

theorem runFrom_of_blockPages (map : List MmapEntry) (calls : List PtCall) (pages : List Nat)
    (h : blockPages map calls = some pages) :
    ∃ s, RunFrom (StepOf ptStep) map (fun _ => 0) calls s ∧ s.blocks.map PtBlock.page = pages := by
  obtain ⟨mem, hinit, hrest⟩ := Option.bind_eq_some_iff.mp h
  obtain ⟨s, hcalls, hpages⟩ := Option.bind_eq_some_iff.mp hrest
  refine ⟨s, ⟨mem, ?_, run_of_foldlM hcalls⟩, Option.some.inj hpages⟩
  cases hphys : physmemInit map with
  | error e =>
      rw [hphys] at hinit
      cases hinit
  | ok mem' =>
      rw [hphys] at hinit
      rw [Option.some.inj hinit]

/-- A block in the page that was freed, and one behind those still in use. -/
theorem inWindow_iff_usual :
    ∃ s, RunFrom (StepOf ptStep) Phys.usualMap (fun _ => 0)
        [.malloc (pagesSize 1), .malloc (pagesSize 2), .free (16 * PAGE_SIZE) (pagesSize 1),
          .ptBlock, .ptBlock] s ∧
      s.blocks.map PtBlock.page = [19 * PAGE_SIZE, 16 * PAGE_SIZE] ∧
      ((∀ b ∈ s.blocks, InWindow b) ↔ RunFrom (Lib.Checked HasRoom (StepOf ptStep)) Phys.usualMap
        (fun _ => 0) [.malloc (pagesSize 1), .malloc (pagesSize 2),
          .free (16 * PAGE_SIZE) (pagesSize 1), .ptBlock, .ptBlock] s) := by
  obtain ⟨s, hrun, hpages⟩ := runFrom_of_blockPages Phys.usualMap
    [.malloc (pagesSize 1), .malloc (pagesSize 2), .free (16 * PAGE_SIZE) (pagesSize 1),
      .ptBlock, .ptBlock] [19 * PAGE_SIZE, 16 * PAGE_SIZE] (by decide +kernel)
  exact ⟨s, hrun, hpages, inWindow_iff hrun⟩

/-- The first gigabyte is available, and 64 pages more. -/
def beyondGigabyte : List MmapEntry :=
  [⟨0, 576 * PAGE_SIZE, Phys.MULTIBOOT_MEMORY_AVAILABLE⟩]

/-- With all of the direct map in use, the next block lies right behind it. -/
theorem block_beyond_window :
    ∃ s, RunFrom (StepOf ptStep) beyondGigabyte (fun _ => 0)
        [.malloc (pagesSize 496), .ptBlock] s ∧
      ¬ ∀ b ∈ s.blocks, InWindow b := by
  obtain ⟨s, hrun, hpages⟩ := runFrom_of_blockPages beyondGigabyte
    [.malloc (pagesSize 496), .ptBlock] [512 * PAGE_SIZE] (by decide +kernel)
  refine ⟨s, hrun, fun hall => ?_⟩
  obtain ⟨b, hb, hpage⟩ := List.mem_map.mp (hpages ▸ List.mem_singleton_self (512 * PAGE_SIZE))
  have hbelow := (hall b hb).below
  rw [hpage] at hbelow
  exact absurd hbelow (by decide)

end Twos.Boot
