import Twos.Boot.Tables
import Twos.Heap.Model
import Twos.Phys.Order
import Twos.Phys.Recover
import Twos.Virt.Supply

/-!
# The pages of the heap

The heap lives at a fixed address of the higher half, which the boot tables map to fixed physical
pages, 384 to 387. Nothing tells the page allocator so: these pages are handed out like any others,
unless `physmem_init` has left them in use or given them no bit. If it has, they are never handed
out, as long as no call runs into one of the other two defects of the allocator: a scan that goes on
across a full word, and a free of a page whose mask clears the bit of one of the heap's pages.

* `Kept` is the invariant of the runs in which nothing goes wrong: the heap's pages are in use or
  beyond the bitmap, and no allocation holds one. `kept_step` is its step; the tables of
  `virt_map_page` come out of `phys_malloc` as well, so that `virtMapPage_keeps` has to go through
  `new_page_table` for it.
* `Accounted` is the other direction: a page that was free at the start is free or handed out. So one
  of the first requests for single pages gets it (`not_spared`).
* `heap_spared_iff` puts the two together, and `setAside_iff` says what it takes of the memory map.
-/

namespace Twos.Boot

open Lib Phys Virt
open Heap (HEAP_VIRT HEAP_SIZE kallocInit)

/-! ## Where the heap is -/

/-- The physical range of the heap. -/
def heapRange : Set Nat :=
  Set.Ico (HEAP_VIRT - KERNEL_VADDR) (HEAP_VIRT - KERNEL_VADDR + HEAP_SIZE)

/-- The pages in it. -/
def HeapPage (q : Nat) : Prop := 384 ≤ q ∧ q < 388

instance (q : Nat) : Decidable (HeapPage q) := inferInstanceAs (Decidable (_ ∧ _))

theorem heapPage_of_mem {x : Nat} (hx : x ∈ heapRange) : HeapPage (x / PAGE_SIZE) := by
  have hlo : HEAP_VIRT - KERNEL_VADDR = 384 * PAGE_SIZE := by decide
  have hhi : HEAP_SIZE = 4 * PAGE_SIZE := by decide
  rw [heapRange, hlo, hhi, Set.mem_Ico] at hx
  unfold HeapPage
  lia

theorem mem_of_heapPage {q : Nat} (hq : HeapPage q) : q * PAGE_SIZE ∈ heapRange := by
  have hlo : HEAP_VIRT - KERNEL_VADDR = 384 * PAGE_SIZE := by decide
  have hhi : HEAP_SIZE = 4 * PAGE_SIZE := by decide
  unfold HeapPage at hq
  rw [heapRange, hlo, hhi, Set.mem_Ico]
  lia

/-- The heap's addresses are mapped to its physical range. -/
theorem heap_backed {v : Nat} (hlo : HEAP_VIRT ≤ v) (hhi : v < HEAP_VIRT + HEAP_SIZE) :
    pageAlign (hiMapP2 ((v - KERNEL_VADDR) / PAGE_SIZE)) + v % PAGE_SIZE ∈ heapRange := by
  have hpage : HeapPage ((v - KERNEL_VADDR) / PAGE_SIZE) := by
    unfold HeapPage
    lia
  obtain ⟨i, hi, hindex⟩ : ∃ i, i < 4 ∧ (v - KERNEL_VADDR) / PAGE_SIZE = 384 + i :=
    ⟨(v - KERNEL_VADDR) / PAGE_SIZE - 384, by unfold HeapPage at hpage; omega,
      by unfold HeapPage at hpage; omega⟩
  have hentry : ∀ i, i < 4 → pageAlign (hiMapP2 (384 + i)) = (384 + i) * PAGE_SIZE := by decide
  rw [hindex, hentry i hi, heapRange, Set.mem_Ico]
  lia

/-! ## The page allocator, and what it has handed out

The page allocator with a list of its answers. A run consists of requests, frees of what was handed
out, mappings and anything else that is stored, in any order.
-/

/-- The page allocator, and everything that it has ever returned. -/
structure Pages where
  mem : Physmem
  handed : List Alloc

/-- `phys_malloc`. -/
def physMallocLogged (s : Pages) (size : BitVec 64) : Except Fault (Nat × Pages) := do
  let (addr, mem) ← physMalloc s.mem size
  .ok (addr, ⟨mem, if addr = 0 then s.handed else ⟨addr, size⟩ :: s.handed⟩)

/-- `virtmem_init` and `kalloc_init`, after `physmem_init` has left `phys`. -/
def initMemory (hooks : OarrayHooks) (phys : Physmem) (m : Memory) (pt : Nat)
    (fb : Virt.Framebuffer) : Except Fault (VirtMem Pages) := do
  let s ← virtmemInit physMallocLogged ⟨m, 0, ⟨phys, []⟩⟩ pt fb
  .ok { s with mem := (kallocInit hooks s.mem).mem }

inductive Call where
  | malloc (size : BitVec 64)
  | free (addr : Nat) (size : BitVec 64)
  | map (pt phys virt flags : Nat)
  | store (m : Memory)

/-- One call, or anything else that is stored. What is freed has been returned before; there is no
step out of a call that faults. -/
def step (s : VirtMem Pages) : Call → Option (VirtMem Pages)
  | .malloc size =>
      match physMallocLogged s.phys size with
      | .ok (_, phys) => some { s with phys }
      | .error _ => none
  | .free addr size =>
      if ⟨addr, size⟩ ∈ s.phys.handed then
        match physFree s.phys.mem addr size with
        | .ok mem => some { s with phys := { s.phys with mem } }
        | .error _ => none
      else none
  | .map pt phys virt flags =>
      match virtMapPage physMallocLogged s pt phys virt flags with
      | .ok (_, t) => some t
      | .error _ => none
  | .store m => some { s with mem := m }

/-- Nothing that was ever handed out has a part of the heap. -/
def SparesHeap (s : VirtMem Pages) : Prop := ∀ a ∈ s.phys.handed, Disjoint a.range heapRange

/-- The pages of the heap that have a bit are in use. -/
def SetAside (phys : Physmem) : Prop :=
  ∀ q, HeapPage q → q / WORD_BITS < phys.mmEnd → bitAt phys.pmm q = true

instance (phys : Physmem) : Decidable (SetAside phys) :=
  decidable_of_iff (∀ q, q < 388 → 384 ≤ q → q / WORD_BITS < phys.mmEnd → bitAt phys.pmm q = true)
    ⟨fun h q hq => h q hq.2 hq.1, fun h q hlt hle => h q ⟨hle, hlt⟩⟩

/-- Calls that stay clear of the allocator's other defects: a scan that meets no full word in the
middle of a run, and a free of none of the pages whose masks have the bits of the heap's pages. -/
def Careful (s : VirtMem Pages) : Call → Prop
  | .malloc size => ScanUnbroken s.phys.mem (numPages size)
  | .free addr size => ∀ q, HeapPage q → ¬ (Alloc.mk addr size).Holds (q + 32)
  | _ => True

/-! ## What `virt_map_page` does to the page allocator

Mapping a page asks the page allocator for at most two pages, and for nothing else. So what every
such request keeps is kept by a mapping, whatever memory holds.
-/

section
variable {σ : Type} {physMalloc : σ → BitVec 64 → Except Fault (Nat × σ)} {P : σ → Prop}

theorem newBlock_keeps (hP : ∀ s r, P s → physMalloc s ONE_PAGE = .ok r → P r.2)
    {s t : VirtMem σ} (h : P s.phys) (hrun : newBlock physMalloc s = .ok t) : P t.phys := by
  rw [newBlock_eq] at hrun
  obtain ⟨u, hrenew, heq⟩ := seq_ok.mp hrun
  obtain ⟨r, hmalloc, hrest⟩ := seq_ok.mp hrenew
  obtain ⟨_, -, hu⟩ := seq_ok.mp hrest
  obtain rfl := Except.ok.inj hu
  obtain rfl := Except.ok.inj heq
  exact hP _ _ h hmalloc

theorem takeDir_phys (s : VirtMem σ) : (takeDir s).2.phys = s.phys := by
  cases s
  rfl

/-- Whatever requests for one page keep is kept by the supply of page tables. -/
theorem newPageTable_keeps (hP : ∀ s r, P s → physMalloc s ONE_PAGE = .ok r → P r.2)
    {s : VirtMem σ} {q : Nat × VirtMem σ} (h : P s.phys)
    (hrun : newPageTable physMalloc s = .ok q) : P q.2.phys := by
  rw [newPageTable_eq] at hrun
  obtain ⟨u, hblock, hq⟩ := seq_ok.mp hrun
  obtain ⟨t, hfirst, hnext⟩ := seq_ok.mp hblock
  have ht : P t.phys := by
    unfold firstBlock at hfirst
    split at hfirst
    · exact newBlock_keeps hP h hfirst
    · obtain rfl := Except.ok.inj hfirst
      exact h
  have hu : P u.phys := by
    unfold nextBlock at hnext
    generalize load t.mem (t.cur + OFF_IDX) 8 = idx at hnext
    split at hnext
    · obtain ⟨v, hnew, hv⟩ := seq_ok.mp hnext
      have hkept : P v.phys := newBlock_keeps hP ht hnew
      obtain rfl := Except.ok.inj hv
      exact hkept
    · obtain rfl := Except.ok.inj hnext
      exact ht
  obtain rfl := Except.ok.inj hq
  rw [takeDir_phys, takeDir_phys]
  exact hu

theorem virtMapPage_keeps (hP : ∀ s r, P s → physMalloc s ONE_PAGE = .ok r → P r.2)
    {s : VirtMem σ} {q : Nat × VirtMem σ} {pt phys virt flags : Nat} (h : P s.phys)
    (hrun : virtMapPage physMalloc s pt phys virt flags = .ok q) : P q.2.phys := by
  have hlevel (s : VirtMem σ) (table index flags : Nat) (q : Nat × VirtMem σ) (h : P s.phys)
      (hrun : virtGetNextMapLevel physMalloc s table index flags = .ok q) : P q.2.phys := by
    unfold virtGetNextMapLevel at hrun
    split at hrun
    · cases hrun
    · split at hrun
      · obtain rfl := Except.ok.inj hrun
        exact h
      · obtain ⟨r, htable, hr⟩ := seq_ok.mp hrun
        have hkept : P r.2.phys := newPageTable_keeps hP h htable
        obtain rfl := Except.ok.inj hr
        exact hkept
  obtain ⟨r, hthird, hrest⟩ := seq_ok.mp hrun
  obtain ⟨u, hsecond, hu⟩ := seq_ok.mp hrest
  have hr : P r.2.phys := hlevel _ _ _ _ _ h hthird
  have hkept : P u.2.phys := hlevel _ _ _ _ _ hr hsecond
  obtain rfl := Except.ok.inj hu
  exact hkept

/-- `virtmem_init` makes one request of its own. -/
theorem virtmemInit_keeps (hP : ∀ s r, P s → physMalloc s ONE_PAGE = .ok r → P r.2)
    {s t : VirtMem σ} {pt : Nat} {fb : Virt.Framebuffer}
    (hfirst : ∀ r, physMalloc s.phys (BitVec.ofNat 64 (PAGE_SIZE * 64)) = .ok r → P r.2)
    (hrun : virtmemInit physMalloc s pt fb = .ok t) : P t.phys := by
  obtain ⟨r, hmalloc, hrest⟩ := seq_ok.mp hrun
  obtain ⟨_, -, hloop⟩ := seq_ok.mp hrest
  have hkept : Outcome (fun v : VirtMem σ => P v.phys) (fun _ : Fault => True) (.ok t) := by
    rw [← hloop]
    refine forLt_rule (fun _ (u : VirtMem σ) => P u.phys) (fun _ => True) (hfirst r hmalloc)
      fun i _ u hu => ?_
    cases hmap : virtMapPage physMalloc u pt ((fb.addr + i * PAGE_SIZE) % WORD)
        ((fb.addr + i * PAGE_SIZE) % WORD) PAGE_DEFAULT with
    | error e => trivial
    | ok q => exact virtMapPage_keeps hP hu hmap
  exact hkept

end

/-! ## Heaps that are set aside

A request takes free pages. As long as the pages of the heap are in use, or have no bit, it takes
none of them; and their bits stay set, because a careful free touches none of them.
-/

/-- The heap is set aside, and nothing that was handed out has a page of it. -/
structure Kept (s : Pages) : Prop where
  setAside : SetAside s.mem
  inBitmap : ∀ a ∈ s.handed, a.InBitmap
  spared : ∀ a ∈ s.handed, ∀ q, HeapPage q → ¬ a.Holds q

theorem Kept.spares {s : VirtMem Pages} (h : Kept s.phys) : SparesHeap s := by
  intro a ha
  rw [Set.disjoint_left]
  intro x hx hheap
  exact h.spared a ha _ (heapPage_of_mem hheap) (Alloc.holds_of_mem (h.inBitmap a ha) hx)

/-- A first fit consists of free pages, and the heap has none. -/
theorem kept_malloc {s : Pages} {size : BitVec 64} {r : Nat × Pages} (h : Kept s)
    (hscan : ScanUnbroken s.mem (numPages size)) (hrun : physMallocLogged s size = .ok r) :
    Kept r.2 := by
  obtain ⟨⟨addr, mem⟩, hmalloc, hr⟩ := seq_ok.mp hrun
  obtain rfl := Except.ok.inj hr
  dsimp only at hmalloc ⊢
  rcases physMalloc_spec hscan with ⟨start, t, hfound, hfit⟩ | ⟨hnone, -⟩
  · -- the request is met: a run of free pages, which is marked
    rw [hmalloc] at hfound
    obtain ⟨rfl, rfl⟩ := Prod.mk.inj (Except.ok.inj hfound)
    have hmm := s.mem.mmEnd_le
    have hle := hfit.le
    have hpages := pages_eq_numPages (start * PAGE_SIZE) hfit.pos
    have hset : SetAside mem := by
      intro q hq hword
      rw [hfit.mmEnd] at hword
      rw [hfit.bits, h.setAside q hq hword, Bool.true_or]
    have hin : (Alloc.mk (start * PAGE_SIZE) size).InBitmap := ⟨start, rfl, by rw [hpages]; lia⟩
    have hspared : ∀ q, HeapPage q → ¬ (Alloc.mk (start * PAGE_SIZE) size).Holds q := by
      -- such a page would be free, and below the end of the bitmap
      intro q hq hholds
      rw [Alloc.holds_iff rfl, hpages] at hholds
      have hfree := hfit.free (q - start) (by omega)
      rw [Nat.add_sub_cancel' hholds.1, h.setAside q hq (by lia)] at hfree
      cases hfree
    split
    · -- address 0 is taken for a failure
      exact ⟨hset, h.inBitmap, h.spared⟩
    · exact ⟨hset, List.forall_mem_cons.mpr ⟨hin, h.inBitmap⟩,
        List.forall_mem_cons.mpr ⟨hspared, h.spared⟩⟩
  · -- it is not, and nothing has changed
    rw [hmalloc] at hnone
    obtain ⟨rfl, rfl⟩ := Prod.mk.inj (Except.ok.inj hnone)
    exact h

/-- The bit of one of the heap's pages is in the masks of two pages. -/
theorem touches_heapPage {p q : Nat} (hq : HeapPage q) (h : Touches p q = true) :
    p = q ∨ p = q + 32 := by
  unfold HeapPage at hq
  rw [touches_iff, upper, lower, if_pos (by lia)] at h
  exact h

/-- A free that has neither of the two leaves the bit alone. -/
theorem kept_free {s : Pages} {addr : Nat} {size : BitVec 64} {mem : Physmem} (h : Kept s)
    (hmem : ⟨addr, size⟩ ∈ s.handed)
    (hgood : ∀ q, HeapPage q → ¬ (Alloc.mk addr size).Holds (q + 32))
    (hrun : physFree s.mem addr size = .ok mem) : Kept { s with mem } := by
  obtain ⟨t, hfree, hmm, -, hkeep⟩ := physFree_spec (s := s.mem) (h.inBitmap _ hmem)
  rw [hrun] at hfree
  obtain rfl := Except.ok.inj hfree
  refine ⟨fun q hq hword => ?_, h.inBitmap, h.spared⟩
  have huntouched : ∀ p, (Alloc.mk addr size).Holds p → Touches p q = false := by
    -- of the two pages with this bit in their masks, one was never handed out and one is not freed
    intro p hp
    refine Bool.eq_false_iff.mpr fun htouch => ?_
    rcases touches_heapPage hq htouch with rfl | rfl
    · exact h.spared _ hmem _ hq hp
    · exact hgood q hq hp
  rw [hkeep q huntouched]
  exact h.setAside q hq (hmm ▸ hword)

theorem numPages_onePage : numPages ONE_PAGE = 1 := by decide

theorem kept_onePage {s : Pages} {r : Nat × Pages} (h : Kept s)
    (hrun : physMallocLogged s ONE_PAGE = .ok r) : Kept r.2 :=
  kept_malloc h (numPages_onePage ▸ scanUnbroken_one s.mem) hrun

/-- A careful call keeps the heap set aside. -/
theorem kept_step {s t : VirtMem Pages} {call : Call} (h : Kept s.phys) (hgood : Careful s call)
    (hstep : step s call = some t) : Kept t.phys := by
  cases call with
  | malloc size =>
      unfold step at hstep
      cases hrun : physMallocLogged s.phys size with
      | error e => simp only [hrun, reduceCtorEq] at hstep
      | ok r =>
          simp only [hrun, Option.some.injEq] at hstep
          subst hstep
          exact kept_malloc h hgood hrun
  | free addr size =>
      by_cases hmem : Alloc.mk addr size ∈ s.phys.handed
      · simp only [step, if_pos hmem] at hstep
        -- the caller frees what it was given, so the heap's pages are not among it
        cases hrun : physFree s.phys.mem addr size with
        | error e => simp only [hrun, reduceCtorEq] at hstep
        | ok mem =>
            simp only [hrun, Option.some.injEq] at hstep
            subst hstep
            exact kept_free h hmem hgood hrun
      · simp only [step, if_neg hmem, reduceCtorEq] at hstep
  | map pt phys virt flags =>
      unfold step at hstep
      -- a mapping may ask for a page of its own, for the tables
      cases hrun : virtMapPage physMallocLogged s pt phys virt flags with
      | error e => simp only [hrun, reduceCtorEq] at hstep
      | ok r =>
          simp only [hrun, Option.some.injEq] at hstep
          subst hstep
          exact virtMapPage_keeps (fun _ _ => kept_onePage) h hrun
  | store m =>
      obtain rfl := Option.some.inj hstep
      exact h

theorem numPages_firstRequest : numPages (BitVec.ofNat 64 (PAGE_SIZE * 64)) = 64 := by decide

variable {hooks : OarrayHooks} {map : List MmapEntry} {phys : Physmem} {m : Memory} {pt : Nat}
  {fb : Virt.Framebuffer} {s₀ : VirtMem Pages}

/-- What is kept by every request of one page, and by the one that `virtmem_init` begins with, is
there when memory has been initialised. -/
theorem initMemory_keeps {P : Pages → Prop}
    (hP : ∀ s r, P s → physMallocLogged s ONE_PAGE = .ok r → P r.2)
    (hfirst : ∀ r, physMallocLogged ⟨phys, []⟩ (BitVec.ofNat 64 (PAGE_SIZE * 64)) = .ok r → P r.2)
    (hboot : initMemory hooks phys m pt fb = .ok s₀) : P s₀.phys := by
  obtain ⟨s, hinit, hs⟩ := seq_ok.mp hboot
  have hkept : P s.phys := virtmemInit_keeps (s := ⟨m, 0, ⟨phys, []⟩⟩) hP hfirst hinit
  obtain rfl := Except.ok.inj hs
  exact hkept

theorem kept_init (hset : SetAside phys) (hscan : ScanUnbroken phys 64)
    (hboot : initMemory hooks phys m pt fb = .ok s₀) : Kept s₀.phys := by
  refine initMemory_keeps (fun _ _ => kept_onePage) (fun r hrun => ?_) hboot
  have hstart : Kept ⟨phys, []⟩ :=
    ⟨hset, fun _ ha => absurd ha List.not_mem_nil, fun _ ha => absurd ha List.not_mem_nil⟩
  refine kept_malloc hstart ?_ hrun
  rw [numPages_firstRequest]
  exact hscan

/-! ## Heaps that are not

A free page that is not in use can be handed out: single pages are requested until it is its turn.
This works in any state, whatever the allocator has done before, since a page that is not free any
more was handed out.
-/

/-- The page has a bit, and is free or has been handed out. Page 0 is in use, so that nothing is
handed out under the address that stands for failure. -/
structure Accounted (q : Nat) (s : Pages) : Prop where
  word : q / WORD_BITS < s.mem.mmEnd
  zero : bitAt s.mem.pmm 0 = true
  page : bitAt s.mem.pmm q = false ∨ ∃ a ∈ s.handed, a.Holds q

/-- What a request takes, broken or not, it hands out. -/
theorem accounted_malloc {q : Nat} {s : Pages} {size : BitVec 64} {r : Nat × Pages}
    (h : Accounted q s) (hrun : physMallocLogged s size = .ok r) : Accounted q r.2 := by
  obtain ⟨⟨addr, mem⟩, hmalloc, hr⟩ := seq_ok.mp hrun
  obtain rfl := Except.ok.inj hr
  dsimp only at hmalloc ⊢
  rcases physMalloc_counts s.mem size with
    ⟨start, e, t, hpos, hfound, -, hcounted, hmarked⟩ | ⟨hnone, -⟩
  · -- the pages of the request, and the first of them was free
    rw [hmalloc] at hfound
    obtain ⟨rfl, rfl⟩ := Prod.mk.inj (Except.ok.inj hfound)
    have hmm := congrArg Physmem.mmEnd hmarked.rest
    dsimp only at hmm
    have hstart : start * PAGE_SIZE ≠ 0 := by
      -- the run starts with a free page, which page 0 is not
      rintro hzero
      obtain rfl : start = 0 := by lia
      have hfree := hcounted.free
      rw [h.zero] at hfree
      cases hfree
    have hpages := pages_eq_numPages (start * PAGE_SIZE) hpos
    rw [if_neg hstart]
    refine ⟨hmm ▸ h.word, by rw [hmarked.bits, h.zero, Bool.true_or], ?_⟩
    -- the page stays free, or is one of these, or has been handed out before
    rcases h.page with hfree | ⟨a, ha, hholds⟩
    · by_cases hq : start ≤ q ∧ q < start + numPages size
      · refine Or.inr ⟨_, List.mem_cons_self, ?_⟩
        rw [Alloc.holds_iff rfl, hpages]
        exact hq
      · exact Or.inl (by rw [hmarked.bits, hfree, decide_eq_false hq, Bool.false_or])
    · exact Or.inr ⟨a, List.mem_cons_of_mem _ ha, hholds⟩
  · rw [hmalloc] at hnone
    obtain ⟨rfl, rfl⟩ := Prod.mk.inj (Except.ok.inj hnone)
    exact h

/-- Single pages can be requested in a run, as often as one likes. -/
theorem run_pageCalls {k : Nat} {s : VirtMem Pages} {calls : List Call} {mem : Physmem}
    (hrun : Run (Lib.Checked Careful (StepOf step)) s₀ calls s)
    (hcalls : pageCalls k s.phys.mem = .ok mem) :
    ∃ more t, Run (Lib.Checked Careful (StepOf step)) s₀ more t ∧ t.phys.mem = mem := by
  induction k generalizing s calls with
  | zero => exact ⟨calls, s, hrun, Except.ok.inj hcalls⟩
  | succ k ih =>
      obtain ⟨⟨addr, mem'⟩, hmalloc, hrest⟩ := seq_ok.mp hcalls
      have hstep : step s (.malloc (pagesSize 1)) = some { s with phys :=
          ⟨mem', if addr = 0 then s.phys.handed else ⟨addr, pagesSize 1⟩ :: s.phys.handed⟩ } := by
        simp only [step, physMallocLogged, hmalloc, ok_seq]
      have hgood : Careful s (.malloc (pagesSize 1)) := numPages_one ▸ scanUnbroken_one s.phys.mem
      exact ih (hrun.snoc ⟨hgood, hstep⟩) hrest

/-- A page of the heap that is left free is handed out by one of the first requests. -/
theorem not_spared {q : Nat} (hq : HeapPage q) (h : Accounted q s₀.phys) :
    ∃ calls s, Run (Lib.Checked Careful (StepOf step)) s₀ calls s ∧ ¬ SparesHeap s := by
  have hmem : q * PAGE_SIZE ∈ heapRange := mem_of_heapPage hq
  rcases h.page with hfree | ⟨a, ha, hholds⟩
  · -- the page has its turn after all free pages below it
    have hlt : q < WORD_BITS * s₀.phys.mem.mmEnd := by
      have hword := h.word
      lia
    obtain ⟨k, mem₁, mem₂, hcalls, hlast⟩ := handedOut_of_free hfree hlt
    obtain ⟨calls, s, hrun, rfl⟩ := run_pageCalls .nil hcalls
    have hne : q * PAGE_SIZE ≠ 0 := by
      unfold HeapPage at hq
      lia
    have hstep : step s (.malloc (pagesSize 1)) = some { s with phys :=
        ⟨mem₂, ⟨q * PAGE_SIZE, pagesSize 1⟩ :: s.phys.handed⟩ } := by
      simp only [step, physMallocLogged, hlast, ok_seq, if_neg hne]
    have hgood : Careful s (.malloc (pagesSize 1)) := numPages_one ▸ scanUnbroken_one s.phys.mem
    refine ⟨_, _, hrun.snoc ⟨hgood, hstep⟩, fun hspares => ?_⟩
    have hdisj := hspares ⟨q * PAGE_SIZE, pagesSize 1⟩ List.mem_cons_self
    have hholds : (Alloc.mk (q * PAGE_SIZE) (pagesSize 1)).Holds q := by
      have hone := pages_eq_numPages (q * PAGE_SIZE) (numPages_one ▸ Nat.one_pos)
      rw [Alloc.holds_iff rfl, hone, numPages_one]
      omega
    exact Set.disjoint_left.mp hdisj hholds hmem
  · exact ⟨[], s₀, .nil, fun hspares => Set.disjoint_left.mp (hspares a ha) hholds hmem⟩

/-! ## When the heap is spared

The two directions meet at the pages of the heap that `physmem_init` has left free. The two machines
at the end start from the tables of the boot code, one with a map that reserves these pages and one
without.
-/

/-- What a map that lies below 64 GiB has to say for the heap to be set aside. -/
theorem setAside_iff (hbelow : ∀ e ∈ map, e.addr + e.len ≤ PAGE_SIZE * PMM_PAGES)
    (hphys : physmemInit map = .ok phys) :
    SetAside phys ↔ ∀ q, HeapPage q → q / WORD_BITS < bitmapWords map → Freed map q = false := by
  have hinit := physmemInit_freed hbelow
  rw [hphys] at hinit
  obtain ⟨hmm, -, -, hbits⟩ := hinit
  have hbit : ∀ q, HeapPage q → q / WORD_BITS < phys.mmEnd →
      (bitAt phys.pmm q = true ↔ Freed map q = false) := by
    intro q hq hword
    have h16 : ¬ q < 16 := by
      unfold HeapPage at hq
      omega
    rw [hbits q hword, decide_eq_false h16, Bool.false_or, Bool.not_eq_true']
  rw [← hmm]
  exact forall_congr' fun q => forall_congr' fun hq => forall_congr' fun hword => hbit q hq hword

/-- Careful runs spare the heap exactly when `physmem_init` has set it aside. -/
theorem heap_spared_iff (hphys : physmemInit map = .ok phys) (hscan : ScanUnbroken phys 64)
    (hboot : initMemory hooks phys m pt fb = .ok s₀) :
    (∀ calls s, Run (Lib.Checked Careful (StepOf step)) s₀ calls s → SparesHeap s) ↔
      SetAside phys := by
  constructor
  · intro hspared q hq hword
    refine Bool.eq_true_of_not_eq_false fun hfree => ?_
    have hstart : Accounted q ⟨phys, []⟩ := ⟨hword, physmemInit_reserved hphys (by decide), Or.inl hfree⟩
    have haccounted : Accounted q s₀.phys :=
      initMemory_keeps (fun _ _ h hrun => accounted_malloc h hrun)
        (fun _ hrun => accounted_malloc hstart hrun) hboot
    obtain ⟨calls, s, hrun, hnot⟩ := not_spared hq haccounted
    exact hnot (hspared calls s hrun)
  · intro hset calls s hrun
    have hkept : Kept s.phys := by
      refine Run.invariant (fun s => Kept s.phys) (kept_init hset hscan hboot) ?_ hrun
      intro s call t h hstep
      exact kept_step h hstep.1 hstep.2
    exact hkept.spares

/-- The memory that the boot code leaves. -/
def bootTables : Memory := setupPaging kernelTables fun _ => 0

/-- `physmem_init`, `virtmem_init` and `kalloc_init` with these tables and no framebuffer. -/
def bootMemory (map : List MmapEntry) : Except Fault (Physmem × VirtMem Pages) := do
  let phys ← physmemInit map
  let s ← initMemory ⟨0, 0, 0⟩ phys bootTables kernelTables.p4Table ⟨0, 0, 0⟩
  .ok (phys, s)

theorem bootMemory_ok {r : Physmem × VirtMem Pages} (h : bootMemory map = .ok r) :
    physmemInit map = .ok r.1 ∧
      initMemory ⟨0, 0, 0⟩ r.1 bootTables kernelTables.p4Table ⟨0, 0, 0⟩ = .ok r.2 := by
  obtain ⟨phys, hphys, hrest⟩ := seq_ok.mp h
  obtain ⟨s, hboot, hr⟩ := seq_ok.mp hrest
  obtain rfl := Except.ok.inj hr
  exact ⟨hphys, hboot⟩

/-- The word with the bits of the heap is reserved, and the rest of the first gigabyte is
available. -/
def reservedHeap : List MmapEntry :=
  [⟨0, 384 * PAGE_SIZE, MULTIBOOT_MEMORY_AVAILABLE⟩, ⟨384 * PAGE_SIZE, 64 * PAGE_SIZE, 2⟩,
    ⟨448 * PAGE_SIZE, 64 * PAGE_SIZE, MULTIBOOT_MEMORY_AVAILABLE⟩]

theorem heap_spared_reserved :
    ∃ phys s₀, physmemInit reservedHeap = .ok phys ∧ SetAside phys ∧
      initMemory ⟨0, 0, 0⟩ phys bootTables kernelTables.p4Table ⟨0, 0, 0⟩ = .ok s₀ ∧
      ((∀ calls s, Run (Lib.Checked Careful (StepOf step)) s₀ calls s → SparesHeap s) ↔
        SetAside phys) := by
  obtain ⟨r, hrun, hset, hfree, hword⟩ : ∃ r, bootMemory reservedHeap = .ok r ∧ SetAside r.1 ∧
      FreeRun r.1.pmm 64 64 ∧ wordAt r.1.pmm 1 ≠ FULL := Outcome.returns (by decide +kernel)
  obtain ⟨hphys, hboot⟩ := bootMemory_ok hrun
  -- every word from the second on comes after 64 free pages
  have hscan : ScanUnbroken r.1 64 := by
    intro idx _ hfull _
    have hidx : idx ≠ 0 := by
      rintro rfl
      exact hword hfull
    exact ⟨64, by lia, hfree⟩
  exact ⟨r.1, r.2, hphys, hset, hboot, heap_spared_iff hphys hscan hboot⟩

/-- All of the first gigabyte is available. -/
def gigabyte : List MmapEntry := [⟨0, 512 * PAGE_SIZE, MULTIBOOT_MEMORY_AVAILABLE⟩]

/-- `virtmem_init` has taken page 80 for tables of the low addresses, and a request for 400 pages gets
what follows, with all of the heap in it. -/
theorem heap_not_spared :
    ∃ phys s₀ s, physmemInit gigabyte = .ok phys ∧
      initMemory ⟨0, 0, 0⟩ phys bootTables kernelTables.p4Table ⟨0, 0, 0⟩ = .ok s₀ ∧
      Run (StepOf step) s₀ [.malloc (pagesSize 400)] s ∧ ¬ SparesHeap s := by
  obtain ⟨r, hrun, hcall⟩ : ∃ r, bootMemory gigabyte = .ok r ∧
      (step r.2 (.malloc (pagesSize 400))).map (fun s => s.phys.handed) =
        some [⟨81 * PAGE_SIZE, pagesSize 400⟩, ⟨80 * PAGE_SIZE, pagesSize 1⟩,
          ⟨16 * PAGE_SIZE, pagesSize 64⟩] :=
    Outcome.returns (by decide +kernel)
  obtain ⟨hphys, hboot⟩ := bootMemory_ok hrun
  obtain ⟨s, hstep, hhanded⟩ := Option.map_eq_some_iff.mp hcall
  refine ⟨r.1, r.2, s, hphys, hboot, Run.nil.snoc hstep, fun hspares => ?_⟩
  have hdisj := hspares ⟨81 * PAGE_SIZE, pagesSize 400⟩ (by rw [hhanded]; exact List.mem_cons_self)
  have hholds : (Alloc.mk (81 * PAGE_SIZE) (pagesSize 400)).Holds 384 := by
    rw [Alloc.holds_iff rfl]
    decide +kernel
  exact Set.disjoint_left.mp hdisj hholds (mem_of_heapPage (by decide))

end Twos.Boot
