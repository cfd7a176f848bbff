import Twos.Kernel.Base
import Twos.Lib.Loop
import Twos.Lib.Memory

/-!
# Virtual memory

`virtmem.c`: four-level page tables, the last level of which holds 2 MiB pages. Page tables are
found through the higher-half direct map, so a table is known by its virtual address, the physical
one plus `KERNEL_VADDR`. New tables are cut out of blocks of one page, `pt_alloc_t`, which keep
three words of their own behind the last table.

`phys_malloc` is a parameter here: what the tables need from it differs from theorem to theorem.

The results about this file come in three layers:

* `Supply` says which table `new_page_table` hands out, as a function of four numbers, and that the
  code agrees with it;
* `Walk` says what linking a table and writing the entry of a page do to the tree of tables, and
  with it to the translation of the processor;
* `Translation`, `Tables` and `Rights` put the two together for one call and for runs of calls.
-/

namespace Twos.Virt

open Lib

/-! ## Constants -/

/-- `PAGEINDEXMASK`. -/
abbrev PAGEINDEXMASK : Nat := 0x1FF

abbrev PAGE_PRESENT_FLAG : Nat := 1
abbrev PAGE_WRITE_FLAG : Nat := 2
abbrev PAGE_USER : Nat := 4

/-- `PAGE_SIZE_2MB`: the entry maps a page instead of pointing to a table. -/
abbrev PAGE_SIZE_2MB : Nat := 128

/-- `PAGE_DEFAULT`. -/
abbrev PAGE_DEFAULT : Nat := PAGE_SIZE_2MB ||| PAGE_PRESENT_FLAG ||| PAGE_WRITE_FLAG

/-- `PAGE_USER_DEFAULT`. -/
abbrev PAGE_USER_DEFAULT : Nat := PAGE_DEFAULT ||| PAGE_USER

/-- `sizeof(page_table_t)`. -/
abbrev TABLE_SIZE : Nat := 4096

/-- How many tables a `pt_alloc_t` has in `dirs`. -/
abbrev DIRS : Nat := 511

/-- The offset of `idx` in a `pt_alloc_t`. -/
abbrev OFF_IDX : Nat := DIRS * TABLE_SIZE

/-- The offset of `prev`. -/
abbrev OFF_PREV : Nat := OFF_IDX + 8

/-- The offset of `next`. -/
abbrev OFF_NEXT : Nat := OFF_IDX + 16

/-! ## Tables -/

/-- The address of an entry. -/
def entryAddr (table i : Nat) : Nat := table + 8 * i

/-- `table[i]`. -/
def entry (m : Memory) (table i : Nat) : Nat := load m (entryAddr table i) 8

/-- Memory, the static `cur` of `new_page_table`, and the state of the page allocator. -/
structure VirtMem (σ : Type) where
  mem : Memory
  cur : Nat
  phys : σ

variable {σ : Type} (physMalloc : σ → BitVec 64 → Except Fault (Nat × σ))

/-- `PAGE_SIZE` as the argument of `phys_malloc`. -/
abbrev ONE_PAGE : BitVec 64 := BitVec.ofNat 64 PAGE_SIZE

/-- `alloc_pt_block`, which clears the block once as a whole and once table by table. -/
def allocPtBlock (s : VirtMem σ) : Except Fault (Nat × VirtMem σ) := do
  let (page, phys) ← physMalloc s.phys ONE_PAGE
  assert (decide (page ≠ 0)) "page"
  let pta := (KERNEL_VADDR + page) % WORD
  let m := fill s.mem pta PAGE_SIZE 0
  let m := (List.range 512).foldl (fun m i => fill m (pta + TABLE_SIZE * i) TABLE_SIZE 0) m
  .ok (page, { s with mem := m, phys })

/-- `cur = (pt_alloc_t*)(alloc_pt_block() + KERNEL_VADDR)`. -/
def newBlock (s : VirtMem σ) : Except Fault (VirtMem σ) := do
  let (page, s) ← allocPtBlock physMalloc s
  .ok { s with cur := (page + KERNEL_VADDR) % WORD }

/-- `&cur->dirs[cur->idx++]`. -/
def takeDir (s : VirtMem σ) : Nat × VirtMem σ :=
  let idx := load s.mem (s.cur + OFF_IDX) 8
  ((s.cur + TABLE_SIZE * idx) % WORD,
    { s with mem := store s.mem (s.cur + OFF_IDX) 8 ((idx + 1) % WORD) })

/-- `new_page_table`, the block of the very first call. -/
def firstBlock (s : VirtMem σ) : Except Fault (VirtMem σ) :=
  if s.cur = 0 then newBlock physMalloc s else .ok s

/-- `new_page_table`, the block after one that has come to its end. -/
def nextBlock (s : VirtMem σ) : Except Fault (VirtMem σ) :=
  if load s.mem (s.cur + OFF_IDX) 8 ≥ DIRS then do
    let prev := s.cur
    let s ← newBlock physMalloc s
    let m := store s.mem (prev + OFF_NEXT) 8 s.cur
    let m := store m (s.cur + OFF_PREV) 8 prev
    .ok { s with mem := m }
  else .ok s

/-- `new_page_table`. The arguments of the `debugf` before the `return` are evaluated too. -/
def newPageTable (s : VirtMem σ) : Except Fault (Nat × VirtMem σ) := do
  let s ← firstBlock physMalloc s
  let s ← nextBlock physMalloc s
  let (_, s) := takeDir s
  .ok (takeDir s)

/-! ## Mapping -/

/-- `virt_get_next_map_level`. -/
def virtGetNextMapLevel (s : VirtMem σ) (pageDirectory index flags : Nat) :
    Except Fault (Nat × VirtMem σ) :=
  if pageDirectory = 0 then .error (.panic "virt_get_next_map_level")
  else if entry s.mem pageDirectory index &&& 1 ≠ 0 then
    .ok (((entry s.mem pageDirectory index &&& 0xFFFFFFFFFFFFFE00) + KERNEL_VADDR) % WORD, s)
  else do
    let (npt, s) ← newPageTable physMalloc s
    let newEntry := (npt + (WORD - KERNEL_VADDR)) % WORD ||| flags
    .ok (npt, { s with mem := store s.mem (entryAddr pageDirectory index) 8 newEntry })

/-- `virt_map_page`, which returns the page's address. -/
def virtMapPage (s : VirtMem σ) (pt phys virt flags : Nat) : Except Fault (Nat × VirtMem σ) := do
  let virt := pageAlign virt
  let phys := pageAlign phys
  let i4 := (virt >>> 39) &&& PAGEINDEXMASK
  let i3 := (virt >>> 30) &&& PAGEINDEXMASK
  let i2 := (virt >>> 21) &&& PAGEINDEXMASK
  let (p3, s) ← virtGetNextMapLevel physMalloc s pt i4 (PAGE_PRESENT_FLAG ||| PAGE_WRITE_FLAG)
  let (p2, s) ← virtGetNextMapLevel physMalloc s p3 i3 (PAGE_PRESENT_FLAG ||| PAGE_WRITE_FLAG)
  .ok (virt, { s with mem := store s.mem (entryAddr p2 i2) 8 (phys ||| flags) })

/-- `virt_unmap_page`. -/
def virtUnmapPage (s : VirtMem σ) (pt virt : Nat) : Except Fault (VirtMem σ) := do
  let (_, s) ← virtMapPage physMalloc s pt 0 virt 0
  .ok s

/-- The framebuffer in `kboot`. -/
structure Framebuffer where
  addr : Nat
  h : Nat
  pitch : Nat

/-- `virtmem_init`, with `pt` the direct-mapped address of the table in `cr3`. -/
def virtmemInit (s : VirtMem σ) (pt : Nat) (fb : Framebuffer) : Except Fault (VirtMem σ) := do
  let (_, phys) ← physMalloc s.phys (BitVec.ofNat 64 (PAGE_SIZE * 64))
  let fbSize := fb.h * fb.pitch % WORD
  assert (decide (fbSize < PAGE_SIZE * 4)) "fb_size < (PAGE_SIZE * 4)"
  forLt (fun i s => do
    let (_, s) ← virtMapPage physMalloc s pt ((fb.addr + i * PAGE_SIZE) % WORD)
      ((fb.addr + i * PAGE_SIZE) % WORD) PAGE_DEFAULT
    .ok s) 4 { s with phys }

end Twos.Virt
