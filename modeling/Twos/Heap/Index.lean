import Twos.Heap.BestFit
import Twos.Types.Within

/-!
# The index of the heap

The ordered array of the heap has a page for its elements, and each element stands for a block of at
least 25 bytes. The heap is small enough that it runs out of bytes before the array runs out of
elements: `Laid.idx_le` counts the blocks by the bytes they take, and `index_never_fills` says that in
every state a run reaches there is a slot to spare, and that an insertion stays in the page.
-/

namespace Twos.Heap

open Lib

/-! ## The heap runs out first

A block takes at least the 25 bytes of its header and footer, and the heap is not large enough for
as many of these as the array has slots. So a request runs out of bytes before it runs out of slots,
and the insertion into the array, with all its accesses checked, stays inside.
-/

/-- The array has room for as long as the heap has. -/
structure IndexRoom (s : HeapState) : Prop where
  above : BLOCKS_START ≤ s.addr
  blocks : oarrayIdx s.mem s.allocs * 25 ≤ s.addr - BLOCKS_START
  room : ∀ size, size + 25 < WORD → getTotalBlockSize size ≤ getHeapFree s →
    oarrayIdx s.mem s.allocs < Twos.maxElements s.mem s.allocs
  inserts : ∀ size, size + 25 < WORD →
    kmalloc s size ≠ .error (.panic "heap header insertion failure")
  inside : ∀ size, size + 25 < WORD → getTotalBlockSize size ≤ getHeapFree s →
    ∃ addr m, createHeapBlock s s.addr size = .ok (addr, m) ∧
      oarrayInsertWithin s.allocs (s.allocs + PAGE_SIZE) allocGreater m s.allocs s.addr =
        oarrayInsert allocGreater m s.allocs s.addr

variable {s : HeapState} {bs : List Block} {size : Nat}

theorem Laid.idx_le (h : Laid s bs) :
    oarrayIdx s.mem s.allocs * 25 ≤ s.addr - BLOCKS_START := by
  have hlen := h.tiles.length_le (k := 25) fun b => by
    unfold Block.total
    lia
  rw [h.allocs, h.oarrayIdx_eq]
  omega

theorem Laid.idx_lt (h : Laid s bs) : oarrayIdx s.mem s.allocs < Twos.maxElements s.mem s.allocs := by
  have hlen := h.length_lt
  rw [h.allocs, h.maxElements, h.oarrayIdx_eq]
  omega

/-- The only thing that a request can run out of is bytes. -/
theorem Laid.kmalloc_inserts (h : Laid s bs) (hsize : size + 25 < WORD) :
    kmalloc s size ≠ .error (.panic "heap header insertion failure") := by
  intro hpanic
  rcases kmalloc_spec h hsize with ⟨-, -, hfull | ⟨s', hnew, -⟩⟩ | ⟨-, b, -, -, -, -, hreuse⟩
  · rw [hfull] at hpanic
    simp at hpanic
  · rw [hnew] at hpanic
    cases hpanic
  · rw [hreuse] at hpanic
    cases hpanic

/-- The header of a new block is inserted into an array that the block has left as it was. -/
theorem Laid.inserts_inside (h : Laid s bs) (hsize : size + 25 < WORD)
    (hfits : getTotalBlockSize size ≤ getHeapFree s) :
    ∃ addr m, createHeapBlock s s.addr size = .ok (addr, m) ∧
      oarrayInsertWithin s.allocs (s.allocs + PAGE_SIZE) allocGreater m s.allocs s.addr =
        oarrayInsert allocGreater m s.allocs s.addr := by
  have htop := h.top
  have hstart := h.tiles.le
  have hlen := h.length_lt
  have hroom : s.addr + size + (SIZEOF_HEADER + SIZEOF_FOOTER) ≤ getHeapEnd s := by
    rw [h.getHeapFree_eq, getTotalBlockSize] at hfits
    rw [h.getHeapEnd_eq]
    lia
  obtain ⟨m, hcreate, -, hframe⟩ := createHeapBlock_spec hroom
  obtain ⟨hidx, hmax, -⟩ := @Laid.array_congr _ _ m h fun x _ hx => hframe x (by
    simp only [Block.Meta, Block.footer]
    omega)
  refine ⟨_, m, hcreate, ?_⟩
  rw [h.allocs]
  apply oarrayInsertWithin_eq
  · rw [hidx, hmax, h.oarrayIdx_eq]
    omega
  · exact Nat.le_refl _
  · rw [hidx, h.oarrayIdx_eq]
    lia

theorem Laid.indexRoom (h : Laid s bs) : IndexRoom s where
  above := h.tiles.le
  blocks := h.idx_le
  room _ _ _ := h.idx_lt
  inserts _ := h.kmalloc_inserts
  inside _ := h.inserts_inside

/-- After every run, the array has room for as long as the heap has. -/
theorem index_never_fills {hooks : OarrayHooks} {m : Memory} {ops : List Op} {s : Session}
    (hrun : Run (Checked NoWrap (StepOf perform)) ⟨kallocInit hooks m, []⟩ ops s) :
    IndexRoom s.heap := by
  obtain ⟨bs, hlaid, -⟩ := inv_run hrun
  exact hlaid.indexRoom

/-- Two blocks, of which the first is freed and used again. -/
theorem index_never_fills_two :
    ∃ s, Run (Checked NoWrap (StepOf perform)) ⟨kallocInit ⟨0, 0, 0⟩ fun _ => 0, []⟩
        [.kmalloc 512, .kmalloc 64, .kfree (BLOCKS_START + 13), .kmalloc 100] s ∧
      IndexRoom s.heap := by
  have hsome : ([.kmalloc 512, .kmalloc 64, .kfree (BLOCKS_START + 13), .kmalloc 100].foldlM
      (fun s op => if NoWrap s op then perform s op else none)
        ⟨kallocInit ⟨0, 0, 0⟩ fun _ => 0, []⟩).isSome := by decide +kernel
  obtain ⟨s, hs⟩ := Option.isSome_iff_exists.mp hsome
  have hrun := run_checked_of_foldlM hs
  exact ⟨s, hrun, index_never_fills hrun⟩

end Twos.Heap
