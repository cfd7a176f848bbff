import Twos.Heap.Session

/-!
# Freeing what is live

`kfree` finds a block from the pointer alone: it takes the 13 bytes below it for the header. That is
right for a pointer to a new block. A pointer to a block that is used again lies only 8 bytes above
its header, so what `kfree` looks at is not the header of any block. In sessions in which clients
write nothing, a live allocation can be freed exactly when its block was made for it
(`live_frees_iff`).

Being freed takes two things here: that `kfree` looks for the footer in the heap, and that it finds
there what it asserts. `reused_not_freed` is about a block that is used again, for which the footer is
looked for where no address is.
-/

namespace Twos.Heap

open Lib

/-- Freeing the allocation looks at nothing outside of the heap, makes the block that was put in use
for it available, and changes nothing else. -/
structure FreesOwnBlock (s : Client) (a : Alloc) : Prop where
  header : HEAP_VIRT ≤ freeHeader a.ptr ∧
    freeHeader a.ptr + SIZEOF_HEADER ≤ HEAP_VIRT + HEAP_SIZE
  footer : HEAP_VIRT ≤ freeFooter s.heap.mem a.ptr ∧
    freeFooter s.heap.mem a.ptr + SIZEOF_FOOTER ≤ HEAP_VIRT + HEAP_SIZE
  run : kfree s.heap a.ptr =
    .ok { s.heap with mem := store s.heap.mem (a.hdr + 4) 1 HEAP_HEAD_AVAILABLE.toNat }

/-- Clients write nothing. -/
def Quiet (_ : Client) : Request → Prop
  | .write _ _ _ => False
  | _ => True

instance (s : Client) (request : Request) : Decidable (Quiet s request) :=
  match request with
  | .kmalloc _ => isTrue trivial
  | .kfree _ => isTrue trivial
  | .write _ _ _ => isFalse id

variable {s t : Client} {bs : List Block} {a : Alloc}

theorem owned_quiet {request : Request} (h : Owned s bs) (hgood : Quiet s request)
    (hstep : Heap.request s request = some t) : ∃ bs', Owned t bs' := by
  cases request with
  | kmalloc size => exact owned_kmalloc h hstep
  | kfree a => exact owned_kfree h hstep
  | write a offset value => exact hgood.elim

/-- The block that is put in use for a new allocation is in use afterwards, and was not before: it
was available, or there was no such block. -/
theorem kmalloc_puts_in_use (h : Owned s bs) {size : Nat}
    (hstep : request s (.kmalloc size) = some t) :
    available t.heap.mem (blockFor s.heap size) = HEAP_HEAD_IN_USE ∧
      (available s.heap.mem (blockFor s.heap size) = HEAP_HEAD_AVAILABLE ∨
        blockFor s.heap size ∉ elements s.heap.mem s.heap.allocs) := by
  obtain ⟨hsize, ptr, heap, hrun, rfl⟩ := request_kmalloc hstep
  rcases kmalloc_cases h.laid hsize hrun with
    ⟨-, hblock, -, hlaid⟩ | ⟨-, b, hb, havail, -, hblock, -, hlaid⟩
  · rw [hblock]
    refine ⟨(hlaid.blocks _ (List.mem_append_right _ List.mem_cons_self)).available, ?_⟩
    right
    rw [h.laid.allocs, h.laid.mem_elements]
    rintro ⟨b, hb, heq⟩
    have hbounds := h.laid.bounds hb
    have hpos := b.total_pos
    omega
  · rw [hblock]
    have hnew : { b with avail := false } ∈ withAvail b.hdr false bs :=
      List.mem_map.mpr ⟨b, hb, if_pos rfl⟩
    exact ⟨(hlaid.blocks _ hnew).available, Or.inl ((h.laid.available_iff hb).mpr havail)⟩

/-- A live allocation can be freed exactly when its block was made for it. -/
theorem Owned.frees_iff (h : Owned s bs) (ha : a ∈ s.live) : FreesOwnBlock s a ↔ a.fresh = true := by
  obtain ⟨b, hb, hhas⟩ := h.has a ha
  have hptr := hhas.ptr
  cases hfresh : a.fresh with
  | true =>
      rw [hfresh, if_pos rfl] at hptr
      obtain ⟨hheader, hfooter⟩ := free_payload h.laid hb
      have hbounds := h.laid.bounds hb
      have htop := h.laid.top
      unfold Block.total at hbounds
      refine iff_of_true ⟨?_, ?_, ?_⟩ rfl
      · rw [hptr, hheader]
        lia
      · rw [hptr, hfooter, Block.footer]
        lia
      · rw [hptr, kfree_payload h.laid hb, hhas.hdr]
        rfl
  | false =>
      rw [hfresh, if_neg Bool.false_ne_true] at hptr
      refine iff_of_false (fun hfrees => ?_) Bool.false_ne_true
      have hfree := hfrees.run
      rw [hptr] at hfree
      rcases kfree_reused h.laid hb with ⟨text, hrun⟩ | ⟨hfirst, hrun⟩
      · rw [hrun] at hfree
        cases hfree
      · -- the byte that was written is not the one that should have been
        rw [hrun] at hfree
        have hmem := congrArg HeapState.mem (Except.ok.inj hfree)
        have hbyte := congrFun hmem (b.hdr + 4)
        dsimp only at hbyte
        rw [store_outside (by omega), ← hhas.hdr, store_head Nat.one_pos] at hbyte
        have hinuse : s.heap.mem (b.hdr + 4) = availByte b.avail := (h.laid.blocks b hb).available
        rw [hinuse, hhas.inUse] at hbyte
        exact absurd hbyte (by decide)

theorem owned_of_run {hooks : OarrayHooks} {m : Memory} {requests : List Request} {s : Client}
    (hrun : Run (Checked Quiet (StepOf request)) (start hooks m) requests s) : ∃ bs, Owned s bs := by
  refine Run.invariant (fun s => ∃ bs, Owned s bs) ⟨[], owned_start hooks m⟩ ?_ hrun
  rintro s request t ⟨bs, howned⟩ ⟨hgood, hstep⟩
  exact owned_quiet howned hgood hstep

/-- In every session in which clients write nothing, exactly the live allocations in new blocks can
be freed. -/
theorem live_frees_iff {hooks : OarrayHooks} {m : Memory} {requests : List Request} {s : Client}
    (hrun : Run (Checked Quiet (StepOf request)) (start hooks m) requests s) :
    ∀ a ∈ s.live, FreesOwnBlock s a ↔ a.fresh = true := by
  obtain ⟨bs, howned⟩ := owned_of_run hrun
  intro a ha
  exact howned.frees_iff ha

/-- Two blocks are made, the first is freed and used again: the second can be freed. -/
theorem live_frees_second :
    ∃ s, Run (Checked Quiet (StepOf request)) (start ⟨0, 0, 0⟩ fun _ => 0)
        [.kmalloc 512, .kmalloc 64, .kfree ⟨BLOCKS_START + 13, 512, BLOCKS_START, true⟩,
          .kmalloc 100] s ∧
      ∀ a ∈ s.live, FreesOwnBlock s a ↔ a.fresh = true := by
  have hsome : ([.kmalloc 512, .kmalloc 64, .kfree ⟨BLOCKS_START + 13, 512, BLOCKS_START, true⟩,
      .kmalloc 100].foldlM (fun s r => if Quiet s r then request s r else none)
        (start ⟨0, 0, 0⟩ fun _ => 0)).isSome := by decide +kernel
  obtain ⟨s, hs⟩ := Option.isSome_iff_exists.mp hsome
  have hrun := run_checked_of_foldlM hs
  exact ⟨s, hrun, live_frees_iff hrun⟩

/-- A block is made, freed and used again, and then it cannot be freed: what `kfree` takes for its
size is made of the checksum, and the footer would be at an address that is not even canonical. -/
theorem reused_not_freed :
    ∃ s a, Run (Checked Quiet (StepOf request)) (start ⟨0, 0, 0⟩ fun _ => 0)
        [.kmalloc 512, .kfree ⟨BLOCKS_START + 13, 512, BLOCKS_START, true⟩, .kmalloc 100] s ∧
      a ∈ s.live ∧ ¬ FreesOwnBlock s a ∧
      2 ^ 47 ≤ freeFooter s.heap.mem a.ptr ∧ freeFooter s.heap.mem a.ptr + 2 ^ 47 < WORD := by
  have hcomp : ([.kmalloc 512, .kfree ⟨BLOCKS_START + 13, 512, BLOCKS_START, true⟩,
      .kmalloc 100].foldlM (fun s r => if Quiet s r then request s r else none)
        (start ⟨0, 0, 0⟩ fun _ => 0)).map
      (fun s => (s.live, freeFooter s.heap.mem (BLOCKS_START + 8))) =
      some ([⟨BLOCKS_START + 8, 100, BLOCKS_START, false⟩], 0x20c008535dea9) := by decide +kernel
  obtain ⟨s, hs, heq⟩ := Option.map_eq_some_iff.mp hcomp
  obtain ⟨hlive, hfooter⟩ := Prod.mk.inj heq
  have hmem : (⟨BLOCKS_START + 8, 100, BLOCKS_START, false⟩ : Alloc) ∈ s.live := by
    rw [hlive]
    exact List.mem_cons_self
  have hrun := run_checked_of_foldlM hs
  obtain ⟨bs, howned⟩ := owned_of_run hrun
  refine ⟨s, _, hrun, hmem, fun hfrees => ?_, ?_⟩
  · exact Bool.false_ne_true ((howned.frees_iff hmem).mp hfrees)
  · show 2 ^ 47 ≤ freeFooter s.heap.mem (BLOCKS_START + 8) ∧
      freeFooter s.heap.mem (BLOCKS_START + 8) + 2 ^ 47 < WORD
    rw [hfooter]
    decide

end Twos.Heap
