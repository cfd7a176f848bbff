import Twos.Heap.Operations

/-!
# The structure of the heap

Three things describe the same blocks: the bytes from `HEAP_VIRT + PAGE_SIZE` up, the bump pointer
`heap.addr`, and the ordered array `heap.allocs`. They agree after every run of `kmalloc` and
`kfree` calls, whatever pointers that `kmalloc` has returned are freed, and however often, until a
call halts the machine.

`Agree` says so in the terms of the code, and `Laid.agree` draws it from the layout. The invariant of
a run is that there are blocks that are laid out and that every pointer returned so far points 13 or
8 bytes behind a header (`Points`); `inv_kmalloc` and `inv_kfree` are its steps, and
`heap_structured` is the result.
-/

namespace Twos.Heap

open Lib

/-- The bytes, the bump pointer and the array describe the same blocks. -/
structure Agree (s : HeapState) (bs : List Block) : Prop where
  tiles : Tiles Block.hdr Block.total BLOCKS_START bs s.addr
  blocks : ∀ b ∈ bs, IsBlock s.mem b
  top : s.addr ≤ getHeapEnd s
  listed : (elements s.mem s.allocs).Perm (bs.map Block.hdr)
  once : (elements s.mem s.allocs).Nodup
  sorted : (elements s.mem s.allocs).Pairwise fun a b => blockSize s.mem a ≤ blockSize s.mem b

/-- There are blocks that the heap's three descriptions agree on. -/
def Structured (s : HeapState) : Prop := ∃ bs, Agree s bs

/-! ## Runs -/

/-- The heap, and every pointer that `kmalloc` has returned so far. -/
structure Session where
  heap : HeapState
  returned : List Nat

inductive Call where
  | kmalloc (size : Nat)
  | kfree (p : Nat)

/-- One call. Sizes are such that adding a header and a footer does not wrap, and only what was
returned is freed; a call that halts the machine makes no step. -/
def step (s : Session) : Call → Option Session
  | .kmalloc size =>
      if size + 25 < WORD then
        match kmalloc s.heap size with
        | .ok (p, heap) => some ⟨heap, p :: s.returned⟩
        | .error _ => none
      else none
  | .kfree p =>
      if p ∈ s.returned then
        match kfree s.heap p with
        | .ok heap => some ⟨heap, s.returned⟩
        | .error _ => none
      else none

variable {s t : HeapState} {bs : List Block} {b : Block}

/-! ## What the calls keep

Any pointer that was ever returned may be freed, live or not. For a new block it finds the header
and the footer; for a block that was used again it may change a byte anywhere, and the invariant
says which pointers there are (`Points`), so that their frees can be followed.
-/

theorem Laid.agree (h : Laid s bs) : Agree s bs where
  tiles := h.tiles
  blocks := h.blocks
  top := by
    rw [h.getHeapEnd_eq]
    exact h.top
  listed := by
    rw [h.allocs]
    exact h.listed
  once := by
    rw [h.allocs, h.listed.nodup_iff, List.Nodup, List.pairwise_map]
    refine h.tiles.pairwise.imp fun {b c} hbc heq => ?_
    have := b.total_pos
    omega
  sorted := by
    rw [h.allocs]
    exact h.sorted

/-- A pointer that `kmalloc` may have returned for one of the blocks. -/
def Points (bs : List Block) (p : Nat) : Prop :=
  ∃ b ∈ bs, p = b.payload ∨ p = b.hdr + SIZEOF_POINTER

theorem Points.append {p : Nat} (h : Points bs p) (c : Block) : Points (bs ++ [c]) p := by
  obtain ⟨b, hb, hp⟩ := h
  exact ⟨b, List.mem_append_left _ hb, hp⟩

/-- What is available makes no difference to pointers. -/
theorem Points.withAvail {p : Nat} (h : Points bs p) (hdr : Nat) (avail : Bool) :
    Points (withAvail hdr avail bs) p := by
  obtain ⟨b, hb, hp⟩ := h
  refine ⟨_, List.mem_map_of_mem hb, ?_⟩
  split
  · exact hp
  · exact hp

/-- The invariant of runs: the layout, and where the returned pointers point. -/
def Inv (s : Session) : Prop :=
  ∃ bs, Laid s.heap bs ∧ ∀ p ∈ s.returned, Points bs p

theorem inv_init (hooks : OarrayHooks) (m : Memory) : Inv ⟨kallocInit hooks m, []⟩ :=
  ⟨[], laid_init hooks m, fun _ hp => absurd hp List.not_mem_nil⟩

theorem inv_kmalloc {s t : Session} (h : Inv s) {size : Nat}
    (hstep : step s (.kmalloc size) = some t) : Inv t := by
  obtain ⟨bs, hlaid, hpoints⟩ := h
  simp only [step] at hstep
  split at hstep
  · next hsize =>
    split at hstep
    · next p heap hrun =>
      cases hstep
      rcases kmalloc_cases hlaid hsize hrun with
        ⟨-, -, hptr, hlaid'⟩ | ⟨-, b, hb, -, -, -, hptr, hlaid'⟩
      · refine ⟨_, hlaid', fun q hq => ?_⟩
        rcases List.mem_cons.mp hq with rfl | hq
        · exact ⟨_, List.mem_append_right _ List.mem_cons_self, Or.inl hptr⟩
        · exact (hpoints q hq).append _
      · refine ⟨_, hlaid', fun q hq => ?_⟩
        rcases List.mem_cons.mp hq with rfl | hq
        · exact Points.withAvail ⟨b, hb, Or.inr hptr⟩ _ _
        · exact (hpoints q hq).withAvail _ _
    · cases hstep
  · cases hstep

theorem inv_kfree {s t : Session} (h : Inv s) {p : Nat} (hstep : step s (.kfree p) = some t) :
    Inv t := by
  obtain ⟨bs, hlaid, hpoints⟩ := h
  simp only [step] at hstep
  split at hstep
  · next hp =>
    obtain ⟨b, hb, hpayload | hreused⟩ := hpoints p hp
    · rw [hpayload, kfree_payload hlaid hb] at hstep
      cases hstep
      exact ⟨_, hlaid.setAvail hb true, fun q hq => (hpoints q hq).withAvail _ _⟩
    · rw [hreused] at hstep
      rcases kfree_reused hlaid hb with ⟨text, hrun⟩ | ⟨hfirst, hrun⟩
      · rw [hrun] at hstep
        cases hstep
      · rw [hrun] at hstep
        cases hstep
        -- the byte that was written is the last of the array's page, which nothing uses
        refine ⟨bs, hlaid.congr fun x hx => store_outside ?_, hpoints⟩
        rcases hx with hx | ⟨c, hc, hx⟩
        · omega
        · have := (hlaid.bounds hc).1
          simp only [Block.Meta, Block.footer] at hx
          lia
  · cases hstep

/-- After every run of the heap, from any memory, its three descriptions agree. -/
theorem heap_structured {hooks : OarrayHooks} {m : Memory} {calls : List Call} {s : Session}
    (hrun : Run (StepOf step) ⟨kallocInit hooks m, []⟩ calls s) : Structured s.heap := by
  have hinv : Inv s := by
    refine Run.invariant Inv (inv_init hooks m) ?_ hrun
    intro s call t h hstep
    cases call with
    | kmalloc size => exact inv_kmalloc h hstep
    | kfree p => exact inv_kfree h hstep
  obtain ⟨bs, hlaid, -⟩ := hinv
  exact ⟨bs, hlaid.agree⟩

/-- Two blocks are made, the first is freed twice, and used again. -/
theorem heap_structured_reuse :
    ∃ s, Run (StepOf step) ⟨kallocInit ⟨0, 0, 0⟩ (fun _ => 0), []⟩
        [.kmalloc 512, .kmalloc 64, .kfree (BLOCKS_START + 13), .kfree (BLOCKS_START + 13),
          .kmalloc 100] s ∧ Structured s.heap := by
  have hsome : ([.kmalloc 512, .kmalloc 64, .kfree (BLOCKS_START + 13),
      .kfree (BLOCKS_START + 13), .kmalloc 100].foldlM step
        ⟨kallocInit ⟨0, 0, 0⟩ (fun _ => 0), []⟩).isSome := by decide +kernel
  obtain ⟨s, hs⟩ := Option.isSome_iff_exists.mp hsome
  exact ⟨s, run_of_foldlM hs, heap_structured (run_of_foldlM hs)⟩

end Twos.Heap
