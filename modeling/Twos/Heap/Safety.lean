import Twos.Heap.Session

/-!
# Safety of payloads

What a client may expect of the memory it is given: that it lies in the heap, that no other live
client has any of it, and that none of the heap's own bytes are in it. A pointer to a new block
keeps this, whatever clients write into what they own. A pointer to a block that is used again lies
5 bytes too low, inside the block's header, so a session stays safe exactly as long as no request
for at least one byte finds a block to use again.

* `Owned.safe` draws the property from the layout, when all live allocations are in new blocks or
  empty; `Owned.unsafe_reuse` finds it broken right after a block has been used again.
* `heap_safe_iff` is about sessions: those of sparing requests are safe, and one more request keeps
  the session safe exactly if it is sparing.
-/

namespace Twos.Heap

open Lib

/-- The addresses of a header. -/
def headerRange (h : Nat) : Set Nat := Set.Ico h (h + SIZEOF_HEADER)

/-- The addresses of the footer that belongs to a header. -/
def footerRange (m : Memory) (h : Nat) : Set Nat :=
  Set.Ico (h + SIZEOF_HEADER + (blockSize m h - SIZEOF_FOOTER))
    (h + SIZEOF_HEADER + (blockSize m h - SIZEOF_FOOTER) + SIZEOF_FOOTER)

/-- The addresses of the array. -/
def arrayRange (m : Memory) (map : Nat) : Set Nat :=
  Set.Ico map (map + SIZEOF_OARRAY + 8 * maxElements m map)

/-- Every live payload is where a payload belongs, and belongs to its client alone. -/
structure Safe (s : Client) : Prop where
  inHeap : ∀ a ∈ s.live, a.range ⊆ Set.Ico BLOCKS_START (HEAP_VIRT + HEAP_SIZE)
  apart : s.live.Pairwise fun a c => Disjoint a.range c.range
  headers : ∀ a ∈ s.live, ∀ h ∈ elements s.heap.mem s.heap.allocs,
    Disjoint a.range (headerRange h)
  footers : ∀ a ∈ s.live, ∀ h ∈ elements s.heap.mem s.heap.allocs,
    Disjoint a.range (footerRange s.heap.mem h)
  array : ∀ a ∈ s.live, Disjoint a.range (arrayRange s.heap.mem s.heap.allocs)

/-- The requests that stay clear of blocks that are used again: those for no bytes, and those that
no available block is large enough for. -/
def Sparing (s : Client) : Request → Prop
  | .kmalloc size => size = 0 ∨ ¬ Fits s.heap size
  | _ => True

instance (s : Client) (request : Request) : Decidable (Sparing s request) :=
  match request with
  | .kmalloc size => inferInstanceAs (Decidable (size = 0 ∨ ¬ Fits s.heap size))
  | .kfree _ => isTrue trivial
  | .write _ _ _ => isTrue trivial

variable {s t : Client} {bs : List Block} {a : Alloc} {size : Nat}

/-- The invariant of sparing sessions: a payload with any bytes lies in a new block. -/
def AllFresh (s : Client) : Prop := ∀ a ∈ s.live, a.fresh = true ∨ a.size = 0

theorem allFresh_request {request : Request} (h : AllFresh s) (hgood : Sparing s request)
    (hstep : Heap.request s request = some t) : AllFresh t := by
  cases request with
  | kmalloc size =>
      obtain ⟨hsize, ptr, heap, hrun, rfl⟩ := request_kmalloc hstep
      intro a ha
      rcases List.mem_cons.mp ha with rfl | ha
      · rcases hgood with hzero | hnone
        · exact Or.inr hzero
        · rw [decide_eq_false hnone]
          exact Or.inl rfl
      · exact h a ha
  | kfree a =>
      obtain ⟨ha, heap, hrun, rfl⟩ := request_kfree hstep
      exact fun c hc => h c (List.mem_of_mem_erase hc)
  | write a offset value =>
      obtain ⟨hown, rfl⟩ := request_write hstep
      exact h

theorem owned_request {request : Request} (h : Owned s bs) (hfresh : AllFresh s)
    (hstep : Heap.request s request = some t) : ∃ bs', Owned t bs' := by
  cases request with
  | kmalloc size => exact owned_kmalloc h hstep
  | kfree a => exact owned_kfree h hstep
  | write a offset value =>
      obtain ⟨⟨ha, -⟩, -⟩ := request_write hstep
      exact ⟨bs, owned_write h (hfresh a ha) hstep⟩

/-- A payload with any bytes lies in the payload of its block. -/
theorem Alloc.Has.mem_range {b : Block} (h : a.Has b) (hfresh : a.fresh = true ∨ a.size = 0)
    {x : Nat} (hx : x ∈ a.range) : b.payload ≤ x ∧ x < b.payload + b.cap := by
  obtain ⟨hlo, hhi⟩ := hx
  have hsize := h.size
  rcases hfresh with hfresh | hzero
  · have hptr := h.ptr
    rw [hfresh, if_pos rfl] at hptr
    omega
  · omega

/-- Payloads in new blocks are safe. -/
theorem Owned.safe (h : Owned s bs) (hfresh : AllFresh s) : Safe s := by
  -- where an address of a payload is, as seen from any block
  have hplace : ∀ a ∈ s.live, ∀ x ∈ a.range, ∃ b ∈ bs, b.hdr = a.hdr ∧
      b.payload ≤ x ∧ x < b.payload + b.cap := by
    intro a ha x hx
    obtain ⟨b, hb, hhas⟩ := h.has a ha
    exact ⟨b, hb, hhas.hdr, hhas.mem_range (hfresh a ha) hx⟩
  -- no byte of a payload is in a header or a footer
  have hmeta : ∀ a ∈ s.live, ∀ x ∈ a.range, ∀ c ∈ bs, ¬ c.Meta x := by
    intro a ha x hx c hc hmeta
    obtain ⟨b, hb, -, hlo, hhi⟩ := hplace a ha x hx
    simp only [Block.Meta, Block.footer] at hmeta
    unfold Block.payload at hlo hhi
    rcases h.laid.tiles.apart hb hc with rfl | hbc | hcb
    · lia
    · unfold Block.total at hbc
      lia
    · unfold Block.total at hcb
      lia
  -- and all of them lie above the array
  have hregion : ∀ a ∈ s.live, a.range ⊆ Set.Ico BLOCKS_START (HEAP_VIRT + HEAP_SIZE) := by
    intro a ha x hx
    obtain ⟨b, hb, -, hlo, hhi⟩ := hplace a ha x hx
    have hbounds := h.laid.bounds hb
    have htop := h.laid.top
    unfold Block.payload at hlo hhi
    unfold Block.total at hbounds
    exact ⟨by lia, by lia⟩
  refine ⟨hregion, ?_, ?_, ?_, ?_⟩
  · -- two payloads, of two blocks
    refine h.apart.imp_of_mem fun {a c} ha hc hne => Set.disjoint_left.mpr fun x hxa hxc => ?_
    obtain ⟨b, hb, hbhdr, hlo, hhi⟩ := hplace a ha x hxa
    obtain ⟨d, hd, hdhdr, hlo', hhi'⟩ := hplace c hc x hxc
    unfold Block.payload at hlo hhi hlo' hhi'
    rcases h.laid.tiles.apart hb hd with rfl | hbd | hdb
    · exact hne (hbhdr.symm.trans hdhdr)
    · unfold Block.total at hbd
      lia
    · unfold Block.total at hdb
      lia
  · -- the headers,
    intro a ha e he
    rw [h.laid.allocs] at he
    obtain ⟨c, hc, rfl⟩ := h.laid.mem_elements.mp he
    exact Set.disjoint_left.mpr fun x hxa hx => hmeta a ha x hxa c hc (Or.inl hx)
  · -- the footers,
    intro a ha e he
    rw [h.laid.allocs] at he
    obtain ⟨c, hc, rfl⟩ := h.laid.mem_elements.mp he
    refine Set.disjoint_left.mpr fun x hxa hx => hmeta a ha x hxa c hc (Or.inr ?_)
    rwa [footerRange, (h.laid.blocks c hc).blockSize, Nat.add_sub_cancel] at hx
  · -- and the array
    intro a ha
    refine Set.disjoint_left.mpr fun x hxa hx => ?_
    have hlo := (hregion a ha hxa).1
    have hhi := hx.2
    rw [h.laid.allocs, h.laid.maxElements] at hhi
    lia

/-- A request for at least one byte that uses a block again is not safe. -/
theorem Owned.unsafe_reuse (h : Owned s bs) (hpos : 0 < size) (hfits : Fits s.heap size)
    (hstep : request s (.kmalloc size) = some t) : ¬ Safe t := by
  obtain ⟨hsize, ptr, heap, hrun, rfl⟩ := request_kmalloc hstep
  rcases kmalloc_cases h.laid hsize hrun with
    ⟨hnone, -⟩ | ⟨-, b, hb, -, -, -, hptr, hlaid⟩
  · exact absurd hfits hnone
  · intro hsafe
    have hlisted : b.hdr ∈ elements heap.mem heap.allocs := by
      rw [hlaid.allocs, hlaid.mem_elements]
      refine ⟨_, List.mem_map_of_mem hb, ?_⟩
      split <;> rfl
    have hdisj := hsafe.headers _ List.mem_cons_self b.hdr hlisted
    have hin : ptr ∈ Set.Ico ptr (ptr + size) := ⟨Nat.le_refl _, Nat.lt_add_of_pos_right hpos⟩
    exact Set.disjoint_left.mp hdisj hin ⟨by lia, by lia⟩

/-! ## Sessions

Safety comes from the ownership of blocks: no allocation overlaps another, or what the heap keeps
for itself. A request that takes a block again is where it ends, because the pointer it gets lies in
the header.
-/

/-- Every session of sparing requests is safe, and it stays safe after one more allocation exactly
when that request is sparing too. -/
theorem heap_safe_iff {hooks : OarrayHooks} {m : Memory} {requests : List Request} {s : Client}
    (hrun : Run (Checked Sparing (StepOf request)) (start hooks m) requests s) :
    Safe s ∧ ∀ size t, request s (.kmalloc size) = some t →
      (Safe t ↔ Sparing s (.kmalloc size)) := by
  have hinv : (∃ bs, Owned s bs) ∧ AllFresh s := by
    refine Run.invariant (fun s => (∃ bs, Owned s bs) ∧ AllFresh s) ?_ ?_ hrun
    · exact ⟨⟨[], owned_start hooks m⟩, fun a ha => absurd ha List.not_mem_nil⟩
    · rintro s request t ⟨⟨bs, howned⟩, hfresh⟩ ⟨hgood, hstep⟩
      exact ⟨owned_request howned hfresh hstep, allFresh_request hfresh hgood hstep⟩
  obtain ⟨⟨bs, howned⟩, hfresh⟩ := hinv
  refine ⟨howned.safe hfresh, fun size t hstep => ⟨fun hsafe => ?_, fun hgood => ?_⟩⟩
  · by_cases hfits : Fits s.heap size
    · left
      apply Nat.eq_zero_of_not_pos
      intro hpos
      exact howned.unsafe_reuse hpos hfits hstep hsafe
    · exact Or.inr hfits
  · obtain ⟨bs', howned'⟩ := owned_kmalloc howned hstep
    exact howned'.safe (allFresh_request hfresh hgood hstep)

/-- The first allocation of a session that asks for 512 bytes. -/
def first : Alloc := ⟨BLOCKS_START + 13, 512, BLOCKS_START, true⟩

/-- A heap in memory that is all zeros. -/
def zeroed : Client := start ⟨0, 0, 0⟩ fun _ => 0

/-- A block is made, written to and freed, and the next request is too large for it. -/
theorem heap_safe_larger :
    ∃ s, Run (Checked Sparing (StepOf request)) zeroed
        [.kmalloc 512, .write first 511 0xff, .kmalloc 64, .kfree first, .kmalloc 600] s ∧
      Safe s ∧ ∀ size t, request s (.kmalloc size) = some t →
        (Safe t ↔ Sparing s (.kmalloc size)) := by
  have hsome : ([.kmalloc 512, .write first 511 0xff, .kmalloc 64, .kfree first,
      .kmalloc 600].foldlM (fun s r => if Sparing s r then request s r else none)
        zeroed).isSome := by decide +kernel
  obtain ⟨s, hs⟩ := Option.isSome_iff_exists.mp hsome
  have hrun := run_checked_of_foldlM hs
  exact ⟨s, hrun, heap_safe_iff hrun⟩

/-- A block is made and freed, and the next request is small enough for it. -/
theorem heap_not_safe :
    ∃ s, Run (StepOf request) zeroed [.kmalloc 512, .kfree first, .kmalloc 100] s ∧ ¬ Safe s := by
  have hcomp : ([.kmalloc 512, .kfree first, .kmalloc 100].foldlM request zeroed).map
      (fun s => (s.live, elements s.heap.mem s.heap.allocs)) =
      some ([⟨BLOCKS_START + 8, 100, BLOCKS_START, false⟩], [BLOCKS_START]) := by decide +kernel
  obtain ⟨s, hs, heq⟩ := Option.map_eq_some_iff.mp hcomp
  obtain ⟨hlive, helements⟩ := Prod.mk.inj heq
  refine ⟨s, run_of_foldlM hs, fun hsafe => ?_⟩
  have hdisj := hsafe.headers ⟨BLOCKS_START + 8, 100, BLOCKS_START, false⟩
    (by rw [hlive]; exact List.mem_cons_self) BLOCKS_START
    (by rw [helements]; exact List.mem_cons_self)
  have hin : BLOCKS_START + 8 ∈ Set.Ico (BLOCKS_START + 8) (BLOCKS_START + 8 + 100) :=
    ⟨Nat.le_refl _, by decide⟩
  exact Set.disjoint_left.mp hdisj hin ⟨by decide, by decide⟩

end Twos.Heap
