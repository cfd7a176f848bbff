import Mathlib.Order.CompletePartialOrder
import Mathlib.Order.Interval.Set.Disjoint
import Twos.Heap.Operations

/-!
# Clients of the heap

Sessions of the heap as its clients see them: `kmalloc` and `kfree` calls, and bytes that a client
writes into what it was given. Every allocation remembers which block `_malloc` put in use for it,
and whether that block was new. What every session keeps is who owns which block: an allocation
that is live has a block in use to itself.

`Owned` is this invariant. `owned_kmalloc`, `owned_kfree` and `owned_write` are its steps; the last
holds only for clients that were given a new block, since the others can write into a header.
-/

namespace Twos.Heap

open Lib

/-- A result of `kmalloc(size)`. The header is that of the block that was put in use, and `fresh`
says that the block was made for it. -/
structure Alloc where
  ptr : Nat
  size : Nat
  hdr : Nat
  fresh : Bool
  deriving DecidableEq

/-- The payload that the client owns. -/
def Alloc.range (a : Alloc) : Set Nat := Set.Ico a.ptr (a.ptr + a.size)

/-! ## Sessions -/

/-- The heap and the allocations that are live. -/
structure Client where
  heap : HeapState
  live : List Alloc

inductive Request where
  | kmalloc (size : Nat)
  | kfree (a : Alloc)
  | write (a : Alloc) (offset value : Nat)

/-- One request. Sizes are such that adding a header and a footer does not wrap; a client frees only
what is live and writes only inside what it owns; there is no step out of a call that halts. -/
def request (s : Client) : Request → Option Client
  | .kmalloc size =>
      if size + 25 < WORD then
        match kmalloc s.heap size with
        | .ok (ptr, heap) =>
            some ⟨heap, ⟨ptr, size, blockFor s.heap size, !decide (Fits s.heap size)⟩ :: s.live⟩
        | .error _ => none
      else none
  | .kfree a =>
      if a ∈ s.live then
        match kfree s.heap a.ptr with
        | .ok heap => some ⟨heap, s.live.erase a⟩
        | .error _ => none
      else none
  | .write a offset value =>
      if a ∈ s.live ∧ offset < a.size then
        some { s with heap := { s.heap with mem := store s.heap.mem (a.ptr + offset) 1 value } }
      else none

/-- The heap has just been initialised. -/
def start (hooks : OarrayHooks) (m : Memory) : Client := ⟨kallocInit hooks m, []⟩

/-! ## What a request does -/

variable {s t : Client} {bs : List Block} {b : Block} {a : Alloc} {size offset value : Nat}

theorem request_kmalloc (h : request s (.kmalloc size) = some t) :
    size + 25 < WORD ∧ ∃ ptr heap, kmalloc s.heap size = .ok (ptr, heap) ∧
      t = ⟨heap, ⟨ptr, size, blockFor s.heap size, !decide (Fits s.heap size)⟩ :: s.live⟩ := by
  simp only [request] at h
  split at h
  · next hsize =>
    split at h
    · next ptr heap hrun => exact ⟨hsize, ptr, heap, hrun, (Option.some.inj h).symm⟩
    · cases h
  · cases h

theorem request_kfree (h : request s (.kfree a) = some t) :
    a ∈ s.live ∧ ∃ heap, kfree s.heap a.ptr = .ok heap ∧ t = ⟨heap, s.live.erase a⟩ := by
  simp only [request] at h
  split at h
  · next ha =>
    split at h
    · next heap hrun => exact ⟨ha, heap, hrun, (Option.some.inj h).symm⟩
    · cases h
  · cases h

theorem request_write (h : request s (.write a offset value) = some t) :
    (a ∈ s.live ∧ offset < a.size) ∧
      t = { s with heap := { s.heap with mem := store s.heap.mem (a.ptr + offset) 1 value } } := by
  simp only [request] at h
  split at h
  · next hown => exact ⟨hown, (Option.some.inj h).symm⟩
  · cases h

/-! ## Who owns which block

The sessions are ones in which every request is met with a new block. Then each live allocation has
a block to itself, in use, and its pointer points behind the header (`Owned`). Requests, frees and
the writes of the clients keep that, each for the reason that its own lemma names.
-/

/-- The allocation's block: in use, and where the pointer points into it. -/
structure Alloc.Has (a : Alloc) (b : Block) : Prop where
  hdr : b.hdr = a.hdr
  inUse : b.avail = false
  size : a.size ≤ b.cap
  ptr : a.ptr = if a.fresh then b.payload else b.hdr + SIZEOF_POINTER

/-- Every live allocation has a block to itself. -/
structure Owned (s : Client) (bs : List Block) : Prop where
  laid : Laid s.heap bs
  has : ∀ a ∈ s.live, ∃ b ∈ bs, a.Has b
  apart : s.live.Pairwise fun a c => a.hdr ≠ c.hdr

theorem owned_start (hooks : OarrayHooks) (m : Memory) : Owned (start hooks m) [] where
  laid := laid_init hooks m
  has := fun _ ha => absurd ha List.not_mem_nil
  apart := List.Pairwise.nil

/-- A block other than the one with header `hdr` stays as it is. -/
theorem mem_withAvail_of_ne {hdr : Nat} {avail : Bool} (hb : b ∈ bs) (hne : b.hdr ≠ hdr) :
    b ∈ withAvail hdr avail bs := by
  refine List.mem_map.mpr ⟨b, hb, ?_⟩
  rw [if_neg hne]

/-- Everyone else keeps the block they have. -/
theorem Owned.has_others {hdr : Nat} (h : Owned s bs) (avail : Bool) {c : Alloc} (hc : c ∈ s.live)
    (hne : c.hdr ≠ hdr) : ∃ b ∈ withAvail hdr avail bs, c.Has b := by
  obtain ⟨b, hb, hhas⟩ := h.has c hc
  exact ⟨b, mem_withAvail_of_ne hb (hhas.hdr ▸ hne), hhas⟩

theorem owned_kmalloc (h : Owned s bs) (hstep : request s (.kmalloc size) = some t) :
    ∃ bs', Owned t bs' := by
  obtain ⟨hsize, ptr, heap, hrun, rfl⟩ := request_kmalloc hstep
  rcases kmalloc_cases h.laid hsize hrun with
    ⟨hnone, hblock, hptr, hlaid⟩ | ⟨hfits, b, hb, havail, hcap, hblock, hptr, hlaid⟩
  · -- a new block
    refine ⟨_, hlaid, ?_, List.pairwise_cons.mpr ⟨?_, h.apart⟩⟩
    · intro a ha
      rcases List.mem_cons.mp ha with rfl | ha
      · refine ⟨_, List.mem_append_right _ List.mem_cons_self, hblock.symm, rfl,
          Nat.le_refl _, ?_⟩
        rw [hptr, decide_eq_false hnone]
        rfl
      · obtain ⟨b, hb, hhas⟩ := h.has a ha
        exact ⟨b, List.mem_append_left _ hb, hhas⟩
    · -- the new block lies behind all others
      intro a ha heq
      obtain ⟨b, hb, hhas⟩ := h.has a ha
      have hbounds := h.laid.bounds hb
      have hpos := b.total_pos
      have hhdr := hhas.hdr
      dsimp only at heq
      omega
  · -- a block that is used again was available, so nothing live had it
    have hother : ∀ a ∈ s.live, a.hdr ≠ b.hdr := by
      intro a ha heq
      obtain ⟨c, hc, hhas⟩ := h.has a ha
      obtain rfl := h.laid.unique hc hb (hhas.hdr.trans heq)
      rw [hhas.inUse] at havail
      cases havail
    refine ⟨_, hlaid, ?_, List.pairwise_cons.mpr ⟨?_, h.apart⟩⟩
    · intro a ha
      rcases List.mem_cons.mp ha with rfl | ha
      · refine ⟨{ b with avail := false }, List.mem_map.mpr ⟨b, hb, if_pos rfl⟩,
          hblock.symm, rfl, hcap, ?_⟩
        rw [hptr, decide_eq_true hfits]
        rfl
      · exact h.has_others false ha (hother a ha)
    · intro a ha
      rw [hblock]
      exact (hother a ha).symm

/-- What the others own does not depend on the allocation that is freed. -/
theorem Owned.erase_ne (h : Owned s bs) (ha : a ∈ s.live) :
    ∀ c ∈ s.live.erase a, c ∈ s.live ∧ c.hdr ≠ a.hdr := by
  intro c hc
  refine ⟨List.mem_of_mem_erase hc, ?_⟩
  have hperm := List.perm_cons_erase ha
  have hpair := (hperm.pairwise_iff (fun hne => Ne.symm hne)).mp h.apart
  exact ((List.pairwise_cons.mp hpair).1 c hc).symm

theorem owned_kfree (h : Owned s bs) (hstep : request s (.kfree a) = some t) :
    ∃ bs', Owned t bs' := by
  obtain ⟨ha, heap, hfree, rfl⟩ := request_kfree hstep
  have hapart : (s.live.erase a).Pairwise fun a c => a.hdr ≠ c.hdr :=
    h.apart.sublist List.erase_sublist
  obtain ⟨b, hb, hhas⟩ := h.has a ha
  have hptr := hhas.ptr
  cases hfresh : a.fresh with
  | true =>
      rw [hfresh, if_pos rfl] at hptr
      rw [hptr, kfree_payload h.laid hb] at hfree
      obtain rfl := Except.ok.inj hfree
      refine ⟨_, h.laid.setAvail hb true, fun c hc => ?_, hapart⟩
      obtain ⟨hc, hne⟩ := h.erase_ne ha c hc
      exact h.has_others true hc (hhas.hdr ▸ hne)
  | false =>
      rw [hfresh, if_neg Bool.false_ne_true] at hptr
      rw [hptr] at hfree
      -- the header is looked for in the wrong place, and if it is found there all the same,
      -- what changes is a byte of no block
      rcases kfree_reused h.laid hb with ⟨text, hrun⟩ | ⟨hfirst, hrun⟩
      · rw [hrun] at hfree
        cases hfree
      · rw [hrun] at hfree
        obtain rfl := Except.ok.inj hfree
        refine ⟨bs, h.laid.congr fun x hx => store_outside ?_, fun c hc => ?_, hapart⟩
        · rcases hx with hx | ⟨c, hc, hx⟩
          · omega
          · have := (h.laid.bounds hc).1
            simp only [Block.Meta, Block.footer] at hx
            lia
        · exact h.has c (h.erase_ne ha c hc).1

/-- Writing into the payload of a block leaves the layout alone. -/
theorem Laid.write {s : HeapState} (h : Laid s bs) (hb : b ∈ bs) {offset : Nat} (hoff : offset < b.cap)
    (value : Nat) : Laid { s with mem := store s.mem (b.payload + offset) 1 value } bs := by
  have hstart := (h.bounds hb).1
  apply h.congr
  intro x hx
  apply store_outside
  unfold Block.payload
  rcases hx with hx | ⟨c, hc, hx⟩
  · lia
  · simp only [Block.Meta, Block.footer] at hx
    rcases h.tiles.apart hb hc with rfl | hbc | hcb
    · lia
    · unfold Block.total at hbc
      lia
    · unfold Block.total at hcb
      lia

/-- A client whose block is new writes into its payload only. -/
theorem owned_write (h : Owned s bs) (hgood : a.fresh = true ∨ a.size = 0)
    (hstep : request s (.write a offset value) = some t) : Owned t bs := by
  obtain ⟨⟨ha, hoff⟩, rfl⟩ := request_write hstep
  obtain ⟨b, hb, hhas⟩ := h.has a ha
  rcases hgood with hfresh | hzero
  · have hptr := hhas.ptr
    have hsize := hhas.size
    rw [hfresh, if_pos rfl] at hptr
    refine ⟨?_, h.has, h.apart⟩
    rw [hptr]
    exact h.laid.write hb (by omega) value
  · omega

end Twos.Heap
