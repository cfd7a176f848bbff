import Twos.Heap.Model
import Twos.Lib.Tiling

/-!
# The layout of the heap

What the bytes of the heap mean. A ghost list of blocks says which blocks there are, in the order of
their addresses; `Laid s bs` ties it to the three things the code keeps: the bytes of the headers
and footers, the bump pointer, and the ordered array. Every operation of the heap gets one lemma
that says what it does to the blocks, and nothing after this module looks at bytes again.

* `IsBlock.congr` and `Laid.congr` are the frame rules: bytes that are no header, no footer and not
  of the array may change.
* `Laid.update` is for a change of blocks where they lie, and `Laid.setAvail` the one that `kmalloc`
  and `kfree` make.
* `Laid.unique`, `Laid.mem_elements` and `Laid.length_lt` read the array as the list of blocks.
-/

namespace Twos.Heap

open Lib

/-! ## Blocks

A `Block` is what a header and a footer say, and `Laid` says of a memory that the blocks of a list
lie in it one behind the other, up to the end of the heap, with their headers in the array. Every
operation of the heap is described by what it does to that list.
-/

/-- A block: where its header is, how many bytes its payload has, and whether it can be used
again. -/
structure Block where
  hdr : Nat
  cap : Nat
  avail : Bool

/-- A block with its header and footer. -/
def Block.total (b : Block) : Nat := b.cap + (SIZEOF_HEADER + SIZEOF_FOOTER)

def Block.payload (b : Block) : Nat := b.hdr + SIZEOF_HEADER

def Block.footer (b : Block) : Nat := b.hdr + SIZEOF_HEADER + b.cap

/-- The byte belongs to the block's header or footer. -/
def Block.Meta (b : Block) (x : Nat) : Prop :=
  (b.hdr ≤ x ∧ x < b.hdr + SIZEOF_HEADER) ∨ (b.footer ≤ x ∧ x < b.footer + SIZEOF_FOOTER)

/-- The `available` byte. -/
def availByte (avail : Bool) : Byte := if avail then HEAP_HEAD_AVAILABLE else HEAP_HEAD_IN_USE

/-- Memory has the block's header and footer where they belong. -/
structure IsBlock (m : Memory) (b : Block) : Prop where
  crc : crc m b.hdr = HEAP_CRC
  available : available m b.hdr = availByte b.avail
  blockSize : blockSize m b.hdr = b.cap + SIZEOF_FOOTER
  footerCrc : Heap.crc m b.footer = HEAP_CRC
  footerHeader : footerHeader m b.footer = b.hdr

/-- Blocks start above the page of the array. -/
abbrev BLOCKS_START : Nat := HEAP_VIRT + PAGE_SIZE

/-- How many elements the array has room for. -/
abbrev MAX_ELEMENTS : Nat := (PAGE_SIZE - SIZEOF_OARRAY) / 8

/-- The heap is laid out as the blocks say. -/
structure Laid (s : HeapState) (bs : List Block) : Prop where
  allocs : s.allocs = HEAP_VIRT
  size : s.size = HEAP_SIZE
  maxElements : maxElements s.mem HEAP_VIRT = MAX_ELEMENTS
  tiles : Tiles Block.hdr Block.total BLOCKS_START bs s.addr
  top : s.addr ≤ HEAP_VIRT + HEAP_SIZE
  blocks : ∀ b ∈ bs, IsBlock s.mem b
  listed : (elements s.mem HEAP_VIRT).Perm (bs.map Block.hdr)
  sorted : (elements s.mem HEAP_VIRT).Pairwise fun a b => blockSize s.mem a ≤ blockSize s.mem b

variable {s s' : HeapState} {bs : List Block} {b c : Block} {m m' : Memory}

/-- A block is what its header's and footer's bytes say. -/
theorem IsBlock.congr (h : IsBlock m b) (hm : ∀ x, b.Meta x → m' x = m x) : IsBlock m' b := by
  have hhead : ∀ x, b.hdr ≤ x → x < b.hdr + 13 → m' x = m x := fun x hlo hhi =>
    hm x (Or.inl ⟨hlo, hhi⟩)
  have hfoot : ∀ x, b.footer ≤ x → x < b.footer + 12 → m' x = m x := fun x hlo hhi =>
    hm x (Or.inr ⟨hlo, hhi⟩)
  refine ⟨?_, ?_, ?_, ?_, ?_⟩
  · exact (load_congr fun x hlo hhi => hhead x (by omega) (by omega)).trans h.crc
  · exact (hhead _ (by omega) (by omega)).trans h.available
  · exact (load_congr fun x hlo hhi => hhead x (by omega) (by omega)).trans h.blockSize
  · exact (load_congr fun x hlo hhi => hfoot x (by omega) (by omega)).trans h.footerCrc
  · exact (load_congr fun x hlo hhi => hfoot x (by omega) (by omega)).trans h.footerHeader

/-- Writing the `available` byte of a block's header. -/
theorem IsBlock.setAvailable (h : IsBlock m b) (avail : Bool) :
    IsBlock (store m (b.hdr + 4) 1 (availByte avail).toNat) { b with avail } where
  crc := (load_store_disjoint (by dsimp only; omega)).trans h.crc
  available := by
    show store _ _ _ _ _ = _
    rw [store_head Nat.one_pos, BitVec.ofNat_toNat, BitVec.setWidth_eq]
  blockSize := (load_store_disjoint (by dsimp only; omega)).trans h.blockSize
  footerCrc := (load_store_disjoint (by simp only [Block.footer]; lia)).trans h.footerCrc
  footerHeader := (load_store_disjoint (by simp only [Block.footer]; lia)).trans h.footerHeader

/-! ## What a layout gives

A layout looks at the array and at the headers and footers, and at nothing else, so it survives any
change of other bytes (`Laid.congr`). The changes that matter are two: a block becomes available or
is taken into use (`Laid.setAvail`), and a block is added at the end, of which `Heap.Operations` has
the proof.
-/

theorem Laid.bounds (h : Laid s bs) (hb : b ∈ bs) :
    BLOCKS_START ≤ b.hdr ∧ b.hdr + b.total ≤ s.addr := h.tiles.bounds hb

theorem Block.total_pos (b : Block) : 0 < b.total := by
  unfold total
  lia

/-- Blocks with one header are one block. -/
theorem Laid.unique (h : Laid s bs) (hb : b ∈ bs) (hc : c ∈ bs) (heq : b.hdr = c.hdr) : b = c :=
  h.tiles.unique Block.total_pos hb hc heq

/-- The array lists the headers. -/
theorem Laid.mem_elements (h : Laid s bs) {e : Nat} :
    e ∈ elements s.mem HEAP_VIRT ↔ ∃ b ∈ bs, b.hdr = e := by
  rw [h.listed.mem_iff, List.mem_map]

theorem Laid.oarrayIdx_eq (h : Laid s bs) : oarrayIdx s.mem HEAP_VIRT = bs.length := by
  rw [← length_elements, h.listed.length_eq, List.length_map]

/-- The array never fills up: the heap has no room for so many blocks. -/
theorem Laid.length_lt (h : Laid s bs) : bs.length + 1 < MAX_ELEMENTS := by
  have hlen := h.tiles.length_le (k := 25) fun b => by
    unfold Block.total
    lia
  have htop := h.top
  lia

/-- The array's bytes lie below the blocks. -/
theorem Laid.array_below (h : Laid s bs) {x : Nat}
    (hx : InArray HEAP_VIRT (oarrayIdx s.mem HEAP_VIRT + 1) x) : x < BLOCKS_START := by
  have hlen := h.length_lt
  rw [h.oarrayIdx_eq] at hx
  unfold InArray at hx
  lia

/-- The part of the array that the heap can ever use stops short of its last byte. -/
theorem Laid.array_congr (h : Laid s bs)
    (hm : ∀ x, HEAP_VIRT ≤ x → x + 1 < BLOCKS_START → m' x = s.mem x) :
    oarrayIdx m' HEAP_VIRT = oarrayIdx s.mem HEAP_VIRT ∧
      Twos.maxElements m' HEAP_VIRT = MAX_ELEMENTS ∧
      elements m' HEAP_VIRT = elements s.mem HEAP_VIRT := by
  have hidx : oarrayIdx m' HEAP_VIRT = oarrayIdx s.mem HEAP_VIRT :=
    load_congr fun x hlo hhi => hm x (by lia) (by lia)
  refine ⟨hidx, ?_, ?_⟩
  · exact (load_congr fun x hlo hhi => hm x (by lia) (by lia)).trans h.maxElements
  · unfold elements
    rw [hidx]
    apply List.map_congr_left
    intro i hi
    have hlen := h.length_lt
    rw [List.mem_range, h.oarrayIdx_eq] at hi
    apply load_congr
    intro x hlo hhi
    unfold itemAddr at hlo hhi
    exact hm x (by lia) (by lia)

/-- Sizes that are the same have the same order. -/
theorem sorted_congr {f f' : Nat → Nat} {es : List Nat} (h : es.Pairwise fun a b => f a ≤ f b)
    (hsame : ∀ e ∈ es, f' e = f e) : es.Pairwise fun a b => f' a ≤ f' b := by
  refine h.imp_of_mem fun {a b} ha hb hab => ?_
  rw [hsame a ha, hsame b hb]
  exact hab

/-- The layout with other bytes, and blocks that differ in what is available. -/
theorem Laid.update (h : Laid s bs)
    (hm : ∀ x, HEAP_VIRT ≤ x → x + 1 < BLOCKS_START → m' x = s.mem x) {f : Block → Block}
    (hhdr : ∀ b, (f b).hdr = b.hdr) (hcap : ∀ b, (f b).cap = b.cap)
    (hblocks : ∀ b ∈ bs, IsBlock m' (f b)) : Laid { s with mem := m' } (bs.map f) := by
  obtain ⟨-, hmax, helements⟩ := h.array_congr hm
  have hmap : (bs.map f).map Block.hdr = bs.map Block.hdr := by
    rw [List.map_map]
    exact List.map_congr_left fun b _ => hhdr b
  refine ⟨h.allocs, h.size, hmax, ?_, h.top, ?_, ?_, ?_⟩
  · apply h.tiles.map hhdr
    intro b
    rw [Block.total, hcap, Block.total]
  · intro b hb
    obtain ⟨c, hc, rfl⟩ := List.mem_map.mp hb
    exact hblocks c hc
  · rw [hmap, helements]
    exact h.listed
  · rw [helements]
    apply sorted_congr h.sorted
    intro e he
    obtain ⟨b, hb, rfl⟩ := h.mem_elements.mp he
    have hnew := (hblocks b hb).blockSize
    rw [hhdr, hcap] at hnew
    rw [hnew, (h.blocks b hb).blockSize]

/-- The layout only looks at the array, except for its last byte, and at headers and footers. -/
theorem Laid.congr (h : Laid s bs)
    (hm : ∀ x, (HEAP_VIRT ≤ x ∧ x + 1 < BLOCKS_START) ∨ (∃ b ∈ bs, b.Meta x) → m' x = s.mem x) :
    Laid { s with mem := m' } bs := by
  have hsame := h.update (f := id) (fun x hlo hhi => hm x (Or.inl ⟨hlo, hhi⟩)) (fun _ => rfl)
    (fun _ => rfl) (fun b hb => (h.blocks b hb).congr fun x hx => hm x (Or.inr ⟨b, hb, hx⟩))
  rwa [List.map_id] at hsame

/-- The blocks after the one with header `hdr` became available, or was taken into use. -/
def withAvail (hdr : Nat) (avail : Bool) (bs : List Block) : List Block :=
  bs.map fun b => if b.hdr = hdr then { b with avail } else b

/-- Writing the `available` byte of a block. -/
theorem Laid.setAvail (h : Laid s bs) (hb : b ∈ bs) (avail : Bool) :
    Laid { s with mem := store s.mem (b.hdr + 4) 1 (availByte avail).toNat }
      (withAvail b.hdr avail bs) := by
  have hstart := (h.bounds hb).1
  apply h.update
  · intro x _ hx
    exact store_outside (by omega)
  · intro c
    split <;> rfl
  · intro c
    split <;> rfl
  · intro c hc
    -- the block itself
    split
    · next heq =>
      obtain rfl := h.unique hc hb heq
      exact (h.blocks c hc).setAvailable avail
    · -- any other lies apart from it
      next hne =>
      apply (h.blocks c hc).congr
      intro x hx
      apply store_outside
      simp only [Block.Meta, Block.footer] at hx
      rcases h.tiles.apart hb hc with rfl | hbc | hcb
      · exact absurd rfl hne
      · unfold Block.total at hbc
        lia
      · unfold Block.total at hcb
        lia

theorem Laid.getHeapEnd_eq (h : Laid s bs) : getHeapEnd s = HEAP_VIRT + HEAP_SIZE := by
  unfold getHeapEnd
  rw [h.size]
  rfl

theorem Laid.getHeapFree_eq (h : Laid s bs) :
    getHeapFree s = HEAP_VIRT + HEAP_SIZE - s.addr := by
  have htop := h.top
  unfold getHeapFree
  rw [h.getHeapEnd_eq]
  lia

end Twos.Heap
