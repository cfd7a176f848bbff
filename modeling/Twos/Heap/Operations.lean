import Twos.Heap.Layout

/-!
# What the heap's operations do to its blocks

One lemma for each operation, in terms of the blocks: `kalloc_init` starts with none, `kmalloc`
either appends one or takes an available one into use, and `kfree` of a pointer 13 bytes behind a
header makes that block available. The last is what the heap is built for; the other pointer that
`kmalloc` hands out lies 8 bytes behind a header, and `kfree` of that one finds its assertions
false, or, for the lowest block, writes a byte that belongs to no block.

* `findBestFreeSpace_first` is the search, in the order of the array; `findBestFreeSpace_spec` says
  the same of the blocks.
* `createHeapBlock_spec` has the bytes of a new block and `insert_laid` its place in the array, and
  the two make `mallocNew_spec`.
* `kmalloc_cases` has the two ways in which `kmalloc` returns. `kfree_payload` and `kfree_reused` are
  `kfree` of the one pointer and of the other.
-/

namespace Twos.Heap

open Lib

variable {s s' : HeapState} {bs : List Block} {b : Block} {m m' : Memory} {size : Nat}

/-! ## Initialisation -/

theorem laid_init (hooks : OarrayHooks) (m : Memory) : Laid (kallocInit hooks m) [] := by
  have hidx : oarrayIdx (kallocInit hooks m).mem HEAP_VIRT = 0 := load_store_same (by decide)
  have helements : elements (kallocInit hooks m).mem HEAP_VIRT = [] := by
    rw [elements, hidx]
    rfl
  refine ⟨rfl, rfl, ?_, rfl, ?_, fun b hb => absurd hb List.not_mem_nil, ?_, ?_⟩
  · show load (store _ _ _ _) _ _ = _
    rw [load_store_disjoint (by lia), load_store_same (by decide)]
    rfl
  · show (HEAP_VIRT + PAGE_SIZE) % WORD ≤ HEAP_VIRT + HEAP_SIZE
    decide
  · rw [helements]
    exact List.Perm.refl _
  · rw [helements]
    exact List.Pairwise.nil

/-! ## The search

`find_best_free_space` goes through the array and computes from memory what the blocks of the layout
already say (`searchStep_eq`). So it is a search through the list of blocks, which stops at the
first one that suits.
-/

/-- A listed header is not null, and its block's capacity is what the search computes. -/
theorem Laid.capacity (h : Laid s bs) (hb : b ∈ bs) :
    b.hdr ≠ 0 ∧ b.hdr < WORD ∧ (blockSize s.mem b.hdr + (WORD - SIZEOF_FOOTER)) % WORD = b.cap := by
  obtain ⟨hlo, hhi⟩ := h.bounds hb
  have htop := h.top
  rw [(h.blocks b hb).blockSize]
  unfold Block.total at hhi
  exact ⟨by lia, by lia, by lia⟩

theorem Laid.available_iff (h : Laid s bs) (hb : b ∈ bs) :
    available s.mem b.hdr = HEAP_HEAD_AVAILABLE ↔ b.avail = true := by
  rw [(h.blocks b hb).available]
  cases b.avail with
  | true => exact iff_of_true rfl rfl
  | false => exact iff_of_false (by decide) Bool.false_ne_true

/-- `block_size` without the footer. -/
def capacity (m : Memory) (h : Nat) : Nat := blockSize m h - SIZEOF_FOOTER

/-- The block is available and has room for `size` bytes. -/
def Suits (m : Memory) (size h : Nat) : Prop :=
  available m h = HEAP_HEAD_AVAILABLE ∧ size ≤ capacity m h

theorem Laid.suits_iff (h : Laid s bs) (hb : b ∈ bs) :
    Suits s.mem size b.hdr ↔ b.avail = true ∧ size ≤ b.cap := by
  rw [Suits, h.available_iff hb, Heap.capacity, (h.blocks b hb).blockSize, Nat.add_sub_cancel]

/-- The items of the array are the headers of the blocks. -/
theorem Laid.block_at (h : Laid s bs) {i : Nat} (hi : i < oarrayIdx s.mem s.allocs) :
    ∃ b ∈ bs, b.hdr = item s.mem s.allocs i := by
  have hmem : item s.mem HEAP_VIRT i ∈ elements s.mem HEAP_VIRT :=
    List.mem_map_of_mem (List.mem_range.mpr (h.allocs ▸ hi))
  rw [h.allocs]
  exact h.mem_elements.mp hmem

/-- What the search looks at is whether a block suits. -/
theorem searchStep_eq (h : Laid s bs) {i : Nat} (hi : i < oarrayIdx s.mem s.allocs)
    (u : Unit) : (Suits s.mem size (item s.mem s.allocs i) →
        searchStep s size i u = .error (.space i)) ∧
      (¬ Suits s.mem size (item s.mem s.allocs i) → searchStep s size i u = .ok ()) := by
  obtain ⟨b, hb, heq⟩ := h.block_at hi
  obtain ⟨hnull, -, hcap⟩ := h.capacity hb
  have hget : oarrayGet s.mem s.allocs i = b.hdr := by
    rw [oarrayGet, if_neg (by omega), heq]
  rw [← heq, h.suits_iff hb, ← h.available_iff hb]
  simp only [searchStep, hget, if_neg hnull, hcap]
  constructor
  · rintro ⟨havail, hfits⟩
    rw [if_pos havail, if_pos hfits]
  · intro hnot
    split
    · next havail =>
      split
      · next hfits => exact absurd ⟨havail, hfits⟩ hnot
      · rfl
    · rfl

/-- The search stops at the first block that suits. -/
theorem findBestFreeSpace_first (h : Laid s bs) (size : Nat) :
    (findBestFreeSpace s size = .ok none ∧
        ∀ i, i < oarrayIdx s.mem s.allocs → ¬ Suits s.mem size (item s.mem s.allocs i)) ∨
      ∃ i, findBestFreeSpace s size = .ok (some i) ∧ i < oarrayIdx s.mem s.allocs ∧
        Suits s.mem size (item s.mem s.allocs i) ∧
        ∀ j, j < i → ¬ Suits s.mem size (item s.mem s.allocs j) := by
  have hloop : Outcome
      (fun _ => ∀ i, i < oarrayIdx s.mem s.allocs → ¬ Suits s.mem size (item s.mem s.allocs i))
      (fun exit => ∃ i, exit = .space i ∧ i < oarrayIdx s.mem s.allocs ∧
        Suits s.mem size (item s.mem s.allocs i) ∧
        ∀ j, j < i → ¬ Suits s.mem size (item s.mem s.allocs j))
      (forLt (searchStep s size) (oarrayIdx s.mem s.allocs) ()) := by
    apply forLt_rule (fun n _ => ∀ i, i < n → ¬ Suits s.mem size (item s.mem s.allocs i))
    · exact fun i hi => absurd hi (Nat.not_lt_zero _)
    · intro i hi u hbefore
      obtain ⟨hstop, hgo⟩ := @searchStep_eq _ _ size h _ hi u
      by_cases hsuits : Suits s.mem size (item s.mem s.allocs i)
      · rw [hstop hsuits]
        exact ⟨i, rfl, hi, hsuits, hbefore⟩
      · rw [hgo hsuits]
        intro j hj
        rcases Nat.lt_or_eq_of_le (Nat.le_of_lt_succ hj) with hlt | rfl
        · exact hbefore j hlt
        · exact hsuits
  unfold findBestFreeSpace
  split
  · next hempty =>
    exact Or.inl ⟨rfl, fun i hi => by omega⟩
  · match hrun : forLt (searchStep s size) (oarrayIdx s.mem s.allocs) (), hloop with
    | .ok (), hnone => exact Or.inl ⟨rfl, hnone⟩
    | .error _, ⟨i, rfl, hi, hsuits, hbefore⟩ => exact Or.inr ⟨i, rfl, hi, hsuits, hbefore⟩

/-- In terms of the blocks: the search finds an available one that is large enough, if there is one. -/
theorem findBestFreeSpace_spec (h : Laid s bs) (size : Nat) :
    (findBestFreeSpace s size = .ok none ∧ ∀ b ∈ bs, b.avail = true → b.cap < size) ∨
      ∃ i b, findBestFreeSpace s size = .ok (some i) ∧ b ∈ bs ∧ b.avail = true ∧ size ≤ b.cap ∧
        oarrayGet s.mem s.allocs i = b.hdr := by
  rcases findBestFreeSpace_first h size with ⟨hfind, hnone⟩ | ⟨i, hfind, hi, hsuits, -⟩
  · refine Or.inl ⟨hfind, fun b hb havail => Nat.lt_of_not_le fun hfits => ?_⟩
    obtain ⟨i, hi, hitem⟩ := List.mem_map.mp (h.mem_elements.mpr ⟨b, hb, rfl⟩)
    rw [List.mem_range, ← h.allocs] at hi
    rw [← h.allocs] at hitem
    exact hnone i hi (hitem ▸ (h.suits_iff hb).mpr ⟨havail, hfits⟩)
  · obtain ⟨b, hb, heq⟩ := h.block_at hi
    rw [← heq, h.suits_iff hb] at hsuits
    exact Or.inr ⟨i, b, hfind, hb, hsuits.1, hsuits.2, by rw [oarrayGet, if_neg (by omega), heq]⟩

/-! ## New blocks

A new block is written behind all others, in free memory, so that the blocks before it stay what
they are (`Laid.blocks_snoc`). Its header then goes into the array at its place in the order of the
sizes; that the array is sorted by the sizes of blocks and not by addresses is `Laid.sorted_insert`.
-/

theorem createHeapBlock_spec {addr size : Nat}
    (hroom : addr + size + (SIZEOF_HEADER + SIZEOF_FOOTER) ≤ getHeapEnd s) :
    ∃ m, createHeapBlock s addr size =
        .ok (addr + size + (SIZEOF_HEADER + SIZEOF_FOOTER), m) ∧
      IsBlock m ⟨addr, size, false⟩ ∧
      ∀ x, ¬ Block.Meta ⟨addr, size, false⟩ x → m x = s.mem x := by
  have hend : getHeapEnd s < WORD := Nat.mod_lt _ (by decide)
  have hfooter : (addr + size + SIZEOF_HEADER) % WORD = addr + SIZEOF_HEADER + size := by lia
  have hsize : (size + SIZEOF_FOOTER) % WORD = size + SIZEOF_FOOTER := by lia
  have htop : (addr + SIZEOF_HEADER + size + SIZEOF_FOOTER) % WORD =
      addr + size + (SIZEOF_HEADER + SIZEOF_FOOTER) := by lia
  have hassert : addr + SIZEOF_HEADER + size < getHeapEnd s := by lia
  simp only [createHeapBlock, hfooter, hsize, htop, assert, hassert, decide_true, if_true, ok_seq]
  refine ⟨_, rfl, ⟨?_, ?_, ?_, ?_, ?_⟩, ?_⟩
  · -- the later stores lie behind the checksum
    show load (store _ _ _ _) _ _ = _
    rw [load_store_disjoint (by dsimp only; lia), createHeapFooter]
    rw [load_store_disjoint (by dsimp only; lia), load_store_disjoint (by dsimp only; lia),
      createHeapHeader, load_store_disjoint (by dsimp only; lia)]
    exact load_store_same (by decide)
  · -- the available byte lies between the checksum and the size
    show store _ _ _ _ _ = _
    rw [store_outside (by dsimp only; lia), createHeapFooter]
    rw [store_outside (by dsimp only; lia), store_outside (by dsimp only; lia)]
    exact store_head Nat.one_pos
  · exact load_store_same (by lia)
  · -- the footer's checksum, in front of the back pointer
    show load (store _ _ _ _) _ _ = _
    rw [Block.footer, load_store_disjoint (by dsimp only; lia), createHeapFooter]
    rw [load_store_disjoint (by dsimp only; lia)]
    exact load_store_same (by decide)
  · show load (store _ _ _ _) _ _ = _
    rw [Block.footer, load_store_disjoint (by dsimp only; lia)]
    exact load_store_same (by lia)
  · -- none of the four stores is to a byte that is not header or footer
    intro x hx
    simp only [Block.Meta, Block.footer, not_or, not_and, Nat.not_lt] at hx
    rw [store_outside (by lia), createHeapFooter]
    rw [store_outside (by lia), store_outside (by lia), createHeapHeader]
    rw [store_outside (by lia), store_outside (by lia)]

/-- The blocks stay what they are when one is made behind them. -/
theorem Laid.blocks_snoc (h : Laid s bs) (hblock : IsBlock m ⟨s.addr, size, false⟩)
    (hbelow : ∀ x, x < s.addr → m x = s.mem x) :
    ∀ b ∈ bs ++ [⟨s.addr, size, false⟩], BLOCKS_START ≤ b.hdr ∧ IsBlock m b := by
  intro b hb
  rcases List.mem_append.mp hb with hb | hb
  · have hbounds := h.bounds hb
    refine ⟨hbounds.1, (h.blocks b hb).congr fun x hx => hbelow x ?_⟩
    simp only [Block.Meta, Block.footer] at hx
    simp only [Block.total] at hbounds
    lia
  · rw [List.mem_singleton.mp hb]
    exact ⟨h.tiles.le, hblock⟩

/-- The array is sorted by the sizes that the blocks have, before and after. -/
theorem Laid.sorted_insert (h : Laid s bs) (hold : ∀ b ∈ bs, IsBlock m b) {e k : Nat}
    (hpos : InsertsAt (fun x => allocGreater m x e) (elements s.mem HEAP_VIRT) k) :
    ((elements s.mem HEAP_VIRT).take k ++ e :: (elements s.mem HEAP_VIRT).drop k).Pairwise
      fun a b => blockSize m a ≤ blockSize m b := by
  apply InsertsAt.sorted hpos
  apply sorted_congr h.sorted
  intro e he
  obtain ⟨c, hc, rfl⟩ := h.mem_elements.mp he
  rw [(hold c hc).blockSize, (h.blocks c hc).blockSize]

/-- Adding the header of a block that has just been made behind all others to the array. -/
theorem insert_laid (h : Laid s bs)
    (hroom : s.addr + size + (SIZEOF_HEADER + SIZEOF_FOOTER) ≤ HEAP_VIRT + HEAP_SIZE)
    (hblock : IsBlock m ⟨s.addr, size, false⟩)
    (hframe : ∀ x, ¬ Block.Meta ⟨s.addr, size, false⟩ x → m x = s.mem x) :
    ∃ m', oarrayInsert allocGreater m HEAP_VIRT s.addr = .ok (s.addr, m') ∧
      Laid { s with mem := m', addr := s.addr + size + (SIZEOF_HEADER + SIZEOF_FOOTER) }
        (bs ++ [⟨s.addr, size, false⟩]) := by
  have hstart := h.tiles.le
  have hlen := h.length_lt
  have hbelow : ∀ x, x < s.addr → m x = s.mem x := by
    intro x hx
    apply hframe
    simp only [Block.Meta, Block.footer]
    lia
  obtain ⟨hidx, hmax, hitems⟩ := h.array_congr fun x _ hx => hbelow x (by omega)
  have hall := h.blocks_snoc hblock hbelow
  have hfits : oarrayIdx m HEAP_VIRT < maxElements m HEAP_VIRT := by
    rw [hidx, hmax, h.oarrayIdx_eq]
    omega
  have haddr : s.addr < WORD := by lia
  obtain ⟨m', k, hinsert, hpos, hnew, hframe'⟩ := oarrayInsert_spec allocGreater hfits haddr
  rw [hidx] at hframe'
  rw [hitems] at hpos hnew
  have habove : ∀ x, BLOCKS_START ≤ x → m' x = m x := by
    intro x hx
    apply hframe'
    intro harray
    have := h.array_below harray
    omega
  have hlisted : (elements m' HEAP_VIRT).Perm
      ((bs ++ [Block.mk s.addr size false]).map Block.hdr) := by
    rw [hnew, List.map_append]
    refine (insert_perm _ _ _).trans ?_
    refine (List.Perm.cons _ h.listed).trans ?_
    exact (List.perm_append_singleton _ _).symm
  refine ⟨m', hinsert, ⟨h.allocs, h.size, ?_, ?_, hroom, ?_, hlisted, ?_⟩⟩
  · refine (load_congr fun x _ hx => hframe' x ?_).trans hmax
    unfold InArray
    lia
  · -- the new block lies where the last one ended
    have htiles := h.tiles.snoc (show Block.hdr ⟨s.addr, size, false⟩ = s.addr from rfl)
    rwa [Block.total, ← Nat.add_assoc] at htiles
  · -- the array lies below all blocks
    intro b hb
    obtain ⟨hlo, hold⟩ := hall b hb
    apply hold.congr
    intro x hx
    simp only [Block.Meta, Block.footer] at hx
    exact habove x (by lia)
  · -- the insertion does not change the sizes
    have hsorted := h.sorted_insert (fun b hb => (hall b (List.mem_append_left _ hb)).2) hpos
    rw [← hnew] at hsorted
    apply sorted_congr hsorted
    intro e he
    obtain ⟨b, hb, rfl⟩ := List.mem_map.mp (hlisted.mem_iff.mp he)
    have := (hall b hb).1
    exact load_congr fun x hx _ => habove x (by omega)

/-- A new block goes to the end of the heap, in use, while there is room. -/
theorem mallocNew_room (h : Laid s bs)
    (hroom : s.addr + size + (SIZEOF_HEADER + SIZEOF_FOOTER) ≤ HEAP_VIRT + HEAP_SIZE) :
    ∃ s', mallocNew s size = .ok (s.addr + SIZEOF_HEADER, s') ∧
      s'.addr = s.addr + size + (SIZEOF_HEADER + SIZEOF_FOOTER) ∧
      Laid s' (bs ++ [⟨s.addr, size, false⟩]) := by
  have htotal : getTotalBlockSize size = size + 25 := by
    unfold getTotalBlockSize
    lia
  have hfull : ¬ (getTotalBlockSize size > getHeapFree s) := by
    rw [htotal, h.getHeapFree_eq]
    lia
  obtain ⟨m, hcreate, hblock, hframe⟩ := createHeapBlock_spec (h.getHeapEnd_eq.symm ▸ hroom)
  obtain ⟨m', hinsert, hlaid⟩ := insert_laid h hroom hblock hframe
  refine ⟨_, ?_, rfl, hlaid⟩
  unfold mallocNew
  rw [if_neg hfull, hcreate, ok_seq]
  dsimp only
  rw [h.allocs, hinsert, ok_seq]
  dsimp only
  rw [if_neg (fun hne => hne rfl), Nat.mod_eq_of_lt (by lia)]

/-- Without room the heap is full. -/
theorem mallocNew_spec (h : Laid s bs) (hsize : size + 25 < WORD) :
    (mallocNew s size = .error (.panic "Heap Full or Expansion Failed")) ∨
      ∃ s', mallocNew s size = .ok (s.addr + SIZEOF_HEADER, s') ∧
        Laid s' (bs ++ [⟨s.addr, size, false⟩]) := by
  have htop := h.top
  by_cases hfull : getTotalBlockSize size > getHeapFree s
  · left
    unfold mallocNew
    rw [if_pos hfull]
  · right
    have hroom : s.addr + size + (SIZEOF_HEADER + SIZEOF_FOOTER) ≤ HEAP_VIRT + HEAP_SIZE := by
      rw [h.getHeapFree_eq, getTotalBlockSize] at hfull
      lia
    obtain ⟨s', hnew, -, hlaid⟩ := mallocNew_room h hroom
    exact ⟨s', hnew, hlaid⟩

/-! ## Blocks that are used again -/

/-- A block that is used again: its pointer lies in its header. -/
theorem mallocReuse_spec (h : Laid s bs) (hb : b ∈ bs) {i : Nat}
    (hget : oarrayGet s.mem s.allocs i = b.hdr) :
    mallocReuse s i = .ok (b.hdr + SIZEOF_POINTER,
      { s with mem := store s.mem (b.hdr + 4) 1 (availByte false).toNat }) := by
  obtain ⟨hnull, -, -⟩ := h.capacity hb
  have hbounds := h.bounds hb
  have htop := h.top
  have hcrc := (h.blocks b hb).crc
  unfold Block.total at hbounds
  simp only [mallocReuse, hget, assert, hcrc, hnull, ne_eq, not_false_eq_true, decide_true, if_true,
    ok_seq]
  rw [Nat.mod_eq_of_lt (by lia)]
  rfl

/-! ## Requests

A request works on a block that suits or on a new one, and which of the two is settled by the
search. `kmalloc_spec` says what it leaves, and on which block; its callers do not look into
`_malloc` again.
-/

/-- Some available block is large enough. -/
def Fits (s : HeapState) (size : Nat) : Prop :=
  ∃ h ∈ elements s.mem s.allocs,
    available s.mem h = HEAP_HEAD_AVAILABLE ∧ size + SIZEOF_FOOTER ≤ blockSize s.mem h

instance (s : HeapState) (size : Nat) : Decidable (Fits s size) :=
  inferInstanceAs (Decidable (∃ h ∈ elements s.mem s.allocs, _ ∧ _))

/-- The header that `_malloc` works on: `new_header_addr`, or `header`. -/
def blockFor (s : HeapState) (size : Nat) : Nat :=
  match findBestFreeSpace s size with
  | .ok (some space) => oarrayGet s.mem s.allocs space
  | _ => s.addr

/-- What `Fits` says about the blocks. -/
theorem Laid.fits_iff (h : Laid s bs) : Fits s size ↔ ∃ b ∈ bs, b.avail = true ∧ size ≤ b.cap := by
  unfold Fits
  rw [h.allocs]
  constructor
  · rintro ⟨e, he, havail, hsize⟩
    obtain ⟨b, hb, rfl⟩ := h.mem_elements.mp he
    rw [(h.blocks b hb).blockSize] at hsize
    exact ⟨b, hb, (h.available_iff hb).mp havail, by omega⟩
  · rintro ⟨b, hb, havail, hsize⟩
    refine ⟨b.hdr, h.mem_elements.mpr ⟨b, hb, rfl⟩, (h.available_iff hb).mpr havail, ?_⟩
    rw [(h.blocks b hb).blockSize]
    omega

/-- What `kmalloc` does, and on which block. It fails only when a new block has no room. -/
theorem kmalloc_spec (h : Laid s bs) (hsize : size + 25 < WORD) :
    (¬ Fits s size ∧ blockFor s size = s.addr ∧
      (kmalloc s size = .error (.panic "Heap Full or Expansion Failed") ∨
        ∃ s', kmalloc s size = .ok (s.addr + SIZEOF_HEADER, s') ∧
          Laid s' (bs ++ [⟨s.addr, size, false⟩]))) ∨
    (Fits s size ∧ ∃ b ∈ bs, b.avail = true ∧ size ≤ b.cap ∧ blockFor s size = b.hdr ∧
      kmalloc s size = .ok (b.hdr + SIZEOF_POINTER,
        { s with mem := store s.mem (b.hdr + 4) 1 (availByte false).toNat })) := by
  rw [h.fits_iff]
  unfold blockFor kmalloc
  rcases findBestFreeSpace_spec h size with ⟨hfind, hnone⟩ | ⟨i, b, hfind, hb, havail, hfits, hget⟩
  · left
    rw [hfind, ok_seq]
    refine ⟨?_, rfl, mallocNew_spec h hsize⟩
    rintro ⟨b, hb, havail, hfits⟩
    have := hnone b hb havail
    omega
  · right
    rw [hfind, ok_seq]
    exact ⟨⟨b, hb, havail, hfits⟩, b, hb, havail, hfits, hget, mallocReuse_spec h hb hget⟩

/-- The two ways `kmalloc` returns. -/
theorem kmalloc_cases {ptr : Nat} (h : Laid s bs) (hsize : size + 25 < WORD)
    (hrun : kmalloc s size = .ok (ptr, s')) :
    (¬ Fits s size ∧ blockFor s size = s.addr ∧ ptr = s.addr + SIZEOF_HEADER ∧
        Laid s' (bs ++ [⟨s.addr, size, false⟩])) ∨
      (Fits s size ∧ ∃ b ∈ bs, b.avail = true ∧ size ≤ b.cap ∧ blockFor s size = b.hdr ∧
        ptr = b.hdr + SIZEOF_POINTER ∧ Laid s' (withAvail b.hdr false bs)) := by
  rcases kmalloc_spec h hsize with
    ⟨hnone, hblock, hfull | ⟨s₁, hnew, hlaid⟩⟩ | ⟨hfits, b, hb, havail, hcap, hblock, hreuse⟩
  · rw [hfull] at hrun
    cases hrun
  · rw [hnew] at hrun
    cases hrun
    exact Or.inl ⟨hnone, hblock, rfl, hlaid⟩
  · rw [hreuse] at hrun
    cases hrun
    exact Or.inr ⟨hfits, b, hb, havail, hcap, hblock, rfl, h.setAvail hb false⟩

/-! ## Freeing

`kfree` computes the header and the footer from the pointer, as for a pointer behind the header. The
pointers of blocks that are used again point into the header, and `kfree_reused` says what is taken
for the checksum then.
-/

/-- From the pointer behind a block's header, `kfree` finds the header and the footer. -/
theorem free_payload (h : Laid s bs) (hb : b ∈ bs) :
    freeHeader b.payload = b.hdr ∧ freeFooter s.mem b.payload = b.footer := by
  have hbounds := h.bounds hb
  have htop := h.top
  unfold Block.total at hbounds
  have hheader : freeHeader b.payload = b.hdr := by
    unfold freeHeader Block.payload
    lia
  refine ⟨hheader, ?_⟩
  rw [freeFooter, hheader, (h.blocks b hb).blockSize]
  unfold Block.payload Block.footer
  lia

/-- `kfree` of the pointer behind a block's header makes the block available, and does nothing
else. -/
theorem kfree_payload (h : Laid s bs) (hb : b ∈ bs) :
    kfree s b.payload =
      .ok { s with mem := store s.mem (b.hdr + 4) 1 (availByte true).toNat } := by
  have hbounds := h.bounds hb
  have hblock := h.blocks b hb
  obtain ⟨hheader, hfooter⟩ := free_payload h hb
  have hnull : b.payload ≠ 0 := by
    unfold Block.payload
    lia
  unfold kfree
  rw [if_neg hnull]
  simp only [hheader, hfooter, hblock.crc, hblock.footerCrc, hblock.footerHeader,
    assert, and_self, decide_true, if_true, ok_seq]
  rfl

/-- The pointer of a block that is used again is no such pointer. For any block but the lowest,
what `kfree` takes for the checksum is part of the footer below it. For the lowest it is what the
last item of the array happens to hold, and the only byte `kfree` may write is the last of that
item. -/
theorem kfree_reused (h : Laid s bs) (hb : b ∈ bs) :
    (∃ text, kfree s (b.hdr + SIZEOF_POINTER) = .error (.assertFailed text)) ∨
      (b.hdr = BLOCKS_START ∧ kfree s (b.hdr + SIZEOF_POINTER) =
        .ok { s with mem := store s.mem (b.hdr - 1) 1 (availByte true).toNat }) := by
  have hbounds := h.bounds hb
  have htop := h.top
  unfold Block.total at hbounds
  have hnull : b.hdr + SIZEOF_POINTER ≠ 0 := by lia
  have hheader : freeHeader (b.hdr + SIZEOF_POINTER) = b.hdr - 5 := by
    unfold freeHeader
    lia
  have hbyte : b.hdr - 5 + 4 = b.hdr - 1 := by lia
  unfold kfree
  rw [if_neg hnull]
  simp only [hheader, assert, hbyte]
  rcases h.tiles.predecessor hb with hfirst | ⟨c, hc, hend⟩
  · -- the lowest block: both assertions may fail, or both may hold by accident
    split
    · rw [ok_seq]
      split
      · exact Or.inr ⟨hfirst, rfl⟩
      · exact Or.inl ⟨_, rfl⟩
    · exact Or.inl ⟨_, rfl⟩
  · -- any other block: the checksum is looked for in the back pointer of the footer below, which is an
    -- address of the heap and has other digits
    left
    have hbc := h.bounds hc
    have hpart : crc s.mem (b.hdr - 5) = footerHeader s.mem c.footer / 256 ^ 3 % 256 ^ 4 := by
      have hplace : b.hdr - 5 = c.footer + 4 + 3 := by
        unfold Block.footer
        unfold Block.total at hend
        lia
      rw [crc, hplace]
      exact load_part s.mem (c.footer + 4) (by decide)
    have hwrong : ¬ (crc s.mem (b.hdr - 5) = HEAP_CRC) := by
      have hlo : 0xffffffffb0000000 ≤ c.hdr := by lia
      have hhi : c.hdr < 0xffffffffb1000000 := by lia
      rw [hpart, (h.blocks c hc).footerHeader]
      lia
    rw [if_neg]
    · exact ⟨_, rfl⟩
    · rw [decide_eq_true_eq]
      exact fun hcrc => hwrong hcrc.2

end Twos.Heap
