import Mathlib.Data.List.Basic
import Twos.Boot.Multiboot

/-!
# The stride of the memory map

The tag of the memory map says how large its entries are, and `kmain` counts them with that size.
`physmem_init` walks an array of its own structure, which has 24 bytes. The two agree on a tag when
the entries have that size, when there is no second entry, or when the bytes happen to be the same.

`decoded_iff` takes it to the bytes: entry `i` is decoded when the 24 bytes at both addresses agree.
Where they may differ, `strayByte` is a memory in which they do, which makes `mmap_decoded_iff` exact
in the size and the number of entries.
-/

namespace Twos.Boot

open Lib

/-- A tag with `n` entries of `size` bytes each. -/
structure IsMmapTag (m : Memory) (tag size n : Nat) : Prop where
  type : tagType m tag = MULTIBOOT_TAG_TYPE_MMAP
  tagSize : tagSize m tag = MMAP_HEADER + size * n
  entrySize : entrySize m tag = size

/-- The entries where the tag has them. -/
def storedEntries (m : Memory) (tag size n : Nat) : List Phys.MmapEntry :=
  (List.range n).map fun i => readEntry m (tag + MMAP_HEADER + size * i)

/-- The entries that `physmem_init` processes are those of the tag, and so is what it computes. -/
structure Decoded (m : Memory) (tag size n : Nat) : Prop where
  count : mmapSize m tag = .ok n
  entries : mmapEntries m tag n = storedEntries m tag size n
  result : mmapCase m tag = Phys.physmemInit (storedEntries m tag size n)

/-- The stride makes no difference: the bytes of each entry are those that stand where an entry of
24 bytes would. -/
def SameBytes (m : Memory) (tag size n : Nat) : Prop :=
  ∀ i, i < n → ∀ x, x < 20 →
    m (tag + MMAP_HEADER + MMAP_ENTRY * i + x) = m (tag + MMAP_HEADER + size * i + x)

/-- Two entries are the same when 20 of their bytes are. -/
theorem readEntry_eq_iff {m m' : Memory} {a b : Nat} :
    readEntry m a = readEntry m' b ↔ ∀ x, x < 20 → m (a + x) = m' (b + x) := by
  simp only [readEntry, Phys.MmapEntry.mk.injEq, load_eq_iff]
  constructor
  · rintro ⟨haddr, hlen, htype⟩ x hx
    by_cases h8 : x < 8
    · exact haddr x h8
    · by_cases h16 : x < 16
      · have h := hlen (x - 8) (by omega)
        rwa [Nat.add_assoc, Nat.add_assoc, Nat.add_sub_cancel' (by omega)] at h
      · have h := htype (x - 16) (by omega)
        rwa [Nat.add_assoc, Nat.add_assoc, Nat.add_sub_cancel' (by omega)] at h
  · intro h
    refine ⟨fun x hx => h x (by omega), fun x hx => ?_, fun x hx => ?_⟩
    · rw [Nat.add_assoc, Nat.add_assoc]
      exact h (8 + x) (by omega)
    · rw [Nat.add_assoc, Nat.add_assoc]
      exact h (16 + x) (by omega)

/-- `kmain` counts the entries by their size. -/
theorem mmapSize_eq {m : Memory} {tag size n : Nat} (hsize : 0 < size)
    (h : IsMmapTag m tag size n) : mmapSize m tag = .ok n := by
  have hlt : tagSize m tag < 256 ^ 4 := load_lt _ _ _
  rw [h.tagSize] at hlt
  have hsub : (MMAP_HEADER + size * n + (WORD - MMAP_HEADER)) % WORD = size * n := by
    lia
  rw [mmapSize, h.entrySize, if_neg (by omega), h.tagSize, hsub, Nat.mul_div_cancel_left n hsize]

/-- A tag is decoded when the bytes agree. -/
theorem decoded_iff {m : Memory} {tag size n : Nat} (hsize : 0 < size)
    (h : IsMmapTag m tag size n) :
    Decoded m tag size n ↔ SameBytes m tag size n := by
  have hentries : mmapEntries m tag n = storedEntries m tag size n ↔ SameBytes m tag size n := by
    unfold mmapEntries storedEntries SameBytes
    rw [List.map_inj_left]
    simp only [List.mem_range, readEntry_eq_iff]
  constructor
  · exact fun hdecoded => hentries.mp hdecoded.entries
  · intro hbytes
    have hsame := hentries.mpr hbytes
    refine ⟨mmapSize_eq hsize h, hsame, ?_⟩
    rw [mmapCase, mmapSize_eq hsize h, ok_seq, hsame]

/-- Entries of 24 bytes stand where they are read, and so does the first one of any size. -/
theorem sameBytes_of {m : Memory} {tag size n : Nat} (h : size = MMAP_ENTRY ∨ n ≤ 1) :
    SameBytes m tag size n := by
  intro i hi x _
  rcases h with rfl | hn
  · rfl
  · obtain rfl : i = 0 := by omega
    rfl

/-- A tag with one byte set where the second entry is read, and none where it is stored. -/
def strayByte (tag size n : Nat) : Memory :=
  store (store (store (store (fun _ => 0) tag 4 MULTIBOOT_TAG_TYPE_MMAP) (tag + 4) 4
    (MMAP_HEADER + size * n)) (tag + 8) 4 size) (tag + MMAP_HEADER + MMAP_ENTRY) 1 1

theorem strayByte_isMmapTag (tag : Nat) {size n : Nat} (hsize : size < 2 ^ 32)
    (hfits : MMAP_HEADER + size * n < 2 ^ 32) : IsMmapTag (strayByte tag size n) tag size n := by
  refine ⟨?_, ?_, ?_⟩
  · show load (strayByte tag size n) tag 4 = _
    unfold strayByte
    rw [load_store_disjoint (.inl (by lia)), load_store_disjoint (.inl (by lia)),
      load_store_disjoint (.inl (by lia)), load_store_same (by decide)]
  · show load (strayByte tag size n) (tag + 4) 4 = _
    unfold strayByte
    rw [load_store_disjoint (.inl (by lia)), load_store_disjoint (.inl (by lia)),
      load_store_same hfits]
  · show load (strayByte tag size n) (tag + 8) 4 = _
    unfold strayByte
    rw [load_store_disjoint (.inl (by lia)), load_store_same hsize]

theorem strayByte_differs (tag : Nat) {size n : Nat} (hlarge : MMAP_ENTRY < size) (hn : 1 < n) :
    ¬ SameBytes (strayByte tag size n) tag size n := by
  intro hsame
  have hbyte := hsame 1 hn 0 (by decide)
  have hread : strayByte tag size n (tag + MMAP_HEADER + MMAP_ENTRY * 1 + 0) = 1 := by
    unfold strayByte
    exact store_head Nat.one_pos
  have hstored : strayByte tag size n (tag + MMAP_HEADER + size * 1 + 0) = 0 := by
    unfold strayByte
    rw [store_outside (by lia), store_outside (by lia), store_outside (by lia),
      store_outside (by lia)]
  rw [hread, hstored] at hbyte
  cases hbyte

/-- For every entry size that a tag can give, and every number of entries: each tag is decoded if
and only if the stride makes no difference for its bytes; and all tags are if and only if the
entries have 24 bytes or there are fewer than two. -/
theorem mmap_decoded_iff {size n : Nat} (hsize : 8 ∣ size ∧ MMAP_ENTRY ≤ size)
    (hfits : size < 2 ^ 32 ∧ MMAP_HEADER + size * n < 2 ^ 32) (tag : Nat) :
    (∀ m, IsMmapTag m tag size n → (Decoded m tag size n ↔ SameBytes m tag size n)) ∧
      ((∀ m, IsMmapTag m tag size n → Decoded m tag size n) ↔ size = MMAP_ENTRY ∨ n ≤ 1) := by
  have hpos : 0 < size := Nat.lt_of_lt_of_le (by decide) hsize.2
  refine ⟨fun m hm => decoded_iff hpos hm, fun hall => ?_, fun hgood m hm => ?_⟩
  · apply Decidable.byContradiction
    intro hbad
    have htag := strayByte_isMmapTag tag hfits.1 hfits.2
    refine strayByte_differs tag ?_ ?_ ((decoded_iff hpos htag).mp (hall _ htag))
    · lia
    · omega
  · exact (decoded_iff hpos hm).mpr (sameBytes_of hgood)

/-- Three entries of the usual size. -/
theorem mmap_decoded_usual :
    (8 ∣ MMAP_ENTRY ∧ MMAP_ENTRY ≤ MMAP_ENTRY) ∧
      (MMAP_ENTRY < 2 ^ 32 ∧ MMAP_HEADER + MMAP_ENTRY * 3 < 2 ^ 32) ∧
      (∀ m, IsMmapTag m 0 MMAP_ENTRY 3 →
        (Decoded m 0 MMAP_ENTRY 3 ↔ SameBytes m 0 MMAP_ENTRY 3)) ∧
      ((∀ m, IsMmapTag m 0 MMAP_ENTRY 3 → Decoded m 0 MMAP_ENTRY 3) ↔
        MMAP_ENTRY = MMAP_ENTRY ∨ 3 ≤ 1) :=
  ⟨by decide, by decide, mmap_decoded_iff (by decide) (by decide) 0⟩

/-- Two entries of 32 bytes that are not read where they are stored. -/
theorem mmap_not_decoded :
    IsMmapTag (strayByte 0 32 2) 0 32 2 ∧ ¬ Decoded (strayByte 0 32 2) 0 32 2 := by
  have htag := strayByte_isMmapTag (n := 2) 0 (by decide : 32 < 2 ^ 32) (by decide)
  refine ⟨htag, fun hdecoded => ?_⟩
  exact strayByte_differs 0 (by decide) (by decide) ((decoded_iff (by decide) htag).mp hdecoded)

end Twos.Boot
