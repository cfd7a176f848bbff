import Twos.Heap.Safety
import Twos.Heap.Structure

/-!
# The best fit

`find_best_free_space` takes the first available block that is large enough. That this is the
smallest one there is comes from the order of the array, which every insertion of a run keeps. The
runs here are those of `kmalloc` and of `kfree` on what `kmalloc` has returned, with clients that
write where they like, except into the heap's own bytes.

* `inv_write` adds the clients to the runs of `Structure.lean`; `inv_run` carries the layout over a
  whole run.
* `Laid.bestFit` is about one state: what the search stops at comes before all others that suit in
  an array that is sorted by size. `search_bestFit` is about every state that a run reaches.
-/

namespace Twos.Heap

open Lib

/-! ## Runs with clients that write

The calls in any order, and between them any byte that is not the heap's own may change. The layout
does not look at such bytes, so the invariant of runs stays what it is, with one more case.
-/

/-- The byte is the heap's own: it belongs to the page of the array, or to a header or a footer. -/
def HeapOwn (s : HeapState) (x : Nat) : Prop :=
  (s.allocs ≤ x ∧ x < s.allocs + PAGE_SIZE) ∨
    ∃ h ∈ elements s.mem s.allocs,
      (h ≤ x ∧ x < h + SIZEOF_HEADER) ∨
        (h + SIZEOF_HEADER + (blockSize s.mem h - SIZEOF_FOOTER) ≤ x ∧
          x < h + SIZEOF_HEADER + blockSize s.mem h)

instance (s : HeapState) (x : Nat) : Decidable (HeapOwn s x) :=
  inferInstanceAs (Decidable (_ ∨ ∃ h ∈ elements s.mem s.allocs, _ ∨ _))

inductive Op where
  | kmalloc (size : Nat)
  | kfree (p : Nat)
  | write (x value : Nat)

/-- One operation. What is freed is null or has been returned by `kmalloc`, the bytes that are
written are not the heap's own, and a call that halts the machine makes no step. -/
def perform (s : Session) : Op → Option Session
  | .kmalloc size =>
      if size < WORD then
        match kmalloc s.heap size with
        | .ok (p, heap) => some ⟨heap, p :: s.returned⟩
        | .error _ => none
      else none
  | .kfree p =>
      if p = 0 ∨ p ∈ s.returned then
        match kfree s.heap p with
        | .ok heap => some ⟨heap, s.returned⟩
        | .error _ => none
      else none
  | .write x value =>
      if HeapOwn s.heap x then none
      else some { s with heap := { s.heap with mem := store s.heap.mem x 1 value } }

/-- Adding a header and a footer to the size does not wrap. -/
def NoWrap (_ : Session) : Op → Prop
  | .kmalloc size => size + 25 < WORD
  | _ => True

instance (s : Session) (op : Op) : Decidable (NoWrap s op) :=
  match op with
  | .kmalloc size => inferInstanceAs (Decidable (size + 25 < WORD))
  | .kfree _ => isTrue trivial
  | .write _ _ => isTrue trivial

variable {s t : Session} {bs : List Block} {size : Nat}

theorem inv_write {x value : Nat} (h : Inv s) (hstep : perform s (.write x value) = some t) :
    Inv t := by
  obtain ⟨bs, hlaid, hpoints⟩ := h
  simp only [perform] at hstep
  split at hstep
  · cases hstep
  · next hown =>
    cases hstep
    rw [HeapOwn, hlaid.allocs, not_or] at hown
    obtain ⟨harray, hblocks⟩ := hown
    refine ⟨bs, hlaid.congr fun y hy => store_outside ?_, hpoints⟩
    have hne : y ≠ x := by
      rintro rfl
      rcases hy with hy | ⟨b, hb, hmeta⟩
      · exact harray ⟨hy.1, by lia⟩
      · refine hblocks ⟨b.hdr, hlaid.mem_elements.mpr ⟨b, hb, rfl⟩, ?_⟩
        rw [(hlaid.blocks b hb).blockSize]
        simp only [Block.Meta, Block.footer] at hmeta
        omega
    omega

/-- The invariant of runs is kept by every operation that does not wrap. -/
theorem inv_perform {op : Op} (h : Inv s) (hgood : NoWrap s op) (hstep : perform s op = some t) :
    Inv t := by
  cases op with
  | kmalloc size =>
      have hsize : size + 25 < WORD := hgood
      simp only [perform, if_pos (show size < WORD by omega)] at hstep
      refine @inv_kmalloc s t h size ?_
      rw [step, if_pos hsize]
      exact hstep
  | kfree p =>
      simp only [perform] at hstep
      split at hstep
      · next hp =>
        rcases hp with rfl | hp
        · rw [show kfree s.heap 0 = .ok s.heap from rfl] at hstep
          cases hstep
          exact h
        · apply inv_kfree (p := p) h
          rw [step, if_pos hp]
          exact hstep
      · cases hstep
  | write x value => exact inv_write h hstep

theorem inv_run {hooks : OarrayHooks} {m : Memory} {ops : List Op} {s : Session}
    (hrun : Run (Checked NoWrap (StepOf perform)) ⟨kallocInit hooks m, []⟩ ops s) : Inv s := by
  refine Run.invariant Inv (inv_init hooks m) ?_ hrun
  intro s op t h hstep
  exact inv_perform h hstep.1 hstep.2

/-! ## The search

The index is sorted by the size of the blocks, whether they are in use or not. So the first block in
it that suits is the smallest that does, and this is where the search stops.
-/

/-- `FREE_SPACE_NONE`, as the 32 bits that are returned. -/
def FREE_SPACE_NONE : BitVec 32 := -1

/-- What `find_best_free_space` returns, in 32 bits. -/
def findBestFreeSpaceWord (s : HeapState) (size : Nat) : Except Fault (BitVec 32) := do
  match ← findBestFreeSpace s size with
  | none => .ok FREE_SPACE_NONE
  | some itr => .ok (BitVec.ofNat 32 itr)

/-- The index is that of the smallest block that suits, or there is none. -/
structure BestFit (s : HeapState) (size : Nat) (space : BitVec 32) : Prop where
  none : space = FREE_SPACE_NONE ↔ ∀ h ∈ elements s.mem s.allocs, ¬ Suits s.mem size h
  some : space ≠ FREE_SPACE_NONE →
    space.toNat < oarrayIdx s.mem s.allocs ∧
      Suits s.mem size (item s.mem s.allocs space.toNat) ∧
      ∀ h ∈ elements s.mem s.allocs, Suits s.mem size h →
        capacity s.mem (item s.mem s.allocs space.toNat) ≤ capacity s.mem h

theorem mem_elements_iff {m : Memory} {map e : Nat} :
    e ∈ elements m map ↔ ∃ i, i < oarrayIdx m map ∧ item m map i = e := by
  simp only [elements, List.mem_map, List.mem_range]

/-- In a laid out heap the first block that suits is the smallest. -/
theorem Laid.bestFit {s : HeapState} (h : Laid s bs) (size : Nat) :
    ∃ space, findBestFreeSpaceWord s size = .ok space ∧ BestFit s size space := by
  have hlen : oarrayIdx s.mem s.allocs < 2 ^ 32 - 1 := by
    have hroom := h.length_lt
    rw [h.allocs, h.oarrayIdx_eq]
    lia
  unfold findBestFreeSpaceWord
  rcases findBestFreeSpace_first h size with ⟨hfind, hnone⟩ | ⟨i, hfind, hi, hsuits, hbefore⟩
  · -- nothing suits
    rw [hfind, ok_seq]
    refine ⟨_, rfl, ⟨iff_of_true rfl fun e he => ?_, fun hne => absurd rfl hne⟩⟩
    obtain ⟨i, hi, rfl⟩ := mem_elements_iff.mp he
    exact hnone i hi
  · rw [hfind, ok_seq]
    -- an index is never mistaken for `FREE_SPACE_NONE`
    have hword : (BitVec.ofNat 32 i).toNat = i := by
      rw [BitVec.toNat_ofNat, Nat.mod_eq_of_lt (by omega)]
    have hne : BitVec.ofNat 32 i ≠ FREE_SPACE_NONE := by
      intro heq
      rw [heq, show FREE_SPACE_NONE.toNat = 2 ^ 32 - 1 from rfl] at hword
      omega
    refine ⟨_, rfl, ⟨iff_of_false hne fun hnone => ?_, fun _ => ?_⟩⟩
    · exact hnone _ (mem_elements_iff.mpr ⟨i, hi, rfl⟩) hsuits
    · rw [hword]
      refine ⟨hi, hsuits, fun e he hfits => ?_⟩
      obtain ⟨j, hj, rfl⟩ := mem_elements_iff.mp he
      rcases Nat.lt_trichotomy j i with hlt | rfl | hlt
      · exact absurd hfits (hbefore j hlt)
      · exact Nat.le_refl _
      · -- further up in the array blocks are at least as large
        have hsorted := h.sorted
        rw [← h.allocs, List.pairwise_iff_getElem] at hsorted
        have hle := hsorted i j (by rw [length_elements]; exact hi)
          (by rw [length_elements]; exact hj) hlt
        simp only [elements, List.getElem_map, List.getElem_range] at hle
        exact Nat.sub_le_sub_right hle _

/-- After every run, the search returns the smallest block that suits, and `FREE_SPACE_NONE` exactly
if there is none. -/
theorem search_bestFit {hooks : OarrayHooks} {m : Memory} {ops : List Op} {s : Session}
    (hrun : Run (Checked NoWrap (StepOf perform)) ⟨kallocInit hooks m, []⟩ ops s) (size : Nat) :
    ∃ space, findBestFreeSpaceWord s.heap size = .ok space ∧ BestFit s.heap size space := by
  obtain ⟨bs, hlaid, -⟩ := inv_run hrun
  exact hlaid.bestFit size

/-- Three blocks of different sizes, of which the larger two are freed. -/
theorem search_bestFit_three :
    ∃ s, Run (Checked NoWrap (StepOf perform)) ⟨kallocInit ⟨0, 0, 0⟩ fun _ => 0, []⟩
        [.kmalloc 512, .kmalloc 256, .kmalloc 64, .write (BLOCKS_START + 20) 7,
          .kfree (BLOCKS_START + 13), .kfree (BLOCKS_START + 537 + 13)] s ∧
      ∃ space, findBestFreeSpaceWord s.heap 100 = .ok space ∧ BestFit s.heap 100 space := by
  have hsome : ([.kmalloc 512, .kmalloc 256, .kmalloc 64, .write (BLOCKS_START + 20) 7,
      .kfree (BLOCKS_START + 13), .kfree (BLOCKS_START + 537 + 13)].foldlM
        (fun s op => if NoWrap s op then perform s op else none)
        ⟨kallocInit ⟨0, 0, 0⟩ fun _ => 0, []⟩).isSome := by decide +kernel
  obtain ⟨s, hs⟩ := Option.isSome_iff_exists.mp hsome
  have hrun := run_checked_of_foldlM hs
  exact ⟨s, hrun, search_bestFit hrun 100⟩

end Twos.Heap
