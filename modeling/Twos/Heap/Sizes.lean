import Twos.Heap.BestFit

/-!
# Requests of every size

What `kmalloc` does with any 64-bit size. `get_total_block_size` adds 25 and may wrap, and then the
room that is asked for is not the room that is used. To say that a call halts before it has written
anything, the calls here leave behind the heap as it is when the machine halts
(`kmallocHalting_eq` says that they are otherwise the same).

* `Laid.kmalloc_safe`: a bounded request halts without a store, uses a block again or makes one that
  lies in the heap.
* `Laid.kmalloc_wraps`: any other moves the bump pointer back by what it wraps, in a heap that goes on.
* `kmalloc_safe_iff` is the two together, in every state that a run of bounded requests reaches.
-/

namespace Twos.Heap

open Lib

/-! ## Halting

A call of `kmalloc` that does not return stops at an assertion, and by then it may have written
something. The halting versions keep the memory in which the call stops; where a call returns they
are the routines themselves.
-/

/-- What a call that halts leaves behind. -/
abbrev Halt : Type := Fault × HeapState

/-- `create_heap_block`. The header has been written when the assertion is made. -/
def createHeapBlockHalting (s : HeapState) (addr memSize : Nat) : Except Halt (Nat × Memory) := do
  let header := addr
  let m := createHeapHeader s.mem header
  let footer := (addr + memSize + SIZEOF_HEADER) % WORD
  if footer < getHeapEnd s then
    let m := createHeapFooter m footer header
    let m := store m (header + 5) 8 ((memSize + SIZEOF_FOOTER) % WORD)
    .ok ((footer + SIZEOF_FOOTER) % WORD, m)
  else .error (.assertFailed "(uintptr_t)footer < get_heap_end()", { s with mem := m })

/-- `_malloc` when no block can be used again. -/
def mallocNewHalting (s : HeapState) (size : Nat) : Except Halt (Nat × HeapState) :=
  let totalSize := getTotalBlockSize size
  if totalSize > getHeapFree s then .error (.panic "Heap Full or Expansion Failed", s)
  else do
    let newHeaderAddr := s.addr
    let allocAddr := (newHeaderAddr + SIZEOF_HEADER) % WORD
    let (addr, m) ← createHeapBlockHalting s s.addr size
    match oarrayInsert allocGreater m s.allocs newHeaderAddr with
    | .error f => .error (f, { s with mem := m, addr })
    | .ok (element, m) =>
        if element ≠ newHeaderAddr then
          .error (.panic "heap header insertion failure", { s with mem := m, addr })
        else .ok (allocAddr, { s with mem := m, addr })

/-- `kmalloc`. The search writes nothing, and a block that is used again is written to last. -/
def kmallocHalting (s : HeapState) (size : Nat) : Except Halt (Nat × HeapState) :=
  match findBestFreeSpace s size with
  | .error f => .error (f, s)
  | .ok none => mallocNewHalting s size
  | .ok (some space) => (mallocReuse s space).mapError fun f => (f, s)

theorem createHeapBlockHalting_eq (s : HeapState) (addr memSize : Nat) :
    (createHeapBlockHalting s addr memSize).mapError Prod.fst = createHeapBlock s addr memSize := by
  unfold createHeapBlockHalting createHeapBlock assert
  dsimp only
  split
  · next hlt =>
    rw [decide_eq_true hlt]
    rfl
  · next hge =>
    rw [decide_eq_false hge]
    rfl

/-- Apart from what a halt leaves behind, the two are one. -/
theorem kmallocHalting_eq (s : HeapState) (size : Nat) :
    (kmallocHalting s size).mapError Prod.fst = kmalloc s size := by
  unfold kmallocHalting kmalloc
  cases findBestFreeSpace s size with
  | error f => rfl
  | ok found =>
      cases found with
      | some space =>
          rw [ok_seq]
          dsimp only
          cases mallocReuse s space <;> rfl
      | none =>
          rw [ok_seq]
          dsimp only
          unfold mallocNewHalting mallocNew
          dsimp only
          split
          · rfl
          · rw [← createHeapBlockHalting_eq]
            cases createHeapBlockHalting s s.addr size with
            | error e => rfl
            | ok r =>
                simp only [Except.mapError, bind, Except.bind]
                cases oarrayInsert allocGreater r.2 s.allocs s.addr with
                | error f => rfl
                | ok q =>
                    dsimp only
                    by_cases hother : q.1 ≠ s.addr
                    · rw [if_pos hother, if_pos hother]
                    · rw [if_neg hother, if_neg hother]

/-- A call that returns does so in both. -/
theorem kmallocHalting_ok {s s' : HeapState} {size p : Nat} :
    kmallocHalting s size = .ok (p, s') ↔ kmalloc s size = .ok (p, s') := by
  rw [← kmallocHalting_eq]
  cases kmallocHalting s size with
  | error e => exact iff_of_false (fun h => by cases h) (fun h => by cases h)
  | ok r => exact ⟨fun h => by cases h; rfl, fun h => by cases h; rfl⟩

/-! ## What one wants

A request should be met inside the heap or leave it as it was. Adding 25 to the size may wrap, and
then the heap moves its end by what is left of the size; the header that is made says the size
itself. What can be wrong with that is decided by one comparison, with the bytes that the heap has
free (`Bounded`).
-/

/-- A block with room for the request is taken into use. -/
def Reuses (s : HeapState) (size : Nat) (s' : HeapState) : Prop :=
  ∃ h ∈ elements s.mem s.allocs, Suits s.mem size h ∧
    s' = { s with mem := store s.mem (h + 4) 1 HEAP_HEAD_IN_USE.toNat }

/-- A block of the size is made at the end of the heap, and the end moves up by what the block takes
without leaving the heap. -/
structure Creates (s : HeapState) (size : Nat) (s' : HeapState) : Prop where
  addr : s'.addr = s.addr + (size + 25)
  top : s'.addr ≤ getHeapEnd s
  block : IsBlock s'.mem ⟨s.addr, size, false⟩
  listed : (elements s'.mem s'.allocs).Perm (s.addr :: elements s.mem s.allocs)

/-- The call halts before it has written anything, or it returns from a block of its own. -/
def KmallocSafe (s : HeapState) (size : Nat) : Prop :=
  (∃ f, kmallocHalting s size = .error (f, s)) ∨
    ∃ p s', kmallocHalting s size = .ok (p, s') ∧ s.addr ≤ s'.addr ∧
      (Reuses s size s' ∨ Creates s size s')

/-- The size does not wrap when a header and a footer are added to it, or what it wraps to is still
more than the heap has free. -/
def Bounded (s : HeapState) (size : Nat) : Prop :=
  size + 25 < WORD ∨ getHeapFree s < (size + 25) % WORD

instance (s : HeapState) (size : Nat) : Decidable (Bounded s size) :=
  inferInstanceAs (Decidable (_ ∨ _))

variable {s t : HeapState} {bs : List Block} {size : Nat}

/-- No block is so large that a request that wraps finds it. -/
theorem Laid.nothing_suits (h : Laid s bs) (hlarge : WORD ≤ size + 25) :
    ∀ e ∈ elements s.mem s.allocs, ¬ Suits s.mem size e := by
  rintro e he ⟨-, hfits⟩
  rw [h.allocs] at he
  obtain ⟨b, hb, rfl⟩ := h.mem_elements.mp he
  have hbounds := h.bounds hb
  have htop := h.top
  rw [Heap.capacity, (h.blocks b hb).blockSize] at hfits
  unfold Block.total at hbounds
  lia

theorem Laid.find_none (h : Laid s bs) (hlarge : WORD ≤ size + 25) :
    findBestFreeSpace s size = .ok none := by
  rcases findBestFreeSpace_first h size with ⟨hfind, -⟩ | ⟨i, -, hi, hsuits, -⟩
  · exact hfind
  · exact absurd hsuits (h.nothing_suits hlarge _ (mem_elements_iff.mpr ⟨i, hi, rfl⟩))

/-- A request that is bounded is safe. -/
theorem Laid.kmalloc_safe (h : Laid s bs) (hbounded : Bounded s size) : KmallocSafe s size := by
  have htop := h.top
  rcases findBestFreeSpace_first h size with ⟨hfind, -⟩ | ⟨i, hfind, hi, hsuits, -⟩
  · -- nothing suits, so a new block is asked for
    by_cases hfull : getTotalBlockSize size > getHeapFree s
    · left
      refine ⟨.panic "Heap Full or Expansion Failed", ?_⟩
      rw [kmallocHalting, hfind]
      dsimp only
      rw [mallocNewHalting, if_pos hfull]
    · right
      have hroom : s.addr + size + (SIZEOF_HEADER + SIZEOF_FOOTER) ≤ HEAP_VIRT + HEAP_SIZE := by
        rw [Bounded, h.getHeapFree_eq] at hbounded
        rw [h.getHeapFree_eq, getTotalBlockSize] at hfull
        lia
      obtain ⟨s', hnew, haddr, hlaid⟩ := mallocNew_room h hroom
      have hrun : kmalloc s size = .ok (s.addr + SIZEOF_HEADER, s') := by
        rw [kmalloc, hfind, ok_seq]
        exact hnew
      refine ⟨_, s', kmallocHalting_ok.mpr hrun, by omega, Or.inr ⟨?_, ?_, ?_, ?_⟩⟩
      · rw [haddr]
        lia
      · rw [haddr, h.getHeapEnd_eq]
        exact hroom
      · exact hlaid.blocks _ (List.mem_append_right _ List.mem_cons_self)
      · rw [hlaid.allocs, h.allocs]
        refine hlaid.listed.trans ?_
        rw [List.map_append]
        exact (List.perm_append_singleton _ _).trans (List.Perm.cons _ h.listed.symm)
  · -- a block is used again, whatever its size was
    right
    obtain ⟨b, hb, heq⟩ := h.block_at hi
    have hget : oarrayGet s.mem s.allocs i = b.hdr := by
      rw [oarrayGet, if_neg (by omega), heq]
    have hrun := mallocReuse_spec h hb hget
    have hreuse : kmalloc s size = mallocReuse s i := by
      rw [kmalloc, hfind, ok_seq]
    rw [← hreuse] at hrun
    refine ⟨_, _, kmallocHalting_ok.mpr hrun, Nat.le_refl _, Or.inl ⟨b.hdr, ?_, ?_, rfl⟩⟩
    · rw [heq]
      exact mem_elements_iff.mpr ⟨i, hi, rfl⟩
    · rw [heq]
      exact hsuits

/-- The bytes that say how many elements the array has lie below everything that is written near the
end of the heap. -/
theorem Laid.room_of_agree (h : Laid s bs) {m : Memory}
    (hm : ∀ x, HEAP_VIRT + 32 ≤ x → x < HEAP_VIRT + 44 → m x = s.mem x) :
    oarrayIdx m HEAP_VIRT < Twos.maxElements m HEAP_VIRT := by
  have hidx : oarrayIdx m HEAP_VIRT = oarrayIdx s.mem HEAP_VIRT :=
    load_congr fun x hlo hhi => hm x (by omega) (by omega)
  have hmax : Twos.maxElements m HEAP_VIRT = Twos.maxElements s.mem HEAP_VIRT :=
    load_congr fun x hlo hhi => hm x (by omega) (by omega)
  have hlen := h.length_lt
  rw [hidx, hmax, h.maxElements, h.oarrayIdx_eq]
  omega

/-- A request that is not bounded moves the end of the heap by what its size wraps to. -/
theorem Laid.kmalloc_wraps (h : Laid s bs) (hsize : size < WORD) (hbounded : ¬ Bounded s size) :
    ∃ p s', kmallocHalting s size = .ok (p, s') ∧ s'.addr = s.addr + (size + 25 - WORD) := by
  have htop := h.top
  have hstart := h.tiles.le
  rw [Bounded, not_or, Nat.not_lt, Nat.not_lt, h.getHeapFree_eq] at hbounded
  obtain ⟨hlarge, hroom⟩ := hbounded
  have hfull : ¬ (getTotalBlockSize size > getHeapFree s) := by
    rw [h.getHeapFree_eq, getTotalBlockSize]
    lia
  have hfooter : (s.addr + size + SIZEOF_HEADER) % WORD = s.addr + (size + 25 - WORD) - 12 := by lia
  have hend : (s.addr + (size + 25 - WORD) - 12 + SIZEOF_FOOTER) % WORD =
      s.addr + (size + 25 - WORD) := by lia
  have hassert : s.addr + (size + 25 - WORD) - 12 < getHeapEnd s := by
    rw [h.getHeapEnd_eq]
    lia
  have hnew : ∃ p s', mallocNew s size = .ok (p, s') ∧ s'.addr = s.addr + (size + 25 - WORD) := by
    unfold mallocNew
    rw [if_neg hfull]
    simp only [createHeapBlock, hfooter, hend, assert, hassert, decide_true, if_true, ok_seq]
    -- the footer may lie below the header, but not as far down as the array's first elements
    obtain ⟨m, k, hinsert, -⟩ := @oarrayInsert_spec _ _ s.addr allocGreater
      (h.room_of_agree (m := store (createHeapFooter (createHeapHeader s.mem s.addr)
        (s.addr + (size + 25 - WORD) - 12) s.addr) (s.addr + 5) 8 ((size + SIZEOF_FOOTER) % WORD)) (by
        intro x hlo hhi
        rw [store_outside (by lia), createHeapFooter]
        rw [store_outside (by lia), store_outside (by lia), createHeapHeader]
        rw [store_outside (by lia), store_outside (by lia)])) (by lia)
    rw [h.allocs, hinsert, ok_seq]
    dsimp only
    rw [if_neg (fun hne => hne rfl)]
    exact ⟨_, _, rfl, rfl⟩
  obtain ⟨p, s', hrun, haddr⟩ := hnew
  refine ⟨p, s', kmallocHalting_ok.mpr ?_, haddr⟩
  rw [kmalloc, h.find_none hlarge, ok_seq]
  exact hrun

theorem Laid.kmalloc_not_bounded (h : Laid s bs) (hsize : size < WORD) (hbounded : ¬ Bounded s size) :
    ¬ KmallocSafe s size := by
  have hlarge : WORD ≤ size + 25 := Nat.le_of_not_lt fun hlt => hbounded (Or.inl hlt)
  obtain ⟨p, s', hrun, haddr⟩ := h.kmalloc_wraps hsize hbounded
  rintro (⟨f, hhalt⟩ | ⟨p', s'', hrun', -, hreuses | hcreates⟩)
  · rw [hrun] at hhalt
    cases hhalt
  · obtain ⟨e, he, hsuits, -⟩ := hreuses
    exact h.nothing_suits hlarge e he hsuits
  · rw [hrun] at hrun'
    cases hrun'
    have hmoved := hcreates.addr
    lia

/-! ## Runs

As long as all requests are bounded the heap is laid out as always, so that the question comes down
to the next request alone.
-/

/-- Requests that are bounded, and anything else. -/
def BoundedOp (s : Session) : Op → Prop
  | .kmalloc size => Bounded s.heap size
  | _ => True

instance (s : Session) (op : Op) : Decidable (BoundedOp s op) :=
  match op with
  | .kmalloc size => inferInstanceAs (Decidable (Bounded s.heap size))
  | .kfree _ => isTrue trivial
  | .write _ _ => isTrue trivial

/-- A bounded request that returns has not wrapped. -/
theorem noWrap_of_bounded {s t : Session} {op : Op} (h : Inv s) (hgood : BoundedOp s op)
    (hstep : perform s op = some t) : NoWrap s op := by
  cases op with
  | kmalloc size =>
      obtain ⟨bs, hlaid, -⟩ := h
      refine Nat.lt_of_not_le fun hlarge => ?_
      have hfull : getTotalBlockSize size > getHeapFree s.heap := by
        rcases hgood with hlt | hfree
        · omega
        · rw [getTotalBlockSize]
          lia
      have hhalt : kmalloc s.heap size = .error (.panic "Heap Full or Expansion Failed") := by
        rw [kmalloc, hlaid.find_none hlarge, ok_seq]
        dsimp only
        rw [mallocNew, if_pos hfull]
      simp only [perform, hhalt] at hstep
      split at hstep
      · cases hstep
      · cases hstep
  | kfree p => trivial
  | write x value => trivial

/-- After every run of bounded requests, a request of any 64-bit size is safe exactly when it is
bounded too. -/
theorem kmalloc_safe_iff {hooks : OarrayHooks} {m : Memory} {ops : List Op} {s : Session}
    (hrun : Run (Checked BoundedOp (StepOf perform)) ⟨kallocInit hooks m, []⟩ ops s) {size : Nat}
    (hsize : size < WORD) : KmallocSafe s.heap size ↔ Bounded s.heap size := by
  have hinv : Inv s := by
    refine Run.invariant Inv (inv_init hooks m) ?_ hrun
    intro s op t h hstep
    exact inv_perform h (noWrap_of_bounded h hstep.1 hstep.2) hstep.2
  obtain ⟨bs, hlaid, -⟩ := hinv
  refine ⟨fun hsafe => ?_, hlaid.kmalloc_safe⟩
  refine Decidable.byContradiction fun hbounded => ?_
  exact hlaid.kmalloc_not_bounded hsize hbounded hsafe

theorem kmalloc_safe_usual :
    ∃ s, Run (Checked BoundedOp (StepOf perform)) ⟨kallocInit ⟨0, 0, 0⟩ fun _ => 0, []⟩
        [.kmalloc 512, .kfree (BLOCKS_START + 13)] s ∧
      (KmallocSafe s.heap 100 ↔ Bounded s.heap 100) := by
  have hsome : ([.kmalloc 512, .kfree (BLOCKS_START + 13)].foldlM
      (fun s op => if BoundedOp s op then perform s op else none)
        ⟨kallocInit ⟨0, 0, 0⟩ fun _ => 0, []⟩).isSome := by decide +kernel
  obtain ⟨s, hs⟩ := Option.isSome_iff_exists.mp hsome
  have hrun := run_checked_of_foldlM hs
  exact ⟨s, hrun, kmalloc_safe_iff hrun (by decide)⟩

/-- The largest size there is wraps to 24, and the heap has that much free. -/
theorem kmalloc_not_safe :
    ¬ KmallocSafe (kallocInit ⟨0, 0, 0⟩ fun _ => 0) (WORD - 1) :=
  (laid_init ⟨0, 0, 0⟩ fun _ => 0).kmalloc_not_bounded (by decide) (by decide +kernel)

end Twos.Heap
