import Mathlib.Order.CompletePartialOrder
import Mathlib.Order.Interval.Set.Disjoint
import Twos.Phys.Search

/-!
# Exclusive ownership of pages

A session of the page allocator: any sequence of `phys_malloc` calls, and of `phys_free` calls on
what earlier calls returned. What one wants of every session is that the allocations that are live
share no page, that their bits are set, and that none of them holds a page that was in use before
the session began.

The code does not keep this. Two things go wrong: the scan of `phys_malloc` counts on across a full
word, and the mask of `phys_free` clears bits of other pages. `Harmless` says when a call does
neither, and sessions of harmless calls do keep it.

* `physFree_spec` is what `phys_free` does to the bits; `physMalloc_spec` comes from the search.
* `Inv` adds to `Exclusive` what one step needs: the initial pages are still in use, and live
  allocations lie in the bitmap. `inv_malloc` and `inv_free` are the two cases of `inv_step`.
* `session_exclusive` is the result over whole sessions, and `step_total` says that harmless calls
  never fault. `session_not_exclusive` is each of the two defects in a session.
-/

namespace Twos.Phys

open Lib

/-- The result of a `phys_malloc(size)` that has not been freed. -/
structure Alloc where
  addr : Nat
  size : BitVec 64
  deriving DecidableEq

/-- `size` rounded up to pages, with no wrapping. -/
def Alloc.pages (a : Alloc) : Nat := (a.size.toNat + (PAGE_SIZE - 1)) / PAGE_SIZE

/-- The addresses an allocation owns. -/
def Alloc.range (a : Alloc) : Set Nat := Set.Ico a.addr (a.addr + a.pages * PAGE_SIZE)

/-- Page `p` lies in the allocation. -/
def Alloc.Holds (a : Alloc) (p : Nat) : Prop := p * PAGE_SIZE ∈ a.range

/-! ## Sessions -/

/-- The allocator and the allocations that are live. -/
structure Session where
  mem : Physmem
  live : List Alloc

inductive Call where
  | malloc (size : BitVec 64)
  | free (addr : Nat) (size : BitVec 64)

/-- One call. A caller only frees what is live; there is no step for anything else, and none out of
a call that faults. -/
def step (s : Session) : Call → Option Session
  | .malloc size =>
      match physMalloc s.mem size with
      | .ok (addr, mem) => some ⟨mem, if addr = 0 then s.live else ⟨addr, size⟩ :: s.live⟩
      | .error _ => none
  | .free addr size =>
      if ⟨addr, size⟩ ∈ s.live then
        match physFree s.mem addr size with
        | .ok mem => some ⟨mem, s.live.erase ⟨addr, size⟩⟩
        | .error _ => none
      else none

/-- Live allocations own their pages alone. -/
structure Exclusive (initial : Pmm) (s : Session) : Prop where
  disjoint : s.live.Pairwise fun a b => Disjoint a.range b.range
  used : ∀ a ∈ s.live, ∀ p, a.Holds p → bitAt s.mem.pmm p = true
  fresh : ∀ a ∈ s.live, ∀ p, a.Holds p → bitAt initial p = false

/-- Page `q` is none of a call's business: it was in use before the session, or another allocation
holds it. -/
def Taken (initial : Pmm) (live : List Alloc) (q : Nat) : Prop :=
  bitAt initial q = true ∨ ∃ a ∈ live, a.Holds q

/-- The calls that stay clear of the two defects: the scan of a `phys_malloc` meets no full word in
the middle of a run, and the masks of a `phys_free` clear no page that is taken by someone else. -/
def Harmless (initial : Pmm) (s : Session) : Call → Prop
  | .malloc size => ScanUnbroken s.mem (numPages size)
  | .free addr size => ∀ p q, (Alloc.mk addr size).Holds p → Touches p q = true →
      ¬ Taken initial (s.live.erase ⟨addr, size⟩) q

/-! ## Pages and addresses -/

/-- A page-aligned allocation that lies below the end of the bitmap. -/
def Alloc.InBitmap (a : Alloc) : Prop :=
  ∃ start, a.addr = start * PAGE_SIZE ∧ start + a.pages ≤ PMM_PAGES

theorem Alloc.holds_iff {a : Alloc} {start : Nat} (h : a.addr = start * PAGE_SIZE) (p : Nat) :
    a.Holds p ↔ start ≤ p ∧ p < start + a.pages := by
  simp only [Holds, range, Set.mem_Ico, h]
  generalize a.pages = k
  lia

/-- An address in a page-aligned allocation lies in a page that the allocation holds. -/
theorem Alloc.holds_of_mem {a : Alloc} (h : a.InBitmap) {x : Nat} (hx : x ∈ a.range) :
    a.Holds (x / PAGE_SIZE) := by
  obtain ⟨start, haddr, -⟩ := h
  simp only [Holds, range, Set.mem_Ico, haddr] at hx ⊢
  generalize a.pages = k at *
  lia

/-- A request that gets pages was not large enough to wrap. -/
theorem pages_eq_numPages (addr : Nat) {size : BitVec 64} (h : 0 < numPages size) :
    (Alloc.mk addr size).pages = numPages size := by
  have hsize := size.isLt
  simp only [numPages, Alloc.pages] at h ⊢
  lia

/-! ## Freeing -/

/-- `phys_free` of an allocation clears every bit that its pages' masks touch, and no other. -/
theorem physFree_spec {s : Physmem} {addr : Nat} {size : BitVec 64}
    (h : (Alloc.mk addr size).InBitmap) :
    ∃ s', physFree s addr size = .ok s' ∧ s'.mmEnd = s.mmEnd ∧
      (∀ p q, (Alloc.mk addr size).Holds p → Touches p q = true → bitAt s'.pmm q = false) ∧
      ∀ q, (∀ p, (Alloc.mk addr size).Holds p → Touches p q = false) →
        bitAt s'.pmm q = bitAt s.pmm q := by
  obtain ⟨start, haddr, hend⟩ := h
  have hholds := Alloc.holds_iff haddr
  obtain rfl : addr = PAGE_SIZE * start := by dsimp only at haddr; lia
  generalize hk : (Alloc.mk (PAGE_SIZE * start) size).pages = k at hend hholds
  simp only [Alloc.pages] at hk
  have hcount : pageCount (PAGE_SIZE * start) (PAGE_SIZE * start + size.toNat) = k := by
    simp only [pageCount]
    lia
  have hstop : PAGE_SIZE * start + size.toNat ≤ PAGE_SIZE * PMM_PAGES := by lia
  obtain ⟨pmm', hset, hbits⟩ := setRange_spec (fun _ => false) start s.pmm hstop
  have hclear : ∀ q, bitAt pmm' q =
      if (List.range' start k).any (Touches · q) then false else bitAt s.pmm q := by
    intro q
    rw [hbits, hcount]
    exact overwrite_const _
  refine ⟨{ s with pmm := pmm' }, ?_, rfl, fun p q hp hq => ?_, fun q hq => ?_⟩
  · unfold physFree
    rw [Nat.mod_eq_of_lt (by lia), hset]
    rfl
  · -- a bit that some mask of the range has
    have hmem : p ∈ List.range' start k := by
      rw [List.mem_range'_1]
      exact (hholds p).mp hp
    exact (hclear q).trans (if_pos (List.any_eq_true.mpr ⟨p, hmem, hq⟩))
  · -- a bit that none has
    refine (hclear q).trans (if_neg fun hany => ?_)
    obtain ⟨p, hmem, ht⟩ := List.any_eq_true.mp hany
    rw [hq p ((hholds p).mpr (List.mem_range'_1.mp hmem))] at ht
    cases ht

/-! ## What every call keeps

`Inv` has more than exclusive ownership: the pages that were in use before the session must stay so,
as it is by the bits that the routine tells its pages apart. A request takes pages whose bits are
clear, so nobody owned them (`inv_malloc`); a free clears bits, and whether they are those of its
own pages is what the condition on it is about (`inv_free`).
-/

/-- The invariant of sessions: exclusive ownership, the pages in use before the session still in
use, and everything page-aligned. -/
structure Inv (initial : Pmm) (s : Session) : Prop extends Exclusive initial s where
  kept : ∀ q, bitAt initial q = true → bitAt s.mem.pmm q = true
  inBitmap : ∀ a ∈ s.live, a.InBitmap

theorem inv_init (s : Physmem) : Inv s.pmm ⟨s, []⟩ where
  disjoint := List.Pairwise.nil
  used := fun _ h => absurd h List.not_mem_nil
  fresh := fun _ h => absurd h List.not_mem_nil
  kept := fun _ h => h
  inBitmap := fun _ h => absurd h List.not_mem_nil

/-- Pages that are taken have their bits set. -/
theorem Inv.taken_used {initial : Pmm} {s : Session} (h : Inv initial s) {live : List Alloc}
    (hlive : ∀ a ∈ live, a ∈ s.live) {q : Nat} (hq : Taken initial live q) :
    bitAt s.mem.pmm q = true := by
  rcases hq with hq | ⟨a, ha, hq⟩
  · exact h.kept q hq
  · exact h.used a (hlive a ha) q hq

/-- A first fit takes pages nobody owned. -/
theorem inv_malloc {initial : Pmm} {s : Session} {size : BitVec 64} {start : Nat} {mem : Physmem}
    (h : Inv initial s) (hfit : FirstFit s.mem (numPages size) start mem) :
    Inv initial ⟨mem, if start * PAGE_SIZE = 0 then s.live
      else ⟨start * PAGE_SIZE, size⟩ :: s.live⟩ := by
  have hpages := pages_eq_numPages (start * PAGE_SIZE) hfit.pos
  have hholds := Alloc.holds_iff (a := ⟨start * PAGE_SIZE, size⟩) rfl
  rw [hpages] at hholds
  -- `phys_malloc` clears no bit,
  have hmono : ∀ q, bitAt s.mem.pmm q = true → bitAt mem.pmm q = true := by
    intro q hq
    rw [hfit.bits, hq, Bool.true_or]
  -- takes pages that were free,
  have hnew : ∀ p, (Alloc.mk (start * PAGE_SIZE) size).Holds p → bitAt s.mem.pmm p = false := by
    intro p hp
    obtain ⟨hlo, hhi⟩ := (hholds p).mp hp
    rw [← Nat.add_sub_cancel' hlo]
    exact hfit.free _ (by omega)
  -- and marks them
  have hset : ∀ p, (Alloc.mk (start * PAGE_SIZE) size).Holds p → bitAt mem.pmm p = true := by
    intro p hp
    rw [hfit.bits, decide_eq_true ((hholds p).mp hp), Bool.or_true]
  have hin : (Alloc.mk (start * PAGE_SIZE) size).InBitmap := by
    refine ⟨start, rfl, ?_⟩
    have := hfit.le
    have := s.mem.mmEnd_le
    rw [hpages]
    lia
  split
  · -- address 0 means that nothing was found, and no allocation is recorded
    exact ⟨⟨h.disjoint, fun a ha p hp => hmono p (h.used a ha p hp), h.fresh⟩,
      fun q hq => hmono q (h.kept q hq), h.inBitmap⟩
  · refine ⟨⟨List.pairwise_cons.mpr ⟨fun a ha => ?_, h.disjoint⟩, ?_, ?_⟩,
      fun q hq => hmono q (h.kept q hq), ?_⟩
    · -- an address in both would lie in a page that is free and used
      rw [Set.disjoint_left]
      intro x hx hxa
      have hfree := hnew _ (Alloc.holds_of_mem hin hx)
      rw [h.used a ha _ (Alloc.holds_of_mem (h.inBitmap a ha) hxa)] at hfree
      cases hfree
    · rintro a ha p hp
      rcases List.mem_cons.mp ha with rfl | ha
      · exact hset p hp
      · exact hmono p (h.used a ha p hp)
    · rintro a ha p hp
      rcases List.mem_cons.mp ha with rfl | ha
      · cases hq : bitAt initial p with
        | false => rfl
        | true =>
            -- a page from before the session is still in use, so it cannot have been free
            have hfree := hnew p hp
            rw [h.kept p hq] at hfree
            cases hfree
      · exact h.fresh a ha p hp
    · rintro a ha
      rcases List.mem_cons.mp ha with rfl | ha
      · exact hin
      · exact h.inBitmap a ha

/-- A harmless free clears no page that is taken. -/
theorem inv_free {initial : Pmm} {s : Session} {addr : Nat} {size : BitVec 64} {mem : Physmem}
    (h : Inv initial s) (hgood : Harmless initial s (.free addr size))
    (hkeep : ∀ q, (∀ p, (Alloc.mk addr size).Holds p → Touches p q = false) →
      bitAt mem.pmm q = bitAt s.mem.pmm q) :
    Inv initial ⟨mem, s.live.erase ⟨addr, size⟩⟩ := by
  have hsub : ∀ a ∈ s.live.erase ⟨addr, size⟩, a ∈ s.live := fun a => List.mem_of_mem_erase
  have htaken : ∀ q, Taken initial (s.live.erase ⟨addr, size⟩) q → bitAt mem.pmm q = true := by
    intro q hq
    rw [hkeep q fun p hp => Bool.eq_false_iff.mpr fun ht => hgood p q hp ht hq]
    exact h.taken_used hsub hq
  exact ⟨⟨h.disjoint.sublist List.erase_sublist, fun a ha p hp => htaken p (Or.inr ⟨a, ha, hp⟩),
      fun a ha => h.fresh a (hsub a ha)⟩,
    fun q hq => htaken q (Or.inl hq), fun a ha => h.inBitmap a (hsub a ha)⟩

/-- A harmless call of a session returns, and keeps the invariant. -/
theorem inv_step {initial : Pmm} {s : Session} {call : Call} (h : Inv initial s)
    (hgood : Harmless initial s call) {t : Session} (hstep : step s call = some t) :
    Inv initial t := by
  cases call with
  | malloc size =>
      rcases physMalloc_spec hgood with ⟨start, mem, hrun, hfit⟩ | ⟨hrun, -⟩
      · simp only [step, hrun, Option.some.injEq] at hstep
        subst hstep
        exact inv_malloc h hfit
      · simp only [step, hrun, if_true, Option.some.injEq] at hstep
        subst hstep
        exact h
  | free addr size =>
      by_cases hmem : Alloc.mk addr size ∈ s.live
      · obtain ⟨mem, hrun, -, -, hkeep⟩ := physFree_spec (s := s.mem) (h.inBitmap _ hmem)
        simp only [step, if_pos hmem, hrun, Option.some.injEq] at hstep
        subst hstep
        exact inv_free h hgood hkeep
      · simp only [step, if_neg hmem] at hstep
        cases hstep

/-- What the condition leaves out is not a call that faults: as long as the invariant holds, a
harmless request and a free of something live both return. -/
theorem step_total {initial : Pmm} {s : Session} {call : Call} (h : Inv initial s)
    (hgood : Harmless initial s call)
    (hlive : ∀ addr size, call = .free addr size → Alloc.mk addr size ∈ s.live) :
    ∃ t, step s call = some t := by
  cases call with
  | malloc size =>
      obtain ⟨a, mem, hrun⟩ := physMalloc_total hgood
      exact ⟨_, by simp only [step, hrun]; rfl⟩
  | free addr size =>
      have hmem := hlive addr size rfl
      obtain ⟨mem, hrun, -⟩ := physFree_spec (s := s.mem) (h.inBitmap _ hmem)
      exact ⟨_, by simp only [step, if_pos hmem, hrun]; rfl⟩

/-! ## Sessions keep ownership exclusive

The theorem is the induction over the session. The two machines after it are one on which everything
goes well, with two allocations in one word at the end, and one on which both defects show.
-/

/-- After every session of harmless calls, from any bitmap, live allocations own their pages
alone. -/
theorem session_exclusive {initial : Physmem} {calls : List Call} {s : Session}
    (hrun : Run (Checked (Harmless initial.pmm) (StepOf step)) ⟨initial, []⟩ calls s) :
    Exclusive initial.pmm s := by
  have hinv : Inv initial.pmm s := by
    refine Run.invariant (Inv initial.pmm) (inv_init initial) ?_ hrun
    intro s call t h hstep
    exact inv_step h hstep.1 hstep.2
  exact hinv.toExclusive

theorem one_word_fits : 1 ≤ PMM_SIZE := by decide

/-- A machine of `words` bitmap words in which only the pages of the list are free. -/
def machine (words : Nat) (hwords : words ≤ PMM_SIZE) (free : List Nat) : Physmem where
  pmm := free.foldl (fun pmm p => assign pmm (p / WORD_BITS) (1#64 <<< (p % WORD_BITS)) false)
    (Vector.replicate PMM_SIZE FULL)
  mmEnd := words
  mmEnd_le := hwords
  end_ := words * WORD_BITS * PAGE_SIZE
  totalAvail := free.length * PAGE_SIZE

/-- `n` pages as a size. -/
def pagesSize (n : Nat) : BitVec 64 := BitVec.ofNat 64 (n * PAGE_SIZE)

/-- One word, with two free pages whose bits `set_phys` cannot tell apart. -/
def twins : Physmem := machine 1 one_word_fits [9, 41]

/-- Three words: the last page of the first is free, the second is full, and the first page of the
third is free. -/
def gap : Physmem := machine 3 (by decide) [63, 128]

/-- One word, with six free pages in two groups. -/
def scattered : Physmem := machine 1 one_word_fits [9, 10, 11, 41, 42, 43]

/-- With one word in use there is no full word behind a free page. -/
theorem scanUnbroken_oneWord {s : Physmem} (h : s.mmEnd = 1) (n : Nat) : ScanUnbroken s n := by
  intro idx hidx
  omega

/-- Two pages and one page are taken, the two are given back, and one of them is taken again. In
the end pages 9 and 11 are live, in one word, and page 10 between them is free. -/
theorem session_exclusive_scattered :
    ∃ s, Run (Checked (Harmless scattered.pmm) (StepOf step)) ⟨scattered, []⟩
        [.malloc (pagesSize 2), .malloc (pagesSize 1), .free (9 * PAGE_SIZE) (pagesSize 2),
          .malloc (pagesSize 1)] s ∧
      s.live = [⟨9 * PAGE_SIZE, pagesSize 1⟩, ⟨11 * PAGE_SIZE, pagesSize 1⟩] ∧
      Exclusive scattered.pmm s := by
  have htaken : ([.malloc (pagesSize 2), .malloc (pagesSize 1)].foldlM step ⟨scattered, []⟩).map
      Session.live = some [⟨11 * PAGE_SIZE, pagesSize 1⟩, ⟨9 * PAGE_SIZE, pagesSize 2⟩] := by
    decide +kernel
  have hend : ([.malloc (pagesSize 2), .malloc (pagesSize 1), .free (9 * PAGE_SIZE) (pagesSize 2),
      .malloc (pagesSize 1)].foldlM step ⟨scattered, []⟩).map Session.live =
      some [⟨9 * PAGE_SIZE, pagesSize 1⟩, ⟨11 * PAGE_SIZE, pagesSize 1⟩] := by
    decide +kernel
  obtain ⟨s, hs, hlive⟩ := Option.map_eq_some_iff.mp hend
  simp only [List.foldlM_cons, List.foldlM_nil, Option.bind_eq_bind, Option.bind_eq_some_iff,
    Option.pure_def, Option.some.injEq] at hs
  obtain ⟨t₁, h₁, t₂, h₂, t₃, h₃, t₄, h₄, rfl⟩ := hs
  have hlive₂ : t₂.live = [⟨11 * PAGE_SIZE, pagesSize 1⟩, ⟨9 * PAGE_SIZE, pagesSize 2⟩] := by
    simpa [h₁, h₂] using htaken
  -- the masks for the pages 9 and 10 reach nothing beyond them
  have hfree : Harmless scattered.pmm t₂ (.free (9 * PAGE_SIZE) (pagesSize 2)) := by
    intro p q hp hq hused
    have hpages : (Alloc.mk (9 * PAGE_SIZE) (pagesSize 2)).pages = 2 := by decide +kernel
    have hpage := (Alloc.holds_iff (a := ⟨9 * PAGE_SIZE, pagesSize 2⟩) rfl p).mp hp
    simp only [Touches, decide_eq_true_eq] at hq
    have hbits : q = 9 ∨ q = 10 := by lia
    rcases hused with hinitial | ⟨a, ha, hholds⟩
    · rcases hbits with rfl | rfl
      · exact absurd hinitial (by decide +kernel)
      · exact absurd hinitial (by decide +kernel)
    · have herase : t₂.live.erase ⟨9 * PAGE_SIZE, pagesSize 2⟩ =
          [⟨11 * PAGE_SIZE, pagesSize 1⟩] := by
        rw [hlive₂]; decide +kernel
      obtain rfl : a = ⟨11 * PAGE_SIZE, pagesSize 1⟩ := by simpa [herase] using ha
      have hother := (Alloc.holds_iff (a := ⟨11 * PAGE_SIZE, pagesSize 1⟩) rfl q).mp hholds
      omega
  have hmalloc (t : Session) : Harmless scattered.pmm t (.malloc (pagesSize 1)) := by
    have hone : numPages (pagesSize 1) = 1 := by decide +kernel
    exact hone ▸ scanUnbroken_one t.mem
  have hrun : Run (Checked (Harmless scattered.pmm) (StepOf step)) ⟨scattered, []⟩
      [.malloc (pagesSize 2), .malloc (pagesSize 1), .free (9 * PAGE_SIZE) (pagesSize 2),
        .malloc (pagesSize 1)] t₄ :=
    (((Run.nil.snoc ⟨scanUnbroken_oneWord rfl _, h₁⟩).snoc ⟨hmalloc t₁, h₂⟩).snoc
      ⟨hfree, h₃⟩).snoc ⟨hmalloc t₃, h₄⟩
  exact ⟨t₄, hrun, hlive, session_exclusive hrun⟩

/-- Both defects at work. Freeing page 41 clears the bit of page 9, which is still live; and a
request for two pages gets the two pages around a full word, the second of which was in use from
the start. -/
theorem session_not_exclusive :
    (bitAt twins.pmm 0 = true ∧ ∃ s, Run (StepOf step) ⟨twins, []⟩
      [.malloc (pagesSize 1), .malloc (pagesSize 1), .free (41 * PAGE_SIZE) (pagesSize 1)] s ∧
      ¬ Exclusive twins.pmm s) ∧
    (bitAt gap.pmm 0 = true ∧ ∃ s, Run (StepOf step) ⟨gap, []⟩ [.malloc (pagesSize 2)] s ∧
      ¬ Exclusive gap.pmm s) := by
  refine ⟨⟨by decide +kernel, ?_⟩, ⟨by decide +kernel, ?_⟩⟩
  · -- the page that is freed, 41, has the mask of page 9
    have hcomp : ([.malloc (pagesSize 1), .malloc (pagesSize 1),
        .free (41 * PAGE_SIZE) (pagesSize 1)].foldlM step ⟨twins, []⟩).map
          (fun s => (s.live, bitAt s.mem.pmm 9)) =
        some ([⟨9 * PAGE_SIZE, pagesSize 1⟩], false) := by decide +kernel
    obtain ⟨s, hs, heq⟩ := Option.map_eq_some_iff.mp hcomp
    obtain ⟨hlive, hbit⟩ := Prod.mk.inj heq
    refine ⟨s, run_of_foldlM hs, fun hex => ?_⟩
    have hused := hex.used ⟨9 * PAGE_SIZE, pagesSize 1⟩ (by simp [hlive]) 9
      ((Alloc.holds_iff rfl 9).mpr (by decide +kernel))
    rw [hbit] at hused
    cases hused
  · -- the full word between the pages 63 and 128 is counted over
    have hcomp : ([.malloc (pagesSize 2)].foldlM step ⟨gap, []⟩).map Session.live =
        some [⟨63 * PAGE_SIZE, pagesSize 2⟩] := by decide +kernel
    obtain ⟨s, hs, hlive⟩ := Option.map_eq_some_iff.mp hcomp
    refine ⟨s, run_of_foldlM hs, fun hex => ?_⟩
    have hfree := hex.fresh ⟨63 * PAGE_SIZE, pagesSize 2⟩ (by simp [hlive]) 64
      ((Alloc.holds_iff rfl 64).mpr (by decide +kernel))
    exact absurd hfree (by decide +kernel)

end Twos.Phys
