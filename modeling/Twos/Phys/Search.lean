import Twos.Phys.Bits

/-!
# The search of `phys_malloc`

The two nested loops look for `n` free pages in a row and take the first such run. The loops skip a
word that has no free page without touching the count of the run they are in, so a run can seem to
go on across the skipped word. `ScanUnbroken` is the condition under which that never happens: a
full word is reached in the middle of a run only if the search has already ended. Under it
`physMalloc_spec` says exactly what the routine does. A search for a single page meets it always.

* `ScanInv` is the invariant: the count is the length of the free run that ends at the page, and no
  run of `n` pages has ended before. `scanBit_rule` and `scanWord_rule` are the inner and the outer
  loop.
* `mark_rule` is the loop that marks, whose mask is right.
* `physMalloc_rule` puts search and marking together for any postcondition of the search, so that the
  scan can also be described in another way.
-/

namespace Twos.Phys

open Lib

/-- The `n` pages from `start` on are free. -/
def FreeRun (pmm : Pmm) (start n : Nat) : Prop := ∀ i, i < n → bitAt pmm (start + i) = false

/-- No full word comes right after a free page, unless `n` free pages in a row end before it. -/
def ScanUnbroken (s : Physmem) (n : Nat) : Prop :=
  ∀ idx, idx + 1 < s.mmEnd → wordAt s.pmm (idx + 1) = FULL →
    bitAt s.pmm (WORD_BITS * idx + 63) = false →
    ∃ start, start + n ≤ WORD_BITS * (idx + 1) ∧ FreeRun s.pmm start n

theorem scanUnbroken_one (s : Physmem) : ScanUnbroken s 1 := by
  intro idx _ _ hfree
  refine ⟨WORD_BITS * idx + 63, by lia, fun i hi => ?_⟩
  have hi0 : i = 0 := by omega
  subst hi0
  exact hfree

/-! ## The loops

The invariant of the scan says of the pages looked at so far that no run fits in them, and of the
count that it is the run that ends here. A full word is skipped without a look at the count, and
that keeps the invariant only if the count is zero there. This is the condition under which the scan
is the search for the first fit.
-/

/-- What the locals of the scan say when the pages below `q` have been looked at: the run that ends
at `q` is as long as the count, it cannot be extended downwards, and nothing below `q` fits. -/
structure ScanInv (pmm : Pmm) (n q : Nat) (s : Scan) : Prop where
  le : s.contiguousFreePages ≤ q
  free : FreeRun pmm (q - s.contiguousFreePages) s.contiguousFreePages
  maximal : s.contiguousFreePages < q → bitAt pmm (q - s.contiguousFreePages - 1) = true
  start : 0 < s.contiguousFreePages →
    s.startIdx * WORD_BITS + s.startBit = q - s.contiguousFreePages
  none : ∀ a, a + n ≤ q → ¬ FreeRun pmm a n

/-- The locals at the `return`: the first run of `n` free pages. -/
structure ScanFound (pmm : Pmm) (n limit : Nat) (s : Scan) : Prop where
  free : FreeRun pmm (s.startIdx * WORD_BITS + s.startBit) n
  le : s.startIdx * WORD_BITS + s.startBit + n ≤ limit
  first : ∀ a, a < s.startIdx * WORD_BITS + s.startBit → ¬ FreeRun pmm a n

theorem scanInv_zero (pmm : Pmm) {n : Nat} (hn : 0 < n) : ScanInv pmm n 0 ⟨0, 0, 0⟩ where
  le := Nat.le_refl _
  free := fun _ h => absurd h (Nat.not_lt_zero _)
  maximal := fun h => absurd h (Nat.lt_irrefl _)
  start := fun h => absurd h (Nat.lt_irrefl _)
  none := fun a h => by omega

/-- A page that is not free ends every run that reaches it. -/
theorem scanInv_used {pmm : Pmm} {n q : Nat} {s : Scan} (hn : 0 < n) (hinv : ScanInv pmm n q s)
    (hq : bitAt pmm q = true) : ScanInv pmm n (q + 1) { s with contiguousFreePages := 0 } where
  le := Nat.zero_le _
  free := fun _ h => absurd h (Nat.not_lt_zero _)
  maximal := fun _ => by simpa using hq
  start := fun h => absurd h (Nat.lt_irrefl _)
  none := by
    intro a ha hrun
    rcases Nat.lt_or_ge q (a + n) with hlast | hbefore
    · -- the run would contain page `q`
      have hpage := hrun (q - a) (by omega)
      rw [Nat.add_sub_cancel' (by omega : a ≤ q), hq] at hpage
      cases hpage
    · exact hinv.none a hbefore hrun

/-- A free page makes the run one longer, and either that is the length wanted or nothing fits
yet. -/
theorem scanBit_free {pmm : Pmm} {n idx bit limit : Nat} {s : Scan}
    (hinv : ScanInv pmm n (WORD_BITS * idx + bit) s)
    (hlimit : WORD_BITS * idx + bit + 1 ≤ limit)
    (hq : bitAt pmm (WORD_BITS * idx + bit) = false) (s' : Scan)
    (hcount : s'.contiguousFreePages = s.contiguousFreePages + 1)
    (hstart : s'.startIdx * WORD_BITS + s'.startBit =
      WORD_BITS * idx + bit - s.contiguousFreePages) :
    Outcome (ScanInv pmm n (WORD_BITS * idx + bit + 1)) (ScanFound pmm n limit)
      (if s'.contiguousFreePages = n then .error s' else .ok s' : Except Scan Scan) := by
  have hle := hinv.le
  generalize WORD_BITS * idx + bit = q at *
  -- the page prolongs the run that ends in front of it
  have hrun : FreeRun pmm (q - s.contiguousFreePages) (s.contiguousFreePages + 1) := by
    intro i hi
    rcases Nat.lt_or_eq_of_le (Nat.le_of_lt_succ hi) with hlt | heq
    · exact hinv.free i hlt
    · rw [heq, Nat.sub_add_cancel hle]
      exact hq
  -- and no run that ends at it is longer
  have hlong : ∀ a, a + n ≤ q + 1 → FreeRun pmm a n → n ≤ s.contiguousFreePages + 1 := by
    intro a ha hfree
    rcases Nat.lt_or_ge q (a + n) with hlast | hbefore
    · -- it ends at `q`, so it is no longer than the run that ends there
      refine Nat.le_of_not_lt fun hlt => ?_
      have hpage := hfree (q - s.contiguousFreePages - 1 - a) (by omega)
      rw [Nat.add_sub_cancel' (by omega), hinv.maximal (by omega)] at hpage
      cases hpage
    · exact absurd hfree (hinv.none a hbefore)
  split
  · -- the run has its `n` pages
    next hfound =>
    refine ⟨?_, ?_, ?_⟩
    · rw [hstart, ← hfound, hcount]
      exact hrun
    · omega
    · intro a ha hfree
      exact hinv.none a (by omega) hfree
  · -- it has not, and the next page comes
    next hmore =>
    refine ⟨by omega, ?_, ?_, ?_, ?_⟩
    · rw [hcount, Nat.succ_sub_succ]
      exact hrun
    · intro hlt
      rw [hcount, Nat.succ_sub_succ]
      exact hinv.maximal (by omega)
    · intro _
      rw [hstart, hcount, Nat.succ_sub_succ]
    · intro a ha hfree
      have := hlong a ha hfree
      rcases Nat.lt_or_ge q (a + n) with hlast | hbefore
      · -- then the count had reached `n` before page `q`
        exact hinv.none (q - s.contiguousFreePages) (by omega)
          (fun i hi => hinv.free i (by omega))
      · exact hinv.none a hbefore hfree

theorem scanBit_rule {pmm : Pmm} {n idx bit limit : Nat} {s : Scan} (hn : 0 < n)
    (hbit : bit < WORD_BITS) (hlimit : WORD_BITS * (idx + 1) ≤ limit)
    (hinv : ScanInv pmm n (WORD_BITS * idx + bit) s) :
    Outcome (ScanInv pmm n (WORD_BITS * idx + bit + 1)) (ScanFound pmm n limit)
      (scanBit n idx (wordAt pmm idx) bit s) := by
  have hpage : bitAt pmm (WORD_BITS * idx + bit) = (wordAt pmm idx).getLsbD bit := by
    unfold bitAt
    rw [show (WORD_BITS * idx + bit) / WORD_BITS = idx by lia,
      show (WORD_BITS * idx + bit) % WORD_BITS = bit by lia]
  simp only [scanBit, and_bit_eq_zero hbit, ← hpage]
  cases hq : bitAt pmm (WORD_BITS * idx + bit) with
  | true => exact scanInv_used hn hinv hq
  | false =>
      have hnext : WORD_BITS * idx + bit + 1 ≤ limit := by lia
      by_cases hzero : s.contiguousFreePages = 0
      · simp only [if_true, if_pos hzero]
        apply scanBit_free hinv hnext hq ⟨s.contiguousFreePages + 1, idx, bit⟩ rfl
        dsimp only
        lia
      · simp only [if_true, if_neg hzero]
        apply scanBit_free hinv hnext hq { s with contiguousFreePages := s.contiguousFreePages + 1 } rfl
        apply hinv.start
        omega

/-- A word of the scan. A full word leaves the locals alone, which is right only because no run is
being counted when the search gets there. -/
theorem scanWord_rule {s : Physmem} {n idx : Nat} {scan : Scan} (hn : 0 < n)
    (hidx : idx < s.mmEnd) (hbroken : ScanUnbroken s n)
    (hinv : ScanInv s.pmm n (WORD_BITS * idx) scan) :
    Outcome (ScanInv s.pmm n (WORD_BITS * (idx + 1))) (ScanFound s.pmm n (WORD_BITS * s.mmEnd))
      (scanWord n s.pmm idx scan) := by
  simp only [scanWord]
  split
  · -- a full word is skipped, and the count must have been 0
    next hfull =>
    have hused : ∀ i, i < WORD_BITS → bitAt s.pmm (WORD_BITS * idx + i) = true := fun i hi =>
      bitAt_of_full (by decide) (by rw [show (WORD_BITS * idx + i) / WORD_BITS = idx by lia]; exact hfull)
    have hcount : scan.contiguousFreePages = 0 := by
      cases idx with
      | zero => have := hinv.le; omega
      | succ idx =>
          refine Nat.eq_zero_of_not_pos fun hpos => ?_
          -- the page below the full word is free, so something fits before it
          have hle := hinv.le
          have hlast := hinv.free (scan.contiguousFreePages - 1) (by omega)
          obtain ⟨a, ha, hrun⟩ := hbroken idx hidx hfull (by
            rw [← hlast]
            congr 1
            lia)
          exact hinv.none a ha hrun
    refine ⟨by omega, fun i hi => by omega, fun _ => ?_, fun h => by omega, ?_⟩
    · rw [hcount]
      have := hused 63 (by decide)
      rwa [show WORD_BITS * (idx + 1) - 0 - 1 = WORD_BITS * idx + 63 by lia]
    · intro a ha hrun
      rcases Nat.lt_or_ge (WORD_BITS * idx) (a + n) with hlast | hbefore
      · -- the last page of the run is inside the full word
        have hpage := hrun (n - 1) (by omega)
        have hu := hused (a + (n - 1) - WORD_BITS * idx) (by lia)
        rw [Nat.add_sub_cancel' (by omega), hpage] at hu
        cases hu
      · exact hinv.none a hbefore hrun
  · -- any other word is gone through bit by bit
    exact forLt_rule (fun bit => ScanInv s.pmm n (WORD_BITS * idx + bit)) _ hinv
      (fun bit hbit scan' h => scanBit_rule hn hbit (by lia) h)

/-- The whole scan, for a request of at least one page. -/
theorem scan_rule {s : Physmem} {n : Nat} (hn : 0 < n) (hbroken : ScanUnbroken s n) :
    Outcome (ScanInv s.pmm n (WORD_BITS * s.mmEnd)) (ScanFound s.pmm n (WORD_BITS * s.mmEnd))
      (forLt (scanWord n s.pmm) s.mmEnd ⟨0, 0, 0⟩) :=
  forLt_rule (fun idx => ScanInv s.pmm n (WORD_BITS * idx)) _ (scanInv_zero s.pmm hn)
    (fun _ hidx _ h => scanWord_rule hn hidx hbroken h)

/-- A request for no pages never matches the count, which is at least one when it is compared. -/
theorem scan_rule_zero (s : Physmem) :
    Outcome (fun _ => True) (fun _ => False) (forLt (scanWord 0 s.pmm) s.mmEnd ⟨0, 0, 0⟩) := by
  have hbit : ∀ idx bit scan,
      Outcome (fun _ => True) (fun _ => False) (scanBit 0 idx (wordAt s.pmm idx) bit scan) := by
    intro idx bit scan
    unfold scanBit
    split
    · simp
    · trivial
  refine forLt_rule (fun _ _ => True) _ trivial (fun idx _ scan _ => ?_)
  simp only [scanWord]
  split
  · trivial
  · exact forLt_rule (fun _ _ => True) _ trivial (fun bit _ scan _ => hbit idx bit scan)

/-! ## Marking what was found -/

theorem markPage_rule (pmm : Pmm) {startIdx startBit i : Nat}
    (hpage : startIdx * WORD_BITS + startBit + i < PMM_PAGES) :
    ∃ pmm', markPage startIdx startBit i pmm = .ok pmm' ∧
      ∀ q, bitAt pmm' q =
        (bitAt pmm q || decide (q = startIdx * WORD_BITS + startBit + i)) := by
  have hidx : startIdx + (startBit + i) / WORD_BITS < PMM_SIZE := by lia
  refine ⟨_, if_pos hidx, fun q => ?_⟩
  rw [bitAt_assign _ hidx, getLsbD_bit (Nat.mod_lt _ (by decide))]
  have hiff : (q / WORD_BITS = startIdx + (startBit + i) / WORD_BITS ∧
      decide (q % WORD_BITS = (startBit + i) % WORD_BITS) = true) ↔
      q = startIdx * WORD_BITS + startBit + i := by
    rw [decide_eq_true_eq]
    lia
  by_cases hq : q = startIdx * WORD_BITS + startBit + i
  · rw [if_pos (hiff.mpr hq), decide_eq_true hq, Bool.or_true]
  · rw [if_neg (fun h => hq (hiff.mp h)), decide_eq_false hq, Bool.or_false]

/-- Marking `n` pages sets their bits and no others. -/
theorem mark_rule (pmm : Pmm) {startIdx startBit n : Nat}
    (hend : startIdx * WORD_BITS + startBit + n ≤ PMM_PAGES) :
    ∃ pmm', forLt (markPage startIdx startBit) n pmm = .ok pmm' ∧
      ∀ q, bitAt pmm' q =
        (bitAt pmm q || decide (startIdx * WORD_BITS + startBit ≤ q ∧
          q < startIdx * WORD_BITS + startBit + n)) := by
  have h : Outcome (fun pmm' => ∀ q, bitAt pmm' q =
      (bitAt pmm q || decide (startIdx * WORD_BITS + startBit ≤ q ∧
        q < startIdx * WORD_BITS + startBit + n))) (fun _ => False)
      (forLt (markPage startIdx startBit) n pmm) := by
    apply forLt_rule (fun i pmm' => ∀ q, bitAt pmm' q =
      (bitAt pmm q || decide (startIdx * WORD_BITS + startBit ≤ q ∧
        q < startIdx * WORD_BITS + startBit + i)))
    · intro q
      have hnone : ¬ (startIdx * WORD_BITS + startBit ≤ q ∧
          q < startIdx * WORD_BITS + startBit + 0) := by omega
      rw [decide_eq_false hnone, Bool.or_false]
    · intro i hi pmm₁ hbits
      have hpage : startIdx * WORD_BITS + startBit + i < PMM_PAGES := by omega
      obtain ⟨pmm₂, hmark, hbit⟩ := markPage_rule pmm₁ hpage
      rw [hmark]
      intro q
      rw [hbit, hbits, Bool.or_assoc, ← Bool.decide_or]
      congr 2
      apply propext
      omega
  exact h.returns

/-! ## The routine

What the scan found is marked, and its address is what is returned. 0 stands for nothing found, and is
the address of page 0 as well; `physMalloc_spec` keeps the two apart.
-/

/-- `s'` is `s` with the `n` pages from `start` on marked used. -/
structure Marked (s : Physmem) (n start : Nat) (s' : Physmem) : Prop where
  bits : ∀ q, bitAt s'.pmm q = (bitAt s.pmm q || decide (start ≤ q ∧ q < start + n))
  rest : { s' with pmm := s.pmm } = s

variable {s : Physmem} {size : BitVec 64} {n : Nat}

theorem Marked.mmEnd {start : Nat} {s' : Physmem} (h : Marked s n start s') :
    s'.mmEnd = s.mmEnd := by
  have hsame : ({ s' with pmm := s.pmm } : Physmem).mmEnd = s.mmEnd := by rw [h.rest]
  exact hsame

/-- A run that the scan has found is marked, and its address returned. -/
theorem physMalloc_of_found {found : Scan} (hn : numPages size = n)
    (hrun : forLt (scanWord n s.pmm) s.mmEnd ⟨0, 0, 0⟩ = .error found)
    (hend : found.startIdx * WORD_BITS + found.startBit + n ≤ PMM_PAGES) :
    ∃ s', physMalloc s size =
        .ok ((found.startIdx * WORD_BITS + found.startBit) * PAGE_SIZE, s') ∧
      Marked s n (found.startIdx * WORD_BITS + found.startBit) s' := by
  obtain ⟨pmm', hmark, hbits⟩ := mark_rule s.pmm hend
  refine ⟨{ s with pmm := pmm' }, ?_, hbits, rfl⟩
  simp only [physMalloc, hn, hrun, hmark]
  show Except.ok _ = Except.ok _
  rw [Nat.mod_eq_of_lt (by lia)]

theorem physMalloc_of_none {last : Scan} (hn : numPages size = n)
    (hrun : forLt (scanWord n s.pmm) s.mmEnd ⟨0, 0, 0⟩ = .ok last) :
    physMalloc s size = .ok (0, s) := by
  simp only [physMalloc, hn, hrun]

/-- What the routine makes of what its scan comes to: it marks the run that was found, or it leaves
everything as it was. -/
theorem physMalloc_rule (P E : Scan → Prop)
    (hscan : 0 < numPages size →
      Outcome P E (forLt (scanWord (numPages size) s.pmm) s.mmEnd ⟨0, 0, 0⟩))
    (hend : ∀ found, E found →
      found.startIdx * WORD_BITS + found.startBit + numPages size ≤ WORD_BITS * s.mmEnd) :
    (∃ found s', 0 < numPages size ∧ E found ∧
      physMalloc s size = .ok ((found.startIdx * WORD_BITS + found.startBit) * PAGE_SIZE, s') ∧
      Marked s (numPages size) (found.startIdx * WORD_BITS + found.startBit) s') ∨
    (physMalloc s size = .ok (0, s) ∧ (0 < numPages size → ∃ last, P last)) := by
  have hmm := s.mmEnd_le
  rcases Nat.eq_zero_or_pos (numPages size) with hzero | hpos
  · have hnothing := scan_rule_zero s
    match hrun : forLt (scanWord 0 s.pmm) s.mmEnd ⟨0, 0, 0⟩, hnothing with
    | .ok _, _ =>
        exact Or.inr ⟨physMalloc_of_none hzero hrun, fun h => absurd hzero (Nat.ne_of_gt h)⟩
  · match hrun : forLt (scanWord (numPages size) s.pmm) s.mmEnd ⟨0, 0, 0⟩, hscan hpos with
    | .ok last, hlast => exact Or.inr ⟨physMalloc_of_none rfl hrun, fun _ => ⟨last, hlast⟩⟩
    | .error found, hfound =>
        have hle := hend found hfound
        obtain ⟨s', hreturns, hmarked⟩ := physMalloc_of_found rfl hrun (by lia)
        exact Or.inl ⟨found, s', hpos, hfound, hreturns, hmarked⟩

/-- `s'` is `s` with the first `n` free pages in a row, those from `start` on, marked used. -/
structure FirstFit (s : Physmem) (n start : Nat) (s' : Physmem) : Prop where
  pos : 0 < n
  free : FreeRun s.pmm start n
  le : start + n ≤ WORD_BITS * s.mmEnd
  first : ∀ a, a < start → ¬ FreeRun s.pmm a n
  bits : ∀ q, bitAt s'.pmm q = (bitAt s.pmm q || decide (start ≤ q ∧ q < start + n))
  mmEnd : s'.mmEnd = s.mmEnd

/-- What `phys_malloc` does when its scan is not broken: it takes the first fit, or it fails because
there is none and leaves everything as it was. -/
theorem physMalloc_spec (h : ScanUnbroken s (numPages size)) :
    (∃ start s', physMalloc s size = .ok (start * PAGE_SIZE, s') ∧
      FirstFit s (numPages size) start s') ∨
    (physMalloc s size = .ok (0, s) ∧
      (0 < numPages size → ∀ a, a + numPages size ≤ WORD_BITS * s.mmEnd →
        ¬ FreeRun s.pmm a (numPages size))) := by
  rcases physMalloc_rule _ _ (fun hpos => scan_rule hpos h) (fun _ hfound => hfound.le) with
    ⟨found, s', hpos, hfound, hreturns, hmarked⟩ | ⟨hreturns, hnone⟩
  · exact Or.inl ⟨_, s', hreturns, hpos, hfound.free, hfound.le, hfound.first, hmarked.bits,
      hmarked.mmEnd⟩
  · refine Or.inr ⟨hreturns, fun hpos => ?_⟩
    obtain ⟨last, hlast⟩ := hnone hpos
    exact hlast.none

/-- The routine returns, whatever it finds. -/
theorem physMalloc_total {s : Physmem} {size : BitVec 64} (h : ScanUnbroken s (numPages size)) :
    ∃ a s', physMalloc s size = .ok (a, s') := by
  rcases physMalloc_spec h with ⟨start, s', hrun, -⟩ | ⟨hrun, -⟩
  · exact ⟨_, _, hrun⟩
  · exact ⟨_, _, hrun⟩

end Twos.Phys
