import Twos.Phys.Exclusive

/-!
# What `phys_malloc` counts

The scan of `phys_malloc` goes over a full word as if it were not there. So what it looks for is not
`n` free pages in a row, but `n` free pages with nothing between them other than full words, and the
first of those is what it takes. The count of free pages below a page says all of this in one
number: the scan is at page `q` with the count `c` when `freeBelow q` is `c` more than it was at the
start of what it counts.

Against this stands `plainMalloc`, which takes the first pages that are really in a row.

* `CountInv` is the invariant of the scan; `countInv_used`, `countInv_free` and `countInv_full` are
  its three steps, and `scan_counts` is the whole of it.
* `physMalloc_counts` says what the routine returns and marks, for every bitmap and size.
* `physMalloc_complete` follows for what it marks and when it finds something, and
  `physMalloc_plain_iff` compares it with `plainMalloc`: the two agree exactly when a real run ends
  no later than what the scan counts first (`RunsEndFirst`).
-/

namespace Twos.Phys

open Lib

/-- How many of the pages below `q` are free. -/
def freeBelow (pmm : Pmm) : Nat → Nat
  | 0 => 0
  | q + 1 => freeBelow pmm q + if bitAt pmm q = false then 1 else 0

/-- Between `a` and `b` there are free pages and full words only. -/
def Span (pmm : Pmm) (a b : Nat) : Prop :=
  ∀ p, a ≤ p → p < b → bitAt pmm p = false ∨ wordAt pmm (p / WORD_BITS) = FULL

/-! ## Counting -/

variable {pmm : Pmm} {a b n q : Nat}

theorem freeBelow_free (h : bitAt pmm q = false) : freeBelow pmm (q + 1) = freeBelow pmm q + 1 := by
  rw [freeBelow, if_pos h]

theorem freeBelow_used (h : bitAt pmm q = true) : freeBelow pmm (q + 1) = freeBelow pmm q := by
  rw [freeBelow, if_neg (by simp [h]), Nat.add_zero]

theorem freeBelow_add_le (pmm : Pmm) (a k : Nat) :
    freeBelow pmm a ≤ freeBelow pmm (a + k) ∧ freeBelow pmm (a + k) ≤ freeBelow pmm a + k := by
  induction k with
  | zero => exact ⟨Nat.le_refl _, Nat.le_refl _⟩
  | succ k ih =>
      have hstep : freeBelow pmm (a + k + 1) =
          freeBelow pmm (a + k) + if bitAt pmm (a + k) = false then 1 else 0 := rfl
      rw [← Nat.add_assoc, hstep]
      split
      · omega
      · omega

theorem freeBelow_mono (h : a ≤ b) : freeBelow pmm a ≤ freeBelow pmm b := by
  have hle := (freeBelow_add_le pmm a (b - a)).1
  rwa [Nat.add_sub_cancel' h] at hle

/-- Free pages in a row, by their number. -/
theorem freeRun_iff : FreeRun pmm a n ↔ freeBelow pmm (a + n) = freeBelow pmm a + n := by
  induction n with
  | zero => exact iff_of_true (fun _ h => absurd h (Nat.not_lt_zero _)) rfl
  | succ n ih =>
      have hle := (freeBelow_add_le pmm a n).2
      have hsplit : FreeRun pmm a (n + 1) ↔ FreeRun pmm a n ∧ bitAt pmm (a + n) = false := by
        constructor
        · exact fun h => ⟨fun i hi => h i (by omega), h n (by omega)⟩
        · rintro ⟨hrun, hlast⟩ i hi
          rcases Nat.lt_or_eq_of_le (Nat.le_of_lt_succ hi) with hlt | heq
          · exact hrun i hlt
          · exact heq ▸ hlast
      rw [hsplit, ih, ← Nat.add_assoc, freeBelow]
      split
      · next hfree => exact ⟨fun h => by omega, fun h => ⟨by omega, hfree⟩⟩
      · next hused => exact ⟨fun h => absurd h.2 hused, fun h => by omega⟩

theorem FreeRun.span (h : FreeRun pmm a n) : Span pmm a (a + n) := by
  intro p hp hlt
  have hpage := h (p - a) (by omega)
  rw [Nat.add_sub_cancel' hp] at hpage
  exact Or.inl hpage

theorem Span.succ (h : Span pmm a q)
    (hq : bitAt pmm q = false ∨ wordAt pmm (q / WORD_BITS) = FULL) : Span pmm a (q + 1) := by
  intro p hp hlt
  rcases Nat.lt_or_eq_of_le (Nat.le_of_lt_succ hlt) with hbefore | heq
  · exact h p hp hbefore
  · exact heq ▸ hq

theorem Span.prev (h : Span pmm a (q + 1)) : Span pmm a q :=
  fun p hp hlt => h p hp (Nat.lt_succ_of_lt hlt)

/-! ## The scan

What the code counts is not a run, since a full word is skipped without a reset. `freeBelow` counts
as the code does, and `CountInv` ties the locals to it at every page: a free page makes the count
one more, a used one in a word with free pages ends it, and the pages of a full word change nothing.
-/

/-- The locals of the scan when the pages below `q` have been looked at. -/
structure CountInv (pmm : Pmm) (n q : Nat) (s : Scan) : Prop where
  start : 0 < s.contiguousFreePages →
    s.startIdx * WORD_BITS + s.startBit < q ∧
      bitAt pmm (s.startIdx * WORD_BITS + s.startBit) = false ∧
      Span pmm (s.startIdx * WORD_BITS + s.startBit) q ∧
      freeBelow pmm q =
        freeBelow pmm (s.startIdx * WORD_BITS + s.startBit) + s.contiguousFreePages
  longest : ∀ a, Span pmm a q → freeBelow pmm q ≤ freeBelow pmm a + s.contiguousFreePages
  none : ∀ a b, b ≤ q → Span pmm a b → freeBelow pmm b < freeBelow pmm a + n

/-- Page `start` is the first of `n` free pages that are counted before `e`, and nothing that ends
earlier has as many. -/
structure Counted (pmm : Pmm) (n start e : Nat) : Prop where
  lt : start < e
  free : bitAt pmm start = false
  span : Span pmm start e
  count : freeBelow pmm e = freeBelow pmm start + n
  first : ∀ a b, b < e → Span pmm a b → freeBelow pmm b < freeBelow pmm a + n

/-- The locals at the `return`. -/
def CountFound (pmm : Pmm) (n limit : Nat) (s : Scan) : Prop :=
  ∃ e, e ≤ limit ∧ Counted pmm n (s.startIdx * WORD_BITS + s.startBit) e

theorem countInv_zero (pmm : Pmm) (hn : 0 < n) : CountInv pmm n 0 ⟨0, 0, 0⟩ where
  start := fun h => absurd h (Nat.lt_irrefl _)
  longest := fun a _ => Nat.zero_le _
  none := by
    intro a b hb _
    obtain rfl : b = 0 := by omega
    rw [freeBelow]
    omega

/-- Nothing is counted behind the end. -/
theorem freeBelow_lt_of_le (hn : 0 < n) (h : b ≤ a) : freeBelow pmm b < freeBelow pmm a + n := by
  have hmono := @freeBelow_mono pmm _ _ h
  omega

/-- A used page ends what is counted, unless its word is full. -/
theorem countInv_used {s : Scan} (hn : 0 < n) (hinv : CountInv pmm n q s)
    (hq : bitAt pmm q = true) (hword : wordAt pmm (q / WORD_BITS) ≠ FULL) :
    CountInv pmm n (q + 1) { s with contiguousFreePages := 0 } := by
  have hends : ∀ a, Span pmm a (q + 1) → q + 1 ≤ a := by
    intro a hspan
    refine Nat.le_of_not_lt fun hlt => ?_
    rcases hspan q (by omega) (by omega) with hfree | hfull
    · rw [hq] at hfree
      cases hfree
    · exact hword hfull
  refine ⟨fun h => absurd h (Nat.lt_irrefl _), fun a hspan => ?_, fun a b hb hspan => ?_⟩
  · exact freeBelow_mono (hends a hspan)
  · rcases Nat.lt_or_eq_of_le hb with hlt | heq
    · exact hinv.none a b (by omega) hspan
    · subst heq
      exact freeBelow_lt_of_le hn (hends a hspan)

/-- A page of a full word changes nothing. -/
theorem countInv_skip {s : Scan} (hinv : CountInv pmm n q s) (hq : bitAt pmm q = true)
    (hword : wordAt pmm (q / WORD_BITS) = FULL) : CountInv pmm n (q + 1) s := by
  refine ⟨fun h => ?_, fun a hspan => ?_, fun a b hb hspan => ?_⟩
  · obtain ⟨hlt, hfree, hspan, hcount⟩ := hinv.start h
    exact ⟨by omega, hfree, hspan.succ (Or.inr hword), by rw [freeBelow_used hq, hcount]⟩
  · rw [freeBelow_used hq]
    exact hinv.longest a hspan.prev
  · rcases Nat.lt_or_eq_of_le hb with hlt | heq
    · exact hinv.none a b (by omega) hspan
    · subst heq
      rw [freeBelow_used hq]
      exact hinv.none a q (Nat.le_refl q) hspan.prev

/-- A free page makes the count one more, and either that is the number wanted or nothing has it
yet. -/
theorem countInv_free {limit : Nat} {s s' : Scan} (hinv : CountInv pmm n q s)
    (hlimit : q + 1 ≤ limit) (hq : bitAt pmm q = false)
    (hcount : s'.contiguousFreePages = s.contiguousFreePages + 1)
    (hstart : s'.startIdx * WORD_BITS + s'.startBit =
      if s.contiguousFreePages = 0 then q else s.startIdx * WORD_BITS + s.startBit) :
    Outcome (CountInv pmm n (q + 1)) (CountFound pmm n limit)
      (if s'.contiguousFreePages = n then .error s' else .ok s' : Except Scan Scan) := by
  have hnext : s'.startIdx * WORD_BITS + s'.startBit < q + 1 ∧
      bitAt pmm (s'.startIdx * WORD_BITS + s'.startBit) = false ∧
      Span pmm (s'.startIdx * WORD_BITS + s'.startBit) (q + 1) ∧
      freeBelow pmm (q + 1) = freeBelow pmm (s'.startIdx * WORD_BITS + s'.startBit) +
        s'.contiguousFreePages := by
    rw [hstart, hcount, freeBelow_free hq]
    split
    · -- the page is the first of what is counted
      next hzero =>
      refine ⟨by omega, hq, fun p hp hlt => ?_, by omega⟩
      obtain rfl : p = q := by omega
      exact Or.inl hq
    · -- the count goes on, over full words at most
      next hmore =>
      obtain ⟨hlt, hfree, hspan, hsum⟩ := hinv.start (by omega)
      exact ⟨by omega, hfree, hspan.succ (Or.inl hq), by omega⟩
  have hlongest : ∀ a, Span pmm a (q + 1) →
      freeBelow pmm (q + 1) ≤ freeBelow pmm a + s'.contiguousFreePages := by
    intro a hspan
    have hbefore := hinv.longest a hspan.prev
    rw [freeBelow_free hq, hcount]
    omega
  split
  · -- the `n`-th page has been counted, so the search ends here
    next hfound =>
    refine ⟨q + 1, hlimit, hnext.1, hnext.2.1, hnext.2.2.1, by rw [hnext.2.2.2, hfound], ?_⟩
    exact fun a b hb hspan => hinv.none a b (by omega) hspan
  · -- no span up to the next page has `n` free pages yet
    next hmore =>
    refine ⟨fun _ => hnext, hlongest, fun a b hb hspan => ?_⟩
    rcases Nat.lt_or_eq_of_le hb with hlt | heq
    · exact hinv.none a b (by omega) hspan
    · subst heq
      have hle := hlongest a hspan
      -- the count was below `n`, and it is not `n` now
      have hbelow : s.contiguousFreePages < n := by
        rcases Nat.eq_zero_or_pos s.contiguousFreePages with hzero | hpos
        · have := hinv.none q q (Nat.le_refl q) (fun p hp hlt => by omega)
          omega
        · obtain ⟨-, -, hspan', hsum⟩ := hinv.start hpos
          have := hinv.none _ q (Nat.le_refl q) hspan'
          omega
      omega

theorem scanBit_counts {idx bit limit : Nat} {s : Scan} (hn : 0 < n) (hbit : bit < WORD_BITS)
    (hlimit : WORD_BITS * (idx + 1) ≤ limit) (hword : wordAt pmm idx ≠ FULL)
    (hinv : CountInv pmm n (WORD_BITS * idx + bit) s) :
    Outcome (CountInv pmm n (WORD_BITS * idx + bit + 1)) (CountFound pmm n limit)
      (scanBit n idx (wordAt pmm idx) bit s) := by
  have hidx : (WORD_BITS * idx + bit) / WORD_BITS = idx := by lia
  have hpage : bitAt pmm (WORD_BITS * idx + bit) = (wordAt pmm idx).getLsbD bit := by
    unfold bitAt
    rw [hidx, show (WORD_BITS * idx + bit) % WORD_BITS = bit by lia]
  simp only [scanBit, and_bit_eq_zero hbit, ← hpage]
  cases hq : bitAt pmm (WORD_BITS * idx + bit) with
  | true => exact countInv_used hn hinv hq (by rw [hidx]; exact hword)
  | false =>
      by_cases hzero : s.contiguousFreePages = 0
      · simp only [if_true, if_pos hzero]
        refine countInv_free hinv (by lia) hq (show (Scan.mk _ idx bit).contiguousFreePages = _
          from rfl) ?_
        rw [if_pos hzero]
        dsimp only
        lia
      · simp only [if_true, if_neg hzero]
        refine countInv_free hinv (by lia) hq (show (Scan.mk _ s.startIdx s.startBit).contiguousFreePages
          = _ from rfl) ?_
        rw [if_neg hzero]

/-- The pages of a full word, one after the other. -/
theorem countInv_full {idx : Nat} {s : Scan} (hfull : wordAt pmm idx = FULL)
    (hinv : CountInv pmm n (WORD_BITS * idx) s) (i : Nat) (hi : i ≤ WORD_BITS) :
    CountInv pmm n (WORD_BITS * idx + i) s := by
  induction i with
  | zero => exact hinv
  | succ i ih =>
      have hword : wordAt pmm ((WORD_BITS * idx + i) / WORD_BITS) = FULL := by
        rw [show (WORD_BITS * idx + i) / WORD_BITS = idx by lia]
        exact hfull
      exact countInv_skip (ih (by omega)) (bitAt_of_full (by decide) hword) hword

theorem scanWord_counts {s : Physmem} {idx : Nat} {scan : Scan} (hn : 0 < n) (hidx : idx < s.mmEnd)
    (hinv : CountInv s.pmm n (WORD_BITS * idx) scan) :
    Outcome (CountInv s.pmm n (WORD_BITS * (idx + 1))) (CountFound s.pmm n (WORD_BITS * s.mmEnd))
      (scanWord n s.pmm idx scan) := by
  simp only [scanWord]
  split
  · next hfull => exact countInv_full hfull hinv WORD_BITS (Nat.le_refl _)
  · next hword =>
    exact forLt_rule (fun bit => CountInv s.pmm n (WORD_BITS * idx + bit)) _ hinv
      (fun bit hbit scan' h => scanBit_counts hn hbit (by lia) hword h)

theorem scan_counts (s : Physmem) (hn : 0 < n) :
    Outcome (CountInv s.pmm n (WORD_BITS * s.mmEnd)) (CountFound s.pmm n (WORD_BITS * s.mmEnd))
      (forLt (scanWord n s.pmm) s.mmEnd ⟨0, 0, 0⟩) :=
  forLt_rule (fun idx => CountInv s.pmm n (WORD_BITS * idx)) _ (countInv_zero s.pmm hn)
    (fun _ hidx _ h => scanWord_counts hn hidx h)

/-! ## What the routine does -/

theorem Counted.le {start e : Nat} (h : Counted pmm n start e) : start + n ≤ e := by
  have hle := (freeBelow_add_le pmm start (e - start)).2
  rw [Nat.add_sub_cancel' (Nat.le_of_lt h.lt), h.count] at hle
  have hlt := h.lt
  omega

/-- Nothing that is counted ends earlier. -/
theorem Counted.end_le {start e : Nat} (h : Counted pmm n start e) (hspan : Span pmm a b)
    (hcount : freeBelow pmm b = freeBelow pmm a + n) : e ≤ b := by
  refine Nat.le_of_not_lt fun hlt => ?_
  have hbelow := h.first a b hlt hspan
  omega

/-- A run that ends no later is what is counted. -/
theorem Counted.eq_of_run {start e : Nat} (h : Counted pmm n start e) (hn : 0 < n)
    (hrun : FreeRun pmm a n) (hle : a + n ≤ e) : a = start := by
  have hsum := freeRun_iff.mp hrun
  have hend : a + n = e := Nat.le_antisymm hle (h.end_le hrun.span hsum)
  have hcount := h.count
  have hfree : bitAt pmm a = false := hrun 0 hn
  rw [hend] at hsum
  -- both are free, and as many free pages lie below the one as below the other
  rcases Nat.lt_trichotomy a start with hless | heq | hmore
  · have hmono := @freeBelow_mono pmm _ _ (Nat.succ_le_of_lt hless)
    rw [Nat.succ_eq_add_one, freeBelow_free hfree] at hmono
    omega
  · exact heq
  · have hmono := @freeBelow_mono pmm _ _ (Nat.succ_le_of_lt hmore)
    rw [Nat.succ_eq_add_one, freeBelow_free h.free] at hmono
    omega

/-- `phys_malloc`, for every bitmap and every size: it takes what it counts first, or it fails and
leaves everything as it was. -/
theorem physMalloc_counts (s : Physmem) (size : BitVec 64) :
    (∃ start e s', 0 < numPages size ∧ physMalloc s size = .ok (start * PAGE_SIZE, s') ∧
      e ≤ WORD_BITS * s.mmEnd ∧ Counted s.pmm (numPages size) start e ∧
      Marked s (numPages size) start s') ∨
    (physMalloc s size = .ok (0, s) ∧ (0 < numPages size → ∀ a b, b ≤ WORD_BITS * s.mmEnd →
      Span s.pmm a b → freeBelow s.pmm b < freeBelow s.pmm a + numPages size)) := by
  have hend (found : Scan)
      (hfound : CountFound s.pmm (numPages size) (WORD_BITS * s.mmEnd) found) :
      found.startIdx * WORD_BITS + found.startBit + numPages size ≤ WORD_BITS * s.mmEnd := by
    obtain ⟨e, hlimit, hcounted⟩ := hfound
    exact hcounted.le.trans hlimit
  rcases physMalloc_rule _ _ (scan_counts s) hend with
    ⟨found, s', hpos, ⟨e, hlimit, hcounted⟩, hreturns, hmarked⟩ | ⟨hreturns, hnone⟩
  · exact Or.inl ⟨_, e, s', hpos, hreturns, hlimit, hcounted, hmarked⟩
  · refine Or.inr ⟨hreturns, fun hpos => ?_⟩
    obtain ⟨last, hlast⟩ := hnone hpos
    exact hlast.none

/-! ## What is found, and what is left alone -/

/-- `size` rounded up to pages, with no wrapping. -/
def ceilPages (size : BitVec 64) : Nat := (size.toNat + PAGE_SIZE - 1) / PAGE_SIZE

theorem numPages_eq_ceilPages {size : BitVec 64} (h : size.toNat ≤ 2 ^ 64 - PAGE_SIZE) :
    numPages size = ceilPages size := by
  rw [numPages, ceilPages, Nat.mod_eq_of_lt (by lia)]

/-- With page 0 in use: `phys_malloc` finds pages whenever there are some in a row, it changes
nothing when it fails, and what it returns otherwise starts with a page that was free, lies in the
part of the bitmap that is scanned, and is all that is marked. -/
theorem physMalloc_complete {s : Physmem} (hzero : bitAt s.pmm 0 = true) {size : BitVec 64}
    (hpos : 0 < size.toNat) (hsize : size.toNat ≤ 2 ^ 64 - PAGE_SIZE) :
    ∃ a s', physMalloc s size = .ok (a, s') ∧
      ((∃ start, start + ceilPages size ≤ WORD_BITS * s.mmEnd ∧
        FreeRun s.pmm start (ceilPages size)) → a ≠ 0) ∧
      (a = 0 → s'.pmm = s.pmm) ∧
      (a ≠ 0 → ∃ p, a = p * PAGE_SIZE ∧ bitAt s.pmm p = false ∧
        p + ceilPages size ≤ WORD_BITS * s.mmEnd ∧
        (∀ q, p ≤ q → q < p + ceilPages size → bitAt s'.pmm q = true) ∧
        ∀ q, ¬ (p ≤ q ∧ q < p + ceilPages size) → bitAt s'.pmm q = bitAt s.pmm q) := by
  have hpages : 0 < ceilPages size := by
    rw [ceilPages]
    lia
  rcases physMalloc_counts s size with
    ⟨start, e, s', -, hrun, hlimit, hcounted, hmarked⟩ | ⟨hrun, hnone⟩
  · rw [numPages_eq_ceilPages hsize] at hcounted hmarked
    have hle := hcounted.le
    have hfree := hcounted.free
    have hstart : start ≠ 0 := by
      intro heq
      rw [heq, hzero] at hfree
      cases hfree
    have ha : start * PAGE_SIZE ≠ 0 := Nat.mul_ne_zero hstart (by decide)
    refine ⟨start * PAGE_SIZE, s', hrun, fun _ => ha, fun h => absurd h ha, fun _ =>
      ⟨start, rfl, hfree, by omega, fun q hlo hhi => ?_, fun q hq => ?_⟩⟩
    · rw [hmarked.bits, decide_eq_true ⟨hlo, hhi⟩, Bool.or_true]
    · rw [hmarked.bits, decide_eq_false hq, Bool.or_false]
  · -- had there been a run, it would have been counted
    rw [numPages_eq_ceilPages hsize] at hnone
    refine ⟨0, s, hrun, ?_, fun _ => rfl, fun h => absurd rfl h⟩
    rintro ⟨start, hle, hrun⟩
    have hlt := hnone hpages start (start + ceilPages size) hle hrun.span
    rw [freeRun_iff.mp hrun] at hlt
    exact absurd hlt (Nat.lt_irrefl _)

/-- A page from a bitmap with two free pages and a full word between them. -/
theorem physMalloc_complete_gap : bitAt gap.pmm 0 = true ∧
    ∃ a s', physMalloc gap (pagesSize 1) = .ok (a, s') ∧
      ((∃ start, start + ceilPages (pagesSize 1) ≤ WORD_BITS * gap.mmEnd ∧
        FreeRun gap.pmm start (ceilPages (pagesSize 1))) → a ≠ 0) ∧
      (a = 0 → s'.pmm = gap.pmm) ∧
      (a ≠ 0 → ∃ p, a = p * PAGE_SIZE ∧ bitAt gap.pmm p = false ∧
        p + ceilPages (pagesSize 1) ≤ WORD_BITS * gap.mmEnd ∧
        (∀ q, p ≤ q → q < p + ceilPages (pagesSize 1) → bitAt s'.pmm q = true) ∧
        ∀ q, ¬ (p ≤ q ∧ q < p + ceilPages (pagesSize 1)) → bitAt s'.pmm q = bitAt gap.pmm q) := by
  have hzero : bitAt gap.pmm 0 = true := by decide +kernel
  exact ⟨hzero, physMalloc_complete hzero (by decide) (by decide)⟩

/-! ## The plain search

The search one would write down, with `markRun` for its marks, to be compared with what the routine
finds. Where the routine finds a run, it is the same run, because both are the first. So the two
differ only where something is counted that is not in a row, before anything that is
(`RunsEndFirst`).
-/

instance (pmm : Pmm) (start n : Nat) : Decidable (FreeRun pmm start n) :=
  inferInstanceAs (Decidable (∀ i, i < n → bitAt pmm (start + i) = false))

/-- The lowest page that starts a run of `n` free pages below `limit`. -/
def plainSearch (pmm : Pmm) (n limit : Nat) : Option Nat :=
  (List.range limit).find? fun start => decide (start + n ≤ limit ∧ FreeRun pmm start n)

/-- The `n` pages from `start` on marked used. -/
def markRun (pmm : Pmm) (start n : Nat) : Pmm :=
  (List.range n).foldl (fun pmm i =>
    assign pmm ((start + i) / WORD_BITS) (1#64 <<< ((start + i) % WORD_BITS)) true) pmm

/-- What `phys_malloc` is for: the first run of free pages that is long enough, or 0. -/
def plainMalloc (s : Physmem) (size : BitVec 64) : Nat × Physmem :=
  match plainSearch s.pmm (ceilPages size) (WORD_BITS * s.mmEnd) with
  | some start => (start * PAGE_SIZE, { s with pmm := markRun s.pmm start (ceilPages size) })
  | none => (0, s)

/-- Wherever `n` free pages are counted, `n` pages that are really in a row end there or earlier. -/
def RunsEndFirst (s : Physmem) (n : Nat) : Prop :=
  ∀ a b, b ≤ WORD_BITS * s.mmEnd → Span s.pmm a b → freeBelow s.pmm b = freeBelow s.pmm a + n →
    ∃ start, start + n ≤ b ∧ FreeRun s.pmm start n

theorem markRun_bits (pmm : Pmm) {start n : Nat} (h : start + n ≤ PMM_PAGES) (q : Nat) :
    bitAt (markRun pmm start n) q = (bitAt pmm q || decide (start ≤ q ∧ q < start + n)) := by
  induction n with
  | zero =>
      have hnone : ¬ (start ≤ q ∧ q < start + 0) := by omega
      rw [decide_eq_false hnone, Bool.or_false]
      rfl
  | succ n ih =>
      have hstep : markRun pmm start (n + 1) = assign (markRun pmm start n)
          ((start + n) / WORD_BITS) (1#64 <<< ((start + n) % WORD_BITS)) true := by
        rw [markRun, List.range_succ, List.foldl_append]
        rfl
      rw [hstep, bitAt_assign _ (by lia), getLsbD_bit (Nat.mod_lt _ (by decide)), ih (by omega)]
      have hiff : (q / WORD_BITS = (start + n) / WORD_BITS ∧
          decide (q % WORD_BITS = (start + n) % WORD_BITS) = true) ↔ q = start + n := by
        rw [decide_eq_true_eq]
        lia
      by_cases hq : q = start + n
      · rw [if_pos (hiff.mpr hq), decide_eq_true (by omega), Bool.or_true]
      · rw [if_neg (fun h => hq (hiff.mp h))]
        congr 2
        apply propext
        omega

theorem Marked.eq_markRun {s s' : Physmem} {n start : Nat} (h : Marked s n start s')
    (hle : start + n ≤ PMM_PAGES) : s' = { s with pmm := markRun s.pmm start n } := by
  have hpmm : s'.pmm = markRun s.pmm start n := table_ext (by decide) fun q => by
    rw [h.bits, markRun_bits s.pmm hle]
  have hrest := h.rest
  cases s
  cases s'
  simp only [Physmem.mk.injEq] at hrest hpmm ⊢
  exact ⟨hpmm, hrest.2⟩

theorem plainSearch_some {limit start : Nat} (h : plainSearch pmm n limit = some start) :
    start + n ≤ limit ∧ FreeRun pmm start n ∧
      ∀ a, a < start → a + n ≤ limit → ¬ FreeRun pmm a n := by
  obtain ⟨hfits, -, hfirst⟩ := List.find?_range_eq_some.mp h
  rw [decide_eq_true_eq] at hfits
  refine ⟨hfits.1, hfits.2, fun a ha hle hrun => ?_⟩
  have hnot := hfirst a ha
  rw [decide_eq_true ⟨hle, hrun⟩] at hnot
  cases hnot

theorem plainSearch_none {limit : Nat} (h : plainSearch pmm n limit = none) {a : Nat}
    (ha : a < limit) (hle : a + n ≤ limit) : ¬ FreeRun pmm a n := by
  intro hrun
  have hnot := List.find?_range_eq_none.mp h a ha
  rw [decide_eq_true ⟨hle, hrun⟩] at hnot
  cases hnot

/-- A request that wraps, or that is for nothing, fails, and there is nothing to be found for it. -/
theorem plainMalloc_of_numPages_zero {s : Physmem} {size : BitVec 64} (h : numPages size = 0) :
    plainMalloc s size = (0, s) ∧ RunsEndFirst s (ceilPages size) := by
  have hmm := s.mmEnd_le
  have hsize := size.isLt
  have hceil : ceilPages size = 0 ∨ WORD_BITS * s.mmEnd < ceilPages size := by
    rw [numPages] at h
    rw [ceilPages]
    lia
  unfold plainMalloc
  rcases hceil with hzero | hlarge
  · -- a size of 0, or one that wraps to it: every run of no pages is there at page 0
    rw [hzero]
    refine ⟨?_, fun a b _ _ _ => ⟨0, Nat.zero_le _, fun i hi => absurd hi (Nat.not_lt_zero i)⟩⟩
    cases hsearch : plainSearch s.pmm 0 (WORD_BITS * s.mmEnd) with
    | none => rfl
    | some start =>
        obtain ⟨-, -, hfirst⟩ := plainSearch_some hsearch
        obtain rfl : start = 0 := Nat.eq_zero_of_not_pos fun hpos =>
          hfirst 0 hpos (Nat.zero_le _) fun i hi => absurd hi (Nat.not_lt_zero i)
        rfl
  · -- a size that wraps and would need more pages than there are
    constructor
    · cases hsearch : plainSearch s.pmm (ceilPages size) (WORD_BITS * s.mmEnd) with
      | none => rfl
      | some start =>
          have hle := (plainSearch_some hsearch).1
          omega
    · intro a b hb _ hcount
      have hle := (freeBelow_add_le s.pmm 0 b).2
      rw [Nat.zero_add, freeBelow] at hle
      omega

/-- When the routine finds something, the plain search finds the same exactly if it is a run. -/
theorem plainMalloc_eq_iff {s : Physmem} {size : BitVec 64} {start e : Nat}
    (hpos : 0 < ceilPages size) (hlimit : e ≤ WORD_BITS * s.mmEnd)
    (h : Counted s.pmm (ceilPages size) start e) :
    (start * PAGE_SIZE, { s with pmm := markRun s.pmm start (ceilPages size) }) =
      plainMalloc s size ↔ FreeRun s.pmm start (ceilPages size) := by
  have hmm := s.mmEnd_le
  have hle := h.le
  unfold plainMalloc
  cases hsearch : plainSearch s.pmm (ceilPages size) (WORD_BITS * s.mmEnd) with
  | none =>
      -- the plain search finds nothing
      refine iff_of_false (fun heq => ?_) (plainSearch_none hsearch (by omega) (by omega))
      -- the plain search marks nothing, but page `start` has been marked
      have hpmm : markRun s.pmm start (ceilPages size) = s.pmm :=
        congrArg (fun r => r.2.pmm) heq
      have hbit := markRun_bits s.pmm (by lia : start + ceilPages size ≤ PMM_PAGES) start
      rw [hpmm, h.free, decide_eq_true (by omega)] at hbit
      cases hbit
  | some a =>
      -- the plain search finds `a`, which is `start` if the pages from `start` are a run
      obtain ⟨-, hrun, hfirst⟩ := plainSearch_some hsearch
      constructor
      · intro heq
        have haddr : start * PAGE_SIZE = a * PAGE_SIZE := congrArg Prod.fst heq
        obtain rfl : start = a := Nat.eq_of_mul_eq_mul_right (by decide) haddr
        exact hrun
      · intro hstart
        have ha : a ≤ start := Nat.le_of_not_lt fun hlt => hfirst start hlt (by omega) hstart
        obtain rfl : a = start := h.eq_of_run hpos hrun (by omega)
        rfl

/-- The shortcut for full words is harmless exactly when runs end first. -/
theorem physMalloc_plain_iff (s : Physmem) (size : BitVec 64) :
    physMalloc s size = .ok (plainMalloc s size) ↔ RunsEndFirst s (ceilPages size) := by
  have hmm := s.mmEnd_le
  rcases physMalloc_counts s size with
    ⟨start, e, s', hpos, hrun, hlimit, hcounted, hmarked⟩ | ⟨hrun, hnone⟩
  · have hsize : size.toNat ≤ 2 ^ 64 - PAGE_SIZE := by
      have hlt := size.isLt
      rw [numPages] at hpos
      lia
    rw [numPages_eq_ceilPages hsize] at hpos hcounted hmarked
    have hle := hcounted.le
    rw [hrun, hmarked.eq_markRun (by lia), Except.ok.injEq,
      plainMalloc_eq_iff hpos hlimit hcounted]
    constructor
    · intro hstart a b _ hspan hcount
      exact ⟨start, Nat.le_trans hle (hcounted.end_le hspan hcount), hstart⟩
    · intro hends
      obtain ⟨a, ha, harun⟩ := hends start e hlimit hcounted.span hcounted.count
      exact hcounted.eq_of_run hpos harun ha ▸ harun
  · -- `phys_malloc` has found nothing
    rcases Nat.eq_zero_or_pos (numPages size) with hzero | hpos
    · obtain ⟨hplain, hends⟩ := plainMalloc_of_numPages_zero (s := s) hzero
      rw [hrun, hplain]
      exact iff_of_true rfl hends
    · have hsize : size.toNat ≤ 2 ^ 64 - PAGE_SIZE := by
        have hlt := size.isLt
        rw [numPages] at hpos
        lia
      have hnothing := hnone hpos
      rw [numPages_eq_ceilPages hsize] at hnothing
      refine iff_of_true ?_ fun a b hb hspan hcount => ?_
      · rw [hrun, plainMalloc]
        cases hsearch : plainSearch s.pmm (ceilPages size) (WORD_BITS * s.mmEnd) with
        | none => rfl
        | some a =>
            obtain ⟨hle, harun, -⟩ := plainSearch_some hsearch
            have hlt := hnothing a (a + ceilPages size) hle harun.span
            rw [freeRun_iff.mp harun] at hlt
            exact absurd hlt (Nat.lt_irrefl _)
      · have hlt := hnothing a b hb hspan
        omega

/-- Of three words the second is full: the routine takes the pages around it as two in a row. -/
theorem physMalloc_not_plain :
    physMalloc gap (pagesSize 2) ≠ .ok (plainMalloc gap (pagesSize 2)) := by
  intro heq
  have htaken : (physMalloc gap (pagesSize 2)).toOption.map Prod.fst = some (63 * PAGE_SIZE) := by
    decide +kernel
  have hplain : (plainMalloc gap (pagesSize 2)).1 = 0 := by decide +kernel
  rw [heq] at htaken
  have haddr : (plainMalloc gap (pagesSize 2)).1 = 63 * PAGE_SIZE := Option.some.inj htaken
  rw [hplain] at haddr
  cases haddr

end Twos.Phys
