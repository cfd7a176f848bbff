import Twos.Kstd.Bounds

/-!
# The scan of a format

`scanFormat` is what `__vprintf` does to its index `c`, and nothing else: which characters of the
format it reads, and where it goes on. The loop for flags passes every character below `':'`, the NUL
among them, and a conversion of a float skips as many characters again as stand before it. So the scan
may leave the format (`scanFormat_iff`).

The call may go wrong in a second way before its index does: at a conversion as much of its buffer is
cleared as the format is long, and there is one NUL more than characters. `vprintf_hasRoom` says that a
run which returns had room for the format, and `vprintf_inside_iff` puts the two together.
-/

namespace Twos.Kstd

open Lib

/-- `ch2`, which is read for `'l'` and `'L'` only. -/
def secondChar (fmt : List Nat) (ch1 j : Nat) : Except Fault Nat :=
  if ch1 = 108 ∨ ch1 = 76 then formatAt fmt (j + 1) else .ok 0

/-- The branch for a conversion: the index it leaves. -/
def convIndex (fmt : List Nat) (c : Nat) : Except Fault Nat := do
  let j ← scanConversion (fmt.drop c) c
  let ch1 ← formatAt fmt j
  let ch2 ← secondChar fmt ch1 j
  .ok (c + (Conv.of ch1 ch2).lastFmtLen (j - c))

/-- One iteration, with every read checked against the format: the index it leaves. -/
def nextIndex (fmt : List Nat) (c : Nat) : Except Fault Nat := do
  let ch ← formatAt fmt c
  let c ← if ch ≠ 37 then .ok c else convIndex fmt c
  let _ ← formatAt fmt (c + 1)
  .ok (c + 1)

/-- The loop from an index on. -/
def scanFrom (fmt : List Nat) (fuel c : Nat) : Except Fault Nat :=
  whileLoop .neverEnds (fun c => decide (fmt.getD c 0 ≠ 0)) (nextIndex fmt) fuel c

/-- The loop of `__vprintf`, as far as it concerns the format. -/
def scanFormat (fmt : List Nat) : Except Fault Nat := scanFrom fmt (fmt.length + 1) 0

/-- The scan ends at the NUL, and has read nothing behind it. -/
def ScanInside (fmt : List Nat) : Prop := scanFormat fmt = .ok fmt.length

variable {fmt bufOut : List Nat} {n c : Nat} {st st' : Printing} {args : List Arg} {piece : Piece}

/-! ## What `__vprintf` does to the index

Every iteration that goes through moves the index as one step of the scan does, whatever it prints.
So the run follows the scan, and a run that returns has followed it to the NUL.
-/

theorem emit_index {piece : Piece} (h : emit n st piece = .ok st') : st'.c = st.c := by
  obtain ⟨⟨bufOut, added⟩, -, h⟩ := seq_ok.mp h
  cases h
  rfl

theorem emits_index {pieces : List Piece} (h : pieces.foldlM (emit n) st = .ok st') :
    st'.c = st.c := by
  induction pieces generalizing st with
  | nil =>
      cases h
      rfl
  | cons piece pieces ih =>
      rw [List.foldlM_cons] at h
      obtain ⟨mid, hmid, hrest⟩ := seq_ok.mp h
      rw [ih hrest, emit_index hmid]

/-- The second character matters behind an `'l'` or `'L'` only. -/
theorem conv_second {ch1 : Nat} (h : ¬ (ch1 = 108 ∨ ch1 = 76)) (ch2 ch2' : Nat) :
    Conv.of ch1 ch2 = Conv.of ch1 ch2' := by
  unfold Conv.of
  simp only [if_neg h]

/-- Reading a character that is there. -/
theorem formatAt_le (h : c ≤ fmt.length) : formatAt fmt c = .ok (fmt.getD c 0) := if_pos h

theorem formatAt_gt (h : fmt.length < c) : formatAt fmt c = .error .outOfBounds :=
  if_neg (Nat.not_le.mpr h)

/-- A character that is not the NUL is one of the format. -/
theorem lt_of_char (h : fmt.getD c 0 ≠ 0) : c < fmt.length := by
  by_contra hge
  exact h (List.getD_eq_default _ _ (Nat.not_lt.mp hge))

/-- A conversion whose character is there. -/
theorem convIndex_eq (hflags : flags (fmt.drop c) < (fmt.drop c).length) :
    convIndex fmt c = .ok (c + (convAt (fmt.drop c)).lastFmtLen (flags (fmt.drop c))) := by
  have hj : c + flags (fmt.drop c) < fmt.length := by
    rw [List.length_drop] at hflags
    omega
  have hscan : scanConversion (fmt.drop c) c = .ok (c + flags (fmt.drop c)) := by
    rw [scanConversion_eq, if_pos hflags]
  rw [convIndex, hscan, ok_seq, formatAt_le (Nat.le_of_lt hj), ok_seq, secondChar, ← convAt_eq]
  split
  · rw [formatAt_le hj, ok_seq, Nat.add_sub_cancel_left]
  · next hl => rw [ok_seq, conv_second hl 0, Nat.add_sub_cancel_left]

/-- A conversion without a character. -/
theorem convIndex_overrun (hflags : flags (fmt.drop c) = (fmt.drop c).length) :
    convIndex fmt c = .error .outOfBounds := by
  rw [convIndex, scanConversion_eq, if_neg (Nat.not_lt.mpr (Nat.le_of_eq hflags.symm)), error_seq]

theorem nextIndex_char (hc : c < fmt.length) (hch : fmt.getD c 0 ≠ 37) :
    nextIndex fmt c = .ok (c + 1) := by
  have hnext : formatAt fmt (c + 1) = .ok (fmt.getD (c + 1) 0) := formatAt_le hc
  rw [nextIndex, formatAt_le (Nat.le_of_lt hc), ok_seq, if_pos hch, ok_seq]
  simp only [hnext, ok_seq]

theorem nextIndex_conv (hc : c < fmt.length) (hch : fmt.getD c 0 = 37) :
    nextIndex fmt c = convIndex fmt c >>= fun c => formatAt fmt (c + 1) >>= fun _ => .ok (c + 1) := by
  rw [nextIndex, formatAt_le (Nat.le_of_lt hc), ok_seq, if_neg (not_not_intro hch)]

/-- The end of an iteration reads the character behind the index. -/
theorem advance_index (h : advance fmt n st = .ok st') :
    st.c + 1 ≤ fmt.length ∧ st'.c = st.c + 1 := by
  obtain ⟨next, hnext, hrest⟩ := seq_ok.mp h
  refine ⟨Nat.le_of_not_lt fun hgt => ?_, ?_⟩
  · rw [formatAt_gt hgt] at hnext
    cases hnext
  · split at hrest
    · obtain ⟨buf, -, hemit⟩ := seq_ok.mp hrest
      exact emit_index hemit
    · cases hrest
      rfl

/-- The branch for a conversion moves the index behind the conversion. -/
theorem convert_index (h : convert fmt n st = .ok st') : convIndex fmt st.c = .ok st'.c := by
  obtain ⟨buf, -, h⟩ := seq_ok.mp h
  obtain ⟨st₁, hemit, h⟩ := seq_ok.mp h
  obtain ⟨buf', -, h⟩ := seq_ok.mp h
  obtain ⟨j, hj, h⟩ := seq_ok.mp h
  obtain ⟨⟨pieces, args⟩, -, h⟩ := seq_ok.mp h
  obtain ⟨st₂, hemits, h⟩ := seq_ok.mp h
  have hprinted := emits_index hemits
  have hindex := emit_index hemit
  dsimp only at hprinted
  rw [hindex, scanConversion_eq] at hj
  split at hj
  · next hflags =>
    obtain rfl := Except.ok.inj hj
    cases h
    rw [convIndex_eq hflags, hprinted, hindex, Nat.add_sub_cancel_left, convAt_eq]
  · cases hj

/-- An iteration of `__vprintf` that goes through moves the index as the scan does. -/
theorem vprintfStep_index (hc : fmt.getD st.c 0 ≠ 0) (h : vprintfStep fmt n st = .ok st') :
    nextIndex fmt st.c = .ok st'.c := by
  have hlt := lt_of_char hc
  rw [vprintfStep] at h
  split at h
  · next hch =>
    obtain ⟨mid, hmid, hadvance⟩ := seq_ok.mp h
    obtain ⟨buf, -, hmid⟩ := seq_ok.mp hmid
    obtain ⟨buf', -, hmid⟩ := seq_ok.mp hmid
    cases hmid
    rw [nextIndex_char hlt hch, (advance_index hadvance).2]
  · next hch =>
    obtain ⟨mid, hmid, hadvance⟩ := seq_ok.mp h
    obtain ⟨hroom, hlast⟩ := advance_index hadvance
    rw [nextIndex_conv hlt (not_not.mp hch), convert_index hmid, ok_seq, formatAt_le hroom, ok_seq,
      hlast]

/-- A run of `__vprintf` that returns goes through the format as the scan does. -/
theorem vprintf_scan {stack : List Nat} (h : vprintf stack fmt bufOut n args = .ok st) :
    scanFormat fmt = .ok st.c := by
  have hstep (s : Printing) (c : Nat) (hst : s.c = c) (hcond : decide (fmt.getD s.c 0 ≠ 0) = true)
      (s' : Printing) (hs' : vprintfStep fmt n s = .ok s') :
      ∃ c', nextIndex fmt c = .ok c' ∧ s'.c = c' := by
    subst hst
    exact ⟨s'.c, vprintfStep_index (of_decide_eq_true hcond) hs', rfl⟩
  obtain ⟨c, hrun, rfl⟩ := whileLoop_simulates (fun (s : Printing) c => s.c = c)
    (fun s c hst => by rw [hst]) hstep rfl h
  exact hrun

/-! ## Room for the format

The buffer in which characters are collected is also the one that is cleared before a conversion, by
as much as the format is long. A run that returns has therefore had room for its format, which is
the other half of the condition.
-/

theorem literalRun_char (h : c < literalRun fmt) : fmt.getD c 0 ≠ 37 := by
  induction fmt generalizing c with
  | nil => exact absurd h (Nat.not_lt_zero c)
  | cons ch fmt ih =>
      by_cases hch : ch = 37
      · rw [literalRun, hch] at h
        exact absurd h (Nat.not_lt_zero c)
      · rw [literalRun_cons hch] at h
        cases c with
        | zero => exact hch
        | succ c => exact ih (Nat.lt_of_succ_lt_succ h)

theorem literalRun_end (h : literalRun fmt < fmt.length) : fmt.getD (literalRun fmt) 0 = 37 := by
  induction fmt with
  | nil => exact absurd h (Nat.not_lt_zero _)
  | cons ch fmt ih =>
      by_cases hch : ch = 37
      · subst hch
        rfl
      · rw [literalRun_cons hch] at h ⊢
        exact ih (Nat.lt_of_succ_lt_succ h)

theorem writeBytes_ok {α : Type} {b b' bytes : List α} {off : Nat}
    (h : writeBytes b off bytes = .ok b') :
    off + bytes.length ≤ b.length ∧ b'.length = b.length := by
  rw [writeBytes] at h
  split at h
  · next hfits =>
    obtain rfl := Except.ok.inj h
    refine ⟨hfits, ?_⟩
    simp only [List.length_append, List.length_take, List.length_drop]
    omega
  · cases h

theorem emit_buf (h : emit n st piece = .ok st') : st'.k = st.k ∧ st'.buf = st.buf := by
  obtain ⟨⟨bufOut, added⟩, -, h⟩ := seq_ok.mp h
  obtain rfl := Except.ok.inj h
  exact ⟨rfl, rfl⟩

theorem advance_buf (h : advance fmt n st = .ok st') :
    st'.k = st.k ∧ st'.buf.length = st.buf.length := by
  obtain ⟨next, -, hrest⟩ := seq_ok.mp h
  split at hrest
  · obtain ⟨buf, hput, hemit⟩ := seq_ok.mp hrest
    obtain ⟨hk, hbuf⟩ := emit_buf hemit
    exact ⟨hk, hbuf ▸ (writeBytes_ok hput).2⟩
  · obtain rfl := Except.ok.inj hrest
    exact ⟨rfl, rfl⟩

/-- Until the first conversion, there was room for every character; behind it, for all of them. -/
def Reached (fmt : List Nat) (st : Printing) : Prop :=
  (st.c ≤ literalRun fmt ∧ st.c < PRINTF_BUF ∧ st.k = st.c ∧ st.buf.length = PRINTF_BUF) ∨ HasRoom fmt

theorem Reached.step (hfmt : 0 ∉ fmt) (h : Reached fmt st) (hcond : fmt.getD st.c 0 ≠ 0)
    (hrun : vprintfStep fmt n st = .ok st') : Reached fmt st' := by
  rcases h with ⟨hle, hlt, hk, hlen⟩ | hroom
  · have hinside := lt_of_char hcond
    rw [vprintfStep] at hrun
    rcases Nat.eq_or_lt_of_le hle with heq | hbefore
    · -- the first conversion clears the buffer
      have hch : fmt.getD st.c 0 = 37 := heq ▸ literalRun_end (heq ▸ hinside)
      rw [if_neg (not_not_intro hch)] at hrun
      -- the literal run is over: this is the first `%` of the format
      obtain ⟨mid, hconvert, -⟩ := seq_ok.mp hrun
      obtain ⟨buf, hclose, hconvert⟩ := seq_ok.mp hconvert
      obtain ⟨st₁, -, hconvert⟩ := seq_ok.mp hconvert
      obtain ⟨buf', hclear, -⟩ := seq_ok.mp hconvert
      have hfits := (writeBytes_ok hclear).1
      rw [(writeBytes_ok hclose).2, hlen, List.length_replicate, Nat.zero_add] at hfits
      exact Or.inr ⟨hfmt, hfits, heq ▸ hlt⟩
    · -- a character of the literal run, which is put into the buffer with a NUL behind it
      rw [if_pos (literalRun_char hbefore)] at hrun
      obtain ⟨mid, hcollect, hadvance⟩ := seq_ok.mp hrun
      obtain ⟨buf, hput, hcollect⟩ := seq_ok.mp hcollect
      obtain ⟨buf', hclose, hcollect⟩ := seq_ok.mp hcollect
      obtain rfl := Except.ok.inj hcollect
      obtain ⟨hk', hbuf'⟩ := advance_buf hadvance
      obtain ⟨hnul, hlen'⟩ := writeBytes_ok hclose
      rw [(writeBytes_ok hput).2, hlen, List.length_singleton] at hnul
      rw [(writeBytes_ok hput).2, hlen] at hlen'
      have hindex : st'.c = st.c + 1 := (advance_index hadvance).2
      refine Or.inl ⟨by omega, by omega, ?_, hbuf'.trans hlen'⟩
      rw [hk', hindex, hk]
  · exact Or.inr hroom

/-- A run that returns had room for its format. -/
theorem vprintf_hasRoom {stack bufOut : List Nat} {args : List Arg}
    (hstack : stack.length = PRINTF_BUF) (hfmt : 0 ∉ fmt)
    (hrun : vprintf stack fmt bufOut n args = .ok st) : HasRoom fmt := by
  have hstart : Reached fmt ⟨0, 0, stack, bufOut, 0, args⟩ :=
    Or.inl ⟨Nat.zero_le _, Nat.succ_pos 2047, rfl, hstack⟩
  obtain ⟨hreached, hend⟩ := whileLoop_invariant (Reached fmt)
    (fun s hs hcond s' hs' => hs.step hfmt (of_decide_eq_true hcond) hs') hstart hrun
  rcases hreached with ⟨hle, hlt, -, -⟩ | hroom
  · have hall : fmt.length ≤ st.c :=
      Nat.le_of_not_lt fun hin => of_decide_eq_false hend (char_ne_nul hfmt hin)
    have hrun := literalRun_le fmt
    exact ⟨hfmt, by omega, by omega⟩
  · exact hroom

/-! ## Where it leads -/

/-- The part of the format at an index. -/
def partAt (fmt : List Nat) (c : Nat) : Directive :=
  if fmt.getD c 0 = 37 then .conv (convAt (fmt.drop c)) else .char (fmt.getD c 0)

theorem overrun_notMem_partAt (fmt : List Nat) (c : Nat) : .overrun ≠ partAt fmt c := by
  unfold partAt
  split
  · exact Directive.noConfusion
  · exact Directive.noConfusion

/-- The scan goes on behind the part it is at, or has run over the end. -/
theorem nextIndex_cases (hlt : c < fmt.length) :
    (∃ c', nextIndex fmt c = .ok c' ∧ c < c' ∧ c' ≤ fmt.length ∧
        partsFrom fmt c = partAt fmt c :: partsFrom fmt c') ∨
      nextIndex fmt c = .error .outOfBounds ∧ .overrun ∈ partsFrom fmt c := by
  by_cases hch : fmt.getD c 0 = 37
  · rw [nextIndex_conv hlt hch, partsFrom_conv hlt hch, partAt, if_pos hch]
    by_cases hflags : flags (fmt.drop c) = (fmt.drop c).length
    · rw [convIndex_overrun hflags, if_pos hflags]
      exact Or.inr ⟨rfl, List.mem_cons_self⟩
    · have hshort := Nat.lt_of_le_of_ne (flags_le (fmt.drop c)) hflags
      have hskip : 0 < skipAt (fmt.drop c) := Nat.succ_pos _
      rw [convIndex_eq hshort, ok_seq, if_neg hflags, Nat.add_assoc, ← skipAt]
      by_cases hroom : c + skipAt (fmt.drop c) ≤ fmt.length
      · rw [formatAt_le hroom, if_pos hroom]
        exact Or.inl ⟨_, rfl, Nat.lt_add_of_pos_right hskip, hroom, rfl⟩
      · rw [formatAt_gt (Nat.lt_of_not_le hroom), if_neg hroom]
        exact Or.inr ⟨rfl, by simp⟩
  · rw [nextIndex_char hlt hch, partsFrom_char hlt hch, partAt, if_neg hch]
    exact Or.inl ⟨_, rfl, Nat.lt_succ_self c, hlt, rfl⟩

theorem nextIndex_ok (hlt : c < fmt.length) {c' : Nat} (h : nextIndex fmt c = .ok c') :
    c < c' ∧ c' ≤ fmt.length ∧ partsFrom fmt c = partAt fmt c :: partsFrom fmt c' := by
  rcases nextIndex_cases hlt with ⟨c'', hnext, hparts⟩ | ⟨hstop, -⟩
  · obtain rfl := Except.ok.inj (hnext.symm.trans h)
    exact hparts
  · rw [hstop] at h
    cases h

/-- From every index, the scan ends at the NUL unless it runs over it. -/
theorem scanFrom_iff (hfmt : 0 ∉ fmt) {fuel : Nat} (hc : c ≤ fmt.length)
    (hfuel : fmt.length - c < fuel) :
    scanFrom fmt fuel c = .ok fmt.length ↔ .overrun ∉ partsFrom fmt c := by
  induction fuel generalizing c with
  | zero => exact absurd hfuel (Nat.not_lt_zero _)
  | succ fuel ih =>
      rcases Nat.eq_or_lt_of_le hc with rfl | hlt
      · refine iff_of_true ?_ ?_
        · exact whileLoop_false (decide_eq_false (not_not_intro (nul_char fmt)))
        · rw [partsFrom_end]
          exact List.not_mem_nil
      · have hstep : scanFrom fmt (fuel + 1) c = nextIndex fmt c >>= scanFrom fmt fuel := by
          rw [scanFrom, whileLoop, if_pos (decide_eq_true (char_ne_nul hfmt hlt))]
          rfl
        rw [hstep]
        rcases nextIndex_cases hlt with ⟨c', hnext, hgt, hle, hparts⟩ | ⟨hstop, hover⟩
        · rw [hnext, ok_seq, hparts, List.mem_cons, or_iff_right (overrun_notMem_partAt fmt c)]
          exact ih hle (by omega)
        · rw [hstop, error_seq]
          exact iff_of_false (by simp) (not_not_intro hover)

/-- The scan ends at the NUL, and reads nothing behind it, if and only if no conversion runs over the
end of the format. -/
theorem scanFormat_iff (hfmt : 0 ∉ fmt) : ScanInside fmt ↔ .overrun ∉ directives fmt :=
  scanFrom_iff hfmt (Nat.zero_le _) (by omega)

/-! ## Output that fits -/

/-- The length of an output of strings of these lengths. It wraps at 4 GiB before each of them. -/
def outputLength (lens : List Nat) : Nat := lens.foldl (fun cur len => cur % 2 ^ 32 + len) 0

/-- When there is room for a string, all of it is appended. -/
theorem appended_room {cur len : Nat} (h : cur + len < n) :
    appended n cur len = some (cur % 2 ^ 32 + len) := by
  have hmod := Nat.mod_le cur (2 ^ 32)
  have hall : appendCount n cur len = len := by
    rw [appendCount, Nat.min_eq_right (by omega), catCount, ite_self]
  rw [appended, hall, if_pos (by omega)]

theorem appendTexts_output {ps : List (List Nat)} (h : (ps.map List.length).sum < n) :
    ∃ text, ps.foldlM (appendText n) [] = some text ∧
      text.length = outputLength (ps.map List.length) := by
  have hall (lens : List Nat) (cur : Nat) (hroom : cur + lens.sum < n) :
      lens.foldlM (appended n) cur = some (lens.foldl (fun cur len => cur % 2 ^ 32 + len) cur) := by
    induction lens generalizing cur with
    | nil => rfl
    | cons len lens ih =>
        have hmod := Nat.mod_le cur (2 ^ 32)
        rw [List.sum_cons] at hroom
        have hfirst : appended n cur len = some (cur % 2 ^ 32 + len) := appended_room (by omega)
        rw [List.foldlM_cons, hfirst]
        exact ih _ (by omega)
  have hlen := appendTexts_length n ps []
  rw [List.length_nil, hall _ 0 (by simpa using h)] at hlen
  exact Option.map_eq_some_iff.mp hlen

/-! ## The whole call -/

/-- `__vprintf` returns, at the NUL of the format, and has gone through the format as the scan does. -/
def ReadsInside (stack fmt bufOut : List Nat) (n : Nat) (args : List Arg) : Prop :=
  ∃ st, vprintf stack fmt bufOut n args = .ok st ∧ st.c = fmt.length ∧ ScanInside fmt

/-- For every format and arguments that match it, and every buffer in which the output fits:
`__vprintf` returns and has read the format up to its NUL and no further if and only if its own buffer
has room for the format and no conversion runs over the end of it. -/
theorem vprintf_inside_iff {stack : List Nat} (hstack : stack.length = PRINTF_BUF) (hfmt : 0 ∉ fmt)
    (hargs : Matches (directives fmt) args) :
    ∃ ps rest, Prints (directives fmt) [] args ps rest ∧
      ∀ n bufOut, Holds bufOut n [] → (ps.map List.length).sum < n →
        (ReadsInside stack fmt bufOut n args ↔ HasRoom fmt ∧ .overrun ∉ directives fmt) := by
  obtain ⟨ps, rest, hprints⟩ := prints_of_matches hargs []
  refine ⟨ps, rest, hprints, fun n bufOut hholds hsum => ?_⟩
  constructor
  · rintro ⟨st, hrun, -, hscan⟩
    exact ⟨vprintf_hasRoom hstack hfmt hrun, (scanFormat_iff hfmt).mp hscan⟩
  · rintro ⟨hroom, hinside⟩
    obtain ⟨text, htext, -⟩ := appendTexts_output hsum
    obtain ⟨st, hrun, -, -⟩ := (vprintf_delivers hstack hroom hholds hprints).fits hinside text htext
    -- the index is where the scan ends
    have hscan := (scanFormat_iff hfmt).mpr hinside
    have hindex := Except.ok.inj ((vprintf_scan hrun).symm.trans hscan)
    exact ⟨st, hrun, hindex, hscan⟩

/-- `"x=%d"`, in 16 bytes. -/
theorem vprintf_inside_usual :
    ∃ ps rest, Prints (directives [120, 61, 37, 100]) [] [.int 7] ps rest ∧
      ∀ n bufOut, Holds bufOut n [] → (ps.map List.length).sum < n →
        (ReadsInside (List.replicate PRINTF_BUF 0) [120, 61, 37, 100] bufOut n [.int 7] ↔
          HasRoom [120, 61, 37, 100] ∧ .overrun ∉ directives [120, 61, 37, 100]) := by
  have hmatches : Matches (directives [120, 61, 37, 100]) [.int 7] := by
    rw [directives_usual]
    exact ⟨.int 7, [], rfl, rfl, trivial⟩
  exact vprintf_inside_iff List.length_replicate (by decide) hmatches

/-- `"%"` and `"%f"` are left, and a format of 2048 characters has no room for the NUL behind them. -/
theorem vprintf_not_inside :
    ¬ ReadsInside (List.replicate PRINTF_BUF 0) [37] (List.replicate 64 0) 64 [] ∧
      ¬ ReadsInside (List.replicate PRINTF_BUF 0) [37, 102] (List.replicate 64 0) 64 [] ∧
      ¬ ReadsInside (List.replicate PRINTF_BUF 0) (List.replicate PRINTF_BUF 97)
        (List.replicate 4096 0) 4096 [] := by
  have hstops {fmt : List Nat}
      (h : Outcome (fun _ => False) (fun err => err = .outOfBounds) (scanFormat fmt)) :
      ¬ ScanInside fmt := by
    intro hinside
    rwa [hinside] at h
  refine ⟨fun ⟨_, _, _, hscan⟩ => hstops (by decide +kernel) hscan,
    fun ⟨_, _, _, hscan⟩ => hstops (by decide +kernel) hscan, fun ⟨st, hrun, _, _⟩ => ?_⟩
  have hroom := vprintf_hasRoom List.length_replicate (by simp) hrun
  have hall : literalRun (List.replicate PRINTF_BUF 97) = PRINTF_BUF := by
    simp [literalRun]
  exact absurd hroom.run (by rw [hall]; exact Nat.lt_irrefl _)

end Twos.Kstd
