import Mathlib.Data.List.GetD
import Twos.Kstd.Format

/-!
# The bounds of the output

`vsnprintf` stays within its buffer as long as everything it prints fits, with a NUL behind it. When
there is not enough room, `__sprint` still appends as much as there is room for, and the NUL comes to
lie behind the buffer.

* What a format prints is a list of texts, one for each call of `__sprint` (`Prints`, from
  `Kstd.Format`). `Delivers` compares such a list with a run: if the texts fit, the run returns with
  them appended, and if they do not, it stops out of bounds.
* The state between two directives is `Ready`: the characters collected so far are in the buffer of
  `__vprintf`, which is long enough for those that still come. That is what `HasRoom` asks of a format,
  and a format shorter than this buffer has it (`IsFormat.hasRoom`).
* `convert_delivers` is a conversion, `step_delivers` a turn of the loop, `advance_delivers` the loop by
  induction on its fuel, and `vprintf_delivers` the whole. `vsnprintf_writesInside_iff` then only has
  to clear the buffer first.
-/

namespace Twos.Kstd

open Lib

/-- A run that appends these strings to a text and leaves these arguments, unless the strings do not
fit or the run goes astray. -/
structure Delivers (n : Nat) (text : List Nat) (ps : List (List Nat)) (rest : List Arg)
    (astray : Prop) (x : Except Fault Printing) : Prop where
  fits : ¬ astray → ∀ text', ps.foldlM (appendText n) text = some text' →
    ∃ st, x = .ok st ∧ Holds st.bufOut n text' ∧ st.args = rest
  stops : astray ∨ ps.foldlM (appendText n) text = none → x = .error .outOfBounds

variable {n : Nat} {text : List Nat} {ps : List (List Nat)} {args : List Arg} {astray : Prop}

theorem Delivers.nil {st : Printing} (h : Holds st.bufOut n text) (hargs : st.args = args)
    (hstays : ¬ astray) : Delivers n text [] args astray (.ok st) := by
  refine ⟨fun _ text' htext => ?_, fun hstop => ?_⟩
  · obtain rfl := Option.some.inj htext
    exact ⟨st, rfl, h, hargs⟩
  · rcases hstop with hastray | hnone
    · exact absurd hastray hstays
    · cases hnone

theorem Delivers.overrun (h : astray) : Delivers n text ps args astray (.error .outOfBounds) :=
  ⟨fun hstays => absurd h hstays, fun _ => rfl⟩

/-- Printing a string, and then others. -/
theorem Delivers.emit {st : Printing} {piece : Piece} {f : Printing → Except Fault Printing}
    (h : Holds st.bufOut n text) (hpiece : 0 ∈ piece.str)
    (hrest : ∀ text' bufOut total, Holds bufOut n text' →
      Delivers n text' ps args astray (f { st with bufOut, total })) :
    Delivers n text (textOf piece.str :: ps) args astray (Kstd.emit n st piece >>= f) := by
  have hprint := sprint_spec h hpiece
  rw [Kstd.emit]
  -- the piece is appended, and the rest goes on from there
  cases happend : appendText n text (textOf piece.str) with
  | some text' =>
      rw [happend] at hprint
      obtain ⟨bufOut, added, hrun, hholds, -⟩ := hprint
      have hnext := hrest text' bufOut
        (if piece.counted then (st.total + added) % WORD else st.total) hholds
      rw [hrun, ok_seq, ok_seq]
      constructor
      · intro hstays text'' htext
        rw [List.foldlM_cons, happend] at htext
        exact hnext.fits hstays text'' htext
      · rw [List.foldlM_cons, happend]
        exact hnext.stops
  | none =>
      -- there is no room for it, and everything behind it is lost
      rw [happend] at hprint
      rw [hprint, error_seq, error_seq]
      constructor
      · intro hstays text'' htext
        rw [List.foldlM_cons, happend] at htext
        cases htext
      · exact fun _ => rfl

/-- Printing the strings of a conversion, and then others. -/
theorem Delivers.emits {st : Printing} {pieces : List Piece}
    {f : Printing → Except Fault Printing} (h : Holds st.bufOut n text)
    (hpieces : ∀ p ∈ pieces, 0 ∈ p.str)
    (hrest : ∀ text' bufOut total, Holds bufOut n text' →
      Delivers n text' ps args astray (f { st with bufOut, total })) :
    Delivers n text (texts pieces ++ ps) args astray (pieces.foldlM (Kstd.emit n) st >>= f) := by
  induction pieces generalizing st text with
  | nil => exact hrest text st.bufOut st.total h
  | cons piece pieces ih =>
      rw [List.foldlM_cons, bind_assoc]
      refine Delivers.emit h (hpieces piece List.mem_cons_self) fun text' bufOut total hholds => ?_
      exact ih hholds (fun p hp => hpieces p (List.mem_cons_of_mem _ hp)) hrest

/-! ## The scan -/

theorem scanConversion_eq (t : List Nat) (j : Nat) :
    scanConversion t j =
      if flags t < t.length then .ok (j + flags t) else .error .outOfBounds := by
  induction t generalizing j with
  | nil => rfl
  | cons ch t ih =>
      rw [scanConversion, List.length_cons]
      by_cases hch : toChar ch < 58
      · have hflags : flags (ch :: t) = flags t + 1 := by simp [flags, hch]
        rw [if_pos hch, ih, hflags, Nat.add_assoc, Nat.add_comm 1]
        simp only [Nat.add_lt_add_iff_right]
      · have hflags : flags (ch :: t) = 0 := by simp [flags, hch]
        rw [if_neg hch, hflags, if_pos (Nat.succ_pos t.length), Nat.add_zero]

theorem flags_le (t : List Nat) : flags t ≤ t.length := (List.takeWhile_prefix _).length_le

/-! ## The loop

`Ready` is the invariant of the loop: what has been collected is in the buffer, which has room up to
the next conversion. An iteration either collects one more character or prints what has been
collected, and `advance_delivers` follows the run from there to its end, by induction on the fuel.
-/

/-- The characters up to the next conversion. -/
def literalRun (t : List Nat) : Nat := (t.takeWhile fun ch => decide (ch ≠ 37)).length

/-- A format that is shorter than the buffer of `__vprintf`. -/
structure IsFormat (fmt : List Nat) : Prop where
  nonzero : 0 ∉ fmt
  short : fmt.length < PRINTF_BUF

/-- A format that the buffer has room for: at a conversion, as much of the buffer is cleared as the
format is long, and the characters before the first one are collected, with a NUL behind them. -/
structure HasRoom (fmt : List Nat) : Prop where
  nonzero : 0 ∉ fmt
  short : fmt.length ≤ PRINTF_BUF
  run : literalRun fmt < PRINTF_BUF

theorem literalRun_le (t : List Nat) : literalRun t ≤ t.length :=
  (List.takeWhile_prefix _).length_le

theorem literalRun_cons {ch : Nat} (hch : ch ≠ 37) (t : List Nat) :
    literalRun (ch :: t) = literalRun t + 1 := by
  simp [literalRun, hch]

theorem IsFormat.hasRoom {fmt : List Nat} (h : IsFormat fmt) : HasRoom fmt :=
  ⟨h.nonzero, h.short.le, (literalRun_le fmt).trans_lt h.short⟩

/-- Between two iterations: the characters collected are in the buffer, which has room for the others
up to the next conversion. -/
structure Ready (fmt : List Nat) (st : Printing) (lit : List Nat) : Prop where
  k : st.k = lit.length
  nonzero : 0 ∉ lit
  held : st.buf.take lit.length = lit
  room : st.buf.length = PRINTF_BUF
  fits : lit.length + literalRun (fmt.drop st.c) < PRINTF_BUF

variable {fmt lit : List Nat} {st : Printing} {ds : List Directive}

/-- Ending the characters collected so far with a NUL makes them a string. -/
theorem Ready.close (h : Ready fmt st lit) :
    ∃ buf, writeBytes st.buf st.k [0] = .ok buf ∧ 0 ∈ buf ∧ textOf buf = lit ∧
      buf.length = PRINTF_BUF ∧ buf.take lit.length = lit := by
  have hfits := h.fits
  have hroom : st.k + [0].length ≤ st.buf.length := by
    rw [h.k, h.room, List.length_singleton]
    omega
  have hbuf : st.buf.take st.k ++ [0] ++ st.buf.drop (st.k + [0].length) =
      lit ++ 0 :: st.buf.drop (st.k + 1) := by
    rw [h.k, h.held, List.append_assoc]
    rfl
  refine ⟨lit ++ 0 :: st.buf.drop (st.k + 1), ?_, by simp, textOf_append h.nonzero _, ?_, by simp⟩
  · rw [writeBytes, if_pos hroom, hbuf]
  · have hroom' := h.room
    rw [List.length_append, List.length_cons, List.length_drop, h.k, hroom']
    rw [h.k, List.length_singleton, hroom'] at hroom
    omega

theorem nul_char (fmt : List Nat) : fmt.getD fmt.length 0 = 0 :=
  List.getD_eq_default _ _ (Nat.le_refl _)

theorem char_ne_nul (hfmt : 0 ∉ fmt) {c : Nat} (hc : c < fmt.length) : fmt.getD c 0 ≠ 0 := by
  rw [List.getD_eq_getElem _ _ hc]
  exact fun heq => hfmt (heq ▸ List.getElem_mem hc)

/-- One character of a literal. -/
theorem literalRun_drop {c : Nat} (hc : c < fmt.length) (hch : fmt.getD c 0 ≠ 37) :
    literalRun (fmt.drop c) = literalRun (fmt.drop (c + 1)) + 1 := by
  rw [List.getD_eq_getElem _ _ hc] at hch
  rw [List.drop_eq_getElem_cons hc, literalRun_cons hch]

/-- Collecting one more character. -/
theorem Ready.collect (h : Ready fmt st lit) (hc : st.c < fmt.length) (hfmt : 0 ∉ fmt)
    (hch : fmt.getD st.c 0 ≠ 37) :
    ∃ buf, Kstd.collect st (fmt.getD st.c 0) = .ok { st with k := st.k + 1, buf } ∧
      Ready fmt { st with c := st.c + 1, k := st.k + 1, buf } (lit ++ [fmt.getD st.c 0]) := by
  have hfits := h.fits
  have hne := char_ne_nul hfmt hc
  rw [literalRun_drop hc hch] at hfits
  generalize fmt.getD st.c 0 = ch at hne ⊢
  have hroom : lit.length + 2 ≤ PRINTF_BUF := by omega
  -- the character and a NUL behind it, both inside `buf`
  have hbuf : writeBytes st.buf st.k [ch, 0] =
      .ok (lit ++ [ch] ++ 0 :: st.buf.drop (lit.length + 2)) := by
    have hfits : lit.length + [ch, 0].length ≤ st.buf.length := by
      rw [h.room]
      exact hroom
    rw [writeBytes, h.k, if_pos hfits, h.held]
    simp
  refine ⟨lit ++ [ch] ++ 0 :: st.buf.drop (lit.length + 2), ?_, ?_, ?_, ?_, ?_, ?_⟩
  · rw [Kstd.collect, ← bind_assoc, show st.k + 1 = st.k + [ch].length from rfl, writeBytes_append,
      List.singleton_append, hbuf, ok_seq]
  · simp [h.k]
  · rw [List.mem_append, not_or]
    exact ⟨h.nonzero, by simpa using Ne.symm hne⟩
  · rw [List.take_left]
  · have hlen := h.room
    simp only [List.length_append, List.length_cons, List.length_nil, List.length_drop, hlen]
    omega
  · rw [List.length_append, List.length_singleton]
    dsimp only
    omega

/-- The loop from a state on. -/
abbrev loopFrom (fmt : List Nat) (n fuel : Nat) (st : Printing) : Except Fault Printing :=
  whileLoop .neverEnds (fun st => decide (fmt.getD st.c 0 ≠ 0)) (vprintfStep fmt n) fuel st

theorem loopFrom_end (fuel : Nat) (h : fmt.getD st.c 0 = 0) : loopFrom fmt n fuel st = .ok st :=
  whileLoop_false (decide_eq_false (not_not_intro h))

theorem loopFrom_succ (fuel : Nat) (h : fmt.getD st.c 0 ≠ 0) :
    loopFrom fmt n (fuel + 1) st = vprintfStep fmt n st >>= loopFrom fmt n fuel := by
  rw [loopFrom, whileLoop, if_pos (decide_eq_true h)]

/-- The parts of the format from an index on. -/
abbrev partsFrom (fmt : List Nat) (c : Nat) : List Directive := directives (fmt.drop c)

/-- An index behind the NUL. -/
theorem advance_overrun (h : fmt.length < st.c + 1) : advance fmt n st = .error .outOfBounds := by
  have hout : formatAt fmt (st.c + 1) = .error .outOfBounds := if_neg (Nat.not_le.mpr h)
  rw [advance, hout, error_seq]

/-- A run that prints and then goes astray stops one way or the other. -/
theorem emit_error {piece : Piece} (h : Holds st.bufOut n text) (hpiece : 0 ∈ piece.str)
    {f : Printing → Except Fault Printing} (hf : ∀ bufOut total,
      f { st with bufOut, total } = .error .outOfBounds) :
    (Kstd.emit n st piece >>= f) = .error .outOfBounds := by
  have hall : Delivers n text (textOf piece.str :: []) [] True (Kstd.emit n st piece >>= f) := by
    refine Delivers.emit h hpiece fun text' bufOut total _ => ?_
    rw [hf]
    exact .overrun trivial
  exact hall.stops (.inl trivial)

/-- The parts of a format from a conversion on. -/
theorem partsFrom_conv {c : Nat} (hc : c < fmt.length) (hch : fmt.getD c 0 = 37) :
    partsFrom fmt c =
      if flags (fmt.drop c) = (fmt.drop c).length then [.overrun]
      else .conv (convAt (fmt.drop c)) ::
        if c + skipAt (fmt.drop c) ≤ fmt.length then partsFrom fmt (c + skipAt (fmt.drop c))
        else [.overrun] := by
  have hcons := List.drop_eq_getElem_cons hc
  rw [List.getD_eq_getElem _ _ hc] at hch
  have hle : skipAt (fmt.drop c) ≤ (fmt.drop c).length ↔ c + skipAt (fmt.drop c) ≤ fmt.length := by
    rw [List.length_drop]
    omega
  have hdrop : (fmt.drop c).drop (skipAt (fmt.drop c)) = fmt.drop (c + skipAt (fmt.drop c)) :=
    List.drop_drop
  simp only [← hle, partsFrom, ← hdrop]
  rw [hcons, hch, directives, if_neg (by simp)]

/-- The parts of a format from any other character on. -/
theorem partsFrom_char {c : Nat} (hc : c < fmt.length) (hch : fmt.getD c 0 ≠ 37) :
    partsFrom fmt c = .char (fmt.getD c 0) :: partsFrom fmt (c + 1) := by
  rw [List.getD_eq_getElem _ _ hc] at hch ⊢
  rw [partsFrom, List.drop_eq_getElem_cons hc, directives, if_pos hch]

theorem partsFrom_end : partsFrom fmt fmt.length = [] := by
  rw [partsFrom, List.drop_length, directives]

/-- Clearing the buffer before a conversion. -/
theorem clear_buf {buf : List Nat} (hlen : buf.length = PRINTF_BUF) (hshort : fmt.length ≤ PRINTF_BUF)
    (hpos : 0 < fmt.length) :
    ∃ rest, writeBytes buf 0 (List.replicate fmt.length 0) = .ok (0 :: rest) ∧
      (0 :: rest).length = PRINTF_BUF := by
  obtain ⟨len, hlen'⟩ : ∃ len, fmt.length = len + 1 := ⟨fmt.length - 1, by omega⟩
  refine ⟨List.replicate len 0 ++ buf.drop fmt.length, ?_, ?_⟩
  · have hroom : 0 + (List.replicate fmt.length 0).length ≤ buf.length := by
      rw [List.length_replicate, hlen]
      omega
    rw [writeBytes, if_pos hroom, List.take_zero, List.nil_append, Nat.zero_add,
      List.length_replicate, hlen', List.replicate_succ, List.cons_append]
  · rw [List.length_cons, List.length_append, List.length_replicate, List.length_drop, hlen]
    omega

/-- The index of a conversion's character, and the conversion that it makes. -/
theorem convAt_eq (fmt : List Nat) (c : Nat) :
    Conv.of (fmt.getD (c + flags (fmt.drop c)) 0) (fmt.getD (c + flags (fmt.drop c) + 1) 0) =
      convAt (fmt.drop c) := by
  have hdrop (i : Nat) : (fmt.drop c).getD i 0 = fmt.getD (c + i) 0 := by
    rw [List.getD_eq_getElem?_getD, List.getD_eq_getElem?_getD, List.getElem?_drop]
  rw [convAt, hdrop, hdrop, Nat.add_assoc]

/-- The branch for a conversion, when what comes next is known to print the other parts. -/
theorem convert_delivers {g : Printing → Except Fault Printing} (h : Ready fmt st lit)
    (hc : st.c < fmt.length) (hfmt : HasRoom fmt) (hholds : Holds st.bufOut n text)
    (hprints : Prints (.conv (convAt (fmt.drop st.c)) :: ds) lit st.args ps args)
    (hflags : flags (fmt.drop st.c) < (fmt.drop st.c).length)
    (hg : ∀ st' text' ps', Ready fmt { st' with c := st.c + skipAt (fmt.drop st.c) } [] →
      Holds st'.bufOut n text' → Prints ds [] st'.args ps' args →
      st'.c + 1 = st.c + skipAt (fmt.drop st.c) → Delivers n text' ps' args astray (g st')) :
    Delivers n text ps args astray (convert fmt n st >>= g) := by
  -- what was collected in front of the `%` is printed, and the buffer is cleared
  obtain ⟨buf, hclose, hzero, htext, hlen, -⟩ := h.close
  obtain ⟨rest, hclear, hroom⟩ := clear_buf hlen hfmt.short (Nat.zero_lt_of_lt hc)
  have hbehind : literalRun (fmt.drop (st.c + skipAt (fmt.drop st.c))) < PRINTF_BUF := by
    have hle := literalRun_le (fmt.drop (st.c + skipAt (fmt.drop st.c)))
    have hshort := hfmt.short
    rw [List.length_drop, skipAt] at hle
    rw [skipAt]
    omega
  cases hprints with
  | conv hpieces hrest =>
    obtain ⟨pieces, hrun, htexts⟩ := pieces_cleared hpieces rest
    have hstrings := pieces_strings List.mem_cons_self hrun
    have hscan : scanConversion (fmt.drop st.c) st.c = .ok (st.c + flags (fmt.drop st.c)) := by
      rw [scanConversion_eq, if_pos hflags]
    have hpiece : 0 ∈ (Piece.mk true buf).str := hzero
    rw [convert, hclose, ok_seq, bind_assoc, List.cons_append, ← htext, ← htexts]
    -- then the pieces of the conversion, one after another
    refine Delivers.emit hholds hpiece fun text₁ bufOut₁ total₁ hholds₁ => ?_
    rw [hclear, ok_seq, hscan, ok_seq]
    simp only [convAt_eq]
    rw [hrun, ok_seq, bind_assoc]
    refine Delivers.emits hholds₁ hstrings fun text₂ bufOut₂ total₂ hholds₂ => ?_
    rw [ok_seq]
    refine hg _ _ _ ⟨rfl, List.not_mem_nil, rfl, hroom, ?_⟩ hholds₂ hrest ?_
    · rwa [List.length_nil, Nat.zero_add]
    show st.c + _ + 1 = _
    rw [skipAt, Nat.add_sub_cancel_left, Nat.add_assoc]

/-- A conversion without a character. -/
theorem convert_overrun {g : Printing → Except Fault Printing} (h : Ready fmt st lit)
    (hc : st.c < fmt.length) (hfmt : HasRoom fmt) (hholds : Holds st.bufOut n text)
    (hflags : flags (fmt.drop st.c) = (fmt.drop st.c).length) :
    (convert fmt n st >>= g) = .error .outOfBounds := by
  obtain ⟨buf, hclose, hzero, htext, hlen, -⟩ := h.close
  obtain ⟨rest, hclear, -⟩ := clear_buf hlen hfmt.short (Nat.zero_lt_of_lt hc)
  have hscan : scanConversion (fmt.drop st.c) st.c = .error .outOfBounds := by
    rw [scanConversion_eq, if_neg (Nat.not_lt.mpr (Nat.le_of_eq hflags.symm))]
  have hpiece : 0 ∈ (Piece.mk true buf).str := hzero
  rw [convert, hclose, ok_seq, bind_assoc]
  refine emit_error hholds hpiece fun bufOut total => ?_
  rw [hclear, ok_seq, hscan, error_seq, error_seq]

/-- The run from the end of an iteration on, with index `c` next. -/
def AdvanceDelivers (fmt : List Nat) (n fuel c : Nat) : Prop :=
  ∀ (st : Printing) (lit text : List Nat) (ps : List (List Nat)) (args : List Arg), st.c + 1 = c →
    Ready fmt { st with c } lit → Holds st.bufOut n text →
    Prints (partsFrom fmt c) lit st.args ps args →
    Delivers n text ps args (.overrun ∈ partsFrom fmt c) (advance fmt n st >>= loopFrom fmt n fuel)

/-- One iteration, and the run from its end on. -/
theorem step_delivers (hfmt : HasRoom fmt) {fuel : Nat} (hlt : st.c < fmt.length)
    (h : Ready fmt st lit) (hholds : Holds st.bufOut n text)
    (hprints : Prints (partsFrom fmt st.c) lit st.args ps args)
    (hrest : ∀ c, st.c < c → c ≤ fmt.length → AdvanceDelivers fmt n fuel c) :
    Delivers n text ps args (.overrun ∈ partsFrom fmt st.c)
      (vprintfStep fmt n st >>= loopFrom fmt n fuel) := by
  rw [vprintfStep]
  -- a conversion, or a character that is printed as it is
  by_cases hch : fmt.getD st.c 0 = 37
  · rw [if_neg (not_not_intro hch), bind_assoc]
    rw [partsFrom_conv hlt hch] at hprints ⊢
    split at hprints
    · -- the format ends inside the flags
      next hflags =>
      rw [convert_overrun h hlt hfmt hholds hflags, if_pos hflags]
      exact .overrun List.mem_cons_self
    · next hflags =>
      have hshort := Nat.lt_of_le_of_ne (flags_le (fmt.drop st.c)) hflags
      have hskip : 0 < skipAt (fmt.drop st.c) := Nat.succ_pos _
      rw [if_neg hflags, List.mem_cons, or_iff_right (by simp)]
      refine convert_delivers h hlt hfmt hholds hprints hshort
        fun st' text' ps' hready hholds' hprints' hnext => ?_
      show Delivers n text' ps' args _ (advance fmt n st' >>= loopFrom fmt n fuel)
      by_cases hroom : st.c + skipAt (fmt.drop st.c) ≤ fmt.length
      · rw [if_pos hroom] at hprints' ⊢
        exact hrest _ (by omega) hroom _ _ _ _ _ hnext hready hholds' hprints'
      · -- the format ends in the conversion, and its NUL is passed over
        rw [if_neg hroom] at hprints' ⊢
        rw [advance_overrun (by omega), error_seq]
        exact .overrun List.mem_cons_self
  · -- one more character is collected
    obtain ⟨buf, hcollect, hready⟩ := h.collect hlt hfmt.nonzero hch
    rw [partsFrom_char hlt hch] at hprints ⊢
    cases hprints with
    | char hprints' =>
      rw [if_pos hch, hcollect, ok_seq, List.mem_cons, or_iff_right (by simp)]
      exact hrest _ (Nat.lt_succ_self _) hlt _ _ _ _ _ rfl hready hholds hprints'

/-- What is left to do before character `c` of the format, or at its end. -/
theorem advance_delivers (hfmt : HasRoom fmt) {fuel c : Nat} (hle : c ≤ fmt.length)
    (hfuel : fmt.length - c < fuel) : AdvanceDelivers fmt n fuel c := by
  induction fuel generalizing c with
  | zero => exact absurd hfuel (Nat.not_lt_zero _)
  | succ fuel ih =>
      intro st lit text ps args hc h hholds hprints
      rw [advance, hc]
      generalize hst : ({ st with c } : Printing) = st₁ at h
      obtain ⟨hindex, hargs, hheld⟩ : st₁.c = c ∧ st₁.args = st.args ∧ Holds st₁.bufOut n text := by
        subst hst
        exact ⟨rfl, rfl, hholds⟩
      rw [← hargs] at hprints
      rcases Nat.eq_or_lt_of_le hle with rfl | hlt
      · -- the NUL: the characters collected are printed, and the loop ends
        obtain ⟨buf, hclose, hzero, htext, -⟩ := h.close
        have hpiece : 0 ∈ (Piece.mk true buf).str := hzero
        have hlast : Holds ({ st₁ with buf } : Printing).bufOut n text := hheld
        have hread : formatAt fmt fmt.length = .ok 0 := by
          rw [formatAt, if_pos (Nat.le_refl _), nul_char]
        have hsame : ({ st with c := fmt.length, buf } : Printing) = { st₁ with buf } := by
          rw [← hst]
        have hclose' : writeBytes st.buf st.k [0] = .ok buf := by
          rw [← hclose, ← hst]
        have hend : fmt.getD st₁.c 0 = 0 := by rw [hindex, nul_char]
        rw [partsFrom_end] at hprints ⊢
        cases hprints
        rw [hread, ok_seq, if_pos rfl, hclose', ok_seq, hsame, ← htext]
        refine Delivers.emit hlast hpiece fun text' bufOut total hholds' => ?_
        rw [loopFrom_end]
        · exact .nil hholds' rfl List.not_mem_nil
        · exact hend
      · -- the format goes on
        have hne := char_ne_nul hfmt.nonzero hlt
        have hread : formatAt fmt c = .ok (fmt.getD c 0) := if_pos hle
        rw [hread, ok_seq, if_neg hne, ok_seq]
        subst hindex
        rw [loopFrom_succ fuel hne]
        exact step_delivers hfmt hlt h hheld hprints fun c hlt' hle' => ih hle' (by omega)

/-! ## The whole run

`vprintf_delivers` starts the loop on a cleared buffer. A run whose texts fit returns with all of
them in the buffer; the other ways to end are that one of them does not fit, and a conversion at the
end of the format, which takes the index behind the NUL.
-/

/-- `vsnprintf` returns, has stored only into the `n` bytes of its buffer, and has left a NUL there. -/
def WritesInside (stack s : List Nat) (n : Nat) (fmt : List Nat) (args : List Arg) : Prop :=
  ∃ s' ret, vsnprintf stack s n fmt args = .ok (s', ret) ∧ s'.length = n ∧ 0 ∈ s'

/-- Clearing the output. -/
theorem clear_output {s : List Nat} (hs : s.length = n) (hn : 0 < n) :
    ∃ s', writeBytes s 0 (List.replicate n 0) = .ok s' ∧ Holds s' n [] := by
  obtain ⟨m, rfl⟩ : ∃ m, n = m + 1 := ⟨n - 1, by omega⟩
  refine ⟨List.replicate (m + 1) 0, ?_, by simp, List.not_mem_nil, List.replicate m 0, rfl⟩
  rw [writeBytes, if_pos (by simp [hs]), List.take_zero, List.nil_append, List.length_replicate,
    Nat.zero_add, List.drop_of_length_le (Nat.le_of_eq hs), List.append_nil]

/-- `__vprintf` prints the parts of its format. -/
theorem vprintf_delivers {stack bufOut : List Nat} {args rest : List Arg}
    (hstack : stack.length = PRINTF_BUF) (hfmt : HasRoom fmt) (hholds : Holds bufOut n [])
    (hprints : Prints (directives fmt) [] args ps rest) :
    Delivers n [] ps rest (.overrun ∈ directives fmt) (vprintf stack fmt bufOut n args) := by
  cases fmt with
  | nil =>
      -- nothing is printed for an empty format, and `ps` is the empty string
      rw [directives] at hprints ⊢
      cases hprints
      have hpos := hholds.lt
      have hempty : appendText n [] [] = some [] := by
        simp only [appendText, appendCount, catCount, List.length_nil]
        simpa using Nat.ne_of_gt hpos
      have hrun : vprintf stack [] bufOut n args = .ok ⟨0, 0, stack, bufOut, 0, args⟩ := rfl
      rw [hrun]
      constructor
      · intro _ text' htext
        rw [List.foldlM_cons, hempty] at htext
        obtain rfl := Option.some.inj htext
        exact ⟨_, rfl, hholds, rfl⟩
      · rintro (hmem | hnone)
        · cases hmem
        · rw [List.foldlM_cons, hempty] at hnone
          cases hnone
  | cons ch fmt =>
      -- the first directive is looked at before the loop advances
      have hlt : 0 < (ch :: fmt).length := Nat.succ_pos _
      have hready : Ready (ch :: fmt) ⟨0, 0, stack, bufOut, 0, args⟩ [] :=
        ⟨rfl, List.not_mem_nil, rfl, hstack, (Nat.zero_add _).trans_lt hfmt.run⟩
      have hfirst : (ch :: fmt).getD 0 0 ≠ 0 := char_ne_nul hfmt.nonzero hlt
      rw [vprintf, ← loopFrom, loopFrom_succ _ hfirst]
      exact step_delivers hfmt hlt hready hholds hprints fun c hpos hle =>
        advance_delivers hfmt hle (by omega)

/-- For every format, arguments that match it, and size of the buffer, `vsnprintf` stays within the
buffer if and only if its scan stays within the format and what it prints fits. -/
theorem vsnprintf_writesInside_iff {stack s : List Nat} {args : List Arg}
    (hstack : stack.length = PRINTF_BUF) (hs : s.length = n) (hn : 0 < n) (hfmt : IsFormat fmt)
    (hargs : Matches (directives fmt) args) :
    ∃ ps rest, Prints (directives fmt) [] args ps rest ∧
      (WritesInside stack s n fmt args ↔
        .overrun ∉ directives fmt ∧ Fits n (ps.map List.length)) ∧
      (n ≤ 2 ^ 32 → (WritesInside stack s n fmt args ↔
        .overrun ∉ directives fmt ∧ (ps.map List.length).sum < n)) := by
  obtain ⟨ps, rest, hprints⟩ := prints_of_matches hargs []
  obtain ⟨s', hclear, hholds⟩ := clear_output hs hn
  have hrun := vprintf_delivers hstack hfmt.hasRoom hholds hprints
  have hlens : Fits n (ps.map List.length) ↔ (ps.foldlM (appendText n) []).isSome = true := by
    rw [appendTexts_isSome]
    exact Iff.rfl
  have hiff : WritesInside stack s n fmt args ↔
      .overrun ∉ directives fmt ∧ Fits n (ps.map List.length) := by
    constructor
    · rintro ⟨s'', ret, hreturns, -, -⟩
      rw [vsnprintf, hclear, ok_seq] at hreturns
      obtain ⟨st, hst, -⟩ := seq_ok.mp hreturns
      -- a run that is out of bounds does not return
      have hno (hstop : .overrun ∈ directives fmt ∨ ps.foldlM (appendText n) [] = none) : False := by
        rw [hrun.stops hstop] at hst
        cases hst
      refine ⟨fun hmem => hno (.inl hmem), ?_⟩
      rw [hlens]
      cases hfold : ps.foldlM (appendText n) [] with
      | some text => rfl
      | none => exact (hno (.inr hfold)).elim
    · -- and a run whose texts fit does, with a NUL behind them
      rintro ⟨hinside, hfits⟩
      rw [hlens, Option.isSome_iff_exists] at hfits
      obtain ⟨text, htext⟩ := hfits
      obtain ⟨st, hst, hheld, -⟩ := hrun.fits hinside text htext
      obtain ⟨tail, hsplit⟩ := hheld.split
      refine ⟨st.bufOut, (BitVec.ofNat 32 st.total).toInt, ?_, hheld.length, ?_⟩
      · rw [vsnprintf, hclear, ok_seq, hst, ok_seq]
      · rw [hsplit]
        simp
  refine ⟨ps, rest, hprints, hiff, fun hsmall => ?_⟩
  rw [hiff, fits_small hsmall hn]

/-- The parts of `"x=%d"`. -/
theorem directives_usual : directives [120, 61, 37, 100] = [.char 120, .char 61, .conv .dec] := by
  simp [directives, flags, convAt, skipAt, toChar, Conv.of, Conv.lastFmtLen]

/-- `"x=%d"`, in 16 bytes. -/
theorem vsnprintf_writesInside_usual :
    ∃ ps rest, Prints (directives [120, 61, 37, 100]) [] [.int 7] ps rest ∧
      (WritesInside (List.replicate PRINTF_BUF 0) (List.replicate 16 0) 16 [120, 61, 37, 100]
          [.int 7] ↔
        .overrun ∉ directives [120, 61, 37, 100] ∧ Fits 16 (ps.map List.length)) ∧
      (16 ≤ 2 ^ 32 → (WritesInside (List.replicate PRINTF_BUF 0) (List.replicate 16 0) 16
          [120, 61, 37, 100] [.int 7] ↔
        .overrun ∉ directives [120, 61, 37, 100] ∧ (ps.map List.length).sum < 16)) := by
  have hmatches : Matches (directives [120, 61, 37, 100]) [.int 7] := by
    rw [directives_usual]
    exact ⟨.int 7, [], rfl, rfl, trivial⟩
  exact vsnprintf_writesInside_iff List.length_replicate List.length_replicate (by decide)
    ⟨by decide, by decide⟩ hmatches

theorem not_writesInside {stack s fmt : List Nat} {args : List Arg} {n : Nat}
    (h : Outcome (fun _ => False) (fun err => err = .outOfBounds) (vsnprintf stack s n fmt args)) :
    ¬ WritesInside stack s n fmt args := by
  rintro ⟨s', ret, hrun, -⟩
  rwa [hrun] at h

/-- Four characters in four bytes, and a conversion of a float at the end of a format. -/
theorem vsnprintf_writesOutside :
    (IsFormat [97, 98, 99, 100] ∧ Matches (directives [97, 98, 99, 100]) [] ∧
      ¬ WritesInside (List.replicate PRINTF_BUF 0) (List.replicate 4 0) 4 [97, 98, 99, 100] []) ∧
    IsFormat [37, 102] ∧ Matches (directives [37, 102]) [] ∧
      ¬ WritesInside (List.replicate PRINTF_BUF 0) (List.replicate 64 0) 64 [37, 102] [] := by
  refine ⟨⟨⟨by decide, by decide⟩, ?_, not_writesInside (by decide +kernel)⟩,
    ⟨by decide, by decide⟩, ?_, not_writesInside (by decide +kernel)⟩
  · simp [directives, Matches]
  · simp [directives, flags, convAt, skipAt, toChar, Conv.of, Conv.lastFmtLen, Matches, Conv.takes]

end Twos.Kstd
