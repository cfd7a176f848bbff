import Twos.Kstd.Denote
import Twos.Kstd.Scan

/-!
# The value that is returned

`__vprintf` adds up what `__sprint` returns, but not for the digits of a binary numeral. What is missing
from its total is what these conversions have appended: at most a few hundred characters for each, so
that the total is too small by less than 4 GiB, and right only if there are none of them.

`Accounted` is the invariant: the total and what is missing from it are the length of the text. Each
part of a turn accounts for itself (`emit_accounts`, `convert_accounts`, `vprintfStep_accounts`), with
`Grows` for how much more may be missing after it, and `vprintf_accounts` is the loop. So what is
returned is the length exactly when nothing is missing and an `int` can hold it (`toInt_eq_length`).
-/

namespace Twos.Kstd

open Lib

/-- A part of a format that is such a conversion. -/
def Directive.isBinary : Directive → Bool
  | .conv c => c.isBinary
  | _ => false

/-! ## What is not counted -/

/-- The characters of these strings that are not counted. -/
def missedIn : List Piece → Nat
  | [] => 0
  | piece :: pieces => (if piece.counted then 0 else (textOf piece.str).length) + missedIn pieces

variable {n : Nat} {pieces : List Piece}

theorem missedIn_counted (h : ∀ p ∈ pieces, p.counted = true) : missedIn pieces = 0 := by
  induction pieces with
  | nil => rfl
  | cons piece pieces ih =>
      rw [missedIn, if_pos (h piece List.mem_cons_self),
        ih fun p hp => h p (List.mem_cons_of_mem _ hp)]

theorem missedIn_le (pieces : List Piece) : missedIn pieces ≤ (texts pieces).flatten.length := by
  induction pieces with
  | nil => exact Nat.le_refl 0
  | cons piece pieces ih =>
      have htexts : texts (piece :: pieces) = textOf piece.str :: texts pieces := rfl
      rw [missedIn, htexts, List.flatten_cons, List.length_append]
      split
      · omega
      · omega

/-- A binary numeral starts with `0b`, which is missed, and is not too long. -/
theorem missedIn_numeral {digits : List Piece} {h : Nat} (hh : h ≤ 248)
    (hdigits : (texts digits).flatten.length ≤ 2 * (h + 1)) :
    0 < missedIn (Piece.lit false [48, 98] :: digits) ∧
      missedIn (Piece.lit false [48, 98] :: digits) ≤ 500 := by
  have hle := missedIn_le digits
  have hpre : missedIn (Piece.lit false [48, 98] :: digits) = 2 + missedIn digits := rfl
  omega

theorem missedIn_intBits (num : BitVec 32) {h : Nat} (hh : h ≤ 248) (space : Bool) :
    0 < missedIn (intBits num h space) ∧ missedIn (intBits num h space) ≤ 500 := by
  rw [intBits]
  apply missedIn_numeral hh
  split
  · rw [show (texts [Piece.lit false [48]]).flatten.length = 1 from rfl]
    omega
  · exact bitPieces_length _ _ h

theorem missedIn_longBits (num : BitVec 64) :
    0 < missedIn (longBits num) ∧ missedIn (longBits num) ≤ 500 := by
  rw [longBits]
  apply missedIn_numeral (by decide : 63 ≤ 248)
  split
  · decide
  · exact bitPieces_length _ _ 63

/-- What a conversion does not count. -/
theorem missedIn_conv {conv : Conv} {buf : List Nat} {args args' : List Arg} (hbuf : 0 ∈ buf)
    (h : conv.pieces buf args = .ok (pieces, args')) :
    missedIn pieces ≤ 500 ∧ (0 < missedIn pieces ↔ conv.isBinary = true) := by
  rcases pieces_cases hbuf h with
    ⟨hplain, hall⟩ | ⟨hbinary, ⟨num, space, highest, hmem, rfl⟩ | ⟨num, rfl⟩⟩
  · rw [missedIn_counted fun p hp => (hall p hp).1, hplain]
    exact ⟨Nat.zero_le _, by simp⟩
  · have hhighest : getHighestBit num ≤ 31 := (highestBitFrom_spec num 31).1
    have hle : highest ≤ 248 := by
      simp only [List.mem_cons, List.not_mem_nil, or_false] at hmem
      omega
    obtain ⟨hpos, hmost⟩ := missedIn_intBits num hle space
    exact ⟨hmost, iff_of_true hpos hbinary⟩
  · obtain ⟨hpos, hmost⟩ := missedIn_longBits num
    exact ⟨hmost, iff_of_true hpos hbinary⟩

/-! ## Keeping account

`Accounted` is kept by every piece: what has been counted and what has been missed so far make up
the length of the text, in 32 bits. A binary numeral is the only conversion that adds to what is
missed, and it adds too little to get all the way round.
-/

variable {fmt : List Nat} {st st' : Printing} {piece : Piece} {a b c k l : Nat}

/-- More is missed than before: by at most `k` characters, and by some unless `k` is zero. -/
structure Grows (a b k : Nat) : Prop where
  le : a ≤ b
  most : b ≤ a + k
  some : 0 < k → a < b

theorem Grows.refl (a : Nat) : Grows a a 0 :=
  ⟨Nat.le_refl a, Nat.le_refl a, fun h => absurd h (Nat.lt_irrefl 0)⟩

theorem Grows.trans (h : Grows a b k) (h' : Grows b c l) : Grows a c (k + l) where
  le := h.le.trans h'.le
  most := by
    have := h.most
    have := h'.most
    omega
  some hpos := by
    rcases Nat.eq_zero_or_pos k with rfl | hk
    · exact h.le.trans_lt (h'.some (by omega))
    · exact (h.some hk).trans_le h'.le

/-- The total and what was missed add up to the length of the text, in 32 bits. -/
def Accounted (n : Nat) (st : Printing) (missed : Nat) : Prop :=
  ∃ text, Holds st.bufOut n text ∧ (st.total + missed) % 2 ^ 32 = text.length % 2 ^ 32

theorem appendCount_pos {cur len : Nat} (hcur : cur < n) (hlen : 0 < len) :
    0 < appendCount n cur len := by
  unfold appendCount catCount
  split
  · exact hlen
  · omega

theorem emit_accounts (hn : n ≤ WORD) (h : Accounted n st a) (hpiece : 0 ∈ piece.str)
    (hrun : emit n st piece = .ok st') :
    ∃ b, Accounted n st' b ∧ Grows a b (missedIn [piece]) := by
  obtain ⟨text, hholds, htotal⟩ := h
  have hprint := sprint_spec hholds hpiece
  have hlen := appendText_length n text (textOf piece.str)
  have hcur := hholds.lt
  rw [emit] at hrun
  cases happend : appendText n text (textOf piece.str) with
  | none =>
      -- a run that does not fit does not return
      rw [happend] at hprint
      rw [hprint, error_seq] at hrun
      cases hrun
  | some text' =>
      rw [happend] at hprint hlen
      obtain ⟨bufOut, added, hsprint, hholds', hadded⟩ := hprint
      have hlen' : text'.length =
          text.length % 2 ^ 32 + appendCount n text.length (textOf piece.str).length := by
        rw [Option.map_some, appended] at hlen
        split at hlen
        · exact Option.some.inj hlen
        · cases hlen
      have hcount := appendCount_le n text.length (textOf piece.str).length
      rw [hsprint, ok_seq] at hrun
      obtain rfl := Except.ok.inj hrun
      cases hcounted : piece.counted with
      | true =>
          -- a piece that is counted
          have hnone : missedIn [piece] = 0 := by simp [missedIn, hcounted]
          refine ⟨a, ⟨text', hholds', ?_⟩, hnone ▸ Grows.refl a⟩
          -- what is added is the difference of the two lengths, unless the text is empty again
          rw [if_pos rfl, hadded]
          split
          · lia
          · lia
      | false =>
          -- the digits of a binary numeral: all that was appended is missing
          have hall : missedIn [piece] = (textOf piece.str).length := by simp [missedIn, hcounted]
          refine ⟨a + appendCount n text.length (textOf piece.str).length, ⟨text', hholds', ?_⟩, ?_⟩
          · rw [if_neg Bool.false_ne_true]
            dsimp only
            omega
          · rw [hall]
            exact ⟨Nat.le_add_right _ _, Nat.add_le_add_left hcount a,
              fun hpos => Nat.lt_add_of_pos_right (appendCount_pos hcur hpos)⟩

theorem emits_account (hn : n ≤ WORD) (h : Accounted n st a) (hpieces : ∀ p ∈ pieces, 0 ∈ p.str)
    (hrun : pieces.foldlM (emit n) st = .ok st') :
    ∃ b, Accounted n st' b ∧ Grows a b (missedIn pieces) := by
  induction pieces generalizing st a with
  | nil =>
      cases hrun
      exact ⟨a, h, Grows.refl a⟩
  | cons piece pieces ih =>
      rw [List.foldlM_cons] at hrun
      obtain ⟨mid, hfirst, hrest⟩ := seq_ok.mp hrun
      obtain ⟨b, hb, hgrows⟩ := emit_accounts hn h (hpieces piece List.mem_cons_self) hfirst
      obtain ⟨c, hc, hgrows'⟩ := ih hb (fun p hp => hpieces p (List.mem_cons_of_mem _ hp)) hrest
      exact ⟨c, hc, hgrows.trans hgrows'⟩

/-- Bytes that are stored are in the buffer. -/
theorem mem_of_writeBytes {α : Type} {b b' bytes : List α} {off : Nat} {x : α}
    (h : writeBytes b off bytes = .ok b') (hx : x ∈ bytes) : x ∈ b' := by
  rw [writeBytes] at h
  split at h
  · obtain rfl := Except.ok.inj h
    simp [hx]
  · cases h

/-! ## One iteration -/

theorem advance_accounts (hn : n ≤ WORD) (h : Accounted n st a) (hrun : advance fmt n st = .ok st') :
    Accounted n st' a := by
  obtain ⟨next, -, hrest⟩ := seq_ok.mp hrun
  split at hrest
  · obtain ⟨buf, hput, hemit⟩ := seq_ok.mp hrest
    have hzero : 0 ∈ buf := mem_of_writeBytes hput List.mem_cons_self
    have hready : Accounted n { st with c := st.c + 1, buf } a := h
    obtain ⟨b, hb, hgrows⟩ := emit_accounts hn hready hzero hemit
    have hsame : b = a := Nat.le_antisymm hgrows.most hgrows.le
    exact hsame ▸ hb
  · obtain rfl := Except.ok.inj hrest
    exact h

/-- Of a conversion, the strings of a binary numeral are missed. -/
theorem convert_accounts (hn : n ≤ WORD) (hlt : st.c < fmt.length) (h : Accounted n st a)
    (hrun : convert fmt n st = .ok st') :
    ∃ b k, Accounted n st' b ∧ Grows a b k ∧ k ≤ 500 ∧
      (0 < k ↔ (convAt (fmt.drop st.c)).isBinary = true) := by
  obtain ⟨buf, hclose, hrun⟩ := seq_ok.mp hrun
  obtain ⟨st₁, hemit, hrun⟩ := seq_ok.mp hrun
  obtain ⟨buf', hclear, hrun⟩ := seq_ok.mp hrun
  obtain ⟨j, hj, hrun⟩ := seq_ok.mp hrun
  obtain ⟨⟨pieces, args⟩, hpieces, hrun⟩ := seq_ok.mp hrun
  obtain ⟨st₂, hemits, hrun⟩ := seq_ok.mp hrun
  have hzero : 0 ∈ buf := mem_of_writeBytes hclose List.mem_cons_self
  have hzero' : 0 ∈ buf' := mem_of_writeBytes hclear (List.mem_replicate.mpr ⟨by omega, rfl⟩)
  have hindex := emit_index hemit
  obtain ⟨b, hb, hgrows⟩ := emit_accounts hn h hzero hemit
  have hsame : b = a := Nat.le_antisymm hgrows.most hgrows.le
  rw [hindex, scanConversion_eq] at hj
  split at hj
  · obtain rfl := Except.ok.inj hj
    rw [convAt_eq] at hpieces
    obtain ⟨hmost, hsome⟩ := missedIn_conv hzero' hpieces
    have hready : Accounted n { st₁ with k := 0, buf := buf', args } b := hb
    obtain ⟨c, hc, hgrows'⟩ := emits_account hn hready (pieces_strings hzero' hpieces) hemits
    obtain rfl := Except.ok.inj hrun
    exact ⟨c, missedIn pieces, hc, hsame ▸ hgrows', hmost, hsome⟩
  · cases hj

theorem vprintfStep_accounts (hn : n ≤ WORD) (hlt : st.c < fmt.length) (h : Accounted n st a)
    (hrun : vprintfStep fmt n st = .ok st') :
    ∃ b k, Accounted n st' b ∧ Grows a b k ∧ k ≤ 500 ∧
      (0 < k ↔ (partAt fmt st.c).isBinary = true) := by
  rw [vprintfStep] at hrun
  split at hrun
  · next hch =>
    obtain ⟨mid, hcollect, hadvance⟩ := seq_ok.mp hrun
    obtain ⟨buf, -, hcollect⟩ := seq_ok.mp hcollect
    obtain ⟨buf', -, hcollect⟩ := seq_ok.mp hcollect
    obtain rfl := Except.ok.inj hcollect
    have hcollected : Accounted n { st with k := st.k + 1, buf := buf' } a := h
    refine ⟨a, 0, advance_accounts hn hcollected hadvance, Grows.refl a, Nat.zero_le _, ?_⟩
    rw [partAt, if_neg hch]
    exact iff_of_false (Nat.lt_irrefl 0) Bool.false_ne_true
  · next hch =>
    obtain ⟨mid, hconvert, hadvance⟩ := seq_ok.mp hrun
    obtain ⟨b, k, hb, hgrows, hmost, hsome⟩ := convert_accounts hn hlt h hconvert
    refine ⟨b, k, advance_accounts hn hb hadvance, hgrows, hmost, ?_⟩
    rw [partAt, if_pos (not_not.mp hch)]
    exact hsome

/-! ## The whole run -/

/-- Up to an index, at most 500 characters are missed for each character of the format, and some exactly
if there has been a binary numeral. -/
structure Accounts (fmt : List Nat) (n : Nat) (st : Printing) : Prop where
  le : st.c ≤ fmt.length
  missed : ∃ a, Accounted n st a ∧ a ≤ 500 * st.c ∧
    (0 < a ∨ (partsFrom fmt st.c).any Directive.isBinary = true ↔
      (directives fmt).any Directive.isBinary = true)

theorem Accounts.step (hn : n ≤ WORD) (h : Accounts fmt n st) (hcond : fmt.getD st.c 0 ≠ 0)
    (hrun : vprintfStep fmt n st = .ok st') : Accounts fmt n st' := by
  obtain ⟨a, ha, hle, hparts⟩ := h.missed
  have hlt := lt_of_char hcond
  obtain ⟨b, k, hb, hgrows, hmost, hsome⟩ := vprintfStep_accounts hn hlt ha hrun
  obtain ⟨hnext, hinside, hpart⟩ := nextIndex_ok hlt (vprintfStep_index hcond hrun)
  refine ⟨hinside, b, hb, ?_, ?_⟩
  · have := hgrows.most
    omega
  · rw [hpart, List.any_cons, Bool.or_eq_true] at hparts
    rw [← hparts, ← hsome, ← or_assoc]
    -- something is missed behind the part if it was before, or if the part makes it so
    have hiff : 0 < b ↔ 0 < a ∨ 0 < k := by
      constructor
      · intro hpos
        have := hgrows.most
        omega
      · rintro (hpos | hpos)
        · exact hpos.trans_le hgrows.le
        · exact (Nat.zero_le a).trans_lt (hgrows.some hpos)
    rw [hiff]

/-- What is missed by a run that returns. -/
theorem vprintf_accounts {stack bufOut : List Nat} {args : List Arg} (hn : n ≤ WORD)
    (hfmt : 0 ∉ fmt) (hholds : Holds bufOut n [])
    (hrun : vprintf stack fmt bufOut n args = .ok st) :
    ∃ a, Accounted n st a ∧ a ≤ 500 * fmt.length ∧
      (0 < a ↔ (directives fmt).any Directive.isBinary = true) := by
  have hstart : Accounts fmt n ⟨0, 0, stack, bufOut, 0, args⟩ := by
    refine ⟨Nat.zero_le _, 0, ⟨[], hholds, rfl⟩, Nat.zero_le _, ?_⟩
    rw [or_iff_right (Nat.lt_irrefl 0)]
    rfl
  obtain ⟨⟨hle, a, ha, hmost, hparts⟩, hend⟩ := whileLoop_invariant (Accounts fmt n)
    (fun s hs hcond s' hs' => hs.step hn (of_decide_eq_true hcond) hs') hstart hrun
  have hlast : st.c = fmt.length := by
    refine Nat.le_antisymm hle (Nat.le_of_not_lt fun hlt => ?_)
    exact of_decide_eq_false hend (char_ne_nul hfmt hlt)
  rw [hlast, partsFrom_end, List.any_nil, or_iff_left Bool.false_ne_true] at hparts
  exact ⟨a, ha, hlast ▸ hmost, hparts⟩

/-! ## `vsnprintf`

Where the run returns, the value is short by what was missed, which is nothing exactly if no
conversion was binary. Where it does not return there is nothing to count.
-/

/-- An `int` that is the length of a string. -/
theorem toInt_eq_length {total len : Nat} :
    (BitVec.ofNat 32 total).toInt = (len : Int) ↔ total % 2 ^ 32 = len ∧ len < 2 ^ 31 := by
  rw [BitVec.toInt_eq_toNat_cond, BitVec.toNat_ofNat]
  have hlt : total % 2 ^ 32 < 2 ^ 32 := Nat.mod_lt _ (Nat.two_pow_pos 32)
  split
  · omega
  · omega

/-- `vsnprintf` returns the length of the string that it leaves. -/
def Counts (stack s : List Nat) (n : Nat) (fmt : List Nat) (args : List Arg) : Prop :=
  ∃ s' len, vsnprintf stack s n fmt args = .ok (s', (len : Nat)) ∧ strlen s' = .ok len

variable {stack s : List Nat} {args rest : List Arg} {ps : List (List Nat)}

/-- It only returns if the format fits into its buffer and is not left. -/
theorem vsnprintf_returns_only {res : List Nat × Int} (hstack : stack.length = PRINTF_BUF)
    (hs : s.length = n) (hfmt : 0 ∉ fmt) (hpos : 0 < n)
    (hprints : Prints (directives fmt) [] args ps rest)
    (hrun : vsnprintf stack s n fmt args = .ok res) : HasRoom fmt ∧ .overrun ∉ directives fmt := by
  obtain ⟨bufOut, hclear, hholds⟩ := clear_output hs hpos
  rw [vsnprintf, hclear, ok_seq] at hrun
  obtain ⟨st, hst, -⟩ := seq_ok.mp hrun
  have hroom := vprintf_hasRoom hstack hfmt hst
  refine ⟨hroom, fun hmem => ?_⟩
  rw [(vprintf_delivers hstack hroom hholds hprints).stops (.inl hmem)] at hst
  cases hst

/-- What it returns is too small by what has been missed. -/
theorem vsnprintf_returns (hstack : stack.length = PRINTF_BUF) (hs : s.length = n) (hn : n < WORD)
    (hprints : Prints (directives fmt) [] args ps rest) (hsum : (ps.map List.length).sum < n)
    (hroom : HasRoom fmt) (hinside : .overrun ∉ directives fmt) :
    ∃ s' total missed, vsnprintf stack s n fmt args = .ok (s', (BitVec.ofNat 32 total).toInt) ∧
      strlen s' = .ok (outputLength (ps.map List.length)) ∧
      (total + missed) % 2 ^ 32 = outputLength (ps.map List.length) % 2 ^ 32 ∧
      missed < 2 ^ 32 ∧ (0 < missed ↔ (directives fmt).any Directive.isBinary = true) := by
  obtain ⟨bufOut, hclear, hholds⟩ := clear_output hs (Nat.zero_lt_of_lt hsum)
  obtain ⟨text, htext, hlen⟩ := appendTexts_output hsum
  obtain ⟨st, hst, hheld, -⟩ :=
    (vprintf_delivers hstack hroom hholds hprints).fits hinside text htext
  obtain ⟨a, ⟨text', hheld', htotal⟩, hmost, hsome⟩ :=
    vprintf_accounts hn.le hroom.nonzero hholds hst
  have hsame : text'.length = text.length := Except.ok.inj (hheld'.strlen.symm.trans hheld.strlen)
  have hshort : fmt.length ≤ 2048 := hroom.short
  refine ⟨st.bufOut, st.total, a, ?_, hlen ▸ hheld.strlen, ?_, by omega, hsome⟩
  · rw [vsnprintf, hclear, ok_seq, hst, ok_seq]
  · rw [htotal, hsame, hlen]

/-- For every format, arguments that match it, and size of the buffer in which the output fits,
`vsnprintf` returns the length of the string that it leaves if and only if the format fits into its
buffer and is not left, there is no binary numeral in it, and the length is an `int`. -/
theorem vsnprintf_counts_iff (hstack : stack.length = PRINTF_BUF) (hs : s.length = n) (hn : n < WORD)
    (hfmt : 0 ∉ fmt) (hargs : Matches (directives fmt) args) :
    ∃ ps rest, Prints (directives fmt) [] args ps rest ∧ ((ps.map List.length).sum < n →
      (Counts stack s n fmt args ↔
        HasRoom fmt ∧ .overrun ∉ directives fmt ∧ (directives fmt).any Directive.isBinary = false ∧
          outputLength (ps.map List.length) < 2 ^ 31)) := by
  obtain ⟨ps, rest, hprints⟩ := prints_of_matches hargs []
  refine ⟨ps, rest, hprints, fun hsum => ?_⟩
  constructor
  · rintro ⟨s', len, hrun, hlen⟩
    obtain ⟨hroom, hinside⟩ :=
      vsnprintf_returns_only hstack hs hfmt (Nat.zero_lt_of_lt hsum) hprints hrun
    obtain ⟨s'', total, missed, hrun', hlen', htotal, hmost, hsome⟩ :=
      vsnprintf_returns hstack hs hn hprints hsum hroom hinside
    obtain ⟨rfl, hret⟩ := Prod.mk.inj (Except.ok.inj (hrun.symm.trans hrun'))
    obtain rfl := Except.ok.inj (hlen.symm.trans hlen')
    obtain ⟨hcount, hint⟩ := toInt_eq_length.mp hret.symm
    -- the total is the length, so that nothing has been missed
    have hnone : ¬ 0 < missed := by omega
    rw [hsome, Bool.not_eq_true] at hnone
    exact ⟨hroom, hinside, hnone, hint⟩
  · -- with no binary conversion nothing is missing
    rintro ⟨hroom, hinside, hplain, hint⟩
    obtain ⟨s', total, missed, hrun, hlen, htotal, -, hsome⟩ :=
      vsnprintf_returns hstack hs hn hprints hsum hroom hinside
    rw [hplain, iff_false_right Bool.false_ne_true] at hsome
    refine ⟨s', _, ?_, hlen⟩
    rw [hrun, toInt_eq_length.mpr ⟨?_, hint⟩]
    omega

/-- `"x=%d"`, in 16 bytes. -/
theorem vsnprintf_counts_usual :
    ∃ ps rest, Prints (directives [120, 61, 37, 100]) [] [.int 7] ps rest ∧
      (ps.map List.length).sum < 16 ∧
      (Counts (List.replicate PRINTF_BUF 0) (List.replicate 16 0) 16 [120, 61, 37, 100] [.int 7] ↔
        HasRoom [120, 61, 37, 100] ∧ .overrun ∉ directives [120, 61, 37, 100] ∧
          (directives [120, 61, 37, 100]).any Directive.isBinary = false ∧
          outputLength (ps.map List.length) < 2 ^ 31) := by
  have hmatches : Matches (directives [120, 61, 37, 100]) [.int 7] := by
    rw [directives_usual]
    exact ⟨.int 7, [], rfl, rfl, trivial⟩
  obtain ⟨ps, rest, hprints, hcounts⟩ :=
    @vsnprintf_counts_iff 16 [120, 61, 37, 100] (List.replicate PRINTF_BUF 0) (List.replicate 16 0)
      [.int 7] List.length_replicate List.length_replicate (by decide) (by decide) hmatches
  have hsum : (ps.map List.length).sum < 16 := by
    have hdec : Conv.dec.pieces [0] [.int 7] = .ok ([⟨true, pad 32 [55]⟩], []) := rfl
    rw [directives_usual] at hprints
    obtain _ | hprints := hprints
    obtain _ | hprints := hprints
    cases hprints with
    | conv hpieces hrest =>
      obtain ⟨rfl, -⟩ := Prod.mk.inj (Except.ok.inj (hdec.symm.trans hpieces))
      cases hrest
      decide
  exact ⟨ps, rest, hprints, hsum, hcounts hsum⟩

theorem not_counts {stack s fmt : List Nat} {args : List Arg} {n : Nat}
    (h : Outcome (fun res => strlen res.1 ≠ .ok res.2.toNat) (fun _ => True)
      (vsnprintf stack s n fmt args)) :
    ¬ Counts stack s n fmt args := by
  rintro ⟨s', len, hrun, hlen⟩
  rw [hrun, outcome_ok] at h
  exact h hlen

/-- `"%b"` of 1 in 64 bytes: 41 characters, and the value is 0. -/
theorem vsnprintf_not_counts :
    (∃ ps rest, Prints (directives [37, 98]) [] [.int 1] ps rest ∧ (ps.map List.length).sum < 64) ∧
      ¬ Counts (List.replicate PRINTF_BUF 0) (List.replicate 64 0) 64 [37, 98] [.int 1] := by
  have hparts : directives [37, 98] = [.conv .bits] := by
    simp [directives, flags, convAt, skipAt, toChar, Conv.of, Conv.lastFmtLen]
  rw [hparts]
  exact ⟨⟨_, _, .conv rfl .nil, by decide⟩, not_counts (by decide +kernel)⟩

end Twos.Kstd
