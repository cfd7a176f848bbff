import Mathlib.Data.Nat.Digits.Lemmas
import Twos.Kstd.String
import Twos.Lib.Numeral

/-!
# Numbers as strings

`itoa` and `ltoa` of `string.c`. Both fill a local buffer from its end, digit by digit. The pointer
of `itoa` is the number of bytes that are left before it, so that it can move down only while there
are any; what is behind it is the text so far.

Both texts are the digits of `Lib.Numeral` (`numberText`), that of `itoa` with a sign in front. The
loops are done by induction, `itoaLoop_spec` on the number of digits that are left and
`ltoaLoop_digits` on the digits themselves, and `itoa_eq` and `ltoa_eq` store the text with its NUL. That
it fits into the buffer of 32 bytes is `signedText_short` and `longText_short`, for the bases from 10 on.
-/

namespace Twos.Kstd

open Lib

/-! ## `itoa` -/

/-- `"0123456789ABCDEFGHIJKLMNOPQRSTUVWXYZ"`. -/
def digits : List Nat := (List.range 10).map (48 + ·) ++ (List.range 26).map (65 + ·)

/-- `sizeof buffer`, less the byte of the NUL: `sizeof a * CHAR_BIT + 1`. -/
abbrev ITOA_ROOM : Nat := 4 * 8 + 1

/-- The loop, for a number that is not positive. -/
def itoaLoop (base : Nat) : Nat → Int → List Nat → Except Fault (Nat × List Nat)
  | 0, _, _ => .error .outOfBounds
  | p + 1, an, text =>
      let text := digits.getD (-(an.tmod base)).toNat 0 :: text
      let an := an.tdiv base
      if an = 0 then .ok (p, text) else itoaLoop base p an text

/-- The text that `itoa` makes of a number, with its NUL. -/
def itoaText (a : Int) (base : Nat) : Except Fault (List Nat) := do
  -- negative numbers reach further
  let an := if a < 0 then a else -a
  let (p, text) ← itoaLoop base ITOA_ROOM an [0]
  if a < 0 then
    if p = 0 then .error .outOfBounds else .ok (45 :: text)
  else .ok text

/-- `itoa`. -/
def itoa (a : Int) (dest : List Nat) (base : Nat) : Except Fault (List Nat) :=
  if base < 2 ∨ base > 36 then .ok dest
  else do
    let text ← itoaText a base
    writeBytes dest 0 text

/-! ## `ltoa` -/

/-- `"0123456789abcdef"`. -/
def lowerDigits : List Nat := (List.range 10).map (48 + ·) ++ (List.range 6).map (97 + ·)

/-- `for (; a && i; --i, a /= base)`, with what it leaves. -/
def ltoaLoop (base : Nat) : Nat → Nat → List Nat → Nat × List Nat
  | 0, _, buf => (0, buf)
  | i + 1, a, buf =>
      if a = 0 then (i + 1, buf)
      else ltoaLoop base i (a / base) (buf.set (i + 1) (lowerDigits.getD (a % base) 0))

/-- `ltoa`. -/
def ltoa (a : Nat) (dest : List Nat) (base : Nat) : Except Fault (List Nat) :=
  if a = 0 then strcpy dest 0 [48, 0]
  else
    let (i, buf) := ltoaLoop base 60 a (List.replicate 62 0)
    strncpy dest 0 (buf.drop (i + 1)) 32

/-! ## What they write

`numberText` is the numeral of a number in a base, from its list of digits. `itoaLoop_spec` and
`ltoaLoop_spec` put it at the end of the buffer, and a bound on its length in terms of the base says
for which bases the buffers are long enough.
-/

theorem digits_ne_zero {d : Nat} (h : d < 36) : digits.getD d 0 ≠ 0 := by
  revert d
  decide

theorem lowerDigits_ne_zero {d : Nat} (h : d < 16) : lowerDigits.getD d 0 ≠ 0 := by
  revert d
  decide

/-- One iteration of the loop of `itoa`, on the absolute value. -/
theorem itoaLoop_succ (base p a : Nat) (text : List Nat) :
    itoaLoop base (p + 1) (-(a : Int)) text =
      if a / base = 0 then .ok (p, digits.getD (a % base) 0 :: text)
      else itoaLoop base p (-((a / base : Nat) : Int)) (digits.getD (a % base) 0 :: text) := by
  have hmod : (-((-(a : Int)).tmod base)).toNat = a % base := by
    rw [Int.neg_tmod, Int.neg_neg, ← Int.ofNat_tmod, Int.toNat_natCast]
  have hdiv : (-(a : Int)).tdiv base = -((a / base : Nat) : Int) := by
    rw [Int.neg_tdiv, ← Int.ofNat_tdiv]
  rw [itoaLoop]
  simp only [hmod, hdiv, Int.neg_eq_zero, Int.natCast_eq_zero]

/-- The text of a number, with these digits. -/
def numberText (digit : Nat → Nat) (base a : Nat) : List Nat := (numeral base a).map digit

/-- The digits of `itoa`. -/
def upperDigit (d : Nat) : Nat := digits.getD d 0

/-- The digits of `ltoa`. -/
def lowerDigit (d : Nat) : Nat := lowerDigits.getD d 0

theorem zero_notMem_numberText {digit : Nat → Nat} {base : Nat} (hbase : 1 < base)
    (hdigit : ∀ d, d < base → digit d ≠ 0) (a : Nat) : 0 ∉ numberText digit base a := by
  intro hmem
  obtain ⟨d, hd, hzero⟩ := List.mem_map.mp hmem
  exact hdigit d (lt_of_mem_numeral hbase hd) hzero

theorem length_numberText {base k : Nat} (hbase : 1 < base) (hk : 0 < k) {a : Nat}
    (ha : a < base ^ k) (digit : Nat → Nat) : (numberText digit base a).length ≤ k := by
  rw [numberText, List.length_map]
  exact length_numeral_le hbase hk ha

/-- The loop writes the number before what there is, and goes as far down as the number is long. -/
theorem itoaLoop_spec {base k : Nat} (hbase : 1 < base) {a : Nat} (ha : a < base ^ k) (hk : 0 < k)
    (p : Nat) (text : List Nat) :
    itoaLoop base (k + p) (-(a : Int)) text =
      .ok (k + p - (numeral base a).length, numberText upperDigit base a ++ text) := by
  induction k generalizing a text with
  | zero => exact absurd hk (Nat.lt_irrefl 0)
  | succ k ih =>
      rw [show k + 1 + p = k + p + 1 by omega, itoaLoop_succ]
      by_cases hlast : a / base = 0
      · have hlt : a < base := (Nat.div_eq_zero_iff_lt (by omega)).mp hlast
        rw [if_pos hlast, numberText, numeral_lt hlt, Nat.mod_eq_of_lt hlt]
        rfl
      · have hquot : a / base < base ^ k := Nat.div_lt_of_lt_mul (by rwa [Nat.pow_succ'] at ha)
        have hpos := pos_of_lt_pow hlast hquot
        have hrun := ih hquot hpos (digits.getD (a % base) 0 :: text)
        rw [if_neg hlast, hrun, numberText, numberText, numeral_div hbase hlast, List.map_append,
          List.append_assoc, List.length_append, List.length_singleton]
        congr 2
        omega

/-- The text of a signed number. -/
def signedText (base : Nat) (a : Int) : List Nat :=
  if a < 0 then 45 :: numberText upperDigit base a.natAbs else numberText upperDigit base a.natAbs

/-- How many digits a number that `itoa` is given has, in the least base and in any other one. -/
theorem natAbs_lt_pow (a : BitVec 32) {least k base : Nat} (hroom : 2 ^ 31 < least ^ k)
    (hbase : least ≤ base) : a.toInt.natAbs < base ^ k := by
  have hlo := BitVec.le_toInt a
  have hhi := BitVec.toInt_lt (x := a)
  calc a.toInt.natAbs ≤ 2 ^ 31 := by omega
    _ < least ^ k := hroom
    _ ≤ base ^ k := Nat.pow_le_pow_left hbase k

/-- One more character than the digits need, at most. -/
theorem length_signedText {base k : Nat} (hbase : 1 < base) (hk : 0 < k) {a : Int}
    (ha : a.natAbs < base ^ k) : (signedText base a).length ≤ k + 1 := by
  have hlen := length_numberText hbase hk ha upperDigit
  unfold signedText
  split
  · exact Nat.succ_le_succ hlen
  · exact Nat.le_succ_of_le hlen

theorem zero_notMem_signedText {base : Nat} (hbase : 1 < base ∧ base ≤ 36) (a : Int) :
    0 ∉ signedText base a := by
  have hzero : 0 ∉ numberText upperDigit base a.natAbs :=
    zero_notMem_numberText hbase.1 (fun d hd => digits_ne_zero (by omega)) _
  unfold signedText
  split
  · simpa using hzero
  · exact hzero

theorem signedText_short (a : BitVec 32) {base : Nat} (hbase : 10 ≤ base ∧ base ≤ 36) :
    (signedText base a.toInt).length ≤ 11 ∧ 0 ∉ signedText base a.toInt := by
  have hfits := natAbs_lt_pow a (by decide : 2 ^ 31 < 10 ^ 10) hbase.1
  exact ⟨length_signedText (by omega) (by decide) hfits,
    zero_notMem_signedText ⟨by omega, hbase.2⟩ _⟩

/-- In every base the buffer of `itoa` has a byte for each digit, and one for the sign. -/
theorem itoaText_eq (a : BitVec 32) {base : Nat} (hbase : 2 ≤ base ∧ base ≤ 36) :
    itoaText a.toInt base = .ok (signedText base a.toInt ++ [0]) := by
  have hfits := natAbs_lt_pow a (by decide : 2 ^ 31 < 2 ^ 32) hbase.1
  have hlen := length_numeral_le hbase.1 (by decide) hfits
  have hneg : (if a.toInt < 0 then a.toInt else -a.toInt) = -(a.toInt.natAbs : Int) := by
    split
    · omega
    · omega
  have hrun := itoaLoop_spec hbase.1 hfits (by decide) 1 [0]
  rw [itoaText, hneg, hrun, ok_seq, signedText]
  by_cases hsign : a.toInt < 0
  · have hroom : 32 + 1 - (numeral base a.toInt.natAbs).length ≠ 0 := by omega
    simp only [if_pos hsign, if_neg hroom, List.cons_append]
  · simp only [if_neg hsign]

/-- `itoa` stores the text and the NUL, and leaves what is behind them. -/
theorem itoa_store (a : BitVec 32) {base : Nat} (hbase : 2 ≤ base ∧ base ≤ 36) {dest : List Nat}
    (hdest : (signedText base a.toInt).length < dest.length) :
    itoa a.toInt dest base =
      .ok (signedText base a.toInt ++ 0 :: dest.drop ((signedText base a.toInt).length + 1)) := by
  have hroom : 0 + (signedText base a.toInt ++ [0]).length ≤ dest.length := by
    rw [List.length_append, List.length_singleton]
    omega
  rw [itoa, if_neg (by omega), itoaText_eq a hbase, ok_seq, writeBytes, if_pos hroom]
  simp

/-- `itoa` in base 10 or more has room in a buffer of 32 bytes. -/
theorem itoa_eq (a : BitVec 32) {base : Nat} (hbase : 10 ≤ base ∧ base ≤ 36) :
    itoa a.toInt (List.replicate 32 0) base = .ok (pad 32 (signedText base a.toInt)) := by
  obtain ⟨hlen, -⟩ := signedText_short a hbase
  have hshort : (signedText base a.toInt).length < 32 := by omega
  have hdest : (signedText base a.toInt).length < (List.replicate 32 0).length := hshort
  rw [itoa_store a ⟨by omega, hbase.2⟩ hdest, List.drop_replicate, pad_eq hshort, Nat.sub_sub]

/-- What `itoa` leaves is a string. -/
theorem itoa_spec (a : BitVec 32) {base : Nat} (hbase : 10 ≤ base ∧ base ≤ 36) :
    ∃ text, itoa a.toInt (List.replicate 32 0) base = .ok (pad 32 text) ∧ text.length < 32 ∧
      0 ∉ text := by
  obtain ⟨hlen, hzero⟩ := signedText_short a hbase
  exact ⟨_, itoa_eq a hbase, by omega, hzero⟩

/-- The loop of `ltoa` puts the digits before what was there, the last ones if there are too many. -/
theorem ltoaLoop_digits {base : Nat} (hbase : 1 < base) (i a : Nat) (buf : List Nat)
    (hbuf : i < buf.length) :
    (ltoaLoop base i a buf).2.drop ((ltoaLoop base i a buf).1 + 1) =
      (((Nat.digits base a).take i).reverse.map lowerDigit) ++ buf.drop (i + 1) := by
  induction i generalizing a buf with
  | zero => simp [ltoaLoop]
  | succ i ih =>
      rw [ltoaLoop]
      by_cases hzero : a = 0
      · simp [hzero]
      · have hdrop : (buf.set (i + 1) (lowerDigits.getD (a % base) 0)).drop (i + 1) =
            lowerDigit (a % base) :: buf.drop (i + 1 + 1) := by
          rw [List.drop_eq_getElem_cons (by simpa using hbuf), List.getElem_set_self,
            List.drop_set_of_lt (by omega)]
          rfl
        rw [if_neg hzero, ih (a / base) _ (by rw [List.length_set]; omega), hdrop,
          Nat.digits_def' hbase (Nat.pos_of_ne_zero hzero), List.take_succ_cons, List.reverse_cons,
          List.map_append, List.append_assoc]
        rfl

/-- A number with room for all of its digits. -/
theorem ltoaLoop_spec {base k : Nat} (hbase : 1 < base) {a : Nat} (ha : a < base ^ k) {i : Nat}
    (hi : k ≤ i) (buf : List Nat) (hbuf : i + 1 < buf.length) :
    (ltoaLoop base i a buf).2.drop ((ltoaLoop base i a buf).1 + 1) =
      (if a = 0 then [] else numberText lowerDigit base a) ++ buf.drop (i + 1) := by
  have hlen : (Nat.digits base a).length ≤ i :=
    Nat.le_trans ((Nat.digits_length_le_iff hbase a).mpr ha) hi
  rw [ltoaLoop_digits hbase i a buf (by omega), List.take_of_length_le hlen]
  split
  · next hzero => simp [hzero]
  · next hne => rw [numberText, numeral, if_neg hne]

theorem longText_short (a : BitVec 64) {base : Nat} (hbase : 10 ≤ base ∧ base ≤ 16) :
    (numberText lowerDigit base a.toNat).length ≤ 20 ∧ 0 ∉ numberText lowerDigit base a.toNat := by
  have hfits : a.toNat < base ^ 20 := by
    calc a.toNat < 2 ^ 64 := a.isLt
      _ < 10 ^ 20 := by decide
      _ ≤ base ^ 20 := Nat.pow_le_pow_left hbase.1 20
  refine ⟨length_numberText (by omega) (by decide) hfits _, ?_⟩
  exact zero_notMem_numberText (by omega) (fun d hd => lowerDigits_ne_zero (by omega)) _

/-- `ltoa` in base 10 to 16 has room in its own buffer, and in one of 32 bytes. -/
theorem ltoa_eq (a : BitVec 64) {base : Nat} (hbase : 10 ≤ base ∧ base ≤ 16) :
    ltoa a.toNat (List.replicate 32 0) base = .ok (pad 32 (numberText lowerDigit base a.toNat)) := by
  by_cases hzero : a.toNat = 0
  · rw [ltoa, if_pos hzero, hzero]
    rfl
  · have hfits : a.toNat < base ^ 60 := by
      calc a.toNat < 2 ^ 64 := a.isLt
        _ < 10 ^ 60 := by decide
        _ ≤ base ^ 60 := Nat.pow_le_pow_left hbase.1 60
    have hrun := ltoaLoop_spec (by omega) hfits (Nat.le_refl 60) (List.replicate 62 0) (by decide)
    have hlast : (List.replicate 62 0).drop 61 = [0] := by decide
    obtain ⟨hlen, hnul⟩ := longText_short a hbase
    rw [if_neg hzero] at hrun
    rw [ltoa, if_neg hzero]
    simp only [hrun, hlast]
    exact strncpy_pad hnul (by omega) (by decide)

/-- What `ltoa` leaves is a string. -/
theorem ltoa_spec (a : BitVec 64) {base : Nat} (hbase : 10 ≤ base ∧ base ≤ 16) :
    ∃ text, ltoa a.toNat (List.replicate 32 0) base = .ok (pad 32 text) ∧ text.length < 32 ∧
      0 ∉ text := by
  obtain ⟨hlen, hzero⟩ := longText_short a hbase
  exact ⟨_, ltoa_eq a hbase, by omega, hzero⟩

end Twos.Kstd
