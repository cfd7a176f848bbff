import Twos.Kstd.Items

/-!
# Numbers that are read back

What the text of a number says, in the base and the signedness of its conversion. `itoa` takes an
`int` and `ltoa` an unsigned number, whatever the conversion, and `%C` counts its bits down from eight
times the index of the highest one. So an argument is printed as it should be as long as the two
readings of it agree, and, for `%C`, as long as no bit is printed twice.

`Denotes` asks of a text that it is read back to its argument and that it is the standard one, and
`Spec.Exact` is the condition on the argument. There is a lemma for each kind of conversion: a decimal
one is a numeral with a sign (`isNumeral_signedText`), a hexadecimal one a numeral without
(`isNumeral_long`), and a binary one the bits from some index down (`readBits_iff`). `denotes_iff` goes
through the conversions, and `printed_rendering` takes the result through `vsnprintf`.
-/

namespace Twos.Kstd

open Lib

/-! ## Reading

The other direction of printing, and independent of it: these functions read a text as a number.
`Denotes` asks that reading gives the argument back, and that the text is written as such a number
is; a numeral with a leading zero would be read as well.
-/

/-- The value of a digit, of either case. -/
def digitVal (c : Nat) : Nat :=
  if 48 ≤ c ∧ c ≤ 57 then c - 48
  else if 65 ≤ c ∧ c ≤ 90 then c - 55
  else if 97 ≤ c ∧ c ≤ 122 then c - 87
  else 36

/-- An unsigned number, which may have leading zeros. -/
def readNat (base : Nat) (text : List Nat) : Option Nat :=
  if text ≠ [] ∧ ∀ c ∈ text, digitVal c < base then
    some (Nat.ofDigits base (text.map digitVal).reverse)
  else none

/-- A number that may have a sign. -/
def readInt (base : Nat) (text : List Nat) : Option Int :=
  if text.head? = some 45 then (readNat base text.tail).map fun v : Nat => -(v : Int)
  else (readNat base text).map Int.ofNat

/-- A hexadecimal number behind `0x`. -/
def readHex : List Nat → Option Nat
  | 48 :: 120 :: text => readNat 16 text
  | _ => none

/-- A binary number behind `0b`, with spaces. -/
def readBits : List Nat → Option Nat
  | 48 :: 98 :: text => readNat 2 (text.filter (· ≠ 32))
  | _ => none

/-- The conversions that print numbers. -/
def Spec.IsNumber (k : Spec) : Prop := k ≠ .c ∧ k ≠ .s

instance (k : Spec) : Decidable k.IsNumber := inferInstanceAs (Decidable (_ ∧ _))

/-- What a text says, in the base and the signedness of a conversion. -/
def Spec.reading (k : Spec) (text : List Nat) : Option Int :=
  match k with
  | .i => readInt 10 text
  | .d => readInt 10 text
  | .ld => readInt 10 text
  | .li => readInt 10 text
  | .u => (readNat 10 text).map Int.ofNat
  | .lu => (readNat 10 text).map Int.ofNat
  | .x => (readHex text).map Int.ofNat
  | .lx => (readNat 16 text).map Int.ofNat
  | .lX => (readNat 16 text).map Int.ofNat
  | .c => none
  | .s => none
  | _ => (readBits text).map Int.ofNat

/-- The number that an argument is, in the signedness of a conversion. -/
def Spec.value : Spec → Arg → Int
  | .i, .int a => a.toInt
  | .d, .int a => a.toInt
  | _, .int a => a.toNat
  | .ld, .long a => a.toInt
  | .li, .long a => a.toInt
  | _, .long a => a.toNat
  | _, .str _ => 0

/-- The digits of a number and nothing else: no leading zeros, no sign. -/
def IsNumeral (base v : Nat) (text : List Nat) : Prop := text.map digitVal = numeral base v

/-- The decimal value, with a sign if it is negative. -/
def IsSigned (v : Int) (text : List Nat) : Prop :=
  if v < 0 then ∃ t, text = 45 :: t ∧ IsNumeral 10 v.natAbs t else IsNumeral 10 v.natAbs text

/-- How a conversion writes a number. The digits of binary ones may be as many as there are bits. -/
def Spec.Standard (k : Spec) (v : Int) (text : List Nat) : Prop :=
  match k with
  | .i => IsSigned v text
  | .d => IsSigned v text
  | .ld => IsSigned v text
  | .li => IsSigned v text
  | .u => IsNumeral 10 v.natAbs text
  | .lu => IsNumeral 10 v.natAbs text
  | .x => ∃ t, text = 48 :: 120 :: t ∧ IsNumeral 16 v.natAbs t
  | .lx => IsNumeral 16 v.natAbs text
  | .lX => IsNumeral 16 v.natAbs text
  | _ => True

/-- A text denotes an argument: it is written as it should be, and reading it back gives the
argument. -/
structure Denotes (k : Spec) (a : Arg) (text : List Nat) : Prop where
  standard : k.Standard (k.value a) text
  read : k.reading text = some (k.value a)

/-- The arguments that are printed as they should be. -/
def Spec.Exact : Spec → Arg → Prop
  | .u, .int a => a.toNat < 2 ^ 31
  | .x, .int a => a.toNat < 2 ^ 31
  | .C, .int a => a.toNat < 16 ∨ (a.toNat < 32 ∧ a.toNat % 2 = 0)
  | .ld, .long a => a.toNat < 2 ^ 63
  | .li, .long a => a.toNat < 2 ^ 63
  | _, _ => True

/-! ## Numerals -/

variable {base v : Nat} {text t : List Nat}

theorem IsNumeral.ne_nil (h : IsNumeral base v text) : text ≠ [] := by
  rintro rfl
  exact numeral_ne_nil base v h.symm

theorem IsNumeral.digits (hbase : 1 < base) (h : IsNumeral base v text) :
    ∀ c ∈ text, digitVal c < base := fun _ hc =>
  lt_of_mem_numeral hbase (h ▸ List.mem_map_of_mem hc)

/-- A numeral is read as its number. -/
theorem IsNumeral.readNat (hbase : 1 < base) (h : IsNumeral base v text) :
    readNat base text = some v := by
  rw [Kstd.readNat, if_pos ⟨h.ne_nil, h.digits hbase⟩, h, ofDigits_numeral]

/-- A sign is not a digit. -/
theorem IsNumeral.no_sign (hbase : 1 < base ∧ base ≤ 36) (h : IsNumeral base v text) :
    text.head? ≠ some 45 := by
  intro hhead
  have hlt := h.digits hbase.1 45 (List.mem_of_mem_head? hhead)
  have hsign : digitVal 45 = 36 := rfl
  omega

theorem IsNumeral.readInt (hbase : 1 < base ∧ base ≤ 36) (h : IsNumeral base v text) :
    readInt base text = some (v : Int) := by
  rw [Kstd.readInt, if_neg (h.no_sign hbase), h.readNat hbase.1]
  rfl

theorem readInt_neg (hbase : 1 < base) (h : IsNumeral base v text) :
    readInt base (45 :: text) = some (-(v : Int)) := by
  rw [readInt, List.head?_cons, if_pos rfl, List.tail_cons, h.readNat hbase]
  rfl

/-- Digits from a table are digits. -/
theorem isNumeral_numberText {digit : Nat → Nat} (hbase : 1 < base)
    (hdigit : ∀ d, d < base → digitVal (digit d) = d) (a : Nat) :
    IsNumeral base a (numberText digit base a) := by
  rw [IsNumeral, numberText, List.map_map]
  refine (List.map_congr_left fun d hd => ?_).trans (List.map_id _)
  exact hdigit d (lt_of_mem_numeral hbase hd)

theorem digitVal_upperDigit {d : Nat} (h : d < 36) : digitVal (upperDigit d) = d := by
  revert d
  decide

theorem digitVal_lowerDigit {d : Nat} (h : d < 16) : digitVal (lowerDigit d) = d := by
  revert d
  decide

/-! ## Decimal and hexadecimal numbers

What `itoa` and `ltoa` write is known from their loops. Reading it gives the signed value of an
`int` for `itoa` and the unsigned value of a `long` for `ltoa`, whichever was asked for: so `%u`,
`%x` and `%ld` are right for the arguments for which the two are the same.
-/

theorem textIn_pad {x : Except Fault (List Nat)} (hx : x = .ok (pad 32 text))
    (hlen : text.length < 32) (hzero : 0 ∉ text) : textIn x = text := by
  rw [hx, textIn, pad_eq hlen, textOf_append hzero]

theorem textIn_itoa (a : BitVec 32) (hbase : 10 ≤ base ∧ base ≤ 36) :
    textIn (itoa a.toInt ubCleared base) = signedText base a.toInt := by
  obtain ⟨hlen, hzero⟩ := signedText_short a hbase
  exact textIn_pad (itoa_eq a hbase) (by omega) hzero

theorem textIn_ltoa (a : BitVec 64) (hbase : 10 ≤ base ∧ base ≤ 16) :
    textIn (ltoa a.toNat ubCleared base) = numberText lowerDigit base a.toNat := by
  obtain ⟨hlen, hzero⟩ := longText_short a hbase
  exact textIn_pad (ltoa_eq a hbase) (by omega) hzero

theorem rendering_dec {k : Spec} (hk : k = .i ∨ k = .d ∨ k = .u) (a : BitVec 32) :
    k.rendering (.int a) = signedText 10 a.toInt := by
  have htext := textIn_itoa a (by decide : 10 ≤ 10 ∧ 10 ≤ 36)
  rcases hk with rfl | rfl | rfl <;> exact htext

theorem rendering_hex (a : BitVec 32) :
    Spec.x.rendering (.int a) = [48, 120] ++ signedText 16 a.toInt :=
  congrArg ([48, 120] ++ ·) (textIn_itoa a (by decide : 10 ≤ 16 ∧ 16 ≤ 36))

theorem rendering_longHex {k : Spec} (hk : k = .lx ∨ k = .lX) (a : BitVec 64) :
    k.rendering (.long a) = numberText lowerDigit 16 a.toNat := by
  have htext := textIn_ltoa a (by decide : 10 ≤ 16 ∧ 16 ≤ 16)
  rcases hk with rfl | rfl <;> exact htext

theorem rendering_longDec {k : Spec} (hk : k = .lu ∨ k = .ld ∨ k = .li) (a : BitVec 64) :
    k.rendering (.long a) = numberText lowerDigit 10 a.toNat := by
  have htext := textIn_ltoa a (by decide : 10 ≤ 10 ∧ 10 ≤ 16)
  rcases hk with rfl | rfl | rfl <;> exact htext

/-- The text of an `int` is its signed value. -/
theorem isNumeral_signedText (a : BitVec 32) (hbase : 10 ≤ base ∧ base ≤ 36) :
    (a.toInt < 0 ∧ ∃ t, signedText base a.toInt = 45 :: t ∧ IsNumeral base a.toInt.natAbs t) ∨
      (0 ≤ a.toInt ∧ IsNumeral base a.toInt.natAbs (signedText base a.toInt)) := by
  have hnum : IsNumeral base a.toInt.natAbs (numberText upperDigit base a.toInt.natAbs) :=
    isNumeral_numberText (by omega) (fun d hd => digitVal_upperDigit (by omega)) _
  unfold signedText
  split
  · next hneg => exact Or.inl ⟨hneg, _, rfl, hnum⟩
  · next hpos => exact Or.inr ⟨by omega, hnum⟩

/-- An `int` is its unsigned value while its top bit is clear. -/
theorem toInt_nonneg_iff (a : BitVec 32) : 0 ≤ a.toInt ↔ a.toNat < 2 ^ 31 := by
  rw [BitVec.toInt_eq_toNat_cond]
  have := a.isLt
  split
  · omega
  · omega

theorem natAbs_toInt {a : BitVec 32} (h : 0 ≤ a.toInt) : a.toInt.natAbs = a.toNat := by
  rw [BitVec.toInt_eq_toNat_cond] at h ⊢
  split
  · exact Int.natAbs_natCast _
  · have := a.isLt
    omega

/-- `itoa` writes the unsigned value of what it is given while the top bit is clear. -/
theorem unsigned_iff (a : BitVec 32) (hbase : 10 ≤ base ∧ base ≤ 36) :
    IsNumeral base a.toNat (signedText base a.toInt) ↔ a.toNat < 2 ^ 31 := by
  rw [← toInt_nonneg_iff]
  rcases isNumeral_signedText a hbase with ⟨hneg, t, htext, -⟩ | ⟨hpos, hnum⟩
  · refine iff_of_false (fun h => ?_) (Int.not_le.mpr hneg)
    exact h.no_sign (by omega) (by rw [htext, List.head?_cons])
  · rw [natAbs_toInt hpos] at hnum
    exact iff_of_true hnum hpos

theorem denotes_dec {k : Spec} (hk : k = .i ∨ k = .d) (a : BitVec 32) :
    Denotes k (.int a) (k.rendering (.int a)) := by
  rw [rendering_dec (hk.imp_right Or.inl)]
  have hsigned : IsSigned a.toInt (signedText 10 a.toInt) ∧
      readInt 10 (signedText 10 a.toInt) = some a.toInt := by
    rw [IsSigned]
    rcases isNumeral_signedText a (by decide : 10 ≤ 10 ∧ 10 ≤ 36) with
      ⟨hneg, t, htext, hnum⟩ | ⟨hpos, hnum⟩
    · rw [if_pos hneg, htext, readInt_neg (by decide) hnum]
      exact ⟨⟨t, rfl, hnum⟩, congrArg some (by omega)⟩
    · rw [if_neg (Int.not_lt.mpr hpos), hnum.readInt (by decide)]
      exact ⟨hnum, congrArg some (by omega)⟩
  rcases hk with rfl | rfl
  · exact ⟨hsigned.1, hsigned.2⟩
  · exact ⟨hsigned.1, hsigned.2⟩

theorem denotes_unsigned_iff (a : BitVec 32) :
    Denotes .u (.int a) (Spec.u.rendering (.int a)) ↔ a.toNat < 2 ^ 31 := by
  rw [rendering_dec (Or.inr (Or.inr rfl)), ← unsigned_iff a (by decide : 10 ≤ 10 ∧ 10 ≤ 36)]
  refine ⟨fun h => h.standard, fun h => ⟨h, ?_⟩⟩
  rw [Spec.reading, h.readNat (by decide)]
  rfl

theorem denotes_hex_iff (a : BitVec 32) :
    Denotes .x (.int a) (Spec.x.rendering (.int a)) ↔ a.toNat < 2 ^ 31 := by
  rw [rendering_hex, ← unsigned_iff a (by decide : 10 ≤ 16 ∧ 16 ≤ 36)]
  constructor
  · rintro ⟨⟨t, htext, hnum⟩, -⟩
    rw [(List.append_cancel_left htext : signedText 16 a.toInt = t)]
    exact hnum
  · intro h
    refine ⟨⟨_, rfl, h⟩, ?_⟩
    have hread : readHex ([48, 120] ++ signedText 16 a.toInt) = readNat 16 (signedText 16 a.toInt) :=
      rfl
    rw [Spec.reading, hread, h.readNat (by decide)]
    rfl

theorem isNumeral_long (a : BitVec 64) (hbase : 10 ≤ base ∧ base ≤ 16) :
    IsNumeral base a.toNat (numberText lowerDigit base a.toNat) :=
  isNumeral_numberText (by omega) (fun d hd => digitVal_lowerDigit (by omega)) _

theorem denotes_long {k : Spec} (hk : k = .lx ∨ k = .lX) (a : BitVec 64) :
    Denotes k (.long a) (k.rendering (.long a)) := by
  rw [rendering_longHex hk]
  have hnum := isNumeral_long a (by decide : 10 ≤ 16 ∧ 16 ≤ 16)
  have hread := congrArg (Option.map Int.ofNat) (hnum.readNat (by decide))
  rcases hk with rfl | rfl
  · exact ⟨hnum, hread⟩
  · exact ⟨hnum, hread⟩

theorem denotes_lu (a : BitVec 64) : Denotes .lu (.long a) (Spec.lu.rendering (.long a)) := by
  rw [rendering_longDec (Or.inl rfl)]
  have hnum := isNumeral_long a (by decide : 10 ≤ 10 ∧ 10 ≤ 16)
  exact ⟨hnum, congrArg (Option.map Int.ofNat) (hnum.readNat (by decide))⟩

/-- `ltoa` writes an unsigned number. -/
theorem denotes_longDec_iff {k : Spec} (hk : k = .ld ∨ k = .li) (a : BitVec 64) :
    Denotes k (.long a) (k.rendering (.long a)) ↔ a.toNat < 2 ^ 63 := by
  rw [rendering_longDec (Or.inr hk)]
  have hnum := isNumeral_long a (by decide : 10 ≤ 10 ∧ 10 ≤ 16)
  have hread := hnum.readInt (by decide)
  have hcond := BitVec.toInt_eq_toNat_cond a
  have hlt := a.isLt
  have hiff : (IsSigned a.toInt (numberText lowerDigit 10 a.toNat) ∧
      readInt 10 (numberText lowerDigit 10 a.toNat) = some a.toInt) ↔ a.toNat < 2 ^ 63 := by
    rw [hread]
    constructor
    · rintro ⟨-, heq⟩
      have := Option.some.inj heq
      split at hcond
      · omega
      · omega
    · intro hsmall
      rw [if_pos (by omega)] at hcond
      rw [hcond, IsSigned, if_neg (by omega), Int.natAbs_natCast]
      exact ⟨hnum, rfl⟩
  rw [← hiff]
  rcases hk with rfl | rfl
  · exact ⟨fun h => ⟨h.standard, h.read⟩, fun h => ⟨h.1, h.2⟩⟩
  · exact ⟨fun h => ⟨h.standard, h.read⟩, fun h => ⟨h.1, h.2⟩⟩

/-! ## Binary numbers

The digits are read as the number that has those bits, by induction on how many there are. That
leaves the question of which bits the case prints.
-/

/-- The bits from `n - 1` down, without the spaces. -/
theorem bitPieces_text (bit spaced : Nat → Bool) (h : Nat) :
    (texts (bitPieces bit spaced h)).flatten.filter (· ≠ 32) =
      (List.range (h + 1)).reverse.map fun i => if bit i then 49 else 48 := by
  have hat (i : Nat) : (texts (bitPieces.bitAt bit spaced i)).flatten.filter (· ≠ 32) =
      [if bit i then 49 else 48] := by
    unfold bitPieces.bitAt texts Piece.lit
    cases bit i <;> cases spaced i <;> rfl
  induction h with
  | zero => exact hat 0
  | succ h ih =>
      have hrange : List.range (h + 1 + 1) = List.range (h + 1) ++ [h + 1] := List.range_succ
      rw [bitPieces, texts, List.map_append, List.flatten_append, List.filter_append, ← texts,
        ← texts, hat, ih, hrange, List.reverse_append]
      rfl

/-- They are read as the number that has these bits. -/
theorem readBits_bitPieces (bit spaced : Nat → Bool) (h : Nat) :
    readBits (48 :: 98 :: (texts (bitPieces bit spaced h)).flatten) =
      some (Nat.ofDigits 2 ((List.range (h + 1)).map fun i => (bit i).toNat)) := by
  have hdigit (b : Bool) : digitVal (if b then 49 else 48) = b.toNat := by
    cases b <;> rfl
  have hread : readBits (48 :: 98 :: (texts (bitPieces bit spaced h)).flatten) =
      readNat 2 ((List.range (h + 1)).reverse.map fun i => if bit i then 49 else 48) := by
    rw [readBits, bitPieces_text]
  rw [hread, readNat, if_pos]
  · rw [List.map_map, ← List.map_reverse, List.reverse_reverse]
    congr 2
    exact List.map_congr_left fun i _ => hdigit (bit i)
  · constructor
    · simp
    · intro c hc
      obtain ⟨i, -, rfl⟩ := List.mem_map.mp hc
      rw [hdigit]
      exact Bool.toNat_lt (bit i)

/-- The bits that are printed are those of the number. -/
def SameBits (bit : Nat → Bool) (h v : Nat) : Prop :=
  ∀ i, (decide (i < h + 1) && bit i) = v.testBit i

/-- A binary number is right exactly when all of its bits are. -/
theorem readBits_iff (bit spaced : Nat → Bool) (h v : Nat) :
    readBits (48 :: 98 :: (texts (bitPieces bit spaced h)).flatten) = some v ↔ SameBits bit h v := by
  rw [readBits_bitPieces, Option.some.injEq]
  constructor
  · rintro rfl i
    exact (testBit_ofDigits bit (h + 1) i).symm
  · intro hsame
    apply Nat.eq_of_testBit_eq
    intro i
    rw [testBit_ofDigits, hsame i]

theorem intBits_text (num : BitVec 32) (h : Nat) (space : Bool) :
    (texts (intBits num h space)).flatten =
      48 :: 98 :: (if num = 0 then [48]
        else (texts (bitPieces (fun i => num.getLsbD (i % 32))
          (fun i => decide (i % 4 = 0) && decide (i ≠ h) && space) h)).flatten) := by
  unfold intBits
  split
  · rfl
  · rfl

theorem longBits_text (num : BitVec 64) :
    (texts (longBits num)).flatten =
      48 :: 98 :: (if num = 0 then [48, 48, 48, 48]
        else (texts (bitPieces num.getLsbD (fun i => decide (i % 4 = 0)) 63)).flatten) := by
  unfold longBits
  split
  · rfl
  · rfl

/-- The cases `'b'` and `'C'`, down from any bit. -/
theorem readBits_intBits_iff (num : BitVec 32) (h : Nat) (space : Bool) :
    readBits (texts (intBits num h space)).flatten = some num.toNat ↔
      num = 0 ∨ SameBits (fun i => num.getLsbD (i % 32)) h num.toNat := by
  rw [intBits_text]
  split
  · next hzero =>
    refine iff_of_true ?_ (Or.inl hzero)
    rw [hzero]
    decide
  · next hne => rw [readBits_iff, or_iff_right hne]

theorem readBits_longBits (num : BitVec 64) :
    readBits (texts (longBits num)).flatten = some num.toNat := by
  rw [longBits_text]
  split
  · next hzero =>
    rw [hzero]
    decide
  · rw [readBits_iff]
    intro i
    rw [BitVec.testBit_toNat]
    by_cases hi : i < 64
    · rw [decide_eq_true hi, Bool.true_and]
    · rw [decide_eq_false hi, Bool.false_and, BitVec.getLsbD_of_ge _ _ (by omega)]

/-! ## The highest bit

`%C` starts at eight times the index of the highest bit, and a shift of 32 bits goes by its low five
bits. What is printed of most numbers is their bits more than once, and `sameBits_compact_iff` finds
the few for which it is not.
-/

theorem highestBitFrom_spec (num : BitVec 32) (position : Nat) :
    highestBitFrom num position ≤ position ∧
      (∀ i, highestBitFrom num position < i → i ≤ position → num.getLsbD i = false) ∧
      (0 < highestBitFrom num position → num.getLsbD (highestBitFrom num position) = true) := by
  induction position with
  | zero => exact ⟨Nat.le_refl 0, fun i hlo hhi => absurd (Nat.lt_of_lt_of_le hlo hhi) (by simp [highestBitFrom]),
      fun h => absurd h (by simp [highestBitFrom])⟩
  | succ position ih =>
      rw [highestBitFrom]
      split
      · next hset => exact ⟨Nat.le_refl _, fun i hlo hhi => absurd hlo (by omega), fun _ => hset⟩
      · next hclear =>
        obtain ⟨hle, habove, hbit⟩ := ih
        refine ⟨by omega, fun i hlo hhi => ?_, hbit⟩
        rcases Nat.lt_or_ge position i with hlast | hbelow
        · obtain rfl : i = position + 1 := by omega
          simpa using hclear
        · exact habove i hlo hbelow

/-- The number in terms of its highest bit. -/
theorem getHighestBit_spec {num : BitVec 32} (hne : num ≠ 0) :
    2 ^ getHighestBit num ≤ num.toNat ∧ num.toNat < 2 ^ (getHighestBit num + 1) ∧
      getHighestBit num < 32 := by
  obtain ⟨hle, habove, hbit⟩ := highestBitFrom_spec num 31
  have hlt : num.toNat < 2 ^ (getHighestBit num + 1) := by
    apply Nat.lt_pow_two_of_testBit
    intro i hi
    rw [BitVec.testBit_toNat]
    rcases Nat.lt_or_ge i 32 with hin | hout
    · exact habove i hi (by omega)
    · exact BitVec.getLsbD_of_ge _ _ hout
  refine ⟨?_, hlt, Nat.lt_succ_of_le hle⟩
  rcases Nat.eq_zero_or_pos (getHighestBit num) with hzero | hpos
  · rw [hzero, Nat.pow_zero]
    refine Nat.pos_of_ne_zero fun h => hne ?_
    exact BitVec.eq_of_toNat_eq h
  · apply Nat.ge_two_pow_of_testBit
    rw [BitVec.testBit_toNat]
    exact hbit hpos

/-- All 32 bits are the number. -/
theorem sameBits_int (num : BitVec 32) : SameBits (fun i => num.getLsbD (i % 32)) 31 num.toNat := by
  intro i
  rw [BitVec.testBit_toNat]
  by_cases hi : i < 32
  · simp only [decide_eq_true hi, Bool.true_and, Nat.mod_eq_of_lt hi]
  · rw [decide_eq_false hi, Bool.false_and, BitVec.getLsbD_of_ge _ _ (by omega)]

/-- From eight times the index of the highest bit down, some bits may come a second time. -/
theorem sameBits_compact_iff {num : BitVec 32} (hne : num ≠ 0) :
    SameBits (fun i => num.getLsbD (i % 32)) (getHighestBit num * 8) num.toNat ↔
      num.toNat < 16 ∨ (num.toNat < 32 ∧ num.toNat % 2 = 0) := by
  obtain ⟨hlo, hhi, hlt⟩ := getHighestBit_spec hne
  have hout (i : Nat) (hi : 32 ≤ i) : num.getLsbD i = false := BitVec.getLsbD_of_ge _ _ hi
  have hbit : num.getLsbD (getHighestBit num) = true := by
    -- the highest bit is set, or the number would be smaller
    refine Decidable.byContradiction fun hclear => ?_
    have hbelow : num.toNat < 2 ^ getHighestBit num := by
      apply Nat.lt_pow_two_of_testBit
      intro i hi
      rcases Nat.eq_or_lt_of_le hi with rfl | hmore
      · rw [BitVec.testBit_toNat]
        simpa using hclear
      · exact Nat.testBit_lt_two_pow (Nat.lt_of_lt_of_le hhi (Nat.pow_le_pow_right (by decide) hmore))
    omega
  simp only [SameBits, BitVec.testBit_toNat]
  generalize getHighestBit num = m at *
  rcases Nat.lt_trichotomy m 4 with hless | rfl | hmore
  · -- nothing is printed twice
    have hsmall : num.toNat < 16 :=
      Nat.lt_of_lt_of_le hhi (Nat.pow_le_pow_right (by decide) (by omega : m + 1 ≤ 4))
    refine iff_of_true (fun i => ?_) (Or.inl hsmall)
    by_cases hi : i < m * 8 + 1
    · -- the bits that are printed are those of the number, since the index stays below 32
      rw [decide_eq_true hi, Bool.true_and, Nat.mod_eq_of_lt (by omega)]
    · have habove : num.getLsbD i = false := by
        rw [← BitVec.testBit_toNat]
        exact Nat.testBit_lt_two_pow (Nat.lt_of_lt_of_le hhi
          (Nat.pow_le_pow_right (by decide) (by omega)))
      rw [decide_eq_false hi, Bool.false_and, habove]
  · -- only the lowest bit is
    have heven : num.getLsbD 0 = false ↔ num.toNat % 2 = 0 := by
      rw [← BitVec.testBit_toNat, Nat.testBit_zero]
      simp
    rw [or_iff_right (by omega), and_iff_right (by omega), ← heven]
    constructor
    · -- bit 32 is printed, and it is bit 0 once more
      intro hsame
      have hlast := hsame 32
      rw [hout 32 (by decide)] at hlast
      exact hlast
    · -- bit 0 is clear, so the digit in front of the number is a zero
      intro hzero i
      rcases Nat.lt_trichotomy i 32 with hin | rfl | hover
      · rw [decide_eq_true (by omega), Bool.true_and, Nat.mod_eq_of_lt hin]
      · rw [hout 32 (by decide)]
        exact hzero
      · rw [decide_eq_false (by omega), Bool.false_and, hout i (by omega)]
  · -- the highest bit is
    have hlarge : 32 ≤ num.toNat :=
      Nat.le_trans (Nat.pow_le_pow_right (by decide : 0 < 2) (by omega : 5 ≤ m)) hlo
    refine iff_of_false (fun hsame => ?_) (by omega)
    have hagain := hsame (32 + m)
    rw [decide_eq_true (by omega), Nat.add_mod_left, Nat.mod_eq_of_lt hlt, hbit,
      hout (32 + m) (by omega)] at hagain
    cases hagain

theorem denotes_bits (a : BitVec 32) : Denotes .b (.int a) (texts (intBits a 31 true)).flatten := by
  have hread := (readBits_intBits_iff a 31 true).mpr (Or.inr (sameBits_int a))
  exact ⟨trivial, congrArg (Option.map Int.ofNat) hread⟩

theorem denotes_longBits (a : BitVec 64) : Denotes .lb (.long a) (texts (longBits a)).flatten :=
  ⟨trivial, congrArg (Option.map Int.ofNat) (readBits_longBits a)⟩

theorem denotes_compact_iff (a : BitVec 32) :
    Denotes .C (.int a) (texts (intBits a (getHighestBit a * 8) true)).flatten ↔
      a.toNat < 16 ∨ (a.toNat < 32 ∧ a.toNat % 2 = 0) := by
  have hread : readBits (texts (intBits a (getHighestBit a * 8) true)).flatten = some a.toNat ↔
      a.toNat < 16 ∨ (a.toNat < 32 ∧ a.toNat % 2 = 0) := by
    rw [readBits_intBits_iff]
    by_cases hzero : a = 0
    · refine iff_of_true (Or.inl hzero) (Or.inl ?_)
      rw [hzero]
      decide
    · rw [or_iff_right hzero, sameBits_compact_iff hzero]
  rw [← hread]
  constructor
  · intro h
    obtain ⟨v, hv, heq⟩ := Option.map_eq_some_iff.mp h.read
    rw [hv, Int.ofNat_inj.mp heq]
  · intro h
    exact ⟨trivial, congrArg (Option.map Int.ofNat) h⟩

/-! ## What `vsnprintf` leaves

A single conversion with its argument is a format that matches, so the run is known, and what it
leaves is the text of the conversion. What remains is `denotes_iff`, one conversion after the other.
-/

/-- The conversions, one by one. -/
theorem denotes_iff {k : Spec} {a : Arg} (ha : a.kind = k.kind) (hk : k.IsNumber) :
    -- a case for each kind of argument and each of its conversions
    Denotes k a (k.rendering a) ↔ k.Exact a := by
  cases a with
  | int a =>
      cases k with
      | i => exact iff_of_true (denotes_dec (Or.inl rfl) a) trivial
      | d => exact iff_of_true (denotes_dec (Or.inr rfl) a) trivial
      | u => exact denotes_unsigned_iff a
      | x => exact denotes_hex_iff a
      | b => exact iff_of_true (denotes_bits a) trivial
      | C => exact denotes_compact_iff a
      | c => exact absurd rfl hk.1
      | _ => cases ha
  | long a =>
      cases k with
      | lx => exact iff_of_true (denotes_long (Or.inl rfl) a) trivial
      | lX => exact iff_of_true (denotes_long (Or.inr rfl) a) trivial
      | lu => exact iff_of_true (denotes_lu a) trivial
      | ld => exact denotes_longDec_iff (Or.inl rfl) a
      | li => exact denotes_longDec_iff (Or.inr rfl) a
      | lb => exact iff_of_true (denotes_longBits a) trivial
      | _ => cases ha
  | str text =>
      cases k with
      | s => exact absurd rfl hk.2
      | _ => cases ha

theorem bitPieces_length (bit spaced : Nat → Bool) (h : Nat) :
    (texts (bitPieces bit spaced h)).flatten.length ≤ 2 * (h + 1) := by
  have hat (i : Nat) : (texts (bitPieces.bitAt bit spaced i)).flatten.length ≤ 2 := by
    unfold bitPieces.bitAt texts Piece.lit
    cases bit i <;> cases spaced i <;> decide
  induction h with
  | zero => exact hat 0
  | succ h ih =>
      have hlast := hat (h + 1)
      rw [bitPieces, texts, List.map_append, List.flatten_append, List.length_append, ← texts,
        ← texts]
      omega

/-- No number is long. -/
theorem rendering_length {k : Spec} {a : Arg} (ha : a.kind = k.kind) (hk : k.IsNumber) :
    (k.rendering a).length < 2 ^ 32 := by
  cases a with
  | int a =>
      obtain ⟨hdec, -⟩ := signedText_short a (by decide : 10 ≤ 10 ∧ 10 ≤ 36)
      obtain ⟨hhex, -⟩ := signedText_short a (by decide : 10 ≤ 16 ∧ 16 ≤ 36)
      have hbits (h : Nat) (hh : h < 256) (space : Bool) :
          (texts (intBits a h space)).flatten.length < 2 ^ 32 := by
        rw [intBits_text, List.length_cons, List.length_cons]
        split
        · decide
        · have hpieces := bitPieces_length (fun i => a.getLsbD (i % 32))
            (fun i => decide (i % 4 = 0) && decide (i ≠ h) && space) h
          omega
      -- `%C` counts from eight times an index below 32
      obtain ⟨hhighest, -⟩ := highestBitFrom_spec a 31
      cases k with
      | i => rw [rendering_dec (Or.inl rfl)]; omega
      | d => rw [rendering_dec (Or.inr (Or.inl rfl))]; omega
      | u => rw [rendering_dec (Or.inr (Or.inr rfl))]; omega
      | x =>
          rw [rendering_hex, List.length_append]
          exact Nat.lt_of_le_of_lt (Nat.add_le_add_left hhex _) (by decide)
      | b => exact hbits 31 (by decide) true
      | C => exact hbits (getHighestBit a * 8) (by unfold getHighestBit; omega) true
      | c => exact absurd rfl hk.1
      | _ => cases ha
  | long a =>
      obtain ⟨hdec, -⟩ := longText_short a (by decide : 10 ≤ 10 ∧ 10 ≤ 16)
      obtain ⟨hhex, -⟩ := longText_short a (by decide : 10 ≤ 16 ∧ 16 ≤ 16)
      cases k with
      | lx => rw [rendering_longHex (Or.inl rfl)]; omega
      | lX => rw [rendering_longHex (Or.inr rfl)]; omega
      | lu => rw [rendering_longDec (Or.inl rfl)]; omega
      | ld => rw [rendering_longDec (Or.inr (Or.inl rfl))]; omega
      | li => rw [rendering_longDec (Or.inr (Or.inr rfl))]; omega
      | lb =>
          have htext : Spec.lb.rendering (.long a) = (texts (longBits a)).flatten := rfl
          rw [htext, longBits_text, List.length_cons, List.length_cons]
          split
          · decide
          · have hpieces := bitPieces_length a.getLsbD (fun i => decide (i % 4 = 0)) 63
            omega
      | _ => cases ha
  | str text =>
      cases k with
      | s => exact absurd rfl hk.2
      | _ => cases ha

/-- `vsnprintf` leaves this text for a conversion and its argument, in every buffer that has room. -/
def Printed (k : Spec) (a : Arg) (text : List Nat) : Prop :=
  ∀ (stack s : List Nat) (n : Nat), stack.length = PRINTF_BUF → s.length = n → text.length < n →
    ∃ s' ret, vsnprintf stack s n (37 :: k.letters) [a] = .ok (s', ret) ∧ textOf s' = text

theorem printed_rendering {k : Spec} {a : Arg} (ha : a.kind = k.kind) (hk : k.IsNumber) :
    Printed k a (k.rendering a) := by
  intro stack s n hstack hs hn
  have htext : expected [.spec k] [a] = k.rendering a := by
    rw [expected, expected, List.append_nil]
  have hformat : formatOf [.spec k] = 37 :: k.letters := by
    rw [formatOf, List.flatMap_singleton, Item.chars]
  have hcall : Call stack s n [.spec k] [a] := by
    refine ⟨hstack, hs, ?_, ?_, ⟨a, [], rfl, ha, rfl⟩, by rwa [htext]⟩
    · intro item hitem
      rw [List.mem_singleton.mp hitem]
      trivial
    · rw [hformat]
      cases k <;> decide
  have hlast : lastLiteral 0 [.spec k] = 0 := rfl
  have hshort : (expected [.spec k] [a]).length < 2 ^ 32 + lastLiteral 0 [.spec k] := by
    rw [htext, hlast, Nat.add_zero]
    exact rendering_length ha hk
  obtain ⟨-, st, ret, -, -, -, hrun, hleft⟩ := hcall.composes_of_short [] hshort
  rw [hformat, List.append_nil] at hrun
  exact ⟨st.bufOut, ret, hrun, hleft.trans htext⟩

/-- For every conversion of a number and every argument of its kind, the text that `vsnprintf` leaves
denotes the argument if and only if the argument is one of those that are printed as they should be. -/
theorem vsnprintf_denotes_iff {k : Spec} {a : Arg} (ha : a.kind = k.kind) (hk : k.IsNumber) :
    ∃ text, Printed k a text ∧ (Denotes k a text ↔ k.Exact a) :=
  ⟨k.rendering a, printed_rendering ha hk, denotes_iff ha hk⟩

/-- `"%x"` of the largest positive `int`. -/
theorem vsnprintf_denotes_max :
    ∃ text, Printed .x (.int 0x7FFFFFFF) text ∧
      (Denotes .x (.int 0x7FFFFFFF) text ↔ Spec.x.Exact (.int 0x7FFFFFFF)) :=
  vsnprintf_denotes_iff rfl (by decide)

/-- Arguments with their top bits set, and a byte for `"%C"`. -/
theorem vsnprintf_not_denotes :
    (∃ text, Printed .u (.int 0xFFFFFFFF) text ∧ ¬ Denotes .u (.int 0xFFFFFFFF) text) ∧
      (∃ text, Printed .x (.int 0x80000000) text ∧ ¬ Denotes .x (.int 0x80000000) text) ∧
      (∃ text, Printed .C (.int 255) text ∧ ¬ Denotes .C (.int 255) text) ∧
      ∃ text, Printed .ld (.long 0xFFFFFFFFFFFFFFFF) text ∧
        ¬ Denotes .ld (.long 0xFFFFFFFFFFFFFFFF) text := by
  have hwrong {k : Spec} {a : Arg} (ha : a.kind = k.kind) (hk : k.IsNumber) (h : ¬ k.Exact a) :
      ∃ text, Printed k a text ∧ ¬ Denotes k a text :=
    ⟨k.rendering a, printed_rendering ha hk, fun hdenotes => h ((denotes_iff ha hk).mp hdenotes)⟩
  refine ⟨hwrong rfl (by decide) ?_, hwrong rfl (by decide) ?_, hwrong rfl (by decide) ?_,
    hwrong rfl (by decide) ?_⟩
  · simp [Spec.Exact]
  · simp [Spec.Exact]
  · simp [Spec.Exact]
  · simp [Spec.Exact]

end Twos.Kstd
