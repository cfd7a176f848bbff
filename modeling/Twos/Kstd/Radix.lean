import Twos.Kstd.Denote

/-!
# Numbers read and written

`atou` against the number that a decimal string denotes, `itoa` in any base from 2 to 36, and `ltoa`
in any base from 2 to 16. `atou` keeps its result in 32 bits, so that a number that is too large comes
out as another one. `itoa` has room for 32 digits and a sign, and no number needs more. `ltoa` has
room for sixty digits, and copies 32 characters of them, with the NUL or without.

The index of `atou` is an `int`. It is a natural number here, so what is said is about strings of less
than `2 ^ 31` characters, for which the `int` does not overflow.

* `atou_reads_iff` says which strings are read right, and that what `itoa` has written is.
* `itoa_canonical` is about `itoa` in every base, with the digits from the lowest to the sign.
* `ltoa_renders_iff` has the bound up to which the text of `ltoa` still comes with its NUL.
-/

namespace Twos.Kstd

open Lib

variable {s : List Nat}

/-! ## `atou`

The loop computes the number modulo `2 ^ 32`, and `atouAnswer` is what the comment above the
function promises. They agree on strings that denote a number that fits, and on most that denote
none; the empty string and numbers that are too large are where they may differ.
-/

/-- A decimal digit. -/
def IsDigit (c : Nat) : Prop := 48 ≤ c ∧ c ≤ 57

instance (c : Nat) : Decidable (IsDigit c) := inferInstanceAs (Decidable (_ ∧ _))

/-- What `atou` should return: the number that the string denotes, or `UINT32_MAX`. -/
def atouAnswer (s : List Nat) : Nat :=
  match readNat 10 s with
  | some v => if v < UINT32_MAX then v else UINT32_MAX
  | none => UINT32_MAX

theorem digitVal_lt_ten (c : Nat) : digitVal c < 10 ↔ IsDigit c := by
  unfold digitVal IsDigit
  grind

theorem digitVal_digit {c : Nat} (hc : IsDigit c) : digitVal c = c - 48 := if_pos hc

/-- The number that digits denote. -/
def digitsVal (s : List Nat) : Nat := Nat.ofDigits 10 (s.map digitVal).reverse

theorem readNat_digits (hne : s ≠ []) (hs : ∀ c ∈ s, IsDigit c) :
    readNat 10 s = some (digitsVal s) := by
  have hall : ∀ c ∈ s, digitVal c < 10 := fun c hc => (digitVal_lt_ten c).mpr (hs c hc)
  rw [readNat, if_pos ⟨hne, hall⟩, digitsVal]

theorem readNat_other (hs : ∃ c ∈ s, ¬ IsDigit c) : readNat 10 s = none := by
  obtain ⟨c, hc, hother⟩ := hs
  rw [readNat, if_neg]
  rintro ⟨-, hall⟩
  exact hother ((digitVal_lt_ten c).mp (hall c hc))

/-- The loop of `atou` computes the number modulo `2 ^ 32`. -/
theorem foldl_digits (hs : ∀ c ∈ s, IsDigit c) (r : Nat) :
    s.foldl (fun r c => (r * 10 + (c - 48)) % 2 ^ 32) r % 2 ^ 32 =
      (r * 10 ^ s.length + digitsVal s) % 2 ^ 32 := by
  induction s generalizing r with
  | nil => simp [digitsVal]
  | cons c s ih =>
      have hc := digitVal_digit (hs c List.mem_cons_self)
      have hval : digitsVal (c :: s) = digitsVal s + 10 ^ s.length * (c - 48) := by
        rw [digitsVal, List.map_cons, List.reverse_cons, Nat.ofDigits_append, Nat.ofDigits_singleton,
          List.length_reverse, List.length_map, hc, digitsVal]
      rw [List.foldl_cons, ih fun c hc => hs c (List.mem_cons_of_mem _ hc), hval, List.length_cons,
        Nat.pow_succ 10]
      -- the digit so far may be reduced before it is multiplied
      have hstep : (r * 10 + (c - 48)) * 10 ^ s.length + digitsVal s =
          r * (10 ^ s.length * 10) + (digitsVal s + 10 ^ s.length * (c - 48)) := by ring
      rw [← hstep, Nat.add_mod, Nat.mod_mul_mod, ← Nat.add_mod]

/-- A character that is no digit ends the loop. -/
theorem atouFrom_other (hzero : 0 ∉ s) (hs : ∃ c ∈ s, ¬ IsDigit c) (r : Nat) (rest : List Nat) :
    atouFrom r (s ++ 0 :: rest) = .ok UINT32_MAX := by
  induction s generalizing r with
  | nil =>
      obtain ⟨c, hc, -⟩ := hs
      exact absurd hc List.not_mem_nil
  | cons c s ih =>
      rw [List.mem_cons, not_or] at hzero
      rw [List.cons_append, atouFrom, if_neg (Ne.symm hzero.1)]
      by_cases hdigit : IsDigit c
      · rw [if_pos (show 48 ≤ c ∧ c ≤ 57 from hdigit)]
        refine ih hzero.2 ?_ _
        obtain ⟨d, hd, hother⟩ := hs
        rcases List.mem_cons.mp hd with rfl | hd
        · exact absurd hdigit hother
        · exact ⟨d, hd, hother⟩
      · rw [if_neg (show ¬ (48 ≤ c ∧ c ≤ 57) from hdigit)]

/-- What `atou` returns for digits. -/
theorem atou_digits (hs : ∀ c ∈ s, IsDigit c) (rest : List Nat) :
    atou (s ++ 0 :: rest) = .ok (digitsVal s % 2 ^ 32) := by
  have hlt (r : Nat) (hr : r < 2 ^ 32) :
      s.foldl (fun r c => (r * 10 + (c - 48)) % 2 ^ 32) r < 2 ^ 32 := by
    induction s generalizing r with
    | nil => exact hr
    | cons c s ih =>
        exact ih (fun c hc => hs c (List.mem_cons_of_mem _ hc)) _ (Nat.mod_lt _ (by decide))
  have hval := foldl_digits hs 0
  rw [Nat.mod_eq_of_lt (hlt 0 (by decide)), Nat.zero_mul, Nat.zero_add] at hval
  rw [atou, atouFrom_digits hs, hval]

/-- The strings for which `atou` returns what it should: the empty string is not one of them, and a
number that is too large is one if it looks like the failure value. -/
def AtouSafe (s : List Nat) : Prop :=
  s ≠ [] ∧ ∀ v, readNat 10 s = some v → v < UINT32_MAX ∨ v % 2 ^ 32 = UINT32_MAX

theorem atou_answer_iff (hzero : 0 ∉ s) (rest : List Nat) :
    atou (s ++ 0 :: rest) = .ok (atouAnswer s) ↔ AtouSafe s := by
  by_cases hne : s = []
  · subst hne
    refine iff_of_false ?_ fun h => h.1 rfl
    rw [List.nil_append, atou, atouFrom, if_pos rfl]
    decide
  · by_cases hs : ∀ c ∈ s, IsDigit c
    · have hread := readNat_digits hne hs
      have hsafe : AtouSafe s ↔ digitsVal s < UINT32_MAX ∨ digitsVal s % 2 ^ 32 = UINT32_MAX := by
        refine ⟨fun h => h.2 _ hread, fun h => ⟨hne, fun v hv => ?_⟩⟩
        obtain rfl := Option.some.inj (hread.symm.trans hv)
        exact h
      rw [atou_digits hs, hsafe, atouAnswer, hread, Except.ok.injEq]
      dsimp only
      split
      · next hlt => exact iff_of_true (Nat.mod_eq_of_lt (by lia)) (Or.inl hlt)
      · next hge => exact ⟨Or.inr, fun h => h.resolve_left hge⟩
    · have hother : ∃ c ∈ s, ¬ IsDigit c := by simpa using hs
      have hread := readNat_other hother
      refine iff_of_true ?_ ⟨hne, fun v hv => ?_⟩
      · rw [atou, atouFrom_other hzero hother, atouAnswer, hread]
      · rw [hread] at hv
        cases hv

/-- `atou` reads back what `itoa` has written. -/
theorem atou_itoa {n : Nat} (hn : n < 2 ^ 31) {dest : List Nat} (hdest : 11 ≤ dest.length) :
    ∃ dest', itoa n dest 10 = .ok dest' ∧ atou dest' = .ok n := by
  have hint : (BitVec.ofNat 32 n).toInt = n := by
    rw [BitVec.toInt_eq_toNat_cond, BitVec.toNat_ofNat, Nat.mod_eq_of_lt (by omega), if_pos (by omega)]
  have hsigned : signedText 10 (n : Int) = numberText upperDigit 10 n := if_neg (by omega)
  have hlen : (numberText upperDigit 10 n).length ≤ 10 :=
    length_numberText (by decide) (by decide) (by omega) _
  refine ⟨numberText upperDigit 10 n ++ 0 :: dest.drop ((numberText upperDigit 10 n).length + 1),
    ?_, ?_⟩
  · have hroom : (numberText upperDigit 10 n).length < dest.length := by omega
    rw [← hsigned, ← hint] at hroom ⊢
    exact itoa_store (BitVec.ofNat 32 n) (by decide) hroom
  · have hnum : IsNumeral 10 n (numberText upperDigit 10 n) :=
      isNumeral_numberText (by decide) (fun d hd => digitVal_upperDigit (by omega)) _
    have hdigits : ∀ c ∈ numberText upperDigit 10 n, IsDigit c :=
      fun c hc => (digitVal_lt_ten c).mp (hnum.digits (by decide) c hc)
    have hval : digitsVal (numberText upperDigit 10 n) = n := by
      have hread := readNat_digits hnum.ne_nil hdigits
      exact Option.some.inj (hread.symm.trans (hnum.readNat (by decide)))
    rw [atou_digits hdigits, hval, Nat.mod_eq_of_lt (by omega)]

/-- For every string, `atou` returns the number that it denotes, or the failure value, if and only if
the string is not empty and does not denote a number that wraps to another one. And it always reads
back what `itoa` has written. -/
theorem atou_reads_iff (hzero : 0 ∉ s) (rest : List Nat) :
    (atou (s ++ 0 :: rest) = .ok (atouAnswer s) ↔ AtouSafe s) ∧
      ∀ n dest, n < 2 ^ 31 → 11 ≤ dest.length →
        ∃ dest', itoa (n : Nat) dest 10 = .ok dest' ∧ atou dest' = .ok n :=
  ⟨atou_answer_iff hzero rest, fun _ _ hn hdest => atou_itoa hn hdest⟩

/-- `"42"`. -/
theorem atou_reads_usual :
    (atou ([52, 50] ++ 0 :: []) = .ok (atouAnswer [52, 50]) ↔ AtouSafe [52, 50]) ∧
      ∀ n dest, n < 2 ^ 31 → 11 ≤ dest.length →
        ∃ dest', itoa (n : Nat) dest 10 = .ok dest' ∧ atou dest' = .ok n :=
  atou_reads_iff (by decide) []

/-- The empty string, and `"4294967296"`. -/
theorem atou_misreads :
    atou [0] = .ok 0 ∧ atouAnswer [] = UINT32_MAX ∧
      atou [52, 50, 57, 52, 57, 54, 55, 50, 57, 54, 0] = .ok 0 ∧
      atouAnswer [52, 50, 57, 52, 57, 54, 55, 50, 57, 54] = UINT32_MAX := by
  refine ⟨rfl, rfl, ?_, ?_⟩
  · decide +kernel
  · decide +kernel

/-! ## `itoa`

`itoa` writes from the end of a buffer that has room for every number in base 2, with its sign, so
the numeral is always complete. It is canonical because the digit that is found last, and stands
first, is not zero unless the number is.
-/

variable {base a : Nat}

/-- The numeral of `a` in the digits of an alphabet, without leading zeros. -/
structure Canonical (alphabet : List Nat) (base a : Nat) (text : List Nat) : Prop where
  symbols : ∀ c ∈ text, c ∈ alphabet.take base
  leading : text.head? = some 48 → text = [48]
  value : readNat base text = some a

/-- The numeral of the absolute value, with a minus sign in front if and only if the number is
negative. -/
structure CanonicalInt (base : Nat) (a : Int) (text : List Nat) : Prop where
  sign : text.head? = some 45 ↔ a < 0
  numeral : Canonical digits base a.natAbs (if a < 0 then text.tail else text)
  nul : 0 ∉ text

/-- A numeral does not start with a zero, unless it is one. -/
theorem numeral_head (h : (numeral base a).head? = some 0) : a = 0 := by
  by_contra hne
  rw [numeral, if_neg hne, List.head?_reverse] at h
  have hdigits : Nat.digits base a ≠ [] := Nat.digits_ne_nil_iff_ne_zero.mpr hne
  rw [List.getLast?_eq_getLast_of_ne_nil hdigits, Option.some.injEq] at h
  exact Nat.getLast_digit_ne_zero base hne h

/-- The digits of an alphabet make a numeral. -/
theorem canonical_numberText {alphabet : List Nat} (hbase : 2 ≤ base ∧ base ≤ alphabet.length)
    (hval : ∀ d, d < alphabet.length → digitVal (alphabet.getD d 0) = d)
    (hzero : alphabet.getD 0 0 = 48) :
    Canonical alphabet base a (numberText (alphabet.getD · 0) base a) := by
  have hnum : IsNumeral base a (numberText (alphabet.getD · 0) base a) :=
    isNumeral_numberText hbase.1 (fun d hd => hval d (Nat.lt_of_lt_of_le hd hbase.2)) a
  refine ⟨fun c hc => ?_, fun hhead => ?_, hnum.readNat hbase.1⟩
  · obtain ⟨d, hd, rfl⟩ := List.mem_map.mp hc
    have hlt := lt_of_mem_numeral hbase.1 hd
    have hlen : d < alphabet.length := Nat.lt_of_lt_of_le hlt hbase.2
    show alphabet.getD d 0 ∈ alphabet.take base
    rw [List.getD_eq_getElem _ _ hlen]
    exact List.mem_take_iff_getElem.mpr ⟨d, Nat.lt_min.mpr ⟨hlt, hlen⟩, rfl⟩
  · have hfirst : (numeral base a).head? = some 0 := by
      rw [← hnum, List.head?_map, hhead]
      rfl
    rw [numberText, numeral_head hfirst]
    show [alphabet.getD 0 0] = [48]
    rw [hzero]

theorem canonicalInt_signedText (a : Int) (hbase : 2 ≤ base ∧ base ≤ 36) :
    CanonicalInt base a (signedText base a) := by
  have hnum : Canonical digits base a.natAbs (numberText upperDigit base a.natAbs) :=
    canonical_numberText hbase (fun d hd => digitVal_upperDigit hd) rfl
  have hnul := zero_notMem_signedText hbase a
  unfold signedText at hnul ⊢
  by_cases hsign : a < 0
  · rw [if_pos hsign] at hnul ⊢
    refine ⟨iff_of_true rfl hsign, ?_, hnul⟩
    rw [if_pos hsign]
    exact hnum
  · rw [if_neg hsign] at hnul ⊢
    refine ⟨iff_of_false (fun hhead => ?_) hsign, ?_, hnul⟩
    · -- no digit is a minus sign
      have hminus : 45 ∉ digits := by decide
      exact hminus (List.mem_of_mem_take (hnum.symbols 45 (List.mem_of_head? hhead)))
    · rw [if_neg hsign]
      exact hnum

/-- For every number and every base from 2 to 36, `itoa` finds room in its own buffer, and what it
stores in a destination that is long enough is the canonical text of the number, with a NUL. -/
theorem itoa_canonical (a : BitVec 32) (hbase : 2 ≤ base ∧ base ≤ 36) :
    ∃ text, CanonicalInt base a.toInt text ∧ text.length ≤ ITOA_ROOM ∧
      itoaText a.toInt base = .ok (text ++ [0]) ∧
      ∀ dest, text.length < dest.length →
        itoa a.toInt dest base = .ok (text ++ 0 :: dest.drop (text.length + 1)) := by
  have hfits := natAbs_lt_pow a (by decide : 2 ^ 31 < 2 ^ 32) hbase.1
  exact ⟨signedText base a.toInt, canonicalInt_signedText a.toInt hbase,
    length_signedText hbase.1 (by decide) hfits, itoaText_eq a hbase,
    fun dest hdest => itoa_store a hbase hdest⟩

/-- The least number, in base 2. -/
theorem itoa_canonical_least :
    ∃ text, CanonicalInt 2 (BitVec.intMin 32).toInt text ∧ text.length ≤ ITOA_ROOM ∧
      itoaText (BitVec.intMin 32).toInt 2 = .ok (text ++ [0]) ∧
      ∀ dest, text.length < dest.length →
        itoa (BitVec.intMin 32).toInt dest 2 = .ok (text ++ 0 :: dest.drop (text.length + 1)) :=
  itoa_canonical (BitVec.intMin 32) (by decide)

/-! ## `ltoa`

The buffer of the loop has room for 60 digits, and 32 bytes of it are copied. A loop with checked
stores tells the two apart: no store is outside in any case, but of more than 31 digits there is no
room for the NUL.
-/

/-- The loop of `ltoa`, with every store checked against its buffer. -/
def ltoaLoopIn (base : Nat) : Nat → Nat → List Nat → Except Fault (Nat × List Nat)
  | 0, _, buf => .ok (0, buf)
  | i + 1, a, buf =>
      if a = 0 then .ok (i + 1, buf)
      else do
        let buf ← writeBytes buf (i + 1) [lowerDigits.getD (a % base) 0]
        ltoaLoopIn base i (a / base) buf

/-- The numeral of `a` in lower-case digits, without leading zeros. -/
structure LowerNumeral (base a : Nat) (text : List Nat) : Prop where
  digits : ∀ c ∈ text, c ∈ lowerDigits.take base
  leading : text.head? = some 48 → text = [48]
  value : readNat base text = some a

/-- `ltoa` stays inside its own buffer, and stores the numeral and a NUL, whatever the 32 bytes or
more of the destination hold before. -/
def Renders (base a : Nat) : Prop :=
  (∃ r, ltoaLoopIn base 60 a (List.replicate 62 0) = .ok r) ∧
    ∀ dest, 32 ≤ dest.length → ∃ text rest, ltoa a dest base = .ok (text ++ 0 :: rest) ∧
      LowerNumeral base a text

/-- No store of the loop is outside. -/
theorem ltoaLoopIn_eq {i : Nat} {buf : List Nat} (hbuf : i < buf.length) :
    ltoaLoopIn base i a buf = .ok (ltoaLoop base i a buf) := by
  induction i generalizing a buf with
  | zero => rfl
  | succ i ih =>
      rw [ltoaLoopIn, ltoaLoop]
      split
      · rfl
      · have hput : writeBytes buf (i + 1) [lowerDigits.getD (a % base) 0] =
            .ok (buf.set (i + 1) (lowerDigits.getD (a % base) 0)) := by
          have hroom : i + 1 + [lowerDigits.getD (a % base) 0].length ≤ buf.length := hbuf
          rw [writeBytes, if_pos hroom, List.set_eq_take_append_cons_drop, if_pos hbuf,
            List.append_assoc, List.singleton_append, List.length_singleton]
        rw [hput, ok_seq, ih (by rw [List.length_set]; omega)]

/-- The digits of `ltoa` make a numeral. -/
theorem lowerNumeral_numberText (hbase : 2 ≤ base ∧ base ≤ 16) :
    LowerNumeral base a (numberText lowerDigit base a) := by
  have hnum : Canonical lowerDigits base a (numberText lowerDigit base a) :=
    canonical_numberText hbase (fun d hd => digitVal_lowerDigit hd) rfl
  exact ⟨hnum.symbols, hnum.leading, hnum.value⟩

/-- The digits that the loop leaves. -/
def keptDigits (base a : Nat) : List Nat :=
  ((Nat.digits base a).take 60).reverse.map lowerDigit

theorem ltoa_nonzero (hbase : 2 ≤ base) (hne : a ≠ 0) (dest : List Nat) :
    ltoa a dest base = strncpy dest 0 (keptDigits base a ++ [0]) 32 := by
  have hrun := ltoaLoop_digits hbase 60 a (List.replicate 62 0) (by decide)
  have hlast : (List.replicate 62 0).drop 61 = [0] := by decide
  rw [ltoa, if_neg hne]
  simp only [hrun, hlast, keptDigits]

theorem zero_notMem_keptDigits (hbase : 2 ≤ base ∧ base ≤ 16) : 0 ∉ keptDigits base a := by
  intro hmem
  obtain ⟨d, hd, hzero⟩ := List.mem_map.mp hmem
  have hlt := Nat.digits_lt_base hbase.1 (List.mem_of_mem_take (List.mem_reverse.mp hd))
  exact lowerDigits_ne_zero (Nat.lt_of_lt_of_le hlt hbase.2) hzero

/-- Of more than 31 digits, 32 are copied, and no NUL. -/
theorem ltoa_long (hbase : 2 ≤ base ∧ base ≤ 16) (hlong : base ^ 31 ≤ a) {dest : List Nat}
    (hdest : dest.length = 32) : ltoa a dest base = .ok ((keptDigits base a).take 32) := by
  have hne : a ≠ 0 := by
    have := Nat.pow_pos (n := 31) (by omega : 0 < base)
    omega
  have hlen : 32 ≤ (keptDigits base a).length := by
    have hdigits := (Nat.lt_digits_length_iff hbase.1 a).mpr hlong
    rw [keptDigits, List.length_map, List.length_reverse, List.length_take]
    omega
  have hnul := zero_notMem_keptDigits (a := a) hbase
  have htake : (keptDigits base a ++ [0]).take 32 = (keptDigits base a).take 32 :=
    List.take_append_of_le_length hlen
  have hroom : 0 + ((keptDigits base a).take 32).length ≤ dest.length := by
    rw [List.length_take_of_le hlen]
    omega
  rw [ltoa_nonzero hbase.1 hne, strncpy, strnlen_le hlen hnul, ok_seq, if_neg (Nat.lt_irrefl 32),
    htake, writeBytes, if_pos hroom, List.take_zero, List.nil_append, Nat.zero_add,
    List.length_take_of_le hlen, List.drop_of_length_le (Nat.le_of_eq hdest), List.append_nil]

/-- A number of at most 31 digits is rendered. -/
theorem renders_of_short (hbase : 2 ≤ base ∧ base ≤ 16) (hshort : a < base ^ 31) :
    Renders base a := by
  refine ⟨⟨_, ltoaLoopIn_eq (by decide)⟩, fun dest hdest => ?_⟩
  by_cases hzero : a = 0
  · subst hzero
    refine ⟨[48], dest.drop 2, ?_, lowerNumeral_numberText hbase⟩
    have hroom : 0 + [48, 0].length ≤ dest.length := by
      show 2 ≤ _
      omega
    rw [ltoa, if_pos rfl, strcpy]
    exact if_pos hroom
  · have hdigits : (Nat.digits base a).length ≤ 31 :=
      (Nat.digits_length_le_iff hbase.1 a).mpr hshort
    have hkept : keptDigits base a = numberText lowerDigit base a := by
      rw [keptDigits, List.take_of_length_le (by omega), numberText, numeral, if_neg hzero]
    have hlen : (numberText lowerDigit base a).length < 32 := by
      rw [numberText, numeral, if_neg hzero, List.length_map, List.length_reverse]
      omega
    have hnul := hkept ▸ zero_notMem_keptDigits (a := a) hbase
    have hrun := ltoa_nonzero hbase.1 hzero dest
    rw [hkept, strncpy_short hnul hlen hdest, pad_eq hlen, List.append_assoc, List.cons_append] at hrun
    exact ⟨_, _, hrun, lowerNumeral_numberText hbase⟩

/-- A number that is rendered has at most 31 digits: what is copied of a longer one has no NUL. -/
theorem Renders.short (hbase : 2 ≤ base ∧ base ≤ 16) (h : Renders base a) : a < base ^ 31 := by
  by_contra hlong
  obtain ⟨text, rest, hrun, -⟩ := h.2 (List.replicate 32 0) (by decide)
  rw [ltoa_long hbase (Nat.not_lt.mp hlong) (by decide)] at hrun
  have hmem : 0 ∈ (keptDigits base a).take 32 := by
    rw [Except.ok.inj hrun]
    simp
  exact zero_notMem_keptDigits hbase (List.mem_of_mem_take hmem)

/-- For every 64-bit number and every base from 2 to 16, `ltoa` renders the number if and only if it
has at most 31 digits. -/
theorem ltoa_renders_iff (a : BitVec 64) (hbase : 2 ≤ base ∧ base ≤ 16) :
    Renders base a.toNat ↔ a.toNat < base ^ 31 :=
  ⟨Renders.short hbase, renders_of_short hbase⟩

/-- 255 in base 16. -/
theorem ltoa_renders_byte : Renders 16 (255#64).toNat ↔ (255#64).toNat < 16 ^ 31 :=
  ltoa_renders_iff 255#64 (by decide)

/-- `2 ^ 31` in base 2 has 32 digits. -/
theorem ltoa_not_renders : ¬ Renders 2 (2 ^ 31) :=
  fun h => Nat.lt_irrefl _ (h.short (by decide))

end Twos.Kstd
