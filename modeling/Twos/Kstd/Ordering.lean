import Mathlib.Data.Int.Order.Basic
import Mathlib.Data.List.Lex
import Twos.Kstd.String

/-!
# The order of strings

`strcmp` compares two strings as sequences of `char`s, their NULs included, in the lexicographic order.
`strncmp` stops at the same character, or behind `num` of them, but what it returns there is the other
way round, and it takes two strings that end before `num` characters for different ones.

Both comparisons come down to the first place at which two strings differ (`strcmp_eq`,
`strncmp_spec`). That `strcmp` is an order is then a fact about lists, and `comparisons_agree_iff` has
the strings on which the two functions say the same. The index of `strncmp` is an `int` and is a
natural number here: strings have less than `2 ^ 31` characters.
-/

namespace Twos.Kstd

open Lib

/-- A string: bytes, and no NUL among them. -/
structure IsText (s : List Nat) : Prop where
  bytes : ∀ c ∈ s, c < 256
  noNul : 0 ∉ s

instance (s : List Nat) : Decidable (IsText s) :=
  decidable_of_iff ((∀ c ∈ s, c < 256) ∧ 0 ∉ s) ⟨fun h => ⟨h.1, h.2⟩, fun h => ⟨h.1, h.2⟩⟩

/-- A string as it is compared. -/
def charKey (s : List Nat) : List Int := s.map toChar ++ [0]

@[simp] theorem charKey_nil : charKey [] = [0] := rfl

@[simp] theorem charKey_cons (c : Nat) (s : List Nat) : charKey (c :: s) = toChar c :: charKey s := rfl

variable {a b c s t p : List Nat} {num : Nat}

theorem IsText.tail {x : Nat} (h : IsText (x :: s)) : IsText s :=
  ⟨fun c hc => h.bytes c (List.mem_cons_of_mem _ hc), fun hmem => h.noNul (List.mem_cons_of_mem _ hmem)⟩

theorem IsText.head {x : Nat} (h : IsText (x :: s)) : x < 256 ∧ x ≠ 0 :=
  ⟨h.bytes x List.mem_cons_self, fun hzero => h.noNul (hzero ▸ List.mem_cons_self)⟩

/-- The first character, which is the NUL at the end of a string. -/
theorem IsText.headD_lt (h : IsText s) : s.headD 0 < 256 := by
  cases s with
  | nil => simp
  | cons x s => exact h.head.1

theorem IsText.headD_eq_zero (h : IsText s) : s.headD 0 = 0 ↔ s = [] := by
  cases s with
  | nil => simp
  | cons x s => simpa using h.head.2

theorem IsText.take (h : IsText s) (n : Nat) : IsText (s.take n) :=
  ⟨fun c hc => h.bytes c (List.mem_of_mem_take hc), fun hmem => h.noNul (List.mem_of_mem_take hmem)⟩

theorem IsText.right (h : IsText (p ++ s)) : IsText s :=
  ⟨fun c hc => h.bytes c (List.mem_append_right _ hc),
    fun hmem => h.noNul (List.mem_append_right _ hmem)⟩

/-- Two bytes are equal as `char`s only if they are. -/
theorem toChar_inj {x y : Nat} (hx : x < 256) (hy : y < 256) (h : toChar x = toChar y) : x = y := by
  unfold toChar at h
  split at h
  · split at h
    · omega
    · omega
  · split at h
    · omega
    · omega

/-! ## `strcmp`

`strcmp` compares two strings where they first differ, with the NUL in the place of a character. In
the order of `char` this is the lexicographic order of the strings with their NULs, which is a
linear one.
-/

/-- Where the first characters differ, they decide. -/
theorem charKey_lt_iff (hs : IsText s) (ht : IsText t) (hne : s.headD 0 ≠ t.headD 0) :
    charKey s < charKey t ↔ toChar (s.headD 0) < toChar (t.headD 0) := by
  have hchar : toChar (s.headD 0) ≠ toChar (t.headD 0) :=
    fun heq => hne (toChar_inj hs.headD_lt ht.headD_lt heq)
  have hkey (s : List Nat) : ∃ tail, charKey s = toChar (s.headD 0) :: tail := by
    cases s with
    | nil => exact ⟨[], rfl⟩
    | cons x s => exact ⟨charKey s, rfl⟩
  obtain ⟨tail, hskey⟩ := hkey s
  obtain ⟨tail', htkey⟩ := hkey t
  rw [hskey, htkey, List.cons_lt_cons_iff, or_iff_left (fun h => hchar h.1)]

/-- What two strings have in common at their start does not matter. -/
theorem charKey_append_lt (p s t : List Nat) :
    charKey (p ++ s) < charKey (p ++ t) ↔ charKey s < charKey t := by
  induction p with
  | nil => exact Iff.rfl
  | cons x p ih =>
      rw [List.cons_append, List.cons_append, charKey_cons, charKey_cons, List.cons_lt_cons_iff, ih]
      simp

/-- `strcmp` is the comparison in the lexicographic order. -/
theorem strcmp_eq (hs : IsText s) (ht : IsText t) (rest rest' : List Nat) :
    strcmp (s ++ 0 :: rest) (t ++ 0 :: rest') =
      .ok (if s = t then 0 else if charKey s < charKey t then -1 else 1) := by
  induction s generalizing t with
  | nil =>
      cases t with
      | nil => simp [strcmp]
      | cons y t =>
          -- the first string has ended, and its NUL is compared
          have hlt := charKey_lt_iff hs ht (Ne.symm ht.head.2)
          rw [if_neg (List.cons_ne_nil y t).symm]
          simp only [hlt, List.nil_append, List.cons_append, strcmp, List.headD_nil, List.headD_cons]
          simp [Ne.symm ht.head.2]
          grind
  | cons x s ih =>
      cases t with
      | nil =>
          have hlt := charKey_lt_iff hs ht hs.head.2
          rw [if_neg (List.cons_ne_nil x s)]
          simp only [hlt, List.nil_append, List.cons_append, strcmp, List.headD_nil, List.headD_cons]
          simp [hs.head.2]
          grind
      | cons y t =>
          -- the same character, which is not the NUL, so the comparison goes on
          by_cases hxy : x = y
          · subst hxy
            rw [List.cons_append, List.cons_append, strcmp,
              if_pos ⟨hs.head.2, hs.head.2, rfl⟩, ih hs.tail ht.tail]
            simp
          · -- the first difference decides
            have hlt := charKey_lt_iff hs ht hxy
            have hne : x :: s ≠ y :: t := fun heq => hxy (List.cons.inj heq).1
            rw [if_neg hne]
            simp only [hlt, List.cons_append, strcmp, List.headD_cons]
            simp [hxy]
            grind

/-- What `strcmp` finds for two of three strings: both ways round for the first two. -/
structure Compares (a b c : List Nat) (ab ba bc ac : Int) : Prop where
  first : strcmp (a ++ [0]) (b ++ [0]) = .ok ab
  swapped : strcmp (b ++ [0]) (a ++ [0]) = .ok ba
  second : strcmp (b ++ [0]) (c ++ [0]) = .ok bc
  both : strcmp (a ++ [0]) (c ++ [0]) = .ok ac

/-- `strcmp` is 0 exactly on equal strings, antisymmetric and transitive. -/
def StrcmpOrders (a b c : List Nat) : Prop :=
  ∃ ab ba bc ac, Compares a b c ab ba bc ac ∧ (ab = 0 ↔ a = b) ∧ ba = -ab ∧
    (ab ≤ 0 → bc ≤ 0 → ac ≤ 0) ∧ (ab < 0 → bc < 0 → ac < 0)

theorem charKey_inj (hs : IsText s) (ht : IsText t) (h : charKey s = charKey t) : s = t := by
  induction s generalizing t with
  | nil =>
      cases t with
      | nil => rfl
      | cons y t => simp [charKey] at h
  | cons x s ih =>
      cases t with
      | nil => simp [charKey] at h
      | cons y t =>
          obtain ⟨hhead, htail⟩ := List.cons.inj h
          rw [toChar_inj hs.head.1 ht.head.1 hhead, ih hs.tail ht.tail htail]

theorem strcmpOrders (ha : IsText a) (hb : IsText b) (hc : IsText c) : StrcmpOrders a b c := by
  refine ⟨_, _, _, _, ⟨strcmp_eq ha hb _ _, strcmp_eq hb ha _ _, strcmp_eq hb hc _ _,
    strcmp_eq ha hc _ _⟩, ?_⟩
  have hab := charKey_inj ha hb
  have hbc := charKey_inj hb hc
  have hac := charKey_inj ha hc
  have htrans : charKey a < charKey b → charKey b < charKey c → charKey a < charKey c :=
    List.lt_trans
  -- the four statements are about the linear order of the keys
  rcases lt_trichotomy (charKey a) (charKey b) with hlt | heq | hgt
  · have hne : a ≠ b := fun h => absurd (h ▸ hlt) (List.lt_irrefl _)
    have hnot := List.lt_asymm hlt
    simp only [if_neg hne, if_neg (Ne.symm hne), if_pos hlt, if_neg hnot]
    rcases lt_trichotomy (charKey b) (charKey c) with hlt' | heq' | hgt'
    · have hac := htrans hlt hlt'
      have hne' : a ≠ c := fun h => absurd (h ▸ hac) (List.lt_irrefl _)
      simp [hne, hne', hac]
    · obtain rfl := hbc heq'
      simp [hne, hlt]
    · have hne' : b ≠ c := fun h => absurd (h ▸ hgt') (List.lt_irrefl _)
      simp [hne, hne', List.lt_asymm hgt']
  · obtain rfl := hab heq
    simp
  · have hne : a ≠ b := fun h => absurd (h ▸ hgt) (List.lt_irrefl _)
    simp [hne, Ne.symm hne, hgt, List.lt_asymm hgt]

/-! ## `strncmp`

Two strings have a common beginning, and from there on they differ or both end. `strncmp` goes
through the beginning as far as `num` allows and then tells the characters apart, with the signs
exchanged; where it has been through `num` characters it says 0.
-/

/-- A string as its characters: what lies behind its buffer cannot be read. -/
def charsOf (buf : List Nat) : Chars := fun c =>
  match buf[c]? with
  | some ch => .ok ch
  | none => .error (.fault .outOfBounds)

theorem charsOf_append (p s : List Nat) : charsOf (p ++ s ++ [0]) p.length = .ok (s.headD 0) := by
  have hget : (p ++ s ++ [0])[p.length]? = some (s.headD 0) := by
    cases s with
    | nil => simp
    | cons x s => simp
  rw [charsOf, hget]

/-- From where two strings begin to differ on, or both end, `strncmp` goes no further. -/
def Parts (s t : List Nat) : Prop := s.headD 0 ≠ t.headD 0 ∨ (s = [] ∧ t = [])

/-- The scan goes through what the strings have in common, up to `num` characters. -/
theorem strncmpScan_spec (hs : IsText s) (ht : IsText t) (p : List Nat) {fuel : Nat}
    (hp : p.length ≤ num) (hfuel : num < p.length + fuel) :
    ∃ q s' t', s = q ++ s' ∧ t = q ++ t' ∧ p.length + q.length ≤ num ∧
      (p.length + q.length = num ∨ Parts s' t') ∧
      strncmpScan (charsOf (p ++ s ++ [0])) (charsOf (p ++ t ++ [0])) num fuel p.length =
        .ok (p.length + q.length) := by
  induction fuel generalizing s t p with
  | zero => omega
  | succ fuel ih =>
      rw [strncmpScan, charsOf_append, charsOf_append]
      simp only [ok_seq]
      by_cases hgo : s.headD 0 = t.headD 0 ∧ p.length < num ∧ s.headD 0 ≠ 0 ∧ t.headD 0 ≠ 0
      · -- the scan goes on while the characters are the same, are not NULs and there are some left to compare
        obtain ⟨heq, hlt, hnz, hnz'⟩ := hgo
        cases s with
        | nil => simp at hnz
        | cons x s =>
            cases t with
            | nil => simp at hnz'
            | cons y t =>
                have hxy : x = y := heq
                subst hxy
                obtain ⟨q, s', t', hs', ht', hle, hstop, hrun⟩ := ih hs.tail ht.tail (p ++ [x])
                  (by simp; omega) (by simp; omega)
                have hlen : (p ++ [x]).length + q.length = p.length + (x :: q).length := by
                  simp only [List.length_append, List.length_cons, List.length_nil]
                  omega
                rw [hlen] at hle hstop hrun
                refine ⟨x :: q, s', t', by rw [hs']; rfl, by rw [ht']; rfl, hle, hstop, ?_⟩
                rw [if_pos ⟨heq, hlt, hnz, hnz'⟩, ← hrun]
                simp
      · -- the scan stops, either behind `num` characters or where the strings part
        refine ⟨[], s, t, rfl, rfl, hp, ?_, by rw [if_neg hgo]; rfl⟩
        rcases Nat.eq_or_lt_of_le hp with heq | hlt
        · exact Or.inl heq
        · refine Or.inr ?_
          by_cases hsame : s.headD 0 = t.headD 0
          · have hzero : s.headD 0 = 0 := by
              by_contra hnz
              exact hgo ⟨hsame, hlt, hnz, hsame ▸ hnz⟩
            exact Or.inr ⟨hs.headD_eq_zero.mp hzero, ht.headD_eq_zero.mp (hsame ▸ hzero)⟩
          · exact Or.inl hsame

/-- What `strncmp` returns: 0 when it has been through `num` characters, and else one of the two
others, with the greater string taken for the smaller one. -/
theorem strncmp_spec (ha : IsText a) (hb : IsText b) (hnum : 1 ≤ num) :
    ∃ q s t, a = q ++ s ∧ b = q ++ t ∧
      (q.length = num ∧
          strncmp (some (charsOf (a ++ [0]))) (some (charsOf (b ++ [0]))) num = .ok 0 ∨
        q.length < num ∧ Parts s t ∧
          strncmp (some (charsOf (a ++ [0]))) (some (charsOf (b ++ [0]))) num =
            .ok (if toChar (s.headD 0) > toChar (t.headD 0) then -1 else 1)) := by
  have hfuel : num < ([] : List Nat).length + (num + 1) := by simp
  obtain ⟨q, s, t, rfl, rfl, hle, hstop, hrun⟩ := strncmpScan_spec ha hb [] (Nat.zero_le num) hfuel
  rw [List.length_nil, Nat.zero_add] at hle hstop hrun
  have hpos : num ≠ 0 := by omega
  refine ⟨q, s, t, rfl, rfl, ?_⟩
  rw [List.nil_append, List.nil_append] at hrun
  rcases Nat.eq_or_lt_of_le hle with heq | hlt
  · refine Or.inl ⟨heq, ?_⟩
    simp only [strncmp, if_neg hpos, hrun, ok_seq, if_pos heq]
  · refine Or.inr ⟨hlt, hstop.resolve_left (Nat.ne_of_lt hlt), ?_⟩
    simp only [strncmp, if_neg hpos, hrun, ok_seq, if_neg (Nat.ne_of_lt hlt), charsOf_append]
    split
    · rfl
    · rfl

/-- The sign of `strncmp` is that of `strcmp` on what `num` characters leave of the strings. -/
def SameSign (a b : List Nat) (num : Nat) : Prop :=
  ∃ r r', strncmp (some (charsOf (a ++ [0]))) (some (charsOf (b ++ [0]))) num = .ok r ∧
    strcmp (a.take num ++ [0]) (b.take num ++ [0]) = .ok r' ∧ r.sign = r'.sign

/-- Both strings have `num` characters, and these are the same. -/
def SameStart (a b : List Nat) (num : Nat) : Prop := num ≤ a.length ∧ a.take num = b.take num

/-- Where two strings part before `num` characters, `strcmp` says something else than `strncmp`. -/
theorem sign_ne_of_parts {n : Nat} (hs : IsText s) (ht : IsText t) (hparts : Parts s t) :
    (if toChar (s.headD 0) > toChar (t.headD 0) then -1 else 1 : Int).sign ≠
      (if p ++ s.take (n + 1) = p ++ t.take (n + 1) then 0
        else if charKey (p ++ s.take (n + 1)) < charKey (p ++ t.take (n + 1)) then -1
        else 1 : Int).sign := by
  have hhead (s : List Nat) : (s.take (n + 1)).headD 0 = s.headD 0 := by
    cases s with
    | nil => rfl
    | cons x s => rfl
  rcases hparts with hne | ⟨rfl, rfl⟩
  · -- a difference: the character that is less is also less in the order, and the answers have opposite signs
    have hneq : p ++ s.take (n + 1) ≠ p ++ t.take (n + 1) := by
      intro heq
      have htake := List.append_cancel_left heq
      exact hne (by rw [← hhead s, htake, hhead t])
    have hlt := charKey_lt_iff (hs.take (n + 1)) (ht.take (n + 1)) (by rwa [hhead, hhead])
    rw [hhead, hhead, ← charKey_append_lt p] at hlt
    have hchar : toChar (s.headD 0) ≠ toChar (t.headD 0) :=
      fun heq => hne (toChar_inj hs.headD_lt ht.headD_lt heq)
    rw [if_neg hneq]
    rcases lt_trichotomy (toChar (s.headD 0)) (toChar (t.headD 0)) with hless | heq | hmore
    · rw [if_pos (hlt.mpr hless), if_neg (not_lt_of_gt hless)]
      decide
    · exact absurd heq hchar
    · rw [if_neg fun h => not_lt_of_gt hmore (hlt.mp h), if_pos hmore]
      decide
  · -- the strings have ended together, and `strncmp` gives 1 where `strcmp` gives 0
    simp

/-- For all strings, `strcmp` orders them, and `strncmp` agrees with it if and only if both strings
have `num` characters and the same ones. -/
theorem comparisons_agree_iff (ha : IsText a) (hb : IsText b) (hc : IsText c) (hnum : 1 ≤ num) :
    StrcmpOrders a b c ∧ (SameSign a b num ↔ SameStart a b num) := by
  refine ⟨strcmpOrders ha hb hc, ?_⟩
  have hcmp := strcmp_eq (ha.take num) (hb.take num) [] []
  obtain ⟨q, s, t, rfl, rfl, ⟨hlen, hrun⟩ | ⟨hlt, hparts, hrun⟩⟩ := strncmp_spec ha hb hnum
  · -- `num` characters in common
    have htake (s : List Nat) : (q ++ s).take num = q := by rw [← hlen, List.take_left]
    rw [htake, htake, if_pos rfl] at hcmp
    refine iff_of_true ⟨0, 0, hrun, ?_, rfl⟩ ⟨?_, by rw [htake, htake]⟩
    · rw [htake, htake, hcmp]
    · rw [List.length_append]
      omega
  · -- the strings part before `num` characters
    obtain ⟨n, rfl⟩ : ∃ n, num = q.length + (n + 1) := ⟨num - q.length - 1, by omega⟩
    have htake (s : List Nat) : (q ++ s).take (q.length + (n + 1)) = q ++ s.take (n + 1) := by
      rw [List.take_length_add_append]
    rw [htake, htake] at hcmp
    refine iff_of_false ?_ ?_
    · rintro ⟨r, r', hr, hr', hsign⟩
      rw [htake, htake] at hr'
      obtain rfl := Except.ok.inj (hrun.symm.trans hr)
      obtain rfl := Except.ok.inj (hcmp.symm.trans hr')
      exact sign_ne_of_parts ha.right hb.right hparts hsign
    · -- parted strings have no start of `num` characters in common
      rintro ⟨hle, heq⟩
      rw [htake, htake] at heq
      have hsame := List.append_cancel_left heq
      have hlong : n + 1 ≤ s.length := by
        rw [List.length_append] at hle
        omega
      cases s with
      | nil => exact absurd hlong (Nat.not_succ_le_zero n)
      | cons x s =>
          cases t with
          | nil => simp at hsame
          | cons y t =>
              rcases hparts with hne | ⟨hnil, -⟩
              · exact hne (List.cons.inj hsame).1
              · cases hnil

/-- Three characters of `"XSDT"` and `"XSD"`, and of a third string. -/
theorem comparisons_agree_sig : StrcmpOrders [88, 83, 68, 84] [88, 83, 68] [82] ∧
    (SameSign [88, 83, 68, 84] [88, 83, 68] 3 ↔ SameStart [88, 83, 68, 84] [88, 83, 68] 3) :=
  comparisons_agree_iff (by decide) (by decide) (by decide) (by decide)

/-- `"a"` and `"b"`, and `"a"` and itself with more characters than it has. -/
theorem strncmp_not_strcmp : ¬ SameSign [97] [98] 1 ∧ ¬ SameSign [97] [97] 2 := by
  have hsigns {a b : List Nat} {num : Nat} {r q : Int}
      (hr : strncmp (some (charsOf (a ++ [0]))) (some (charsOf (b ++ [0]))) num = .ok r)
      (hr' : strcmp (a.take num ++ [0]) (b.take num ++ [0]) = .ok q) (hne : r.sign ≠ q.sign) :
      ¬ SameSign a b num := by
    rintro ⟨x, x', hx, hx', hsame⟩
    obtain rfl := Except.ok.inj (hr.symm.trans hx)
    obtain rfl := Except.ok.inj (hr'.symm.trans hx')
    exact hne hsame
  exact ⟨hsigns (r := 1) (q := -1) rfl rfl (by decide),
    hsigns (r := 1) (q := 0) rfl rfl (by decide)⟩

end Twos.Kstd
