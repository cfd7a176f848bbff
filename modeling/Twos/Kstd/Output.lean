import Twos.Kstd.Print

/-!
# Appending to the output

What one call of `__sprint` does to a buffer of `n` bytes that holds a text. `strncat` is given as
many characters as there is room for, or the whole string, and puts a NUL behind them: so a string
fits when it ends before the last byte. The length of the text so far is kept in 32 bits, which
matters for texts of 4 GiB.

`strncat_eq` says where `strncat` stores which bytes, and `sprint_spec` that `__sprint` is `appendText`,
or out of bounds where that is nothing. How many characters are appended depends on the lengths alone
(`appendCount`), so that whether a list of strings fits does, too (`appendTexts_isSome`). In a buffer of
4 GiB or less that comes to their sum (`fits_small`).
-/

namespace Twos.Kstd

open Lib

/-! ## Texts -/

/-- The text of a string: what is before its NUL. -/
def textOf (str : List Nat) : List Nat := str.takeWhile (· != 0)

@[simp] theorem textOf_zero (str : List Nat) : textOf (0 :: str) = [] := rfl

theorem textOf_cons {c : Nat} (hc : c ≠ 0) (str : List Nat) :
    textOf (c :: str) = c :: textOf str := by
  simp [textOf, hc]

theorem zero_notMem_textOf (str : List Nat) : 0 ∉ textOf str := by
  induction str with
  | nil => exact List.not_mem_nil
  | cons c str ih =>
      by_cases hc : c = 0
      · simp [hc]
      · rw [textOf_cons hc, List.mem_cons, not_or]
        exact ⟨Ne.symm hc, ih⟩

/-- A string, as its text and the bytes behind its NUL. -/
theorem textOf_split {str : List Nat} (h : 0 ∈ str) : ∃ rest, str = textOf str ++ 0 :: rest := by
  induction str with
  | nil => exact absurd h List.not_mem_nil
  | cons c str ih =>
      by_cases hc : c = 0
      · exact ⟨str, by simp [hc]⟩
      · obtain ⟨rest, hrest⟩ := ih ((List.mem_cons.mp h).resolve_left (Ne.symm hc))
        refine ⟨rest, ?_⟩
        rw [textOf_cons hc, List.cons_append, ← hrest]

theorem textOf_append {text : List Nat} (h : 0 ∉ text) (rest : List Nat) :
    textOf (text ++ 0 :: rest) = text := by
  induction text with
  | nil => simp
  | cons c text ih =>
      rw [List.mem_cons, not_or] at h
      rw [List.cons_append, textOf_cons (Ne.symm h.1), ih h.2]

theorem strlen_eq {text : List Nat} (h : 0 ∉ text) (rest : List Nat) :
    strlen (text ++ 0 :: rest) = .ok text.length := by
  induction text with
  | nil => simp [strlen]
  | cons c text ih =>
      rw [List.mem_cons, not_or] at h
      rw [List.cons_append, strlen, if_neg (Ne.symm h.1), ih h.2]
      rfl

/-- `strnlen` of a string that is long enough. -/
theorem strnlen_le {text : List Nat} {max : Nat} (hle : max ≤ text.length) (h : 0 ∉ text)
    (rest : List Nat) : strnlen (text ++ rest) max = .ok max := by
  induction text generalizing max with
  | nil =>
      obtain rfl : max = 0 := by simpa using hle
      cases rest with
      | nil => rfl
      | cons c rest => rfl
  | cons c text ih =>
      rw [List.mem_cons, not_or] at h
      cases max with
      | zero => rfl
      | succ max =>
          rw [List.cons_append, strnlen, if_neg (Ne.symm h.1),
            ih (Nat.le_of_succ_le_succ hle) h.2]
          rfl

/-- A buffer of `n` bytes that holds this text. -/
structure Holds (bufOut : List Nat) (n : Nat) (text : List Nat) : Prop where
  length : bufOut.length = n
  nonzero : 0 ∉ text
  split : ∃ rest, bufOut = text ++ 0 :: rest

theorem Holds.lt {bufOut text : List Nat} {n : Nat} (h : Holds bufOut n text) : text.length < n := by
  obtain ⟨rest, hsplit⟩ := h.split
  have hlen := h.length
  rw [hsplit, List.length_append, List.length_cons] at hlen
  omega

theorem Holds.strlen {bufOut text : List Nat} {n : Nat} (h : Holds bufOut n text) :
    strlen bufOut = .ok text.length := by
  obtain ⟨rest, hsplit⟩ := h.split
  rw [hsplit, strlen_eq h.nonzero]

/-! ## `strncat` -/

/-- Storing bytes in two steps. -/
theorem writeBytes_append {α : Type} (b : List α) (off : Nat) (xs ys : List α) :
    (writeBytes b off xs >>= fun b => writeBytes b (off + xs.length) ys) =
      writeBytes b off (xs ++ ys) := by
  unfold writeBytes
  by_cases hboth : off + (xs ++ ys).length ≤ b.length
  · have hsum : off + (xs ++ ys).length = off + xs.length + ys.length := by
      rw [List.length_append]
      omega
    have hfirst : off + xs.length ≤ b.length := by omega
    have hlen : (b.take off).length = off := List.length_take_of_le (by omega)
    -- the second store begins where the first one ended, so it leaves its bytes alone
    have htake : (b.take off ++ xs ++ b.drop (off + xs.length)).take (off + xs.length) =
        b.take off ++ xs := by
      have hpre : off + xs.length = (b.take off ++ xs).length := by simp [hlen]
      rw [hpre, List.take_left]
    have hdrop : (b.take off ++ xs ++ b.drop (off + xs.length)).drop (off + xs.length + ys.length) =
        b.drop (off + xs.length + ys.length) := by
      have hpre : off + xs.length = (b.take off ++ xs).length := by simp [hlen]
      rw [← List.drop_drop, hpre, List.drop_left, ← hpre, List.drop_drop]
    rw [if_pos hfirst, ok_seq, if_pos, if_pos hboth, htake, hdrop, hsum, List.append_assoc _ xs ys]
    simp only [List.length_append, List.length_drop, hlen]
    omega
  · -- the stores do not fit together, and one of the two does not fit alone
    rw [if_neg hboth]
    by_cases hfirst : off + xs.length ≤ b.length
    · rw [if_pos hfirst, ok_seq, if_neg]
      simp only [List.length_append, List.length_drop, List.length_take] at hboth ⊢
      omega
    · rw [if_neg hfirst, error_seq]

/-- How many of `len` characters `strncat` copies, when it is told to copy `max`. -/
def catCount (len max : Nat) : Nat := if len % 2 ^ 32 < max then len else max

/-- `strncat` of as many characters as the string has, or fewer, or of a string that it finds to be
shorter. -/
theorem strncat_eq {text str rest rest' : List Nat} {max : Nat} (htext : 0 ∉ text) (hstr : 0 ∉ str)
    (hmax : str.length % 2 ^ 32 < max ∨ max ≤ str.length) :
    strncat (text ++ 0 :: rest) (str ++ 0 :: rest') max =
      writeBytes (text ++ 0 :: rest) (text.length % 2 ^ 32)
        (str.take (catCount str.length max) ++ [0]) := by
  rw [strncat, strlen_eq htext, ok_seq, strlen_eq hstr, ok_seq, catCount]
  split
  · have hcopy : (str ++ 0 :: rest').take (str.length + 1) = str ++ [0] := by
      rw [List.take_length_add_append]
      rfl
    rw [strcpy, strlen_eq hstr, ok_seq, hcopy, List.take_length]
  · next hlong =>
    have hle : max ≤ str.length := hmax.resolve_left hlong
    have hlen : (str.take max).length = max := List.length_take_of_le hle
    have htake : (str ++ 0 :: rest').take max = str.take max := List.take_append_of_le_length hle
    rw [strncpy, strnlen_le hle hstr, ok_seq, if_neg (Nat.lt_irrefl max), htake,
      ← writeBytes_append, hlen]

/-! ## `__sprint`

A call of `__sprint` on a buffer that holds a text leaves one that holds the text with the string
behind it, if that fits, and goes out of bounds if not. Lengths are taken modulo 2^32, which is why
`appendCount` is a function of its own.
-/

/-- How much of a string of `len` characters is appended to a text of `cur`. -/
def appendCount (n cur len : Nat) : Nat := catCount len (min (n - cur) len)

/-- The text after a string was appended to it in a buffer of `n` bytes, if it fits. -/
def appendText (n : Nat) (text str : List Nat) : Option (List Nat) :=
  if text.length % 2 ^ 32 + appendCount n text.length str.length < n then
    some (text.take (text.length % 2 ^ 32) ++ str.take (appendCount n text.length str.length))
  else none

theorem appendCount_le (n cur len : Nat) : appendCount n cur len ≤ len := by
  unfold appendCount catCount
  split
  · exact Nat.le_refl len
  · exact Nat.min_le_right _ _

/-- Storing a text and its NUL over a text. -/
theorem Holds.write {bufOut text str : List Nat} {n : Nat} (h : Holds bufOut n text)
    (hstr : 0 ∉ str) {off : Nat} (hoff : off ≤ text.length) (hfits : off + str.length < n) :
    ∃ bufOut', writeBytes bufOut off (str ++ [0]) = .ok bufOut' ∧
      Holds bufOut' n (text.take off ++ str) := by
  obtain ⟨rest, hsplit⟩ := h.split
  have hroom : off + (str ++ [0]).length ≤ bufOut.length := by
    rw [h.length, List.length_append, List.length_singleton]
    omega
  have htake : bufOut.take off = text.take off := by
    rw [hsplit, List.take_append_of_le_length hoff]
  refine ⟨_, if_pos hroom, ?_, ?_, bufOut.drop (off + (str ++ [0]).length), ?_⟩
  · simp only [List.length_append, List.length_take, List.length_drop, h.length,
      List.length_singleton]
    omega
  · rw [List.mem_append, not_or]
    exact ⟨fun hmem => h.nonzero (List.mem_of_mem_take hmem), hstr⟩
  · rw [htake]
    simp

/-- What a call of `__sprint` does. -/
theorem sprint_spec {bufOut text str : List Nat} {n : Nat} (h : Holds bufOut n text)
    (hstr : 0 ∈ str) :
    match appendText n text (textOf str) with
    | some text' => ∃ bufOut' added, sprint str bufOut n = .ok (bufOut', added) ∧
        Holds bufOut' n text' ∧
        added = if text'.length ≠ 0 then (text'.length + WORD - text.length) % WORD else 0
    | none => sprint str bufOut n = .error .outOfBounds := by
  obtain ⟨rest', hrest'⟩ := textOf_split hstr
  have hzero := zero_notMem_textOf str
  generalize textOf str = p at hrest' hzero ⊢
  subst hrest'
  obtain ⟨rest, hsplit⟩ := h.split
  have hlt := h.lt
  -- the two minima of the code
  have hmax : (if (if n > text.length then n - text.length else 0) > p.length then p.length
      else (if n > text.length then n - text.length else 0)) = min (n - text.length) p.length := by
    rw [if_pos hlt]
    split
    · next hgt => exact (Nat.min_eq_right (Nat.le_of_lt hgt)).symm
    · next hle => exact (Nat.min_eq_left (Nat.le_of_not_lt hle)).symm
  have hcat := @strncat_eq _ _ rest rest' _ h.nonzero hzero
    (Or.inr (Nat.min_le_right (n - text.length) p.length))
  rw [← hsplit] at hcat
  have hcount := appendCount_le n text.length p.length
  have hlen : (p.take (appendCount n text.length p.length)).length =
      appendCount n text.length p.length := List.length_take_of_le hcount
  have hrun : sprint (p ++ 0 :: rest') bufOut n = (do
      let cat ← writeBytes bufOut (text.length % 2 ^ 32)
        (p.take (appendCount n text.length p.length) ++ [0])
      let catlen ← strlen cat
      .ok (cat, if catlen ≠ 0 then (catlen + WORD - text.length) % WORD else 0)) := by
    rw [sprint, if_neg (by omega), h.strlen, ok_seq, strlen_eq hzero, ok_seq]
    simp only [hmax]
    rw [hcat]
    rfl
  -- the store of `strncat` fits, and the text is the one with the string appended
  rw [hrun, appendText]
  split
  · next text' hsome =>
    split at hsome
    · next hfits =>
      obtain ⟨bufOut', hwrite, hholds⟩ := h.write
        (fun hmem => hzero (List.mem_of_mem_take hmem)) (Nat.mod_le text.length (2 ^ 32))
        (hlen.symm ▸ hfits)
      obtain rfl := Option.some.inj hsome
      refine ⟨bufOut', _, ?_, hholds, rfl⟩
      rw [hwrite, ok_seq, hholds.strlen, ok_seq]
    · cases hsome
  · next hnone =>
    split at hnone
    · cases hnone
    · -- the last byte would lie behind the buffer
      next hover =>
      rw [writeBytes, if_neg, error_seq]
      rw [List.length_append, hlen, List.length_singleton, h.length]
      omega

/-! ## Lengths

Whether strings fit, and how long the text gets, depends on their lengths only, so these questions
can be asked without the strings.
-/

/-- The length of the text after `len` characters were appended to `cur`, if they fit. -/
def appended (n cur len : Nat) : Option Nat :=
  if cur % 2 ^ 32 + appendCount n cur len < n then some (cur % 2 ^ 32 + appendCount n cur len)
  else none

/-- Strings of these lengths fit into a buffer of `n` bytes, one behind the other. -/
def Fits (n : Nat) (lens : List Nat) : Prop := (lens.foldlM (appended n) 0).isSome = true

instance (n : Nat) (lens : List Nat) : Decidable (Fits n lens) :=
  inferInstanceAs (Decidable (_ = true))

theorem appendText_length (n : Nat) (text str : List Nat) :
    (appendText n text str).map List.length = appended n text.length str.length := by
  unfold appendText appended
  split
  · have hcount := appendCount_le n text.length str.length
    have hmod := Nat.mod_le text.length (2 ^ 32)
    rw [Option.map_some, List.length_append, List.length_take_of_le hmod,
      List.length_take_of_le hcount]
  · rfl

/-- How long the text gets depends on the lengths of the strings. -/
theorem appendTexts_length (n : Nat) (strs : List (List Nat)) (text : List Nat) :
    (strs.foldlM (appendText n) text).map List.length =
      (strs.map List.length).foldlM (appended n) text.length := by
  induction strs generalizing text with
  | nil => rfl
  | cons str strs ih =>
      have hlen := appendText_length n text str
      rw [List.map_cons, List.foldlM_cons, List.foldlM_cons, ← hlen]
      cases appendText n text str with
      | none => rfl
      | some text' => exact ih text'

/-- So does whether they fit. -/
theorem appendTexts_isSome (n : Nat) (strs : List (List Nat)) (text : List Nat) :
    (strs.foldlM (appendText n) text).isSome =
      ((strs.map List.length).foldlM (appended n) text.length).isSome := by
  rw [← appendTexts_length, Option.isSome_map]

/-- In a buffer of at most 4 GiB nothing wraps. -/
theorem appended_small {n cur : Nat} (hn : n ≤ 2 ^ 32) (hcur : cur < n) (len : Nat) :
    appended n cur len = if cur + len < n then some (cur + len) else none := by
  have hmod : cur % 2 ^ 32 = cur := Nat.mod_eq_of_lt (by omega)
  unfold appended appendCount catCount
  rw [hmod]
  by_cases hfits : cur + len < n
  · have hmin : min (n - cur) len = len := Nat.min_eq_right (by omega)
    rw [hmin, ite_self, if_pos hfits]
  · have hmin : min (n - cur) len = n - cur := Nat.min_eq_left (by omega)
    rw [hmin, if_neg hfits, if_neg]
    split
    · exact hfits
    · omega

/-- Strings fit into such a buffer if there is room for all of them, and a NUL. -/
theorem fits_small {n : Nat} (hn : n ≤ 2 ^ 32) (hpos : 0 < n) (lens : List Nat) :
    Fits n lens ↔ lens.sum < n := by
  have hrun (cur : Nat) (hcur : cur < n) :
      (lens.foldlM (appended n) cur).isSome = true ↔ cur + lens.sum < n := by
    induction lens generalizing cur with
    | nil => simpa using hcur
    | cons len lens ih =>
        rw [List.foldlM_cons, appended_small hn hcur, List.sum_cons]
        split
        · next hfits =>
          have hrest := ih (cur + len) hfits
          rw [Nat.add_assoc] at hrest
          exact hrest
        · next hover =>
          simp
          omega
  have hall := hrun 0 hpos
  rwa [Nat.zero_add] at hall

end Twos.Kstd
