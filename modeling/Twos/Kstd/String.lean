import Twos.Kernel.Base
import Twos.Kstd.Compare

/-!
# Strings

`string.c`, as far as it works on buffers. A pointer into a buffer is what the buffer holds from there
to its end, as bytes: reading or writing behind the end is out of bounds. `pad n s` is a buffer of
`n` bytes with a string at its start and zeros behind it, which is what `strncpy` makes of one.

The lemmas are those that the parser of the command line needs: a short string is copied whole
(`strncpy_pad`), `strcmp` gives 0 on equal strings only (`strcmp_eq_zero`), and `atou` reads back a number
that is written in decimal (`atou_decimal`).
-/

namespace Twos.Kstd

open Lib

/-- Bytes stored from an offset on. -/
def writeBytes {α : Type} (b : List α) (off : Nat) (bytes : List α) : Except Fault (List α) :=
  if off + bytes.length ≤ b.length then
    .ok (b.take off ++ bytes ++ b.drop (off + bytes.length))
  else .error .outOfBounds

/-- `strlen`. -/
def strlen : List Nat → Except Fault Nat
  | [] => .error .outOfBounds
  | c :: str =>
      if c = 0 then .ok 0
      else do
        let size ← strlen str
        .ok (size + 1)

/-- `strnlen`. -/
def strnlen : List Nat → Nat → Except Fault Nat
  | _, 0 => .ok 0
  | [], _ + 1 => .error .outOfBounds
  | c :: str, max + 1 =>
      if c = 0 then .ok 0
      else do
        let len ← strnlen str max
        .ok (len + 1)

/-- `strcpy`, to an offset in a buffer. -/
def strcpy (dest : List Nat) (off : Nat) (src : List Nat) : Except Fault (List Nat) := do
  let srcLen ← strlen src
  writeBytes dest off (src.take (srcLen + 1))

/-- `strncpy`, to an offset in a buffer. -/
def strncpy (dest : List Nat) (off : Nat) (src : List Nat) (max : Nat) :
    Except Fault (List Nat) := do
  let lenSrc ← strnlen src max
  if lenSrc < max then do
    let dest ← writeBytes dest off (src.take lenSrc)
    let dest ← writeBytes dest (off + lenSrc) (List.replicate (max - lenSrc) 0)
    writeBytes dest (off + lenSrc) [0]
  else writeBytes dest off (src.take lenSrc)

/-- `strncat`. The lengths are kept in 32 bits. -/
def strncat (s1 s2 : List Nat) (n : Nat) : Except Fault (List Nat) := do
  let len1 ← strlen s1
  let len2 ← strlen s2
  if len2 % 2 ^ 32 < n then strcpy s1 (len1 % 2 ^ 32) s2
  else do
    let s1 ← strncpy s1 (len1 % 2 ^ 32) s2 n
    writeBytes s1 (len1 % 2 ^ 32 + n) [0]

/-- `strcmp`. -/
def strcmp : List Nat → List Nat → Except Fault Int
  | [], _ => .error .outOfBounds
  | _ :: _, [] => .error .outOfBounds
  | x :: str1, y :: str2 =>
      if x ≠ 0 ∧ y ≠ 0 ∧ x = y then strcmp str1 str2
      else if x = y then .ok 0
      else if toChar x < toChar y then .ok (-1) else .ok 1

abbrev UINT32_MAX : Nat := 2 ^ 32 - 1

/-- The loop of `atou`, with `result` so far. -/
def atouFrom (result : Nat) : List Nat → Except Fault Nat
  | [] => .error .outOfBounds
  | c :: str =>
      if c = 0 then .ok result
      else if 48 ≤ c ∧ c ≤ 57 then
        atouFrom ((result * 10 % 2 ^ 32 + (c - 48)) % 2 ^ 32) str
      else .ok UINT32_MAX

/-- `atou`. -/
def atou (str : List Nat) : Except Fault Nat := atouFrom 0 str

/-! ## Padded strings

Buffers that have been cleared hold a string and zeros behind it. `pad` is that buffer as a list,
and the lemmas are what the string functions do on it.
-/

/-- A string at the start of a buffer of `n` bytes. -/
def pad (n : Nat) (s : List Nat) : List Nat := s ++ List.replicate (n - s.length) 0

/-- A string with room for its NUL, and the bytes behind the NUL. -/
theorem pad_eq {n : Nat} {s : List Nat} (h : s.length < n) :
    pad n s = s ++ 0 :: List.replicate (n - s.length - 1) 0 := by
  rw [pad, ← List.replicate_succ, show n - s.length - 1 + 1 = n - s.length by omega]

/-- Storing over as many bytes. -/
theorem writeBytes_eq {α : Type} {p q r bytes : List α} (h : q.length = bytes.length) :
    writeBytes (p ++ q ++ r) p.length bytes = .ok (p ++ bytes ++ r) := by
  have hfits : p.length + bytes.length ≤ (p ++ q ++ r).length := by
    simp only [List.length_append]
    omega
  have hdrop : (p ++ q ++ r).drop (p.length + bytes.length) = r := by
    rw [← h, ← List.length_append]
    exact List.drop_left
  rw [writeBytes, if_pos hfits, hdrop, List.append_assoc p q r, List.take_left]

/-- One more character. -/
theorem writeBytes_pad {n c : Nat} {s : List Nat} (h : s.length < n) :
    writeBytes (pad n s) s.length [c] = .ok (pad n (s ++ [c])) := by
  have hsplit : pad n s = s ++ [0] ++ List.replicate (n - s.length - 1) 0 := by
    rw [pad_eq h, List.append_assoc, List.singleton_append]
  have hlen : [0].length = [c].length := rfl
  rw [hsplit, writeBytes_eq hlen, pad, List.length_append, List.length_singleton, Nat.sub_sub]

/-- The NUL is there already. -/
theorem writeBytes_pad_zero {n : Nat} {s : List Nat} (h : s.length < n) :
    writeBytes (pad n s) s.length [0] = .ok (pad n s) := by
  have hsplit : pad n s = s ++ [0] ++ List.replicate (n - s.length - 1) 0 := by
    rw [pad_eq h, List.append_assoc, List.singleton_append]
  rw [hsplit, writeBytes_eq rfl]

theorem strnlen_eq {s rest : List Nat} {max : Nat} (hs : 0 ∉ s) (h : s.length < max) :
    strnlen (s ++ 0 :: rest) max = .ok s.length := by
  induction s generalizing max with
  | nil =>
      obtain ⟨max, rfl⟩ := Nat.exists_eq_succ_of_ne_zero (Nat.ne_of_gt h)
      simp [strnlen]
  | cons c s ih =>
      obtain ⟨max, rfl⟩ := Nat.exists_eq_succ_of_ne_zero (by omega : max ≠ 0)
      rw [List.mem_cons, not_or] at hs
      rw [List.cons_append, strnlen, if_neg (Ne.symm hs.1), ih hs.2 (Nat.lt_of_succ_lt_succ h)]
      rfl

/-- `strncpy` of a string that is short enough, into a buffer of any length. -/
theorem strncpy_short {s rest dest : List Nat} {n : Nat} (hs : 0 ∉ s) (h : s.length < n)
    (hdest : n ≤ dest.length) :
    strncpy dest 0 (s ++ 0 :: rest) n = .ok (pad n s ++ dest.drop n) := by
  have htake : (s ++ 0 :: rest).take s.length = s := List.take_left
  have hcopied : writeBytes dest 0 s = .ok (s ++ dest.drop s.length) := by
    rw [writeBytes, if_pos (by omega), List.take_zero, List.nil_append, Nat.zero_add]
  have hrest : dest.drop s.length = (dest.drop s.length).take (n - s.length) ++ dest.drop n := by
    have hsplit := List.take_append_drop (n - s.length) (dest.drop s.length)
    rw [List.drop_drop, show s.length + (n - s.length) = n by omega] at hsplit
    exact hsplit.symm
  have hcleared : writeBytes (s ++ dest.drop s.length) s.length (List.replicate (n - s.length) 0) =
      .ok (pad n s ++ dest.drop n) := by
    have hlen : ((dest.drop s.length).take (n - s.length)).length =
        (List.replicate (n - s.length) 0).length := by
      rw [List.length_take, List.length_drop, List.length_replicate]
      omega
    rw [hrest, ← List.append_assoc, writeBytes_eq hlen, pad]
  have hnul : writeBytes (pad n s ++ dest.drop n) s.length [0] = .ok (pad n s ++ dest.drop n) := by
    have hsplit : pad n s ++ dest.drop n =
        s ++ [0] ++ (List.replicate (n - s.length - 1) 0 ++ dest.drop n) := by
      rw [pad_eq h]
      simp
    rw [hsplit, writeBytes_eq rfl]
  rw [strncpy, strnlen_eq hs h, ok_seq, if_pos h, htake, hcopied, ok_seq, Nat.zero_add, hcleared,
    ok_seq, hnul]

/-- A buffer that is as long as what `strncpy` writes. -/
theorem strncpy_pad {s rest dest : List Nat} {n : Nat} (hs : 0 ∉ s) (h : s.length < n)
    (hdest : dest.length = n) : strncpy dest 0 (s ++ 0 :: rest) n = .ok (pad n s) := by
  rw [strncpy_short hs h (Nat.le_of_eq hdest.symm), List.drop_of_length_le (Nat.le_of_eq hdest),
    List.append_nil]

/-- `strcmp` of two strings finds whether they are equal. -/
theorem strcmp_eq_zero {s t : List Nat} (rest rest' : List Nat) (hs : 0 ∉ s) (ht : 0 ∉ t) :
    ∃ r, strcmp (s ++ 0 :: rest) (t ++ 0 :: rest') = .ok r ∧ (r = 0 ↔ s = t) := by
  induction s generalizing t with
  | nil =>
      cases t with
      | nil => exact ⟨0, by simp [strcmp], by simp⟩
      | cons y t =>
          -- the first string has ended, and its NUL is compared
          rw [List.mem_cons, not_or] at ht
          refine ⟨if toChar 0 < toChar y then -1 else 1, ?_, ?_⟩
          · simp only [List.nil_append, List.cons_append, strcmp]
            grind
          · grind
  | cons x s ih =>
      rw [List.mem_cons, not_or] at hs
      cases t with
      | nil =>
          -- the second string has ended
          refine ⟨if toChar x < toChar 0 then -1 else 1, ?_, ?_⟩
          · simp only [List.nil_append, List.cons_append, strcmp]
            grind
          · grind
      | cons y t =>
          rw [List.mem_cons, not_or] at ht
          by_cases hxy : x = y
          · -- the same character, and the rest by induction
            subst hxy
            obtain ⟨r, hr, hiff⟩ := ih hs.2 ht.2
            refine ⟨r, ?_, by simp [hiff]⟩
            rw [List.cons_append, List.cons_append, strcmp,
              if_pos ⟨Ne.symm hs.1, Ne.symm hs.1, rfl⟩, hr]
          · -- the first difference
            refine ⟨if toChar x < toChar y then -1 else 1, ?_, ?_⟩
            · simp only [List.cons_append, strcmp]
              grind
            · grind

/-! ## Numbers as text -/

/-- The decimal digits of a number. -/
def decimal (v : Nat) : List Nat :=
  if v < 10 then [48 + v] else decimal (v / 10) ++ [48 + v % 10]

theorem decimal_digits (v : Nat) : ∀ c ∈ decimal v, 48 ≤ c ∧ c ≤ 57 := by
  fun_induction decimal v with
  | case1 v hv =>
      intro c hc
      obtain rfl := List.mem_singleton.mp hc
      omega
  | case2 v hv ih =>
      intro c hc
      rcases List.mem_append.mp hc with hc | hc
      · exact ih c hc
      · obtain rfl := List.mem_singleton.mp hc
        omega

theorem length_decimal {v n : Nat} (hv : v < 10 ^ (n + 1)) : (decimal v).length ≤ n + 1 := by
  induction n generalizing v with
  | zero =>
      rw [decimal, if_pos (by omega)]
      exact Nat.le_refl 1
  | succ n ih =>
      rw [decimal]
      split
      · exact Nat.succ_le_succ (Nat.zero_le _)
      · rw [List.length_append, List.length_singleton]
        exact Nat.succ_le_succ (ih (Nat.div_lt_of_lt_mul (by rw [Nat.mul_comm]; exact hv)))

/-- What the loop of `atou` makes of digits. -/
theorem atouFrom_digits {s : List Nat} (hs : ∀ c ∈ s, 48 ≤ c ∧ c ≤ 57) (r : Nat)
    (rest : List Nat) : atouFrom r (s ++ 0 :: rest) =
      .ok (s.foldl (fun r c => (r * 10 + (c - 48)) % 2 ^ 32) r) := by
  induction s generalizing r with
  | nil => rfl
  | cons c s ih =>
      have hc := hs c List.mem_cons_self
      rw [List.cons_append, atouFrom, if_neg (by omega), if_pos hc,
        ih fun c hc => hs c (List.mem_cons_of_mem _ hc), List.foldl_cons]
      congr 2
      omega

theorem foldl_decimal (v : Nat) :
    (decimal v).foldl (fun r c => (r * 10 + (c - 48)) % 2 ^ 32) 0 = v % 2 ^ 32 := by
  fun_induction decimal v with
  | case1 v hv => simp
  | case2 v hv ih =>
      rw [List.foldl_append, ih, List.foldl_cons, List.foldl_nil]
      omega

/-- `atou` reads back a number. -/
theorem atou_decimal (v : Nat) (rest : List Nat) :
    atou (decimal v ++ 0 :: rest) = .ok (v % 2 ^ 32) := by
  rw [atou, atouFrom_digits (decimal_digits v), foldl_decimal]

end Twos.Kstd
