import Twos.Boot.Checked
import Twos.Kstd.Radix

/-!
# Inside the buffers of the parser

The text of a command line, cut into the keys and the values that `cmdline_parse` cuts it into. Whether
the parser stays inside the string and inside its own buffers is a matter of the lengths of these, and
of how many there are.

* `tokens` cuts a text, by recursion on it and on the place in an argument (`Place`).
* The parser is followed from the inside out: the copy of a value (`copyLoopIn_computes`), an argument
  (`storeArgIn_computes`), a turn of the loop (`parseStepIn_key`, `parseStepIn_sep`). Each says under
  which condition the step returns and what it leaves, in the form of `Computes`.
* `loopComputes` is the induction over the text, with `LoopComputes.key` and `LoopComputes.sep` for
  its two kinds of turns: a character of a key, and a separator with all of the value behind it.
* `parsesInside_iff` and `contained_iff` turn the condition into one on the tokens alone, and
  `cmdlineParse_inside_iff` adds the texts that are so long that the loop does not start.
-/

namespace Twos.Boot

open Lib Kstd

variable {m : Memory} {tag stagLen : Nat}

/-! ## The text, cut

A text is a sequence of keys and values, and where one ends is settled by the characters. `tokens`
follows the parser character by character, but keeps the keys and values instead of copying them into
buffers.
-/

/-- The characters of the string. -/
def payload (m : Memory) (tag n : Nat) : List Nat := (List.range n).map (stringAt m tag)

/-- What the text is cut into: keys with their values, and what follows the last value. A text that
ends in a value or behind its space is overrun. -/
inductive Token
  | arg (key value : List Nat)
  | rest (text : List Nat)
  | overrun

/-- Where the parser is: in a key, in the value of a key, or behind the space that ends a value. -/
inductive Place
  | key (pre : List Nat)
  | value (key pre : List Nat)
  | behind

/-- The text from some place on. What follows a value, and the NUL itself if that ends it, is the first
character of a key, whichever it is. -/
def tokens : Place → List Nat → List Token
  | .key pre, [] => [.rest pre]
  | .key pre, c :: t => if c = ARG_SEP then tokens (.value pre []) t else tokens (.key (pre ++ [c])) t
  | .value _ _, [] => [.overrun]
  | .value key pre, c :: t =>
      if c = SPACE then .arg key pre :: tokens .behind t
      else if c = 0 then .arg key pre :: tokens (.key [0]) t
      else tokens (.value key (pre ++ [c])) t
  | .behind, [] => [.overrun]
  | .behind, c :: t => tokens (.key [c]) t

/-- The text of a tag. -/
def textTokens (m : Memory) (tag : Nat) : List Token :=
  tokens (.key []) (payload m tag (stagLenOf m tag))

/-- The keys and their values. -/
def argsOf : List Token → List (List Nat × List Nat)
  | [] => []
  | .arg key value :: ts => (key, value) :: argsOf ts
  | _ :: ts => argsOf ts

/-- What is left in `buf`. -/
def restOf : List Token → List Nat
  | [] => []
  | .rest text :: _ => text
  | _ :: ts => restOf ts

@[simp] theorem argsOf_arg (key value : List Nat) (ts : List Token) :
    argsOf (.arg key value :: ts) = (key, value) :: argsOf ts := rfl

@[simp] theorem restOf_arg (key value : List Nat) (ts : List Token) :
    restOf (.arg key value :: ts) = restOf ts := rfl

/-- Whether `buf` and `sval` have room for it. -/
def Token.Fits : Token → Prop
  | .arg key value => key.length < 64 ∧ value.length < 32
  | .rest text => text.length ≤ 64
  | .overrun => False

instance : DecidablePred Token.Fits
  | .arg _ _ => inferInstanceAs (Decidable (_ ∧ _))
  | .rest _ => inferInstanceAs (Decidable (_ ≤ _))
  | .overrun => inferInstanceAs (Decidable False)

/-- A character of a value. -/
def isValueChar (c : Nat) : Bool := decide (c ≠ SPACE ∧ c ≠ 0)

/-- The row of `args` for a key: of a long one, the first characters and no NUL. -/
def rowOf (key : List Nat) : List Nat :=
  if (textOf key).length < CMDLINE_MAX_ARG_LEN then pad CMDLINE_MAX_ARG_LEN (textOf key)
  else key.take CMDLINE_MAX_ARG_LEN

/-- The number for a value. -/
def numberOf (value : List Nat) : Nat :=
  if ∀ c ∈ value, IsDigit c then digitsVal value % 2 ^ 32 else UINT32_MAX

/-- What is stored for a key and its value. -/
def entryOf (p : List Nat × List Nat) : List Nat × Nat := (rowOf p.1, numberOf p.2)

@[simp] theorem entryOf_fst (p : List Nat × List Nat) : (entryOf p).1 = rowOf p.1 := rfl

/-- In front of `t`, with a part of a key in `buf` and these rows and numbers stored. -/
def filled (stagLen : Nat) (t pre : List Nat) (done : List (List Nat × Nat)) : Parse where
  idx := stagLen - t.length
  bdx := pre.length
  numArgs := done.length
  buf := pad 64 pre
  args := done.map Prod.fst ++
    List.replicate (CMDLINE_MAX_ARG - done.length) (List.replicate CMDLINE_MAX_ARG_LEN 0)
  vals := done.map Prod.snd ++ List.replicate (CMDLINE_MAX_ARG - done.length) 0

/-! ### Reading what is left -/

theorem length_payload (m : Memory) (tag n : Nat) : (payload m tag n).length = n := by
  simp [payload]

/-- What is left of the string. -/
def Left (m : Memory) (tag stagLen : Nat) (t : List Nat) : Prop := t <:+ payload m tag stagLen

variable {t : List Nat} {c : Nat}

theorem Left.tail (h : Left m tag stagLen (c :: t)) : Left m tag stagLen t :=
  (List.suffix_cons c t).trans h

theorem Left.length_le (h : Left m tag stagLen t) : t.length ≤ stagLen := by
  have hle := List.IsSuffix.length_le h
  rwa [length_payload] at hle

theorem Left.index (h : Left m tag stagLen (c :: t)) :
    stagLen - (c :: t).length + 1 = stagLen - t.length ∧ stagLen - (c :: t).length < stagLen := by
  have hle := h.length_le
  rw [List.length_cons] at hle ⊢
  omega

theorem Left.char (h : Left m tag stagLen (c :: t)) :
    stringAt m tag (stagLen - (c :: t).length) = c := by
  obtain ⟨p, hp⟩ := id h
  have hlen := congrArg List.length hp
  rw [List.length_append, length_payload] at hlen
  have hidx : stagLen - (c :: t).length = p.length := by omega
  have hget : (payload m tag stagLen)[p.length]? = some c := by
    rw [← hp, List.getElem?_append_right (Nat.le_refl _), Nat.sub_self]
    rfl
  have hlt : p.length < stagLen := hidx ▸ h.index.2
  rw [payload, List.getElem?_map, List.getElem?_range hlt] at hget
  rw [hidx]
  exact Option.some.inj hget

/-- A character that is left can be read. -/
theorem Left.read (h : Left m tag stagLen (c :: t)) :
    stringIn m tag stagLen (stagLen - (c :: t).length) = .ok c := by
  rw [stringIn_eq h.index.2, h.char]

theorem read_end : stringIn m tag stagLen (stagLen - ([] : List Nat).length) = .error .outOfBounds :=
  if_neg (Nat.lt_irrefl stagLen)

theorem Left.inValue (h : Left m tag stagLen (c :: t)) :
    inValue m tag stagLen (stagLen - (c :: t).length) = isValueChar c := by
  rw [Boot.inValue, h.char, isValueChar]
  have hlt := h.index.2
  grind

/-! ### Writing

What each of the writes of the parser needs, and what it leaves: `buf` and `sval` are filled from the
start, with zeros behind, and so are the tables.
-/

variable {n : Nat} {pre : List Nat}

theorem put_computes (n c : Nat) (pre : List Nat) :
    Computes (writeBytes (pad n pre) pre.length [c]) (pre.length < n) (pad n (pre ++ [c])) := by
  refine ⟨writeBytes_pad, fun s hs => ?_⟩
  rw [writeBytes] at hs
  split at hs
  · next hfits =>
    rw [pad, List.length_append, List.length_replicate, List.length_singleton] at hfits
    omega
  · cases hs

theorem putNul_computes (n : Nat) (pre : List Nat) :
    Computes (writeBytes (pad n pre) pre.length [0]) (pre.length < n) (pad n pre) :=
  ⟨writeBytes_pad_zero, (put_computes n 0 pre).needs⟩

/-- One more entry in an array that is filled from the start. -/
theorem writeBytes_snoc {α : Type} {done : List α} (x blank : α) {n : Nat} (h : done.length < n) :
    writeBytes (done ++ List.replicate (n - done.length) blank) done.length [x] =
      .ok (done ++ [x] ++ List.replicate (n - (done.length + 1)) blank) := by
  have hsplit : List.replicate (n - done.length) blank =
      [blank] ++ List.replicate (n - (done.length + 1)) blank := by
    rw [List.singleton_append, ← List.replicate_succ]
    congr 1
    omega
  have hlen : [blank].length = [x].length := rfl
  rw [hsplit, ← List.append_assoc, writeBytes_eq hlen]

theorem snoc_computes {α : Type} (done : List α) (n : Nat) (x blank : α) :
    Computes (writeBytes (done ++ List.replicate (n - done.length) blank) done.length [x])
      (done.length < n) (done ++ [x] ++ List.replicate (n - (done.length + 1)) blank) := by
  refine ⟨writeBytes_snoc x blank, fun s hs => ?_⟩
  rw [writeBytes] at hs
  split at hs
  · next hfits =>
    rw [List.length_append, List.length_replicate, List.length_singleton] at hfits
    omega
  · cases hs

theorem length_textOf_le (key : List Nat) : (textOf key).length ≤ key.length :=
  (List.takeWhile_sublist _).length_le

theorem textOf_padded (key : List Nat) (k : Nat) :
    textOf (key ++ List.replicate k 0) = textOf key := by
  induction key with
  | nil => cases k <;> rfl
  | cons c key ih =>
      by_cases hc : c = 0
      · rw [hc, List.cons_append, textOf_zero, textOf_zero]
      · rw [List.cons_append, textOf_cons hc, textOf_cons hc, ih]

theorem textOf_eq {key : List Nat} (h : 0 ∉ key) : textOf key = key :=
  (textOf_padded key 1).symm.trans (textOf_append h [])

/-- The row of a key that fits. -/
theorem rowOf_short {key : List Nat} (h : 0 ∉ key) (hshort : key.length < CMDLINE_MAX_ARG_LEN) :
    rowOf key = pad CMDLINE_MAX_ARG_LEN key := by
  rw [rowOf, textOf_eq h, if_pos hshort]

/-- The key is copied from `buf` to its row. -/
theorem strncpy_key {key : List Nat} (h : key.length < 64) :
    strncpy (List.replicate CMDLINE_MAX_ARG_LEN 0) 0 (pad 64 key) CMDLINE_MAX_ARG_LEN =
      .ok (rowOf key) := by
  have hpad : textOf (pad 64 key) = textOf key := textOf_padded key _
  have hzero : 0 ∈ pad 64 key := by
    rw [pad_eq h]
    simp
  obtain ⟨rest, hsplit⟩ := textOf_split hzero
  rw [hpad] at hsplit
  -- the key and its NUL fit into the row
  unfold rowOf
  split
  · next hshort =>
    rw [hsplit]
    exact strncpy_pad (zero_notMem_textOf key) hshort (List.length_replicate ..)
  · -- the row is full before the NUL, and `strncpy` stops there
    next hlong =>
    have hlen : CMDLINE_MAX_ARG_LEN ≤ (textOf key).length := Nat.not_lt.mp hlong
    have htext := length_textOf_le key
    have hcount : strnlen (pad 64 key) CMDLINE_MAX_ARG_LEN = .ok CMDLINE_MAX_ARG_LEN := by
      rw [hsplit]
      exact strnlen_le hlen (zero_notMem_textOf key) _
    have htake : (pad 64 key).take CMDLINE_MAX_ARG_LEN = key.take CMDLINE_MAX_ARG_LEN := by
      rw [pad, List.take_append_of_le_length (hlen.trans htext)]
    have hfits : (key.take CMDLINE_MAX_ARG_LEN).length = CMDLINE_MAX_ARG_LEN :=
      List.length_take_of_le (hlen.trans htext)
    rw [strncpy, hcount, ok_seq, if_neg (Nat.lt_irrefl _), htake, writeBytes, if_pos]
    · simp [hfits]
    · simp [hfits]

/-- A value is read as a number or not at all. -/
theorem atou_value {value : List Nat} (hzero : 0 ∉ value) (h : value.length < 32) :
    atou (pad 32 value) = .ok (numberOf value) := by
  rw [pad_eq h]
  unfold numberOf
  split
  · next hdigits => exact atou_digits hdigits _
  · next hother =>
    have hsome : ∃ c ∈ value, ¬ IsDigit c := by simpa using hother
    exact atouFrom_other hzero hsome 0 _

/-! ## One argument

A separator starts the longest step of the parser: the key is copied to its row, the value is copied
up to a space or NUL, turned into a number and stored, and one space is passed over. Its parts
return under conditions on the lengths, which add up.
-/

/-- The value at the start of a text. -/
def valueOf (t : List Nat) : List Nat := t.takeWhile isValueChar

/-- The text from the end of its value on. -/
def behindValue (t : List Nat) : List Nat := t.dropWhile isValueChar

theorem stringIn_computes (h : Left m tag stagLen t) :
    Computes (stringIn m tag stagLen (stagLen - t.length)) (t ≠ []) (t.headD 0) := by
  cases t with
  | nil =>
      rw [read_end]
      exact (Computes.error _ _).congr (iff_of_false (fun h => h rfl) not_false)
  | cons c t =>
      rw [h.read]
      exact (Computes.ok _).congr (iff_of_true (List.cons_ne_nil c t) trivial)

/-- One character of a value, and whether the string goes on. -/
theorem copyCharIn_computes (h : Left m tag stagLen (c :: t)) (v : List Nat) :
    Computes (copyCharIn m tag stagLen (stagLen - (c :: t).length, v.length, pad 32 v))
      (v.length < 32 ∧ t ≠ []) (stagLen - t.length, v.length + 1, pad 32 (v ++ [c])) := by
  have hcopy : Computes (copyChar m tag (stagLen - (c :: t).length, v.length, pad 32 v))
      (v.length < 32) (stagLen - t.length, v.length + 1, pad 32 (v ++ [c])) := by
    rw [copyChar, h.char, h.index.1]
    exact (put_computes 32 c v).map fun sval => (stagLen - t.length, v.length + 1, sval)
  exact hcopy.bind fun _ => (stringIn_computes h.tail).map fun _ => _

/-- The loop that copies a value, in front of a character and with a part of the value copied. -/
theorem copyLoopIn_computes (t v : List Nat) {fuel : Nat} (hleft : Left m tag stagLen t) (hne : t ≠ [])
    (hv : v.length ≤ 32) (hfuel : t.length ≤ fuel) :
    Computes (whileLoop .neverEnds (fun s => inValue m tag stagLen s.1) (copyCharIn m tag stagLen) fuel
        (stagLen - t.length, v.length, pad 32 v))
      (behindValue t ≠ [] ∧ (v ++ valueOf t).length ≤ 32)
      (stagLen - (behindValue t).length, (v ++ valueOf t).length, pad 32 (v ++ valueOf t)) := by
  induction t generalizing v fuel with
  | nil => exact absurd rfl hne
  | cons c t ih =>
      cases hc : isValueChar c with
      | false =>
          have hvalue : valueOf (c :: t) = [] := by simp [valueOf, hc]
          have hbehind : behindValue (c :: t) = c :: t := by simp [behindValue, hc]
          -- the copying stops in front of this character
          rw [whileLoop_false, hvalue, hbehind, List.append_nil]
          · exact (Computes.ok _).congr (iff_of_true ⟨List.cons_ne_nil c t, hv⟩ trivial)
          · exact hleft.inValue.trans hc
      | true =>
          have hvalue : valueOf (c :: t) = c :: valueOf t := by simp [valueOf, hc]
          have hbehind : behindValue (c :: t) = behindValue t := by simp [behindValue, hc]
          -- the character is copied, and the rest by induction
          obtain ⟨fuel, rfl⟩ := Nat.exists_eq_succ_of_ne_zero
            (Nat.ne_of_gt (Nat.lt_of_lt_of_le (Nat.succ_pos t.length) hfuel))
          have hrest (h : v.length < 32 ∧ t ≠ []) := ih (v ++ [c]) hleft.tail h.2
            (by rw [List.length_append]; exact h.1) (Nat.le_of_succ_le_succ hfuel)
          rw [List.length_append, List.append_assoc, List.singleton_append] at hrest
          rw [hvalue, hbehind]
          refine (whileLoop_computes ?_ (copyCharIn_computes hleft v) hrest).congr
            ⟨?_, And.right⟩
          · exact hleft.inValue.trans hc
          · rintro ⟨hend, hlen⟩
            refine ⟨⟨?_, ?_⟩, hend, hlen⟩
            · rw [List.length_append, List.length_cons] at hlen
              omega
            · rintro rfl
              exact hend rfl

/-- A value is copied if the string goes on behind it. -/
theorem copyValueIn_computes (h : Left m tag stagLen t) :
    Computes (copyValueIn m tag stagLen (stagLen - t.length))
      (behindValue t ≠ [] ∧ (valueOf t).length ≤ 32)
      (stagLen - (behindValue t).length, (valueOf t).length, pad 32 (valueOf t)) := by
  have hfuel : t.length ≤ stagLen + 1 := Nat.le_succ_of_le h.length_le
  refine ((stringIn_computes h).bind fun hne =>
    copyLoopIn_computes t [] h hne (Nat.zero_le 32) hfuel).congr ⟨fun hc => ⟨?_, hc⟩, And.right⟩
  rintro rfl
  exact hc.1 rfl

/-- The text without the space it starts with. -/
def skipSpace : List Nat → List Nat
  | [] => []
  | c :: t => if c = SPACE then t else c :: t

theorem Left.behind (h : Left m tag stagLen t) : Left m tag stagLen (behindValue t) :=
  (List.dropWhile_suffix isValueChar).trans h

theorem skipSpace_suffix (t : List Nat) : skipSpace t <:+ t := by
  cases t with
  | nil => exact List.suffix_rfl
  | cons c t =>
      rw [skipSpace]
      split
      · exact List.suffix_cons c t
      · exact List.suffix_rfl

theorem Left.skip (h : Left m tag stagLen t) : Left m tag stagLen (skipSpace t) :=
  (skipSpace_suffix t).trans h

theorem Left.skip_index (h : Left m tag stagLen t) :
    (if t.headD 0 = SPACE then stagLen - t.length + 1 else stagLen - t.length) =
      stagLen - (skipSpace t).length := by
  cases t with
  | nil => rfl
  | cons c t =>
      rw [List.headD_cons, skipSpace, h.index.1]
      split
      · rfl
      · rfl

theorem zero_notMem_valueOf (t : List Nat) : 0 ∉ valueOf t := by
  intro hzero
  have hchar : isValueChar 0 = true := List.all_eq_true.mp List.all_takeWhile 0 hzero
  simp [isValueChar] at hchar

theorem argRow_computes (stagLen : Nat) (t pre : List Nat) (done : List (List Nat × Nat)) :
    Computes (argRow (filled stagLen t pre done)) (done.length < CMDLINE_MAX_ARG)
      (List.replicate CMDLINE_MAX_ARG_LEN 0) := by
  rw [argRow, filled]
  dsimp only
  rw [List.getElem?_append_right (by simp), List.length_map, Nat.sub_self, List.getElem?_replicate]
  by_cases hroom : done.length < CMDLINE_MAX_ARG
  · rw [if_pos (Nat.sub_pos_of_lt hroom)]
    exact (Computes.ok _).congr (iff_of_true hroom trivial)
  · rw [if_neg (by omega)]
    exact (Computes.error _ _).congr (iff_of_false hroom not_false)

/-- At a separator. -/
theorem storeArgIn_computes (h : Left m tag stagLen (c :: t)) (pre : List Nat)
    (done : List (List Nat × Nat)) :
    Computes (storeArgIn m tag stagLen (filled stagLen (c :: t) pre done))
      (pre.length < 64 ∧ done.length < CMDLINE_MAX_ARG ∧ behindValue t ≠ [] ∧
        (valueOf t).length < 32)
      (filled stagLen (skipSpace (behindValue t)) [] (done ++ [entryOf (pre, valueOf t)])) := by
  have hrows := snoc_computes (done.map Prod.fst) CMDLINE_MAX_ARG (rowOf pre)
    (List.replicate CMDLINE_MAX_ARG_LEN 0)
  have hvals := snoc_computes (done.map Prod.snd) CMDLINE_MAX_ARG (numberOf (valueOf t)) 0
  have hcopy := copyValueIn_computes h.tail
  have hread := stringIn_computes h.tail.behind
  have hskip := h.tail.behind.skip_index
  rw [List.length_map] at hrows hvals
  have hfilled : filled stagLen (skipSpace (behindValue t)) [] (done ++ [entryOf (pre, valueOf t)]) =
      { idx := stagLen - (skipSpace (behindValue t)).length
        bdx := 0
        numArgs := done.length + 1
        buf := List.replicate 64 0
        args := done.map Prod.fst ++ [rowOf pre] ++ List.replicate (CMDLINE_MAX_ARG -
          (done.length + 1)) (List.replicate CMDLINE_MAX_ARG_LEN 0)
        vals := done.map Prod.snd ++ [numberOf (valueOf t)] ++
          List.replicate (CMDLINE_MAX_ARG - (done.length + 1)) 0 } := by
    simp [filled, entryOf, pad]
  have hidx : (filled stagLen (c :: t) pre done).idx + 1 = stagLen - t.length := h.index.1
  rw [storeArgIn, hfilled, hidx]
  -- in the order of the code: the NUL behind the key, the row, the key into it, the value, its number,
  -- each with the condition under which it returns
  refine Computes.congr ((putNul_computes 64 pre).bind fun hpre =>
    (argRow_computes stagLen _ pre done).bind fun _ => (Computes.of_eq (strncpy_key hpre)).bind fun _ =>
    hrows.bind (d := (behindValue t ≠ [] ∧ (valueOf t).length ≤ 32) ∧ behindValue t ≠ [] ∧
      (valueOf t).length < 32 ∧ True ∧ done.length < CMDLINE_MAX_ARG) fun _ =>
    hcopy.bind fun _ => hread.bind fun _ => ?_) ?_
  · dsimp only
    rw [hskip]
    exact (putNul_computes 32 (valueOf t)).bind fun hfits =>
      (Computes.of_eq (atou_value (zero_notMem_valueOf t) hfits)).bind fun _ =>
      hvals.map fun vals => Parse.mk _ 0 (done.length + 1) (List.replicate 64 0) _ vals
  · constructor
    · -- some of these conditions are asked for twice, and the last of the value implies the first
      rintro ⟨hpre, hroom, hend, hfits⟩
      exact ⟨hpre, hroom, trivial, hroom, ⟨hend, Nat.le_of_lt hfits⟩, hend, hfits, trivial, hroom⟩
    · rintro ⟨hpre, hroom, -, -, -, hend, hfits, -⟩
      exact ⟨hpre, hroom, hend, hfits⟩

theorem takeCharIn_computes (h : Left m tag stagLen t) (pre : List Nat)
    (done : List (List Nat × Nat)) :
    Computes (takeCharIn m tag stagLen (filled stagLen t pre done)) (t ≠ [] ∧ pre.length < 64)
      (filled stagLen t.tail (pre ++ [t.headD 0]) done) := by
  refine (stringIn_computes h).bind fun hne => ?_
  obtain ⟨c, t, rfl⟩ := List.exists_cons_of_ne_nil hne
  have hnext : filled stagLen t (pre ++ [c]) done =
      { filled stagLen (c :: t) pre done with
        idx := stagLen - (c :: t).length + 1, bdx := pre.length + 1, buf := pad 64 (pre ++ [c]) } := by
    rw [h.index.1]
    simp [filled]
  rw [List.tail_cons, List.headD_cons, hnext]
  exact (put_computes 64 c pre).map fun buf =>
    { filled stagLen (c :: t) pre done with
      idx := stagLen - (c :: t).length + 1, bdx := pre.length + 1, buf }

/-- A character of a key. -/
theorem parseStepIn_key (h : Left m tag stagLen (c :: t)) (hc : c ≠ ARG_SEP) (pre : List Nat)
    (done : List (List Nat × Nat)) :
    Computes (parseStepIn m tag stagLen (filled stagLen (c :: t) pre done)) (pre.length < 64)
      (filled stagLen t (pre ++ [c]) done) := by
  have hread : stringIn m tag stagLen (filled stagLen (c :: t) pre done).idx = .ok c := h.read
  rw [parseStepIn, hread, ok_seq, parseCharIn, if_neg hc, ok_seq]
  exact (takeCharIn_computes h pre done).congr (and_iff_right (List.cons_ne_nil c t)).symm

/-- A separator with its value, and the first character of what follows. -/
theorem parseStepIn_sep (h : Left m tag stagLen (ARG_SEP :: t)) (pre : List Nat)
    (done : List (List Nat × Nat)) :
    Computes (parseStepIn m tag stagLen (filled stagLen (ARG_SEP :: t) pre done))
      ((pre.length < 64 ∧ done.length < CMDLINE_MAX_ARG ∧ behindValue t ≠ [] ∧
        (valueOf t).length < 32) ∧ skipSpace (behindValue t) ≠ [])
      (filled stagLen (skipSpace (behindValue t)).tail [(skipSpace (behindValue t)).headD 0]
        (done ++ [entryOf (pre, valueOf t)])) := by
  have hread : stringIn m tag stagLen (filled stagLen (ARG_SEP :: t) pre done).idx = .ok ARG_SEP :=
    h.read
  rw [parseStepIn, hread, ok_seq, parseCharIn, if_pos rfl]
  exact (storeArgIn_computes h pre done).bind fun _ =>
    (takeCharIn_computes h.tail.behind.skip [] _).congr (and_iff_left (by decide)).symm

/-! ## The whole text

The induction is on the text that is left, and takes a whole argument at a time, so that it needs
the statement for all shorter ends of the text. `Roomy` is the condition with some of the 16 rows used
already. At the end come the rows without a NUL: a key of 16 characters is stored without one, and
the lookups would read on behind it.
-/

theorem tokens_value (key v t : List Nat) :
    tokens (.value key v) t =
      if behindValue t = [] then [.overrun]
      else .arg key (v ++ valueOf t) :: tokens .behind (skipSpace (behindValue t)) := by
  induction t generalizing v with
  | nil => rfl
  | cons c t ih =>
      cases hc : isValueChar c with
      | true =>
          have hvalue : valueOf (c :: t) = c :: valueOf t := by simp [valueOf, hc]
          -- one more character of the value
          have hbehind : behindValue (c :: t) = behindValue t := by simp [behindValue, hc]
          have hchar : c ≠ SPACE ∧ c ≠ 0 := of_decide_eq_true hc
          rw [tokens, if_neg hchar.1, if_neg hchar.2, ih, hvalue, hbehind, List.append_assoc,
            List.singleton_append]
      | false =>
          have hvalue : valueOf (c :: t) = [] := by simp [valueOf, hc]
          -- the value ends: behind it is a space, which is passed over, or the NUL
          have hbehind : behindValue (c :: t) = c :: t := by simp [behindValue, hc]
          have hstop : ¬ (c ≠ SPACE ∧ c ≠ 0) := of_decide_eq_false hc
          rw [tokens, hvalue, hbehind, if_neg (List.cons_ne_nil c t), List.append_nil, skipSpace]
          split
          · rfl
          · next hspace =>
            have hnul : c = 0 := by
              by_contra hne
              exact hstop ⟨hspace, hne⟩
            rw [if_pos hnul, hnul, tokens]

/-- The text of a key, with what is in `buf` already. -/
theorem length_of_fits {t pre : List Nat} (h : ∀ tok ∈ tokens (.key pre) t, tok.Fits) :
    pre.length ≤ 64 := by
  induction t generalizing pre with
  | nil => exact h _ List.mem_cons_self
  | cons c t ih =>
      rw [tokens] at h
      split at h
      · rw [tokens_value] at h
        split at h
        · exact (h _ List.mem_cons_self).elim
        · exact Nat.le_of_lt (h _ List.mem_cons_self).1
      · have hle := ih h
        rw [List.length_append] at hle
        exact Nat.le_of_succ_le hle

/-- Behind a separator. -/
theorem tokens_sep (pre t : List Nat) :
    tokens (.key pre) (ARG_SEP :: t) =
      if behindValue t = [] then [.overrun]
      else if skipSpace (behindValue t) = [] then [.arg pre (valueOf t), .overrun]
      else .arg pre (valueOf t) ::
        tokens (.key [(skipSpace (behindValue t)).headD 0]) (skipSpace (behindValue t)).tail := by
  rw [tokens, if_pos rfl, tokens_value, List.nil_append]
  split
  · rfl
  · cases skipSpace (behindValue t) with
    | nil => rfl
    | cons c u => rfl

theorem tokens_key {s : List Nat} (hs : ARG_SEP ∉ s) (pre t : List Nat) :
    tokens (.key pre) (s ++ t) = tokens (.key (pre ++ s)) t := by
  induction s generalizing pre with
  | nil => rw [List.nil_append, List.append_nil]
  | cons c s ih =>
      rw [List.mem_cons, not_or] at hs
      rw [List.cons_append, tokens, if_neg (Ne.symm hs.1), ih hs.2, List.append_assoc,
        List.singleton_append]

/-- What follows the space behind a value is a key, unless it starts with a separator. -/
theorem tokens_behind {s : List Nat} (hs : ARG_SEP ∉ s) (hne : s ≠ []) (t : List Nat) :
    tokens .behind (s ++ t) = tokens (.key []) (s ++ t) := by
  obtain ⟨c, s, rfl⟩ := List.exists_cons_of_ne_nil hne
  rw [List.mem_cons, not_or] at hs
  rw [List.cons_append, tokens, tokens, if_neg (Ne.symm hs.1), List.nil_append]

/-- A value of digits, up to its end. -/
theorem tokens_digits {v : List Nat} (hv : ∀ c ∈ v, IsDigit c) (key pre t : List Nat) :
    tokens (.value key pre) (v ++ t) = tokens (.value key (pre ++ v)) t := by
  induction v generalizing pre with
  | nil => rw [List.nil_append, List.append_nil]
  | cons c v ih =>
      have hc := hv c List.mem_cons_self
      have hspace : c ≠ SPACE := by
        rintro rfl
        exact absurd hc (by decide)
      have hnul : c ≠ 0 := by
        rintro rfl
        exact absurd hc (by decide)
      rw [List.cons_append, tokens, if_neg hspace, if_neg hnul,
        ih fun c hc => hv c (List.mem_cons_of_mem _ hc), List.append_assoc, List.singleton_append]

/-- A key, its separator and the digits of its value. -/
theorem tokens_pair {key value : List Nat} (hkey : ARG_SEP ∉ key) (hvalue : ∀ c ∈ value, IsDigit c)
    (t : List Nat) :
    tokens (.key []) (key ++ ARG_SEP :: (value ++ t)) = tokens (.value key value) t := by
  rw [tokens_key hkey, List.nil_append, tokens, if_pos rfl, tokens_digits hvalue, List.nil_append]

/-- What the buffers have room for, with some arguments stored. -/
def Roomy (used : Nat) (ts : List Token) : Prop :=
  (∀ tok ∈ ts, tok.Fits) ∧ used + (argsOf ts).length ≤ CMDLINE_MAX_ARG

theorem roomy_arg (used : Nat) (key value : List Nat) (ts : List Token) :
    Roomy used (.arg key value :: ts) ↔
      (key.length < 64 ∧ value.length < 32) ∧ Roomy (used + 1) ts := by
  have hcount : used + ((argsOf ts).length + 1) = used + 1 + (argsOf ts).length := by omega
  rw [Roomy, Roomy, List.forall_mem_cons, argsOf, List.length_cons, hcount, and_assoc]
  rfl

/-- Arguments, one for each element of a list, and a rest. -/
theorem argsOf_map {α : Type} (key value : α → List Nat) (l : List α) (rest : List Nat) :
    argsOf (l.map (fun a => .arg (key a) (value a)) ++ [.rest rest]) =
      l.map fun a => (key a, value a) := by
  induction l with
  | nil => rfl
  | cons a l ih => rw [List.map_cons, List.cons_append, argsOf_arg, ih, List.map_cons]

theorem roomy_map {α : Type} (key value : α → List Nat) {l : List α} (rest : List Nat)
    (hcount : l.length ≤ CMDLINE_MAX_ARG) :
    Roomy 0 (l.map (fun a => .arg (key a) (value a)) ++ [.rest rest]) ↔
      (∀ a ∈ l, (key a).length < 64 ∧ (value a).length < 32) ∧ rest.length ≤ 64 := by
  rw [Roomy, argsOf_map, List.length_map, Nat.zero_add, and_iff_left hcount, List.forall_mem_append,
    List.forall_mem_map, List.forall_mem_singleton]
  rfl

theorem not_roomy {used : Nat} {ts : List Token} (h : .overrun ∈ ts) : ¬ Roomy used ts :=
  fun hroomy => hroomy.1 _ h

/-- What the loop computes in front of `t`, whatever part of a key is in `buf` and whatever is stored. -/
def LoopComputes (m : Memory) (tag stagLen : Nat) (t : List Nat) : Prop :=
  ∀ pre done fuel, Left m tag stagLen t → pre.length ≤ 64 → done.length ≤ CMDLINE_MAX_ARG →
    t.length ≤ fuel →
    Computes (whileLoop .neverEnds (fun s => decide (s.idx < stagLen)) (parseStepIn m tag stagLen) fuel
        (filled stagLen t pre done))
      (Roomy done.length (tokens (.key pre) t))
      (filled stagLen [] (restOf (tokens (.key pre) t))
        (done ++ (argsOf (tokens (.key pre) t)).map entryOf))

theorem LoopComputes.nil : LoopComputes m tag stagLen [] := by
  intro pre done fuel _ hpre hdone _
  have hroomy : Roomy done.length [.rest pre] := by
    refine ⟨fun tok htok => ?_, hdone⟩
    obtain rfl := List.mem_singleton.mp htok
    exact hpre
  have hstate : filled stagLen [] pre (done ++ []) = filled stagLen [] pre done := by
    rw [List.append_nil]
  rw [whileLoop_false]
  · exact hstate ▸ (Computes.ok _).congr (iff_of_true hroomy trivial)
  · exact decide_eq_false (Nat.lt_irrefl stagLen)

theorem loop_running {pre : List Nat} {done : List (List Nat × Nat)}
    (h : Left m tag stagLen (c :: t)) :
    decide ((filled stagLen (c :: t) pre done).idx < stagLen) = true :=
  decide_eq_true h.index.2

/-- At a character of a key. -/
theorem LoopComputes.key (hc : c ≠ ARG_SEP) (h : LoopComputes m tag stagLen t) :
    LoopComputes m tag stagLen (c :: t) := by
  intro pre done fuel hleft _ hdone hfuel
  obtain ⟨fuel, rfl⟩ := Nat.exists_eq_succ_of_ne_zero
    (Nat.ne_of_gt (Nat.lt_of_lt_of_le (Nat.succ_pos t.length) hfuel))
  have hlonger : (pre ++ [c]).length = pre.length + 1 := List.length_append
  have hrest (hroom : pre.length < 64) := h (pre ++ [c]) done fuel hleft.tail
    (hlonger.trans_le hroom) hdone (Nat.le_of_succ_le_succ hfuel)
  rw [tokens, if_neg hc]
  refine (whileLoop_computes ?_ (parseStepIn_key hleft hc pre done) hrest).congr
    ⟨fun hroomy => ⟨?_, hroomy⟩, And.right⟩
  · exact loop_running hleft
  · have hle := length_of_fits hroomy.1
    rwa [hlonger] at hle

/-- At a separator. -/
theorem LoopComputes.sep (h : ∀ u, u <:+ t → LoopComputes m tag stagLen u) :
    LoopComputes m tag stagLen (ARG_SEP :: t) := by
  intro pre done fuel hleft _ _ hfuel
  obtain ⟨fuel, rfl⟩ := Nat.exists_eq_succ_of_ne_zero
    (Nat.ne_of_gt (Nat.lt_of_lt_of_le (Nat.succ_pos t.length) hfuel))
  have hstep := parseStepIn_sep hleft pre done
  rw [tokens_sep]
  by_cases hgood : behindValue t ≠ [] ∧ skipSpace (behindValue t) ≠ []
  · -- the argument fits, and the loop goes on behind it with a shorter text
    obtain ⟨d, u, hu⟩ := List.exists_cons_of_ne_nil hgood.2
    have hskip := hleft.tail.behind.skip
    have hsuffix : d :: u <:+ t :=
      hu ▸ (skipSpace_suffix _).trans (List.dropWhile_suffix isValueChar)
    have hshort : u.length < t.length := hsuffix.length_le
    have hone : [d].length ≤ 64 := (by decide : 1 ≤ 64)
    have hentry : (done ++ [entryOf (pre, valueOf t)]).length = done.length + 1 := List.length_append
    rw [hu] at hstep hskip ⊢
    have hrest (hroom : done.length < CMDLINE_MAX_ARG) :=
      h u ((List.suffix_cons d u).trans hsuffix) [d] (done ++ [entryOf (pre, valueOf t)]) fuel
        hskip.tail hone (hentry.trans_le hroom) (hshort.le.trans (Nat.le_of_succ_le_succ hfuel))
    rw [hentry] at hrest
    rw [if_neg hgood.1, if_neg (List.cons_ne_nil d u), argsOf_arg, restOf_arg, List.map_cons,
      List.append_cons, roomy_arg]
    refine (whileLoop_computes ?_ hstep fun hnext => hrest hnext.1.2.1).congr ⟨?_, ?_⟩
    · exact loop_running hleft
    · -- what is left of the arguments counts from one more
      rintro ⟨⟨hkey, hvalue⟩, hroomy⟩
      have hroom := hroomy.2
      exact ⟨⟨⟨hkey, by omega, hgood.1, hvalue⟩, List.cons_ne_nil d u⟩, hroomy⟩
    · rintro ⟨⟨⟨hkey, -, -, hvalue⟩, -⟩, hroomy⟩
      exact ⟨⟨hkey, hvalue⟩, hroomy⟩
  · -- the string ends inside the value or behind its space
    have hstuck := hstep.of_not (fun hnext => hgood ⟨hnext.1.2.2.1, hnext.2⟩) not_false
      (filled stagLen (ARG_SEP :: t) pre done)
    refine (whileLoop_computes (d := False) ?_ hstuck fun hnext => hnext.elim).congr
      (iff_of_false ?_ fun hnext => hnext.1)
    · exact loop_running hleft
    · refine not_roomy ?_
      rw [not_and_or, not_not, not_not] at hgood
      split
      · exact List.mem_cons_self
      · next hend =>
        rw [if_pos (hgood.resolve_left hend)]
        simp

/-- What the loop computes in front of every part of the text. -/
theorem loopComputes (m : Memory) (tag stagLen : Nat) (t : List Nat) :
    ∀ u, u <:+ t → LoopComputes m tag stagLen u := by
  induction t with
  | nil =>
      intro u hu
      obtain rfl := List.suffix_nil.mp hu
      exact .nil
  | cons c t ih =>
      intro u hu
      rcases List.suffix_cons_iff.mp hu with rfl | hrest
      · by_cases hc : c = ARG_SEP
        · subst hc
          exact .sep ih
        · exact .key hc (ih t List.suffix_rfl)
      · exact ih u hrest

/-- The tables with these rows and numbers. -/
def tablesOf (entries : List (List Nat × Nat)) : Cmdline where
  args := entries.map Prod.fst ++
    List.replicate (CMDLINE_MAX_ARG - entries.length) (List.replicate CMDLINE_MAX_ARG_LEN 0)
  vals := entries.map Prod.snd ++ List.replicate (CMDLINE_MAX_ARG - entries.length) 0
  numArgs := entries.length

/-- What the parser makes of the text. -/
theorem cmdlineParseIn_computes (h : stagLenOf m tag < 2 ^ 31) :
    Computes (cmdlineParseIn m tag) (Roomy 0 (textTokens m tag))
      (tablesOf ((argsOf (textTokens m tag)).map entryOf), (argsOf (textTokens m tag)).length) := by
  rw [cmdlineParseIn, textTokens]
  generalize stagLenOf m tag = n at h ⊢
  split
  · next hempty =>
    obtain rfl : n = 0 := hempty.resolve_right (Nat.not_le.mpr h)
    have hroomy : Roomy 0 [.rest []] := by simp [Roomy, Token.Fits, argsOf]
    exact (Computes.ok _).congr (iff_of_true hroomy trivial)
  · have hlen := length_payload m tag n
    have hloop := loopComputes m tag n _ (payload m tag n) List.suffix_rfl [] [] (n + 1)
      List.suffix_rfl (Nat.zero_le 64) (Nat.zero_le 16) (hlen.trans_le (Nat.le_succ n))
    have hstart : filled n (payload m tag n) [] [] =
        ⟨0, 0, 0, List.replicate 64 0, cmdlineCleared.args, cmdlineCleared.vals⟩ := by
      rw [filled, hlen, Nat.sub_self]
      rfl
    have hmap := hloop.map fun s => (Cmdline.mk s.args s.vals s.numArgs, s.numArgs)
    rw [hstart, List.nil_append] at hmap
    rw [← List.length_map entryOf]
    exact hmap

/-- Room for everything, and for the NUL of every key that is stored. -/
structure Contained (ts : List Token) : Prop where
  fits : ∀ tok ∈ ts, tok.Fits
  count : (argsOf ts).length ≤ CMDLINE_MAX_ARG
  keys : ∀ p ∈ argsOf ts, (textOf p.1).length < CMDLINE_MAX_ARG_LEN

instance (ts : List Token) : Decidable (Contained ts) :=
  decidable_of_iff ((∀ tok ∈ ts, tok.Fits) ∧ (argsOf ts).length ≤ CMDLINE_MAX_ARG ∧
      ∀ p ∈ argsOf ts, (textOf p.1).length < CMDLINE_MAX_ARG_LEN)
    ⟨fun h => ⟨h.1, h.2.1, h.2.2⟩, fun h => ⟨h.fits, h.count, h.keys⟩⟩

theorem rowOf_length (key : List Nat) : (rowOf key).length = CMDLINE_MAX_ARG_LEN := by
  have hle := length_textOf_le key
  rw [rowOf]
  split
  · next hshort => simp [pad, hshort.le]
  · next hlong =>
    rw [List.length_take]
    omega

/-- A row has a NUL if there is room for it. -/
theorem zero_mem_rowOf (key : List Nat) :
    0 ∈ rowOf key ↔ (textOf key).length < CMDLINE_MAX_ARG_LEN := by
  rw [rowOf]
  split
  · next hshort =>
    rw [pad_eq hshort]
    exact iff_of_true (by simp) hshort
  · next hlong =>
    refine iff_of_false (fun hmem => ?_) hlong
    have hpre : key.take CMDLINE_MAX_ARG_LEN <+: textOf key :=
      List.prefix_of_prefix_length_le (List.take_prefix _ key) (List.takeWhile_prefix _)
        ((List.length_take_le _ key).trans (Nat.not_lt.mp hlong))
    exact zero_notMem_textOf key (hpre.subset hmem)

theorem tablesOf_row {entries : List (List Nat × Nat)} {i : Nat} (hi : i < entries.length) :
    (tablesOf entries).args[i]? = some entries[i].1 := by
  rw [tablesOf, List.getElem?_append_left (by simpa using hi), List.getElem?_map,
    List.getElem?_eq_getElem hi]
  rfl

theorem tablesOf_val {entries : List (List Nat × Nat)} {i : Nat} (hi : i < entries.length) :
    (tablesOf entries).vals[i]? = some entries[i].2 := by
  rw [tablesOf, List.getElem?_append_left (by simpa using hi), List.getElem?_map,
    List.getElem?_eq_getElem hi]
  rfl

/-- The rows of keys that there was room for, and no others, are strings. -/
theorem rows_closed_iff (args : List (List Nat × List Nat)) :
    (∀ i, i < args.length → ∃ row, (tablesOf (args.map entryOf)).args[i]? = some row ∧
        row.length = CMDLINE_MAX_ARG_LEN ∧ 0 ∈ row) ↔
      ∀ p ∈ args, (textOf p.1).length < CMDLINE_MAX_ARG_LEN := by
  have hrow (i : Nat) (hi : i < args.length) :
      (tablesOf (args.map entryOf)).args[i]? = some (rowOf args[i].1) := by
    rw [tablesOf_row (by rwa [List.length_map]), List.getElem_map, entryOf_fst]
  constructor
  · intro h p hp
    obtain ⟨i, hi, rfl⟩ := List.getElem_of_mem hp
    obtain ⟨row, hget, -, hzero⟩ := h i hi
    obtain rfl := Option.some.inj ((hrow i hi).symm.trans hget)
    exact (zero_mem_rowOf _).mp hzero
  · intro h i hi
    exact ⟨_, hrow i hi, rowOf_length _, (zero_mem_rowOf _).mpr (h _ (List.getElem_mem hi))⟩

theorem contained_iff (ts : List Token) :
    Contained ts ↔ Roomy 0 ts ∧ ∀ p ∈ argsOf ts, (textOf p.1).length < CMDLINE_MAX_ARG_LEN := by
  rw [Roomy, Nat.zero_add]
  exact ⟨fun h => ⟨⟨h.fits, h.count⟩, h.keys⟩, fun h => ⟨h.1.1, h.1.2, h.2⟩⟩

theorem cmdlineParseIn_huge (h : 2 ^ 31 ≤ stagLenOf m tag) :
    cmdlineParseIn m tag = .ok (cmdlineCleared, 0) := by
  rw [cmdlineParseIn, if_pos (Or.inr h)]

/-- A text that is looked at. -/
theorem parsesInside_iff (h : stagLenOf m tag < 2 ^ 31) :
    ParsesInside m tag ↔ Contained (textTokens m tag) := by
  have hparse := cmdlineParseIn_computes h
  rw [contained_iff, ← rows_closed_iff]
  generalize textTokens m tag = ts at hparse ⊢
  constructor
  · rintro ⟨c, n, hrun, -, hrows⟩
    have hroomy := hparse.needs _ hrun
    obtain ⟨rfl, rfl⟩ := Prod.mk.inj (Except.ok.inj ((hparse.returns hroomy).symm.trans hrun))
    exact ⟨hroomy, hrows⟩
  · rintro ⟨hroomy, hrows⟩
    have hrun := hparse.returns hroomy
    exact ⟨_, _, hrun, cmdlineParseIn_ok hrun, hrows⟩

/-- For every tag, the parser stays inside its buffers if and only if the text is so long that it is
not looked at, or is cut into keys, values and a rest that have room, at most sixteen of them, with
room for the NUL of every key, and does not end in a value or behind its space. -/
theorem cmdlineParse_inside_iff (m : Memory) (tag : Nat) :
    ParsesInside m tag ↔ 2 ^ 31 ≤ stagLenOf m tag ∨ Contained (textTokens m tag) := by
  rcases Nat.lt_or_ge (stagLenOf m tag) (2 ^ 31) with hlt | hge
  · rw [parsesInside_iff hlt, or_iff_right (Nat.not_le.mpr hlt)]
  · have hrun := cmdlineParseIn_huge hge
    refine iff_of_true ⟨_, _, hrun, cmdlineParseIn_ok hrun, fun i hi => ?_⟩ (Or.inl hge)
    exact absurd hi (Nat.not_lt_zero i)

/-- A tag with this text, at address 0. -/
def tagWith (text : List Nat) : Memory := fun x =>
  BitVec.ofNat 8 (([1, 0, 0, 0, 8 + text.length, 0, 0, 0] ++ text).getD x 0)

/-- `a=` sixteen times and once more, a key of 64 characters and one of sixteen, a value of 32, and a
value at the end of the string, without a NUL. -/
theorem cmdlineParse_not_inside :
    ¬ ParsesInside (tagWith ((List.replicate 17 [97, 61, 32]).flatten ++ [0])) 0 ∧
      ¬ ParsesInside (tagWith (List.replicate 64 97 ++ [61, 49, 0])) 0 ∧
      ¬ ParsesInside (tagWith (List.replicate 16 97 ++ [61, 49, 0])) 0 ∧
      ¬ ParsesInside (tagWith ([97, 61] ++ List.replicate 32 49 ++ [0])) 0 ∧
      ¬ ParsesInside (tagWith [97, 61, 49]) 0 := by
  have houtside {m : Memory} (hsmall : stagLenOf m 0 < 2 ^ 31) (hnot : ¬ Contained (textTokens m 0)) :
      ¬ ParsesInside m 0 :=
    fun h => hnot ((parsesInside_iff hsmall).mp h)
  exact ⟨houtside (by decide +kernel) (by decide +kernel),
    houtside (by decide +kernel) (by decide +kernel),
    houtside (by decide +kernel) (by decide +kernel),
    houtside (by decide +kernel) (by decide +kernel),
    houtside (by decide +kernel) (by decide +kernel)⟩

end Twos.Boot
