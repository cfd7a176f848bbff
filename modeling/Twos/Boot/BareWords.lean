import Twos.Boot.Arguments

/-!
# Bare words and extra spaces

A line `k1=v1 k2=v2 ...` with words and spaces inserted at the borders of its arguments. One space
between two arguments is passed over, and everything else that stands in front of a key is taken for
a part of it, so that the key is stored under another name; what stands behind the last value only has
to fit into `buf`.

A `Line` is the arguments with what is inserted, and `Line.plain` the same arguments without it. The
tokens of a line are its arguments, each under what stands in front of its key and the key together
(`tokens_args`), and so a lookup reads the tables of a list of names, `tablesFor`. A row with a space
in it is no key (`rowOf_space`, `argMatches_stem`), hence a lookup sees exactly the arguments that
`Line.seen` keeps. `Line.Undisturbed` says when these give the values of the plain line, and the two
directions of the equivalence are `SameValues.undisturbed` and `Line.Undisturbed.sameValues`.
-/

namespace Twos.Boot

open Lib Kstd

/-! ## Lines -/

/-- Spaces, and words that are shorter than a row of `args`. -/
structure Filler (g : List Nat) : Prop where
  noNul : 0 ∉ g
  noSep : ARG_SEP ∉ g
  words : ∀ w, w <:+: g → SPACE ∉ w → w.length < CMDLINE_MAX_ARG_LEN

/-- An argument, and what is inserted in front of it. -/
structure Inserted where
  before : List Nat
  key : List Nat
  value : List Nat
  filler : Filler before
  apart : before = [] ∨ before.getLast? = some SPACE
  isKey : IsKey key
  digits : ∀ c ∈ value, IsDigit c
  nonempty : value ≠ []

/-- A line of arguments, with what is inserted in front of each and behind the last. -/
structure Line where
  args : List Inserted
  behind : List Nat
  nonempty : args ≠ []
  count : args.length ≤ CMDLINE_MAX_ARG
  filler : Filler behind
  apart : behind = [] ∨ behind.head? = some SPACE

/-- The text of some arguments. -/
def argsText : List Inserted → List Nat → List Nat
  | [], behind => behind
  | a :: more, behind =>
      a.before ++ (a.key ++ ARG_SEP :: (a.value ++
        if more = [] then behind else SPACE :: argsText more behind))

/-- The text of a line. -/
def Line.text (l : Line) : List Nat := argsText l.args l.behind

theorem filler_nil : Filler [] where
  noNul := List.not_mem_nil
  noSep := List.not_mem_nil
  words w hw _ := by
    obtain rfl := List.infix_nil.mp hw
    decide

/-- The argument with nothing in front of it. -/
def Inserted.plain (a : Inserted) : Inserted :=
  { a with before := [], filler := filler_nil, apart := Or.inl rfl }

/-- The line before anything is inserted. -/
def Line.plain (l : Line) : Line where
  args := l.args.map Inserted.plain
  behind := []
  nonempty := by simpa using l.nonempty
  count := by simpa using l.count
  filler := filler_nil
  apart := Or.inl rfl

/-! ## The parts of a line -/

/-- The text before the separator of an argument. -/
def Inserted.stem (a : Inserted) : List Nat := a.before ++ a.key

theorem Inserted.stem_noSep (a : Inserted) : ARG_SEP ∉ a.stem := by
  rw [stem, List.mem_append, not_or]
  exact ⟨a.filler.noSep, a.isKey.noSep⟩

theorem Inserted.stem_ne_nil (a : Inserted) : a.stem ≠ [] := by
  rw [stem, Ne, List.append_eq_nil_iff]
  exact fun h => a.isKey.nonempty h.2

theorem argsText_cons (a : Inserted) (more : List Inserted) (behind : List Nat) :
    argsText (a :: more) behind = a.stem ++ ARG_SEP :: (a.value ++
      if more = [] then behind else SPACE :: argsText more behind) := by
  rw [argsText, Inserted.stem, List.append_assoc]

/-- What the parser cuts the text of arguments into. -/
theorem tokens_args {args : List Inserted} {behind : List Nat} (hne : args ≠ [])
    (hsep : ARG_SEP ∉ behind) (hapart : behind = [] ∨ behind.head? = some SPACE) :
    tokens (.key []) (argsText args behind ++ [0]) =
      args.map (fun a => .arg a.stem a.value) ++ [.rest (behind.tail ++ [0])] := by
  induction args with
  | nil => exact absurd rfl hne
  | cons a more ih =>
      rw [argsText_cons, List.append_assoc, List.cons_append, List.append_assoc,
        tokens_pair a.stem_noSep a.digits]
      cases more with
      | nil =>
          -- the last argument: what is behind it starts with a space, and is only copied
          rw [if_pos rfl]
          rcases hapart with rfl | hspace
          · rfl
          · obtain ⟨g, rfl⟩ : ∃ g, behind = SPACE :: g := by
              cases behind with
              | nil => cases hspace
              | cons c g => exact ⟨g, by rw [Option.some.inj hspace]⟩
            have hrest : ARG_SEP ∉ g ++ [0] := by
              rw [List.mem_append, not_or]
              exact ⟨fun h => hsep (List.mem_cons_of_mem _ h), by decide⟩
            have hend := tokens_key hrest [] []
            have hskip := tokens_behind hrest (by simp) []
            rw [List.append_nil, List.nil_append] at hend
            rw [List.append_nil] at hskip
            rw [List.cons_append, tokens, if_pos rfl, hskip, hend]
            rfl
      | cons b more =>
          -- one space is taken with the value, and the rest belongs to the next key
          have hhead : argsText (b :: more) behind ++ [0] = b.stem ++ (ARG_SEP :: (b.value ++
              if more = [] then behind else SPACE :: argsText more behind) ++ [0]) := by
            rw [argsText_cons, List.append_assoc]
          rw [if_neg (List.cons_ne_nil b more), List.cons_append, tokens, if_pos rfl, hhead,
            tokens_behind b.stem_noSep b.stem_ne_nil, ← hhead, ih (List.cons_ne_nil b more)]
          rfl

/-! ## What the parser makes of a line -/

variable {m m' : Memory} {tag tag' : Nat}

/-- The buffers have room for a line. -/
def Line.Fits (l : Line) : Prop :=
  (∀ a ∈ l.args, a.stem.length < 64 ∧ a.value.length < 32) ∧ l.behind.tail.length < 64

/-- The tables for some arguments. -/
def tablesFor (args : List Inserted) : Cmdline :=
  tablesOf (args.map fun a => entryOf (a.stem, a.value))

theorem Line.tokens_eq (l : Line) (h : HoldsText m tag l.text) :
    textTokens m tag =
      l.args.map (fun a => .arg a.stem a.value) ++ [.rest (l.behind.tail ++ [0])] := by
  rw [textTokens, h.payload_eq]
  exact tokens_args l.nonempty l.filler.noSep l.apart

theorem Line.roomy_iff (l : Line) :
    Roomy 0 (l.args.map (fun a => .arg a.stem a.value) ++ [.rest (l.behind.tail ++ [0])]) ↔
      l.Fits := by
  rw [roomy_map Inserted.stem Inserted.value _ l.count, Line.Fits, List.length_append]
  rfl

/-- A line that is looked at is parsed if the buffers have room for it. -/
theorem Line.parse_computes (l : Line) (h : HoldsText m tag l.text)
    (hshort : l.text.length + 1 < 2 ^ 31) :
    Computes (cmdlineParse m tag) l.Fits (tablesFor l.args, l.args.length) := by
  have hparse := cmdlineParseIn_computes (h.stagLen ▸ hshort)
  rw [l.tokens_eq h, argsOf_map Inserted.stem Inserted.value, List.map_map, List.length_map] at hparse
  exact ⟨fun hfits => cmdlineParseIn_ok (hparse.returns (l.roomy_iff.mpr hfits)),
    fun r hr => l.roomy_iff.mp (hparse.needs r (cmdlineParseIn_of h.nul hr))⟩

theorem Line.parse_long (l : Line) (h : HoldsText m tag l.text)
    (hlong : 2 ^ 31 ≤ l.text.length + 1) : cmdlineParse m tag = .ok (cmdlineCleared, 0) := by
  have hhuge : 2 ^ 31 ≤ stagLenOf m tag := h.stagLen ▸ hlong
  rw [cmdlineParse, if_pos (Or.inr hhuge)]

/-! ## Looking up

What is inserted in front of a key becomes a part of the name under which the number is stored.
There is a space in it, and a key has none, so it is never found by a lookup; the arguments with
nothing in front of them are (`Line.seen`).
-/

/-- A string with a space in it is no key. -/
theorem strcmp_space {s w : List Nat} (hs : 0 ∉ s) (hspace : SPACE ∉ s) (hw : 0 ∉ w)
    (rest u : List Nat) : ∃ r, strcmp (s ++ 0 :: rest) (w ++ SPACE :: u) = .ok r ∧ r ≠ 0 := by
  have hdiffer {x y : Nat} (hxy : x ≠ y) (xs ys : List Nat) :
      ∃ r, strcmp (x :: xs) (y :: ys) = .ok r ∧ r ≠ 0 := by
    rw [strcmp, if_neg fun h => hxy h.2.2, if_neg hxy]
    split
    · exact ⟨-1, rfl, by decide⟩
    · exact ⟨1, rfl, by decide⟩
  induction s generalizing w with
  | nil =>
      -- the row is the key's beginning, and goes on with a space where the key ends
      cases w with
      | nil => exact hdiffer (by decide) _ _
      | cons y w =>
          rw [List.mem_cons, not_or] at hw
          exact hdiffer hw.1 _ _
  | cons x s ih =>
      -- the same character in both, or the first difference
      rw [List.mem_cons, not_or] at hs hspace
      cases w with
      | nil => exact hdiffer (Ne.symm hspace.1) _ _
      | cons y w =>
          rw [List.mem_cons, not_or] at hw
          by_cases hxy : x = y
          · rw [List.cons_append, List.cons_append, strcmp,
              if_pos ⟨Ne.symm hs.1, Ne.symm hw.1, hxy⟩]
            exact ih hs.2 hspace.2 hw.2
          · exact hdiffer hxy _ _

/-- A short word and a space fit into a row, whatever follows. -/
theorem rowOf_space {w u : List Nat} (hw : 0 ∉ w) (hshort : w.length < CMDLINE_MAX_ARG_LEN) :
    ∃ u', rowOf (w ++ SPACE :: u) = w ++ SPACE :: u' := by
  have htext : textOf (w ++ SPACE :: u) = w ++ SPACE :: textOf u := by
    induction w with
    | nil => rw [List.nil_append, List.nil_append, textOf_cons (by decide)]
    | cons c w ih =>
        rw [List.mem_cons, not_or] at hw
        rw [List.cons_append, textOf_cons (Ne.symm hw.1), ih hw.2 (Nat.lt_of_succ_lt hshort),
          List.cons_append]
  rw [rowOf]
  split
  · exact ⟨_, by rw [htext, pad, List.append_assoc, List.cons_append]⟩
  · refine ⟨u.take (CMDLINE_MAX_ARG_LEN - (w.length + 1)), ?_⟩
    have hone : CMDLINE_MAX_ARG_LEN - w.length = CMDLINE_MAX_ARG_LEN - (w.length + 1) + 1 := by
      have hlt : w.length < 16 := hshort
      lia
    rw [List.take_append, List.take_of_length_le hshort.le, hone, List.take_succ_cons]

/-- This is the key, and nothing stands in front of it. -/
def Inserted.isNamed (k : List Nat) (a : Inserted) : Bool :=
  decide (a.before = []) && decide (k = a.key)

/-- The row of an argument is found by its key if nothing stands in front of it. -/
theorem argMatches_stem (a : Inserted) {k : List Nat} (hk : IsKey k) (rest : List Nat) :
    argMatches (k ++ 0 :: rest) (rowOf a.stem) = .ok (a.isNamed k) := by
  rw [Inserted.isNamed]
  by_cases hbefore : a.before = []
  · have hrow : rowOf a.stem = pad CMDLINE_MAX_ARG_LEN a.key := by
      rw [Inserted.stem, hbefore, List.nil_append, rowOf_short a.isKey.noNul a.isKey.fits]
    rw [hrow, argMatches_spec a.isKey hk.noNul]
    simp [hbefore]
  · have hmem : SPACE ∈ a.before := List.mem_of_getLast? (a.apart.resolve_left hbefore)
    obtain ⟨w, u, hsplit, hword⟩ := List.eq_append_cons_of_mem hmem
    have hwNul : 0 ∉ w := fun h => a.filler.noNul (hsplit ▸ List.mem_append_left _ h)
    have hwShort : w.length < CMDLINE_MAX_ARG_LEN :=
      a.filler.words w ⟨[], SPACE :: u, by rw [hsplit, List.nil_append]⟩ hword
    obtain ⟨u', hrow⟩ := @rowOf_space w (u ++ a.key) hwNul hwShort
    have hstem : a.stem = w ++ SPACE :: (u ++ a.key) := by
      rw [Inserted.stem, hsplit, List.append_assoc, List.cons_append]
    obtain ⟨r, hr, hne⟩ := strcmp_space hk.noNul hk.noSpace hwNul rest u'
    rw [hstem, hrow, argMatches, hr, ok_seq, decide_eq_false hbefore, Bool.false_and,
      decide_eq_false hne]
    split
    · rfl
    · rfl

/-- The number that is stored for an argument. -/
def Inserted.number (a : Inserted) : Nat := digitsVal a.value % 2 ^ 32

/-- The number for a key: that of the first of these arguments with this key. -/
def valueIn (args : List Inserted) (k : List Nat) : Nat :=
  match args.find? fun a => decide (k = a.key) with
  | some a => a.number
  | none => CMDLINE_NO_ARG

/-- The arguments that are stored under their names. -/
def Line.seen (l : Line) : List Inserted :=
  if 2 ^ 31 ≤ l.text.length + 1 then [] else l.args.filter fun a => decide (a.before = [])

/-- The parser comes to an end. -/
def Line.Taken (l : Line) : Prop := 2 ^ 31 ≤ l.text.length + 1 ∨ l.Fits

theorem tablesFor_getarg {args : List Inserted} (hcount : args.length ≤ CMDLINE_MAX_ARG)
    {k : List Nat} (hk : IsKey k) (rest : List Nat) :
    cmdlineGetarg (tablesFor args) (k ++ 0 :: rest) =
      .ok (valueIn (args.filter fun a => decide (a.before = [])) k) := by
  have hlen : (args.map fun a => entryOf (a.stem, a.value)).length = args.length := List.length_map _
  have hrow (i : Nat) (hi : i < args.length) : (tablesFor args).args[i]? = some (rowOf args[i].stem) := by
    rw [tablesFor, tablesOf_row (hlen.symm ▸ hi), List.getElem_map, entryOf_fst]
  have hval (i : Nat) (hi : i < args.length) :
      (tablesFor args).vals[i]? = some args[i].number := by
    rw [tablesFor, tablesOf_val (hlen.symm ▸ hi), List.getElem_map, entryOf, numberOf,
      if_pos args[i].digits, Inserted.number]
  have hfound : (fun a : Inserted => decide (decide (a.before = []) = true ∧
      decide (k = a.key) = true)) = Inserted.isNamed k := by
    funext a
    simp [Inserted.isNamed]
  rw [cmdlineGetarg_find (fun i hi => ⟨_, hrow i hi, argMatches_stem args[i] hk rest⟩) hval hlen hcount,
    valueIn, List.find?_filter, hfound]
  cases args.find? (Inserted.isNamed k) with
  | none => rfl
  | some a => rfl

/-- What a lookup finds once a line is parsed. -/
theorem Line.getarg (l : Line) (h : HoldsText m tag l.text) {c : Cmdline} {n : Nat}
    (hparse : cmdlineParse m tag = .ok (c, n)) {k : List Nat} (hk : IsKey k) (rest : List Nat) :
    cmdlineGetarg c (k ++ 0 :: rest) = .ok (valueIn l.seen k) := by
  rw [Line.seen]
  split
  · next hlong =>
    obtain ⟨rfl, rfl⟩ := Prod.mk.inj (Except.ok.inj (hparse.symm.trans (l.parse_long h hlong)))
    rfl
  · next hshort =>
    have hline := l.parse_computes h (Nat.not_le.mp hshort)
    obtain ⟨rfl, rfl⟩ := Prod.mk.inj
      (Except.ok.inj (hparse.symm.trans (hline.returns (hline.needs _ hparse))))
    exact tablesFor_getarg l.count hk rest

theorem Line.taken_iff (l : Line) (h : HoldsText m tag l.text) :
    (∃ c n, cmdlineParse m tag = .ok (c, n)) ↔ l.Taken := by
  by_cases hlong : 2 ^ 31 ≤ l.text.length + 1
  · exact iff_of_true ⟨_, _, l.parse_long h hlong⟩ (Or.inl hlong)
  · have hline := l.parse_computes h (Nat.not_le.mp hlong)
    rw [Line.Taken, or_iff_right hlong]
    exact ⟨fun ⟨c, n, hrun⟩ => hline.needs _ hrun, fun hfits => ⟨_, _, hline.returns hfits⟩⟩

/-! ## Two lines

The plain line and the line with insertions are parsed apart from each other, and compared by what
the lookups find in each. Where the second one does not fit into the buffers the two cannot agree,
unless both are so long that the parser does nothing.
-/

/-- Both lines are parsed, and every key of the first has the same value in the second. -/
def SameValues (m : Memory) (tag : Nat) (m' : Memory) (tag' : Nat) (l : Line) : Prop :=
  ∃ c n c' n', cmdlineParse m tag = .ok (c, n) ∧ cmdlineParse m' tag' = .ok (c', n') ∧
    ∀ a ∈ l.args, ∀ rest, ∃ v, cmdlineGetarg c (a.key ++ 0 :: rest) = .ok v ∧
      cmdlineGetarg c' (a.key ++ 0 :: rest) = .ok v

/-- Both lines are taken, and for every key the first argument with nothing in front of it has the value
of the first argument. -/
structure Line.Undisturbed (l : Line) : Prop where
  plain : l.plain.Taken
  taken : l.Taken
  found : ∀ a ∈ l.args, valueIn l.seen a.key = valueIn l.plain.seen a.key

variable {l : Line}

theorem SameValues.undisturbed (h : SameValues m tag m' tag' l) (hplain : HoldsText m tag l.plain.text)
    (hline : HoldsText m' tag' l.text) : l.Undisturbed := by
  obtain ⟨c, n, c', n', hrun, hrun', hsame⟩ := h
  refine ⟨(l.plain.taken_iff hplain).mp ⟨c, n, hrun⟩, (l.taken_iff hline).mp ⟨c', n', hrun'⟩, ?_⟩
  intro a ha
  obtain ⟨v, hv, hv'⟩ := hsame a ha []
  rw [l.plain.getarg hplain hrun a.isKey] at hv
  rw [l.getarg hline hrun' a.isKey] at hv'
  exact Except.ok.inj (hv'.trans hv.symm)

theorem Line.Undisturbed.sameValues (h : l.Undisturbed) (hplain : HoldsText m tag l.plain.text)
    (hline : HoldsText m' tag' l.text) : SameValues m tag m' tag' l := by
  obtain ⟨c, n, hrun⟩ := (l.plain.taken_iff hplain).mpr h.plain
  obtain ⟨c', n', hrun'⟩ := (l.taken_iff hline).mpr h.taken
  refine ⟨c, n, c', n', hrun, hrun', fun a ha rest => ⟨_, l.plain.getarg hplain hrun a.isKey rest, ?_⟩⟩
  rw [l.getarg hline hrun' a.isKey, h.found a ha]

/-- For every line and everything that is inserted at the borders of its arguments, the lookups return
the same values as before if and only if both lines are parsed and no key is disturbed: of the
arguments with this key, the first one with nothing in front of it has the value of the first one. -/
theorem bareWords_harmless_iff (hplain : HoldsText m tag l.plain.text)
    (hline : HoldsText m' tag' l.text) : SameValues m tag m' tag' l ↔ l.Undisturbed :=
  ⟨fun h => h.undisturbed hplain hline, fun h => h.sameValues hplain hline⟩

theorem filler_of_short {g : List Nat} (hnul : 0 ∉ g) (hsep : ARG_SEP ∉ g)
    (hshort : g.length < CMDLINE_MAX_ARG_LEN) : Filler g :=
  ⟨hnul, hsep, fun _ hw _ => Nat.lt_of_le_of_lt hw.length_le hshort⟩

/-- `dbg=1`, with this in front of it. -/
def dbgArg (before : List Nat) (hfiller : Filler before)
    (hapart : before = [] ∨ before.getLast? = some SPACE) : Inserted where
  before
  key := [100, 98, 103]
  value := [49]
  filler := hfiller
  apart := hapart
  isKey := ⟨by decide, by decide, by decide, by decide, by decide⟩
  digits := by decide
  nonempty := by decide

/-- `vga=20`. -/
def vgaArg : Inserted where
  before := []
  key := [118, 103, 97]
  value := [50, 48]
  filler := filler_nil
  apart := Or.inl rfl
  isKey := ⟨by decide, by decide, by decide, by decide, by decide⟩
  digits := by decide
  nonempty := by decide

/-- `quiet`, and a space. -/
def quietWord : List Nat := [113, 117, 105, 101, 116, SPACE]

theorem quietWord_filler : Filler quietWord := filler_of_short (by decide) (by decide) (by decide)

/-- `dbg=1 vga=20 quiet dbg=7 quiet `: what is inserted stands behind the last argument, and in front of
one whose key has a value already. -/
def quietBehind : Line where
  args := [dbgArg [] filler_nil (Or.inl rfl), vgaArg,
    { dbgArg quietWord quietWord_filler (Or.inr rfl) with
      value := [55], digits := by decide, nonempty := by decide }]
  behind := SPACE :: quietWord
  nonempty := List.cons_ne_nil _ _
  count := Nat.le_of_ble_eq_true rfl
  filler := filler_of_short (by decide) (by decide) (by decide)
  apart := Or.inr rfl

theorem bareWords_harmless_behind :
    SameValues (tagWith (quietBehind.plain.text ++ [0])) 0 (tagWith (quietBehind.text ++ [0])) 0
      quietBehind := by
  have hfound : ∀ a ∈ quietBehind.args,
      valueIn quietBehind.seen a.key = valueIn quietBehind.plain.seen a.key := by
    intro a ha
    rcases List.mem_cons.mp ha with rfl | ha
    · decide +kernel
    · rcases List.mem_cons.mp ha with rfl | ha
      · decide +kernel
      · rw [List.mem_singleton.mp ha]
        decide +kernel
  exact (bareWords_harmless_iff ⟨by decide +kernel, by decide +kernel⟩
    ⟨by decide +kernel, by decide +kernel⟩).mpr
    ⟨Or.inr ⟨by decide +kernel, by decide +kernel⟩, Or.inr ⟨by decide +kernel, by decide +kernel⟩,
      hfound⟩

/-- `quiet dbg=1`. -/
def quietBefore : Line where
  args := [dbgArg quietWord quietWord_filler (Or.inr rfl)]
  behind := []
  nonempty := List.cons_ne_nil _ _
  count := Nat.le_of_ble_eq_true rfl
  filler := filler_nil
  apart := Or.inl rfl

/-- Behind `quiet`, there is no `dbg`. -/
theorem bareWords_not_harmless :
    HoldsText (tagWith [100, 98, 103, 61, 49, 0]) 0 quietBefore.plain.text ∧
      HoldsText (tagWith [113, 117, 105, 101, 116, 32, 100, 98, 103, 61, 49, 0]) 0 quietBefore.text ∧
      ¬ SameValues (tagWith [100, 98, 103, 61, 49, 0]) 0
        (tagWith [113, 117, 105, 101, 116, 32, 100, 98, 103, 61, 49, 0]) 0 quietBefore := by
  have hplain : HoldsText (tagWith [100, 98, 103, 61, 49, 0]) 0 quietBefore.plain.text :=
    ⟨by decide, by decide⟩
  have hline : HoldsText (tagWith [113, 117, 105, 101, 116, 32, 100, 98, 103, 61, 49, 0]) 0
      quietBefore.text := ⟨by decide, by decide⟩
  refine ⟨hplain, hline, fun h => ?_⟩
  have hfound := (h.undisturbed hplain hline).found _ List.mem_cons_self
  exact absurd hfound (by decide)

end Twos.Boot
