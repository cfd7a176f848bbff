import Twos.Kstd.Bounds

/-!
# The text that is printed

A format of plain characters and conversions without flags, and the text that one expects of it: the
characters as they are and, for each conversion, what its argument looks like. `vsnprintf` leaves
this text while `strncat`, which keeps the length of the text so far in 32 bits, finds its end.

* `directives_formatOf` takes such a format apart, and `spec_pieces` prints one of its conversions, so
  that the strings that are printed add up to the expected text (`prints_items`).
* `appendTexts_iff` is about `__sprint` alone: strings are appended one behind the other as long as all
  of them but the last stay below 4 GiB. `Call.composes_iff_appends` ties it to the run of `vsnprintf`,
  and what is left is to say it of the format and its arguments (`vsnprintf_composes_iff`).
-/

namespace Twos.Kstd

open Lib

/-! ## Formats

Here a format is given by what it is meant to be, a list of plain characters and conversions, and
the expected text by concatenation. Nothing of `__vprintf` is in these definitions.
-/

/-- A conversion, written without flags or width. -/
inductive Spec where
  | i
  | d
  | u
  | x
  | b
  | C
  | c
  | s
  | lx
  | lX
  | lu
  | ld
  | li
  | lb
  deriving DecidableEq, Repr

/-- What stands behind the `'%'`. -/
def Spec.letters : Spec → List Nat
  | .i => [105]
  | .d => [100]
  | .u => [117]
  | .x => [120]
  | .b => [98]
  | .C => [67]
  | .c => [99]
  | .s => [115]
  | .lx => [108, 120]
  | .lX => [108, 88]
  | .lu => [108, 117]
  | .ld => [108, 100]
  | .li => [108, 105]
  | .lb => [108, 98]

/-- What the argument has to be. -/
def Spec.kind : Spec → ArgKind
  | .s => .str
  | .lx => .long
  | .lX => .long
  | .lu => .long
  | .ld => .long
  | .li => .long
  | .lb => .long
  | _ => .int

/-- The text that a function has put into a cleared `ub`. -/
def textIn : Except Fault (List Nat) → List Nat
  | .ok ub => textOf ub
  | .error _ => []

/-- What an argument looks like. -/
def Spec.rendering : Spec → Arg → List Nat
  | .x, .int a => [48, 120] ++ textIn (itoa a.toInt ubCleared 16)
  | .b, .int a => (texts (intBits a 31 true)).flatten
  | .C, .int a => (texts (intBits a (getHighestBit a * 8) true)).flatten
  | .c, .int a => textOf [a.toNat % 256, 0]
  | _, .int a => textIn (itoa a.toInt ubCleared 10)
  | .lx, .long a => textIn (ltoa a.toNat ubCleared 16)
  | .lX, .long a => textIn (ltoa a.toNat ubCleared 16)
  | .lb, .long a => (texts (longBits a)).flatten
  | _, .long a => textIn (ltoa a.toNat ubCleared 10)
  | _, .str text => textOf (text ++ [0])

/-- A part of a format: a plain character, or a conversion. -/
inductive Item where
  | char (ch : Nat)
  | spec (k : Spec)
  deriving DecidableEq

def Item.chars : Item → List Nat
  | .char ch => [ch]
  | .spec k => 37 :: k.letters

/-- The format that is made of these parts. -/
def formatOf (items : List Item) : List Nat := items.flatMap Item.chars

/-- A plain character is neither the NUL nor a `'%'`. -/
def Item.Plain : Item → Prop
  | .char ch => ch ≠ 0 ∧ ch ≠ 37
  | .spec _ => True

instance : (item : Item) → Decidable item.Plain
  | .char ch => inferInstanceAs (Decidable (ch ≠ 0 ∧ ch ≠ 37))
  | .spec _ => isTrue trivial

/-- The arguments are those of the conversions. -/
def Given : List Item → List Arg → Prop
  | [], args => args = []
  | .char _ :: items, args => Given items args
  | .spec k :: items, args => ∃ a rest, args = a :: rest ∧ a.kind = k.kind ∧ Given items rest

/-- The text that is expected: every argument once, in order. -/
def expected : List Item → List Arg → List Nat
  | [], _ => []
  | .char ch :: items, args => ch :: expected items args
  | .spec k :: items, a :: args => k.rendering a ++ expected items args
  | .spec _ :: items, [] => expected items []

/-- How many characters stand behind the last conversion, of `lit` before the first. -/
def lastLiteral (lit : Nat) : List Item → Nat
  | [] => lit
  | .char _ :: items => lastLiteral (lit + 1) items
  | .spec _ :: items => lastLiteral 0 items

/-! ## What `__vprintf` makes of them

Writing the items out and cutting the text up again gives one part for each item, so the strings
that are handed to `__sprint` are known, and their concatenation is the expected text.
-/

/-- The case of the `switch`. -/
def Spec.conv : Spec → Conv
  | .x => .hex
  | .b => .bits
  | .C => .compact
  | .c => .char
  | .s => .str
  | .lx => .longHex
  | .lX => .longHex
  | .lu => .longDec
  | .ld => .longDec
  | .li => .longDec
  | .lb => .longBits
  | _ => .dec

def Item.directive : Item → Directive
  | .char ch => .char ch
  | .spec k => .conv k.conv

variable {items : List Item} {args more : List Arg} {lit : List Nat} {n : Nat}

theorem directives_spec (k : Spec) (t : List Nat) :
    directives (37 :: k.letters ++ t) = .conv k.conv :: directives t := by
  cases k with
  | _ =>
      rw [Spec.letters, List.cons_append, directives]
      simp [flags, convAt, skipAt, toChar, Conv.of, Conv.lastFmtLen, Spec.conv]

/-- The loop finds the parts of which the format is made. -/
theorem directives_formatOf (h : ∀ item ∈ items, item.Plain) :
    directives (formatOf items) = items.map Item.directive := by
  induction items with
  | nil => rw [formatOf, List.flatMap_nil, directives, List.map_nil]
  | cons item items ih =>
      have hrest := ih fun item hitem => h item (List.mem_cons_of_mem _ hitem)
      rw [formatOf, List.flatMap_cons, ← formatOf, List.map_cons, ← hrest]
      cases item with
      | char ch =>
          have hplain : ch ≠ 37 := (h _ List.mem_cons_self).2
          rw [Item.chars, List.singleton_append, directives, if_pos hplain, Item.directive]
      | spec k => exact directives_spec k _

theorem formatOf_nonzero (h : ∀ item ∈ items, item.Plain) : 0 ∉ formatOf items := by
  intro hmem
  obtain ⟨item, hitem, hzero⟩ := List.mem_flatMap.mp hmem
  cases item with
  | char ch => exact (h _ hitem).1 (List.mem_singleton.mp hzero).symm
  | spec k =>
      revert hzero
      cases k <;> decide

theorem texts_ub {x : Except Fault (List Nat)} {ub : List Nat} (h : x = .ok ub) :
    (texts [⟨true, ub⟩]).flatten = textIn x := by
  rw [h]
  simp [texts, textIn]

/-- What a conversion prints is what its argument looks like. -/
theorem spec_pieces (k : Spec) {a : Arg} (ha : a.kind = k.kind) (rest : List Arg) :
    ∃ pieces, k.conv.pieces [0] (a :: rest) = .ok (pieces, rest) ∧
      (texts pieces).flatten = k.rendering a := by
  -- what the conversion makes of its argument, in the base and the digits of its rendering
  cases a with
  | int a =>
      obtain ⟨dec, hdec, -⟩ := itoa_spec a (by decide : 10 ≤ 10 ∧ 10 ≤ 36)
      obtain ⟨hex, hhex, -⟩ := itoa_spec a (by decide : 10 ≤ 16 ∧ 16 ≤ 36)
      have hrun : Conv.dec.pieces [0] (.int a :: rest) = .ok ([⟨true, pad 32 dec⟩], rest) := by
        rw [Conv.pieces, vaInt, ok_seq]
        simp only [hdec]
        rfl
      cases k with
      | i => exact ⟨_, hrun, texts_ub hdec⟩
      | d => exact ⟨_, hrun, texts_ub hdec⟩
      | u => exact ⟨_, hrun, texts_ub hdec⟩
      | x =>
          refine ⟨[Piece.lit true [48, 120], ⟨true, pad 32 hex⟩], ?_, ?_⟩
          · rw [Spec.conv, Conv.pieces, vaInt, ok_seq]
            simp only [hhex]
            rfl
          · rw [Spec.rendering, ← texts_ub hhex]
            simp [texts, Piece.lit, textOf]
      | b => exact ⟨_, rfl, rfl⟩
      | C => exact ⟨_, rfl, rfl⟩
      | c => exact ⟨_, rfl, by simp [texts, Spec.rendering]⟩
      | _ => cases ha
  | long a =>
      obtain ⟨dec, hdec, -⟩ := ltoa_spec a (by decide : 10 ≤ 10 ∧ 10 ≤ 16)
      obtain ⟨hex, hhex, -⟩ := ltoa_spec a (by decide : 10 ≤ 16 ∧ 16 ≤ 16)
      have hrun : Conv.longDec.pieces [0] (.long a :: rest) = .ok ([⟨true, pad 32 dec⟩], rest) := by
        rw [Conv.pieces, vaLong, ok_seq]
        simp only [hdec]
        rfl
      have hrun' : Conv.longHex.pieces [0] (.long a :: rest) = .ok ([⟨true, pad 32 hex⟩], rest) := by
        rw [Conv.pieces, vaLong, ok_seq]
        simp only [hhex]
        rfl
      cases k with
      | lx => exact ⟨_, hrun', texts_ub hhex⟩
      | lX => exact ⟨_, hrun', texts_ub hhex⟩
      | lu => exact ⟨_, hrun, texts_ub hdec⟩
      | ld => exact ⟨_, hrun, texts_ub hdec⟩
      | li => exact ⟨_, hrun, texts_ub hdec⟩
      | lb => exact ⟨_, rfl, rfl⟩
      | _ => cases ha
  | str text =>
      cases k with
      | s => exact ⟨_, rfl, by simp [texts, Spec.rendering]⟩
      | _ => cases ha

/-- The strings that are handed to `__sprint`, of which the last has what is behind the last
conversion. -/
theorem prints_items (hargs : Given items args) (lit : List Nat) (more : List Arg) :
    ∃ ps last, Prints (items.map Item.directive) lit (args ++ more) (ps ++ [last]) more ∧
      (ps ++ [last]).flatten = lit ++ expected items args ∧
      last.length = lastLiteral lit.length items := by
  induction items generalizing args lit with
  | nil =>
      obtain rfl : args = [] := hargs
      exact ⟨[], lit, .nil, by simp [expected], rfl⟩
  | cons item items ih =>
      cases item with
      | char ch =>
          obtain ⟨ps, last, hprints, htext, hlast⟩ := ih hargs (lit ++ [ch])
          refine ⟨ps, last, .char hprints, ?_, ?_⟩
          · rw [htext, expected, List.append_assoc, List.singleton_append]
          · rw [hlast, lastLiteral, List.length_append, List.length_singleton]
      | spec k =>
          obtain ⟨a, rest, rfl, hkind, hrest⟩ := hargs
          obtain ⟨pieces, hpieces, hrendering⟩ := spec_pieces k hkind (rest ++ more)
          obtain ⟨ps, last, hprints, htext, hlast⟩ := ih hrest []
          refine ⟨lit :: texts pieces ++ ps, last, ?_, ?_, hlast⟩
          · rw [List.append_assoc]
            exact .conv hpieces hprints
          · rw [List.append_assoc, List.flatten_append, htext, List.flatten_cons, hrendering,
              expected, List.nil_append, List.append_assoc]

/-! ## Where `strncat` finds the end

`__sprint` appends with lengths of 32 bits, so behind 4 GiB of text the end that it finds is not the
end. A text that is too short once stays too short, since no string adds more than its own length;
hence all strings but the last have to end below 4 GiB.
-/

/-- Behind a text of less than 4 GiB a string is appended as it should be. -/
theorem appendText_plain {text str : List Nat} (hshort : text.length < 2 ^ 32)
    (hroom : text.length + str.length < n) : appendText n text str = some (text ++ str) := by
  have hcount : appendCount n text.length str.length = str.length := by
    rw [appendCount, Nat.min_eq_right (by omega), catCount, ite_self]
  rw [appendText, hcount, Nat.mod_eq_of_lt hshort, if_pos hroom, List.take_length, List.take_length]

/-- No string makes a text longer than it is long, and not even that behind 4 GiB. -/
theorem appendText_le {text str text' : List Nat} (h : appendText n text str = some text') :
    text'.length ≤ text.length + str.length ∧
      (2 ^ 32 ≤ text.length → text'.length < text.length + str.length) := by
  have hlen := appendText_length n text str
  rw [h, Option.map_some, appended] at hlen
  have hcount := appendCount_le n text.length str.length
  have hmod := Nat.mod_lt text.length (by decide : 2 ^ 32 > 0)
  have hle := Nat.mod_le text.length (2 ^ 32)
  split at hlen
  · rw [Option.some.injEq] at hlen
    exact ⟨by omega, by omega⟩
  · cases hlen

theorem appendTexts_plain {ps : List (List Nat)} {text : List Nat}
    (hshort : text.length + ps.flatten.length < 2 ^ 32)
    (hroom : text.length + ps.flatten.length < n) :
    ps.foldlM (appendText n) text = some (text ++ ps.flatten) := by
  induction ps generalizing text with
  | nil => simp
  | cons p ps ih =>
      rw [List.flatten_cons, List.length_append] at hshort hroom
      rw [List.foldlM_cons, appendText_plain (by omega) (by omega)]
      simp only [Option.bind_eq_bind, Option.bind_some]
      rw [ih (by rw [List.length_append]; omega) (by rw [List.length_append]; omega),
        List.flatten_cons, List.append_assoc]

theorem appendTexts_le {ps : List (List Nat)} {text text' : List Nat}
    (h : ps.foldlM (appendText n) text = some text') :
    text'.length ≤ text.length + ps.flatten.length := by
  induction ps generalizing text with
  | nil =>
      obtain rfl := Option.some.inj h
      exact Nat.le_add_right _ _
  | cons p ps ih =>
      rw [List.foldlM_cons] at h
      obtain ⟨mid, hmid, hrest⟩ := Option.bind_eq_some_iff.mp h
      have hfirst := (appendText_le hmid).1
      have hothers := ih hrest
      rw [List.flatten_cons, List.length_append]
      omega

/-- The strings end up one behind the other if and only if the last one starts below 4 GiB. -/
theorem appendTexts_iff {ps : List (List Nat)} {last : List Nat}
    (hroom : (ps ++ [last]).flatten.length < n) :
    (ps ++ [last]).foldlM (appendText n) [] = some (ps ++ [last]).flatten ↔
      ps.flatten.length < 2 ^ 32 := by
  have hflat : (ps ++ [last]).flatten = ps.flatten ++ last := by simp
  rw [hflat] at hroom ⊢
  rw [List.length_append] at hroom
  rw [List.foldlM_append]
  constructor
  · intro h
    refine Decidable.byContradiction fun hlong => ?_
    obtain ⟨mid, hmid, hlast⟩ := Option.bind_eq_some_iff.mp h
    rw [List.foldlM_cons] at hlast
    obtain ⟨text, htext, hnil⟩ := Option.bind_eq_some_iff.mp hlast
    obtain rfl := Option.some.inj hnil
    have hlen := appendTexts_le hmid
    obtain ⟨hle, hlt⟩ := appendText_le htext
    rw [List.length_nil, Nat.zero_add] at hlen
    rw [List.length_append] at hle hlt
    rcases Nat.lt_or_ge mid.length (2 ^ 32) with hmidlt | hmidge
    · -- the text in front of the last string was short, and so were the strings
      omega
    · -- it was not, so `strncat` has put the last string into the middle of it
      have := hlt hmidge
      omega
  · intro hshort
    have hfirst := @appendTexts_plain n ps [] (by rwa [List.length_nil, Nat.zero_add])
      (by rw [List.length_nil]; omega)
    rw [hfirst]
    simp only [Option.bind_eq_bind, Option.bind_some, List.nil_append, List.foldlM_cons,
      appendText_plain hshort hroom, List.foldlM_nil]
    rfl

/-! ## The whole run

The run leaves what appending the strings leaves, so the question is only whether the last of them
starts below 4 GiB, which can be read off the expected text and the characters behind the last
conversion.
-/

/-- `vsnprintf` returns with the expected text in its buffer, and `__vprintf` has taken the arguments
of the format and none behind them. -/
def Composes (stack s : List Nat) (n : Nat) (items : List Item) (args more : List Arg) : Prop :=
  ∃ s' st ret, writeBytes s 0 (List.replicate n 0) = .ok s' ∧
    vprintf stack (formatOf items) s' n (args ++ more) = .ok st ∧ st.args = more ∧
    vsnprintf stack s n (formatOf items) (args ++ more) = .ok (st.bufOut, ret) ∧
    textOf st.bufOut = expected items args

/-- A format and what is passed with it: the buffer of `__vprintf` and that of the output have their
sizes, there is room for the text, and the arguments are those of the conversions. -/
structure Call (stack s : List Nat) (n : Nat) (items : List Item) (args : List Arg) : Prop where
  stack : stack.length = PRINTF_BUF
  room : s.length = n
  plain : ∀ item ∈ items, item.Plain
  short : (formatOf items).length < PRINTF_BUF
  given : Given items args
  fits : (expected items args).length < n

variable {stack s : List Nat}

/-- What a call leaves is what its strings make when they are appended one by one. -/
theorem Call.composes_iff_appends (h : Call stack s n items args) (more : List Arg) :
    ∃ ps last, (ps ++ [last]).flatten = expected items args ∧
      last.length = lastLiteral 0 items ∧
      (Composes stack s n items args more ↔
        (ps ++ [last]).foldlM (appendText n) [] = some (expected items args)) := by
  obtain ⟨ps, last, hprints, htext, hlast⟩ := prints_items h.given [] more
  rw [← directives_formatOf h.plain] at hprints
  have hpos : 0 < n := Nat.zero_lt_of_lt h.fits
  obtain ⟨s', hclear, hholds⟩ := clear_output h.room hpos
  have hfmt : IsFormat (formatOf items) := ⟨formatOf_nonzero h.plain, h.short⟩
  have hrun := vprintf_delivers h.stack hfmt.hasRoom hholds hprints
  have hinside : Directive.overrun ∉ directives (formatOf items) := by
    -- the conversions have no flags, so the format does not end in one
    rw [directives_formatOf h.plain, List.mem_map]
    rintro ⟨item, -, heq⟩
    cases item <;> cases heq
  refine ⟨ps, last, htext, hlast, ?_, fun hfold => ?_⟩
  · rintro ⟨s'', st, ret, hclear', hst, -, -, htextOf⟩
    obtain rfl := Except.ok.inj (hclear.symm.trans hclear')
    -- a run that returns has found room for each string
    cases hfold : (ps ++ [last]).foldlM (appendText n) [] with
    | none =>
        rw [hrun.stops (.inr hfold)] at hst
        cases hst
    | some text =>
        obtain ⟨st', hst', hheld, -⟩ := hrun.fits hinside text hfold
        obtain rfl := Except.ok.inj (hst'.symm.trans hst)
        obtain ⟨tail, hsplit⟩ := hheld.split
        rw [← htextOf, hsplit, textOf_append hheld.nonzero]
  · obtain ⟨st, hst, hheld, hargs⟩ := hrun.fits hinside _ hfold
    obtain ⟨tail, hsplit⟩ := hheld.split
    refine ⟨s', st, (BitVec.ofNat 32 st.total).toInt, hclear, hst, hargs, ?_, ?_⟩
    · rw [vsnprintf, hclear, ok_seq, hst, ok_seq]
    · rw [hsplit, textOf_append hheld.nonzero]

/-- A text that is printed as expected starts its last literal below 4 GiB. -/
theorem Call.short_of_composes (h : Call stack s n items args) {more : List Arg}
    (hcomposes : Composes stack s n items args more) :
    (expected items args).length < 2 ^ 32 + lastLiteral 0 items := by
  obtain ⟨ps, last, htext, hlast, hiff⟩ := h.composes_iff_appends more
  have hfits := h.fits
  rw [← htext] at hfits
  rw [hiff, ← htext, appendTexts_iff hfits] at hcomposes
  rw [← htext, ← hlast, List.flatten_append, List.length_append, List.flatten_singleton]
  exact Nat.add_lt_add_right hcomposes _

theorem Call.composes_of_short (h : Call stack s n items args) (more : List Arg)
    (hshort : (expected items args).length < 2 ^ 32 + lastLiteral 0 items) :
    Composes stack s n items args more := by
  obtain ⟨ps, last, htext, hlast, hiff⟩ := h.composes_iff_appends more
  have hfits := h.fits
  rw [← htext] at hfits
  rw [hiff, ← htext, appendTexts_iff hfits]
  rw [← htext, ← hlast, List.flatten_append, List.length_append, List.flatten_singleton] at hshort
  exact Nat.lt_of_add_lt_add_right hshort

/-- For every format of plain characters and conversions, `vsnprintf` prints what is expected if and
only if what is printed up to the last conversion is shorter than 4 GiB. The arguments of the
conversions are taken once and in order, and what is passed behind them stays where it is. -/
theorem vsnprintf_composes_iff (h : Call stack s n items args) (more : List Arg) :
    Composes stack s n items args more ↔
      (expected items args).length < 2 ^ 32 + lastLiteral 0 items :=
  ⟨h.short_of_composes, h.composes_of_short more⟩

/-- `"%s=%x%c"`, with a character behind the conversions. -/
theorem vsnprintf_composes_usual :
    Composes (List.replicate PRINTF_BUF 0) (List.replicate 32 0) 32
        [.spec .s, .char 61, .spec .x, .spec .c, .char 10] [.str [99, 114], .int 255, .int 59] [] ↔
      (expected [.spec .s, .char 61, .spec .x, .spec .c, .char 10]
        [.str [99, 114], .int 255, .int 59]).length <
          2 ^ 32 + lastLiteral 0 [.spec .s, .char 61, .spec .x, .spec .c, .char 10] := by
  refine vsnprintf_composes_iff ⟨List.length_replicate, List.length_replicate, by decide, by decide,
    ?_, by decide +kernel⟩ []
  exact ⟨_, _, rfl, rfl, _, _, rfl, rfl, _, _, rfl, rfl, rfl⟩

/-! ## A string and nothing else -/

theorem expected_str {text : List Nat} (hzero : 0 ∉ text) :
    expected [.spec .s] [.str text] = text := by
  rw [expected, expected, Spec.rendering, textOf_append hzero, List.append_nil]

theorem call_str {text : List Nat} (hzero : 0 ∉ text) (hroom : text.length < n) :
    Call (List.replicate PRINTF_BUF 0) (List.replicate n 0) n [.spec .s] [.str text] where
  stack := List.length_replicate
  room := List.length_replicate
  plain := by decide
  short := by decide
  given := ⟨.str text, [], rfl, rfl, rfl⟩
  fits := by rwa [expected_str hzero]

/-- With `"%s"`, a string of 4 GiB is lost: the empty literal behind it is appended to what
`strncat` takes for an empty text. -/
theorem vsnprintf_not_composes :
    Call (List.replicate PRINTF_BUF 0) (List.replicate (2 ^ 32 + 10) 0) (2 ^ 32 + 10) [.spec .s]
        [.str (List.replicate (2 ^ 32) 97)] ∧
      ¬ Composes (List.replicate PRINTF_BUF 0) (List.replicate (2 ^ 32 + 10) 0) (2 ^ 32 + 10)
        [.spec .s] [.str (List.replicate (2 ^ 32) 97)] [] := by
  have hzero : 0 ∉ List.replicate (2 ^ 32) 97 := fun hmem => by
    cases List.eq_of_mem_replicate hmem
  have hcall := @call_str (2 ^ 32 + 10) _ hzero (by rw [List.length_replicate]; decide)
  refine ⟨hcall, fun hcomposes => ?_⟩
  have hshort := hcall.short_of_composes hcomposes
  rw [expected_str hzero, List.length_replicate] at hshort
  exact absurd hshort (by decide)

end Twos.Kstd
