import Twos.Kstd.Output

/-!
# Formats

A format is what `__vprintf` makes of it: characters and conversions, up to where it runs over the
end, if it does. `Prints` says which strings are handed to `__sprint` for a format and its arguments,
and the run of `vsnprintf` appends these, one behind the other.

`pieces_cases` is what is used of the conversions: their strings have a NUL, and the ones that are not
counted in the total are the digits of binary numerals. `prints_of_matches` says that arguments of the
right kinds are enough for every conversion to print something, and so for the whole format.
-/

namespace Twos.Kstd

open Lib

/-! ## The parts of a format

A format is cut where the loop of `__vprintf` cuts it: into literal characters and conversions, and
into an overrun where a `'%'` has no character behind it. `Prints` is what those parts come to with
arguments that match them, as a relation that does not mention the loop's state.
-/

/-- A part of a format. `overrun` is where the scan leaves the format. -/
inductive Directive where
  | char (ch : Nat)
  | conv (conv : Conv)
  | overrun
  deriving DecidableEq

/-- The characters before the character of a conversion, its `'%'` included. -/
def flags (t : List Nat) : Nat := (t.takeWhile fun ch => decide (toChar ch < 58)).length

/-- The conversion at the start of what is left of a format. -/
def convAt (t : List Nat) : Conv := Conv.of (t.getD (flags t) 0) (t.getD (flags t + 1) 0)

/-- How far it takes the index. -/
def skipAt (t : List Nat) : Nat := (convAt t).lastFmtLen (flags t) + 1

/-- The parts, from the first on. -/
def directives : List Nat → List Directive
  | [] => []
  | ch :: t =>
      if ch ≠ 37 then .char ch :: directives t
      else if flags (ch :: t) = (ch :: t).length then [.overrun]
      else .conv (convAt (ch :: t)) ::
        if skipAt (ch :: t) ≤ (ch :: t).length then directives ((ch :: t).drop (skipAt (ch :: t)))
        else [.overrun]
termination_by t => t.length
decreasing_by
  · simp
  · simp only [List.length_drop, List.length_cons, skipAt]
    omega

/-- What a conversion takes from the arguments. -/
inductive ArgKind where
  | int
  | long
  | str
  deriving DecidableEq

/-- What an argument is. -/
def Arg.kind : Arg → ArgKind
  | .int _ => .int
  | .long _ => .long
  | .str _ => .str

/-- The argument of a conversion, if it has one. -/
def Conv.takes : Conv → Option ArgKind
  | .float => none
  | .longFloat => none
  | .unknown => none
  | .str => some .str
  | .longBits => some .long
  | .longHex => some .long
  | .longDec => some .long
  | .long => some .long
  | _ => some .int

/-- A conversion whose strings are not counted. -/
def Conv.isBinary : Conv → Bool
  | .bits => true
  | .byte => true
  | .compact => true
  | .longBits => true
  | _ => false

/-- The arguments match the conversions, in order. There may be more of them. -/
def Matches : List Directive → List Arg → Prop
  | [], _ => True
  | .char _ :: ds, args => Matches ds args
  | .overrun :: ds, args => Matches ds args
  | .conv conv :: ds, args =>
      match conv.takes with
      | none => Matches ds args
      | some kind => ∃ a rest, args = a :: rest ∧ a.kind = kind ∧ Matches ds rest

/-- The texts of some pieces. -/
def texts (pieces : List Piece) : List (List Nat) := pieces.map fun p => textOf p.str

/-- The texts that are printed, with the characters `lit` collected before, and the arguments that
are left. -/
inductive Prints : List Directive → List Nat → List Arg → List (List Nat) → List Arg → Prop
  | nil {lit : List Nat} {args : List Arg} : Prints [] lit args [lit] args
  | char {ch : Nat} {ds : List Directive} {lit : List Nat} {args rest : List Arg}
      {ps : List (List Nat)} :
      Prints ds (lit ++ [ch]) args ps rest → Prints (.char ch :: ds) lit args ps rest
  | conv {conv : Conv} {ds : List Directive} {lit : List Nat} {args args' rest : List Arg}
      {pieces : List Piece} {ps : List (List Nat)} :
      conv.pieces [0] args = .ok (pieces, args') → Prints ds [] args' ps rest →
      Prints (.conv conv :: ds) lit args (lit :: texts pieces ++ ps) rest
  | overrun {ds : List Directive} {lit : List Nat} {args : List Arg} :
      Prints (.overrun :: ds) lit args [] args

/-! ## Pieces

What a conversion hands to `__sprint` is a list of strings that are all counted, or the prefix and
the bits of a binary numeral, none of which is. Both printing within bounds and counting go by these
two cases.
-/

theorem lit_string (counted : Bool) (text : List Nat) : 0 ∈ (Piece.lit counted text).str := by
  simp [Piece.lit]

theorem bitPieces_strings (bit spaced : Nat → Bool) (i : Nat) :
    ∀ p ∈ bitPieces bit spaced i, 0 ∈ p.str := by
  have hat (i : Nat) : ∀ p ∈ bitPieces.bitAt bit spaced i, 0 ∈ p.str := by
    unfold bitPieces.bitAt
    refine List.forall_mem_cons.mpr ⟨lit_string _ _, ?_⟩
    split
    · exact List.forall_mem_singleton.mpr (lit_string _ _)
    · exact List.forall_mem_nil _
  induction i with
  | zero => exact hat 0
  | succ i ih => exact List.forall_mem_append.mpr ⟨hat (i + 1), ih⟩

/-- A binary numeral: a prefix, and a zero or the bits. -/
theorem numeral_strings {isZero : Prop} [Decidable isZero] (text : List Nat)
    (bit spaced : Nat → Bool) (h : Nat) :
    ∀ p ∈ Piece.lit false [48, 98] ::
      if isZero then [Piece.lit false text] else bitPieces bit spaced h, 0 ∈ p.str := by
  refine List.forall_mem_cons.mpr ⟨lit_string _ _, ?_⟩
  split
  · exact List.forall_mem_singleton.mpr (lit_string _ _)
  · exact bitPieces_strings bit spaced h

theorem intBits_strings (num : BitVec 32) (highestBit : Nat) (space : Bool) :
    ∀ p ∈ intBits num highestBit space, 0 ∈ p.str :=
  numeral_strings [48] _ _ highestBit

theorem longBits_strings (num : BitVec 64) : ∀ p ∈ longBits num, 0 ∈ p.str :=
  numeral_strings [48, 48, 48, 48] _ _ 63

theorem zero_mem_pad {n : Nat} {text : List Nat} (h : text.length < n) : 0 ∈ pad n text := by
  rw [pad_eq h]
  simp

/-- A number in `ub` is a string. -/
theorem itoa_string {a : BitVec 32} {base : Nat} {ub : List Nat} (hbase : 10 ≤ base ∧ base ≤ 36)
    (h : itoa a.toInt ubCleared base = .ok ub) : 0 ∈ ub := by
  obtain ⟨text, hrun, hlen, -⟩ := itoa_spec a hbase
  obtain rfl := Except.ok.inj (hrun.symm.trans h)
  exact zero_mem_pad hlen

theorem ltoa_string {a : BitVec 64} {base : Nat} {ub : List Nat} (hbase : 10 ≤ base ∧ base ≤ 16)
    (h : ltoa a.toNat ubCleared base = .ok ub) : 0 ∈ ub := by
  obtain ⟨text, hrun, hlen, -⟩ := ltoa_spec a hbase
  obtain rfl := Except.ok.inj (hrun.symm.trans h)
  exact zero_mem_pad hlen

/-- What a conversion prints: strings that are counted, or a binary numeral. -/
theorem pieces_cases {conv : Conv} {buf : List Nat} {args args' : List Arg} {pieces : List Piece}
    (hbuf : 0 ∈ buf) (h : conv.pieces buf args = .ok (pieces, args')) :
    (conv.isBinary = false ∧ ∀ p ∈ pieces, p.counted = true ∧ 0 ∈ p.str) ∨
      conv.isBinary = true ∧
        ((∃ num space, ∃ highest ∈ [31, 7, getHighestBit num * 8],
            pieces = intBits num highest space) ∨
          ∃ num, pieces = longBits num) := by
  -- what each conversion takes from the arguments, and what it makes of that
  cases conv with
  | dec | hex =>
      obtain ⟨⟨a, rest⟩, -, h⟩ := seq_ok.mp h
      obtain ⟨ub, hub, h⟩ := seq_ok.mp h
      cases h
      exact Or.inl ⟨rfl, by simpa [Piece.lit] using itoa_string (by decide) hub⟩
  | longHex | longDec | long =>
      obtain ⟨⟨a, rest⟩, -, h⟩ := seq_ok.mp h
      obtain ⟨ub, hub, h⟩ := seq_ok.mp h
      cases h
      exact Or.inl ⟨rfl, by simpa using ltoa_string (by decide) hub⟩
  | bits =>
      -- the binary ones are the bits of their argument, from three different indices down
      obtain ⟨⟨num, rest⟩, -, h⟩ := seq_ok.mp h
      cases h
      exact Or.inr ⟨rfl, Or.inl ⟨num, true, 31, by simp, rfl⟩⟩
  | byte =>
      obtain ⟨⟨num, rest⟩, -, h⟩ := seq_ok.mp h
      cases h
      exact Or.inr ⟨rfl, Or.inl ⟨num, false, 7, by simp, rfl⟩⟩
  | compact =>
      obtain ⟨⟨num, rest⟩, -, h⟩ := seq_ok.mp h
      cases h
      exact Or.inr ⟨rfl, Or.inl ⟨num, true, getHighestBit num * 8, by simp, rfl⟩⟩
  | longBits =>
      obtain ⟨⟨num, rest⟩, -, h⟩ := seq_ok.mp h
      cases h
      exact Or.inr ⟨rfl, Or.inr ⟨num, rfl⟩⟩
  | char | str =>
      obtain ⟨⟨a, rest⟩, -, h⟩ := seq_ok.mp h
      cases h
      exact Or.inl ⟨rfl, by simp⟩
  | float | longFloat =>
      cases h
      exact Or.inl ⟨rfl, by simp [Piece.lit]⟩
  | unknown =>
      cases h
      exact Or.inl ⟨rfl, by simpa using hbuf⟩

/-- What a conversion prints are strings. -/
theorem pieces_strings {conv : Conv} {buf : List Nat} {args args' : List Arg}
    {pieces : List Piece} (hbuf : 0 ∈ buf) (h : conv.pieces buf args = .ok (pieces, args')) :
    ∀ p ∈ pieces, 0 ∈ p.str := by
  rcases pieces_cases hbuf h with ⟨-, hall⟩ | ⟨-, ⟨num, space, highest, -, rfl⟩ | ⟨num, rfl⟩⟩
  · exact fun p hp => (hall p hp).2
  · exact intBits_strings num highest space
  · exact longBits_strings num

/-- Only an unknown conversion looks at the buffer, which has been cleared. -/
theorem pieces_cleared {conv : Conv} {args args' : List Arg} {pieces : List Piece}
    (h : conv.pieces [0] args = .ok (pieces, args')) (rest : List Nat) :
    ∃ pieces', conv.pieces (0 :: rest) args = .ok (pieces', args') ∧ texts pieces' = texts pieces := by
  cases conv with
  | unknown =>
      cases h
      exact ⟨[⟨true, 0 :: rest⟩], rfl, by simp [texts]⟩
  | _ => exact ⟨pieces, h, rfl⟩

/-- A conversion that is given its argument prints something. -/
theorem pieces_of_arg {conv : Conv} {a : Arg} (h : conv.takes = some a.kind) (rest : List Arg) :
    ∃ pieces, conv.pieces [0] (a :: rest) = .ok (pieces, rest) := by
  -- a conversion of this kind takes the argument and leaves the rest
  cases a with
  | int a =>
      obtain ⟨dec, hdec, -⟩ := itoa_spec a (by decide : 10 ≤ 10 ∧ 10 ≤ 36)
      obtain ⟨hex, hhex, -⟩ := itoa_spec a (by decide : 10 ≤ 16 ∧ 16 ≤ 36)
      cases conv with
      | dec => exact ⟨[⟨true, pad 32 dec⟩], by rw [Conv.pieces, vaInt, ok_seq]; simp only [hdec]; rfl⟩
      | hex =>
          exact ⟨[Piece.lit true [48, 120], ⟨true, pad 32 hex⟩],
            by rw [Conv.pieces, vaInt, ok_seq]; simp only [hhex]; rfl⟩
      | bits => exact ⟨_, rfl⟩
      | byte => exact ⟨_, rfl⟩
      | compact => exact ⟨_, rfl⟩
      | char => exact ⟨_, rfl⟩
      | _ => cases h
  | long a =>
      obtain ⟨dec, hdec, -⟩ := ltoa_spec a (by decide : 10 ≤ 10 ∧ 10 ≤ 16)
      obtain ⟨hex, hhex, -⟩ := ltoa_spec a (by decide : 10 ≤ 16 ∧ 16 ≤ 16)
      cases conv with
      | longBits => exact ⟨_, rfl⟩
      | longHex => exact ⟨[⟨true, pad 32 hex⟩], by rw [Conv.pieces, vaLong, ok_seq]; simp only [hhex]; rfl⟩
      | longDec => exact ⟨[⟨true, pad 32 dec⟩], by rw [Conv.pieces, vaLong, ok_seq]; simp only [hdec]; rfl⟩
      | long => exact ⟨[⟨true, pad 32 dec⟩], by rw [Conv.pieces, vaLong, ok_seq]; simp only [hdec]; rfl⟩
      | _ => cases h
  | str text =>
      cases conv with
      | str => exact ⟨_, rfl⟩
      | _ => cases h

/-- So does one that takes none. -/
theorem pieces_of_none {conv : Conv} (h : conv.takes = none) (args : List Arg) :
    ∃ pieces, conv.pieces [0] args = .ok (pieces, args) := by
  cases conv with
  | float => exact ⟨_, rfl⟩
  | longFloat => exact ⟨_, rfl⟩
  | unknown => exact ⟨_, rfl⟩
  | _ => cases h

/-- A format with matching arguments prints something. -/
theorem prints_of_matches {ds : List Directive} {args : List Arg} (h : Matches ds args)
    (lit : List Nat) : ∃ ps rest, Prints ds lit args ps rest := by
  induction ds generalizing args lit with
  | nil => exact ⟨_, _, .nil⟩
  | cons d ds ih =>
      cases d with
      | char ch =>
          obtain ⟨ps, rest, hps⟩ := ih h (lit ++ [ch])
          exact ⟨ps, rest, .char hps⟩
      | overrun => exact ⟨_, _, .overrun⟩
      | conv conv =>
          rw [Matches] at h
          cases htakes : conv.takes with
          | none =>
              rw [htakes] at h
              obtain ⟨pieces, hpieces⟩ := pieces_of_none htakes args
              obtain ⟨ps, rest, hps⟩ := ih h []
              exact ⟨_, rest, .conv hpieces hps⟩
          | some kind =>
              rw [htakes] at h
              obtain ⟨a, args, rfl, rfl, hargs⟩ := h
              obtain ⟨pieces, hpieces⟩ := pieces_of_arg htakes args
              obtain ⟨ps, rest, hps⟩ := ih hargs []
              exact ⟨_, rest, .conv hpieces hps⟩

end Twos.Kstd
