import Twos.Kstd.Number

/-!
# Formatted output

`print.c`, and `printk` of `printk.c`. A format is its characters without the NUL, so that the NUL
has the length as its index and everything behind it is out of bounds. `__vprintf` collects
characters in a buffer of its own and hands this to `__sprint` when it comes to a conversion, then
the strings that the conversion prints.

The strings of a conversion are a list of `Piece`s, each with a note whether `total` counts it. Which
conversion it is depends on the two characters behind the flags (`Conv.of`), and how far the format is
passed over depends on the conversion. Nothing sets `buf` before it is used, so what is in it at the
start is an argument, `stack`.
-/

namespace Twos.Kstd

open Lib

abbrev PRINTF_BUF : Nat := 2048

/-- An argument that was passed. A string is its characters, without the NUL. -/
inductive Arg where
  | int (a : BitVec 32)
  | long (a : BitVec 64)
  | str (text : List Nat)

/-- `va_arg(args, int)`. -/
def vaInt : List Arg → Except Fault (BitVec 32 × List Arg)
  | .int a :: args => .ok (a, args)
  | _ => .error .outOfBounds

/-- `va_arg(args, unsigned long long)`. -/
def vaLong : List Arg → Except Fault (BitVec 64 × List Arg)
  | .long a :: args => .ok (a, args)
  | _ => .error .outOfBounds

/-- `va_arg(args, char *)`. -/
def vaStr : List Arg → Except Fault (List Nat × List Arg)
  | .str text :: args => .ok (text, args)
  | _ => .error .outOfBounds

/-! ## `__sprint` -/

/-- `__sprint`, with the buffer it leaves. The difference of the lengths is a `size_t`. -/
def sprint (str buf : List Nat) (maxLen : Nat) : Except Fault (List Nat × Nat) :=
  if maxLen = 0 then .ok (buf, 0)
  else do
    let curLen ← strlen buf
    let addLen ← strlen str
    let maxAdd := if maxLen > curLen then maxLen - curLen else 0
    let maxAdd := if maxAdd > addLen then addLen else maxAdd
    let cat ← strncat buf str maxAdd
    let catlen ← strlen cat
    .ok (cat, if catlen ≠ 0 then (catlen + WORD - curLen) % WORD else 0)

/-! ## Conversions

The two nested `switch` statements are `Conv.of`, and what each case prints is `Conv.pieces`, a list
of strings in the order in which they are handed to `__sprint`. `%f` and `%lf` take no argument and
print that they are not implemented.
-/

/-- The cases of the `switch`, the inner one included. -/
inductive Conv where
  | dec
  | hex
  | bits
  | byte
  | compact
  | char
  | float
  | str
  | longBits
  | longHex
  | longFloat
  | longDec
  | long
  | unknown
  deriving DecidableEq, Repr

/-- The case for a character and the one behind it. -/
def Conv.of (ch1 ch2 : Nat) : Conv :=
  if ch1 = 105 ∨ ch1 = 100 ∨ ch1 = 117 then .dec
  else if ch1 = 120 then .hex
  else if ch1 = 66 then .byte
  else if ch1 = 98 then .bits
  else if ch1 = 67 then .compact
  else if ch1 = 99 then .char
  else if ch1 = 102 then .float
  else if ch1 = 108 ∨ ch1 = 76 then
    if ch2 = 98 ∨ ch2 = 66 then .longBits
    else if ch2 = 120 ∨ ch2 = 88 then .longHex
    else if ch2 = 102 then .longFloat
    else if ch2 = 117 ∨ ch2 = 100 ∨ ch2 = 105 then .longDec
    else .long
  else if ch1 = 115 then .str
  else .unknown

/-- `last_fmt_len`, with `fp_precision`. -/
def Conv.lastFmtLen : Conv → Nat → Nat
  | .float, fpPrecision => 1 + fpPrecision
  | .longBits, _ => 2
  | .longHex, _ => 2
  | .longFloat, fpPrecision => 2 + fpPrecision
  | .longDec, _ => 2
  | _, _ => 1

/-- A string that is handed to `__sprint`, and whether its length is added to `total`. -/
structure Piece where
  counted : Bool
  str : List Nat

/-- A literal. -/
def Piece.lit (counted : Bool) (text : List Nat) : Piece := ⟨counted, text ++ [0]⟩

/-- `get_highest_bit`, from a position down. -/
def highestBitFrom (num : BitVec 32) : Nat → Nat
  | 0 => 0
  | position + 1 => if num.getLsbD (position + 1) then position + 1 else highestBitFrom num position

/-- `get_highest_bit`. -/
def getHighestBit (num : BitVec 32) : Nat := highestBitFrom num 31

/-- `for (int i = highest; i >= 0; i--)`: a digit, and a space behind some. -/
def bitPieces (bit spaced : Nat → Bool) : Nat → List Piece
  | 0 => bitAt bit spaced 0
  | i + 1 => bitAt bit spaced (i + 1) ++ bitPieces bit spaced i
where
  /-- One iteration. -/
  bitAt (bit spaced : Nat → Bool) (i : Nat) : List Piece :=
    Piece.lit false [if bit i then 49 else 48] :: if spaced i then [Piece.lit false [32]] else []

/-- The cases `'b'`, `'B'` and `'C'`. Shifting 32 bits by more counts the low five bits of the
distance. -/
def intBits (num : BitVec 32) (highestBit : Nat) (space : Bool) : List Piece :=
  Piece.lit false [48, 98] ::
    if num = 0 then [Piece.lit false [48]]
    else bitPieces (fun i => num.getLsbD (i % 32))
      (fun i => decide (i % 4 = 0) && decide (i ≠ highestBit) && space) highestBit

/-- The cases `'b'` and `'B'` behind an `l`. -/
def longBits (num : BitVec 64) : List Piece :=
  Piece.lit false [48, 98] ::
    if num = 0 then [Piece.lit false [48, 48, 48, 48]]
    else bitPieces num.getLsbD (fun i => decide (i % 4 = 0)) 63

/-- `ub`, after it has been cleared. -/
abbrev ubCleared : List Nat := List.replicate 32 0

/-- What a conversion prints, and the arguments it leaves. `buf` is the buffer of the characters,
which has just been cleared. -/
def Conv.pieces (buf : List Nat) : Conv → List Arg → Except Fault (List Piece × List Arg)
  | .dec, args => do
      let (a, args) ← vaInt args
      let ub ← itoa a.toInt ubCleared 10
      .ok ([⟨true, ub⟩], args)
  | .hex, args => do
      let (a, args) ← vaInt args
      let ub ← itoa a.toInt ubCleared 16
      .ok ([Piece.lit true [48, 120], ⟨true, ub⟩], args)
  | .bits, args => do
      let (num, args) ← vaInt args
      .ok (intBits num 31 true, args)
  | .byte, args => do
      let (num, args) ← vaInt args
      .ok (intBits num 7 false, args)
  | .compact, args => do
      let (num, args) ← vaInt args
      .ok (intBits num (getHighestBit num * 8) true, args)
  | .char, args => do
      let (a, args) ← vaInt args
      .ok ([⟨true, [a.toNat % 256, 0]⟩], args)
  | .float, args => .ok ([Piece.lit true [110, 111, 32, 102, 108, 111, 97, 116, 32, 105, 109, 112, 108]], args)
  | .str, args => do
      let (text, args) ← vaStr args
      .ok ([⟨true, text ++ [0]⟩], args)
  | .longBits, args => do
      let (num, args) ← vaLong args
      .ok (Kstd.longBits num, args)
  | .longHex, args => do
      let (a, args) ← vaLong args
      let ub ← ltoa a.toNat ubCleared 16
      .ok ([⟨true, ub⟩], args)
  | .longFloat, args =>
      .ok ([Piece.lit true [110, 111, 32, 100, 111, 117, 98, 108, 101, 32, 105, 109, 112, 108]], args)
  | .longDec, args => do
      let (a, args) ← vaLong args
      let ub ← ltoa a.toNat ubCleared 10
      .ok ([⟨true, ub⟩], args)
  | .long, args => do
      let (a, args) ← vaLong args
      let ub ← ltoa a.toNat ubCleared 10
      .ok ([⟨true, ub⟩], args)
  | .unknown, args => .ok ([⟨true, buf⟩], args)

/-! ## `__vprintf`

The loop is kept as a loop on an explicit state, since two of its properties, that it may leave the
format and that it may not return, are about the index. `formatAt` fails where the index is behind
the NUL: what is there is not part of the format.
-/

/-- The state of `__vprintf`: its index into the format, its buffer and the index there, the buffer
of the output, what has been counted, and the arguments that are left. -/
structure Printing where
  c : Nat
  k : Nat
  buf : List Nat
  bufOut : List Nat
  total : Nat
  args : List Arg

/-- `_print`. -/
def emit (len : Nat) (st : Printing) (piece : Piece) : Except Fault Printing := do
  let (bufOut, added) ← sprint piece.str st.bufOut len
  .ok { st with bufOut, total := if piece.counted then (st.total + added) % WORD else st.total }

/-- `fmt[c]`, where the format is at hand. -/
def formatAt (fmt : List Nat) (c : Nat) : Except Fault Nat :=
  if c ≤ fmt.length then .ok (fmt.getD c 0) else .error .outOfBounds

/-- `while ((ch1 = fmt[j]) < 58)`, on what is left of the format: the index where it stops. The NUL
is one of the characters it passes. -/
def scanConversion : List Nat → Nat → Except Fault Nat
  | [], _ => .error .outOfBounds
  | ch1 :: rest, j => if toChar ch1 < 58 then scanConversion rest (j + 1) else .ok j

/-- The branch for a conversion, from its `'%'` on. -/
def convert (fmt : List Nat) (len : Nat) (st : Printing) : Except Fault Printing := do
  let buf ← writeBytes st.buf st.k [0]
  let st ← emit len st ⟨true, buf⟩
  let buf ← writeBytes buf 0 (List.replicate fmt.length 0)
  let j ← scanConversion (fmt.drop st.c) st.c
  let conv := Conv.of (fmt.getD j 0) (fmt.getD (j + 1) 0)
  let (pieces, args) ← conv.pieces buf st.args
  let st ← pieces.foldlM (emit len) { st with k := 0, buf, args }
  .ok { st with c := st.c + conv.lastFmtLen (j - st.c) }

/-- The branch for any other character. -/
def collect (st : Printing) (ch : Nat) : Except Fault Printing := do
  let buf ← writeBytes st.buf st.k [ch]
  let buf ← writeBytes buf (st.k + 1) [0]
  .ok { st with k := st.k + 1, buf }

/-- The end of an iteration: the next character, or the NUL and the characters before it. -/
def advance (fmt : List Nat) (len : Nat) (st : Printing) : Except Fault Printing := do
  let c := st.c + 1
  let next ← formatAt fmt c
  if next = 0 then do
    let buf ← writeBytes st.buf st.k [0]
    emit len { st with c, buf } ⟨true, buf⟩
  else .ok { st with c }

/-- One iteration. -/
def vprintfStep (fmt : List Nat) (len : Nat) (st : Printing) : Except Fault Printing := do
  let st ← if fmt.getD st.c 0 ≠ 37 then collect st (fmt.getD st.c 0) else convert fmt len st
  advance fmt len st

/-- `__vprintf`, with `stack` in its buffer. -/
def vprintf (stack fmt bufOut : List Nat) (len : Nat) (args : List Arg) : Except Fault Printing :=
  whileLoop .neverEnds (fun st => decide (fmt.getD st.c 0 ≠ 0)) (vprintfStep fmt len)
    (fmt.length + 1) ⟨0, 0, stack, bufOut, 0, args⟩

/-- `vsnprintf`: the buffer it leaves, and the value it returns. -/
def vsnprintf (stack s : List Nat) (n : Nat) (fmt : List Nat) (args : List Arg) :
    Except Fault (List Nat × Int) := do
  let s ← writeBytes s 0 (List.replicate n 0)
  let st ← vprintf stack fmt s n args
  .ok (st.bufOut, (BitVec.ofNat 32 st.total).toInt)

/-! ## `printk` -/

abbrev PRINTK_BUF_SIZE : Nat := 2048

/-- `printk`: the text that goes to the serial port, and whether a newline is added to it. -/
def printk (stack buf fmt : List Nat) (args : List Arg) : Except Fault (List Nat × Bool) := do
  let (buf, _) ← vsnprintf stack buf PRINTK_BUF_SIZE fmt args
  let len ← strlen buf
  if len = 0 then .error .outOfBounds
  else .ok (buf.take len, decide (buf.getD (len - 1) 0 ≠ 10))

end Twos.Kstd
