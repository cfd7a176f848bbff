import Twos.Boot.Multiboot
import Twos.Kstd.String

/-!
# The command line

`cmdline.c`: `cmdline_parse` splits the string of a tag into keys and numbers, which the other
routines look up. Its arrays are lists of the length they have in C, and storing behind their ends
is out of bounds.
-/

namespace Twos.Boot

open Lib Kstd

abbrev CMDLINE_MAX_ARG : Nat := 16
abbrev CMDLINE_MAX_ARG_LEN : Nat := 16
abbrev CMDLINE_NO_ARG : Nat := UINT32_MAX
abbrev ARGIDX_NONE : Nat := 0xff

/-- `ARG_SEP`. -/
abbrev ARG_SEP : Nat := 61

/-- `' '`. -/
abbrev SPACE : Nat := 32

/-- `sizeof(struct multiboot_tag)`. -/
abbrev TAG_HEADER : Nat := 8

/-- `cmdline`. -/
structure Cmdline where
  args : List (List Nat)
  vals : List Nat
  numArgs : Nat

/-- `cmdline`, cleared. -/
def cmdlineCleared : Cmdline where
  args := List.replicate CMDLINE_MAX_ARG (List.replicate CMDLINE_MAX_ARG_LEN 0)
  vals := List.replicate CMDLINE_MAX_ARG 0
  numArgs := 0

/-! ## Parsing

The loop takes one character after the other into `buf`, and what it has taken is a key when a
separator comes. `idx`, `bdx` and `num_args` are kept as they are in C, so that each store is at the
place where the source stores.
-/

/-- `stag->string[idx]`. -/
def stringAt (m : Memory) (tag idx : Nat) : Nat := load m (tag + TAG_HEADER + idx) 1

/-- The state of the loop of `cmdline_parse`. -/
structure Parse where
  idx : Nat
  bdx : Nat
  numArgs : Nat
  buf : List Nat
  args : List (List Nat)
  vals : List Nat

/-- The condition of the loop that copies a value. -/
def inValue (m : Memory) (tag stagLen idx : Nat) : Bool :=
  decide (stringAt m tag idx ≠ SPACE ∧ stringAt m tag idx ≠ 0 ∧ idx < stagLen)

/-- `sval[vdx++] = stag->string[idx++]`, with `idx`, `vdx` and `sval`. -/
def copyChar (m : Memory) (tag : Nat) (s : Nat × Nat × List Nat) :
    Except Fault (Nat × Nat × List Nat) := do
  let sval ← writeBytes s.2.2 s.2.1 [stringAt m tag s.1]
  .ok (s.1 + 1, s.2.1 + 1, sval)

/-- The loop that copies the value at `string[idx]`. What `sval` holds before does not matter. -/
def copyValue (m : Memory) (tag stagLen idx : Nat) : Except Fault (Nat × Nat × List Nat) :=
  whileLoop .neverEnds (fun s => inValue m tag stagLen s.1) (copyChar m tag) (stagLen + 1)
    (idx, 0, List.replicate 32 0)

/-- `cmdline.args[num_args]`. -/
def argRow (s : Parse) : Except Fault (List Nat) :=
  match s.args[s.numArgs]? with
  | some row => .ok row
  | none => .error .outOfBounds

/-- What happens at a separator. -/
def storeArg (m : Memory) (tag stagLen : Nat) (s : Parse) : Except Fault Parse := do
  let buf ← writeBytes s.buf s.bdx [0]
  let row ← argRow s
  let row ← strncpy row 0 buf CMDLINE_MAX_ARG_LEN
  let args ← writeBytes s.args s.numArgs [row]
  let (idx, vdx, sval) ← copyValue m tag stagLen (s.idx + 1)
  let idx := if stringAt m tag idx = SPACE then idx + 1 else idx
  let sval ← writeBytes sval vdx [0]
  let val ← atou sval
  let vals ← writeBytes s.vals s.numArgs [val]
  .ok { idx, bdx := 0, numArgs := s.numArgs + 1, buf := List.replicate 64 0, args, vals }

/-- One iteration, which always takes one more character into `buf`. -/
def parseStep (m : Memory) (tag stagLen : Nat) (s : Parse) : Except Fault Parse := do
  let s ← if stringAt m tag s.idx = ARG_SEP then storeArg m tag stagLen s else .ok s
  let buf ← writeBytes s.buf s.bdx [stringAt m tag s.idx]
  .ok { s with idx := s.idx + 1, bdx := s.bdx + 1, buf }

/-- `stag_len`, an `int`: negative from `2 ^ 31` on. -/
def stagLenOf (m : Memory) (tag : Nat) : Nat := (tagSize m tag + (WORD - TAG_HEADER)) % 2 ^ 32

/-- `cmdline_parse`, with the value it returns. -/
def cmdlineParse (m : Memory) (tag : Nat) : Except Fault (Cmdline × Nat) :=
  let stagLen := stagLenOf m tag
  if stagLen = 0 ∨ 2 ^ 31 ≤ stagLen then .ok (cmdlineCleared, 0)
  else do
    let s ← whileLoop .neverEnds (fun s => decide (s.idx < stagLen)) (parseStep m tag stagLen)
      (stagLen + 1)
      ⟨0, 0, 0, List.replicate 64 0, cmdlineCleared.args, cmdlineCleared.vals⟩
    .ok ({ args := s.args, vals := s.vals, numArgs := s.numArgs }, s.numArgs)

/-! ## Looking up -/

/-- `cmdline_numargs`. -/
def cmdlineNumargs (c : Cmdline) : Nat := c.numArgs

/-- Whether a stored key is the argument: its first character is compared before the rest. -/
def argMatches (arg row : List Nat) : Except Fault Bool :=
  if arg.head? ≠ row.head? then .ok false
  else do
    let r ← strcmp arg row
    .ok (decide (r = 0))

/-- The loop of `get_arg_idx`, with `n` arguments left from `i` on. -/
def argIdxFrom (c : Cmdline) (arg : List Nat) : Nat → Nat → Except Fault Nat
  | 0, _ => .ok ARGIDX_NONE
  | n + 1, i =>
      match c.args[i]? with
      | none => .error .outOfBounds
      | some row => do
          let found ← argMatches arg row
          if found then .ok i else argIdxFrom c arg n (i + 1)

/-- `get_arg_idx`. -/
def getArgIdx (c : Cmdline) (arg : List Nat) : Except Fault Nat := argIdxFrom c arg c.numArgs 0

/-- `cmdline_hasarg`. -/
def cmdlineHasarg (c : Cmdline) (arg : List Nat) : Except Fault Bool := do
  let idx ← getArgIdx c arg
  .ok (decide (idx ≠ ARGIDX_NONE))

/-- `cmdline_getarg`. -/
def cmdlineGetarg (c : Cmdline) (arg : List Nat) : Except Fault Nat := do
  let idx ← getArgIdx c arg
  if idx = ARGIDX_NONE then .ok CMDLINE_NO_ARG
  else
    match c.vals[idx]? with
    | some val => .ok val
    | none => .error .outOfBounds

end Twos.Boot
