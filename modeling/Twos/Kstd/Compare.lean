import Twos.Kernel.Access

/-!
# Comparing strings

`strncmp` of `string.c`. A string is the way its characters are read, or nothing when the pointer is
null; characters are bytes, and `char` is signed.

`Kstd.Ordering` has what the comparisons answer. Here it is the code alone, with its reads as arguments,
since `acpi.c` compares what the firmware has left in memory, and may fail to read it.
-/

namespace Twos.Kstd

/-- The characters of a string. -/
abbrev Chars : Type := Nat → Except Stop Nat

/-- The string at an address. -/
def charsAt (read : Reader) (p : Nat) : Option Chars :=
  if p = 0 then none else some fun c => read (p + c) 1

/-- A string literal, without its NUL. -/
def literal (s : List Nat) : Option Chars := some fun c => .ok (s.getD c 0)

/-- A byte as a `char`. -/
def toChar (b : Nat) : Int := if b < 128 then b else (b : Int) - 256

/-- The loop of `strncmp`: the index at which it stops. It reads the characters before it looks at
`num`. -/
def strncmpScan (str1 str2 : Chars) (num : Nat) : Nat → Nat → Except Stop Nat
  | 0, c => .ok c
  | fuel + 1, c => do
      let x ← str1 c
      let y ← str2 c
      if x = y ∧ c < num ∧ x ≠ 0 ∧ y ≠ 0 then strncmpScan str1 str2 num fuel (c + 1) else .ok c

/-- `strncmp`. -/
def strncmp (str1 str2 : Option Chars) (num : Nat) : Except Stop Int :=
  match str1, str2 with
  | some str1, some str2 =>
      if num = 0 then .ok 0
      else do
        let c ← strncmpScan str1 str2 num (num + 1) 0
        if c = num then .ok 0
        else do
          let x ← str1 c
          let y ← str2 c
          if toChar x > toChar y then .ok (-1) else .ok 1
  | _, _ => .ok 0

end Twos.Kstd
