import Twos.Kernel.Base
import Twos.Lib.Loop
import Twos.Lib.Memory

/-!
# Reading memory

Routines that follow pointers through memory they did not write themselves take the way memory is
read as a parameter. `plain` reads anything; the reader of a `Space` reads what lies in pages that
have been mapped to themselves, and stops the routine elsewhere.

A routine that maps pages or stores takes the `Space` itself, and gives back the one it leaves.
`everywhere` is memory without limits as a `Space`. The lemmas are what `Kernel.Reach` builds on: a read
returns what is there, or stops where a byte of it is not covered.
-/

namespace Twos

open Lib

/-- The ways a routine stops that reads memory it may not reach. -/
inductive Stop where
  | fault (f : Fault)
  | unmapped
  deriving DecidableEq

/-- `n` bytes from an address on, as a number. -/
abbrev Reader : Type := Nat → Nat → Except Stop Nat

/-- A routine that does not read memory. -/
def lift {α : Type} : Except Fault α → Except Stop α
  | .ok a => .ok a
  | .error f => .error (.fault f)

/-- An assertion that holds. -/
theorem lift_assert_true (text : String) : lift (assert true text) = .ok () := rfl

/-- An assertion that does not. -/
theorem lift_assert_false (text : String) :
    lift (assert false text) = .error (.fault (.assertFailed text)) := rfl

/-- Memory without limits. -/
def plain (m : Memory) : Reader := fun a n => .ok (load m a n)

@[simp] theorem plain_eq (m : Memory) (a n : Nat) : plain m a n = .ok (load m a n) := rfl

/-- Memory, and the 2 MiB pages that can be reached, by number. -/
structure Space where
  mem : Memory
  mapped : Nat → Bool

/-- All `n` bytes from an address on can be reached. -/
def Space.Covers (s : Space) (a n : Nat) : Prop := ∀ x, x < n → s.mapped ((a + x) / PAGE_SIZE) = true

instance (s : Space) (a n : Nat) : Decidable (s.Covers a n) := Nat.decidableBallLT n _

/-- Memory as far as it can be reached. -/
def Space.read (s : Space) : Reader := fun a n =>
  if s.Covers a n then .ok (load s.mem a n) else .error .unmapped

theorem Space.read_spec (s : Space) (a n : Nat) :
    Outcome (fun v => v = load s.mem a n) (fun err => err = .unmapped ∧ ¬ s.Covers a n)
      (s.read a n) := by
  unfold Space.read
  split
  · exact rfl
  · next hout => exact ⟨rfl, hout⟩

/-- An access whose value does not matter: a device register, or a write to one. -/
def Space.touch (s : Space) (a n : Nat) : Except Stop Unit :=
  if s.Covers a n then .ok () else .error .unmapped

theorem Space.touch_spec (s : Space) (a n : Nat) :
    Outcome (fun _ => True) (fun err => err = .unmapped ∧ ¬ s.Covers a n) (s.touch a n) := by
  unfold Space.touch
  split
  · exact trivial
  · next hout => exact ⟨rfl, hout⟩

/-- `virt_map_page(virt_current_pd(), addr, addr, PAGE_DEFAULT)`. -/
def Space.mapSelf (s : Space) (addr : Nat) : Space :=
  { s with mapped := fun p => s.mapped p || decide (p = addr / PAGE_SIZE) }

/-- Memory of which every page can be reached. -/
def everywhere (m : Memory) : Space := ⟨m, fun _ => true⟩

@[simp] theorem everywhere_mapSelf (m : Memory) (addr : Nat) :
    (everywhere m).mapSelf addr = everywhere m := rfl

@[simp] theorem everywhere_read (m : Memory) : (everywhere m).read = plain m := by
  funext a n
  exact if_pos fun _ _ => rfl

@[simp] theorem everywhere_touch (m : Memory) (a n : Nat) : (everywhere m).touch a n = .ok () :=
  if_pos fun _ _ => rfl

/-- A page that stays reachable. -/
theorem Space.Covers.mapSelf {s : Space} {a n : Nat} (h : s.Covers a n) (addr : Nat) :
    (s.mapSelf addr).Covers a n := by
  intro x hx
  show (s.mapped _ || _) = true
  rw [h x hx, Bool.true_or]

end Twos
