import Twos.Lib.Mask

/-!
# What every kernel routine shares

The ways a routine can stop the machine, the constants of `kernel.h` and `page.h`, and the page
arithmetic of `page.h`. Addresses and sizes are natural numbers; where the C type wraps, the
reduction modulo `2 ^ 64` is written out.
-/

namespace Twos

/-- The ways a kernel routine stops instead of returning. `panic` and a failed assertion halt the
machine on purpose; the others are what the code runs into. -/
inductive Fault where
  | panic (msg : String)
  | assertFailed (condition : String)
  | outOfBounds
  | divideByZero
  | neverEnds
  deriving DecidableEq, Repr

/-- `ASSERT(condition)` of `kassert.h`. -/
def assert (condition : Bool) (text : String) : Except Fault Unit :=
  if condition then .ok () else .error (.assertFailed text)

/-- Arithmetic on `uint64_t`, `size_t` and `uintptr_t` is modulo this. -/
abbrev WORD : Nat := 2 ^ 64

/-- `PAGE_SIZE` of `page.h`: the kernel works in 2 MiB pages. -/
abbrev PAGE_SIZE : Nat := 0x200000

/-- `KERNEL_VADDR` of `kernel.h`: where the higher-half direct map starts. -/
abbrev KERNEL_VADDR : Nat := 0xffffffff80000000

/-- `KERNEL_VADDR_SIZE` of `kernel.h`: how much of physical memory the boot tables map there. -/
abbrev KERNEL_VADDR_SIZE : Nat := 0x40000000

/-- `round_up_to_page` of `page.h`. -/
def roundUpToPage (addr : Nat) : Nat :=
  if addr % PAGE_SIZE = 0 then addr else (addr + (PAGE_SIZE - addr % PAGE_SIZE)) % WORD

/-- `page_align` of `page.h`, the mask being `BITMASK_21_ALIGN`. -/
def pageAlign (address : Nat) : Nat := address &&& 0xFFFFFFFFFFE00000

theorem pageAlign_eq {a : Nat} (ha : a < WORD) : pageAlign a = a / PAGE_SIZE * PAGE_SIZE := by
  have hmask := Lib.and_mask (by decide : 21 ≤ 64) a
  rwa [Nat.mod_eq_of_lt ha] at hmask

end Twos
