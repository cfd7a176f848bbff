import Twos.Acpi.Model
import Twos.Boot.Cmdline

/-!
# The tag walk of `kmain`

`kmain` goes through the tags of the multiboot information up to the one that ends them. What it
prints on the way is left out.

Two of the cases can store behind the kernel's arrays: a command line with a seventeenth argument or
a long key, and a memory map with more pages than the bitmap has bits. C does not stop there. What
becomes of the kernel's data depends on where the linker put them, so that is a parameter of the
walk, a `Behind`: after such a store the case returns with any data at all, or it does not return
because the store has faulted. The tags themselves are not among the kernel's data.

* `TagWalk.lean` says when the walk ends inside of the boot information (`walkInside_iff`), whatever
  the stores behind arrays do.
* `FramebufferTag.lean` says which tags decide `kboot.fb` (`framebuffer_record_iff`), as long as no
  such store hits it.
-/

namespace Twos.Boot

open Lib Acpi

abbrev MULTIBOOT_TAG_TYPE_CMDLINE : Nat := 1
abbrev MULTIBOOT_TAG_TYPE_EFI32 : Nat := 11
abbrev MULTIBOOT_TAG_TYPE_EFI64 : Nat := 12
abbrev MULTIBOOT_TAG_TYPE_ACPI_OLD : Nat := 14
abbrev MULTIBOOT_TAG_TYPE_ACPI_NEW : Nat := 15
abbrev MULTIBOOT_TAG_TYPE_EFI_MMAP : Nat := 17
abbrev MULTIBOOT_TAG_TYPE_EFI_BS : Nat := 18

/-- `kboot.fb`. -/
structure Framebuffer where
  ptr : Nat
  addr : Nat
  w : Nat
  h : Nat
  pitch : Nat
  bpp : Nat
  deriving DecidableEq

/-- `kboot`. -/
structure KernelBoot where
  useSerial : Bool
  level : Nat
  mmapSize : Nat
  fb : Framebuffer
  isLegacyBios : Bool

/-- What `kmain` knows after some of the tags: `kboot` and its locals, and what the tags have set up
elsewhere. -/
structure BootState where
  kboot : KernelBoot
  cmdline : Cmdline
  rsdp : Nat
  totalMem : Nat
  physmem : Option Phys.Physmem

/-- Before the first tag. -/
def bootCleared : BootState where
  kboot := ⟨false, 0, 0, ⟨0, 0, 0, 0, 0, 0⟩, false⟩
  cmdline := cmdlineCleared
  rsdp := 0
  totalMem := 0
  physmem := none

/-! ## The cases

One definition for each case of the `switch`, on the variables of `kmain` that the cases change. What
becomes of these after a store behind an array is not in the source; it is a parameter, `Behind`.
-/

/-- The fields of a `multiboot_tag_framebuffer` that are kept. -/
def framebufferOf (m : Memory) (tag : Nat) : Framebuffer where
  ptr := 0
  addr := load m (tag + 8) 8
  w := load m (tag + 20) 4
  h := load m (tag + 24) 4
  pitch := load m (tag + 16) 4
  bpp := load m (tag + 28) 1

/-- What `kmain` asks of a framebuffer. -/
def credible (fb : Framebuffer) : Bool :=
  decide (fb.addr ≠ 0 ∧ fb.addr ≤ 0x100000000000 ∧ 64 ≤ fb.w ∧ 64 ≤ fb.h)

/-- `case MULTIBOOT_TAG_TYPE_FRAMEBUFFER`. -/
def framebufferCase (m : Memory) (tag : Nat) (s : BootState) : BootState :=
  if credible (framebufferOf m tag) then
    { s with kboot := { s.kboot with fb := framebufferOf m tag } }
  else s

/-- `"serial"`. -/
abbrev ARG_SERIAL : List Nat := [115, 101, 114, 105, 97, 108, 0]

/-- `"dbg"`. -/
abbrev ARG_DBG : List Nat := [100, 98, 103, 0]

/-- `case MULTIBOOT_TAG_TYPE_CMDLINE`. -/
def cmdlineCase (m : Memory) (tag : Nat) (s : BootState) : Except Fault BootState := do
  let (cmdline, numArgs) ← cmdlineParse m tag
  let s := { s with cmdline }
  if numArgs = 0 then .ok s
  else do
    let serial ← cmdlineGetarg cmdline ARG_SERIAL
    let useSerial := decide (serial ≠ CMDLINE_NO_ARG)
    let hasDbg ← cmdlineHasarg cmdline ARG_DBG
    let level ← if hasDbg then cmdlineGetarg cmdline ARG_DBG else .ok 0
    .ok { s with kboot := { s.kboot with useSerial, level := level % 256 } }

/-- `case MULTIBOOT_TAG_TYPE_MMAP`. -/
def memoryMapCase (m : Memory) (tag : Nat) (s : BootState) : Except Fault BootState := do
  let mmapSize ← mmapSize m tag
  let physmem ← mmapCase m tag
  if physmem.totalAvail = 0 then .error (.panic "PMM Fail - Init Failed")
  else
    .ok { s with
      kboot := { s.kboot with mmapSize }
      totalMem := physmem.totalAvail
      physmem := some physmem }

/-- `((rsdp_t *) p)->revision`. -/
def revisionOf (m : Memory) (p : Nat) : Nat := load m (p + 15) 1

/-- `case MULTIBOOT_TAG_TYPE_ACPI_OLD`, and `ACPI_NEW`. -/
def acpiCase (m : Memory) (tag : Nat) (s : BootState) : Except Stop BootState :=
  let rsdp := tag + 8
  if s.rsdp ≠ 0 ∧ revisionOf m s.rsdp > revisionOf m rsdp then .ok s
  else do
    let valid ← acpiValidateRsdp (plain m) rsdp
    if valid then .ok { s with rsdp } else .error (.fault (.panic "ACPI - RSDP Invalid?!"))

/-- What comes of the stores behind arrays that the case of a tag makes: some change of what `kmain`
knows, or a fault. -/
abbrev Behind : Type := Nat → Option (BootState → BootState)

/-- A case, which returns also after a store behind an array, unless that faults. -/
def orBehind (behind : Behind) (tag : Nat) (s : BootState) (case : Except Fault BootState) :
    Except Stop BootState :=
  match case, behind tag with
  | .error .outOfBounds, some change => .ok (change s)
  | case, _ => lift case

/-- The `switch`. The case of the boot loader's name has no `continue` at its end, so it goes on into
the case of the framebuffer. -/
def tagCase (m : Memory) (behind : Behind) (tag : Nat) (s : BootState) : Except Stop BootState :=
  let type := tagType m tag
  if type = MULTIBOOT_TAG_TYPE_CMDLINE then orBehind behind tag s (cmdlineCase m tag s)
  else if type = MULTIBOOT_TAG_TYPE_BOOT_LOADER_NAME then .ok (framebufferCase m tag s)
  else if type = MULTIBOOT_TAG_TYPE_FRAMEBUFFER then .ok (framebufferCase m tag s)
  else if type = MULTIBOOT_TAG_TYPE_MMAP then orBehind behind tag s (memoryMapCase m tag s)
  else if type = MULTIBOOT_TAG_TYPE_EFI_BS ∨ type = MULTIBOOT_TAG_TYPE_EFI_MMAP ∨
      type = MULTIBOOT_TAG_TYPE_EFI32 ∨ type = MULTIBOOT_TAG_TYPE_EFI64 then
    .ok { s with kboot := { s.kboot with isLegacyBios := false } }
  else if type = MULTIBOOT_TAG_TYPE_ACPI_NEW ∨ type = MULTIBOOT_TAG_TYPE_ACPI_OLD then
    acpiCase m tag s
  else .ok s

/-! ## The walk -/

/-- `(tag->size + 7) & ~7`, in 32 bits. -/
def tagStride (m : Memory) (tag : Nat) : Nat := (tagSize m tag + 7) % 2 ^ 32 / 8 * 8

/-- The loop of `kmain` over the tags, from the one at `tag` on. -/
def kmainTags (m : Memory) (behind : Behind) (fuel : Nat) (tag : Nat) :
    Except Stop (Nat × BootState) :=
  whileLoop (.fault .neverEnds) (fun s => decide (tagType m s.1 ≠ MULTIBOOT_TAG_TYPE_END))
    (fun s => do
      let boot ← tagCase m behind s.1 s.2
      .ok (s.1 + tagStride m s.1, boot))
    fuel (tag, bootCleared)

/-! ## Stores behind arrays -/

theorem orBehind_ok {behind : Behind} {tag : Nat} {s s' : BootState}
    {case : Except Fault BootState} :
    orBehind behind tag s case = .ok s' ↔ case = .ok s' ∨
      case = .error .outOfBounds ∧ ∃ change, behind tag = some change ∧ change s = s' := by
  cases case with
  | ok b => simp [orBehind, lift]
  | error err =>
      cases hbehind : behind tag with
      | none => cases err <;> simp [orBehind, lift, hbehind]
      | some change => cases err <;> simp [orBehind, lift, hbehind]

end Twos.Boot
