import Twos.Kernel.Base
import Twos.Lib.Loop
import Twos.Lib.BitTable

/-!
# The physical page allocator

`physmem.c`: a bitmap `pmm` with one bit per 2 MiB page, a set bit meaning used. `physmemInit`
imports the boot loader's memory map, `physMalloc` hands out a run of pages, `physFree` gives one
back. Two helpers set single bits: `setPhys`, whose mask is an `int` shift, and the marking loop
inside `physMalloc`, whose mask is a `uint64_t` shift. They are kept apart here as they are there.

Every access to the array is checked against its 512 words, and the division by `mm_end` against
zero; what the code does not check is an error here.

* `Bits.lean` has what the mask of `setPhys` does, `Search.lean` and `FirstFit.lean` the scan.
* `Exclusive.lean`, `Undo.lean` and `Independent.lean` are about calls on any bitmap.
* `Import.lean`, `Extent.lean`, `Order.lean` and `Recover.lean` are about `physmemInit`.
-/

namespace Twos.Phys

open Lib

/-- `PMM_SIZE`: words in the bitmap. -/
abbrev PMM_SIZE : Nat := 512

/-- `sizeof(uint64_t) * CHAR_BIT`. -/
abbrev WORD_BITS : Nat := 64

/-- `uint64_t pmm[PMM_SIZE]`. -/
abbrev Pmm : Type := Vector (BitVec WORD_BITS) PMM_SIZE

/-- The globals `pmm` and `physmem`. The search reads `pmm[0..mm_end-1]`, so `mm_end` is kept within
the array. -/
structure Physmem where
  pmm : Pmm
  mmEnd : Nat
  mmEnd_le : mmEnd ≤ PMM_SIZE
  end_ : Nat
  totalAvail : Nat

/-- `UINT64_MAX`. -/
abbrev FULL : BitVec WORD_BITS := BitVec.allOnes WORD_BITS

/-! ## Single bits -/

/-- `1 << bit` in `set_phys`: the shift is done on an `int`, which x86 performs modulo 32, and the
result is sign-extended to 64 bits. -/
def intMask (bit : Nat) : BitVec WORD_BITS := (1#32 <<< (bit % 32)).signExtend WORD_BITS

/-- `get_phys`. Its unused local divides by `mm_end` first. -/
def getPhys (s : Physmem) (addr : Nat) : Except Fault (BitVec WORD_BITS) :=
  let pageNum := addr / PAGE_SIZE
  let idx := pageNum / WORD_BITS
  let bit := pageNum % WORD_BITS
  if s.mmEnd = 0 then .error .divideByZero
  else if idx < PMM_SIZE then .ok ((wordAt s.pmm idx >>> bit) &&& 1#64)
  else .error .outOfBounds

/-- `set_phys`. -/
def setPhys (pmm : Pmm) (addr : Nat) (b : Bool) : Except Fault Pmm :=
  let pageNum := addr / PAGE_SIZE
  let idx := pageNum / WORD_BITS
  let bit := pageNum % WORD_BITS
  if idx < PMM_SIZE then .ok (assign pmm idx (intMask bit) b) else .error .outOfBounds

/-- One iteration of the loop below. -/
def setNext (b : Nat → Bool) (s : Nat × Pmm) : Except Fault (Nat × Pmm) := do
  let pmm ← setPhys s.2 s.1 (b s.1)
  .ok ((s.1 + PAGE_SIZE) % WORD, pmm)

/-- `for (; addr < end; addr += PAGE_SIZE) set_phys(addr, b addr)`, the loop that `physmem_init` and
`phys_free` share. -/
def setRange (b : Nat → Bool) (stop : Nat) (start : Nat) (pmm : Pmm) : Except Fault Pmm := do
  let s ← whileLoop .neverEnds (fun s => decide (s.1 < stop)) (setNext b)
    (WORD / PAGE_SIZE + 1) (start, pmm)
  .ok s.2

/-! ## Importing the memory map -/

/-- `multiboot_memory_map_t`. -/
structure MmapEntry where
  addr : Nat
  len : Nat
  type : Nat
  deriving DecidableEq, Repr

/-- `MULTIBOOT_MEMORY_AVAILABLE`. -/
abbrev MULTIBOOT_MEMORY_AVAILABLE : Nat := 1

/-- The first loop of `physmem_init`: the available total and the highest available address. -/
def tally : List MmapEntry → Nat × Nat → Nat × Nat
  | [], acc => acc
  | mmap :: rest, (totalAvail, highestAvail) =>
      let top := (mmap.addr + mmap.len) % WORD
      let available := mmap.type = MULTIBOOT_MEMORY_AVAILABLE
      tally rest
        (if available then (totalAvail + mmap.len) % WORD else totalAvail,
          if top > highestAvail ∧ available then top else highestAvail)

/-- The second loop of `physmem_init`, which stops at the first entry above `physmem.end`. -/
def importMap (end_ : Nat) : List MmapEntry → Pmm → Except Fault Pmm
  | [], pmm => .ok pmm
  | mmap :: rest, pmm =>
      if mmap.addr > end_ then .ok pmm
      else do
        let mapStart := roundUpToPage mmap.addr
        let mapEnd := roundUpToPage ((mmap.addr + mmap.len) % WORD)
        let used addr := decide (mmap.type ≠ MULTIBOOT_MEMORY_AVAILABLE ∨ addr < PAGE_SIZE)
        let pmm ← setRange used mapEnd mapStart pmm
        importMap end_ rest pmm

/-- `physmem_init`. The array starts out as `PHYS_USED` bytes; the words below `mm_end` are then
filled, which leaves the array as soon as `mm_end` does. The closing `debugf` reads four bits. -/
def physmemInit (mmaps : List MmapEntry) : Except Fault Physmem :=
  let (totalAvail, highestAvail) := tally mmaps (0, 0)
  let end_ := roundUpToPage highestAvail
  let numBits := end_ / PAGE_SIZE + 64
  let mmEnd := numBits / WORD_BITS - 1
  if h : mmEnd ≤ PMM_SIZE then do
    let pmm ← forLt (fun i pmm => .ok (pmm.setIfInBounds i FULL)) mmEnd
      (Vector.replicate PMM_SIZE 0x0101010101010101#64)
    let pmm ← importMap end_ mmaps pmm
    let pmm ← forLt (fun i pmm => setPhys pmm (PAGE_SIZE * i) true) 16 pmm
    let s : Physmem := { pmm, mmEnd, mmEnd_le := h, end_, totalAvail }
    let _ ← getPhys s 0xfffc0000
    let _ ← getPhys s (0x100000000 + PAGE_SIZE)
    let _ ← getPhys s 0x100000000
    let _ ← getPhys s (0xbffe0000 - PAGE_SIZE)
    .ok s
  else .error .outOfBounds

/-! ## Allocation -/

/-- `size` up to the nearest page; the sum wraps. -/
def numPages (size : BitVec 64) : Nat := (size.toNat + PAGE_SIZE - 1) % WORD / PAGE_SIZE

/-- The locals that the nested loops of `phys_malloc` carry along. -/
structure Scan where
  contiguousFreePages : Nat
  startIdx : Nat
  startBit : Nat

/-- One iteration of the inner loop. The error side is the `return` from inside the loops. -/
def scanBit (numPages idx : Nat) (mask : BitVec WORD_BITS) (bit : Nat) (s : Scan) :
    Except Scan Scan :=
  if mask &&& (1#64 <<< bit) = 0#64 then
    let s := if s.contiguousFreePages = 0 then { s with startIdx := idx, startBit := bit } else s
    let s := { s with contiguousFreePages := s.contiguousFreePages + 1 }
    if s.contiguousFreePages = numPages then .error s else .ok s
  else .ok { s with contiguousFreePages := 0 }

/-- One iteration of the outer loop: full words are skipped, everything else is scanned. -/
def scanWord (numPages : Nat) (pmm : Pmm) (idx : Nat) (s : Scan) : Except Scan Scan :=
  let mask := wordAt pmm idx
  if mask = FULL then .ok s
  else forLt (scanBit numPages idx mask) WORD_BITS s

/-- Mark page `startBit + i`, counted from word `startIdx`, as allocated. -/
def markPage (startIdx startBit i : Nat) (pmm : Pmm) : Except Fault Pmm :=
  let allocIdx := startIdx + (startBit + i) / WORD_BITS
  let allocBit := (startBit + i) % WORD_BITS
  if allocIdx < PMM_SIZE then .ok (assign pmm allocIdx (1#64 <<< allocBit) true)
  else .error .outOfBounds

/-- `phys_malloc`: the address of the pages found, or 0. -/
def physMalloc (s : Physmem) (size : BitVec 64) : Except Fault (Nat × Physmem) :=
  let numPages := numPages size
  match forLt (scanWord numPages s.pmm) s.mmEnd ⟨0, 0, 0⟩ with
  | .error found => do
      let pmm ← forLt (markPage found.startIdx found.startBit) numPages s.pmm
      .ok ((found.startIdx * WORD_BITS + found.startBit) * PAGE_SIZE % WORD, { s with pmm })
  | .ok _ => .ok (0, s)

/-- `phys_free`. -/
def physFree (s : Physmem) (addr : Nat) (size : BitVec 64) : Except Fault Physmem := do
  let pmm ← setRange (fun _ => false) ((addr + size.toNat) % WORD) addr s.pmm
  .ok { s with pmm }

end Twos.Phys
