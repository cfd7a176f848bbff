import Twos.Types.OrderedArray

/-!
# The kernel heap

`kalloc.c`: blocks laid out one after the other from `HEAP_VIRT + PAGE_SIZE` up, each a header, a
payload and a footer, and an ordered array of all headers in the page below them. A request takes
the first block of the array that is available and large enough, or else makes a new block at the
end. Blocks are never split, merged or moved.

Two ways lead to a pointer. A new block is handed out at its header's address plus 13, the size of
the packed header; a block that is used again at its header's address plus `sizeof(header)`, which
is the size of a pointer.

* `Layout.lean` says what the bytes mean, `Operations.lean` what each routine does to the blocks.
* `Structure.lean`, `BestFit.lean`, `Sizes.lean` and `Index.lean` are about runs of calls.
* `Session.lean` has the clients, `Safety.lean` what they may expect, and `Free.lean` which pointers
  can be given back.
-/

namespace Twos.Heap

open Lib

/-! ## Constants -/

/-- `HEAP_VIRT`, and `HEAP_VIRT_REAL`. -/
abbrev HEAP_VIRT : Nat := 0xffffffffc0000000 - PAGE_SIZE * 128

/-- `HEAP_SIZE`. -/
abbrev HEAP_SIZE : Nat := 0x800000

/-- `HEAP_CRC`. -/
abbrev HEAP_CRC : Nat := 0xD515DEAD

/-- `HEAP_HEAD_AVAILABLE`. -/
abbrev HEAP_HEAD_AVAILABLE : Byte := 0xff

/-- `HEAP_HEAD_IN_USE`. -/
abbrev HEAP_HEAD_IN_USE : Byte := 0x00

/-- `sizeof(heap_header_t)`, which is packed: `crc`, `available` and `block_size`. -/
abbrev SIZEOF_HEADER : Nat := 13

/-- `sizeof(heap_footer_t)`, which is packed: `crc` and `header`. -/
abbrev SIZEOF_FOOTER : Nat := 12

/-- `sizeof(header)` where `header` is a pointer. -/
abbrev SIZEOF_POINTER : Nat := 8

/-! ## State -/

/-- Memory and the global `heap`. -/
structure HeapState where
  mem : Memory
  addr : Nat
  size : Nat
  allocs : Nat

/-- `header->crc`, and `footer->crc`. -/
def crc (m : Memory) (header : Nat) : Nat := load m header 4

/-- `header->available`. -/
def available (m : Memory) (header : Nat) : Byte := m (header + 4)

/-- `header->block_size`: from the end of the header to the end of the footer. -/
def blockSize (m : Memory) (header : Nat) : Nat := load m (header + 5) 8

/-- `footer->header`. -/
def footerHeader (m : Memory) (footer : Nat) : Nat := load m (footer + 4) 8

/-- `get_total_block_size`. -/
def getTotalBlockSize (allocSize : Nat) : Nat := (SIZEOF_FOOTER + SIZEOF_HEADER + allocSize) % WORD

/-- `get_heap_end`. -/
def getHeapEnd (s : HeapState) : Nat := (HEAP_VIRT + s.size) % WORD

/-- `get_heap_free`. -/
def getHeapFree (s : HeapState) : Nat := (getHeapEnd s + (WORD - s.addr)) % WORD

/-! ## Blocks -/

/-- `create_heap_header`. -/
def createHeapHeader (m : Memory) (header : Nat) : Memory :=
  let m := store m header 4 HEAP_CRC
  store m (header + 4) 1 HEAP_HEAD_IN_USE.toNat

/-- `create_heap_footer`. -/
def createHeapFooter (m : Memory) (footer header : Nat) : Memory :=
  let m := store m footer 4 HEAP_CRC
  store m (footer + 4) 8 header

/-- `create_heap_block`: the new end of the heap. -/
def createHeapBlock (s : HeapState) (addr memSize : Nat) : Except Fault (Nat × Memory) := do
  let header := addr
  let m := createHeapHeader s.mem header
  let footer := (addr + memSize + SIZEOF_HEADER) % WORD
  assert (decide (footer < getHeapEnd s)) "(uintptr_t)footer < get_heap_end()"
  let m := createHeapFooter m footer header
  let m := store m (header + 5) 8 ((memSize + SIZEOF_FOOTER) % WORD)
  .ok ((footer + SIZEOF_FOOTER) % WORD, m)

/-! ## The search -/

/-- How the search leaves its loop early. -/
inductive SearchExit where
  | space (itr : Nat)
  | fault (f : Fault)

/-- One iteration of the loop of `find_best_free_space`. -/
def searchStep (s : HeapState) (size itr : Nat) (_ : Unit) : Except SearchExit Unit :=
  let header := oarrayGet s.mem s.allocs itr
  if header = 0 then .error (.fault (.panic "missing heap header"))
  else if available s.mem header = HEAP_HEAD_AVAILABLE then
    if (blockSize s.mem header + (WORD - SIZEOF_FOOTER)) % WORD ≥ size then .error (.space itr)
    else .ok ()
  else .ok ()

/-- `find_best_free_space`; `none` is `FREE_SPACE_NONE`. -/
def findBestFreeSpace (s : HeapState) (size : Nat) : Except Fault (Option Nat) :=
  if oarrayIdx s.mem s.allocs = 0 then .ok none
  else
    match forLt (searchStep s size) (oarrayIdx s.mem s.allocs) () with
    | .ok () => .ok none
    | .error (.space itr) => .ok (some itr)
    | .error (.fault f) => .error f

/-- `alloc_greater`. -/
def allocGreater (m : Memory) (a b : Nat) : Bool := decide (blockSize m a > blockSize m b)

/-! ## Allocation -/

/-- `_malloc` when no block can be used again: a new one at the end of the heap. -/
def mallocNew (s : HeapState) (size : Nat) : Except Fault (Nat × HeapState) :=
  let totalSize := getTotalBlockSize size
  -- `expand_heap` returns 0, so a heap that is full panics
  if totalSize > getHeapFree s then .error (.panic "Heap Full or Expansion Failed")
  else do
    let newHeaderAddr := s.addr
    let allocAddr := (newHeaderAddr + SIZEOF_HEADER) % WORD
    let (addr, m) ← createHeapBlock s s.addr size
    let (element, m) ← oarrayInsert allocGreater m s.allocs newHeaderAddr
    if element ≠ newHeaderAddr then .error (.panic "heap header insertion failure")
    else .ok (allocAddr, { s with mem := m, addr })

/-- `_malloc` when the block at index `space` is used again. -/
def mallocReuse (s : HeapState) (space : Nat) : Except Fault (Nat × HeapState) := do
  let header := oarrayGet s.mem s.allocs space
  assert (decide (header ≠ 0)) "header != nullptr"
  assert (decide (crc s.mem header = HEAP_CRC)) "header->crc == HEAP_CRC"
  let m := store s.mem (header + 4) 1 HEAP_HEAD_IN_USE.toNat
  .ok ((header + SIZEOF_POINTER) % WORD, { s with mem := m })

/-- `kmalloc`, that is `_malloc`. -/
def kmalloc (s : HeapState) (size : Nat) : Except Fault (Nat × HeapState) := do
  match ← findBestFreeSpace s size with
  | none => mallocNew s size
  | some space => mallocReuse s space

/-- `header` in `_free`. -/
def freeHeader (addr : Nat) : Nat := (addr + (WORD - SIZEOF_HEADER)) % WORD

/-- `footer` in `_free`. -/
def freeFooter (m : Memory) (addr : Nat) : Nat :=
  (addr + blockSize m (freeHeader addr) + (WORD - SIZEOF_FOOTER)) % WORD

/-- `kfree`, that is `_free`. Where the footer it computes is no address of the heap, the code may
fault at the loads of the footer already. -/
def kfree (s : HeapState) (addr : Nat) : Except Fault HeapState :=
  if addr = 0 then .ok s
  else do
    let header := freeHeader addr
    let footer := freeFooter s.mem addr
    assert (decide (crc s.mem header = crc s.mem footer ∧ crc s.mem header = HEAP_CRC))
      "header->crc == footer->crc && header->crc == HEAP_CRC"
    assert (decide (footerHeader s.mem footer = header)) "footer->header == header"
    .ok { s with mem := store s.mem (header + 4) 1 HEAP_HEAD_AVAILABLE.toNat }

/-- `kalloc_init`. The array is given the first page of the heap by `kmalloc_bootstrap`. -/
def kallocInit (hooks : OarrayHooks) (m : Memory) : HeapState :=
  let map := HEAP_VIRT
  { mem := oarrayInit hooks PAGE_SIZE map m
    addr := (HEAP_VIRT + PAGE_SIZE) % WORD
    size := HEAP_SIZE
    allocs := map }

end Twos.Heap
