import Twos.Kernel.Base
import Twos.Lib.Memory
import Twos.Phys.Model

/-!
# Multiboot information

`multiboot2.h`: what the boot loader leaves in memory is a sequence of tags, each with a type and a
size, and behind these fields that depend on the type. A tag is known by its address.
-/

namespace Twos.Boot

open Lib

abbrev MULTIBOOT_TAG_TYPE_END : Nat := 0
abbrev MULTIBOOT_TAG_TYPE_BOOT_LOADER_NAME : Nat := 2
abbrev MULTIBOOT_TAG_TYPE_MMAP : Nat := 6
abbrev MULTIBOOT_TAG_TYPE_FRAMEBUFFER : Nat := 8

/-- `tag->type`. -/
def tagType (m : Memory) (tag : Nat) : Nat := load m tag 4

/-- `tag->size`. -/
def tagSize (m : Memory) (tag : Nat) : Nat := load m (tag + 4) 4

/-! ## The memory map -/

/-- `sizeof(struct multiboot_tag_mmap)`, which does not count the entries. -/
abbrev MMAP_HEADER : Nat := 16

/-- `sizeof(struct multiboot_mmap_entry)`. -/
abbrev MMAP_ENTRY : Nat := 24

/-- `mmaps->entry_size`. -/
def entrySize (m : Memory) (tag : Nat) : Nat := load m (tag + 8) 4

/-- A `multiboot_memory_map_t`, without the field that nothing reads. -/
def readEntry (m : Memory) (a : Nat) : Phys.MmapEntry where
  addr := load m a 8
  len := load m (a + 8) 8
  type := load m (a + 16) 4

/-- The number of entries, as `kmain` computes it: a `size_t`. -/
def mmapSize (m : Memory) (tag : Nat) : Except Fault Nat :=
  if entrySize m tag = 0 then .error .divideByZero
  else .ok ((tagSize m tag + (WORD - MMAP_HEADER)) % WORD / entrySize m tag)

/-- `mmaps->entries[i]` for `i` below `n`: an array of `multiboot_memory_map_t`. -/
def mmapEntries (m : Memory) (tag n : Nat) : List Phys.MmapEntry :=
  (List.range n).map fun i => readEntry m (tag + MMAP_HEADER + MMAP_ENTRY * i)

/-- What `kmain` does with the tag of the memory map. -/
def mmapCase (m : Memory) (tag : Nat) : Except Fault Phys.Physmem := do
  let n ← mmapSize m tag
  Phys.physmemInit (mmapEntries m tag n)

end Twos.Boot
