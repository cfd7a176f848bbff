import Twos.Phys.Exclusive
import Twos.Phys.Import
import Twos.Heap.Structure
import Twos.Heap.Safety
import Twos.Heap.Free
import Twos.Virt.Tables
import Twos.Lib.Mask
import Twos.Phys.Order
import Twos.Phys.Extent
import Twos.Boot.Mmap
import Twos.Apic.Tables
import Twos.Isr.Gates
import Twos.Boot.Arguments
import Twos.Boot.FramebufferTag
import Twos.Driver.Framebuffer
import Twos.Boot.Firmware
import Twos.Kstd.Denote
import Twos.Isr.Entry
import Twos.Phys.Undo
import Twos.Phys.Recover
import Twos.Heap.Sizes
import Twos.Heap.Index
import Twos.Boot.HeapPages
import Twos.Virt.Translation
import Twos.Kstd.Ordering
import Twos.Kstd.Radix
import Twos.Kstd.Count
import Twos.Acpi.Confined
import Twos.Acpi.Lookup
import Twos.Boot.BareWords
import Twos.Apic.Entries
import Twos.Apic.Masking
import Twos.Apic.Accesses
import Twos.Timer.Sleep
import Twos.Boot.Paging
import Twos.Boot.Window
import Twos.Boot.TagWalk
import Twos.Lib.Sorted
import Twos.Types.Within
import Twos.Types.Sorted
import Twos.Lib.Answers
import Twos.Types.Removal
import Twos.Types.Calls
import Twos.Phys.Independent
import Twos.Lib.Stores
import Twos.Kstd.Concat
import Twos.Lib.Ports
import Twos.Driver.Serial
import Twos.Driver.SerialInit
import Twos.Driver.Log
import Twos.Apic.Pic
import Twos.Isr.Exceptions
import Twos.Isr.Reports
import Twos.Lib.Views
import Twos.Apic.Modes
import Twos.Isr.Interrupts
import Twos.Isr.Lines
import Twos.Isr.Served
import Twos.Boot.Gdt
import Twos.Driver.Animation
