import Twos.Virt.Walk

/-!
# What the boot code leaves

`multiboot.asm` sets up two ways into physical memory: the first 32 MiB where they are, until the
kernel runs in the higher half, and the first GiB from `KERNEL_VADDR` on. It stores four bytes at a
time into tables that are zeroed, and clears the entry for the low addresses when it has left them.

* `entry_putDword` and `entry_mapPages` are one store and one of its loops, on a table whose upper
  halves are still zero.
* `entry_setupPaging` puts them together to what every entry of the five tables holds, and
  `setupPaging_higherHalf` reads off what `kmain` finds: `HigherHalf`.
-/

namespace Twos.Boot

open Lib Virt

variable {m : Memory} {t u e n : Nat}

/-! ## The boot code -/

/-- `.hi_map_p2`: entry `i` of the table for the higher half. The product is one of 32 bits. -/
def hiMapP2 (i : Nat) : Nat := PAGE_SIZE * i % 2 ^ 32 ||| 0b10000011

/-- The tables in `.bss`, by their addresses in the direct map. -/
structure BootTables where
  p4Table : Nat
  p3Table : Nat
  p2Table : Nat
  p2Higher : Nat
  p3Higher : Nat

/-- `mov dword [table + 8 * i], e`. -/
def putDword (m : Memory) (table i e : Nat) : Memory := store m (entryAddr table i) 4 e

/-- `.id_map_p2` and `.hi_map_p2`: the first `n` entries of the table. -/
def mapPages (table n : Nat) (m : Memory) : Memory :=
  (List.range n).foldl (fun m i => putDword m table i (hiMapP2 i)) m

/-- What `start` writes before it loads `cr3`, and the entry that `long_mode_start` clears. -/
def setupPaging (b : BootTables) (m : Memory) : Memory :=
  let m := putDword m b.p4Table 0 ((b.p3Table - KERNEL_VADDR) ||| 0b11)
  let m := putDword m b.p3Table 0 ((b.p2Table - KERNEL_VADDR) ||| 0b11)
  let m := mapPages b.p2Table 16 m
  let m := putDword m b.p4Table 511 ((b.p3Higher - KERNEL_VADDR) ||| 0b11)
  let m := putDword m b.p3Higher 510 ((b.p2Higher - KERNEL_VADDR) ||| 0b11)
  let m := mapPages b.p2Higher 512 m
  store m (entryAddr b.p4Table 0) 8 0

def BootTables.tables (b : BootTables) : List Nat :=
  [b.p4Table, b.p3Table, b.p2Table, b.p2Higher, b.p3Higher]

/-- Where the linker puts the tables: none overlaps another, and the direct map covers them. -/
structure BootTables.Placed (b : BootTables) : Prop where
  direct : ∀ t ∈ b.tables, DirectTable t
  distinct : b.tables.Nodup

/-- The tables that `kmain` finds. -/
structure HigherHalf (m : Memory) (b : BootTables) : Prop where
  p4 : ∀ i : Fin 512,
    entry m b.p4Table i = if i = 511 then (b.p3Higher - KERNEL_VADDR) ||| 0b11 else 0
  p3 : ∀ i : Fin 512,
    entry m b.p3Higher i = if i = 510 then (b.p2Higher - KERNEL_VADDR) ||| 0b11 else 0
  p2 : ∀ i : Fin 512, entry m b.p2Higher i = hiMapP2 i

/-! ## What it leaves

The boot code stores 32 bits at a time, into tables that were zero. So every entry is the low half
that was stored last, and the entries are read off from the last store to the first.
-/

/-- The upper halves of the table's entries are zero. -/
def ClearAbove (m : Memory) (t : Nat) : Prop := ∀ i : Fin 512, entry m t i < 2 ^ 32

/-- Where the upper half is zero, a store of four bytes sets the entry. -/
theorem entry_putDword (ht : DirectTable t) (hu : DirectTable u) (hclear : ClearAbove m t)
    (i : Fin 512) (he : e < 2 ^ 32) (j : Fin 512) :
    entry (putDword m t i e) u j = if (u, j) = (t, i) then e else entry m u j := by
  have hi := i.isLt
  have hj := j.isLt
  split
  · next heq =>
    obtain ⟨rfl, rfl⟩ := Prod.mk.inj heq
    have hlow := load_part (putDword m u j e) (entryAddr u j) (i := 0) (k := 4) (n := 8) (by omega)
    have hhigh := load_part (putDword m u j e) (entryAddr u j) (i := 4) (k := 4) (n := 8) (by omega)
    have hbefore := load_part m (entryAddr u j) (i := 4) (k := 4) (n := 8) (by omega)
    have hkept : load (putDword m u j e) (entryAddr u j + 4) 4 = load m (entryAddr u j + 4) 4 :=
      load_store_disjoint (.inr (Nat.le_refl _))
    have hset : load (putDword m u j e) (entryAddr u j) 4 = e := load_store_same he
    have hlt := load_lt (putDword m u j e) (entryAddr u j) 8
    have hold : load m (entryAddr u j) 8 < 2 ^ 32 := hclear j
    unfold entry
    rw [Nat.add_zero, hset] at hlow
    rw [hkept, hbefore] at hhigh
    omega
  · next hne =>
    apply load_store_disjoint
    unfold entryAddr
    by_cases htables : u = t
    · subst htables
      have hindex : j.val ≠ i.val := fun h => hne (by rw [Fin.ext h])
      omega
    · have := ht.apart hu (Ne.symm htables)
      lia

theorem hiMapP2_lt (i : Nat) : hiMapP2 i < 2 ^ 32 :=
  Nat.or_lt_two_pow (Nat.mod_lt _ (by decide)) (by decide)

/-- The loops set the entries that they count through. -/
theorem entry_mapPages (ht : DirectTable t) (hu : DirectTable u) (hclear : ClearAbove m t)
    (hn : n ≤ 512) (j : Fin 512) :
    entry (mapPages t n m) u j = if u = t ∧ j < n then hiMapP2 j else entry m u j := by
  unfold mapPages
  induction n generalizing u j with
  | zero => rw [if_neg (fun h => Nat.not_lt_zero _ h.2)]; rfl
  | succ n ih =>
      have hstill :
          ClearAbove ((List.range n).foldl (fun m i => putDword m t i (hiMapP2 i)) m) t := by
        intro i
        rw [ih ht (by omega) i]
        split
        · exact hiMapP2_lt i
        · exact hclear i
      have hput := entry_putDword ht hu hstill ⟨n, hn⟩ (hiMapP2_lt n) j
      rw [List.range_succ, List.foldl_append, List.foldl_cons, List.foldl_nil, hput,
        ih hu (by omega) j]
      grind

theorem link_lt (ht : DirectTable t) : (t - KERNEL_VADDR) ||| 0b11 < 2 ^ 32 := by
  obtain ⟨phys, rfl, -, hphys⟩ := ht
  apply Nat.or_lt_two_pow
  · rw [Nat.add_sub_cancel_left]
    lia
  · decide

/-- What a store to a clear table leaves, for all tables of a list. -/
theorem clear_putDword {ts : List Nat} (hdirect : ∀ t ∈ ts, DirectTable t)
    (hclear : ∀ t ∈ ts, ClearAbove m t) (ht : t ∈ ts) (i : Fin 512) (he : e < 2 ^ 32) :
    ∀ u ∈ ts, ClearAbove (putDword m t i e) u := by
  intro u hu j
  rw [entry_putDword (hdirect t ht) (hdirect u hu) (hclear t ht) i he j]
  split
  · exact he
  · exact hclear u hu j

theorem clear_mapPages {ts : List Nat} (hdirect : ∀ t ∈ ts, DirectTable t)
    (hclear : ∀ t ∈ ts, ClearAbove m t) (ht : t ∈ ts) (hn : n ≤ 512) :
    ∀ u ∈ ts, ClearAbove (mapPages t n m) u := by
  intro u hu j
  rw [entry_mapPages (hdirect t ht) (hdirect u hu) (hclear t ht) hn j]
  split
  · exact hiMapP2_lt j
  · exact hclear u hu j

/-- The entries of the boot tables, from the last store to the first. -/
theorem entry_setupPaging {b : BootTables} (h : b.Placed) (hblank : ∀ t ∈ b.tables, Blank m t)
    (ht : t ∈ b.tables) (i : Fin 512) :
    entry (setupPaging b m) t i =
      if (t, i) = (b.p4Table, 0) then 0
      else if t = b.p2Higher ∧ i.val < 512 then hiMapP2 i
      else if (t, i) = (b.p3Higher, 510) then (b.p2Higher - KERNEL_VADDR) ||| 0b11
      else if (t, i) = (b.p4Table, 511) then (b.p3Higher - KERNEL_VADDR) ||| 0b11
      else if t = b.p2Table ∧ i.val < 16 then hiMapP2 i
      else if (t, i) = (b.p3Table, 0) then (b.p2Table - KERNEL_VADDR) ||| 0b11
      else 0 := by
  have hdirect := h.direct
  have hclear : ∀ t ∈ b.tables, ClearAbove m t := fun t ht i => by
    rw [(hblank t ht).entry_eq]
    decide
  have h4 : b.p4Table ∈ b.tables := List.mem_cons_self
  have h3 : b.p3Table ∈ b.tables := List.mem_cons_of_mem _ List.mem_cons_self
  have h2 : b.p2Table ∈ b.tables := by simp [BootTables.tables]
  have h2' : b.p2Higher ∈ b.tables := by simp [BootTables.tables]
  have h3' : b.p3Higher ∈ b.tables := by simp [BootTables.tables]
  unfold setupPaging
  extract_lets m₁ m₂ m₃ m₄ m₅ m₆
  -- the stores are of four bytes, so each needs the upper halves of the entries still clear
  have hclear₁ : ∀ t ∈ b.tables, ClearAbove m₁ t :=
    clear_putDword hdirect hclear h4 0 (link_lt (hdirect _ h3))
  have hclear₂ : ∀ t ∈ b.tables, ClearAbove m₂ t :=
    clear_putDword hdirect hclear₁ h3 0 (link_lt (hdirect _ h2))
  have hclear₃ : ∀ t ∈ b.tables, ClearAbove m₃ t :=
    clear_mapPages hdirect hclear₂ h2 (by decide)
  have hclear₄ : ∀ t ∈ b.tables, ClearAbove m₄ t :=
    clear_putDword hdirect hclear₃ h4 511 (link_lt (hdirect _ h3'))
  have hclear₅ : ∀ t ∈ b.tables, ClearAbove m₅ t :=
    clear_putDword hdirect hclear₄ h3' 510 (link_lt (hdirect _ h2'))
  have hu := hdirect t ht
  have e₁ : entry m₁ t i = _ :=
    entry_putDword (hdirect _ h4) hu (hclear _ h4) 0 (link_lt (hdirect _ h3)) i
  have e₂ : entry m₂ t i = _ :=
    entry_putDword (hdirect _ h3) hu (hclear₁ _ h3) 0 (link_lt (hdirect _ h2)) i
  have e₃ : entry m₃ t i = _ := entry_mapPages (hdirect _ h2) hu (hclear₂ _ h2) (by decide) i
  have e₄ : entry m₄ t i = _ :=
    entry_putDword (hdirect _ h4) hu (hclear₃ _ h4) 511 (link_lt (hdirect _ h3')) i
  have e₅ : entry m₅ t i = _ :=
    entry_putDword (hdirect _ h3') hu (hclear₄ _ h3') 510 (link_lt (hdirect _ h2')) i
  have e₆ : entry m₆ t i = _ :=
    entry_mapPages (hdirect _ h2') hu (hclear₅ _ h2') (Nat.le_refl _) i
  by_cases hfirst : (t, i) = (b.p4Table, 0)
  · rw [if_pos hfirst]
    obtain ⟨rfl, rfl⟩ := Prod.mk.inj hfirst
    exact entry_store (by decide)
  · -- the first store was to the entry that the last one clears
    rw [if_neg hfirst, (hblank t ht).entry_eq] at e₁
    refine (entry_store_of_ne (hdirect _ h4) hu 0 i hfirst).trans ?_
    rw [if_neg hfirst, e₆, e₅, e₄, e₃, e₂, e₁]

/-- From zeroed tables, the boot code makes those that `kmain` finds. -/
theorem setupPaging_higherHalf {b : BootTables} (h : b.Placed)
    (hblank : ∀ t ∈ b.tables, Blank m t) : HigherHalf (setupPaging b m) b := by
  have h4 : b.p4Table ∈ b.tables := List.mem_cons_self
  have h2' : b.p2Higher ∈ b.tables := by simp [BootTables.tables]
  have h3' : b.p3Higher ∈ b.tables := by simp [BootTables.tables]
  have hdistinct := h.distinct
  simp only [BootTables.tables, List.nodup_cons, List.mem_cons, List.not_mem_nil, or_false,
    not_or] at hdistinct
  obtain ⟨⟨h43, h42, h42', h43'⟩, ⟨-, -, h33'⟩, ⟨-, h23'⟩, h23, -⟩ := hdistinct
  refine ⟨fun i => ?_, fun i => ?_, fun i => ?_⟩
  · rw [entry_setupPaging h hblank h4 i]
    by_cases hzero : i = 0
    · simp [hzero]
    · simp [hzero, h42', h43', h42, h43]
  · simp [entry_setupPaging h hblank h3' i, Ne.symm h43', Ne.symm h23, Ne.symm h23', Ne.symm h33']
  · simp [entry_setupPaging h hblank h2' i, Ne.symm h42']

/-- Tables in the second page, behind the stack. -/
def kernelTables : BootTables where
  p4Table := KERNEL_VADDR + 0x210000
  p3Table := KERNEL_VADDR + 0x211000
  p2Table := KERNEL_VADDR + 0x212000
  p2Higher := KERNEL_VADDR + 0x213000
  p3Higher := KERNEL_VADDR + 0x214000

theorem kernelTables_placed : kernelTables.Placed where
  direct := by
    have hdirect : ∀ k, k < 5 → DirectTable (KERNEL_VADDR + (0x210000 + 0x1000 * k)) := fun k hk =>
      ⟨_, rfl, by lia, by lia⟩
    intro t ht
    simp only [BootTables.tables, kernelTables, List.mem_cons, List.not_mem_nil, or_false] at ht
    rcases ht with rfl | rfl | rfl | rfl | rfl
    · exact hdirect 0 (by decide)
    · exact hdirect 1 (by decide)
    · exact hdirect 2 (by decide)
    · exact hdirect 3 (by decide)
    · exact hdirect 4 (by decide)
  distinct := by decide

end Twos.Boot
