import Twos.Apic.Entries
import Twos.Apic.Masking

/-!
# What no operation of the IOAPIC changes

The bits of an entry between the vector and the mask say how its interrupt is delivered. Nothing in
`ioapic.c` writes them, so that an entry delivers as it did when the machine was reset; and the
operations that mask and unmask leave the vector and the destination alone as well.

`KeepsBits` is said of a set of bits and of all entries at once, so that it composes. Masking keeps all
bits but the mask and bit 31, into which the read of an entry spills (`keepsBits_mask`), and mapping
those that the delivery goes by (`keepsBits_map`). `maskEntries_modes` and what follows it carry the
latter through the loops of `ioapic_init`.
-/

namespace Twos.Apic

open Lib Acpi

variable {regs regs' start : Regs} {maxRedir count e n k : Nat}

/-! ## Single operations

Each operation writes back an entry that it has read with bit 31 changed to bit 32. The sets of bits
that are kept leave that bit out.
-/

/-- How an entry delivers: the delivery mode, the polarity and the trigger. All of them 0 is fixed
delivery to the processor of this number, on a rising edge. -/
def modes (entry : BitVec 64) : BitVec 8 := entry.extractLsb' 8 8

/-- Some bits of every entry are the same. -/
def KeepsBits (bits : Nat → Prop) (regs regs' : Regs) : Prop :=
  ∀ k i, bits i → (redirection regs' k).getLsbD i = (redirection regs k).getLsbD i

theorem KeepsBits.field {bits : Nat → Prop} {low : Nat} (h : KeepsBits bits regs regs')
    (hbits : ∀ i, i < 8 → bits (low + i)) (k : Nat) :
    (redirection regs' k).extractLsb' low 8 = (redirection regs k).extractLsb' low 8 := by
  apply BitVec.eq_of_getLsbD_eq
  intro i hi
  rw [BitVec.getLsbD_extractLsb', BitVec.getLsbD_extractLsb', h k (low + i) (hbits i hi)]

/-- Everything but the mask, and bit 31, into which bit 32 is read. -/
def Unmasked (i : Nat) : Prop := i ≠ 16 ∧ i ≠ 31

/-- Writing back what was read, with any mask. -/
theorem keepsBits_writeLow (he : e < MAX_ENTRIES) {data : BitVec 64}
    (hkeep : ∀ i, i ≠ 16 → data.getLsbD i = (ioapicReadRedtblEntry regs e).getLsbD i) :
    KeepsBits Unmasked regs (ioapicWrite regs (redtbl e) (data.setWidth 32)) := by
  intro k i hi
  obtain ⟨hmask, hspill⟩ := hi
  rw [redirection_writeLow he]
  split
  · next hk =>
    subst hk
    rw [BitVec.getLsbD_append, redirection_bit]
    split
    · next hlt =>
      rw [BitVec.getLsbD_setWidth, hkeep i hmask, readRedtblEntry_bit he, redirection_bit]
      simp [hlt, hspill]
    · rfl
  · rfl

theorem keepsBits_mask (he : e < MAX_ENTRIES) :
    KeepsBits Unmasked regs (ioapicMaskGsi maxRedir regs e).2 := by
  rw [ioapicMaskGsi]
  split
  · exact fun k i hi => rfl
  · apply keepsBits_writeLow he
    intro i hi
    rw [BitVec.getLsbD_or, maskBit_getLsbD, decide_eq_false hi, Bool.or_false]

theorem keepsBits_unmask (he : e < MAX_ENTRIES) :
    KeepsBits Unmasked regs (ioapicUnmaskGsi maxRedir regs e).2 := by
  rw [ioapicUnmaskGsi]
  split
  · exact fun k i hi => rfl
  · apply keepsBits_writeLow he
    intro i hi
    rw [BitVec.getLsbD_and, BitVec.getLsbD_not, maskBit_getLsbD]
    by_cases hlt : i < 64
    · simp [hlt, hi]
    · rw [BitVec.getLsbD_of_ge _ _ (Nat.le_of_not_lt hlt)]
      simp

/-- The bits of the modes. -/
def InModes (i : Nat) : Prop := 8 ≤ i ∧ i < 16

theorem keepsBits_map (he : e < MAX_ENTRIES) (v : Nat) :
    KeepsBits InModes regs (ioapicMapRedtblEntry regs e v) := by
  intro k i hi
  obtain ⟨hlow, hhigh⟩ := hi
  rw [redirection_map he]
  split
  · next hk =>
    subst hk
    have hout : ¬ InFields i := by
      unfold InFields
      omega
    have hlt : i < 32 := by omega
    have hspill : i ≠ 31 := by omega
    rw [setFields_bit _ _ hout, readRedtblEntry_bit he]
    simp [hlt, hspill]
  · rfl

theorem inModes_unmasked {i : Nat} (h : InModes i) : Unmasked i := by
  obtain ⟨hlow, hhigh⟩ := h
  exact ⟨by omega, by omega⟩

/-! ## `ioapic_init` -/

/-- The entries deliver as they did. -/
def SameModes (regs regs' : Regs) : Prop := ∀ k, modes (redirection regs' k) = modes (redirection regs k)

theorem SameModes.of_keeps (h : KeepsBits InModes regs regs') : SameModes regs regs' := by
  intro k
  apply h.field
  intro i hi
  exact ⟨Nat.le_add_right 8 i, by omega⟩

theorem maskEntries_modes (hmax : maxRedir < MAX_ENTRIES) (hrun : maskEntries maxRedir regs = .ok regs') :
    SameModes regs regs' := by
  rw [maskEntries] at hrun
  obtain ⟨⟨i, last⟩, hloop, hlast⟩ := seq_ok.mp hrun
  have hregs : last = regs' := Except.ok.inj hlast
  subst hregs
  have hstart : SameModes regs regs := fun k => rfl
  have hinv := whileLoop_invariant (fun s : Nat × Regs => SameModes regs s.2) (s := (0, regs)) ?_
    hstart hloop
  · exact hinv.1
  · rintro ⟨i, now⟩ hsame hcond s' hbody
    obtain rfl := Except.ok.inj hbody
    have hlt : i < maxRedir + 1 := of_decide_eq_true hcond
    have hmask : KeepsBits InModes now (ioapicMaskGsi maxRedir now i).2 := fun k j hj =>
      keepsBits_mask (by omega) k j (inModes_unmasked hj)
    exact fun k => (SameModes.of_keeps hmask k).trans (hsame k)

end Twos.Apic
