import Twos.Apic.Routing

/-!
# Updating one redirection entry

`ioapic_read_redtbl_entry` shifts the upper register by 31 where it means 32, and shifts it as the
`uint32_t` it is. So of the upper half only bit 32 of the entry arrives, in bit 31, and every
operation that reads an entry, changes a field of it and writes it back hands that on. Which of them
is exact on an entry depends on the bits of the upper half that it writes back.

`readRedtblEntry_bit` says what is read, bit for bit, and the rest goes by bits as well. The masks
write the lower register only, so that what matters to them is bit 31, and with it whether bit 32
spills into it (`changesOnly_writeLow_iff`); mapping writes both registers, and loses the upper half
(`map_exact_iff`). `updatesExactly_iff` has the operations together.
-/

namespace Twos.Apic

open Lib

variable {regs regs' : Regs} {maxRedir n : Nat}

/-! ## What an operation may change -/

/-- Of all the entries only `n` differs, and there only in these bits. -/
def ChangesOnly (bits : Nat → Prop) (n : Nat) (regs regs' : Regs) : Prop :=
  ∀ k i, ¬ (k = n ∧ bits i) → (redirection regs' k).getLsbD i = (redirection regs k).getLsbD i

/-- The bits of the vector, the mask and the destination. -/
def InFields (i : Nat) : Prop := i < 8 ∨ i = 16 ∨ 56 ≤ i

/-- Entry `n` is read as it is, and is changed only where it is meant to be. -/
structure UpdatesExactly (maxRedir : Nat) (regs : Regs) (n v : Nat) : Prop where
  read : ioapicReadRedtblEntry regs n = redirection regs n
  mask : masked (redirection (ioapicMaskGsi maxRedir regs n).2 n) = true ∧
    ChangesOnly (· = 16) n regs (ioapicMaskGsi maxRedir regs n).2
  unmask : masked (redirection (ioapicUnmaskGsi maxRedir regs n).2 n) = false ∧
    ChangesOnly (· = 16) n regs (ioapicUnmaskGsi maxRedir regs n).2
  map : ChangesOnly InFields n regs (ioapicMapRedtblEntry regs n v)

/-- Where the other entries are left alone, the bits of entry `n` decide. -/
theorem changesOnly_iff {bits : Nat → Prop} {e : BitVec 64}
    (h : ∀ k, redirection regs' k = if k = n then e else redirection regs k) :
    ChangesOnly bits n regs regs' ↔
      ∀ i, ¬ bits i → e.getLsbD i = (redirection regs n).getLsbD i := by
  constructor
  · intro honly i hi
    have hbit := honly n i fun hand => hi hand.2
    rwa [h, if_pos rfl] at hbit
  · intro hentry k i hki
    rw [h]
    split
    · next hk =>
      subst hk
      exact hentry i fun hi => hki ⟨rfl, hi⟩
    · rfl

/-! ## The bits of an entry -/

theorem maskBit_getLsbD (i : Nat) : (1#64 <<< 16).getLsbD i = decide (i = 16) := by
  rw [BitVec.getLsbD_shiftLeft, BitVec.getLsbD_one]
  grind

theorem byte_getLsbD (i : Nat) : (0xFF#64).getLsbD i = decide (i < 8) := by
  rw [BitVec.getLsbD_ofNat, show 0xFF = 2 ^ 8 - 1 from rfl, Nat.testBit_two_pow_sub_one]
  grind

theorem redirection_bit (regs : Regs) (n i : Nat) :
    (redirection regs n).getLsbD i =
      if i < 32 then (regs (0x10 + 2 * n)).getLsbD i else (regs (0x11 + 2 * n)).getLsbD (i - 32) := by
  rw [redirection, BitVec.getLsbD_append]

/-- The bits that `ioapic_read_redtbl_entry` returns. -/
theorem readRedtblEntry_bit (hn : n < MAX_ENTRIES) (i : Nat) :
    (ioapicReadRedtblEntry regs n).getLsbD i =
      (decide (i < 32) && ((redirection regs n).getLsbD i ||
        decide (i = 31) && (redirection regs n).getLsbD 32)) := by
  have hhigh : (redtbl n + 1) % 256 = 0x11 + 2 * n := by
    rw [redtbl_eq hn]
    lia
  simp only [ioapicReadRedtblEntry, ioapicRead, redtbl_mod hn, hhigh, redirection_bit,
    BitVec.getLsbD_or, BitVec.getLsbD_setWidth, BitVec.getLsbD_shiftLeft]
  by_cases hlt : i < 32
  · by_cases hlast : i = 31
    · subst hlast
      simp
    · have hbelow : i < 31 := by omega
      have hwidth : i < 64 := by omega
      simp [hlt, hlast, hbelow, hwidth]
  · have hout : (regs (0x10 + 2 * n)).getLsbD i = false := BitVec.getLsbD_of_ge _ _ (by omega)
    simp [hlt, hout]

/-- The upper register, as bits of the entry. -/
theorem upper_eq_zero_iff :
    regs (0x11 + 2 * n) = 0 ↔ ∀ i, 32 ≤ i → (redirection regs n).getLsbD i = false := by
  constructor
  · intro hzero i hi
    rw [redirection_bit, if_neg (by omega), hzero]
    simp
  · intro hbits
    apply BitVec.eq_of_getLsbD_eq
    intro i _
    have hbit := hbits (32 + i) (Nat.le_add_right 32 i)
    rw [redirection_bit, if_neg (by omega), Nat.add_sub_cancel_left] at hbit
    rw [hbit]
    simp

/-! ## When each operation is exact

What is written back is what was read, except for the field. So an operation is exact where the read
is right in the registers that it writes: both for a mapping, and the lower one for a mask.
-/

theorem read_exact_iff (hn : n < MAX_ENTRIES) :
    ioapicReadRedtblEntry regs n = redirection regs n ↔ regs (0x11 + 2 * n) = 0 := by
  rw [upper_eq_zero_iff]
  constructor
  · intro hread i hi
    rw [← hread, readRedtblEntry_bit hn]
    simp [hi]
  · intro hupper
    apply BitVec.eq_of_getLsbD_eq
    intro i _
    rw [readRedtblEntry_bit hn, hupper 32 (Nat.le_refl _)]
    by_cases hlt : i < 32
    · simp [hlt]
    · simp [hlt, hupper i (by omega)]

/-- Bit 32 of an entry, which is read into bit 31, is not seen there. -/
def Unspilled (e : BitVec 64) : Prop := e.getLsbD 32 = true → e.getLsbD 31 = true

/-- Writing back the lower register, with any change to bit 16. -/
theorem changesOnly_writeLow_iff (hn : n < MAX_ENTRIES) {data : BitVec 64}
    (hkeep : ∀ i, i ≠ 16 → data.getLsbD i = (ioapicReadRedtblEntry regs n).getLsbD i) :
    ChangesOnly (· = 16) n regs (ioapicWrite regs (redtbl n) (data.setWidth 32)) ↔
      Unspilled (redirection regs n) := by
  rw [changesOnly_iff fun k => redirection_writeLow hn _]
  -- the lower half is what was written, the upper one is as before
  have hbit (i : Nat) : (regs (0x11 + 2 * n) ++ data.setWidth 32).getLsbD i =
      if i < 32 then data.getLsbD i else (redirection regs n).getLsbD i := by
    rw [BitVec.getLsbD_append, redirection_bit]
    split
    · simp [*]
    · rfl
  constructor
  · -- bit 31 is one of those that must not change, and bit 32 was read into it
    intro hsame hspill
    have hlast := hsame 31 (by decide)
    rw [hbit, if_pos (by decide), hkeep 31 (by decide), readRedtblEntry_bit hn, hspill] at hlast
    simpa using hlast.symm
  · intro hkept i hi
    rw [hbit]
    split
    · -- below 31 the bits are those that were read
      next hlt =>
      rw [hkeep i hi, readRedtblEntry_bit hn]
      by_cases hlast : i = 31
      · subst hlast
        cases hspill : (redirection regs n).getLsbD 32 with
        | false => simp
        | true => simp [hkept hspill]
      · simp [hlt, hlast]
    · rfl

theorem mask_exact_iff (hn : n < MAX_ENTRIES) (hle : n ≤ maxRedir) :
    (masked (redirection (ioapicMaskGsi maxRedir regs n).2 n) = true ∧
      ChangesOnly (· = 16) n regs (ioapicMaskGsi maxRedir regs n).2) ↔
        Unspilled (redirection regs n) := by
  rw [ioapicMaskGsi, if_neg (Nat.not_lt.mpr hle)]
  dsimp only
  rw [changesOnly_writeLow_iff hn, and_iff_right]
  · rw [redirection_writeLow hn, if_pos rfl, masked, BitVec.getLsbD_append]
    simp
  · intro i hi
    rw [BitVec.getLsbD_or, maskBit_getLsbD, decide_eq_false hi, Bool.or_false]

theorem unmask_exact_iff (hn : n < MAX_ENTRIES) (hle : n ≤ maxRedir) :
    (masked (redirection (ioapicUnmaskGsi maxRedir regs n).2 n) = false ∧
      ChangesOnly (· = 16) n regs (ioapicUnmaskGsi maxRedir regs n).2) ↔
        Unspilled (redirection regs n) := by
  rw [ioapicUnmaskGsi, if_neg (Nat.not_lt.mpr hle)]
  dsimp only
  rw [changesOnly_writeLow_iff hn, and_iff_right]
  · rw [redirection_writeLow hn, if_pos rfl, masked, BitVec.getLsbD_append]
    simp
  · intro i hi
    by_cases hlt : i < 64
    · rw [BitVec.getLsbD_and, BitVec.getLsbD_not, maskBit_getLsbD]
      simp [hlt, hi]
    · rw [BitVec.getLsbD_of_ge _ _ (by omega), BitVec.getLsbD_of_ge _ _ (by omega)]

/-- The assignments to the fields change nothing outside them. -/
theorem setFields_bit (data : BitVec 64) (v : Nat) {i : Nat} (hi : ¬ InFields i) :
    (setFields data v).getLsbD i = data.getLsbD i := by
  obtain ⟨hvector, hmask, hdest⟩ : 8 ≤ i ∧ i ≠ 16 ∧ i < 56 := by
    unfold InFields at hi
    omega
  have hbyte : ((v % 256).testBit i) = false := by
    apply Nat.testBit_lt_two_pow
    calc v % 256 < 2 ^ 8 := Nat.mod_lt _ (by decide)
      _ ≤ 2 ^ i := Nat.pow_le_pow_right (by decide) hvector
  have hnot (x : BitVec 64) (hx : x.getLsbD i = false) : (~~~x).getLsbD i = true := by
    rw [BitVec.getLsbD_not, hx]
    simp
    omega
  have hlow : (~~~0xFF#64).getLsbD i = true := by
    apply hnot
    rw [byte_getLsbD]
    simpa using hvector
  have hhigh : (~~~(0xFF#64 <<< 56)).getLsbD i = true := by
    apply hnot
    rw [BitVec.getLsbD_shiftLeft, byte_getLsbD]
    simp [hdest]
  rw [setFields]
  simp only [BitVec.getLsbD_and, BitVec.getLsbD_or, BitVec.getLsbD_ofNat, maskBit_getLsbD, hlow,
    hhigh, hbyte]
  simp [hmask]

/-- The reserved bits of an entry, and none of its fields, are what the upper register has below
the destination. -/
theorem map_exact_iff (hn : n < MAX_ENTRIES) (v : Nat) :
    ChangesOnly InFields n regs (ioapicMapRedtblEntry regs n v) ↔
      ∀ i, 32 ≤ i → i < 56 → (redirection regs n).getLsbD i = false := by
  rw [changesOnly_iff fun k => redirection_map hn v]
  have hbit {i : Nat} (hi : ¬ InFields i) := setFields_bit (ioapicReadRedtblEntry regs n)
    (v + IDT_EXCEPTIONS) hi
  constructor
  · intro hsame i hlow hhigh
    have hi : ¬ InFields i := by unfold InFields; omega
    rw [← hsame i hi, hbit hi, readRedtblEntry_bit hn]
    simp [hlow]
  · intro hreserved i hi
    rw [hbit hi, readRedtblEntry_bit hn, hreserved 32 (by omega) (by omega)]
    by_cases hlt : i < 32
    · simp [hlt]
    · have hhigh : i < 56 := by unfold InFields at hi; omega
      simp [hlt, hreserved i (by omega) hhigh]

/-- All of them are exact on the entries with nothing in the upper register, and only there. -/
theorem updatesExactly_iff (hn : n < maxRedir) (hmax : n < MAX_ENTRIES) (v : Nat) :
    UpdatesExactly maxRedir regs n v ↔ regs (0x11 + 2 * n) = 0 := by
  constructor
  · intro h
    exact (read_exact_iff hmax).mp h.read
  · intro hzero
    have hupper := upper_eq_zero_iff.mp hzero
    have hkept : Unspilled (redirection regs n) := by
      intro hspill
      rw [hupper 32 (Nat.le_refl _)] at hspill
      cases hspill
    constructor
    · exact (read_exact_iff hmax).mpr hzero
    · exact (mask_exact_iff hmax (Nat.le_of_lt hn)).mpr hkept
    · exact (unmask_exact_iff hmax (Nat.le_of_lt hn)).mpr hkept
    · exact (map_exact_iff hmax v).mpr fun i hi _ => hupper i hi

theorem updatesExactly_iff_usual :
    0 < 24 ∧ 0 < MAX_ENTRIES ∧
      (UpdatesExactly 24 usualRegs 0 0 ↔ usualRegs (0x11 + 2 * 0) = 0) :=
  ⟨by decide, by decide, updatesExactly_iff (by decide) (by decide) 0⟩

/-- Entry 0 goes to processor 1. -/
def toProcessorOne : Regs := fun r => if r = 0x11 then 1 <<< 24 else 0

/-- The destination of that entry is not read. -/
theorem updates_lose_destination :
    redirection toProcessorOne 0 = 1#64 <<< 56 ∧ ioapicReadRedtblEntry toProcessorOne 0 = 0 ∧
      ¬ UpdatesExactly 24 toProcessorOne 0 0 := by
  have hentry : redirection toProcessorOne 0 = 1#64 <<< 56 := by decide
  have hread : ioapicReadRedtblEntry toProcessorOne 0 = 0 := by decide
  refine ⟨hentry, hread, ?_⟩
  intro h
  have hexact := h.read
  rw [hread, hentry] at hexact
  exact absurd hexact (by decide)

end Twos.Apic
