import Mathlib.Data.Nat.Find
import Mathlib.Order.Monotone.Basic
import Twos.Timer.Hpet

/-!
# Sleeping long enough

`usleep` compares two products of 64 bits: the counter times the period, and the time in
femtoseconds. Both are kept modulo 2^64, and 2^64 femtoseconds are a little more than five hours. A
shorter sleep is exact. A longer one compares with what is left of it, and ends at the first
multiple of the period that is not below that in 64 bits.

`returnsAt_iff` takes the loop away: `usleep` returns at the first of the values it reads for which the
comparison holds. Such a value never comes too early exactly when the comparison is right about all
multiples of the period up to the time (`notEarly_iff`), and that is a matter of where these multiples
lie in each round of 2^64 (`comparesExactly_iff`). `returnsAt_first` adds that a sleep below that ends at
the first tick which is late enough.
-/

namespace Twos.Timer

open Lib

variable {hpet : Hpet} {us t : Nat} {counter : Nat → Nat}

/-- `usleep(us)` returns at a poll that reads `t`. -/
def ReturnsAt (hpet : Hpet) (counter : Nat → Nat) (us t : Nat) : Prop :=
  ∃ fuel poll hpet', usleep hpet counter us fuel = .ok (poll, hpet') ∧ counter poll = t

/-- It is the first poll that reads enough. -/
theorem returnsAt_iff : ReturnsAt hpet counter us t ↔
    ∃ poll, counter poll = t ∧
      FEMTOSECONDS_PER_MICROSECOND * us % WORD ≤ hpetTimerPollTime hpet t ∧
      ∀ j, j < poll →
        hpetTimerPollTime hpet (counter j) < FEMTOSECONDS_PER_MICROSECOND * us % WORD := by
  have hloop (poll : Nat) := @whileLoop_counts _ Fault.neverEnds
    (fun i => decide (hpetTimerPollTime (hpetTimerStart hpet) (counter i) <
      FEMTOSECONDS_PER_MICROSECOND * us % WORD)) 0 poll
  have hrate (c : Nat) : hpetTimerPollTime (hpetTimerStart hpet) c = hpetTimerPollTime hpet c := rfl
  simp only [hrate, Nat.zero_le, true_and, decide_eq_true_eq, decide_eq_false_iff_not, Nat.not_lt,
    true_implies] at hloop
  constructor
  · rintro ⟨fuel, poll, hpet', hrun, rfl⟩
    obtain ⟨poll', hend, hlast⟩ := seq_ok.mp hrun
    obtain ⟨rfl, -⟩ := Prod.mk.inj (Except.ok.inj hlast)
    exact ⟨poll', rfl, (hloop poll').mp ⟨fuel, hend⟩⟩
  · rintro ⟨poll, rfl, hfirst⟩
    obtain ⟨fuel, hend⟩ := (hloop poll).mpr hfirst
    refine ⟨fuel, poll, hpetTimerStart hpet, ?_, rfl⟩
    exact seq_ok.mpr ⟨poll, hend, rfl⟩

/-- A sleep ends when its time has passed, at whatever values the counter is seen; and where nothing
overflows and no value is missed, it ends with the first one for which that is so. -/
structure SleepsLongEnough (hpet : Hpet) (us : Nat) : Prop where
  notEarly : ∀ counter, Monotone counter → (∀ i, counter i < WORD) → ∀ t,
    ReturnsAt hpet counter us t → us * FEMTOSECONDS_PER_MICROSECOND ≤ t * hpet.fPerTick
  prompt : us * FEMTOSECONDS_PER_MICROSECOND + hpet.fPerTick < WORD → ∀ counter,
    counter 0 * hpet.fPerTick < WORD → (∀ i, counter (i + 1) = counter i + 1) →
    ∃ t, ReturnsAt hpet counter us t ∧ us * FEMTOSECONDS_PER_MICROSECOND ≤ t * hpet.fPerTick ∧
      ∀ t', counter 0 ≤ t' → us * FEMTOSECONDS_PER_MICROSECOND ≤ t' * hpet.fPerTick → t ≤ t'

/-- Every multiple of the period that is too small is too small modulo 2^64 as well. -/
def ComparesExactly (us f : Nat) : Prop :=
  ∀ t, t * f < us * FEMTOSECONDS_PER_MICROSECOND →
    t * f % WORD < us * FEMTOSECONDS_PER_MICROSECOND % WORD

/-! ## Which sleeps compare exactly

The time that has passed and the time to sleep are both taken modulo 2^64. Each of the 2^64
femtoseconds that a sleep goes all the way through ends with values that are more than what is left
of the sleep modulo 2^64; the comparison is exact if none of them is a multiple of the period.
-/

/-- From any value on, counting gets to the first one that is enough. -/
theorem exists_first {f : Nat} (hf : 0 < f) (start femto : Nat) :
    ∃ n, femto ≤ (start + n) * f ∧ ∀ m, m < n → (start + m) * f < femto := by
  have hexists : ∃ n, femto ≤ (start + n) * f := by
    refine ⟨femto, ?_⟩
    calc femto ≤ start + femto := Nat.le_add_left _ _
      _ ≤ (start + femto) * f := Nat.le_mul_of_pos_right _ hf
  exact ⟨Nat.find hexists, Nat.find_spec hexists, fun m hm => Nat.lt_of_not_le (Nat.find_min hexists hm)⟩

/-- The first one is less than a period too late, unless it is the value that counting starts at. -/
theorem first_lt {f start femto n : Nat} (h : ∀ m, m < n → (start + m) * f < femto)
    (hn : n ≠ 0) : (start + n) * f < femto + f := by
  obtain ⟨m, rfl⟩ : ∃ m, n = m + 1 := Nat.exists_eq_succ_of_ne_zero hn
  have hbefore := h m (Nat.lt_succ_self m)
  have hnext : (start + (m + 1)) * f = (start + m) * f + f := by
    rw [← Nat.add_assoc, Nat.add_mul, Nat.one_mul]
  omega

/-- In none of the 2^64 femtoseconds that a sleep goes all the way through is there a multiple of the
period behind what the sleep comes to modulo 2^64. -/
def NoneBeforeWrap (us f : Nat) : Prop :=
  ∀ k, k < us * FEMTOSECONDS_PER_MICROSECOND / WORD →
    ∀ t, k * WORD + us * FEMTOSECONDS_PER_MICROSECOND % WORD ≤ t * f → (k + 1) * WORD ≤ t * f

/-- These are the multiples that are taken for enough. -/
theorem comparesExactly_iff {f : Nat} : ComparesExactly us f ↔ NoneBeforeWrap us f := by
  unfold ComparesExactly NoneBeforeWrap
  generalize us * FEMTOSECONDS_PER_MICROSECOND = femto
  have hfemto := Nat.div_add_mod' femto WORD
  constructor
  · -- a multiple in round `k`, behind what is left of the time, is already behind the time
    intro hexact k hk t hge
    apply Nat.le_of_not_lt
    intro hlt
    have hquot : t * f / WORD = k := by
      apply Nat.div_eq_of_lt_le
      · exact Nat.le_trans (Nat.le_add_right _ _) hge
      · exact hlt
    have hmul : (k + 1) * WORD ≤ femto / WORD * WORD := Nat.mul_le_mul_right _ hk
    have hsmall := hexact t (by omega)
    have hdiv := Nat.div_add_mod' (t * f) WORD
    rw [hquot] at hdiv
    omega
  · intro hnone t hlt
    have hdiv := Nat.div_add_mod' (t * f) WORD
    have hmod := Nat.mod_lt (t * f) (by decide : WORD > 0)
    rcases Nat.lt_or_eq_of_le (Nat.div_le_div_right (Nat.le_of_lt hlt) : t * f / WORD ≤ femto / WORD)
      with hround | hlast
    · -- a round before the last, in which nothing is behind what is left
      apply Nat.lt_of_not_le
      intro hge
      have hwrap := hnone (t * f / WORD) hround t (by omega)
      rw [Nat.add_mul, Nat.one_mul] at hwrap
      omega
    · -- the last round, in which the comparison is the one of the numbers themselves
      rw [hlast] at hdiv
      omega

/-- So it is for all sleeps of less than 2^64 femtoseconds. -/
theorem noneBeforeWrap_of_lt {f : Nat} (h : us * FEMTOSECONDS_PER_MICROSECOND < WORD) :
    NoneBeforeWrap us f := by
  intro k hk
  rw [Nat.div_eq_of_lt h] at hk
  exact absurd hk (Nat.not_lt_zero k)

/-- Of the others for none, but for those that leave less than a period up to the next multiple of
2^64. -/
theorem not_noneBeforeWrap {f : Nat} (hf : 0 < f) (h : WORD ≤ us * FEMTOSECONDS_PER_MICROSECOND)
    (hroom : us * FEMTOSECONDS_PER_MICROSECOND % WORD + f ≤ WORD) : ¬ NoneBeforeWrap us f := by
  unfold NoneBeforeWrap
  generalize us * FEMTOSECONDS_PER_MICROSECOND = femto at h hroom ⊢
  intro hnone
  obtain ⟨t, hge, hbefore⟩ := exists_first hf 0 (femto % WORD)
  rw [Nat.zero_add] at hge
  have hlt : t * f < WORD := by
    by_cases hzero : t = 0
    · rw [hzero, Nat.zero_mul]
      decide
    · have hnear := first_lt hbefore hzero
      rw [Nat.zero_add] at hnear
      exact Nat.lt_of_lt_of_le hnear hroom
  have hwrap := hnone 0 (Nat.div_pos h (by decide)) t (by rwa [Nat.zero_mul, Nat.zero_add])
  rw [Nat.zero_add, Nat.one_mul] at hwrap
  exact absurd hlt (Nat.not_lt.mpr hwrap)

/-! ## Both halves

A sleep that ends early has seen a value that was mistaken for enough, and every value that would be
mistaken can be the first that is seen. That is both directions for the first half; the second asks
for sleeps that do not wrap, which compare exactly anyway.
-/

/-- A sleep that ends early has taken a multiple of the period for enough, and every such multiple
can be the value that is seen. -/
theorem notEarly_iff : ComparesExactly us hpet.fPerTick ↔
    ∀ counter, Monotone counter → (∀ i, counter i < WORD) → ∀ t,
      ReturnsAt hpet counter us t → us * FEMTOSECONDS_PER_MICROSECOND ≤ t * hpet.fPerTick := by
  constructor
  · intro hexact counter _ _ t hreturns
    obtain ⟨poll, -, henough, -⟩ := returnsAt_iff.mp hreturns
    apply Nat.le_of_not_lt
    intro hearly
    rw [Nat.mul_comm FEMTOSECONDS_PER_MICROSECOND] at henough
    exact absurd henough (Nat.not_le.mpr (hexact t hearly))
  · intro hlong t hearly
    by_contra hge
    -- a counter that reads `t`, as far as 64 bits go, all the time
    have hsame : t % WORD * hpet.fPerTick % WORD = t * hpet.fPerTick % WORD := by
      rw [Nat.mod_mul_mod]
    have hreturns : ReturnsAt hpet (fun _ => t % WORD) us (t % WORD) := by
      refine returnsAt_iff.mpr ⟨0, rfl, ?_, fun j hj => absurd hj (Nat.not_lt_zero j)⟩
      rw [hpetTimerPollTime, hsame, Nat.mul_comm]
      exact Nat.le_of_not_lt hge
    have henough := hlong (fun _ => t % WORD) (fun _ _ _ => Nat.le_refl _)
      (fun _ => Nat.mod_lt _ (by decide)) _ hreturns
    have hle : t % WORD * hpet.fPerTick ≤ t * hpet.fPerTick :=
      Nat.mul_le_mul_right _ (Nat.mod_le _ _)
    exact absurd hearly (Nat.not_lt.mpr (Nat.le_trans henough hle))

/-- A short sleep with a counter of which no value is missed ends at the first that is enough. -/
theorem returnsAt_first (hperiod : 0 < hpet.fPerTick)
    (hroom : us * FEMTOSECONDS_PER_MICROSECOND + hpet.fPerTick < WORD)
    (hstart : counter 0 * hpet.fPerTick < WORD) (hcounts : ∀ i, counter (i + 1) = counter i + 1) :
    ∃ t, ReturnsAt hpet counter us t ∧ us * FEMTOSECONDS_PER_MICROSECOND ≤ t * hpet.fPerTick ∧
      ∀ t', counter 0 ≤ t' → us * FEMTOSECONDS_PER_MICROSECOND ≤ t' * hpet.fPerTick → t ≤ t' := by
  have hcounter (n : Nat) : counter n = counter 0 + n := by
    induction n with
    | zero => rfl
    | succ n ih => rw [hcounts, ih, Nat.add_assoc]
  obtain ⟨n, hge, hbefore⟩ := exists_first hperiod (counter 0) (us * FEMTOSECONDS_PER_MICROSECOND)
  have hlt : (counter 0 + n) * hpet.fPerTick < WORD := by
    by_cases hzero : n = 0
    · -- the first tick is late enough
      rwa [hzero, Nat.add_zero]
    · exact Nat.lt_trans (first_lt hbefore hzero) hroom
  have htarget : FEMTOSECONDS_PER_MICROSECOND * us % WORD = us * FEMTOSECONDS_PER_MICROSECOND := by
    rw [Nat.mul_comm]
    exact Nat.mod_eq_of_lt (Nat.lt_of_le_of_lt (Nat.le_add_right _ _) hroom)
  refine ⟨counter 0 + n, returnsAt_iff.mpr ⟨n, hcounter n, ?_, fun j hj => ?_⟩, hge, ?_⟩
  · -- the counter is still below 2^64 there
    rwa [htarget, hpetTimerPollTime, Nat.mod_eq_of_lt hlt]
  · rw [htarget, hpetTimerPollTime, hcounter]
    exact Nat.lt_of_le_of_lt (Nat.mod_le _ _) (hbefore j hj)
  · intro t' hle henough
    obtain ⟨m, rfl⟩ := Nat.exists_eq_add_of_le hle
    apply Nat.add_le_add_left
    apply Nat.le_of_not_lt
    intro hm
    exact absurd henough (Nat.not_le.mpr (hbefore m hm))

/-- `usleep` sleeps long enough if and only if no multiple of the period is mistaken for enough, as
every one is that stands before a multiple of 2^64 and behind what is left of the sleep. -/
theorem sleepsLongEnough_iff (hperiod : 0 < hpet.fPerTick) :
    SleepsLongEnough hpet us ↔ NoneBeforeWrap us hpet.fPerTick := by
  rw [← comparesExactly_iff, notEarly_iff]
  constructor
  · exact SleepsLongEnough.notEarly
  · intro hlong
    refine ⟨hlong, fun hroom counter hstart hcounts => ?_⟩
    exact returnsAt_first hperiod hroom hstart hcounts

/-- A timer of 100 MHz. -/
def usualTimer : Hpet := ⟨0, 0, 10000000, 100, 0⟩

theorem sleepsLongEnough_iff_usual : 0 < usualTimer.fPerTick ∧ SleepsLongEnough usualTimer 500000 :=
  ⟨by decide, (sleepsLongEnough_iff (by decide)).mpr (noneBeforeWrap_of_lt (by decide))⟩

/-- A sleep of more than five hours ends after 30 ticks. -/
theorem usleep_early : 18446744074 < WORD ∧ ReturnsAt usualTimer (fun i => i) 18446744074 30 ∧
    30 * usualTimer.fPerTick < 18446744074 * FEMTOSECONDS_PER_MICROSECOND ∧
    ¬ SleepsLongEnough usualTimer 18446744074 := by
  have hreturns : ReturnsAt usualTimer (fun i => i) 18446744074 30 :=
    returnsAt_iff.mpr ⟨30, rfl, by decide, by decide⟩
  have hearly : 30 * usualTimer.fPerTick < 18446744074 * FEMTOSECONDS_PER_MICROSECOND := by decide
  refine ⟨by decide, hreturns, hearly, fun h => ?_⟩
  have hconstant : ReturnsAt usualTimer (fun _ => 30) 18446744074 30 :=
    returnsAt_iff.mpr ⟨0, rfl, by decide, fun j hj => absurd hj (Nat.not_lt_zero j)⟩
  have hlong := h.notEarly _ (fun _ _ _ => Nat.le_refl _) (fun _ => by decide) 30 hconstant
  exact absurd hearly (Nat.not_lt.mpr hlong)

end Twos.Timer
