import Mathlib.Logic.Function.Iterate
import Twos.Kernel.Access
import Twos.Lib.Loop

/-!
# Staying within reach

A routine that reads memory through a `Space` does one of two things: what it does on memory without
limits, or it stops at the first byte that is out of reach. `Yields x c v` says so of a routine `x`,
with the condition `c` under which everything it reads can be reached. The conditions of its parts
add up to the condition of the whole.

* `Yields.bind` and `forLt_yields` are the rules for a sequence and for a counted loop. Another loop
  is followed turn by turn: inside (`whileLoop_inside`), up to the turn that stops (`whileLoop_outside`),
  to its end (`whileLoop_iterate`), or for ever (`whileLoop_never`).
* `Stays` is the weaker notion, for routines that may panic on their own: they do not run into memory
  that is not mapped, or out of a table. `Yields.stays_bind` leads from one to the other.
-/

namespace Twos

open Lib

variable {α β σ : Type}

/-- The routine returns `v` where `c` holds, and stops out of reach where it does not. -/
structure Yields (x : Except Stop α) (c : Prop) (v : α) : Prop where
  inside : c → x = .ok v
  outside : ¬ c → x = .error .unmapped

variable {x : Except Stop α} {f : α → Except Stop β} {c d : Prop} {v : α} {w : β}

theorem Yields.ok (v : α) : Yields (.ok v) True v := ⟨fun _ => rfl, fun h => absurd trivial h⟩

theorem Space.read_yields (s : Space) (a n : Nat) :
    Yields (s.read a n) (s.Covers a n) (load s.mem a n) :=
  ⟨fun h => if_pos h, fun h => if_neg h⟩

theorem Space.touch_yields (s : Space) (a n : Nat) : Yields (s.touch a n) (s.Covers a n) () :=
  ⟨fun h => if_pos h, fun h => if_neg h⟩

theorem Yields.congr (h : Yields x c v) (hiff : d ↔ c) : Yields x d v :=
  ⟨fun hd => h.inside (hiff.mp hd), fun hd => h.outside (fun hc => hd (hiff.mpr hc))⟩

/-- One routine after the other. -/
theorem Yields.bind (hx : Yields x c v) (hf : c → Yields (f v) d w) :
    Yields (x >>= f) (c ∧ d) w := by
  constructor
  · rintro ⟨hc, hd⟩
    rw [hx.inside hc, ok_seq, (hf hc).inside hd]
  · intro hnot
    by_cases hc : c
    · rw [hx.inside hc, ok_seq, (hf hc).outside (fun hd => hnot ⟨hc, hd⟩)]
    · rw [hx.outside hc, error_seq]

/-- A routine whose value is worked on, without further reads. -/
theorem Yields.map (hx : Yields x c v) (g : α → β) :
    Yields (x >>= fun a => .ok (g a)) c (g v) :=
  (hx.bind fun _ => .ok (g v)).congr (and_true c).symm.to_iff

/-- A counting loop, each of whose iterations reads something. -/
theorem forLt_yields {body : Nat → σ → Except Stop σ} {c : Nat → Prop} {g : Nat → σ → σ} {n : Nat}
    (hbody : ∀ i, i < n → ∀ s, Yields (body i s) (c i) (g i s)) (s : σ) :
    Yields (forLt body n s) (∀ i, i < n → c i) ((List.range n).foldl (fun s i => g i s) s) := by
  induction n with
  | zero => exact (Yields.ok s).congr ⟨fun _ => trivial, fun _ i hi => absurd hi (Nat.not_lt_zero i)⟩
  | succ n ih =>
      have hbefore := ih fun i hi => hbody i (Nat.lt_succ_of_lt hi)
      have hlast := hbody n (Nat.lt_succ_self n)
      rw [List.range_succ, List.foldl_append, List.foldl_cons, List.foldl_nil]
      exact (hbefore.bind fun _ => hlast _).congr Nat.forall_lt_succ_right

/-! ## Conditional loops

The lemmas go by the number of iterations: up to which one the condition holds, and whether one
before that is out of reach.
-/

section Loop

variable {out : Stop} {cond : σ → Bool} {body : σ → Except Stop σ} {g : σ → σ}

/-- One iteration of a loop that reads nothing. -/
theorem whileLoop_pure {fuel : Nat} {s : σ} (hcond : cond s = true) :
    whileLoop out cond (fun s => .ok (g s)) (fuel + 1) s =
      whileLoop out cond (fun s => .ok (g s)) fuel (g s) := by
  rw [whileLoop, if_pos hcond, ok_seq]

/-- A loop that finds everything within reach, iteration by iteration. -/
theorem whileLoop_inside (fuel : Nat) (s : σ)
    (hall : ∀ i, (∀ j, j ≤ i → cond (g^[j] s) = true) → body (g^[i] s) = .ok (g (g^[i] s))) :
    whileLoop out cond body fuel s = whileLoop out cond (fun s => .ok (g s)) fuel s := by
  induction fuel generalizing s with
  | zero => rfl
  | succ fuel ih =>
      cases hcond : cond s with
      | false => rw [whileLoop_false hcond, whileLoop_false hcond]
      | true =>
          have hfirst : body s = .ok (g s) := hall 0 fun j hj => by
            obtain rfl : j = 0 := Nat.le_zero.mp hj
            exact hcond
          rw [whileLoop_true hcond hfirst, whileLoop_pure hcond]
          refine ih (g s) fun i hi => ?_
          -- iteration `i` from here on is iteration `i + 1` from the start
          rw [← Function.iterate_succ_apply]
          refine hall (i + 1) fun j hj => ?_
          cases j with
          | zero => exact hcond
          | succ j =>
              rw [Function.iterate_succ_apply]
              exact hi j (by omega)

/-- A loop that stops in iteration `i`. -/
theorem whileLoop_outside {err : Stop} {fuel i : Nat} {s : σ}
    (hcond : ∀ j, j ≤ i → cond (g^[j] s) = true)
    (hbefore : ∀ j, j < i → body (g^[j] s) = .ok (g (g^[j] s)))
    (hout : body (g^[i] s) = .error err) (hfuel : i < fuel) :
    whileLoop out cond body fuel s = .error err := by
  induction fuel generalizing i s with
  | zero => exact absurd hfuel (Nat.not_lt_zero i)
  | succ fuel ih =>
      have hnow : cond s = true := hcond 0 (Nat.zero_le i)
      cases i with
      | zero => rw [whileLoop, if_pos hnow, show body s = _ from hout, error_seq]
      | succ i =>
          rw [whileLoop_true hnow (hbefore 0 (Nat.succ_pos i))]
          refine ih (i := i) (fun j hj => ?_) (fun j hj => ?_) ?_ (by omega)
          · rw [← Function.iterate_succ_apply]
            exact hcond (j + 1) (by omega)
          · rw [← Function.iterate_succ_apply]
            exact hbefore (j + 1) (by omega)
          · rwa [← Function.iterate_succ_apply]

/-- A loop whose condition fails after `n` iterations. -/
theorem whileLoop_iterate {n fuel : Nat} {s : σ}
    (hcond : ∀ j, j < n → cond (g^[j] s) = true) (hend : cond (g^[n] s) = false) (hfuel : n ≤ fuel) :
    whileLoop out cond (fun s => .ok (g s)) fuel s = .ok (g^[n] s) := by
  induction n generalizing fuel s with
  | zero => exact whileLoop_false hend
  | succ n ih =>
      obtain ⟨fuel, rfl⟩ : ∃ k, fuel = k + 1 := ⟨fuel - 1, by omega⟩
      have hnow : cond s = true := hcond 0 (Nat.succ_pos n)
      rw [whileLoop_pure hnow, Function.iterate_succ_apply]
      refine ih (fun j hj => ?_) ?_ (by omega)
      · rw [← Function.iterate_succ_apply]
        exact hcond (j + 1) (by omega)
      · rwa [← Function.iterate_succ_apply]

/-- A loop whose condition never fails. -/
theorem whileLoop_never {fuel : Nat} {s : σ} (hcond : ∀ j, cond (g^[j] s) = true) :
    whileLoop out cond (fun s => .ok (g s)) fuel s = .error out := by
  induction fuel generalizing s with
  | zero => exact if_pos (hcond 0)
  | succ fuel ih =>
      have hnow : cond s = true := hcond 0
      rw [whileLoop_pure hnow]
      refine ih fun j => ?_
      rw [← Function.iterate_succ_apply]
      exact hcond (j + 1)

end Loop

/-! ## Staying within reach -/

/-- The errors that come with pointers: following one to a page out of reach, following one that
nobody stored, and storing one behind its table. -/
def Astray (err : Stop) : Prop := err = .unmapped ∨ err = .fault .outOfBounds

instance : DecidablePred Astray := fun err =>
  inferInstanceAs (Decidable (err = .unmapped ∨ err = .fault .outOfBounds))

/-- The routine follows no pointer astray. It may still stop for other reasons. -/
def Stays (x : Except Stop α) : Prop := ∀ err, x = .error err → ¬ Astray err

theorem stays_ok (v : α) : Stays (.ok v : Except Stop α) := by
  intro err herr
  cases herr

theorem stays_error {err : Stop} : Stays (.error err : Except Stop α) ↔ ¬ Astray err := by
  constructor
  · intro h
    exact h err rfl
  · intro h err' herr
    rwa [← Except.error.inj herr]

instance : (x : Except Stop α) → Decidable (Stays x)
  | .ok v => .isTrue (stays_ok v)
  | .error err => decidable_of_iff (¬ Astray err) stays_error.symm

theorem not_stays_unmapped : ¬ Stays (.error .unmapped : Except Stop α) :=
  fun h => stays_error.mp h (.inl rfl)

theorem not_stays_outOfBounds : ¬ Stays (.error (.fault .outOfBounds) : Except Stop α) :=
  fun h => stays_error.mp h (.inr rfl)

/-- The routine stops on its own account. -/
theorem stays_fault {fault : Fault} (h : fault ≠ .outOfBounds) :
    Stays (.error (.fault fault) : Except Stop α) := by
  rw [stays_error]
  rintro (hunmapped | hfault)
  · cases hunmapped
  · exact h (Stop.fault.inj hfault)

/-- A routine that reads, followed by another. -/
theorem Yields.stays_bind (hx : Yields x c v) : Stays (x >>= f) ↔ c ∧ Stays (f v) := by
  by_cases hc : c
  · rw [hx.inside hc, ok_seq]
    exact (and_iff_right hc).symm
  · rw [hx.outside hc, error_seq]
    exact ⟨fun h => absurd h not_stays_unmapped, fun h => absurd h.1 hc⟩

/-- What comes last does not matter if it stays within reach anyhow. -/
theorem stays_bind_last (hf : ∀ a, Stays (f a)) : Stays (x >>= f) ↔ Stays x := by
  cases x with
  | ok a => exact iff_of_true (hf a) (stays_ok a)
  | error err => rw [error_seq, stays_error, stays_error]

/-- An assertion, followed by a routine. -/
theorem stays_assert (b : Bool) (text : String) (f : Unit → Except Stop β) :
    Stays (lift (assert b text) >>= f) ↔ (b = true → Stays (f ())) := by
  cases b with
  | true => simp [lift_assert_true]
  | false =>
      rw [lift_assert_false, error_seq]
      exact iff_of_true (stays_fault (by simp)) fun h => by cases h

/-! ## Bytes -/

/-- Reaching bytes one at a time. -/
theorem Space.covers_bytes (s : Space) (p n : Nat) :
    s.Covers p n ↔ ∀ i, i < n → s.Covers (p + i) 1 := by
  constructor
  · intro h i hi x hx
    obtain rfl : x = 0 := Nat.lt_one_iff.mp hx
    exact h i hi
  · intro h i hi
    exact h i hi 0 Nat.one_pos

end Twos
