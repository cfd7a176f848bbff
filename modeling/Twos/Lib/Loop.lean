/-!
# Loops and runs

The two ways a C routine repeats itself, as functions into `Except`, and the way a system does, as a
relation. Nothing here knows about a kernel: the state, the errors and the operations are arbitrary.

* `forLt body n` is `for (i = 0; i < n; ++i) body(i)`; a body that returns or breaks out early does
  so through the error side. `forLt_rule` is its invariant rule, `forLt_iterations` gives the states
  between the turns.
* `whileLoop` is `while (cond) body`, with fuel. The rule `whileLoop_rule` asks for a measure that
  fits the fuel, so a loop proved with it is a loop proved to end. `whileLoop_simulates` and
  `whileLoop_map` carry a run over to another loop, and `whileLoop_ends_iff` says without any fuel
  when a loop ends: after some turn there is no further one.
* `Outcome P E x` says what holds of the value or of the error of `x`; `Computes x c v` that `x` is
  `v` exactly under the condition `c`, which is what the exact conditions of the later results compose from.
* `Run step init ops s` says that performing `ops` in order leads from `init` to `s`.
  `Run.invariant` is the one induction that the developments over it need.
-/

namespace Twos.Lib

variable {ε σ τ α : Type}

/-! ## Sequencing

A routine is a chain of fallible steps, and there are two ways to follow one. `Outcome` is for steps
of which both ends matter: what the value is like, and what the errors mean. `Computes` is for steps
that return one known value under a condition, so that a chain of them computes its last value under
the conjunction of the conditions, each of which may rely on the ones before it.
-/

/-- A sequence of two fallible steps succeeds exactly when both do. -/
theorem seq_ok {first : Except ε σ} {next : σ → Except ε τ} {t : τ} :
    first >>= next = .ok t ↔ ∃ s, first = .ok s ∧ next s = .ok t := by
  cases first with
  | error e => exact Iff.intro (fun h => by cases h) (fun ⟨_, h, _⟩ => by cases h)
  | ok s => exact Iff.intro (fun h => ⟨s, rfl, h⟩) (fun ⟨_, h, ht⟩ => by cases h; exact ht)

@[simp] theorem ok_seq (s : σ) (next : σ → Except ε τ) : (.ok s >>= next) = next s := rfl

@[simp] theorem error_seq (e : ε) (next : σ → Except ε τ) :
    ((.error e : Except ε σ) >>= next) = .error e := rfl

/-- What a fallible step ends in: `P` of its value, or `E` of its error. -/
def Outcome (P : σ → Prop) (E : ε → Prop) : Except ε σ → Prop
  | .ok s => P s
  | .error e => E e

@[simp] theorem outcome_ok {P : σ → Prop} {E : ε → Prop} {s : σ} :
    Outcome P E (.ok s) = P s := rfl

@[simp] theorem outcome_error {P : σ → Prop} {E : ε → Prop} {e : ε} :
    Outcome P E (.error e : Except ε σ) = E e := rfl

instance {P : σ → Prop} {E : ε → Prop} [DecidablePred P] [DecidablePred E] :
    (x : Except ε σ) → Decidable (Outcome P E x)
  | .ok s => inferInstanceAs (Decidable (P s))
  | .error e => inferInstanceAs (Decidable (E e))

/-- A step that returns one value. -/
theorem Outcome.eq_ok {s : σ} {x : Except ε σ} (hx : Outcome (· = s) (fun _ => False) x) :
    x = .ok s := by
  cases x with
  | error e => exact hx.elim
  | ok t => exact congrArg Except.ok hx

/-- A step with no error to end in returns. -/
theorem Outcome.returns {P : σ → Prop} {x : Except ε σ} (hx : Outcome P (fun _ => False) x) :
    ∃ s, x = .ok s ∧ P s := by
  cases x with
  | error e => exact hx.elim
  | ok s => exact ⟨s, rfl, hx⟩

/-- A step that returns, from what it returns after a function of its value. -/
theorem ok_of_map {f : σ → τ} {t : τ} {x : Except ε σ} (h : x.map f = .ok t) :
    ∃ s, x = .ok s ∧ f s = t := by
  cases x with
  | error e => cases h
  | ok s => exact ⟨s, rfl, Except.ok.inj h⟩

theorem Outcome.imp {P Q : σ → Prop} {E F : ε → Prop} {x : Except ε σ} (hx : Outcome P E x)
    (hP : ∀ s, P s → Q s) (hE : ∀ e, E e → F e) : Outcome Q F x := by
  cases x with
  | error e => exact hE e hx
  | ok s => exact hP s hx

theorem Outcome.bind {P : σ → Prop} {Q : τ → Prop} {E : ε → Prop} {x : Except ε σ}
    {f : σ → Except ε τ} (hx : Outcome P E x) (hf : ∀ s, P s → Outcome Q E (f s)) :
    Outcome Q E (x >>= f) := by
  cases x with
  | error e => exact hx
  | ok s => exact hf s hx

/-- The step succeeds exactly where `c` holds, and then with `v`. -/
structure Computes (x : Except ε σ) (c : Prop) (v : σ) : Prop where
  returns : c → x = .ok v
  needs : ∀ s, x = .ok s → c

section Computes

variable {x : Except ε σ} {f : σ → Except ε τ} {c d : Prop} {v : σ} {w : τ}

theorem Computes.of_eq (h : x = .ok v) : Computes x True v := ⟨fun _ => h, fun _ _ => trivial⟩

theorem Computes.ok (v : σ) : Computes (.ok v : Except ε σ) True v := .of_eq rfl

theorem Computes.error (e : ε) (v : σ) : Computes (.error e) False v :=
  ⟨fun h => h.elim, fun s h => by cases h⟩

theorem Computes.congr (h : Computes x c v) (hiff : d ↔ c) : Computes x d v :=
  ⟨fun hd => h.returns (hiff.mp hd), fun s hs => hiff.mpr (h.needs s hs)⟩

/-- A step that does not succeed computes nothing, or anything. -/
theorem Computes.of_not (h : Computes x c v) (hc : ¬ c) (hd : ¬ d) (v' : σ) : Computes x d v' :=
  ⟨fun h' => absurd h' hd, fun s hs => absurd (h.needs s hs) hc⟩

/-- One step after the other. -/
theorem Computes.bind (hx : Computes x c v) (hf : c → Computes (f v) d w) :
    Computes (x >>= f) (c ∧ d) w := by
  constructor
  · rintro ⟨hc, hd⟩
    rw [hx.returns hc, ok_seq, (hf hc).returns hd]
  · intro t ht
    obtain ⟨s, hs, hrest⟩ := seq_ok.mp ht
    have hc := hx.needs s hs
    obtain rfl := Except.ok.inj ((hx.returns hc).symm.trans hs)
    exact ⟨hc, (hf hc).needs t hrest⟩

/-- A step whose value is worked on. -/
theorem Computes.map (hx : Computes x c v) (g : σ → τ) :
    Computes (x >>= fun s => .ok (g s)) c (g v) :=
  (hx.bind fun _ => Computes.ok (g v)).congr (and_true c).symm.to_iff

end Computes

/-! ## Counting loops -/

/-- `for (i = 0; i < n; ++i) body(i)`, stopping at the first error. -/
def forLt (body : Nat → σ → Except ε σ) : Nat → σ → Except ε σ
  | 0, s => .ok s
  | n + 1, s => do
      let s ← forLt body n s
      body n s

/-- The invariant rule for counting loops: `I i` holds before iteration `i`, and an early exit
leaves with `E`. -/
theorem forLt_rule (I : Nat → σ → Prop) (E : ε → Prop) {body : Nat → σ → Except ε σ} {n : Nat}
    {s : σ} (h0 : I 0 s)
    (hs : ∀ i, i < n → ∀ s, I i s → Outcome (I (i + 1)) E (body i s)) :
    Outcome (I n) E (forLt body n s) := by
  induction n with
  | zero => exact h0
  | succ n ih =>
      have hn := ih (fun i hi => hs i (Nat.lt_succ_of_lt hi))
      exact hn.bind (fun s h => hs n (Nat.lt_succ_self n) s h)

/-- A loop that ends has made each of its iterations. -/
theorem forLt_iterations {body : Nat → σ → Except ε σ} {n : Nat} {s t : σ}
    (h : forLt body n s = .ok t) {i : Nat} (hi : i < n) : ∃ s t, body i s = .ok t := by
  induction n generalizing t with
  | zero => exact absurd hi (Nat.not_lt_zero i)
  | succ n ih =>
      obtain ⟨u, hbefore, hlast⟩ := seq_ok.mp h
      rcases Nat.lt_succ_iff_lt_or_eq.mp hi with hlt | rfl
      · exact ih hbefore hlt
      · exact ⟨u, t, hlast⟩

/-- A loop on more than is looked at. -/
theorem forLt_map (π : σ → τ) {body : Nat → σ → Except ε σ} {body' : Nat → τ → Except ε τ}
    (hbody : ∀ i s, (body i s).map π = body' i (π s)) (n : Nat) (s : σ) :
    (forLt body n s).map π = forLt body' n (π s) := by
  induction n with
  | zero => rfl
  | succ n ih =>
      rw [forLt, forLt, ← ih]
      cases forLt body n s with
      | error e => rfl
      | ok t => exact hbody n t

/-! ## Conditional loops

A `while` loop is run with fuel, and the rules differ in what they say about it. `whileLoop_rule`
has a measure, and with it the loop never runs out. `whileLoop_invariant` and `whileLoop_simulates`
are about loops that have ended, and need none. `whileLoop_mono` says that more fuel does not matter
to a loop that has ended, which is what makes "with some fuel" the right notion of ending.
-/

/-- `while (cond) body`, for at most `fuel` iterations; `out` is the error of running out. -/
def whileLoop (out : ε) (cond : σ → Bool) (body : σ → Except ε σ) : Nat → σ → Except ε σ
  | 0, s => if cond s then .error out else .ok s
  | fuel + 1, s =>
      if cond s then do
        let s ← body s
        whileLoop out cond body fuel s
      else .ok s

/-- One iteration. -/
theorem whileLoop_true {out : ε} {cond : σ → Bool} {body : σ → Except ε σ} {fuel : Nat} {s s' : σ}
    (hcond : cond s = true) (hbody : body s = .ok s') :
    whileLoop out cond body (fuel + 1) s = whileLoop out cond body fuel s' := by
  rw [whileLoop, if_pos hcond, hbody, ok_seq]

/-- No iteration. -/
theorem whileLoop_false {out : ε} {cond : σ → Bool} {body : σ → Except ε σ} {fuel : Nat} {s : σ}
    (hcond : cond s = false) : whileLoop out cond body fuel s = .ok s := by
  have hne : ¬ cond s = true := by rw [hcond]; exact Bool.false_ne_true
  cases fuel with
  | zero => rw [whileLoop, if_neg hne]
  | succ fuel => rw [whileLoop, if_neg hne]

/-- A loop that returns, each of whose iterations another loop makes too. -/
theorem whileLoop_mono {out : ε} {cond : σ → Bool} {body body' : σ → Except ε σ} {fuel : Nat}
    {s t : σ} (hbody : ∀ s t, body s = .ok t → body' s = .ok t)
    (h : whileLoop out cond body fuel s = .ok t) : whileLoop out cond body' fuel s = .ok t := by
  induction fuel generalizing s with
  | zero => exact h
  | succ fuel ih =>
      cases hcond : cond s with
      | false =>
          rw [whileLoop_false hcond] at h ⊢
          exact h
      | true =>
          rw [whileLoop, if_pos hcond] at h
          obtain ⟨s', hstep, hrest⟩ := seq_ok.mp h
          rw [whileLoop_true hcond (hbody s s' hstep)]
          exact ih hrest

/-- The invariant rule for conditional loops. The measure `μ` bounds the iterations that are left,
so a loop it applies to never runs out of fuel. -/
theorem whileLoop_rule (I : σ → Prop) (E : ε → Prop) (μ : σ → Nat) {out : ε} {cond : σ → Bool}
    {body : σ → Except ε σ} {fuel : Nat} {s : σ} (h0 : I s) (hfuel : μ s < fuel)
    (hs : ∀ s, I s → cond s = true → Outcome (fun s' => I s' ∧ μ s' < μ s) E (body s)) :
    Outcome (fun s' => I s' ∧ cond s' = false) E (whileLoop out cond body fuel s) := by
  induction fuel generalizing s with
  | zero => exact absurd hfuel (Nat.not_lt_zero _)
  | succ fuel ih =>
      rw [whileLoop]
      split
      · next hc =>
        refine (hs s h0 hc).bind (fun s' h => ih h.1 ?_)
        have := h.2
        omega
      · next hc => exact ⟨h0, by simpa using hc⟩

/-- One iteration, and the others. -/
theorem whileLoop_computes {out : ε} {cond : σ → Bool} {body : σ → Except ε σ} {fuel : Nat}
    {s s' t : σ} {c d : Prop} (hcond : cond s = true) (hbody : Computes (body s) c s')
    (hrest : c → Computes (whileLoop out cond body fuel s') d t) :
    Computes (whileLoop out cond body (fuel + 1) s) (c ∧ d) t := by
  rw [whileLoop, if_pos hcond]
  exact hbody.bind hrest

/-- Two bodies that do the same wherever the loop gets to. -/
theorem whileLoop_congr (I : σ → Prop) {out : ε} {cond : σ → Bool} {body body' : σ → Except ε σ}
    {fuel : Nat} {s : σ} (h0 : I s)
    (hs : ∀ s, I s → cond s = true → body s = body' s ∧ ∀ s', body' s = .ok s' → I s') :
    whileLoop out cond body fuel s = whileLoop out cond body' fuel s := by
  induction fuel generalizing s with
  | zero => rfl
  | succ fuel ih =>
      rw [whileLoop, whileLoop]
      split
      · next hcond =>
        obtain ⟨heq, hnext⟩ := hs s h0 hcond
        rw [heq]
        cases hbody : body' s with
        | error e => rfl
        | ok s' => exact ih (hnext s' hbody)
      · rfl

/-- What holds initially and is kept by every iteration holds where a loop ends, if it does. -/
theorem whileLoop_invariant (I : σ → Prop) {out : ε} {cond : σ → Bool} {body : σ → Except ε σ}
    (hs : ∀ s, I s → cond s = true → ∀ s', body s = .ok s' → I s') {fuel : Nat} {s s' : σ} (h0 : I s)
    (hrun : whileLoop out cond body fuel s = .ok s') : I s' ∧ cond s' = false := by
  induction fuel generalizing s with
  | zero =>
      -- out of fuel: the loop can only have left
      rw [whileLoop] at hrun
      split at hrun
      · cases hrun
      · next hc =>
        obtain rfl := Except.ok.inj hrun
        exact ⟨h0, by simpa using hc⟩
  | succ fuel ih =>
      rw [whileLoop] at hrun
      split at hrun
      · -- one more turn keeps the invariant, and the rest of the run has less fuel
        next hc =>
        obtain ⟨t, ht, hrest⟩ := seq_ok.mp hrun
        exact ih (hs s h0 hc t ht) hrest
      · next hc =>
        obtain rfl := Except.ok.inj hrun
        exact ⟨h0, by simpa using hc⟩

/-- A loop that another one follows step by step: where the first ends, so does the second, in a
related state. -/
theorem whileLoop_simulates {ε' : Type} (R : σ → τ → Prop) {out : ε} {out' : ε'} {cond : σ → Bool}
    {cond' : τ → Bool} {body : σ → Except ε σ} {body' : τ → Except ε' τ}
    (hcond : ∀ s t, R s t → cond s = cond' t)
    (hbody : ∀ s t, R s t → cond s = true → ∀ s', body s = .ok s' →
      ∃ t', body' t = .ok t' ∧ R s' t')
    {fuel : Nat} {s s' : σ} {t : τ} (h : R s t) (hrun : whileLoop out cond body fuel s = .ok s') :
    ∃ t', whileLoop out' cond' body' fuel t = .ok t' ∧ R s' t' := by
  induction fuel generalizing s t with
  | zero =>
      -- no turn is left, so the two loops stop together
      rw [whileLoop] at hrun ⊢
      rw [← hcond s t h]
      split at hrun
      · cases hrun
      · next hc =>
        obtain rfl := Except.ok.inj hrun
        rw [if_neg hc]
        exact ⟨t, rfl, h⟩
  | succ fuel ih =>
      rw [whileLoop] at hrun ⊢
      rw [← hcond s t h]
      split at hrun
      · -- the second loop makes the turn that the first one makes
        next hc =>
        obtain ⟨s₁, hs₁, hrest⟩ := seq_ok.mp hrun
        obtain ⟨t₁, ht₁, hR⟩ := hbody s t h hc s₁ hs₁
        rw [if_pos hc, ht₁, ok_seq]
        exact ih hR hrest
      · next hc =>
        obtain rfl := Except.ok.inj hrun
        rw [if_neg hc]
        exact ⟨t, rfl, h⟩

/-- A loop on more than is looked at. -/
theorem whileLoop_map (π : σ → τ) {out : ε} {cond : σ → Bool} {cond' : τ → Bool}
    {body : σ → Except ε σ} {body' : τ → Except ε τ} (hcond : ∀ s, cond s = cond' (π s))
    (hbody : ∀ s, (body s).map π = body' (π s)) (fuel : Nat) (s : σ) :
    (whileLoop out cond body fuel s).map π = whileLoop out cond' body' fuel (π s) := by
  induction fuel generalizing s with
  | zero =>
      rw [whileLoop, whileLoop, hcond]
      split
      · rfl
      · rfl
  | succ fuel ih =>
      rw [whileLoop, whileLoop, hcond, ← hbody]
      split
      · cases body s with
        | error e => rfl
        | ok t => exact ih t
      · rfl

/-- A loop that only counts, with fuel for what it counts. -/
theorem whileLoop_count {out : ε} {cond : Nat → Bool} {a k fuel : Nat} (hfuel : k ≤ fuel)
    (hexit : cond (a + k) = false) (hbelow : ∀ j, a ≤ j → j < a + k → cond j = true) :
    whileLoop out cond (fun i => .ok (i + 1)) fuel a = .ok (a + k) := by
  induction k generalizing a fuel with
  | zero => exact whileLoop_false hexit
  | succ k ih =>
      obtain ⟨fuel, rfl⟩ : ∃ l, fuel = l + 1 := ⟨fuel - 1, by omega⟩
      have hcond : cond a = true := hbelow a (Nat.le_refl a) (by omega)
      have hstep : whileLoop out cond (fun i => .ok (i + 1)) (fuel + 1) a =
          whileLoop out cond (fun i => .ok (i + 1)) fuel (a + 1) := whileLoop_true hcond rfl
      have hshift : a + (k + 1) = a + 1 + k := by omega
      rw [hshift] at hexit hbelow ⊢
      rw [hstep]
      exact ih (Nat.le_of_succ_le_succ hfuel) hexit fun j hj hlt => hbelow j (by omega) hlt

/-- A loop that only counts ends at the first number at which its condition fails. -/
theorem whileLoop_counts {out : ε} {cond : Nat → Bool} {a n : Nat} :
    (∃ fuel, whileLoop out cond (fun i => .ok (i + 1)) fuel a = .ok n) ↔
      a ≤ n ∧ cond n = false ∧ ∀ j, a ≤ j → j < n → cond j = true := by
  constructor
  · rintro ⟨fuel, hrun⟩
    obtain ⟨⟨hle, hbelow⟩, hexit⟩ := whileLoop_invariant
      (fun i => a ≤ i ∧ ∀ j, a ≤ j → j < i → cond j = true)
      (fun i ⟨hle, hbelow⟩ hcond i' hbody => by
        obtain rfl := Except.ok.inj hbody
        refine ⟨Nat.le_succ_of_le hle, fun j hj hlt => ?_⟩
        rcases Nat.lt_succ_iff_lt_or_eq.mp hlt with hlt | rfl
        · exact hbelow j hj hlt
        · exact hcond)
      ⟨Nat.le_refl a, fun j hj hlt => absurd hlt (Nat.not_lt.mpr hj)⟩ hrun
    exact ⟨hle, hexit, hbelow⟩
  · rintro ⟨hle, hexit, hbelow⟩
    -- the numbers that are left to count
    obtain ⟨k, rfl⟩ := Nat.exists_eq_add_of_le hle
    exact ⟨k, whileLoop_count (Nat.le_refl k) hexit hbelow⟩

/-- A loop whose body cannot fail stops early only by running out of fuel. -/
theorem whileLoop_out {out : ε} {cond : σ → Bool} {body : σ → Except ε σ} {fuel : Nat} {s : σ}
    (hbody : ∀ s, ∃ s', body s = .ok s') :
    Outcome (fun _ => True) (fun e => e = out) (whileLoop out cond body fuel s) := by
  induction fuel generalizing s with
  | zero =>
      rw [whileLoop]
      split
      · exact rfl
      · exact trivial
  | succ fuel ih =>
      rw [whileLoop]
      split
      · obtain ⟨s', hs⟩ := hbody s
        rw [hs, ok_seq]
        exact ih
      · exact trivial

/-! ## Turns

The states a loop goes through, without its fuel: `turns` is where it is after `n` turns, if it gets
there. A loop ends if this is nothing for some `n` (`whileLoop_ends_iff`), and otherwise it is a run
without end.
-/

section Turns

variable {cond : σ → Bool} {body : σ → Except ε σ} {out : ε} {fuel n : Nat} {s t : σ}

/-- One turn of a loop, unless it is left there: by its condition or by an error. -/
def turn (cond : σ → Bool) (body : σ → Except ε σ) (s : σ) : Option σ :=
  if cond s then (body s).toOption else none

/-- The state after `n` turns, if the loop makes that many. -/
def turns (cond : σ → Bool) (body : σ → Except ε σ) (s : σ) : Nat → Option σ
  | 0 => some s
  | n + 1 => (turns cond body s n).bind (turn cond body)

theorem turn_eq_some : turn cond body s = some t ↔ cond s = true ∧ body s = .ok t := by
  unfold turn
  cases cond s with
  | false => simp
  | true =>
      cases body s with
      | error e => simp [Except.toOption]
      | ok s' => simp [Except.toOption]

/-- There is no turn after the last. -/
theorem turns_none (h : turns cond body s n = none) (k : Nat) : turns cond body s (n + k) = none := by
  induction k with
  | zero => exact h
  | succ k ih => rw [← Nat.add_assoc, turns, ih, Option.bind_none]

/-- A turn takes one unit of fuel. -/
theorem whileLoop_turn (h : turn cond body s = some t) :
    whileLoop out cond body (fuel + 1) s = whileLoop out cond body fuel t := by
  obtain ⟨hcond, hbody⟩ := turn_eq_some.mp h
  exact whileLoop_true hcond hbody

/-- Where the loop is left, it does not matter what it says when the fuel is used up. -/
theorem whileLoop_left (out' : ε) (h : turn cond body s = none) :
    whileLoop out cond body (fuel + 1) s = whileLoop out' cond body (fuel + 1) s := by
  rw [whileLoop, whileLoop]
  unfold turn at h
  split
  · next hcond =>
    rw [if_pos hcond] at h
    cases hbody : body s with
    | error e => rfl
    | ok t =>
        rw [hbody] at h
        cases h
  · rfl

theorem whileLoop_turns (h : turns cond body s n = some t) :
    whileLoop out cond body (n + fuel) s = whileLoop out cond body fuel t := by
  induction n generalizing t fuel with
  | zero =>
      obtain rfl := Option.some.inj h
      rw [Nat.zero_add]
  | succ n ih =>
      obtain ⟨t', hbefore, hturn⟩ := Option.bind_eq_some_iff.mp h
      have hfuel : n + 1 + fuel = n + (fuel + 1) := by omega
      rw [hfuel, ih hbefore, whileLoop_turn hturn]

/-- A loop ends if with some fuel it does not say that this has been used up, and that is when it does
not make turns without end. -/
theorem whileLoop_ends_iff {out out' : ε} (hne : out ≠ out') :
    (∃ fuel, whileLoop out cond body fuel s = whileLoop out' cond body fuel s) ↔
      ∃ n, turns cond body s n = none := by
  constructor
  · -- a loop that goes on for ever runs out of any fuel, and then shows which error it was given
    rintro ⟨fuel, hsame⟩
    apply Classical.byContradiction
    intro hnever
    have hmakes (n : Nat) : ∃ t, turns cond body s n = some t :=
      Option.ne_none_iff_exists'.mp fun hnone => hnever ⟨n, hnone⟩
    obtain ⟨t, ht⟩ := hmakes fuel
    obtain ⟨t', ht'⟩ := hmakes (fuel + 1)
    rw [turns, ht, Option.bind_some] at ht'
    obtain ⟨hcond, -⟩ := turn_eq_some.mp ht'
    rw [show fuel = fuel + 0 from rfl, whileLoop_turns ht, whileLoop_turns ht, whileLoop,
      whileLoop, if_pos hcond, if_pos hcond] at hsame
    exact hne (Except.error.inj hsame)
  · -- from the state that no turn leads out of, the error for the fuel is never reached
    rintro ⟨n, hnone⟩
    induction n with
    | zero => cases hnone
    | succ n ih =>
        cases hbefore : turns cond body s n with
        | none => exact ih hbefore
        | some t =>
            rw [turns, hbefore, Option.bind_some] at hnone
            refine ⟨n + 1, ?_⟩
            rw [whileLoop_turns hbefore, whileLoop_turns hbefore, whileLoop_left out' hnone]

end Turns

/-! ## Runs -/

/-- Performing the operations in order leads from `init` to the last state. -/
inductive Run (step : σ → α → σ → Prop) (init : σ) : List α → σ → Prop
  | nil : Run step init [] init
  | snoc {ops : List α} {s : σ} {op : α} {t : σ} :
      Run step init ops s → step s op t → Run step init (ops ++ [op]) t

/-- The steps a partial function makes. -/
def StepOf (step : σ → α → Option σ) (s : σ) (op : α) (t : σ) : Prop := step s op = some t

/-- The steps that meet a condition on the state before them. -/
def Checked (good : σ → α → Prop) (step : σ → α → σ → Prop) (s : σ) (op : α) (t : σ) : Prop :=
  good s op ∧ step s op t

/-- What holds initially and is kept by every step holds after every run. -/
theorem Run.invariant {step : σ → α → σ → Prop} {init : σ} (I : σ → Prop) (h0 : I init)
    (hs : ∀ s op t, I s → step s op t → I t) {ops : List α} {s : σ} (h : Run step init ops s) :
    I s := by
  induction h with
  | nil => exact h0
  | snoc _ hstep ih => exact hs _ _ _ ih hstep

/-- A run makes steps of any larger relation too. -/
theorem Run.mono {step step' : σ → α → σ → Prop} {init : σ} {ops : List α} {s : σ}
    (h : Run step init ops s) (hs : ∀ s op t, step s op t → step' s op t) :
    Run step' init ops s := by
  induction h with
  | nil => exact .nil
  | snoc _ hstep ih => exact .snoc ih (hs _ _ _ hstep)

/-- A run of a step function can be found by computing it. -/
theorem run_of_foldlM {step : σ → α → Option σ} {init t : σ} {ops : List α}
    (h : ops.foldlM step init = some t) : Run (StepOf step) init ops t := by
  -- the operations still to perform extend the run that led here
  have extend : ∀ (rest done : List α) (s : σ), Run (StepOf step) init done s →
      rest.foldlM step s = some t → Run (StepOf step) init (done ++ rest) t := by
    intro rest
    induction rest with
    | nil =>
        intro done s hrun hs
        cases hs
        rwa [List.append_nil]
    | cons op rest ih =>
        intro done s hrun hs
        rw [List.foldlM_cons, Option.bind_eq_bind, Option.bind_eq_some_iff] at hs
        obtain ⟨u, hstep, hrest⟩ := hs
        rw [List.append_cons]
        exact ih _ u (hrun.snoc hstep) hrest
  exact extend ops [] init .nil h

/-- So can a run of steps that meet a condition. -/
theorem run_checked_of_foldlM {good : σ → α → Prop} [∀ s op, Decidable (good s op)]
    {step : σ → α → Option σ} {init t : σ} {ops : List α}
    (h : ops.foldlM (fun s op => if good s op then step s op else none) init = some t) :
    Run (Checked good (StepOf step)) init ops t := by
  refine (run_of_foldlM h).mono fun s op t hstep => ?_
  unfold StepOf at hstep
  dsimp only at hstep
  split at hstep
  · next hgood => exact ⟨hgood, hstep⟩
  · cases hstep

end Twos.Lib
