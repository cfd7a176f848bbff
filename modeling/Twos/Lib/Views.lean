import Twos.Lib.Loop

/-!
# Machines through a view, and requests by priority

A machine whose steps can be told from a view of its states has, through that view, the runs of the
smaller machine. What a device serves one at a time, the highest first, is a set of numbers below a
bound from which the topmost is taken until none is left.

* `foldlM_seenAs` takes a run to the view, and `foldlM_invariant` is the invariant rule for runs that
  are folds.
* `members` lists the set, the greatest first, and `topmost` is its head (`topmost_eq_head`); taking
  that out leaves the tail (`members_without`).
* `topmost_shift` is for a set that lies in a window of the numbers.
-/

namespace Twos.Lib

variable {σ τ α β : Type}

/-! ## Views -/

/-- Seen through `view`, an operation does what it does on the smaller machine. -/
def SeenAs (view : σ → τ) (step : σ → α → Option σ) (seen : τ → α → Option τ) (s : σ) (op : α) : Prop :=
  (step s op).map view = seen (view s) op

/-- So do sequences of operations, where an invariant makes every operation do so. -/
theorem foldlM_seenAs {view : σ → τ} {step : σ → α → Option σ} {seen : τ → α → Option τ}
    {valid : α → Prop} (I : σ → Prop) (hseen : ∀ s op, I s → valid op → SeenAs view step seen s op)
    (hkeep : ∀ s op t, I s → valid op → step s op = some t → I t) {ops : List α}
    (hvalid : ∀ op ∈ ops, valid op) {s : σ} (hs : I s) :
    (ops.foldlM step s).map view = ops.foldlM seen (view s) := by
  induction ops generalizing s with
  | nil => rfl
  | cons op ops ih =>
      have hop : valid op := hvalid op List.mem_cons_self
      have hrest : ∀ op' ∈ ops, valid op' := fun op' h => hvalid op' (List.mem_cons_of_mem _ h)
      have hfirst := hseen s op hs hop
      rw [List.foldlM_cons, List.foldlM_cons, ← hfirst]
      cases hstep : step s op with
      | none => rfl
      | some t => exact ih hrest (hkeep s op t hs hop hstep)

/-- What holds at the start and is kept by every operation holds at the end. -/
theorem foldlM_invariant {step : σ → α → Option σ} {valid : α → Prop} (I : σ → Prop)
    (hkeep : ∀ s op t, I s → valid op → step s op = some t → I t) {ops : List α}
    (hvalid : ∀ op ∈ ops, valid op) {s t : σ} (hs : I s) (hrun : ops.foldlM step s = some t) :
    I t := by
  induction ops generalizing s with
  | nil =>
      cases hrun
      exact hs
  | cons op ops ih =>
      rw [List.foldlM_cons, Option.bind_eq_bind, Option.bind_eq_some_iff] at hrun
      obtain ⟨u, hstep, hrest⟩ := hrun
      exact ih (fun op' h => hvalid op' (List.mem_cons_of_mem _ h))
        (hkeep s op u hs (hvalid op List.mem_cons_self) hstep) hrest

/-! ## Sets of requests

Interrupts that wait are a set of numbers, of which the highest is served first. `members` lists
them in that order, so that serving one of them takes the head off the list (`members_without`).
-/

/-- The members below `n`, the highest first. -/
def members (set : Nat → Bool) : Nat → List Nat
  | 0 => []
  | n + 1 => if set n then n :: members set n else members set n

/-- The highest member below `n`. -/
def topmost (set : Nat → Bool) : Nat → Option Nat
  | 0 => none
  | n + 1 => if set n then some n else topmost set n

/-- The set without `v`. -/
def without (set : Nat → Bool) (v : Nat) : Nat → Bool := fun w => if w = v then false else set w

variable {set set' : Nat → Bool} {n v w : Nat} {rest : List Nat}

theorem topmost_eq_head (set : Nat → Bool) (n : Nat) : topmost set n = (members set n).head? := by
  induction n with
  | zero => rfl
  | succ n ih =>
      rw [topmost, members]
      split
      · rfl
      · exact ih

@[simp] theorem mem_members : v ∈ members set n ↔ v < n ∧ set v = true := by
  induction n with
  | zero => simp [members]
  | succ n ih =>
      rw [members]
      split
      · next hset =>
        rw [List.mem_cons, ih]
        grind
      · next hset =>
        rw [ih]
        grind

theorem members_congr (h : ∀ v, v < n → set v = set' v) : members set n = members set' n := by
  induction n with
  | zero => rfl
  | succ n ih =>
      rw [members, members, h n (Nat.lt_succ_self n), ih fun v hv => h v (Nat.lt_succ_of_lt hv)]

theorem topmost_congr (h : ∀ v, v < n → set v = set' v) : topmost set n = topmost set' n := by
  rw [topmost_eq_head, topmost_eq_head, members_congr h]

/-- Taking the topmost leaves the others in their order. -/
theorem members_without (h : members set n = v :: rest) : members (without set v) n = rest := by
  induction n with
  | zero => cases h
  | succ n ih =>
      rw [members] at h ⊢
      split at h
      · obtain ⟨rfl, rfl⟩ := List.cons.inj h
        have hgone : without set n n = false := if_pos rfl
        rw [hgone, if_neg Bool.false_ne_true]
        exact members_congr fun w hw => if_neg (Nat.ne_of_lt hw)
      · next hset =>
        have hstays : without set v n = false := by simp [without, hset]
        rw [hstays, if_neg Bool.false_ne_true]
        exact ih h

theorem topmost_of_members (h : members set n = v :: rest) : topmost set n = some v := by
  rw [topmost_eq_head, h]
  rfl

theorem topmost_none (h : ∀ v, v < n → set v = false) : topmost set n = none := by
  rw [topmost_eq_head, List.head?_eq_none_iff, List.eq_nil_iff_forall_not_mem]
  intro v hv
  obtain ⟨hlt, hset⟩ := mem_members.mp hv
  rw [h v hlt] at hset
  cases hset

theorem topmost_some (h : topmost set n = some v) : v < n ∧ set v = true := by
  rw [topmost_eq_head] at h
  exact mem_members.mp (List.mem_of_head? h)

theorem topmost_single (hv : v < n) : topmost (fun w => if w = v then true else false) n = some v := by
  cases htop : topmost (fun w => if w = v then true else false) n with
  | none =>
      rw [topmost_eq_head, List.head?_eq_none_iff, List.eq_nil_iff_forall_not_mem] at htop
      exact absurd (mem_members.mpr ⟨hv, if_pos rfl⟩) (htop v)
  | some w =>
      have hw := (topmost_some htop).2
      split at hw
      · next heq => exact congrArg some heq
      · cases hw

/-- Where the members are all from one stretch, the topmost is found in the stretch. -/
theorem topmost_shift (low size : Nat) {bound : Nat} (hbound : low + size ≤ bound)
    (hset : ∀ v, set v = true → low ≤ v ∧ v < low + size) :
    topmost set bound = (topmost (fun i => set (low + i)) size).map (low + ·) := by
  -- nothing above the window is set,
  have hnone : ∀ k, topmost set (low + size + k) = topmost set (low + size) := by
    intro k
    induction k with
    | zero => rfl
    | succ k ih =>
        have hout : ¬ set (low + size + k) = true := by
          intro h
          have := hset _ h
          omega
        rw [← Nat.add_assoc, topmost, if_neg hout, ih]
  -- nothing below it,
  have hlow : ∀ i, i ≤ low → topmost set i = none := fun i hi => topmost_none fun v hv => by
    rw [Bool.eq_false_iff]
    intro h
    have := hset v h
    omega
  -- and inside it the search goes as it does on the window moved down to 0
  have hinside : ∀ i, topmost set (low + i) = (topmost (fun j => set (low + j)) i).map (low + ·) := by
    intro i
    induction i with
    | zero => exact hlow low (Nat.le_refl low)
    | succ i ih =>
        rw [← Nat.add_assoc, topmost, topmost]
        split
        · rfl
        · exact ih
  obtain ⟨k, rfl⟩ := Nat.exists_eq_add_of_le hbound
  rw [hnone, hinside]

end Twos.Lib
