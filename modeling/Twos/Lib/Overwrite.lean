/-!
# The last write wins

A sequence of writes to a table, where one write may reach several places at once: `touches a q`
says that a write at `a` reaches the place `q`. Performing the writes in order leaves in each place
what the last write reaching it put there, and what was there before if none did (`overwrite_eq`).

`lastWrite_append` splits a sequence, and `lastWrite_of_last` finds the last write of a sequence that
is in some order: it is the greatest of those that reach the place.
-/

namespace Twos.Lib

variable {α β γ : Type}

/-- Perform the writes `ops` in order. -/
def overwrite (touches : α → β → Bool) (ops : List (α × γ)) (old : β → γ) : β → γ :=
  ops.foldl (fun table op q => if touches op.1 q then op.2 else table q) old

/-- What the last of the writes `ops` that reaches `q` puts there. -/
def lastWrite (touches : α → β → Bool) (q : β) : List (α × γ) → Option γ
  | [] => none
  | op :: ops => (lastWrite touches q ops).or (if touches op.1 q then some op.2 else none)

variable {touches : α → β → Bool} {q : β}

theorem overwrite_append (ops ops' : List (α × γ)) (old : β → γ) :
    overwrite touches (ops ++ ops') old = overwrite touches ops' (overwrite touches ops old) :=
  List.foldl_append

/-- One more write at the end. -/
theorem overwrite_snoc (ops : List (α × γ)) (a : α) (c : γ) (old : β → γ) (q : β) :
    overwrite touches (ops ++ [(a, c)]) old q =
      if touches a q then c else overwrite touches ops old q := by
  rw [overwrite_append]
  rfl

/-- A place holds what the last write reaching it put there. -/
theorem overwrite_eq (ops : List (α × γ)) (old : β → γ) :
    overwrite touches ops old q = (lastWrite touches q ops).getD (old q) := by
  induction ops generalizing old with
  | nil => rfl
  | cons op ops ih =>
      show overwrite touches ops (fun q => if touches op.1 q then op.2 else old q) q = _
      rw [ih, lastWrite]
      cases lastWrite touches q ops with
      | some c => rfl
      | none => cases touches op.1 q <;> simp

theorem lastWrite_append (ops ops' : List (α × γ)) :
    lastWrite touches q (ops ++ ops') = (lastWrite touches q ops').or (lastWrite touches q ops) := by
  induction ops with
  | nil => simp [lastWrite]
  | cons op ops ih =>
      rw [List.cons_append, lastWrite, ih, lastWrite, Option.or_assoc]

/-- No write reaches the place. -/
theorem lastWrite_eq_none {ops : List (α × γ)} :
    lastWrite touches q ops = none ↔ ∀ op ∈ ops, touches op.1 q = false := by
  induction ops with
  | nil => simp [lastWrite]
  | cons op ops ih =>
      rw [lastWrite, Option.or_eq_none_iff, ih, List.forall_mem_cons]
      cases touches op.1 q <;> simp

/-- What the last write put there is what some write reaching the place carries. -/
theorem lastWrite_mem {ops : List (α × γ)} {c : γ} (h : lastWrite touches q ops = some c) :
    ∃ op ∈ ops, touches op.1 q = true ∧ op.2 = c := by
  induction ops with
  | nil => cases h
  | cons op ops ih =>
      rw [lastWrite, Option.or_eq_some_iff] at h
      rcases h with h | ⟨-, h⟩
      · obtain ⟨op', hmem, hop⟩ := ih h
        exact ⟨op', List.mem_cons_of_mem _ hmem, hop⟩
      · by_cases ht : touches op.1 q = true
        · rw [if_pos ht] at h
          exact ⟨op, List.mem_cons_self, ht, Option.some.inj h⟩
        · rw [if_neg ht] at h
          cases h

/-- Among writes made in order, the one that no later one follows in reaching the place decides. -/
theorem lastWrite_of_last {r : α → α → Prop} {ops : List (α × γ)}
    (hsorted : ops.Pairwise fun op op' => r op.1 op'.1) {a : α} {c : γ} (hmem : (a, c) ∈ ops)
    (htouch : touches a q = true) (hlast : ∀ op ∈ ops, touches op.1 q = true → ¬ r a op.1) :
    lastWrite touches q ops = some c := by
  induction ops with
  | nil => cases hmem
  | cons op ops ih =>
      obtain ⟨hhead, htail⟩ := List.pairwise_cons.mp hsorted
      rw [lastWrite]
      rcases List.mem_cons.mp hmem with rfl | hmem
      · have hnone : lastWrite touches q ops = none := by
          apply lastWrite_eq_none.mpr
          intro op hop
          apply Bool.eq_false_iff.mpr
          intro ht
          exact hlast op (List.mem_cons_of_mem _ hop) ht (hhead op hop)
        rw [hnone, if_pos htouch]
        rfl
      · rw [ih htail hmem fun op hop => hlast op (List.mem_cons_of_mem _ hop)]
        rfl

/-- When all writes carry the same value, a place holds it as soon as one of them reaches it. -/
theorem overwrite_const {ops : List α} {c : γ} (old : β → γ) :
    overwrite touches (ops.map (·, c)) old q = if ops.any (touches · q) then c else old q := by
  rw [overwrite_eq]
  cases h : lastWrite touches q (ops.map (·, c)) with
  | some d =>
      obtain ⟨op, hmem, ht, rfl⟩ := lastWrite_mem h
      obtain ⟨a, ha, rfl⟩ := List.mem_map.mp hmem
      rw [if_pos (List.any_eq_true.mpr ⟨a, ha, ht⟩)]
      rfl
  | none =>
      have hnone := lastWrite_eq_none.mp h
      rw [if_neg]
      · rfl
      · intro hany
        obtain ⟨a, ha, ht⟩ := List.any_eq_true.mp hany
        have := hnone (a, c) (List.mem_map_of_mem ha)
        exact absurd ht (by simp [this])

end Twos.Lib
