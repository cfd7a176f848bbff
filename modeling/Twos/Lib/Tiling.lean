/-!
# Tilings

A list of pieces that lie side by side: the first starts where the tiling starts, every other one
where the one before it ends, and the last ends where the tiling ends. What a piece is does not
matter, it only has a start and a size.

`Tiles.bounds`, `Tiles.apart` and `Tiles.unique` are what follows for one piece and for two;
`Tiles.snoc` adds a piece at the end, `Tiles.map` changes pieces where they lie, and
`Tiles.length_le` bounds how many there are.
-/

namespace Twos.Lib

variable {β : Type} {start size : β → Nat} {lo hi : Nat} {bs : List β} {b c : β}

/-- The pieces tile `[lo, hi)`, in order. -/
def Tiles (start size : β → Nat) : Nat → List β → Nat → Prop
  | lo, [], hi => lo = hi
  | lo, b :: bs, hi => start b = lo ∧ Tiles start size (lo + size b) bs hi

instance instDecidableTiles : (lo : Nat) → (bs : List β) → Decidable (Tiles start size lo bs hi)
  | lo, [] => inferInstanceAs (Decidable (lo = hi))
  | lo, b :: bs =>
      have := instDecidableTiles (lo + size b) bs
      inferInstanceAs (Decidable (start b = lo ∧ Tiles start size (lo + size b) bs hi))

theorem Tiles.le (h : Tiles start size lo bs hi) : lo ≤ hi := by
  induction bs generalizing lo with
  | nil => exact Nat.le_of_eq h
  | cons b bs ih => exact Nat.le_trans (Nat.le_add_right _ _) (ih h.2)

/-- Every piece lies inside. -/
theorem Tiles.bounds (h : Tiles start size lo bs hi) (hb : b ∈ bs) :
    lo ≤ start b ∧ start b + size b ≤ hi := by
  induction bs generalizing lo with
  | nil => cases hb
  | cons c bs ih =>
      obtain ⟨hstart, hrest⟩ := h
      rcases List.mem_cons.mp hb with rfl | hb
      · rw [hstart]
        exact ⟨Nat.le_refl _, hrest.le⟩
      · have := ih hrest hb
        exact ⟨by omega, this.2⟩

/-- One more piece at the end. -/
theorem Tiles.snoc (h : Tiles start size lo bs hi) (hb : start b = hi) :
    Tiles start size lo (bs ++ [b]) (hi + size b) := by
  induction bs generalizing lo with
  | nil =>
      obtain rfl : lo = hi := h
      exact ⟨hb, rfl⟩
  | cons c bs ih => exact ⟨h.1, ih h.2⟩

/-- Pieces come in the order of their starts. -/
theorem Tiles.pairwise (h : Tiles start size lo bs hi) :
    bs.Pairwise fun b c => start b + size b ≤ start c := by
  induction bs generalizing lo with
  | nil => exact List.Pairwise.nil
  | cons b bs ih =>
      obtain ⟨hstart, hrest⟩ := h
      apply List.Pairwise.cons
      · intro c hc
        rw [hstart]
        exact (hrest.bounds hc).1
      · exact ih hrest

/-- A piece is the first one or starts where another one ends. -/
theorem Tiles.predecessor (h : Tiles start size lo bs hi) (hb : b ∈ bs) :
    start b = lo ∨ ∃ c ∈ bs, start c + size c = start b := by
  induction bs generalizing lo with
  | nil => cases hb
  | cons d bs ih =>
      obtain ⟨hstart, hrest⟩ := h
      rcases List.mem_cons.mp hb with rfl | hbs
      · exact Or.inl hstart
      · right
        rcases ih hrest hbs with hfirst | ⟨c, hc, hend⟩
        · exact ⟨d, List.mem_cons_self, by omega⟩
        · exact ⟨c, List.mem_cons_of_mem _ hc, hend⟩

/-- Two pieces are the same or lie apart. -/
theorem Tiles.apart (h : Tiles start size lo bs hi) (hb : b ∈ bs) (hc : c ∈ bs) :
    b = c ∨ start b + size b ≤ start c ∨ start c + size c ≤ start b := by
  induction bs generalizing lo with
  | nil => cases hb
  | cons d bs ih =>
      obtain ⟨hstart, hrest⟩ := h
      rcases List.mem_cons.mp hb with rfl | hbs
      · rcases List.mem_cons.mp hc with rfl | hcs
        · exact Or.inl rfl
        · have := (hrest.bounds hcs).1
          exact Or.inr (Or.inl (by omega))
      · rcases List.mem_cons.mp hc with rfl | hcs
        · have := (hrest.bounds hbs).1
          exact Or.inr (Or.inr (by omega))
        · exact ih hrest hbs hcs

/-- Pieces of positive size with one start are one piece. -/
theorem Tiles.unique (h : Tiles start size lo bs hi) (hpos : ∀ b, 0 < size b) (hb : b ∈ bs)
    (hc : c ∈ bs) (heq : start b = start c) : b = c := by
  have hsb := hpos b
  have hsc := hpos c
  rcases h.apart hb hc with rfl | hbc | hcb
  · rfl
  · omega
  · omega

/-- A change that moves no piece leaves a tiling. -/
theorem Tiles.map {f : β → β} (hstart : ∀ b, start (f b) = start b)
    (hsize : ∀ b, size (f b) = size b) (h : Tiles start size lo bs hi) :
    Tiles start size lo (bs.map f) hi := by
  induction bs generalizing lo with
  | nil => exact h
  | cons b bs ih =>
      refine ⟨(hstart b).trans h.1, ?_⟩
      rw [hsize]
      exact ih h.2

/-- So many pieces need so much room. -/
theorem Tiles.length_le {k : Nat} (hk : ∀ b, k ≤ size b) (h : Tiles start size lo bs hi) :
    lo + k * bs.length ≤ hi := by
  induction bs generalizing lo with
  | nil => exact Nat.le_of_eq h
  | cons b bs ih =>
      have hrest := ih h.2
      have hb := hk b
      rw [List.length_cons, Nat.mul_succ]
      omega

end Twos.Lib
