import Mathlib.Logic.Function.Basic
import Twos.Lib.Memory

/-!
# Recorded stores

A byte memory together with the addresses that have been written. `Wrote d bs s s'` says that from `s`
to `s'` the bytes `bs` have been put from `d` on, and nothing else has been written. What a routine
writes is put together from its parts: one byte (`Wrote.put`), two pieces side by side
(`Wrote.append`), or a byte that is written once more (`Wrote.again`). `Wrote.frame` reads what lies
apart, and `Wrote.within` a part of what was written.

`storeAll` is a list of stores of one width; `load_storeAll` reads one of them back when they do not
overlap.
-/

namespace Twos.Lib

/-- A memory, and every address that has been written, the last one first. -/
structure Stores where
  mem : Memory
  written : List Nat

/-- Store one byte. -/
def Stores.put (s : Stores) (a : Nat) (byte : Byte) : Stores :=
  ⟨Function.update s.mem a byte, a :: s.written⟩

@[simp] theorem Stores.put_mem (s : Stores) (a : Nat) (byte : Byte) :
    (s.put a byte).mem = Function.update s.mem a byte := rfl

@[simp] theorem Stores.put_written (s : Stores) (a : Nat) (byte : Byte) :
    (s.put a byte).written = a :: s.written := rfl

/-! ## The bytes of a piece of memory -/

/-- The `n` bytes from `a` on. -/
def bytesAt (m : Memory) (a n : Nat) : List Byte := (List.range n).map fun i => m (a + i)

variable {m m' : Memory} {a d i k n x : Nat} {byte : Byte} {bs bs' : List Byte}
  {s s₁ s₂ : Stores}

@[simp] theorem length_bytesAt (m : Memory) (a n : Nat) : (bytesAt m a n).length = n := by
  simp [bytesAt]

theorem getElem?_bytesAt (h : i < n) : (bytesAt m a n)[i]? = some (m (a + i)) := by
  simp [bytesAt, h]

theorem bytesAt_congr (h : ∀ x, a ≤ x → x < a + n → m x = m' x) :
    bytesAt m a n = bytesAt m' a n := by
  apply List.map_congr_left
  intro i hi
  have hlt := List.mem_range.mp hi
  exact h (a + i) (by omega) (by omega)

theorem take_bytesAt (m : Memory) (a n k : Nat) :
    (bytesAt m a n).take k = bytesAt m a (min k n) := by
  rw [bytesAt, ← List.map_take, List.take_range, bytesAt]

/-- Two pieces side by side. -/
theorem bytesAt_add (m : Memory) (a n k : Nat) :
    bytesAt m a (n + k) = bytesAt m a n ++ bytesAt m (a + n) k := by
  rw [bytesAt, List.range_add, List.map_append, List.map_map]
  simp only [bytesAt, Function.comp_def, Nat.add_assoc]

theorem bytesAt_one (m : Memory) (a : Nat) : bytesAt m a 1 = [m a] := rfl

theorem bytesAt_succ (m : Memory) (a n : Nat) :
    bytesAt m a (n + 1) = m a :: bytesAt m (a + 1) n := by
  rw [Nat.add_comm n 1, bytesAt_add, bytesAt_one, List.singleton_append]

/-! ## What has been written

A routine that fills a piece of memory is summed up in `Wrote`: the bytes that are there now, and
that no others have changed. Pieces that lie behind each other add up (`Wrote.append`), which is the
step of every copying loop.
-/

/-- From `s` to `s₁`, the bytes `bs` have been written from `d` on, and no others. -/
structure Wrote (d : Nat) (bs : List Byte) (s s₁ : Stores) : Prop where
  written : ∀ x, x ∈ s₁.written ↔ x ∈ s.written ∨ (d ≤ x ∧ x < d + bs.length)
  inside : bytesAt s₁.mem d bs.length = bs
  outside : ∀ x, x < d ∨ d + bs.length ≤ x → s₁.mem x = s.mem x

theorem Wrote.refl (d : Nat) (s : Stores) : Wrote d [] s s where
  written x := by
    have hempty : ¬ (d ≤ x ∧ x < d + 0) := by omega
    exact ⟨Or.inl, fun h => h.resolve_right hempty⟩
  inside := rfl
  outside _ _ := rfl

theorem Wrote.put (s : Stores) (d : Nat) (byte : Byte) : Wrote d [byte] s (s.put d byte) where
  written x := by
    have hone : d ≤ x ∧ x < d + 1 ↔ x = d := by omega
    rw [Stores.put_written, List.mem_cons, List.length_singleton, hone, or_comm]
  inside := by
    show bytesAt (s.put d byte).mem d 1 = [byte]
    rw [bytesAt_one, Stores.put_mem, Function.update_self]
  outside x hx := by
    rw [List.length_singleton] at hx
    rw [Stores.put_mem, Function.update_of_ne (by omega)]

/-- One piece behind the other. -/
theorem Wrote.append (h : Wrote d bs s s₁) (h' : Wrote (d + bs.length) bs' s₁ s₂) :
    Wrote d (bs ++ bs') s s₂ where
  written x := by
    rw [h'.written, h.written, List.length_append, or_assoc]
    apply or_congr Iff.rfl
    omega
  inside := by
    -- the second piece is behind the first, which stays
    have hfirst : bytesAt s₂.mem d bs.length = bytesAt s₁.mem d bs.length :=
      bytesAt_congr fun x _ hx => h'.outside x (Or.inl hx)
    rw [List.length_append, bytesAt_add, hfirst, h.inside, h'.inside]
  outside x hx := by
    rw [List.length_append] at hx
    rw [h'.outside x (by omega), h.outside x (by omega)]

/-- A byte that is written once more, as what it is. -/
theorem Wrote.again (h : Wrote d bs s s₁) (hi : bs[i]? = some byte) :
    Wrote d bs s (s₁.put (d + i) byte) := by
  obtain ⟨hlt, -⟩ := List.getElem?_eq_some_iff.mp hi
  have hsame : (s₁.put (d + i) byte).mem = s₁.mem := by
    rw [← h.inside, getElem?_bytesAt hlt, Option.some.injEq] at hi
    rw [Stores.put_mem, ← hi, Function.update_eq_self]
  constructor
  · intro x
    rw [Stores.put_written, List.mem_cons, h.written]
    constructor
    · rintro (rfl | hx)
      · exact Or.inr ⟨by omega, by omega⟩
      · exact hx
    · exact Or.inr
  · rw [hsame, h.inside]
  · rw [hsame]
    exact h.outside

/-- A piece of memory that has not been written. -/
theorem Wrote.frame (h : Wrote d bs s s₁) (hapart : a + n ≤ d ∨ d + bs.length ≤ a) :
    bytesAt s₁.mem a n = bytesAt s.mem a n := by
  apply bytesAt_congr
  intro x hlo hhi
  apply h.outside
  omega

/-- A piece of memory that has been written in its middle. -/
theorem Wrote.within (h : Wrote (a + i) bs s s₁) (k : Nat) :
    bytesAt s₁.mem a (i + bs.length + k) =
      bytesAt s.mem a i ++ bs ++ bytesAt s.mem (a + i + bs.length) k := by
  rw [bytesAt_add, bytesAt_add, h.inside, h.frame (Or.inl (Nat.le_refl _)),
    h.frame (Or.inr (by omega)), Nat.add_assoc a]

/-! ## Stores of numbers, one after the other -/

/-- Put numbers into `n` bytes each, by address and value. -/
def storeAll (n : Nat) (m : Memory) (ws : List (Nat × Nat)) : Memory :=
  ws.foldl (fun m w => store m w.1 n w.2) m

/-- No byte is in both. -/
def Apart (n : Nat) (w w' : Nat × Nat) : Prop := w.1 + n ≤ w'.1 ∨ w'.1 + n ≤ w.1

theorem storeAll_outside {ws : List (Nat × Nat)} (h : ∀ w ∈ ws, x < w.1 ∨ w.1 + n ≤ x) :
    storeAll n m ws x = m x := by
  induction ws generalizing m with
  | nil => rfl
  | cons w ws ih =>
      show storeAll n (store m w.1 n w.2) ws x = m x
      rw [ih fun w' hw' => h w' (List.mem_cons_of_mem _ hw'), store_outside (h w List.mem_cons_self)]

/-- What is stored beside all others is what is found. -/
theorem load_storeAll {ws : List (Nat × Nat)} {w : Nat × Nat} (hapart : ws.Pairwise (Apart n))
    (hw : w ∈ ws) (hv : w.2 < 256 ^ n) : load (storeAll n m ws) w.1 n = w.2 := by
  induction ws generalizing m with
  | nil => cases hw
  | cons w' ws ih =>
      obtain ⟨hfirst, hrest⟩ := List.pairwise_cons.mp hapart
      show load (storeAll n (store m w'.1 n w'.2) ws) w.1 n = w.2
      rcases List.mem_cons.mp hw with rfl | hmem
      · -- the later stores are elsewhere
        have hkeep : load (storeAll n (store m w.1 n w.2) ws) w.1 n = load (store m w.1 n w.2) w.1 n := by
          apply load_congr
          intro y hlo hhi
          apply storeAll_outside
          intro v hv
          have := hfirst v hv
          unfold Apart at this
          omega
        rw [hkeep, load_store_same hv]
      · exact ih hrest hmem

end Twos.Lib
