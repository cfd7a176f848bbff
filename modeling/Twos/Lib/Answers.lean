import Twos.Lib.Loop

/-!
# Machines that answer

Sequences of operations of which each answers something, on a machine and on a model of it. The rule
is about a machine that comes in two forms, one that always runs and one that faults where it should
not have gone: the second runs, with the answers of the model, exactly if every operation finds a
state that is good for it.

* `Agrees` is what has to be shown of one operation: from states that are related, both forms and
  the model take a step to related states, and answer alike exactly if the state was good.
* `sameAnswers_iff` makes a sequence of it, by induction on the operations. `Throughout` is decidable
  where the conditions are, so a run on fixed inputs can be computed.
-/

namespace Twos.Lib

variable {σ τ α β ε : Type}

/-- What operations answer in order, and the state after the last one. -/
def perform (step : σ → α → Except ε (β × σ)) : List α → σ → Except ε (List β × σ)
  | [], s => .ok ([], s)
  | op :: ops, s => do
      let (b, t) ← step s op
      let (bs, u) ← perform step ops t
      .ok (b :: bs, u)

/-- Every operation finds a state that meets a condition. -/
def Throughout (good : σ → α → Prop) (step : σ → α → Except ε (β × σ)) : List α → σ → Prop
  | [], _ => True
  | op :: ops, s => good s op ∧ ∀ b t, step s op = .ok (b, t) → Throughout good step ops t

variable {step checked : σ → α → Except ε (β × σ)} {op : α} {ops : List α} {s t u : σ} {b : β}
  {bs : List β}

theorem perform_cons (h : step s op = .ok (b, t)) :
    perform step (op :: ops) s = perform step ops t >>= fun r => .ok (b :: r.1, r.2) := by
  rw [perform, h]
  rfl

theorem perform_cons_ok (h : step s op = .ok (b, t)) :
    perform step (op :: ops) s = .ok (bs, u) ↔
      ∃ bs', perform step ops t = .ok (bs', u) ∧ bs = b :: bs' := by
  rw [perform_cons h]
  constructor
  · intro hrun
    obtain ⟨⟨bs', u'⟩, hrest, hlast⟩ := seq_ok.mp hrun
    obtain ⟨rfl, rfl⟩ := Prod.mk.inj (Except.ok.inj hlast)
    exact ⟨bs', hrest, rfl⟩
  · rintro ⟨bs', hrest, rfl⟩
    rw [hrest]
    rfl

theorem perform_cons_error {e : ε} (h : step s op = .error e) :
    perform step (op :: ops) s = .error e := by
  rw [perform, h]
  rfl

theorem throughout_cons {good : σ → α → Prop} (h : step s op = .ok (b, t)) :
    Throughout good step (op :: ops) s ↔ good s op ∧ Throughout good step ops t := by
  constructor
  · rintro ⟨hgood, hrest⟩
    exact ⟨hgood, hrest b t h⟩
  · rintro ⟨hgood, hrest⟩
    refine ⟨hgood, fun b' t' h' => ?_⟩
    obtain ⟨-, rfl⟩ := Prod.mk.inj (Except.ok.inj (h.symm.trans h'))
    exact hrest

/-- Whether every operation does can be found out by performing them. -/
instance decidableThroughout {good : σ → α → Prop} [∀ s op, Decidable (good s op)] (ops : List α)
    (s : σ) : Decidable (Throughout good step ops s) :=
  match ops with
  | [] => .isTrue trivial
  | op :: ops =>
      match h : step s op with
      | .ok (_, t) =>
          have : Decidable (Throughout good step ops t) := decidableThroughout ops t
          decidable_of_iff _ (throughout_cons h).symm
      | .error _ =>
          decidable_of_iff (good s op) ⟨fun hgood => ⟨hgood, fun _ _ h' => nomatch h.symm.trans h'⟩,
            fun hall => hall.1⟩

/-- One operation on the machine and on its model: both go through and stay related, and the
operation is good exactly if the machine that may fault goes the same way and the answers agree. -/
structure Agrees (R : σ → τ → Prop) (good : σ → α → Prop) (step checked : σ → α → Except ε (β × σ))
    (spec : τ → α → Except ε (β × τ)) (s : σ) (x : τ) (op : α) : Prop where
  checked_or : checked s op = step s op ∨ ∃ e, checked s op = .error e
  runs : ∃ b t b' y, step s op = .ok (b, t) ∧ spec x op = .ok (b', y) ∧ R t y ∧
    (good s op ↔ checked s op = step s op ∧ b = b')

/-- A good operation, on which the machines and the model do the same. -/
theorem Agrees.of_same {R : σ → τ → Prop} {good : σ → α → Prop}
    {spec : τ → α → Except ε (β × τ)} {x y : τ} (hgood : good s op) (hs : step s op = .ok (b, t))
    (hsame : checked s op = step s op) (hx : spec x op = .ok (b, y)) (hty : R t y) :
    Agrees R good step checked spec s x op where
  checked_or := .inl hsame
  runs := ⟨b, t, b, y, hs, hx, hty, iff_of_true hgood ⟨hsame, rfl⟩⟩

/-- All three run, with the same answers, to related states. -/
def SameAnswers (R : σ → τ → Prop) (step checked : σ → α → Except ε (β × σ))
    (spec : τ → α → Except ε (β × τ)) (ops : List α) (s : σ) (x : τ) : Prop :=
  ∃ bs t y, perform step ops s = .ok (bs, t) ∧ perform checked ops s = .ok (bs, t) ∧
    perform spec ops x = .ok (bs, y) ∧ R t y

/-- A sequence goes as it does on the model exactly if each of its operations is good. -/
theorem sameAnswers_iff {R : σ → τ → Prop} {valid good : σ → α → Prop}
    {spec : τ → α → Except ε (β × τ)} {x : τ}
    (hstep : ∀ s x op, R s x → valid s op → Agrees R good step checked spec s x op) (h : R s x)
    (hvalid : Throughout valid step ops s) :
    SameAnswers R step checked spec ops s x ↔ Throughout good step ops s := by
  induction ops generalizing s x with
  | nil => exact ⟨fun _ => trivial, fun _ => ⟨[], s, x, rfl, rfl, rfl, h⟩⟩
  | cons op ops ih =>
      obtain ⟨hor, b, t, b', y, hs, hx, hty, hgood⟩ := hstep s x op h hvalid.1
      have hrest := ih hty ((throughout_cons hs).mp hvalid).2
      rw [throughout_cons hs, ← hrest, hgood]
      constructor
      · -- the two forms and the model agree on the whole, so they agree on the first operation
        rintro ⟨bs, u, z, hrun, hchecked, hspec, huz⟩
        -- a fault in the first operation would be one of the whole sequence
        have hsame : checked s op = step s op := by
          rcases hor with hsame | ⟨e, hfault⟩
          · exact hsame
          · rw [perform_cons_error hfault] at hchecked
            cases hchecked
        -- the three lists are one, so they begin with the same answer
        obtain ⟨bs₁, hrun₁, rfl⟩ := (perform_cons_ok hs).mp hrun
        obtain ⟨bs₂, hchecked₂, hbs₂⟩ := (perform_cons_ok (hsame.trans hs)).mp hchecked
        obtain ⟨bs₃, hspec₃, hbs₃⟩ := (perform_cons_ok hx).mp hspec
        obtain ⟨-, rfl⟩ := List.cons.inj hbs₂
        obtain ⟨hanswer, rfl⟩ := List.cons.inj hbs₃
        exact ⟨⟨hsame, hanswer⟩, bs₁, u, z, hrun₁, hchecked₂, hspec₃, huz⟩
      · -- a good first operation, put in front of an agreement on the rest
        rintro ⟨⟨hsame, rfl⟩, bs, u, z, hrun, hchecked, hspec, huz⟩
        refine ⟨b :: bs, u, z, ?_, ?_, ?_, huz⟩
        · exact (perform_cons_ok hs).mpr ⟨bs, hrun, rfl⟩
        · exact (perform_cons_ok (hsame.trans hs)).mpr ⟨bs, hchecked, rfl⟩
        · exact (perform_cons_ok hx).mpr ⟨bs, hspec, rfl⟩

end Twos.Lib
