import Twos.Lib.Loop
import Mathlib.Logic.Relation
import Mathlib.Data.Nat.Find

/-!
# Programs that talk to a chip

A driver reads and writes the ports of a chip that goes on working by itself in between: it sends
and receives, raises lines, lets time pass. Nothing here knows which chip. `Chip` is what an access
does and what the chip can do by itself, `Prog` what the driver does, and a run mixes the accesses
of the one with the events of the other in any order.

* `wp` is what has to hold for every such run to keep `A` throughout and to end in `Q`. Its rules
  (`wp_inb`, `wp_outb`, `wp_poll`, `wp_bind`) take assertions that no event disturbs, the way one
  reasons about interference; `wp_always` and `wp_ends` say that what is proved so holds of all runs.
* `wp_keeps` is for programs of which it is only known where they write.
* `Owned` is a part of the chip that only the program changes. Such a part can be computed
  (`Prog.eval`), and `wp_eval` and `getsTo_eval` carry the result over to every run and to some run.
* `ends_of_fair` is the other half: a program ends in every run that neither starves it nor keeps the
  chip from the event that its polling loops wait for. It is by induction on the program, and for a
  polling loop by induction on what is missing (`Served.leaves`).
-/

namespace Twos.Lib

variable {π ω α β σ ε : Type}

/-! ## Chips and programs -/

/-- What reading and writing a port does, and what the chip does by itself. -/
structure Chip (π ω σ ε : Type) where
  input : π → σ → ω × σ
  output : π → ω → σ → σ
  happen : ε → σ → σ

/-- A program over the ports. `poll` is the loop `while (!ready(in(port)));`. -/
inductive Prog (π ω α : Type) where
  | ret (a : α)
  | inb (port : π) (next : ω → Prog π ω α)
  | outb (port : π) (v : ω) (next : Prog π ω α)
  | poll (port : π) (ready : ω → Bool) (next : Prog π ω α)

/-- One program after the other. -/
def Prog.bind : Prog π ω α → (α → Prog π ω β) → Prog π ω β
  | .ret a, f => f a
  | .inb port next, f => .inb port fun v => (next v).bind f
  | .outb port v next, f => .outb port v (next.bind f)
  | .poll port ready next, f => .poll port ready (next.bind f)

instance : Monad (Prog π ω) where
  pure := .ret
  bind := .bind

/-- `in`. -/
def inb (port : π) : Prog π ω ω := .inb port .ret

/-- `out`. -/
def outb (port : π) (v : ω) : Prog π ω Unit := .outb port v (.ret ())

/-- `while (!ready(in(port)));`. -/
def poll (port : π) (ready : ω → Bool) : Prog π ω Unit := .poll port ready (.ret ())

@[simp] theorem pure_eq (a : α) : (pure a : Prog π ω α) = .ret a := rfl

@[simp] theorem ret_bind (a : α) (f : α → Prog π ω β) : (Prog.ret a >>= f) = f a := rfl

@[simp] theorem inb_bind (port : π) (f : ω → Prog π ω β) : (inb port >>= f) = .inb port f := rfl

@[simp] theorem outb_bind (port : π) (v : ω) (f : Unit → Prog π ω β) :
    (outb port v >>= f) = .outb port v (f ()) := rfl

@[simp] theorem poll_bind (port : π) (ready : ω → Bool) (f : Unit → Prog π ω β) :
    (poll port ready >>= f) = .poll port ready (f ()) := rfl

@[simp] theorem bind_inb (port : π) (next : ω → Prog π ω α) (f : α → Prog π ω β) :
    (Prog.inb port next >>= f) = .inb port fun v => next v >>= f := rfl

@[simp] theorem bind_outb (port : π) (v : ω) (next : Prog π ω α) (f : α → Prog π ω β) :
    (Prog.outb port v next >>= f) = .outb port v (next >>= f) := rfl

@[simp] theorem bind_poll (port : π) (ready : ω → Bool) (next : Prog π ω α) (f : α → Prog π ω β) :
    (Prog.poll port ready next >>= f) = .poll port ready (next >>= f) := rfl

/-! ## Runs -/

/-- Whose turn it is: the program makes its next access, or something happens in the chip. -/
inductive Turn (ε : Type) where
  | access
  | event (e : ε)
  deriving DecidableEq

variable (chip : Chip π ω σ ε)

/-- One turn. A program that is done makes no access. -/
def step (c : Prog π ω α × σ) : Turn ε → Option (Prog π ω α × σ)
  | .event e => some (c.1, chip.happen e c.2)
  | .access =>
      match c.1 with
      | .ret _ => none
      | .inb port next => some (next (chip.input port c.2).1, (chip.input port c.2).2)
      | .outb port v next => some (next, chip.output port v c.2)
      | .poll port ready next =>
          some (if ready (chip.input port c.2).1 then next else c.1, (chip.input port c.2).2)

/-- The program, begun in `s`, can get to `p'` with the chip in `s'`. -/
def GetsTo (p : Prog π ω α) (s : σ) (p' : Prog π ω α) (s' : σ) : Prop :=
  ∃ turns, Run (StepOf (step chip)) (p, s) turns (p', s')

/-- Where the chip can get to by itself. -/
def Drifts : σ → σ → Prop := Relation.ReflTransGen fun s t => ∃ e, t = chip.happen e s

/-- Where a polling loop can get to. -/
def Waits (port : π) (ready : ω → Bool) : σ → σ → Prop :=
  Relation.ReflTransGen fun s t =>
    (∃ e, t = chip.happen e s) ∨ (ready (chip.input port s).1 = false ∧ t = (chip.input port s).2)

/-- What must hold of the state for every run of the program to keep `A` and to end in `Q`. -/
def wp (A : σ → Prop) : Prog π ω α → (α → σ → Prop) → σ → Prop
  | .ret a, Q, s => ∀ t, Drifts chip s t → A t ∧ Q a t
  | .inb port next, Q, s => ∀ t, Drifts chip s t →
      A t ∧ wp A (next (chip.input port t).1) Q (chip.input port t).2
  | .outb port v next, Q, s => ∀ t, Drifts chip s t → A t ∧ wp A next Q (chip.output port v t)
  | .poll port ready next, Q, s => ∀ t, Waits chip port ready s t →
      A t ∧ (ready (chip.input port t).1 = true → wp A next Q (chip.input port t).2)

/-- No event disturbs the assertion. -/
def Stable (P : σ → Prop) : Prop := ∀ e s, P s → P (chip.happen e s)

variable {chip} {A P : σ → Prop} {p p' : Prog π ω α} {Q Q' : α → σ → Prop} {s s' t : σ}

/-! ## Soundness

Every state of every run of a program satisfies what `wp` says of it. The induction is on the run: a
turn is an event of the chip, which changes nothing about what the program needs (`wp_event`), or an
access of the program, after which `wp` holds of the rest of it (`wp_now`, `wp_step`).
-/

theorem Stable.drifts (hP : Stable chip P) (hs : P s) (h : Drifts chip s t) : P t := by
  induction h with
  | refl => exact hs
  | tail _ hlast ih =>
      obtain ⟨e, rfl⟩ := hlast
      exact hP e _ ih

/-- What a waiting program relies on. -/
theorem Stable.waits {port : π} {ready : ω → Bool} (hP : Stable chip P)
    (hread : ∀ s, P s → ready (chip.input port s).1 = false → P (chip.input port s).2)
    (hs : P s) (h : Waits chip port ready s t) : P t := by
  induction h with
  | refl => exact hs
  | tail _ hlast ih =>
      rcases hlast with ⟨e, rfl⟩ | ⟨hunready, rfl⟩
      · exact hP e _ ih
      · exact hread _ ih hunready

/-- An event of the chip changes nothing about what the program needs. -/
theorem wp_event (h : wp chip A p Q s) (e : ε) : wp chip A p Q (chip.happen e s) := by
  cases p with
  | ret a => exact fun t ht => h t (ht.head ⟨e, rfl⟩)
  | inb port next => exact fun t ht => h t (ht.head ⟨e, rfl⟩)
  | outb port v next => exact fun t ht => h t (ht.head ⟨e, rfl⟩)
  | poll port ready next => exact fun t ht => h t (ht.head (.inl ⟨e, rfl⟩))

theorem wp_now (h : wp chip A p Q s) : A s := by
  cases p with
  | ret a => exact (h s .refl).1
  | inb port next => exact (h s .refl).1
  | outb port v next => exact (h s .refl).1
  | poll port ready next => exact (h s .refl).1

/-- A turn of a run, whoever takes it. -/
theorem wp_step {turn : Turn ε} (h : wp chip A p Q s) (hstep : step chip (p, s) turn = some (p', s')) :
    wp chip A p' Q s' := by
  cases turn with
  | event e =>
      obtain ⟨rfl, rfl⟩ := Prod.mk.inj (Option.some.inj hstep)
      exact wp_event h e
  | access =>
      cases p with
      | ret a => cases hstep
      | inb port next =>
          obtain ⟨rfl, rfl⟩ := Prod.mk.inj (Option.some.inj hstep)
          exact (h s .refl).2
      | outb port v next =>
          obtain ⟨rfl, rfl⟩ := Prod.mk.inj (Option.some.inj hstep)
          exact (h s .refl).2
      | poll port ready next =>
          -- a poll that is not served stays where it is, and may have moved the chip by its read
          obtain ⟨rfl, rfl⟩ := Prod.mk.inj (Option.some.inj hstep)
          dsimp only
          split
          · next hready => exact (h s .refl).2 hready
          · next hunready =>
            exact fun t ht => h t (ht.head (.inr ⟨Bool.eq_false_iff.mpr hunready, rfl⟩))

theorem wp_getsTo (h : wp chip A p Q s) (hrun : GetsTo chip p s p' s') : wp chip A p' Q s' := by
  obtain ⟨turns, hrun⟩ := hrun
  exact hrun.invariant (fun c : Prog π ω α × σ => wp chip A c.1 Q c.2) h fun _ _ _ hc hstep => wp_step hc hstep

/-- Soundness, for every state of every run. -/
theorem wp_always (h : wp chip A p Q s) (hrun : GetsTo chip p s p' s') : A s' :=
  wp_now (wp_getsTo h hrun)

/-- Soundness, for the end of every run. -/
theorem wp_ends {a : α} (h : wp chip A p Q s) (hrun : GetsTo chip p s (.ret a) s') : Q a s' :=
  (wp_getsTo h hrun s' .refl).2

/-- A turn, and what can be got to from there. -/
theorem GetsTo.head {turn : Turn ε} {p₁ : Prog π ω α} {s₁ : σ}
    (hstep : step chip (p, s) turn = some (p₁, s₁)) (h : GetsTo chip p₁ s₁ p' s') :
    GetsTo chip p s p' s' := by
  obtain ⟨turns, hrun⟩ := h
  refine ⟨turn :: turns, ?_⟩
  generalize hend : (p', s') = c at hrun
  clear hend
  induction hrun with
  | nil =>
      show Run _ _ ([] ++ [turn]) _
      exact Run.nil.snoc hstep
  | snoc _ hlast ih => exact ih.snoc hlast

theorem GetsTo.event (e : ε) (h : GetsTo chip p (chip.happen e s) p' s') :
    GetsTo chip p s p' s' :=
  .head (show step chip (p, s) (.event e) = _ from rfl) h

theorem GetsTo.inb {port : π} {next : ω → Prog π ω α}
    (h : GetsTo chip (next (chip.input port s).1) (chip.input port s).2 p' s') :
    GetsTo chip (.inb port next) s p' s' :=
  .head (show step chip (.inb port next, s) .access = _ from rfl) h

theorem GetsTo.outb {port : π} {v : ω} {next : Prog π ω α}
    (h : GetsTo chip next (chip.output port v s) p' s') :
    GetsTo chip (.outb port v next) s p' s' :=
  .head (show step chip (.outb port v next, s) .access = _ from rfl) h

theorem GetsTo.refl (p : Prog π ω α) (s : σ) : GetsTo chip p s p s := ⟨[], .nil⟩

/-! ## Rules

One rule for each kind of access, to be used backwards: what is known before it must be stable under
the events of the chip, hold all along, and give what comes next. `wp_keeps` needs no assertion in
between. It is for what all writes of a program of some kind leave alone.
-/

theorem wp_ret {a : α} (hP : Stable chip P) (hA : ∀ t, P t → A t) (hQ : ∀ t, P t → Q a t)
    (hs : P s) : wp chip A (.ret a) Q s := by
  intro t ht
  have hPt := hP.drifts hs ht
  exact ⟨hA t hPt, hQ t hPt⟩

theorem wp_inb {port : π} {next : ω → Prog π ω α} (hP : Stable chip P) (hA : ∀ t, P t → A t)
    (hnext : ∀ t, P t → wp chip A (next (chip.input port t).1) Q (chip.input port t).2)
    (hs : P s) : wp chip A (.inb port next) Q s := by
  intro t ht
  have hPt := hP.drifts hs ht
  exact ⟨hA t hPt, hnext t hPt⟩

theorem wp_outb {port : π} {v : ω} {next : Prog π ω α} (hP : Stable chip P) (hA : ∀ t, P t → A t)
    (hnext : ∀ t, P t → wp chip A next Q (chip.output port v t)) (hs : P s) :
    wp chip A (.outb port v next) Q s := by
  intro t ht
  have hPt := hP.drifts hs ht
  exact ⟨hA t hPt, hnext t hPt⟩

theorem wp_poll {port : π} {ready : ω → Bool} {next : Prog π ω α} (hP : Stable chip P)
    (hread : ∀ s, P s → ready (chip.input port s).1 = false → P (chip.input port s).2)
    (hA : ∀ t, P t → A t)
    (hnext : ∀ t, P t → ready (chip.input port t).1 = true → wp chip A next Q (chip.input port t).2)
    (hs : P s) : wp chip A (.poll port ready next) Q s := by
  intro t ht
  have hPt := hP.waits hread hs ht
  exact ⟨hA t hPt, hnext t hPt⟩

/-- One program after the other: what the second needs is what the first has to end in. -/
theorem wp_bind {f : α → Prog π ω β} {R : β → σ → Prop}
    (h : wp chip A p (fun a => wp chip A (f a) R) s) : wp chip A (p >>= f) R s := by
  induction p generalizing s with
  | ret a => exact (h s .refl).2
  | inb port next ih => exact fun t ht => ⟨(h t ht).1, ih _ (h t ht).2⟩
  | outb port v next ih => exact fun t ht => ⟨(h t ht).1, ih (h t ht).2⟩
  | poll port ready next ih => exact fun t ht => ⟨(h t ht).1, fun hready => ih ((h t ht).2 hready)⟩

theorem wp_imp (h : wp chip A p Q s) (hQ : ∀ a t, Q a t → Q' a t) : wp chip A p Q' s := by
  induction p generalizing s with
  | ret a => exact fun t ht => ⟨(h t ht).1, hQ a t (h t ht).2⟩
  | inb port next ih => exact fun t ht => ⟨(h t ht).1, ih _ (h t ht).2⟩
  | outb port v next ih => exact fun t ht => ⟨(h t ht).1, ih (h t ht).2⟩
  | poll port ready next ih => exact fun t ht => ⟨(h t ht).1, fun hready => ih ((h t ht).2 hready)⟩

/-- The program writes only what `W` allows. -/
def Prog.Writes (W : π → ω → Prop) : Prog π ω α → Prop
  | .ret _ => True
  | .inb _ next => ∀ v, (next v).Writes W
  | .outb port v next => W port v ∧ next.Writes W
  | .poll _ _ next => next.Writes W

theorem Prog.Writes.bind {W : π → ω → Prop} {f : α → Prog π ω β} (hp : p.Writes W)
    (hf : ∀ a, (f a).Writes W) : (p >>= f).Writes W := by
  induction p with
  | ret a => exact hf a
  | inb port next ih => exact fun v => ih v (hp v)
  | outb port v next ih => exact ⟨hp.1, ih hp.2⟩
  | poll port ready next ih => exact ih hp

/-- What events, reads and the writes of the program keep holds all along, whatever the program
does with them. -/
theorem wp_keeps {W : π → ω → Prop} (hP : Stable chip P)
    (hread : ∀ port s, P s → P (chip.input port s).2)
    (hwrite : ∀ port v s, W port v → P s → P (chip.output port v s)) (hp : p.Writes W) (hs : P s) :
    wp chip P p (fun _ => P) s := by
  induction p generalizing s with
  | ret a => exact wp_ret hP (fun t ht => ht) (fun t ht => ht) hs
  | inb port next ih => exact wp_inb hP (fun t ht => ht) (fun t ht => ih _ (hp _) (hread port t ht)) hs
  | outb port v next ih =>
      exact wp_outb hP (fun t ht => ht) (fun t ht => ih hp.2 (hwrite port v t hp.1 ht)) hs
  | poll port ready next ih =>
      exact wp_poll hP (fun t ht _ => hread port t ht) (fun t ht => ht)
        (fun t ht _ => ih hp (hread port t ht)) hs

/-- What holds all along may be weakened. -/
theorem wp_mono {B : σ → Prop} (hB : ∀ t, A t → B t) (h : wp chip A p Q s) : wp chip B p Q s := by
  induction p generalizing s with
  | ret a => exact fun t ht => ⟨hB t (h t ht).1, (h t ht).2⟩
  | inb port next ih => exact fun t ht => ⟨hB t (h t ht).1, ih _ (h t ht).2⟩
  | outb port v next ih => exact fun t ht => ⟨hB t (h t ht).1, ih (h t ht).2⟩
  | poll port ready next ih =>
      exact fun t ht => ⟨hB t (h t ht).1, fun hready => ih ((h t ht).2 hready)⟩

/-! ## Registers of the driver's own

Where a part of the chip changes by the writes of the driver and by nothing else, a program can be
evaluated on that part, and the events drop out of the proof (`wp_eval`).
-/

section Owned

variable {ρ : Type} {shadow : σ → ρ} {inp : π → ρ → Option ω} {out : π → ω → ρ → ρ}

variable (chip) in
/-- A part of the chip that only the driver changes: no event does, no read does, and a write does to it
what `out` says. Of the ports that `inp` knows a read gives what this part determines. -/
structure Owned (shadow : σ → ρ) (inp : π → ρ → Option ω) (out : π → ω → ρ → ρ) : Prop where
  event : ∀ e s, shadow (chip.happen e s) = shadow s
  read : ∀ port s, shadow (chip.input port s).2 = shadow s
  write : ∀ port v s, shadow (chip.output port v s) = out port v (shadow s)
  value : ∀ port s v, inp port (shadow s) = some v → (chip.input port s).1 = v

/-- What the program does to this part, as long as it only reads what it determines. -/
def Prog.eval (inp : π → ρ → Option ω) (out : π → ω → ρ → ρ) : Prog π ω α → ρ → Option (α × ρ)
  | .ret a, r => some (a, r)
  | .inb port next, r => (inp port r).bind fun v => (next v).eval inp out r
  | .outb port v next, r => next.eval inp out (out port v r)
  | .poll _ _ _, _ => none

theorem eval_bind {f : α → Prog π ω β} {r r' : ρ} {a : α} (h : p.eval inp out r = some (a, r')) :
    (p >>= f).eval inp out r = (f a).eval inp out r' := by
  induction p generalizing r with
  | ret b =>
      obtain ⟨rfl, rfl⟩ := Prod.mk.inj (Option.some.inj h)
      rfl
  | inb port next ih =>
      obtain ⟨v, hv, hnext⟩ := Option.bind_eq_some_iff.mp h
      show (inp port r).bind _ = _
      rw [hv]
      exact ih v hnext
  | outb port v next ih => exact ih h
  | poll port ready next ih => cases h

/-- Whatever else happens, the program does to this part what it would do to it alone. -/
theorem wp_eval (howned : Owned chip shadow inp out) {a : α} {r : ρ}
    (h : p.eval inp out (shadow s) = some (a, r)) :
    wp chip (fun _ => True) p (fun b t => b = a ∧ shadow t = r) s := by
  have hstable (r : ρ) : Stable chip fun t => shadow t = r := fun e t ht => (howned.event e t).trans ht
  obtain ⟨r₀, hr₀⟩ : ∃ r₀, shadow s = r₀ := ⟨_, rfl⟩
  rw [hr₀] at h
  induction p generalizing s r₀ with
  | ret b =>
      obtain ⟨rfl, rfl⟩ := Prod.mk.inj (Option.some.inj h)
      exact wp_ret (hstable r₀) (fun _ _ => trivial) (fun t ht => ⟨rfl, ht⟩) hr₀
  | inb port next ih =>
      obtain ⟨v, hv, hnext⟩ := Option.bind_eq_some_iff.mp h
      refine wp_inb (hstable r₀) (fun _ _ => trivial) (fun t ht => ?_) hr₀
      rw [howned.value port t v (ht ▸ hv)]
      exact ih v _ hnext ((howned.read port t).trans ht)
  | outb port v next ih =>
      refine wp_outb (hstable r₀) (fun _ _ => trivial) (fun t ht => ?_) hr₀
      exact ih _ h ((howned.write port v t).trans (congrArg (out port v) ht))
  | poll port ready next ih => cases h

/-- Left alone, it gets there. -/
theorem getsTo_eval (howned : Owned chip shadow inp out) {a : α} {r : ρ}
    (h : p.eval inp out (shadow s) = some (a, r)) : ∃ t, GetsTo chip p s (.ret a) t := by
  induction p generalizing s with
  | ret b =>
      obtain ⟨rfl, -⟩ := Prod.mk.inj (Option.some.inj h)
      exact ⟨s, .refl _ s⟩
  | inb port next ih =>
      obtain ⟨v, hv, hnext⟩ := Option.bind_eq_some_iff.mp h
      rw [← howned.read port s] at hnext
      obtain ⟨t, ht⟩ := ih v hnext
      refine ⟨t, .inb ?_⟩
      rwa [howned.value port s v hv]
  | outb port v next ih =>
      rw [Prog.eval, ← howned.write port v s] at h
      obtain ⟨t, ht⟩ := ih h
      exact ⟨t, .outb ht⟩
  | poll port ready next ih => cases h

end Owned

/-! ## Fairness

A polling loop ends only if the chip gets to do what it waits for. A fair execution gives both sides
their turns, and `Served` says that the event that is waited for brings the loop nearer to its end
while nothing sets it back. So it ends, by induction on what is missing, and the program with it, by
induction on its accesses.
-/

variable (chip) in
/-- What `n` turns lead to, where a turn that cannot be taken changes nothing. -/
def exec (turns : Nat → Turn ε) (c : Prog π ω α × σ) : Nat → Prog π ω α × σ
  | 0 => c
  | n + 1 => (step chip (exec turns c n) (turns n)).getD (exec turns c n)

/-- The program is never kept from its next access for good, nor the chip from the event `e`. -/
def Fair (e : ε) (turns : Nat → Turn ε) : Prop :=
  (∀ n, ∃ m, n ≤ m ∧ turns m = .access) ∧ ∀ n, ∃ m, n ≤ m ∧ turns m = .event e

variable (chip) in
/-- A polling loop waits for something that the event `e` brings nearer and that nothing sets back.
`μ` says how much is missing. -/
structure Served (e : ε) (μ : σ → Nat) (port : π) (ready : ω → Bool) : Prop where
  event : ∀ e' s, μ (chip.happen e' s) ≤ μ s
  brings : ∀ s, 0 < μ s → μ (chip.happen e s) < μ s
  read : ∀ s, μ (chip.input port s).2 ≤ μ s
  ready : ∀ s, μ s = 0 → ready (chip.input port s).1 = true

/-- All polling loops of the program are of one kind. -/
def Prog.Polls (R : π → (ω → Bool) → Prop) : Prog π ω α → Prop
  | .ret _ => True
  | .inb _ next => ∀ v, (next v).Polls R
  | .outb _ _ next => next.Polls R
  | .poll port ready next => R port ready ∧ next.Polls R

theorem Prog.Polls.bind {R : π → (ω → Bool) → Prop} {f : α → Prog π ω β} (hp : p.Polls R)
    (hf : ∀ a, (f a).Polls R) : (p >>= f).Polls R := by
  induction p with
  | ret a => exact hf a
  | inb port next ih => exact fun v => ih v (hp v)
  | outb port v next ih => exact ih hp
  | poll port ready next ih => exact ⟨hp.1, ih hp.2⟩

section Fair

variable {turns : Nat → Turn ε} {e : ε} {c : Prog π ω α × σ} {μ : σ → Nat} {port : π}
  {ready : ω → Bool} {next : Prog π ω α}

theorem Fair.shift (h : Fair e turns) (k : Nat) : Fair e fun n => turns (k + n) := by
  constructor
  · intro n
    obtain ⟨m, hle, hm⟩ := h.1 (k + n)
    exact ⟨m - k, by omega, by simpa [show k + (m - k) = m by omega] using hm⟩
  · intro n
    obtain ⟨m, hle, hm⟩ := h.2 (k + n)
    exact ⟨m - k, by omega, by simpa [show k + (m - k) = m by omega] using hm⟩

theorem exec_add (k n : Nat) :
    exec chip turns c (k + n) = exec chip (fun i => turns (k + i)) (exec chip turns c k) n := by
  induction n with
  | zero => rfl
  | succ n ih => rw [← Nat.add_assoc, exec, exec, ih]

theorem exec_event {n : Nat} {e' : ε} (h : turns n = .event e') :
    exec chip turns c (n + 1) = ((exec chip turns c n).1, chip.happen e' (exec chip turns c n).2) := by
  rw [exec, h]
  rfl

theorem step_poll : step chip (.poll port ready next, t) .access = some
    (if ready (chip.input port t).1 then next else .poll port ready next, (chip.input port t).2) :=
  rfl

/-- Up to its next access a program stays where it is. -/
theorem exec_events {n : Nat} (h : ∀ m, m < n → turns m ≠ .access) :
    (exec chip turns c n).1 = c.1 := by
  induction n with
  | zero => rfl
  | succ n ih =>
      have hbefore := ih fun m hm => h m (Nat.lt_succ_of_lt hm)
      cases hturn : turns n with
      | access => exact absurd hturn (h n (Nat.lt_succ_self n))
      | event e' => rw [exec_event hturn, hbefore]

variable (chip) in
/-- The next access is made, and by the program as it stands. -/
theorem Fair.next_access (h : Fair e turns) (c : Prog π ω α × σ) :
    ∃ n t, turns n = .access ∧ exec chip turns c n = (c.1, t) := by
  have hsome : ∃ n, turns n = .access := by
    obtain ⟨n, -, hn⟩ := h.1 0
    exact ⟨n, hn⟩
  classical
  refine ⟨Nat.find hsome, (exec chip turns c (Nat.find hsome)).2, Nat.find_spec hsome, ?_⟩
  exact Prod.ext (exec_events fun m hm => Nat.find_min hsome hm) rfl

/-- While a loop polls, what is missing does not grow. -/
theorem Served.keeps (hserved : Served chip e μ port ready) (turns : Nat → Turn ε)
    (next : Prog π ω α) (s : σ) (n : Nat) :
    (∃ m t, m ≤ n ∧ exec chip turns (.poll port ready next, s) m = (next, t)) ∨
      ∃ t, μ t ≤ μ s ∧ exec chip turns (.poll port ready next, s) n = (.poll port ready next, t) := by
  induction n with
  | zero => exact .inr ⟨s, Nat.le_refl _, rfl⟩
  | succ n ih =>
      rcases ih with ⟨m, t, hle, hleft⟩ | ⟨t, hle, hpolls⟩
      · exact .inl ⟨m, t, Nat.le_succ_of_le hle, hleft⟩
      · have hturn : exec chip turns (.poll port ready next, s) (n + 1) =
            (step chip (.poll port ready next, t) (turns n)).getD (.poll port ready next, t) := by
          rw [exec, hpolls]
        -- an event or a read may bring the loop nearer to its end, never further away
        cases hwho : turns n with
        | event e' =>
            rw [hwho] at hturn
            exact .inr ⟨_, Nat.le_trans (hserved.event e' t) hle, hturn⟩
        | access =>
            rw [hwho, step_poll] at hturn
            by_cases hready : ready (chip.input port t).1 = true
            · rw [if_pos hready] at hturn
              exact .inl ⟨n + 1, _, Nat.le_refl _, hturn⟩
            · rw [if_neg hready] at hturn
              exact .inr ⟨_, Nat.le_trans (hserved.read t) hle, hturn⟩

/-- A polling loop that is served ends. The induction is on what is missing. -/
theorem Served.leaves (hserved : Served chip e μ port ready) (hfair : Fair e turns)
    (next : Prog π ω α) (s : σ) :
    ∃ n t, exec chip turns (.poll port ready next, s) n = (next, t) := by
  obtain ⟨k, hk⟩ : ∃ k, μ s ≤ k := ⟨μ s, Nat.le_refl _⟩
  -- on the events that are still missing
  induction k generalizing s turns with
  | zero =>
      obtain ⟨n, t, hturn, hn⟩ := hfair.next_access chip (.poll port ready next, s)
      rcases hserved.keeps turns next s n with
        ⟨m, t', -, hleft⟩ | ⟨t', hle, hpolls⟩
      · exact ⟨m, t', hleft⟩
      · -- nothing is missing, so the next read ends the loop
        have hready := hserved.ready t' (by omega)
        refine ⟨n + 1, (chip.input port t').2, ?_⟩
        rw [exec, hpolls, hturn, step_poll, if_pos hready]
        rfl
  | succ k ih =>
      obtain ⟨n, -, hturn⟩ := hfair.2 0
      rcases hserved.keeps turns next s n with
        ⟨m, t', -, hleft⟩ | ⟨t', hle, hpolls⟩
      · exact ⟨m, t', hleft⟩
      · -- the event has brought nearer what is missing
        have hless : μ (chip.happen e t') ≤ k := by
          rcases Nat.eq_zero_or_pos (μ t') with hzero | hpos
          · have := hserved.event e t'
            omega
          · have := hserved.brings t' hpos
            omega
        obtain ⟨m, t, hm⟩ := ih (hfair.shift (n + 1)) (chip.happen e t') hless
        refine ⟨n + 1 + m, t, ?_⟩
        rw [exec_add, exec_event hturn, hpolls]
        exact hm

/-- A program whose polling loops are served ends in every fair run. -/
theorem ends_of_fair (hp : p.Polls fun port ready => ∃ μ, Served chip e μ port ready)
    (hfair : Fair e turns) (s : σ) : ∃ n a t, exec chip turns (p, s) n = (.ret a, t) := by
  induction p generalizing s turns with
  | ret a => exact ⟨0, a, s, rfl⟩
  | inb port next ih =>
      obtain ⟨n, t, hturn, hn⟩ := hfair.next_access chip (.inb port next, s)
      obtain ⟨m, a, t', hm⟩ := ih _ (hp (chip.input port t).1) (hfair.shift (n + 1))
        (chip.input port t).2
      refine ⟨n + 1 + m, a, t', ?_⟩
      rw [exec_add, exec, hn, hturn]
      exact hm
  | outb port v next ih =>
      obtain ⟨n, t, hturn, hn⟩ := hfair.next_access chip (.outb port v next, s)
      obtain ⟨m, a, t', hm⟩ := ih hp (hfair.shift (n + 1)) (chip.output port v t)
      refine ⟨n + 1 + m, a, t', ?_⟩
      rw [exec_add, exec, hn, hturn]
      exact hm
  | poll port ready next ih =>
      obtain ⟨⟨μ, hserved⟩, hnext⟩ := hp
      obtain ⟨n, t, hn⟩ := hserved.leaves hfair next s
      obtain ⟨m, a, t', hm⟩ := ih hnext (hfair.shift n) t
      refine ⟨n + m, a, t', ?_⟩
      rw [exec_add, hn]
      exact hm

end Fair

end Twos.Lib
