import Twos.Isr.Lines

/-!
# What becomes of an interrupt

From `ioapic_init` on, the controllers and the handlers do as `Lines` does. So whatever has happened,
what waits is served, the highest first and each once, as soon as no handler runs; and which interrupts
a driver gets by unmasking them can be read off the overrides.

* `Booted` is the state that `ioapic_init` leaves, and `interrupts_are_lines` the simulation from it.
* `pending_served` is about the lines first: to serve all of them is a run that is written down
  (`settle_spec`), and the machine goes where its lines go.
* `Enabled` says of an interrupt that unmasking it opens the pin it comes in by. It is read off the
  overrides in `enabled_iff`, and one run decides it on the lines (`unmask_signal_take`).
-/

namespace Twos.Isr

open Lib Acpi Apic

variable {b : Board} {os : List Override} {count : Nat} {before : Space} {regs : Regs} {io : Ioapic}
  {s t : Irqs} {l : Lines} {acts : List Act}

/-! ## After `ioapic_init`

`Booted` is a machine behind `ioapic_init`, with what is asked of the tables of the firmware as
fields. It starts in the relation of `Isr.Lines`, so `interrupts_are_lines` is the run lemma of that
relation.
-/

/-- The IOAPIC has been set up from what its entries are after a reset: fixed delivery, at this
processor. -/
structure Booted (b : Board) (before : Space) (regs : Regs) (io : Ioapic) : Prop where
  idt : ∃ idt, b.idt = idtInit b.image idt
  init : ioapicInit before b.acpi regs = .ok (b.space, io)
  setup : Setup (overridesOf before.mem b.acpi) (readMaxRedir regs)
  reset : ∀ k, k < readMaxRedir regs → modes (redirection regs k) = 0
  id : b.id = 0

theorem Booted.tables (h : Booted b before regs io) :
    Tables b (overridesOf before.mem b.acpi) (readMaxRedir regs) := by
  obtain ⟨idt, hidt⟩ := h.idt
  refine ⟨h.setup, ?_, fun v hlow hhigh => ?_, h.id⟩
  · rw [(ioapicInit_usable h.init).1]
  · rw [hidt]
    exact ((gated_iff b.image idt v).mpr ⟨hlow, hhigh⟩).delivered _

theorem Booted.routed (h : Booted b before regs io) :
    Routed (overridesOf before.mem b.acpi) (readMaxRedir regs) io.regs := by
  obtain ⟨record, -, hinit⟩ := seq_ok.mp h.init
  obtain ⟨base, -, hinit⟩ := seq_ok.mp hinit
  obtain ⟨gsiBase, -, hinit⟩ := seq_ok.mp hinit
  obtain ⟨-, -, hinit⟩ := seq_ok.mp hinit
  obtain ⟨-, -, hinit⟩ := seq_ok.mp hinit
  obtain ⟨⟨maxRedir, regs'⟩, hprogram, hinit⟩ := seq_ok.mp hinit
  obtain ⟨-, rfl⟩ := Prod.mk.inj (Except.ok.inj hinit)
  have hspec := ioapicProgram_spec (s := before.mapSelf base) h.setup.reach h.setup.distinct h.setup.gsi
  rw [hprogram] at hspec
  exact hspec.2

theorem Booted.plain (h : Booted b before regs io) {k : Nat} (hk : k < readMaxRedir regs) :
    modes (redirection io.regs k) = 0 := by
  obtain ⟨start, hmask, hregs⟩ := ioapicInit_replays h.init
  rw [hregs, replay_modes h.setup start k, maskEntries_modes h.setup.reach hmask k, h.reset k hk]

theorem Booted.sound (h : Booted b before regs io) (handlers : Nat → Nat) :
    Sound b (overridesOf before.mem b.acpi) (readMaxRedir regs) (Irqs.boot io handlers) := by
  obtain ⟨-, hmax, husable⟩ := ioapicInit_usable h.init
  have hwiring : Wiring (overridesOf before.mem b.acpi) (readMaxRedir regs) io.regs :=
    Routed.wiring h.routed fun k hk => h.plain (hk.lt h.setup)
  refine ⟨⟨husable, hmax, hwiring⟩, ?_, ?_, ?_⟩
  · intro v hv
    cases hv
  · intro v hv
    cases hv
  · intro v hv
    cases hv

theorem Booted.lines (h : Booted b before regs io) (handlers : Nat → Nat) :
    (Irqs.boot io handlers).lines (readMaxRedir regs) = Lines.boot handlers := by
  rw [Irqs.lines, Lines.boot]
  congr 1
  · funext k
    by_cases hk : k < readMaxRedir regs
    · simp [Irqs.boot, h.routed.masked k hk]
    · simp [hk]
  · funext i
    simp [Irqs.boot]

theorem Booted.run_lines (h : Booted b before regs io) (handlers : Nat → Nat)
    (hacts : ∀ a ∈ acts, a.Possible (readMaxRedir regs)) :
    (acts.foldlM b.step (Irqs.boot io handlers)).map (Irqs.lines (readMaxRedir regs)) =
      acts.foldlM (Lines.step (overridesOf before.mem b.acpi)) (Lines.boot handlers) := by
  rw [Twos.Isr.run_lines h.tables (h.sound handlers) hacts, h.lines]

/-- A machine whose timer has an override, with the entries as after a reset. -/
theorem timer_booted : ∃ b io, Booted b (everywhere timerOverride) usualRegs io ∧
    b.acpi = timerTables := by
  have hone : overridesOf (everywhere timerOverride).mem timerTables = [⟨0, 2⟩] := by decide
  obtain ⟨s', io₀, io, hinit, -⟩ := timer_run
  refine ⟨⟨someImage, idtInit someImage fun _ => ⟨0, 0, 0, 0, 0, 0, 0⟩, s', timerTables, 0⟩, io₀,
    ⟨⟨_, rfl⟩, hinit, ?_, by decide, rfl⟩, rfl⟩
  rw [hone]
  exact ⟨by decide, by decide, List.pairwise_singleton _ _, by decide, by decide⟩

/-- A key is pressed, and another one while the first is being handled. -/
def twoKeys : List Act := [.register 33 7, .unmask 1, .signal 1, .take, .signal 1]

theorem twoKeys_possible : ∀ a ∈ twoKeys, a.Possible (readMaxRedir usualRegs) := by decide

/-- Whatever happens in whatever order, the controllers, the gates and the handlers do what the sixteen
lines do, and come to no act that they cannot make where the lines could. Only vectors with gates are
ever requested, and only what is running is in service. -/
theorem interrupts_are_lines (h : Booted b before regs io) (handlers : Nat → Nat)
    (hacts : ∀ a ∈ acts, a.Possible (readMaxRedir regs)) :
    (acts.foldlM b.step (Irqs.boot io handlers)).map (Irqs.lines (readMaxRedir regs)) =
        acts.foldlM (Lines.step (overridesOf before.mem b.acpi)) (Lines.boot handlers) ∧
      ∀ s, acts.foldlM b.step (Irqs.boot io handlers) = some s →
        (∀ v, s.lapic.irr v = true → 32 ≤ v ∧ v < 48) ∧
          ∀ v, s.lapic.isr v = true → s.running = some v := by
  refine ⟨h.run_lines handlers hacts, fun s hrun => ?_⟩
  have hsound := run_sound h.tables (h.sound handlers) hacts hrun
  exact ⟨hsound.requested, hsound.served⟩

theorem interrupts_are_lines_keys : ∃ b io, Booted b (everywhere timerOverride) usualRegs io ∧
    (twoKeys.foldlM b.step (Irqs.boot io fun _ => 0)).map (Irqs.lines (readMaxRedir usualRegs)) =
        twoKeys.foldlM (Lines.step (overridesOf timerOverride b.acpi)) (Lines.boot fun _ => 0) ∧
      ∀ s, twoKeys.foldlM b.step (Irqs.boot io fun _ => 0) = some s →
        (∀ v, s.lapic.irr v = true → 32 ≤ v ∧ v < 48) ∧
          ∀ v, s.lapic.isr v = true → s.running = some v := by
  obtain ⟨b, io, h, -⟩ := timer_booted
  exact ⟨b, io, h, interrupts_are_lines h (fun _ => 0) twoKeys_possible⟩

/-! ## Serving what waits

Of the lines alone: the handler that is running ends, and then the highest that waits is taken and
ends, until none does. There are sixteen lines, so this comes to an end, and the machine can do the
same acts.
-/

/-- One interrupt after the other. -/
def serveAll : Nat → List Act
  | 0 => []
  | n + 1 => .take :: .finish :: serveAll n

theorem length_serveAll (n : Nat) : (serveAll n).length = 2 * n := by
  induction n with
  | zero => rfl
  | succ n ih =>
      rw [serveAll, List.length_cons, List.length_cons, ih]
      omega

theorem mem_serveAll {n : Nat} {a : Act} (h : a ∈ serveAll n) : a = .take ∨ a = .finish := by
  induction n with
  | zero => cases h
  | succ n ih =>
      rw [serveAll, List.mem_cons, List.mem_cons] at h
      rcases h with rfl | rfl | hrest
      · exact .inl rfl
      · exact .inr rfl
      · exact ih hrest

theorem length_members_le (set : Nat → Bool) (n : Nat) : (members set n).length ≤ n := by
  induction n with
  | zero => exact Nat.le_refl 0
  | succ n ih =>
      rw [members]
      split
      · exact Nat.succ_le_succ ih
      · exact Nat.le_succ_of_le ih

/-- The lines serve what waits, from the highest to the lowest. -/
theorem serveAll_spec (hidle : l.serving = none) {lines : List Nat}
    (hwaiting : members l.waiting NUM_IRQ = lines) :
    ∃ l', (serveAll lines.length).foldlM (Lines.step os) l = some l' ∧ l'.serving = none ∧
      members l'.waiting NUM_IRQ = [] ∧ l'.calls = l.calls ++ lines.flatMap (called l.handlers) := by
  induction lines generalizing l with
  | nil => exact ⟨l, rfl, hidle, hwaiting, by simp⟩
  | cons line lines ih =>
      have htake : Lines.step os l .take = _ := Lines.step_take hidle (topmost_of_members hwaiting)
      -- the line is entered and left
      obtain ⟨l', hrun, hidle', hnone, hcalls⟩ := ih (l :=
        { ({ l with waiting := without l.waiting line } : Lines).enter line with serving := none })
        rfl (members_without hwaiting)
      refine ⟨l', ?_, hidle', hnone, ?_⟩
      · rw [List.length_cons, serveAll, List.foldlM_cons, htake]
        exact hrun
      · rw [hcalls, List.flatMap_cons, ← List.append_assoc]
        rfl

/-- With the handler that is running ended first. -/
def settle (running : Bool) (n : Nat) : List Act := if running then .finish :: serveAll n else serveAll n

theorem mem_settle {running : Bool} {n : Nat} {a : Act} (h : a ∈ settle running n) :
    a = .take ∨ a = .finish := by
  cases running with
  | false => exact mem_serveAll h
  | true =>
      rcases List.mem_cons.mp h with rfl | hrest
      · exact .inr rfl
      · exact mem_serveAll hrest

theorem length_settle_le (running : Bool) (n : Nat) : (settle running n).length ≤ 2 * n + 1 := by
  cases running with
  | false => exact Nat.le_succ_of_le (Nat.le_of_eq (length_serveAll n))
  | true => exact Nat.succ_le_succ (Nat.le_of_eq (length_serveAll n))

theorem settle_spec (os : List Override) (l : Lines) :
    ∃ l', (settle l.serving.isSome (members l.waiting NUM_IRQ).length).foldlM (Lines.step os) l = some l' ∧
      l'.serving = none ∧ members l'.waiting NUM_IRQ = [] ∧
      l'.calls = l.calls ++ (members l.waiting NUM_IRQ).flatMap (called l.handlers) := by
  cases hserving : l.serving with
  | none => exact serveAll_spec hserving rfl
  | some line =>
      have hfinish : Lines.step os l .finish = some { l with serving := none } := by
        simp [Lines.step, hserving]
      rw [settle, Option.isSome_some, if_pos rfl, List.foldlM_cons, hfinish]
      exact serveAll_spec (l := { l with serving := none }) rfl rfl

/-- In every state that is reached, the kernel has only to let handlers end and interrupts in, at most 33
times, to have called the handler of each interrupt that waits, once and from the highest to the lowest,
with none left. -/
theorem pending_served (h : Booted b before regs io) {handlers : Nat → Nat}
    (hacts : ∀ a ∈ acts, a.Possible (readMaxRedir regs))
    (hrun : acts.foldlM b.step (Irqs.boot io handlers) = some s) :
    ∃ (rest : List Act) (t : Irqs), (∀ a ∈ rest, a = .take ∨ a = .finish) ∧ rest.length ≤ 33 ∧
      rest.foldlM b.step s = some t ∧ t.running = none ∧
      (∀ v, t.lapic.irr v = false ∧ t.lapic.isr v = false) ∧
      t.calls = s.calls ++
        (members (fun i => s.lapic.irr (32 + i)) NUM_IRQ).flatMap (called s.handlers) := by
  have hsound := run_sound h.tables (h.sound handlers) hacts hrun
  obtain ⟨l', hlines, hidle, hnone, hcalls⟩ := settle_spec (overridesOf before.mem b.acpi)
    (s.lines (readMaxRedir regs))
  have hwaiting : members (s.lines (readMaxRedir regs)).waiting NUM_IRQ =
      members (fun i => s.lapic.irr (32 + i)) NUM_IRQ := by
    apply members_congr
    intro i hi
    simp [Irqs.lines, hi]
  -- the run is the one that serves every line that waits
  generalize hrest : settle (s.lines (readMaxRedir regs)).serving.isSome
    (members (s.lines (readMaxRedir regs)).waiting NUM_IRQ).length = rest at hlines
  have honly : ∀ a ∈ rest, a = .take ∨ a = .finish := by
    intro a ha
    rw [← hrest] at ha
    exact mem_settle ha
  have hpossible : ∀ a ∈ rest, a.Possible (readMaxRedir regs) := by
    intro a ha
    rcases honly a ha with rfl | rfl
    · trivial
    · trivial
  have hlength : rest.length ≤ 33 := by
    have hmembers := length_members_le (s.lines (readMaxRedir regs)).waiting NUM_IRQ
    have hsettle := length_settle_le (s.lines (readMaxRedir regs)).serving.isSome
      (members (s.lines (readMaxRedir regs)).waiting NUM_IRQ).length
    rw [hrest] at hsettle
    lia
  -- the machine goes where its lines go
  have hview := Twos.Isr.run_lines h.tables hsound hpossible
  rw [hlines, Option.map_eq_some_iff] at hview
  obtain ⟨t, ht, rfl⟩ := hview
  have hend := run_sound h.tables hsound hpossible ht
  have hrunning : t.running = none := by simpa [Irqs.lines] using hidle
  refine ⟨rest, t, honly, hlength, ht, hrunning, fun v => ⟨?_, hend.idle hrunning v⟩, ?_⟩
  · -- a vector that is still requested would be a line that waits
    rw [Bool.eq_false_iff]
    intro hv
    obtain ⟨hlow, hhigh⟩ := hend.requested v hv
    have hmem : v - 32 ∈ members (t.lines (readMaxRedir regs)).waiting NUM_IRQ := by
      have hback : 32 + (v - 32) = v := by omega
      rw [mem_members]
      simp only [Irqs.lines, hback, hv]
      have hlt : v - 32 < NUM_IRQ := by lia
      simp [hlt]
    rw [hnone] at hmem
    cases hmem
  · rw [← hwaiting]
    exact hcalls

/-- The second key waits until the handler has ended. -/
theorem pending_served_keys : ∃ b io s, Booted b (everywhere timerOverride) usualRegs io ∧
    twoKeys.foldlM b.step (Irqs.boot io fun _ => 0) = some s ∧
    ∃ (rest : List Act) (t : Irqs), (∀ a ∈ rest, a = .take ∨ a = .finish) ∧ rest.length ≤ 33 ∧
      rest.foldlM b.step s = some t ∧ t.running = none ∧
      (∀ v, t.lapic.irr v = false ∧ t.lapic.isr v = false) ∧
      t.calls = s.calls ++
        (members (fun i => s.lapic.irr (32 + i)) NUM_IRQ).flatMap (called s.handlers) := by
  obtain ⟨b, io, h, hacpi⟩ := timer_booted
  have hone : overridesOf (everywhere timerOverride).mem timerTables = [⟨0, 2⟩] := by decide
  have hview := h.run_lines (fun _ => 0) twoKeys_possible
  rw [hacpi, hone] at hview
  obtain ⟨s, hrun, -⟩ := Option.map_eq_some_iff.mp (hview.trans rfl)
  exact ⟨b, io, s, h, hrun, pending_served h twoKeys_possible hrun⟩

/-! ## What a driver gets

Unmasking an interrupt goes to the entry that an override names, or else to the pin of the same
number. A driver gets its interrupt if that entry asks for its vector, which is a matter of the
overrides.
-/

/-- The interrupts that a driver gets by unmasking them: those with an override, other than the timer's
interrupt, and those whose pin no override has taken. Pin 0 is unmasked for interrupt 0 whether or not it
is its pin. -/
def Enabled (os : List Override) (irq : Nat) : Prop :=
  (irq ≠ 0 ∧ ∃ o ∈ os, o.irq = irq) ∨ (∀ o ∈ os, o.irq ≠ irq ∧ o.gsi ≠ irq) ∨
    (irq = 0 ∧ os.find? (fun o => o.irq == 0) = some ⟨0, 0⟩)

theorem lineOf_cons (o : Override) (os : List Override) (k : Nat) :
    lineOf (o :: os) k = if o.gsi = k then o.irq else lineOf os k := by
  rw [lineOf, List.find?_cons]
  by_cases hgsi : o.gsi = k
  · simp [hgsi]
  · have hne : (o.gsi == k) = false := by simp [hgsi]
    rw [hne, if_neg hgsi, lineOf]

/-- Where no two overrides have one pin, the override of a pin is found. -/
theorem lineOf_gsi (hdistinct : os.Pairwise fun o o' => o.gsi ≠ o'.gsi) {o : Override} (ho : o ∈ os) :
    lineOf os o.gsi = o.irq := by
  induction os with
  | nil => cases ho
  | cons o' os ih =>
      obtain ⟨hfirst, hrest⟩ := List.pairwise_cons.mp hdistinct
      rw [lineOf_cons]
      rcases List.mem_cons.mp ho with rfl | hmem
      · rw [if_pos rfl]
      · rw [if_neg (hfirst o hmem), ih hrest hmem]

theorem lineOf_free {k : Nat} (hfree : ∀ o ∈ os, o.gsi ≠ k) : lineOf os k = k := by
  have hnone : (os.find? fun o => o.gsi == k) = none := by simpa using hfree
  rw [lineOf, hnone]

/-- The pin that is unmasked is the interrupt's, and its entry asks for the interrupt's vector. -/
theorem enabled_iff (hdistinct : os.Pairwise fun o o' => o.gsi ≠ o'.gsi) (irq : Nat) :
    pinOf os irq = serving os irq ∧ lineOf os (serving os irq) = irq ↔ Enabled os irq := by
  rw [Enabled, pinOf, serving]
  cases hfind : os.find? fun o => o.irq == irq with
  | none =>
      -- no override serves this interrupt, so its pin is the one with its number
      have hnone : ∀ o ∈ os, o.irq ≠ irq := by simpa using hfind
      constructor
      · -- an override on that pin would give it to another interrupt
        rintro ⟨-, hline⟩
        refine .inr (.inl fun o ho => ⟨hnone o ho, fun hgsi => ?_⟩)
        have hother := lineOf_gsi hdistinct ho
        rw [hgsi] at hother
        exact hnone o ho (hother.symm.trans hline)
      · rintro (⟨-, o, ho, hirq⟩ | hfree | ⟨rfl, hzero⟩)
        · exact absurd hirq (hnone o ho)
        · refine ⟨?_, lineOf_free fun o ho => (hfree o ho).2⟩
          split
          · next hzero => exact hzero.symm
          · rfl
        · rw [hfind] at hzero
          cases hzero
  | some o =>
      -- an override does, and its pin belongs to it alone
      have ho := List.mem_of_find?_eq_some hfind
      have hirq : o.irq = irq := by simpa using List.find?_some hfind
      have hline := lineOf_gsi hdistinct ho
      -- interrupt 0 is looked for at pin 0, whatever its override says
      by_cases hzero : irq = 0
      · subst hzero
        rw [if_pos rfl, hfind]
        constructor
        · rintro ⟨hgsi, -⟩
          refine .inr (.inr ⟨rfl, ?_⟩)
          rw [Option.some.injEq, Override.mk.injEq]
          exact ⟨hirq, hgsi.symm⟩
        · rintro (⟨hne, -⟩ | hfree | ⟨-, hsome⟩)
          · exact absurd rfl hne
          · exact absurd hirq (hfree o ho).1
          · obtain rfl := Option.some.inj hsome
            exact ⟨rfl, hline⟩
      · rw [if_neg hzero]
        constructor
        · exact fun _ => .inl ⟨hzero, o, ho, hirq⟩
        · exact fun _ => ⟨rfl, hline.trans hirq⟩

/-- The lines after an interrupt has been unmasked and a pin signalled. -/
theorem unmask_signal_take (handlers : Nat → Nat) {irq pin : Nat} (hpin : lineOf os pin < NUM_IRQ) :
    (([.unmask irq, .signal pin, .take] : List Act).foldlM (Lines.step os) (Lines.boot handlers)).map
        Lines.calls =
      if pinOf os irq = pin then some (called handlers (lineOf os pin)) else none := by
  have hunmask : Lines.step os (Lines.boot handlers) (.unmask irq) =
      some { Lines.boot handlers with heard := fun k => if k = pinOf os irq then true else false } := rfl
  rw [List.foldlM_cons, hunmask]
  by_cases hopen : pinOf os irq = pin
  · subst hopen
    -- the pin is open, so the line waits and is taken
    rw [if_pos rfl]
    have hwaits : (Lines.step os
        { Lines.boot handlers with heard := fun k => if k = pinOf os irq then true else false }
        (.signal (pinOf os irq))) =
      some { Lines.boot handlers with
        heard := fun k => if k = pinOf os irq then true else false
        waiting := fun i => if i = lineOf os (pinOf os irq) then true else false } := by
      simp [Lines.step, Lines.boot]
    show (([.signal (pinOf os irq), .take] : List Act).foldlM (Lines.step os) _).map Lines.calls = _
    rw [List.foldlM_cons, hwaits]
    show (([.take] : List Act).foldlM (Lines.step os) _).map Lines.calls = _
    rw [List.foldlM_cons, Lines.step_take rfl (topmost_single hpin)]
    rfl
  · rw [if_neg hopen]
    -- the pin is not the one that was opened, and stays masked
    have hdeaf : (Lines.step os
        { Lines.boot handlers with heard := fun k => if k = pinOf os irq then true else false }
        (.signal pin)) =
      some { Lines.boot handlers with heard := fun k => if k = pinOf os irq then true else false } := by
      simp [Lines.step, Lines.boot, Ne.symm hopen]
    show (([.signal pin, .take] : List Act).foldlM (Lines.step os) _).map Lines.calls = _
    rw [List.foldlM_cons, hdeaf]
    rfl

theorem serving_wired {irq : Nat} (hirq : irq < NUM_IRQ) : Wired os (serving os irq) := by
  rw [serving]
  split
  · next o hfind => exact .inr ⟨o, List.mem_of_find?_eq_some hfind, rfl⟩
  · exact .inl hirq

/-- A driver that has registered a handler for an interrupt and unmasks it, with no other unmasked, has
its handler called for a signal on the interrupt's pin, if and only if the interrupt is one of these. -/
theorem driver_called_iff (h : Booted b before regs io) {handlers : Nat → Nat} {irq : Nat}
    (hirq : irq < NUM_IRQ) (hslot : handlers (32 + irq) ≠ 0) :
    (([.unmask irq, .signal (serving (overridesOf before.mem b.acpi) irq), .take] : List Act).foldlM b.step
        (Irqs.boot io handlers)).map Irqs.calls = some [(32 + irq, handlers (32 + irq))] ↔
      Enabled (overridesOf before.mem b.acpi) irq := by
  have hwired : Wired (overridesOf before.mem b.acpi) (serving (overridesOf before.mem b.acpi) irq) :=
    serving_wired hirq
  have hpossible : ∀ a ∈ ([.unmask irq, .signal (serving (overridesOf before.mem b.acpi) irq),
      .take] : List Act), a.Possible (readMaxRedir regs) := by
    simp only [List.mem_cons, List.not_mem_nil, or_false]
    rintro a (rfl | rfl | rfl)
    · exact hirq
    · exact hwired.lt h.setup
    · trivial
  have hcalls := congrArg (Option.map Lines.calls) (h.run_lines handlers hpossible)
  rw [Option.map_map, unmask_signal_take handlers (lineOf_lt hwired h.setup)] at hcalls
  rw [show Irqs.calls = Lines.calls ∘ Irqs.lines (readMaxRedir regs) from rfl, hcalls,
    ← enabled_iff h.setup.distinct]
  by_cases hpin : pinOf (overridesOf before.mem b.acpi) irq = serving (overridesOf before.mem b.acpi) irq
  · -- the pin that was opened is the one that signals, and the line it is put to is called
    rw [if_pos hpin, and_iff_right hpin, Option.some.injEq, called]
    constructor
    · intro hcall
      split at hcall
      · cases hcall
      · have hnumber := (Prod.mk.inj (List.cons.inj hcall).1).1
        omega
    · intro hline
      rw [hline, if_neg hslot]
  · -- another pin was opened, and nothing is called
    simp [hpin]

/-- For the keyboard. -/
theorem driver_called_iff_keyboard : ∃ b io, Booted b (everywhere timerOverride) usualRegs io ∧
    ((([.unmask 1, .signal (serving (overridesOf timerOverride b.acpi) 1), .take] : List Act).foldlM b.step
        (Irqs.boot io fun _ => 7)).map Irqs.calls = some [(32 + 1, 7)] ↔
      Enabled (overridesOf timerOverride b.acpi) 1) := by
  obtain ⟨b, io, h, -⟩ := timer_booted
  have hslot : (fun _ => 7 : Nat → Nat) (32 + 1) ≠ 0 := by decide
  exact ⟨b, io, h, driver_called_iff h (by decide) hslot⟩

end Twos.Isr
