import Twos.Isr.Interrupts

/-!
# The interrupts as sixteen lines

The machine of controllers, gates and handlers does what `Lines` does, whatever order things happen in.
The invariant that carries this has a part about the IOAPIC, which `ioapic_init` establishes and masking
keeps, and a part about the local APIC: it is asked for no vector without a gate, and serves nothing but
what `irq_handler` is at, so that the end of one interrupt is never taken for that of another.

* `Wiring` is the part about the IOAPIC (`Routed.wiring` at the start, `Wiring.keep` afterwards), and
  `Sound` the whole.
* `Matches` says of an act that both machines refuse it, or both take it, to states that are still sound
  and still correspond. There is one lemma for each act, `matches_signal` to `matches_unmask`, and
  `matches_step` goes through them.
* `run_lines` is the simulation of whole runs, and `run_sound` the invariant in them.
-/

namespace Twos.Isr

open Lib Acpi Apic

variable {b : Board} {os : List Override} {count : Nat} {s t : Irqs} {io : Ioapic} {regs regs' : Regs}

/-! ## The wiring -/

/-- What is asked of the overrides: no two of one pin, no pin that is not there, and no interrupt but
the sixteen that have gates. -/
structure Setup (os : List Override) (count : Nat) : Prop where
  enough : NUM_IRQ ≤ count
  reach : count < MAX_ENTRIES
  distinct : os.Pairwise fun o o' => o.gsi ≠ o'.gsi
  gsi : ∀ o ∈ os, o.gsi < count
  irq : ∀ o ∈ os, o.irq < NUM_IRQ

/-- The pins whose entries `ioapic_init` writes. -/
def Wired (os : List Override) (k : Nat) : Prop := k < NUM_IRQ ∨ ∃ o ∈ os, o.gsi = k

theorem Wired.lt {k : Nat} (h : Wired os k) (hsetup : Setup os count) : k < count := by
  rcases h with hlow | ⟨o, ho, rfl⟩
  · exact Nat.lt_of_lt_of_le hlow hsetup.enough
  · exact hsetup.gsi o ho

/-- A wired pin belongs to an override, or to the interrupt of its number. -/
theorem lineOf_cases {k : Nat} (h : Wired os k) :
    (∃ o ∈ os, o.gsi = k ∧ lineOf os k = o.irq) ∨
      (k < NUM_IRQ ∧ (∀ o ∈ os, o.gsi ≠ k) ∧ lineOf os k = k) := by
  rw [lineOf]
  cases hfind : os.find? fun o => o.gsi == k with
  | some o =>
      left
      exact ⟨o, List.mem_of_find?_eq_some hfind, by simpa using List.find?_some hfind, rfl⟩
  | none =>
      right
      have hnone : ∀ o ∈ os, o.gsi ≠ k := by simpa using hfind
      refine ⟨?_, hnone, rfl⟩
      rcases h with hlow | ⟨o, ho, hgsi⟩
      · exact hlow
      · exact absurd hgsi (hnone o ho)

theorem lineOf_lt {k : Nat} (h : Wired os k) (hsetup : Setup os count) : lineOf os k < NUM_IRQ := by
  rcases lineOf_cases h with ⟨o, ho, -, hline⟩ | ⟨hlow, -, hline⟩
  · rw [hline]
    exact hsetup.irq o ho
  · rw [hline]
    exact hlow

theorem pinOf_wired {irq : Nat} (hirq : irq < NUM_IRQ) : Wired os (pinOf os irq) := by
  rw [pinOf]
  split
  · exact .inl (by decide)
  · rw [serving]
    split
    · next o hfind => exact .inr ⟨o, List.mem_of_find?_eq_some hfind, rfl⟩
    · exact .inl hirq

/-! ## The IOAPIC

A wired entry of the IOAPIC is a line: it has the vector of its interrupt and a mask. `Wiring` says
that this is how `ioapic_init` leaves the entries, and masking and unmasking change nothing but the
mask.
-/

/-- A wired entry asks for the vector of its line, at this processor; the others are masked. -/
structure Wiring (os : List Override) (count : Nat) (regs : Regs) : Prop where
  programmed : ∀ k, Wired os k → Programmed regs k (lineOf os k + IDT_EXCEPTIONS)
  plain : ∀ k, Wired os k → modes (redirection regs k) = 0
  others : ∀ k, k < count → ¬ Wired os k → masked (redirection regs k) = true

theorem Routed.wiring (h : Routed os count regs)
    (hplain : ∀ k, Wired os k → modes (redirection regs k) = 0) : Wiring os count regs := by
  refine ⟨fun k hk => ?_, hplain, fun k hk _ => h.masked k hk⟩
  rcases lineOf_cases hk with ⟨o, ho, rfl, hline⟩ | ⟨hlow, hfree, hline⟩
  · rw [hline]
    exact h.overridden o ho
  · rw [hline]
    exact h.identity k hlow hfree

/-- Masks are all that masking changes of a wiring. -/
theorem Wiring.keep (h : Wiring os count regs) (hkeep : KeepsBits Unmasked regs regs')
    (hothers : ∀ k, k < count → ¬ Wired os k → masked (redirection regs' k) = true) :
    Wiring os count regs' := by
  have hvector (k : Nat) : vector (redirection regs' k) = vector (redirection regs k) :=
    hkeep.field (fun i hi => ⟨by omega, by omega⟩) k
  have hdestination (k : Nat) : destination (redirection regs' k) = destination (redirection regs k) :=
    hkeep.field (fun i hi => ⟨by omega, by omega⟩) k
  have hmodes (k : Nat) : modes (redirection regs' k) = modes (redirection regs k) :=
    hkeep.field (fun i hi => ⟨by omega, by omega⟩) k
  refine ⟨fun k hk => ⟨?_, ?_⟩, fun k hk => ?_, hothers⟩
  · rw [hvector, (h.programmed k hk).vector]
  · rw [hdestination, (h.programmed k hk).destination]
  · rw [hmodes, h.plain k hk]

/-- The calls of `ioapic_map_redtbl_entry` change no modes. -/
theorem replay_modes (hsetup : Setup os count) (regs : Regs) :
    SameModes regs (replay regs (mapCalls os)) := by
  have hentry : ∀ call ∈ mapCalls os, call.1 < MAX_ENTRIES := by
    intro call hcall
    rcases List.mem_append.mp hcall with hmem | hmem
    · obtain ⟨o, ho, rfl⟩ := List.mem_map.mp hmem
      have := hsetup.gsi o ho
      have := hsetup.reach
      show o.gsi % 256 < MAX_ENTRIES
      lia
    · obtain ⟨i, hi, rfl⟩ := List.mem_map.mp hmem
      have := List.mem_range.mp (List.mem_filter.mp hi).1
      show i < MAX_ENTRIES
      lia
  generalize mapCalls os = calls at hentry
  induction calls generalizing regs with
  | nil => exact fun k => rfl
  | cons call calls ih =>
      have hfirst : SameModes regs (ioapicMapRedtblEntry regs call.1 call.2) :=
        .of_keeps (keepsBits_map (hentry call List.mem_cons_self) call.2)
      exact fun k => (ih _ (fun c hc => hentry c (List.mem_cons_of_mem _ hc)) k).trans (hfirst k)

/-- The IOAPIC as `ioapic_init` leaves it and as it stays. -/
structure IoapicReady (b : Board) (os : List Override) (count : Nat) (io : Ioapic) : Prop where
  usable : Usable b.space b.acpi io.base
  maxRedir : io.maxRedir = count
  wiring : Wiring os count io.regs

/-- What nothing changes: the gates, the overrides, and that this is processor 0. -/
structure Tables (b : Board) (os : List Override) (count : Nat) : Prop where
  setup : Setup os count
  overrides : overridesOf b.space.mem b.acpi = os
  gate : ∀ v, 32 ≤ v → v < 48 →
    deliver b.image b.idt (fun _ => 0) v = some (.irqHandler, BitVec.ofNat 64 v)
  id : b.id = 0

theorem entryOf_pinOf (h : Tables b os count) (hready : IoapicReady b os count io) (irq : Nat) :
    entryOf b.space.read b.acpi irq = .ok (pinOf os irq) := by
  rw [pinOf]
  split
  · next hzero =>
    subst hzero
    rfl
  · next hne =>
    rw [entryOf_spec hready.usable hne, h.overrides, selected_eq]
    intro o ho
    have := h.setup.gsi o ho
    have := h.setup.reach
    lia

/-- Below 120 entries, a pin's entry is the one that is reached. -/
theorem reaches_iff {e k : Nat} (hcount : count < MAX_ENTRIES) (hk : k < count) :
    Reaches count e k ↔ k = e := by
  constructor
  · rintro ⟨hle, hreg⟩
    rw [redtbl_eq (by omega)] at hreg
    omega
  · rintro rfl
    exact ⟨Nat.le_of_lt hk, redtbl_eq (by omega)⟩

theorem ioapicMask_eq (h : Tables b os count) (hready : IoapicReady b os count io) (irq : Nat) :
    ioapicMask b.space b.acpi io irq =
      .ok { io with regs := (ioapicMaskGsi count io.regs (pinOf os irq)).2 } := by
  rw [ioapicMask, entryOf_pinOf h hready, ok_seq, hready.usable.registers, ok_seq, hready.maxRedir]

theorem ioapicUnmask_eq (h : Tables b os count) (hready : IoapicReady b os count io) (irq : Nat) :
    ioapicUnmask b.space b.acpi io irq =
      .ok { io with regs := (ioapicUnmaskGsi count io.regs (pinOf os irq)).2 } := by
  rw [ioapicUnmask, entryOf_pinOf h hready, ok_seq, hready.usable.registers, ok_seq, hready.maxRedir]

/-- An operation on an entry that is not there changes nothing. -/
theorem keepsBits_maskGsi (hcount : count < MAX_ENTRIES) (regs : Regs) (e : Nat) :
    KeepsBits Unmasked regs (ioapicMaskGsi count regs e).2 := by
  by_cases hle : e ≤ count
  · exact keepsBits_mask (Nat.lt_of_le_of_lt hle hcount)
  · rw [ioapicMaskGsi, if_pos (Nat.lt_of_not_le hle)]
    exact fun k i hi => rfl

theorem IoapicReady.mask (hready : IoapicReady b os count io) (h : Tables b os count) (irq : Nat) :
    IoapicReady b os count { io with regs := (ioapicMaskGsi count io.regs (pinOf os irq)).2 } := by
  refine ⟨hready.usable, hready.maxRedir,
    hready.wiring.keep (keepsBits_maskGsi h.setup.reach io.regs _) fun k hk hother => ?_⟩
  rw [masked_maskGsi]
  split
  · rfl
  · exact hready.wiring.others k hk hother

theorem IoapicReady.unmask (hready : IoapicReady b os count io) (h : Tables b os count) {irq : Nat}
    (hirq : irq < NUM_IRQ) :
    IoapicReady b os count { io with regs := (ioapicUnmaskGsi count io.regs (pinOf os irq)).2 } := by
  have hwired : Wired os (pinOf os irq) := pinOf_wired hirq
  have hentry : pinOf os irq < MAX_ENTRIES := Nat.lt_trans (hwired.lt h.setup) h.setup.reach
  refine ⟨hready.usable, hready.maxRedir,
    hready.wiring.keep (keepsBits_unmask hentry) fun k hk hother => ?_⟩
  rw [masked_unmaskGsi, if_neg]
  · exact hready.wiring.others k hk hother
  · rw [reaches_iff h.setup.reach hk]
    rintro rfl
    exact hother hwired

/-! ## The whole

One act of the machine is one act of the sixteen lines, or neither is possible. The cases are the
acts, and in each of them the local APIC does with the vector what the line does with its interrupt,
as long as it is asked for vectors of interrupts only.
-/

/-- The local APIC is asked for vectors of interrupts only, and serves only what is running. -/
structure Sound (b : Board) (os : List Override) (count : Nat) (s : Irqs) : Prop where
  ready : IoapicReady b os count s.io
  requested : ∀ v, s.lapic.irr v = true → 32 ≤ v ∧ v < 48
  served : ∀ v, s.lapic.isr v = true → s.running = some v
  running : ∀ v, s.running = some v → 32 ≤ v ∧ v < 48

theorem irqHandler_eq (handlers : Nat → Nat) {v : Nat} (hlow : 32 ≤ v) (hhigh : v < 48) :
    irqHandler handlers (BitVec.ofNat 64 v) = .ok (called handlers (v - 32)) := by
  have hto : (BitVec.ofNat 64 v).toNat = v := by
    rw [BitVec.toNat_ofNat]
    omega
  have hlowByte : (BitVec.ofNat 64 v &&& 0xff).toNat = v := by
    rw [BitVec.toNat_and, hto]
    show v &&& (2 ^ 8 - 1) = v
    rw [Nat.and_two_pow_sub_one_eq_mod]
    omega
  have hback : 32 + (v - 32) = v := by omega
  rw [irqHandler, hto, hlowByte, called, hback]
  by_cases hslot : handlers v = 0
  · rw [if_neg (by simpa using hslot), if_pos hslot]
  · rw [if_pos hslot, if_pos (by omega), if_neg hslot]

theorem enter_eq (h : Tables b os count) {v : Nat} (hlow : 32 ≤ v) (hhigh : v < 48) :
    b.enter s v = some { s with running := some v, calls := s.calls ++ called s.handlers (v - 32) } := by
  have hto : (BitVec.ofNat 64 v).toNat = v := by
    rw [BitVec.toNat_ofNat]
    omega
  rw [Board.enter, h.gate v hlow hhigh]
  dsimp only
  rw [irqHandler_eq s.handlers hlow hhigh, hto]

/-- One act on the machine and on its lines: neither is possible, or both go to the same lines. -/
def Matches (b : Board) (os : List Override) (count : Nat) (s : Irqs) (a : Act) : Prop :=
  (b.step s a = none ∧ Lines.step os (s.lines count) a = none) ∨
    ∃ t, b.step s a = some t ∧ Sound b os count t ∧ Lines.step os (s.lines count) a = some (t.lines count)

/-- Whatever is requested, it is one of the sixteen. -/
theorem Sound.request (h : Sound b os count s) {v : Nat} (hlow : 32 ≤ v) (hhigh : v < 48) :
    Sound b os count { s with lapic := s.lapic.request v } := by
  refine ⟨h.ready, fun w hw => ?_, h.served, h.running⟩
  by_cases hwv : w = v
  · rw [hwv]
    exact ⟨hlow, hhigh⟩
  · exact h.requested w (by simpa [LocalApic.request, hwv] using hw)

theorem matches_signal (htables : Tables b os count) (h : Sound b os count s) {pin : Nat}
    (hpin : pin < count) : Matches b os count s (.signal pin) := by
  right
  cases hmask : masked (redirection s.io.regs pin) with
  | true =>
      -- the entry is masked, and neither machine hears the pin
      refine ⟨s, if_pos hmask, h, ?_⟩
      have hdeaf : (s.lines count).heard pin = false := by simp [Irqs.lines, hmask]
      simp [Lines.step, hdeaf]
  | false =>
      -- only wired pins are ever unmasked
      have hwired : Wired os pin := by
        by_contra hother
        rw [h.ready.wiring.others pin hpin hother] at hmask
        cases hmask
      have hprogrammed := h.ready.wiring.programmed pin hwired
      have hline : lineOf os pin < NUM_IRQ := lineOf_lt hwired htables.setup
      have hvector : (vector (redirection s.io.regs pin)).toNat = 32 + lineOf os pin := by
        rw [hprogrammed.vector, BitVec.toNat_ofNat]
        lia
      have hheard : (s.lines count).heard pin = true := by simp [Irqs.lines, hmask, hpin]
      refine ⟨{ s with lapic := s.lapic.request (32 + lineOf os pin) }, ?_,
        h.request (by omega) (by lia), ?_⟩
      · rw [Board.step]
        simp only [hmask, hvector, h.ready.wiring.plain pin hwired, hprogrammed.destination, htables.id]
        rfl
      · rw [Lines.step, hheard, if_pos rfl]
        congr 2
        -- the same lines wait as before, and the one of this pin
        funext i
        by_cases hi : i = lineOf os pin
        · subst hi
          simp [LocalApic.request, hline]
        · simp [Irqs.lines, LocalApic.request, hi]

/-- Nothing is in service while no handler runs. -/
theorem Sound.idle (h : Sound b os count s) (hidle : s.running = none) (v : Nat) :
    s.lapic.isr v = false := by
  rw [Bool.eq_false_iff]
  intro hserved
  have hrun := h.served v hserved
  rw [hidle] at hrun
  cases hrun

theorem Sound.offers_eq (h : Sound b os count s) (hidle : s.running = none) :
    s.lapic.offers = (topmost (s.lines count).waiting NUM_IRQ).map (32 + ·) := by
  have hserving : s.lapic.serving = 0 := by
    rw [LocalApic.serving, topmost_none fun v _ => h.idle hidle v]
  have hwaiting : topmost (s.lines count).waiting NUM_IRQ =
      topmost (fun i => s.lapic.irr (32 + i)) NUM_IRQ := by
    apply topmost_congr
    intro i hi
    simp [Irqs.lines, hi]
  rw [LocalApic.offers, hserving, topmost_shift 32 NUM_IRQ (by decide) h.requested, ← hwaiting]
  cases topmost (s.lines count).waiting NUM_IRQ with
  | none => rfl
  | some i =>
      have hclass : 0 < (32 + i) / 16 := by omega
      simp [Option.filter, hclass]

theorem step_take {v : Nat} (hidle : s.running = none) (hoffers : s.lapic.offers = some v) :
    b.step s .take = b.enter { s with lapic := s.lapic.accept v } v := by
  simp [Board.step, hidle, hoffers]

theorem Lines.step_take {l : Lines} {line : Nat} (hidle : l.serving = none)
    (htop : topmost l.waiting NUM_IRQ = some line) :
    Lines.step os l .take = some ({ l with waiting := without l.waiting line }.enter line) := by
  simp [Lines.step, hidle, htop]

theorem matches_take (htables : Tables b os count) (h : Sound b os count s) :
    Matches b os count s .take := by
  cases hrun : s.running with
  -- a handler is running, and both machines refuse
  | some v => exact .inl ⟨by simp [Board.step, hrun], by simp [Lines.step, Irqs.lines, hrun]⟩
  | none =>
      have hidle : (s.lines count).serving = none := by simp [Irqs.lines, hrun]
      have hoffers := h.offers_eq hrun
      cases htop : topmost (s.lines count).waiting NUM_IRQ with
      | none =>
          -- nothing is requested that is above what is served, and no line waits
          rw [htop] at hoffers
          exact .inl ⟨by simp [Board.step, hrun, hoffers], by simp [Lines.step, hidle, htop]⟩
      | some line =>
          right
          rw [htop] at hoffers
          have hline : line < NUM_IRQ := (topmost_some htop).1
          have hback : 32 + line - 32 = line := by omega
          refine ⟨{ s with
            lapic := s.lapic.accept (32 + line), running := some (32 + line),
            calls := s.calls ++ called s.handlers line }, ?_, ⟨h.ready, ?_, ?_, ?_⟩, ?_⟩
          · rw [Twos.Isr.step_take hrun hoffers, enter_eq htables (Nat.le_add_right 32 line) (by lia), hback]
          · -- what is still requested was requested before
            intro v hv
            apply h.requested v
            by_contra hout
            simp [LocalApic.accept, without, hout] at hv
          · -- what is served is this interrupt, since nothing else was
            intro v hv
            by_cases hvl : v = 32 + line
            · rw [hvl]
            · have hserved : s.lapic.isr v = true := by simpa [LocalApic.accept, hvl] using hv
              rw [h.idle hrun v] at hserved
              cases hserved
          · rintro v hv
            obtain rfl := Option.some.inj hv
            exact ⟨Nat.le_add_right 32 line, by lia⟩
          · rw [Lines.step_take hidle htop]
            congr 1
            simp only [Lines.enter, Irqs.lines, LocalApic.accept, Option.map_some, hback]
            congr 1
            funext i
            by_cases hi : i = line
            · simp [without, hi]
            · simp [without, hi]

theorem matches_software (htables : Tables b os count) (h : Sound b os count s) {v : Nat} (hlow : 32 ≤ v)
    (hhigh : v < 48) : Matches b os count s (.software v) := by
  cases hrun : s.running with
  | some w => exact .inl ⟨by simp [Board.step, hrun], by simp [Lines.step, Irqs.lines, hrun]⟩
  | none =>
      right
      refine ⟨{ s with running := some v, calls := s.calls ++ called s.handlers (v - 32) }, ?_,
        ⟨h.ready, h.requested, fun w hw => ?_, fun w hw => ?_⟩, ?_⟩
      · simp [Board.step, hrun, enter_eq htables hlow hhigh]
      · rw [h.idle hrun w] at hw
        cases hw
      · obtain rfl := Option.some.inj hw
        exact ⟨hlow, hhigh⟩
      · simp [Lines.step, Lines.enter, Irqs.lines, hrun]

/-- At the end of an interrupt nothing is in service any more. -/
theorem Sound.sendEOI (h : Sound b os count s) (v : Nat) : s.lapic.sendEOI.isr v = false := by
  rw [Bool.eq_false_iff]
  intro hv
  rw [LocalApic.sendEOI] at hv
  cases htop : topmost s.lapic.isr 256 with
  | none =>
      rw [htop] at hv
      have hrun := h.served v hv
      have hlt := (h.running v hrun).2
      rw [topmost_eq_head, List.head?_eq_none_iff, List.eq_nil_iff_forall_not_mem] at htop
      exact htop v (mem_members.mpr ⟨by omega, hv⟩)
  | some w =>
      rw [htop] at hv
      -- what is left would be a second one in service
      by_cases hvw : v = w
      · simp [without, hvw] at hv
      · have hv' : s.lapic.isr v = true := by simpa [without, hvw] using hv
        have hrun := h.served v hv'
        rw [h.served w (topmost_some htop).2] at hrun
        exact hvw (Option.some.inj hrun).symm

theorem sendEOI_irr (l : LocalApic) : l.sendEOI.irr = l.irr := by
  rw [LocalApic.sendEOI]
  split <;> rfl

theorem matches_finish (h : Sound b os count s) : Matches b os count s .finish := by
  cases hrun : s.running with
  | none => exact .inl ⟨by simp [Board.step, hrun], by simp [Lines.step, Irqs.lines, hrun]⟩
  | some v =>
      right
      refine ⟨{ s with running := none, lapic := s.lapic.sendEOI }, by simp [Board.step, hrun],
        ⟨h.ready, fun w hw => ?_, fun w hw => ?_, fun w hw => ?_⟩, ?_⟩
      · rw [sendEOI_irr] at hw
        exact h.requested w hw
      · rw [h.sendEOI w] at hw
        cases hw
      · cases hw
      · simp [Lines.step, Irqs.lines, hrun, sendEOI_irr]

theorem matches_register (h : Sound b os count s) (n handlerFn : Nat) :
    Matches b os count s (.register n handlerFn) :=
  .inr ⟨{ s with handlers := registerInteruptHandler s.handlers n handlerFn }, rfl,
    ⟨h.ready, h.requested, h.served, h.running⟩, rfl⟩

theorem matches_mask (htables : Tables b os count) (h : Sound b os count s) (irq : Nat) :
    Matches b os count s (.mask irq) := by
  right
  refine ⟨{ s with io := { s.io with regs := (ioapicMaskGsi count s.io.regs (pinOf os irq)).2 } }, ?_,
    ⟨h.ready.mask htables irq, h.requested, h.served, h.running⟩, ?_⟩
  · rw [Board.step, ioapicMask_eq htables h.ready]
    rfl
  · rw [Lines.step]
    congr 2
    funext k
    by_cases hk : k < count
    · simp only [Irqs.lines, masked_maskGsi, reaches_iff htables.setup.reach hk]
      split <;> simp [hk]
    · simp [Irqs.lines, hk]

theorem matches_unmask (htables : Tables b os count) (h : Sound b os count s) {irq : Nat}
    (hirq : irq < NUM_IRQ) : Matches b os count s (.unmask irq) := by
  have hpin : pinOf os irq < count := (pinOf_wired hirq).lt htables.setup
  right
  refine ⟨{ s with io := { s.io with regs := (ioapicUnmaskGsi count s.io.regs (pinOf os irq)).2 } }, ?_,
    ⟨h.ready.unmask htables hirq, h.requested, h.served, h.running⟩, ?_⟩
  · rw [Board.step, ioapicUnmask_eq htables h.ready]
    rfl
  · rw [Lines.step]
    congr 2
    funext k
    by_cases hk : k < count
    · simp only [Irqs.lines, masked_unmaskGsi, reaches_iff htables.setup.reach hk]
      split <;> simp [hk]
    · have hne : k ≠ pinOf os irq := by omega
      simp [Irqs.lines, hk, hne]

theorem matches_step (htables : Tables b os count) (h : Sound b os count s) {a : Act}
    (ha : a.Possible count) : Matches b os count s a := by
  cases a with
  | signal pin => exact matches_signal htables h ha
  | take => exact matches_take htables h
  | software v => exact matches_software htables h ha.1 ha.2
  | finish => exact matches_finish h
  | register n handlerFn => exact matches_register h n handlerFn
  | mask irq => exact matches_mask htables h irq
  | unmask irq => exact matches_unmask htables h ha

/-! ## Runs -/

theorem sound_step (htables : Tables b os count) (h : Sound b os count s) {a : Act}
    (ha : a.Possible count) (hstep : b.step s a = some t) : Sound b os count t := by
  rcases matches_step htables h ha with ⟨hnone, -⟩ | ⟨u, hsome, hsound, -⟩
  · rw [hnone] at hstep
    cases hstep
  · obtain rfl := Option.some.inj (hsome.symm.trans hstep)
    exact hsound

theorem run_lines (htables : Tables b os count) (h : Sound b os count s) {acts : List Act}
    (hacts : ∀ a ∈ acts, a.Possible count) :
    (acts.foldlM b.step s).map (Irqs.lines count) = acts.foldlM (Lines.step os) (s.lines count) := by
  apply foldlM_seenAs (Sound b os count) _ _ hacts h
  · intro s a h ha
    rcases matches_step htables h ha with ⟨hnone, hlines⟩ | ⟨t, hsome, -, hlines⟩
    · rw [SeenAs, hnone, hlines]
      rfl
    · rw [SeenAs, hsome, hlines]
      rfl
  · intro s a t h ha hstep
    exact sound_step htables h ha hstep

theorem run_sound (htables : Tables b os count) (h : Sound b os count s) {acts : List Act}
    (hacts : ∀ a ∈ acts, a.Possible count) (hrun : acts.foldlM b.step s = some t) :
    Sound b os count t :=
  foldlM_invariant (Sound b os count) (fun _ _ _ h ha hstep => sound_step htables h ha hstep) hacts h hrun

end Twos.Isr
