import Twos.Driver.Serial

/-!
# Setting the serial port up

`serial_init` sends itself a byte through the chip and takes the chip for faulty unless the byte comes
back. The word length it has set by then is seven bits, so on a chip that honours it the test byte
never comes back whole, and the chip is left sending to itself.

The proof goes through the routine with one assertion for each of its stages, which every event keeps:
`Settled` while the registers are set, `Cleared` when the queues have been emptied, `Testing` when the
test byte has been written, and `Working` when it has come back. `wp_serialInit` is the whole of it,
with `wp_test` for the test. That the test can succeed on every chip of the kind `Make.Passes` is an
execution that is written down, in `getsTo_working`. `serialInit_outcome` has both.
-/

namespace Twos.Driver

open Lib

variable {m : Make} {d : SerialState} {t u : Uart}

/-! ## What the setting up leaves alone

While the registers are written, whatever was waiting in the chip may go out, and it is dropped when
the queues are cleared. No more bytes get onto the line than were waiting, which `Leftover` says.
-/

/-- What has gone over the line is what had, and something of what was waiting then. -/
structure Leftover (u t : Uart) : Prop where
  line : u.line <+: t.line
  length : t.line.length + t.thr.length ≤ u.line.length + u.thr.length

theorem Leftover.happen (h : Leftover u t) (e : Traffic) : Leftover u (t.happen m e) := by
  cases e with
  | arrive v =>
      show Leftover u (if t.looped then t else t.receive (m.frame t.lcr v))
      split
      · exact h
      · exact ⟨by rw [receive_line]; exact h.line, by rw [receive_line, receive_thr]; exact h.length⟩
  | transmit =>
      have hlength := h.length
      rw [Uart.happen]
      split
      · exact h
      · next v rest hthr =>
        rw [hthr, List.length_cons] at hlength
        split
        · exact ⟨by rw [receive_line]; exact h.line, by simp only [receive_line, receive_thr]; omega⟩
        · refine ⟨h.line.trans (List.prefix_append _ _), ?_⟩
          simp only [List.length_append, List.length_singleton]
          omega

/-- Writing to the same register of chips that are set the same leaves them set the same. -/
theorem Uart.Same.output {w : Uart} {port : Nat} (h : t.Same w)
    (hport : port ≠ SERIAL_PORT_COM1 ∨ w.dlab = true) (v : Byte) :
    (t.output port v).Same (w.output port v) := by
  obtain ⟨hier, hlcr, hmcr, hdll, hdlm, hfifo, hlost, hconsole⟩ := h
  have hdlab : t.dlab = w.dlab := by rw [Uart.dlab, Uart.dlab, hlcr]
  unfold Uart.output
  rw [hdlab]
  split
  · next hdata =>
    have hset : w.dlab = true := hport.resolve_left (fun h => h hdata)
    rw [hset, if_pos rfl, if_pos rfl]
    exact ⟨hier, hlcr, hmcr, rfl, hdlm, hfifo, hlost, hconsole⟩
  split
  · split
    · exact ⟨hier, hlcr, hmcr, hdll, rfl, hfifo, hlost, hconsole⟩
    · exact ⟨rfl, hlcr, hmcr, hdll, hdlm, hfifo, hlost, hconsole⟩
  split
  · exact ⟨hier, hlcr, hmcr, hdll, hdlm, rfl, hlost, hconsole⟩
  split
  · exact ⟨hier, rfl, hmcr, hdll, hdlm, hfifo, hlost, hconsole⟩
  split
  · exact ⟨hier, hlcr, rfl, hdll, hdlm, hfifo, hlost, hconsole⟩
  split
  · exact ⟨hier, hlcr, hmcr, hdll, hdlm, hfifo, hlost, by rw [hconsole]⟩
  · exact ⟨hier, hlcr, hmcr, hdll, hdlm, hfifo, hlost, hconsole⟩

theorem Leftover.output {port : Nat} (h : Leftover u t)
    (hport : port ≠ SERIAL_PORT_COM1 ∨ t.dlab = true) (v : Byte) : Leftover u (t.output port v) := by
  have hlength := h.length
  unfold Uart.output
  -- at the data port: with `dlab` set this is the divisor, and otherwise it is excluded
  split
  · next hdata =>
    rw [hport.resolve_left (fun h => h hdata), if_pos rfl]
    exact ⟨h.line, hlength⟩
  split
  · split <;> exact ⟨h.line, hlength⟩
  split
  · -- the control of the queues may empty them
    refine ⟨h.line, ?_⟩
    have hqueue : (t.control v).thr.length ≤ t.thr.length := by
      rw [Uart.control]
      dsimp only
      split
      · exact Nat.zero_le _
      · exact Nat.le_refl _
    show t.line.length + (t.control v).thr.length ≤ _
    omega
  split
  · exact ⟨h.line, hlength⟩
  split
  · exact ⟨h.line, hlength⟩
  split
  · exact ⟨h.line, hlength⟩
  · exact h

/-- A chip that is set like `w`, with nothing but what was left from `u` on the line. -/
def Settled (u w t : Uart) : Prop := t.Same w ∧ Leftover u t

theorem Settled.stable (u w : Uart) : Stable (uart m) (Settled u w) :=
  fun e t h => ⟨(same_happen t e).trans h.1, h.2.happen e⟩

/-- A write to a register, as one step of setting the chip up. -/
theorem wp_settle {A : Uart → Prop} {w : Uart} {port : Nat} {v : Byte} {α : Type}
    {next : Prog Nat Byte α} {Q : α → Uart → Prop} (hA : ∀ t, Leftover u t → A t)
    (hport : port ≠ SERIAL_PORT_COM1 ∨ w.dlab = true)
    (hnext : ∀ t, Settled u (w.output port v) t → wp (uart m) A next Q t) (h : Settled u w t) :
    wp (uart m) A (.outb port v next) Q t := by
  refine wp_outb (Settled.stable u w) (fun t ht => hA t ht.2) (fun t ht => hnext _ ?_) h
  have hdlab : t.dlab = w.dlab := by rw [Uart.dlab, Uart.dlab, ht.1.lcr]
  exact ⟨ht.1.output hport v, ht.2.output (hdlab ▸ hport) v⟩

/-! ## The test

Between writing the test byte and reading one back the chip sends to itself, and whatever has come in
is framed with the word length that has been set. `InitEnd` has the two ways to end, and
`getsTo_working` is an order of events in which the test succeeds, for the makes on which it can.
-/

/-- What `serial_init` sets the chip to, apart from the modem control register. -/
def Uart.programmed (u : Uart) (mcr : Byte) : Uart :=
  { u with
    ier := if u.dlab then u.ier else 0
    lcr := 0x02
    mcr
    dll := 0x01
    dlm := 0x00
    fifo := true }

theorem dlab_of_programmed {mcr : Byte} (h : t.Same (u.programmed mcr)) : t.dlab = false := by
  rw [Uart.dlab, h.lcr]
  show (0x02 : Byte).getLsbD 7 = false
  decide

theorem looped_of_programmed {mcr : Byte} (h : t.Same (u.programmed mcr)) :
    t.looped = mcr.getLsbD 4 := by
  rw [Uart.looped, h.mcr]
  rfl

/-- Whatever comes in has been framed with the word length that is set. -/
def Framed (m : Make) (t : Uart) : Prop := ∀ v ∈ t.rbr, ∃ b, v = m.frame 0x02 b

theorem Framed.receive (h : Framed m t) (hv : ∃ b, v = m.frame 0x02 b) : Framed m (t.receive v) := by
  unfold Uart.receive
  split
  · intro x hx
    rcases List.mem_append.mp hx with hx | hx
    · exact h x hx
    · rw [List.mem_singleton.mp hx]
      exact hv
  · exact h

theorem Framed.happen (h : Framed m t) (hlcr : t.lcr = 0x02) (e : Traffic) :
    Framed m (t.happen m e) := by
  cases e with
  | arrive v =>
      show Framed m (if t.looped then t else t.receive (m.frame t.lcr v))
      split
      · exact h
      · exact h.receive ⟨v, by rw [hlcr]⟩
  | transmit =>
      rw [Uart.happen]
      split
      · exact h
      · next v rest hthr =>
        split
        · exact Framed.receive (t := { t with thr := rest }) h ⟨v, by rw [hlcr]⟩
        · exact h

/-- The chip before the test byte is written: set, with nothing to send. -/
structure Cleared (m : Make) (u : Uart) (mcr : Byte) (t : Uart) : Prop where
  same : t.Same (u.programmed mcr)
  leftover : Leftover u t
  empty : t.thr = []
  framed : Framed m t

theorem Cleared.stable (u : Uart) (mcr : Byte) : Stable (uart m) (Cleared m u mcr) :=
  fun e t h => ⟨(same_happen t e).trans h.same, h.leftover.happen e, thr_happen_nil h.empty e,
    h.framed.happen h.same.lcr e⟩

/-- The chip from when the test byte is written on: it sends to itself. -/
structure Testing (m : Make) (u t : Uart) : Prop where
  same : t.Same (u.programmed 0x1E)
  line : u.line <+: t.line
  length : t.line.length ≤ u.line.length + u.thr.length
  byte : t.thr = [] ∨ t.thr = [0xAE]
  framed : Framed m t

theorem Testing.looped (h : Testing m u t) : t.looped = true := by
  rw [looped_of_programmed h.same]
  decide

/-- A chip that sends to itself sends nothing else. -/
theorem line_happen_looped (h : t.looped = true) (e : Traffic) : (t.happen m e).line = t.line := by
  cases e with
  | arrive v =>
      show (if t.looped then t else t.receive (m.frame t.lcr v)).line = t.line
      rw [if_pos h]
  | transmit =>
      rw [Uart.happen]
      split
      · rfl
      · rw [if_pos h, receive_line]

theorem thr_happen_single {v : Byte} (h : t.thr = [v]) (e : Traffic) :
    (t.happen m e).thr = [] ∨ (t.happen m e).thr = [v] := by
  cases e with
  | arrive w =>
      right
      show (if t.looped then t else t.receive (m.frame t.lcr w)).thr = [v]
      split
      · exact h
      · rw [receive_thr, h]
  | transmit =>
      left
      rw [Uart.happen, h]
      dsimp only
      split
      · rw [receive_thr]
      · rfl

theorem Testing.stable (m : Make) (u : Uart) : Stable (uart m) (Testing m u) := by
  intro e t h
  have hline : (t.happen m e).line = t.line := line_happen_looped h.looped e
  refine ⟨(same_happen t e).trans h.same, ?_, ?_, ?_, h.framed.happen h.same.lcr e⟩
  · show u.line <+: (t.happen m e).line
    rw [hline]
    exact h.line
  · show (t.happen m e).line.length ≤ _
    rw [hline]
    exact h.length
  · rcases h.byte with hempty | hbyte
    · exact .inl (thr_happen_nil hempty e)
    · exact thr_happen_single hbyte e

/-- The chip once it has been found to work: the test byte may still go out on the line. -/
structure Working (m : Make) (u t : Uart) : Prop where
  same : t.Same (u.programmed 0x0F)
  sent : ∃ line test, u.line <+: line ∧ line.length ≤ u.line.length + u.thr.length ∧
    (test = [] ∨ test = [0xAE]) ∧ t.sent m = line ++ test.map (m.frame 0x02)

theorem Working.opened (h : Working m u t) : t.Open := by
  refine ⟨dlab_of_programmed h.same, ?_⟩
  rw [looped_of_programmed h.same]
  decide

theorem Working.stable (m : Make) (u : Uart) : Stable (uart m) (Working m u) := by
  intro e t h
  refine ⟨(same_happen t e).trans h.same, ?_⟩
  show ∃ line test, _ ∧ _ ∧ _ ∧ (t.happen m e).sent m = _
  rw [sent_happen h.opened.looped e]
  exact h.sent

/-- The test byte can be read back: an empty receiver reads as it, or some byte comes in as it. -/
def Make.Passes (m : Make) : Prop := m.quiet = 0xAE ∨ ∃ b, m.frame 0x02 b = 0xAE

/-- What is read behind the test. -/
theorem passes_of_read (h : Testing m u t) (hread : t.rbr.headD m.quiet = 0xAE) : m.Passes := by
  cases hrbr : t.rbr with
  | nil =>
      rw [hrbr] at hread
      exact .inl hread
  | cons v rest =>
      rw [hrbr] at hread
      obtain ⟨b, hb⟩ := h.framed v (by rw [hrbr]; exact List.mem_cons_self)
      exact .inr ⟨b, by rw [← hb]; exact hread⟩

/-- How `serial_init` ends: the chip works, or it is left as it was for the test. -/
def InitEnd (m : Make) (d : SerialState) (u : Uart) (r : SerialState × Nat) (t : Uart) : Prop :=
  (r = (⟨true, d.useE9⟩, 1) ∧ Testing m u t) ∨ (r = (⟨true, false⟩, 0) ∧ Working m u t ∧ m.Passes)

theorem modem_ne : SERIAL_PORT_COM1 + 4 ≠ SERIAL_PORT_COM1 := by decide

/-- The last two writes before the test. -/
theorem wp_cleared {A : Uart → Prop} {mcr mcr' : Byte} {α : Type} {next : Prog Nat Byte α}
    {Q : α → Uart → Prop} (hA : ∀ t, Leftover u t → A t)
    (hnext : ∀ t, Cleared m u mcr' t → wp (uart m) A next Q t) (h : Cleared m u mcr t) :
    wp (uart m) A (.outb (SERIAL_PORT_COM1 + 4) mcr' next) Q t := by
  refine wp_outb (Cleared.stable u mcr) (fun t ht => hA t ht.leftover) (fun t ht => hnext _ ?_) h
  have hsame := ht.same.output (.inl modem_ne) mcr'
  have hleftover := ht.leftover.output (.inl modem_ne) mcr'
  exact ⟨hsame, hleftover, ht.empty, ht.framed⟩

/-- The test, on a chip that has been set. -/
theorem wp_test {A : Uart → Prop} (hA : ∀ t, Leftover u t → A t) (hT : ∀ t, Testing m u t → A t)
    (hW : m.Passes → ∀ t, Working m u t → A t) (h : Cleared m u 0x1E t) :
    wp (uart m) A (do
      outb (SERIAL_PORT_COM1 + 0) 0xAE
      let v ← inb (SERIAL_PORT_COM1 + 0)
      if v ≠ 0xAE then pure ({ d with hasInit := true }, 1)
      else do
        outb (SERIAL_PORT_COM1 + 4) 0x0F
        pure (⟨true, false⟩, 0)) (InitEnd m d u) t := by
  refine wp_outb (Cleared.stable u 0x1E) (fun t ht => hA t ht.leftover) (fun t ht => ?_) h
  have hdlab : t.dlab = false := dlab_of_programmed ht.same
  have hlength := ht.leftover.length
  rw [ht.empty, List.length_nil] at hlength
  -- the test byte is the only one in the transmitter
  have hwritten : Testing m u ((uart m).output (SERIAL_PORT_COM1 + 0) 0xAE t) := by
    show Testing m u ((uart m).output SERIAL_PORT_COM1 0xAE t)
    rw [output_data hdlab, queue_of_nil ht.empty]
    have hsame : Uart.Same { t with thr := [0xAE] } t := ⟨rfl, rfl, rfl, rfl, rfl, rfl, rfl, rfl⟩
    exact ⟨hsame.trans ht.same, ht.leftover.line, hlength, .inr rfl, ht.framed⟩
  refine wp_inb (Testing.stable m u) hT (fun t ht => ?_) hwritten
  have hdlab : t.dlab = false := dlab_of_programmed ht.same
  have hinput : (uart m).input (SERIAL_PORT_COM1 + 0) t =
      (t.rbr.headD m.quiet, { t with rbr := t.rbr.tail }) := by
    simp [uart, Uart.input, hdlab]
  rw [hinput]
  have hread : Testing m u { t with rbr := t.rbr.tail } := by
    have hsame : Uart.Same { t with rbr := t.rbr.tail } t := ⟨rfl, rfl, rfl, rfl, rfl, rfl, rfl, rfl⟩
    exact ⟨hsame.trans ht.same, ht.line, ht.length, ht.byte,
      fun v hv => ht.framed v (List.mem_of_mem_tail hv)⟩
  show wp (uart m) A (if t.rbr.headD m.quiet ≠ 0xAE then _ else _) _ _
  split
  · -- something else comes back, and the chip stays as it is
    exact wp_ret (Testing.stable m u) hT (fun t ht => .inl ⟨rfl, ht⟩) hread
  · next hsame =>
    have hpasses : m.Passes := passes_of_read ht (Decidable.not_not.mp hsame)
    -- the test byte comes back, so the chip can frame a byte to it
    refine wp_outb (Testing.stable m u) hT (fun t ht => ?_) hread
    refine wp_ret (Working.stable m u) (hW hpasses) (fun t ht => .inr ⟨rfl, ht, hpasses⟩) ?_
    have hregs := ht.same.output (.inl modem_ne) 0x0F
    refine ⟨hregs, t.line, t.thr, ht.line, ht.length, ht.byte, ?_⟩
    show t.line ++ t.thr.map (m.frame t.lcr) = _
    rw [ht.same.lcr]
    rfl

/-- The chip after the first six writes, the last of which clears the queues. -/
def Uart.cleared (u : Uart) : Uart :=
  Uart.control (((((u.output (SERIAL_PORT_COM1 + 1) 0x00).output (SERIAL_PORT_COM1 + 3) 0x80).output
    (SERIAL_PORT_COM1 + 0) 0x01).output (SERIAL_PORT_COM1 + 1) 0x00).output
    (SERIAL_PORT_COM1 + 3) 0x02) 0xC7

/-- What these writes come to, whether or not the divisor was selected before. -/
theorem same_programmed (u : Uart) : u.cleared.Same (u.programmed u.mcr) := by
  unfold Uart.cleared
  by_cases hdlab : u.lcr[7] = true
  · constructor <;> simp [Uart.output, Uart.control, Uart.programmed, Uart.dlab, hdlab]
  · constructor <;> simp [Uart.output, Uart.control, Uart.programmed, Uart.dlab, hdlab]

/-- `serial_init` on any chip, whatever it has been set to and whatever waits in it. -/
theorem wp_serialInit {A : Uart → Prop} (hinit : d.hasInit = false)
    (hA : ∀ t, Leftover u t → A t) (hT : ∀ t, Testing m u t → A t)
    (hW : m.Passes → ∀ t, Working m u t → A t) :
    wp (uart m) A (serialInit d) (InitEnd m d u) u := by
  have hstart : Settled u u u :=
    ⟨⟨rfl, rfl, rfl, rfl, rfl, rfl, rfl, rfl⟩, List.prefix_refl _, Nat.le_refl _⟩
  have hdlab : ((u.output (SERIAL_PORT_COM1 + 1) 0x00).output (SERIAL_PORT_COM1 + 3) 0x80).dlab =
      true := by
    show (0x80 : Byte).getLsbD 7 = true
    decide
  rw [serialInit, if_neg (by simp [hinit])]
  -- the interrupts are turned off, unless the first two registers are the divisor
  refine wp_settle hA (.inl (by decide)) (fun t ht => ?_) hstart
  refine wp_settle hA (.inl (by decide)) (fun t ht => ?_) ht
  refine wp_settle hA (.inr hdlab) (fun t ht => ?_) ht
  refine wp_settle hA (.inl (by decide)) (fun t ht => ?_) ht
  refine wp_settle hA (.inl (by decide)) (fun t ht => ?_) ht
  refine wp_outb (Settled.stable u _) (fun t ht => hA t ht.2) (fun t ht => ?_) ht
  -- the queues are empty from here on
  have hcleared : Cleared m u u.mcr ((uart m).output (SERIAL_PORT_COM1 + 2) 0xC7 t) := by
    have hne : SERIAL_PORT_COM1 + 2 ≠ SERIAL_PORT_COM1 := by decide
    have hset := ht.1.output (.inl hne) 0xC7
    have hleftover := ht.2.output (.inl hne) 0xC7
    refine ⟨hset.trans ?_, hleftover, rfl, fun v hv => ?_⟩
    · exact same_programmed u
    · cases hv
  exact wp_cleared hA (fun t ht => wp_cleared hA (fun t ht => wp_test hA hT hW ht) ht) hcleared

/-- Reading the test byte back, if that is what is read. -/
theorem getsTo_test (hdlab : t.dlab = false) (hthr : t.thr = [])
    (hread : t.rbr.headD m.quiet = 0xAE) :
    ∃ t', GetsTo (uart m) (do
      outb (SERIAL_PORT_COM1 + 0) 0xAE
      let v ← inb (SERIAL_PORT_COM1 + 0)
      if v ≠ 0xAE then pure ({ d with hasInit := true }, 1)
      else do
        outb (SERIAL_PORT_COM1 + 4) 0x0F
        pure (⟨true, false⟩, 0)) t (.ret (⟨true, false⟩, 0)) t' := by
  have hwrite : (uart m).output (SERIAL_PORT_COM1 + 0) 0xAE t = { t with thr := [0xAE] } :=
    (output_data hdlab 0xAE).trans (queue_of_nil hthr 0xAE)
  have hinput : (uart m).input (SERIAL_PORT_COM1 + 0) { t with thr := [0xAE] } =
      (0xAE, { t with thr := [0xAE], rbr := t.rbr.tail }) := by
    have hdlab' : Uart.dlab { t with thr := [0xAE] } = false := hdlab
    simp only [uart, Uart.input, hdlab', hread]
    rfl
  refine ⟨{ t with thr := [0xAE], rbr := t.rbr.tail, mcr := 0x0F }, .outb ?_⟩
  rw [hwrite]
  refine .inb ?_
  rw [hinput]
  exact .outb (.refl _ _)

theorem happen_arrive (hloop : t.looped = false) (hrbr : t.rbr = []) (v : Byte) :
    t.happen m (.arrive v) = { t with rbr := [m.frame t.lcr v] } := by
  have hroom : t.rbr.length < t.depth := by
    rw [hrbr, Uart.depth]
    split <;> simp
  rw [Uart.happen, hloop, if_neg Bool.false_ne_true, Uart.receive, if_pos hroom, hrbr, List.nil_append]

/-- The test succeeds in some order of events if it can: where a byte that reads as the test byte comes
in before the chip sends to itself. -/
theorem getsTo_working (hinit : d.hasInit = false) (h : m.Passes) (u : Uart) :
    ∃ t, GetsTo (uart m) (serialInit d) u (.ret (⟨true, false⟩, 0)) t := by
  rw [serialInit, if_neg (by simp [hinit])]
  have hdlab (t : Uart) (h : t.lcr = 0x02) : t.dlab = false := by
    rw [Uart.dlab, h]
    decide
  rcases h with hquiet | ⟨b, hb⟩
  · obtain ⟨t, hend⟩ := getsTo_test (m := m) (d := d) (t := { u.cleared with mcr := 0x1E })
      (hdlab _ rfl) rfl hquiet
    exact ⟨t, .outb (.outb (.outb (.outb (.outb (.outb (.outb (.outb hend)))))))⟩
  · -- the byte arrives between the two writes to the modem control register
    have hopen : Uart.looped { u.cleared with mcr := 0x0B } = false := by
      show (0x0B : Byte).getLsbD 4 = false
      decide
    obtain ⟨t, hend⟩ := getsTo_test (m := m) (d := d)
      (t := { u.cleared with mcr := 0x1E, rbr := [m.frame 0x02 b] }) (hdlab _ rfl) rfl hb
    refine ⟨t, .outb (.outb (.outb (.outb (.outb (.outb (.outb (.event (.arrive b) (.outb ?_))))))))⟩
    show GetsTo (uart m) _ (Uart.output (SERIAL_PORT_COM1 + 4) 0x1E
      (Uart.happen m { u.cleared with mcr := 0x0B } (.arrive b))) _ _
    rw [happen_arrive hopen rfl]
    exact hend

/-- In whatever order the chip sends and bytes arrive, `serial_init` ends with the chip found to work
and connected, or with the chip left sending to itself; and the former can happen exactly if the test
byte can be read back with the word length of seven bits that is set. -/
theorem serialInit_outcome (hinit : d.hasInit = false) (u : Uart) :
    (∀ r t, GetsTo (uart m) (serialInit d) u (.ret r) t → InitEnd m d u r t) ∧
      ((∃ r t, GetsTo (uart m) (serialInit d) u (.ret r) t ∧ r.2 = 0) ↔ m.Passes) := by
  have hproved : wp (uart m) (fun _ => True) (serialInit d) (InitEnd m d u) u :=
    wp_serialInit hinit (fun _ _ => trivial) (fun _ _ => trivial) (fun _ _ _ => trivial)
  refine ⟨fun r t hrun => wp_ends hproved hrun, ?_, ?_⟩
  · rintro ⟨r, t, hrun, hzero⟩
    rcases wp_ends hproved hrun with ⟨rfl, -⟩ | ⟨-, -, hpasses⟩
    · cases hzero
    · exact hpasses
  · intro hpasses
    obtain ⟨t, hrun⟩ := getsTo_working hinit hpasses u
    exact ⟨_, t, hrun, rfl⟩

/-- A chip as the data sheet has it: the low two bits of the line control register are the word
length, from five bits on. -/
def Make.dataSheet : Make :=
  ⟨fun lcr v => v &&& BitVec.allOnes 8 >>> (3 - lcr.toNat % 4), 0⟩

/-- A chip that sends all eight bits, as an emulator does. -/
def Make.emulated : Make := ⟨fun _ v => v, 0⟩

/-- The top bit of the test byte does not fit into seven bits. -/
theorem dataSheet_fails : ¬ Make.dataSheet.Passes := by
  rintro (hquiet | ⟨b, hb⟩)
  · exact absurd hquiet (by decide)
  · have htop := congrArg (fun v : Byte => v.getLsbD 7) hb
    simp [Make.dataSheet] at htop

theorem emulated_passes : Make.emulated.Passes := .inr ⟨0xAE, rfl⟩

/-- A chip that has been reset. -/
def Uart.reset : Uart := ⟨0, 0, 0, 0, 0, false, [], [], [], [], []⟩

/-- The chip of an emulator can pass, since it keeps all eight bits. -/
theorem serialInit_outcome_reset :
    (∀ r t, GetsTo (uart .emulated) (serialInit ⟨false, false⟩) .reset (.ret r) t →
        InitEnd .emulated ⟨false, false⟩ .reset r t) ∧
      ∃ r t, GetsTo (uart .emulated) (serialInit ⟨false, false⟩) .reset (.ret r) t ∧ r.2 = 0 := by
  obtain ⟨hends, hpasses⟩ := serialInit_outcome (m := .emulated) (d := ⟨false, false⟩) rfl .reset
  exact ⟨hends, hpasses.mpr emulated_passes⟩

end Twos.Driver
