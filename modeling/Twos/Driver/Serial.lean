import Twos.Lib.Memory
import Twos.Lib.Ports

/-!
# The serial port

`serialdriver.c`, against the chip that it programs. The chip goes on by itself between two accesses
of the driver: it sends what it was given, and bytes arrive from the other end. What comes out of the
driver is therefore said for every order in which this can happen.

The chip is a 16550. What of a byte goes over the line for a value of the line control register is
left open, as is what an empty receiver reads as: chips honour the word length, emulated ones mostly
do not.

`Handed` is what is known while a text is being printed: some part of it has been given to the chip,
and every byte of that is on the line or in the transmitter (`Uart.sent`), which no event changes
(`sent_happen`). `wp_serialWrite` adds a byte once the transmitter is empty, and `wp_serialPrint` goes
over the text. The driver waits in a loop, and the loop ends because the chip transmits
(`served_uart`, `polls_serialPrint`).
-/

namespace Twos.Driver

open Lib

/-! ## The chip

The registers that the driver touches, the two queues and the line. What the chip does by itself is
a list of events between any two accesses of the driver: a byte is sent, or one arrives.
-/

abbrev SERIAL_PORT_COM1 : Nat := 0x3f8

/-- What the makes of the chip differ in. -/
structure Make where
  frame : Byte → Byte → Byte
  quiet : Byte

/-- The registers, the bytes that wait to be sent and to be read, first first, what has gone over the
line, the bytes there was no room for, and what was written to the debug port of the emulator. -/
structure Uart where
  ier : Byte
  lcr : Byte
  mcr : Byte
  dll : Byte
  dlm : Byte
  fifo : Bool
  thr : List Byte
  rbr : List Byte
  line : List Byte
  lost : List Byte
  console : List Byte
  deriving DecidableEq

/-- Whether the first two registers are the divisor. -/
def Uart.dlab (u : Uart) : Bool := u.lcr.getLsbD 7

/-- Whether what is sent comes back in. -/
def Uart.looped (u : Uart) : Bool := u.mcr.getLsbD 4

def Uart.depth (u : Uart) : Nat := if u.fifo then 16 else 1

/-- A byte is written to be sent. -/
def Uart.queue (u : Uart) (v : Byte) : Uart :=
  if u.thr.length < u.depth then { u with thr := u.thr ++ [v] } else { u with lost := u.lost ++ [v] }

/-- A byte has come in. -/
def Uart.receive (u : Uart) (v : Byte) : Uart :=
  if u.rbr.length < u.depth then { u with rbr := u.rbr ++ [v] } else u

/-- The FIFO control register: the queues are cleared on request, and when they are turned on or
off. -/
def Uart.control (u : Uart) (v : Byte) : Uart :=
  { u with
    fifo := v.getLsbD 0
    rbr := if v.getLsbD 1 || v.getLsbD 0 != u.fifo then [] else u.rbr
    thr := if v.getLsbD 2 || v.getLsbD 0 != u.fifo then [] else u.thr }

/-- The line status register. -/
def Uart.status (u : Uart) : Byte :=
  (if u.rbr.isEmpty then 0 else 0x01) ||| (if u.thr.isEmpty then 0x60 else 0)

/-- What the chip does by itself: the byte that has waited longest is sent, or a byte arrives. -/
inductive Traffic where
  | transmit
  | arrive (v : Byte)
  deriving DecidableEq

variable (m : Make)

def Uart.happen (u : Uart) : Traffic → Uart
  | .transmit =>
      match u.thr with
      | [] => u
      | v :: rest =>
          if u.looped then Uart.receive { u with thr := rest } (m.frame u.lcr v)
          else { u with thr := rest, line := u.line ++ [m.frame u.lcr v] }
  | .arrive v => if u.looped then u else u.receive (m.frame u.lcr v)

/-- The registers that the driver reads; the others read as an open bus does. -/
def Uart.input (port : Nat) (u : Uart) : Byte × Uart :=
  if port = SERIAL_PORT_COM1 then
    if u.dlab then (u.dll, u) else (u.rbr.headD m.quiet, { u with rbr := u.rbr.tail })
  else if port = SERIAL_PORT_COM1 + 5 then (u.status, u)
  else (0xff, u)

def Uart.output (port : Nat) (v : Byte) (u : Uart) : Uart :=
  if port = SERIAL_PORT_COM1 then if u.dlab then { u with dll := v } else u.queue v
  else if port = SERIAL_PORT_COM1 + 1 then
    if u.dlab then { u with dlm := v } else { u with ier := v }
  else if port = SERIAL_PORT_COM1 + 2 then u.control v
  else if port = SERIAL_PORT_COM1 + 3 then { u with lcr := v }
  else if port = SERIAL_PORT_COM1 + 4 then { u with mcr := v }
  else if port = 0xe9 then { u with console := u.console ++ [v] }
  else u

def uart : Chip Nat Byte Uart Traffic := ⟨Uart.input m, Uart.output, fun e u => u.happen m e⟩

/-! ## The driver -/

/-- `serial__has_init` and `use_e9`. -/
structure SerialState where
  hasInit : Bool
  useE9 : Bool
  deriving DecidableEq

/-- `serial_init`, with what it returns. -/
def serialInit (d : SerialState) : Prog Nat Byte (SerialState × Nat) :=
  if d.hasInit then pure (d, 0)
  else do
    outb (SERIAL_PORT_COM1 + 1) 0x00
    outb (SERIAL_PORT_COM1 + 3) 0x80
    outb (SERIAL_PORT_COM1 + 0) 0x01
    outb (SERIAL_PORT_COM1 + 1) 0x00
    outb (SERIAL_PORT_COM1 + 3) 0x02
    outb (SERIAL_PORT_COM1 + 2) 0xC7
    outb (SERIAL_PORT_COM1 + 4) 0x0B
    outb (SERIAL_PORT_COM1 + 4) 0x1E
    outb (SERIAL_PORT_COM1 + 0) 0xAE
    let v ← inb (SERIAL_PORT_COM1 + 0)
    if v ≠ 0xAE then pure ({ d with hasInit := true }, 1)
    else do
      outb (SERIAL_PORT_COM1 + 4) 0x0F
      pure (⟨true, false⟩, 0)

/-- `is_transmit_empty`, of what was read from the line status register. -/
def isTransmitEmpty (status : Byte) : Byte := status &&& 0x20

/-- `serial_write`. -/
def serialWrite (a : Byte) : Prog Nat Byte Unit := do
  poll (SERIAL_PORT_COM1 + 5) fun status => decide (isTransmitEmpty status ≠ 0)
  outb SERIAL_PORT_COM1 a

/-- `_port_e9_hack_out`. -/
def portE9HackOut (c : Byte) : Prog Nat Byte Unit := outb 0xe9 c

/-- `for(int c = 0; str[c] != 0; ++c)`. A string is its characters without the NUL. -/
def forEach (write : Byte → Prog Nat Byte Unit) : List Byte → Prog Nat Byte Unit
  | [] => pure ()
  | c :: str => do
      write c
      forEach write str

/-- `serial_print`. -/
def serialPrint (d : SerialState) (str : List Byte) : Prog Nat Byte Unit :=
  if d.hasInit then forEach (if d.useE9 then portE9HackOut else serialWrite) str else pure ()

/-- `serial_println`. -/
def serialPrintln (d : SerialState) (str : List Byte) : Prog Nat Byte Unit := do
  serialPrint d str
  serialPrint d [10]

/-- `serial_set_e9`. -/
def serialSetE9 (d : SerialState) : SerialState := { d with useE9 := true }

/-! ## What the chip does by itself

The registers are the driver's alone, and a byte that is sent only moves from the queue to the line.
So `Uart.sent`, the line as it will be once nothing waits, is the same before and after every event.
-/

/-- What will have gone over the line once nothing waits any more. -/
def Uart.sent (u : Uart) : List Byte := u.line ++ u.thr.map (m.frame u.lcr)

/-- Everything but the queues and the line. -/
structure Uart.Same (t u : Uart) : Prop where
  ier : t.ier = u.ier
  lcr : t.lcr = u.lcr
  mcr : t.mcr = u.mcr
  dll : t.dll = u.dll
  dlm : t.dlm = u.dlm
  fifo : t.fifo = u.fifo
  lost : t.lost = u.lost
  console : t.console = u.console

variable {m} {t u : Uart}

theorem Uart.Same.trans {v : Uart} (h : t.Same u) (h' : u.Same v) : t.Same v :=
  ⟨h.ier.trans h'.ier, h.lcr.trans h'.lcr, h.mcr.trans h'.mcr, h.dll.trans h'.dll,
    h.dlm.trans h'.dlm, h.fifo.trans h'.fifo, h.lost.trans h'.lost, h.console.trans h'.console⟩

theorem same_receive (u : Uart) (v : Byte) : (u.receive v).Same u := by
  unfold Uart.receive
  split
  · exact ⟨rfl, rfl, rfl, rfl, rfl, rfl, rfl, rfl⟩
  · exact ⟨rfl, rfl, rfl, rfl, rfl, rfl, rfl, rfl⟩

@[simp] theorem receive_thr (u : Uart) (v : Byte) : (u.receive v).thr = u.thr := by
  unfold Uart.receive
  split <;> rfl

@[simp] theorem receive_line (u : Uart) (v : Byte) : (u.receive v).line = u.line := by
  unfold Uart.receive
  split <;> rfl

/-- The registers are the driver's alone. -/
theorem same_happen (u : Uart) (e : Traffic) : (u.happen m e).Same u := by
  cases e with
  | arrive v =>
      show (if u.looped then u else u.receive (m.frame u.lcr v)).Same u
      split
      · exact ⟨rfl, rfl, rfl, rfl, rfl, rfl, rfl, rfl⟩
      · exact same_receive u _
  | transmit =>
      rw [Uart.happen]
      split
      · exact ⟨rfl, rfl, rfl, rfl, rfl, rfl, rfl, rfl⟩
      · next v rest hthr =>
        split
        · exact (same_receive _ _).trans ⟨rfl, rfl, rfl, rfl, rfl, rfl, rfl, rfl⟩
        · exact ⟨rfl, rfl, rfl, rfl, rfl, rfl, rfl, rfl⟩

/-- Nothing is queued but by the driver. -/
theorem thr_happen_nil (h : u.thr = []) (e : Traffic) : (u.happen m e).thr = [] := by
  cases e with
  | arrive v =>
      show (if u.looped then u else u.receive (m.frame u.lcr v)).thr = []
      split
      · exact h
      · rw [receive_thr, h]
  | transmit =>
      rw [Uart.happen, h]
      exact h

/-- Sending a byte moves it from the queue to the line. -/
theorem sent_happen (hloop : u.looped = false) (e : Traffic) : (u.happen m e).sent m = u.sent m := by
  cases e with
  | arrive v =>
      have hevent : u.happen m (.arrive v) = u.receive (m.frame u.lcr v) := if_neg (by simp [hloop])
      rw [hevent, Uart.sent, receive_line, receive_thr, (same_receive u _).lcr, Uart.sent]
  | transmit =>
      rw [Uart.happen]
      split
      · rfl
      · next v rest hthr =>
        rw [if_neg (by simp [hloop])]
        simp [Uart.sent, hthr]

/-! ## Printing

A character is written only after the status has said that the transmitter is empty, so it is queued
behind nothing. `Handed` is kept by every event, and the loop over the string appends to it.
-/

/-- What a text comes to on the line. -/
def Uart.carried (d : SerialState) (u : Uart) (m : Make) (text : List Byte) : List Byte :=
  if d.useE9 then [] else text.map (m.frame u.lcr)

/-- `u`, after `text` has been handed over and possibly sent. -/
structure Handed (m : Make) (d : SerialState) (u : Uart) (text : List Byte) (t : Uart) : Prop where
  lcr : t.lcr = u.lcr
  mcr : t.mcr = u.mcr
  lost : t.lost = u.lost
  sent : t.sent m = u.sent m ++ u.carried d m text
  console : t.console = u.console ++ if d.useE9 then text else []

/-- The chip is set to send, and not to itself. -/
structure Uart.Open (u : Uart) : Prop where
  dlab : u.dlab = false
  looped : u.looped = false

variable {d : SerialState} {text str : List Byte}

theorem Handed.refl (u : Uart) : Handed m d u [] u :=
  ⟨rfl, rfl, rfl, by simp [Uart.carried], by simp⟩

theorem Handed.opened (hu : u.Open) (h : Handed m d u text t) : t.Open := by
  constructor
  · rw [Uart.dlab, h.lcr]
    exact hu.dlab
  · rw [Uart.looped, h.mcr]
    exact hu.looped

theorem Handed.stable (hu : u.Open) (text : List Byte) : Stable (uart m) (Handed m d u text) := by
  intro e t h
  have hsame := same_happen (m := m) t e
  exact ⟨hsame.lcr.trans h.lcr, hsame.mcr.trans h.mcr, hsame.lost.trans h.lost,
    (sent_happen (h.opened hu).looped e).trans h.sent, hsame.console.trans h.console⟩

theorem transmitEmpty_iff (u : Uart) : isTransmitEmpty u.status ≠ 0 ↔ u.thr = [] := by
  rw [← List.isEmpty_iff, Uart.status]
  cases u.rbr.isEmpty <;> cases u.thr.isEmpty <;> simp [isTransmitEmpty]

/-- There is room for a byte where nothing waits. -/
theorem queue_of_nil (h : u.thr = []) (v : Byte) : u.queue v = { u with thr := [v] } := by
  have hroom : u.thr.length < u.depth := by
    rw [h, Uart.depth]
    split <;> simp
  rw [Uart.queue, if_pos hroom, h, List.nil_append]

theorem output_data (hdlab : u.dlab = false) (v : Byte) :
    (uart m).output SERIAL_PORT_COM1 v u = u.queue v := by
  simp [uart, Uart.output, hdlab]

section Printing

variable {A : Uart → Prop} {c : Byte}

/-- A character is handed over when nothing waits any more, and therefore not lost. -/
theorem wp_serialWrite (hu : u.Open) (he9 : d.useE9 = false)
    (hA : ∀ t, Handed m d u text t → A t) (hA' : ∀ t, Handed m d u (text ++ [c]) t → A t)
    (h : Handed m d u text t) :
    wp (uart m) A (serialWrite c) (fun _ => Handed m d u (text ++ [c])) t := by
  refine wp_poll (Handed.stable hu text) (fun t ht _ => ht) hA ?_ h
  intro t ht hready
  have hempty : t.thr = [] := (transmitEmpty_iff t).mp (of_decide_eq_true hready)
  -- bytes may arrive before the character is written, but none can be queued
  refine wp_outb (P := fun t => Handed m d u text t ∧ t.thr = []) ?_ (fun t ht => hA t ht.1) ?_
    ⟨ht, hempty⟩
  · exact fun e t ht => ⟨Handed.stable hu text e t ht.1, thr_happen_nil ht.2 e⟩
  · rintro t ⟨ht, hempty⟩
    refine wp_ret (Handed.stable hu _) hA' (fun t ht => ht) ?_
    rw [output_data (ht.opened hu).dlab, queue_of_nil hempty]
    have hsent := ht.sent
    refine ⟨ht.lcr, ht.mcr, ht.lost, ?_, ?_⟩
    · simp only [Uart.sent, hempty, List.map_nil, List.append_nil] at hsent
      simp [Uart.sent, Uart.carried, he9, hsent, ht.lcr]
    · simpa [he9] using ht.console

/-- So is one for the debug port. -/
theorem wp_portE9HackOut (hu : u.Open) (he9 : d.useE9 = true)
    (hA : ∀ t, Handed m d u text t → A t) (hA' : ∀ t, Handed m d u (text ++ [c]) t → A t)
    (h : Handed m d u text t) :
    wp (uart m) A (portE9HackOut c) (fun _ => Handed m d u (text ++ [c])) t := by
  refine wp_outb (Handed.stable hu text) hA ?_ h
  intro t ht
  refine wp_ret (Handed.stable hu _) hA' (fun t ht => ht) ?_
  show Handed m d u (text ++ [c]) { t with console := t.console ++ [c] }
  refine ⟨ht.lcr, ht.mcr, ht.lost, ?_, ?_⟩
  · show t.sent m = _
    simpa [Uart.carried, he9] using ht.sent
  · simp [ht.console, he9]

/-- A string, character by character, behind what has been handed over already. -/
theorem wp_forEach (hu : u.Open) (hA : ∀ done, done <+: text ++ str → ∀ t, Handed m d u done t → A t)
    (h : Handed m d u text t) :
    wp (uart m) A (forEach (if d.useE9 then portE9HackOut else serialWrite) str)
      (fun _ => Handed m d u (text ++ str)) t := by
  induction str generalizing text t with
  | nil =>
      rw [List.append_nil] at hA ⊢
      exact wp_ret (Handed.stable hu text) (hA text (List.prefix_refl text)) (fun t ht => ht) h
  | cons c str ih =>
      have hsplit : text ++ c :: str = text ++ [c] ++ str := by simp
      have hbefore := hA text (List.prefix_append text _)
      have hafter := hA (text ++ [c]) (by rw [hsplit]; exact List.prefix_append _ str)
      refine wp_bind (wp_imp (Q := fun _ => Handed m d u (text ++ [c])) ?_ ?_)
      · cases he9 : d.useE9 with
        | false => exact wp_serialWrite hu he9 hbefore hafter h
        | true => exact wp_portE9HackOut hu he9 hbefore hafter h
      · intro _ t ht
        rw [hsplit]
        exact ih (hsplit ▸ hA) ht

/-- `serial_print` hands over its string, and at any time a beginning of it. -/
theorem wp_serialPrint (hu : u.Open) (hinit : d.hasInit = true)
    (hA : ∀ done, done <+: text ++ str → ∀ t, Handed m d u done t → A t)
    (h : Handed m d u text t) :
    wp (uart m) A (serialPrint d str) (fun _ => Handed m d u (text ++ str)) t := by
  rw [serialPrint, if_pos hinit]
  exact wp_forEach hu hA h

theorem wp_serialPrintln (hu : u.Open) (hinit : d.hasInit = true)
    (hA : ∀ done, done <+: text ++ (str ++ [10]) → ∀ t, Handed m d u done t → A t)
    (h : Handed m d u text t) :
    wp (uart m) A (serialPrintln d str) (fun _ => Handed m d u (text ++ (str ++ [10]))) t := by
  rw [← List.append_assoc] at hA ⊢
  refine wp_bind (wp_imp (wp_serialPrint hu hinit ?_ h) ?_)
  · exact fun done hdone => hA done (hdone.trans (List.prefix_append _ _))
  · exact fun _ t ht => wp_serialPrint hu hinit hA ht

end Printing

/-! ## Ending -/

/-- The polling loop of `serial_write` is served by a chip that sends. -/
theorem served_uart (m : Make) : Served (uart m) Traffic.transmit (fun u => u.thr.length)
    (SERIAL_PORT_COM1 + 5) (fun status => decide (isTransmitEmpty status ≠ 0)) where
  event e u := by
    cases e with
    | arrive v =>
        show (if u.looped then u else u.receive (m.frame u.lcr v)).thr.length ≤ _
        split
        · exact Nat.le_refl _
        · rw [receive_thr]
    | transmit =>
        show (u.happen m .transmit).thr.length ≤ _
        rw [Uart.happen]
        split
        · exact Nat.le_refl _
        · next v rest hthr => split <;> simp [hthr]
  brings u hpos := by
    show (u.happen m .transmit).thr.length < _
    rw [Uart.happen]
    split
    · next hthr => simp [hthr] at hpos
    · next v rest hthr => split <;> simp [hthr]
  read u := Nat.le_refl _
  ready u hzero := by
    have hempty : u.thr = [] := List.eq_nil_of_length_eq_zero hzero
    exact decide_eq_true ((transmitEmpty_iff u).mpr hempty)

/-- The polling loops that a chip serves as long as it goes on sending. -/
def Serves (m : Make) (port : Nat) (ready : Byte → Bool) : Prop :=
  ∃ μ, Served (uart m) Traffic.transmit μ port ready

theorem polls_forEach {write : Byte → Prog Nat Byte Unit} (h : ∀ c, (write c).Polls (Serves m))
    (str : List Byte) : (forEach write str).Polls (Serves m) := by
  induction str with
  | nil => exact trivial
  | cons c str ih => exact (h c).bind fun _ => ih

theorem polls_serialPrint (m : Make) (d : SerialState) (str : List Byte) :
    (serialPrint d str).Polls (Serves m) := by
  unfold serialPrint
  split
  · refine polls_forEach (fun c => ?_) str
    split
    · exact trivial
    · exact ⟨⟨_, served_uart m⟩, trivial⟩
  · exact trivial

theorem polls_serialPrintln (m : Make) (d : SerialState) (str : List Byte) :
    (serialPrintln d str).Polls (Serves m) :=
  (polls_serialPrint m d str).bind fun _ => polls_serialPrint m d [10]

end Twos.Driver
