import Twos.Isr.Exceptions

/-!
# What exceptions report

Every message of the exception handlers is one that `printk` can deliver, whatever the registers hold:
its arguments are those of its conversions, it says something, and it fits the buffer. So the report of
a run of exceptions reaches the serial port as it was meant, up to the message of the panic.

`Message.fits` decides this for a message from the kinds of its arguments, with a bound in place of
each text (`rendering_le`), so that the registers do not matter, and `call_fits` is what it means. The
reports of the handlers are put together from lists of messages, and so is the proof that they fit
(`Fitting.append`, `fitting_if`). The names of the exceptions go through it one by one, and
`exceptions_reported` then sends the whole to the port.
-/

namespace Twos.Isr

open Lib Kstd Driver

/-! ## Messages that fit

A message is a format with arguments. How long its text can get is bounded item by item, without the
arguments' values, and a message whose bound is below the size of the buffer fits.
-/

/-- The conversions that the reports use. -/
def Item.reported : Item → Bool
  | .char ch => decide (ch ≠ 0 ∧ ch ≠ 37)
  | .spec k => decide (k = .s ∨ k = .i ∨ k = .lx ∨ k = .lu)

/-- The arguments are those of the conversions. -/
def matched : List Item → List Arg → Bool
  | [], args => args.isEmpty
  | .char _ :: items, args => matched items args
  | .spec k :: items, a :: args => decide (a.kind = k.kind) && matched items args
  | .spec _ :: _, [] => false

/-- A bound on what an argument looks like. -/
def argBound : Arg → Nat
  | .str text => text.length
  | _ => 32

/-- A bound on the text of a message. -/
def textBound : List Item → List Arg → Nat
  | [], _ => 0
  | .char _ :: items, args => textBound items args + 1
  | .spec _ :: items, a :: args => argBound a + textBound items args
  | .spec _ :: items, [] => textBound items []

/-- A message that `printk` can deliver, as far as this can be seen without its arguments' values. -/
def Message.fits (msg : Message) : Bool :=
  msg.1.all Item.reported && matched msg.1 msg.2 &&
    decide ((formatOf msg.1).length < PRINTF_BUF) && decide (textBound msg.1 msg.2 < PRINTK_BUF_SIZE) &&
    msg.1.any fun item => match item with
      | .char _ => true
      | .spec _ => false

variable {items : List Item} {args : List Arg}

theorem given_of_matched (h : matched items args = true) : Given items args := by
  induction items generalizing args with
  | nil => exact List.isEmpty_iff.mp h
  | cons item items ih =>
      cases item with
      | char ch => exact ih h
      | spec k =>
          cases args with
          | nil => cases h
          | cons a args =>
              rw [matched, Bool.and_eq_true, decide_eq_true_iff] at h
              exact ⟨a, args, rfl, h.1, ih h.2⟩

/-- No text goes beyond the first NUL that is known. -/
theorem textOf_append_le (text rest : List Nat) : (textOf (text ++ 0 :: rest)).length ≤ text.length := by
  induction text with
  | nil => exact Nat.le_refl _
  | cons c text ih =>
      by_cases hc : c = 0
      · rw [hc, List.cons_append, textOf_zero]
        exact Nat.zero_le _
      · rw [List.cons_append, textOf_cons hc]
        exact Nat.succ_le_succ ih

theorem rendering_le {k : Spec} {a : Arg} (hk : k = .s ∨ k = .i ∨ k = .lx ∨ k = .lu)
    (ha : a.kind = k.kind) : (k.rendering a).length ≤ argBound a := by
  -- strings, and numbers of two widths, of which none is longer than 32 characters
  rcases hk with rfl | rfl | rfl | rfl
  · cases a with
    | str text =>
        exact textOf_append_le text []
    | _ => cases ha
  · cases a with
    | int a =>
        obtain ⟨hlen, -⟩ := signedText_short a (by decide : 10 ≤ 10 ∧ 10 ≤ 36)
        rw [rendering_dec (Or.inl rfl)]
        show _ ≤ 32
        omega
    | _ => cases ha
  · cases a with
    | long a =>
        obtain ⟨hlen, -⟩ := longText_short a (by decide : 10 ≤ 16 ∧ 16 ≤ 16)
        rw [rendering_longHex (Or.inl rfl)]
        show _ ≤ 32
        omega
    | _ => cases ha
  · cases a with
    | long a =>
        obtain ⟨hlen, -⟩ := longText_short a (by decide : 10 ≤ 10 ∧ 10 ≤ 16)
        rw [rendering_longDec (Or.inl rfl)]
        show _ ≤ 32
        omega
    | _ => cases ha

theorem expected_le (hitems : items.all Item.reported = true) (hargs : matched items args = true) :
    (expected items args).length ≤ textBound items args := by
  induction items generalizing args with
  | nil => exact Nat.le_refl _
  | cons item items ih =>
      rw [List.all_cons, Bool.and_eq_true] at hitems
      cases item with
      | char ch => exact Nat.succ_le_succ (ih hitems.2 hargs)
      | spec k =>
          cases args with
          | nil => cases hargs
          | cons a args =>
              rw [matched, Bool.and_eq_true, decide_eq_true_iff] at hargs
              rw [expected, List.length_append, textBound]
              exact Nat.add_le_add (rendering_le (of_decide_eq_true hitems.1) hargs.1)
                (ih hitems.2 hargs.2)

/-- A plain character is in the text as it is. -/
theorem expected_ne_nil (hargs : matched items args = true) {ch : Nat} (h : .char ch ∈ items) :
    expected items args ≠ [] := by
  induction items generalizing args with
  | nil => cases h
  | cons item items ih =>
      cases item with
      | char ch' => exact List.cons_ne_nil _ _
      | spec k =>
          have hrest : .char ch ∈ items := (List.mem_cons.mp h).resolve_left fun heq => by cases heq
          cases args with
          | nil => cases hargs
          | cons a args =>
              rw [matched, Bool.and_eq_true] at hargs
              rw [expected]
              exact fun hnil => ih hargs.2 hrest (List.append_eq_nil_iff.mp hnil).2

/-- The call of `printk` for a message, with whatever its buffers hold. -/
def Message.call (stack buf : List Nat) (msg : Message) : LogCall := ⟨stack, buf, msg.1, msg.2⟩

theorem call_fits {msg : Message} (h : Message.fits msg = true) {stack buf : List Nat}
    (hstack : stack.length = PRINTF_BUF) (hbuf : buf.length = PRINTK_BUF_SIZE) :
    (Message.call stack buf msg).Fits := by
  unfold Message.fits at h
  simp only [Bool.and_eq_true, decide_eq_true_iff] at h
  obtain ⟨⟨⟨⟨hitems, hargs⟩, hshort⟩, hbound⟩, hplain⟩ := h
  refine ⟨⟨hstack, hbuf, fun item hitem => ?_, hshort, given_of_matched hargs, ?_⟩, ?_⟩
  · have hreported := List.all_eq_true.mp hitems item hitem
    cases item with
    | char ch => exact of_decide_eq_true hreported
    | spec k => exact trivial
  · exact Nat.lt_of_le_of_lt (expected_le hitems hargs) hbound
  · obtain ⟨item, hitem, hchar⟩ := List.any_eq_true.mp hplain
    cases item with
    | char ch => exact expected_ne_nil hargs hitem
    | spec k => cases hchar

/-! ## The reports

Every report of the handlers is put together from others with `++` and conditions, and fits if its
parts do. The names of the exceptions and the messages are checked one by one, by evaluation.
-/

/-- All messages of a report fit. -/
def Fitting (report : List Message) : Prop := ∀ msg ∈ report, Message.fits msg = true

theorem Fitting.append {report report' : List Message} (h : Fitting report) (h' : Fitting report') :
    Fitting (report ++ report') := by
  intro msg hmsg
  rcases List.mem_append.mp hmsg with hmsg | hmsg
  · exact h msg hmsg
  · exact h' msg hmsg

theorem fitting_of_all {report : List Message} (h : report.all Message.fits = true) : Fitting report :=
  List.all_eq_true.mp h

theorem fitting_if {c : Prop} [Decidable c] {report report' : List Message} (h : Fitting report)
    (h' : Fitting report') : Fitting (if c then report else report') := by
  split
  · exact h
  · exact h'

theorem fitting_printIsrRegs (cr2 : BitVec 64) (regs : Field → BitVec 64) (extended : Bool) :
    Fitting (printIsrRegs cr2 regs extended) := by
  unfold printIsrRegs
  refine .append (.append (.append ?_ (fitting_if ?_ ?_)) ?_) (fitting_if ?_ ?_)
  all_goals exact fitting_of_all rfl

theorem fitting_panicked {report : List Message} (h : Fitting report) {msg : String}
    (hmsg : Message.fits (lit msg, []) = true) : Fitting (panicked report msg).1 :=
  h.append fun m hm => by rw [List.mem_singleton.mp hm]; exact hmsg

theorem fitting_names : ∀ name ∈ exceptionNames, ∀ n : BitVec 32,
    Message.fits ([.spec .s] ++ lit " = " ++ [.spec .i], [strArg name, .int n]) = true := by
  intro name hname n
  have hfits : ∀ name ∈ exceptionNames,
      Message.fits ([.spec .s] ++ lit " = " ++ [.spec .i], [strArg name, .int 0]) = true := by decide
  exact hfits name hname

theorem fitting_handleErrorGeneric (st : Counts) (cr2 : BitVec 64) (regs : Field → BitVec 64)
    (recover : Bool) : Fitting (handleErrorGeneric st cr2 regs recover).1 := by
  have hopening : Fitting [(lit "=======", [])] := fitting_of_all rfl
  have hverdict {report : List Message} {num : Int} (h : Fitting report) :
      Fitting (if num = st.lastNum ∨ recover = false then
        panicked report "Can't Recover From Exception"
        else (report, .ok { st with lastNum := num }) : Handled).1 := by
    split
    · exact fitting_panicked h rfl
    · exact h
  unfold handleErrorGeneric
  dsimp only
  by_cases hrange : 0 ≤ ((regs .intNo).setWidth 32).toInt ∧ ((regs .intNo).setWidth 32).toInt < 32
  · rw [if_pos hrange]
    cases hget : exceptionNames[((regs .intNo).setWidth 32).toInt.toNat]? with
    -- the report stops at number 31, which has no name
    | none => exact hopening
    | some name =>
        -- the name, what the error code is, and the registers, between the two rules
        have hname := fitting_names name (List.mem_of_getElem? hget) ((regs .intNo).setWidth 32)
        refine hverdict (.append (.append hopening (.append (.append ?_ ?_) ?_)) hopening)
        · intro msg hmsg
          rw [List.mem_singleton.mp hmsg]
          exact hname
        · exact fitting_if (fitting_of_all rfl) (fitting_of_all rfl)
        · exact fitting_printIsrRegs cr2 regs _
  · rw [if_neg hrange]
    refine hverdict (.append (.append hopening ?_) hopening)
    exact fitting_of_all rfl

/-- A message that is one of two texts. -/
theorem fitting_text {c : Bool} {text text' : String} (h : Message.fits (lit text, []) = true)
    (h' : Message.fits (lit text', []) = true) :
    Message.fits (lit (if c then text else text'), []) = true := by
  cases c with
  | true => exact h
  | false => exact h'

theorem fitting_handlePagefault (st : Counts) (cr2 : BitVec 64) (regs : Field → BitVec 64) :
    Fitting (handlePagefault st cr2 regs).1 := by
  have hclosing : Fitting [(lit "==============", [])] := fitting_of_all rfl
  unfold handlePagefault
  dsimp only
  have hfacts : Fitting [(lit "\n== PAGE FAULT ==", []),
      (lit "Error: " ++ [.spec .lu] ++ lit " \n", [.long (regs .errCode)]),
      (lit "At Address [CR2]: " ++ [.spec .lx] ++ lit " \n", [.long cr2]),
      (lit "RIP = " ++ [.spec .lx] ++ lit " \n", [.long (regs .rip)]),
      (lit (if (regs .errCode).getLsbD 2 then "USER" else "KERNEL"), []),
      (lit (if (regs .errCode).getLsbD 1 then "WRITE" else "READ"), []),
      (lit (if (regs .errCode).getLsbD 0 then "PAGE-PROTECTION VIOLATION" else "PAGE NOT PRESENT"),
        [])] := by
    intro msg hmsg
    simp only [List.mem_cons, List.not_mem_nil, or_false] at hmsg
    rcases hmsg with rfl | rfl | rfl | rfl | rfl | rfl | rfl
    · rfl
    · rfl
    · rfl
    · rfl
    -- the two texts that a bit chooses from
    all_goals exact fitting_text rfl rfl
  have hreport := hfacts.append (.append (.append (.append (.append
    (@fitting_if ((regs .errCode).getLsbD 3 = true) _ [(lit "CAUSE = RESERVED WRITE", [])] []
      (fitting_of_all rfl) (fitting_of_all rfl))
    (@fitting_if ((regs .errCode).getLsbD 4 = true) _ [(lit "CAUSE = INSTRUCTION FETCH", [])] []
      (fitting_of_all rfl) (fitting_of_all rfl)))
    (@fitting_if ((regs .errCode).getLsbD 5 = true) _ [(lit "CAUSE = PROTECTION KEY VIOLATION", [])] []
      (fitting_of_all rfl) (fitting_of_all rfl)))
    (@fitting_if ((regs .errCode).getLsbD 6 = true) _ [(lit "CAUSE = SHADOW STACK ACCESS", [])] []
      (fitting_of_all rfl) (fitting_of_all rfl)))
    hclosing)
  simp only [← List.append_assoc] at hreport
  -- the report is there either way, and the panic is one message more
  split
  · exact fitting_panicked (hreport.append (fitting_printIsrRegs cr2 regs true)) rfl
  · exact hreport

theorem fitting_handleGpf (st : Counts) (cr2 : BitVec 64) (regs : Field → BitVec 64) :
    Fitting (handleGpf st cr2 regs).1 := by
  have hreport : Fitting ([(lit "\n=== GPF ===", []),
      (lit "Error: " ++ [.spec .lu] ++ lit " \n", [.long (regs .errCode)]),
      (lit "rbp " ++ [.spec .lx] ++ lit " \n", [.long (regs .rbp)]),
      (lit "==============", [])] ++ printIsrRegs cr2 regs true) :=
    .append (fitting_of_all rfl) (fitting_printIsrRegs cr2 regs true)
  unfold handleGpf
  dsimp only
  split
  · exact fitting_panicked hreport rfl
  · exact hreport

theorem fitting_isrHandler (st : Counts) (e : Raised) : Fitting (isrHandler st e.cr2 e.regs).1 := by
  unfold isrHandler
  split
  · exact fitting_handlePagefault st e.cr2 e.regs
  · split
    · exact fitting_handleGpf st e.cr2 e.regs
    · exact fitting_handleErrorGeneric st e.cr2 e.regs _

theorem fitting_exceptions (st : Counts) (es : List Raised) : Fitting (exceptions st es).1 := by
  induction es generalizing st with
  | nil => exact fun msg hmsg => by cases hmsg
  | cons e es ih =>
      have hfirst := fitting_isrHandler st e
      rw [exceptions]
      cases hhandled : isrHandler st e.cr2 e.regs with
      | mk report verdict =>
          rw [hhandled] at hfirst
          cases verdict with
          | error fault => exact hfirst
          | ok st' => exact hfirst.append (ih st')

/-- Whatever exceptions come and whatever the registers hold: what the handlers say of them, up to the
message of the panic if there is one, is delivered, in whatever order the chip sends and bytes arrive. -/
theorem exceptions_reported (m : Make) {d : SerialState} {u : Uart} (hu : u.Open)
    (hinit : d.hasInit = true) (st : Counts) (es : List Raised) {calls : List LogCall}
    (hcalls : calls.map (fun call => (call.items, call.args)) = (exceptions st es).1)
    (hbufs : ∀ call ∈ calls, call.stack.length = PRINTF_BUF ∧ call.buf.length = PRINTK_BUF_SIZE) :
    ∃ p, printks d calls = .ok p ∧ Delivers m d u (logOf calls) p := by
  have hfit : ∀ call ∈ calls, call.Fits := by
    intro call hcall
    have hmsg := fitting_exceptions st es _ (hcalls ▸ List.mem_map_of_mem hcall)
    exact call_fits hmsg (hbufs call hcall).1 (hbufs call hcall).2
  exact ⟨_, printks_ok d hfit, delivers_printks m hu hinit calls⟩

/-- A breakpoint, two page faults with different error codes, an overflow, and an invalid opcode that
ends it. -/
def someExceptions : List Raised :=
  let frame (intNo errCode rip : BitVec 64) : Field → BitVec 64
    | .intNo => intNo
    | .errCode => errCode
    | .rip => rip
    | .cs => 0x8
    | .rflags => 0x202
    | .rsp => 0xffffffff80210000
    | .ss => 0x10
    | _ => 0x1122334455667788
  [⟨0, frame 3 0 0xffffffff80001000⟩, ⟨0xb8000, frame 14 2 0xffffffff80002468⟩,
    ⟨0xffff800000000010, frame 14 0 0xffffffff80002470⟩,
    ⟨0xffff800000000010, frame 4 0 0xffffffff80003000⟩,
    ⟨0xffff800000000010, frame 6 0 0xffffffff80004321⟩]

/-- What is said of them, with buffers in which nothing is. -/
def someReports : List LogCall :=
  (exceptions .start someExceptions).1.map
    (Message.call (List.replicate PRINTF_BUF 0) (List.replicate PRINTK_BUF_SIZE 0))

theorem exceptions_reported_several : ∃ p, printks ⟨true, false⟩ someReports = .ok p ∧
    Delivers .emulated ⟨true, false⟩ .reset (logOf someReports) p := by
  refine exceptions_reported .emulated ⟨rfl, rfl⟩ rfl .start someExceptions ?_ fun call hcall => ?_
  · rw [someReports, List.map_map]
    exact List.map_id _
  · obtain ⟨msg, -, rfl⟩ := List.mem_map.mp hcall
    exact ⟨List.length_replicate, List.length_replicate⟩

end Twos.Isr
