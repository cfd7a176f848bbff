import Twos.Driver.SerialInit
import Twos.Kstd.Items

/-!
# The log

`printk.c`. What the kernel logs goes through `vsnprintf` into a buffer, and from there character by
character to the serial port, with a line end behind a text that has none. The log of a kernel is what
its calls come to, one behind the other; it reaches the line whole and in order, or not at all.

* `printk_eq` and `printks_ok` leave nothing of the formats: a call that fits is a program that prints
  its entry.
* On a port that works, a prefix of the log is on its way at any moment and all of it at the end
  (`delivers_printks`), from `wp_serialPrint` for each text. `log_delivered` and `log_redirected` say it
  of the line and of the port of the emulator.
* On a port that was taken for faulty nothing more gets out than was in the queue (`wp_muted`), and the
  calls return. `kernelLog_all_or_nothing` runs `serial_init` before the log, and has both ends.
-/

namespace Twos.Driver

open Lib Kstd

/-! ## `printk` -/

/-- The characters of a text. -/
def toBytes (text : List Nat) : List Byte := text.map (BitVec.ofNat 8)

/-- `_printk_findoutputs`. The character in front of an empty string is not its own. -/
def printkFindoutputs (d : SerialState) (str : List Nat) : Except Fault (Prog Nat Byte Unit) := do
  let len ← strlen str
  if len = 0 then .error .outOfBounds
  else if str.getD (len - 1) 0 = 10 then .ok (serialPrint d (toBytes (str.take len)))
  else .ok (serialPrintln d (toBytes (str.take len)))

/-- `printk`, with `stack` in the buffer of `__vprintf` and `buf` in its own. -/
def printk (d : SerialState) (stack buf fmt : List Nat) (args : List Arg) :
    Except Fault (Prog Nat Byte Unit) := do
  let (buf, _) ← vsnprintf stack buf PRINTK_BUF_SIZE fmt args
  printkFindoutputs d buf

/-- A call, and what the buffers hold when it is made. -/
structure LogCall where
  stack : List Nat
  buf : List Nat
  items : List Item
  args : List Arg

/-- The calls of a kernel, one after the other. -/
def printks (d : SerialState) : List LogCall → Except Fault (Prog Nat Byte Unit)
  | [] => .ok (pure ())
  | call :: calls => do
      let p ← printk d call.stack call.buf (formatOf call.items) call.args
      let rest ← printks d calls
      .ok (p >>= fun _ => rest)

/-! ## What a call logs

`printk` formats into its buffer and prints what is in there, with a line end where there is none.
For a call that has something to say that is the text of its format, so nothing of `vsnprintf` is
left in `printk_eq`.
-/

/-- A text, with a line end behind it if it has none. -/
def withLineEnd (text : List Nat) : List Nat :=
  if text.getLast? = some 10 then text else text ++ [10]

/-- The line that a call is expected to log. -/
def LogCall.entry (call : LogCall) : List Byte := toBytes (withLineEnd (expected call.items call.args))

/-- The call is one of `printk` with something to say. -/
structure LogCall.Fits (call : LogCall) : Prop where
  passed : Call call.stack call.buf PRINTK_BUF_SIZE call.items call.args
  nonempty : expected call.items call.args ≠ []

/-- What the kernel is expected to log. -/
def logOf (calls : List LogCall) : List Byte := calls.flatMap LogCall.entry

/-- The text of a buffer, printed with its line end. -/
def printEntry (d : SerialState) (text : List Nat) : Prog Nat Byte Unit :=
  if text.getLast? = some 10 then serialPrint d (toBytes text) else serialPrintln d (toBytes text)

theorem printkFindoutputs_eq (d : SerialState) {text : List Nat} (hzero : 0 ∉ text)
    (hne : text ≠ []) (rest : List Nat) :
    printkFindoutputs d (text ++ 0 :: rest) = .ok (printEntry d text) := by
  have hpos : 0 < text.length := List.length_pos_iff.mpr hne
  have hlast : (text ++ 0 :: rest).getD (text.length - 1) 0 = text.getLast hne := by
    rw [List.getLast_eq_getElem, List.getD_eq_getElem?_getD,
      List.getElem?_append_left (by omega), List.getElem?_eq_getElem (by omega), Option.getD_some]
  rw [printkFindoutputs, strlen_eq hzero, ok_seq, if_neg (by omega), hlast, List.take_left, printEntry,
    List.getLast?_eq_some_getLast hne]
  by_cases hend : text.getLast hne = 10
  · rw [if_pos hend, if_pos (congrArg some hend)]
  · rw [if_neg hend, if_neg fun h => hend (Option.some.inj h)]

/-- `vsnprintf` leaves the expected text, with a NUL behind it. -/
theorem vsnprintf_leaves {stack s : List Nat} {n : Nat} {items : List Item} {args : List Arg}
    (h : Call stack s n items args) (hn : n ≤ 2 ^ 32) :
    0 ∉ expected items args ∧ ∃ rest ret,
      vsnprintf stack s n (formatOf items) args = .ok (expected items args ++ 0 :: rest, ret) := by
  have hfits := h.fits
  obtain ⟨ps, last, hprints, htext, hlast⟩ := prints_items h.given [] []
  rw [List.nil_append] at htext
  rw [← directives_formatOf h.plain, List.append_nil] at hprints
  obtain ⟨s', hclear, hholds⟩ := clear_output h.room (Nat.zero_lt_of_lt hfits)
  have hfmt : IsFormat (formatOf items) := ⟨formatOf_nonzero h.plain, h.short⟩
  have hrun := vprintf_delivers h.stack hfmt.hasRoom hholds hprints
  have hinside : Directive.overrun ∉ directives (formatOf items) := by
    rw [directives_formatOf h.plain, List.mem_map]
    rintro ⟨item, -, heq⟩
    cases item <;> cases heq
  have hfold : (ps ++ [last]).foldlM (appendText n) [] = some (expected items args) := by
    rw [← htext] at hfits ⊢
    have hlen : (ps ++ [last]).flatten.length = ps.flatten.length + last.length := by simp
    exact (appendTexts_iff hfits).mpr (by omega)
  obtain ⟨st, hst, hheld, -⟩ := hrun.fits hinside _ hfold
  obtain ⟨rest, hsplit⟩ := hheld.split
  refine ⟨hheld.nonzero, rest, (BitVec.ofNat 32 st.total).toInt, ?_⟩
  rw [vsnprintf, hclear, ok_seq, hst, ok_seq, hsplit]

/-- A call prints its text with one line end. -/
theorem printk_eq (d : SerialState) {call : LogCall} (h : call.Fits) :
    printk d call.stack call.buf (formatOf call.items) call.args =
      .ok (printEntry d (expected call.items call.args)) := by
  obtain ⟨hzero, rest, ret, hrun⟩ := vsnprintf_leaves h.passed (by decide)
  rw [printk, hrun, ok_seq]
  exact printkFindoutputs_eq d hzero h.nonempty rest

/-- So do all the calls of a kernel. -/
theorem printks_ok (d : SerialState) {calls : List LogCall} (h : ∀ call ∈ calls, call.Fits) :
    printks d calls = .ok (calls.foldr
      (fun call rest => printEntry d (expected call.items call.args) >>= fun _ => rest) (pure ())) := by
  induction calls with
  | nil => rfl
  | cons call calls ih =>
      have hrest := ih fun call hcall => h call (List.mem_cons_of_mem _ hcall)
      rw [printks, printk_eq d (h call List.mem_cons_self), ok_seq, hrest, ok_seq]
      rfl

/-! ## What reaches the line

The driver waits until the chip is empty before it writes a byte, so no byte is lost, and a byte
that has been handed over goes out whenever the chip gets to it. Whatever happens in between, what
is on the line is a beginning of what was handed over.
-/

variable {m : Make} {d : SerialState} {t u : Uart} {A : Uart → Prop} {done : List Byte}

theorem toBytes_append (text text' : List Nat) : toBytes (text ++ text') = toBytes text ++ toBytes text' :=
  List.map_append

/-- An entry of the log is handed over behind what has been. -/
theorem wp_printEntry (hu : u.Open) (hinit : d.hasInit = true) {text : List Nat}
    (hA : ∀ done', done' <+: done ++ toBytes (withLineEnd text) → ∀ t, Handed m d u done' t → A t)
    (h : Handed m d u done t) :
    wp (uart m) A (printEntry d text)
      (fun _ => Handed m d u (done ++ toBytes (withLineEnd text))) t := by
  unfold printEntry withLineEnd at *
  split
  · next hend =>
    rw [if_pos hend] at hA
    exact wp_serialPrint hu hinit hA h
  · next hend =>
    rw [if_neg hend] at hA
    rw [toBytes_append] at hA ⊢
    exact wp_serialPrintln hu hinit hA h

/-- The whole log. -/
theorem wp_printks (hu : u.Open) (hinit : d.hasInit = true) {calls : List LogCall}
    (hA : ∀ done', done' <+: done ++ logOf calls → ∀ t, Handed m d u done' t → A t)
    (h : Handed m d u done t) :
    wp (uart m) A (calls.foldr
      (fun call rest => printEntry d (expected call.items call.args) >>= fun _ => rest) (pure ()))
      (fun _ => Handed m d u (done ++ logOf calls)) t := by
  induction calls generalizing done t with
  | nil =>
      rw [logOf, List.flatMap_nil, List.append_nil] at hA ⊢
      exact wp_ret (Handed.stable hu done) (hA done (List.prefix_refl done)) (fun t ht => ht) h
  | cons call calls ih =>
      have hsplit : done ++ logOf (call :: calls) = done ++ call.entry ++ logOf calls := by
        rw [logOf, List.flatMap_cons, List.append_assoc]
        rfl
      rw [hsplit] at hA ⊢
      refine wp_bind (wp_imp (wp_printEntry hu hinit ?_ h) ?_)
      · exact fun done' hdone => hA done' (hdone.trans (List.prefix_append _ _))
      · exact fun _ t ht => ih hA ht

theorem polls_printks (m : Make) (d : SerialState) (calls : List LogCall) :
    (calls.foldr (fun call rest => printEntry d (expected call.items call.args) >>= fun _ => rest)
      (pure ())).Polls (Serves m) := by
  induction calls with
  | nil => exact trivial
  | cons call calls ih =>
      refine Prog.Polls.bind ?_ fun _ => ih
      unfold printEntry
      split
      · exact polls_serialPrint m d _
      · exact polls_serialPrintln m d _

/-- What becomes of a program that prints a log, in whatever order things happen. -/
structure Delivers (m : Make) (d : SerialState) (u : Uart) (log : List Byte)
    (p : Prog Nat Byte Unit) : Prop where
  always : ∀ p' t, GetsTo (uart m) p u p' t → ∃ done, done <+: log ∧ Handed m d u done t
  ends : ∀ t, GetsTo (uart m) p u (.ret ()) t → Handed m d u log t
  fair : ∀ turns, Fair .transmit turns → ∃ n t, exec (uart m) turns (p, u) n = (.ret (), t)

theorem delivers_printks (m : Make) (hu : u.Open) (hinit : d.hasInit = true) (calls : List LogCall) :
    Delivers m d u (logOf calls) (calls.foldr
      (fun call rest => printEntry d (expected call.items call.args) >>= fun _ => rest) (pure ())) := by
  have hproved : wp (uart m) (fun t => ∃ done, done <+: logOf calls ∧ Handed m d u done t) _ _ u :=
    wp_printks hu hinit (fun done hdone t ht => ⟨done, by simpa using hdone, ht⟩) (Handed.refl u)
  refine ⟨fun p' t hrun => ?_, fun t hrun => ?_, fun turns hfair => ?_⟩
  · have hnow := wp_always hproved hrun
    exact hnow
  · have hend := wp_ends hproved hrun
    rwa [List.nil_append] at hend
  · obtain ⟨n, done, t, hend⟩ := ends_of_fair (polls_printks m d calls) hfair u
    exact ⟨n, t, hend⟩

/-- The log on a chip that is set to send. In whatever order it sends and bytes arrive, what has been
handed over is at any time a beginning of the log, with nothing lost; in the end it is the log: every
text once, in order, with one line end. And as long as the chip goes on sending, there is an end. -/
theorem log_delivered (m : Make) (hu : u.Open) (hinit : d.hasInit = true) {calls : List LogCall}
    (hcalls : ∀ call ∈ calls, call.Fits) :
    ∃ p, printks d calls = .ok p ∧ Delivers m d u (logOf calls) p :=
  ⟨_, printks_ok d hcalls, delivers_printks m hu hinit calls⟩

/-- Behind `serial_set_e9`, nothing of the log goes over the line; the port of the emulator gets it. -/
theorem log_redirected (m : Make) (hu : u.Open) (hinit : d.hasInit = true) {calls : List LogCall}
    (hcalls : ∀ call ∈ calls, call.Fits) :
    ∃ p, printks (serialSetE9 d) calls = .ok p ∧
      (∀ p' t, GetsTo (uart m) p u p' t → t.sent m = u.sent m) ∧
      ∀ t, GetsTo (uart m) p u (.ret ()) t → t.console = u.console ++ logOf calls := by
  have hdelivers := delivers_printks m (d := serialSetE9 d) hu hinit calls
  refine ⟨_, printks_ok _ hcalls, fun p' t hrun => ?_, fun t hrun => ?_⟩
  · obtain ⟨done, -, hhanded⟩ := hdelivers.always p' t hrun
    simpa [Uart.carried, serialSetE9] using hhanded.sent
  · simpa [serialSetE9] using (hdelivers.ends t hrun).console

/-- A call with nothing in the buffers. -/
def LogCall.of (items : List Item) (args : List Arg) : LogCall :=
  ⟨List.replicate PRINTF_BUF 0, List.replicate PRINTK_BUF_SIZE 0, items, args⟩

theorem LogCall.of_fits {items : List Item} {args : List Arg} (hplain : ∀ item ∈ items, item.Plain)
    (hshort : (formatOf items).length < PRINTF_BUF) (hgiven : Given items args)
    (hfits : (expected items args).length < PRINTK_BUF_SIZE) (hne : expected items args ≠ []) :
    (LogCall.of items args).Fits :=
  ⟨⟨List.length_replicate, List.length_replicate, hplain, hshort, hgiven, hfits⟩, hne⟩

/-- `id %d`, with a line end; `%s=%lx` of `end` and an address; `%u %i%c` of two numbers, with a line
end as the character. -/
def usualCalls : List LogCall :=
  [.of [.char 105, .char 100, .char 32, .spec .d, .char 10] [.int 7],
    .of [.spec .s, .char 61, .spec .lx] [.str [101, 110, 100], .long 0x7fe0000],
    .of [.spec .u, .char 32, .spec .i, .spec .c] [.int 4096, .int (-6), .int 10]]

theorem usualCalls_fit : ∀ call ∈ usualCalls, call.Fits := by
  intro call hcall
  rcases List.mem_cons.mp hcall with rfl | hcall
  · exact LogCall.of_fits (by decide) (by decide) ⟨_, _, rfl, rfl, rfl⟩ (by decide +kernel)
      (by decide +kernel)
  · rcases List.mem_cons.mp hcall with rfl | hcall
    · exact LogCall.of_fits (by decide) (by decide) ⟨_, _, rfl, rfl, _, _, rfl, rfl, rfl⟩
        (by decide +kernel) (by decide +kernel)
    · rw [List.mem_singleton.mp hcall]
      exact LogCall.of_fits (by decide) (by decide)
        ⟨_, _, rfl, rfl, _, _, rfl, rfl, _, _, rfl, rfl, rfl⟩ (by decide +kernel) (by decide +kernel)

/-- `id 7`, `end=7fe0000` and `4096 -6`, a line each. -/
theorem log_delivered_usual :
    logOf usualCalls = toBytes [105, 100, 32, 55, 10, 101, 110, 100, 61, 55, 102, 101, 48, 48, 48, 48,
      10, 52, 48, 57, 54, 32, 45, 54, 10] ∧
    ∃ p, printks ⟨true, false⟩ usualCalls = .ok p ∧
      Delivers .emulated ⟨true, false⟩ .reset (logOf usualCalls) p :=
  ⟨by decide +kernel, log_delivered .emulated ⟨rfl, rfl⟩ rfl usualCalls_fit⟩

/-! ## From `serial_init` on

Putting the two together: `serial_init` leaves either a chip that works, where the whole log is
delivered, or one that still sends to itself, where nothing of it is.
-/

/-- The data port and that of the emulator. -/
def Printed (port : Nat) (_ : Byte) : Prop := port = SERIAL_PORT_COM1 ∨ port = 0xe9

theorem writes_serialPrint (d : SerialState) (str : List Byte) :
    (serialPrint d str).Writes Printed := by
  unfold serialPrint
  split
  · induction str with
    | nil => exact trivial
    | cons c str ih =>
        refine Prog.Writes.bind ?_ fun _ => ih
        split
        · exact ⟨.inr rfl, trivial⟩
        · exact ⟨.inl rfl, trivial⟩
  · exact trivial

theorem writes_printEntry (d : SerialState) (text : List Nat) :
    (printEntry d text).Writes Printed := by
  unfold printEntry
  split
  · exact writes_serialPrint d _
  · exact (writes_serialPrint d _).bind fun _ => writes_serialPrint d _

theorem writes_printks (d : SerialState) (calls : List LogCall) :
    (calls.foldr (fun call rest => printEntry d (expected call.items call.args) >>= fun _ => rest)
      (pure ())).Writes Printed := by
  induction calls with
  | nil => exact trivial
  | cons call calls ih => exact (writes_printEntry d _).bind fun _ => ih

/-- A chip that sends to itself, with what was left of before on the line. -/
structure Muted (u t : Uart) : Prop where
  looped : t.looped = true
  line : u.line <+: t.line
  length : t.line.length ≤ u.line.length + u.thr.length

/-- Nothing that is printed changes that. -/
theorem wp_muted {α : Type} {p : Prog Nat Byte α} (hp : p.Writes Printed) (h : Muted u t) :
    wp (uart m) (Muted u) p (fun _ => Muted u) t := by
  refine wp_keeps ?_ ?_ ?_ hp h
  · -- an event: the chip sends to itself, so the line stays as it is
    intro e t h
    have hline : (t.happen m e).line = t.line := line_happen_looped h.looped e
    have hmcr : (t.happen m e).mcr = t.mcr := (same_happen t e).mcr
    refine ⟨?_, ?_, ?_⟩
    · show (t.happen m e).mcr.getLsbD 4 = true
      rw [hmcr]
      exact h.looped
    · show u.line <+: (t.happen m e).line
      rw [hline]
      exact h.line
    · show (t.happen m e).line.length ≤ _
      rw [hline]
      exact h.length
  · -- a read of one of its registers
    intro port t h
    show Muted u (Uart.input m port t).2
    unfold Uart.input
    split
    · split <;> exact ⟨h.looped, h.line, h.length⟩
    · split <;> exact h
  · -- a write of data, or to the port of the emulator
    intro port v t hport h
    rcases hport with rfl | rfl
    · show Muted u (if t.dlab then _ else t.queue v)
      split
      · exact ⟨h.looped, h.line, h.length⟩
      · unfold Uart.queue
        split <;> exact ⟨h.looped, h.line, h.length⟩
    · exact ⟨h.looped, h.line, h.length⟩

/-- The start of a kernel, and what it returns of `serial_init`. -/
def kernelLog (d : SerialState) (p : SerialState → Prog Nat Byte Unit) : Prog Nat Byte Nat := do
  let r ← serialInit d
  p r.1
  pure r.2

/-- How the log of a kernel ends: whole behind what was on the line, and behind the test byte if that
has gone out as well, or with nothing on the line but what was left of before. -/
def LogEnd (m : Make) (u : Uart) (log : List Byte) (result : Nat) (t : Uart) : Prop :=
  (result = 0 ∧ m.Passes ∧ t.lost = u.lost ∧ ∃ line test, u.line <+: line ∧
      line.length ≤ u.line.length + u.thr.length ∧ (test = [] ∨ test = [0xAE]) ∧
      t.sent m = line ++ (test ++ log).map (m.frame 0x02)) ∨
    (result = 1 ∧ Muted u t)

/-- What is on the line while the chip cannot be found to work. -/
def Quiet (m : Make) (u t : Uart) : Prop :=
  m.Passes ∨ (u.line <+: t.line ∧ t.line.length ≤ u.line.length + u.thr.length)

/-- After a failed test. -/
theorem wp_log_muted {log : Prog Nat Byte Unit} (hlog : log.Writes Printed) (h : Muted u t)
    (text : List Byte) :
    wp (uart m) (Quiet m u) (log >>= fun _ => pure 1) (LogEnd m u text) t := by
  have hquiet (t : Uart) (ht : Muted u t) : Quiet m u t := .inr ⟨ht.line, ht.length⟩
  refine wp_bind (wp_imp (wp_mono hquiet (wp_muted hlog h)) fun _ t ht => ?_)
  have hend : wp (uart m) (Muted u) (.ret 1) (fun _ => Muted u) t := wp_muted trivial ht
  exact fun t' ht' => ⟨hquiet t' (hend t' ht').1, .inr ⟨rfl, (hend t' ht').2⟩⟩

/-- After a test that has been passed. -/
theorem wp_log_working {calls : List LogCall} (hpasses : m.Passes) (h : Working m u t) :
    wp (uart m) (Quiet m u) (calls.foldr (fun call rest =>
      printEntry ⟨true, false⟩ (expected call.items call.args) >>= fun _ => rest) (pure ()) >>=
        fun _ => pure 0) (LogEnd m u (logOf calls)) t := by
  have hlog : wp (uart m) (Quiet m u) (calls.foldr (fun call rest =>
        printEntry ⟨true, false⟩ (expected call.items call.args) >>= fun _ => rest) (pure ()))
      (fun _ => Handed m ⟨true, false⟩ t ([] ++ logOf calls)) t :=
    wp_printks h.opened rfl (fun _ _ _ _ => .inl hpasses) (Handed.refl t)
  refine wp_bind (wp_imp hlog fun _ t' ht' => ?_)
  rw [List.nil_append] at ht'
  refine wp_ret (Handed.stable h.opened _) (fun _ _ => .inl hpasses) (fun t' ht' => ?_) ht'
  obtain ⟨line, test, hline, hlength, htest, hsent⟩ := h.sent
  refine .inl ⟨rfl, hpasses, ht'.lost.trans h.same.lost, line, test, hline, hlength, htest, ?_⟩
  rw [ht'.sent, hsent, Uart.carried, if_neg Bool.false_ne_true, h.same.lcr, List.map_append,
    List.append_assoc]
  rfl

/-- From `serial_init` on, on any chip. Either the whole log gets onto the line, or none of it does:
unless the test byte can be read back with seven bits, nothing that the kernel prints is ever sent, in
whatever order things happen. -/
theorem kernelLog_all_or_nothing (m : Make) (hinit : d.hasInit = false) (u : Uart)
    {calls : List LogCall} (hcalls : ∀ call ∈ calls, call.Fits) {p : SerialState → Prog Nat Byte Unit}
    (hp : ∀ d, printks d calls = .ok (p d)) :
    (∀ result t, GetsTo (uart m) (kernelLog d p) u (.ret result) t →
        LogEnd m u (logOf calls) result t) ∧
      (¬ m.Passes → ∀ p' t, GetsTo (uart m) (kernelLog d p) u p' t →
        u.line <+: t.line ∧ t.line.length ≤ u.line.length + u.thr.length) := by
  have hprog (d : SerialState) := Except.ok.inj ((hp d).symm.trans (printks_ok d hcalls))
  have hquiet (t : Uart) (ht : Leftover u t) : Quiet m u t := by
    have hlength := ht.length
    exact .inr ⟨ht.line, by omega⟩
  have hproved : wp (uart m) (Quiet m u) (kernelLog d p) (LogEnd m u (logOf calls)) u := by
    refine wp_bind (wp_imp (wp_serialInit hinit hquiet (fun t ht => .inr ⟨ht.line, ht.length⟩)
      (fun hpasses t _ => .inl hpasses)) fun r t hend => ?_)
    rcases hend with ⟨rfl, ht⟩ | ⟨rfl, ht, hpasses⟩
    · rw [hprog]
      exact wp_log_muted (writes_printks _ calls) ⟨ht.looped, ht.line, ht.length⟩ _
    · rw [hprog]
      exact wp_log_working hpasses ht
  refine ⟨fun result t hrun => wp_ends hproved hrun, fun hfails p' t hrun => ?_⟩
  exact (wp_always hproved hrun).resolve_left hfails

theorem kernelLog_all_or_nothing_usual : ∃ p, (∀ d, printks d usualCalls = .ok (p d)) ∧
    ¬ Make.dataSheet.Passes ∧
    (∀ result t, GetsTo (uart .dataSheet) (kernelLog ⟨false, false⟩ p) .reset (.ret result) t →
        LogEnd .dataSheet .reset (logOf usualCalls) result t) ∧
      (¬ Make.dataSheet.Passes →
        ∀ p' t, GetsTo (uart .dataSheet) (kernelLog ⟨false, false⟩ p) .reset p' t →
          Uart.reset.line <+: t.line ∧
            t.line.length ≤ Uart.reset.line.length + Uart.reset.thr.length) :=
  ⟨_, fun d => printks_ok d usualCalls_fit, dataSheet_fails,
    kernelLog_all_or_nothing .dataSheet rfl .reset usualCalls_fit
      fun d => printks_ok d usualCalls_fit⟩

end Twos.Driver
