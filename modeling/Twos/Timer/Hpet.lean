import Twos.Acpi.Model

/-!
# The event timer

`hpet.c`: finding the timer among the ACPI tables. Its registers are memory; the one that is changed
keeps its value beside it.

The main counter is the hardware's, and is an argument of `usleep`, as what each of its reads in turn
finds.
-/

namespace Twos.Timer

open Lib Acpi

abbrev CONFIG_REGISTER_OFFSET : Nat := 0x10
abbrev FEMTOSECONDS_PER_MICROSECOND : Nat := 1000000000

/-- `HPET`, and the value of `HPET.tbl->config`. -/
structure Hpet where
  sdt : Nat
  tbl : Nat
  fPerTick : Nat
  tickPerUs : Nat
  config : Nat

/-- `~(ENABLE_LEGACY_REPLACE | ENABLE_HPET)`. -/
abbrev TIMER_DISABLED : Nat := 0xFFFFFFFFFFFFFFFC

/-- `hpet_init`. -/
def hpetInit (s : Space) (acpi : AcpiInst) : Except Stop (Space × Hpet) := do
  let sdt ← acpiFindTbl s.read acpi SIG_HPET
  if sdt = 0 then .error (.fault (.panic "No HPET Found"))
  else do
    let s := s.mapSelf sdt
    let tbl ← s.read (sdt + 44) 8
    let capabilities ← s.read tbl 8
    let fPerTick := capabilities / 2 ^ 32
    if fPerTick = 0 then .error (.fault .divideByZero)
    else do
      let config ← s.read (tbl + CONFIG_REGISTER_OFFSET) 8
      s.touch (tbl + CONFIG_REGISTER_OFFSET) 8
      .ok (s, ⟨sdt, tbl, fPerTick, FEMTOSECONDS_PER_MICROSECOND / fPerTick, config &&& TIMER_DISABLED⟩)

/-! ## Waiting -/

abbrev ENABLE_HPET : Nat := 1

/-- `hpet_timer_start`. -/
def hpetTimerStart (hpet : Hpet) : Hpet := { hpet with config := hpet.config ||| ENABLE_HPET }

/-- `hpet_timer_poll_time`, where `main_counter` reads `counter`. -/
def hpetTimerPollTime (hpet : Hpet) (counter : Nat) : Nat := counter * hpet.fPerTick % WORD

/-- `usleep`, with what `main_counter` reads at each poll after `hpet_timer_reset`. It returns at the
poll whose number is given. -/
def usleep (hpet : Hpet) (counter : Nat → Nat) (us fuel : Nat) : Except Fault (Nat × Hpet) := do
  let hpet := hpetTimerStart hpet
  let poll ← whileLoop .neverEnds
    (fun i => decide (hpetTimerPollTime hpet (counter i) < FEMTOSECONDS_PER_MICROSECOND * us % WORD))
    (fun i => .ok (i + 1)) fuel 0
  .ok (poll, hpet)

end Twos.Timer
