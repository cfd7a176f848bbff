import Twos.Boot.Cmdline

/-!
# The parser of the command line, checked

`cmdline_parse` once more, with every read of the string checked against its length. Where the checks
pass, they change nothing; and when the string ends in a NUL they pass wherever the parser returns.

The two halves go through the parser in the same order: the value that is copied, the argument that is
stored, one step of the loop, the loop. `cmdlineParseIn_ok` is the first half, from the checked parser
to the one of `Boot.Cmdline`, and `cmdlineParseIn_of` the second one. There the reason is `next_lt`:
the character behind one that is not the NUL at the end is still inside the string.
-/

namespace Twos.Boot

open Lib Kstd

/-- `stag->string[idx]`, which is there for `stagLen` characters. -/
def stringIn (m : Memory) (tag stagLen idx : Nat) : Except Fault Nat :=
  if idx < stagLen then .ok (stringAt m tag idx) else .error .outOfBounds

/-- `copyChar`, and the character that the condition of the loop reads next. -/
def copyCharIn (m : Memory) (tag stagLen : Nat) (s : Nat × Nat × List Nat) :
    Except Fault (Nat × Nat × List Nat) := do
  let s ← copyChar m tag s
  let _ ← stringIn m tag stagLen s.1
  .ok s

/-- `copyValue`. -/
def copyValueIn (m : Memory) (tag stagLen idx : Nat) : Except Fault (Nat × Nat × List Nat) := do
  let _ ← stringIn m tag stagLen idx
  whileLoop .neverEnds (fun s => inValue m tag stagLen s.1) (copyCharIn m tag stagLen) (stagLen + 1)
    (idx, 0, List.replicate 32 0)

/-- `storeArg`. -/
def storeArgIn (m : Memory) (tag stagLen : Nat) (s : Parse) : Except Fault Parse := do
  let buf ← writeBytes s.buf s.bdx [0]
  let row ← argRow s
  let row ← strncpy row 0 buf CMDLINE_MAX_ARG_LEN
  let args ← writeBytes s.args s.numArgs [row]
  let (idx, vdx, sval) ← copyValueIn m tag stagLen (s.idx + 1)
  let ch ← stringIn m tag stagLen idx
  let idx := if ch = SPACE then idx + 1 else idx
  let sval ← writeBytes sval vdx [0]
  let val ← atou sval
  let vals ← writeBytes s.vals s.numArgs [val]
  .ok { idx, bdx := 0, numArgs := s.numArgs + 1, buf := List.replicate 64 0, args, vals }

/-- The character that an iteration starts with. -/
def parseCharIn (m : Memory) (tag stagLen : Nat) (s : Parse) (ch : Nat) : Except Fault Parse :=
  if ch = ARG_SEP then storeArgIn m tag stagLen s else .ok s

/-- The character that it takes into `buf`. -/
def takeCharIn (m : Memory) (tag stagLen : Nat) (s : Parse) : Except Fault Parse := do
  let ch ← stringIn m tag stagLen s.idx
  let buf ← writeBytes s.buf s.bdx [ch]
  .ok { s with idx := s.idx + 1, bdx := s.bdx + 1, buf }

/-- `parseStep`. -/
def parseStepIn (m : Memory) (tag stagLen : Nat) (s : Parse) : Except Fault Parse := do
  let ch ← stringIn m tag stagLen s.idx
  let s ← parseCharIn m tag stagLen s ch
  takeCharIn m tag stagLen s

/-- `cmdlineParse`. -/
def cmdlineParseIn (m : Memory) (tag : Nat) : Except Fault (Cmdline × Nat) :=
  let stagLen := stagLenOf m tag
  if stagLen = 0 ∨ 2 ^ 31 ≤ stagLen then .ok (cmdlineCleared, 0)
  else do
    let s ← whileLoop .neverEnds (fun s => decide (s.idx < stagLen)) (parseStepIn m tag stagLen)
      (stagLen + 1)
      ⟨0, 0, 0, List.replicate 64 0, cmdlineCleared.args, cmdlineCleared.vals⟩
    .ok ({ args := s.args, vals := s.vals, numArgs := s.numArgs }, s.numArgs)

/-- The parser ends and stays inside: in the string with every read and in its buffers with every
write, and each key that it stores has a NUL in its row. -/
def ParsesInside (m : Memory) (tag : Nat) : Prop :=
  ∃ c n, cmdlineParseIn m tag = .ok (c, n) ∧ cmdlineParse m tag = .ok (c, n) ∧
    ∀ i, i < n → ∃ row, c.args[i]? = some row ∧ row.length = CMDLINE_MAX_ARG_LEN ∧ 0 ∈ row

variable {m : Memory} {tag stagLen : Nat}

/-! ## Checked or not

Each part of the parser is compared with its checked version, first in the direction in which checks
pass and nothing changes, and then in the other one, which needs the NUL at the end of the string.
-/

theorem stringIn_eq {idx : Nat} (h : idx < stagLen) :
    stringIn m tag stagLen idx = .ok (stringAt m tag idx) := if_pos h

theorem stringIn_ok {idx ch : Nat} (h : stringIn m tag stagLen idx = .ok ch) :
    idx < stagLen ∧ ch = stringAt m tag idx := by
  rw [stringIn] at h
  split at h
  · next hlt => exact ⟨hlt, (Except.ok.inj h).symm⟩
  · cases h

/-- In a string that ends in a NUL, another character is not the last. -/
theorem next_lt {idx : Nat} (hnul : stringAt m tag (stagLen - 1) = 0) (hidx : idx < stagLen)
    (hne : stringAt m tag idx ≠ 0) : idx + 1 < stagLen := by
  have hlast : idx ≠ stagLen - 1 := fun heq => hne (heq ▸ hnul)
  omega

theorem copyValueIn_ok {idx : Nat} {r : Nat × Nat × List Nat}
    (h : copyValueIn m tag stagLen idx = .ok r) : copyValue m tag stagLen idx = .ok r := by
  obtain ⟨-, -, hloop⟩ := seq_ok.mp h
  have hcopy (s t : Nat × Nat × List Nat) (hst : s = t) (_ : inValue m tag stagLen s.1 = true)
      (s' : Nat × Nat × List Nat) (hs' : copyCharIn m tag stagLen s = .ok s') :
      ∃ t', copyChar m tag t = .ok t' ∧ s' = t' := by
    obtain ⟨u, hu, hread⟩ := seq_ok.mp hs'
    obtain ⟨-, -, hu'⟩ := seq_ok.mp hread
    obtain rfl := Except.ok.inj hu'
    exact ⟨u, hst ▸ hu, rfl⟩
  obtain ⟨r', hrun, rfl⟩ := whileLoop_simulates (· = ·) (fun s t hst => by rw [hst]) hcopy rfl hloop
  exact hrun

theorem storeArgIn_ok {s s' : Parse} (h : storeArgIn m tag stagLen s = .ok s') :
    storeArg m tag stagLen s = .ok s' := by
  obtain ⟨buf, hbuf, h⟩ := seq_ok.mp h
  obtain ⟨row, hrow, h⟩ := seq_ok.mp h
  obtain ⟨key, hkey, h⟩ := seq_ok.mp h
  obtain ⟨args, hargs, h⟩ := seq_ok.mp h
  obtain ⟨⟨idx, vdx, sval⟩, hcopy, h⟩ := seq_ok.mp h
  obtain ⟨ch, hch, h⟩ := seq_ok.mp h
  rw [(stringIn_ok hch).2] at h
  rw [storeArg, hbuf, ok_seq, hrow, ok_seq, hkey, ok_seq, hargs, ok_seq, copyValueIn_ok hcopy, ok_seq]
  exact h

theorem parseStepIn_ok {s s' : Parse} (h : parseStepIn m tag stagLen s = .ok s') :
    parseStep m tag stagLen s = .ok s' := by
  obtain ⟨ch, hch, h⟩ := seq_ok.mp h
  obtain ⟨t, ht, h⟩ := seq_ok.mp h
  obtain ⟨ch', hch', h⟩ := seq_ok.mp h
  rw [(stringIn_ok hch).2, parseCharIn] at ht
  rw [(stringIn_ok hch').2] at h
  rw [parseStep]
  split at ht
  · next hsep =>
    rw [if_pos hsep, storeArgIn_ok ht, ok_seq]
    exact h
  · next hsep =>
    rw [if_neg hsep, ht, ok_seq]
    exact h

/-- Where the checks pass, they change nothing. -/
theorem cmdlineParseIn_ok {r : Cmdline × Nat} (h : cmdlineParseIn m tag = .ok r) :
    cmdlineParse m tag = .ok r := by
  rw [cmdlineParseIn] at h
  rw [cmdlineParse]
  split at h
  · next hnone => rw [if_pos hnone, h]
  · next hsome =>
    obtain ⟨s, hloop, hr⟩ := seq_ok.mp h
    obtain ⟨s', hrun, rfl⟩ := whileLoop_simulates (· = ·) (fun s t hst => by rw [hst])
      (fun s t hst _ s' hs' => ⟨s', hst ▸ parseStepIn_ok hs', rfl⟩) rfl hloop
    rw [if_neg hsome, hrun, ok_seq, hr]

/-- A value that starts in a string with a NUL at its end is copied without a look behind it. -/
theorem copyValueIn_of {idx : Nat} {r : Nat × Nat × List Nat}
    (hnul : stringAt m tag (stagLen - 1) = 0) (hidx : idx < stagLen)
    (h : copyValue m tag stagLen idx = .ok r) :
    copyValueIn m tag stagLen idx = .ok r ∧ r.1 < stagLen := by
  have hcopy (s t : Nat × Nat × List Nat) (hst : s = t ∧ s.1 < stagLen)
      (hcond : inValue m tag stagLen s.1 = true) (s' : Nat × Nat × List Nat)
      (hs' : copyChar m tag s = .ok s') :
      ∃ t', copyCharIn m tag stagLen t = .ok t' ∧ s' = t' ∧ s'.1 < stagLen := by
    obtain ⟨sval, -, hput⟩ := seq_ok.mp hs'
    have hnext : s'.1 = s.1 + 1 := congrArg Prod.fst (Except.ok.inj hput).symm
    have hlt : s'.1 < stagLen := hnext ▸ next_lt hnul hst.2 (of_decide_eq_true hcond).2.1
    refine ⟨s', ?_, rfl, hlt⟩
    rw [copyCharIn, ← hst.1, hs', ok_seq, stringIn_eq hlt, ok_seq]
  obtain ⟨r', hrun, rfl, hlt⟩ := whileLoop_simulates (fun s t => s = t ∧ s.1 < stagLen)
    (fun s t hst => by rw [hst.1]) hcopy ⟨rfl, hidx⟩ h
  exact ⟨by rw [copyValueIn, stringIn_eq hidx, ok_seq, hrun], hlt⟩

theorem storeArgIn_of {s s' : Parse} (hnul : stringAt m tag (stagLen - 1) = 0)
    (hidx : s.idx + 1 < stagLen) (h : storeArg m tag stagLen s = .ok s') :
    storeArgIn m tag stagLen s = .ok s' ∧ s'.idx < stagLen := by
  obtain ⟨buf, hbuf, h⟩ := seq_ok.mp h
  obtain ⟨row, hrow, h⟩ := seq_ok.mp h
  obtain ⟨key, hkey, h⟩ := seq_ok.mp h
  obtain ⟨args, hargs, h⟩ := seq_ok.mp h
  obtain ⟨⟨idx, vdx, sval⟩, hcopy, h⟩ := seq_ok.mp h
  obtain ⟨hcopied, hlt⟩ := copyValueIn_of hnul hidx hcopy
  constructor
  · rw [storeArgIn, hbuf, ok_seq, hrow, ok_seq, hkey, ok_seq, hargs, ok_seq, hcopied, ok_seq]
    dsimp only
    rw [stringIn_eq hlt, ok_seq]
    exact h
  · obtain ⟨sval', -, h⟩ := seq_ok.mp h
    obtain ⟨val, -, h⟩ := seq_ok.mp h
    obtain ⟨vals, -, h⟩ := seq_ok.mp h
    obtain rfl := Except.ok.inj h
    show (if stringAt m tag idx = SPACE then idx + 1 else idx) < stagLen
    split
    · next hspace => exact next_lt hnul hlt (hspace ▸ by decide)
    · exact hlt

theorem parseStepIn_of {s s' : Parse} (hnul : stringAt m tag (stagLen - 1) = 0)
    (hidx : s.idx < stagLen) (h : parseStep m tag stagLen s = .ok s') :
    parseStepIn m tag stagLen s = .ok s' := by
  rw [parseStep] at h
  rw [parseStepIn, stringIn_eq hidx, ok_seq, parseCharIn]
  split at h
  · next hsep =>
    obtain ⟨t, ht, h⟩ := seq_ok.mp h
    have hne : stringAt m tag s.idx ≠ 0 := hsep ▸ by decide
    obtain ⟨hstored, hlt⟩ := storeArgIn_of hnul (next_lt hnul hidx hne) ht
    rw [if_pos hsep, hstored, ok_seq, takeCharIn, stringIn_eq hlt]
    exact h
  · next hsep =>
    rw [if_neg hsep, ok_seq, takeCharIn, stringIn_eq hidx]
    exact h

/-- With a NUL at the end of the string, the checks pass wherever the parser returns. -/
theorem cmdlineParseIn_of {r : Cmdline × Nat} (hnul : stringAt m tag (stagLenOf m tag - 1) = 0)
    (h : cmdlineParse m tag = .ok r) : cmdlineParseIn m tag = .ok r := by
  rw [cmdlineParse] at h
  rw [cmdlineParseIn]
  split at h
  · next hnone => rw [if_pos hnone, h]
  · next hsome =>
    obtain ⟨s, hloop, hr⟩ := seq_ok.mp h
    obtain ⟨s', hrun, rfl⟩ := whileLoop_simulates (· = ·) (fun s t hst => by rw [hst])
      (fun s t hst hcond s' hs' => ⟨s', hst ▸ parseStepIn_of hnul (of_decide_eq_true hcond) hs', rfl⟩)
      rfl hloop
    rw [if_neg hsome, hrun, ok_seq, hr]

end Twos.Boot
