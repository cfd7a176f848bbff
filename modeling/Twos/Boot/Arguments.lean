import Twos.Boot.Tokens

/-!
# Command-line arguments

A command line that consists of pairs `key=value` is cut into these pairs, all of them fit, and they
are what the lookups find.

* `tokens_render` cuts the rendered text into one token for each pair, by induction on the pairs, and
  `tablesOf_pairs` puts the tokens into the tables, by induction from the back.
* `cmdlineParse_spec` is the parser on such a text: it returns, and leaves `stored pairs`.
* `getArgIdx_present` and `getArgIdx_absent` are the lookups in these tables. Both come from
  `cmdlineGetarg_find`, which says for any list of arguments that the first matching row answers.
-/

namespace Twos.Boot

open Lib Kstd

/-- A key that fits, with its NUL, into a row of `args`. -/
structure IsKey (k : List Nat) : Prop where
  nonempty : k ≠ []
  fits : k.length < CMDLINE_MAX_ARG_LEN
  noNul : 0 ∉ k
  noSep : ARG_SEP ∉ k
  noSpace : SPACE ∉ k

/-- `k1=v1 k2=v2 ...`. -/
def render : List (List Nat × Nat) → List Nat
  | [] => []
  | (k, v) :: more =>
      k ++ ARG_SEP :: decimal v ++ if more = [] then [] else SPACE :: render more

/-- The string of the tag at `tag` is this text and a NUL. -/
structure HoldsText (m : Memory) (tag : Nat) (text : List Nat) : Prop where
  size : tagSize m tag = TAG_HEADER + text.length + 1
  chars : ∀ i, i ≤ text.length → stringAt m tag i = (text ++ [0]).getD i 0

variable {m : Memory} {tag : Nat} {text : List Nat}

theorem HoldsText.stagLen (h : HoldsText m tag text) : stagLenOf m tag = text.length + 1 := by
  have hlt : tagSize m tag < 256 ^ 4 := load_lt m (tag + 4) 4
  have hsize := h.size
  rw [stagLenOf]
  lia

theorem HoldsText.payload_eq (h : HoldsText m tag text) :
    payload m tag (stagLenOf m tag) = text ++ [0] := by
  rw [h.stagLen]
  apply List.ext_getElem
  · rw [length_payload, List.length_append, List.length_singleton]
  · intro i hi _
    have hle : i ≤ text.length := by
      rw [length_payload] at hi
      exact Nat.le_of_lt_succ hi
    have hchar := h.chars i hle
    rw [List.getD_eq_getElem _ _ (by simpa using Nat.lt_succ_of_le hle)] at hchar
    simpa [payload] using hchar

theorem HoldsText.nul (h : HoldsText m tag text) : stringAt m tag (stagLenOf m tag - 1) = 0 := by
  rw [h.stagLen, Nat.add_sub_cancel, h.chars _ (Nat.le_refl _)]
  simp

/-! ## Pairs

The text is rendered from the pairs, and the parser cuts it up again: the first pair by
`tokens_pair`, and the rest by induction. The bound of 16 pairs and the lengths of keys and numbers
keep the text inside the buffers.
-/

/-- `cmdline.args` with these pairs stored. -/
def rowsOf (done : List (List Nat × Nat)) : List (List Nat) :=
  done.map (fun p => pad CMDLINE_MAX_ARG_LEN p.1) ++
    List.replicate (CMDLINE_MAX_ARG - done.length) (List.replicate CMDLINE_MAX_ARG_LEN 0)

/-- `cmdline.vals` with these pairs stored. -/
def valsOf (done : List (List Nat × Nat)) : List Nat :=
  done.map Prod.snd ++ List.replicate (CMDLINE_MAX_ARG - done.length) 0

/-- What follows a pair: the NUL, or a space and the other pairs. -/
def tailText (more : List (List Nat × Nat)) : List Nat :=
  if more = [] then [0] else SPACE :: (render more ++ [0])

theorem render_cons (k : List Nat) (v : Nat) (more : List (List Nat × Nat)) :
    render ((k, v) :: more) ++ [0] = k ++ ARG_SEP :: (decimal v ++ tailText more) := by
  rw [render, tailText]
  by_cases hmore : more = []
  · simp [hmore]
  · simp [hmore]

/-- The tables that hold these pairs. -/
def stored (pairs : List (List Nat × Nat)) : Cmdline where
  args := rowsOf pairs
  vals := valsOf pairs
  numArgs := pairs.length

/-- A text of short keys and 32-bit numbers is short. -/
theorem length_render_le {pairs : List (List Nat × Nat)}
    (hpairs : ∀ p ∈ pairs, IsKey p.1 ∧ p.2 < UINT32_MAX) :
    (render pairs ++ [0]).length ≤ 27 * pairs.length + 1 := by
  induction pairs with
  | nil => exact Nat.le_refl 1
  | cons p more ih =>
      obtain ⟨k, v⟩ := p
      obtain ⟨hk, hv⟩ := hpairs (k, v) List.mem_cons_self
      have hfits : k.length < 16 := hk.fits
      have hdigits := length_decimal (v := v) (n := 9) (Nat.lt_trans hv (by decide))
      have hrest := ih fun p hp => hpairs p (List.mem_cons_of_mem _ hp)
      have htail : (tailText more).length ≤ (render more ++ [0]).length + 1 := by
        rw [tailText]
        split
        · simp
        · simp
      rw [render_cons]
      simp only [List.length_append, List.length_cons] at hrest htail ⊢
      omega

/-- The text is cut into the pairs. What is left is the NUL. -/
theorem tokens_render {pairs : List (List Nat × Nat)} (hkeys : ∀ p ∈ pairs, IsKey p.1) :
    tokens (.key []) (render pairs ++ [0]) =
      pairs.map (fun p => .arg p.1 (decimal p.2)) ++ [.rest [0]] := by
  induction pairs with
  | nil => rfl
  | cons p more ih =>
      have hk := hkeys p List.mem_cons_self
      rw [render_cons, tokens_pair hk.noSep (decimal_digits p.2), tailText]
      cases more with
      | nil => rfl
      | cons q more =>
          have hq := hkeys q (List.mem_cons_of_mem _ List.mem_cons_self)
          have hrest := ih fun p hp => hkeys p (List.mem_cons_of_mem _ hp)
          rw [if_neg (List.cons_ne_nil q more), tokens, if_pos rfl, render_cons,
            tokens_behind hq.noSep hq.nonempty, ← render_cons, hrest]
          rfl

/-- A number below `UINT32_MAX` is read back. -/
theorem numberOf_decimal {v : Nat} (hv : v < UINT32_MAX) : numberOf (decimal v) = v := by
  have hdigits : ∀ c ∈ decimal v, IsDigit c := decimal_digits v
  have hread := atou_decimal v []
  rw [atou_digits hdigits] at hread
  rw [numberOf, if_pos hdigits, Except.ok.inj hread]
  exact Nat.mod_eq_of_lt (by lia)

theorem tablesOf_pairs {pairs : List (List Nat × Nat)}
    (hpairs : ∀ p ∈ pairs, IsKey p.1 ∧ p.2 < UINT32_MAX) :
    tablesOf ((pairs.map fun p => (p.1, decimal p.2)).map entryOf) = stored pairs := by
  have hentry : ∀ p ∈ pairs, entryOf (p.1, decimal p.2) = (pad CMDLINE_MAX_ARG_LEN p.1, p.2) := by
    intro p hp
    obtain ⟨hk, hv⟩ := hpairs p hp
    rw [entryOf, rowOf_short hk.noNul hk.fits, numberOf_decimal hv]
  have hentries : (pairs.map fun p => (p.1, decimal p.2)).map entryOf =
      pairs.map fun p => (pad CMDLINE_MAX_ARG_LEN p.1, p.2) := by
    rw [List.map_map]
    exact List.map_congr_left hentry
  rw [hentries]
  simp [tablesOf, stored, rowsOf, valsOf]

/-- The parser stores the pairs that the text was made of. -/
theorem cmdlineParse_spec {pairs : List (List Nat × Nat)} (hcount : pairs.length ≤ CMDLINE_MAX_ARG)
    (hpairs : ∀ p ∈ pairs, IsKey p.1 ∧ p.2 < UINT32_MAX) (htext : HoldsText m tag (render pairs)) :
    cmdlineParse m tag =
      .ok (stored pairs, pairs.length) := by
  have hsmall : stagLenOf m tag < 2 ^ 31 := by
    have hlen := length_render_le hpairs
    have hsixteen : pairs.length ≤ 16 := hcount
    rw [List.length_append, List.length_singleton] at hlen
    rw [htext.stagLen]
    omega
  have hroomy := (roomy_map Prod.fst (fun p => decimal p.2) [0] hcount).mpr ⟨fun p hp => ?_, by decide⟩
  · have hparse := cmdlineParseIn_computes hsmall
    rw [textTokens, htext.payload_eq, tokens_render fun p hp => (hpairs p hp).1, argsOf_map,
      tablesOf_pairs hpairs, List.length_map] at hparse
    exact cmdlineParseIn_ok (hparse.returns hroomy)
  · obtain ⟨hk, hv⟩ := hpairs p hp
    have hkey : p.1.length < 16 := hk.fits
    have hvalue : (decimal p.2).length ≤ 9 + 1 := length_decimal (Nat.lt_trans hv (by decide))
    omega

/-! ## Looking up

A lookup compares the argument with one row after the other and answers with the first that matches.
Rows are compared as strings with their NULs, so a key matches itself only.
-/

/-- The comparison of a stored key with an argument. -/
theorem argMatches_spec {k s rest : List Nat} (hk : IsKey k) (hs : 0 ∉ s) :
    argMatches (s ++ 0 :: rest) (pad CMDLINE_MAX_ARG_LEN k) = .ok (decide (s = k)) := by
  obtain ⟨c, k', rfl⟩ := List.exists_cons_of_ne_nil hk.nonempty
  rw [argMatches, pad_eq hk.fits]
  split
  · next hhead =>
    have hne : s ≠ c :: k' := by
      rintro rfl
      exact hhead rfl
    rw [decide_eq_false hne]
  · obtain ⟨r, hr, hiff⟩ := strcmp_eq_zero rest
      (List.replicate (CMDLINE_MAX_ARG_LEN - (c :: k').length - 1) 0) hs hk.noNul
    rw [hr, ok_seq]
    simp [hiff]

theorem stored_row {pairs : List (List Nat × Nat)} {i : Nat} (hi : i < pairs.length) :
    (stored pairs).args[i]? = some (pad CMDLINE_MAX_ARG_LEN pairs[i].1) := by
  show (rowsOf pairs)[i]? = _
  rw [rowsOf, List.getElem?_append_left (by simpa using hi), List.getElem?_map,
    List.getElem?_eq_getElem hi]
  rfl

theorem stored_val {pairs : List (List Nat × Nat)} {i : Nat} (hi : i < pairs.length) :
    (stored pairs).vals[i]? = some pairs[i].2 := by
  show (valsOf pairs)[i]? = _
  rw [valsOf, List.getElem?_append_left (by simpa using hi), List.getElem?_map,
    List.getElem?_eq_getElem hi]
  rfl

/-- The search goes through the rows in order. -/
theorem argIdxFrom_find {α : Type} {c : Cmdline} {arg : List Nat} {l : List α} {found : α → Bool}
    (hrow : ∀ i, (hi : i < l.length) →
      ∃ row, c.args[i]? = some row ∧ argMatches arg row = .ok (found l[i]))
    {n i : Nat} (h : n + i = l.length) :
    argIdxFrom c arg n i = .ok (match (l.drop i).findIdx? found with
      | some j => i + j
      | none => ARGIDX_NONE) := by
  induction n generalizing i with
  | zero =>
      rw [List.drop_of_length_le (by omega)]
      rfl
  | succ n ih =>
      have hi : i < l.length := by omega
      obtain ⟨row, hget, hmatch⟩ := hrow i hi
      rw [argIdxFrom, hget]
      simp only [hmatch, ok_seq, List.drop_eq_getElem_cons hi, List.findIdx?_cons]
      cases hfound : found l[i] with
      | true => simp
      | false =>
          rw [ih (by omega)]
          cases (l.drop (i + 1)).findIdx? found with
          | none => rfl
          | some j => simp; omega

/-- A lookup finds the number behind the first row that matches. -/
theorem cmdlineGetarg_find {α : Type} {c : Cmdline} {arg : List Nat} {l : List α} {found : α → Bool}
    {val : α → Nat} (hrow : ∀ i, (hi : i < l.length) →
      ∃ row, c.args[i]? = some row ∧ argMatches arg row = .ok (found l[i]))
    (hval : ∀ i, (hi : i < l.length) → c.vals[i]? = some (val l[i])) (hcount : c.numArgs = l.length)
    (hfits : l.length ≤ CMDLINE_MAX_ARG) :
    cmdlineGetarg c arg = .ok (match l.find? found with
      | some a => val a
      | none => CMDLINE_NO_ARG) := by
  have hidx := argIdxFrom_find hrow (n := l.length) (i := 0) rfl
  rw [List.drop_zero, ← hcount] at hidx
  rw [cmdlineGetarg, getArgIdx, hidx, ok_seq]
  cases hfound : l.findIdx? found with
  | none =>
      rw [List.findIdx?_eq_none_iff] at hfound
      have hnone : l.find? found = none := List.find?_eq_none.mpr fun a ha => by simp [hfound a ha]
      rw [hnone]
      exact if_pos rfl
  | some j =>
      obtain ⟨hj, hthis, hfirst⟩ := List.findIdx?_eq_some_iff_getElem.mp hfound
      have hsome : l.find? found = some l[j] :=
        List.find?_eq_some_iff_getElem.mpr ⟨hthis, j, hj, rfl, fun k hk => by simp [hfirst k hk]⟩
      have hsmall : 0 + j ≠ ARGIDX_NONE := by lia
      dsimp only
      rw [if_neg hsmall, Nat.zero_add, hval j hj, hsome]

/-- The search for a key among pairs. -/
theorem argIdxFrom_spec {pairs : List (List Nat × Nat)} (hkeys : ∀ p ∈ pairs, IsKey p.1)
    {s : List Nat} (rest : List Nat) (hs : 0 ∉ s) {n i : Nat} (h : n + i = pairs.length) :
    argIdxFrom (stored pairs) (s ++ 0 :: rest) n i =
      .ok (match (pairs.drop i).findIdx? fun p => decide (s = p.1) with
        | some j => i + j
        | none => ARGIDX_NONE) :=
  argIdxFrom_find (fun _ hi => ⟨_, stored_row hi, argMatches_spec (hkeys _ (List.getElem_mem hi)) hs⟩) h

theorem getArgIdx_absent {pairs : List (List Nat × Nat)} (hkeys : ∀ p ∈ pairs, IsKey p.1)
    {s : List Nat} (rest : List Nat) (hs : 0 ∉ s) (habsent : s ∉ pairs.map Prod.fst) :
    getArgIdx (stored pairs) (s ++ 0 :: rest) = .ok ARGIDX_NONE := by
  have hnone : (pairs.findIdx? fun p => decide (s = p.1)) = none := by
    rw [List.findIdx?_eq_none_iff]
    intro p hp
    apply decide_eq_false
    rintro rfl
    exact habsent (List.mem_map_of_mem hp)
  have hspec := argIdxFrom_spec hkeys rest hs (n := pairs.length) (i := 0) rfl
  rw [List.drop_zero, hnone] at hspec
  exact hspec

theorem getArgIdx_present {pairs : List (List Nat × Nat)} (hkeys : ∀ p ∈ pairs, IsKey p.1)
    (hdistinct : (pairs.map Prod.fst).Nodup) {i : Nat} (hi : i < pairs.length) (rest : List Nat) :
    getArgIdx (stored pairs) (pairs[i].1 ++ 0 :: rest) = .ok i := by
  have hs := (hkeys _ (List.getElem_mem hi)).noNul
  have hsome : (pairs.findIdx? fun p => decide (pairs[i].1 = p.1)) = some i := by
    rw [List.findIdx?_eq_some_iff_getElem]
    refine ⟨hi, by simp, fun j hj => ?_⟩
    have hne : pairs[j].1 ≠ pairs[i].1 :=
      List.pairwise_iff_getElem.mp (List.pairwise_map.mp hdistinct) j i (by omega) hi hj
    simpa using Ne.symm hne
  have hspec := argIdxFrom_spec hkeys rest hs (n := pairs.length) (i := 0) rfl
  rw [List.drop_zero, hsome] at hspec
  exact hspec.trans (congrArg Except.ok (Nat.zero_add i))

/-- For every list of pairs that fits, what is parsed is what was written: the number of pairs, for
every key its value, and for every other string nothing. -/
theorem cmdline_roundTrip {m : Memory} {tag : Nat} {pairs : List (List Nat × Nat)}
    (hcount : pairs.length ≤ CMDLINE_MAX_ARG)
    (hpairs : ∀ p ∈ pairs, IsKey p.1 ∧ p.2 < UINT32_MAX)
    (hdistinct : (pairs.map Prod.fst).Nodup) (htext : HoldsText m tag (render pairs)) :
    ∃ c, cmdlineParse m tag = .ok (c, pairs.length) ∧ cmdlineNumargs c = pairs.length ∧
      (∀ p ∈ pairs, ∀ rest, cmdlineGetarg c (p.1 ++ 0 :: rest) = .ok p.2) ∧
      ∀ s, 0 ∉ s → s ∉ pairs.map Prod.fst → ∀ rest,
        cmdlineHasarg c (s ++ 0 :: rest) = .ok false ∧
          cmdlineGetarg c (s ++ 0 :: rest) = .ok CMDLINE_NO_ARG := by
  have hkeys : ∀ p ∈ pairs, IsKey p.1 := fun p hp => (hpairs p hp).1
  refine ⟨stored pairs, cmdlineParse_spec hcount hpairs htext, rfl, fun p hp rest => ?_,
    fun s hs habsent rest => ?_⟩
  · obtain ⟨i, hi, rfl⟩ := List.getElem_of_mem hp
    have hsmall : i ≠ ARGIDX_NONE := by
      have hsixteen : pairs.length ≤ 16 := hcount
      lia
    rw [cmdlineGetarg, getArgIdx_present hkeys hdistinct hi, ok_seq, if_neg hsmall, stored_val hi]
  · have hnone := getArgIdx_absent hkeys rest hs habsent
    refine ⟨?_, ?_⟩
    · rw [cmdlineHasarg, hnone]
      rfl
    · rw [cmdlineGetarg, hnone]
      rfl

/-- A tag of type 1 with the command line `dbg=3 serial=10`. -/
def serialTag : Memory := fun x =>
  BitVec.ofNat 8 ([1, 0, 0, 0, 24, 0, 0, 0, 100, 98, 103, 61, 51, 32, 115, 101, 114, 105, 97, 108, 61,
    49, 48, 0].getD x 0)

/-- Its pairs. -/
def serialPairs : List (List Nat × Nat) :=
  [([100, 98, 103], 3), ([115, 101, 114, 105, 97, 108], 10)]

theorem cmdline_roundTrip_serial : HoldsText serialTag 0 (render serialPairs) ∧
    ∃ c, cmdlineParse serialTag 0 = .ok (c, 2) ∧ cmdlineNumargs c = 2 ∧
      (∀ p ∈ serialPairs, ∀ rest, cmdlineGetarg c (p.1 ++ 0 :: rest) = .ok p.2) ∧
      ∀ s, 0 ∉ s → s ∉ serialPairs.map Prod.fst → ∀ rest,
        cmdlineHasarg c (s ++ 0 :: rest) = .ok false ∧
          cmdlineGetarg c (s ++ 0 :: rest) = .ok CMDLINE_NO_ARG := by
  have hrender : render serialPairs = [100, 98, 103, 61, 51, 32, 115, 101, 114, 105, 97, 108, 61, 49,
      48] := by
    simp [render, serialPairs, decimal]
  have htext : HoldsText serialTag 0 (render serialPairs) := by
    rw [hrender]
    exact ⟨by decide, by decide⟩
  have hpairs : ∀ p ∈ serialPairs, IsKey p.1 ∧ p.2 < UINT32_MAX := by
    intro p hp
    rcases List.mem_cons.mp hp with rfl | hp
    · exact ⟨⟨by decide, by decide, by decide, by decide, by decide⟩, by decide⟩
    · obtain rfl := List.mem_singleton.mp hp
      exact ⟨⟨by decide, by decide, by decide, by decide, by decide⟩, by decide⟩
  exact ⟨htext, cmdline_roundTrip (by decide) hpairs (by decide) htext⟩

end Twos.Boot
