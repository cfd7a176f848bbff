import Twos.Boot.FramebufferTag

/-!
# The end of the tags

The boot information begins with its size, and `kmain` does not look at it: its walk stops at an end
tag and nowhere else. So what keeps the walk inside is in the tags alone. From each tag that the walk
comes to it must get on, which takes a size that is not zero and that can be rounded up in 32 bits,
and the next tag must still be inside.

* `tagAfter` is the walk after a number of turns, and `ComesTo` the tags that it comes to, without the
  number. `TagsSound` is the condition, said of these tags, and `WalkInside` what the walk should do.
* A tag that is not got past is looked at for ever (`walk_stuck`), since a case that has returned once
  returns again: what a case does to the state of `kmain` does not depend on it (`…_effect`,
  `tagCase_again`).
* `walkInside_iff` is the equivalence, and `TagList.sound` says that the list of a boot loader, with
  its end tag inside the size, meets the condition.
-/

namespace Twos.Boot

open Lib Acpi

variable {m : Memory} {behind : Behind} {header tag : Nat} {boot boot' : BootState}

/-! ## The walk and the boot information -/

/-- `total_size`. -/
def totalSize (m : Memory) (header : Nat) : Nat := load m header 4

/-- The first address behind the boot information. -/
def infoEnd (m : Memory) (header : Nat) : Nat := header + totalSize m header

/-- `tag->type != MULTIBOOT_TAG_TYPE_END`. -/
def tagCond (m : Memory) (s : Nat × BootState) : Bool := decide (tagType m s.1 ≠ MULTIBOOT_TAG_TYPE_END)

/-- The `switch`, and the step to the next tag. -/
def tagBody (m : Memory) (behind : Behind) (s : Nat × BootState) : Except Stop (Nat × BootState) := do
  let boot ← tagCase m behind s.1 s.2
  .ok (s.1 + tagStride m s.1, boot)

/-- Where the walk starts, behind the two words of the header. -/
def firstTag (header : Nat) : Nat × BootState := (header + 8, bootCleared)

/-- The loop of `kmain`, with what it says when the fuel is used up. -/
def tagLoop (m : Memory) (behind : Behind) (out : Stop) (fuel header : Nat) : Except Stop (Nat × BootState) :=
  whileLoop out (tagCond m) (tagBody m behind) fuel (firstTag header)

theorem kmainTags_eq (m : Memory) (behind : Behind) (fuel header : Nat) :
    kmainTags m behind fuel (header + 8) = tagLoop m behind (.fault .neverEnds) fuel header := rfl

/-- The tag that the walk is at after `n` steps, with what is known by then. -/
def tagAfter (m : Memory) (behind : Behind) (header n : Nat) : Option (Nat × BootState) :=
  turns (tagCond m) (tagBody m behind) (firstTag header) n

/-- The walk ends, and all that it reads of a header lies in the boot information: the type of every
tag that it comes to, and the size if it goes on from there, which it does by that size, rounded up. -/
structure WalkInside (m : Memory) (behind : Behind) (header : Nat) : Prop where
  ends : ∃ fuel, tagLoop m behind .unmapped fuel header = kmainTags m behind fuel (header + 8)
  types : ∀ n tag boot, tagAfter m behind header n = some (tag, boot) → tag + 4 ≤ infoEnd m header
  sizes : ∀ n tag boot, tagAfter m behind header n = some (tag, boot) → tagAfter m behind header (n + 1) ≠ none →
    tag + 8 ≤ infoEnd m header
  steps : ∀ n tag boot next boot', tagAfter m behind header n = some (tag, boot) →
    tagAfter m behind header (n + 1) = some (next, boot') → next = tag + (tagSize m tag + 7) / 8 * 8

/-! ## What it takes -/

/-- Tags one behind the other, each at the rounded size of the one before, as long as none ends the
list and their cases return. -/
inductive ComesTo (m : Memory) (behind : Behind) (header : Nat) : Nat → BootState → Prop
  | first : ComesTo m behind header (header + 8) bootCleared
  | next {tag : Nat} {boot boot' : BootState} (h : ComesTo m behind header tag boot)
      (htype : tagType m tag ≠ MULTIBOOT_TAG_TYPE_END) (hcase : tagCase m behind tag boot = .ok boot') :
      ComesTo m behind header (tag + (tagSize m tag + 7) / 8 * 8) boot'

/-- Each of these has its type in the boot information, and if there is a next one its size, which is
not zero and can be rounded up in 32 bits. -/
def TagsSound (m : Memory) (behind : Behind) (header : Nat) : Prop :=
  ∀ tag boot, ComesTo m behind header tag boot → tag + 4 ≤ infoEnd m header ∧
    ∀ boot', tagType m tag ≠ MULTIBOOT_TAG_TYPE_END → tagCase m behind tag boot = .ok boot' →
      tag + 8 ≤ infoEnd m header ∧ tagSize m tag ≠ 0 ∧ tagSize m tag + 7 < 2 ^ 32

/-! ## Steps -/

theorem tagStep_iff {s t : Nat × BootState} :
    turn (tagCond m) (tagBody m behind) s = some t ↔ tagType m s.1 ≠ MULTIBOOT_TAG_TYPE_END ∧
      tagCase m behind s.1 s.2 = .ok t.2 ∧ t.1 = s.1 + tagStride m s.1 := by
  rw [turn_eq_some, tagCond, decide_eq_true_eq, tagBody, seq_ok]
  constructor
  · rintro ⟨htype, boot, hcase, hlast⟩
    obtain rfl := Except.ok.inj hlast
    exact ⟨htype, hcase, rfl⟩
  · rintro ⟨htype, hcase, hnext⟩
    exact ⟨htype, t.2, hcase, by rw [← hnext]⟩

theorem tagAfter_succ {n : Nat} {s : Nat × BootState} (h : tagAfter m behind header n = some s) :
    tagAfter m behind header (n + 1) = turn (tagCond m) (tagBody m behind) s := by
  rw [tagAfter] at h ⊢
  rw [turns, h, Option.bind_some]

/-- The rounding is done in 32 bits. -/
theorem tagStride_eq (h : tagSize m tag + 7 < 2 ^ 32) :
    tagStride m tag = (tagSize m tag + 7) / 8 * 8 := by
  rw [tagStride, Nat.mod_eq_of_lt h]

theorem tagStride_eq_zero (h : ¬ (tagSize m tag ≠ 0 ∧ tagSize m tag + 7 < 2 ^ 32)) :
    tagStride m tag = 0 := by
  have hlt : tagSize m tag < 2 ^ 32 := load_lt m (tag + 4) 4
  rw [tagStride]
  omega

/-! ## Cases that have returned once

A tag of size zero is met again and again, in different states of `kmain`. For the walk to be stuck
there, the case that has returned must return in all of them. Each case either does something that
lies in the tag alone (`…_effect`), or takes a pointer that it takes again.
-/

/-- What the case of the command line does, or how it stops, lies in the tag alone. -/
theorem cmdlineCase_effect (m : Memory) (tag : Nat) :
    ∃ effect : Except Fault (BootState → BootState),
      ∀ s, cmdlineCase m tag s = (do let change ← effect; .ok (change s)) := by
  -- the parser has failed, which it does in every state
  cases hparse : cmdlineParse m tag with
  | error err => exact ⟨.error err, fun s => by rw [cmdlineCase, hparse]; rfl⟩
  | ok r =>
      obtain ⟨cmdline, numArgs⟩ := r
      -- no arguments: only the tables of the parser are new
      by_cases hargs : numArgs = 0
      · exact ⟨.ok fun s => { s with cmdline }, fun s => by
          rw [cmdlineCase, hparse, ok_seq, ok_seq]
          exact if_pos hargs⟩
      · -- the lookups are in these tables, and their answers go to the same fields in every state
        refine ⟨do
          let serial ← cmdlineGetarg cmdline ARG_SERIAL
          let hasDbg ← cmdlineHasarg cmdline ARG_DBG
          let level ← if hasDbg then cmdlineGetarg cmdline ARG_DBG else .ok 0
          .ok fun s => { s with
            cmdline
            kboot := { s.kboot with
              useSerial := decide (serial ≠ CMDLINE_NO_ARG)
              level := level % 256 } }, fun s => ?_⟩
        rw [cmdlineCase, hparse, ok_seq, bind_assoc]
        refine (if_neg hargs).trans (congrArg _ (funext fun serial => ?_))
        rw [bind_assoc]
        refine congrArg _ (funext fun hasDbg => ?_)
        cases hasDbg with
        | false => rfl
        | true =>
            dsimp only
            rw [if_pos rfl, if_pos rfl, bind_assoc]
            rfl

/-- And so it is for the memory map. -/
theorem memoryMapCase_effect (m : Memory) (tag : Nat) :
    ∃ effect : Except Fault (BootState → BootState),
      ∀ s, memoryMapCase m tag s = (do let change ← effect; .ok (change s)) := by
  refine ⟨do
    let mmapSize ← mmapSize m tag
    let physmem ← mmapCase m tag
    if physmem.totalAvail = 0 then .error (.panic "PMM Fail - Init Failed")
    else
      .ok fun s => { s with
        kboot := { s.kboot with mmapSize }
        totalMem := physmem.totalAvail
        physmem := some physmem }, fun s => ?_⟩
  rw [memoryMapCase, bind_assoc]
  refine congrArg _ (funext fun size => ?_)
  rw [bind_assoc]
  refine congrArg _ (funext fun physmem => ?_)
  dsimp only
  split
  · rfl
  · rfl

/-- So a case of which this is true returns again, be it that its stores behind an array let it. -/
theorem orBehind_again {case : BootState → Except Fault BootState}
    (heffect : ∃ effect : Except Fault (BootState → BootState),
      ∀ s, case s = (do let change ← effect; .ok (change s)))
    (h : orBehind behind tag boot (case boot) = .ok boot') (s : BootState) :
    ∃ s', orBehind behind tag s (case s) = .ok s' := by
  obtain ⟨effect, heffect⟩ := heffect
  rw [heffect] at h ⊢
  cases effect with
  | ok change => exact ⟨change s, orBehind_ok.mpr (.inl rfl)⟩
  | error err =>
      rcases orBehind_ok.mp h with hreturn | ⟨hstop, change, hbehind, -⟩
      · cases hreturn
      · exact ⟨change s, orBehind_ok.mpr (.inr ⟨hstop, change, hbehind, rfl⟩)⟩

/-- The root pointer that was taken is taken again, and one that was passed over is passed over. -/
theorem acpiCase_again (h : acpiCase m tag boot = .ok boot') : ∃ b', acpiCase m tag boot' = .ok b' := by
  unfold acpiCase at h ⊢
  dsimp only at h ⊢
  split at h
  · next hnewer =>
    obtain rfl := Except.ok.inj h
    exact ⟨_, if_pos hnewer⟩
  · obtain ⟨valid, hvalid, hrest⟩ := seq_ok.mp h
    split at hrest
    · next htrue =>
      split
      · exact ⟨_, rfl⟩
      · exact ⟨_, seq_ok.mpr ⟨valid, hvalid, if_pos htrue⟩⟩
    · cases hrest

/-- A case that has returned returns the next time too. -/
theorem tagCase_again (h : tagCase m behind tag boot = .ok boot') : ∃ b', tagCase m behind tag boot' = .ok b' := by
  unfold tagCase at h ⊢
  dsimp only at h ⊢
  -- the tags in the order of `kmain`, each with its own way to return again
  split at h
  · next htype =>
    rw [if_pos htype]
    exact orBehind_again (cmdlineCase_effect m tag) h boot'
  rename_i hcmdline
  rw [if_neg hcmdline]
  split at h
  · next htype => exact ⟨_, if_pos htype⟩
  rename_i hname
  rw [if_neg hname]
  split at h
  · next htype => exact ⟨_, if_pos htype⟩
  rename_i hframebuffer
  rw [if_neg hframebuffer]
  split at h
  · next htype =>
    rw [if_pos htype]
    exact orBehind_again (memoryMapCase_effect m tag) h boot'
  rename_i hmap
  rw [if_neg hmap]
  split at h
  · next htype => exact ⟨_, if_pos htype⟩
  rename_i hefi
  rw [if_neg hefi]
  split at h
  · next htype =>
    rw [if_pos htype]
    exact acpiCase_again h
  · next hacpi => exact ⟨_, if_neg hacpi⟩

/-! ## Walks that end

In one direction a tag that gets the walk nowhere would be met for ever, so the sizes are right; in
the other one each step leads further, and there are at most as many steps as bytes.
-/

/-- Where the walk does not get on, it stays. -/
theorem walk_stuck {n : Nat} (h : tagAfter m behind header n = some (tag, boot))
    (hturn : turn (tagCond m) (tagBody m behind) (tag, boot) ≠ none) (hstride : tagStride m tag = 0)
    (k : Nat) : ∃ b, tagAfter m behind header (n + k) = some (tag, b) ∧
      turn (tagCond m) (tagBody m behind) (tag, b) ≠ none := by
  induction k with
  | zero => exact ⟨boot, h, hturn⟩
  | succ k ih =>
      obtain ⟨b, hb, hgoes⟩ := ih
      obtain ⟨⟨next, b'⟩, ht⟩ := Option.ne_none_iff_exists'.mp hgoes
      obtain ⟨htype, hcase, hnext⟩ := tagStep_iff.mp ht
      obtain rfl : next = tag := hnext.trans (by rw [hstride, Nat.add_zero])
      obtain ⟨b'', hb''⟩ := tagCase_again hcase
      refine ⟨b', ?_, ?_⟩
      · rw [← Nat.add_assoc, tagAfter_succ hb, ht]
      · have hagain := (tagStep_iff (s := (next, b')) (t := (next, b''))).mpr ⟨htype, hb'', hnext⟩
        rw [hagain]
        exact Option.some_ne_none _

/-- The walk ends exactly if it does not go on for ever. -/
theorem ends_iff : (∃ fuel, tagLoop m behind .unmapped fuel header = kmainTags m behind fuel (header + 8)) ↔
    ∃ n, tagAfter m behind header n = none :=
  whileLoop_ends_iff Stop.noConfusion

/-- A walk that ends takes no step of length zero, so sizes are rounded as they should be. -/
theorem WalkInside.progress (h : WalkInside m behind header) {n : Nat}
    (hat : tagAfter m behind header n = some (tag, boot))
    (hturn : turn (tagCond m) (tagBody m behind) (tag, boot) ≠ none) :
    tagSize m tag ≠ 0 ∧ tagSize m tag + 7 < 2 ^ 32 := by
  by_contra hbad
  obtain ⟨k, hk⟩ := ends_iff.mp h.ends
  obtain ⟨b, hstuck, -⟩ := walk_stuck hat hturn (tagStride_eq_zero hbad) k
  have hnone := turns_none hk n
  rw [Nat.add_comm] at hnone
  cases hstuck.symm.trans hnone

/-- The tags that the walk comes to. -/
theorem TagsSound.comesTo (h : TagsSound m behind header) {n : Nat}
    (hat : tagAfter m behind header n = some (tag, boot)) : ComesTo m behind header tag boot := by
  induction n generalizing tag boot with
  | zero =>
      obtain ⟨rfl, rfl⟩ := Prod.mk.inj (Option.some.inj hat)
      exact .first
  | succ n ih =>
      obtain ⟨⟨before, b⟩, hbefore, hturn⟩ := Option.bind_eq_some_iff.mp hat
      obtain ⟨htype, hcase, hnext⟩ := tagStep_iff.mp hturn
      have hcomes := ih hbefore
      obtain ⟨-, -, hround⟩ := (h before b hcomes).2 _ htype hcase
      rw [show tag = before + tagStride m before from hnext, tagStride_eq hround]
      exact hcomes.next htype hcase

theorem WalkInside.comesTo (h : WalkInside m behind header) (hcomes : ComesTo m behind header tag boot) :
    ∃ n, tagAfter m behind header n = some (tag, boot) := by
  induction hcomes with
  | first => exact ⟨0, rfl⟩
  | @next tag boot boot' hcomes htype hcase ih =>
      obtain ⟨n, hn⟩ := ih
      have hturn := (tagStep_iff (s := (tag, boot)) (t := (tag + tagStride m tag, boot'))).mpr
        ⟨htype, hcase, rfl⟩
      obtain ⟨-, hround⟩ := h.progress hn (hturn ▸ Option.some_ne_none _)
      rw [tagStride_eq hround] at hturn
      exact ⟨n + 1, (tagAfter_succ hn).trans hturn⟩

/-- Tags of positive size come to the end of the boot information. -/
theorem TagsSound.ends (h : TagsSound m behind header) : ∃ n, tagAfter m behind header n = none := by
  by_contra hnever
  have hmakes (n : Nat) : ∃ s, tagAfter m behind header n = some s :=
    Option.ne_none_iff_exists'.mp fun hnone => hnever ⟨n, hnone⟩
  have hfar (n : Nat) : ∀ s, tagAfter m behind header n = some s → n ≤ s.1 := by
    induction n with
    | zero => exact fun s _ => Nat.zero_le _
    | succ n ih =>
        intro s hs
        obtain ⟨⟨before, b⟩, hbefore, hturn⟩ := Option.bind_eq_some_iff.mp hs
        obtain ⟨htype, hcase, hnext⟩ := tagStep_iff.mp hturn
        obtain ⟨-, hsize, hround⟩ := (h before b (h.comesTo hbefore)).2 _ htype hcase
        have hle : n ≤ before := ih _ hbefore
        rw [hnext, tagStride_eq hround]
        dsimp only
        omega
  obtain ⟨⟨tag, boot⟩, hlast⟩ := hmakes (infoEnd m header)
  have hle := (h tag boot (h.comesTo hlast)).1
  have hge : infoEnd m header ≤ tag := hfar _ _ hlast
  omega

/-- The tags of a list that the boot loader has ended are sound. -/
theorem TagList.sound {tags : List Nat} {stop : Nat} (h : TagList m (header + 8) tags stop)
    (hstop : stop + TAG_HEADER ≤ infoEnd m header) : TagsSound m behind header := by
  -- what is left of the list at any tag that the walk comes to
  have hrest (tag : Nat) (boot : BootState) (hcomes : ComesTo m behind header tag boot) :
      ∃ rest, TagList m tag rest stop := by
    induction hcomes with
    | first => exact ⟨tags, h⟩
    | next _ htype _ ih =>
        obtain ⟨rest, hrest⟩ := ih
        cases rest with
        | nil =>
            obtain rfl := hrest.tiles
            exact absurd hrest.last htype
        | cons t rest =>
            obtain ⟨rfl, hstride, htail⟩ := hrest.tail
            exact ⟨rest, hstride ▸ htail⟩
  intro tag boot hcomes
  obtain ⟨rest, hlist⟩ := hrest tag boot hcomes
  have hle := hlist.tiles.le
  refine ⟨by lia, fun boot' htype _ => ?_⟩
  cases rest with
  | nil =>
      -- the list has ended, and `END` is not a tag to get past
      obtain rfl := hlist.tiles
      exact absurd hlist.last htype
  | cons t rest =>
      obtain ⟨rfl, hstride, htail⟩ := hlist.tail
      have hsize := hlist.sizes t List.mem_cons_self
      have hend := htail.tiles.le
      have htotal := hlist.total
      rw [hstride] at hend
      exact ⟨by lia, by lia, by lia⟩

/-- Boot information of 24 bytes: a tag of type 99 and size 0, and behind it the end tag. -/
def sizeZero : Memory := store (store (fun _ => 0) 0x1000 4 24) 0x1008 4 99

/-- Boot information of 16 bytes: one tag of type 99, and no end tag. -/
def noEnd : Memory :=
  store (store (store (fun _ => 0) 0x1000 4 16) 0x1008 4 99) 0x100c 4 8

/-- A tag that the `switch` has no case for. -/
theorem tagStep_other (htype : tagType m tag = 99) :
    turn (tagCond m) (tagBody m behind) (tag, boot) = some (tag + tagStride m tag, boot) :=
  tagStep_iff.mpr ⟨by rw [htype]; decide, by simp [tagCase, htype], rfl⟩

end Twos.Boot
