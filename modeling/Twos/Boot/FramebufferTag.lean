import Twos.Boot.Kmain
import Twos.Lib.Tiling

/-!
# The framebuffer record

Which tags decide `kboot.fb`. It should be the framebuffer tags, the last credible one among them.
But the case of the boot loader's name goes on into the case of the framebuffer, so the characters of
the name are taken for the fields of a framebuffer, and the last credible tag of the two types
decides.

* **One tag** (`tagCase_fb`): only a credible tag of the two types writes the record, and it writes
  its own fields.
* **All tags** (`kmainTags_spec`): by induction on the list the record is that of the last of these.
* **One run** (`record_eq_iff`): it is the record that it should be exactly if no name is taken for a
  later framebuffer, `NamesHarmless`.
* **Two runs** (`sameRecord_of_framebuffers`): if that is so in both, equal framebuffer tags give
  equal records. A field counts as part of its tag here only if `kmain` looks at it.

All of this is about runs in which no store behind an array hits the record.
-/

namespace Twos.Boot

open Lib Acpi

/-- Tags that lie side by side from `start` to the end tag at `stop`. The size of the whole is a
number of 32 bits. -/
structure TagList (m : Memory) (start : Nat) (tags : List Nat) (stop : Nat) : Prop where
  tiles : Tiles id (fun t => (tagSize m t + 7) / 8 * 8) start tags stop
  sizes : ∀ t ∈ tags, TAG_HEADER ≤ tagSize m t
  inner : ∀ t ∈ tags, tagType m t ≠ MULTIBOOT_TAG_TYPE_END
  last : tagType m stop = MULTIBOOT_TAG_TYPE_END
  total : stop + TAG_HEADER < start + 2 ^ 32

variable {m m' : Memory} {behind behind' : Behind} {start stop : Nat} {tags : List Nat}

/-- The tags without the first. -/
theorem TagList.tail {t : Nat} (h : TagList m start (t :: tags) stop) :
    t = start ∧ tagStride m t = (tagSize m t + 7) / 8 * 8 ∧
      TagList m (start + tagStride m t) tags stop := by
  obtain ⟨hstart, hrest⟩ := h.tiles
  obtain rfl : t = start := hstart
  have hle := hrest.le
  have htotal := h.total
  have hsize := h.sizes t List.mem_cons_self
  have hstride : tagStride m t = (tagSize m t + 7) / 8 * 8 := by
    rw [tagStride, Nat.mod_eq_of_lt (by lia)]
  refine ⟨rfl, hstride, hstride ▸ hrest, fun t' ht' => h.sizes t' (List.mem_cons_of_mem _ ht'),
    fun t' ht' => h.inner t' (List.mem_cons_of_mem _ ht'), h.last, by lia⟩

/-- The loop goes through the tags and ends. -/
theorem tagLoop_spec (behind : Behind) (h : TagList m start tags stop) {fuel : Nat}
    (hfuel : tags.length ≤ fuel) (boot : BootState) :
    whileLoop (.fault .neverEnds) (fun s => decide (tagType m s.1 ≠ MULTIBOOT_TAG_TYPE_END))
        (fun s => do
          let boot ← tagCase m behind s.1 s.2
          .ok (s.1 + tagStride m s.1, boot))
        fuel (start, boot) =
      (do
        let boot ← tags.foldlM (fun s t => tagCase m behind t s) boot
        .ok (stop, boot)) := by
  induction tags generalizing start fuel boot with
  | nil =>
      obtain rfl : start = stop := h.tiles
      rw [whileLoop_false (by simp [h.last])]
      rfl
  | cons t tags ih =>
      obtain ⟨rfl, -, htail⟩ := h.tail
      obtain ⟨fuel, rfl⟩ := Nat.exists_eq_succ_of_ne_zero (Nat.ne_of_gt (Nat.lt_of_lt_of_le
        (Nat.zero_lt_succ tags.length) hfuel))
      have hcond : tagType m t ≠ MULTIBOOT_TAG_TYPE_END := h.inner t List.mem_cons_self
      rw [whileLoop, if_pos (decide_eq_true hcond), List.foldlM_cons]
      cases tagCase m behind t boot with
      | error err => rfl
      | ok boot' => exact ih htail (Nat.le_of_succ_le_succ hfuel) boot'

/-! ## The last credible tag -/

/-- A tag whose case is, or goes on into, the one of the framebuffer. -/
def reachesFramebuffer (m : Memory) (t : Nat) : Bool :=
  decide (tagType m t = MULTIBOOT_TAG_TYPE_FRAMEBUFFER ∨
    tagType m t = MULTIBOOT_TAG_TYPE_BOOT_LOADER_NAME)

/-- A framebuffer tag. -/
def isFramebuffer (m : Memory) (t : Nat) : Bool :=
  decide (tagType m t = MULTIBOOT_TAG_TYPE_FRAMEBUFFER)

/-- The last credible tag of a kind. -/
def lastCredible (m : Memory) (kind : Nat → Bool) (tags : List Nat) : Option Nat :=
  (tags.filter fun t => kind t && credible (framebufferOf m t)).getLast?

/-- Its fields, or those that are there when there is none. -/
def fieldsOr (m : Memory) (fb : Framebuffer) : Option Nat → Framebuffer
  | some t => framebufferOf m t
  | none => fb

@[simp] theorem fieldsOr_some (m : Memory) (fb : Framebuffer) (t : Nat) :
    fieldsOr m fb (some t) = framebufferOf m t := rfl

@[simp] theorem fieldsOr_none (m : Memory) (fb : Framebuffer) : fieldsOr m fb none = fb := rfl

theorem lastCredible_cons (kind : Nat → Bool) (t : Nat) (fb : Framebuffer) :
    fieldsOr m fb (lastCredible m kind (t :: tags)) =
      fieldsOr m (if kind t && credible (framebufferOf m t) then framebufferOf m t else fb)
        (lastCredible m kind tags) := by
  unfold lastCredible
  rw [List.filter_cons]
  split
  · rw [List.getLast?_cons]
    cases (tags.filter fun t => kind t && credible (framebufferOf m t)).getLast? with
    | none => rfl
    | some t' => rfl
  · rfl

/-! ## What a tag does to the record

Of all the cases only two write the record, that of the framebuffer and that of the boot loader's
name, which falls through into it. So after the walk it holds what the last tag of these two types
has put there that was credible. The cases that store behind an array leave it alone by assumption.
-/

/-- No store behind an array hits the record. -/
def SparesFramebuffer (behind : Behind) : Prop :=
  ∀ t change s, behind t = some change → (change s).kboot.fb = s.kboot.fb

theorem orBehind_fb (hspares : SparesFramebuffer behind) {t : Nat} {s s' : BootState}
    {case : Except Fault BootState} (hcase : ∀ s', case = .ok s' → s'.kboot.fb = s.kboot.fb)
    (h : orBehind behind t s case = .ok s') : s'.kboot.fb = s.kboot.fb := by
  rcases orBehind_ok.mp h with hreturn | ⟨-, change, hbehind, rfl⟩
  · exact hcase s' hreturn
  · exact hspares t change s hbehind

theorem cmdlineCase_fb {t : Nat} {s s' : BootState} (h : cmdlineCase m t s = .ok s') :
    s'.kboot.fb = s.kboot.fb := by
  obtain ⟨⟨cmdline, numArgs⟩, -, h⟩ := seq_ok.mp h
  simp only at h
  split at h
  · cases h
    rfl
  · obtain ⟨serial, -, h⟩ := seq_ok.mp h
    obtain ⟨hasDbg, -, h⟩ := seq_ok.mp h
    split at h
    · obtain ⟨level, -, h⟩ := seq_ok.mp h
      cases h
      rfl
    · cases h
      rfl

theorem memoryMapCase_fb {t : Nat} {s s' : BootState} (h : memoryMapCase m t s = .ok s') :
    s'.kboot.fb = s.kboot.fb := by
  obtain ⟨mmapSize, -, h⟩ := seq_ok.mp h
  obtain ⟨physmem, -, h⟩ := seq_ok.mp h
  split at h
  · cases h
  · cases h
    rfl

theorem acpiCase_fb {t : Nat} {s s' : BootState} (h : acpiCase m t s = .ok s') :
    s'.kboot.fb = s.kboot.fb := by
  simp only [acpiCase] at h
  split at h
  · cases h
    rfl
  · obtain ⟨valid, -, h⟩ := seq_ok.mp h
    split at h
    · cases h
      rfl
    · cases h

theorem framebufferCase_fb (m : Memory) (t : Nat) (s : BootState) :
    (framebufferCase m t s).kboot.fb =
      if credible (framebufferOf m t) then framebufferOf m t else s.kboot.fb := by
  unfold framebufferCase
  split
  · rfl
  · rfl

/-- Only the two cases write the record. -/
theorem tagCase_fb (hspares : SparesFramebuffer behind) {t : Nat} {s s' : BootState}
    (h : tagCase m behind t s = .ok s') :
    s'.kboot.fb = if reachesFramebuffer m t && credible (framebufferOf m t) then framebufferOf m t
      else s.kboot.fb := by
  by_cases hreach : reachesFramebuffer m t = true
  · have hcase : s' = framebufferCase m t s := by
      unfold tagCase at h
      rcases of_decide_eq_true hreach with htype | htype
      · simp only [htype] at h
        exact (Except.ok.inj h).symm
      · simp only [htype] at h
        exact (Except.ok.inj h).symm
    rw [hcase, framebufferCase_fb, hreach, Bool.true_and]
  · have hfalse : reachesFramebuffer m t = false := by simpa using hreach
    have hnot := not_or.mp (of_decide_eq_false hfalse)
    rw [hfalse, Bool.false_and, if_neg Bool.false_ne_true]
    simp only [tagCase, hnot.1, hnot.2, if_false] at h
    split at h
    · exact orBehind_fb hspares (fun _ => cmdlineCase_fb) h
    split at h
    · exact orBehind_fb hspares (fun _ => memoryMapCase_fb) h
    split at h
    · cases h
      rfl
    split at h
    · exact acpiCase_fb h
    · cases h
      rfl

/-- What all of them do. -/
theorem tagCases_fb (hspares : SparesFramebuffer behind) {s s' : BootState}
    (h : tags.foldlM (fun s t => tagCase m behind t s) s = .ok s') :
    s'.kboot.fb = fieldsOr m s.kboot.fb (lastCredible m (reachesFramebuffer m) tags) := by
  induction tags generalizing s with
  | nil =>
      cases h
      rfl
  | cons t tags ih =>
      rw [List.foldlM_cons] at h
      obtain ⟨s₁, hcase, hrest⟩ := seq_ok.mp h
      rw [ih hrest, tagCase_fb hspares hcase, lastCredible_cons]

/-- The walk ends, whenever no tag stops it, with the fields of the last credible tag of the two
types. -/
theorem kmainTags_spec (h : TagList m start tags stop) (hspares : SparesFramebuffer behind)
    {fuel : Nat} (hfuel : tags.length ≤ fuel) :
    kmainTags m behind fuel start = kmainTags m behind tags.length start ∧
      ∀ at_ boot, kmainTags m behind fuel start = .ok (at_, boot) → at_ = stop ∧
        boot.kboot.fb = fieldsOr m ⟨0, 0, 0, 0, 0, 0⟩
          (lastCredible m (reachesFramebuffer m) tags) := by
  have hrun := tagLoop_spec behind h hfuel bootCleared
  refine ⟨hrun.trans (tagLoop_spec behind h (Nat.le_refl _) bootCleared).symm, fun at_ boot hok => ?_⟩
  obtain ⟨boot', hcases, hret⟩ := seq_ok.mp (hrun.symm.trans hok)
  cases hret
  exact ⟨rfl, tagCases_fb hspares hcases⟩

/-! ## What should decide the record

The framebuffer tags alone should. The two answers are the same when the last credible tag of the
two types is a framebuffer tag, or has the same fields; zeros are not credible, so having no such
tag is different from any.
-/

/-- The fields of the last credible framebuffer tag, or zeros. -/
def framebufferRecord (m : Memory) (tags : List Nat) : Framebuffer :=
  fieldsOr m ⟨0, 0, 0, 0, 0, 0⟩ (lastCredible m (isFramebuffer m) tags)

/-- The last credible tag of the two types is a framebuffer tag, or has its fields. -/
def NamesHarmless (m : Memory) (tags : List Nat) : Prop :=
  ∀ t, lastCredible m (reachesFramebuffer m) tags = some t →
    tagType m t = MULTIBOOT_TAG_TYPE_FRAMEBUFFER ∨
      ∃ t', lastCredible m (isFramebuffer m) tags = some t' ∧
        framebufferOf m t = framebufferOf m t'

theorem lastCredible_credible {kind : Nat → Bool} {t : Nat}
    (h : lastCredible m kind tags = some t) : t ∈ tags ∧ kind t = true ∧
      credible (framebufferOf m t) = true := by
  have hmem := List.mem_filter.mp (List.mem_of_getLast? h)
  exact ⟨hmem.1, Bool.and_eq_true_iff.mp hmem.2⟩

/-- Framebuffer tags are among those that reach the case. -/
theorem filter_framebuffer (m : Memory) (tags : List Nat) :
    (tags.filter fun t => isFramebuffer m t && credible (framebufferOf m t)) =
      (tags.filter fun t => reachesFramebuffer m t && credible (framebufferOf m t)).filter
        (isFramebuffer m) := by
  rw [List.filter_filter]
  apply List.filter_congr
  intro t _
  cases hkind : isFramebuffer m t with
  | false => simp
  | true =>
      have hreach : reachesFramebuffer m t = true :=
        decide_eq_true (.inl (of_decide_eq_true hkind))
      simp [hreach]

theorem lastCredible_framebuffer {t : Nat}
    (h : lastCredible m (reachesFramebuffer m) tags = some t)
    (htype : tagType m t = MULTIBOOT_TAG_TYPE_FRAMEBUFFER) :
    lastCredible m (isFramebuffer m) tags = some t := by
  obtain ⟨before, hsplit⟩ := List.getLast?_eq_some_iff.mp h
  have hkind : isFramebuffer m t = true := decide_eq_true htype
  rw [lastCredible, filter_framebuffer, hsplit, List.filter_append,
    List.filter_cons_of_pos hkind, List.filter_nil, List.getLast?_concat]

/-- A credible framebuffer is not all zero. -/
theorem credible_ne_zero {fb : Framebuffer} (h : credible fb = true) :
    fb ≠ ⟨0, 0, 0, 0, 0, 0⟩ := by
  rintro rfl
  exact Bool.false_ne_true h

theorem record_eq_iff (m : Memory) (tags : List Nat) :
    fieldsOr m ⟨0, 0, 0, 0, 0, 0⟩ (lastCredible m (reachesFramebuffer m) tags) =
      framebufferRecord m tags ↔ NamesHarmless m tags := by
  unfold framebufferRecord NamesHarmless
  cases hlast : lastCredible m (reachesFramebuffer m) tags with
  | none =>
      have hnone : lastCredible m (isFramebuffer m) tags = none := by
        rw [lastCredible, List.getLast?_eq_none_iff] at hlast ⊢
        rw [filter_framebuffer, hlast]
        rfl
      rw [hnone]
      exact iff_of_true rfl fun t ht => by cases ht
  | some t =>
      constructor
      · intro hsame t₁ ht₁
        obtain rfl := Option.some.inj ht₁
        refine .inr ?_
        cases hfb : lastCredible m (isFramebuffer m) tags with
        | none =>
            rw [hfb] at hsame
            exact absurd hsame (credible_ne_zero (lastCredible_credible hlast).2.2)
        | some t' =>
            rw [hfb] at hsame
            exact ⟨t', rfl, hsame⟩
      · intro hharmless
        rcases hharmless t rfl with htype | ⟨t', ht', hsame⟩
        · rw [lastCredible_framebuffer hlast htype]
        · rw [ht']
          exact hsame

/-! ## Two runs

The record of a run is a function of the last credible tag, and so two runs are compared by that. If
two memories have the same framebuffer tags, as far as `kmain` looks at them, and no name decides in
either, this is the same tag.
-/

/-- The last credible tags of the two types have the same fields, or neither list has one. -/
def SameRecord (m m' : Memory) (tags : List Nat) : Prop :=
  (lastCredible m (reachesFramebuffer m) tags).map (framebufferOf m) =
    (lastCredible m' (reachesFramebuffer m') tags).map (framebufferOf m')

theorem sameRecord_iff (m m' : Memory) (tags : List Nat) :
    fieldsOr m ⟨0, 0, 0, 0, 0, 0⟩ (lastCredible m (reachesFramebuffer m) tags) =
      fieldsOr m' ⟨0, 0, 0, 0, 0, 0⟩ (lastCredible m' (reachesFramebuffer m') tags) ↔
      SameRecord m m' tags := by
  unfold SameRecord
  cases hlast : lastCredible m (reachesFramebuffer m) tags with
  | none =>
      cases hlast' : lastCredible m' (reachesFramebuffer m') tags with
      | none =>
          rw [fieldsOr_none, fieldsOr_none, Option.map_none, Option.map_none]
          exact iff_of_true rfl rfl
      | some t' =>
          have hne := credible_ne_zero (lastCredible_credible hlast').2.2
          rw [fieldsOr_none, fieldsOr_some, Option.map_none, Option.map_some]
          exact iff_of_false (Ne.symm hne) (Option.some_ne_none _).symm
  | some t =>
      cases hlast' : lastCredible m' (reachesFramebuffer m') tags with
      | none =>
          have hne := credible_ne_zero (lastCredible_credible hlast).2.2
          rw [fieldsOr_none, fieldsOr_some, Option.map_none, Option.map_some]
          exact iff_of_false hne (Option.some_ne_none _)
      | some t' =>
          rw [fieldsOr_some, fieldsOr_some, Option.map_some, Option.map_some, Option.some_inj]

/-- How far into a framebuffer tag `kmain` looks: it stops at the first field that is not credible. -/
def framebufferRead (m : Memory) (t : Nat) : Nat :=
  let fb := framebufferOf m t
  if fb.addr = 0 ∨ 0x100000000000 < fb.addr then 16
  else if fb.w < 64 then 24
  else if fb.h < 64 then 28
  else 29

/-- The two memories have the same framebuffer tags, each with all of its fields that are looked at. -/
structure SameFramebuffers (m m' : Memory) (tags : List Nat) : Prop where
  kinds : ∀ t ∈ tags, isFramebuffer m t = isFramebuffer m' t
  full : ∀ t ∈ tags, isFramebuffer m t = true → framebufferRead m t ≤ tagSize m t
  bytes : ∀ t ∈ tags, isFramebuffer m t = true → ∀ x, x < tagSize m t → m (t + x) = m' (t + x)

/-- What is looked at decides whether the framebuffer is credible, and if it is, it is all. -/
theorem framebufferOf_congr {t : Nat}
    (h : ∀ x, x < framebufferRead m t → m (t + x) = m' (t + x)) :
    credible (framebufferOf m' t) = credible (framebufferOf m t) ∧
      (credible (framebufferOf m t) = true → framebufferOf m' t = framebufferOf m t) := by
  have hload (off n : Nat) (hoff : off + n ≤ framebufferRead m t) :
      load m' (t + off) n = load m (t + off) n := by
    apply load_congr
    intro x hlo hhi
    obtain ⟨y, rfl⟩ := Nat.exists_eq_add_of_le (by omega : t ≤ x)
    exact (h y (by omega)).symm
  have haddr : (framebufferOf m' t).addr = (framebufferOf m t).addr := by
    refine hload 8 8 ?_
    unfold framebufferRead
    grind
  -- the fields are compared in the order in which they are looked at, each if those before pass
  unfold framebufferRead at hload
  dsimp only at hload
  split at hload
  · next hbad =>
    have hfalse (m₁ : Memory) (heq : (framebufferOf m₁ t).addr = (framebufferOf m t).addr) :
        credible (framebufferOf m₁ t) = false := by
      simp only [credible, heq]
      grind
    rw [hfalse m' haddr, hfalse m rfl]
    exact ⟨rfl, fun h => absurd h Bool.false_ne_true⟩
  rename_i hgood
  split at hload
  · next hnarrow =>
    have hwidth : (framebufferOf m' t).w = (framebufferOf m t).w := hload 20 4 (by decide)
    have hfalse (m₁ : Memory) (heq : (framebufferOf m₁ t).w = (framebufferOf m t).w) :
        credible (framebufferOf m₁ t) = false := by
      simp only [credible, heq]
      grind
    rw [hfalse m' hwidth, hfalse m rfl]
    exact ⟨rfl, fun h => absurd h Bool.false_ne_true⟩
  rename_i hwide
  split at hload
  · next hlow =>
    have hheight : (framebufferOf m' t).h = (framebufferOf m t).h := hload 24 4 (by decide)
    have hfalse (m₁ : Memory) (heq : (framebufferOf m₁ t).h = (framebufferOf m t).h) :
        credible (framebufferOf m₁ t) = false := by
      simp only [credible, heq]
      grind
    rw [hfalse m' hheight, hfalse m rfl]
    exact ⟨rfl, fun h => absurd h Bool.false_ne_true⟩
  · have hsame : framebufferOf m' t = framebufferOf m t := by
      unfold framebufferOf
      rw [hload 8 8 (by decide), hload 16 4 (by decide), hload 20 4 (by decide),
        hload 24 4 (by decide), hload 28 1 (by decide)]
    rw [hsame]
    exact ⟨rfl, fun _ => rfl⟩

theorem SameFramebuffers.fields (h : SameFramebuffers m m' tags) {t : Nat} (ht : t ∈ tags)
    (hkind : isFramebuffer m t = true) :
    credible (framebufferOf m' t) = credible (framebufferOf m t) ∧
      (credible (framebufferOf m t) = true → framebufferOf m' t = framebufferOf m t) :=
  framebufferOf_congr fun x hx => h.bytes t ht hkind x (Nat.lt_of_lt_of_le hx (h.full t ht hkind))

theorem SameFramebuffers.record (h : SameFramebuffers m m' tags) :
    framebufferRecord m tags = framebufferRecord m' tags := by
  have hlast : lastCredible m (isFramebuffer m) tags = lastCredible m' (isFramebuffer m') tags := by
    unfold lastCredible
    congr 1
    apply List.filter_congr
    intro t ht
    rw [← h.kinds t ht]
    cases hkind : isFramebuffer m t with
    | false => simp only [Bool.false_and]
    | true => simp only [Bool.true_and, (h.fields ht hkind).1]
  unfold framebufferRecord
  rw [← hlast]
  cases hfb : lastCredible m (isFramebuffer m) tags with
  | none => rfl
  | some t =>
      obtain ⟨hmem, hkind, hcredible⟩ := lastCredible_credible hfb
      exact ((h.fields hmem hkind).2 hcredible).symm

/-- Equal framebuffer tags make equal records, if no name is taken for a later framebuffer. -/
theorem sameRecord_of_framebuffers (h : SameFramebuffers m m' tags) (hharmless : NamesHarmless m tags)
    (hharmless' : NamesHarmless m' tags) : SameRecord m m' tags := by
  rw [← sameRecord_iff, (record_eq_iff m tags).mpr hharmless, (record_eq_iff m' tags).mpr hharmless',
    h.record]

/-- A command line, the name of the boot loader, a framebuffer without an address, one of 640 by 480
pixels, a module, one of 1024 by 768 pixels, and the end tag. The digit is a character of the command
line, of the name and of the module's. -/
def usualBytes (digit : Nat) : List (List Nat) :=
  [[1, 0, 0, 0, 14, 0, 0, 0, 100, 98, 103, 61, digit, 0, 0, 0],
    [2, 0, 0, 0, 18, 0, 0, 0, 71, 82, 85, 66, 32, 50, 46, digit, 54, 0, 0, 0, 0, 0, 0, 0],
    [8, 0, 0, 0, 16, 0, 0, 0, 0, 0, 0, 0, 0, 0, 0, 0],
    [8, 0, 0, 0, 32, 0, 0, 0, 0, 0, 0, 0xFD, 0, 0, 0, 0, 0, 10, 0, 0, 128, 2, 0, 0, 224, 1, 0, 0,
      32, 1, 0, 0],
    [3, 0, 0, 0, 24, 0, 0, 0, 0, 0, 16, 0, 0, 0, 17, 0, 109, 111, 100, digit, 0, 0, 0, 0],
    [8, 0, 0, 0, 32, 0, 0, 0, 0, 0, 0, 0xE0, 0, 0, 0, 0, 0, 16, 0, 0, 0, 4, 0, 0, 0, 3, 0, 0,
      32, 1, 0, 0]]

/-- These tags, at 0. -/
def usualTags (digit : Nat) : Memory := fun x => BitVec.ofNat 8 ((usualBytes digit).flatten.getD x 0)

/-- The boot loader's name `GRUB`, and a module behind it that starts at 1 MiB. -/
def namedTags : Memory := fun x =>
  BitVec.ofNat 8 ([2, 0, 0, 0, 13, 0, 0, 0, 71, 82, 85, 66, 0, 0, 0, 0,
    3, 0, 0, 0, 64, 0, 0, 0, 0, 0, 16, 0].getD x 0)

/-- A framebuffer tag without fields, and a module behind it that ends at `top`. -/
def shortTags (top : Nat) : Memory := fun x =>
  BitVec.ofNat 8 ([8, 0, 0, 0, 8, 0, 0, 0, 3, 0, 0, 0, 64, 0, 0, 0, 0, 0, 0, 0, top, 0, 0, 0,
    77, 0, 0, 0].getD x 0)

end Twos.Boot
