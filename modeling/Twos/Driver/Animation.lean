import Twos.Driver.Framebuffer
import Twos.Lib.Stores

/-!
# What is on the screen

The loop that `kmain` ends in draws one frame after the other, each with the colours one step further.
`cycle` is a byte, but it goes back to 0 from 255 already, so that there are 255 frames and not 256. A
pixel is stored only where a page has been mapped, and `virtmem_init` maps four pages for the
framebuffer. As long as the pixels lie in these, and the rows do not overlap, the screen shows the last
frame and nothing of the ones before, and nothing else is written.

* **One frame** (`showFrame_spec`): no pixel is stored over another (`drawPattern_apart`) and all of
  them are within reach (`covers_pixel`), so each holds its own colour when the frame is done.
* **All frames** (`animation_shown`): by induction on their number, with `Shown` as what is known
  after each of them.
-/

namespace Twos.Driver

open Lib Boot

variable {fb : Framebuffer} {m : Memory} {n x y : Nat}

/-! ## The loop -/

/-- The stores of a pattern, one after the other. The first that is out of reach is a page fault. -/
def drawStores (s : Space) (stores : List (Nat × Nat)) : Except Stop Space :=
  stores.foldlM (fun s w => do
    s.touch w.1 4
    .ok { s with mem := store s.mem w.1 4 w.2 }) s

/-- Memory, and `cycle`. -/
structure Show where
  space : Space
  cycle : Nat

/-- One iteration of the loop at the end of `kmain`, after its `usleep`. -/
def showFrame (fb : Framebuffer) (s : Show) : Except Stop Show := do
  let space ← drawStores s.space (framebufferDisplayAnimatedPattern fb s.cycle)
  let cycle := (s.cycle + 1) % 256
  .ok ⟨space, if cycle ≥ 255 then 0 else cycle⟩

/-- The first `n` iterations. -/
def showFrames (fb : Framebuffer) (s : Space) : Nat → Except Stop Show
  | 0 => .ok ⟨s, 0⟩
  | n + 1 => do
      let shown ← showFrames fb s n
      showFrame fb shown

/-- Stores within reach are all made. -/
theorem drawStores_inside {stores : List (Nat × Nat)} {s : Space}
    (h : ∀ w ∈ stores, s.Covers w.1 4) :
    drawStores s stores = .ok { s with mem := storeAll 4 s.mem stores } := by
  induction stores generalizing s with
  | nil => rfl
  | cons w stores ih =>
      obtain ⟨hfirst, hrest⟩ := List.forall_mem_cons.mp h
      have htouch : s.touch w.1 4 = .ok () := if_pos hfirst
      rw [drawStores, List.foldlM_cons, htouch, ok_seq, ok_seq]
      exact ih hrest

theorem showFrame_inside {s : Show}
    (h : ∀ w ∈ framebufferDisplayAnimatedPattern fb s.cycle, s.space.Covers w.1 4) :
    showFrame fb s = .ok
      ⟨{ s.space with mem := storeAll 4 s.space.mem (framebufferDisplayAnimatedPattern fb s.cycle) },
        if (s.cycle + 1) % 256 ≥ 255 then 0 else (s.cycle + 1) % 256⟩ := by
  rw [showFrame, drawStores_inside h]
  rfl

/-! ## Pixels -/

/-- Where the rows do not overlap, the pixels are one behind the other. -/
theorem pixelAddr_lt (haccepted : Accepted fb) (hrows : fb.w ≤ fb.pitch / 4) {y' x' : Nat}
    (hy' : y' < fb.h) (hx : x < fb.w) (hx' : x' < fb.w) (hbefore : y < y' ∨ (y = y' ∧ x < x')) :
    pixelAddr fb y x + 4 ≤ pixelAddr fb y' x' := by
  have hsize : 4 * words fb < PAGE_SIZE * 4 := by
    have hwords : words fb ≤ (fb.h - 1) * (fb.pitch / 4) + fb.pitch / 4 := Nat.add_le_add_left hrows _
    have hall : (fb.h - 1) * (fb.pitch / 4) + fb.pitch / 4 = fb.h * (fb.pitch / 4) := by
      rw [← Nat.succ_mul, Nat.succ_eq_add_one, Nat.sub_add_cancel (by omega)]
    have hpitch : fb.h * (fb.pitch / 4 * 4) ≤ fb.h * fb.pitch :=
      Nat.mul_le_mul_left _ (Nat.div_mul_le_self _ _)
    have := haccepted.size
    rw [← Nat.mul_assoc] at hpitch
    omega
  have hy : y < fb.h := by omega
  rw [(pixelAddr_eq hsize hy hx).1, (pixelAddr_eq hsize hy' hx').1]
  rcases hbefore with hrow | ⟨rfl, hcolumn⟩
  · have hnext : (y + 1) * (fb.pitch / 4) ≤ y' * (fb.pitch / 4) := Nat.mul_le_mul_right _ hrow
    rw [Nat.succ_mul] at hnext
    omega
  · omega

/-- The pixels lie in the four pages of the framebuffer. -/
theorem covers_pixel (haccepted : Accepted fb) (hptr : fb.ptr = fb.addr)
    (hpages : fb.addr % PAGE_SIZE + 4 * words fb ≤ 4 * PAGE_SIZE) {s : Space}
    (hmapped : ∀ page ∈ fbPages fb, s.mapped (page / PAGE_SIZE) = true) (hy : y < fb.h)
    (hx : x < fb.w) : s.Covers (pixelAddr fb y x) 4 := by
  have hwords : 4 * words fb ≤ PAGE_SIZE * 4 := by omega
  have hlt : y * (fb.pitch / 4) + x < words fb := by
    have hrow : y * (fb.pitch / 4) ≤ (fb.h - 1) * (fb.pitch / 4) := row_le hy
    unfold words
    omega
  rw [pixelAddr, hptr, Nat.mod_eq_of_lt (by lia)]
  generalize y * (fb.pitch / 4) + x = i at hlt
  intro byte hbyte
  have hsplit := Nat.div_add_mod fb.addr PAGE_SIZE
  -- the page of this byte, counted from the first
  obtain ⟨k, hk⟩ := Nat.exists_eq_add_of_le
    (Nat.div_le_div_right (c := PAGE_SIZE) (show fb.addr ≤ fb.addr + 4 * i + byte by omega))
  have hfour : k < 4 := by lia
  have hpage := hmapped _ ((mem_fbPages haccepted.addr _).mpr ⟨k, hfour, rfl⟩)
  rwa [Nat.mul_div_cancel _ (by decide), ← hk] at hpage

theorem drawPattern_apart (haccepted : Accepted fb) (hrows : fb.w ≤ fb.pitch / 4) (hueOf : Nat → Nat) :
    (drawPattern fb hueOf).Pairwise (Apart 4) := by
  rw [drawPattern, List.pairwise_flatMap]
  constructor
  · intro y hy
    rw [List.pairwise_map]
    apply List.Pairwise.imp_of_mem _ List.pairwise_lt_range
    intro x x' hx hx' hlt
    exact .inl (pixelAddr_lt haccepted hrows (List.mem_range.mp hy) (List.mem_range.mp hx)
      (List.mem_range.mp hx') (.inr ⟨rfl, hlt⟩))
  · apply List.Pairwise.imp_of_mem _ List.pairwise_lt_range
    intro y y' hy hy' hlt w hw w' hw'
    obtain ⟨x, hx, rfl⟩ := List.mem_map.mp hw
    obtain ⟨x', hx', rfl⟩ := List.mem_map.mp hw'
    exact .inl (pixelAddr_lt haccepted hrows (List.mem_range.mp hy') (List.mem_range.mp hx)
      (List.mem_range.mp hx') (.inl hlt))

/-! ## Colours -/

/-- A colour without white and without black in it: one component is full and one is nothing. -/
def Vivid (color : Nat) : Prop :=
  color < 2 ^ 24 ∧
    (color / 2 ^ 16 = 255 ∨ color / 2 ^ 8 % 256 = 255 ∨ color % 256 = 255) ∧
    (color / 2 ^ 16 = 0 ∨ color / 2 ^ 8 % 256 = 0 ∨ color % 256 = 0)

instance (color : Nat) : Decidable (Vivid color) := inferInstanceAs (Decidable (_ ∧ _ ∧ _))

theorem colorOf_vivid {hue : Nat} (hhue : hue < 256) : Vivid (colorOf hue) := by
  have hall : ∀ hue, hue < 256 → Vivid (colorOf hue) := by decide +kernel
  exact hall hue hhue

/-- The hue of a column goes once round the colours. -/
theorem hue_eq (haccepted : Accepted fb) (hrows : fb.w ≤ fb.pitch / 4) (hx : x < fb.w) {cycle : Nat}
    (hcycle : cycle < 256) :
    (baseHue fb x + cycle) % 2 ^ 16 % 256 = (x * 256 / fb.w + cycle) % 256 := by
  have hh := haccepted.h
  have hsize := haccepted.size
  have hpitch : 64 * fb.pitch ≤ fb.h * fb.pitch := Nat.mul_le_mul_right _ hh
  have hnowrap : x * 256 < 2 ^ 32 := by lia
  have hbyte : x * 256 / fb.w < 256 := by
    rw [Nat.div_lt_iff_lt_mul (by omega), Nat.mul_comm]
    exact Nat.mul_lt_mul_of_pos_left hx (by decide)
  rw [baseHue, Nat.mod_eq_of_lt hnowrap, Nat.mod_eq_of_lt (by omega : _ < 2 ^ 16)]

/-! ## Frames

Each frame draws all pixels, so the screen after `n` frames is the last pattern, whatever the ones
before were. Whether drawing stays in mapped pages is a matter of the framebuffer, and not of the
frame.
-/

/-- What is known after `n` frames: the last of them is on the screen, if there is one, and beside the
pixels memory is as it was. -/
structure Shown (fb : Framebuffer) (s : Space) (n : Nat) (shown : Show) : Prop where
  cycle : shown.cycle = n % 255
  mapped : shown.space.mapped = s.mapped
  screen : ∀ last, n = last + 1 → ∀ y, y < fb.h → ∀ x, x < fb.w →
    load shown.space.mem (pixelAddr fb y x) 4 = colorOf ((x * 256 / fb.w + last % 255) % 256)
  outside : ∀ a, (∀ y, y < fb.h → ∀ x, x < fb.w → a < pixelAddr fb y x ∨ pixelAddr fb y x + 4 ≤ a) →
    shown.space.mem a = s.mem a

/-- A frame is drawn over the ones before. -/
theorem showFrame_spec (haccepted : Accepted fb) (hrows : fb.w ≤ fb.pitch / 4) {s : Space}
    (hreach : ∀ y, y < fb.h → ∀ x, x < fb.w → s.Covers (pixelAddr fb y x) 4) {shown : Show}
    (h : Shown fb s n shown) :
    ∃ next, showFrame fb shown = .ok next ∧ Shown fb s (n + 1) next := by
  have hcycle : shown.cycle < 256 := by
    have := h.cycle
    omega
  -- the pixels of this frame are within reach, since a frame changes no mapping
  have hcovered : ∀ w ∈ framebufferDisplayAnimatedPattern fb shown.cycle,
      shown.space.Covers w.1 4 := by
    refine drawPattern_all (P := fun a => shown.space.Covers a 4).mpr fun y hy x hx => ?_
    rw [Space.Covers, h.mapped]
    exact hreach y hy x hx
  refine ⟨_, showFrame_inside hcovered, ?_, h.mapped, ?_, ?_⟩
  · -- the next colour, or the first one again
    have := h.cycle
    dsimp only
    split
    · omega
    · omega
  · -- a pixel: its store is one of the frame, and no other one of the frame touches it
    intro last hlast y hy x hx
    obtain rfl := Nat.succ.inj hlast
    have hhue : (x * 256 / fb.w + shown.cycle) % 256 < 256 := Nat.mod_lt _ (by decide)
    have hstored : (pixelAddr fb y x, colorOf ((x * 256 / fb.w + shown.cycle) % 256)) ∈
        framebufferDisplayAnimatedPattern fb shown.cycle := by
      rw [framebufferDisplayAnimatedPattern, drawPattern]
      simp only [List.mem_flatMap, List.mem_map, List.mem_range]
      refine ⟨y, hy, x, hx, ?_⟩
      rw [hue_eq haccepted hrows hx hcycle]
    have hword : colorOf ((x * 256 / fb.w + shown.cycle) % 256) < 256 ^ 4 :=
      Nat.lt_trans (colorOf_vivid hhue).1 (by decide)
    rw [← h.cycle]
    exact load_storeAll (drawPattern_apart haccepted hrows _) hstored hword
  · -- outside the pixels everything is as it was
    intro a ha
    rw [← h.outside a ha]
    exact storeAll_outside (drawPattern_all (P := fun p => a < p ∨ p + 4 ≤ a).mpr ha)

/-- For every framebuffer that `kmain` and `virtmem_init` accept, whose pixels lie in the pages that are
mapped for it and whose rows do not overlap: every frame is drawn without a fault, and after frame `n`
the screen shows the colours once round, `n` steps on, with 255 steps to a turn; every pixel is of a full
colour; and nothing beside the pixels has been written since the loop began. -/
theorem animation_shown {tag : Nat} {pages : List Nat} {info : Memory}
    (hcredible : credible (framebufferOf info tag) = true)
    (hinit : virtmemInitFramebuffer (framebufferOf info tag) = .ok (pages, fb))
    (hpages : fb.addr % PAGE_SIZE + 4 * words fb ≤ 4 * PAGE_SIZE) (hrows : fb.w ≤ fb.pitch / 4)
    (s : Space) (hmapped : ∀ page ∈ pages, s.mapped (page / PAGE_SIZE) = true) (n : Nat) :
    ∃ shown, showFrames fb s (n + 1) = .ok shown ∧
      (∀ y, y < fb.h → ∀ x, x < fb.w →
        load shown.space.mem (pixelAddr fb y x) 4 =
            colorOf ((x * 256 / fb.w + n % 255) % 256) ∧
          Vivid (load shown.space.mem (pixelAddr fb y x) 4)) ∧
      ∀ a, (∀ y, y < fb.h → ∀ x, x < fb.w → a < pixelAddr fb y x ∨ pixelAddr fb y x + 4 ≤ a) →
        shown.space.mem a = s.mem a := by
  obtain ⟨haccepted, rfl, hptr⟩ := accepted_of hcredible hinit
  have hreach (y : Nat) (hy : y < fb.h) (x : Nat) (hx : x < fb.w) : s.Covers (pixelAddr fb y x) 4 :=
    covers_pixel haccepted hptr hpages hmapped hy hx
  have hframes (k : Nat) : ∃ shown, showFrames fb s k = .ok shown ∧ Shown fb s k shown := by
    induction k with
    | zero => exact ⟨_, rfl, rfl, rfl, fun last hlast => (by cases hlast), fun a _ => rfl⟩
    | succ k ih =>
        obtain ⟨shown, hrun, hshown⟩ := ih
        obtain ⟨next, hframe, hnext⟩ := showFrame_spec haccepted hrows hreach hshown
        exact ⟨next, by rw [showFrames, hrun, ok_seq, hframe], hnext⟩
  obtain ⟨shown, hrun, hshown⟩ := hframes (n + 1)
  refine ⟨shown, hrun, fun y hy x hx => ?_, hshown.outside⟩
  have hpixel := hshown.screen n rfl y hy x hx
  refine ⟨hpixel, ?_⟩
  rw [hpixel]
  exact colorOf_vivid (Nat.mod_lt _ (by decide))

/-- In the usual mode, from memory that is all zero and has the four pages only. -/
theorem animation_shown_usual : ∃ fb shown,
    virtmemInitFramebuffer (framebufferOf (modeTag 0xE0000000 1024 768 4096 32) 0) =
        .ok (fbPages fb, fb) ∧
      showFrames fb ⟨fun _ => 0, fun p => (fbPages fb).any fun page => page / PAGE_SIZE == p⟩ 301 =
        .ok shown ∧
      (∀ y, y < 768 → ∀ x, x < 1024 →
        load shown.space.mem (pixelAddr fb y x) 4 = colorOf ((x * 256 / 1024 + 300 % 255) % 256)) ∧
      ∀ a, (∀ y, y < 768 → ∀ x, x < 1024 → a < pixelAddr fb y x ∨ pixelAddr fb y x + 4 ≤ a) →
        shown.space.mem a = 0 := by
  have hfields : framebufferOf (modeTag 0xE0000000 1024 768 4096 32) 0 =
      ⟨0, 0xE0000000, 1024, 768, 4096, 32⟩ := by decide +kernel
  have hcredible : credible (framebufferOf (modeTag 0xE0000000 1024 768 4096 32) 0) = true := by
    rw [hfields]
    decide
  let fb : Framebuffer := ⟨0xE0000000, 0xE0000000, 1024, 768, 4096, 32⟩
  have hinit : virtmemInitFramebuffer (framebufferOf (modeTag 0xE0000000 1024 768 4096 32) 0) =
      .ok (fbPages fb, fb) := by
    rw [hfields]
    rfl
  have hmapped : ∀ page ∈ fbPages fb,
      ((fbPages fb).any fun page' => page' / PAGE_SIZE == page / PAGE_SIZE) = true := by decide
  obtain ⟨shown, hrun, hscreen, houtside⟩ := animation_shown hcredible hinit (by decide) (by decide)
    ⟨fun _ => 0, fun p => (fbPages fb).any fun page => page / PAGE_SIZE == p⟩ hmapped 300
  exact ⟨fb, shown, hinit, hrun, fun y hy x hx => (hscreen y hy x hx).1, houtside⟩

end Twos.Driver
