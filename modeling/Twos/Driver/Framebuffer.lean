import Twos.Boot.Kmain

/-!
# Drawing

`framebuffer.h`, and the part of `virtmem_init` that maps the framebuffer. Both patterns store one
word for every pixel, at an index that is computed in 32 bits. The stores stay within the framebuffer
and its four pages for the modes in which the last pixel does, and no pixel lies across the border of
two pages.

That is `Drawable`, a condition on the fields alone. It is enough since no index wraps and the pages
are those behind the address (`inside_of_drawable`), and it is needed: the first row bounds the width,
with that the last pixel has the largest index, and a border that a pixel may lie across is one of
three (`drawable_of_inside`). `patterns_inside_iff` says it of what the code has accepted.
-/

namespace Twos.Driver

open Lib Boot

/-! ## Mapping -/

/-- What `virtmem_init` asserts of the framebuffer. -/
def fbSizeAsserted (fb : Framebuffer) : Bool := decide (fb.h * fb.pitch % WORD < PAGE_SIZE * 4)

/-- The pages that `virtmem_init` maps to themselves. -/
def fbPages (fb : Framebuffer) : List Nat :=
  (List.range 4).map fun i => pageAlign ((fb.addr + i * PAGE_SIZE) % WORD)

/-- The part of `virtmem_init` that has to do with the framebuffer: the pages, and the record with
its pointer. -/
def virtmemInitFramebuffer (fb : Framebuffer) : Except Fault (List Nat × Framebuffer) := do
  assert (fbSizeAsserted fb) "fb_size < (PAGE_SIZE * 4)"
  .ok (fbPages fb, { fb with ptr := fb.addr })

/-! ## The patterns -/

/-- `HSVtoRGB`: red, green and blue. -/
def HSVtoRGB (h s v : Nat) : Nat × Nat × Nat :=
  if s = 0 then (v, v, v)
  else
    let region := h / 43 % 256
    let remainder := (h - region * 43) * 6 % 256
    let p := v * (255 - s) / 256 % 256
    let q := v * (255 - s * remainder / 256) / 256 % 256
    let t := v * (255 - s * (255 - remainder) / 256) / 256 % 256
    match region with
    | 0 => (v, t, p)
    | 1 => (q, v, p)
    | 2 => (p, v, t)
    | 3 => (p, q, v)
    | 4 => (t, p, v)
    | _ => (v, p, q)

/-- `color`. -/
def colorOf (hue : Nat) : Nat :=
  let (r, g, b) := HSVtoRGB hue 255 255
  r * 2 ^ 16 ||| g * 2 ^ 8 ||| b

/-- `&framebuffer[y * (pitch / 4) + x]`. -/
def pixelAddr (fb : Framebuffer) (y x : Nat) : Nat :=
  fb.ptr + 4 * ((y * (fb.pitch / 4) + x) % 2 ^ 32)

/-- The two loops, with the hue of a column: every store, by address and value. The counters are
compared with the sizes as unsigned numbers. -/
def drawPattern (fb : Framebuffer) (hueOf : Nat → Nat) : List (Nat × Nat) :=
  (List.range fb.h).flatMap fun y =>
    (List.range fb.w).map fun x => (pixelAddr fb y x, colorOf (hueOf x))

/-- `x * 256 / width`, in 32 bits. -/
def baseHue (fb : Framebuffer) (x : Nat) : Nat := x * 256 % 2 ^ 32 / fb.w

/-- `framebuffer_display_test_pattern`. -/
def framebufferDisplayTestPattern (fb : Framebuffer) : List (Nat × Nat) :=
  drawPattern fb fun x => baseHue fb x % 2 ^ 16

/-- `framebuffer_display_animated_pattern`. -/
def framebufferDisplayAnimatedPattern (fb : Framebuffer) (cycle : Nat) : List (Nat × Nat) :=
  drawPattern fb fun x => (baseHue fb x + cycle) % 2 ^ 16 % 256

/-! ## Where the stores are -/

/-- The four bytes from an address on are in the framebuffer, and in one of these pages. -/
structure Inside (fb : Framebuffer) (pages : List Nat) (a : Nat) : Prop where
  framebuffer : fb.addr ≤ a ∧ a + 4 ≤ fb.addr + fb.h * fb.pitch
  page : ∃ page ∈ pages, page ≤ a ∧ a + 4 ≤ page + PAGE_SIZE

/-- The words from the first pixel to the last. -/
def words (fb : Framebuffer) : Nat := (fb.h - 1) * (fb.pitch / 4) + fb.w

/-- A word belongs to a pixel. -/
def IsPixel (fb : Framebuffer) (i : Nat) : Prop :=
  ∃ y, y < fb.h ∧ y * (fb.pitch / 4) ≤ i ∧ i < y * (fb.pitch / 4) + fb.w

/-- The modes that can be drawn: the last pixel is in the framebuffer and in the four pages, and
where a word lies across a border of two of them, it belongs to no pixel. -/
structure Drawable (fb : Framebuffer) : Prop where
  last : 4 * words fb ≤ fb.h * fb.pitch
  pages : fb.addr % PAGE_SIZE + 4 * words fb ≤ 4 * PAGE_SIZE
  borders : 4 ∣ fb.addr ∨
    ∀ k, 1 ≤ k → k ≤ 3 → ¬ IsPixel fb ((k * PAGE_SIZE - fb.addr % PAGE_SIZE) / 4)

/-! ## Pages -/

/-- The four pages lie side by side, from the one that the framebuffer starts in on. -/
theorem mem_fbPages {fb : Framebuffer} (haddr : fb.addr ≤ 0x100000000000) (page : Nat) :
    page ∈ fbPages fb ↔ ∃ i, i < 4 ∧ page = (fb.addr / PAGE_SIZE + i) * PAGE_SIZE := by
  have halign (i : Nat) (hi : i < 4) : pageAlign ((fb.addr + i * PAGE_SIZE) % WORD) =
      (fb.addr / PAGE_SIZE + i) * PAGE_SIZE := by
    have hlt : fb.addr + i * PAGE_SIZE < WORD := by lia
    rw [Nat.mod_eq_of_lt hlt, pageAlign_eq hlt, Nat.add_mul_div_right _ _ (by decide)]
  simp only [fbPages, List.mem_map, List.mem_range]
  constructor
  · rintro ⟨i, hi, rfl⟩
    exact ⟨i, hi, halign i hi⟩
  · rintro ⟨i, hi, rfl⟩
    exact ⟨i, hi, halign i hi⟩

/-- Being in one of four pages, by the offset from the first of them. -/
theorem inPages_iff {fb : Framebuffer} (haddr : fb.addr ≤ 0x100000000000) (i : Nat) :
    (∃ page ∈ fbPages fb, page ≤ fb.addr + 4 * i ∧ fb.addr + 4 * i + 4 ≤ page + PAGE_SIZE) ↔
      ∃ j, j < 4 ∧ j * PAGE_SIZE ≤ fb.addr % PAGE_SIZE + 4 * i ∧
        fb.addr % PAGE_SIZE + 4 * i + 4 ≤ (j + 1) * PAGE_SIZE := by
  have hsplit := Nat.div_add_mod fb.addr PAGE_SIZE
  simp only [mem_fbPages haddr]
  generalize fb.addr / PAGE_SIZE = q at hsplit
  generalize fb.addr % PAGE_SIZE = off at hsplit
  constructor
  · rintro ⟨page, ⟨j, hj, rfl⟩, hlo, hhi⟩
    exact ⟨j, hj, by lia, by lia⟩
  · rintro ⟨j, hj, hlo, hhi⟩
    exact ⟨(q + j) * PAGE_SIZE, ⟨j, hj, rfl⟩, by lia, by lia⟩

/-! ## Pixels

The index of a pixel is computed in 32 bits and wraps for large modes. In a mode that can be drawn
no index does, so that all pixels lie between the first and the last of them; and where all of them
are inside, the last one bounds the others.
-/

variable {fb : Framebuffer}

/-- What holds of every mode that gets as far as being drawn. -/
structure Accepted (fb : Framebuffer) : Prop where
  addr : fb.addr ≤ 0x100000000000
  w : 64 ≤ fb.w ∧ fb.w < 2 ^ 32
  h : 64 ≤ fb.h
  size : fb.h * fb.pitch < PAGE_SIZE * 4

theorem Accepted.rows (h : Accepted fb) {y : Nat} (hy : y < fb.h) :
    4 * (y * (fb.pitch / 4)) < PAGE_SIZE * 4 := by
  have hrow : y * (fb.pitch / 4 * 4) ≤ fb.h * fb.pitch :=
    Nat.mul_le_mul (Nat.le_of_lt hy) (Nat.div_mul_le_self _ _)
  have := h.size
  rw [← Nat.mul_assoc] at hrow
  lia

/-- The row of a pixel is at most the last. -/
theorem row_le {y : Nat} (hy : y < fb.h) :
    y * (fb.pitch / 4) ≤ (fb.h - 1) * (fb.pitch / 4) :=
  Nat.mul_le_mul_right _ (Nat.le_sub_one_of_lt hy)

/-- All stores of a pattern, by the index of the pixel. -/
theorem drawPattern_all {P : Nat → Prop} {hueOf : Nat → Nat} :
    (∀ s ∈ drawPattern fb hueOf, P s.1) ↔
      ∀ y, y < fb.h → ∀ x, x < fb.w → P (pixelAddr fb y x) := by
  simp only [drawPattern, List.mem_flatMap, List.mem_map, List.mem_range]
  constructor
  · intro hall y hy x hx
    exact hall _ ⟨y, hy, x, hx, rfl⟩
  · rintro hall _ ⟨y, hy, x, hx, rfl⟩
    exact hall y hy x hx

/-- In a mode that can be drawn the index does not wrap. -/
theorem pixelAddr_eq (hsize : 4 * words fb < PAGE_SIZE * 4) {y x : Nat} (hy : y < fb.h)
    (hx : x < fb.w) : pixelAddr fb y x = fb.ptr + 4 * (y * (fb.pitch / 4) + x) ∧
      y * (fb.pitch / 4) + x < words fb := by
  have hrow := row_le hy
  have hlt : y * (fb.pitch / 4) + x < words fb := by
    unfold words
    omega
  rw [pixelAddr, Nat.mod_eq_of_lt (by lia)]
  exact ⟨rfl, hlt⟩

/-- In a mode that can be drawn every pixel is inside. -/
theorem inside_of_drawable (h : Accepted fb) (hdraw : Drawable fb) (hptr : fb.ptr = fb.addr)
    {y x : Nat} (hy : y < fb.h) (hx : x < fb.w) : Inside fb (fbPages fb) (pixelAddr fb y x) := by
  have hsize := h.size
  have hlast := hdraw.last
  obtain ⟨haddr, hlt⟩ := pixelAddr_eq (Nat.lt_of_le_of_lt hlast hsize) hy hx
  rw [haddr, hptr]
  refine ⟨⟨by omega, by omega⟩, (inPages_iff h.addr _).mpr ?_⟩
  have hpages := hdraw.pages
  have hpixel : IsPixel fb (y * (fb.pitch / 4) + x) := ⟨y, hy, by omega, by omega⟩
  generalize y * (fb.pitch / 4) + x = i at hlt hpixel
  have hsplit := Nat.div_add_mod fb.addr PAGE_SIZE
  have hoff : fb.addr % PAGE_SIZE < PAGE_SIZE := Nat.mod_lt _ (by decide)
  have hborders := hdraw.borders
  generalize fb.addr % PAGE_SIZE = off at hsplit hoff hpages hborders
  obtain ⟨j, hlo, hhi⟩ : ∃ j, j * PAGE_SIZE ≤ off + 4 * i ∧ off + 4 * i < (j + 1) * PAGE_SIZE := by
    refine ⟨(off + 4 * i) / PAGE_SIZE, Nat.div_mul_le_self _ _, ?_⟩
    exact Nat.lt_of_lt_of_eq (Nat.lt_mul_div_succ (off + 4 * i) (by decide : 0 < PAGE_SIZE))
      (Nat.mul_comm _ _)
  refine ⟨j, by lia, hlo, Nat.le_of_not_lt fun hacross => ?_⟩
  rcases hborders with hfour | hborder
  · lia
  · -- the word that lies across border `j + 1` is the one of this pixel
    have hword : ((j + 1) * PAGE_SIZE - off) / 4 = i := by lia
    exact hborder (j + 1) (by omega) (by lia) (hword ▸ hpixel)

/-- If all pixels are inside, the mode can be drawn. -/
theorem drawable_of_inside (h : Accepted fb) (hptr : fb.ptr = fb.addr)
    (hin : ∀ y, y < fb.h → ∀ x, x < fb.w → Inside fb (fbPages fb) (pixelAddr fb y x)) :
    Drawable fb := by
  have hw := h.w
  have hh := h.h
  have hsize := h.size
  -- the first row is short, so that no index wraps
  have hrow : 4 * fb.w ≤ fb.h * fb.pitch := by
    have hfirst := (hin 0 (by omega) (fb.w - 1) (by omega)).framebuffer.2
    rw [pixelAddr, hptr, Nat.zero_mul, Nat.zero_add, Nat.mod_eq_of_lt (by omega)] at hfirst
    omega
  have hlastRow := h.rows (by omega : fb.h - 1 < fb.h)
  have hlastPixel : (fb.h - 1) * (fb.pitch / 4) + (fb.w - 1) + 1 = words fb := by
    unfold words
    omega
  have haddr {y x : Nat} (hy : y < fb.h) (hx : x < fb.w) :
      pixelAddr fb y x = fb.addr + 4 * (y * (fb.pitch / 4) + x) := by
    have : y * (fb.pitch / 4) ≤ (fb.h - 1) * (fb.pitch / 4) := row_le hy
    rw [pixelAddr, hptr, Nat.mod_eq_of_lt (by lia)]
  have hlast := hin (fb.h - 1) (by omega) (fb.w - 1) (by omega)
  rw [haddr (by omega) (by omega)] at hlast
  obtain ⟨j, hj, -, htop⟩ := (inPages_iff h.addr _).mp hlast.page
  refine ⟨?_, by lia, ?_⟩
  · -- the last pixel ends inside the framebuffer
    have := hlast.framebuffer.2
    omega
  · -- if it is not in the fourth page at the latest, the borders between the pages matter
    apply Decidable.or_iff_not_imp_left.mpr
    rintro hfour k hk hk3 ⟨y, hy, hlo, hhi⟩
    -- the pixel whose word lies across border `k`
    obtain ⟨x, hx⟩ := Nat.exists_eq_add_of_le hlo
    have hpixel := hin y hy x (by omega)
    rw [haddr hy (by omega), ← hx] at hpixel
    obtain ⟨j, hj, hlo, hhi⟩ := (inPages_iff h.addr _).mp hpixel.page
    -- its page ends at the border, in the middle of the word
    have hsplit := Nat.div_add_mod fb.addr PAGE_SIZE
    have hoff : fb.addr % PAGE_SIZE < PAGE_SIZE := Nat.mod_lt _ (by decide)
    generalize fb.addr % PAGE_SIZE = off at hsplit hoff hlo hhi
    have hacross : off + 4 * ((k * PAGE_SIZE - off) / 4) < k * PAGE_SIZE ∧
        k * PAGE_SIZE < off + 4 * ((k * PAGE_SIZE - off) / 4) + 4 := by
      constructor
      · lia
      · lia
    have hbelow : j < k := by lia
    have habove : k < j + 1 := by lia
    omega

/-- What `kmain` and `virtmem_init` let through. -/
theorem accepted_of {m : Memory} {tag : Nat} (hcredible : credible (framebufferOf m tag) = true)
    {pages : List Nat} (hinit : virtmemInitFramebuffer (framebufferOf m tag) = .ok (pages, fb)) :
    Accepted fb ∧ pages = fbPages fb ∧ fb.ptr = fb.addr := by
  obtain ⟨-, haddr, hw, hh⟩ := of_decide_eq_true hcredible
  obtain ⟨_, hassert, hret⟩ := seq_ok.mp hinit
  obtain ⟨rfl, rfl⟩ := Prod.mk.inj (Except.ok.inj hret)
  have hwidth : (framebufferOf m tag).w < 2 ^ 32 := load_lt m (tag + 20) 4
  have hheight : (framebufferOf m tag).h < 2 ^ 32 := load_lt m (tag + 24) 4
  have hpitch : (framebufferOf m tag).pitch < 2 ^ 32 := load_lt m (tag + 16) 4
  generalize framebufferOf m tag = fb at *
  have hword : fb.h * fb.pitch < WORD := by
    calc fb.h * fb.pitch < 2 ^ 32 * 2 ^ 32 := Nat.mul_lt_mul'' hheight hpitch
      _ = WORD := by decide
  have hsize : fbSizeAsserted fb = true := by
    unfold assert at hassert
    split at hassert
    · next h => exact h
    · cases hassert
  have hsize := of_decide_eq_true hsize
  rw [Nat.mod_eq_of_lt hword] at hsize
  exact ⟨⟨haddr, ⟨hw, hwidth⟩, hh, hsize⟩, rfl, rfl⟩

/-- For every framebuffer that `kmain` and `virtmem_init` accept, both patterns stay inside of it
and of its pages if and only if the mode can be drawn. -/
theorem patterns_inside_iff {m : Memory} {tag : Nat} {pages : List Nat}
    (hcredible : credible (framebufferOf m tag) = true)
    (hinit : virtmemInitFramebuffer (framebufferOf m tag) = .ok (pages, fb)) :
    ((∀ s ∈ framebufferDisplayTestPattern fb, Inside fb pages s.1) ∧
        ∀ cycle, ∀ s ∈ framebufferDisplayAnimatedPattern fb cycle, Inside fb pages s.1) ↔
      Drawable fb := by
  obtain ⟨haccepted, rfl, hptr⟩ := accepted_of hcredible hinit
  unfold framebufferDisplayTestPattern framebufferDisplayAnimatedPattern
  constructor
  · rintro ⟨htest, -⟩
    exact drawable_of_inside haccepted hptr (drawPattern_all.mp htest)
  · intro hdraw
    have hall := fun y (hy : y < fb.h) x (hx : x < fb.w) =>
      inside_of_drawable haccepted hdraw hptr hy hx
    exact ⟨drawPattern_all.mpr hall, fun cycle => drawPattern_all.mpr hall⟩

/-- A framebuffer tag at 0. -/
def modeTag (addr w h pitch bpp : Nat) : Memory :=
  store (store (store (store (store (fun _ => 0) 8 8 addr) 20 4 w) 24 4 h) 16 4 pitch) 28 1 bpp

/-- The usual mode with 1024 by 768 pixels of 32 bits. -/
theorem patterns_inside_usual :
    credible (framebufferOf (modeTag 0xE0000000 1024 768 4096 32) 0) = true ∧
      ∃ fb pages, virtmemInitFramebuffer (framebufferOf (modeTag 0xE0000000 1024 768 4096 32) 0) =
          .ok (pages, fb) ∧ Drawable fb ∧
        (((∀ s ∈ framebufferDisplayTestPattern fb, Inside fb pages s.1) ∧
          ∀ cycle, ∀ s ∈ framebufferDisplayAnimatedPattern fb cycle, Inside fb pages s.1) ↔
            Drawable fb) := by
  have hfields : framebufferOf (modeTag 0xE0000000 1024 768 4096 32) 0 =
      ⟨0, 0xE0000000, 1024, 768, 4096, 32⟩ := by decide +kernel
  have hcredible : credible (framebufferOf (modeTag 0xE0000000 1024 768 4096 32) 0) = true := by
    rw [hfields]
    decide
  have hinit : virtmemInitFramebuffer (framebufferOf (modeTag 0xE0000000 1024 768 4096 32) 0) =
      .ok (fbPages ⟨0, 0xE0000000, 1024, 768, 4096, 32⟩,
        ⟨0xE0000000, 0xE0000000, 1024, 768, 4096, 32⟩) := by
    rw [hfields]
    rfl
  refine ⟨hcredible, _, _, hinit, ⟨by decide, by decide, .inl (by decide)⟩, ?_⟩
  exact patterns_inside_iff hcredible hinit

/-- A framebuffer that is accepted and not drawn inside. -/
structure DrawnOutside (m : Memory) : Prop where
  credible : credible (framebufferOf m 0) = true
  outside : ∃ fb pages, virtmemInitFramebuffer (framebufferOf m 0) = .ok (pages, fb) ∧
    ¬ ∀ s ∈ framebufferDisplayTestPattern fb, Inside fb pages s.1

theorem drawnOutside_of {m : Memory} {fb : Framebuffer} (hfields : framebufferOf m 0 = fb)
    (hcredible : Boot.credible fb = true) (hsize : fbSizeAsserted fb = true)
    (hnot : ¬ Drawable { fb with ptr := fb.addr }) : DrawnOutside m := by
  subst hfields
  have hinit : virtmemInitFramebuffer (framebufferOf m 0) =
      .ok (fbPages (framebufferOf m 0), { framebufferOf m 0 with ptr := (framebufferOf m 0).addr }) := by
    rw [virtmemInitFramebuffer, hsize]
    rfl
  obtain ⟨haccepted, hpages, hptr⟩ := accepted_of hcredible hinit
  refine ⟨hcredible, _, _, hinit, fun hall => hnot ?_⟩
  rw [hpages, framebufferDisplayTestPattern, drawPattern_all] at hall
  exact drawable_of_inside haccepted hptr hall

/-- A mode of 16 bits, and a base in the middle of a page. -/
theorem patterns_outside : DrawnOutside (modeTag 0xE0000000 1024 768 2048 16) ∧
    DrawnOutside (modeTag 0xE0100000 1920 1080 7680 32) := by
  have hdeep : framebufferOf (modeTag 0xE0000000 1024 768 2048 16) 0 =
      ⟨0, 0xE0000000, 1024, 768, 2048, 16⟩ := by decide +kernel
  have hbase : framebufferOf (modeTag 0xE0100000 1920 1080 7680 32) 0 =
      ⟨0, 0xE0100000, 1920, 1080, 7680, 32⟩ := by decide +kernel
  constructor
  · exact drawnOutside_of hdeep (by decide) (by decide) fun h => absurd h.last (by decide)
  · exact drawnOutside_of hbase (by decide) (by decide) fun h => absurd h.pages (by decide)

end Twos.Driver
