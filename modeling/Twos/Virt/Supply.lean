import Twos.Virt.Model

/-!
# The supply of page tables

`new_page_table` without the memory: which tables it hands out next is settled by the block in use,
its `idx`, and the page allocator. `advance` is that function, and `newPageTable_spec` says that the
code does what it says and writes nothing but its own bookkeeping: the three words behind the tables
of the block in use, and a new block when there is one.

The code takes a table in two halves. First it makes sure of a block: `ready_first` where there is
none yet, `ready_next` where the block is full, and `ready_spec` over both. Then it takes a table
out of it, twice, because of the doubled `idx++`: `takeDir_takeDir`. A call that fails is one where
`phys_malloc` gave nothing (`newPageTable_error`), and `newPageTable_inv` reads a run backwards.
-/

namespace Twos.Virt

open Lib

variable {σ : Type} {physMalloc : σ → BitVec 64 → Except Fault (Nat × σ)}

/-! ## The supply -/

/-- The state that the next tables depend on. -/
structure Supply (σ : Type) where
  cur : Nat
  idx : Nat
  phys : σ

/-- What a state has of it. -/
def VirtMem.supply (s : VirtMem σ) : Supply σ where
  cur := s.cur
  idx := if s.cur = 0 then 0 else load s.mem (s.cur + OFF_IDX) 8
  phys := s.phys

/-- A new block, with nothing taken from it. -/
def renew (physMalloc : σ → BitVec 64 → Except Fault (Nat × σ)) (phys : σ) :
    Except Fault (Supply σ) := do
  let (page, phys) ← physMalloc phys ONE_PAGE
  assert (decide (page ≠ 0)) "page"
  .ok ⟨(page + KERNEL_VADDR) % WORD, 0, phys⟩

/-- The next call needs a new block. -/
def Supply.Renews (s : Supply σ) : Prop := s.cur = 0 ∨ s.idx ≥ DIRS

instance (s : Supply σ) : Decidable s.Renews := inferInstanceAs (Decidable (_ ∨ _))

/-- The block that a call takes its table from. -/
def ready (physMalloc : σ → BitVec 64 → Except Fault (Nat × σ)) (s : Supply σ) :
    Except Fault (Supply σ) :=
  if s.Renews then renew physMalloc s.phys else .ok s

/-- The next table: every call takes two tables and returns the second of them. -/
def take (s : Supply σ) : Nat × Supply σ :=
  let idx := (s.idx + 1) % WORD
  ((s.cur + TABLE_SIZE * idx) % WORD, ⟨s.cur, (idx + 1) % WORD, s.phys⟩)

/-- `new_page_table`, as far as the supply goes. -/
def advance (physMalloc : σ → BitVec 64 → Except Fault (Nat × σ)) (s : Supply σ) :
    Except Fault (Nat × Supply σ) := do
  let s ← ready physMalloc s
  .ok (take s)

/-- A whole page that the direct map covers. -/
def DirectPage (page : Nat) : Prop := PAGE_SIZE ∣ page ∧ page + PAGE_SIZE ≤ KERNEL_VADDR_SIZE

/-- The address of such a page in the direct map. -/
def DirectBlock (block : Nat) : Prop := ∃ page, block = KERNEL_VADDR + page ∧ DirectPage page

/-- The three words that a block keeps for itself. -/
def InFields (block x : Nat) : Prop := block + OFF_IDX ≤ x ∧ x < block + OFF_IDX + 24

/-- The bytes that a call may write on its own account. -/
def Footprint (s s' : Supply σ) (x : Nat) : Prop :=
  (s.cur ≠ 0 ∧ InFields s.cur x) ∨ (s.Renews ∧ s'.cur ≤ x ∧ x < s'.cur + PAGE_SIZE)

/-! ## The code

What `new_page_table` reads of its block, and what it writes to it, as functions of the supply. A
block is cleared twice, by `memset` and by a loop over its tables, and the second time finds nothing
to clear.
-/

/-- Clearing tables that are clear. -/
theorem foldl_fill_zero {m : Memory} {a : Nat} (n : Nat)
    (h : ∀ x, a ≤ x → x < a + TABLE_SIZE * n → m x = 0) :
    (List.range n).foldl (fun m i => fill m (a + TABLE_SIZE * i) TABLE_SIZE 0) m = m := by
  induction n with
  | zero => rfl
  | succ n ih =>
      rw [Nat.mul_succ] at h
      rw [List.range_succ, List.foldl_append, ih fun x hlo hhi => h x hlo (by omega)]
      funext x
      show fill m _ _ _ x = m x
      by_cases hx : a + TABLE_SIZE * n ≤ x ∧ x < a + TABLE_SIZE * n + TABLE_SIZE
      · rw [fill_inside hx, h x (by omega) (by omega)]
      · rw [fill_outside (by omega)]

/-- The second round of clearing finds nothing to clear. -/
theorem allocPtBlock_eq (s : VirtMem σ) :
    allocPtBlock physMalloc s = (do
      let (page, phys) ← physMalloc s.phys ONE_PAGE
      assert (decide (page ≠ 0)) "page"
      .ok (page, { s with mem := fill s.mem ((KERNEL_VADDR + page) % WORD) PAGE_SIZE 0, phys })) := by
  unfold allocPtBlock
  cases physMalloc s.phys ONE_PAGE with
  | error e => simp only [error_seq]
  | ok r =>
      obtain ⟨page, phys⟩ := r
      simp only [ok_seq]
      generalize (KERNEL_VADDR + page) % WORD = pta
      rw [foldl_fill_zero 512 fun x hlo hhi => fill_inside ⟨hlo, by lia⟩]

/-- A new block is a page of zeros. -/
theorem newBlock_eq (s : VirtMem σ) :
    newBlock physMalloc s = (do
      let r ← renew physMalloc s.phys
      .ok ⟨fill s.mem r.cur PAGE_SIZE 0, r.cur, r.phys⟩) := by
  unfold newBlock renew
  rw [allocPtBlock_eq]
  cases physMalloc s.phys ONE_PAGE with
  | error e => rfl
  | ok r =>
      obtain ⟨page, phys⟩ := r
      simp only [ok_seq]
      unfold assert
      split
      · simp only [ok_seq]
        rw [Nat.add_comm KERNEL_VADDR page]
      · rfl

variable {s : VirtMem σ}

theorem supply_idx (s : VirtMem σ) (hcur : s.cur ≠ 0) : s.supply.idx = load s.mem (s.cur + OFF_IDX) 8 :=
  if_neg hcur

/-- A state has the supply that its parts say. -/
theorem supply_eq {r : Supply σ} (hcur : s.cur = r.cur) (hne : r.cur ≠ 0)
    (hidx : load s.mem (r.cur + OFF_IDX) 8 = r.idx) (hphys : s.phys = r.phys) : s.supply = r := by
  cases r
  rw [VirtMem.supply, hcur, if_neg hne, hidx, hphys]

@[simp] theorem take_cur (r : Supply σ) : (take r).2.cur = r.cur := by
  cases r
  rfl

@[simp] theorem takeDir_cur (s : VirtMem σ) : (takeDir s).2.cur = s.cur := by
  cases s
  rfl

/-- Taking one table from a block. -/
theorem takeDir_supply (hcur : s.cur ≠ 0) :
    (takeDir s).1 = (s.cur + TABLE_SIZE * s.supply.idx) % WORD ∧
      (takeDir s).2.supply = ⟨s.cur, (s.supply.idx + 1) % WORD, s.phys⟩ ∧
      ∀ x, ¬ InFields s.cur x → (takeDir s).2.mem x = s.mem x := by
  have hidx := supply_idx s hcur
  unfold takeDir
  dsimp only
  rw [hidx]
  refine ⟨rfl, ?_, ?_⟩
  · have hlt : (load s.mem (s.cur + OFF_IDX) 8 + 1) % WORD < WORD := Nat.mod_lt _ (by decide)
    unfold VirtMem.supply
    dsimp only
    rw [if_neg hcur, load_store_same hlt]
  · intro x hx
    have hout : x < s.cur + OFF_IDX ∨ s.cur + OFF_IDX + 8 ≤ x := by
      simp only [InFields] at hx
      omega
    exact store_outside hout

/-- Taking two tables from a block. -/
theorem takeDir_takeDir (hcur : s.cur ≠ 0) :
    (takeDir (takeDir s).2).1 = (take s.supply).1 ∧
      (takeDir (takeDir s).2).2.supply = (take s.supply).2 ∧
      ∀ x, ¬ InFields s.cur x → (takeDir (takeDir s).2).2.mem x = s.mem x := by
  obtain ⟨-, hsupply, hframe⟩ := takeDir_supply hcur
  have hcur₂ : (takeDir s).2.cur ≠ 0 := by
    rw [takeDir_cur]
    exact hcur
  obtain ⟨htable, hsupply₂, hframe₂⟩ := takeDir_supply hcur₂
  rw [hsupply] at htable hsupply₂
  rw [takeDir_cur] at htable hframe₂
  refine ⟨htable, hsupply₂, fun x hx => ?_⟩
  rw [hframe₂ x hx, hframe x hx]

/-! ## A call

A call sees to its block and then takes two tables, the first of which nobody gets. Each of the two
parts follows the supply and writes nothing but the fields of the block and, if it starts one, the
new block. `newPageTable_spec` is the forward direction, and `newPageTable_inv` what can be said of
a call that has returned.
-/

theorem DirectBlock.ne_zero {block : Nat} (h : DirectBlock block) : block ≠ 0 := by
  obtain ⟨page, rfl, -⟩ := h
  lia

/-- Adding an offset to a block does not leave the address space. -/
theorem DirectBlock.offset_lt {block : Nat} (h : DirectBlock block) (off : Nat)
    (hoff : off ≤ PAGE_SIZE) : block + off < WORD := by
  obtain ⟨page, rfl, -, hpage⟩ := h
  lia

/-- Blocks are aligned to their size. -/
theorem DirectBlock.apart {b c : Nat} (hb : DirectBlock b) (hc : DirectBlock c) (hne : b ≠ c) :
    b + PAGE_SIZE ≤ c ∨ c + PAGE_SIZE ≤ b := by
  obtain ⟨p, rfl, ⟨i, rfl⟩, -⟩ := hb
  obtain ⟨q, rfl, ⟨j, rfl⟩, -⟩ := hc
  rcases Nat.lt_trichotomy i j with h | h | h
  · exact .inl (by lia)
  · exact absurd (by rw [h]) hne
  · exact .inr (by lia)

/-- A state whose block is `r` after a call has seen to its block, starting from `s`. -/
structure Ready (s : VirtMem σ) (r : Supply σ) (vm : VirtMem σ) : Prop where
  supply : vm.supply = r
  frame : ∀ x, ¬ Footprint s.supply r x → vm.mem x = s.mem x
  clear : s.supply.Renews → ∀ x, r.cur ≤ x → x < r.cur + OFF_IDX → vm.mem x = 0

theorem renew_idx {phys : σ} {r : Supply σ} (h : renew physMalloc phys = .ok r) : r.idx = 0 := by
  unfold renew at h
  obtain ⟨⟨page, phys'⟩, -, h⟩ := seq_ok.mp h
  dsimp only at h
  obtain ⟨-, -, h⟩ := seq_ok.mp h
  rw [← Except.ok.inj h]

/-- A block is as good as the page that `phys_malloc` gives. -/
theorem renew_direct {phys : σ} {r : Supply σ} (h : renew physMalloc phys = .ok r)
    (hpage : ∀ page phys', physMalloc phys ONE_PAGE = .ok (page, phys') → page ≠ 0 →
      DirectPage page) : DirectBlock r.cur := by
  unfold renew at h
  obtain ⟨⟨page, phys'⟩, hrun, h⟩ := seq_ok.mp h
  dsimp only at h
  obtain ⟨u, hassert, h⟩ := seq_ok.mp h
  have hne : page ≠ 0 := by
    intro hzero
    rw [assert, if_neg (by simpa using hzero)] at hassert
    cases hassert
  have hdirect := hpage page phys' hrun hne
  have hle := hdirect.2
  rw [← Except.ok.inj h, Nat.mod_eq_of_lt (by lia), Nat.add_comm]
  exact ⟨page, rfl, hdirect⟩

/-- The very first block. -/
theorem ready_first {r : Supply σ} (hcur : s.cur = 0) (h : renew physMalloc s.phys = .ok r)
    (hblock : DirectBlock r.cur) :
    ∃ vm, (firstBlock physMalloc s >>= nextBlock physMalloc) = .ok vm ∧ Ready s r vm := by
  have hrenews : s.supply.Renews := .inl hcur
  have hzero (x : Nat) (hlo : r.cur ≤ x) (hhi : x < r.cur + PAGE_SIZE) :
      fill s.mem r.cur PAGE_SIZE 0 x = 0 := fill_inside ⟨hlo, hhi⟩
  have hidx : load (fill s.mem r.cur PAGE_SIZE 0) (r.cur + OFF_IDX) 8 = 0 :=
    load_zeros fun x hlo hhi => hzero x (by lia) (by lia)
  refine ⟨⟨fill s.mem r.cur PAGE_SIZE 0, r.cur, r.phys⟩, ?_, ?_, ?_, ?_⟩
  · rw [firstBlock, if_pos hcur, newBlock_eq, h, ok_seq, ok_seq, nextBlock, hidx, if_neg (by decide)]
  · exact supply_eq rfl hblock.ne_zero (hidx.trans (renew_idx h).symm) rfl
  · intro x hx
    apply fill_outside
    simp only [Footprint, hrenews, true_and] at hx
    omega
  · intro _ x hlo hhi
    exact hzero x hlo (by lia)

/-- A block after another. -/
theorem ready_next {r : Supply σ} (hcur : DirectBlock s.cur) (hidx : s.supply.idx ≥ DIRS)
    (h : renew physMalloc s.phys = .ok r) (hblock : DirectBlock r.cur) :
    ∃ vm, (firstBlock physMalloc s >>= nextBlock physMalloc) = .ok vm ∧ Ready s r vm := by
  have hrenews : s.supply.Renews := .inr hidx
  have hne := hcur.ne_zero
  rw [supply_idx s hne] at hidx
  have hnext (x : Nat) (hx : s.cur + OFF_NEXT ≤ x ∧ x < s.cur + OFF_NEXT + 8) :
      InFields s.cur x := ⟨by lia, by lia⟩
  let m := store (store (fill s.mem r.cur PAGE_SIZE 0) (s.cur + OFF_NEXT) 8 r.cur)
    (r.cur + OFF_PREV) 8 s.cur
  -- the links lie behind the tables and the index
  have hzero (x : Nat) (hlo : r.cur ≤ x) (hhi : x < r.cur + OFF_PREV) : m x = 0 := by
    have hx : x < s.cur + OFF_NEXT ∨ s.cur + OFF_NEXT + 8 ≤ x := by
      by_cases heq : s.cur = r.cur
      · lia
      · -- the full block may be the new one, if `phys_malloc` repeats itself
        have := hcur.apart hblock heq
        lia
    show store _ _ _ _ x = 0
    rw [store_outside (.inl hhi), store_outside hx]
    exact fill_inside ⟨hlo, by lia⟩
  -- the run, the fields of the new block, what is left alone, and that its tables are clear
  refine ⟨⟨m, r.cur, r.phys⟩, ?_, ?_, ?_, ?_⟩
  · rw [firstBlock, if_neg hne, ok_seq, nextBlock, if_pos hidx, newBlock_eq, h]
    rfl
  · have hload : load m (r.cur + OFF_IDX) 8 = 0 :=
      load_zeros fun x hlo hhi => hzero x (by lia) (by lia)
    exact supply_eq rfl hblock.ne_zero (hload.trans (renew_idx h).symm) rfl
  · intro x hx
    have hx₁ : ¬ InFields s.cur x := fun hin => hx (.inl ⟨hne, hin⟩)
    -- inside the new block everything is new, and outside it only the link of the old one changes
    have hx₂ : ¬ (r.cur ≤ x ∧ x < r.cur + PAGE_SIZE) := fun hin => hx (.inr ⟨hrenews, hin⟩)
    have hx₃ : x < s.cur + OFF_NEXT ∨ s.cur + OFF_NEXT + 8 ≤ x := by
      apply Decidable.byContradiction
      exact fun hin => hx₁ (hnext x (by lia))
    show store _ _ _ _ x = s.mem x
    rw [store_outside (by lia), store_outside hx₃, fill_outside (by lia)]
  · intro _ x hlo hhi
    exact hzero x hlo (by lia)

/-- `new_page_table` sees to its block as the supply says. -/
theorem ready_spec {r : Supply σ} (hcur : s.cur = 0 ∨ DirectBlock s.cur)
    (h : ready physMalloc s.supply = .ok r) (hblock : s.supply.Renews → DirectBlock r.cur) :
    r.cur ≠ 0 ∧
      ∃ vm, (firstBlock physMalloc s >>= nextBlock physMalloc) = .ok vm ∧ Ready s r vm := by
  unfold ready at h
  split at h
  · next hrenews =>
    have hr := hblock hrenews
    refine ⟨hr.ne_zero, ?_⟩
    by_cases hzero : s.cur = 0
    · exact ready_first hzero h hr
    · exact ready_next (hcur.resolve_left hzero) (hrenews.resolve_left hzero) h hr
  · next hrenews =>
    cases h
    have hne : s.cur ≠ 0 := fun hzero => hrenews (.inl hzero)
    refine ⟨hne, s, ?_, rfl, fun _ _ => rfl, fun hr => absurd hr hrenews⟩
    have hidx : ¬ load s.mem (s.cur + OFF_IDX) 8 ≥ DIRS := by
      rw [← supply_idx s hne]
      exact fun hidx => hrenews (.inr hidx)
    rw [firstBlock, if_neg hne, ok_seq, nextBlock, if_neg hidx]

/-- What a call leaves: the table the supply names, and no byte changed but its own. -/
structure Supplied (s : VirtMem σ) (s' : Supply σ) (vm : VirtMem σ) : Prop where
  supply : vm.supply = s'
  frame : ∀ x, ¬ Footprint s.supply s' x → vm.mem x = s.mem x
  clear : s.supply.Renews → ∀ x, s'.cur ≤ x → x < s'.cur + OFF_IDX → vm.mem x = 0

theorem advance_ok {r : Supply σ} {t : Nat} {s' : Supply σ}
    (h : advance physMalloc r = .ok (t, s')) :
    ∃ b, ready physMalloc r = .ok b ∧ t = (take b).1 ∧ s' = (take b).2 := by
  obtain ⟨b, hb, h⟩ := seq_ok.mp h
  have htake := Except.ok.inj h
  exact ⟨b, hb, by rw [htake], by rw [htake]⟩

/-- `new_page_table`, its block and its two tables. -/
theorem newPageTable_eq (s : VirtMem σ) :
    newPageTable physMalloc s =
      (firstBlock physMalloc s >>= nextBlock physMalloc) >>=
        fun vm => .ok (takeDir (takeDir vm).2) := by
  unfold newPageTable
  cases firstBlock physMalloc s with
  | error e => simp only [error_seq]
  | ok s => simp only [ok_seq]

/-- `new_page_table` does what the supply says. -/
theorem newPageTable_spec {t : Nat} {s' : Supply σ} (hcur : s.cur = 0 ∨ DirectBlock s.cur)
    (h : advance physMalloc s.supply = .ok (t, s')) (hblock : s.supply.Renews → DirectBlock s'.cur) :
    ∃ vm, newPageTable physMalloc s = .ok (t, vm) ∧ Supplied s s' vm := by
  obtain ⟨r, hr, rfl, rfl⟩ := advance_ok h
  obtain ⟨hne, vm, hvm, hready⟩ := ready_spec hcur hr hblock
  have hvmcur : vm.cur = r.cur := congrArg Supply.cur hready.supply
  obtain ⟨htable, hsupply, hframe⟩ := takeDir_takeDir (s := vm) (hvmcur ▸ hne)
  rw [hready.supply] at htable hsupply
  rw [hvmcur] at hframe
  refine ⟨(takeDir (takeDir vm).2).2, ?_, hsupply, ?_, ?_⟩
  · -- neither half fails once there is a block
    rw [newPageTable_eq, hvm, ok_seq, ← htable]
  · intro x hx
    -- the fields of the block in use are in the footprint, new or not
    have hfields : ¬ InFields r.cur x := by
      intro hin
      apply hx
      obtain ⟨hlo, hhi⟩ := hin
      by_cases hrenews : s.supply.Renews
      · exact .inr ⟨hrenews, by rw [take_cur]; lia, by rw [take_cur]; lia⟩
      · rw [ready, if_neg hrenews] at hr
        cases hr
        exact .inl ⟨hne, hlo, hhi⟩
    rw [hframe x hfields, hready.frame x hx]
  · -- the tables of a new block are filled with zeros, and the fields lie behind them
    intro hrenews x hlo hhi
    rw [take_cur] at hlo hhi
    have hfields : ¬ InFields r.cur x := fun hin => Nat.not_lt.mpr hin.1 hhi
    rw [hframe x hfields, hready.clear hrenews x hlo hhi]

/-- `new_page_table` stops where the supply does. -/
theorem newPageTable_error {e : Fault} (h : advance physMalloc s.supply = .error e) :
    newPageTable physMalloc s = .error e := by
  unfold advance ready at h
  split at h
  · next hrenews =>
    have hnew : newBlock physMalloc s = .error e := by
      rw [newBlock_eq]
      have hphys : s.supply.phys = s.phys := rfl
      rw [hphys] at h
      cases hr : renew physMalloc s.phys with
      | error e' =>
          rw [hr, error_seq] at h
          cases h
          rfl
      | ok r =>
          rw [hr, ok_seq] at h
          cases h
    unfold newPageTable firstBlock
    split
    · -- there was no block at all
      rw [hnew, error_seq]
    · next hne =>
      have hidx : load s.mem (s.cur + OFF_IDX) 8 ≥ DIRS := by
        rw [← supply_idx s hne]
        exact hrenews.resolve_left hne
      -- the block in use is full
      rw [ok_seq, nextBlock, if_pos hidx]
      dsimp only
      rw [hnew, error_seq, error_seq]
  · cases h

/-- So a call that returned has followed the supply. -/
theorem newPageTable_inv {t : Nat} {vm : VirtMem σ} (hcur : s.cur = 0 ∨ DirectBlock s.cur)
    (hblock : s.supply.Renews → ∀ r, renew physMalloc s.phys = .ok r → DirectBlock r.cur)
    (h : newPageTable physMalloc s = .ok (t, vm)) :
    ∃ r, ready physMalloc s.supply = .ok r ∧ t = (take r).1 ∧ Supplied s (take r).2 vm := by
  cases hadv : advance physMalloc s.supply with
  | error e =>
      rw [newPageTable_error hadv] at h
      cases h
  | ok out =>
      obtain ⟨t', s'⟩ := out
      obtain ⟨r, hr, rfl, rfl⟩ := advance_ok hadv
      have hdirect : s.supply.Renews → DirectBlock (take r).2.cur := by
        intro hrenews
        rw [ready, if_pos hrenews] at hr
        rw [take_cur]
        exact hblock hrenews r hr
      obtain ⟨vm', hrun, hsupplied⟩ := newPageTable_spec hcur hadv hdirect
      obtain ⟨rfl, rfl⟩ := Prod.mk.inj (Except.ok.inj (hrun.symm.trans h))
      exact ⟨r, hr, rfl, hsupplied⟩

end Twos.Virt
