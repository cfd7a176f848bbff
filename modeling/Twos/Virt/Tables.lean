import Twos.Phys.Exclusive
import Twos.Virt.Supply

/-!
# Handing out page tables

A session of `new_page_table`: any sequence of its calls, between which the callers write to the
entries of the tables they have been given. What one wants of every call is a table of its own: one
of the 511 of a block, not handed out before, all zero, and clear of the words in which the blocks
keep their bookkeeping.

Every call takes two of a block's tables, since the argument of a `debugf` takes one too. So the
indices that are handed out are the odd ones, and the check `idx >= 511` lets index 511 pass. The
table there would be the 512th, and it is the bookkeeping. Call 256 is the one that gets it.

So a session is in one of three phases (`Phase`): nothing is handed out, up to 255 tables are and
the books are right (`Books`), or a handout has gone wrong, which stays so. `phase_step` is the step
over both kinds of calls, `taken_first` and `taken_next` being what a handout does in each phase, and
`handouts_sound_iff` reads the phases off after any run. `calls_return` says that the calls come back
for as long as the phase is an early one.
-/

namespace Twos.Virt.Tables

open Lib

variable {σ : Type} {physMalloc : σ → BitVec 64 → Except Fault (Nat × σ)}

/-! ## Sessions -/

/-- One return of `new_page_table`: the table, the tables and blocks there were by then, and memory
before and after. -/
structure Handout where
  table : Nat
  earlier : List Nat
  blocks : List Nat
  before : Memory
  after : Memory

/-- The allocator, the blocks `alloc_pt_block` gave, and every return so far, the last one first. -/
structure Session (σ : Type) where
  vm : VirtMem σ
  blocks : List Nat
  handouts : List Handout

/-- The tables that have been handed out. -/
def Session.tables (s : Session σ) : List Nat := s.handouts.map Handout.table

/-- `new_page_table` returned `table`, and left `vm`. A block is put into `cur` when it is new, so
the blocks are the values that `cur` has had. -/
def Session.handOut (s : Session σ) (table : Nat) (vm : VirtMem σ) : Session σ :=
  let blocks := vm.cur :: s.blocks
  ⟨vm, blocks, ⟨table, s.tables, blocks, s.vm.mem, vm.mem⟩ :: s.handouts⟩

inductive Call where
  | newPageTable
  | write (table i v : Nat)

/-- One call, or one write of a caller to an entry of a table that it was given. -/
def step (physMalloc : σ → BitVec 64 → Except Fault (Nat × σ)) (s : Session σ) :
    Call → Option (Session σ)
  | .newPageTable =>
      match newPageTable physMalloc s.vm with
      | .ok (table, vm) => some (s.handOut table vm)
      | .error _ => none
  | .write table i v =>
      if table ∈ s.tables ∧ i < 512 then
        some { s with vm := { s.vm with mem := store s.vm.mem (entryAddr table i) 8 v } }
      else none

/-- The bytes of a table. -/
def InTable (table x : Nat) : Prop := table ≤ x ∧ x < table + TABLE_SIZE

/-- What a call should give, `blocks` being all blocks there are. -/
structure Sound (blocks : List Nat) (h : Handout) : Prop where
  dir : ∃ b ∈ h.blocks, ∃ i, i < DIRS ∧ h.table = b + TABLE_SIZE * i
  fresh : h.table ∉ h.earlier
  clear : ∀ i, i < 512 → entry h.after h.table i = 0
  apart : ∀ b ∈ blocks, ∀ x, InTable h.table x → ¬ InFields b x
  kept : ∀ t ∈ h.earlier, ∀ x, InTable t x → h.after x = h.before x

/-! ## The first block

The first call starts the block, and the next 255 find room in it. `Half` is the block in between:
the tables with even indices went to the log, those with odd ones to the callers, and what has not
been taken is still clear.
-/

/-- The block `b` after `n` calls: they have taken the tables with odd indices, and the others with
odd indices are clear. -/
structure Half (b n : Nat) (vm : VirtMem σ) : Prop where
  direct : DirectBlock b
  cur : vm.cur = b
  idx : vm.supply.idx = 2 * n
  clear : ∀ k, n ≤ k → 2 * k + 1 < DIRS → ∀ x, InTable (b + TABLE_SIZE * (2 * k + 1)) x → vm.mem x = 0

/-- Call number `n`, counted from 0, on the block. -/
structure Taken (b n table : Nat) (vm : VirtMem σ) : Prop where
  direct : DirectBlock b
  table : table = b + TABLE_SIZE * (2 * n + 1)
  cur : vm.cur = b
  idx : vm.supply.idx = 2 * (n + 1)
  clear : ∀ k, n ≤ k → 2 * k + 1 < DIRS → ∀ x, InTable (b + TABLE_SIZE * (2 * k + 1)) x → vm.mem x = 0

theorem Taken.half {b n table : Nat} {vm : VirtMem σ} (h : Taken b n table vm) : Half b (n + 1) vm where
  direct := h.direct
  cur := h.cur
  idx := h.idx
  clear := fun k hk => h.clear k (by omega)

/-- A table in a block lies before the bookkeeping. -/
theorem inTable_dir {b i x : Nat} (hi : i < DIRS) (hx : InTable (b + TABLE_SIZE * i) x) :
    b ≤ x ∧ x < b + OFF_IDX := by
  obtain ⟨hlo, hhi⟩ := hx
  constructor <;> lia

/-- Taking two tables of a block with `2 * n` gone. -/
theorem take_half {r : Supply σ} {n : Nat} (hblock : DirectBlock r.cur) (hidx : r.idx = 2 * n)
    (hn : n < 256) :
    (take r).1 = r.cur + TABLE_SIZE * (2 * n + 1) ∧ (take r).2.idx = 2 * (n + 1) := by
  have hoff := hblock.offset_lt (TABLE_SIZE * (2 * n + 1)) (by lia)
  simp only [take, hidx]
  rw [Nat.mod_eq_of_lt (by lia : 2 * n + 1 < WORD), Nat.mod_eq_of_lt hoff,
    Nat.mod_eq_of_lt (by lia : 2 * n + 1 + 1 < WORD)]
  exact ⟨rfl, by lia⟩

variable {vm vm' : VirtMem σ}

/-- The very first call. -/
theorem taken_first {table : Nat} (hcur : vm.cur = 0)
    (hpage : ∀ page phys, physMalloc vm.phys ONE_PAGE = .ok (page, phys) → page ≠ 0 →
      DirectPage page)
    (h : newPageTable physMalloc vm = .ok (table, vm')) : ∃ b, Taken b 0 table vm' := by
  have hrenews : vm.supply.Renews := .inl hcur
  obtain ⟨r, hr, rfl, hsupplied⟩ :=
    newPageTable_inv (.inl hcur) (fun _ r hr => renew_direct hr hpage) h
  rw [ready, if_pos hrenews] at hr
  have hblock : DirectBlock r.cur := renew_direct hr hpage
  obtain ⟨htable, hidx⟩ := take_half (n := 0) hblock (renew_idx hr) (by decide)
  refine ⟨r.cur, hblock, htable, ?_, ?_, fun k _ hk x hx => ?_⟩
  · rw [← take_cur r, ← hsupplied.supply]
    rfl
  · rw [hsupplied.supply, hidx]
  · obtain ⟨hlo, hhi⟩ := inTable_dir hk hx
    exact hsupplied.clear hrenews x (by rwa [take_cur]) (by rwa [take_cur])

/-- Such a block is not used up. -/
theorem Half.not_renews {b n : Nat} (h : Half b n vm) (hn : n < 256) : ¬ vm.supply.Renews := by
  rintro (hzero | hge)
  · have hcur : vm.cur = 0 := hzero
    rw [h.cur] at hcur
    exact h.direct.ne_zero hcur
  · rw [h.idx] at hge
    lia

/-- The next 255. -/
theorem taken_next {b n table : Nat} (hhalf : Half b n vm) (hn : n < 256)
    (h : newPageTable physMalloc vm = .ok (table, vm')) :
    Taken b n table vm' ∧ ∀ x, ¬ InFields b x → vm'.mem x = vm.mem x := by
  have hold := hhalf.not_renews hn
  obtain ⟨r, hr, rfl, hsupplied⟩ :=
    newPageTable_inv (.inr (hhalf.cur ▸ hhalf.direct)) (fun hnew => absurd hnew hold) h
  rw [ready, if_neg hold] at hr
  obtain rfl := Except.ok.inj hr
  have hvmcur : vm.supply.cur = b := hhalf.cur
  obtain ⟨htable, hidx⟩ := take_half (hvmcur ▸ hhalf.direct) hhalf.idx hn
  have hframe : ∀ x, ¬ InFields b x → vm'.mem x = vm.mem x := by
    intro x hx
    apply hsupplied.frame
    rintro (⟨-, hin⟩ | ⟨hnew, -⟩)
    · exact hx (hvmcur ▸ hin)
    · exact hold hnew
  refine ⟨⟨hhalf.direct, ?_, ?_, ?_, fun k hk hodd x hx => ?_⟩, hframe⟩
  · rw [htable, hvmcur]
  · rw [← hvmcur, ← take_cur vm.supply, ← hsupplied.supply]
    rfl
  · rw [hsupplied.supply, hidx]
  · have hout : ¬ InFields b x := fun hin => Nat.not_lt.mpr hin.1 (inTable_dir hodd hx).2
    rw [hframe x hout, hhalf.clear k hk hodd x hx]

/-- A caller's write to a table it was given does not concern the others. -/
theorem half_write {b n k i v : Nat} (hhalf : Half b n vm) (hk : k < n) (hodd : 2 * k + 1 < DIRS)
    (hi : i < 512) :
    Half b n { vm with mem := store vm.mem (entryAddr (b + TABLE_SIZE * (2 * k + 1)) i) 8 v } := by
  have hcur : vm.cur ≠ 0 := by
    rw [hhalf.cur]
    exact hhalf.direct.ne_zero
  refine ⟨hhalf.direct, hhalf.cur, ?_, fun l hl hodd' x hx => ?_⟩
  · have hidx := hhalf.idx
    rw [supply_idx _ hcur] at hidx
    have hbefore : entryAddr (b + TABLE_SIZE * (2 * k + 1)) i + 8 ≤ b + OFF_IDX := by
      unfold entryAddr
      lia
    unfold VirtMem.supply
    dsimp only
    rw [if_neg hcur]
    rw [hhalf.cur] at hidx ⊢
    rw [load_store_disjoint (.inr hbefore), hidx]
  · have hother : x < entryAddr (b + TABLE_SIZE * (2 * k + 1)) i ∨
        entryAddr (b + TABLE_SIZE * (2 * k + 1)) i + 8 ≤ x := by
      obtain ⟨hlo, hhi⟩ := hx
      unfold entryAddr
      lia
    dsimp only
    rw [store_outside hother, hhalf.clear l hl hodd' x hx]

/-! ## The books of a session

A table that is handed out must be one of the block, clear, new and apart from the fields of the
block. The 256th, with index 511, is where the fields are.
-/

/-- The first `n` calls were sound, and gave the tables with odd indices of the block `b`. -/
structure Books (b n : Nat) (s : Session σ) : Prop where
  blocks : ∀ c ∈ s.blocks, c = b
  tables : ∀ t ∈ s.tables, ∃ k, k < n ∧ t = b + TABLE_SIZE * (2 * k + 1)
  sound : ∀ h ∈ s.handouts, Sound [b] h

theorem Sound.of_blocks {b : Nat} {blocks : List Nat} {h : Handout} (hsound : Sound [b] h)
    (hblocks : ∀ c ∈ blocks, c = b) : Sound blocks h where
  dir := hsound.dir
  fresh := hsound.fresh
  clear := hsound.clear
  apart := fun c hc => hsound.apart c (List.mem_singleton.mpr (hblocks c hc))
  kept := hsound.kept

theorem mem_tables_handOut {s : Session σ} {table t : Nat} :
    t ∈ (s.handOut table vm').tables ↔ t = table ∨ t ∈ s.tables := by
  simp [Session.tables, Session.handOut]

/-- Calls up to the 255th, counted from 1, are sound. -/
theorem books_handOut {s : Session σ} {b n table : Nat} (hbooks : Books b n s)
    (htaken : Taken b n table vm') (hn : n < 255)
    (hframe : ∀ t ∈ s.tables, ∀ x, InTable t x → vm'.mem x = s.vm.mem x) :
    Books b (n + 1) (s.handOut table vm') := by
  have hodd : 2 * n + 1 < DIRS := by lia
  have hblocks : ∀ c ∈ vm'.cur :: s.blocks, c = b := by
    intro c hc
    rcases List.mem_cons.mp hc with rfl | hc
    · exact htaken.cur
    · exact hbooks.blocks c hc
  -- the blocks, the tables handed out so far, and the handouts: the new one and the old ones
  refine ⟨hblocks, fun t ht => ?_, fun h hh => ?_⟩
  · rcases mem_tables_handOut.mp ht with rfl | ht
    · -- the new table is the next of the odd ones
      exact ⟨n, by omega, htaken.table⟩
    · obtain ⟨k, hk, rfl⟩ := hbooks.tables t ht
      exact ⟨k, by omega, rfl⟩
  · rcases List.mem_cons.mp hh with rfl | hh
    · -- it is in a block, new, clear, off the bookkeeping, and no other table changed
      refine ⟨⟨b, ?_, 2 * n + 1, hodd, htaken.table⟩, fun hmem => ?_, fun i hi => ?_, ?_, hframe⟩
      · show b ∈ vm'.cur :: s.blocks
        rw [htaken.cur]
        exact List.mem_cons_self
      · -- two odd indices of one block
        obtain ⟨k, hk, heq⟩ := hbooks.tables _ hmem
        dsimp only at heq
        rw [htaken.table] at heq
        lia
      · apply load_zeros
        intro x hlo hhi
        dsimp only [entryAddr] at hlo hhi
        apply htaken.clear n (Nat.le_refl n) hodd x
        rw [htaken.table] at hlo hhi
        constructor <;> lia
      · intro c hc x hx hin
        obtain rfl := List.mem_singleton.mp hc
        dsimp only at hx
        rw [htaken.table] at hx
        exact Nat.not_lt.mpr hin.1 (inTable_dir hodd hx).2
    · exact hbooks.sound h hh

/-- Call 256 is not: what it gives is none of the 511 tables. -/
theorem unsound_handOut {s : Session σ} {b table : Nat} (hblocks : ∀ c ∈ s.blocks, c = b)
    (htaken : Taken b 255 table vm') (blocks : List Nat) :
    ¬ Sound blocks ⟨table, s.tables, vm'.cur :: s.blocks, s.vm.mem, vm'.mem⟩ := by
  intro hsound
  obtain ⟨c, hc, i, hi, heq⟩ := hsound.dir
  have hcb : c = b := by
    rcases List.mem_cons.mp hc with rfl | hc
    · exact htaken.cur
    · exact hblocks c hc
  dsimp only at heq
  rw [htaken.table, hcb] at heq
  lia

/-! ## Every run

A session goes from its start through at most 255 sound calls into a phase where one has gone wrong,
and there it stays. Its length then says which phase it is in.
-/

/-- Where a session is: nothing handed out, within the first 255 calls, or beyond them with a call
that was not sound. -/
inductive Phase (init : VirtMem σ) (s : Session σ) : Prop where
  | start (hs : s = ⟨init, [], []⟩)
  | early (b n : Nat) (hlength : s.handouts.length = n) (hn : n ≤ 255) (hhalf : Half b n s.vm)
      (hbooks : Books b n s)
  | late (hlength : 255 < s.handouts.length) (h : Handout) (hmem : h ∈ s.handouts)
      (hunsound : ∀ blocks, ¬ Sound blocks h)

/-- A call within the first 256. -/
theorem phase_handOut {init : VirtMem σ} {s : Session σ} {b n table : Nat}
    (hlength : s.handouts.length = n) (hn : n ≤ 255) (hbooks : Books b n s)
    (htaken : Taken b n table vm')
    (hframe : ∀ t ∈ s.tables, ∀ x, InTable t x → vm'.mem x = s.vm.mem x) :
    Phase init (s.handOut table vm') := by
  by_cases hlast : n = 255
  · subst hlast
    refine .late ?_ _ List.mem_cons_self (unsound_handOut hbooks.blocks htaken)
    show 255 < s.handouts.length + 1
    omega
  · refine .early b (n + 1) ?_ (by omega) htaken.half (books_handOut hbooks htaken (by omega) hframe)
    show s.handouts.length + 1 = n + 1
    omega

/-- One step of a session. -/
theorem phase_step {init : VirtMem σ} (hcur : init.cur = 0)
    (hpage : ∀ page phys, physMalloc init.phys ONE_PAGE = .ok (page, phys) → page ≠ 0 →
      DirectPage page) {s t : Session σ} {call : Call} (h : Phase init s)
    (hstep : StepOf (step physMalloc) s call t) : Phase init t := by
  cases call with
  | newPageTable =>
      simp only [StepOf, step] at hstep
      split at hstep
      · next table vm' hrun =>
        cases hstep
        cases h with
        | start hs =>
            subst hs
            obtain ⟨b, htaken⟩ := taken_first hcur hpage hrun
            refine phase_handOut (n := 0) rfl (Nat.zero_le 255) ?_ htaken fun t ht => absurd ht List.not_mem_nil
            exact ⟨fun _ hc => absurd hc List.not_mem_nil, fun _ ht => absurd ht List.not_mem_nil,
              fun _ hh => absurd hh List.not_mem_nil⟩
        | early b n hlength hn hhalf hbooks =>
            -- the tables handed out lie in front of the bookkeeping, so the call leaves them alone
            obtain ⟨htaken, hframe⟩ := taken_next hhalf (by omega) hrun
            refine phase_handOut hlength hn hbooks htaken fun t ht x hx => hframe x fun hin => ?_
            obtain ⟨k, hk, rfl⟩ := hbooks.tables t ht
            exact Nat.not_lt.mpr hin.1 (inTable_dir (by lia) hx).2
        | late hlength h hmem hunsound =>
            -- what has gone wrong stays in the list
            refine .late ?_ h (List.mem_cons_of_mem _ hmem) hunsound
            exact Nat.lt_succ_of_lt hlength
      · cases hstep
  | write table i v =>
      simp only [StepOf, step] at hstep
      split at hstep
      · next hwrite =>
        cases hstep
        cases h with
        | start hs =>
            -- there is no table yet to write to
            subst hs
            exact absurd hwrite.1 List.not_mem_nil
        | early b n hlength hn hhalf hbooks =>
            -- a write by a caller stays inside a table that it was given
            obtain ⟨k, hk, rfl⟩ := hbooks.tables table hwrite.1
            exact .early b n hlength hn (half_write hhalf hk (by lia) hwrite.2)
              ⟨hbooks.blocks, hbooks.tables, hbooks.sound⟩
        | late hlength h hmem hunsound => exact .late hlength h hmem hunsound
      · cases hstep

/-- Whatever the callers write, all calls of a session are sound if and only if there are at most
255 of them. Of `phys_malloc` it is enough that the first page it gives is a page of the direct
map. -/
theorem handouts_sound_iff {init : VirtMem σ} (hcur : init.cur = 0)
    (hpage : ∀ page phys, physMalloc init.phys ONE_PAGE = .ok (page, phys) → page ≠ 0 →
      DirectPage page) {calls : List Call} {s : Session σ}
    (hrun : Run (StepOf (step physMalloc)) ⟨init, [], []⟩ calls s) :
    (∀ h ∈ s.handouts, Sound s.blocks h) ↔ s.handouts.length ≤ 255 := by
  have hphase : Phase init s :=
    Run.invariant (Phase init) (.start rfl) (fun _ _ _ h hstep => phase_step hcur hpage h hstep) hrun
  cases hphase with
  | start hs =>
      subst hs
      exact Iff.intro (fun _ => Nat.zero_le 255) (fun _ _ hh => absurd hh List.not_mem_nil)
  | early b n hlength hn hhalf hbooks =>
      refine ⟨fun _ => hlength ▸ hn, fun _ h hh => ?_⟩
      exact (hbooks.sound h hh).of_blocks hbooks.blocks
  | late hlength h hmem hunsound =>
      refine ⟨fun hall => absurd (hall h hmem) (hunsound _), fun hle => ?_⟩
      omega

/-- Within a block `new_page_table` needs nothing from `phys_malloc`. -/
theorem half_returns {b n : Nat} (hhalf : Half b n vm) (hn : n < 256) :
    ∃ table vm', newPageTable physMalloc vm = .ok (table, vm') := by
  have hold := hhalf.not_renews hn
  have hadv : advance physMalloc vm.supply = .ok (take vm.supply) := by
    rw [advance, ready, if_neg hold, ok_seq]
  obtain ⟨vm', hrun, -⟩ := newPageTable_spec (.inr (hhalf.cur ▸ hhalf.direct)) hadv
    fun hnew => absurd hnew hold
  exact ⟨_, vm', hrun⟩

/-- The very first call needs a page. -/
theorem first_returns {r : Supply σ} (hcur : vm.cur = 0) (hrenew : renew physMalloc vm.phys = .ok r)
    (hblock : DirectBlock r.cur) : ∃ table vm', newPageTable physMalloc vm = .ok (table, vm') := by
  have hrenews : vm.supply.Renews := .inl hcur
  have hready : ready physMalloc vm.supply = .ok r := by
    rw [ready, if_pos hrenews]
    exact hrenew
  have hadv : advance physMalloc vm.supply = .ok (take r) := by
    rw [advance, hready, ok_seq]
  obtain ⟨vm', hrun, -⟩ := newPageTable_spec (.inl hcur) hadv fun _ => (take_cur r).symm ▸ hblock
  exact ⟨_, vm', hrun⟩

/-- If there is a page for the first call, 256 calls return. -/
theorem calls_return {init : VirtMem σ} (hcur : init.cur = 0)
    (hpage : ∀ page phys, physMalloc init.phys ONE_PAGE = .ok (page, phys) → page ≠ 0 →
      DirectPage page)
    {r : Supply σ} (hrenew : renew physMalloc init.phys = .ok r) {n : Nat} (hn : n ≤ 256) :
    ∃ s, Run (StepOf (step physMalloc)) ⟨init, [], []⟩ (List.replicate n .newPageTable) s ∧
      s.handouts.length = n ∧ Phase init s := by
  induction n with
  | zero => exact ⟨_, .nil, rfl, .start rfl⟩
  | succ n ih =>
      obtain ⟨s, hrun, hlength, hphase⟩ := ih (by omega)
      have hcall : ∃ table vm, newPageTable physMalloc s.vm = .ok (table, vm) := by
        cases hphase with
        | start hs =>
            subst hs
            exact first_returns hcur hrenew (renew_direct hrenew hpage)
        | early b k hk _ hhalf _ => exact half_returns hhalf (by omega)
        | late hlate => omega
      obtain ⟨table, vm, hcall⟩ := hcall
      have hstep : StepOf (step physMalloc) s .newPageTable (s.handOut table vm) := by
        simp only [StepOf, step, hcall]
      refine ⟨s.handOut table vm, ?_, ?_, phase_step hcur hpage hphase hstep⟩
      · rw [List.replicate_succ']
        exact hrun.snoc hstep
      · show s.handouts.length + 1 = n + 1
        rw [hlength]

/-- A machine with a free page, and no table handed out. -/
def booted : VirtMem Phys.Physmem := ⟨fun _ => 0, 0, Phys.machine 1 Phys.one_word_fits [20]⟩

theorem booted_page : ∀ page phys, Phys.physMalloc booted.phys ONE_PAGE = .ok (page, phys) →
    page ≠ 0 → DirectPage page := by
  intro page phys hrun _
  have hcomp : (Phys.physMalloc booted.phys ONE_PAGE).toOption.map Prod.fst =
      some (20 * PAGE_SIZE) := by decide +kernel
  rw [hrun] at hcomp
  obtain rfl : page = 20 * PAGE_SIZE := Option.some.inj hcomp
  exact ⟨Nat.dvd_mul_left _ _, by decide⟩

theorem booted_renew : ∃ r, renew Phys.physMalloc booted.phys = .ok r := by
  have hcomp : (renew Phys.physMalloc booted.phys).toOption.isSome := by decide +kernel
  cases hrenew : renew Phys.physMalloc booted.phys with
  | error e =>
      rw [hrenew] at hcomp
      cases hcomp
  | ok r => exact ⟨r, rfl⟩

/-- All of the first 255 calls on that machine are sound. -/
theorem handouts_sound_booted :
    ∃ s, Run (StepOf (step Phys.physMalloc)) ⟨booted, [], []⟩ (List.replicate 255 .newPageTable) s ∧
      ∀ h ∈ s.handouts, Sound s.blocks h := by
  obtain ⟨r, hrenew⟩ := booted_renew
  obtain ⟨s, hrun, hlength, -⟩ := calls_return (n := 255) rfl booted_page hrenew (by decide)
  exact ⟨s, hrun, (handouts_sound_iff rfl booted_page hrun).mpr (Nat.le_of_eq hlength)⟩

/-- One of the first 256 is not. -/
theorem handouts_not_sound :
    ∃ s, Run (StepOf (step Phys.physMalloc)) ⟨booted, [], []⟩ (List.replicate 256 .newPageTable) s ∧
      ¬ ∀ h ∈ s.handouts, Sound s.blocks h := by
  obtain ⟨r, hrenew⟩ := booted_renew
  obtain ⟨s, hrun, hlength, hphase⟩ := calls_return rfl booted_page hrenew (Nat.le_refl 256)
  refine ⟨s, hrun, fun hall => ?_⟩
  cases hphase with
  | start hs =>
      subst hs
      cases hlength
  | early b n hn hle => omega
  | late _ h hmem hunsound => exact hunsound _ (hall h hmem)

end Twos.Virt.Tables
