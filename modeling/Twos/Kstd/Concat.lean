import Twos.Kstd.Output
import Twos.Lib.Stores

/-!
# Strings in memory

`strncat` and what it calls, on the bytes of memory and not on buffers: `memcpy` and `memset` go
forward a byte at a time, and every store is recorded. `strncat` copies the whole string with its NUL
when that is shorter than `n`, and otherwise `n` characters, with a NUL stored behind them. Either way
it writes the same bytes to the same place, and what is seen of it in a buffer is what the `strncat` on
buffers does.

Each routine has a lemma that says what it has written, in the form of `Wrote`, and the lemma of a
routine comes from those of the routines it calls: `copyLoop_wrote` and `setLoop_wrote` by induction,
`strcpy_wrote`, `strncpy_wrote`, `strncat_wrote`. `strncat_appends` reads the string off, with the exact
bytes that were stored, and `strncat_buffer` ties it to the routine of `Kstd.String`.
-/

namespace Twos.Kstd.InMemory

open Lib

/-! ## `memory.c` -/

/-- `while(n--) *d++ = *s++`. -/
def copyLoop (d src : Nat) : Nat → Stores → Stores
  | 0, s => s
  | n + 1, s => copyLoop (d + 1) (src + 1) n (s.put d (s.mem src))

/-- `memcpy`, with the pointer that it returns. -/
def memcpy (dest src n : Nat) (s : Stores) : Nat × Stores := (dest, copyLoop dest src n s)

/-- `while(n--) *d++ = val`. -/
def setLoop (d : Nat) (val : Byte) : Nat → Stores → Stores
  | 0, s => s
  | n + 1, s => setLoop (d + 1) val n (s.put d val)

/-- `memset`. -/
def memset (dest : Nat) (val : Byte) (n : Nat) (s : Stores) : Nat × Stores :=
  (dest, setLoop dest val n s)

/-! ## `string.c` -/

/-- `strlen`. The address space ends before the fuel does. -/
def strlen (m : Memory) (str : Nat) : Except Fault Nat :=
  whileLoop .neverEnds (fun size => decide (m (str + size) ≠ 0)) (fun size => .ok (size + 1)) WORD 0

/-- `strnlen`. -/
def strnlen (m : Memory) (str max : Nat) : Except Fault Nat :=
  whileLoop .neverEnds (fun len => decide (len < max ∧ m (str + len) ≠ 0)) (fun len => .ok (len + 1))
    max 0

/-- `strcpy`. -/
def strcpy (dest src : Nat) (s : Stores) : Except Fault (Nat × Stores) :=
  if dest = 0 ∨ src = 0 then .ok (0, s)
  else do
    let srcLen ← strlen s.mem src
    .ok (memcpy dest src (srcLen + 1) s)

/-- `strncpy`. -/
def strncpy (dest src max : Nat) (s : Stores) : Except Fault (Nat × Stores) := do
  let lenSrc ← strnlen s.mem src max
  if lenSrc < max then
    let (_, s) := memcpy dest src lenSrc s
    let (_, s) := memset (dest + lenSrc) 0 (max - lenSrc) s
    .ok (dest, s.put (dest + lenSrc) 0)
  else .ok (memcpy dest src lenSrc s)

/-- `strncat`. The lengths are kept in 32 bits. -/
def strncat (s1 s2 n : Nat) (s : Stores) : Except Fault (Nat × Stores) := do
  let len1 ← strlen s.mem s1
  let len2 ← strlen s.mem s2
  if len2 % 2 ^ 32 < n then
    let (_, s) ← strcpy (s1 + len1 % 2 ^ 32) s2 s
    .ok (s1, s)
  else
    let (_, s) ← strncpy (s1 + len1 % 2 ^ 32) s2 n s
    .ok (s1, s.put (s1 + len1 % 2 ^ 32 + n) 0)

variable {m : Memory} {p d src n : Nat} {text : List Byte} {s s' : Stores}

/-! ## What the loops write -/

/-- A copy that goes forward reads no byte that it has written, if it goes down in memory or not at all
over its source. -/
theorem copyLoop_wrote (h : d ≤ src ∨ src + n ≤ d) :
    Wrote d (bytesAt s.mem src n) s (copyLoop d src n s) := by
  induction n generalizing d src s with
  | zero => exact Wrote.refl d s
  | succ n ih =>
      have hfirst := Wrote.put s d (s.mem src)
      have hcopied := @ih (d + 1) (src + 1) (s.put d (s.mem src)) (by omega)
      -- what is left to copy is not where the first byte went
      rw [hfirst.frame (by rw [List.length_singleton]; omega)] at hcopied
      rw [bytesAt_succ]
      exact hfirst.append hcopied

theorem setLoop_wrote (d : Nat) (val : Byte) (n : Nat) (s : Stores) :
    Wrote d (List.replicate n val) s (setLoop d val n s) := by
  induction n generalizing d s with
  | zero => exact Wrote.refl d s
  | succ n ih => exact (Wrote.put s d val).append (ih (d + 1) (s.put d val))

/-! ## Strings -/

/-- A string is at `p`: these characters, none of them NUL, and a NUL behind them. -/
structure StringAt (m : Memory) (p : Nat) (text : List Byte) : Prop where
  notNull : p ≠ 0
  noNul : 0 ∉ text
  bytes : bytesAt m p (text.length + 1) = text ++ [0]

theorem StringAt.chars (h : StringAt m p text) : bytesAt m p text.length = text := by
  have hbytes := h.bytes
  rw [bytesAt_add] at hbytes
  exact (List.append_inj hbytes (length_bytesAt _ _ _)).1

theorem StringAt.last (h : StringAt m p text) : m (p + text.length) = 0 := by
  have hbytes := h.bytes
  rw [bytesAt_add, bytesAt_one] at hbytes
  exact List.singleton_inj.mp (List.append_inj hbytes (length_bytesAt _ _ _)).2

theorem StringAt.ne_zero (h : StringAt m p text) {i : Nat} (hi : i < text.length) :
    m (p + i) ≠ 0 := by
  intro hzero
  have hget := @getElem?_bytesAt m p i text.length hi
  rw [h.chars, hzero] at hget
  exact h.noNul (List.mem_of_getElem? hget)

/-- Its first characters. -/
theorem StringAt.take (h : StringAt m p text) (n : Nat) :
    bytesAt m p (min n text.length) = text.take n := by
  rw [← take_bytesAt, h.chars]

theorem strlen_eq (h : StringAt m p text) (hlen : text.length < WORD) :
    strlen m p = .ok text.length := by
  have hend : 0 + text.length = text.length := Nat.zero_add _
  rw [strlen, ← hend]
  refine whileLoop_count (Nat.le_of_lt hlen) ?_ fun j _ hj => ?_
  · simp [h.last]
  · rw [hend] at hj
    simpa using h.ne_zero hj

theorem strnlen_eq (h : StringAt m p text) (max : Nat) :
    strnlen m p max = .ok (min max text.length) := by
  have hend : 0 + min max text.length = min max text.length := Nat.zero_add _
  rw [strnlen, ← hend]
  refine whileLoop_count (Nat.min_le_left _ _) ?_ fun j _ hj => ?_
  · rw [hend, decide_eq_false_iff_not]
    rintro ⟨hmax, hchar⟩
    have hmin : min max text.length = text.length := by omega
    rw [hmin] at hchar
    exact hchar h.last
  · have hlt : j < max ∧ j < text.length := by omega
    simpa [hlt.1] using h.ne_zero hlt.2

/-! ## What the functions write

Each function is first given as one `writeBytes` of a list of bytes. What is at `s1` afterwards is
then a fact about that list, and that nothing else has changed is the frame lemma of `writeBytes`.
-/

/-- `strcpy` of a string writes it and its NUL. -/
theorem strcpy_wrote (h : StringAt s.mem src text) (hlen : text.length < WORD) (hd : d ≠ 0)
    (hapart : d ≤ src ∨ src + text.length < d) :
    ∃ s', strcpy d src s = .ok (d, s') ∧ Wrote d (text ++ [0]) s s' := by
  have hcopied := @copyLoop_wrote d src (text.length + 1) s (by omega)
  rw [h.bytes] at hcopied
  refine ⟨_, ?_, hcopied⟩
  rw [strcpy, if_neg (by simp [hd, h.notNull]), strlen_eq h hlen]
  rfl

/-- `strncpy` of a string writes `max` bytes: what there is of the string, and zeros. -/
theorem strncpy_wrote (h : StringAt s.mem src text) (hapart : d ≤ src ∨ src + text.length < d)
    (max : Nat) : ∃ s', strncpy d src max s = .ok (d, s') ∧
      Wrote d (text.take max ++ List.replicate (max - text.length) 0) s s' := by
  have hcopied := @copyLoop_wrote d src (min max text.length) s (by omega)
  rw [h.take] at hcopied
  rw [strncpy, strnlen_eq h, ok_seq]
  by_cases hshort : text.length < max
  · have hmin : min max text.length = text.length := by omega
    have htake : text.take max = text := List.take_of_length_le (by omega)
    rw [hmin, htake] at hcopied
    have hset := setLoop_wrote (d + text.length) 0 (max - text.length) (copyLoop d src text.length s)
    -- the first of the zeros is stored twice
    have hfirst : (text ++ List.replicate (max - text.length) (0 : Byte))[text.length]? = some 0 := by
      rw [List.getElem?_append_right (Nat.le_refl _), Nat.sub_self,
        List.getElem?_replicate_of_lt (by omega)]
    rw [hmin, htake]
    exact ⟨_, if_pos hshort, (hcopied.append hset).again hfirst⟩
  · have hmin : min max text.length = max := by omega
    rw [hmin] at hcopied ⊢
    rw [if_neg (Nat.lt_irrefl max), Nat.sub_eq_zero_of_le (Nat.not_lt.mp hshort),
      List.replicate_zero, List.append_nil]
    exact ⟨_, rfl, hcopied⟩

variable {s1 s2 : Nat} {t1 t2 : List Byte}

/-- Both branches of `strncat` write the same, behind the first string. They may write over the second
one where that is next: it has been read by then. -/
theorem strncat_wrote (h1 : StringAt s.mem s1 t1) (h2 : StringAt s.mem s2 t2)
    (hlen1 : t1.length < 2 ^ 32) (hlen2 : t2.length < 2 ^ 32)
    (hapart : s1 + t1.length < s2 ∨ s2 + t2.length < s1) (n : Nat) :
    ∃ s', strncat s1 s2 n s = .ok (s1, s') ∧ Wrote (s1 + t1.length) (t2.take n ++ [0]) s s' := by
  have hne : s1 + t1.length ≠ 0 := by
    have := h1.notNull
    omega
  have hdown : s1 + t1.length ≤ s2 ∨ s2 + t2.length < s1 + t1.length := by omega
  rw [strncat, strlen_eq h1 (by lia), ok_seq, strlen_eq h2 (by lia), ok_seq,
    Nat.mod_eq_of_lt hlen1, Nat.mod_eq_of_lt hlen2]
  by_cases hshort : t2.length < n
  · obtain ⟨s', hrun, hwrote⟩ := strcpy_wrote h2 (by lia) hne hdown
    rw [if_pos hshort, hrun, List.take_of_length_le (Nat.le_of_lt hshort)]
    exact ⟨s', rfl, hwrote⟩
  · obtain ⟨s', hrun, hwrote⟩ := strncpy_wrote h2 hdown n
    have hlen : (t2.take n).length = n := List.length_take_of_le (Nat.not_lt.mp hshort)
    rw [Nat.sub_eq_zero_of_le (Nat.not_lt.mp hshort), List.replicate_zero, List.append_nil] at hwrote
    -- the NUL is stored behind the characters
    have hnul := Wrote.put s' (s1 + t1.length + (t2.take n).length) 0
    rw [if_neg hshort, hrun]
    refine ⟨_, rfl, ?_⟩
    have hboth := hwrote.append hnul
    rwa [hlen] at hboth

/-- A string with more characters and a NUL written over its own NUL. -/
theorem StringAt.append (h : StringAt s.mem p text) {more : List Byte} (hmore : 0 ∉ more)
    (hwrote : Wrote (p + text.length) (more ++ [0]) s s') : StringAt s'.mem p (text ++ more) where
  notNull := h.notNull
  noNul hmem := (List.mem_append.mp hmem).elim h.noNul hmore
  bytes := by
    have hall := hwrote.within 0
    rw [h.chars, List.length_append, List.length_singleton] at hall
    rw [List.length_append, Nat.add_assoc, List.append_assoc]
    exact hall.trans (List.append_nil _)

/-- For all strings that do not overlap, of less than 4 GiB, and every `n`: what is at `s1` afterwards
is the first string and the first `n` characters of the second, and only these and their NUL have been
written. -/
theorem strncat_appends (h1 : StringAt m s1 t1) (h2 : StringAt m s2 t2)
    (hlen1 : t1.length < 2 ^ 32) (hlen2 : t2.length < 2 ^ 32)
    (hapart : s1 + t1.length < s2 ∨ s2 + t2.length < s1) (n : Nat) :
    ∃ s, strncat s1 s2 n ⟨m, []⟩ = .ok (s1, s) ∧ StringAt s.mem s1 (t1 ++ t2.take n) ∧
      (∀ x, x ∈ s.written ↔
        s1 + t1.length ≤ x ∧ x ≤ s1 + t1.length + min n t2.length) ∧
      ∀ x, x ∉ s.written → s.mem x = m x := by
  obtain ⟨s, hrun, hwrote⟩ := @strncat_wrote ⟨m, []⟩ s1 s2 t1 t2 h1 h2 hlen1 hlen2 hapart n
  have hlen : (t2.take n ++ [0]).length = min n t2.length + 1 := by
    rw [List.length_append, List.length_take, List.length_singleton]
  have hwritten (x : Nat) : x ∈ s.written ↔
      s1 + t1.length ≤ x ∧ x ≤ s1 + t1.length + min n t2.length := by
    rw [hwrote.written, hlen, or_iff_right List.not_mem_nil]
    omega
  refine ⟨s, hrun, StringAt.append h1 (fun hmem => h2.noNul (List.mem_of_mem_take hmem)) hwrote,
    hwritten, fun x hx => ?_⟩
  rw [hwritten] at hx
  apply hwrote.outside
  rw [hlen]
  omega

/-- `"ab"` at 1 and `"cd"` at 6. -/
def sampleMemory : Memory := fun x => [0, 97, 98, 0, 0, 0, 99, 100].getD x 0

/-- One character of `"cd"` behind `"ab"`. -/
theorem strncat_appends_one :
    ∃ s, strncat 1 6 1 ⟨sampleMemory, []⟩ = .ok (1, s) ∧
      StringAt s.mem 1 ([97, 98] ++ [99, 100].take 1) ∧
      (∀ x, x ∈ s.written ↔ 1 + [97, 98].length ≤ x ∧ x ≤ 1 + [97, 98].length + min 1 2) ∧
      ∀ x, x ∉ s.written → s.mem x = sampleMemory x :=
  strncat_appends ⟨by decide, by decide, by decide⟩ ⟨by decide, by decide, by decide⟩
    (by decide) (by decide) (by decide) 1

/-! ## Buffers -/

/-- A piece of memory as a buffer. -/
def buffer (m : Memory) (p k : Nat) : List Nat := (bytesAt m p k).map BitVec.toNat

/-- What is written to memory is written to the buffer. -/
theorem writeBytes_buffer {off k : Nat} {bs : List Byte} (h : Wrote (p + off) bs s s')
    (hfits : off + bs.length ≤ k) :
    writeBytes (buffer s.mem p k) off (bs.map BitVec.toNat) = .ok (buffer s'.mem p k) := by
  obtain ⟨r, rfl⟩ := Nat.exists_eq_add_of_le hfits
  have hlen : (buffer s.mem p off).length = off := by simp [buffer]
  have hbefore : buffer s.mem p (off + bs.length + r) =
      buffer s.mem p off ++ buffer s.mem (p + off) bs.length ++
        buffer s.mem (p + off + bs.length) r := by
    rw [buffer, bytesAt_add, bytesAt_add, List.map_append, List.map_append, Nat.add_assoc p]
    rfl
  have hput := @writeBytes_eq _ (buffer s.mem p off) (buffer s.mem (p + off) bs.length)
    (buffer s.mem (p + off + bs.length) r) (bs.map BitVec.toNat) (by simp [buffer])
  rw [hlen, ← hbefore] at hput
  rw [hput, buffer, buffer, buffer, h.within, List.map_append, List.map_append]

/-- A buffer with a string in it. -/
theorem StringAt.buffer (h : StringAt m p text) {k : Nat} (hk : text.length < k) :
    ∃ rest, buffer m p k = text.map BitVec.toNat ++ 0 :: rest := by
  obtain ⟨r, rfl⟩ := Nat.exists_eq_add_of_le (Nat.succ_le_of_lt hk)
  refine ⟨InMemory.buffer m (p + (text.length + 1)) r, ?_⟩
  rw [InMemory.buffer, Nat.succ_eq_add_one, bytesAt_add, h.bytes, List.map_append, List.map_append,
    List.append_assoc]
  rfl

theorem zero_notMem_toNat (h : 0 ∉ text) : 0 ∉ text.map BitVec.toNat := by
  intro hmem
  obtain ⟨c, hc, hzero⟩ := List.mem_map.mp hmem
  obtain rfl : c = 0 := BitVec.eq_of_toNat_eq hzero
  exact h hc

/-- In a buffer with room for the result, `strncat` on memory is what `strncat` on buffers does. -/
theorem strncat_buffer (h1 : StringAt s.mem s1 t1) (h2 : StringAt s.mem s2 t2)
    (hlen1 : t1.length < 2 ^ 32) (hlen2 : t2.length < 2 ^ 32)
    (hapart : s1 + t1.length < s2 ∨ s2 + t2.length < s1) {k1 k2 : Nat}
    (hk1 : t1.length + min n t2.length < k1) (hk2 : t2.length < k2) :
    ∃ s', strncat s1 s2 n s = .ok (s1, s') ∧
      Kstd.strncat (buffer s.mem s1 k1) (buffer s.mem s2 k2) n = .ok (buffer s'.mem s1 k1) := by
  obtain ⟨s', hrun, hwrote⟩ := strncat_wrote h1 h2 hlen1 hlen2 hapart n
  obtain ⟨rest, hbuf1⟩ := h1.buffer (by omega : t1.length < k1)
  obtain ⟨rest', hbuf2⟩ := h2.buffer hk2
  have hcat := @strncat_eq (t1.map BitVec.toNat) (t2.map BitVec.toNat) rest rest' n
    (zero_notMem_toNat h1.noNul) (zero_notMem_toNat h2.noNul) (by rw [List.length_map]; omega)
  -- what is copied is the same
  have hcount : (t2.map BitVec.toNat).take (catCount t2.length n) ++ [0] =
      (t2.take n ++ [0]).map BitVec.toNat := by
    rw [List.map_append, List.map_take, catCount, Nat.mod_eq_of_lt hlen2]
    split
    · -- the string is shorter than `n`, so that taking `n` of it takes it whole
      next hlt =>
      have hle : (t2.map BitVec.toNat).length ≤ n := by
        rw [List.length_map]
        omega
      rw [List.take_of_length_le hle, List.take_of_length_le (Nat.le_of_eq (List.length_map _))]
      rfl
    · rfl
  rw [List.length_map, List.length_map, Nat.mod_eq_of_lt hlen1, hcount, ← hbuf1, ← hbuf2,
    writeBytes_buffer hwrote] at hcat
  · exact ⟨s', hrun, hcat⟩
  · rw [List.length_append, List.length_take, List.length_singleton]
    omega

end Twos.Kstd.InMemory
