/-
# LostWakeup.Fs.ReadAhead — `filemap.c`: how much a read asks the allocator for.

On a miss `do_generic_file_read` asks for the rest of the read and the read-ahead count, but not for more than a share of
the free memory and what is left of the file.  `mpage_readpages` takes one block for all the pages missing in a row.

A turn of the loop is modelled with the widths of the C types, and with the memory it finds.
-/
import LostWakeup.Fs.Mpage

namespace LostWakeup.Fs.ReadAhead

open Library
open Mm.Buddy (PGSIZE START_MEM)
open Fs.Mpage (Tree Memory mpage_readpages Short buddy_order_iff uncached_panics)

/-! ## The code -/

def PHYSTOP : Nat := 0x80000000 + 1024 * 1024 * 1024

def TOTAL_MEM : Nat := PHYSTOP - START_MEM

def READ_AHEAD_RATE : Nat := 20

def READ_AHEAD_PAGE_MAX_CNT : Nat := 8

def DIV_ROUND_UP (n d : Nat) : Nat := (n + d - 1) % 2 ^ 64 / d

def PGROUNDUP (sz : Nat) : Nat := roundUp PGSIZE sz

/-- `max_sane_readahead`, with the free memory in bytes. -/
def max_sane_readahead (nr read_ahead tot_nr free : Nat) : Nat :=
  min (min (add64 (PGROUNDUP nr / PGSIZE) read_ahead) (DIV_ROUND_UP (DIV_ROUND_UP free READ_AHEAD_RATE) PGSIZE))
    (PGROUNDUP tot_nr / PGSIZE)

/-- The arguments of a call that has passed `ASSERT(ip->i_size > 0)`, and the size. -/
structure Call where
  i_size : Nat
  off : Nat
  n : Nat
  size_pos : 0 < i_size
  size_lt : i_size < 2 ^ 32
  n_lt : n < 2 ^ 32

structure Mapping where
  page_tree : Tree
  nrpages : Nat
  last_index : Nat
  read_ahead_cnt : Nat
  read_ahead_end : Nat

/-- The mapping and the variables of the loop. -/
structure Reading extends Mapping where
  off : Nat
  retval : Nat

/-- What a turn finds: the free memory in bytes, what `kzalloc` has, and whether the user's page can be written. -/
structure Event where
  free : Nat
  free_le : free ≤ TOTAL_MEM
  mem : Memory
  copied : Bool

inductive Panic
  | not_tested
  | readpages (e : Mpage.Panic)

def Call.end_index (c : Call) : Nat := (c.i_size - 1) / PGSIZE

def Reading.index (s : Reading) : Nat := s.off / PGSIZE

def Reading.offset (s : Reading) : Nat := s.off % PGSIZE

/-- The end of the page in the file. -/
def Call.nr (c : Call) (s : Reading) : Nat := if s.index = c.end_index then (c.i_size - 1) % PGSIZE + 1 else PGSIZE

/-- `mapping->read_ahead_end` is set. -/
def Reading.setEnd (s : Reading) (read_ahead_end : Nat) : Reading := { s with read_ahead_end := read_ahead_end }

/-- The page tree, `read_ahead_cnt` and `last_index` are set, after pages have been read. -/
def Reading.setRead (s : Reading) (r : Mpage.Pages) (read_ahead_cnt : Nat) : Reading :=
  { s with page_tree := r.page_tree, nrpages := r.nrpages, read_ahead_cnt := read_ahead_cnt, last_index := s.index }

section Code

variable (c : Call) (e : Event) (s : Reading)

/-- `n - retval`, as an argument. -/
def rest : Nat := toUint64 ((c.n : Int) - s.retval)

/-- `isize - (off + retval)`, as an argument: `off` has moved by then, too. -/
def left : Nat := toUint64 ((c.i_size : Int) - (s.off + s.retval))

def read_sane_cnt : Nat := max_sane_readahead (rest c s) s.read_ahead_cnt (left c s) e.free

def new_read_ahead_end : Nat := sub64 (add64 s.index (read_sane_cnt c e s)) 1

def ahead_tmp : Int := int32 (add64 (new_read_ahead_end c e s) s.read_ahead_cnt)

/-- The change of `read_ahead_cnt` after a miss. -/
def new_read_ahead_cnt : Nat :=
  if s.index > s.last_index then
    if toUint64 (ahead_tmp c e s) ≤ c.end_index then
      if s.read_ahead_cnt < READ_AHEAD_PAGE_MAX_CNT then (if s.read_ahead_cnt = 0 then 1 else s.read_ahead_cnt * 2)
      else add64 s.read_ahead_cnt 1
    else s.read_ahead_cnt
  else 0

/-- The branch `page == NULL`; the flag is false on `goto out`. -/
def miss : Except Panic (Bool × Reading) :=
  if read_sane_cnt c e s = 0 then .ok (false, s.setEnd (new_read_ahead_end c e s))
  else
    match mpage_readpages e.mem s.index (read_sane_cnt c e s) true s.page_tree s.nrpages with
    | .error p => .error (.readpages p)
    | .ok r => .ok (true, (s.setEnd (new_read_ahead_end c e s)).setRead r (new_read_ahead_cnt c e s))

/-- The end of a turn. -/
def copy : Bool × Reading :=
  if e.copied = false then (false, s)
  else
    let len := min (min (c.n - s.retval) (c.nr s - s.offset)) (c.i_size - s.offset)
    let s := { s with off := (s.off + len) % 2 ^ 32, retval := s.retval + len }
    (decide (s.retval ≠ c.n), s)

/-- A turn of the loop of `do_generic_file_read`; the flag says that it goes on. -/
def turn : Except Panic (Bool × Reading) :=
  if s.index > c.end_index then .ok (false, s)
  else if c.nr s ≤ s.offset then .error .not_tested
  else
    match s.page_tree s.index with
    | some _ => .ok (copy c e s)
    | none =>
      match miss c e s with
      | .ok (true, s) => .ok (copy c e s)
      | r => r

end Code

/-- The turns of a call, each with the state it starts in. -/
def turns (c : Call) : List Event → Reading → List (Event × Reading)
  | [], _ => []
  | e :: es, s =>
    (e, s) ::
      match turn c e s with
      | .ok (true, s) => turns c es s
      | _ => []

def start (c : Call) (m : Mapping) : Reading := { m with off := c.off, retval := 0 }

/-! ## What is wanted, and when it holds -/

section

variable (c : Call) (e : Event) (s : Reading)

/-- The turn comes to a page of the file that is not cached. -/
structure Misses : Prop where
  index_le : s.index ≤ c.end_index
  offset_lt : s.offset < c.nr s
  uncached : s.page_tree s.index = none

/-- The arithmetic of the miss is exact, it asks for pages of the file, and for no block that the allocator does not have. -/
structure Bounded : Prop where
  rest_eq : (rest c s : Int) = c.n - s.retval
  left_eq : (left c s : Int) = c.i_size - (s.off + s.retval)
  sum_eq : add64 (PGROUNDUP (rest c s) / PGSIZE) s.read_ahead_cnt = PGROUNDUP (rest c s) / PGSIZE + s.read_ahead_cnt
  end_eq : (new_read_ahead_end c e s : Int) = s.index + read_sane_cnt c e s - 1
  cast_eq : 0 < read_sane_cnt c e s → s.last_index < s.index →
    ahead_tmp c e s = new_read_ahead_end c e s + s.read_ahead_cnt
  inside : 0 < read_sane_cnt c e s → s.index + read_sane_cnt c e s ≤ c.end_index + 1
  order : 0 < read_sane_cnt c e s →
    ∀ mem, mpage_readpages mem s.index (read_sane_cnt c e s) true s.page_tree s.nrpages ≠ .error .buddy_order

def pages (bytes : Nat) : Nat := (bytes + (PGSIZE - 1)) / PGSIZE

/-- A twentieth of the free memory. -/
def share : Nat := pages ((e.free + 19) / 20)

/-- The bytes read so far fit twice; the first page finds free memory; the read-ahead count is no large number; and no
`2^13 + 1` pages in a row are missing of those that the rest of the read, the memory and the file let in. -/
structure Modest : Prop where
  twice : s.off + s.retval ≤ c.i_size
  first : s.index = 0 → 0 < e.free ∧ (s.retval < c.n ∨ 0 < s.read_ahead_cnt) ∧ s.off + s.retval < c.i_size
  count : pages (c.n - s.retval) + s.read_ahead_cnt < 2 ^ 64
  count_int : s.last_index < s.index → 0 < e.free → (s.retval < c.n ∨ 0 < s.read_ahead_cnt) → s.off + s.retval < c.i_size →
    s.index + min (share e) (pages (c.i_size - (s.off + s.retval))) + s.read_ahead_cnt ≤ 2 ^ 31
  long : ∀ i, i + 2 ^ 13 < pages (c.n - s.retval) + s.read_ahead_cnt → i + 2 ^ 13 < share e →
    i + 2 ^ 13 < pages (c.i_size - (s.off + s.retval)) → ∃ j ≤ 2 ^ 13, s.page_tree (s.index + (i + j)) ≠ none

end

/-! ## One miss -/

theorem pgroundup_pages {x : Nat} (hx : x < 2 ^ 63) : PGROUNDUP x / PGSIZE = pages x := by
  rw [PGROUNDUP, roundUp, pages, PGSIZE]
  omega

section

variable {c : Call} {e : Event} {s : Reading}

theorem share_eq : DIV_ROUND_UP (DIV_ROUND_UP e.free READ_AHEAD_RATE) PGSIZE = share e := by
  have hfree := e.free_le
  rw [TOTAL_MEM, PHYSTOP, START_MEM] at hfree
  rw [DIV_ROUND_UP, DIV_ROUND_UP, share, pages, READ_AHEAD_RATE, PGSIZE]
  omega

theorem share_le : share e ≤ 12596 := by
  have hfree := e.free_le
  rw [TOTAL_MEM, PHYSTOP, START_MEM] at hfree
  rw [share, pages, PGSIZE]
  omega

theorem rest_exact (hret : s.retval ≤ c.n) : rest c s = c.n - s.retval := by
  have := c.n_lt
  rw [rest, toUint64]
  omega

theorem left_exact (htwice : s.off + s.retval ≤ c.i_size) : left c s = c.i_size - (s.off + s.retval) := by
  have := c.size_lt
  rw [left, toUint64]
  omega

theorem end_index_lt : c.end_index < 2 ^ 20 := by
  have := c.size_lt
  rw [Call.end_index, PGSIZE]
  omega

theorem read_sane_cnt_eq (hret : s.retval ≤ c.n) (htwice : s.off + s.retval ≤ c.i_size)
    (hcount : pages (c.n - s.retval) + s.read_ahead_cnt < 2 ^ 64) :
    read_sane_cnt c e s =
      min (min (pages (c.n - s.retval) + s.read_ahead_cnt) (share e)) (pages (c.i_size - (s.off + s.retval))) := by
  have hn := c.n_lt
  have hsize := c.size_lt
  rw [read_sane_cnt, max_sane_readahead, rest_exact hret, left_exact htwice, share_eq, pgroundup_pages (by omega),
    pgroundup_pages (by omega), add64, Nat.mod_eq_of_lt hcount]

theorem read_sane_cnt_le : read_sane_cnt c e s ≤ 12596 := by
  have hle : read_sane_cnt c e s ≤ share e := by
    rw [← share_eq]
    exact (Nat.min_le_left _ _).trans (Nat.min_le_right _ _)
  exact hle.trans share_le

theorem left_pages_le (c : Call) (s : Reading) (htwice : s.off + s.retval ≤ c.i_size) :
    s.index + pages (c.i_size - (s.off + s.retval)) ≤ c.end_index + 1 := by
  have hpos := c.size_pos
  rw [Reading.index, Call.end_index, pages, PGSIZE]
  omega

theorem read_ahead_end_iff (hmiss : Misses c s) :
    (new_read_ahead_end c e s : Int) = s.index + read_sane_cnt c e s - 1 ↔ 0 < s.index + read_sane_cnt c e s := by
  have hlast := @end_index_lt c
  have hindex := hmiss.index_le
  have hcnt := @read_sane_cnt_le c e s
  rw [new_read_ahead_end, sub64, add64]
  omega

theorem ahead_tmp_iff (hend : (new_read_ahead_end c e s : Int) = s.index + read_sane_cnt c e s - 1) :
    ahead_tmp c e s = new_read_ahead_end c e s + s.read_ahead_cnt ↔
      s.index + read_sane_cnt c e s + s.read_ahead_cnt ≤ 2 ^ 31 := by
  rw [ahead_tmp]
  constructor
  · intro heq
    have hle : int32 (add64 (new_read_ahead_end c e s) s.read_ahead_cnt) ≤ INT_MAX := by
      rw [int32, INT_MAX, Int.bmod]
      omega
    rw [INT_MAX] at hle
    omega
  · intro hle
    have hsum : add64 (new_read_ahead_end c e s) s.read_ahead_cnt = new_read_ahead_end c e s + s.read_ahead_cnt :=
      Nat.mod_eq_of_lt (by omega)
    rw [hsum, int32_of_range]
    · rfl
    · rw [INT_MIN]
      omega
    · rw [INT_MAX]
      omega

theorem order_iff (hmiss : Misses c s) (hpos : 0 < read_sane_cnt c e s) :
    (∀ mem, mpage_readpages mem s.index (read_sane_cnt c e s) true s.page_tree s.nrpages ≠ .error .buddy_order) ↔
      Short s.index (read_sane_cnt c e s) s.page_tree 0 := by
  have hlast := @end_index_lt c
  have hindex := hmiss.index_le
  have hcnt := @read_sane_cnt_le c e s
  have hiff := @buddy_order_iff s.index (read_sane_cnt c e s) s.page_tree hpos (by omega) hmiss.uncached (fun i hi _ => by omega)
    s.nrpages
  rw [← not_exists_not]
  simp only [not_not]
  rw [hiff, not_not]

theorem pages_pos {b : Nat} : 0 < pages b ↔ 0 < b := by
  rw [pages, PGSIZE]
  omega

theorem share_pos : 0 < share e ↔ 0 < e.free := by
  rw [share, pages_pos]
  omega

theorem read_sane_cnt_pos (hret : s.retval ≤ c.n) (htwice : s.off + s.retval ≤ c.i_size)
    (hcount : pages (c.n - s.retval) + s.read_ahead_cnt < 2 ^ 64) :
    0 < read_sane_cnt c e s ↔ (s.retval < c.n ∨ 0 < s.read_ahead_cnt) ∧ 0 < e.free ∧ s.off + s.retval < c.i_size := by
  have hrest := @pages_pos (c.n - s.retval)
  have hleft := @pages_pos (c.i_size - (s.off + s.retval))
  have hfree := @share_pos e
  rw [read_sane_cnt_eq hret htwice hcount]
  omega

theorem bounded_of_modest (hret : s.retval ≤ c.n) (hmiss : Misses c s) (h : Modest c e s) : Bounded c e s := by
  have hn := c.n_lt
  have htwice := h.twice
  have hcnt := @read_sane_cnt_eq c e s hret h.twice h.count
  have hpos := @read_sane_cnt_pos c e s hret h.twice h.count
  have hleft := left_pages_le c s h.twice
  have hend : (new_read_ahead_end c e s : Int) = s.index + read_sane_cnt c e s - 1 := by
    rw [read_ahead_end_iff hmiss]
    rcases Nat.eq_zero_or_pos s.index with hzero | hlater
    · obtain ⟨hfree, hwant, hin⟩ := h.first hzero
      have := hpos.mpr ⟨hwant, hfree, hin⟩
      omega
    · omega
  refine ⟨?_, ?_, ?_, hend, fun hsome hgt => ?_, fun hsome => by omega, fun hsome => ?_⟩
  · rw [rest_exact hret]
    omega
  · rw [left_exact h.twice]
    omega
  · rw [rest_exact hret, pgroundup_pages (by omega), add64, Nat.mod_eq_of_lt h.count]
  · rw [ahead_tmp_iff hend]
    obtain ⟨hwant, hfree, hin⟩ := hpos.mp hsome
    have := h.count_int hgt hfree hwant hin
    omega
  · rw [order_iff hmiss hsome]
    intro i _ hlt
    rw [hcnt] at hlt
    exact h.long i (by omega) (by omega) (by omega)

theorem modest_of_bounded (hret : s.retval ≤ c.n) (hmiss : Misses c s) (h : Bounded c e s) : Modest c e s := by
  have hn := c.n_lt
  have hlast := @end_index_lt c
  have hindex := hmiss.index_le
  have htwice : s.off + s.retval ≤ c.i_size := by
    have := h.left_eq
    omega
  have hcount : pages (c.n - s.retval) + s.read_ahead_cnt < 2 ^ 64 := by
    have hsum := h.sum_eq
    rw [rest_exact hret, pgroundup_pages (by omega), add64] at hsum
    omega
  have hcnt := @read_sane_cnt_eq c e s hret htwice hcount
  have hpos := @read_sane_cnt_pos c e s hret htwice hcount
  refine ⟨htwice, fun hzero => ?_, hcount, fun hgt hfree hwant hin => ?_, fun i h₁ h₂ h₃ => ?_⟩
  · have hsome := (read_ahead_end_iff hmiss).mp h.end_eq
    rw [hzero, Nat.zero_add] at hsome
    obtain ⟨hwant, hfree, hin⟩ := hpos.mp hsome
    exact ⟨hfree, hwant, hin⟩
  · have hsum := (ahead_tmp_iff h.end_eq).mp (h.cast_eq (hpos.mpr ⟨hwant, hfree, hin⟩) hgt)
    have hshare := @share_le e
    omega
  · have hsome : 0 < read_sane_cnt c e s := by omega
    have hshort := (order_iff hmiss hsome).mp (h.order hsome)
    exact hshort i (Nat.zero_le i) (by omega)

/-! ## The turns of a call -/

@[simp] theorem setEnd_retval (s : Reading) (v : Nat) : (s.setEnd v).retval = s.retval := rfl

@[simp] theorem setEnd_last_index (s : Reading) (v : Nat) : (s.setEnd v).last_index = s.last_index := rfl

@[simp] theorem setEnd_read_ahead_cnt (s : Reading) (v : Nat) : (s.setEnd v).read_ahead_cnt = s.read_ahead_cnt := rfl

@[simp] theorem setEnd_index (s : Reading) (v : Nat) : (s.setEnd v).index = s.index := rfl

@[simp] theorem setRead_retval (s : Reading) (r : Mpage.Pages) (v : Nat) : (s.setRead r v).retval = s.retval := rfl

@[simp] theorem setRead_last_index (s : Reading) (r : Mpage.Pages) (v : Nat) : (s.setRead r v).last_index = s.index := rfl

@[simp] theorem setRead_read_ahead_cnt (s : Reading) (r : Mpage.Pages) (v : Nat) : (s.setRead r v).read_ahead_cnt = v := rfl

theorem miss_keeps {b : Bool} {s' : Reading} (h : miss c e s = .ok (b, s')) : s'.retval = s.retval ∧
    (s'.last_index = s.last_index ∧ s'.read_ahead_cnt = s.read_ahead_cnt ∨
      s'.last_index = s.index ∧ s'.read_ahead_cnt = new_read_ahead_cnt c e s) := by
  rw [miss] at h
  by_cases hzero : read_sane_cnt c e s = 0
  · rw [if_pos hzero, Except.ok.injEq, Prod.mk.injEq] at h
    rw [← h.2, setEnd_retval, setEnd_last_index, setEnd_read_ahead_cnt]
    simp only [and_self, true_or]
  rw [if_neg hzero] at h
  rcases hrun : mpage_readpages e.mem s.index (read_sane_cnt c e s) true s.page_tree s.nrpages with p | r
  · rw [hrun] at h
    cases h
  rw [hrun] at h
  dsimp only at h
  rw [Except.ok.injEq, Prod.mk.injEq] at h
  rw [← h.2, setRead_retval, setRead_last_index, setRead_read_ahead_cnt, setEnd_retval, setEnd_index]
  simp only [and_self, or_true]

theorem turn_panics (hmiss : Misses c s) (hpos : 0 < read_sane_cnt c e s) {p : Mpage.Panic}
    (hrun : mpage_readpages e.mem s.index (read_sane_cnt c e s) true s.page_tree s.nrpages = .error p) :
    turn c e s = .error (.readpages p) := by
  have hpanic : miss c e s = .error (.readpages p) := by
    rw [miss, if_neg hpos.ne', hrun]
  rw [turn, if_neg (not_lt.mpr hmiss.index_le), if_neg (not_le.mpr hmiss.offset_lt), hmiss.uncached]
  dsimp only
  rw [hpanic]

theorem copy_keeps : (copy c e s).2.last_index = s.last_index ∧ (copy c e s).2.read_ahead_cnt = s.read_ahead_cnt ∧
    (s.retval ≤ c.n → (copy c e s).2.retval ≤ c.n) := by
  unfold copy
  split
  · exact ⟨rfl, rfl, id⟩
  · refine ⟨rfl, rfl, fun hret => ?_⟩
    dsimp only
    omega

/-- What a turn does to the count of the bytes and to the read-ahead. -/
theorem turn_keeps {b : Bool} {s' : Reading} (h : turn c e s = .ok (b, s')) : (s.retval ≤ c.n → s'.retval ≤ c.n) ∧
    (s'.last_index = s.last_index ∧ s'.read_ahead_cnt = s.read_ahead_cnt ∨
      s.index ≤ c.end_index ∧ s'.last_index = s.index ∧ s'.read_ahead_cnt = new_read_ahead_cnt c e s) := by
  unfold turn at h
  generalize hmiss : miss c e s = r at h
  split at h
  · cases h
    exact ⟨id, .inl ⟨rfl, rfl⟩⟩
  · next hin =>
    split at h
    · cases h
    split at h
    · have hcopy := @copy_keeps c e s
      rw [Except.ok.inj h] at hcopy
      exact ⟨hcopy.2.2, .inl ⟨hcopy.1, hcopy.2.1⟩⟩
    rcases r with p | ⟨b', s₁⟩
    · cases h
    obtain ⟨hret, hahead⟩ := miss_keeps hmiss
    have hlast : s₁.last_index = s.last_index ∧ s₁.read_ahead_cnt = s.read_ahead_cnt ∨
        s.index ≤ c.end_index ∧ s₁.last_index = s.index ∧ s₁.read_ahead_cnt = new_read_ahead_cnt c e s :=
      hahead.imp_right fun hnew => ⟨by omega, hnew⟩
    cases b' with
    | false =>
      cases h
      exact ⟨fun hle => hret.trans_le hle, hlast⟩
    | true =>
      have hcopy := @copy_keeps c e s₁
      rw [Except.ok.inj h] at hcopy
      rw [hcopy.1, hcopy.2.1]
      exact ⟨fun hle => hcopy.2.2 (hret.trans_le hle), hlast⟩

end

theorem turns_invariant {c : Call} {I : Reading → Prop} (hstep : ∀ e s b s', I s → turn c e s = .ok (b, s') → I s') {es : List Event}
    {s : Reading} (hs : I s) {t : Event × Reading} (ht : t ∈ turns c es s) : I t.2 := by
  induction es generalizing s with
  | nil => cases ht
  | cons e es ih =>
    rw [turns] at ht
    rcases List.mem_cons.mp ht with rfl | ht
    · exact hs
    · split at ht
      · next s' hturn => exact ih (hstep e s true s' hs hturn) ht
      · cases ht

/-! ## The read-ahead count -/

/-- A read-ahead state as the code makes it: the count doubles up to 16, and then grows by one with the index. -/
structure Grown (m : Mapping) : Prop where
  cnt_le : m.read_ahead_cnt ≤ m.last_index + 14
  index_lt : m.last_index < 2 ^ 20

/-- **Bounded read allocations.**  In a call with any read-ahead state, any cached pages and any memory at each turn, the
misses ask for what they may ask for, and compute it exactly, if and only if each of them is modest. -/
theorem read_allocations_bounded_iff (c : Call) (m : Mapping) (es : List Event) :
    (∀ t ∈ turns c es (start c m), Misses c t.2 → Bounded c t.1 t.2) ↔
      ∀ t ∈ turns c es (start c m), Misses c t.2 → Modest c t.1 t.2 := by
  have hret : ∀ t ∈ turns c es (start c m), t.2.retval ≤ c.n := fun t ht =>
    turns_invariant (I := fun s => s.retval ≤ c.n) (fun e s b s' hle hturn => (turn_keeps hturn).1 hle) (Nat.zero_le c.n) ht
  exact forall₂_congr fun t ht => imp_congr_right fun hmiss =>
    ⟨modest_of_bounded (hret t ht) hmiss, bounded_of_modest (hret t ht) hmiss⟩

/-- A mapping without pages. -/
def emptyMapping : Mapping := ⟨fun _ => none, 0, 0, 0, 0⟩

/-- The whole of a file of 64 MiB. -/
def largeRead : Call := ⟨2 ^ 26, 0, 2 ^ 26, by decide, by decide, by decide⟩

/-- With all memory free. -/
def freeMemory : Event := ⟨TOTAL_MEM, le_refl _, ⟨fun s => some s, fun _ => true⟩, true⟩

theorem large_read_panics : ∃ t ∈ turns largeRead [freeMemory] (start largeRead emptyMapping),
    turn largeRead t.1 t.2 = .error (.readpages .buddy_order) ∧ Misses largeRead t.2 ∧ ¬Bounded largeRead t.1 t.2 := by
  have hcnt : read_sane_cnt largeRead freeMemory (start largeRead emptyMapping) = 12596 := by decide +kernel
  have hpanic : ∀ mem, mpage_readpages mem 0 12596 true (fun _ => none) 0 = .error .buddy_order := fun mem =>
    uncached_panics mem 0 (by decide) (by decide)
  refine ⟨_, List.mem_cons_self, ?_, ⟨by decide, by decide, rfl⟩, fun h => ?_⟩
  · apply turn_panics ⟨by decide, by decide, rfl⟩ (by rw [hcnt]; decide)
    rw [hcnt]
    exact hpanic _
  · have := h.order (by rw [hcnt]; decide) freeMemory.mem
    rw [hcnt] at this
    exact this (hpanic _)

end LostWakeup.Fs.ReadAhead
