/-
# LostWakeup.Mm.Sizes — `kalloc.c`: from the bytes that are asked for to the order of a block.

`size_to_page_order` rounds the size up to pages modulo `2^64`, takes the logarithm with a loop of shifts, and corrects it
by comparing with an `int`; the ASSERT of `buddy_get_pages` turns down the orders for which that `int` is wrong.
`kzalloc` clears the block with a `memset` that counts the bytes with an `int` up to a `uint`.
-/
import Mathlib.Data.Nat.Log
import LostWakeup.Mm.Holdings

namespace LostWakeup.Mm.Sizes

open Library
open Mm.Buddy (PGSIZE BUDDY_MAX_ORDER START_MEM KERNBASE sizeof_page Page)
open Mm.Kalloc
open Mm.Kalloc.Mem (Live Inv size_to_page_order orderLoop mm_init)

/-! ## Clearing a block -/

/-- The bytes of memory, by address. -/
abbrev Bytes := Int → Nat

/-- The loop of `memset`; `i` is an `int`, and the comparison converts it to `uint`. -/
def memsetLoop (dst c : Int) (n : Nat) : Nat → Int → Bytes → Bytes
  | 0, _, bytes => bytes
  | fuel + 1, i, bytes =>
    if (i % 2 ^ 32).toNat < n then
      memsetLoop dst c n fuel (int32 (i + 1)) (Function.update bytes (dst + i) (c % 2 ^ 8).toNat)
    else bytes

/-- `memset` for a `uint n`; every turn of its loop counts one. -/
def memset (bytes : Bytes) (dst c : Int) (n : Nat) : Bytes := memsetLoop dst c n n 0 bytes

def page_to_pa (page : Nat) : Nat := START_MEM + page * PGSIZE

/-- `kzalloc` on CPU `id`: the memory manager, the bytes of memory, and the pointer. -/
def kzalloc (c : Config) (s : Mem) (bytes : Bytes) (id size : Nat) (alloc_fail : List Nat) :
    Except Panic (Mem × Bytes × Option Nat) := do
  let (s, page) ← s.kmalloc c id size alloc_fail
  match page with
  | none => return (s, bytes, none)
  | some page =>
    let ptr := page_to_pa page
    return (s, memset bytes ptr 0 (size % 2 ^ 32), some ptr)

/-! ## What a request gets -/

/-- The memory manager after any calls since `mm_init`. -/
def Reach (c : Config) (s : Mem) : Prop :=
  ∃ mem s₀ es, KERNBASE ≤ c.pagemeta_start ∧ c.pagemeta_start + c.NCPU * c.PAGES_PER_CPU * sizeof_page < START_MEM ∧
    mm_init c mem = .ok s₀ ∧ Run (Mem.Step c) s₀ es s

/-- The orders whose blocks have at least `size` bytes. -/
def Enough (size : Nat) : Set Nat := {order | size ≤ 2 ^ order * PGSIZE}

/-- A request is served with a block of the least order that is enough, or turned down; what `kzalloc` hands out is
cleared as far as it was asked for. -/
structure Served (size : Nat) : Prop where
  order : size_to_page_order size ≤ BUDDY_MAX_ORDER → IsLeast (Enough size) (size_to_page_order size)
  kmalloc : ∀ c s id alloc_fail s' page, Reach c s → page ∉ alloc_fail →
    s.kmalloc c id size alloc_fail = .ok (s', some page) → ∃ i p k, Live c s' page i p k ∧ IsLeast (Enough size) k
  kzalloc : ∀ c s bytes id alloc_fail s' bytes' ptr, Reach c s →
    kzalloc c s bytes id size alloc_fail = .ok (s', bytes', some ptr) →
    ∀ a : Int, bytes' a = if ptr ≤ a ∧ a < ptr + size then 0 else bytes a

section Sizes

variable {c : Config} {s s' : Mem} {size n id : Nat} {alloc_fail : List Nat}

/-! ## The order -/

theorem orderLoop_eq {fuel tmp : Nat} (htmp : tmp < 2 ^ fuel) (order : Nat) : orderLoop fuel tmp order = order + Nat.log 2 tmp := by
  induction fuel generalizing tmp order with
  | zero =>
    obtain rfl : tmp = 0 := by omega
    rw [orderLoop, Nat.log_zero_right, Nat.add_zero]
  | succ fuel ih =>
    rw [orderLoop]
    by_cases hone : tmp > 1
    · rw [if_pos hone, Nat.shiftRight_eq_div_pow, Nat.pow_one, ih (by omega), @Nat.log_of_one_lt_of_le 2 tmp (by decide) hone]
      omega
    · rw [if_neg hone, Nat.log_of_lt (by omega), Nat.add_zero]

/-- The number of pages that a size is rounded up to. -/
def page_num (size : Nat) : Nat := roundUp PGSIZE size / PGSIZE

theorem page_num_eq (hfit : size + PGSIZE ≤ 2 ^ 64) : page_num size = (size + (PGSIZE - 1)) / PGSIZE := by
  unfold page_num roundUp PGSIZE at *
  omega

theorem page_num_wraps (hlt : size < 2 ^ 64) (hwrap : 2 ^ 64 < size + PGSIZE) : page_num size = 0 := by
  unfold page_num roundUp PGSIZE at *
  omega

theorem le_pages_iff {pages : Nat} : size ≤ pages * PGSIZE ↔ (size + (PGSIZE - 1)) / PGSIZE ≤ pages := by
  unfold PGSIZE
  omega

theorem size_to_page_order_eq (size : Nat) : size_to_page_order size =
    if page_num size > toUint64 (int_shl_one (Nat.log 2 (page_num size))) then Nat.log 2 (page_num size) + 1
    else Nat.log 2 (page_num size) := by
  have hsmall : page_num size < 2 ^ 64 := by
    unfold page_num roundUp PGSIZE
    omega
  have hloop : orderLoop 64 (page_num size) 0 = Nat.log 2 (page_num size) := by rw [orderLoop_eq hsmall, Nat.zero_add]
  rw [size_to_page_order]
  rw [show roundUp PGSIZE size / PGSIZE = page_num size from rfl, hloop]

/-- Where the `int` is the power of two, the order is the least that is enough. -/
theorem size_to_page_order_isLeast (hpos : 0 < size) (hfit : size + PGSIZE ≤ 2 ^ 64)
    (hshl : toUint64 (int_shl_one (Nat.log 2 (page_num size))) = 2 ^ Nat.log 2 (page_num size)) :
    IsLeast (Enough size) (size_to_page_order size) := by
  have henough : ∀ order, order ∈ Enough size ↔ page_num size ≤ 2 ^ order := by
    intro order
    rw [page_num_eq hfit]
    exact le_pages_iff
  have hne : page_num size ≠ 0 := by
    rw [page_num_eq hfit]
    unfold PGSIZE
    omega
  have hlo : 2 ^ Nat.log 2 (page_num size) ≤ page_num size := Nat.pow_log_le_self 2 hne
  have hhi : page_num size < 2 ^ (Nat.log 2 (page_num size) + 1) := Nat.lt_pow_succ_log_self (by decide) _
  rw [size_to_page_order_eq, hshl]
  split
  · rename_i hgt
    refine ⟨(henough _).mpr hhi.le, ?_⟩
    intro order horder
    have hle := (henough order).mp horder
    exact (Nat.pow_lt_pow_iff_right (by decide : 1 < 2)).mp (hgt.trans_le hle)
  · refine ⟨(henough _).mpr (by omega), ?_⟩
    intro order horder
    have hle := (henough order).mp horder
    exact (Nat.pow_le_pow_iff_right (by decide : 1 < 2)).mp (hlo.trans hle)

theorem shl_of_order_le (hle : size_to_page_order size ≤ BUDDY_MAX_ORDER) :
    toUint64 (int_shl_one (Nat.log 2 (page_num size))) = 2 ^ Nat.log 2 (page_num size) := by
  have hsmall : ∀ k, k ≤ BUDDY_MAX_ORDER → toUint64 (int_shl_one k) = 2 ^ k := by decide
  apply hsmall
  rw [size_to_page_order_eq] at hle
  split at hle
  · exact Nat.le_of_succ_le hle
  · exact hle

theorem order_isLeast (hpos : 0 < size) (hfit : size + PGSIZE ≤ 2 ^ 64)
    (hle : (if size ≤ PGSIZE then 0 else size_to_page_order size) ≤ BUDDY_MAX_ORDER) :
    IsLeast (Enough size) (if size ≤ PGSIZE then 0 else size_to_page_order size) := by
  split
  · rename_i hpage
    refine ⟨?_, fun order _ => Nat.zero_le order⟩
    show size ≤ 2 ^ 0 * PGSIZE
    omega
  · rename_i hpage
    rw [if_neg hpage] at hle
    exact size_to_page_order_isLeast hpos hfit (shl_of_order_le hle)

/-! ## The block -/

theorem Reach.inv (h : Reach c s) : s.Inv c := by
  obtain ⟨mem, s₀, es, hbase, hroom, hinit, hrun⟩ := h
  obtain ⟨s₁, hinit₁, hinv, _⟩ := Mem.mm_init_ok c mem hbase hroom
  rw [hinit] at hinit₁
  obtain rfl := Except.ok.inj hinit₁
  exact hrun.invariant (I := Inv c) (fun _ _ _ h hs => h.step hs) hinv

theorem order_le (h : s.Inv c) {page : Nat} (halloc : s.kmalloc c id size alloc_fail = .ok (s', some page)) :
    (if size ≤ PGSIZE then 0 else size_to_page_order size) ≤ BUDDY_MAX_ORDER := by
  rcases h.find halloc with ⟨hnone, _⟩ | ⟨s₁, q, htaken, _⟩
  · cases hnone
  · exact htaken.order_le

/-! ## The bytes -/

theorem memsetLoop_eq {dst : Int} {i : Nat} (bytes : Bytes) (hi : i ≤ n) (hn : n < 2 ^ 31) (fuel : Nat) (hfuel : n ≤ i + fuel) (a : Int) :
    memsetLoop dst 0 n fuel i bytes a = if dst + i ≤ a ∧ a < dst + n then 0 else bytes a := by
  induction fuel generalizing i bytes with
  | zero =>
    rw [memsetLoop, if_neg (by omega)]
  | succ fuel ih =>
    have huint : ((i : Int) % 2 ^ 32).toNat = i := by omega
    rw [memsetLoop, huint]
    split
    · rename_i hlt
      have hnext : int32 ((i : Int) + 1) = ((i + 1 : Nat) : Int) := by
        rw [int32_of_range (by unfold INT_MIN; omega) (by unfold INT_MAX; omega)]
        rfl
      rw [hnext, ih _ hlt (by omega)]
      -- the byte at `dst + i` is the one that this turn has written
      rcases eq_or_ne a (dst + i) with rfl | hne
      · rw [if_neg (by omega), Function.update_self, if_pos (by omega)]
        rfl
      · rw [Function.update_of_ne hne]
        apply if_congr _ rfl rfl
        omega
    · rw [if_neg (by omega)]

theorem memset_eq (bytes : Bytes) (dst : Int) (hn : n < 2 ^ 31) (a : Int) :
    memset bytes dst 0 n a = if dst ≤ a ∧ a < dst + n then 0 else bytes a := by
  have hloop := @memsetLoop_eq _ dst _ bytes (Nat.zero_le n) hn n (by omega) a
  rw [Nat.cast_zero, Int.add_zero] at hloop
  exact hloop

theorem kzalloc_ok {bytes bytes' : Bytes} {ptr : Nat} (h : kzalloc c s bytes id size alloc_fail = .ok (s', bytes', some ptr)) :
    ∃ page, s.kmalloc c id size alloc_fail = .ok (s', some page) ∧ bytes' = memset bytes ptr 0 (size % 2 ^ 32) := by
  unfold kzalloc at h
  rcases halloc : s.kmalloc c id size alloc_fail with e | ⟨s₁, page⟩
  · rw [halloc] at h
    cases h
  rw [halloc] at h
  cases page with
  | none => cases h
  | some page =>
    have heq : (s₁, memset bytes (page_to_pa page) 0 (size % 2 ^ 32), some (page_to_pa page)) = (s', bytes', some ptr) :=
      Except.ok.inj h
    cases heq
    exact ⟨page, rfl, rfl⟩

/-! ## Served -/

theorem served (hpos : 0 < size) (hfit : size + PGSIZE ≤ 2 ^ 64) : Served size where
  order := fun hle => size_to_page_order_isLeast hpos hfit (shl_of_order_le hle)
  kmalloc := by
    intro c s id alloc_fail s' page hreach hnot halloc
    obtain ⟨_, _, hnew⟩ := Holdings.alloc_spec hreach.inv halloc
    obtain ⟨_, _, i, p, hlive⟩ := hnew page rfl hnot
    exact ⟨i, p, _, hlive, order_isLeast hpos hfit (order_le hreach.inv halloc)⟩
  kzalloc := by
    intro c s bytes id alloc_fail s' bytes' ptr hreach h a
    obtain ⟨page, halloc, rfl⟩ := kzalloc_ok h
    have hle := order_le hreach.inv halloc
    have henough : size ≤ 2 ^ (if size ≤ PGSIZE then 0 else size_to_page_order size) * PGSIZE := (order_isLeast hpos hfit hle).1
    -- the largest block has `2^25` bytes
    have hsmall : size ≤ 2 ^ 25 :=
      henough.trans (Nat.mul_le_mul_right PGSIZE (Nat.pow_le_pow_right (by decide) hle))
    rw [Nat.mod_eq_of_lt (hsmall.trans_lt (by decide)), memset_eq bytes ptr (hsmall.trans_lt (by decide))]

theorem wraps_order (hlt : size < 2 ^ 64) (hwrap : 2 ^ 64 < size + PGSIZE) : size_to_page_order size = 0 := by
  rw [size_to_page_order_eq, page_num_wraps hlt hwrap, Nat.log_zero_right, if_neg (Nat.not_lt_zero _)]

theorem not_served (hlt : size < 2 ^ 64) (hwrap : 2 ^ 64 < size + PGSIZE) : ¬ Served size := by
  intro h
  have hzero := wraps_order hlt hwrap
  have hleast := h.order (hzero ▸ Nat.zero_le _)
  rw [hzero] at hleast
  have hone : size ≤ 2 ^ 0 * PGSIZE := hleast.1
  unfold PGSIZE at hwrap hone
  omega

/-- A machine with one page. -/
def one_page : Config := ⟨1, 1, 0x80400000⟩

theorem one_page_alloc : (do
    let s ← mm_init one_page fun _ _ => ⟨false, 0⟩
    let (_, page) ← s.alloc one_page 0 0 []
    return page : Except Panic (Option Nat)).toOption = some (some 0) := by decide +kernel

end Sizes

/-- **Size to order.** Every request gets the least block that is enough, cleared as far as it was asked for, or is turned
down, if and only if its size can be rounded up to a page in 64 bits. -/
theorem served_iff (size : Nat) (hpos : 0 < size) (hlt : size < 2 ^ 64) : Served size ↔ size + PGSIZE ≤ 2 ^ 64 := by
  constructor
  · intro h
    by_contra hwrap
    exact not_served hlt (Nat.lt_of_not_le hwrap) h
  · exact served hpos

theorem served_iff_two_pages : Served 4097 :=
  (served_iff 4097 (by decide) (by decide)).mpr (by decide)

/-- The largest size of all gets one page. -/
theorem largest_size_gets_one_page : ¬ Served (2 ^ 64 - 1) ∧
    ∃ s s', Reach one_page s ∧ s.kmalloc one_page 0 (2 ^ 64 - 1) [] = .ok (s', some 0) := by
  refine ⟨not_served (by decide) (by decide), ?_⟩
  obtain ⟨s, hinit, _⟩ := Mem.mm_init_ok one_page (fun _ _ => ⟨false, 0⟩) (by decide) (by decide)
  have halloc := one_page_alloc
  rw [hinit] at halloc
  have hstep : s.kmalloc one_page 0 (2 ^ 64 - 1) [] = s.alloc one_page 0 0 [] := by
    rw [Mem.kmalloc, if_neg (by decide), wraps_order (by decide) (by decide)]
  rcases h : s.alloc one_page 0 0 [] with e | ⟨s', page⟩
  · simp only [bind, Except.bind, h] at halloc
    cases halloc
  · simp only [bind, Except.bind, h] at halloc
    obtain rfl : page = some 0 := Option.some.inj halloc
    exact ⟨s, s', ⟨fun _ _ => ⟨false, 0⟩, s, [], by decide, by decide, hinit, .nil s⟩, hstep.trans h⟩

end LostWakeup.Mm.Sizes
