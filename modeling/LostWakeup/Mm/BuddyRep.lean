/-
# LostWakeup.Mm.BuddyRep — a buddy pool as a tiling of its pages.

The abstract state is a tiling of the pages by aligned blocks, each free, held by a caller, or in the hands of the
allocator.  `Rep` ties the page metadata and the free lists to it, and a lemma for each elementary move of the code says
what the move does to it.
-/
import Mathlib.Algebra.BigOperators.Group.Finset.Piecewise
import Mathlib.Algebra.Order.BigOperators.Group.Finset
import LostWakeup.Library.Dyadic
import LostWakeup.Mm.Buddy

namespace LostWakeup.Mm.Buddy

open Library
open Function (update update_eq_self update_of_ne update_self)
open List (map_cons map_nil sum_cons sum_nil)

/-! ## The abstract pool -/

/-- Who has a block: the free lists, a caller, or the running allocator call. -/
inductive Owner
  | free
  | out
  | cur
  deriving DecidableEq

/-- The blocks of a pool: order and owner, at the block's first page. -/
abbrev Blocks := Nat → Option (Nat × Owner)

namespace Blocks

def orders (t : Blocks) : Nat → Option Nat := fun p => (t p).map Prod.fst

theorem orders_update (t : Blocks) (p : Nat) (v : Option (Nat × Owner)) :
    orders (update t p v) = update (orders t) p (v.map Prod.fst) := by
  funext x
  by_cases hx : x = p
  · subst hx
    simp [orders]
  · simp [orders, hx]

theorem orders_eq_some {t : Blocks} {p k : Nat} {o : Owner} (h : t p = some (k, o)) :
    orders t p = some k := by
  simp [orders, h]

theorem orders_update_owner {t : Blocks} {p k : Nat} {o : Owner} (h : t p = some (k, o))
    (o' : Owner) : orders (update t p (some (k, o'))) = orders t := by
  rw [orders_update, Option.map_some, ← orders_eq_some h, update_eq_self]

end Blocks

/-- The number of pages on the free lists. -/
def freeWeight (pool : Pool) : Nat :=
  ∑ k ∈ Finset.range (BUDDY_MAX_ORDER + 1), (pool.freelists k).lists.length * 2 ^ k

/-- The number of pages in a list of blocks. -/
def weight (bs : List (Nat × Nat)) : Nat := (bs.map fun b => 2 ^ b.2).sum

/-- What the code stores about page `p`, when `v` is the block that starts there. -/
structure Agrees (n : Nat) (pool : Pool) (out : List (Nat × Nat)) (cur : Option (Nat × Nat)) (p : Nat)
    (v : Option (Nat × Owner)) : Prop where
  order : ∀ k o, v = some (k, o) → k ≤ BUDDY_MAX_ORDER ∧ (pool.pages p).order = k
  allocated : p < n → ((pool.pages p).allocated = true ↔ ∃ k, v = some (k, .out))
  mem_free : ∀ k, k ≤ BUDDY_MAX_ORDER → (p ∈ (pool.freelists k).lists ↔ v = some (k, .free))
  mem_out : ∀ k, (p, k) ∈ out ↔ v = some (k, .out)
  is_cur : ∀ k, cur = some (p, k) ↔ v = some (k, .cur)

/-- No two buddies below the maximal order are both free. -/
def NoBuddies (t : Blocks) : Prop :=
  ∀ p k, k < BUDDY_MAX_ORDER → t p = some (k, .free) → t (p ^^^ 2 ^ k) ≠ some (k, .free)

/-- The free lists have no repetitions and their counters are right. -/
def ListsOk (pool : Pool) : Prop :=
  ∀ k, k ≤ BUDDY_MAX_ORDER → (pool.freelists k).lists.Nodup ∧
    (pool.freelists k).num = (pool.freelists k).lists.length

/-- The pool's metadata and the blocks its callers hold represent the tiling `t` of `n` pages, with
`cur` the block the running call has in hand. -/
structure Rep (n : Nat) (t : Blocks) (cur : Option (Nat × Nat)) (pool : Pool)
    (out : List (Nat × Nat)) : Prop where
  tiles : Dyadic.Tiles n t.orders
  mem_size : pool.mem_size = n * PGSIZE
  small : n < 2 ^ 19
  agrees : ∀ p, Agrees n pool out cur p (t p)
  lists : ListsOk pool
  out_nodup : out.Nodup
  no_buddies : NoBuddies t
  total : freeWeight pool + weight out + weight cur.toList = n

/-! ## Changing one block -/

theorem Agrees.frame {n : Nat} {pool pool' : Pool} {out out' : List (Nat × Nat)}
    {cur cur' : Option (Nat × Nat)} {p : Nat} {v : Option (Nat × Owner)}
    (h : Agrees n pool out cur p v) (hpages : pool'.pages p = pool.pages p)
    (hlists : ∀ k, p ∈ (pool'.freelists k).lists ↔ p ∈ (pool.freelists k).lists)
    (hout : ∀ k, (p, k) ∈ out' ↔ (p, k) ∈ out)
    (hcur : ∀ k, cur' = some (p, k) ↔ cur = some (p, k)) : Agrees n pool' out' cur' p v where
  order := by
    rw [hpages]
    exact h.order
  allocated := by
    rw [hpages]
    exact h.allocated
  mem_free k hk := (hlists k).trans (h.mem_free k hk)
  mem_out k := (hout k).trans (h.mem_out k)
  is_cur k := (hcur k).trans (h.is_cur k)

theorem NoBuddies.update_not_free {t : Blocks} (h : NoBuddies t) {p : Nat}
    {v : Option (Nat × Owner)} (hv : ∀ k, v ≠ some (k, .free)) : NoBuddies (update t p v) := by
  intro q k hk hq
  have hqp : q ≠ p := by
    rintro rfl
    rw [update_self] at hq
    exact hv k hq
  rw [update_of_ne hqp] at hq
  by_cases hbp : q ^^^ 2 ^ k = p
  · rw [hbp, update_self]
    exact hv k
  · rw [update_of_ne hbp]
    exact h q k hk hq

theorem xor_two_pow_ne (p k : Nat) : p ^^^ 2 ^ k ≠ p := by
  intro h
  have hzero : 2 ^ k = 0 := by
    have hxor := congrArg (p ^^^ ·) h
    simp at hxor
  have := Nat.two_pow_pos k
  omega

theorem NoBuddies.update_free {t : Blocks} (h : NoBuddies t) {p k : Nat}
    (hb : k < BUDDY_MAX_ORDER → t (p ^^^ 2 ^ k) ≠ some (k, .free)) :
    NoBuddies (update t p (some (k, .free))) := by
  intro q j hj hq
  by_cases hqp : q = p
  · subst hqp
    rw [update_self] at hq
    cases hq
    rw [update_of_ne (xor_two_pow_ne q k)]
    exact hb hj
  · rw [update_of_ne hqp] at hq
    by_cases hbp : q ^^^ 2 ^ j = p
    · -- `q` is the buddy of `p` then
      have hpq : p ^^^ 2 ^ j = q := by rw [← hbp, Dyadic.xor_two_pow_xor]
      rw [hbp, update_self]
      intro hk
      cases hk
      exact hb hj (hpq ▸ hq)
    · rw [update_of_ne hbp]
      exact h q j hj hq

/-! ## Changing one free list -/

/-- Put `page` on the list of order `k` and count it. -/
def Pool.enlist (pool : Pool) (page k : Nat) : Pool := (pool.list_add page k).addNum k 1

/-- Take `page` off its list and count it off list `k`. -/
def Pool.delist (pool : Pool) (page k : Nat) : Pool :=
  Pool.addNum
    { pool with
      freelists := fun i => { pool.freelists i with lists := (pool.freelists i).lists.erase page } }
    k (-1)

@[simp] theorem enlist_pages (pool : Pool) (page k : Nat) :
    (pool.enlist page k).pages = pool.pages := rfl

@[simp] theorem delist_pages (pool : Pool) (page k : Nat) :
    (pool.delist page k).pages = pool.pages := rfl

theorem enlist_lists (pool : Pool) (page k j : Nat) :
    ((pool.enlist page k).freelists j).lists
      = if j = k then page :: (pool.freelists k).lists else (pool.freelists j).lists := by
  by_cases hj : j = k
  · subst hj
    simp [Pool.enlist, Pool.addNum, Pool.list_add]
  · simp [Pool.enlist, Pool.addNum, Pool.list_add, hj]

theorem enlist_num (pool : Pool) (page k j : Nat) :
    ((pool.enlist page k).freelists j).num
      = if j = k then int32 ((pool.freelists k).num + 1) else (pool.freelists j).num := by
  by_cases hj : j = k
  · subst hj
    simp [Pool.enlist, Pool.addNum, Pool.list_add]
  · simp [Pool.enlist, Pool.addNum, Pool.list_add, hj]

theorem delist_lists (pool : Pool) (page k j : Nat) :
    ((pool.delist page k).freelists j).lists = (pool.freelists j).lists.erase page := by
  by_cases hj : j = k
  · subst hj
    simp [Pool.delist, Pool.addNum]
  · simp [Pool.delist, Pool.addNum, hj]

theorem delist_num (pool : Pool) (page k j : Nat) :
    ((pool.delist page k).freelists j).num
      = if j = k then int32 ((pool.freelists k).num - 1) else (pool.freelists j).num := by
  by_cases hj : j = k
  · subst hj
    simp [Pool.delist, Pool.addNum, Int.sub_eq_add_neg]
  · simp [Pool.delist, Pool.addNum, hj]

/-- Changing the length of one list changes the weight by that many blocks. -/
theorem freeWeight_change (pool pool' : Pool) {k : Nat} (hk : k ≤ BUDDY_MAX_ORDER)
    (hsame : ∀ j, j ≤ BUDDY_MAX_ORDER → j ≠ k →
      (pool'.freelists j).lists.length = (pool.freelists j).lists.length) :
    freeWeight pool' + (pool.freelists k).lists.length * 2 ^ k
      = freeWeight pool + (pool'.freelists k).lists.length * 2 ^ k := by
  have hmem : k ∈ Finset.range (BUDDY_MAX_ORDER + 1) := Finset.mem_range.mpr (by omega)
  have hrest : ∑ j ∈ (Finset.range (BUDDY_MAX_ORDER + 1)).erase k,
        (pool'.freelists j).lists.length * 2 ^ j
      = ∑ j ∈ (Finset.range (BUDDY_MAX_ORDER + 1)).erase k, (pool.freelists j).lists.length * 2 ^ j :=
    Finset.sum_congr rfl fun j hj => by
      have hlt := Finset.mem_range.mp (Finset.mem_of_mem_erase hj)
      rw [hsame j (by omega) (Finset.ne_of_mem_erase hj)]
  have hnew := Finset.add_sum_erase _ (fun j => (pool'.freelists j).lists.length * 2 ^ j) hmem
  have hold := Finset.add_sum_erase _ (fun j => (pool.freelists j).lists.length * 2 ^ j) hmem
  simp only [freeWeight]
  omega

theorem length_le_freeWeight (pool : Pool) {k : Nat} (hk : k ≤ BUDDY_MAX_ORDER) :
    (pool.freelists k).lists.length * 2 ^ k ≤ freeWeight pool :=
  Finset.single_le_sum (f := fun j => (pool.freelists j).lists.length * 2 ^ j)
    (fun _ _ => Nat.zero_le _) (Finset.mem_range.mpr (by omega))

theorem freeWeight_enlist (pool : Pool) (page : Nat) {k : Nat} (hk : k ≤ BUDDY_MAX_ORDER) :
    freeWeight (pool.enlist page k) = freeWeight pool + 2 ^ k := by
  have hch := freeWeight_change pool (pool.enlist page k) hk
    (fun j _ hj => by rw [enlist_lists, if_neg hj])
  rw [enlist_lists, if_pos rfl, List.length_cons, Nat.add_mul, Nat.one_mul] at hch
  omega

theorem freeWeight_delist {pool : Pool} {page k : Nat} (hk : k ≤ BUDDY_MAX_ORDER)
    (hpage : ∀ j, j ≤ BUDDY_MAX_ORDER → (page ∈ (pool.freelists j).lists ↔ j = k)) :
    freeWeight (pool.delist page k) + 2 ^ k = freeWeight pool := by
  have hmem := (hpage k hk).mpr rfl
  have hpos := List.length_pos_of_mem hmem
  have hch := freeWeight_change pool (pool.delist page k) hk (fun j hj hjk => by
    rw [delist_lists, List.erase_of_not_mem fun hin => hjk ((hpage j hj).mp hin)])
  rw [delist_lists, List.length_erase_of_mem hmem, Nat.sub_mul, Nat.one_mul] at hch
  have hge : 2 ^ k ≤ (pool.freelists k).lists.length * 2 ^ k := Nat.le_mul_of_pos_left _ hpos
  omega

theorem ListsOk.enlist {pool : Pool} (h : ListsOk pool) {page k : Nat} (hk : k ≤ BUDDY_MAX_ORDER)
    (hpage : page ∉ (pool.freelists k).lists) (hsmall : freeWeight pool < 2 ^ 19) :
    ListsOk (pool.enlist page k) := by
  intro j hj
  obtain ⟨hnd, hnum⟩ := h j hj
  rw [enlist_lists, enlist_num]
  by_cases hjk : j = k
  · subst hjk
    have hlen := length_le_freeWeight pool hj
    have hpos := Nat.two_pow_pos j
    have hle : (pool.freelists j).lists.length ≤ (pool.freelists j).lists.length * 2 ^ j :=
      Nat.le_mul_of_pos_right _ hpos
    simp only [if_true, List.length_cons, List.nodup_cons]
    refine ⟨⟨hpage, hnd⟩, ?_⟩
    rw [hnum, int32_of_range (by simp only [INT_MIN]; omega) (by simp only [INT_MAX]; omega)]
    push_cast
    rfl
  · simpa [hjk] using ⟨hnd, hnum⟩

theorem ListsOk.delist {pool : Pool} (h : ListsOk pool) {page k : Nat} (hk : k ≤ BUDDY_MAX_ORDER)
    (hpage : ∀ j, j ≤ BUDDY_MAX_ORDER → (page ∈ (pool.freelists j).lists ↔ j = k))
    (hsmall : freeWeight pool < 2 ^ 19) : ListsOk (pool.delist page k) := by
  intro j hj
  obtain ⟨hnd, hnum⟩ := h j hj
  rw [delist_lists, delist_num]
  refine ⟨hnd.erase _, ?_⟩
  by_cases hjk : j = k
  · subst hjk
    have hmem := (hpage j hj).mpr rfl
    have hlen := length_le_freeWeight pool hj
    have hpos := List.length_pos_of_mem hmem
    have hle : (pool.freelists j).lists.length ≤ (pool.freelists j).lists.length * 2 ^ j :=
      Nat.le_mul_of_pos_right _ (Nat.two_pow_pos j)
    rw [if_pos rfl, List.length_erase_of_mem hmem, hnum,
      int32_of_range (by simp only [INT_MIN]; omega) (by simp only [INT_MAX]; omega)]
    omega
  · have hnot : page ∉ (pool.freelists j).lists := fun hmem => hjk ((hpage j hj).mp hmem)
    rw [if_neg hjk, List.erase_of_not_mem hnot, hnum]

/-! ## The moves -/

namespace Rep

variable {n : Nat} {t : Blocks} {pool : Pool} {out : List (Nat × Nat)} {p k : Nat}
  {c : Option (Nat × Nat)}

theorem lt_of_block (h : Rep n t c pool out) {o : Owner} (hp : t p = some (k, o)) : p < n := by
  have hin := h.tiles.inside p k (Blocks.orders_eq_some hp)
  have hpos := Nat.two_pow_pos k
  omega

theorem freeWeight_lt (h : Rep n t c pool out) : freeWeight pool < 2 ^ 19 := by
  have htotal := h.total
  have hsmall := h.small
  omega

theorem mem_list_iff (h : Rep n t c pool out) (hp : t p = some (k, .free)) {j : Nat}
    (hj : j ≤ BUDDY_MAX_ORDER) : p ∈ (pool.freelists j).lists ↔ j = k := by
  rw [(h.agrees p).mem_free j hj, hp]
  simp [eq_comm]

theorem not_mem_list (h : Rep n t c pool out) (hp : ∀ k, t p ≠ some (k, .free)) {j : Nat}
    (hj : j ≤ BUDDY_MAX_ORDER) : p ∉ (pool.freelists j).lists := fun hmem =>
  hp j (((h.agrees p).mem_free j hj).mp hmem)

/-- A caller gives its block back: `page->allocated = 0`. -/
theorem take_back (h : Rep n t none pool out) (hp : (p, k) ∈ out) :
    Rep n (update t p (some (k, .cur))) (some (p, k)) (pool.setAllocated p false)
      (out.erase (p, k)) := by
  have hpa := h.agrees p
  have htp := (hpa.mem_out k).mp hp
  rw [htp] at hpa
  refine ⟨?_, h.mem_size, h.small, ?_, h.lists, h.out_nodup.erase _, ?_, ?_⟩
  · rw [Blocks.orders_update_owner htp]
    exact h.tiles
  · intro q
    by_cases hq : q = p
    · subst hq
      rw [update_self]
      refine ⟨?_, ?_, ?_, ?_, ?_⟩
      · intro j o hj
        cases hj
        simpa [Pool.setAllocated] using hpa.order k .out rfl
      · simp [Pool.setAllocated]
      · intro j hj
        simpa [Pool.setAllocated] using hpa.mem_free j hj
      · intro j
        rw [h.out_nodup.mem_erase_iff, hpa.mem_out]
        simp [eq_comm]
      · simp
    · rw [update_of_ne hq]
      refine (h.agrees q).frame (by simp [Pool.setAllocated, hq]) (fun _ => Iff.rfl) ?_ ?_
      · intro j
        simp [h.out_nodup.mem_erase_iff, hq]
      · intro j
        simp [Ne.symm hq]
  · exact h.no_buddies.update_not_free (by simp)
  · have htotal := h.total
    have hsum := ((List.perm_cons_erase hp).map fun b => 2 ^ b.2).sum_eq
    simp only [weight, Option.toList, map_nil, sum_nil, map_cons, sum_cons] at *
    have hfree : freeWeight (pool.setAllocated p false) = freeWeight pool := rfl
    omega

/-- The block in hand goes to the caller: `page->allocated = 1`. -/
theorem hand_out (h : Rep n t (some (p, k)) pool out) :
    Rep n (update t p (some (k, .out))) none (pool.setAllocated p true)
      ((p, k) :: out) := by
  have hpa := h.agrees p
  have htp := (hpa.is_cur k).mp rfl
  rw [htp] at hpa
  have hnot : ∀ j, (p, j) ∉ out := fun j hmem => by
    have := (hpa.mem_out j).mp hmem
    simp at this
  refine ⟨?_, h.mem_size, h.small, ?_, h.lists, List.nodup_cons.mpr ⟨hnot k, h.out_nodup⟩, ?_, ?_⟩
  · rw [Blocks.orders_update_owner htp]
    exact h.tiles
  · intro q
    by_cases hq : q = p
    · subst hq
      rw [update_self]
      refine ⟨?_, ?_, ?_, ?_, ?_⟩
      · intro j o hj
        cases hj
        simpa [Pool.setAllocated] using hpa.order k .cur rfl
      · simp [Pool.setAllocated]
      · intro j hj
        simpa [Pool.setAllocated] using hpa.mem_free j hj
      · intro j
        simp [hnot, eq_comm]
      · simp
    · rw [update_of_ne hq]
      refine (h.agrees q).frame (by simp [Pool.setAllocated, hq]) (fun _ => Iff.rfl) ?_ ?_
      · intro j
        simp [hq]
      · intro j
        simp [Ne.symm hq]
  · exact h.no_buddies.update_not_free (by simp)
  · have htotal := h.total
    simp only [weight, Option.toList, map_nil, sum_nil, map_cons, sum_cons] at *
    have hfree : freeWeight (pool.setAllocated p true) = freeWeight pool := rfl
    omega

/-- The block in hand goes on the free list of its order. -/
theorem list (h : Rep n t (some (p, k)) pool out)
    (hb : k < BUDDY_MAX_ORDER → t (p ^^^ 2 ^ k) ≠ some (k, .free)) :
    Rep n (update t p (some (k, .free))) none (pool.enlist p k) out := by
  have hpa := h.agrees p
  have htp := (hpa.is_cur k).mp rfl
  have hk := (hpa.order k .cur htp).1
  have hnot : ∀ j, j ≤ BUDDY_MAX_ORDER → p ∉ (pool.freelists j).lists := fun j hj =>
    h.not_mem_list (by simp [htp]) hj
  rw [htp] at hpa
  refine ⟨?_, h.mem_size, h.small, ?_, h.lists.enlist hk (hnot k hk) h.freeWeight_lt, h.out_nodup,
    h.no_buddies.update_free hb, ?_⟩
  · rw [Blocks.orders_update_owner htp]
    exact h.tiles
  · intro q
    by_cases hq : q = p
    · subst hq
      rw [update_self]
      refine ⟨?_, ?_, ?_, ?_, ?_⟩
      · intro j o hj
        cases hj
        exact hpa.order k .cur rfl
      · intro hlt
        simpa using hpa.allocated hlt
      · intro j hj
        rw [enlist_lists]
        by_cases hjk : j = k
        · simp [hjk]
        · simp [hjk, hnot j hj, Ne.symm hjk]
      · intro j
        simpa using hpa.mem_out j
      · simp
    · rw [update_of_ne hq]
      refine (h.agrees q).frame rfl ?_ (fun _ => Iff.rfl) ?_
      · intro j
        rw [enlist_lists]
        by_cases hjk : j = k
        · simp [hjk, hq]
        · simp [hjk]
      · intro j
        simp [Ne.symm hq]
  · have htotal := h.total
    rw [freeWeight_enlist pool p hk]
    simp only [weight, Option.toList, map_nil, sum_nil, map_cons, sum_cons] at *
    omega

/-- A free block is taken off its list. -/
theorem unlist (h : Rep n t none pool out) (htp : t p = some (k, .free)) :
    Rep n (update t p (some (k, .cur))) (some (p, k)) (pool.delist p k) out := by
  have hpa := h.agrees p
  have hk := (hpa.order k .free htp).1
  have hmem : ∀ j, j ≤ BUDDY_MAX_ORDER → (p ∈ (pool.freelists j).lists ↔ j = k) := fun j hj =>
    h.mem_list_iff htp hj
  rw [htp] at hpa
  refine ⟨?_, h.mem_size, h.small, ?_, h.lists.delist hk hmem h.freeWeight_lt, h.out_nodup,
    h.no_buddies.update_not_free (by simp), ?_⟩
  · rw [Blocks.orders_update_owner htp]
    exact h.tiles
  · intro q
    by_cases hq : q = p
    · subst hq
      rw [update_self]
      refine ⟨?_, ?_, ?_, ?_, ?_⟩
      · intro j o hj
        cases hj
        exact hpa.order k .free rfl
      · intro hlt
        simpa using hpa.allocated hlt
      · intro j hj
        rw [delist_lists, (h.lists j hj).1.mem_erase_iff]
        simp
      · intro j
        simpa using hpa.mem_out j
      · simp
    · rw [update_of_ne hq]
      refine (h.agrees q).frame rfl ?_ (fun _ => Iff.rfl) ?_
      · intro j
        rw [delist_lists, List.mem_erase_of_ne hq]
      · intro j
        simp [Ne.symm hq]
  · have htotal := h.total
    have hweight := freeWeight_delist hk hmem
    simp only [weight, Option.toList, map_nil, sum_nil, map_cons, sum_cons] at *
    omega

/-- Halve the block in hand and list its right half. -/
theorem halve (h : Rep n t (some (p, k + 1)) pool out) :
    Rep n (update (update t p (some (k, .cur))) (p + 2 ^ k) (some (k, .free)))
      (some (p, k)) (((pool.setOrder p k).setOrder (p + 2 ^ k) k).enlist (p + 2 ^ k) k) out := by
  have hpos := Nat.two_pow_pos k
  have hpow : 2 ^ (k + 1) = 2 ^ k + 2 ^ k := by ring
  have hne : p + 2 ^ k ≠ p := by omega
  have hpa := h.agrees p
  have htp := (hpa.is_cur (k + 1)).mp rfl
  have hk := (hpa.order _ .cur htp).1
  have hord := Blocks.orders_eq_some htp
  have hal := h.tiles.aligned p _ hord
  have hin := h.tiles.inside p _ hord
  -- the right half starts inside the block, so no block started there
  have htq : t (p + 2 ^ k) = none := by
    have hnone := h.tiles.interior hord (i := p + 2 ^ k) (by omega) (by omega)
    simpa [Blocks.orders] using hnone
  have hqa := h.agrees (p + 2 ^ k)
  rw [htq] at hqa
  rw [htp] at hpa
  have hnot : ∀ j, j ≤ BUDDY_MAX_ORDER → p + 2 ^ k ∉ (pool.freelists j).lists := fun j hj =>
    h.not_mem_list (by simp [htq]) hj
  refine ⟨?_, h.mem_size, h.small, ?_, ?_, h.out_nodup, ?_, ?_⟩
  · rw [Blocks.orders_update, Blocks.orders_update]
    exact h.tiles.split hord
  · intro q
    by_cases hq : q = p + 2 ^ k
    · subst hq
      rw [update_self]
      refine ⟨?_, ?_, ?_, ?_, ?_⟩
      · intro j o hj
        cases hj
        exact ⟨by omega, by simp [Pool.setOrder]⟩
      · intro hlt
        simpa [Pool.setOrder, hne] using hqa.allocated hlt
      · intro j hj
        rw [enlist_lists]
        by_cases hjk : j = k
        · simp [hjk]
        · simpa [hjk, Ne.symm hjk, Pool.setOrder] using hnot j hj
      · intro j
        simpa using hqa.mem_out j
      · simp
    · rw [update_of_ne hq]
      have hlists : ∀ j, q ∈ ((((pool.setOrder p k).setOrder (p + 2 ^ k) k).enlist
          (p + 2 ^ k) k).freelists j).lists ↔ q ∈ (pool.freelists j).lists := by
        intro j
        rw [enlist_lists]
        by_cases hjk : j = k
        · simp [hjk, hq, Pool.setOrder]
        · simp [hjk, Pool.setOrder]
      by_cases hqp : q = p
      · subst hqp
        rw [update_self]
        refine ⟨?_, ?_, ?_, ?_, ?_⟩
        · intro j o hj
          cases hj
          exact ⟨by omega, by simp [Pool.setOrder]⟩
        · intro hlt
          simpa [Pool.setOrder, hq] using hpa.allocated hlt
        · intro j hj
          rw [hlists, hpa.mem_free j hj]
          simp
        · intro j
          simpa using hpa.mem_out j
        · simp
      · rw [update_of_ne hqp]
        refine (h.agrees q).frame (by simp [Pool.setOrder, hq, hqp]) hlists (fun _ => Iff.rfl) ?_
        intro j
        simp [Ne.symm hqp]
  · have hlists : ListsOk ((pool.setOrder p k).setOrder (p + 2 ^ k) k) := h.lists
    exact hlists.enlist (by omega) (hnot k (by omega)) h.freeWeight_lt
  · refine (h.no_buddies.update_not_free (by simp)).update_free fun _ => ?_
    -- the buddy of the right half is the left half, which is in hand
    have hbuddy : (p + 2 ^ k) ^^^ 2 ^ k = p := by
      rw [← Dyadic.xor_two_pow_of_dvd hal, Dyadic.xor_two_pow_xor]
    rw [hbuddy, update_self]
    simp
  · have htotal := h.total
    rw [freeWeight_enlist _ _ (by omega)]
    have hfree : freeWeight ((pool.setOrder p k).setOrder (p + 2 ^ k) k) = freeWeight pool := rfl
    simp only [weight, Option.toList, map_nil, sum_nil, map_cons, sum_cons] at *
    omega

/-- Merge the block in hand with its free buddy; `lo` and `hi` are the two in order. -/
theorem join {lo hi : Nat} (h : Rep n t (some (p, k)) pool out) (hk : k < BUDDY_MAX_ORDER)
    (hb : t (p ^^^ 2 ^ k) = some (k, .free))
    (hlo : lo = if p ^^^ 2 ^ k < p then p ^^^ 2 ^ k else p) (hhi : hi = lo + 2 ^ k) :
    Rep n (update (update t lo (some (k + 1, .cur))) hi none) (some (lo, k + 1))
      ((pool.delist (p ^^^ 2 ^ k) k).setOrder lo (k + 1)) out := by
  have hpos := Nat.two_pow_pos k
  have hpow : 2 ^ (k + 1) = 2 ^ k + 2 ^ k := by ring
  have htp := ((h.agrees p).is_cur k).mp rfl
  have hordp := Blocks.orders_eq_some htp
  have hordb := Blocks.orders_eq_some hb
  have hne := xor_two_pow_ne p k
  -- whichever of the two comes first, the blocks are `lo` and `hi` and form an aligned pair
  have hpair : 2 ^ (k + 1) ∣ lo ∧ ((lo = p ∧ hi = p ^^^ 2 ^ k) ∨ (lo = p ^^^ 2 ^ k ∧ hi = p)) := by
    rcases Dyadic.xor_two_pow_cases (h.tiles.aligned p k hordp) with ⟨hd, heq⟩ | ⟨hge, hd, heq⟩
    · rw [if_neg (by omega)] at hlo
      exact ⟨hlo ▸ hd, .inl ⟨hlo, by omega⟩⟩
    · rw [if_pos (by omega)] at hlo
      exact ⟨by rw [hlo, heq]; exact hd, .inr ⟨hlo, by omega⟩⟩
  obtain ⟨hal, hwho⟩ := hpair
  have hlohi : hi ≠ lo := by omega
  have hordlo : t.orders lo = some k := by
    rcases hwho with ⟨rfl, -⟩ | ⟨rfl, -⟩ <;> assumption
  have hordhi : t.orders hi = some k := by
    rcases hwho with ⟨-, rfl⟩ | ⟨-, rfl⟩ <;> assumption
  have hmem : ∀ j, j ≤ BUDDY_MAX_ORDER → (p ^^^ 2 ^ k ∈ (pool.freelists j).lists ↔ j = k) :=
    fun j hj => h.mem_list_iff hb hj
  -- once the buddy is off its list, neither page is listed, held by a caller, or marked
  have hunowned : ∀ q, q = lo ∨ q = hi →
      (q < n → (pool.pages q).allocated = false) ∧ (∀ j, (q, j) ∉ out) ∧
      ∀ j, j ≤ BUDDY_MAX_ORDER → q ∉ (pool.freelists j).lists.erase (p ^^^ 2 ^ k) := by
    intro q hq
    have hq' : q = p ∨ q = p ^^^ 2 ^ k := by
      rcases hwho with ⟨rfl, rfl⟩ | ⟨rfl, rfl⟩
      · exact hq
      · exact hq.symm
    have hqa := h.agrees q
    rcases hq' with rfl | rfl
    · rw [htp] at hqa
      refine ⟨fun hlt => by simpa using hqa.allocated hlt, fun j => by simp [hqa.mem_out], ?_⟩
      intro j hj hmem'
      exact h.not_mem_list (by simp [htp]) hj (List.mem_of_mem_erase hmem')
    rw [hb] at hqa
    refine ⟨fun hlt => by simpa using hqa.allocated hlt, fun j => by simp [hqa.mem_out], ?_⟩
    intro j hj hmem'
    exact ((h.lists j hj).1.mem_erase_iff.mp hmem').1 rfl
  refine ⟨?_, h.mem_size, h.small, ?_, ?_, h.out_nodup, ?_, ?_⟩
  · rw [Blocks.orders_update, Blocks.orders_update, hhi]
    exact h.tiles.merge hordlo (hhi ▸ hordhi) hal
  · intro q
    by_cases hqhi : q = hi
    · obtain ⟨halloc, hout, hlist⟩ := hunowned q (.inr hqhi)
      subst hqhi
      rw [update_self]
      refine ⟨by simp, ?_, ?_, ?_, ?_⟩
      · intro hlt
        simp [Pool.setOrder, hlohi, halloc hlt]
      · intro j hj
        simpa [Pool.setOrder, delist_lists] using hlist j hj
      · intro j
        simp [hout]
      · intro j
        simp [hlohi.symm]
    · rw [update_of_ne hqhi]
      by_cases hqlo : q = lo
      · obtain ⟨halloc, hout, hlist⟩ := hunowned q (.inl hqlo)
        subst hqlo
        rw [update_self]
        refine ⟨?_, ?_, ?_, ?_, ?_⟩
        · intro j o hj
          cases hj
          exact ⟨hk, by simp [Pool.setOrder]⟩
        · intro hlt
          simp [Pool.setOrder, halloc hlt]
        · intro j hj
          simpa [Pool.setOrder, delist_lists] using hlist j hj
        · intro j
          simp [hout]
        · simp
      · rw [update_of_ne hqlo]
        have hqp : q ≠ p ∧ q ≠ p ^^^ 2 ^ k := by
          rcases hwho with ⟨rfl, rfl⟩ | ⟨rfl, rfl⟩
          · exact ⟨hqlo, hqhi⟩
          · exact ⟨hqhi, hqlo⟩
        refine (h.agrees q).frame (by simp [Pool.setOrder, hqlo]) ?_ (fun _ => Iff.rfl) ?_
        · intro j
          simp only [Pool.setOrder, delist_lists]
          exact List.mem_erase_of_ne hqp.2
        · intro j
          simp [Ne.symm hqlo, Ne.symm hqp.1]
  · exact h.lists.delist hk.le hmem h.freeWeight_lt
  · exact (h.no_buddies.update_not_free (by simp)).update_not_free (by simp)
  · have htotal := h.total
    have hweight := freeWeight_delist hk.le hmem
    have hfree : freeWeight ((pool.delist (p ^^^ 2 ^ k) k).setOrder lo (k + 1))
      = freeWeight (pool.delist (p ^^^ 2 ^ k) k) := rfl
    simp only [weight, Option.toList, map_nil, sum_nil, map_cons, sum_cons] at *
    omega

end Rep

end LostWakeup.Mm.Buddy
