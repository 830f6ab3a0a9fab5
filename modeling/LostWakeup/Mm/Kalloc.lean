/-
# LostWakeup.Mm.Kalloc — `src/mm/kalloc.c`: the pools of all CPUs and the count of free pages.

Each CPU has a buddy pool of `NPAGES / NCPU` pages, and `pages_cnt` counts free pages beside them.  A page is numbered by
its place in the whole array at `pagemeta_start`.  `alloc_fail`, which an allocation runs when pages are short, is the
list of the pages that it frees.
-/
import LostWakeup.Mm.BuddyRefine
import LostWakeup.Library.Count

namespace LostWakeup.Mm.Kalloc

open Library Mm.Buddy
open Function (update update_eq_self update_of_ne update_self)

/-! ## The state -/

def PAGES_THRESHOLD : Int := 500

/-- The constants of a build, and the address of the first `struct page`. -/
structure Config where
  NCPU : Nat
  NPAGES : Nat
  pagemeta_start : Nat

def Config.PAGES_PER_CPU (c : Config) : Nat := c.NPAGES / c.NCPU

inductive Panic
  | buddy (e : Buddy.Panic)
  | kmalloc_cpu
  | kmalloc_refcnt
  | kfree_refcnt
  | kfree_not_zero
  | kfree_allocated
  | kfree_cpu
  | share_refcnt

def liftBuddy {α : Type} : Except Buddy.Panic α → Except Panic α
  | .ok a => .ok a
  | .error e => .error (.buddy e)

/-- The pools with the blocks that are out, the reference counts of all pages, and the two counters. -/
structure Mem where
  pools : Nat → InUse
  refcnt : Nat → Int
  pages_cnt : Int
  recycling : Int

namespace Mem

/-- The `struct page` of a page. -/
def page (c : Config) (s : Mem) (page : Nat) : Page := (s.pools (page / c.PAGES_PER_CPU)).pool.pages (page % c.PAGES_PER_CPU)

/-! ## The functions of the source -/

/-- `mm_init`, up to the pool of CPU `i`; `mem` is what the memory of the page arrays holds. -/
def initPools (c : Config) (mem : Nat → Nat → Page) : Nat → Except Panic (Nat → InUse)
  | 0 => .ok fun _ => ⟨⟨0, 0, 0, fun _ => ⟨false, 0⟩, fun _ => ⟨[], 0⟩⟩, []⟩
  | i + 1 => do
    let pools ← initPools c mem i
    let pool ← liftBuddy (init_buddy (mem i) (c.pagemeta_start + i * c.PAGES_PER_CPU * sizeof_page)
      (START_MEM + i * c.PAGES_PER_CPU * PGSIZE) c.PAGES_PER_CPU)
    return update pools i ⟨pool, []⟩

def mm_init (c : Config) (mem : Nat → Nat → Page) : Except Panic Mem := do
  let pools ← initPools c mem c.NCPU
  return ⟨pools, fun _ => 0, int32 c.NPAGES, 0⟩

/-- `buddy_get_pages` on the pool of CPU `i`. -/
def get (c : Config) (s : Mem) (i order : Nat) : Except Panic (Mem × Option Nat) := do
  let (pool, page) ← liftBuddy ((s.pools i).pool.buddy_get_pages order)
  match page with
  | none => return ({ s with pools := update s.pools i ⟨pool, (s.pools i).out⟩ }, none)
  | some p =>
    return ({ s with pools := update s.pools i ⟨pool, (p, order) :: (s.pools i).out⟩ },
      some (i * c.PAGES_PER_CPU + p))

/-- The loop of `steal_mem`. -/
def stealLoop (c : Config) (cur_id order : Nat) : List Nat → Mem → Except Panic (Mem × Option Nat)
  | [], s => .ok (s, none)
  | i :: is, s =>
    if i = cur_id then stealLoop c cur_id order is s
    else do
      let (s, page) ← s.get c i order
      match page with
      | some page => return (s, some page)
      | none => stealLoop c cur_id order is s

def steal_mem (c : Config) (s : Mem) (cur_id order : Nat) : Except Panic (Mem × Option Nat) :=
  stealLoop c cur_id order (List.range c.NCPU) s

/-- The loop of `size_to_page_order`; a `uint64` is halved at most 64 times. -/
def orderLoop : Nat → Nat → Nat → Nat
  | 0, _, order => order
  | fuel + 1, tmp, order => if tmp > 1 then orderLoop fuel (tmp >>> 1) (order + 1) else order

def size_to_page_order (size : Nat) : Nat :=
  let page_num := roundUp PGSIZE size / PGSIZE
  let order := orderLoop 64 page_num 0
  -- the `int` on the right is converted to `uint64`
  if page_num > toUint64 (int_shl_one order) then order + 1 else order

def kfree (c : Config) (s : Mem) (page : Nat) : Except Panic Mem :=
  if s.refcnt page < 1 then .error .kfree_refcnt
  else
    let refcnt := update s.refcnt page (int32 (s.refcnt page - 1))
    if refcnt page ≥ 1 then .ok { s with refcnt := refcnt }
    else if refcnt page ≠ 0 then .error .kfree_not_zero
    else if (s.page c page).allocated = false then .error .kfree_allocated
    else
      -- `get_pages_cpu`
      let id := page / c.PAGES_PER_CPU
      if id < c.NCPU then do
        let p := page % c.PAGES_PER_CPU
        let order := (s.page c page).order
        let pool ← liftBuddy ((s.pools id).pool.buddy_free_pages p)
        return { s with
          refcnt := refcnt
          pages_cnt := int32 (s.pages_cnt + int_shl_one order)
          pools := update s.pools id ⟨pool, (s.pools id).out.erase (p, order)⟩ }
      else .error .kfree_cpu

def share_page (s : Mem) (page : Nat) : Except Panic Mem :=
  if s.refcnt page < 1 then .error .share_refcnt
  else .ok { s with refcnt := update s.refcnt page (int32 (s.refcnt page + 1)) }

/-- The end of an allocation: memory is reclaimed if pages are short, but not while it is being reclaimed. -/
def reclaim (c : Config) (s : Mem) (alloc_fail : List Nat) : Except Panic Mem :=
  if s.recycling = 0 ∧ s.pages_cnt < PAGES_THRESHOLD then do
    let s ← alloc_fail.foldlM (kfree c) { s with recycling := int32 (s.recycling + 1) }
    return { s with recycling := int32 (s.recycling - 1) }
  else .ok s

/-- What `kmalloc` and `kalloc` do with the page they find. -/
def hand_out (c : Config) (s : Mem) (page : Nat) (alloc_fail : List Nat) : Except Panic (Mem × Option Nat) :=
  if s.refcnt page ≠ 0 then .error .kmalloc_refcnt
  else do
    let s := { s with
      refcnt := update s.refcnt page 1
      pages_cnt := int32 (s.pages_cnt - int_shl_one (s.page c page).order) }
    let s ← s.reclaim c alloc_fail
    return (s, some page)

/-- The body of `kmalloc` and `kalloc`, on CPU `id`. -/
def alloc (c : Config) (s : Mem) (id order : Nat) (alloc_fail : List Nat) : Except Panic (Mem × Option Nat) :=
  if id < c.NCPU then do
    let (s, page) ← s.get c id order
    match page with
    | some page => s.hand_out c page alloc_fail
    | none =>
      let (s, page) ← s.steal_mem c id order
      match page with
      | some page => s.hand_out c page alloc_fail
      | none => return (s, none)
  else .error .kmalloc_cpu

def kmalloc (c : Config) (s : Mem) (id size : Nat) (alloc_fail : List Nat) : Except Panic (Mem × Option Nat) :=
  s.alloc c id (if size ≤ PGSIZE then 0 else size_to_page_order size) alloc_fail

def kalloc (c : Config) (s : Mem) (id : Nat) (alloc_fail : List Nat) : Except Panic (Mem × Option Nat) :=
  s.alloc c id 0 alloc_fail

/-- The number of pages on the free lists, by their counters. -/
def freePages (c : Config) (s : Mem) : Int :=
  ∑ i ∈ Finset.range c.NCPU, ∑ k ∈ Finset.range (BUDDY_MAX_ORDER + 1), ((s.pools i).pool.freelists k).num * 2 ^ k

/-- `get_free_mem`: each term is an `int`, the sum a `uint64`. -/
def get_free_mem (c : Config) (s : Mem) : Int :=
  (List.range c.NCPU).foldl (fun memsize cpu =>
    (List.range (BUDDY_MAX_ORDER + 1)).foldl (fun memsize i =>
      (memsize + int32 (int32 (((s.pools cpu).pool.freelists i).num * PGSIZE) * (1 <<< i : Nat))) % 2 ^ 64) memsize) 0

/-! ## Runs -/

inductive Event
  | kmalloc (id size : Nat) (alloc_fail : List Nat)
  | kalloc (id : Nat) (alloc_fail : List Nat)
  | share_page (page : Nat)
  | kfree (page : Nat)

def next (c : Config) (s : Mem) : Event → Except Panic Mem
  | .kmalloc id size alloc_fail => (s.kmalloc c id size alloc_fail).map Prod.fst
  | .kalloc id alloc_fail => (s.kalloc c id alloc_fail).map Prod.fst
  | .share_page page => s.share_page page
  | .kfree page => s.kfree c page

def Step (c : Config) (s : Mem) (e : Event) (s' : Mem) : Prop := s.next c e = .ok s'

/-- Count, free lists and `get_free_mem` agree; a block that is taken and returned, and a reference dropped while
others are left, change neither. -/
structure Accounted (c : Config) (s : Mem) : Prop where
  count : s.pages_cnt = s.freePages c
  free_mem : s.get_free_mem c = s.pages_cnt * PGSIZE
  pair : ∀ id order s₁ page, s.alloc c id order [] = .ok (s₁, some page) →
    ∃ s₂, s₁.kfree c page = .ok s₂ ∧ s₂.pages_cnt = s.pages_cnt ∧ s₂.freePages c = s.freePages c
  shared : ∀ page s', 1 < s.refcnt page → s.kfree c page = .ok s' →
    s'.pages_cnt = s.pages_cnt ∧ s'.freePages c = s.freePages c

/-! ## The invariant -/

section Invariant

variable {c : Config} {s s' : Mem} {page order i p k : Nat}

/-- The number of pages on the free lists, by their entries. -/
def weight (c : Config) (s : Mem) : Nat := ∑ i ∈ Finset.range c.NCPU, freeWeight (s.pools i).pool

/-- Block `(p, k)` of pool `i` is out, and `page` is its first page. -/
structure Live (c : Config) (s : Mem) (page i p k : Nat) : Prop where
  cpu : i < c.NCPU
  inside : p < c.PAGES_PER_CPU
  page : page = i * c.PAGES_PER_CPU + p
  out : (p, k) ∈ (s.pools i).out

/-- Every pool is in order, a page with references heads a block that is out, and the count is the number of free
pages and of the pages that belong to no pool. -/
structure Inv (c : Config) (s : Mem) : Prop where
  rep : ∀ i, i < c.NCPU → ∃ t, Rep c.PAGES_PER_CPU t none (s.pools i).pool (s.pools i).out
  live : ∀ page, 1 ≤ s.refcnt page → ∃ i p k, Live c s page i p k
  bound : ∀ page, s.refcnt page ≤ INT_MAX
  count : s.pages_cnt = int32 (s.weight c + c.NPAGES % c.NCPU)

theorem Live.div (h : Live c s page i p k) : page / c.PAGES_PER_CPU = i := by
  have hpos : 0 < c.PAGES_PER_CPU := Nat.zero_lt_of_lt h.inside
  rw [h.page, Nat.add_comm, Nat.add_mul_div_right _ _ hpos, Nat.div_eq_of_lt h.inside, Nat.zero_add]

theorem Live.mod (h : Live c s page i p k) : page % c.PAGES_PER_CPU = p := by
  rw [h.page, Nat.add_comm, Nat.add_mul_mod_self_right, Nat.mod_eq_of_lt h.inside]

theorem Live.entry (h : Live c s page i p k) : s.page c page = (s.pools i).pool.pages p := by
  rw [Mem.page, h.div, h.mod]

theorem Live.of_out (h : Live c s page i p k) (hout : (p, k) ∈ (s'.pools i).out) : Live c s' page i p k :=
  ⟨h.cpu, h.inside, h.page, hout⟩

/-! ### Arithmetic -/

theorem int_shl_one_of_le (h : order ≤ BUDDY_MAX_ORDER) : int_shl_one order = 2 ^ order := by
  have hall : ∀ k, k < BUDDY_MAX_ORDER + 1 → int_shl_one k = 2 ^ k := by decide
  exact hall order (Nat.lt_succ_of_le h)

theorem freePages_eq (h : s.Inv c) : s.freePages c = s.weight c := by
  rw [freePages, weight]
  push_cast
  apply Finset.sum_congr rfl
  intro i hi
  obtain ⟨t, hrep⟩ := h.rep i (Finset.mem_range.mp hi)
  rw [freeWeight]
  push_cast
  apply Finset.sum_congr rfl
  intro k hk
  rw [(hrep.lists k (Nat.lt_succ_iff.mp (Finset.mem_range.mp hk))).2]

/-! ### Taking and returning blocks -/

theorem weight_erase {out : List (Nat × Nat)} (h : (p, k) ∈ out) :
    Buddy.weight (out.erase (p, k)) + 2 ^ k = Buddy.weight out := by
  unfold Buddy.weight
  rw [List.Perm.sum_nat ((List.perm_cons_erase h).map fun b => 2 ^ b.2), List.map_cons, List.sum_cons]
  exact Nat.add_comm _ _

/-- A block of `2^order` pages has been taken off a pool, and nothing else has changed. -/
structure Taken (c : Config) (s s' : Mem) (page order : Nat) : Prop where
  rep : ∀ i, i < c.NCPU → ∃ t, Rep c.PAGES_PER_CPU t none (s'.pools i).pool (s'.pools i).out
  weight : s'.weight c + 2 ^ order = s.weight c
  order_le : order ≤ BUDDY_MAX_ORDER
  live : ∃ i p, Live c s' page i p order
  keep : ∀ page i p k, Live c s page i p k → Live c s' page i p k
  refcnt : s'.refcnt = s.refcnt
  pages_cnt : s'.pages_cnt = s.pages_cnt

/-- `buddy_get_pages` on one of the pools. -/
theorem Inv.get (h : s.Inv c) (hi : i < c.NCPU) {r : Option Nat} (hget : s.get c i order = .ok (s', r)) :
    (r = none ∧ s' = s) ∨ ∃ page, r = some page ∧ Taken c s s' page order := by
  obtain ⟨t, hrep⟩ := h.rep i hi
  unfold Mem.get at hget
  have horder : order ≤ BUDDY_MAX_ORDER := by
    by_contra hgt
    rw [Pool.buddy_get_pages, assert, if_neg hgt] at hget
    cases hget
  rcases hrep.buddy_get_pages horder with ⟨hpool, _⟩ | ⟨t', pool', q, hpool, hrep'⟩
  · rw [hpool] at hget
    cases hget
    refine .inl ⟨rfl, ?_⟩
    rw [show (⟨(s.pools i).pool, (s.pools i).out⟩ : InUse) = s.pools i from rfl, update_eq_self]
  rw [hpool] at hget
  cases hget
  refine .inr ⟨_, rfl, ?_⟩
  have hmem := ((hrep'.agrees q).mem_out order).mp List.mem_cons_self
  have hinside := hrep'.tiles.inside q order (Blocks.orders_eq_some hmem)
  have hq : q < c.PAGES_PER_CPU := by
    have := Nat.two_pow_pos order
    omega
  refine ⟨?_, ?_, horder, ⟨i, q, hi, hq, rfl, ?_⟩, ?_, rfl, rfl⟩
  · intro j hj
    dsimp only
    rcases eq_or_ne j i with rfl | hne
    · rw [update_self]
      exact ⟨t', hrep'⟩
    · rw [update_of_ne hne]
      exact h.rep j hj
  · have hsum := sum_range_update (fun u : InUse => freeWeight u.pool) s.pools hi ⟨pool', (q, order) :: (s.pools i).out⟩
    have hold := hrep.total
    have hnew := hrep'.total
    simp only [Buddy.weight, Option.toList, List.map_nil, List.sum_nil, List.map_cons, List.sum_cons] at hold hnew
    unfold Mem.weight
    dsimp only at hsum ⊢
    omega
  · dsimp only
    rw [update_self]
    exact List.mem_cons_self
  · intro page' j p' k' hlive
    apply hlive.of_out
    dsimp only
    rcases eq_or_ne j i with rfl | hne
    · rw [update_self]
      exact List.mem_cons_of_mem _ hlive.out
    · rw [update_of_ne hne]
      exact hlive.out

theorem Inv.stealLoop (h : s.Inv c) {cur_id : Nat} {is : List Nat} (his : ∀ i ∈ is, i < c.NCPU) {r : Option Nat}
    (hsteal : stealLoop c cur_id order is s = .ok (s', r)) :
    (r = none ∧ s' = s) ∨ ∃ page, r = some page ∧ Taken c s s' page order := by
  induction is with
  | nil =>
    cases hsteal
    exact .inl ⟨rfl, rfl⟩
  | cons i is ih =>
    have htail := ih fun j hj => his j (List.mem_cons_of_mem _ hj)
    unfold Mem.stealLoop at hsteal
    split at hsteal
    · exact htail hsteal
    rcases hget : s.get c i order with e | ⟨s₁, r₁⟩
    · rw [hget] at hsteal
      cases hsteal
    rw [hget] at hsteal
    rcases h.get (his i List.mem_cons_self) hget with ⟨rfl, rfl⟩ | ⟨page, rfl, htaken⟩
    · exact htail hsteal
    · cases hsteal
      exact .inr ⟨page, rfl, htaken⟩

/-- The page that an allocation finds, on its own pool or on another. -/
theorem Inv.find (h : s.Inv c) {id : Nat} {alloc_fail : List Nat} {r : Option Nat}
    (halloc : s.alloc c id order alloc_fail = .ok (s', r)) :
    (r = none ∧ s' = s) ∨ ∃ s₁ page, Taken c s s₁ page order ∧ s₁.hand_out c page alloc_fail = .ok (s', r) := by
  unfold Mem.alloc at halloc
  split at halloc
  · rename_i hid
    rcases hget : s.get c id order with e | ⟨s₁, r₁⟩
    · rw [hget] at halloc
      cases halloc
    rw [hget] at halloc
    rcases h.get hid hget with ⟨rfl, rfl⟩ | ⟨page, rfl, htaken⟩
    · rcases hsteal : s₁.steal_mem c id order with e | ⟨s₂, r₂⟩
      · simp only [bind, Except.bind, hsteal] at halloc
        cases halloc
      simp only [bind, Except.bind, hsteal] at halloc
      rcases h.stealLoop (fun i hi => List.mem_range.mp hi) hsteal with ⟨rfl, rfl⟩ | ⟨page, rfl, htaken⟩
      · cases halloc
        exact .inl ⟨rfl, rfl⟩
      · exact .inr ⟨s₂, page, htaken, halloc⟩
    · exact .inr ⟨s₁, page, htaken, halloc⟩
  · cases halloc

/-- A block has been returned, or a reference to it dropped. -/
structure Freed (c : Config) (s s' : Mem) (page : Nat) : Prop where
  inv : s'.Inv c
  shared : 1 < s.refcnt page → s'.pages_cnt = s.pages_cnt ∧ s'.pools = s.pools
  last : ∀ i p k, Live c s page i p k → s.refcnt page = 1 → s'.weight c = s.weight c + 2 ^ k

theorem int32_pred {x : Int} (hlo : 1 ≤ x) (hhi : x ≤ INT_MAX) : int32 (x - 1) = x - 1 := by
  apply int32_of_range
  · rw [INT_MIN]
    omega
  · omega

theorem Live.unique (h : s.Inv c) {i' p' k' : Nat} (hl : Live c s page i p k) (hl' : Live c s page i' p' k') :
    i' = i ∧ p' = p ∧ k' = k := by
  have hi := hl.div.symm.trans hl'.div
  have hp := hl.mod.symm.trans hl'.mod
  subst hi hp
  obtain ⟨t, hrep⟩ := h.rep i hl.cpu
  have hk := ((hrep.agrees p).mem_out k).mp hl.out
  rw [((hrep.agrees p).mem_out k').mp hl'.out] at hk
  cases hk
  exact ⟨rfl, rfl, rfl⟩

/-- `kfree` of a live block returns. -/
theorem Inv.kfree_last (h : s.Inv c) (hlive : Live c s page i p k) (hone : s.refcnt page = 1) :
    ∃ s', s.kfree c page = .ok s' ∧ Freed c s s' page := by
  obtain ⟨t, hrep⟩ := h.rep i hlive.cpu
  have hmem := ((hrep.agrees p).mem_out k).mp hlive.out
  obtain ⟨hk, hord⟩ := (hrep.agrees p).order k .out hmem
  have halloc : ((s.pools i).pool.pages p).allocated = true := ((hrep.agrees p).allocated hlive.inside).mpr ⟨k, hmem⟩
  obtain ⟨t', pool', hfree, hrep'⟩ := hrep.buddy_free_pages hlive.out
  have hzero : int32 (1 - 1) = 0 := rfl
  obtain ⟨s', hs'⟩ : ∃ s' : Mem, s' = { s with
    refcnt := update s.refcnt page 0
    pages_cnt := int32 (s.pages_cnt + int_shl_one k)
    pools := update s.pools i ⟨pool', (s.pools i).out.erase (p, k)⟩ } := ⟨_, rfl⟩
  have hweight : s'.weight c = s.weight c + 2 ^ k := by
    have hsum := sum_range_update (fun u : InUse => freeWeight u.pool) s.pools hlive.cpu
      ⟨pool', (s.pools i).out.erase (p, k)⟩
    have hold := hrep.total
    have hnew := hrep'.total
    have hout := weight_erase hlive.out
    simp only [Option.toList] at hold hnew
    rw [hs', Mem.weight, Mem.weight]
    dsimp only at hsum ⊢
    omega
  refine ⟨s', ?_, ⟨?_, ?_, ?_, ?_⟩, ?_, ?_⟩
  · rw [hs']
    unfold Mem.kfree
    simp only [hone, hzero, update_self, hlive.entry, halloc, hlive.div, hlive.mod, hord, hfree, hlive.cpu,
      if_true, if_false, liftBuddy, bind, Except.bind, pure, Except.pure, Bool.true_eq_false, lt_irrefl, ge_iff_le,
      ne_eq, not_true_eq_false, show ¬ ((1 : Int) ≤ 0) by decide]
  · intro j hj
    rw [hs']
    dsimp only
    rcases eq_or_ne j i with rfl | hne
    · rw [update_self]
      exact ⟨t', hrep'⟩
    · rw [update_of_ne hne]
      exact h.rep j hj
  · intro page' hpos
    rw [hs'] at hpos ⊢
    dsimp only at hpos
    rcases eq_or_ne page' page with rfl | hne
    · rw [update_self] at hpos
      omega
    rw [update_of_ne hne] at hpos
    obtain ⟨j, q, l, hlive'⟩ := h.live page' hpos
    refine ⟨j, q, l, hlive'.of_out ?_⟩
    dsimp only
    rcases eq_or_ne j i with rfl | hji
    · rw [update_self]
      refine (List.mem_erase_of_ne ?_).mpr hlive'.out
      intro heq
      apply hne
      rw [hlive'.page, hlive.page, (Prod.mk.inj heq).1]
    · rw [update_of_ne hji]
      exact hlive'.out
  · intro page'
    rw [hs']
    dsimp only
    rcases eq_or_ne page' page with rfl | hne
    · rw [update_self]
      decide
    · rw [update_of_ne hne]
      exact h.bound page'
  · rw [hweight, hs']
    show int32 (s.pages_cnt + int_shl_one k) = _
    rw [h.count, int32_add, int_shl_one_of_le hk]
    congr 1
    push_cast
    ring
  · intro hlt
    omega
  · intro i' p' k' hlive' _
    rw [(hlive.unique h hlive').2.2]
    exact hweight

/-- Dropping one of several references leaves the block out. -/
theorem Inv.kfree_shared (h : s.Inv c) (hmany : 1 < s.refcnt page) (hfree : s.kfree c page = .ok s') :
    Freed c s s' page := by
  have hpred := int32_pred (x := s.refcnt page) (by omega) (h.bound page)
  have hs' : { s with refcnt := update s.refcnt page (s.refcnt page - 1) } = s' := by
    unfold Mem.kfree at hfree
    rw [if_neg (by omega)] at hfree
    dsimp only at hfree
    rw [update_self, hpred, if_pos (by omega)] at hfree
    exact Except.ok.inj hfree
  subst hs'
  refine ⟨⟨h.rep, ?_, ?_, h.count⟩, fun _ => ⟨rfl, rfl⟩, ?_⟩
  · intro page' hpos
    dsimp only at hpos
    rcases eq_or_ne page' page with rfl | hne
    · obtain ⟨i, p, k, hlive⟩ := h.live page' (by omega)
      exact ⟨i, p, k, hlive.of_out hlive.out⟩
    · rw [update_of_ne hne] at hpos
      obtain ⟨i, p, k, hlive⟩ := h.live page' hpos
      exact ⟨i, p, k, hlive.of_out hlive.out⟩
  · intro page'
    dsimp only
    have hb := h.bound page'
    rcases eq_or_ne page' page with rfl | hne
    · rw [update_self]
      omega
    · rwa [update_of_ne hne]
  · intro i p k _ hone
    omega

theorem Inv.kfree (h : s.Inv c) (hfree : s.kfree c page = .ok s') : Freed c s s' page := by
  have hpos : 1 ≤ s.refcnt page := by
    by_contra hlt
    rw [Mem.kfree, if_pos (by omega)] at hfree
    cases hfree
  rcases eq_or_lt_of_le hpos with hone | hmany
  · obtain ⟨i, p, k, hlive⟩ := h.live page hpos
    obtain ⟨s₁, hfree₁, hfreed⟩ := h.kfree_last hlive hone.symm
    rw [hfree] at hfree₁
    cases hfree₁
    exact hfreed
  · exact h.kfree_shared hmany hfree

theorem Inv.share_page (h : s.Inv c) (hshare : s.share_page page = .ok s') : s'.Inv c := by
  unfold Mem.share_page at hshare
  split at hshare
  · cases hshare
  rename_i hpos
  cases hshare
  refine ⟨h.rep, ?_, ?_, h.count⟩
  · intro page' hpos'
    dsimp only at hpos'
    rcases eq_or_ne page' page with rfl | hne
    · obtain ⟨i, p, k, hlive⟩ := h.live page' (by omega)
      exact ⟨i, p, k, hlive.of_out hlive.out⟩
    · rw [update_of_ne hne] at hpos'
      obtain ⟨i, p, k, hlive⟩ := h.live page' hpos'
      exact ⟨i, p, k, hlive.of_out hlive.out⟩
  · intro page'
    dsimp only
    rcases eq_or_ne page' page with rfl | hne
    · rw [update_self]
      exact int32_le _
    · rw [update_of_ne hne]
      exact h.bound page'

theorem Inv.setRecycling (h : s.Inv c) (recycling : Int) : Inv c { s with recycling := recycling } :=
  ⟨h.rep, fun page hpos => by
    obtain ⟨i, p, k, hlive⟩ := h.live page hpos
    exact ⟨i, p, k, hlive.of_out hlive.out⟩, h.bound, h.count⟩

theorem Inv.foldlM_kfree (pages : List Nat) (h : s.Inv c) (hfold : pages.foldlM (Mem.kfree c) s = .ok s') :
    s'.Inv c := by
  induction pages generalizing s with
  | nil =>
    cases hfold
    exact h
  | cons page pages ih =>
    rw [List.foldlM_cons] at hfold
    rcases hfree : s.kfree c page with e | s₁
    · rw [hfree] at hfold
      cases hfold
    · rw [hfree] at hfold
      exact ih (h.kfree hfree).inv hfold

theorem Inv.reclaim (h : s.Inv c) {alloc_fail : List Nat} (hrec : s.reclaim c alloc_fail = .ok s') : s'.Inv c := by
  unfold Mem.reclaim at hrec
  split at hrec
  · rcases hfold : alloc_fail.foldlM (Mem.kfree c) { s with recycling := int32 (s.recycling + 1) } with e | s₁
    · rw [hfold] at hrec
      cases hrec
    · rw [hfold] at hrec
      cases hrec
      exact ((h.setRecycling _).foldlM_kfree alloc_fail hfold).setRecycling _
  · cases hrec
    exact h

theorem reclaim_nil (hrec : s.reclaim c [] = .ok s') :
    s'.pools = s.pools ∧ s'.refcnt = s.refcnt ∧ s'.pages_cnt = s.pages_cnt := by
  unfold Mem.reclaim at hrec
  split at hrec
  · cases hrec
    exact ⟨rfl, rfl, rfl⟩
  · cases hrec
    exact ⟨rfl, rfl, rfl⟩

/-- A block is handed out with one reference, and its pages are no longer counted. -/
def handed (c : Config) (s : Mem) (page : Nat) : Mem :=
  { s with
    refcnt := update s.refcnt page 1
    pages_cnt := int32 (s.pages_cnt - int_shl_one (s.page c page).order) }

theorem hand_out_eq {alloc_fail : List Nat} {r : Option Nat} (h : s.hand_out c page alloc_fail = .ok (s', r)) :
    r = some page ∧ (s.handed c page).reclaim c alloc_fail = .ok s' := by
  unfold Mem.hand_out at h
  split at h
  · cases h
  have hrec : ((s.handed c page).reclaim c alloc_fail >>= fun s₁ => pure (s₁, some page)) = .ok (s', r) := h
  rcases hr : (s.handed c page).reclaim c alloc_fail with e | s₁
  · rw [hr] at hrec
    cases hrec
  · rw [hr] at hrec
    cases hrec
    exact ⟨rfl, rfl⟩

theorem Inv.handed (h : s.Inv c) {s₁ : Mem} (ht : Taken c s s₁ page order) : (s₁.handed c page).Inv c where
  rep := ht.rep
  live := by
    intro page' hpos
    dsimp only [Mem.handed] at hpos
    rcases eq_or_ne page' page with rfl | hne
    · obtain ⟨i, p, hlive⟩ := ht.live
      exact ⟨i, p, order, hlive.of_out hlive.out⟩
    rw [update_of_ne hne, ht.refcnt] at hpos
    obtain ⟨i, p, k, hlive⟩ := h.live page' hpos
    have hkeep := ht.keep _ _ _ _ hlive
    exact ⟨i, p, k, hkeep.of_out hkeep.out⟩
  bound := by
    intro page'
    dsimp only [Mem.handed]
    rcases eq_or_ne page' page with rfl | hne
    · rw [update_self]
      decide
    · rw [update_of_ne hne, ht.refcnt]
      exact h.bound page'
  count := by
    obtain ⟨i, p, hlive⟩ := ht.live
    obtain ⟨t, hrep⟩ := ht.rep i hlive.cpu
    have hord := ((hrep.agrees p).order order .out (((hrep.agrees p).mem_out order).mp hlive.out)).2
    have hsame : (s₁.handed c page).weight c = s₁.weight c := rfl
    have hweight := ht.weight
    rw [hsame]
    dsimp only [Mem.handed]
    rw [hlive.entry, hord, int_shl_one_of_le ht.order_le, ht.pages_cnt, h.count, sub_eq_add_neg, int32_add]
    congr 1
    have hcast : ((s.weight c : Nat) : Int) = s₁.weight c + 2 ^ order := by
      rw [← hweight]
      push_cast
      ring
    rw [hcast]
    ring

/-- **Step lemma.** -/
theorem Inv.step {e : Event} (h : s.Inv c) (hs : s.Step c e s') : s'.Inv c := by
  have halloc : ∀ {id order : Nat} {alloc_fail : List Nat},
      (s.alloc c id order alloc_fail).map Prod.fst = .ok s' → s'.Inv c := by
    intro id order alloc_fail hmap
    rcases hr : s.alloc c id order alloc_fail with e | ⟨s₁, r⟩
    · rw [hr] at hmap
      cases hmap
    rw [hr] at hmap
    cases hmap
    rcases h.find hr with ⟨_, rfl⟩ | ⟨s₂, page, htaken, hout⟩
    · exact h
    · exact (h.handed htaken).reclaim (hand_out_eq hout).2
  cases e with
  | kmalloc id size alloc_fail => exact halloc hs
  | kalloc id alloc_fail => exact halloc hs
  | share_page page => exact h.share_page hs
  | kfree page => exact (h.kfree hs).inv

/-- A block that is taken and returned leaves count and lists as they were. -/
theorem Inv.pair (h : s.Inv c) {id : Nat} {s₁ : Mem} (halloc : s.alloc c id order [] = .ok (s₁, some page)) :
    ∃ s₂, s₁.kfree c page = .ok s₂ ∧ s₂.Inv c ∧ s₂.weight c = s.weight c := by
  rcases h.find halloc with ⟨hnone, _⟩ | ⟨s₀, page', htaken, hout⟩
  · cases hnone
  obtain ⟨hpage, hrec⟩ := hand_out_eq hout
  cases hpage
  have hinv := (h.handed htaken).reclaim hrec
  obtain ⟨hpools, hrefcnt, _⟩ := reclaim_nil hrec
  obtain ⟨i, p, hlive⟩ := htaken.live
  have hlive₁ : Live c s₁ page i p order := by
    apply hlive.of_out
    rw [hpools]
    exact hlive.out
  have hone : s₁.refcnt page = 1 := by
    rw [hrefcnt]
    exact update_self ..
  obtain ⟨s₂, hfree, hfreed⟩ := hinv.kfree_last hlive₁ hone
  refine ⟨s₂, hfree, hfreed.inv, ?_⟩
  have hlast := hfreed.last i p order hlive₁ hone
  have hsame : s₁.weight c = s₀.weight c := by rw [Mem.weight, hpools]; rfl
  rw [hlast, hsame, htaken.weight]

/-! ### `get_free_mem` -/

theorem foldl_add_mod (f : Nat → Int) (m : Int) (l : List Nat) (a : Int) :
    l.foldl (fun sum i => (sum + f i) % m) (a % m) = (a + l.foldl (fun sum i => (sum + f i) % m) 0) % m := by
  induction l generalizing a with
  | nil => simp
  | cons i l ih =>
    rw [List.foldl_cons, List.foldl_cons, Int.emod_add_emod, ih, ih (0 + f i), Int.zero_add, Int.add_emod_emod,
      Int.add_assoc]

/-- The sum over the pools does not wrap. -/
theorem Inv.get_free_mem (h : s.Inv c) (hfit : s.weight c < 2 ^ 40) : s.get_free_mem c = s.weight c * PGSIZE := by
  have hpart : ∀ n, n ≤ c.NCPU →
      ∑ i ∈ Finset.range n, freeWeight (s.pools i).pool ≤ s.weight c ∧
      (List.range n).foldl (fun memsize cpu =>
        (List.range (BUDDY_MAX_ORDER + 1)).foldl (fun memsize i =>
          (memsize + int32 (int32 (((s.pools cpu).pool.freelists i).num * PGSIZE) * (1 <<< i : Nat))) % 2 ^ 64) memsize)
        (0 : Int) = (∑ i ∈ Finset.range n, freeWeight (s.pools i).pool : Nat) * PGSIZE := by
    intro n hn
    induction n with
    | zero => simp
    | succ n ih =>
      have hle : ∑ i ∈ Finset.range (n + 1), freeWeight (s.pools i).pool ≤ s.weight c :=
        Finset.sum_le_sum_of_subset (Finset.range_mono hn)
      obtain ⟨t, hrep⟩ := h.rep n hn
      have hpool := memsize_eq hrep.lists hrep.freeWeight_lt
      refine ⟨hle, ?_⟩
      rw [Finset.sum_range_succ] at hle ⊢
      rw [List.range_succ (n := n), List.foldl_append, (ih (by omega)).2, List.foldl_cons, List.foldl_nil]
      have hsmall : ∀ x : Nat, x < 2 ^ 40 → (x : Int) * PGSIZE = (x : Int) * PGSIZE % 2 ^ 64 := by
        intro x hx
        rw [PGSIZE]
        omega
      rw [hsmall (∑ i ∈ Finset.range n, freeWeight (s.pools i).pool) (by omega), foldl_add_mod,
        show List.foldl _ 0 _ = (s.pools n).pool.memsize from rfl, hpool, ← Int.add_mul, ← Nat.cast_add,
        ← hsmall _ (by omega)]
  exact (hpart c.NCPU le_rfl).2

/-! ### From boot on -/

/-- The pools of the first `n` CPUs after their part of `mm_init`. -/
theorem initPools_ok (c : Config) (mem : Nat → Nat → Page) (hbase : KERNBASE ≤ c.pagemeta_start) {n : Nat}
    (hfit : c.pagemeta_start + n * c.PAGES_PER_CPU * sizeof_page < START_MEM) :
    ∃ pools, initPools c mem n = .ok pools ∧
      ∀ i, i < n → ∃ t, Rep c.PAGES_PER_CPU t none (pools i).pool (pools i).out ∧ (pools i).out = [] := by
  induction n with
  | zero => exact ⟨_, rfl, fun i hi => absurd hi (Nat.not_lt_zero i)⟩
  | succ n ih =>
    have hsplit : (n + 1) * c.PAGES_PER_CPU * sizeof_page =
        n * c.PAGES_PER_CPU * sizeof_page + c.PAGES_PER_CPU * sizeof_page := by ring
    rw [hsplit] at hfit
    obtain ⟨pools, hpools, hrep⟩ := ih (by omega)
    obtain ⟨t, pool, hinit, hpool⟩ := @init_buddy_ok (mem n) (START_MEM + n * c.PAGES_PER_CPU * PGSIZE)
      (c.pagemeta_start + n * c.PAGES_PER_CPU * sizeof_page) c.PAGES_PER_CPU (by omega) (by omega)
    refine ⟨update pools n ⟨pool, []⟩, ?_, ?_⟩
    · rw [initPools, hpools]
      simp only [bind, Except.bind, hinit, liftBuddy]
      rfl
    intro i hi
    rcases eq_or_ne i n with rfl | hne
    · rw [update_self]
      exact ⟨t, hpool, rfl⟩
    · rw [update_of_ne hne]
      exact hrep i (by omega)

/-- After `mm_init` all pages of the pools are free. -/
theorem mm_init_ok (c : Config) (mem : Nat → Nat → Page) (hbase : KERNBASE ≤ c.pagemeta_start)
    (hfit : c.pagemeta_start + c.NCPU * c.PAGES_PER_CPU * sizeof_page < START_MEM) :
    ∃ s, mm_init c mem = .ok s ∧ s.Inv c ∧ s.weight c = c.NCPU * c.PAGES_PER_CPU ∧ s.pages_cnt = int32 c.NPAGES := by
  obtain ⟨pools, hpools, hrep⟩ := initPools_ok c mem hbase hfit
  have hfree : ∀ i ∈ Finset.range c.NCPU, freeWeight (pools i).pool = c.PAGES_PER_CPU := by
    intro i hi
    obtain ⟨t, hpool, hnil⟩ := hrep i (Finset.mem_range.mp hi)
    have htotal := hpool.total
    rw [hnil] at htotal
    simpa [Buddy.weight] using htotal
  have hweight : ∑ i ∈ Finset.range c.NCPU, freeWeight (pools i).pool = c.NCPU * c.PAGES_PER_CPU := by
    rw [Finset.sum_const_nat hfree, Finset.card_range]
  obtain ⟨s, hs⟩ : ∃ s : Mem, s = ⟨pools, fun _ => 0, int32 c.NPAGES, 0⟩ := ⟨_, rfl⟩
  have hs_pools : s.pools = pools := by rw [hs]
  have hs_refcnt : ∀ page, s.refcnt page = 0 := by
    intro page
    rw [hs]
  have hs_cnt : s.pages_cnt = int32 c.NPAGES := by rw [hs]
  have hs_weight : s.weight c = c.NCPU * c.PAGES_PER_CPU := by rw [Mem.weight, hs_pools, hweight]
  refine ⟨s, ?_, ⟨?_, ?_, ?_, ?_⟩, hs_weight, hs_cnt⟩
  · rw [mm_init, hpools, hs]
    rfl
  · intro i hi
    obtain ⟨t, hpool, _⟩ := hrep i hi
    rw [hs_pools]
    exact ⟨t, hpool⟩
  · intro page hpos
    rw [hs_refcnt] at hpos
    exact absurd hpos (by decide)
  · intro page
    rw [hs_refcnt]
    decide
  · rw [hs_cnt, hs_weight, Config.PAGES_PER_CPU, ← Int.natCast_mod, ← Nat.cast_add, Nat.div_add_mod]

theorem Inv.weight_le (h : s.Inv c) : s.weight c ≤ c.NCPU * c.PAGES_PER_CPU := by
  have hle : s.weight c ≤ ∑ _i ∈ Finset.range c.NCPU, c.PAGES_PER_CPU := by
    apply Finset.sum_le_sum
    intro i hi
    obtain ⟨t, hrep⟩ := h.rep i (Finset.mem_range.mp hi)
    have htotal := hrep.total
    omega
  rwa [Finset.sum_const, Finset.card_range, smul_eq_mul] at hle

theorem Inv.count_eq_iff (h : s.Inv c) (hsmall : c.NCPU * c.PAGES_PER_CPU < 2 ^ 26) :
    s.pages_cnt = s.weight c ↔ 2 ^ 32 ∣ c.NPAGES % c.NCPU := by
  have hle := h.weight_le
  rw [h.count, ← Int.natCast_mod, int32, Int.bmod]
  generalize c.NPAGES % c.NCPU = r
  generalize hw : s.weight c = w at hle
  omega

theorem Inv.accounted (h : s.Inv c) (hdvd : 2 ^ 32 ∣ c.NPAGES % c.NCPU) (hsmall : c.NCPU * c.PAGES_PER_CPU < 2 ^ 26) :
    s.Accounted c where
  count := by rw [(h.count_eq_iff hsmall).mpr hdvd, freePages_eq h]
  free_mem := by
    have hle := h.weight_le
    rw [h.get_free_mem (by omega), (h.count_eq_iff hsmall).mpr hdvd]
  pair := by
    intro id order s₁ page halloc
    obtain ⟨s₂, hfree, hinv, hweight⟩ := h.pair halloc
    refine ⟨s₂, hfree, ?_, ?_⟩
    · rw [(hinv.count_eq_iff hsmall).mpr hdvd, (h.count_eq_iff hsmall).mpr hdvd, hweight]
    · rw [freePages_eq hinv, freePages_eq h, hweight]
  shared := by
    intro page s' hmany hfree
    obtain ⟨hcount, hpools⟩ := (h.kfree hfree).shared hmany
    refine ⟨hcount, ?_⟩
    rw [freePages, hpools]
    rfl

end Invariant

/-- **Page accounting.** Where the page array fits below the memory it describes, `mm_init` succeeds, and in every
state after it the counter is the number of pages on the free lists, if and only if the pools have all pages. -/
theorem page_accounting_iff (c : Config) (mem : Nat → Nat → Page) (hbase : KERNBASE ≤ c.pagemeta_start)
    (hfit : c.pagemeta_start + c.NCPU * c.PAGES_PER_CPU * sizeof_page < START_MEM) :
    ∃ s₀, mm_init c mem = .ok s₀ ∧
      ((∀ es s, Run (Step c) s₀ es s → s.Accounted c) ↔ 2 ^ 32 ∣ c.NPAGES % c.NCPU) := by
  obtain ⟨s₀, hinit, hinv, _, _⟩ := mm_init_ok c mem hbase hfit
  have hsmall : c.NCPU * c.PAGES_PER_CPU < 2 ^ 26 := by
    rw [sizeof_page, START_MEM] at hfit
    omega
  refine ⟨s₀, hinit, ?_, ?_⟩
  · intro hall
    have hcount := (hall [] s₀ (.nil s₀)).count
    rw [freePages_eq hinv] at hcount
    exact (hinv.count_eq_iff hsmall).mp hcount
  · intro hdvd es s hrun
    have hs : s.Inv c := hrun.invariant (I := Inv c) (fun _ _ _ h hs => h.step hs) hinv
    exact hs.accounted hdvd hsmall

/-- The machine with two CPUs, and the memory from `START_MEM` to `PHYSTOP`. -/
theorem page_accounting_two_cpus : ∃ s₀, mm_init ⟨2, 251904, 0x80400000⟩ (fun _ _ => ⟨false, 0⟩) = .ok s₀ ∧
    s₀.Accounted ⟨2, 251904, 0x80400000⟩ := by
  obtain ⟨s₀, hinit, hiff⟩ := page_accounting_iff ⟨2, 251904, 0x80400000⟩ (fun _ _ => ⟨false, 0⟩) (by decide) (by decide)
  exact ⟨s₀, hinit, hiff.mpr (by decide) [] s₀ (.nil s₀)⟩

/-- Five CPUs leave four pages over: they are counted, and no pool has them. -/
theorem pages_of_no_pool : ∃ s₀, mm_init ⟨5, 251904, 0x80400000⟩ (fun _ _ => ⟨false, 0⟩) = .ok s₀ ∧
    s₀.pages_cnt = 251904 ∧ s₀.freePages ⟨5, 251904, 0x80400000⟩ = 251900 := by
  obtain ⟨s₀, hinit, hinv, hweight, hcnt⟩ :=
    mm_init_ok ⟨5, 251904, 0x80400000⟩ (fun _ _ => ⟨false, 0⟩) (by decide) (by decide)
  refine ⟨s₀, hinit, hcnt, ?_⟩
  rw [freePages_eq hinv, hweight]
  rfl

end Mem

end LostWakeup.Mm.Kalloc
