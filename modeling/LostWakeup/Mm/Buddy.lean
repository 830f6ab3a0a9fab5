/-
# LostWakeup.Mm.Buddy — `src/mm/buddy.c`: the buddy allocator of one memory pool.

Pages are named by their index in `page_metadata`, and the free lists are lists of such indices; `list_del` faults on a
page that is on none.  Every `ASSERT` and every such fault is a `Panic`, so that "no assertion fires" is the statement
that the functions return `.ok`.

`split_page` and `merge_page` never clear the `order` of a page that stops being a head.  That is harmless because the
buddy of a block is always the head of some block (`Dyadic.Tiles.buddy_head`).
-/
import Mathlib.Logic.Function.Basic
import LostWakeup.Library.CInt

namespace LostWakeup.Mm.Buddy

open Library
open Function (update)

/-! ## The pool -/

def PGSIZE : Nat := 4096
def START_MEM : Nat := 0x82800000
def KERNBASE : Nat := 0x80200000
def BUDDY_MAX_ORDER : Nat := 13

/-- `sizeof(struct page)`. -/
def sizeof_page : Nat := 80

/-- The fields of `struct page` the allocator uses. -/
structure Page where
  allocated : Bool
  order : Nat
  deriving DecidableEq

structure FreeList where
  lists : List Nat
  num : Int
  deriving DecidableEq

/-- `struct phys_mem_pool`; `pages` is the array at `page_metadata`. -/
structure Pool where
  start_addr : Nat
  mem_size : Nat
  page_metadata : Nat
  pages : Nat → Page
  freelists : Nat → FreeList

/-- Where the kernel stops: the failing `ASSERT`, by function, or a dereference of `NULL`. -/
inductive Panic
  | get_buddy_order
  | offset_to_page_align
  | init_buddy_metadata
  | init_buddy_memsize
  | buddy_get_pages_order
  | buddy_get_pages_result
  | split_page_order
  | split_page_allocated
  | null_pointer
  | out_of_fuel
  deriving DecidableEq

def assert (cond : Prop) [Decidable cond] (panic : Panic) : Except Panic Unit :=
  if cond then .ok () else .error panic

namespace Pool

def setOrder (pool : Pool) (page order : Nat) : Pool :=
  { pool with pages := update pool.pages page { pool.pages page with order := order } }

def setAllocated (pool : Pool) (page : Nat) (allocated : Bool) : Pool :=
  { pool with
    pages := update pool.pages page { pool.pages page with allocated := allocated } }

/-- `list_add(&page->list, &pool->freelists[order].lists)`. -/
def list_add (pool : Pool) (page order : Nat) : Pool :=
  { pool with
    freelists := update pool.freelists order
      { pool.freelists order with lists := page :: (pool.freelists order).lists } }

/-- `pool->freelists[order].num += d`. -/
def addNum (pool : Pool) (order : Nat) (d : Int) : Pool :=
  { pool with
    freelists := update pool.freelists order
      { pool.freelists order with num := int32 ((pool.freelists order).num + d) } }

/-- Whether the page is linked into one of the free lists. -/
def linked (pool : Pool) (page : Nat) : Bool :=
  (List.range (BUDDY_MAX_ORDER + 1)).any fun i => (pool.freelists i).lists.contains page

/-- `list_del(&page->list)`. -/
def list_del (pool : Pool) (page : Nat) : Except Panic Pool :=
  if pool.linked page then
    .ok { pool with
      freelists := fun i => { pool.freelists i with lists := (pool.freelists i).lists.erase page } }
  else
    .error .null_pointer

def page_to_offset (page : Nat) : Nat := page * PGSIZE

def offset_to_page (offset : Nat) : Except Panic Nat := do
  assert (offset % PGSIZE = 0) .offset_to_page_align
  return offset / PGSIZE

/-- The buddy of the block headed by `page`; `none` is `NULL`, for a buddy outside the pool. -/
def get_buddy (pool : Pool) (page : Nat) : Except Panic (Option Nat) := do
  assert ((pool.pages page).order < BUDDY_MAX_ORDER) .get_buddy_order
  let this_off := page_to_offset page
  let buddy_off := this_off ^^^ (1 <<< ((pool.pages page).order + 12))
  if buddy_off ≥ pool.mem_size then
    return none
  let buddy ← offset_to_page buddy_off
  return some buddy

/-- `merge_page`; its recursion climbs one order at a time, which `fuel` bounds. -/
def merge_page (pool : Pool) (page : Nat) : Nat → Except Panic (Pool × Nat)
  | 0 => .error .out_of_fuel
  | fuel + 1 => do
    if (pool.pages page).order = BUDDY_MAX_ORDER then
      return (pool, page)
    match ← pool.get_buddy page with
    | none => return (pool, page)
    | some buddy =>
      if (pool.pages buddy).allocated = false ∧
          (pool.pages buddy).order = (pool.pages page).order then
        let pool ← pool.list_del buddy
        let pool := pool.addNum (pool.pages buddy).order (-1)
        let merge := if buddy < page then buddy else page
        let pool := pool.setOrder merge ((pool.pages merge).order + 1)
        merge_page pool merge fuel
      else
        return (pool, page)

def buddy_free_pages (pool : Pool) (page : Nat) : Except Panic Pool := do
  let pool := pool.setAllocated page false
  let (pool, page) ←
    if (pool.pages page).order < BUDDY_MAX_ORDER then
      pool.merge_page page (BUDDY_MAX_ORDER + 1)
    else
      pure (pool, page)
  let order := (pool.pages page).order
  return (pool.list_add page order).addNum order 1

/-- The loop of `split_page`; `fuel` bounds the number of halvings. -/
def split_loop (pool : Pool) (order page : Nat) : Nat → Except Panic Pool
  | 0 => .error .out_of_fuel
  | fuel + 1 => do
    if (pool.pages page).order > order then
      let pool := pool.setOrder page ((pool.pages page).order - 1)
      match ← pool.get_buddy page with
      | none => .error .null_pointer
      | some buddy =>
        assert ((pool.pages buddy).allocated = false) .split_page_allocated
        let pool := pool.setOrder buddy (pool.pages page).order
        let k := (pool.pages buddy).order
        split_loop ((pool.list_add buddy k).addNum k 1) order page fuel
    else
      return pool

def split_page (pool : Pool) (order page : Nat) : Except Panic Pool := do
  assert ((pool.pages page).order > order) .split_page_order
  pool.split_loop order page (BUDDY_MAX_ORDER + 1)

/-- The search of `buddy_get_pages`: the first entry of the first list that is not empty, from
`order` up. -/
def find_block (pool : Pool) (order : Nat) : Option Nat :=
  (List.range' order (BUDDY_MAX_ORDER + 1 - order)).findSome? fun i =>
    (pool.freelists i).lists.head?

def buddy_get_pages (pool : Pool) (order : Nat) : Except Panic (Pool × Option Nat) := do
  assert (order ≤ BUDDY_MAX_ORDER) .buddy_get_pages_order
  match pool.find_block order with
  | none => return (pool, none)
  | some page =>
    let pool ← pool.list_del page
    let pool := pool.addNum (pool.pages page).order (-1)
    let pool ← if (pool.pages page).order > order then pool.split_page order page else pure pool
    let pool := pool.setAllocated page true
    assert ((pool.pages page).order = order) .buddy_get_pages_result
    return (pool, some page)

/-- The sum `init_buddy` checks its work with, in the arithmetic of the source: each term is an
`int`, the sum a `uint64`. -/
def memsize (pool : Pool) : Int :=
  (List.range (BUDDY_MAX_ORDER + 1)).foldl
    (fun sum i => (sum + int32 (int32 ((pool.freelists i).num * PGSIZE) * (1 <<< i : Nat))) % 2 ^ 64) 0

/-- Free the pages `0, …, n - 1` in turn. -/
def free_all (pool : Pool) : Nat → Except Panic Pool
  | 0 => .ok pool
  | n + 1 => do
    let pool ← free_all pool n
    pool.buddy_free_pages n

end Pool

/-- `init_buddy` on the metadata array at address `start_page`; `mem` is what the memory behind the
array holds. -/
def init_buddy (mem : Nat → Page) (start_page start_addr page_num : Nat) : Except Panic Pool := do
  assert ((start_page + page_num * sizeof_page) % 2 ^ 64 < START_MEM) .init_buddy_metadata
  let pool : Pool :=
    { start_addr := start_addr
      mem_size := PGSIZE * page_num % 2 ^ 64
      page_metadata := start_page
      pages := fun page_idx => if page_idx < page_num then ⟨true, 0⟩ else mem page_idx
      freelists := fun _ => ⟨[], 0⟩ }
  let pool ← pool.free_all page_num
  assert (pool.memsize = pool.mem_size) .init_buddy_memsize
  return pool

/-! ## A pool in use -/

/-- A pool together with the blocks its callers hold, each as its head page and order. -/
structure InUse where
  pool : Pool
  out : List (Nat × Nat)

inductive BuddyEvent
  | buddy_get_pages (order : Nat)
  | buddy_free_pages (page order : Nat)

namespace InUse

/-- What callers are allowed to ask: orders up to the maximum, and to free what they hold. -/
def Legal (s : InUse) : BuddyEvent → Prop
  | .buddy_get_pages order => order ≤ BUDDY_MAX_ORDER
  | .buddy_free_pages page order => (page, order) ∈ s.out

def call (s : InUse) : BuddyEvent → Except Panic InUse
  | .buddy_get_pages order => do
    match ← s.pool.buddy_get_pages order with
    | (pool, none) => return ⟨pool, s.out⟩
    | (pool, some page) => return ⟨pool, (page, order) :: s.out⟩
  | .buddy_free_pages page order => do
    let pool ← s.pool.buddy_free_pages page
    return ⟨pool, s.out.erase (page, order)⟩

def Step (s : InUse) (e : BuddyEvent) (s' : InUse) : Prop := s.Legal e ∧ s.call e = .ok s'

end InUse

end LostWakeup.Mm.Buddy
