/-
# LostWakeup.Mm.Vm — `kalloc.c`, `vm.c` and `pagefault.c`: frames, page tables and page faults.

Frames go by page frame number, and a block by its first frame.  What `buddy_get_pages` finds is read from `pool`, one
entry a call: any behaviour of the allocator that hands out free blocks is one such list.

An Sv39 page table is cut at the level of the 2M regions.  `roots` are the level-2 entries, `dir` the level-1 entries:
nothing, a 2M leaf, or a level-0 table.  The memory behind page-table pages is not read as bytes.
-/
import Mathlib.Data.BitVec
import LostWakeup.Mm.Vma

namespace LostWakeup.Mm.Vm

open Library
open Function (update)
open Mm.Vma (PGSIZE SUPERPGSIZE PGROUNDUP PGROUNDDOWN SUPERPG_ROUNDUP PERM_READ PERM_WRITE PERM_EXEC
  PERM_SHARED File vma vmatype mm_struct find_vma_for_va)

/-! ## Page table entries -/

abbrev Flags := BitVec 10

def PTE_V : Flags := 0x001
def PTE_R : Flags := 0x002
def PTE_W : Flags := 0x004
def PTE_X : Flags := 0x008
def PTE_U : Flags := 0x010
def PTE_SHARE : Flags := 0x100
def PTE_READONLY : Flags := 0x200

structure Pte where
  pfn : Nat
  flags : Flags
  deriving DecidableEq

def Pte.zero : Pte := ⟨0, 0⟩

def Flags.has (flags bit : Flags) : Bool := flags &&& bit != 0

/-- The two sizes of a leaf. -/
inductive Level
  | COMMONPAGE
  | SUPERPAGE
  deriving DecidableEq

namespace Level

def order : Level → Nat
  | COMMONPAGE => 0
  | SUPERPAGE => 9

def pgsize : Level → Nat
  | COMMONPAGE => PGSIZE
  | SUPERPAGE => SUPERPGSIZE

/-- The frames of a leaf. -/
def pages (level : Level) : Nat := 2 ^ level.order

end Level

def MAXVA : Nat := 2 ^ 38

def SUPERPG_DOWN (a : Nat) : Nat := a / SUPERPGSIZE * SUPERPGSIZE

abbrev NREGION : Nat := 2 ^ 17
abbrev NROOT : Nat := 2 ^ 8
abbrev NPTE : Nat := 512

/-- `PN(2, va)`. -/
def rootOf (va : Nat) : Fin NROOT := ⟨va / 2 ^ 30 % NROOT, Nat.mod_lt _ (by decide)⟩

/-- `PN(2, va)` and `PN(1, va)` together. -/
def region (va : Nat) : Fin NREGION := ⟨va / SUPERPGSIZE % NREGION, Nat.mod_lt _ (by decide)⟩

/-- `PN(0, va)`. -/
def slot (va : Nat) : Fin NPTE := ⟨va / PGSIZE % NPTE, Nat.mod_lt _ (by decide)⟩

inductive Entry
  | none
  | table (page : Nat) (ptes : Fin NPTE → Pte)
  | leaf (pte : Pte)

structure PageTable where
  roots : Fin NROOT → Option Nat
  dir : Fin NREGION → Entry

/-- `uvmcreate`, but for the root page itself. -/
def uvmcreate : PageTable := ⟨fun _ => none, fun _ => .none⟩

inductive Panic
  /-- `kmalloc` is handed a block that is not free. -/
  | block_in_use
  | kmalloc_refcnt
  | kfree_refcnt
  | kfree_not_allocated
  | share_refcnt
  | walk
  | remap
  | mappages_size
  | mappages_not_aligned
  | uvmunmap_not_aligned
  | uvmunmap_walk
  | uvmunmap_not_mapped
  | uvmunmap_not_leaf
  | uvmcopy_level
  | uvmcopy_not_aligned
  | uvmcopy_map
  | pagefault_not_valid
  /-- A null pointer, or the physical address 0, is used.  Nothing stops there: `kvmmake` maps address 0 to the first page
  of memory, where the kernel goes on. -/
  | null_pointer
  | out_of_fuel
  deriving DecidableEq

/-- The call comes to a null pointer. -/
def toNull {α : Type} : Except Panic α → Bool
  | .error .null_pointer => true
  | _ => false

/-- How a call may end; what the kernel does behind a null pointer is left open. -/
def Ends {α : Type} (call : Except Panic α) (result : α) : Prop := call = .ok result ∨ toNull call = true

theorem Ends.ok {α : Type} {call : Except Panic α} {result : α} (h : Ends call result) (hnull : toNull call = false) :
    call = .ok result :=
  h.resolve_right (Bool.eq_false_iff.mp hnull)

/-! ## `kalloc.c` -/

/-- The `struct page`s, the memory behind them, and what the allocator finds next. -/
structure Phys where
  refcnt : Nat → Nat
  /-- Frames of allocated blocks. -/
  busy : Nat → Bool
  order : Nat → Nat
  mem : Nat → Nat → UInt8
  pool : List (Option Nat)

/-- The frames of a block. -/
def inBlock (page order frame : Nat) : Bool := page ≤ frame && frame < page + 2 ^ order

/-- `kmalloc` of a block of `2^order` frames. -/
def kmalloc (k : Phys) (order : Nat) : Except Panic (Phys × Option Nat) :=
  match k.pool with
  | [] => .ok (k, none)
  | none :: pool => .ok ({ k with pool := pool }, none)
  | some page :: pool =>
    if (List.range (2 ^ order)).any fun i => k.busy (page + i) then
      .error .block_in_use
    else if k.refcnt page ≠ 0 then
      .error .kmalloc_refcnt
    else
      .ok ({ k with
        pool := pool
        refcnt := update k.refcnt page 1
        order := update k.order page order
        busy := fun frame => inBlock page order frame || k.busy frame }, some page)

def kzalloc (k : Phys) (order : Nat) : Except Panic (Phys × Option Nat) := do
  let (k, mem) ← kmalloc k order
  match mem with
  | none => return (k, none)
  | some page =>
    return ({ k with mem := fun frame => if inBlock page order frame then fun _ => 0 else k.mem frame }, some page)

def kfree (k : Phys) (page : Nat) : Except Panic Phys :=
  if k.refcnt page < 1 then
    .error .kfree_refcnt
  else
    let refcnt := update k.refcnt page (k.refcnt page - 1)
    if k.refcnt page - 1 ≥ 1 then
      .ok { k with refcnt := refcnt }
    else if k.busy page = false then
      .error .kfree_not_allocated
    else
      .ok { k with
        refcnt := refcnt
        busy := fun frame => k.busy frame && !inBlock page (k.order page) frame }

def share_page (k : Phys) (page : Nat) : Except Panic Phys :=
  if k.refcnt page < 1 then
    .error .share_refcnt
  else
    .ok { k with refcnt := update k.refcnt page (k.refcnt page + 1) }

/-! ## `walk` and `mappages` -/

/-- What `walk` leaves in `*pte`: a null pointer, or a place in the page table. -/
inductive Found
  | null
  | entry (level : Level) (pte : Pte)

/-- `walk` with `alloc == 0` and `lowlevel == 0`. -/
def walk (pt : PageTable) (va : Nat) : Except Panic Found :=
  if va ≥ MAXVA then
    .error .walk
  else
    match pt.dir (region va) with
    | .none => .ok .null
    | .leaf pte => .ok (.entry .SUPERPAGE pte)
    | .table _ ptes => .ok (.entry .COMMONPAGE (ptes (slot va)))

namespace PageTable

def setEntry (pt : PageTable) (r : Fin NREGION) (e : Entry) : PageTable :=
  { pt with dir := update pt.dir r e }

/-- A store through the pointer that `walk` returned for `va`. -/
def set (pt : PageTable) (va : Nat) (pte : Pte) : PageTable :=
  match pt.dir (region va) with
  | .table page ptes => pt.setEntry (region va) (.table page (update ptes (slot va) pte))
  | _ => pt.setEntry (region va) (if pte = Pte.zero then .none else .leaf pte)

end PageTable

/-- The level-2 step of `walk` with `alloc != 0`; `false` when no page is left. -/
def walkRoot (k : Phys) (pt : PageTable) (va : Nat) : Except Panic (Phys × PageTable × Bool) :=
  match pt.roots (rootOf va) with
  | some _ => .ok (k, pt, true)
  | none => do
    let (k, page) ← kzalloc k 0
    match page with
    | none => return (k, pt, false)
    | some page => return (k, { pt with roots := update pt.roots (rootOf va) (some page) }, true)

/-- The level-1 step of `walk` with `alloc != 0`, which a walk to a 2M leaf does not make. -/
def walkTable (k : Phys) (pt : PageTable) (va : Nat) (level : Level) : Except Panic (Phys × PageTable × Bool) :=
  match level, pt.dir (region va) with
  | .COMMONPAGE, .none => do
    let (k, page) ← kzalloc k 0
    match page with
    | none => return (k, pt, false)
    | some page => return (k, pt.setEntry (region va) (.table page fun _ => Pte.zero), true)
  | _, _ => .ok (k, pt, true)

/-- The store of `mappages`, once the walk has made room for it. -/
def mapEntry (pt : PageTable) (va pfn : Nat) (perm : Flags) (level : Level) : Except Panic PageTable :=
  let pte : Pte := ⟨pfn, perm ||| PTE_V⟩
  match level, pt.dir (region va) with
  | .SUPERPAGE, .none => .ok (pt.setEntry (region va) (.leaf pte))
  | .COMMONPAGE, .table page ptes =>
    if (ptes (slot va)).flags.has PTE_V then .error .remap
    else .ok (pt.setEntry (region va) (.table page (update ptes (slot va) pte)))
  | _, _ => .error .remap

/-- One turn of the loop of `mappages`. -/
def mapOne (k : Phys) (pt : PageTable) (va pfn : Nat) (perm : Flags) (level : Level) :
    Except Panic (Phys × PageTable × Bool) :=
  if va ≥ MAXVA then
    .error .walk
  else do
    let (k, pt, ok) ← walkRoot k pt va
    if ok = false then return (k, pt, false)
    let (k, pt, ok) ← walkTable k pt va level
    if ok = false then return (k, pt, false)
    let pt ← mapEntry pt va pfn perm level
    return (k, pt, true)

def mapLoop (perm : Flags) (level : Level) (k : Phys) (pt : PageTable) :
    Nat → Nat → Nat → Except Panic (Phys × PageTable × Bool)
  | 0, _, _ => .ok (k, pt, true)
  | n + 1, a, pfn => do
    let (k, pt, ok) ← mapOne k pt a pfn perm level
    if ok = false then return (k, pt, false)
    mapLoop perm level k pt n (a + level.pgsize) (pfn + level.pages)

/-- `mappages`; `false` is the return value `-1`. -/
def mappages (k : Phys) (pt : PageTable) (va size pfn : Nat) (perm : Flags) (level : Level) :
    Except Panic (Phys × PageTable × Bool) :=
  if size = 0 then
    .error .mappages_size
  else if level = .SUPERPAGE ∧ va % SUPERPGSIZE ≠ 0 then
    .error .mappages_not_aligned
  else
    let a := va / level.pgsize * level.pgsize
    let last := (va + size - 1) / level.pgsize * level.pgsize
    mapLoop perm level k pt ((last - a) / level.pgsize + 1) a pfn

/-- The values of the loop variable in `for (a = from; a < to; a += step)`. -/
def addrs (start stop step : Nat) : List Nat :=
  (List.range ((stop - start + (step - 1)) / step)).map fun i => start + step * i

/-! ## `uvmalloc`, `uvmdealloc` and `uvmunmap`

The three call each other: `uvmunmap` calls `uvmalloc` to put back the front of a 2M page, `uvmalloc`
calls `uvmdealloc` when memory runs out, and that calls `uvmunmap` on the pages mapped so far.  Each is
written over the one it calls, and the knot is tied where the calls stop. -/

/-- The type of `uvmdealloc`, without its return value. -/
abbrev Dealloc := Phys → PageTable → Nat → Nat → Except Panic (Phys × PageTable)

/-- One loop of `uvmalloc` over the addresses that are left; `false` when it gave up. -/
def allocLoop (dealloc : Dealloc) (startva : Nat) (perm : Flags) (level : Level) :
    List Nat → Phys → PageTable → Except Panic (Phys × PageTable × Bool)
  | [], k, pt => .ok (k, pt, true)
  | a :: as, k, pt => do
    let (k, mem) ← kzalloc k level.order
    match mem with
    | none =>
      let (k, pt) ← dealloc k pt a startva
      return (k, pt, false)
    | some mem =>
      let (k, pt, ok) ← mappages k pt a level.pgsize mem (PTE_R ||| PTE_U ||| perm) level
      if ok = false then
        let k ← kfree k mem
        let (k, pt) ← dealloc k pt a startva
        return (k, pt, false)
      allocLoop dealloc startva perm level as k pt

/-- `uvmalloc`, with its return value. -/
def uvmallocWith (dealloc : Dealloc) (k : Phys) (pt : PageTable) (startva endva : Nat) (perm : Flags) :
    Except Panic (Phys × PageTable × Nat) :=
  if endva < startva then
    .ok (k, pt, startva)
  else do
    let aligned_sz := PGROUNDUP startva
    let super_aligned_sz := SUPERPG_ROUNDUP startva
    let min := if endva ≤ super_aligned_sz then endva else super_aligned_sz
    let (k, pt, ok) ← allocLoop dealloc startva perm .COMMONPAGE (addrs aligned_sz min PGSIZE) k pt
    if ok = false then return (k, pt, 0)
    if endva ≤ super_aligned_sz then return (k, pt, endva)
    let newsz_down := SUPERPG_DOWN endva
    let (k, pt, ok) ← allocLoop dealloc startva perm .SUPERPAGE (addrs super_aligned_sz newsz_down SUPERPGSIZE) k pt
    if ok = false then return (k, pt, 0)
    let (k, pt, ok) ← allocLoop dealloc startva perm .COMMONPAGE (addrs newsz_down endva PGSIZE) k pt
    if ok = false then return (k, pt, 0)
    return (k, pt, endva)

/-- The type of the call of `uvmalloc` in `uvmunmap`. -/
abbrev Realloc := Phys → PageTable → Nat → Nat → Flags → Except Panic (Phys × PageTable)

/-- The arguments of `uvmunmap` that stay the same while it loops. -/
structure UnmapArgs where
  va : Nat
  endva : Nat
  do_free : Bool
  on_demand : Bool

/-- The body of the loop of `uvmunmap` at a leaf: the entry goes, and a 2M leaf that begins before the
range gets its front part back. -/
def unmapLeaf (realloc : Realloc) (args : UnmapArgs) (a : Nat) (level : Level) (pte : Pte)
    (k : Phys) (pt : PageTable) : Except Panic (Phys × PageTable) := do
  let k ← free k
  let pt := pt.set a Pte.zero
  if level = .SUPERPAGE ∧ a ≠ SUPERPG_DOWN a ∧ a = args.va then
    realloc k pt (SUPERPG_DOWN a) a pte.flags
  else
    return (k, pt)
where
  free (k : Phys) : Except Panic Phys := if args.do_free then kfree k pte.pfn else .ok k

/-- The loop of `uvmunmap`, from `a` on. -/
def unmapLoop (realloc : Realloc) (args : UnmapArgs) : Nat → Nat → Phys → PageTable →
    Except Panic (Phys × PageTable)
  | 0, a, k, pt => if a < args.endva then .error .out_of_fuel else .ok (k, pt)
  | fuel + 1, a, k, pt =>
    if a < args.endva then do
      match ← walk pt a with
      | .null =>
        if args.on_demand then unmapLoop realloc args fuel (a + PGSIZE) k pt else .error .uvmunmap_walk
      | .entry level pte =>
        if pte.flags.has PTE_V = false then
          if args.on_demand then unmapLoop realloc args fuel (a + PGSIZE) k pt
          else .error .uvmunmap_not_mapped
        else if pte.flags = PTE_V then
          .error .uvmunmap_not_leaf
        else
          let (k, pt) ← unmapLeaf realloc args a level pte k pt
          -- past a 2M leaf by 2M, from wherever in it the loop was
          unmapLoop realloc args fuel (a + level.pgsize) k pt
    else
      .ok (k, pt)

def uvmunmapWith (realloc : Realloc) (k : Phys) (pt : PageTable) (va npages : Nat) (do_free on_demand : Bool) :
    Except Panic (Phys × PageTable) :=
  if va % PGSIZE ≠ 0 then
    .error .uvmunmap_not_aligned
  else
    unmapLoop realloc ⟨va, add64 va (npages * PGSIZE % 2 ^ 64), do_free, on_demand⟩ npages va k pt

/-- `uvmdealloc` over the `uvmunmap` it calls. -/
def uvmdeallocWith (realloc : Realloc) : Dealloc := fun k pt oldsz newsz =>
  if newsz ≥ oldsz then
    .ok (k, pt)
  else if PGROUNDUP newsz < PGROUNDUP oldsz then
    uvmunmapWith realloc k pt (PGROUNDUP newsz) ((PGROUNDUP oldsz - PGROUNDUP newsz) / PGSIZE) true false
  else
    .ok (k, pt)

/-- `uvmalloc` as `uvmunmap` calls it: it maps 4K pages only, so that when it gives up no 2M page is in
its way. -/
def uvmalloc_front : Realloc := fun k pt startva endva perm => do
  let (k, pt, _) ← uvmallocWith (uvmdeallocWith fun _ _ _ _ _ => .error .out_of_fuel) k pt startva endva perm
  return (k, pt)

def uvmunmap (k : Phys) (pt : PageTable) (va npages : Nat) (do_free on_demand : Bool) :
    Except Panic (Phys × PageTable) :=
  uvmunmapWith uvmalloc_front k pt va npages do_free on_demand

def uvmdealloc : Dealloc := uvmdeallocWith uvmalloc_front

def uvmalloc (k : Phys) (pt : PageTable) (startva endva : Nat) (perm : Flags) :
    Except Panic (Phys × PageTable × Nat) :=
  uvmallocWith uvmdealloc k pt startva endva perm

/-! ## `uvmcopy` -/

/-- `memmove` of a whole leaf between frames. -/
def memmove (k : Phys) (dst src : Nat) (level : Level) : Phys :=
  { k with mem := fun frame => if inBlock dst level.order frame then k.mem (src + (frame - dst)) else k.mem frame }

/-- The pages of a stack are copied at once. -/
def copyStack (src : PageTable) (startva : Nat) :
    List Nat → Phys → PageTable → Except Panic (Phys × PageTable × Bool)
  | [], k, dst => .ok (k, dst, true)
  | offset :: offsets, k, dst => do
    match ← walk src (startva + offset) with
    | .null => .error .uvmcopy_level
    | .entry _ pte =>
      let (k, new) ← kzalloc k 0
      match new with
      | none => return (k, dst, false)
      | some new =>
        -- for a page that is not there the frame is 0: what the kernel has at address 0
        let k := memmove k new pte.pfn .COMMONPAGE
        let (k, dst, ok) ← mappages k dst (startva + offset) PGSIZE new (PTE_W ||| PTE_R ||| PTE_U) .COMMONPAGE
        if ok = false then .error .uvmcopy_map
        else copyStack src startva offsets k dst

/-- The flags of a page that parent and child are going to share. -/
def shareFlags (flags : Flags) : Flags :=
  let flags := if flags.has PTE_W = false ∧ flags.has PTE_SHARE = false then flags ||| PTE_READONLY else flags
  let flags := if flags.has PTE_W = false ∧ flags.has PTE_READONLY then flags ||| PTE_READONLY else flags
  (flags ||| PTE_SHARE) &&& ~~~PTE_W

/-- Whether `uvmcopy` leaves the pages of an area writable in both. -/
def keepsShared (v : vma) : Bool := v.type = .VMA_FILE && v.perm &&& PERM_SHARED != 0

/-- The loop of `uvmcopy` over the pages of an area, from `i` on. -/
def copyLoop (v : vma) (endva : Nat) : Nat → Nat → Phys → PageTable → PageTable →
    Except Panic (Phys × PageTable × PageTable)
  | 0, i, k, src, dst => if i < endva then .error .out_of_fuel else .ok (k, src, dst)
  | fuel + 1, i, k, src, dst =>
    if i < endva then do
      match ← walk src i with
      | .null => copyLoop v endva fuel (i + PGSIZE) k src dst
      | .entry level pte =>
        if pte = Pte.zero then
          copyLoop v endva fuel (i + PGSIZE) k src dst
        else
          let pte := if keepsShared v then pte else { pte with flags := shareFlags pte.flags }
          let src := src.set i pte
          if level = .SUPERPAGE ∧ i ≠ SUPERPG_DOWN i then
            .error .uvmcopy_not_aligned
          else
            let (k, dst, ok) ← mappages k dst i level.pgsize pte.pfn pte.flags level
            if ok = false then
              .error .uvmcopy_map
            else
              let k ← share_page k pte.pfn
              copyLoop v endva fuel (i + level.pgsize) k src dst
    else
      .ok (k, src, dst)

/-- What `uvmcopy` does for one area; `false` is the return value `-1`. -/
def copyArea (v : vma) (k : Phys) (src dst : PageTable) : Except Panic (Phys × PageTable × PageTable × Bool) :=
  if v.type = .VMA_STACK then do
    let (k, dst, ok) ← copyStack src v.startva (addrs 0 v.size PGSIZE) k dst
    return (k, src, dst, ok)
  else if v.startva % PGSIZE ≠ 0 ∨ add64 v.startva v.size % PGSIZE ≠ 0 then
    .error .uvmcopy_not_aligned
  else do
    let (k, src, dst) ← copyLoop v (add64 v.startva v.size) (v.size / PGSIZE) v.startva k src dst
    return (k, src, dst, true)

def uvmcopy : List vma → Phys → PageTable → PageTable → Except Panic (Phys × PageTable × PageTable × Bool)
  | [], k, src, dst => .ok (k, src, dst, true)
  | v :: vs, k, src, dst => do
    let (k, src, dst, ok) ← copyArea v k src dst
    if ok = false then return (k, src, dst, false)
    uvmcopy vs k src dst

/-! ## Page faults -/

inductive Cause
  | INSTUCTION_PAGEFAULT
  | LOAD_PAGEFAULT
  | STORE_PAGEFAULT
  deriving DecidableEq

def CHECK_PERM (cause : Cause) (v : vma) : Bool :=
  match cause with
  | .STORE_PAGEFAULT => v.perm &&& PERM_WRITE != 0
  | .LOAD_PAGEFAULT => v.perm &&& PERM_READ != 0
  | .INSTUCTION_PAGEFAULT => v.perm &&& PERM_EXEC != 0

def perm_vma2pte (vma_perm : Nat) : Flags :=
  (if vma_perm &&& PERM_READ ≠ 0 then PTE_R else 0) |||
  (if vma_perm &&& PERM_WRITE ≠ 0 then PTE_W else 0) |||
  (if vma_perm &&& PERM_EXEC ≠ 0 then PTE_X else 0)

def is_a_cow_page (flags : Flags) : Bool := flags.has PTE_SHARE && !flags.has PTE_READONLY

/-- `cow`; `false` is the return value `-1`. -/
def cow (k : Phys) (pt : PageTable) (va : Nat) (level : Level) (pte : Pte) :
    Except Panic (Phys × PageTable × Bool) := do
  let (k, mem) ← kmalloc k level.order
  match mem with
  | none => return (k, pt, false)
  | some mem =>
    let k := memmove k mem pte.pfn level
    let pt := pt.set va ⟨mem, pte.flags ||| PTE_W⟩
    let k ← kfree k pte.pfn
    return (k, pt, true)

/-- `walkaddr`, as a frame. -/
def walkaddr (pt : PageTable) (va : Nat) : Option Nat :=
  if va ≥ MAXVA then
    none
  else
    match walk pt va with
    | .ok (.entry level pte) =>
      if pte.flags.has PTE_V && pte.flags.has PTE_U then
        some (pte.pfn + (if level = .SUPERPAGE then va / PGSIZE % NPTE else 0))
      else none
    | _ => none

/-- The bytes of the files: by file and offset, as far as the file reaches. -/
abbrev Files := File → Nat → Option UInt8

/-- `fat32_inode_read` of a page into the frame `page`.  The offset is a `uint`, and what is past the end of the file
is not read. -/
def inode_read (k : Phys) (files : Files) (file : File) (page offset : Nat) : Except Panic Phys :=
  let off := offset % 2 ^ 32
  if off + PGSIZE ≥ 2 ^ 32 ∨ (files file off).isNone then
    .ok k
  else if page = 0 then
    .error .null_pointer
  else
    .ok { k with mem := update k.mem page fun i => (files file (off + i)).getD (k.mem page i) }

/-- `pagefault`; `false` is the return value `-1`. -/
def pagefault (files : Files) (mm : mm_struct) (cause : Cause) (k : Phys) (pt : PageTable) (stval : Nat) :
    Except Panic (Phys × PageTable × Bool) :=
  if PGROUNDDOWN stval ≥ MAXVA then
    .ok (k, pt, false)
  else
    match find_vma_for_va mm stval with
    | none => .ok (k, pt, false)
    | some i =>
      let vma := mm.vmas i
      if CHECK_PERM cause vma = false then
        .ok (k, pt, false)
      else do
        match ← walk pt stval with
        | .entry level pte =>
          if pte = Pte.zero then populate vma k pt
          else if pte.flags.has PTE_V = false then .error .pagefault_not_valid
          else if is_a_cow_page pte.flags then cow k pt stval level pte
          else return (k, pt, false)
        | .null => populate vma k pt
where
  /-- The branch for a page that is not there. -/
  populate (vma : vma) (k : Phys) (pt : PageTable) : Except Panic (Phys × PageTable × Bool) := do
    let (k, pt, _) ← uvmalloc k pt (PGROUNDDOWN stval) (PGROUNDUP (stval + 1)) (perm_vma2pte vma.perm)
    if vma.type = .VMA_FILE then
      match vma.vm_file with
      | none => .error .null_pointer
      | some file =>
        let k ← inode_read k files file ((walkaddr pt stval).getD 0) (sub64 (add64 vma.offset (PGROUNDDOWN stval)) vma.startva)
        return (k, pt, true)
    else
      return (k, pt, true)

/-! ## Memory accesses -/

/-- The frame behind a user address and the flags of its entry. -/
def translate (pt : PageTable) (va : Nat) : Option (Nat × Flags) :=
  match walk pt va with
  | .ok (.entry level pte) =>
    if pte.flags.has PTE_V && pte.flags.has PTE_U then
      some (pte.pfn + (if level = .SUPERPAGE then va / PGSIZE % NPTE else 0), pte.flags)
    else none
  | _ => none

/-- A load by the user; `none` is a fault. -/
def load (k : Phys) (pt : PageTable) (va : Nat) : Option UInt8 :=
  match translate pt va with
  | some (frame, flags) => if flags.has PTE_R then some (k.mem frame (va % PGSIZE)) else none
  | none => none

/-- The frame that a user's store to `va` reaches without a fault. -/
def writable (pt : PageTable) (va : Nat) : Option Nat :=
  match translate pt va with
  | some (frame, flags) => if flags.has PTE_W then some frame else none
  | none => none

def Phys.setByte (k : Phys) (frame off : Nat) (byte : UInt8) : Phys :=
  { k with mem := update k.mem frame (update (k.mem frame) off byte) }

/-- A store by the user: at once, or again after the page fault.  `false` when it does not happen. -/
def store (files : Files) (mm : mm_struct) (k : Phys) (pt : PageTable) (va : Nat) (byte : UInt8) :
    Except Panic (Phys × PageTable × Bool) :=
  match writable pt va with
  | some frame => .ok (k.setByte frame (va % PGSIZE) byte, pt, true)
  | none => do
    let (k, pt, ok) ← pagefault files mm .STORE_PAGEFAULT k pt va
    if ok = false then return (k, pt, false)
    match writable pt va with
    | some frame => return (k.setByte frame (va % PGSIZE) byte, pt, true)
    | none => return (k, pt, false)

/-- `memmove` of bytes into a frame, from the offset `off` on. -/
def Phys.setBytes (k : Phys) (frame off : Nat) (bytes : List UInt8) : Phys :=
  { k with mem := update k.mem frame fun i =>
      if off ≤ i then (bytes[i - off]?).getD (k.mem frame i) else k.mem frame i }

/-- The first test of a turn of `copyout`: a page that is not there is faulted in.  `false` is the return
value `-1`. -/
def copyoutPresent (files : Files) (mm : mm_struct) (k : Phys) (pt : PageTable) (dstva : Nat) :
    Except Panic (Phys × PageTable × Bool) := do
  match ← walk pt (PGROUNDDOWN dstva) with
  | .null =>
    let (k, pt, ok) ← pagefault files mm .STORE_PAGEFAULT k pt dstva
    -- the null pointer from before is read once the page is there
    if ok then .error .null_pointer else return (k, pt, false)
  | .entry _ pte =>
    if pte = Pte.zero then pagefault files mm .STORE_PAGEFAULT k pt dstva else return (k, pt, true)

/-- The part of a turn of `copyout` that makes the page writable. -/
def copyoutPage (files : Files) (mm : mm_struct) (k : Phys) (pt : PageTable) (dstva : Nat) :
    Except Panic (Phys × PageTable × Bool) := do
  let (k, pt, ok) ← copyoutPresent files mm k pt dstva
  if ok = false then return (k, pt, false)
  match ← walk pt (PGROUNDDOWN dstva) with
  | .null => .error .null_pointer
  | .entry _ pte =>
    if pte.flags.has PTE_W = false ∧ is_a_cow_page pte.flags then
      pagefault files mm .STORE_PAGEFAULT k pt dstva
    else
      return (k, pt, true)

/-- `copyout`, page by page; `false` is the return value `-1`. -/
def copyoutLoop (files : Files) (mm : mm_struct) : Nat → Phys → PageTable → Nat → List UInt8 →
    Except Panic (Phys × PageTable × Bool)
  | _, k, pt, _, [] => .ok (k, pt, true)
  | 0, _, _, _, _ => .error .out_of_fuel
  | fuel + 1, k, pt, dstva, src => do
    let va0 := PGROUNDDOWN dstva
    if va0 ≥ MAXVA then return (k, pt, false)
    let (k, pt, ok) ← copyoutPage files mm k pt dstva
    if ok = false then return (k, pt, false)
    let pa0 := (walkaddr pt va0).getD 0
    if pa0 = 0 then return (k, pt, false)
    let n := PGSIZE - (dstva - va0)
    let k := k.setBytes pa0 (dstva - va0) (src.take n)
    copyoutLoop files mm fuel k pt (va0 + PGSIZE) (src.drop n)

def copyout (files : Files) (mm : mm_struct) (k : Phys) (pt : PageTable) (dstva : Nat) (src : List UInt8) :
    Except Panic (Phys × PageTable × Bool) :=
  copyoutLoop files mm src.length k pt dstva src

/-- `copyin`, page by page; `none` is the return value `-1`.  Each turn takes at least one byte, so `len` turns do. -/
def copyinLoop (k : Phys) (pt : PageTable) : Nat → Nat → Nat → Option (List UInt8)
  | _, _, 0 => some []
  | 0, _, _ => none
  | fuel + 1, srcva, len =>
    let va0 := PGROUNDDOWN srcva
    let pa0 := (walkaddr pt va0).getD 0
    if pa0 = 0 then
      none
    else
      let n := min (PGSIZE - (srcva - va0)) len
      let bytes := (List.range n).map fun i => k.mem pa0 (srcva - va0 + i)
      (copyinLoop k pt fuel (va0 + PGSIZE) (len - n)).map (bytes ++ ·)

def copyin (k : Phys) (pt : PageTable) (srcva len : Nat) : Option (List UInt8) := copyinLoop k pt len srcva len

end LostWakeup.Mm.Vm
