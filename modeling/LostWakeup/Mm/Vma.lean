/-
# LostWakeup.Mm.Vma — `vma.c`, `mmap.c` and `growheap`: the areas of an address space.

The areas live in the global pool `vmas[NVMA]` and an address space lists the slots it owns, so a pointer to an area is a
slot number; `heapvma` can outlive its area.  Addresses and sizes are numbers below `2^64`, with every sum and difference
wrapped.

What the page table answers is an argument of the operation that asks.  The effects on it, on the files and on their
reference counts are not modelled here: no bound of an area depends on them.
-/
import Mathlib.Data.Nat.Bitwise
import Mathlib.Logic.Function.Basic
import LostWakeup.Library.CInt
import LostWakeup.Library.Outcome
import LostWakeup.Library.Run

namespace LostWakeup.Mm.Vma

open Library

/-! ## Addresses -/

def PGSIZE : Nat := 4096

def SUPERPGSIZE : Nat := PGSIZE * 512

def PGROUNDUP (sz : Nat) : Nat := roundUp PGSIZE sz

def SUPERPG_ROUNDUP (sz : Nat) : Nat := roundUp SUPERPGSIZE sz

def PGROUNDDOWN (a : Nat) : Nat := a / PGSIZE * PGSIZE

/-! ## The data model -/

inductive vmatype
  | VMA_STACK
  | VMA_HEAP
  | VMA_TEXT
  | VMA_FILE
  | VMA_ANON
  | VMA_INTERP
  deriving DecidableEq

/-- An open file, as far as mapping it goes. -/
structure File where
  id : Nat
  f_flags : Nat
  deriving DecidableEq

def F_WRITEABLE (fp : File) : Bool := fp.f_flags > 0

structure vma where
  type : vmatype
  startva : Nat
  size : Nat
  perm : Nat
  offset : Nat
  vm_file : Option File
  deriving DecidableEq

structure mm_struct where
  vmas : Nat → vma
  used : Nat → Bool
  /-- The slots on the list, from its head. -/
  head_vma : List Nat
  start_brk : Nat
  brk : Nat
  heapvma : Option Nat

def NVMA : Nat := 3000
def MMAP_START : Nat := 0x30000000

/-- One past the highest address that `walk` takes. -/
protected def MAXVA : Nat := 2 ^ 38

def MAP_SHARED : Nat := 0x01
def MAP_FIXED : Nat := 0x10
def MAP_ANONYMOUS : Nat := 0x20

def PERM_READ : Nat := 1
def PERM_WRITE : Nat := 2
def PERM_EXEC : Nat := 4
def PERM_SHARED : Nat := 8

/-- The ways an operation does not return. -/
inductive Stop
  /-- `ASSERT(0)` of `add_vma_to_vmspace`. -/
  | vma_overlap
  /-- `ASSERT(0)` of `del_vma_from_vmspace`. -/
  | vma_not_in_vmspace
  /-- `ASSERT(va % PGSIZE == 0)` of `vma_map_range`. -/
  | va_not_aligned
  /-- `ASSERT(max % PGSIZE == 0)` of `find_mapping_space`. -/
  | max_not_aligned
  /-- `panic("walk")`. -/
  | walk
  | page_mapped
  | growheap_error_handler
  /-- `do_exit(-1)` of `growheap`. -/
  | bad_arg
  deriving DecidableEq

namespace mm_struct

def set (mm : mm_struct) (i : Nat) (v : vma) : mm_struct :=
  { mm with vmas := Function.update mm.vmas i v }

end mm_struct

/-! ## `vma.c` -/

/-- The loop of `alloc_vma` over the slots from `i` on. -/
def findFree (used : Nat → Bool) : Nat → Nat → Option Nat
  | 0, _ => none
  | n + 1, i => if used i = false then some i else findFree used n (i + 1)

def alloc_vma (mm : mm_struct) : Option (Nat × mm_struct) :=
  (findFree mm.used NVMA 0).map fun i => (i, { mm with used := Function.update mm.used i true })

def free_vma (mm : mm_struct) (vma : Nat) : mm_struct :=
  { mm with used := Function.update mm.used vma false }

/-- The test of `check_vma_intersect` at one area of the list. -/
def endpointIn (checked pos : vma) : Bool :=
  let checked_start := checked.startva
  let checked_end := sub64 (add64 checked_start checked.size) 1
  let start := pos.startva
  let end_ := add64 pos.startva pos.size
  (checked_start ≥ start && checked_start < end_) || (checked_end ≥ start && checked_end < end_)

def check_vma_intersect (mm : mm_struct) (checked : vma) : Bool :=
  mm.head_vma.any fun pos => endpointIn checked (mm.vmas pos)

def add_vma_to_vmspace (mm : mm_struct) (vma : Nat) : Except Stop mm_struct :=
  if check_vma_intersect mm (mm.vmas vma) then
    .error .vma_overlap
  else
    .ok { mm with head_vma := vma :: mm.head_vma }

def del_vma_from_vmspace (mm : mm_struct) (vma : Nat) : Except Stop mm_struct :=
  if vma ∈ mm.head_vma then
    .ok (free_vma { mm with head_vma := mm.head_vma.erase vma } vma)
  else
    .error .vma_not_in_vmspace

/-- The size of an area mapped for `len` bytes. -/
def mapSize (len : Nat) : Nat := PGROUNDUP (if len < PGSIZE then PGSIZE else len)

/-- `vma_map_range`; `none` is the null pointer.  The slot's `offset` and `vm_file` are left from its
last use. -/
def vma_map_range (mm : mm_struct) (va len perm : Nat) (type : vmatype) :
    Except Stop (mm_struct × Option Nat) :=
  match alloc_vma mm with
  | none => .ok (mm, none)
  | some (vma, mm) =>
    if va % PGSIZE ≠ 0 then
      .error .va_not_aligned
    else do
      let v := { mm.vmas vma with
        startva := PGROUNDDOWN va, size := mapSize len, perm := perm, type := type }
      let mm ← add_vma_to_vmspace (mm.set vma v) vma
      return (mm, some vma)

def vma_map_file (mm : mm_struct) (va len perm : Nat) (type : vmatype) (offset : Nat) (fp : File) :
    Except Stop (mm_struct × Int) :=
  if F_WRITEABLE fp = false ∧ perm &&& PERM_WRITE ≠ 0 ∧ perm &&& PERM_SHARED ≠ 0 then
    .ok (mm, -1)
  else do
    let (mm, r) ← vma_map_range mm va len perm type
    match r with
    | none => return (mm, -1)
    | some vma => return (mm.set vma { mm.vmas vma with offset := offset, vm_file := some fp }, 0)

def vma_map (mm : mm_struct) (va len perm : Nat) (type : vmatype) :
    Except Stop (mm_struct × Int) := do
  let (mm, r) ← vma_map_range mm va len perm type
  match r with
  | none => return (mm, -1)
  | some vma => return (if type = .VMA_HEAP then { mm with heapvma := some vma } else mm, 0)

/-- Whether `find_vma_for_va` takes an area for `addr`. -/
def candidate (v : vma) (addr : Nat) : Bool :=
  v.startva ≤ addr && addr < add64 v.startva v.size

def find_vma_for_va (mm : mm_struct) (addr : Nat) : Option Nat :=
  mm.head_vma.find? fun pos => candidate (mm.vmas pos) addr

theorem mem_of_find {mm : mm_struct} {addr i : Nat} (h : find_vma_for_va mm addr = some i) :
    i ∈ mm.head_vma :=
  List.mem_of_find?_eq_some h

/-- `vmspace_unmap`; the return value of the recursive call is dropped. -/
def vmspace_unmap (mm : mm_struct) (va len : Nat) : Except Stop (mm_struct × Int) :=
  match h : find_vma_for_va mm va with
  | none => .ok (mm, -1)
  | some vma =>
    let start := (mm.vmas vma).startva
    let size := (mm.vmas vma).size
    if va ≠ start then
      .ok (mm, -1)
    else
      let len := PGROUNDUP len
      if size > len then
        .ok (mm.set vma { mm.vmas vma with startva := add64 start len, size := size - len }, 0)
      else
        -- `del_vma_from_vmspace`, whose membership test `mem_of_find` answers
        let mm' := free_vma { mm with head_vma := mm.head_vma.erase vma } vma
        if size < len then
          match vmspace_unmap mm' (add64 va size) (len - size) with
          | .ok (mm'', _) => .ok (mm'', 0)
          | .error e => .error e
        else
          .ok (mm', 0)
termination_by mm.head_vma.length
decreasing_by
  have hmem := mem_of_find h
  simp only [free_vma, List.length_erase_of_mem hmem]
  have := List.length_pos_of_mem hmem
  omega

/-- One turn of the loop of `find_mapping_space`. -/
def raiseMax (mm : mm_struct) (max pos : Nat) : Nat :=
  let v := mm.vmas pos
  if v.type = .VMA_INTERP then max
  else if v.type = .VMA_STACK then max
  else if max < add64 v.startva v.size then add64 v.startva v.size
  else max

/-- The largest end of the areas that the loop looks at, and at least `MMAP_START`. -/
def mappingMax (mm : mm_struct) : Nat := mm.head_vma.foldl (raiseMax mm) MMAP_START

/-- `find_mapping_space`; `mapped` is whether the walk finds a page at the address. -/
def find_mapping_space (mm : mm_struct) (mapped : Bool) : Except Stop Nat :=
  if mappingMax mm % PGSIZE ≠ 0 then .error .max_not_aligned
  else if mappingMax mm ≥ Vma.MAXVA then .error .walk
  else if mapped then .error .page_mapped
  else .ok (mappingMax mm)

/-- The part of an area below `addr`, as `split_vma` computes it. -/
def vma.below (old : vma) (addr : Nat) : vma := { old with size := sub64 addr old.startva }

/-- The part of an area from `addr` on. -/
def vma.above (old : vma) (addr : Nat) : vma :=
  { old with
    startva := addr
    size := sub64 (add64 old.startva old.size) addr
    offset := add64 old.offset (sub64 addr old.startva) }

/-- `split_vma`: the new slot takes the part below `addr` or the part above, the area keeps the other. -/
def split_vma (mm : mm_struct) (vma addr : Nat) (new_below : Bool) : Except Stop (mm_struct × Int) :=
  match alloc_vma mm with
  | none => .ok (mm, -1)
  | some (new, mm) => do
    let below := (mm.vmas vma).below addr
    let above := (mm.vmas vma).above addr
    let kept := if new_below then above else below
    let other := if new_below then below else above
    let mm ← add_vma_to_vmspace ((mm.set vma kept).set new other) new
    return (mm, 0)

/-! ## `mmap.c` -/

def mkperm (prot flags : Nat) : Nat :=
  (if flags &&& MAP_SHARED ≠ 0 then PERM_SHARED else 0) ||| prot

/-- A split at `addr`, unless that is already the bound. -/
def split_unless (mm : mm_struct) (vma addr bound : Nat) (new_below : Bool) :
    Except Stop (mm_struct × Int) :=
  if addr ≠ bound then split_vma mm vma addr new_below else .ok (mm, 0)

/-- The two splits that `do_mmap` and `sys_mprotect` make around `[start, end)`; `false` when one of
them fails. -/
def split_around (mm : mm_struct) (vma start end_ : Nat) : Except Stop (mm_struct × Bool) := do
  let (mm, r) ← split_unless mm vma start (mm.vmas vma).startva true
  if r < 0 then
    return (mm, false)
  let (mm, r) ← split_unless mm vma end_ (add64 (mm.vmas vma).startva (mm.vmas vma).size) false
  if r < 0 then
    return (mm, false)
  return (mm, true)

/-- The search of `do_mmap` for the piece of the heap that ends at the program break. -/
def repointHeap (mm : mm_struct) : mm_struct :=
  { mm with
    heapvma := mm.head_vma.foldl (fun heapvma pos =>
      let v := mm.vmas pos
      if v.type = .VMA_HEAP ∧ add64 v.startva v.size = mm.brk then some pos else heapvma) mm.heapvma }

/-- Where `do_mmap` maps, with the areas there cleared away; `none` is `MAP_FAILED`. -/
def mmap_place (mm : mm_struct) (addr length flags : Nat) (mapped : Bool) :
    Except Stop (mm_struct × Option Nat) :=
  if addr = 0 then do
    let mapva ← find_mapping_space mm mapped
    return (mm, some mapva)
  else if flags &&& MAP_FIXED = 0 then
    .ok (mm, none)
  else
    match find_vma_for_va mm addr with
    -- `mapva` keeps its initial value
    | none => .ok (mm, some 0)
    | some vma => do
      let (mm, ok) ← split_around mm vma addr (add64 addr length)
      if ok then
        let mm := if (mm.vmas vma).type = .VMA_HEAP then repointHeap mm else mm
        let mm ← del_vma_from_vmspace mm vma
        return (mm, some addr)
      else
        return (mm, none)

def do_mmap (mm : mm_struct) (addr length prot flags : Nat) (fp : Option File) (offset : Nat)
    (mapped : Bool) : Except Stop (mm_struct × Option Nat) := do
  let (mm, place) ← mmap_place mm addr length flags mapped
  match place with
  | none => return (mm, none)
  | some mapva =>
    let (mm, r) ← match fp with
      | none => vma_map mm mapva length (mkperm prot flags) .VMA_ANON
      | some fp =>
        if flags &&& MAP_ANONYMOUS ≠ 0 then vma_map mm mapva length (mkperm prot flags) .VMA_ANON
        else vma_map_file mm mapva length (mkperm prot flags) .VMA_FILE offset fp
    return (mm, if r < 0 then none else some mapva)

def sys_mprotect (mm : mm_struct) (start len prot : Nat) : Except Stop (mm_struct × Int) :=
  if len = 0 then
    .ok (mm, 0)
  else
    let end_ := add64 start (PGROUNDUP len)
    if end_ < start then
      .ok (mm, -1)
    else if prot ≥ 8 then
      .ok (mm, -1)
    else
      match find_vma_for_va mm start with
      | none => .ok (mm, -1)
      | some vma => do
        let (mm, ok) ← split_around mm vma start end_
        if ok then
          return (mm.set vma { mm.vmas vma with perm := prot }, 0)
        else
          return (mm, -1)

/-! ## `growheap` -/

/-- What `walk` finds at an address: no page, a 4K page or a 2M one. -/
inductive WalkLevel
  | none
  | COMMONPAGE
  | SUPERPAGE
  deriving DecidableEq

/-- Whether the page that holds the old break reaches the new one. -/
def pageReaches (level : WalkLevel) (oldsz newsz : Nat) : Bool :=
  match level with
  | .none => false
  | .COMMONPAGE => PGROUNDUP oldsz ≥ newsz
  | .SUPERPAGE => SUPERPG_ROUNDUP oldsz ≥ newsz

/-- The value of `uvmalloc`; `enough` is whether memory was found. -/
def uvmallocRet (oldsz newsz : Nat) (enough : Bool) : Nat :=
  if newsz < oldsz then oldsz else if enough then newsz else 0

/-- The value of `uvmdealloc`. -/
def uvmdeallocRet (oldsz newsz : Nat) : Nat := if newsz ≥ oldsz then oldsz else newsz

/-- The break that the tail of `growheap` is reached with. -/
def growSz (mm : mm_struct) (n : Int) (enough : Bool) : Nat :=
  let newsz := add64 mm.brk (toUint64 n)
  if n > 0 then uvmallocRet mm.brk newsz enough
  else if n < 0 then uvmdeallocRet mm.brk newsz
  else mm.brk

/-- The heap's area is made when the heap first grows. -/
def makeHeap (mm : mm_struct) (sz : Nat) : Except Stop mm_struct :=
  match mm.heapvma with
  | some _ => .ok mm
  | none => do
    let (mm, r) ← vma_map mm mm.start_brk (sub64 sz mm.start_brk) (PERM_READ ||| PERM_WRITE) .VMA_HEAP
    if r < 0 then .error .growheap_error_handler else .ok mm

/-- The tail of `growheap`, from its test of `heapvma` on. -/
def setHeap (mm : mm_struct) (sz : Nat) : Except Stop (mm_struct × Int) := do
  let mm ← makeHeap mm sz
  match mm.heapvma with
  | none => .error .growheap_error_handler
  | some heap =>
    let mm := { mm with brk := sz }
    return (mm.set heap { mm.vmas heap with size := sub64 (PGROUNDUP sz) mm.start_brk }, 0)

def growheap (mm : mm_struct) (n : Int) (level : WalkLevel) (enough : Bool) :
    Except Stop (mm_struct × Int) :=
  let newsz := add64 mm.brk (toUint64 n)
  if newsz < mm.start_brk then
    .error .bad_arg
  else if n > 0 ∧ pageReaches level mm.brk newsz then
    .ok ({ mm with brk := newsz }, 0)
  else if n > 0 ∧ growSz mm n enough = 0 then
    .ok (mm, -1)
  else
    setHeap mm (growSz mm n enough)

/-! ## Steps -/

inductive Event
  | vma_map (va len perm : Nat) (type : vmatype)
  | vma_map_file (va len perm : Nat) (type : vmatype) (offset : Nat) (fp : File)
  | do_mmap (addr length prot flags : Nat) (fp : Option File) (offset : Nat) (mapped : Bool)
  | sys_mprotect (start len prot : Nat)
  | vmspace_unmap (va len : Nat)
  | growheap (n : Int) (level : WalkLevel) (enough : Bool)

def step (mm : mm_struct) : Event → Except Stop mm_struct
  | .vma_map va len perm type => (vma_map mm va len perm type).map Prod.fst
  | .vma_map_file va len perm type offset fp => (vma_map_file mm va len perm type offset fp).map Prod.fst
  | .do_mmap addr length prot flags fp offset mapped =>
    (do_mmap mm addr length prot flags fp offset mapped).map Prod.fst
  | .sys_mprotect start len prot => (sys_mprotect mm start len prot).map Prod.fst
  | .vmspace_unmap va len => (vmspace_unmap mm va len).map Prod.fst
  | .growheap n level enough => (growheap mm n level enough).map Prod.fst

def Step (mm : mm_struct) (e : Event) (mm' : mm_struct) : Prop := step mm e = .ok mm'

/-- A new address space for a program of `size` bytes, over a pool whose used slots belong to
others. -/
def fresh (vmas : Nat → vma) (used : Nat → Bool) (size : Nat) : mm_struct :=
  ⟨vmas, used, [], PGROUNDUP size, PGROUNDUP size, none⟩

end LostWakeup.Mm.Vma
