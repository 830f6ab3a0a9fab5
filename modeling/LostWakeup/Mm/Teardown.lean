/-
# LostWakeup.Mm.Teardown — `vmacopy`, `proc_freepagetable`, `uvmfree` and `freewalk`.

An address space is taken down in three steps: the special pages at the top are unmapped, the areas give back their
pages, and `freewalk` gives back the pages of the table itself and panics at a leaf.  The frames behind the special pages
are not freed here: the trampoline and the signal return are the kernel's, and a trap frame belongs to its thread.
-/
import LostWakeup.Mm.Munmap

namespace LostWakeup.Mm.Vma

/-- One turn of the loop of `vmacopy`; a mapping of a file always has its file. -/
def copyVma (mm : mm_struct) (pos : vma) : Except Stop (mm_struct × Int) :=
  match pos.type, pos.vm_file with
  | .VMA_FILE, some fp => vma_map_file mm pos.startva pos.size pos.perm pos.type pos.offset fp
  | _, _ => vma_map mm pos.startva pos.size pos.perm pos.type

/-- `vmacopy` of the areas that are left, into `mm`; `false` is the return value `-1`. -/
def vmacopy : List vma → mm_struct → Except Stop (mm_struct × Bool)
  | [], mm => .ok (mm, true)
  | pos :: rest, mm => do
    let (mm, r) ← copyVma mm pos
    if r < 0 then return (mm, false)
    vmacopy rest mm

end LostWakeup.Mm.Vma

namespace LostWakeup.Mm.Vm

open Library
open Mm.Vma (PGSIZE vmatype mm_struct free_vma)

/-! ## The special pages -/

def TRAMPOLINE : Nat := MAXVA - PGSIZE
def SIGRETURN : Nat := TRAMPOLINE - PGSIZE
def TRAPFRAME : Nat := SIGRETURN - PGSIZE

def THREAD_TRAPFRAME (id : Nat) : Nat := TRAPFRAME - id * PGSIZE

def USTACK_PAGE : Nat := 10
def USTACK : Nat := MAXVA - 512 * 10 * PGSIZE - USTACK_PAGE * PGSIZE
def USTACK_GURAD_PAGE : Nat := USTACK - PGSIZE

/-! ## `freewalk` -/

/-- The ways a teardown does not come back. -/
inductive Fault
  | vm (e : Panic)
  /-- `panic("freewalk: leaf")`. -/
  | leaf
  /-- `panic("free_all_vmas: unmap failed")`. -/
  | unmap_failed
  /-- `panic("exit error\n")`. -/
  | exit_error
  deriving DecidableEq

def orFault {α : Type} : Except Panic α → Except Fault α
  | .ok a => .ok a
  | .error e => .error (.vm e)

/-- `freewalk` at a level-1 entry. -/
def freeEntry (k : Phys) : Entry → Except Fault Phys
  | .none => .ok k
  | .leaf _ => .error .leaf
  | .table page ptes =>
    if (List.finRange NPTE).any fun s => (ptes s).flags.has PTE_V then .error .leaf else orFault (kfree k page)

theorem region_lt {r i : Nat} (hr : r < NROOT) (hi : i < NPTE) : r * NPTE + i < NREGION := by
  have hmul : r * 512 ≤ 255 * 512 := Nat.mul_le_mul_right 512 (Nat.le_of_lt_succ hr)
  show r * 512 + i < 2 ^ 17
  have hlt : i < 512 := hi
  omega

/-- The regions behind a level-2 entry. -/
def regionsOf (r : Fin NROOT) : List (Fin NREGION) :=
  (List.finRange NPTE).map fun i => ⟨r.val * NPTE + i.val, region_lt r.isLt i.isLt⟩

/-- `freewalk` at a level-2 entry. -/
def freeRoot (pt : PageTable) (k : Phys) (r : Fin NROOT) : Except Fault Phys :=
  match pt.roots r with
  | none => .ok k
  | some page => do
    let k ← (regionsOf r).foldlM (fun k i => freeEntry k (pt.dir i)) k
    orFault (kfree k page)

/-- `freewalk` but for the root page itself. -/
def freewalk (k : Phys) (pt : PageTable) : Except Fault Phys := (List.finRange NROOT).foldlM (freeRoot pt) k

/-! ## The areas and the special pages -/

/-- One turn of the loop of `free_all_vmas`, for the area in slot `pos`. -/
def freeVma (s : Phys × PageTable × mm_struct) (pos : Nat) : Except Fault (Phys × PageTable × mm_struct) :=
  let (k, pt, mm) := s
  if (mm.vmas pos).type = .VMA_HEAP ∧ (mm.vmas pos).size = 0 then
    .ok (k, pt, free_vma { mm with head_vma := mm.head_vma.erase pos } pos)
  else do
    let (k, pt, mm, r) ← orFault (vmspace_unmap k pt mm (mm.vmas pos).startva (mm.vmas pos).size)
    if r < 0 then .error .unmap_failed else return (k, pt, mm)

def free_all_vmas (k : Phys) (pt : PageTable) (mm : mm_struct) : Except Fault (Phys × PageTable × mm_struct) :=
  mm.head_vma.foldlM freeVma (k, pt, mm)

/-- `uvmfree`; the areas are back in their pool. -/
def uvmfree (k : Phys) (pt : PageTable) (mm : mm_struct) : Except Fault (Phys × mm_struct) := do
  let (k, pt, mm) ← free_all_vmas k pt mm
  let k ← freewalk k pt
  return (k, mm)

/-- One turn of the loop of `proc_freepagetable` over the slots of trap frames. -/
def dropFrame (s : Phys × PageTable) (offset : Nat) : Except Fault (Phys × PageTable) :=
  orFault (uvmunmap s.1 s.2 (THREAD_TRAPFRAME offset) 1 false true)

/-- `proc_freepagetable` before `uvmfree`. -/
def dropSpecial (k : Phys) (pt : PageTable) (thread_cnt : Nat) : Except Fault (Phys × PageTable) := do
  let (k, pt) ← orFault (uvmunmap k pt TRAMPOLINE 1 false false)
  let (k, pt) ← orFault (uvmunmap k pt SIGRETURN 1 false false)
  let (k, pt) ← orFault (uvmunmap k pt USTACK_GURAD_PAGE 1 false true)
  (List.range thread_cnt).foldlM dropFrame (k, pt)

def proc_freepagetable (k : Phys) (pt : PageTable) (mm : mm_struct) (thread_cnt : Nat) :
    Except Fault (Phys × mm_struct) := do
  let (k, pt) ← dropSpecial k pt thread_cnt
  uvmfree k pt mm

end LostWakeup.Mm.Vm
