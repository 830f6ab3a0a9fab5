/-
# LostWakeup.Mm.Protect — `sys_mprotect`: the rights of a range, and what its pages allow.

`sys_mprotect` looks for the area of the first address only.  It cuts the range out of that area and stores `prot` over
the whole of `perm`, which holds `PERM_SHARED` too; the entries of the page table stay as they are.  A cut takes a
reference on the file that the slot names, so the counts of the files go along.
-/
import LostWakeup.Mm.Areas
import LostWakeup.Mm.Faults
import LostWakeup.Mm.VmaCopy

namespace LostWakeup.Mm.Protect

open Library
open Function (update update_of_ne update_self)
open Mm.Vma (PGSIZE PGROUNDUP PERM_READ PERM_WRITE PERM_EXEC PERM_SHARED vmatype File vma mm_struct Stop
  alloc_vma find_vma_for_va areaAt Apart add_vma_to_vmspace check_vma_intersect endpointIn)
open Mm.Vma.Copy (State CopyStop orStop fat32_filedup freeSlots)
open Mm.Vm (Phys PageTable Flags Files Cause Permits Held Holders CHECK_PERM PTE_W walk translate pagefault
  is_a_cow_page answers kmalloc)

/-! ## `sys_mprotect` with the counts of the files -/

/-- `fat32_filedup` of the file that a new area names. -/
def dupFile (s : State) (v : vma) : Except CopyStop State :=
  match v.vm_file with
  | none => .ok s
  | some fp => do
    let f_count ← fat32_filedup s.f_count fp
    return { s with f_count := f_count }

/-- `split_vma`; `add_vma_to_vmspace` comes after the reference is taken. -/
def split_vma (s : State) (vma addr : Nat) (new_below : Bool) : Except CopyStop (State × Int) :=
  if (alloc_vma s.mm).isNone then
    .ok (s, -1)
  else do
    let s ← dupFile s (s.mm.vmas vma)
    let (mm, r) ← orStop (Vma.split_vma s.mm vma addr new_below)
    return ({ s with mm := mm }, r)

def split_unless (s : State) (vma addr bound : Nat) (new_below : Bool) : Except CopyStop (State × Int) :=
  if addr ≠ bound then split_vma s vma addr new_below else .ok (s, 0)

/-- `sys_mprotect` once it has found an area. -/
def protectArea (s : State) (vma start end_ prot : Nat) : Except CopyStop (State × Int) := do
  let (s, r) ← split_unless s vma start (s.mm.vmas vma).startva true
  if r < 0 then
    return (s, -1)
  let (s, r) ← split_unless s vma end_ (add64 (s.mm.vmas vma).startva (s.mm.vmas vma).size) false
  if r < 0 then
    return (s, -1)
  return ({ s with mm := s.mm.set vma { s.mm.vmas vma with perm := prot } }, 0)

def sys_mprotect (s : State) (start len prot : Nat) : Except CopyStop (State × Int) :=
  if len = 0 then
    .ok (s, 0)
  else
    let end_ := add64 start (PGROUNDUP len)
    if end_ < start then
      .ok (s, -1)
    else if prot ≥ 8 then
      .ok (s, -1)
    else
      match find_vma_for_va s.mm start with
      | none => .ok (s, -1)
      | some vma => protectArea s vma start end_ prot

/-! ## The property -/

/-- What an address space says of an address. -/
structure Attr where
  type : vmatype
  vm_file : Option File
  /-- Where the address is in the file. -/
  offset : Nat
  shared : Bool
  prot : Nat
  deriving DecidableEq

def attr (v : vma) (a : Nat) : Attr :=
  ⟨v.type, v.vm_file, add64 v.offset (a - v.startva), v.perm &&& PERM_SHARED != 0, v.perm &&& 7⟩

def attrAt (mm : mm_struct) (a : Nat) : Option Attr := (areaAt mm a).map fun v => attr v a

/-- The addresses of the call. -/
def range (start len : Nat) : Set Nat := Set.Ico start (start + PGROUNDUP len)

/-- The range has the rights `prot`; all else that is said of any address is as before. -/
structure Protected (mm mm' : mm_struct) (start len prot : Nat) : Prop where
  inside : ∀ a ∈ range start len, attrAt mm' a = (attrAt mm a).map fun w => { w with prot := prot }
  outside : ∀ a ∉ range start len, attrAt mm' a = attrAt mm a

def Covered (mm : mm_struct) (start len : Nat) : Prop := ∀ a ∈ range start len, (areaAt mm a).isSome = true

/-- An access goes through without a fault. -/
def Through (pt : PageTable) (cause : Cause) (a : Nat) : Prop :=
  ∃ frame flags, translate pt a = some (frame, flags) ∧ Permits cause flags = true

/-- An access goes through, at once or after its page fault. -/
def Accessible (files : Files) (mm : mm_struct) (k : Phys) (pt : PageTable) (cause : Cause) (a : Nat) : Prop :=
  Through pt cause a ∨ ∃ k' pt', pagefault files mm cause k pt a = .ok (k', pt', true) ∧ Through pt' cause a

/-- The rights that an access needs. -/
def allows (prot : Nat) : Cause → Bool
  | .STORE_PAGEFAULT => prot &&& PERM_WRITE != 0
  | .LOAD_PAGEFAULT => prot &&& PERM_READ != 0
  | .INSTUCTION_PAGEFAULT => prot &&& PERM_EXEC != 0

/-- The pages of the range that are there can be accessed as `prot` allows. -/
def Enforced (files : Files) (mm : mm_struct) (k : Phys) (pt : PageTable) (start len prot : Nat) : Prop :=
  ∀ a ∈ range start len, (translate pt a).isSome = true → ∀ cause,
    (Accessible files mm k pt cause a ↔ allows prot cause = true)

/-- The page table and the memory are those of the call, which touches neither. -/
structure MprotectLaw (files : Files) (s : State) (k : Phys) (pt : PageTable) (start len prot : Nat) : Prop where
  sets : ∀ s', sys_mprotect s start len prot = .ok (s', 0) →
    Protected s.mm s'.mm start len prot ∧ Enforced files s'.mm k pt start len prot
  refuses : ¬Covered s.mm start len → sys_mprotect s start len prot = .ok (s, -1)

/-! ## The condition -/

/-- The cuts that an area needs. -/
def cuts (v : vma) (start len : Nat) : Nat :=
  (if start ≠ v.startva then 1 else 0) + if start + PGROUNDUP len ≠ v.startva + v.size then 1 else 0

/-- The file that an area names, if it does, is counted. -/
def FileCounted (s : State) (v : vma) : Prop := ∀ fp, v.vm_file = some fp → 1 ≤ s.f_count fp.id

/-- The slots for the cuts are free, and the references can be taken. -/
structure CanCut (s : State) (v : vma) (n : Nat) : Prop where
  slots : n ≤ (freeSlots s.mm.used).length
  counted : 0 < n → FileCounted s v

/-- The entry of a page lets through what `prot` allows and nothing else, or the page is one that is copied, for which
memory is there, and is writable then. -/
def EntryAgrees (k : Phys) (flags : Flags) (prot : Nat) : Prop :=
  ∀ cause, (Permits cause flags = true → allows prot cause = true) ∧
    (allows prot cause = true → Permits cause flags = true ∨
      is_a_cow_page flags = true ∧ 0 < answers k ∧ Permits cause (flags ||| PTE_W) = true)

def EntriesAgree (k : Phys) (pt : PageTable) (start len prot : Nat) : Prop :=
  ∀ a ∈ range start len, ∀ frame flags, translate pt a = some (frame, flags) → EntryAgrees k flags prot

/-- Where the range ends in the area of its first address, that is not shared and the pages agree; where it goes on,
it is covered by other areas, or no slot is free to begin with. -/
def AreaProtects (s : State) (k : Phys) (pt : PageTable) (v : vma) (start len prot : Nat) : Prop :=
  if start + PGROUNDUP len ≤ v.startva + v.size then
    CanCut s v (cuts v start len) → PGROUNDUP len = 0 ∨ (v.perm &&& PERM_SHARED = 0 ∧ EntriesAgree k pt start len prot)
  else
    Covered s.mm start len ∨ freeSlots s.mm.used = []

/-- A call that is not refused at once finds such an area. -/
def Protectable (s : State) (k : Phys) (pt : PageTable) (start len prot : Nat) : Prop :=
  len ≠ 0 → start + PGROUNDUP len < 2 ^ 64 → prot < 8 → ∀ i, find_vma_for_va s.mm start = some i →
    AreaProtects s k pt (s.mm.vmas i) start len prot

/-- The next block of the allocator is free, whichever page of the range is copied. -/
def Served (k : Phys) (pt : PageTable) (start len : Nat) : Prop :=
  ∀ a ∈ range start len, ∀ level pte, walk pt a = .ok (.entry level pte) → is_a_cow_page pte.flags = true →
    kmalloc k level.order ≠ .error .block_in_use

/-! ## What is said of an address -/

section

variable {mm mm' : mm_struct} {i new a : Nat} {v kept other : vma}

theorem attrAt_eq_some (h : Apart mm) {w : Attr} :
    attrAt mm a = some w ↔ ∃ i ∈ mm.head_vma, a ∈ (mm.vmas i).span ∧ attr (mm.vmas i) a = w := by
  rw [attrAt, Option.map_eq_some_iff]
  constructor
  · rintro ⟨v, hv, rfl⟩
    obtain ⟨i, hi, rfl, ha⟩ := h.areaAt_eq_some.mp hv
    exact ⟨i, hi, ha, rfl⟩
  · rintro ⟨i, hi, ha, rfl⟩
    exact ⟨_, h.areaAt_of_mem hi ha, rfl⟩

theorem attrAt_of_mem (h : Apart mm) (hi : i ∈ mm.head_vma) (ha : a ∈ (mm.vmas i).span) :
    attrAt mm a = some (attr (mm.vmas i) a) :=
  (attrAt_eq_some h).mpr ⟨i, hi, ha, rfl⟩

/-- Two areas that are one when put together. -/
structure Halves (v kept other : vma) : Prop where
  kept_end : kept.startva + kept.size < 2 ^ 64
  other_end : other.startva + other.size < 2 ^ 64
  union : v.span = kept.span ∪ other.span
  disjoint : Disjoint kept.span other.span
  kept_attr : ∀ a ∈ kept.span, attr kept a = attr v a
  other_attr : ∀ a ∈ other.span, attr other a = attr v a

theorem Halves.symm (h : Halves v kept other) : Halves v other kept :=
  ⟨h.other_end, h.kept_end, by rw [h.union, Set.union_comm], h.disjoint.symm, h.other_attr, h.kept_attr⟩

theorem below_size {addr : Nat} (hlo : v.startva ≤ addr) (haddr : addr < 2 ^ 64) :
    (v.below addr).size = addr - v.startva := by
  rw [vma.below, sub64]
  dsimp only
  omega

theorem above_size {addr : Nat} (hend : v.startva + v.size < 2 ^ 64) (hhi : addr ≤ v.startva + v.size) :
    (v.above addr).size = v.startva + v.size - addr := by
  rw [vma.above, sub64, add64]
  dsimp only
  omega

theorem halves_at {addr : Nat} (hend : v.startva + v.size < 2 ^ 64) (hlo : v.startva ≤ addr)
    (hhi : addr ≤ v.startva + v.size) : Halves v (v.below addr) (v.above addr) := by
  have hbelow := below_size hlo (by omega)
  have habove := above_size hend hhi
  have hspan : (v.below addr).span = Set.Ico v.startva addr := by
    rw [vma.span, hbelow, show (v.below addr).startva = v.startva from rfl, Nat.add_sub_of_le hlo]
  have hspan' : (v.above addr).span = Set.Ico addr (v.startva + v.size) := by
    rw [vma.span, habove, show (v.above addr).startva = addr from rfl, Nat.add_sub_of_le hhi]
  refine ⟨?_, ?_, ?_, ?_, fun a _ => rfl, fun a ha => ?_⟩
  · rw [hbelow, show (v.below addr).startva = v.startva from rfl]
    omega
  · rw [habove, show (v.above addr).startva = addr from rfl]
    omega
  · rw [hspan, hspan', Set.Ico_union_Ico_eq_Ico hlo hhi]
    rfl
  · rw [hspan, hspan', Set.Ico_disjoint_Ico]
    omega
  · -- the offset moves with the start
    rw [hspan'] at ha
    have hle : addr ≤ a := ha.1
    have hoff : add64 (v.above addr).offset (a - addr) = add64 v.offset (a - v.startva) := by
      simp only [vma.above, add64, sub64]
      omega
    rw [attr, attr, show (v.above addr).startva = addr from rfl, hoff]
    rfl

/-- The address space once area `i` has kept one half and slot `new` taken the other. -/
def cutInto (mm : mm_struct) (i new : Nat) (kept other : vma) : mm_struct :=
  { mm with
    vmas := update (update mm.vmas i kept) new other
    used := update mm.used new true
    head_vma := new :: mm.head_vma }

theorem cutInto_new (mm : mm_struct) (i new : Nat) (kept other : vma) : (cutInto mm i new kept other).vmas new = other :=
  update_self _ _ _

theorem cutInto_kept (hne : i ≠ new) : (cutInto mm i new kept other).vmas i = kept :=
  (update_of_ne hne _ _).trans (update_self _ _ _)

theorem cutInto_other {j : Nat} (hnew : j ≠ new) (hi : j ≠ i) : (cutInto mm i new kept other).vmas j = mm.vmas j :=
  (update_of_ne hnew _ _).trans (update_of_ne hi _ _)

theorem ne_new (h : Apart mm) (hnew : mm.used new = false) {j : Nat} (hj : j ∈ mm.head_vma) : j ≠ new := by
  rintro rfl
  rw [h.in_use j hj] at hnew
  cases hnew

/-- Where an address lies after a cut: in a half, or in the area where it was. -/
theorem mem_cutInto (h : Apart mm) (hi : i ∈ mm.head_vma) (hnew : mm.used new = false) {p : vma → Prop} :
    (∃ j ∈ (cutInto mm i new kept other).head_vma, p ((cutInto mm i new kept other).vmas j)) ↔
      p other ∨ p kept ∨ ∃ j ∈ mm.head_vma, j ≠ i ∧ p (mm.vmas j) := by
  have hne := ne_new h hnew hi
  constructor
  · rintro ⟨j, hj, hp⟩
    rcases List.mem_cons.mp hj with rfl | hj
    · rw [cutInto_new] at hp
      exact .inl hp
    rcases eq_or_ne j i with rfl | hji
    · rw [cutInto_kept hne] at hp
      exact .inr (.inl hp)
    · rw [cutInto_other (ne_new h hnew hj) hji] at hp
      exact .inr (.inr ⟨j, hj, hji, hp⟩)
  · rintro (hp | hp | ⟨j, hj, hji, hp⟩)
    · exact ⟨new, List.mem_cons_self, by rwa [cutInto_new]⟩
    · exact ⟨i, List.mem_cons_of_mem _ hi, by rwa [cutInto_kept hne]⟩
    · exact ⟨j, List.mem_cons_of_mem _ hj, by rwa [cutInto_other (ne_new h hnew hj) hji]⟩

theorem cut_apart (h : Apart mm) (hi : i ∈ mm.head_vma) (hnew : mm.used new = false)
    (hhalves : Halves (mm.vmas i) kept other) : Apart (cutInto mm i new kept other) := by
  have hne := ne_new h hnew hi
  have hnot : new ∉ mm.head_vma := fun hmem => ne_new h hnew hmem rfl
  have hkept : kept.span ⊆ (mm.vmas i).span := by
    rw [hhalves.union]
    exact Set.subset_union_left
  have hother : other.span ⊆ (mm.vmas i).span := by
    rw [hhalves.union]
    exact Set.subset_union_right
  -- against an area that is not cut
  have hclear : ∀ j ∈ mm.head_vma, j ≠ i → ∀ w : vma, w.span ⊆ (mm.vmas i).span → Disjoint w.span (mm.vmas j).span :=
    fun j hj hji w hw => (h.disjoint hi hj hji.symm).mono_left hw
  refine ⟨List.nodup_cons.mpr ⟨hnot, h.nodup⟩, ?_, ?_, ?_⟩
  · intro j hj
    rcases eq_or_ne j new with rfl | hjn
    · exact update_self _ _ _
    · exact (update_of_ne hjn _ _).trans (h.in_use j ((List.mem_cons.mp hj).resolve_left hjn))
  · intro j hj
    rcases List.mem_cons.mp hj with rfl | hj
    · rw [cutInto_new]
      exact hhalves.other_end
    rcases eq_or_ne j i with rfl | hji
    · rw [cutInto_kept hne]
      exact hhalves.kept_end
    · rw [cutInto_other (ne_new h hnew hj) hji]
      exact h.end_lt j hj
  · have hlater : ∀ j ∈ mm.head_vma, Disjoint other.span ((cutInto mm i new kept other).vmas j).span := by
      intro j hj
      rcases eq_or_ne j i with rfl | hji
      · rw [cutInto_kept hne]
        exact hhalves.disjoint.symm
      · rw [cutInto_other (ne_new h hnew hj) hji]
        exact hclear j hj hji _ hother
    have hamong : ∀ j ∈ mm.head_vma, ∀ l ∈ mm.head_vma, j ≠ l → j ≠ i →
        Disjoint ((cutInto mm i new kept other).vmas l).span (mm.vmas j).span := by
      intro j hj l hl hjl hji
      rcases eq_or_ne l i with rfl | hli
      · rw [cutInto_kept hne]
        exact hclear j hj hji _ hkept
      · rw [cutInto_other (ne_new h hnew hl) hli]
        exact h.disjoint hl hj hjl.symm
    intro j hj l hl hjl
    show Disjoint ((cutInto mm i new kept other).vmas j).span ((cutInto mm i new kept other).vmas l).span
    rcases List.mem_cons.mp hj with rfl | hj' <;> rcases List.mem_cons.mp hl with rfl | hl'
    · exact absurd rfl hjl
    · rw [cutInto_new]
      exact hlater l hl'
    · rw [cutInto_new]
      exact (hlater j hj').symm
    · rcases eq_or_ne j i with rfl | hji
      · rw [cutInto_other (ne_new h hnew hl') hjl.symm]
        exact hamong l hl' j hj' hjl.symm hjl.symm
      · rw [cutInto_other (ne_new h hnew hj') hji]
        exact (hamong j hj' l hl' hjl hji).symm

theorem attrAt_cut (h : Apart mm) (hi : i ∈ mm.head_vma) (hnew : mm.used new = false)
    (hhalves : Halves (mm.vmas i) kept other) (a : Nat) : attrAt (cutInto mm i new kept other) a = attrAt mm a := by
  apply Option.ext
  intro w
  rw [attrAt_eq_some (cut_apart h hi hnew hhalves), attrAt_eq_some h]
  rw [@mem_cutInto mm i new kept other h hi hnew fun v => a ∈ v.span ∧ attr v a = w]
  constructor
  · rintro (⟨ha, rfl⟩ | ⟨ha, rfl⟩ | ⟨j, hj, -, ha, rfl⟩)
    · refine ⟨i, hi, ?_, (hhalves.other_attr a ha).symm⟩
      rw [hhalves.union]
      exact .inr ha
    · refine ⟨i, hi, ?_, (hhalves.kept_attr a ha).symm⟩
      rw [hhalves.union]
      exact .inl ha
    · exact ⟨j, hj, ha, rfl⟩
  · rintro ⟨j, hj, ha, rfl⟩
    rcases eq_or_ne j i with rfl | hji
    · have hsides := ha
      rw [hhalves.union] at hsides
      rcases hsides with hside | hside
      · exact .inr (.inl ⟨hside, hhalves.kept_attr a hside⟩)
      · exact .inl ⟨hside, hhalves.other_attr a hside⟩
    · exact .inr (.inr ⟨j, hj, hji, ha, rfl⟩)

end

/-! ## The cuts -/

section

variable {s s' s'' : State} {i addr lo hi : Nat} {v kept other : vma}

theorem dupFile_counted (h : FileCounted s v) :
    ∃ f_count, dupFile s v = .ok { s with f_count := f_count } ∧ ∀ id, 1 ≤ f_count id ↔ 1 ≤ s.f_count id := by
  unfold dupFile
  cases hfile : v.vm_file with
  | none => exact ⟨s.f_count, rfl, fun _ => Iff.rfl⟩
  | some fp =>
    have hcount := h fp hfile
    dsimp only
    rw [fat32_filedup, if_neg hcount.not_gt]
    refine ⟨_, rfl, fun id => ?_⟩
    rcases eq_or_ne id fp.id with rfl | hid
    · rw [update_self]
      omega
    · rw [update_of_ne hid]

theorem dupFile_stale (h : ¬FileCounted s v) : dupFile s v = .error .filedup := by
  unfold dupFile
  cases hfile : v.vm_file with
  | none => exact absurd (fun fp hfp => by rw [hfile] at hfp; cases hfp) h
  | some fp =>
    have hcount : s.f_count fp.id < 1 := by
      by_contra hle
      apply h
      intro fp' hfp'
      rw [hfile] at hfp'
      cases hfp'
      omega
    dsimp only
    rw [fat32_filedup, if_pos hcount]
    rfl

/-- Area `i` goes from `lo` to `hi` now; `n` slots were taken, and nothing else can be told from before. -/
structure Trimmed (s s' : State) (i lo hi n : Nat) : Prop where
  apart : Apart s'.mm
  mem : i ∈ s'.mm.head_vma
  start_eq : (s'.mm.vmas i).startva = lo
  end_eq : (s'.mm.vmas i).startva + (s'.mm.vmas i).size = hi
  perm : (s'.mm.vmas i).perm = (s.mm.vmas i).perm
  vm_file : (s'.mm.vmas i).vm_file = (s.mm.vmas i).vm_file
  attrs : ∀ a, attrAt s'.mm a = attrAt s.mm a
  slots : freeSlots s'.mm.used = (freeSlots s.mm.used).drop n
  counts : ∀ id, 1 ≤ s'.f_count id ↔ 1 ≤ s.f_count id
  same : n = 0 → s' = s

theorem Trimmed.refl (h : Apart s.mm) (hi : i ∈ s.mm.head_vma) :
    Trimmed s s i (s.mm.vmas i).startva ((s.mm.vmas i).startva + (s.mm.vmas i).size) 0 :=
  ⟨h, hi, rfl, rfl, rfl, rfl, fun _ => rfl, rfl, fun _ => Iff.rfl, fun _ => rfl⟩

theorem Trimmed.trans {lo' hi' n m : Nat} (h : Trimmed s s' i lo hi n) (h' : Trimmed s' s'' i lo' hi' m) :
    Trimmed s s'' i lo' hi' (n + m) := by
  refine ⟨h'.apart, h'.mem, h'.start_eq, h'.end_eq, h'.perm.trans h.perm, h'.vm_file.trans h.vm_file, ?_, ?_, ?_, ?_⟩
  · exact fun a => (h'.attrs a).trans (h.attrs a)
  · rw [h'.slots, h.slots, List.drop_drop]
  · exact fun id => (h'.counts id).trans (h.counts id)
  · intro hzero
    exact (h'.same (by omega)).trans (h.same (by omega))

theorem Trimmed.fileCounted {n : Nat} (h : Trimmed s s' i lo hi n) :
    FileCounted s' (s'.mm.vmas i) ↔ FileCounted s (s.mm.vmas i) := by
  unfold FileCounted
  rw [h.vm_file]
  exact forall₂_congr fun fp _ => h.counts fp.id

/-- How a cut ends that takes `n` slots. -/
inductive Cut (s : State) (i lo hi n : Nat) : Except CopyStop (State × Int) → Prop
  | made {s' : State} (hcan : CanCut s (s.mm.vmas i) n) (h : Trimmed s s' i lo hi n) : Cut s i lo hi n (.ok (s', 0))
  | full (h : (freeSlots s.mm.used).length < n) : Cut s i lo hi n (.ok (s, -1))
  | stale (hpos : 0 < n) (hslots : n ≤ (freeSlots s.mm.used).length) (h : ¬FileCounted s (s.mm.vmas i)) :
    Cut s i lo hi n (.error .filedup)

theorem split_clear {mm : mm_struct} (h : Apart mm) (hi : i ∈ mm.head_vma) {new : Nat} (hnew : mm.used new = false)
    (hhalves : Halves (mm.vmas i) kept other) (hpos : 0 < other.size) :
    ∀ j ∈ mm.head_vma, endpointIn other (update (update mm.vmas i kept) new other j) = false := by
  intro j hj
  rw [update_of_ne (ne_new h hnew hj)]
  rcases eq_or_ne j i with rfl | hji
  · rw [update_self]
    exact Vma.endpointIn_eq_false hhalves.other_end hpos hhalves.kept_end hhalves.disjoint.symm
  rw [update_of_ne hji]
  refine Vma.endpointIn_eq_false hhalves.other_end hpos (h.end_lt j hj) ((h.disjoint hi hj hji.symm).mono_left ?_)
  show other.span ⊆ (mm.vmas i).span
  rw [hhalves.union]
  exact Set.subset_union_right

theorem split_at {mm : mm_struct} (h : Apart mm) (hi : i ∈ mm.head_vma) {new : Nat} {rest : List Nat}
    (hfree : freeSlots mm.used = new :: rest) {new_below : Bool}
    (hkept : kept = if new_below then (mm.vmas i).above addr else (mm.vmas i).below addr)
    (hother : other = if new_below then (mm.vmas i).below addr else (mm.vmas i).above addr)
    (hhalves : Halves (mm.vmas i) kept other) (hpos : 0 < other.size) :
    Vma.split_vma mm i addr new_below = .ok (cutInto mm i new kept other, 0) := by
  have hnew : mm.used new = false := Vma.Copy.free_of_mem (hfree ▸ List.mem_cons_self)
  have hclear := split_clear h hi hnew hhalves hpos
  have hself : (update (update mm.vmas i kept) new other) new = other := update_self _ _ _
  rw [Vma.split_vma, Vma.Copy.alloc_vma_eq, hfree]
  dsimp only [List.head?_cons, Option.map_some]
  rw [← hkept, ← hother, add_vma_to_vmspace, if_neg]
  · rfl
  rw [Bool.not_eq_true, check_vma_intersect, List.any_eq_false]
  intro j hj
  rw [Bool.not_eq_true]
  show endpointIn (update (update mm.vmas i kept) new other new) _ = false
  rw [hself]
  exact hclear j hj

theorem split_vma_full (hfree : freeSlots s.mm.used = []) (new_below : Bool) :
    split_vma s i addr new_below = .ok (s, -1) := by
  rw [split_vma, Vma.Copy.alloc_vma_eq, hfree]
  rfl

theorem split_vma_cut (h : Apart s.mm) (hi : i ∈ s.mm.head_vma) {new_below : Bool}
    (hkept : kept = if new_below then (s.mm.vmas i).above addr else (s.mm.vmas i).below addr)
    (hother : other = if new_below then (s.mm.vmas i).below addr else (s.mm.vmas i).above addr)
    (hhalves : Halves (s.mm.vmas i) kept other) (hpos : 0 < other.size) :
    Cut s i kept.startva (kept.startva + kept.size) 1 (split_vma s i addr new_below) := by
  rcases hfree : freeSlots s.mm.used with _ | ⟨new, rest⟩
  · rw [split_vma_full hfree]
    apply Cut.full
    rw [hfree]
    exact Nat.zero_lt_one
  have hslots : 1 ≤ (freeSlots s.mm.used).length := by
    rw [hfree]
    exact Nat.le_add_left _ _
  rw [split_vma, Vma.Copy.alloc_vma_eq, hfree]
  rw [List.head?_cons, Option.map_some, Option.isNone_some, if_neg Bool.false_ne_true]
  by_cases hfile : FileCounted s (s.mm.vmas i)
  · obtain ⟨f_count, hdup, hcounts⟩ := dupFile_counted hfile
    have hnew : s.mm.used new = false := Vma.Copy.free_of_mem (hfree ▸ List.mem_cons_self)
    have hne := ne_new h hnew hi
    have hsplit := split_at h hi hfree hkept hother hhalves hpos
    have hself : (cutInto s.mm i new kept other).vmas i = kept := cutInto_kept hne
    have hfields : kept.perm = (s.mm.vmas i).perm ∧ kept.vm_file = (s.mm.vmas i).vm_file := by
      rw [hkept]
      split <;> exact ⟨rfl, rfl⟩
    rw [hdup, ok_bind]
    dsimp only
    rw [hsplit]
    show Cut s i _ _ 1 (.ok ((⟨cutInto s.mm i new kept other, f_count⟩ : State), 0))
    refine .made ⟨hslots, fun _ => hfile⟩ ?_
    refine ⟨cut_apart h hi hnew hhalves, List.mem_cons_of_mem _ hi, ?_, ?_, ?_, ?_, attrAt_cut h hi hnew hhalves, ?_, hcounts,
      fun hzero => absurd hzero Nat.one_ne_zero⟩
    · rw [hself]
    · rw [hself]
    · rw [hself, hfields.1]
    · rw [hself, hfields.2]
    · rw [hfree]
      exact Vma.Copy.freeSlots_take hfree
  · rw [dupFile_stale hfile]
    exact .stale Nat.zero_lt_one hslots hfile

/-- The cut in front of the range. -/
theorem cut_front (h : Apart s.mm) (hi : i ∈ s.mm.head_vma) (hlo : (s.mm.vmas i).startva ≤ addr)
    (hhi : addr ≤ (s.mm.vmas i).startva + (s.mm.vmas i).size) :
    Cut s i addr ((s.mm.vmas i).startva + (s.mm.vmas i).size) (if addr ≠ (s.mm.vmas i).startva then 1 else 0)
      (split_unless s i addr (s.mm.vmas i).startva true) := by
  have hend := h.end_lt i hi
  unfold split_unless
  rcases eq_or_ne addr (s.mm.vmas i).startva with heq | hne
  · rw [if_neg (not_not.mpr heq), if_neg (not_not.mpr heq), heq]
    exact .made ⟨Nat.zero_le _, fun hpos => absurd hpos (lt_irrefl 0)⟩ (.refl h hi)
  have habove := above_size hend hhi
  have hpos : 0 < ((s.mm.vmas i).below addr).size := by
    rw [below_size hlo (by omega)]
    omega
  have hcut := @split_vma_cut s i addr _ _ h hi true rfl rfl (halves_at hend hlo hhi).symm hpos
  rw [if_pos hne, if_pos hne]
  simp only [if_true] at hcut
  rw [habove, show ((s.mm.vmas i).above addr).startva = addr from rfl, Nat.add_sub_of_le hhi] at hcut
  exact hcut

/-- The cut behind the range. -/
theorem cut_back (h : Apart s.mm) (hi : i ∈ s.mm.head_vma) (hlo : (s.mm.vmas i).startva ≤ addr)
    (hhi : addr ≤ (s.mm.vmas i).startva + (s.mm.vmas i).size) :
    Cut s i (s.mm.vmas i).startva addr (if addr ≠ (s.mm.vmas i).startva + (s.mm.vmas i).size then 1 else 0)
      (split_unless s i addr (add64 (s.mm.vmas i).startva (s.mm.vmas i).size) false) := by
  have hend := h.end_lt i hi
  have hadd : add64 (s.mm.vmas i).startva (s.mm.vmas i).size = (s.mm.vmas i).startva + (s.mm.vmas i).size :=
    Nat.mod_eq_of_lt hend
  unfold split_unless
  rw [hadd]
  rcases eq_or_ne addr ((s.mm.vmas i).startva + (s.mm.vmas i).size) with heq | hne
  · rw [if_neg (not_not.mpr heq), if_neg (not_not.mpr heq), heq]
    exact .made ⟨Nat.zero_le _, fun hpos => absurd hpos (lt_irrefl 0)⟩ (.refl h hi)
  have hbelow : ((s.mm.vmas i).below addr).size = addr - (s.mm.vmas i).startva := below_size hlo (by omega)
  have hpos : 0 < ((s.mm.vmas i).above addr).size := by
    rw [above_size hend hhi]
    omega
  have hcut := @split_vma_cut s i addr _ _ h hi false rfl rfl (halves_at hend hlo hhi) hpos
  rw [if_pos hne, if_pos hne]
  simp only [Bool.false_eq_true, if_false] at hcut
  rw [hbelow, show ((s.mm.vmas i).below addr).startva = (s.mm.vmas i).startva from rfl, Nat.add_sub_of_le hlo] at hcut
  exact hcut

theorem canCut_add {n m : Nat} (h : Trimmed s s' i lo hi n) (hcan : CanCut s (s.mm.vmas i) n) :
    CanCut s' (s'.mm.vmas i) m ↔ CanCut s (s.mm.vmas i) (n + m) := by
  have hlength : (freeSlots s'.mm.used).length = (freeSlots s.mm.used).length - n := by
    rw [h.slots, List.length_drop]
  constructor
  · rintro ⟨hslots, hcounted⟩
    have hn := hcan.slots
    refine ⟨by omega, fun hpos => ?_⟩
    rcases Nat.eq_zero_or_pos n with hzero | hn
    · exact h.fileCounted.mp (hcounted (by omega))
    · exact hcan.counted hn
  · rintro ⟨hslots, hcounted⟩
    exact ⟨by omega, fun hpos => h.fileCounted.mpr (hcounted (by omega))⟩

/-- The end of the range lies behind the area: the tail that wraps around begins in no area and ends in this one. -/
theorem split_beyond (hi : i ∈ s.mm.head_vma) (hpos : 0 < (s.mm.vmas i).size)
    (hlt : (s.mm.vmas i).startva + (s.mm.vmas i).size < addr) (haddr : addr < 2 ^ 64) (hfree : freeSlots s.mm.used ≠ [])
    (hnew : ∀ new, s.mm.used new = false → i ≠ new) : ∃ e, split_vma s i addr false = .error e := by
  unfold split_vma
  rw [Vma.Copy.alloc_vma_eq]
  rcases hslots : freeSlots s.mm.used with _ | ⟨new, rest⟩
  · exact absurd hslots hfree
  rw [List.head?_cons, Option.map_some, Option.isNone_some, if_neg Bool.false_ne_true]
  by_cases hfile : FileCounted s (s.mm.vmas i)
  · obtain ⟨f_count, hdup, -⟩ := dupFile_counted hfile
    have hne : i ≠ new := hnew new (Vma.Copy.free_of_mem (hslots ▸ List.mem_cons_self))
    rw [hdup, ok_bind]
    dsimp only
    rw [Vma.split_vma, Vma.Copy.alloc_vma_eq, hslots]
    dsimp only [List.head?_cons, Option.map_some]
    rw [add_vma_to_vmspace, if_pos]
    · exact ⟨_, rfl⟩
    rw [check_vma_intersect, List.any_eq_true]
    refine ⟨i, hi, ?_⟩
    have hself : update (update s.mm.vmas i ((s.mm.vmas i).below addr)) new ((s.mm.vmas i).above addr) new =
        (s.mm.vmas i).above addr := update_self _ _ _
    have hkept : update (update s.mm.vmas i ((s.mm.vmas i).below addr)) new ((s.mm.vmas i).above addr) i =
        (s.mm.vmas i).below addr := (update_of_ne hne _ _).trans (update_self _ _ _)
    show endpointIn (update (update s.mm.vmas i ((s.mm.vmas i).below addr)) new ((s.mm.vmas i).above addr) new)
      (update (update s.mm.vmas i ((s.mm.vmas i).below addr)) new ((s.mm.vmas i).above addr) i) = true
    have hlast : sub64 (add64 ((s.mm.vmas i).above addr).startva ((s.mm.vmas i).above addr).size) 1 =
        (s.mm.vmas i).startva + (s.mm.vmas i).size - 1 := by
      simp only [vma.above, add64, sub64]
      omega
    have hend : add64 ((s.mm.vmas i).below addr).startva ((s.mm.vmas i).below addr).size = addr := by
      simp only [vma.below, add64, sub64]
      omega
    have hstart : ((s.mm.vmas i).below addr).startva = (s.mm.vmas i).startva := rfl
    rw [hself, hkept, endpointIn]
    rw [hlast, hend, hstart, Bool.or_eq_true, Bool.and_eq_true, Bool.and_eq_true]
    right
    constructor <;> apply decide_eq_true <;> omega
  · rw [dupFile_stale hfile]
    exact ⟨_, rfl⟩

end

/-! ## The call at its area -/

section

variable {s : State} {i start end_ prot : Nat}

/-- The area once its rights are stored. -/
def withPerm (mm : mm_struct) (i prot : Nat) : mm_struct := mm.set i { mm.vmas i with perm := prot }

theorem protectArea_inside (h : Apart s.mm) (hi : i ∈ s.mm.head_vma) (hlo : (s.mm.vmas i).startva ≤ start)
    (hle : start ≤ end_) (hhi : end_ ≤ (s.mm.vmas i).startva + (s.mm.vmas i).size) {n : Nat}
    (hn : n = (if start ≠ (s.mm.vmas i).startva then 1 else 0) +
      if end_ ≠ (s.mm.vmas i).startva + (s.mm.vmas i).size then 1 else 0) :
    (∃ s₁, CanCut s (s.mm.vmas i) n ∧ Trimmed s s₁ i start end_ n ∧
      protectArea s i start end_ prot = .ok ({ s₁ with mm := withPerm s₁.mm i prot }, 0)) ∨
    (¬CanCut s (s.mm.vmas i) n ∧ ∀ s', protectArea s i start end_ prot ≠ .ok (s', 0)) := by
  have hfront := cut_front h hi hlo (hle.trans hhi)
  unfold protectArea
  obtain ⟨r, hr⟩ : ∃ r, split_unless s i start (s.mm.vmas i).startva true = r := ⟨_, rfl⟩
  rw [hr] at hfront ⊢
  cases hfront with
  | full hfull =>
    refine .inr ⟨fun hcan => ?_, fun s' heq => by cases heq⟩
    have := hcan.slots
    omega
  | stale hpos hslots hstale => exact .inr ⟨fun hcan => hstale (hcan.counted (by omega)), fun s' heq => by cases heq⟩
  | @made s₁ hcan htrim =>
    have hback := @cut_back s₁ i end_ htrim.apart htrim.mem (htrim.start_eq.le.trans hle) (hhi.trans htrim.end_eq.ge)
    rw [ok_bind]
    dsimp only
    rw [if_neg (lt_irrefl 0)]
    obtain ⟨r, hr⟩ : ∃ r, split_unless s₁ i end_ (add64 (s₁.mm.vmas i).startva (s₁.mm.vmas i).size) false = r := ⟨_, rfl⟩
    rw [hr] at hback ⊢
    rw [htrim.end_eq, htrim.start_eq] at hback
    have hadd := @canCut_add s s₁ i start _ _ (if end_ ≠ (s.mm.vmas i).startva + (s.mm.vmas i).size then 1 else 0) htrim hcan
    rw [← hn] at hadd
    cases hback with
    | full hfull =>
      refine .inr ⟨fun hall => ?_, fun s' heq => by cases heq⟩
      have := (hadd.mpr hall).slots
      omega
    | stale hpos hslots hstale => exact .inr ⟨fun hall => hstale ((hadd.mpr hall).counted hpos), fun s' heq => by cases heq⟩
    | @made s₂ hcan₂ htrim₂ =>
      refine .inl ⟨s₂, hadd.mp hcan₂, hn ▸ htrim.trans htrim₂, ?_⟩
      rfl

theorem protectArea_beyond (h : Apart s.mm) (hi : i ∈ s.mm.head_vma) (hstart : start ∈ (s.mm.vmas i).span)
    (hlt : (s.mm.vmas i).startva + (s.mm.vmas i).size < end_) (hend : end_ < 2 ^ 64) :
    (∀ s', protectArea s i start end_ prot ≠ .ok (s', 0)) ∧
      (protectArea s i start end_ prot = .ok (s, -1) ↔ freeSlots s.mm.used = []) := by
  obtain ⟨hlo, hhi⟩ := Vma.mem_span_iff.mp hstart
  have hfront := cut_front h hi hlo hhi.le
  unfold protectArea
  obtain ⟨r, hr⟩ : ∃ r, split_unless s i start (s.mm.vmas i).startva true = r := ⟨_, rfl⟩
  rw [hr] at hfront ⊢
  cases hfront with
  | full hfull =>
    refine ⟨fun s' heq => (by cases heq), fun _ => ?_, fun _ => rfl⟩
    apply List.length_eq_zero_iff.mp
    split at hfull <;> omega
  | stale hpos hslots hstale =>
    refine ⟨fun s' heq => (by cases heq), fun heq => (by cases heq), fun hnone => ?_⟩
    rw [hnone, List.length_nil] at hslots
    omega
  | @made s₁ hcan htrim =>
    have hadd : add64 (s₁.mm.vmas i).startva (s₁.mm.vmas i).size = (s.mm.vmas i).startva + (s.mm.vmas i).size := by
      rw [add64, htrim.end_eq]
      exact Nat.mod_eq_of_lt (hlt.trans hend)
    have hpos : 0 < (s₁.mm.vmas i).size := by
      have hstart₁ := htrim.start_eq
      have hend₁ := htrim.end_eq
      omega
    rw [ok_bind]
    dsimp only
    rw [if_neg (lt_irrefl 0), hadd, split_unless, if_pos hlt.ne']
    rcases hfree : freeSlots s₁.mm.used with _ | ⟨new, rest⟩
    · rw [split_vma_full hfree]
      refine ⟨fun s' heq => (by cases heq), fun heq => ?_, fun hnone => ?_⟩
      · cases heq
        exact hfree
      · -- without a slot there was no cut in front
        have hzero := hcan.slots
        rw [hnone] at hzero
        rw [htrim.same (Nat.le_zero.mp hzero)]
        rfl
    · obtain ⟨e, herror⟩ := split_beyond htrim.mem hpos (htrim.end_eq ▸ hlt) hend (by rw [hfree]; exact List.cons_ne_nil _ _)
        fun new hnew => ne_new htrim.apart hnew htrim.mem
      rw [herror]
      refine ⟨fun s' heq => (by cases heq), fun heq => (by cases heq), fun hnone => ?_⟩
      have hslots := htrim.slots
      rw [hnone, List.drop_nil, hfree] at hslots
      cases hslots

end

/-! ## The rights -/

section

variable {mm : mm_struct} {i a prot : Nat}

theorem withPerm_self (mm : mm_struct) (i prot : Nat) : (withPerm mm i prot).vmas i = { mm.vmas i with perm := prot } :=
  update_self _ _ _

theorem withPerm_ne {j : Nat} (hj : j ≠ i) : (withPerm mm i prot).vmas j = mm.vmas j := update_of_ne hj _ _

theorem withPerm_bounds (j : Nat) : ((withPerm mm i prot).vmas j).startva = (mm.vmas j).startva ∧
    ((withPerm mm i prot).vmas j).size = (mm.vmas j).size := by
  rcases eq_or_ne j i with rfl | hj
  · rw [withPerm_self]
    exact ⟨rfl, rfl⟩
  · rw [withPerm_ne hj]
    exact ⟨rfl, rfl⟩

theorem withPerm_span (j : Nat) : ((withPerm mm i prot).vmas j).span = (mm.vmas j).span := by
  obtain ⟨hstart, hsize⟩ := @withPerm_bounds mm i prot j
  rw [vma.span, vma.span, hstart, hsize]

theorem apart_withPerm (h : Apart mm) (i prot : Nat) : Apart (withPerm mm i prot) := by
  refine ⟨h.nodup, h.in_use, fun j hj => ?_, fun j hj l hl hjl => ?_⟩
  · obtain ⟨hstart, hsize⟩ := @withPerm_bounds mm i prot j
    rw [hstart, hsize]
    exact h.end_lt j hj
  · show Disjoint ((withPerm mm i prot).vmas j).span ((withPerm mm i prot).vmas l).span
    rw [withPerm_span, withPerm_span]
    exact h.disjoint hj hl hjl

theorem prot_bits (hprot : prot < 8) : prot &&& PERM_SHARED = 0 ∧ prot &&& 7 = prot := by
  have hall : ∀ p < 8, p &&& PERM_SHARED = 0 ∧ p &&& 7 = p := by decide
  exact hall prot hprot

theorem attrAt_withPerm_in (h : Apart mm) (hi : i ∈ mm.head_vma) (hprot : prot < 8) (ha : a ∈ (mm.vmas i).span) :
    attrAt (withPerm mm i prot) a = some { attr (mm.vmas i) a with shared := false, prot := prot } := by
  obtain ⟨hshared, hbits⟩ := prot_bits hprot
  rw [attrAt_of_mem (apart_withPerm h i prot) hi (by rw [withPerm_span]; exact ha), withPerm_self, attr]
  dsimp only
  rw [hshared, hbits]
  rfl

theorem attrAt_withPerm_out (h : Apart mm) (ha : a ∉ (mm.vmas i).span) : attrAt (withPerm mm i prot) a = attrAt mm a := by
  apply Option.ext
  intro w
  rw [attrAt_eq_some (apart_withPerm h i prot), attrAt_eq_some h]
  refine exists_congr fun j => and_congr_right fun hj => ?_
  rw [withPerm_span]
  refine and_congr_right fun haj => ?_
  have hji : j ≠ i := by
    rintro rfl
    exact ha haj
  rw [withPerm_ne hji]

end

/-! ## The pages -/

section

variable {files : Files} {mm : mm_struct} {k : Phys} {pt : PageTable} {ext : Holders} {cause : Cause} {a i prot frame : Nat}
  {flags : Flags}

theorem check_perm (v : vma) : CHECK_PERM cause v = allows v.perm cause := by
  cases cause <;> rfl

theorem walk_of_translate (htrans : translate pt a = some (frame, flags)) :
    ∃ level pte, walk pt a = .ok (.entry level pte) ∧ pte.flags = flags ∧ flags.has Vm.PTE_V = true ∧ flags.has Vm.PTE_U = true := by
  unfold Vm.translate at htrans
  split at htrans
  · next level pte hwalk =>
    split at htrans
    · next hbits =>
      cases htrans
      rw [Bool.and_eq_true] at hbits
      exact ⟨level, pte, hwalk, rfl, hbits.1, hbits.2⟩
    · cases htrans
  · cases htrans

theorem cow_served {level : Vm.Level} {pte : Vm.Pte} (hserved : kmalloc k level.order ≠ .error .block_in_use) :
    Vm.cow k pt a level pte ≠ .error .block_in_use := by
  unfold Vm.cow
  rcases hm : kmalloc k level.order with e | ⟨k₁, _ | mem⟩
  · intro heq
    cases heq
    exact hserved hm
  · intro heq
    cases heq
  · rw [ok_bind]
    dsimp only
    unfold Vm.kfree
    split
    · intro heq
      cases heq
    split
    · intro heq
      cases heq
    · split <;> (intro heq; cases heq)

/-- What an access to a page that is there comes to. -/
theorem accessible_iff (hheld : Held k pt ext)
    (hserved : ∀ level pte, walk pt a = .ok (.entry level pte) → is_a_cow_page pte.flags = true →
      kmalloc k level.order ≠ .error .block_in_use)
    (hfind : find_vma_for_va mm a = some i) (htrans : translate pt a = some (frame, flags)) :
    Accessible files mm k pt cause a ↔ Permits cause flags = true ∨ (allows (mm.vmas i).perm cause = true ∧
      is_a_cow_page flags = true ∧ 0 < answers k ∧ Permits cause (flags ||| PTE_W) = true) := by
  obtain ⟨level, pte, hwalk, rfl, hv, hu⟩ := walk_of_translate htrans
  have hthrough : Through pt cause a ↔ Permits cause pte.flags = true := by
    constructor
    · rintro ⟨frame', flags', htrans', hpermits⟩
      rw [htrans] at htrans'
      cases htrans'
      exact hpermits
    · exact fun hpermits => ⟨frame, pte.flags, htrans, hpermits⟩
  have hmax := (Vm.dir_of_walk hwalk).1
  have hne : pte ≠ Vm.Pte.zero := by
    rintro rfl
    cases hv
  have hfault : pagefault files mm cause k pt a = if CHECK_PERM cause (mm.vmas i) = false then .ok (k, pt, false)
      else if is_a_cow_page pte.flags then Vm.cow k pt a level pte else .ok (k, pt, false) := by
    rw [pagefault, if_neg (not_le.mpr (Vm.down_lt_maxva.mpr hmax)), hfind]
    dsimp only
    refine if_congr Iff.rfl rfl ?_
    rw [hwalk, ok_bind]
    dsimp only
    rw [if_neg hne, if_neg (by rw [hv]; decide)]
    rfl
  rw [Accessible, hthrough, hfault, check_perm]
  refine or_congr_right ?_
  cases hallows : allows (mm.vmas i).perm cause with
  | false =>
    rw [if_pos rfl]
    exact ⟨fun ⟨_, _, heq, _⟩ => (by cases heq), fun h => by cases h.1⟩
  | true =>
    rw [if_neg Bool.true_eq_false.mp]
    cases hcow : is_a_cow_page pte.flags with
    | false =>
      rw [if_neg Bool.false_ne_true]
      exact ⟨fun ⟨_, _, heq, _⟩ => (by cases heq), fun h => by cases h.2.1⟩
    | true =>
      rw [if_pos rfl]
      have hcheck : CHECK_PERM cause (mm.vmas i) = true := (check_perm _).trans hallows
      have hfree := @cow_served k pt a level pte (hserved level pte hwalk hcow)
      have hlaw := @Vm.cow_law k pt ext files a cause mm i hfind hcheck level pte hheld hwalk hv hfree
      rcases Vm.cow_returns hheld hwalk hv hfree with ⟨hzero, k', hret, -⟩ | ⟨hpos, k', mem, hret⟩
      · rw [hret]
        exact ⟨fun ⟨_, _, heq, _⟩ => (by cases heq), fun h => absurd h.2.2.1 (by omega)⟩
      rw [hret] at hlaw ⊢
      constructor
      · rintro ⟨k₁, pt₁, heq, frame₁, flags₁, htrans₁, hpermits⟩
        cases heq
        have hresolved := hlaw.mp ⟨i, hfind, hcheck, frame₁, flags₁, htrans₁, hpermits,
          fun _ hnot => absurd ⟨level, pte, hwalk, hv⟩ hnot⟩
        exact ⟨rfl, rfl, hpos, (hresolved hpos).2⟩
      · rintro ⟨-, -, -, hpermits⟩
        obtain ⟨i', -, -, frame₁, flags₁, htrans₁, hpermits₁, -⟩ := hlaw.mpr fun _ => ⟨hu, hpermits⟩
        exact ⟨k', _, rfl, frame₁, flags₁, htrans₁, hpermits₁⟩

end

theorem enforced_iff {files : Files} {mm : mm_struct} {k : Phys} {pt : PageTable} {ext : Holders} {i start len prot : Nat}
    (hheld : Held k pt ext) (hserved : Served k pt start len)
    (hfind : ∀ a ∈ range start len, find_vma_for_va mm a = some i) (hperm : (mm.vmas i).perm = prot) :
    Enforced files mm k pt start len prot ↔ EntriesAgree k pt start len prot := by
  have hpage : ∀ a ∈ range start len, ∀ frame flags, translate pt a = some (frame, flags) →
      ((∀ cause, Accessible files mm k pt cause a ↔ allows prot cause = true) ↔ EntryAgrees k flags prot) := by
    intro a ha frame flags htrans
    refine forall_congr' fun cause => ?_
    rw [accessible_iff hheld (hserved a ha) (hfind a ha) htrans, hperm]
    tauto
  constructor
  · intro h a ha frame flags htrans
    exact (hpage a ha frame flags htrans).mp (h a ha (by rw [htrans]; rfl))
  · intro h a ha hpresent
    obtain ⟨⟨frame, flags⟩, htrans⟩ := Option.isSome_iff_exists.mp hpresent
    exact (hpage a ha frame flags htrans).mpr (h a ha frame flags htrans)

/-! ## `sys_mprotect` -/

section

variable {files : Files} {s : State} {k : Phys} {pt : PageTable} {ext : Holders} {start len prot : Nat}

theorem range_empty (hzero : PGROUNDUP len = 0) (a : Nat) : a ∉ range start len := by
  rw [range, hzero, Nat.add_zero, Set.Ico_self]
  exact Set.notMem_empty a

theorem law_refused (h : sys_mprotect s start len prot = .ok (s, -1)) : MprotectLaw files s k pt start len prot := by
  refine ⟨fun s' heq => ?_, fun _ => h⟩
  rw [h] at heq
  cases heq

theorem protected_iff {s₁ : State} {i n : Nat} (h : Apart s.mm) (hi : i ∈ s.mm.head_vma) (hprot : prot < 8)
    (hlo : (s.mm.vmas i).startva ≤ start) (hhi : start + PGROUNDUP len ≤ (s.mm.vmas i).startva + (s.mm.vmas i).size)
    (htrim : Trimmed s s₁ i start (start + PGROUNDUP len) n) :
    Protected s.mm (withPerm s₁.mm i prot) start len prot ↔ PGROUNDUP len = 0 ∨ (s.mm.vmas i).perm &&& PERM_SHARED = 0 := by
  have hspan : (s₁.mm.vmas i).span = range start len := by
    rw [vma.span, htrim.end_eq, htrim.start_eq]
    rfl
  have hout : ∀ a ∉ range start len, attrAt (withPerm s₁.mm i prot) a = attrAt s.mm a := fun a ha =>
    (attrAt_withPerm_out htrim.apart (hspan ▸ ha)).trans (htrim.attrs a)
  have hin : ∀ a ∈ range start len, attrAt (withPerm s₁.mm i prot) a =
      some { attr (s.mm.vmas i) a with shared := false, prot := prot } := by
    intro a ha
    have hold : attrAt s₁.mm a = some (attr (s.mm.vmas i) a) := by
      rw [htrim.attrs]
      exact attrAt_of_mem h hi (Vma.mem_span_iff.mpr ⟨hlo.trans ha.1, ha.2.trans_le hhi⟩)
    rw [attrAt_of_mem htrim.apart htrim.mem (hspan.symm ▸ ha), Option.some.injEq] at hold
    rw [attrAt_withPerm_in htrim.apart htrim.mem hprot (hspan.symm ▸ ha), hold]
  have hold : ∀ a ∈ range start len, attrAt s.mm a = some (attr (s.mm.vmas i) a) := fun a ha =>
    attrAt_of_mem h hi (Vma.mem_span_iff.mpr ⟨hlo.trans ha.1, ha.2.trans_le hhi⟩)
  constructor
  · rintro ⟨hinside, -⟩
    refine or_iff_not_imp_left.mpr fun hne => ?_
    have hstart : start ∈ range start len := ⟨le_refl start, by omega⟩
    have heq := hinside start hstart
    rw [hin start hstart, hold start hstart, Option.map_some, Option.some.injEq] at heq
    have hshared : ((s.mm.vmas i).perm &&& PERM_SHARED != 0) = false := (congrArg Attr.shared heq).symm
    simpa using hshared
  · intro hcond
    refine ⟨fun a ha => ?_, hout⟩
    have hunshared : (s.mm.vmas i).perm &&& PERM_SHARED = 0 := hcond.resolve_left fun hzero => range_empty hzero a ha
    rw [hin a ha, hold a ha, Option.map_some, attr, hunshared]
    rfl

/-- **`sys_mprotect`.**  A call sets the rights of its range and nothing else, and its pages follow, if and only if the
area of its first address is one that allows it. -/
theorem mprotect_iff (h : Apart s.mm) (hheld : Held k pt ext) (hserved : Served k pt start len) :
    MprotectLaw files s k pt start len prot ↔ Protectable s k pt start len prot := by
  rcases eq_or_ne len 0 with rfl | hlen
  · refine ⟨fun _ hne => absurd rfl hne, fun _ => ⟨fun s' heq => ?_, fun hnot => ?_⟩⟩
    · cases heq
      exact ⟨⟨fun a ha => absurd ha (range_empty rfl a), fun a _ => rfl⟩, fun a ha => absurd ha (range_empty rfl a)⟩
    · exact absurd (fun a ha => absurd ha (range_empty rfl a)) hnot
  have hround : PGROUNDUP len < 2 ^ 64 := by
    simp only [PGROUNDUP, roundUp, PGSIZE]
    omega
  rcases lt_or_ge (start + PGROUNDUP len) (2 ^ 64) with hend | hwrap
  swap
  · refine ⟨fun _ _ hlt => absurd hlt hwrap.not_gt, fun _ => law_refused ?_⟩
    have hback : add64 start (PGROUNDUP len) < start := by
      rw [add64]
      omega
    rw [sys_mprotect, if_neg hlen, if_pos hback]
  have hadd : add64 start (PGROUNDUP len) = start + PGROUNDUP len := Nat.mod_eq_of_lt hend
  rcases lt_or_ge prot 8 with hprot | hprot
  swap
  · refine ⟨fun _ _ _ hlt => absurd hlt hprot.not_gt, fun _ => law_refused ?_⟩
    rw [sys_mprotect, if_neg hlen, hadd, if_neg (by omega), if_pos hprot]
  have hcall : sys_mprotect s start len prot = match find_vma_for_va s.mm start with
      | none => .ok (s, -1)
      | some vma => protectArea s vma start (start + PGROUNDUP len) prot := by
    rw [sys_mprotect, if_neg hlen, hadd, if_neg (by omega), if_neg hprot.not_ge]
  cases hfind : find_vma_for_va s.mm start with
  | none =>
    rw [hfind] at hcall
    refine ⟨fun _ _ _ _ i hi => ?_, fun _ => law_refused hcall⟩
    rw [hfind] at hi
    cases hi
  | some i =>
    rw [hfind] at hcall
    dsimp only at hcall
    obtain ⟨hi, hstart⟩ := h.find_spec hfind
    obtain ⟨hlo, hin⟩ := Vma.mem_span_iff.mp hstart
    have hcond : Protectable s k pt start len prot ↔ AreaProtects s k pt (s.mm.vmas i) start len prot := by
      constructor
      · exact fun hall => hall hlen hend hprot i hfind
      intro hone _ _ _ j hj
      rw [hfind] at hj
      cases hj
      exact hone
    rw [hcond, AreaProtects]
    rcases lt_or_ge ((s.mm.vmas i).startva + (s.mm.vmas i).size) (start + PGROUNDUP len) with hbeyond | hle
    · rw [if_neg hbeyond.not_ge]
      obtain ⟨hnever, hrefuses⟩ := @protectArea_beyond s i start _ prot h hi hstart hbeyond hend
      rw [← hcall] at hrefuses
      constructor
      · intro hlaw
        refine or_iff_not_imp_left.mpr fun hnot => hrefuses.mp (hlaw.refuses hnot)
      · intro hok
        refine ⟨fun s' heq => absurd (hcall ▸ heq) (hnever s'), fun hnot => hrefuses.mpr (hok.resolve_left hnot)⟩
    · rw [if_pos hle]
      have hcovered : Covered s.mm start len := fun a ha => by
        rw [h.areaAt_of_mem hi (Vma.mem_span_iff.mpr ⟨hlo.trans ha.1, ha.2.trans_le hle⟩)]
        rfl
      rcases @protectArea_inside s i start _ prot h hi hlo le_self_add hle _ rfl with
        ⟨s₁, hcan, htrim, hret⟩ | ⟨hcan, hnever⟩
      · have hcan : CanCut s (s.mm.vmas i) (cuts (s.mm.vmas i) start len) := hcan
        have hprotected := @protected_iff s start len prot s₁ i _ h hi hprot hlo hle htrim
        have happly := apart_withPerm htrim.apart i prot
        have hspan : (s₁.mm.vmas i).span = range start len := by
          rw [vma.span, htrim.end_eq, htrim.start_eq]
          rfl
        have henforced : Enforced files (withPerm s₁.mm i prot) k pt start len prot ↔ EntriesAgree k pt start len prot := by
          refine enforced_iff hheld hserved (fun a ha => happly.find_of_mem htrim.mem ?_) (by rw [withPerm_self])
          rw [withPerm_span, hspan]
          exact ha
        rw [hret] at hcall
        constructor
        · intro hlaw _
          obtain ⟨hp, he⟩ := hlaw.sets _ hcall
          rcases hprotected.mp hp with hzero | hunshared
          · exact .inl hzero
          · exact .inr ⟨hunshared, henforced.mp he⟩
        · intro hok
          refine ⟨fun s' heq => ?_, fun hnot => absurd hcovered hnot⟩
          rw [hcall] at heq
          cases heq
          rcases hok hcan with hzero | ⟨hunshared, hagree⟩
          · exact ⟨hprotected.mpr (.inl hzero), fun a ha => absurd ha (range_empty hzero a)⟩
          · exact ⟨hprotected.mpr (.inr hunshared), henforced.mpr hagree⟩
      · exact ⟨fun _ hall => absurd hall hcan,
          fun _ => ⟨fun s' heq => absurd (hcall ▸ heq) (hnever s'), fun hnot => absurd hcovered hnot⟩⟩

end

/-- An area of three pages, with the file `fp` behind it. -/
def threePages (perm : Nat) (type : vmatype) (fp : Option File) : State :=
  ⟨Vma.areasOf [⟨type, 0x400000, 0x3000, perm, 0, fp⟩], fun _ => 1⟩

theorem apart_threePages (perm : Nat) (type : vmatype) (fp : Option File) : Apart (threePages perm type fp).mm := by
  refine (Vma.areasOf_layout (fun v hv => ?_) (List.pairwise_singleton _ _)).apart
  rw [List.mem_singleton] at hv
  subst hv
  exact ⟨show 0x400000 % PGSIZE = 0 from rfl, show 0x3000 % PGSIZE = 0 from rfl, show 0x400000 + 0x3000 < 2 ^ 64 by decide⟩

/-- The middle page of an anonymous area that no other process shares. -/
theorem mprotect_iff_middle : MprotectLaw (fun _ _ => none) (threePages 3 .VMA_ANON none)
    (Vm.System.booted [some 1]).phys Vm.uvmcreate 0x401000 0x1000 PERM_READ := by
  have hboot : (Vm.System.booted [some 1]).Boot := ⟨fun _ => rfl, fun _ => rfl, fun _ => rfl, fun _ => rfl⟩
  refine (mprotect_iff (apart_threePages _ _ _) (hboot.inv.held 0) fun a _ level pte hwalk => ?_).mpr
    fun _ _ _ i hi => ?_
  · unfold walk at hwalk
    split at hwalk <;> cases hwalk
  have hzero : find_vma_for_va (threePages 3 .VMA_ANON none).mm 0x401000 = some 0 := by decide
  rw [hzero] at hi
  cases hi
  rw [AreaProtects, if_pos (by decide)]
  refine fun _ => .inr ⟨by decide, fun a _ frame flags htrans => ?_⟩
  obtain ⟨level, pte, hwalk, -⟩ := walk_of_translate htrans
  unfold walk at hwalk
  split at hwalk <;> cases hwalk

/-- A shared area is shared no longer. -/
theorem mprotect_unshares : ¬∀ (files : Files) (s : State) (k : Phys) (pt : PageTable) (ext : Holders) (start len prot : Nat),
    Apart s.mm → Held k pt ext → Served k pt start len → MprotectLaw files s k pt start len prot := by
  intro hall
  have hboot : (Vm.System.booted []).Boot := ⟨fun _ => rfl, fun _ => rfl, fun _ => rfl, fun _ => rfl⟩
  have hlaw := hall (fun _ _ => none) (threePages 11 .VMA_FILE (some ⟨7, 1⟩)) _ Vm.uvmcreate _ 0x400000 0x3000 PERM_READ
    (apart_threePages _ _ _) (hboot.inv.held 0) fun a _ level pte hwalk => by
      unfold walk at hwalk
      split at hwalk <;> cases hwalk
  obtain ⟨⟨hinside, -⟩, -⟩ := hlaw.sets ⟨withPerm (threePages 11 .VMA_FILE (some ⟨7, 1⟩)).mm 0 PERM_READ, fun _ => 1⟩ rfl
  have heq := hinside 0x400000 ⟨by decide, by decide⟩
  revert heq
  decide

end LostWakeup.Mm.Protect
