/-
# LostWakeup.Mm.VmaCopy — when `vmacopy` gives a child the areas of its parent.

`vmacopy` makes each area anew through `vma_map` and `vma_map_file`.  These round the size up to at least one page, leave
`offset` and `vm_file` of the slot where the area is not a file's, take the last heap area they see for the heap, and may
refuse.  The counts of the open files go along.

The parent's areas are read as records: their slots are in use, so no copy is put there.
-/
import LostWakeup.Mm.Teardown

namespace LostWakeup.Mm.Vma.Copy

open Library
open Function (update update_idem update_of_ne update_self)
open List (not_mem_nil of_mem_zip)

/-! ## `vmacopy` with the counts of the files -/

/-- The address space being made, over the counts `f_count` of the open files. -/
structure State where
  mm : mm_struct
  f_count : Nat → Nat

/-- The ways a copy does not come back. -/
inductive CopyStop
  | vma (e : Stop)
  /-- `panic("filedup")`. -/
  | filedup
  /-- `F_WRITEABLE` of a null pointer. -/
  | null_file

def orStop {α : Type} : Except Stop α → Except CopyStop α
  | .ok a => .ok a
  | .error e => .error (.vma e)

def fat32_filedup (f_count : Nat → Nat) (f : File) : Except CopyStop (Nat → Nat) :=
  if f_count f.id < 1 then .error .filedup else .ok (update f_count f.id (f_count f.id + 1))

/-- `vma_map_file` for an area of the parent, with the reference that it takes. -/
def copyFile (s : State) (pos : vma) (fp : File) : Except CopyStop (State × Int) := do
  let (mm, r) ← orStop (vma_map_file s.mm pos.startva pos.size pos.perm pos.type pos.offset fp)
  if r < 0 then
    return ({ s with mm := mm }, r)
  let f_count ← fat32_filedup s.f_count fp
  return (⟨mm, f_count⟩, r)

/-- One turn of the loop of `vmacopy`. -/
def copyTurn (s : State) (pos : vma) : Except CopyStop (State × Int) :=
  if pos.type = .VMA_FILE then
    match pos.vm_file with
    | none => .error .null_file
    | some fp => copyFile s pos fp
  else do
    let (mm, r) ← orStop (vma_map s.mm pos.startva pos.size pos.perm pos.type)
    return ({ s with mm := mm }, r)

/-- `vmacopy` of the areas that are left; `false` is the return value `-1`. -/
def vmacopy : List vma → State → Except CopyStop (State × Bool)
  | [], s => .ok (s, true)
  | pos :: rest, s => do
    let (s, r) ← copyTurn s pos
    if r < 0 then return (s, false)
    vmacopy rest s

/-- The address space of a child before the copy, over the pool that it shares with its parent. -/
def blank (parent : mm_struct) (f_count : Nat → Nat) : State :=
  ⟨⟨parent.vmas, parent.used, [], 0, 0, none⟩, f_count⟩

/-- The areas of an address space, in the order of its list. -/
def areas (mm : mm_struct) : List vma := mm.head_vma.map mm.vmas

/-! ## The free slots -/

/-- The slots that `alloc_vma` hands out, in its order. -/
def freeSlots (used : Nat → Bool) : List Nat := (List.range NVMA).filter fun i => used i = false

theorem findFree_eq (used : Nat → Bool) (n j : Nat) :
    findFree used n j = ((List.range' j n).filter fun i => used i = false).head? := by
  induction n generalizing j with
  | zero => rfl
  | succ n ih =>
    rw [List.range'_succ, findFree]
    by_cases hfree : used j = false
    · rw [if_pos hfree, List.filter_cons_of_pos (by simpa using hfree)]
      rfl
    · rw [if_neg hfree, List.filter_cons_of_neg (by simpa using hfree)]
      exact ih (j + 1)

theorem findFree_slots (used : Nat → Bool) : findFree used NVMA 0 = (freeSlots used).head? := by
  rw [findFree_eq, freeSlots, List.range_eq_range']

theorem freeSlots_nodup (used : Nat → Bool) : (freeSlots used).Nodup :=
  List.nodup_range.filter _

theorem free_of_mem {used : Nat → Bool} {i : Nat} (h : i ∈ freeSlots used) : used i = false := by
  simpa using (List.mem_filter.mp h).2

theorem freeSlots_take {used : Nat → Bool} {i : Nat} {rest : List Nat} (h : freeSlots used = i :: rest) :
    freeSlots (update used i true) = rest := by
  have hnodup := freeSlots_nodup used
  rw [h, List.nodup_cons] at hnodup
  have hfilter : freeSlots (update used i true) = (freeSlots used).filter fun j => decide (j ≠ i) := by
    rw [freeSlots, freeSlots, List.filter_filter]
    apply List.filter_congr
    intro j _
    by_cases hji : j = i
    · subst hji
      simp
    · simp [hji]
  rw [hfilter, h, List.filter_cons_of_neg (by simp), List.filter_eq_self]
  intro j hj
  have hji : j ≠ i := fun hji => hnodup.1 (hji ▸ hj)
  simpa using hji

/-! ## One area -/

/-- The bounds of an area as they are mapped. -/
def asMapped (v : vma) : vma := { v with startva := PGROUNDDOWN v.startva, size := mapSize v.size }

/-- The copy of an area in a slot that holds `old`. -/
def copyOf (pos old : vma) : vma :=
  if pos.type = .VMA_FILE then asMapped pos
  else { asMapped pos with offset := old.offset, vm_file := old.vm_file }

/-- `vma_map_file` refuses an area: a shared one with the right to write, of a file opened to read. -/
def Refused (v : vma) : Prop :=
  v.type = .VMA_FILE ∧ ∃ fp, v.vm_file = some fp ∧
    F_WRITEABLE fp = false ∧ v.perm &&& PERM_WRITE ≠ 0 ∧ v.perm &&& PERM_SHARED ≠ 0

/-- The counts once an area has been copied. -/
def counted (f_count : Nat → Nat) (pos : vma) : Nat → Nat :=
  if pos.type = .VMA_FILE then
    match pos.vm_file with
    | none => f_count
    | some fp => update f_count fp.id (f_count fp.id + 1)
  else f_count

/-- The state once an area has been copied into slot `i`. -/
def took (s : State) (pos : vma) (i : Nat) : State where
  mm :=
    { s.mm with
      vmas := update s.mm.vmas i (copyOf pos (s.mm.vmas i))
      used := update s.mm.used i true
      head_vma := i :: s.mm.head_vma
      heapvma := if pos.type = .VMA_HEAP then some i else s.mm.heapvma }
  f_count := counted s.f_count pos

/-- The file of a file's area is there and counted. -/
def FileHeld (f_count : Nat → Nat) (v : vma) : Prop :=
  v.type = .VMA_FILE → ∃ fp, v.vm_file = some fp ∧ 1 ≤ f_count fp.id

/-- What the mapping functions want of an area. -/
structure Accepted (s : State) (v : vma) : Prop where
  aligned : v.startva % PGSIZE = 0
  allowed : ¬ Refused v
  held : FileHeld s.f_count v
  clear : ∀ j ∈ s.mm.head_vma, endpointIn (asMapped v) (s.mm.vmas j) = false

/-- An area is turned down before anything is done: it is refused, or no slot is free. -/
def Declined (used : Nat → Bool) (v : vma) : Prop :=
  Refused v ∨ (freeSlots used = [] ∧ (v.type = .VMA_FILE → v.vm_file ≠ none))

section

variable {mm mm' : mm_struct} {s s' : State} {v : vma}

theorem alloc_vma_eq : alloc_vma mm =
    (freeSlots mm.used).head?.map fun i => (i, { mm with used := update mm.used i true }) := by
  rw [alloc_vma, findFree_slots]

/-- The slots of the areas are in use. -/
def Owned (mm : mm_struct) : Prop := ∀ j ∈ mm.head_vma, mm.used j = true

theorem Owned.ne (h : Owned mm) {i j : Nat} (hi : mm.used i = false) (hj : j ∈ mm.head_vma) : j ≠ i := by
  rintro rfl
  rw [h j hj] at hi
  cases hi

theorem Owned.took (h : Owned s.mm) (i : Nat) : Owned (took s v i).mm := by
  intro j hj
  rcases List.mem_cons.mp hj with rfl | hj
  · exact update_self _ _ _
  by_cases hji : j = i
  · subst hji
    exact update_self _ _ _
  · exact (update_of_ne hji _ _).trans (h j hj)

theorem check_new (hown : Owned mm) {i : Nat} (hi : mm.used i = false) (w : vma) :
    check_vma_intersect ({ mm with used := update mm.used i true }.set i w) w = false ↔
      ∀ j ∈ mm.head_vma, endpointIn w (mm.vmas j) = false := by
  simp only [check_vma_intersect, mm_struct.set, List.any_eq_false, Bool.not_eq_true]
  constructor
  · intro h j hj
    have hj' := h j hj
    rwa [update_of_ne (hown.ne hi hj)] at hj'
  · intro h j hj
    rw [update_of_ne (hown.ne hi hj)]
    exact h j hj

/-- The address space with a new area at the head of its list. -/
def withArea (mm : mm_struct) (i : Nat) (w : vma) : mm_struct :=
  { mm with
    vmas := update mm.vmas i w, used := update mm.used i true, head_vma := i :: mm.head_vma }

theorem withArea_self (i : Nat) (w : vma) : (withArea mm i w).vmas i = w := update_self _ _ _

theorem withArea_set (i : Nat) (w w' : vma) : (withArea mm i w).set i w' = withArea mm i w' := by
  simp only [withArea, mm_struct.set, update_idem]

/-- The slot of an area as `vma_map_range` leaves it. -/
def mappedIn (mm : mm_struct) (i va len perm : Nat) (type : vmatype) : vma :=
  { mm.vmas i with startva := PGROUNDDOWN va, size := mapSize len, perm := perm, type := type }

theorem vma_map_range_none {va len perm : Nat} {type : vmatype} (h : freeSlots mm.used = []) :
    vma_map_range mm va len perm type = .ok (mm, none) := by
  rw [vma_map_range, alloc_vma_eq, h]
  rfl

theorem vma_map_range_some (hown : Owned mm) {va len perm i : Nat} {type : vmatype} {rest : List Nat}
    (h : freeSlots mm.used = i :: rest) {r : mm_struct × Option Nat} :
    vma_map_range mm va len perm type = .ok r ↔
      va % PGSIZE = 0 ∧ (∀ j ∈ mm.head_vma, endpointIn (mappedIn mm i va len perm type) (mm.vmas j) = false) ∧
        r = (withArea mm i (mappedIn mm i va len perm type), some i) := by
  have hfree : mm.used i = false := free_of_mem (h ▸ List.mem_cons_self)
  rw [vma_map_range, alloc_vma_eq, h]
  dsimp only [List.head?_cons, Option.map_some]
  by_cases hva : va % PGSIZE = 0
  · rw [if_neg (not_not.mpr hva), ← check_new hown hfree]
    have hself : ({ mm with used := update mm.used i true }.set i (mappedIn mm i va len perm type)).vmas i
        = mappedIn mm i va len perm type := update_self _ _ _
    show (add_vma_to_vmspace ({ mm with used := update mm.used i true }.set i
      (mappedIn mm i va len perm type)) i >>= _) = _ ↔ _
    rw [add_vma_to_vmspace, hself]
    cases hcheck : check_vma_intersect ({ mm with used := update mm.used i true }.set i
      (mappedIn mm i va len perm type)) (mappedIn mm i va len perm type) with
    | true =>
      constructor
      · exact fun h => by cases h
      · exact fun h => by cases h.2.1
    | false =>
      constructor
      · exact fun h => ⟨hva, rfl, (Except.ok.inj h).symm⟩
      · rintro ⟨-, -, rfl⟩
        rfl
  · rw [if_pos hva]
    constructor
    · exact fun h => by cases h
    · exact fun h => absurd h.1 hva

theorem refused_iff {fp : File} (htype : v.type = .VMA_FILE) (hfp : v.vm_file = some fp) :
    Refused v ↔ F_WRITEABLE fp = false ∧ v.perm &&& PERM_WRITE ≠ 0 ∧ v.perm &&& PERM_SHARED ≠ 0 := by
  constructor
  · rintro ⟨-, fp', hfp', h⟩
    rw [hfp] at hfp'
    cases hfp'
    exact h
  · exact fun h => ⟨htype, fp, hfp, h⟩

theorem copyTurn_declined (h : Declined s.mm.used v) : copyTurn s v = .ok (s, -1) := by
  rcases h with hrefused | ⟨hnone, hfile⟩
  · obtain ⟨htype, fp, hfp, h⟩ := hrefused
    rw [copyTurn, if_pos htype, hfp]
    dsimp only
    rw [copyFile, vma_map_file, if_pos h]
    rfl
  · by_cases htype : v.type = .VMA_FILE
    · obtain ⟨fp, hfp⟩ := Option.ne_none_iff_exists'.mp (hfile htype)
      rw [copyTurn, if_pos htype, hfp]
      dsimp only
      rw [copyFile, vma_map_file, vma_map_range_none hnone]
      split <;> rfl
    · rw [copyTurn, if_neg htype, vma_map, vma_map_range_none hnone]
      rfl

theorem copyTurn_accepted (hown : Owned s.mm) {i : Nat} {rest : List Nat} (hfree : freeSlots s.mm.used = i :: rest)
    (h : Accepted s v) : copyTurn s v = .ok (took s v i, 0) := by
  have hrange : vma_map_range s.mm v.startva v.size v.perm v.type =
      .ok (withArea s.mm i (mappedIn s.mm i v.startva v.size v.perm v.type), some i) :=
    (vma_map_range_some hown hfree).mpr ⟨h.aligned, h.clear, rfl⟩
  by_cases htype : v.type = .VMA_FILE
  · obtain ⟨fp, hfp, hcount⟩ := h.held htype
    have hallowed := mt (refused_iff htype hfp).mpr h.allowed
    rw [copyTurn, if_pos htype, hfp]
    dsimp only
    rw [copyFile, vma_map_file, if_neg hallowed, hrange]
    show (fat32_filedup s.f_count fp >>= _) = _
    rw [fat32_filedup, if_neg (by omega)]
    show Except.ok (State.mk ((withArea s.mm i _).set i
      { (withArea s.mm i _).vmas i with offset := v.offset, vm_file := some fp }) _, (0 : Int)) = _
    rw [withArea_self, withArea_set]
    simp only [took, withArea, counted, copyOf, asMapped, mappedIn, htype, hfp, if_true, reduceCtorEq, if_false]
  · rw [copyTurn, if_neg htype, vma_map, hrange]
    simp only [took, counted, copyOf, if_neg htype]
    by_cases hheap : v.type = .VMA_HEAP
    · rw [if_pos hheap]
      show Except.ok (State.mk (if v.type = .VMA_HEAP then _ else _) _, (0 : Int)) = _
      rw [if_pos hheap]
      rfl
    rw [if_neg hheap]
    show Except.ok (State.mk (if v.type = .VMA_HEAP then _ else _) _, (0 : Int)) = _
    rw [if_neg hheap]
    rfl

theorem range_checked (hown : Owned s.mm) {i : Nat} {rest : List Nat} (hfree : freeSlots s.mm.used = i :: rest)
    {r : mm_struct × Option Nat} (h : vma_map_range s.mm v.startva v.size v.perm v.type = .ok r) :
    v.startva % PGSIZE = 0 ∧ ∀ j ∈ s.mm.head_vma, endpointIn (asMapped v) (s.mm.vmas j) = false := by
  obtain ⟨haligned, hclear, -⟩ := (vma_map_range_some hown hfree).mp h
  exact ⟨haligned, hclear⟩

/-- A turn that returns at a free slot, for an area that is not refused, has found the area acceptable. -/
theorem accepted_of_ok (hown : Owned s.mm) {i : Nat} {rest : List Nat} (hfree : freeSlots s.mm.used = i :: rest)
    (hallowed : ¬ Refused v) {r : State × Int} (h : copyTurn s v = .ok r) : Accepted s v := by
  rw [copyTurn] at h
  by_cases htype : v.type = .VMA_FILE
  · rw [if_pos htype] at h
    cases hfp : v.vm_file with
    | none =>
      rw [hfp] at h
      cases h
    | some fp =>
      rw [hfp] at h
      dsimp only at h
      rw [copyFile, vma_map_file, if_neg (mt (refused_iff htype hfp).mpr hallowed)] at h
      cases hrange : vma_map_range s.mm v.startva v.size v.perm v.type with
      | error e =>
        rw [hrange] at h
        cases h
      | ok m =>
        obtain ⟨haligned, hclear⟩ := range_checked hown hfree hrange
        obtain ⟨-, -, rfl⟩ := (vma_map_range_some hown hfree).mp hrange
        rw [hrange] at h
        refine ⟨haligned, hallowed, fun _ => ⟨fp, hfp, ?_⟩, hclear⟩
        -- a count below 1 stops the duplication
        by_contra hcount
        change (fat32_filedup s.f_count fp >>= _) = _ at h
        rw [fat32_filedup, if_pos (by omega)] at h
        cases h
  · rw [if_neg htype, vma_map] at h
    cases hrange : vma_map_range s.mm v.startva v.size v.perm v.type with
    | error e =>
      rw [hrange] at h
      cases h
    | ok m =>
      obtain ⟨haligned, hclear⟩ := range_checked hown hfree hrange
      exact ⟨haligned, hallowed, fun hfile => absurd hfile htype, hclear⟩

/-- A turn does nothing, or it takes the first free slot. -/
theorem copyTurn_cases (hown : Owned s.mm) {r : Int} (h : copyTurn s v = .ok (s', r)) :
    (Declined s.mm.used v ∧ s' = s ∧ r = -1) ∨
      ∃ i rest, freeSlots s.mm.used = i :: rest ∧ Accepted s v ∧ s' = took s v i ∧ r = 0 := by
  by_cases hdeclined : Declined s.mm.used v
  · rw [copyTurn_declined hdeclined] at h
    cases h
    exact .inl ⟨hdeclined, rfl, rfl⟩
  have hallowed : ¬ Refused v := fun hr => hdeclined (.inl hr)
  cases hfree : freeSlots s.mm.used with
  | nil =>
    -- the only turn that is not declined here is the one that reads a null pointer
    refine absurd (.inr ⟨hfree, ?_⟩) hdeclined
    intro htype hnone
    rw [copyTurn, if_pos htype, hnone] at h
    cases h
  | cons i rest =>
    have haccepted := accepted_of_ok hown hfree hallowed h
    rw [copyTurn_accepted hown hfree haccepted] at h
    cases h
    exact .inr ⟨i, rest, rfl, haccepted, rfl, rfl⟩

end

/-! ## All areas -/

/-- The state once the areas have been copied into the slots, one each. -/
def copyAll : List vma → List Nat → State → State
  | v :: ps, i :: slots, s => copyAll ps slots (took s v i)
  | _, _, s => s

/-- What the mapping functions want of the areas that are left. -/
structure Fits (ps : List vma) (s : State) : Prop where
  slots : ps.length ≤ (freeSlots s.mm.used).length
  aligned : ∀ v ∈ ps, v.startva % PGSIZE = 0
  allowed : ∀ v ∈ ps, ¬ Refused v
  held : ∀ v ∈ ps, FileHeld s.f_count v
  apart : ps.Pairwise fun v w => endpointIn (asMapped w) (asMapped v) = false
  clear : ∀ v ∈ ps, ∀ j ∈ s.mm.head_vma, endpointIn (asMapped v) (s.mm.vmas j) = false

section

variable {s s' : State} {v : vma} {ps : List vma}

theorem endpointIn_copyOf (w v old : vma) : endpointIn w (copyOf v old) = endpointIn w (asMapped v) := by
  unfold copyOf
  split <;> rfl

theorem counted_pos {f_count : Nat → Nat} (hv : FileHeld f_count v) (id : Nat) :
    1 ≤ counted f_count v id ↔ 1 ≤ f_count id := by
  by_cases htype : v.type = .VMA_FILE
  · obtain ⟨fp, hfp, hcount⟩ := hv htype
    rw [counted, if_pos htype, hfp]
    dsimp only
    rcases eq_or_ne id fp.id with rfl | hid
    · rw [update_self]
      omega
    · rw [update_of_ne hid]
  · rw [counted, if_neg htype]

theorem fileHeld_took (hv : FileHeld s.f_count v) (i : Nat) (w : vma) :
    FileHeld (took s v i).f_count w ↔ FileHeld s.f_count w := by
  simp only [FileHeld, took, counted_pos hv]

theorem clear_took (hown : Owned s.mm) {i : Nat} (hi : s.mm.used i = false) (w : vma) :
    (∀ j ∈ (took s v i).mm.head_vma, endpointIn w ((took s v i).mm.vmas j) = false) ↔
      endpointIn w (asMapped v) = false ∧ ∀ j ∈ s.mm.head_vma, endpointIn w (s.mm.vmas j) = false := by
  simp only [took, List.forall_mem_cons, update_self, endpointIn_copyOf]
  refine and_congr_right fun _ => forall₂_congr fun j hj => ?_
  rw [update_of_ne (hown.ne hi hj)]

theorem freeSlots_took {i : Nat} {rest : List Nat} (hfree : freeSlots s.mm.used = i :: rest) :
    freeSlots (took s v i).mm.used = rest := freeSlots_take hfree

theorem fits_cons (hown : Owned s.mm) {i : Nat} {rest : List Nat} (hfree : freeSlots s.mm.used = i :: rest) :
    Fits (v :: ps) s ↔ Accepted s v ∧ Fits ps (took s v i) := by
  have hi : s.mm.used i = false := free_of_mem (hfree ▸ List.mem_cons_self)
  constructor
  · rintro ⟨hslots, haligned, hallowed, hheld, hapart, hclear⟩
    rw [List.forall_mem_cons] at haligned hallowed hheld hclear
    rw [List.pairwise_cons] at hapart
    have haccepted : Accepted s v := ⟨haligned.1, hallowed.1, hheld.1, hclear.1⟩
    refine ⟨haccepted, ?_, haligned.2, hallowed.2, ?_, hapart.2, ?_⟩
    · rw [freeSlots_took hfree]
      rw [hfree] at hslots
      simpa using hslots
    · exact fun w hw => (fileHeld_took hheld.1 i w).mpr (hheld.2 w hw)
    · exact fun w hw => (clear_took hown hi (asMapped w)).mpr ⟨hapart.1 w hw, hclear.2 w hw⟩
  · rintro ⟨haccepted, hslots, haligned, hallowed, hheld, hapart, hclear⟩
    rw [freeSlots_took hfree] at hslots
    refine ⟨?_, ?_, ?_, ?_, ?_, ?_⟩
    · rw [hfree]
      simpa using hslots
    · exact List.forall_mem_cons.mpr ⟨haccepted.aligned, haligned⟩
    · exact List.forall_mem_cons.mpr ⟨haccepted.allowed, hallowed⟩
    · exact List.forall_mem_cons.mpr
        ⟨haccepted.held, fun w hw => (fileHeld_took haccepted.held i w).mp (hheld w hw)⟩
    · exact List.pairwise_cons.mpr
        ⟨fun w hw => ((clear_took hown hi (asMapped w)).mp (hclear w hw)).1, hapart⟩
    · exact List.forall_mem_cons.mpr
        ⟨haccepted.clear, fun w hw => ((clear_took hown hi (asMapped w)).mp (hclear w hw)).2⟩

/-- **`vmacopy` succeeds exactly when every area fits**, and then each area is in the next free slot. -/
theorem vmacopy_true (hown : Owned s.mm) :
    vmacopy ps s = .ok (s', true) ↔ Fits ps s ∧ s' = copyAll ps (freeSlots s.mm.used) s := by
  induction ps generalizing s with
  | nil =>
    constructor
    · intro h
      cases h
      refine ⟨⟨Nat.zero_le _, ?_, ?_, ?_, List.Pairwise.nil, ?_⟩, rfl⟩
      all_goals exact fun w hw => (not_mem_nil hw).elim
    · rintro ⟨-, rfl⟩
      rfl
  | cons v ps ih =>
    rw [vmacopy]
    constructor
    · intro h
      obtain ⟨⟨s₁, r⟩, hturn, hrest⟩ := ok_of_bind h
      rcases copyTurn_cases hown hturn with ⟨-, rfl, rfl⟩ | ⟨i, rest, hfree, haccepted, rfl, rfl⟩
      · cases hrest
      · obtain ⟨hfits, rfl⟩ := (ih (hown.took i)).mp hrest
        refine ⟨(fits_cons hown hfree).mpr ⟨haccepted, hfits⟩, ?_⟩
        rw [freeSlots_took hfree, hfree, copyAll]
    · rintro ⟨hfits, heq⟩
      have hslots := hfits.slots
      cases hfree : freeSlots s.mm.used with
      | nil =>
        rw [hfree, List.length_cons, List.length_nil] at hslots
        omega
      | cons i rest =>
        obtain ⟨haccepted, hfits'⟩ := (fits_cons hown hfree).mp hfits
        rw [hfree, copyAll, ← freeSlots_took (v := v) hfree] at heq
        rw [copyTurn_accepted hown hfree haccepted]
        exact (ih (hown.took i)).mpr ⟨hfits', heq⟩

theorem head_suffix (hown : Owned s.mm) {ok : Bool} (h : vmacopy ps s = .ok (s', ok)) :
    s.mm.head_vma <:+ s'.mm.head_vma := by
  induction ps generalizing s with
  | nil =>
    cases h
    exact List.suffix_refl _
  | cons v ps ih =>
    rw [vmacopy] at h
    obtain ⟨⟨s₁, r⟩, hturn, hrest⟩ := ok_of_bind h
    rcases copyTurn_cases hown hturn with ⟨-, rfl, rfl⟩ | ⟨i, rest, hfree, haccepted, rfl, rfl⟩
    · cases hrest
      exact List.suffix_refl _
    · exact (List.suffix_cons i _).trans (ih (hown.took i) hrest)

theorem vmacopy_false (hown : Owned s.mm) (h : vmacopy ps s = .ok (s', false)) :
    s'.mm.head_vma ≠ [] ∨ ∃ v rest, ps = v :: rest ∧ Declined s.mm.used v := by
  cases ps with
  | nil => cases h
  | cons v ps =>
    rw [vmacopy] at h
    obtain ⟨⟨s₁, r⟩, hturn, hrest⟩ := ok_of_bind h
    rcases copyTurn_cases hown hturn with ⟨hdeclined, rfl, rfl⟩ | ⟨i, rest, hfree, haccepted, rfl, rfl⟩
    · exact .inr ⟨v, ps, rfl, hdeclined⟩
    refine .inl fun hnil => ?_
    have hsuffix := head_suffix (hown.took i) hrest
    rw [hnil, List.suffix_nil] at hsuffix
    cases hsuffix

theorem vmacopy_declined (h : Declined s.mm.used v) (ps : List vma) : vmacopy (v :: ps) s = .ok (s, false) := by
  rw [vmacopy, copyTurn_declined h]
  rfl

end

/-! ## What a copy has made -/

/-- A file's area that holds a reference to file `id`. -/
def holds (id : Nat) (v : vma) : Bool := v.type = .VMA_FILE && v.vm_file.map File.id = some id

/-- The last heap area of a list of areas. -/
def lastHeap (vmas : Nat → vma) (l : List Nat) : Option Nat := l.reverse.find? fun i => (vmas i).type = .VMA_HEAP

section

variable {s : State} {ps : List vma} {slots : List Nat}

theorem copyAll_other {j : Nat} (hj : j ∉ slots) : (copyAll ps slots s).mm.vmas j = s.mm.vmas j := by
  induction ps generalizing slots s with
  | nil => rfl
  | cons v ps ih =>
    cases slots with
    | nil => rfl
    | cons i slots =>
      rw [List.mem_cons, not_or] at hj
      exact (ih hj.2).trans (update_of_ne hj.1 _ _)

theorem copyAll_slot (hnodup : slots.Nodup) {p : vma × Nat} (hp : p ∈ ps.zip slots) :
    (copyAll ps slots s).mm.vmas p.2 = copyOf p.1 (s.mm.vmas p.2) := by
  induction ps generalizing slots s with
  | nil => exact (not_mem_nil hp).elim
  | cons v ps ih =>
    cases slots with
    | nil => exact (not_mem_nil hp).elim
    | cons i slots =>
      rw [List.nodup_cons] at hnodup
      rcases List.mem_cons.mp hp with rfl | hp
      · exact (copyAll_other hnodup.1).trans (update_self _ _ _)
      · have hne : p.2 ≠ i := fun h => hnodup.1 (h ▸ (of_mem_zip hp).2)
        rw [copyAll, ih hnodup.2 hp]
        exact congrArg (copyOf p.1) (update_of_ne hne _ _)

theorem copyAll_head (hlen : ps.length ≤ slots.length) :
    (copyAll ps slots s).mm.head_vma = (slots.take ps.length).reverse ++ s.mm.head_vma := by
  induction ps generalizing slots s with
  | nil => rfl
  | cons v ps ih =>
    cases slots with
    | nil => exact absurd hlen (Nat.not_succ_le_zero _)
    | cons i slots =>
      rw [copyAll, ih (Nat.le_of_succ_le_succ hlen), List.length_cons, List.take_succ_cons, List.reverse_cons,
        List.append_assoc]
      rfl

theorem counted_eq {f_count : Nat → Nat} {v : vma} (id : Nat) :
    counted f_count v id = f_count id + if holds id v then 1 else 0 := by
  by_cases htype : v.type = .VMA_FILE
  · cases hfp : v.vm_file with
    | none => simp [counted, holds, htype, hfp]
    | some fp =>
      rw [counted, if_pos htype, hfp]
      dsimp only
      rcases eq_or_ne id fp.id with rfl | hid
      · simp [holds, htype, hfp]
      · simp [holds, htype, hfp, update_of_ne hid, Ne.symm hid]
  · simp [counted, holds, htype]

theorem copyAll_count (hlen : ps.length ≤ slots.length) (id : Nat) :
    (copyAll ps slots s).f_count id = s.f_count id + ps.countP (holds id) := by
  induction ps generalizing slots s with
  | nil => rfl
  | cons v ps ih =>
    cases slots with
    | nil => exact absurd hlen (Nat.not_succ_le_zero _)
    | cons i slots =>
      have hfirst : (took s v i).f_count id = s.f_count id + if holds id v then 1 else 0 := counted_eq id
      rw [copyAll, ih (Nat.le_of_succ_le_succ hlen), hfirst, List.countP_cons]
      omega

/-- The heap of the new address space is where its last heap area went. -/
theorem copyAll_heap {vmas : Nat → vma} {l : List Nat} (hlen : l.length ≤ slots.length) :
    (lastHeap vmas l = none ∧ (copyAll (l.map vmas) slots s).mm.heapvma = s.mm.heapvma) ∨
      ∃ h j, lastHeap vmas l = some h ∧ (h, j) ∈ l.zip slots ∧
        (copyAll (l.map vmas) slots s).mm.heapvma = some j := by
  induction l generalizing slots s with
  | nil => exact .inl ⟨rfl, rfl⟩
  | cons i l ih =>
    cases slots with
    | nil => exact absurd hlen (Nat.not_succ_le_zero _)
    | cons j slots =>
      have hlast : lastHeap vmas (i :: l) =
          (lastHeap vmas l).or (if (vmas i).type = .VMA_HEAP then some i else none) := by
        simp only [lastHeap, List.reverse_cons, List.find?_append, List.find?_cons, List.find?_nil]
        congr 1
        by_cases htype : (vmas i).type = .VMA_HEAP <;> simp [htype]
      rw [List.map_cons, copyAll, hlast, List.zip_cons_cons]
      rcases ih (s := took s (vmas i) j) (Nat.le_of_succ_le_succ hlen) with ⟨hnone, hheap⟩ | ⟨h, k, hsome, hk, hheap⟩
      · rw [hnone, hheap]
        -- no heap area follows, so this one decides
        by_cases htype : (vmas i).type = .VMA_HEAP
        · exact .inr ⟨i, j, by rw [if_pos htype]; rfl, List.mem_cons_self, if_pos htype⟩
        · exact .inl ⟨by rw [if_neg htype]; rfl, if_neg htype⟩
      · refine .inr ⟨h, k, ?_, List.mem_cons_of_mem _ hk, hheap⟩
        rw [hsome]
        rfl

end

/-! ## The law -/

/-- The new address space is the parent's: area by area the same records, the heap where the parent has it, and
one reference more for each file's area. -/
structure Copied (parent : mm_struct) (f_count : Nat → Nat) (s : State) : Prop where
  records : List.Forall₂ (fun i j => s.mm.vmas j = parent.vmas i) parent.head_vma s.mm.head_vma.reverse
  no_heap : parent.heapvma = none → s.mm.heapvma = none
  heap : ∀ h, parent.heapvma = some h →
    ∃ j, s.mm.heapvma = some j ∧ (h, j) ∈ parent.head_vma.zip s.mm.head_vma.reverse
  refs : ∀ id, s.f_count id = f_count id + (areas parent).countP (holds id)

/-- `vmacopy` comes back, with the parent's areas or with nothing. -/
def CopyLaw (parent : mm_struct) (f_count : Nat → Nat) : Prop :=
  ∃ s ok, vmacopy (areas parent) (blank parent f_count) = .ok (s, ok) ∧
    (ok = true → Copied parent f_count s) ∧ (ok = false → s.mm.head_vma = [] ∧ s.f_count = f_count)

/-- Whole pages, and at least one. -/
structure Whole (v : vma) : Prop where
  start_aligned : v.startva % PGSIZE = 0
  size_pos : 0 < v.size
  size_aligned : v.size % PGSIZE = 0
  size_lt : v.size < 2 ^ 64

/-- The areas come out as they are when they are mapped again, into the slots that are free. -/
structure Reproducible (parent : mm_struct) (f_count : Nat → Nat) : Prop where
  slots : (areas parent).length ≤ (freeSlots parent.used).length
  whole : ∀ v ∈ areas parent, Whole v
  allowed : ∀ v ∈ areas parent, ¬ Refused v
  held : ∀ v ∈ areas parent, FileHeld f_count v
  apart : (areas parent).Pairwise fun v w => endpointIn w v = false
  /-- The slot of an area that is no file's already has the area's `offset` and `vm_file`. -/
  stale : ∀ p ∈ parent.head_vma.zip (freeSlots parent.used), (parent.vmas p.1).type ≠ .VMA_FILE →
    (parent.vmas p.2).offset = (parent.vmas p.1).offset ∧ (parent.vmas p.2).vm_file = (parent.vmas p.1).vm_file
  heap : parent.heapvma = lastHeap parent.vmas parent.head_vma

section

variable {parent : mm_struct} {f_count : Nat → Nat}

theorem mapSize_eq_iff (size : Nat) : mapSize size = size ↔ 0 < size ∧ size % PGSIZE = 0 ∧ size < 2 ^ 64 := by
  rw [mapSize]
  by_cases hsmall : size < PGSIZE
  · rw [if_pos hsmall]
    simp only [PGROUNDUP, roundUp, PGSIZE] at hsmall ⊢
    omega
  · rw [if_neg hsmall]
    simp only [PGROUNDUP, roundUp, PGSIZE] at hsmall ⊢
    omega

theorem asMapped_eq_iff (v : vma) : asMapped v = v ↔ Whole v := by
  constructor
  · intro h
    have hstart : PGROUNDDOWN v.startva = v.startva := congrArg vma.startva h
    have hsize : mapSize v.size = v.size := congrArg vma.size h
    obtain ⟨hpos, haligned, hlt⟩ := (mapSize_eq_iff v.size).mp hsize
    refine ⟨?_, hpos, haligned, hlt⟩
    rw [← hstart]
    exact Nat.mul_mod_left _ _
  · rintro ⟨hstart, hpos, haligned, hlt⟩
    have hdown : PGROUNDDOWN v.startva = v.startva := Nat.div_mul_cancel (Nat.dvd_of_mod_eq_zero hstart)
    rw [asMapped, hdown, (mapSize_eq_iff v.size).mpr ⟨hpos, haligned, hlt⟩]

theorem copyOf_eq_iff (v old : vma) :
    copyOf v old = v ↔ Whole v ∧ (v.type ≠ .VMA_FILE → old.offset = v.offset ∧ old.vm_file = v.vm_file) := by
  by_cases htype : v.type = .VMA_FILE
  · rw [copyOf, if_pos htype, asMapped_eq_iff]
    exact ⟨fun h => ⟨h, fun hne => absurd htype hne⟩, fun h => h.1⟩
  rw [copyOf, if_neg htype, ← asMapped_eq_iff]
  constructor
  · intro h
    have hoffset := congrArg vma.offset h
    have hfile := congrArg vma.vm_file h
    dsimp only at hoffset hfile
    refine ⟨?_, fun _ => ⟨hoffset, hfile⟩⟩
    rw [hoffset, hfile] at h
    exact h
  · rintro ⟨hmapped, hold⟩
    obtain ⟨hoffset, hfile⟩ := hold htype
    rw [hoffset, hfile]
    exact hmapped

theorem zip_take (l slots : List Nat) : l.zip (slots.take l.length) = l.zip slots := by
  induction l generalizing slots with
  | nil => rfl
  | cons i l ih =>
    cases slots with
    | nil => rfl
    | cons j slots => rw [List.length_cons, List.take_succ_cons, List.zip_cons_cons, List.zip_cons_cons, ih]

theorem zip_left_unique {l slots : List Nat} (hnodup : slots.Nodup) {h h' j : Nat} (hj : (h, j) ∈ l.zip slots)
    (hj' : (h', j) ∈ l.zip slots) : h = h' := by
  induction l generalizing slots with
  | nil => exact (not_mem_nil hj).elim
  | cons i l ih =>
    cases slots with
    | nil => exact (not_mem_nil hj).elim
    | cons k slots =>
      rw [List.nodup_cons] at hnodup
      rw [List.zip_cons_cons, List.mem_cons] at hj hj'
      rcases hj with hj | hj
      · obtain ⟨rfl, rfl⟩ := Prod.mk.inj hj
        rcases hj' with hj' | hj'
        · exact (Prod.mk.inj hj').1.symm
        · exact absurd (of_mem_zip hj').2 hnodup.1
      rcases hj' with hj' | hj'
      · obtain ⟨rfl, rfl⟩ := Prod.mk.inj hj'
        exact absurd (of_mem_zip hj).2 hnodup.1
      · exact ih hnodup.2 hj hj'

theorem areas_length : (areas parent).length = parent.head_vma.length := List.length_map ..

theorem blank_owned : Owned (blank parent f_count).mm := fun _ hj => (not_mem_nil hj).elim

theorem copy_reverse (hlen : (areas parent).length ≤ (freeSlots parent.used).length) :
    (copyAll (areas parent) (freeSlots parent.used) (blank parent f_count)).mm.head_vma.reverse =
      (freeSlots parent.used).take parent.head_vma.length := by
  rw [copyAll_head hlen, List.reverse_append, List.reverse_reverse, areas_length]
  rfl

theorem copied_areas_iff (hlen : (areas parent).length ≤ (freeSlots parent.used).length) :
    List.Forall₂ (fun i j =>
        (copyAll (areas parent) (freeSlots parent.used) (blank parent f_count)).mm.vmas j = parent.vmas i)
      parent.head_vma
      (copyAll (areas parent) (freeSlots parent.used) (blank parent f_count)).mm.head_vma.reverse ↔
    ∀ p ∈ parent.head_vma.zip (freeSlots parent.used),
      copyOf (parent.vmas p.1) (parent.vmas p.2) = parent.vmas p.1 := by
  have hslot : ∀ p ∈ parent.head_vma.zip (freeSlots parent.used),
      (copyAll (areas parent) (freeSlots parent.used) (blank parent f_count)).mm.vmas p.2 =
        copyOf (parent.vmas p.1) (parent.vmas p.2) := by
    intro p hp
    have hmem : (parent.vmas p.1, p.2) ∈ (areas parent).zip (freeSlots parent.used) := by
      rw [areas, List.zip_map_left]
      exact List.mem_map_of_mem hp
    exact copyAll_slot (freeSlots_nodup _) hmem
  rw [List.forall₂_iff_zip, copy_reverse hlen, zip_take]
  constructor
  · rintro ⟨-, h⟩ p hp
    rw [← hslot p hp]
    exact h hp
  intro h
  refine ⟨?_, fun {i j} hp => (hslot (i, j) hp).trans (h (i, j) hp)⟩
  rw [areas_length] at hlen
  rw [List.length_take, Nat.min_eq_left hlen]

theorem forall_areas_iff (hlen : (areas parent).length ≤ (freeSlots parent.used).length) (P : vma → Prop) :
    (∀ v ∈ areas parent, P v) ↔ ∀ p ∈ parent.head_vma.zip (freeSlots parent.used), P (parent.vmas p.1) := by
  rw [areas_length] at hlen
  constructor
  · exact fun h p hp => h _ (List.mem_map_of_mem (of_mem_zip hp).1)
  intro h v hv
  obtain ⟨i, hi, rfl⟩ := List.mem_map.mp hv
  rw [← List.map_fst_zip hlen] at hi
  obtain ⟨p, hp, rfl⟩ := List.mem_map.mp hi
  exact h p hp

theorem copied_heap_iff (hlen : (areas parent).length ≤ (freeSlots parent.used).length) {s : State}
    (hs : s = copyAll (areas parent) (freeSlots parent.used) (blank parent f_count)) :
    ((parent.heapvma = none → s.mm.heapvma = none) ∧ ∀ h, parent.heapvma = some h →
        ∃ j, s.mm.heapvma = some j ∧ (h, j) ∈ parent.head_vma.zip s.mm.head_vma.reverse) ↔
      parent.heapvma = lastHeap parent.vmas parent.head_vma := by
  have hrev : parent.head_vma.zip s.mm.head_vma.reverse = parent.head_vma.zip (freeSlots parent.used) := by
    rw [hs, copy_reverse hlen, zip_take]
  rw [hrev]
  have hlen' := hlen
  rw [areas_length] at hlen'
  rcases @copyAll_heap (blank parent f_count) (freeSlots parent.used) parent.vmas _ hlen' with
    ⟨hnone, hheap⟩ | ⟨h, j, hsome, hj, hheap⟩
  · have hheap' : s.mm.heapvma = none := by rw [hs]; exact hheap
    rw [hnone, hheap']
    constructor
    · rintro ⟨-, h⟩
      refine Option.eq_none_iff_forall_ne_some.mpr fun i hi => ?_
      obtain ⟨j, hj, -⟩ := h i hi
      cases hj
    intro h
    refine ⟨fun _ => rfl, fun i hi => ?_⟩
    rw [h] at hi
    cases hi
  · have hheap' : s.mm.heapvma = some j := by rw [hs]; exact hheap
    rw [hsome, hheap']
    constructor
    · rintro ⟨hn, h'⟩
      cases hparent : parent.heapvma with
      | none => cases hn hparent
      | some i =>
        obtain ⟨k, hk, hik⟩ := h' i hparent
        cases hk
        rw [zip_left_unique (freeSlots_nodup _) hik hj]
    · intro hparent
      refine ⟨fun hn => ?_, fun i hi => ⟨j, rfl, ?_⟩⟩
      · rw [hn] at hparent
        cases hparent
      · rw [hi] at hparent
        cases hparent
        exact hj

/-- A success is the parent's list exactly for the areas that come out as they are. -/
theorem success_iff : (∃ s, vmacopy (areas parent) (blank parent f_count) = .ok (s, true) ∧ Copied parent f_count s) ↔
    Reproducible parent f_count := by
  constructor
  · rintro ⟨s, hcopy, hareas, hnone, hheap, -⟩
    obtain ⟨hfits, hs⟩ := (vmacopy_true blank_owned).mp hcopy
    change s = copyAll (areas parent) (freeSlots parent.used) (blank parent f_count) at hs
    have hlen : (areas parent).length ≤ (freeSlots parent.used).length := hfits.slots
    rw [hs] at hareas
    have hcopies := (copied_areas_iff hlen).mp hareas
    have hwhole : ∀ v ∈ areas parent, Whole v := by
      rw [forall_areas_iff hlen]
      exact fun p hp => ((copyOf_eq_iff _ _).mp (hcopies p hp)).1
    refine ⟨hlen, hwhole, hfits.allowed, hfits.held, ?_, ?_, (copied_heap_iff hlen hs).mp ⟨hnone, hheap⟩⟩
    · refine hfits.apart.imp_of_mem fun hv hw h => ?_
      rwa [(asMapped_eq_iff _).mpr (hwhole _ hv), (asMapped_eq_iff _).mpr (hwhole _ hw)] at h
    · exact fun p hp => ((copyOf_eq_iff _ _).mp (hcopies p hp)).2
  · rintro ⟨hlen, hwhole, hallowed, hheld, hapart, hstale, hheap⟩
    have hfits : Fits (areas parent) (blank parent f_count) := by
      refine ⟨hlen, fun v hv => (hwhole v hv).start_aligned, hallowed, hheld, ?_, ?_⟩
      · refine hapart.imp_of_mem fun hv hw h => ?_
        rwa [(asMapped_eq_iff _).mpr (hwhole _ hv), (asMapped_eq_iff _).mpr (hwhole _ hw)]
      · exact fun v _ j hj => (not_mem_nil hj).elim
    have hcopies : ∀ p ∈ parent.head_vma.zip (freeSlots parent.used),
        copyOf (parent.vmas p.1) (parent.vmas p.2) = parent.vmas p.1 := fun p hp =>
      (copyOf_eq_iff _ _).mpr ⟨(forall_areas_iff hlen _).mp hwhole p hp, hstale p hp⟩
    obtain ⟨hnone, hsome⟩ := (@copied_heap_iff parent f_count hlen _ rfl).mpr hheap
    exact ⟨_, (vmacopy_true blank_owned).mpr ⟨hfits, rfl⟩, (copied_areas_iff hlen).mpr hcopies, hnone, hsome,
      copyAll_count hlen⟩

theorem failure_iff : (∃ s, vmacopy (areas parent) (blank parent f_count) = .ok (s, false) ∧
      s.mm.head_vma = [] ∧ s.f_count = f_count) ↔
    ∃ v rest, areas parent = v :: rest ∧ Declined parent.used v := by
  constructor
  · rintro ⟨s, hcopy, hnil, -⟩
    rcases vmacopy_false blank_owned hcopy with hne | h
    · exact absurd hnil hne
    · exact h
  · rintro ⟨v, rest, hareas, hdeclined⟩
    rw [hareas]
    exact ⟨blank parent f_count, vmacopy_declined (s := blank parent f_count) hdeclined rest, rfl, rfl⟩

/-- **`vmacopy` gives the child the areas of its parent, or nothing, exactly where they all come out as they are
or the first one is turned down.** -/
theorem copies_iff (parent : mm_struct) (f_count : Nat → Nat) : CopyLaw parent f_count ↔
    Reproducible parent f_count ∨ ∃ v rest, areas parent = v :: rest ∧ Declined parent.used v := by
  rw [← success_iff, ← failure_iff]
  constructor
  · rintro ⟨s, ok, hcopy, htrue, hfalse⟩
    cases ok with
    | true => exact .inl ⟨s, hcopy, htrue rfl⟩
    | false => exact .inr ⟨s, hcopy, hfalse rfl⟩
  · rintro (⟨s, hcopy, h⟩ | ⟨s, hcopy, h⟩)
    · exact ⟨s, true, hcopy, fun _ => h, nofun⟩
    · exact ⟨s, false, hcopy, fun ht => by (cases ht), fun _ => h⟩

end

/-! ## A heap given back -/

/-- A process whose heap has grown by a page and been given back. -/
def heapGivenBack : List Event :=
  [.vma_map 0x10000 0x3000 5 .VMA_TEXT, .growheap 0x1000 .none true, .growheap (-0x1000) .none true]

/-- The heap area of size 0 comes out as a page. -/
theorem empty_heap_gets_page : ∃ mm,
    Run Step (fresh unusedPool (fun _ => false) 0x12345) heapGivenBack mm ∧ ¬ CopyLaw mm fun _ => 0 := by
  have hexec : (exec returned (fresh unusedPool (fun _ => false) 0x12345) heapGivenBack).any (fun mm =>
      (∃ v ∈ areas mm, v.size = 0) ∧ (∀ v ∈ areas mm, v.type ≠ .VMA_FILE) ∧ mm.used 2 = false) = true := by
    decide +kernel
  obtain ⟨mm, hmm, hat⟩ := (Option.any_eq_true _ _).mp hexec
  obtain ⟨⟨v, hv, hempty⟩, hfiles, hfree⟩ := of_decide_eq_true hat
  refine ⟨mm, (run_of_exec _ _ _ hmm).mono fun _ _ _ => step_of_returned, ?_⟩
  rintro ⟨s, ok, hcopy, htrue, hfalse⟩
  cases ok with
  | true =>
    have hwhole := (success_iff.mp ⟨s, hcopy, htrue rfl⟩).whole v hv
    exact absurd hempty (Nat.ne_of_gt hwhole.size_pos)
  | false =>
    -- no area is a file's, and slot 2 is free
    obtain ⟨w, rest, hareas, hdeclined⟩ := failure_iff.mp ⟨s, hcopy, hfalse rfl⟩
    rcases hdeclined with hrefused | ⟨hnone, -⟩
    · exact hfiles w (hareas ▸ List.mem_cons_self) hrefused.1
    have hmem : 2 ∈ freeSlots mm.used := by
      rw [freeSlots, List.mem_filter, List.mem_range, NVMA]
      exact ⟨by omega, by simpa using hfree⟩
    rw [hnone] at hmem
    exact not_mem_nil hmem

end LostWakeup.Mm.Vma.Copy
