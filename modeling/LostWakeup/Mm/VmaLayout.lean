/-
# LostWakeup.Mm.VmaLayout — which operations keep the areas of an address space apart.

`check_vma_intersect` looks at the two end points of a new area only, and `growheap` and `split_vma` set bounds without
any check, so areas can overlap.  `Allowed` rules this out; `vma_layout` says that in every run of allowed operations the
areas stay disjoint, page-aligned and below `2^64`, and that the overlap assertion is not reached.
-/
import Mathlib.Data.Set.Pairwise.Basic
import Mathlib.Order.CompletePartialOrder
import Mathlib.Order.Interval.Set.Disjoint
import LostWakeup.Mm.Vma

namespace LostWakeup.Mm.Vma

open Library
open Function (update update_of_ne update_self)

/-! ## Spans -/

/-- The addresses of an area. -/
def vma.span (v : vma) : Set Nat := Set.Ico v.startva (v.startva + v.size)

/-- Page-aligned bounds that do not wrap. -/
structure vma.Placed (v : vma) : Prop where
  start_aligned : v.startva % PGSIZE = 0
  size_aligned : v.size % PGSIZE = 0
  end_lt : v.startva + v.size < 2 ^ 64

theorem span_disjoint_iff {v w : vma} :
    Disjoint v.span w.span ↔
      v.size = 0 ∨ w.size = 0 ∨ v.startva + v.size ≤ w.startva ∨ w.startva + w.size ≤ v.startva := by
  simp only [vma.span, Set.Ico_disjoint_Ico]
  omega

theorem span_subset {v w : vma} (hlo : w.startva ≤ v.startva)
    (hhi : v.startva + v.size ≤ w.startva + w.size) : v.span ⊆ w.span :=
  Set.Ico_subset_Ico hlo hhi

namespace vma.Placed

variable {v : vma} (h : v.Placed)
include h

theorem end_eq : add64 v.startva v.size = v.startva + v.size := by
  have := h.end_lt
  simp only [add64]
  omega

theorem candidate_iff (addr : Nat) : candidate v addr = true ↔ addr ∈ v.span := by
  simp only [candidate, h.end_eq, vma.span, Set.mem_Ico, Bool.and_eq_true, decide_eq_true_eq]

end vma.Placed

theorem endpointIn_eq_false {v w : vma} (hv : v.startva + v.size < 2 ^ 64) (hpos : 0 < v.size)
    (hw : w.startva + w.size < 2 ^ 64) (hdis : Disjoint v.span w.span) : endpointIn v w = false := by
  have hend : sub64 (add64 v.startva v.size) 1 = v.startva + v.size - 1 := by
    simp only [sub64, add64]
    omega
  have hadd : add64 w.startva w.size = w.startva + w.size := Nat.mod_eq_of_lt hw
  rw [span_disjoint_iff] at hdis
  simp only [endpointIn, hend, hadd, Bool.or_eq_false_iff, Bool.and_eq_false_iff,
    decide_eq_false_iff_not]
  omega

/-! ## The layout -/

/-- The state of an address space whose areas are in order. -/
structure Layout (mm : mm_struct) : Prop where
  nodup : mm.head_vma.Nodup
  in_use : ∀ i ∈ mm.head_vma, mm.used i = true
  placed : ∀ i ∈ mm.head_vma, (mm.vmas i).Placed
  disjoint : {i | i ∈ mm.head_vma}.PairwiseDisjoint fun i => (mm.vmas i).span
  brk_aligned : mm.start_brk % PGSIZE = 0
  brk_le : mm.start_brk ≤ mm.brk
  brk_lt : mm.brk < 2 ^ 64

namespace Layout

variable {mm : mm_struct}

theorem candidate_unique (h : Layout mm) {i j addr : Nat} (hi : i ∈ mm.head_vma)
    (hj : j ∈ mm.head_vma) (hci : candidate (mm.vmas i) addr = true)
    (hcj : candidate (mm.vmas j) addr = true) : i = j := by
  rw [(h.placed i hi).candidate_iff] at hci
  rw [(h.placed j hj).candidate_iff] at hcj
  exact h.disjoint.elim_set hi hj addr hci hcj

/-- An area may get new bounds that stay clear of the other areas. -/
theorem resize (h : Layout mm) {i : Nat} {v : vma} (hv : i ∈ mm.head_vma → v.Placed)
    (hdis : i ∈ mm.head_vma → ∀ j ∈ mm.head_vma, j ≠ i → Disjoint v.span (mm.vmas j).span) :
    Layout (mm.set i v) := by
  refine ⟨h.nodup, h.in_use, ?_, ?_, h.brk_aligned, h.brk_le, h.brk_lt⟩
  · intro j hj
    by_cases hji : j = i
    · subst hji
      simpa [mm_struct.set] using hv hj
    · simpa [mm_struct.set, hji] using h.placed j hj
  · intro j hj k hk hjk
    simp only [Function.onFun, mm_struct.set]
    by_cases hji : j = i
    · subst hji
      rw [update_self, update_of_ne (Ne.symm hjk)]
      exact hdis hj k hk (Ne.symm hjk)
    by_cases hki : k = i
    · subst hki
      rw [update_self, update_of_ne hji]
      exact (hdis hk j hj hji).symm
    · rw [update_of_ne hji, update_of_ne hki]
      exact h.disjoint hj hk hjk

theorem shrink (h : Layout mm) {i : Nat} {v : vma} (hi : i ∈ mm.head_vma) (hv : v.Placed)
    (hsub : v.span ⊆ (mm.vmas i).span) : Layout (mm.set i v) :=
  h.resize (fun _ => hv) fun _ _ hj hji => (h.disjoint hi hj (Ne.symm hji)).mono_left hsub

theorem set_fields (h : Layout mm) {i : Nat} {v : vma} (hstart : v.startva = (mm.vmas i).startva)
    (hsize : v.size = (mm.vmas i).size) : Layout (mm.set i v) := by
  refine h.resize (fun hi => ?_) (fun hi j hj hji => ?_)
  · obtain ⟨hs, hz, he⟩ := h.placed i hi
    exact ⟨by rw [hstart]; exact hs, by rw [hsize]; exact hz, by rw [hstart, hsize]; exact he⟩
  · rw [show v.span = (mm.vmas i).span by simp only [vma.span, hstart, hsize]]
    exact h.disjoint hi hj (Ne.symm hji)

theorem delete (h : Layout mm) (i : Nat) :
    Layout (free_vma { mm with head_vma := mm.head_vma.erase i } i) := by
  have hmem : ∀ j, j ∈ mm.head_vma.erase i → j ∈ mm.head_vma := fun j hj => List.mem_of_mem_erase hj
  refine ⟨h.nodup.erase i, ?_, ?_, ?_, h.brk_aligned, h.brk_le, h.brk_lt⟩
  · intro j hj
    have hji : j ≠ i := fun hji => by
      subst hji
      exact h.nodup.not_mem_erase hj
    simpa [free_vma, update_of_ne hji] using h.in_use j (hmem j hj)
  · exact fun j hj => h.placed j (hmem j hj)
  · exact h.disjoint.subset fun j hj => hmem j hj

/-- A slot that was not on the list may join it with bounds clear of all areas. -/
theorem insert (h : Layout mm) {i : Nat} {v : vma} (hi : i ∉ mm.head_vma) (hv : v.Placed)
    (hdis : ∀ j ∈ mm.head_vma, Disjoint v.span (mm.vmas j).span) :
    Layout { (mm.set i v) with
      used := update mm.used i true, head_vma := i :: mm.head_vma } := by
  have hne : ∀ j ∈ mm.head_vma, j ≠ i := fun j hj hji => hi (hji ▸ hj)
  refine ⟨List.nodup_cons.mpr ⟨hi, h.nodup⟩, ?_, ?_, ?_, h.brk_aligned, h.brk_le, h.brk_lt⟩
  · intro j hj
    rcases List.mem_cons.mp hj with rfl | hj
    · simp
    · simpa [update_of_ne (hne j hj)] using h.in_use j hj
  · intro j hj
    rcases List.mem_cons.mp hj with rfl | hj
    · simpa [mm_struct.set] using hv
    · simpa [mm_struct.set, hne j hj] using h.placed j hj
  · intro j hj k hk hjk
    simp only [Function.onFun, mm_struct.set]
    rcases List.mem_cons.mp hj with rfl | hj' <;> rcases List.mem_cons.mp hk with rfl | hk'
    · exact absurd rfl hjk
    · rw [update_self, update_of_ne (hne k hk')]
      exact hdis k hk'
    · rw [update_self, update_of_ne (hne j hj')]
      exact (hdis j hj').symm
    · rw [update_of_ne (hne j hj'), update_of_ne (hne k hk')]
      exact h.disjoint hj' hk' hjk

end Layout

/-! ## The condition -/

/-- The range that a mapping of `len` bytes at `va` takes is not empty, does not wrap and meets no area
of the address space. -/
structure CanPlace (mm : mm_struct) (va len : Nat) : Prop where
  size_pos : 0 < mapSize len
  end_lt : va + mapSize len < 2 ^ 64
  clear : ∀ i ∈ mm.head_vma, Disjoint (Set.Ico va (va + mapSize len)) (mm.vmas i).span

/-- The range that `find_mapping_space` finds does not wrap and meets neither a stack nor the loaded
interpreter, which the search leaves out. -/
structure CanPlaceAbove (mm : mm_struct) (len : Nat) : Prop where
  size_pos : 0 < mapSize len
  end_lt : mappingMax mm + mapSize len < 2 ^ 64
  clear : ∀ i ∈ mm.head_vma, (mm.vmas i).type = .VMA_STACK ∨ (mm.vmas i).type = .VMA_INTERP →
    Disjoint (Set.Ico (mappingMax mm) (mappingMax mm + mapSize len)) (mm.vmas i).span

/-- `[addr, addr + length)` is a nonempty run of pages of the area. -/
structure PagesOf (v : vma) (addr length : Nat) : Prop where
  addr_aligned : addr % PGSIZE = 0
  length_aligned : length % PGSIZE = 0
  length_pos : 0 < length
  le_end : addr + length ≤ v.startva + v.size

/-- The size `growheap` gives the heap for the break `sz`. -/
def heapSize (mm : mm_struct) (sz : Nat) : Nat := sub64 (PGROUNDUP sz) mm.start_brk

/-- The heap's area, if it is still on the list, can take its new size. -/
def HeapRoom (mm : mm_struct) (sz : Nat) : Prop :=
  ∀ i, mm.heapvma = some i → i ∈ mm.head_vma →
    (mm.vmas i).startva + heapSize mm sz < 2 ^ 64 ∧
      ∀ j ∈ mm.head_vma, j ≠ i →
        Disjoint (Set.Ico (mm.vmas i).startva ((mm.vmas i).startva + heapSize mm sz)) (mm.vmas j).span

/-- The heap's area can be made, or can take its new size. -/
def CanSetHeap (mm : mm_struct) (sz : Nat) : Prop :=
  (mm.heapvma = none → alloc_vma mm = none ∨ CanPlace mm mm.start_brk (sub64 sz mm.start_brk)) ∧
    HeapRoom mm sz

/-- A mapping at `va` is refused for lack of a slot, or stops at an unaligned address, or has room. -/
def MapAllowed (mm : mm_struct) (va len : Nat) : Prop :=
  alloc_vma mm = none ∨ va % PGSIZE ≠ 0 ∨ CanPlace mm va len

/-- The three places where `do_mmap` maps: above the areas, at 0 for a fixed address outside all areas,
or over pages of one area. -/
def MmapAllowed (mm : mm_struct) (addr length flags : Nat) : Prop :=
  if addr = 0 then CanPlaceAbove mm length
  else if flags &&& MAP_FIXED = 0 then True
  else
    match find_vma_for_va mm addr with
    | none => CanPlace mm 0 length
    | some i => PagesOf (mm.vmas i) addr length

/-- The pages of a `sys_mprotect` that reaches its splits lie in one area. -/
def ProtectAllowed (mm : mm_struct) (start len prot : Nat) : Prop :=
  len = 0 ∨ add64 start (PGROUNDUP len) < start ∨ prot ≥ 8 ∨
    ∀ i, find_vma_for_va mm start = some i → start % PGSIZE = 0 ∧
      add64 start (PGROUNDUP len) ≤ (mm.vmas i).startva + (mm.vmas i).size

/-- A `growheap` that sets the heap's size has room for it. -/
def GrowAllowed (mm : mm_struct) (n : Int) (level : WalkLevel) (enough : Bool) : Prop :=
  (n > 0 ∧ (pageReaches level mm.brk (add64 mm.brk (toUint64 n)) = true ∨ growSz mm n enough = 0)) ∨
    CanSetHeap mm (growSz mm n enough)

/-- The operations that the layout allows.  An operation that returns before it touches an area always
is. -/
def Allowed (mm : mm_struct) : Event → Prop
  | .vma_map va len _ _ => MapAllowed mm va len
  | .vma_map_file va len _ _ _ _ => MapAllowed mm va len
  | .do_mmap addr length _ flags _ _ _ => MmapAllowed mm addr length flags
  | .sys_mprotect start len prot => ProtectAllowed mm start len prot
  | .vmspace_unmap _ _ => True
  | .growheap n level enough => GrowAllowed mm n level enough

/-! ## The specification of each operation -/

/-- The stops that the layout does not exclude. -/
def NoOverlap (s : Stop) : Prop := s ≠ .vma_overlap

theorem roundUp_aligned (sz : Nat) : PGROUNDUP sz % PGSIZE = 0 := by
  simp only [PGROUNDUP, roundUp, Nat.mul_mod_left]

section

variable {mm : mm_struct}

theorem findFree_some {used : Nat → Bool} {n j i : Nat} (h : findFree used n j = some i) :
    used i = false := by
  induction n generalizing j with
  | zero => cases h
  | succ n ih =>
    unfold findFree at h
    split at h
    · next hfree =>
      cases h
      exact hfree
    · exact ih h

theorem alloc_vma_some {i : Nat} {mm' : mm_struct} (h : alloc_vma mm = some (i, mm')) :
    mm.used i = false ∧ mm' = { mm with used := update mm.used i true } := by
  obtain ⟨j, hj, heq⟩ := Option.map_eq_some_iff.mp h
  cases heq
  exact ⟨findFree_some hj, rfl⟩

theorem check_eq_false (hl : Layout mm) {v : vma} (hv : v.startva + v.size < 2 ^ 64)
    (hpos : 0 < v.size) (hdis : ∀ j ∈ mm.head_vma, Disjoint v.span (mm.vmas j).span) :
    check_vma_intersect mm v = false := by
  simp only [check_vma_intersect, List.any_eq_false, Bool.not_eq_true]
  intro j hj
  exact endpointIn_eq_false hv hpos (hl.placed j hj).end_lt (hdis j hj)

/-- An unused slot joins the list with a nonempty range clear of all areas. -/
theorem add_vma_spec (hl : Layout mm) {i : Nat} {v : vma} (hi : mm.used i = false) (hv : v.Placed)
    (hpos : 0 < v.size) (hdis : ∀ j ∈ mm.head_vma, Disjoint v.span (mm.vmas j).span) :
    ∃ mm', add_vma_to_vmspace
        ({ mm with used := update mm.used i true }.set i v) i = .ok mm' ∧ Layout mm' ∧
      mm' = { (mm.set i v) with
        used := update mm.used i true, head_vma := i :: mm.head_vma } := by
  have hnot : i ∉ mm.head_vma := fun hmem => by
    rw [hl.in_use i hmem] at hi
    cases hi
  have hcheck : check_vma_intersect ({ mm with used := update mm.used i true }.set i v) v
      = false := by
    have hc := check_eq_false hl hv.end_lt hpos hdis
    simp only [check_vma_intersect, List.any_eq_false] at hc ⊢
    intro j hj
    have hji : j ≠ i := fun hji => hnot (hji ▸ hj)
    simpa [mm_struct.set, update_of_ne hji] using hc j hj
  refine ⟨_, ?_, hl.insert hnot hv hdis, rfl⟩
  have hself : ({ mm with used := update mm.used i true }.set i v).vmas i = v := by
    simp [mm_struct.set]
  simp only [add_vma_to_vmspace, hself, hcheck]
  rfl

/-- What a successful mapping has done. -/
structure Mapped (mm mm' : mm_struct) (va len i : Nat) : Prop where
  mem : i ∈ mm'.head_vma
  startva : (mm'.vmas i).startva = va
  size : (mm'.vmas i).size = mapSize len
  start_brk : mm'.start_brk = mm.start_brk

theorem vma_map_range_spec (hl : Layout mm) (va len perm : Nat) (type : vmatype)
    (hok : MapAllowed mm va len) :
    Ensures (vma_map_range mm va len perm type) NoOverlap fun r =>
      Layout r.1 ∧ ∀ i, r.2 = some i → Mapped mm r.1 va len i := by
  unfold vma_map_range
  cases halloc : alloc_vma mm with
  | none => exact .ok ⟨hl, fun i hi => by cases hi⟩
  | some slot =>
    obtain ⟨i, mm₁⟩ := slot
    obtain ⟨hfree, rfl⟩ := alloc_vma_some halloc
    dsimp only
    by_cases hva : va % PGSIZE ≠ 0
    · rw [if_pos hva]
      exact .error Stop.noConfusion
    rw [if_neg hva]
    rw [not_not] at hva
    obtain hcan : CanPlace mm va len := by
      rcases hok with hnone | hva' | hcan
      · rw [halloc] at hnone
        cases hnone
      · exact absurd hva hva'
      · exact hcan
    have hdown : PGROUNDDOWN va = va := by
      simp only [PGROUNDDOWN, PGSIZE] at hva ⊢
      omega
    obtain ⟨v, hveq⟩ : ∃ v, v = { mm.vmas i with
        startva := PGROUNDDOWN va, size := mapSize len, perm := perm, type := type } := ⟨_, rfl⟩
    have hstart : v.startva = va := by rw [hveq]; exact hdown
    have hsize : v.size = mapSize len := by rw [hveq]
    have hplaced : v.Placed :=
      ⟨by rw [hstart]; exact hva, by rw [hsize]; exact roundUp_aligned _,
        by rw [hstart, hsize]; exact hcan.end_lt⟩
    have hdis : ∀ j ∈ mm.head_vma, Disjoint v.span (mm.vmas j).span := by
      simp only [vma.span, hstart, hsize]
      exact hcan.clear
    obtain ⟨mm', hadd, hl', heq⟩ := add_vma_spec hl hfree hplaced (hsize ▸ hcan.size_pos) hdis
    rw [← hveq]
    rw [hadd]
    refine .ok ⟨hl', ?_⟩
    rintro j ⟨⟩
    subst heq
    exact ⟨List.mem_cons_self, by simpa [mm_struct.set] using hstart,
      by simpa [mm_struct.set] using hsize, rfl⟩

theorem vma_map_file_spec (hl : Layout mm) (va len perm : Nat) (type : vmatype) (offset : Nat) (fp : File)
    (hok : MapAllowed mm va len) :
    Ensures (vma_map_file mm va len perm type offset fp) NoOverlap fun r => Layout r.1 := by
  unfold vma_map_file
  split
  · exact .ok hl
  refine (vma_map_range_spec hl va len perm type hok).bind ?_
  rintro ⟨mm', _ | i⟩ ⟨hl', -⟩
  · exact .ok hl'
  · exact .ok (hl'.set_fields rfl rfl)

theorem vma_map_spec (hl : Layout mm) (va len perm : Nat) (type : vmatype)
    (hok : MapAllowed mm va len) :
    Ensures (vma_map mm va len perm type) NoOverlap fun r =>
      Layout r.1 ∧ (type = .VMA_HEAP → ¬ r.2 < 0 →
        ∃ i, r.1.heapvma = some i ∧ Mapped mm r.1 va len i) := by
  refine (vma_map_range_spec hl va len perm type hok).bind ?_
  rintro ⟨mm', _ | i⟩ ⟨hl', hmapped⟩
  · exact .ok ⟨hl', fun _ hr => absurd (Int.negSucc_lt_zero 0) hr⟩
  have hm := hmapped i rfl
  by_cases htype : type = .VMA_HEAP
  · dsimp only
    rw [if_pos htype]
    exact .ok ⟨⟨hl'.nodup, hl'.in_use, hl'.placed, hl'.disjoint, hl'.brk_aligned, hl'.brk_le, hl'.brk_lt⟩,
      fun _ _ => ⟨i, rfl, hm.mem, hm.startva, hm.size, hm.start_brk⟩⟩
  · dsimp only
    rw [if_neg htype]
    exact .ok ⟨hl', fun htype' => absurd htype' htype⟩

/-- The state a split leaves: the area keeps one side of `addr`. -/
structure Split (mm mm' : mm_struct) (i addr : Nat) (new_below : Bool) : Prop where
  layout : Layout mm'
  mem : i ∈ mm'.head_vma
  startva : (mm'.vmas i).startva = if new_below then addr else (mm.vmas i).startva
  size : (mm'.vmas i).size =
    if new_below then (mm.vmas i).startva + (mm.vmas i).size - addr else addr - (mm.vmas i).startva

/-- The two sides of a page boundary inside an area. -/
theorem sides {v : vma} {addr : Nat} (hv : v.Placed) (haddr : addr % PGSIZE = 0)
    (hlo : v.startva ≤ addr) (hhi : addr ≤ v.startva + v.size) :
    (v.below addr).size = addr - v.startva ∧ (v.above addr).size = v.startva + v.size - addr ∧
      (v.below addr).Placed ∧ (v.above addr).Placed := by
  obtain ⟨hstart, hsize, hend⟩ := hv
  have htail : (v.above addr).size = v.startva + v.size - addr := by
    simp only [vma.above, sub64, add64]
    omega
  have hhead : (v.below addr).size = addr - v.startva := by
    simp only [vma.below, sub64]
    omega
  simp only [PGSIZE] at hstart hsize haddr
  refine ⟨hhead, htail, ⟨hstart, ?_, ?_⟩, ⟨haddr, ?_, ?_⟩⟩
  · rw [hhead, PGSIZE]
    omega
  · rw [hhead, show (v.below addr).startva = v.startva from rfl]
    omega
  · rw [htail, PGSIZE]
    omega
  · rw [htail, show (v.above addr).startva = addr from rfl]
    omega

/-- A split at a page boundary of the area that leaves the new side nonempty. -/
theorem split_vma_spec (hl : Layout mm) {i addr : Nat} (new_below : Bool) (hi : i ∈ mm.head_vma)
    (haddr : addr % PGSIZE = 0) (hlo : (mm.vmas i).startva ≤ addr)
    (hhi : addr ≤ (mm.vmas i).startva + (mm.vmas i).size)
    (hnew : if new_below then (mm.vmas i).startva < addr
      else addr < (mm.vmas i).startva + (mm.vmas i).size) :
    Ensures (split_vma mm i addr new_below) NoOverlap fun r =>
      (r.2 < 0 ∧ r.1 = mm) ∨ (¬ r.2 < 0 ∧ Split mm r.1 i addr new_below) := by
  unfold split_vma
  cases halloc : alloc_vma mm with
  | none => exact .ok (.inl ⟨Int.negSucc_lt_zero 0, rfl⟩)
  | some slot =>
    obtain ⟨new, mm₁⟩ := slot
    obtain ⟨hfree, rfl⟩ := alloc_vma_some halloc
    dsimp only
    have hni : i ≠ new := fun h => by
      rw [← h, hl.in_use i hi] at hfree
      cases hfree
    obtain ⟨hbelow, habove, hbp, hap⟩ := sides (hl.placed i hi) haddr hlo hhi
    have hbs : ((mm.vmas i).below addr).startva = (mm.vmas i).startva := rfl
    have has : ((mm.vmas i).above addr).startva = addr := rfl
    obtain ⟨kept, hkept⟩ : ∃ kept, kept =
      if new_below then (mm.vmas i).above addr else (mm.vmas i).below addr := ⟨_, rfl⟩
    obtain ⟨other, hother⟩ : ∃ other, other =
      if new_below then (mm.vmas i).below addr else (mm.vmas i).above addr := ⟨_, rfl⟩
    rw [← hkept, ← hother]
    have hkp : kept.Placed := by rw [hkept]; split <;> assumption
    have hop : other.Placed := by rw [hother]; split <;> assumption
    have hks : kept.span ⊆ (mm.vmas i).span := by
      rw [hkept]
      split
      · exact span_subset (by omega) (by omega)
      · exact span_subset (by omega) (by omega)
    have hos : other.span ⊆ (mm.vmas i).span := by
      rw [hother]
      split
      · exact span_subset (by omega) (by omega)
      · exact span_subset (by omega) (by omega)
    have hapart : Disjoint other.span kept.span := by
      rw [span_disjoint_iff, hkept, hother]
      split <;> omega
    have hpos : 0 < other.size := by
      rw [hother]
      cases new_below <;> simp only [if_true, Bool.false_eq_true, if_false] at hnew ⊢ <;> omega
    -- the area first shrinks, then the other side comes back as a new one
    have hl₁ : Layout (mm.set i kept) := hl.shrink hi hkp hks
    have hdis : ∀ j ∈ (mm.set i kept).head_vma,
        Disjoint other.span ((mm.set i kept).vmas j).span := by
      intro j hj
      by_cases hji : j = i
      · subst hji
        simpa [mm_struct.set] using hapart
      · simpa [mm_struct.set, hji] using (hl.disjoint hi hj (Ne.symm hji)).mono_left hos
    obtain ⟨mm', hadd, hl', heq⟩ := add_vma_spec hl₁ hfree hop hpos hdis
    have hstate : ({ mm with used := update mm.used new true }.set i kept).set new other =
        { (mm.set i kept) with used := update mm.used new true }.set new other := rfl
    rw [hstate, show mm.used = (mm.set i kept).used from rfl, hadd]
    refine .ok (.inr ⟨Int.lt_irrefl 0, hl', ?_, ?_, ?_⟩)
    · rw [heq]
      exact List.mem_cons_of_mem _ hi
    · rw [heq]
      simp only [mm_struct.set, update_of_ne hni, update_self, hkept]
      split <;> rfl
    · rw [heq]
      simp only [mm_struct.set, update_of_ne hni, update_self, hkept]
      split <;> assumption

/-- What `split_around` has done when neither split failed. -/
structure Isolated (mm' : mm_struct) (i start end_ : Nat) : Prop where
  mem : i ∈ mm'.head_vma
  startva : (mm'.vmas i).startva = start
  end_eq : (mm'.vmas i).startva + (mm'.vmas i).size = end_

/-- The first split leaves the part of the area from `start` on. -/
theorem split_start_spec (hl : Layout mm) {i start : Nat} (hi : i ∈ mm.head_vma)
    (hstart : start % PGSIZE = 0) (hlo : (mm.vmas i).startva ≤ start)
    (hlt : start < (mm.vmas i).startva + (mm.vmas i).size) :
    Ensures (split_unless mm i start (mm.vmas i).startva true) NoOverlap fun r =>
      Layout r.1 ∧ (¬ r.2 < 0 →
        Isolated r.1 i start ((mm.vmas i).startva + (mm.vmas i).size)) := by
  unfold split_unless
  by_cases hne : start ≠ (mm.vmas i).startva
  · rw [if_pos hne]
    refine (split_vma_spec hl true hi hstart hlo (by omega)
      (show (mm.vmas i).startva < start by omega)).mono ?_
    rintro ⟨mm₁, r⟩ (⟨hr, rfl⟩ | ⟨-, hs⟩)
    · exact ⟨hl, fun h => absurd hr h⟩
    · have hs₁ : (mm₁.vmas i).startva = start := hs.startva
      have hz₁ : (mm₁.vmas i).size = (mm.vmas i).startva + (mm.vmas i).size - start := hs.size
      exact ⟨hs.layout, fun _ => ⟨hs.mem, hs₁, by dsimp only; omega⟩⟩
  · rw [if_neg hne]
    rw [not_not] at hne
    exact .ok ⟨hl, fun _ => ⟨hi, hne.symm, rfl⟩⟩

/-- The second split leaves the part below `end_`. -/
theorem split_end_spec (hl : Layout mm) {i end_ : Nat} (hi : i ∈ mm.head_vma)
    (hend : end_ % PGSIZE = 0) (hlo : (mm.vmas i).startva ≤ end_)
    (hhi : end_ ≤ (mm.vmas i).startva + (mm.vmas i).size) :
    Ensures (split_unless mm i end_ (add64 (mm.vmas i).startva (mm.vmas i).size) false)
      NoOverlap fun r => Layout r.1 ∧ (¬ r.2 < 0 → Isolated r.1 i (mm.vmas i).startva end_) := by
  unfold split_unless
  rw [(hl.placed i hi).end_eq]
  by_cases hne : end_ ≠ (mm.vmas i).startva + (mm.vmas i).size
  · rw [if_pos hne]
    refine (split_vma_spec hl false hi hend hlo hhi
      (show end_ < (mm.vmas i).startva + (mm.vmas i).size by omega)).mono ?_
    rintro ⟨mm₁, r⟩ (⟨hr, rfl⟩ | ⟨-, hs⟩)
    · exact ⟨hl, fun h => absurd hr h⟩
    · have hs₁ : (mm₁.vmas i).startva = (mm.vmas i).startva := hs.startva
      have hz₁ : (mm₁.vmas i).size = end_ - (mm.vmas i).startva := hs.size
      exact ⟨hs.layout, fun _ => ⟨hs.mem, hs₁, by dsimp only; omega⟩⟩
  · rw [if_neg hne]
    rw [not_not] at hne
    exact .ok ⟨hl, fun _ => ⟨hi, rfl, hne.symm⟩⟩

/-- After both splits the area is exactly `[start, end)`. -/
theorem split_around_spec (hl : Layout mm) {i start end_ : Nat} (hi : i ∈ mm.head_vma)
    (hstart : start % PGSIZE = 0) (hend : end_ % PGSIZE = 0) (hlo : (mm.vmas i).startva ≤ start)
    (hlt : start < (mm.vmas i).startva + (mm.vmas i).size) (hle : start ≤ end_)
    (hhi : end_ ≤ (mm.vmas i).startva + (mm.vmas i).size) :
    Ensures (split_around mm i start end_) NoOverlap fun r =>
      Layout r.1 ∧ (r.2 = true → Isolated r.1 i start end_) := by
  unfold split_around
  refine (split_start_spec hl hi hstart hlo hlt).bind ?_
  rintro ⟨mm₁, r₁⟩ ⟨hl₁, h₁⟩
  dsimp only at hl₁ h₁ ⊢
  by_cases hr₁ : r₁ < 0
  · rw [if_pos hr₁]
    exact .ok ⟨hl₁, nofun⟩
  rw [if_neg hr₁]
  obtain ⟨hi₁, hs₁, he₁⟩ := h₁ hr₁
  refine (split_end_spec hl₁ hi₁ hend (by omega) (by omega)).bind ?_
  rintro ⟨mm₂, r₂⟩ ⟨hl₂, h₂⟩
  dsimp only at hl₂ h₂ ⊢
  by_cases hr₂ : r₂ < 0
  · rw [if_pos hr₂]
    exact .ok ⟨hl₂, nofun⟩
  · rw [if_neg hr₂]
    obtain ⟨hi₂, hs₂, he₂⟩ := h₂ hr₂
    exact .ok ⟨hl₂, fun _ => ⟨hi₂, hs₂.trans hs₁, he₂⟩⟩

theorem find_vma_spec (hl : Layout mm) {addr i : Nat} (h : find_vma_for_va mm addr = some i) :
    i ∈ mm.head_vma ∧ (mm.vmas i).startva ≤ addr ∧
      addr < (mm.vmas i).startva + (mm.vmas i).size := by
  have hi := mem_of_find h
  unfold find_vma_for_va at h
  have hcand := List.find?_some h
  rw [(hl.placed i hi).candidate_iff] at hcand
  exact ⟨hi, hcand.1, hcand.2⟩

theorem le_raiseMax (max pos : Nat) : max ≤ raiseMax mm max pos := by
  unfold raiseMax
  dsimp only
  split
  · exact Nat.le_refl max
  · split
    · exact Nat.le_refl max
    · split <;> omega

theorem le_foldl_raiseMax (l : List Nat) (max : Nat) : max ≤ l.foldl (raiseMax mm) max := by
  induction l generalizing max with
  | nil => exact Nat.le_refl max
  | cons j l ih => exact Nat.le_trans (le_raiseMax max j) (ih _)

theorem le_mappingMax (hl : Layout mm) {i : Nat} (hi : i ∈ mm.head_vma)
    (hstack : (mm.vmas i).type ≠ .VMA_STACK) (hinterp : (mm.vmas i).type ≠ .VMA_INTERP) :
    (mm.vmas i).startva + (mm.vmas i).size ≤ mappingMax mm := by
  rw [← (hl.placed i hi).end_eq]
  suffices hseen : ∀ (l : List Nat) (max : Nat), i ∈ l →
      add64 (mm.vmas i).startva (mm.vmas i).size ≤ l.foldl (raiseMax mm) max from hseen _ _ hi
  intro l
  induction l with
  | nil => exact fun max h => by cases h
  | cons j l ih =>
    intro max hmem
    rcases List.mem_cons.mp hmem with rfl | hmem
    · -- the maximum is raised here and only grows afterwards
      refine Nat.le_trans ?_ (le_foldl_raiseMax l _)
      simp only [raiseMax, if_neg hstack, if_neg hinterp]
      split <;> omega
    · exact ih _ hmem

theorem canPlace_above (hl : Layout mm) {len : Nat} (h : CanPlaceAbove mm len) :
    CanPlace mm (mappingMax mm) len := by
  refine ⟨h.size_pos, h.end_lt, fun i hi => ?_⟩
  by_cases htype : (mm.vmas i).type = .VMA_STACK ∨ (mm.vmas i).type = .VMA_INTERP
  · exact h.clear i hi htype
  rw [not_or] at htype
  have hle := le_mappingMax hl hi htype.1 htype.2
  simp only [vma.span, Set.Ico_disjoint_Ico]
  omega

theorem repointHeap_layout (hl : Layout mm) : Layout (repointHeap mm) :=
  ⟨hl.nodup, hl.in_use, hl.placed, hl.disjoint, hl.brk_aligned, hl.brk_le, hl.brk_lt⟩

theorem canPlace_after_delete (hl : Layout mm) {i addr length : Nat}
    (h : Isolated mm i addr (addr + length)) (haligned : length % PGSIZE = 0) (hpos : 0 < length) :
    CanPlace (free_vma { mm with head_vma := mm.head_vma.erase i } i) addr length := by
  obtain ⟨hi, hstart, hend⟩ := h
  have hlt := (hl.placed i hi).end_lt
  have hsize : mapSize length = length := by
    simp only [PGSIZE] at haligned
    rw [mapSize, PGSIZE, if_neg (by omega)]
    simp only [PGSIZE, PGROUNDUP, roundUp]
    omega
  refine ⟨by omega, by omega, fun j hj => ?_⟩
  have hji : j ≠ i := fun hji => by
    subst hji
    exact hl.nodup.not_mem_erase hj
  have hspan : (mm.vmas i).span = Set.Ico addr (addr + mapSize length) := by
    rw [vma.span, hend, hstart, hsize]
  rw [← hspan]
  exact hl.disjoint hi (List.mem_of_mem_erase hj) (Ne.symm hji)

theorem mmap_place_spec (hl : Layout mm) {addr length flags : Nat} (mapped : Bool)
    (hok : MmapAllowed mm addr length flags) :
    Ensures (mmap_place mm addr length flags mapped) NoOverlap fun r =>
      Layout r.1 ∧ ∀ va, r.2 = some va → CanPlace r.1 va length := by
  unfold mmap_place
  unfold MmapAllowed at hok
  by_cases haddr : addr = 0
  · rw [if_pos haddr] at hok ⊢
    unfold find_mapping_space
    split
    · exact .error Stop.noConfusion
    split
    · exact .error Stop.noConfusion
    split
    · exact .error Stop.noConfusion
    · refine .ok ⟨hl, ?_⟩
      rintro va ⟨⟩
      exact canPlace_above hl hok
  · rw [if_neg haddr] at hok ⊢
    by_cases hfixed : flags &&& MAP_FIXED = 0
    · rw [if_pos hfixed]
      exact .ok ⟨hl, fun va h => by cases h⟩
    rw [if_neg hfixed] at hok ⊢
    cases hfind : find_vma_for_va mm addr with
    | none =>
      rw [hfind] at hok
      refine .ok ⟨hl, ?_⟩
      rintro va ⟨⟩
      exact hok
    | some i =>
      rw [hfind] at hok
      obtain ⟨haa, hla, hlp, hle⟩ : PagesOf (mm.vmas i) addr length := hok
      obtain ⟨hi, hlo, hhi⟩ := find_vma_spec hl hfind
      have hlt := (hl.placed i hi).end_lt
      have hend : add64 addr length = addr + length := by
        simp only [add64]
        omega
      dsimp only
      rw [hend]
      refine (split_around_spec hl hi haa (by simp only [PGSIZE] at haa hla ⊢; omega) hlo hhi
        (by omega) hle).bind ?_
      rintro ⟨mm₁, ok⟩ ⟨hl₁, h₁⟩
      dsimp only at hl₁ h₁ ⊢
      cases ok with
      | false => exact .ok ⟨hl₁, fun va h => by cases h⟩
      | true =>
        have hiso := h₁ rfl
        rw [if_pos rfl]
        -- re-pointing the heap touches no area
        obtain ⟨mm₂, hmm₂, hl₂, hiso₂⟩ : ∃ mm₂, mm₂ =
            (if (mm₁.vmas i).type = .VMA_HEAP then repointHeap mm₁ else mm₁) ∧ Layout mm₂ ∧
            Isolated mm₂ i addr (addr + length) := by
          refine ⟨_, rfl, ?_, ?_⟩
          · split
            · exact repointHeap_layout hl₁
            · exact hl₁
          · split
            · exact ⟨hiso.mem, hiso.startva, hiso.end_eq⟩
            · exact hiso
        rw [← hmm₂, del_vma_from_vmspace, if_pos hiso₂.mem]
        refine .ok ⟨hl₂.delete i, ?_⟩
        rintro va ⟨⟩
        exact canPlace_after_delete hl₂ hiso₂ hla hlp

theorem do_mmap_spec (hl : Layout mm) {addr length flags : Nat} (prot : Nat) (fp : Option File)
    (offset : Nat) (mapped : Bool) (hok : MmapAllowed mm addr length flags) :
    Ensures (do_mmap mm addr length prot flags fp offset mapped) NoOverlap fun r => Layout r.1 := by
  unfold do_mmap
  refine (mmap_place_spec hl mapped hok).bind ?_
  rintro ⟨mm₁, _ | mapva⟩ ⟨hl₁, hcan⟩
  · exact .ok hl₁
  have hplace : MapAllowed mm₁ mapva length := .inr (.inr (hcan mapva rfl))
  have hanon := (vma_map_spec hl₁ mapva length (mkperm prot flags) .VMA_ANON hplace).mono
    (fun r h => h.1)
  dsimp only
  cases fp with
  | none => exact hanon.bind fun r hr => .ok hr
  | some fp =>
    dsimp only
    by_cases hflag : flags &&& MAP_ANONYMOUS ≠ 0
    · rw [if_pos hflag]
      exact hanon.bind fun r hr => .ok hr
    · rw [if_neg hflag]
      exact (vma_map_file_spec hl₁ mapva length (mkperm prot flags) .VMA_FILE offset fp hplace).bind
        fun r hr => .ok hr

theorem sys_mprotect_spec (hl : Layout mm) {start len prot : Nat}
    (hok : ProtectAllowed mm start len prot) :
    Ensures (sys_mprotect mm start len prot) NoOverlap fun r => Layout r.1 := by
  unfold sys_mprotect
  by_cases hlen : len = 0
  · rw [if_pos hlen]
    exact .ok hl
  rw [if_neg hlen]
  dsimp only
  by_cases hwrap : add64 start (PGROUNDUP len) < start
  · rw [if_pos hwrap]
    exact .ok hl
  rw [if_neg hwrap]
  by_cases hprot : prot ≥ 8
  · rw [if_pos hprot]
    exact .ok hl
  rw [if_neg hprot]
  cases hfind : find_vma_for_va mm start with
  | none => exact .ok hl
  | some i =>
    obtain ⟨hstart, hend⟩ : start % PGSIZE = 0 ∧
        add64 start (PGROUNDUP len) ≤ (mm.vmas i).startva + (mm.vmas i).size := by
      rcases hok with h | h | h | h
      · exact absurd h hlen
      · exact absurd h hwrap
      · exact absurd h hprot
      · exact h i hfind
    obtain ⟨hi, hlo, hhi⟩ := find_vma_spec hl hfind
    have haligned : add64 start (PGROUNDUP len) % PGSIZE = 0 := by
      have hround := roundUp_aligned len
      simp only [add64, PGSIZE] at hround hstart ⊢
      omega
    refine (split_around_spec hl hi hstart haligned hlo hhi (by omega) hend).bind ?_
    rintro ⟨mm₁, ok⟩ ⟨hl₁, -⟩
    cases ok with
    | false => exact .ok hl₁
    | true => exact .ok (hl₁.set_fields rfl rfl)

/-- Unmapping cuts whole pages off the front of areas or drops areas: the induction follows the
recursion of the code over the areas in its way. -/
theorem vmspace_unmap_spec (hl : Layout mm) (va len : Nat) :
    Ensures (vmspace_unmap mm va len) NoOverlap fun r => Layout r.1 := by
  fun_induction vmspace_unmap mm va len with
  | case1 mm va len hfind => exact .ok hl
  | case2 mm va len i hfind start hne => exact .ok hl
  | case3 mm va len i hfind start size hne len' hlt =>
    have hi := mem_of_find hfind
    obtain ⟨hstart, hsize, hend⟩ := hl.placed i hi
    have hround : len' % PGSIZE = 0 := roundUp_aligned len
    have hadd : add64 start len' = start + len' := by
      simp only [add64]
      omega
    simp only [PGSIZE] at hstart hsize hround
    refine .ok (hl.shrink hi ⟨?_, ?_, ?_⟩ (span_subset ?_ ?_))
    · show add64 start len' % PGSIZE = 0
      rw [hadd, PGSIZE]
      omega
    · show (size - len') % PGSIZE = 0
      rw [PGSIZE]
      omega
    · show add64 start len' + (size - len') < 2 ^ 64
      omega
    · show start ≤ add64 start len'
      omega
    · show add64 start len' + (size - len') ≤ start + size
      omega
  | case4 mm va len i hfind start size hne len' hge mm' hlt mm'' r hrec ih =>
    have hrest := ih (hl.delete i)
    rw [hrec] at hrest
    cases hrest with
    | ok hl'' => exact .ok hl''
  | case5 mm va len i hfind start size hne len' hge mm' hlt e hrec ih =>
    have hrest := ih (hl.delete i)
    rw [hrec] at hrest
    cases hrest with
    | error he => exact .error he
  | case6 mm va len i hfind start size hne len' hge mm' hnlt => exact .ok (hl.delete i)

theorem growSz_bounds (hl : Layout mm) {n : Int} {enough : Bool}
    (hlo : ¬ add64 mm.brk (toUint64 n) < mm.start_brk) (hzero : ¬ (n > 0 ∧ growSz mm n enough = 0)) :
    mm.start_brk ≤ growSz mm n enough ∧ growSz mm n enough < 2 ^ 64 := by
  have hle := hl.brk_le
  have hlt := hl.brk_lt
  have hnew : add64 mm.brk (toUint64 n) < 2 ^ 64 := Nat.mod_lt _ (by decide)
  simp only [growSz, uvmallocRet, uvmdeallocRet] at hzero ⊢
  split_ifs at hzero ⊢ <;> omega

theorem set_brk (hl : Layout mm) {sz : Nat} (hlo : mm.start_brk ≤ sz) (hhi : sz < 2 ^ 64) :
    Layout { mm with brk := sz } :=
  ⟨hl.nodup, hl.in_use, hl.placed, hl.disjoint, hl.brk_aligned, hlo, hhi⟩

theorem heapSize_aligned (hl : Layout mm) (sz : Nat) : heapSize mm sz % PGSIZE = 0 := by
  have hround := roundUp_aligned sz
  have hbrk := hl.brk_aligned
  simp only [heapSize, sub64, PGSIZE] at hround hbrk ⊢
  omega

theorem heapSize_le_mapSize (hl : Layout mm) {sz : Nat} (hlo : mm.start_brk ≤ sz) (hhi : sz < 2 ^ 64)
    (hend : mm.start_brk + mapSize (sub64 sz mm.start_brk) < 2 ^ 64) :
    heapSize mm sz ≤ mapSize (sub64 sz mm.start_brk) := by
  have hlen : sub64 sz mm.start_brk = sz - mm.start_brk := by
    simp only [sub64]
    omega
  have hbrk := hl.brk_aligned
  rw [hlen] at hend ⊢
  by_cases hsmall : sz - mm.start_brk < PGSIZE
  · rw [mapSize, if_pos hsmall] at hend ⊢
    simp only [heapSize, PGROUNDUP, roundUp, sub64, PGSIZE] at hend hbrk hsmall ⊢
    omega
  · rw [mapSize, if_neg hsmall] at hend ⊢
    simp only [heapSize, PGROUNDUP, roundUp, sub64, PGSIZE] at hend hbrk hsmall ⊢
    omega

theorem makeHeap_spec (hl : Layout mm) {sz : Nat} (hlo : mm.start_brk ≤ sz) (hhi : sz < 2 ^ 64)
    (hok : CanSetHeap mm sz) :
    Ensures (makeHeap mm sz) NoOverlap fun mm' =>
      Layout mm' ∧ mm'.start_brk = mm.start_brk ∧ HeapRoom mm' sz := by
  unfold makeHeap
  cases hheap : mm.heapvma with
  | some i => exact .ok ⟨hl, rfl, hok.2⟩
  | none =>
    have hmap : MapAllowed mm mm.start_brk (sub64 sz mm.start_brk) := by
      rcases hok.1 hheap with h | h
      · exact .inl h
      · exact .inr (.inr h)
    refine (vma_map_spec hl _ _ (PERM_READ ||| PERM_WRITE) .VMA_HEAP hmap).bind ?_
    rintro ⟨mm₁, r⟩ ⟨hl₁, h₁⟩
    dsimp only at hl₁ h₁ ⊢
    by_cases hr : r < 0
    · rw [if_pos hr]
      exact .error Stop.noConfusion
    rw [if_neg hr]
    obtain ⟨i, hi, hmapped⟩ := h₁ rfl hr
    refine .ok ⟨hl₁, hmapped.start_brk, fun j hj _ => ?_⟩
    rw [hi] at hj
    cases hj
    -- the new size stays inside the area as it was mapped
    have hend := (hl₁.placed i hmapped.mem).end_lt
    have hle : heapSize mm₁ sz ≤ (mm₁.vmas i).size := by
      rw [hmapped.startva, hmapped.size] at hend
      rw [hmapped.size, heapSize, hmapped.start_brk]
      exact heapSize_le_mapSize hl hlo hhi hend
    refine ⟨by omega, fun k hk hki => ?_⟩
    refine (hl₁.disjoint hmapped.mem hk (Ne.symm hki)).mono_left ?_
    exact Set.Ico_subset_Ico le_rfl (by omega)

theorem setHeap_spec (hl : Layout mm) {sz : Nat} (hlo : mm.start_brk ≤ sz) (hhi : sz < 2 ^ 64)
    (hok : CanSetHeap mm sz) : Ensures (setHeap mm sz) NoOverlap fun r => Layout r.1 := by
  unfold setHeap
  refine (makeHeap_spec hl hlo hhi hok).bind ?_
  rintro mm₁ ⟨hl₁, hbrk, hroom⟩
  split
  · exact .error Stop.noConfusion
  · next i hheap =>
    have hl₂ := set_brk hl₁ (hbrk ▸ hlo) hhi
    refine .ok (hl₂.resize (fun hi => ?_) (fun hi j hj hji => ?_))
    · exact ⟨(hl₁.placed i hi).start_aligned, heapSize_aligned hl₁ sz, (hroom i hheap hi).1⟩
    · exact (hroom i hheap hi).2 j hj hji

theorem growheap_spec (hl : Layout mm) {n : Int} {level : WalkLevel} {enough : Bool}
    (hok : GrowAllowed mm n level enough) :
    Ensures (growheap mm n level enough) NoOverlap fun r => Layout r.1 := by
  unfold growheap
  dsimp only
  by_cases hbad : add64 mm.brk (toUint64 n) < mm.start_brk
  · rw [if_pos hbad]
    exact .error Stop.noConfusion
  rw [if_neg hbad]
  by_cases hreach : n > 0 ∧ pageReaches level mm.brk (add64 mm.brk (toUint64 n)) = true
  · rw [if_pos hreach]
    exact .ok (set_brk hl (by omega) (Nat.mod_lt _ (by decide)))
  rw [if_neg hreach]
  by_cases hfail : n > 0 ∧ growSz mm n enough = 0
  · rw [if_pos hfail]
    exact .ok hl
  rw [if_neg hfail]
  obtain ⟨hlo, hhi⟩ := growSz_bounds hl hbad hfail
  refine setHeap_spec hl hlo hhi ?_
  rcases hok with ⟨hn, hr | hr⟩ | hset
  · exact absurd ⟨hn, hr⟩ hreach
  · exact absurd ⟨hn, hr⟩ hfail
  · exact hset

theorem step_spec (hl : Layout mm) {e : Event} (hok : Allowed mm e) :
    Ensures (step mm e) NoOverlap Layout := by
  cases e with
  | vma_map va len perm type =>
    simp only [step]
    exact (vma_map_spec hl va len perm type hok).map fun r h => h.1
  | vma_map_file va len perm type offset fp =>
    exact (vma_map_file_spec hl va len perm type offset fp hok).map fun r h => h
  | do_mmap addr length prot flags fp offset mapped =>
    exact (do_mmap_spec hl prot fp offset mapped hok).map fun r h => h
  | sys_mprotect start len prot => exact (sys_mprotect_spec hl hok).map fun r h => h
  | vmspace_unmap va len => exact (vmspace_unmap_spec hl va len).map fun r h => h
  | growheap n level enough => exact (growheap_spec hl hok).map fun r h => h

end

/-! ## Runs -/

theorem fresh_layout (vmas : Nat → vma) (used : Nat → Bool) (size : Nat) :
    Layout (fresh vmas used size) := by
  refine ⟨List.nodup_nil, fun _ hi => (List.not_mem_nil hi).elim, fun _ hi => (List.not_mem_nil hi).elim,
    fun _ hi => (List.not_mem_nil hi).elim, roundUp_aligned size, le_rfl, ?_⟩
  simp only [fresh, PGROUNDUP, roundUp, PGSIZE]
  omega

/-- The areas are pairwise disjoint, page-aligned and do not wrap, and every address has at most one
candidate. -/
structure AreasApart (mm : mm_struct) : Prop where
  disjoint : ∀ i ∈ mm.head_vma, ∀ j ∈ mm.head_vma, i ≠ j → Disjoint (mm.vmas i).span (mm.vmas j).span
  placed : ∀ i ∈ mm.head_vma, (mm.vmas i).Placed
  unique : ∀ addr, ∀ i ∈ mm.head_vma, ∀ j ∈ mm.head_vma, candidate (mm.vmas i) addr = true →
    candidate (mm.vmas j) addr = true → i = j

/-- **In every run of allowed operations the areas stay apart and the overlap assertion is not
reached.** -/
theorem vma_layout {vmas : Nat → vma} {used : Nat → Bool} {size : Nat} {es : List Event} {mm : mm_struct}
    (hrun : Run (Guarded Step Allowed) (fresh vmas used size) es mm) :
    AreasApart mm ∧ ∀ e, Allowed mm e → step mm e ≠ .error .vma_overlap := by
  have hl : Layout mm := by
    refine hrun.invariant ?_ (fresh_layout vmas used size)
    intro mm₁ e mm₂ hl₁ hstep
    exact (step_spec hl₁ hstep.1).of_ok hstep.2
  refine ⟨⟨fun i hi j hj hij => hl.disjoint hi hj hij, hl.placed,
    fun addr i hi j hj => hl.candidate_unique hi hj⟩, ?_⟩
  intro e hok herr
  exact (step_spec hl hok).of_error herr rfl

/-! ## Deciding the condition -/

section Decide

variable (mm : mm_struct)

instance (a b : Nat) (v : vma) : Decidable (Disjoint (Set.Ico a b) v.span) :=
  decidable_of_iff (min b (v.startva + v.size) ≤ max a v.startva) (by
    simp only [vma.span, Set.Ico_disjoint_Ico])

instance (va len : Nat) : Decidable (CanPlace mm va len) :=
  decidable_of_iff (0 < mapSize len ∧ va + mapSize len < 2 ^ 64 ∧
      ∀ i ∈ mm.head_vma, Disjoint (Set.Ico va (va + mapSize len)) (mm.vmas i).span)
    ⟨fun ⟨h₁, h₂, h₃⟩ => ⟨h₁, h₂, h₃⟩, fun ⟨h₁, h₂, h₃⟩ => ⟨h₁, h₂, h₃⟩⟩

instance (len : Nat) : Decidable (CanPlaceAbove mm len) :=
  decidable_of_iff (0 < mapSize len ∧ mappingMax mm + mapSize len < 2 ^ 64 ∧
      ∀ i ∈ mm.head_vma, (mm.vmas i).type = .VMA_STACK ∨ (mm.vmas i).type = .VMA_INTERP →
        Disjoint (Set.Ico (mappingMax mm) (mappingMax mm + mapSize len)) (mm.vmas i).span)
    ⟨fun ⟨h₁, h₂, h₃⟩ => ⟨h₁, h₂, h₃⟩, fun ⟨h₁, h₂, h₃⟩ => ⟨h₁, h₂, h₃⟩⟩

instance : Decidable (alloc_vma mm = none) :=
  decidable_of_iff ((alloc_vma mm).isNone = true) Option.isNone_iff_eq_none

instance (va len : Nat) : Decidable (MapAllowed mm va len) :=
  inferInstanceAs (Decidable (alloc_vma mm = none ∨ va % PGSIZE ≠ 0 ∨ CanPlace mm va len))

instance (v : vma) (addr length : Nat) : Decidable (PagesOf v addr length) :=
  decidable_of_iff (addr % PGSIZE = 0 ∧ length % PGSIZE = 0 ∧ 0 < length ∧
      addr + length ≤ v.startva + v.size)
    ⟨fun ⟨h₁, h₂, h₃, h₄⟩ => ⟨h₁, h₂, h₃, h₄⟩, fun ⟨h₁, h₂, h₃, h₄⟩ => ⟨h₁, h₂, h₃, h₄⟩⟩

instance (addr length flags : Nat) : Decidable (MmapAllowed mm addr length flags) := by
  unfold MmapAllowed
  cases find_vma_for_va mm addr with
  | none => infer_instance
  | some i => infer_instance

/-- A property of the value of an option, if there is one. -/
instance decidableForallSome (o : Option Nat) (p : Nat → Prop) [DecidablePred p] :
    Decidable (∀ i, o = some i → p i) :=
  match o with
  | none => isTrue nofun
  | some i => decidable_of_iff (p i) ⟨fun h _ hj => by cases hj; exact h, fun h => h i rfl⟩

instance (start len prot : Nat) : Decidable (ProtectAllowed mm start len prot) := by
  unfold ProtectAllowed
  infer_instance

instance (sz : Nat) : Decidable (HeapRoom mm sz) := by
  unfold HeapRoom
  infer_instance

instance (n : Int) (level : WalkLevel) (enough : Bool) : Decidable (GrowAllowed mm n level enough) := by
  unfold GrowAllowed CanSetHeap
  infer_instance

instance (e : Event) : Decidable (Allowed mm e) := by
  cases e <;> (unfold Allowed; infer_instance)

end Decide

/-- A step of the code, where it returns. -/
def returned (mm : mm_struct) (e : Event) : Option mm_struct := (step mm e).toOption

theorem step_of_returned {mm mm' : mm_struct} {e : Event} (h : returned mm e = some mm') :
    Step mm e mm' := ok_of_toOption h

/-- A pool that nobody uses. -/
def unusedPool (_ : Nat) : vma := ⟨.VMA_STACK, 0, 0, 0, 0, none⟩

/-- A process that maps, protects, grows its heap and unmaps. -/
def session : List Event :=
  [.vma_map 0x10000 0x3000 5 .VMA_TEXT, .vma_map 0x3ffe000000 0xa000 3 .VMA_STACK,
    .do_mmap 0 0x2000 3 0x22 none 0 false, .sys_mprotect 0x30000000 0x1000 1,
    .growheap 0x1000 .none true, .vmspace_unmap 0x30000000 0x2000]

theorem vma_layout_session : ∃ mm,
    Run (Guarded Step Allowed) (fresh unusedPool (fun _ => false) 0x12345) session mm ∧
      AreasApart mm := by
  have hexec : (exec (fun mm e => if Allowed mm e then returned mm e else none)
      (fresh unusedPool (fun _ => false) 0x12345) session).isSome = true := by
    decide +kernel
  obtain ⟨mm, hmm⟩ := Option.isSome_iff_exists.mp hexec
  have hrun : Run (Guarded Step Allowed) (fresh unusedPool (fun _ => false) 0x12345) session mm := by
    refine (run_of_exec _ _ _ hmm).mono fun mm₁ e mm₂ hstep => ?_
    by_cases hok : Allowed mm₁ e
    · rw [if_pos hok] at hstep
      exact ⟨hok, step_of_returned hstep⟩
    · rw [if_neg hok] at hstep
      cases hstep
  exact ⟨mm, hrun, (vma_layout hrun).1⟩

/-- A program with an interpreter that maps 512 MiB. -/
def bigMapping : List Event :=
  [.vma_map 0x10000 0x3000 5 .VMA_TEXT, .vma_map 0x40000000 0xa1000 5 .VMA_INTERP,
    .do_mmap 0 0x20000000 3 0x22 none 0 false]

/-- Whether an operation stopped at the overlap assertion. -/
def overlapped : Except Stop mm_struct → Bool
  | .error .vma_overlap => true
  | _ => false

theorem eq_of_overlapped {r : Except Stop mm_struct} (h : overlapped r = true) :
    r = .error .vma_overlap := by
  unfold overlapped at h
  split at h
  · rfl
  · cases h

/-- The new mapping swallows the interpreter, and a fixed mapping of length 0 over the program text reaches the
overlap assertion. -/
theorem mapping_over_interpreter : ∃ mm,
    Run Step (fresh unusedPool (fun _ => false) 0x12345) bigMapping mm ∧ ¬ AreasApart mm ∧
      step mm (.do_mmap 0x10000 0 3 0x32 none 0 false) = .error .vma_overlap := by
  have hexec : (exec returned (fresh unusedPool (fun _ => false) 0x12345) bigMapping).any (fun mm =>
      1 ∈ mm.head_vma ∧ 2 ∈ mm.head_vma ∧ candidate (mm.vmas 1) 0x40000000 = true ∧
        candidate (mm.vmas 2) 0x40000000 = true ∧
          overlapped (step mm (.do_mmap 0x10000 0 3 0x32 none 0 false)) = true) = true := by
    decide +kernel
  obtain ⟨mm, hmm, hat⟩ := (Option.any_eq_true _ _).mp hexec
  obtain ⟨h1, h2, hc1, hc2, hstop⟩ := of_decide_eq_true hat
  refine ⟨mm, (run_of_exec _ _ _ hmm).mono fun _ _ _ => step_of_returned, ?_, eq_of_overlapped hstop⟩
  -- both areas are candidates for the interpreter's first address
  intro hapart
  exact absurd (hapart.unique 0x40000000 1 h1 2 h2 hc1 hc2) (by decide)

end LostWakeup.Mm.Vma
