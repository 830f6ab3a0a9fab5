/-
# LostWakeup.Mm.Leaves — what the functions of `vm.c` do to leaf entries and to memory.

`leafAt pt u` is the leaf entry at a place, zero where there is none.  `walk` reads it, and every store
through a pointer from `walk` and every call of `mappages` changes it at one place.  Allocation writes to
frames that were not allocated before.
-/
import LostWakeup.Mm.PageRef

namespace LostWakeup.Mm.Vm

open Library
open Function (update update_of_ne update_self)
open Mm.Vma (PGSIZE SUPERPGSIZE PGROUNDUP PGROUNDDOWN SUPERPG_ROUNDUP File vma mm_struct
  find_vma_for_va)

/-- Any way of stopping. -/
def Anyhow (_ : Panic) : Prop := True

/-! ## Leaf entries -/

def PageTable.leafAt (pt : PageTable) : Use → Pte
  | .common r s =>
    match pt.dir r with
    | .table _ ptes => ptes s
    | _ => Pte.zero
  | .super r =>
    match pt.dir r with
    | .leaf pte => pte
    | _ => Pte.zero
  | _ => Pte.zero

theorem refs_eq_leafAt (pt : PageTable) (f : Nat) {u : Use} (hleaf : u.leaf = true) :
    pt.refs f u = (pt.leafAt u).refs f := by
  cases u with
  | kernel order => cases hleaf
  | root r => cases hleaf
  | table r => cases hleaf
  | common r s =>
    rw [refs_of_region pt f rfl, PageTable.leafAt]
    cases pt.dir r <;> simp [Entry.refs]
  | super r =>
    rw [refs_of_region pt f rfl, PageTable.leafAt]
    cases pt.dir r <;> simp [Entry.refs]

section Walk

variable {pt : PageTable} {va : Nat} {level : Level} {pte : Pte}

theorem dir_of_walk (hwalk : walk pt va = .ok (.entry level pte)) :
    va < MAXVA ∧ ((level = .SUPERPAGE ∧ pt.dir (region va) = .leaf pte) ∨
      ∃ page ptes, level = .COMMONPAGE ∧ pt.dir (region va) = .table page ptes ∧ pte = ptes (slot va)) := by
  unfold walk at hwalk
  split at hwalk
  · cases hwalk
  · next hva =>
    refine ⟨Nat.lt_of_not_le hva, ?_⟩
    cases hd : pt.dir (region va) with
    | none =>
      rw [hd] at hwalk
      cases hwalk
    | leaf pte' =>
      rw [hd] at hwalk
      cases hwalk
      exact .inl ⟨rfl, rfl⟩
    | table page ptes =>
      rw [hd] at hwalk
      cases hwalk
      exact .inr ⟨page, ptes, rfl, rfl, rfl⟩

theorem dir_of_walk_null (hwalk : walk pt va = .ok .null) : va < MAXVA ∧ pt.dir (region va) = .none := by
  unfold walk at hwalk
  split at hwalk
  · cases hwalk
  · next hva =>
    refine ⟨Nat.lt_of_not_le hva, ?_⟩
    cases hd : pt.dir (region va) with
    | none => rfl
    | leaf pte' =>
      rw [hd] at hwalk
      cases hwalk
    | table page ptes =>
      rw [hd] at hwalk
      cases hwalk

theorem leafAt_of_walk (hwalk : walk pt va = .ok (.entry level pte)) : pt.leafAt (place va level) = pte := by
  obtain ⟨-, ⟨rfl, hd⟩ | ⟨page, ptes, rfl, hd, rfl⟩⟩ := dir_of_walk hwalk
  · simp only [place, PageTable.leafAt, hd]
  · simp only [place, PageTable.leafAt, hd]

theorem leafAt_of_walk_ne (hwalk : walk pt va = .ok (.entry level pte)) {level' : Level} (hne : level' ≠ level) :
    pt.leafAt (place va level') = Pte.zero := by
  obtain ⟨-, ⟨rfl, hd⟩ | ⟨page, ptes, rfl, hd, rfl⟩⟩ := dir_of_walk hwalk
  · cases level' with
    | SUPERPAGE => exact absurd rfl hne
    | COMMONPAGE => simp only [place, PageTable.leafAt, hd]
  · cases level' with
    | COMMONPAGE => exact absurd rfl hne
    | SUPERPAGE => simp only [place, PageTable.leafAt, hd]

theorem leafAt_of_walk_null (hwalk : walk pt va = .ok .null) (level : Level) :
    pt.leafAt (place va level) = Pte.zero := by
  have hd := (dir_of_walk_null hwalk).2
  cases level with
  | COMMONPAGE => simp only [place, PageTable.leafAt, hd]
  | SUPERPAGE => simp only [place, PageTable.leafAt, hd]

theorem walk_of_leafAt (hva : va < MAXVA) (hne : pt.leafAt (place va level) ≠ Pte.zero) :
    walk pt va = .ok (.entry level (pt.leafAt (place va level))) := by
  unfold walk
  rw [if_neg hva.not_ge]
  cases level with
  | COMMONPAGE =>
    simp only [place, PageTable.leafAt] at hne ⊢
    cases hd : pt.dir (region va) with
    | none => simp [hd] at hne
    | leaf pte => simp [hd] at hne
    | table page ptes => rfl
  | SUPERPAGE =>
    simp only [place, PageTable.leafAt] at hne ⊢
    cases hd : pt.dir (region va) with
    | none => simp [hd] at hne
    | leaf pte => rfl
    | table page ptes => simp [hd] at hne

end Walk

theorem leafAt_of_region {pt pt' : PageTable} {u : Use} {r : Fin NREGION} (hu : u.region? = some r)
    (hd : pt'.dir r = pt.dir r) : pt'.leafAt u = pt.leafAt u := by
  cases u with
  | common r' s =>
    cases hu
    simp only [PageTable.leafAt, hd]
  | super r' =>
    cases hu
    simp only [PageTable.leafAt, hd]
  | _ => rfl

theorem leafAt_setEntry (pt : PageTable) {r : Fin NREGION} (e : Entry) {u : Use} (hu : u.region? ≠ some r) :
    (pt.setEntry r e).leafAt u = pt.leafAt u := by
  cases hr : u.region? with
  | none => cases u <;> first | rfl | cases hr
  | some r' =>
    refine leafAt_of_region hr ?_
    show update pt.dir r e r' = pt.dir r'
    refine update_of_ne ?_ _ _
    rintro rfl
    exact hu hr

/-- A new leaf in a level-0 table. -/
theorem leafAt_setTable {pt : PageTable} {va page : Nat} {ptes : Fin NPTE → Pte}
    (hd : pt.dir (region va) = .table page ptes) (new : Pte) :
    (pt.setEntry (region va) (.table page (update ptes (slot va) new))).leafAt
      = update pt.leafAt (place va .COMMONPAGE) new := by
  funext u
  by_cases hu : u.region? = some (region va)
  · cases u with
    | common r s =>
      cases hu
      by_cases hs : s = slot va
      · subst hs
        simp [PageTable.leafAt, PageTable.setEntry, place]
      · simp [PageTable.leafAt, PageTable.setEntry, place, hs, hd]
    | super r =>
      cases hu
      simp [PageTable.leafAt, PageTable.setEntry, place, hd]
    | table r =>
      cases hu
      simp [PageTable.leafAt, place]
    | kernel order => cases hu
    | root r => cases hu
  · rw [leafAt_setEntry pt _ hu, update_of_ne]
    rintro rfl
    exact hu (place_region va _)

/-- A new leaf in place of a 2M leaf, or where there was nothing. -/
theorem leafAt_setLeaf {pt : PageTable} {va : Nat} (hd : ∀ page ptes, pt.dir (region va) ≠ .table page ptes)
    {e : Entry} {new : Pte} (he : e = .leaf new ∨ (e = .none ∧ new = Pte.zero)) :
    (pt.setEntry (region va) e).leafAt = update pt.leafAt (place va .SUPERPAGE) new := by
  funext u
  by_cases hu : u.region? = some (region va)
  · cases u with
    | common r s =>
      cases hu
      rw [update_of_ne (by simp [place])]
      have hold : pt.leafAt (.common (region va) s) = Pte.zero := by
        cases hdir : pt.dir (region va) with
        | none => simp only [PageTable.leafAt, hdir]
        | leaf pte => simp only [PageTable.leafAt, hdir]
        | table page ptes => exact absurd hdir (hd page ptes)
      rw [hold]
      obtain rfl | ⟨rfl, rfl⟩ := he
      · simp [PageTable.leafAt, PageTable.setEntry]
      · simp [PageTable.leafAt, PageTable.setEntry]
    | super r =>
      cases hu
      obtain rfl | ⟨rfl, rfl⟩ := he
      · simp [PageTable.leafAt, PageTable.setEntry, place]
      · simp [PageTable.leafAt, PageTable.setEntry, place]
    | table r =>
      cases hu
      simp [PageTable.leafAt, place]
    | kernel order => cases hu
    | root r => cases hu
  · rw [leafAt_setEntry pt _ hu, update_of_ne]
    rintro rfl
    exact hu (place_region va _)

theorem leafAt_set {pt : PageTable} {va : Nat} {level : Level} {old : Pte}
    (hwalk : walk pt va = .ok (.entry level old)) (new : Pte) :
    (pt.set va new).leafAt = update pt.leafAt (place va level) new := by
  obtain ⟨-, ⟨rfl, hd⟩ | ⟨page, ptes, rfl, hd, rfl⟩⟩ := dir_of_walk hwalk
  · simp only [PageTable.set, hd]
    refine leafAt_setLeaf (by simp [hd]) ?_
    split
    · next hzero => exact .inr ⟨rfl, hzero⟩
    · exact .inl rfl
  · simp only [PageTable.set, hd]
    exact leafAt_setTable hd new

/-! ## Memory -/

/-- Allocated frames stay allocated and keep their contents. -/
def Grows (k k' : Phys) : Prop :=
  ∀ frame, k.busy frame = true → k'.busy frame = true ∧ k'.mem frame = k.mem frame

/-- Frames that were allocated before keep their contents. -/
def MemKept (k k' : Phys) : Prop := ∀ frame, k.busy frame = true → k'.mem frame = k.mem frame

theorem Grows.refl (k : Phys) : Grows k k := fun _ h => ⟨h, rfl⟩

theorem Grows.trans {k k' k'' : Phys} (h : Grows k k') (h' : Grows k' k'') : Grows k k'' := by
  intro frame hbusy
  obtain ⟨hb, hm⟩ := h frame hbusy
  obtain ⟨hb', hm'⟩ := h' frame hb
  exact ⟨hb', hm'.trans hm⟩

theorem Grows.memKept {k k' : Phys} (h : Grows k k') : MemKept k k' := fun frame hbusy => (h frame hbusy).2

/-- What an allocation found was free. -/
def Fresh (k : Phys) (order : Nat) : Option Nat → Prop
  | none => True
  | some page => ∀ frame, inBlock page order frame = true → k.busy frame = false

theorem kmalloc_grows (k : Phys) (order : Nat) :
    Ensures (kmalloc k order) Anyhow fun r => Grows k r.1 ∧ Fresh k order r.2 := by
  unfold kmalloc
  cases hpool : k.pool with
  | nil => exact .ok ⟨.refl k, trivial⟩
  | cons head pool =>
    cases head with
    | none => exact .ok ⟨.refl k, trivial⟩
    | some page =>
      simp only
      split
      · exact .error trivial
      · next hany =>
        split
        · exact .error trivial
        refine .ok ⟨fun frame hbusy => ⟨?_, rfl⟩, fun frame hin => ?_⟩
        · simp [hbusy]
        · obtain ⟨i, hi, rfl⟩ := (inBlock_iff _ _ _).mp hin
          simp only [List.any_eq_true, List.mem_range, not_exists, not_and, Bool.not_eq_true] at hany
          exact hany i hi

theorem grows_write {k k' k'' : Phys} {page order : Nat} (h : Grows k k') (hfresh : Fresh k order (some page))
    (hbusy : k''.busy = k'.busy)
    (hmem : ∀ frame, inBlock page order frame = false → k''.mem frame = k'.mem frame) : Grows k k'' := by
  intro frame hb
  have hout : inBlock page order frame = false := by
    rw [Bool.eq_false_iff]
    intro hin
    rw [hfresh frame hin] at hb
    cases hb
  rw [hbusy, hmem frame hout]
  exact h frame hb

theorem kzalloc_grows (k : Phys) (order : Nat) :
    Ensures (kzalloc k order) Anyhow fun r => Grows k r.1 ∧ Fresh k order r.2 := by
  unfold kzalloc
  refine .bind (kmalloc_grows k order) ?_
  rintro ⟨k', mem⟩ ⟨hgrows, hfresh⟩
  cases mem with
  | none => exact .ok ⟨hgrows, hfresh⟩
  | some page =>
    refine .ok ⟨grows_write hgrows hfresh rfl fun frame hout => ?_, hfresh⟩
    simp [hout]

theorem kfree_mem (k : Phys) (page : Nat) : Ensures (kfree k page) Anyhow fun k' => k'.mem = k.mem := by
  unfold kfree
  split
  · exact .error trivial
  simp only
  split
  · exact .ok rfl
  · split
    · exact .error trivial
    · exact .ok rfl

/-! ## `mappages` -/

section Map

variable (k : Phys) (pt : PageTable)

theorem walkRoot_leafAt (va : Nat) :
    Ensures (walkRoot k pt va) Anyhow fun r => Grows k r.1 ∧ r.2.1.leafAt = pt.leafAt := by
  unfold walkRoot
  cases pt.roots (rootOf va) with
  | some page => exact .ok ⟨.refl k, rfl⟩
  | none =>
    refine .bind (kzalloc_grows k 0) ?_
    rintro ⟨k', page⟩ ⟨hgrows, -⟩
    cases page with
    | none => exact .ok ⟨hgrows, rfl⟩
    | some page =>
      refine .ok ⟨hgrows, ?_⟩
      funext u
      cases u <;> rfl

theorem walkTable_leafAt (va : Nat) (level : Level) :
    Ensures (walkTable k pt va level) Anyhow fun r => Grows k r.1 ∧ r.2.1.leafAt = pt.leafAt := by
  unfold walkTable
  split
  · next hd =>
    refine .bind (kzalloc_grows k 0) ?_
    rintro ⟨k', page⟩ ⟨hgrows, -⟩
    cases page with
    | none => exact .ok ⟨hgrows, rfl⟩
    | some page =>
      refine .ok ⟨hgrows, ?_⟩
      -- an empty table has the entries that nothing has
      funext u
      show (pt.setEntry (region va) (.table page fun _ => Pte.zero)).leafAt u = pt.leafAt u
      by_cases hu : u.region? = some (region va)
      · cases u with
        | common r s =>
          cases hu
          simp [PageTable.leafAt, PageTable.setEntry, hd]
        | super r =>
          cases hu
          simp [PageTable.leafAt, PageTable.setEntry, hd]
        | _ => rfl
      · exact leafAt_setEntry pt _ hu
  · exact .ok ⟨.refl k, rfl⟩

theorem mapEntry_leafAt (va pfn : Nat) (perm : Flags) (level : Level) :
    Ensures (mapEntry pt va pfn perm level) Anyhow fun pt' =>
      pt'.leafAt = update pt.leafAt (place va level) ⟨pfn, perm ||| PTE_V⟩ := by
  unfold mapEntry
  simp only
  split
  · next hd => exact .ok (leafAt_setLeaf (by simp [hd]) (.inl rfl))
  · next page ptes hd =>
    split
    · exact .error trivial
    · exact .ok (leafAt_setTable hd _)
  · exact .error trivial

theorem mapOne_leafAt (va pfn : Nat) (perm : Flags) (level : Level) :
    Ensures (mapOne k pt va pfn perm level) Anyhow fun r => Grows k r.1 ∧
      r.2.1.leafAt = if r.2.2 then update pt.leafAt (place va level) ⟨pfn, perm ||| PTE_V⟩
        else pt.leafAt := by
  unfold mapOne
  split
  · exact .error trivial
  refine .bind (walkRoot_leafAt k pt va) ?_
  rintro ⟨k₁, pt₁, ok₁⟩ ⟨hgrows₁, hleaf₁⟩
  cases ok₁ with
  | false => exact .ok ⟨hgrows₁, hleaf₁⟩
  | true =>
    simp only [Bool.true_eq_false, if_false]
    refine .bind (walkTable_leafAt k₁ pt₁ va level) ?_
    rintro ⟨k₂, pt₂, ok₂⟩ ⟨hgrows₂, hleaf₂⟩
    have hleaf := hleaf₂.trans hleaf₁
    cases ok₂ with
    | false => exact .ok ⟨hgrows₁.trans hgrows₂, hleaf⟩
    | true =>
      simp only [Bool.true_eq_false, if_false]
      refine .bind (mapEntry_leafAt pt₂ va pfn perm level) ?_
      intro pt₃ hleaf₃
      refine .ok ⟨hgrows₁.trans hgrows₂, ?_⟩
      simp only [hleaf₃, if_true]
      rw [show pt₂.leafAt = pt.leafAt from hleaf]

end Map

/-! ## One page of `uvmalloc` -/

theorem addrs_empty (a : Nat) {step : Nat} (hstep : 0 < step) : addrs a a step = [] := by
  have hzero : (a - a + (step - 1)) / step = 0 := by
    rw [Nat.sub_self, Nat.zero_add]
    exact Nat.div_eq_of_lt (Nat.sub_lt hstep (by decide))
  rw [addrs, hzero]
  rfl

theorem addrs_page (a : Nat) : addrs a (a + PGSIZE) PGSIZE = [a] := by
  have hone : (a + PGSIZE - a + (PGSIZE - 1)) / PGSIZE = 1 := by
    rw [Nat.add_sub_cancel_left]
    rfl
  rw [addrs, hone]
  rfl

theorem allocLoop_nil (dealloc : Dealloc) (startva : Nat) (perm : Flags) (level : Level) (k : Phys)
    (pt : PageTable) : allocLoop dealloc startva perm level [] k pt = .ok (k, pt, true) :=
  rfl

theorem pgsize_eq : PGSIZE = 4096 := rfl

theorem superpgsize_eq : SUPERPGSIZE = 2097152 := rfl

theorem roundUp_of_aligned {a : Nat} (ha : a % PGSIZE = 0) (hlt : a < 2 ^ 64) : PGROUNDUP a = a := by
  simp only [PGROUNDUP, roundUp, PGSIZE] at ha ⊢
  omega

theorem superRoundUp_of_aligned {a : Nat} (ha : a % SUPERPGSIZE = 0) (hmax : a < MAXVA) :
    SUPERPG_ROUNDUP a = a := by
  simp only [SUPERPG_ROUNDUP, roundUp, superpgsize_eq, MAXVA] at ha hmax ⊢
  omega

theorem superDown_page {a : Nat} (ha : a % SUPERPGSIZE = 0) : SUPERPG_DOWN (a + PGSIZE) = a := by
  simp only [SUPERPG_DOWN, superpgsize_eq, pgsize_eq] at ha ⊢
  omega

theorem page_le_superRoundUp {a : Nat} (ha : a % PGSIZE = 0) (hsuper : a % SUPERPGSIZE ≠ 0) (hmax : a < MAXVA) :
    a + PGSIZE ≤ SUPERPG_ROUNDUP a := by
  simp only [SUPERPG_ROUNDUP, roundUp, superpgsize_eq, pgsize_eq, MAXVA] at ha hsuper hmax ⊢
  omega

/-- The loops of `uvmalloc` make one turn between them. -/
theorem uvmalloc_page (k : Phys) (pt : PageTable) {a : Nat} (ha : a % PGSIZE = 0) (hmax : a < MAXVA)
    (perm : Flags) :
    uvmalloc k pt a (a + PGSIZE) perm = (allocLoop uvmdealloc a perm .COMMONPAGE [a] k pt).map
      fun r => (r.1, r.2.1, if r.2.2 then a + PGSIZE else 0) := by
  have hnot : ¬ a + PGSIZE < a := by omega
  unfold uvmalloc uvmallocWith
  rw [if_neg hnot]
  have hlt : a < 2 ^ 64 := hmax.trans (by decide)
  simp only [roundUp_of_aligned ha hlt]
  by_cases hsuper : a % SUPERPGSIZE = 0
  · have hsup := superRoundUp_of_aligned hsuper hmax
    have hdown := superDown_page hsuper
    have hle : ¬ a + PGSIZE ≤ a := by
      simp only [PGSIZE]
      omega
    have hpos : 0 < PGSIZE := Nat.succ_pos _
    have hspos : 0 < SUPERPGSIZE := Nat.mul_pos hpos (Nat.succ_pos 511)
    simp only [hsup, hdown, if_neg hle, addrs_empty a hpos, addrs_empty a hspos, addrs_page]
    cases hloop : allocLoop uvmdealloc a perm .COMMONPAGE [a] k pt with
    | error e => simp [allocLoop_nil, hloop, bind, Except.bind, Except.map]
    | ok r =>
      obtain ⟨k', pt', ok⟩ := r
      cases ok <;> simp [allocLoop_nil, hloop, bind, Except.bind, Except.map, pure, Except.pure]
  · have hle := page_le_superRoundUp ha hsuper hmax
    simp only [if_pos hle, addrs_page]
    cases hloop : allocLoop uvmdealloc a perm .COMMONPAGE [a] k pt with
    | error e => rfl
    | ok r =>
      obtain ⟨k', pt', ok⟩ := r
      cases ok <;> rfl

theorem uvmdealloc_self (k : Phys) (pt : PageTable) (a : Nat) : uvmdealloc k pt a a = .ok (k, pt) := by
  unfold uvmdealloc uvmdeallocWith
  rw [if_pos le_rfl]

/-- The flags of the entries that `uvmalloc` makes. -/
def allocFlags (perm : Flags) : Flags := PTE_R ||| PTE_U ||| perm ||| PTE_V

/-- One page more at `a`, in a frame that was free, or none. -/
def PageAdded (k : Phys) (pt : PageTable) (a : Nat) (perm : Flags) (pt' : PageTable) : Prop :=
  pt'.leafAt = pt.leafAt ∨ ∃ mem, k.busy mem = false ∧
    pt'.leafAt = update pt.leafAt (place a .COMMONPAGE) ⟨mem, allocFlags perm⟩

theorem uvmalloc_page_leafAt (k : Phys) (pt : PageTable) {a : Nat} (ha : a % PGSIZE = 0) (hmax : a < MAXVA)
    (perm : Flags) :
    Ensures (uvmalloc k pt a (a + PGSIZE) perm) Anyhow fun r => MemKept k r.1 ∧ PageAdded k pt a perm r.2.1 := by
  rw [uvmalloc_page k pt ha hmax]
  refine .map (Q := fun r => MemKept k r.1 ∧ PageAdded k pt a perm r.2.1) ?_ fun r hr => hr
  unfold allocLoop
  refine .bind (kzalloc_grows k _) ?_
  rintro ⟨k₁, mem⟩ ⟨hgrows₁, hfresh⟩
  cases mem with
  | none =>
    simp only [uvmdealloc_self]
    exact .ok ⟨hgrows₁.memKept, .inl rfl⟩
  | some mem =>
    simp only [mappages_one .COMMONPAGE ha]
    refine .bind (mapOne_leafAt k₁ pt a mem _ .COMMONPAGE) ?_
    rintro ⟨k₂, pt₂, ok⟩ ⟨hgrows₂, hleaf⟩
    have hgrows := hgrows₁.trans hgrows₂
    cases ok with
    | false =>
      simp only [if_true]
      refine .bind (kfree_mem k₂ mem) fun k₃ hmem => ?_
      simp only [uvmdealloc_self]
      refine .ok ⟨fun frame hbusy => ?_, .inl hleaf⟩
      show k₃.mem frame = k.mem frame
      rw [hmem]
      exact (hgrows frame hbusy).2
    | true =>
      simp only [Bool.true_eq_false, if_false, allocLoop]
      exact .ok ⟨hgrows.memKept, .inr ⟨mem, hfresh mem (inBlock_self _ _), hleaf⟩⟩

/-- The leaves are those of before, or new ones with the flags of `uvmalloc`. -/
def OnlyAdds (pt : PageTable) (perm : Flags) (pt' : PageTable) : Prop :=
  ∀ u, pt'.leafAt u = pt.leafAt u ∨ (pt'.leafAt u).flags = allocFlags perm

theorem OnlyAdds.trans {pt pt' pt'' : PageTable} {perm : Flags} (h : OnlyAdds pt perm pt')
    (h' : OnlyAdds pt' perm pt'') : OnlyAdds pt perm pt'' := by
  intro u
  obtain hsame | hnew := h' u
  · rw [hsame]
    exact h u
  · exact .inr hnew

theorem allocLoop_adds {dealloc : Dealloc} {startva : Nat} {perm : Flags} {level : Level} {as : List Nat}
    (hal : ∀ a ∈ as, a % level.pgsize = 0) (k : Phys) (pt : PageTable) :
    Ensures (allocLoop dealloc startva perm level as k pt) Anyhow fun r => r.2.2 = true → OnlyAdds pt perm r.2.1 := by
  induction as generalizing k pt with
  | nil => exact .ok fun _ _ => .inl rfl
  | cons a as ih =>
    unfold allocLoop
    refine .bind (kzalloc_grows k _) ?_
    rintro ⟨k₁, mem⟩ -
    cases mem with
    | none =>
      simp only
      cases dealloc k₁ pt a startva with
      | error e => exact .error trivial
      | ok r => exact .ok fun hok => absurd hok Bool.false_ne_true
    | some mem =>
      simp only [mappages_one level (hal a (by simp))]
      refine .bind (mapOne_leafAt k₁ pt a mem _ level) ?_
      rintro ⟨k₂, pt₂, ok⟩ ⟨-, hleaf⟩
      cases ok with
      | false =>
        simp only [if_true]
        refine .bind (kfree_mem k₂ mem) fun k₃ _ => ?_
        cases dealloc k₃ pt₂ a startva with
        | error e => exact .error trivial
        | ok r => exact .ok fun hok => absurd hok Bool.false_ne_true
      | true =>
        simp only [Bool.true_eq_false, if_false]
        refine (ih (fun b hb => hal b (by simp [hb])) k₂ pt₂).mono fun r hr hok => ?_
        refine OnlyAdds.trans (fun u => ?_) (hr hok)
        have hleaf : pt₂.leafAt = update pt.leafAt (place a level) ⟨mem, allocFlags perm⟩ := hleaf
        rw [hleaf]
        by_cases hu : u = place a level
        · right
          rw [hu, update_self]
        · left
          rw [update_of_ne hu]

/-- `uvmalloc` that does not give up only adds pages. -/
theorem uvmalloc_adds (k : Phys) (pt : PageTable) (startva endva : Nat) (perm : Flags) :
    Ensures (uvmalloc k pt startva endva perm) Anyhow fun r => r.2.2 ≠ 0 → OnlyAdds pt perm r.2.1 := by
  have hkeeps := uvmallocWith_keeps uvmdealloc startva endva perm (E := Anyhow)
    (I := fun ok _ pt' => ok = true → OnlyAdds pt perm pt') (fun level as k₁ pt₁ hal h₁ =>
      (allocLoop_adds hal k₁ pt₁).mono fun r hr hok => (h₁ rfl).trans (hr hok))
    (k := k) fun _ _ => .inl rfl
  exact hkeeps.mono fun r hr hne => hr.elim (fun h => h rfl) fun h => absurd h.1 hne

/-! ## Page faults -/

theorem place_down (va : Nat) (level : Level) : place (PGROUNDDOWN va) level = place va level := by
  have hregion : region (PGROUNDDOWN va) = region va := by
    have hdiv : va / 4096 * 4096 / 2097152 = va / 2097152 := by omega
    apply Fin.ext
    simp only [region, PGROUNDDOWN, superpgsize_eq, pgsize_eq, hdiv]
  have hslot : slot (PGROUNDDOWN va) = slot va := by
    have hdiv : va / 4096 * 4096 / 4096 = va / 4096 := by omega
    apply Fin.ext
    simp only [slot, PGROUNDDOWN, pgsize_eq, hdiv]
  cases level with
  | COMMONPAGE => rw [place, place, hregion, hslot]
  | SUPERPAGE => rw [place, place, hregion]

theorem down_lt_maxva {va : Nat} : PGROUNDDOWN va < MAXVA ↔ va < MAXVA := by
  simp only [PGROUNDDOWN, pgsize_eq, MAXVA]
  omega

theorem page_of_fault {stval : Nat} (h : stval < MAXVA) : PGROUNDUP (stval + 1) = PGROUNDDOWN stval + PGSIZE := by
  simp only [PGROUNDUP, PGROUNDDOWN, roundUp, pgsize_eq, MAXVA] at h ⊢
  omega

/-- A page that parent and child share for reading only: no fault copies it. -/
def sharedReadonly (flags : Flags) : Bool := !flags.has PTE_W && flags.has PTE_SHARE && flags.has PTE_READONLY

/-- What a page fault does to the leaf entries: nothing, or a frame that was free behind the faulting page. -/
def Faulted (k : Phys) (pt : PageTable) (stval : Nat) (pt' : PageTable) (ok : Bool) : Prop :=
  (pt'.leafAt = pt.leafAt ∧ (ok = true → ∀ level, pt.leafAt (place stval level) = Pte.zero)) ∨
  ∃ level mem flags, k.busy mem = false ∧ sharedReadonly flags = false ∧
    (∀ level', level' ≠ level → pt.leafAt (place stval level') = Pte.zero) ∧
    pt'.leafAt = update pt.leafAt (place stval level) ⟨mem, flags⟩

theorem memmove_mem (k : Phys) {dst order frame : Nat} (src : Nat) {level : Level} (horder : level.order = order)
    (hout : inBlock dst order frame = false) : (memmove k dst src level).mem frame = k.mem frame := by
  subst horder
  simp [memmove, hout]

theorem cow_leafAt (k : Phys) {pt : PageTable} {va : Nat} {level : Level} {pte : Pte}
    (hwalk : walk pt va = .ok (.entry level pte)) :
    Ensures (cow k pt va level pte) Anyhow fun r => MemKept k r.1 ∧ Faulted k pt va r.2.1 r.2.2 := by
  unfold cow
  refine .bind (kmalloc_grows k _) ?_
  rintro ⟨k₁, mem⟩ ⟨hgrows, hfresh⟩
  cases mem with
  | none => exact .ok ⟨hgrows.memKept, .inl ⟨rfl, nofun⟩⟩
  | some mem =>
    have hkept : Grows k (memmove k₁ mem pte.pfn level) :=
      grows_write hgrows hfresh rfl fun frame hout => memmove_mem k₁ _ rfl hout
    refine .bind (kfree_mem _ pte.pfn) fun k₂ hmem => .ok ⟨fun frame hbusy => ?_, .inr ?_⟩
    · show k₂.mem frame = k.mem frame
      rw [hmem]
      exact (hkept frame hbusy).2
    refine ⟨level, mem, pte.flags ||| PTE_W, hfresh mem (inBlock_self _ _), ?_, fun level' hne =>
      leafAt_of_walk_ne hwalk hne, leafAt_set hwalk _⟩
    rw [sharedReadonly, has_or_self pte.flags PTE_W (by decide)]
    rfl

theorem perm_vma2pte_share (perm : Nat) : (allocFlags (perm_vma2pte perm)).has PTE_SHARE = false := by
  unfold perm_vma2pte
  split <;> split <;> split <;> rfl

theorem allocFlags_valid (perm : Flags) : (allocFlags perm).has PTE_V = true :=
  has_or_self _ PTE_V (by decide)

/-- A walk after a page was added where there was none. -/
theorem walkaddr_added {pt pt' : PageTable} {stval : Nat} {perm : Flags} {page : Nat} (k : Phys)
    (hzero : ∀ level, pt.leafAt (place stval level) = Pte.zero) (hadd : PageAdded k pt (PGROUNDDOWN stval) perm pt')
    (haddr : walkaddr pt' stval = some page) : k.busy page = false := by
  unfold walkaddr at haddr
  split at haddr
  · cases haddr
  split at haddr
  · next level pte hwalk =>
    have hleaf := leafAt_of_walk hwalk
    obtain hsame | ⟨mem, hbusy, hnew⟩ := hadd
    · rw [hsame, hzero] at hleaf
      subst hleaf
      cases haddr
    rw [place_down] at hnew
    cases level with
    | SUPERPAGE =>
      rw [hnew, update_of_ne (by simp [place]), hzero] at hleaf
      subst hleaf
      cases haddr
    | COMMONPAGE =>
      rw [hnew, update_self] at hleaf
      subst hleaf
      split at haddr
      · cases haddr
        exact hbusy
      · cases haddr
  · cases haddr

theorem inode_read_mem (k : Phys) (files : Files) (file : Vma.File) (page off : Nat) :
    Ensures (inode_read k files file page off) Anyhow fun k' =>
      ∀ frame, ¬(frame = page ∧ page ≠ 0) → k'.mem frame = k.mem frame := by
  unfold inode_read
  dsimp only
  split
  · exact .ok fun _ _ => rfl
  split
  · exact .error trivial
  next hne =>
    refine .ok fun frame hframe => update_of_ne ?_ _ _
    rintro rfl
    exact hframe ⟨rfl, hne⟩

theorem populate_leafAt (files : Files) (v : vma) (k : Phys) {pt : PageTable} {stval : Nat} (hmax : stval < MAXVA)
    (hzero : ∀ level, pt.leafAt (place stval level) = Pte.zero) :
    Ensures (pagefault.populate files stval v k pt) Anyhow fun r =>
      MemKept k r.1 ∧ Faulted k pt stval r.2.1 r.2.2 := by
  have hfaulted : ∀ pt' ok, PageAdded k pt (PGROUNDDOWN stval) (perm_vma2pte v.perm) pt' →
      Faulted k pt stval pt' ok := by
    rintro pt' ok (hsame | ⟨mem, hbusy, hnew⟩)
    · exact .inl ⟨hsame, fun _ => hzero⟩
    · rw [place_down] at hnew
      refine .inr ⟨.COMMONPAGE, mem, _, hbusy, ?_, fun level' _ => hzero level', hnew⟩
      rw [sharedReadonly, perm_vma2pte_share, Bool.and_false, Bool.false_and]
  have hpage := uvmalloc_page_leafAt k pt (a := PGROUNDDOWN stval) (Nat.mul_mod_left _ _) (down_lt_maxva.mpr hmax)
    (perm_vma2pte v.perm)
  rw [← page_of_fault hmax] at hpage
  unfold pagefault.populate
  refine .bind hpage ?_
  rintro ⟨k₁, pt₁, sz⟩ ⟨hkept, hadd⟩
  simp only
  split
  · cases v.vm_file with
    | none => exact .error trivial
    | some file =>
      dsimp only
      refine .bind (inode_read_mem k₁ files file _ _) ?_
      rintro k₂ hmem
      refine .ok ⟨fun frame hbusy => ?_, hfaulted _ _ hadd⟩
      refine (hmem frame ?_).trans (hkept frame hbusy)
      rintro ⟨rfl, hne⟩
      -- the page that is read into was free
      cases haddr : walkaddr pt₁ stval with
      | none =>
        rw [haddr] at hne
        exact hne rfl
      | some page =>
        have hfree := walkaddr_added k hzero hadd haddr
        rw [haddr] at hbusy
        rw [Option.getD_some, hfree] at hbusy
        cases hbusy
  · exact .ok ⟨hkept, hfaulted _ _ hadd⟩

theorem pagefault_leafAt (files : Files) (mm : mm_struct) (cause : Cause) (k : Phys) (pt : PageTable) (stval : Nat) :
    Ensures (pagefault files mm cause k pt stval) Anyhow fun r =>
      MemKept k r.1 ∧ Faulted k pt stval r.2.1 r.2.2 := by
  have hsame : MemKept k k ∧ Faulted k pt stval pt false := ⟨fun _ _ => rfl, .inl ⟨rfl, nofun⟩⟩
  unfold pagefault
  split
  · exact .ok hsame
  · next hdown =>
    have hmax : stval < MAXVA := down_lt_maxva.mp (Nat.lt_of_not_le hdown)
    split
    · exact .ok hsame
    simp only
    split
    · exact .ok hsame
    cases hwalk : walk pt stval with
    | error e => exact .error trivial
    | ok found =>
      cases found with
      | null => exact populate_leafAt files _ k hmax (leafAt_of_walk_null hwalk)
      | entry level pte =>
        simp only [bind, Except.bind]
        split
        · next hpte =>
          refine populate_leafAt files _ k hmax fun level' => ?_
          by_cases hlevel : level' = level
          · rw [hlevel, leafAt_of_walk hwalk, hpte]
          · exact leafAt_of_walk_ne hwalk hlevel
        · split
          · exact .error trivial
          · split
            · exact cow_leafAt k hwalk
            · exact .ok hsame

end LostWakeup.Mm.Vm
