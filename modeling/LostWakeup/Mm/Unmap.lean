/-
# LostWakeup.Mm.Unmap — what `uvmunmap` removes, with 2M leaves among the pages.

The loop clears whole leaves.  When every 2M leaf that meets the range lies in it, exactly the range is gone at the end
(`Swept`).  When one sticks out, its tail is lost, and its front comes back as zeros, or not at all when memory is short.
-/
import LostWakeup.Mm.AddressSpaces
import LostWakeup.Mm.Leaves

namespace LostWakeup.Mm.Vm

open Library
open Function (update_of_ne update_self)
open Mm.Vma (PGSIZE SUPERPGSIZE PGROUNDUP PGROUNDDOWN)

/-! ## Addresses of leaves -/

/-- The first address behind a leaf. -/
def Use.addr : Use → Nat
  | .common r s => r.val * SUPERPGSIZE + s.val * PGSIZE
  | .super r => r.val * SUPERPGSIZE
  | _ => 0

theorem Use.addr_aligned (u : Use) : u.addr % PGSIZE = 0 := by
  cases u with
  | common r s =>
    simp only [Use.addr, superpgsize_eq, pgsize_eq]
    omega
  | super r =>
    simp only [Use.addr, superpgsize_eq, pgsize_eq]
    omega
  | _ => rfl

theorem Use.addr_lt (u : Use) : u.addr < MAXVA := by
  cases u with
  | common r s =>
    have hr : r.val < 2 ^ 17 := r.isLt
    have hs : s.val < 512 := s.isLt
    simp only [Use.addr, superpgsize_eq, pgsize_eq, MAXVA]
    omega
  | super r =>
    have hr : r.val < 2 ^ 17 := r.isLt
    simp only [Use.addr, superpgsize_eq, MAXVA]
    omega
  | _ =>
    have hpos : 0 < MAXVA := by decide
    exact hpos

theorem region_val {va : Nat} (h : va < MAXVA) : (region va).val = va / 2097152 := by
  have hlt : va / 2097152 < 2 ^ 17 := by
    simp only [MAXVA] at h
    omega
  simp only [region, superpgsize_eq]
  exact Nat.mod_eq_of_lt hlt

theorem slot_val (va : Nat) : (slot va).val = va / 4096 % 512 := by
  simp only [slot, pgsize_eq]

theorem place_common_addr {va : Nat} (h : va < MAXVA) : (place va .COMMONPAGE).addr = va / 4096 * 4096 := by
  simp only [place, Use.addr, region_val h, slot_val, superpgsize_eq, pgsize_eq]
  omega

theorem place_super_addr {va : Nat} (h : va < MAXVA) : (place va .SUPERPAGE).addr = va / 2097152 * 2097152 := by
  simp only [place, Use.addr, region_val h, superpgsize_eq]

theorem place_addr {a : Nat} {level : Level} (hmax : a < MAXVA) (hal : a % level.pgsize = 0) : (place a level).addr = a := by
  cases level with
  | COMMONPAGE =>
    have hal : a % 4096 = 0 := hal
    rw [place_common_addr hmax]
    omega
  | SUPERPAGE =>
    have hal : a % 2097152 = 0 := hal
    rw [place_super_addr hmax]
    omega

theorem use_of_region {a : Nat} (h : a < MAXVA) {u : Use} (hleaf : u.leaf = true)
    (hlo : a / 2097152 * 2097152 ≤ u.addr) (hhi : u.addr < a / 2097152 * 2097152 + 2097152) :
    u.region? = some (region a) := by
  cases u with
  | kernel order => cases hleaf
  | root r => cases hleaf
  | table r => cases hleaf
  | common r s =>
    simp only [Use.addr, superpgsize_eq, pgsize_eq] at hlo hhi
    have hs : s.val < 512 := s.isLt
    have hr : r = region a := by
      apply Fin.ext
      rw [region_val h]
      omega
    rw [hr]
    rfl
  | super r =>
    simp only [Use.addr, superpgsize_eq] at hlo hhi
    have hr : r = region a := by
      apply Fin.ext
      rw [region_val h]
      omega
    rw [hr]
    rfl

theorem use_of_addr {u : Use} (hleaf : u.leaf = true) (h : u.addr < MAXVA) :
    u = place u.addr .COMMONPAGE ∨ u = place u.addr .SUPERPAGE := by
  cases u with
  | kernel order => cases hleaf
  | root r => cases hleaf
  | table r => cases hleaf
  | common r s =>
    left
    have hs : s.val < 512 := s.isLt
    have hr : r = region (Use.common r s).addr := by
      apply Fin.ext
      rw [region_val h]
      simp only [Use.addr, superpgsize_eq, pgsize_eq]
      omega
    have hs' : s = slot (Use.common r s).addr := by
      apply Fin.ext
      rw [slot_val]
      simp only [Use.addr, superpgsize_eq, pgsize_eq]
      omega
    rw [place, ← hr, ← hs']
  | super r =>
    right
    have hr : r = region (Use.super r).addr := by
      apply Fin.ext
      rw [region_val h]
      simp only [Use.addr, superpgsize_eq]
      omega
    rw [place, ← hr]

theorem leafAt_of_not_leaf (pt : PageTable) {u : Use} (h : u.leaf = false) : pt.leafAt u = Pte.zero := by
  cases u with
  | common r s => cases h
  | super r => cases h
  | _ => rfl

/-! ## The property -/

/-- What the user has at an address: the flags and the byte. -/
def view (k : Phys) (pt : PageTable) (a : Nat) : Option (Flags × UInt8) :=
  (translate pt a).map fun r => (r.2, k.mem r.1 (a % PGSIZE))

/-- `uvmunmap` returns, the range is gone and every other address is as before. -/
def UnmapsExactly (k : Phys) (pt : PageTable) (va npages : Nat) (on_demand : Bool) : Prop :=
  ∃ k' pt', uvmunmap k pt va npages true on_demand = .ok (k', pt') ∧
    (∀ a, va ≤ a → a < va + npages * PGSIZE → translate pt' a = none) ∧
    ∀ a, a < va ∨ va + npages * PGSIZE ≤ a → view k' pt' a = view k pt a

/-- The leaves are those of a user's address space. -/
def UserLeaves (pt : PageTable) : Prop :=
  ∀ u, (pt.leafAt u).flags.has PTE_V = true → (pt.leafAt u).flags.has PTE_U = true

/-- No leaf of the range looks like a pointer to a table. -/
def PlainLeaves (pt : PageTable) (va endva : Nat) : Prop :=
  ∀ u, va ≤ u.addr → u.addr < endva → (pt.leafAt u).flags.has PTE_V = true → (pt.leafAt u).flags ≠ PTE_V

theorem UserLeaves.plain {pt : PageTable} (h : UserLeaves pt) (va endva : Nat) : PlainLeaves pt va endva := by
  intro u _ _ hv heq
  have hu := h u hv
  rw [heq] at hu
  cases hu

/-- Every page of the range is there. -/
def Present (pt : PageTable) (va endva : Nat) : Prop :=
  ∀ a, va ≤ a → a < endva → a % PGSIZE = 0 → ∃ level, (pt.leafAt (place a level)).flags.has PTE_V = true

/-- Every 2M leaf that meets the range lies in it. -/
def WholeLeaves (pt : PageTable) (va endva : Nat) : Prop :=
  ∀ r : Fin NREGION, (pt.leafAt (.super r)).flags.has PTE_V = true → va < endva →
    r.val * SUPERPGSIZE < endva → va < r.val * SUPERPGSIZE + SUPERPGSIZE →
      va ≤ r.val * SUPERPGSIZE ∧ r.val * SUPERPGSIZE + SUPERPGSIZE ≤ endva

/-- A translation is made of the two leaves at its address. -/
theorem translate_eq (pt : PageTable) {va : Nat} (hva : va < MAXVA) :
    translate pt va =
      if (pt.leafAt (place va .SUPERPAGE)).flags.has PTE_V = true then
        if (pt.leafAt (place va .SUPERPAGE)).flags.has PTE_U = true then
          some ((pt.leafAt (place va .SUPERPAGE)).pfn + va / PGSIZE % NPTE, (pt.leafAt (place va .SUPERPAGE)).flags)
        else none
      else if (pt.leafAt (place va .COMMONPAGE)).flags.has PTE_V = true ∧
          (pt.leafAt (place va .COMMONPAGE)).flags.has PTE_U = true then
        some ((pt.leafAt (place va .COMMONPAGE)).pfn, (pt.leafAt (place va .COMMONPAGE)).flags)
      else none := by
  have hzero : Pte.zero.flags.has PTE_V = false := rfl
  have hnot : ¬ va ≥ MAXVA := not_le.mpr hva
  cases hd : pt.dir (region va) with
  | none =>
    have hwalk : walk pt va = .ok .null := by simp only [walk, if_neg hnot, hd]
    simp [translate, hwalk, leafAt_of_walk_null hwalk, hzero]
  | leaf pte =>
    have hwalk : walk pt va = .ok (.entry .SUPERPAGE pte) := by simp only [walk, if_neg hnot, hd]
    have hother : pt.leafAt (place va .COMMONPAGE) = Pte.zero := leafAt_of_walk_ne hwalk (by decide)
    by_cases hv : pte.flags.has PTE_V = true
    · simp [translate, hwalk, leafAt_of_walk hwalk, hv]
    · simp [translate, hwalk, leafAt_of_walk hwalk, hother, hv, hzero]
  | table page ptes =>
    have hwalk : walk pt va = .ok (.entry .COMMONPAGE (ptes (slot va))) := by simp only [walk, if_neg hnot, hd]
    have hother : pt.leafAt (place va .SUPERPAGE) = Pte.zero := leafAt_of_walk_ne hwalk (by decide)
    simp [translate, hwalk, leafAt_of_walk hwalk, hother, hzero]

theorem translate_of_leafAt {pt : PageTable} (huser : UserLeaves pt) {u : Use}
    (hv : (pt.leafAt u).flags.has PTE_V = true) : translate pt u.addr ≠ none := by
  have hleaf : u.leaf = true := by
    by_contra hnot
    rw [leafAt_of_not_leaf pt (by simpa using hnot)] at hv
    cases hv
  have hmax := u.addr_lt
  have hu := huser u hv
  rw [translate_eq pt hmax]
  split
  · next hsuper =>
    rw [if_pos (huser _ hsuper)]
    simp
  · next hsuper =>
    obtain heq | heq := use_of_addr hleaf hmax
    · rw [← heq, if_pos ⟨hv, hu⟩]
      simp
    · rw [← heq] at hsuper
      exact absurd hv hsuper

theorem translate_congr {pt pt' : PageTable} {va : Nat}
    (h : ∀ level, pt'.leafAt (place va level) = pt.leafAt (place va level)) : translate pt' va = translate pt va := by
  by_cases hva : va < MAXVA
  · rw [translate_eq pt hva, translate_eq pt' hva, h, h]
  have hwalk : ∀ pt : PageTable, walk pt va = .error .walk := by
    intro pt
    unfold walk
    rw [if_pos (not_lt.mp hva)]
  unfold translate
  rw [hwalk, hwalk]

theorem translate_none {pt : PageTable} {va : Nat} (h : ∀ level, pt.leafAt (place va level) = Pte.zero) :
    translate pt va = none := by
  by_cases hva : va < MAXVA
  · rw [translate_eq pt hva, h, h]
    rfl
  · unfold translate walk
    rw [if_pos (not_lt.mp hva)]

/-! ## The loop -/

/-- `a` is not inside a 2M leaf. -/
def Edge (pt : PageTable) (a : Nat) : Prop :=
  ∀ r : Fin NREGION, (pt.leafAt (.super r)).flags.has PTE_V = true → r.val * SUPERPGSIZE < a →
    r.val * SUPERPGSIZE + SUPERPGSIZE ≤ a

/-- The leaves from `va` up to `a` are gone, the others are there. -/
structure Swept (pt : PageTable) (va a : Nat) (cur : PageTable) : Prop where
  gone : ∀ u, va ≤ u.addr → u.addr < a → cur.leafAt u = Pte.zero
  kept : ∀ u, u.addr < va ∨ a ≤ u.addr → cur.leafAt u = pt.leafAt u
  edge : Edge pt a

theorem Swept.user {pt cur : PageTable} {va a : Nat} (h : Swept pt va a cur) (huser : UserLeaves pt) :
    UserLeaves cur := by
  intro u hv
  by_cases hin : va ≤ u.addr ∧ u.addr < a
  · rw [h.gone u hin.1 hin.2] at hv
    cases hv
  · have hkept := h.kept u (by omega)
    rw [hkept] at hv ⊢
    exact huser u hv

theorem kfree_returns {k : Phys} {own : Holders} {page : Nat} {u : Use} (h : Counted k (bump own page u)) :
    ∃ k', kfree k page = .ok k' ∧ Counted k' own ∧ k'.mem = k.mem := by
  have hcount := kfree_counted h
  cases hfree : kfree k page with
  | ok k' => exact ⟨k', rfl, hcount.of_ok hfree, (kfree_mem k page).of_ok hfree⟩
  | error e =>
    -- both ways `kfree` stops are about the count
    have hbenign : e.refcnt = false := hcount.of_error hfree
    unfold kfree at hfree
    split at hfree
    · cases hfree
      cases hbenign
    simp only at hfree
    split at hfree
    · cases hfree
    split at hfree
    · cases hfree
      cases hbenign
    · cases hfree

/-- A leaf goes, with its holder. -/
theorem unmapLeaf_whole {realloc : Realloc} {args : UnmapArgs} (hfree : args.do_free = true) {k : Phys}
    {pt : PageTable} {ext : Holders} {a : Nat} {level : Level} {pte : Pte}
    (hwalk : walk pt a = .ok (.entry level pte)) (hv : pte.flags.has PTE_V = true) (h : Held k pt ext)
    (hedge : level = .SUPERPAGE → a = SUPERPG_DOWN a) :
    ∃ k', unmapLeaf realloc args a level pte k pt = .ok (k', pt.set a Pte.zero) ∧
      Held k' (pt.set a Pte.zero) ext ∧ k'.mem = k.mem := by
  obtain ⟨k', hk', hcount, hmem⟩ := kfree_returns (h.clear hwalk hv)
  refine ⟨k', ?_, ⟨hcount, valid_set h.2 (.inl rfl)⟩, hmem⟩
  have hnot : ¬ (level = .SUPERPAGE ∧ a ≠ SUPERPG_DOWN a ∧ a = args.va) :=
    fun hsplit => hsplit.2.1 (hedge hsplit.1)
  unfold unmapLeaf unmapLeaf.free
  rw [if_pos hfree, hk']
  simp only [bind, Except.bind, if_neg hnot]
  rfl

theorem walk_of_lt (pt : PageTable) {va : Nat} (h : va < MAXVA) : ∃ found, walk pt va = .ok found := by
  unfold walk
  rw [if_neg h.not_ge]
  cases pt.dir (region va) with
  | none => exact ⟨_, rfl⟩
  | leaf pte => exact ⟨_, rfl⟩
  | table page ptes => exact ⟨_, rfl⟩

namespace Swept

variable {pt cur cur' : PageTable} {va a a' : Nat}

/-- One turn: the leaves that begin before `a'` go, the others stay. -/
theorem step (h : Swept pt va a cur) (hva : va ≤ a) (haa : a ≤ a')
    (hzero : ∀ u, a ≤ u.addr → u.addr < a' → cur'.leafAt u = Pte.zero)
    (hother : ∀ u, u.addr < a ∨ a' ≤ u.addr → cur'.leafAt u = cur.leafAt u)
    (hedge : ∀ r : Fin NREGION, (pt.leafAt (.super r)).flags.has PTE_V = true → a ≤ r.val * SUPERPGSIZE →
      r.val * SUPERPGSIZE < a' → r.val * SUPERPGSIZE + SUPERPGSIZE ≤ a') : Swept pt va a' cur' := by
  refine ⟨fun u hlo hhi => ?_, fun u hout => ?_, fun r hv hr => ?_⟩
  · by_cases hu : u.addr < a
    · rw [hother u (.inl hu)]
      exact h.gone u hlo hu
    · exact hzero u (not_lt.mp hu) hhi
  · obtain hlt | hge := hout
    · rw [hother u (.inl (hlt.trans_le hva))]
      exact h.kept u (.inl hlt)
    · rw [hother u (.inr hge)]
      exact h.kept u (.inr (haa.trans hge))
  · by_cases hlt : r.val * SUPERPGSIZE < a
    · exact (h.edge r hv hlt).trans haa
    · exact hedge r hv (not_lt.mp hlt) hr

/-- The leaf that `walk` finds at `a` is one of the old ones, and a 2M leaf begins at `a`. -/
theorem found (h : Swept pt va a cur) (hmax : a < MAXVA) {level : Level} {pte : Pte}
    (hwalk : walk cur a = .ok (.entry level pte)) (hv : pte.flags.has PTE_V = true) :
    pt.leafAt (place a level) = pte ∧ (level = .SUPERPAGE → a % 2097152 = 0) := by
  have hleaf := leafAt_of_walk hwalk
  have hne : cur.leafAt (place a level) ≠ Pte.zero := by
    rintro hzero
    rw [hleaf] at hzero
    rw [hzero] at hv
    cases hv
  cases level with
  | COMMONPAGE =>
    refine ⟨?_, nofun⟩
    have haddr := place_common_addr hmax
    by_cases hout : (place a .COMMONPAGE).addr < va ∨ a ≤ (place a .COMMONPAGE).addr
    · rw [← h.kept _ hout, hleaf]
    · have hgone := h.gone (place a .COMMONPAGE) (by omega) (by omega)
      exact absurd hgone hne
  | SUPERPAGE =>
    have haddr := place_super_addr hmax
    have hout : (place a .SUPERPAGE).addr < va ∨ a ≤ (place a .SUPERPAGE).addr := by
      by_contra hin
      exact hne (h.gone _ (by omega) (by omega))
    have hold : pt.leafAt (place a .SUPERPAGE) = pte := by
      rw [← h.kept _ hout, hleaf]
    refine ⟨hold, fun _ => ?_⟩
    have hedge := h.edge (region a) (by rw [show pt.leafAt (.super (region a)) = pte from hold]; exact hv)
    rw [region_val hmax, superpgsize_eq] at hedge
    omega

/-- Nothing at `a`. -/
theorem skip (h : Swept pt va a cur) (hva : va ≤ a) (hmax : a < MAXVA) (hal : a % PGSIZE = 0)
    (hzero : ∀ level, cur.leafAt (place a level) = Pte.zero) : Swept pt va (a + PGSIZE) cur := by
  refine h.step hva le_self_add (fun u hlo hhi => ?_) (fun u _ => rfl) fun r hv hlo hhi => ?_
  · have haddr : u.addr = a := by
      have := u.addr_aligned
      rw [pgsize_eq] at *
      omega
    cases hleaf : u.leaf with
    | false => exact leafAt_of_not_leaf cur hleaf
    | true =>
      obtain hu | hu := use_of_addr hleaf (by omega)
      · rw [hu, haddr]
        exact hzero _
      · rw [hu, haddr]
        exact hzero _
  · -- a 2M leaf that begins at `a` would have been found there
    have haddr : (Use.super r).addr = a := by
      have := (Use.super r).addr_aligned
      have heq : (Use.super r).addr = r.val * SUPERPGSIZE := rfl
      rw [pgsize_eq] at *
      omega
    have hplace : Use.super r = place a .SUPERPAGE := by
      obtain hu | hu := use_of_addr (u := Use.super r) rfl (by omega)
      · cases hu
      · rw [haddr] at hu
        exact hu
    have hkept := h.kept (.super r) (.inr (by omega))
    rw [← hkept, hplace, hzero] at hv
    cases hv

/-- A 4K leaf at `a` goes. -/
theorem clearCommon (h : Swept pt va a cur) (hva : va ≤ a) (hmax : a < MAXVA) (hal : a % PGSIZE = 0) {pte : Pte}
    (hwalk : walk cur a = .ok (.entry .COMMONPAGE pte)) : Swept pt va (a + PGSIZE) (cur.set a Pte.zero) := by
  have hset := leafAt_set hwalk Pte.zero
  have hsuper : cur.leafAt (place a .SUPERPAGE) = Pte.zero := leafAt_of_walk_ne hwalk (by decide)
  have haddr : (place a .COMMONPAGE).addr = a := by
    rw [place_common_addr hmax]
    rw [pgsize_eq] at hal
    omega
  refine h.step hva le_self_add (fun u hlo hhi => ?_) (fun u hout => ?_) fun r hv hlo hhi => ?_
  · rw [hset]
    by_cases hu : u = place a .COMMONPAGE
    · rw [hu, update_self]
    rw [update_of_ne hu]
    have hua : u.addr = a := by
      have := u.addr_aligned
      rw [pgsize_eq] at *
      omega
    cases hleaf : u.leaf with
    | false => exact leafAt_of_not_leaf cur hleaf
    | true =>
      obtain heq | heq := use_of_addr hleaf (by omega)
      · rw [hua] at heq
        exact absurd heq hu
      · rw [heq, hua]
        exact hsuper
  · rw [hset, update_of_ne]
    rintro rfl
    rw [haddr, pgsize_eq] at hout
    omega
  · have hua : (Use.super r).addr = a := by
      have := (Use.super r).addr_aligned
      have heq : (Use.super r).addr = r.val * SUPERPGSIZE := rfl
      rw [pgsize_eq] at *
      omega
    have hplace : Use.super r = place a .SUPERPAGE := by
      obtain hu | hu := use_of_addr (u := Use.super r) rfl (by omega)
      · cases hu
      · rw [hua] at hu
        exact hu
    rw [← h.kept (.super r) (.inr (by omega)), hplace, hsuper] at hv
    cases hv

/-- A 2M leaf that begins at `a` goes. -/
theorem clearSuper (h : Swept pt va a cur) (hva : va ≤ a) (hmax : a < MAXVA) (hal : a % 2097152 = 0) {pte : Pte}
    (hwalk : walk cur a = .ok (.entry .SUPERPAGE pte)) : Swept pt va (a + SUPERPGSIZE) (cur.set a Pte.zero) := by
  have hset := leafAt_set hwalk Pte.zero
  have haddr : (place a .SUPERPAGE).addr = a := by
    rw [place_super_addr hmax]
    omega
  refine h.step hva le_self_add (fun u hlo hhi => ?_) (fun u hout => ?_) fun r hv hlo hhi => ?_
  · rw [hset]
    by_cases hu : u = place a .SUPERPAGE
    · rw [hu, update_self]
    rw [update_of_ne hu]
    cases hleaf : u.leaf with
    | false => exact leafAt_of_not_leaf cur hleaf
    | true =>
      -- what else begins in the region is a 4K leaf, and there is no table
      rw [superpgsize_eq] at hhi
      have hregion := use_of_region hmax hleaf (by omega) (by omega)
      obtain ⟨-, ⟨-, hd⟩ | ⟨_, _, hlevel, -, -⟩⟩ := dir_of_walk hwalk
      · cases u with
        | common r s =>
          cases hregion
          simp only [PageTable.leafAt, hd]
        | super r =>
          cases hregion
          exact absurd rfl hu
        | _ => cases hleaf
      · cases hlevel
  · rw [hset, update_of_ne]
    rintro rfl
    rw [haddr, superpgsize_eq] at hout
    omega
  · rw [superpgsize_eq] at *
    omega

end Swept

theorem leafAt_valid {pt : PageTable} (h : pt.Valid) (u : Use) :
    pt.leafAt u = Pte.zero ∨ (pt.leafAt u).flags.has PTE_V = true := by
  cases u with
  | common r s =>
    have hr := h r
    simp only [PageTable.leafAt]
    cases hd : pt.dir r with
    | none => exact .inl rfl
    | leaf pte => exact .inl rfl
    | table page ptes =>
      rw [hd] at hr
      exact hr s
  | super r =>
    have hr := h r
    simp only [PageTable.leafAt]
    cases hd : pt.dir r with
    | none => exact .inl rfl
    | leaf pte =>
      rw [hd] at hr
      exact .inr hr
    | table page ptes => exact .inl rfl
  | _ => exact .inl rfl

/-- Where the sweep stops: at the end of the range, or at the end of a 2M leaf that sticks out of it. -/
def StopsAt (pt : PageTable) (va endva h h' : Nat) : Prop :=
  h' = max h endva ∨ ∃ r : Fin NREGION, (pt.leafAt (.super r)).flags.has PTE_V = true ∧
    va ≤ r.val * SUPERPGSIZE ∧ r.val * SUPERPGSIZE < endva ∧ h' = r.val * SUPERPGSIZE + SUPERPGSIZE

theorem Swept.behind {pt cur : PageTable} {va a h : Nat} (hs : Swept pt va h cur) (hvalid : cur.Valid)
    (hedge : Edge pt va) (hva : va ≤ a) (hah : a < h) (hal : va % PGSIZE = 0 ∨ a % PGSIZE = 0) (hmax : a < MAXVA)
    (level : Level) : cur.leafAt (place a level) = Pte.zero := by
  cases level with
  | COMMONPAGE =>
    have haddr := place_common_addr hmax
    rw [pgsize_eq] at hal
    exact hs.gone _ (by omega) (by omega)
  | SUPERPAGE =>
    have haddr := place_super_addr hmax
    by_cases hin : va ≤ (place a .SUPERPAGE).addr
    · exact hs.gone _ hin (by omega)
    have hkept := hs.kept (place a .SUPERPAGE) (.inl (by omega))
    refine (leafAt_valid hvalid _).resolve_right fun hv => ?_
    rw [hkept] at hv
    have := hedge (region a) hv
    rw [region_val hmax, superpgsize_eq] at this
    omega

/-- From the state `k` with the leaves up to `h` gone, a sweep has gone on to `h'`, past `endva`. -/
structure SweptPast (pt : PageTable) (va endva h : Nat) (ext : Holders) (k k' : Phys) (pt' : PageTable) (h' : Nat) :
    Prop where
  mem : k'.mem = k.mem
  held : Held k' pt' ext
  swept : Swept pt va h' pt'
  le : h ≤ h'
  past : endva ≤ h'
  aligned : h' % PGSIZE = 0
  stops : StopsAt pt va endva h h'

theorem SweptPast.earlier {pt pt' : PageTable} {va endva h h₁ h' : Nat} {ext : Holders} {k k₁ k' : Phys}
    (h₂ : SweptPast pt va endva h₁ ext k₁ k' pt' h') (hmem : k₁.mem = k.mem) (hle : h ≤ h₁)
    (hmax : max h₁ endva = max h endva) : SweptPast pt va endva h ext k k' pt' h' := by
  refine ⟨h₂.mem.trans hmem, h₂.held, h₂.swept, hle.trans h₂.le, h₂.past, h₂.aligned, ?_⟩
  obtain hstop | hleaf := h₂.stops
  · exact .inl (hstop.trans hmax)
  · exact .inr hleaf

/-- A 2M leaf is behind as well: the sweep stops at the end of the range, or at its end. -/
theorem SweptPast.super {pt pt' : PageTable} {va endva a h' : Nat} {ext : Holders} {k k₁ k' : Phys}
    (h₂ : SweptPast pt va endva (a + SUPERPGSIZE) ext k₁ k' pt' h') (hmem : k₁.mem = k.mem)
    (hv : (pt.leafAt (.super (region a))).flags.has PTE_V = true) (hva : va ≤ a) (hlt : a < endva) (hmax : a < MAXVA)
    (hal : a % SUPERPGSIZE = 0) : SweptPast pt va endva a ext k k' pt' h' := by
  have hr : (region a).val * SUPERPGSIZE = a := by
    rw [superpgsize_eq] at hal ⊢
    rw [region_val hmax]
    omega
  have hle : a ≤ a + SUPERPGSIZE := le_self_add
  by_cases hout : endva ≤ a + SUPERPGSIZE
  · refine ⟨h₂.mem.trans hmem, h₂.held, h₂.swept, hle.trans h₂.le, h₂.past, h₂.aligned, ?_⟩
    obtain hstop | hleaf := h₂.stops
    · refine .inr ⟨region a, hv, ?_, ?_, ?_⟩
      · rwa [hr]
      · rwa [hr]
      · rw [hr, hstop, Nat.max_eq_left hout]
    · exact .inr hleaf
  · exact h₂.earlier hmem hle (by omega)

/-- A page that is to be there is there still, once only the leaves before it are gone. -/
theorem Swept.present {pt cur : PageTable} {va a endva : Nat} (hs : Swept pt va a cur) (hpresent : Present pt va endva)
    (hva : va ≤ a) (hlt : a < endva) (hal : a % PGSIZE = 0) (hmax : a < MAXVA) : ∃ level, cur.leafAt (place a level) ≠ Pte.zero := by
  obtain ⟨level, hv⟩ := hpresent a hva hlt hal
  have hbegin : a ≤ (place a level).addr := by
    cases level with
    | COMMONPAGE =>
      rw [place_common_addr hmax]
      rw [pgsize_eq] at hal
      omega
    | SUPERPAGE =>
      have hedge := hs.edge (region a) hv
      rw [place_super_addr hmax]
      rw [region_val hmax, superpgsize_eq] at hedge
      omega
  refine ⟨level, fun hzero => ?_⟩
  rw [← hs.kept _ (.inr hbegin), hzero] at hv
  cases hv

/-- The leaves before `h` are gone, so a leaf at `a` begins there. -/
theorem Swept.here {pt cur : PageTable} {va a h endva : Nat} {level : Level} {pte : Pte} (hs : Swept pt va h cur)
    (hplain : PlainLeaves pt va endva) (hvalid : cur.Valid) (hedge : Edge pt va) (hva : va ≤ a) (hah : a ≤ h) (hlt : a < endva)
    (hal : a % PGSIZE = 0) (hmax : a < MAXVA) (hwalk : walk cur a = .ok (.entry level pte)) (hv : pte.flags.has PTE_V = true) :
    a = h ∧ pt.leafAt (place a level) = pte ∧ (level = .SUPERPAGE → a % 2097152 = 0) ∧ pte.flags ≠ PTE_V := by
  have heq : a = h := by
    by_contra hne
    have hzero := hs.behind hvalid hedge hva (by omega) (.inr hal) hmax level
    rw [leafAt_of_walk hwalk] at hzero
    rw [hzero] at hv
    cases hv
  subst heq
  obtain ⟨hold, hbegin⟩ := hs.found hmax hwalk hv
  have haddr : (place a level).addr = a := by
    apply place_addr hmax
    cases level with
    | COMMONPAGE => exact hal
    | SUPERPAGE => exact hbegin rfl
  have hplain := hplain (place a level) (by omega) (by omega)
  rw [hold] at hplain
  exact ⟨rfl, hold, hbegin, hplain hv⟩

/-- The loop of `uvmunmap` from `a` on, when the leaves of `pt` from `va` up to `h` are gone already. -/
theorem unmapLoop_sweeps {realloc : Realloc} {pt : PageTable} {ext : Holders} {va start endva : Nat} {on_demand : Bool}
    (hplain : PlainLeaves pt va endva) (hedge : Edge pt va) (hmax : endva ≤ MAXVA) (hend : endva % PGSIZE = 0) (fuel : Nat)
    {a h : Nat} {k : Phys} {cur : PageTable} (hal : a % PGSIZE = 0) (hhal : h % PGSIZE = 0) (hva : va ≤ a)
    (hah : a ≤ h) (hfuel : endva ≤ a + fuel * PGSIZE)
    (hpresent : on_demand = true ∨ (a = h ∧ Present pt va endva)) (hheld : Held k cur ext) (hs : Swept pt va h cur) :
    ∃ k' pt' h', unmapLoop realloc ⟨start, endva, true, on_demand⟩ fuel a k cur = .ok (k', pt') ∧
      SweptPast pt va endva h ext k k' pt' h' := by
  have hstop : ¬ a < endva → SweptPast pt va endva h ext k k cur h := fun hge =>
    ⟨rfl, hheld, hs, Nat.le_refl h, by omega, hhal, .inl (by omega)⟩
  induction fuel generalizing a h k cur with
  | zero =>
    have hge : ¬ a < endva := by omega
    unfold unmapLoop
    rw [if_neg hge]
    exact ⟨k, cur, h, rfl, hstop hge⟩
  | succ fuel ih =>
    unfold unmapLoop
    by_cases hlta : a < endva
    · have hamax : a < MAXVA := hlta.trans_le hmax
      have hnext : a + PGSIZE ≤ endva := by
        rw [pgsize_eq] at *
        omega
      have hfuel' : endva ≤ a + PGSIZE + fuel * PGSIZE := by
        rw [pgsize_eq] at *
        omega
      have hal' : (a + PGSIZE) % PGSIZE = 0 := next_aligned hal .COMMONPAGE
      -- the rest of the loop, once the leaves up to `h₁` are gone
      have hrest : ∀ (k₁ : Phys) (cur₁ : PageTable) (h₁ : Nat), k₁.mem = k.mem → Held k₁ cur₁ ext →
          Swept pt va h₁ cur₁ → h₁ % PGSIZE = 0 → a + PGSIZE ≤ h₁ → (h₁ = h ∨ (a = h ∧ h₁ = a + PGSIZE)) →
          (on_demand = true ∨ (a + PGSIZE = h₁ ∧ Present pt va endva)) →
          ∃ k' pt' h', unmapLoop realloc ⟨start, endva, true, on_demand⟩ fuel (a + PGSIZE) k₁ cur₁ = .ok (k', pt') ∧
            SweptPast pt va endva h ext k k' pt' h' := by
        intro k₁ cur₁ h₁ hmem₁ hheld₁ hs₁ hhal₁ hle₁ hcases hpresent₁
        obtain ⟨k', pt', h', hloop, hpast⟩ := ih hal' hhal₁ (by omega) hle₁ hfuel' hpresent₁ hheld₁ hs₁ fun hge =>
          ⟨rfl, hheld₁, hs₁, le_rfl, by omega, hhal₁, .inl (by omega)⟩
        exact ⟨k', pt', h', hloop, hpast.earlier hmem₁ (by omega) (by omega)⟩
      -- a page that is not there
      have habsent : (∀ level, cur.leafAt (place a level) = Pte.zero) → on_demand = true ∧
          ∃ k' pt' h', unmapLoop realloc ⟨start, endva, true, on_demand⟩ fuel (a + PGSIZE) k cur = .ok (k', pt') ∧
            SweptPast pt va endva h ext k k' pt' h' := by
        intro hzero
        have hod : on_demand = true := by
          obtain hod | ⟨rfl, hpresent⟩ := hpresent
          · exact hod
          obtain ⟨level, hne⟩ := hs.present hpresent hva hlta hal hamax
          exact absurd (hzero level) hne
        refine ⟨hod, ?_⟩
        by_cases heq : a = h
        · subst heq
          exact hrest k cur (a + PGSIZE) rfl hheld (hs.skip hva hamax hal hzero) hal' le_rfl (.inr ⟨rfl, rfl⟩)
            (.inl hod)
        have hle : a + PGSIZE ≤ h := by
          rw [pgsize_eq] at *
          omega
        exact hrest k cur h rfl hheld hs hhal hle (.inl rfl) (.inl hod)
      obtain ⟨found, hwalk⟩ := walk_of_lt cur hamax
      rw [if_pos hlta, hwalk]
      simp only [bind, Except.bind]
      cases found with
      | null =>
        obtain ⟨hod, hrest⟩ := habsent (leafAt_of_walk_null hwalk)
        simp only [hod, if_true] at hrest ⊢
        exact hrest
      | entry level pte =>
        by_cases hv : pte.flags.has PTE_V = true
        · obtain ⟨rfl, hold, hbegin, hleaf⟩ := hs.here hplain hheld.2 hedge hva hah hlta hal hamax hwalk hv
          have hdown : level = .SUPERPAGE → a = SUPERPG_DOWN a := by
            intro hlevel
            have := hbegin hlevel
            simp only [SUPERPG_DOWN, superpgsize_eq]
            omega
          obtain ⟨k₁, hunmap, hheld₁, hmem⟩ := @unmapLeaf_whole realloc ⟨start, endva, true, on_demand⟩ rfl k cur ext a
            level pte hwalk hv hheld hdown
          simp only [hv, Bool.true_eq_false, if_false, if_neg hleaf, hunmap]
          cases level with
          | COMMONPAGE =>
            exact hrest k₁ _ (a + PGSIZE) hmem hheld₁ (hs.clearCommon hva hamax hal hwalk) hal' le_rfl
              (.inr ⟨rfl, rfl⟩) (hpresent.imp_right fun hp => ⟨rfl, hp.2⟩)
          | SUPERPAGE =>
            have hal2 := hbegin rfl
            have hnext2 : (a + SUPERPGSIZE) % PGSIZE = 0 := next_aligned hal .SUPERPAGE
            have hfuel2 : endva ≤ a + SUPERPGSIZE + fuel * PGSIZE := by
              rw [superpgsize_eq]
              rw [pgsize_eq] at *
              omega
            have hs2 := hs.clearSuper hva hamax hal2 hwalk
            have hle2 : a ≤ a + SUPERPGSIZE := le_self_add
            obtain ⟨k', pt', h', hloop, hpast⟩ := ih hnext2 hnext2 (hva.trans hle2) le_rfl hfuel2
              (hpresent.imp_right fun hp => ⟨rfl, hp.2⟩) hheld₁ hs2 fun hge =>
                ⟨rfl, hheld₁, hs2, le_rfl, not_lt.mp hge, hnext2, .inl (Nat.max_eq_left (not_lt.mp hge)).symm⟩
            exact ⟨k', pt', h', hloop, hpast.super hmem ((congrArg (·.flags.has PTE_V) hold).trans hv) hva hlta hamax hal2⟩
        · -- entries are zero or valid
          have hzero : pte = Pte.zero := (valid_of_walk hheld.2 hwalk).resolve_right hv
          have hboth : ∀ level', cur.leafAt (place a level') = Pte.zero := by
            intro level'
            by_cases hlevel : level' = level
            · rw [hlevel, leafAt_of_walk hwalk, hzero]
            · exact leafAt_of_walk_ne hwalk hlevel
          obtain ⟨hod, hrest⟩ := habsent hboth
          have hv : pte.flags.has PTE_V = false := by simpa using hv
          simp only [hod, hv, if_true] at hrest ⊢
          exact hrest
    · rw [if_neg hlta]
      exact ⟨k, cur, h, rfl, hstop hlta⟩

/-- A call of `uvmunmap`, when the leaves of `pt` from `va` up to `h` are gone already. -/
theorem uvmunmap_sweeps {k : Phys} {pt cur : PageTable} {ext : Holders} {va start npages h : Nat} {on_demand : Bool}
    (hplain : PlainLeaves pt va (start + npages * PGSIZE)) (hedge : Edge pt va) (hal : start % PGSIZE = 0)
    (hmax : start + npages * PGSIZE ≤ MAXVA)
    (hhal : h % PGSIZE = 0) (hva : va ≤ start) (hah : start ≤ h)
    (hpresent : on_demand = true ∨ (start = h ∧ Present pt va (start + npages * PGSIZE))) (hheld : Held k cur ext)
    (hs : Swept pt va h cur) :
    ∃ k' pt' h', uvmunmap k cur start npages true on_demand = .ok (k', pt') ∧
      SweptPast pt va (start + npages * PGSIZE) h ext k k' pt' h' := by
  have hend : (start + npages * PGSIZE) % PGSIZE = 0 := by rw [Nat.add_mul_mod_self_right, hal]
  have hsum : add64 start (npages * PGSIZE % 2 ^ 64) = start + npages * PGSIZE := by
    simp only [MAXVA] at hmax
    rw [add64, Nat.mod_eq_of_lt (a := npages * PGSIZE) (by omega), Nat.mod_eq_of_lt (by omega)]
  unfold uvmunmap uvmunmapWith
  rw [if_neg (by omega), hsum]
  exact unmapLoop_sweeps hplain hedge hmax hend npages hal hhal hva hah le_rfl hpresent hheld hs

theorem translate_of_ge (pt : PageTable) {va : Nat} (h : MAXVA ≤ va) : translate pt va = none := by
  unfold translate walk
  rw [if_pos h]

section Exact

variable {pt pt' : PageTable} {va endva : Nat}

theorem swept_in (hvalid : pt.Valid) (hwhole : WholeLeaves pt va endva) (hs : Swept pt va endva pt')
    (hva : va % PGSIZE = 0) {a : Nat} (hlo : va ≤ a) (hhi : a < endva) (hmax : a < MAXVA) (level : Level) :
    pt'.leafAt (place a level) = Pte.zero := by
  cases level with
  | COMMONPAGE =>
    have haddr := place_common_addr hmax
    rw [pgsize_eq] at hva
    exact hs.gone _ (by omega) (by omega)
  | SUPERPAGE =>
    have haddr := place_super_addr hmax
    by_cases hin : va ≤ (place a .SUPERPAGE).addr
    · exact hs.gone _ hin (by omega)
    rw [hs.kept _ (.inl (by omega))]
    refine (leafAt_valid hvalid _).resolve_right fun hv => ?_
    have hmeet := hwhole (region a) hv
    rw [region_val hmax, superpgsize_eq] at hmeet
    omega

theorem swept_out (hvalid : pt.Valid) (hwhole : WholeLeaves pt va endva) (hs : Swept pt va endva pt')
    (hva : va % PGSIZE = 0) (hend : endva % PGSIZE = 0) {a : Nat} (hout : a < va ∨ endva ≤ a) (hmax : a < MAXVA)
    (level : Level) : pt'.leafAt (place a level) = pt.leafAt (place a level) := by
  cases level with
  | COMMONPAGE =>
    have haddr := place_common_addr hmax
    rw [pgsize_eq] at hva hend
    exact hs.kept _ (by omega)
  | SUPERPAGE =>
    have haddr := place_super_addr hmax
    by_cases hin : va ≤ (place a .SUPERPAGE).addr ∧ (place a .SUPERPAGE).addr < endva
    · rw [hs.gone _ hin.1 hin.2]
      refine ((leafAt_valid hvalid _).resolve_right fun hv => ?_).symm
      have hmeet := hwhole (region a) hv
      rw [region_val hmax, superpgsize_eq] at hmeet
      omega
    · exact hs.kept _ (by omega)

end Exact

theorem unmaps_exactly_of_whole {k : Phys} {pt : PageTable} {ext : Holders} (h : Held k pt ext)
    (huser : UserLeaves pt) {va npages : Nat} (hva : va % PGSIZE = 0) (hmax : va + npages * PGSIZE ≤ MAXVA)
    {on_demand : Bool} (hpresent : on_demand = true ∨ Present pt va (va + npages * PGSIZE))
    (hwhole : WholeLeaves pt va (va + npages * PGSIZE)) : UnmapsExactly k pt va npages on_demand := by
  have hend : (va + npages * PGSIZE) % PGSIZE = 0 := by rw [Nat.add_mul_mod_self_right, hva]
  have hloop : ∃ k' pt', uvmunmap k pt va npages true on_demand = .ok (k', pt') ∧ k'.mem = k.mem ∧
      ((va < va + npages * PGSIZE → Swept pt va (va + npages * PGSIZE) pt') ∧ (npages = 0 → pt' = pt)) := by
    by_cases hzero : npages = 0
    · subst hzero
      refine ⟨k, pt, ?_, rfl, fun hlt => ?_, fun _ => rfl⟩
      · have hsum : add64 va (0 * PGSIZE % 2 ^ 64) = va := by
          simp only [add64, MAXVA] at hmax ⊢
          omega
        unfold uvmunmap uvmunmapWith
        rw [if_neg (by omega), hsum]
        unfold unmapLoop
        rw [if_neg (Nat.lt_irrefl va)]
      · omega
    · have hlt : va < va + npages * PGSIZE := by
        rw [pgsize_eq]
        omega
      have hedge : Edge pt va := by
        intro r hv hr
        by_contra hin
        have hmeet := hwhole r hv hlt
        omega
      have hstart : Swept pt va va pt := ⟨fun u hlo hhi => by omega, fun u _ => rfl, hedge⟩
      obtain ⟨k', pt', h', hret, hpast⟩ := uvmunmap_sweeps (huser.plain _ _) hedge hva hmax hva
        le_rfl le_rfl (hpresent.imp_right fun hp => ⟨rfl, hp⟩) h hstart
      have hstop : h' = va + npages * PGSIZE := by
        have hge := hpast.past
        obtain hmax' | ⟨r, hv, hlo, hhi, heq⟩ := hpast.stops
        · omega
        · have hmeet := hwhole r hv hlt
          omega
      have hswept := hpast.swept
      rw [hstop] at hswept
      exact ⟨k', pt', hret, hpast.mem, fun _ => hswept, fun hn => absurd hn hzero⟩
  obtain ⟨k', pt', hret, hmem, hswept, hempty⟩ := hloop
  refine ⟨k', pt', hret, fun a hlo hhi => ?_, fun a hout => ?_⟩
  · have hlt : va < va + npages * PGSIZE := by omega
    exact translate_none (swept_in h.2 hwhole (hswept hlt) hva hlo hhi (by omega))
  have htrans : translate pt' a = translate pt a := by
    by_cases hzero : npages = 0
    · rw [hempty hzero]
    by_cases ha : a < MAXVA
    · have hlt : va < va + npages * PGSIZE := by
        rw [pgsize_eq]
        omega
      exact translate_congr (swept_out h.2 hwhole (hswept hlt) hva hend hout ha)
    · rw [translate_of_ge _ (not_lt.mp ha), translate_of_ge _ (not_lt.mp ha)]
  rw [view, view, htrans, hmem]

/-! ## Leaves that stick out -/

/-- No region gets a table that had none. -/
structure Shrunk (pt pt' : PageTable) : Prop where
  none : ∀ r, pt.dir r = .none → pt'.dir r = .none
  leaf : ∀ r pte, pt.dir r = .leaf pte → pt'.dir r = .leaf pte ∨ pt'.dir r = .none

theorem Shrunk.refl (pt : PageTable) : Shrunk pt pt := ⟨fun _ h => h, fun _ _ h => .inl h⟩

theorem Shrunk.trans {pt pt' pt'' : PageTable} (h : Shrunk pt pt') (h' : Shrunk pt' pt'') : Shrunk pt pt'' := by
  refine ⟨fun r hr => h'.none r (h.none r hr), fun r pte hr => ?_⟩
  obtain hleaf | hnone := h.leaf r pte hr
  · exact h'.leaf r pte hleaf
  · exact .inr (h'.none r hnone)

theorem shrunk_set (pt : PageTable) (va : Nat) : Shrunk pt (pt.set va Pte.zero) := by
  have hdir : ∀ r, (pt.set va Pte.zero).dir r = pt.dir r ∨
      (∃ page ptes, pt.dir r = .table page ptes) ∨ (pt.set va Pte.zero).dir r = .none := by
    intro r
    by_cases hr : r = region va
    · subst hr
      cases hd : pt.dir (region va) with
      | none => simp [PageTable.set, PageTable.setEntry, hd]
      | leaf pte => simp [PageTable.set, PageTable.setEntry, hd]
      | table page ptes => exact .inr (.inl ⟨page, ptes, rfl⟩)
    · left
      cases hd : pt.dir (region va) with
      | none => simp [PageTable.set, PageTable.setEntry, hd, hr]
      | leaf pte => simp [PageTable.set, PageTable.setEntry, hd, hr]
      | table page ptes => simp [PageTable.set, PageTable.setEntry, hd, hr]
  refine ⟨fun r hr => ?_, fun r pte hr => ?_⟩
  · obtain hsame | ⟨page, ptes, htab⟩ | hnone := hdir r
    · rw [hsame, hr]
    · rw [hr] at htab
      cases htab
    · exact hnone
  · obtain hsame | ⟨page, ptes, htab⟩ | hnone := hdir r
    · exact .inl (hsame.trans hr)
    · rw [hr] at htab
      cases htab
    · exact .inr hnone

/-- Without memory, tables only shrink. -/
def ShrinksTo (pt : PageTable) (k' : Phys) (pt' : PageTable) : Prop := k'.pool = [] ∧ Shrunk pt pt'

def DeallocShrinks (dealloc : Dealloc) : Prop :=
  ∀ ⦃k : Phys⦄ ⦃pt : PageTable⦄ (a b : Nat), k.pool = [] →
    Ensures (dealloc k pt a b) Anyhow fun r => ShrinksTo pt r.1 r.2

def ReallocShrinks (realloc : Realloc) : Prop :=
  ∀ ⦃k : Phys⦄ ⦃pt : PageTable⦄ (a b : Nat) (perm : Flags), k.pool = [] →
    Ensures (realloc k pt a b perm) Anyhow fun r => ShrinksTo pt r.1 r.2

section Shrink

variable {k : Phys} {pt : PageTable}

theorem kfree_pool (k : Phys) (page : Nat) : Ensures (kfree k page) Anyhow fun k' => k'.pool = k.pool := by
  unfold kfree
  split
  · exact .error trivial
  simp only
  split
  · exact .ok rfl
  · split
    · exact .error trivial
    · exact .ok rfl

theorem unmapLeaf_shrinks {realloc : Realloc} (hrealloc : ReallocShrinks realloc) (args : UnmapArgs) (a : Nat)
    (level : Level) (pte : Pte) (h : k.pool = []) :
    Ensures (unmapLeaf realloc args a level pte k pt) Anyhow fun r => ShrinksTo (pt.set a Pte.zero) r.1 r.2 := by
  have hfree : Ensures (unmapLeaf.free args pte k) Anyhow fun k' => k'.pool = [] := by
    unfold unmapLeaf.free
    split
    · exact (kfree_pool k pte.pfn).mono fun k' hk' => hk'.trans h
    · exact .ok h
  unfold unmapLeaf
  refine .bind hfree fun k₁ h₁ => ?_
  simp only
  split
  · exact hrealloc _ _ _ h₁
  · exact .ok ⟨h₁, .refl _⟩

theorem unmapLoop_shrinks {realloc : Realloc} (hrealloc : ReallocShrinks realloc) (args : UnmapArgs) (fuel a : Nat)
    (h : k.pool = []) :
    Ensures (unmapLoop realloc args fuel a k pt) Anyhow fun r => ShrinksTo pt r.1 r.2 := by
  induction fuel generalizing a k pt with
  | zero =>
    unfold unmapLoop
    split
    · exact .error trivial
    · exact .ok ⟨h, .refl pt⟩
  | succ fuel ih =>
    unfold unmapLoop
    split
    · cases walk pt a with
      | error e => exact .error trivial
      | ok found =>
        simp only [bind, Except.bind]
        cases found with
        | null =>
          simp only
          split
          · exact ih _ h
          · exact .error trivial
        | entry level pte =>
          simp only
          split
          · split
            · exact ih _ h
            · exact .error trivial
          split
          · exact .error trivial
          · refine .bind (unmapLeaf_shrinks hrealloc args a level pte h) ?_
            exact fun r hr => (ih _ hr.1).mono fun r' hr' => ⟨hr'.1, ((shrunk_set pt a).trans hr.2).trans hr'.2⟩
    · exact .ok ⟨h, .refl pt⟩

theorem uvmunmapWith_shrinks {realloc : Realloc} (hrealloc : ReallocShrinks realloc) (va npages : Nat)
    (do_free on_demand : Bool) (h : k.pool = []) :
    Ensures (uvmunmapWith realloc k pt va npages do_free on_demand) Anyhow fun r => ShrinksTo pt r.1 r.2 := by
  unfold uvmunmapWith
  split
  · exact .error trivial
  · exact unmapLoop_shrinks hrealloc _ _ _ h

theorem uvmdeallocWith_shrinks {realloc : Realloc} (hrealloc : ReallocShrinks realloc) :
    DeallocShrinks (uvmdeallocWith realloc) := by
  intro k pt a b h
  unfold uvmdeallocWith
  split
  · exact .ok ⟨h, .refl pt⟩
  · split
    · exact uvmunmapWith_shrinks hrealloc _ _ _ _ h
    · exact .ok ⟨h, .refl pt⟩

theorem kzalloc_empty (h : k.pool = []) (order : Nat) : kzalloc k order = .ok (k, none) := by
  simp only [kzalloc, kmalloc, h]
  rfl

theorem allocLoop_shrinks {dealloc : Dealloc} (hdealloc : DeallocShrinks dealloc) (startva : Nat) (perm : Flags)
    (level : Level) (as : List Nat) (h : k.pool = []) :
    Ensures (allocLoop dealloc startva perm level as k pt) Anyhow fun r => ShrinksTo pt r.1 r.2.1 := by
  cases as with
  | nil => exact .ok ⟨h, .refl pt⟩
  | cons a as =>
    unfold allocLoop
    rw [kzalloc_empty h]
    refine .bind (Q := fun r => r = (k, none)) (.ok rfl) ?_
    rintro r rfl
    exact .bind (hdealloc a startva h) fun r hr => .ok hr

theorem uvmallocWith_shrinks {dealloc : Dealloc} (hdealloc : DeallocShrinks dealloc) (startva endva : Nat)
    (perm : Flags) (h : k.pool = []) :
    Ensures (uvmallocWith dealloc k pt startva endva perm) Anyhow fun r => ShrinksTo pt r.1 r.2.1 := by
  have hkeeps := uvmallocWith_keeps dealloc startva endva perm (I := fun _ => ShrinksTo pt) (fun level as _ _ _ ⟨h, hs⟩ =>
    (allocLoop_shrinks hdealloc startva perm level as h).mono fun r hr => ⟨hr.1, hs.trans hr.2⟩) ⟨h, .refl pt⟩
  exact hkeeps.mono fun r hr => hr.elim id And.right

theorem uvmalloc_front_shrinks : ReallocShrinks uvmalloc_front := by
  have hstop : ReallocShrinks fun _ _ _ _ _ => .error .out_of_fuel := by
    intro k pt a b perm _
    exact .error trivial
  intro k pt a b perm h
  unfold uvmalloc_front
  exact .bind (uvmallocWith_shrinks (uvmdeallocWith_shrinks hstop) a b perm h) fun r hr => .ok hr

end Shrink

theorem region_of_mem {r : Fin NREGION} {a : Nat} (hlo : r.val * 2097152 ≤ a) (hhi : a < r.val * 2097152 + 2097152) :
    a < MAXVA ∧ region a = r := by
  have hr : r.val < 2 ^ 17 := r.isLt
  have hmax : a < MAXVA := by
    simp only [MAXVA]
    omega
  refine ⟨hmax, ?_⟩
  apply Fin.ext
  rw [region_val hmax]
  omega

theorem translate_of_leaf {pt : PageTable} {pte : Pte} {a : Nat} {r : Fin NREGION} (hr : a < MAXVA ∧ region a = r)
    (hd : pt.dir r = .leaf pte) (hv : pte.flags.has PTE_V = true) (hu : pte.flags.has PTE_U = true) :
    translate pt a ≠ none := by
  obtain ⟨hmax, rfl⟩ := hr
  have hleaf : pt.leafAt (place a .SUPERPAGE) = pte := by simp only [place, PageTable.leafAt, hd]
  rw [translate_eq pt hmax, hleaf, if_pos hv, if_pos hu]
  simp

theorem translate_of_dir_none {pt : PageTable} {a : Nat} {r : Fin NREGION} (hr : region a = r) (hd : pt.dir r = .none) :
    translate pt a = none := by
  subst hr
  refine translate_none fun level => ?_
  cases level with
  | COMMONPAGE => simp only [place, PageTable.leafAt, hd]
  | SUPERPAGE => simp only [place, PageTable.leafAt, hd]

theorem dir_of_super {pt : PageTable} {r : Fin NREGION} (hv : (pt.leafAt (.super r)).flags.has PTE_V = true) :
    pt.dir r = .leaf (pt.leafAt (.super r)) := by
  simp only [PageTable.leafAt] at hv ⊢
  cases hd : pt.dir r with
  | none =>
    simp only [hd] at hv
    cases hv
  | table page ptes =>
    simp only [hd] at hv
    cases hv
  | leaf pte => rfl

theorem eq_super_of_mem {pt : PageTable} {r : Fin NREGION} (hr : (pt.leafAt (.super r)).flags.has PTE_V = true) {u : Use}
    (hv : (pt.leafAt u).flags.has PTE_V = true) (hlo : r.val * SUPERPGSIZE ≤ u.addr)
    (hhi : u.addr < r.val * SUPERPGSIZE + SUPERPGSIZE) : u = .super r := by
  obtain ⟨pte, hd⟩ : ∃ pte, pt.dir r = .leaf pte := ⟨_, dir_of_super hr⟩
  rw [superpgsize_eq] at hlo hhi
  have hmax := (region_of_mem hlo hhi).1
  cases hleaf : u.leaf with
  | false =>
    rw [leafAt_of_not_leaf pt hleaf] at hv
    cases hv
  | true =>
    have hregion := use_of_region hmax hleaf (Nat.div_mul_le_self _ _) (Nat.lt_div_mul_add (by decide))
    rw [(region_of_mem hlo hhi).2] at hregion
    cases u with
    | common r' s =>
      cases hregion
      simp only [PageTable.leafAt, hd] at hv
      cases hv
    | super r' =>
      cases hregion
      rfl
    | _ => cases hleaf

/-- When memory is short, all of a 2M leaf is left or nothing: a range that is gone alone holds whole ones. -/
theorem whole_of_shrunk {pt pt' : PageTable} (huser : UserLeaves pt) (hs : Shrunk pt pt') {va endva : Nat}
    (hgone : ∀ a, va ≤ a → a < endva → translate pt' a = none)
    (hkept : ∀ a, a < va ∨ endva ≤ a → translate pt' a = none → translate pt a = none) : WholeLeaves pt va endva := by
  intro r hv hlt hlo hhi
  by_contra hin
  have hu := huser (.super r) hv
  have hd := dir_of_super hv
  rw [superpgsize_eq] at hlo hhi hin
  obtain hsame | hgone' := hs.leaf r _ hd
  · -- still there, also where the range meets it
    have hr := region_of_mem (r := r) (a := max va (r.val * 2097152)) (by omega) (by omega)
    have hsome := translate_of_leaf hr hsame hv hu
    exact hsome (hgone _ (by omega) (by omega))
  · -- gone, also where it sticks out
    have hout : ∃ a, (a < va ∨ endva ≤ a) ∧ r.val * 2097152 ≤ a ∧ a < r.val * 2097152 + 2097152 := by
      by_cases hfront : r.val * 2097152 < va
      · exact ⟨r.val * 2097152, .inl hfront, le_rfl, by omega⟩
      · exact ⟨endva, .inr le_rfl, by omega, by omega⟩
    obtain ⟨a, haout, halo, hahi⟩ := hout
    have hr := region_of_mem halo hahi
    have hsome := translate_of_leaf hr hd hv hu
    exact hsome (hkept a haout (translate_of_dir_none hr.2 hgone'))

theorem translate_none_iff_view {k : Phys} {pt : PageTable} {a : Nat} : view k pt a = none ↔ translate pt a = none :=
  Option.map_eq_none_iff

theorem whole_of_unmaps_exactly {k : Phys} {pt : PageTable} (huser : UserLeaves pt) {va npages : Nat} {on_demand : Bool}
    (h : k.pool = []) (hexact : UnmapsExactly k pt va npages on_demand) :
    WholeLeaves pt va (va + npages * PGSIZE) := by
  obtain ⟨k', pt', hret, hgone, hkept⟩ := hexact
  have hshrunk := (uvmunmapWith_shrinks uvmalloc_front_shrinks va npages true on_demand h).of_ok hret
  refine whole_of_shrunk huser hshrunk.2 hgone fun a hout hnone => ?_
  rw [← @translate_none_iff_view k', hkept a hout] at hnone
  exact translate_none_iff_view.mp hnone

/-- **`uvmunmap` with 2M leaves.**  Whatever the frames hold and the allocator finds, `uvmunmap` removes exactly
the range, if and only if every 2M leaf that meets the range lies in it. -/
theorem uvmunmap_exact_iff {k : Phys} {pt : PageTable} {ext : Holders} (h : Held k pt ext) (huser : UserLeaves pt)
    {va npages : Nat} (hva : va % PGSIZE = 0) (hmax : va + npages * PGSIZE ≤ MAXVA) {on_demand : Bool}
    (hpresent : on_demand = true ∨ Present pt va (va + npages * PGSIZE)) :
    (∀ mem pool, UnmapsExactly { k with mem := mem, pool := pool } pt va npages on_demand) ↔
      WholeLeaves pt va (va + npages * PGSIZE) := by
  constructor
  · intro hexact
    have hempty := hexact k.mem []
    exact whole_of_unmaps_exactly huser rfl hempty
  · intro hwhole mem pool
    have hheld : Held { k with mem := mem, pool := pool } pt ext := ⟨h.1.congr rfl rfl rfl, h.2⟩
    exact unmaps_exactly_of_whole hheld huser hva hmax hpresent hwhole

/-! ## A heap of one 2M page -/

theorem allocFlags_user (perm : Flags) : (allocFlags perm).has PTE_U = true := by
  have hbits : ∀ f : Flags, (allocFlags f).has PTE_U = true := by decide
  exact hbits perm

theorem userLeaves_uvmcreate : UserLeaves uvmcreate := by
  intro u hv
  have hzero : uvmcreate.leafAt u = Pte.zero := by
    cases u <;> rfl
  rw [hzero] at hv
  cases hv

theorem UserLeaves.adds {pt pt' : PageTable} {perm : Flags} (h : UserLeaves pt) (hadds : OnlyAdds pt perm pt') :
    UserLeaves pt' := by
  intro u hv
  obtain hsame | hnew := hadds u
  · rw [hsame] at hv ⊢
    exact h u hv
  · rw [hnew]
    exact allocFlags_user perm

namespace System

/-- Memory is there for all that `uvmalloc` asks for: the range is mapped, for the user. -/
def allocated (p : Fin NPROC) (pool : List (Option Nat)) (startva endva : Nat) (perm : Flags) : Option System :=
  match Vm.uvmalloc (booted pool).phys uvmcreate startva endva perm with
  | .ok (k, pt, sz) => if sz = endva then some ((booted pool).setTable k p pt) else none
  | .error _ => none

theorem step_of_allocated {p : Fin NPROC} {pool : List (Option Nat)} {startva endva : Nat} {perm : Flags}
    {sys : System} (hpos : endva ≠ 0) (h : allocated p pool startva endva perm = some sys) :
    Step (booted pool) (.uvmalloc p startva endva perm) sys ∧ UserLeaves (sys.tables p) := by
  unfold allocated at h
  cases halloc : Vm.uvmalloc (booted pool).phys uvmcreate startva endva perm with
  | error e =>
    rw [halloc] at h
    cases h
  | ok r =>
    obtain ⟨k, pt, sz⟩ := r
    rw [halloc] at h
    simp only at h
    split at h
    · next hsz =>
      cases h
      refine ⟨⟨trivial, ?_⟩, ?_⟩
      · show (Vm.uvmalloc (booted pool).phys uvmcreate startva endva perm >>= _) = _
        rw [halloc]
        rfl
      rw [show ((booted pool).setTable k p pt).tables p = pt from update_self _ _ _]
      refine userLeaves_uvmcreate.adds ((uvmalloc_adds _ _ startva endva perm).of_ok halloc ?_)
      rw [hsz]
      exact hpos
    · cases h

/-- The whole page goes. -/
theorem uvmunmap_exact_iff_whole_page : ∃ sys, Step (booted [some 512, some 1, some 2, some 3])
      (.uvmalloc 0 0x400000 0x600000 PTE_W) sys ∧
    UnmapsExactly { sys.phys with mem := fun _ _ => 1, pool := [] } (sys.tables 0) 0x400000 512 true := by
  have hsome : (allocated 0 [some 512, some 1, some 2, some 3] 0x400000 0x600000 PTE_W).isSome = true := by
    decide +kernel
  obtain ⟨sys, hsys⟩ := Option.isSome_iff_exists.mp hsome
  obtain ⟨hstep, huser⟩ := step_of_allocated (by decide) hsys
  have hinv := inv_of_run ⟨fun _ => rfl, fun _ => rfl, fun _ => rfl, fun _ => rfl⟩ (.cons hstep (.nil _))
  refine ⟨sys, hstep, (uvmunmap_exact_iff (hinv.held 0) huser (by decide) (by decide) (.inl rfl)).mpr ?_ _ _⟩
  intro r _ _ hlo hhi
  simp only [superpgsize_eq, pgsize_eq] at hlo hhi ⊢
  omega

/-- The heap shrinks to its first 4K: those bytes are lost, although the allocator finds memory. -/
theorem front_of_page_is_lost : ∃ sys, Step (booted [some 512, some 1, some 2, some 3])
      (.uvmalloc 0 0x400000 0x600000 PTE_W) sys ∧
    ¬ UnmapsExactly { sys.phys with mem := fun _ _ => 1 } (sys.tables 0) 0x401000 511 false := by
  have hsome : ((allocated 0 [some 512, some 1, some 2, some 3] 0x400000 0x600000 PTE_W).map fun sys =>
      (view { sys.phys with mem := fun _ _ => 1 } (sys.tables 0) 0x400000,
        (Vm.uvmunmap { sys.phys with mem := fun _ _ => 1 } (sys.tables 0) 0x401000 511 true false).toOption.map
          fun r => view r.1 r.2 0x400000)) = some (some (0x17, 1), some (some (0x17, 0))) := by
    decide +kernel
  obtain ⟨sys, hsys, hviews⟩ := Option.map_eq_some_iff.mp hsome
  refine ⟨sys, (step_of_allocated (by decide) hsys).1, ?_⟩
  rintro ⟨k', pt', hret, -, hkept⟩
  rw [Prod.mk.injEq, hret] at hviews
  obtain ⟨hbefore, hafter⟩ := hviews
  rw [show (Except.ok (k', pt') : Except Panic (Phys × PageTable)).toOption = some (k', pt') from rfl,
    Option.map_some, Option.some_inj] at hafter
  have hsame := hkept 0x400000 (.inl (by decide))
  rw [hbefore, hafter] at hsame
  cases hsame

end System

end LostWakeup.Mm.Vm
