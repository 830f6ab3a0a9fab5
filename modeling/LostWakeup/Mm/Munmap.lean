/-
# LostWakeup.Mm.Munmap — what `munmap` removes beside its range.

`vmspace_unmap` walks over the areas from `va` on.  An area that ends in the range goes, with its pages.
The last one may reach past the range: it is cut in front, but its pages all go, and the file offset of
what is left stays that of its old start.  An area behind a hole is not reached at all.
-/
import LostWakeup.Mm.Areas
import LostWakeup.Mm.Unmap

namespace LostWakeup.Mm.Vma

open Library

/-! ## The areas in the way -/

/-- What an unmap of `[va, endva)` makes of the areas, when it got to the end `last` of one of them. -/
structure Cleared (mm : mm_struct) (va endva : Nat) (mm' : mm_struct) (last : Nat) : Prop where
  layout : Layout mm'
  lt : va < last
  aligned : last % PGSIZE = 0
  covered : ∀ a, va ≤ a → a < last → areaAt mm a ≠ none
  hole : last < endva → areaAt mm last = none
  gone : ∀ a, va ≤ a → a < endva → a < last → areaAt mm' a = none
  cut : endva < last → ∃ v, (v.startva < endva ∨ endva = va) ∧ v.startva ≤ endva ∧ v.startva + v.size = last ∧
    ∀ a, endva ≤ a → a < last →
      areaAt mm a = some v ∧ areaAt mm' a = some { v with startva := endva, size := last - endva }
  kept : ∀ a, a < va ∨ last ≤ a → areaAt mm' a = areaAt mm a

section

variable {mm : mm_struct} {i len : Nat}

/-- The last area reaches past the range. -/
theorem cleared_cut (hl : Layout mm) (hi : i ∈ mm.head_vma) (hlen : len % PGSIZE = 0) (hlt : len < (mm.vmas i).size) :
    Cleared mm (mm.vmas i).startva ((mm.vmas i).startva + len)
      (mm.set i { mm.vmas i with
        startva := add64 (mm.vmas i).startva len, size := (mm.vmas i).size - len })
      ((mm.vmas i).startva + (mm.vmas i).size) := by
  obtain ⟨hstart, hsize, hend⟩ := hl.placed i hi
  have hadd : add64 (mm.vmas i).startva len = (mm.vmas i).startva + len := by
    simp only [add64]
    omega
  rw [hadd]
  simp only [PGSIZE] at hstart hsize hlen
  have hlayout : Layout (mm.set i { mm.vmas i with
      startva := (mm.vmas i).startva + len, size := (mm.vmas i).size - len }) := by
    refine hl.shrink hi ⟨?_, ?_, ?_⟩ (span_subset ?_ ?_)
    · show ((mm.vmas i).startva + len) % 4096 = 0
      omega
    · show ((mm.vmas i).size - len) % 4096 = 0
      omega
    · show (mm.vmas i).startva + len + ((mm.vmas i).size - len) < 2 ^ 64
      omega
    · show (mm.vmas i).startva ≤ (mm.vmas i).startva + len
      omega
    · show (mm.vmas i).startva + len + ((mm.vmas i).size - len) ≤ (mm.vmas i).startva + (mm.vmas i).size
      omega
  refine ⟨hlayout, by omega, ?_, fun a hlo hhi => ?_, by omega, fun a hlo hhi hlast => ?_, fun _ => ?_, fun a hout => ?_⟩
  · show ((mm.vmas i).startva + (mm.vmas i).size) % 4096 = 0
    omega
  · rw [areaAt_of_mem hl hi (mem_span_iff.mpr ⟨hlo, hhi⟩)]
    simp
  · refine areaAt_set_old hl hlayout hi (mem_span_iff.mpr ⟨hlo, hlast⟩) fun hin => ?_
    have := (mem_span_iff.mp hin).1
    simp only at this
    omega
  · refine ⟨mm.vmas i, ?_, le_self_add, rfl, fun a hlo hhi => ⟨?_, ?_⟩⟩
    · omega
    · exact areaAt_of_mem hl hi (mem_span_iff.mpr ⟨by omega, hhi⟩)
    · have hbound : a < (mm.vmas i).startva + len + ((mm.vmas i).size - len) := by omega
      have hrest : (mm.vmas i).size - len =
          (mm.vmas i).startva + (mm.vmas i).size - ((mm.vmas i).startva + len) := by omega
      rw [areaAt_set_in hlayout hi (mem_span_iff.mpr ⟨hlo, hbound⟩), hrest]
  · refine areaAt_set_out hl hlayout (fun hin => ?_) fun hin => ?_
    · have := mem_span_iff.mp hin
      omega
    · obtain ⟨hlo, hhi⟩ := mem_span_iff.mp hin
      simp only at hlo hhi
      omega

/-- The last area ends with the range, or a hole follows. -/
theorem cleared_last (hl : Layout mm) (hi : i ∈ mm.head_vma) (hpos : 0 < (mm.vmas i).size) {endva : Nat}
    (hle : (mm.vmas i).startva + (mm.vmas i).size ≤ endva)
    (hhole : (mm.vmas i).startva + (mm.vmas i).size < endva →
      areaAt mm ((mm.vmas i).startva + (mm.vmas i).size) = none) :
    Cleared mm (mm.vmas i).startva endva (free_vma { mm with head_vma := mm.head_vma.erase i } i)
      ((mm.vmas i).startva + (mm.vmas i).size) := by
  obtain ⟨hstart, hsize, hend⟩ := hl.placed i hi
  refine ⟨hl.delete i, by omega, ?_, fun a hlo hhi => ?_, hhole, fun a hlo _ hlast => ?_, by omega, fun a hout => ?_⟩
  · simp only [PGSIZE] at hstart hsize ⊢
    omega
  · rw [areaAt_of_mem hl hi (mem_span_iff.mpr ⟨hlo, hhi⟩)]
    simp
  · exact areaAt_delete_in hl hi (mem_span_iff.mpr ⟨hlo, hlast⟩)
  · refine areaAt_delete_out hl fun hin => ?_
    have := mem_span_iff.mp hin
    omega

/-- An area goes and the next one follows at once. -/
theorem cleared_next (hl : Layout mm) (hi : i ∈ mm.head_vma) {endva last : Nat} {mm' : mm_struct}
    (hpos : 0 < (mm.vmas i).size) (hlt : (mm.vmas i).startva + (mm.vmas i).size < endva)
    (h : Cleared (free_vma { mm with head_vma := mm.head_vma.erase i } i)
      ((mm.vmas i).startva + (mm.vmas i).size) endva mm' last) :
    Cleared mm (mm.vmas i).startva endva mm' last := by
  have hbehind : ∀ a, (mm.vmas i).startva + (mm.vmas i).size ≤ a →
      areaAt (free_vma { mm with head_vma := mm.head_vma.erase i } i) a = areaAt mm a := by
    intro a hlo
    refine areaAt_delete_out hl fun hin => ?_
    have := mem_span_iff.mp hin
    omega
  have hlast := h.lt
  refine ⟨h.layout, by omega, h.aligned, fun a hlo hhi => ?_, fun hlt' => ?_, fun a hlo hend hhi => ?_, fun hcut => ?_,
    fun a hout => ?_⟩
  · by_cases hin : a < (mm.vmas i).startva + (mm.vmas i).size
    · rw [areaAt_of_mem hl hi (mem_span_iff.mpr ⟨hlo, hin⟩)]
      simp
    · rw [← hbehind a (not_lt.mp hin)]
      exact h.covered a (not_lt.mp hin) hhi
  · rw [← hbehind last hlast.le]
    exact h.hole hlt'
  · by_cases hin : a < (mm.vmas i).startva + (mm.vmas i).size
    · rw [h.kept a (.inl hin)]
      exact areaAt_delete_in hl hi (mem_span_iff.mpr ⟨hlo, hin⟩)
    · exact h.gone a (not_lt.mp hin) hend hhi
  · obtain ⟨v, hbegin, hle, hv, hboth⟩ := h.cut hcut
    refine ⟨v, .inl (by omega), hle, hv, fun a hlo hhi => ?_⟩
    rw [← hbehind a (by omega)]
    exact hboth a hlo hhi
  · rw [h.kept a (by omega)]
    refine areaAt_delete_out hl fun hin => ?_
    have := mem_span_iff.mp hin
    omega

theorem startva_of_adjacent (hl : Layout mm) (hi : i ∈ mm.head_vma) (hpos : 0 < (mm.vmas i).size) {j : Nat}
    (hj : j ∈ mm.head_vma) (hat : (mm.vmas i).startva + (mm.vmas i).size ∈ (mm.vmas j).span) :
    (mm.vmas j).startva = (mm.vmas i).startva + (mm.vmas i).size := by
  obtain ⟨hlo, hhi⟩ := mem_span_iff.mp hat
  by_contra hne
  -- otherwise both hold the address before
  have hini : (mm.vmas i).startva + (mm.vmas i).size - 1 ∈ (mm.vmas i).span :=
    mem_span_iff.mpr ⟨by omega, by omega⟩
  have hinj : (mm.vmas i).startva + (mm.vmas i).size - 1 ∈ (mm.vmas j).span :=
    mem_span_iff.mpr ⟨by omega, by omega⟩
  have hij := hl.disjoint.elim_set hi hj _ hini hinj
  subst hij
  omega

end

end LostWakeup.Mm.Vma

namespace LostWakeup.Mm.Vm

open Library
open Mm.Vma (PGSIZE SUPERPGSIZE PGROUNDUP PGROUNDDOWN vma vmatype mm_struct File find_vma_for_va mem_of_find
  free_vma areaAt Layout Cleared)

/-! ## `vmspace_unmap` -/

/-- `vmspace_unmap` with the pages.  The write-back of a shared mapping, which touches the file only, is left
out. -/
def vmspace_unmap (k : Phys) (pt : PageTable) (mm : mm_struct) (va len : Nat) :
    Except Panic (Phys × PageTable × mm_struct × Int) :=
  match h : find_vma_for_va mm va with
  | none => .ok (k, pt, mm, -1)
  | some vma =>
    let start := (mm.vmas vma).startva
    let size := (mm.vmas vma).size
    if va ≠ start then
      .ok (k, pt, mm, -1)
    else
      let len := PGROUNDUP len
      if size > len then do
        let mm' := mm.set vma { mm.vmas vma with startva := add64 start len, size := size - len }
        -- all pages of the area
        let (k, pt) ← uvmunmap k pt start (PGROUNDUP size / PGSIZE) true true
        return (k, pt, mm', 0)
      else do
        let mm' := free_vma { mm with head_vma := mm.head_vma.erase vma } vma
        let (k, pt) ← uvmunmap k pt start (PGROUNDUP size / PGSIZE) true true
        if size < len then
          let (k, pt, mm'', _) ← vmspace_unmap k pt mm' (add64 va size) (len - size)
          return (k, pt, mm'', 0)
        else
          return (k, pt, mm', 0)
termination_by mm.head_vma.length
decreasing_by
  have hmem := mem_of_find h
  simp only [free_vma, List.length_erase_of_mem hmem]
  have := List.length_pos_of_mem hmem
  omega

/-! ## Pages beyond `MAXVA` -/

theorem Edge.next {pt pt' : PageTable} {a a' : Nat} (h : Edge pt a) (haa : a ≤ a')
    (hold : ∀ r : Fin NREGION, (pt'.leafAt (.super r)).flags.has PTE_V = true →
      (pt.leafAt (.super r)).flags.has PTE_V = true)
    (hin : ∀ r : Fin NREGION, (pt'.leafAt (.super r)).flags.has PTE_V = true → a ≤ r.val * SUPERPGSIZE →
      r.val * SUPERPGSIZE < a' → r.val * SUPERPGSIZE + SUPERPGSIZE ≤ a') : Edge pt' a' := by
  intro r hv hlt
  by_cases hbefore : r.val * SUPERPGSIZE < a
  · exact (h r (hold r hv) hbefore).trans haa
  · exact hin r hv (not_lt.mp hbefore) hlt

theorem super_of_page {a : Nat} (hmax : a < MAXVA) (hal : a % PGSIZE = 0) {r : Fin NREGION}
    (hlo : a ≤ r.val * SUPERPGSIZE) (hhi : r.val * SUPERPGSIZE < a + PGSIZE) : Use.super r = place a .SUPERPAGE := by
  have hr : r = region a := by
    apply Fin.ext
    rw [region_val hmax]
    rw [superpgsize_eq] at hlo hhi
    rw [pgsize_eq] at hal hhi
    omega
  rw [hr]
  rfl

theorem Edge.page {pt pt' : PageTable} {a : Nat} (h : Edge pt a) (hmax : a < MAXVA) (hal : a % PGSIZE = 0)
    (hold : ∀ r : Fin NREGION, (pt'.leafAt (.super r)).flags.has PTE_V = true →
      (pt.leafAt (.super r)).flags.has PTE_V = true)
    (hnone : (pt'.leafAt (place a .SUPERPAGE)).flags.has PTE_V = false) : Edge pt' (a + PGSIZE) := by
  refine h.next le_self_add hold fun r hv hlo hhi => ?_
  rw [super_of_page hmax hal hlo hhi, hnone] at hv
  cases hv

theorem super_old_of_set {pt : PageTable} {a : Nat} {level : Level} {pte : Pte}
    (hwalk : walk pt a = .ok (.entry level pte)) (r : Fin NREGION)
    (hv : ((pt.set a Pte.zero).leafAt (.super r)).flags.has PTE_V = true) :
    (pt.leafAt (.super r)).flags.has PTE_V = true := by
  rw [leafAt_set hwalk] at hv
  by_cases hu : Use.super r = place a level
  · rw [hu, Function.update_self] at hv
    cases hv
  · rw [Function.update_of_ne hu] at hv
    exact hv

/-- The loop never comes to an end beyond `MAXVA`: `walk` panics there. -/
theorem unmapLoop_past_end {realloc : Realloc} {args : UnmapArgs} (hod : args.on_demand = true) (fuel : Nat) {a : Nat}
    {k : Phys} {pt : PageTable} (hal : a % PGSIZE = 0) (hedge : Edge pt a) (hlt : a < args.endva)
    (hmax : MAXVA < args.endva) : Ensures (unmapLoop realloc args fuel a k pt) Anyhow fun _ => False := by
  induction fuel generalizing a k pt with
  | zero =>
    unfold unmapLoop
    rw [if_pos hlt]
    exact .error trivial
  | succ fuel ih =>
    unfold unmapLoop
    rw [if_pos hlt]
    by_cases hamax : a < MAXVA
    · have hal' : (a + PGSIZE) % PGSIZE = 0 := next_aligned hal .COMMONPAGE
      have hlt' : a + PGSIZE < args.endva := by
        simp only [MAXVA] at hamax hmax
        rw [pgsize_eq] at *
        omega
      obtain ⟨found, hwalk⟩ := walk_of_lt pt hamax
      rw [hwalk]
      simp only [bind, Except.bind]
      cases found with
      | null =>
        simp only [hod, if_true]
        refine ih hal' (hedge.page hamax hal (fun _ hv => hv) ?_) hlt'
        rw [leafAt_of_walk_null hwalk]
        rfl
      | entry level pte =>
        by_cases hv : pte.flags.has PTE_V = true
        · simp only [hv, Bool.true_eq_false, if_false]
          split
          · exact .error trivial
          have hdown : level = .SUPERPAGE → a % 2097152 = 0 := by
            rintro rfl
            have := hedge (region a) (by rw [show pt.leafAt (.super (region a)) = pte from leafAt_of_walk hwalk]; exact hv)
            rw [region_val hamax, superpgsize_eq] at this
            omega
          have hnot : ¬ (level = .SUPERPAGE ∧ a ≠ SUPERPG_DOWN a ∧ a = args.va) := by
            rintro ⟨hlevel, hne, -⟩
            have := hdown hlevel
            simp only [SUPERPG_DOWN, superpgsize_eq] at hne
            omega
          have hleaf : Ensures (unmapLeaf realloc args a level pte k pt) Anyhow fun r => r.2 = pt.set a Pte.zero := by
            unfold unmapLeaf
            simp only [if_neg hnot]
            cases unmapLeaf.free args pte k with
            | ok k₁ => exact .ok rfl
            | error e => exact .error trivial
          refine .bind hleaf fun r hr => ?_
          obtain ⟨k₁, pt₁⟩ := r
          subst hr
          cases level with
          | COMMONPAGE =>
            refine ih hal' (hedge.page hamax hal (super_old_of_set hwalk) ?_) hlt'
            rw [leafAt_set hwalk, Function.update_of_ne (by simp [place]), leafAt_of_walk_ne hwalk (by decide)]
            rfl
          | SUPERPAGE =>
            have hbegin := hdown rfl
            refine ih (next_aligned hal .SUPERPAGE) (hedge.next le_self_add (super_old_of_set hwalk) ?_) ?_
            · intro r _ hlo hhi
              simp only [Level.pgsize, superpgsize_eq] at hlo hhi ⊢
              omega
            · simp only [MAXVA, Level.pgsize, superpgsize_eq] at hamax hmax ⊢
              omega
        · have hv' : pte.flags.has PTE_V = false := by simpa using hv
          simp only [hv', hod, if_true]
          refine ih hal' (hedge.page hamax hal (fun _ h => h) ?_) hlt'
          cases level with
          | COMMONPAGE =>
            rw [leafAt_of_walk_ne hwalk (by decide)]
            rfl
          | SUPERPAGE =>
            rw [leafAt_of_walk hwalk]
            exact hv'
    · have hwalk : walk pt a = .error .walk := by
        unfold walk
        rw [if_pos (not_lt.mp hamax)]
      rw [hwalk]
      exact .error trivial

/-- A call that returns has swept its range. -/
theorem uvmunmap_past {k : Phys} {pt cur : PageTable} {ext : Holders} {va start npages h : Nat}
    (huser : UserLeaves pt) (hedge : Edge pt va) (hal : start % PGSIZE = 0) (hpos : 0 < npages)
    (hend : start + npages * PGSIZE < 2 ^ 64) (hhal : h % PGSIZE = 0) (hva : va ≤ start) (hah : start ≤ h)
    (hheld : Held k cur ext) (hs : Swept pt va h cur) :
    Ensures (uvmunmap k cur start npages true true) Anyhow fun r =>
      ∃ h', SweptPast pt va (start + npages * PGSIZE) h ext k r.1 r.2 h' := by
  by_cases hmax : start + npages * PGSIZE ≤ MAXVA
  · obtain ⟨k', pt', h', hret, hpast⟩ := uvmunmap_sweeps (huser.plain _ _) hedge hal hmax hhal hva hah (.inl rfl) hheld hs
    rw [hret]
    exact .ok ⟨h', hpast⟩
  have hsum : add64 start (npages * PGSIZE % 2 ^ 64) = start + npages * PGSIZE := by
    rw [add64, Nat.mod_eq_of_lt (a := npages * PGSIZE) (by omega), Nat.mod_eq_of_lt (by omega)]
  have hedge' : Edge cur start := by
    intro r hv hr
    have hleaf : r.val * SUPERPGSIZE < va := by
      by_contra hge
      rw [hs.gone (.super r) (not_lt.mp hge) (hr.trans_le hah)] at hv
      cases hv
    rw [hs.kept (.super r) (.inl hleaf)] at hv
    exact (hedge r hv hleaf).trans hva
  have hlt : start < start + npages * PGSIZE := by
    rw [pgsize_eq]
    omega
  unfold uvmunmap uvmunmapWith
  rw [if_neg (by omega), hsum]
  exact (unmapLoop_past_end rfl npages hal hedge' hlt (Nat.lt_of_not_le hmax)).mono fun _ hfalse => hfalse.elim

theorem SweptPast.trans {pt pt₁ pt₂ : PageTable} {va endva endva' h h₁ h₂ : Nat} {ext : Holders} {k k₁ k₂ : Phys}
    (hend : endva ≤ endva') (hfst : SweptPast pt va endva h ext k k₁ pt₁ h₁)
    (hsnd : SweptPast pt va endva' h₁ ext k₁ k₂ pt₂ h₂) : SweptPast pt va endva' h ext k k₂ pt₂ h₂ := by
  have hle := hfst.le
  have hpast := hfst.past
  refine ⟨hsnd.mem.trans hfst.mem, hsnd.held, hsnd.swept, hle.trans hsnd.le, hsnd.past, hsnd.aligned, ?_⟩
  obtain hmax | hleaf := hsnd.stops
  · obtain hmax₁ | ⟨r, hv, hlo, hhi, heq⟩ := hfst.stops
    · exact .inl (by omega)
    · by_cases hlast : endva' ≤ h₁
      · exact .inr ⟨r, hv, hlo, hhi.trans_le hend, by omega⟩
      · exact .inl (by omega)
  · exact .inr hleaf

/-! ## One unmap -/

/-- What a call that returns 0 has made of the areas and of the pages. -/
def Done (pt : PageTable) (va₀ : Nat) (ext : Holders) (k : Phys) (mm : mm_struct) (va endva h : Nat)
    (r : Phys × PageTable × mm_struct × Int) : Prop :=
  r.2.2.2 = 0 ∧ ∃ last h', Cleared mm va endva r.2.2.1 last ∧ SweptPast pt va₀ last h ext k r.1 r.2.1 h'

/-- A call on the start of an area.  The induction is on the number of areas; the leaves of `pt` from `va₀` up to `h`
are gone before. -/
theorem vmspace_unmap_done {pt : PageTable} {ext : Holders} {va₀ : Nat} (huser : UserLeaves pt) (hedge : Edge pt va₀)
    (n : Nat) {k : Phys} {cur : PageTable} {mm : mm_struct} {va len h i : Nat} (hn : mm.head_vma.length = n)
    (hl : Layout mm) (hfind : find_vma_for_va mm va = some i) (hstart : (mm.vmas i).startva = va) (hva : va₀ ≤ va)
    (hah : va ≤ h) (hhal : h % PGSIZE = 0) (hheld : Held k cur ext) (hs : Swept pt va₀ h cur) :
    Ensures (vmspace_unmap k cur mm va len) Anyhow (Done pt va₀ ext k mm va (va + PGROUNDUP len) h) := by
  induction n generalizing k cur mm va len h i with
  | zero =>
    have hnil : mm.head_vma = [] := List.length_eq_zero_iff.mp hn
    have hi := mem_of_find hfind
    rw [hnil] at hi
    cases hi
  | succ n ih =>
    obtain ⟨hi, hlo, hhi⟩ := Vma.find_vma_spec hl hfind
    obtain ⟨hsal, hzal, hend⟩ := hl.placed i hi
    have hround : PGROUNDUP (mm.vmas i).size = (mm.vmas i).size := roundUp_of_aligned hzal (by omega)
    have hpages : (mm.vmas i).size / PGSIZE * PGSIZE = (mm.vmas i).size := by
      rw [pgsize_eq] at hzal ⊢
      omega
    have hlen : PGROUNDUP len % PGSIZE = 0 := Vma.roundUp_aligned len
    have hlen64 : PGROUNDUP len < 2 ^ 64 := by
      simp only [PGROUNDUP, roundUp, pgsize_eq]
      omega
    have hpos : 0 < (mm.vmas i).size := by omega
    -- the pages of this area
    have hunmap : Ensures (uvmunmap k cur va ((mm.vmas i).size / PGSIZE) true true) Anyhow fun r =>
        ∃ h₁, SweptPast pt va₀ (va + (mm.vmas i).size) h ext k r.1 r.2 h₁ := by
      rw [hstart] at hend
      have hnpages : 0 < (mm.vmas i).size / PGSIZE := by
        rw [pgsize_eq] at hzal ⊢
        omega
      have hcall := uvmunmap_past huser hedge (hstart ▸ hsal) hnpages (by rw [hpages]; omega) hhal hva hah hheld hs
      rw [hpages] at hcall
      exact hcall
    rw [vmspace_unmap]
    split
    · next hnone =>
      rw [hfind] at hnone
      cases hnone
    · next i' hsome =>
      rw [hfind] at hsome
      cases hsome
      simp only [hstart, ne_eq, not_true_eq_false, if_false, hround]
      split
      · next hlt =>
        refine .bind hunmap ?_
        rintro ⟨k₁, pt₁⟩ ⟨h₁, hpast⟩
        have hcut := Vma.cleared_cut hl hi hlen hlt
        rw [hstart] at hcut
        exact .ok ⟨rfl, _, h₁, hcut, hpast⟩
      · next hge =>
        refine .bind hunmap ?_
        rintro ⟨k₁, pt₁⟩ ⟨h₁, hpast⟩
        split
        · next hlt =>
          have hadd : add64 va (mm.vmas i).size = va + (mm.vmas i).size := by
            simp only [add64]
            omega
          have hlen' : PGROUNDUP (PGROUNDUP len - (mm.vmas i).size) = PGROUNDUP len - (mm.vmas i).size := by
            refine roundUp_of_aligned ?_ (by omega)
            rw [pgsize_eq] at *
            omega
          rw [hadd]
          cases hfind' : find_vma_for_va (free_vma { mm with head_vma := mm.head_vma.erase i } i)
              (va + (mm.vmas i).size) with
          | none =>
            have hhole : areaAt mm ((mm.vmas i).startva + (mm.vmas i).size) = none := by
              have hout : (mm.vmas i).startva + (mm.vmas i).size ∉ (mm.vmas i).span := fun hin => by
                have := (Vma.mem_span_iff.mp hin).2
                omega
              rw [← Vma.areaAt_delete_out hl hout, areaAt, hstart, hfind']
              rfl
            rw [vmspace_unmap]
            split
            · have hlast := @Vma.cleared_last mm i hl hi hpos (va + PGROUNDUP len) (by omega) fun _ => hhole
              rw [hstart] at hlast
              exact .ok ⟨rfl, _, h₁, hlast, hpast⟩
            · next j hsome =>
              rw [hfind'] at hsome
              cases hsome
          | some j =>
            obtain ⟨hj, hjlo, hjhi⟩ := Vma.find_vma_spec (hl.delete i) hfind'
            have hjstart : (mm.vmas j).startva = va + (mm.vmas i).size := by
              have hadj := Vma.startva_of_adjacent hl hi hpos (List.mem_of_mem_erase hj)
              rw [hstart] at hadj
              exact hadj (Vma.mem_span_iff.mpr ⟨hjlo, hjhi⟩)
            have hcount : (mm.head_vma.erase i).length = n := by
              rw [List.length_erase_of_mem hi, hn]
              rfl
            have hnext : Ensures (vmspace_unmap k₁ pt₁ _ (va + (mm.vmas i).size) (PGROUNDUP len - (mm.vmas i).size))
                Anyhow _ :=
              ih hcount (hl.delete i) hfind' hjstart (by omega) hpast.past hpast.aligned hpast.held hpast.swept
            refine .bind hnext ?_
            rintro ⟨k₂, pt₂, mm', r⟩ ⟨-, last, h₂, hcleared, hpast'⟩
            have hrange : va + (mm.vmas i).size + (PGROUNDUP len - (mm.vmas i).size) = va + PGROUNDUP len := by omega
            rw [hlen', hrange, ← hstart] at hcleared
            have hall := Vma.cleared_next hl hi hpos (by omega) hcleared
            rw [hstart] at hall hcleared
            exact .ok ⟨rfl, last, h₂, hall, hpast.trans (Nat.le_of_lt hcleared.lt) hpast'⟩
        · next hle =>
          have hlast := @Vma.cleared_last mm i hl hi hpos (va + PGROUNDUP len) (by omega) (by omega)
          rw [hstart] at hlast
          exact .ok ⟨rfl, _, h₁, hlast, hpast⟩

/-! ## The property -/

/-- The offset in the file, as `pagefault` reads it. -/
def fileOffset (v : vma) (a : Nat) : Nat := sub64 (add64 v.offset (PGROUNDDOWN a)) v.startva

/-- What the area at an address says about it: type, permissions and, for a mapped file, the file and the offset. -/
def attrs (mm : mm_struct) (a : Nat) : Option (vmatype × Nat × Option (Option File × Nat)) :=
  (areaAt mm a).map fun v => (v.type, v.perm, if v.type = .VMA_FILE then some (v.vm_file, fileOffset v a) else none)

/-- The range `[va, endva)` is gone and every other address is as before. -/
structure Unmapped (k : Phys) (pt : PageTable) (mm : mm_struct) (va endva : Nat) (k' : Phys) (pt' : PageTable)
    (mm' : mm_struct) : Prop where
  gone : ∀ a, va ≤ a → a < endva → translate pt' a = none ∧ areaAt mm' a = none
  kept : ∀ a, a < va ∨ endva ≤ a → attrs mm' a = attrs mm a ∧ view k' pt' a = view k pt a

/-- Nothing of the range lies behind a hole, the area that reaches past it has no page there and, if it maps a file,
is not cut, and every 2M page lies in the range or outside it. -/
structure Clean (pt : PageTable) (mm : mm_struct) (va endva : Nat) : Prop where
  rest : ∀ a, va ≤ a → a < endva → areaAt mm a = none →
    (∀ b, a ≤ b → b < endva → areaAt mm b = none) ∧ ∀ u : Use, a ≤ u.addr → u.addr < endva → pt.leafAt u = Pte.zero
  tail : ∀ v, areaAt mm endva = some v → v.startva < endva ∨ endva = va →
    (v.type = .VMA_FILE → endva = v.startva) ∧ ∀ a, endva ≤ a → a < v.startva + v.size → translate pt a = none
  whole : WholeLeaves pt va endva

section Clean

variable {k k' : Phys} {pt pt' : PageTable} {mm mm' : mm_struct} {va endva last h' : Nat} {ext : Holders}

theorem Clean.edge (hc : Clean pt mm va endva) (huser : UserLeaves pt) (hle : va ≤ endva) {v : vma}
    (hv : areaAt mm va = some v) (hend : va < v.startva + v.size) : Edge pt va := by
  intro r hleaf hlt
  by_contra hin
  by_cases hpos : va < endva
  · have := hc.whole r hleaf hpos (by omega) (by omega)
    omega
  have heq : endva = va := by omega
  subst heq
  have hnone := (hc.tail v hv (.inr rfl)).2 endva le_rfl hend
  rw [superpgsize_eq] at hlt hin
  have hr := region_of_mem (r := r) (a := endva) (by omega) (by omega)
  exact translate_of_leaf hr (dir_of_super hleaf) hleaf (huser _ hleaf) hnone

/-- The leaves that are gone are those of the range. -/
theorem Clean.swept (hc : Clean pt mm va endva) (huser : UserLeaves pt) (hvalid : pt.Valid) (hle : va ≤ endva)
    (hedge : Edge pt va) (hcl : Cleared mm va endva mm' last) (hsw : SweptPast pt va last va ext k k' pt' h') :
    Swept pt va endva pt' := by
  have hlt := hcl.lt
  have hpast := hsw.past
  have hbehind : ∀ u, endva ≤ u.addr → u.addr < h' → pt.leafAt u = Pte.zero := by
    intro u hlo hhi
    refine (leafAt_valid hvalid u).resolve_right fun hv => ?_
    by_cases hlast : u.addr < last
    · obtain ⟨v, hbegin, -, hvend, hboth⟩ := hcl.cut (by omega)
      have htail := hc.tail v (hboth endva le_rfl (by omega)).1 hbegin
      exact translate_of_leafAt huser hv (htail.2 u.addr hlo (by omega))
    · -- beyond the last area lies at most the end of a 2M leaf
      obtain hmax | ⟨r, hleaf, hrlo, hrhi, heq⟩ := hsw.stops
      · omega
      by_cases hr : r.val * SUPERPGSIZE < endva
      · have := hc.whole r hleaf (by omega) hr (by omega)
        omega
      obtain ⟨v, hbegin, -, hvend, hboth⟩ := hcl.cut (by omega)
      have htail := hc.tail v (hboth endva le_rfl (by omega)).1 hbegin
      have hsome := translate_of_leafAt huser hleaf
      exact hsome (htail.2 (r.val * SUPERPGSIZE) (not_lt.mp hr) (by omega))
  refine ⟨fun u hlo hhi => ?_, fun u hout => ?_, fun r hv hr => ?_⟩
  · by_cases hswept : u.addr < h'
    · exact hsw.swept.gone u hlo hswept
    · rw [hsw.swept.kept u (.inr (not_lt.mp hswept))]
      exact (hc.rest last hlt.le (by omega) (hcl.hole (by omega))).2 u (by omega) hhi
  · by_cases hswept : va ≤ u.addr ∧ u.addr < h'
    · rw [hsw.swept.gone u hswept.1 hswept.2, hbehind u (by omega) hswept.2]
    · exact hsw.swept.kept u (by omega)
  · by_cases hpos : va < endva
    · by_cases hmeet : va < r.val * SUPERPGSIZE + SUPERPGSIZE
      · exact (hc.whole r hv hpos hr hmeet).2
      · omega
    · have := hedge r hv (by omega)
      omega

theorem Clean.attrs_kept (hc : Clean pt mm va endva) (hcl : Cleared mm va endva mm' last) {a : Nat}
    (hout : a < va ∨ endva ≤ a) : attrs mm' a = attrs mm a := by
  by_cases hin : va ≤ a ∧ a < last
  · obtain ⟨v, hbegin, -, hvend, hboth⟩ := hcl.cut (by omega)
    obtain ⟨hold, hnew⟩ := hboth a (by omega) hin.2
    have hfile := (hc.tail v (hboth endva le_rfl (by omega)).1 hbegin).1
    rw [attrs, attrs, hold, hnew, Option.map_some, Option.map_some]
    by_cases htype : v.type = .VMA_FILE
    · simp only [htype, if_true, fileOffset, hfile htype]
    · simp only [htype, if_false]
  · rw [attrs, attrs, hcl.kept a (by omega)]

theorem Clean.unmapped (hc : Clean pt mm va endva) (huser : UserLeaves pt) (hvalid : pt.Valid) (hle : va ≤ endva)
    (hval : va % PGSIZE = 0) (heal : endva % PGSIZE = 0) (hedge : Edge pt va) (hcl : Cleared mm va endva mm' last)
    (hsw : SweptPast pt va last va ext k k' pt' h') : Unmapped k pt mm va endva k' pt' mm' := by
  have hswept := hc.swept huser hvalid hle hedge hcl hsw
  refine ⟨fun a hlo hhi => ⟨?_, ?_⟩, fun a hout => ⟨hc.attrs_kept hcl hout, ?_⟩⟩
  · by_cases hmax : a < MAXVA
    · exact translate_none (swept_in hvalid hc.whole hswept hval hlo hhi hmax)
    · exact translate_of_ge pt' (not_lt.mp hmax)
  · by_cases hlast : a < last
    · exact hcl.gone a hlo hhi hlast
    have hlt := hcl.lt
    have hhole := hcl.hole (by omega)
    rw [hcl.kept a (.inr (not_lt.mp hlast))]
    exact (hc.rest last hlt.le (by omega) hhole).1 a (not_lt.mp hlast) hhi
  · have htrans : translate pt' a = translate pt a := by
      by_cases hmax : a < MAXVA
      · exact translate_congr (swept_out hvalid hc.whole hswept hval heal hout hmax)
      · rw [translate_of_ge _ (not_lt.mp hmax), translate_of_ge _ (not_lt.mp hmax)]
    rw [view, view, htrans, hsw.mem]

end Clean

/-! ## When memory is short -/

theorem vmspace_unmap_shrinks (n : Nat) {k : Phys} {pt : PageTable} {mm : mm_struct} {va len : Nat}
    (hn : mm.head_vma.length ≤ n) (h : k.pool = []) :
    Ensures (vmspace_unmap k pt mm va len) Anyhow fun r => ShrinksTo pt r.1 r.2.1 := by
  induction n generalizing k pt mm va len with
  | zero =>
    rw [vmspace_unmap]
    split
    · exact .ok ⟨h, .refl pt⟩
    · next i hsome =>
      have hpos := List.length_pos_of_mem (mem_of_find hsome)
      omega
  | succ n ih =>
    have hunmap : ∀ start npages, Ensures (uvmunmap k pt start npages true true) Anyhow fun r => ShrinksTo pt r.1 r.2 :=
      fun start npages => uvmunmapWith_shrinks uvmalloc_front_shrinks start npages true true h
    rw [vmspace_unmap]
    split
    · exact .ok ⟨h, .refl pt⟩
    · next i hsome =>
      simp only
      split
      · exact .ok ⟨h, .refl pt⟩
      split
      · exact .bind (hunmap _ _) fun r hr => .ok hr
      refine .bind (hunmap _ _) fun r hr => ?_
      have hcount : (mm.head_vma.erase i).length ≤ n := by
        rw [List.length_erase_of_mem (mem_of_find hsome)]
        omega
      split
      · refine .bind (ih hcount hr.1) fun r' hr' => ?_
        exact .ok ⟨hr'.1, hr.2.trans hr'.2⟩
      · exact .ok hr

theorem found_of_returned {k k' : Phys} {pt pt' : PageTable} {mm mm' : mm_struct} {va len : Nat}
    (hret : vmspace_unmap k pt mm va len = .ok (k', pt', mm', 0)) :
    ∃ i, find_vma_for_va mm va = some i ∧ (mm.vmas i).startva = va := by
  rw [vmspace_unmap] at hret
  split at hret
  · cases hret
  · next i hsome =>
    simp only at hret
    split at hret
    · cases hret
    · next heq => exact ⟨i, hsome, (not_not.mp heq).symm⟩

/-- A 2M page that holds the first address of a call is not put back. -/
theorem dir_of_first_turn {k : Phys} {pt : PageTable} {va npages : Nat} {pte : Pte} (h : k.pool = [])
    (hmax : va < MAXVA) (hlt : va < add64 va (npages * PGSIZE % 2 ^ 64)) (hpos : 0 < npages)
    (hd : pt.dir (region va) = .leaf pte) (hv : pte.flags.has PTE_V = true) :
    Ensures (uvmunmap k pt va npages true true) Anyhow fun r => r.2.dir (region va) = .none := by
  obtain ⟨fuel, rfl⟩ : ∃ fuel, npages = fuel + 1 := ⟨npages - 1, by omega⟩
  have hwalk : walk pt va = .ok (.entry .SUPERPAGE pte) := by
    simp only [walk, if_neg hmax.not_ge, hd]
  unfold uvmunmap uvmunmapWith
  split
  · exact .error trivial
  unfold unmapLoop
  rw [if_pos hlt, hwalk]
  simp only [bind, Except.bind, hv, Bool.true_eq_false, if_false]
  split
  · exact .error trivial
  refine .bind (unmapLeaf_shrinks uvmalloc_front_shrinks _ va .SUPERPAGE pte h) fun r hr => ?_
  refine (unmapLoop_shrinks uvmalloc_front_shrinks _ _ _ hr.1).mono fun r' hr' => ?_
  refine hr'.2.none _ (hr.2.none _ ?_)
  simp [PageTable.set, PageTable.setEntry, hd]

section Converse

variable {k k' : Phys} {pt pt' : PageTable} {mm mm' : mm_struct} {va len endva last h' : Nat} {ext : Holders}

/-- An empty range at the start of an area takes the first page of the area. -/
theorem edge_of_unmapped (h : k.pool = []) (huser : UserLeaves pt) (hl : Layout mm)
    (hret : vmspace_unmap k pt mm va len = .ok (k', pt', mm', 0)) (hwhole : WholeLeaves pt va (va + PGROUNDUP len))
    (hu : Unmapped k pt mm va (va + PGROUNDUP len) k' pt' mm') : Edge pt va := by
  intro r hv hlt
  by_contra hin
  have hempty : PGROUNDUP len = 0 := by
    by_contra hpos
    have := hwhole r hv (by omega) (by omega) (by omega)
    omega
  obtain ⟨i, hfind, hstart⟩ := found_of_returned hret
  obtain ⟨hi, hlo, hhi⟩ := Vma.find_vma_spec hl hfind
  obtain ⟨-, hzal, hend⟩ := hl.placed i hi
  have hround : PGROUNDUP (mm.vmas i).size = (mm.vmas i).size := roundUp_of_aligned hzal (by omega)
  have hpages : (mm.vmas i).size / PGSIZE * PGSIZE = (mm.vmas i).size := by
    rw [pgsize_eq] at hzal ⊢
    omega
  have hpos : 0 < (mm.vmas i).size := by omega
  rw [superpgsize_eq] at hlt hin
  have hr := region_of_mem (r := r) (a := va) (by omega) (by omega)
  have hfst : va < add64 va ((mm.vmas i).size / PGSIZE * PGSIZE % 2 ^ 64) := by
    rw [hpages, add64]
    omega
  have hnpages : 0 < (mm.vmas i).size / PGSIZE := by
    rw [pgsize_eq] at hzal ⊢
    omega
  have hdir := dir_of_first_turn h hr.1 hfst hnpages (hr.2 ▸ dir_of_super hv) (hr.2 ▸ hv)
  -- the call is this one
  have hcall : Ensures (vmspace_unmap k pt mm va len) Anyhow fun r' => r'.2.1.dir r = .none := by
    rw [vmspace_unmap]
    split
    · next hnone =>
      rw [hfind] at hnone
      cases hnone
    · next i' hsome =>
      rw [hfind] at hsome
      cases hsome
      simp only [hstart, ne_eq, not_true_eq_false, if_false, hround, hempty, gt_iff_lt, hpos, if_true]
      refine .bind hdir fun r' hr' => .ok ?_
      rw [← hr.2]
      exact hr'
  have hnone := translate_of_dir_none hr.2 (hcall.of_ok hret)
  have hview := (hu.kept va (.inr (by omega))).2
  rw [← @translate_none_iff_view k', hview, translate_none_iff_view] at hnone
  exact translate_of_leaf hr (dir_of_super hv) hv (huser _ hv) hnone

theorem clean_of_unmapped (huser : UserLeaves pt) (hvalid : pt.Valid) (hl : Layout mm) (hval : va % PGSIZE = 0) (hle : va ≤ endva)
    (hedge : Edge pt va) (hwhole : WholeLeaves pt va endva) (hcl : Cleared mm va endva mm' last)
    (hsw : SweptPast pt va last va ext k k' pt' h') (hu : Unmapped k pt mm va endva k' pt' mm') :
    Clean pt mm va endva := by
  have hlt := hcl.lt
  have hpast := hsw.past
  have hrest : ∀ a, last ≤ a → a < endva → areaAt mm a = none := by
    intro a hlo hhi
    rw [← hcl.kept a (.inr hlo)]
    exact (hu.gone a (by omega) hhi).2
  have hbehind : ∀ a, va ≤ a → a < last → translate pt' a = none := by
    intro a hlo hhi
    by_cases hmax : a < MAXVA
    · exact translate_none (hsw.swept.behind hsw.held.2 hedge hlo (by omega) (.inl hval) hmax)
    · exact translate_of_ge pt' (not_lt.mp hmax)
  refine ⟨fun a hlo hhi hnone => ?_, fun v hv hbegin => ?_, hwhole⟩
  · have hlast : last ≤ a := by
      by_contra hin
      exact hcl.covered a hlo (by omega) hnone
    refine ⟨fun b hab hb => hrest b (hlast.trans hab) hb, fun u hau hu' => ?_⟩
    refine (leafAt_valid hvalid u).resolve_right fun hleaf => ?_
    by_cases hswept : u.addr < h'
    · -- the sweep ended inside a 2M leaf, where no other leaf begins
      obtain hmax | ⟨r, hsuper, hrlo, hrhi, heq⟩ := hsw.stops
      · omega
      · cases eq_super_of_mem hsuper hleaf (by omega) (by omega)
        have haddr : (Use.super r).addr = r.val * SUPERPGSIZE := rfl
        omega
    · have hkept := hsw.swept.kept u (.inr (not_lt.mp hswept))
      rw [← hkept] at hleaf
      exact translate_of_leafAt (hsw.swept.user huser) hleaf (hu.gone u.addr (by omega) hu').1
  · have hlast : endva < last := by
      by_contra hge
      obtain ⟨i, hi, hvi, hin⟩ := (Vma.areaAt_eq_some hcl.layout).mp ((hcl.kept endva (by omega)).trans hv)
      have hbounds := Vma.mem_span_iff.mp hin
      -- this area holds an address of the range too
      have hnone := (hu.gone (endva - 1) (by omega) (by omega)).2
      rw [Vma.areaAt_of_mem hcl.layout hi (by rw [hvi]; exact Vma.mem_span_iff.mpr ⟨by omega, by omega⟩)] at hnone
      cases hnone
    obtain ⟨v', -, hvle, hvend, hboth⟩ := hcl.cut hlast
    obtain ⟨hold, hnew⟩ := hboth endva le_rfl hlast
    rw [hv, Option.some_inj] at hold
    subst hold
    refine ⟨fun htype => ?_, fun a hlo hhi => ?_⟩
    · have hattrs := (hu.kept endva (.inr le_rfl)).1
      rw [attrs, attrs, hv, hnew, Option.map_some, Option.map_some] at hattrs
      simp only [htype, if_true, Option.some.injEq, Prod.mk.injEq, true_and, fileOffset, sub64] at hattrs
      obtain ⟨i, hi, hvi, -⟩ := (Vma.areaAt_eq_some hl).mp hv
      have hbound := (hl.placed i hi).end_lt
      rw [hvi] at hbound
      omega
    · have hview := (hu.kept a (.inr hlo)).2
      have hnone := hbehind a (by omega) (by omega)
      rw [← @translate_none_iff_view k', hview, translate_none_iff_view] at hnone
      exact hnone

end Converse

/-- **`vmspace_unmap` on areas, pages and files.**  Whatever the frames hold and the allocator finds, every call that
returns 0 removes exactly the range, if and only if nothing of the range lies behind a hole, the area that reaches
past the range has no page there and is not a mapped file cut in two, and no 2M page sticks out of the range.  That
the call returns when memory is short is all that is asked of it. -/
theorem vmspace_unmap_exact_iff {k : Phys} {pt : PageTable} {mm : mm_struct} {ext : Holders} (h : Held k pt ext)
    (huser : UserLeaves pt) (hl : Layout mm) {va len : Nat}
    (hret : ∃ k' pt' mm', vmspace_unmap { k with pool := [] } pt mm va len = .ok (k', pt', mm', 0)) :
    (∀ mem pool k' pt' mm',
      vmspace_unmap { k with mem := mem, pool := pool } pt mm va len = .ok (k', pt', mm', 0) →
        Unmapped { k with mem := mem, pool := pool } pt mm va (va + PGROUNDUP len) k' pt' mm') ↔
      Clean pt mm va (va + PGROUNDUP len) := by
  obtain ⟨k₀, pt₀, mm₀, hret⟩ := hret
  obtain ⟨i, hfind, hstart⟩ := found_of_returned hret
  obtain ⟨hi, hlo, hhi⟩ := Vma.find_vma_spec hl hfind
  have hval : va % PGSIZE = 0 := hstart ▸ (hl.placed i hi).start_aligned
  have heal : (va + PGROUNDUP len) % PGSIZE = 0 := by
    have := Vma.roundUp_aligned len
    rw [pgsize_eq] at *
    omega
  have hheld : ∀ mem pool, Held { k with mem := mem, pool := pool } pt ext := fun mem pool =>
    ⟨h.1.congr rfl rfl rfl, h.2⟩
  -- once no 2M page holds `va` in the middle, a call is a sweep
  have hdone : ∀ mem pool k' pt' mm', Edge pt va →
      vmspace_unmap { k with mem := mem, pool := pool } pt mm va len = .ok (k', pt', mm', 0) →
        Done pt va ext { k with mem := mem, pool := pool } mm va (va + PGROUNDUP len) va (k', pt', mm', 0) := by
    intro mem pool k' pt' mm' hedge hret'
    have hswept : Swept pt va va pt := ⟨fun u hlo hhi => by omega, fun u _ => rfl, hedge⟩
    exact (vmspace_unmap_done huser hedge _ rfl hl hfind hstart le_rfl le_rfl hval (hheld mem pool)
      hswept).of_ok hret'
  constructor
  · intro hexact
    have hu := hexact k.mem [] k₀ pt₀ mm₀ hret
    have hshrunk := (vmspace_unmap_shrinks mm.head_vma.length le_rfl rfl).of_ok hret
    have hwhole : WholeLeaves pt va (va + PGROUNDUP len) := by
      refine whole_of_shrunk huser hshrunk.2 (fun a hlo hhi => (hu.gone a hlo hhi).1) fun a hout hnone => ?_
      rw [← @translate_none_iff_view k₀, (hu.kept a hout).2, translate_none_iff_view] at hnone
      exact hnone
    have hedge : Edge pt va := edge_of_unmapped rfl huser hl hret hwhole hu
    obtain ⟨-, last, h', hcl, hsw⟩ := hdone k.mem [] k₀ pt₀ mm₀ hedge hret
    exact clean_of_unmapped huser h.2 hl hval le_self_add hedge hwhole hcl hsw hu
  · intro hclean mem pool k' pt' mm' hret'
    have harea : areaAt mm va = some (mm.vmas i) := Vma.areaAt_of_mem hl hi (Vma.mem_span_iff.mpr ⟨hlo, hhi⟩)
    have hedge : Edge pt va := hclean.edge huser le_self_add harea hhi
    obtain ⟨-, last, h', hcl, hsw⟩ := hdone mem pool k' pt' mm' hedge hret'
    exact hclean.unmapped huser h.2 le_self_add hval heal hedge hcl hsw

namespace System

/-- Two areas over one 2M page: both go. -/
theorem vmspace_unmap_exact_iff_two_areas : ∃ sys, Step (booted [some 512, some 1, some 2, some 3])
      (.uvmalloc 0 0x400000 0x600000 PTE_W) sys ∧
    ∃ k' pt' mm',
      let mm := Vma.areasOf [⟨.VMA_ANON, 0x400000, 0x100000, 3, 0, none⟩, ⟨.VMA_ANON, 0x500000, 0x100000, 3, 0, none⟩]
      vmspace_unmap { sys.phys with mem := fun _ _ => 1, pool := [] } (sys.tables 0) mm 0x400000 0x1fff01 =
          .ok (k', pt', mm', 0) ∧
        Unmapped { sys.phys with mem := fun _ _ => 1, pool := [] } (sys.tables 0) mm 0x400000 0x600000 k' pt' mm' := by
  have hsome : ((allocated 0 [some 512, some 1, some 2, some 3] 0x400000 0x600000 PTE_W).map fun sys =>
      (vmspace_unmap { sys.phys with mem := fun _ _ => 1, pool := [] } (sys.tables 0)
        (Vma.areasOf [⟨.VMA_ANON, 0x400000, 0x100000, 3, 0, none⟩, ⟨.VMA_ANON, 0x500000, 0x100000, 3, 0, none⟩])
        0x400000 0x1fff01).toOption.map fun r => r.2.2.2) = some (some 0) := by
    decide +kernel
  obtain ⟨sys, hsys, hret⟩ := Option.map_eq_some_iff.mp hsome
  obtain ⟨⟨k', pt', mm', r⟩, hr, rfl⟩ := Option.map_eq_some_iff.mp hret
  have hok := ok_of_toOption hr
  obtain ⟨hstep, huser⟩ := step_of_allocated (by decide) hsys
  have hinv := inv_of_run ⟨fun _ => rfl, fun _ => rfl, fun _ => rfl, fun _ => rfl⟩ (.cons hstep (.nil _))
  have hheld : Held { sys.phys with mem := fun _ _ => 1 } (sys.tables 0) _ :=
    ⟨(hinv.held 0).1.congr rfl rfl rfl, (hinv.held 0).2⟩
  have hl : Layout (Vma.areasOf [⟨.VMA_ANON, 0x400000, 0x100000, 3, 0, none⟩,
      ⟨.VMA_ANON, 0x500000, 0x100000, 3, 0, none⟩]) := by
    refine Vma.areasOf_layout ?_ ?_
    · intro v hv
      simp only [List.mem_cons, List.not_mem_nil, or_false] at hv
      obtain rfl | rfl := hv <;> exact ⟨by decide, by decide, by decide⟩
    · simp only [List.pairwise_cons, List.mem_cons, List.not_mem_nil, or_false, forall_eq, List.Pairwise.nil, and_true,
        IsEmpty.forall_iff, implies_true, Vma.span_disjoint_iff]
      omega
  refine ⟨sys, hstep, k', pt', mm', hok, ?_⟩
  have hrange : 0x400000 + PGROUNDUP 0x1fff01 = 0x600000 := by decide
  have hexact := vmspace_unmap_exact_iff hheld huser hl ⟨k', pt', mm', hok⟩
  rw [hrange] at hexact
  refine hexact.mpr ⟨fun a hlo hhi hnone => ?_, fun v hv _ => ?_, fun r _ _ hlo hhi => ?_⟩ (fun _ _ => 1) [] k' pt' mm' hok
  · exfalso
    by_cases hfst : a < 0x500000
    · have hfirst := (Vma.areaAt_areasOf hl).mpr ⟨List.mem_cons_self, Vma.mem_span_iff.mpr ⟨hlo, hfst⟩⟩
      rw [hnone] at hfirst
      cases hfirst
    have hsecond := (Vma.areaAt_areasOf hl).mpr
      ⟨List.mem_cons_of_mem _ List.mem_cons_self, Vma.mem_span_iff.mpr ⟨not_lt.mp hfst, hhi⟩⟩
    rw [hnone] at hsecond
    cases hsecond
  · exfalso
    obtain ⟨hmem, hin⟩ := (Vma.areaAt_areasOf hl).mp hv
    have hbounds := Vma.mem_span_iff.mp hin
    simp only [List.mem_cons, List.not_mem_nil, or_false] at hmem
    obtain rfl | rfl := hmem
    · simp at hbounds
    · simp at hbounds
  · simp only [superpgsize_eq] at hlo hhi ⊢
    omega

/-- The second page of an area goes with the first. -/
theorem second_page_is_lost : ∃ sys, Step (booted [some 1, some 2, some 3, some 4])
      (.uvmalloc 0 0x400000 0x402000 PTE_W) sys ∧
    ∃ k' pt' mm',
      let mm := Vma.areasOf [⟨.VMA_ANON, 0x400000, 0x2000, 3, 0, none⟩]
      vmspace_unmap { sys.phys with mem := fun _ _ => 1 } (sys.tables 0) mm 0x400000 0x1000 = .ok (k', pt', mm', 0) ∧
        ¬ Unmapped { sys.phys with mem := fun _ _ => 1 } (sys.tables 0) mm 0x400000 0x401000 k' pt' mm' := by
  have hsome : ((allocated 0 [some 1, some 2, some 3, some 4] 0x400000 0x402000 PTE_W).map fun sys =>
      (view { sys.phys with mem := fun _ _ => 1 } (sys.tables 0) 0x401000,
        (vmspace_unmap { sys.phys with mem := fun _ _ => 1 } (sys.tables 0)
          (Vma.areasOf [⟨.VMA_ANON, 0x400000, 0x2000, 3, 0, none⟩]) 0x400000 0x1000).toOption.map
            fun r => (r.2.2.2, view r.1 r.2.1 0x401000))) = some (some (0x17, 1), some (0, none)) := by
    decide +kernel
  obtain ⟨sys, hsys, hviews⟩ := Option.map_eq_some_iff.mp hsome
  rw [Prod.mk.injEq] at hviews
  obtain ⟨hbefore, hcall⟩ := hviews
  obtain ⟨⟨k', pt', mm', r⟩, hr, hafter⟩ := Option.map_eq_some_iff.mp hcall
  rw [Prod.mk.injEq] at hafter
  obtain ⟨rfl, hafter⟩ := hafter
  refine ⟨sys, (step_of_allocated (by decide) hsys).1, k', pt', mm', ok_of_toOption hr, fun hu => ?_⟩
  have hsame := (hu.kept 0x401000 (.inr le_rfl)).2
  rw [hbefore, hafter] at hsame
  cases hsame

end System

end LostWakeup.Mm.Vm
