/-
# LostWakeup.Mm.Areas — which area an address lies in.

`find_vma_for_va` takes the first area of the list that holds the address.  In an address space whose
areas are in order there is at most one, so what an operation does to the areas can be said address by
address.
-/
import LostWakeup.Mm.VmaLayout

namespace LostWakeup.Mm.Vma

open Library
open Function (update_of_ne update_self)

/-- The area at an address. -/
def areaAt (mm : mm_struct) (a : Nat) : Option vma := (find_vma_for_va mm a).map mm.vmas

section

variable {mm mm' : mm_struct} {a i : Nat} {v : vma}

theorem mem_span_iff : a ∈ v.span ↔ v.startva ≤ a ∧ a < v.startva + v.size := Set.mem_Ico

/-- The areas are apart and do not wrap, wherever they begin and end. -/
structure Apart (mm : mm_struct) : Prop where
  nodup : mm.head_vma.Nodup
  in_use : ∀ i ∈ mm.head_vma, mm.used i = true
  end_lt : ∀ i ∈ mm.head_vma, (mm.vmas i).startva + (mm.vmas i).size < 2 ^ 64
  disjoint : {i | i ∈ mm.head_vma}.PairwiseDisjoint fun i => (mm.vmas i).span

theorem Layout.apart (hl : Layout mm) : Apart mm :=
  ⟨hl.nodup, hl.in_use, fun i hi => (hl.placed i hi).end_lt, hl.disjoint⟩

theorem candidate_iff_span (hend : v.startva + v.size < 2 ^ 64) : candidate v a = true ↔ a ∈ v.span := by
  have hadd : add64 v.startva v.size = v.startva + v.size := Nat.mod_eq_of_lt hend
  rw [candidate, hadd, mem_span_iff, Bool.and_eq_true, decide_eq_true_eq, decide_eq_true_eq]

namespace Apart

theorem find_spec (h : Apart mm) (hfind : find_vma_for_va mm a = some i) : i ∈ mm.head_vma ∧ a ∈ (mm.vmas i).span := by
  have hi := mem_of_find hfind
  unfold find_vma_for_va at hfind
  have hcand := List.find?_some hfind
  exact ⟨hi, (candidate_iff_span (h.end_lt i hi)).mp hcand⟩

theorem find_of_mem (h : Apart mm) (hi : i ∈ mm.head_vma) (ha : a ∈ (mm.vmas i).span) :
    find_vma_for_va mm a = some i := by
  have hcand : candidate (mm.vmas i) a = true := (candidate_iff_span (h.end_lt i hi)).mpr ha
  cases hfind : find_vma_for_va mm a with
  | none =>
    have hnone := List.find?_eq_none.mp hfind i hi
    exact absurd hcand hnone
  | some j =>
    obtain ⟨hj, haj⟩ := h.find_spec hfind
    rw [h.disjoint.elim_set hi hj a ha haj]

theorem areaAt_of_mem (h : Apart mm) (hi : i ∈ mm.head_vma) (ha : a ∈ (mm.vmas i).span) :
    areaAt mm a = some (mm.vmas i) := by
  rw [areaAt, h.find_of_mem hi ha]
  rfl

theorem areaAt_eq_some (h : Apart mm) : areaAt mm a = some v ↔ ∃ i ∈ mm.head_vma, mm.vmas i = v ∧ a ∈ v.span := by
  constructor
  · intro hat
    obtain ⟨i, hfind, rfl⟩ := Option.map_eq_some_iff.mp hat
    obtain ⟨hi, ha⟩ := h.find_spec hfind
    exact ⟨i, hi, rfl, ha⟩
  · rintro ⟨i, hi, rfl, ha⟩
    exact h.areaAt_of_mem hi ha

theorem areaAt_eq_none (h : Apart mm) : areaAt mm a = none ↔ ∀ i ∈ mm.head_vma, a ∉ (mm.vmas i).span := by
  constructor
  · intro hnone i hi ha
    rw [h.areaAt_of_mem hi ha] at hnone
    cases hnone
  intro hall
  apply Option.eq_none_iff_forall_ne_some.mpr
  intro v hat
  obtain ⟨i, hi, rfl, ha⟩ := h.areaAt_eq_some.mp hat
  exact hall i hi ha

end Apart

theorem areaAt_of_mem (hl : Layout mm) (hi : i ∈ mm.head_vma) (ha : a ∈ (mm.vmas i).span) :
    areaAt mm a = some (mm.vmas i) := hl.apart.areaAt_of_mem hi ha

theorem areaAt_eq_some (hl : Layout mm) : areaAt mm a = some v ↔ ∃ i ∈ mm.head_vma, mm.vmas i = v ∧ a ∈ v.span :=
  hl.apart.areaAt_eq_some

theorem areaAt_eq_none (hl : Layout mm) : areaAt mm a = none ↔ ∀ i ∈ mm.head_vma, a ∉ (mm.vmas i).span :=
  hl.apart.areaAt_eq_none

theorem areaAt_congr (hl : Layout mm) (hl' : Layout mm')
    (h : ∀ v, (∃ i ∈ mm'.head_vma, mm'.vmas i = v ∧ a ∈ v.span) ↔ ∃ i ∈ mm.head_vma, mm.vmas i = v ∧ a ∈ v.span) :
    areaAt mm' a = areaAt mm a := by
  apply Option.ext
  intro v
  rw [areaAt_eq_some hl, areaAt_eq_some hl']
  exact h v

theorem span_ne (hl : Layout mm) (hi : i ∈ mm.head_vma) (ha : a ∈ (mm.vmas i).span) {j : Nat}
    (hj : j ∈ mm.head_vma) (hji : j ≠ i) : a ∉ (mm.vmas j).span :=
  fun haj => hji (hl.disjoint.elim_set hj hi a haj ha)

/-! ## Removal -/

theorem areaAt_delete_in (hl : Layout mm) (hi : i ∈ mm.head_vma) (ha : a ∈ (mm.vmas i).span) :
    areaAt (free_vma { mm with head_vma := mm.head_vma.erase i } i) a = none := by
  rw [areaAt_eq_none (hl.delete i)]
  intro j hj
  have hji : j ≠ i := by
    rintro rfl
    exact hl.nodup.not_mem_erase hj
  exact span_ne hl hi ha (List.mem_of_mem_erase hj) hji

theorem areaAt_delete_out (hl : Layout mm) (ha : a ∉ (mm.vmas i).span) :
    areaAt (free_vma { mm with head_vma := mm.head_vma.erase i } i) a = areaAt mm a := by
  refine areaAt_congr hl (hl.delete i) fun v => ⟨?_, ?_⟩
  · rintro ⟨j, hj, hv, hav⟩
    exact ⟨j, List.mem_of_mem_erase hj, hv, hav⟩
  rintro ⟨j, hj, rfl, hav⟩
  have hji : j ≠ i := by
    rintro rfl
    exact ha hav
  exact ⟨j, (List.mem_erase_of_ne hji).mpr hj, rfl, hav⟩

/-! ## New bounds -/

theorem areaAt_set_in (hl' : Layout (mm.set i v)) (hi : i ∈ mm.head_vma) (ha : a ∈ v.span) :
    areaAt (mm.set i v) a = some v := by
  have hself : (mm.set i v).vmas i = v := update_self _ _ _
  have hin : a ∈ ((mm.set i v).vmas i).span := by rw [hself]; exact ha
  have hat := areaAt_of_mem (i := i) hl' hi hin
  rw [hself] at hat
  exact hat

theorem areaAt_set_old (hl : Layout mm) (hl' : Layout (mm.set i v)) (hi : i ∈ mm.head_vma)
    (ha : a ∈ (mm.vmas i).span) (hout : a ∉ v.span) : areaAt (mm.set i v) a = none := by
  rw [areaAt_eq_none hl']
  intro j hj
  by_cases hji : j = i
  · subst hji
    rw [show (mm.set j v).vmas j = v from update_self _ _ _]
    exact hout
  · rw [show (mm.set i v).vmas j = mm.vmas j from update_of_ne hji _ _]
    exact span_ne hl hi ha hj hji

theorem areaAt_set_out (hl : Layout mm) (hl' : Layout (mm.set i v)) (hold : a ∉ (mm.vmas i).span)
    (hout : a ∉ v.span) : areaAt (mm.set i v) a = areaAt mm a := by
  refine areaAt_congr hl hl' fun w => ⟨?_, ?_⟩
  · rintro ⟨j, hj, rfl, haw⟩
    by_cases hji : j = i
    · subst hji
      rw [show (mm.set j v).vmas j = v from update_self _ _ _] at haw
      exact absurd haw hout
    · rw [show (mm.set i v).vmas j = mm.vmas j from update_of_ne hji _ _] at haw ⊢
      exact ⟨j, hj, rfl, haw⟩
  · rintro ⟨j, hj, rfl, haw⟩
    have hji : j ≠ i := by
      rintro rfl
      exact hold haw
    have hself : (mm.set i v).vmas j = mm.vmas j := update_of_ne hji _ _
    exact ⟨j, hj, hself, haw⟩

end

/-! ## An address space from its areas -/

def areasOf (areas : List vma) : mm_struct :=
  ⟨fun i => areas.getD i ⟨.VMA_ANON, 0, 0, 0, 0, none⟩, fun i => i < areas.length, List.range areas.length, 0, 0, none⟩

theorem areasOf_layout {areas : List vma} (hplaced : ∀ v ∈ areas, v.Placed)
    (hdis : areas.Pairwise fun v w => Disjoint v.span w.span) : Layout (areasOf areas) := by
  have hget : ∀ i (hi : i < areas.length), (areasOf areas).vmas i = areas[i] := fun i hi => by
    simp [areasOf, hi]
  refine ⟨List.nodup_range, fun i hi => ?_, fun i hi => ?_, fun i hi j hj hij => ?_, rfl, le_rfl, ?_⟩
  · simpa [areasOf] using hi
  · have hlt : i < areas.length := List.mem_range.mp hi
    rw [hget i hlt]
    exact hplaced _ (List.getElem_mem hlt)
  · have hilt : i < areas.length := List.mem_range.mp hi
    have hjlt : j < areas.length := List.mem_range.mp hj
    have hpair := List.pairwise_iff_getElem.mp hdis
    show Disjoint ((areasOf areas).vmas i).span ((areasOf areas).vmas j).span
    rw [hget i hilt, hget j hjlt]
    obtain hlt | hgt := Nat.lt_or_gt_of_ne hij
    · exact hpair i j hilt hjlt hlt
    · exact (hpair j i hjlt hilt hgt).symm
  · show 0 < 2 ^ 64
    decide

theorem areaAt_areasOf {areas : List vma} (hl : Layout (areasOf areas)) {a : Nat} {v : vma} :
    areaAt (areasOf areas) a = some v ↔ v ∈ areas ∧ a ∈ v.span := by
  rw [areaAt_eq_some hl]
  constructor
  · rintro ⟨i, hi, rfl, ha⟩
    have hlt : i < areas.length := List.mem_range.mp hi
    refine ⟨?_, ha⟩
    simp [areasOf, hlt]
  · rintro ⟨hv, ha⟩
    obtain ⟨i, hi, rfl⟩ := List.getElem_of_mem hv
    exact ⟨i, List.mem_range.mpr hi, by simp [areasOf, hi], ha⟩

end LostWakeup.Mm.Vma
