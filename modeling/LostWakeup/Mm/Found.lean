/-
# LostWakeup.Mm.Found — the pages of a page table, and the addresses that a loop of `uvmalloc` comes to.
-/
import LostWakeup.Mm.Munmap
import LostWakeup.Mm.SharedFork

namespace LostWakeup.Mm.Vm

open Library
open Mm.Vma (PGSIZE SUPERPGSIZE PGROUNDUP SUPERPG_ROUNDUP vma)

/-- A page is mapped at the address. -/
def Mapped (pt : PageTable) (a : Nat) : Prop :=
  ∃ level pte, walk pt a = .ok (.entry level pte) ∧ pte.flags.has PTE_V = true

theorem mapped_iff {pt : PageTable} {a : Nat} : Mapped pt a ↔ a < MAXVA ∧ FoundAt pt a := by
  constructor
  · rintro ⟨level, pte, hwalk, hv⟩
    exact ⟨(dir_of_walk hwalk).1, level, by rw [leafAt_of_walk hwalk, hv]⟩
  rintro ⟨hmax, level, hv⟩
  have hne : pt.leafAt (place a level) ≠ Pte.zero := by
    intro hzero
    rw [hzero] at hv
    cases hv
  exact ⟨level, _, walk_of_leafAt hmax hne, hv⟩

theorem Mapped.of_leafAt {pt pt' : PageTable} {a : Nat}
    (h : ∀ level, (pt.leafAt (place a level)).flags.has PTE_V = true → (pt'.leafAt (place a level)).flags.has PTE_V = true)
    (hm : Mapped pt a) : Mapped pt' a := by
  rw [mapped_iff] at hm ⊢
  rcases hm with ⟨hmax, level, hv⟩
  exact ⟨hmax, level, h level hv⟩

theorem edge_of_free {pt : PageTable} {a : Nat} (hmax : a < MAXVA) (h : ¬ FoundAt pt a) : Edge pt a := by
  intro r hv hlt
  apply Nat.le_of_not_lt
  intro hin
  have hr : r = region a := by
    apply Fin.ext
    rw [region_val hmax]
    rw [superpgsize_eq] at hlt hin
    omega
  exact h ⟨.SUPERPAGE, by rw [place, ← hr]; exact hv⟩

/-! ## The turns of a loop -/

theorem mapOne_lt (k : Phys) (pt : PageTable) (a pfn : Nat) (perm : Flags) (level : Level) :
    Ensures (mapOne k pt a pfn perm level) Anyhow fun _ => a < MAXVA := by
  cases h : mapOne k pt a pfn perm level with
  | error e => exact .error trivial
  | ok r =>
    refine .ok (Nat.lt_of_not_le fun hge => ?_)
    rw [mapOne, if_pos hge] at h
    cases h

theorem addrs_head (start stop : Nat) {step : Nat} (hstep : 0 < step) :
    start < stop ∧ (addrs start stop step).head? = some start ∨ stop ≤ start ∧ addrs start stop step = [] := by
  rcases lt_or_ge start stop with hlt | hge
  · left
    obtain ⟨n, hn⟩ : ∃ n, (stop - start + (step - 1)) / step = n + 1 := by
      have hpos : 0 < (stop - start + (step - 1)) / step := Nat.div_pos (by omega) hstep
      exact ⟨_, (Nat.succ_pred_eq_of_pos hpos).symm⟩
    refine ⟨hlt, ?_⟩
    rw [addrs, hn, List.range_succ_eq_map]
    rfl
  · right
    have hzero : (stop - start + (step - 1)) / step = 0 := Nat.div_eq_of_lt (by omega)
    refine ⟨hge, ?_⟩
    rw [addrs, hzero]
    rfl

end LostWakeup.Mm.Vm
