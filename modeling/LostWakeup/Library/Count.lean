/-
# LostWakeup.Library.Count — sums and counts over the points of a finite type.

`total g f` adds up `g (f x)` over all `x`, and `count p f` is the number of `x` with `p (f x)`.  The one
rule that proofs about state machines need is how they move when `f` changes at a single point.

`total` is a `finsum`: types here can have very many points, and this sum never starts to evaluate.
-/
import Mathlib.Algebra.BigOperators.Finprod
import Mathlib.Algebra.BigOperators.Group.Finset.Piecewise
import Mathlib.Algebra.Order.BigOperators.Group.Finset
import Mathlib.Data.Fintype.BigOperators

namespace LostWakeup.Library

open Function (update update_of_ne update_self)
open Finset (mem_univ sum_congr sum_eq_zero)

variable {α β : Type*} [Fintype α]

/-- The sum of `g (f x)` over all points `x`. -/
noncomputable def total (g : β → Nat) (f : α → β) : Nat := ∑ᶠ x, g (f x)

theorem total_eq_sum (g : β → Nat) (f : α → β) : total g f = ∑ x, g (f x) :=
  finsum_eq_sum_of_fintype _

/-- The number of points `x` with `p (f x)`. -/
def count (p : β → Bool) (f : α → β) : Nat := ∑ x, (p (f x)).toNat

theorem total_eq_zero {g : β → Nat} {f : α → β} (h : ∀ x, g (f x) = 0) : total g f = 0 := by
  rw [total_eq_sum]
  exact sum_eq_zero fun x _ => h x

theorem total_eq_single {g : β → Nat} {f : α → β} (a : α) (h : ∀ x, x ≠ a → g (f x) = 0) : total g f = g (f a) := by
  rw [total_eq_sum]
  exact Finset.sum_eq_single a (fun x _ hx => h x hx) fun ha => absurd (mem_univ a) ha

theorem le_total (g : β → Nat) (f : α → β) (x : α) : g (f x) ≤ total g f := by
  rw [total_eq_sum]
  exact Finset.single_le_sum (f := fun x => g (f x)) (fun _ _ => Nat.zero_le _) (mem_univ x)

theorem exists_of_total_pos {g : β → Nat} {f : α → β} (h : 0 < total g f) : ∃ x, 0 < g (f x) := by
  by_contra hnone
  push Not at hnone
  have hzero : total g f = 0 := total_eq_zero fun x => Nat.le_zero.mp (hnone x)
  omega

variable [DecidableEq α]

theorem total_update (g : β → Nat) (f : α → β) (a : α) (b : β) :
    total g (update f a b) + g (f a) = total g f + g b := by
  have hupd : (fun x => g (update f a b x)) = update (fun x => g (f x)) a (g b) := by
    funext x
    by_cases hx : x = a
    · subst hx
      simp
    · simp [update_of_ne hx]
  have hnew : total g (update f a b) = g b + ∑ x ∈ Finset.univ \ {a}, g (f x) := by
    rw [total_eq_sum, hupd, Finset.sum_update_of_mem (mem_univ a)]
  have hold : total g f = g (f a) + ∑ x ∈ Finset.univ \ {a}, g (f x) := by
    rw [total_eq_sum, ← Finset.add_sum_erase Finset.univ _ (mem_univ a), Finset.sdiff_singleton_eq_erase]
  omega

theorem count_update (p : β → Bool) (f : α → β) (a : α) (b : β) :
    count p (update f a b) + (p (f a)).toNat = count p f + (p b).toNat := by
  have hupd := total_update (fun b => (p b).toNat) f a b
  rw [total_eq_sum, total_eq_sum] at hupd
  exact hupd

omit [DecidableEq α] in
theorem exists_of_count_pos {p : β → Bool} {f : α → β} (h : 0 < count p f) :
    ∃ x, p (f x) = true := by
  by_contra hnone
  push Not at hnone
  have hzero : count p f = 0 := sum_eq_zero fun x _ => by simp [hnone x]
  omega

omit [DecidableEq α] in
theorem count_pos_of {p : β → Bool} {f : α → β} {x : α} (hx : p (f x) = true) : 0 < count p f := by
  have hle : (p (f x)).toNat ≤ count p f :=
    Finset.single_le_sum (f := fun x => (p (f x)).toNat) (fun _ _ => Nat.zero_le _) (mem_univ x)
  rw [hx] at hle
  exact hle

theorem length_le_count {p : β → Bool} {f : α → β} {l : List α} (hnodup : l.Nodup) (h : ∀ x ∈ l, p (f x) = true) :
    l.length ≤ count p f := by
  have hsum : l.length = ∑ x ∈ l.toFinset, (p (f x)).toNat := by
    rw [← List.toFinset_card_of_nodup hnodup, Finset.card_eq_sum_ones]
    exact sum_congr rfl fun x hx => by rw [h x (List.mem_toFinset.mp hx)]; rfl
  rw [hsum]
  exact Finset.sum_le_univ_sum_of_nonneg fun _ => Nat.zero_le _

omit [DecidableEq α] in
theorem count_le_card (p : β → Bool) (f : α → β) : count p f ≤ Fintype.card α := by
  have hle : count p f ≤ ∑ _x : α, 1 := Finset.sum_le_sum fun x _ => Bool.toNat_le _
  simpa using hle

omit [DecidableEq α] in
theorem count_eq_zero {p : β → Bool} {f : α → β} (h : ∀ x, p (f x) = false) : count p f = 0 :=
  sum_eq_zero fun x _ => by simp [h x]

omit [DecidableEq α] in
theorem count_add {p q r : β → Bool} {f : α → β}
    (h : ∀ b, (r b).toNat = (p b).toNat + (q b).toNat) : count r f = count p f + count q f := by
  unfold count
  rw [← Finset.sum_add_distrib]
  exact sum_congr rfl fun x _ => h (f x)

/-! ## Sums over an initial segment -/

theorem sum_range_update {γ M : Type*} [AddCommMonoid M] (g : γ → M) (f : Nat → γ) {n i : Nat} (hi : i < n) (b : γ) :
    ∑ j ∈ Finset.range n, g (update f i b j) + g (f i) = ∑ j ∈ Finset.range n, g (f j) + g b := by
  have hmem := Finset.mem_range.mpr hi
  have hrest : ∑ j ∈ (Finset.range n).erase i, g (update f i b j) = ∑ j ∈ (Finset.range n).erase i, g (f j) := by
    apply sum_congr rfl
    intro j hj
    rw [update_of_ne (Finset.ne_of_mem_erase hj)]
  rw [← Finset.add_sum_erase _ (fun j => g (update f i b j)) hmem,
    ← Finset.add_sum_erase _ (fun j => g (f j)) hmem, hrest, update_self,
    add_right_comm, add_comm (g b), add_right_comm]

end LostWakeup.Library
