/-
# LostWakeup.Library.Dyadic — tilings of an interval by aligned power-of-two blocks.

`Tiles n h` says that the blocks `[p, p + 2^k)` with `h p = some k` tile `[0, n)`, each aligned to its own size.  The
*buddy* of such a block is `p ^^^ 2^k`.  Splitting a block and merging two buddies keep a tiling, and the buddy of a block
is the head of a block that is at most as large.  In a merged tiling the marked blocks are those of the pages they cover.
-/
import Mathlib.Data.Nat.Bitwise
import Mathlib.Logic.Function.Basic
import Mathlib.Tactic.Ring

namespace LostWakeup.Library.Dyadic

open Function (update update_of_ne update_self)

/-! ## Buddies -/

/-- The buddy of an aligned block is its right neighbour, or its left one. -/
theorem xor_two_pow_cases {p k : Nat} (h : 2 ^ k ∣ p) :
    (2 ^ (k + 1) ∣ p ∧ p ^^^ 2 ^ k = p + 2 ^ k) ∨
      (2 ^ k ≤ p ∧ 2 ^ (k + 1) ∣ p - 2 ^ k ∧ p ^^^ 2 ^ k = p - 2 ^ k) := by
  obtain ⟨m, rfl⟩ := h
  have hxor : (2 ^ k * m) ^^^ 2 ^ k = 2 ^ k * (m ^^^ 1) := by
    have hshift := Nat.shiftLeft_xor_distrib (i := k) (a := m) (b := 1)
    simp only [Nat.shiftLeft_eq, Nat.one_mul] at hshift
    rw [Nat.mul_comm (2 ^ k) m, ← hshift, Nat.mul_comm]
  rw [hxor]
  rcases Nat.even_or_odd m with heven | hodd
  · left
    obtain ⟨c, rfl⟩ := heven
    refine ⟨⟨c, by ring⟩, ?_⟩
    rw [Nat.xor_one_of_even ⟨c, rfl⟩]
    ring
  · right
    obtain ⟨c, rfl⟩ := hodd
    have hsub : 2 ^ k * (2 * c + 1) - 2 ^ k = 2 ^ k * (2 * c) := by
      rw [Nat.mul_add, Nat.mul_one, Nat.add_sub_cancel]
    refine ⟨Nat.le_mul_of_pos_right _ (by omega), ⟨c, by rw [hsub]; ring⟩, ?_⟩
    rw [Nat.xor_one_of_odd ⟨c, rfl⟩, hsub, Nat.add_sub_cancel]

theorem xor_two_pow_of_dvd {p k : Nat} (h : 2 ^ (k + 1) ∣ p) : p ^^^ 2 ^ k = p + 2 ^ k := by
  rcases xor_two_pow_cases ((pow_dvd_pow 2 (Nat.le_succ k)).trans h) with ⟨-, heq⟩ | ⟨hge, hd, -⟩
  · exact heq
  exfalso
  have hdvd : 2 ^ (k + 1) ∣ 2 ^ k := by
    have := Nat.dvd_sub h hd
    rwa [Nat.sub_sub_self hge] at this
  have hle := Nat.le_of_dvd (Nat.two_pow_pos k) hdvd
  have hpow : 2 ^ (k + 1) = 2 ^ k + 2 ^ k := by ring
  have hpos := Nat.two_pow_pos k
  omega

theorem dvd_xor_two_pow {p k : Nat} (h : 2 ^ k ∣ p) : 2 ^ k ∣ p ^^^ 2 ^ k := by
  have hdvd : 2 ^ k ∣ 2 ^ (k + 1) := pow_dvd_pow 2 (Nat.le_succ k)
  rcases xor_two_pow_cases h with ⟨-, heq⟩ | ⟨-, hd, heq⟩
  · rw [heq]
    exact Nat.dvd_add h (dvd_refl _)
  · rw [heq]
    exact hdvd.trans hd

theorem xor_two_pow_xor (p k : Nat) : p ^^^ 2 ^ k ^^^ 2 ^ k = p := by
  rw [Nat.xor_assoc, Nat.xor_self, Nat.xor_zero]

/-! ## Tilings -/

/-- The blocks `[p, p + 2^k)` with `h p = some k` tile `[0, n)`. -/
structure Tiles (n : Nat) (h : Nat → Option Nat) : Prop where
  aligned : ∀ p k, h p = some k → 2 ^ k ∣ p
  inside : ∀ p k, h p = some k → p + 2 ^ k ≤ n
  disjoint : ∀ p k q j, h p = some k → h q = some j → p < q → p + 2 ^ k ≤ q
  cover : ∀ i, i < n → ∃ p k, h p = some k ∧ p ≤ i ∧ i < p + 2 ^ k

namespace Tiles

variable {n : Nat} {h : Nat → Option Nat} {p k : Nat}

theorem interior (ht : Tiles n h) (hp : h p = some k) {i : Nat} (hlo : p < i) (hhi : i < p + 2 ^ k) :
    h i = none := by
  cases hi : h i with
  | none => rfl
  | some j =>
    have hdis := ht.disjoint p k i j hp hi hlo
    omega

/-- The buddy of a block, if it is in the interval at all, heads a block no larger. -/
theorem buddy_head (ht : Tiles n h) (hp : h p = some k) (hq : p ^^^ 2 ^ k < n) :
    ∃ j, j ≤ k ∧ h (p ^^^ 2 ^ k) = some j := by
  obtain ⟨r, j, hr, hle, hlt⟩ := ht.cover _ hq
  have hpal := ht.aligned p k hp
  have hral := ht.aligned r j hr
  have hqal := dvd_xor_two_pow hpal
  have hpos : 0 < 2 ^ k := Nat.two_pow_pos k
  by_cases hjk : j ≤ k
  · -- both `r` and the buddy are aligned to `2^j`, and they are less than `2^j` apart
    have hqj : 2 ^ j ∣ p ^^^ 2 ^ k := (pow_dvd_pow 2 hjk).trans hqal
    have hdvd : 2 ^ j ∣ (p ^^^ 2 ^ k) - r := Nat.dvd_sub hqj hral
    have hzero : (p ^^^ 2 ^ k) - r = 0 := Nat.eq_zero_of_dvd_of_lt hdvd (by omega)
    have hrq : r = p ^^^ 2 ^ k := by omega
    exact ⟨j, hjk, hrq ▸ hr⟩
  · -- a larger block around the buddy would contain `p` as well
    exfalso
    have hkj : 2 ^ (k + 1) ∣ 2 ^ j := pow_dvd_pow 2 (by omega)
    have hpow : 2 ^ (k + 1) = 2 ^ k + 2 ^ k := by ring
    have hone : ∀ q, 2 ^ (k + 1) ∣ q → r ≤ q + 2 ^ k → q < r + 2 ^ j → r ≤ q ∧ q + 2 ^ (k + 1) ≤ r + 2 ^ j := by
      intro q hqd hrq hqr
      obtain ⟨a, rfl⟩ := hqd
      obtain ⟨b, rfl⟩ := hkj.trans hral
      obtain ⟨c, hc⟩ := hkj
      rw [hc, ← Nat.mul_add] at hqr
      rw [hc, ← Nat.mul_add, ← Nat.mul_succ]
      have hab : b < a + 1 := by
        refine Nat.lt_of_mul_lt_mul_left (a := 2 ^ (k + 1)) ?_
        rw [Nat.mul_succ]
        omega
      have hac : a < b + c := Nat.lt_of_mul_lt_mul_left hqr
      exact ⟨Nat.mul_le_mul_left _ (by omega), Nat.mul_le_mul_left _ (by omega)⟩
    rcases xor_two_pow_cases hpal with ⟨hd, heq⟩ | ⟨hge, hd, heq⟩
    · rw [heq] at hle hlt
      obtain ⟨hrp, hpr⟩ := hone p hd hle (by omega)
      rcases Nat.lt_or_eq_of_le hrp with hlt' | heq'
      · have := ht.disjoint r j p k hr hp hlt'
        omega
      · subst heq'
        rw [hp] at hr
        exact hjk (Option.some.inj hr).ge
    · rw [heq] at hle hlt
      obtain ⟨hrp, hpr⟩ := hone (p - 2 ^ k) hd (by omega) hlt
      have := ht.disjoint r j p k hr hp (by omega)
      omega

theorem update_update_eq_some {q j : Nat} {a b : Option Nat} (hne : q ≠ p) {x : Nat}
    (hx : update (update h p a) q b x = some j) :
    (x = q ∧ b = some j) ∨ (x = p ∧ a = some j) ∨ (x ≠ q ∧ x ≠ p ∧ h x = some j) := by
  by_cases hxq : x = q
  · subst hxq
    rw [update_self] at hx
    exact .inl ⟨rfl, hx⟩
  rw [update_of_ne hxq] at hx
  by_cases hxp : x = p
  · subst hxp
    rw [update_self] at hx
    exact .inr (.inl ⟨rfl, hx⟩)
  · rw [update_of_ne hxp] at hx
    exact .inr (.inr ⟨hxq, hxp, hx⟩)

/-- Splitting a block in two halves. -/
theorem split (ht : Tiles n h) (hp : h p = some (k + 1)) :
    Tiles n (update (update h p (some k)) (p + 2 ^ k) (some k)) := by
  have hpos : 0 < 2 ^ k := Nat.two_pow_pos k
  have hpow : 2 ^ (k + 1) = 2 ^ k + 2 ^ k := by ring
  have hne : p + 2 ^ k ≠ p := by omega
  have hal : 2 ^ k ∣ p := (pow_dvd_pow 2 (Nat.le_succ k)).trans (ht.aligned p _ hp)
  have hin := ht.inside p _ hp
  have hafter : ∀ x j, h x = some j → p < x → p + 2 ^ k + 2 ^ k ≤ x := fun x j hx hlt => by
    have := ht.disjoint p _ x j hp hx hlt
    omega
  have hbefore : ∀ x j, h x = some j → x < p → x + 2 ^ j ≤ p := fun x j hx hlt =>
    ht.disjoint x j p _ hx hp hlt
  refine ⟨?_, ?_, ?_, ?_⟩
  · intro x j hx
    rcases update_update_eq_some hne hx with ⟨rfl, hj⟩ | ⟨rfl, hj⟩ | ⟨-, -, hx⟩
    · cases hj
      exact Nat.dvd_add hal (dvd_refl _)
    · cases hj
      exact hal
    · exact ht.aligned x j hx
  · intro x j hx
    rcases update_update_eq_some hne hx with ⟨rfl, hj⟩ | ⟨rfl, hj⟩ | ⟨-, -, hx⟩
    · cases hj
      omega
    · cases hj
      omega
    · exact ht.inside x j hx
  · intro x j y i hx hy hlt
    rcases update_update_eq_some hne hx with ⟨rfl, hj⟩ | ⟨rfl, hj⟩ | ⟨hxq, hxp, hx'⟩
    · cases hj
      rcases update_update_eq_some hne hy with ⟨rfl, hi⟩ | ⟨rfl, hi⟩ | ⟨hyq, hyp, hy⟩
      · omega
      · omega
      · exact hafter y i hy (by omega)
    · cases hj
      rcases update_update_eq_some hne hy with ⟨rfl, hi⟩ | ⟨rfl, hi⟩ | ⟨hyq, hyp, hy⟩
      · omega
      · omega
      · have := hafter y i hy hlt
        omega
    · rcases update_update_eq_some hne hy with ⟨rfl, hi⟩ | ⟨rfl, hi⟩ | ⟨hyq, hyp, hy⟩
      · -- a block before the right half is before the whole block
        have hxlt : x < p := by
          by_contra hge
          have := hafter x j hx' (by omega)
          omega
        have := hbefore x j hx' hxlt
        omega
      · exact hbefore x j hx' hlt
      · exact ht.disjoint x j y i hx' hy hlt
  · intro i hi
    obtain ⟨x, j, hx, hle, hlt⟩ := ht.cover i hi
    by_cases hxp : x = p
    · subst hxp
      rw [hp] at hx
      cases hx
      by_cases hleft : i < x + 2 ^ k
      · exact ⟨x, k, by rw [update_of_ne hne.symm, update_self], hle, hleft⟩
      · exact ⟨x + 2 ^ k, k, update_self _ _ _, by omega, by omega⟩
    · have hxq : x ≠ p + 2 ^ k := by
        rintro rfl
        have := hafter _ j hx (by omega)
        omega
      exact ⟨x, j, by rw [update_of_ne hxq, update_of_ne hxp]; exact hx, hle, hlt⟩

/-- Merging a block with its right buddy. -/
theorem merge (ht : Tiles n h) (hp : h p = some k) (hq : h (p + 2 ^ k) = some k)
    (hal : 2 ^ (k + 1) ∣ p) :
    Tiles n (update (update h p (some (k + 1))) (p + 2 ^ k) none) := by
  have hpos : 0 < 2 ^ k := Nat.two_pow_pos k
  have hpow : 2 ^ (k + 1) = 2 ^ k + 2 ^ k := by ring
  have hne : p + 2 ^ k ≠ p := by omega
  have hin := ht.inside _ _ hq
  refine ⟨?_, ?_, ?_, ?_⟩
  · intro x j hx
    rcases update_update_eq_some hne hx with ⟨-, hj⟩ | ⟨rfl, hj⟩ | ⟨-, -, hx⟩
    · cases hj
    · cases hj
      exact hal
    · exact ht.aligned x j hx
  · intro x j hx
    rcases update_update_eq_some hne hx with ⟨-, hj⟩ | ⟨rfl, hj⟩ | ⟨-, -, hx⟩
    · cases hj
    · cases hj
      omega
    · exact ht.inside x j hx
  · intro x j y i hx hy hlt
    rcases update_update_eq_some hne hx with ⟨-, hj⟩ | ⟨rfl, hj⟩ | ⟨hxq, hxp, hx'⟩
    · cases hj
    · cases hj
      rcases update_update_eq_some hne hy with ⟨-, hi⟩ | ⟨rfl, hi⟩ | ⟨hyq, hyp, hy⟩
      · cases hi
      · omega
      · -- past the left half and not the right one, so past both
        have hpast := ht.disjoint x k y i hp hy hlt
        have := ht.disjoint _ k y i hq hy (by omega)
        omega
    · rcases update_update_eq_some hne hy with ⟨-, hi⟩ | ⟨rfl, hi⟩ | ⟨hyq, hyp, hy⟩
      · cases hi
      · exact ht.disjoint x j y k hx' hp hlt
      · exact ht.disjoint x j y i hx' hy hlt
  · intro i hi
    obtain ⟨x, j, hx, hle, hlt⟩ := ht.cover i hi
    have hself : update (update h p (some (k + 1))) (p + 2 ^ k) none p
        = some (k + 1) := by
      rw [update_of_ne hne.symm, update_self]
    by_cases hxp : x = p
    · subst hxp
      rw [hp] at hx
      cases hx
      exact ⟨x, k + 1, hself, hle, by omega⟩
    by_cases hxq : x = p + 2 ^ k
    · subst hxq
      rw [hq] at hx
      cases hx
      exact ⟨p, k + 1, hself, by omega, by omega⟩
    · exact ⟨x, j, by rw [update_of_ne hxq, update_of_ne hxp]; exact hx, hle, hlt⟩

end Tiles

/-! ## Merged tilings -/

theorem div_two_pow_of_le {i p k j : Nat} (hkj : k ≤ j) (h : i / 2 ^ k = p / 2 ^ k) : i / 2 ^ j = p / 2 ^ j := by
  obtain ⟨d, rfl⟩ := Nat.exists_eq_add_of_le hkj
  rw [pow_add, ← Nat.div_div_eq_div_mul, h, Nat.div_div_eq_div_mul]

theorem mem_block_iff {p k : Nat} (hal : 2 ^ k ∣ p) (i : Nat) : p ≤ i ∧ i < p + 2 ^ k ↔ i / 2 ^ k = p / 2 ^ k := by
  obtain ⟨m, rfl⟩ := hal
  have hpos : 0 < 2 ^ k := Nat.two_pow_pos k
  rw [Nat.mul_div_cancel_left _ hpos, Nat.div_eq_iff hpos, Nat.mul_comm]
  omega

/-- The pages of the marked blocks. -/
def Covered (h : Nat → Option Nat) (free : Nat → Prop) (i : Nat) : Prop :=
  ∃ p k, h p = some k ∧ free p ∧ p ≤ i ∧ i < p + 2 ^ k

/-- A tiling in which no two buddies of one order below `top` are marked. -/
structure Merged (top n : Nat) (h : Nat → Option Nat) (free : Nat → Prop) : Prop extends Tiles n h where
  order_le : ∀ p k, h p = some k → k ≤ top
  merged : ∀ p k, k < top → h p = some k → free p → h (p ^^^ 2 ^ k) = some k → ¬ free (p ^^^ 2 ^ k)

namespace Merged

variable {top n : Nat} {h h' : Nat → Option Nat} {free free' : Nat → Prop} {p k : Nat}

/-- A marked block is maximal: the block twice its size around it has a page that no marked block covers. -/
theorem maximal (hm : Merged top n h free) (hp : h p = some k) (hf : free p) (hk : k < top) :
    ∃ i, i / 2 ^ (k + 1) = p / 2 ^ (k + 1) ∧ ¬ Covered h free i := by
  induction k using Nat.strong_induction_on generalizing p with
  | h k ih =>
    have hq : (p ^^^ 2 ^ k) / 2 ^ (k + 1) = p / 2 ^ (k + 1) := by
      rw [Nat.xor_div_two_pow, Nat.div_eq_of_lt (Nat.pow_lt_pow_succ (by omega)), Nat.xor_zero]
    by_cases hin : p ^^^ 2 ^ k < n
    · obtain ⟨j, hj, hqj⟩ := hm.buddy_head hp hin
      by_cases hqf : free (p ^^^ 2 ^ k)
      · -- the buddy is marked and smaller
        have hjk : j ≠ k := fun heq => hm.merged p k hk hp hf (heq ▸ hqj) hqf
        obtain ⟨i, hi, hnot⟩ := ih j (by omega) hqj hqf (by omega)
        exact ⟨i, (div_two_pow_of_le (by omega) hi).trans hq, hnot⟩
      · refine ⟨_, hq, ?_⟩
        rintro ⟨r, l, hr, hrf, hle, hlt⟩
        rcases Nat.lt_or_eq_of_le hle with hrq | rfl
        · rw [hm.interior hr hrq hlt] at hqj
          cases hqj
        · exact hqf hrf
    · refine ⟨_, hq, ?_⟩
      rintro ⟨r, l, hr, -, -, hlt⟩
      exact hin (hlt.trans_le (hm.inside r l hr))

/-- The marked blocks are determined by the pages they cover. -/
theorem marked_of_covered (hm : Merged top n h free) (hm' : Merged top n h' free')
    (hcov : ∀ i, Covered h free i ↔ Covered h' free' i) (hp : h p = some k) (hf : free p) :
    h' p = some k ∧ free' p := by
  have hpal := hm.aligned p k hp
  obtain ⟨r, j, hr, hrf, hle, hlt⟩ :=
    (hcov p).mp ⟨p, k, hp, hf, le_rfl, Nat.lt_add_of_pos_right (Nat.two_pow_pos k)⟩
  have hral := hm'.aligned r j hr
  have hpr := (mem_block_iff hral p).mp ⟨hle, hlt⟩
  rcases Nat.lt_trichotomy j k with hjk | rfl | hkj
  · obtain ⟨i, hi, hnot⟩ := hm'.maximal hr hrf (hjk.trans_le (hm.order_le p k hp))
    have hip := (div_two_pow_of_le hjk hi).trans (div_two_pow_of_le hjk.le hpr).symm
    exact absurd ((hcov i).mp ⟨p, k, hp, hf, (mem_block_iff hpal i).mpr hip⟩) hnot
  · have heq : p = r := by
      rw [← Nat.div_mul_cancel hpal, ← Nat.div_mul_cancel hral, hpr]
    exact heq ▸ ⟨hr, hrf⟩
  · obtain ⟨i, hi, hnot⟩ := hm.maximal hp hf (hkj.trans_le (hm'.order_le r j hr))
    have hir := (div_two_pow_of_le hkj hi).trans hpr
    exact absurd ((hcov i).mpr ⟨r, j, hr, hrf, (mem_block_iff hral i).mpr hir⟩) hnot

end Merged

end LostWakeup.Library.Dyadic
