/-
# LostWakeup.Fs.Fat32.ClusterAlloc — `fat32_cluster_alloc`: that it returns, and the count of free clusters.

The search begins at a hint and begins again at entry 1 when it finds nothing.  It knows of a full volume by a counter that
is taken from the disk and not from the bitmap.  `alloc_law_iff` says on which volumes the counter counts the free clusters
through every run and the search ends while there are some.
-/
import Mathlib.Order.Interval.Finset.Nat
import LostWakeup.Fs.Fat32.Bitmap
import LostWakeup.Library.Outcome

namespace LostWakeup.Fs.Fat32.Bitmap

open Library
open Function (update update_of_ne update_self)

/-! ## Allocations and frees -/

section Volume

variable (FAT_CLUSTER_MAX : Nat)

/-- The clusters of a file are freed, and counted. -/
def truncChain (chain : List Nat) (sb : Sb) : Except Panic Sb := do
  let sb ← chain.foldlM (truncCluster FAT_CLUSTER_MAX) sb
  return { sb with free_count := sb.free_count + BitVec.ofNat 32 chain.length }

inductive AllocEvent
  | alloc
  | free (chain : List Nat)

def AllocStep (sb : Sb) (e : AllocEvent) (sb' : Sb) : Prop :=
  match e with
  | .alloc => ∃ fuel c, fat32_cluster_alloc FAT_CLUSTER_MAX fuel sb = .ok (sb', c)
  | .free chain => truncChain FAT_CLUSTER_MAX chain sb = .ok sb'

/-- The free clusters of a bitmap. -/
def freeClusters (sb : Sb) : Finset Nat := (Finset.Icc 2 FAT_CLUSTER_MAX).filter fun c => sb.testCluster c = false

/-- The allocator takes one of the free clusters. -/
def Returns (sb : Sb) : Prop := ∃ fuel sb' c, fat32_cluster_alloc FAT_CLUSTER_MAX fuel sb = .ok (sb', c) ∧
  c ∈ freeClusters FAT_CLUSTER_MAX sb

/-- What holds in a state: the counter is exact, and whatever the hint, the allocator returns while a cluster is free. -/
structure Counted (sb : Sb) : Prop where
  exact : sb.free_count.toNat = (freeClusters FAT_CLUSTER_MAX sb).card
  returns : ∀ nxt_free hint_valid, (freeClusters FAT_CLUSTER_MAX sb).Nonempty → sb.free_count ≠ 0 →
    Returns FAT_CLUSTER_MAX { sb with nxt_free := nxt_free, hint_valid := hint_valid }

/-- The scan at mount returns, and all is counted from there on. -/
def AllocLaw (fats : Nat → BitVec 32) (free_count : BitVec 32) (nxt_free : Nat) : Prop :=
  ∃ sb, fat32_fat_bitmap_init FAT_CLUSTER_MAX fats free_count nxt_free = .ok sb ∧
    ∀ es sb', Run (AllocStep FAT_CLUSTER_MAX) sb es sb' → Counted FAT_CLUSTER_MAX sb'

/-- The free entries of a FAT. -/
def freeEntries (fats : Nat → BitVec 32) : Finset Nat := (Finset.Icc 2 FAT_CLUSTER_MAX).filter fun c => fats c = FREE_MASK

end Volume

theorem mem_freeClusters {M c : Nat} {sb : Sb} : c ∈ freeClusters M sb ↔ IsCluster M c ∧ sb.testCluster c = false := by
  rw [freeClusters, Finset.mem_filter, Finset.mem_Icc, IsCluster]

/-! ## Bits -/

theorem test_set_mono {w : BitVec 64} {c d : Nat} (h : TEST_BIT w d = true) : TEST_BIT (SET_BIT w c) d = true := by
  simp only [TEST_BIT, SET_BIT, bne_iff_ne, ne_eq] at h ⊢
  intro hzero
  apply h
  ext i hi
  have hbit := congrArg (fun v : BitVec 64 => v[i]) hzero
  simp only [BitVec.getElem_and, BitVec.getElem_or] at hbit ⊢
  cases hw : w[i] <;> cases hm : (mask d)[i] <;> simp_all

theorem test_clear_mono {w : BitVec 64} {c d : Nat} (h : TEST_BIT w d = false) : TEST_BIT (CLEAR_BIT w c) d = false := by
  simp only [TEST_BIT, CLEAR_BIT, bne_eq_false_iff_eq] at h ⊢
  ext i hi
  have hbit := congrArg (fun v : BitVec 64 => v[i]) h
  simp only [BitVec.getElem_and, BitVec.getElem_not] at hbit ⊢
  cases hw : w[i] <;> cases hm : (mask d)[i] <;> simp_all

theorem setCluster_mono {sb : Sb} {c d : Nat} (h : sb.testCluster d = true) : (sb.setCluster c).testCluster d = true := by
  unfold Sb.testCluster Sb.setCluster at *
  dsimp only
  rcases eq_or_ne (BIT_INDEX d) (BIT_INDEX c) with heq | hne
  · rw [heq, update_self, ← heq]
    exact test_set_mono h
  · rw [update_of_ne hne]
    exact h

theorem setCluster_self (sb : Sb) (c : Nat) : (sb.setCluster c).testCluster c = true := by
  unfold Sb.testCluster Sb.setCluster
  dsimp only
  rw [update_self]
  exact test_set_self (Nat.mod_lt _ (by decide)) _

theorem clearCluster_mono {sb : Sb} {c d : Nat} (h : sb.testCluster d = false) : (sb.clearCluster c).testCluster d = false := by
  unfold Sb.testCluster Sb.clearCluster at *
  dsimp only
  rcases eq_or_ne (BIT_INDEX d) (BIT_INDEX c) with heq | hne
  · rw [heq, update_self, ← heq]
    exact test_clear_mono h
  · rw [update_of_ne hne]
    exact h

theorem clearCluster_self (sb : Sb) (c : Nat) : (sb.clearCluster c).testCluster c = false := by
  unfold Sb.testCluster Sb.clearCluster
  dsimp only
  rw [update_self]
  exact test_clear_self _ _

theorem test_zero_eq (sb : Sb) : sb.testCluster 0 = sb.testCluster 32 := by
  have hmask : mask 0 = mask 32 := by decide
  have hoff : BIT_OFFSET 0 = 0 ∧ BIT_OFFSET 32 = 32 ∧ BIT_INDEX 0 = 0 ∧ BIT_INDEX 32 = 0 := by decide
  rw [Sb.testCluster, Sb.testCluster, hoff.1, hoff.2.1, hoff.2.2.1, hoff.2.2.2, TEST_BIT, TEST_BIT, hmask]

/-! ## What the allocator does, on any volume -/

section

variable {M : Nat}

/-- What is taken was free and is so no longer, and no bit is set back. -/
structure Took (sb : Sb) (sb' : Sb) (c : Nat) : Prop where
  cluster : IsCluster M c
  free : sb.testCluster c = false
  taken : sb'.testCluster c = true
  kept : ∀ d, sb.testCluster d = true → sb'.testCluster d = true
  count : sb'.free_count = sb.free_count

theorem allocRetry_took {fuel : Nat} {sb sb' : Sb} {c : Nat} (h : allocRetry M fuel sb = .ok (sb', c)) : @Took M sb sb' c := by
  induction fuel generalizing sb with
  | zero => cases h
  | succ fuel ih =>
    unfold allocRetry at h
    obtain ⟨⟨sb₁, r⟩, hr⟩ : ∃ x, fat32_bitmap_alloc M sb (if sb.hint_valid then sb.nxt_free else 0) = x := ⟨_, rfl⟩
    simp only [hr] at h
    have hspec := allocLoop_spec hr (fun hf => by cases hf)
    rcases eq_or_ne r 0 with rfl | hne
    · rw [if_pos rfl] at h
      -- nothing was found, or bit 0 was
      have hkept : ∀ d, sb.testCluster d = true → sb₁.testCluster d = true := by
        rcases hspec with ⟨rfl, -⟩ | ⟨-, -, rfl⟩
        · exact fun d hd => hd
        · exact fun d hd => setCluster_mono hd
      have hcount : sb₁.free_count = sb.free_count := by
        rcases hspec with ⟨rfl, -⟩ | ⟨-, -, rfl⟩ <;> rfl
      obtain ⟨hcluster, hfree, htaken, hmono, hsame⟩ := ih h
      refine ⟨hcluster, ?_, htaken, fun d hd => hmono d (hkept d hd), hsame.trans hcount⟩
      by_contra hset
      have hset₁ := hkept c (Bool.not_eq_false _ ▸ hset)
      exact absurd (hset₁.symm.trans hfree) (by decide)
    · rw [if_neg hne] at h
      rcases hspec with ⟨-, hzero⟩ | ⟨-, hclear, rfl⟩
      · exact absurd hzero hne
      obtain ⟨sb₂, hset, h⟩ := ok_of_bind h
      unfold fat32_fat_cache_set at hset
      split at hset
      next hc =>
        cases hset
        cases h
        exact ⟨hc, hclear, setCluster_self sb c, fun d hd => setCluster_mono hd, rfl⟩
      next => cases hset

theorem cluster_alloc_took {fuel : Nat} {sb sb' : Sb} {c : Nat} (h : fat32_cluster_alloc M fuel sb = .ok (sb', c)) :
    ∃ sb₁, sb₁ = { sb with free_count := sb.free_count - 1 } ∧ allocRetry M fuel sb₁ = .ok (sb', c) ∧ @Took M sb₁ sb' c := by
  unfold fat32_cluster_alloc at h
  split at h
  · cases h
  · exact ⟨_, rfl, h, allocRetry_took h⟩

theorem initLoop_counters {fats : Nat → BitVec 32} {fuel c : Nat} {map_mini : BitVec 64} {sb sb' : Sb}
    (h : initLoop M fats fuel c map_mini sb = .ok sb') : sb'.free_count = sb.free_count ∧ sb'.hint_valid = sb.hint_valid := by
  induction fuel generalizing c map_mini sb with
  | zero => cases h
  | succ fuel ih =>
    have hentry : (initEntry fats c map_mini sb).2.free_count = sb.free_count ∧
        (initEntry fats c map_mini sb).2.hint_valid = sb.hint_valid := by
      unfold initEntry
      split <;> exact ⟨rfl, rfl⟩
    rw [initLoop] at h
    split at h
    · cases h
    dsimp only at h
    split at h
    · cases h
      exact hentry
    split at h
    · obtain ⟨hcount, hvalid⟩ := ih h
      exact ⟨hcount.trans hentry.1, hvalid.trans hentry.2⟩
    · obtain ⟨hcount, hvalid⟩ := ih h
      exact ⟨hcount.trans hentry.1, hvalid.trans hentry.2⟩

theorem init_counters {fats : Nat → BitVec 32} {free_count : BitVec 32} {nxt_free : Nat} {sb : Sb}
    (h : fat32_fat_bitmap_init M fats free_count nxt_free = .ok sb) : sb.free_count = free_count ∧ sb.hint_valid = false :=
  initLoop_counters h

/-! ## Volumes with a cluster 32 -/

theorem truncCluster_ok {sb sb' : Sb} {c : Nat} (h : truncCluster M sb c = .ok sb') :
    IsCluster M c ∧ sb.testCluster c = true ∧ sb'.bit_map = (sb.clearCluster c).bit_map ∧ sb'.free_count = sb.free_count ∧
      sb'.hint_valid = sb.hint_valid := by
  unfold truncCluster at h
  obtain ⟨sb₁, h₁, h⟩ := ok_of_bind h
  obtain ⟨sb₂, h₂, h₃⟩ := ok_of_bind h
  unfold fat32_fat_cache_set at h₁ h₃
  unfold fat32_bitmap_op_clear at h₂
  split at h₁
  next hc =>
    cases h₁
    split at h₂
    next htest =>
      cases h₂
      rw [if_pos hc] at h₃
      cases h₃
      exact ⟨hc, htest, rfl, rfl, rfl⟩
    next => cases h₂
  next => cases h₁

theorem truncCluster_runs {sb : Sb} {c : Nat} (hc : IsCluster M c) (htest : sb.testCluster c = true) :
    ∃ sb', truncCluster M sb c = .ok sb' := by
  obtain ⟨hlo, hhi⟩ := hc
  have htest' : Sb.testCluster { sb with fat_table := update sb.fat_table c FREE_MASK } c = true := htest
  unfold truncCluster fat32_fat_cache_set fat32_bitmap_op_clear
  rw [if_pos ⟨hlo, hhi⟩, ok_bind, if_pos htest', ok_bind, if_pos ⟨hlo, hhi⟩]
  exact ⟨_, rfl⟩

theorem card_add_two {s t : Finset Nat} {a b : Nat} (hsub : t ⊆ s) (ha : a ∈ s) (hb : b ∈ s) (hne : a ≠ b) (ha' : a ∉ t)
    (hb' : b ∉ t) : t.card + 2 ≤ s.card := by
  have hpair : insert a (insert b t) ⊆ s := Finset.insert_subset ha (Finset.insert_subset hb hsub)
  have hcard := Finset.card_le_card hpair
  rw [Finset.card_insert_of_notMem (by simp [hne, ha']), Finset.card_insert_of_notMem hb'] at hcard
  exact hcard

theorem allocRetry_again {fuel : Nat} {sb sb₁ : Sb}
    (hturn : fat32_bitmap_alloc M sb (if sb.hint_valid then sb.nxt_free else 0) = (sb₁, 0)) :
    allocRetry M (fuel + 1) sb =
      allocRetry M fuel { sb₁ with nxt_free := if 0 + 1 ≥ M then 3 else 0 + 1, hint_valid := true } := by
  rw [allocRetry]
  dsimp only
  rw [hturn]
  dsimp only
  rw [if_pos rfl]

theorem allocRetry_done {fuel r : Nat} {sb sb₁ : Sb}
    (hturn : fat32_bitmap_alloc M sb (if sb.hint_valid then sb.nxt_free else 0) = (sb₁, r)) (hr : IsCluster M r) :
    ∃ sb', allocRetry M (fuel + 1) sb = .ok (sb', r) := by
  obtain ⟨hlo, hhi⟩ := hr
  rw [allocRetry]
  dsimp only
  rw [hturn]
  dsimp only
  rw [if_neg (by omega), fat32_fat_cache_set, if_pos ⟨hlo, hhi⟩, ok_bind]
  exact ⟨_, rfl⟩

theorem allocLoop_here {fuel c : Nat} {sb : Sb} (hlt : c < M) (hfree : sb.testCluster c = false) :
    allocLoop M (fuel + 1) true c sb = (sb.setCluster c, c) := by
  rw [allocLoop, if_neg fun h => h.2 hlt, if_pos hfree]

/-- Where entry 0 seems free the search begins there, takes cluster 32 for it and goes on to take another. -/
theorem alloc_takes_two (hM : 32 ≤ M) {sb sb' : Sb} {fuel c : Nat} (hvalid : sb.hint_valid = false)
    (hfree : sb.testCluster 32 = false) (h : fat32_cluster_alloc M fuel sb = .ok (sb', c)) :
    (freeClusters M sb').card + 2 ≤ (freeClusters M sb).card ∧ sb'.free_count = sb.free_count - 1 := by
  obtain ⟨sb₁, rfl, h, htook⟩ := cluster_alloc_took h
  have hcount := htook.count
  rcases fuel with _ | fuel
  · cases h
  -- the first turn sets bit 0
  have hzero : Sb.testCluster { sb with free_count := sb.free_count - 1 } 0 = false := (test_zero_eq sb).trans hfree
  have hturn : fat32_bitmap_alloc M { sb with free_count := sb.free_count - 1 } 0 =
      (Sb.setCluster { sb with free_count := sb.free_count - 1 } 0, 0) := allocLoop_here (by omega) hzero
  have hhint : (if sb.hint_valid = true then sb.nxt_free else 0) = 0 := if_neg (by rw [hvalid]; decide)
  rw [allocRetry_again (by dsimp only; rw [hhint]; exact hturn)] at h
  have hnext := allocRetry_took h
  have hset : Sb.testCluster (Sb.setCluster { sb with free_count := sb.free_count - 1 } 0) 32 = true :=
    (test_zero_eq _).symm.trans (setCluster_self _ 0)
  refine ⟨card_add_two (fun d hd => ?_) (mem_freeClusters.mpr ⟨⟨by decide, hM⟩, hfree⟩)
    (mem_freeClusters.mpr ⟨htook.cluster, htook.free⟩) ?_ ?_ ?_, hcount⟩
  · obtain ⟨hd, hclear⟩ := mem_freeClusters.mp hd
    refine mem_freeClusters.mpr ⟨hd, ?_⟩
    by_contra hused
    have hused' := htook.kept d (Bool.not_eq_false _ ▸ hused)
    exact absurd (hused'.symm.trans hclear) (by decide)
  · rintro rfl
    exact absurd (hset.symm.trans hnext.free) (by decide)
  · intro hmem
    have hclear := (mem_freeClusters.mp hmem).2
    exact absurd ((hnext.kept 32 hset).symm.trans hclear) (by decide)
  · intro hmem
    exact absurd (htook.taken.symm.trans (mem_freeClusters.mp hmem).2) (by decide)

theorem truncChain_single {sb : Sb} {c : Nat} (hc : IsCluster M c) (htest : sb.testCluster c = true) :
    ∃ sb', truncChain M [c] sb = .ok sb' ∧ sb'.testCluster c = false ∧ sb'.bit_map = (sb.clearCluster c).bit_map ∧
      sb'.hint_valid = sb.hint_valid := by
  obtain ⟨sb₁, h₁⟩ := truncCluster_runs hc htest
  obtain ⟨-, -, hbits, -, hvalid⟩ := truncCluster_ok h₁
  refine ⟨{ sb₁ with free_count := sb₁.free_count + BitVec.ofNat 32 1 }, ?_, ?_, hbits, hvalid⟩
  · rw [truncChain, List.foldlM_cons, h₁, ok_bind]
    rfl
  have hclear := clearCluster_self sb c
  unfold Sb.testCluster at hclear ⊢
  dsimp only
  rw [hbits]
  exact hclear

theorem reach_free {sb : Sb} {c : Nat} (hc : IsCluster M c) : ∃ es sb', Run (AllocStep M) sb es sb' ∧
    sb'.testCluster c = false ∧ sb'.hint_valid = sb.hint_valid ∧ ∀ d, sb.testCluster d = false → sb'.testCluster d = false := by
  rcases Bool.eq_false_or_eq_true (sb.testCluster c) with hused | hfree
  · obtain ⟨sb', hfrees, hclear, hbits, hvalid⟩ := truncChain_single hc hused
    refine ⟨[.free [c]], sb', .cons hfrees (.nil sb'), hclear, hvalid, fun d hd => ?_⟩
    have hkept : (sb.clearCluster c).testCluster d = false := clearCluster_mono hd
    unfold Sb.testCluster at hkept ⊢
    rw [hbits]
    exact hkept
  · exact ⟨[], sb, .nil sb, hfree, rfl, fun d hd => hd⟩

theorem Counted.count_ne_zero {sb : Sb} (h : Counted M sb) {c : Nat} (hc : c ∈ freeClusters M sb) : sb.free_count ≠ 0 := by
  intro hzero
  have hcard := h.exact
  rw [hzero] at hcard
  exact absurd (Finset.card_pos.mpr ⟨c, hc⟩) (by rw [← hcard]; decide)

theorem not_allocLaw_of_ge (hM : 32 ≤ M) (fats : Nat → BitVec 32) (free_count : BitVec 32) (nxt_free : Nat) :
    ¬AllocLaw M fats free_count nxt_free := by
  rintro ⟨sb, hinit, hlaw⟩
  obtain ⟨es, sb', hrun, hfree, hvalid, -⟩ := @reach_free M sb 32 ⟨by decide, hM⟩
  have hmem : 32 ∈ freeClusters M sb' := mem_freeClusters.mpr ⟨⟨by decide, hM⟩, hfree⟩
  have hcounted := hlaw es sb' hrun
  have hne := hcounted.count_ne_zero hmem
  obtain ⟨fuel, sb'', c, halloc, -⟩ := hcounted.returns sb'.nxt_free sb'.hint_valid ⟨32, hmem⟩ hne
  have hstep : AllocStep M sb' .alloc sb'' := ⟨fuel, c, halloc⟩
  have hcounted' := hlaw _ sb'' (hrun.snoc hstep)
  obtain ⟨htwo, hcount⟩ := alloc_takes_two hM (hvalid.trans (init_counters hinit).2) hfree halloc
  have hexact := hcounted.exact
  have hexact' := hcounted'.exact
  rw [hcount] at hexact'
  have hsub : (sb'.free_count - 1).toNat = sb'.free_count.toNat - 1 := by
    bv_omega
  omega

theorem not_returns_of_entry_one (hM : 2 ≤ M) {sb : Sb} (hone : sb.testCluster 1 = false) :
    ¬Returns M { sb with nxt_free := 1, hint_valid := true } := by
  rintro ⟨fuel, sb', c, halloc, -⟩
  obtain ⟨sb₁, rfl, h, -⟩ := cluster_alloc_took halloc
  rcases fuel with _ | fuel
  · cases h
  have hturn : fat32_bitmap_alloc M { sb with nxt_free := 1, hint_valid := true, free_count := sb.free_count - 1 } 1 =
      (Sb.setCluster { sb with nxt_free := 1, hint_valid := true, free_count := sb.free_count - 1 } 1, 1) :=
    allocLoop_here (by omega) hone
  rw [allocRetry] at h
  dsimp only at h
  rw [if_pos rfl, hturn] at h
  dsimp only at h
  rw [if_neg Nat.one_ne_zero, fat32_fat_cache_set, if_neg fun hc => absurd hc.1 (by decide)] at h
  cases h

theorem init_free {fats : Nat → BitVec 32} {sb : Sb} (h : Loaded M fats sb) : freeClusters M sb = freeEntries M fats := by
  ext c
  rw [mem_freeClusters, freeEntries, Finset.mem_filter, Finset.mem_Icc, IsCluster]
  refine and_congr_right fun hc => ?_
  rw [← Bool.not_eq_true, h.bits c hc.2, not_not]

end

/-! ## Volumes of at most 31 -/

section Small

variable {M : Nat} (hM : M ≤ 31)
include hM

/-- Only the bit of the cluster that is taken is set, and perhaps that of entry 0. -/
theorem allocRetry_bits {fuel : Nat} {sb sb' : Sb} {c : Nat} (h : allocRetry M fuel sb = .ok (sb', c)) {d : Nat}
    (hd : IsCluster M d) : sb'.testCluster d = if d = c then true else sb.testCluster d := by
  induction fuel generalizing sb with
  | zero => cases h
  | succ fuel ih =>
    obtain ⟨⟨sb₁, r⟩, hr⟩ : ∃ x, fat32_bitmap_alloc M sb (if sb.hint_valid then sb.nxt_free else 0) = x := ⟨_, rfl⟩
    have hspec := allocLoop_spec hr nofun
    have htook := allocRetry_took h
    rcases eq_or_ne r 0 with rfl | hne
    · rw [allocRetry_again hr] at h
      have hsame : sb₁.testCluster d = sb.testCluster d := by
        rcases hspec with ⟨rfl, -⟩ | ⟨-, -, rfl⟩
        · rfl
        · have hpos : d ≠ 0 := by have := hd.1; omega
          rw [test_setCluster hM (Nat.zero_le M) hd.2, if_neg hpos]
      rw [ih h, ← hsame]
      rfl
    · rcases hspec with ⟨-, hzero⟩ | ⟨hrM, hclear, rfl⟩
      · exact absurd hzero hne
      unfold allocRetry at h
      simp only [hr, if_neg hne] at h
      obtain ⟨sb₂, hset, h⟩ := ok_of_bind h
      unfold fat32_fat_cache_set at hset
      split at hset
      next =>
        cases hset
        cases h
        exact test_setCluster hM hrM hd.2 sb
      next => cases hset

/-- What every state of a small volume has. -/
structure Sound (M : Nat) (sb : Sb) : Prop where
  exact : sb.free_count.toNat = (freeClusters M sb).card
  reserved : 2 ≤ M → sb.testCluster 1 = true

omit hM in
theorem card_free_le (sb : Sb) : (freeClusters M sb).card ≤ M - 1 := by
  have hle := Finset.card_filter_le (Finset.Icc 2 M) fun c => sb.testCluster c = false
  rw [Nat.card_Icc] at hle
  exact hle.trans (by omega)

theorem sound_alloc {fuel : Nat} {sb sb' : Sb} {c : Nat} (h : Sound M sb)
    (halloc : fat32_cluster_alloc M fuel sb = .ok (sb', c)) : Sound M sb' := by
  obtain ⟨sb₁, rfl, hretry, htook⟩ := cluster_alloc_took halloc
  have hbits := fun d (hd : IsCluster M d) => allocRetry_bits hM hretry hd
  have hcount := htook.count
  have hmem : c ∈ freeClusters M sb := mem_freeClusters.mpr ⟨htook.cluster, htook.free⟩
  have herase : freeClusters M sb' = (freeClusters M sb).erase c := by
    ext d
    rw [Finset.mem_erase, mem_freeClusters, mem_freeClusters]
    constructor
    · rintro ⟨hd, hclear⟩
      rw [hbits d hd] at hclear
      split at hclear
      · cases hclear
      next hne => exact ⟨hne, hd, hclear⟩
    · rintro ⟨hne, hd, hclear⟩
      refine ⟨hd, ?_⟩
      rw [hbits d hd, if_neg hne]
      exact hclear
  refine ⟨?_, fun htwo => htook.kept 1 (h.reserved htwo)⟩
  have hexact := h.exact
  have hpos : 0 < (freeClusters M sb).card := Finset.card_pos.mpr ⟨c, hmem⟩
  rw [herase, Finset.card_erase_of_mem hmem, hcount]
  dsimp only
  bv_omega

theorem clearCluster_free {sb : Sb} {c : Nat} (hc : IsCluster M c) :
    freeClusters M (sb.clearCluster c) = insert c (freeClusters M sb) := by
  ext d
  rw [Finset.mem_insert, mem_freeClusters, mem_freeClusters]
  constructor
  · rintro ⟨hd, hclear⟩
    rw [test_clearCluster hM hc.2 hd.2] at hclear
    rcases eq_or_ne d c with rfl | hne
    · exact .inl rfl
    · rw [if_neg hne] at hclear
      exact .inr ⟨hd, hclear⟩
  · rintro (rfl | ⟨hd, hclear⟩)
    · exact ⟨hc, clearCluster_self sb d⟩
    · exact ⟨hd, clearCluster_mono hclear⟩

/-- Each cluster of a file that is freed was used before. -/
theorem truncChain_frees {chain : List Nat} {sb sb' : Sb} (h : chain.foldlM (truncCluster M) sb = .ok sb') :
    (freeClusters M sb').card = (freeClusters M sb).card + chain.length ∧ sb'.free_count = sb.free_count ∧
      sb'.testCluster 1 = sb.testCluster 1 := by
  induction chain generalizing sb with
  | nil =>
    cases h
    exact ⟨rfl, rfl, rfl⟩
  | cons c chain ih =>
    rw [List.foldlM_cons] at h
    obtain ⟨sb₁, h₁, h⟩ := ok_of_bind h
    obtain ⟨hcard, hcount, hone⟩ := ih h
    obtain ⟨hc, hused, hbits, hcount₁, -⟩ := truncCluster_ok h₁
    have htest : ∀ d, sb₁.testCluster d = (sb.clearCluster c).testCluster d := by
      intro d
      unfold Sb.testCluster
      rw [hbits]
    have hsame : freeClusters M sb₁ = freeClusters M (sb.clearCluster c) := by
      ext d
      rw [mem_freeClusters, mem_freeClusters, htest]
    have hnew : c ∉ freeClusters M sb := by
      intro hmem
      exact absurd (hused.symm.trans (mem_freeClusters.mp hmem).2) (by decide)
    refine ⟨?_, hcount.trans hcount₁, ?_⟩
    · rw [hcard, hsame, clearCluster_free hM hc, Finset.card_insert_of_notMem hnew, List.length_cons]
      omega
    · have hle : 1 ≤ M := Nat.le_trans (by decide) (Nat.le_trans hc.1 hc.2)
      have hne : 1 ≠ c := by have := hc.1; omega
      rw [hone, htest, test_clearCluster hM hc.2 hle, if_neg hne]

theorem sound_free {chain : List Nat} {sb sb' : Sb} (h : Sound M sb) (hfree : truncChain M chain sb = .ok sb') : Sound M sb' := by
  unfold truncChain at hfree
  obtain ⟨sb₁, h₁, hret⟩ := ok_of_bind hfree
  cases hret
  obtain ⟨hcard, hcount, hone⟩ := truncChain_frees hM h₁
  have hexact := h.exact
  have hle := @card_free_le M sb₁
  refine ⟨?_, fun htwo => hone.trans (h.reserved htwo)⟩
  show (sb₁.free_count + BitVec.ofNat 32 chain.length).toNat = (freeClusters M sb₁).card
  rw [hcount, BitVec.toNat_add, BitVec.toNat_ofNat]
  omega

theorem allocLoop_finds {fuel c d : Nat} {first : Bool} {sb : Sb} (hc : 1 ≤ c) (hfirst : first = true → c < M) (hd : c ≤ d)
    (hdM : d ≤ M) (hfuel : M < c + fuel) (hfree : sb.testCluster d = false) : 1 ≤ (allocLoop M fuel first c sb).2 := by
  induction fuel generalizing c first with
  | zero => omega
  | succ fuel ih =>
    have houter : ¬((first = true ∨ BIT_OFFSET c = 0) ∧ ¬c < M) := by
      rintro ⟨hstart | hstart, hge⟩
      · exact hge (hfirst hstart)
      · rw [BIT_OFFSET, map_mini_size] at hstart
        omega
    rw [allocLoop, if_neg houter]
    split
    · exact hc
    next hused =>
      have hne : d ≠ c := by
        rintro rfl
        exact hused hfree
      rw [if_neg (by omega)]
      apply ih <;> first | omega | exact fun h => by cases h

theorem sound_returns {sb : Sb} (h : Sound M sb) (hfree : (freeClusters M sb).Nonempty) (hne : sb.free_count ≠ 0) : Returns M sb := by
  obtain ⟨d, hd⟩ := hfree
  obtain ⟨⟨hlo, hhi⟩, hclear⟩ := mem_freeClusters.mp hd
  have hone := h.reserved (by omega)
  suffices hretry : ∃ sb' c, allocRetry M 2 { sb with free_count := sb.free_count - 1 } = .ok (sb', c) by
    obtain ⟨sb', c, hretry⟩ := hretry
    have htook := allocRetry_took hretry
    refine ⟨2, sb', c, ?_, mem_freeClusters.mpr ⟨htook.cluster, htook.free⟩⟩
    rw [fat32_cluster_alloc, if_neg hne]
    exact hretry
  -- a bit that is found is that of a cluster, since entry 1 is used
  have hcluster : ∀ (s : Sb) (r : Nat), s.testCluster 1 = true → r ≠ 0 → r ≤ M → s.testCluster r = false → IsCluster M r := by
    intro s r hs hr hrM htest
    refine ⟨?_, hrM⟩
    have hr1 : r ≠ 1 := by
      rintro rfl
      exact absurd (hs.symm.trans htest) (by decide)
    omega
  generalize hs : ({ sb with free_count := sb.free_count - 1 } : Sb) = s
  have hsone : s.testCluster 1 = true := hs ▸ hone
  have hsclear : s.testCluster d = false := hs ▸ hclear
  obtain ⟨⟨sb₁, r⟩, hr⟩ : ∃ x, fat32_bitmap_alloc M s (if s.hint_valid then s.nxt_free else 0) = x := ⟨_, rfl⟩
  have hspec := allocLoop_spec hr nofun
  rcases eq_or_ne r 0 with rfl | hr0
  · rw [allocRetry_again hr]
    have hd₁ : sb₁.testCluster d = false ∧ sb₁.testCluster 1 = true := by
      rcases hspec with ⟨rfl, -⟩ | ⟨-, -, rfl⟩
      · exact ⟨hsclear, hsone⟩
      · rw [test_setCluster hM (Nat.zero_le M) hhi, if_neg (by omega)]
        exact ⟨hsclear, setCluster_mono hsone⟩
    have hhint : (if 0 + 1 ≥ M then 3 else 0 + 1) = 1 := if_neg (by omega)
    rw [hhint]
    obtain ⟨⟨sb₂, r₂⟩, hr₂⟩ : ∃ x, fat32_bitmap_alloc M { sb₁ with nxt_free := 1, hint_valid := true } 1 = x := ⟨_, rfl⟩
    have hpos : 1 ≤ (fat32_bitmap_alloc M { sb₁ with nxt_free := 1, hint_valid := true } 1).2 :=
      allocLoop_finds hM (Nat.le_refl 1) (fun _ => by omega) (by omega) hhi (by omega) hd₁.1
    rw [hr₂] at hpos
    rcases allocLoop_spec hr₂ nofun with ⟨-, hzero⟩ | ⟨hrM, htest, -⟩
    · exact absurd hzero (Nat.ne_of_gt hpos)
    · obtain ⟨sb', hdone⟩ := @allocRetry_done M 0 r₂ { sb₁ with nxt_free := 1, hint_valid := true } sb₂ hr₂
        (hcluster _ r₂ hd₁.2 (Nat.ne_of_gt hpos) hrM htest)
      exact ⟨sb', r₂, hdone⟩
  · rcases hspec with ⟨-, hzero⟩ | ⟨hrM, htest, -⟩
    · exact absurd hzero hr0
    · obtain ⟨sb', hdone⟩ := @allocRetry_done M 1 r s sb₁ hr (hcluster s r hsone hr0 hrM htest)
      exact ⟨sb', r, hdone⟩

theorem Sound.counted {sb : Sb} (h : Sound M sb) : Counted M sb :=
  ⟨h.exact, fun nxt_free hint_valid hfree hne =>
    @sound_returns M hM { sb with nxt_free := nxt_free, hint_valid := hint_valid } ⟨h.exact, h.reserved⟩ hfree hne⟩

end Small

/-- **The counter of free clusters is exact, and the search for one ends**, on exactly the volumes of at most 31 whose FSINFO
sector has the right count and whose reserved entry 1 is used. -/
theorem alloc_law_iff (M : Nat) (fats : Nat → BitVec 32) (free_count : BitVec 32) (nxt_free : Nat) :
    AllocLaw M fats free_count nxt_free ↔
      1 ≤ M ∧ M ≤ 31 ∧ free_count.toNat = (freeEntries M fats).card ∧ (2 ≤ M → fats 1 ≠ FREE_MASK) := by
  constructor
  · intro hlaw
    have hle : M ≤ 31 := by
      by_contra hgt
      exact not_allocLaw_of_ge (by omega) fats free_count nxt_free hlaw
    obtain ⟨sb, hinit, hruns⟩ := hlaw
    have hpos : 1 ≤ M := by
      by_contra hzero
      obtain rfl : M = 0 := by omega
      cases hinit
    obtain ⟨sb₀, hinit₀, hloaded⟩ := fat_bitmap_init_spec hle hpos fats free_count nxt_free
    rw [hinit] at hinit₀
    cases hinit₀
    have hexact := (hruns [] sb (.nil sb)).exact
    rw [(init_counters hinit).1, init_free hloaded] at hexact
    refine ⟨hpos, hle, hexact, fun htwo hfree => ?_⟩
    have hone : sb.testCluster 1 = false := by
      rw [← Bool.not_eq_true, hloaded.bits 1 hpos, not_not]
      exact hfree
    obtain ⟨es, sb', hrun, hclear, -, hkept⟩ := @reach_free M sb 2 ⟨Nat.le_refl 2, htwo⟩
    have hmem : 2 ∈ freeClusters M sb' := mem_freeClusters.mpr ⟨⟨Nat.le_refl 2, htwo⟩, hclear⟩
    have hcounted := hruns es sb' hrun
    exact not_returns_of_entry_one htwo (hkept 1 hone) (hcounted.returns 1 true ⟨2, hmem⟩ (hcounted.count_ne_zero hmem))
  · rintro ⟨hpos, hle, hexact, hreserved⟩
    obtain ⟨sb, hinit, hloaded⟩ := fat_bitmap_init_spec hle hpos fats free_count nxt_free
    have hsound : Sound M sb := by
      refine ⟨?_, fun htwo => (hloaded.bits 1 hpos).mpr (hreserved htwo)⟩
      rw [(init_counters hinit).1, init_free hloaded]
      exact hexact
    refine ⟨sb, hinit, fun es sb' hrun => ?_⟩
    refine (hrun.invariant (fun s e s' hs hstep => ?_) hsound).counted hle
    cases e with
    | alloc =>
      obtain ⟨fuel, c, halloc⟩ := hstep
      exact sound_alloc hle hs halloc
    | free chain => exact sound_free hle hs hstep

/-- A volume with four clusters, all used, and an FSINFO sector that does not know the count of free ones. -/
theorem unknown_count_kept : ¬∀ (M : Nat) (fats : Nat → BitVec 32) (free_count : BitVec 32) (nxt_free : Nat), 1 ≤ M →
    AllocLaw M fats free_count nxt_free := by
  intro h
  obtain ⟨sb, hinit, hruns⟩ := h 5 (fun _ => EOC) 0xFFFFFFFF 0 (by decide)
  have hexact := (hruns [] sb (.nil sb)).exact
  rw [(init_counters hinit).1] at hexact
  have hle := @card_free_le 5 sb
  rw [← hexact] at hle
  exact absurd hle (by decide)

end LostWakeup.Fs.Fat32.Bitmap
