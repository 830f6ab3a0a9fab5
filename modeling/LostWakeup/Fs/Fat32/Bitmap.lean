/-
# LostWakeup.Fs.Fat32.Bitmap — `fat32_disk.c`: the cluster bitmap beside the in-memory FAT.

The bitmap has one bit a cluster in 64-bit words, but its masks are built with the `int` expression `1 << pos`.  Compiled
for RV64 that shift uses the low five bits of `pos` and sign-extends its 32-bit result.  The model keeps the masks as
they are computed; `bitmap_law_iff` says for which volumes the bitmap and the FAT agree.
-/
import Mathlib.Data.BitVec
import Mathlib.Logic.Function.Basic
import LostWakeup.Library.CInt
import LostWakeup.Library.Run

namespace LostWakeup.Fs.Fat32.Bitmap

open Library
open Function (update update_of_ne update_self)

/-! ## Bit operations -/

/-- `1 << pos`, as an operand of a `uint64` operation. -/
def mask (pos : Nat) : BitVec 64 := BitVec.ofInt 64 (int_shl_one pos)

def SET_BIT (bitmap : BitVec 64) (pos : Nat) : BitVec 64 := bitmap ||| mask pos

def CLEAR_BIT (bitmap : BitVec 64) (pos : Nat) : BitVec 64 := bitmap &&& ~~~ mask pos

def TEST_BIT (bitmap : BitVec 64) (pos : Nat) : Bool := bitmap &&& mask pos != 0

def map_mini_size : Nat := 64

def BIT_INDEX (pos : Nat) : Nat := pos / map_mini_size

def BIT_OFFSET (pos : Nat) : Nat := pos % map_mini_size

/-! ## The superblock -/

/-- FAT entries in a sector of 512 bytes. -/
def FAT_PER_SECTOR : Nat := 128

def EOC : BitVec 32 := 0x0FFFFFFF
def FREE_MASK : BitVec 32 := 0

/-- The part of `struct _superblock` that allocation uses. -/
structure Sb where
  bit_map : Nat → BitVec 64
  fat_table : Nat → BitVec 32
  free_count : BitVec 32
  nxt_free : Nat
  hint_valid : Bool

inductive Panic
  | bitmap_init_unreachable
  | bitmap_op_not_set
  | cache_set_cluster
  | no_disk_space
  /-- Not a panic of the source: the retry loop has not returned within the given turns. -/
  | no_return
  deriving DecidableEq

namespace Sb

/-- The bit of a cluster, as the source reads it. -/
def testCluster (sb : Sb) (c : Nat) : Bool := TEST_BIT (sb.bit_map (BIT_INDEX c)) (BIT_OFFSET c)

def setCluster (sb : Sb) (c : Nat) : Sb :=
  { sb with
    bit_map := update sb.bit_map (BIT_INDEX c)
      (SET_BIT (sb.bit_map (BIT_INDEX c)) (BIT_OFFSET c)) }

def clearCluster (sb : Sb) (c : Nat) : Sb :=
  { sb with
    bit_map := update sb.bit_map (BIT_INDEX c)
      (CLEAR_BIT (sb.bit_map (BIT_INDEX c)) (BIT_OFFSET c)) }

end Sb

section Volume

variable (FAT_CLUSTER_MAX : Nat)

/-- The entry `c` of the FAT on disk, taken into `map_mini` and the table in memory. -/
def initEntry (fats : Nat → BitVec 32) (c : Nat) (map_mini : BitVec 64) (sb : Sb) : BitVec 64 × Sb :=
  if fats c ≠ FREE_MASK then
    (SET_BIT map_mini (BIT_OFFSET c),
      { sb with fat_table := update sb.fat_table c (fats c) })
  else
    (CLEAR_BIT map_mini (BIT_OFFSET c), sb)

/-- The two nested loops of `fat32_fat_bitmap_init`, one turn an entry.  The test of the outer loop
is made at the first entry of each sector. -/
def initLoop (fats : Nat → BitVec 32) : Nat → Nat → BitVec 64 → Sb → Except Panic Sb
  | 0, _, _, _ => .error .no_return
  | fuel + 1, c, map_mini, sb =>
    if c % FAT_PER_SECTOR = 0 ∧ ¬ c < FAT_CLUSTER_MAX then
      .error .bitmap_init_unreachable
    else
      let (map_mini, sb) := initEntry fats c map_mini sb
      let saved := { sb with bit_map := update sb.bit_map (BIT_INDEX c) map_mini }
      -- a full word is saved at once, the last one when the scan ends
      if c + 1 > FAT_CLUSTER_MAX then
        .ok saved
      else if BIT_OFFSET c + 1 = map_mini_size then
        initLoop fats fuel (c + 1) map_mini saved
      else
        initLoop fats fuel (c + 1) map_mini sb

/-- `fat32_fat_bitmap_init`, on freshly zeroed tables and the counters of the FSINFO sector. -/
def fat32_fat_bitmap_init (fats : Nat → BitVec 32) (free_count : BitVec 32) (nxt_free : Nat) :
    Except Panic Sb :=
  initLoop FAT_CLUSTER_MAX fats (FAT_CLUSTER_MAX + 2) 0 0
    ⟨fun _ => 0, fun _ => 0, free_count, nxt_free, false⟩

/-- The loops of `fat32_bitmap_alloc` from cluster `c` on; `first` until the outer test has been made once.  0 means
no bit, or bit 0. -/
def allocLoop : Nat → Bool → Nat → Sb → Sb × Nat
  | 0, _, _, sb => (sb, 0)
  | fuel + 1, first, c, sb =>
    if (first = true ∨ BIT_OFFSET c = 0) ∧ ¬ c < FAT_CLUSTER_MAX then
      (sb, 0)
    else if sb.testCluster c = false then
      (sb.setCluster c, c)
    else if c + 1 > FAT_CLUSTER_MAX then
      (sb, 0)
    else
      allocLoop fuel false (c + 1) sb

def fat32_bitmap_alloc (sb : Sb) (hint : Nat) : Sb × Nat :=
  allocLoop FAT_CLUSTER_MAX (FAT_CLUSTER_MAX + 2) true hint sb

/-- `fat32_fat_cache_set`; the values it is called with here, `EOC` and `FREE_MASK`, pass its second
check. -/
def fat32_fat_cache_set (sb : Sb) (cluster : Nat) (value : BitVec 32) : Except Panic Sb :=
  if 2 ≤ cluster ∧ cluster ≤ FAT_CLUSTER_MAX then
    .ok { sb with fat_table := update sb.fat_table cluster value }
  else
    .error .cache_set_cluster

/-- The `retry` loop of `fat32_cluster_alloc`. -/
def allocRetry : Nat → Sb → Except Panic (Sb × Nat)
  | 0, _ => .error .no_return
  | fuel + 1, sb => do
    let hint := if sb.hint_valid then sb.nxt_free else 0
    let (sb, fat_next) := fat32_bitmap_alloc FAT_CLUSTER_MAX sb hint
    let nxt_free := if fat_next + 1 ≥ FAT_CLUSTER_MAX then 3 else fat_next + 1
    let sb := { sb with nxt_free := nxt_free, hint_valid := true }
    if fat_next = 0 then
      allocRetry fuel sb
    else
      let sb ← fat32_fat_cache_set FAT_CLUSTER_MAX sb fat_next EOC
      return (sb, fat_next)

/-- `fat32_cluster_alloc`, if it returns within `fuel` turns of its retry loop. -/
def fat32_cluster_alloc (fuel : Nat) (sb : Sb) : Except Panic (Sb × Nat) :=
  if sb.free_count = 0 then
    .error .no_disk_space
  else
    allocRetry FAT_CLUSTER_MAX fuel { sb with free_count := sb.free_count - 1 }

/-- `fat32_bitmap_op(sb, cluster, 0)`. -/
def fat32_bitmap_op_clear (sb : Sb) (cluster : Nat) : Except Panic Sb :=
  if sb.testCluster cluster then .ok (sb.clearCluster cluster) else .error .bitmap_op_not_set

/-- What `fat32_inode_trunc` does to each cluster of the file. -/
def truncCluster (sb : Sb) (cluster : Nat) : Except Panic Sb := do
  let sb ← fat32_fat_cache_set FAT_CLUSTER_MAX sb cluster FREE_MASK
  let sb ← fat32_bitmap_op_clear sb cluster
  fat32_fat_cache_set FAT_CLUSTER_MAX sb cluster FREE_MASK

inductive ClusterEvent
  | fat32_cluster_alloc (fuel : Nat)
  | truncCluster (cluster : Nat)

def ClusterStep (sb : Sb) (e : ClusterEvent) (sb' : Sb) : Prop :=
  match e with
  | .fat32_cluster_alloc fuel => ∃ c, fat32_cluster_alloc FAT_CLUSTER_MAX fuel sb = .ok (sb', c)
  | .truncCluster cluster => truncCluster FAT_CLUSTER_MAX sb cluster = .ok sb'

/-! ## The law -/

/-- The clusters of the data region. -/
def IsCluster (c : Nat) : Prop := 2 ≤ c ∧ c ≤ FAT_CLUSTER_MAX

/-- A cluster's bit is set exactly when its FAT entry is in use. -/
def Agree (sb : Sb) : Prop :=
  ∀ c, IsCluster FAT_CLUSTER_MAX c → (sb.testCluster c = true ↔ sb.fat_table c ≠ FREE_MASK)

/-- Setting or clearing the bit of one cluster leaves the bits of the others alone. -/
def BitsSeparate : Prop :=
  ∀ c d, IsCluster FAT_CLUSTER_MAX c → IsCluster FAT_CLUSTER_MAX d → c ≠ d → ∀ sb : Sb,
    (sb.setCluster c).testCluster d = sb.testCluster d ∧
      (sb.clearCluster c).testCluster d = sb.testCluster d

/-- The bitmap law of a volume: separate bits, and for every FAT on disk an initialisation that returns, then
agreement in every run and allocations of free clusters only. -/
structure BitmapLaw : Prop where
  separate : BitsSeparate FAT_CLUSTER_MAX
  runs : ∀ fats free_count nxt_free, ∃ sb,
    fat32_fat_bitmap_init FAT_CLUSTER_MAX fats free_count nxt_free = .ok sb ∧
      ∀ es sb', Run (ClusterStep FAT_CLUSTER_MAX) sb es sb' → Agree FAT_CLUSTER_MAX sb' ∧
        ∀ fuel sb'' c, fat32_cluster_alloc FAT_CLUSTER_MAX fuel sb' = .ok (sb'', c) →
          sb'.fat_table c = FREE_MASK

end Volume

/-! ## Masks -/

theorem mask_disjoint {c d : Nat} (hc : c < 32) (hd : d < 32) (hne : c ≠ d) :
    mask c &&& mask d = 0#64 := by
  have hall : ∀ a b : Fin 32, a ≠ b → mask a &&& mask b = 0#64 := by decide +kernel
  exact hall ⟨c, hc⟩ ⟨d, hd⟩ (by simpa using hne)

theorem mask_ne_zero {c : Nat} (hc : c < 64) : mask c ≠ 0#64 := by
  have hall : ∀ a : Fin 64, mask a ≠ 0#64 := by decide +kernel
  exact hall ⟨c, hc⟩

theorem test_set_self {c : Nat} (hc : c < 64) (w : BitVec 64) : TEST_BIT (SET_BIT w c) c = true := by
  have hmask : (w ||| mask c) &&& mask c = mask c := by
    ext i hi
    simp only [BitVec.getElem_and, BitVec.getElem_or]
    cases w[i] <;> cases (mask c)[i] <;> rfl
  simp [TEST_BIT, SET_BIT, hmask, mask_ne_zero hc]

theorem test_clear_self (c : Nat) (w : BitVec 64) : TEST_BIT (CLEAR_BIT w c) c = false := by
  have hmask : (w &&& ~~~ mask c) &&& mask c = 0 := by
    ext i hi
    simp
  simp [TEST_BIT, CLEAR_BIT, hmask]

theorem test_set_other {c d : Nat} (hc : c < 32) (hd : d < 32) (hne : c ≠ d) (w : BitVec 64) :
    TEST_BIT (SET_BIT w c) d = TEST_BIT w d := by
  have hdis := mask_disjoint hc hd hne
  have hmask : (w ||| mask c) &&& mask d = w &&& mask d := by
    ext i hi
    have hbit := congrArg (fun v : BitVec 64 => v[i]) hdis
    simp only [BitVec.getElem_and, BitVec.getElem_zero] at hbit
    simp only [BitVec.getElem_and, BitVec.getElem_or, Bool.and_or_distrib_right]
    rw [hbit, Bool.or_false]
  simp only [TEST_BIT, SET_BIT, hmask]

theorem test_clear_other {c d : Nat} (hc : c < 32) (hd : d < 32) (hne : c ≠ d) (w : BitVec 64) :
    TEST_BIT (CLEAR_BIT w c) d = TEST_BIT w d := by
  have hdis := mask_disjoint hc hd hne
  have hmask : (w &&& ~~~ mask c) &&& mask d = w &&& mask d := by
    ext i hi
    have hbit := congrArg (fun v : BitVec 64 => v[i]) hdis
    simp only [BitVec.getElem_and, BitVec.getElem_zero] at hbit
    simp only [BitVec.getElem_and, BitVec.getElem_not]
    cases hd' : (mask d)[i] with
    | false => simp
    | true =>
      rw [hd', Bool.and_true] at hbit
      simp [hbit]
  simp only [TEST_BIT, CLEAR_BIT, hmask]

theorem allocLoop_spec {M fuel c : Nat} {first : Bool} {sb sb' : Sb} {r : Nat}
    (h : allocLoop M fuel first c sb = (sb', r)) (hc : first = false → c ≤ M) :
    (sb' = sb ∧ r = 0) ∨ (r ≤ M ∧ sb.testCluster r = false ∧ sb' = sb.setCluster r) := by
  induction fuel generalizing c first with
  | zero =>
    cases h
    exact .inl ⟨rfl, rfl⟩
  | succ fuel ih =>
    unfold allocLoop at h
    split at h
    · cases h
      exact .inl ⟨rfl, rfl⟩
    · next hin =>
      have hcM : c ≤ M := by
        cases first with
        | false => exact hc rfl
        | true =>
          simp only [true_or, true_and, not_not] at hin
          omega
      split at h
      · next hclear =>
        cases h
        exact .inr ⟨hcM, hclear, rfl⟩
      · split at h
        · cases h
          exact .inl ⟨rfl, rfl⟩
        · next hlast => exact ih h fun _ => by omega

/-! ## Volumes of at most 31 -/

section Small

variable {M : Nat} (hM : M ≤ 31)
include hM

theorem test_setCluster {c d : Nat} (hc : c ≤ M) (hd : d ≤ M) (sb : Sb) :
    (sb.setCluster c).testCluster d = if d = c then true else sb.testCluster d := by
  have hword : BIT_INDEX c = 0 ∧ BIT_INDEX d = 0 := by simp only [BIT_INDEX, map_mini_size]; omega
  have hoff : BIT_OFFSET c = c ∧ BIT_OFFSET d = d := by
    simp only [BIT_OFFSET, map_mini_size]; omega
  simp only [Sb.testCluster, Sb.setCluster, hword, hoff, update_self]
  by_cases hdc : d = c
  · subst hdc
    rw [if_pos rfl, test_set_self (by omega)]
  · rw [if_neg hdc, test_set_other (by omega) (by omega) (Ne.symm hdc)]

theorem test_clearCluster {c d : Nat} (hc : c ≤ M) (hd : d ≤ M) (sb : Sb) :
    (sb.clearCluster c).testCluster d = if d = c then false else sb.testCluster d := by
  have hword : BIT_INDEX c = 0 ∧ BIT_INDEX d = 0 := by simp only [BIT_INDEX, map_mini_size]; omega
  have hoff : BIT_OFFSET c = c ∧ BIT_OFFSET d = d := by
    simp only [BIT_OFFSET, map_mini_size]; omega
  simp only [Sb.testCluster, Sb.clearCluster, hword, hoff, update_self]
  by_cases hdc : d = c
  · subst hdc
    rw [if_pos rfl, test_clear_self]
  · rw [if_neg hdc, test_clear_other (by omega) (by omega) (Ne.symm hdc)]

theorem bitsSeparate : BitsSeparate M := by
  intro c d hc hd hne sb
  rw [test_setCluster hM hc.2 hd.2, test_clearCluster hM hc.2 hd.2]
  simp [Ne.symm hne]

/-- One turn of the retry loop keeps the agreement of every cluster but the one it returns, which it
found free. -/
theorem allocRetry_spec {fuel : Nat} {s sb' : Sb} {c : Nat} (hagree : Agree M s)
    (h : allocRetry M fuel s = .ok (sb', c)) : Agree M sb' ∧ s.fat_table c = FREE_MASK := by
  induction fuel generalizing s with
  | zero => cases h
  | succ fuel ih =>
    unfold allocRetry at h
    obtain ⟨⟨sb₁, r⟩, hr⟩ : ∃ x, fat32_bitmap_alloc M s (if s.hint_valid then s.nxt_free else 0) = x :=
      ⟨_, rfl⟩
    simp only [hr] at h
    have hspec := allocLoop_spec hr nofun
    by_cases hzero : r = 0
    · subst hzero
      rw [if_pos rfl] at h
      -- the reserved bit 0 may have been set on the way: no cluster's
      have hagree₁ : Agree M sb₁ := by
        rcases hspec with ⟨rfl, -⟩ | ⟨-, -, rfl⟩
        · exact hagree
        · intro d hd
          rw [test_setCluster hM (Nat.zero_le _) hd.2, if_neg (by have := hd.1; omega)]
          exact hagree d hd
      have htable : sb₁.fat_table = s.fat_table := by
        rcases hspec with ⟨rfl, -⟩ | ⟨-, -, rfl⟩ <;> rfl
      have hagree₂ : Agree M { sb₁ with nxt_free := if 0 + 1 ≥ M then 3 else 0 + 1, hint_valid := true } :=
        hagree₁
      obtain ⟨hagree', hfree⟩ := ih hagree₂ h
      exact ⟨hagree', by rw [← htable]; exact hfree⟩
    · rw [if_neg hzero] at h
      rcases hspec with ⟨-, hr0⟩ | ⟨hrM, hclear, hset⟩
      · exact absurd hr0 hzero
      subst hset
      simp only [fat32_fat_cache_set, bind, Except.bind] at h
      by_cases hcl : 2 ≤ r ∧ r ≤ M
      · simp only [if_pos hcl] at h
        cases h
        refine ⟨fun d hd => ?_, ?_⟩
        · show (s.setCluster c).testCluster d = true ↔ update s.fat_table c EOC d ≠ FREE_MASK
          rw [test_setCluster hM hrM hd.2]
          by_cases hdr : d = c
          · subst hdr
            simp [EOC, FREE_MASK]
          · rw [if_neg hdr, update_of_ne hdr]
            exact hagree d hd
        · by_contra hused
          rw [(hagree c hcl).mpr hused] at hclear
          cases hclear
      · simp only [if_neg hcl] at h
        cases h

theorem cluster_alloc_spec {fuel : Nat} {sb sb' : Sb} {c : Nat} (hagree : Agree M sb)
    (h : fat32_cluster_alloc M fuel sb = .ok (sb', c)) : Agree M sb' ∧ sb.fat_table c = FREE_MASK := by
  unfold fat32_cluster_alloc at h
  split at h
  · cases h
  · exact allocRetry_spec hM (s := { sb with free_count := sb.free_count - 1 }) hagree h

theorem truncCluster_spec {sb sb' : Sb} {c : Nat} (hagree : Agree M sb)
    (h : truncCluster M sb c = .ok sb') : Agree M sb' := by
  unfold truncCluster fat32_fat_cache_set at h
  by_cases hcl : 2 ≤ c ∧ c ≤ M
  · simp only [if_pos hcl, bind, Except.bind, fat32_bitmap_op_clear] at h
    split at h
    · cases h
    · next sb₁ hop =>
      split at hop
      · cases hop
        cases h
        intro d hd
        show (Sb.clearCluster _ c).testCluster d = true ↔ _
        rw [test_clearCluster hM hcl.2 hd.2]
        by_cases hdc : d = c
        · subst hdc
          simp [update_self]
        · simp only [if_neg hdc, Sb.clearCluster, update_of_ne hdc]
          exact hagree d hd
      · cases hop
  · simp only [if_neg hcl, bind, Except.bind] at h
    cases h

theorem clusterStep_agree {sb sb' : Sb} {e : ClusterEvent} (h : ClusterStep M sb e sb')
    (hagree : Agree M sb) : Agree M sb' := by
  cases e with
  | fat32_cluster_alloc fuel =>
    obtain ⟨c, hc⟩ := h
    exact (cluster_alloc_spec hM hagree hc).1
  | truncCluster cluster => exact truncCluster_spec hM hagree h

/-- What the scan has established when it reaches entry `c`. -/
structure Scanned (fats : Nat → BitVec 32) (c : Nat) (map_mini : BitVec 64) (sb : Sb) : Prop where
  bits : ∀ d, d < c → (TEST_BIT map_mini d = true ↔ fats d ≠ FREE_MASK)
  table : ∀ d, d < c → sb.fat_table d = fats d
  fresh : ∀ d, c ≤ d → sb.fat_table d = FREE_MASK

theorem initEntry_scanned {fats : Nat → BitVec 32} {c : Nat} {map_mini : BitVec 64} {sb : Sb}
    (hc : c ≤ M) (h : Scanned fats c map_mini sb) :
    Scanned fats (c + 1) (initEntry fats c map_mini sb).1 (initEntry fats c map_mini sb).2 := by
  have hoff : BIT_OFFSET c = c := by simp only [BIT_OFFSET, map_mini_size]; omega
  unfold initEntry
  split
  · next hused =>
    rw [hoff]
    refine ⟨fun d hd => ?_, fun d hd => ?_, fun d hd => ?_⟩
    · by_cases hdc : d = c
      · subst hdc
        simp only [test_set_self (show d < 64 by omega), true_iff]
        exact hused
      · show TEST_BIT (SET_BIT map_mini c) d = true ↔ _
        rw [test_set_other (by omega) (by omega) (Ne.symm hdc)]
        exact h.bits d (by omega)
    · show update sb.fat_table c (fats c) d = fats d
      by_cases hdc : d = c
      · subst hdc
        rw [update_self]
      · rw [update_of_ne hdc]
        exact h.table d (by omega)
    · show update sb.fat_table c (fats c) d = FREE_MASK
      rw [update_of_ne (by omega)]
      exact h.fresh d (by omega)
  · next hfree =>
    rw [not_not] at hfree
    rw [hoff]
    refine ⟨fun d hd => ?_, fun d hd => ?_, fun d hd => h.fresh d (by omega)⟩
    · by_cases hdc : d = c
      · subst hdc
        simp [test_clear_self, hfree]
      · show TEST_BIT (CLEAR_BIT map_mini c) d = true ↔ _
        rw [test_clear_other (by omega) (by omega) (Ne.symm hdc)]
        exact h.bits d (by omega)
    · by_cases hdc : d = c
      · -- a free entry is not copied: the table is zeroed when it is allocated
        subst hdc
        show sb.fat_table d = fats d
        rw [h.fresh d le_rfl, hfree]
      · exact h.table d (by omega)

/-- What the scan leaves: the bits and the table are those of the FAT. -/
structure Loaded (M : Nat) (fats : Nat → BitVec 32) (sb : Sb) : Prop where
  bits : ∀ d ≤ M, (sb.testCluster d = true ↔ fats d ≠ FREE_MASK)
  table : ∀ d ≤ M, sb.fat_table d = fats d

theorem initLoop_spec {fats : Nat → BitVec 32} {fuel c : Nat} {map_mini : BitVec 64} {sb : Sb}
    (hpos : 1 ≤ M) (hc : c ≤ M) (hfuel : M < c + fuel) (h : Scanned fats c map_mini sb) :
    ∃ sb', initLoop M fats fuel c map_mini sb = .ok sb' ∧ Loaded M fats sb' := by
  induction fuel generalizing c map_mini sb with
  | zero => omega
  | succ fuel ih =>
    have hsector : ¬ (c % FAT_PER_SECTOR = 0 ∧ ¬ c < M) := by
      simp only [FAT_PER_SECTOR]
      omega
    have hword : ¬ BIT_OFFSET c + 1 = map_mini_size := by
      simp only [BIT_OFFSET, map_mini_size]
      omega
    have hnext := initEntry_scanned hM hc h
    unfold initLoop
    rw [if_neg hsector]
    obtain ⟨⟨map_mini', sb₁⟩, hentry⟩ : ∃ x, initEntry fats c map_mini sb = x := ⟨_, rfl⟩
    rw [hentry] at hnext
    simp only [hentry, if_neg hword]
    by_cases hlast : c + 1 > M
    · rw [if_pos hlast]
      have hcM : c = M := by omega
      refine ⟨_, rfl, fun d hd => ?_, fun d hd => hnext.table d (by omega)⟩
      have hidx : BIT_INDEX c = 0 ∧ BIT_INDEX d = 0 ∧ BIT_OFFSET d = d := by
        simp only [BIT_INDEX, BIT_OFFSET, map_mini_size]
        omega
      simp only [Sb.testCluster, hidx, update_self]
      exact hnext.bits d (by omega)
    · rw [if_neg hlast]
      exact ih (by omega) (by omega) hnext

theorem fat_bitmap_init_spec (hpos : 1 ≤ M) (fats : Nat → BitVec 32) (free_count : BitVec 32)
    (nxt_free : Nat) :
    ∃ sb, fat32_fat_bitmap_init M fats free_count nxt_free = .ok sb ∧ Loaded M fats sb := by
  refine initLoop_spec hM hpos (Nat.zero_le M) (by omega) ⟨?_, ?_, ?_⟩
  · intro d hd
    omega
  · intro d hd
    omega
  · intro d _
    rfl

omit hM in
theorem Loaded.agree {fats : Nat → BitVec 32} {sb : Sb} (h : Loaded M fats sb) : Agree M sb := by
  intro d hd
  rw [h.table d hd.2]
  exact h.bits d hd.2

theorem bitmapLaw_of_le (hpos : 1 ≤ M) : BitmapLaw M := by
  refine ⟨bitsSeparate hM, fun fats free_count nxt_free => ?_⟩
  obtain ⟨sb, hinit, hloaded⟩ := fat_bitmap_init_spec hM hpos fats free_count nxt_free
  refine ⟨sb, hinit, fun es sb' hrun => ?_⟩
  have hagree' : Agree M sb' :=
    hrun.invariant (fun _ _ _ hag hstep => clusterStep_agree hM hstep hag) hloaded.agree
  exact ⟨hagree', fun fuel sb'' c halloc => (cluster_alloc_spec hM hagree' halloc).2⟩

end Small

/-! ## Larger volumes -/

theorem not_bitsSeparate {M : Nat} (hM : 34 ≤ M) : ¬ BitsSeparate M := by
  intro hsep
  have hset := (hsep 34 2 ⟨by omega, hM⟩ ⟨by omega, by omega⟩ (by omega)
    ⟨fun _ => 0, fun _ => 0, 0, 0, false⟩).1
  revert hset
  decide +kernel

/-- A FAT with two free clusters, 5 and 32. -/
def fatsFreeAt5And32 (c : Nat) : BitVec 32 := if c = 5 ∨ c = 32 then FREE_MASK else EOC

theorem alloc_takes_bit_of_32 {M : Nat} (hM : M = 32 ∨ M = 33) :
    ∃ sb sb' c, fat32_fat_bitmap_init M fatsFreeAt5And32 2 2 = .ok sb ∧
      fat32_cluster_alloc M 2 sb = .ok (sb', c) ∧
        sb'.testCluster 32 = true ∧ sb'.fat_table 32 = FREE_MASK := by
  rcases hM with rfl | rfl
  · exact ⟨_, _, _, rfl, rfl, by decide +kernel, by decide +kernel⟩
  · exact ⟨_, _, _, rfl, rfl, by decide +kernel, by decide +kernel⟩

theorem not_bitmapLaw_of_gt {M : Nat} (hM : 31 < M) : ¬ BitmapLaw M := by
  intro hlaw
  by_cases h34 : 34 ≤ M
  · exact not_bitsSeparate h34 hlaw.separate
  obtain ⟨sb, sb', c, hinit, halloc, hbit, hentry⟩ :=
    alloc_takes_bit_of_32 (show M = 32 ∨ M = 33 by omega)
  obtain ⟨sb₀, hinit₀, hruns⟩ := hlaw.runs fatsFreeAt5And32 2 2
  rw [hinit] at hinit₀
  cases hinit₀
  have hrun : Run (ClusterStep M) sb [.fat32_cluster_alloc 2] sb' := .cons ⟨c, halloc⟩ (.nil _)
  exact ((hruns _ _ hrun).1 32 ⟨by omega, by omega⟩).mp hbit hentry

/-- **The bitmap and the FAT agree on exactly the volumes whose last cluster is 1 to 31.** -/
theorem bitmap_law_iff (M : Nat) : BitmapLaw M ↔ 1 ≤ M ∧ M ≤ 31 := by
  constructor
  · intro hlaw
    refine ⟨?_, ?_⟩
    · -- without clusters the initialisation panics
      by_contra hM
      obtain rfl : M = 0 := by omega
      obtain ⟨sb, hinit, -⟩ := hlaw.runs (fun _ => FREE_MASK) 0 0
      cases hinit
    · by_contra hM
      exact not_bitmapLaw_of_gt (by omega) hlaw
  · intro hM
    exact bitmapLaw_of_le hM.2 hM.1

/-- A FAT with one free cluster, 34. -/
def fatsFreeAt34 (c : Nat) : BitVec 32 := if c = 34 then FREE_MASK else EOC

/-- Clearing the bit of 34 at initialisation clears that of cluster 2, the root directory, and the
first allocation returns it. -/
theorem root_cluster_allocated :
    ∃ sb sb', fat32_fat_bitmap_init 34 fatsFreeAt34 1 34 = .ok sb ∧
      sb.testCluster 2 = false ∧ sb.fat_table 2 = EOC ∧
        fat32_cluster_alloc 34 1 sb = .ok (sb', 2) :=
  ⟨_, _, rfl, by decide +kernel, by decide +kernel, rfl⟩

end LostWakeup.Fs.Fat32.Bitmap
