/-
# LostWakeup.Fs.Fat32.Trunc — `fat32_inode_trunc`: the clusters of a file that is deleted are freed.

The walk takes the next cluster from the index table and frees the current one in the FAT and in the bitmap.  It begins at
the first cluster of the directory entry, which is 0 for a file that has none.
-/
import LostWakeup.Fs.Fat32.ClusterAlloc
import LostWakeup.Fs.Fat32.IndexTable

namespace LostWakeup.Fs.Fat32.Trunc

open Library
open Fs.Fat32.Bitmap (Sb IsCluster FREE_MASK truncCluster fat32_cluster_alloc fat32_fat_cache_set BIT_INDEX BIT_OFFSET
  map_mini_size mask TEST_BIT SET_BIT CLEAR_BIT truncCluster_ok truncCluster_runs clearCluster_mono clearCluster_self)
open Fs.Fat32.IndexTable

/-! ## The code -/

/-- `ISEOF`. -/
def ISEOF (FATContent : Nat) : Prop := 0x0FFFFFF8 ≤ FATContent

instance isDecidableEof (FATContent : Nat) : Decidable (ISEOF FATContent) := inferInstanceAs (Decidable (_ ≤ _))

inductive Panic
  | table (e : IndexTable.Panic)
  | bitmap (e : Bitmap.Panic)
  /-- Not of the source: the walk has not ended within the given turns. -/
  | no_return
  deriving DecidableEq

/-- The table of an inode; what it panics with. -/
def ctl (ip : inode) (l_num cluster_num : Nat) : Except Panic (inode × Nat) :=
  (fat32_ctl_index_table ip l_num cluster_num).mapError .table

/-- The bitmap and the FAT in memory. -/
def onBitmap {α : Type} (r : Except Bitmap.Panic α) : Except Panic α := r.mapError .bitmap

section Volume

variable (FAT_CLUSTER_MAX : Nat)

/-- The walk of `fat32_inode_trunc`. -/
def truncLoop : Nat → Nat → Nat → inode → Sb → Except Panic (inode × Sb)
  | 0, _, _, _, _ => .error .no_return
  | fuel + 1, l_num, iter_c_n, ip, sb =>
    if ISEOF iter_c_n then .ok (ip, sb)
    else do
      let (ip, fat_next) ← ctl ip (l_num + 1) 0
      let sb ← onBitmap (truncCluster FAT_CLUSTER_MAX sb iter_c_n)
      truncLoop fuel (l_num + 1) fat_next ip sb

/-- `fat32_inode_trunc`.  The walk looks at one number more a turn, and the table has `MAX_INDEX_1` of them. -/
def fat32_inode_trunc (ip : inode) (sb : Sb) : Except Panic (inode × Sb) := do
  let (ip, sb) ← truncLoop FAT_CLUSTER_MAX (MAX_INDEX_1 + 1) 1 ip.cluster_start ip sb
  let ip := fat32_free_index_table ip
  return ({ ip with cluster_start := 0, cluster_end := 0, cluster_cnt := 0 },
    { sb with free_count := sb.free_count + BitVec.ofNat 32 ip.cluster_cnt })

/-- The loop of `fat32_cursor_to_offset`: `turns` clusters go behind `c_start`; `fuel` is for the search of each. -/
def growChain (fuel : Nat) : Nat → Nat → inode → Sb → Except Panic (inode × Sb × Nat)
  | 0, c_start, ip, sb => .ok (ip, sb, c_start)
  | turns + 1, c_start, ip, sb => do
    let (sb, fat_new) ← onBitmap (fat32_cluster_alloc FAT_CLUSTER_MAX fuel sb)
    let sb ← onBitmap (fat32_fat_cache_set FAT_CLUSTER_MAX sb c_start (BitVec.ofNat 32 fat_new))
    let (ip, _) ← ctl { ip with cluster_cnt := ip.cluster_cnt + 1, cluster_end := fat_new } (ip.cluster_cnt + 1) fat_new
    growChain fuel turns fat_new ip sb

/-- `fat32_cursor_to_offset`: the cluster of an offset. -/
def fat32_cursor_to_offset (fuel cluster_size : Nat) (ip : inode) (sb : Sb) (off : Nat) : Except Panic (inode × Sb × Nat) := do
  let C_NUM_off := off / cluster_size + 1
  let (ip, c_start) ← ctl ip C_NUM_off 0
  let c_start := if ISEOF c_start then ip.cluster_end else c_start
  growChain FAT_CLUSTER_MAX fuel (C_NUM_off - ip.cluster_cnt) c_start ip sb

/-! ## The property -/

/-- An inode whose table lists the clusters of its file, and these are in use. -/
structure Consistent (chain : List Nat) (ip : inode) (sb : Sb) : Prop where
  clusters : ∀ c ∈ chain, IsCluster FAT_CLUSTER_MAX c ∧ ¬ISEOF c
  used : ∀ c ∈ chain, sb.testCluster c = true
  nodup : chain.Nodup
  start : ip.cluster_start = chain.headD 0
  count : ip.cluster_cnt = chain.length
  table : ∀ l_num, 1 ≤ l_num → l_num ≤ MAX_INDEX_1 → ip.i_table.entry l_num = chain.getD (l_num - 1) 0

/-- Exactly the clusters of the file are freed. -/
structure Freed (chain : List Nat) (sb sb' : Sb) : Prop where
  fat : ∀ c, sb'.fat_table c = if c ∈ chain then FREE_MASK else sb.fat_table c
  bits : ∀ c ≤ FAT_CLUSTER_MAX, sb'.testCluster c = if c ∈ chain then false else sb.testCluster c

/-- What `fat32_inode_trunc` is to do; and a file with no first cluster gets one when it is written. -/
structure TruncLaw (cluster_size : Nat) (chain : List Nat) (ip : inode) (sb : Sb) : Prop where
  trunc : ∃ ip' sb', fat32_inode_trunc FAT_CLUSTER_MAX ip sb = .ok (ip', sb') ∧ Freed FAT_CLUSTER_MAX chain sb sb' ∧
    sb'.free_count = sb.free_count + BitVec.ofNat 32 chain.length ∧ ip'.i_table.NoPages
  write : ip.cluster_start = 0 → Bitmap.Returns FAT_CLUSTER_MAX sb → ∀ off < cluster_size, ∃ fuel r,
    fat32_cursor_to_offset FAT_CLUSTER_MAX fuel cluster_size ip sb off = .ok r

/-- The file has a first cluster and no more clusters than the table has numbers, none shares its bit with another
entry, and an index page behind an empty slot is reached. -/
structure Truncatable (chain : List Nat) (ip : inode) : Prop where
  first : chain ≠ []
  short : chain.length < MAX_INDEX_1
  alone : ∀ c ∈ chain, c % 64 < 32 ∧ FAT_CLUSTER_MAX < c + 32
  pages : ∀ i j, i < j → j < N_LEVEL_ONE → ip.i_table.indirect_one j ≠ none →
    ip.i_table.indirect_one i ≠ none ∨ MAX_INDEX_0 + OFFSET_LEVEL_1 * i ≤ chain.length

end Volume

/-! ## Masks of all positions -/

theorem mask_mod {p q : Nat} (h : p % 32 = q % 32) : mask p = mask q := by
  unfold mask int_shl_one
  rw [h]

/-- Two clusters whose bits are one. -/
def Twins (c d : Nat) : Prop := BIT_INDEX c = BIT_INDEX d ∧ c % 32 = d % 32

instance isDecidableTwins (c d : Nat) : Decidable (Twins c d) := inferInstanceAs (Decidable (_ ∧ _))

theorem offset_mod (c : Nat) : BIT_OFFSET c % 32 = c % 32 := by
  rw [BIT_OFFSET, map_mini_size]
  omega

theorem Twins.test_eq {c d : Nat} (h : Twins c d) (sb : Sb) : sb.testCluster c = sb.testCluster d := by
  have hmask : mask (BIT_OFFSET c) = mask (BIT_OFFSET d) := mask_mod (by rw [offset_mod, offset_mod, h.2])
  rw [Sb.testCluster, Sb.testCluster, h.1, TEST_BIT, TEST_BIT, hmask]

theorem test_clear_apart {p q : Nat} (h : p % 32 ≠ q % 32) (w : BitVec 64) : TEST_BIT (CLEAR_BIT w p) q = TEST_BIT w q := by
  have hp : mask p = mask (p % 32) := mask_mod (Nat.mod_mod p 32).symm
  have hq : mask q = mask (q % 32) := mask_mod (Nat.mod_mod q 32).symm
  have hlow := Bitmap.test_clear_other (Nat.mod_lt p (by decide)) (Nat.mod_lt q (by decide)) h w
  unfold TEST_BIT CLEAR_BIT at hlow ⊢
  rw [hp, hq]
  exact hlow

theorem test_clearCluster (sb : Sb) (c d : Nat) :
    (sb.clearCluster c).testCluster d = if Twins c d then false else sb.testCluster d := by
  split
  next htwin => rw [← htwin.test_eq, clearCluster_self]
  next hnot =>
    unfold Sb.testCluster Sb.clearCluster
    dsimp only
    rcases eq_or_ne (BIT_INDEX d) (BIT_INDEX c) with heq | hne
    · have hpos : BIT_OFFSET c % 32 ≠ BIT_OFFSET d % 32 := by
        rw [offset_mod, offset_mod]
        exact fun h => hnot ⟨heq.symm, h⟩
      rw [heq, Function.update_self, test_clear_apart hpos]
    · rw [Function.update_of_ne hne]

/-! ## Freeing the clusters of a chain -/

section

variable {M : Nat}

theorem truncCluster_test {sb sb' : Sb} {c : Nat} (h : truncCluster M sb c = .ok sb') (d : Nat) :
    sb'.testCluster d = (sb.clearCluster c).testCluster d := by
  unfold Sb.testCluster
  rw [(truncCluster_ok h).2.2.1]

theorem truncCluster_fat {sb sb' : Sb} {c : Nat} (h : truncCluster M sb c = .ok sb') (d : Nat) :
    sb'.fat_table d = if d = c then FREE_MASK else sb.fat_table d := by
  obtain ⟨hlo, hhi⟩ := (truncCluster_ok h).1
  unfold truncCluster fat32_fat_cache_set Bitmap.fat32_bitmap_op_clear at h
  rw [if_pos ⟨hlo, hhi⟩, ok_bind] at h
  split at h
  · rw [ok_bind, if_pos ⟨hlo, hhi⟩] at h
    cases h
    rcases eq_or_ne d c with rfl | hne
    · rw [if_pos rfl]
      exact Function.update_self ..
    · rw [if_neg hne]
      exact (Function.update_of_ne hne _ _).trans (Function.update_of_ne hne _ _)
  · cases h

theorem chain_runs {chain : List Nat} {sb : Sb} (hclusters : ∀ c ∈ chain, IsCluster M c) (hused : ∀ c ∈ chain, sb.testCluster c = true)
    (happart : chain.Pairwise fun c d => ¬Twins c d) : ∃ sb', chain.foldlM (truncCluster M) sb = .ok sb' := by
  induction chain generalizing sb with
  | nil => exact ⟨sb, rfl⟩
  | cons c chain ih =>
    obtain ⟨hhead, htail⟩ := List.pairwise_cons.mp happart
    obtain ⟨sb₁, h₁⟩ := truncCluster_runs (hclusters c List.mem_cons_self) (hused c List.mem_cons_self)
    rw [List.foldlM_cons, h₁, ok_bind]
    refine ih (fun d hd => hclusters d (List.mem_cons_of_mem c hd)) (fun d hd => ?_) htail
    rw [truncCluster_test h₁, test_clearCluster, if_neg (hhead d hd)]
    exact hused d (List.mem_cons_of_mem c hd)

theorem chain_used {chain : List Nat} {sb sb' : Sb} (h : chain.foldlM (truncCluster M) sb = .ok sb') {d : Nat} (hd : d ∈ chain) :
    sb.testCluster d = true := by
  induction chain generalizing sb with
  | nil => cases hd
  | cons c chain ih =>
    rw [List.foldlM_cons] at h
    obtain ⟨sb₁, h₁, h⟩ := ok_of_bind h
    rcases List.mem_cons.mp hd with rfl | hd
    · exact (truncCluster_ok h₁).2.1
    have hlater := ih h hd
    rw [truncCluster_test h₁, test_clearCluster] at hlater
    split at hlater
    · cases hlater
    · exact hlater

theorem chain_apart {chain : List Nat} {sb sb' : Sb} (h : chain.foldlM (truncCluster M) sb = .ok sb') :
    chain.Pairwise fun c d => ¬Twins c d := by
  induction chain generalizing sb with
  | nil => exact .nil
  | cons c chain ih =>
    rw [List.foldlM_cons] at h
    obtain ⟨sb₁, h₁, h⟩ := ok_of_bind h
    refine List.pairwise_cons.mpr ⟨fun d hd htwin => ?_, ih h⟩
    have hlater := chain_used h hd
    rw [truncCluster_test h₁, test_clearCluster, if_pos htwin] at hlater
    cases hlater

/-- What is free afterwards. -/
theorem chain_freed {chain : List Nat} {sb sb' : Sb} (h : chain.foldlM (truncCluster M) sb = .ok sb') :
    (∀ d, sb'.testCluster d = if ∃ c ∈ chain, Twins c d then false else sb.testCluster d) ∧
      (∀ d, sb'.fat_table d = if d ∈ chain then FREE_MASK else sb.fat_table d) ∧ sb'.free_count = sb.free_count := by
  induction chain generalizing sb with
  | nil =>
    cases h
    simp
  | cons c chain ih =>
    rw [List.foldlM_cons] at h
    obtain ⟨sb₁, h₁, h⟩ := ok_of_bind h
    obtain ⟨hbits, hfat, hcount⟩ := ih h
    refine ⟨fun d => ?_, fun d => ?_, hcount.trans (truncCluster_ok h₁).2.2.2.1⟩
    · rw [hbits d, truncCluster_test h₁, test_clearCluster]
      by_cases htail : ∃ c ∈ chain, Twins c d
      · have hall : ∃ c' ∈ c :: chain, Twins c' d := by
          obtain ⟨c', hc', ht⟩ := htail
          exact ⟨c', List.mem_cons_of_mem c hc', ht⟩
        rw [if_pos htail, if_pos hall]
      rw [if_neg htail]
      by_cases hhead : Twins c d
      · rw [if_pos hhead, if_pos ⟨c, List.mem_cons_self, hhead⟩]
      have hnone : ¬∃ c' ∈ c :: chain, Twins c' d := by
        rintro ⟨c', hc', ht⟩
        rcases List.mem_cons.mp hc' with rfl | hc'
        · exact hhead ht
        · exact htail ⟨c', hc', ht⟩
      rw [if_neg hhead, if_neg hnone]
    · rw [hfat d, truncCluster_fat h₁]
      rcases eq_or_ne d c with rfl | hne
      · simp
      · simp [hne]

end

/-! ## The walk -/

theorem ok_of_mapError {ε ε' α : Type} {r : Except ε α} {f : ε → ε'} {a : α} (h : r.mapError f = .ok a) : r = .ok a := by
  cases r with
  | error e => cases h
  | ok b =>
    cases h
    rfl

section

variable {M : Nat} {chain : List Nat}

/-- The table lists the chain. -/
def Lists (chain : List Nat) (t : index_table) : Prop :=
  ∀ l_num, 1 ≤ l_num → l_num ≤ MAX_INDEX_1 → t.entry l_num = chain.getD (l_num - 1) 0

/-- The slot `j` is looked at by a walk that goes on from the number `l_num`. -/
def Touched (chain : List Nat) (l_num j : Nat) : Prop :=
  ∃ l, l_num < l ∧ l ≤ chain.length + 1 ∧ MAX_INDEX_0 < l ∧ j = (l - 1 - MAX_INDEX_0) / OFFSET_LEVEL_1

/-- The cluster number `l_num` of the chain, or the end of it. -/
def cursor (chain : List Nat) (l_num : Nat) : Nat := INDEX_LOOKUP (chain.getD (l_num - 1) 0)

theorem cursor_of_lt {l_num : Nat} (hlo : 1 ≤ l_num) (hlt : l_num ≤ chain.length) (hclusters : ∀ c ∈ chain, IsCluster M c) :
    ∃ c, chain.drop (l_num - 1) = c :: chain.drop l_num ∧ cursor chain l_num = c ∧ c ∈ chain := by
  have hin : l_num - 1 < chain.length := by omega
  have hmem : chain[l_num - 1] ∈ chain := List.getElem_mem hin
  refine ⟨chain[l_num - 1], ?_, ?_, hmem⟩
  · rw [List.drop_eq_getElem_cons hin]
    congr 2
    omega
  have hne : chain[l_num - 1] ≠ 0 := by
    have hge := (hclusters _ hmem).1
    omega
  rw [cursor, List.getD_eq_getElem _ _ hin, INDEX_LOOKUP, if_neg hne]

theorem cursor_end {l_num : Nat} (hgt : chain.length < l_num) : cursor chain l_num = EOC := by
  rw [cursor, List.getD_eq_default _ _ (by omega)]
  rfl

theorem ctl_lookup {ip : inode} {l_num : Nat} (hlists : Lists chain ip.i_table) (hlo : 1 ≤ l_num) (hhi : l_num ≤ MAX_INDEX_1) :
    ∃ t, ctl ip l_num 0 = .ok ({ ip with i_table := t }, cursor chain l_num) ∧ Lists chain t ∧
      ∀ j, (t.indirect_one j).isNone = true ↔ (ip.i_table.indirect_one j).isNone = true ∧
        ¬(MAX_INDEX_0 < l_num ∧ j = (l_num - 1 - MAX_INDEX_0) / OFFSET_LEVEL_1) := by
  obtain ⟨t, hrun, hentry, hpages⟩ := ctl_spec ip 0 hlo hhi
  refine ⟨t, ?_, fun k hk hk' => ?_, hpages⟩
  · rw [ctl, hrun, if_pos rfl, hlists l_num hlo hhi]
    rfl
  · rw [hentry k hk, if_neg fun h => h.1 rfl]
    exact hlists k hk hk'

theorem ctl_panics {ip : inode} {l_num : Nat} (hgt : MAX_INDEX_1 < l_num) : ∃ e, ctl ip l_num 0 = .error e := by
  unfold ctl fat32_ctl_index_table
  have h0 : ¬l_num ≤ MAX_INDEX_0 := by
    have hle : MAX_INDEX_0 ≤ MAX_INDEX_1 := by decide
    omega
  dsimp only
  rw [if_neg h0, if_neg hgt.not_ge]
  split <;> exact ⟨_, rfl⟩

/-- From the number `l_num` on, the walk frees the rest of the chain, if it does not panic on the way. -/
theorem truncLoop_ok (hclusters : ∀ c ∈ chain, IsCluster M c ∧ ¬ISEOF c) {fuel l_num : Nat} {ip ip' : inode} {sb sb' : Sb}
    (hlo : 1 ≤ l_num) (hhi : l_num ≤ chain.length + 1) (hshort : l_num ≤ MAX_INDEX_1) (hlists : Lists chain ip.i_table)
    (h : truncLoop M fuel l_num (cursor chain l_num) ip sb = .ok (ip', sb')) :
    chain.length < MAX_INDEX_1 ∧ (chain.drop (l_num - 1)).foldlM (truncCluster M) sb = .ok sb' ∧
      ip'.cluster_cnt = ip.cluster_cnt ∧ ∀ j, (ip'.i_table.indirect_one j).isNone = true ↔
        (ip.i_table.indirect_one j).isNone = true ∧ ¬Touched chain l_num j := by
  induction fuel generalizing l_num ip sb with
  | zero => cases h
  | succ fuel ih =>
    rcases lt_or_ge chain.length l_num with hend | hin
    · -- behind the last cluster
      rw [truncLoop, cursor_end hend, if_pos (by decide)] at h
      cases h
      refine ⟨by omega, ?_, rfl, fun j => ?_⟩
      · rw [List.drop_eq_nil_of_le (by omega)]
        rfl
      have hnone : ¬Touched chain l_num j := by
        rintro ⟨l, hl, hl', -⟩
        omega
      exact ⟨fun hj => ⟨hj, hnone⟩, fun hj => hj.1⟩
    · obtain ⟨c, hdrop, hcursor, hmem⟩ := cursor_of_lt hlo hin fun c hc => (hclusters c hc).1
      rw [truncLoop, hcursor, if_neg (hclusters c hmem).2] at h
      obtain ⟨⟨ip₁, fat_next⟩, hctl, h⟩ := ok_of_bind h
      obtain ⟨sb₁, hsb, h⟩ := ok_of_bind h
      have hnext : l_num + 1 ≤ MAX_INDEX_1 := by
        by_contra hgt
        obtain ⟨e, he⟩ := @ctl_panics ip (l_num + 1) (by omega)
        rw [he] at hctl
        cases hctl
      obtain ⟨t, hlookup, hlists', hpages⟩ := ctl_lookup hlists (by omega) hnext
      rw [hlookup] at hctl
      cases hctl
      obtain ⟨hlen, hfold, hcnt, hslots⟩ := ih (by omega) (by omega) hnext hlists' h
      refine ⟨hlen, ?_, hcnt, fun j => ?_⟩
      · rw [hdrop, List.foldlM_cons, ok_of_mapError hsb, ok_bind]
        rw [Nat.add_sub_cancel] at hfold
        exact hfold
      rw [hslots j, hpages j, and_assoc]
      refine and_congr_right fun _ => ?_
      rw [← not_or, not_iff_not]
      constructor
      · rintro (⟨hl, hj⟩ | ⟨l, hl, hl', hrest⟩)
        · exact ⟨l_num + 1, by omega, by omega, hl, hj⟩
        · exact ⟨l, by omega, hl', hrest⟩
      rintro ⟨l, hl, hl', hgt, hj⟩
      rcases Nat.eq_or_lt_of_le hl with rfl | hlt
      · exact .inl ⟨hgt, hj⟩
      · exact .inr ⟨l, hlt, hl', hgt, hj⟩

theorem truncLoop_runs (hclusters : ∀ c ∈ chain, IsCluster M c ∧ ¬ISEOF c) {fuel l_num : Nat} {ip : inode} {sb sb' : Sb}
    (hlo : 1 ≤ l_num) (hhi : l_num ≤ chain.length + 1) (hshort : chain.length < MAX_INDEX_1) (hfuel : chain.length + 1 < l_num + fuel)
    (hlists : Lists chain ip.i_table) (hfold : (chain.drop (l_num - 1)).foldlM (truncCluster M) sb = .ok sb') :
    ∃ ip', truncLoop M fuel l_num (cursor chain l_num) ip sb = .ok (ip', sb') := by
  induction fuel generalizing l_num ip sb with
  | zero => omega
  | succ fuel ih =>
    rcases lt_or_ge chain.length l_num with hend | hin
    · rw [List.drop_eq_nil_of_le (by omega)] at hfold
      cases hfold
      exact ⟨ip, by rw [truncLoop, cursor_end hend, if_pos (by decide)]⟩
    obtain ⟨c, hdrop, hcursor, hmem⟩ := cursor_of_lt hlo hin fun c hc => (hclusters c hc).1
    rw [hdrop, List.foldlM_cons] at hfold
    obtain ⟨sb₁, hsb, hfold⟩ := ok_of_bind hfold
    obtain ⟨t, hlookup, hlists', -⟩ := @ctl_lookup chain ip (l_num + 1) hlists (by omega) (by omega)
    obtain ⟨ip', hrun⟩ := @ih (l_num + 1) { ip with i_table := t } sb₁ (by omega) (by omega) (by omega) hlists' hfold
    refine ⟨ip', ?_⟩
    rw [truncLoop, hcursor, if_neg (hclusters c hmem).2, hlookup, ok_bind, onBitmap, hsb]
    exact hrun

/-! ## The whole of `fat32_inode_trunc` -/

theorem free_keeps_cnt (ip : inode) : (fat32_free_index_table ip).cluster_cnt = ip.cluster_cnt := by
  unfold fat32_free_index_table
  split <;> rfl

theorem noPages_iff {ip : inode} (hcnt : ip.cluster_cnt ≠ 0) :
    (fat32_free_index_table ip).i_table.NoPages ↔ Packed Option.isNone N_LEVEL_ONE ip.i_table.indirect_one := by
  rw [← @clearFrom_empty_iff (Option (Nat → Nat)) Option.isNone none rfl N_LEVEL_ONE ip.i_table.indirect_one]
  unfold fat32_free_index_table
  rw [if_neg hcnt]
  simp only [isNone_iff]
  exact Iff.rfl

theorem touched_iff (chain : List Nat) (j : Nat) : Touched chain 1 j ↔ MAX_INDEX_0 + OFFSET_LEVEL_1 * j ≤ chain.length := by
  simp only [Touched, MAX_INDEX_0, N_DIRECT, OFFSET_LEVEL_1, N_INDIRECT]
  constructor
  · rintro ⟨l, -, hl, hgt, rfl⟩
    omega
  · intro hle
    exact ⟨13 + 1024 * j, by omega, by omega, by omega, by omega⟩

theorem Twins.symm {c d : Nat} (h : Twins c d) : Twins d c := ⟨h.1.symm, h.2.symm⟩

theorem alone_iff {M c : Nat} (hc : c ≤ M) : (∀ d ≤ M, d ≠ c → ¬Twins c d) ↔ c % 64 < 32 ∧ M < c + 32 := by
  simp only [Twins, BIT_INDEX, map_mini_size]
  constructor
  · intro hall
    rcases lt_or_ge (c % 64) 32 with hlow | hhigh
    · refine ⟨hlow, ?_⟩
      by_contra hle
      exact hall (c + 32) (by omega) (by omega) ⟨by omega, by omega⟩
    · exact absurd ⟨by omega, by omega⟩ (hall (c - 32) (by omega) (by omega))
  · rintro ⟨hlow, hlast⟩ d hd hne ⟨hword, hpos⟩
    omega

theorem Consistent.head {ip : inode} {sb : Sb} (h : Consistent M chain ip sb) (hne : chain ≠ []) : ip.cluster_start = cursor chain 1 := by
  cases chain with
  | nil => exact absurd rfl hne
  | cons c chain =>
    have hge := (h.clusters c List.mem_cons_self).1.1
    rw [h.start, cursor, Nat.sub_self, List.getD_cons_zero, INDEX_LOOKUP, if_neg (by omega)]
    rfl

theorem Consistent.cnt_ne_zero {ip : inode} {sb : Sb} (h : Consistent M chain ip sb) (hne : chain ≠ []) : ip.cluster_cnt ≠ 0 := by
  rw [h.count]
  exact fun hzero => hne (List.length_eq_zero_iff.mp hzero)

theorem trunc_nothing_panics {ip : inode} {sb : Sb} (hstart : ip.cluster_start = 0) (r : inode × Sb) :
    fat32_inode_trunc M ip sb ≠ .ok r := by
  intro h
  obtain ⟨⟨ip₁, sb₁⟩, hloop, -⟩ := ok_of_bind h
  rw [hstart, truncLoop, if_neg (by decide)] at hloop
  obtain ⟨⟨ip₂, fat_next⟩, _, hloop⟩ := ok_of_bind hloop
  obtain ⟨sb₂, hsb, _⟩ := ok_of_bind hloop
  exact absurd (truncCluster_ok (ok_of_mapError hsb)).1.1 (by decide)

/-- A file with no cluster cannot be written. -/
theorem write_nothing_panics {ip : inode} {sb : Sb} {fuel cluster_size off : Nat} (hcnt : ip.cluster_cnt = 0)
    (hend : ip.cluster_end = 0) (hentry : ip.i_table.entry (off / cluster_size + 1) = 0) (hoff : off / cluster_size + 1 ≤ MAX_INDEX_1)
    (r : inode × Sb × Nat) : fat32_cursor_to_offset M fuel cluster_size ip sb off ≠ .ok r := by
  intro h
  obtain ⟨t, hlookup, -⟩ := ctl_spec ip 0 (Nat.succ_pos (off / cluster_size)) hoff
  obtain ⟨⟨ip₁, c_start⟩, hctl, h⟩ := ok_of_bind h
  have hret := ok_of_mapError hctl
  rw [hlookup, if_pos rfl, hentry] at hret
  cases hret
  dsimp only at h
  have heof : ISEOF (INDEX_LOOKUP 0) := by decide
  rw [if_pos heof, hcnt, hend, Nat.sub_zero, growChain] at h
  obtain ⟨⟨sb₁, fat_new⟩, -, h⟩ := ok_of_bind h
  obtain ⟨sb₂, hset, -⟩ := ok_of_bind h
  have hset := ok_of_mapError hset
  unfold fat32_fat_cache_set at hset
  rw [if_neg fun hc => absurd hc.1 (by decide)] at hset
  cases hset

/-- **What is freed with a file**: exactly its clusters, if and only if it has some, the table has room to look behind the
last, and no cluster shares its bit. -/
theorem trunc_law_iff {ip : inode} {sb : Sb} (cluster_size : Nat) (hcons : Consistent M chain ip sb) :
    TruncLaw M cluster_size chain ip sb ↔ Truncatable M chain ip := by
  have hlists : Lists chain ip.i_table := hcons.table
  constructor
  · rintro ⟨⟨ip', sb', htrunc, hfreed, -, hpages⟩, -⟩
    have hne : chain ≠ [] := by
      rintro rfl
      exact trunc_nothing_panics hcons.start _ htrunc
    obtain ⟨⟨ip₁, sb₁⟩, hloop, hret⟩ := ok_of_bind htrunc
    cases hret
    rw [hcons.head hne] at hloop
    obtain ⟨hshort, hfold, hcnt, hslots⟩ :=
      truncLoop_ok hcons.clusters (Nat.le_refl 1) (by omega) (by decide) hlists hloop
    rw [Nat.sub_self, List.drop_zero] at hfold
    have hapart := chain_apart hfold
    obtain ⟨hbits, -⟩ := chain_freed hfold
    refine ⟨hne, hshort, fun c hc => ?_, fun i j hij hj hpage => ?_⟩
    · apply (alone_iff (hcons.clusters c hc).1.2).mp
      intro d hd hdc htwin
      by_cases hmem : d ∈ chain
      · have hsymm : Std.Symm fun c d : Nat => ¬Twins c d := ⟨fun _ _ h h' => h h'.symm⟩
        exact hapart.forall hc hmem (Ne.symm hdc) htwin
      have hlaw : sb₁.testCluster d = if d ∈ chain then false else sb.testCluster d := hfreed.bits d hd
      have hused : sb.testCluster d = true := (htwin.test_eq sb).symm.trans (hcons.used c hc)
      rw [if_neg hmem, hused, hbits d, if_pos ⟨c, hc, htwin⟩] at hlaw
      cases hlaw
    · have hpacked := (noPages_iff (by rw [hcnt]; exact hcons.cnt_ne_zero hne)).mp hpages
      have hfull : (ip₁.i_table.indirect_one j).isNone ≠ true := fun h => hpage ((isNone_iff _).mp ((hslots j).mp h).1)
      have hi : ¬(ip₁.i_table.indirect_one i).isNone = true := fun h => hfull (hpacked i j hij hj h)
      rw [hslots i, not_and_not_right] at hi
      rw [← touched_iff, or_iff_not_imp_left, not_not]
      exact fun hnone => hi ((isNone_iff _).mpr hnone)
  · rintro ⟨hne, hshort, halone, hpages⟩
    have happart : chain.Pairwise fun c d => ¬Twins c d := by
      refine List.Pairwise.imp_of_mem ?_ hcons.nodup
      intro c d hc hd hcd
      exact (alone_iff (hcons.clusters c hc).1.2).mpr (halone c hc) d (hcons.clusters d hd).1.2 (Ne.symm hcd)
    obtain ⟨sb₁, hfold⟩ := chain_runs (fun c hc => (hcons.clusters c hc).1) hcons.used happart
    obtain ⟨ip₁, hloop⟩ := @truncLoop_runs M chain hcons.clusters (MAX_INDEX_1 + 1) 1 ip sb sb₁ (Nat.le_refl 1) (by omega)
      hshort (by omega) hlists hfold
    obtain ⟨-, -, hcnt, hslots⟩ := truncLoop_ok hcons.clusters (Nat.le_refl 1) (by omega) (by decide) hlists hloop
    obtain ⟨hbits, hfat, hcount⟩ := chain_freed hfold
    have htrunc : fat32_inode_trunc M ip sb =
        .ok ({ fat32_free_index_table ip₁ with cluster_start := 0, cluster_end := 0, cluster_cnt := 0 },
          { sb₁ with free_count := sb₁.free_count + BitVec.ofNat 32 (fat32_free_index_table ip₁).cluster_cnt }) := by
      rw [fat32_inode_trunc, hcons.head hne, hloop, ok_bind]
      rfl
    refine ⟨⟨_, _, htrunc, ⟨hfat, fun d hd => ?_⟩, ?_, ?_⟩, fun hstart => ?_⟩
    · show sb₁.testCluster d = _
      rw [hbits d]
      by_cases hmem : d ∈ chain
      · rw [if_pos hmem, if_pos ⟨d, hmem, rfl, rfl⟩]
      have hnone : ¬∃ c ∈ chain, Twins c d := by
        rintro ⟨c, hc, htwin⟩
        have hdc : d ≠ c := by
          rintro rfl
          exact hmem hc
        exact (alone_iff (hcons.clusters c hc).1.2).mpr (halone c hc) d hd hdc htwin
      rw [if_neg hmem, if_neg hnone]
    · dsimp only
      rw [free_keeps_cnt, hcnt, hcons.count, hcount]
    · show (fat32_free_index_table ip₁).i_table.NoPages
      rw [noPages_iff (by rw [hcnt]; exact hcons.cnt_ne_zero hne)]
      intro i j hij hj hi
      obtain ⟨hnone, huntouched⟩ := (hslots i).mp hi
      rw [touched_iff] at huntouched
      refine (hslots j).mpr ⟨?_, ?_⟩
      · by_contra hfull
        rcases hpages i j hij hj (fun h => hfull ((isNone_iff _).mpr h)) with hsome | hle
        · exact hsome ((isNone_iff _).mp hnone)
        · exact huntouched hle
      · rw [touched_iff]
        intro hle
        exact huntouched (Nat.le_trans (Nat.add_le_add_left (Nat.mul_le_mul_left _ hij.le) _) hle)
    · have hhead := hcons.head hne
      obtain ⟨c, -, hcursor, hmem⟩ := @cursor_of_lt M chain 1 (Nat.le_refl 1) (List.length_pos_of_ne_nil hne)
        fun c hc => (hcons.clusters c hc).1
      have hge := (hcons.clusters c hmem).1.1
      rw [hstart, hcursor] at hhead
      omega

end

/-- A file with the one cluster 3. -/
def ofCluster3 : inode := ⟨3, 3, 1, ⟨fun idx => if idx = 0 then 3 else 0, fun _ => none⟩⟩

/-- All entries are used. -/
def fullVolume : Sb := ⟨fun _ => 0xFFFFFFFF, fun _ => Bitmap.EOC, 0, 0, false⟩

theorem ofCluster3_consistent : Consistent 5 [3] ofCluster3 fullVolume := by
  refine ⟨fun c hc => ?_, fun c hc => ?_, List.nodup_singleton 3, rfl, rfl, fun l_num hlo hhi => ?_⟩
  · obtain rfl := List.mem_singleton.mp hc
    exact ⟨⟨by decide, by decide⟩, by decide⟩
  · obtain rfl := List.mem_singleton.mp hc
    decide
  · rcases Nat.eq_or_lt_of_le hlo with rfl | hlt
    · rfl
    rw [List.getD_eq_default _ _ (by rw [List.length_singleton]; omega)]
    unfold index_table.entry ofCluster3
    split
    · exact if_neg (by omega)
    · rfl

theorem trunc_law_iff_one : TruncLaw 5 512 [3] ofCluster3 fullVolume ↔ Truncatable 5 [3] ofCluster3 :=
  trunc_law_iff 512 ofCluster3_consistent

/-- An inode without clusters: a device, or an empty file of another system. -/
def ofNothing : inode := ⟨0, 0, 0, ⟨fun _ => 0, fun _ => none⟩⟩

/-- The clusters are free, the reserved entries are not. -/
def emptyVolume : Sb := ⟨fun _ => 3, fun _ => FREE_MASK, 4, 0, false⟩

theorem ofNothing_consistent : Consistent 5 [] ofNothing emptyVolume := by
  refine ⟨?_, ?_, List.nodup_nil, rfl, rfl, fun l_num hlo hhi => ?_⟩
  · intro c hc
    cases hc
  · intro c hc
    cases hc
  · unfold index_table.entry ofNothing
    split <;> rfl

/-- The walk begins at cluster 0, and so does a write, on a volume with free clusters. -/
theorem no_first_cluster_panics : Consistent 5 [] ofNothing emptyVolume ∧ ¬TruncLaw 5 512 [] ofNothing emptyVolume ∧
    Bitmap.Returns 5 emptyVolume ∧ ∀ fuel off r, off < 512 → fat32_cursor_to_offset 5 fuel 512 ofNothing emptyVolume off ≠ .ok r := by
  refine ⟨ofNothing_consistent, fun hlaw => ?_, ⟨1, _, 2, rfl, by decide⟩, fun fuel off r hoff => ?_⟩
  · obtain ⟨ip', sb', htrunc, -⟩ := hlaw.trunc
    exact trunc_nothing_panics rfl _ htrunc
  have hfirst : off / 512 = 0 := Nat.div_eq_of_lt hoff
  refine write_nothing_panics rfl rfl ?_ ?_ r
  · rw [hfirst]
    rfl
  · rw [hfirst]
    decide

end LostWakeup.Fs.Fat32.Trunc
