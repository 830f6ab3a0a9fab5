/-
# LostWakeup.Fs.Fat32.BlockMap — `fat32_get_block` and `block_full_pages`: from pages of a file to sectors of the disk.

The clusters of the range are walked with the index table, and a cluster that lies on the disk right behind the last
vector is added to it.  A vector whose `blockno_start` is 0 is a new one: no cluster lies at sector 0.

Sector numbers are `uint`s; the `int first_sector` holds the same bits.
-/
import LostWakeup.Fs.Fat32.Trunc

namespace LostWakeup.Fs.Fat32.BlockMap

open Library
open Fs.Fat32.Bitmap (Sb IsCluster)
open Fs.Fat32.IndexTable
open Fs.Fat32.Trunc (ISEOF ctl growChain fat32_cursor_to_offset Lists cursor cursor_of_lt ctl_lookup)
open List (flatMap_cons length_range' range')

/-! ## The volume -/

def PGSIZE : Nat := 4096

/-- The fields of the super block that say where the clusters are, on a disk that they fit. -/
structure Volume where
  sector_size : Nat
  sectors_per_block : Nat
  fatbase : Nat
  n_fats : Nat
  n_sectors_fat : Nat
  n_sectors : Nat
  sector_dvd : sector_size ∣ PGSIZE
  block_pos : 0 < sectors_per_block
  block_lt : sectors_per_block < 2 ^ 8
  /-- The boot sector. -/
  reserved : 0 < fatbase
  regions_le : fatbase + n_fats * n_sectors_fat ≤ n_sectors
  n_sectors_lt : n_sectors < 2 ^ 32

namespace Volume

variable (v : Volume)

def RootDirSectors : Nat := (0 * 32 + (v.sector_size - 1)) / v.sector_size

def FirstDataSector : Nat := v.fatbase + v.n_fats * v.n_sectors_fat + v.RootDirSectors

def FirstSectorofCluster (N : Nat) : Nat := ((N + (2 ^ 32 - 2)) * v.sectors_per_block + v.FirstDataSector) % 2 ^ 32

def DataSec : Nat := v.n_sectors - v.FirstDataSector

def CountofClusters : Nat := v.DataSec / v.sectors_per_block

def FAT_CLUSTER_MAX : Nat := v.CountofClusters + 1

def cluster_size : Nat := v.sector_size * v.sectors_per_block

def LOGISTIC_C_NUM (off : Nat) : Nat := off / v.cluster_size

def LOGISTIC_S_NUM (off : Nat) : Nat := off % v.cluster_size / v.sector_size

def LOGISTIC_S_OFFSET (off : Nat) : Nat := off % v.cluster_size % v.sector_size

end Volume

/-! ## The code -/

structure bio_vec where
  blockno_start : Nat
  block_len : Nat
  data : Nat
  deriving DecidableEq

inductive Panic
  | cluster (e : Trunc.Panic)
  | get_block_assert
  | full_pages_assert
  /-- Not of the source: the walk has not ended within the given turns. -/
  | no_return
  deriving DecidableEq

def onCluster {α : Type} (r : Except Trunc.Panic α) : Except Panic α := r.mapError .cluster

def CLUSTER_ADJACENT (vec_cur : bio_vec) (first_sector : Nat) : Prop :=
  (vec_cur.blockno_start + vec_cur.block_len) % 2 ^ 32 = first_sector

instance decidableAdjacent (vec_cur : bio_vec) (first_sector : Nat) : Decidable (CLUSTER_ADJACENT vec_cur first_sector) :=
  inferInstanceAs (Decidable (_ = _))

/-- What the walk keeps from turn to turn; the vectors before the last one are in `vecs`. -/
structure Walk where
  ip : inode
  sb : Sb
  iter_c_n : Nat
  l_num : Nat
  init_s_n : Nat
  cur_s_n : Nat
  vecs : List bio_vec
  vec_cur : Option bio_vec

/-- The vectors on the list of the bio. -/
def Walk.list (w : Walk) : List bio_vec := w.vecs ++ w.vec_cur.toList

/-- The vector for the next blocks: the last one, or a new one from `kzalloc` behind it. -/
def Walk.next (w : Walk) (first_sector : Nat) : List bio_vec × bio_vec :=
  match w.vec_cur with
  | none => (w.vecs, ⟨0, 0, 0⟩)
  | some vec => if CLUSTER_ADJACENT vec first_sector then (w.vecs, vec) else (w.vecs ++ [vec], ⟨0, 0, 0⟩)

/-- `blocks_n` blocks go into a vector. -/
def fill (vec_cur : bio_vec) (first_sector init_s_n blocks_n : Nat) : bio_vec :=
  if vec_cur.blockno_start = 0 then
    { vec_cur with blockno_start := (first_sector + init_s_n) % 2 ^ 32, block_len := blocks_n }
  else { vec_cur with block_len := (vec_cur.block_len + blocks_n) % 2 ^ 32 }

section Code

variable (v : Volume) (fuel : Nat)

/-- The cluster behind `iter_c_n`; a new one, if there is none and `alloc` is set. -/
def nextCluster (alloc : Bool) (w : Walk) : Except Trunc.Panic (inode × Sb × Nat) := do
  let (ip, next) ← ctl w.ip (w.l_num + 1) 0
  if alloc = true ∧ ISEOF next then growChain v.FAT_CLUSTER_MAX fuel 1 w.iter_c_n ip w.sb
  else return (ip, w.sb, next)

/-- The blocks of one cluster. -/
def takeBlocks (tot_s_n : Nat) (w : Walk) : Walk :=
  let first_sector := v.FirstSectorofCluster w.iter_c_n
  let (vecs, vec_cur) := w.next first_sector
  let blocks_n := min (v.sectors_per_block - w.init_s_n) (tot_s_n - w.cur_s_n)
  { w with
    vecs := vecs, vec_cur := some (fill vec_cur first_sector w.init_s_n blocks_n), cur_s_n := w.cur_s_n + blocks_n }

/-- The loop of `fat32_get_block`. -/
def blockLoop (alloc : Bool) (tot_s_n : Nat) : Nat → Walk → Except Panic Walk
  | 0, _ => .error .no_return
  | turns + 1, w =>
    if ISEOF w.iter_c_n ∨ tot_s_n ≤ w.cur_s_n then .ok w
    else
      let w := takeBlocks v tot_s_n w
      if w.cur_s_n = tot_s_n then .ok w
      else do
        let (ip, sb, iter_c_n) ← onCluster (nextCluster v fuel alloc w)
        blockLoop alloc tot_s_n turns { w with ip := ip, sb := sb, iter_c_n := iter_c_n, l_num := w.l_num + 1, init_s_n := 0 }

/-- `CEIL_DIVIDE`, of `uint`s. -/
def CEIL_DIVIDE (x y : Nat) : Nat := (x + y - 1) % 2 ^ 32 / y

/-- `fat32_get_block`, for a bio without vectors. -/
def fat32_get_block (ip : inode) (sb : Sb) (off n : Nat) (alloc : Bool) : Except Panic Walk :=
  if off % PGSIZE ≠ 0 ∨ n % v.sector_size ≠ 0 ∨ n = 0 then .error .get_block_assert
  else do
    let (ip, sb, iter_c_n) ← onCluster (fat32_cursor_to_offset v.FAT_CLUSTER_MAX fuel v.cluster_size ip sb off)
    if v.LOGISTIC_S_OFFSET off ≠ 0 then .error .get_block_assert
    let tot_s_n := CEIL_DIVIDE n v.sector_size
    blockLoop v fuel alloc tot_s_n (tot_s_n + 1) ⟨ip, sb, iter_c_n, v.LOGISTIC_C_NUM off + 1, v.LOGISTIC_S_NUM off, 0, [], none⟩

/-- The loop of `block_full_pages` that sets the data pointers. -/
def setData (bsize : Nat) : Nat → List bio_vec → List bio_vec
  | _, [] => []
  | src, vec_cur :: rest =>
    { vec_cur with data := src } :: setData bsize (src + vec_cur.block_len * bsize % 2 ^ 32) rest

def block_full_pages (ip : inode) (sb : Sb) (src index cnt : Nat) (alloc : Bool) : Except Panic (inode × Sb × List bio_vec) := do
  let off := index * PGSIZE % 2 ^ 32
  let n := cnt * PGSIZE % 2 ^ 32
  let w ← fat32_get_block v fuel ip sb off n alloc
  if alloc = true ∧ w.cur_s_n * v.sector_size % 2 ^ 32 ≠ n then .error .full_pages_assert
  return (w.ip, w.sb, setData v.sector_size src w.list)

end Code

/-! ## The property -/

/-- The sectors of a vector. -/
def bio_vec.sectors (vec : bio_vec) : List Nat := range' vec.blockno_start vec.block_len

/-- The sectors of the vectors before another one. -/
def total (vecs : List bio_vec) : Nat := (vecs.map bio_vec.block_len).sum

/-- The sector of the disk that holds sector `s` of a file. -/
def sectorOf (v : Volume) (chain : List Nat) (s : Nat) : Nat :=
  v.FirstDataSector + (chain.getD (s / v.sectors_per_block) 0 - 2) * v.sectors_per_block + s % v.sectors_per_block

/-- The vectors for the bytes `[off, off + n)` of a file whose pages are at `src`. -/
structure Mapped (v : Volume) (chain : List Nat) (off n src : Nat) (vecs : List bio_vec) : Prop where
  /-- The sectors of the range, each once and in the order of the file. -/
  sectors : vecs.flatMap bio_vec.sectors =
    (range' (off / v.sector_size) (n / v.sector_size)).map (sectorOf v chain)
  data : ∀ pre vec post, vecs = pre ++ vec :: post → vec.data = src + v.sector_size * total pre
  /-- Two clusters in one vector lie side by side. -/
  merged : ∀ pre vec post, vecs = pre ++ vec :: post → ∀ j, j + 1 < vec.block_len →
    ∀ l, (off / v.sector_size + total pre + j) / v.sectors_per_block = l →
      (off / v.sector_size + total pre + j + 1) / v.sectors_per_block = l + 1 →
      v.FirstSectorofCluster (chain.getD (l + 1) 0) = v.FirstSectorofCluster (chain.getD l 0) + v.sectors_per_block

/-- The index table lists the clusters of the file. -/
structure Listed (v : Volume) (chain : List Nat) (ip : inode) : Prop where
  clusters : ∀ c ∈ chain, IsCluster v.FAT_CLUSTER_MAX c ∧ ¬ISEOF c
  count : ip.cluster_cnt = chain.length
  short : chain.length ≤ MAX_INDEX_1
  table : Lists chain ip.i_table

/-! ## Sector numbers -/

namespace Volume

variable (v : Volume)

theorem sector_pos : 0 < v.sector_size := Nat.pos_of_dvd_of_pos v.sector_dvd (by decide)

theorem rootDirSectors_eq : v.RootDirSectors = 0 := by
  have hpos := v.sector_pos
  rw [RootDirSectors]
  exact Nat.div_eq_of_lt (by omega)

theorem first_pos : 0 < v.FirstDataSector := by
  have hres := v.reserved
  rw [FirstDataSector]
  omega

theorem first_le : v.FirstDataSector ≤ v.n_sectors := by
  have hle := v.regions_le
  rw [FirstDataSector, v.rootDirSectors_eq]
  omega

theorem first_of_cluster {c : Nat} (hc : IsCluster v.FAT_CLUSTER_MAX c) :
    v.FirstSectorofCluster c = v.FirstDataSector + (c - 2) * v.sectors_per_block ∧
      v.FirstDataSector + (c - 2) * v.sectors_per_block + v.sectors_per_block ≤ v.n_sectors := by
  obtain ⟨hlo, hhi⟩ := hc
  have hmul : (c - 2) * v.sectors_per_block + v.sectors_per_block ≤ v.DataSec := by
    have hle : (c - 2 + 1) * v.sectors_per_block ≤ v.CountofClusters * v.sectors_per_block := by
      apply Nat.mul_le_mul_right
      rw [FAT_CLUSTER_MAX] at hhi
      omega
    rw [← Nat.succ_mul]
    exact hle.trans (Nat.div_mul_le_self _ _)
  have hfirst := v.first_le
  have hlt := v.n_sectors_lt
  rw [DataSec] at hmul
  refine ⟨?_, by omega⟩
  have hshift : c + (2 ^ 32 - 2) = c - 2 + 2 ^ 32 := by omega
  rw [FirstSectorofCluster, hshift, Nat.add_mul]
  omega

end Volume

section

variable {v : Volume} {chain : List Nat} {S tot_s_n : Nat}

theorem cluster_at (hclusters : ∀ c ∈ chain, IsCluster v.FAT_CLUSTER_MAX c ∧ ¬ISEOF c) {l : Nat} (hl : l < chain.length) :
    chain.getD l 0 ∈ chain ∧ cursor chain (l + 1) = chain.getD l 0 := by
  obtain ⟨c, -, hcursor, hc⟩ := @cursor_of_lt v.FAT_CLUSTER_MAX chain (l + 1) (by omega) hl fun c hc => (hclusters c hc).1
  have hget : chain.getD l 0 = chain[l] := List.getD_eq_getElem _ _ hl
  refine ⟨hget ▸ List.getElem_mem hl, ?_⟩
  have hne : chain.getD l 0 ≠ 0 := by
    have hge := (hclusters _ (List.getElem_mem hl)).1.1
    rw [hget]
    omega
  rw [cursor, Nat.add_sub_cancel, INDEX_LOOKUP, if_neg hne]

theorem same_cluster {s k : Nat} (hk : s % v.sectors_per_block + k < v.sectors_per_block) :
    (s + k) / v.sectors_per_block = s / v.sectors_per_block ∧
      (s + k) % v.sectors_per_block = s % v.sectors_per_block + k := by
  have hs : s + k = s % v.sectors_per_block + k + v.sectors_per_block * (s / v.sectors_per_block) := by
    have hdm := Nat.mod_add_div s v.sectors_per_block
    omega
  rw [hs, Nat.add_mul_div_left _ _ v.block_pos, Nat.div_eq_of_lt hk, Nat.zero_add, Nat.add_mul_mod_self_left,
    Nat.mod_eq_of_lt hk]
  exact ⟨rfl, rfl⟩

theorem sectorOf_same {s k : Nat} (hk : s % v.sectors_per_block + k < v.sectors_per_block) :
    sectorOf v chain (s + k) = sectorOf v chain s + k := by
  obtain ⟨hdiv, hmod⟩ := same_cluster hk
  rw [sectorOf, sectorOf, hdiv, hmod]
  omega

theorem map_range_consecutive {f : Nat → Nat} {a b n : Nat} (h : ∀ k < n, f (a + k) = b + k) :
    (range' a n).map f = range' b n := by
  apply List.ext_getElem
  · simp
  intro k hk hk'
  rw [List.length_map, length_range'] at hk
  simp only [List.getElem_map, List.getElem_range', Nat.one_mul]
  exact h k hk

/-! ## One turn -/

/-- The state of the walk before a turn: the sectors before `S + cur_s_n` are in the vectors. -/
structure Walking (v : Volume) (chain : List Nat) (S tot_s_n : Nat) (w : Walk) : Prop where
  table : Lists chain w.ip.i_table
  iter : w.iter_c_n = cursor chain w.l_num
  l_num : w.l_num = (S + w.cur_s_n) / v.sectors_per_block + 1
  init : w.init_s_n = (S + w.cur_s_n) % v.sectors_per_block
  lt : w.cur_s_n < tot_s_n
  sectors : w.list.flatMap bio_vec.sectors = (range' S w.cur_s_n).map (sectorOf v chain)
  last : ∀ vec, w.vec_cur = some vec → w.init_s_n = 0 ∧ 0 < vec.blockno_start ∧ vec.blockno_start + vec.block_len ≤ v.n_sectors

/-- The blocks go behind what the vectors hold, in a vector of their own or in the last one. -/
theorem fill_next {w : Walk} {first blocks_n : Nat} (hpos : 0 < first) (hend : first + w.init_s_n + blocks_n ≤ v.n_sectors)
    (hlast : ∀ vec, w.vec_cur = some vec → w.init_s_n = 0 ∧ 0 < vec.blockno_start ∧ vec.blockno_start + vec.block_len ≤ v.n_sectors) :
    ((w.next first).1 ++ [fill (w.next first).2 first w.init_s_n blocks_n]).flatMap bio_vec.sectors =
        w.list.flatMap bio_vec.sectors ++ range' (first + w.init_s_n) blocks_n ∧
      0 < (fill (w.next first).2 first w.init_s_n blocks_n).blockno_start ∧
      (fill (w.next first).2 first w.init_s_n blocks_n).blockno_start +
        (fill (w.next first).2 first w.init_s_n blocks_n).block_len ≤ v.n_sectors := by
  have hlt := v.n_sectors_lt
  have hmod : (first + w.init_s_n) % 2 ^ 32 = first + w.init_s_n := Nat.mod_eq_of_lt (by omega)
  have hnew : fill ⟨0, 0, 0⟩ first w.init_s_n blocks_n = ⟨first + w.init_s_n, blocks_n, 0⟩ := by
    rw [fill, if_pos rfl, hmod]
  unfold Walk.next Walk.list
  cases hcur : w.vec_cur with
  | none =>
    dsimp only
    rw [hnew]
    refine ⟨?_, ?_, hend⟩
    · simp [bio_vec.sectors]
    · dsimp only
      omega
  | some vec =>
    obtain ⟨hinit, hvpos, hvend⟩ := hlast vec hcur
    dsimp only
    split
    next hadj =>
      -- the cluster begins where the vector ends
      rw [CLUSTER_ADJACENT, Nat.mod_eq_of_lt (by omega)] at hadj
      rw [hinit, Nat.add_zero] at hend ⊢
      have hlen : (vec.block_len + blocks_n) % 2 ^ 32 = vec.block_len + blocks_n := Nat.mod_eq_of_lt (by omega)
      have hfill : fill vec first 0 blocks_n = { vec with block_len := vec.block_len + blocks_n } := by
        rw [fill, if_neg hvpos.ne', hlen]
      rw [hfill]
      refine ⟨?_, hvpos, ?_⟩
      · rw [List.flatMap_append, List.flatMap_append, List.append_assoc]
        congr 1
        simp only [Option.toList_some, flatMap_cons, List.flatMap_nil, List.append_nil, bio_vec.sectors]
        rw [← hadj, List.range'_append_1]
      · dsimp only
        omega
    next hapart =>
      rw [hnew]
      refine ⟨?_, ?_, hend⟩
      · simp [bio_vec.sectors]
      · dsimp only
        omega

/-- A turn takes the rest of the cluster, or all that is still wanted. -/
theorem takeBlocks_spec (hclusters : ∀ c ∈ chain, IsCluster v.FAT_CLUSTER_MAX c ∧ ¬ISEOF c)
    (hchain : S + tot_s_n ≤ chain.length * v.sectors_per_block) {w : Walk} (h : Walking v chain S tot_s_n w) :
    ∃ blocks_n, 0 < blocks_n ∧ takeBlocks v tot_s_n w = { w with
        vecs := (takeBlocks v tot_s_n w).vecs, vec_cur := (takeBlocks v tot_s_n w).vec_cur, cur_s_n := w.cur_s_n + blocks_n } ∧
      w.cur_s_n + blocks_n ≤ tot_s_n ∧
      (w.cur_s_n + blocks_n < tot_s_n → blocks_n = v.sectors_per_block - w.init_s_n) ∧
      (takeBlocks v tot_s_n w).list.flatMap bio_vec.sectors = (range' S (w.cur_s_n + blocks_n)).map (sectorOf v chain) ∧
      ∀ vec, (takeBlocks v tot_s_n w).vec_cur = some vec →
        0 < vec.blockno_start ∧ vec.blockno_start + vec.block_len ≤ v.n_sectors := by
  have hlt := h.lt
  have hinit : w.init_s_n < v.sectors_per_block := by
    rw [h.init]
    exact Nat.mod_lt _ v.block_pos
  -- the cluster of the walk is that of the next sector
  have hin : (S + w.cur_s_n) / v.sectors_per_block < chain.length := by
    rw [Nat.div_lt_iff_lt_mul v.block_pos]
    omega
  obtain ⟨hmem, hcursor⟩ := cluster_at hclusters hin
  have hiter : w.iter_c_n = chain.getD ((S + w.cur_s_n) / v.sectors_per_block) 0 := by
    rw [h.iter, h.l_num, hcursor]
  obtain ⟨hfirst, hfits⟩ := v.first_of_cluster (hclusters _ hmem).1
  rw [← hiter] at hfirst hfits
  have hsector : sectorOf v chain (S + w.cur_s_n) = v.FirstSectorofCluster w.iter_c_n + w.init_s_n := by
    rw [sectorOf, ← hiter, ← h.init, hfirst]
  obtain ⟨blocks_n, hblocks⟩ : ∃ blocks_n, blocks_n = min (v.sectors_per_block - w.init_s_n) (tot_s_n - w.cur_s_n) := ⟨_, rfl⟩
  have hpos := v.first_pos
  obtain ⟨hlist, hvpos, hvend⟩ := @fill_next v w (v.FirstSectorofCluster w.iter_c_n) blocks_n (by omega) (by omega) h.last
  have hrun : (range' (S + w.cur_s_n) blocks_n).map (sectorOf v chain) =
      range' (v.FirstSectorofCluster w.iter_c_n + w.init_s_n) blocks_n := by
    apply map_range_consecutive
    intro k hk
    rw [sectorOf_same (by rw [← h.init]; omega), hsector]
  refine ⟨blocks_n, by omega, ?_, by omega, by omega, ?_, ?_⟩
  · rw [takeBlocks, ← hblocks]
  · rw [takeBlocks, ← hblocks]
    show ((w.next _).1 ++ [fill (w.next _).2 _ _ _]).flatMap bio_vec.sectors = _
    rw [hlist, h.sectors, ← hrun, ← List.map_append, List.range'_append_1]
  · intro vec hvec
    rw [takeBlocks, ← hblocks] at hvec
    cases hvec
    exact ⟨hvpos, hvend⟩

theorem nextCluster_spec (hclusters : ∀ c ∈ chain, IsCluster v.FAT_CLUSTER_MAX c ∧ ¬ISEOF c) (hshort : chain.length ≤ MAX_INDEX_1)
    (fuel : Nat) (alloc : Bool) {w : Walk} (htable : Lists chain w.ip.i_table) (hl : w.l_num < chain.length) :
    ∃ t, nextCluster v fuel alloc w = .ok ({ w.ip with i_table := t }, w.sb, cursor chain (w.l_num + 1)) ∧ Lists chain t := by
  obtain ⟨t, hrun, htable', -⟩ := @ctl_lookup chain w.ip (w.l_num + 1) htable (by omega) (by omega)
  refine ⟨t, ?_, htable'⟩
  obtain ⟨hmem, hcursor⟩ := cluster_at hclusters hl
  have hnot : ¬(alloc = true ∧ ISEOF (cursor chain (w.l_num + 1))) := by
    rw [hcursor]
    exact fun h => (hclusters _ hmem).2 h.2
  rw [nextCluster, hrun, ok_bind]
  dsimp only
  rw [if_neg hnot]
  rfl

theorem Walking.cluster_done {w : Walk} (h : Walking v chain S tot_s_n w) {blocks_n : Nat}
    (hblocks : blocks_n = v.sectors_per_block - w.init_s_n) :
    (S + (w.cur_s_n + blocks_n)) / v.sectors_per_block = w.l_num ∧ (S + (w.cur_s_n + blocks_n)) % v.sectors_per_block = 0 := by
  have hinit := h.init
  have hdm := Nat.mod_add_div (S + w.cur_s_n) v.sectors_per_block
  have hlt := Nat.mod_lt (S + w.cur_s_n) v.block_pos
  have hnext : S + (w.cur_s_n + blocks_n) = v.sectors_per_block * ((S + w.cur_s_n) / v.sectors_per_block + 1) := by
    rw [Nat.mul_add, Nat.mul_one]
    omega
  rw [hnext, Nat.mul_div_cancel_left _ v.block_pos, h.l_num, Nat.mul_mod_right]
  exact ⟨rfl, rfl⟩

/-- The walk comes to the end of the range. -/
theorem blockLoop_spec (hclusters : ∀ c ∈ chain, IsCluster v.FAT_CLUSTER_MAX c ∧ ¬ISEOF c) (hshort : chain.length ≤ MAX_INDEX_1)
    (hchain : S + tot_s_n ≤ chain.length * v.sectors_per_block) (fuel : Nat) (alloc : Bool) {turns : Nat} {w : Walk}
    (h : Walking v chain S tot_s_n w) (hturns : tot_s_n < w.cur_s_n + turns) :
    ∃ w', blockLoop v fuel alloc tot_s_n turns w = .ok w' ∧ w'.cur_s_n = tot_s_n ∧ w'.sb = w.sb ∧
      w'.list.flatMap bio_vec.sectors = (range' S tot_s_n).map (sectorOf v chain) := by
  induction turns generalizing w with
  | zero =>
    have hlt := h.lt
    omega
  | succ turns ih =>
    have hlt := h.lt
    have hin : (S + w.cur_s_n) / v.sectors_per_block < chain.length := by
      rw [Nat.div_lt_iff_lt_mul v.block_pos]
      omega
    obtain ⟨hmem, hcursor⟩ := cluster_at hclusters hin
    have hgo : ¬(ISEOF w.iter_c_n ∨ tot_s_n ≤ w.cur_s_n) := by
      rw [h.iter, h.l_num, hcursor]
      rintro (heof | hle)
      · exact (hclusters _ hmem).2 heof
      · omega
    obtain ⟨blocks_n, hpos, htake, hle, hrest, hsectors, hlast⟩ := takeBlocks_spec hclusters hchain h
    have hcur : (takeBlocks v tot_s_n w).cur_s_n = w.cur_s_n + blocks_n := by rw [htake]
    rw [blockLoop, if_neg hgo]
    dsimp only
    rw [hcur]
    rcases Nat.eq_or_lt_of_le hle with heq | hmore
    · rw [if_pos heq]
      refine ⟨_, rfl, hcur.trans heq, by rw [htake], ?_⟩
      rw [hsectors, heq]
    rw [if_neg hmore.ne]
    -- the cluster is done, and the range goes on in the next one
    obtain ⟨hdiv, hmod⟩ := h.cluster_done (hrest hmore)
    have hl : w.l_num < chain.length := by
      rw [← hdiv, Nat.div_lt_iff_lt_mul v.block_pos]
      omega
    have hip : (takeBlocks v tot_s_n w).ip = w.ip := by rw [htake]
    have hsb : (takeBlocks v tot_s_n w).sb = w.sb := by rw [htake]
    have hlnum : (takeBlocks v tot_s_n w).l_num = w.l_num := by rw [htake]
    obtain ⟨t, hrun, htable⟩ := @nextCluster_spec v chain hclusters hshort fuel alloc (takeBlocks v tot_s_n w)
      (by rw [hip]; exact h.table) (by rw [hlnum]; exact hl)
    rw [hrun, hip, hsb, hlnum]
    obtain ⟨w', hloop, hdone, hsb', hall⟩ := @ih { takeBlocks v tot_s_n w with
        ip := { w.ip with i_table := t }, sb := w.sb, iter_c_n := cursor chain (w.l_num + 1), l_num := w.l_num + 1, init_s_n := 0 }
      { table := htable
        iter := rfl
        l_num := by
          show w.l_num + 1 = (S + (takeBlocks v tot_s_n w).cur_s_n) / v.sectors_per_block + 1
          rw [hcur, hdiv]
        init := by
          show 0 = (S + (takeBlocks v tot_s_n w).cur_s_n) % v.sectors_per_block
          rw [hcur, hmod]
        lt := by
          show (takeBlocks v tot_s_n w).cur_s_n < tot_s_n
          rw [hcur]
          exact hmore
        sectors := by
          show (takeBlocks v tot_s_n w).list.flatMap bio_vec.sectors =
            (range' S (takeBlocks v tot_s_n w).cur_s_n).map (sectorOf v chain)
          rw [hsectors, hcur]
        last := fun vec hvec => ⟨rfl, hlast vec hvec⟩ }
      (by
        show tot_s_n < (takeBlocks v tot_s_n w).cur_s_n + turns
        rw [hcur]
        omega)
    dsimp only at hloop
    rw [hcur] at hloop
    exact ⟨w', hloop, hdone, hsb', hall⟩

/-! ## The whole range -/

theorem cursor_spec {ip : inode} (h : Listed v chain ip) (fuel : Nat) (sb : Sb) {off : Nat}
    (hin : off / v.cluster_size < chain.length) :
    ∃ t, fat32_cursor_to_offset v.FAT_CLUSTER_MAX fuel v.cluster_size ip sb off =
        .ok ({ ip with i_table := t }, sb, cursor chain (off / v.cluster_size + 1)) ∧ Lists chain t := by
  obtain ⟨hmem, hcursor⟩ := cluster_at h.clusters hin
  obtain ⟨t, hrun, htable, -⟩ := @ctl_lookup chain ip (off / v.cluster_size + 1) h.table (Nat.le_add_left 1 _)
    (Nat.le_trans hin h.short)
  refine ⟨t, ?_, htable⟩
  have hgrow : off / v.cluster_size + 1 - ip.cluster_cnt = 0 := by
    rw [h.count]
    omega
  rw [fat32_cursor_to_offset, hrun, ok_bind]
  dsimp only
  rw [hcursor, if_neg (h.clusters _ hmem).2, hgrow]
  rfl

theorem offset_sector {off : Nat} (hoff : off % PGSIZE = 0) :
    off / v.cluster_size = off / v.sector_size / v.sectors_per_block ∧
      v.LOGISTIC_S_NUM off = off / v.sector_size % v.sectors_per_block ∧ v.LOGISTIC_S_OFFSET off = 0 := by
  have hpos := v.sector_pos
  obtain ⟨s, rfl⟩ : v.sector_size ∣ off := Nat.dvd_trans v.sector_dvd (Nat.dvd_of_mod_eq_zero hoff)
  simp only [Volume.LOGISTIC_S_NUM, Volume.LOGISTIC_S_OFFSET, Volume.cluster_size]
  rw [Nat.mul_mod_mul_left, Nat.mul_div_mul_left _ _ hpos, Nat.mul_div_cancel_left _ hpos, Nat.mul_div_cancel_left _ hpos,
    Nat.mul_mod_right]
  exact ⟨rfl, rfl, rfl⟩

theorem ceil_divide_pages {n : Nat} (hn : n % PGSIZE = 0) (hlt : n < 2 ^ 32) : CEIL_DIVIDE n v.sector_size = n / v.sector_size := by
  have hpos := v.sector_pos
  have hle : v.sector_size ≤ PGSIZE := Nat.le_of_dvd (by decide) v.sector_dvd
  have hwrap : n + v.sector_size - 1 < 2 ^ 32 := by
    simp only [PGSIZE] at hn hle
    omega
  obtain ⟨s, rfl⟩ : v.sector_size ∣ n := Nat.dvd_trans v.sector_dvd (Nat.dvd_of_mod_eq_zero hn)
  rw [CEIL_DIVIDE, Nat.mod_eq_of_lt hwrap, Nat.add_sub_assoc hpos, Nat.mul_add_div hpos, Nat.mul_div_cancel_left _ hpos,
    Nat.div_eq_of_lt (by omega), Nat.add_zero]

/-- **`fat32_get_block` covers a range of pages inside the chain**, sector by sector in the order of the file. -/
theorem fat32_get_block_spec {ip : inode} (h : Listed v chain ip) (fuel : Nat) (sb : Sb) (alloc : Bool) {off n : Nat}
    (hoff : off % PGSIZE = 0) (hn : n % PGSIZE = 0) (hpos : 0 < n) (hlt : n < 2 ^ 32)
    (hin : off + n ≤ chain.length * v.cluster_size) :
    ∃ w, fat32_get_block v fuel ip sb off n alloc = .ok w ∧ w.sb = sb ∧ w.cur_s_n = n / v.sector_size ∧
      w.list.flatMap bio_vec.sectors = (range' (off / v.sector_size) (n / v.sector_size)).map (sectorOf v chain) := by
  have hspos := v.sector_pos
  obtain ⟨hcluster, hsnum, hsoff⟩ := @offset_sector v off hoff
  obtain ⟨s, hs⟩ : v.sector_size ∣ off := Nat.dvd_trans v.sector_dvd (Nat.dvd_of_mod_eq_zero hoff)
  obtain ⟨k, hk⟩ : v.sector_size ∣ n := Nat.dvd_trans v.sector_dvd (Nat.dvd_of_mod_eq_zero hn)
  have hsdiv : off / v.sector_size = s := by rw [hs, Nat.mul_div_cancel_left _ hspos]
  have hkdiv : n / v.sector_size = k := by rw [hk, Nat.mul_div_cancel_left _ hspos]
  -- the range in sectors
  have hchain : s + k ≤ chain.length * v.sectors_per_block := by
    rw [hs, hk, Volume.cluster_size, ← Nat.mul_add, Nat.mul_left_comm] at hin
    exact Nat.le_of_mul_le_mul_left hin hspos
  have hkpos : 0 < k := by
    rcases Nat.eq_zero_or_pos k with rfl | hk'
    · omega
    · exact hk'
  have hfirst : off / v.cluster_size < chain.length := by
    rw [hcluster, hsdiv, Nat.div_lt_iff_lt_mul v.block_pos]
    omega
  obtain ⟨t, hcursor, htable⟩ := cursor_spec h fuel sb hfirst
  have hasserts : ¬(off % PGSIZE ≠ 0 ∨ n % v.sector_size ≠ 0 ∨ n = 0) := by
    rintro (h₁ | h₂ | h₃)
    · exact h₁ hoff
    · exact h₂ (by rw [hk, Nat.mul_mod_right])
    · omega
  rw [fat32_get_block, if_neg hasserts, hcursor]
  show ∃ w, (if v.LOGISTIC_S_OFFSET off ≠ 0 then _ else _) = _ ∧ _
  rw [if_neg (not_not.mpr hsoff), ceil_divide_pages hn hlt, hsdiv, hkdiv]
  have hstart : Walking v chain s k
      ⟨{ ip with i_table := t }, sb, cursor chain (off / v.cluster_size + 1), v.LOGISTIC_C_NUM off + 1, v.LOGISTIC_S_NUM off, 0, [], none⟩ := by
    refine ⟨htable, rfl, ?_, ?_, hkpos, rfl, fun vec hvec => by cases hvec⟩
    · show off / v.cluster_size + 1 = s / v.sectors_per_block + 1
      rw [hcluster, hsdiv]
    · show v.LOGISTIC_S_NUM off = s % v.sectors_per_block
      rw [hsnum, hsdiv]
  obtain ⟨w, hloop, hcur, hsb, hsectors⟩ :=
    @blockLoop_spec v chain s k h.clusters h.short hchain fuel alloc (k + 1) _ hstart (by dsimp only; omega)
  exact ⟨w, hloop, hsb, hcur, hsectors⟩

/-! ## The vectors -/

theorem setData_sectors (bsize src : Nat) (vecs : List bio_vec) :
    (setData bsize src vecs).flatMap bio_vec.sectors = vecs.flatMap bio_vec.sectors := by
  induction vecs generalizing src with
  | nil => rfl
  | cons vec vecs ih =>
    rw [setData, flatMap_cons, flatMap_cons, ih]
    rfl

theorem total_sectors (vecs : List bio_vec) : (vecs.flatMap bio_vec.sectors).length = total vecs := by
  induction vecs with
  | nil => rfl
  | cons vec vecs ih =>
    rw [flatMap_cons, List.length_append, ih, bio_vec.sectors, length_range', total, total, List.map_cons, List.sum_cons]

theorem total_append (pre post : List bio_vec) : total (pre ++ post) = total pre + total post := by
  simp only [total, List.map_append, List.sum_append]

/-- Each data pointer is behind the bytes of the vectors before it. -/
theorem setData_data {bsize src : Nat} {vecs pre post : List bio_vec} {vec : bio_vec} (hfits : total vecs * bsize < 2 ^ 32)
    (h : setData bsize src vecs = pre ++ vec :: post) : vec.data = src + bsize * total pre := by
  induction vecs generalizing src pre with
  | nil =>
    cases pre <;> cases h
  | cons vec' vecs ih =>
    have htotal : total (vec' :: vecs) = vec'.block_len + total vecs := total_append [vec'] vecs
    rw [htotal, Nat.add_mul] at hfits
    rw [setData] at h
    cases pre with
    | nil =>
      rw [List.nil_append, List.cons.injEq] at h
      rw [← h.1]
      rfl
    | cons p pre =>
      rw [List.cons_append, List.cons.injEq] at h
      rw [ih (by omega) h.2]
      have hlen : total (p :: pre) = vec'.block_len + total pre := by
        rw [← h.1]
        exact total_append [_] pre
      rw [hlen, Nat.mod_eq_of_lt (by omega), Nat.mul_add, Nat.mul_comm bsize vec'.block_len]
      omega

/-- Where the vectors cover a range in order, so does each of them. -/
theorem sector_in_vec {f : Nat → Nat} {a n : Nat} {vecs pre post : List bio_vec} {vec : bio_vec}
    (h : vecs.flatMap bio_vec.sectors = (range' a n).map f) (hvecs : vecs = pre ++ vec :: post) {j : Nat}
    (hj : j < vec.block_len) : total pre + j < n ∧ vec.blockno_start + j = f (a + total pre + j) := by
  have hlen := congrArg List.length h
  rw [total_sectors, List.length_map, length_range', hvecs, total_append] at hlen
  have htotal : total (vec :: post) = vec.block_len + total post := total_append [vec] post
  have hin : total pre + j < n := by omega
  refine ⟨hin, ?_⟩
  have hget := congrArg (fun l => l[total pre + j]?) h
  rw [hvecs, List.flatMap_append, flatMap_cons] at hget
  have hpre := total_sectors pre
  rw [List.getElem?_append_right (by omega), hpre, Nat.add_sub_cancel_left,
    List.getElem?_append_left (by rw [bio_vec.sectors, length_range']; exact hj), bio_vec.sectors,
    List.getElem?_range' hj, List.getElem?_map, List.getElem?_range' hin] at hget
  simp only [Nat.one_mul, Option.map_some, Option.some.injEq] at hget
  rw [hget, Nat.add_assoc]

/-- Two clusters whose sectors follow one another on the disk lie side by side. -/
theorem adjacent_of_sectors (hclusters : ∀ c ∈ chain, IsCluster v.FAT_CLUSTER_MAX c ∧ ¬ISEOF c) {s l : Nat}
    (hin : l + 1 < chain.length) (hl : s / v.sectors_per_block = l) (hl' : (s + 1) / v.sectors_per_block = l + 1)
    (hnext : sectorOf v chain (s + 1) = sectorOf v chain s + 1) :
    v.FirstSectorofCluster (chain.getD (l + 1) 0) = v.FirstSectorofCluster (chain.getD l 0) + v.sectors_per_block := by
  have hpos := v.block_pos
  have hdm := Nat.div_add_mod s v.sectors_per_block
  have hdm' := Nat.div_add_mod (s + 1) v.sectors_per_block
  have hlt := Nat.mod_lt s hpos
  have hlt' := Nat.mod_lt (s + 1) hpos
  rw [hl] at hdm
  rw [hl', Nat.mul_add, Nat.mul_one] at hdm'
  obtain ⟨hfirst, -⟩ := v.first_of_cluster (hclusters _ (cluster_at hclusters (Nat.lt_of_succ_lt hin)).1).1
  obtain ⟨hfirst', -⟩ := v.first_of_cluster (hclusters _ (cluster_at hclusters hin).1).1
  rw [sectorOf, sectorOf, hl, hl', ← hfirst, ← hfirst'] at hnext
  omega

/-- **The vectors that `fat32_get_block` and `block_full_pages` build for pages inside the chain of a file are its
sectors**, each once and in order, with the data pointers that belong to them. -/
theorem block_full_pages_maps {ip : inode} (h : Listed v chain ip) (fuel : Nat) (sb : Sb) (src : Nat) (alloc : Bool)
    {index cnt : Nat} (hcnt : 0 < cnt) (hoff : index * PGSIZE < 2 ^ 32) (hn : cnt * PGSIZE < 2 ^ 32)
    (hin : index * PGSIZE + cnt * PGSIZE ≤ chain.length * v.cluster_size) :
    ∃ ip' vecs, block_full_pages v fuel ip sb src index cnt alloc = .ok (ip', sb, vecs) ∧
      Mapped v chain (index * PGSIZE) (cnt * PGSIZE) src vecs := by
  have hspos := v.sector_pos
  obtain ⟨w, hblock, hsb, hcur, hsectors⟩ := fat32_get_block_spec h fuel sb alloc (Nat.mul_mod_left index PGSIZE)
    (Nat.mul_mod_left cnt PGSIZE) (Nat.mul_pos hcnt (by decide)) hn hin
  have hwhole : cnt * PGSIZE / v.sector_size * v.sector_size = cnt * PGSIZE :=
    Nat.div_mul_cancel (Nat.dvd_trans v.sector_dvd (Nat.dvd_mul_left PGSIZE cnt))
  refine ⟨w.ip, setData v.sector_size src w.list, ?_, ?_, ?_, ?_⟩
  · rw [block_full_pages, Nat.mod_eq_of_lt hoff, Nat.mod_eq_of_lt hn, hblock]
    show (if alloc = true ∧ w.cur_s_n * v.sector_size % 2 ^ 32 ≠ cnt * PGSIZE then _ else _) = _
    rw [hcur, hwhole, Nat.mod_eq_of_lt hn, if_neg fun hne => hne.2 rfl, hsb]
    rfl
  · rw [setData_sectors, hsectors]
  · intro pre vec post hvecs
    refine setData_data ?_ hvecs
    have htotal := congrArg List.length hsectors
    rw [total_sectors, List.length_map, length_range'] at htotal
    rw [htotal, hwhole]
    exact hn
  · intro pre vec post hvecs j hj l hl hl'
    have hall : (setData v.sector_size src w.list).flatMap bio_vec.sectors =
        (range' (index * PGSIZE / v.sector_size) (cnt * PGSIZE / v.sector_size)).map (sectorOf v chain) := by
      rw [setData_sectors, hsectors]
    obtain ⟨-, hsector⟩ := sector_in_vec hall hvecs (Nat.lt_of_succ_lt hj)
    obtain ⟨hlt, hsector'⟩ := sector_in_vec hall hvecs hj
    refine adjacent_of_sectors h.clusters ?_ hl hl' ?_
    · -- the later sector is inside the chain
      rw [← hl', Nat.div_lt_iff_lt_mul v.block_pos]
      have hoffs : v.sector_size * (index * PGSIZE / v.sector_size) = index * PGSIZE :=
        Nat.mul_div_cancel' (Nat.dvd_trans v.sector_dvd (Nat.dvd_mul_left PGSIZE index))
      rw [← hoffs, ← hwhole, Nat.mul_comm _ v.sector_size, ← Nat.mul_add, Volume.cluster_size, Nat.mul_left_comm] at hin
      have hle := Nat.le_of_mul_le_mul_left hin hspos
      omega
    · rw [← hsector, Nat.add_assoc _ j 1, ← hsector']
      rfl

end

/-- A table for the first clusters of a file. -/
def tableOf (chain : List Nat) : index_table := ⟨fun idx => chain.getD idx 0, fun _ => none⟩

theorem lists_tableOf {chain : List Nat} (h : chain.length ≤ MAX_INDEX_0) : Lists chain (tableOf chain) := by
  intro l_num hlo hhi
  rw [index_table.entry]
  split
  · rfl
  next hgt =>
    rw [List.getD_eq_default _ _ (by omega)]
    rfl

/-- Two sectors a cluster. -/
def smallVolume : Volume :=
  ⟨512, 2, 32, 2, 100, 10000, by decide, by decide, by decide, by decide, by decide, by decide⟩

/-- The second page of a file with a gap in its clusters. -/
theorem second_page_maps : ∃ ip' sb vecs,
    block_full_pages smallVolume 0 ⟨2, 12, 8, tableOf [2, 3, 4, 5, 6, 7, 11, 12]⟩ sb 0x90000000 1 1 false = .ok (ip', sb, vecs) ∧
      Mapped smallVolume [2, 3, 4, 5, 6, 7, 11, 12] 4096 4096 0x90000000 vecs := by
  have hlisted : Listed smallVolume [2, 3, 4, 5, 6, 7, 11, 12] ⟨2, 12, 8, tableOf [2, 3, 4, 5, 6, 7, 11, 12]⟩ := by
    refine ⟨?_, rfl, by decide, lists_tableOf (by decide)⟩
    simp only [IsCluster]
    decide
  obtain ⟨ip', vecs, hrun, hmapped⟩ := block_full_pages_maps hlisted 0 ⟨fun _ => 0, fun _ => 0, 0, 0, false⟩ 0x90000000 false
    (show 0 < 1 by decide) (show 1 * PGSIZE < 2 ^ 32 by decide) (by decide) (by decide)
  exact ⟨ip', _, vecs, hrun, hmapped⟩

end LostWakeup.Fs.Fat32.BlockMap
