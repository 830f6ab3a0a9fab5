/-
# LostWakeup.Fs.Fat32.Mount — `fat32_disk.c`: the scans of the FAT at mount and unmount.

Mounting fills a bitmap and a copy of the FAT from the disk; unmounting writes the copy back.  Both scans test for the end
before a sector with `<` and within it with `>`, and so never leave a sector by the outer test but to a panic.

The disk is the 32-bit words of its sectors of 512 bytes.
-/
import LostWakeup.Fs.Fat32.Bitmap
import LostWakeup.Library.Outcome
import LostWakeup.Mm.Buddy

namespace LostWakeup.Fs.Fat32.Mount

open Fs.Fat32.Bitmap

/-! ## The volume -/

/-- The words of a sector, by number. -/
abbrev Disk := Nat → Nat → BitVec 32

def BytsPerSec : Nat := 512

/-- The fields of the boot sector that `FAT_CLUSTER_MAX` depends on. -/
structure fat_bpb_t where
  SecPerClus : UInt8
  RsvdSecCnt : UInt16
  NumFATs : UInt8
  TotSec32 : UInt32
  FATSz32 : UInt32

/-- `DataSec`; there are no root directory sectors. -/
def DataSec (bpb : fat_bpb_t) : UInt32 := bpb.TotSec32 - (bpb.RsvdSecCnt.toUInt32 + bpb.NumFATs.toUInt32 * bpb.FATSz32)

def CountofClusters (bpb : fat_bpb_t) : UInt32 := DataSec bpb / bpb.SecPerClus.toUInt32

def FAT_CLUSTER_MAX (bpb : fat_bpb_t) : Nat := (CountofClusters bpb + 1).toNat

def FAT_BASE (bpb : fat_bpb_t) : Nat := bpb.RsvdSecCnt.toNat

def FATOffset (N : Nat) : Nat := N * 4 % 2 ^ 32

def ThisFATEntSecNum (bpb : fat_bpb_t) (N : Nat) : Nat := FAT_BASE bpb + FATOffset N / BytsPerSec

def ThisFATEntOffset (N : Nat) : Nat := FATOffset N % BytsPerSec

def FAT_VALID_MASK : BitVec 32 := 0x0FFFFFFF

def FAT32ClusEntryVal (sector : Nat → BitVec 32) (N : Nat) : BitVec 32 := sector (ThisFATEntOffset N / 4) &&& FAT_VALID_MASK

def ISEOF (FATContent : BitVec 32) : Prop := 0x0FFFFFF8 ≤ FATContent

/-- The words of the FAT, as the scans go through them. -/
def fatOf (bpb : fat_bpb_t) (disk : Disk) (c : Nat) : BitVec 32 := disk (FAT_BASE bpb + c / FAT_PER_SECTOR) (c % FAT_PER_SECTOR)

/-! ## The tables -/

/-- `DIV_ROUND_UP`, of `uint`s. -/
def DIV_ROUND_UP (n d : UInt32) : Nat := ((n + d - 1) / d).toNat

inductive Fault
  | page_alloc
  | writeback_unreachable
  | next_cluster
  | cache_get_cluster
  | cache_get_next
  /-- The scan has not returned within the given turns. -/
  | no_return
  deriving DecidableEq

/-- The bytes behind `bit_map` and `fat_table`. -/
structure Tables where
  bit_map : Nat
  fat_table : Nat

/-- `fat32_page_alloc`: the buddy system has blocks of up to `2 ^ BUDDY_MAX_ORDER` pages. -/
def fat32_page_alloc (n : Nat) : Except Fault Nat :=
  if n ≤ 2 ^ Mm.Buddy.BUDDY_MAX_ORDER then .ok (4096 * n) else .error .page_alloc

/-- The part of `fat32_fs_mount` that allocates the tables. -/
def fat32_fs_mount (bpb : fat_bpb_t) : Except Fault Tables := do
  let bit_map ← fat32_page_alloc (DIV_ROUND_UP ((CountofClusters bpb + 1) >>> 3) 4096)
  let fat_table ← fat32_page_alloc (DIV_ROUND_UP ((CountofClusters bpb + 1) <<< 2) 4096)
  return ⟨bit_map, fat_table⟩

/-! ## Unmount -/

section Volume

variable (bpb : fat_bpb_t)

/-- The two nested loops of `fat32_fat_bitmap_writeback`, one turn an entry. -/
def writebackLoop (fat_table : Nat → BitVec 32) : Nat → Nat → Disk → Except Fault Disk
  | 0, _, _ => .error .no_return
  | fuel + 1, c, disk =>
    if c % FAT_PER_SECTOR = 0 ∧ ¬ c < FAT_CLUSTER_MAX bpb then
      .error .writeback_unreachable
    else
      let sec := FAT_BASE bpb + c / FAT_PER_SECTOR
      let disk := Function.update disk sec (Function.update (disk sec) (c % FAT_PER_SECTOR) (fat_table c))
      if c + 1 > FAT_CLUSTER_MAX bpb then
        .ok disk
      else
        writebackLoop fat_table fuel (c + 1) disk

def fat32_fat_bitmap_writeback (sb : Sb) (disk : Disk) : Except Fault Disk :=
  writebackLoop bpb sb.fat_table (FAT_CLUSTER_MAX bpb + 2) 0 disk

/-! ## Entries -/

/-- `fat32_next_cluster`, from the disk. -/
def fat32_next_cluster (disk : Disk) (cluster_cur : Nat) : Except Fault (BitVec 32) :=
  if 2 ≤ cluster_cur ∧ cluster_cur ≤ FAT_CLUSTER_MAX bpb then
    .ok (FAT32ClusEntryVal (disk (ThisFATEntSecNum bpb cluster_cur)) cluster_cur)
  else .error .next_cluster

/-- `fat32_fat_cache_get`, from memory. -/
def fat32_fat_cache_get (sb : Sb) (cluster : Nat) : Except Fault (BitVec 32) :=
  if 2 ≤ cluster ∧ cluster ≤ FAT_CLUSTER_MAX bpb then
    if sb.fat_table cluster = 0 then .error .cache_get_next else .ok (sb.fat_table cluster)
  else .error .cache_get_cluster

/-! ## The properties -/

/-- The index `c` is inside the tables: the entry of the FAT, and the word of the bitmap. -/
structure Inside (t : Tables) (c : Nat) : Prop where
  fat_table : 4 * c + 4 ≤ t.fat_table
  bit_map : 8 * BIT_INDEX c + 8 ≤ t.bit_map

/-- Both scans return, and every index they and the allocator use is inside the tables. -/
structure ScansLaw (t : Tables) : Prop where
  init : ∀ (disk : Disk) (free_count : BitVec 32) (nxt_free : Nat), ∃ sb,
    fat32_fat_bitmap_init (FAT_CLUSTER_MAX bpb) (fatOf bpb disk) free_count nxt_free = .ok sb
  writeback : ∀ (sb : Sb) (disk : Disk), ∃ disk', fat32_fat_bitmap_writeback bpb sb disk = .ok disk'
  inside : ∀ c ≤ FAT_CLUSTER_MAX bpb, Inside t c

/-- The same next cluster, or the end of the chain. -/
def SameNext (v w : BitVec 32) : Prop := (ISEOF v ↔ ISEOF w) ∧ (¬ISEOF w → v = w)

/-- The FAT in memory is that on the disk, for each cluster in use, and unmounting now leaves the disk as it is. -/
structure CacheLaw (sb : Sb) (disk : Disk) : Prop where
  entries : ∀ c w, fat32_next_cluster bpb disk c = .ok w → w ≠ FREE_MASK →
    ∃ v, fat32_fat_cache_get bpb sb c = .ok v ∧ SameNext v w
  writeback : fat32_fat_bitmap_writeback bpb sb disk = .ok disk

end Volume

/-! ## The scans -/

section

variable {M : Nat} {fats : Nat → BitVec 32}

theorem initLoop_returns (hM : M % FAT_PER_SECTOR ≠ 0) {fuel c : Nat} (hc : c ≤ M) (hfuel : M < c + fuel) (map_mini : BitVec 64)
    (sb : Sb) : ∃ sb', initLoop M fats fuel c map_mini sb = .ok sb' := by
  induction fuel generalizing c map_mini sb with
  | zero => omega
  | succ fuel ih =>
    have hsector : ¬(c % FAT_PER_SECTOR = 0 ∧ ¬c < M) := by
      rintro ⟨hstart, hge⟩
      obtain rfl : c = M := by omega
      exact hM hstart
    rw [initLoop, if_neg hsector]
    dsimp only
    split
    · exact ⟨_, rfl⟩
    · split
      · apply ih <;> omega
      · apply ih <;> omega

theorem initLoop_panics (hM : M % FAT_PER_SECTOR = 0) {fuel c : Nat} (hc : c ≤ M) (hfuel : M < c + fuel) (map_mini : BitVec 64)
    (sb : Sb) : initLoop M fats fuel c map_mini sb = .error .bitmap_init_unreachable := by
  induction fuel generalizing c map_mini sb with
  | zero => omega
  | succ fuel ih =>
    rw [initLoop]
    rcases eq_or_ne c M with rfl | hne
    · rw [if_pos ⟨hM, Nat.lt_irrefl c⟩]
    have hlt : c < M := Nat.lt_of_le_of_ne hc hne
    rw [if_neg fun h => h.2 hlt]
    dsimp only
    rw [if_neg (by omega : ¬c + 1 > M)]
    split
    · apply ih <;> omega
    · apply ih <;> omega

/-- The table is copied from the front; what is behind is as it was allocated. -/
structure Copied (fats : Nat → BitVec 32) (c : Nat) (sb : Sb) : Prop where
  front : ∀ d < c, sb.fat_table d = fats d
  back : ∀ d, c ≤ d → sb.fat_table d = FREE_MASK

theorem initEntry_copied {c : Nat} {sb : Sb} (h : Copied fats c sb) (map_mini : BitVec 64) :
    Copied fats (c + 1) (initEntry fats c map_mini sb).2 := by
  unfold initEntry
  split
  · dsimp only
    refine ⟨fun d hd => ?_, fun d hd => ?_⟩ <;> dsimp only
    · rcases Nat.lt_succ_iff_lt_or_eq.mp hd with hlt | rfl
      · rw [Function.update_of_ne hlt.ne]
        exact h.front d hlt
      · rw [Function.update_self]
    · rw [Function.update_of_ne (by omega)]
      exact h.back d (by omega)
  next hfree =>
    refine ⟨fun d hd => ?_, fun d hd => h.back d (by omega)⟩
    rcases Nat.lt_succ_iff_lt_or_eq.mp hd with hlt | rfl
    · exact h.front d hlt
    · rw [h.back d le_rfl, not_not.mp hfree]

theorem initLoop_copied {fuel c : Nat} {map_mini : BitVec 64} {sb sb' : Sb} (h : Copied fats c sb)
    (hrun : initLoop M fats fuel c map_mini sb = .ok sb') (hc : c ≤ M) : ∀ d ≤ M, sb'.fat_table d = fats d := by
  induction fuel generalizing c map_mini sb with
  | zero => cases hrun
  | succ fuel ih =>
    have hnext := initEntry_copied h map_mini
    rw [initLoop] at hrun
    split at hrun
    · cases hrun
    dsimp only at hrun
    split at hrun
    next hlast =>
      cases hrun
      exact fun d hd => hnext.front d (by omega)
    next hmore =>
      split at hrun
      · refine ih ?_ hrun (by omega)
        exact ⟨hnext.front, hnext.back⟩
      · exact ih hnext hrun (by omega)

theorem init_ok_iff {M : Nat} (fats : Nat → BitVec 32) (free_count : BitVec 32) (nxt_free : Nat) :
    (∃ sb, fat32_fat_bitmap_init M fats free_count nxt_free = .ok sb) ↔ M % FAT_PER_SECTOR ≠ 0 := by
  constructor
  · rintro ⟨sb, hsb⟩ hM
    rw [fat32_fat_bitmap_init, initLoop_panics hM (Nat.zero_le M) (by omega)] at hsb
    cases hsb
  · intro hM
    exact initLoop_returns hM (Nat.zero_le M) (by omega) _ _

theorem init_copied {M : Nat} {fats : Nat → BitVec 32} {free_count : BitVec 32} {nxt_free : Nat} {sb : Sb}
    (h : fat32_fat_bitmap_init M fats free_count nxt_free = .ok sb) : ∀ c ≤ M, sb.fat_table c = fats c :=
  initLoop_copied ⟨fun d hd => absurd hd (Nat.not_lt_zero d), fun _ _ => rfl⟩ h (Nat.zero_le M)

variable {bpb : fat_bpb_t} {fat_table : Nat → BitVec 32}

theorem writebackLoop_returns (hM : FAT_CLUSTER_MAX bpb % FAT_PER_SECTOR ≠ 0) {fuel c : Nat} (hc : c ≤ FAT_CLUSTER_MAX bpb)
    (hfuel : FAT_CLUSTER_MAX bpb < c + fuel) (disk : Disk) : ∃ disk', writebackLoop bpb fat_table fuel c disk = .ok disk' := by
  induction fuel generalizing c disk with
  | zero => omega
  | succ fuel ih =>
    have hsector : ¬(c % FAT_PER_SECTOR = 0 ∧ ¬c < FAT_CLUSTER_MAX bpb) := by
      rintro ⟨hstart, hge⟩
      obtain rfl : c = FAT_CLUSTER_MAX bpb := by omega
      exact hM hstart
    rw [writebackLoop, if_neg hsector]
    dsimp only
    split
    · exact ⟨_, rfl⟩
    · apply ih <;> omega

theorem writebackLoop_same {fuel c : Nat} {disk disk' : Disk} (hc : c ≤ FAT_CLUSTER_MAX bpb)
    (hsame : ∀ d ≤ FAT_CLUSTER_MAX bpb, fat_table d = fatOf bpb disk d)
    (h : writebackLoop bpb fat_table fuel c disk = .ok disk') : disk' = disk := by
  induction fuel generalizing c with
  | zero => cases h
  | succ fuel ih =>
    have hword : Function.update (disk (FAT_BASE bpb + c / FAT_PER_SECTOR)) (c % FAT_PER_SECTOR) (fat_table c) =
        disk (FAT_BASE bpb + c / FAT_PER_SECTOR) := by
      rw [hsame c hc]
      exact Function.update_eq_self _ _
    rw [writebackLoop] at h
    split at h
    · cases h
    dsimp only at h
    rw [hword, Function.update_eq_self] at h
    split at h
    · cases h
      rfl
    · exact ih (by omega) h

end

/-! ## The tables -/

theorem page_alloc_ok {n size : Nat} (h : fat32_page_alloc n = .ok size) : n ≤ 8192 ∧ size = 4096 * n := by
  unfold fat32_page_alloc at h
  split at h
  next hle =>
    cases h
    exact ⟨hle, rfl⟩
  next => cases h

/-- A volume whose tables can be allocated is small, and nothing overflows. -/
theorem mount_tables {bpb : fat_bpb_t} {t : Tables} (h : fat32_fs_mount bpb = .ok t) :
    t.bit_map = 4096 * ((FAT_CLUSTER_MAX bpb / 8 + 4095) / 4096) ∧
      t.fat_table = 4096 * ((4 * FAT_CLUSTER_MAX bpb + 4095) / 4096) ∧ FAT_CLUSTER_MAX bpb ≤ 2 ^ 23 := by
  obtain ⟨bit_map, hbit, h⟩ := Library.ok_of_bind h
  obtain ⟨fat_table, hfat, h⟩ := Library.ok_of_bind h
  cases h
  obtain ⟨hle, rfl⟩ := page_alloc_ok hbit
  obtain ⟨hle', rfl⟩ := page_alloc_ok hfat
  dsimp only
  unfold FAT_CLUSTER_MAX
  generalize CountofClusters bpb + 1 = M at hle hle' ⊢
  have hlt := M.toNat_lt
  have hbits : DIV_ROUND_UP (M >>> 3) 4096 = (M.toNat / 8 + 4095) / 4096 := by
    simp only [DIV_ROUND_UP, UInt32.toNat_div, UInt32.toNat_sub, UInt32.toNat_add, UInt32.toNat_shiftRight,
      UInt32.toNat_ofNat, Nat.shiftRight_eq_div_pow, Nat.reduceMod, Nat.reducePow, Nat.reduceSub]
    omega
  rw [hbits] at hle ⊢
  have hwords : DIV_ROUND_UP (M <<< 2) 4096 = (4 * M.toNat + 4095) / 4096 := by
    simp only [DIV_ROUND_UP, UInt32.toNat_div, UInt32.toNat_sub, UInt32.toNat_add, UInt32.toNat_shiftLeft,
      UInt32.toNat_ofNat, Nat.shiftLeft_eq, Nat.reduceMod, Nat.reducePow, Nat.reduceSub]
    omega
  rw [hwords] at hle' ⊢
  exact ⟨rfl, rfl, by omega⟩

theorem inside_iff {bpb : fat_bpb_t} {t : Tables} (h : fat32_fs_mount bpb = .ok t) :
    (∀ c ≤ FAT_CLUSTER_MAX bpb, Inside t c) ↔ FAT_CLUSTER_MAX bpb % 1024 ≠ 0 ∧ 8 ≤ FAT_CLUSTER_MAX bpb % 32768 := by
  obtain ⟨hbit, hfat, -⟩ := mount_tables h
  constructor
  · intro hall
    obtain ⟨hentry, hword⟩ := hall _ le_rfl
    rw [hfat] at hentry
    rw [hbit, BIT_INDEX, map_mini_size] at hword
    omega
  · rintro ⟨hsector, hpage⟩ c hc
    refine ⟨?_, ?_⟩
    · rw [hfat]
      omega
    · rw [hbit, BIT_INDEX, map_mini_size]
      omega

/-- **The scans at mount and unmount** return and stay in their tables if and only if the last cluster is not the first
entry of a sector of the FAT, nor one of the first 8 behind a page of the bitmap. -/
theorem mount_scans_iff {bpb : fat_bpb_t} {t : Tables} (h : fat32_fs_mount bpb = .ok t) :
    ScansLaw bpb t ↔ FAT_CLUSTER_MAX bpb % 128 ≠ 0 ∧ 8 ≤ FAT_CLUSTER_MAX bpb % 32768 := by
  have hsector : FAT_CLUSTER_MAX bpb % FAT_PER_SECTOR = FAT_CLUSTER_MAX bpb % 128 := rfl
  constructor
  · rintro ⟨hinit, -, hinside⟩
    obtain ⟨-, hpage⟩ := (inside_iff h).mp hinside
    have hne := (init_ok_iff _ _ _).mp (hinit (fun _ _ => 0) 0 0)
    exact ⟨hsector ▸ hne, hpage⟩
  rintro ⟨hne, hpage⟩
  refine ⟨fun disk free_count nxt_free => (init_ok_iff _ _ _).mpr (hsector ▸ hne), fun sb disk => ?_, ?_⟩
  · exact writebackLoop_returns (hsector ▸ hne) (Nat.zero_le _) (by omega) disk
  · exact (inside_iff h).mpr ⟨by omega, hpage⟩

/-- One FAT, one sector a cluster. -/
def volumeOf (clusters : UInt32) : fat_bpb_t := ⟨1, 32, 1, 32 + 512 + clusters, 512⟩

theorem mount_scans_iff_small : ∃ t, fat32_fs_mount (volumeOf 1000) = .ok t ∧
    (ScansLaw (volumeOf 1000) t ↔ FAT_CLUSTER_MAX (volumeOf 1000) % 128 ≠ 0 ∧ 8 ≤ FAT_CLUSTER_MAX (volumeOf 1000) % 32768) :=
  ⟨⟨4096, 4096⟩, rfl, mount_scans_iff rfl⟩

/-- The last cluster is 1024: it is alone in its sector, which the scan does not come to, and its entry is behind the table. -/
theorem full_sector_panics : ∃ t, fat32_fs_mount (volumeOf 1023) = .ok t ∧ ¬ScansLaw (volumeOf 1023) t := by
  refine ⟨⟨4096, 4096⟩, rfl, fun hlaw => ?_⟩
  obtain ⟨sb, hsb⟩ := hlaw.init (fun _ _ => 0) 0 0
  rw [fat32_fat_bitmap_init, initLoop_panics (by decide) (Nat.zero_le _) (by omega)] at hsb
  cases hsb

/-! ## The copy of the FAT -/

section

variable {bpb : fat_bpb_t}

theorem next_cluster_eq {disk : Disk} {c : Nat} (hsmall : FAT_CLUSTER_MAX bpb < 2 ^ 30) (hc : IsCluster (FAT_CLUSTER_MAX bpb) c) :
    fat32_next_cluster bpb disk c = .ok (fatOf bpb disk c &&& FAT_VALID_MASK) := by
  obtain ⟨hlo, hhi⟩ := hc
  rw [fat32_next_cluster, if_pos ⟨hlo, hhi⟩, FAT32ClusEntryVal, ThisFATEntSecNum, ThisFATEntOffset, fatOf]
  have hoff : FATOffset c = c * 4 := Nat.mod_eq_of_lt (by omega)
  have hsec : FATOffset c / BytsPerSec = c / FAT_PER_SECTOR := by
    rw [hoff, BytsPerSec, FAT_PER_SECTOR]
    omega
  have hword : FATOffset c % BytsPerSec / 4 = c % FAT_PER_SECTOR := by
    rw [hoff, BytsPerSec, FAT_PER_SECTOR]
    omega
  rw [hsec, hword]

theorem next_cluster_range {disk : Disk} {c : Nat} {w : BitVec 32} (h : fat32_next_cluster bpb disk c = .ok w) :
    IsCluster (FAT_CLUSTER_MAX bpb) c := by
  unfold fat32_next_cluster at h
  split at h
  next hc => exact hc
  next => cases h

/-- Masking loses nothing, or the entry ends the chain either way. -/
def Canonical (v : BitVec 32) : Prop := v &&& FAT_VALID_MASK = v ∨ ISEOF (v &&& FAT_VALID_MASK)

theorem masked_le (v : BitVec 32) : v &&& FAT_VALID_MASK ≤ v := by
  rw [BitVec.le_def, BitVec.toNat_and]
  exact Nat.and_le_left

theorem sameNext_iff (v : BitVec 32) : SameNext v (v &&& FAT_VALID_MASK) ↔ Canonical v := by
  constructor
  · rintro ⟨-, hsame⟩
    by_cases heof : ISEOF (v &&& FAT_VALID_MASK)
    · exact .inr heof
    · exact .inl (hsame heof).symm
  rintro (hsame | heof)
  · rw [hsame]
    exact ⟨Iff.rfl, fun _ => rfl⟩
  · have hbig : ISEOF v := BitVec.le_trans heof (masked_le v)
    exact ⟨⟨fun _ => heof, fun _ => hbig⟩, fun hno => absurd heof hno⟩

theorem cache_get_eq {sb : Sb} {c : Nat} (hc : IsCluster (FAT_CLUSTER_MAX bpb) c) (hne : sb.fat_table c ≠ 0) :
    fat32_fat_cache_get bpb sb c = .ok (sb.fat_table c) := by
  obtain ⟨hlo, hhi⟩ := hc
  rw [fat32_fat_cache_get, if_pos ⟨hlo, hhi⟩, if_neg hne]

/-- **The FAT in memory** is that on the disk if and only if the entries of the clusters in use have no reserved bits, end
markers apart. -/
theorem fat_cache_agrees_iff {t : Tables} {disk : Disk} {free_count : BitVec 32} {nxt_free : Nat} {sb : Sb}
    (hmount : fat32_fs_mount bpb = .ok t)
    (hinit : fat32_fat_bitmap_init (FAT_CLUSTER_MAX bpb) (fatOf bpb disk) free_count nxt_free = .ok sb) :
    CacheLaw bpb sb disk ↔
      ∀ c, IsCluster (FAT_CLUSTER_MAX bpb) c → fatOf bpb disk c &&& FAT_VALID_MASK ≠ FREE_MASK → Canonical (fatOf bpb disk c) := by
  have hcopied := init_copied hinit
  obtain ⟨-, -, hle⟩ := mount_tables hmount
  have hsmall : FAT_CLUSTER_MAX bpb < 2 ^ 30 := by omega
  have hne : ∀ c, IsCluster (FAT_CLUSTER_MAX bpb) c → fatOf bpb disk c &&& FAT_VALID_MASK ≠ FREE_MASK → sb.fat_table c ≠ 0 := by
    intro c hc hused hzero
    rw [hcopied c hc.2] at hzero
    rw [hzero] at hused
    exact hused rfl
  constructor
  · rintro ⟨hentries, -⟩ c hc hused
    obtain ⟨v, hv, hsame⟩ := hentries c _ (next_cluster_eq hsmall hc) hused
    rw [cache_get_eq hc (hne c hc hused), hcopied c hc.2] at hv
    cases hv
    exact (sameNext_iff _).mp hsame
  · intro hcanonical
    refine ⟨fun c w hw hused => ?_, ?_⟩
    · have hc := next_cluster_range hw
      rw [next_cluster_eq hsmall hc] at hw
      cases hw
      refine ⟨_, cache_get_eq hc (hne c hc hused), ?_⟩
      rw [hcopied c hc.2]
      exact (sameNext_iff _).mpr (hcanonical c hc hused)
    · have hsector := (init_ok_iff _ _ _).mp ⟨sb, hinit⟩
      obtain ⟨disk', hdisk'⟩ := @writebackLoop_returns bpb sb.fat_table hsector (FAT_CLUSTER_MAX bpb + 2) 0 (Nat.zero_le _)
        (by omega) disk
      rw [fat32_fat_bitmap_writeback, hdisk', writebackLoop_same (Nat.zero_le _) hcopied hdisk']

/-- All entries end their chains but that of cluster 2, which is `v`. -/
def diskWith (v : BitVec 32) : Disk := fun sec s => if sec = 32 ∧ s = 2 then v else EOC

theorem fat_cache_agrees_iff_small : ∃ t sb, fat32_fs_mount (volumeOf 1000) = .ok t ∧
    fat32_fat_bitmap_init (FAT_CLUSTER_MAX (volumeOf 1000)) (fatOf (volumeOf 1000) (diskWith 3)) 0 0 = .ok sb ∧
      (CacheLaw (volumeOf 1000) sb (diskWith 3) ↔ ∀ c, IsCluster (FAT_CLUSTER_MAX (volumeOf 1000)) c →
        fatOf (volumeOf 1000) (diskWith 3) c &&& FAT_VALID_MASK ≠ FREE_MASK → Canonical (fatOf (volumeOf 1000) (diskWith 3) c)) := by
  obtain ⟨sb, hsb⟩ := (@init_ok_iff (FAT_CLUSTER_MAX (volumeOf 1000)) (fatOf (volumeOf 1000) (diskWith 3)) 0 0).mpr (by decide)
  exact ⟨⟨4096, 4096⟩, sb, rfl, hsb, fat_cache_agrees_iff rfl hsb⟩

/-- Cluster 2 goes on to cluster 3, with a reserved bit set: in memory, the chain ends. -/
theorem reserved_bit_ends_chain : ¬∀ (bpb : fat_bpb_t) (t : Tables) (disk : Disk) (free_count : BitVec 32) (nxt_free : Nat) (sb : Sb),
    fat32_fs_mount bpb = .ok t →
      fat32_fat_bitmap_init (FAT_CLUSTER_MAX bpb) (fatOf bpb disk) free_count nxt_free = .ok sb → CacheLaw bpb sb disk := by
  intro h
  obtain ⟨sb, hsb⟩ :=
    (@init_ok_iff (FAT_CLUSTER_MAX (volumeOf 1000)) (fatOf (volumeOf 1000) (diskWith 0x10000003)) 0 0).mpr (by decide)
  have hc : IsCluster (FAT_CLUSTER_MAX (volumeOf 1000)) 2 := ⟨by decide, by decide⟩
  obtain ⟨v, hv, hsame⟩ := (h _ ⟨4096, 4096⟩ _ _ _ _ rfl hsb).entries 2 3 rfl (by decide)
  have hraw : sb.fat_table 2 = 0x10000003 := init_copied hsb 2 hc.2
  rw [cache_get_eq hc (by rw [hraw]; decide), hraw] at hv
  cases hv
  have heof : ISEOF 0x00000003 := hsame.1.mp (by unfold ISEOF; decide)
  unfold ISEOF at heof
  revert heof
  decide

end

end LostWakeup.Fs.Fat32.Mount
