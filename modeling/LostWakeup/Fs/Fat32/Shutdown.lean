/-
# LostWakeup.Fs.Fat32.Shutdown — `shutdown_writeback`: what is on the disk when the machine stops.

The inodes are visited in the order of their slots and the root last; each on `s_dirty` is written back, and its pages
are given up.  That puts its size and first cluster into the pages of the parent directory, which reach the disk only if
the parent's visit is still to come.  `shutdown_durable` says when the disk ends up with everything.

The contents of a file are its pages, in units of the 32 bytes of a directory entry.  Locks and read-ahead are left out.
-/
import LostWakeup.Fs.Fat32.Bitmap
import LostWakeup.Fs.Fat32.Fcb
import LostWakeup.Fs.Fat32.InodeTable
import LostWakeup.Fs.Writeback

namespace LostWakeup.Fs.Fat32.Shutdown

open Fs.Fat32.Fcb
open Function (update update_apply update_of_ne update_self)
open Fs.Fat32.Bitmap (FAT_PER_SECTOR)
open Fs.Writeback (Mapping)

/-! ## Inodes, their pages and the disk -/

/-- A page as 32-byte entries. -/
abbrev Page := Nat → dirent_s_t

/-- Entries in a page, `PGSIZE / 32`. -/
def FCB_PER_PAGE : Nat := 128

structure Inode where
  info : inode_info
  ref : Nat
  valid : Bool
  i_nlink : Nat
  parent : Ip
  parent_off : Nat
  cluster_cnt : Nat
  /-- On `s_dirty`. -/
  dirty_list : Bool
  i_writeback : Bool
  dirty_in_parent : Bool
  i_mapping : Option (Mapping Page)
  /-- Whether `i_table` has the clusters of the file. -/
  indexed : Bool

/-- The inode table with the root's inode, the clusters of each file by page, and the FAT in memory and on
the disk. -/
structure System where
  inode : Ip → Inode
  disk : Ip → Nat → Page
  fat_table : Nat → BitVec 32
  fats : Nat → BitVec 32

/-- What is not followed here: how `fat32_get_block` extends the chain of an inode for the pages that are
written, `none` for its panic on a full disk, and what a page read delivers when the index table is gone. -/
structure Volume where
  FAT_CLUSTER_MAX : Nat
  get_block : Ip → (Nat → BitVec 32) → Option (Nat → BitVec 32)
  stale : Ip → Nat → Page

inductive Panic
  | mapping_is_NULL
  | error
  | assertion
  | no_disk_space
  | cant_reach_here
  /-- Not a panic of the source: a loop has not ended within the given turns. -/
  | no_return
  deriving DecidableEq

namespace System

def setInode (s : System) (i : Ip) (n : Inode) : System := { s with inode := update s.inode i n }

variable (v : Volume)

/-- `mpage_writepage`. -/
def mpage_writepage (s : System) (i : Ip) : Except Panic System :=
  match (s.inode i).i_mapping with
  | none => .error .mapping_is_NULL
  | some m =>
    if m.nrpages = 0 then .ok s
    else if m.dirty = ∅ then .error .assertion
    else
      match v.get_block i s.fat_table with
      | none => .error .no_disk_space
      | some fat_table => .ok { s with
          disk := update s.disk i fun index =>
            if index ∈ m.dirty then (m.page index).getD (s.disk i index) else s.disk i index
          fat_table }

/-- A page as it is read from the disk. -/
def readPage (s : System) (i : Ip) (index : Nat) : Page :=
  if (s.inode i).indexed then s.disk i index else v.stale i index

/-- The page in the inode's tree, read from the disk if it is not there. -/
def getPage (s : System) (i : Ip) (index : Nat) : Page :=
  (((s.inode i).i_mapping.bind fun m => m.page index)).getD (s.readPage v i index)

/-- An entry is read from the directory, changed, and written to it; `fat32_i_mapping_init` makes the tree if
there is none. -/
def write_fcb (s : System) (dp : Ip) (off : Nat) (change : dirent_s_t → dirent_s_t) : System :=
  let index := off / FCB_PER_PAGE
  let page := s.getPage v dp index
  let page := update page (off % FCB_PER_PAGE) (change (page (off % FCB_PER_PAGE)))
  let m := (s.inode dp).i_mapping.getD .init
  s.setInode dp { s.inode dp with i_mapping := some ((m.put index page).tag index), dirty_list := true }

/-- `fat32_inode_update`. -/
def fat32_inode_update (s : System) (i : Ip) : Except Panic System :=
  let n := s.inode i
  if i = none then .ok s
  else if (s.inode n.parent).valid = false then .error .error
  else if (s.inode n.parent).info.i_size.toNat < (n.parent_off + 1) * 32 then .error .assertion
  else .ok (s.write_fcb v n.parent n.parent_off (update_fcb n.info))

/-- `sync_inode`, where nothing else writes the inode back. -/
def sync_inode (s : System) (i : Ip) : Except Panic System := do
  let s ← (s.setInode i { s.inode i with i_writeback := true }).mpage_writepage v i
  if (s.inode i).dirty_in_parent then s.fat32_inode_update v i else return s

/-- `fat32_i_mapping_writeback`; while a flusher is at the inode, `sync_inode` returns -1. -/
def fat32_i_mapping_writeback (s : System) (i : Ip) : Except Panic System :=
  if (s.inode i).dirty_list = false then .ok s
  else if (s.inode i).i_writeback then .ok s
  else (s.sync_inode v i).map fun s =>
    s.setInode i { s.inode i with dirty_list := false, i_writeback := false }

def fat32_i_mapping_destroy (s : System) (i : Ip) : System :=
  match (s.inode i).i_mapping with
  | none => s
  | some m => if m.nrpages = 0 then s else s.setInode i { s.inode i with i_mapping := none }

def fat32_free_index_table (s : System) (i : Ip) : System :=
  if (s.inode i).cluster_cnt = 0 then s else s.setInode i { s.inode i with indexed := false }

/-- What `shutdown_writeback` does with one inode. -/
def visit (s : System) (i : Ip) : Except Panic System :=
  (s.fat32_i_mapping_writeback v i).map fun s => (s.fat32_i_mapping_destroy i).fat32_free_index_table i

/-- The two nested loops of `fat32_fat_bitmap_writeback`, one turn an entry.  The test of the outer loop is
made at the first entry of each sector. -/
def writebackLoop (fat_table : Nat → BitVec 32) : Nat → Nat → (Nat → BitVec 32) → Except Panic (Nat → BitVec 32)
  | 0, _, _ => .error .no_return
  | fuel + 1, c, fats =>
    if c % FAT_PER_SECTOR = 0 ∧ ¬ c < v.FAT_CLUSTER_MAX then .error .cant_reach_here
    else
      let fats := update fats c (fat_table c)
      if c + 1 > v.FAT_CLUSTER_MAX then .ok fats else writebackLoop fat_table fuel (c + 1) fats

def fat32_fat_bitmap_writeback (s : System) : Except Panic System :=
  (writebackLoop v s.fat_table (v.FAT_CLUSTER_MAX + 1) 0 s.fats).map fun fats => { s with fats }

/-- One turn of the loop over the table. -/
def turn (s : System) (k : Fin NINODE) : Except Panic System :=
  if (s.inode (some k)).ref ≠ 0 then s.visit v (some k) else .ok s

/-- `shutdown_writeback`. -/
def shutdown_writeback (s : System) : Except Panic System := do
  let s ← (List.finRange NINODE).foldlM (turn v) s
  let s ← s.visit v none
  s.fat32_fat_bitmap_writeback v

end System

/-! ## The property and its condition -/

/-- The 32-byte entry `r` of a file with these pages. -/
def fcbAt (pages : Nat → Page) (r : Nat) : dirent_s_t := pages (r / FCB_PER_PAGE) (r % FCB_PER_PAGE)

/-- What a reader of the file gets: the tree's pages over those of the disk. -/
def Inode.current (n : Inode) (disk : Nat → Page) (index : Nat) : Page :=
  (n.i_mapping.bind fun m => m.page index).getD (disk index)

def Inode.Tagged (n : Inode) (index : Nat) : Prop := ∃ m, n.i_mapping = some m ∧ index ∈ m.dirty

/-- `mpage_writepage` does not panic for the tree: there is one, without pages or with one that is tagged. -/
def Inode.Writable (n : Inode) : Prop := ∃ m, n.i_mapping = some m ∧ (m.nrpages = 0 ∨ m.dirty ≠ ∅)

def Inode.Cached (n : Inode) : Prop := ∃ m, n.i_mapping = some m ∧ m.nrpages ≠ 0

/-- The order of the visits. -/
def Before : Ip → Ip → Prop
  | some j, some k => j < k
  | some _, none => True
  | none, _ => False

namespace System

/-- The root, or a slot of the table that is taken. -/
def Used (s : System) (i : Ip) : Prop := i = none ∨ (s.inode i).ref ≠ 0

/-- A file that has not been unlinked. -/
def IsFile (s : System) (i : Ip) : Prop := s.Used i ∧ (s.inode i).i_nlink ≠ 0

def current (s : System) (i : Ip) : Nat → Page := (s.inode i).current (s.disk i)

/-- The entry `r` of the directory `p` is that of the inode `c`. -/
structure EntryOf (s : System) (c p : Ip) (r : Nat) : Prop where
  used : s.Used c
  child : c ≠ none
  parent : (s.inode c).parent = p
  parent_off : (s.inode c).parent_off = r

/-- The entry `e` of the file `c`, where `e₀` is cached, has the file's size and first cluster. -/
structure Right (s : System) (c : Ip) (e₀ e : dirent_s_t) : Prop where
  name : e.DIR_Name = e₀.DIR_Name
  size : e.DIR_FileSize = (s.inode c).info.DirFileSize
  cluster_high : e.DIR_FstClusHI = DIR_FIRST_HIGH (s.inode c).info.cluster_start
  cluster_low : e.DIR_FstClusLO = DIR_FIRST_LOW (s.inode c).info.cluster_start

/-- Shutdown durability: the disk of `s'` is the logical state of `s`. -/
structure Durable (v : Volume) (s s' : System) : Prop where
  contents : ∀ i, s.IsFile i → ∀ r, (∀ c, ¬s.EntryOf c i r) → fcbAt (s'.disk i) r = fcbAt (s.current i) r
  entries : ∀ c p r, s.IsFile c → s.EntryOf c p r → s.Right c (fcbAt (s.current p) r) (fcbAt (s'.disk p) r)
  fat : ∀ c, c ≤ v.FAT_CLUSTER_MAX → s'.fats c = s'.fat_table c

/-- The inode is on the list when its visit comes, from the start or through an inode visited before, and
no flusher is at it. -/
inductive Synced (s : System) : Ip → Prop
  | listed {i : Ip} : s.Used i → (s.inode i).dirty_list = true → (s.inode i).i_writeback = false → Synced s i
  | updated {c p : Ip} : s.Used c → c ≠ none → Synced s c → (s.inode c).dirty_in_parent = true →
      (s.inode c).parent = p → Before c p → (s.inode p).i_writeback = false → Synced s p

/-- The visit of the inode puts its size into its entry. -/
structure Pushes (s : System) (c : Ip) : Prop where
  used : s.Used c
  child : c ≠ none
  synced : s.Synced c
  dirty_in_parent : (s.inode c).dirty_in_parent = true

/-- And that entry is still written to the disk. -/
structure InTime (s : System) (c p : Ip) (r : Nat) : Prop extends s.Pushes c where
  parent : (s.inode c).parent = p
  parent_off : (s.inode c).parent_off = r
  before : Before c p
  unlocked : (s.inode p).i_writeback = false

/-- The page is written to the disk. -/
def Taken (s : System) (i : Ip) (index : Nat) : Prop :=
  s.Synced i ∧ ((s.inode i).Tagged index ∨ ∃ c r, s.InTime c i r ∧ r / FCB_PER_PAGE = index)

/-- The inode is written back without a tree, or with one that has pages and none tagged, when its visit comes. -/
structure Stuck (s : System) (i : Ip) : Prop where
  synced : s.Synced i
  untouched : ∀ c r, ¬s.InTime c i r
  unwritable : ¬(s.inode i).Writable

/-- The visit of the inode writes pages. -/
def Writes (s : System) (i : Ip) : Prop := s.Synced i ∧ ((s.inode i).Cached ∨ ∃ c r, s.InTime c i r)

open Classical in
/-- The FAT after the visits of `done`, if the disk has room for what they write. -/
noncomputable def grown (v : Volume) (s : System) (done : List Ip) : Option (Nat → BitVec 32) :=
  done.foldlM (fun fat_table i => if s.Writes i then v.get_block i fat_table else some fat_table) s.fat_table

/-- The visits: the slots of the table, and the root. -/
def visits : List Ip := (List.finRange NINODE).map some ++ [none]

/-- The write-back gets through, every page that differs from the disk is written, and every file whose entry is not
right has it updated before the parent is visited; the others have it right in the page that is written or on the
disk. -/
structure Settled (v : Volume) (s : System) : Prop where
  written : ∀ i, ¬s.Stuck i
  room : s.grown v visits ≠ none
  contents : ∀ i, s.IsFile i → ∀ r, (∀ c, ¬s.EntryOf c i r) → fcbAt (s.current i) r ≠ fcbAt (s.disk i) r →
    s.Taken i (r / FCB_PER_PAGE)
  entries : ∀ c p r, s.IsFile c → s.EntryOf c p r → s.InTime c p r ∨
    (s.Taken p (r / FCB_PER_PAGE) ∧ s.Right c (fcbAt (s.current p) r) (fcbAt (s.current p) r)) ∨
    (¬s.Taken p (r / FCB_PER_PAGE) ∧ s.Right c (fcbAt (s.current p) r) (fcbAt (s.disk p) r))

end System

/-- A volume at work: what the file system keeps true of its inodes. -/
structure Loaded (v : Volume) extends System where
  parents : ∀ c, toSystem.Used c → c ≠ none → toSystem.Used (inode c).parent ∧
    (inode (inode c).parent).valid = true ∧ ((inode c).parent_off + 1) * 32 ≤ (inode (inode c).parent).info.i_size.toNat
  keys : ∀ c d p r, toSystem.EntryOf c p r → toSystem.EntryOf d p r → c = d
  indexed : ∀ i, toSystem.Used i → (inode i).indexed = true
  empty : ∀ i m, (inode i).i_mapping = some m → m.nrpages = 0 → ∀ index, m.page index = none
  /-- `fat32_fat_bitmap_init` has come to its end. -/
  fat_sectors : v.FAT_CLUSTER_MAX % FAT_PER_SECTOR ≠ 0

/-! ## What a visit does to an inode -/

namespace System

variable {v : Volume} {s s' s₀ : System} {i j c p : Ip} {n : Inode} {index r off : Nat}

@[simp] theorem setInode_self (s : System) (i : Ip) (n : Inode) : (s.setInode i n).inode i = n :=
  update_self ..

theorem setInode_ne (s : System) (n : Inode) (h : j ≠ i) : (s.setInode i n).inode j = s.inode j :=
  update_of_ne h ..

/-- `mpage_writepage` gets through, and the tagged pages go to the disk. -/
theorem mpage_spec (fat : Nat → BitVec 32) (hwritable : (s.inode i).Writable)
    (hempty : ∀ m, (s.inode i).i_mapping = some m → m.nrpages = 0 → ∀ index, m.page index = none)
    (hroom : (s.inode i).Cached → v.get_block i s.fat_table = some fat) (hstay : ¬(s.inode i).Cached → fat = s.fat_table) :
    ∃ s', s.mpage_writepage v i = .ok s' ∧ s'.inode = s.inode ∧ s'.fat_table = fat ∧
      (∀ j, j ≠ i → s'.disk j = s.disk j) ∧
      ∀ index, ((s.inode i).Tagged index → s'.disk i index = s.current i index) ∧
        (¬(s.inode i).Tagged index → s'.disk i index = s.disk i index) := by
  obtain ⟨m, hm, htags⟩ := hwritable
  have htag : ∀ index, (s.inode i).Tagged index ↔ index ∈ m.dirty := by
    intro index
    simp [Inode.Tagged, hm]
  have hcur : ∀ index, s.current i index = (m.page index).getD (s.disk i index) := by
    intro index
    simp [current, Inode.current, hm]
  unfold mpage_writepage
  rw [hm]
  dsimp only
  rcases eq_or_ne m.nrpages 0 with hzero | hpages
  · refine ⟨s, if_pos hzero, rfl, (hstay ?_).symm, fun _ _ => rfl, fun index => ⟨fun _ => ?_, fun _ => rfl⟩⟩
    · rintro ⟨m', hm', hpages⟩
      cases hm.symm.trans hm'
      exact hpages hzero
    · rw [hcur, hempty m hm hzero index]
      rfl
  rw [if_neg hpages, if_neg (htags.resolve_left hpages), hroom ⟨m, hm, hpages⟩]
  refine ⟨_, rfl, rfl, rfl, fun j hj => update_of_ne hj .., fun index => ?_⟩
  dsimp only
  rw [update_self, htag, hcur]
  constructor
  · intro hdirty
    rw [if_pos hdirty]
  · intro hclean
    rw [if_neg hclean]

theorem mpage_panics (h : ¬(s.inode i).Writable ∨ (s.inode i).Cached ∧ v.get_block i s.fat_table = none) :
    ∃ e, s.mpage_writepage v i = .error e := by
  unfold mpage_writepage
  split
  · exact ⟨_, rfl⟩
  next m hm =>
  rcases h with h | ⟨⟨m', hm', hpages⟩, hfull⟩
  · obtain ⟨hpages, htags⟩ := not_or.mp fun hor => h ⟨m, hm, hor⟩
    exact ⟨_, by rw [if_neg hpages, if_pos (not_not.mp htags)]⟩
  · cases hm.symm.trans hm'
    rw [if_neg hpages, hfull]
    split
    · exact ⟨_, rfl⟩
    · exact ⟨_, rfl⟩

/-- What an update leaves of the directory: one entry has changed, in a page that is tagged. -/
structure Rewritten (s : System) (n n' : Inode) (dp : Ip) (off : Nat) (change : dirent_s_t → dirent_s_t) : Prop where
  i_writeback : n'.i_writeback = n.i_writeback
  indexed : n'.indexed = n.indexed
  dirty_list : n'.dirty_list = true
  writable : n'.Writable
  empty : ∀ m, n'.i_mapping = some m → m.nrpages ≠ 0
  page : fcbAt (n'.current (s.disk dp)) off = change (fcbAt (n.current (s.disk dp)) off)
  page_ne : ∀ r, r ≠ off → fcbAt (n'.current (s.disk dp)) r = fcbAt (n.current (s.disk dp)) r
  tagged : ∀ index, n'.Tagged index ↔ n.Tagged index ∨ index = off / FCB_PER_PAGE

theorem write_fcb_spec (dp : Ip) (off : Nat) (change : dirent_s_t → dirent_s_t) (hindexed : (s.inode dp).indexed = true)
    (hempty : ∀ m, (s.inode dp).i_mapping = some m → m.nrpages = 0 → ∀ index, m.page index = none) :
    Rewritten s (s.inode dp) ((s.write_fcb v dp off change).inode dp) dp off change := by
  obtain ⟨m, hm⟩ : ∃ m, m = (s.inode dp).i_mapping.getD .init := ⟨_, rfl⟩
  have hempty' : m.nrpages = 0 → ∀ index, m.page index = none := by
    intro hzero index
    rcases hmap : (s.inode dp).i_mapping with _ | m'
    · rw [hm, hmap]
      rfl
    · rw [hm, hmap] at hzero ⊢
      exact hempty m' hmap hzero index
  have hcur : ∀ index, (s.inode dp).current (s.disk dp) index = (m.page index).getD (s.disk dp index) := by
    intro index
    rw [hm]
    unfold Inode.current
    cases (s.inode dp).i_mapping <;> rfl
  have htag : ∀ index, (s.inode dp).Tagged index ↔ index ∈ m.dirty := by
    intro index
    rw [hm]
    unfold Inode.Tagged
    cases (s.inode dp).i_mapping <;> simp [Mapping.init]
  have hpage : s.getPage v dp (off / FCB_PER_PAGE) = (s.inode dp).current (s.disk dp) (off / FCB_PER_PAGE) := by
    unfold getPage readPage
    rw [if_pos hindexed]
    rfl
  have hself : (s.write_fcb v dp off change).inode dp = { s.inode dp with
      i_mapping := some ((m.put (off / FCB_PER_PAGE)
        (update ((s.inode dp).current (s.disk dp) (off / FCB_PER_PAGE)) (off % FCB_PER_PAGE)
          (change (fcbAt ((s.inode dp).current (s.disk dp)) off)))).tag (off / FCB_PER_PAGE))
      dirty_list := true } := by
    unfold write_fcb
    dsimp only
    rw [hpage, ← hm, setInode_self]
    rfl
  have hnew : ∀ index, ((s.write_fcb v dp off change).inode dp).current (s.disk dp) index =
      if index = off / FCB_PER_PAGE then
        update ((s.inode dp).current (s.disk dp) (off / FCB_PER_PAGE)) (off % FCB_PER_PAGE)
          (change (fcbAt ((s.inode dp).current (s.disk dp)) off))
      else (s.inode dp).current (s.disk dp) index := by
    intro index
    rw [hself]
    show (update m.page (off / FCB_PER_PAGE) _ index).getD (s.disk dp index) = _
    split
    · next heq =>
      rw [heq, update_self]
      rfl
    · next hne =>
      rw [update_of_ne hne, hcur]
  refine ⟨?_, ?_, ?_, ?_, ?_, ?_, ?_, ?_⟩
  · rw [hself]
  · rw [hself]
  · rw [hself]
  · rw [hself]
    exact ⟨_, rfl, .inr (Finset.insert_ne_empty _ _)⟩
  · intro m' hm'
    rw [hself, Option.some.injEq] at hm'
    rw [← hm']
    show (if (m.page (off / FCB_PER_PAGE)).isNone then m.nrpages + 1 else m.nrpages) ≠ 0
    split
    · exact Nat.succ_ne_zero _
    · next hsome =>
      intro hzero
      exact hsome (by rw [hempty' hzero]; rfl)
  · unfold fcbAt
    rw [hnew, if_pos rfl, update_self]
    rfl
  · intro r hr
    unfold fcbAt
    rw [hnew]
    split
    · next hindex =>
      -- another entry of the same page
      have hoffset : r % FCB_PER_PAGE ≠ off % FCB_PER_PAGE := by
        intro hmod
        apply hr
        rw [← Nat.div_add_mod r FCB_PER_PAGE, ← Nat.div_add_mod off FCB_PER_PAGE, hindex, hmod]
      rw [update_of_ne hoffset, hindex]
    · rfl
  · intro index
    rw [htag]
    unfold Inode.Tagged
    rw [hself]
    simp only [Option.some.injEq, exists_eq_left', Mapping.tag, Mapping.put, Finset.mem_insert]
    exact or_comm

theorem write_fcb_ne {dp : Ip} (change : dirent_s_t → dirent_s_t) (h : j ≠ dp) :
    (s.write_fcb v dp off change).inode j = s.inode j := setInode_ne s _ h

/-! ## What no visit changes -/

structure Fixed (n n' : Inode) : Prop where
  info : n'.info = n.info
  ref : n'.ref = n.ref
  valid : n'.valid = n.valid
  parent : n'.parent = n.parent
  parent_off : n'.parent_off = n.parent_off
  dirty_in_parent : n'.dirty_in_parent = n.dirty_in_parent

theorem Fixed.refl (n : Inode) : Fixed n n := ⟨rfl, rfl, rfl, rfl, rfl, rfl⟩

theorem Fixed.trans {n' n'' : Inode} (h : Fixed n n') (h' : Fixed n' n'') : Fixed n n'' where
  info := h'.info.trans h.info
  ref := h'.ref.trans h.ref
  valid := h'.valid.trans h.valid
  parent := h'.parent.trans h.parent
  parent_off := h'.parent_off.trans h.parent_off
  dirty_in_parent := h'.dirty_in_parent.trans h.dirty_in_parent

theorem fixed_setInode (h : Fixed (s.inode i) n) (j : Ip) : Fixed (s.inode j) ((s.setInode i n).inode j) := by
  obtain rfl | hj := eq_or_ne j i
  · rw [setInode_self]
    exact h
  · rw [setInode_ne s n hj]
    exact .refl _

theorem fixed_write_fcb {dp : Ip} (change : dirent_s_t → dirent_s_t) (j : Ip) :
    Fixed (s.inode j) ((s.write_fcb v dp off change).inode j) := by
  obtain rfl | hj := eq_or_ne j dp
  · unfold write_fcb
    dsimp only
    rw [setInode_self]
    exact ⟨rfl, rfl, rfl, rfl, rfl, rfl⟩
  · rw [write_fcb_ne change hj]
    exact .refl _

/-- The pages and the index table of the inode are given up; nothing else happens. -/
theorem release_spec (s : System) (i : Ip) :
    (∀ j, j ≠ i → ((s.fat32_i_mapping_destroy i).fat32_free_index_table i).inode j = s.inode j) ∧
      ((s.fat32_i_mapping_destroy i).fat32_free_index_table i).disk = s.disk ∧
      ((s.fat32_i_mapping_destroy i).fat32_free_index_table i).fat_table = s.fat_table ∧
      Fixed (s.inode i) (((s.fat32_i_mapping_destroy i).fat32_free_index_table i).inode i) := by
  have hdestroy : (∀ j, j ≠ i → (s.fat32_i_mapping_destroy i).inode j = s.inode j) ∧
      (s.fat32_i_mapping_destroy i).disk = s.disk ∧ (s.fat32_i_mapping_destroy i).fat_table = s.fat_table ∧
      Fixed (s.inode i) ((s.fat32_i_mapping_destroy i).inode i) := by
    unfold fat32_i_mapping_destroy
    split
    · exact ⟨fun _ _ => rfl, rfl, rfl, .refl _⟩
    split
    · exact ⟨fun _ _ => rfl, rfl, rfl, .refl _⟩
    · refine ⟨fun j hj => setInode_ne s _ hj, rfl, rfl, ?_⟩
      rw [setInode_self]
      exact ⟨rfl, rfl, rfl, rfl, rfl, rfl⟩
  obtain ⟨hinode, hdisk, hfat, hfixed⟩ := hdestroy
  unfold fat32_free_index_table
  split
  · exact ⟨hinode, hdisk, hfat, hfixed⟩
  · refine ⟨fun j hj => (setInode_ne _ _ hj).trans (hinode j hj), hdisk, hfat, ?_⟩
    rw [setInode_self]
    exact ⟨hfixed.info, hfixed.ref, hfixed.valid, hfixed.parent, hfixed.parent_off, hfixed.dirty_in_parent⟩

/-! ## Before the visit of an inode, and after -/

/-- What the visits of `done` have done to an inode `j` that is still to be visited. -/
structure Todo (s₀ : System) (done : List Ip) (j : Ip) (n : Inode) (disk : Nat → Page) : Prop where
  i_writeback : n.i_writeback = (s₀.inode j).i_writeback
  indexed : s₀.Used j → n.indexed = true
  listed : n.dirty_list = true ↔
    (s₀.inode j).dirty_list = true ∨ ∃ c ∈ done, s₀.Pushes c ∧ (s₀.inode c).parent = j
  writable : n.Writable ↔ (s₀.inode j).Writable ∨ ∃ c ∈ done, s₀.Pushes c ∧ (s₀.inode c).parent = j
  cached : n.Cached ↔ (s₀.inode j).Cached ∨ ∃ c ∈ done, s₀.Pushes c ∧ (s₀.inode c).parent = j
  empty : ∀ m, n.i_mapping = some m → m.nrpages = 0 → ∀ index, m.page index = none
  page : ∀ c ∈ done, s₀.Pushes c → (s₀.inode c).parent = j → fcbAt (n.current disk) (s₀.inode c).parent_off =
    update_fcb (s₀.inode c).info (fcbAt (s₀.current j) (s₀.inode c).parent_off)
  page_ne : ∀ r, (∀ c ∈ done, s₀.Pushes c → (s₀.inode c).parent = j → (s₀.inode c).parent_off ≠ r) →
    fcbAt (n.current disk) r = fcbAt (s₀.current j) r
  tagged : ∀ index, n.Tagged index ↔ (s₀.inode j).Tagged index ∨
    ∃ c ∈ done, s₀.Pushes c ∧ (s₀.inode c).parent = j ∧ (s₀.inode c).parent_off / FCB_PER_PAGE = index
  disk : disk = s₀.disk j

/-- What the visit of an inode leaves on the disk. -/
structure Image (s₀ : System) (i : Ip) (disk : Nat → Page) : Prop where
  updated : ∀ c r, s₀.InTime c i r → fcbAt disk r = update_fcb (s₀.inode c).info (fcbAt (s₀.current i) r)
  taken : ∀ r, s₀.Taken i (r / FCB_PER_PAGE) → (∀ c, ¬s₀.InTime c i r) → fcbAt disk r = fcbAt (s₀.current i) r
  left : ∀ r, ¬s₀.Taken i (r / FCB_PER_PAGE) → fcbAt disk r = fcbAt (s₀.disk i) r

variable {done : List Ip} {disk disk' : Nat → Page}

/-- A visit that does not update `j`. -/
theorem Todo.skip (h : Todo s₀ done j n disk) (hnot : ¬(s₀.Pushes i ∧ (s₀.inode i).parent = j)) :
    Todo s₀ (done ++ [i]) j n disk := by
  have hmem : ∀ {P : Ip → Prop}, (∃ c ∈ done ++ [i], s₀.Pushes c ∧ (s₀.inode c).parent = j ∧ P c) ↔
      ∃ c ∈ done, s₀.Pushes c ∧ (s₀.inode c).parent = j ∧ P c := by
    intro P
    constructor
    · rintro ⟨c, hc, hpush, hparent, hP⟩
      rcases List.mem_append.mp hc with hc | hc
      · exact ⟨c, hc, hpush, hparent, hP⟩
      · obtain rfl := List.mem_singleton.mp hc
        exact absurd ⟨hpush, hparent⟩ hnot
    · rintro ⟨c, hc, hP⟩
      exact ⟨c, List.mem_append_left _ hc, hP⟩
  have hiff := hmem (P := fun _ => True)
  simp only [and_true] at hiff
  refine ⟨h.i_writeback, h.indexed, ?_, ?_, ?_, h.empty, ?_, ?_, ?_, h.disk⟩
  · rw [h.listed, hiff]
  · rw [h.writable, hiff]
  · rw [h.cached, hiff]
  · intro c hc hpush hparent
    rcases List.mem_append.mp hc with hc | hc
    · exact h.page c hc hpush hparent
    · obtain rfl := List.mem_singleton.mp hc
      exact absurd ⟨hpush, hparent⟩ hnot
  · intro r hr
    apply h.page_ne
    intro c hc
    exact hr c (List.mem_append_left _ hc)
  · intro index
    rw [h.tagged, hmem]

/-- The visit of a file with an entry in `j`. -/
theorem Todo.push {n' : Inode} (h : Todo s₀ done j n disk) (hi : i ∉ done)
    (hkeys : ∀ c d p r, s₀.EntryOf c p r → s₀.EntryOf d p r → c = d) (hpush : s₀.Pushes i)
    (hparent : (s₀.inode i).parent = j) (hdisk : s.disk j = disk)
    (hnew : Rewritten s n n' j (s₀.inode i).parent_off (update_fcb (s₀.inode i).info)) :
    Todo s₀ (done ++ [i]) j n' disk := by
  -- nobody before has written the same entry
  have hother : ∀ c ∈ done, s₀.Pushes c → (s₀.inode c).parent = j →
      (s₀.inode c).parent_off ≠ (s₀.inode i).parent_off := by
    intro c hc hpc hpar heq
    obtain rfl := hkeys c i j _ ⟨hpc.used, hpc.child, hpar, heq⟩ ⟨hpush.used, hpush.child, hparent, rfl⟩
    exact hi hc
  have hpage := hnew.page
  have hpage_ne := hnew.page_ne
  rw [hdisk] at hpage hpage_ne
  have hlast : ∃ c ∈ done ++ [i], s₀.Pushes c ∧ (s₀.inode c).parent = j :=
    ⟨i, List.mem_append_right _ List.mem_cons_self, hpush, hparent⟩
  refine ⟨hnew.i_writeback.trans h.i_writeback, fun hj => hnew.indexed.trans (h.indexed hj),
    ⟨fun _ => .inr hlast, fun _ => hnew.dirty_list⟩, ⟨fun _ => .inr hlast, fun _ => hnew.writable⟩,
    ⟨fun _ => .inr hlast, fun _ => hnew.writable.imp fun m hm => ⟨hm.1, hnew.empty m hm.1⟩⟩,
    fun m hm hzero => absurd hzero (hnew.empty m hm), ?_, ?_, ?_, h.disk⟩
  · intro c hc hpc hpar
    rcases List.mem_append.mp hc with hc | hc
    · rw [hpage_ne _ (hother c hc hpc hpar)]
      exact h.page c hc hpc hpar
    · obtain rfl := List.mem_singleton.mp hc
      rw [hpage, h.page_ne _ fun c hc hpc hpar => hother c hc hpc hpar]
  · intro r hr
    have hri := hr i (List.mem_append_right _ List.mem_cons_self) hpush hparent
    rw [hpage_ne r hri.symm]
    apply h.page_ne
    intro c hc
    exact hr c (List.mem_append_left _ hc)
  · intro index
    rw [hnew.tagged, h.tagged, or_assoc]
    apply or_congr_right
    constructor
    · rintro (⟨c, hc, hrest⟩ | rfl)
      · exact ⟨c, List.mem_append_left _ hc, hrest⟩
      · exact ⟨i, List.mem_append_right _ List.mem_cons_self, hpush, hparent, rfl⟩
    rintro ⟨c, hc, hpc, hpar, hindex⟩
    rcases List.mem_append.mp hc with hc | hc
    · exact .inl ⟨c, hc, hpc, hpar, hindex⟩
    · obtain rfl := List.mem_singleton.mp hc
      exact .inr hindex.symm

theorem Synced.unlocked (h : s.Synced i) : (s.inode i).i_writeback = false := by
  cases h with
  | listed _ _ hwb => exact hwb
  | updated _ _ _ _ _ _ hwb => exact hwb

theorem Todo.synced_iff (h : Todo s₀ done i n disk) (hused : s₀.Used i) (hdone : ∀ c, c ∈ done ↔ Before c i) :
    s₀.Synced i ↔ n.dirty_list = true ∧ n.i_writeback = false := by
  rw [h.listed, h.i_writeback]
  constructor
  · intro hsync
    refine ⟨?_, hsync.unlocked⟩
    cases hsync with
    | listed _ hdirty _ => exact .inl hdirty
    | @updated c _ hc hchild hcsync hdip hparent hbefore _ =>
      exact .inr ⟨c, (hdone c).mpr hbefore, ⟨hc, hchild, hcsync, hdip⟩, hparent⟩
  · rintro ⟨hdirty | ⟨c, hc, hpush, hparent⟩, hwb⟩
    · exact .listed hused hdirty hwb
    · exact .updated hpush.used hpush.child hpush.synced hpush.dirty_in_parent hparent ((hdone c).mp hc) hwb

theorem Todo.stuck_iff (h : Todo s₀ done i n disk) (hdone : ∀ c, c ∈ done ↔ Before c i) (hsync : s₀.Synced i) :
    s₀.Stuck i ↔ ¬n.Writable := by
  rw [h.writable]
  constructor
  · rintro ⟨-, huntouched, hun⟩ (hw | ⟨c, hc, hpush, hparent⟩)
    · exact hun hw
    · exact huntouched c _ ⟨hpush, hparent, rfl, (hdone c).mp hc, hsync.unlocked⟩
  · intro hnot
    refine ⟨hsync, fun c r htime => hnot (.inr ⟨c, (hdone c).mpr htime.before, htime.toPushes, htime.parent⟩), ?_⟩
    exact fun hw => hnot (.inl hw)

theorem Todo.writes_iff (h : Todo s₀ done i n disk) (hdone : ∀ c, c ∈ done ↔ Before c i) (hsync : s₀.Synced i) :
    s₀.Writes i ↔ n.Cached := by
  rw [h.cached]
  constructor
  · rintro ⟨-, hc | ⟨c, r, htime⟩⟩
    · exact .inl hc
    · exact .inr ⟨c, (hdone c).mpr htime.before, htime.toPushes, htime.parent⟩
  · rintro (hc | ⟨c, hc, hpush, hparent⟩)
    · exact ⟨hsync, .inl hc⟩
    · exact ⟨hsync, .inr ⟨c, _, hpush, hparent, rfl, (hdone c).mp hc, hsync.unlocked⟩⟩

/-- The pages that are taken are the tagged ones. -/
theorem Todo.image (h : Todo s₀ done i n disk) (hdone : ∀ c, c ∈ done ↔ Before c i) (hsync : s₀.Synced i)
    (htagged : ∀ index, n.Tagged index → disk' index = n.current disk index)
    (hclean : ∀ index, ¬n.Tagged index → disk' index = disk index) : Image s₀ i disk' := by
  have htime : ∀ c r, s₀.InTime c i r ↔
      c ∈ done ∧ s₀.Pushes c ∧ (s₀.inode c).parent = i ∧ (s₀.inode c).parent_off = r := by
    intro c r
    rw [hdone]
    constructor
    · rintro ⟨hpush, hparent, hoff, hbefore, -⟩
      exact ⟨hbefore, hpush, hparent, hoff⟩
    · rintro ⟨hbefore, hpush, hparent, hoff⟩
      exact ⟨hpush, hparent, hoff, hbefore, hsync.unlocked⟩
  have htaken : ∀ index, s₀.Taken i index ↔ n.Tagged index := by
    intro index
    rw [h.tagged]
    constructor
    · rintro ⟨-, htag | ⟨c, r, hc, hr⟩⟩
      · exact .inl htag
      · obtain ⟨hmem, hpush, hparent, hoff⟩ := (htime c r).mp hc
        exact .inr ⟨c, hmem, hpush, hparent, hoff ▸ hr⟩
    · rintro (htag | ⟨c, hmem, hpush, hparent, hindex⟩)
      · exact ⟨hsync, .inl htag⟩
      · exact ⟨hsync, .inr ⟨c, _, (htime c _).mpr ⟨hmem, hpush, hparent, rfl⟩, hindex⟩⟩
  refine ⟨?_, ?_, ?_⟩
  · intro c r hc
    have htag := (htaken (r / FCB_PER_PAGE)).mp ⟨hsync, .inr ⟨c, r, hc, rfl⟩⟩
    obtain ⟨hmem, hpush, hparent, hoff⟩ := (htime c r).mp hc
    have hpage := h.page c hmem hpush hparent
    rw [hoff] at hpage
    rw [← hpage]
    unfold fcbAt
    rw [htagged _ htag]
  · intro r htake hnone
    rw [← h.page_ne r ?_]
    · unfold fcbAt
      rw [htagged _ ((htaken _).mp htake)]
    · intro c hmem hpush hparent hoff
      exact hnone c ((htime c r).mpr ⟨hmem, hpush, hparent, hoff⟩)
  · intro r hleft
    unfold fcbAt
    rw [hclean _ fun htag => hleft ((htaken _).mpr htag), h.disk]

theorem Todo.image_of_not (h : Todo s₀ done i n disk) (hsync : ¬s₀.Synced i) : Image s₀ i disk := by
  refine ⟨?_, ?_, ?_⟩
  · intro c r hc
    exact absurd (.updated hc.used hc.child hc.synced hc.dirty_in_parent hc.parent hc.before hc.unlocked) hsync
  · intro r htake
    exact absurd htake.1 hsync
  · intro r _
    rw [h.disk]

/-! ## The visits one after the other -/

open Classical in
theorem grown_snoc (s : System) (done : List Ip) (i : Ip) : s.grown v (done ++ [i]) =
    (s.grown v done).bind fun fat => if s.Writes i then v.get_block i fat else some fat := by
  simp [grown, List.foldlM_append]

theorem grown_append {done more : List Ip} (h : s.grown v done = none) : s.grown v (done ++ more) = none := by
  unfold grown at h ⊢
  rw [List.foldlM_append, h]
  rfl

/-- The visit of the inode panics. -/
def Blocked (v : Volume) (s : System) (done : List Ip) (i : Ip) : Prop := s.Stuck i ∨ s.grown v (done ++ [i]) = none

/-- The state after the visits of `done`. -/
structure Visited (v : Volume) (s₀ : System) (done : List Ip) (s : System) : Prop where
  fat_table : s₀.grown v done = some s.fat_table
  fixed : ∀ j, Fixed (s₀.inode j) (s.inode j)
  todo : ∀ j, j ∉ done → Todo s₀ done j (s.inode j) (s.disk j)
  image : ∀ j ∈ done, s₀.Used j → Image s₀ j (s.disk j)

theorem visited_nil (l : Loaded v) : Visited v l.toSystem [] l.toSystem where
  fat_table := rfl
  fixed := fun _ => .refl _
  todo := fun j _ =>
    { i_writeback := rfl
      indexed := l.indexed j
      listed := by simp
      writable := by simp
      cached := by simp
      empty := l.empty j
      page := by simp
      page_ne := fun _ _ => rfl
      tagged := by simp
      disk := rfl }
  image := by simp

/-- `fat32_inode_update`, in the middle of the visits. -/
theorem update_spec (l : Loaded v) (hfixed : ∀ j, Fixed (l.inode j) (s.inode j)) (hused : l.toSystem.Used i) :
    ∃ s', s.fat32_inode_update v i = .ok s' ∧
      s' = if i = none then s else
        s.write_fcb v (l.inode i).parent (l.inode i).parent_off (update_fcb (l.inode i).info) := by
  unfold fat32_inode_update
  dsimp only
  rcases eq_or_ne i none with hroot | hchild
  · exact ⟨s, by rw [if_pos hroot], by rw [if_pos hroot]⟩
  obtain ⟨-, hvalid, hsize⟩ := l.parents i hused hchild
  have hvalid' : ¬(s.inode (s.inode i).parent).valid = false := by
    rw [(hfixed i).parent, (hfixed _).valid, hvalid]
    exact Bool.true_eq_false.mp
  have hsize' : ¬(s.inode (s.inode i).parent).info.i_size.toNat < ((s.inode i).parent_off + 1) * 32 := by
    rw [(hfixed i).parent, (hfixed i).parent_off, (hfixed _).info]
    exact not_lt.mpr hsize
  rw [if_neg hchild, if_neg hvalid', if_neg hsize', if_neg hchild, (hfixed i).parent, (hfixed i).parent_off,
    (hfixed i).info]
  exact ⟨_, rfl, rfl⟩

/-- The write-back of an inode when its visit has come. -/
theorem writeback_spec (l : Loaded v) (h : Visited v l.toSystem done s) (hused : l.toSystem.Used i) (hi : i ∉ done)
    (hdone : ∀ c, c ∈ done ↔ Before c i) (hgo : ¬l.toSystem.Blocked v done i) :
    ∃ s', s.fat32_i_mapping_writeback v i = .ok s' ∧ l.toSystem.grown v (done ++ [i]) = some s'.fat_table ∧
      (∀ j, Fixed (s.inode j) (s'.inode j)) ∧
      (∀ j, j ≠ i → s'.disk j = s.disk j) ∧
      (∀ j, j ≠ i → j ∉ done → Todo l.toSystem (done ++ [i]) j (s'.inode j) (s'.disk j)) ∧
      Image l.toSystem i (s'.disk i) := by
  have htodo := h.todo i hi
  have hiff := htodo.synced_iff hused hdone
  obtain ⟨hgo, hroom⟩ := not_or.mp hgo
  obtain ⟨fat, hfat⟩ := Option.ne_none_iff_exists'.mp hroom
  rw [hfat]
  rw [grown_snoc, h.fat_table, Option.bind_some] at hfat
  unfold fat32_i_mapping_writeback
  by_cases hsync : l.toSystem.Synced i
  · obtain ⟨hdirty, hwb⟩ := hiff.mp hsync
    rw [if_neg (by rw [hdirty]; exact Bool.true_eq_false.mp), if_neg (by rw [hwb]; exact Bool.false_ne_true)]
    unfold sync_inode
    obtain ⟨s₁, hs₁⟩ : ∃ s₁, s₁ = s.setInode i { s.inode i with i_writeback := true } := ⟨_, rfl⟩
    have hself₁ : s₁.inode i = { s.inode i with i_writeback := true } := by rw [hs₁, setInode_self]
    have hne₁ : ∀ j, j ≠ i → s₁.inode j = s.inode j := fun j hj => hs₁ ▸ setInode_ne s _ hj
    have hdisk₁ : s₁.disk = s.disk := hs₁ ▸ rfl
    -- the pages
    have hwrites : l.toSystem.Writes i ↔ (s₁.inode i).Cached := by
      rw [htodo.writes_iff hdone hsync, hself₁]
      rfl
    obtain ⟨s₂, hs₂, hinode₂, hfat₂, hdisk₂, hpages₂⟩ := mpage_spec (v := v) (s := s₁) (i := i) fat
      (by rw [hself₁]; exact not_not.mp fun hw => hgo ((htodo.stuck_iff hdone hsync).mpr hw))
      (by rw [hself₁]; exact htodo.empty)
      (fun hc => by rw [if_pos (hwrites.mpr hc)] at hfat; rw [hs₁]; exact hfat)
      (fun hc => by rw [if_neg (mt hwrites.mp hc)] at hfat; rw [hs₁]; exact (Option.some.inj hfat).symm)
    have himage : Image l.toSystem i (s₂.disk i) := by
      refine htodo.image hdone hsync (fun index htag => ?_) fun index hclean => ?_
      · rw [(hpages₂ index).1 (by rw [hself₁]; exact htag)]
        unfold current
        rw [hself₁, hdisk₁]
        rfl
      · rw [(hpages₂ index).2 (by rw [hself₁]; exact hclean), hdisk₁]
    have hfixed₂ : ∀ j, Fixed (s.inode j) (s₂.inode j) := by
      intro j
      rw [hinode₂, hs₁]
      apply fixed_setInode
      exact ⟨rfl, rfl, rfl, rfl, rfl, rfl⟩
    have hne₂ : ∀ j, j ≠ i → s₂.inode j = s.inode j := fun j hj => by rw [hinode₂, hne₁ j hj]
    have hdisk₂' : ∀ j, j ≠ i → s₂.disk j = s.disk j := fun j hj => by rw [hdisk₂ j hj, hdisk₁]
    have hdip : (s₂.inode i).dirty_in_parent = (l.inode i).dirty_in_parent :=
      ((h.fixed i).trans (hfixed₂ i)).dirty_in_parent
    rw [← hs₁, hs₂]
    -- the entry in the parent
    obtain ⟨s₃, hs₃, hfat₃, hfixed₃, hdisk₃, htodo₃⟩ : ∃ s₃,
        (if (s₂.inode i).dirty_in_parent then s₂.fat32_inode_update v i else .ok s₂) = .ok s₃ ∧
        s₃.fat_table = s₂.fat_table ∧ (∀ j, Fixed (s₂.inode j) (s₃.inode j)) ∧ s₃.disk = s₂.disk ∧
        ∀ j, j ≠ i → j ∉ done → Todo l.toSystem (done ++ [i]) j (s₃.inode j) (s₂.disk j) := by
      have hskip : ¬(l.toSystem.Pushes i) → ∀ j, j ≠ i → j ∉ done →
          Todo l.toSystem (done ++ [i]) j (s₂.inode j) (s₂.disk j) := by
        intro hnot j hj hjd
        rw [hne₂ j hj, hdisk₂' j hj]
        exact (h.todo j hjd).skip fun hpush => hnot hpush.1
      rw [hdip]
      rcases hd : (l.inode i).dirty_in_parent with _ | _
      · refine ⟨s₂, rfl, rfl, fun _ => .refl _, rfl, hskip fun hpush => ?_⟩
        have hdp := hpush.dirty_in_parent
        rw [hd] at hdp
        exact absurd hdp Bool.false_ne_true
      rw [if_pos rfl]
      obtain ⟨s₃, hs₃, heq⟩ := update_spec (s := s₂) l (fun j => (h.fixed j).trans (hfixed₂ j)) hused
      rcases eq_or_ne i none with hroot | hchild
      · rw [if_pos hroot] at heq
        rw [hs₃, heq]
        exact ⟨s₂, rfl, rfl, fun _ => .refl _, rfl, hskip fun hpush => hpush.child hroot⟩
      rw [if_neg hchild] at heq
      rw [hs₃, heq]
      refine ⟨_, rfl, rfl, fixed_write_fcb _, rfl, fun j hj hjd => ?_⟩
      have hpush : l.toSystem.Pushes i := ⟨hused, hchild, hsync, hd⟩
      obtain hparent | hparent := eq_or_ne (l.inode i).parent j
      · have htodoj := h.todo j hjd
        subst hparent
        have hnew := write_fcb_spec (v := v) (s := s₂) (l.inode i).parent (l.inode i).parent_off
          (update_fcb (l.inode i).info)
          (by rw [hne₂ _ hj]; exact htodoj.indexed (l.parents i hused hchild).1)
          (by rw [hne₂ _ hj]; exact htodoj.empty)
        rw [hne₂ _ hj] at hnew
        rw [hdisk₂' _ hj]
        exact htodoj.push hi l.keys hpush rfl (hdisk₂' _ hj) hnew
      · rw [write_fcb_ne _ hparent.symm, hne₂ j hj, hdisk₂' j hj]
        exact (h.todo j hjd).skip fun hp => hparent hp.2
    refine ⟨s₃.setInode i { s₃.inode i with dirty_list := false, i_writeback := false }, ?_, ?_, ?_, ?_, ?_, ?_⟩
    · show Except.map _ (if (s₂.inode i).dirty_in_parent then s₂.fat32_inode_update v i else .ok s₂) = _
      rw [hs₃]
      rfl
    · exact congrArg some (hfat₃.trans hfat₂).symm
    · intro j
      refine ((hfixed₂ j).trans (hfixed₃ j)).trans (fixed_setInode ?_ j)
      exact ⟨rfl, rfl, rfl, rfl, rfl, rfl⟩
    · intro j hj
      show s₃.disk j = s.disk j
      rw [hdisk₃, hdisk₂' j hj]
    · intro j hj hjd
      rw [setInode_ne _ _ hj]
      show Todo _ _ j (s₃.inode j) (s₃.disk j)
      rw [hdisk₃]
      exact htodo₃ j hj hjd
    · show Image _ i (s₃.disk i)
      rw [hdisk₃]
      exact himage
  · rw [if_neg fun hw => hsync hw.1] at hfat
    refine ⟨s, ?_, hfat.symm, fun _ => .refl _, fun _ _ => rfl, fun j hj hjd => ?_, htodo.image_of_not hsync⟩
    · split
      · rfl
      · next hdirty =>
        rw [if_pos]
        by_contra hwb
        exact hsync (hiff.mpr ⟨by simpa using hdirty, by simpa using hwb⟩)
    · exact (h.todo j hjd).skip fun hpush => hsync hpush.1.synced

theorem visit_panics (l : Loaded v) (h : Visited v l.toSystem done s) (hused : l.toSystem.Used i) (hi : i ∉ done)
    (hdone : ∀ c, c ∈ done ↔ Before c i) (hblocked : l.toSystem.Blocked v done i) : ∃ e, s.visit v i = .error e := by
  have htodo := h.todo i hi
  obtain ⟨hsync, hpanic⟩ : l.toSystem.Synced i ∧
      (¬(s.inode i).Writable ∨ (s.inode i).Cached ∧ v.get_block i s.fat_table = none) := by
    rcases hblocked with hstuck | hfull
    · exact ⟨hstuck.synced, .inl ((htodo.stuck_iff hdone hstuck.synced).mp hstuck)⟩
    rw [grown_snoc, h.fat_table, Option.bind_some] at hfull
    split at hfull
    · next hw => exact ⟨hw.1, .inr ⟨(htodo.writes_iff hdone hw.1).mp hw, hfull⟩⟩
    · cases hfull
  obtain ⟨hdirty, hwb⟩ := (htodo.synced_iff hused hdone).mp hsync
  obtain ⟨e, he⟩ := mpage_panics (v := v) (s := s.setInode i { s.inode i with i_writeback := true }) (i := i) (by
    rw [setInode_self]
    exact hpanic)
  refine ⟨e, ?_⟩
  unfold visit fat32_i_mapping_writeback
  rw [if_neg (by rw [hdirty]; exact Bool.true_eq_false.mp), if_neg (by rw [hwb]; exact Bool.false_ne_true)]
  unfold sync_inode
  rw [he]
  rfl

theorem visit_spec (l : Loaded v) (h : Visited v l.toSystem done s) (hused : l.toSystem.Used i) (hi : i ∉ done)
    (hdone : ∀ c, c ∈ done ↔ Before c i) (hgo : ¬l.toSystem.Blocked v done i) :
    ∃ s', s.visit v i = .ok s' ∧ Visited v l.toSystem (done ++ [i]) s' := by
  obtain ⟨s₁, hs₁, hfat, hfixed, hdisk, htodo, himage⟩ := writeback_spec l h hused hi hdone hgo
  obtain ⟨hinode, hdisk', hfat', hfixed'⟩ := release_spec s₁ i
  refine ⟨_, by unfold visit; rw [hs₁]; rfl, by rw [hfat', hfat], fun j => ?_, fun j hj => ?_, fun j hj hjused => ?_⟩
  · obtain rfl | hji := eq_or_ne j i
    · exact ((h.fixed j).trans (hfixed j)).trans hfixed'
    · rw [hinode j hji]
      exact (h.fixed j).trans (hfixed j)
  · have hji : j ≠ i := fun heq => hj (List.mem_append_right _ (List.mem_singleton.mpr heq))
    rw [hinode j hji, hdisk']
    exact htodo j hji fun hjd => hj (List.mem_append_left _ hjd)
  · rw [hdisk']
    obtain rfl | hji := eq_or_ne j i
    · exact himage
    · rw [hdisk j hji]
      exact h.image j ((List.mem_append.mp hj).resolve_right fun hs => hji (List.mem_singleton.mp hs)) hjused

theorem Visited.skip (l : Loaded v) (h : Visited v l.toSystem done s) (hnot : ¬l.toSystem.Used i) :
    Visited v l.toSystem (done ++ [i]) s := by
  have hsync : ¬l.toSystem.Synced i := by
    intro hsync
    cases hsync with
    | listed hused _ _ => exact hnot hused
    | updated hc hchild _ _ hparent _ _ => exact hnot (hparent ▸ (l.parents _ hc hchild).1)
  refine ⟨?_, h.fixed, fun j hj => ?_, fun j hj hjused => ?_⟩
  · rw [grown_snoc, h.fat_table, Option.bind_some, if_neg fun hw => hsync hw.1]
  · exact (h.todo j fun hjd => hj (List.mem_append_left _ hjd)).skip fun hpush => hnot hpush.1.used
  rcases List.mem_append.mp hj with hjd | hjs
  · exact h.image j hjd hjused
  · obtain rfl := List.mem_singleton.mp hjs
    exact absurd hjused hnot

/-! ## `shutdown_writeback` -/

theorem mem_slots_iff {pre post : List (Fin NINODE)} {k : Fin NINODE} (h : pre ++ k :: post = List.finRange NINODE)
    (c : Ip) : c ∈ pre.map some ↔ Before c (some k) := by
  have hsorted : (pre ++ k :: post).Pairwise (· < ·) := h ▸ List.pairwise_lt_finRange NINODE
  obtain ⟨-, htail, hpre⟩ := List.pairwise_append.mp hsorted
  rcases c with _ | j
  · simp [Before]
  have hall : j ∈ pre ++ k :: post := h ▸ List.mem_finRange j
  rw [List.mem_map_of_injective (Option.some_injective _)]
  constructor
  · intro hj
    exact hpre j hj k List.mem_cons_self
  intro hlt
  rcases List.mem_append.mp hall with hj | hj
  · exact hj
  · rcases List.mem_cons.mp hj with rfl | hj
    · exact absurd hlt (lt_irrefl _)
    · exact absurd ((List.pairwise_cons.mp htail).1 j hj) (lt_asymm hlt)

theorem Stuck.listed (h : s.Stuck i) : s.Used i ∧ (s.inode i).dirty_list = true := by
  cases h.synced with
  | listed hused hdirty _ => exact ⟨hused, hdirty⟩
  | updated hc hchild hcsync hdip hparent hbefore hwb =>
    exact absurd ⟨⟨hc, hchild, hcsync, hdip⟩, hparent, rfl, hbefore, hwb⟩ (h.untouched _ _)

/-- One slot: the turn ends, or its inode is stuck. -/
theorem turn_cases (l : Loaded v) (h : Visited v l.toSystem done s) (k : Fin NINODE) (hk : some k ∉ done)
    (hdone : ∀ c, c ∈ done ↔ Before c (some k)) :
    (¬l.toSystem.Stuck (some k) ∧ ∃ s₁, turn v s k = .ok s₁ ∧ Visited v l.toSystem (done ++ [some k]) s₁) ∨
    l.toSystem.Blocked v done (some k) ∧ ∃ e, turn v s k = .error e := by
  unfold turn
  rcases eq_or_ne (l.inode (some k)).ref 0 with hfree | htaken
  · rw [if_neg (not_not.mpr ((h.fixed (some k)).ref.trans hfree))]
    have hunused : ¬l.toSystem.Used (some k) := by
      rintro (hroot | href)
      · cases hroot
      · exact href hfree
    exact .inl ⟨fun hstuck => hunused hstuck.listed.1, s, rfl, h.skip l hunused⟩
  · rw [if_pos ((h.fixed (some k)).ref ▸ htaken)]
    by_cases hblocked : l.toSystem.Blocked v done (some k)
    · exact .inr ⟨hblocked, visit_panics l h (.inr htaken) hk hdone hblocked⟩
    · exact .inl ⟨(not_or.mp hblocked).1, visit_spec l h (.inr htaken) hk hdone hblocked⟩

/-- The loop over the table, from a slot on. -/
theorem slots_spec (l : Loaded v) (pre post : List (Fin NINODE)) (hall : pre ++ post = List.finRange NINODE)
    (h : Visited v l.toSystem (pre.map some) s) :
    ((∀ k ∈ post, ¬l.toSystem.Stuck (some k)) ∧ ∃ s', post.foldlM (turn v) s = .ok s' ∧
      Visited v l.toSystem ((List.finRange NINODE).map some) s') ∨
    ((∃ i, l.toSystem.Stuck i) ∨ l.toSystem.grown v visits = none) ∧ ∃ e, post.foldlM (turn v) s = .error e := by
  induction post generalizing pre s with
  | nil =>
    rw [List.append_nil] at hall
    exact .inl ⟨by simp, s, rfl, hall ▸ h⟩
  | cons k post ih =>
    have hdone := mem_slots_iff hall
    have hk : some k ∉ pre.map some := fun hmem => lt_irrefl k ((hdone (some k)).mp hmem)
    rw [List.foldlM_cons]
    rcases turn_cases l h k hk hdone with ⟨hgo, s₁, hs₁, h₁⟩ | ⟨hblocked, e, he⟩
    case inr =>
      refine .inr ⟨hblocked.imp (fun hstuck => ⟨_, hstuck⟩) fun hfull => ?_, e, by rw [he]; rfl⟩
      have hvisits : visits = pre.map some ++ [some k] ++ (post.map some ++ [none]) := by
        simp [visits, ← hall]
      rw [hvisits]
      exact grown_append hfull
    rw [← List.map_singleton, ← List.map_append] at h₁
    rw [hs₁]
    rcases ih (pre ++ [k]) (by rw [List.append_assoc]; exact hall) h₁ with
      ⟨hpost, s', hs', h'⟩ | ⟨hblocked, e, he⟩
    · exact .inl ⟨List.forall_mem_cons.mpr ⟨hgo, hpost⟩, s', hs', h'⟩
    · exact .inr ⟨hblocked, e, he⟩

/-- The FAT is written to its last entry. -/
theorem writebackLoop_spec (hsectors : v.FAT_CLUSTER_MAX % FAT_PER_SECTOR ≠ 0) (fat_table : Nat → BitVec 32)
    (fuel c : Nat) (fats : Nat → BitVec 32) (hc : c ≤ v.FAT_CLUSTER_MAX) (hfuel : v.FAT_CLUSTER_MAX < c + fuel)
    (hdone : ∀ k, k < c → fats k = fat_table k) :
    ∃ fats', writebackLoop v fat_table fuel c fats = .ok fats' ∧
      ∀ k, k ≤ v.FAT_CLUSTER_MAX → fats' k = fat_table k := by
  induction fuel generalizing c fats with
  | zero => omega
  | succ fuel ih =>
    have hgo : ¬(c % FAT_PER_SECTOR = 0 ∧ ¬c < v.FAT_CLUSTER_MAX) := by
      rintro ⟨hzero, hend⟩
      obtain rfl : c = v.FAT_CLUSTER_MAX := by omega
      exact hsectors hzero
    have hdone' : ∀ k, k < c + 1 → update fats c (fat_table c) k = fat_table k := by
      intro k hk
      obtain rfl | hkc := eq_or_ne k c
      · exact update_self ..
      · rw [update_of_ne hkc]
        exact hdone k (by omega)
    unfold writebackLoop
    rw [if_neg hgo]
    dsimp only
    split
    · exact ⟨_, rfl, fun k hk => hdone' k (by omega)⟩
    · exact ih (c + 1) _ (by omega) (by omega) hdone'

/-- What the disk ends up with where no inode is stuck, and that `shutdown_writeback` then comes to its end. -/
theorem shutdown_image (l : Loaded v) :
    (((∀ i, ¬l.toSystem.Stuck i) ∧ l.toSystem.grown v visits ≠ none) ∧
      ∃ s', l.toSystem.shutdown_writeback v = .ok s' ∧
      (∀ i, l.toSystem.Used i → Image l.toSystem i (s'.disk i)) ∧
      ∀ c, c ≤ v.FAT_CLUSTER_MAX → s'.fats c = s'.fat_table c) ∨
    ((∃ i, l.toSystem.Stuck i) ∨ l.toSystem.grown v visits = none) ∧
      ∃ e, l.toSystem.shutdown_writeback v = .error e := by
  unfold shutdown_writeback
  rcases slots_spec l [] (List.finRange NINODE) rfl (visited_nil l) with ⟨hslots, s₁, hs₁, h₁⟩ | ⟨hblocked, e, he⟩
  case inr => exact .inr ⟨hblocked, e, by rw [he]; rfl⟩
  have hroot : none ∉ (List.finRange NINODE).map some := by simp
  have hdone : ∀ c, c ∈ (List.finRange NINODE).map some ↔ Before c none := by
    intro c
    rcases c with _ | j
    · simp [Before]
    · simp [Before]
  rw [hs₁]
  by_cases hblocked : l.toSystem.Blocked v ((List.finRange NINODE).map some) none
  · obtain ⟨e, he⟩ := visit_panics l h₁ (.inl rfl) hroot hdone hblocked
    refine .inr ⟨hblocked.imp_left fun hstuck => ⟨none, hstuck⟩, e, ?_⟩
    show (s₁.visit v none >>= fun s => s.fat32_fat_bitmap_writeback v) = _
    rw [he]
    rfl
  obtain ⟨s₂, hs₂, h₂⟩ := visit_spec l h₁ (.inl rfl) hroot hdone hblocked
  obtain ⟨hstuck, hroom⟩ := not_or.mp hblocked
  obtain ⟨fats, hfats, htable⟩ := writebackLoop_spec l.fat_sectors s₂.fat_table (v.FAT_CLUSTER_MAX + 1) 0 s₂.fats
    (Nat.zero_le _) (by omega) fun k hk => absurd hk (Nat.not_lt_zero k)
  refine .inl ⟨⟨fun i => ?_, hroom⟩, { s₂ with fats }, ?_, fun i hi => h₂.image i ?_ hi, htable⟩
  · rcases i with _ | j
    · exact hstuck
    · exact hslots j (List.mem_finRange j)
  · show (s₁.visit v none >>= fun s => s.fat32_fat_bitmap_writeback v) = _
    rw [hs₂]
    show s₂.fat32_fat_bitmap_writeback v = _
    unfold fat32_fat_bitmap_writeback
    rw [hfats]
    rfl
  · rcases i with _ | j
    · simp
    · simp

theorem right_update (s : System) (c : Ip) (e₀ : dirent_s_t) : s.Right c e₀ (update_fcb (s.inode c).info e₀) :=
  ⟨rfl, rfl, rfl, rfl⟩

/-- What the visits leave on the disk is the logical state under the condition, and under no other. -/
theorem durable_iff (l : Loaded v) (hgo : (∀ i, ¬l.toSystem.Stuck i) ∧ l.toSystem.grown v visits ≠ none)
    (himage : ∀ i, l.toSystem.Used i → Image l.toSystem i (s'.disk i))
    (hfat : ∀ c, c ≤ v.FAT_CLUSTER_MAX → s'.fats c = s'.fat_table c) :
    Durable v l.toSystem s' ↔ l.toSystem.Settled v := by
  have hparent : ∀ {c p r}, l.toSystem.EntryOf c p r → l.toSystem.Used p := by
    intro c p r h
    rw [← h.parent]
    exact (l.parents c h.used h.child).1
  have hentry : ∀ {c p r}, l.toSystem.InTime c p r → l.toSystem.EntryOf c p r :=
    fun h => ⟨h.used, h.child, h.parent, h.parent_off⟩
  have hother : ∀ {c p r}, l.toSystem.EntryOf c p r → ¬l.toSystem.InTime c p r → ∀ d, ¬l.toSystem.InTime d p r := by
    intro c p r hc hnot d hd
    obtain rfl := l.keys c d p r hc (hentry hd)
    exact hnot hd
  constructor
  · intro h
    refine ⟨hgo.1, hgo.2, fun i hi r hnone hne => ?_, fun c p r hc hentry => ?_⟩
    · by_contra htake
      apply hne
      rw [← h.contents i hi r hnone, (himage i hi.1).left r htake]
    by_cases htime : l.toSystem.InTime c p r
    · exact .inl htime
    right
    have hright := h.entries c p r hc hentry
    have hp := himage p (hparent hentry)
    by_cases htake : l.toSystem.Taken p (r / FCB_PER_PAGE)
    · rw [hp.taken r htake (hother hentry htime)] at hright
      exact .inl ⟨htake, hright⟩
    · rw [hp.left r htake] at hright
      exact .inr ⟨htake, hright⟩
  · intro h
    refine ⟨fun i hi r hnone => ?_, fun c p r hc hentryc => ?_, hfat⟩
    · by_cases htake : l.toSystem.Taken i (r / FCB_PER_PAGE)
      · exact (himage i hi.1).taken r htake fun c htime => hnone c (hentry htime)
      · rw [(himage i hi.1).left r htake]
        by_contra hne
        exact htake (h.contents i hi r hnone fun heq => hne heq.symm)
    · have hp := himage p (hparent hentryc)
      by_cases htime : l.toSystem.InTime c p r
      · rw [hp.updated c r htime]
        exact right_update _ c _
      rcases h.entries c p r hc hentryc with htime' | ⟨htake, hright⟩ | ⟨htake, hright⟩
      · exact absurd htime' htime
      · rw [hp.taken r htake (hother hentryc htime)]
        exact hright
      · rw [hp.left r htake]
        exact hright

/-- **Shutdown durability.** `shutdown_writeback` ends, with the FAT in memory and the logical state of the file system
on the disk, if and only if it started from a state that meets the condition. -/
theorem shutdown_durable (l : Loaded v) :
    (∃ s', l.toSystem.shutdown_writeback v = .ok s' ∧ Durable v l.toSystem s') ↔ l.toSystem.Settled v := by
  rcases shutdown_image l with ⟨hgo, s', hs', himage, hfat⟩ | ⟨hblocked, e, he⟩
  · rw [hs', ← durable_iff l hgo himage hfat]
    simp only [Except.ok.injEq, exists_eq_left']
  · rw [he]
    constructor
    · rintro ⟨s', hs', -⟩
      cases hs'
    · intro h
      exact hblocked.elim (fun ⟨i, hstuck⟩ => absurd hstuck (h.written i)) fun hfull => absurd hfull h.room

end System

/-! ## A file in a subdirectory of an earlier slot -/

theorem ninode_gt_one : 1 < NINODE := by decide

theorem ninode_pos : 0 < NINODE := by decide

/-- The slots of the directory and of the file. -/
def dirSlot : Ip := some ⟨0, ninode_pos⟩
def fileSlot : Ip := some ⟨1, ninode_gt_one⟩

def emptyFile : dirent_s_t := fcb_init (Vector.replicate 11 0x41) S_IFREG 4

/-- The page that was written to the file. -/
def written : Mapping Page := ⟨fun index => if index = 0 then some fun _ => emptyFile else none, {0}, 1⟩

def plainInode (mode : UInt32) (size : UInt32) : Inode where
  info := { load_fcb 0 emptyFile default with i_mode := mode, i_size := size }
  ref := 1
  valid := true
  i_nlink := 1
  parent := none
  parent_off := 1
  cluster_cnt := 1
  dirty_list := false
  i_writeback := false
  dirty_in_parent := false
  i_mapping := none
  indexed := true

/-- A new file in the directory has been written: its size is 5 and still has to go to its entry. -/
def beforeShutdown : System where
  inode := fun i =>
    if i = none then { plainInode S_IFDIR 1024 with ref := 0 }
    else if i = dirSlot then plainInode S_IFDIR 1024
    else if i = fileSlot then
      { plainInode S_IFREG 5 with
        parent := dirSlot
        parent_off := 2
        dirty_list := true
        dirty_in_parent := true
        i_mapping := some written }
    else { plainInode S_IFREG 0 with ref := 0 }
  disk := fun _ _ _ => emptyFile
  fat_table := fun _ => 0
  fats := fun _ => 0

def smallVolume : Volume := ⟨1, fun _ fat_table => some fat_table, fun _ _ _ => emptyFile⟩

theorem used_beforeShutdown {i : Ip} (h : beforeShutdown.Used i) : i = none ∨ i = dirSlot ∨ i = fileSlot := by
  rcases h with rfl | href
  · exact .inl rfl
  by_contra hnot
  push Not at hnot
  apply href
  show (beforeShutdown.inode i).ref = 0
  simp [beforeShutdown, hnot.1, hnot.2.1, hnot.2.2]

theorem inode_dirSlot : beforeShutdown.inode dirSlot = plainInode S_IFDIR 1024 := by
  simp [beforeShutdown, dirSlot]

theorem inode_fileSlot : beforeShutdown.inode fileSlot =
    { plainInode S_IFREG 5 with
      parent := dirSlot
      parent_off := 2
      dirty_list := true
      dirty_in_parent := true
      i_mapping := some written } := by
  simp [beforeShutdown, dirSlot, fileSlot]

def loadedBefore : Loaded smallVolume where
  toSystem := beforeShutdown
  parents := by
    intro c hc hchild
    rcases used_beforeShutdown hc with rfl | rfl | rfl
    · exact absurd rfl hchild
    · rw [inode_dirSlot]
      exact ⟨.inl rfl, rfl, by decide⟩
    · rw [inode_fileSlot]
      dsimp only
      rw [inode_dirSlot]
      exact ⟨.inr (by rw [inode_dirSlot]; decide), rfl, by decide⟩
  keys := by
    have hparent : ∀ {c p r}, beforeShutdown.EntryOf c p r → c = dirSlot ∧ p = none ∨ c = fileSlot ∧ p = dirSlot := by
      rintro c p r ⟨hc, hchild, hparent, -⟩
      rcases used_beforeShutdown hc with rfl | rfl | rfl
      · exact absurd rfl hchild
      · rw [inode_dirSlot] at hparent
        exact .inl ⟨rfl, hparent.symm⟩
      · rw [inode_fileSlot] at hparent
        exact .inr ⟨rfl, hparent.symm⟩
    intro c d p r hc hd
    rcases hparent hc with ⟨rfl, rfl⟩ | ⟨rfl, rfl⟩
    · rcases hparent hd with ⟨rfl, -⟩ | ⟨-, hp⟩
      · rfl
      · cases hp
    · rcases hparent hd with ⟨-, hp⟩ | ⟨rfl, -⟩
      · cases hp
      · rfl
  indexed := by
    intro i hi
    rcases used_beforeShutdown hi with rfl | rfl | rfl
    · rfl
    · rw [inode_dirSlot]
      rfl
    · rw [inode_fileSlot]
      rfl
  empty := by
    intro i m hm hzero index
    obtain rfl | hi := eq_or_ne i fileSlot
    · rw [inode_fileSlot] at hm
      cases hm
      cases hzero
    have hnone : (beforeShutdown.inode i).i_mapping = none := by
      simp only [beforeShutdown, hi, if_false]
      split
      · rfl
      · split
        · rfl
        · rfl
    rw [hnone] at hm
    cases hm
  fat_sectors := by decide

/-- The directory has the first slot and the file the second: the file's size goes to the directory after its visit,
and not to the disk. -/
theorem size_lost_at_shutdown : ∃ s', loadedBefore.toSystem.shutdown_writeback smallVolume = .ok s' ∧
    (loadedBefore.inode fileSlot).info.DirFileSize = 5 ∧ (fcbAt (s'.disk dirSlot) 2).DIR_FileSize = 0 ∧
    ¬System.Durable smallVolume loadedBefore.toSystem s' := by
  have hgo : ∀ i, ¬loadedBefore.toSystem.Stuck i := by
    intro i hstuck
    obtain ⟨hused, hdirty⟩ := hstuck.listed
    rcases used_beforeShutdown hused with rfl | rfl | rfl
    · cases hdirty
    · rw [show loadedBefore.inode dirSlot = plainInode S_IFDIR 1024 from inode_dirSlot] at hdirty
      cases hdirty
    · apply hstuck.unwritable
      exact ⟨written, congrArg Inode.i_mapping inode_fileSlot, .inr (Finset.singleton_ne_empty 0)⟩
  have hroom : loadedBefore.toSystem.grown smallVolume System.visits ≠ none := by
    simp [System.grown, smallVolume, ← Option.pure_def]
  obtain ⟨s', hs', himage, -⟩ := ((System.shutdown_image loadedBefore).resolve_right fun h =>
    h.1.elim (fun ⟨i, hi⟩ => hgo i hi) hroom).2
  have hentry : loadedBefore.toSystem.EntryOf fileSlot dirSlot 2 := by
    refine ⟨.inr ?_, Option.some_ne_none _, ?_, ?_⟩
    · show (beforeShutdown.inode fileSlot).ref ≠ 0
      rw [inode_fileSlot]
      decide
    · exact congrArg Inode.parent inode_fileSlot
    · exact congrArg Inode.parent_off inode_fileSlot
  have hsize : (loadedBefore.inode fileSlot).info.DirFileSize = 5 := by
    show (beforeShutdown.inode fileSlot).info.DirFileSize = 5
    rw [inode_fileSlot]
    decide
  have hdir : loadedBefore.toSystem.Used dirSlot := hentry.parent ▸ (loadedBefore.parents _ hentry.used hentry.child).1
  have hlate : ∀ c, ¬loadedBefore.toSystem.InTime c dirSlot 2 := by
    intro c htime
    obtain rfl := loadedBefore.keys c fileSlot dirSlot 2 ⟨htime.used, htime.child, htime.parent, htime.parent_off⟩ hentry
    exact absurd htime.before (by simp [Before, fileSlot, dirSlot])
  have hcur : fcbAt (loadedBefore.toSystem.current dirSlot) 2 = emptyFile := by
    show fcbAt ((beforeShutdown.inode dirSlot).current _) 2 = emptyFile
    rw [inode_dirSlot]
    rfl
  have hdisk : fcbAt (s'.disk dirSlot) 2 = emptyFile := by
    by_cases htake : loadedBefore.toSystem.Taken dirSlot (2 / FCB_PER_PAGE)
    · rw [(himage dirSlot hdir).taken 2 htake hlate, hcur]
    · rw [(himage dirSlot hdir).left 2 htake]
      rfl
  refine ⟨s', hs', hsize, by rw [hdisk]; rfl, fun hdurable => ?_⟩
  have hfile : loadedBefore.toSystem.IsFile fileSlot := by
    refine ⟨hentry.used, ?_⟩
    show (beforeShutdown.inode fileSlot).i_nlink ≠ 0
    rw [inode_fileSlot]
    decide
  have hright := (hdurable.entries fileSlot dirSlot 2 hfile hentry).size
  rw [hdisk, hsize] at hright
  exact absurd hright (by decide)

end LostWakeup.Fs.Fat32.Shutdown
