/-
# LostWakeup.Fs.Fat32.SizeTracking — the size of a file, in its inode and in its directory entry.

A write that makes a file longer changes `i_size` only; the entry follows when an inode on `s_dirty` is written back, if
`dirty_in_parent` is set.  `O_TRUNC` and the set-up of a shared-memory file set neither, and a flusher takes the inode
off the list after it has let go of the semaphore.  `size_tracked` says that a size gets lost in no other way.

A directory is its entries, read through the page cache.  The inode table is any type `I`; recycling of its slots, and
files whose entry was deleted, are left out.
-/
import LostWakeup.Fs.Fat32.Fcb
import LostWakeup.Library.Run

namespace LostWakeup.Fs.Fat32.SizeTracking

open Library Fs.Fat32.Fcb
open Function (update_of_ne update_self)
open Fs.Fat32.LongName (ATTR_DIRECTORY)

/-! ## Inodes and their entries -/

/-- Who has `i_sem`. -/
inductive Holder
  | free
  /-- A system call that has the inode locked. -/
  | opener
  /-- `fat32_inode_write(ip, off, n)`, which has read `fileSize` from the inode. -/
  | writer (off n fileSize : UInt32)
  /-- The same, with the inode on `s_dirty`. -/
  | listed (off n fileSize : UInt32)
  | flusher

structure Inode (I : Type) where
  info : inode_info
  valid : Bool
  parent : I
  parent_off : Nat
  i_sem : Holder
  /-- On `s_dirty`. -/
  dirty_list : Bool
  i_writeback : Bool
  dirty_in_parent : Bool

/-- How far a flusher is with the inode `i` it visits. -/
inductive Visit (I : Type)
  | idle
  /-- The traversal of `s_dirty` is at `i`. -/
  | picked (i : I)
  /-- Has `i_sem`. -/
  | locked (i : I)
  /-- `sync_inode` has returned; `done` if it returned 0. -/
  | synced (i : I) (done : Bool)
  /-- Has signalled `i_sem`. -/
  | signalled (i : I) (done : Bool)

/-- The inodes, the 32-byte entries of those that are directories, and the flusher threads. -/
structure System (I W : Type) where
  root : I
  inode : I → Inode I
  fcb : I → Nat → dirent_s_t
  flusher : W → Visit I

def O_TRUNC : UInt32 := 0o1000

/-- `i_sb->cluster_size`. -/
def cluster_size : UInt32 := 1024

inductive SizeEvent (I W : Type)
  /-- A file of the directory `dp` is found and its inode `i` loaded. -/
  | load (i dp : I) (off : Nat) (dirLength : UInt32)
  /-- `fat32_inode_create` makes a file: the entries `longs` and the short one after them go to `dp`. -/
  | create (i dp : I) (off : Nat) (longs : List dirent_s_t) (name : Vector UInt8 11) (type first_c dirLength : UInt32)
      (rdev : UInt16)
  /-- A system call locks the inode, or has it from `fat32_inode_create` of a file that exists. -/
  | lock_inode (i : I)
  | unlock_inode (i : I)
  /-- `assist_openat`, which unlocks. -/
  | openat (i : I) (flags : UInt32)
  /-- `shmem_kernel_file_setup`, from the size on. -/
  | shm_setup (i : I) (size : UInt32)
  /-- `fat32_inode_update` by a system call. -/
  | iupdate (i : I)
  /-- `fat32_inode_write` begins, under `i_sem`. -/
  | write_begin (i : I) (off n : UInt32)
  /-- `do_generic_file_write` returns -1. -/
  | write_fail (i : I)
  /-- The inode goes on `s_dirty`. -/
  | list_add (i : I)
  /-- The write sets the size and returns. -/
  | set_size (i : I)
  | pick (w : W) (i : I)
  | lock (w : W)
  | sync_inode (w : W)
  | signal (w : W)
  | list_del (w : W)

namespace Inode

variable {I : Type}

/-- What `fat32_inode_write` does to the inode at its end. -/
def grow (n : Inode I) (off len fileSize : UInt32) : Inode I :=
  if off + len > fileSize then
    { n with
      info :=
        { n.info with
          i_size :=
            if S_ISREG n.info.i_mode then off + len
            else (off + len + cluster_size - 1) / cluster_size * cluster_size }
      dirty_in_parent := true }
  else n

/-- `fat32_inode_write` as a whole, where nothing comes between its steps. -/
def write (n : Inode I) (off len : UInt32) : Inode I :=
  ({ n with dirty_list := true } : Inode I).grow off len n.info.i_size

end Inode

namespace System

variable {I W : Type} [DecidableEq I] [DecidableEq W]

def setInode (s : System I W) (i : I) (n : Inode I) : System I W :=
  { s with inode := Function.update s.inode i n }

def setFlusher (s : System I W) (w : W) (v : Visit I) : System I W :=
  { s with flusher := Function.update s.flusher w v }

/-- Entries are written to a directory, from `off` on. -/
def write_fcbs (s : System I W) (dp : I) (off : Nat) (fcbs : List dirent_s_t) : System I W :=
  { s with
    inode := Function.update s.inode dp
      ((s.inode dp).write (UInt32.ofNat (off * 32)) (UInt32.ofNat (fcbs.length * 32)))
    fcb := Function.update s.fcb dp fun k =>
      if off ≤ k then (fcbs[k - off]?).getD (s.fcb dp k) else s.fcb dp k }

/-- The entry of an inode. -/
def entry (s : System I W) (i : I) : dirent_s_t := s.fcb (s.inode i).parent (s.inode i).parent_off

/-- `fat32_inode_update`; `none` is the panic. -/
def fat32_inode_update (s : System I W) (i : I) : Option (System I W) :=
  if i = s.root then some s
  else if (s.inode (s.inode i).parent).valid then
    some (s.write_fcbs (s.inode i).parent (s.inode i).parent_off [update_fcb (s.inode i).info (s.entry i)])
  else none

/-- `fat32_inode_get` and `fat32_inode_lock` of a file whose inode is not in the table. -/
def get_inode (s : System I W) (i dp : I) (off : Nat) (dirLength : UInt32) : System I W :=
  s.setInode i
    { s.inode i with
      parent := dp
      parent_off := off
      dirty_in_parent := false
      info := load_fcb dirLength (s.fcb dp off) (s.inode i).info
      valid := true
      i_sem := .opener }

def DOT : Vector UInt8 11 := #v[0x2E, 0, 0, 0, 0, 0, 0, 0, 0, 0, 0]
def DOTDOT : Vector UInt8 11 := #v[0x2E, 0x2E, 0, 0, 0, 0, 0, 0, 0, 0, 0]

/-- What `fat32_inode_create` does once the entries of the new file are written. -/
def fat32_inode_create (s : System I W) (i : I) (type : UInt32) (rdev : UInt16) : Option (System I W) :=
  let n := s.inode i
  let i_rdev := if S_ISCHR type || S_ISBLK type then rdev else 0
  ((s.setInode i { n with info := { n.info with i_rdev } }).fat32_inode_update i).map fun s =>
    if S_ISDIR type then
      let first_c := (s.inode i).info.cluster_start
      -- both entries get the cluster of the new directory
      (s.write_fcbs i 0 [fcb_init DOT S_IFDIR first_c]).write_fcbs i 1 [fcb_init DOTDOT S_IFDIR first_c]
    else s

/-- No inode of the table has one of the `len` entries from `off` on. -/
def Unused (s : System I W) (dp : I) (off len : Nat) : Prop :=
  ∀ j, (s.inode j).valid = true → j ≠ s.root → (s.inode j).parent = dp →
    ¬(off ≤ (s.inode j).parent_off ∧ (s.inode j).parent_off < off + len)

/-- A slot of the table that `fat32_inode_get` can take. -/
def Empty (s : System I W) (i : I) : Prop :=
  (s.inode i).valid = false ∧ (s.inode i).dirty_list = false ∧ (s.inode i).i_sem = .free

/-- The test of `fat32_inode_dirlookup`, for a directory that is loaded. -/
def Searchable (s : System I W) (dp : I) : Prop :=
  (s.inode dp).valid = true ∧ DIR_BOOL (s.inode dp).info.Attr = true

end System

/-- One event; where a panic comes first, or the semaphore is not free, there is no next state. -/
inductive SizeStep {I W : Type} [DecidableEq I] [DecidableEq W] (s : System I W) :
    SizeEvent I W → System I W → Prop
  | load {i dp : I} {off : Nat} {dirLength : UInt32} : s.Empty i → s.Searchable dp → s.Unused dp off 1 →
      SizeStep s (.load i dp off dirLength) (s.get_inode i dp off dirLength)
  | create {i dp : I} {off : Nat} {longs : List dirent_s_t} {name : Vector UInt8 11}
      {type first_c dirLength : UInt32} {rdev : UInt16} {s' : System I W} :
      s.Empty i → s.Searchable dp → s.Unused dp off (longs.length + 1) →
      (((s.write_fcbs dp off (longs ++ [fcb_init name type first_c])).get_inode i dp (off + longs.length)
        dirLength).fat32_inode_create i type rdev) = some s' →
      SizeStep s (.create i dp off longs name type first_c dirLength rdev) s'
  | lock_inode {i : I} : (s.inode i).valid = true → (s.inode i).i_sem = .free →
      SizeStep s (.lock_inode i) (s.setInode i { s.inode i with i_sem := .opener })
  | unlock_inode {i : I} : (s.inode i).i_sem = .opener →
      SizeStep s (.unlock_inode i) (s.setInode i { s.inode i with i_sem := .free })
  | openat {i : I} {flags : UInt32} : (s.inode i).i_sem = .opener →
      SizeStep s (.openat i flags) (s.setInode i
        { s.inode i with
          i_sem := .free
          info :=
            if flags &&& O_TRUNC == O_TRUNC && S_ISREG (s.inode i).info.i_mode then
              { (s.inode i).info with i_size := 0 }
            else (s.inode i).info })
  | shm_setup {i : I} {size : UInt32} : (s.inode i).i_sem = .opener →
      SizeStep s (.shm_setup i size) (s.setInode i
        { s.inode i with i_sem := .free, info := { (s.inode i).info with i_size := size } })
  | iupdate {i : I} {s' : System I W} : (s.inode i).i_sem = .opener → s.fat32_inode_update i = some s' →
      SizeStep s (.iupdate i) s'
  | write_begin {i : I} {off n : UInt32} : (s.inode i).valid = true → (s.inode i).i_sem = .free → n ≠ 0 →
      off ≤ off + n → SizeStep s (.write_begin i off n)
        (s.setInode i { s.inode i with i_sem := .writer off n (s.inode i).info.i_size })
  | write_fail {i : I} {off n fileSize : UInt32} : (s.inode i).i_sem = .writer off n fileSize →
      SizeStep s (.write_fail i) (s.setInode i { s.inode i with i_sem := .free })
  | list_add {i : I} {off n fileSize : UInt32} : (s.inode i).i_sem = .writer off n fileSize →
      SizeStep s (.list_add i)
        (s.setInode i { s.inode i with i_sem := .listed off n fileSize, dirty_list := true })
  | set_size {i : I} {off n fileSize : UInt32} : (s.inode i).i_sem = .listed off n fileSize →
      SizeStep s (.set_size i)
        (s.setInode i { (s.inode i).grow off n fileSize with i_sem := .free })
  | pick {w : W} {i : I} : s.flusher w = .idle → (s.inode i).dirty_list = true →
      SizeStep s (.pick w i) (s.setFlusher w (.picked i))
  | lock {w : W} {i : I} : s.flusher w = .picked i → (s.inode i).i_sem = .free →
      SizeStep s (.lock w) ((s.setInode i { s.inode i with i_sem := .flusher }).setFlusher w (.locked i))
  | sync_busy {w : W} {i : I} : s.flusher w = .locked i → (s.inode i).i_writeback = true →
      SizeStep s (.sync_inode w) (s.setFlusher w (.synced i false))
  | sync_inode {w : W} {i : I} {s' : System I W} : s.flusher w = .locked i → (s.inode i).i_writeback = false →
      (if (s.inode i).dirty_in_parent then
          (s.setInode i { s.inode i with i_writeback := true }).fat32_inode_update i
        else some (s.setInode i { s.inode i with i_writeback := true })) = some s' →
      SizeStep s (.sync_inode w) (s'.setFlusher w (.synced i true))
  | signal {w : W} {i : I} {done : Bool} : s.flusher w = .synced i done →
      SizeStep s (.signal w) ((s.setInode i { s.inode i with i_sem := .free }).setFlusher w (.signalled i done))
  | list_del {w : W} {i : I} : s.flusher w = .signalled i true →
      SizeStep s (.list_del w)
        ((s.setInode i { s.inode i with dirty_list := false, i_writeback := false }).setFlusher w .idle)
  | skip {w : W} {i : I} : s.flusher w = .signalled i false → SizeStep s (.list_del w) (s.setFlusher w .idle)

/-- A volume with nothing but the root in the table. -/
def size_init {I W : Type} [DecidableEq I] (root : I) (fcb : I → Nat → dirent_s_t) (info : I → inode_info) :
    System I W where
  root := root
  inode := fun i =>
    { info := if i = root then { info i with i_mode := S_IFDIR ||| 0o777, Attr := ATTR_DIRECTORY } else info i
      valid := decide (i = root)
      parent := root
      parent_off := 0
      i_sem := .free
      dirty_list := false
      i_writeback := false
      dirty_in_parent := false }
  fcb := fcb
  flusher := fun _ => .idle

/-! ## The property and its condition -/

namespace System

variable {I W : Type}

/-- The entry of the file has its size, or the next write-back will put it there. -/
def Fits (s : System I W) (i : I) (size : UInt32) : Prop :=
  (s.entry i).DIR_FileSize = size ∨ (s.inode i).dirty_in_parent = true ∧ (s.inode i).dirty_list = true

/-- On-disk size tracking, for every loaded regular file. -/
def Tracked (s : System I W) : Prop :=
  ∀ i, (s.inode i).valid = true → S_ISREG (s.inode i).info.i_mode = true → s.Fits i (s.inode i).info.i_size

/-- The event leads to states with the property only. -/
def Keeps [DecidableEq I] [DecidableEq W] (s : System I W) (e : SizeEvent I W) : Prop :=
  ∀ s', SizeStep s e s' → s'.Tracked

/-- A regular file is truncated or set up only to the size that its entry has, or when its size is to be written back
anyway; no flusher takes it off the list between the end of a longer write and the change of its size; and a file that
leaves the list has its size in its entry. -/
def SizeOk (s : System I W) : SizeEvent I W → Prop
  | .openat i flags => S_ISREG (s.inode i).info.i_mode = true → (flags &&& O_TRUNC) = O_TRUNC → s.Fits i 0
  | .shm_setup i size => S_ISREG (s.inode i).info.i_mode = true → s.Fits i size
  | .set_size i => ∀ off n fileSize, (s.inode i).i_sem = .listed off n fileSize →
      S_ISREG (s.inode i).info.i_mode = true → off + n > fileSize →
      (s.entry i).DIR_FileSize = off + n ∨ (s.inode i).dirty_list = true
  | .list_del w => ∀ i, s.flusher w = .signalled i true → S_ISREG (s.inode i).info.i_mode = true →
      (s.entry i).DIR_FileSize = (s.inode i).info.i_size
  | _ => True

/-! ## The invariant -/

/-- The inode a flusher is at. -/
def visited : Visit I → Option I
  | .idle => none
  | .picked i | .locked i | .synced i _ | .signalled i _ => some i

/-- What the events that meet the condition keep. -/
structure Inv (s : System I W) : Prop where
  root : (s.inode s.root).valid = true ∧ DIR_BOOL (s.inode s.root).info.Attr = true
  keys : ∀ i j, (s.inode i).valid = true → (s.inode j).valid = true → i ≠ s.root → j ≠ s.root →
    (s.inode i).parent = (s.inode j).parent → (s.inode i).parent_off = (s.inode j).parent_off → i = j
  parent : ∀ i, (s.inode i).valid = true → i ≠ s.root → s.Searchable (s.inode i).parent
  attr : ∀ i, (s.inode i).valid = true → S_ISREG (s.inode i).info.i_mode = true →
    DIR_BOOL (s.inode i).info.Attr = false
  busy : ∀ i, (s.inode i).valid = false → (s.inode i).i_sem = .free ∧ (s.inode i).dirty_list = false
  flusher : ∀ w i, visited (s.flusher w) = some i → (s.inode i).valid = true
  tracked : s.Tracked

variable {s s' : System I W} {i j dp : I} {w : W} {n : Inode I} {off : Nat}

theorem Inv.valid_of_held (h : s.Inv) (hsem : (s.inode i).i_sem ≠ .free) : (s.inode i).valid = true := by
  rcases hvalid : (s.inode i).valid with _ | _
  · exact absurd (h.busy i hvalid).1 hsem
  · rfl

theorem Inv.valid_of_dirty (h : s.Inv) (hdirty : (s.inode i).dirty_list = true) : (s.inode i).valid = true := by
  rcases hvalid : (s.inode i).valid with _ | _
  · rw [(h.busy i hvalid).2] at hdirty
    exact absurd hdirty Bool.false_ne_true
  · rfl

theorem Inv.ne_of_reg (h : s.Inv) (hvalid : (s.inode i).valid = true) (hreg : S_ISREG (s.inode i).info.i_mode = true)
    (hdp : s.Searchable dp) : i ≠ dp := by
  rintro rfl
  have hattr := h.attr i hvalid hreg
  rw [hdp.2] at hattr
  exact absurd hattr Bool.true_eq_false.mp

variable [DecidableEq I]

@[simp] theorem setInode_self (s : System I W) (i : I) (n : Inode I) : (s.setInode i n).inode i = n :=
  update_self ..

theorem setInode_ne (s : System I W) (n : Inode I) (h : j ≠ i) : (s.setInode i n).inode j = s.inode j :=
  update_of_ne h ..

/-! ## What most events leave alone -/

/-- Files keep their places and types, and free slots stay free. -/
structure Frame (s s' : System I W) : Prop where
  root : s'.root = s.root
  flusher : s'.flusher = s.flusher
  valid : ∀ j, (s'.inode j).valid = (s.inode j).valid
  parent : ∀ j, (s'.inode j).parent = (s.inode j).parent
  parent_off : ∀ j, (s'.inode j).parent_off = (s.inode j).parent_off
  i_mode : ∀ j, (s'.inode j).info.i_mode = (s.inode j).info.i_mode
  Attr : ∀ j, (s'.inode j).info.Attr = (s.inode j).info.Attr
  busy : ∀ j, (s'.inode j).valid = false → (s.inode j).i_sem = .free ∧ (s.inode j).dirty_list = false →
    (s'.inode j).i_sem = .free ∧ (s'.inode j).dirty_list = false

omit [DecidableEq I] in
theorem Frame.refl (s : System I W) : Frame s s :=
  ⟨rfl, rfl, fun _ => rfl, fun _ => rfl, fun _ => rfl, fun _ => rfl, fun _ => rfl, fun _ _ h => h⟩

omit [DecidableEq I] in
theorem Frame.trans {s'' : System I W} (h : Frame s s') (h' : Frame s' s'') : Frame s s'' where
  root := h'.root.trans h.root
  flusher := h'.flusher.trans h.flusher
  valid := fun j => (h'.valid j).trans (h.valid j)
  parent := fun j => (h'.parent j).trans (h.parent j)
  parent_off := fun j => (h'.parent_off j).trans (h.parent_off j)
  i_mode := fun j => (h'.i_mode j).trans (h.i_mode j)
  Attr := fun j => (h'.Attr j).trans (h.Attr j)
  busy := fun j hj hs => h'.busy j hj (h.busy j ((h'.valid j).symm.trans hj) hs)

omit [DecidableEq I] in
theorem Frame.searchable (h : Frame s s') (hdp : s.Searchable dp) : s'.Searchable dp :=
  ⟨(h.valid dp).trans hdp.1, (congrArg DIR_BOOL (h.Attr dp)).trans hdp.2⟩

omit [DecidableEq I] in
theorem Inv.frame (h : s.Inv) (hframe : Frame s s') (htracked : s'.Tracked) : s'.Inv where
  root := by
    rw [hframe.root, hframe.valid, hframe.Attr]
    exact h.root
  keys := by
    intro i j
    rw [hframe.root, hframe.valid, hframe.valid, hframe.parent, hframe.parent, hframe.parent_off, hframe.parent_off]
    exact h.keys i j
  parent := by
    intro i hvalid hroot
    rw [hframe.valid] at hvalid
    rw [hframe.root] at hroot
    rw [hframe.parent]
    exact hframe.searchable (h.parent i hvalid hroot)
  attr := by
    intro i
    rw [hframe.valid, hframe.i_mode, hframe.Attr]
    exact h.attr i
  busy := fun i hvalid => hframe.busy i hvalid (h.busy i ((hframe.valid i).symm.trans hvalid))
  flusher := by
    intro w i hw
    rw [hframe.flusher] at hw
    rw [hframe.valid]
    exact h.flusher w i hw
  tracked := htracked

/-- One inode changes, but not its place or type. -/
theorem frame_setInode (hvalid : n.valid = (s.inode i).valid) (hparent : n.parent = (s.inode i).parent)
    (hoff : n.parent_off = (s.inode i).parent_off) (hmode : n.info.i_mode = (s.inode i).info.i_mode)
    (hattr : n.info.Attr = (s.inode i).info.Attr) (hbusy : (s.inode i).valid = true) : Frame s (s.setInode i n) := by
  have hcase : ∀ {A : Type} (f : Inode I → A), f n = f (s.inode i) → ∀ j, f ((s.setInode i n).inode j) = f (s.inode j) := by
    intro A f hf j
    obtain rfl | hj := eq_or_ne j i
    · rw [setInode_self, hf]
    · rw [setInode_ne s n hj]
  refine ⟨rfl, rfl, hcase _ hvalid, hcase _ hparent, hcase _ hoff,
    hcase (fun n => n.info.i_mode) hmode, hcase (fun n => n.info.Attr) hattr, ?_⟩
  intro j hj hfree
  have hne : j ≠ i := by
    rintro rfl
    rw [hcase _ hvalid, hbusy] at hj
    exact absurd hj Bool.true_eq_false.mp
  rw [setInode_ne s n hne]
  exact hfree

theorem entry_setInode (hparent : n.parent = (s.inode i).parent) (hoff : n.parent_off = (s.inode i).parent_off) (j : I) :
    (s.setInode i n).entry j = s.entry j := by
  obtain rfl | hj := eq_or_ne j i
  · show s.fcb ((s.setInode j n).inode j).parent ((s.setInode j n).inode j).parent_off = s.entry j
    rw [setInode_self, hparent, hoff]
    rfl
  · show s.fcb ((s.setInode i n).inode j).parent ((s.setInode i n).inode j).parent_off = s.entry j
    rw [setInode_ne s n hj]
    rfl

theorem tracked_setInode (h : s.Tracked) (hparent : n.parent = (s.inode i).parent)
    (hoff : n.parent_off = (s.inode i).parent_off)
    (hn : n.valid = true → S_ISREG n.info.i_mode = true →
      (s.entry i).DIR_FileSize = n.info.i_size ∨ n.dirty_in_parent = true ∧ n.dirty_list = true) :
    (s.setInode i n).Tracked := by
  intro j hvalid hreg
  unfold Fits
  rw [entry_setInode hparent hoff]
  obtain rfl | hj := eq_or_ne j i
  · rw [setInode_self] at hvalid hreg ⊢
    exact hn hvalid hreg
  · rw [setInode_ne s n hj] at hvalid hreg ⊢
    exact h j hvalid hreg

/-! ## Writing to a directory -/

omit [DecidableEq I] in
@[simp] theorem grow_keeps (n : Inode I) (off len fileSize : UInt32) :
    (n.grow off len fileSize).valid = n.valid ∧ (n.grow off len fileSize).parent = n.parent ∧
      (n.grow off len fileSize).parent_off = n.parent_off ∧ (n.grow off len fileSize).info.i_mode = n.info.i_mode ∧
      (n.grow off len fileSize).info.Attr = n.info.Attr := by
  unfold Inode.grow
  split
  · exact ⟨rfl, rfl, rfl, rfl, rfl⟩
  · exact ⟨rfl, rfl, rfl, rfl, rfl⟩

theorem frame_write_fcbs (hdp : (s.inode dp).valid = true) (off : Nat) (fcbs : List dirent_s_t) :
    Frame s (s.write_fcbs dp off fcbs) := by
  obtain ⟨hvalid, hparent, hoff, hmode, hattr⟩ := grow_keeps ({ s.inode dp with dirty_list := true } : Inode I)
    (UInt32.ofNat (off * 32)) (UInt32.ofNat (fcbs.length * 32)) (s.inode dp).info.i_size
  have hset := frame_setInode (s := s) hvalid hparent hoff hmode hattr hdp
  exact ⟨hset.root, hset.flusher, hset.valid, hset.parent, hset.parent_off, hset.i_mode, hset.Attr, hset.busy⟩

theorem fcb_write_fcbs (fcbs : List dirent_s_t) {k : Nat} :
    (s.write_fcbs dp off fcbs).fcb dp k = if off ≤ k then (fcbs[k - off]?).getD (s.fcb dp k) else s.fcb dp k := by
  simp only [write_fcbs, update_self]

theorem fcb_write_fcbs_of_not {fcbs : List dirent_s_t} {d : I} {k : Nat}
    (h : ¬(d = dp ∧ off ≤ k ∧ k < off + fcbs.length)) : (s.write_fcbs dp off fcbs).fcb d k = s.fcb d k := by
  obtain rfl | hd := eq_or_ne d dp
  · rw [fcb_write_fcbs]
    split
    · next hle =>
      have hout : fcbs.length ≤ k - off := by
        by_contra hlt
        exact h ⟨rfl, hle, by omega⟩
      rw [List.getElem?_eq_none hout, Option.getD_none]
    · rfl
  · simp only [write_fcbs, update_of_ne hd]

omit [DecidableEq I] in
theorem entry_frame (hframe : Frame s s') : s'.entry j = s'.fcb (s.inode j).parent (s.inode j).parent_off := by
  unfold entry
  rw [hframe.parent, hframe.parent_off]

/-- Writing entries to a directory keeps the invariant, if the files whose entries these are have their
sizes in them. -/
theorem Inv.write_fcbs (h : s.Inv) (hdp : s.Searchable dp) {fcbs : List dirent_s_t}
    (hin : ∀ j, (s.inode j).valid = true → j ≠ s.root → (s.inode j).parent = dp →
      off ≤ (s.inode j).parent_off ∧ (s.inode j).parent_off < off + fcbs.length →
      S_ISREG (s.inode j).info.i_mode = true →
      ((s.write_fcbs dp off fcbs).fcb dp (s.inode j).parent_off).DIR_FileSize = (s.inode j).info.i_size) :
    (s.write_fcbs dp off fcbs).Inv := by
  have hframe := frame_write_fcbs hdp.1 off fcbs
  apply h.frame hframe
  intro j hvalid hreg
  rw [hframe.valid] at hvalid
  rw [hframe.i_mode] at hreg
  have hjdp := h.ne_of_reg hvalid hreg hdp
  have hjroot : j ≠ s.root := h.ne_of_reg hvalid hreg h.root
  have hinode : (s.write_fcbs dp off fcbs).inode j = s.inode j := update_of_ne hjdp ..
  unfold Fits
  rw [entry_frame hframe, hinode]
  by_cases hrange : (s.inode j).parent = dp ∧ off ≤ (s.inode j).parent_off ∧ (s.inode j).parent_off < off + fcbs.length
  · left
    rw [hrange.1]
    exact hin j hvalid hjroot hrange.1 hrange.2 hreg
  · rw [fcb_write_fcbs_of_not hrange]
    exact h.tracked j hvalid hreg

theorem frame_update (h : s.Inv) (hi : (s.inode i).valid = true) (hs' : s.fat32_inode_update i = some s') :
    Frame s s' := by
  unfold fat32_inode_update at hs'
  obtain rfl | hroot := eq_or_ne i s.root
  · rw [if_pos rfl] at hs'
    cases hs'
    exact .refl s
  · rw [if_neg hroot, if_pos (h.parent i hi hroot).1] at hs'
    cases hs'
    exact frame_write_fcbs (h.parent i hi hroot).1 ..

/-- `fat32_inode_update` of a file that has an entry of its own. -/
theorem Inv.update (h : s.Inv) (hi : (s.inode i).valid = true) (hs' : s.fat32_inode_update i = some s') :
    s'.Inv ∧ (S_ISREG (s.inode i).info.i_mode = true →
      s'.inode i = s.inode i ∧ (s'.entry i).DIR_FileSize = (s.inode i).info.i_size) := by
  have hframe := frame_update h hi hs'
  unfold fat32_inode_update at hs'
  obtain rfl | hroot := eq_or_ne i s.root
  · rw [if_pos rfl] at hs'
    cases hs'
    refine ⟨h, fun hreg => ?_⟩
    exact absurd rfl (h.ne_of_reg hi hreg h.root)
  rw [if_neg hroot, if_pos (h.parent i hi hroot).1, Option.some.injEq] at hs'
  have hdp := h.parent i hi hroot
  have hfcb : (s.write_fcbs (s.inode i).parent (s.inode i).parent_off [update_fcb (s.inode i).info (s.entry i)]).fcb
      (s.inode i).parent (s.inode i).parent_off = update_fcb (s.inode i).info (s.entry i) := by
    simp [fcb_write_fcbs]
  subst hs'
  refine ⟨h.write_fcbs hdp ?_, fun hreg => ⟨update_of_ne (h.ne_of_reg hi hreg hdp) .., ?_⟩⟩
  · intro j hj hjroot hparent hrange hreg
    rw [List.length_singleton] at hrange
    obtain rfl : j = i := h.keys j i hj hi hjroot hroot hparent (by omega)
    rw [hfcb]
    exact update_size hreg _
  · rw [entry_frame hframe, hfcb]
    exact update_size hreg _

/-! ## A file comes into the table -/

/-- A file is loaded with what its entry says. -/
theorem Inv.get_inode (h : s.Inv) (hempty : s.Empty i) (hdp : s.Searchable dp) (hunused : s.Unused dp off 1)
    (dirLength : UInt32) : (s.get_inode i dp off dirLength).Inv := by
  obtain ⟨hinvalid, hdirty, -⟩ := hempty
  have hne : ∀ {j}, (s.inode j).valid = true → j ≠ i := by
    rintro j hj rfl
    rw [hinvalid] at hj
    exact absurd hj Bool.false_ne_true
  have hself : (s.get_inode i dp off dirLength).inode i = _ := setInode_self s i _
  have hother : ∀ {j}, j ≠ i → (s.get_inode i dp off dirLength).inode j = s.inode j := setInode_ne s _
  have hold : ∀ {j}, (s.inode j).valid = true → (s.get_inode i dp off dirLength).inode j = s.inode j :=
    fun hj => hother (hne hj)
  -- nobody has the new file's entry
  have hfresh : ∀ j, j ≠ i → ((s.get_inode i dp off dirLength).inode j).valid = true → j ≠ s.root →
      (s.inode j).parent = dp → (s.inode j).parent_off ≠ off := by
    intro j hj hvalid hroot hparent hoff
    rw [hother hj] at hvalid
    exact hunused j hvalid hroot hparent (by omega)
  refine ⟨?_, ?_, ?_, ?_, ?_, ?_, ?_⟩
  · show (s.get_inode i dp off dirLength).Searchable s.root
    unfold Searchable
    rw [hold h.root.1]
    exact h.root
  · intro j k hj hk hjroot hkroot hparent hoff
    obtain rfl | hji := eq_or_ne j i
    · obtain rfl | hki := eq_or_ne k j
      · rfl
      · rw [hself, hother hki] at hparent hoff
        exact absurd hoff.symm (hfresh k hki hk hkroot hparent.symm)
    obtain rfl | hki := eq_or_ne k i
    · rw [hself, hother hji] at hparent hoff
      exact absurd hoff (hfresh j hji hj hjroot hparent)
    · rw [hother hji] at hj hparent hoff
      rw [hother hki] at hk hparent hoff
      exact h.keys j k hj hk hjroot hkroot hparent hoff
  · intro j hj hjroot
    have hdp' : ∀ {d}, s.Searchable d → (s.get_inode i dp off dirLength).Searchable d := by
      intro d hd
      unfold Searchable
      rw [hold hd.1]
      exact hd
    obtain rfl | hji := eq_or_ne j i
    · rw [hself]
      exact hdp' hdp
    · rw [hother hji] at hj ⊢
      exact hdp' (h.parent j hj hjroot)
  · intro j hj hreg
    obtain rfl | hji := eq_or_ne j i
    · rw [hself] at hreg ⊢
      exact load_attr hreg
    · rw [hother hji] at hj hreg ⊢
      exact h.attr j hj hreg
  · intro j hj
    obtain rfl | hji := eq_or_ne j i
    · rw [hself] at hj
      exact absurd hj Bool.true_eq_false.mp
    · rw [hother hji] at hj ⊢
      exact h.busy j hj
  · intro w j hw
    have hvalid := h.flusher w j hw
    rw [hold hvalid]
    exact hvalid
  · intro j hj hreg
    unfold Fits entry
    obtain rfl | hji := eq_or_ne j i
    · left
      rw [hself] at hreg ⊢
      exact (load_size hreg).symm
    · rw [hother hji] at hj hreg ⊢
      exact h.tracked j hj hreg

theorem get_inode_self (i dp : I) (off : Nat) (dirLength : UInt32) :
    (s.get_inode i dp off dirLength).inode i =
      { s.inode i with
        parent := dp
        parent_off := off
        dirty_in_parent := false
        info := load_fcb dirLength (s.fcb dp off) (s.inode i).info
        valid := true
        i_sem := .opener } := setInode_self ..

theorem Inv.write_own (h : s.Inv) (hi : s.Searchable i)
    (hchild : ∀ j, (s.inode j).valid = true → j ≠ s.root → (s.inode j).parent ≠ i) (off : Nat)
    (fcbs : List dirent_s_t) : (s.write_fcbs i off fcbs).Inv :=
  h.write_fcbs hi fun j hj hroot hparent _ _ => absurd hparent (hchild j hj hroot)

/-- `fat32_inode_create` of a new file. -/
theorem Inv.create (h : s.Inv) (hempty : s.Empty i) (hdp : s.Searchable dp) {longs : List dirent_s_t}
    (hunused : s.Unused dp off (longs.length + 1)) {name : Vector UInt8 11} {type first_c dirLength : UInt32}
    {rdev : UInt16}
    (hs' : (((s.write_fcbs dp off (longs ++ [fcb_init name type first_c])).get_inode i dp (off + longs.length)
      dirLength).fat32_inode_create i type rdev) = some s') : s'.Inv := by
  obtain ⟨hinvalid, hdirty, hfree⟩ := hempty
  have hidp : i ≠ dp := by
    rintro rfl
    rw [hdp.1] at hinvalid
    exact absurd hinvalid Bool.true_eq_false.mp
  -- the entries of the new file
  obtain ⟨s₁, hs₁⟩ : ∃ s₁, s₁ = s.write_fcbs dp off (longs ++ [fcb_init name type first_c]) := ⟨_, rfl⟩
  have hframe₁ : Frame s s₁ := hs₁ ▸ frame_write_fcbs hdp.1 ..
  have hinv₁ : s₁.Inv := by
    rw [hs₁]
    apply h.write_fcbs hdp
    intro j hj hroot hparent hrange
    rw [List.length_append, List.length_singleton] at hrange
    exact absurd hrange (hunused j hj hroot hparent)
  have hi₁ : s₁.inode i = s.inode i := by
    rw [hs₁]
    exact update_of_ne hidp ..
  have hfcb₁ : s₁.fcb dp (off + longs.length) = fcb_init name type first_c := by
    rw [hs₁, fcb_write_fcbs, if_pos (Nat.le_add_right ..), Nat.add_sub_cancel_left, List.getElem?_append_right le_rfl,
      Nat.sub_self]
    rfl
  have hunused₁ : s₁.Unused dp (off + longs.length) 1 := by
    intro j hj hroot hparent hrange
    rw [hframe₁.valid] at hj
    rw [hframe₁.root] at hroot
    rw [hframe₁.parent] at hparent
    rw [hframe₁.parent_off] at hrange
    exact hunused j hj hroot hparent (by omega)
  rw [← hs₁] at hs'
  -- its inode
  obtain ⟨s₂, hs₂⟩ : ∃ s₂, s₂ = s₁.get_inode i dp (off + longs.length) dirLength := ⟨_, rfl⟩
  have hinv₂ : s₂.Inv :=
    hs₂ ▸ hinv₁.get_inode ⟨hi₁ ▸ hinvalid, hi₁ ▸ hdirty, hi₁ ▸ hfree⟩ (hframe₁.searchable hdp) hunused₁ dirLength
  have hi₂ : (s₂.inode i).valid = true ∧ (s₂.inode i).parent = dp ∧
      (s₂.inode i).info.Attr = if S_ISDIR type then ATTR_DIRECTORY else LongName.ATTR_ARCHIVE := by
    rw [hs₂, get_inode_self, hfcb₁]
    exact ⟨rfl, rfl, rfl⟩
  have hchild₂ : ∀ j, (s₂.inode j).valid = true → j ≠ s₂.root → (s₂.inode j).parent ≠ i := by
    intro j hj hroot hparent
    obtain rfl | hji := eq_or_ne j i
    · exact hidp (hparent.symm.trans hi₂.2.1)
    have hj₂ : s₂.inode j = s₁.inode j := hs₂ ▸ setInode_ne s₁ _ hji
    have hroot₂ : s₂.root = s₁.root := by rw [hs₂]; rfl
    rw [hj₂] at hj hparent
    rw [hroot₂] at hroot
    have hvalid := (hinv₁.parent j hj hroot).1
    rw [hparent, hi₁, hinvalid] at hvalid
    exact absurd hvalid Bool.false_ne_true
  rw [← hs₂] at hs'
  -- the device number, and the entry once more
  unfold fat32_inode_create at hs'
  obtain ⟨s₄, hs₄, heq⟩ := Option.map_eq_some_iff.mp hs'
  obtain ⟨s₃, hs₃⟩ : ∃ s₃, s₃ = s₂.setInode i { s₂.inode i with info :=
    { (s₂.inode i).info with i_rdev := if S_ISCHR type || S_ISBLK type then rdev else 0 } } := ⟨_, rfl⟩
  have hframe₃ : Frame s₂ s₃ := hs₃ ▸ frame_setInode rfl rfl rfl rfl rfl hi₂.1
  have hinv₃ : s₃.Inv := by
    apply hinv₂.frame hframe₃
    rw [hs₃]
    exact tracked_setInode hinv₂.tracked rfl rfl fun hvalid hreg => hinv₂.tracked i hvalid hreg
  have hi₃ : (s₃.inode i).valid = true := (hframe₃.valid i).trans hi₂.1
  rw [← hs₃] at hs₄
  have hframe₄ := hframe₃.trans (frame_update hinv₃ hi₃ hs₄)
  have hinv₄ := (hinv₃.update hi₃ hs₄).1
  rw [← heq]
  split
  · next hdir =>
    -- a new directory gets `.` and `..`
    have hattr : DIR_BOOL (s₂.inode i).info.Attr = true := by
      rw [hi₂.2.2, if_pos hdir]
      rfl
    have hsearch₄ : s₄.Searchable i := hframe₄.searchable ⟨hi₂.1, hattr⟩
    have hchild₄ : ∀ j, (s₄.inode j).valid = true → j ≠ s₄.root → (s₄.inode j).parent ≠ i := by
      intro j
      rw [hframe₄.valid, hframe₄.root, hframe₄.parent]
      exact hchild₂ j
    have hframe₅ : Frame s₄ (s₄.write_fcbs i 0 [fcb_init DOT S_IFDIR (s₄.inode i).info.cluster_start]) :=
      frame_write_fcbs hsearch₄.1 ..
    refine (hinv₄.write_own hsearch₄ hchild₄ 0 _).write_own (hframe₅.searchable hsearch₄) ?_ 1 _
    intro j
    rw [hframe₅.valid, hframe₅.root, hframe₅.parent]
    exact hchild₄ j
  · exact hinv₄

/-! ## Runs -/

omit [DecidableEq I] in
theorem Inv.setFlusher [DecidableEq W]
    (h : s.Inv) {v : Visit I} (hv : ∀ i, visited v = some i → (s.inode i).valid = true) :
    (s.setFlusher w v).Inv := by
  refine ⟨h.root, h.keys, h.parent, h.attr, h.busy, fun w' i hw' => ?_, h.tracked⟩
  have hvisited : visited (Function.update s.flusher w v w') = some i := hw'
  obtain rfl | hw := eq_or_ne w' w
  · rw [update_self] at hvisited
    exact hv i hvisited
  · rw [update_of_ne hw] at hvisited
    exact h.flusher w' i hvisited

theorem Inv.setInode (h : s.Inv) (hbusy : (s.inode i).valid = true) (hvalid : n.valid = (s.inode i).valid)
    (hparent : n.parent = (s.inode i).parent) (hoff : n.parent_off = (s.inode i).parent_off)
    (hmode : n.info.i_mode = (s.inode i).info.i_mode) (hattr : n.info.Attr = (s.inode i).info.Attr)
    (hn : S_ISREG (s.inode i).info.i_mode = true →
      (s.entry i).DIR_FileSize = n.info.i_size ∨ n.dirty_in_parent = true ∧ n.dirty_list = true) :
    (s.setInode i n).Inv := by
  apply h.frame (frame_setInode hvalid hparent hoff hmode hattr hbusy)
  apply tracked_setInode h.tracked hparent hoff
  intro _ hreg
  exact hn (hmode ▸ hreg)

theorem Inv.hold (h : s.Inv) (hvalid : (s.inode i).valid = true) (holder : Holder) :
    (s.setInode i { s.inode i with i_sem := holder }).Inv :=
  h.setInode hvalid rfl rfl rfl rfl rfl fun hreg => h.tracked i hvalid hreg

theorem inv_init (root : I) (fcb : I → Nat → dirent_s_t) (info : I → inode_info) :
    (size_init root fcb info : System I W).Inv := by
  have hroot : ∀ {i}, ((size_init root fcb info : System I W).inode i).valid = true → i = root := of_decide_eq_true
  have hmode : ((size_init root fcb info : System I W).inode root).info =
      { info root with i_mode := S_IFDIR ||| 0o777, Attr := ATTR_DIRECTORY } := if_pos rfl
  have hnot : ∀ {i}, ((size_init root fcb info : System I W).inode i).valid = true →
      S_ISREG ((size_init root fcb info : System I W).inode i).info.i_mode = false := by
    intro i hi
    rw [hroot hi, hmode]
    exact s_isreg_dir
  refine ⟨⟨decide_eq_true rfl, ?_⟩, fun i j hi hj hiroot => absurd (hroot hi) hiroot,
    fun i hi hiroot => absurd (hroot hi) hiroot, fun i hi hreg => ?_, fun i _ => ⟨rfl, rfl⟩,
    fun w i hw => ?_, fun i hi hreg => ?_⟩
  · show DIR_BOOL ((size_init root fcb info : System I W).inode root).info.Attr = true
    rw [hmode]
    exact dir_bool_directory
  · rw [hnot hi] at hreg
    exact absurd hreg Bool.false_ne_true
  · cases hw
  · rw [hnot hi] at hreg
    exact absurd hreg Bool.false_ne_true

variable [DecidableEq W]

theorem Inv.step {e : SizeEvent I W} (h : s.Inv) (hok : s.SizeOk e) (hstep : SizeStep s e s') : s'.Inv := by
  cases hstep with
  | load hempty hdp hunused => exact h.get_inode hempty hdp hunused _
  | create hempty hdp hunused hs' => exact h.create hempty hdp hunused hs'
  | lock_inode hvalid hfree => exact h.hold hvalid _
  | unlock_inode hsem =>
    apply h.hold
    exact h.valid_of_held (by simp [hsem])
  | @openat i flags hsem =>
    have hvalid := h.valid_of_held (i := i) (by simp [hsem])
    refine h.setInode hvalid rfl rfl rfl ?_ ?_ ?_
    · dsimp only
      split
      · rfl
      · rfl
    · dsimp only
      split
      · rfl
      · rfl
    · intro hreg
      dsimp only
      split
      · next htrunc =>
        rw [Bool.and_eq_true, beq_iff_eq] at htrunc
        exact hok hreg htrunc.1
      · exact h.tracked i hvalid hreg
  | shm_setup hsem => exact h.setInode (h.valid_of_held (by simp [hsem])) rfl rfl rfl rfl rfl fun hreg => hok hreg
  | iupdate hsem hs' => exact (h.update (h.valid_of_held (by simp [hsem])) hs').1
  | write_begin hvalid hfree hn hoff => exact h.hold hvalid _
  | write_fail hsem => exact h.hold (h.valid_of_held (by simp [hsem])) _
  | @list_add i off n fileSize hsem =>
    have hvalid := h.valid_of_held (i := i) (by simp [hsem])
    refine h.setInode hvalid rfl rfl rfl rfl rfl fun hreg => ?_
    exact (h.tracked i hvalid hreg).imp_right fun hflags => ⟨hflags.1, rfl⟩
  | @set_size i off n fileSize hsem =>
    have hvalid := h.valid_of_held (i := i) (by simp [hsem])
    obtain ⟨hvalid', hparent, hoff, hmode, hattr⟩ := grow_keeps (s.inode i) off n fileSize
    refine h.setInode hvalid hvalid' hparent hoff hmode hattr fun hreg => ?_
    dsimp only
    unfold Inode.grow
    split
    · next hgrow =>
      exact (hok off n fileSize hsem hreg hgrow).imp_right fun hlist => ⟨rfl, hlist⟩
    · exact h.tracked i hvalid hreg
  | pick hidle hdirty =>
    apply h.setFlusher
    rintro _ ⟨⟩
    exact h.valid_of_dirty hdirty
  | @lock w i hw hfree =>
    have hvalid := h.flusher w i (by rw [hw]; rfl)
    apply (h.hold hvalid _).setFlusher
    rintro _ ⟨⟩
    rw [setInode_self]
    exact hvalid
  | @sync_busy w i hw hbusy =>
    apply h.setFlusher
    rintro _ ⟨⟩
    exact h.flusher w i (by rw [hw]; rfl)
  | @sync_inode w i s₁ hw hbusy hs₁ =>
    have hvalid := h.flusher w i (by rw [hw]; rfl)
    have hframe : Frame s (s.setInode i { s.inode i with i_writeback := true }) :=
      frame_setInode rfl rfl rfl rfl rfl hvalid
    have hset : (s.setInode i { s.inode i with i_writeback := true }).Inv :=
      h.setInode hvalid rfl rfl rfl rfl rfl fun hreg => h.tracked i hvalid hreg
    have hvalid' := (hframe.valid i).trans hvalid
    split at hs₁
    · apply (hset.update hvalid' hs₁).1.setFlusher
      rintro _ ⟨⟩
      rw [(frame_update hset hvalid' hs₁).valid]
      exact hvalid'
    cases hs₁
    apply hset.setFlusher
    rintro _ ⟨⟩
    exact hvalid'
  | @signal w i done hw =>
    have hvalid := h.flusher w i (by rw [hw]; rfl)
    apply (h.hold hvalid _).setFlusher
    rintro _ ⟨⟩
    rw [setInode_self]
    exact hvalid
  | @list_del w i hw =>
    have hvalid := h.flusher w i (by rw [hw]; rfl)
    have hset : (s.setInode i { s.inode i with dirty_list := false, i_writeback := false }).Inv :=
      h.setInode hvalid rfl rfl rfl rfl rfl fun hreg => .inl (hok i hw hreg)
    apply hset.setFlusher
    rintro _ ⟨⟩
  | skip hw =>
    apply h.setFlusher
    rintro _ ⟨⟩

/-- The condition is no more than the property needs. -/
theorem Inv.ok_of_tracked {e : SizeEvent I W} (h : s.Inv) (hstep : SizeStep s e s') (hs' : s'.Tracked) :
    s.SizeOk e := by
  have hself : ∀ {i n}, (s.setInode i n).Tracked → n.valid = true → S_ISREG n.info.i_mode = true →
      n.parent = (s.inode i).parent → n.parent_off = (s.inode i).parent_off →
      (s.entry i).DIR_FileSize = n.info.i_size ∨ n.dirty_in_parent = true ∧ n.dirty_list = true := by
    intro i n ht hvalid hreg hparent hoff
    have hfits := ht i
    rw [setInode_self] at hfits
    have hfits' := hfits hvalid hreg
    unfold Fits at hfits'
    rwa [entry_setInode hparent hoff, setInode_self] at hfits'
  cases hstep with
  | @openat i flags hsem =>
    intro hreg htrunc
    have hvalid := h.valid_of_held (i := i) (by simp [hsem])
    have hcond : (flags &&& O_TRUNC == O_TRUNC && S_ISREG (s.inode i).info.i_mode) = true := by
      rw [htrunc, hreg]
      rfl
    rw [if_pos hcond] at hs'
    exact hself hs' hvalid hreg rfl rfl
  | @shm_setup i size hsem =>
    intro hreg
    exact hself hs' (h.valid_of_held (i := i) (by simp [hsem])) hreg rfl rfl
  | @set_size i off n fileSize hsem =>
    intro off' n' fileSize' hsem' hreg hgrow
    rw [hsem] at hsem'
    cases hsem'
    obtain ⟨hvalid', hparent, hoff, hmode, -⟩ := grow_keeps (s.inode i) off n fileSize
    have hvalid := h.valid_of_held (i := i) (by simp [hsem])
    have hfits := hself hs' (hvalid'.trans hvalid) (hmode ▸ hreg) hparent hoff
    unfold Inode.grow at hfits
    rw [if_pos hgrow, if_pos hreg] at hfits
    exact hfits.imp_right And.right
  | @list_del w i hw =>
    intro j hj hreg
    rw [hw] at hj
    cases hj
    have hvalid := h.flusher w i (by rw [hw]; rfl)
    have hfits := hself (n := { s.inode i with dirty_list := false, i_writeback := false }) hs' hvalid hreg rfl rfl
    exact hfits.resolve_right fun hflags => absurd hflags.2 Bool.false_ne_true
  | @skip w i hw =>
    intro j hj
    rw [hw] at hj
    cases hj
  | _ => trivial

/-- A write-back of a file whose size is to be updated. -/
theorem Inv.synced (h : s.Inv) (hw : s.flusher w = .locked i) (hdone : s'.flusher w = .synced i true)
    (hstep : SizeStep s (.sync_inode w) s') (hreg : S_ISREG (s.inode i).info.i_mode = true)
    (hdip : (s.inode i).dirty_in_parent = true) :
    (s'.inode i).info.i_size = (s.inode i).info.i_size ∧ (s'.entry i).DIR_FileSize = (s'.inode i).info.i_size := by
  cases hstep with
  | @sync_busy _ j hw' hbusy =>
    rw [hw] at hw'
    cases hw'
    have hset : Function.update s.flusher w (.synced i false) w = .synced i true := hdone
    rw [update_self] at hset
    cases hset
  | @sync_inode _ j s₁ hw' hbusy hs₁ =>
    rw [hw] at hw'
    cases hw'
    have hvalid := h.flusher w i (by rw [hw]; rfl)
    have hset : (s.setInode i { s.inode i with i_writeback := true }).Inv :=
      h.setInode hvalid rfl rfl rfl rfl rfl fun hreg => h.tracked i hvalid hreg
    have hself : (s.setInode i { s.inode i with i_writeback := true }).inode i = _ := setInode_self s i _
    rw [if_pos hdip] at hs₁
    obtain ⟨hkeep, hsize⟩ := (hset.update (by rw [hself]; exact hvalid) hs₁).2 (by rw [hself]; exact hreg)
    rw [hself] at hkeep hsize
    show (s₁.inode i).info.i_size = _ ∧ (s₁.entry i).DIR_FileSize = (s₁.inode i).info.i_size
    rw [hkeep]
    exact ⟨rfl, hsize⟩

/-- **On-disk size tracking.** The runs of creation, writes, truncating opens, updates and write-backs in
which every loaded regular file has its size in its entry, or is flagged and on the list, are those that
meet the condition.  In such a run a flagged file can be picked by any idle flusher, and the write-back of it
puts its size into the entry. -/
theorem size_tracked (root : I) (fcb : I → Nat → dirent_s_t) (info : I → inode_info) (es : List (SizeEvent I W))
    (s : System I W) :
    (Run (Guarded SizeStep Keeps) (size_init root fcb info) es s ↔
      Run (Guarded SizeStep SizeOk) (size_init root fcb info) es s) ∧
    (Run (Guarded SizeStep SizeOk) (size_init root fcb info) es s →
      ∀ i, S_ISREG (s.inode i).info.i_mode = true → (s.inode i).dirty_in_parent = true →
        (∀ w, s.flusher w = .idle → (s.inode i).dirty_list = true → ∃ s', SizeStep s (.pick w i) s') ∧
        ∀ w s', s.flusher w = .locked i → SizeStep s (.sync_inode w) s' → s'.flusher w = .synced i true →
          (s'.inode i).info.i_size = (s.inode i).info.i_size ∧
            (s'.entry i).DIR_FileSize = (s'.inode i).info.i_size) := by
  constructor
  · refine Run.guarded_iff (I := Inv) ?_ ?_ (inv_init root fcb info)
    · intro s e s' h hok hstep
      exact h.step hok hstep
    intro s e s' h hstep
    constructor
    · intro hkeeps
      exact h.ok_of_tracked hstep (hkeeps s' hstep)
    · intro hok s₁ hs₁
      exact (h.step hok hs₁).tracked
  · intro hrun i hreg hdip
    have hinv : s.Inv := by
      refine Run.invariant (I := Inv) ?_ hrun (inv_init root fcb info)
      intro s e s' h hstep
      exact h.step hstep.1 hstep.2
    constructor
    · intro w hidle hlist
      exact ⟨_, .pick hidle hlist⟩
    · intro w s' hw hstep hdone
      exact hinv.synced hw hdone hstep hreg hdip

/-- The entry of a regular file of 5 bytes. -/
def fiveBytes : dirent_s_t := { fcb_init (Vector.replicate 11 0x41) S_IFREG 3 with DIR_FileSize := 5 }

/-- `O_TRUNC` of a file of 5 bytes: the inode has size 0, its entry 5, and nothing is to be written back. -/
theorem truncated_not_written : ∃ s : System Bool Unit,
    Run SizeStep (size_init false (fun _ _ => fiveBytes) fun _ => load_fcb 0 fiveBytes default)
      [.load true false 1 0, .openat true O_TRUNC] s ∧
      (s.inode true).info.i_size = 0 ∧ (s.entry true).DIR_FileSize = 5 ∧ (s.inode true).dirty_list = false ∧
      ¬s.Tracked := by
  generalize hs : (size_init false (fun _ _ => fiveBytes) fun _ => load_fcb 0 fiveBytes default : System Bool Unit) = s
  have hload : SizeStep s (.load true false 1 0) (s.get_inode true false 1 0) := by
    subst hs
    refine .load ⟨rfl, rfl, rfl⟩ ⟨rfl, by decide⟩ fun j hj hroot => ?_
    exact absurd (of_decide_eq_true hj) hroot
  subst hs
  refine ⟨_, .cons hload (.cons (.openat rfl) (.nil _)), by decide, by decide, rfl, fun htracked => ?_⟩
  rcases htracked true rfl (by decide) with hsize | ⟨-, hlist⟩
  · exact absurd hsize (by decide)
  · cases hlist

end System

end LostWakeup.Fs.Fat32.SizeTracking
