/-
# LostWakeup.Fs.Fat32.Dir — looking up and deleting the files of a directory.

A lookup first asks the directory's hash table; if that has nothing it scans the entries from `off_hint` on, and enters
every file it passes.  `linear_scan` is the answer these shortcuts are to reproduce.

A directory's contents are its 32-byte entries; reading and writing them through the page cache is taken as exact here.
A returned inode is known by its `parent_off`.
-/
import LostWakeup.Lib.Hash
import LostWakeup.Library.Run
import LostWakeup.Fs.Fat32.LongName

namespace LostWakeup.Fs.Fat32.Dir

open Library Lib.Hash Fs.Fat32.LongName

/-! ## The data model -/

structure inode where
  /-- `i_sb->cluster_size`. -/
  cluster_size : Nat
  /-- The contents, `i_size / 32` entries. -/
  entries : List (List UInt8)
  i_hash : Option hash_table
  off_hint : Nat

inductive Panic
  | fcb (e : LongName.Panic)
  | no_enough_memory
  | assertion
  /-- Not a panic of the source, like the next two: `i_hash` is used while it is `NULL`. -/
  | null_pointer
  /-- A name is copied past the end of an array. -/
  | buffer_overrun
  /-- `safestrcpy` of an empty name leaves the array as it was. -/
  | uninitialised
  deriving DecidableEq

/-- `safestrcpy(dst, name, strlen(name))` into an array of `size` bytes. -/
def copyName (size : Nat) (name : List UInt8) : Except Panic (List UInt8) :=
  if name = [] then .error .uninitialised
  else if size ≤ name.length then .error .buffer_overrun
  else .ok name

/-- The length of `name_search`. -/
def NAME_SEARCH : Nat := 50

/-- The length of `name_buf`. -/
def NAME_LONG_MAX : Nat := 255

/-- The length of `key_name`, `NAME_LONG_MAX / 4`. -/
def KEY_NAME : Nat := 63

def PATH_LONG_MAX : Nat := 260

def fat32_namecmp (s t : List UInt8) : Bool := s.take PATH_LONG_MAX == t.take PATH_LONG_MAX

/-! ## The hash table of a directory -/

/-- `fat32_inode_hash_insert`. -/
def fat32_inode_hash_insert (table : hash_table) (name : List UInt8) (off : Nat) : Except Panic hash_table :=
  match hash_lookup table name with
  | some _ => .ok table
  | none =>
    match copyName KEY_NAME name with
    | .error e => .error e
    | .ok key_name => .ok (hash_insert table key_name off)

/-- `fat32_inode_hash_destroy`. -/
def fat32_inode_hash_destroy (dp : inode) : inode :=
  match dp.i_hash with
  | none => dp
  | some _ => { dp with i_hash := none, off_hint := 0 }

/-! ## Lookup -/

/-- `fat32_inode_travel_fcb_handler` before it calls the handler: the name goes into `name_buf`, and into the hash
table unless it starts with a dot. -/
def pass (table : hash_table) (fcb_stack : List dirent_l_t) (name_buf : List UInt8) (off : Nat) :
    Except Panic hash_table :=
  if NAME_LONG_MAX < written fcb_stack 1 then .error .buffer_overrun
  else if chr name_buf 0 ≠ 0x2E then fat32_inode_hash_insert table name_buf off
  else .ok table

/-- How a scan for a name ends: at a match, at an entry after which nothing follows, or at the end. -/
inductive Trav
  | found (off : Nat)
  | stop
  | over
  deriving DecidableEq

/-- The loop of `fat32_inode_general_trav` for `DIRLOOKUP_OP`, over the entries from `off` on. -/
def fat32_inode_general_trav (name_search : List UInt8) : List dirent_l_t → Nat → List (List UInt8) →
    hash_table → Except Panic (hash_table × Trav)
  | _, _, [], table => .ok (table, .over)
  | fcb_stack, off, fcb :: fcbs, table =>
    match travel_fcb fcb_stack fcb with
    | .error e => .error (.fcb e)
    | .ok (_, .all_free) => .ok (table, .stop)
    | .ok (stack, .file name_buf _) =>
      match pass table fcb_stack name_buf off with
      | .error e => .error e
      | .ok table =>
        if fat32_namecmp name_search name_buf then .ok (table, .found off)
        else fat32_inode_general_trav name_search stack (off + 1) fcbs table
    | .ok (stack, _) => fat32_inode_general_trav name_search stack (off + 1) fcbs table

/-- `fat32_inode_dirlookup_with_hint`; `table` is the directory's hash table. -/
def fat32_inode_dirlookup_with_hint (dp : inode) (table : hash_table) (name : List UInt8) :
    Except Panic (inode × Option Nat) :=
  match copyName NAME_SEARCH name with
  | .error e => .error e
  | .ok name_search =>
    if dp.entries.length < dp.off_hint then
      -- the size of the buffer is negative
      .error .no_enough_memory
    else
      match fat32_inode_general_trav name_search [] dp.off_hint (dp.entries.drop dp.off_hint) table with
      | .error e => .error e
      | .ok (table, .found off) => .ok ({ dp with i_hash := some table, off_hint := off + 1 }, some off)
      | .ok (table, .stop) => .ok ({ dp with i_hash := some table }, none)
      | .ok (table, .over) => .ok ({ dp with i_hash := some table, off_hint := 0 }, none)

/-- `fat32_inode_dirlookup`. -/
def fat32_inode_dirlookup (dp : inode) (name : List UInt8) : Except Panic (inode × Option Nat) :=
  match dp.i_hash with
  | none => fat32_inode_dirlookup_with_hint dp hash_table_entry_init name
  | some table =>
    match hash_lookup table name with
    | some (_, off) => .ok (dp, some off)
    | none => fat32_inode_dirlookup_with_hint dp table name

/-! ## Writing and deleting entries -/

def NAME0_FREE_BOOL (x : UInt8) : Bool := NAME0_FREE_ONLY x || NAME0_FREE_ALL x

/-- The loop of `fat32_dir_fcb_insert_offset`. -/
def insertLoop (fcb_cnt_req offset_ret_base : Nat) : Nat → List (List UInt8) → Nat → Nat → Nat
  | _, [], _, retval => retval
  | idx, fcb :: fcbs, fcb_free_cnt, retval =>
    if !NAME0_FREE_BOOL (chr fcb 0) then
      insertLoop fcb_cnt_req offset_ret_base (idx + 1) fcbs 0 offset_ret_base
    else
      let retval := if fcb_free_cnt = 0 then idx else retval
      if fcb_free_cnt + 1 = fcb_cnt_req then retval
      else insertLoop fcb_cnt_req offset_ret_base (idx + 1) fcbs (fcb_free_cnt + 1) retval

/-- `fat32_dir_fcb_insert_offset`. -/
def fat32_dir_fcb_insert_offset (dp : inode) (fcb_cnt_req : Nat) : Nat :=
  insertLoop fcb_cnt_req dp.entries.length 0 dp.entries 0 0

/-- An entry that was never written. -/
def zeroFcb : List UInt8 := List.replicate 32 0

/-- `fat32_inode_write` of whole entries to a directory, which grows by whole clusters. -/
def fat32_inode_write (dp : inode) (offset : Nat) (fcbs : List (List UInt8)) : inode :=
  let end_off := (offset + fcbs.length) * 32
  let i_size :=
    if end_off > dp.entries.length * 32 then
      (end_off + dp.cluster_size - 1) / dp.cluster_size * dp.cluster_size
    else dp.entries.length * 32
  let entries := dp.entries ++ List.replicate (i_size / 32 - dp.entries.length) zeroFcb
  { dp with entries := entries.take offset ++ fcbs ++ entries.drop (offset + fcbs.length) }

/-- An entry as `fat32_fcb_delete` leaves it. -/
def freeFcb : List UInt8 := 0xE5 :: List.replicate 31 0

/-- `fat32_fcb_delete`, for the inode with this `fname` and `parent_off`. -/
def fat32_fcb_delete (dp : inode) (fname : List UInt8) (off : Nat) : Except Panic inode :=
  let long_dir_len := ordMax fname
  if off = 0 ∨ off < long_dir_len then
    .error .assertion
  else
    let dp := fat32_inode_write dp (off - long_dir_len) (List.replicate (long_dir_len + 1) freeFcb)
    match dp.i_hash with
    | none => .error .null_pointer
    | some table => .ok { dp with i_hash := some (hash_delete table fname) }

/-! ## The plain scan -/

/-- The live files among entries from `off` on, each with the offset of its short entry, and the stack
the scan ends with. -/
def liveFiles : List dirent_l_t → Nat → List (List UInt8) →
    Except LongName.Panic (List dirent_l_t × List (List UInt8 × Nat))
  | stack, _, [] => .ok (stack, [])
  | stack, off, fcb :: fcbs =>
    match travel_fcb stack fcb with
    | .error e => .error e
    | .ok (stack, .all_free) => .ok (stack, [])
    | .ok (stack, .file name _) => (liveFiles stack (off + 1) fcbs).map fun r => (r.1, (name, off) :: r.2)
    | .ok (stack, _) => liveFiles stack (off + 1) fcbs

/-- The first live file of that name. -/
def linear_scan (dp : inode) (name : List UInt8) : Except LongName.Panic (Option Nat) :=
  (liveFiles [] 0 dp.entries).map fun r => (r.2.find? fun f => f.1 == name).map Prod.snd

end LostWakeup.Fs.Fat32.Dir
