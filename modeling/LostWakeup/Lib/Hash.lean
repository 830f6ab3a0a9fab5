/-
# LostWakeup.Lib.Hash — `hash.c` for tables of type `INODE_MAP`, keyed by file names.

The source compares `hash_str` of the two keys, never the keys, so the table is a map from hashes.
-/
import Mathlib.Data.UInt
import LostWakeup.Library.Chained

namespace LostWakeup.Lib.Hash

open Library

/-- The size of an inode's table. -/
def NINODE : Nat := 200

/-- `hash_str`, in `uint64`. -/
def hash_str (name : List UInt8) : Nat :=
  name.foldl (fun hash_val c => (hash_val * 31 + c.toNat) % 2 ^ 64) 0

/-- The chains of `hash_head`; a node is its `key_name` and the offset in its value. -/
abbrev hash_table : Type := Chains (List UInt8) Nat

/-- `hash_table_entry_init`. -/
def hash_table_entry_init : hash_table := fun _ => []

/-- `hash_lookup`: the first node of the chain for which `hash_bool` holds. -/
def hash_lookup (table : hash_table) (key : List UInt8) : Option (List UInt8 × Nat) :=
  table.find hash_str NINODE (hash_str key)

/-- `hash_insert`: a node with the same hash gets the new value and keeps its key. -/
def hash_insert (table : hash_table) (key : List UInt8) (value : Nat) : hash_table :=
  match hash_lookup table key with
  | none => table.append hash_str NINODE key value
  | some _ =>
    let entry := hash_str key % NINODE
    Function.update table entry ((table entry).replaceF fun node =>
      if hash_str node.1 == hash_str key then some (node.1, value) else none)

/-- `hash_delete`. -/
def hash_delete (table : hash_table) (key : List UInt8) : hash_table :=
  table.erase hash_str NINODE key

theorem hash_lookup_init (key : List UInt8) : hash_lookup hash_table_entry_init key = none := rfl

theorem hash_insert_of_none {table : hash_table} {key : List UInt8} (value : Nat)
    (h : hash_lookup table key = none) :
    hash_insert table key value = table.append hash_str NINODE key value := by
  rw [hash_insert, h]

/-- Two names of one hash. -/
example : hash_str [0x41, 0x61] = hash_str [0x42, 0x42] := by decide

end LostWakeup.Lib.Hash
