/-
# LostWakeup.Lib.RadixTree — `src/lib/radix-tree.c`: the radix tree of the page cache.

A tree of height `h` stores items at indices below `64^h`; each level consumes six bits of the index.  A tree of height 0
is the item itself, in the root pointer, whose low bit tells the two apart (`indirect`).

The loops that walk down a path and back up along it are recursions on the height here.  Following a data item as if it
were a node is a `Panic`.
-/
import Mathlib.Logic.Function.Basic
import Mathlib.Data.BitVec
import LostWakeup.Library.CInt

namespace LostWakeup.Lib.RadixTree

open Library
open Function (update)

/-! ## Nodes and roots -/

def RADIX_TREE_MAP_SHIFT : Nat := 6
abbrev RADIX_TREE_MAP_SIZE : Nat := 64
def RADIX_TREE_MAP_MASK : Nat := 63
abbrev RADIX_TREE_MAX_TAGS : Nat := 2
def RADIX_TREE_MAX_PATH : Nat := 11
def GFP_BITS_SHIFT : Nat := 22
def GFP_BITS_MASK : BitVec 32 := BitVec.ofNat 32 (2 ^ GFP_BITS_SHIFT - 1)
def GFP_FS : BitVec 32 := 0x80

/-- `struct radix_tree_node`, over the type of its slots.  A tag has one 64-bit word. -/
structure Node (S : Type) where
  height : Nat
  count : BitVec 32
  slots : Fin RADIX_TREE_MAP_SIZE → S
  tags : Fin RADIX_TREE_MAX_TAGS → BitVec 64

/-- What a `void *` of the tree can point to. -/
inductive Slot
  | null
  | item (addr : BitVec 64)
  | node (n : Node Slot)

namespace Slot

def present : Slot → Bool
  | .null => false
  | _ => true

end Slot

/-- `struct radix_tree_root`; `indirect` is the low bit of the pointer `rnode`. -/
structure Root where
  height : Nat
  rnode : Slot
  indirect : Bool
  gfp_mask : BitVec 32

inductive Panic
  | maxindex_height
  | insert_item_indirect
  | insert_slot_tagged
  | insert_root_tagged
  | shrink_not_indirect
  | tag_set_index
  | tag_set_no_slot
  /-- A data item, or `NULL`, is used as a node. -/
  | bad_pointer
  | out_of_fuel
  deriving DecidableEq

def assert (cond : Prop) [Decidable cond] (panic : Panic) : Except Panic Unit :=
  if cond then .ok () else .error panic

/-! ## Tags -/

abbrev Tag := Fin RADIX_TREE_MAX_TAGS

def tag_set (n : Node Slot) (tag : Tag) (offset : Fin RADIX_TREE_MAP_SIZE) : Node Slot :=
  { n with tags := update n.tags tag (n.tags tag ||| BitVec.twoPow 64 offset) }

def tag_clear (n : Node Slot) (tag : Tag) (offset : Fin RADIX_TREE_MAP_SIZE) : Node Slot :=
  { n with tags := update n.tags tag (n.tags tag &&& ~~~ BitVec.twoPow 64 offset) }

def tag_get (n : Node Slot) (tag : Tag) (offset : Fin RADIX_TREE_MAP_SIZE) : Bool :=
  (n.tags tag).getLsbD offset

def any_tag_set (n : Node Slot) (tag : Tag) : Bool := n.tags tag != 0

def root_tag_set (root : Root) (tag : Tag) : Root :=
  { root with gfp_mask := root.gfp_mask ||| BitVec.twoPow 32 (tag + GFP_BITS_SHIFT) }

def root_tag_get (root : Root) (tag : Tag) : Bool := root.gfp_mask.getLsbD (tag + GFP_BITS_SHIFT)

def root_tag_clear (root : Root) (tag : Tag) : Root :=
  { root with gfp_mask := root.gfp_mask &&& ~~~ BitVec.twoPow 32 (tag + GFP_BITS_SHIFT) }

def root_tag_clear_all (root : Root) : Root :=
  { root with gfp_mask := root.gfp_mask &&& GFP_BITS_MASK }

/-! ## Walking a path -/

/-- The largest index of a tree of the given height: `(1 << (height * 6)) - 1`, in `int`. -/
def radix_tree_maxindex (height : Nat) : Except Panic Nat :=
  if height > RADIX_TREE_MAX_PATH then
    .error .maxindex_height
  else
    .ok (toUint64 (int32 (int_shl_one (height * RADIX_TREE_MAP_SHIFT) - 1)))

/-- The slot of `index` in a node with `h` levels below it: `(index >> shift) & RADIX_TREE_MAP_MASK`. -/
def slotOffset (index h : Nat) : Fin RADIX_TREE_MAP_SIZE :=
  ⟨(index >>> (h * RADIX_TREE_MAP_SHIFT)) &&& RADIX_TREE_MAP_MASK,
    Nat.lt_of_le_of_lt Nat.and_le_right (by decide)⟩

/-- Follow `index` down from a slot with `h` levels below it, until a `NULL`. -/
def walk (index : Nat) : Nat → Slot → Except Panic Slot
  | 0, slot => .ok slot
  | _ + 1, .null => .ok .null
  | _ + 1, .item _ => .error .bad_pointer
  | h + 1, .node n => walk index h (n.slots (slotOffset index h))

/-- `radix_tree_lookup_element` with `is_slot == 0`.  The height is read off the top node. -/
def radix_tree_lookup_node (root : Root) (index : Nat) : Except Panic Slot :=
  if root.indirect then
    match root.rnode with
    | .node n => do
      let max ← radix_tree_maxindex n.height
      if index > max then return .null
      walk index n.height (.node n)
    | _ => .error .bad_pointer
  else if index > 0 then
    .ok .null
  else
    .ok root.rnode

/-! ## Setting and reading tags -/

/-- The descent of `radix_tree_tag_set` below a slot with `h` levels left: the slot with its bits
set, and what the path leads to. -/
def tagSetPath (index : Nat) (tag : Tag) : Nat → Slot → Except Panic (Slot × Slot)
  | 0, slot => .ok (slot, slot)
  | h + 1, .node n => do
    let offset := slotOffset index h
    let n := if tag_get n tag offset then n else tag_set n tag offset
    assert ((n.slots offset).present = true) .tag_set_no_slot
    let (child, slot) ← tagSetPath index tag h (n.slots offset)
    return (.node { n with slots := update n.slots offset child }, slot)
  | _ + 1, _ => .error .bad_pointer

def radix_tree_tag_set (root : Root) (index : Nat) (tag : Tag) : Except Panic (Root × Slot) := do
  assert (index ≤ (← radix_tree_maxindex root.height)) .tag_set_index
  let (rnode, slot) ← tagSetPath index tag root.height root.rnode
  let root := { root with rnode := rnode }
  let root := if slot.present ∧ root_tag_get root tag = false then root_tag_set root tag else root
  return (root, slot)

/-- The loop of `radix_tree_tag_get`, from a node of the given height. -/
def tagGetPath (index : Nat) (tag : Tag) : Nat → Slot → Except Panic Int
  | _, .null => .ok 0
  | 1, .node n => .ok (if tag_get n tag (slotOffset index 0) then 1 else 0)
  | h + 2, .node n => tagGetPath index tag (h + 1) (n.slots (slotOffset index (h + 1)))
  | _, _ => .error .bad_pointer

def radix_tree_tag_get (root : Root) (index : Nat) (tag : Tag) : Except Panic Int :=
  if root_tag_get root tag = false then
    .ok 0
  else if root.rnode.present = false then
    .ok 0
  else if root.indirect = false then
    .ok (if index = 0 then 1 else 0)
  else
    match root.rnode with
    | .node n => do
      let max ← radix_tree_maxindex n.height
      if index > max then return 0
      tagGetPath index tag n.height (.node n)
    | _ => .error .bad_pointer

/-! ## Insertion -/

/-- `radix_tree_node_alloc`, with the height its caller gives it. -/
def radix_tree_node_alloc (height : Nat) : Node Slot := ⟨height, 0, fun _ => .null, fun _ => 0⟩

/-- The node a slot points to; a `NULL` slot gets a fresh one. -/
def nodeOrAlloc (height : Nat) : Slot → Except Panic (Node Slot)
  | .null => .ok (radix_tree_node_alloc height)
  | .node n => .ok n
  | .item _ => .error .bad_pointer

/-- The descent of `radix_tree_insert` below a slot with `h` levels left.  `none` is the return value
`-1`: the place is taken. -/
def insertPath (index : Nat) (item : BitVec 64) : Nat → Slot → Except Panic (Option Slot)
  | 0, .null => .ok (some (.item item))
  | 0, _ => .ok none
  | h + 1, slot => do
    let n ← nodeOrAlloc (h + 1) slot
    let offset := slotOffset index h
    match ← insertPath index item h (n.slots offset) with
    | none => return none
    | some child =>
      -- the last node on the path checks that its new entry carries no tag
      assert (h = 0 → tag_get n 0 offset = false ∧ tag_get n 1 offset = false) .insert_slot_tagged
      let count := if (n.slots offset).present then n.count else n.count + 1
      return some (.node { n with count := count, slots := update n.slots offset child })

/-- The height `radix_tree_extend` aims for, from `height` up. -/
def extendHeight (index : Nat) : Nat → Nat → Except Panic Nat
  | 0, _ => .error .out_of_fuel
  | fuel + 1, height => do
    if index > (← radix_tree_maxindex height) then extendHeight index fuel (height + 1)
    else return height

/-- One turn of the loop of `radix_tree_extend`: a new root above the old one. -/
def growRoot (root : Root) : Root :=
  let n := radix_tree_node_alloc (root.height + 1)
  let n := { n with slots := update n.slots 0 root.rnode }
  let n := if root_tag_get root 0 then tag_set n 0 0 else n
  let n := if root_tag_get root 1 then tag_set n 1 0 else n
  { root with height := root.height + 1, rnode := .node { n with count := 1 }, indirect := true }

/-- The loop `do { .. } while (height > root->height)`. -/
def extendLoop (root : Root) (height : Nat) : Nat → Except Panic Root
  | 0 => .error .out_of_fuel
  | fuel + 1 =>
    let root := growRoot root
    if height > root.height then extendLoop root height fuel else .ok root

def radix_tree_extend (root : Root) (index : Nat) : Except Panic Root := do
  let height ← extendHeight index (RADIX_TREE_MAX_PATH + 2) (root.height + 1)
  match root.rnode with
  | .null => return { root with height := height }
  | _ => extendLoop root height (RADIX_TREE_MAX_PATH + 1)

/-- The part of `radix_tree_insert` that follows once the tree is high enough. -/
def insertBelow (root : Root) (index : Nat) (item : BitVec 64) : Except Panic (Root × Int) := do
  match ← insertPath index item root.height root.rnode with
  | none => return (root, -1)
  | some slot =>
    assert (root.height = 0 → root_tag_get root 0 = false ∧ root_tag_get root 1 = false)
      .insert_root_tagged
    let indirect := if root.height = 0 then false else if root.rnode.present then root.indirect else true
    return ({ root with rnode := slot, indirect := indirect }, 0)

/-- `radix_tree_insert`, with its return value. -/
def radix_tree_insert (root : Root) (index : Nat) (item : BitVec 64) : Except Panic (Root × Int) := do
  assert (item.getLsbD 0 = false) .insert_item_indirect
  let root ← if index > (← radix_tree_maxindex root.height) then radix_tree_extend root index
    else pure root
  insertBelow root index item

/-! ## Deletion -/

/-- The ascent of `radix_tree_tag_clear` from a slot with `h` levels below it, and whether the level above still has
to clear its bit.  `none` when the path ends in `NULL`. -/
def tagClearPath (index : Nat) (tag : Tag) : Nat → Slot → Except Panic (Option (Slot × Bool))
  | _, .null => .ok none
  | 0, slot => .ok (some (slot, true))
  | _ + 1, .item _ => .error .bad_pointer
  | h + 1, .node n => do
    let offset := slotOffset index h
    match ← tagClearPath index tag h (n.slots offset) with
    | none => return none
    | some (child, up) =>
      let n := { n with slots := update n.slots offset child }
      if up ∧ tag_get n tag offset then
        let n := tag_clear n tag offset
        return some (.node n, !any_tag_set n tag)
      else
        return some (.node n, false)

def radix_tree_tag_clear (root : Root) (index : Nat) (tag : Tag) : Except Panic Root := do
  if index > (← radix_tree_maxindex root.height) then return root
  match ← tagClearPath index tag root.height root.rnode with
  | none => return root
  | some (slot, up) =>
    let root := { root with rnode := slot }
    return if up ∧ root_tag_get root tag then root_tag_clear root tag else root

/-- The tag bit of `index` in the last node on its path. -/
def leafTag (index : Nat) (tag : Tag) : Nat → Slot → Bool
  | h + 1, .node n =>
    if h = 0 then tag_get n tag (slotOffset index h)
    else leafTag index tag h (n.slots (slotOffset index h))
  | _, _ => false

/-- What unlinking an entry leaves of the subtree it was in. -/
inductive Removal
  /-- Nothing was there. -/
  | absent
  /-- `item` was the only entry: the subtree is freed. -/
  | emptied (item : Slot)
  /-- The subtree is now `slot`; `here` when its top node is the one where the ascent stopped. -/
  | kept (item : Slot) (slot : Slot) (here : Bool)

/-- The descent and ascent of `radix_tree_delete` below a slot with `h` levels left. -/
def deletePath (index : Nat) : Nat → Slot → Except Panic Removal
  | _, .null => .ok .absent
  | 0, slot => .ok (.emptied slot)
  | _ + 1, .item _ => .error .bad_pointer
  | h + 1, .node n => do
    let offset := slotOffset index h
    match ← deletePath index h (n.slots offset) with
    | .absent => return .absent
    | .emptied item =>
      let n := { n with slots := update n.slots offset .null, count := n.count - 1 }
      return if n.count ≠ 0 then .kept item (.node n) true else .emptied item
    | .kept item child _ =>
      return .kept item (.node { n with slots := update n.slots offset child }) false

/-- `radix_tree_shrink`: while the root node has nothing but a leftmost child, drop it. -/
def radix_tree_shrink (root : Root) : Nat → Except Panic Root
  | 0 => .error .out_of_fuel
  | fuel + 1 => do
    if root.height > 0 then
      assert (root.indirect = true) .shrink_not_indirect
      match root.rnode with
      | .node n =>
        if n.count ≠ 1 then return root
        if (n.slots 0).present = false then return root
        radix_tree_shrink
          { root with
            rnode := n.slots 0
            indirect := decide (root.height > 1)
            height := root.height - 1 } fuel
      | _ => .error .bad_pointer
    else
      return root

/-- `radix_tree_delete`, with the pointer it returns. -/
def radix_tree_delete (root : Root) (index : Nat) : Except Panic (Root × Slot) := do
  if index > (← radix_tree_maxindex root.height) then return (root, .null)
  if root.height = 0 then
    return ({ root_tag_clear_all root with rnode := .null, indirect := false }, root.rnode)
  let slot ← walk index root.height root.rnode
  if slot.present = false then return (root, .null)
  let root ← if leafTag index 0 root.height root.rnode then radix_tree_tag_clear root index 0
    else pure root
  let root ← if leafTag index 1 root.height root.rnode then radix_tree_tag_clear root index 1
    else pure root
  match ← deletePath index root.height root.rnode with
  | .absent => return (root, .null)
  | .emptied item =>
    return ({ root_tag_clear_all root with rnode := .null, indirect := false, height := 0 }, item)
  | .kept item slot here =>
    let root := { root with rnode := slot }
    let root ← if here then radix_tree_shrink root (root.height + 1) else pure root
    return (root, item)

/-- `INIT_RADIX_TREE`, as `fat32_i_mapping_init` uses it. -/
def INIT_RADIX_TREE (mask : BitVec 32) : Root := ⟨0, .null, false, mask⟩

end LostWakeup.Lib.RadixTree
