/-
# LostWakeup.Lib.HashTable — `hash.c` for tables keyed by an `int` or by a pointer.

The type of a table says how a `void *key` is read: the same in `hash_get_entry`, `hash_bool` and `hash_assign`.  A table
of futexes owns its values and passes them to `kfree`.  The calls run under the lock of the table; `holding` and
`release` say who takes it and who gives it back.
-/
import Mathlib.Algebra.Order.Group.Multiset
import LostWakeup.Lib.Hash
import LostWakeup.Library.Run

namespace LostWakeup.Lib.HashTable

open Library
open Function (update update_apply update_eq_self)
open Lib.Hash (hash_str)

/-! ## The table -/

inductive hash_type
  | PID_MAP
  | TID_MAP
  | IPC_IDX_MAP
  | FUTEX_MAP
  | INODE_MAP
  deriving DecidableEq

/-- What a `void *key` is read as, and what the union of a node is: `key_id`, `key_p` or `key_name`. -/
structure Key where
  id : BitVec 32
  p : BitVec 64
  name : List UInt8

/-- The rest of a node: its address, and `value`. -/
structure Block where
  addr : Nat
  value : Nat

abbrev hash_node := Key × Block

/-- A table after `hash_table_entry_init`: where it is, and where its chains are. -/
structure hash_table where
  type : hash_type
  size : Nat
  addr : Nat
  hash_head : Nat
  size_pos : 0 < size
  apart : addr ≠ hash_head

/-- Whether the lock is held, and the chains. -/
structure State where
  lock : Bool
  chains : Chains Key Block

inductive Panic
  | acquire
  | release
  deriving DecidableEq

def acquire (s : State) : Except Panic State := if s.lock then .error .acquire else .ok { s with lock := true }

def release (s : State) : Except Panic State := if s.lock then .ok { s with lock := false } else .error .release

/-! ## The functions of the source -/

/-- What the key is before the modulo; an `int` is converted to `uint64`. -/
def hash (type : hash_type) (key : Key) : Nat :=
  match type with
  | .PID_MAP | .TID_MAP | .IPC_IDX_MAP => (key.id.signExtend 64).toNat
  | .FUTEX_MAP => key.p.toNat
  | .INODE_MAP => hash_str key.name

/-- `hash_get_entry`: the number of the chain. -/
def hash_get_entry (table : hash_table) (s : State) (key : Key) (holding : Bool) : Except Panic (State × Nat) := do
  let hash_val := hash table.type key % table.size
  let s ← if holding then pure s else acquire s
  return (s, hash_val)

def hash_bool (node : hash_node) (key : Key) (type : hash_type) : Bool :=
  match type with
  | .PID_MAP | .TID_MAP | .IPC_IDX_MAP => node.1.id == key.id
  | .FUTEX_MAP => node.1.p == key.p
  | .INODE_MAP => hash_str node.1.name == hash_str key.name

/-- `hash_assign` stores one member of the union. -/
def hash_assign (node : hash_node) (key : Key) (type : hash_type) : hash_node :=
  match type with
  | .PID_MAP | .TID_MAP | .IPC_IDX_MAP => ({ node.1 with id := key.id }, node.2)
  | .FUTEX_MAP => ({ node.1 with p := key.p }, node.2)
  | .INODE_MAP => ({ node.1 with name := key.name }, node.2)

/-- The types whose tables pass their values to `kfree`. -/
def owns : hash_type → Bool
  | .INODE_MAP | .FUTEX_MAP => true
  | _ => false

/-- The lock, the number of the chain, and the node. -/
def hash_lookup (table : hash_table) (s : State) (key : Key) (unlock holding : Bool) :
    Except Panic (State × Nat × Option hash_node) := do
  let (s, entry) ← hash_get_entry table s key holding
  let node := (s.chains entry).find? fun node => hash_bool node key table.type
  let s ← if unlock then release s else pure s
  return (s, entry, node)

/-- `hash_insert`, where `kmalloc` has `node_new`; the blocks are what it passes to `kfree`. -/
def hash_insert (table : hash_table) (s : State) (key : Key) (value : Nat) (holding : Bool) (node_new : hash_node) :
    Except Panic (State × List Nat) := do
  let (s, entry, node) ← hash_lookup table s key false holding
  let (chain, freed) :=
    match node with
    | none =>
      let node_new := hash_assign node_new key table.type
      (s.chains entry ++ [(node_new.1, { node_new.2 with value := value })], [])
    | some node =>
      ((s.chains entry).replaceF fun node =>
          if hash_bool node key table.type then some (node.1, { node.2 with value := value }) else none,
        if owns table.type then [node.2.value] else [])
  let s ← release { s with chains := update s.chains entry chain }
  return (s, freed)

def hash_delete (table : hash_table) (s : State) (key : Key) (holding unlock : Bool) : Except Panic (State × List Nat) := do
  let (s, entry, node) ← hash_lookup table s key false holding
  let (chain, freed) :=
    match node with
    | none => (s.chains entry, [])
    | some node =>
      ((s.chains entry).eraseP fun node => hash_bool node key table.type,
        (if owns table.type then [node.2.value] else []) ++ [node.2.addr])
  let s := { s with chains := update s.chains entry chain }
  let s ← if unlock then release s else pure s
  return (s, freed)

/-- The blocks of a node: its value, if the table owns it, and the node. -/
def nodeBlocks (type : hash_type) (node : hash_node) : List Nat :=
  (if owns type then [node.2.value] else []) ++ [node.2.addr]

def hash_destroy (table : hash_table) (s : State) (free : Bool) : Except Panic (State × List Nat) := do
  let s ← acquire s
  let freed := (List.range table.size).flatMap fun i => (s.chains i).flatMap (nodeBlocks table.type)
  let s ← release s
  return (s, freed ++ if free then [table.addr] else [])

/-! ## Calls -/

inductive Event
  | lookup (key : Key) (release holding : Bool)
  | insert (key : Key) (value : Nat) (holding : Bool) (node_new : hash_node)
  | delete (key : Key) (holding release : Bool)
  | destroy (free : Bool)

/-- What a call leaves behind: the state, the node that it returns, and what it passes to `kfree`. -/
def call (table : hash_table) (s : State) : Event → Except Panic (State × Option hash_node × List Nat)
  | .lookup key release holding => do
    let (s, _, node) ← hash_lookup table s key release holding
    return (s, node, [])
  | .insert key value holding node_new => do
    let (s, freed) ← hash_insert table s key value holding node_new
    return (s, none, freed)
  | .delete key holding release => do
    let (s, freed) ← hash_delete table s key holding release
    return (s, none, freed)
  | .destroy free => do
    let (s, freed) ← hash_destroy table s free
    return (s, none, freed)

/-- The blocks of all nodes of a table. -/
def held (table : hash_table) (s : State) : Multiset Nat :=
  s.chains.sum (fun node => (nodeBlocks table.type node : Multiset Nat)) table.size

/-- All blocks of a table: those of the nodes, the bucket array and the table itself. -/
def blocks (table : hash_table) (s : State) : Multiset Nat := held table s + {table.addr, table.hash_head}

/-- The caller says truly whether it holds the lock; what `kmalloc` returns, and the value for a table that owns its
values, are not blocks of the table already. -/
def Legal (table : hash_table) (s : State) : Event → Prop
  | .lookup _ _ holding => holding = s.lock
  | .insert _ value holding node_new => holding = s.lock ∧ node_new.2.addr ∉ blocks table s ∧
      (owns table.type = true → value ∉ blocks table s ∧ value ≠ node_new.2.addr)
  | .delete _ holding _ => holding = s.lock
  | .destroy _ => s.lock = false

/-- A call after which there still is a table. -/
def Step (table : hash_table) (s : State) (e : Event) (s' : State) : Prop :=
  Legal table s e ∧ (∀ free, e ≠ .destroy free) ∧ ∃ node freed, call table s e = .ok (s', node, freed)

def init : State := ⟨false, fun _ => []⟩

/-! ## A finite map -/

/-- The key that is meant. -/
def keyOf (type : hash_type) (key : Key) : Int :=
  match type with
  | .PID_MAP | .TID_MAP | .IPC_IDX_MAP => key.id.toInt
  | .FUTEX_MAP => key.p.toNat
  | .INODE_MAP => hash_str key.name

/-- What a call makes of the map. -/
def apply (type : hash_type) (map : Int → Option Nat) : Event → Int → Option Nat
  | .insert key value _ _ => update map (keyOf type key) (some value)
  | .delete key _ _ => update map (keyOf type key) none
  | _ => map

/-- The value last inserted for each key, and not deleted since. -/
def contents (type : hash_type) (es : List Event) : Int → Option Nat := es.foldl (apply type) fun _ => none

/-- Whether a call keeps the lock. -/
def keeps : Event → Bool
  | .lookup _ release _ => !release
  | .delete _ _ release => !release
  | _ => false

/-- The blocks that a call hands to the table. -/
def given (table : hash_table) (map : Int → Option Nat) : Event → Multiset Nat
  | .insert key value _ node_new =>
    (if owns table.type then {value} else 0) + if map (keyOf table.type key) = none then {node_new.2.addr} else 0
  | _ => 0

/-- A call returns, does with the lock what its arguments say, finds what the map has, and frees what leaves the
table, each block once. -/
structure Meets (table : hash_table) (map : Int → Option Nat) (s : State) (e : Event) : Prop where
  returns : ∃ s' node freed, call table s e = .ok (s', node, freed)
  lock : ∀ s' node freed, call table s e = .ok (s', node, freed) → s'.lock = keeps e
  lookup : ∀ s' node freed key release holding, e = .lookup key release holding → call table s e = .ok (s', node, freed) →
    node.map (·.2.value) = map (keyOf table.type key) ∧ ∀ n ∈ node, keyOf table.type n.1 = keyOf table.type key
  once : (blocks table s).Nodup
  ledger : ∀ s' node freed, (∀ free, e ≠ .destroy free) → call table s e = .ok (s', node, freed) →
    held table s' + freed = held table s + given table map e
  destroyed : ∀ s' node freed free, e = .destroy free → call table s e = .ok (s', node, freed) →
    (freed : Multiset Nat) = if free then blocks table s else held table s

section Refinement

variable {table : hash_table} {type : hash_type} {map : Int → Option Nat} {s s' : State} {key key' : Key} {e : Event}

/-! ## The key -/

theorem signExtend_inj {a b : BitVec 32} : a.signExtend 64 = b.signExtend 64 ↔ a = b := by
  constructor
  · intro h
    have hint := congrArg BitVec.toInt h
    rw [BitVec.toInt_signExtend_of_le (by decide), BitVec.toInt_signExtend_of_le (by decide)] at hint
    exact BitVec.toInt_inj.mp hint
  · rintro rfl
    rfl

theorem hash_eq_iff : hash type key = hash type key' ↔ keyOf type key = keyOf type key' := by
  unfold hash keyOf
  split
  · rw [BitVec.toNat_inj, signExtend_inj, BitVec.toInt_inj]
  · rw [BitVec.toNat_inj, signExtend_inj, BitVec.toInt_inj]
  · rw [BitVec.toNat_inj, signExtend_inj, BitVec.toInt_inj]
  · exact Int.natCast_inj.symm
  · exact Int.natCast_inj.symm

theorem hash_bool_eq (node : hash_node) : hash_bool node key type = (hash type node.1 == hash type key) := by
  rw [Bool.eq_iff_iff, beq_iff_eq]
  unfold hash_bool hash
  cases type with
  | PID_MAP => simp [BitVec.toNat_inj, signExtend_inj]
  | TID_MAP => simp [BitVec.toNat_inj, signExtend_inj]
  | IPC_IDX_MAP => simp [BitVec.toNat_inj, signExtend_inj]
  | FUTEX_MAP => simp [BitVec.toNat_inj]
  | INODE_MAP => simp

theorem hash_assign_key (node : hash_node) : hash type (hash_assign node key type).1 = hash type key := by
  cases type <;> rfl

theorem hash_assign_block (node : hash_node) : (hash_assign node key type).2 = node.2 := by
  cases type <;> rfl

/-! ## What the calls do -/

theorem acquire_of (h : s.lock = false) : acquire s = .ok { s with lock := true } := by
  rw [acquire, h]
  rfl

theorem entry_eq {holding : Bool} {entry : Nat} (h : hash_get_entry table s key holding = .ok (s', entry)) :
    entry = hash table.type key % table.size := by
  unfold hash_get_entry at h
  cases holding with
  | true =>
    cases h
    rfl
  | false =>
    rcases hlock : acquire s with e | s₁
    · simp only [hlock, bind, Except.bind, Bool.false_eq_true, if_false] at h
      cases h
    · simp only [hlock, bind, Except.bind, Bool.false_eq_true, if_false] at h
      cases h
      rfl

/-- The node that a lookup finds. -/
def found (table : hash_table) (s : State) (key : Key) : Option hash_node :=
  s.chains.find (hash table.type) table.size (hash table.type key)

theorem find?_hash_bool (l : List hash_node) :
    (l.find? fun node => hash_bool node key type) = l.find? fun node => hash type node.1 == hash type key := by
  congr 1
  funext node
  exact hash_bool_eq node

theorem hash_get_entry_eq {holding : Bool} (h : holding = s.lock) :
    hash_get_entry table s key holding = .ok ({ s with lock := true }, hash table.type key % table.size) := by
  subst h
  unfold hash_get_entry
  cases hlock : s.lock with
  | false =>
    rw [if_neg (by decide), acquire_of hlock]
    rfl
  | true =>
    rw [if_pos rfl, ← hlock]
    rfl

theorem hash_lookup_eq {holding : Bool} (unlock : Bool) (h : holding = s.lock) : hash_lookup table s key unlock holding =
    .ok ({ s with lock := !unlock }, hash table.type key % table.size, found table s key) := by
  unfold hash_lookup
  rw [hash_get_entry_eq h]
  simp only [bind, Except.bind, find?_hash_bool]
  cases unlock <;> rfl

/-- The table after `hash_insert`. -/
def inserted (table : hash_table) (s : State) (key : Key) (value : Nat) (node_new : hash_node) : Chains Key Block :=
  if found table s key = none then
    s.chains.append (hash table.type) table.size (hash_assign node_new key table.type).1 { node_new.2 with value := value }
  else s.chains.modify (hash table.type) table.size key fun block => { block with value := value }

theorem hash_insert_eq {holding : Bool} (value : Nat) (node_new : hash_node) (h : holding = s.lock) :
    hash_insert table s key value holding node_new = .ok (⟨false, inserted table s key value node_new⟩,
      if owns table.type then (found table s key).toList.map (·.2.value) else []) := by
  unfold hash_insert
  rw [hash_lookup_eq false h]
  unfold inserted
  cases hfound : found table s key with
  | none =>
    rw [if_pos rfl, Chains.append, hash_assign_key]
    simp only [bind, Except.bind, hash_assign_block, release, Bool.not_false, if_true, Option.toList_none, List.map_nil, ite_self]
    rfl
  | some node =>
    rw [if_neg (Option.some_ne_none node), Chains.modify]
    simp only [bind, Except.bind, release, Bool.not_false, if_true, hash_bool_eq]
    rfl

theorem hash_delete_eq {holding : Bool} (unlock : Bool) (h : holding = s.lock) : hash_delete table s key holding unlock =
    .ok (⟨!unlock, s.chains.erase (hash table.type) table.size key⟩,
      (found table s key).toList.flatMap (nodeBlocks table.type)) := by
  unfold hash_delete
  rw [hash_lookup_eq false h]
  cases hfound : found table s key with
  | none =>
    rw [Chains.erase_of_none hfound]
    simp only [bind, Except.bind, update_eq_self, Bool.not_false, Option.toList_none, List.flatMap_nil]
    cases unlock <;> rfl
  | some node =>
    rw [Chains.erase]
    simp only [bind, Except.bind, Bool.not_false, hash_bool_eq, Option.toList_some, List.flatMap_cons, List.flatMap_nil, List.append_nil]
    cases unlock <;> rfl

theorem hash_destroy_eq (free : Bool) (h : s.lock = false) : hash_destroy table s free =
    .ok (s, ((List.range table.size).flatMap fun i => (s.chains i).flatMap (nodeBlocks table.type)) ++
      if free then [table.addr] else []) := by
  unfold hash_destroy
  rw [acquire_of h]
  simp only [bind, Except.bind, release, if_true]
  rw [← h]
  rfl

/-! ## The blocks -/

theorem coe_nodeBlocks (node : hash_node) :
    (nodeBlocks type node : Multiset Nat) = (if owns type then {node.2.value} else 0) + {node.2.addr} := by
  unfold nodeBlocks
  split <;> rfl

theorem coe_flatMap (g : hash_node → List Nat) (l : List hash_node) :
    (l.flatMap g : Multiset Nat) = (l.map fun node => (g node : Multiset Nat)).sum := by
  induction l with
  | nil => rfl
  | cons node l ih =>
    rw [List.flatMap_cons, List.map_cons, List.sum_cons, ← ih]
    rfl

theorem coe_flatMap_range (f : Nat → List Nat) (n : Nat) :
    ((List.range n).flatMap f : Multiset Nat) = ∑ i ∈ Finset.range n, (f i : Multiset Nat) := by
  induction n with
  | zero => rfl
  | succ n ih =>
    rw [List.range_succ, List.flatMap_append, Finset.sum_range_succ, ← ih, List.flatMap_singleton]
    rfl

theorem coe_held : ((List.range table.size).flatMap fun i => (s.chains i).flatMap (nodeBlocks table.type) : Multiset Nat) =
    held table s := by
  rw [coe_flatMap_range, held, Chains.sum]
  apply Finset.sum_congr rfl
  intro i _
  exact coe_flatMap _ _

/-- The chains have what the map has, no key twice, and the blocks are all different. -/
structure Inv (table : hash_table) (map : Int → Option Nat) (s : State) : Prop where
  contents : ∀ key, (found table s key).map (·.2.value) = map (keyOf table.type key)
  unique : s.chains.Unique (hash table.type)
  once : (blocks table s).Nodup

theorem blocks_init (table : hash_table) : blocks table init = {table.addr, table.hash_head} := by
  have hheld : held table init = 0 := by
    unfold held Chains.sum
    exact Finset.sum_eq_zero fun _ _ => rfl
  rw [blocks, hheld, Multiset.zero_add]

theorem inv_init : Inv table (fun _ => none) init where
  contents := fun key => rfl
  unique := fun b => List.Pairwise.nil
  once := by
    rw [blocks_init]
    exact Multiset.nodup_cons.mpr ⟨fun h => table.apart (Multiset.mem_singleton.mp h), Multiset.nodup_singleton _⟩

/-- What leaves the chains and what joins them. -/
theorem Inv.ledger (h : Inv table map s) (hlegal : Legal table s e) (hkeep : ∀ free, e ≠ .destroy free) {node : Option hash_node}
    {freed : List Nat} (hcall : call table s e = .ok (s', node, freed)) :
    held table s' + freed = held table s + given table map e := by
  cases e with
  | lookup key release holding =>
    rw [call, hash_lookup_eq release hlegal] at hcall
    cases hcall
    rfl
  | insert key value holding node_new =>
    rw [call, hash_insert_eq value node_new hlegal.1] at hcall
    cases hcall
    have hmap := h.contents key
    unfold held inserted given
    dsimp only
    cases hfound : found table s key with
    | none =>
      rw [hfound] at hmap
      have hnone : map (keyOf table.type key) = none := hmap.symm
      rw [if_pos rfl, Chains.sum_append _ table.size_pos, coe_nodeBlocks, if_pos hnone]
      simp
    | some old =>
      rw [hfound] at hmap
      have hsome : map (keyOf table.type key) ≠ none := hmap ▸ Option.some_ne_none _
      have hsum := Chains.sum_modify (fun node => (nodeBlocks table.type node : Multiset Nat)) table.size_pos
        (fun block => { block with value := value }) hfound
      rw [coe_nodeBlocks, coe_nodeBlocks, ← add_assoc, ← add_assoc] at hsum
      rw [if_neg (Option.some_ne_none old), if_neg hsome, add_zero, ← add_right_cancel hsum]
      congr 1
      split <;> rfl
  | delete key holding release =>
    rw [call, hash_delete_eq release hlegal] at hcall
    cases hcall
    unfold held given
    dsimp only
    cases hfound : found table s key with
    | none =>
      rw [Chains.erase_of_none hfound]
      rfl
    | some old =>
      have hsum := Chains.sum_erase (fun node => (nodeBlocks table.type node : Multiset Nat)) table.size_pos hfound
      rw [add_zero, ← hsum]
      simp
  | destroy free => exact absurd rfl (hkeep free)

/-- What a call is handed is not in the table. -/
theorem given_fresh (h : Inv table map s) (hlegal : Legal table s e) : (blocks table s + given table map e).Nodup := by
  cases e with
  | insert key value holding node_new =>
    obtain ⟨_, haddr, hvalue⟩ := hlegal
    have hnew : ∀ b : Multiset Nat, b.Nodup → node_new.2.addr ∉ b →
        (b + if map (keyOf table.type key) = none then {node_new.2.addr} else 0).Nodup := by
      intro b hb hnot
      split
      · rw [Multiset.add_comm, Multiset.singleton_add]
        exact Multiset.nodup_cons.mpr ⟨hnot, hb⟩
      · rwa [Multiset.add_zero]
    rw [given, ← add_assoc]
    by_cases howns : owns table.type = true
    · obtain ⟨hfresh, hne⟩ := hvalue howns
      rw [if_pos howns, Multiset.add_comm _ {value}, Multiset.singleton_add]
      apply hnew _ (Multiset.nodup_cons.mpr ⟨hfresh, h.once⟩)
      rw [Multiset.mem_cons]
      exact not_or.mpr ⟨hne.symm, haddr⟩
    · rw [if_neg howns, Multiset.add_zero]
      exact hnew _ h.once haddr
  | lookup key release holding => exact (Multiset.add_zero _).symm ▸ h.once
  | delete key holding release => exact (Multiset.add_zero _).symm ▸ h.once
  | destroy free => exact (Multiset.add_zero _).symm ▸ h.once

theorem Inv.once_after (h : Inv table map s) (hlegal : Legal table s e) (hkeep : ∀ free, e ≠ .destroy free)
    {node : Option hash_node} {freed : List Nat} (hcall : call table s e = .ok (s', node, freed)) : (blocks table s').Nodup := by
  have hle : blocks table s' ≤ blocks table s + given table map e := by
    have hledger := h.ledger hlegal hkeep hcall
    have hheld : held table s' ≤ held table s + given table map e := hledger ▸ Multiset.le_add_right _ _
    unfold blocks
    rw [add_right_comm]
    exact add_le_add hheld (le_refl _)
  exact Multiset.nodup_of_le hle (given_fresh h hlegal)

/-- **Step lemma.** -/
theorem Inv.step (h : Inv table map s) (hstep : Step table s e s') : Inv table (apply table.type map e) s' := by
  obtain ⟨hlegal, hkeep, node, freed, hcall⟩ := hstep
  have honce := h.once_after hlegal hkeep hcall
  cases e with
  | lookup key release holding =>
    rw [call, hash_lookup_eq release hlegal] at hcall
    cases hcall
    exact ⟨h.contents, h.unique, honce⟩
  | insert key value holding node_new =>
    rw [call, hash_insert_eq value node_new hlegal.1] at hcall
    cases hcall
    refine ⟨fun key' => ?_, ?_, honce⟩
    · have hold := h.contents key'
      unfold found inserted apply
      dsimp only
      rw [update_apply]
      by_cases hnone : found table s key = none
      · have hfree : s.chains.find (hash table.type) table.size (hash table.type (hash_assign node_new key table.type).1) = none := by
          rwa [hash_assign_key]
        rw [if_pos hnone, Chains.find_append hfree, hash_assign_key]
        simp only [hash_eq_iff]
        split
        · rfl
        · exact hold
      · obtain ⟨old, hfound⟩ := Option.ne_none_iff_exists'.mp hnone
        rw [if_neg hnone, Chains.find_modify]
        rw [show s.chains.find _ _ _ = some old from hfound]
        simp only [hash_eq_iff]
        split
        · rfl
        · exact hold
    · unfold inserted
      by_cases hnone : found table s key = none
      · rw [if_pos hnone]
        apply Chains.unique_append h.unique
        rwa [hash_assign_key]
      · dsimp only
        rw [if_neg hnone]
        exact Chains.unique_modify h.unique _
  | delete key holding release =>
    rw [call, hash_delete_eq release hlegal] at hcall
    cases hcall
    refine ⟨fun key' => ?_, Chains.unique_erase h.unique, honce⟩
    have hold := h.contents key'
    unfold found apply
    dsimp only
    rw [update_apply, Chains.find_erase h.unique]
    simp only [hash_eq_iff]
    split
    · rfl
    · exact hold
  | destroy free => exact absurd rfl (hkeep free)

/-- **Run lemma.** -/
theorem inv_run {es : List Event} {s₀ : State} (hrun : Run (Step table) s₀ es s) (h : Inv table map s₀) :
    Inv table (es.foldl (apply table.type) map) s := by
  induction hrun generalizing map with
  | nil s => exact h
  | cons hstep _ ih => exact ih (h.step hstep)

/-! ## Every call -/

theorem returns (hlegal : Legal table s e) :
    ∃ s' node freed, call table s e = .ok (s', node, freed) ∧ s'.lock = keeps e := by
  cases e with
  | lookup key release holding =>
    rw [call, hash_lookup_eq release hlegal]
    exact ⟨_, _, _, rfl, rfl⟩
  | insert key value holding node_new =>
    rw [call, hash_insert_eq value node_new hlegal.1]
    exact ⟨_, _, _, rfl, rfl⟩
  | delete key holding release =>
    rw [call, hash_delete_eq release hlegal]
    exact ⟨_, _, _, rfl, rfl⟩
  | destroy free =>
    rw [call, hash_destroy_eq free hlegal]
    exact ⟨_, _, _, rfl, hlegal⟩

theorem destroy_freed (hlegal : s.lock = false) {free : Bool} {node : Option hash_node} {freed : List Nat}
    (hcall : call table s (.destroy free) = .ok (s', node, freed)) :
    (freed : Multiset Nat) = held table s + if free then {table.addr} else 0 := by
  rw [call, hash_destroy_eq free hlegal] at hcall
  cases hcall
  rw [← Multiset.coe_add, coe_held]
  cases free <;> rfl

theorem Inv.meets (h : Inv table map s) (hlegal : Legal table s e) : Meets table map s e ↔ e ≠ .destroy true := by
  obtain ⟨s₁, node₁, freed₁, hcall₁, hlock⟩ := returns hlegal
  constructor
  · rintro hmeets rfl
    have hfreed := destroy_freed hlegal hcall₁
    rw [hmeets.destroyed s₁ node₁ freed₁ true rfl hcall₁, if_pos rfl, if_pos rfl, blocks] at hfreed
    have hcard := congrArg Multiset.card (Multiset.add_right_inj.mp hfreed)
    rw [Multiset.insert_eq_cons, Multiset.card_cons, Multiset.card_singleton, Multiset.card_singleton] at hcard
    exact absurd hcard (by decide)
  · intro hne
    refine ⟨⟨s₁, node₁, freed₁, hcall₁⟩, ?_, ?_, h.once, ?_, ?_⟩
    · intro s' node freed hcall
      rw [hcall₁] at hcall
      cases hcall
      exact hlock
    · rintro s' node freed key release holding rfl hcall
      rw [call, hash_lookup_eq release hlegal] at hcall
      cases hcall
      refine ⟨h.contents key, fun n hn => ?_⟩
      exact hash_eq_iff.mp (Chains.hash_of_find hn)
    · intro s' node freed hkeep hcall
      exact h.ledger hlegal hkeep hcall
    · rintro s' node freed free rfl hcall
      cases free with
      | false =>
        rw [destroy_freed hlegal hcall]
        exact Multiset.add_zero _
      | true => exact absurd rfl hne

end Refinement

/-- **The hash table is a finite map.** Whatever calls a table has seen, the chain of every key is one of the table's, and
a call does all that is asked of it if and only if it is not `hash_destroy` with `free`. -/
theorem hash_table_iff (table : hash_table) (es : List Event) (s : State) (hrun : Run (Step table) init es s) (e : Event)
    (hlegal : Legal table s e) :
    (∀ key holding s' entry, hash_get_entry table s key holding = .ok (s', entry) → entry < table.size) ∧
    (Meets table (contents table.type es) s e ↔ e ≠ .destroy true) := by
  refine ⟨?_, (inv_run hrun inv_init).meets hlegal⟩
  intro key holding s' entry h
  rw [entry_eq h]
  exact Nat.mod_lt _ table.size_pos

/-- A table of `ipc_hashtable_init`, with its blocks at some pages. -/
def key_ht : hash_table := ⟨.IPC_IDX_MAP, 40, 0x82801000, 0x82800000, by decide, by decide⟩

/-- The key `-1`. -/
def minus_one : Key := ⟨-1, 0, []⟩

/-- A negative key is found again. -/
theorem hash_table_negative_key : ∃ s, Run (Step key_ht) init [.insert minus_one 7 false (minus_one, ⟨0x82802000, 0⟩)] s ∧
    Meets key_ht (contents .IPC_IDX_MAP [.insert minus_one 7 false (minus_one, ⟨0x82802000, 0⟩)]) s
      (.lookup minus_one true false) := by
  have hstep : Step key_ht init (.insert minus_one 7 false (minus_one, ⟨0x82802000, 0⟩))
      ⟨false, inserted key_ht init minus_one 7 (minus_one, ⟨0x82802000, 0⟩)⟩ := by
    refine ⟨⟨rfl, ?_, fun howns => absurd howns (by decide)⟩, fun free => Event.noConfusion, none, [], ?_⟩
    · rw [blocks_init]
      decide
    · rw [call, hash_insert_eq 7 _ (show false = init.lock from rfl)]
      rfl
  have hrun := Run.cons hstep (.nil _)
  exact ⟨_, hrun, (hash_table_iff key_ht _ _ hrun (.lookup minus_one true false) rfl).2.mpr Event.noConfusion⟩

/-- `hash_destroy` frees the table and keeps the bucket array. -/
theorem bucket_array_kept : ¬ Meets key_ht (contents .IPC_IDX_MAP []) init (.destroy true) ∧
    call key_ht init (.destroy true) = .ok (init, none, [key_ht.addr]) := by
  have hlegal : Legal key_ht init (.destroy true) := rfl
  refine ⟨fun h => (inv_init.meets hlegal).mp h rfl, ?_⟩
  rw [call, hash_destroy_eq true rfl]
  rfl

end LostWakeup.Lib.HashTable
