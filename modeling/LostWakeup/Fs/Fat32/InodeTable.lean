/-
# LostWakeup.Fs.Fat32.InodeTable — `fat32_inode_get`, `_dup`, `_put`, `_trunc` of `fat32_inode.c`: the slots of the inode table.

`fat32_inode_get` scans the `NINODE` slots in order: it truncates every slot whose file was unlinked and gives it up,
takes a further reference to the slot of the file it looks for, and otherwise fills the first slot with no references
that is not dirty; with none left it panics.  `fat32_inode_put` does not drop the reference.
`inode_slot_accounting` says how long the counts tell the holders apart and the panic stays out of reach.

The page tree and the name table of an inode appear as flags; the root's inode is `none` here.
-/
import Mathlib.Data.List.TakeWhile
import Mathlib.Data.Set.Card
import Mathlib.Data.Fintype.Card
import LostWakeup.Library.Run

namespace LostWakeup.Fs.Fat32

open Library
open Function (update update_of_ne update_self)

/-! ## The table -/

def NINODE : Nat := 200

/-- An inode pointer: the root, or a slot of the table. -/
abbrev Ip := Option (Fin NINODE)

/-- What `fat32_inode_get` compares: `i_dev`, `parent`, `parent_off` and `fname`. -/
structure Key where
  dev : UInt32
  dp : Ip
  parentoff : UInt32
  name : List UInt8
  deriving DecidableEq

/-- `struct inode`; `clusters` is its chain, `data` what a read of the whole file returns, `dirty` whether it is on
`s_dirty`. -/
structure Inode where
  ref : Nat
  valid : Bool
  i_nlink : Nat
  key : Key
  dirty : Bool
  i_hash : Bool
  i_mapping : Bool
  clusters : List Nat
  data : List UInt8

/-- `inode_table` with the root's inode, and the bitmap of the clusters in use. -/
structure Itable where
  inode : Ip → Inode
  inUse : Nat → Bool

/-- A slot of a zeroed table. -/
def Inode.zero : Inode where
  ref := 0
  valid := false
  i_nlink := 0
  key := { dev := 0, dp := none, parentoff := 0, name := [] }
  dirty := false
  i_hash := false
  i_mapping := false
  clusters := []
  data := []

namespace Itable

/-- The slot's file was unlinked and the slot is still taken. -/
def Unlinked (t : Itable) (i : Fin NINODE) : Prop := 0 < (t.inode i).ref ∧ (t.inode i).i_nlink = 0

instance (t : Itable) (i : Fin NINODE) : Decidable (t.Unlinked i) := inferInstanceAs (Decidable (_ ∧ _))

/-- The slot holds the file with key `k`. -/
def Matches (t : Itable) (k : Key) (i : Fin NINODE) : Prop :=
  0 < (t.inode i).ref ∧ (t.inode i).key = k ∧ (t.inode i).i_nlink ≠ 0

instance (t : Itable) (k : Key) (i : Fin NINODE) : Decidable (t.Matches k i) :=
  inferInstanceAs (Decidable (_ ∧ _))

/-- `fat32_inode_trunc`: free the clusters and forget the contents. -/
def fat32_inode_trunc (t : Itable) (i : Fin NINODE) : Itable where
  inUse := (t.inode i).clusters.foldl (fun inUse c => update inUse c false) t.inUse
  inode := update t.inode i
    { t.inode i with
      clusters := []
      data := []
      key := { (t.inode i).key with parentoff := 0xFFFFFFFF }
      i_hash := false }

/-- `ip->ref = ref`. -/
def setRef (t : Itable) (ip : Ip) (ref : Nat) : Itable :=
  { t with inode := update t.inode ip { t.inode ip with ref := ref } }

/-- What the loop of `fat32_inode_get` does first with a slot: an unlinked file is truncated and its slot
given up. -/
def reclaim (t : Itable) (i : Fin NINODE) : Itable :=
  if t.Unlinked i then (t.fat32_inode_trunc i).setRef i 0 else t

/-- The loop of `fat32_inode_get` over the slots still ahead: the slot it stops at with a hit, or the
first slot it could recycle. -/
def scan (k : Key) (t : Itable) (empty : Option (Fin NINODE)) :
    List (Fin NINODE) → Itable × (Fin NINODE ⊕ Option (Fin NINODE))
  | [] => (t, .inr empty)
  | i :: slots =>
    let t := t.reclaim i
    if t.Matches k i then
      (t.setRef i ((t.inode i).ref + 1), .inl i)
    else if (t.inode i).dirty then
      scan k t empty slots
    else
      scan k t (if empty = none ∧ (t.inode i).ref = 0 then some i else empty) slots

/-- A slot filled for key `k`; its callers set `parent` as soon as they have it. -/
def fill (t : Itable) (k : Key) (i : Fin NINODE) : Itable :=
  { t with
    inode := update t.inode i
      { t.inode i with
        ref := 1
        valid := false
        key := k
        i_hash := false
        i_mapping := false
        i_nlink := 1 } }

/-- `fat32_inode_get`; `none` is `panic("fat32_inode_get: no space")`. -/
def fat32_inode_get (t : Itable) (k : Key) : Option (Itable × Fin NINODE) :=
  match t.scan k none (List.finRange NINODE) with
  | (t, .inl i) => some (t, i)
  | (t, .inr (some i)) => some (t.fill k i, i)
  | (_, .inr none) => none

def fat32_inode_dup (t : Itable) (ip : Ip) : Itable := t.setRef ip ((t.inode ip).ref + 1)

/-- `fat32_inode_put`: an unlinked inode loses its name table and, written back, its page tree. -/
def fat32_inode_put (t : Itable) (ip : Ip) : Itable :=
  if (t.inode ip).valid ∧ (t.inode ip).i_nlink = 0 then
    { t with inode := update t.inode ip { t.inode ip with i_hash := false, i_mapping := false } }
  else t

end Itable

/-- `inode_table_init` and `fat32_root_inode_init`, on a volume with the clusters `inUse` in use. -/
def inode_table_init (inUse : Nat → Bool) : Itable where
  inode := fun
    | some _ => .zero
    | none => { Inode.zero with valid := true, i_nlink := 1 }
  inUse := inUse

/-! ## What a scan does -/

namespace Itable

variable {t t' : Itable} {k : Key} {i j : Fin NINODE} {ip : Ip} {slots : List (Fin NINODE)} {c : Nat}

theorem setRef_self (t : Itable) (ip : Ip) (n : Nat) :
    (t.setRef ip n).inode ip = { t.inode ip with ref := n } :=
  update_self ..

theorem setRef_ne (t : Itable) (n : Nat) {jp : Ip} (h : jp ≠ ip) : (t.setRef ip n).inode jp = t.inode jp :=
  update_of_ne h ..

theorem fill_self (t : Itable) (k : Key) (i : Fin NINODE) :
    (t.fill k i).inode i
      = { t.inode i with
          ref := 1
          valid := false
          key := k
          i_hash := false
          i_mapping := false
          i_nlink := 1 } :=
  update_self ..

theorem fill_ne (t : Itable) (k : Key) (h : ip ≠ some i) : (t.fill k i).inode ip = t.inode ip :=
  update_of_ne h ..

theorem foldl_clear (clusters : List Nat) (inUse : Nat → Bool) (c : Nat) :
    clusters.foldl (fun inUse c => update inUse c false) inUse c
      = (inUse c && decide (c ∉ clusters)) := by
  induction clusters generalizing inUse with
  | nil => simp
  | cons d clusters ih =>
    rw [List.foldl_cons, ih]
    by_cases hc : c = d
    · subst hc
      simp
    · simp [hc]

theorem setRef_inUse (t : Itable) (ip : Ip) (n : Nat) : (t.setRef ip n).inUse = t.inUse := rfl

theorem trunc_self (t : Itable) (i : Fin NINODE) :
    (t.fat32_inode_trunc i).inode i
      = { t.inode i with
          clusters := []
          data := []
          key := { (t.inode i).key with parentoff := 0xFFFFFFFF }
          i_hash := false } :=
  update_self ..

theorem trunc_inUse (t : Itable) (i : Fin NINODE) (c : Nat) :
    (t.fat32_inode_trunc i).inUse c = (t.inUse c && decide (c ∉ (t.inode i).clusters)) :=
  foldl_clear ..

theorem reclaim_of_not (h : ¬t.Unlinked i) : t.reclaim i = t := if_neg h

theorem reclaim_ne (t : Itable) (h : ip ≠ some i) : (t.reclaim i).inode ip = t.inode ip := by
  unfold reclaim
  split
  · rw [setRef_ne _ _ h]
    exact update_of_ne h ..
  · rfl

theorem reclaim_ref (h : t.Unlinked i) : ((t.reclaim i).inode i).ref = 0 := by
  rw [reclaim, if_pos h, setRef_self]

theorem reclaim_inUse (t : Itable) (i : Fin NINODE) (c : Nat) :
    (t.reclaim i).inUse c = (t.inUse c && decide (t.Unlinked i → c ∉ (t.inode i).clusters)) := by
  unfold reclaim
  split
  · next h =>
    rw [setRef_inUse, trunc_inUse]
    simp [h]
  · next h => simp [h]

theorem unlinked_reclaim : (t.reclaim i).Unlinked j ↔ j ≠ i ∧ t.Unlinked j := by
  by_cases hj : j = i
  · subst hj
    simp only [ne_eq, not_true_eq_false, false_and, iff_false]
    by_cases hu : t.Unlinked j
    · intro h
      rw [Unlinked, reclaim_ref hu] at h
      exact lt_irrefl 0 h.1
    · rw [reclaim_of_not hu]
      exact hu
  · have hip : (some j : Ip) ≠ some i := fun h => hj (Option.some.inj h)
    simp [Unlinked, reclaim_ne t hip, hj]

theorem matches_reclaim : (t.reclaim i).Matches k j ↔ t.Matches k j := by
  by_cases hj : j = i
  · subst hj
    by_cases hu : t.Unlinked j
    · constructor
      · intro h
        rw [Matches, reclaim_ref hu] at h
        exact absurd h.1 (lt_irrefl 0)
      · intro h
        exact absurd hu.2 h.2.2
    · rw [reclaim_of_not hu]
  · have hip : (some j : Ip) ≠ some i := fun h => hj (Option.some.inj h)
    simp only [Matches, reclaim_ne t hip]

/-- Reclaim every slot of a list. -/
def sweep (t : Itable) (slots : List (Fin NINODE)) : Itable := slots.foldl reclaim t

theorem sweep_not_mem (h : ∀ i ∈ slots, ip ≠ some i) : (t.sweep slots).inode ip = t.inode ip := by
  induction slots generalizing t with
  | nil => rfl
  | cons i slots ih =>
    have htail : (t.sweep (i :: slots)).inode ip = (t.reclaim i).inode ip :=
      ih fun j hj => h j (List.mem_cons_of_mem _ hj)
    rw [htail, reclaim_ne t (h i List.mem_cons_self)]

theorem sweep_of_linked (h : ¬t.Unlinked i) (slots : List (Fin NINODE)) :
    (t.sweep slots).inode i = t.inode i := by
  induction slots generalizing t with
  | nil => rfl
  | cons j slots ih =>
    have hnot : ¬(t.reclaim j).Unlinked i := fun hu => h (unlinked_reclaim.mp hu).2
    have htail : (t.sweep (j :: slots)).inode i = (t.reclaim j).inode i := ih hnot
    rw [htail]
    by_cases hij : i = j
    · rw [← hij, reclaim_of_not h]
    · exact reclaim_ne t fun heq => hij (Option.some.inj heq)

theorem sweep_ref (hi : i ∈ slots) (hu : t.Unlinked i) : ((t.sweep slots).inode i).ref = 0 := by
  induction slots generalizing t with
  | nil => cases hi
  | cons j slots ih =>
    show (((t.reclaim j).sweep slots).inode i).ref = 0
    by_cases hij : i = j
    · subst hij
      have hnot : ¬(t.reclaim i).Unlinked i := fun h => (unlinked_reclaim.mp h).1 rfl
      rw [sweep_of_linked hnot, reclaim_ref hu]
    · have hmem : i ∈ slots := (List.mem_cons.mp hi).resolve_left hij
      exact ih hmem (unlinked_reclaim.mpr ⟨hij, hu⟩)

theorem sweep_inUse (t : Itable) (slots : List (Fin NINODE)) (c : Nat) :
    (t.sweep slots).inUse c = true ↔
      t.inUse c = true ∧ ∀ i ∈ slots, t.Unlinked i → c ∉ (t.inode i).clusters := by
  induction slots generalizing t with
  | nil => simp [sweep]
  | cons i slots ih =>
    show ((t.reclaim i).sweep slots).inUse c = true ↔ _
    rw [ih, reclaim_inUse, Bool.and_eq_true, decide_eq_true_eq, List.forall_mem_cons, and_assoc]
    apply and_congr_right
    intro _
    apply and_congr_right
    intro hc
    apply forall₂_congr
    intro j _
    rw [unlinked_reclaim]
    by_cases hj : j = i
    · subst hj
      simpa using hc
    · have hip : (some j : Ip) ≠ some i := fun h => hj (Option.some.inj h)
      rw [reclaim_ne t hip]
      simp [hj]

/-- The slots a scan gets to before it finds `k`. -/
def scanned (t : Itable) (k : Key) : List (Fin NINODE) :=
  (List.finRange NINODE).takeWhile fun i => ¬t.Matches k i

/-- A slot with no references and nothing to write back. -/
def Recyclable (t : Itable) (i : Fin NINODE) : Prop := (t.inode i).ref = 0 ∧ (t.inode i).dirty = false

instance (t : Itable) (i : Fin NINODE) : Decidable (t.Recyclable i) := inferInstanceAs (Decidable (_ ∧ _))

theorem scan_hit {before after : List (Fin NINODE)} (empty : Option (Fin NINODE))
    (hbefore : ∀ j ∈ before, ¬t.Matches k j) (hi : t.Matches k i) :
    scan k t empty (before ++ i :: after)
      = ((t.sweep before).setRef i (((t.sweep before).inode i).ref + 1), .inl i) := by
  induction before generalizing t empty with
  | nil =>
    have hlinked : ¬t.Unlinked i := fun h => hi.2.2 h.2
    rw [List.nil_append, scan]
    simp only [reclaim_of_not hlinked]
    rw [if_pos hi]
    rfl
  | cons j before ih =>
    have hj : ¬(t.reclaim j).Matches k j := fun h => hbefore j List.mem_cons_self (matches_reclaim.mp h)
    have htail : ∀ x ∈ before, ¬(t.reclaim j).Matches k x := fun x hx h =>
      hbefore x (List.mem_cons_of_mem _ hx) (matches_reclaim.mp h)
    rw [List.cons_append, scan]
    simp only [if_neg hj]
    split
    · exact ih empty htail (matches_reclaim.mpr hi)
    · exact ih _ htail (matches_reclaim.mpr hi)

theorem scan_miss (empty : Option (Fin NINODE)) (hslots : ∀ j ∈ slots, ¬t.Matches k j) (hnd : slots.Nodup) :
    scan k t empty slots
      = (t.sweep slots, .inr (empty.or (slots.find? fun i => (t.sweep slots).Recyclable i))) := by
  induction slots generalizing t empty with
  | nil => simp [scan, sweep]
  | cons i slots ih =>
    obtain ⟨hi, hnd⟩ := List.nodup_cons.mp hnd
    have hmiss : ¬(t.reclaim i).Matches k i := fun h => hslots i List.mem_cons_self (matches_reclaim.mp h)
    have htail : ∀ x ∈ slots, ¬(t.reclaim i).Matches k x := fun x hx h =>
      hslots x (List.mem_cons_of_mem _ hx) (matches_reclaim.mp h)
    have hsame : ((t.reclaim i).sweep slots).inode i = (t.reclaim i).inode i :=
      sweep_not_mem fun j hj heq => hi (Option.some.inj heq ▸ hj)
    have hswept : t.sweep (i :: slots) = (t.reclaim i).sweep slots := rfl
    rw [scan, hswept]
    simp only [if_neg hmiss]
    rw [List.find?_cons]
    simp only [Recyclable, hsame]
    split
    · next hd =>
      rw [ih empty htail hnd]
      simp [hd, Recyclable]
    · next hd =>
      rw [ih _ htail hnd]
      by_cases href : ((t.reclaim i).inode i).ref = 0
      · cases empty with
        | none => simp [href, hd]
        | some e => simp [Recyclable]
      · simp [href, Recyclable]

/-- The slot that holds the file with key `k`. -/
def slotOf (t : Itable) (k : Key) : Option (Fin NINODE) :=
  (List.finRange NINODE).find? fun i => t.Matches k i

theorem slotOf_matches (h : t.slotOf k = some i) : t.Matches k i := by simpa using List.find?_some h

theorem slotOf_eq_none : t.slotOf k = none ↔ ∀ i, ¬t.Matches k i := by
  rw [slotOf, List.find?_eq_none]
  simp

theorem get_hit (h : t.slotOf k = some i) :
    t.fat32_inode_get k = some ((t.sweep (t.scanned k)).setRef i ((t.inode i).ref + 1), i) := by
  have hi := slotOf_matches h
  have hlinked : ¬t.Unlinked i := fun hu => hi.2.2 hu.2
  obtain ⟨-, before, after, hsplit, hskip⟩ := List.find?_eq_some_iff_append.mp h
  have hbefore : ∀ j ∈ before, ¬t.Matches k j := fun j hj => by simpa using hskip j hj
  have hscanned : t.scanned k = before := by
    rw [scanned, hsplit, List.takeWhile_append_of_pos, List.takeWhile_cons_of_neg, List.append_nil]
    · simpa using hi
    · exact fun j hj => by simpa using hbefore j hj
  rw [fat32_inode_get, hsplit, scan_hit none hbefore hi, hscanned, sweep_of_linked hlinked]

theorem get_miss (h : t.slotOf k = none) :
    t.fat32_inode_get k
      = ((List.finRange NINODE).find? fun i => (t.sweep (t.scanned k)).Recyclable i).map
          fun i => ((t.sweep (t.scanned k)).fill k i, i) := by
  have hno := slotOf_eq_none.mp h
  have hall : t.scanned k = List.finRange NINODE := by
    apply List.takeWhile_eq_self_iff.mpr
    intro i _
    simpa using hno i
  rw [fat32_inode_get, scan_miss none (fun i _ => hno i) (List.nodup_finRange NINODE), hall, Option.none_or]
  cases (List.finRange NINODE).find? fun i => (t.sweep (List.finRange NINODE)).Recyclable i with
  | none => rfl
  | some i => rfl

theorem get_cases (h : t.fat32_inode_get k = some (t', i)) :
    (t.Matches k i ∧ t' = (t.sweep (t.scanned k)).setRef i ((t.inode i).ref + 1)) ∨
      ((∀ j, ¬t.Matches k j) ∧ (t.sweep (t.scanned k)).Recyclable i ∧
        t' = (t.sweep (t.scanned k)).fill k i) := by
  cases hslot : t.slotOf k with
  | some j =>
    left
    rw [get_hit hslot] at h
    cases h
    exact ⟨slotOf_matches hslot, rfl⟩
  | none =>
    right
    rw [get_miss hslot] at h
    obtain ⟨j, hj, heq⟩ := Option.map_eq_some_iff.mp h
    cases heq
    exact ⟨slotOf_eq_none.mp hslot, by simpa using List.find?_some hj, rfl⟩

theorem get_eq_none_iff :
    t.fat32_inode_get k = none ↔ (∀ j, ¬t.Matches k j) ∧ ∀ i, ¬(t.sweep (t.scanned k)).Recyclable i := by
  rw [← slotOf_eq_none]
  cases hslot : t.slotOf k with
  | some j => simp [get_hit hslot]
  | none =>
    rw [get_miss hslot, Option.map_eq_none_iff, List.find?_eq_none]
    simp

theorem sweep_eq_self (h : ∀ i, ¬t.Unlinked i) (slots : List (Fin NINODE)) : t.sweep slots = t := by
  induction slots with
  | nil => rfl
  | cons i slots ih =>
    show (t.reclaim i).sweep slots = t
    rw [reclaim_of_not (h i), ih]

end Itable

/-! ## The holders of the inodes -/

/-- The table, and for each inode how many have obtained it from `fat32_inode_get` or `fat32_inode_dup`
and not yet put it. -/
structure Held where
  table : Itable
  holders : Ip → Nat

inductive HoldEvent
  | get (k : Key)
  | dup (ip : Ip)
  | put (ip : Ip)
  /-- A holder loads the inode from the disk. -/
  | load (ip : Ip)
  /-- A holder writes to the inode. -/
  | write (ip : Ip)
  /-- The inode's pages reach the disk. -/
  | writeback (ip : Ip)

namespace Held

/-- Change one inode. -/
def modify (s : Held) (ip : Ip) (f : Inode → Inode) : Held :=
  { s with table := { s.table with inode := update s.table.inode ip (f (s.table.inode ip)) } }

/-- One event; `none` for the panic of `fat32_inode_get`, and where nobody could do it. -/
def next (s : Held) : HoldEvent → Option Held
  | .get k =>
      (s.table.fat32_inode_get k).map fun r =>
        ⟨r.1, update s.holders r.2 (s.holders r.2 + 1)⟩
  | .dup ip =>
      if ip = none ∨ 0 < (s.table.inode ip).ref then
        some ⟨s.table.fat32_inode_dup ip, update s.holders ip (s.holders ip + 1)⟩
      else none
  | .put ip =>
      if 0 < s.holders ip then
        some ⟨s.table.fat32_inode_put ip, update s.holders ip (s.holders ip - 1)⟩
      else none
  | .load ip =>
      if 0 < s.holders ip then some (s.modify ip fun inode => { inode with valid := true }) else none
  | .write ip =>
      if 0 < s.holders ip then some (s.modify ip fun inode => { inode with dirty := true }) else none
  | .writeback ip => some (s.modify ip fun inode => { inode with dirty := false })

/-- The inodes of the table that somebody holds. -/
def held (s : Held) : Set (Fin NINODE) := {i | 0 < s.holders i}

/-- After a `fat32_inode_get` of `k` at most `NINODE - 1` distinct inodes are held. -/
def RoomFor (s : Held) (k : Key) : Prop :=
  (∃ i ∈ s.held, s.table.Matches k i) ∨ s.held.encard + 1 < NINODE

/-- The reference counts count the holders, and the panic is out of reach. -/
def Accounted (s : Held) : Prop :=
  (∀ ip, (s.table.inode ip).ref = s.holders ip) ∧
    ∀ k, s.RoomFor k → s.table.fat32_inode_get k ≠ none

end Held

def HoldStep (s : Held) (e : HoldEvent) (s' : Held) : Prop := s.next e = some s'

/-- The events that leave at most `NINODE - 1` distinct inodes held. -/
def FewHeld (s : Held) : HoldEvent → Prop
  | .get k => s.RoomFor k
  | .dup (some i) => i ∈ s.held ∨ s.held.encard + 1 < NINODE
  | _ => True

/-- The table at the start, with nobody holding anything. -/
def hold_init (inUse : Nat → Bool) : Held := ⟨inode_table_init inUse, fun _ => 0⟩

namespace Held

variable {s s' : Held} {ip : Ip} {i : Fin NINODE} {k : Key} {f : Inode → Inode}

/-- What runs without a put keep. -/
structure Inv (s : Held) : Prop where
  ref : ∀ ip, (s.table.inode ip).ref = s.holders ip
  linked : ∀ i, ¬s.table.Unlinked i
  dirty : ∀ i : Fin NINODE, (s.table.inode i).dirty = true → 0 < (s.table.inode i).ref

theorem inv_init (inUse : Nat → Bool) : (hold_init inUse).Inv where
  ref := fun ip => by cases ip <;> rfl
  linked := fun i h => absurd h.1 (lt_irrefl 0)
  dirty := fun i h => by cases h

theorem Inv.accounted (h : s.Inv) : s.Accounted := by
  refine ⟨h.ref, fun k hroom hnone => ?_⟩
  obtain ⟨hno, hfull⟩ := Itable.get_eq_none_iff.mp hnone
  rw [Itable.sweep_eq_self h.linked] at hfull
  obtain ⟨i, -, hi⟩ | hfew := hroom
  · exact hno i hi
  · -- every slot is held, which is one too many
    have hall : s.held = Set.univ := by
      apply Set.eq_univ_of_forall
      intro i
      show 0 < s.holders i
      rw [← h.ref]
      by_contra hzero
      apply hfull i
      refine ⟨by omega, ?_⟩
      rw [Bool.eq_false_iff]
      exact fun hd => hzero (h.dirty i hd)
    rw [hall, Set.encard_univ, ENat.card_eq_coe_fintype_card, Fintype.card_fin] at hfew
    exact absurd hfew (not_lt.mpr le_self_add)

theorem modify_ne (s : Held) (f : Inode → Inode) {jp : Ip} (h : jp ≠ ip) :
    (s.modify ip f).table.inode jp = s.table.inode jp :=
  update_of_ne h ..

theorem modify_self (s : Held) (ip : Ip) (f : Inode → Inode) :
    (s.modify ip f).table.inode ip = f (s.table.inode ip) :=
  update_self ..

/-- A change of one inode that leaves its references and its link count. -/
theorem Inv.modify (h : s.Inv) (href : (f (s.table.inode ip)).ref = (s.table.inode ip).ref)
    (hlink : (f (s.table.inode ip)).i_nlink = (s.table.inode ip).i_nlink)
    (hdirty : (f (s.table.inode ip)).dirty = true → (s.table.inode ip).dirty = true ∨ 0 < s.holders ip) :
    (s.modify ip f).Inv := by
  refine ⟨fun jp => ?_, fun i hu => ?_, fun i hd => ?_⟩
  · show _ = s.holders jp
    rw [← h.ref]
    by_cases hjp : jp = ip
    · rw [hjp, modify_self, href]
    · rw [modify_ne s f hjp]
  · apply h.linked i
    by_cases hi : (i : Ip) = ip
    · rw [Itable.Unlinked, hi, modify_self, href, hlink] at hu
      rw [Itable.Unlinked, hi]
      exact hu
    · rw [Itable.Unlinked, modify_ne s f hi] at hu
      exact hu
  · by_cases hi : (i : Ip) = ip
    · subst hi
      rw [modify_self] at hd ⊢
      rw [href]
      obtain hold | hpos := hdirty hd
      · exact h.dirty i hold
      · rw [h.ref]
        exact hpos
    · rw [modify_ne s f hi] at hd ⊢
      exact h.dirty i hd

/-- One more reference for one more holder. -/
theorem Inv.retain (h : s.Inv) (hip : ip = none ∨ 0 < (s.table.inode ip).ref) :
    (⟨s.table.setRef ip ((s.table.inode ip).ref + 1), update s.holders ip (s.holders ip + 1)⟩ :
      Held).Inv := by
  refine ⟨fun jp => ?_, fun i hu => ?_, fun i hd => ?_⟩
  · show ((s.table.setRef ip _).inode jp).ref = update s.holders ip _ jp
    by_cases hjp : jp = ip
    · rw [hjp, Itable.setRef_self, update_self, h.ref]
    · rw [Itable.setRef_ne _ _ hjp, update_of_ne hjp, h.ref]
  · by_cases hi : (i : Ip) = ip
    · subst hi
      have hpos := hip.resolve_left (Option.some_ne_none i)
      apply h.linked i
      refine ⟨hpos, ?_⟩
      have hzero := hu.2
      rw [Itable.setRef_self] at hzero
      exact hzero
    · apply h.linked i
      rw [Itable.Unlinked, Itable.setRef_ne _ _ hi] at hu
      exact hu
  · by_cases hi : (i : Ip) = ip
    · rw [hi, Itable.setRef_self]
      exact Nat.succ_pos _
    · rw [Itable.setRef_ne _ _ hi] at hd ⊢
      exact h.dirty i hd

/-- A slot nobody refers to is filled for its first holder. -/
theorem Inv.fill (h : s.Inv) (hfree : s.table.Recyclable i) (k : Key) :
    (⟨s.table.fill k i, update s.holders i (s.holders i + 1)⟩ : Held).Inv := by
  have hzero : s.holders i = 0 := by rw [← h.ref, hfree.1]
  refine ⟨fun jp => ?_, fun j hu => ?_, fun j hd => ?_⟩
  · show ((s.table.fill k i).inode jp).ref = update s.holders i _ jp
    by_cases hjp : jp = some i
    · rw [hjp, Itable.fill_self, update_self, hzero]
    · rw [Itable.fill_ne _ k hjp, update_of_ne hjp, h.ref]
  · by_cases hj : (j : Ip) = some i
    · rw [Itable.Unlinked, hj, Itable.fill_self] at hu
      exact absurd hu.2 one_ne_zero
    · apply h.linked j
      rw [Itable.Unlinked, Itable.fill_ne _ k hj] at hu
      exact hu
  · by_cases hj : (j : Ip) = some i
    · rw [hj, Itable.fill_self]
      exact Nat.one_pos
    · rw [Itable.fill_ne _ k hj] at hd ⊢
      exact h.dirty j hd

/-- Every event but a put keeps the invariant. -/
theorem Inv.step {e : HoldEvent} (h : s.Inv) (hput : ∀ ip, e ≠ .put ip) (hstep : HoldStep s e s') : s'.Inv := by
  unfold HoldStep next at hstep
  cases e with
  | get k =>
    obtain ⟨⟨t, i⟩, hget, rfl⟩ := Option.map_eq_some_iff.mp hstep
    obtain ⟨hmatch, rfl⟩ | ⟨-, hfree, rfl⟩ := Itable.get_cases hget
    · rw [Itable.sweep_eq_self h.linked]
      exact h.retain (.inr hmatch.1)
    · rw [Itable.sweep_eq_self h.linked] at hfree ⊢
      exact h.fill hfree k
  | dup ip =>
    obtain ⟨hip, heq⟩ := Option.ite_none_right_eq_some.mp hstep
    cases heq
    exact h.retain hip
  | put ip => exact absurd rfl (hput ip)
  | load ip =>
    obtain ⟨-, heq⟩ := Option.ite_none_right_eq_some.mp hstep
    cases heq
    exact h.modify rfl rfl .inl
  | write ip =>
    obtain ⟨hip, heq⟩ := Option.ite_none_right_eq_some.mp hstep
    cases heq
    exact h.modify rfl rfl fun _ => .inr hip
  | writeback ip =>
    cases hstep
    refine h.modify rfl rfl fun hd => ?_
    cases hd

theorem put_ref {t : Itable} {jp : Ip} : ((t.fat32_inode_put ip).inode jp).ref = (t.inode jp).ref := by
  unfold Itable.fat32_inode_put
  split
  · show (update t.inode ip _ jp).ref = (t.inode jp).ref
    by_cases hjp : jp = ip
    · rw [hjp, update_self]
    · rw [update_of_ne hjp]
  · rfl

theorem not_accounted_of_put (h : HoldStep s (.put ip) s') (hs : s.Accounted) : ¬s'.Accounted := by
  intro hs'
  obtain ⟨hpos, heq⟩ := Option.ite_none_right_eq_some.mp h
  cases heq
  have hbefore := hs.1 ip
  have hafter := hs'.1 ip
  simp only [put_ref, update_self] at hafter
  omega

/-- **Inode slot accounting.** In a run that keeps at most `NINODE - 1` distinct inodes held, the
reference counts count the holders and `fat32_inode_get` stays clear of its panic all along if and only
if nothing is ever put. -/
theorem inode_slot_accounting {inUse : Nat → Bool} {es : List HoldEvent} {s : Held}
    (hrun : Run (Guarded HoldStep FewHeld) (hold_init inUse) es s) :
    (∀ es₁ es₂ s₁, es = es₁ ++ es₂ → Run HoldStep (hold_init inUse) es₁ s₁ → s₁.Accounted) ↔
      ∀ ip, .put ip ∉ es := by
  constructor
  · intro hall ip hmem
    obtain ⟨es₁, es₂, rfl⟩ := List.append_of_mem hmem
    obtain ⟨s₁, hbefore, hrest⟩ := (hrun.mono fun _ _ _ h => h.2).split
    cases hrest with
    | @cons _ s₂ _ _ _ hput _ =>
      have hs₁ : s₁.Accounted := hall es₁ _ s₁ rfl hbefore
      have hs₂ : s₂.Accounted := hall (es₁ ++ [.put ip]) es₂ s₂ (by simp) (hbefore.snoc hput)
      exact not_accounted_of_put hput hs₁ hs₂
  · rintro hno es₁ es₂ s₁ rfl hrun₁
    have hguarded : Run (Guarded HoldStep fun _ e => ∀ ip, e ≠ .put ip) (hold_init inUse) es₁ s₁ := by
      apply hrun₁.guard
      rintro e he ip rfl
      exact hno ip (List.mem_append_left _ he)
    have hinv : s₁.Inv := hguarded.invariant (fun _ _ _ h hs => h.step hs.1 hs.2) (inv_init inUse)
    exact hinv.accounted

theorem roomFor_of_free (h : ∀ i : Fin NINODE, s.holders i = 0) (k : Key) : s.RoomFor k := by
  right
  have hnone : s.held = ∅ := by
    ext i
    simp [held, h]
  rw [hnone, Set.encard_empty]
  exact ENat.natCast_lt_natCast.mpr (by decide)

/-- The root is obtained, then a file is looked up in it. -/
theorem inode_slot_accounting_one : ∃ s,
    Run HoldStep (hold_init fun _ => false) [.dup none, .get ⟨1, none, 1, [97]⟩] s ∧ s.Accounted := by
  have hsome : (exec next (hold_init fun _ => false) [.dup none, .get ⟨1, none, 1, [97]⟩]).isSome = true := by
    decide +kernel
  obtain ⟨s, hs⟩ := Option.isSome_iff_exists.mp hsome
  have hrun := run_of_exec next _ _ hs
  have hfew : Run (Guarded HoldStep FewHeld) (hold_init fun _ => false)
      [.dup none, .get ⟨1, none, 1, [97]⟩] s := by
    cases hrun with
    | cons hdup hrest =>
      refine .cons ⟨trivial, hdup⟩ ?_
      cases hdup
      cases hrest with
      | cons hget hnil =>
        cases hnil
        exact .cons ⟨roomFor_of_free (fun _ => rfl) _, hget⟩ (.nil _)
  exact ⟨s, hrun, (inode_slot_accounting hfew).mpr (by simp) _ [] s (by simp) hrun⟩

/-! ## How the table runs out -/

/-- The files `ks` have come and gone: nobody holds anything, and each has kept its slot. -/
structure Spent (ks : List Key) (s : Held) : Prop where
  linked : ∀ i, ¬s.table.Unlinked i
  clean : ∀ ip, (s.table.inode ip).dirty = false
  free : ∀ ip, s.holders ip = 0
  taken : {i : Fin NINODE | 0 < (s.table.inode i).ref}.encard = ks.length
  keys : ∀ i : Fin NINODE, 0 < (s.table.inode i).ref → (s.table.inode i).key ∈ ks

theorem Spent.no_match {ks : List Key} (h : Spent ks s) (hk : k ∉ ks) (i : Fin NINODE) : ¬s.table.Matches k i := by
  rintro ⟨hpos, rfl, -⟩
  exact hk (h.keys i hpos)

/-- One more file is looked up and put. -/
theorem Spent.cons {ks : List Key} (h : Spent ks s) (hk : k ∉ ks) (hlen : ks.length < NINODE) :
    ∃ i s', Run (Guarded HoldStep FewHeld) s [.get k, .put (some i)] s' ∧ Spent (k :: ks) s' := by
  cases hget : s.table.fat32_inode_get k with
  | none =>
    obtain ⟨-, hfull⟩ := Itable.get_eq_none_iff.mp hget
    rw [Itable.sweep_eq_self h.linked] at hfull
    have hall : {i : Fin NINODE | 0 < (s.table.inode i).ref} = Set.univ := by
      apply Set.eq_univ_of_forall
      intro i
      by_contra hzero
      exact hfull i ⟨Nat.eq_zero_of_not_pos hzero, h.clean i⟩
    have hcard := h.taken
    rw [hall, Set.encard_univ, ENat.card_eq_coe_fintype_card, Fintype.card_fin, Nat.cast_inj] at hcard
    omega
  | some r =>
    obtain ⟨t, i⟩ := r
    obtain ⟨hmatch, -⟩ | ⟨-, hfree, rfl⟩ := Itable.get_cases hget
    · exact absurd hmatch (h.no_match hk i)
    rw [Itable.sweep_eq_self h.linked] at hfree hget
    generalize ht : s.table.fill k i = t at hget
    have hself : t.inode i = { s.table.inode i with
        ref := 1
        valid := false
        key := k
        i_hash := false
        i_mapping := false
        i_nlink := 1 } := by rw [← ht, Itable.fill_self]
    have hne : ∀ j, j ≠ i → t.inode (some j) = s.table.inode j := by
      intro j hj
      rw [← ht]
      exact Itable.fill_ne _ k fun heq => hj (Option.some.inj heq)
    have hput : t.fat32_inode_put i = t := by
      rw [Itable.fat32_inode_put, if_neg]
      rw [hself]
      simp
    have hget' : HoldStep s (.get k) ⟨t, update s.holders i (s.holders i + 1)⟩ := by
      show Option.map _ _ = _
      rw [hget]
      rfl
    have hput' : HoldStep ⟨t, update s.holders i (s.holders i + 1)⟩ (.put i) ⟨t, s.holders⟩ := by
      show (if _ then _ else _) = _
      rw [if_pos (by simp), hput]
      simp
    refine ⟨i, ⟨t, s.holders⟩, .cons ⟨roomFor_of_free (fun i => h.free i) k, hget'⟩ (.cons ⟨trivial, hput'⟩ (.nil _)), fun j hu => ?_, fun jp => ?_, h.free, ?_,
      fun j hj => ?_⟩
    · by_cases hj : j = i
      · rw [hj, Itable.Unlinked, hself] at hu
        exact absurd hu.2 one_ne_zero
      · rw [Itable.Unlinked, hne j hj] at hu
        exact h.linked j hu
    · by_cases hj : jp = some i
      · rw [hj]
        show (t.inode i).dirty = false
        rw [hself]
        exact hfree.2
      · show (t.inode jp).dirty = false
        rw [← ht, Itable.fill_ne _ k hj]
        exact h.clean jp
    · have hinsert : {j : Fin NINODE | 0 < (t.inode j).ref}
          = insert i {j : Fin NINODE | 0 < (s.table.inode j).ref} := by
        ext j
        by_cases hj : j = i
        · subst hj
          simp [hself]
        · simp [hne j hj, hj]
      have hnot : i ∉ {j : Fin NINODE | 0 < (s.table.inode j).ref} := by
        intro hpos
        exact absurd hfree.1 (Nat.pos_iff_ne_zero.mp hpos)
      show {j : Fin NINODE | 0 < (t.inode j).ref}.encard = _
      rw [hinsert, Set.encard_insert_of_notMem hnot, h.taken, List.length_cons]
      push_cast
      rfl
    · by_cases hji : j = i
      · subst hji
        show (t.inode j).key ∈ k :: ks
        rw [hself]
        exact List.mem_cons_self
      have hj' : 0 < (t.inode j).ref := hj
      rw [hne j hji] at hj'
      show (t.inode j).key ∈ k :: ks
      rw [hne j hji]
      exact List.mem_cons_of_mem _ (h.keys j hj')

theorem spent_of_keys (inUse : Nat → Bool) {ks : List Key} (hnd : ks.Nodup) (hlen : ks.length ≤ NINODE) :
    ∃ es s, Run (Guarded HoldStep FewHeld) (hold_init inUse) es s ∧ Spent ks s := by
  induction ks with
  | nil =>
    refine ⟨[], hold_init inUse, .nil _, fun i h => absurd h.1 (lt_irrefl 0), fun ip => ?_, fun ip => rfl, ?_,
      fun i h => absurd h (lt_irrefl 0)⟩
    · cases ip <;> rfl
    · simp [hold_init, inode_table_init, Inode.zero]
  | cons k ks ih =>
    obtain ⟨hk, hnd⟩ := List.nodup_cons.mp hnd
    rw [List.length_cons] at hlen
    obtain ⟨es, s, hrun, hspent⟩ := ih hnd (by omega)
    obtain ⟨i, s', hrun', hspent'⟩ := hspent.cons hk (by omega)
    exact ⟨_, s', hrun.append hrun', hspent'⟩

theorem Spent.panics {ks : List Key} (h : Spent ks s) (hlen : ks.length = NINODE) (hk : k ∉ ks) :
    s.table.fat32_inode_get k = none := by
  apply Itable.get_eq_none_iff.mpr
  refine ⟨fun i => h.no_match hk i, fun i hfree => ?_⟩
  rw [Itable.sweep_eq_self h.linked] at hfree
  have hall : {i : Fin NINODE | 0 < (s.table.inode i).ref} = Set.univ := by
    by_contra hne
    have hlt := (Set.toFinite {i : Fin NINODE | 0 < (s.table.inode i).ref}).encard_lt_card hne
    rw [h.taken, hlen, ENat.card_eq_coe_fintype_card, Fintype.card_fin] at hlt
    exact lt_irrefl _ hlt
  have hpos : i ∈ {i : Fin NINODE | 0 < (s.table.inode i).ref} := hall ▸ Set.mem_univ i
  exact absurd hfree.1 (Nat.pos_iff_ne_zero.mp hpos)

/-- Nobody holds anything, and the lookup of one more file panics. -/
theorem nothing_held_no_space : ∃ es s k,
    Run (Guarded HoldStep FewHeld) (hold_init fun _ => false) es s ∧ (∀ ip, s.holders ip = 0) ∧
      s.RoomFor k ∧ s.table.fat32_inode_get k = none := by
  have hinj : Function.Injective fun n => (⟨1, none, 1, List.replicate n 97⟩ : Key) := by
    intro m n h
    simpa using congrArg (fun k => k.name.length) h
  have hnd : ((List.range NINODE).map fun n => (⟨1, none, 1, List.replicate n 97⟩ : Key)).Nodup :=
    List.nodup_range.map hinj
  have hlen : ((List.range NINODE).map fun n => (⟨1, none, 1, List.replicate n 97⟩ : Key)).length = NINODE := by
    simp
  have hother : (⟨1, none, 1, List.replicate NINODE 97⟩ : Key) ∉
      (List.range NINODE).map fun n => (⟨1, none, 1, List.replicate n 97⟩ : Key) := by
    intro hmem
    obtain ⟨n, hn, heq⟩ := List.mem_map.mp hmem
    rw [hinj heq] at hn
    exact absurd (List.mem_range.mp hn) (lt_irrefl _)
  obtain ⟨es, s, hrun, hspent⟩ := spent_of_keys (fun _ => false) hnd hlen.le
  exact ⟨es, s, _, hrun, hspent.free, roomFor_of_free (fun i => hspent.free i) _, hspent.panics hlen hother⟩

end Held

end LostWakeup.Fs.Fat32
