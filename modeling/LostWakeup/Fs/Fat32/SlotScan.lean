/-
# LostWakeup.Fs.Fat32.SlotScan — `fat32_inode_get` in `src/fs/fat32/fat32_inode.c`, one slot at a time.

A call scans the table under `inode_table.lock`, and others may run wherever the lock leaves room: it is dropped while a
slot is truncated whose file was unlinked, and `parent` is set by the caller after the lock is gone.  Until then a
recycled slot keeps the parent of the file that was in it.

A directory is the list of its entries, found at whatever offset.  Renames are left out: they delete the entry of an
inode that stays linked and stays where it was.
-/
import Mathlib.Data.List.FinRange
import Mathlib.Data.Option.Basic
import Mathlib.Logic.Function.Basic
import Mathlib.Tactic.SplitIfs
import LostWakeup.Lib.Hash
import LostWakeup.Library.Run

namespace LostWakeup.Fs.Fat32.OneInode

open Library
open Function (update update_eq_self update_idem update_of_ne update_self)

/-! ## Slots, directories and calls -/

/-- A `struct inode *` that is not `NULL`: the root's inode, or one of `n` slots of the table. -/
abbrev Ip (n : Nat) := Option (Fin n)

abbrev Name := List UInt8

/-- The entries of a directory but `.` and `..`, by the index of the short entry. -/
abbrev Entries := List (UInt32 × Name)

/-- `struct inode`; `i_op` is whether the slot was ever filled, `parent` is `none` where it is `NULL`. -/
structure Inode (n : Nat) where
  ref : Nat
  i_nlink : Nat
  i_op : Bool
  i_dev : UInt32
  parent : Option (Ip n)
  parent_off : UInt32
  fname : Name
  dirty : Bool

/-- What a call of `fat32_inode_get` is given. -/
structure Key (n : Nat) where
  dev : UInt32
  dp : Ip n
  parentoff : UInt32
  name : Name
  deriving DecidableEq

/-- Where a thread is: in `fat32_inode_get` with the slots `slots` still ahead, before the assignment to `parent`,
or back in a caller that holds the directory. -/
inductive Call (n : Nat)
  | idle
  | scan (k : Key n) (empty : Option (Fin n)) (slots : List (Fin n))
  | trunc (k : Key n) (empty : Option (Fin n)) (i : Fin n) (slots : List (Fin n))
  | retake (k : Key n) (empty : Option (Fin n)) (i : Fin n) (slots : List (Fin n))
  | publish (k : Key n) (i : Fin n)
  | got (k : Key n) (i : Fin n)
  deriving DecidableEq

/-- The table, the directories and the threads. -/
structure System (T : Type) (n : Nat) where
  rootdev : UInt32
  slot : Fin n → Inode n
  names : Ip n → Entries
  i_sem : Ip n → Option T
  lock : Option T
  call : T → Call n

inductive Event (T : Type) (n : Nat)
  | ilock (t : T) (ip : Ip n)
  | iunlock (t : T) (ip : Ip n)
  | fat32_inode_alloc (t : T) (dp : Ip n) (off : UInt32) (name : Name)
  | fat32_inode_get (t : T) (dp : Ip n) (off : UInt32) (name : Name)
  | run (t : T) (contents : Entries)
  | leave (t : T)
  | unlink (t : T)
  | fat32_inode_dup (i : Fin n)
  | dirty (i : Fin n) (b : Bool)

/-- A slot of a zeroed table. -/
def Inode.zero {n : Nat} : Inode n where
  ref := 0
  i_nlink := 0
  i_op := false
  i_dev := 0
  parent := none
  parent_off := 0
  fname := []
  dirty := false

def dot : Name := [46]

def dotdot : Name := [46, 46]

namespace Call

variable {n : Nat}

/-- What the call in progress looks for. -/
def key : Call n → Option (Key n)
  | idle => none
  | scan k _ _ => some k
  | trunc k _ _ _ => some k
  | retake k _ _ _ => some k
  | publish k _ => some k
  | got _ _ => none

/-- The slot whose file the call takes apart. -/
def truncating : Call n → Option (Fin n)
  | trunc _ _ i _ => some i
  | retake _ _ i _ => some i
  | _ => none

/-- The slot whose `parent` the call has yet to set, and what it is for. -/
def pending : Call n → Option (Key n × Fin n)
  | publish k i => some (k, i)
  | _ => none

/-- The inode that the caller has found in a directory it holds. -/
def found : Call n → Option (Key n × Fin n)
  | got k i => some (k, i)
  | _ => none

/-- The slots that the call may still come to, or has. -/
def Sees : Call n → Fin n → Prop
  | idle, _ => True
  | scan _ _ slots, j => j ∈ slots
  | trunc _ _ _ slots, j => j ∈ slots
  | retake _ _ _ slots, j => j ∈ slots
  | publish _ i, j => j = i
  | got _ _, _ => True

end Call

namespace System

variable {T : Type} {n : Nat}

/-! ## The steps -/

/-- The entry of directory `dp` at `off`.  A subdirectory starts with its two dot entries. -/
def entry (s : System T n) : Ip n → UInt32 → Option Name
  | none, off => (s.names none).lookup off
  | some p, off => if off = 0 then some dot else if off = 1 then some dotdot else (s.names (some p)).lookup off

def i_dev (s : System T n) : Ip n → UInt32
  | none => s.rootdev
  | some p => (s.slot p).i_dev

/-- The inode's operations are there to be called. -/
def i_op (s : System T n) : Ip n → Bool
  | none => true
  | some p => (s.slot p).i_op

/-- The slot holds a file that is linked. -/
def Live (s : System T n) (i : Fin n) : Prop := 0 < (s.slot i).ref ∧ 0 < (s.slot i).i_nlink

instance instDecidableLive (s : System T n) (i : Fin n) : Decidable (s.Live i) := inferInstanceAs (Decidable (_ ∧ _))

/-- The slot's file was unlinked and the slot is still taken. -/
def Unlinked (s : System T n) (i : Fin n) : Prop := 0 < (s.slot i).ref ∧ (s.slot i).i_nlink = 0

instance instDecidableUnlinked (s : System T n) (i : Fin n) : Decidable (s.Unlinked i) :=
  inferInstanceAs (Decidable (_ ∧ _))

/-- The slot says that its file is the entry of directory `p` at `off`. -/
def At (s : System T n) (i : Fin n) (p : Ip n) (off : UInt32) : Prop :=
  (s.slot i).parent = some p ∧ (s.slot i).parent_off = off

instance instDecidableAt (s : System T n) (i : Fin n) (p : Ip n) (off : UInt32) : Decidable (s.At i p off) :=
  inferInstanceAs (Decidable (_ ∧ _))

/-- The comparison of `fat32_inode_get`. -/
def Matches (s : System T n) (k : Key n) (i : Fin n) : Prop :=
  0 < (s.slot i).ref ∧ (s.slot i).i_dev = k.dev ∧ s.At i k.dp k.parentoff ∧ (s.slot i).i_nlink ≠ 0 ∧
    (s.slot i).fname = k.name

instance instDecidableMatches (s : System T n) (k : Key n) (i : Fin n) : Decidable (s.Matches k i) :=
  inferInstanceAs (Decidable (_ ∧ _))

def setSlot (s : System T n) (i : Fin n) (x : Inode n) : System T n := { s with slot := update s.slot i x }

def setNames (s : System T n) (dp : Ip n) (es : Entries) : System T n :=
  { s with names := update s.names dp es }

def setSem (s : System T n) (ip : Ip n) (t : Option T) : System T n :=
  { s with i_sem := update s.i_sem ip t }

def setLock (s : System T n) (t : Option T) : System T n := { s with lock := t }

/-- A slot recycled for `k`.  `parent` is not touched. -/
def filled (x : Inode n) (k : Key n) : Inode n :=
  { x with
    ref := 1
    i_nlink := 1
    i_op := true
    i_dev := k.dev
    parent_off := k.parentoff
    fname := k.name }

/-- The slot to recycle, one slot further. -/
def remember (s : System T n) (empty : Option (Fin n)) (i : Fin n) : Option (Fin n) :=
  if (s.slot i).dirty then empty
  else if empty = none ∧ (s.slot i).ref = 0 then some i else empty

variable [DecidableEq T]

def setCall (s : System T n) (t : T) (c : Call n) : System T n := { s with call := update s.call t c }

/-- The end of `fat32_inode_get`: slot `e` is recycled. -/
def fill (s : System T n) (t : T) (k : Key n) (e : Fin n) (contents : Entries) : System T n :=
  (((s.setSlot e (filled (s.slot e) k)).setNames (some e) contents).setLock none).setCall t (.publish k e)

/-- A turn of the loop of `fat32_inode_get`, after the check for an unlinked file. -/
def visit (s : System T n) (t : T) (k : Key n) (empty : Option (Fin n)) (i : Fin n) (slots : List (Fin n)) :
    System T n :=
  if s.Matches k i then
    ((s.setSlot i { s.slot i with ref := (s.slot i).ref + 1 }).setLock none).setCall t (.publish k i)
  else s.setCall t (.scan k (s.remember empty i) slots)

/-- The next step of a call.  `contents` is what a slot holds as a directory once it is filled; a panic is no step. -/
def step (s : System T n) (t : T) (contents : Entries) : Option (System T n) :=
  match s.call t with
  | .scan _ none [] => none
  | .scan k (some e) [] =>
    if (s.slot e).dirty then none else some (s.fill t k e contents)
  | .scan k empty (i :: slots) =>
    if s.Unlinked i then
      if s.i_sem (some i) = none then
        some (((s.setSem (some i) (some t)).setLock none).setCall t (.trunc k empty i slots))
      else none
    else some (s.visit t k empty i slots)
  | .trunc k empty i slots =>
    -- `fat32_inode_trunc` and `fat32_inode_unlock`
    some (((s.setSlot i { s.slot i with parent_off := 0xFFFFFFFF }).setSem (some i) none).setCall t
      (.retake k empty i slots))
  | .retake k empty i slots =>
    if s.lock = none then
      some (((s.setSlot i { s.slot i with ref := 0 }).setLock (some t)).visit t k empty i slots)
    else none
  | .publish k i =>
    some ((s.setSlot i { s.slot i with parent := some k.dp }).setCall t
      (if s.i_sem k.dp = some t then .got k i else .idle))
  | .idle => none
  | .got _ _ => none

/-- `__unlink`: delete the entry of the inode that the thread has found, and drop its link. -/
def unlink (s : System T n) (k : Key n) (t : T) (i : Fin n) : System T n :=
  ((s.setNames k.dp ((s.names k.dp).filter fun e => e.1 ≠ (s.slot i).parent_off)).setSlot i
    { s.slot i with i_nlink := (s.slot i).i_nlink - 1 }).setCall t .idle

def next (s : System T n) : Event T n → Option (System T n)
  | .ilock t ip =>
    if s.i_sem ip = none ∧ (s.call t).key = none then some (s.setSem ip (some t)) else none
  | .iunlock t ip =>
    if s.i_sem ip = some t ∧ s.call t = .idle then some (s.setSem ip none) else none
  | .fat32_inode_alloc t dp off name =>
    -- the entry goes where the directory has none
    if s.i_sem dp = some t ∧ s.call t = .idle ∧ s.i_op dp = true ∧ s.entry dp off = none then
      some (s.setNames dp ((off, name) :: s.names dp))
    else none
  | .fat32_inode_get t dp off name =>
    -- a lookup that the directory's table answers has compared the hashes of the names only
    if s.lock = none ∧ s.call t = .idle ∧ s.i_op dp = true ∧
        ∃ own ∈ s.entry dp off, Lib.Hash.hash_str own = Lib.Hash.hash_str name then
      some ((s.setLock (some t)).setCall t (.scan ⟨s.i_dev dp, dp, off, name⟩ none (List.finRange n)))
    else none
  | .run t contents => s.step t contents
  | .leave t =>
    match s.call t with
    | .got _ _ => some (s.setCall t .idle)
    | _ => none
  | .unlink t =>
    match s.call t with
    | .got k i =>
      -- a dot entry is refused, a directory has to be empty, and no link left to drop is a panic
      if k.name ≠ dot ∧ k.name ≠ dotdot ∧ s.i_sem k.dp = some t ∧ s.i_sem (some i) = some t ∧
          s.names (some i) = [] ∧ 0 < (s.slot i).i_nlink then
        some (s.unlink k t i)
      else none
    | _ => none
  | .fat32_inode_dup i =>
    if s.lock = none then some (s.setSlot i { s.slot i with ref := (s.slot i).ref + 1 }) else none
  | .dirty i b => some (s.setSlot i { s.slot i with dirty := b })

end System

def Step {T : Type} [DecidableEq T] {n : Nat} (s : System T n) (e : Event T n) (s' : System T n) : Prop :=
  s.next e = some s'

/-- `inode_table_init` and `fat32_root_inode_init`, on a volume whose root directory has the entries `root`. -/
def inode_table_init (T : Type) (n : Nat) (rootdev : UInt32) (root : Entries) : System T n where
  rootdev := rootdev
  slot := fun _ => .zero
  names := fun
    | none => root
    | some _ => []
  i_sem := fun _ => none
  lock := none
  call := fun _ => .idle

/-! ## What the setters leave alone -/

namespace System

variable {T : Type} {n : Nat} {s s' : System T n} {t t' : T} {c : Call n} {i j : Fin n} {k : Key n} {p : Ip n}
  {off : UInt32}

theorem setSlot_self (s : System T n) (i : Fin n) (x : Inode n) : (s.setSlot i x).slot i = x :=
  update_self ..

theorem setSlot_ne (s : System T n) (x : Inode n) (h : j ≠ i) : (s.setSlot i x).slot j = s.slot j :=
  update_of_ne h ..

variable [DecidableEq T] in
theorem setCall_self (s : System T n) (t : T) (c : Call n) : (s.setCall t c).call t = c :=
  update_self ..

variable [DecidableEq T] in
theorem setCall_ne (s : System T n) (c : Call n) (h : t' ≠ t) : (s.setCall t c).call t' = s.call t' :=
  update_of_ne h ..

theorem live_setSlot_ne (s : System T n) (x : Inode n) (h : j ≠ i) : (s.setSlot i x).Live j ↔ s.Live j := by
  rw [Live, setSlot_ne s x h]
  rfl

theorem at_setSlot_ne (s : System T n) (x : Inode n) (h : j ≠ i) : (s.setSlot i x).At j p off ↔ s.At j p off := by
  rw [At, setSlot_ne s x h]
  rfl

theorem entry_congr (h : s'.names = s.names) (p : Ip n) (off : UInt32) : s'.entry p off = s.entry p off := by
  cases p <;> simp only [entry, h]

variable [DecidableEq T] in
theorem of_setCall {α : Type} (f : Call n → α) (h : f c = f (s.call t)) (t' : T) :
    f ((s.setCall t c).call t') = f (s.call t') := by
  rcases eq_or_ne t' t with rfl | ht
  · rw [setCall_self, h]
  · rw [setCall_ne s c ht]

/-! ### Directories -/

theorem lookup_filter_ne {es : Entries} {o : UInt32} (h : o ≠ off) :
    (es.filter fun e => e.1 ≠ off).lookup o = es.lookup o := by
  induction es with
  | nil => rfl
  | cons e es ih =>
    obtain ⟨a, name⟩ := e
    rcases eq_or_ne a off with rfl | ha
    · have hoa : (o == a) = false := beq_false_of_ne h
      rw [List.filter_cons_of_neg (by simp), List.lookup_cons, hoa]
      exact ih
    · rw [List.filter_cons_of_pos (by simpa using ha), List.lookup_cons, List.lookup_cons, ih]

theorem entry_eq_of_lookup {p' : Ip n} {o : UInt32} (h : (s'.names p').lookup o = (s.names p').lookup o) :
    s'.entry p' o = s.entry p' o := by
  cases p' <;> simp only [entry, h]

theorem names_setNames_self (s : System T n) (p : Ip n) (es : Entries) : (s.setNames p es).names p = es :=
  update_self ..

theorem names_setNames_ne (s : System T n) (es : Entries) {p p' : Ip n} (h : p' ≠ p) :
    (s.setNames p es).names p' = s.names p' :=
  update_of_ne h ..

theorem entry_cons {p' : Ip n} {o : UInt32} {name name' : Name} (hnone : s.entry p off = none)
    (h : s.entry p' o = some name') : (s.setNames p ((off, name) :: s.names p)).entry p' o = some name' := by
  rw [← h]
  apply entry_eq_of_lookup
  rcases eq_or_ne p' p with rfl | hp
  · have ho : o ≠ off := by
      rintro rfl
      rw [hnone] at h
      cases h
    rw [names_setNames_self, List.lookup_cons, beq_false_of_ne ho]
  · rw [names_setNames_ne s _ hp]

theorem entry_erase {p' : Ip n} {o : UInt32} (h : ¬(p' = p ∧ o = off)) :
    (s.setNames p ((s.names p).filter fun e => e.1 ≠ off)).entry p' o = s.entry p' o := by
  apply entry_eq_of_lookup
  rcases eq_or_ne p' p with rfl | hp
  · rw [names_setNames_self, lookup_filter_ne fun ho => h ⟨rfl, ho⟩]
  · rw [names_setNames_ne s _ hp]

theorem entry_fill {p' : Ip n} {o : UInt32} {name : Name} (es : Entries) (hempty : s.names (some i) = [])
    (h : s.entry p' o = some name) : (s.setNames (some i) es).entry p' o = some name := by
  rcases eq_or_ne p' (some i) with rfl | hp
  · simp only [entry, hempty, List.lookup_nil] at h
    simp only [entry]
    split_ifs at h ⊢
    · exact h
    · exact h
  · rw [← h]
    apply entry_eq_of_lookup
    rw [names_setNames_ne s _ hp]

/-! ### Calls that nobody disturbs -/

theorem remember_foldl_some (s : System T n) (i : Fin n) (slots : List (Fin n)) :
    slots.foldl s.remember (some i) = some i := by
  induction slots with
  | nil => rfl
  | cons j slots ih =>
    have hj : s.remember (some i) j = some i := by simp [remember]
    rw [List.foldl_cons, hj, ih]

variable [DecidableEq T]

theorem fill_self (s : System T n) (t : T) (k : Key n) (i : Fin n) (es : Entries) :
    (s.fill t k i es).slot i = filled (s.slot i) k :=
  setSlot_self ..

theorem fill_ne (s : System T n) (t : T) (k : Key n) (es : Entries) (h : j ≠ i) :
    (s.fill t k i es).slot j = s.slot j :=
  setSlot_ne s _ h

theorem visit_setCall (s : System T n) (t : T) (c : Call n) (k : Key n) (empty : Option (Fin n)) (i : Fin n)
    (slots : List (Fin n)) : (s.setCall t c).visit t k empty i slots = s.visit t k empty i slots := by
  have hagain : ∀ (s : System T n) (c' : Call n), (s.setCall t c).setCall t c' = s.setCall t c' := by
    intro s c'
    simp only [setCall, update_idem]
  unfold System.visit
  by_cases hm : s.Matches k i
  · have hm' : (s.setCall t c).Matches k i := hm
    rw [if_pos hm, if_pos hm']
    exact hagain ((s.setSlot i { s.slot i with ref := (s.slot i).ref + 1 }).setLock none) _
  · have hm' : ¬(s.setCall t c).Matches k i := hm
    rw [if_neg hm, if_neg hm']
    exact hagain s _

theorem setCall_idem (s : System T n) (t : T) (c c' : Call n) : (s.setCall t c).setCall t c' = s.setCall t c' := by
  simp only [setCall, update_idem]

theorem setCall_of_eq (h : s.call t = c) : s.setCall t c = s := by
  rw [setCall, ← h, update_eq_self]

/-- A scan gets past slots that hold nothing for it. -/
theorem run_past {empty : Option (Fin n)} {slots : List (Fin n)} (hcall : s.call t = .scan k empty slots)
    (hno : ∀ i ∈ slots, ¬s.Unlinked i ∧ ¬s.Matches k i) :
    Run Step s (List.replicate slots.length (.run t [])) (s.setCall t (.scan k (slots.foldl s.remember empty) [])) := by
  induction slots generalizing s empty with
  | nil =>
    rw [List.foldl_nil, setCall_of_eq hcall]
    exact .nil s
  | cons i slots ih =>
    obtain ⟨hu, hm⟩ := hno i List.mem_cons_self
    have hstep : Step s (.run t []) (s.setCall t (.scan k (s.remember empty i) slots)) := by
      show s.step t [] = _
      unfold System.step
      rw [hcall]
      cases empty <;> simp only [if_neg hu, System.visit, if_neg hm]
    have htail := ih (setCall_self s t (.scan k (s.remember empty i) slots))
      fun j hj => hno j (List.mem_cons_of_mem i hj)
    rw [setCall_idem] at htail
    exact .cons hstep htail

/-- A whole call that finds nothing and recycles slot `i`. -/
theorem run_miss (hlock : s.lock = none) (hidle : s.call t = .idle) (hop : s.i_op k.dp = true)
    (hdev : k.dev = s.i_dev k.dp) (hentry : s.entry k.dp k.parentoff = some k.name)
    (hno : ∀ i, ¬s.Unlinked i ∧ ¬s.Matches k i) (hempty : (List.finRange n).foldl s.remember none = some i)
    (hclean : (s.slot i).dirty = false) :
    ∃ es, Run Step s es (s.fill t k i []) := by
  have hget : Step s (.fat32_inode_get t k.dp k.parentoff k.name)
      ((s.setLock (some t)).setCall t (.scan k none (List.finRange n))) := by
    unfold Step System.next
    dsimp only
    rw [← hdev]
    exact if_pos ⟨hlock, hidle, hop, _, hentry, rfl⟩
  have hpast := run_past (setCall_self (s.setLock (some t)) t (.scan k none (List.finRange n))) fun i _ => hno i
  rw [setCall_idem] at hpast
  have hfold : (List.finRange n).foldl
      ((s.setLock (some t)).setCall t (.scan k none (List.finRange n))).remember none = some i := hempty
  rw [hfold] at hpast
  refine ⟨_, .cons hget (hpast.snoc (e := .run t []) ?_)⟩
  show System.step _ t [] = _
  unfold System.step
  rw [setCall_self]
  have hclean' : (((s.setLock (some t)).setCall t (.scan k (some i) [])).slot i).dirty = false := hclean
  simp only [hclean', Bool.false_eq_true, if_false, Option.some.injEq]
  exact setCall_idem (((s.setSlot i (filled (s.slot i) k)).setNames (some i) []).setLock none) t _ _

theorem run_publish (hcall : s.call t = .publish k i) :
    Step s (.run t []) ((s.setSlot i { s.slot i with parent := some k.dp }).setCall t
      (if s.i_sem k.dp = some t then .got k i else .idle)) := by
  show System.step _ t [] = _
  unfold System.step
  rw [hcall]

end System

end LostWakeup.Fs.Fat32.OneInode
