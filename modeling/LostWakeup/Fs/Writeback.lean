/-
# LostWakeup.Fs.Writeback — `src/fs/fs-writeback.c` against `fat32_inode_write` and `alloc_fail`.

A write stores into the pages of its inode, tags them dirty and at its end puts the inode on `s_dirty`.  A flusher
collects the tagged pages under the inode's semaphore, writes them out one by one, signals it, and takes the inode off
the list afterwards.  `alloc_fail` destroys the page tree of every inode that it finds not on the list.
`dirty_inode_listed` says in which ways alone the list can miss an inode with bytes that the disk has not got.

Any number of reads and writes of one inode overlap: `sendfile` and `fat32_inode_update`, also where `sync_inode` calls
it for the parent, go without the inode's semaphore.  `i_read_lock`, which keeps the turns of two of them apart, is left
out, so there are more runs here.  One turn of a write, and one page on its way to the disk, are single steps.  Tags are
never cleared but with the tree.
-/
import Mathlib.Data.Finset.Basic
import Mathlib.Data.Finset.Lattice.Lemmas
import Mathlib.Logic.Function.Basic
import LostWakeup.Library.Run

namespace LostWakeup.Fs.Writeback

open Library
open Function (update update_of_ne update_self)

/-! ## Inodes, writers and flushers -/

/-- `struct address_space`: the pages of the tree, those with `PAGECACHE_TAG_DIRTY`, and how many there are. -/
structure Mapping (D : Type) where
  page : Nat → Option D
  dirty : Finset Nat
  nrpages : Nat

/-- `fat32_i_mapping_init`. -/
def Mapping.init {D : Type} : Mapping D := ⟨fun _ => none, ∅, 0⟩

/-- `add_to_page_cache_atomic`, if the tree has no page there, and the page's new contents. -/
def Mapping.put {D : Type} (m : Mapping D) (index : Nat) (d : D) : Mapping D :=
  { m with
    page := update m.page index (some d)
    nrpages := if (m.page index).isNone then m.nrpages + 1 else m.nrpages }

/-- `radix_tree_tag_set` of a page. -/
def Mapping.tag {D : Type} (m : Mapping D) (index : Nat) : Mapping D := { m with dirty := insert index m.dirty }

/-- `struct inode`.  `file` is what the writes have left of each page, `owed` has the pages that a write which has ended
stored and the disk has not got since; no step reads either. -/
structure Inode (A W D : Type) where
  /-- Who has the semaphore, a writer or a flusher. -/
  i_sem : Option (A ⊕ W)
  i_mapping : Option (Mapping D)
  /-- Which of the address spaces the inode has had `i_mapping` points to. -/
  mapping_no : Nat
  /-- On `s_dirty`. -/
  dirty_list : Bool
  i_writeback : Bool
  disk : Nat → D
  file : Nat → D
  owed : Finset Nat

/-- How far a thread is in `fat32_inode_write`, or in `fat32_inode_read`, which goes the same way and stores nothing. -/
inductive Write (I : Type)
  | idle
  /-- Has found `i_mapping` NULL. -/
  | unmapped (i : I)
  /-- Has found it set, or has set it. -/
  | mapped (i : I)
  /-- In `do_generic_file_write`, with the address space it was given, and the pages it has stored that no flusher has
  written since. -/
  | storing (i : I) (mapping : Nat) (pages : Finset Nat)
  /-- Back from it; the inode has not been listed for this write. -/
  | stored (i : I) (pages : Finset Nat)

/-- How far a flusher, or `alloc_fail`, is with the inode `i` it visits. -/
inductive Visit (I : Type)
  | idle
  /-- The traversal of `s_dirty` is at `i`. -/
  | picked (i : I)
  /-- Has `i_sem`. -/
  | locked (i : I)
  /-- In `mpage_writepage`, with the address space and those of the collected pages that are still to be written. -/
  | writing (i : I) (mapping : Nat) (pages : Finset Nat)
  /-- `sync_inode` has returned; `done` if it returned 0. -/
  | synced (i : I) (done : Bool)
  /-- Has signalled `i_sem`. -/
  | signalled (i : I) (done : Bool)
  /-- `alloc_fail` has found `i` not on `s_dirty`. -/
  | unlisted (i : I)

structure System (I A W D : Type) where
  inode : I → Inode A W D
  write : A → Write I
  flusher : W → Visit I

inductive WbEvent (I A W D : Type)
  | sema_wait (a : A) (i : I)
  | sema_signal (a : A) (i : I)
  /-- `fat32_inode_write` or `fat32_inode_read` begins, with or without `i_sem`. -/
  | write_begin (a : A) (i : I)
  | fat32_i_mapping_init (a : A)
  /-- Or `do_generic_file_read`. -/
  | do_generic_file_write (a : A)
  /-- One turn of its loop, which leaves page `index` as `d`. -/
  | store (a : A) (index : Nat) (d : D)
  /-- `either_copyin` fails for page `index`, which it leaves as `d`, and the write returns -1. -/
  | write_fail (a : A) (index : Nat) (d : D)
  | write_return (a : A)
  /-- The inode goes on `s_dirty`, unless it is there. -/
  | list_add (a : A)
  /-- A page is read into the tree. -/
  | page_in (a : A) (index : Nat)
  | read_return (a : A)
  /-- Also of an inode that has left the list since the traversal saved it as its next. -/
  | pick (w : W) (i : I)
  | lock (w : W)
  | sync_inode (w : W)
  | write_page (w : W) (index : Nat)
  | sync_return (w : W)
  | signal (w : W)
  | list_del (w : W)
  | alloc_fail (w : W) (i : I)
  | fat32_i_mapping_destroy (w : W)

/-- The write has stored the page of the inode, and the disk has not got that. -/
def Write.Has {I : Type} (i : I) (index : Nat) : Write I → Prop
  | .storing j _ pages | .stored j pages => j = i ∧ index ∈ pages
  | _ => False

/-- A flusher has written the page. -/
def Write.flushed {I : Type} [DecidableEq I] (i : I) (index : Nat) : Write I → Write I
  | .storing j mapping pages => .storing j mapping (if j = i then pages.erase index else pages)
  | .stored j pages => .stored j (if j = i then pages.erase index else pages)
  | v => v

namespace Inode

variable {A W D : Type}

/-- What a reader of the page gets: the tree's page, or the disk's. -/
def current (n : Inode A W D) (index : Nat) : D := (n.i_mapping.bind fun m => m.page index).getD (n.disk index)

/-- A write of these pages has ended. -/
def owe [DecidableEq D] (n : Inode A W D) (pages : Finset Nat) : Inode A W D :=
  { n with owed := (n.owed ∪ pages).filter fun index => n.current index ≠ n.disk index }

def fat32_i_mapping_init (n : Inode A W D) : Inode A W D :=
  { n with i_mapping := some .init, mapping_no := n.mapping_no + 1 }

/-- The address space with this number is gone: it was freed, or another has taken its place. -/
def Stale (n : Inode A W D) (mapping : Nat) : Prop := n.i_mapping = none ∨ n.mapping_no ≠ mapping

instance (n : Inode A W D) (mapping : Nat) : Decidable (n.Stale mapping) :=
  decidable_of_iff (n.i_mapping.isNone ∨ n.mapping_no ≠ mapping) (by simp [Stale])

def store (n : Inode A W D) (m : Mapping D) (index : Nat) (d : D) : Inode A W D :=
  { n with i_mapping := some ((m.put index d).tag index), file := update n.file index d }

/-- The page of the turn that failed is left new or half overwritten, and is not tagged for that. -/
def half_written (n : Inode A W D) (m : Mapping D) (index : Nat) (d : D) : Inode A W D :=
  { n with i_mapping := some (m.put index d), file := update n.file index d }

def page_in (n : Inode A W D) (m : Mapping D) (index : Nat) : Inode A W D :=
  { n with i_mapping := some (m.put index ((m.page index).getD (n.disk index))) }

def write_page (n : Inode A W D) (index : Nat) : Inode A W D :=
  { n with disk := update n.disk index (n.current index), owed := n.owed.erase index }

/-- `fat32_i_mapping_destroy` finds a tree with pages. -/
def Cached (n : Inode A W D) : Prop := ∃ m, n.i_mapping = some m ∧ m.nrpages ≠ 0

def fat32_i_mapping_destroy (n : Inode A W D) : Inode A W D :=
  match n.i_mapping with
  | none => n
  | some m => if m.nrpages = 0 then n else { n with i_mapping := none }

end Inode

namespace System

variable {I A W D : Type} [DecidableEq I] [DecidableEq A] [DecidableEq W] [DecidableEq D]

def setInode (s : System I A W D) (i : I) (n : Inode A W D) : System I A W D :=
  { s with inode := update s.inode i n }

def setWrite (s : System I A W D) (a : A) (v : Write I) : System I A W D :=
  { s with write := update s.write a v }

def setFlusher (s : System I A W D) (w : W) (v : Visit I) : System I A W D :=
  { s with flusher := update s.flusher w v }

/-- The page is on the disk as it is. -/
def flushed (s : System I A W D) (i : I) (index : Nat) : System I A W D :=
  { s with
    inode := update s.inode i ((s.inode i).write_page index)
    write := fun a => (s.write a).flushed i index }

/-- A turn of the write with its tree: `n` is what it makes of the inode, `v` where it leaves the write. -/
def turn (s : System I A W D) (a : A) (n : Inode A W D → Mapping D → Finset Nat → Inode A W D)
    (v : I → Nat → Finset Nat → Write I) : Option (System I A W D) :=
  match s.write a with
  | .storing i mapping pages =>
    if (s.inode i).Stale mapping then none
    else (s.inode i).i_mapping.map fun m => (s.setInode i (n (s.inode i) m pages)).setWrite a (v i mapping pages)
  | _ => none

/-- The pages that `mpage_writepage` collects; `none` for its panics, without a tree and where a tree with pages has
none that is tagged. -/
def mpage_writepage (n : Inode A W D) : Option (Finset Nat) :=
  n.i_mapping.bind fun m => if m.nrpages = 0 then some ∅ else if m.dirty = ∅ then none else some m.dirty

/-- One event; `none` where it cannot happen, and for a panic. -/
def next (s : System I A W D) : WbEvent I A W D → Option (System I A W D)
  | .sema_wait a i =>
      if (s.inode i).i_sem.isNone then some (s.setInode i { s.inode i with i_sem := some (.inl a) }) else none
  | .sema_signal a i =>
      if (s.inode i).i_sem = some (.inl a) then some (s.setInode i { s.inode i with i_sem := none }) else none
  | .write_begin a i =>
      match s.write a with
      | .idle => some (s.setWrite a (if (s.inode i).i_mapping.isNone then .unmapped i else .mapped i))
      | _ => none
  | .fat32_i_mapping_init a =>
      match s.write a with
      | .unmapped i => some ((s.setInode i (s.inode i).fat32_i_mapping_init).setWrite a (.mapped i))
      | _ => none
  | .do_generic_file_write a =>
      match s.write a with
      | .mapped i => (s.inode i).i_mapping.map fun _ => s.setWrite a (.storing i (s.inode i).mapping_no ∅)
      | _ => none
  | .store a index d => s.turn a (fun n m _ => n.store m index d) fun i mapping pages =>
      .storing i mapping (insert index pages)
  | .write_fail a index d => s.turn a (fun n m pages => (n.half_written m index d).owe (insert index pages)) fun _ _ _ => .idle
  | .write_return a =>
      match s.write a with
      | .storing i _ pages => some (s.setWrite a (.stored i pages))
      | _ => none
  | .list_add a =>
      match s.write a with
      | .stored i pages => some
          ((s.setInode i ({ s.inode i with dirty_list := true }.owe pages)).setWrite a .idle)
      | _ => none
  | .page_in a index => s.turn a (fun n m _ => n.page_in m index) .storing
  | .read_return a =>
      match s.write a with
      | .storing _ _ pages => if pages = ∅ then some (s.setWrite a .idle) else none
      | _ => none
  | .pick w i =>
      match s.flusher w with
      | .idle => some (s.setFlusher w (.picked i))
      | _ => none
  | .lock w =>
      match s.flusher w with
      | .picked i =>
        if (s.inode i).i_sem.isNone then
          some ((s.setInode i { s.inode i with i_sem := some (.inr w) }).setFlusher w (.locked i))
        else none
      | _ => none
  | .sync_inode w =>
      match s.flusher w with
      | .locked i =>
        if (s.inode i).i_writeback then some (s.setFlusher w (.synced i false))
        else (mpage_writepage (s.inode i)).map fun pages =>
          (s.setInode i { s.inode i with i_writeback := true }).setFlusher w
            (.writing i (s.inode i).mapping_no pages)
      | _ => none
  | .write_page w index =>
      match s.flusher w with
      | .writing i mapping pages =>
        if index ∈ pages ∧ ¬(s.inode i).Stale mapping then
          some ((s.flushed i index).setFlusher w (.writing i mapping (pages.erase index)))
        else none
      | _ => none
  | .sync_return w =>
      match s.flusher w with
      | .writing i _ pages => if pages = ∅ then some (s.setFlusher w (.synced i true)) else none
      | _ => none
  | .signal w =>
      match s.flusher w with
      | .synced i done => some ((s.setInode i { s.inode i with i_sem := none }).setFlusher w (.signalled i done))
      | _ => none
  | .list_del w =>
      match s.flusher w with
      | .signalled i done =>
          let s := s.setFlusher w .idle
          some (if done then s.setInode i ({ s.inode i with dirty_list := false, i_writeback := false }.owe ∅) else s)
      | _ => none
  | .alloc_fail w i =>
      match s.flusher w with
      | .idle => if (s.inode i).dirty_list then none else some (s.setFlusher w (.unlisted i))
      | _ => none
  | .fat32_i_mapping_destroy w =>
      match s.flusher w with
      | .unlisted i => some ((s.setInode i (s.inode i).fat32_i_mapping_destroy).setFlusher w .idle)
      | _ => none

omit [DecidableEq I] [DecidableEq A] [DecidableEq W] [DecidableEq D] in
/-- The thread goes on with an address space that is gone. -/
def Wild (s : System I A W D) : WbEvent I A W D → Prop
  | .do_generic_file_write a => ∃ i, s.write a = .mapped i ∧ (s.inode i).i_mapping = none
  | .store a _ _ | .write_fail a _ _ | .page_in a _ => ∃ i mapping pages, s.write a = .storing i mapping pages ∧
      (s.inode i).Stale mapping
  | .write_page w index => ∃ i mapping pages, s.flusher w = .writing i mapping pages ∧ index ∈ pages ∧
      (s.inode i).Stale mapping
  | _ => False

end System

/-- What the code does with an address space that is gone is left open. -/
def WbStep {I A W D : Type} [DecidableEq I] [DecidableEq A] [DecidableEq W] [DecidableEq D] (s : System I A W D)
    (e : WbEvent I A W D) (s' : System I A W D) : Prop :=
  s.next e = some s' ∨ s.Wild e

/-- Files with the contents `disk`, nothing cached, nobody at work. -/
def wb_init {I A W D : Type} (disk : I → Nat → D) : System I A W D where
  inode := fun i =>
    { i_sem := none
      i_mapping := none
      mapping_no := 0
      dirty_list := false
      i_writeback := false
      disk := disk i
      file := disk i
      owed := ∅ }
  write := fun _ => .idle
  flusher := fun _ => .idle

/-! ## The property and its condition -/

namespace System

variable {I A W D : Type}

/-- A page that the disk has not got is that of an inode on `s_dirty`, unless it is a write under way alone that has
stored it; and a page that no write under way has stored reads as the writes have left it. -/
def Kept (s : System I A W D) : Prop :=
  ∀ i index,
    ((s.inode i).current index ≠ (s.inode i).disk index → (s.inode i).dirty_list = true ∨
      index ∉ (s.inode i).owed ∧ ∃ a, (s.write a).Has i index) ∧
    ((∀ a, ¬(s.write a).Has i index) → (s.inode i).current index = (s.inode i).file index)

/-- Somebody works on the address space with this number of the inode. -/
inductive Works (s : System I A W D) (i : I) (mapping : Nat) : Prop
  | storing (a : A) (pages : Finset Nat) (h : s.write a = .storing i mapping pages)
  | writing (w : W) (pages : Finset Nat) (h : s.flusher w = .writing i mapping pages) (hleft : pages ≠ ∅)

/-- A tree is made only where there is none; a write that fails has its inode listed, unless the disk has what it
leaves; an inode leaves the list when the disk has the pages of the writes that have ended; `alloc_fail` destroys a tree
when the disk has all of it and nobody works on it. -/
def WbOk (s : System I A W D) : WbEvent I A W D → Prop
  | .fat32_i_mapping_init a => ∀ i, s.write a = .unmapped i → (s.inode i).i_mapping = none
  | .write_fail a index d => ∀ i mapping pages, s.write a = .storing i mapping pages →
      (s.inode i).dirty_list = true ∨
        ∀ j ∈ insert index pages, update (s.inode i).current index d j = (s.inode i).disk j
  | .list_del w => ∀ i, s.flusher w = .signalled i true →
      ∀ index ∈ (s.inode i).owed, (s.inode i).current index = (s.inode i).disk index
  | .fat32_i_mapping_destroy w => ∀ i, s.flusher w = .unlisted i → (s.inode i).Cached →
      (∀ index, (s.inode i).current index = (s.inode i).disk index) ∧ (∀ a, s.write a ≠ .mapped i) ∧
        ∀ mapping, ¬s.Works i mapping
  | _ => True

/-! ## The invariant -/

/-- What the events that meet the condition keep. -/
structure Inv (s : System I A W D) : Prop where
  current : ∀ i index, (s.inode i).current index = (s.inode i).file index
  owed : ∀ i, (s.inode i).dirty_list = false → (s.inode i).owed = ∅
  stored : ∀ i index, (s.inode i).file index ≠ (s.inode i).disk index →
    index ∈ (s.inode i).owed ∨ ∃ a, (s.write a).Has i index
  mapped : ∀ a i, s.write a = .mapped i → (s.inode i).i_mapping ≠ none
  works : ∀ i mapping, s.Works i mapping → ¬(s.inode i).Stale mapping

variable {s s' : System I A W D} {i : I} {a : A} {w : W} {n : Inode A W D} {m : Mapping D} {index : Nat} {d : D}

theorem Inv.kept (h : s.Inv) : s.Kept := by
  intro i index
  refine ⟨fun hne => ?_, fun _ => h.current i index⟩
  rw [h.current] at hne
  rcases hlist : (s.inode i).dirty_list with _ | _
  · have howed : index ∉ (s.inode i).owed := by simp [h.owed i hlist]
    exact .inr ⟨howed, (h.stored i index hne).resolve_left howed⟩
  · exact .inl rfl

theorem inv_init (disk : I → Nat → D) : (wb_init disk : System I A W D).Inv where
  current := fun _ _ => rfl
  owed := fun _ _ => rfl
  stored := fun _ _ h => absurd rfl h
  mapped := nofun
  works := by
    rintro i mapping (⟨a, pages, h⟩ | ⟨w, pages, h, hleft⟩)
    · cases h
    · cases h

/-- Nobody meets an address space that is gone. -/
theorem Inv.not_wild (h : s.Inv) (e : WbEvent I A W D) : ¬s.Wild e := by
  intro hwild
  cases e with
  | do_generic_file_write a =>
    obtain ⟨i, hw, hnone⟩ := hwild
    exact h.mapped a i hw hnone
  | store a index d | write_fail a index d | page_in a index =>
    obtain ⟨i, mapping, pages, hw, hstale⟩ := hwild
    exact h.works i mapping (.storing a pages hw) hstale
  | write_page w index =>
    obtain ⟨i, mapping, pages, hw, hmem, hstale⟩ := hwild
    exact h.works i mapping (.writing w pages hw (Finset.ne_empty_of_mem hmem)) hstale
  | _ => exact hwild

theorem current_put (n n' : Inode A W D) (hm : n.i_mapping = some m) (hdisk : n'.disk = n.disk)
    (hput : ∃ dirty, n'.i_mapping = some { m.put index d with dirty }) :
    n'.current = update n.current index d := by
  obtain ⟨dirty, hput⟩ := hput
  funext j
  unfold Inode.current
  rw [hput, hm, hdisk]
  show (update m.page index (some d) j).getD (n.disk j) = _
  by_cases hj : j = index
  · rw [hj, update_self, update_self]
    rfl
  · rw [update_of_ne hj, update_of_ne hj]
    rfl

variable [DecidableEq I]

theorem setInode_self (s : System I A W D) (i : I) (n : Inode A W D) : (s.setInode i n).inode i = n := update_self ..

theorem setInode_ne (s : System I A W D) (n : Inode A W D) {j : I} (h : j ≠ i) :
    (s.setInode i n).inode j = s.inode j :=
  update_of_ne h ..

/-- A step that keeps the tree an inode has. -/
theorem Inv.setInode (h : s.Inv) (hcurrent : ∀ index, n.current index = n.file index)
    (howed : n.dirty_list = false → n.owed = ∅)
    (hstored : ∀ index, n.file index ≠ n.disk index → index ∈ n.owed ∨ ∃ a, (s.write a).Has i index)
    (halive : (s.inode i).i_mapping ≠ none → n.i_mapping ≠ none ∧ n.mapping_no = (s.inode i).mapping_no) :
    (s.setInode i n).Inv where
  current := by
    intro j
    by_cases hj : j = i
    · rw [hj, setInode_self]
      exact hcurrent
    · rw [setInode_ne s n hj]
      exact h.current j
  owed := by
    intro j
    by_cases hj : j = i
    · rw [hj, setInode_self]
      exact howed
    · rw [setInode_ne s n hj]
      exact h.owed j
  stored := by
    intro j
    by_cases hj : j = i
    · rw [hj, setInode_self]
      exact hstored
    · rw [setInode_ne s n hj]
      exact h.stored j
  mapped := by
    intro a j ha
    have hmap := h.mapped a j ha
    by_cases hj : j = i
    · subst hj
      rw [setInode_self]
      exact (halive hmap).1
    · rwa [setInode_ne s n hj]
  works := by
    intro j mapping hworks
    have hstale : ¬(s.inode j).Stale mapping := by
      apply h.works
      cases hworks with
      | storing a pages ha => exact .storing a pages ha
      | writing w pages hw hleft => exact .writing w pages hw hleft
    by_cases hj : j = i
    · subst hj
      rw [setInode_self]
      obtain ⟨hmap, hno⟩ := not_or.mp hstale
      obtain ⟨hmap', hno'⟩ := halive hmap
      rintro (hnone | hne)
      · exact hmap' hnone
      · rw [hno'] at hne
        exact hno hne
    · rwa [setInode_ne s n hj]

/-- A step that changes neither pages nor disk nor list. -/
theorem Inv.setInode_of_eq (h : s.Inv) (hmap : n.i_mapping = (s.inode i).i_mapping)
    (hno : n.mapping_no = (s.inode i).mapping_no) (hdisk : n.disk = (s.inode i).disk) (hfile : n.file = (s.inode i).file)
    (howed : n.owed = (s.inode i).owed) (hlist : n.dirty_list = (s.inode i).dirty_list) : (s.setInode i n).Inv := by
  refine h.setInode (fun index => ?_) (fun hl => ?_) (fun index hne => ?_) fun hne => ⟨hmap ▸ hne, hno⟩
  · have hcur := h.current i index
    unfold Inode.current at hcur ⊢
    rw [hmap, hdisk, hfile, hcur]
  · rw [hlist] at hl
    rw [howed, h.owed i hl]
  · rw [hdisk, hfile] at hne
    rw [howed]
    exact h.stored i index hne

/-- A write of `pages` has ended, or none; the inode is listed, unless the disk has all that is owed. -/
theorem Inv.owe [DecidableEq D] (h : s.Inv) (pages : Finset Nat) (hmap : n.i_mapping = (s.inode i).i_mapping)
    (hno : n.mapping_no = (s.inode i).mapping_no) (hdisk : n.disk = (s.inode i).disk) (hfile : n.file = (s.inode i).file)
    (howed : n.owed = (s.inode i).owed) (hlist : n.dirty_list = false →
      ∀ index ∈ (s.inode i).owed ∪ pages, (s.inode i).current index = (s.inode i).disk index) :
    (s.setInode i (n.owe pages)).Inv := by
  have hcur : n.current = (s.inode i).current := by
    funext index
    unfold Inode.current
    rw [hmap, hdisk]
  refine h.setInode (fun index => ?_) (fun hl => ?_) (fun index hne => ?_) fun hne => ⟨hmap ▸ hne, hno⟩
  · show n.current index = n.file index
    rw [hcur, hfile]
    exact h.current i index
  · show (n.owed ∪ pages).filter _ = ∅
    refine Finset.filter_eq_empty_iff.mpr fun index hmem => not_not.mpr ?_
    rw [howed] at hmem
    rw [hcur, hdisk]
    exact hlist hl index hmem
  · have hne' : (s.inode i).file index ≠ (s.inode i).disk index := by
      rw [← hdisk, ← hfile]
      exact hne
    refine (h.stored i index hne').imp_left fun hmem => Finset.mem_filter.mpr ⟨?_, ?_⟩
    · exact Finset.mem_union_left _ (howed ▸ hmem)
    · rwa [hcur, hdisk, h.current]

variable [DecidableEq A]

omit [DecidableEq I] in
/-- A writer goes on; what it leaves behind is owed. -/
theorem Inv.setWrite (h : s.Inv) {v : Write I}
    (hhas : ∀ i index, (s.write a).Has i index → (s.inode i).file index ≠ (s.inode i).disk index →
      v.Has i index ∨ index ∈ (s.inode i).owed)
    (hmapped : ∀ i, v = .mapped i → (s.inode i).i_mapping ≠ none)
    (hworks : ∀ i mapping pages, v = .storing i mapping pages → ¬(s.inode i).Stale mapping) :
    (s.setWrite a v).Inv where
  current := h.current
  owed := h.owed
  stored := by
    intro i index hne
    rcases h.stored i index hne with howed | ⟨b, hb⟩
    · exact .inl howed
    by_cases hba : b = a
    · subst hba
      refine (hhas i index hb hne).symm.imp_right fun hv => ⟨b, ?_⟩
      show (update s.write b v b).Has i index
      rwa [update_self]
    · refine .inr ⟨b, ?_⟩
      show (update s.write a v b).Has i index
      rwa [update_of_ne hba]
  mapped := by
    intro b i hb
    have hb' : update s.write a v b = .mapped i := hb
    by_cases hba : b = a
    · rw [hba, update_self] at hb'
      exact hmapped i hb'
    · rw [update_of_ne hba] at hb'
      exact h.mapped b i hb'
  works := by
    intro i mapping hw
    cases hw with
    | storing b pages hb =>
      have hb' : update s.write a v b = .storing i mapping pages := hb
      by_cases hba : b = a
      · rw [hba, update_self] at hb'
        exact hworks i mapping pages hb'
      · rw [update_of_ne hba] at hb'
        exact h.works i mapping (.storing b pages hb')
    | writing w pages hf hleft => exact h.works i mapping (.writing w pages hf hleft)

variable [DecidableEq W]

omit [DecidableEq I] [DecidableEq A] in
/-- A flusher goes on. -/
theorem Inv.setFlusher (h : s.Inv) {v : Visit I}
    (hworks : ∀ i mapping pages, v = .writing i mapping pages → pages ≠ ∅ → ¬(s.inode i).Stale mapping) :
    (s.setFlusher w v).Inv where
  current := h.current
  owed := h.owed
  stored := h.stored
  mapped := h.mapped
  works := by
    intro i mapping hw
    cases hw with
    | storing a pages ha => exact h.works i mapping (.storing a pages ha)
    | writing w' pages hf hleft =>
      have hf' : update s.flusher w v w' = .writing i mapping pages := hf
      by_cases hww : w' = w
      · rw [hww, update_self] at hf'
        exact hworks i mapping pages hf' hleft
      · rw [update_of_ne hww] at hf'
        exact h.works i mapping (.writing w' pages hf' hleft)

omit [DecidableEq A] [DecidableEq W] in
theorem Inv.mem_owed [DecidableEq D] {pages : Finset Nat} (h : (s.setInode i (n.owe pages)).Inv) (hmem : index ∈ pages)
    (hne : ((s.setInode i (n.owe pages)).inode i).file index ≠ ((s.setInode i (n.owe pages)).inode i).disk index) :
    index ∈ ((s.setInode i (n.owe pages)).inode i).owed := by
  rw [← h.current] at hne
  rw [setInode_self] at hne ⊢
  exact Finset.mem_filter.mpr ⟨Finset.mem_union_right _ hmem, hne⟩

/-! ## One event -/

omit [DecidableEq W] in
/-- A turn is made with the tree that the inode has. -/
theorem turn_cases {f : Inode A W D → Mapping D → Finset Nat → Inode A W D} {v : I → Nat → Finset Nat → Write I}
    (h : s.turn a f v = some s') : ∃ i mapping pages m, s.write a = .storing i mapping pages ∧
      (s.inode i).i_mapping = some m ∧
        s' = (s.setInode i (f (s.inode i) m pages)).setWrite a (v i mapping pages) := by
  unfold turn at h
  split at h
  · next i mapping pages hw =>
    obtain ⟨-, hmap⟩ := Option.ite_none_left_eq_some.mp h
    obtain ⟨m, hm, rfl⟩ := Option.map_eq_some_iff.mp hmap
    exact ⟨i, mapping, pages, m, hw, hm, rfl⟩
  · cases h

omit [DecidableEq W] in
/-- A turn stores one page, which the write then has. -/
theorem Inv.turn (h : s.Inv) {mapping : Nat} {pages : Finset Nat} (hw : s.write a = .storing i mapping pages)
    (hm : (s.inode i).i_mapping = some m) (hdisk : n.disk = (s.inode i).disk)
    (hfile : n.file = update (s.inode i).file index d) (hno : n.mapping_no = (s.inode i).mapping_no)
    (hput : ∃ dirty, n.i_mapping = some { m.put index d with dirty }) (howed : n.owed = (s.inode i).owed)
    (hlist : n.dirty_list = (s.inode i).dirty_list) :
    ((s.setWrite a (.storing i mapping (insert index pages))).setInode i n).Inv := by
  have hset : (s.setWrite a (.storing i mapping (insert index pages))).Inv := by
    refine h.setWrite (fun j k hhas _ => .inl ?_) nofun fun j no st hv => ?_
    · rw [hw] at hhas
      exact ⟨hhas.1, Finset.mem_insert_of_mem hhas.2⟩
    · cases hv
      exact h.works i mapping (.storing a pages hw)
  have hcur := current_put (s.inode i) n hm hdisk hput
  obtain ⟨dirty, hput⟩ := hput
  refine hset.setInode (fun j => ?_) (fun hl => ?_) (fun j hne => ?_) fun _ => ⟨by rw [hput]; exact Option.some_ne_none _, hno⟩
  · rw [hcur, hfile]
    by_cases hj : j = index
    · rw [hj, update_self, update_self]
    · rw [update_of_ne hj, update_of_ne hj]
      exact h.current i j
  · rw [hlist] at hl
    rw [howed, h.owed i hl]
  · by_cases hj : j = index
    · refine .inr ⟨a, ?_⟩
      show (update s.write a _ a).Has i j
      rw [update_self, hj]
      exact ⟨rfl, Finset.mem_insert_self ..⟩
    · rw [hfile, update_of_ne hj, hdisk] at hne
      rw [howed]
      exact hset.stored i j hne

omit [DecidableEq A] [DecidableEq W] in
theorem Inv.page_in (h : s.Inv) (hm : (s.inode i).i_mapping = some m) (index : Nat) :
    (s.setInode i ((s.inode i).page_in m index)).Inv := by
  have hcur : ((s.inode i).page_in m index).current = (s.inode i).current := by
    rw [current_put (s.inode i) ((s.inode i).page_in m index) hm rfl ⟨_, rfl⟩]
    funext j
    by_cases hj : j = index
    · rw [hj, update_self]
      unfold Inode.current
      rw [hm]
      rfl
    · rw [update_of_ne hj]
  refine h.setInode (fun j => ?_) (h.owed i) (h.stored i) fun _ => ⟨Option.some_ne_none _, rfl⟩
  rw [hcur]
  exact h.current i j

omit [DecidableEq A] [DecidableEq W] in
/-- A tree is made where there is none. -/
theorem Inv.init (h : s.Inv) (hnone : (s.inode i).i_mapping = none) :
    (s.setInode i (s.inode i).fat32_i_mapping_init).Inv := by
  refine h.setInode (fun j => ?_) (h.owed i) (h.stored i) fun hne => absurd hnone hne
  have hcur := h.current i j
  unfold Inode.current at hcur
  rw [hnone] at hcur
  exact hcur

omit [DecidableEq A] [DecidableEq W] in
theorem Write.has_flushed {v : Write I} {j : I} {k : Nat} (hhas : v.Has j k) (hne : ¬(j = i ∧ k = index)) :
    (v.flushed i index).Has j k := by
  cases v with
  | idle | unmapped | mapped => exact hhas
  | storing l mapping pages | stored l pages =>
    obtain ⟨rfl, hmem⟩ := hhas
    refine ⟨rfl, ?_⟩
    split
    · next hl => exact Finset.mem_erase.mpr ⟨fun hk => hne ⟨hl, hk⟩, hmem⟩
    · exact hmem

omit [DecidableEq A] [DecidableEq W] in
/-- A page that is written is nobody's any more. -/
theorem Inv.flushed (h : s.Inv) (i : I) (index : Nat) : (s.flushed i index).Inv := by
  have hcur : ∀ j, ((s.inode i).write_page index).current j = (s.inode i).current j := by
    intro j
    show ((s.inode i).i_mapping.bind fun m => m.page j).getD (update (s.inode i).disk index _ j) = _
    by_cases hj : j = index
    · rw [hj, update_self]
      unfold Inode.current
      rcases (s.inode i).i_mapping.bind fun m => m.page index with _ | d
      · rfl
      · rfl
    · rw [update_of_ne hj]
      rfl
  -- the disk has the page that was written; no other has changed
  have hdiffer : ∀ j, (s.inode i).file j ≠ update (s.inode i).disk index ((s.inode i).current index) j →
      j ≠ index ∧ (s.inode i).file j ≠ (s.inode i).disk j := by
    intro j hne
    by_cases hj : j = index
    · rw [hj, update_self, h.current] at hne
      exact absurd rfl hne
    · rw [update_of_ne hj] at hne
      exact ⟨hj, hne⟩
  have hset : (s.setInode i ((s.inode i).write_page index)).Inv := by
    refine h.setInode (fun j => (hcur j).trans (h.current i j)) (fun hl => ?_) (fun j hne => ?_) fun hmap => ⟨hmap, rfl⟩
    · show (s.inode i).owed.erase index = ∅
      rw [h.owed i hl]
      rfl
    · obtain ⟨hj, hne⟩ := hdiffer j hne
      exact (h.stored i j hne).imp_left fun hmem => Finset.mem_erase.mpr ⟨hj, hmem⟩
  refine ⟨hset.current, hset.owed, fun j k hne => ?_, fun a j ha => ?_, fun j mapping hw => hset.works j mapping ?_⟩
  · refine (hset.stored j k hne).imp_right fun ⟨a, ha⟩ => ⟨a, Write.has_flushed ha ?_⟩
    rintro ⟨rfl, rfl⟩
    have hself : (s.flushed j k).inode j = (s.inode j).write_page k := setInode_self ..
    rw [hself] at hne
    exact (hdiffer k hne).1 rfl
  · have ha' : (s.write a).flushed i index = .mapped j := ha
    cases hw : s.write a with
    | mapped k =>
      rw [hw] at ha'
      cases ha'
      exact hset.mapped a j hw
    | _ =>
      rw [hw] at ha'
      cases ha'
  · cases hw with
    | storing a pages ha =>
      have ha' : (s.write a).flushed i index = .storing j mapping pages := ha
      cases hw : s.write a with
      | storing k mapping' pages' =>
        rw [hw] at ha'
        cases ha'
        exact .storing a pages' hw
      | _ =>
        rw [hw] at ha'
        cases ha'
    | writing w pages hf hleft => exact .writing w pages hf hleft

omit [DecidableEq A] [DecidableEq W] in
theorem Inv.destroy (h : s.Inv) (hok : (s.inode i).Cached → (∀ index, (s.inode i).current index = (s.inode i).disk index) ∧
    (∀ a, s.write a ≠ .mapped i) ∧ ∀ mapping, ¬s.Works i mapping) :
    (s.setInode i (s.inode i).fat32_i_mapping_destroy).Inv := by
  have hsame : (s.setInode i (s.inode i)).Inv := h.setInode (h.current i) (h.owed i) (h.stored i) fun hmap => ⟨hmap, rfl⟩
  unfold Inode.fat32_i_mapping_destroy
  split
  · exact hsame
  · next m hm =>
    split
    · exact hsame
    · next hpages =>
      obtain ⟨hdisk, hmapped, hworks⟩ := hok ⟨m, hm, hpages⟩
      have hfile : ∀ j, (s.inode i).disk j = (s.inode i).file j := fun j => by rw [← hdisk, h.current]
      refine ⟨fun j => ?_, fun j => ?_, fun j => ?_, fun a j ha => ?_, fun j mapping hw => ?_⟩
      · by_cases hj : j = i
        · rw [hj, setInode_self]
          exact hfile
        · rw [setInode_ne s _ hj]
          exact h.current j
      · by_cases hj : j = i
        · rw [hj, setInode_self]
          exact h.owed i
        · rw [setInode_ne s _ hj]
          exact h.owed j
      · by_cases hj : j = i
        · rw [hj, setInode_self]
          exact h.stored i
        · rw [setInode_ne s _ hj]
          exact h.stored j
      · have hj : j ≠ i := fun heq => hmapped a (heq ▸ ha)
        rw [setInode_ne s _ hj]
        exact h.mapped a j ha
      · have hw' : s.Works j mapping := by
          cases hw with
          | storing a pages ha => exact .storing a pages ha
          | writing w pages hf hleft => exact .writing w pages hf hleft
        have hj : j ≠ i := fun heq => hworks mapping (heq ▸ hw')
        rw [setInode_ne s _ hj]
        exact h.works j mapping hw'

variable [DecidableEq D]

theorem Inv.fat32_i_mapping_init (h : s.Inv) (hok : s.WbOk (.fat32_i_mapping_init a))
    (hstep : s.next (.fat32_i_mapping_init a) = some s') : s'.Inv := by
  simp only [next] at hstep
  split at hstep
  · next i hw =>
    cases hstep
    have hset := h.init (hok i hw)
    refine hset.setWrite (fun j k hhas _ => ?_) (fun j hv => ?_) nofun
    · have hhas' : (s.write a).Has j k := hhas
      rw [hw] at hhas'
      exact absurd hhas' id
    · cases hv
      rw [setInode_self]
      exact Option.some_ne_none _
  · cases hstep

/-- A write that fails ends with the pages that it has. -/
theorem Inv.write_fail (h : s.Inv) (hok : s.WbOk (.write_fail a index d))
    (hstep : s.next (.write_fail a index d) = some s') : s'.Inv := by
  unfold next at hstep
  obtain ⟨i, mapping, pages, m, hw, hm, rfl⟩ := turn_cases hstep
  have hturn := h.turn (n := (s.inode i).half_written m index d) hw hm rfl rfl rfl ⟨_, rfl⟩ rfl rfl
  have howe := hturn.owe (i := i) (n := (s.inode i).half_written m index d) (insert index pages)
    (by rw [setInode_self]) (by rw [setInode_self]) (by rw [setInode_self]) (by rw [setInode_self])
    (by rw [setInode_self]) fun hl j hmem => ?_
  · have hleft := howe.setWrite (a := a) (v := .idle) (fun j k hhas hne => .inr ?_) nofun nofun
    · unfold System.setWrite System.setInode at hleft ⊢
      simpa only [Function.update_idem] using hleft
    have hhas' : (update s.write a (.storing i mapping (insert index pages)) a).Has j k := hhas
    rw [update_self] at hhas'
    obtain ⟨rfl, hmem⟩ := hhas'
    exact howe.mem_owed hmem hne
  have hl' : (s.inode i).dirty_list = false := hl
  rw [setInode_self] at hmem ⊢
  have hmem' : j ∈ (s.inode i).owed ∪ insert index pages := hmem
  rw [h.owed i hl', Finset.empty_union] at hmem'
  rw [current_put (s.inode i) ((s.inode i).half_written m index d) hm rfl ⟨_, rfl⟩]
  exact (hok i mapping pages hw).resolve_left (by simp [hl']) j hmem'

theorem Inv.list_add (h : s.Inv) (hstep : s.next (.list_add a) = some s') : s'.Inv := by
  simp only [next] at hstep
  split at hstep
  · next i pages hw =>
    cases hstep
    have hset := h.owe (i := i) (n := { s.inode i with dirty_list := true }) pages rfl rfl rfl rfl rfl fun hl => by
      cases hl
    refine hset.setWrite (fun j k hhas hne => .inr ?_) nofun nofun
    have hhas' : (s.write a).Has j k := hhas
    rw [hw] at hhas'
    obtain ⟨rfl, hmem⟩ := hhas'
    exact hset.mem_owed hmem hne
  · cases hstep

theorem Inv.sync_inode (h : s.Inv) (hstep : s.next (.sync_inode w) = some s') : s'.Inv := by
  simp only [next] at hstep
  split at hstep
  · next i hw =>
    split at hstep
    · cases hstep
      exact h.setFlusher nofun
    · obtain ⟨pages, hpages, rfl⟩ := Option.map_eq_some_iff.mp hstep
      obtain ⟨m, hm, -⟩ := Option.bind_eq_some_iff.mp hpages
      have hset : (s.setInode i { s.inode i with i_writeback := true }).Inv :=
        h.setInode_of_eq rfl rfl rfl rfl rfl rfl
      refine hset.setFlusher fun j no st hv _ => ?_
      cases hv
      rw [setInode_self]
      exact not_or.mpr ⟨by rw [hm]; exact Option.some_ne_none _, not_not.mpr rfl⟩
  · cases hstep

theorem Inv.list_del (h : s.Inv) (hok : s.WbOk (.list_del w))
    (hstep : s.next (.list_del w) = some s') : s'.Inv := by
  simp only [next] at hstep
  split at hstep
  · next i done hw =>
    cases hstep
    split
    · next hdone =>
      subst hdone
      have hset := h.owe (i := i) (n := { s.inode i with dirty_list := false, i_writeback := false }) ∅ rfl rfl rfl
        rfl rfl fun _ => by simpa using hok i hw
      exact hset.setFlusher nofun
    · exact h.setFlusher nofun
  · cases hstep

theorem Inv.step {e : WbEvent I A W D} (h : s.Inv) (hok : s.WbOk e) (hstep : WbStep s e s') : s'.Inv := by
  rcases hstep with hstep | hwild
  case inr => exact absurd hwild (h.not_wild e)
  unfold next at hstep
  cases e with
  | sema_wait a i | sema_signal a i =>
    obtain ⟨-, heq⟩ := Option.ite_none_right_eq_some.mp hstep
    cases heq
    exact h.setInode_of_eq rfl rfl rfl rfl rfl rfl
  | write_begin a i =>
    simp only at hstep
    split at hstep
    · next hidle =>
      cases hstep
      refine h.setWrite (fun j k hhas _ => ?_) (fun j hv => ?_) fun j no st hv => ?_
      · rw [hidle] at hhas
        exact absurd hhas id
      · split at hv
        · cases hv
        · next hmap =>
          cases hv
          simpa using hmap
      · split at hv
        · cases hv
        · cases hv
    · cases hstep
  | fat32_i_mapping_init a => exact h.fat32_i_mapping_init hok hstep
  | do_generic_file_write a =>
    simp only at hstep
    split at hstep
    · next i hw =>
      obtain ⟨m, hm, rfl⟩ := Option.map_eq_some_iff.mp hstep
      refine h.setWrite (fun j k hhas _ => ?_) nofun fun j no st hv => ?_
      · rw [hw] at hhas
        exact absurd hhas id
      · cases hv
        exact not_or.mpr ⟨h.mapped a i hw, not_not.mpr rfl⟩
    · cases hstep
  | store a index d =>
    obtain ⟨i, mapping, pages, m, hw, hm, rfl⟩ := turn_cases hstep
    exact h.turn (n := (s.inode i).store m index d) hw hm rfl rfl rfl ⟨_, rfl⟩ rfl rfl
  | write_fail a index d => exact h.write_fail hok hstep
  | write_return a =>
    simp only at hstep
    split at hstep
    · next i mapping pages hw =>
      cases hstep
      refine h.setWrite (fun j k hhas _ => .inl ?_) nofun nofun
      rw [hw] at hhas
      exact hhas
    · cases hstep
  | list_add a => exact h.list_add hstep
  | page_in a index =>
    obtain ⟨i, mapping, pages, m, hw, hm, rfl⟩ := turn_cases hstep
    have hset := h.page_in hm index
    refine hset.setWrite (fun j k hhas _ => .inl ?_) nofun fun j no st hv => ?_
    · have hhas' : (s.write a).Has j k := hhas
      rwa [hw] at hhas'
    · cases hv
      exact hset.works i mapping (.storing a pages hw)
  | read_return a =>
    simp only at hstep
    split at hstep
    · next i mapping pages hw =>
      obtain ⟨rfl, heq⟩ := Option.ite_none_right_eq_some.mp hstep
      cases heq
      refine h.setWrite (fun j k hhas _ => ?_) nofun nofun
      rw [hw] at hhas
      exact absurd hhas.2 (Finset.notMem_empty k)
    · cases hstep
  | pick w i =>
    simp only at hstep
    split at hstep
    · cases hstep
      exact h.setFlusher nofun
    · cases hstep
  | lock w =>
    simp only at hstep
    split at hstep
    · next i hw =>
      obtain ⟨-, heq⟩ := Option.ite_none_right_eq_some.mp hstep
      cases heq
      have hset : (s.setInode i { s.inode i with i_sem := some (.inr w) }).Inv :=
        h.setInode_of_eq rfl rfl rfl rfl rfl rfl
      exact hset.setFlusher nofun
    · cases hstep
  | sync_inode w => exact h.sync_inode hstep
  | write_page w index =>
    simp only at hstep
    split at hstep
    · next i mapping pages hw =>
      obtain ⟨⟨-, hlive⟩, heq⟩ := Option.ite_none_right_eq_some.mp hstep
      cases heq
      refine (h.flushed i index).setFlusher fun j no st hv _ => ?_
      cases hv
      show ¬(update s.inode i _ i).Stale mapping
      rw [update_self]
      exact hlive
    · cases hstep
  | sync_return w =>
    simp only at hstep
    split at hstep
    · obtain ⟨-, heq⟩ := Option.ite_none_right_eq_some.mp hstep
      cases heq
      exact h.setFlusher nofun
    · cases hstep
  | signal w =>
    simp only at hstep
    split at hstep
    · next i done hw =>
      cases hstep
      have hset : (s.setInode i { s.inode i with i_sem := none }).Inv :=
        h.setInode_of_eq rfl rfl rfl rfl rfl rfl
      exact hset.setFlusher nofun
    · cases hstep
  | list_del w => exact h.list_del hok hstep
  | alloc_fail w i =>
    simp only at hstep
    split at hstep
    · obtain ⟨-, heq⟩ := Option.ite_none_left_eq_some.mp hstep
      cases heq
      exact h.setFlusher nofun
    · cases hstep
  | fat32_i_mapping_destroy w =>
    simp only at hstep
    split at hstep
    · next i hw =>
      cases hstep
      exact (h.destroy (hok i hw)).setFlusher nofun
    · cases hstep

/-- **Dirty-inode tracking.** In every run of writes, flushers and `alloc_fail` whose events meet the condition, the
list holds every inode with bytes that the disk has not got, but for what the writes under way have stored, and no
write is lost. -/
theorem dirty_inode_listed (disk : I → Nat → D) (es : List (WbEvent I A W D)) (s : System I A W D)
    (h : Run (Guarded WbStep WbOk) (wb_init disk) es s) : s.Kept := by
  have hinv : s.Inv := h.invariant (fun s e s' hs hstep => hs.step hstep.1 hstep.2) (inv_init disk)
  exact hinv.kept

/-- Two writes overlap, each stores into the same page, and a flusher writes it back and takes the inode off the
list. -/
theorem dirty_inode_listed_two : ∃ s : System Unit Bool Unit Nat, (s.inode ()).disk 0 = 2 ∧ s.Kept := by
  have hrun : ∃ s : System Unit Bool Unit Nat, (s.inode ()).disk 0 = 2 ∧ Run (Guarded WbStep WbOk)
      (wb_init fun _ _ => 0) [.sema_wait false (), .write_begin false (), .fat32_i_mapping_init false,
        .write_begin true (), .do_generic_file_write false, .store false 0 1, .do_generic_file_write true,
        .store true 0 2, .write_return false, .list_add false, .sema_signal false (), .write_return true,
        .list_add true, .pick () (), .lock (), .sync_inode (), .write_page () 0, .sync_return (), .signal (),
        .list_del ()] s := by
    refine ⟨_, ?_, .cons ⟨trivial, .inl rfl⟩ <| .cons ⟨trivial, .inl rfl⟩ <| .cons ⟨fun _ _ => rfl, .inl rfl⟩ <|
      .cons ⟨trivial, .inl rfl⟩ <| .cons ⟨trivial, .inl rfl⟩ <| .cons ⟨trivial, .inl rfl⟩ <|
      .cons ⟨trivial, .inl rfl⟩ <| .cons ⟨trivial, .inl rfl⟩ <| .cons ⟨trivial, .inl rfl⟩ <|
      .cons ⟨trivial, .inl rfl⟩ <| .cons ⟨trivial, .inl rfl⟩ <| .cons ⟨trivial, .inl rfl⟩ <|
      .cons ⟨trivial, .inl rfl⟩ <| .cons ⟨trivial, .inl rfl⟩ <| .cons ⟨trivial, .inl rfl⟩ <|
      .cons ⟨trivial, .inl rfl⟩ <| .cons ⟨trivial, .inl rfl⟩ <| .cons ⟨trivial, .inl rfl⟩ <|
      .cons ⟨trivial, .inl rfl⟩ <| .cons ⟨?_, .inl rfl⟩ <| .nil _⟩
    · rfl
    · rintro i - index -
      rcases index with _ | index
      · rfl
      · rfl
  obtain ⟨s, hdisk, hs⟩ := hrun
  exact ⟨s, hdisk, dirty_inode_listed _ _ s hs⟩

/-- A second write ends between the sync of the first and its `list_del`; under memory pressure its
bytes are gone. -/
theorem write_lost_under_flush : ∃ s : System Unit Unit Unit Nat,
    Run WbStep (wb_init fun _ _ => 0)
      [.sema_wait () (), .write_begin () (), .fat32_i_mapping_init (), .do_generic_file_write (), .store () 0 1,
        .write_return (), .list_add (), .sema_signal () (), .pick () (), .lock (), .sync_inode (), .write_page () 0,
        .sync_return (), .signal (), .sema_wait () (), .write_begin () (), .do_generic_file_write (), .store () 0 2,
        .write_return (), .list_add (), .sema_signal () (), .list_del (),
        .alloc_fail () (), .fat32_i_mapping_destroy ()] s ∧
      (s.inode ()).file 0 = 2 ∧ (s.inode ()).current 0 = 1 ∧ (s.inode ()).dirty_list = false ∧
      (∀ a, ¬(s.write a).Has () 0) ∧ ¬s.Kept := by
  generalize hes : ([.sema_wait () (), .write_begin () (), .fat32_i_mapping_init (), .do_generic_file_write (),
    .store () 0 1, .write_return (), .list_add (), .sema_signal () (), .pick () (), .lock (), .sync_inode (),
    .write_page () 0, .sync_return (), .signal (), .sema_wait () (), .write_begin () (), .do_generic_file_write (),
    .store () 0 2, .write_return (), .list_add (), .sema_signal () (), .list_del (),
    .alloc_fail () (), .fat32_i_mapping_destroy ()] :
    List (WbEvent Unit Unit Unit Nat)) = es
  have hseen : (exec next (wb_init fun _ _ => 0) es).map (fun s => ((s.inode ()).file 0, (s.inode ()).current 0,
      (s.inode ()).dirty_list, match s.write () with | .idle => true | _ => false)) = some (2, 1, false, true) := by
    rw [← hes]
    decide +kernel
  obtain ⟨s, hs, heq⟩ := Option.map_eq_some_iff.mp hseen
  rw [Prod.mk.injEq, Prod.mk.injEq, Prod.mk.injEq] at heq
  obtain ⟨hfile, hcur, hlist, hidle⟩ := heq
  have hnone : ∀ a, ¬(s.write a).Has () 0 := by
    intro a hhas
    split at hidle
    · next hw =>
      rw [show a = () from rfl, hw] at hhas
      exact hhas
    · cases hidle
  refine ⟨s, (run_of_exec next _ es hs).mono fun _ _ _ => .inl, hfile, hcur, hlist, hnone, fun hkept => ?_⟩
  have hsame := (hkept () 0).2 hnone
  rw [hfile, hcur] at hsame
  cases hsame

end System

end LostWakeup.Fs.Writeback
