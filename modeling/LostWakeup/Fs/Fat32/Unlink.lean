/-
# LostWakeup.Fs.Fat32.Unlink — open files whose name is gone.

`unlinkat` takes a file's directory entry away and its `i_nlink` to zero; descriptors may still refer to it.  The code
frees the file when any later `fat32_inode_get` scans its slot, open or not, while the close of the last descriptor
frees nothing.  `unlinked_file_kept` states when the contents are kept.

A system call is one step.  For each open file `Opened` records what the descriptor stands for.
-/
import LostWakeup.Fs.Fat32.InodeTable

namespace LostWakeup.Fs.Fat32

open Library

/-! ## Files and descriptors -/

/-- What a file is made of: its chain and its bytes. -/
structure Contents where
  clusters : List Nat
  data : List UInt8
  deriving DecidableEq

def Inode.contents (inode : Inode) : Contents := ⟨inode.clusters, inode.data⟩

namespace Itable

/-- `fat32_inode_lock`: an inode that is not valid is loaded from the disk. -/
def fat32_inode_lock (t : Itable) (i : Fin NINODE) (disk : Contents) : Itable :=
  if (t.inode i).valid then t
  else
    { t with
      inode := Function.update t.inode i
        { t.inode i with valid := true, clusters := disk.clusters, data := disk.data } }

/-- `fat32_inode_dirlookup` of an entry that is there, and the lock of the inode it returns. -/
def lookup (t : Itable) (k : Key) (disk : Contents) : Option (Itable × Fin NINODE) :=
  (t.fat32_inode_get k).map fun r => (r.1.fat32_inode_lock r.2 disk, r.2)

end Itable

/-- An open file: `f_inode`, and what the descriptor stands for (no step reads it). -/
structure Opened where
  f_inode : Fin NINODE
  /-- Which of the files that its slot has held. -/
  file : Nat
  /-- The contents to keep, once the file is unlinked. -/
  orphan : Option Contents

/-- The inode table with the open files.  `file` counts the files each slot has held. -/
structure Files (F : Type) where
  table : Itable
  ofile : F → Option Opened
  file : Fin NINODE → Nat

inductive FileEvent (F : Type)
  | openat (f : F) (k : Key) (disk : Contents)
  /-- A component of a path is looked up and put. -/
  | lookup (k : Key) (disk : Contents)
  | unlinkat (k : Key) (disk : Contents)
  | read (f : F)
  /-- `store` says what the write does to the bytes, `grown` which clusters it allocates. -/
  | write (f : F) (store : List UInt8 → List UInt8) (grown : List Nat)
  | close (f : F)
  | writeback (ip : Ip)

def files_init (F : Type) (inUse : Nat → Bool) : Files F where
  table := inode_table_init inUse
  ofile := fun _ => none
  file := fun _ => 0

namespace Files

variable {F : Type} [DecidableEq F]

/-- A lookup; a slot that is filled holds one more file. -/
def lookup (s : Files F) (k : Key) (disk : Contents) : Option (Files F × Fin NINODE) :=
  (s.table.lookup k disk).map fun r =>
    ({ s with
        table := r.1
        file := if s.table.slotOf k = none then Function.update s.file r.2 (s.file r.2 + 1) else s.file },
      r.2)

/-- `assist_unlink` of a file whose entry is deleted. -/
def unlink (s : Files F) (i : Fin NINODE) : Files F :=
  let n := { s.table.inode i with i_nlink := (s.table.inode i).i_nlink - 1 }
  { s with
    table := ({ s.table with inode := Function.update s.table.inode i n } : Itable).fat32_inode_put i
    ofile := fun f => (s.ofile f).map fun o =>
      if o.f_inode = i ∧ o.orphan = none then { o with orphan := some (s.table.inode i).contents } else o }

/-- `fat32_inode_write` through an open file. -/
def write (s : Files F) (i : Fin NINODE) (store : List UInt8 → List UInt8) (grown : List Nat) : Files F :=
  let n := s.table.inode i
  { s with
    table :=
      { inode := Function.update s.table.inode i
          { n with clusters := n.clusters ++ grown, data := store n.data, dirty := true }
        inUse := grown.foldl (fun inUse c => Function.update inUse c true) s.table.inUse }
    ofile := fun f => (s.ofile f).map fun o =>
      if o.f_inode = i then
        { o with orphan := o.orphan.map fun c => ⟨c.clusters ++ grown, store c.data⟩ }
      else o }

/-- One event; `none` for a panic, and for a descriptor that is not there. -/
def next (s : Files F) : FileEvent F → Option (Files F)
  | .openat f k disk =>
      if (s.ofile f).isNone then
        (s.lookup k disk).map fun r =>
          { r.1 with ofile := Function.update s.ofile f (some ⟨r.2, r.1.file r.2, none⟩) }
      else none
  | .lookup k disk =>
      (s.lookup k disk).map fun r => { r.1 with table := r.1.table.fat32_inode_put r.2 }
  | .unlinkat k disk => (s.lookup k disk).map fun r => r.1.unlink r.2
  | .read f =>
      match s.ofile f with
      | some o => if 0 < (s.table.inode o.f_inode).ref then some s else none
      | none => none
  | .write f store grown =>
      match s.ofile f with
      | some o => if 0 < (s.table.inode o.f_inode).ref then some (s.write o.f_inode store grown) else none
      | none => none
  | .close f =>
      match s.ofile f with
      | some o =>
          some
            { s with
              table := s.table.fat32_inode_put o.f_inode
              ofile := Function.update s.ofile f none }
      | none => none
  | .writeback ip =>
      some
        { s with
          table :=
            { s.table with
              inode := Function.update s.table.inode ip { s.table.inode ip with dirty := false } } }

end Files

def FileStep {F : Type} [DecidableEq F] (s : Files F) (e : FileEvent F) (s' : Files F) : Prop :=
  s.next e = some s'

/-- On a consistent volume a file that is in no slot has clusters of its own. -/
def Fresh (t : Itable) (disk : Contents) : Prop :=
  ∀ c ∈ disk.clusters, t.inUse c = true ∧ ∀ i : Fin NINODE, 0 < (t.inode i).ref → c ∉ (t.inode i).clusters

/-- The volume is consistent, and the allocator returns free clusters. -/
def VolumeOk {F : Type} (s : Files F) : FileEvent F → Prop
  | .openat _ k disk | .lookup k disk | .unlinkat k disk => s.table.slotOf k = none → Fresh s.table disk
  | .write _ _ grown => ∀ c ∈ grown, s.table.inUse c = false
  | _ => True

def VolumeStep {F : Type} [DecidableEq F] : Files F → FileEvent F → Files F → Prop :=
  Guarded FileStep VolumeOk

instance (t : Itable) (disk : Contents) : Decidable (Fresh t disk) := inferInstanceAs (Decidable (∀ _ ∈ _, _))

instance {F : Type} (s : Files F) (e : FileEvent F) : Decidable (VolumeOk s e) :=
  match e with
  | .openat _ _ _ => inferInstanceAs (Decidable (_ → _))
  | .lookup _ _ => inferInstanceAs (Decidable (_ → _))
  | .unlinkat _ _ => inferInstanceAs (Decidable (_ → _))
  | .read _ => inferInstanceAs (Decidable True)
  | .write _ _ _ => inferInstanceAs (Decidable (∀ _ ∈ _, _))
  | .close _ => inferInstanceAs (Decidable True)
  | .writeback _ => inferInstanceAs (Decidable True)

/-! ## The property and its condition -/

namespace Files

variable {F : Type}

/-- The unlinked file that `o` stands for is still in its slot, with its contents, and its clusters are
in use by it alone. -/
structure Holds (s : Files F) (o : Opened) (c : Contents) : Prop where
  ref : 0 < (s.table.inode o.f_inode).ref
  file : s.file o.f_inode = o.file
  contents : (s.table.inode o.f_inode).contents = c
  inUse : ∀ k ∈ c.clusters, s.table.inUse k = true
  alone : ∀ j : Fin NINODE, j ≠ o.f_inode → 0 < (s.table.inode j).ref → ∀ k ∈ c.clusters,
    k ∉ (s.table.inode j).clusters

/-- Every unlinked file that is open is kept. -/
def Kept (s : Files F) : Prop := ∀ f o c, s.ofile f = some o → o.orphan = some c → s.Holds o c

/-- `f` is the only descriptor of its inode. -/
def Last (s : Files F) (f : F) (o : Opened) : Prop :=
  ∀ f' o', f' ≠ f → s.ofile f' = some o' → o'.f_inode ≠ o.f_inode

/-- After the step every unlinked file that is open is kept, and if it closed the last descriptor of
one, the clusters are free. -/
def Keeps [DecidableEq F] (s : Files F) (e : FileEvent F) : Prop :=
  ∀ s', FileStep s e s' → s'.Kept ∧
    ∀ f o c, e = .close f → s.ofile f = some o → o.orphan = some c → s.Last f o →
      ∀ k ∈ c.clusters, s'.table.inUse k = false

/-- A lookup scans no slot of an unlinked file that is open, and no close is the last one of an unlinked
file with clusters. -/
def Spares (s : Files F) : FileEvent F → Prop
  | .openat _ k _ | .lookup k _ | .unlinkat k _ =>
      ∀ f o, s.ofile f = some o → o.f_inode ∈ s.table.scanned k → o.orphan = none
  | .close f => ∀ o c, s.ofile f = some o → o.orphan = some c → s.Last f o → c.clusters = []
  | _ => True

end Files

/-! ## A sound table -/

namespace Itable

variable {t t' : Itable} {k : Key} {i j : Fin NINODE} {ip : Ip} {n : Inode} {disk : Contents}

/-- Replace one inode. -/
def update (t : Itable) (ip : Ip) (n : Inode) : Itable := { t with inode := Function.update t.inode ip n }

theorem update_self (t : Itable) (ip : Ip) (n : Inode) : (t.update ip n).inode ip = n := Function.update_self ..

theorem update_ne (t : Itable) (n : Inode) {jp : Ip} (h : jp ≠ ip) : (t.update ip n).inode jp = t.inode jp :=
  Function.update_of_ne h ..

/-- Every inode in its slot is loaded, and its clusters are in use by it alone. -/
structure Sound (t : Itable) : Prop where
  valid : ∀ i : Fin NINODE, 0 < (t.inode i).ref → (t.inode i).valid = true
  i_nlink : ∀ i : Fin NINODE, (t.inode i).i_nlink ≤ 1
  used : ∀ i : Fin NINODE, 0 < (t.inode i).ref → ∀ c ∈ (t.inode i).clusters, t.inUse c = true
  apart : ∀ i j : Fin NINODE, i ≠ j → 0 < (t.inode i).ref → 0 < (t.inode j).ref →
    ∀ c ∈ (t.inode i).clusters, c ∉ (t.inode j).clusters

theorem sound_init (inUse : Nat → Bool) : (inode_table_init inUse).Sound where
  valid := fun _ h => absurd h (lt_irrefl 0)
  i_nlink := fun _ => Nat.zero_le 1
  used := fun _ h => absurd h (lt_irrefl 0)
  apart := fun _ _ _ h => absurd h (lt_irrefl 0)

/-- Put a loaded inode, with clusters that are in use by nobody else, into a slot. -/
theorem Sound.update (ht : t.Sound) (hvalid : 0 < n.ref → n.valid = true) (hlink : n.i_nlink ≤ 1)
    (hclusters : ∀ c ∈ n.clusters, 0 < n.ref → t.inUse c = true ∧
      ∀ j : Fin NINODE, j ≠ i → 0 < (t.inode j).ref → c ∉ (t.inode j).clusters) : (t.update i n).Sound := by
  have hne : ∀ j : Fin NINODE, j ≠ i → (t.update i n).inode j = t.inode j := by
    intro j hj
    exact update_ne t n fun heq => hj (Option.some.inj heq)
  refine ⟨fun j hpos => ?_, fun j => ?_, fun j hpos c hc => ?_, fun j j' hjj hpos hpos' c hc => ?_⟩
  · by_cases hj : j = i
    · rw [hj, update_self] at hpos ⊢
      exact hvalid hpos
    · rw [hne j hj] at hpos ⊢
      exact ht.valid j hpos
  · by_cases hj : j = i
    · rw [hj, update_self]
      exact hlink
    · rw [hne j hj]
      exact ht.i_nlink j
  · by_cases hj : j = i
    · rw [hj, update_self] at hpos hc
      exact (hclusters c hc hpos).1
    · rw [hne j hj] at hpos hc
      exact ht.used j hpos c hc
  · by_cases hj : j = i
    · have hj' : j' ≠ i := fun h => hjj (hj.trans h.symm)
      rw [hj, update_self] at hpos hc
      rw [hne j' hj'] at hpos' ⊢
      exact (hclusters c hc hpos).2 j' hj' hpos'
    rw [hne j hj] at hpos hc
    by_cases hj' : j' = i
    · rw [hj', update_self] at hpos' ⊢
      intro hc'
      exact (hclusters c hc' hpos').2 j hj hpos hc
    · rw [hne j' hj'] at hpos' ⊢
      exact ht.apart j j' hjj hpos hpos' c hc

theorem Sound.touch (ht : t.Sound) (href : 0 < n.ref → 0 < (t.inode i).ref)
    (hvalid : n.valid = (t.inode i).valid) (hlink : n.i_nlink ≤ 1) (hclusters : n.clusters = (t.inode i).clusters) :
    (t.update i n).Sound := by
  apply ht.update
  · intro hpos
    rw [hvalid]
    exact ht.valid i (href hpos)
  · exact hlink
  · intro c hc hpos
    rw [hclusters] at hc
    exact ⟨ht.used i (href hpos) c hc, fun j hj hpos' => ht.apart i j hj.symm (href hpos) hpos' c hc⟩

theorem sweep_of_ref {slots : List (Fin NINODE)} (h : 0 < ((t.sweep slots).inode i).ref) :
    (t.sweep slots).inode i = t.inode i := by
  by_cases hu : t.Unlinked i
  · by_cases hi : i ∈ slots
    · rw [sweep_ref hi hu] at h
      exact absurd h (lt_irrefl 0)
    · exact sweep_not_mem fun j hj heq => hi (Option.some.inj heq ▸ hj)
  · exact sweep_of_linked hu slots

theorem Sound.reclaim (ht : t.Sound) (i : Fin NINODE) : (t.reclaim i).Sound := by
  by_cases hu : t.Unlinked i
  · have hself := reclaim_ref hu
    have hlinks : ∀ j : Fin NINODE, ((t.reclaim i).inode j).i_nlink = (t.inode j).i_nlink := by
      intro j
      by_cases hj : j = i
      · subst hj
        rw [Itable.reclaim, if_pos hu, setRef_self, trunc_self]
      · rw [reclaim_ne t fun heq => hj (Option.some.inj heq)]
    have hold : ∀ j : Fin NINODE, 0 < ((t.reclaim i).inode j).ref →
        j ≠ i ∧ (t.reclaim i).inode j = t.inode j ∧ 0 < (t.inode j).ref := by
      intro j hpos
      have hj : j ≠ i := by
        rintro rfl
        rw [hself] at hpos
        exact absurd hpos (lt_irrefl 0)
      have heq : (t.reclaim i).inode j = t.inode j := reclaim_ne t fun heq => hj (Option.some.inj heq)
      exact ⟨hj, heq, heq ▸ hpos⟩
    refine ⟨fun j hpos => ?_, fun j => ?_, fun j hpos c hc => ?_, fun j j' hjj hpos hpos' c hc => ?_⟩
    · obtain ⟨-, heq, hpos⟩ := hold j hpos
      rw [heq]
      exact ht.valid j hpos
    · rw [hlinks]
      exact ht.i_nlink j
    · obtain ⟨hj, heq, hpos⟩ := hold j hpos
      rw [heq] at hc
      rw [reclaim_inUse, ht.used j hpos c hc, Bool.true_and, decide_eq_true_eq]
      intro _
      exact ht.apart j i hj hpos hu.1 c hc
    · obtain ⟨-, heq, hpos⟩ := hold j hpos
      obtain ⟨-, heq', hpos'⟩ := hold j' hpos'
      rw [heq] at hc
      rw [heq']
      exact ht.apart j j' hjj hpos hpos' c hc
  · rw [reclaim_of_not hu]
    exact ht

theorem Sound.sweep (ht : t.Sound) (slots : List (Fin NINODE)) : (t.sweep slots).Sound := by
  induction slots generalizing t with
  | nil => exact ht
  | cons i slots ih => exact ih (ht.reclaim i)

theorem lookup_hit (ht : t.Sound) (hslot : t.slotOf k = some i) (disk : Contents) :
    t.lookup k disk
      = some ((t.sweep (t.scanned k)).update i { t.inode i with ref := (t.inode i).ref + 1 }, i) := by
  have hi := slotOf_matches hslot
  have hlinked : ¬t.Unlinked i := fun hu => hi.2.2 hu.2
  have hset : (t.sweep (t.scanned k)).setRef i ((t.inode i).ref + 1)
      = (t.sweep (t.scanned k)).update i { t.inode i with ref := (t.inode i).ref + 1 } := by
    rw [setRef, sweep_of_linked hlinked, update]
  rw [lookup, get_hit hslot, hset, Option.map_some, fat32_inode_lock, update_self, if_pos (ht.valid i hi.1)]

theorem lookup_miss (hslot : t.slotOf k = none) (h : t.lookup k disk = some (t', i)) :
    ((t.sweep (t.scanned k)).inode i).ref = 0 ∧ ∃ n : Inode,
      t' = (t.sweep (t.scanned k)).update i n ∧ n.ref = 1 ∧ n.valid = true ∧ n.i_nlink = 1 ∧
        n.contents = disk := by
  obtain ⟨⟨t₁, i₁⟩, hget, heq⟩ := Option.map_eq_some_iff.mp h
  obtain ⟨hmatch, -⟩ | ⟨-, hfree, rfl⟩ := get_cases hget
  · exact absurd hmatch (slotOf_eq_none.mp hslot _)
  cases heq
  refine ⟨hfree.1, { (t.sweep (t.scanned k)).inode i₁ with
    ref := 1
    valid := true
    key := k
    i_hash := false
    i_mapping := false
    i_nlink := 1
    clusters := disk.clusters
    data := disk.data }, ?_, rfl, rfl, rfl, rfl⟩
  simp only [fat32_inode_lock, fill_self]
  rw [if_neg (by simp)]
  simp [Itable.update, fill]

end Itable

/-! ## What the guarded steps keep -/

namespace Files

variable {F : Type} {s s' : Files F} {f : F} {o : Opened} {c disk : Contents} {k : Key} {i : Fin NINODE}
  {ip : Ip} {n : Inode}

/-- Every open file is in its slot, and unlinked exactly if it has contents to keep. -/
structure Inv (s : Files F) : Prop where
  sound : s.table.Sound
  taken : ∀ f o, s.ofile f = some o → 0 < (s.table.inode o.f_inode).ref ∧ s.file o.f_inode = o.file
  linked : ∀ f o, s.ofile f = some o → o.orphan = none → (s.table.inode o.f_inode).i_nlink ≠ 0
  orphan : ∀ f o c, s.ofile f = some o → o.orphan = some c →
    (s.table.inode o.f_inode).i_nlink = 0 ∧ (s.table.inode o.f_inode).contents = c

theorem inv_init (inUse : Nat → Bool) : (files_init F inUse).Inv where
  sound := Itable.sound_init inUse
  taken := nofun
  linked := nofun
  orphan := nofun

theorem Inv.kept (h : s.Inv) : s.Kept := by
  intro f o c ho hc
  obtain ⟨hpos, hfile⟩ := h.taken f o ho
  obtain ⟨-, rfl⟩ := h.orphan f o c ho hc
  exact ⟨hpos, hfile, rfl, h.sound.used _ hpos, fun j hj hpos' k hk => h.sound.apart _ j hj.symm hpos hpos' k hk⟩

/-- `n` stands for the same file as `m`, in the same state. -/
def Similar (n m : Inode) : Prop :=
  n.ref = m.ref ∧ n.valid = m.valid ∧ n.i_nlink = m.i_nlink ∧ n.contents = m.contents

theorem Inv.of_seen (h : s.Inv) (hsound : s'.table.Sound) (hofile : s'.ofile = s.ofile)
    (hfile : ∀ f o, s.ofile f = some o → s'.file o.f_inode = s.file o.f_inode)
    (hseen : ∀ f o, s.ofile f = some o → 0 < (s'.table.inode o.f_inode).ref ∧
      (s'.table.inode o.f_inode).i_nlink = (s.table.inode o.f_inode).i_nlink ∧
      (s'.table.inode o.f_inode).contents = (s.table.inode o.f_inode).contents) : s'.Inv := by
  refine ⟨hsound, fun f o ho => ?_, fun f o ho hnone => ?_, fun f o c ho hc => ?_⟩
  · rw [hofile] at ho
    exact ⟨(hseen f o ho).1, (hfile f o ho).trans (h.taken f o ho).2⟩
  · rw [hofile] at ho
    rw [(hseen f o ho).2.1]
    exact h.linked f o ho hnone
  · rw [hofile] at ho
    rw [(hseen f o ho).2.1, (hseen f o ho).2.2]
    exact h.orphan f o c ho hc

theorem Inv.touch (h : s.Inv) (hn : Similar n (s.table.inode ip)) :
    ({ s with table := s.table.update ip n } : Files F).Inv := by
  obtain ⟨href, hvalid, hlink, hcontents⟩ := hn
  refine h.of_seen ?_ rfl (fun _ _ _ => rfl) fun f o ho => ?_
  · cases ip with
    | none => exact ⟨h.sound.valid, h.sound.i_nlink, h.sound.used, h.sound.apart⟩
    | some i =>
      refine h.sound.touch (fun hpos => href ▸ hpos) hvalid ?_ (congrArg Contents.clusters hcontents)
      rw [hlink]
      exact h.sound.i_nlink i
  · show 0 < ((s.table.update ip n).inode o.f_inode).ref ∧ _
    have hpos := (h.taken f o ho).1
    by_cases ho : (o.f_inode : Ip) = ip
    · rw [← ho] at href hlink hcontents ⊢
      rw [Itable.update_self, href]
      exact ⟨hpos, hlink, hcontents⟩
    · rw [Itable.update_ne _ n ho]
      exact ⟨hpos, rfl, rfl⟩

theorem put_similar (t : Itable) (ip : Ip) :
    ∃ n, t.fat32_inode_put ip = t.update ip n ∧ Similar n (t.inode ip) := by
  unfold Itable.fat32_inode_put
  split
  · exact ⟨_, rfl, rfl, rfl, rfl, rfl⟩
  · refine ⟨t.inode ip, ?_, rfl, rfl, rfl, rfl⟩
    rw [Itable.update, Function.update_eq_self]

theorem Inv.put (h : s.Inv) (ip : Ip) : ({ s with table := s.table.fat32_inode_put ip } : Files F).Inv := by
  obtain ⟨n, heq, hn⟩ := put_similar s.table ip
  rw [heq]
  exact h.touch hn

/-- A lookup that spares the open unlinked files. -/
theorem Inv.lookup (h : s.Inv) (hfresh : s.table.slotOf k = none → Fresh s.table disk)
    (hspare : ∀ f o, s.ofile f = some o → o.f_inode ∈ s.table.scanned k → o.orphan = none)
    (hl : s.lookup k disk = some (s', i)) :
    s'.Inv ∧ s'.ofile = s.ofile ∧ 0 < (s'.table.inode i).ref ∧ (s'.table.inode i).i_nlink = 1 := by
  obtain ⟨⟨t, i₁⟩, hlook, heq⟩ := Option.map_eq_some_iff.mp hl
  -- no open file loses its slot to the sweep
  have hstay : ∀ f o, s.ofile f = some o →
      (s.table.sweep (s.table.scanned k)).inode o.f_inode = s.table.inode o.f_inode := by
    intro f o ho
    cases hc : o.orphan with
    | none => exact Itable.sweep_of_linked (fun hu => h.linked f o ho hc hu.2) _
    | some c =>
      apply Itable.sweep_not_mem
      intro j hj heq
      have hnone := hspare f o ho (Option.some.inj heq ▸ hj)
      rw [hc] at hnone
      cases hnone
  have hsound := h.sound.sweep (s.table.scanned k)
  cases hslot : s.table.slotOf k with
  | some j =>
    rw [Itable.lookup_hit h.sound hslot, Option.some.injEq, Prod.mk.injEq] at hlook
    obtain ⟨rfl, rfl⟩ := hlook
    simp only [hslot, if_neg (Option.some_ne_none _)] at heq
    cases heq
    have hi := Itable.slotOf_matches hslot
    have hlink : (s.table.inode i).i_nlink = 1 := by
      have hle := h.sound.i_nlink i
      have hne := hi.2.2
      omega
    have hkeep := Itable.sweep_of_linked (fun hu => hi.2.2 hu.2) (s.table.scanned k)
    refine ⟨h.of_seen ?_ rfl (fun _ _ _ => rfl) fun f o ho => ?_, rfl, ?_⟩
    · refine hsound.touch (fun _ => ?_) ?_ hlink.le ?_
      · rw [hkeep]
        exact hi.1
      · rw [hkeep]
      · rw [hkeep]
    · show 0 < (((s.table.sweep _).update i _).inode o.f_inode).ref ∧ _
      by_cases hoi : o.f_inode = i
      · rw [hoi, Itable.update_self]
        exact ⟨Nat.succ_pos _, rfl, rfl⟩
      · rw [Itable.update_ne _ _ fun heq => hoi (Option.some.inj heq), hstay f o ho]
        exact ⟨(h.taken f o ho).1, rfl, rfl⟩
    · rw [Itable.update_self]
      exact ⟨Nat.succ_pos _, hlink⟩
  | none =>
    obtain ⟨hfree, n, rfl, href, hvalid, hlink, hcontents⟩ := Itable.lookup_miss hslot hlook
    simp only [hslot, if_true] at heq
    cases heq
    have hother : ∀ f o, s.ofile f = some o → o.f_inode ≠ i := by
      rintro f o ho rfl
      rw [hstay f o ho] at hfree
      exact absurd hfree (Nat.pos_iff_ne_zero.mp (h.taken f o ho).1)
    refine ⟨h.of_seen ?_ rfl (fun f o ho => Function.update_of_ne (hother f o ho) ..) fun f o ho => ?_, rfl, ?_⟩
    · refine hsound.update (fun _ => hvalid) hlink.le fun c hc _ => ?_
      have hclus : n.clusters = disk.clusters := congrArg Contents.clusters hcontents
      rw [hclus] at hc
      obtain ⟨huse, halone⟩ := hfresh hslot c hc
      refine ⟨(Itable.sweep_inUse _ _ _).mpr ⟨huse, fun j _ hu => halone j hu.1⟩, fun j _ hpos => ?_⟩
      have hsame := Itable.sweep_of_ref hpos
      rw [hsame] at hpos ⊢
      exact halone j hpos
    · show 0 < (((s.table.sweep _).update i n).inode o.f_inode).ref ∧ _
      rw [Itable.update_ne _ _ fun heq => hother f o ho (Option.some.inj heq), hstay f o ho]
      exact ⟨(h.taken f o ho).1, rfl, rfl⟩
    · rw [Itable.update_self, href, hlink]
      exact ⟨Nat.one_pos, rfl⟩

/-- The slot was given up, or holds another file by now. -/
def Gone (s : Files F) (o : Opened) : Prop :=
  (s.table.inode o.f_inode).ref = 0 ∨ s.file o.f_inode ≠ o.file

theorem not_holds_of_gone (h : s.Gone o) (c : Contents) : ¬s.Holds o c := by
  intro hh
  obtain hzero | hother := h
  · exact absurd hzero (Nat.pos_iff_ne_zero.mp hh.ref)
  · exact hother hh.file

theorem lookup_ofile (hl : s.lookup k disk = some (s', i)) : s'.ofile = s.ofile := by
  obtain ⟨r, -, heq⟩ := Option.map_eq_some_iff.mp hl
  cases heq
  rfl

/-- A lookup that scans the slot of an open unlinked file takes the slot away. -/
theorem Inv.gone (h : s.Inv) (hl : s.lookup k disk = some (s', i)) (ho : s.ofile f = some o)
    (hc : o.orphan = some c) (hmem : o.f_inode ∈ s.table.scanned k) : s'.Gone o := by
  obtain ⟨⟨t, i₁⟩, hlook, heq⟩ := Option.map_eq_some_iff.mp hl
  have hpos := (h.taken f o ho).1
  have hzero := Itable.sweep_ref hmem ⟨hpos, (h.orphan f o c ho hc).1⟩
  cases hslot : s.table.slotOf k with
  | some j =>
    rw [Itable.lookup_hit h.sound hslot, Option.some.injEq, Prod.mk.injEq] at hlook
    obtain ⟨rfl, rfl⟩ := hlook
    cases heq
    left
    have hoi : o.f_inode ≠ j := by
      rintro rfl
      exact (Itable.slotOf_matches hslot).2.2 (h.orphan f o c ho hc).1
    show (((s.table.sweep _).update j _).inode o.f_inode).ref = 0
    rw [Itable.update_ne _ _ fun heq => hoi (Option.some.inj heq)]
    exact hzero
  | none =>
    obtain ⟨-, n, rfl, -⟩ := Itable.lookup_miss hslot hlook
    simp only [hslot, if_true] at heq
    cases heq
    by_cases hoi : o.f_inode = i
    · right
      show Function.update s.file i _ o.f_inode ≠ o.file
      rw [hoi, Function.update_self, ← (h.taken f o ho).2, hoi]
      exact Nat.succ_ne_self _
    left
    show (((s.table.sweep _).update i n).inode o.f_inode).ref = 0
    rw [Itable.update_ne _ _ fun heq => hoi (Option.some.inj heq)]
    exact hzero

/-- The name of a linked file goes. -/
theorem Inv.unlink (h : s.Inv) (hpos : 0 < (s.table.inode i).ref) (hlink : (s.table.inode i).i_nlink = 1) :
    (s.unlink i).Inv := by
  obtain ⟨m, hput, hmref, hmvalid, hmlink, hmcontents⟩ := put_similar
    (s.table.update i { s.table.inode i with i_nlink := (s.table.inode i).i_nlink - 1 }) (i : Ip)
  rw [Itable.update_self] at hmref hmvalid hmlink hmcontents
  have htable : (s.unlink i).table = s.table.update i m := by
    show Itable.fat32_inode_put (s.table.update i _) i = _
    rw [hput, Itable.update, Itable.update, Itable.update, Function.update_idem]
  have hzero : m.i_nlink = 0 := by rw [hmlink, hlink]
  have hself : (s.unlink i).table.inode i = m := by rw [htable, Itable.update_self]
  have hne : ∀ j : Fin NINODE, j ≠ i → (s.unlink i).table.inode j = s.table.inode j := by
    intro j hj
    rw [htable]
    exact Itable.update_ne _ m fun heq => hj (Option.some.inj heq)
  -- which open file an open file was
  have hold : ∀ f o, (s.unlink i).ofile f = some o → ∃ o₀, s.ofile f = some o₀ ∧ o.f_inode = o₀.f_inode ∧
      o.file = o₀.file ∧ (o.f_inode = i → o.orphan = some (s.table.inode i).contents) ∧
      (o.f_inode ≠ i → o.orphan = o₀.orphan) := by
    intro f o ho
    obtain ⟨o₀, ho₀, rfl⟩ := Option.map_eq_some_iff.mp ho
    refine ⟨o₀, ho₀, ?_⟩
    by_cases hoi : o₀.f_inode = i
    · have hnone : o₀.orphan = none := by
        cases hc : o₀.orphan with
        | none => rfl
        | some c =>
          have hno := (h.orphan f o₀ c ho₀ hc).1
          rw [hoi, hlink] at hno
          cases hno
      simp [hoi, hnone]
    · simp [hoi]
  refine ⟨?_, fun f o ho => ?_, fun f o ho hnone => ?_, fun f o c ho hc => ?_⟩
  · rw [htable]
    refine h.sound.touch (fun _ => hpos) hmvalid (hzero ▸ Nat.zero_le 1) (congrArg Contents.clusters hmcontents)
  · obtain ⟨o₀, ho₀, hinode, hfile, -⟩ := hold f o ho
    obtain ⟨hp, hf⟩ := h.taken f o₀ ho₀
    refine ⟨?_, ?_⟩
    · by_cases hoi : o.f_inode = i
      · rw [hoi, hself, hmref]
        exact hpos
      · rw [hne _ hoi, hinode]
        exact hp
    · show s.file o.f_inode = o.file
      rw [hinode, hfile, hf]
  · obtain ⟨o₀, ho₀, hinode, -, hself', hother⟩ := hold f o ho
    by_cases hoi : o.f_inode = i
    · rw [hself' hoi] at hnone
      cases hnone
    · rw [hne _ hoi, hinode]
      exact h.linked f o₀ ho₀ (hother hoi ▸ hnone)
  · obtain ⟨o₀, ho₀, hinode, -, hself', hother⟩ := hold f o ho
    by_cases hoi : o.f_inode = i
    · rw [hself' hoi, Option.some.injEq] at hc
      rw [hoi, hself]
      exact ⟨hzero, hmcontents.trans hc⟩
    · rw [hne _ hoi, hinode]
      exact h.orphan f o₀ c ho₀ (hother hoi ▸ hc)

theorem unlink_ref (s : Files F) (i : Fin NINODE) (j : Ip) :
    ((s.unlink i).table.inode j).ref = (s.table.inode j).ref := by
  obtain ⟨m, hput, hmref, -⟩ := put_similar
    (s.table.update i { s.table.inode i with i_nlink := (s.table.inode i).i_nlink - 1 }) (i : Ip)
  rw [Itable.update_self] at hmref
  show ((Itable.fat32_inode_put (s.table.update i _) i).inode j).ref = _
  rw [hput]
  by_cases hj : j = some i
  · rw [hj, Itable.update_self, hmref]
  · rw [Itable.update_ne _ m hj, Itable.update_ne _ _ hj]

theorem foldl_take (grown : List Nat) (inUse : Nat → Bool) (k : Nat) :
    grown.foldl (fun inUse c => Function.update inUse c true) inUse k = (inUse k || decide (k ∈ grown)) := by
  induction grown generalizing inUse with
  | nil => simp
  | cons d grown ih =>
    rw [List.foldl_cons, ih]
    by_cases hk : k = d
    · subst hk
      simp
    · simp [hk]

/-- A write reaches the contents that the descriptors of its file have to see. -/
theorem Inv.write (h : s.Inv) (ho : s.ofile f = some o) {grown : List Nat}
    (hgrown : ∀ k ∈ grown, s.table.inUse k = false) (store : List UInt8 → List UInt8) :
    (s.write o.f_inode store grown).Inv := by
  have hpos := (h.taken f o ho).1
  generalize o.f_inode = i at hpos
  generalize hw : s.write i store grown = s'
  have hself : s'.table.inode i = { s.table.inode i with
      clusters := (s.table.inode i).clusters ++ grown
      data := store (s.table.inode i).data
      dirty := true } := by
    rw [← hw]
    exact Function.update_self ..
  have hne : ∀ j : Fin NINODE, j ≠ i → s'.table.inode j = s.table.inode j := by
    intro j hj
    rw [← hw]
    exact Function.update_of_ne (fun heq => hj (Option.some.inj heq)) ..
  have hlinks : ∀ j : Fin NINODE, (s'.table.inode j).ref = (s.table.inode j).ref ∧
      (s'.table.inode j).i_nlink = (s.table.inode j).i_nlink ∧
      (s'.table.inode j).valid = (s.table.inode j).valid := by
    intro j
    by_cases hj : j = i
    · rw [hj, hself]
      exact ⟨rfl, rfl, rfl⟩
    · rw [hne j hj]
      exact ⟨rfl, rfl, rfl⟩
  have huse : ∀ k, s'.table.inUse k = (s.table.inUse k || decide (k ∈ grown)) := by
    intro k
    rw [← hw]
    exact foldl_take grown s.table.inUse k
  have hfresh : ∀ j : Fin NINODE, 0 < (s.table.inode j).ref → ∀ k ∈ grown, k ∉ (s.table.inode j).clusters := by
    intro j hj k hk hmem
    have hin := h.sound.used j hj k hmem
    rw [hgrown k hk] at hin
    cases hin
  have hclus : ∀ j : Fin NINODE, ∀ k ∈ (s'.table.inode j).clusters,
      k ∈ (s.table.inode j).clusters ∨ j = i ∧ k ∈ grown := by
    intro j k hk
    by_cases hj : j = i
    · subst hj
      rw [hself] at hk
      exact (List.mem_append.mp hk).imp id fun hk => ⟨rfl, hk⟩
    · rw [hne j hj] at hk
      exact .inl hk
  have hold : ∀ f o, s'.ofile f = some o → ∃ o₀, s.ofile f = some o₀ ∧ o.f_inode = o₀.f_inode ∧
      o.file = o₀.file ∧ o.orphan = if o₀.f_inode = i then
        o₀.orphan.map fun c => ⟨c.clusters ++ grown, store c.data⟩ else o₀.orphan := by
    intro f o ho
    rw [← hw] at ho
    obtain ⟨o₀, ho₀, rfl⟩ := Option.map_eq_some_iff.mp ho
    refine ⟨o₀, ho₀, ?_⟩
    split <;> exact ⟨rfl, rfl, rfl⟩
  refine ⟨⟨fun j hj => ?_, fun j => ?_, fun j hj k hk => ?_, fun j j' hjj hj hj' k hk hk' => ?_⟩, fun f o ho => ?_,
    fun f o ho hnone => ?_, fun f o c ho hc => ?_⟩
  · rw [(hlinks j).2.2]
    exact h.sound.valid j ((hlinks j).1 ▸ hj)
  · rw [(hlinks j).2.1]
    exact h.sound.i_nlink j
  · rw [(hlinks j).1] at hj
    rw [huse, Bool.or_eq_true, decide_eq_true_eq]
    exact (hclus j k hk).imp (h.sound.used j hj k) And.right
  · rw [(hlinks j).1] at hj
    rw [(hlinks j').1] at hj'
    obtain hk | ⟨rfl, hk⟩ := hclus j k hk
    · obtain hk' | ⟨-, hk'⟩ := hclus j' k hk'
      · exact h.sound.apart j j' hjj hj hj' k hk hk'
      · exact hfresh j hj k hk' hk
    · obtain hk' | ⟨rfl, -⟩ := hclus j' k hk'
      · exact hfresh j' hj' k hk hk'
      · exact hjj rfl
  · obtain ⟨o₀, ho₀, hinode, hfile, -⟩ := hold f o ho
    obtain ⟨hp, hf⟩ := h.taken f o₀ ho₀
    rw [hinode, hfile, (hlinks _).1]
    have hsame : s'.file = s.file := by rw [← hw]; rfl
    rw [hsame]
    exact ⟨hp, hf⟩
  · obtain ⟨o₀, ho₀, hinode, -, horph⟩ := hold f o ho
    rw [hinode, (hlinks _).2.1]
    apply h.linked f o₀ ho₀
    rw [horph] at hnone
    split at hnone
    · exact Option.map_eq_none_iff.mp hnone
    · exact hnone
  · obtain ⟨o₀, ho₀, hinode, -, horph⟩ := hold f o ho
    rw [hinode, (hlinks _).2.1]
    rw [horph] at hc
    split at hc
    · next hoi =>
      obtain ⟨c₀, hc₀, rfl⟩ := Option.map_eq_some_iff.mp hc
      obtain ⟨hz, hcont⟩ := h.orphan f o₀ c₀ ho₀ hc₀
      refine ⟨hz, ?_⟩
      rw [hoi] at hcont ⊢
      rw [hself, ← hcont]
      rfl
    · next hoi =>
      rw [hne _ hoi]
      exact h.orphan f o₀ c ho₀ hc

/-! ## The theorem -/

variable [DecidableEq F]

/-- A new descriptor of a linked file. -/
theorem Inv.open (h : s.Inv) (hpos : 0 < (s.table.inode i).ref) (hlink : (s.table.inode i).i_nlink = 1) (f : F) :
    ({ s with ofile := Function.update s.ofile f (some ⟨i, s.file i, none⟩) } : Files F).Inv := by
  have hold : ∀ f' o, Function.update s.ofile f (some ⟨i, s.file i, none⟩) f' = some o →
      o = ⟨i, s.file i, none⟩ ∨ s.ofile f' = some o := by
    intro f' o ho
    by_cases hf : f' = f
    · rw [hf, Function.update_self, Option.some.injEq] at ho
      exact .inl ho.symm
    · rw [Function.update_of_ne hf] at ho
      exact .inr ho
  refine ⟨h.sound, fun f' o ho => ?_, fun f' o ho hnone => ?_, fun f' o c ho hc => ?_⟩
  · obtain rfl | ho := hold f' o ho
    · exact ⟨hpos, rfl⟩
    · exact h.taken f' o ho
  · obtain rfl | ho := hold f' o ho
    · show (s.table.inode i).i_nlink ≠ 0
      rw [hlink]
      exact one_ne_zero
    · exact h.linked f' o ho hnone
  · obtain rfl | ho := hold f' o ho
    · cases hc
    · exact h.orphan f' o c ho hc

theorem Inv.close (h : s.Inv) (f : F) : ({ s with ofile := Function.update s.ofile f none } : Files F).Inv := by
  have hold : ∀ f' o, Function.update s.ofile f none f' = some o → s.ofile f' = some o := by
    intro f' o ho
    by_cases hf : f' = f
    · rw [hf, Function.update_self] at ho
      cases ho
    · rwa [Function.update_of_ne hf] at ho
  exact ⟨h.sound, fun f' o ho => h.taken f' o (hold f' o ho), fun f' o ho => h.linked f' o (hold f' o ho),
    fun f' o c ho => h.orphan f' o c (hold f' o ho)⟩

/-- The steps that meet the condition keep the invariant. -/
theorem Inv.step {e : FileEvent F} (h : s.Inv) (hspares : s.Spares e) (hstep : VolumeStep s e s') : s'.Inv := by
  obtain ⟨hok, hnext⟩ := hstep
  unfold FileStep next at hnext
  cases e with
  | openat f k disk =>
    obtain ⟨-, hmap⟩ := Option.ite_none_right_eq_some.mp hnext
    obtain ⟨⟨s₁, i⟩, hl, rfl⟩ := Option.map_eq_some_iff.mp hmap
    obtain ⟨hinv, hofile, hpos, hlink⟩ := h.lookup hok hspares hl
    rw [← hofile]
    exact hinv.open hpos hlink f
  | lookup k disk =>
    obtain ⟨⟨s₁, i⟩, hl, rfl⟩ := Option.map_eq_some_iff.mp hnext
    exact (h.lookup hok hspares hl).1.put i
  | unlinkat k disk =>
    obtain ⟨⟨s₁, i⟩, hl, rfl⟩ := Option.map_eq_some_iff.mp hnext
    obtain ⟨hinv, -, hpos, hlink⟩ := h.lookup hok hspares hl
    exact hinv.unlink hpos hlink
  | read f =>
    simp only at hnext
    split at hnext
    · obtain ⟨-, heq⟩ := Option.ite_none_right_eq_some.mp hnext
      cases heq
      exact h
    · cases hnext
  | write f store grown =>
    simp only at hnext
    split at hnext
    · next o ho =>
      obtain ⟨-, heq⟩ := Option.ite_none_right_eq_some.mp hnext
      cases heq
      exact h.write ho hok store
    · cases hnext
  | close f =>
    simp only at hnext
    split at hnext
    · next o ho =>
      cases hnext
      exact (h.put o.f_inode).close f
    · cases hnext
  | writeback ip =>
    cases hnext
    exact h.touch ⟨rfl, rfl, rfl, rfl⟩

/-- A lookup that takes the slot of an open unlinked file away is followed by nothing that gives it
back. -/
theorem Inv.spares_of_keeps {e : FileEvent F} (h : s.Inv) (hstep : VolumeStep s e s') (hkeeps : s.Keeps e) :
    s.Spares e := by
  obtain ⟨hok, hnext⟩ := hstep
  obtain ⟨hkept, hfreed⟩ := hkeeps s' hnext
  unfold FileStep next at hnext
  cases e with
  | openat f k disk =>
    intro f' o ho hmem
    by_contra hne
    obtain ⟨c, hc⟩ := Option.ne_none_iff_exists'.mp hne
    obtain ⟨hfree, hmap⟩ := Option.ite_none_right_eq_some.mp hnext
    obtain ⟨⟨s₁, i⟩, hl, rfl⟩ := Option.map_eq_some_iff.mp hmap
    have hf : f' ≠ f := by
      rintro rfl
      rw [ho] at hfree
      cases hfree
    have hgone : s₁.Gone o := h.gone hl ho hc hmem
    have hgone' : ({ s₁ with ofile := Function.update s.ofile f (some ⟨i, s₁.file i, none⟩) } : Files F).Gone o :=
      hgone
    exact not_holds_of_gone hgone' c (hkept f' o c ((Function.update_of_ne hf ..).trans ho) hc)
  | lookup k disk =>
    intro f o ho hmem
    by_contra hne
    obtain ⟨c, hc⟩ := Option.ne_none_iff_exists'.mp hne
    obtain ⟨⟨s₁, i⟩, hl, rfl⟩ := Option.map_eq_some_iff.mp hnext
    have hgone : s₁.Gone o := h.gone hl ho hc hmem
    have hofile := lookup_ofile hl
    have hgone' : ({ s₁ with table := s₁.table.fat32_inode_put i } : Files F).Gone o := by
      refine hgone.imp (fun hzero => ?_) id
      exact Held.put_ref.trans hzero
    exact not_holds_of_gone hgone' c (hkept f o c ((congrFun hofile f).trans ho) hc)
  | unlinkat k disk =>
    intro f o ho hmem
    by_contra hne
    obtain ⟨c, hc⟩ := Option.ne_none_iff_exists'.mp hne
    obtain ⟨⟨s₁, i⟩, hl, rfl⟩ := Option.map_eq_some_iff.mp hnext
    have hgone : s₁.Gone o := h.gone hl ho hc hmem
    have hofile := lookup_ofile hl
    have hgone' : (s₁.unlink i).Gone o := by
      refine hgone.imp (fun hzero => ?_) id
      exact (unlink_ref s₁ i o.f_inode).trans hzero
    have ho' : (s₁.unlink i).ofile f = some o := by
      show (s₁.ofile f).map _ = some o
      rw [hofile, ho]
      simp [hc]
    exact not_holds_of_gone hgone' c (hkept f o c ho' hc)
  | read f => trivial
  | write f store grown => trivial
  | close f =>
    intro o c ho hc hlast
    simp only [ho] at hnext
    cases hnext
    apply List.eq_nil_iff_forall_not_mem.mpr
    intro k hk
    have hno := hfreed f o c rfl ho hc hlast k hk
    have hin : s.table.inUse k = true := (h.kept f o c ho hc).inUse k hk
    have hsame : (s.table.fat32_inode_put o.f_inode).inUse = s.table.inUse := by
      unfold Itable.fat32_inode_put
      split <;> rfl
    rw [hsame, hin] at hno
    cases hno
  | writeback ip => trivial

theorem Inv.keeps_iff {e : FileEvent F} (h : s.Inv) (hstep : VolumeStep s e s') : s.Keeps e ↔ s.Spares e := by
  constructor
  · exact h.spares_of_keeps hstep
  intro hspares s₁ hs₁
  refine ⟨(h.step hspares ⟨hstep.1, hs₁⟩).kept, ?_⟩
  rintro f o c rfl ho hc hlast k hk
  rw [hspares o c ho hc hlast] at hk
  cases hk

/-- **Unlinked but open files.** On a consistent volume, the runs in which every unlinked file that is
open keeps its inode, its contents and its clusters, and has its clusters freed by the close of its last
descriptor, are those in which no lookup scans the slot of such a file and none with clusters is closed
for the last time. -/
theorem unlinked_file_kept (inUse : Nat → Bool) (es : List (FileEvent F)) (s : Files F) :
    Run (Guarded VolumeStep Keeps) (files_init F inUse) es s ↔
      Run (Guarded VolumeStep Spares) (files_init F inUse) es s := by
  refine Run.guarded_iff (I := Inv) ?_ ?_ (inv_init inUse)
  · intro s e s' h hspares hstep
    exact h.step hspares hstep
  · intro s e s' h hstep
    exact h.keeps_iff hstep

/-- A file is opened and unlinked, then another one is looked up: the descriptor reads the other file, and its cluster
is free. -/
theorem descriptor_reads_another_file : ∃ (s : Files Bool) (o : Opened),
    Run VolumeStep (files_init Bool fun _ => true)
      [.openat false ⟨1, none, 1, [97]⟩ ⟨[5], [1, 2]⟩, .unlinkat ⟨1, none, 1, [97]⟩ ⟨[], []⟩,
        .lookup ⟨1, none, 2, [98]⟩ ⟨[6], [3]⟩] s ∧
      s.ofile false = some o ∧ o.orphan = some ⟨[5], [1, 2]⟩ ∧
      (s.table.inode o.f_inode).contents = ⟨[6], [3]⟩ ∧ s.table.inUse 5 = false ∧ ¬s.Kept := by
  generalize hes : ([.openat false ⟨1, none, 1, [97]⟩ ⟨[5], [1, 2]⟩, .unlinkat ⟨1, none, 1, [97]⟩ ⟨[], []⟩,
    .lookup ⟨1, none, 2, [98]⟩ ⟨[6], [3]⟩] : List (FileEvent Bool)) = es
  have hseen : ((exec (fun (s : Files Bool) e => if VolumeOk s e then s.next e else none)
      (files_init Bool fun _ => true) es).bind fun s => (s.ofile false).map fun o =>
        (o.orphan, (s.table.inode o.f_inode).contents, s.table.inUse 5))
      = some (some ⟨[5], [1, 2]⟩, ⟨[6], [3]⟩, false) := by
    rw [← hes]
    decide +kernel
  obtain ⟨s, hs, hmap⟩ := Option.bind_eq_some_iff.mp hseen
  obtain ⟨o, ho, heq⟩ := Option.map_eq_some_iff.mp hmap
  rw [Prod.mk.injEq, Prod.mk.injEq] at heq
  obtain ⟨horphan, hcontents, hfree⟩ := heq
  have hrun : Run VolumeStep (files_init Bool fun _ => true) es s := by
    apply (run_of_exec _ _ _ hs).mono
    intro s e s' h
    exact Option.ite_none_right_eq_some.mp h
  refine ⟨s, o, hrun, ho, horphan, hcontents, hfree, fun hkept => ?_⟩
  have hc := (hkept false o _ ho horphan).contents
  rw [hcontents] at hc
  exact absurd hc (by decide)

end Files

end LostWakeup.Fs.Fat32
