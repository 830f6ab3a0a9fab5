/-
# LostWakeup.Fs.Fat32.OneInode — `src/fs/fat32/fat32_inode.c`: does an entry of a directory have one inode?

`inode_unique` names what must not meet for two linked inodes never to describe one entry: a name with the entry of
another one of its hash, a lookup with another lookup or the unlink of its entry, a left-over parent with an offset that is taken there, two calls that give up one
slot or take one, a file with a directory that is gone.
-/
import Mathlib.Data.Fintype.Basic
import LostWakeup.Fs.Fat32.InodeTable
import LostWakeup.Fs.Fat32.SlotScan
import LostWakeup.Library.Run

namespace LostWakeup.Fs.Fat32.OneInode

open Library

/-! ## What must not meet -/

namespace System

variable {T : Type} {n : Nat}

/-- No two linked inodes describe one entry. -/
def Unique (s : System T n) : Prop := ∀ i j p off, s.Live i → s.Live j → s.At i p off → s.At j p off → i = j

/-- A call of `fat32_inode_get` is at work on the entry of `p` at `off`. -/
def Wanted (s : System T n) (p : Ip n) (off : UInt32) : Prop :=
  ∃ t, ∃ k ∈ (s.call t).key, k.dp = p ∧ k.parentoff = off

instance instDecidableWanted [Fintype T] (s : System T n) (p : Ip n) (off : UInt32) : Decidable (s.Wanted p off) :=
  inferInstanceAs (Decidable (∃ t, ∃ k ∈ (s.call t).key, _))

/-- The slot has been handed out and its `parent` is not set yet. -/
def Pending (s : System T n) (i : Fin n) : Prop := ∃ t, ∃ r ∈ (s.call t).pending, r.2 = i

instance instDecidablePending [Fintype T] (s : System T n) (i : Fin n) : Decidable (s.Pending i) :=
  inferInstanceAs (Decidable (∃ t, ∃ r ∈ (s.call t).pending, _))

/-- The slot is being given up. -/
def GivenUp (s : System T n) (i : Fin n) : Prop := ∃ t, (s.call t).truncating = some i

instance instDecidableGivenUp [Fintype T] (s : System T n) (i : Fin n) : Decidable (s.GivenUp i) :=
  inferInstanceAs (Decidable (∃ t, (s.call t).truncating = some i))

/-- What a call meets at its next step; after `got`, at the unlink. -/
def CallOk (s : System T n) : Call n → Prop
  | .scan _ _ (i :: _) => s.Unlinked i → ¬s.GivenUp i
  | .scan k (some e) [] =>
    (s.slot e).ref = 0 ∧
      ∀ p ∈ (s.slot e).parent, p ≠ k.dp → ¬s.Wanted p k.parentoff ∧ ∀ j, s.Live j → ¬s.At j p k.parentoff
  | .got k _ => ¬s.Wanted k.dp k.parentoff
  | _ => True

/-- What an event meets. -/
def Ok (s : System T n) : Event T n → Prop
  | .fat32_inode_alloc _ dp _ _ => ∀ p ∈ dp, s.Live p
  | .fat32_inode_get _ dp off name =>
    s.entry dp off = some name ∧ ¬s.Wanted dp off ∧ ∀ i, s.Pending i → ¬s.At i dp off
  | .run t _ => s.CallOk (s.call t)
  | .unlink t => s.CallOk (s.call t)
  | _ => True

/-! ## The invariant -/

/-- Every linked inode sits at its entry, unless its parent has yet to be set; every call looks for an entry that is
there, has not passed its inode, and has the entry to itself. -/
structure Inv (s : System T n) : Prop where
  link : ∀ i, (s.slot i).i_nlink ≤ 1 ∧ ((s.slot i).ref = 0 → (s.slot i).i_nlink = 0)
  op : ∀ i, s.Live i → (s.slot i).i_op = true
  dev : ∀ i, (s.slot i).i_op = true → (s.slot i).i_dev = s.rootdev
  dead : ∀ i, ¬s.Live i → s.names (some i) = []
  wants : ∀ t k, (s.call t).key = some k → s.entry k.dp k.parentoff = some k.name ∧ k.dev = s.rootdev
  alone : ∀ t t' k k', (s.call t).key = some k → (s.call t').key = some k' → k.dp = k'.dp →
    k.parentoff = k'.parentoff → t = t'
  sees : ∀ t k j, (s.call t).key = some k → s.Live j → s.At j k.dp k.parentoff → (s.call t).Sees j
  holds : ∀ t k empty i slots, s.call t = .trunc k empty i slots → s.i_sem (some i) = some t
  gone : ∀ t i, (s.call t).truncating = some i → s.Unlinked i
  once : ∀ t t' i, (s.call t).truncating = some i → (s.call t').truncating = some i → t = t'
  given : ∀ t k i, (s.call t).pending = some (k, i) →
    s.Live i ∧ (s.slot i).parent_off = k.parentoff ∧ (s.slot i).fname = k.name
  own : ∀ t t' k k' i, (s.call t).pending = some (k, i) → (s.call t').pending = some (k', i) → t = t'
  -- a parent that was left over in a slot
  left : ∀ t k i p, (s.call t).pending = some (k, i) → (s.slot i).parent = some p → p ≠ k.dp →
    ¬s.Wanted p k.parentoff ∧ ∀ t' k', (s.call t').found ≠ some (k', i)
  found : ∀ t k i, (s.call t).found = some (k, i) →
    s.i_sem k.dp = some t ∧ s.Live i ∧ s.At i k.dp k.parentoff ∧ s.entry k.dp k.parentoff = some k.name
  placed : ∀ i, s.Live i → ¬s.Pending i →
    ∃ p, (s.slot i).parent = some p ∧ s.entry p (s.slot i).parent_off = some (s.slot i).fname
  unique : s.Unique

theorem inv_init (T : Type) (n : Nat) (rootdev : UInt32) (root : Entries) :
    (inode_table_init T n rootdev root).Inv where
  link _ := ⟨Nat.zero_le _, fun _ => rfl⟩
  op _ h := absurd h.1 (lt_irrefl 0)
  dev _ h := Bool.noConfusion h
  dead _ _ := rfl
  wants _ _ h := by cases h
  alone _ _ _ _ h := by cases h
  sees _ _ _ h := by cases h
  holds _ _ _ _ _ h := by cases h
  gone _ _ h := by cases h
  once _ _ _ h := by cases h
  given _ _ _ h := by cases h
  own _ _ _ _ _ h := by cases h
  left _ _ _ _ h := by cases h
  found _ _ _ h := by cases h
  placed _ h := absurd h.1 (lt_irrefl 0)
  unique _ _ _ _ h := absurd h.1 (lt_irrefl 0)

section

variable {s s' : System T n} {t t' : T} {c : Call n} {i j : Fin n} {k : Key n} {p : Ip n} {off : UInt32}

section

variable [DecidableEq T]

theorem wanted_setCall (h : c.key = (s.call t).key) : (s.setCall t c).Wanted p off ↔ s.Wanted p off := by
  simp only [Wanted, of_setCall Call.key h]

theorem pending_setCall (h : c.pending = (s.call t).pending) : (s.setCall t c).Pending i ↔ s.Pending i := by
  simp only [Pending, of_setCall Call.pending h]

/-! ## The invariant at one change -/

@[grind =] theorem call_setCall (s : System T n) (t : T) (c : Call n) (t' : T) :
    (s.setCall t c).call t' = if t' = t then c else s.call t' := Function.update_apply ..

@[grind =] theorem slot_setCall (s : System T n) (t : T) (c : Call n) : (s.setCall t c).slot = s.slot := rfl

@[grind =] theorem i_sem_setCall (s : System T n) (t : T) (c : Call n) : (s.setCall t c).i_sem = s.i_sem := rfl

@[grind =] theorem entry_setCall (s : System T n) (t : T) (c : Call n) (p : Ip n) (off : UInt32) :
    (s.setCall t c).entry p off = s.entry p off := rfl

@[grind =] theorem rootdev_setCall (s : System T n) (t : T) (c : Call n) : (s.setCall t c).rootdev = s.rootdev := rfl

end

@[grind =] theorem slot_setSlot (s : System T n) (i : Fin n) (x : Inode n) (j : Fin n) :
    (s.setSlot i x).slot j = if j = i then x else s.slot j := Function.update_apply ..

@[grind =] theorem rootdev_setSlot (s : System T n) (i : Fin n) (x : Inode n) : (s.setSlot i x).rootdev = s.rootdev := rfl

attribute [grind =] Live At Unlinked

theorem Inv.setLock (h : s.Inv) (l : Option T) : (s.setLock l).Inv where
  link := h.link
  op := h.op
  dev := h.dev
  dead := h.dead
  wants := h.wants
  alone := h.alone
  sees := h.sees
  holds := h.holds
  gone := h.gone
  once := h.once
  given := h.given
  own := h.own
  left := h.left
  found := h.found
  placed := h.placed
  unique := h.unique

/-- A semaphore that is free or that its holder gives back. -/
theorem Inv.setSem (h : s.Inv) {ip : Ip n} (l : Option T)
    (hip : ∀ t, s.i_sem ip = some t → (s.call t).found = none ∧ ∀ k empty i slots, s.call t ≠ .trunc k empty i slots) :
    (s.setSem ip l).Inv where
  link := h.link
  op := h.op
  dev := h.dev
  dead := h.dead
  wants := h.wants
  alone := h.alone
  sees := h.sees
  holds t k empty i slots hcall := by
    have hold := h.holds t k empty i slots hcall
    have hne : some i ≠ ip := by
      rintro rfl
      exact (hip t hold).2 k empty i slots hcall
    exact (Function.update_of_ne hne ..).trans hold
  gone := h.gone
  once := h.once
  given := h.given
  own := h.own
  left := h.left
  found t k i hfound := by
    obtain ⟨hsem, hrest⟩ := h.found t k i hfound
    have hne : k.dp ≠ ip := by
      rintro rfl
      cases (hip t hsem).1.symm.trans hfound
    exact ⟨(Function.update_of_ne hne ..).trans hsem, hrest⟩
  placed := h.placed
  unique := h.unique

variable [DecidableEq T] in
/-- One call changes. -/
theorem Inv.setCall (h : s.Inv)
    (hwants : ∀ k, c.key = some k → s.entry k.dp k.parentoff = some k.name ∧ k.dev = s.rootdev)
    (halone : ∀ k t' k', c.key = some k → (s.call t').key = some k' → k.dp = k'.dp → k.parentoff = k'.parentoff →
      t' = t)
    (hsees : ∀ k j, c.key = some k → s.Live j → s.At j k.dp k.parentoff → c.Sees j)
    (hholds : ∀ k empty i slots, c = .trunc k empty i slots → s.i_sem (some i) = some t)
    (htrunc : ∀ i, c.truncating = some i → s.Unlinked i ∧ ∀ t', (s.call t').truncating = some i → t' = t)
    (hgiven : ∀ k i, c.pending = some (k, i) → s.Live i ∧ (s.slot i).parent_off = k.parentoff ∧
      (s.slot i).fname = k.name ∧ ∀ t' k', (s.call t').pending = some (k', i) → t' = t)
    (hleft : ∀ t' k i p, ((s.setCall t c).call t').pending = some (k, i) → (s.slot i).parent = some p → p ≠ k.dp →
      (∀ k', c.key = some k' → k'.dp = p → k'.parentoff ≠ k.parentoff) ∧ (∀ k', c.found ≠ some (k', i)) ∧
        (t' = t → ¬s.Wanted p k.parentoff ∧ ∀ t' k', (s.call t').found ≠ some (k', i)))
    (hfound : ∀ k i, c.found = some (k, i) →
      s.i_sem k.dp = some t ∧ s.Live i ∧ s.At i k.dp k.parentoff ∧ s.entry k.dp k.parentoff = some k.name)
    (hplaced : ∀ k i, (s.call t).pending = some (k, i) → (∃ k', c.pending = some (k', i)) ∨
      ∃ p, (s.slot i).parent = some p ∧ s.entry p (s.slot i).parent_off = some (s.slot i).fname) :
    (s.setCall t c).Inv where
  link := h.link
  op := h.op
  dev := h.dev
  dead := h.dead
  wants := by
    have hold := h.wants
    grind
  alone := by
    have hold := h.alone
    grind
  sees := by
    have hold := h.sees
    grind
  holds := by
    have hold := h.holds
    grind
  gone := by
    have hold := h.gone
    grind
  once := by
    have hold := h.once
    grind
  given := by
    have hold := h.given
    grind
  own := by
    have hold := h.own
    grind
  left t' k i p hi hp hne := by
    obtain ⟨hkey, hgot, hnew⟩ := hleft t' k i p hi hp hne
    have hold : ¬s.Wanted p k.parentoff ∧ ∀ t₂ k₂, (s.call t₂).found ≠ some (k₂, i) := by
      rcases eq_or_ne t' t with rfl | ht
      · exact hnew rfl
      · rw [setCall_ne s c ht] at hi
        exact h.left t' k i p hi hp hne
    refine ⟨?_, by grind⟩
    rintro ⟨t₂, k₂, h₂, hdp, hoff⟩
    rcases eq_or_ne t₂ t with rfl | ht
    · rw [setCall_self] at h₂
      exact hkey k₂ h₂ hdp hoff
    · rw [setCall_ne s c ht] at h₂
      exact hold.1 ⟨t₂, k₂, h₂, hdp, hoff⟩
  found := by
    have hold := h.found
    grind
  placed i hlive hnot := by
    by_cases hp : s.Pending i
    · obtain ⟨t', ⟨k, i⟩, hi, rfl⟩ := hp
      rcases eq_or_ne t' t with rfl | ht
      · rcases hplaced k i hi with ⟨k', hk'⟩ | hp
        · exact absurd ⟨t', (k', i), by rw [setCall_self]; exact hk', rfl⟩ hnot
        · exact hp
      · exact absurd ⟨t', (k, i), by rw [setCall_ne s c ht]; exact hi, rfl⟩ hnot
    · exact h.placed i hlive hp
  unique := h.unique

variable [DecidableEq T] in
/-- A call goes on to its next phase, with the slots it may still come to. -/
theorem Inv.phase (h : s.Inv) (hkey : c.key = (s.call t).key) (hpending : c.pending = (s.call t).pending)
    (hfound : ∀ r, c.found = some r → (s.call t).found = some r)
    (hsees : ∀ k j, (s.call t).key = some k → s.Live j → s.At j k.dp k.parentoff → c.Sees j)
    (hholds : ∀ k empty i slots, c = .trunc k empty i slots → s.i_sem (some i) = some t)
    (htrunc : ∀ i, c.truncating = some i → s.Unlinked i ∧ ∀ t', (s.call t').truncating = some i → t' = t) :
    (s.setCall t c).Inv := by
  apply h.setCall
  · exact fun k hk => h.wants t k (hkey ▸ hk)
  · exact fun k t' k' hk hk' hdp hoff => (h.alone t t' k k' (hkey ▸ hk) hk' hdp hoff).symm
  · exact fun k j hk => hsees k j (hkey ▸ hk)
  · exact hholds
  · exact htrunc
  · have hold := h.given
    have hown := h.own
    grind
  · intro t' k i p hi hp hne
    rw [of_setCall Call.pending hpending] at hi
    obtain ⟨hwant, hgot⟩ := h.left t' k i p hi hp hne
    exact ⟨fun k' hk' hdp hoff => hwant ⟨t, k', hkey ▸ hk', hdp, hoff⟩, fun k' hk' => hgot t k' (hfound _ hk'),
      fun _ => ⟨hwant, hgot⟩⟩
  · exact fun k i hi => h.found t k i (hfound _ hi)
  · exact fun k i hi => .inl ⟨k, hpending.trans hi⟩

/-- A slot changes: what is linked afterwards was linked before and says the same, and what is linked no more was in
nobody's hands. -/
theorem Inv.setSlot (h : s.Inv) {x : Inode n} (hlink : x.i_nlink ≤ 1 ∧ (x.ref = 0 → x.i_nlink = 0))
    (hop : x.i_op = (s.slot i).i_op) (hdev : x.i_dev = (s.slot i).i_dev)
    (hlive : 0 < x.ref ∧ 0 < x.i_nlink → s.Live i ∧ x.parent = (s.slot i).parent ∧
      x.parent_off = (s.slot i).parent_off ∧ x.fname = (s.slot i).fname)
    (hdead : s.Live i → (0 < x.ref ∧ 0 < x.i_nlink) ∨
      ¬s.Pending i ∧ (∀ t k, (s.call t).found ≠ some (k, i)) ∧ s.names (some i) = [])
    (hgone : s.GivenUp i → 0 < x.ref ∧ x.i_nlink = 0) : (s.setSlot i x).Inv := by
  -- what is linked afterwards says what it said
  have hback : ∀ j, (s.setSlot i x).Live j → s.Live j ∧ ((s.setSlot i x).slot j).parent = (s.slot j).parent ∧
      ((s.setSlot i x).slot j).parent_off = (s.slot j).parent_off ∧
      ((s.setSlot i x).slot j).fname = (s.slot j).fname := by
    grind
  have hatBack : ∀ j p off, (s.setSlot i x).Live j → (s.setSlot i x).At j p off → s.At j p off := by
    grind
  -- a slot in somebody's hands stays linked
  have hkeep : ∀ j, s.Live j → (s.Pending j ∨ ∃ t k, (s.call t).found = some (k, j)) → (s.setSlot i x).Live j := by
    grind
  have hpending : ∀ {t k j}, (s.call t).pending = some (k, j) → s.Pending j := fun {t k j} hj => ⟨t, (k, j), hj, rfl⟩
  refine ⟨?_, ?_, ?_, fun j hj => ?_, h.wants, h.alone, fun t k j hk hj hat => ?_,
    h.holds, fun t j hj => ?_, h.once, fun t k j hj => ?_, h.own, fun t k j p hj hp hne => ?_, fun t k j hj => ?_,
    fun j hj hnot => ?_, fun j j' p off hj hj' hat hat' => ?_⟩
  · have hold := h.link
    grind
  · have hold := h.op
    grind
  · have hold := h.dev
    grind
  · by_cases hold : s.Live j
    · rcases eq_or_ne j i with rfl | hne
      · rw [Live, setSlot_self] at hj
        exact ((hdead hold).resolve_left hj).2.2
      · exact absurd ((live_setSlot_ne s x hne).mpr hold) hj
    · exact h.dead j hold
  · exact h.sees t k j hk (hback j hj).1 (hatBack j _ _ hj hat)
  · have hold := h.gone t j hj
    rw [Unlinked, slot_setSlot]
    split
    · next heq => exact hgone ⟨t, heq ▸ hj⟩
    · exact hold
  · obtain ⟨hlive', hoff, hname⟩ := h.given t k j hj
    have hj' := hkeep j hlive' (.inl (hpending hj))
    obtain ⟨-, -, hoff', hname'⟩ := hback j hj'
    exact ⟨hj', hoff'.trans hoff, hname'.trans hname⟩
  · have hj' := hkeep j (h.given t k j hj).1 (.inl (hpending hj))
    exact h.left t k j p hj ((hback j hj').2.1.symm.trans hp) hne
  · obtain ⟨hsem, hlive', hat, hentry⟩ := h.found t k j hj
    have hj' := hkeep j hlive' (.inr ⟨t, k, hj⟩)
    obtain ⟨-, hparent, hoff, -⟩ := hback j hj'
    exact ⟨hsem, hj', ⟨hparent.trans hat.1, hoff.trans hat.2⟩, hentry⟩
  · obtain ⟨hlive', hparent, hoff, hname⟩ := hback j hj
    rw [hparent, hoff, hname]
    exact h.placed j hlive' hnot
  · exact h.unique j j' p off (hback j hj).1 (hback j' hj').1 (hatBack j p off hj hat) (hatBack j' p off hj' hat')

theorem Inv.not_live_of_ref (href : (s.slot i).ref = 0) : ¬s.Live i := fun hl => absurd hl.1 (by omega)

/-! ### Directories -/

/-- Entries change; those that a call or an inode rests on stay. -/
theorem Inv.setNames (h : s.Inv) {es : Entries} (hdead : ∀ i, p = some i → ¬s.Live i → es = [])
    (hwants : ∀ t k, (s.call t).key = some k → (s.setNames p es).entry k.dp k.parentoff = some k.name)
    (hat : ∀ i q o name, s.Live i → s.At i q o → s.entry q o = some name → (s.setNames p es).entry q o = some name) :
    (s.setNames p es).Inv where
  link := h.link
  op := h.op
  dev := h.dev
  dead i hi := by
    rcases eq_or_ne (some i) p with heq | hne
    · rw [← heq, names_setNames_self]
      exact hdead i heq.symm hi
    · rw [names_setNames_ne s es hne]
      exact h.dead i hi
  wants t k hk := ⟨hwants t k hk, (h.wants t k hk).2⟩
  alone := h.alone
  sees := h.sees
  holds := h.holds
  gone := h.gone
  once := h.once
  given := h.given
  own := h.own
  left := h.left
  found t k i hi := by
    obtain ⟨hsem, hlive, hk, hentry⟩ := h.found t k i hi
    exact ⟨hsem, hlive, hk, hat i _ _ _ hlive hk hentry⟩
  placed i hlive hnot := by
    obtain ⟨q, hq, hentry⟩ := h.placed i hlive hnot
    exact ⟨q, hq, hat i q _ _ hlive ⟨hq, rfl⟩ hentry⟩
  unique := h.unique

theorem Inv.alloc (h : s.Inv) {dp : Ip n} (name : Name) (hnone : s.entry dp off = none)
    (hlive : ∀ p ∈ dp, s.Live p) : (s.setNames dp ((off, name) :: s.names dp)).Inv := by
  apply h.setNames
  · rintro i rfl hi
    exact absurd (hlive i rfl) hi
  · intro t k hk
    exact entry_cons hnone (h.wants t k hk).1
  · intro i q o name' _ _ hentry
    exact entry_cons hnone hentry

theorem Inv.erase (h : s.Inv) (hwant : ¬s.Wanted p off) (hno : ∀ j, s.Live j → ¬s.At j p off) :
    (s.setNames p ((s.names p).filter fun e => e.1 ≠ off)).Inv := by
  apply h.setNames
  · rintro i rfl hi
    rw [h.dead i hi]
    rfl
  · intro t k hk
    rw [entry_erase]
    · exact (h.wants t k hk).1
    · rintro ⟨hdp, hoff⟩
      exact hwant ⟨t, k, hk, hdp, hoff⟩
  · intro i q o name hlive hi hentry
    rw [entry_erase]
    · exact hentry
    · rintro ⟨rfl, rfl⟩
      exact hno i hlive hi

/-! ### Calls -/

theorem key_of_pending {c : Call n} (h : c.pending = some (k, i)) : c.key = some k := by
  cases c <;> cases h
  rfl

theorem Inv.wanted (hk : (s.call t).key = some k) : s.Wanted k.dp k.parentoff := ⟨t, k, hk, rfl, rfl⟩

/-- A linked inode that sits at the entry a call looks for is the one it looks for. -/
theorem Inv.matches (h : s.Inv) (hk : (s.call t).key = some k) (hpending : (s.call t).pending = none)
    (hlive : s.Live i) (hat : s.At i k.dp k.parentoff) : s.Matches k i := by
  obtain ⟨hentry, hdev⟩ := h.wants t k hk
  refine ⟨hlive.1, (h.dev i (h.op i hlive)).trans hdev.symm, hat, hlive.2.ne', ?_⟩
  by_cases hp : s.Pending i
  · -- another call has yet to set the parent, which is a left-over one or this call's own
    obtain ⟨t', ⟨k', i'⟩, hi, rfl⟩ := hp
    obtain ⟨-, hoff, -⟩ := h.given t' k' i' hi
    have hoff' : k'.parentoff = k.parentoff := hoff.symm.trans hat.2
    rcases eq_or_ne k.dp k'.dp with hdp | hdp
    · have hkey : (s.call t').key = some k' := by
        cases hc : s.call t' <;> rw [hc] at hi <;> cases hi
        rfl
      have ht := h.alone t t' k k' hk hkey hdp hoff'.symm
      rw [← ht, hpending] at hi
      cases hi
    · have hleft := (h.left t' k' i' k.dp hi hat.1 hdp).1
      rw [hoff'] at hleft
      exact absurd (Inv.wanted hk) hleft
  · obtain ⟨p, hp, hname⟩ := h.placed i hlive hp
    rw [hat.1] at hp
    cases hp
    rw [hat.2, hentry] at hname
    exact (Option.some.inj hname).symm

/-- `ip->parent = dp`. -/
theorem Inv.setParent (h : s.Inv) (hcall : s.call t = .publish k i) :
    (s.setSlot i { s.slot i with parent := some k.dp }).Inv := by
  have hpending : (s.call t).pending = some (k, i) := by rw [hcall]; rfl
  have hwant : (s.call t).key = some k := key_of_pending hpending
  obtain ⟨hlivei, hoffi, -⟩ := h.given t k i hpending
  have hslot := slot_setSlot s i { s.slot i with parent := some k.dp }
  -- everything but the parent is as it was
  have hlive : ∀ j, (s.setSlot i { s.slot i with parent := some k.dp }).Live j ↔ s.Live j := by
    grind
  have hat : ∀ {j p off}, (s.setSlot i { s.slot i with parent := some k.dp }).At j p off →
      j ≠ i ∧ s.At j p off ∨ j = i ∧ p = k.dp ∧ off = k.parentoff := by
    grind
  have hone : ∀ j, s.Live j → s.At j k.dp k.parentoff → j = i := by
    intro j hj hj'
    have hsees := h.sees t k j hwant hj hj'
    rw [hcall] at hsees
    exact hsees
  refine ⟨?_, ?_, ?_, fun j hj => h.dead j fun hl => hj ((hlive j).mpr hl), h.wants, h.alone,
    fun t' k' j hk hj hj' => ?_, h.holds, fun t' j hj => ?_, h.once, fun t' k' j hj => ?_, h.own,
    fun t' k' j p hj hp hne => ?_, fun t' k' j hj => ?_, fun j hj hnot => ?_, fun j j' p off hj hj' hp hp' => ?_⟩
  · have hold := h.link
    grind
  · have hold := h.op
    grind
  · have hold := h.dev
    grind
  · rcases hat hj' with ⟨-, hj'⟩ | ⟨rfl, hdp, hoff⟩
    · exact h.sees t' k' j hk ((hlive j).mp hj) hj'
    · have ht := h.alone t' t k' k hk hwant hdp hoff
      show (s.call t').Sees j
      rw [ht, hcall]
      rfl
  · have hold := h.gone t' j hj
    grind
  · have hold := h.given t' k' j hj
    grind
  · rcases eq_or_ne j i with rfl | hji
    · have ht := h.own t' t k' k j hj hpending
      rw [ht] at hj
      cases hpending.symm.trans hj
      rw [hslot, if_pos rfl] at hp
      exact absurd (Option.some.inj hp).symm hne
    · rw [hslot, if_neg hji] at hp
      exact h.left t' k' j p hj hp hne
  · obtain ⟨hsem', hj', hk', hname⟩ := h.found t' k' j hj
    refine ⟨hsem', (hlive j).mpr hj', ?_, hname⟩
    rcases eq_or_ne j i with rfl | hne
    · rcases eq_or_ne k'.dp k.dp with hdp | hdp
      · rw [At, hslot, if_pos rfl]
        exact ⟨by rw [hdp], hk'.2⟩
      · exact absurd hj ((h.left t k j k'.dp hpending hk'.1 hdp).2 t' k')
    · rw [At, hslot, if_neg hne]
      exact hk'
  · have hne : j ≠ i := by
      rintro rfl
      exact hnot ⟨t, (k, j), hpending, rfl⟩
    rw [hslot, if_neg hne]
    exact h.placed j ((hlive j).mp hj) hnot
  · rw [hlive] at hj hj'
    have hold := h.unique j j' p off hj hj'
    grind

variable [DecidableEq T]

/-- A lookup starts, and nobody else is at work on the entry. -/
theorem Inv.start (h : s.Inv) (hidle : s.call t = .idle) (hentry : s.entry k.dp k.parentoff = some k.name)
    (hdev : k.dev = s.rootdev) (hwant : ¬s.Wanted k.dp k.parentoff)
    (hpend : ∀ i, s.Pending i → ¬s.At i k.dp k.parentoff) :
    (s.setCall t (.scan k none (List.finRange n))).Inv := by
  apply h.setCall
  · rintro k' ⟨⟩
    exact ⟨hentry, hdev⟩
  · rintro k' t' k₂ ⟨⟩ hk₂ hdp hoff
    exact absurd ⟨t', k₂, hk₂, hdp.symm, hoff.symm⟩ hwant
  · exact fun _ j _ _ _ => List.mem_finRange j
  · nofun
  · nofun
  · nofun
  · intro t' k' i p hi hp hne
    rw [of_setCall Call.pending (by rw [hidle]; rfl)] at hi
    refine ⟨?_, nofun, fun ht => by rw [ht, hidle] at hi; cases hi⟩
    rintro k₂ ⟨⟩ hdp hoff
    exact hpend i ⟨t', (k', i), hi, rfl⟩ ⟨hdp ▸ hp, (h.given t' k' i hi).2.1.trans hoff.symm⟩
  · nofun
  · rw [hidle]
    nofun

/-- The scan stops at the inode of the entry. -/
theorem Inv.hit (h : s.Inv) {empty : Option (Fin n)} {slots : List (Fin n)} (hcall : s.call t = .scan k empty slots)
    (hm : s.Matches k i) : (s.setCall t (.publish k i)).Inv := by
  have hlive : s.Live i := ⟨hm.1, Nat.pos_of_ne_zero hm.2.2.2.1⟩
  have hat : s.At i k.dp k.parentoff := hm.2.2.1
  have hwant : (s.call t).key = some k := by rw [hcall]; rfl
  -- so nobody else has the slot
  have hfree : ∀ t' k', (s.call t').pending ≠ some (k', i) := by
    intro t' k' hi
    have hoff : k'.parentoff = k.parentoff := (h.given t' k' i hi).2.1.symm.trans hat.2
    rcases eq_or_ne k.dp k'.dp with hdp | hdp
    · have ht := h.alone t t' k k' hwant (key_of_pending hi) hdp hoff.symm
      rw [← ht, hcall] at hi
      cases hi
    · have hleft := (h.left t' k' i k.dp hi hat.1 hdp).1
      rw [hoff] at hleft
      exact hleft (Inv.wanted hwant)
  apply h.setCall
  · rintro k' ⟨⟩
    exact h.wants t k hwant
  · rintro k' t' k₂ ⟨⟩ hk₂ hdp hoff
    exact (h.alone t t' k k₂ hwant hk₂ hdp hoff).symm
  · rintro k' j ⟨⟩ hj hj'
    exact h.unique j i _ _ hj hlive hj' hat
  · nofun
  · nofun
  · rintro k' j ⟨⟩
    exact ⟨hlive, hat.2, hm.2.2.2.2, fun t' k' hi => absurd hi (hfree t' k')⟩
  · intro t' k' j p hj hp hne
    rcases eq_or_ne t' t with rfl | ht
    · rw [setCall_self] at hj
      cases hj
      exact absurd (Option.some.inj (hp.symm.trans hat.1)) hne
    · rw [setCall_ne s _ ht] at hj
      refine ⟨?_, nofun, fun heq => absurd heq ht⟩
      rintro k₂ ⟨⟩ hdp hoff
      exact (h.left t' k' j p hj hp hne).1 ⟨t, k, hwant, hdp, hoff⟩
  · nofun
  · rw [hcall]
    nofun

/-- The scan ends without a hit and a slot is recycled. -/
theorem Inv.fill (h : s.Inv) (contents : Entries) (hcall : s.call t = .scan k (some i) [])
    (href : (s.slot i).ref = 0)
    (hleft : ∀ p ∈ (s.slot i).parent, p ≠ k.dp →
      ¬s.Wanted p k.parentoff ∧ ∀ j, s.Live j → ¬s.At j p k.parentoff) :
    (s.fill t k i contents).Inv := by
  have hkey : (Call.publish k i).key = (s.call t).key := by rw [hcall]; rfl
  have hwant : (s.call t).key = some k := by rw [hcall]; rfl
  have hdead : ¬s.Live i := not_live_of_ref href
  -- nobody has the slot
  have hfree : ∀ t' k', (s.call t').pending ≠ some (k', i) := fun t' k' hi => hdead (h.given t' k' i hi).1
  have hlost : ∀ t' k', (s.call t').found ≠ some (k', i) := fun t' k' hi => hdead (h.found t' k' i hi).2.1
  -- and no linked inode sits where it is going to be, or seems to be for now
  have hmiss : ∀ j p, (s.slot i).parent = some p ∨ p = k.dp → s.Live j → ¬s.At j p k.parentoff := by
    intro j p hp hj hat
    rcases eq_or_ne p k.dp with rfl | hne
    · have hmem := h.sees t k j hwant hj hat
      rw [hcall] at hmem
      exact List.not_mem_nil hmem
    · exact (hleft p (hp.resolve_right hne) hne).2 j hj hat
  have hentry : ∀ {q o name}, s.entry q o = some name → (s.fill t k i contents).entry q o = some name := by
    intro q o name hq
    rw [← entry_fill contents (h.dead i hdead) hq]
    exact entry_congr rfl q o
  have hslot : ∀ j, (s.fill t k i contents).slot j = if j = i then filled (s.slot i) k else s.slot j :=
    fun j => slot_setSlot ..
  have hcalls : ∀ t', (s.fill t k i contents).call t' = if t' = t then .publish k i else s.call t' :=
    fun t' => call_setCall ..
  have hof : ∀ {α : Type} (f : Call n → α), f (.publish k i) = f (s.call t) →
      ∀ t', f ((s.fill t k i contents).call t') = f (s.call t') := fun f hf t' => of_setCall f hf t'
  have hsem : (s.fill t k i contents).i_sem = s.i_sem := rfl
  have hroot : (s.fill t k i contents).rootdev = s.rootdev := rfl
  have hnames : ∀ {j}, j ≠ i → (s.fill t k i contents).names (some j) = s.names (some j) :=
    fun hne => names_setNames_ne s contents fun heq => hne (Option.some.inj heq)
  generalize s.fill t k i contents = s' at *
  have hself : s'.Live i ∧ ∀ p off, s'.At i p off → (s.slot i).parent = some p ∧ k.parentoff = off := by
    simp only [Live, At, hslot, if_pos, filled]
    exact ⟨⟨Nat.one_pos, Nat.one_pos⟩, fun p off hat => hat⟩
  have hlive : ∀ {j}, j ≠ i → (s'.Live j ↔ s.Live j) := by
    grind
  have hat : ∀ {j p off}, j ≠ i → (s'.At j p off ↔ s.At j p off) := by
    grind
  have hkeys := hof Call.key hkey
  have htruncs := hof Call.truncating (by rw [hcall]; rfl)
  have hfounds := hof Call.found (by rw [hcall]; rfl)
  refine ⟨?_, ?_, ?_, fun j hj => ?_, fun t' k' hk => ?_, ?_, fun t' k' j hk hj hj' => ?_, ?_, fun t' j hj => ?_, ?_,
    fun t' k' j hj => ?_, ?_, fun t' k' j p hj hp hne => ?_, fun t' k' j hj => ?_, fun j hj hnot => ?_,
    fun j j' p off hj hj' hp hp' => ?_⟩
  · have hold := h.link
    grind [filled]
  · have hold := h.op
    grind [filled]
  · have hold := h.dev
    have hdev := (h.wants t k hwant).2
    grind [filled]
  · have hne : j ≠ i := by
      rintro rfl
      exact hj hself.1
    rw [hnames hne]
    exact h.dead j fun hl => hj ((hlive hne).mpr hl)
  · rw [hkeys] at hk
    rw [hroot]
    exact ⟨hentry (h.wants t' k' hk).1, (h.wants t' k' hk).2⟩
  · simp only [hkeys]
    exact h.alone
  · rw [hkeys] at hk
    rcases eq_or_ne j i with rfl | hne
    · -- another call cannot be for the entry at which the recycled slot seems to sit
      obtain ⟨hp, hoff⟩ := hself.2 _ _ hj'
      rcases eq_or_ne t' t with rfl | ht
      · rw [hcalls, if_pos rfl]
        rfl
      rcases eq_or_ne k'.dp k.dp with hdp | hdp
      · exact absurd (h.alone t' t k' k hk hwant hdp hoff.symm) ht
      · have hw := (hleft k'.dp hp hdp).1
        rw [hoff] at hw
        exact absurd (Inv.wanted hk) hw
    · rw [hlive hne] at hj
      rw [hat hne] at hj'
      have hold := h.sees t' k' j hk hj hj'
      have hmiss := hmiss j k'.dp
      grind
  · have hold := h.holds
    grind
  · rw [htruncs] at hj
    have hold := h.gone t' j hj
    grind
  · simp only [htruncs]
    exact h.once
  · have hold := h.given t' k' j
    grind [filled, Call.pending]
  · have hold := h.own
    grind [Call.pending]
  · have hwanted : ∀ q o, s'.Wanted q o ↔ s.Wanted q o := by
      intro q o
      simp only [Wanted, hkeys]
    rw [hwanted]
    simp only [hfounds]
    have hold := h.left t' k' j p
    have hleft := hleft p
    grind [filled, Call.pending]
  · rw [hfounds] at hj
    obtain ⟨hholds, hj', hk', hname⟩ := h.found t' k' j hj
    have hne : j ≠ i := by
      rintro rfl
      exact hdead hj'
    rw [hsem, hlive hne, hat hne]
    exact ⟨hholds, hj', hk', hentry hname⟩
  · have hne : j ≠ i := by
      rintro rfl
      exact hnot ⟨t, (k, j), by rw [hcalls, if_pos rfl]; rfl, rfl⟩
    rw [hlive hne] at hj
    rw [hslot, if_neg hne]
    have hpend : ¬s.Pending j := by
      rintro ⟨t', r, hr, rfl⟩
      refine hnot ⟨t', r, ?_, rfl⟩
      rw [hcalls, if_neg]
      · exact hr
      · rintro rfl
        rw [hcall] at hr
        cases hr
    obtain ⟨p, hp, hname⟩ := h.placed j hj hpend
    exact ⟨p, hp, hentry hname⟩
  · have hmiss := fun p j => hmiss j p
    have hold := h.unique j j' p off
    grind

/-- The call is back in its caller, which may hold the directory. -/
theorem Inv.publish (h : s.Inv) (hcall : s.call t = .publish k i) (hparent : (s.slot i).parent = some k.dp) :
    (s.setCall t (if s.i_sem k.dp = some t then .got k i else .idle)).Inv := by
  have hpending : (s.call t).pending = some (k, i) := by rw [hcall]; rfl
  have hwant : (s.call t).key = some k := key_of_pending hpending
  obtain ⟨hlivei, hoffi, hnamei⟩ := h.given t k i hpending
  obtain ⟨hentry, -⟩ := h.wants t k hwant
  generalize hc : (if s.i_sem k.dp = some t then Call.got k i else .idle) = c
  have hkey : c.key = none := by rw [← hc]; split <;> rfl
  have htrunc : c.truncating = none := by rw [← hc]; split <;> rfl
  have hpend : c.pending = none := by rw [← hc]; split <;> rfl
  have hfound : ∀ k' j, c.found = some (k', j) → k' = k ∧ j = i ∧ s.i_sem k.dp = some t := by
    intro k' j hj
    rw [← hc] at hj
    split at hj
    · next hsem =>
      cases hj
      exact ⟨rfl, rfl, hsem⟩
    · cases hj
  apply h.setCall
  · rw [hkey]
    nofun
  · rw [hkey]
    nofun
  · rw [hkey]
    nofun
  · rintro k' empty j slots rfl
    cases htrunc
  · rw [htrunc]
    nofun
  · rw [hpend]
    nofun
  · intro t' k' j p hj hp hne
    rw [hkey]
    rcases eq_or_ne t' t with rfl | ht
    · rw [setCall_self, hpend] at hj
      cases hj
    · rw [setCall_ne s c ht] at hj
      refine ⟨nofun, fun k₂ h₂ => ?_, fun heq => absurd heq ht⟩
      obtain ⟨-, rfl, -⟩ := hfound k₂ j h₂
      exact ht (h.own t' t k' k j hj hpending)
  · intro k' j hj
    obtain ⟨rfl, rfl, hsem⟩ := hfound k' j hj
    exact ⟨hsem, hlivei, ⟨hparent, hoffi⟩, hentry⟩
  · intro k' j hj
    cases hpending.symm.trans hj
    exact .inr ⟨k.dp, hparent, by rw [hoffi, hnamei]; exact hentry⟩

/-- The inode that was found loses its entry and its link. -/
theorem Inv.unlink (h : s.Inv) (hcall : s.call t = .got k i) (hwant : ¬s.Wanted k.dp k.parentoff)
    (hempty : s.names (some i) = []) : (s.unlink k t i).Inv := by
  have hfound : (s.call t).found = some (k, i) := by rw [hcall]; rfl
  obtain ⟨hsem, hlive, hat, -⟩ := h.found t k i hfound
  -- the others have something else
  have hlost : ∀ t' k', t' ≠ t → (s.call t').found ≠ some (k', i) := by
    intro t' k' ht hi
    obtain ⟨hsem', -, hat', -⟩ := h.found t' k' i hi
    have hdp : k'.dp = k.dp := Option.some.inj (hat'.1.symm.trans hat.1)
    rw [hdp, hsem] at hsem'
    exact ht (Option.some.inj hsem').symm
  have hfree : ¬s.Pending i := by
    rintro ⟨t', ⟨k', i'⟩, hi, rfl⟩
    have hoff : k'.parentoff = k.parentoff := (h.given t' k' i' hi).2.1.symm.trans hat.2
    rcases eq_or_ne k.dp k'.dp with hdp | hdp
    · exact hwant ⟨t', k', key_of_pending hi, hdp.symm, hoff⟩
    · exact (h.left t' k' i' k.dp hi hat.1 hdp).2 t k hfound
  have hidle : (s.setCall t .idle).Inv := by
    apply h.phase
    · rw [hcall]
      rfl
    · rw [hcall]
      rfl
    · intro r hr
      cases hr
    · intro k' j hk
      rw [hcall] at hk
      cases hk
    · intro k' empty j slots hc
      cases hc
    · intro j hj
      cases hj
  have hdropped : ((s.setCall t .idle).setSlot i { s.slot i with i_nlink := (s.slot i).i_nlink - 1 }).Inv := by
    have hone := (h.link i).1
    apply hidle.setSlot
    · exact ⟨by show _ - 1 ≤ 1; omega, fun _ => by show _ - 1 = 0; omega⟩
    · rfl
    · rfl
    · rintro ⟨-, hpos⟩
      have hpos' : 0 < (s.slot i).i_nlink - 1 := hpos
      omega
    · intro _
      refine .inr ⟨?_, ?_, hempty⟩
      · rw [pending_setCall (by rw [hcall]; rfl)]
        exact hfree
      intro t' k' hi
      rcases eq_or_ne t' t with rfl | ht
      · rw [setCall_self] at hi
        cases hi
      · rw [setCall_ne s _ ht] at hi
        exact hlost t' k' ht hi
    · rintro ⟨t', ht'⟩
      rw [of_setCall Call.truncating (by rw [hcall]; rfl)] at ht'
      have hzero := (h.gone t' i ht').2
      exact absurd hlive.2 (by omega)
  have hoff : (s.slot i).parent_off = k.parentoff := hat.2
  rw [System.unlink, hoff]
  apply hdropped.erase
  · intro hw
    exact hwant ((wanted_setCall (by rw [hcall]; rfl)).mp hw)
  intro j hj hj'
  rcases eq_or_ne j i with rfl | hne
  · have hone := (h.link j).1
    have hpos := hj.2
    rw [setSlot_self] at hpos
    have hpos' : 0 < (s.slot j).i_nlink - 1 := hpos
    omega
  · exact hne (h.unique j i _ _ ((live_setSlot_ne _ _ hne).mp hj) hlive ((at_setSlot_ne _ _ hne).mp hj') hat)

/-! ### Steps -/

theorem Inv.visit (h : s.Inv) {empty : Option (Fin n)} {slots : List (Fin n)}
    (hcall : s.call t = .scan k empty (i :: slots)) : (s.visit t k empty i slots).Inv := by
  have hwant : (s.call t).key = some k := by rw [hcall]; rfl
  unfold System.visit
  split
  · next hm =>
    have hlive : s.Live i := ⟨hm.1, Nat.pos_of_ne_zero hm.2.2.2.1⟩
    have hhit := h.hit hcall hm
    have hslot : ((s.setCall t (.publish k i)).setSlot i { s.slot i with ref := (s.slot i).ref + 1 }).Inv := by
      apply hhit.setSlot
      · exact ⟨(h.link i).1, fun hzero => absurd hzero (Nat.succ_ne_zero _)⟩
      · rfl
      · rfl
      · exact fun _ => ⟨hlive, rfl, rfl, rfl⟩
      · exact fun _ => .inl ⟨Nat.succ_pos _, hlive.2⟩
      · rintro ⟨t', ht'⟩
        exact absurd (hhit.gone t' i ht').2 hlive.2.ne'
    exact hslot.setLock none
  · next hm =>
    apply h.phase
    · rw [hcall]
      rfl
    · rw [hcall]
      rfl
    · intro r hr
      cases hr
    · intro k' j hk hj hj'
      rw [hwant] at hk
      cases hk
      have hmem := h.sees t k j hwant hj hj'
      rw [hcall] at hmem
      -- the slot that is passed is not the one
      rcases List.mem_cons.mp hmem with rfl | hmem
      · exact absurd (h.matches hwant (by rw [hcall]; rfl) hj hj') hm
      · exact hmem
    · intro k' empty' j slots' hc
      cases hc
    · intro j hj
      cases hj

/-- A call comes to a slot whose file was unlinked, takes its semaphore and drops the lock. -/
theorem Inv.comes (h : s.Inv) {empty : Option (Fin n)} {slots : List (Fin n)}
    (hcall : s.call t = .scan k empty (i :: slots)) (hu : s.Unlinked i) (hsem : s.i_sem (some i) = none)
    (hno : ¬s.GivenUp i) : (((s.setSem (some i) (some t)).setLock none).setCall t (.trunc k empty i slots)).Inv := by
  have htaken : ((s.setSem (some i) (some t)).setLock none).Inv := by
    apply (h.setSem (some t) ?_).setLock
    intro t' ht'
    rw [hsem] at ht'
    cases ht'
  apply htaken.phase
  · show _ = (s.call t).key
    rw [hcall]
    rfl
  · show _ = (s.call t).pending
    rw [hcall]
    rfl
  · intro r hr
    cases hr
  · intro k' j hk hj hj'
    have hmem := h.sees t k' j hk hj hj'
    rw [hcall] at hmem
    rcases List.mem_cons.mp hmem with rfl | hmem
    · exact absurd hu.2 hj.2.ne'
    · exact hmem
  · intro k' empty' j slots' hc
    cases hc
    exact Function.update_self ..
  · intro j hj
    cases hj
    exact ⟨hu, fun t' ht' => absurd ⟨t', ht'⟩ hno⟩

/-- The file is gone and the semaphore free again. -/
theorem Inv.trunc (h : s.Inv) {empty : Option (Fin n)} {slots : List (Fin n)}
    (hcall : s.call t = .trunc k empty i slots) :
    (((s.setSlot i { s.slot i with parent_off := 0xFFFFFFFF }).setSem (some i) none).setCall t
      (.retake k empty i slots)).Inv := by
  have htrunc : (s.call t).truncating = some i := by rw [hcall]; rfl
  have hu := h.gone t i htrunc
  have hslot : (s.setSlot i { s.slot i with parent_off := 0xFFFFFFFF }).Inv := by
    apply h.setSlot
    · exact h.link i
    · rfl
    · rfl
    · rintro ⟨-, hpos⟩
      exact absurd hu.2 hpos.ne'
    · intro hl
      exact absurd hu.2 hl.2.ne'
    · exact fun _ => hu
  have hphase : ((s.setSlot i { s.slot i with parent_off := 0xFFFFFFFF }).setCall t (.retake k empty i slots)).Inv := by
    apply hslot.phase
    · show _ = (s.call t).key
      rw [hcall]
      rfl
    · show _ = (s.call t).pending
      rw [hcall]
      rfl
    · intro r hr
      cases hr
    · intro k' j hk hj hj'
      have hsees := hslot.sees t k' j hk hj hj'
      have hcall' : (s.setSlot i { s.slot i with parent_off := 0xFFFFFFFF }).call t = .trunc k empty i slots := hcall
      rw [hcall'] at hsees
      exact hsees
    · intro k' empty' j slots' hc
      cases hc
    · intro j hj
      cases hj
      exact ⟨hslot.gone t i htrunc, fun t' ht' => h.once t' t i ht' htrunc⟩
  apply hphase.setSem
  intro t' ht'
  have hholds : s.i_sem (some i) = some t := h.holds t k empty i slots hcall
  have ht : t' = t := Option.some.inj (ht'.symm.trans hholds)
  rw [ht, setCall_self]
  exact ⟨rfl, fun k' empty' j slots' hc => by cases hc⟩

/-- The lock is taken back, the slot given up and the scan goes on. -/
theorem Inv.retake (h : s.Inv) {empty : Option (Fin n)} {slots : List (Fin n)}
    (hcall : s.call t = .retake k empty i slots) :
    (((s.setSlot i { s.slot i with ref := 0 }).setLock (some t)).visit t k empty i slots).Inv := by
  have htrunc : (s.call t).truncating = some i := by rw [hcall]; rfl
  have hu := h.gone t i htrunc
  -- as far as the other calls go, the scan has not yet come to the slot
  have hback : (s.setCall t (.scan k empty (i :: slots))).Inv := by
    apply h.phase
    · rw [hcall]
      rfl
    · rw [hcall]
      rfl
    · intro r hr
      cases hr
    · intro k' j hk hj hj'
      have hsees := h.sees t k' j hk hj hj'
      rw [hcall] at hsees
      exact List.mem_cons_of_mem _ hsees
    · intro k' empty' j slots' hc
      cases hc
    · intro j hj
      cases hj
  have hslot : ((s.setCall t (.scan k empty (i :: slots))).setSlot i { s.slot i with ref := 0 }).Inv := by
    apply hback.setSlot
    · exact ⟨(h.link i).1, fun _ => hu.2⟩
    · rfl
    · rfl
    · rintro ⟨hpos, -⟩
      exact absurd hpos (lt_irrefl 0)
    · intro hl
      exact absurd hu.2 hl.2.ne'
    · rintro ⟨t', ht'⟩
      rcases eq_or_ne t' t with rfl | ht
      · rw [setCall_self] at ht'
        cases ht'
      · rw [setCall_ne s _ ht] at ht'
        exact absurd (h.once t' t i ht' htrunc) ht
  have hvisit := (hslot.setLock (some t)).visit (setCall_self s t _)
  have hcomm : ((s.setCall t (.scan k empty (i :: slots))).setSlot i { s.slot i with ref := 0 }).setLock (some t)
      = ((s.setSlot i { s.slot i with ref := 0 }).setLock (some t)).setCall t (.scan k empty (i :: slots)) := rfl
  rw [hcomm, visit_setCall] at hvisit
  exact hvisit

theorem Inv.run (h : s.Inv) {contents : Entries} (hok : s.CallOk (s.call t)) (hstep : s.step t contents = some s') :
    s'.Inv := by
  unfold System.step at hstep
  split at hstep
  · cases hstep
  · next k e hcall =>
    rw [hcall] at hok
    split at hstep
    · cases hstep
    · cases hstep
      exact h.fill contents hcall hok.1 hok.2
  · next k empty i slots hcall =>
    rw [hcall] at hok
    split at hstep
    · next hu =>
      split at hstep
      · next hsem =>
        cases hstep
        cases empty <;> exact h.comes hcall hu hsem (hok hu)
      · cases hstep
    · cases hstep
      exact h.visit hcall
  · next k empty i slots hcall =>
    cases hstep
    exact h.trunc hcall
  · next k empty i slots hcall =>
    split at hstep
    · cases hstep
      exact h.retake hcall
    · cases hstep
  · next k i hcall =>
    cases hstep
    have hparent := h.setParent hcall
    exact hparent.publish hcall (by rw [setSlot_self])
  · cases hstep
  · cases hstep

/-- **One step.** -/
theorem Inv.next (h : s.Inv) {e : Event T n} (hok : s.Ok e) (hstep : Step s e s') : s'.Inv := by
  unfold Step System.next at hstep
  cases e with
  | ilock t ip =>
    obtain ⟨⟨hsem, hkey⟩, heq⟩ := Option.ite_none_right_eq_some.mp hstep
    cases heq
    apply h.setSem
    intro t' ht'
    rw [hsem] at ht'
    cases ht'
  | iunlock t ip =>
    obtain ⟨⟨hsem, hidle⟩, heq⟩ := Option.ite_none_right_eq_some.mp hstep
    cases heq
    apply h.setSem
    intro t' ht'
    rw [hsem] at ht'
    cases ht'
    rw [hidle]
    exact ⟨rfl, fun k empty i slots hc => by cases hc⟩
  | fat32_inode_alloc t dp off name =>
    obtain ⟨⟨-, -, -, hnone⟩, heq⟩ := Option.ite_none_right_eq_some.mp hstep
    cases heq
    exact h.alloc name hnone hok
  | fat32_inode_get t dp off name =>
    obtain ⟨⟨-, hidle, hop, -⟩, heq⟩ := Option.ite_none_right_eq_some.mp hstep
    cases heq
    have hdev : s.i_dev dp = s.rootdev := by
      cases dp with
      | none => rfl
      | some p => exact h.dev p hop
    exact (h.setLock (some t)).start hidle hok.1 hdev hok.2.1 hok.2.2
  | run t contents => exact h.run hok hstep
  | leave t =>
    have hleave : ∀ k i, s.call t = .got k i → (s.setCall t .idle).Inv := by
      intro k i hcall
      apply h.phase
      · rw [hcall]
        rfl
      · rw [hcall]
        rfl
      · intro r hr
        cases hr
      · intro k' j hk
        rw [hcall] at hk
        cases hk
      · intro k' empty j slots hc
        cases hc
      · intro j hj
        cases hj
    dsimp only at hstep
    split at hstep
    · next k i hcall =>
      cases hstep
      exact hleave k i hcall
    · cases hstep
  | unlink t =>
    dsimp only [Ok] at hok hstep
    split at hstep
    · next k i hcall =>
      rw [hcall] at hok
      obtain ⟨⟨-, -, -, -, hempty, -⟩, heq⟩ := Option.ite_none_right_eq_some.mp hstep
      cases heq
      exact h.unlink hcall hok hempty
    · cases hstep
  | fat32_inode_dup i =>
    obtain ⟨-, heq⟩ := Option.ite_none_right_eq_some.mp hstep
    cases heq
    obtain ⟨hone, hzero⟩ := h.link i
    apply h.setSlot
    · exact ⟨hone, fun hz => absurd hz (Nat.succ_ne_zero _)⟩
    · rfl
    · rfl
    · rintro ⟨-, hpos⟩
      have hpos' : 0 < (s.slot i).i_nlink := hpos
      have href : (s.slot i).ref ≠ 0 := fun hz => absurd (hzero hz) hpos'.ne'
      exact ⟨⟨Nat.pos_of_ne_zero href, hpos'⟩, rfl, rfl, rfl⟩
    · exact fun hl => .inl ⟨Nat.succ_pos _, hl.2⟩
    · rintro ⟨t, ht⟩
      exact ⟨Nat.succ_pos _, (h.gone t i ht).2⟩
  | dirty i b =>
    cases hstep
    apply h.setSlot
    · exact h.link i
    · rfl
    · rfl
    · exact fun hl => ⟨hl, rfl, rfl, rfl⟩
    · exact fun hl => .inl hl
    · rintro ⟨t, ht⟩
      exact h.gone t i ht

/-- **One inode for each entry.** -/
theorem inode_unique {rootdev : UInt32} {root : Entries} {es : List (Event T n)}
    (hrun : Run (Guarded Step Ok) (inode_table_init T n rootdev root) es s) : s.Unique :=
  (hrun.invariant (fun _ _ _ h hs => h.next hs.1 hs.2) (inv_init T n rootdev root)).unique

instance instDecidableCallOk [Fintype T] (s : System T n) : (c : Call n) → Decidable (s.CallOk c)
  | .idle => .isTrue trivial
  | .scan _ none [] => .isTrue trivial
  | .scan k (some e) [] => inferInstanceAs (Decidable ((s.slot e).ref = 0 ∧
      ∀ p ∈ (s.slot e).parent, p ≠ k.dp → ¬s.Wanted p k.parentoff ∧ ∀ j, s.Live j → ¬s.At j p k.parentoff))
  | .scan _ none (i :: _) => inferInstanceAs (Decidable (s.Unlinked i → ¬s.GivenUp i))
  | .scan _ (some _) (i :: _) => inferInstanceAs (Decidable (s.Unlinked i → ¬s.GivenUp i))
  | .trunc _ _ _ _ => .isTrue trivial
  | .retake _ _ _ _ => .isTrue trivial
  | .publish _ _ => .isTrue trivial
  | .got k _ => inferInstanceAs (Decidable ¬s.Wanted k.dp k.parentoff)

instance instDecidableOk [Fintype T] (s : System T n) : (e : Event T n) → Decidable (s.Ok e)
  | .ilock _ _ => .isTrue trivial
  | .iunlock _ _ => .isTrue trivial
  | .fat32_inode_alloc _ dp _ _ => inferInstanceAs (Decidable (∀ p ∈ dp, s.Live p))
  | .fat32_inode_get _ dp off name =>
    inferInstanceAs (Decidable (s.entry dp off = some name ∧ ¬s.Wanted dp off ∧ ∀ i, s.Pending i → ¬s.At i dp off))
  | .run t _ => inferInstanceAs (Decidable (s.CallOk (s.call t)))
  | .leave _ => .isTrue trivial
  | .unlink t => inferInstanceAs (Decidable (s.CallOk (s.call t)))
  | .fat32_inode_dup _ => .isTrue trivial
  | .dirty _ _ => .isTrue trivial

/-- Thread `()` makes the file `a` in the root directory, removes it and makes `b`. -/
def recycling : List (Event Unit 2) :=
  [.ilock () none, .fat32_inode_alloc () none 1 [97], .fat32_inode_get () none 1 [97], .run () [], .run () [],
    .run () [], .run () [], .ilock () (some ⟨0, Nat.two_pos⟩), .unlink (), .iunlock () (some ⟨0, Nat.two_pos⟩),
    .fat32_inode_alloc () none 1 [98], .fat32_inode_get () none 1 [98], .run () [], .run () [], .run () [],
    .run () [], .run () [], .run () []]

/-- The second file takes the slot of the first. -/
theorem inode_unique_recycled : ∃ s, Run Step (inode_table_init Unit 2 1 []) recycling s ∧ s.Unique := by
  let next : System Unit 2 → Event Unit 2 → Option (System Unit 2) := fun s e => if s.Ok e then s.next e else none
  have hsome : (exec next (inode_table_init Unit 2 1 []) recycling).isSome = true := by
    decide +kernel
  obtain ⟨s, hs⟩ := Option.isSome_iff_exists.mp hsome
  have hrun : Run (Guarded Step Ok) (inode_table_init Unit 2 1 []) recycling s :=
    (run_of_exec next _ _ hs).mono fun s e s' hstep => Option.ite_none_right_eq_some.mp hstep
  exact ⟨s, hrun.mono fun _ _ _ hstep => hstep.2, inode_unique hrun⟩

/-! ## Two lookups of one entry -/

/-- Two threads look up one entry of the root directory without its semaphore, and both fill a slot for it before
either sets the parent. -/
theorem two_inodes (n : Nat) (rootdev off : UInt32) (name : Name) :
    ∃ es s, Run Step (inode_table_init Bool (n + 2) rootdev [(off, name)]) es s ∧ ¬s.Unique := by
  let k : Key (n + 2) := ⟨rootdev, none, off, name⟩
  let s₀ := inode_table_init Bool (n + 2) rootdev [(off, name)]
  let s₁ := s₀.fill false k 0 []
  let s₂ := s₁.fill true k 1 []
  have hne : (1 : Fin (n + 2)) ≠ 0 := one_ne_zero
  have hentry : ∀ s : System Bool (n + 2), s.names none = [(off, name)] → s.entry none off = some name := by
    intro s hs
    simp [entry, hs]
  have hself₁ : s₁.slot 0 = filled .zero k := fill_self ..
  have hother₁ : ∀ {i}, i ≠ 0 → s₁.slot i = .zero := fun hi => fill_ne s₀ false k [] hi
  -- the first call fills slot 0
  have hfst : ∃ es, Run Step s₀ es s₁ := by
    apply run_miss rfl rfl rfl rfl (hentry s₀ rfl)
    · intro i
      exact ⟨fun hu => absurd hu.1 (lt_irrefl 0), fun hm => absurd hm.1 (lt_irrefl 0)⟩
    · rw [List.finRange_succ, List.foldl_cons]
      exact remember_foldl_some s₀ 0 _
    · rfl
  -- its parent is still the null pointer, and the second call fills slot 1
  have hsnd : ∃ es, Run Step s₁ es s₂ := by
    apply run_miss rfl rfl rfl rfl (hentry s₁ rfl)
    · intro i
      rcases eq_or_ne i 0 with rfl | hi
      · rw [Unlinked, Matches, At, hself₁]
        exact ⟨fun hu => absurd hu.2 one_ne_zero, fun hm => absurd hm.2.2.1.1 (Option.some_ne_none none).symm⟩
      · rw [Unlinked, Matches, At, hother₁ hi]
        exact ⟨fun hu => absurd hu.1 (lt_irrefl 0), fun hm => absurd hm.1 (lt_irrefl 0)⟩
    · have hskip : s₁.remember none 0 = none := by simp [remember, hself₁, filled, Inode.zero]
      have htake : s₁.remember none 1 = some 1 := by simp [remember, hother₁ hne, Inode.zero]
      rw [List.finRange_succ, List.foldl_cons, hskip, List.finRange_succ, List.map_cons, List.foldl_cons]
      show List.foldl s₁.remember (s₁.remember none 1) _ = _
      rw [htake]
      exact remember_foldl_some s₁ 1 _
    · rw [hother₁ hne]
      rfl
  have hzero₂ : s₂.slot 0 = filled .zero k := (fill_ne s₁ true k [] hne.symm).trans hself₁
  have hone₂ : s₂.slot 1 = filled .zero k := by
    rw [← hother₁ hne]
    exact fill_self ..
  -- both set the parent
  let s₃ := (s₂.setSlot 0 { s₂.slot 0 with parent := some none }).setCall false .idle
  have hpub : Step s₂ (.run false []) s₃ := run_publish (s := s₂) (k := k) (i := 0) rfl
  have hpub' := run_publish (s := s₃) (t := true) (i := 1) (k := k) rfl
  obtain ⟨es₁, hrun₁⟩ := hfst
  obtain ⟨es₂, hrun₂⟩ := hsnd
  refine ⟨_, _, ((hrun₁.append hrun₂).snoc hpub).snoc hpub', fun hunique => hne ?_⟩
  have hslot : ∀ i : Fin (n + 2), i = 0 ∨ i = 1 →
      (s₃.setSlot 1 { s₃.slot 1 with parent := some none }).slot i = { filled .zero k with parent := some none } := by
    rintro i (rfl | rfl)
    · have hzero₃ : s₃.slot 0 = { s₂.slot 0 with parent := some none } := setSlot_self s₂ 0 { s₂.slot 0 with parent := some none }
      rw [setSlot_ne s₃ _ hne.symm, hzero₃, hzero₂]
    · have hone₃ : s₃.slot 1 = s₂.slot 1 := setSlot_ne s₂ { s₂.slot 0 with parent := some none } hne
      rw [setSlot_self, hone₃, hone₂]
  have hlive : ∀ i : Fin (n + 2), i = 0 ∨ i = 1 → (s₃.setSlot 1 { s₃.slot 1 with parent := some none }).Live i := by
    intro i hi
    rw [Live, hslot i hi]
    exact ⟨Nat.one_pos, Nat.one_pos⟩
  have hat : ∀ i : Fin (n + 2), i = 0 ∨ i = 1 →
      (s₃.setSlot 1 { s₃.slot 1 with parent := some none }).At i none off := by
    intro i hi
    rw [At, hslot i hi]
    exact ⟨rfl, rfl⟩
  exact hunique 1 0 none off (hlive 1 (.inr rfl)) (hlive 0 (.inl rfl)) (hat 1 (.inr rfl)) (hat 0 (.inl rfl))

/-- Two links of the same name, made at the same time. -/
theorem linkat_twice : ∃ es s,
    Run Step (inode_table_init Bool NINODE 1 [(1, [102])]) es s ∧ ¬s.Unique :=
  two_inodes 198 1 1 [102]

end

end System

end LostWakeup.Fs.Fat32.OneInode
