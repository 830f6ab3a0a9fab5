/-
# LostWakeup.Lib.Sbuf — `lib/sbuf.c`: the bounded byte buffer of the sockets.

Any number of threads run `sbuf_insert` and `sbuf_remove`.  Each critical section, each step of a semaphore and each test
without the lock is one step.  The byte copies are answered by the environment.

`n` need not divide `2^32`, so that the cell of a counter jumps when the counter wraps; and an operation that is cut short
keeps the slot or the item it has taken.  `Ok` rules both out.
-/
import LostWakeup.Atomic.Tokens
import LostWakeup.Library.Run
import LostWakeup.Mm.Buddy

namespace LostWakeup.Lib.Sbuf

open Library
open Function (update update_of_ne update_self)
open Atomic

/-! ## The buffer and its callers -/

/-- `struct sbuf`, but for its lock: a critical section is one step. -/
structure sbuf where
  buf : Nat → UInt8
  n : Nat
  w : BitVec 32
  r : BitVec 32
  slots : sem
  items : sem

/-- Where a thread is with respect to the buffer. -/
inductive Call
  /-- Outside; `ret` is what its last call returned. -/
  | user (ret : Int)
  /-- Asleep in `sema_wait(&sp->slots)`. -/
  | insertWait
  /-- `sbuf_insert`, at `acquire(&sp->lock)`. -/
  | insertCopy
  /-- At `sema_signal(&sp->items)`. -/
  | insertSignal
  /-- `sbuf_remove`, at `sema_wait(&sp->items)`. -/
  | removeEnter
  /-- Asleep there. -/
  | removeWait
  /-- At the second test of `sp->r == sp->w`. -/
  | removeTest
  /-- `sbuf_remove`, at `acquire(&sp->lock)`. -/
  | removeCopy
  /-- At `sema_signal(&sp->slots)`. -/
  | removeSignal
  /-- Killed in its sleep. -/
  | dead
  deriving DecidableEq

/-- The buffer, its callers and the bytes that went in and out. -/
structure State (T : Type) where
  sp : sbuf
  call : T → Call
  inserted : List UInt8
  removed : List UInt8

/-- What `either_copyin` (`none` is `-1`) and `either_copyout` (`false` is `-1`) answer in a step. -/
structure Env where
  either_copyin : Option UInt8
  either_copyout : Bool

inductive Event (T : Type)
  | sbuf_insert (t : T)
  | sbuf_remove (t : T)
  /-- Thread `t` takes its next step. -/
  | run (t : T) (env : Env)
  /-- Thread `t` is killed while it sleeps in `sema_wait`. -/
  | exit (t : T)

namespace sbuf

/-- The cell that a counter addresses. -/
def cell (sp : sbuf) (counter : BitVec 32) : Nat := counter.toNat % sp.n

/-- `sp->w - sp->r`. -/
def count (sp : sbuf) : Nat := (sp.w - sp.r).toNat

/-- The bytes in the buffer, from the oldest on. -/
def stored (sp : sbuf) : List UInt8 := (List.range sp.count).map fun i => sp.buf (sp.cell (sp.r + BitVec.ofNat 32 i))

def sbuf_empty (sp : sbuf) : Bool := sp.r == sp.w

def sbuf_full (sp : sbuf) : Bool := sp.r + BitVec.ofNat 32 sp.n == sp.w

/-- `sp->buf[(sp->w)++ % sp->n] = item`. -/
def put (sp : sbuf) (item : UInt8) : sbuf := { sp with buf := update sp.buf (sp.cell sp.w) item, w := sp.w + 1 }

/-- `sp->buf[sp->r % sp->n]`. -/
def item (sp : sbuf) : UInt8 := sp.buf (sp.cell sp.r)

/-- `(sp->r)++`. -/
def drop (sp : sbuf) : sbuf := { sp with r := sp.r + 1 }

end sbuf

namespace State

variable {T : Type} [DecidableEq T]

def setCall (s : State T) (t : T) (c : Call) : State T := { s with call := update s.call t c }

/-- `sema_wait(&sp->slots)`, up to the sleep. -/
def waitSlot (s : State T) (t : T) : State T :=
  { s with sp := { s.sp with slots := s.sp.slots.down } }.setCall t
    (if s.sp.slots.sleeps then .insertWait else .insertCopy)

/-- `sema_wait(&sp->items)`, up to the sleep. -/
def waitItem (s : State T) (t : T) : State T :=
  { s with sp := { s.sp with items := s.sp.items.down } }.setCall t
    (if s.sp.items.sleeps then .removeWait else .removeTest)

/-- The critical section of `sbuf_insert`. -/
def insertItem (s : State T) (t : T) : Option UInt8 → State T
  | none => s.setCall t (.user (-1))
  | some item => { s with sp := s.sp.put item, inserted := s.inserted ++ [item] }.setCall t .insertSignal

/-- The critical section of `sbuf_remove`: the item is gone even where it cannot be copied out. -/
def removeItem (s : State T) (t : T) (copied : Bool) : State T :=
  if copied then
    { s with sp := s.sp.drop, removed := s.removed ++ [s.sp.item] }.setCall t .removeSignal
  else
    { s with sp := s.sp.drop }.setCall t (.user (-1))

/-- The next step of thread `t` from where it is in its call. -/
def run (s : State T) (t : T) (env : Env) : Option (State T) :=
  match s.call t with
  | .user _ => none
  | .insertWait =>
    if s.sp.slots.wakeup = 0 then none
    else some ({ s with sp := { s.sp with slots := s.sp.slots.resume } }.setCall t .insertCopy)
  | .insertCopy => some (s.insertItem t env.either_copyin)
  | .insertSignal => some ({ s with sp := { s.sp with items := s.sp.items.sema_signal } }.setCall t (.user 0))
  | .removeEnter => some (s.waitItem t)
  | .removeWait =>
    if s.sp.items.wakeup = 0 then none
    else some ({ s with sp := { s.sp with items := s.sp.items.resume } }.setCall t .removeTest)
  | .removeTest => some (s.setCall t (if s.sp.r = s.sp.w then .user 1 else .removeCopy))
  | .removeCopy => some (s.removeItem t env.either_copyout)
  | .removeSignal => some ({ s with sp := { s.sp with slots := s.sp.slots.sema_signal } }.setCall t (.user 0))
  | .dead => none

/-- One event; `none` where it cannot happen. -/
def next (s : State T) : Event T → Option (State T)
  | .sbuf_insert t =>
    match s.call t with
    | .user _ => some (s.waitSlot t)
    | _ => none
  | .sbuf_remove t =>
    match s.call t with
    | .user _ => some (s.setCall t (if s.sp.r = s.sp.w ∧ s.sp.w ≠ 0 then .user 1 else .removeEnter))
    | _ => none
  | .run t env => s.run t env
  | .exit t =>
    match s.call t with
    | .insertWait => some (s.setCall t .dead)
    | .removeWait => some (s.setCall t .dead)
    | _ => none

end State

variable {T : Type} [DecidableEq T]

def Step (s : State T) (e : Event T) (s' : State T) : Prop := s.next e = some s'

/-- The largest block that `kmalloc` hands out, in bytes. -/
def KMALLOC_MAX : Nat := 2 ^ Mm.Buddy.BUDDY_MAX_ORDER * 4096

/-- `sbuf_init`, over the bytes that are in the block; `none` is `panic("no space")`. -/
def sbuf_init (buf : Nat → UInt8) (n : Nat) : Option sbuf :=
  if n ≤ KMALLOC_MAX then some ⟨buf, n, 0, 0, ⟨int32 n, 0⟩, ⟨0, 0⟩⟩ else none

/-- A buffer that nobody has used yet. -/
def fresh (sp : sbuf) : State T := ⟨sp, fun _ => .user 0, [], []⟩

/-! ## The law -/

namespace Call

/-- Asleep for a slot. -/
def wantsSlot : Call → Bool
  | .insertWait => true
  | _ => false

/-- With a slot that holds no item. -/
def hasSlot : Call → Bool
  | .insertCopy | .removeSignal => true
  | _ => false

/-- Asleep for an item. -/
def wantsItem : Call → Bool
  | .removeWait => true
  | _ => false

/-- With an item that no other call can take. -/
def hasItem : Call → Bool
  | .insertSignal | .removeTest | .removeCopy => true
  | _ => false

/-- Between the `sema_wait` of the operation and its `sema_signal`. -/
def inProgress (c : Call) : Bool := c.wantsSlot || c.hasSlot || c.wantsItem || c.hasItem

end Call

section Law

variable [Fintype T]

/-- What is in the buffer is what went in and did not come out yet, in order, and every slot and item is
accounted for. -/
structure Law (s : State T) : Prop where
  fifo : s.inserted = s.removed ++ s.sp.stored
  bounded : s.sp.count ≤ s.sp.n
  conserved : s.sp.slots.value + s.sp.items.value + Library.count Call.inProgress s.call = s.sp.n

/-- The steps that lead to a state in which the law holds. -/
def Keeps (s : State T) (e : Event T) : Prop := ∀ s', Step s e s' → Law s'

end Law

/-- The cell at the write counter holds no item, or the same byte. -/
def sbuf.Free (sp : sbuf) (item : UInt8) : Prop :=
  ∀ i, i < sp.count → sp.cell (sp.r + BitVec.ofNat 32 i) = sp.cell sp.w → sp.buf (sp.cell sp.w) = item

/-- The copies succeed, no item is stored over another one and nobody is killed in an operation. -/
def Ok (s : State T) : Event T → Prop
  | .sbuf_insert _ => True
  | .sbuf_remove _ => True
  | .run t env =>
    match s.call t with
    | .insertCopy => ∃ item, env.either_copyin = some item ∧ s.sp.Free item
    | .removeCopy => env.either_copyout = true
    | _ => True
  | .exit _ => False

/-! ## The counters and the cells -/

namespace sbuf

variable {sp : sbuf}

theorem write_counter (sp : sbuf) : sp.r + BitVec.ofNat 32 sp.count = sp.w := by
  rw [count, BitVec.ofNat_toNat, BitVec.setWidth_eq, BitVec.add_comm, BitVec.sub_add_cancel]

theorem count_put (item : UInt8) (h : sp.count + 1 < 2 ^ 32) : (sp.put item).count = sp.count + 1 := by
  have hw : (sp.w + 1 - sp.r) = (sp.w - sp.r) + 1 := by bv_omega
  rw [count, put, hw, BitVec.toNat_add]
  exact Nat.mod_eq_of_lt h

theorem count_drop (h : 0 < sp.count) : sp.drop.count + 1 = sp.count := by
  simp only [count, drop] at h ⊢
  bv_omega

theorem stored_put (item : UInt8) (h : sp.count + 1 < 2 ^ 32) :
    (sp.put item).stored = (List.range sp.count).map (fun i =>
      update sp.buf (sp.cell sp.w) item (sp.cell (sp.r + BitVec.ofNat 32 i))) ++ [item] := by
  rw [stored, count_put item h, List.range_succ, List.map_append]
  congr 1
  show [update sp.buf (sp.cell sp.w) item (sp.cell (sp.r + BitVec.ofNat 32 sp.count))] = [item]
  rw [write_counter, update_self]

theorem stored_put_iff (item : UInt8) (h : sp.count + 1 < 2 ^ 32) :
    (sp.put item).stored = sp.stored ++ [item] ↔ sp.Free item := by
  rw [stored_put item h, List.append_left_inj, stored]
  constructor
  · intro heq i hi hcell
    have hat := List.map_inj_left.mp heq i (List.mem_range.mpr hi)
    rw [hcell, update_self] at hat
    exact hat.symm
  intro hfree
  apply List.map_congr_left
  intro i hi
  rcases eq_or_ne (sp.cell (sp.r + BitVec.ofNat 32 i)) (sp.cell sp.w) with hcell | hne
  · rw [hcell, update_self]
    exact (hfree i (List.mem_range.mp hi) hcell).symm
  · rw [update_of_ne hne]

theorem stored_drop (h : 0 < sp.count) : sp.stored = sp.item :: sp.drop.stored := by
  obtain ⟨c, hc⟩ : ∃ c, sp.count = c + 1 := ⟨sp.count - 1, by omega⟩
  have hdrop : sp.drop.count = c := by
    have := count_drop h
    omega
  rw [stored, stored, hdrop, hc, List.range_succ_eq_map, List.map_cons, List.map_map]
  congr 1
  · rw [BitVec.add_zero]
    rfl
  apply List.map_congr_left
  intro i _
  show sp.buf (sp.cell (sp.r + BitVec.ofNat 32 (i + 1))) = sp.buf (sp.cell (sp.r + 1 + BitVec.ofNat 32 i))
  rw [Nat.add_comm i 1, BitVec.ofNat_add, BitVec.add_assoc]
  rfl

theorem mod_ne {n a i c : Nat} (hi : i < c) (hc : c < n) : (a + i) % n ≠ (a + c) % n := by
  intro heq
  have hsub : (a + c - (a + i)) % n = 0 := Nat.sub_mod_eq_zero_of_mod_eq heq.symm
  rw [Nat.mod_eq_of_lt (by omega)] at hsub
  omega

theorem free_of_le (h : sp.r.toNat ≤ sp.w.toNat) (hroom : sp.count < sp.n) (item : UInt8) : sp.Free item := by
  intro i hi hcell
  have hcount : sp.w.toNat = sp.r.toNat + sp.count := by
    rw [count, BitVec.toNat_sub_of_le (BitVec.le_def.mpr h)]
    omega
  have hlt := sp.w.isLt
  have hat : (sp.r + BitVec.ofNat 32 i).toNat = sp.r.toNat + i := by
    rw [BitVec.toNat_add, BitVec.toNat_ofNat, Nat.add_mod_mod]
    exact Nat.mod_eq_of_lt (by omega)
  rw [cell, cell, hat, hcount] at hcell
  exact absurd hcell (mod_ne hi hroom)

end sbuf

/-! ## The tokens -/

section Tokens

variable [Fintype T]

/-- What the good steps keep: the items are in order, and every slot and every item is free, claimed by one call or
holds a byte. -/
structure Inv (s : State T) : Prop where
  fifo : s.inserted = s.removed ++ s.sp.stored
  small : s.sp.n < 2 ^ 31
  slots : s.sp.slots.Owes (Library.count Call.wantsSlot s.call)
  items : s.sp.items.Owes (Library.count Call.wantsItem s.call)
  room : s.sp.slots.tokens + Library.count Call.hasSlot s.call + s.sp.count = s.sp.n
  stock : s.sp.items.tokens + Library.count Call.hasItem s.call = s.sp.count

/-- How the four counts move when one thread goes from `c` to `c'`. -/
structure Moved (call call' : T → Call) (c c' : Call) : Prop where
  wantsSlot : Library.count Call.wantsSlot call' + c.wantsSlot.toNat = Library.count Call.wantsSlot call + c'.wantsSlot.toNat
  hasSlot : Library.count Call.hasSlot call' + c.hasSlot.toNat = Library.count Call.hasSlot call + c'.hasSlot.toNat
  wantsItem : Library.count Call.wantsItem call' + c.wantsItem.toNat = Library.count Call.wantsItem call + c'.wantsItem.toNat
  hasItem : Library.count Call.hasItem call' + c.hasItem.toNat = Library.count Call.hasItem call + c'.hasItem.toNat

variable {s s' : State T} {t : T} {c c' : Call}

/-- What every step keeps, good or not: no more slots and items are given out than there are. -/
structure Safe (s : State T) : Prop where
  small : s.sp.n < 2 ^ 31
  slots_nonneg : 0 ≤ s.sp.slots.wakeup
  items_nonneg : 0 ≤ s.sp.items.wakeup
  room : s.sp.slots.tokens + Library.count Call.hasSlot s.call + s.sp.count ≤ s.sp.n
  stock : s.sp.items.tokens + Library.count Call.hasItem s.call ≤ s.sp.count

omit [DecidableEq T] in
theorem Inv.safe (h : Inv s) : Safe s :=
  ⟨h.small, h.slots.wakeup_nonneg, h.items.wakeup_nonneg, Int.le_of_eq h.room, Int.le_of_eq h.stock⟩

omit [DecidableEq T] in
theorem Safe.count_pos (h : Safe s) (hcall : (s.call t).hasItem = true) : 0 < s.sp.count := by
  have hpos := count_pos_of hcall
  have hstock := h.stock
  have hwake := h.items_nonneg
  simp only [sem.tokens] at hstock
  omega

omit [DecidableEq T] in
theorem Safe.count_lt (h : Safe s) (hcall : (s.call t).hasSlot = true) : s.sp.count < s.sp.n := by
  have hpos := count_pos_of hcall
  have hroom := h.room
  have hwake := h.slots_nonneg
  simp only [sem.tokens] at hroom
  omega

omit [DecidableEq T] in
theorem Safe.count_small (h : Safe s) (hcall : (s.call t).hasSlot = true) : s.sp.count + 1 < 2 ^ 32 := by
  have hlt := h.count_lt hcall
  have hsmall := h.small
  omega

omit [DecidableEq T] in
theorem Safe.counters_ne (h : Safe s) (hcall : (s.call t).hasItem = true) : s.sp.r ≠ s.sp.w := by
  intro heq
  have hpos := h.count_pos hcall
  rw [sbuf.count, heq, BitVec.sub_self] at hpos
  exact absurd hpos (by decide)

theorem moved (hcall : s.call t = c) (c' : Call) : Moved s.call (update s.call t c') c c' := by
  subst hcall
  exact ⟨count_update _ _ _ _, count_update _ _ _ _, count_update _ _ _ _, count_update _ _ _ _⟩

omit [DecidableEq T] in
theorem count_inProgress (call : T → Call) :
    Library.count Call.inProgress call = Library.count Call.wantsSlot call + Library.count Call.hasSlot call +
      Library.count Call.wantsItem call + Library.count Call.hasItem call := by
  have hslot : Library.count (fun c : Call => c.wantsSlot || c.hasSlot) call =
      Library.count Call.wantsSlot call + Library.count Call.hasSlot call := count_add fun c => by cases c <;> rfl
  have hitem : Library.count (fun c : Call => c.wantsSlot || c.hasSlot || c.wantsItem) call =
      Library.count (fun c : Call => c.wantsSlot || c.hasSlot) call + Library.count Call.wantsItem call :=
    count_add fun c => by cases c <;> rfl
  have hall : Library.count Call.inProgress call =
      Library.count (fun c : Call => c.wantsSlot || c.hasSlot || c.wantsItem) call + Library.count Call.hasItem call :=
    count_add fun c => by cases c <;> rfl
  omega

omit [DecidableEq T] in
theorem Inv.law (h : Inv s) : Law s := by
  have hslots := h.slots.value_eq
  have hitems := h.items.value_eq
  have hroom := h.room
  have hstock := h.stock
  have hwake := h.slots.wakeup_nonneg
  refine ⟨h.fifo, ?_, ?_⟩
  · simp only [sem.tokens] at hroom
    omega
  · have hcount := count_inProgress s.call
    omega

theorem not_law_of_lost (h : Inv s) (hslots : s'.sp.slots = s.sp.slots) (hitems : s'.sp.items = s.sp.items)
    (hn : s'.sp.n = s.sp.n) (hcall : s'.call = update s.call t c') (hin : (s.call t).inProgress = true)
    (hout : c'.inProgress = false) : ¬ Law s' := by
  intro hlaw
  have hbefore := h.law.conserved
  have hafter := hlaw.conserved
  have hcount := count_update Call.inProgress s.call t c'
  rw [hslots, hitems, hn, hcall] at hafter
  rw [hin, hout] at hcount
  simp only [Bool.toNat_true, Bool.toNat_false] at hcount
  omega

/-! ## The steps -/

/-- One thread goes from `c` to `c'`: the invariant stays if the tokens have moved with it. -/
theorem Inv.move (h : Inv s) (hcall : s.call t = c) (c' : Call) {sp : sbuf} {inserted removed : List UInt8}
    (hfifo : inserted = removed ++ sp.stored) (hn : sp.n = s.sp.n)
    (hslots : ∀ k, k + c.wantsSlot.toNat = Library.count Call.wantsSlot s.call + c'.wantsSlot.toNat → sp.slots.Owes k)
    (hitems : ∀ k, k + c.wantsItem.toNat = Library.count Call.wantsItem s.call + c'.wantsItem.toNat → sp.items.Owes k)
    (hroom : sp.slots.tokens + c'.hasSlot.toNat + sp.count = s.sp.slots.tokens + c.hasSlot.toNat + s.sp.count)
    (hstock : sp.items.tokens + c'.hasItem.toNat + s.sp.count = s.sp.items.tokens + c.hasItem.toNat + sp.count) :
    Inv ⟨sp, update s.call t c', inserted, removed⟩ := by
  have hm := moved hcall c'
  have hroom₀ := h.room
  have hstock₀ := h.stock
  have hslot := hm.hasSlot
  have hitem := hm.hasItem
  refine ⟨hfifo, hn ▸ h.small, hslots _ hm.wantsSlot, hitems _ hm.wantsItem, ?_, ?_⟩
  · show sp.slots.tokens + (Library.count Call.hasSlot (update s.call t c') : Int) + sp.count = sp.n
    omega
  · show sp.items.tokens + (Library.count Call.hasItem (update s.call t c') : Int) = sp.count
    omega

theorem Inv.waitSlot {ret : Int} (h : Inv s) (hcall : s.call t = .user ret) : Inv (s.waitSlot t) := by
  unfold State.waitSlot
  cases hs : s.sp.slots.sleeps with
  | true =>
    have howes := h.slots.sleep hs
    have htokens := sem.tokens_down s.sp.slots
    rw [hs, if_pos rfl, Int.sub_zero] at htokens
    refine h.move hcall .insertWait h.fifo rfl (fun k hk => howes.congr hk) (fun k hk => h.items.congr hk) ?_ rfl
    simp only [htokens]
    rfl
  | false =>
    have howes := h.slots.take hs
    have htokens := sem.tokens_down s.sp.slots
    rw [hs, if_neg Bool.false_ne_true] at htokens
    refine h.move hcall .insertCopy h.fifo rfl (fun k hk => howes.congr hk) (fun k hk => h.items.congr hk) ?_ rfl
    simp only [htokens, Call.hasSlot, Bool.toNat_true, Bool.toNat_false]
    show s.sp.slots.tokens - 1 + 1 + (s.sp.count : Int) = s.sp.slots.tokens + 0 + s.sp.count
    omega

theorem Inv.waitItem (h : Inv s) (hcall : s.call t = .removeEnter) : Inv (s.waitItem t) := by
  unfold State.waitItem
  cases hs : s.sp.items.sleeps with
  | true =>
    have howes := h.items.sleep hs
    have htokens := sem.tokens_down s.sp.items
    rw [hs, if_pos rfl, Int.sub_zero] at htokens
    refine h.move hcall .removeWait h.fifo rfl (fun k hk => h.slots.congr hk) (fun k hk => howes.congr hk) rfl ?_
    simp only [htokens]
    rfl
  | false =>
    have howes := h.items.take hs
    have htokens := sem.tokens_down s.sp.items
    rw [hs, if_neg Bool.false_ne_true] at htokens
    refine h.move hcall .removeTest h.fifo rfl (fun k hk => h.slots.congr hk) (fun k hk => howes.congr hk) rfl ?_
    simp only [htokens, Call.hasItem, Bool.toNat_true, Bool.toNat_false]
    show s.sp.items.tokens - 1 + 1 + (s.sp.count : Int) = s.sp.items.tokens + 0 + s.sp.count
    omega

theorem Inv.insertItem {item : UInt8} (h : Inv s) (hcall : s.call t = .insertCopy) (hfree : s.sp.Free item) :
    Inv (s.insertItem t (some item)) := by
  have hhas : (s.call t).hasSlot = true := by rw [hcall]; rfl
  have hsmall := h.safe.count_small hhas
  have hcount := sbuf.count_put item hsmall
  refine h.move hcall .insertSignal ?_ rfl (fun k hk => h.slots.congr hk) (fun k hk => h.items.congr hk) ?_ ?_
  · rw [(sbuf.stored_put_iff item hsmall).mpr hfree, ← List.append_assoc, ← h.fifo]
  · rw [hcount]
    show s.sp.slots.tokens + 0 + ((s.sp.count + 1 : Nat) : Int) = s.sp.slots.tokens + 1 + s.sp.count
    omega
  · rw [hcount]
    show s.sp.items.tokens + 1 + (s.sp.count : Int) = s.sp.items.tokens + 0 + ((s.sp.count + 1 : Nat) : Int)
    omega

theorem Inv.removeItem (h : Inv s) (hcall : s.call t = .removeCopy) : Inv (s.removeItem t true) := by
  have hhas : (s.call t).hasItem = true := by rw [hcall]; rfl
  have hpos := h.safe.count_pos hhas
  have hcount := sbuf.count_drop hpos
  refine h.move hcall .removeSignal ?_ rfl (fun k hk => h.slots.congr hk) (fun k hk => h.items.congr hk) ?_ ?_
  · rw [List.append_assoc, List.singleton_append, ← sbuf.stored_drop hpos]
    exact h.fifo
  · show s.sp.slots.tokens + 1 + (s.sp.drop.count : Int) = s.sp.slots.tokens + 0 + s.sp.count
    omega
  · show s.sp.items.tokens + 0 + (s.sp.count : Int) = s.sp.items.tokens + 1 + s.sp.drop.count
    omega

/-- The next step of a thread keeps the invariant, when it is a good one. -/
theorem Inv.run {env : Env} (h : Inv s) (hok : Ok s (.run t env)) (hrun : s.run t env = some s') : Inv s' := by
  unfold State.run at hrun
  unfold Ok at hok
  cases hcall : s.call t with
  | user ret =>
    rw [hcall] at hrun
    cases hrun
  | insertWait =>
    simp only [hcall] at hrun
    split at hrun
    · cases hrun
    next hwake =>
      cases hrun
      have hnonneg := h.slots.wakeup_nonneg
      have hm := (moved hcall .insertCopy).wantsSlot
      have howes := h.slots.congr hm
      have hleft := howes.resume (by omega)
      have htokens := sem.tokens_resume s.sp.slots
      refine h.move hcall .insertCopy h.fifo rfl (fun k hk => hleft.congr ?_) (fun k hk => h.items.congr hk) ?_ rfl
      · simp only [Call.wantsSlot, Bool.toNat_true, Bool.toNat_false] at hk hm
        omega
      · show s.sp.slots.resume.tokens + 1 + (s.sp.count : Int) = s.sp.slots.tokens + 0 + s.sp.count
        omega
  | insertCopy =>
    simp only [hcall] at hrun hok
    cases hrun
    rcases hok with ⟨item, hitem, hfree⟩
    rw [hitem]
    exact h.insertItem hcall hfree
  | insertSignal =>
    simp only [hcall] at hrun
    cases hrun
    have howes := h.items.signal
    have htokens := sem.tokens_signal s.sp.items
    refine h.move hcall (.user 0) h.fifo rfl (fun k hk => h.slots.congr hk) (fun k hk => howes.congr hk) rfl ?_
    show s.sp.items.sema_signal.tokens + 0 + (s.sp.count : Int) = s.sp.items.tokens + 1 + s.sp.count
    omega
  | removeEnter =>
    simp only [hcall] at hrun
    cases hrun
    exact h.waitItem hcall
  | removeWait =>
    simp only [hcall] at hrun
    split at hrun
    · cases hrun
    next hwake =>
      cases hrun
      have hnonneg := h.items.wakeup_nonneg
      have hm := (moved hcall .removeTest).wantsItem
      have howes := h.items.congr hm
      have hleft := howes.resume (by omega)
      have htokens := sem.tokens_resume s.sp.items
      refine h.move hcall .removeTest h.fifo rfl (fun k hk => h.slots.congr hk) (fun k hk => hleft.congr ?_) rfl ?_
      · simp only [Call.wantsItem, Bool.toNat_true, Bool.toNat_false] at hk hm
        omega
      · show s.sp.items.resume.tokens + 1 + (s.sp.count : Int) = s.sp.items.tokens + 0 + s.sp.count
        omega
  | removeTest =>
    simp only [hcall] at hrun
    cases hrun
    rw [if_neg (h.safe.counters_ne (t := t) (by rw [hcall]; rfl))]
    exact h.move hcall .removeCopy h.fifo rfl (fun k hk => h.slots.congr hk) (fun k hk => h.items.congr hk) rfl rfl
  | removeCopy =>
    simp only [hcall] at hrun hok
    cases hrun
    rw [hok]
    exact h.removeItem hcall
  | removeSignal =>
    simp only [hcall] at hrun
    cases hrun
    have howes := h.slots.signal
    have htokens := sem.tokens_signal s.sp.slots
    refine h.move hcall (.user 0) h.fifo rfl (fun k hk => howes.congr hk) (fun k hk => h.items.congr hk) ?_ rfl
    show s.sp.slots.sema_signal.tokens + 0 + (s.sp.count : Int) = s.sp.slots.tokens + 1 + s.sp.count
    omega
  | dead =>
    rw [hcall] at hrun
    cases hrun

theorem Inv.step {e : Event T} (h : Inv s) (hok : Ok s e) (hstep : Step s e s') : Inv s' := by
  unfold Step State.next at hstep
  cases e with
  | sbuf_insert t =>
    cases hcall : s.call t <;> simp only [hcall] at hstep <;> cases hstep
    exact h.waitSlot hcall
  | sbuf_remove t =>
    cases hcall : s.call t <;> simp only [hcall] at hstep <;> cases hstep
    unfold State.setCall
    split
    · exact h.move hcall (.user 1) h.fifo rfl (fun k hk => h.slots.congr hk) (fun k hk => h.items.congr hk) rfl rfl
    · exact h.move hcall .removeEnter h.fifo rfl (fun k hk => h.slots.congr hk) (fun k hk => h.items.congr hk) rfl rfl
  | run t env => exact h.run hok hstep
  | exit t => exact hok.elim

/-- One thread goes from `c` to `c'` and gives back at most what it had. -/
theorem Safe.move (h : Safe s) (hcall : s.call t = c) (c' : Call) {sp : sbuf} {inserted removed : List UInt8}
    (hn : sp.n = s.sp.n) (hslots : 0 ≤ sp.slots.wakeup) (hitems : 0 ≤ sp.items.wakeup)
    (hroom : sp.slots.tokens + c'.hasSlot.toNat + sp.count ≤ s.sp.slots.tokens + c.hasSlot.toNat + s.sp.count)
    (hstock : sp.items.tokens + c'.hasItem.toNat + s.sp.count ≤ s.sp.items.tokens + c.hasItem.toNat + sp.count) :
    Safe ⟨sp, update s.call t c', inserted, removed⟩ := by
  have hm := moved hcall c'
  have hroom₀ := h.room
  have hstock₀ := h.stock
  have hslot := hm.hasSlot
  have hitem := hm.hasItem
  refine ⟨hn ▸ h.small, hslots, hitems, ?_, ?_⟩
  · show sp.slots.tokens + (Library.count Call.hasSlot (update s.call t c') : Int) + sp.count ≤ sp.n
    omega
  · show sp.items.tokens + (Library.count Call.hasItem (update s.call t c') : Int) ≤ sp.count
    omega

theorem Safe.waitSlot {ret : Int} (h : Safe s) (hcall : s.call t = .user ret) : Safe (s.waitSlot t) := by
  refine h.move hcall _ rfl h.slots_nonneg h.items_nonneg ?_ ?_
  · show s.sp.slots.down.tokens + _ + (s.sp.count : Int) ≤ s.sp.slots.tokens + 0 + s.sp.count
    rw [sem.tokens_down]
    cases s.sp.slots.sleeps with
    | true => simp only [if_true, Call.hasSlot, Bool.toNat_false]; omega
    | false => simp only [Bool.false_eq_true, if_false, Call.hasSlot, Bool.toNat_true]; omega
  · cases s.sp.slots.sleeps with
    | true => exact Int.le_refl _
    | false => exact Int.le_refl _

theorem Safe.waitItem (h : Safe s) (hcall : s.call t = .removeEnter) : Safe (s.waitItem t) := by
  refine h.move hcall _ rfl h.slots_nonneg h.items_nonneg ?_ ?_
  · cases s.sp.items.sleeps with
    | true => exact Int.le_refl _
    | false => exact Int.le_refl _
  show s.sp.items.down.tokens + _ + (s.sp.count : Int) ≤ s.sp.items.tokens + 0 + s.sp.count
  rw [sem.tokens_down]
  cases s.sp.items.sleeps with
  | true => simp only [if_true, Call.hasItem, Bool.toNat_false]; omega
  | false => simp only [Bool.false_eq_true, if_false, Call.hasItem, Bool.toNat_true]; omega

theorem Safe.insertItem (h : Safe s) (hcall : s.call t = .insertCopy) (item : Option UInt8) :
    Safe (s.insertItem t item) := by
  have hhas : (s.call t).hasSlot = true := by rw [hcall]; rfl
  cases item with
  | none =>
    refine h.move hcall (.user (-1)) rfl h.slots_nonneg h.items_nonneg ?_ le_rfl
    show s.sp.slots.tokens + 0 + (s.sp.count : Int) ≤ s.sp.slots.tokens + 1 + s.sp.count
    omega
  | some item =>
    have hcount := sbuf.count_put item (h.count_small hhas)
    refine h.move hcall .insertSignal rfl h.slots_nonneg h.items_nonneg ?_ ?_
    · rw [hcount]
      show s.sp.slots.tokens + 0 + ((s.sp.count + 1 : Nat) : Int) ≤ s.sp.slots.tokens + 1 + s.sp.count
      omega
    · rw [hcount]
      show s.sp.items.tokens + 1 + (s.sp.count : Int) ≤ s.sp.items.tokens + 0 + ((s.sp.count + 1 : Nat) : Int)
      omega

theorem Safe.removeItem (h : Safe s) (hcall : s.call t = .removeCopy) (copied : Bool) : Safe (s.removeItem t copied) := by
  have hhas : (s.call t).hasItem = true := by rw [hcall]; rfl
  have hcount := sbuf.count_drop (h.count_pos hhas)
  have hroom : s.sp.slots.tokens + 1 + (s.sp.drop.count : Int) ≤ s.sp.slots.tokens + 0 + s.sp.count := by omega
  have hstock : s.sp.items.tokens + 0 + (s.sp.count : Int) ≤ s.sp.items.tokens + 1 + s.sp.drop.count := by omega
  cases copied with
  | true => exact h.move hcall .removeSignal rfl h.slots_nonneg h.items_nonneg hroom hstock
  | false =>
    refine h.move hcall (.user (-1)) rfl h.slots_nonneg h.items_nonneg ?_ hstock
    show s.sp.slots.tokens + 0 + (s.sp.drop.count : Int) ≤ s.sp.slots.tokens + 0 + s.sp.count
    omega

theorem Safe.run {env : Env} (h : Safe s) (hrun : s.run t env = some s') : Safe s' := by
  have hslots := h.slots_nonneg
  have hitems := h.items_nonneg
  unfold State.run at hrun
  cases hcall : s.call t with
  | user ret =>
    rw [hcall] at hrun
    cases hrun
  | insertWait =>
    simp only [hcall] at hrun
    split at hrun
    · cases hrun
    next hwake =>
      cases hrun
      have htokens := sem.tokens_resume s.sp.slots
      refine h.move hcall .insertCopy rfl ?_ hitems ?_ le_rfl
      · show 0 ≤ s.sp.slots.wakeup - 1
        omega
      · show s.sp.slots.resume.tokens + 1 + (s.sp.count : Int) ≤ s.sp.slots.tokens + 0 + s.sp.count
        omega
  | insertCopy =>
    simp only [hcall] at hrun
    cases hrun
    exact h.insertItem hcall _
  | insertSignal =>
    simp only [hcall] at hrun
    cases hrun
    have htokens := sem.tokens_signal s.sp.items
    refine h.move hcall (.user 0) rfl hslots (sem.wakeup_signal _ hitems) le_rfl ?_
    show s.sp.items.sema_signal.tokens + 0 + (s.sp.count : Int) ≤ s.sp.items.tokens + 1 + s.sp.count
    omega
  | removeEnter =>
    simp only [hcall] at hrun
    cases hrun
    exact h.waitItem hcall
  | removeWait =>
    simp only [hcall] at hrun
    split at hrun
    · cases hrun
    next hwake =>
      cases hrun
      have htokens := sem.tokens_resume s.sp.items
      refine h.move hcall .removeTest rfl hslots ?_ le_rfl ?_
      · show 0 ≤ s.sp.items.wakeup - 1
        omega
      · show s.sp.items.resume.tokens + 1 + (s.sp.count : Int) ≤ s.sp.items.tokens + 0 + s.sp.count
        omega
  | removeTest =>
    simp only [hcall] at hrun
    cases hrun
    rw [if_neg (h.counters_ne (t := t) (by rw [hcall]; rfl))]
    exact h.move hcall .removeCopy rfl hslots hitems le_rfl le_rfl
  | removeCopy =>
    simp only [hcall] at hrun
    cases hrun
    exact h.removeItem hcall _
  | removeSignal =>
    simp only [hcall] at hrun
    cases hrun
    have htokens := sem.tokens_signal s.sp.slots
    refine h.move hcall (.user 0) rfl (sem.wakeup_signal _ hslots) hitems ?_ le_rfl
    show s.sp.slots.sema_signal.tokens + 0 + (s.sp.count : Int) ≤ s.sp.slots.tokens + 1 + s.sp.count
    omega
  | dead =>
    rw [hcall] at hrun
    cases hrun

/-- **No step of any kind gives out a slot or an item twice.** -/
theorem Safe.step {e : Event T} (h : Safe s) (hstep : Step s e s') : Safe s' := by
  unfold Step State.next at hstep
  cases e with
  | sbuf_insert t =>
    cases hcall : s.call t <;> simp only [hcall] at hstep <;> cases hstep
    exact h.waitSlot hcall
  | sbuf_remove t =>
    cases hcall : s.call t <;> simp only [hcall] at hstep <;> cases hstep
    unfold State.setCall
    split
    · exact h.move hcall (.user 1) rfl h.slots_nonneg h.items_nonneg le_rfl le_rfl
    · exact h.move hcall .removeEnter rfl h.slots_nonneg h.items_nonneg le_rfl le_rfl
  | run t env => exact h.run hstep
  | exit t =>
    cases hcall : s.call t <;> simp only [hcall] at hstep <;> cases hstep
    · exact h.move hcall .dead rfl h.slots_nonneg h.items_nonneg le_rfl le_rfl
    · exact h.move hcall .dead rfl h.slots_nonneg h.items_nonneg le_rfl le_rfl

/-- A step that leads to a state in order is a good one. -/
theorem ok_of_law {e : Event T} (h : Inv s) (hstep : Step s e s') (hlaw : Law s') : Ok s e := by
  unfold Step State.next at hstep
  cases e with
  | sbuf_insert t => trivial
  | sbuf_remove t => trivial
  | run t env =>
    unfold Ok
    have hrun : s.run t env = some s' := hstep
    unfold State.run at hrun
    cases hcall : s.call t with
    | insertCopy =>
      simp only [hcall] at hrun ⊢
      cases hrun
      have hhas : (s.call t).hasSlot = true := by rw [hcall]; rfl
      cases hitem : env.either_copyin with
      | none =>
        rw [hitem] at hlaw
        exact absurd hlaw (not_law_of_lost h rfl rfl rfl rfl (by rw [hcall]; rfl) rfl)
      | some item =>
        refine ⟨item, rfl, (sbuf.stored_put_iff item (h.safe.count_small hhas)).mp ?_⟩
        rw [hitem] at hlaw
        have hfifo : s.inserted ++ [item] = s.removed ++ (s.sp.put item).stored := hlaw.fifo
        rw [h.fifo, List.append_assoc] at hfifo
        exact (List.append_cancel_left hfifo).symm
    | removeCopy =>
      simp only [hcall] at hrun ⊢
      cases hrun
      cases hcopied : env.either_copyout with
      | true => rfl
      | false =>
        rw [hcopied] at hlaw
        exact absurd hlaw (not_law_of_lost h rfl rfl rfl rfl (by rw [hcall]; rfl) rfl)
    | user ret => simp only [hcall]
    | insertWait => simp only [hcall]
    | insertSignal => simp only [hcall]
    | removeEnter => simp only [hcall]
    | removeWait => simp only [hcall]
    | removeTest => simp only [hcall]
    | removeSignal => simp only [hcall]
    | dead => simp only [hcall]
  | exit t =>
    cases hcall : s.call t <;> simp only [hcall] at hstep <;> cases hstep
    · exact absurd hlaw (not_law_of_lost h rfl rfl rfl rfl (by rw [hcall]; rfl) rfl)
    · exact absurd hlaw (not_law_of_lost h rfl rfl rfl rfl (by rw [hcall]; rfl) rfl)

omit [DecidableEq T] in
theorem inv_fresh {buf : Nat → UInt8} {n : Nat} {sp : sbuf} (hinit : sbuf_init buf n = some sp) :
    Inv (fresh (T := T) sp) := by
  unfold sbuf_init at hinit
  split at hinit
  next hle =>
    cases hinit
    have hmax : n ≤ 2 ^ 25 := hle
    have hint : int32 n = n := int32_of_range (by simp only [INT_MIN]; omega) (by simp only [INT_MAX]; omega)
    have hnone : ∀ p : Call → Bool, p (.user 0) = false → Library.count p (fun _ : T => Call.user 0) = 0 := by
      intro p hp
      exact count_eq_zero fun _ => hp
    have hcount : sbuf.count ⟨buf, n, 0, 0, ⟨n, 0⟩, ⟨0, 0⟩⟩ = 0 := by
      rw [sbuf.count, BitVec.sub_self]
      rfl
    have hstored : sbuf.stored ⟨buf, n, 0, 0, ⟨n, 0⟩, ⟨0, 0⟩⟩ = [] := by
      rw [sbuf.stored, hcount]
      rfl
    rw [hint]
    refine ⟨hstored.symm, ?_, ⟨?_, Int.le_refl 0⟩, ⟨?_, Int.le_refl 0⟩, ?_, ?_⟩
    · show n < 2 ^ 31
      omega
    · rw [fresh, hnone _ rfl]
      simp only
      omega
    · rw [fresh, hnone _ rfl]
      rfl
    · rw [fresh, hnone _ rfl]
      simp only [sem.tokens, hcount]
      omega
    · rw [fresh, hnone _ rfl]
      simp only [sem.tokens, hcount]
      rfl
  · cases hinit

/-- **The buffer is a FIFO that loses no slot and no item, in exactly the runs whose copies succeed, that store no
item over another one and in which nobody is killed in an operation.** -/
theorem sbuf_ring {buf : Nat → UInt8} {n : Nat} {sp : sbuf} (hinit : sbuf_init buf n = some sp) (es : List (Event T))
    (s : State T) :
    (Run (Guarded Step Keeps) (fresh sp) es s ↔ Run (Guarded Step Ok) (fresh sp) es s) ∧
      (Run (Guarded Step Ok) (fresh sp) es s → Law s) := by
  have hkeep : ∀ (s : State T) e s', Inv s → Ok s e → Step s e s' → Inv s' := fun _ _ _ h hok hstep => h.step hok hstep
  refine ⟨Run.guarded_iff hkeep (fun s₁ e s₂ h hstep => ⟨fun hkeeps => ?_, fun hok s₂' hstep' => ?_⟩) (inv_fresh hinit),
    fun hrun => ?_⟩
  · exact ok_of_law h hstep (hkeeps s₂ hstep)
  · exact (h.step hok hstep').law
  · exact (hrun.invariant (fun _ _ _ h hstep => h.step hstep.1 hstep.2) (inv_fresh hinit)).law

end Tokens

/-! ## A copy that fails -/

/-- The capacity that `sys_socket` asks for. -/
def SOCKET_SBUF_SIZE : Nat := 10 * 4096

/-- Thread `true` puts two bytes in and takes them out. -/
def two_bytes : List (Event Bool) :=
  let put (b : UInt8) : List (Event Bool) := .sbuf_insert true :: List.replicate 2 (.run true ⟨some b, true⟩)
  let take : List (Event Bool) := .sbuf_remove true :: List.replicate 4 (.run true ⟨none, true⟩)
  put 104 ++ put 105 ++ take ++ take

theorem sbuf_ring_two_bytes : ∃ sp s, sbuf_init (fun _ => 0) SOCKET_SBUF_SIZE = some sp ∧
    Run (Guarded Step Keeps) (fresh sp) two_bytes s ∧ s.removed = [104, 105] ∧ Law s := by
  obtain ⟨sp, hsp⟩ : ∃ sp, sbuf_init (fun _ => 0) SOCKET_SBUF_SIZE = some sp := ⟨_, rfl⟩
  have hring := sbuf_ring hsp two_bytes
  cases hsp
  obtain ⟨s, hrun, hs⟩ : ∃ s, Run (Guarded Step Ok) (fresh ⟨fun _ => 0, SOCKET_SBUF_SIZE, 0, 0, ⟨int32 SOCKET_SBUF_SIZE, 0⟩, ⟨0, 0⟩⟩)
      two_bytes s ∧ s.removed = [104, 105] := by
    refine ⟨_, .cons ⟨trivial, rfl⟩ (.cons ⟨⟨104, rfl, sbuf.free_of_le ?_ ?_ 104⟩, rfl⟩ (.cons ⟨trivial, rfl⟩
      (.cons ⟨trivial, rfl⟩ (.cons ⟨⟨105, rfl, sbuf.free_of_le ?_ ?_ 105⟩, rfl⟩ (.cons ⟨trivial, rfl⟩
      (.cons ⟨trivial, rfl⟩ (.cons ⟨trivial, rfl⟩ (.cons ⟨trivial, rfl⟩ (.cons ⟨rfl, rfl⟩ (.cons ⟨trivial, rfl⟩
      (.cons ⟨trivial, rfl⟩ (.cons ⟨trivial, rfl⟩ (.cons ⟨trivial, rfl⟩ (.cons ⟨rfl, rfl⟩ (.cons ⟨trivial, rfl⟩
      (.nil _)))))))))))))))), rfl⟩ <;> decide
  exact ⟨_, s, rfl, (hring s).1.mpr hrun, hs, (hring s).2 hrun⟩

/-- Thread `true` puts a byte in from an address that is not mapped. -/
def failed_copy : List (Event Bool) := [.sbuf_insert true, .run true ⟨none, true⟩]

/-- The slot that the failed call took is never given back. -/
theorem slot_lost : ∃ sp s, sbuf_init (fun _ => 0) SOCKET_SBUF_SIZE = some sp ∧
    Run Step (fresh sp) failed_copy s ∧ s.call true = .user (-1) ∧ ¬ Law s := by
  refine ⟨_, _, rfl, .cons rfl (.cons rfl (.nil _)), rfl, fun hlaw => ?_⟩
  have hconserved := hlaw.conserved
  revert hconserved
  decide

end LostWakeup.Lib.Sbuf
