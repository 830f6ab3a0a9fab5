/-
# LostWakeup.Atomic.Futex — `src/atomic/futex.c`: one table of futexes for all processes.

A futex is found by the user address alone, so threads of different processes share a waiting queue.  `futex_wakeup`
and `futex_requeue` serve it from its head, whoever waits there; `futex_isolation` says which runs keep processes apart.
-/
import Mathlib.Data.List.Nodup
import LostWakeup.Library.Chained
import LostWakeup.Library.Outcome
import LostWakeup.Library.Run

namespace LostWakeup.Atomic.Futex

open Library
open Function (update update_eq_self update_idem update_of_ne update_self)
open List (mem_append mem_cons mem_of_mem_take)

/-! ## Threads and futexes -/

inductive thread_state
  | TCB_RUNNABLE
  | TCB_RUNNING
  | TCB_SLEEPING
  deriving DecidableEq

/-- A thread; its waiting queue goes by the futex that holds it. -/
structure tcb (P : Type) where
  state : thread_state
  p : P
  wait_chan_entry : Option Nat

def FUTEX_NUM : Nat := 32

/-- `futex_map` with the futexes its nodes point to.  A futex goes by its address in the kernel. -/
structure Futexes (T P : Type) where
  thread : T → tcb P
  futex_map : Chains Nat Nat
  waiting_queue : Nat → List T

/-- `FUTEX_MAP` compares the addresses themselves. -/
def hash_key (uaddr : Nat) : Nat := uaddr

inductive Panic
  /-- `futex wakeup : this thread is not sleeping` and the same of `futex_requeue`. -/
  | not_sleeping
  /-- `ASSERT(t->wait_chan_entry != NULL)`. -/
  | no_wait_chan
  deriving DecidableEq

namespace Futexes

variable {T P : Type} [DecidableEq T]

def setThread (s : Futexes T P) (t : T) (tcb : tcb P) : Futexes T P :=
  { s with thread := update s.thread t tcb }

def setQueue (s : Futexes T P) (fp : Nat) (q : List T) : Futexes T P :=
  { s with waiting_queue := update s.waiting_queue fp q }

/-- `get_futex` with `assert = 1`. -/
def get_futex (s : Futexes T P) (uaddr : Nat) : Option Nat :=
  (s.futex_map.find hash_key FUTEX_NUM uaddr).map Prod.snd

/-- `get_futex` with `assert = 0`; `fp` is what `kzalloc` returns. -/
def get_futex_create (s : Futexes T P) (uaddr fp : Nat) : Futexes T P × Nat :=
  match s.get_futex uaddr with
  | some fp => (s, fp)
  | none => ({ s.setQueue fp [] with futex_map := s.futex_map.append hash_key FUTEX_NUM uaddr fp }, fp)

def futex_free (s : Futexes T P) (uaddr : Nat) : Futexes T P :=
  { s with futex_map := s.futex_map.erase hash_key FUTEX_NUM uaddr }

/-- `futex_wait` up to where the thread sleeps; `equal`: the word at `uaddr` could be read and has the expected value.
-/
def futex_wait (s : Futexes T P) (t : T) (uaddr : Nat) (equal : Bool) (fp : Nat) : Futexes T P :=
  if equal then
    let (s, fp) := s.get_futex_create uaddr fp
    let s := s.setThread t { s.thread t with state := .TCB_SLEEPING, wait_chan_entry := some fp }
    s.setQueue fp (s.waiting_queue fp ++ [t])
  else s

/-- The loop of `futex_wakeup`, `n` turns at most; the threads it wakes. -/
def wakeLoop (fp : Nat) : Nat → Futexes T P → Except Panic (Futexes T P × List T)
  | 0, s => .ok (s, [])
  | n + 1, s =>
    match s.waiting_queue fp with
    | [] => .ok (s, [])
    | t :: q =>
      let s := s.setQueue fp q
      if (s.thread t).state ≠ .TCB_SLEEPING then .error .not_sleeping
      else if (s.thread t).wait_chan_entry = none then .error .no_wait_chan
      else do
        let s := s.setThread t { s.thread t with state := .TCB_RUNNABLE, wait_chan_entry := none }
        let (s, woken) ← wakeLoop fp n s
        return (s, t :: woken)

/-- `futex_wakeup`; the return value is the number of threads woken. -/
def futex_wakeup (s : Futexes T P) (uaddr : Nat) (nr_wake : Int) : Except Panic (Futexes T P × List T) :=
  match s.get_futex uaddr with
  | none => .ok (s, [])
  | some fp => do
    let (s, woken) ← wakeLoop fp nr_wake.toNat s
    return (if s.waiting_queue fp = [] then s.futex_free uaddr else s, woken)

/-- The loop of `futex_requeue`; the threads it moves keep their `wait_chan_entry`. -/
def requeueLoop (fp_old fp_new : Nat) : Nat → Futexes T P → Except Panic (Futexes T P × List T)
  | 0, s => .ok (s, [])
  | n + 1, s =>
    match s.waiting_queue fp_old with
    | [] => .ok (s, [])
    | t :: q =>
      let s := s.setQueue fp_old q
      if (s.thread t).state ≠ .TCB_SLEEPING then .error .not_sleeping
      else do
        let s := s.setQueue fp_new (s.waiting_queue fp_new ++ [t])
        let (s, moved) ← requeueLoop fp_old fp_new n s
        return (s, t :: moved)

/-- The part of `futex_requeue` behind its call of `futex_wakeup`. -/
def requeueRest (s : Futexes T P) (uaddr1 uaddr2 : Nat) (nr_requeue : Int) (fp : Nat) :
    Except Panic (Futexes T P × List T) :=
  match s.get_futex uaddr1 with
  | none => .ok (s, [])
  | some fp_old => do
    let (s, fp_new) := s.get_futex_create uaddr2 fp
    let (s, moved) ← requeueLoop fp_old fp_new nr_requeue.toNat s
    return (if s.waiting_queue fp_old = [] then s.futex_free uaddr1 else s, moved)

/-- `futex_requeue`; the threads it wakes and those it moves. -/
def futex_requeue (s : Futexes T P) (uaddr1 : Nat) (nr_wake : Int) (uaddr2 : Nat) (nr_requeue : Int) (fp : Nat) :
    Except Panic (Futexes T P × List T × List T) := do
  let (s, woken) ← s.futex_wakeup uaddr1 nr_wake
  let (s, moved) ← s.requeueRest uaddr1 uaddr2 nr_requeue fp
  return (s, woken, moved)

end Futexes

/-! ## Calls -/

inductive Call (T : Type)
  | futex_wait (t : T) (uaddr : Nat) (equal : Bool) (fp : Nat)
  | futex_wakeup (t : T) (uaddr : Nat) (nr_wake : Int)
  | futex_requeue (t : T) (uaddr1 : Nat) (nr_wake : Int) (uaddr2 : Nat) (nr_requeue : Int) (fp : Nat)
  /-- The scheduler picks a runnable thread. -/
  | schedule (t : T)

/-- What a call did to the waiting threads. -/
structure Effect (T : Type) where
  woken : List T
  moved : List T

namespace Futexes

variable {T P : Type} [DecidableEq T] [DecidableEq P]

/-- One call; the thread that makes it runs, and `kzalloc` returns memory that no futex uses. -/
def call (s : Futexes T P) : Call T → Except Panic (Futexes T P × Effect T)
  | .futex_wait t uaddr equal fp => .ok (s.futex_wait t uaddr equal fp, ⟨[], []⟩)
  | .futex_wakeup _ uaddr nr_wake => do
    let (s, woken) ← s.futex_wakeup uaddr nr_wake
    return (s, ⟨woken, []⟩)
  | .futex_requeue _ uaddr1 nr_wake uaddr2 nr_requeue fp => do
    let (s, woken, moved) ← s.futex_requeue uaddr1 nr_wake uaddr2 nr_requeue fp
    return (s, ⟨woken, moved⟩)
  | .schedule t => .ok (s.setThread t { s.thread t with state := .TCB_RUNNING }, ⟨[], []⟩)

def Unused (s : Futexes T P) (fp : Nat) : Prop := ∀ uaddr, s.get_futex uaddr ≠ some fp

def Legal (s : Futexes T P) : Call T → Prop
  | .futex_wait t _ _ fp => (s.thread t).state = .TCB_RUNNING ∧ s.Unused fp
  | .futex_wakeup t _ _ => (s.thread t).state = .TCB_RUNNING
  | .futex_requeue t _ _ _ _ fp => (s.thread t).state = .TCB_RUNNING ∧ s.Unused fp
  | .schedule t => (s.thread t).state = .TCB_RUNNABLE

def Step (s : Futexes T P) (c : Call T) (s' : Futexes T P) : Prop :=
  s.Legal c ∧ ∃ effect, s.call c = .ok (s', effect)

/-- No futex yet, every thread runnable. -/
def booted (proc : T → P) : Futexes T P := ⟨fun t => ⟨.TCB_RUNNABLE, proc t, none⟩, fun _ => [], fun _ => []⟩

/-! ## The property -/

/-- The threads that wait at an address, in the order of the queue. -/
def waiting (s : Futexes T P) (uaddr : Nat) : List T :=
  match s.get_futex uaddr with
  | none => []
  | some fp => s.waiting_queue fp

def own (s : Futexes T P) (t u : T) : Bool := (s.thread u).p = (s.thread t).p

/-- A call returns and touches threads of its own process only, and a wake wakes as many of them as it may. -/
def Isolated (s : Futexes T P) : Call T → Prop
  | .futex_wakeup t uaddr nr_wake => ∃ s' effect, s.call (.futex_wakeup t uaddr nr_wake) = .ok (s', effect) ∧
      (∀ u ∈ effect.woken, s.own t u = true) ∧
        effect.woken.length = min nr_wake.toNat ((s.waiting uaddr).countP (s.own t))
  | .futex_requeue t uaddr1 nr_wake uaddr2 nr_requeue fp => ∃ s' effect,
      s.call (.futex_requeue t uaddr1 nr_wake uaddr2 nr_requeue fp) = .ok (s', effect) ∧
        (∀ u ∈ effect.woken, s.own t u = true) ∧ ∀ u ∈ effect.moved, s.own t u = true
  | _ => True

/-- The head of the queue, as far as the call may take threads from it, is of the caller's process. -/
def OwnHead (s : Futexes T P) : Call T → Prop
  | .futex_wakeup t uaddr nr_wake => ∀ u ∈ (s.waiting uaddr).take nr_wake.toNat, s.own t u = true
  | .futex_requeue t uaddr1 nr_wake _ nr_requeue _ =>
      ∀ u ∈ (s.waiting uaddr1).take (nr_wake.toNat + nr_requeue.toNat), s.own t u = true
  | _ => True

end Futexes

/-! ## Queues -/

namespace Futexes

variable {T P : Type} {s : Futexes T P} {fp uaddr : Nat}

/-- Threads sleep in at most one place of one queue, and every queue belongs to an address. -/
structure Inv (s : Futexes T P) : Prop where
  unique : s.futex_map.Unique hash_key
  apart : ∀ a b fp, s.get_futex a = some fp → s.get_futex b = some fp → a = b
  live : ∀ fp t, t ∈ s.waiting_queue fp → ∃ uaddr, s.get_futex uaddr = some fp
  asleep : ∀ fp t, t ∈ s.waiting_queue fp →
    (s.thread t).state = .TCB_SLEEPING ∧ (s.thread t).wait_chan_entry ≠ none
  nodup : ∀ fp, (s.waiting_queue fp).Nodup
  once : ∀ fp fp' t, t ∈ s.waiting_queue fp → t ∈ s.waiting_queue fp' → fp = fp'

theorem booted_inv (proc : T → P) : (booted proc).Inv :=
  ⟨fun _ => List.Pairwise.nil, nofun, nofun, nofun, fun _ => List.nodup_nil, nofun⟩

theorem waiting_of_get (h : s.get_futex uaddr = some fp) : s.waiting uaddr = s.waiting_queue fp := by
  unfold waiting
  rw [h]

theorem waiting_of_none (h : s.get_futex uaddr = none) : s.waiting uaddr = [] := by
  unfold waiting
  rw [h]

/-! ## `get_futex` -/

theorem get_futex_append (hnone : s.get_futex uaddr = none) (a : Nat) :
    ({ s with futex_map := s.futex_map.append hash_key FUTEX_NUM uaddr fp }).get_futex a =
      if a = uaddr then some fp else s.get_futex a := by
  have hfind : s.futex_map.find hash_key FUTEX_NUM (hash_key uaddr) = none := Option.map_eq_none_iff.mp hnone
  show ((s.futex_map.append hash_key FUTEX_NUM uaddr fp).find hash_key FUTEX_NUM a).map Prod.snd = _
  rw [Chains.find_append hfind]
  unfold hash_key
  split
  · rfl
  · rfl

theorem get_futex_free (hu : s.futex_map.Unique hash_key) (a : Nat) :
    (s.futex_free uaddr).get_futex a = if a = uaddr then none else s.get_futex a := by
  show ((s.futex_map.erase hash_key FUTEX_NUM uaddr).find hash_key FUTEX_NUM a).map Prod.snd = _
  rw [Chains.find_erase hu]
  unfold hash_key
  split
  · rfl
  · rfl

theorem Inv.free (h : s.Inv) (hget : s.get_futex uaddr = some fp) (hempty : s.waiting_queue fp = []) :
    (s.futex_free uaddr).Inv := by
  have hother : ∀ a f, (s.futex_free uaddr).get_futex a = some f → a ≠ uaddr ∧ s.get_futex a = some f := by
    intro a f ha
    rw [get_futex_free h.unique] at ha
    split at ha
    · cases ha
    · next hne => exact ⟨hne, ha⟩
  refine ⟨Chains.unique_erase h.unique, fun a b f ha hb => ?_, fun f t ht => ?_, h.asleep, h.nodup, h.once⟩
  · exact h.apart a b f (hother a f ha).2 (hother b f hb).2
  obtain ⟨a, ha⟩ := h.live f t ht
  have hne : a ≠ uaddr := by
    rintro rfl
    rw [hget] at ha
    cases ha
    rw [show (s.futex_free a).waiting_queue = s.waiting_queue from rfl, hempty] at ht
    cases ht
  refine ⟨a, ?_⟩
  rw [get_futex_free h.unique, if_neg hne]
  exact ha

/-- What `get_futex` changes: at most the address gets a futex. -/
structure Got (s : Futexes T P) (uaddr : Nat) (s' : Futexes T P) (fp : Nat) : Prop where
  inv : s'.Inv
  got : s'.get_futex uaddr = some fp
  kept : ∀ a f, s.get_futex a = some f → s'.get_futex a = some f
  queues : s'.waiting_queue = s.waiting_queue
  threads : s'.thread = s.thread

theorem get_futex_create_spec (h : s.Inv) (hfp : s.Unused fp) :
    Got s uaddr (s.get_futex_create uaddr fp).1 (s.get_futex_create uaddr fp).2 := by
  unfold get_futex_create
  cases hget : s.get_futex uaddr with
  | some f => exact ⟨h, hget, fun _ _ ha => ha, rfl, rfl⟩
  | none =>
    have hempty : s.waiting_queue fp = [] := by
      apply List.eq_nil_iff_forall_not_mem.mpr
      intro t ht
      obtain ⟨a, ha⟩ := h.live fp t ht
      exact hfp a ha
    have hqueues : update s.waiting_queue fp [] = s.waiting_queue := by
      rw [← hempty, update_eq_self]
    have hfind : s.futex_map.find hash_key FUTEX_NUM (hash_key uaddr) = none := Option.map_eq_none_iff.mp hget
    have hnew : ∀ a, ({ s.setQueue fp [] with
        futex_map := s.futex_map.append hash_key FUTEX_NUM uaddr fp } : Futexes T P).get_futex a =
          if a = uaddr then some fp else s.get_futex a := get_futex_append hget
    have hqueue : ∀ f t, t ∈ (s.setQueue fp []).waiting_queue f → t ∈ s.waiting_queue f := by
      intro f t ht
      rw [← hqueues]
      exact ht
    refine ⟨⟨Chains.unique_append h.unique hfind, fun a b f ha hb => ?_, fun f t ht => ?_, fun f t ht => ?_,
      fun f => ?_, fun f f' t ht ht' => ?_⟩, ?_, fun a f ha => ?_, hqueues, rfl⟩
    · rw [hnew] at ha hb
      split at ha
      · next hau =>
        cases ha
        split at hb
        · next hbu => rw [hau, hbu]
        · exact absurd hb (hfp b)
      · split at hb
        · cases hb
          exact absurd ha (hfp a)
        · exact h.apart a b f ha hb
    · obtain ⟨a, ha⟩ := h.live f t (hqueue f t ht)
      have hne : a ≠ uaddr := by
        rintro rfl
        rw [hget] at ha
        cases ha
      refine ⟨a, ?_⟩
      rw [hnew, if_neg hne]
      exact ha
    · exact h.asleep f t (hqueue f t ht)
    · show (update s.waiting_queue fp [] f).Nodup
      rw [hqueues]
      exact h.nodup f
    · exact h.once f f' t (hqueue f t ht) (hqueue f' t ht')
    · rw [hnew, if_pos rfl]
    · have hne : a ≠ uaddr := by
        rintro rfl
        rw [hget] at ha
        cases ha
      rw [hnew, if_neg hne]
      exact ha

theorem Inv.taken {s' : Futexes T P} (h : s.Inv) (hmap : s'.futex_map = s.futex_map)
    (hsub : ∀ f, (s'.waiting_queue f).Sublist (s.waiting_queue f))
    (hthread : ∀ f t, t ∈ s'.waiting_queue f → s'.thread t = s.thread t) : s'.Inv := by
  have hget : ∀ a, s'.get_futex a = s.get_futex a := fun a => by
    unfold get_futex
    rw [hmap]
  have hmem : ∀ f t, t ∈ s'.waiting_queue f → t ∈ s.waiting_queue f := fun f t ht => (hsub f).subset ht
  refine ⟨hmap ▸ h.unique, fun a b f ha hb => ?_, fun f t ht => ?_, fun f t ht => ?_, fun f => ?_, fun f f' t ht ht' => ?_⟩
  · rw [hget] at ha hb
    exact h.apart a b f ha hb
  · obtain ⟨a, ha⟩ := h.live f t (hmem f t ht)
    exact ⟨a, (hget a).trans ha⟩
  · rw [hthread f t ht]
    exact h.asleep f t (hmem f t ht)
  · exact (h.nodup f).sublist (hsub f)
  · exact h.once f f' t (hmem f t ht) (hmem f' t ht')

/-- Threads have moved from one queue to another. -/
theorem Inv.moved {s' : Futexes T P} {fp_old fp_new n : Nat} (h : s.Inv) (hne : fp_old ≠ fp_new)
    (hnew : ∃ a, s.get_futex a = some fp_new) (hmap : s'.futex_map = s.futex_map) (hthread : s'.thread = s.thread)
    (hqold : s'.waiting_queue fp_old = (s.waiting_queue fp_old).drop n)
    (hqnew : s'.waiting_queue fp_new = s.waiting_queue fp_new ++ (s.waiting_queue fp_old).take n)
    (hother : ∀ f, f ≠ fp_old → f ≠ fp_new → s'.waiting_queue f = s.waiting_queue f) : s'.Inv := by
  have hget : ∀ a, s'.get_futex a = s.get_futex a := fun a => by
    unfold get_futex
    rw [hmap]
  -- where a thread of a queue was before
  have horigin : ∀ f t, t ∈ s'.waiting_queue f →
      (t ∈ s.waiting_queue f ∧ (f = fp_old → t ∈ (s.waiting_queue fp_old).drop n)) ∨
        (f = fp_new ∧ t ∈ (s.waiting_queue fp_old).take n) := by
    intro f t ht
    by_cases hf : f = fp_old
    · rw [hf, hqold] at ht
      exact .inl ⟨hf ▸ List.mem_of_mem_drop ht, fun _ => ht⟩
    by_cases hf' : f = fp_new
    · rw [hf', hqnew, mem_append] at ht
      obtain hin | hin := ht
      · exact .inl ⟨hf' ▸ hin, fun heq => absurd heq hf⟩
      · exact .inr ⟨hf', hin⟩
    · rw [hother f hf hf'] at ht
      exact .inl ⟨ht, fun heq => absurd heq hf⟩
  have hdisjoint := List.disjoint_take_drop (h.nodup fp_old) (Nat.le_refl n)
  have hapart : ∀ f t, t ∈ (s.waiting_queue fp_old).take n → t ∈ s.waiting_queue f →
      (f = fp_old → t ∈ (s.waiting_queue fp_old).drop n) → False := by
    intro f t htake hin hdrop
    have hf := h.once fp_old f t (mem_of_mem_take htake) hin
    exact hdisjoint htake (hdrop hf.symm)
  refine ⟨hmap ▸ h.unique, fun a b f ha hb => ?_, fun f t ht => ?_, fun f t ht => ?_, fun f => ?_, fun f f' t ht ht' => ?_⟩
  · rw [hget] at ha hb
    exact h.apart a b f ha hb
  · obtain ⟨hin, -⟩ | ⟨hf, -⟩ := horigin f t ht
    · obtain ⟨a, ha⟩ := h.live f t hin
      exact ⟨a, (hget a).trans ha⟩
    · obtain ⟨a, ha⟩ := hnew
      exact ⟨a, hf ▸ (hget a).trans ha⟩
  · rw [hthread]
    obtain ⟨hin, -⟩ | ⟨-, hin⟩ := horigin f t ht
    · exact h.asleep f t hin
    · exact h.asleep fp_old t (mem_of_mem_take hin)
  · by_cases hf : f = fp_old
    · rw [hf, hqold]
      exact (h.nodup fp_old).sublist (List.drop_sublist _ _)
    by_cases hf' : f = fp_new
    · rw [hf', hqnew]
      refine (h.nodup fp_new).append ((h.nodup fp_old).sublist (List.take_sublist _ _)) fun t ht htake => ?_
      exact hne (h.once fp_old fp_new t (mem_of_mem_take htake) ht)
    · rw [hother f hf hf']
      exact h.nodup f
  · obtain ⟨hin, hdrop⟩ | ⟨hf, htake⟩ := horigin f t ht
    · obtain ⟨hin', -⟩ | ⟨-, htake⟩ := horigin f' t ht'
      · exact h.once f f' t hin hin'
      · exact (hapart f t htake hin hdrop).elim
    · obtain ⟨hin', hdrop'⟩ | ⟨hf', -⟩ := horigin f' t ht'
      · exact (hapart f' t htake hin' hdrop').elim
      · exact hf.trans hf'.symm

theorem Inv.rotated {s' : Futexes T P} (h : s.Inv) (hmap : s'.futex_map = s.futex_map) (hthread : s'.thread = s.thread)
    (hperm : ∀ f, (s'.waiting_queue f).Perm (s.waiting_queue f)) : s'.Inv := by
  have hget : ∀ a, s'.get_futex a = s.get_futex a := fun a => by
    unfold get_futex
    rw [hmap]
  refine ⟨hmap ▸ h.unique, fun a b f ha hb => ?_, fun f t ht => ?_, fun f t ht => ?_, fun f => ?_, fun f f' t ht ht' => ?_⟩
  · rw [hget] at ha hb
    exact h.apart a b f ha hb
  · obtain ⟨a, ha⟩ := h.live f t ((hperm f).subset ht)
    exact ⟨a, (hget a).trans ha⟩
  · rw [hthread]
    exact h.asleep f t ((hperm f).subset ht)
  · exact (hperm f).nodup_iff.mpr (h.nodup f)
  · exact h.once f f' t ((hperm f).subset ht) ((hperm f').subset ht')

/-! ## The loops -/

/-- A thread goes to the end of another waiting queue. -/
def move (s : Futexes T P) (fp_old fp_new : Nat) (t : T) (q : List T) : Futexes T P :=
  (s.setQueue fp_old q).setQueue fp_new ((s.setQueue fp_old q).waiting_queue fp_new ++ [t])

theorem requeueLoop_cons {fp_old fp_new : Nat} (n : Nat) {s : Futexes T P} {t : T} {q : List T}
    (hq : s.waiting_queue fp_old = t :: q) (hstate : (s.thread t).state = .TCB_SLEEPING) :
    requeueLoop fp_old fp_new (n + 1) s =
      (requeueLoop fp_old fp_new n (s.move fp_old fp_new t q)).map fun r => (r.1, t :: r.2) := by
  have hstate' : ¬ ((s.setQueue fp_old q).thread t).state ≠ .TCB_SLEEPING := not_not.mpr hstate
  rw [requeueLoop, hq]
  simp only [if_neg hstate']
  show (requeueLoop fp_old fp_new n (s.move fp_old fp_new t q) >>= _) = _
  cases requeueLoop fp_old fp_new n (s.move fp_old fp_new t q) with
  | error e => rfl
  | ok r => rfl

/-- The loop moves the head of one queue to the end of another. -/
theorem requeueLoop_other {fp_old fp_new : Nat} (hne : fp_old ≠ fp_new) (n : Nat) (s : Futexes T P)
    (hsleep : ∀ t ∈ s.waiting_queue fp_old, (s.thread t).state = .TCB_SLEEPING) :
    ∃ s', requeueLoop fp_old fp_new n s = .ok (s', (s.waiting_queue fp_old).take n) ∧ s'.futex_map = s.futex_map ∧
      s'.thread = s.thread ∧ s'.waiting_queue fp_old = (s.waiting_queue fp_old).drop n ∧
      s'.waiting_queue fp_new = s.waiting_queue fp_new ++ (s.waiting_queue fp_old).take n ∧
      ∀ f, f ≠ fp_old → f ≠ fp_new → s'.waiting_queue f = s.waiting_queue f := by
  induction n generalizing s with
  | zero => exact ⟨s, rfl, rfl, rfl, rfl, (List.append_nil _).symm, fun _ _ _ => rfl⟩
  | succ n ih =>
    cases hq : s.waiting_queue fp_old with
    | nil =>
      refine ⟨s, ?_, rfl, rfl, hq, (List.append_nil _).symm, fun _ _ _ => rfl⟩
      unfold requeueLoop
      rw [hq]
      rfl
    | cons t q =>
      rw [hq] at hsleep
      have hold : (s.move fp_old fp_new t q).waiting_queue fp_old = q := by
        show update (update s.waiting_queue fp_old q) fp_new _ fp_old = q
        rw [update_of_ne hne, update_self]
      have hnew : (s.move fp_old fp_new t q).waiting_queue fp_new = s.waiting_queue fp_new ++ [t] := by
        show update (update s.waiting_queue fp_old q) fp_new
          (update s.waiting_queue fp_old q fp_new ++ [t]) fp_new = _
        rw [update_self, update_of_ne (Ne.symm hne)]
      have hrest := ih (s.move fp_old fp_new t q) fun u hu => by
        rw [hold] at hu
        exact hsleep u (List.mem_cons_of_mem _ hu)
      rw [hold, hnew] at hrest
      obtain ⟨s', hloop, hmap, hthread, hqold, hqnew, hqother⟩ := hrest
      refine ⟨s', ?_, hmap, hthread, hqold, ?_, fun f hf hf' => ?_⟩
      · rw [requeueLoop_cons n hq (hsleep t List.mem_cons_self), hloop]
        rfl
      · rw [hqnew, List.append_assoc]
        rfl
      · rw [hqother f hf hf']
        show update (update s.waiting_queue fp_old q) fp_new _ f = _
        rw [update_of_ne hf', update_of_ne hf]

/-- Moved to the queue they come from, the threads go round. -/
theorem requeueLoop_self (n : Nat) (s : Futexes T P)
    (hsleep : ∀ t ∈ s.waiting_queue fp, (s.thread t).state = .TCB_SLEEPING) :
    ∃ s' moved, requeueLoop fp fp n s = .ok (s', moved) ∧ s'.futex_map = s.futex_map ∧ s'.thread = s.thread ∧
      (s'.waiting_queue fp).Perm (s.waiting_queue fp) ∧ (∀ f, f ≠ fp → s'.waiting_queue f = s.waiting_queue f) ∧
      ∀ u, u ∈ moved ↔ u ∈ (s.waiting_queue fp).take n := by
  induction n generalizing s with
  | zero => exact ⟨s, [], rfl, rfl, rfl, .refl _, fun _ _ => rfl, fun _ => Iff.rfl⟩
  | succ n ih =>
    cases hq : s.waiting_queue fp with
    | nil =>
      refine ⟨s, [], ?_, rfl, rfl, hq ▸ .refl _, fun _ _ => rfl, fun _ => Iff.rfl⟩
      unfold requeueLoop
      rw [hq]
    | cons t q =>
      rw [hq] at hsleep
      have hqueue : (s.move fp fp t q).waiting_queue fp = q ++ [t] := by
        show update (update s.waiting_queue fp q) fp
          (update s.waiting_queue fp q fp ++ [t]) fp = _
        rw [update_self, update_self]
      have hrest := ih (s.move fp fp t q) fun u hu => by
        rw [hqueue] at hu
        refine hsleep u ?_
        rw [mem_cons]
        rw [mem_append, List.mem_singleton] at hu
        exact hu.symm
      rw [hqueue] at hrest
      obtain ⟨s', moved, hloop, hmap, hthread, hperm, hother, hmem⟩ := hrest
      refine ⟨s', t :: moved, ?_, hmap, hthread, ?_, fun f hf => ?_, fun u => ?_⟩
      · rw [requeueLoop_cons n hq (hsleep t List.mem_cons_self), hloop]
        rfl
      · exact hperm.trans (List.perm_append_singleton t q)
      · rw [hother f hf]
        show update (update s.waiting_queue fp q) fp _ f = _
        rw [update_of_ne hf, update_of_ne hf]
      · rw [mem_cons, List.take_succ_cons, mem_cons, hmem u, List.take_append, mem_append]
        constructor
        · rintro (heq | hin | hin)
          · exact .inl heq
          · exact .inr hin
          · exact .inl (List.mem_singleton.mp (mem_of_mem_take hin))
        · rintro (heq | hin)
          · exact .inl heq
          · exact .inr (.inl hin)

/-- What the second half of a requeue does at an address. -/
theorem requeueRest_spec (h : s.Inv) (uaddr1 uaddr2 : Nat) (nr_requeue : Int) (hfp : s.Unused fp) :
    ∃ s' moved, s.requeueRest uaddr1 uaddr2 nr_requeue fp = .ok (s', moved) ∧ s'.Inv ∧
      (∀ u, u ∈ moved ↔ u ∈ (s.waiting uaddr1).take nr_requeue.toNat) ∧ s'.thread = s.thread := by
  unfold requeueRest
  cases hget : s.get_futex uaddr1 with
  | none =>
    refine ⟨s, [], rfl, h, fun u => ?_, rfl⟩
    rw [waiting_of_none hget, List.take_nil]
  | some fp_old =>
    have hgot : Got s uaddr2 _ _ := get_futex_create_spec h hfp
    simp only
    generalize s.get_futex_create uaddr2 fp = r at hgot ⊢
    obtain ⟨s₁, fp_new⟩ := r
    simp only at hgot ⊢
    have hold : s₁.get_futex uaddr1 = some fp_old := hgot.kept uaddr1 fp_old hget
    have hsleep : ∀ t ∈ s₁.waiting_queue fp_old, (s₁.thread t).state = .TCB_SLEEPING := fun t ht =>
      (hgot.inv.asleep fp_old t ht).1
    -- the two loops, and the end that they share
    have hloop : ∃ s₂ moved, requeueLoop fp_old fp_new nr_requeue.toNat s₁ = .ok (s₂, moved) ∧ s₂.Inv ∧
        s₂.futex_map = s₁.futex_map ∧ s₂.thread = s₁.thread ∧
          ∀ u, u ∈ moved ↔ u ∈ (s₁.waiting_queue fp_old).take nr_requeue.toNat := by
      by_cases hne : fp_old = fp_new
      · subst hne
        obtain ⟨s₂, moved, hret, hmap, hthread, hperm, hother, hmem⟩ := requeueLoop_self nr_requeue.toNat s₁ hsleep
        refine ⟨s₂, moved, hret, hgot.inv.rotated hmap hthread fun f => ?_, hmap, hthread, hmem⟩
        by_cases hf : f = fp_old
        · rw [hf]
          exact hperm
        · rw [hother f hf]
      · obtain ⟨s₂, hret, hmap, hthread, hqold, hqnew, hother⟩ := requeueLoop_other hne nr_requeue.toNat s₁ hsleep
        exact ⟨s₂, _, hret, hgot.inv.moved hne ⟨uaddr2, hgot.got⟩ hmap hthread hqold hqnew hother, hmap, hthread,
          fun _ => Iff.rfl⟩
    obtain ⟨s₂, moved, hret, hinv, hmap, hthread, hmem⟩ := hloop
    rw [waiting_of_get hget, ← hgot.queues]
    simp only [hret, bind, Except.bind, pure, Except.pure]
    split
    · next hempty =>
      have hget₂ : s₂.get_futex uaddr1 = some fp_old := by
        unfold get_futex
        rw [hmap]
        exact hold
      exact ⟨_, _, rfl, hinv.free hget₂ hempty, hmem, hthread.trans hgot.threads⟩
    · exact ⟨_, _, rfl, hinv, hmem, hthread.trans hgot.threads⟩

variable [DecidableEq T]

/-- A thread leaves the waiting queue for good. -/
def wake (s : Futexes T P) (fp : Nat) (t : T) (q : List T) : Futexes T P :=
  (s.setQueue fp q).setThread t { s.thread t with state := .TCB_RUNNABLE, wait_chan_entry := none }

theorem wakeLoop_cons (n : Nat) {s : Futexes T P} {t : T} {q : List T} (hq : s.waiting_queue fp = t :: q)
    (hstate : (s.thread t).state = .TCB_SLEEPING) (hentry : (s.thread t).wait_chan_entry ≠ none) :
    wakeLoop fp (n + 1) s = (wakeLoop fp n (s.wake fp t q)).map fun r => (r.1, t :: r.2) := by
  have hstate' : ¬ ((s.setQueue fp q).thread t).state ≠ .TCB_SLEEPING := not_not.mpr hstate
  have hentry' : ¬ ((s.setQueue fp q).thread t).wait_chan_entry = none := hentry
  rw [wakeLoop, hq]
  simp only [if_neg hstate', if_neg hentry']
  show (wakeLoop fp n (s.wake fp t q) >>= _) = _
  cases wakeLoop fp n (s.wake fp t q) with
  | error e => rfl
  | ok r => rfl

/-- The loop wakes the head of the queue. -/
theorem wakeLoop_spec (n : Nat) (s : Futexes T P) (hsleep : ∀ t ∈ s.waiting_queue fp,
      (s.thread t).state = .TCB_SLEEPING ∧ (s.thread t).wait_chan_entry ≠ none) (hnodup : (s.waiting_queue fp).Nodup) :
    ∃ s', wakeLoop fp n s = .ok (s', (s.waiting_queue fp).take n) ∧ s'.futex_map = s.futex_map ∧
      s'.waiting_queue = update s.waiting_queue fp ((s.waiting_queue fp).drop n) ∧
      (∀ u, u ∉ (s.waiting_queue fp).take n → s'.thread u = s.thread u) ∧ ∀ u, (s'.thread u).p = (s.thread u).p := by
  induction n generalizing s with
  | zero => exact ⟨s, rfl, rfl, (update_eq_self _ _).symm, fun _ _ => rfl, fun _ => rfl⟩
  | succ n ih =>
    cases hq : s.waiting_queue fp with
    | nil =>
      have hsame : s.waiting_queue = update s.waiting_queue fp [] := by rw [← hq, update_eq_self]
      refine ⟨s, ?_, rfl, hsame, fun _ _ => rfl, fun _ => rfl⟩
      unfold wakeLoop
      rw [hq]
      rfl
    | cons t q =>
      rw [hq] at hsleep hnodup
      obtain ⟨hstate, hentry⟩ := hsleep t List.mem_cons_self
      obtain ⟨htq, hnodup⟩ := List.nodup_cons.mp hnodup
      have hqueue : (s.wake fp t q).waiting_queue fp = q := update_self _ _ _
      -- the threads behind are not this one
      have hthread : ∀ u, u ≠ t → (s.wake fp t q).thread u = s.thread u := fun u hu => update_of_ne hu _ _
      have hrest := ih (s.wake fp t q) (fun u hu => by
        rw [hqueue] at hu
        rw [hthread u fun heq => htq (heq ▸ hu)]
        exact hsleep u (List.mem_cons_of_mem _ hu)) (by rw [hqueue]; exact hnodup)
      rw [hqueue] at hrest
      obtain ⟨s', hloop, hmap, hqueues, hother, hproc⟩ := hrest
      refine ⟨s', ?_, hmap, ?_, fun u hu => ?_, fun u => ?_⟩
      · rw [wakeLoop_cons n hq hstate hentry, hloop]
        rfl
      · rw [hqueues]
        exact update_idem _ _ _
      · rw [List.take_succ_cons, mem_cons, not_or] at hu
        rw [hother u hu.2, hthread u hu.1]
      · rw [hproc u]
        by_cases hu : u = t
        · rw [hu]
          show (update s.thread t _ t).p = _
          rw [update_self]
        · rw [hthread u hu]

/-! ## The calls -/

/-- What a wake does at an address. -/
theorem futex_wakeup_spec (h : s.Inv) (uaddr : Nat) (nr_wake : Int) :
    ∃ s', s.futex_wakeup uaddr nr_wake = .ok (s', (s.waiting uaddr).take nr_wake.toNat) ∧ s'.Inv ∧
      s'.waiting uaddr = (s.waiting uaddr).drop nr_wake.toNat ∧ (∀ u, (s'.thread u).p = (s.thread u).p) ∧
      ∀ f, s.Unused f → s'.Unused f := by
  unfold futex_wakeup
  cases hget : s.get_futex uaddr with
  | none =>
    refine ⟨s, ?_, h, ?_, fun _ => rfl, fun _ hf => hf⟩
    · rw [waiting_of_none hget, List.take_nil]
    · rw [waiting_of_none hget, List.drop_nil]
  | some f =>
    obtain ⟨s', hloop, hmap, hqueues, hother, hproc⟩ := wakeLoop_spec nr_wake.toNat s (h.asleep f) (h.nodup f)
    have hget' : ∀ a, s'.get_futex a = s.get_futex a := fun a => by
      unfold get_futex
      rw [hmap]
    have hqf : s'.waiting_queue f = (s.waiting_queue f).drop nr_wake.toNat := by
      rw [hqueues, update_self]
    have hqg : ∀ g, g ≠ f → s'.waiting_queue g = s.waiting_queue g := fun g hg => by
      rw [hqueues, update_of_ne hg]
    have hsub : ∀ g, (s'.waiting_queue g).Sublist (s.waiting_queue g) := by
      intro g
      by_cases hg : g = f
      · rw [hg, hqf]
        exact List.drop_sublist _ _
      · rw [hqg g hg]
    have hinv : s'.Inv := by
      refine h.taken hmap hsub fun g t ht => hother t fun htake => ?_
      -- a woken thread is in no queue
      have hg : g = f := h.once g f t ((hsub g).subset ht) (mem_of_mem_take htake)
      rw [hg, hqf] at ht
      exact List.disjoint_take_drop (h.nodup f) le_rfl htake ht
    rw [waiting_of_get hget]
    simp only [hloop, bind, Except.bind, pure, Except.pure]
    split
    · next hempty =>
      have hnone : (s'.futex_free uaddr).get_futex uaddr = none := by rw [get_futex_free hinv.unique, if_pos rfl]
      refine ⟨_, rfl, hinv.free ((hget' uaddr).trans hget) hempty, ?_, hproc, fun g hg a ha => ?_⟩
      · rw [waiting_of_none hnone, ← hqf, hempty]
      rw [get_futex_free hinv.unique] at ha
      split at ha
      · cases ha
      · rw [hget'] at ha
        exact hg a ha
    · refine ⟨_, rfl, hinv, ?_, hproc, fun g hg a ha => hg a ((hget' a).symm.trans ha)⟩
      rw [waiting_of_get ((hget' uaddr).trans hget), hqf]

/-- A thread falls asleep at the end of a queue. -/
theorem futex_wait_inv (h : s.Inv) {t : T} (hrun : (s.thread t).state = .TCB_RUNNING) (uaddr : Nat) (equal : Bool)
    (hfp : s.Unused fp) : (s.futex_wait t uaddr equal fp).Inv := by
  unfold futex_wait
  split
  · have hgot : Got s uaddr _ _ := get_futex_create_spec h hfp
    generalize s.get_futex_create uaddr fp = r at hgot ⊢
    obtain ⟨s₁, f⟩ := r
    simp only at hgot ⊢
    have hinv := hgot.inv
    have hfree : ∀ g, t ∉ s₁.waiting_queue g := by
      intro g ht
      have hsleep := (hinv.asleep g t ht).1
      rw [hgot.threads, hrun] at hsleep
      cases hsleep
    have hmem : ∀ g u, u ∈ update s₁.waiting_queue f (s₁.waiting_queue f ++ [t]) g →
        u ∈ s₁.waiting_queue g ∨ (g = f ∧ u = t) := by
      intro g u hu
      by_cases hg : g = f
      · rw [hg, update_self, mem_append, List.mem_singleton] at hu
        exact hu.imp (fun hin => hg ▸ hin) fun heq => ⟨hg, heq⟩
      · rw [update_of_ne hg] at hu
        exact .inl hu
    refine ⟨hinv.unique, hinv.apart, fun g u hu => ?_, fun g u hu => ?_, fun g => ?_, fun g g' u hu hu' => ?_⟩
    · obtain hin | ⟨rfl, -⟩ := hmem g u hu
      · exact hinv.live g u hin
      · exact ⟨uaddr, hgot.got⟩
    · show (update s₁.thread t _ u).state = _ ∧ (update s₁.thread t _ u).wait_chan_entry ≠ none
      by_cases hut : u = t
      · rw [hut, update_self]
        exact ⟨rfl, Option.some_ne_none _⟩
      rw [update_of_ne hut]
      obtain hin | ⟨-, heq⟩ := hmem g u hu
      · exact hinv.asleep g u hin
      · exact absurd heq hut
    · show (update s₁.waiting_queue f (s₁.waiting_queue f ++ [t]) g).Nodup
      by_cases hg : g = f
      · rw [hg, update_self]
        refine (hinv.nodup f).append (List.nodup_singleton t) fun u hu hut => ?_
        rw [List.mem_singleton.mp hut] at hu
        exact hfree f hu
      · rw [update_of_ne hg]
        exact hinv.nodup g
    · obtain hin | ⟨hg, hut⟩ := hmem g u hu
      · obtain hin' | ⟨-, hut'⟩ := hmem g' u hu'
        · exact hinv.once g g' u hin hin'
        · exact absurd (hut' ▸ hin) (hfree g)
      · obtain hin' | ⟨hg', -⟩ := hmem g' u hu'
        · exact absurd (hut ▸ hin') (hfree g')
        · exact hg.trans hg'.symm
  · exact h

theorem schedule_inv (h : s.Inv) {t : T} (hrun : (s.thread t).state = .TCB_RUNNABLE) :
    (s.setThread t { s.thread t with state := .TCB_RUNNING }).Inv := by
  refine h.taken rfl (fun f => List.Sublist.refl _) fun f u hu => ?_
  have hut : u ≠ t := by
    rintro rfl
    have hsleep := (h.asleep f u hu).1
    rw [hrun] at hsleep
    cases hsleep
  exact update_of_ne hut _ _

theorem futex_requeue_spec (h : s.Inv) (uaddr1 : Nat) (nr_wake : Int) (uaddr2 : Nat) (nr_requeue : Int)
    (hfp : s.Unused fp) :
    ∃ s' woken moved, s.futex_requeue uaddr1 nr_wake uaddr2 nr_requeue fp = .ok (s', woken, moved) ∧ s'.Inv ∧
      ∀ u, (u ∈ woken ∨ u ∈ moved) ↔ u ∈ (s.waiting uaddr1).take (nr_wake.toNat + nr_requeue.toNat) := by
  obtain ⟨s₁, hwake, hinv, hwait, -, hunused⟩ := futex_wakeup_spec h uaddr1 nr_wake
  obtain ⟨s₂, moved, hrest, hinv', hmem, -⟩ := requeueRest_spec hinv uaddr1 uaddr2 nr_requeue (hunused fp hfp)
  refine ⟨s₂, (s.waiting uaddr1).take nr_wake.toNat, moved, ?_, hinv', fun u => ?_⟩
  · unfold futex_requeue
    rw [hwake]
    simp only [bind, Except.bind, hrest]
    rfl
  · rw [hmem u, hwait, List.take_add, mem_append]

theorem step_inv {s' : Futexes T P} {c : Call T} (h : s.Inv) (hstep : Step s c s') : s'.Inv := by
  obtain ⟨hlegal, effect, hcall⟩ := hstep
  cases c with
  | futex_wait t uaddr equal fp =>
    cases hcall
    exact futex_wait_inv h hlegal.1 uaddr equal hlegal.2
  | futex_wakeup t uaddr nr_wake =>
    obtain ⟨s₁, hwake, hinv, -⟩ := futex_wakeup_spec h uaddr nr_wake
    simp only [call, hwake, bind, Except.bind] at hcall
    cases hcall
    exact hinv
  | futex_requeue t uaddr1 nr_wake uaddr2 nr_requeue fp =>
    obtain ⟨s₁, woken, moved, hreq, hinv, -⟩ := futex_requeue_spec h uaddr1 nr_wake uaddr2 nr_requeue hlegal.2
    simp only [call, hreq, bind, Except.bind] at hcall
    cases hcall
    exact hinv
  | schedule t =>
    cases hcall
    exact schedule_inv h hlegal

theorem length_take_own {α : Type} {q : α → Bool} {l : List α} {n : Nat} (h : ∀ a ∈ l.take n, q a = true) :
    (l.take n).length = min n (l.countP q) := by
  have hall : (l.take n).countP q = (l.take n).length := List.countP_eq_length.mpr h
  have hsplit : (l.take n).countP q + (l.drop n).countP q = l.countP q := by
    rw [← List.countP_append, List.take_append_drop]
  have hlen : (l.take n).length = min n l.length := List.length_take
  have hle := l.countP_le_length (p := q)
  have hrest : (l.drop n).countP q ≤ (l.drop n).length := List.countP_le_length
  rw [List.length_drop] at hrest
  omega

variable [DecidableEq P]

/-- **Isolation, call by call.** -/
theorem isolated_iff {s' : Futexes T P} {c : Call T} (h : s.Inv) (hstep : Step s c s') : s.Isolated c ↔ s.OwnHead c := by
  cases c with
  | futex_wait t uaddr equal fp => exact Iff.rfl
  | schedule t => exact Iff.rfl
  | futex_wakeup t uaddr nr_wake =>
    obtain ⟨s₁, hwake, -⟩ := futex_wakeup_spec h uaddr nr_wake
    have hcall : s.call (.futex_wakeup t uaddr nr_wake) = .ok (s₁, ⟨(s.waiting uaddr).take nr_wake.toNat, []⟩) := by
      simp only [call, hwake, bind, Except.bind]
      rfl
    constructor
    · rintro ⟨s₂, effect, hret, hown, -⟩
      rw [hcall] at hret
      cases hret
      exact hown
    · intro hown
      exact ⟨s₁, _, hcall, hown, length_take_own hown⟩
  | futex_requeue t uaddr1 nr_wake uaddr2 nr_requeue fp =>
    obtain ⟨s₁, woken, moved, hreq, -, hmem⟩ :=
      futex_requeue_spec h uaddr1 nr_wake uaddr2 nr_requeue hstep.1.2
    have hcall : s.call (.futex_requeue t uaddr1 nr_wake uaddr2 nr_requeue fp) = .ok (s₁, ⟨woken, moved⟩) := by
      simp only [call, hreq, bind, Except.bind]
      rfl
    constructor
    · rintro ⟨s₂, effect, hret, hwoken, hmoved⟩ u hu
      rw [hcall] at hret
      cases hret
      exact ((hmem u).mpr hu).elim (hwoken u) (hmoved u)
    · intro hown
      exact ⟨s₁, _, hcall, fun u hu => hown u ((hmem u).mp (.inl hu)), fun u hu => hown u ((hmem u).mp (.inr hu))⟩

/-- **Futex isolation.**  A run of calls keeps the processes apart if and only if every wake and every requeue finds
threads of the caller's process at the head of the queue. -/
theorem futex_isolation (proc : T → P) (cs : List (Call T)) (s : Futexes T P) :
    Run (Guarded Step Isolated) (booted proc) cs s ↔ Run (Guarded Step OwnHead) (booted proc) cs s := by
  refine Run.guarded_iff (I := Inv) ?_ ?_ (booted_inv proc)
  · intro s c s' h _ hstep
    exact step_inv h hstep
  · intro s c s' h hstep
    exact isolated_iff h hstep

/-- Two processes use one address: a wake of the second one wakes the thread of the first. -/
theorem foreign_thread_is_woken : ∃ s : Futexes (Fin 2) (Fin 2),
    Run Step (booted id) [.schedule 0, .futex_wait 0 0x1000 true 7, .schedule 1] s ∧
      s.Legal (.futex_wakeup 1 0x1000 1) ∧ ¬ s.Isolated (.futex_wakeup 1 0x1000 1) := by
  refine ⟨_, .cons ⟨rfl, _, rfl⟩ (.cons ⟨⟨rfl, ?_⟩, _, rfl⟩ (.cons ⟨rfl, _, rfl⟩ (.nil _))), rfl, ?_⟩
  · intro uaddr hget
    cases hget
  rintro ⟨s', effect, hret, hown, -⟩
  cases hret
  have hfirst := hown 0 List.mem_cons_self
  cases hfirst

end Futexes

end LostWakeup.Atomic.Futex
