/-
# LostWakeup.Process.RunQueues — `proc/sched.c`, `tcb_life.c`, `pcb_life.c`: the queues of the states.

A thread and a process carry one `state_list` each, which moves between the queues of their states.  A running thread is
in none: `T_STATES` has a null pointer there.

Every operation is one step, except that `alloc_proc` is two.  Two numbers are kept besides: how often a thread has become
runnable so far, and for each thread when it last did.
-/
import LostWakeup.Library.Queues
import LostWakeup.Library.Run
import Mathlib.Data.List.FinRange

namespace LostWakeup.Process.RunQueues

open Library
open Function (update update_of_ne update_self)

/-! ## Threads -/

inductive thread_state
  | TCB_UNUSED
  | TCB_USED
  | TCB_RUNNABLE
  | TCB_RUNNING
  | TCB_SLEEPING
  deriving DecidableEq

inductive t_queue
  | unused_t_q
  | used_t_q
  | runnable_t_q
  | sleeping_t_q
  deriving DecidableEq

def T_STATES : thread_state → Option t_queue
  | .TCB_UNUSED => some .unused_t_q
  | .TCB_USED => some .used_t_q
  | .TCB_RUNNABLE => some .runnable_t_q
  | .TCB_RUNNING => none
  | .TCB_SLEEPING => some .sleeping_t_q

/-- `Queue_pop` with `remove`: the first object of a queue, and the links without it. -/
def Queue_pop {η α : Type} [DecidableEq η] [DecidableEq α] (k : Links (η ⊕ α)) (q : η) : Option α × Links (η ⊕ α) :=
  if k.isEmpty q then (none, k)
  else
    match k.first q with
    | some node => (some node, k.remove node)
    | none => (none, k)

structure Threads (T : Type) where
  state : T → thread_state
  state_list : Links (t_queue ⊕ T)
  clock : Nat
  since : T → Nat

namespace Threads

variable {T : Type} [DecidableEq T]

/-- Whether it is taken off a queue or is in none, `list_del_reinit` is what is done.  With a null pointer for the new
queue there is no next state. -/
def TCB_Q_changeState (s : Threads T) (t : T) (state_new : thread_state) : Option (Threads T) :=
  match T_STATES state_new with
  | none => none
  | some tcb_q_new =>
    let s := { s with
      state_list := (s.state_list.remove t).pushBack tcb_q_new t
      state := update s.state t state_new }
    some (if state_new = .TCB_RUNNABLE then { s with since := update s.since t s.clock, clock := s.clock + 1 } else s)

def alloc_thread (s : Threads T) : Option (Threads T) :=
  match Queue_pop s.state_list .unused_t_q with
  | (none, _) => some s
  | (some t, list) => { s with state_list := list }.TCB_Q_changeState t .TCB_USED

/-- One pick of the scheduler. -/
def thread_scheduler (s : Threads T) : Threads T :=
  match Queue_pop s.state_list .runnable_t_q with
  | (none, _) => s
  | (some t, list) => { s with state_list := list, state := update s.state t .TCB_RUNNING }

def thread_yield (s : Threads T) (t : T) : Option (Threads T) := s.TCB_Q_changeState t .TCB_RUNNABLE

def cond_wait (s : Threads T) (t : T) : Option (Threads T) := s.TCB_Q_changeState t .TCB_SLEEPING

/-- With its `ASSERT`. -/
def thread_wakeup (s : Threads T) (t : T) : Option (Threads T) :=
  if s.state t = .TCB_SLEEPING then s.TCB_Q_changeState t .TCB_RUNNABLE else none

def free_thread (s : Threads T) (t : T) : Option (Threads T) := s.TCB_Q_changeState t .TCB_UNUSED

end Threads

def TCB_Q_ALL_INIT {T : Type} [DecidableEq T] (k : Links (t_queue ⊕ T)) : Links (t_queue ⊕ T) :=
  (((k.init (.inl .unused_t_q)).init (.inl .used_t_q)).init (.inl .runnable_t_q)).init (.inl .sleeping_t_q)

/-- `tcb_init` for a table of any size, whatever the memory of the links holds. -/
def tcb_init {n : Nat} (k : Links (t_queue ⊕ Fin n)) : Threads (Fin n) where
  state := fun _ => .TCB_UNUSED
  state_list := (List.finRange n).foldl (fun k t => k.pushBack .unused_t_q t) (TCB_Q_ALL_INIT k)
  clock := 0
  since := fun _ => 0

/-! ## Processes -/

inductive procstate
  | PCB_UNUSED
  | PCB_USED
  | PCB_ZOMBIE
  deriving DecidableEq

inductive p_queue
  | unused_p_q
  | used_p_q
  | zombie_p_q
  deriving DecidableEq

def STATES : procstate → p_queue
  | .PCB_UNUSED => .unused_p_q
  | .PCB_USED => .used_p_q
  | .PCB_ZOMBIE => .zombie_p_q

structure Procs (P : Type) where
  state : P → procstate
  state_list : Links (p_queue ⊕ P)
  /-- `alloc_proc` has it, and its lock. -/
  allocating : P → Bool

namespace Procs

variable {P : Type} [DecidableEq P]

def PCB_Q_changeState (s : Procs P) (p : P) (state_new : procstate) : Procs P :=
  { s with
    state_list := (s.state_list.remove p).pushBack (STATES state_new) p
    state := update s.state p state_new }

/-- The beginning of `alloc_proc`. -/
def alloc_proc (s : Procs P) : Procs P :=
  match Queue_pop s.state_list .unused_p_q with
  | (none, _) => s
  | (some p, list) => { s with state_list := list, allocating := update s.allocating p true }

/-- The end of `alloc_proc`: the process is in use, or `free_proc` has taken it back. -/
def alloc_proc_end (s : Procs P) (p : P) (ok : Bool) : Option (Procs P) :=
  if s.allocating p then
    let s := { s with allocating := update s.allocating p false }
    some (s.PCB_Q_changeState p (if ok then .PCB_USED else .PCB_UNUSED))
  else none

/-- A change of queue by a caller that holds the lock of the process; while `alloc_proc` makes it, none does. -/
def change (s : Procs P) (p : P) (state_new : procstate) : Option (Procs P) :=
  if s.allocating p then none else some (s.PCB_Q_changeState p state_new)

def exit_process (s : Procs P) (p : P) : Option (Procs P) := s.change p .PCB_ZOMBIE

def free_proc (s : Procs P) (p : P) : Option (Procs P) := s.change p .PCB_UNUSED

end Procs

def PCB_Q_ALL_INIT {P : Type} [DecidableEq P] (k : Links (p_queue ⊕ P)) : Links (p_queue ⊕ P) :=
  ((k.init (.inl .unused_p_q)).init (.inl .used_p_q)).init (.inl .zombie_p_q)

def proc_init {n : Nat} (k : Links (p_queue ⊕ Fin n)) : Procs (Fin n) where
  state := fun _ => .PCB_UNUSED
  state_list := (List.finRange n).foldl (fun k p => k.pushBack .unused_p_q p) (PCB_Q_ALL_INIT k)
  allocating := fun _ => false

/-! ## Runs -/

structure Tables (T P : Type) where
  threads : Threads T
  procs : Procs P

inductive Event (T P : Type)
  | alloc_thread
  | TCB_Q_changeState (t : T) (state_new : thread_state)
  | thread_scheduler
  | thread_yield (t : T)
  | cond_wait (t : T)
  | thread_wakeup (t : T)
  | free_thread (t : T)
  | alloc_proc
  | alloc_proc_end (p : P) (ok : Bool)
  | PCB_Q_changeState (p : P) (state_new : procstate)
  | exit_process (p : P)
  | free_proc (p : P)

def Tables.next {T P : Type} [DecidableEq T] [DecidableEq P] (s : Tables T P) : Event T P → Option (Tables T P)
  | .alloc_thread => s.threads.alloc_thread.map fun threads => { s with threads }
  | .TCB_Q_changeState t state_new => (s.threads.TCB_Q_changeState t state_new).map fun threads => { s with threads }
  | .thread_scheduler => some { s with threads := s.threads.thread_scheduler }
  | .thread_yield t => (s.threads.thread_yield t).map fun threads => { s with threads }
  | .cond_wait t => (s.threads.cond_wait t).map fun threads => { s with threads }
  | .thread_wakeup t => (s.threads.thread_wakeup t).map fun threads => { s with threads }
  | .free_thread t => (s.threads.free_thread t).map fun threads => { s with threads }
  | .alloc_proc => some { s with procs := s.procs.alloc_proc }
  | .alloc_proc_end p ok => (s.procs.alloc_proc_end p ok).map fun procs => { s with procs }
  | .PCB_Q_changeState p state_new => (s.procs.change p state_new).map fun procs => { s with procs }
  | .exit_process p => (s.procs.exit_process p).map fun procs => { s with procs }
  | .free_proc p => (s.procs.free_proc p).map fun procs => { s with procs }

def Step {T P : Type} [DecidableEq T] [DecidableEq P] (s : Tables T P) (e : Event T P) (s' : Tables T P) : Prop :=
  s.next e = some s'

/-! ## What is wanted -/

/-- A thread is once in the queue of its state, and in no other; a running one is in none.  A process is so too, unless
it is being allocated. -/
structure Law {T P : Type} (s : Tables T P) : Prop where
  threads : ∃ q, s.threads.state_list.Heads q ∧ ∀ t h, t ∈ q h ↔ T_STATES (s.threads.state t) = some h
  procs : ∃ q, s.procs.state_list.Heads q ∧ ∀ p h, p ∈ q h ↔ s.procs.allocating p = false ∧ STATES (s.procs.state p) = h

/-- The scheduler picks the thread that has been runnable for the longest time, if there is a runnable thread. -/
def PicksFirst {T : Type} [DecidableEq T] (s s' : Threads T) : Prop :=
  (∃ t, s.state t = .TCB_RUNNABLE ∧ s'.state = update s.state t .TCB_RUNNING ∧
    ∀ u, s.state u = .TCB_RUNNABLE → u ≠ t → s.since t < s.since u) ∨
  ((∀ u, s.state u ≠ .TCB_RUNNABLE) ∧ s' = s)

/-! ## Taking the first object of a queue -/

section

variable {η α : Type} [DecidableEq η] [DecidableEq α] {k : Links (η ⊕ α)} {q : η → List α} {h : η}

theorem pop_nil (hq : k.Heads q) (hnil : q h = []) : Queue_pop k h = (none, k) := if_pos ((hq.isEmpty_iff h).mpr hnil)

theorem pop_cons {x : α} {l : List α} (hq : k.Heads q) (hcons : q h = x :: l) : Queue_pop k h = (some x, k.remove x) := by
  have hne : ¬ k.isEmpty h := by
    rw [hq.isEmpty_iff, hcons]
    exact List.cons_ne_nil x l
  rw [Queue_pop, if_neg hne, hq.first_eq hcons]

end

/-! ## Threads keep to their queues -/

namespace Threads

variable {T : Type} [DecidableEq T] {s s' : Threads T} {q : t_queue → List T} {t : T}

structure Inv (s : Threads T) (q : t_queue → List T) : Prop where
  queues : s.state_list.Queues q
  mem : ∀ t h, t ∈ q h ↔ T_STATES (s.state t) = some h
  sorted : (q .runnable_t_q).Pairwise fun t u => s.since t < s.since u
  bounded : ∀ t ∈ q .runnable_t_q, s.since t < s.clock

omit [DecidableEq T] in
theorem mem_runnable (h : s.Inv q) : t ∈ q .runnable_t_q ↔ s.state t = .TCB_RUNNABLE := by
  rw [h.mem t]
  cases s.state t <;> simp [T_STATES]

theorem sorted_erase (h : s.Inv q) (t : T) : ((q .runnable_t_q).erase t).Pairwise fun t u => s.since t < s.since u :=
  h.sorted.sublist List.erase_sublist

theorem Inv.change {state_new : thread_state} (h : s.Inv q) (hs : s.TCB_Q_changeState t state_new = some s') :
    ∃ q', s'.Inv q' := by
  unfold TCB_Q_changeState at hs
  rcases hnew : T_STATES state_new with _ | tcb_q_new
  · rw [hnew] at hs
    cases hs
  rw [hnew] at hs
  cases hs
  have hmem : ∀ u g, u ∈ Links.moved q t tcb_q_new g ↔ T_STATES (update s.state t state_new u) = some g := by
    intro u g
    rw [h.queues.mem_moved]
    rcases eq_or_ne u t with rfl | hne
    · rw [update_self, hnew]
      simp [eq_comm]
    · rw [update_of_ne hne, h.mem u g]
      simp [hne]
  have hqueues := h.queues.move t tcb_q_new
  refine ⟨Links.moved q t tcb_q_new, ?_⟩
  rcases eq_or_ne state_new .TCB_RUNNABLE with rfl | hother
  · -- the last of the runnable threads
    obtain rfl : t_queue.runnable_t_q = tcb_q_new := Option.some.inj hnew
    rw [if_pos rfl]
    have hlist : Links.moved q t .runnable_t_q .runnable_t_q = (q .runnable_t_q).erase t ++ [t] := update_self ..
    have hold : ∀ u ∈ (q .runnable_t_q).erase t, update s.since t s.clock u = s.since u ∧ s.since u < s.clock := by
      intro u hu
      have hmem := h.queues.mem_erase.mp hu
      exact ⟨update_of_ne hmem.1 .., h.bounded u hmem.2⟩
    have hlast : update s.since t s.clock t = s.clock := update_self ..
    refine ⟨hqueues, hmem, ?_, ?_⟩
    · show (Links.moved q t .runnable_t_q .runnable_t_q).Pairwise fun u v =>
        update s.since t s.clock u < update s.since t s.clock v
      rw [hlist, List.pairwise_append]
      refine ⟨(sorted_erase h t).imp_of_mem fun hu hv hlt => ?_, List.pairwise_singleton .., fun u hu v hv => ?_⟩
      · rw [(hold _ hu).1, (hold _ hv).1]
        exact hlt
      · rw [List.mem_singleton.mp hv, hlast, (hold u hu).1]
        exact (hold u hu).2
    · intro u hu
      rw [hlist, List.mem_append, List.mem_singleton] at hu
      show update s.since t s.clock u < s.clock + 1
      rcases hu with hu | rfl
      · rw [(hold u hu).1]
        exact Nat.lt_succ_of_lt (hold u hu).2
      · rw [hlast]
        exact Nat.lt_succ_self _
  · rw [if_neg hother]
    have hlist : Links.moved q t tcb_q_new .runnable_t_q = (q .runnable_t_q).erase t := by
      refine update_of_ne ?_ ..
      rintro rfl
      cases state_new with
      | TCB_RUNNABLE => exact hother rfl
      | _ => cases hnew
    refine ⟨hqueues, hmem, ?_, fun u hu => ?_⟩
    · rw [hlist]
      exact sorted_erase h t
    · rw [hlist] at hu
      exact h.bounded u (h.queues.mem_erase.mp hu).2

theorem Inv.alloc_thread (h : s.Inv q) (hs : s.alloc_thread = some s') : ∃ q', s'.Inv q' := by
  unfold Threads.alloc_thread at hs
  rcases hlist : q .unused_t_q with _ | ⟨t, l⟩
  · rw [pop_nil h.queues.toHeads hlist] at hs
    cases hs
    exact ⟨q, h⟩
  rw [pop_cons h.queues.toHeads hlist] at hs
  -- the thread is off its queue already when it is taken off
  have hsame : ({ s with state_list := s.state_list.remove t } : Threads T).TCB_Q_changeState t .TCB_USED =
      s.TCB_Q_changeState t .TCB_USED := by
    unfold TCB_Q_changeState
    dsimp only
    rw [h.queues.remove_remove]
  exact h.change (hsame.symm.trans hs)

/-- What the scheduler does, and that it picks the right thread. -/
theorem Inv.thread_scheduler (h : s.Inv q) : (∃ q', s.thread_scheduler.Inv q') ∧ PicksFirst s s.thread_scheduler := by
  unfold Threads.thread_scheduler
  rcases hlist : q .runnable_t_q with _ | ⟨t, l⟩
  · rw [pop_nil h.queues.toHeads hlist]
    refine ⟨⟨q, h⟩, .inr ⟨fun u hu => ?_, rfl⟩⟩
    have hmem := (mem_runnable h).mpr hu
    rw [hlist] at hmem
    cases hmem
  · rw [pop_cons h.queues.toHeads hlist]
    have hsorted := h.sorted
    rw [hlist, List.pairwise_cons] at hsorted
    have ht : t ∈ q .runnable_t_q := hlist ▸ List.mem_cons_self
    constructor
    · refine ⟨fun g => (q g).erase t, h.queues.erase t, fun u g => ?_, sorted_erase h t, fun u hu => ?_⟩
      · rw [h.queues.mem_erase]
        show u ≠ t ∧ u ∈ q g ↔ T_STATES (update s.state t .TCB_RUNNING u) = some g
        rcases eq_or_ne u t with rfl | hne
        · rw [update_self]
          simp [T_STATES]
        · rw [update_of_ne hne, h.mem u g]
          simp [hne]
      · exact h.bounded u (h.queues.mem_erase.mp hu).2
    · refine .inl ⟨t, (mem_runnable h).mp ht, rfl, fun u hu hne => ?_⟩
      have hmem := (mem_runnable h).mpr hu
      rw [hlist] at hmem
      rcases List.mem_cons.mp hmem with rfl | hl
      · exact absurd rfl hne
      · exact hsorted.1 u hl

end Threads

/-! ## Processes keep to their queues -/

namespace Procs

variable {P : Type} [DecidableEq P] {s s' : Procs P} {q : p_queue → List P} {p : P}

structure Inv (s : Procs P) (q : p_queue → List P) : Prop where
  queues : s.state_list.Queues q
  mem : ∀ p h, p ∈ q h ↔ s.allocating p = false ∧ STATES (s.state p) = h

theorem inv_move {allocating : P → Bool} (h : s.state_list.Queues q)
    (hmem : ∀ u, u ≠ p → ∀ g, u ∈ q g ↔ allocating u = false ∧ STATES (s.state u) = g) (hp : allocating p = false)
    (state_new : procstate) :
    ({ s with allocating := allocating }.PCB_Q_changeState p state_new).Inv (Links.moved q p (STATES state_new)) := by
  refine ⟨h.move p (STATES state_new), fun u g => ?_⟩
  rw [h.mem_moved]
  show (u ≠ p ∧ u ∈ q g) ∨ (u = p ∧ g = STATES state_new) ↔
    allocating u = false ∧ STATES (update s.state p state_new u) = g
  rcases eq_or_ne u p with rfl | hne
  · rw [update_self]
    simp [hp, eq_comm]
  · rw [update_of_ne hne, hmem u hne g]
    simp [hne]

theorem Inv.change {state_new : procstate} (h : s.Inv q) (hs : s.change p state_new = some s') : ∃ q', s'.Inv q' := by
  unfold Procs.change at hs
  rcases hp : s.allocating p with _ | _
  · rw [hp] at hs
    cases hs
    exact ⟨_, inv_move h.queues (fun u _ => h.mem u) hp state_new⟩
  · rw [hp] at hs
    cases hs

theorem Inv.alloc_proc_end {ok : Bool} (h : s.Inv q) (hs : s.alloc_proc_end p ok = some s') : ∃ q', s'.Inv q' := by
  unfold Procs.alloc_proc_end at hs
  rcases hp : s.allocating p with _ | _
  · rw [hp] at hs
    cases hs
  rw [hp] at hs
  cases hs
  refine ⟨_, inv_move h.queues (fun u hne g => ?_) (update_self ..) _⟩
  rw [update_of_ne hne]
  exact h.mem u g

theorem Inv.alloc_proc (h : s.Inv q) : ∃ q', s.alloc_proc.Inv q' := by
  unfold Procs.alloc_proc
  rcases hlist : q .unused_p_q with _ | ⟨p, l⟩
  · rw [pop_nil h.queues.toHeads hlist]
    exact ⟨q, h⟩
  rw [pop_cons h.queues.toHeads hlist]
  refine ⟨fun g => (q g).erase p, h.queues.erase p, fun u g => ?_⟩
  rw [h.queues.mem_erase]
  show u ≠ p ∧ u ∈ q g ↔ update s.allocating p true u = false ∧ STATES (s.state u) = g
  rcases eq_or_ne u p with rfl | hne
  · rw [update_self]
    simp
  · rw [update_of_ne hne, h.mem u g]
    simp [hne]

end Procs

/-! ## The beginning -/

theorem heads_of_tcb_init {T : Type} [DecidableEq T] (k : Links (t_queue ⊕ T)) : (TCB_Q_ALL_INIT k).Heads fun _ => [] := by
  refine ⟨fun h => ⟨?_, List.nodup_singleton _⟩, fun _ _ x hx => absurd hx List.not_mem_nil⟩
  cases h <;> exact ⟨rfl, rfl⟩

theorem heads_of_pcb_init {P : Type} [DecidableEq P] (k : Links (p_queue ⊕ P)) : (PCB_Q_ALL_INIT k).Heads fun _ => [] := by
  refine ⟨fun h => ⟨?_, List.nodup_singleton _⟩, fun _ _ x hx => absurd hx List.not_mem_nil⟩
  cases h <;> exact ⟨rfl, rfl⟩

section

variable {η : Type} [DecidableEq η] {n : Nat} {k : Links (η ⊕ Fin n)} {h g : η} {x : Fin n}

theorem queues_of_table (hq : k.Heads fun _ => []) (h : η) :
    ((List.finRange n).foldl (fun k x => k.pushBack h x) k).Queues (update (fun _ => []) h (List.finRange n)) := by
  have hall := hq.pushAll (List.nodup_finRange n) (fun x _ g => List.not_mem_nil) h
  rw [List.nil_append] at hall
  refine ⟨hall, fun x hx => ?_⟩
  have hxh := hx h
  rw [update_self] at hxh
  exact absurd (List.mem_finRange x) hxh

theorem mem_table : x ∈ update (fun _ => []) h (List.finRange n) g ↔ h = g := by
  rcases eq_or_ne g h with rfl | hne
  · rw [update_self]
    simp
  · rw [update_of_ne hne]
    simp [hne.symm]

end

/-- The kernel after `tcb_init` and `proc_init`. -/
def init {ntcb nproc : Nat} (tk : Links (t_queue ⊕ Fin ntcb)) (pk : Links (p_queue ⊕ Fin nproc)) : Tables (Fin ntcb) (Fin nproc) :=
  ⟨tcb_init tk, proc_init pk⟩

structure Inv {T P : Type} [DecidableEq T] [DecidableEq P] (s : Tables T P) : Prop where
  threads : ∃ q, s.threads.Inv q
  procs : ∃ q, s.procs.Inv q

theorem inv_init {ntcb nproc : Nat} (tk : Links (t_queue ⊕ Fin ntcb)) (pk : Links (p_queue ⊕ Fin nproc)) : Inv (init tk pk) where
  threads := by
    refine ⟨_, queues_of_table (heads_of_tcb_init tk) .unused_t_q, fun t h => ?_, ?_, fun t ht => ?_⟩
    · rw [mem_table]
      exact (Option.some_inj).symm
    · rw [update_of_ne (by decide)]
      exact List.Pairwise.nil
    · rw [mem_table] at ht
      cases ht
  procs := by
    refine ⟨_, queues_of_table (heads_of_pcb_init pk) .unused_p_q, fun p h => ?_⟩
    rw [mem_table]
    exact (and_iff_right rfl).symm

section

variable {T P : Type} [DecidableEq T] [DecidableEq P] {s s' : Tables T P}

theorem Inv.law (h : Inv s) : Law s where
  threads := h.threads.imp fun _ hq => ⟨hq.queues.toHeads, hq.mem⟩
  procs := h.procs.imp fun _ hq => ⟨hq.queues.toHeads, hq.mem⟩

/-- One step keeps the invariant. -/
theorem Inv.step {e : Event T P} (h : Inv s) (hs : Step s e s') : Inv s' := by
  rcases h with ⟨⟨qt, ht⟩, ⟨qp, hp⟩⟩
  have hthreads : ∀ next : Option (Threads T), next.map (fun threads => { s with threads }) = some s' →
      (∀ threads, next = some threads → ∃ q, threads.Inv q) → Inv s' := by
    intro next hs hnext
    obtain ⟨threads, heq, rfl⟩ := Option.map_eq_some_iff.mp hs
    exact ⟨hnext threads heq, ⟨qp, hp⟩⟩
  have hprocs : ∀ next : Option (Procs P), next.map (fun procs => { s with procs }) = some s' →
      (∀ procs, next = some procs → ∃ q, procs.Inv q) → Inv s' := by
    intro next hs hnext
    obtain ⟨procs, heq, rfl⟩ := Option.map_eq_some_iff.mp hs
    exact ⟨⟨qt, ht⟩, hnext procs heq⟩
  cases e with
  | alloc_thread => exact hthreads _ hs fun _ => ht.alloc_thread
  | TCB_Q_changeState t state_new => exact hthreads _ hs fun _ => ht.change
  | thread_scheduler =>
    cases hs
    exact ⟨ht.thread_scheduler.1, ⟨qp, hp⟩⟩
  | thread_yield t => exact hthreads (s.threads.thread_yield t) hs fun _ => ht.change
  | cond_wait t => exact hthreads (s.threads.cond_wait t) hs fun _ => ht.change
  | thread_wakeup t =>
    refine hthreads _ hs fun threads hwake => ?_
    unfold Threads.thread_wakeup at hwake
    split at hwake
    · exact ht.change hwake
    · cases hwake
  | free_thread t => exact hthreads (s.threads.free_thread t) hs fun _ => ht.change
  | alloc_proc =>
    cases hs
    exact ⟨⟨qt, ht⟩, hp.alloc_proc⟩
  | alloc_proc_end p ok => exact hprocs _ hs fun _ => hp.alloc_proc_end
  | PCB_Q_changeState p state_new => exact hprocs _ hs fun _ => hp.change
  | exit_process p => exact hprocs _ hs fun _ => hp.change
  | free_proc p => exact hprocs _ hs fun _ => hp.change

end

/-- **Every thread and process is in the queue of its state**, after every sequence of operations, and the scheduler
picks the threads in the order in which they became runnable. -/
theorem state_queues {ntcb nproc : Nat} {tk : Links (t_queue ⊕ Fin ntcb)} {pk : Links (p_queue ⊕ Fin nproc)}
    {es : List (Event (Fin ntcb) (Fin nproc))} {s : Tables (Fin ntcb) (Fin nproc)} (hrun : Run Step (init tk pk) es s) :
    Law s ∧ ∀ s', Step s .thread_scheduler s' → PicksFirst s.threads s'.threads := by
  have hinv : Inv s := hrun.invariant (fun _ _ _ h hs => h.step hs) (inv_init tk pk)
  refine ⟨hinv.law, fun s' hs => ?_⟩
  rcases hinv.threads with ⟨q, hq⟩
  cases hs
  exact hq.thread_scheduler.2

/-- Of two threads, one is allocated, made runnable and picked. -/
theorem state_queues_pick : ∃ s s' : Tables (Fin 2) (Fin 1), Run Step (init ⟨id, id⟩ ⟨id, id⟩) [.alloc_thread, .TCB_Q_changeState 0 .TCB_RUNNABLE] s ∧
    Step s .thread_scheduler s' ∧ s'.threads.state 0 = .TCB_RUNNING ∧ Law s ∧ PicksFirst s.threads s'.threads := by
  have hrun := run_of_exec Tables.next (init ⟨id, id⟩ ⟨id, id⟩ : Tables (Fin 2) (Fin 1)) [.alloc_thread, .TCB_Q_changeState 0 .TCB_RUNNABLE] rfl
  have hlaw := state_queues hrun
  exact ⟨_, _, hrun, rfl, by decide, hlaw.1, hlaw.2 _ rfl⟩

end LostWakeup.Process.RunQueues
