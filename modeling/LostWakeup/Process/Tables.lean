/-
# LostWakeup.Process.Tables — the tables of processes and threads, and how a slot of them is taken.

`alloc_proc` and `alloc_thread` take the first slot off the queue of unused ones and return it with its lock held;
`free_proc` and `free_thread` put it back, and leave the lock to the caller.  What the allocator and the page tables
answer meanwhile is an argument, `Outcomes`.

A null pointer is no fault here: `kvmmake` maps the kernel's address 0 to the first page of memory, so a trap frame that
could not be allocated is written and read there.  Names, the contexts for `swtch`, and what signals, timers and
semaphores keep in the two structs are left out.
-/
import LostWakeup.Ipc.Signal

namespace LostWakeup.Process.Clone

open Library
open Function (update update_of_ne update_self)
open Ipc.Signal (trapframe)

/-! ## The tables -/

inductive procstate
  | PCB_UNUSED
  | PCB_USED
  | PCB_ZOMBIE
  deriving DecidableEq

inductive thread_state
  | TCB_UNUSED
  | TCB_USED
  | TCB_RUNNABLE
  | TCB_RUNNING
  | TCB_SLEEPING
  deriving DecidableEq

/-- `pagetable` is the number of the root page. -/
structure mm_struct where
  lock : Bool
  pagetable : Nat
  start_brk : Nat
  brk : Nat

structure thread_group where
  lock : Bool
  tgid : Int
  thread_idx : Int
  thread_cnt : Int
  threads : List Nat
  group_leader : Option Nat

/-- The group after `t` of the process `pid` has joined it. -/
def thread_group.add (tg : thread_group) (pid : Int) (t : Nat) : thread_group :=
  { tg with
    thread_cnt := int32 (tg.thread_cnt + 1)
    group_leader := tg.group_leader.or (some t)
    threads := tg.threads ++ [t]
    tgid := pid
    thread_idx := int32 (tg.thread_idx + 1) }

/-- `struct proc`; `children` is the ring of `sibling_list`s, and `shm_clist` says of each entry whether it is still
allocated. -/
structure Proc where
  lock : Bool
  pid : Int
  state : procstate
  exit_state : Int
  killed : Bool
  mm : Option mm_struct
  ofile : Nat → Option Nat
  cwd : Nat
  parent : Option Nat
  children : List Nat
  tg : Option thread_group
  ipc_ns : Bool
  shm_clist : Option (List Bool)

structure tcb where
  lock : Bool
  state : thread_state
  p : Option Nat
  tid : Int
  tidx : Int
  sig : Option Nat
  trapframe : Option trapframe
  clear_child_tid : Word

/-- Processes and threads are their indices in `proc` and `thread`; open files, inodes and `sighand`s are numbers. -/
structure Tables where
  proc : Nat → Proc
  thread : Nat → tcb
  pcb_q : procstate → List Nat
  tcb_q : thread_state → List Nat
  pid_map : Int → Option Nat
  tid_map : Int → Option Nat
  next_pid : Int
  next_tid : Int
  count_pid : Int
  count_tid : Int
  f_count : Nat → Int
  i_ref : Nat → Int
  sig_ref : Nat → Int
  /-- The pages that are roots of page tables. -/
  roots : Nat → Bool
  null_page : trapframe

/-- What the rest of the kernel answers during one call. -/
structure Outcomes where
  /-- The root page of the new table, if `alloc_mm` succeeds. -/
  alloc_mm : Option Nat
  tg : Bool
  ipc_ns : Bool
  uvm_thread_trapframe : Bool
  sighand : Option Nat
  copyout_ctid : Bool
  copyout_ptid : Bool
  vmacopy : Bool
  uvmcopy : Bool
  /-- `free_mm` comes back. -/
  free_mm : Bool

/-- All that `alloc_proc` allocates is there. -/
def Outcomes.complete (o : Outcomes) : Prop := o.alloc_mm.isSome ∧ o.tg = true ∧ o.ipc_ns = true

/-- Where the kernel stops: a lock that is held, or is not; no memory for a `sighand`; a panic inside
`free_mm`; a list of shared memory that is no list any more; a wild pointer. -/
inductive Stop
  | acquire
  | release
  | sighand
  | free_mm
  | shm_clist
  | wild
  deriving DecidableEq

namespace Tables

def modifyProc (s : Tables) (i : Nat) (f : Proc → Proc) : Tables :=
  { s with proc := update s.proc i (f (s.proc i)) }

def modifyThread (s : Tables) (t : Nat) (f : tcb → tcb) : Tables :=
  { s with thread := update s.thread t (f (s.thread t)) }

/-! ## Locks and queues -/

def acquireProc (s : Tables) (i : Nat) : Except Stop Tables :=
  if (s.proc i).lock then .error .acquire else .ok (s.modifyProc i fun n => { n with lock := true })

def releaseProc (s : Tables) (i : Nat) : Except Stop Tables :=
  if (s.proc i).lock then .ok (s.modifyProc i fun n => { n with lock := false }) else .error .release

def acquireThread (s : Tables) (t : Nat) : Except Stop Tables :=
  if (s.thread t).lock then .error .acquire else .ok (s.modifyThread t fun n => { n with lock := true })

def releaseThread (s : Tables) (t : Nat) : Except Stop Tables :=
  if (s.thread t).lock then .ok (s.modifyThread t fun n => { n with lock := false }) else .error .release

/-- `list_del_reinit` takes the node out of whatever queue it is in. -/
def PCB_Q_changeState (s : Tables) (i : Nat) (state_new : procstate) : Tables :=
  let q := fun st => (s.pcb_q st).erase i
  { s.modifyProc i fun n => { n with state := state_new } with
    pcb_q := update q state_new (q state_new ++ [i]) }

def TCB_Q_changeState (s : Tables) (t : Nat) (state_new : thread_state) : Tables :=
  let q := fun st => (s.tcb_q st).erase t
  { s.modifyThread t fun n => { n with state := state_new } with
    tcb_q := update q state_new (q state_new ++ [t]) }

/-! ## Threads -/

/-- `alloc_thread` once it has the lock of the slot `t`. -/
def enter_thread (s : Tables) (t : Nat) : Tables :=
  let tid := s.next_tid
  let s := { s with next_tid := int32 (tid + 1), count_tid := int32 (s.count_tid + 1) }
  let s := s.modifyThread t fun n => { n with tid := tid, clear_child_tid := 0 }
  let s := s.TCB_Q_changeState t .TCB_USED
  { s with tid_map := update s.tid_map tid (some t) }

/-- `alloc_thread`, which returns with the lock held. -/
def alloc_thread (s : Tables) : Except Stop (Tables × Option Nat) :=
  match s.tcb_q .TCB_UNUSED with
  | [] => .ok (s, none)
  | t :: rest => do
    let s := { s with tcb_q := update s.tcb_q .TCB_UNUSED rest }
    let s ← s.acquireThread t
    return (s.enter_thread t, some t)

/-- `free_thread` once the trap frame is unmapped. -/
def leave_thread (s : Tables) (t : Nat) : Tables :=
  let s := match (s.thread t).sig with
    | none => s
    | some g => { s with sig_ref := update s.sig_ref g (int32 (s.sig_ref g - 1)) }
  let s := { s with
    tid_map := update s.tid_map (s.thread t).tid none
    count_tid := int32 (s.count_tid - 1) }
  let s := s.modifyThread t fun n => { n with tid := 0, tidx := 0, trapframe := none, p := none, sig := none }
  s.TCB_Q_changeState t .TCB_UNUSED

/-- `free_thread`: the thread stays in the list and the count of its group. -/
def free_thread (s : Tables) (t : Nat) : Except Stop Tables :=
  match (s.thread t).p.bind fun i => (s.proc i).mm with
  | none => .error .wild
  | some mm => if mm.lock then .error .acquire else .ok (s.leave_thread t)

/-- `proc_join_thread` with the locks of the group and of the address space. -/
def enter_group (o : Outcomes) (s : Tables) (i t : Nat) (tg : thread_group) : Tables :=
  let s := s.modifyProc i fun n => { n with tg := some (tg.add n.pid t) }
  s.modifyThread t fun n =>
    { n with
      tidx := tg.thread_idx
      p := some i
      trapframe := if o.uvm_thread_trapframe then some ⟨fun _ => 0⟩ else none }

/-- `proc_join_thread`; `false` is the return value `-1`. -/
def proc_join_thread (o : Outcomes) (s : Tables) (i t : Nat) : Except Stop (Tables × Bool) :=
  match (s.proc i).tg, (s.proc i).mm with
  | some tg, some mm =>
    if tg.lock || mm.lock then .error .acquire else .ok (s.enter_group o i t tg, o.uvm_thread_trapframe)
  | _, _ => .error .wild

/-! ## Processes -/

def tginit : thread_group where
  lock := false
  tgid := 0
  thread_idx := 0
  thread_cnt := 0
  threads := []
  group_leader := none

/-- `free_proc` after `free_mm`, which has freed the root page of the process. -/
def leave_proc (s : Tables) (i : Nat) (entries : List Bool) : Tables :=
  let s := { s with
    roots := fun page => s.roots page && (s.proc i).mm.map mm_struct.pagetable != some page
    pid_map := update s.pid_map (s.proc i).pid none
    count_pid := int32 (s.count_pid - 1) }
  let s := s.modifyProc i fun n =>
    { n with
      tg := none
      ipc_ns := false
      shm_clist := some (entries.map fun _ => false)
      pid := 0
      parent := none
      killed := false
      exit_state := 0 }
  s.PCB_Q_changeState i .PCB_UNUSED

/-- `free_proc`: what was allocated for the process and its pid, not its threads. -/
def free_proc (o : Outcomes) (s : Tables) (i : Nat) : Except Stop Tables := do
  let s ← s.releaseProc i
  if (s.proc i).mm.isSome && !o.free_mm then .error .free_mm
  else
    let s ← s.acquireProc i
    match (s.proc i).shm_clist with
    | none => .error .shm_clist
    | some entries =>
      -- The entries stay in the list, so the next owner of the slot may come across them.
      if entries.contains false then .error .shm_clist
      else return s.leave_proc i entries

/-- The way out of `alloc_proc` without memory. -/
def alloc_proc_fails (o : Outcomes) (s : Tables) (i : Nat) : Except Stop (Tables × Option Nat) := do
  let s ← s.free_proc o i
  let s ← s.releaseProc i
  return (s, none)

/-- `alloc_proc` once it has the lock of the slot `i`: the pid and the address space. -/
def open_proc (o : Outcomes) (s : Tables) (i : Nat) : Tables :=
  let pid := s.next_pid
  let s := { s with
    next_pid := int32 (pid + 1)
    count_pid := int32 (s.count_pid + 1)
    roots := fun page => s.roots page || o.alloc_mm == some page }
  s.modifyProc i fun n =>
    { n with pid := pid, children := [], mm := o.alloc_mm.map fun root => ⟨false, root, 0, 0⟩ }

/-- `alloc_proc` once everything is there. -/
def enter_proc (s : Tables) (i : Nat) : Tables :=
  let s := s.modifyProc i fun n => { n with shm_clist := some [] }
  let s := s.PCB_Q_changeState i .PCB_USED
  { s with pid_map := update s.pid_map (s.proc i).pid (some i) }

/-- `alloc_proc`, which returns with the lock held. -/
def alloc_proc (o : Outcomes) (s : Tables) : Except Stop (Tables × Option Nat) :=
  match s.pcb_q .PCB_UNUSED with
  | [] => .ok (s, none)
  | i :: rest => do
    let s := { s with pcb_q := update s.pcb_q .PCB_UNUSED rest }
    let s ← s.acquireProc i
    let s := s.open_proc o i
    if o.alloc_mm = none then s.alloc_proc_fails o i
    else
      let s := s.modifyProc i fun n => { n with tg := if o.tg then some tginit else none }
      if o.tg = false then s.alloc_proc_fails o i
      else
        let s := s.modifyProc i fun n => { n with ipc_ns := o.ipc_ns }
        if o.ipc_ns = false then s.alloc_proc_fails o i
        else return (s.enter_proc i, some i)

/-- `create_proc`: the lock of the process is held, that of its first thread released. -/
def create_proc (o : Outcomes) (s : Tables) : Except Stop (Tables × Option Nat) := do
  match ← s.alloc_proc o with
  | (s, none) => return (s, none)
  | (s, some i) =>
    match ← s.alloc_thread with
    | (s, none) =>
      let s ← s.free_proc o i
      return (s, none)
    | (s, some t) =>
      -- Whether there was a trap frame for it is not looked at.
      let (s, _) ← s.proc_join_thread o i t
      let s ← s.releaseThread t
      return (s, some i)

/-! ## What the functions leave alone -/

variable {s s' s'' : Tables} {o : Outcomes} {i t u : Nat} {f : Proc → Proc} {g : tcb → tcb}

theorem modifyProc_self (s : Tables) (i : Nat) (f : Proc → Proc) : (s.modifyProc i f).proc i = f (s.proc i) :=
  update_self ..

theorem modifyProc_ne (s : Tables) (f : Proc → Proc) (h : u ≠ i) : (s.modifyProc i f).proc u = s.proc u :=
  update_of_ne h ..

theorem modifyThread_self (s : Tables) (t : Nat) (g : tcb → tcb) : (s.modifyThread t g).thread t = g (s.thread t) :=
  update_self ..

theorem modifyThread_ne (s : Tables) (g : tcb → tcb) (h : u ≠ t) : (s.modifyThread t g).thread u = s.thread u :=
  update_of_ne h ..

theorem modifyThread_proc (s : Tables) (t : Nat) (g : tcb → tcb) : (s.modifyThread t g).proc = s.proc := rfl

theorem acquireProc_free (h : (s.proc i).lock = false) :
    s.acquireProc i = .ok (s.modifyProc i fun n => { n with lock := true }) := by
  rw [acquireProc, h]
  rfl

theorem acquireProc_held (h : (s.proc i).lock = true) : s.acquireProc i = .error .acquire := by
  rw [acquireProc, h]
  rfl

theorem releaseProc_held (h : (s.proc i).lock = true) :
    s.releaseProc i = .ok (s.modifyProc i fun n => { n with lock := false }) := by
  rw [releaseProc, h]
  rfl

theorem acquireThread_free (h : (s.thread t).lock = false) :
    s.acquireThread t = .ok (s.modifyThread t fun n => { n with lock := true }) := by
  rw [acquireThread, h]
  rfl

theorem acquireThread_held (h : (s.thread t).lock = true) : s.acquireThread t = .error .acquire := by
  rw [acquireThread, h]
  rfl

theorem releaseThread_held (h : (s.thread t).lock = true) :
    s.releaseThread t = .ok (s.modifyThread t fun n => { n with lock := false }) := by
  rw [releaseThread, h]
  rfl

/-- A thread goes to the end of the queue of its new state. -/
theorem tcb_q_changeState (s : Tables) (t : Nat) (st : thread_state) :
    (s.TCB_Q_changeState t st).tcb_q st = (s.tcb_q st).erase t ++ [t] := by
  dsimp only [TCB_Q_changeState]
  rw [update_self]

theorem pcb_q_changeState (s : Tables) (i : Nat) (st : procstate) :
    (s.PCB_Q_changeState i st).pcb_q st = (s.pcb_q st).erase i ++ [i] := by
  dsimp only [PCB_Q_changeState]
  rw [update_self]

theorem pcb_q_changeState_ne (s : Tables) (i : Nat) {st st' : procstate} (h : st' ≠ st) :
    (s.PCB_Q_changeState i st).pcb_q st' = (s.pcb_q st').erase i := by
  dsimp only [PCB_Q_changeState]
  rw [update_of_ne h]

/-- Among the threads only `t` is touched, and it does not become runnable. -/
structure Apart (t : Nat) (s s' : Tables) : Prop where
  thread : ∀ u, u ≠ t → s'.thread u = s.thread u
  runnable : s'.tcb_q .TCB_RUNNABLE = s.tcb_q .TCB_RUNNABLE

theorem Apart.refl (t : Nat) (s : Tables) : Apart t s s := ⟨fun _ _ => rfl, rfl⟩

theorem Apart.trans (h : Apart t s s') (h' : Apart t s' s'') : Apart t s s'' :=
  ⟨fun u hu => (h'.thread u hu).trans (h.thread u hu), h'.runnable.trans h.runnable⟩

theorem Apart.of_eq (hthread : s'.thread = s.thread) (hq : s'.tcb_q = s.tcb_q) : Apart t s s' :=
  ⟨fun u _ => congrFun hthread u, congrFun hq _⟩

theorem Apart.modifyThread (t : Nat) (s : Tables) (g : tcb → tcb) : Apart t s (s.modifyThread t g) :=
  ⟨fun _ hu => modifyThread_ne s g hu, rfl⟩

theorem thread_changeState (s : Tables) (t : Nat) (st : thread_state) :
    (s.TCB_Q_changeState t st).thread = (s.modifyThread t fun n => { n with state := st }).thread := rfl

theorem proc_changeState (s : Tables) (i : Nat) (st : procstate) :
    (s.PCB_Q_changeState i st).proc = (s.modifyProc i fun n => { n with state := st }).proc := rfl

/-- A thread that was not runnable has not become so. -/
theorem Apart.not_runnable (h : Apart t s s') (hrun : t ∉ s.tcb_q .TCB_RUNNABLE) : t ∉ s'.tcb_q .TCB_RUNNABLE := by
  rw [h.runnable]
  exact hrun

/-! ## `alloc_thread`, `proc_join_thread` and `free_thread` -/

/-- Without a free slot there is no thread. -/
theorem alloc_thread_empty (hq : s.tcb_q .TCB_UNUSED = []) : s.alloc_thread = .ok (s, none) := by
  rw [alloc_thread, hq]

/-- It hangs at a slot with its lock held. -/
theorem alloc_thread_held {rest : List Nat} (hq : s.tcb_q .TCB_UNUSED = t :: rest) (hl : (s.thread t).lock = true) :
    s.alloc_thread = .error .acquire := by
  rw [alloc_thread, hq]
  dsimp only
  rw [acquireThread_held (by exact hl)]
  rfl

/-- The slot `t` has become a thread, and its lock is held. -/
structure ThreadTaken (t : Nat) (s s' : Tables) : Prop where
  apart : Apart t s s'
  proc : s'.proc = s.proc
  roots : s'.roots = s.roots
  null_page : s'.null_page = s.null_page
  lock : (s'.thread t).lock = true
  state : (s'.thread t).state = .TCB_USED
  tid : (s'.thread t).tid = s.next_tid

theorem enter_thread_taken (hrun : t ∉ s.tcb_q .TCB_RUNNABLE) (hl : (s.thread t).lock = true) :
    ThreadTaken t s (s.enter_thread t) := by
  have hthread : (s.enter_thread t).thread t =
      { s.thread t with tid := s.next_tid, clear_child_tid := 0, state := .TCB_USED } := by
    simp [enter_thread, thread_changeState, modifyThread]
  have hq : (s.enter_thread t).tcb_q .TCB_RUNNABLE = (s.tcb_q .TCB_RUNNABLE).erase t := by
    simp [enter_thread, TCB_Q_changeState, modifyThread]
  refine ⟨⟨fun u hu => ?_, ?_⟩, rfl, rfl, rfl, ?_, ?_, ?_⟩
  · simp [enter_thread, thread_changeState, modifyThread, hu]
  · rw [hq, List.erase_of_not_mem hrun]
  · rw [hthread, ← hl]
  · rw [hthread]
  · rw [hthread]

/-- Otherwise the first free slot becomes a thread. -/
theorem alloc_thread_free {rest : List Nat} (hq : s.tcb_q .TCB_UNUSED = t :: rest) (hl : (s.thread t).lock = false)
    (hrun : t ∉ s.tcb_q .TCB_RUNNABLE) : ∃ s', s.alloc_thread = .ok (s', some t) ∧ ThreadTaken t s s' := by
  obtain ⟨s₁, hs₁⟩ : ∃ s₁, s₁ = { s with tcb_q := update s.tcb_q .TCB_UNUSED rest } := ⟨_, rfl⟩
  have hapart : Apart t s s₁ := by
    rw [hs₁]
    refine ⟨fun _ _ => rfl, ?_⟩
    dsimp only
    rw [update_of_ne (by decide)]
  have hl₁ : (s₁.thread t).lock = false := by rw [hs₁]; exact hl
  have hacq := hapart.trans (Apart.modifyThread t s₁ fun n => { n with lock := true })
  have htaken := enter_thread_taken (hacq.not_runnable hrun) (by rw [modifyThread_self])
  refine ⟨_, ?_, hacq.trans htaken.apart, ?_, ?_, ?_, htaken.lock, htaken.state, ?_⟩
  · rw [alloc_thread, hq]
    dsimp only
    rw [← hs₁, acquireThread_free hl₁]
    rfl
  · rw [htaken.proc, hs₁]
    rfl
  · rw [htaken.roots, hs₁]
    rfl
  · rw [htaken.null_page, hs₁]
    rfl
  · rw [htaken.tid, hs₁]
    rfl

/-- It hangs at the lock of the group or of the address space. -/
theorem proc_join_thread_held {tg : thread_group} {mm : mm_struct} (htg : (s.proc i).tg = some tg)
    (hmm : (s.proc i).mm = some mm) (h : tg.lock = true ∨ mm.lock = true) :
    s.proc_join_thread o i t = .error .acquire := by
  rw [proc_join_thread, htg, hmm]
  dsimp only
  rw [if_pos ((Bool.or_eq_true _ _).mpr h)]

theorem proc_join_thread_free {tg : thread_group} {mm : mm_struct} (htg : (s.proc i).tg = some tg)
    (hmm : (s.proc i).mm = some mm) (hltg : tg.lock = false) (hlmm : mm.lock = false) :
    s.proc_join_thread o i t = .ok (s.enter_group o i t tg, o.uvm_thread_trapframe) := by
  rw [proc_join_thread, htg, hmm]
  dsimp only
  rw [hltg, hlmm]
  rfl

/-- The other threads stay as they are. -/
theorem enter_group_apart (o : Outcomes) (s : Tables) (i t : Nat) (tg : thread_group) :
    Apart t s (s.enter_group o i t tg) :=
  ⟨fun _ hu => update_of_ne hu .., rfl⟩

theorem enter_group_thread (o : Outcomes) (s : Tables) (i t : Nat) (tg : thread_group) :
    (s.enter_group o i t tg).thread t = { s.thread t with
      tidx := tg.thread_idx
      p := some i
      trapframe := if o.uvm_thread_trapframe then some ⟨fun _ => 0⟩ else none } :=
  update_self ..

/-- The group has one thread more. -/
theorem enter_group_proc (o : Outcomes) (s : Tables) (i t : Nat) (tg : thread_group) :
    (s.enter_group o i t tg).proc i = { s.proc i with tg := some (tg.add (s.proc i).pid t) } :=
  update_self ..

theorem enter_group_proc_ne (o : Outcomes) (s : Tables) (t : Nat) (tg : thread_group) (h : u ≠ i) :
    (s.enter_group o i t tg).proc u = s.proc u :=
  update_of_ne h ..

/-- With the lock of the address space free it comes back. -/
theorem free_thread_free {mm : mm_struct} (hp : (s.thread t).p = some i) (hmm : (s.proc i).mm = some mm)
    (hlmm : mm.lock = false) : s.free_thread t = .ok (s.leave_thread t) := by
  rw [free_thread, hp, Option.bind_some, hmm]
  dsimp only
  rw [hlmm, if_neg Bool.false_ne_true]

/-- The thread `t` is a free slot again; its lock is as it was. -/
structure ThreadLeft (t : Nat) (s s' : Tables) : Prop where
  apart : Apart t s s'
  proc : s'.proc = s.proc
  lock : (s'.thread t).lock = (s.thread t).lock
  tid : (s'.thread t).tid = 0

/-- A thread that is not runnable leaves no trace in the queues of the others. -/
theorem leave_thread_left (hrun : t ∉ s.tcb_q .TCB_RUNNABLE) : ThreadLeft t s (s.leave_thread t) := by
  have herase : (s.tcb_q .TCB_RUNNABLE).erase t = s.tcb_q .TCB_RUNNABLE := List.erase_of_not_mem hrun
  cases hsig : (s.thread t).sig with
  | none =>
    refine ⟨⟨fun u hu => ?_, ?_⟩, ?_, ?_, ?_⟩ <;>
      simp [leave_thread, hsig, TCB_Q_changeState, modifyThread, herase]
    exact update_of_ne hu ..
  | some g =>
    refine ⟨⟨fun u hu => ?_, ?_⟩, ?_, ?_, ?_⟩ <;>
      simp [leave_thread, hsig, TCB_Q_changeState, modifyThread, herase]
    exact update_of_ne hu ..

/-! ## `free_proc`, `alloc_proc` and `create_proc` -/

/-- What `free_proc` needs to come back: the teardown does, and the list of shared memory is one. -/
def Freeable (o : Outcomes) (n : Proc) : Prop :=
  (n.mm.isSome → o.free_mm = true) ∧ ∃ entries, n.shm_clist = some entries ∧ false ∉ entries

theorem free_proc_eq (hl : (s.proc i).lock = true) :
    s.free_proc o i =
      if (s.proc i).mm.isSome && !o.free_mm then .error .free_mm
      else match (s.proc i).shm_clist with
        | none => .error .shm_clist
        | some entries => if entries.contains false then .error .shm_clist else .ok (s.leave_proc i entries) := by
  have hsame : ((s.modifyProc i fun n => { n with lock := false }).modifyProc i fun n => { n with lock := true }) = s := by
    simp [modifyProc, ← hl]
  rw [free_proc, releaseProc_held hl]
  show (if ((s.modifyProc i _).proc i).mm.isSome && !o.free_mm then _ else (acquireProc _ i).bind _) = _
  rw [acquireProc_free (by rw [modifyProc_self]), hsame, modifyProc_self]
  rfl

/-- Otherwise the kernel stops. -/
theorem free_proc_stops (hl : (s.proc i).lock = true) (h : ¬ Freeable o (s.proc i)) :
    ∃ e, s.free_proc o i = .error e := by
  rw [free_proc_eq hl]
  split
  · exact ⟨_, rfl⟩
  next hmm =>
    split
    · exact ⟨_, rfl⟩
    next entries hshm =>
      rw [if_pos]
      · exact ⟨_, rfl⟩
      apply Classical.byContradiction
      intro hentries
      apply h
      refine ⟨fun hsome => ?_, entries, hshm, ?_⟩
      · simpa [hsome] using hmm
      · simpa using hentries

theorem free_proc_free (hl : (s.proc i).lock = true) (h : Freeable o (s.proc i)) :
    ∃ entries, s.free_proc o i = .ok (s.leave_proc i entries) := by
  rcases h with ⟨hmm, entries, hshm, hentries⟩
  refine ⟨entries, ?_⟩
  rw [free_proc_eq hl, if_neg, hshm]
  · simp [hentries]
  · simpa using hmm

/-- Without a free slot there is no process. -/
theorem alloc_proc_empty (hq : s.pcb_q .PCB_UNUSED = []) : s.alloc_proc o = .ok (s, none) := by
  rw [alloc_proc, hq]

/-- It hangs at a slot with its lock held. -/
theorem alloc_proc_held {rest : List Nat} (hq : s.pcb_q .PCB_UNUSED = i :: rest) (hl : (s.proc i).lock = true) :
    s.alloc_proc o = .error .acquire := by
  rw [alloc_proc, hq]
  dsimp only
  rw [acquireProc_held (by exact hl)]
  rfl

/-- The slot `i` is off its queue, with its lock held and a pid, and nothing else has happened. -/
structure ProcOpened (o : Outcomes) (i : Nat) (rest : List Nat) (s s' : Tables) : Prop where
  thread : s'.thread = s.thread
  tcb_q : s'.tcb_q = s.tcb_q
  null_page : s'.null_page = s.null_page
  pid_map : s'.pid_map = s.pid_map
  tid_map : s'.tid_map = s.tid_map
  f_count : s'.f_count = s.f_count
  i_ref : s'.i_ref = s.i_ref
  roots : s'.roots = fun page => s.roots page || o.alloc_mm == some page
  pcb_q : s'.pcb_q = update s.pcb_q .PCB_UNUSED rest
  proc_ne : ∀ u, u ≠ i → s'.proc u = s.proc u
  lock : (s'.proc i).lock = true
  pid : (s'.proc i).pid = s.next_pid
  shm_clist : (s'.proc i).shm_clist = (s.proc i).shm_clist
  mm : (s'.proc i).mm = o.alloc_mm.map fun root => ⟨false, root, 0, 0⟩

theorem ProcOpened.modifyProc {rest : List Nat} (h : ProcOpened o i rest s s') (hlock : (f (s'.proc i)).lock = (s'.proc i).lock)
    (hpid : (f (s'.proc i)).pid = (s'.proc i).pid) (hshm : (f (s'.proc i)).shm_clist = (s'.proc i).shm_clist)
    (hmm : (f (s'.proc i)).mm = (s'.proc i).mm) : ProcOpened o i rest s (s'.modifyProc i f) where
  thread := h.thread
  tcb_q := h.tcb_q
  null_page := h.null_page
  pid_map := h.pid_map
  tid_map := h.tid_map
  f_count := h.f_count
  i_ref := h.i_ref
  roots := h.roots
  pcb_q := h.pcb_q
  proc_ne u hu := (modifyProc_ne s' f hu).trans (h.proc_ne u hu)
  lock := by rw [modifyProc_self, hlock, h.lock]
  pid := by rw [modifyProc_self, hpid, h.pid]
  shm_clist := by rw [modifyProc_self, hshm, h.shm_clist]
  mm := by rw [modifyProc_self, hmm, h.mm]

/-- With a free slot `alloc_proc` either makes a process of it or gives it back. -/
theorem alloc_proc_free {rest : List Nat} (hq : s.pcb_q .PCB_UNUSED = i :: rest) (hl : (s.proc i).lock = false) :
    ∃ s₁, ProcOpened o i rest s s₁ ∧
      (o.complete → s.alloc_proc o = .ok (s₁.enter_proc i, some i) ∧ (s₁.proc i).tg = some tginit) ∧
      (¬ o.complete → s.alloc_proc o = s₁.alloc_proc_fails o i) := by
  obtain ⟨s₀, hs₀⟩ : ∃ s₀, s₀ = { s with pcb_q := update s.pcb_q .PCB_UNUSED rest } := ⟨_, rfl⟩
  have hl₀ : (s₀.proc i).lock = false := by rw [hs₀]; exact hl
  obtain ⟨s₁, hs₁⟩ : ∃ s₁, s₁ = (s₀.modifyProc i fun n => { n with lock := true }).open_proc o i := ⟨_, rfl⟩
  have hopen : ProcOpened o i rest s s₁ := by
    rw [hs₁, hs₀]
    constructor <;> simp [open_proc, Tables.modifyProc]
    intro u hu
    rw [update_of_ne hu]
  have hrun : s.alloc_proc o =
      if o.alloc_mm = none then s₁.alloc_proc_fails o i
      else
        let s₂ := s₁.modifyProc i fun n => { n with tg := if o.tg then some tginit else none }
        if o.tg = false then s₂.alloc_proc_fails o i
        else
          let s₃ := s₂.modifyProc i fun n => { n with ipc_ns := o.ipc_ns }
          if o.ipc_ns = false then s₃.alloc_proc_fails o i else .ok (s₃.enter_proc i, some i) := by
    rw [alloc_proc, hq]
    dsimp only
    rw [← hs₀, acquireProc_free hl₀, hs₁]
    rfl
  have htg := hopen.modifyProc (f := fun n => { n with tg := if o.tg then some tginit else none }) rfl rfl rfl rfl
  have hns := htg.modifyProc (f := fun n => { n with ipc_ns := o.ipc_ns }) rfl rfl rfl rfl
  rw [hrun]
  -- The three allocations, in the order they are made.
  cases hmm : o.alloc_mm with
  | none =>
    refine ⟨s₁, hopen, fun h => ?_, fun _ => rfl⟩
    rw [Outcomes.complete, hmm] at h
    cases h.1
  | some root =>
    rcases Bool.eq_false_or_eq_true o.tg with ht | ht
    · rcases Bool.eq_false_or_eq_true o.ipc_ns with hi | hi
      · refine ⟨_, hns, fun _ => ⟨?_, ?_⟩, fun h => absurd ⟨by rw [hmm]; rfl, ht, hi⟩ h⟩
        · simp [ht, hi]
        · simp [Tables.modifyProc, ht]
      refine ⟨_, hns, fun h => ?_, fun _ => ?_⟩
      · rw [Outcomes.complete, hi] at h
        cases h.2.2
      · simp [ht, hi]
    · refine ⟨_, htg, fun h => ?_, fun _ => ?_⟩
      · rw [Outcomes.complete, ht] at h
        cases h.2.1
      · simp [ht]

theorem enter_proc_proc (s : Tables) (i : Nat) :
    (s.enter_proc i).proc i = { s.proc i with shm_clist := some [], state := .PCB_USED } := by
  simp [enter_proc, proc_changeState, Tables.modifyProc]

theorem enter_proc_proc_ne (s : Tables) (h : u ≠ i) : (s.enter_proc i).proc u = s.proc u := by
  simp [enter_proc, proc_changeState, Tables.modifyProc, h]

theorem alloc_proc_fails_stops (hl : (s.proc i).lock = true) (h : ¬ Freeable o (s.proc i)) :
    ∃ e, s.alloc_proc_fails o i = .error e := by
  rcases free_proc_stops hl h with ⟨e, he⟩
  refine ⟨e, ?_⟩
  rw [alloc_proc_fails, he]
  rfl

/-- The slot is free, and its lock as it was. -/
theorem leave_proc_proc (s : Tables) (i : Nat) (entries : List Bool) :
    ((s.leave_proc i entries).proc i).state = .PCB_UNUSED ∧
      ((s.leave_proc i entries).proc i).lock = (s.proc i).lock := by
  simp [leave_proc, proc_changeState, Tables.modifyProc]

theorem leave_proc_proc_ne (s : Tables) (entries : List Bool) (h : u ≠ i) :
    (s.leave_proc i entries).proc u = s.proc u := by
  simp [leave_proc, proc_changeState, Tables.modifyProc, h]

theorem alloc_proc_fails_free (hl : (s.proc i).lock = true) (h : Freeable o (s.proc i)) :
    ∃ entries, s.alloc_proc_fails o i =
      .ok ((s.leave_proc i entries).modifyProc i fun n => { n with lock := false }, none) := by
  rcases free_proc_free hl h with ⟨entries, he⟩
  refine ⟨entries, ?_⟩
  rw [alloc_proc_fails, he]
  show (releaseProc _ i).bind _ = _
  rw [releaseProc_held ((leave_proc_proc s i entries).2.trans hl)]
  rfl

end Tables

end LostWakeup.Process.Clone
