/-
# LostWakeup.Process.Clone — `do_clone` is all or nothing only where it fails at once.

`do_clone` has nine ways to return `-1`.  Two come before anything was taken, and three are undone by `alloc_proc`; on the
others a slot, a lock or a pid stays behind.  The registers of the new thread are those of the leader of the group,
whichever thread made the call.  Where the kernel stops there is no outcome, and nothing is claimed.
-/
import LostWakeup.Process.Tables

namespace LostWakeup.Process.Clone

open Library
open Function (update update_eq_self update_of_ne update_self)
open Ipc.Signal (trapframe)

/-! ## `do_clone` -/

def CLONE_VM : Word := 0x00000100
def CLONE_FILES : Word := 0x00000400
def CLONE_SIGHAND : Word := 0x00000800
def CLONE_THREAD : Word := 0x00010000
def CLONE_SETTLS : Word := 0x00080000
def CLONE_PARENT_SETTID : Word := 0x00100000
def CLONE_CHILD_CLEARTID : Word := 0x00200000
def CLONE_CHILD_SETTID : Word := 0x01000000

def NOFILE : Nat := 400

/-- The arguments; `ptid` is read by `copyout` alone, whose answer is an outcome. -/
structure Call where
  flags : Word
  stack : Word
  tls : Word
  ctid : Word

def Call.has (c : Call) (flag : Word) : Bool := c.flags &&& flag != 0

namespace Tables

/-- A store through `t->trapframe`. -/
def storeFrame (s : Tables) (t : Nat) (f : trapframe → trapframe) : Tables :=
  match (s.thread t).trapframe with
  | some tf => s.modifyThread t fun n => { n with trapframe := some (f tf) }
  | none => { s with null_page := f s.null_page }

/-- A load through `t->trapframe`. -/
def loadFrame (s : Tables) (t : Nat) : trapframe := (s.thread t).trapframe.getD s.null_page

/-- `sighandinit`, or the `sighand` of the group leader. -/
def clone_sighand (o : Outcomes) (c : Call) (s : Tables) (leader t : Nat) : Except Stop Tables :=
  if c.has CLONE_SIGHAND then
    let s := s.modifyThread t fun n => { n with sig := (s.thread leader).sig }
    match (s.thread t).sig with
    | none => .ok s
    | some g => .ok { s with sig_ref := update s.sig_ref g (int32 (s.sig_ref g + 1)) }
  else
    match o.sighand with
    | none => .error .sighand
    | some g =>
      let s := s.modifyThread t fun n => { n with sig := some g }
      .ok { s with sig_ref := update s.sig_ref g 1 }

/-- The registers of the group leader, up to `tp`. -/
def copy_frame (c : Call) (s : Tables) (leader t : Nat) : Tables :=
  let s := s.storeFrame t fun _ => s.loadFrame leader
  let s := s.storeFrame t fun tf => tf.set 14 0
  if c.has CLONE_SETTLS then s.storeFrame t fun tf => tf.set 8 c.tls else s

/-- What the call says about the new thread, after its tid has been written to `ctid`. -/
def set_stack (c : Call) (s : Tables) (t : Nat) : Tables :=
  let s := if c.has CLONE_CHILD_CLEARTID then s.modifyThread t fun n => { n with clear_child_tid := c.ctid } else s
  if c.stack ≠ 0 then s.storeFrame t fun tf => tf.set 6 c.stack else s

/-- `do_clone` for the new thread, whoever made it; `false` is the return value `-1`. -/
def clone_thread (o : Outcomes) (c : Call) (s : Tables) (p t : Nat) : Except Stop (Tables × Bool) :=
  match (s.proc p).tg.bind thread_group.group_leader with
  | none => .error .wild
  | some leader =>
    let s := s.copy_frame c leader t
    if c.has CLONE_CHILD_SETTID && !o.copyout_ctid then .ok (s, false)
    else
      ((s.set_stack c t).clone_sighand o c leader t).bind fun s =>
        if c.has CLONE_PARENT_SETTID && !o.copyout_ptid then .ok (s, false) else .ok (s, true)

/-- One turn of the loop over `ofile`. -/
def dupFile (p np : Nat) (s : Tables) (i : Nat) : Tables :=
  match (s.proc p).ofile i with
  | none => s
  | some f =>
    { s.modifyProc np fun n => { n with ofile := update n.ofile i (some f) } with
      f_count := update s.f_count f (s.f_count f + 1) }

/-- The way out when the address space cannot be copied. -/
def clone_proc_fails (o : Outcomes) (s : Tables) (p np : Nat) : Except Stop (Tables × Int) := do
  let s ← s.free_proc o np
  let s ← s.releaseProc p
  let s ← s.releaseProc np
  return (s, -1)

def copy_brk (s : Tables) (p np : Nat) : Tables :=
  s.modifyProc np fun n =>
    { n with mm := n.mm.map fun mm =>
        { mm with
          start_brk := ((s.proc p).mm.map mm_struct.start_brk).getD 0
          brk := ((s.proc p).mm.map mm_struct.brk).getD 0 } }

/-- The open files, the directory and the parent of the new process. -/
def inherit (c : Call) (s : Tables) (p np : Nat) : Tables :=
  let s := if c.has CLONE_FILES then s else (List.range NOFILE).foldl (dupFile p np) s
  let cwd := (s.proc p).cwd
  let s := { s with i_ref := update s.i_ref cwd (s.i_ref cwd + 1) }
  s.modifyProc np fun n => { n with cwd := cwd, parent := some p }

def appendChild (s : Tables) (p np : Nat) : Tables :=
  s.modifyProc p fun n => { n with children := n.children ++ [np] }

/-- `do_clone` for a new process, after `vmacopy` and `uvmcopy`. -/
def clone_proc_finish (c : Call) (s : Tables) (p np t : Nat) : Except Stop (Tables × Int) := do
  let s ← (s.copy_brk p np).releaseProc p
  let s := s.inherit c p np
  let pid := (s.proc np).pid
  let s ← s.acquireProc p
  let s ← (s.appendChild p np).releaseProc p
  let s ← s.releaseProc np
  let s ← s.acquireThread t
  let s ← (s.TCB_Q_changeState t .TCB_RUNNABLE).releaseThread t
  return (s, pid)

/-- `do_clone` for the new process `np`, whose first thread is `t`. -/
def clone_proc (o : Outcomes) (c : Call) (s : Tables) (p np t : Nat) : Except Stop (Tables × Int) := do
  let s ← s.acquireProc p
  if o.vmacopy = false then s.clone_proc_fails o p np
  else if c.has CLONE_VM then
    let root := ((s.proc p).mm.map mm_struct.pagetable).getD 0
    let s := s.modifyProc np fun n => { n with mm := n.mm.map fun mm => { mm with pagetable := root } }
    s.clone_proc_finish c p np t
  else if o.uvmcopy = false then s.clone_proc_fails o p np
  else s.clone_proc_finish c p np t

/-- `do_clone`, called by the thread `cur`. -/
def do_clone (o : Outcomes) (c : Call) (s : Tables) (cur : Nat) : Except Stop (Tables × Int) :=
  match (s.thread cur).p with
  | none => .error .wild
  | some p =>
    if c.has CLONE_THREAD then do
      match ← s.alloc_thread with
      | (s, none) => return (s, -1)
      | (s, some t) =>
        let (s, joined) ← s.proc_join_thread o p t
        -- A thread that could not join is freed, and the call goes on with it.
        let s ← if joined then pure s else s.free_thread t
        match ← s.clone_thread o c p t with
        | (s, false) => return (s, -1)
        | (s, true) =>
          let s ← (s.TCB_Q_changeState t .TCB_RUNNABLE).releaseThread t
          return (s, (s.thread t).tid)
    else do
      match ← s.create_proc o with
      | (s, none) => return (s, -1)
      | (s, some np) =>
        match (s.proc np).tg.bind thread_group.group_leader with
        | none => .error .wild
        | some t =>
          match ← s.clone_thread o c p t with
          | (s, false) => return (s, -1)
          | (s, true) => s.clone_proc o c p np t

end Tables

/-! ## All or nothing -/

/-- The tables at the call: the queues hold slots in their states, each free slot once, and the caller, whose
process is `p`, is running. -/
structure Caller extends Tables where
  cur : Nat
  p : Nat
  frame : trapframe
  tg : thread_group
  leader : Nat
  queued_proc : ∀ st, ∀ i ∈ pcb_q st, (proc i).state = st
  queued_thread : ∀ st, ∀ t ∈ tcb_q st, (thread t).state = st
  nodup_proc : (pcb_q .PCB_UNUSED).Nodup
  running : (thread cur).state = .TCB_RUNNING
  current : (thread cur).p = some p
  trapped : (thread cur).trapframe = some frame
  live : (proc p).state = .PCB_USED
  group : (proc p).tg = some tg
  lead : tg.group_leader = some leader
  mm : mm_struct
  space : (proc p).mm = some mm

/-- Everything is as it was: the order of a queue and what is in a free slot say nothing. -/
structure Unchanged (s s' : Tables) : Prop where
  proc : ∀ i, s'.proc i = s.proc i ∨ (s.proc i).state = .PCB_UNUSED ∧ (s'.proc i).state = .PCB_UNUSED
  thread : ∀ t, s'.thread t = s.thread t ∨ (s.thread t).state = .TCB_UNUSED ∧ (s'.thread t).state = .TCB_UNUSED
  pcb_q : ∀ st, (s'.pcb_q st).Perm (s.pcb_q st)
  tcb_q : ∀ st, (s'.tcb_q st).Perm (s.tcb_q st)
  pid_map : s'.pid_map = s.pid_map
  tid_map : s'.tid_map = s.tid_map
  f_count : s'.f_count = s.f_count
  i_ref : s'.i_ref = s.i_ref
  proc_lock : ∀ i, (s'.proc i).lock = (s.proc i).lock
  thread_lock : ∀ t, (s'.thread t).lock = (s.thread t).lock

/-- The words of a trap frame that are the kernel's own. -/
def kernelWord (w : Fin 70) : Bool := w = 0 || w = 1 || w = 2 || w = 4

/-- What a saved register of the new thread has to be, when it is `value` in the caller. -/
def Call.register (c : Call) (w : Fin 70) (value : Word) : Word :=
  if w = 14 then 0
  else if w = 8 ∧ c.has CLONE_SETTLS then c.tls
  else if w = 6 ∧ c.stack ≠ 0 then c.stack
  else value

/-- There is exactly one new runnable thread, with the registers in `frame` but for `a0`, `sp` and `tp`. -/
def NewThread (c : Call) (frame : trapframe) (s s' : Tables) : Prop :=
  ∃ t tf, (s.thread t).state = .TCB_UNUSED ∧ (s'.thread t).state = .TCB_RUNNABLE ∧
    s'.tcb_q .TCB_RUNNABLE = s.tcb_q .TCB_RUNNABLE ++ [t] ∧
    (∀ u, u ≠ t → (s'.thread u).state = (s.thread u).state) ∧
    (s'.thread t).trapframe = some tf ∧
    ∀ w, kernelWord w = false → tf.word w = c.register w (frame.word w)

/-- A call that returns `-1` has changed nothing, and one that returns an id has made its thread. -/
def AllOrNothing (s : Caller) (o : Outcomes) (c : Call) : Prop :=
  ∀ s' r, s.do_clone o c s.cur = .ok (s', r) →
    (r = -1 → Unchanged s.toTables s') ∧ (0 < r → NewThread c s.frame s.toTables s')

/-! ## The condition -/

/-- There is a `sighand` for the new thread. -/
def Call.handled (c : Call) (o : Outcomes) : Prop := c.has CLONE_SIGHAND = true ∨ o.sighand.isSome

/-- The thread id is written wherever it is asked for. -/
def Call.written (c : Call) (o : Outcomes) : Prop :=
  (c.has CLONE_CHILD_SETTID = true → o.copyout_ctid = true) ∧
    (c.handled o → c.has CLONE_PARENT_SETTID = true → o.copyout_ptid = true)

/-- The address space is there to be shared, or can be copied. -/
def Call.copied (c : Call) (o : Outcomes) : Prop :=
  o.vmacopy = true ∧ (c.has CLONE_VM = true ∨ o.uvmcopy = true)

namespace Caller

/-- The trap frame that is copied into the new thread `t`: a leader that has exited has none, or is `t` by now. -/
def source (s : Caller) (t : Nat) : trapframe :=
  if s.leader = t then ⟨fun _ => 0⟩ else (s.thread s.leader).trapframe.getD s.null_page

/-- The leader's registers are the caller's, where they are not replaced. -/
def agrees (s : Caller) (c : Call) (t : Nat) : Prop :=
  ∀ w, kernelWord w = false → w ≠ 14 → ¬(w = 8 ∧ c.has CLONE_SETTLS) → ¬(w = 6 ∧ c.stack ≠ 0) →
    (s.source t).word w = s.frame.word w

/-- For a new thread of the caller's process, in the free slot `t`. -/
def threadOk (s : Caller) (o : Outcomes) (c : Call) (t : Nat) : Prop :=
  c.written o ∧ (c.handled o → o.uvm_thread_trapframe = true →
    s.next_tid ≠ -1 ∧ (0 < s.next_tid → s.agrees c t))

/-- For a new process in the free slot `i`. -/
def procOk (s : Caller) (o : Outcomes) (c : Call) (i : Nat) : Prop :=
  -- `alloc_proc` gives back what it has, unless it stops; the pid may not be somebody's.
  (¬ o.complete → (o.alloc_mm.isSome → o.free_mm = true) →
    (∃ entries, (s.proc i).shm_clist = some entries ∧ false ∉ entries) → s.pid_map s.next_pid = none) ∧
  (o.complete → s.tcb_q .TCB_UNUSED = [] → o.free_mm = false) ∧
  (o.complete → ∀ t rest, s.tcb_q .TCB_UNUSED = t :: rest → (s.thread t).lock = false →
    c.written o ∧ (c.handled o → (s.proc s.p).lock = false →
      (¬ c.copied o → o.free_mm = false) ∧
      (c.copied o → s.next_pid ≠ -1 ∧ (0 < s.next_pid → o.uvm_thread_trapframe = true ∧ s.agrees c t))))

/-- With a free slot and free locks, the call does not come to one of the ways out that keep something, and
the leader's registers are the caller's. -/
def cloneOk (s : Caller) (o : Outcomes) (c : Call) : Prop :=
  if c.has CLONE_THREAD then
    ∀ t rest, s.tcb_q .TCB_UNUSED = t :: rest → (s.thread t).lock = false → s.tg.lock = false →
      s.mm.lock = false → s.threadOk o c t
  else
    ∀ i rest, s.pcb_q .PCB_UNUSED = i :: rest → (s.proc i).lock = false → s.procOk o c i

end Caller

/-! ## The new thread -/

namespace Tables

variable {s s' s'' : Tables} {o : Outcomes} {c : Call} {i t u p np leader : Nat} {f h h' : trapframe → trapframe}

/-- Only the thread `t` is touched: its trap frame has changed by `h`, its state, lock and id have not. -/
structure Framed (t : Nat) (h : trapframe → trapframe) (s s' : Tables) : Prop where
  apart : Apart t s s'
  proc : s'.proc = s.proc
  roots : s'.roots = s.roots
  lock : (s'.thread t).lock = (s.thread t).lock
  state : (s'.thread t).state = (s.thread t).state
  tid : (s'.thread t).tid = (s.thread t).tid
  frame : (s'.thread t).trapframe = (s.thread t).trapframe.map h

theorem Framed.refl (t : Nat) (s : Tables) : Framed t id s s :=
  ⟨.refl t s, rfl, rfl, rfl, rfl, rfl, by rw [Option.map_id, id]⟩

theorem Framed.trans (hs : Framed t h s s') (hs' : Framed t h' s' s'') : Framed t (h' ∘ h) s s'' where
  apart := hs.apart.trans hs'.apart
  proc := hs'.proc.trans hs.proc
  roots := hs'.roots.trans hs.roots
  lock := hs'.lock.trans hs.lock
  state := hs'.state.trans hs.state
  tid := hs'.tid.trans hs.tid
  frame := by rw [hs'.frame, hs.frame, Option.map_map]

theorem Framed.of_eq (hs : Framed t h s s') (hthread : s''.thread = s'.thread) (hproc : s''.proc = s'.proc)
    (hq : s''.tcb_q = s'.tcb_q) (hroots : s''.roots = s'.roots) : Framed t h s s'' where
  apart := hs.apart.trans (.of_eq hthread hq)
  proc := hproc.trans hs.proc
  roots := hroots.trans hs.roots
  lock := by rw [hthread, hs.lock]
  state := by rw [hthread, hs.state]
  tid := by rw [hthread, hs.tid]
  frame := by rw [hthread, hs.frame]

theorem storeFrame_framed (s : Tables) (t : Nat) (h : trapframe → trapframe) : Framed t h s (s.storeFrame t h) := by
  cases htf : (s.thread t).trapframe with
  | none =>
    rw [storeFrame, htf]
    refine ⟨⟨fun _ _ => rfl, rfl⟩, rfl, rfl, rfl, rfl, rfl, ?_⟩
    show (s.thread t).trapframe = _
    rw [htf]
    rfl
  | some tf =>
    rw [storeFrame, htf]
    refine ⟨Apart.modifyThread t s _, rfl, rfl, ?_, ?_, ?_, ?_⟩ <;> rw [modifyThread_self]
    rw [htf]
    rfl

theorem modifyThread_framed {g : tcb → tcb} (s : Tables) (t : Nat) (hg : ∀ n : tcb, (g n).lock = n.lock ∧
    (g n).state = n.state ∧ (g n).tid = n.tid ∧ (g n).trapframe = n.trapframe) : Framed t id s (s.modifyThread t g) := by
  rcases hg (s.thread t) with ⟨hlock, hstate, htid, hframe⟩
  refine ⟨Apart.modifyThread t s g, rfl, rfl, ?_, ?_, ?_, ?_⟩ <;> rw [modifyThread_self]
  · exact hlock
  · exact hstate
  · exact htid
  · rw [hframe, Option.map_id, id]

theorem clone_sighand_handled (s : Tables) (leader t : Nat) (hc : c.handled o) :
    ∃ s', s.clone_sighand o c leader t = .ok s' ∧ Framed t id s s' := by
  have hsig : ∀ g, Framed t id s (s.modifyThread t fun n => { n with sig := g }) := fun g =>
    modifyThread_framed s t fun n => ⟨rfl, rfl, rfl, rfl⟩
  rw [clone_sighand]
  split
  next hflag =>
    dsimp only
    split
    · exact ⟨_, rfl, hsig _⟩
    · exact ⟨_, rfl, (hsig _).of_eq rfl rfl rfl rfl⟩
  next hflag =>
    rcases hc with hc | hc
    · exact absurd hc hflag
    · rcases Option.isSome_iff_exists.mp hc with ⟨g, hg⟩
      rw [hg]
      exact ⟨_, rfl, (hsig _).of_eq rfl rfl rfl rfl⟩

theorem clone_sighand_unhandled (hc : ¬ c.handled o) : s.clone_sighand o c leader t = .error .sighand := by
  have hflag : ¬ c.has CLONE_SIGHAND = true := fun h => hc (.inl h)
  have hsig : o.sighand = none := by
    cases hsig : o.sighand with
    | none => rfl
    | some g => exact absurd (.inr (by rw [hsig]; rfl)) hc
  rw [clone_sighand, if_neg hflag, hsig]

end Tables

/-- `copy_frame` and `set_stack` on a frame. -/
def Call.settle (c : Call) (tf : trapframe) : trapframe := if c.has CLONE_SETTLS then tf.set 8 c.tls else tf

def Call.restack (c : Call) (tf : trapframe) : trapframe := if c.stack ≠ 0 then tf.set 6 c.stack else tf

/-- What `clone_thread` makes of the frame it copies. -/
def Call.reframe (c : Call) (source : trapframe) : trapframe := c.restack (c.settle (source.set 14 0))

theorem set_apply (tf : trapframe) (i w : Fin 70) (value : Word) :
    (tf.set i value).word w = if w = i then value else tf.word w := by
  split
  next h => rw [h, trapframe.set_self]
  next h => rw [trapframe.set_ne tf value h]

theorem Call.settle_word (c : Call) (tf : trapframe) (w : Fin 70) :
    (c.settle tf).word w = if w = 8 ∧ c.has CLONE_SETTLS then c.tls else tf.word w := by
  rw [Call.settle]
  split
  next h => simp only [set_apply, and_iff_left h]
  next h => rw [if_neg fun hw => h hw.2]

theorem Call.restack_word (c : Call) (tf : trapframe) (w : Fin 70) :
    (c.restack tf).word w = if w = 6 ∧ c.stack ≠ 0 then c.stack else tf.word w := by
  rw [Call.restack]
  split
  next h => simp only [set_apply, and_iff_left h]
  next h => rw [if_neg fun hw => h hw.2]

theorem Call.reframe_word (c : Call) (source : trapframe) (w : Fin 70) :
    (c.reframe source).word w = c.register w (source.word w) := by
  rw [Call.reframe, Call.restack_word, Call.settle_word, set_apply, Call.register]
  -- The three stores are to different words, so their order does not matter.
  rcases eq_or_ne w 14 with rfl | h14
  · rw [if_neg fun h => absurd h.1 (by decide), if_neg fun h => absurd h.1 (by decide), if_pos rfl, if_pos rfl]
  rw [if_neg h14, if_neg h14]
  rcases eq_or_ne w 8 with rfl | h8
  · rw [if_neg fun h => absurd h.1 (by decide)]
    split
    · rfl
    · rw [if_neg fun h => absurd h.1 (by decide)]
  · simp only [h8, false_and, if_false]

namespace Tables

variable {s s' s'' : Tables} {o : Outcomes} {c : Call} {i t u p np leader : Nat}

theorem copy_frame_framed (c : Call) (s : Tables) (leader t : Nat) :
    Framed t (fun _ => c.settle ((s.loadFrame leader).set 14 0)) s (s.copy_frame c leader t) := by
  have hcopy := (storeFrame_framed s t fun _ => s.loadFrame leader).trans (storeFrame_framed _ t fun tf => tf.set 14 0)
  rw [copy_frame]
  rcases Bool.eq_false_or_eq_true (c.has CLONE_SETTLS) with h | h <;> simp only [h, Call.settle]
  · exact hcopy.trans (storeFrame_framed _ t fun tf => tf.set 8 c.tls)
  · exact hcopy

theorem set_stack_framed (c : Call) (s : Tables) (t : Nat) : Framed t c.restack s (s.set_stack c t) := by
  obtain ⟨s₁, hs₁⟩ : ∃ s₁, s₁ =
      if c.has CLONE_CHILD_CLEARTID then s.modifyThread t fun n => { n with clear_child_tid := c.ctid } else s := ⟨_, rfl⟩
  have hclear : Framed t id s s₁ := by
    rw [hs₁]
    split
    · exact modifyThread_framed s t fun n => ⟨rfl, rfl, rfl, rfl⟩
    · exact .refl t s
  rw [set_stack, ← hs₁]
  split
  next h =>
    have hrestack : c.restack = fun tf => tf.set 6 c.stack := by
      funext tf
      rw [Call.restack, if_pos h]
    rw [hrestack]
    exact hclear.trans (storeFrame_framed s₁ t fun tf => tf.set 6 c.stack)
  next h =>
    have hrestack : c.restack = id := by
      funext tf
      rw [Call.restack, if_neg h, id]
    rw [hrestack]
    exact hclear

/-- The tid that cannot be written ends the call, with the thread as it is by then. -/
theorem clone_thread_unwritten (hlead : (s.proc p).tg.bind thread_group.group_leader = some leader)
    (hc : ¬ c.written o) : ∃ s' h, s.clone_thread o c p t = .ok (s', false) ∧ Framed t h s s' := by
  have hcopy := copy_frame_framed c s leader t
  rw [clone_thread, hlead]
  dsimp only
  split
  · exact ⟨_, _, rfl, hcopy⟩
  next hctid =>
    have hctid' : c.has CLONE_CHILD_SETTID = true → o.copyout_ctid = true := by simpa using hctid
    have hrest : ¬(c.handled o → c.has CLONE_PARENT_SETTID = true → o.copyout_ptid = true) := fun h => hc ⟨hctid', h⟩
    simp only [Classical.not_imp] at hrest
    rcases hrest with ⟨hhandled, hflag, hptid⟩
    rcases clone_sighand_handled ((s.copy_frame c leader t).set_stack c t) leader t hhandled
      with ⟨s₁, hs₁, hframed⟩
    rw [hs₁]
    refine ⟨s₁, _, ?_, (hcopy.trans (set_stack_framed c _ t)).trans hframed⟩
    show (if c.has CLONE_PARENT_SETTID && !o.copyout_ptid then _ else _) = _
    rw [if_pos]
    simp [hflag, hptid]

theorem clone_thread_unhandled (hlead : (s.proc p).tg.bind thread_group.group_leader = some leader)
    (hc : c.written o) (hhandled : ¬ c.handled o) : ∃ e, s.clone_thread o c p t = .error e := by
  rw [clone_thread, hlead]
  dsimp only
  rw [if_neg, clone_sighand_unhandled hhandled]
  · exact ⟨_, rfl⟩
  · simpa using hc.1

theorem clone_thread_written (hlead : (s.proc p).tg.bind thread_group.group_leader = some leader)
    (hc : c.written o) (hhandled : c.handled o) :
    ∃ s', s.clone_thread o c p t = .ok (s', true) ∧ Framed t (fun _ => c.reframe (s.loadFrame leader)) s s' := by
  have hcopy := copy_frame_framed c s leader t
  rcases clone_sighand_handled ((s.copy_frame c leader t).set_stack c t) leader t hhandled
    with ⟨s₁, hs₁, hframed⟩
  refine ⟨s₁, ?_, (hcopy.trans (set_stack_framed c _ t)).trans hframed⟩
  rw [clone_thread, hlead]
  dsimp only
  rw [if_neg, hs₁]
  · show (if c.has CLONE_PARENT_SETTID && !o.copyout_ptid then _ else _) = _
    rw [if_neg]
    simpa using hc.2 hhandled
  · simpa using hc.1

/-! ## The new process -/

/-- Only the process `np` is touched, and neither its lock nor its pid nor its state. -/
structure ProcOnly (np : Nat) (s s' : Tables) : Prop where
  thread : s'.thread = s.thread
  tcb_q : s'.tcb_q = s.tcb_q
  roots : s'.roots = s.roots
  proc_ne : ∀ u, u ≠ np → s'.proc u = s.proc u
  lock : (s'.proc np).lock = (s.proc np).lock
  pid : (s'.proc np).pid = (s.proc np).pid
  state : (s'.proc np).state = (s.proc np).state

/-- The page table of the process is the same. -/
def SameRoot (np : Nat) (s s' : Tables) : Prop :=
  (s'.proc np).mm.map mm_struct.pagetable = (s.proc np).mm.map mm_struct.pagetable

theorem ProcOnly.refl (np : Nat) (s : Tables) : ProcOnly np s s := ⟨rfl, rfl, rfl, fun _ _ => rfl, rfl, rfl, rfl⟩

theorem ProcOnly.trans (h : ProcOnly np s s') (h' : ProcOnly np s' s'') : ProcOnly np s s'' where
  thread := h'.thread.trans h.thread
  tcb_q := h'.tcb_q.trans h.tcb_q
  roots := h'.roots.trans h.roots
  proc_ne u hu := (h'.proc_ne u hu).trans (h.proc_ne u hu)
  lock := h'.lock.trans h.lock
  pid := h'.pid.trans h.pid
  state := h'.state.trans h.state

theorem modifyProc_only {f : Proc → Proc} (s : Tables) (np : Nat)
    (hf : ∀ n : Proc, (f n).lock = n.lock ∧ (f n).pid = n.pid ∧ (f n).state = n.state) :
    ProcOnly np s (s.modifyProc np f) where
  thread := rfl
  tcb_q := rfl
  roots := rfl
  proc_ne _ hu := modifyProc_ne s f hu
  lock := by rw [modifyProc_self, (hf _).1]
  pid := by rw [modifyProc_self, (hf _).2.1]
  state := by rw [modifyProc_self, (hf _).2.2]

theorem modifyProc_sameRoot {f : Proc → Proc} (s : Tables) (np : Nat) (hf : ∀ n : Proc, (f n).mm = n.mm) :
    SameRoot np s (s.modifyProc np f) := by
  rw [SameRoot, modifyProc_self, hf]

theorem dupFile_only (p np : Nat) (s : Tables) (i : Nat) :
    ProcOnly np s (dupFile p np s i) ∧ SameRoot np s (dupFile p np s i) := by
  rw [dupFile]
  split
  · exact ⟨.refl np s, rfl⟩
  next f hf =>
    have h := modifyProc_only (f := fun n => { n with ofile := update n.ofile i (some f) }) s np
      fun n => ⟨rfl, rfl, rfl⟩
    have hroot := modifyProc_sameRoot (f := fun n => { n with ofile := update n.ofile i (some f) }) s np
      fun n => rfl
    exact ⟨⟨h.thread, h.tcb_q, h.roots, h.proc_ne, h.lock, h.pid, h.state⟩, hroot⟩

theorem dupFiles_only (p np : Nat) (fds : List Nat) (s : Tables) :
    ProcOnly np s (fds.foldl (dupFile p np) s) ∧ SameRoot np s (fds.foldl (dupFile p np) s) := by
  induction fds generalizing s with
  | nil => exact ⟨.refl np s, rfl⟩
  | cons fd fds ih =>
    rcases dupFile_only p np s fd with ⟨honly, hroot⟩
    rcases ih (dupFile p np s fd) with ⟨hrest, hroots⟩
    exact ⟨honly.trans hrest, Eq.trans hroots hroot⟩

theorem copy_brk_only (s : Tables) (p np : Nat) :
    ProcOnly np s (s.copy_brk p np) ∧ SameRoot np s (s.copy_brk p np) := by
  refine ⟨modifyProc_only s np fun _ => ⟨rfl, rfl, rfl⟩, ?_⟩
  show ((s.modifyProc np _).proc np).mm.map _ = _
  rw [modifyProc_self]
  cases (s.proc np).mm <;> rfl

theorem inherit_only (c : Call) (s : Tables) (p np : Nat) :
    ProcOnly np s (s.inherit c p np) ∧ SameRoot np s (s.inherit c p np) := by
  obtain ⟨s₁, hs₁⟩ : ∃ s₁, s₁ = if c.has CLONE_FILES then s else (List.range NOFILE).foldl (dupFile p np) s :=
    ⟨_, rfl⟩
  have hfiles : ProcOnly np s s₁ ∧ SameRoot np s s₁ := by
    rw [hs₁]
    split
    · exact ⟨.refl np s, rfl⟩
    · exact dupFiles_only p np _ s
  have hcwd := modifyProc_only (f := fun n => { n with cwd := (s₁.proc p).cwd, parent := some p }) s₁ np
    fun n => ⟨rfl, rfl, rfl⟩
  rw [inherit, ← hs₁]
  refine ⟨hfiles.1.trans ⟨hcwd.thread, hcwd.tcb_q, hcwd.roots, hcwd.proc_ne, hcwd.lock, hcwd.pid, hcwd.state⟩, ?_⟩
  have hroot := modifyProc_sameRoot (f := fun n => { n with cwd := (s₁.proc p).cwd, parent := some p }) s₁ np
    fun n => rfl
  exact Eq.trans hroot hfiles.2

/-- What the new process and its parent are like at the end. -/
structure Linked (p np : Nat) (s s' : Tables) : Prop where
  roots : s'.roots = s.roots
  others : ∀ u, u ≠ p → u ≠ np → s'.proc u = s.proc u
  parent_mm : (s'.proc p).mm = (s.proc p).mm
  parent_state : (s'.proc p).state = (s.proc p).state
  children : (s'.proc p).children = (s.proc p).children ++ [np]
  state : (s'.proc np).state = (s.proc np).state

/-- The thread `t` has been made runnable, and no other. -/
structure Started (t : Nat) (s s' : Tables) : Prop where
  runnable : s'.tcb_q .TCB_RUNNABLE = s.tcb_q .TCB_RUNNABLE ++ [t]
  state : (s'.thread t).state = .TCB_RUNNABLE
  others : ∀ u, u ≠ t → s'.thread u = s.thread u
  frame : (s'.thread t).trapframe = (s.thread t).trapframe
  tid : (s'.thread t).tid = (s.thread t).tid

theorem changeState_started (hrun : t ∉ s.tcb_q .TCB_RUNNABLE) (hl : (s.thread t).lock = true) :
    ∃ s', (s.TCB_Q_changeState t .TCB_RUNNABLE).releaseThread t = .ok s' ∧ Started t s s' ∧ s'.proc = s.proc ∧
      s'.roots = s.roots := by
  have hthread : (s.TCB_Q_changeState t .TCB_RUNNABLE).thread t = { s.thread t with state := .TCB_RUNNABLE } := by
    rw [thread_changeState, modifyThread_self]
  refine ⟨_, releaseThread_held (by rw [hthread]; exact hl), ⟨?_, ?_, fun u hu => ?_, ?_, ?_⟩, rfl, rfl⟩
  · show (s.TCB_Q_changeState t .TCB_RUNNABLE).tcb_q .TCB_RUNNABLE = _
    rw [tcb_q_changeState, List.erase_of_not_mem hrun]
  · rw [modifyThread_self, hthread]
  · rw [modifyThread_ne _ _ hu, thread_changeState, modifyThread_ne _ _ hu]
  · rw [modifyThread_self, hthread]
  · rw [modifyThread_self, hthread]

/-- The locks come out even, so the end of the call is reached. -/
theorem clone_proc_finish_started (hne : p ≠ np) (hp : (s.proc p).lock = true) (hnp : (s.proc np).lock = true)
    (ht : (s.thread t).lock = false) (hrun : t ∉ s.tcb_q .TCB_RUNNABLE) :
    ∃ s', s.clone_proc_finish c p np t = .ok (s', (s.proc np).pid) ∧ Started t s s' ∧ Linked p np s s' ∧
      SameRoot np s s' := by
  obtain ⟨s₁, hs₁⟩ : ∃ s₁, s₁ = (s.copy_brk p np).modifyProc p fun n => { n with lock := false } := ⟨_, rfl⟩
  obtain ⟨s₂, hs₂⟩ : ∃ s₂, s₂ = (s₁.inherit c p np).modifyProc p fun n => { n with lock := true } := ⟨_, rfl⟩
  obtain ⟨s₃, hs₃⟩ : ∃ s₃, s₃ = (s₂.appendChild p np).modifyProc p fun n => { n with lock := false } := ⟨_, rfl⟩
  obtain ⟨s₄, hs₄⟩ : ∃ s₄, s₄ = s₃.modifyProc np fun n => { n with lock := false } := ⟨_, rfl⟩
  obtain ⟨s₅, hs₅⟩ : ∃ s₅, s₅ = s₄.modifyThread t fun n => { n with lock := true } := ⟨_, rfl⟩
  rcases copy_brk_only s p np with ⟨hbrk, hbrkroot⟩
  rcases inherit_only c s₁ p np with ⟨hinherit, hinheritroot⟩
  -- The threads, and the locks of the two processes, from one state to the next.
  have hsame₁ : s₁.thread = s.thread ∧ s₁.tcb_q = s.tcb_q := by
    rw [hs₁]
    exact ⟨hbrk.thread, hbrk.tcb_q⟩
  have hp₁ : (s₁.proc p).lock = false := by rw [hs₁, modifyProc_self]
  have hnp₁ : s₁.proc np = (s.copy_brk p np).proc np := by rw [hs₁, modifyProc_ne _ _ hne.symm]
  have hp₂ : (s₂.proc p).lock = true := by rw [hs₂, modifyProc_self]
  have hnp₂ : s₂.proc np = (s₁.inherit c p np).proc np := by rw [hs₂, modifyProc_ne _ _ hne.symm]
  have hnp₃ : s₃.proc np = s₂.proc np := by
    rw [hs₃, modifyProc_ne _ _ hne.symm, appendChild, modifyProc_ne _ _ hne.symm]
  have hlock₃ : (s₃.proc np).lock = true := by rw [hnp₃, hnp₂, hinherit.lock, hnp₁, hbrk.lock, hnp]
  have hpid : ((s₁.inherit c p np).proc np).pid = (s.proc np).pid := by rw [hinherit.pid, hnp₁, hbrk.pid]
  have hsame₄ : s₄.thread = s.thread ∧ s₄.tcb_q = s.tcb_q := by
    rw [hs₄, hs₃, hs₂]
    exact ⟨hinherit.thread.trans hsame₁.1, hinherit.tcb_q.trans hsame₁.2⟩
  have ht₄ : (s₄.thread t).lock = false := by rw [hsame₄.1, ht]
  have hthread₅ : s₅.thread t = { s.thread t with lock := true } := by rw [hs₅, modifyThread_self, hsame₄.1]
  have hq₅ : s₅.tcb_q = s.tcb_q := by
    rw [hs₅]
    exact hsame₄.2
  have hproc₁ : s₁.proc p = { s.proc p with lock := false } := by
    rw [hs₁, modifyProc_self, hbrk.proc_ne p hne]
  have hproc₂ : s₂.proc p = { s.proc p with lock := true } := by
    rw [hs₂, modifyProc_self, hinherit.proc_ne p hne, hproc₁]
  have hproc₃ : s₃.proc p = { s.proc p with lock := false, children := (s.proc p).children ++ [np] } := by
    rw [hs₃, modifyProc_self, appendChild, modifyProc_self, hproc₂]
  have hproc₅ : s₅.proc p = s₃.proc p := by
    rw [hs₅, modifyThread_proc, hs₄, modifyProc_ne _ _ hne]
  have hnp₅ : s₅.proc np = { (s₁.inherit c p np).proc np with lock := false } := by
    rw [hs₅, modifyThread_proc, hs₄, modifyProc_self, hnp₃, hnp₂]
  have hroots₅ : s₅.roots = s.roots := by
    rw [hs₅, hs₄, hs₃, hs₂]
    show (s₁.inherit c p np).roots = s.roots
    rw [hinherit.roots, hs₁]
    exact hbrk.roots
  rcases changeState_started (s := s₅) (t := t) (by rw [hq₅]; exact hrun) (by rw [hthread₅]) with
    ⟨s', hs', hstarted, hproc', hroots'⟩
  refine ⟨s', ?_, ⟨?_, hstarted.state, fun u hu => ?_, ?_, ?_⟩, ⟨hroots'.trans hroots₅, fun u hp hnp => ?_, ?_, ?_, ?_, ?_⟩, ?_⟩
  · rw [clone_proc_finish, releaseProc_held (by rw [hbrk.proc_ne p hne, hp]), ← hs₁]
    show (acquireProc _ p).bind _ = _
    rw [acquireProc_free (by rw [hinherit.proc_ne p hne, hp₁]), ← hs₂]
    show (releaseProc _ p).bind _ = _
    rw [releaseProc_held (by rw [appendChild, modifyProc_self, hp₂]), ← hs₃]
    show (releaseProc _ np).bind _ = _
    rw [releaseProc_held hlock₃, ← hs₄]
    show (acquireThread _ t).bind _ = _
    rw [acquireThread_free ht₄, ← hs₅]
    show (releaseThread _ t).bind _ = _
    rw [hs', ← hpid]
    rfl
  · rw [hstarted.runnable, hq₅]
  · rw [hstarted.others u hu, hs₅, modifyThread_ne _ _ hu, hsame₄.1]
  · rw [hstarted.frame, hthread₅]
  · rw [hstarted.tid, hthread₅]
  · rw [hproc', hs₅, modifyThread_proc, hs₄, modifyProc_ne _ _ hnp, hs₃, modifyProc_ne _ _ hp, appendChild,
      modifyProc_ne _ _ hp, hs₂, modifyProc_ne _ _ hp, hinherit.proc_ne u hnp, hs₁, modifyProc_ne _ _ hp, hbrk.proc_ne u hnp]
  · rw [hproc', hproc₅, hproc₃]
  · rw [hproc', hproc₅, hproc₃]
  · rw [hproc', hproc₅, hproc₃]
  · rw [hproc', hnp₅]
    show ((s₁.inherit c p np).proc np).state = _
    rw [hinherit.state, hnp₁, hbrk.state]
  · rw [SameRoot, hproc', hnp₅]
    show ((s₁.inherit c p np).proc np).mm.map _ = _
    rw [hinheritroot, hnp₁, hbrkroot]

theorem clone_proc_held (hp : (s.proc p).lock = true) : s.clone_proc o c p np t = .error .acquire := by
  rw [clone_proc, acquireProc_held hp]
  rfl

theorem clone_proc_copied (hc : c.copied o) (hne : p ≠ np) (hp : (s.proc p).lock = false)
    (hnp : (s.proc np).lock = true) (ht : (s.thread t).lock = false) (hrun : t ∉ s.tcb_q .TCB_RUNNABLE) :
    ∃ s', s.clone_proc o c p np t = .ok (s', (s.proc np).pid) ∧ Started t s s' ∧ Linked p np s s' ∧
      (s'.proc np).mm.map mm_struct.pagetable = (s.proc np).mm.map fun mm =>
        if c.has CLONE_VM then ((s.proc p).mm.map mm_struct.pagetable).getD 0 else mm.pagetable := by
  obtain ⟨s₁, hs₁⟩ : ∃ s₁, s₁ = s.modifyProc p fun n => { n with lock := true } := ⟨_, rfl⟩
  have hp₁ : (s₁.proc p).lock = true := by rw [hs₁, modifyProc_self]
  have hnp₁ : s₁.proc np = s.proc np := by rw [hs₁, modifyProc_ne _ _ hne.symm]
  have hsame : s₁.thread = s.thread ∧ s₁.tcb_q = s.tcb_q := by
    rw [hs₁]
    exact ⟨rfl, rfl⟩
  rcases hsame with ⟨hthread, hq⟩
  have hparent : s₁.proc p = { s.proc p with lock := true } := by rw [hs₁, modifyProc_self]
  have hrest : ∀ s₂, ProcOnly np s₁ s₂ →
      ∃ s', s₂.clone_proc_finish c p np t = .ok (s', (s.proc np).pid) ∧ Started t s s' ∧ Linked p np s s' ∧
        SameRoot np s₂ s' := by
    intro s₂ h
    rcases clone_proc_finish_started (s := s₂) (c := c) (t := t) hne (by rw [h.proc_ne p hne, hp₁])
      (by rw [h.lock, hnp₁, hnp]) (by rw [h.thread, hthread, ht]) (by rw [h.tcb_q, hq]; exact hrun)
      with ⟨s', hs', hstarted, hlinked, hroot⟩
    refine ⟨s', ?_, ⟨?_, hstarted.state, fun u hu => ?_, ?_, ?_⟩, ⟨?_, fun u hup hunp => ?_, ?_, ?_, ?_, ?_⟩, hroot⟩
    · rw [hs', h.pid, hnp₁]
    · rw [hstarted.runnable, h.tcb_q, hq]
    · rw [hstarted.others u hu, h.thread, hthread]
    · rw [hstarted.frame, h.thread, hthread]
    · rw [hstarted.tid, h.thread, hthread]
    · rw [hlinked.roots, h.roots, hs₁]
      rfl
    · rw [hlinked.others u hup hunp, h.proc_ne u hunp, hs₁, modifyProc_ne _ _ hup]
    · rw [hlinked.parent_mm, h.proc_ne p hne, hparent]
    · rw [hlinked.parent_state, h.proc_ne p hne, hparent]
    · rw [hlinked.children, h.proc_ne p hne, hparent]
    · rw [hlinked.state, h.state, hnp₁]
  have hrun : s.clone_proc o c p np t =
      if o.vmacopy = false then s₁.clone_proc_fails o p np
      else if c.has CLONE_VM then
        (s₁.modifyProc np fun n => { n with mm := n.mm.map fun mm =>
          { mm with pagetable := ((s₁.proc p).mm.map mm_struct.pagetable).getD 0 } }).clone_proc_finish c p np t
      else if o.uvmcopy = false then s₁.clone_proc_fails o p np
      else s₁.clone_proc_finish c p np t := by
    rw [clone_proc, acquireProc_free hp, ← hs₁]
    rfl
  rcases hc with ⟨hvma, hspace⟩
  rw [hrun, if_neg (by rw [hvma]; exact Bool.true_eq_false.mp)]
  split
  next hvm =>
    rcases hrest _ (modifyProc_only (f := fun n => { n with mm := n.mm.map fun mm =>
      { mm with pagetable := ((s₁.proc p).mm.map mm_struct.pagetable).getD 0 } }) s₁ np fun _ => ⟨rfl, rfl, rfl⟩)
      with ⟨s', hs', hstarted, hlinked, hroot⟩
    refine ⟨s', hs', hstarted, hlinked, ?_⟩
    rw [hroot, modifyProc_self, hnp₁, hparent]
    cases (s.proc np).mm <;> rfl
  next hvm =>
    rw [if_neg (by rw [hspace.resolve_left hvm]; exact Bool.true_eq_false.mp)]
    rcases hrest s₁ (.refl np s₁) with ⟨s', hs', hstarted, hlinked, hroot⟩
    refine ⟨s', hs', hstarted, hlinked, ?_⟩
    rw [hroot, hnp₁]

theorem clone_proc_uncopied_eq (hc : ¬ c.copied o) (hp : (s.proc p).lock = false) :
    s.clone_proc o c p np t = (s.modifyProc p fun n => { n with lock := true }).clone_proc_fails o p np := by
  rw [clone_proc, acquireProc_free hp]
  show (if o.vmacopy = false then _ else if c.has CLONE_VM then _ else if o.uvmcopy = false then _ else _) = _
  split
  · rfl
  next hvma =>
    have hvma' : o.vmacopy = true := by simpa using hvma
    rw [if_neg fun h => hc ⟨hvma', .inl h⟩, if_pos]
    simpa using fun h => hc ⟨hvma', .inr h⟩

/-- The process is freed, and its thread is not. -/
theorem clone_proc_uncopied (hc : ¬ c.copied o) (hne : p ≠ np) (hp : (s.proc p).lock = false)
    (hnp : (s.proc np).lock = true) (hfree : Freeable o (s.proc np)) :
    ∃ s', s.clone_proc o c p np t = .ok (s', -1) ∧ s'.thread = s.thread ∧
      (s'.proc p).children = (s.proc p).children ∧
      s'.roots = fun page => s.roots page && (s.proc np).mm.map mm_struct.pagetable != some page := by
  obtain ⟨s₁, hs₁⟩ : ∃ s₁, s₁ = s.modifyProc p fun n => { n with lock := true } := ⟨_, rfl⟩
  have hp₁ : (s₁.proc p).lock = true := by rw [hs₁, modifyProc_self]
  have hnp₁ : s₁.proc np = s.proc np := by rw [hs₁, modifyProc_ne _ _ hne.symm]
  rcases free_proc_free (s := s₁) (i := np) (o := o) (by rw [hnp₁, hnp]) (by rw [hnp₁]; exact hfree)
    with ⟨entries, hentries⟩
  obtain ⟨s₂, hs₂⟩ : ∃ s₂, s₂ = (s₁.leave_proc np entries).modifyProc p fun n => { n with lock := false } := ⟨_, rfl⟩
  refine ⟨s₂.modifyProc np fun n => { n with lock := false }, ?_, ?_, ?_, ?_⟩
  · rw [clone_proc_uncopied_eq hc hp, ← hs₁, clone_proc_fails, hentries]
    show (releaseProc _ p).bind _ = _
    rw [releaseProc_held (by rw [leave_proc_proc_ne _ _ hne, hp₁]), ← hs₂]
    show (releaseProc _ np).bind _ = _
    rw [releaseProc_held (by rw [hs₂, modifyProc_ne _ _ hne.symm, (leave_proc_proc s₁ np entries).2, hnp₁, hnp])]
    rfl
  · rw [hs₂, hs₁]
    rfl
  · rw [modifyProc_ne _ _ hne, hs₂, modifyProc_self, leave_proc_proc_ne _ _ hne, hs₁, modifyProc_self]
  · rw [hs₂, ← hnp₁]
    show (s₁.leave_proc np entries).roots = _
    rw [hs₁]
    rfl

theorem clone_proc_uncopied_stops (hc : ¬ c.copied o) (hne : p ≠ np) (hp : (s.proc p).lock = false)
    (hnp : (s.proc np).lock = true) (hfree : ¬ Freeable o (s.proc np)) :
    ∃ e, s.clone_proc o c p np t = .error e := by
  have hnp₁ : (s.modifyProc p fun n => { n with lock := true }).proc np = s.proc np := modifyProc_ne _ _ hne.symm
  rcases free_proc_stops (o := o) (by rw [hnp₁, hnp]) (by rw [hnp₁]; exact hfree) with ⟨e, he⟩
  refine ⟨e, ?_⟩
  rw [clone_proc_uncopied_eq hc hp, clone_proc_fails, he]
  rfl

end Tables

/-! ## The calls -/

namespace Caller

open Tables

variable {s : Caller} {o : Outcomes} {c : Call} {s' : Tables} {t i : Nat} {r : Int} {rest : List Nat}

theorem allOrNothing_of_error {e : Stop} (h : s.do_clone o c s.cur = .error e) : AllOrNothing s o c := by
  intro s' r h'
  rw [h] at h'
  cases h'

theorem allOrNothing_of_ok (h : s.do_clone o c s.cur = .ok (s', r)) :
    AllOrNothing s o c ↔ (r = -1 → Unchanged s.toTables s') ∧ (0 < r → NewThread c s.frame s.toTables s') := by
  constructor
  · intro hall
    exact hall s' r h
  intro hr s'' r' h'
  rw [h] at h'
  cases h'
  exact hr

theorem not_unchanged_of_state {s : Tables} (h : (s.thread t).state = .TCB_UNUSED)
    (h' : (s'.thread t).state ≠ .TCB_UNUSED) : ¬ Unchanged s s' := by
  intro hsame
  rcases hsame.thread t with heq | ⟨-, hunused⟩
  · rw [heq] at h'
    exact h' h
  · exact h' hunused

theorem not_unchanged_of_thread_lock {s : Tables} (h : (s.thread t).lock = false) (h' : (s'.thread t).lock = true) :
    ¬ Unchanged s s' := by
  intro hsame
  rw [hsame.thread_lock t, h] at h'
  cases h'

theorem not_unchanged_of_proc_lock {s : Tables} (h : (s.proc i).lock = false) (h' : (s'.proc i).lock = true) :
    ¬ Unchanged s s' := by
  intro hsame
  rw [hsame.proc_lock i, h] at h'
  cases h'

theorem unused_thread (hq : s.tcb_q .TCB_UNUSED = t :: rest) : (s.thread t).state = .TCB_UNUSED :=
  s.queued_thread _ t (by rw [hq]; exact List.mem_cons_self)

theorem unused_not_runnable (hq : s.tcb_q .TCB_UNUSED = t :: rest) : t ∉ s.tcb_q .TCB_RUNNABLE := by
  intro hrun
  have hstate := s.queued_thread _ t hrun
  rw [unused_thread hq] at hstate
  cases hstate

theorem unused_proc (hq : s.pcb_q .PCB_UNUSED = i :: rest) : (s.proc i).state = .PCB_UNUSED :=
  s.queued_proc _ i (by rw [hq]; exact List.mem_cons_self)

theorem caller_ne (hq : s.pcb_q .PCB_UNUSED = i :: rest) : s.p ≠ i := by
  intro h
  have hlive := s.live
  rw [h, unused_proc hq] at hlive
  cases hlive

theorem loadFrame_source {s₁ : Tables} (hapart : Apart t s.toTables s₁) (hnull : s₁.null_page = s.null_page)
    (hframe : (s₁.thread t).trapframe = some ⟨fun _ => 0⟩) : s₁.loadFrame s.leader = s.source t := by
  rw [loadFrame, source]
  rcases eq_or_ne s.leader t with heq | hne
  · rw [if_pos heq, heq, hframe]
    rfl
  · rw [if_neg hne, hapart.thread _ hne, hnull]

theorem newThread_iff {s₁ : Tables} (hq : s.tcb_q .TCB_UNUSED = t :: rest) (hapart : Apart t s.toTables s₁)
    (hstart : Started t s₁ s') :
    NewThread c s.frame s.toTables s' ↔ ∃ tf, (s₁.thread t).trapframe = some tf ∧
      ∀ w, kernelWord w = false → tf.word w = c.register w (s.frame.word w) := by
  have hrun : s'.tcb_q .TCB_RUNNABLE = s.tcb_q .TCB_RUNNABLE ++ [t] := by rw [hstart.runnable, hapart.runnable]
  constructor
  · rintro ⟨t', tf, -, -, hrun', -, hframe, hwords⟩
    have ht : t' = t := by
      rw [hrun] at hrun'
      simpa using (List.append_cancel_left hrun').symm
    rw [ht, hstart.frame] at hframe
    exact ⟨tf, hframe, hwords⟩
  · rintro ⟨tf, hframe, hwords⟩
    refine ⟨t, tf, unused_thread hq, hstart.state, hrun, fun u hu => ?_, ?_, hwords⟩
    · rw [hstart.others u hu, hapart.thread u hu]
    · rw [hstart.frame, hframe]

theorem reframe_agrees :
    (∀ w, kernelWord w = false → (c.reframe (s.source t)).word w = c.register w (s.frame.word w)) ↔ s.agrees c t := by
  apply forall_congr'
  intro w
  apply imp_congr_right
  intro _
  rw [Call.reframe_word, Call.register, Call.register]
  constructor
  · intro h h14 h8 h6
    rw [if_neg h14, if_neg h8, if_neg h6, if_neg h14, if_neg h8, if_neg h6] at h
    exact h
  intro h
  split
  · rfl
  split
  · rfl
  · split
    · rfl
    · exact h ‹_› ‹_› ‹_›

theorem started_iff {s₁ : Tables} (hrun : s.do_clone o c s.cur = .ok (s', r)) (hq : s.tcb_q .TCB_UNUSED = t :: rest)
    (hapart : Apart t s.toTables s₁) (hstart : Started t s₁ s') :
    AllOrNothing s o c ↔ r ≠ -1 ∧ (0 < r → ∃ tf, (s₁.thread t).trapframe = some tf ∧
      ∀ w, kernelWord w = false → tf.word w = c.register w (s.frame.word w)) := by
  have hchanged : ¬ Unchanged s.toTables s' :=
    not_unchanged_of_state (unused_thread hq) (by rw [hstart.state]; exact thread_state.noConfusion)
  rw [allOrNothing_of_ok hrun, newThread_iff hq hapart hstart]
  apply and_congr_left
  intro _
  exact ⟨fun h hr => hchanged (h hr), fun h hr => absurd hr h⟩

/-- The state in which `clone_thread` is called for a new thread of the caller's process: one that could not
join is a free slot again by then. -/
theorem joined_thread (hq : s.tcb_q .TCB_UNUSED = t :: rest) (ht : (s.thread t).lock = false)
    (htg : s.tg.lock = false) (hmm : s.mm.lock = false) :
    ∃ s₁ s₂ s₃, s.alloc_thread = .ok (s₁, some t) ∧
      s₁.proc_join_thread o s.p t = .ok (s₂, o.uvm_thread_trapframe) ∧
      (if o.uvm_thread_trapframe then pure s₂ else s₂.free_thread t) = .ok s₃ ∧
      Apart t s.toTables s₃ ∧ (s₃.proc s.p).tg.bind thread_group.group_leader = some s.leader ∧
      (s₃.thread t).lock = true ∧
      (o.uvm_thread_trapframe = true → (s₃.thread t).tid = s.next_tid ∧ s₃.null_page = s.null_page ∧
        (s₃.thread t).trapframe = some ⟨fun _ => 0⟩) ∧
      (o.uvm_thread_trapframe = false → (s₃.thread t).tid = 0) := by
  have hrun := unused_not_runnable hq
  rcases alloc_thread_free hq ht hrun with ⟨s₁, halloc, htaken⟩
  have hproc₁ : s₁.proc s.p = s.proc s.p := by rw [htaken.proc]
  have hjoin := proc_join_thread_free (s := s₁) (i := s.p) (t := t) (o := o) (by rw [hproc₁]; exact s.group)
    (by rw [hproc₁]; exact s.space) htg hmm
  obtain ⟨s₂, hs₂⟩ : ∃ s₂, s₂ = s₁.enter_group o s.p t s.tg := ⟨_, rfl⟩
  have hapart : Apart t s.toTables s₂ := by
    rw [hs₂]
    exact htaken.apart.trans (enter_group_apart o s₁ s.p t s.tg)
  have hthread₂ := enter_group_thread o s₁ s.p t s.tg
  have hproc₂ := enter_group_proc o s₁ s.p t s.tg
  rw [← hs₂] at hjoin hthread₂ hproc₂
  have hlead : (s₂.proc s.p).tg.bind thread_group.group_leader = some s.leader := by
    rw [hproc₂]
    show s.tg.group_leader.or (some t) = some s.leader
    rw [s.lead]
    rfl
  rcases Bool.eq_false_or_eq_true o.uvm_thread_trapframe with htf | htf
  · refine ⟨s₁, s₂, s₂, halloc, hjoin, by rw [htf]; rfl, hapart, hlead, ?_, fun _ => ⟨?_, ?_, ?_⟩, fun h => ?_⟩
    · rw [hthread₂, htaken.lock]
    · rw [hthread₂, htaken.tid]
    · rw [hs₂]
      exact htaken.null_page
    · rw [hthread₂, htf]
      rfl
    · rw [htf] at h
      cases h
  · have hmm₂ : (s₂.proc s.p).mm = some s.mm := by
      rw [hproc₂]
      show (s₁.proc s.p).mm = some s.mm
      rw [hproc₁, s.space]
    have hleft := leave_thread_left (hapart.not_runnable hrun)
    refine ⟨s₁, s₂, s₂.leave_thread t, halloc, hjoin, ?_, hapart.trans hleft.apart, ?_, ?_, fun h => ?_, fun _ => hleft.tid⟩
    · rw [htf]
      exact free_thread_free (by rw [hthread₂]) hmm₂ hmm
    · rw [hleft.proc, hlead]
    · rw [hleft.lock, hthread₂, htaken.lock]
    · rw [htf] at h
      cases h

/-- A call for a new thread in the slot `t`, once the group can be joined. -/
theorem clone_thread_iff (hflag : c.has CLONE_THREAD = true) (hq : s.tcb_q .TCB_UNUSED = t :: rest)
    (ht : (s.thread t).lock = false) (htg : s.tg.lock = false) (hmm : s.mm.lock = false) :
    AllOrNothing s o c ↔ s.threadOk o c t := by
  have hrun := unused_not_runnable hq
  rcases joined_thread (o := o) hq ht htg hmm with
    ⟨s₁, s₂, s₃, halloc, hjoin, hfree, hapart, hlead, hlock, hjoined, hleft⟩
  have heq : s.do_clone o c s.cur = (s₃.clone_thread o c s.p t).bind fun
      | (s, false) => .ok (s, -1)
      | (s, true) => do
        let s ← (s.TCB_Q_changeState t .TCB_RUNNABLE).releaseThread t
        return (s, (s.thread t).tid) := by
    rw [do_clone, s.current]
    dsimp only
    rw [if_pos hflag, halloc]
    show (proc_join_thread o s₁ s.p t).bind _ = _
    rw [hjoin]
    cases htf : o.uvm_thread_trapframe with
    | true =>
      rw [htf] at hfree
      cases hfree
      rfl
    | false =>
      rw [htf] at hfree
      show (free_thread s₂ t).bind _ = _
      rw [show s₂.free_thread t = .ok s₃ from hfree]
      rfl
  rw [threadOk]
  rcases em (c.written o) with hwritten | hwritten
  · rcases em (c.handled o) with hhandled | hhandled
    · rcases clone_thread_written hlead hwritten hhandled with ⟨s₄, hs₄, hframed⟩
      rcases changeState_started (hframed.apart.not_runnable (hapart.not_runnable hrun)) (hframed.lock.trans hlock) with
        ⟨s', hs', hstart, -, -⟩
      have hret : s.do_clone o c s.cur = .ok (s', (s'.thread t).tid) := by
        rw [heq, hs₄]
        show (releaseThread _ t).bind _ = _
        rw [hs']
        rfl
      rw [started_iff hret hq (hapart.trans hframed.apart) hstart, hstart.tid, hframed.tid, hframed.frame]
      rcases Bool.eq_false_or_eq_true o.uvm_thread_trapframe with htf | htf
      · rcases hjoined htf with ⟨htid, hnull, hframe⟩
        rw [htid, hframe, loadFrame_source hapart hnull hframe, ← reframe_agrees]
        simp [hwritten, hhandled, htf]
      · rw [hleft htf]
        simp [hwritten, htf]
    · rcases clone_thread_unhandled hlead hwritten hhandled with ⟨e, he⟩
      have hstop : s.do_clone o c s.cur = .error e := by
        rw [heq, he]
        rfl
      exact iff_of_true (allOrNothing_of_error hstop) ⟨hwritten, fun h => absurd h hhandled⟩
  · -- The lock of the thread stays held.
    rcases clone_thread_unwritten hlead hwritten with ⟨s₄, h, hs₄, hframed⟩
    have hret : s.do_clone o c s.cur = .ok (s₄, -1) := by
      rw [heq, hs₄]
      rfl
    apply iff_of_false
    · intro hall
      exact not_unchanged_of_thread_lock ht (hframed.lock.trans hlock) (((allOrNothing_of_ok hret).mp hall).1 rfl)
    · exact fun hok => hwritten hok.1

/-- What `alloc_proc` gives back is as it was, but for the entry of the pid it had taken. -/
theorem given_back_iff {s₁ : Tables} {entries : List Bool} (hq : s.pcb_q .PCB_UNUSED = i :: rest)
    (hi : (s.proc i).lock = false) (hopen : ProcOpened o i rest s.toTables s₁) :
    Unchanged s.toTables ((s₁.leave_proc i entries).modifyProc i fun n => { n with lock := false }) ↔
      s.pid_map s.next_pid = none := by
  have hunused := unused_proc hq
  have hmap : ((s₁.leave_proc i entries).modifyProc i fun n => { n with lock := false }).pid_map =
      update s.pid_map s.next_pid none := by
    rw [← hopen.pid, ← hopen.pid_map]
    rfl
  have hproc_ne : ∀ u, u ≠ i →
      ((s₁.leave_proc i entries).modifyProc i fun n => { n with lock := false }).proc u = s.proc u := by
    intro u hu
    rw [modifyProc_ne _ _ hu, leave_proc_proc_ne _ _ hu, hopen.proc_ne u hu]
  constructor
  · intro h
    have hpid := congrFun (hmap.symm.trans h.pid_map) s.next_pid
    rw [update_self] at hpid
    exact hpid.symm
  intro hpid
  refine ⟨fun u => ?_, fun t => .inl (congrFun hopen.thread t), fun st => ?_, fun st => ?_, ?_, hopen.tid_map,
    hopen.f_count, hopen.i_ref, fun u => ?_, fun t => by rw [← hopen.thread]; rfl⟩
  · rcases eq_or_ne u i with rfl | hu
    · refine .inr ⟨hunused, ?_⟩
      rw [modifyProc_self]
      exact (leave_proc_proc s₁ u entries).1
    · exact .inl (hproc_ne u hu)
  · -- The slot goes from the head of its queue to the end, and was in no other.
    show ((s₁.leave_proc i entries).pcb_q st).Perm (s.pcb_q st)
    rcases eq_or_ne st .PCB_UNUSED with rfl | hst
    · have hnodup := s.nodup_proc
      rw [hq, List.nodup_cons] at hnodup
      rw [leave_proc, pcb_q_changeState]
      show ((s₁.pcb_q .PCB_UNUSED).erase i ++ [i]).Perm _
      rw [hopen.pcb_q, update_self, hq, List.erase_of_not_mem hnodup.1]
      exact List.perm_append_singleton i rest
    · rw [leave_proc, pcb_q_changeState_ne _ _ hst]
      show ((s₁.pcb_q st).erase i).Perm _
      rw [hopen.pcb_q, update_of_ne hst, List.erase_of_not_mem]
      intro hmem
      exact hst ((s.queued_proc st i hmem).symm.trans hunused)
  · show (s₁.tcb_q st).Perm (s.tcb_q st)
    rw [hopen.tcb_q]
  · rw [hmap, ← hpid, update_eq_self]
  · rcases eq_or_ne u i with rfl | hu
    · rw [modifyProc_self, hi]
    · rw [hproc_ne u hu]

theorem create_proc_none {s s' : Tables} (h : s.alloc_proc o = .ok (s', none)) : s.create_proc o = .ok (s', none) := by
  rw [create_proc, h]
  rfl

theorem create_proc_stops {s : Tables} {e : Stop} (h : s.alloc_proc o = .error e) : s.create_proc o = .error e := by
  rw [create_proc, h]
  rfl

theorem do_clone_none (hflag : ¬ c.has CLONE_THREAD = true) (h : s.create_proc o = .ok (s', none)) :
    s.do_clone o c s.cur = .ok (s', -1) := by
  rw [do_clone, s.current]
  dsimp only
  rw [if_neg hflag, h]
  rfl

theorem do_clone_stops {e : Stop} (hflag : ¬ c.has CLONE_THREAD = true) (h : s.create_proc o = .error e) :
    s.do_clone o c s.cur = .error e := by
  rw [do_clone, s.current]
  dsimp only
  rw [if_neg hflag, h]
  rfl

/-- A call for a new process that `alloc_proc` cannot make. -/
theorem incomplete_iff (hflag : ¬ c.has CLONE_THREAD = true) (hq : s.pcb_q .PCB_UNUSED = i :: rest)
    (hi : (s.proc i).lock = false) (ho : ¬ o.complete) :
    AllOrNothing s o c ↔ ((o.alloc_mm.isSome → o.free_mm = true) →
      (∃ entries, (s.proc i).shm_clist = some entries ∧ false ∉ entries) → s.pid_map s.next_pid = none) := by
  rcases alloc_proc_free (o := o) hq hi with ⟨s₁, hopen, -, hfails⟩
  have hfreeable : Freeable o (s₁.proc i) ↔ (o.alloc_mm.isSome → o.free_mm = true) ∧
      ∃ entries, (s.proc i).shm_clist = some entries ∧ false ∉ entries := by
    rw [Freeable, hopen.mm, hopen.shm_clist, Option.isSome_map]
  rcases em (Freeable o (s₁.proc i)) with hfree | hfree
  · rcases alloc_proc_fails_free hopen.lock hfree with ⟨entries, hentries⟩
    have hret := do_clone_none hflag (create_proc_none ((hfails ho).trans hentries))
    rcases hfreeable.mp hfree with ⟨hmm, hshm⟩
    rw [allOrNothing_of_ok hret, given_back_iff hq hi hopen]
    constructor
    · exact fun h _ _ => h.1 rfl
    · exact fun h => ⟨fun _ => h hmm hshm, fun hpos => absurd hpos (by decide)⟩
  · rcases alloc_proc_fails_stops hopen.lock hfree with ⟨e, he⟩
    have hstop := do_clone_stops hflag (create_proc_stops ((hfails ho).trans he))
    exact iff_of_true (allOrNothing_of_error hstop) fun hmm hshm => absurd (hfreeable.mpr ⟨hmm, hshm⟩) hfree

/-- Without a thread the new process is freed. -/
theorem threadless_create (hq : s.pcb_q .PCB_UNUSED = i :: rest) (hi : (s.proc i).lock = false) (ho : o.complete)
    (ht : s.tcb_q .TCB_UNUSED = []) :
    ∃ s₁ : Tables, (∀ u, u ≠ i → s₁.proc u = s.proc u) ∧ (s₁.proc i).mm.map mm_struct.pagetable = o.alloc_mm ∧
      (s₁.proc i).lock = true ∧ (s₁.proc i).shm_clist = some [] ∧
      s.create_proc o = (s₁.free_proc o i).bind fun s => .ok (s, none) := by
  rcases alloc_proc_free (o := o) hq hi with ⟨s₁, hopen, hall, -⟩
  rcases hall ho with ⟨halloc, -⟩
  have hproc := enter_proc_proc s₁ i
  have hempty : (s₁.enter_proc i).tcb_q .TCB_UNUSED = [] := by
    rw [← ht, ← hopen.tcb_q]
    rfl
  refine ⟨s₁.enter_proc i, fun u hu => ?_, ?_, ?_, ?_, ?_⟩
  · rw [enter_proc_proc_ne s₁ hu, hopen.proc_ne u hu]
  · rw [hproc]
    show (s₁.proc i).mm.map mm_struct.pagetable = o.alloc_mm
    rw [hopen.mm]
    cases o.alloc_mm <;> rfl
  · rw [hproc, hopen.lock]
  · rw [hproc]
  · rw [create_proc, halloc]
    show (alloc_thread _).bind _ = _
    rw [alloc_thread_empty hempty]
    rfl

theorem create_proc_held (hq : s.pcb_q .PCB_UNUSED = i :: rest) (hi : (s.proc i).lock = false) (ho : o.complete)
    {rest' : List Nat} (ht : s.tcb_q .TCB_UNUSED = t :: rest') (htl : (s.thread t).lock = true) :
    s.create_proc o = .error .acquire := by
  rcases alloc_proc_free (o := o) hq hi with ⟨s₁, hopen, hall, -⟩
  have hq₁ : (s₁.enter_proc i).tcb_q .TCB_UNUSED = t :: rest' := by
    rw [← ht, ← hopen.tcb_q]
    rfl
  have htl₁ : ((s₁.enter_proc i).thread t).lock = true := by
    rw [← htl, ← hopen.thread]
    rfl
  rw [create_proc, (hall ho).1]
  show (alloc_thread _).bind _ = _
  rw [alloc_thread_held hq₁ htl₁]
  rfl

/-- A call for a new process for which there is no thread: the lock of the process stays held. -/
theorem threadless_iff (hflag : ¬ c.has CLONE_THREAD = true) (hq : s.pcb_q .PCB_UNUSED = i :: rest)
    (hi : (s.proc i).lock = false) (ho : o.complete) (ht : s.tcb_q .TCB_UNUSED = []) :
    AllOrNothing s o c ↔ o.free_mm = false := by
  rcases threadless_create hq hi ho ht with ⟨s₁, -, hmm, hlock, hshm, heq⟩
  have hfreeable : Freeable o (s₁.proc i) ↔ o.free_mm = true := by
    have hsome : (s₁.proc i).mm.isSome = true := by
      rw [← Option.isSome_map (f := mm_struct.pagetable), hmm]
      exact ho.1
    rw [Freeable, hshm, hsome]
    simp
  rcases Bool.eq_false_or_eq_true o.free_mm with hfree | hfree
  · rcases free_proc_free hlock (hfreeable.mpr hfree) with ⟨entries, hentries⟩
    have hret := do_clone_none hflag (heq.trans (by rw [hentries]; rfl))
    rw [allOrNothing_of_ok hret, hfree]
    apply iff_of_false
    · intro h
      exact not_unchanged_of_proc_lock hi ((leave_proc_proc _ i entries).2.trans hlock) (h.1 rfl)
    · exact Bool.true_eq_false.mp
  · have hnot : ¬ Freeable o (s₁.proc i) := by
      rw [hfreeable, hfree]
      exact Bool.false_ne_true
    rcases free_proc_stops hlock hnot with ⟨e, he⟩
    have hstop := do_clone_stops hflag (heq.trans (by rw [he]; rfl))
    exact iff_of_true (allOrNothing_of_error hstop) hfree

/-- The new process `i` with its first thread `t`, as `create_proc` leaves them. -/
structure Created (s : Caller) (o : Outcomes) (i t : Nat) (s₁ : Tables) : Prop where
  apart : Apart t s.toTables s₁
  null_page : s₁.null_page = s.null_page
  proc_ne : ∀ u, u ≠ i → s₁.proc u = s.proc u
  leader : (s₁.proc i).tg.bind thread_group.group_leader = some t
  lock : (s₁.proc i).lock = true
  pid : (s₁.proc i).pid = s.next_pid
  freeable : Freeable o (s₁.proc i) ↔ o.free_mm = true
  thread_lock : (s₁.thread t).lock = false
  thread_state : (s₁.thread t).state = .TCB_USED
  frame : (s₁.thread t).trapframe = if o.uvm_thread_trapframe then some ⟨fun _ => 0⟩ else none
  state : (s₁.proc i).state = .PCB_USED
  mm : (s₁.proc i).mm.map mm_struct.pagetable = o.alloc_mm
  roots : s₁.roots = fun page => s.roots page || o.alloc_mm == some page

theorem created_proc (hq : s.pcb_q .PCB_UNUSED = i :: rest) (hi : (s.proc i).lock = false) (ho : o.complete)
    {rest' : List Nat} (ht : s.tcb_q .TCB_UNUSED = t :: rest') (htl : (s.thread t).lock = false) :
    ∃ s₁, s.create_proc o = .ok (s₁, some i) ∧ s.Created o i t s₁ := by
  rcases alloc_proc_free (o := o) hq hi with ⟨s₁, hopen, hall, -⟩
  rcases hall ho with ⟨halloc, htg⟩
  have hproc := enter_proc_proc s₁ i
  rcases Option.isSome_iff_exists.mp ho.1 with ⟨root, hroot⟩
  have hmm : (s₁.proc i).mm = some ⟨false, root, 0, 0⟩ := by rw [hopen.mm, hroot]; rfl
  have hsame : (s₁.enter_proc i).thread = s.thread ∧ (s₁.enter_proc i).tcb_q = s.tcb_q :=
    ⟨hopen.thread, hopen.tcb_q⟩
  have hrun := unused_not_runnable ht
  rcases alloc_thread_free (s := s₁.enter_proc i) (by rw [hsame.2, ht]) (by rw [hsame.1, htl])
    (by rw [hsame.2]; exact hrun) with ⟨s₂, hthread, htaken⟩
  have hproc₂ : s₂.proc i = { s₁.proc i with shm_clist := some [], state := .PCB_USED } := by rw [htaken.proc, hproc]
  have htg₂ : (s₂.proc i).tg = some tginit := by rw [hproc₂]; exact htg
  have hmm₂ : (s₂.proc i).mm = some ⟨false, root, 0, 0⟩ := by rw [hproc₂]; exact hmm
  have hjoin := proc_join_thread_free (t := t) (o := o) htg₂ hmm₂ rfl rfl
  have hthread₃ := enter_group_thread o s₂ i t tginit
  have hproc₃ := enter_group_proc o s₂ i t tginit
  obtain ⟨s₃, hs₃⟩ : ∃ s₃, s₃ = s₂.enter_group o i t tginit := ⟨_, rfl⟩
  rw [← hs₃] at hjoin hthread₃ hproc₃
  have hlock₃ : (s₃.thread t).lock = true := by rw [hthread₃, htaken.lock]
  refine ⟨s₃.modifyThread t fun n => { n with lock := false }, ?_,
    ⟨?_, ?_, fun u hu => ?_, ?_, ?_, ?_, ?_, ?_, ?_, ?_, ?_, ?_, ?_⟩⟩
  · rw [create_proc, halloc]
    show (alloc_thread _).bind _ = _
    rw [hthread]
    show (proc_join_thread o s₂ i t).bind _ = _
    rw [hjoin]
    show (releaseThread s₃ t).bind _ = _
    rw [releaseThread_held hlock₃]
    rfl
  · have hjoined : Apart t s₂ s₃ := by
      rw [hs₃]
      exact enter_group_apart o s₂ i t tginit
    exact (((Apart.of_eq hsame.1 hsame.2).trans htaken.apart).trans hjoined).trans (.modifyThread t s₃ _)
  · show s₃.null_page = s.null_page
    rw [hs₃]
    exact htaken.null_page.trans hopen.null_page
  · show s₃.proc u = s.proc u
    rw [hs₃, enter_group_proc_ne o s₂ t tginit hu, htaken.proc, enter_proc_proc_ne s₁ hu, hopen.proc_ne u hu]
  · show (s₃.proc i).tg.bind thread_group.group_leader = some t
    rw [hproc₃]
    rfl
  · show (s₃.proc i).lock = true
    rw [hproc₃, hproc₂, hopen.lock]
  · show (s₃.proc i).pid = s.next_pid
    rw [hproc₃, hproc₂, hopen.pid]
  · show Freeable o (s₃.proc i) ↔ o.free_mm = true
    rw [hproc₃, hproc₂, Freeable, hmm]
    simp
  · rw [modifyThread_self]
  · rw [modifyThread_self, hthread₃, htaken.state]
  · rw [modifyThread_self, hthread₃]
  · show (s₃.proc i).state = .PCB_USED
    rw [hproc₃, hproc₂]
  · show (s₃.proc i).mm.map mm_struct.pagetable = o.alloc_mm
    rw [hproc₃, hproc₂, hroot]
    show (s₁.proc i).mm.map mm_struct.pagetable = some root
    rw [hmm]
    rfl
  · show s₃.roots = _
    rw [hs₃]
    exact htaken.roots.trans hopen.roots

theorem do_clone_created {s₁ : Tables} (hflag : ¬ c.has CLONE_THREAD = true) (hcreate : s.create_proc o = .ok (s₁, some i))
    (hcreated : s.Created o i t s₁) :
    s.do_clone o c s.cur = (s₁.clone_thread o c s.p t).bind fun
      | (s', false) => .ok (s', -1)
      | (s', true) => s'.clone_proc o c s.p i t := by
  rw [do_clone, s.current]
  dsimp only
  rw [if_neg hflag, hcreate]
  show (match (s₁.proc i).tg.bind thread_group.group_leader with | none => _ | some t => _) = _
  rw [hcreated.leader]
  rfl

theorem Created.lead {s₁ : Tables} (h : s.Created o i t s₁) (hne : s.p ≠ i) :
    (s₁.proc s.p).tg.bind thread_group.group_leader = some s.leader := by
  rw [h.proc_ne _ hne, s.group]
  exact s.lead

/-- A call for a new process, once it has been made. -/
theorem created_iff (hflag : ¬ c.has CLONE_THREAD = true) (hq : s.pcb_q .PCB_UNUSED = i :: rest)
    (hi : (s.proc i).lock = false) (ho : o.complete) {rest' : List Nat} (ht : s.tcb_q .TCB_UNUSED = t :: rest')
    (htl : (s.thread t).lock = false) :
    AllOrNothing s o c ↔ c.written o ∧ (c.handled o → (s.proc s.p).lock = false →
      (¬ c.copied o → o.free_mm = false) ∧
      (c.copied o → s.next_pid ≠ -1 ∧ (0 < s.next_pid → o.uvm_thread_trapframe = true ∧ s.agrees c t))) := by
  have hne := caller_ne hq
  have hrun := unused_not_runnable ht
  rcases created_proc hq hi ho ht htl with ⟨s₁, hcreate, hcreated⟩
  have hlead := hcreated.lead hne
  have heq := do_clone_created (c := c) hflag hcreate hcreated
  rcases hcreated with ⟨hapart, hnull, hproc, -, hlock, hpid, hfree, htlock, htstate, hframe, -, -, -⟩
  rcases em (c.written o) with hwritten | hwritten
  · rcases em (c.handled o) with hhandled | hhandled
    · rcases clone_thread_written hlead hwritten hhandled with ⟨s₂, hs₂, hframed⟩
      have hrun₂ : s.do_clone o c s.cur = s₂.clone_proc o c s.p i t := by
        rw [heq, hs₂]
        rfl
      have hp₂ : s₂.proc s.p = s.proc s.p := by rw [hframed.proc, hproc _ hne]
      have hi₂ : (s₂.proc i).lock = true := by rw [hframed.proc, hlock]
      have hfree₂ : Freeable o (s₂.proc i) ↔ o.free_mm = true := by rw [hframed.proc, hfree]
      simp only [hwritten, hhandled, true_and, forall_const]
      cases hpl : (s.proc s.p).lock with
      | true =>
        have hstop := hrun₂.trans (clone_proc_held (by rw [hp₂, hpl]))
        exact iff_of_true (allOrNothing_of_error hstop) fun h => Bool.noConfusion h
      | false =>
        have hpl₂ : (s₂.proc s.p).lock = false := by rw [hp₂, hpl]
        simp only [forall_const]
        rcases em (c.copied o) with hcopied | hcopied
        · rcases clone_proc_copied hcopied hne hpl₂ hi₂ (hframed.lock.trans htlock)
            (hframed.apart.not_runnable (hapart.not_runnable hrun)) with ⟨s', hs', hstart, -, -⟩
          have hret : s.do_clone o c s.cur = .ok (s', s.next_pid) := by
            rw [hrun₂, hs', hframed.proc, hpid]
          simp only [hcopied, not_true, false_imp_iff, true_and, forall_const]
          rw [started_iff hret ht (hapart.trans hframed.apart) hstart, hframed.frame, hframe]
          apply and_congr_right
          intro _
          apply imp_congr_right
          intro _
          cases htf : o.uvm_thread_trapframe with
          | true =>
            rw [htf, if_pos rfl] at hframe
            rw [loadFrame_source hapart hnull hframe, ← reframe_agrees]
            simp
          | false => simp
        · simp only [hcopied, not_false_iff, false_imp_iff, and_true, forall_const]
          rcases Bool.eq_false_or_eq_true o.free_mm with hmm | hmm
          · -- The first thread of the new process is left over.
            rcases clone_proc_uncopied hcopied hne hpl₂ hi₂ (hfree₂.mpr hmm) with ⟨s', hs', hthread, -⟩
            rw [allOrNothing_of_ok (hrun₂.trans hs'), hmm]
            apply iff_of_false
            · intro h
              apply not_unchanged_of_state (unused_thread ht) _ (h.1 rfl)
              rw [hthread, hframed.state, htstate]
              exact thread_state.noConfusion
            · exact Bool.true_eq_false.mp
          · have hnot : ¬ Freeable o (s₂.proc i) := by
              rw [hfree₂, hmm]
              exact Bool.false_ne_true
            rcases clone_proc_uncopied_stops hcopied hne hpl₂ hi₂ hnot with ⟨e, he⟩
            exact iff_of_true (allOrNothing_of_error (hrun₂.trans he)) hmm
    · rcases clone_thread_unhandled hlead hwritten hhandled with ⟨e, he⟩
      have hstop : s.do_clone o c s.cur = .error e := by
        rw [heq, he]
        rfl
      exact iff_of_true (allOrNothing_of_error hstop) ⟨hwritten, fun h => absurd h hhandled⟩
  · -- The lock of the process stays held.
    rcases clone_thread_unwritten hlead hwritten with ⟨s₂, h, hs₂, hframed⟩
    have hret : s.do_clone o c s.cur = .ok (s₂, -1) := by
      rw [heq, hs₂]
      rfl
    apply iff_of_false
    · intro hall
      have hlock₂ : (s₂.proc i).lock = true := by rw [hframed.proc, hlock]
      exact not_unchanged_of_proc_lock hi hlock₂ (((allOrNothing_of_ok hret).mp hall).1 rfl)
    · exact fun hok => hwritten hok.1

/-- A call for a new process in the free slot `i`. -/
theorem clone_proc_iff (hflag : ¬ c.has CLONE_THREAD = true) (hq : s.pcb_q .PCB_UNUSED = i :: rest)
    (hi : (s.proc i).lock = false) : AllOrNothing s o c ↔ s.procOk o c i := by
  rw [procOk]
  rcases em o.complete with ho | ho
  · simp only [ho, not_true, false_imp_iff, true_and, forall_const]
    cases ht : s.tcb_q .TCB_UNUSED with
    | nil =>
      rw [threadless_iff hflag hq hi ho ht]
      simp
    | cons t rest' =>
      cases htl : (s.thread t).lock with
      | true =>
        have hstop := create_proc_held hq hi ho ht htl
        apply iff_of_true (allOrNothing_of_error (do_clone_stops hflag hstop))
        refine ⟨fun h => absurd h (List.cons_ne_nil _ _), fun t' rest'' h hl => ?_⟩
        rw [List.cons.injEq] at h
        rw [← h.1, htl] at hl
        cases hl
      | false =>
        rw [created_iff hflag hq hi ho ht htl]
        constructor
        · intro h
          refine ⟨fun h' => absurd h' (List.cons_ne_nil _ _), fun t' rest'' h' _ => ?_⟩
          rw [List.cons.injEq] at h'
          rw [← h'.1]
          exact h
        · exact fun h => h.2 t rest' rfl htl
  · rw [incomplete_iff hflag hq hi ho]
    simp [ho]

theorem unchanged_of_full (h : s.do_clone o c s.cur = .ok (s.toTables, -1)) : AllOrNothing s o c := by
  rw [allOrNothing_of_ok h]
  refine ⟨fun _ => ?_, fun hpos => absurd hpos (by decide)⟩
  exact ⟨fun _ => .inl rfl, fun _ => .inl rfl, fun _ => .refl _, fun _ => .refl _, rfl, rfl, rfl, rfl, fun _ => rfl,
    fun _ => rfl⟩

/-- A call for a new thread. -/
theorem thread_call_iff (hflag : c.has CLONE_THREAD = true) :
    AllOrNothing s o c ↔ ∀ t rest, s.tcb_q .TCB_UNUSED = t :: rest → (s.thread t).lock = false →
      s.tg.lock = false → s.mm.lock = false → s.threadOk o c t := by
  have hcall : ∀ e, s.alloc_thread = .error e → AllOrNothing s o c := by
    intro e he
    apply allOrNothing_of_error
    rw [do_clone, s.current]
    dsimp only
    rw [if_pos hflag, he]
    rfl
  cases hq : s.tcb_q .TCB_UNUSED with
  | nil =>
    apply iff_of_true
    · apply unchanged_of_full
      rw [do_clone, s.current]
      dsimp only
      rw [if_pos hflag, alloc_thread_empty hq]
      rfl
    · exact fun t rest h => absurd h.symm (List.cons_ne_nil t rest)
  | cons t rest =>
    have hslot : ∀ {P : Nat → Prop}, (∀ t' rest', t :: rest = t' :: rest' → P t') ↔ P t := by
      intro P
      constructor
      · exact fun h => h t rest rfl
      intro h t' rest' heq
      rw [List.cons.injEq] at heq
      rw [← heq.1]
      exact h
    rw [hslot]
    -- A lock that is held stops the kernel.
    cases htl : (s.thread t).lock with
    | true => exact iff_of_true (hcall _ (alloc_thread_held hq htl)) fun h => Bool.noConfusion h
    | false =>
      rcases em (s.tg.lock = false ∧ s.mm.lock = false) with ⟨htg, hmm⟩ | hheld
      · rw [clone_thread_iff hflag hq htl htg hmm]
        simp [htg, hmm]
      apply iff_of_true
      · rcases alloc_thread_free hq htl (unused_not_runnable hq) with ⟨s₁, halloc, htaken⟩
        have hlocks : s.tg.lock = true ∨ s.mm.lock = true := by
          cases htg : s.tg.lock <;> cases hmm : s.mm.lock <;> simp_all
        apply allOrNothing_of_error (e := .acquire)
        rw [do_clone, s.current]
        dsimp only
        rw [if_pos hflag, halloc]
        show (proc_join_thread o s₁ s.p t).bind _ = _
        rw [proc_join_thread_held (by rw [htaken.proc]; exact s.group) (by rw [htaken.proc]; exact s.space) hlocks]
        rfl
      · exact fun _ htg hmm => absurd ⟨htg, hmm⟩ hheld

/-- A call for a new process. -/
theorem proc_call_iff (hflag : ¬ c.has CLONE_THREAD = true) :
    AllOrNothing s o c ↔ ∀ i rest, s.pcb_q .PCB_UNUSED = i :: rest → (s.proc i).lock = false → s.procOk o c i := by
  cases hq : s.pcb_q .PCB_UNUSED with
  | nil =>
    apply iff_of_true
    · exact unchanged_of_full (do_clone_none hflag (create_proc_none (alloc_proc_empty hq)))
    · exact fun i rest h => absurd h.symm (List.cons_ne_nil i rest)
  | cons i rest =>
    cases hi : (s.proc i).lock with
    | true =>
      apply iff_of_true
      · exact allOrNothing_of_error (do_clone_stops hflag (create_proc_stops (alloc_proc_held hq hi)))
      intro i' rest' h hl
      rw [List.cons.injEq] at h
      rw [← h.1, hi] at hl
      cases hl
    | false =>
      rw [clone_proc_iff hflag hq hi]
      constructor
      · intro hok i' rest' h _
        rw [List.cons.injEq] at h
        rw [← h.1]
        exact hok
      · exact fun h => h i rest rfl hi

end Caller

/-- `do_clone` is all or nothing if and only if it does not come to one of the ways out that keep what was
taken, and the registers it copies are the caller's. -/
theorem clone_all_or_nothing (s : Caller) (o : Outcomes) (c : Call) : AllOrNothing s o c ↔ s.cloneOk o c := by
  rw [Caller.cloneOk]
  split
  next hflag => exact Caller.thread_call_iff hflag
  next hflag => exact Caller.proc_call_iff hflag

/-! ## A tid that cannot be written -/

def idleProc : Proc where
  lock := false
  pid := 0
  state := .PCB_UNUSED
  exit_state := 0
  killed := false
  mm := none
  ofile := fun _ => none
  cwd := 0
  parent := none
  children := []
  tg := none
  ipc_ns := false
  shm_clist := none

def idleThread : tcb where
  lock := false
  state := .TCB_UNUSED
  p := none
  tid := 0
  tidx := 0
  sig := none
  trapframe := none
  clear_child_tid := 0

/-- The first process with its only thread, and one free slot in each table. -/
def firstProc : Caller where
  proc := update (fun _ => idleProc) 0 { idleProc with
    pid := 1, state := .PCB_USED, mm := some ⟨false, 0, 0, 0⟩, tg := some ⟨false, 1, 1, 1, [0], some 0⟩,
    ipc_ns := true, shm_clist := some [] }
  thread := update (fun _ => idleThread) 0 { idleThread with
    state := .TCB_RUNNING, p := some 0, tid := 1, trapframe := some ⟨fun _ => 0⟩ }
  pcb_q
    | .PCB_UNUSED => [1]
    | .PCB_USED => [0]
    | .PCB_ZOMBIE => []
  tcb_q
    | .TCB_UNUSED => [1]
    | _ => []
  pid_map := update (fun _ => none) 1 (some 0)
  tid_map := update (fun _ => none) 1 (some 0)
  next_pid := 2
  next_tid := 2
  count_pid := 1
  count_tid := 1
  f_count := fun _ => 0
  i_ref := fun _ => 1
  sig_ref := fun _ => 0
  roots := fun page => page == 0
  null_page := ⟨fun _ => 0⟩
  cur := 0
  p := 0
  frame := ⟨fun _ => 0⟩
  tg := ⟨false, 1, 1, 1, [0], some 0⟩
  leader := 0
  queued_proc st i := by
    cases st <;> simp [update]
    · rintro rfl
      rfl
    · rintro rfl
      rfl
  queued_thread st t := by
    cases st <;> simp [update]
    rintro rfl
    rfl
  nodup_proc := by decide
  running := rfl
  current := rfl
  trapped := rfl
  live := rfl
  group := rfl
  lead := rfl
  mm := ⟨false, 0, 0, 0⟩
  space := rfl

/-- `clone(CLONE_CHILD_SETTID, 0, 0, 0, 0)`, with everything allocated and nothing mapped at 0. -/
theorem lock_kept : ¬ AllOrNothing firstProc ⟨some 7, true, true, true, some 8, false, false, true, true, true⟩
    ⟨CLONE_CHILD_SETTID, 0, 0, 0⟩ := by
  rw [Caller.proc_call_iff (by decide)]
  intro h
  have hok := (h 1 [] rfl rfl).2.2 ⟨rfl, rfl, rfl⟩ 1 [] rfl rfl
  exact Bool.false_ne_true (hok.1.1 (by decide))

end LostWakeup.Process.Clone
