/-
# LostWakeup.Ipc.Pipe — `src/ipc/pipe.c`: pipes as concurrent bounded FIFOs.

Any number of threads run through `pipe_write`, `pipe_read` and `pipe_close`.  A thread's place inside a call is explicit
(`PipeCall`), and one step is one iteration of the call's loop.  The environment decides whether the process has been
killed, and what the copies from and to user memory do.

A blocked `sema_wait` may return at any moment here, or end its thread, which is more than the semaphores allow.  Two
ghost lists record the bytes stored and delivered.
-/
import Mathlib.Data.BitVec
import LostWakeup.Library.Run
import LostWakeup.Library.Ring

namespace LostWakeup.Ipc

open Library
open Function (update update_of_ne)

/-! ## The pipe and its callers -/

def PIPESIZE : Nat := 512

instance : NeZero PIPESIZE := ⟨by decide⟩

/-- `struct pipe`.  `lock` is the holder of the pipe's spinlock. -/
structure Pipe (T : Type) where
  lock : Option T
  data : Fin PIPESIZE → UInt8
  nread : BitVec 32
  nwrite : BitVec 32
  readopen : Bool
  writeopen : Bool

namespace Pipe

variable {T : Type}

def PIPE_FULL (pi : Pipe T) : Prop := pi.nwrite = pi.nread + BitVec.ofNat 32 PIPESIZE

def PIPE_EMPTY (pi : Pipe T) : Prop := pi.nread = pi.nwrite

instance (pi : Pipe T) : Decidable pi.PIPE_FULL := inferInstanceAs (Decidable (_ = _))

instance (pi : Pipe T) : Decidable pi.PIPE_EMPTY := inferInstanceAs (Decidable (_ = _))

end Pipe

/-- Where a thread is with respect to the pipe.  `addr` and `n` are the arguments of its call, `i`
the loop counter of the source. -/
inductive PipeCall
  /-- Outside the pipe; `ret` is what its last call returned. -/
  | user (ret : Int)
  /-- `pipe_write`, at an `acquire(&pi->lock)`. -/
  | writeAcquire (addr : BitVec 64) (i n : Int)
  /-- `pipe_write`, at the test of `while (i < n)`. -/
  | writeLoop (addr : BitVec 64) (i n : Int)
  /-- `pipe_write`, in `sema_wait(&pi->write_sem)`. -/
  | writeSleep (addr : BitVec 64) (i n : Int)
  /-- `pipe_read`, at an `acquire(&pi->lock)`. -/
  | readAcquire (addr : BitVec 64) (n : Int)
  /-- `pipe_read`, at the test of `while (PIPE_EMPTY(pi) && pi->writeopen)`. -/
  | readWait (addr : BitVec 64) (n : Int)
  /-- `pipe_read`, in `sema_wait(&pi->read_sem)`. -/
  | readSleep (addr : BitVec 64) (n : Int)
  /-- `pipe_read`, at the test of `for (i = 0; i < n; i++)`. -/
  | readLoop (addr : BitVec 64) (i n : Int)
  /-- Exited inside `sema_wait`. -/
  | dead
  deriving DecidableEq

/-- The pipe, the threads that use it, and the ghost record of what went through it. -/
structure PipeState (T : Type) where
  pipe : Pipe T
  call : T → PipeCall
  /-- Both ends are closed and `pipe_close` has given the memory back. -/
  freed : Bool
  stored : List UInt8
  delivered : List UInt8

/-- What the rest of the kernel answers during one step: `proc_killed`, and the one-byte copies of
`either_copyin` (`none` is `-1`) and `either_copyout` (`false` is `-1`). -/
structure PipeEnv where
  proc_killed : Bool
  either_copyin : BitVec 64 → Option UInt8
  either_copyout : BitVec 64 → UInt8 → Bool

inductive PipeEvent (T : Type)
  | pipe_write (t : T) (addr : BitVec 64) (n : Int)
  | pipe_read (t : T) (addr : BitVec 64) (n : Int)
  /-- Thread `t` takes its next step. -/
  | run (t : T) (env : PipeEnv)
  /-- The thread is killed while it sleeps in `sema_wait`. -/
  | exit (t : T)
  | pipe_close (writable : Bool)

namespace PipeState

variable {T : Type} [DecidableEq T]

def setCall (s : PipeState T) (t : T) (c : PipeCall) : PipeState T :=
  { s with call := update s.call t c }

/-- Leave the critical section and continue at `c`. -/
def release (s : PipeState T) (t : T) (c : PipeCall) : PipeState T :=
  { s with pipe := { s.pipe with lock := none }, call := update s.call t c }

/-- Enter the critical section, if it is free, and continue at `c`. -/
def acquire (s : PipeState T) (t : T) (c : PipeCall) : Option (PipeState T) :=
  match s.pipe.lock with
  | none => some { s with pipe := { s.pipe with lock := some t }, call := update s.call t c }
  | some _ => none

/-- `pi->data[pi->nwrite++ % PIPESIZE] = ch`. -/
def store (s : PipeState T) (ch : UInt8) : PipeState T :=
  { s with
    pipe := { s.pipe with
      data := update s.pipe.data (Ring.slot PIPESIZE s.pipe.nwrite) ch
      nwrite := s.pipe.nwrite + 1 }
    stored := s.stored ++ [ch] }

/-- `++pi->nread`, after `ch` has been copied out. -/
def deliver (s : PipeState T) (ch : UInt8) : PipeState T :=
  { s with
    pipe := { s.pipe with nread := s.pipe.nread + 1 }
    delivered := s.delivered ++ [ch] }

/-- One turn of `pipe_write`'s loop, with the lock held. -/
def writeTurn (s : PipeState T) (t : T) (env : PipeEnv) (addr : BitVec 64) (i n : Int) : PipeState T :=
  if i < n then
    if s.pipe.readopen = false ∨ env.proc_killed = true then
      s.release t (.user (-1))
    else if s.pipe.PIPE_FULL then
      s.release t (.writeSleep addr i n)
    else
      match env.either_copyin (addr + BitVec.ofInt 64 i) with
      | none => s.release t (.user i)
      | some ch => (s.store ch).setCall t (.writeLoop addr (i + 1) n)
  else
    s.release t (.user i)

/-- One turn of the waiting loop of `pipe_read`, with the lock held. -/
def readWaitTurn (s : PipeState T) (t : T) (env : PipeEnv) (addr : BitVec 64) (n : Int) : PipeState T :=
  if s.pipe.PIPE_EMPTY ∧ s.pipe.writeopen = true then
    if env.proc_killed = true then
      s.release t (.user (-1))
    else
      s.release t (.readSleep addr n)
  else
    s.setCall t (.readLoop addr 0 n)

/-- One turn of the copying loop of `pipe_read`, with the lock held. -/
def readTurn (s : PipeState T) (t : T) (env : PipeEnv) (addr : BitVec 64) (i n : Int) : PipeState T :=
  if i < n then
    if s.pipe.PIPE_EMPTY then
      s.release t (.user i)
    else
      let ch := s.pipe.data (Ring.slot PIPESIZE s.pipe.nread)
      if env.either_copyout (addr + BitVec.ofInt 64 i) ch then
        (s.deliver ch).setCall t (.readLoop addr (i + 1) n)
      else
        s.release t (.user i)
  else
    s.release t (.user i)

/-- The next step of thread `t`, from wherever it is in its call. -/
def run (s : PipeState T) (t : T) (env : PipeEnv) : Option (PipeState T) :=
  match s.call t with
  | .user _ => none
  | .writeAcquire addr i n => s.acquire t (.writeLoop addr i n)
  | .writeLoop addr i n => some (s.writeTurn t env addr i n)
  | .writeSleep addr i n => some (s.setCall t (.writeAcquire addr i n))
  | .readAcquire addr n => s.acquire t (.readWait addr n)
  | .readWait addr n => some (s.readWaitTurn t env addr n)
  | .readSleep addr n => some (s.setCall t (.readAcquire addr n))
  | .readLoop addr i n => some (s.readTurn t env addr i n)
  | .dead => none

/-- A thread outside the pipe enters a call at `c`. -/
def enter (s : PipeState T) (t : T) (c : PipeCall) : Option (PipeState T) :=
  match s.call t with
  | .user _ => some (s.setCall t c)
  | _ => none

/-- `do_exit` from inside `sema_wait`. -/
def exit (s : PipeState T) (t : T) : Option (PipeState T) :=
  match s.call t with
  | .writeSleep _ _ _ => some (s.setCall t .dead)
  | .readSleep _ _ => some (s.setCall t .dead)
  | _ => none

/-- `pipe_close` takes the lock, clears one flag, and frees the pipe when both are clear. -/
def pipe_close (s : PipeState T) (writable : Bool) : Option (PipeState T) :=
  match s.pipe.lock with
  | some _ => none
  | none =>
    let pi :=
      if writable then { s.pipe with writeopen := false } else { s.pipe with readopen := false }
    some { s with pipe := pi, freed := !pi.readopen && !pi.writeopen }

/-- One event of the system; `none` where it cannot happen. -/
def next (s : PipeState T) (e : PipeEvent T) : Option (PipeState T) :=
  if s.freed then none else
  match e with
  | .pipe_write t addr n => s.enter t (.writeAcquire addr 0 n)
  | .pipe_read t addr n => s.enter t (.readAcquire addr n)
  | .run t env => s.run t env
  | .exit t => s.exit t
  | .pipe_close writable => s.pipe_close writable

end PipeState

variable {T : Type} [DecidableEq T]

def PipeStep (s : PipeState T) (e : PipeEvent T) (s' : PipeState T) : Prop := s.next e = some s'

/-- The state `pipe_alloc` leaves: both ends open, both counters zero, arbitrary memory behind. -/
def pipe_alloc (data : Fin PIPESIZE → UInt8) : PipeState T where
  pipe := ⟨none, data, 0, 0, true, true⟩
  call := fun _ => .user 0
  freed := false
  stored := []
  delivered := []

/-! ## What a step does to the bytes -/

/-- The part of the state that the FIFO law speaks about. -/
structure Traffic where
  data : Fin PIPESIZE → UInt8
  nread : BitVec 32
  nwrite : BitVec 32
  stored : List UInt8
  delivered : List UInt8

namespace PipeState

def traffic (s : PipeState T) : Traffic :=
  ⟨s.pipe.data, s.pipe.nread, s.pipe.nwrite, s.stored, s.delivered⟩

theorem traffic_acquire {s s' : PipeState T} {t : T} {c : PipeCall} (h : s.acquire t c = some s') :
    s'.traffic = s.traffic := by
  unfold acquire at h
  split at h
  · cases h
    rfl
  · cases h

/-- What one step can do to the traffic: nothing, store one byte if there is room, or deliver the byte at the read
counter if there is one. -/
inductive Effect (s s' : PipeState T) : Prop
  | quiet : s'.traffic = s.traffic → Effect s s'
  | store (ch : UInt8) : ¬ s.pipe.PIPE_FULL → s'.traffic = (s.store ch).traffic → Effect s s'
  | deliver (ch : UInt8) : ¬ s.pipe.PIPE_EMPTY →
      s.pipe.data (Ring.slot PIPESIZE s.pipe.nread) = ch →
      s'.traffic = (s.deliver ch).traffic → Effect s s'

theorem effect_writeTurn (s : PipeState T) (t : T) (env : PipeEnv) (addr : BitVec 64) (i n : Int) :
    Effect s (s.writeTurn t env addr i n) := by
  unfold writeTurn
  split
  · split
    · exact .quiet rfl
    split
    · exact .quiet rfl
    · next hfull =>
      split
      · exact .quiet rfl
      · next ch _ => exact .store ch hfull rfl
  · exact .quiet rfl

theorem effect_readWaitTurn (s : PipeState T) (t : T) (env : PipeEnv) (addr : BitVec 64) (n : Int) :
    Effect s (s.readWaitTurn t env addr n) := by
  unfold readWaitTurn
  split
  · split
    · exact .quiet rfl
    · exact .quiet rfl
  · exact .quiet rfl

theorem effect_readTurn (s : PipeState T) (t : T) (env : PipeEnv) (addr : BitVec 64) (i n : Int) :
    Effect s (s.readTurn t env addr i n) := by
  unfold readTurn
  split
  · split
    · exact .quiet rfl
    · next hempty =>
      dsimp only
      split
      · exact .deliver _ hempty rfl rfl
      · exact .quiet rfl
  · exact .quiet rfl

theorem effect_run {s s' : PipeState T} {t : T} {env : PipeEnv} (h : s.run t env = some s') :
    Effect s s' := by
  unfold run at h
  split at h
  case h_1 => cases h
  case h_2 => exact .quiet (traffic_acquire h)
  case h_3 =>
    cases h
    exact effect_writeTurn s t env _ _ _
  case h_4 =>
    cases h
    exact .quiet rfl
  case h_5 => exact .quiet (traffic_acquire h)
  case h_6 =>
    cases h
    exact effect_readWaitTurn s t env _ _
  case h_7 =>
    cases h
    exact .quiet rfl
  case h_8 =>
    cases h
    exact effect_readTurn s t env _ _ _
  case h_9 => cases h

theorem effect_enter {s s' : PipeState T} {t : T} {c : PipeCall} (h : s.enter t c = some s') :
    Effect s s' := by
  unfold enter at h
  split at h
  · cases h
    exact .quiet rfl
  · cases h

theorem effect_exit {s s' : PipeState T} {t : T} (h : s.exit t = some s') : Effect s s' := by
  unfold exit at h
  split at h
  · cases h
    exact .quiet rfl
  · cases h
    exact .quiet rfl
  · cases h

omit [DecidableEq T] in
theorem effect_pipe_close {s s' : PipeState T} {writable : Bool}
    (h : s.pipe_close writable = some s') : Effect s s' := by
  unfold pipe_close at h
  split at h
  · cases h
  · cases h
    cases writable <;> exact .quiet rfl

theorem effect_next {s s' : PipeState T} {e : PipeEvent T} (h : s.next e = some s') :
    Effect s s' := by
  unfold next at h
  split at h
  · cases h
  cases e with
  | pipe_write t addr n => exact effect_enter h
  | pipe_read t addr n => exact effect_enter h
  | run t env => exact effect_run h
  | exit t => exact effect_exit h
  | pipe_close writable => exact effect_pipe_close h

end PipeState

/-! ## The FIFO law -/

/-- The ring holds exactly the bytes stored and not yet delivered. -/
def Fifo (tr : Traffic) : Prop :=
  ∃ q, Ring.Holds tr.data tr.nread tr.nwrite q ∧ tr.stored = tr.delivered ++ q

theorem pipesize_dvd : PIPESIZE ∣ 2 ^ 32 := ⟨2 ^ 23, by decide⟩

theorem pipesize_lt : PIPESIZE < 2 ^ 32 := by decide

omit [DecidableEq T] in
theorem fifo_store {s : PipeState T} (h : Fifo s.traffic) (hfull : ¬ s.pipe.PIPE_FULL)
    (ch : UInt8) : Fifo (s.store ch).traffic := by
  obtain ⟨q, hq, hst⟩ := h
  have hroom : q.length ≠ PIPESIZE := fun hlen =>
    hfull ((hq.eq_add_iff_full pipesize_lt).mpr hlen)
  refine ⟨q ++ [ch], hq.push pipesize_dvd hroom ch, ?_⟩
  show s.stored ++ [ch] = s.delivered ++ (q ++ [ch])
  rw [← List.append_assoc]
  exact congrArg (· ++ [ch]) hst

omit [DecidableEq T] in
theorem fifo_deliver {s : PipeState T} (h : Fifo s.traffic) (hempty : ¬ s.pipe.PIPE_EMPTY)
    {ch : UInt8} (hch : s.pipe.data (Ring.slot PIPESIZE s.pipe.nread) = ch) :
    Fifo (s.deliver ch).traffic := by
  obtain ⟨q, hq, hst⟩ := h
  cases q with
  | nil => exact absurd ((hq.eq_iff_nil pipesize_lt).mpr rfl) hempty
  | cons b q =>
    have hb : b = ch := by rw [← hch]; exact hq.head.symm
    subst hb
    refine ⟨q, hq.pop, ?_⟩
    show s.stored = (s.delivered ++ [b]) ++ q
    rw [List.append_assoc]
    exact hst

theorem fifo_step {s s' : PipeState T} {e : PipeEvent T} (h : Fifo s.traffic)
    (hstep : PipeStep s e s') : Fifo s'.traffic := by
  rcases PipeState.effect_next hstep with heq | ⟨ch, hfull, heq⟩ | ⟨ch, hempty, hch, heq⟩
  · rw [heq]
    exact h
  · rw [heq]
    exact fifo_store h hfull ch
  · rw [heq]
    exact fifo_deliver h hempty hch

omit [DecidableEq T] in
theorem fifo_pipe_alloc (data : Fin PIPESIZE → UInt8) :
    Fifo (pipe_alloc (T := T) data).traffic :=
  ⟨[], Ring.holds_nil data 0, rfl⟩

/-- **A pipe is a FIFO.**  Whatever threads read and write it, in whatever order and however their
calls are cut short, the bytes delivered are a prefix of the bytes stored, and the difference of the
free-running counters is the number of bytes in between, at most `PIPESIZE`. -/
theorem pipe_fifo (data : Fin PIPESIZE → UInt8) {es : List (PipeEvent T)} {s : PipeState T}
    (hrun : Run PipeStep (pipe_alloc data) es s) :
    s.delivered <+: s.stored ∧
      (s.pipe.nwrite - s.pipe.nread).toNat ≤ PIPESIZE ∧
      (s.pipe.nwrite - s.pipe.nread).toNat = s.stored.length - s.delivered.length := by
  have hinv : Fifo s.traffic :=
    hrun.invariant (I := fun s => Fifo s.traffic) (fun _ _ _ => fifo_step) (fifo_pipe_alloc data)
  obtain ⟨q, hq, hst⟩ := hinv
  have hst' : s.stored = s.delivered ++ q := hst
  have hcount : (s.pipe.nwrite - s.pipe.nread).toNat = q.length := hq.toNat_sub pipesize_lt
  refine ⟨⟨q, hst'.symm⟩, ?_, ?_⟩
  · rw [hcount]
    exact hq.bounded
  · rw [hcount, hst', List.length_append]
    omega

/-- Thread `false` writes two bytes, thread `true` then reads one and stays in its loop. -/
def two_bytes_one_read : List (PipeEvent Bool) :=
  let env : PipeEnv := ⟨false, fun addr => some (UInt8.ofNat addr.toNat), fun _ _ => true⟩
  [.pipe_write false 104 2, .pipe_read true 0 2, .run false env, .run false env, .run false env,
    .run false env, .run true env, .run true env, .run true env]

theorem pipe_fifo_two_bytes :
    ∃ s : PipeState Bool, Run PipeStep (pipe_alloc fun _ => 0) two_bytes_one_read s ∧
      s.stored = [104, 105] ∧ s.delivered = [104] ∧ s.delivered <+: s.stored ∧
      (s.pipe.nwrite - s.pipe.nread).toNat ≤ PIPESIZE := by
  have hrun := run_of_exec PipeState.next (pipe_alloc fun _ => 0) two_bytes_one_read rfl
  have hfifo := pipe_fifo _ hrun
  exact ⟨_, hrun, rfl, rfl, hfifo.1, hfifo.2.1⟩

end LostWakeup.Ipc
