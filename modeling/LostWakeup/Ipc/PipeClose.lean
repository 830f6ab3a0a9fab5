/-
# LostWakeup.Ipc.PipeClose — `src/ipc/pipe.c`: who is woken when an end of a pipe is closed.

The threads and the pipe are those of `Ipc.Pipe`; here the two semaphores have their counters and their queues.
`pipe_close` posts one token, however many threads sleep, and gives the memory back at the second close, whoever is still
inside.

`cond_signal` is one step, and so is the way into a queue; a signal in the middle of one is an event of its own, after
which anything may be.  The counters are unbounded integers: a run that overflows an `int` is not covered.
-/
import LostWakeup.Atomic.Tokens
import LostWakeup.Ipc.Pipe
import LostWakeup.Library.Count

namespace LostWakeup.Ipc.PipeClose

open Library
open Function (update update_eq_self update_of_ne update_self)
open Atomic (sem)

/-! ## The semaphores of a pipe -/

/-- Who waits: the readers on `read_sem`, the writers on `write_sem`. -/
inductive Side
  | read
  | write
  deriving DecidableEq

structure System (T : Type) where
  state : PipeState T
  sema : Side → sem
  /-- The waiting queues of `sem_cond`. -/
  queue : Side → List T
  /-- The semaphore in whose loop in `sema_wait` a thread is; off the queue it is runnable. -/
  asleep : T → Option Side

inductive Event (T : Type)
  | pipe (e : PipeEvent T)
  /-- `thread_send_signal`; a thread that it kills leaves when it comes to run. -/
  | signal (t : T)
  /-- The same between `Queue_isempty_atomic` and `acquire(&t->lock)` of a `cond_signal`. -/
  | provided (t : T)
  /-- The same during the `Queue_push_back` of another thread, which is without the lock of the queue. -/
  | pushed (t : T)

/-- The semaphore of the `sema_wait` a thread is at. -/
def waitsOn : PipeCall → Option Side
  | .writeSleep _ _ _ => some .write
  | .readSleep _ _ => some .read
  | _ => none

/-- Whether the end is open that a side waits for. -/
def peerOpen {T : Type} (pi : Pipe T) : Side → Bool
  | .read => pi.writeopen
  | .write => pi.readopen

/-- The side that waits for the end that is closed. -/
def closes (writable : Bool) : Side := if writable then .read else .write

/-- No call is in progress. -/
def outside : PipeCall → Bool
  | .user _ => true
  | .dead => true
  | _ => false

section

variable {T : Type} [DecidableEq T]

/-- The `sema_signal` of one turn of a loop.  A writer that finds the pipe full wakes a reader before it sleeps. -/
def signals (s : PipeState T) (t : T) (env : PipeEnv) : Option Side :=
  match s.call t with
  | .writeLoop addr i n =>
    if i < n then
      if s.pipe.readopen = false ∨ env.proc_killed = true then none
      else if s.pipe.PIPE_FULL then some .read
      else
        match env.either_copyin (addr + BitVec.ofInt 64 i) with
        | none => some .read
        | some _ => none
    else some .read
  | .readLoop addr i n =>
    if i < n then
      if s.pipe.PIPE_EMPTY then some .write
      else if env.either_copyout (addr + BitVec.ofInt 64 i) (s.pipe.data (Ring.slot PIPESIZE s.pipe.nread)) then none
      else some .write
    else some .write
  | _ => none

namespace System

def setSem (w : System T) (side : Side) (S : sem) : System T := { w with sema := update w.sema side S }

def setAsleep (w : System T) (t : T) (a : Option Side) : System T := { w with asleep := update w.asleep t a }

def setQueue (w : System T) (side : Side) (ts : List T) : System T := { w with queue := update w.queue side ts }

/-- `sema_signal`, where there is one: with a value below zero, `cond_signal` makes the head of the queue runnable. -/
def post (w : System T) : Option Side → System T
  | none => w
  | some side =>
    (w.setSem side (w.sema side).sema_signal).setQueue side
      (if (w.sema side).value < 0 then (w.queue side).tail else w.queue side)

/-- Thread `t` goes on in the pipe. -/
def advance (w : System T) (t : T) (env : PipeEnv) : Option (System T) :=
  (w.state.run t env).map fun s => { w with state := s }

/-- The next step of a thread: a turn of the loop of `sema_wait` for one that was made runnable, the way there, or one
of the steps of the pipe. -/
def run (w : System T) (t : T) (env : PipeEnv) : Option (System T) :=
  match w.asleep t with
  | some side =>
    if t ∈ w.queue side then none
    -- `while (S->wakeup == 0)`
    else if (w.sema side).wakeup = 0 then some (w.setQueue side (w.queue side ++ [t]))
    else ((w.setSem side (w.sema side).resume).setAsleep t none).advance t env
  | none =>
    match waitsOn (w.state.call t) with
    | some side =>
      if (w.sema side).sleeps then
        some (((w.setSem side (w.sema side).down).setAsleep t (some side)).setQueue side (w.queue side ++ [t]))
      else (w.setSem side (w.sema side).down).advance t env
    | none => (w.post (signals w.state t env)).advance t env

/-- A killed thread comes out of `cond_wait` and leaves for `do_exit`; the counters stay as they are. -/
def exit (w : System T) (t : T) : Option (System T) :=
  match w.asleep t with
  | some side =>
    if t ∈ w.queue side then none else (w.state.exit t).map fun s => { w with state := s }.setAsleep t none
  | none => none

/-- `thread_wakeup` of a thread that sleeps, by a signal. -/
def signal (w : System T) (t : T) : System T :=
  match w.asleep t with
  | some side => w.setQueue side ((w.queue side).erase t)
  | none => w

/-- `pipe_close`.  The file of an end goes away once. -/
def pipe_close (w : System T) (writable : Bool) : Option (System T) :=
  if peerOpen w.state.pipe (closes writable) then
    (w.state.pipe_close writable).map fun s => { w with state := s }.post (some (closes writable))
  else none

def next (w : System T) (e : Event T) : Option (System T) :=
  if w.state.freed then none else
  match e with
  | .pipe (.pipe_write t addr n) => (w.state.enter t (.writeAcquire addr 0 n)).map fun s => { w with state := s }
  | .pipe (.pipe_read t addr n) => (w.state.enter t (.readAcquire addr n)).map fun s => { w with state := s }
  | .pipe (.run t env) => w.run t env
  | .pipe (.exit t) => w.exit t
  | .pipe (.pipe_close writable) => w.pipe_close writable
  | .signal t => some (w.signal t)
  | _ => none

/-- The first thread is woken under `cond_signal`, or the last one of a queue under a push. -/
def Wild (w : System T) : Event T → Prop
  | .provided t => ∃ side, (w.queue side).head? = some t
  | .pushed t => ∃ side, (w.queue side).getLast? = some t
  | _ => False

/-- How many threads are in the loop of `sema_wait`. -/
def waiting [Fintype T] (w : System T) (side : Side) : Nat := count (fun a => decide (a = some side)) w.asleep

end System

def Step (w : System T) (e : Event T) (w' : System T) : Prop := w.next e = some w' ∨ w.state.freed = false ∧ w.Wild e

/-- `pipe_alloc`, with both semaphores at zero. -/
def alloc (data : Fin PIPESIZE → UInt8) : System T where
  state := pipe_alloc data
  sema := fun _ => ⟨0, 0⟩
  queue := fun _ => []
  asleep := fun _ => none

end

/-! ## What is wanted, and when it holds -/

section

variable {T : Type} [Fintype T]

/-- Once the other end is closed nobody sleeps on, whoever is still in `sema_wait` has a wake-up of its own, and nobody
uses a pipe that is given back. -/
structure Law (w : System T) : Prop where
  pending : ∀ side, peerOpen w.state.pipe side = false →
    w.queue side = [] ∧ (w.waiting side : Int) ≤ (w.sema side).wakeup
  unused : w.state.freed = true → ∀ t, outside (w.state.call t) = true

variable [DecidableEq T]

def Keeps (w : System T) (e : Event T) : Prop := ∀ w', Step w e w' → Law w'

/-- A thread that comes to `sema_wait` after the other end is closed finds a token; an end is closed when at most one
thread sleeps for it and at most one has no wake-up, and the second when every call has returned; no signal comes in the
middle of a queue operation to a thread that it is about. -/
def Ok (w : System T) : Event T → Prop
  | .pipe (.run t _) => ∀ side, w.asleep t = none → waitsOn (w.state.call t) = some side →
      peerOpen w.state.pipe side = true ∨ 0 < (w.sema side).value
  | .pipe (.pipe_close writable) =>
      (w.queue (closes writable)).length ≤ 1 ∧
        (w.waiting (closes writable) : Int) ≤ (w.sema (closes writable)).wakeup + 1 ∧
        (peerOpen w.state.pipe (closes !writable) = false → ∀ t, outside (w.state.call t) = true)
  | .provided t => ∀ side, (w.queue side).head? ≠ some t
  | .pushed t => ∀ side, (w.queue side).getLast? ≠ some t
  | _ => True

/-- The bytes in the pipe. -/
def remaining (pi : Pipe T) : Nat := (pi.nwrite - pi.nread).toNat

/-- What a call that waits returns once the other end is closed. -/
def answer (pi : Pipe T) : PipeCall → Int
  | .readSleep _ n => max 0 (min n (remaining pi))
  | _ => -1

/-- Whoever is in `sema_wait` while the other end is closed can run, and returns on its own steps if it is not killed. -/
def Served (w : System T) : Prop :=
  ∀ t side, peerOpen w.state.pipe side = false → w.asleep t = some side → w.state.pipe.lock = none →
    ∀ env : PipeEnv, (∀ addr ch, env.either_copyout addr ch = true) →
      ∃ k w', Run Step w (List.replicate k (.pipe (.run t env))) w' ∧
        w'.state.call t = .user (answer w.state.pipe (w.state.call t))

end

/-! ## What a step of the pipe leaves alone -/

section

variable {T : Type} [DecidableEq T] {s s' : PipeState T} {t : T}

/-- A step of `t` moves `t` and opens or closes nothing. -/
structure Only (s s' : PipeState T) (t : T) : Prop where
  ends : ∀ side, peerOpen s'.pipe side = peerOpen s.pipe side
  freed : s'.freed = s.freed
  call : ∀ u, u ≠ t → s'.call u = s.call u

theorem only_setCall (c : PipeCall) : Only s (s.setCall t c) t where
  ends _ := rfl
  freed := rfl
  call _ hu := update_of_ne hu ..

theorem only_release (c : PipeCall) : Only s (s.release t c) t where
  ends side := by cases side <;> rfl
  freed := rfl
  call _ hu := update_of_ne hu ..

theorem only_store (ch : UInt8) (c : PipeCall) : Only s ((s.store ch).setCall t c) t where
  ends side := by cases side <;> rfl
  freed := rfl
  call _ hu := update_of_ne hu ..

theorem only_deliver (ch : UInt8) (c : PipeCall) : Only s ((s.deliver ch).setCall t c) t where
  ends side := by cases side <;> rfl
  freed := rfl
  call _ hu := update_of_ne hu ..

theorem acquire_free {c : PipeCall} (h : s.pipe.lock = none) :
    s.acquire t c = some { s with pipe := { s.pipe with lock := some t }, call := update s.call t c } := by
  unfold PipeState.acquire
  rw [h]

theorem only_acquire {c : PipeCall} (h : s.acquire t c = some s') : Only s s' t := by
  rcases hlock : s.pipe.lock with _ | u
  · rw [acquire_free hlock] at h
    cases h
    refine ⟨fun side => ?_, rfl, fun u hu => update_of_ne hu ..⟩
    cases side <;> rfl
  · rw [PipeState.acquire, hlock] at h
    cases h

theorem only_enter {c : PipeCall} (h : s.enter t c = some s') : Only s s' t ∧ waitsOn (s.call t) = none := by
  unfold PipeState.enter at h
  split at h
  · next hcall =>
    cases h
    exact ⟨only_setCall c, by rw [hcall]; rfl⟩
  · cases h

theorem call_setCall (c : PipeCall) : (s.setCall t c).call t = c := update_self ..

theorem call_release (c : PipeCall) : (s.release t c).call t = c := update_self ..

theorem only_exit (h : s.exit t = some s') : Only s s' t ∧ s'.call t = .dead := by
  unfold PipeState.exit at h
  split at h
  · cases h
    exact ⟨only_setCall _, call_setCall _⟩
  · cases h
    exact ⟨only_setCall _, call_setCall _⟩
  · cases h

theorem call_enter {c : PipeCall} (h : s.enter t c = some s') : s'.call t = c := by
  unfold PipeState.enter at h
  split at h
  · cases h
    exact call_setCall c
  · cases h

/-- `pipe_close` clears one flag, and that is the second one when it gives the memory back. -/
structure Shut (s s' : PipeState T) (writable : Bool) : Prop where
  ends : ∀ side, peerOpen s'.pipe side = if side = closes writable then false else peerOpen s.pipe side
  freed : s'.freed = !peerOpen s.pipe (closes !writable)
  call : s'.call = s.call

omit [DecidableEq T] in
theorem shut_pipe_close {writable : Bool} (h : s.pipe_close writable = some s') : Shut s s' writable := by
  unfold PipeState.pipe_close at h
  split at h
  · cases h
  cases h
  cases writable with
  | false => exact ⟨fun side => by cases side <;> rfl, rfl, rfl⟩
  | true => exact ⟨fun side => by cases side <;> rfl, by simp [closes, peerOpen], rfl⟩

theorem only_run {env : PipeEnv} (h : s.run t env = some s') : Only s s' t := by
  unfold PipeState.run at h
  split at h
  case h_1 => cases h
  case h_2 => exact only_acquire h
  case h_3 =>
    cases h
    unfold PipeState.writeTurn
    repeat' split
    all_goals first
      | exact only_release _
      | exact only_store _ _
  case h_4 =>
    cases h
    exact only_setCall _
  case h_5 => exact only_acquire h
  case h_6 =>
    cases h
    unfold PipeState.readWaitTurn
    repeat' split
    all_goals first
      | exact only_release _
      | exact only_setCall _
  case h_7 =>
    cases h
    exact only_setCall _
  case h_8 =>
    cases h
    unfold PipeState.readTurn
    dsimp only
    repeat' split
    all_goals first
      | exact only_release _
      | exact only_deliver _ _
  case h_9 => cases h

theorem call_acquire {c : PipeCall} (h : s.acquire t c = some s') : s'.call t = c := by
  rcases hlock : s.pipe.lock with _ | u
  · rw [acquire_free hlock] at h
    cases h
    exact update_self ..
  · rw [PipeState.acquire, hlock] at h
    cases h

/-- A writer that comes to `sema_wait` has bytes left. -/
theorem unfinished_run {env : PipeEnv} {addr : BitVec 64} {i n : Int} (h : s.run t env = some s')
    (hcall : s'.call t = .writeSleep addr i n) : i < n := by
  unfold PipeState.run at h
  split at h
  case h_1 => cases h
  case h_2 =>
    rw [call_acquire h] at hcall
    cases hcall
  case h_3 =>
    cases h
    unfold PipeState.writeTurn at hcall
    -- only the turn that finds the pipe full leads to `sema_wait`, and it is inside the test of the loop
    split at hcall
    · next hlt =>
      split at hcall
      · cases (call_release _).symm.trans hcall
      split at hcall
      · cases (call_release _).symm.trans hcall
        exact hlt
      · split at hcall
        · cases (call_release _).symm.trans hcall
        · cases (call_setCall _).symm.trans hcall
    · cases (call_release _).symm.trans hcall
  case h_4 =>
    cases h
    cases (call_setCall _).symm.trans hcall
  case h_5 =>
    rw [call_acquire h] at hcall
    cases hcall
  case h_6 =>
    cases h
    unfold PipeState.readWaitTurn at hcall
    repeat' split at hcall
    all_goals cases (call_release _).symm.trans hcall
  case h_7 =>
    cases h
    cases (call_setCall _).symm.trans hcall
  case h_8 =>
    cases h
    unfold PipeState.readTurn at hcall
    dsimp only at hcall
    repeat' split at hcall
    all_goals cases (call_release _).symm.trans hcall
  case h_9 => cases h

end

/-! ## The semaphores and their sleepers -/

/-- The invariant of one semaphore with `n` threads in `sema_wait`, `q` of them in the queue: no more than it knows of,
and none asleep or without a wake-up once the other end is closed.  It may know of more: a thread that exits is not taken
off. -/
structure Covers (peer : Bool) (n q : Nat) (S : sem) : Prop where
  pending : peer = false → q = 0 ∧ (n : Int) ≤ S.wakeup
  known : (n : Int) ≤ max 0 (-S.value) + S.wakeup
  queued : (q : Int) ≤ max 0 (-S.value)
  wakeup_nonneg : 0 ≤ S.wakeup

section

variable {peer : Bool} {n q : Nat} {S : sem}

theorem wakeup_le_signal (S : sem) : S.wakeup ≤ S.sema_signal.wakeup ∧ S.sema_signal.wakeup ≤ S.wakeup + 1 := by
  unfold sem.sema_signal
  dsimp only
  split
  · dsimp only
    omega
  · dsimp only
    omega

theorem known_le_signal (S : sem) :
    max 0 (-S.value) + S.wakeup ≤ max 0 (-S.sema_signal.value) + S.sema_signal.wakeup := by
  unfold sem.sema_signal
  dsimp only
  split
  · dsimp only
    omega
  · dsimp only
    omega

theorem value_signal (S : sem) : S.sema_signal.value = S.value + 1 := by
  unfold sem.sema_signal
  dsimp only
  split
  · rfl
  · rfl

/-- The queue after a `sema_signal` is as long as this. -/
def signalled (S : sem) (q : Nat) : Nat := if S.value < 0 then q - 1 else q

theorem Covers.signal (h : Covers peer n q S) : Covers peer n (signalled S q) S.sema_signal := by
  have hqueued := h.queued
  refine ⟨fun hpeer => ?_, h.known.trans (known_le_signal S), ?_, h.wakeup_nonneg.trans (wakeup_le_signal S).1⟩
  · obtain ⟨rfl, hpending⟩ := h.pending hpeer
    exact ⟨by rw [signalled, ite_self], hpending.trans (wakeup_le_signal S).1⟩
  · rw [value_signal, signalled]
    split
    · omega
    · omega

theorem Covers.close (h : Covers peer n q S) (hlast : q ≤ 1) (hone : (n : Int) ≤ S.wakeup + 1) :
    Covers false n (signalled S q) S.sema_signal := by
  have hqueued := h.queued
  refine ⟨fun _ => ⟨?_, ?_⟩, h.signal.known, h.signal.queued, h.signal.wakeup_nonneg⟩
  · rw [signalled]
    split
    · omega
    · omega
  have hknown := h.known
  unfold sem.sema_signal
  dsimp only
  split
  · exact hone
  · -- nobody is without a wake-up: the value is not negative
    next hpos =>
      dsimp only
      omega

theorem Covers.take (h : Covers peer n q S) (hs : S.sleeps = false) : Covers peer n q S.down := by
  have hval : 1 ≤ S.value := by simpa [sem.sleeps, sem.down] using hs
  have hknown := h.known
  have hqueued := h.queued
  refine ⟨h.pending, ?_, ?_, h.wakeup_nonneg⟩
  · simp only [sem.down]
    omega
  · simp only [sem.down]
    omega

theorem Covers.sleep (h : Covers true n q S) (hs : S.sleeps = true) : Covers true (n + 1) (q + 1) S.down := by
  have hval : S.value - 1 < 0 := by simpa [sem.sleeps, sem.down] using hs
  have hknown := h.known
  have hqueued := h.queued
  refine ⟨fun hpeer => (by cases hpeer), ?_, ?_, h.wakeup_nonneg⟩
  · simp only [sem.down]
    omega
  · simp only [sem.down]
    omega

/-- Back to sleep, where there is no wake-up. -/
theorem Covers.again (h : Covers peer n q S) (hlt : q < n) (hw : S.wakeup = 0) : Covers peer n (q + 1) S := by
  have hknown := h.known
  refine ⟨fun hpeer => ?_, h.known, by omega, h.wakeup_nonneg⟩
  have hpending := h.pending hpeer
  omega

theorem Covers.wake (h : Covers peer (n + 1) q S) (hw : S.wakeup ≠ 0) : Covers peer n q S.resume := by
  have hknown := h.known
  have hnonneg := h.wakeup_nonneg
  refine ⟨fun hpeer => ?_, ?_, h.queued, ?_⟩
  · have hpending := h.pending hpeer
    simp only [sem.resume]
    omega
  · simp only [sem.resume]
    omega
  · simp only [sem.resume]
    omega

theorem Covers.leave (h : Covers peer (n + 1) q S) : Covers peer n q S := by
  have hknown := h.known
  refine ⟨fun hpeer => ?_, by omega, h.queued, h.wakeup_nonneg⟩
  have hpending := h.pending hpeer
  omega

theorem Covers.fewer {q' : Nat} (h : Covers peer n q S) (hle : q' ≤ q) : Covers peer n q' S := by
  have hqueued := h.queued
  refine ⟨fun hpeer => ?_, h.known, by omega, h.wakeup_nonneg⟩
  have hpending := h.pending hpeer
  omega

end

section

variable {T : Type} [Fintype T] {w : System T} {side : Side} {t : T}

def Tally (w : System T) : Prop :=
  ∀ side, Covers (peerOpen w.state.pipe side) (w.waiting side) (w.queue side).length (w.sema side)

theorem Tally.state {s : PipeState T} (h : Tally w) (hopen : ∀ side, peerOpen s.pipe side = peerOpen w.state.pipe side) :
    Tally { w with state := s } := by
  intro side
  have hside := h side
  rw [← hopen side] at hside
  exact hside

theorem Tally.setSem {S : sem} {ts : List T} (h : Tally w)
    (hS : Covers (peerOpen w.state.pipe side) (w.waiting side) ts.length S) : Tally ((w.setSem side S).setQueue side ts) := by
  intro other
  show Covers _ (w.waiting other) (update w.queue side ts other).length (update w.sema side S other)
  rcases eq_or_ne other side with rfl | hne
  · rw [update_self, update_self]
    exact hS
  · rw [update_of_ne hne, update_of_ne hne]
    exact h other

omit [Fintype T] in
theorem setSem_same (w : System T) (side : Side) : w.setSem side (w.sema side) = w := by
  rw [System.setSem, update_eq_self]

omit [Fintype T] in
theorem setQueue_same (w : System T) (side : Side) (S : sem) :
    (w.setSem side S).setQueue side (w.queue side) = w.setSem side S :=
  congrArg (System.mk _ _ · _) (update_eq_self side w.queue)

variable [DecidableEq T]

omit [Fintype T] in
theorem asleep_self (w : System T) (t : T) (a : Option Side) : (w.setAsleep t a).asleep t = a := update_self ..

omit [Fintype T] in
theorem asleep_other {u : T} (hne : u ≠ t) (a : Option Side) : (w.setAsleep t a).asleep u = w.asleep u :=
  update_of_ne hne ..

theorem waiting_setAsleep (w : System T) (t : T) (a : Option Side) (side : Side) :
    (w.setAsleep t a).waiting side + (decide (w.asleep t = some side)).toNat =
      w.waiting side + (decide (a = some side)).toNat :=
  count_update _ w.asleep t a

theorem Tally.join {S : sem} (h : Tally w) (ht : w.asleep t = none)
    (hS : Covers (peerOpen w.state.pipe side) (w.waiting side + 1) ((w.queue side).length + 1) S) :
    Tally (((w.setSem side S).setAsleep t (some side)).setQueue side (w.queue side ++ [t])) := by
  intro other
  have hcount := waiting_setAsleep w t (some side) other
  show Covers _ ((w.setAsleep t (some side)).waiting other) (update w.queue side _ other).length (update w.sema side S other)
  rcases eq_or_ne other side with rfl | hne
  · have hmore : (w.setAsleep t (some other)).waiting other = w.waiting other + 1 := by simpa [ht] using hcount
    rw [update_self, update_self, hmore, List.length_append]
    exact hS
  have hsame : (w.setAsleep t (some side)).waiting other = w.waiting other := by
    simpa [ht, hne.symm] using hcount
  rw [update_of_ne hne, update_of_ne hne, hsame]
  exact h other

theorem Tally.quit {S : sem} (h : Tally w) (ht : w.asleep t = some side)
    (hS : ∀ n, w.waiting side = n + 1 → Covers (peerOpen w.state.pipe side) n (w.queue side).length S) :
    Tally ((w.setSem side S).setAsleep t none) := by
  intro other
  have hcount := waiting_setAsleep w t none other
  show Covers _ ((w.setAsleep t none).waiting other) (w.queue other).length (update w.sema side S other)
  rcases eq_or_ne other side with rfl | hne
  · have hfewer : w.waiting other = (w.setAsleep t none).waiting other + 1 := by
      simpa [ht] using hcount.symm
    rw [update_self]
    exact hS _ hfewer
  have hsame : (w.setAsleep t none).waiting other = w.waiting other := by
    simpa [ht, hne.symm] using hcount
  rw [update_of_ne hne, hsame]
  exact h other

end

/-! ## The invariant of a run -/

section

variable {T : Type} [Fintype T] {w w' : System T} {side : Side} {t : T}

/-- The counters know of everyone in `sema_wait`, and the queues have only these, each once. -/
structure Inv (w : System T) : Prop where
  tally : Tally w
  unused : w.state.freed = true → ∀ t, outside (w.state.call t) = true
  asleep : ∀ t side, w.asleep t = some side → waitsOn (w.state.call t) = some side
  unfinished : ∀ t addr i n, w.state.call t = .writeSleep addr i n → i < n
  nodup : ∀ side, (w.queue side).Nodup
  queued : ∀ side, ∀ t ∈ w.queue side, w.asleep t = some side

theorem Inv.law (h : Inv w) : Law w where
  pending side hpeer :=
    have hpending := (h.tally side).pending hpeer
    ⟨List.eq_nil_of_length_eq_zero hpending.1, hpending.2⟩
  unused := h.unused

theorem Inv.wakeup_pos (h : Inv w) (hclosed : peerOpen w.state.pipe side = false) (ht : w.asleep t = some side) :
    0 < (w.sema side).wakeup := by
  have hpos : 0 < w.waiting side := count_pos_of (x := t) (by simpa using ht)
  have hpending := ((h.tally side).pending hclosed).2
  omega

/-- A change of the counters, with threads taken off the queue. -/
theorem Inv.setSem {S : sem} {ts : List T} (h : Inv w)
    (hS : Covers (peerOpen w.state.pipe side) (w.waiting side) ts.length S) (hsub : ts.Sublist (w.queue side)) :
    Inv ((w.setSem side S).setQueue side ts) := by
  refine ⟨h.tally.setSem hS, h.unused, h.asleep, h.unfinished, fun other => ?_, fun other u hu => ?_⟩
  · show (update w.queue side ts other).Nodup
    rcases eq_or_ne other side with rfl | hne
    · rw [update_self]
      exact (h.nodup other).sublist hsub
    · rw [update_of_ne hne]
      exact h.nodup other
  · change u ∈ update w.queue side ts other at hu
    rcases eq_or_ne other side with rfl | hne
    · rw [update_self] at hu
      exact h.queued other u (hsub.subset hu)
    · rw [update_of_ne hne] at hu
      exact h.queued other u hu

theorem Inv.post (h : Inv w) (o : Option Side) : Inv (w.post o) := by
  rcases o with _ | side
  · exact h
  have hsignal := (h.tally side).signal
  rw [System.post]
  rw [signalled] at hsignal
  split
  · next hneg =>
    rw [if_pos hneg, ← List.length_tail] at hsignal
    exact h.setSem hsignal (List.tail_sublist _)
  · next hpos =>
    rw [if_neg hpos] at hsignal
    exact h.setSem hsignal (List.Sublist.refl _)

/-- A thread behind the others in the queue. -/
theorem Inv.enqueue (h : Inv w) (ht : w.asleep t = some side) (hout : t ∉ w.queue side)
    (hS : Covers (peerOpen w.state.pipe side) (w.waiting side) ((w.queue side).length + 1) (w.sema side)) :
    Inv (w.setQueue side (w.queue side ++ [t])) := by
  have htally : Tally (w.setQueue side (w.queue side ++ [t])) := by
    rw [← setSem_same w side]
    exact h.tally.setSem (by rw [List.length_append]; exact hS)
  refine ⟨htally, h.unused, h.asleep, h.unfinished, fun other => ?_, fun other u hu => ?_⟩
  · show (update w.queue side _ other).Nodup
    rcases eq_or_ne other side with rfl | hne
    · rw [update_self, List.nodup_append_comm, List.singleton_append, List.nodup_cons]
      exact ⟨hout, h.nodup other⟩
    · rw [update_of_ne hne]
      exact h.nodup other
  · change u ∈ update w.queue side _ other at hu
    rcases eq_or_ne other side with rfl | hne
    · rw [update_self, List.mem_append, List.mem_singleton] at hu
      rcases hu with hu | rfl
      · exact h.queued other u hu
      · exact ht
    · rw [update_of_ne hne] at hu
      exact h.queued other u hu

theorem not_queued (h : Inv w) (ht : w.asleep t = none) (side : Side) : t ∉ w.queue side := by
  intro hmem
  rw [h.queued side t hmem] at ht
  cases ht

variable [DecidableEq T]

theorem Inv.join {S : sem} (h : Inv w) (ht : w.asleep t = none) (hwait : waitsOn (w.state.call t) = some side)
    (hS : Covers (peerOpen w.state.pipe side) (w.waiting side + 1) ((w.queue side).length + 1) S) :
    Inv (((w.setSem side S).setAsleep t (some side)).setQueue side (w.queue side ++ [t])) := by
  have hasleep : ∀ u other, w.asleep u = some other → (w.setAsleep t (some side)).asleep u = some other := by
    intro u other hu
    have hne : u ≠ t := by
      rintro rfl
      rw [ht] at hu
      cases hu
    rw [asleep_other hne, hu]
  refine ⟨h.tally.join ht hS, h.unused, fun u other hu => ?_, h.unfinished, fun other => ?_, fun other u hu => ?_⟩
  · rcases eq_or_ne u t with rfl | hne
    · have hother := (asleep_self w u (some side)).symm.trans hu
      exact hwait.trans hother
    · exact h.asleep u other ((asleep_other hne (some side)).symm.trans hu)
  · show (update w.queue side _ other).Nodup
    rcases eq_or_ne other side with rfl | hne
    · rw [update_self, List.nodup_append_comm, List.singleton_append, List.nodup_cons]
      exact ⟨not_queued h ht other, h.nodup other⟩
    · rw [update_of_ne hne]
      exact h.nodup other
  · change u ∈ update w.queue side _ other at hu
    rcases eq_or_ne other side with rfl | hne
    · rw [update_self, List.mem_append, List.mem_singleton] at hu
      rcases hu with hu | rfl
      · exact hasleep u other (h.queued other u hu)
      · exact asleep_self w u _
    · rw [update_of_ne hne] at hu
      exact hasleep u other (h.queued other u hu)

theorem Inv.quit {S : sem} (h : Inv w) (ht : w.asleep t = some side) (hout : t ∉ w.queue side)
    (hS : ∀ n, w.waiting side = n + 1 → Covers (peerOpen w.state.pipe side) n (w.queue side).length S) :
    Inv ((w.setSem side S).setAsleep t none) := by
  refine ⟨h.tally.quit ht hS, h.unused, fun u other hu => ?_, h.unfinished, h.nodup, fun other u hu => ?_⟩
  · rcases eq_or_ne u t with rfl | hne
    · rw [asleep_self] at hu
      cases hu
    · rw [asleep_other hne] at hu
      exact h.asleep u other hu
  · have hold := h.queued other u hu
    have hne : u ≠ t := by
      rintro rfl
      obtain rfl : side = other := Option.some.inj (ht.symm.trans hold)
      exact hout hu
    exact (asleep_other hne none).trans hold

omit [DecidableEq T] in
theorem Inv.only {s : PipeState T} (h : Inv w) (hs : Only w.state s t) (ht : w.asleep t = none)
    (hfreed : w.state.freed = false) (hlast : ∀ addr i n, s.call t = .writeSleep addr i n → i < n) :
    Inv { w with state := s } := by
  refine ⟨h.tally.state hs.ends, fun hnow => ?_, fun u side hu => ?_, fun u addr i n hu => ?_, h.nodup, h.queued⟩
  · rw [hs.freed, hfreed] at hnow
    cases hnow
  · have hne : u ≠ t := by
      rintro rfl
      rw [ht] at hu
      cases hu
    rw [hs.call u hne]
    exact h.asleep u side hu
  · rcases eq_or_ne u t with rfl | hne
    · exact hlast addr i n hu
    · rw [hs.call u hne] at hu
      exact h.unfinished u addr i n hu

theorem Inv.advance {env : PipeEnv} (h : Inv w) (ht : w.asleep t = none) (hfreed : w.state.freed = false)
    (hs : w.advance t env = some w') : Inv w' := by
  obtain ⟨s, hrun, rfl⟩ := Option.map_eq_some_iff.mp hs
  exact h.only (only_run hrun) ht hfreed fun addr i n => unfinished_run hrun

/-- A thread that is in `sema_wait` off the queue is one more than those on it. -/
theorem queue_lt_waiting (h : Inv w) (ht : w.asleep t = some side) (hout : t ∉ w.queue side) :
    (w.queue side).length < w.waiting side :=
  length_le_count (l := t :: w.queue side) (List.nodup_cons.mpr ⟨hout, h.nodup side⟩) fun u hu => by
    rcases List.mem_cons.mp hu with rfl | hu
    · exact decide_eq_true ht
    · exact decide_eq_true (h.queued side u hu)

theorem Inv.run {env : PipeEnv} (h : Inv w) (hfreed : w.state.freed = false) (hok : Ok w (.pipe (.run t env)))
    (hs : w.run t env = some w') : Inv w' := by
  unfold System.run at hs
  rcases ht : w.asleep t with _ | side
  · rw [ht] at hs
    dsimp only at hs
    rcases hwait : waitsOn (w.state.call t) with _ | side
    · rw [hwait] at hs
      refine (h.post _).advance ?_ ?_ hs
      · rcases signals w.state t env with _ | side
        · exact ht
        · exact ht
      · rcases signals w.state t env with _ | side
        · exact hfreed
        · exact hfreed
    · rw [hwait] at hs
      dsimp only at hs
      rcases hsleeps : (w.sema side).sleeps with _ | _
      · rw [hsleeps, if_neg Bool.false_ne_true] at hs
        have htake := h.setSem ((h.tally side).take hsleeps) (List.Sublist.refl _)
        rw [setQueue_same] at htake
        exact htake.advance ht hfreed hs
      rw [hsleeps, if_pos rfl] at hs
      cases hs
      have hval : (w.sema side).value - 1 < 0 := by simpa [sem.sleeps, sem.down] using hsleeps
      have hopen : peerOpen w.state.pipe side = true := by
        rcases hok side ht hwait with hopen | hpos
        · exact hopen
        · omega
      have hsleep := (hopen ▸ h.tally side).sleep hsleeps
      exact h.join ht hwait (hopen.symm ▸ hsleep)
  · rw [ht] at hs
    dsimp only at hs
    by_cases hout : t ∈ w.queue side
    · rw [if_pos hout] at hs
      cases hs
    rw [if_neg hout] at hs
    split at hs
    · next hw =>
      cases hs
      exact h.enqueue ht hout ((h.tally side).again (queue_lt_waiting h ht hout) hw)
    · next hw =>
      have hquit := h.quit ht hout fun n hn => Covers.wake (hn ▸ h.tally side) hw
      exact hquit.advance (asleep_self _ t none) hfreed hs

theorem Inv.signal (h : Inv w) (t : T) : Inv (w.signal t) := by
  unfold System.signal
  split
  · next side ht =>
    have hsub := List.erase_sublist (a := t) (l := w.queue side)
    have hset := h.setSem ((h.tally side).fewer hsub.length_le) hsub
    rwa [setSem_same] at hset
  · exact h

theorem Inv.exit (h : Inv w) (hfreed : w.state.freed = false) (hs : w.exit t = some w') : Inv w' := by
  unfold System.exit at hs
  rcases ht : w.asleep t with _ | side
  · rw [ht] at hs
    cases hs
  rw [ht] at hs
  dsimp only at hs
  by_cases hout : t ∈ w.queue side
  · rw [if_pos hout] at hs
    cases hs
  rw [if_neg hout] at hs
  obtain ⟨s, hexit, rfl⟩ := Option.map_eq_some_iff.mp hs
  have hquit := h.quit ht hout fun n hn => Covers.leave (hn ▸ h.tally side)
  rw [setSem_same] at hquit
  have ⟨honly, hdead⟩ := only_exit hexit
  refine hquit.only honly (asleep_self _ t none) hfreed fun addr i n hcall => ?_
  cases hdead.symm.trans hcall

theorem Inv.enter {s : PipeState T} {c : PipeCall} (h : Inv w) (hfreed : w.state.freed = false)
    (hc : ∀ addr i n, c ≠ .writeSleep addr i n) (hs : w.state.enter t c = some s) : Inv { w with state := s } := by
  have ⟨honly, hwait⟩ := only_enter hs
  have hawake : w.asleep t = none := by
    rcases ht : w.asleep t with _ | side
    · rfl
    · cases hwait.symm.trans (h.asleep t side ht)
  refine h.only honly hawake hfreed fun addr i n hcall => ?_
  exact absurd ((call_enter hs).symm.trans hcall) (hc addr i n)

omit [DecidableEq T] [Fintype T] in
theorem length_post (w : System T) (side : Side) :
    ((w.post (some side)).queue side).length = signalled (w.sema side) (w.queue side).length := by
  have hqueue : (w.post (some side)).queue side =
      if (w.sema side).value < 0 then (w.queue side).tail else w.queue side := update_self ..
  rw [hqueue, signalled]
  split
  · exact List.length_tail
  · rfl

omit [DecidableEq T] in
theorem Inv.close {writable : Bool} (h : Inv w) (hok : Ok w (.pipe (.pipe_close writable)))
    (hs : w.pipe_close writable = some w') : Inv w' := by
  unfold System.pipe_close at hs
  split at hs
  · obtain ⟨s, hclose, rfl⟩ := Option.map_eq_some_iff.mp hs
    have hshut := shut_pipe_close hclose
    have hpost := h.post (some (closes writable))
    have htally : Tally (({ w with state := s } : System T).post (some (closes writable))) := by
      intro other
      show Covers (peerOpen s.pipe other) (w.waiting other) ((w.post (some (closes writable))).queue other).length
        (update w.sema (closes writable) _ other)
      rw [hshut.ends]
      rcases eq_or_ne other (closes writable) with rfl | hne
      · rw [if_pos rfl, update_self, length_post]
        exact (h.tally _).close hok.1 hok.2.1
      · rw [if_neg hne]
        exact hpost.tally other
    refine ⟨htally, fun hnow t => ?_, fun t side ht => ?_, fun t => ?_, hpost.nodup, hpost.queued⟩
    · have hlast : peerOpen w.state.pipe (closes !writable) = false := by
        have hfreed := hshut.freed.symm.trans hnow
        simpa using hfreed
      exact (congrArg (fun call => outside (call t)) hshut.call).trans (hok.2.2 hlast t)
    · exact (congrArg (fun call => waitsOn (call t)) hshut.call).trans (h.asleep t side ht)
    · show ∀ addr i n, s.call t = .writeSleep addr i n → i < n
      rw [hshut.call]
      exact h.unfinished t
  · cases hs

theorem Inv.step {e : Event T} (h : Inv w) (hok : Ok w e) (hs : Step w e w') : Inv w' := by
  rcases hs with hs | ⟨-, hwild⟩
  case inr =>
    cases e with
    | provided t | pushed t => exact absurd hwild (not_exists.mpr hok)
    | _ => exact hwild.elim
  unfold System.next at hs
  rcases hfreed : w.state.freed with _ | _
  · rw [hfreed, if_neg Bool.false_ne_true] at hs
    rcases e with (⟨t, addr, n⟩ | ⟨t, addr, n⟩ | ⟨t, env⟩ | t | writable) | t | t | t
    · obtain ⟨s, henter, rfl⟩ := Option.map_eq_some_iff.mp hs
      exact h.enter hfreed (fun _ _ _ => by simp) henter
    · obtain ⟨s, henter, rfl⟩ := Option.map_eq_some_iff.mp hs
      exact h.enter hfreed (fun _ _ _ => by simp) henter
    · exact h.run hfreed hok hs
    · exact h.exit hfreed hs
    · exact h.close hok hs
    · cases hs
      exact h.signal t
    · cases hs
    · cases hs
  · rw [hfreed, if_pos rfl] at hs
    cases hs

omit [Fintype T] in
theorem not_freed {e : Event T} (hs : Step w e w') : w.state.freed = false := by
  rcases hs with hs | hs
  · rcases hfreed : w.state.freed with _ | _
    · rfl
    · rw [System.next.eq_def, hfreed, if_pos rfl] at hs
      cases hs
  · exact hs.1

/-- A step that leaves the law intact meets the condition. -/
theorem ok_of_keeps {e : Event T} (h : Inv w) (hkeeps : Keeps w e) (hs : Step w e w') : Ok w e := by
  have hfreed := not_freed hs
  have hlaw := hkeeps w' hs
  -- where anything may be, a thread may be left in the queue of a closed end
  have hwild : ∀ t, ¬ Law { w with state.pipe.writeopen := false, queue := fun _ => [t] } := fun t hlaw =>
    nomatch (hlaw.pending .read rfl).1
  rcases e with (⟨t, addr, n⟩ | ⟨t, addr, n⟩ | ⟨t, env⟩ | t | writable) | t | t | t
  · trivial
  · trivial
  · intro side ht hwait
    rcases Bool.eq_false_or_eq_true (peerOpen w.state.pipe side) with hopen | hclosed
    · exact .inl hopen
    right
    rcases hsleeps : (w.sema side).sleeps with _ | _
    · have hval : 1 ≤ (w.sema side).value := by simpa [sem.sleeps, sem.down] using hsleeps
      exact hval
    · -- the thread goes to sleep, and nobody wakes it
      have hrun : w.next (.pipe (.run t env)) =
          some (((w.setSem side (w.sema side).down).setAsleep t (some side)).setQueue side (w.queue side ++ [t])) := by
        simp only [System.next, hfreed, System.run, ht, hwait, hsleeps, if_true, Bool.false_eq_true, if_false]
      have hempty := ((hkeeps _ (.inl hrun)).pending side hclosed).1
      change update w.queue side (w.queue side ++ [t]) side = [] at hempty
      rw [update_self] at hempty
      cases (List.append_eq_nil_iff.mp hempty).2
  · trivial
  · have hs := hs.resolve_right (·.2)
    simp only [System.next, hfreed, Bool.false_eq_true, if_false] at hs
    unfold System.pipe_close at hs
    split at hs
    · obtain ⟨s, hclose, rfl⟩ := Option.map_eq_some_iff.mp hs
      have hshut := shut_pipe_close hclose
      have hpending := hlaw.pending (closes writable) ((hshut.ends _).trans (if_pos rfl))
      refine ⟨?_, ?_, fun hlast t => ?_⟩
      · have hempty := congrArg List.length hpending.1
        change ((w.post (some (closes writable))).queue (closes writable)).length = 0 at hempty
        have hqueued := (h.tally (closes writable)).queued
        rw [length_post, signalled] at hempty
        split at hempty
        · omega
        · omega
      · have hwakeup := hpending.2
        change (w.waiting (closes writable) : Int) ≤
          (update w.sema (closes writable) (w.sema (closes writable)).sema_signal (closes writable)).wakeup at hwakeup
        rw [update_self] at hwakeup
        exact hwakeup.trans (wakeup_le_signal _).2
      · have hfree : s.freed = true := by rw [hshut.freed, hlast]; rfl
        have hout := hlaw.unused hfree t
        exact (congrArg (fun call => outside (call t)) hshut.call).symm.trans hout
    · cases hs
  · trivial
  · exact fun side hhead => hwild t (hkeeps _ (.inr ⟨hfreed, side, hhead⟩))
  · exact fun side hlast => hwild t (hkeeps _ (.inr ⟨hfreed, side, hlast⟩))

omit [DecidableEq T] in
theorem inv_alloc (data : Fin PIPESIZE → UInt8) : Inv (alloc (T := T) data) where
  tally side := by
    have hzero : (alloc (T := T) data).waiting side = 0 := count_eq_zero fun _ => by simp [alloc]
    rw [hzero]
    exact ⟨fun _ => ⟨rfl, Int.le_refl 0⟩, Int.le_refl 0, Int.le_refl 0, Int.le_refl 0⟩
  unused hfreed := nomatch hfreed
  asleep _ _ h := nomatch h
  unfinished _ _ _ _ h := nomatch h
  nodup _ := List.nodup_nil
  queued _ _ h := nomatch h

end

/-! ## The way out of `sema_wait` -/

section

variable {T : Type} [DecidableEq T] {w w' : System T} {t : T} {env : PipeEnv} {s : PipeState T} {r : Int}

/-- On its own steps, `t` returns `r`. -/
def Returns (w : System T) (t : T) (env : PipeEnv) (r : Int) : Prop :=
  ∃ k w', Run Step w (List.replicate k (.pipe (.run t env))) w' ∧ w'.state.call t = .user r

theorem returns_now (h : w.state.call t = .user r) : Returns w t env r := ⟨0, w, .nil w, h⟩

theorem Returns.step (h : Returns w' t env r) (hfreed : w.state.freed = false) (hs : w.run t env = some w') :
    Returns w t env r := by
  obtain ⟨k, v, hrun, hcall⟩ := h
  have hstep : Step w (.pipe (.run t env)) w' := by
    left
    rw [System.next.eq_def, hfreed, if_neg Bool.false_ne_true]
    exact hs
  exact ⟨k + 1, v, .cons hstep hrun, hcall⟩

theorem advance_eq (hs : w.state.run t env = some s) : w.advance t env = some { w with state := s } :=
  congrArg (Option.map _) hs

theorem run_awake (hawake : w.asleep t = none) (hwait : waitsOn (w.state.call t) = none) (hs : w.state.run t env = some s) :
    ∃ w', w.run t env = some w' ∧ w'.state = s ∧ w'.asleep t = none := by
  unfold System.run
  rw [hawake]
  dsimp only
  rw [hwait]
  rcases signals w.state t env with _ | side
  · exact ⟨_, advance_eq hs, rfl, hawake⟩
  · exact ⟨_, advance_eq (w := w.post (some side)) hs, rfl, hawake⟩

theorem run_wake {side : Side} (ht : w.asleep t = some side) (hout : w.queue side = []) (hw : 0 < (w.sema side).wakeup)
    (hs : w.state.run t env = some s) : ∃ w', w.run t env = some w' ∧ w'.state = s ∧ w'.asleep t = none := by
  unfold System.run
  rw [ht]
  dsimp only
  rw [hout, if_neg List.not_mem_nil, if_neg hw.ne']
  exact ⟨_, advance_eq (w := (w.setSem side _).setAsleep t none) hs, rfl, asleep_self _ t none⟩

theorem Returns.awake (hfreed : w.state.freed = false) (hawake : w.asleep t = none)
    (hwait : waitsOn (w.state.call t) = none) (hs : w.state.run t env = some s)
    (h : ∀ w' : System T, w'.state = s → w'.asleep t = none → Returns w' t env r) : Returns w t env r := by
  obtain ⟨w', hrun, hstate, hawake'⟩ := run_awake hawake hwait hs
  exact (h w' hstate hawake').step hfreed hrun

theorem Returns.release (hfreed : w.state.freed = false) (hawake : w.asleep t = none)
    (hwait : waitsOn (w.state.call t) = none) (hs : w.state.run t env = some (w.state.release t (.user r))) :
    Returns w t env r := by
  refine .awake hfreed hawake hwait hs fun w' hstate _ => returns_now ?_
  rw [hstate]
  exact call_release _

omit [DecidableEq T] in
theorem empty_of_remaining (h : remaining s.pipe = 0) : s.pipe.PIPE_EMPTY := by
  unfold remaining at h
  unfold Pipe.PIPE_EMPTY
  bv_omega

omit [DecidableEq T] in
theorem remaining_deliver {k : Nat} (h : remaining s.pipe = k + 1) (ch : UInt8) :
    ¬ s.pipe.PIPE_EMPTY ∧ remaining (s.deliver ch).pipe = k := by
  unfold remaining at h
  constructor
  · unfold Pipe.PIPE_EMPTY
    bv_omega
  · show (s.pipe.nwrite - (s.pipe.nread + 1)).toNat = k
    bv_omega

theorem run_readLoop {addr : BitVec 64} {i n : Int} (h : s.call t = .readLoop addr i n) :
    s.run t env = some (s.readTurn t env addr i n) := by
  unfold PipeState.run
  rw [h]

/-- The copying loop of a reader delivers what is there, up to what was asked for. -/
theorem read_returns {addr : BitVec 64} {i n : Int} (hfreed : w.state.freed = false) (hawake : w.asleep t = none)
    (hcall : w.state.call t = .readLoop addr i n) (hcopy : ∀ addr ch, env.either_copyout addr ch = true) :
    Returns w t env (i + max 0 (min (n - i) (remaining w.state.pipe))) := by
  have hwait : waitsOn (w.state.call t) = none := by rw [hcall]; rfl
  -- on the number of bytes in the pipe
  generalize hk : remaining w.state.pipe = k
  induction k generalizing w i with
  | zero =>
    have hturn : w.state.readTurn t env addr i n = w.state.release t (.user i) := by
      unfold PipeState.readTurn
      rw [if_pos (empty_of_remaining hk), ite_self]
    have hanswer : i + max 0 (min (n - i) ((0 : Nat) : Int)) = i := by omega
    rw [hanswer]
    exact .release hfreed hawake hwait ((run_readLoop hcall).trans (congrArg some hturn))
  | succ k ih =>
    rcases Int.lt_or_le i n with hlt | hle
    · have ⟨hsome, hless⟩ := remaining_deliver hk (w.state.pipe.data (Ring.slot PIPESIZE w.state.pipe.nread))
      have hturn : w.state.readTurn t env addr i n =
          (w.state.deliver (w.state.pipe.data (Ring.slot PIPESIZE w.state.pipe.nread))).setCall t (.readLoop addr (i + 1) n) := by
        unfold PipeState.readTurn
        rw [if_pos hlt, if_neg hsome]
        exact if_pos (hcopy ..)
      refine .awake hfreed hawake hwait ((run_readLoop hcall).trans (congrArg some hturn)) fun w' hstate hawake' => ?_
      have hcall' : w'.state.call t = .readLoop addr (i + 1) n := by rw [hstate]; exact call_setCall _
      have hfreed' : w'.state.freed = false := by rw [hstate]; exact hfreed
      have hrest := ih hfreed' hawake' hcall' (by rw [hcall']; rfl) (by rw [hstate]; exact hless)
      have hanswer : i + max 0 (min (n - i) ((k + 1 : Nat) : Int)) = i + 1 + max 0 (min (n - (i + 1)) (k : Int)) := by omega
      rw [hanswer]
      exact hrest
    · have hturn : w.state.readTurn t env addr i n = w.state.release t (.user i) := if_neg (Int.not_lt.mpr hle)
      have hanswer : i + max 0 (min (n - i) ((k + 1 : Nat) : Int)) = i := by omega
      rw [hanswer]
      exact .release hfreed hawake hwait ((run_readLoop hcall).trans (congrArg some hturn))

/-- A sleeping reader with a wake-up returns the bytes that are left. -/
theorem reader_returns {addr : BitVec 64} {n : Int} (hfreed : w.state.freed = false) (ht : w.asleep t = some .read)
    (hout : w.queue .read = []) (hw : 0 < (w.sema .read).wakeup) (hcall : w.state.call t = .readSleep addr n) (hlock : w.state.pipe.lock = none)
    (hclosed : w.state.pipe.writeopen = false) (hcopy : ∀ addr ch, env.either_copyout addr ch = true) :
    Returns w t env (max 0 (min n (remaining w.state.pipe))) := by
  obtain ⟨w₁, hrun, hstate, hawake⟩ := run_wake ht hout hw
    (show w.state.run t env = some (w.state.setCall t (.readAcquire addr n)) by unfold PipeState.run; rw [hcall])
  refine Returns.step ?_ hfreed hrun
  -- with the lock
  have hcall₁ : w₁.state.call t = .readAcquire addr n := by rw [hstate]; exact call_setCall _
  have hacquire : w₁.state.run t env = w₁.state.acquire t (.readWait addr n) := by unfold PipeState.run; rw [hcall₁]
  rw [acquire_free (by rw [hstate]; exact hlock)] at hacquire
  refine .awake (by rw [hstate]; exact hfreed) hawake (by rw [hcall₁]; rfl) hacquire fun w₂ hstate₂ hawake₂ => ?_
  -- past the test of the waiting loop
  have hcall₂ : w₂.state.call t = .readWait addr n := by rw [hstate₂]; exact update_self ..
  have hopen₂ : w₂.state.pipe.writeopen = false := by rw [hstate₂, hstate]; exact hclosed
  have hturn : w₂.state.run t env = some (w₂.state.setCall t (.readLoop addr 0 n)) := by
    unfold PipeState.run
    rw [hcall₂]
    exact congrArg some (if_neg fun h => by rw [hopen₂] at h; cases h.2)
  have hfreed₂ : w₂.state.freed = false := by rw [hstate₂, hstate]; exact hfreed
  refine .awake hfreed₂ hawake₂ (by rw [hcall₂]; rfl) hturn fun w₃ hstate₃ hawake₃ => ?_
  have hcall₃ : w₃.state.call t = .readLoop addr 0 n := by rw [hstate₃]; exact call_setCall _
  have hread := read_returns (by rw [hstate₃]; exact hfreed₂) hawake₃ hcall₃ hcopy
  have hsame : remaining w₃.state.pipe = remaining w.state.pipe := by
    rw [hstate₃]
    show remaining w₂.state.pipe = remaining w.state.pipe
    rw [hstate₂, hstate]
    rfl
  rw [Int.zero_add, Int.sub_zero, hsame] at hread
  exact hread

/-- A sleeping writer with a wake-up returns `-1`. -/
theorem writer_returns {addr : BitVec 64} {i n : Int} (hfreed : w.state.freed = false) (ht : w.asleep t = some .write)
    (hout : w.queue .write = []) (hw : 0 < (w.sema .write).wakeup) (hcall : w.state.call t = .writeSleep addr i n) (hlt : i < n)
    (hlock : w.state.pipe.lock = none) (hclosed : w.state.pipe.readopen = false) : Returns w t env (-1) := by
  obtain ⟨w₁, hrun, hstate, hawake⟩ := run_wake ht hout hw
    (show w.state.run t env = some (w.state.setCall t (.writeAcquire addr i n)) by unfold PipeState.run; rw [hcall])
  refine Returns.step ?_ hfreed hrun
  have hcall₁ : w₁.state.call t = .writeAcquire addr i n := by rw [hstate]; exact call_setCall _
  have hacquire : w₁.state.run t env = w₁.state.acquire t (.writeLoop addr i n) := by unfold PipeState.run; rw [hcall₁]
  rw [acquire_free (by rw [hstate]; exact hlock)] at hacquire
  refine .awake (by rw [hstate]; exact hfreed) hawake (by rw [hcall₁]; rfl) hacquire fun w₂ hstate₂ hawake₂ => ?_
  -- the loop sees that the read end is closed
  have hcall₂ : w₂.state.call t = .writeLoop addr i n := by rw [hstate₂]; exact update_self ..
  have hopen₂ : w₂.state.pipe.readopen = false := by rw [hstate₂, hstate]; exact hclosed
  have hturn : w₂.state.run t env = some (w₂.state.release t (.user (-1))) := by
    unfold PipeState.run
    rw [hcall₂]
    dsimp only
    rw [PipeState.writeTurn, if_pos hlt, if_pos (.inl hopen₂)]
  exact .release (by rw [hstate₂, hstate]; exact hfreed) hawake₂ (by rw [hcall₂]; rfl) hturn

end

/-! ## Closing an end -/

theorem not_outside {c : PipeCall} {side : Side} (h : waitsOn c = some side) : outside c = false := by
  cases c with
  | user => cases h
  | dead => cases h
  | _ => rfl

section

variable {T : Type} [Fintype T] [DecidableEq T]

theorem Inv.served {w : System T} (h : Inv w) : Served w := by
  intro t side hclosed ht hlock env hcopy
  have hw := h.wakeup_pos hclosed ht
  have hout := (h.law.pending side hclosed).1
  have hwait := h.asleep t side ht
  have hfreed : w.state.freed = false := by
    rcases hfreed : w.state.freed with _ | _
    · rfl
    · -- nobody sleeps in a pipe that is given back
      cases (not_outside hwait).symm.trans (h.unused hfreed t)
  rcases hcall : w.state.call t with _ | _ | _ | ⟨addr, i, n⟩ | _ | _ | ⟨addr, n⟩ | _ | _
  case writeSleep =>
    rw [hcall] at hwait
    obtain rfl : Side.write = side := Option.some.inj hwait
    exact writer_returns hfreed ht hout hw hcall (h.unfinished t addr i n hcall) hlock hclosed
  case readSleep =>
    rw [hcall] at hwait
    obtain rfl : Side.read = side := Option.some.inj hwait
    exact reader_returns hfreed ht hout hw hcall hlock hclosed hcopy
  all_goals
    rw [hcall] at hwait
    cases hwait

/-- **Closing an end wakes every sleeper** in exactly the runs in which one token is enough: each step finds at most
one sleeper that it has to serve, and the second end is closed when nobody is inside.  Everybody who sleeps for a closed
end then returns, a reader with what is left and a writer with `-1`. -/
theorem pipe_close_wakes (data : Fin PIPESIZE → UInt8) {es : List (Event T)} {w : System T} :
    (Run (Guarded Step Keeps) (alloc data) es w ↔ Run (Guarded Step Ok) (alloc data) es w) ∧
      (Run (Guarded Step Ok) (alloc data) es w → Law w ∧ Served w) := by
  constructor
  · refine Run.guarded_iff (I := Inv) (fun _ _ _ h => h.step) (fun w e w' h hs => ?_) (inv_alloc data)
    constructor
    · intro hkeeps
      exact ok_of_keeps h hkeeps hs
    · intro hok w' hs
      exact (h.step hok hs).law
  · intro hrun
    have hinv : Inv w := hrun.invariant (fun _ _ _ h hs => h.step hs.1 hs.2) (inv_alloc data)
    exact ⟨hinv.law, hinv.served⟩

end

/-- Two readers sleep on an empty pipe when its write end is closed, and the first of them takes the token. -/
def two_readers : List (Event Bool) :=
  let env : PipeEnv := ⟨false, fun _ => none, fun _ _ => true⟩
  [.pipe_read false 0 1, .run false env, .run false env, .run false env, .pipe_read true 0 1, .run true env,
    .run true env, .run true env, .pipe_close true, .run false env].map .pipe

theorem second_reader_sleeps : ¬ ∀ es (w : System Bool), Run Step (alloc fun _ => 0) es w →
    ∀ side t, peerOpen w.state.pipe side = false → t ∈ w.queue side → 0 < (w.sema side).wakeup := by
  intro hall
  have hrun := run_of_exec System.next (alloc fun _ => 0) two_readers rfl
  exact absurd (hall _ _ (hrun.mono fun _ _ _ => .inl) .read true rfl (by decide)) (by decide)

end LostWakeup.Ipc.PipeClose
