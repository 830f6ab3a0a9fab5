/-
# LostWakeup.Atomic.TimedWait — waits with a timeout: `futex_wait`, `thread_sched` and the timers behind them.

The timer of a wait is in the frame of `thread_sched`, if the low 32 bits of the timeout are not 0.  It is linked while
the thread sleeps; the thread may be back before the tick comes to its timer, and then the tick fails an assertion, or
waits for the lock of a thread that waits for the tick.  `timed_waits_lawful` says which runs keep the law.
-/
import LostWakeup.Lib.Timer
import LostWakeup.Library.Run
import LostWakeup.Library.WaitQueue

namespace LostWakeup.Atomic.TimedWait

open Library Lib.Clock Lib.Timer
open Function (update update_of_ne update_self)

/-! ## Threads and their frames -/

inductive thread_state
  | TCB_RUNNABLE
  | TCB_RUNNING
  | TCB_SLEEPING
  deriving DecidableEq

structure tcb (Q : Type) where
  state : thread_state
  wait_chan_entry : Option Q
  time_out : Nat
  deriving DecidableEq

/-- Where a thread is in `thread_sched`. -/
inductive Place
  /-- On its way to the lock of `timer_head`, with its own lock. -/
  | arming
  /-- Switched out. -/
  | switched
  /-- Behind `swtch`, with its own lock. -/
  | back
  deriving DecidableEq

/-- A call of `futex_wait` and its `thread_sched`: the timeout, whether there is a timer, when the call began, and
when the function of its timer has run. -/
structure Frame where
  ts : Option timespec
  set_timer : Int
  place : Place
  start : Nat
  fired : List Nat
  deriving DecidableEq

inductive Panic
  /-- `ASSERT(t->wait_chan_entry != NULL)`. -/
  | no_wait_chan
  /-- `ASSERT(t->state == TCB_SLEEPING)`, and `this thread is not sleeping`. -/
  | not_sleeping
  /-- A tick and a thread wait for each other's locks. -/
  | deadlock
  deriving DecidableEq

/-- The threads, the waiting queues, the threads taken off by a `futex_wakeup`, the timers, the rest of the list that
a tick is going through, and what the last call of a thread returned. -/
structure State (T Q H : Type) where
  now : Nat
  thread : T → tcb Q
  waiting_queue : Q → List T
  hand : H → Option T
  timers : Timers T
  walk : Option (List T)
  frame : T → Option Frame
  returned : T → Option (Frame × Int)
  panic : Option Panic

def TIMESEPC2NS (ts : timespec) : Nat := add64 ts.ts_nsec (mul64 ts.ts_sec 1000000000)

/-- The timer that `thread_sched` sets up. -/
def sched_timer {T : Type} [DecidableEq T] (board : Board) (now : Nat) (s : Timers T) (t : T) (time_out : Nat) :
    Timers T :=
  let timer := { s.timer t with expires := 0, count := 1 }
  let s := { s with timer := update s.timer t timer }
  if int32 time_out ≠ 0 then s.set board now t time_out else s

inductive Event (T Q H : Type)
  | advance (d : Nat)
  /-- `futex_wait` on a word that has the expected value, up to the lock of `timer_head`. -/
  | futex_wait (t : T) (q : Q) (ts : Option timespec)
  /-- The timer is linked, and the thread switched out. -/
  | arm (t : T)
  /-- `futex_wakeup` takes the first thread of a queue. -/
  | pop (h : H) (q : Q)
  /-- It has the lock of this thread. -/
  | wakeup (h : H)
  /-- `thread_send_signal`. -/
  | kill (t : T)
  | run (t : T)
  /-- The rest of `thread_sched` and of `futex_wait`. -/
  | finish (t : T)
  /-- A tick gets the lock of `timer_head`. -/
  | tick
  /-- It comes to the next timer, or to the end of the list. -/
  | visit

namespace State

variable {T Q H : Type} [DecidableEq T] [DecidableEq Q] [DecidableEq H]

/-! ## Calls and ticks -/

/-- `futex_wait`, and `thread_sched` up to the lock.  Without a timeout `time_out` is what the last call left. -/
def futex_wait (s : State T Q H) (board : Board) (t : T) (q : Q) (ts : Option timespec) : State T Q H :=
  let time_out := (ts.map TIMESEPC2NS).getD (s.thread t).time_out
  let set_timer := int32 time_out
  let place := if set_timer ≠ 0 then Place.arming else .switched
  { s with
    thread := update s.thread t ⟨.TCB_SLEEPING, some q, time_out⟩
    waiting_queue := update s.waiting_queue q (s.waiting_queue q ++ [t])
    timers := sched_timer board s.now s.timers t time_out
    frame := update s.frame t (some ⟨ts, set_timer, place, s.now, []⟩) }

def setThread (s : State T Q H) (t : T) (new : tcb Q) : State T Q H :=
  { s with thread := update s.thread t new }

def setFrame (s : State T Q H) (t : T) (f : Option Frame) : State T Q H :=
  { s with frame := update s.frame t f }

def arm (s : State T Q H) (t : T) (f : Frame) : State T Q H :=
  { s with timers := s.timers.link t }.setFrame t (some { f with place := .switched })

def pop (s : State T Q H) (h : H) (q : Q) (t : T) (rest : List T) : State T Q H :=
  { s with
    waiting_queue := update s.waiting_queue q rest
    hand := update s.hand h (some t) }

/-- `t->wait_chan_entry = NULL` and `TCB_Q_changeState(t, TCB_RUNNABLE)`. -/
def makeRunnable (s : State T Q H) (t : T) : State T Q H :=
  s.setThread t { s.thread t with state := .TCB_RUNNABLE, wait_chan_entry := none }

/-- A panic stops the kernel where it is. -/
def after (s : State T Q H) : Except Panic (State T Q H) → State T Q H
  | .ok s' => s'
  | .error e => { s with panic := some e }

def wakeup (s : State T Q H) (h : H) (t : T) : Except Panic (State T Q H) :=
  if (s.thread t).state ≠ .TCB_SLEEPING then .error .not_sleeping
  else if (s.thread t).wait_chan_entry = none then .error .no_wait_chan
  else .ok { s.makeRunnable t with hand := update s.hand h none }

/-- `thread_wakeup`; `list_del_reinit` takes the thread off whatever list it is on. -/
def thread_wakeup (s : State T Q H) (t : T) : Except Panic (State T Q H) :=
  if (s.thread t).wait_chan_entry = none then .error .no_wait_chan
  else if (s.thread t).state ≠ .TCB_SLEEPING then .error .not_sleeping
  else .ok ({ s with waiting_queue := fun q => (s.waiting_queue q).filter (· ≠ t) }.makeRunnable t)

/-- The thread has its own lock, on its way into `thread_sched` or out of it. -/
def locked (s : State T Q H) (t : T) : Bool := (s.frame t).any (·.place ≠ .switched)

/-- `thread_wakeup_atomic`, in a tick: a thread that has its own lock wants the lock that the tick has. -/
def thread_wakeup_atomic (s : State T Q H) (t : T) : Except Panic (State T Q H) :=
  if s.locked t then .error .deadlock else s.thread_wakeup t

def kill (s : State T Q H) (t : T) : Except Panic (State T Q H) :=
  if (s.thread t).state = .TCB_SLEEPING then s.thread_wakeup t else .ok s

def run (s : State T Q H) (t : T) (f : Frame) : State T Q H :=
  (s.setThread t { s.thread t with state := .TCB_RUNNING }).setFrame t (some { f with place := .back })

/-- `futex_wait` returns what `thread_sched` tells by `expires`. -/
def finish (s : State T Q H) (t : T) (f : Frame) : State T Q H :=
  let timers := if f.set_timer ≠ 0 then delete_timer_atomic s.timers t else s.timers
  let time_out := if f.set_timer ≠ 0 then 0 else (s.thread t).time_out
  let ret : Int := if (s.timers.timer t).expires = 0 then -1 else 0
  { s with
    thread := update s.thread t { s.thread t with time_out := time_out }
    timers := timers
    frame := update s.frame t none
    returned := update s.returned t (some (f, if f.ts.isSome then ret else 0)) }

/-- A tick goes on from the timer of `t`. -/
def visit (s : State T Q H) (board : Board) (t : T) (rest : List T) : State T Q H :=
  if TIME_OUT board s.now (s.timers.timer t).expires_end then
    s.after ((s.thread_wakeup_atomic t).map fun s' =>
      { s' with
        timers := expire board s.now s.timers t
        frame := update s.frame t ((s.frame t).map fun f => { f with fired := s.now :: f.fired })
        walk := some rest })
  else { s with walk := some rest }

end State

section Runs

variable {T Q H : Type} [DecidableEq T] [DecidableEq Q] [DecidableEq H]

/-- One event, with the locks that it takes free. -/
inductive Step (board : Board) : State T Q H → Event T Q H → State T Q H → Prop
  | advance {s : State T Q H} (d : Nat) : Step board s (.advance d) { s with now := s.now + d }
  | futex_wait {s : State T Q H} {t : T} (q : Q) (ts : Option timespec) :
      (s.thread t).state = .TCB_RUNNING → s.frame t = none →
        Step board s (.futex_wait t q ts) (s.futex_wait board t q ts)
  | arm {s : State T Q H} {t : T} {f : Frame} : s.frame t = some f → f.place = .arming → s.walk = none →
      Step board s (.arm t) (s.arm t f)
  | pop {s : State T Q H} {h : H} {q : Q} {t : T} {rest : List T} : s.hand h = none →
      s.waiting_queue q = t :: rest → Step board s (.pop h q) (s.pop h q t rest)
  | wakeup {s : State T Q H} {h : H} {t : T} : s.hand h = some t → s.locked t = false →
      Step board s (.wakeup h) (s.after (s.wakeup h t))
  | kill {s : State T Q H} {t : T} : s.locked t = false → Step board s (.kill t) (s.after (s.kill t))
  | run {s : State T Q H} {t : T} {f : Frame} : s.frame t = some f → f.place = .switched →
      (s.thread t).state = .TCB_RUNNABLE → Step board s (.run t) (s.run t f)
  | finish {s : State T Q H} {t : T} {f : Frame} : s.frame t = some f → f.place = .back →
      (f.set_timer ≠ 0 → s.walk = none) → Step board s (.finish t) (s.finish t f)
  | tick {s : State T Q H} : s.walk = none → Step board s .tick { s with walk := some s.timers.entry }
  | visit {s : State T Q H} {t : T} {rest : List T} : s.walk = some (t :: rest) →
      Step board s .visit (s.visit board t rest)
  | visit_end {s : State T Q H} : s.walk = some [] → Step board s .visit { s with walk := none }

/-! ## The property -/

def ns (ts : timespec) : Nat := ts.ts_nsec + ts.ts_sec * 1000000000

/-- The function of the timer has run once at most, and not before the timeout has gone by. -/
def Frame.Timely (board : Board) (f : Frame) : Prop :=
  f.fired.length ≤ 1 ∧ ∀ x ∈ f.fired, ∃ ts, f.ts = some ts ∧ ns ts * FREQUENCY board < (x - f.start) * 1000000000

/-- **The law of timed waits.** -/
structure Law (board : Board) (s : State T Q H) : Prop where
  panic : s.panic = none
  /-- A thread that sleeps with a timeout has a timer. -/
  armed : ∀ t f ts, s.frame t = some f → f.ts = some ts → ns ts ≠ 0 → f.place = .switched →
    (s.thread t).state = .TCB_SLEEPING → t ∈ s.timers.entry
  timely : ∀ t f, s.frame t = some f → f.Timely board
  /-- Outside a wait there is no timer, and none in a wait without a timeout. -/
  unlinked : ∀ t, s.frame t = none → t ∉ s.timers.entry
  untimed : ∀ t f, s.frame t = some f → f.ts = none → t ∉ s.timers.entry
  /-- What a call returned tells whether its timer has woken the thread. -/
  returned : ∀ t f v, s.returned t = some (f, v) → f.Timely board ∧ v = if f.fired ≠ [] then -1 else 0

/-- The thread is on the waiting queue that it sleeps on. -/
def State.OnQueue (s : State T Q H) (t : T) : Prop := ∃ q, (s.thread t).wait_chan_entry = some q ∧ t ∈ s.waiting_queue q

/-- The condition on an event: a timeout is no multiple of `2^32` and does not wrap, and a timer that is due and a
signal find a sleeping thread on its queue. -/
def Ok (board : Board) (s : State T Q H) : Event T Q H → Prop
  | .futex_wait _ _ (some ts) => ns ts % 2 ^ 32 ≠ 0 ∧ ns ts + TIME2NS board s.now < 2 ^ 64
  | .visit => ∀ t rest, s.walk = some (t :: rest) → TIME_OUT board s.now (s.timers.timer t).expires_end → s.OnQueue t
  | .kill t => (s.thread t).state = .TCB_SLEEPING → s.OnQueue t
  | _ => True

/-- No thread is in a wait yet. -/
structure Initial (s : State T Q H) : Prop where
  thread : ∀ t, (s.thread t).state = .TCB_RUNNING ∧ (s.thread t).wait_chan_entry = none ∧ (s.thread t).time_out = 0
  waiting_queue : ∀ q, s.waiting_queue q = []
  hand : ∀ h, s.hand h = none
  entry : s.timers.entry = []
  walk : s.walk = none
  frame : ∀ t, s.frame t = none
  returned : ∀ t, s.returned t = none
  panic : s.panic = none

end Runs

/-! ## Sleepers and wakers -/

section View

variable {T Q H : Type} {s : State T Q H} {t : T} {q : Q} {h : H}

/-- The threads as sleepers, and the calls of `futex_wakeup` as wakers. -/
def State.view (s : State T Q H) : Waiting T Q H where
  asleep t := (s.thread t).state = .TCB_SLEEPING
  entry t := (s.thread t).wait_chan_entry
  queue := s.waiting_queue
  live _ := True
  hand := s.hand

variable [DecidableEq T]

theorem view_setThread {new : tcb Q} (hstate : new.state = .TCB_SLEEPING ↔ (s.thread t).state = .TCB_SLEEPING)
    (hentry : new.wait_chan_entry = (s.thread t).wait_chan_entry) : (s.setThread t new).view = s.view := by
  refine Waiting.ext (funext fun u => propext ?_) (funext fun u => ?_) rfl rfl rfl
  · rcases eq_or_ne u t with rfl | hne
    · simp only [State.view, State.setThread, update_self]
      exact hstate
    · simp only [State.view, State.setThread, update_of_ne hne]
  rcases eq_or_ne u t with rfl | hne
  · simp only [State.view, State.setThread, update_self]
    exact hentry
  · simp only [State.view, State.setThread, update_of_ne hne]

theorem view_makeRunnable (s : State T Q H) (t : T) : (s.makeRunnable t).view = { s.view with
    asleep := update s.view.asleep t False
    entry := update s.view.entry t none } := by
  refine Waiting.ext (funext fun u => ?_) (funext fun u => ?_) rfl rfl rfl
  · rcases eq_or_ne u t with rfl | hne
    · simp only [State.view, State.makeRunnable, State.setThread, update_self, reduceCtorEq]
    · simp only [State.view, State.makeRunnable, State.setThread, update_of_ne hne]
  · rcases eq_or_ne u t with rfl | hne
    · simp only [State.view, State.makeRunnable, State.setThread, update_self]
    · simp only [State.view, State.makeRunnable, State.setThread, update_of_ne hne]

variable [DecidableEq Q]

theorem view_futex_wait (s : State T Q H) (board : Board) (t : T) (q : Q) (ts : Option timespec) :
    (s.futex_wait board t q ts).view = s.view.sleep t q := by
  refine Waiting.ext (funext fun u => ?_) (funext fun u => ?_) rfl rfl rfl
  · rcases eq_or_ne u t with rfl | hne
    · simp only [State.view, State.futex_wait, Waiting.sleep, update_self]
    · simp only [State.view, State.futex_wait, Waiting.sleep, update_of_ne hne]
  · rcases eq_or_ne u t with rfl | hne
    · simp only [State.view, State.futex_wait, Waiting.sleep, update_self]
    · simp only [State.view, State.futex_wait, Waiting.sleep, update_of_ne hne]

end View

/-! ## Invariant -/

section Invariant

variable {T Q H : Type}

/-- The timer of a wait with a timeout: linked, or gone off. -/
inductive Timed (board : Board) (s : State T Q H) (t : T) (f : Frame) (ts : timespec) : Prop
  | pending : f.fired = [] → (s.timers.timer t).expires = ns ts → ns ts ≠ 0 →
      (s.timers.timer t).expires_end = ns ts + TIME2NS board f.start → (s.timers.timer t).count = 1 →
      (t ∈ s.timers.entry ↔ f.place ≠ .arming) → Timed board s t f ts
  | fired (x : Nat) : f.fired = [x] → (s.timers.timer t).expires = 0 → t ∉ s.timers.entry →
      ns ts * FREQUENCY board < (x - f.start) * 1000000000 → f.place ≠ .arming →
      (s.thread t).state ≠ .TCB_SLEEPING → Timed board s t f ts

/-- A thread in a wait. -/
structure Inside (board : Board) (s : State T Q H) (t : T) (f : Frame) : Prop where
  start : f.start ≤ s.now
  arming : f.place = .arming → (s.thread t).state = .TCB_SLEEPING
  back : f.place = .back → (s.thread t).state ≠ .TCB_SLEEPING
  untimed : f.ts = none → f.set_timer = 0 ∧ (s.thread t).time_out = 0 ∧ t ∉ s.timers.entry ∧ f.fired = [] ∧
    f.place ≠ .arming
  timed : ∀ ts, f.ts = some ts → f.set_timer ≠ 0 ∧ Timed board s t f ts

/-- A thread outside a wait. -/
structure Outside (s : State T Q H) (t : T) : Prop where
  awake : (s.thread t).state ≠ .TCB_SLEEPING
  unlinked : t ∉ s.timers.entry
  time_out : (s.thread t).time_out = 0

structure Inv (board : Board) (s : State T Q H) : Prop where
  panic : s.panic = none
  waiting : s.view.Consistent
  nodup : s.timers.entry.Nodup
  walk : ∀ ts, s.walk = some ts → ts.Nodup ∧ ∀ t ∈ ts, t ∈ s.timers.entry
  outside : ∀ t, s.frame t = none → Outside s t
  inside : ∀ t f, s.frame t = some f → Inside board s t f
  returned : ∀ t f v, s.returned t = some (f, v) → f.Timely board ∧ v = if f.fired ≠ [] then -1 else 0

/-- What an event leaves of a thread that it is not about. -/
structure Kept (s s' : State T Q H) (t : T) : Prop where
  thread : s'.thread t = s.thread t
  frame : s'.frame t = s.frame t
  timer : s'.timers.timer t = s.timers.timer t
  linked : t ∈ s'.timers.entry ↔ t ∈ s.timers.entry

variable {board : Board} {s s' : State T Q H} {t : T} {f : Frame}

theorem Outside.kept (h : Outside s t) (hkept : Kept s s' t) : Outside s' t := by
  refine ⟨?_, ?_, ?_⟩
  · rw [hkept.thread]
    exact h.awake
  · rw [hkept.linked]
    exact h.unlinked
  · rw [hkept.thread]
    exact h.time_out

/-- A wait goes on if the thread is woken, too. -/
theorem Inside.mono (h : Inside board s t f) (hnow : s.now ≤ s'.now)
    (htime_out : (s'.thread t).time_out = (s.thread t).time_out)
    (hsleep : (s'.thread t).state = .TCB_SLEEPING → (s.thread t).state = .TCB_SLEEPING)
    (harming : f.place = .arming → (s'.thread t).state = .TCB_SLEEPING)
    (htimer : s'.timers.timer t = s.timers.timer t) (hlinked : t ∈ s'.timers.entry ↔ t ∈ s.timers.entry) :
    Inside board s' t f := by
  refine ⟨h.start.trans hnow, harming, fun hback hs => h.back hback (hsleep hs), fun hnone => ?_, fun ts hts => ?_⟩
  · rw [htime_out, hlinked]
    exact h.untimed hnone
  obtain ⟨hset, htimed⟩ := h.timed ts hts
  refine ⟨hset, ?_⟩
  rcases htimed with ⟨hfired, hexpires, hpos, hend, hcount, hlink⟩ | ⟨x, hfired, hexpires, hlink, hover, hplace, hawake⟩
  · refine .pending hfired ?_ hpos ?_ ?_ (hlinked.trans hlink)
    · rw [htimer]
      exact hexpires
    · rw [htimer]
      exact hend
    · rw [htimer]
      exact hcount
  · refine .fired x hfired ?_ ?_ hover hplace fun hs => hawake (hsleep hs)
    · rw [htimer]
      exact hexpires
    · rw [hlinked]
      exact hlink

theorem Inside.kept (h : Inside board s t f) (hnow : s.now ≤ s'.now) (hkept : Kept s s' t) : Inside board s' t f := by
  refine h.mono hnow ?_ ?_ ?_ hkept.timer hkept.linked
  · rw [hkept.thread]
  · rw [hkept.thread]
    exact id
  · rw [hkept.thread]
    exact h.arming

theorem Inside.timely (h : Inside board s t f) : f.Timely board := by
  rcases hts : f.ts with _ | ts
  · obtain ⟨-, -, -, hfired, -⟩ := h.untimed hts
    rw [Frame.Timely, hfired]
    exact ⟨Nat.zero_le _, fun x hx => absurd hx List.not_mem_nil⟩
  obtain ⟨-, ⟨hfired, -⟩ | ⟨x, hfired, -, -, hover, -⟩⟩ := h.timed ts hts
  · rw [Frame.Timely, hfired]
    exact ⟨Nat.zero_le _, fun x hx => absurd hx List.not_mem_nil⟩
  rw [Frame.Timely, hfired]
  refine ⟨le_refl _, fun y hy => ⟨ts, hts, ?_⟩⟩
  rw [List.mem_singleton.mp hy]
  exact hover

theorem Inv.law (h : Inv board s) : Law board s := by
  refine ⟨h.panic, fun t f ts hf hts hpos hplace hsleep => ?_, fun t f hf => (h.inside t f hf).timely,
    fun t ht => (h.outside t ht).unlinked, fun t f hf hts => ((h.inside t f hf).untimed hts).2.2.1, h.returned⟩
  obtain ⟨-, ⟨-, -, -, -, -, hlink⟩ | ⟨x, -, -, -, -, -, hawake⟩⟩ := (h.inside t f hf).timed ts hts
  · refine hlink.mpr ?_
    rw [hplace]
    decide
  · exact absurd hsleep hawake

theorem Initial.inv (h : Initial s) (board : Board) : Inv board s := by
  have hqueue : ∀ q t, ¬t ∈ s.waiting_queue q := by
    intro q t ht
    rw [h.waiting_queue q] at ht
    cases ht
  have hhand : ∀ c t, ¬s.hand c = some t := by
    intro c t hc
    rw [h.hand c] at hc
    cases hc
  have hawake : ∀ t, (s.thread t).state ≠ .TCB_SLEEPING := by
    intro t hs
    rw [(h.thread t).1] at hs
    cases hs
  refine ⟨h.panic, ⟨fun q => ?_, fun q t ht => absurd ht (hqueue q t), fun t ht => absurd ht (hawake t),
    fun t _ => (h.thread t).2.1, fun c t hc => absurd hc (hhand c t), fun c _ t hc => absurd hc (hhand c t)⟩,
    ?_, fun ts hts => ?_, fun t _ => ⟨hawake t, ?_, (h.thread t).2.2⟩, fun t f hf => ?_, fun t f v hr => ?_⟩
  · show (s.waiting_queue q).Nodup
    rw [h.waiting_queue q]
    exact List.nodup_nil
  · rw [h.entry]
    exact List.nodup_nil
  · rw [h.walk] at hts
    cases hts
  · rw [h.entry]
    exact List.not_mem_nil
  · rw [h.frame t] at hf
    cases hf
  · rw [h.returned t] at hr
    cases hr

/-- An event that is about one thread. -/
theorem Inv.about (h : Inv board s) (t : T) (hkept : ∀ u, u ≠ t → Kept s s' u) (hnow : s.now ≤ s'.now)
    (hpanic : s'.panic = none) (hwaiting : s'.view.Consistent) (hnodup : s'.timers.entry.Nodup)
    (hwalk : ∀ ts, s'.walk = some ts → ts.Nodup ∧ ∀ t ∈ ts, t ∈ s'.timers.entry)
    (hout : s'.frame t = none → Outside s' t) (hin : ∀ f, s'.frame t = some f → Inside board s' t f)
    (hreturned : ∀ t f v, s'.returned t = some (f, v) → f.Timely board ∧ v = if f.fired ≠ [] then -1 else 0) :
    Inv board s' := by
  refine ⟨hpanic, hwaiting, hnodup, hwalk, fun u hu => ?_, fun u f hf => ?_, hreturned⟩
  · rcases eq_or_ne u t with rfl | hne
    · exact hout hu
    · have hu' := (hkept u hne).frame ▸ hu
      exact (h.outside u hu').kept (hkept u hne)
  rcases eq_or_ne u t with rfl | hne
  · exact hin f hf
  · have hf' := (hkept u hne).frame ▸ hf
    exact (h.inside u f hf').kept hnow (hkept u hne)

theorem Inv.idle (h : Inv board s) (hkept : ∀ u, Kept s s' u) (hnow : s.now ≤ s'.now) (hpanic : s'.panic = none)
    (hwaiting : s'.view.Consistent) (hnodup : s'.timers.entry.Nodup)
    (hwalk : ∀ ts, s'.walk = some ts → ts.Nodup ∧ ∀ t ∈ ts, t ∈ s'.timers.entry)
    (hreturned : s'.returned = s.returned) : Inv board s' := by
  refine ⟨hpanic, hwaiting, hnodup, hwalk, fun u hu => ?_, fun u f hf => ?_, ?_⟩
  · have hu' := (hkept u).frame ▸ hu
    exact (h.outside u hu').kept (hkept u)
  · have hf' := (hkept u).frame ▸ hf
    exact (h.inside u f hf').kept hnow (hkept u)
  · rw [hreturned]
    exact h.returned

end Invariant

/-! ## Events -/

section Events

variable {T Q H : Type} [DecidableEq T]

section SchedTimer

variable {board : Board} {now time_out : Nat} {s : Timers T} {t : T}

theorem sched_timer_entry : (sched_timer board now s t time_out).entry = s.entry := by
  rw [sched_timer]
  split
  · rfl
  · rfl

theorem sched_timer_other {u : T} (hne : u ≠ t) : (sched_timer board now s t time_out).timer u = s.timer u := by
  rw [sched_timer]
  split
  · exact (update_of_ne hne _ _).trans (update_of_ne hne _ _)
  · exact update_of_ne hne _ _

theorem sched_timer_own (hset : int32 time_out ≠ 0) : (sched_timer board now s t time_out).timer t =
    { s.timer t with expires := time_out, expires_end := add64 time_out (TIME2NS board now), count := 1 } := by
  rw [sched_timer, if_pos hset]
  refine (update_self _ _ _).trans ?_
  dsimp only
  rw [update_self]

end SchedTimer

theorem int32_eq_zero (n : Nat) : int32 n = 0 ↔ n % 2 ^ 32 = 0 := by
  simp only [int32, Int.bmod]
  omega

theorem TIMESEPC2NS_of_lt {ts : timespec} (h : ns ts < 2 ^ 64) : TIMESEPC2NS ts = ns ts := by
  rw [TIMESEPC2NS, mul64, add64, Nat.add_mod_mod]
  exact Nat.mod_eq_of_lt h

variable [DecidableEq Q] {board : Board} {s : State T Q H} {t : T} {f : Frame} {q : Q}

theorem futex_wait_timers (ts : Option timespec) : (s.futex_wait board t q ts).timers =
    sched_timer board s.now s.timers t ((ts.map TIMESEPC2NS).getD (s.thread t).time_out) := by
  rw [State.futex_wait]

theorem futex_wait_thread (ts : Option timespec) : (s.futex_wait board t q ts).thread = update s.thread t
    ⟨.TCB_SLEEPING, some q, (ts.map TIMESEPC2NS).getD (s.thread t).time_out⟩ := by
  rw [State.futex_wait]

theorem futex_wait_frame (ts : Option timespec) : (s.futex_wait board t q ts).frame t =
    some ⟨ts, int32 ((ts.map TIMESEPC2NS).getD (s.thread t).time_out : Nat),
      if int32 ((ts.map TIMESEPC2NS).getD (s.thread t).time_out : Nat) ≠ 0 then .arming else .switched, s.now, []⟩ := by
  rw [State.futex_wait]
  exact update_self _ _ _

theorem futex_wait_entry (ts : Option timespec) : (s.futex_wait board t q ts).timers.entry = s.timers.entry := by
  rw [futex_wait_timers, sched_timer_entry]

theorem futex_wait_frame_other (ts : Option timespec) {u : T} (hne : u ≠ t) :
    (s.futex_wait board t q ts).frame u = s.frame u := update_of_ne hne _ _

theorem futex_wait_kept (ts : Option timespec) {u : T} (hne : u ≠ t) : Kept s (s.futex_wait board t q ts) u := by
  refine ⟨?_, futex_wait_frame_other ts hne, ?_, ?_⟩
  · rw [futex_wait_thread, update_of_ne hne]
  · rw [futex_wait_timers, sched_timer_other hne]
  · rw [futex_wait_entry]

/-- A thread in a wait that has just begun. -/
theorem Outside.futex_wait (h : Outside s t) {ts : Option timespec}
    (hok : ∀ ts', ts = some ts' → ns ts' % 2 ^ 32 ≠ 0 ∧ ns ts' + TIME2NS board s.now < 2 ^ 64)
    (hf : (s.futex_wait board t q ts).frame t = some f) : Inside board (s.futex_wait board t q ts) t f := by
  have hunlinked : t ∉ (s.futex_wait board t q ts).timers.entry := by
    rw [futex_wait_entry]
    exact h.unlinked
  have hthread : (s.futex_wait board t q ts).thread t =
      ⟨.TCB_SLEEPING, some q, (ts.map TIMESEPC2NS).getD (s.thread t).time_out⟩ := by
    rw [futex_wait_thread, update_self]
  rcases ts with _ | ts
  · have hzero : int32 ((0 : Nat) : Int) = 0 := (int32_eq_zero 0).mpr rfl
    have hframe : (s.futex_wait board t q none).frame t = some ⟨none, 0, .switched, s.now, []⟩ := by
      rw [futex_wait_frame, Option.map_none, Option.getD_none, h.time_out, hzero, if_neg (fun hne => hne rfl)]
    rw [hframe] at hf
    cases hf
    refine ⟨le_refl _, fun hplace => (by cases hplace), fun hplace => (by cases hplace), fun _ => ?_,
      fun ts hts => (by cases hts)⟩
    refine ⟨rfl, ?_, hunlinked, rfl, fun hplace => (by cases hplace)⟩
    rw [hthread]
    exact h.time_out
  · obtain ⟨hlow, hfit⟩ := hok ts rfl
    have hns : TIMESEPC2NS ts = ns ts := TIMESEPC2NS_of_lt (by omega)
    have hset : int32 (ns ts : Int) ≠ 0 := fun hzero => hlow ((int32_eq_zero _).mp hzero)
    have hframe : (s.futex_wait board t q (some ts)).frame t =
        some ⟨some ts, int32 (ns ts : Int), .arming, s.now, []⟩ := by
      rw [futex_wait_frame, Option.map_some, Option.getD_some, hns, if_pos hset]
    have htimer : (s.futex_wait board t q (some ts)).timers.timer t = { s.timers.timer t with
        expires := ns ts, expires_end := ns ts + TIME2NS board s.now, count := 1 } := by
      rw [futex_wait_timers, Option.map_some, Option.getD_some, hns, sched_timer_own hset, add64, Nat.mod_eq_of_lt hfit]
    rw [hframe] at hf
    cases hf
    refine ⟨le_refl _, fun _ => ?_, fun hplace => (by cases hplace), fun hts => (by cases hts), fun ts' hts => ?_⟩
    · rw [hthread]
    cases hts
    dsimp only
    refine ⟨hset, .pending rfl ?_ ?_ ?_ ?_ (iff_of_false hunlinked fun hne => hne rfl)⟩
    · rw [htimer]
    · intro hzero
      have hmod : ns ts % 2 ^ 32 = 0 := by rw [hzero, Nat.zero_mod]
      exact hlow hmod
    · rw [htimer]
    · rw [htimer]

theorem Inv.futex_wait (h : Inv board s) (hrun : (s.thread t).state = .TCB_RUNNING) (hframe : s.frame t = none)
    {ts : Option timespec} (hok : ∀ ts', ts = some ts' → ns ts' % 2 ^ 32 ≠ 0 ∧ ns ts' + TIME2NS board s.now < 2 ^ 64) :
    Inv board (s.futex_wait board t q ts) := by
  have hentry := @futex_wait_entry T Q H _ _ board s t q ts
  refine h.about t (fun u hne => futex_wait_kept ts hne) (le_refl _) h.panic ?_ ?_ ?_ (fun hnone => ?_)
    (fun f hf => (h.outside t hframe).futex_wait hok hf) h.returned
  · rw [view_futex_wait]
    refine h.waiting.sleep ?_ trivial
    show ¬(s.thread t).state = .TCB_SLEEPING
    rw [hrun]
    decide
  · rw [hentry]
    exact h.nodup
  · rw [hentry]
    exact h.walk
  · have hsome : (s.futex_wait board t q ts).frame t ≠ none := by
      dsimp only [State.futex_wait]
      rw [update_self]
      exact Option.some_ne_none _
    exact absurd hnone hsome

omit [DecidableEq Q] in
theorem Inv.arm (h : Inv board s) (hf : s.frame t = some f) (hplace : f.place = .arming) (hwalk : s.walk = none) :
    Inv board (s.arm t f) := by
  have hin := h.inside t f hf
  refine h.about t (fun u hne => ⟨rfl, update_of_ne hne _ _, rfl, mem_link_other hne⟩) (le_refl _) h.panic
    h.waiting (link_nodup h.nodup) (fun ts hts => ?_) (fun hnone => ?_) (fun g hg => ?_) h.returned
  · have hnone : s.walk = some ts := hts
    rw [hwalk] at hnone
    cases hnone
  · have hsome : (s.arm t f).frame t = some { f with place := .switched } := update_self _ _ _
    rw [hsome] at hnone
    cases hnone
  · have hsome : (s.arm t f).frame t = some { f with place := .switched } := update_self _ _ _
    rw [hsome] at hg
    cases hg
    refine ⟨hin.start, fun hno => (by cases hno), fun hno => (by cases hno), fun hts => ?_, fun ts hts => ?_⟩
    · exact absurd hplace (hin.untimed hts).2.2.2.2
    · obtain ⟨hset, ⟨hfired, hexpires, hpos, hend, hcount, -⟩ | ⟨x, -, -, -, -, hno, -⟩⟩ := hin.timed ts hts
      · exact ⟨hset, .pending hfired hexpires hpos hend hcount (iff_of_true mem_link fun hno => (by cases hno))⟩
      · exact absurd hplace hno

/-! ### Wake-ups -/

omit [DecidableEq T] [DecidableEq Q] in
theorem place_of_not_locked (hlock : s.locked t = false) (hf : s.frame t = some f) : f.place = .switched := by
  rw [State.locked, hf, Option.any_some, decide_eq_false_iff_not, not_not] at hlock
  exact hlock

/-- What a wake-up leaves of the threads. -/
structure Woken (s s' : State T Q H) (t : T) : Prop where
  others : ∀ u, u ≠ t → s'.thread u = s.thread u
  state : (s'.thread t).state = .TCB_RUNNABLE
  time_out : (s'.thread t).time_out = (s.thread t).time_out
  now : s'.now = s.now
  timers : s'.timers = s.timers
  walk : s'.walk = s.walk
  frame : s'.frame = s.frame
  returned : s'.returned = s.returned
  panic : s'.panic = s.panic

omit [DecidableEq T] [DecidableEq Q] in
theorem Woken.inside {s' : State T Q H} (h : Woken s s' t) (hin : Inside board s t f) (hplace : f.place = .switched) :
    Inside board s' t f := by
  refine hin.mono h.now.ge h.time_out (fun hs => ?_) (fun harming => ?_) ?_ ?_
  · rw [h.state] at hs
    cases hs
  · rw [hplace] at harming
    cases harming
  · rw [h.timers]
  · rw [h.timers]

omit [DecidableEq T] [DecidableEq Q] in
theorem Inv.woken {s' : State T Q H} (h : Inv board s) (hw : Woken s s' t) (hsleep : (s.thread t).state = .TCB_SLEEPING)
    (hlock : s.locked t = false) (hwaiting : s'.view.Consistent) : Inv board s' := by
  refine h.about t (fun u hne => ⟨hw.others u hne, by rw [hw.frame], by rw [hw.timers], by rw [hw.timers]⟩) hw.now.ge
    (hw.panic.trans h.panic) hwaiting ?_ ?_ (fun hnone => ?_) (fun f hf => ?_) ?_
  · rw [hw.timers]
    exact h.nodup
  · rw [hw.timers, hw.walk]
    exact h.walk
  · rw [hw.frame] at hnone
    exact absurd hsleep (h.outside t hnone).awake
  · rw [hw.frame] at hf
    exact hw.inside (h.inside t f hf) (place_of_not_locked hlock hf)
  · rw [hw.returned]
    exact h.returned

omit [DecidableEq Q] in
theorem makeRunnable_woken (s : State T Q H) (t : T) : Woken s (s.makeRunnable t) t := by
  have hthread : (s.makeRunnable t).thread t = { s.thread t with state := .TCB_RUNNABLE, wait_chan_entry := none } :=
    update_self _ _ _
  refine ⟨fun u hne => update_of_ne hne _ _, ?_, ?_, rfl, rfl, rfl, rfl, rfl, rfl⟩
  · rw [hthread]
  · rw [hthread]

omit [DecidableEq Q] in
theorem Inv.thread_wakeup (h : Inv board s) (hq : s.OnQueue t) : ∃ s', s.thread_wakeup t = .ok s' ∧ Woken s s' t ∧
    (s.thread t).state = .TCB_SLEEPING ∧ s'.view.Consistent := by
  obtain ⟨q, hentry, hmem⟩ := hq
  have hsleep : (s.thread t).state = .TCB_SLEEPING := (h.waiting.linked q t hmem).1
  refine ⟨State.makeRunnable { s with waiting_queue := fun q => (s.waiting_queue q).filter (· ≠ t) } t, ?_, ?_, hsleep,
    ?_⟩
  · rw [State.thread_wakeup, if_neg (by rw [hentry]; exact Option.some_ne_none q), if_neg fun hne => hne hsleep]
  · have hw := makeRunnable_woken { s with waiting_queue := fun q => (s.waiting_queue q).filter (· ≠ t) } t
    exact ⟨hw.others, hw.state, hw.time_out, hw.now, hw.timers, hw.walk, hw.frame, hw.returned, hw.panic⟩
  · rw [view_makeRunnable]
    exact (h.waiting.unlink_iff hsleep).mpr ⟨q, hmem⟩

omit [DecidableEq Q] in
theorem Inv.kill (h : Inv board s) (hlock : s.locked t = false)
    (hok : (s.thread t).state = .TCB_SLEEPING → s.OnQueue t) : Inv board (s.after (s.kill t)) := by
  rw [State.kill]
  split
  · next hsleep =>
    obtain ⟨s', hs', hw, -, hwaiting⟩ := h.thread_wakeup (hok hsleep)
    rw [hs']
    exact h.woken hw hsleep hlock hwaiting
  · exact h

/-! ### The end of a wait -/

omit [DecidableEq Q] in
theorem Inv.run (h : Inv board s) (hf : s.frame t = some f) (hplace : f.place = .switched)
    (hstate : (s.thread t).state = .TCB_RUNNABLE) : Inv board (s.run t f) := by
  have hin := h.inside t f hf
  have hthread : (s.run t f).thread t = { s.thread t with state := .TCB_RUNNING } := update_self _ _ _
  have hframe : (s.run t f).frame t = some { f with place := .back } := update_self _ _ _
  refine h.about t (fun u hne => ⟨update_of_ne hne _ _, update_of_ne hne _ _, rfl, Iff.rfl⟩)
    (le_refl _) h.panic ?_ h.nodup h.walk (fun hnone => ?_) (fun g hg => ?_) h.returned
  · have hview : (s.run t f).view = s.view := by
      refine view_setThread (iff_of_false ?_ ?_) rfl
      · exact fun hs => (by cases hs)
      · rw [hstate]
        exact fun hs => (by cases hs)
    rw [hview]
    exact h.waiting
  · rw [hframe] at hnone
    cases hnone
  · rw [hframe] at hg
    cases hg
    have hawake : ((s.run t f).thread t).state ≠ .TCB_SLEEPING := by
      rw [hthread]
      exact fun hs => (by cases hs)
    refine ⟨hin.start, fun hno => (by cases hno), fun _ => hawake, fun hts => ?_, fun ts hts => ?_⟩
    · obtain ⟨hset, htime_out, hunlinked, hfired, -⟩ := hin.untimed hts
      refine ⟨hset, ?_, hunlinked, hfired, fun hno => (by cases hno)⟩
      rw [hthread]
      exact htime_out
    obtain ⟨hset, ⟨hfired, hexpires, hpos, hend, hcount, hlink⟩ | ⟨x, hfired, hexpires, hlink, hover, hno, -⟩⟩ :=
      hin.timed ts hts
    · refine ⟨hset, .pending hfired hexpires hpos hend hcount (iff_of_true ?_ fun hno => (by cases hno))⟩
      refine hlink.mpr ?_
      rw [hplace]
      exact fun hno => (by cases hno)
    · exact ⟨hset, .fired x hfired hexpires hlink hover (fun hno => (by cases hno)) hawake⟩

omit [DecidableEq Q] in
theorem Inv.finish (h : Inv board s) (hf : s.frame t = some f) (hplace : f.place = .back)
    (hwalk : f.set_timer ≠ 0 → s.walk = none) : Inv board (s.finish t f) := by
  have hin := h.inside t f hf
  have hframe : (s.finish t f).frame t = none := update_self _ _ _
  have hthread : (s.finish t f).thread t =
      { s.thread t with time_out := if f.set_timer ≠ 0 then 0 else (s.thread t).time_out } := update_self _ _ _
  have htimers : (s.finish t f).timers = if f.set_timer ≠ 0 then delete_timer_atomic s.timers t else s.timers := rfl
  have hout : Outside (s.finish t f) t := by
    rcases hts : f.ts with _ | ts
    · obtain ⟨hset, htime_out, hunlinked, -⟩ := hin.untimed hts
      rw [hset, if_neg fun hne => hne rfl] at hthread htimers
      refine ⟨?_, ?_, ?_⟩
      · rw [hthread]
        exact hin.back hplace
      · rw [htimers]
        exact hunlinked
      · rw [hthread]
        exact htime_out
    · obtain ⟨hset, -⟩ := hin.timed ts hts
      rw [if_pos hset] at hthread htimers
      refine ⟨?_, ?_, ?_⟩
      · rw [hthread]
        exact hin.back hplace
      · rw [htimers]
        exact h.nodup.not_mem_erase
      · rw [hthread]
  refine h.about t (fun u hne => ⟨update_of_ne hne _ _, update_of_ne hne _ _, ?_, ?_⟩) (le_refl _)
    h.panic ?_ ?_ (fun ts hts => ?_) (fun _ => hout) (fun g hg => ?_) (fun u g v hr => ?_)
  · rw [htimers]
    split
    · rfl
    · rfl
  · rw [htimers]
    split
    · exact List.mem_erase_of_ne hne
    · exact Iff.rfl
  · have hview : (s.finish t f).view = (s.setThread t
        { s.thread t with time_out := if f.set_timer ≠ 0 then 0 else (s.thread t).time_out }).view := rfl
    rw [hview.trans (view_setThread Iff.rfl rfl)]
    exact h.waiting
  · rw [htimers]
    split
    · exact h.nodup.erase t
    · exact h.nodup
  · have hts : s.walk = some ts := hts
    have hset : f.set_timer = 0 := by
      by_contra hne
      rw [hwalk hne] at hts
      cases hts
    rw [htimers, if_neg fun hne => hne hset]
    exact h.walk ts hts
  · rw [hframe] at hg
    cases hg
  · rcases eq_or_ne u t with rfl | hne
    · have hret : (s.finish u f).returned u = some (f, if f.ts.isSome then
          (if (s.timers.timer u).expires = 0 then -1 else 0) else 0) := update_self _ _ _
      rw [hret] at hr
      cases hr
      refine ⟨hin.timely, ?_⟩
      have hnil : ¬([] : List Nat) ≠ [] := fun hne => hne rfl
      rcases hts : f.ts with _ | ts
      · obtain ⟨-, -, -, hfired, -⟩ := hin.untimed hts
        rw [hfired, Option.isSome_none, if_neg Bool.false_ne_true, if_neg hnil]
      · obtain ⟨-, ⟨hfired, hexpires, hpos, -⟩ | ⟨x, hfired, hexpires, -⟩⟩ := hin.timed ts hts
        · rw [hfired, hexpires, Option.isSome_some, if_pos rfl, if_neg hpos, if_neg hnil]
        · rw [hfired, hexpires, Option.isSome_some, if_pos rfl, if_pos rfl, if_pos (List.cons_ne_nil x [])]
    · have hkept : (s.finish t f).returned u = s.returned u := update_of_ne hne _ _
      rw [hkept] at hr
      exact h.returned u g v hr

/-! ### Ticks -/

omit [DecidableEq Q] in
/-- A tick that finds a timer due wakes its thread, and unlinks it. -/
theorem Inv.due {rest : List T} (h : Inv board s) (hwalk : s.walk = some (t :: rest))
    (hout : TIME_OUT board s.now (s.timers.timer t).expires_end) (hq : s.OnQueue t) :
    Inv board (s.visit board t rest) := by
  obtain ⟨hnodup, hlinked⟩ := h.walk _ hwalk
  have hmem := hlinked t List.mem_cons_self
  obtain ⟨s', hs', hw, hsleep, hwaiting⟩ := h.thread_wakeup hq
  rcases hf : s.frame t with _ | f
  · exact absurd hmem (h.outside t hf).unlinked
  have hin := h.inside t f hf
  rcases hts : f.ts with _ | ts
  · exact absurd hmem (hin.untimed hts).2.2.1
  obtain ⟨hset, ⟨hfired, -, -, hend, hcount, hlink⟩ | ⟨x, -, -, hno, -⟩⟩ := hin.timed ts hts
  · have hplace : f.place = .switched := by
      rcases hp : f.place with _ | _ | _
      · exact absurd hp (hlink.mp hmem)
      · rfl
      · exact absurd hsleep (hin.back hp)
    have hlock : s.locked t = false := by
      rw [State.locked, hf, Option.any_some, hplace]
      rfl
    have hvisit : s.visit board t rest =
        { s' with
          timers := expire board s.now s.timers t
          frame := update s.frame t (some { f with fired := [s.now] })
          walk := some rest } := by
      rw [State.visit, if_pos hout, State.thread_wakeup_atomic, hlock, if_neg Bool.false_ne_true, hs', hf,
        Option.map_some, hfired]
      rfl
    have hown : (expire board s.now s.timers t).timer t = { s.timers.timer t with expires_end := 0, expires := 0 } := by
      rw [(expire_own h.nodup hmem).1, expired, if_neg (by rw [hcount]; decide)]
    have hgone : t ∉ (expire board s.now s.timers t).entry := by
      rw [(expire_own h.nodup hmem).2, hcount]
      decide
    rw [hvisit]
    refine h.about t (fun u hne => ?_) ?_ ?_ hwaiting (expire_nodup h.nodup) (fun us hus => ?_) (fun hnone => ?_)
      (fun g hg => ?_) ?_
    · exact ⟨hw.others u hne, update_of_ne hne _ _, (expire_other hne).1, (expire_other hne).2⟩
    · exact hw.now.ge
    · exact hw.panic.trans h.panic
    · cases hus
      obtain ⟨hnot, hrest⟩ := List.nodup_cons.mp hnodup
      refine ⟨hrest, fun u hu => ?_⟩
      have hne : u ≠ t := by
        rintro rfl
        exact hnot hu
      exact (expire_other hne).2.mpr (hlinked u (List.mem_cons_of_mem t hu))
    · dsimp only at hnone
      rw [update_self] at hnone
      cases hnone
    · dsimp only at hg
      rw [update_self] at hg
      cases hg
      have hawake : (s'.thread t).state ≠ .TCB_SLEEPING := by
        rw [hw.state]
        exact fun hs => (by cases hs)
      rw [hend] at hout
      refine ⟨?_, fun hno => ?_, fun _ => hawake, fun hno => ?_, fun ts' hts' => ?_⟩
      · exact hin.start.trans hw.now.ge
      · have hno : f.place = .arming := hno
        rw [hplace] at hno
        cases hno
      · have hno : f.ts = none := hno
        rw [hts] at hno
        cases hno
      · have hts' : f.ts = some ts' := hts'
        rw [hts] at hts'
        cases hts'
        refine ⟨hset, .fired s.now rfl ?_ hgone (time_out_elapsed hin.start hout) ?_ hawake⟩
        · dsimp only
          rw [hown]
        · show f.place ≠ .arming
          rw [hplace]
          exact fun hno => (by cases hno)
    · show ∀ t f v, s'.returned t = some (f, v) → _
      rw [hw.returned]
      exact h.returned
  · exact absurd hmem hno

omit [DecidableEq Q] in
theorem Inv.visit {rest : List T} (h : Inv board s) (hwalk : s.walk = some (t :: rest))
    (hok : TIME_OUT board s.now (s.timers.timer t).expires_end → s.OnQueue t) : Inv board (s.visit board t rest) := by
  by_cases hout : TIME_OUT board s.now (s.timers.timer t).expires_end
  · exact h.due hwalk hout (hok hout)
  rw [State.visit, if_neg hout]
  obtain ⟨hnodup, hlinked⟩ := h.walk _ hwalk
  refine h.idle (fun u => ⟨rfl, rfl, rfl, Iff.rfl⟩) (le_refl _) h.panic h.waiting h.nodup (fun us hus => ?_) rfl
  cases hus
  exact ⟨(List.nodup_cons.mp hnodup).2, fun u hu => hlinked u (List.mem_cons_of_mem t hu)⟩

/-! ### Any event -/

variable [DecidableEq H] {h₀ : H}

omit [DecidableEq Q] in
theorem Inv.wakeup (h : Inv board s) (hhand : s.hand h₀ = some t) (hlock : s.locked t = false) :
    Inv board (s.after (s.wakeup h₀ t)) := by
  obtain ⟨hsleep, hentry, -⟩ := h.waiting.held h₀ t hhand
  have hsleep : (s.thread t).state = .TCB_SLEEPING := hsleep
  have hentry : (s.thread t).wait_chan_entry ≠ none := hentry
  rw [State.wakeup, if_neg fun hne => hne hsleep, if_neg hentry]
  have hw := makeRunnable_woken s t
  refine h.woken ⟨hw.others, hw.state, hw.time_out, hw.now, hw.timers, hw.walk, hw.frame, hw.returned, hw.panic⟩ hsleep
    hlock ?_
  have hview : (s.after (.ok { s.makeRunnable t with hand := update s.hand h₀ none })).view =
      { (s.makeRunnable t).view with hand := update s.view.hand h₀ none } := rfl
  rw [hview, view_makeRunnable]
  exact h.waiting.release hhand

/-- **One event** under its condition keeps the invariant. -/
theorem Inv.step {s' : State T Q H} {e : Event T Q H} (h : Inv board s) (hok : Ok board s e)
    (hstep : Step board s e s') : Inv board s' := by
  cases hstep with
  | advance d =>
    exact h.idle (fun u => ⟨rfl, rfl, rfl, Iff.rfl⟩) (Nat.le_add_right _ _) h.panic h.waiting h.nodup h.walk rfl
  | futex_wait q ts hrun hframe =>
    refine h.futex_wait hrun hframe fun ts' hts => ?_
    subst hts
    exact hok
  | arm hf hplace hwalk => exact h.arm hf hplace hwalk
  | pop hhand hq =>
    refine h.idle (fun u => ⟨rfl, rfl, rfl, Iff.rfl⟩) (le_refl _) h.panic ?_ h.nodup h.walk rfl
    exact h.waiting.take hhand hq
  | wakeup hhand hlock => exact h.wakeup hhand hlock
  | kill hlock => exact h.kill hlock hok
  | run hf hplace hstate => exact h.run hf hplace hstate
  | finish hf hplace hwalk => exact h.finish hf hplace hwalk
  | tick hwalk =>
    refine h.idle (fun u => ⟨rfl, rfl, rfl, Iff.rfl⟩) (le_refl _) h.panic h.waiting h.nodup (fun ts hts => ?_) rfl
    cases hts
    exact ⟨h.nodup, fun t ht => ht⟩
  | visit hwalk => exact h.visit hwalk (hok _ _ hwalk)
  | visit_end hwalk =>
    exact h.idle (fun u => ⟨rfl, rfl, rfl, Iff.rfl⟩) (le_refl _) h.panic h.waiting h.nodup (fun ts hts => by cases hts) rfl

end Events

/-! ## Runs -/

/-- **Timed waits.** In every run whose events meet the condition the law holds in every state. -/
theorem timed_waits_lawful {T Q H : Type} [DecidableEq T] [DecidableEq Q] [DecidableEq H] (board : Board)
    {s₀ s : State T Q H} {es : List (Event T Q H)} (h₀ : Initial s₀)
    (hrun : Run (Guarded (Step board) (Ok board)) s₀ es s) : Law board s := by
  refine (hrun.invariant (fun s e s' h hs => ?_) (h₀.inv board)).law
  exact h.step hs.1 hs.2

/-- One thread, one queue, one hart. -/
def alone : State Unit Unit Unit where
  now := 0
  thread := fun _ => ⟨.TCB_RUNNING, none, 0⟩
  waiting_queue := fun _ => []
  hand := fun _ => none
  timers := ⟨[], fun _ => ⟨0, 0, 0, 0⟩⟩
  walk := none
  frame := fun _ => none
  returned := fun _ => none
  panic := none

theorem alone_initial : Initial alone :=
  ⟨fun _ => ⟨rfl, rfl, rfl⟩, fun _ => rfl, fun _ => rfl, rfl, rfl, fun _ => rfl, fun _ => rfl, rfl⟩

/-- The frame of a wait for a second, up to the tick that ends it. -/
def second (place : Place) (fired : List Nat) : Frame := ⟨some ⟨1, 0⟩, 1000000000, place, 0, fired⟩

/-- What a wait for a second leaves behind, a little late. -/
theorem timed_waits_lawful_second : ∃ s : State Unit Unit Unit, Run (Guarded (Step .qemu) (Ok .qemu)) alone
      [.futex_wait () () (some ⟨1, 0⟩), .arm (), .advance 13000000, .tick, .visit, .visit, .run (), .finish ()] s ∧
    Law .qemu s ∧ s.returned () = some (second .back [13000000], -1) := by
  let s₁ := alone.futex_wait .qemu () () (some ⟨1, 0⟩)
  let s₂ := s₁.arm () (second .arming [])
  let s₃ := { s₂ with now := s₂.now + 13000000 }
  let s₄ := { s₃ with walk := some s₃.timers.entry }
  let s₅ := s₄.visit .qemu () []
  let s₆ := { s₅ with walk := none }
  let s₇ := s₆.run () (second .switched [13000000])
  have hqueue : s₄.OnQueue () := ⟨(), by decide +kernel, by decide +kernel⟩
  have hwalk : s₄.walk = some [()] := by decide +kernel
  have hok : Ok .qemu s₄ .visit := fun _ _ _ _ => hqueue
  have hrun : Run (Guarded (Step .qemu) (Ok .qemu)) alone
      [.futex_wait () () (some ⟨1, 0⟩), .arm (), .advance 13000000, .tick, .visit, .visit, .run (), .finish ()]
      (s₇.finish () (second .back [13000000])) := by
    refine .cons ⟨⟨by decide, by decide⟩, .futex_wait () _ rfl rfl⟩ ?_
    refine .cons ⟨trivial, .arm (s := s₁) (f := second .arming []) (by decide +kernel) rfl rfl⟩ ?_
    refine .cons ⟨trivial, .advance (s := s₂) 13000000⟩ (.cons ⟨trivial, .tick (s := s₃) rfl⟩ ?_)
    refine .cons ⟨hok, .visit (s := s₄) hwalk⟩ ?_
    refine .cons ⟨fun _ _ hno => ?_, .visit_end (s := s₅) (by decide +kernel)⟩ ?_
    · have hend : s₅.walk = some [] := by decide +kernel
      rw [hend] at hno
      cases hno
    refine .cons ⟨trivial, .run (s := s₆) (f := second .switched [13000000]) (by decide +kernel) rfl (by decide +kernel)⟩ ?_
    refine .cons ⟨trivial, .finish (s := s₇) (f := second .back [13000000]) (by decide +kernel) rfl fun _ => rfl⟩ ?_
    exact .nil _
  exact ⟨_, hrun, timed_waits_lawful .qemu alone_initial hrun, by decide +kernel⟩

/-- A timeout of `2^32` nanoseconds has no timer. -/
theorem sleeps_without_timer : ¬∀ (board : Board) (s₀ s : State Unit Unit Unit) (es : List (Event Unit Unit Unit)),
    Initial s₀ → Run (Step board) s₀ es s → Law board s := by
  intro hclaim
  let ts : timespec := ⟨4, 294967296⟩
  have hrun : Run (Step .qemu) alone [.futex_wait () () (some ts)] (alone.futex_wait .qemu () () (some ts)) :=
    .cons (.futex_wait () (some ts) rfl rfl) (.nil _)
  have hlaw := hclaim .qemu alone _ _ alone_initial hrun
  have hframe : (alone.futex_wait .qemu () () (some ts)).frame () = some ⟨some ts, 0, .switched, 0, []⟩ := by
    decide +kernel
  have hmem := hlaw.armed () _ ts hframe rfl (by decide) rfl (by decide +kernel)
  exact absurd hmem (by decide +kernel)

end LostWakeup.Atomic.TimedWait
