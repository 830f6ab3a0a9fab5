/-
# LostWakeup.Atomic.Semaphore — `src/atomic/semaphore.c` and `src/atomic/cond.c`: counting semaphores.

A signal or a timer wakes a sleeping thread without `sem_lock`, so the critical sections under that lock are cut where a
wake-up makes a difference: the push of `cond_wait`, which does not take the lock of the queue, and the two ends of the
`Queue_provide_atomic` of `cond_signal`.  A thread whose `killed` flag is set when `cond_wait` gets the processor back
leaves the kernel by `do_exit(-1)`.

That exit is where the token law breaks: the decrement of `value`, and the wake-up the thread may have been given, are
never returned.  `token_conservation` proves the law for the other runs, and `token_lost` shows the loss.
-/
import Mathlib.Data.List.Nodup
import Mathlib.Data.Fintype.Basic
import LostWakeup.Library.Run
import LostWakeup.Library.CInt
import LostWakeup.Library.Count

namespace LostWakeup.Atomic

open Library
open Function (update update_of_ne update_self)

/-! ## The semaphore and its threads -/

/-- Where a thread is with respect to the semaphore. -/
inductive Place
  /-- Outside `sema_wait`. -/
  | user
  /-- In `cond_wait`, `TCB_SLEEPING`, and not yet or no longer on the waiting queue. -/
  | unqueued
  /-- In `cond_wait`, `TCB_SLEEPING` and on the waiting queue. -/
  | sleeping
  /-- In `cond_wait`, `TCB_RUNNABLE` again, before the test of `t->killed`. -/
  | woken
  /-- At the `acquire(mutex)` that ends `cond_wait`. -/
  | reacquire
  /-- Gone through `do_exit`. -/
  | dead
  deriving DecidableEq

namespace Place

/-- Inside the slow path of `sema_wait`. -/
def blocked : Place → Bool
  | .unqueued | .sleeping | .woken | .reacquire => true
  | _ => false

/-- Inside the slow path of `sema_wait` and no longer asleep. -/
def awake : Place → Bool
  | .woken | .reacquire => true
  | _ => false

/-- Where `cond_wait` will still test `t->killed`. -/
def inCondWait : Place → Bool
  | .unqueued | .sleeping | .woken => true
  | _ => false

end Place

/-- How far the thread that has `sem_lock` is. -/
inductive Section (T : Type)
  /-- Nobody has it. -/
  | free
  /-- `t` is in the `Queue_push_back` of its `cond_wait`. -/
  | pushing (t : T)
  /-- `cond_signal` has found the waiting queue not empty. -/
  | found
  /-- `cond_signal` has taken `t` off the queue and goes for `t->lock`. -/
  | provided (t : T)
  deriving DecidableEq

/-- A wake-up is on its way. -/
def Section.granting {T : Type} : Section T → Nat
  | .found | .provided _ => 1
  | _ => 0

/-- `struct semaphore` with its threads.  `value` and `wakeup` are C `int`s; `signals` and `waits` count the
calls, a signal from its `value++` on. -/
structure Sem (T : Type) where
  value : Int
  wakeup : Int
  sem_lock : Section T
  waiting_queue : List T
  place : T → Place
  killed : T → Bool
  signals : Nat
  waits : Nat

inductive SemEvent (T : Type)
  /-- `t` runs `sema_wait` until it completes or goes to sleep. -/
  | sema_wait (t : T)
  /-- `cond_wait` is through with its push, and gives the lock back. -/
  | Queue_push_back
  /-- `sema_signal` as far as `Queue_isempty_atomic`. -/
  | sema_signal
  | Queue_provide_atomic
  /-- The end of `cond_signal`, with `t->lock`. -/
  | cond_signal
  /-- `thread_send_signal`; `kill` for the signals that set `t->killed`.  With `kill := false` it is
  `thread_wakeup_atomic`. -/
  | thread_send_signal (t : T) (kill : Bool)
  /-- `thread_sched` returns in `cond_wait` of `t`. -/
  | resume (t : T)
  /-- `t` has the lock again and evaluates `while (S->wakeup == 0)`. -/
  | reacquire (t : T)

namespace Sem

variable {T : Type} [DecidableEq T]

/-- `cond_wait` up to its push. -/
def cond_wait (S : Sem T) (t : T) : Sem T :=
  { S with
    sem_lock := .pushing t
    place := update S.place t .unqueued }

def sema_wait (S : Sem T) (t : T) : Sem T :=
  let S := { S with value := int32 (S.value - 1) }
  if S.value < 0 then S.cond_wait t else { S with waits := S.waits + 1 }

/-- The thread sleeps at the end of the queue. -/
def Queue_push_back (S : Sem T) (t : T) : Sem T :=
  { S with
    sem_lock := .free
    waiting_queue := S.waiting_queue ++ [t]
    place := update S.place t .sleeping }

def sema_signal (S : Sem T) : Sem T :=
  let S := { S with value := int32 (S.value + 1), signals := S.signals + 1 }
  if S.value ≤ 0 then
    { S with wakeup := int32 (S.wakeup + 1), sem_lock := if S.waiting_queue.isEmpty then .free else .found }
  else S

/-- The oldest sleeper is taken off the queue; `none` is the panic for an empty one. -/
def Queue_provide_atomic (S : Sem T) : Option (Sem T) :=
  match S.waiting_queue with
  | [] => none
  | t :: q => some
      { S with sem_lock := .provided t, waiting_queue := q, place := update S.place t .unqueued }

/-- And becomes runnable; `none` is the panic for a thread that is not sleeping. -/
def cond_signal (S : Sem T) (t : T) : Option (Sem T) :=
  if S.place t = .unqueued then some { S with sem_lock := .free, place := update S.place t .woken } else none

/-- `thread_wakeup`: off the waiting queue and runnable. -/
def thread_wakeup (S : Sem T) (t : T) : Sem T :=
  { S with
    waiting_queue := S.waiting_queue.erase t
    place := update S.place t .woken }

def thread_send_signal (S : Sem T) (t : T) (kill : Bool) : Sem T :=
  let S' := { S with killed := update S.killed t (S.killed t || kill) }
  if S.place t = .sleeping ∨ S.place t = .unqueued then S'.thread_wakeup t else S'

/-- The second half of `cond_wait`: a killed thread exits, any other goes for the lock. -/
def resume (S : Sem T) (t : T) : Sem T :=
  { S with place := update S.place t (if S.killed t then .dead else .reacquire) }

/-- The end of one turn of `do { cond_wait(..); } while (S->wakeup == 0)` and, past it,
`S->wakeup--`. -/
def reacquire (S : Sem T) (t : T) : Sem T :=
  if S.wakeup = 0 then
    S.cond_wait t
  else
    { S with
      wakeup := int32 (S.wakeup - 1)
      waits := S.waits + 1
      place := update S.place t .user }

/-- One event; `none` where it cannot happen, and for a panic.  A thread that is on its way to sleep has its own lock, so
that no signal comes to it. -/
def next (S : Sem T) : SemEvent T → Option (Sem T)
  | .sema_wait t => if S.sem_lock = .free ∧ S.place t = .user then some (S.sema_wait t) else none
  | .Queue_push_back =>
      match S.sem_lock with
      | .pushing t => some (S.Queue_push_back t)
      | _ => none
  | .sema_signal => if S.sem_lock = .free then some S.sema_signal else none
  | .Queue_provide_atomic => if S.sem_lock = .found then S.Queue_provide_atomic else none
  | .cond_signal =>
      match S.sem_lock with
      | .provided t => S.cond_signal t
      | _ => none
  | .thread_send_signal t kill =>
      if S.place t = .dead ∨ S.sem_lock = .pushing t then none else some (S.thread_send_signal t kill)
  | .resume t => if S.place t = .woken then some (S.resume t) else none
  | .reacquire t => if S.sem_lock = .free ∧ S.place t = .reacquire then some (S.reacquire t) else none

omit [DecidableEq T] in
/-- The last thread of the waiting queue is taken off it by a signal while another is linked behind it. -/
def Wild (S : Sem T) : SemEvent T → Prop
  | .thread_send_signal t _ => (∃ u, S.sem_lock = .pushing u) ∧ S.waiting_queue.getLast? = some t
  | _ => False

end Sem

section

variable {T : Type} [DecidableEq T]

/-- What becomes of a queue that two threads change at once is left open. -/
def SemStep (S : Sem T) (e : SemEvent T) (S' : Sem T) : Prop := S.next e = some S' ∨ S.Wild e

end

/-- `sema_init`, with every thread outside and nobody killed. -/
def sema_init (T : Type) (value : Int) : Sem T where
  value := value
  wakeup := 0
  sem_lock := .free
  waiting_queue := []
  place := fun _ => .user
  killed := fun _ => false
  signals := 0
  waits := 0

/-! ## The token law -/

section Law

variable {T : Type} [DecidableEq T] [Fintype T]

/-- The live threads inside the slow path of `sema_wait`. -/
def Sem.blocked (S : Sem T) : Nat := count Place.blocked S.place

/-- `value` accounts for every completed call and every live blocked waiter. -/
def Conserved (init : Int) (S : Sem T) : Prop :=
  S.value = init + S.signals - S.waits - S.blocked

/-- The events by which the thread that has `sem_lock` gives it back. -/
def Releases (e : SemEvent T) : Prop := e = .Queue_push_back ∨ e = .Queue_provide_atomic ∨ e = .cond_signal

/-- Once `sem_lock` is free, some thread inside `sema_wait` takes a wake-up by its own steps alone and completes its
wait. -/
def Consumable (S : Sem T) : Prop :=
  ∃ t es es' S', (S.place t).blocked = true ∧ (∀ e ∈ es, Releases e) ∧ (∀ e ∈ es', e = .resume t ∨ e = .reacquire t) ∧
    Run SemStep S (es ++ es') S' ∧ S'.wakeup = S.wakeup - 1 ∧ S'.waits = S.waits + 1 ∧ S'.place t = .user

/-- The semaphore can be taken: at once by any thread that has `sem_lock`, or by a waiter already inside. -/
def Takeable (S : Sem T) : Prop :=
  (∀ t, S.place t = .user →
    (S.sema_wait t).place t = .user ∧ (S.sema_wait t).waits = S.waits + 1) ∨ Consumable S

/-- No token is lost. -/
structure TokenLaw (init : Int) (S : Sem T) : Prop where
  conserved : Conserved init S
  consumed : 0 < S.wakeup → Consumable S
  takeable : init = 1 → S.signals = S.waits → Takeable S

/-- The steps after which no thread is in `cond_wait` with its `killed` flag set, in which neither counter leaves the
range of `int`, and in which a signal takes off the queue neither the thread that another is linked behind, nor the one
that `cond_signal` has found alone or has taken. -/
def SemOk (S : Sem T) : SemEvent T → Prop
  | .sema_wait t => (S.killed t = true → 0 < S.value) ∧ INT_MIN < S.value
  | .sema_signal => S.value < INT_MAX ∧ S.wakeup < INT_MAX
  | .thread_send_signal t kill =>
      (kill = true → (S.place t).inCondWait = false) ∧ S.sem_lock ≠ .provided t ∧
        (S.sem_lock = .found → S.waiting_queue ≠ [t]) ∧
        ((∃ u, S.sem_lock = .pushing u) → S.waiting_queue.getLast? ≠ some t)
  | .reacquire t => S.killed t = true → S.wakeup ≠ 0
  | _ => True

/-- The waiting queue holds each sleeping thread once, and nobody else. -/
structure Queued (q : List T) (place : T → Place) : Prop where
  nodup : q.Nodup
  mem : ∀ t, t ∈ q ↔ place t = .sleeping

/-- Who is asleep and on no queue. -/
structure Locked (sem_lock : Section T) (q : List T) (place : T → Place) : Prop where
  unqueued : ∀ t, place t = .unqueued ↔ sem_lock = .pushing t ∨ sem_lock = .provided t
  found : sem_lock = .found → q ≠ []

/-- The arithmetic of the semaphore: `blocked` waiters are inside, `awake` of them not asleep or about to be woken. -/
structure Ledger (init value wakeup : Int) (signals waits blocked awake : Nat) : Prop where
  conserved : value = init + signals - waits - blocked
  value_ge : INT_MIN ≤ value
  value_le : value ≤ INT_MAX
  wakeup_nonneg : 0 ≤ wakeup
  wakeup_le : wakeup ≤ INT_MAX
  /-- Every blocked waiter is owed a token or has been given one. -/
  owed : (blocked : Int) = max 0 (-value) + wakeup
  /-- Nobody sleeps through a wake-up: there are as many awake waiters as wake-ups. -/
  enough_awake : wakeup ≤ awake

/-- What the guarded steps keep. -/
structure SemInv (init : Int) (S : Sem T) : Prop where
  ledger : Ledger init S.value S.wakeup S.signals S.waits S.blocked
    (count Place.awake S.place + S.sem_lock.granting)
  queued : Queued S.waiting_queue S.place
  locked : Locked S.sem_lock S.waiting_queue S.place
  not_killed : ∀ t, S.killed t = true → (S.place t).inCondWait = false

end Law

/-! ## The waiting queue -/

namespace Queued

variable {T : Type} [DecidableEq T] {q : List T} {place : T → Place} {t : T} {p : Place}

theorem push (h : Queued q place) (ht : place t ≠ .sleeping) :
    Queued (q ++ [t]) (update place t .sleeping) where
  nodup := by
    have hnot : t ∉ q := fun hmem => ht ((h.mem t).mp hmem)
    exact List.nodup_append.mpr ⟨h.nodup, List.nodup_singleton t, by
      rintro a ha b hb rfl
      rw [List.mem_singleton] at hb
      exact hnot (hb ▸ ha)⟩
  mem := by
    intro u
    by_cases hu : u = t
    · subst hu
      simp
    · simp [hu, h.mem u]

theorem erase (h : Queued q place) (hp : p ≠ .sleeping) :
    Queued (q.erase t) (update place t p) where
  nodup := h.nodup.erase t
  mem := by
    intro u
    rw [h.nodup.mem_erase_iff]
    by_cases hu : u = t
    · subst hu
      simp [hp]
    · simp [hu, h.mem u]

theorem update (h : Queued q place) (ht : place t ≠ .sleeping) (hp : p ≠ .sleeping) :
    Queued q (update place t p) := by
  have hnot : t ∉ q := fun hmem => ht ((h.mem t).mp hmem)
  simpa [List.erase_of_not_mem hnot] using h.erase (t := t) hp

end Queued

namespace Locked

variable {T : Type} [DecidableEq T] {l : Section T} {q q' : List T} {place : T → Place} {t : T} {p : Place}

omit [DecidableEq T] in
theorem not_unqueued (h : Locked l q place) (hl : l = .free ∨ l = .found) (u : T) : place u ≠ .unqueued := by
  rw [Ne, h.unqueued]
  rcases hl with rfl | rfl
  · simp
  · simp

/-- A thread leaves, or is on its way to, the queue, and the one that has `sem_lock` knows of it. -/
theorem take (hnone : ∀ u, place u ≠ .unqueued) (hl : l = .pushing t ∨ l = .provided t) :
    Locked l q (update place t .unqueued) where
  unqueued := by
    intro u
    by_cases hu : u = t
    · subst hu
      simp [hl]
    · have htu : t ≠ u := fun h => hu h.symm
      rcases hl with rfl | rfl
      · simp [hu, hnone u, htu]
      · simp [hu, hnone u, htu]
  found := by
    rintro rfl
    rcases hl with h | h
    · cases h
    · cases h

theorem back (h : Locked l q place) (hl : l = .pushing t ∨ l = .provided t) (hp : p ≠ .unqueued) :
    Locked .free q' (update place t p) where
  unqueued := by
    intro u
    by_cases hu : u = t
    · subst hu
      simp [hp]
    · have htu : t ≠ u := fun h => hu h.symm
      have hplace := h.unqueued u
      rcases hl with rfl | rfl
      · simpa [hu, htu] using hplace
      · simpa [hu, htu] using hplace
  found := by simp

theorem update (h : Locked l q place) (ht : place t ≠ .unqueued) (hp : p ≠ .unqueued) (hq : l = .found → q' ≠ []) :
    Locked l q' (update place t p) where
  unqueued := by
    intro u
    rw [← h.unqueued]
    by_cases hu : u = t
    · subst hu
      simp [hp, ht]
    · simp [hu]
  found := hq

end Locked

/-! ## The ledger -/

namespace Ledger

variable {init v w : Int} {sg wt b a : Nat}

theorem take (h : Ledger init v w sg wt b a) (hv : 0 < v) : Ledger init (v - 1) w sg (wt + 1) b a := by
  obtain ⟨hcons, hge, hle, hw, hwle, howed, hen⟩ := h
  have hmin : INT_MIN < 0 := by decide
  constructor <;> omega

theorem block (h : Ledger init v w sg wt b a) (hv : v ≤ 0) (hmin : INT_MIN < v) :
    Ledger init (v - 1) w sg wt (b + 1) a := by
  obtain ⟨hcons, hge, hle, hw, hwle, howed, hen⟩ := h
  constructor <;> omega

theorem post (h : Ledger init v w sg wt b a) (hv : 0 ≤ v) (hmax : v < INT_MAX) :
    Ledger init (v + 1) w (sg + 1) wt b a := by
  obtain ⟨hcons, hge, hle, hw, hwle, howed, hen⟩ := h
  constructor <;> omega

theorem grant (h : Ledger init v w sg wt b a) (hv : v < 0) (hmax : w < INT_MAX) {a' : Nat}
    (ha : w + 1 ≤ a') : Ledger init (v + 1) (w + 1) (sg + 1) wt b a' := by
  obtain ⟨hcons, hge, hle, hw, hwle, howed, hen⟩ := h
  have hmax' : 0 ≤ INT_MAX := by decide
  constructor <;> omega

theorem consume (h : Ledger init v w sg wt (b + 1) (a + 1)) (hw : 0 < w) :
    Ledger init v (w - 1) sg (wt + 1) b a := by
  obtain ⟨hcons, hge, hle, -, hwle, howed, hen⟩ := h
  constructor <;> omega

theorem congr (h : Ledger init v w sg wt b a) {b' a' : Nat} (hb : b' = b) (ha : a ≤ a') :
    Ledger init v w sg wt b' a' := by
  obtain ⟨hcons, hge, hle, hw, hwle, howed, hen⟩ := h
  constructor <;> omega

theorem sleep (h : Ledger init v 0 sg wt b a) (a' : Nat) : Ledger init v 0 sg wt b a' := by
  obtain ⟨hcons, hge, hle, hw, hwle, howed, hen⟩ := h
  constructor <;> omega

end Ledger

/-! ## Every guarded step keeps the invariant -/

section Steps

variable {T : Type} [DecidableEq T] [Fintype T] {init : Int} {S S' : Sem T} {t : T}

theorem counts_update (place : T → Place) {p : Place} (p' : Place) (ht : place t = p) :
    count Place.blocked (update place t p') + p.blocked.toNat
        = count Place.blocked place + p'.blocked.toNat ∧
      count Place.awake (update place t p') + p.awake.toNat
        = count Place.awake place + p'.awake.toNat := by
  subst ht
  exact ⟨count_update _ _ _ _, count_update _ _ _ _⟩

omit [DecidableEq T] in
theorem blocked_eq_awake {place : T → Place} (h : Queued [] place) (hnone : ∀ u, place u ≠ .unqueued) :
    count Place.blocked place = count Place.awake place := by
  have hsplit : count Place.blocked place
      = count Place.awake place + count (fun p => decide (p = .sleeping ∨ p = .unqueued)) place :=
    count_add fun b => by cases b <;> rfl
  have hasleep : count (fun p => decide (p = .sleeping ∨ p = .unqueued)) place = 0 :=
    count_eq_zero fun u => by simpa using ⟨(h.mem u).not.mp (by simp), hnone u⟩
  omega

omit [Fintype T] in
theorem not_killed_update {killed : T → Bool} {place : T → Place} {p : Place}
    (h : ∀ u, killed u = true → (place u).inCondWait = false)
    (hp : killed t = true → p.inCondWait = false) :
    ∀ u, killed u = true → (update place t p u).inCondWait = false := by
  intro u hu
  by_cases hut : u = t
  · subst hut
    simpa using hp hu
  · simpa [hut] using h u hu

namespace SemInv

omit [DecidableEq T] in
theorem not_killed_of (h : SemInv init S) (ht : (S.place t).inCondWait = true) : S.killed t ≠ true := by
  intro hk
  rw [h.not_killed t hk] at ht
  cases ht

theorem sema_wait (h : SemInv init S) (hfree : S.sem_lock = .free) (ht : S.place t = .user)
    (hok : SemOk S (.sema_wait t)) : SemInv init (S.sema_wait t) := by
  obtain ⟨hkill, hmin⟩ := hok
  have hle := h.ledger.value_le
  have hval : int32 (S.value - 1) = S.value - 1 := int32_of_range (by omega) (by omega)
  have hgrant : S.sem_lock.granting = 0 := by rw [hfree]; rfl
  unfold Sem.sema_wait
  simp only [hval]
  split
  · next hneg =>
    obtain ⟨hb, ha⟩ := counts_update S.place .unqueued ht
    simp only [Place.blocked, Place.awake, Bool.toNat_false, Bool.toNat_true] at hb ha
    refine ⟨(h.ledger.block (by omega) hmin).congr ?_ ?_, h.queued.update (by simp [ht]) (by simp),
      .take (h.locked.not_unqueued (.inl hfree)) (.inl rfl), not_killed_update h.not_killed fun hk => ?_⟩
    · exact hb
    · show count Place.awake S.place + S.sem_lock.granting ≤ count Place.awake (update S.place t .unqueued) + 0
      omega
    · have := hkill hk
      omega
  · next hnneg => exact ⟨h.ledger.take (by omega), h.queued, h.locked, h.not_killed⟩

theorem Queue_push_back (h : SemInv init S) (hlock : S.sem_lock = .pushing t) : SemInv init (S.Queue_push_back t) := by
  have ht : S.place t = .unqueued := (h.locked.unqueued t).mpr (.inl hlock)
  have hgrant : S.sem_lock.granting = 0 := by rw [hlock]; rfl
  obtain ⟨hb, ha⟩ := counts_update S.place .sleeping ht
  simp only [Place.blocked, Place.awake, Bool.toNat_false, Bool.toNat_true] at hb ha
  refine ⟨h.ledger.congr ?_ ?_, h.queued.push (by simp [ht]), h.locked.back (.inl hlock) (by simp),
    not_killed_update h.not_killed fun hk => absurd hk (h.not_killed_of (by rw [ht]; rfl))⟩
  · exact Nat.add_right_cancel hb
  · show count Place.awake S.place + S.sem_lock.granting ≤ count Place.awake (update S.place t .sleeping) + 0
    omega

omit [DecidableEq T] in
theorem sema_signal (h : SemInv init S) (hfree : S.sem_lock = .free) (hok : SemOk S .sema_signal) :
    SemInv init S.sema_signal := by
  obtain ⟨hmax, hwmax⟩ := hok
  have hge := h.ledger.value_ge
  have hwge := h.ledger.wakeup_nonneg
  have henough := h.ledger.enough_awake
  have hval : int32 (S.value + 1) = S.value + 1 := int32_of_range (by omega) (by omega)
  have hwake : int32 (S.wakeup + 1) = S.wakeup + 1 :=
    int32_of_range (by simp only [INT_MIN]; omega) (by omega)
  have hgrant : S.sem_lock.granting = 0 := by rw [hfree]; rfl
  have hnone := h.locked.not_unqueued (.inl hfree)
  unfold Sem.sema_signal
  simp only [hval, hwake]
  split
  · next hnpos =>
    rcases hq : S.waiting_queue with _ | ⟨u, q⟩
    · -- nobody sleeps: the new wake-up is for a waiter that is awake already
      have hall := blocked_eq_awake (hq ▸ h.queued) hnone
      have howed := h.ledger.owed
      simp only [Sem.blocked] at howed
      refine ⟨h.ledger.grant (by omega) hwmax ?_, hq ▸ h.queued, ⟨?_, by simp⟩, h.not_killed⟩
      · show S.wakeup + 1 ≤ ((count Place.awake S.place + 0 : Nat) : Int)
        omega
      · intro u
        simpa using hnone u
    · refine ⟨h.ledger.grant (by omega) hwmax ?_, hq ▸ h.queued, ⟨?_, by simp⟩, h.not_killed⟩
      · show S.wakeup + 1 ≤ ((count Place.awake S.place + 1 : Nat) : Int)
        omega
      · intro u
        simpa using hnone u
  · next hpos => exact ⟨h.ledger.post (by omega) hmax, h.queued, h.locked, h.not_killed⟩

theorem Queue_provide_atomic (h : SemInv init S) (hlock : S.sem_lock = .found) :
    ∃ t, (S.place t).blocked = true ∧ ∃ S', S.Queue_provide_atomic = some S' ∧ SemInv init S' ∧
      S'.sem_lock = .provided t ∧ S'.wakeup = S.wakeup ∧ S'.waits = S.waits := by
  obtain ⟨t, q, hq⟩ := List.exists_cons_of_ne_nil (h.locked.found hlock)
  have ht : S.place t = .sleeping := (h.queued.mem t).mp (by rw [hq]; simp)
  have hgrant : S.sem_lock.granting = 1 := by rw [hlock]; rfl
  obtain ⟨hb, ha⟩ := counts_update S.place .unqueued ht
  simp only [Place.blocked, Place.awake, Bool.toNat_false, Bool.toNat_true] at hb ha
  have hqueue := h.queued.erase (t := t) (p := .unqueued) (by decide)
  rw [hq, List.erase_cons_head] at hqueue
  have hS' : S.Queue_provide_atomic = some
      { S with sem_lock := .provided t, waiting_queue := q, place := update S.place t .unqueued } := by
    rw [Sem.Queue_provide_atomic, hq]
  refine ⟨t, by rw [ht]; rfl, _, hS', ⟨h.ledger.congr ?_ ?_, hqueue,
    .take (h.locked.not_unqueued (.inr hlock)) (.inr rfl), not_killed_update h.not_killed fun hk => ?_⟩, rfl, rfl, rfl⟩
  · exact Nat.add_right_cancel hb
  · show count Place.awake S.place + S.sem_lock.granting ≤ count Place.awake (update S.place t .unqueued) + 1
    omega
  · exact absurd hk (h.not_killed_of (by rw [ht]; rfl))

theorem cond_signal (h : SemInv init S) (hlock : S.sem_lock = .provided t) :
    ∃ S', S.cond_signal t = some S' ∧ SemInv init S' ∧
      S'.sem_lock = .free ∧ S'.place t = .woken ∧ S'.wakeup = S.wakeup ∧ S'.waits = S.waits := by
  have ht : S.place t = .unqueued := (h.locked.unqueued t).mpr (.inr hlock)
  have hgrant : S.sem_lock.granting = 1 := by rw [hlock]; rfl
  obtain ⟨hb, ha⟩ := counts_update S.place .woken ht
  simp only [Place.blocked, Place.awake, Bool.toNat_false, Bool.toNat_true] at hb ha
  have hS' : S.cond_signal t = some { S with sem_lock := .free, place := update S.place t .woken } := if_pos ht
  refine ⟨_, hS', ⟨h.ledger.congr ?_ ?_, h.queued.update (by simp [ht]) (by simp),
    h.locked.back (.inr hlock) (by simp), not_killed_update h.not_killed fun hk => ?_⟩, rfl,
    update_self .., rfl, rfl⟩
  · exact Nat.add_right_cancel hb
  · show count Place.awake S.place + S.sem_lock.granting ≤ count Place.awake (update S.place t .woken) + 0
    omega
  · exact absurd hk (h.not_killed_of (by rw [ht]; rfl))

theorem thread_send_signal {kill : Bool} (h : SemInv init S) (hpush : S.sem_lock ≠ .pushing t)
    (hok : SemOk S (.thread_send_signal t kill)) : SemInv init (S.thread_send_signal t kill) := by
  obtain ⟨hkill, hprovided, hfound, -⟩ := hok
  have hkilled : ∀ u, update S.killed t (S.killed t || kill) u = true →
      (S.place u).inCondWait = false := by
    intro u hu
    by_cases hut : u = t
    · subst hut
      rw [update_self, Bool.or_eq_true] at hu
      exact hu.elim (h.not_killed u) hkill
    · exact h.not_killed u (by simpa [hut] using hu)
  have hqueued : S.place t ≠ .unqueued := fun hu => ((h.locked.unqueued t).mp hu).elim hpush hprovided
  unfold Sem.thread_send_signal
  dsimp only
  split
  · next hsl =>
    have hsl := hsl.resolve_right hqueued
    obtain ⟨hb, ha⟩ := counts_update S.place .woken hsl
    simp only [Place.blocked, Place.awake, Bool.toNat_false, Bool.toNat_true] at hb ha
    refine ⟨h.ledger.congr ?_ ?_, h.queued.erase (by decide), h.locked.update hqueued (by simp) fun hlock hnil => ?_,
      not_killed_update hkilled fun hk => ?_⟩
    · exact Nat.add_right_cancel hb
    · show count Place.awake S.place + S.sem_lock.granting
        ≤ count Place.awake (update S.place t .woken) + S.sem_lock.granting
      omega
    · rcases List.erase_eq_nil_iff.mp hnil with hq | hq
      · exact h.locked.found hlock hq
      · exact hfound hlock hq
    · -- a sleeping thread has not been killed, before this signal or by it
      have hcond := hkilled t hk
      rw [hsl] at hcond
      cases hcond
  · exact ⟨h.ledger, h.queued, h.locked, hkilled⟩

theorem resume (h : SemInv init S) (ht : S.place t = .woken) : SemInv init (S.resume t) := by
  have hlive : S.killed t = false := by simpa using h.not_killed_of (t := t) (by rw [ht]; rfl)
  obtain ⟨hb, ha⟩ := counts_update S.place .reacquire ht
  simp only [Place.blocked, Place.awake, Bool.toNat_true] at hb ha
  unfold Sem.resume
  simp only [hlive, Bool.false_eq_true, if_false]
  refine ⟨h.ledger.congr ?_ ?_, h.queued.update (by simp [ht]) (by decide),
    h.locked.update (by simp [ht]) (by simp) h.locked.found, not_killed_update h.not_killed fun hk => ?_⟩
  · exact Nat.add_right_cancel hb
  · show count Place.awake S.place + S.sem_lock.granting
      ≤ count Place.awake (update S.place t .reacquire) + S.sem_lock.granting
    omega
  · rw [hlive] at hk
    cases hk

theorem reacquire (h : SemInv init S) (hfree : S.sem_lock = .free) (ht : S.place t = .reacquire)
    (hok : SemOk S (.reacquire t)) : SemInv init (S.reacquire t) := by
  have hwge := h.ledger.wakeup_nonneg
  have hwle := h.ledger.wakeup_le
  have hgrant : S.sem_lock.granting = 0 := by rw [hfree]; rfl
  unfold Sem.reacquire
  split
  · next hw =>
    obtain ⟨hb, ha⟩ := counts_update S.place .unqueued ht
    simp only [Place.blocked, Place.awake, Bool.toNat_true] at hb ha
    refine ⟨?_, h.queued.update (by simp [ht]) (by simp), .take (h.locked.not_unqueued (.inl hfree)) (.inl rfl),
      not_killed_update h.not_killed fun hk => absurd hw (hok hk)⟩
    have hledger := h.ledger
    rw [hw] at hledger
    simp only [Sem.cond_wait, hw]
    exact (hledger.sleep _).congr (Nat.add_right_cancel hb) le_rfl
  · next hw =>
    obtain ⟨hb, ha⟩ := counts_update S.place .user ht
    simp only [Place.blocked, Place.awake, Bool.toNat_true, Bool.toNat_false] at hb ha
    have hval : int32 (S.wakeup - 1) = S.wakeup - 1 :=
      int32_of_range (by simp only [INT_MIN]; omega) (by omega)
    simp only [hval]
    refine ⟨?_, h.queued.update (by simp [ht]) (by decide), h.locked.update (by simp [ht]) (by simp) h.locked.found,
      not_killed_update h.not_killed fun _ => rfl⟩
    have hledger : Ledger init S.value S.wakeup S.signals S.waits
        (count Place.blocked (update S.place t .user) + 1)
        (count Place.awake (update S.place t .user) + S.sem_lock.granting + 1) :=
      h.ledger.congr hb (by omega)
    exact hledger.consume (by omega)

theorem step {e : SemEvent T} (h : SemInv init S) (hstep : Guarded SemStep SemOk S e S') :
    SemInv init S' := by
  obtain ⟨hok, hs | hwild⟩ := hstep
  case inr =>
    cases e with
    | thread_send_signal t kill => exact absurd hwild.2 (hok.2.2.2 hwild.1)
    | _ => exact absurd hwild id
  unfold Sem.next at hs
  cases e with
  | sema_wait t =>
    simp only [Option.ite_none_right_eq_some, Option.some.injEq] at hs
    obtain ⟨⟨hfree, ht⟩, rfl⟩ := hs
    exact h.sema_wait hfree ht hok
  | Queue_push_back =>
    simp only at hs
    split at hs
    · next t hlock =>
      cases hs
      exact h.Queue_push_back hlock
    · cases hs
  | sema_signal =>
    simp only [Option.ite_none_right_eq_some, Option.some.injEq] at hs
    obtain ⟨hfree, rfl⟩ := hs
    exact h.sema_signal hfree hok
  | Queue_provide_atomic =>
    simp only [Option.ite_none_right_eq_some] at hs
    obtain ⟨hlock, hs⟩ := hs
    obtain ⟨t, -, S₁, hS₁, hinv, -⟩ := h.Queue_provide_atomic hlock
    rw [hs] at hS₁
    cases hS₁
    exact hinv
  | cond_signal =>
    simp only at hs
    split at hs
    · next t hlock =>
      obtain ⟨S₁, hS₁, hinv, -⟩ := h.cond_signal hlock
      rw [hs] at hS₁
      cases hS₁
      exact hinv
    · cases hs
  | thread_send_signal t kill =>
    simp only [Option.ite_none_left_eq_some, Option.some.injEq] at hs
    obtain ⟨hnot, rfl⟩ := hs
    exact h.thread_send_signal (fun hp => hnot (.inr hp)) hok
  | resume t =>
    simp only [Option.ite_none_right_eq_some, Option.some.injEq] at hs
    obtain ⟨ht, rfl⟩ := hs
    exact h.resume ht
  | reacquire t =>
    simp only [Option.ite_none_right_eq_some, Option.some.injEq] at hs
    obtain ⟨⟨hfree, ht⟩, rfl⟩ := hs
    exact h.reacquire hfree ht hok

omit [Fintype T] in
theorem reacquire_of_wakeup (hfree : S.sem_lock = .free) (ht : S.place t = .reacquire) (hw : 0 < S.wakeup)
    (hle : S.wakeup ≤ INT_MAX) :
    ∃ S', SemStep S (.reacquire t) S' ∧ S'.wakeup = S.wakeup - 1 ∧ S'.waits = S.waits + 1 ∧
      S'.place t = .user := by
  have hval : int32 (S.wakeup - 1) = S.wakeup - 1 :=
    int32_of_range (by simp only [INT_MIN]; omega) (by omega)
  refine ⟨S.reacquire t, .inl (by simp [Sem.next, hfree, ht]), ?_⟩
  simp [Sem.reacquire, hval, show S.wakeup ≠ 0 by omega]

/-- An awake thread takes its wake-up once `sem_lock` is free. -/
theorem consumes (h : SemInv init S) (hfree : S.sem_lock = .free) (hw : 0 < S.wakeup)
    (ht : (S.place t).awake = true) : ∃ es S', (∀ e ∈ es, e = .resume t ∨ e = .reacquire t) ∧ Run SemStep S es S' ∧
      S'.wakeup = S.wakeup - 1 ∧ S'.waits = S.waits + 1 ∧ S'.place t = .user := by
  have hle := h.ledger.wakeup_le
  cases hp : S.place t with
  | user | unqueued | sleeping | dead =>
    rw [hp] at ht
    cases ht
  | reacquire =>
    obtain ⟨S', hs, hwake, hwaits, huser⟩ := reacquire_of_wakeup hfree hp hw hle
    refine ⟨[.reacquire t], S', ?_, .cons hs (.nil _), hwake, hwaits, huser⟩
    intro e he
    exact .inr (List.mem_singleton.mp he)
  | woken =>
    have hlive : S.killed t = false := by simpa using h.not_killed_of (t := t) (by rw [hp]; rfl)
    have hresume : SemStep S (.resume t) (S.resume t) := .inl (by simp [Sem.next, hp])
    have hplace : (S.resume t).place t = .reacquire := by simp [Sem.resume, hlive]
    obtain ⟨S', hs, hwake, hwaits, huser⟩ := reacquire_of_wakeup (S := S.resume t) hfree hplace hw hle
    refine ⟨[.resume t, .reacquire t], S', ?_, .cons hresume (.cons hs (.nil _)), hwake, hwaits, huser⟩
    intro e he
    simpa using he

omit [DecidableEq T] in
theorem awake_of_wakeup (h : SemInv init S) (hgrant : S.sem_lock.granting = 0) (hw : 0 < S.wakeup) :
    ∃ t, (S.place t).awake = true := by
  have hen := h.ledger.enough_awake
  exact exists_of_count_pos (show 0 < count Place.awake S.place by omega)

theorem blocked_of_awake {p : Place} (h : p.awake = true) : p.blocked = true := by
  cases p <;> first | rfl | cases h

/-- Under the invariant a wake-up is never left to nobody. -/
theorem consumable (h : SemInv init S) (hw : 0 < S.wakeup) : Consumable S := by
  cases hlock : S.sem_lock with
  | free =>
    obtain ⟨t, ht⟩ := h.awake_of_wakeup (by rw [hlock]; rfl) hw
    obtain ⟨es, S', hes, hrest⟩ := h.consumes hlock hw ht
    exact ⟨t, [], es, S', blocked_of_awake ht, by simp, hes, hrest⟩
  | pushing u =>
    obtain ⟨t, ht⟩ := h.awake_of_wakeup (by rw [hlock]; rfl) hw
    have hpush : SemStep S .Queue_push_back (S.Queue_push_back u) := .inl (by simp [Sem.next, hlock])
    have htu : t ≠ u := by
      rintro rfl
      rw [(h.locked.unqueued t).mpr (.inl hlock)] at ht
      cases ht
    obtain ⟨es, S', hes, hrun, hrest⟩ := (h.Queue_push_back hlock).consumes (t := t) rfl hw (by
      show (update S.place u .sleeping t).awake = true
      rwa [update_of_ne htu])
    exact ⟨t, [.Queue_push_back], es, S', blocked_of_awake ht, by simp [Releases], hes, .cons hpush hrun, hrest⟩
  | found =>
    obtain ⟨t, ht, S₁, hS₁, h₁, hlock₁, hwake₁, hwaits₁⟩ := h.Queue_provide_atomic hlock
    obtain ⟨S₂, hS₂, h₂, hlock₂, hplace₂, hwake₂, hwaits₂⟩ := h₁.cond_signal hlock₁
    have hstep₁ : SemStep S .Queue_provide_atomic S₁ := .inl (by simp [Sem.next, hlock, hS₁])
    have hstep₂ : SemStep S₁ .cond_signal S₂ := .inl (by simp [Sem.next, hlock₁, hS₂])
    obtain ⟨es, S', hes, hrun, hrest⟩ := h₂.consumes (t := t) hlock₂ (by omega) (by rw [hplace₂]; rfl)
    rw [hwake₂, hwake₁, hwaits₂, hwaits₁] at hrest
    exact ⟨t, [.Queue_provide_atomic, .cond_signal], es, S', ht, by simp [Releases], hes,
      .cons hstep₁ (.cons hstep₂ hrun), hrest⟩
  | provided t =>
    obtain ⟨S₁, hS₁, h₁, hlock₁, hplace₁, hwake₁, hwaits₁⟩ := h.cond_signal hlock
    have hstep : SemStep S .cond_signal S₁ := .inl (by simp [Sem.next, hlock, hS₁])
    obtain ⟨es, S', hes, hrun, hrest⟩ := h₁.consumes (t := t) hlock₁ (by omega) (by rw [hplace₁]; rfl)
    rw [hwake₁, hwaits₁] at hrest
    exact ⟨t, [.cond_signal], es, S', by rw [(h.locked.unqueued t).mpr (.inr hlock)]; rfl, by simp [Releases], hes,
      .cons hstep hrun, hrest⟩

omit [Fintype T] in
theorem sema_wait_of_pos (hv : 0 < S.value) (hle : S.value ≤ INT_MAX) (ht : S.place t = .user) :
    (S.sema_wait t).place t = .user ∧ (S.sema_wait t).waits = S.waits + 1 := by
  have hval : int32 (S.value - 1) = S.value - 1 :=
    int32_of_range (by simp only [INT_MIN]; omega) (by omega)
  simp [Sem.sema_wait, hval, ht, show ¬ S.value - 1 < 0 by omega]

theorem tokenLaw (h : SemInv init S) : TokenLaw init S where
  conserved := h.ledger.conserved
  consumed := h.consumable
  takeable := by
    intro hinit hcalls
    have hcons := h.ledger.conserved
    have howed := h.ledger.owed
    by_cases hw : 0 < S.wakeup
    · exact .inr (h.consumable hw)
    · -- no wake-up is out, so nobody is blocked and the one token is in `value`
      have hv : 0 < S.value := by omega
      exact .inl fun t ht => sema_wait_of_pos hv h.ledger.value_le ht

omit [DecidableEq T] in
theorem init_ok (h0 : 0 ≤ init) (hmax : init ≤ INT_MAX) : SemInv init (sema_init T init) where
  ledger := by
    have hb : count Place.blocked (fun _ : T => Place.user) = 0 := count_eq_zero fun _ => rfl
    have hmin : INT_MIN < 0 := by decide
    simp only [sema_init, Sem.blocked, hb]
    constructor <;> omega
  queued := ⟨List.nodup_nil, by simp [sema_init]⟩
  locked := ⟨by simp [sema_init], by simp [sema_init]⟩
  not_killed := by simp [sema_init]

end SemInv

/-- **Token conservation.**  In every run in which no thread is inside `cond_wait` with its `killed` flag set, no signal
takes a thread off the waiting queue in the middle of a push behind it or of its wake-up, and no counter overflows,
`value` accounts for every call and every waiter, each wake-up has a live waiter that takes it by its own steps, and a
semaphore of one token that has been signalled once per completed wait can be taken. -/
theorem token_conservation (h0 : 0 ≤ init) (hmax : init ≤ INT_MAX) {es : List (SemEvent T)}
    (hrun : Run (Guarded SemStep SemOk) (sema_init T init) es S) : TokenLaw init S :=
  (hrun.invariant (fun _ _ _ h hs => SemInv.step h hs) (SemInv.init_ok h0 hmax)).tokenLaw

end Steps

/-- Two threads contend for one token and both get it. -/
def contended : List (SemEvent Bool) :=
  [.sema_wait false, .sema_wait true, .Queue_push_back, .sema_signal, .Queue_provide_atomic, .cond_signal, .resume true,
    .reacquire true]

theorem token_conservation_contended :
    ∃ S : Sem Bool, Run (Guarded SemStep SemOk) (sema_init Bool 1) contended S ∧
      S.waits = 2 ∧ TokenLaw 1 S := by
  have hrun : ∃ S, Run (Guarded SemStep SemOk) (sema_init Bool 1) contended S ∧ S.waits = 2 := by
    refine ⟨_, .cons ⟨?_, .inl rfl⟩ (.cons ⟨?_, .inl rfl⟩ (.cons ⟨trivial, .inl rfl⟩ (.cons ⟨?_, .inl rfl⟩
      (.cons ⟨trivial, .inl rfl⟩ (.cons ⟨trivial, .inl rfl⟩ (.cons ⟨trivial, .inl rfl⟩
        (.cons ⟨?_, .inl rfl⟩ (.nil _)))))))), rfl⟩
    · exact ⟨by decide, by decide⟩
    · exact ⟨by decide, by decide⟩
    · exact ⟨by decide, by decide⟩
    · exact nofun
  obtain ⟨S, hS, hwaits⟩ := hrun
  exact ⟨S, hS, hwaits, token_conservation (by decide) (by decide) hS⟩

/-- Thread `true` is killed while it waits for the token thread `false` holds. -/
def killed_waiter : List (SemEvent Bool) :=
  [.sema_wait false, .sema_wait true, .Queue_push_back, .thread_send_signal true true, .resume true, .sema_signal]

/-- After the holder has signalled, the token is gone: the next `sema_wait` sleeps although every completed wait has
been signalled. -/
theorem token_lost :
    ∃ S : Sem Bool, Run SemStep (sema_init Bool 1) killed_waiter S ∧ S.sem_lock = .free ∧
      ¬ Conserved 1 S ∧ (0 < S.wakeup ∧ ¬ Consumable S) ∧ (S.signals = S.waits ∧ ¬ Takeable S) := by
  have hrun := run_of_exec Sem.next (sema_init Bool 1) killed_waiter rfl
  refine ⟨_, hrun.mono fun _ _ _ => .inl, rfl, ?_, ⟨by decide, ?_⟩, rfl, ?_⟩
  · unfold Conserved
    decide
  · rintro ⟨t, es, es', S', hb, -⟩
    cases t <;> cases hb
  · rintro (htake | ⟨t, es, es', S', hb, -⟩)
    · have := (htake false rfl).1
      cases this
    · cases t <;> cases hb

end LostWakeup.Atomic
