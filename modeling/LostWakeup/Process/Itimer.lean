/-
# LostWakeup.Process.Itimer — `do_setitimer` in `src/kernel/sysmisc.c`: the alarm of a process.

An alarm goes off, with a `SIGALRM`, at the first clock tick after its value has gone by, and then after every interval.
`Right` says so of one event, and `itimer_right` says of every run when its events are right.

A call whose value is zero does not stop the alarm, and a call that asks for the old value gets nanoseconds that were
converted as if they were readings of the counter.
-/
import LostWakeup.Lib.Timer
import LostWakeup.Library.Run

namespace LostWakeup.Process.Itimer

open Library Lib.Clock Lib.Timer
open Function (update update_eq_self update_of_ne update_self)

/-! ## The call -/

structure itimerval where
  it_interval : timeval
  it_value : timeval
  deriving DecidableEq

/-- `tv_sec` is unsigned. -/
def timeval_valid (t : timeval) : Bool := decide (t.tv_usec < 1000000)

def itimerval.valid (value : itimerval) : Bool := timeval_valid value.it_value && timeval_valid value.it_interval

def TIMEVAL2NS (t : timeval) : Nat := add64 (mul64 t.tv_usec 1000) (mul64 t.tv_sec 1000000000)

def ITIMER_REAL : Int := 0

def ITIMER_VIRTUAL : Int := 1

def ITIMER_PROF : Int := 2

def EINVAL : Int := 22

variable {P : Type} [DecidableEq P]

/-- `do_setitimer` of process `p`, with the old value if it is asked for. -/
def do_setitimer (board : Board) (now : Nat) (s : Timers P) (p : P) (which : Int) (value : itimerval)
    (ovalue : Bool) : Timers P × Int × Option itimerval :=
  if value.valid = false then (s, -EINVAL, none)
  else if which = ITIMER_REAL then
    let timer := s.timer p
    let old : itimerval := ⟨TIME2TIMEVAL board timer.interval, TIME2TIMEVAL board timer.expires⟩
    let base := TIMEVAL2NS value.it_value
    let interval := TIMEVAL2NS value.it_interval
    let timer := { timer with count := if interval ≠ 0 then -1 else 0, interval := interval }
    let armed := add_timer_atomic board now { s with timer := update s.timer p timer } p base
    (if base = 0 then s else armed, 0, if ovalue then some old else none)
  else if which = ITIMER_VIRTUAL ∨ which = ITIMER_PROF then (s, 0, none)
  else (s, -EINVAL, none)

/-! ## Alarms -/

def ns (t : timeval) : Nat := t.tv_usec * 1000 + t.tv_sec * 1000000000

/-- An alarm: what it was armed with, the reading of the counter when it was last set, and for how many nanoseconds. -/
structure Alarm where
  value : timeval
  interval : timeval
  since : Nat
  wait : Nat
  deriving DecidableEq

/-- A call arms an alarm, or stops it. -/
def Alarm.arm (now : Nat) (value : itimerval) : Option Alarm :=
  if ns value.it_value = 0 then none else some ⟨value.it_value, value.it_interval, now, ns value.it_value⟩

/-- An alarm that has gone off is set again if it has an interval. -/
def Alarm.again (now : Nat) (a : Alarm) : Option Alarm :=
  if ns a.interval = 0 then none else some { a with since := now, wait := ns a.interval }

/-- More than `n` nanoseconds of its time have gone by. -/
def Alarm.Over (board : Board) (a : Alarm) (time : Nat) : Prop :=
  a.wait * FREQUENCY board < (time - a.since) * 1000000000

/-- A whole nanosecond more than its time has gone by. -/
def Alarm.Overdue (board : Board) (a : Alarm) (time : Nat) : Prop :=
  (a.wait + 1) * FREQUENCY board ≤ (time - a.since) * 1000000000

/-- The timers, and the alarms as the calls and signals so far have set them. -/
structure State (P : Type) where
  now : Nat
  timers : Timers P
  alarm : P → Option Alarm

inductive Event (P : Type)
  | advance (d : Nat)
  | setitimer (p : P) (which : Int) (value : itimerval) (ovalue : Bool)
  /-- The counter is read at `test p` and `rearm p` for the timer of `p`. -/
  | tick (test rearm : P → Nat) (after : Nat)

def State.call (board : Board) (s : State P) (p : P) (which : Int) (value : itimerval) (ovalue : Bool) :
    Timers P × Int × Option itimerval :=
  do_setitimer board s.now s.timers p which value ovalue

def State.tick (board : Board) (s : State P) (test rearm : P → Nat) : Timers P × List P :=
  timer_list_decrease_atomic board test rearm s.timers.entry s.timers

/-- The processes that get a `SIGALRM` from a tick. -/
def State.signals (board : Board) (s : State P) (test rearm : P → Nat) : List P := (s.tick board test rearm).2

def next (board : Board) (s : State P) : Event P → State P
  | .advance d => { s with now := s.now + d }
  | .setitimer p which value ovalue =>
    { s with
      timers := (s.call board p which value ovalue).1
      alarm := if which = ITIMER_REAL ∧ value.valid = true then update s.alarm p (Alarm.arm s.now value)
        else s.alarm }
  | .tick test rearm after =>
    { now := after
      timers := (s.tick board test rearm).1
      alarm := fun p =>
        if p ∈ s.signals board test rearm then (s.alarm p).bind (Alarm.again (rearm p)) else s.alarm p }

/-- The counter does not go back during a tick. -/
def Forward (s : State P) : Event P → Prop
  | .tick test rearm after => ∀ p, s.now ≤ test p ∧ test p ≤ rearm p ∧ rearm p ≤ after
  | _ => True

def step (board : Board) (s : State P) (e : Event P) (s' : State P) : Prop := Forward s e ∧ s' = next board s e

/-- No process has an alarm yet. -/
structure Initial (s : State P) : Prop where
  entry : s.timers.entry = []
  timer : ∀ p, (s.timers.timer p).expires = 0 ∧ (s.timers.timer p).interval = 0
  alarm : ∀ p, s.alarm p = none

/-- The value and the interval that an alarm was armed with. -/
def armed : Option Alarm → itimerval
  | none => ⟨⟨0, 0⟩, ⟨0, 0⟩⟩
  | some a => ⟨a.interval, a.value⟩

/-- **A right event.** A call returns the old value as it was armed.  A tick sends one signal for every alarm that is
overdue, none for one whose time is not over, and none to a process without an alarm. -/
def Right (board : Board) (s : State P) : Event P → Prop
  | .advance _ => True
  | .setitimer p which value ovalue => which = ITIMER_REAL → value.valid = true →
      (s.call board p which value ovalue).2 = (0, if ovalue then some (armed (s.alarm p)) else none)
  | .tick test rearm _ => ∀ p, (s.signals board test rearm).count p ≤ 1 ∧
      (p ∈ s.signals board test rearm → ∃ a, s.alarm p = some a ∧ a.Over board (test p)) ∧
      ∀ a, s.alarm p = some a → a.Overdue board (test p) → p ∈ s.signals board test rearm

/-- A call that stops the alarm, and one that asks for the old value, find none; nothing that a call or a tick
computes wraps, and for an overdue alarm the clock has not fallen back. -/
def Ok (board : Board) (s : State P) : Event P → Prop
  | .advance _ => True
  | .setitimer p which value ovalue => which = ITIMER_REAL → value.valid = true →
      (s.alarm p = none ∨ ovalue = false ∧ ns value.it_value ≠ 0) ∧
      (ns value.it_value ≠ 0 → ns value.it_value + TIME2NS board s.now < 2 ^ 64 ∧ ns value.it_interval < 2 ^ 64)
  | .tick test rearm _ => ∀ p a, s.alarm p = some a →
      (a.Over board (test p) → ns a.interval + TIME2NS board (rearm p) < 2 ^ 64) ∧
      (a.Overdue board (test p) → a.since * 1000000000 / 2 ^ 64 = test p * 1000000000 / 2 ^ 64)

/-! ## The timers hold the alarms -/

/-- The timer of an alarm. -/
def Alarm.timer (board : Board) (a : Alarm) : timer_list where
  expires := ns a.value
  expires_end := a.wait + TIME2NS board a.since
  count := if ns a.interval ≠ 0 then -1 else 0
  interval := ns a.interval

/-- The timer of a process holds its alarm. -/
structure Rep (board : Board) (s : State P) : Prop where
  nodup : s.timers.entry.Nodup
  idle : ∀ p, s.alarm p = none →
    p ∉ s.timers.entry ∧ (s.timers.timer p).expires = 0 ∧ (s.timers.timer p).interval = 0
  armed : ∀ p a, s.alarm p = some a → p ∈ s.timers.entry ∧ s.timers.timer p = a.timer board ∧
    a.since ≤ s.now ∧ ns a.interval < 2 ^ 64

omit [DecidableEq P] in
theorem Initial.rep {s : State P} (h : Initial s) (board : Board) : Rep board s where
  nodup := by
    rw [h.entry]
    exact List.nodup_nil
  idle p _ := by
    rw [h.entry]
    exact ⟨List.not_mem_nil, h.timer p⟩
  armed p a ha := by
    rw [h.alarm p] at ha
    cases ha

theorem TIMEVAL2NS_eq (t : timeval) : TIMEVAL2NS t = ns t % 2 ^ 64 := by
  rw [TIMEVAL2NS, add64, mul64, mul64, ← Nat.add_mod, ns]

theorem TIMEVAL2NS_of_lt {t : timeval} (h : ns t < 2 ^ 64) : TIMEVAL2NS t = ns t := by
  rw [TIMEVAL2NS_eq, Nat.mod_eq_of_lt h]

theorem TIME2TIMEVAL_zero (board : Board) : TIME2TIMEVAL board 0 = ⟨0, 0⟩ := by
  cases board <;> rfl

theorem ns_ne_special (t : timeval) : ns t ≠ 2 ^ 64 - 1 := by
  rw [ns]
  omega

/-! ## Calls -/

section Call

variable {board : Board} {s s' : State P} {p : P} {value : itimerval} {ovalue : Bool}

theorem Rep.call_old (h : Rep board s) (hvalid : value.valid = true) (hok : s.alarm p = none ∨ ovalue = false) :
    (s.call board p ITIMER_REAL value ovalue).2 =
      (0, if ovalue then some (Itimer.armed (s.alarm p)) else none) := by
  have hret : (s.call board p ITIMER_REAL value ovalue).2 = (0, if ovalue then
      some ⟨TIME2TIMEVAL board (s.timers.timer p).interval, TIME2TIMEVAL board (s.timers.timer p).expires⟩
      else none) := by
    rw [State.call, do_setitimer, if_neg (by rw [hvalid]; exact Bool.noConfusion),
      if_pos (rfl : ITIMER_REAL = ITIMER_REAL)]
  rw [hret]
  rcases hok with hnone | rfl
  · obtain ⟨-, hexpires, hinterval⟩ := h.idle p hnone
    rw [hexpires, hinterval, TIME2TIMEVAL_zero, hnone, Itimer.armed]
  · rw [if_neg Bool.false_ne_true, if_neg Bool.false_ne_true]

theorem Rep.call_stop (hvalid : value.valid = true) (hzero : ns value.it_value = 0) :
    (s.call board p ITIMER_REAL value ovalue).1 = s.timers := by
  have hbase : TIMEVAL2NS value.it_value = 0 := by rw [TIMEVAL2NS_eq, hzero, Nat.zero_mod]
  rw [State.call, do_setitimer, if_neg (by rw [hvalid]; exact Bool.noConfusion),
    if_pos (rfl : ITIMER_REAL = ITIMER_REAL)]
  dsimp only
  rw [if_pos hbase]

theorem call_arm (hvalid : value.valid = true) (hvalue : ns value.it_value < 2 ^ 64)
    (hinterval : ns value.it_interval < 2 ^ 64) (hpos : ns value.it_value ≠ 0) :
    (s.call board p ITIMER_REAL value ovalue).1 =
      add_timer_atomic board s.now
        { s.timers with timer := update s.timers.timer p { s.timers.timer p with
            count := if ns value.it_interval ≠ 0 then -1 else 0, interval := ns value.it_interval } }
        p (ns value.it_value) := by
  rw [State.call, do_setitimer, if_neg (by rw [hvalid]; exact Bool.noConfusion),
    if_pos (rfl : ITIMER_REAL = ITIMER_REAL)]
  dsimp only
  rw [TIMEVAL2NS_of_lt hvalue, TIMEVAL2NS_of_lt hinterval, if_neg hpos]

theorem call_other (which : Int) (h : ¬(which = ITIMER_REAL ∧ value.valid = true)) :
    (s.call board p which value ovalue).1 = s.timers := by
  rw [State.call, do_setitimer]
  split
  · rfl
  · next hvalid =>
    rw [Bool.not_eq_false] at hvalid
    rw [if_neg fun hwhich => h ⟨hwhich, hvalid⟩]
    split <;> rfl

/-- An alarm that is armed has its timer. -/
theorem Rep.arm (h : Rep board s) (hsum : ns value.it_value + TIME2NS board s.now < 2 ^ 64)
    (hinterval : ns value.it_interval < 2 ^ 64) (hpos : ns value.it_value ≠ 0) :
    Rep board
      { s with
        timers := add_timer_atomic board s.now
          { s.timers with timer := update s.timers.timer p { s.timers.timer p with
              count := if ns value.it_interval ≠ 0 then -1 else 0, interval := ns value.it_interval } }
          p (ns value.it_value)
        alarm := update s.alarm p (Alarm.arm s.now value) } := by
  refine ⟨link_nodup h.nodup, fun q hq => ?_, fun q a ha => ?_⟩
  · dsimp only at hq ⊢
    rcases eq_or_ne q p with rfl | hne
    · rw [update_self, Alarm.arm, if_neg hpos] at hq
      cases hq
    rw [update_of_ne hne] at hq
    obtain ⟨hlinked, htimer⟩ := h.idle q hq
    rw [(add_timer_other hne).1, (add_timer_other hne).2]
    dsimp only
    rw [update_of_ne hne]
    exact ⟨hlinked, htimer⟩
  · dsimp only at ha ⊢
    rcases eq_or_ne q p with rfl | hne
    · rw [update_self, Alarm.arm, if_neg hpos] at ha
      cases ha
      refine ⟨mem_link, ?_, le_refl _, hinterval⟩
      rw [add_timer_own]
      dsimp only
      rw [update_self, add64, Nat.mod_eq_of_lt hsum]
      rfl
    · rw [update_of_ne hne] at ha
      rw [(add_timer_other hne).1, (add_timer_other hne).2]
      dsimp only
      rw [update_of_ne hne]
      exact h.armed q a ha

/-- **A call** under its condition is right, and the timers hold the alarms after it. -/
theorem Rep.setitimer {which : Int} (h : Rep board s) (hok : Ok board s (.setitimer p which value ovalue))
    (hstep : step board s (.setitimer p which value ovalue) s') :
    Rep board s' ∧ Right board s (.setitimer p which value ovalue) := by
  by_cases hreal : which = ITIMER_REAL ∧ value.valid = true
  · obtain ⟨rfl, hvalid⟩ := hreal
    obtain ⟨hold, hfit⟩ := hok rfl hvalid
    have hret := h.call_old hvalid (hold.imp_right And.left)
    refine ⟨?_, fun _ _ => hret⟩
    obtain ⟨-, rfl⟩ := hstep
    rw [next, if_pos ⟨rfl, hvalid⟩]
    rcases eq_or_ne (ns value.it_value) 0 with hzero | hpos
    · have hnone : s.alarm p = none := hold.resolve_right fun hno => hno.2 hzero
      have hsame : update s.alarm p (Alarm.arm s.now value) = s.alarm := by
        rw [Alarm.arm, if_pos hzero, ← hnone, update_eq_self]
      rw [Rep.call_stop hvalid hzero, hsame]
      exact h
    · obtain ⟨hsum, hinterval⟩ := hfit hpos
      rw [call_arm hvalid (by omega) hinterval hpos]
      exact h.arm hsum hinterval hpos
  · refine ⟨?_, fun hwhich hvalid => absurd ⟨hwhich, hvalid⟩ hreal⟩
    obtain ⟨-, rfl⟩ := hstep
    rw [next, if_neg hreal, call_other which hreal]
    exact h

end Call

/-! ## Ticks -/

section Tick

variable {board : Board} {s s' : State P} {test rearm : P → Nat} {after : Nat}

/-- The timer of an alarm that has gone off holds what the alarm is then. -/
theorem again_timer {a : Alarm} {now : Nat} (hfit : ns a.interval + TIME2NS board now < 2 ^ 64) :
    (ns a.interval = 0 ∧ (a.timer board).count = 0 ∧ (expired board now (a.timer board)).expires = 0 ∧
      (expired board now (a.timer board)).interval = 0) ∨
    (ns a.interval ≠ 0 ∧ (a.timer board).count = -1 ∧
      expired board now (a.timer board) = { a with since := now, wait := ns a.interval : Alarm }.timer board) := by
  rcases eq_or_ne (ns a.interval) 0 with hzero | hpos
  · have hcount : (a.timer board).count = 0 := if_neg fun hno => hno hzero
    refine .inl ⟨hzero, hcount, ?_⟩
    rw [expired, if_neg (by rw [hcount]; decide)]
    exact ⟨rfl, hzero⟩
  have hcount : (a.timer board).count = -1 := if_pos hpos
  refine .inr ⟨hpos, hcount, ?_⟩
  have hspecial : (a.timer board).interval ≠ 2 ^ 64 - 1 := ns_ne_special a.interval
  have hagain : add64 (a.timer board).interval (TIME2NS board now) = ns a.interval + TIME2NS board now :=
    Nat.mod_eq_of_lt hfit
  rw [expired, if_pos hcount]
  dsimp only
  rw [if_neg hspecial, hagain]
  rfl

theorem Rep.tick_idle (h : Rep board s) {p : P} (hnone : s.alarm p = none) :
    p ∉ s.signals board test rearm ∧ p ∉ (s.tick board test rearm).1.entry ∧
    (s.tick board test rearm).1.timer p = s.timers.timer p := by
  obtain ⟨hfree, -⟩ := h.idle p hnone
  obtain ⟨hquiet, htimer, hlinked⟩ := @decrease_other P _ board test rearm s.timers.entry s.timers p hfree
  exact ⟨hquiet, fun hmem => hfree (hlinked.mp hmem), htimer⟩

theorem Rep.tick_alarm (h : Rep board s) {p : P} {a : Alarm} (ha : s.alarm p = some a) :
    (TIME_OUT board (test p) (a.wait + TIME2NS board a.since) ∧ (s.signals board test rearm).count p = 1 ∧
      (s.tick board test rearm).1.timer p = expired board (rearm p) (a.timer board) ∧
      (p ∈ (s.tick board test rearm).1.entry ↔ (a.timer board).count = -1)) ∨
    (¬TIME_OUT board (test p) (a.wait + TIME2NS board a.since) ∧ p ∉ s.signals board test rearm ∧
      (s.tick board test rearm).1.timer p = a.timer board ∧ p ∈ (s.tick board test rearm).1.entry) := by
  obtain ⟨hlinked, htimer, -⟩ := h.armed p a ha
  have hwalk := @decrease_mem P _ board test rearm s.timers.entry s.timers p h.nodup h.nodup hlinked hlinked
  rw [htimer] at hwalk
  exact hwalk

/-- **A tick** under its condition is right, and the timers hold the alarms after it. -/
theorem Rep.tick (h : Rep board s) (hok : Ok board s (.tick test rearm after))
    (hstep : step board s (.tick test rearm after) s') :
    Rep board s' ∧ Right board s (.tick test rearm after) := by
  obtain ⟨htimes, rfl⟩ := hstep
  refine ⟨⟨decrease_nodup h.nodup, fun p hp => ?_, fun p a ha => ?_⟩, fun p => ?_⟩
  · dsimp only [next] at hp ⊢
    rcases hwas : s.alarm p with _ | a
    · obtain ⟨-, hfree, htimer⟩ := @Rep.tick_idle P _ board s test rearm h p hwas
      rw [htimer]
      exact ⟨hfree, (h.idle p hwas).2⟩
    rcases @Rep.tick_alarm P _ board s test rearm h p a hwas with
      ⟨hout, hcount, htimer, hlinked⟩ | ⟨-, hquiet, -⟩
    · have hmem : p ∈ s.signals board test rearm := List.count_pos_iff.mp (by omega)
      have hover : a.Over board (test p) := time_out_elapsed
        ((h.armed p a hwas).2.2.1.trans (htimes p).1) hout
      rcases again_timer ((hok p a hwas).1 hover) with ⟨-, hone, hexpires, hinterval⟩ | ⟨hpos, -⟩
      · rw [htimer, hlinked, hone]
        exact ⟨by decide, hexpires, hinterval⟩
      · rw [if_pos hmem, hwas, Option.bind_some, Alarm.again, if_neg hpos] at hp
        cases hp
    · rw [if_neg hquiet, hwas] at hp
      cases hp
  · dsimp only [next] at ha ⊢
    rcases hwas : s.alarm p with _ | b
    · obtain ⟨hquiet, -⟩ := @Rep.tick_idle P _ board s test rearm h p hwas
      rw [if_neg hquiet, hwas] at ha
      cases ha
    obtain ⟨-, -, hsince, hfit⟩ := h.armed p b hwas
    have hlater : b.since ≤ test p := hsince.trans (htimes p).1
    rcases @Rep.tick_alarm P _ board s test rearm h p b hwas with
      ⟨hout, hcount, htimer, hlinked⟩ | ⟨-, hquiet, htimer, hlinked⟩
    · have hmem : p ∈ s.signals board test rearm := List.count_pos_iff.mp (by omega)
      rw [if_pos hmem, hwas, Option.bind_some, Alarm.again] at ha
      rcases again_timer ((hok p b hwas).1 (time_out_elapsed hlater hout)) with
        ⟨hzero, -⟩ | ⟨hpos, hcount, hagain⟩
      · rw [if_pos hzero] at ha
        cases ha
      rw [if_neg hpos] at ha
      cases ha
      rw [htimer, hagain]
      exact ⟨hlinked.mpr hcount, rfl, (htimes p).2.2, hfit⟩
    · rw [if_neg hquiet, hwas] at ha
      cases ha
      exact ⟨hlinked, htimer, hlater.trans ((htimes p).2.1.trans (htimes p).2.2), hfit⟩
  · rcases hwas : s.alarm p with _ | a
    · obtain ⟨hquiet, -⟩ := @Rep.tick_idle P _ board s test rearm h p hwas
      refine ⟨?_, fun hmem => absurd hmem hquiet, fun a ha => by cases ha⟩
      rw [List.count_eq_zero_of_not_mem hquiet]
      exact Nat.zero_le _
    have hlater : a.since ≤ test p := (h.armed p a hwas).2.2.1.trans (htimes p).1
    rcases @Rep.tick_alarm P _ board s test rearm h p a hwas with ⟨hout, hcount, -⟩ | ⟨hwait, hquiet, -⟩
    · refine ⟨hcount.le, fun _ => ⟨a, rfl, time_out_elapsed hlater hout⟩, fun b hb _ => ?_⟩
      exact List.count_pos_iff.mp (by omega)
    refine ⟨?_, fun hmem => absurd hmem hquiet, fun b hb hdue => ?_⟩
    · rw [List.count_eq_zero_of_not_mem hquiet]
      exact Nat.zero_le _
    · cases hb
      exact absurd (time_out_of_elapsed ((hok p a hwas).2 hdue) hdue) hwait

end Tick

/-! ## Runs -/

theorem Rep.step {board : Board} {s s' : State P} {e : Event P} (h : Rep board s) (hok : Ok board s e)
    (hstep : Itimer.step board s e s') : Rep board s' ∧ Right board s e := by
  cases e with
  | advance d =>
    obtain ⟨-, rfl⟩ := hstep
    refine ⟨⟨h.nodup, h.idle, fun p a ha => ?_⟩, trivial⟩
    obtain ⟨hlinked, htimer, hsince, hfit⟩ := h.armed p a ha
    exact ⟨hlinked, htimer, Nat.le_add_right_of_le hsince, hfit⟩
  | setitimer p which value ovalue => exact h.setitimer hok hstep
  | tick test rearm after => exact h.tick hok hstep

/-- **Interval timers.** In a run whose events meet the condition every event is right, and no process ever has more than
one alarm timer pending. -/
theorem itimer_right (board : Board) {s₀ s s' : State P} {es : List (Event P)} {e : Event P} (h₀ : Initial s₀)
    (hrun : Run (Guarded (step board) (Ok board)) s₀ es s) (hok : Ok board s e) (hstep : step board s e s') :
    Right board s e ∧ (∀ p, s.timers.entry.count p ≤ 1) ∧ ∀ p, s'.timers.entry.count p ≤ 1 := by
  have hrep : Rep board s := by
    refine hrun.invariant (fun s e s' h hs => ?_) (h₀.rep board)
    exact (h.step hs.1 hs.2).1
  obtain ⟨hrep', hright⟩ := hrep.step hok hstep
  exact ⟨hright, fun p => List.nodup_iff_count_le_one.mp hrep.nodup p,
    fun p => List.nodup_iff_count_le_one.mp hrep'.nodup p⟩

/-- No timer, and no time gone by. -/
def idle : State Unit where
  now := 0
  timers := ⟨[], fun _ => ⟨0, 0, 0, 0⟩⟩
  alarm := fun _ => none

theorem idle_initial : Initial idle := ⟨rfl, fun _ => ⟨rfl, rfl⟩, fun _ => rfl⟩

/-- One second, once. -/
def once : itimerval := ⟨⟨0, 0⟩, ⟨1, 0⟩⟩

def stop : itimerval := ⟨⟨0, 0⟩, ⟨0, 0⟩⟩

/-- A little more than a second later. -/
def late (_ : Unit) : Nat := 13000000

/-- One event after the other. -/
def after (s : State Unit) (es : List (Event Unit)) : State Unit := es.foldl (next .qemu) s

/-- An alarm that is stopped goes off, and a call before that takes its second for 80. -/
theorem stopped_goes_off :
    (¬∀ (board : Board) (s₀ s s' : State Unit) (es : List (Event Unit)) (e : Event Unit),
      Initial s₀ → Run (step board) s₀ es s → step board s e s' → Right board s e) ∧
    ((next .qemu idle (.setitimer () ITIMER_REAL once false)).call .qemu () ITIMER_REAL stop true).2 =
      (0, some ⟨⟨0, 0⟩, ⟨80, 0⟩⟩) := by
  refine ⟨fun hclaim => ?_, by decide +kernel⟩
  let es : List (Event Unit) :=
    [.setitimer () ITIMER_REAL once false, .setitimer () ITIMER_REAL stop false, .advance 13000000]
  have hrun : Run (step .qemu) idle es (after idle es) :=
    .cons ⟨trivial, rfl⟩ (.cons ⟨trivial, rfl⟩ (.cons ⟨trivial, rfl⟩ (.nil _)))
  have hright := hclaim .qemu idle _ _ _ (.tick late late 13000000) idle_initial hrun
    ⟨fun _ => ⟨le_refl 13000000, le_refl 13000000, le_refl 13000000⟩, rfl⟩
  obtain ⟨a, ha, -⟩ := (hright ()).2.1 (by decide +kernel)
  have hnone : (after idle es).alarm () = none := by decide +kernel
  rw [hnone] at ha
  cases ha

/-- An alarm goes off after its second. -/
theorem itimer_right_once : ∃ s : State Unit, Run (Guarded (step .qemu) (Ok .qemu)) idle
      [.setitimer () ITIMER_REAL once true, .advance 13000000] s ∧
    Right .qemu s (.tick late late 13000000) ∧ s.signals .qemu late late = [()] := by
  have hrun : Run (Guarded (step .qemu) (Ok .qemu)) idle [.setitimer () ITIMER_REAL once true, .advance 13000000]
      (after idle [.setitimer () ITIMER_REAL once true, .advance 13000000]) := by
    refine .cons ⟨fun _ _ => ⟨.inl rfl, fun _ => ⟨by decide, by decide⟩⟩, trivial, rfl⟩ ?_
    exact .cons ⟨trivial, trivial, rfl⟩ (.nil _)
  have halarm : (after idle [.setitimer () ITIMER_REAL once true, .advance 13000000]).alarm () =
      some ⟨⟨1, 0⟩, ⟨0, 0⟩, 0, 1000000000⟩ := by decide +kernel
  have hok : Ok .qemu (after idle [.setitimer () ITIMER_REAL once true, .advance 13000000])
      (.tick late late 13000000) := by
    have hfit : TIME2NS .qemu 13000000 < 2 ^ 64 := by decide
    intro p a ha
    rw [halarm] at ha
    cases ha
    refine ⟨fun _ => ?_, fun _ => ?_⟩
    · show 0 + TIME2NS .qemu 13000000 < 2 ^ 64
      rw [Nat.zero_add]
      exact hfit
    · show 0 * 1000000000 / 2 ^ 64 = 13000000 * 1000000000 / 2 ^ 64
      decide
  have hforward : Forward (after idle [.setitimer () ITIMER_REAL once true, .advance 13000000])
      (.tick late late 13000000) := fun _ => ⟨le_refl 13000000, le_refl 13000000, le_refl 13000000⟩
  exact ⟨_, hrun, (itimer_right .qemu idle_initial hrun hok ⟨hforward, rfl⟩).1, by decide +kernel⟩

end LostWakeup.Process.Itimer
