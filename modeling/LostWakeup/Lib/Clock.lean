/-
# LostWakeup.Lib.Clock — `common.h`, `timer.h`: what the counter of the clock is converted to.

The counter has 64 bits and advances by one `FREQUENCY`-th of a second.  `TIME2NS` and `TIME2US` multiply it before they
divide, modulo `2^64`; `TIME2SEC` only divides.  The clocks of the system calls and the deadlines of timers are all
taken from these.
-/
import Mathlib.Order.Basic
import Mathlib.Tactic.ByContra
import LostWakeup.Library.CInt

namespace LostWakeup.Lib.Clock

open Library

/-! ## The conversions -/

/-- The machines that the kernel is built for. -/
inductive Board
  | qemu
  | sifive
  deriving DecidableEq

def FREQUENCY : Board → Nat
  | .qemu => 12500000
  | .sifive => 1000000

def mul64 (a b : Nat) : Nat := a * b % 2 ^ 64

def TIME2SEC (board : Board) (time : Nat) : Nat := time / FREQUENCY board

def TIME2US (board : Board) (time : Nat) : Nat := mul64 time 1000000 / FREQUENCY board

def TIME2NS (board : Board) (time : Nat) : Nat := mul64 time 1000000000 / FREQUENCY board

structure timespec where
  ts_sec : Nat
  ts_nsec : Nat
  deriving DecidableEq

structure timeval where
  tv_sec : Nat
  tv_usec : Nat
  deriving DecidableEq

def TIME2TIMESPEC (board : Board) (time : Nat) : timespec := ⟨TIME2SEC board time, TIME2NS board time % 1000000000⟩

def TIME2TIMEVAL (board : Board) (time : Nat) : timeval := ⟨TIME2SEC board time, TIME2US board time % 1000000⟩

/-- `TIME_OUT`, for a timer that expires at `expires_end`. -/
def TIME_OUT (board : Board) (time expires_end : Nat) : Prop := TIME2NS board time > expires_end

/-- `sys_clock_gettime`: the return value, and what the user finds; the clock that was asked for does not matter. -/
def sys_clock_gettime (board : Board) (time : Nat) (copyout : Bool) : Int × Option timespec :=
  if copyout then (0, some (TIME2TIMESPEC board time)) else (-1, none)

def sys_gettimeofday (board : Board) (time : Nat) (copyout : Bool) : Int × Option timeval :=
  if copyout then (0, some (TIME2TIMEVAL board time)) else (-1, none)

/-! ## A right clock -/

def timespec.Le (a b : timespec) : Prop := a.ts_sec < b.ts_sec ∨ a.ts_sec = b.ts_sec ∧ a.ts_nsec ≤ b.ts_nsec

def timeval.Le (a b : timeval) : Prop := a.tv_sec < b.tv_sec ∨ a.tv_sec = b.tv_sec ∧ a.tv_usec ≤ b.tv_usec

/-- While the counter goes up to `time`, every conversion is exact, and neither the clocks nor the deadline test go back. -/
structure RightUpTo (board : Board) (time : Nat) : Prop where
  ns : ∀ t, t ≤ time → TIME2NS board t = t * 1000000000 / FREQUENCY board
  us : ∀ t, t ≤ time → TIME2US board t = t * 1000000 / FREQUENCY board
  ns_mono : ∀ t t', t ≤ t' → t' ≤ time → TIME2NS board t ≤ TIME2NS board t'
  us_mono : ∀ t t', t ≤ t' → t' ≤ time → TIME2US board t ≤ TIME2US board t'
  timespec : ∀ t, t ≤ time → (TIME2TIMESPEC board t).ts_nsec < 1000000000 ∧
    (TIME2TIMESPEC board t).ts_sec * 1000000000 + (TIME2TIMESPEC board t).ts_nsec = t * 1000000000 / FREQUENCY board
  timeval : ∀ t, t ≤ time → (TIME2TIMEVAL board t).tv_usec < 1000000 ∧
    (TIME2TIMEVAL board t).tv_sec * 1000000 + (TIME2TIMEVAL board t).tv_usec = t * 1000000 / FREQUENCY board
  clock_gettime : ∀ t t' a b, t ≤ t' → t' ≤ time → (sys_clock_gettime board t true).2 = some a →
    (sys_clock_gettime board t' true).2 = some b → a.Le b
  gettimeofday : ∀ t t' a b, t ≤ t' → t' ≤ time → (sys_gettimeofday board t true).2 = some a →
    (sys_gettimeofday board t' true).2 = some b → a.Le b
  time_out : ∀ t t' expires_end, t ≤ t' → t' ≤ time → TIME_OUT board t expires_end → TIME_OUT board t' expires_end

/-! ## The product and its quotient -/

section Conversion

variable {board : Board} {time unit : Nat}

theorem frequency_pos (board : Board) : 0 < FREQUENCY board := by cases board <;> decide

theorem frequency_lt (board : Board) : FREQUENCY board < 2 ^ 64 := by cases board <;> decide

theorem mul64_of_lt (h : time * unit < 2 ^ 64) : mul64 time unit = time * unit := Nat.mod_eq_of_lt h

theorem quotient_iff : mul64 time unit / FREQUENCY board = time * unit / FREQUENCY board ↔ time * unit < 2 ^ 64 := by
  constructor
  · intro heq
    by_contra hwrap
    -- what wraps is at least one quotient more
    have hle : mul64 time unit + FREQUENCY board ≤ time * unit := by
      have hsplit : 2 ^ 64 * (time * unit / 2 ^ 64) + mul64 time unit = time * unit := Nat.div_add_mod _ _
      have hone : 1 ≤ time * unit / 2 ^ 64 := (Nat.one_le_div_iff (by decide)).mpr (by omega)
      have hfreq := frequency_lt board
      omega
    have hdiv := @Nat.div_le_div_right _ _ (FREQUENCY board) hle
    rw [Nat.add_div_right _ (frequency_pos board)] at hdiv
    omega
  · intro h
    rw [mul64_of_lt h]

theorem sec_eq (hunit : 0 < unit) : time * unit / FREQUENCY board / unit = time / FREQUENCY board := by
  rw [Nat.div_div_eq_div_mul, Nat.mul_div_mul_right _ _ hunit]

theorem parts (hunit : 0 < unit) :
    time / FREQUENCY board * unit + time * unit / FREQUENCY board % unit = time * unit / FREQUENCY board := by
  rw [← sec_eq hunit, Nat.mul_comm]
  exact Nat.div_add_mod _ _

theorem parts_le {a b : Nat} (h : a ≤ b) : a / unit < b / unit ∨ a / unit = b / unit ∧ a % unit ≤ b % unit := by
  rcases Nat.lt_or_eq_of_le (@Nat.div_le_div_right _ _ unit h) with hlt | heq
  · exact .inl hlt
  refine .inr ⟨heq, ?_⟩
  have ha := Nat.div_add_mod a unit
  have hb := Nat.div_add_mod b unit
  rw [heq] at ha
  omega

theorem quotient_mono {t t' : Nat} (h : t ≤ t') : t * unit / FREQUENCY board ≤ t' * unit / FREQUENCY board :=
  Nat.div_le_div_right (Nat.mul_le_mul_right unit h)

end Conversion

/-- **Clock conversion.** The clock is right up to a reading of the counter if and only if its number of nanoseconds,
before the division, fits into 64 bits. -/
theorem rightUpTo_iff (board : Board) (time : Nat) : RightUpTo board time ↔ time * 1000000000 < 2 ^ 64 := by
  constructor
  · intro h
    exact quotient_iff.mp (h.ns time (le_refl time))
  intro hfit
  have hns : ∀ t, t ≤ time → TIME2NS board t = t * 1000000000 / FREQUENCY board := by
    intro t ht
    exact quotient_iff.mpr (Nat.lt_of_le_of_lt (Nat.mul_le_mul_right _ ht) hfit)
  have hus : ∀ t, t ≤ time → TIME2US board t = t * 1000000 / FREQUENCY board := by
    intro t ht
    exact quotient_iff.mpr (Nat.lt_of_le_of_lt (Nat.mul_le_mul ht (by decide)) hfit)
  have hns_mono : ∀ t t', t ≤ t' → t' ≤ time → TIME2NS board t ≤ TIME2NS board t' := by
    intro t t' hle ht
    rw [hns t (hle.trans ht), hns t' ht]
    exact quotient_mono hle
  have hus_mono : ∀ t t', t ≤ t' → t' ≤ time → TIME2US board t ≤ TIME2US board t' := by
    intro t t' hle ht
    rw [hus t (hle.trans ht), hus t' ht]
    exact quotient_mono hle
  refine ⟨hns, hus, hns_mono, hus_mono, ?_, ?_, ?_, ?_, ?_⟩
  · intro t ht
    rw [TIME2TIMESPEC, TIME2SEC, hns t ht]
    exact ⟨@Nat.mod_lt _ 1000000000 (by decide), @parts board t 1000000000 (by decide)⟩
  · intro t ht
    rw [TIME2TIMEVAL, TIME2SEC, hus t ht]
    exact ⟨@Nat.mod_lt _ 1000000 (by decide), @parts board t 1000000 (by decide)⟩
  · intro t t' a b hle ht ha hb
    obtain rfl := Option.some.inj ha
    obtain rfl := Option.some.inj hb
    rw [TIME2TIMESPEC, TIME2TIMESPEC, TIME2SEC, TIME2SEC, hns t (hle.trans ht), hns t' ht,
      ← @sec_eq board t 1000000000 (by decide), ← @sec_eq board t' 1000000000 (by decide)]
    exact parts_le (quotient_mono hle)
  · intro t t' a b hle ht ha hb
    obtain rfl := Option.some.inj ha
    obtain rfl := Option.some.inj hb
    rw [TIME2TIMEVAL, TIME2TIMEVAL, TIME2SEC, TIME2SEC, hus t (hle.trans ht), hus t' ht,
      ← @sec_eq board t 1000000 (by decide), ← @sec_eq board t' 1000000 (by decide)]
    exact parts_le (quotient_mono hle)
  · intro t t' expires_end hle ht hout
    exact hout.trans_le (hns_mono t t' hle ht)

/-- Under qemu the clock is set back when it has run for less than 25 minutes. -/
theorem clock_set_back : ¬ RightUpTo .qemu 18446744074 ∧
    TIME2NS .qemu 18446744073 = 1475739525840 ∧ TIME2NS .qemu 18446744074 = 23 ∧
    (sys_clock_gettime .qemu 18446744073 true).2 = some ⟨1475, 739525840⟩ ∧
    (sys_clock_gettime .qemu 18446744074 true).2 = some ⟨1475, 23⟩ := by
  have hback : TIME2NS .qemu 18446744073 = 1475739525840 ∧ TIME2NS .qemu 18446744074 = 23 := by decide
  refine ⟨fun h => ?_, hback.1, hback.2, by decide, by decide⟩
  have hle := h.ns_mono 18446744073 18446744074 (by decide) (le_refl _)
  rw [hback.1, hback.2] at hle
  exact absurd hle (by decide)

end LostWakeup.Lib.Clock
