/-
# LostWakeup.Atomic.Tokens — the two counters of a semaphore, as its callers move them.

A caller of `sema_wait` that finds no token sleeps until it takes a wake-up, and `sema_signal` leaves a token or a
wake-up.  Which of the sleepers are woken, and how often in vain, is left to the models that use the counters.
-/
import LostWakeup.Library.Count

namespace LostWakeup.Atomic

/-- `value` and `wakeup` of a `struct semaphore`. -/
structure sem where
  value : Int
  wakeup : Int
  deriving DecidableEq

namespace sem

/-- `S->value--`. -/
def down (S : sem) : sem := { S with value := S.value - 1 }

/-- Whether the caller of `sema_wait` goes to sleep. -/
def sleeps (S : sem) : Bool := S.down.value < 0

/-- `S->wakeup--`, at the end of the loop of `sema_wait`. -/
def resume (S : sem) : sem := { S with wakeup := S.wakeup - 1 }

def sema_signal (S : sem) : sem :=
  let S := { S with value := S.value + 1 }
  if S.value ≤ 0 then { S with wakeup := S.wakeup + 1 } else S

/-- The tokens that are there, for anyone or for a sleeper. -/
def tokens (S : sem) : Int := max 0 S.value + S.wakeup

/-- As many sleepers as the semaphore knows of: those that it owes a token and those that it has given a wake-up. -/
structure Owes (S : sem) (waiting : Nat) : Prop where
  waiting_eq : (waiting : Int) = max 0 (-S.value) + S.wakeup
  wakeup_nonneg : 0 ≤ S.wakeup

section

variable {S : sem} {waiting : Nat}

/-- Whoever need not sleep has taken a token. -/
theorem tokens_down (S : sem) : S.down.tokens = S.tokens - if S.sleeps then 0 else 1 := by
  cases hs : S.sleeps with
  | true =>
    have hval : S.value - 1 < 0 := by simpa [sleeps, down] using hs
    simp only [tokens, down, if_true]
    omega
  | false =>
    have hval : 1 ≤ S.value := by simpa [sleeps, down] using hs
    simp only [tokens, down, Bool.false_eq_true, if_false]
    omega

/-- A sleeper that goes on takes the token of its wake-up. -/
theorem tokens_resume (S : sem) : S.resume.tokens = S.tokens - 1 := by
  simp only [tokens, resume]
  omega

/-- A signal adds one token, for a sleeper or for anyone. -/
theorem tokens_signal (S : sem) : S.sema_signal.tokens = S.tokens + 1 := by
  unfold sema_signal
  dsimp only
  split
  · simp only [tokens]
    omega
  · simp only [tokens]
    omega

theorem wakeup_signal (S : sem) (h : 0 ≤ S.wakeup) : 0 ≤ S.sema_signal.wakeup := by
  unfold sema_signal
  dsimp only
  split
  · show 0 ≤ S.wakeup + 1
    omega
  · exact h

theorem Owes.congr {waiting' : Nat} (h : S.Owes waiting) (heq : waiting' = waiting) : S.Owes waiting' := heq ▸ h

theorem Owes.value_eq (h : S.Owes waiting) : S.value = S.tokens - waiting := by
  rw [h.waiting_eq, tokens]
  omega

/-- A caller that takes a token waits for none. -/
theorem Owes.take (h : S.Owes waiting) (hs : S.sleeps = false) : S.down.Owes waiting := by
  have hval : 1 ≤ S.value := by simpa [sleeps, down] using hs
  have hwait := h.waiting_eq
  refine ⟨?_, h.wakeup_nonneg⟩
  simp only [down]
  omega

/-- A caller that goes to sleep is one more. -/
theorem Owes.sleep (h : S.Owes waiting) (hs : S.sleeps = true) : S.down.Owes (waiting + 1) := by
  have hval : S.value - 1 < 0 := by simpa [sleeps, down] using hs
  have hwait := h.waiting_eq
  refine ⟨?_, h.wakeup_nonneg⟩
  simp only [down]
  omega

theorem Owes.resume (h : S.Owes (waiting + 1)) (hw : 0 < S.wakeup) : S.resume.Owes waiting := by
  have hwait := h.waiting_eq
  constructor
  · simp only [sem.resume]
    omega
  · simp only [sem.resume]
    omega

/-- A signal makes a wake-up of what the semaphore owes. -/
theorem Owes.signal (h : S.Owes waiting) : S.sema_signal.Owes waiting := by
  have hwait := h.waiting_eq
  refine ⟨?_, wakeup_signal S h.wakeup_nonneg⟩
  unfold sema_signal
  dsimp only
  split
  · simp only
    omega
  · simp only
    omega

end

end sem

end LostWakeup.Atomic
