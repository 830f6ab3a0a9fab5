/-
# LostWakeup.Ipc.Signal — signal sets, the queue of pending signals, and the operations on them.

What is pending for a thread is kept three times: as a bit in `pending.signal`, as an entry of the queue
`pending.list`, and in the count `sig_pending_cnt`.  A signal number comes from user code unchecked; it is
kept here as the number it stands for, since `valid_signal` and the shift counts are all that looks at it.
-/
import LostWakeup.Library.Words
import LostWakeup.Library.CInt

namespace LostWakeup.Ipc.Signal

open Library

/-! ## Signals and sets of signals -/

abbrev sig_t := Int

abbrev sigset_t := Word

def SIGKILL : sig_t := 9
def SIGTERM : sig_t := 15
def SIGSTOP : sig_t := 17
def SIGCHLD : sig_t := 20

def _NSIG : Int := 64

def valid_signal (sig : Int) : Bool := sig ≤ _NSIG && sig ≥ 1

/-- The count of the shifts by `sig - 1`: RV64 takes the low six bits, and C says nothing past 63. -/
def shift (sig : Int) : Nat := ((sig - 1) % 64).toNat

def sig_gen_mask (sig : sig_t) : sigset_t := 1#64 <<< shift sig

def sig_add_set (set : sigset_t) (sig : sig_t) : sigset_t := set ||| sig_gen_mask sig

def sig_del_set_mask (set mask : sigset_t) : sigset_t := set &&& ~~~mask

def sig_is_member (set : sigset_t) (n_sig : sig_t) : Bool := 1#64 &&& (set >>> shift n_sig) != 0

def sig_test_mask (set mask : sigset_t) : Bool := set &&& mask != 0

def sig_or (x y : sigset_t) : sigset_t := x ||| y

def sig_and (x y : sigset_t) : sigset_t := x &&& y

theorem shift_lt (sig : sig_t) : shift sig < 64 := by
  unfold shift
  omega

/-- The signals have the numbers from 1 to 64. -/
theorem valid_signal_iff (sig : Int) : valid_signal sig = true ↔ 1 ≤ sig ∧ sig ≤ 64 := by
  rw [valid_signal, Bool.and_eq_true, decide_eq_true_eq, decide_eq_true_eq, _NSIG]
  exact and_comm

/-- No two signals have one bit. -/
theorem shift_inj {s s' : Int} (hs : valid_signal s) (hs' : valid_signal s') (h : shift s = shift s') : s = s' := by
  rw [valid_signal_iff] at hs hs'
  unfold shift at h
  omega

/-- The mask of a signal is its bit. -/
theorem sig_gen_mask_bit (sig : sig_t) (i : Nat) : (sig_gen_mask sig).getLsbD i = decide (i = shift sig) := by
  have h := shift_lt sig
  rw [sig_gen_mask, BitVec.getLsbD_shiftLeft, BitVec.getLsbD_one, Bool.eq_iff_iff]
  simp only [Bool.and_eq_true, Bool.not_eq_true', decide_eq_true_eq, decide_eq_false_iff_not]
  omega

@[simp] theorem sig_is_member_eq (set : sigset_t) (sig : sig_t) : sig_is_member set sig = set.getLsbD (shift sig) := by
  have hbit : 1#64 &&& (set >>> shift sig) = if set.getLsbD (shift sig) then 1#64 else 0#64 := by
    apply BitVec.eq_of_getLsbD_eq
    intro i hi
    rw [BitVec.getLsbD_and, BitVec.getLsbD_ushiftRight, BitVec.getLsbD_one]
    rcases Nat.eq_zero_or_pos i with rfl | hpos
    · cases set.getLsbD (shift sig) <;> simp
    · cases set.getLsbD (shift sig) <;> simp [hpos.ne', BitVec.getLsbD_one]
  rw [sig_is_member, hbit]
  cases set.getLsbD (shift sig) <;> rfl

/-- A signal added is one bit more. -/
theorem sig_add_set_bit (set : sigset_t) (sig : sig_t) (i : Nat) :
    (sig_add_set set sig).getLsbD i = (set.getLsbD i || decide (i = shift sig)) := by
  rw [sig_add_set, BitVec.getLsbD_or, sig_gen_mask_bit]

theorem sig_del_set_mask_bit (set mask : sigset_t) {i : Nat} (hi : i < 64) :
    (sig_del_set_mask set mask).getLsbD i = (set.getLsbD i && !mask.getLsbD i) := by
  simp [sig_del_set_mask, hi]

/-- The test fails if the sets have no signal in common. -/
theorem sig_test_mask_eq_false (set mask : sigset_t) :
    sig_test_mask set mask = false ↔ ∀ i, set.getLsbD i = true → mask.getLsbD i = false := by
  have hne : sig_test_mask set mask = false ↔ set &&& mask = 0#64 := by simp [sig_test_mask]
  rw [hne]
  constructor
  · intro h i hset
    have hi := congrArg (fun x => x.getLsbD i) h
    simpa [hset] using hi
  intro h
  apply BitVec.eq_of_getLsbD_eq
  intro i _
  rw [BitVec.getLsbD_and, BitVec.getLsbD_zero]
  cases hset : set.getLsbD i
  · rfl
  · rw [h i hset]
    rfl

theorem sig_test_mask_gen (mask : sigset_t) (sig : sig_t) :
    (mask &&& sig_gen_mask sig != 0) = mask.getLsbD (shift sig) := by
  have h := sig_test_mask_eq_false (sig_gen_mask sig) mask
  have hcomm : (mask &&& sig_gen_mask sig != 0) = sig_test_mask (sig_gen_mask sig) mask := by
    rw [sig_test_mask, BitVec.and_comm]
  rw [hcomm]
  cases hm : mask.getLsbD (shift sig)
  · apply h.mpr
    intro i hi
    rw [sig_gen_mask_bit, decide_eq_true_eq] at hi
    rw [hi, hm]
  rw [← Bool.not_eq_false]
  intro hf
  have hbit := h.mp hf (shift sig) (by simp [sig_gen_mask_bit])
  rw [hm] at hbit
  cases hbit

/-! ## Actions and pending signals -/

/-- `sa_handler` is a user address, or one of the two values below. -/
structure sigaction where
  sa_handler : Word
  sa_mask : sigset_t
  deriving DecidableEq

def SIG_DFL : Word := 0
def SIG_IGN : Word := 1

structure siginfo_t where
  si_signo : sig_t
  si_code : Nat
  deriving DecidableEq

def SI_USER : Nat := 0
def SI_KERNEL : Nat := 0x80

/-- `signal_info_init`, for a sender in user code or in the kernel; `si_signo` is an `int`. -/
def signal_info_init (sig : sig_t) (kernel : Bool) : siginfo_t :=
  ⟨int32 sig, if kernel then SI_KERNEL else SI_USER⟩

/-- The queue, without its links, and the set. -/
structure sigpending where
  list : List siginfo_t
  signal : sigset_t
  deriving DecidableEq

def sigpending_init : sigpending := ⟨[], 0⟩

/-- `signal_queue_pop`; `false` is the return value 0. -/
def signal_queue_pop (mask : sigset_t) (pending : sigpending) : sigpending × Bool :=
  if sig_test_mask pending.signal mask = false then
    (pending, false)
  else
    (⟨pending.list.filter fun info => !(valid_signal info.si_signo && mask &&& sig_gen_mask info.si_signo != 0),
      sig_del_set_mask pending.signal mask⟩, true)

def signal_queue_flush (_pending : sigpending) : sigpending := ⟨[], 0⟩

/-! ## The trap frame -/

/-- The words of `struct trapframe`, by offset. -/
structure trapframe where
  word : Fin 70 → Word

instance neZero_words : NeZero 70 := ⟨Nat.succ_ne_zero 69⟩

namespace trapframe

def epc (tf : trapframe) : Word := tf.word 3
def sp (tf : trapframe) : Word := tf.word 6
def a0 (tf : trapframe) : Word := tf.word 14

def set (tf : trapframe) (i : Fin 70) (value : Word) : trapframe := ⟨Function.update tf.word i value⟩

@[ext] theorem ext {tf tf' : trapframe} (h : ∀ i, tf.word i = tf'.word i) : tf = tf' := by
  cases tf
  cases tf'
  congr
  exact funext h

@[simp] theorem set_self (tf : trapframe) (i : Fin 70) (value : Word) : (tf.set i value).word i = value :=
  Function.update_self ..

theorem set_ne (tf : trapframe) {i j : Fin 70} (value : Word) (h : j ≠ i) : (tf.set i value).word j = tf.word j :=
  Function.update_of_ne h ..

theorem set_word (tf : trapframe) (i : Fin 70) (value : Word) : tf.set i value = tf ↔ tf.word i = value := by
  constructor
  · intro h
    rw [← h, set_self]
  · intro h
    rw [set, ← h, Function.update_eq_self]

end trapframe

/-! ## Threads -/

instance neZero_actions : NeZero 64 := ⟨Nat.succ_ne_zero 63⟩

/-- The part of `struct tcb` that signals use; `action` is that of `sig`. -/
structure tcb where
  killed : Bool
  sig_pending_cnt : Int
  action : Fin 64 → sigaction
  blocked : sigset_t
  pending : sigpending
  sig_ing : sig_t
  trapframe : trapframe

namespace tcb

def sig_ignored (t : tcb) (sig : sig_t) : Bool := sig_is_member t.blocked sig

def sig_existed (t : tcb) (sig : sig_t) : Bool := sig_is_member t.pending.signal sig

/-- `t->sig->action[signo - 1]`, for a valid signal. -/
def sig_action (t : tcb) (signo : sig_t) : sigaction := t.action (Fin.ofNat 64 (signo - 1).toNat)

/-- What `alloc_thread` does to signals. -/
def alloc_thread (t : tcb) : tcb := { t with sig_pending_cnt := 0, blocked := 0, pending := sigpending_init }

/-- What `free_thread` does to signals. -/
def free_thread (t : tcb) : tcb :=
  { t with sig_pending_cnt := 0, sig_ing := 0, pending := signal_queue_flush t.pending, killed := false }

/-- `signal_send`; `page` says whether `kalloc` has one for the entry. -/
def signal_send (info : siginfo_t) (t : tcb) (page : Bool) : tcb :=
  let sig := info.si_signo
  if t.sig_existed sig then t
  else
    let killed := t.killed || sig = SIGKILL || sig = SIGSTOP || sig = SIGTERM
    if page = false then { t with killed := killed }
    else
      { t with
        killed := killed
        sig_pending_cnt := t.sig_pending_cnt + 1
        pending := ⟨t.pending.list ++ [info], sig_add_set t.pending.signal sig⟩ }

/-- `signal_DFL`; the `waitpid` of its `SIGCHLD` branch has no effect on the signals of the thread. -/
def signal_DFL (t : tcb) (signo : sig_t) : tcb := if signo = SIGKILL then { t with killed := true } else t

def do_sigaction (t : tcb) (sig : sig_t) (act : Option sigaction) : tcb :=
  match valid_signal sig, act with
  | true, some act =>
    -- the macro has no parentheses around its mask: `~` is of the first signal only
    let act := { act with sa_mask := act.sa_mask &&& (~~~sig_gen_mask SIGKILL ||| sig_gen_mask SIGSTOP) }
    { t with action := Function.update t.action (Fin.ofNat 64 (sig - 1).toNat) act }
  | _, _ => t

inductive How
  | SIG_BLOCK
  | SIG_UNBLOCK
  | SIG_SETMASK

def do_sigprocmask (t : tcb) (how : How) (set : sigset_t) : tcb :=
  match how with
  | .SIG_BLOCK => { t with blocked := sig_or t.blocked set }
  | .SIG_UNBLOCK => { t with blocked := sig_and t.blocked set }
  | .SIG_SETMASK => { t with blocked := set }

end tcb

end LostWakeup.Ipc.Signal
