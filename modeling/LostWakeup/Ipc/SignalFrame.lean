/-
# LostWakeup.Ipc.SignalFrame — the frame of a signal handler, written and read back.

`setup_rt_frame` saves the trap frame and the blocked set below the stack pointer through `copyout`; `SIGRETURN` reads
them back through `copyin`.  Nobody looks at what `copyout` returns, the frame is read in two parts, and the result of
the system call goes into the `a0` that was just restored.
-/
import LostWakeup.Ipc.Signal
import LostWakeup.Mm.Vm

namespace LostWakeup.Ipc.Signal

open Library Mm Mm.Vma Mm.Vm

/-! ## The frame -/

structure ucontext where
  tf : trapframe
  uc_sigmask : sigset_t
  sig_ing : sig_t

namespace ucontext

/-- The struct as its words; `sig_ing` is a `uint64`. -/
def words (uc : ucontext) : List Word := List.ofFn uc.tf.word ++ [uc.uc_sigmask, BitVec.ofInt 64 uc.sig_ing]

def ofWords (ws : List Word) : ucontext where
  tf := ⟨fun i => ws.getD i 0⟩
  uc_sigmask := ws.getD 70 0
  sig_ing := (ws.getD 71 0).toNat

@[simp] theorem words_length (uc : ucontext) : uc.words.length = 72 := by simp [words]

theorem ofWords_words_tf (uc : ucontext) : (ofWords uc.words).tf = uc.tf := by
  apply trapframe.ext
  intro i
  have hlen : (List.ofFn uc.tf.word).length = 70 := List.length_ofFn
  show uc.words.getD i 0 = uc.tf.word i
  rw [List.getD_eq_getElem?_getD, words, List.getElem?_append_left (by omega), List.getElem?_ofFn, dif_pos i.isLt]
  rfl

theorem ofWords_words_mask (uc : ucontext) : (ofWords uc.words).uc_sigmask = uc.uc_sigmask := by
  have hlen : (List.ofFn uc.tf.word).length = 70 := List.length_ofFn
  show uc.words.getD 70 0 = uc.uc_sigmask
  rw [List.getD_eq_getElem?_getD, words, List.getElem?_append_right (by omega), hlen]
  rfl

end ucontext

/-- `sizeof(struct ucontext)`. -/
def sizeof_ucontext : Nat := 576

/-- `sizeof(ucontext_t)`: it is laid out as 120 words, and comes first in `struct rt_sigframe`. -/
def sizeof_ucontext_t : Nat := 960

def sizeof_rt_sigframe : Nat := 1536

/-- The `ucontext_t` of a new frame. -/
def uc_riscv : List Word := List.replicate 120 0

/-- `uc_mcontext.__gregs[0]`, at offset 176. -/
def MC_PC (ws : List Word) : Word := ws.getD 22 0

/-- `&rtf->uc`. -/
def ucAddr (rtf : Word) : Nat := (rtf + BitVec.ofNat 64 sizeof_ucontext_t).toNat

/-- The bytes at `&rtf->uc`. -/
def readUc (k : Phys) (pt : PageTable) (rtf : Word) : Option (List UInt8) := copyin k pt (ucAddr rtf) sizeof_ucontext

/-- The bytes at `&rtf->uc_riscv`. -/
def readRiscv (k : Phys) (pt : PageTable) (rtf : Word) : Option (List UInt8) := copyin k pt rtf.toNat sizeof_ucontext_t

def get_sigframe (tf : trapframe) : Word := (tf.sp - BitVec.ofNat 64 sizeof_rt_sigframe) &&& ~~~0xf

def SIGRETURN : Word := BitVec.ofNat 64 (MAXVA - 2 * PGSIZE)

/-- `signal_frame_setup`; `false` is the return value `-1`. -/
def signal_frame_setup (files : Files) (mm : mm_struct) (k : Phys) (pt : PageTable) (set : sigset_t) (tf : trapframe)
    (rtf : Word) (signo : sig_t) : Except Vm.Panic (Phys × PageTable × Bool) := do
  let (k, pt, ok) ← copyout files mm k pt (ucAddr rtf) (wordsBytes (ucontext.words ⟨tf, set, signo⟩))
  if ok = false then return (k, pt, false)
  copyout files mm k pt rtf.toNat (wordsBytes uc_riscv)

/-- What `setup_rt_frame` leaves in the trap frame. -/
def redirect (sig : sigaction) (signo : sig_t) (tf : trapframe) : trapframe :=
  let rtf := get_sigframe tf
  (((((tf.set 5 SIGRETURN).set 3 sig.sa_handler).set 6 rtf).set 14 (BitVec.ofInt 64 signo)).set 15 0).set 16 rtf

def setup_rt_frame (files : Files) (mm : mm_struct) (k : Phys) (pt : PageTable) (sig : sigaction) (signo : sig_t)
    (set : sigset_t) (tf : trapframe) : Except Vm.Panic (Phys × PageTable × trapframe) := do
  let (k, pt, _) ← signal_frame_setup files mm k pt set tf (get_sigframe tf) signo
  return (k, pt, redirect sig signo tf)

/-- `signal_frame_restore`; `false` is the return value `-1`. -/
def signal_frame_restore (k : Phys) (pt : PageTable) (t : tcb) (rtf : Word) : tcb × Bool :=
  match readUc k pt rtf with
  | none => (t, false)
  | some bytes =>
    let uc := ucontext.ofWords (wordsOf 72 bytes)
    let t := { t with blocked := uc.uc_sigmask, trapframe := uc.tf, sig_ing := uc.sig_ing }
    match readRiscv k pt rtf with
    | none => (t, false)
    | some bytes =>
      let pc := MC_PC (wordsOf 120 bytes)
      if pc ≠ 0 then ({ t with trapframe := t.trapframe.set 3 pc }, true) else (t, true)

def EINTR : Int := 4

/-- `sys_rt_sigreturn`, with its return value. -/
def sys_rt_sigreturn (k : Phys) (pt : PageTable) (t : tcb) : tcb × Word :=
  let t := (signal_frame_restore k pt t t.trapframe.sp).1
  ({ t with pending := { t.pending with signal := sig_del_set_mask t.pending.signal (sig_gen_mask t.sig_ing) } },
    BitVec.ofInt 64 (-EINTR))

/-- `syscall`, for the system call that `SIGRETURN` makes. -/
def syscall_sigreturn (k : Phys) (pt : PageTable) (t : tcb) : tcb :=
  let (t, ret) := sys_rt_sigreturn k pt t
  { t with trapframe := t.trapframe.set 14 ret }

/-! ## The address of the frame -/

theorem and_not_fifteen (x : Word) : x &&& ~~~15#64 = (x >>> 4) <<< 4 := by
  apply BitVec.eq_of_getLsbD_eq
  intro i hi
  have hmask : (15#64).getLsbD i = decide (i < 4) := by
    rw [show (15#64) = BitVec.ofNat 64 (2 ^ 4 - 1) from rfl, BitVec.getLsbD_ofNat, Nat.testBit_two_pow_sub_one]
    simp [hi]
  rw [BitVec.getLsbD_and, BitVec.getLsbD_not, BitVec.getLsbD_shiftLeft, BitVec.getLsbD_ushiftRight, hmask]
  rcases lt_or_ge i 4 with hlow | hhigh
  · simp [hlow]
  · simp [hi, not_lt.mpr hhigh, Nat.add_sub_cancel' hhigh]

theorem get_sigframe_toNat (tf : trapframe) :
    (get_sigframe tf).toNat = (tf.sp - BitVec.ofNat 64 sizeof_rt_sigframe).toNat / 16 * 16 := by
  have h := (tf.sp - BitVec.ofNat 64 sizeof_rt_sigframe).isLt
  rw [get_sigframe, show (0xf : Word) = 15#64 from rfl, and_not_fifteen, BitVec.toNat_shiftLeft,
    BitVec.toNat_ushiftRight, Nat.shiftRight_eq_div_pow, Nat.shiftLeft_eq]
  omega

theorem get_sigframe_ne (tf : trapframe) : get_sigframe tf ≠ tf.sp := by
  intro h
  have hframe := get_sigframe_toNat tf
  rw [h, BitVec.toNat_sub, show (BitVec.ofNat 64 sizeof_rt_sigframe).toNat = 1536 from rfl] at hframe
  have := tf.sp.isLt
  omega

theorem redirect_ne (sig : sigaction) (signo : sig_t) (tf : trapframe) : redirect sig signo tf ≠ tf := by
  intro h
  apply get_sigframe_ne tf
  have hsp : (redirect sig signo tf).sp = get_sigframe tf := by simp [redirect, trapframe.sp, trapframe.set]
  rw [← hsp, h]

/-! ## A delivery and the return from it -/

/-- A signal is delivered to a thread, and later its handler returns. -/
structure Delivery where
  files : Files
  mm : mm_struct
  sig : sigaction
  signo : sig_t
  /-- The memory and the thread when the signal is delivered. -/
  phys : Phys
  pt : PageTable
  t : tcb
  /-- The memory and the thread in the system call that `SIGRETURN` makes. -/
  phys' : Phys
  pt' : PageTable
  t' : tcb

namespace Delivery

variable (d : Delivery)

def rtf : Word := get_sigframe d.t.trapframe

/-- What the frame is to hold. -/
def saved : ucontext := ⟨d.t.trapframe, d.t.blocked, d.signo⟩

/-- `copyout` of the frame returns, and `ok` says with what. -/
def Writes (ok : Bool) : Prop :=
  ∃ k pt, signal_frame_setup d.files d.mm d.phys d.pt d.t.blocked d.t.trapframe d.rtf d.signo = .ok (k, pt, ok)

/-- The trap frame that the handler starts with. -/
def handler : Option trapframe :=
  match setup_rt_frame d.files d.mm d.phys d.pt d.sig d.signo d.t.blocked d.t.trapframe with
  | .ok (_, _, tf) => some tf
  | .error _ => none

/-- The thread on its way back to user code. -/
def returned : tcb := syscall_sigreturn d.phys' d.pt' d.t'

/-- The handler has left its stack pointer and its frame as it found them. -/
structure Unmodified : Prop where
  sp : d.t'.trapframe.sp = d.rtf
  uc : readUc d.phys' d.pt' d.rtf = some (wordsBytes d.saved.words)
  riscv : readRiscv d.phys' d.pt' d.rtf = some (wordsBytes uc_riscv)

/-- One of the two reads of the frame fails. -/
def Unreadable : Prop :=
  readUc d.phys' d.pt' d.t'.trapframe.sp = none ∨ readRiscv d.phys' d.pt' d.t'.trapframe.sp = none

/-- The registers but for `a0`, which takes the result of the system call, and the blocked set. -/
def SameContext (tf tf' : trapframe) (set set' : sigset_t) : Prop := (∀ i, i ≠ 14 → tf.word i = tf'.word i) ∧ set = set'

/-- A handler that leaves its frame alone returns to the interrupted code; where the frame cannot be written the
thread stays where it is, and where it cannot be read nothing is restored. -/
structure RoundTrip : Prop where
  restored : d.Writes true → d.Unmodified →
    d.returned.trapframe = d.t.trapframe ∧ d.returned.blocked = d.t.blocked
  not_redirected : d.Writes false → d.handler = some d.t.trapframe
  not_half : d.Unreadable →
    SameContext d.returned.trapframe d.t'.trapframe d.returned.blocked d.t'.blocked

/-- The frame can be written, the interrupted code has `-EINTR` in `a0`, and the frame can be read whole or its
readable part is the thread's already. -/
structure Clean : Prop where
  a0 : d.Writes true → d.Unmodified → d.t.trapframe.a0 = BitVec.ofInt 64 (-EINTR)
  written : ¬ d.Writes false
  whole : ∀ bytes, readUc d.phys' d.pt' d.t'.trapframe.sp = some bytes →
    readRiscv d.phys' d.pt' d.t'.trapframe.sp = none →
    SameContext (ucontext.ofWords (wordsOf 72 bytes)).tf d.t'.trapframe
      (ucontext.ofWords (wordsOf 72 bytes)).uc_sigmask d.t'.blocked

/-! ## What the return does -/

variable {d}

theorem returned_trapframe : d.returned.trapframe =
    (signal_frame_restore d.phys' d.pt' d.t' d.t'.trapframe.sp).1.trapframe.set 14 (BitVec.ofInt 64 (-EINTR)) := rfl

theorem returned_blocked :
    d.returned.blocked = (signal_frame_restore d.phys' d.pt' d.t' d.t'.trapframe.sp).1.blocked := rfl

theorem restore_unmodified (h : d.Unmodified) :
    (signal_frame_restore d.phys' d.pt' d.t' d.t'.trapframe.sp).1.trapframe = d.t.trapframe ∧
      (signal_frame_restore d.phys' d.pt' d.t' d.t'.trapframe.sp).1.blocked = d.t.blocked := by
  have huc : wordsOf 72 (wordsBytes d.saved.words) = d.saved.words := by
    have hround := wordsOf_wordsBytes d.saved.words
    rwa [ucontext.words_length] at hround
  have hpc : MC_PC (wordsOf 120 (wordsBytes uc_riscv)) = 0 := by
    have hround : wordsOf 120 (wordsBytes uc_riscv) = uc_riscv := wordsOf_wordsBytes uc_riscv
    rw [hround]
    rfl
  unfold signal_frame_restore
  rw [h.sp, h.uc, h.riscv]
  simp only [huc, hpc, ne_eq, not_true_eq_false, if_false]
  exact ⟨ucontext.ofWords_words_tf _, ucontext.ofWords_words_mask _⟩

theorem restored_iff (h : d.Unmodified) :
    (d.returned.trapframe = d.t.trapframe ∧ d.returned.blocked = d.t.blocked) ↔
      d.t.trapframe.a0 = BitVec.ofInt 64 (-EINTR) := by
  obtain ⟨htf, hblocked⟩ := restore_unmodified h
  rw [returned_trapframe, returned_blocked, htf, hblocked, trapframe.set_word]
  exact and_iff_left rfl

theorem handler_of_writes {ok : Bool} (h : d.Writes ok) : d.handler = some (redirect d.sig d.signo d.t.trapframe) := by
  obtain ⟨k, pt, hsetup⟩ := h
  unfold handler setup_rt_frame
  rw [show get_sigframe d.t.trapframe = d.rtf from rfl, hsetup]
  rfl

theorem sameContext_set {tf tf' : trapframe} {set set' : sigset_t} (value : Word) :
    SameContext (tf.set 14 value) tf' set set' ↔ SameContext tf tf' set set' := by
  unfold SameContext
  apply and_congr_left
  intro _
  constructor
  · intro h i hi
    rw [← h i hi, trapframe.set_ne tf value hi]
  · intro h i hi
    rw [trapframe.set_ne tf value hi, h i hi]

theorem restore_of_unread (h : readUc d.phys' d.pt' d.t'.trapframe.sp = none) :
    (signal_frame_restore d.phys' d.pt' d.t' d.t'.trapframe.sp).1 = d.t' := by
  unfold signal_frame_restore
  rw [h]

theorem restore_of_half {bytes : List UInt8} (h : readUc d.phys' d.pt' d.t'.trapframe.sp = some bytes)
    (hriscv : readRiscv d.phys' d.pt' d.t'.trapframe.sp = none) :
    (signal_frame_restore d.phys' d.pt' d.t' d.t'.trapframe.sp).1.trapframe = (ucontext.ofWords (wordsOf 72 bytes)).tf ∧
      (signal_frame_restore d.phys' d.pt' d.t' d.t'.trapframe.sp).1.blocked =
        (ucontext.ofWords (wordsOf 72 bytes)).uc_sigmask := by
  unfold signal_frame_restore
  rw [h, hriscv]
  exact ⟨rfl, rfl⟩

theorem not_half_iff : (d.Unreadable → SameContext d.returned.trapframe d.t'.trapframe d.returned.blocked d.t'.blocked) ↔
    ∀ bytes, readUc d.phys' d.pt' d.t'.trapframe.sp = some bytes →
      readRiscv d.phys' d.pt' d.t'.trapframe.sp = none →
      SameContext (ucontext.ofWords (wordsOf 72 bytes)).tf d.t'.trapframe
        (ucontext.ofWords (wordsOf 72 bytes)).uc_sigmask d.t'.blocked := by
  rw [returned_trapframe, returned_blocked, sameContext_set]
  constructor
  · intro h bytes huc hriscv
    obtain ⟨htf, hblocked⟩ := restore_of_half huc hriscv
    rw [← htf, ← hblocked]
    exact h (.inr hriscv)
  intro h hunread
  rcases huc : readUc d.phys' d.pt' d.t'.trapframe.sp with _ | bytes
  · rw [restore_of_unread huc]
    exact ⟨fun _ _ => rfl, rfl⟩
  have hriscv := hunread.resolve_left (by rw [huc]; exact Option.some_ne_none bytes)
  obtain ⟨htf, hblocked⟩ := restore_of_half huc hriscv
  rw [htf, hblocked]
  exact h bytes huc hriscv

/-- **Signal frames.** A delivery and the return from its handler come out even if and only if the frame can be
written, the interrupted `a0` is the result that the return is given, and no half of the frame is taken over. -/
theorem signal_frame_round_trip (d : Delivery) : d.RoundTrip ↔ d.Clean := by
  have hredirect : (d.Writes false → d.handler = some d.t.trapframe) ↔ ¬ d.Writes false := by
    constructor
    · intro h hw
      have hsame := (handler_of_writes hw).symm.trans (h hw)
      exact redirect_ne _ _ _ (Option.some.inj hsame)
    · intro h hw
      exact absurd hw h
  constructor
  · intro h
    exact ⟨fun hw hu => (restored_iff hu).mp (h.restored hw hu), hredirect.mp h.not_redirected, not_half_iff.mp h.not_half⟩
  · intro h
    exact ⟨fun hw hu => (restored_iff hu).mpr (h.a0 hw hu), hredirect.mpr h.written, not_half_iff.mpr h.whole⟩

/-! ## A stack pointer with no memory below it -/

/-- SIGALRM is delivered to a thread whose `sp` is 0. -/
def noStack : Delivery where
  files := fun _ _ => none
  mm := Vma.fresh (fun _ => ⟨.VMA_ANON, 0, 0, 0, 0, none⟩) (fun _ => false) 0
  sig := ⟨0x1000, 0⟩
  signo := 14
  phys := ⟨fun _ => 0, fun _ => false, fun _ => 0, fun _ _ => 0, []⟩
  pt := uvmcreate
  t := ⟨false, 0, fun _ => ⟨0x1000, 0⟩, 0, sigpending_init, 0, ⟨fun _ => 0⟩⟩
  phys' := ⟨fun _ => 0, fun _ => false, fun _ => 0, fun _ _ => 0, []⟩
  pt' := uvmcreate
  t' := ⟨false, 0, fun _ => ⟨0x1000, 0⟩, 0, sigpending_init, 0, ⟨fun _ => 0⟩⟩

theorem copyout_past_maxva (files : Files) (mm : mm_struct) (k : Phys) (pt : PageTable) {dstva : Nat} {src : List UInt8}
    (hne : src ≠ []) (h : MAXVA ≤ PGROUNDDOWN dstva) : copyout files mm k pt dstva src = .ok (k, pt, false) := by
  obtain ⟨b, bs, rfl⟩ := List.exists_cons_of_ne_nil hne
  rw [copyout, List.length_cons, copyoutLoop, if_pos h]
  · rfl
  · exact hne

/-- The handler is entered with nothing saved. -/
theorem redirected_without_frame : ¬ noStack.RoundTrip := by
  intro h
  have hne : wordsBytes noStack.saved.words ≠ [] := by
    apply List.ne_nil_of_length_pos
    rw [wordsBytes_length, ucontext.words_length]
    decide
  have hwrites : noStack.Writes false := by
    refine ⟨noStack.phys, noStack.pt, ?_⟩
    unfold signal_frame_setup
    rw [show (⟨noStack.t.trapframe, noStack.t.blocked, noStack.signo⟩ : ucontext) = noStack.saved from rfl,
      copyout_past_maxva _ _ _ _ hne (by decide)]
    rfl
  have hsame := (handler_of_writes hwrites).symm.trans (h.not_redirected hwrites)
  have hepc : (0x1000 : Word) = 0 := congrArg trapframe.epc (Option.some.inj hsame)
  exact absurd hepc (by decide)

end Delivery

end LostWakeup.Ipc.Signal
