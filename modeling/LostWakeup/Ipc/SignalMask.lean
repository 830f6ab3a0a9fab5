/-
# LostWakeup.Ipc.SignalMask — `sys_rt_sigprocmask`, signal returns, and the set of blocked signals.

The set that is asked for is filtered by `sig_del_set_mask` with `sig_gen_mask(SIGKILL) | sig_gen_mask(SIGSTOP)`, of which
the macro complements the first half only.  `SIG_UNBLOCK` is an intersection with the set and not with its complement, a
call without a set goes on with whatever the variable held, and a signal return takes the mask from user memory.

A call carries the results of `copyin` and `copyout`.
-/
import Mathlib.Data.Set.Insert
import Mathlib.Data.Set.Lattice
import Mathlib.Order.CompletePartialOrder
import LostWakeup.Ipc.PendingSignals

namespace LostWakeup.Ipc.Signal

open Library Mm Mm.Vm

/-! ## The system calls -/

namespace tcb

/-- The values of `how`. -/
def How.ofInt (how : Int) : Option How :=
  if how = 0 then some .SIG_BLOCK else if how = 1 then some .SIG_UNBLOCK else if how = 2 then some .SIG_SETMASK else none

end tcb

/-- `sig_del_set_mask(set, x | y)`: the macro does not bracket its argument. -/
def sig_del_set_masks (set x y : sigset_t) : sigset_t := set &&& (~~~x ||| y)

structure Sigprocmask where
  how : Int
  /-- What `copyin` finds at `set_addr`, if that is not `NULL`. -/
  set_addr : Option (Option sigset_t)
  /-- Whether `copyout` can write to `oldset_addr`, if that is not `NULL`. -/
  oldset_addr : Option Bool
  sigsetsize : Nat
  /-- What the variable `set` holds at first. -/
  set : sigset_t

/-- A thread, the global `sigmask_limit`, and what the last call wrote to `*oldset`. -/
structure MaskState where
  sigmask_limit : Int
  sys : Sys
  reported : Option sigset_t

namespace MaskState

def blocked (s : MaskState) : sigset_t := s.sys.t.blocked

def setThread (s : MaskState) (t : tcb) (reported : Option sigset_t) : MaskState :=
  { s with sys := { s.sys with t := t }, reported := reported }

/-- `sys_rt_sigprocmask`, with its return value. -/
def sys_rt_sigprocmask (s : MaskState) (c : Sigprocmask) : MaskState × Int :=
  if s.sigmask_limit = 1 then (s.setThread s.sys.t none, 0)
  else if c.sigsetsize ≠ 8 then (s.setThread s.sys.t none, -1)
  else if c.set_addr = some none then (s.setThread s.sys.t none, -1)
  else
    let set := c.set_addr.join.getD c.set
    let set := sig_del_set_masks set (sig_gen_mask SIGKILL) (sig_gen_mask SIGSTOP)
    let old_set := s.blocked
    match tcb.How.ofInt c.how with
    | none => (s.setThread s.sys.t none, -1)
    | some how =>
      let t := s.sys.t.do_sigprocmask how set
      match c.oldset_addr with
      | none => (s.setThread t none, 0)
      | some true => (s.setThread t (some old_set), 0)
      | some false => (s.setThread t none, -1)

inductive MaskEvent
  | sys_rt_sigprocmask (c : Sigprocmask)
  | sys_rt_sigreturn
  /-- Some process starts a program; `bench` says whether the path is `libc-bench`. -/
  | sys_execve (bench : Bool)
  /-- User code runs, on its frames too. -/
  | user (phys : Phys) (pt : PageTable) (tf : trapframe)

def next (s : MaskState) : MaskEvent → MaskState
  | .sys_rt_sigprocmask c => (s.sys_rt_sigprocmask c).1
  | .sys_rt_sigreturn => s.setThread (syscall_sigreturn s.sys.phys s.sys.pt s.sys.t) none
  | .sys_execve bench => { s with sigmask_limit := if bench then 1 else 0, reported := none }
  | .user phys pt tf => ⟨s.sigmask_limit, ⟨phys, pt, { s.sys.t with trapframe := tf }⟩, none⟩

def Step (s : MaskState) (e : MaskEvent) (s' : MaskState) : Prop := s' = s.next e

end MaskState

/-! ## Sets of signals -/

/-- The signals of a mask. -/
def members (set : sigset_t) : Set sig_t := {v | valid_signal v ∧ sig_is_member set v}

/-- The signals that cannot be blocked. -/
def Unblockable : Set sig_t := {SIGKILL, SIGSTOP}

/-- What a call is to make of the blocked signals, before those that cannot be blocked are taken out. -/
def asked : tcb.How → Set sig_t → Set sig_t → Set sig_t
  | .SIG_BLOCK, old, set => old ∪ set
  | .SIG_UNBLOCK, old, set => old \ set
  | .SIG_SETMASK, _, set => set

/-- The set leaves out `SIGSTOP`; or, to unblock, nothing is blocked. -/
def Filtered : tcb.How → Set sig_t → Set sig_t → Prop
  | .SIG_BLOCK, _, set => SIGSTOP ∉ set
  | .SIG_UNBLOCK, old, _ => old = ∅
  | .SIG_SETMASK, _, set => SIGSTOP ∉ set

/-- The mask is as asked for already. -/
def NothingAsked : tcb.How → Set sig_t → Set sig_t → Prop
  | .SIG_BLOCK, old, set => set \ Unblockable ⊆ old
  | .SIG_UNBLOCK, old, set => Disjoint old set
  | .SIG_SETMASK, old, set => old = set \ Unblockable

/-- The mask stays as it is with this set. -/
def NoMatter : tcb.How → Set sig_t → Set sig_t → Prop
  | .SIG_BLOCK, old, set => set \ {SIGKILL} ⊆ old
  | .SIG_UNBLOCK, old, set => old ⊆ set
  | .SIG_SETMASK, old, set => set \ {SIGKILL} = old

namespace MaskState

/-- The mask in the frame that a signal return reads, if that can be read. -/
def frameMask (s : MaskState) : Option sigset_t :=
  (readUc s.sys.phys s.sys.pt s.sys.t.trapframe.sp).map fun bytes => (ucontext.ofWords (wordsOf 72 bytes)).uc_sigmask

/-- Neither `SIGKILL` nor `SIGSTOP` is blocked. -/
def Safe (s : MaskState) : Prop := SIGKILL ∉ members s.blocked ∧ SIGSTOP ∉ members s.blocked

/-- What an event is to do to the blocked signals. -/
def Law (s : MaskState) (e : MaskEvent) (s' : MaskState) : Prop :=
  match e with
  | .sys_rt_sigprocmask c => c.sigsetsize = 8 →
    (∀ set how, c.set_addr = some (some set) → tcb.How.ofInt c.how = some how →
      members s'.blocked = asked how (members s.blocked) (members set) \ Unblockable) ∧
    (c.set_addr = none → s'.blocked = s.blocked ∧ (c.oldset_addr = some true → s'.reported = some s.blocked))
  | .sys_rt_sigreturn => ∀ mask, s.frameMask = some mask → members s'.blocked = members mask \ Unblockable
  | _ => s'.blocked = s.blocked

/-- The event does what it is to do, and `SIGKILL` and `SIGSTOP` stay unblocked. -/
def KeepsMask (s : MaskState) (e : MaskEvent) : Prop := ∀ s', s.Step e s' → Law s e s' ∧ s'.Safe

/-- A call with this set comes out right: it is filtered, and there is nothing to do if the limit is on. -/
def SetOk (s : MaskState) (set : sigset_t) (how : tcb.How) : Prop :=
  if s.sigmask_limit = 1 then NothingAsked how (members s.blocked) (members set)
  else Filtered how (members s.blocked) (members set)

/-- A call without a set comes out right: it asks for no report that is not made, and what the variable held makes
no difference. -/
def NullOk (s : MaskState) (c : Sigprocmask) : Prop :=
  if s.sigmask_limit = 1 then c.oldset_addr ≠ some true
  else
    match tcb.How.ofInt c.how with
    | none => c.oldset_addr ≠ some true
    | some how => NoMatter how (members s.blocked) (members c.set)

/-- The events for which the code does what it is to do. -/
def MaskOk (s : MaskState) : MaskEvent → Prop
  | .sys_rt_sigprocmask c => c.sigsetsize = 8 →
    (∀ set how, c.set_addr = some (some set) → tcb.How.ofInt c.how = some how → s.SetOk set how) ∧
    (c.set_addr = none → s.NullOk c)
  | .sys_rt_sigreturn => ∀ mask, s.frameMask = some mask → SIGKILL ∉ members mask ∧ SIGSTOP ∉ members mask
  | _ => True

end MaskState

/-! ## Sets, in general -/

section Sets

variable {α : Type*} {A B : Set α} {k s : α}

theorem union_diff_eq_iff (hk : k ∉ A) (hs : s ∉ A) (hne : s ≠ k) : A ∪ (B \ {k}) = (A ∪ B) \ {k, s} ↔ s ∉ B := by
  constructor
  · intro h hB
    have hmem : s ∈ A ∪ (B \ {k}) := .inr ⟨hB, hne⟩
    rw [h] at hmem
    exact hmem.2 (.inr rfl)
  intro hB
  ext v
  simp only [Set.mem_union, Set.mem_sdiff, Set.mem_singleton_iff, Set.mem_insert_iff, not_or]
  constructor
  · rintro (hA | ⟨hB', hvk⟩)
    · exact ⟨.inl hA, fun h => hk (h ▸ hA), fun h => hs (h ▸ hA)⟩
    · exact ⟨.inr hB', hvk, fun h => hB (h ▸ hB')⟩
  · rintro ⟨hA | hB', hvk, -⟩
    · exact .inl hA
    · exact .inr ⟨hB', hvk⟩

theorem inter_diff_eq_iff (hk : k ∉ A) (hs : s ∉ A) : A ∩ (B \ {k}) = (A \ B) \ {k, s} ↔ A = ∅ := by
  constructor
  · intro h
    rw [Set.eq_empty_iff_forall_notMem]
    intro v hA
    by_cases hB : v ∈ B
    · have hmem : v ∈ A ∩ (B \ {k}) := ⟨hA, hB, fun hvk => hk (hvk ▸ hA)⟩
      rw [h] at hmem
      exact hmem.1.2 hB
    have hmem : v ∈ (A \ B) \ {k, s} := by
      refine ⟨⟨hA, hB⟩, ?_⟩
      rintro (rfl | rfl)
      · exact hk hA
      · exact hs hA
    rw [← h] at hmem
    exact hB hmem.2.1
  · rintro rfl
    simp

theorem diff_eq_iff (hne : s ≠ k) : B \ {k} = B \ {k, s} ↔ s ∉ B := by
  have h := @union_diff_eq_iff α ∅ B k s (Set.notMem_empty k) (Set.notMem_empty s) hne
  rwa [Set.empty_union, Set.empty_union] at h

theorem eq_union_diff_iff {U : Set α} (h : Disjoint A U) : A = (A ∪ B) \ U ↔ B \ U ⊆ A := by
  rw [Set.union_sdiff_distrib, sdiff_eq_left.mpr h, eq_comm, Set.union_eq_left]

theorem eq_diff_diff_iff {U : Set α} (h : Disjoint A U) : A = (A \ B) \ U ↔ Disjoint A B := by
  have hcomm : (A \ B) \ U = A \ B := by
    rw [sdiff_eq_left]
    exact h.mono_left Set.sdiff_subset
  rw [hcomm, eq_comm, sdiff_eq_left]

end Sets

/-! ## Masks as sets -/

theorem mem_members {set : sigset_t} {v : sig_t} : v ∈ members set ↔ valid_signal v ∧ set.getLsbD (shift v) = true := by
  rw [members, Set.mem_ofPred_eq, sig_is_member_eq]

theorem members_or (x y : sigset_t) : members (sig_or x y) = members x ∪ members y := by
  ext v
  rw [Set.mem_union, mem_members, mem_members, mem_members, sig_or, BitVec.getLsbD_or, Bool.or_eq_true, and_or_left]

theorem members_and (x y : sigset_t) : members (sig_and x y) = members x ∩ members y := by
  ext v
  rw [Set.mem_inter_iff, mem_members, mem_members, mem_members, sig_and, BitVec.getLsbD_and, Bool.and_eq_true,
    and_and_left]

/-- Of the two signals the macro removes the first. -/
theorem members_del {x y : sig_t} (hx : valid_signal x) (hy : valid_signal y) (hne : x ≠ y) (set : sigset_t) :
    members (sig_del_set_masks set (sig_gen_mask x) (sig_gen_mask y)) = members set \ {x} := by
  ext v
  rw [Set.mem_sdiff, Set.mem_singleton_iff, mem_members, mem_members, and_assoc]
  apply and_congr_right
  intro hv
  have hbit : (sig_del_set_masks set (sig_gen_mask x) (sig_gen_mask y)).getLsbD (shift v) =
      (set.getLsbD (shift v) && (!decide (shift v = shift x) || decide (shift v = shift y))) := by
    rw [sig_del_set_masks, BitVec.getLsbD_and, BitVec.getLsbD_or, BitVec.getLsbD_not, sig_gen_mask_bit, sig_gen_mask_bit,
      decide_eq_true (shift_lt v), Bool.true_and]
  have hxy : shift x ≠ shift y := fun h => hne (shift_inj hx hy h)
  have hvx : shift v = shift x ↔ v = x := ⟨fun h => shift_inj hv hx h, fun h => h ▸ rfl⟩
  rw [hbit, Bool.and_eq_true, ← hvx]
  apply and_congr_right
  intro _
  by_cases h : shift v = shift x
  · simp [h, hxy]
  · simp [h]

theorem members_inj {x y : sigset_t} (h : members x = members y) : x = y := by
  apply BitVec.eq_of_getLsbD_eq
  intro i hi
  have hvalid : valid_signal ((i : Int) + 1) = true := by
    rw [valid_signal_iff]
    omega
  have hshift : shift ((i : Int) + 1) = i := by
    unfold shift
    omega
  have hmem := Set.ext_iff.mp h ((i : Int) + 1)
  rw [mem_members, mem_members, hshift, and_iff_right hvalid, and_iff_right hvalid] at hmem
  rwa [Bool.eq_iff_iff]

theorem valid_kill : valid_signal SIGKILL = true := by decide

theorem valid_stop : valid_signal SIGSTOP = true := by decide

theorem stop_ne_kill : SIGSTOP ≠ SIGKILL := by decide

/-- The set as the system call uses it. -/
def filtered (set : sigset_t) : sigset_t := sig_del_set_masks set (sig_gen_mask SIGKILL) (sig_gen_mask SIGSTOP)

theorem members_filtered (set : sigset_t) : members (filtered set) = members set \ {SIGKILL} :=
  members_del valid_kill valid_stop stop_ne_kill.symm set

/-- What a call makes of the blocked signals. -/
def made : tcb.How → Set sig_t → Set sig_t → Set sig_t
  | .SIG_BLOCK, old, set => old ∪ (set \ {SIGKILL})
  | .SIG_UNBLOCK, old, set => old ∩ (set \ {SIGKILL})
  | .SIG_SETMASK, _, set => set \ {SIGKILL}

theorem members_sigprocmask (t : tcb) (how : tcb.How) (set : sigset_t) :
    members (t.do_sigprocmask how (filtered set)).blocked = made how (members t.blocked) (members set) := by
  rcases how with _ | _ | _
  · exact (members_or _ _).trans (by rw [members_filtered]; rfl)
  · exact (members_and _ _).trans (by rw [members_filtered]; rfl)
  · exact members_filtered set

namespace MaskState

variable {s : MaskState}

/-! ## One call -/

section Call

variable {c : Sigprocmask} (hsize : c.sigsetsize = 8)

theorem call_limited (hlimit : s.sigmask_limit = 1) :
    (s.sys_rt_sigprocmask c).1.blocked = s.blocked ∧ (s.sys_rt_sigprocmask c).1.reported = none := by
  rw [sys_rt_sigprocmask, if_pos hlimit]
  exact ⟨rfl, rfl⟩

include hsize

theorem call_invalid (hlimit : s.sigmask_limit ≠ 1) (hset : c.set_addr ≠ some none)
    (hhow : tcb.How.ofInt c.how = none) :
    (s.sys_rt_sigprocmask c).1.blocked = s.blocked ∧ (s.sys_rt_sigprocmask c).1.reported = none := by
  rw [sys_rt_sigprocmask, if_neg hlimit, if_neg (by simp [hsize]), if_neg hset, hhow]
  exact ⟨rfl, rfl⟩

theorem call_valid (hlimit : s.sigmask_limit ≠ 1) (hset : c.set_addr ≠ some none) {how : tcb.How}
    (hhow : tcb.How.ofInt c.how = some how) :
    members (s.sys_rt_sigprocmask c).1.blocked = made how (members s.blocked) (members (c.set_addr.join.getD c.set)) ∧
      (c.oldset_addr = some true → (s.sys_rt_sigprocmask c).1.reported = some s.blocked) := by
  have hmade := members_sigprocmask s.sys.t how (c.set_addr.join.getD c.set)
  rw [sys_rt_sigprocmask, if_neg hlimit, if_neg (by simp [hsize]), if_neg hset, hhow]
  rcases hold : c.oldset_addr with _ | _ | _
  · exact ⟨hmade, fun h => absurd h (by simp)⟩
  · exact ⟨hmade, fun h => absurd h (by simp)⟩
  · exact ⟨hmade, fun _ => rfl⟩

end Call

theorem call_kept {c : Sigprocmask} (h : c.sigsetsize ≠ 8 ∨ c.set_addr = some none ∨ tcb.How.ofInt c.how = none) :
    (s.sys_rt_sigprocmask c).1.blocked = s.blocked := by
  by_cases hlimit : s.sigmask_limit = 1
  · exact (call_limited hlimit).1
  by_cases hsize : c.sigsetsize = 8
  · by_cases hset : c.set_addr = some none
    · rw [sys_rt_sigprocmask, if_neg hlimit, if_neg (by simp [hsize]), if_pos hset]
      rfl
    · exact (call_invalid hsize hlimit hset ((h.resolve_left (fun hne => hne hsize)).resolve_left hset)).1
  · rw [sys_rt_sigprocmask, if_neg hlimit, if_pos hsize]
    rfl

theorem disjoint_unblockable (h : s.Safe) : Disjoint (members s.blocked) Unblockable := by
  rw [Set.disjoint_left]
  rintro v hv (rfl | rfl)
  · exact h.1 hv
  · exact h.2 hv

theorem made_eq_iff (h : s.Safe) (set : sigset_t) (how : tcb.How) :
    made how (members s.blocked) (members set) = asked how (members s.blocked) (members set) \ Unblockable ↔
      Filtered how (members s.blocked) (members set) := by
  rcases how with _ | _ | _
  · exact union_diff_eq_iff h.1 h.2 stop_ne_kill
  · exact inter_diff_eq_iff h.1 h.2
  · exact diff_eq_iff stop_ne_kill

theorem kept_eq_iff (h : s.Safe) (set : sigset_t) (how : tcb.How) :
    members s.blocked = asked how (members s.blocked) (members set) \ Unblockable ↔
      NothingAsked how (members s.blocked) (members set) := by
  rcases how with _ | _ | _
  · exact eq_union_diff_iff (disjoint_unblockable h)
  · exact eq_diff_diff_iff (disjoint_unblockable h)
  · exact Iff.rfl

theorem set_law_iff (h : s.Safe) {c : Sigprocmask} (hsize : c.sigsetsize = 8) {set : sigset_t} {how : tcb.How}
    (hset : c.set_addr = some (some set)) (hhow : tcb.How.ofInt c.how = some how) :
    members (s.sys_rt_sigprocmask c).1.blocked = asked how (members s.blocked) (members set) \ Unblockable ↔
      s.SetOk set how := by
  by_cases hlimit : s.sigmask_limit = 1
  · rw [(call_limited hlimit).1, kept_eq_iff h, SetOk, if_pos hlimit]
  have hcall := (call_valid hsize hlimit (by simp [hset]) hhow).1
  rw [hset] at hcall
  rw [hcall, SetOk, if_neg hlimit]
  exact made_eq_iff h set how

theorem made_self_iff (h : s.Safe) (set : sigset_t) (how : tcb.How) :
    made how (members s.blocked) (members set) = members s.blocked ↔
      NoMatter how (members s.blocked) (members set) := by
  rcases how with _ | _ | _
  · exact Set.union_eq_left
  · rw [made, Set.inter_eq_left]
    constructor
    · exact fun hsub v hv => (hsub hv).1
    · exact fun hsub v hv => ⟨hsub hv, fun hk => h.1 (hk ▸ hv)⟩
  · exact Iff.rfl

theorem null_law_iff (h : s.Safe) {c : Sigprocmask} (hsize : c.sigsetsize = 8) (hset : c.set_addr = none) :
    ((s.sys_rt_sigprocmask c).1.blocked = s.blocked ∧
      (c.oldset_addr = some true → (s.sys_rt_sigprocmask c).1.reported = some s.blocked)) ↔ s.NullOk c := by
  have hunreported : ∀ {r : Option sigset_t}, r = none → ((c.oldset_addr = some true → r = some s.blocked) ↔
      c.oldset_addr ≠ some true) := by
    rintro r rfl
    simp
  by_cases hlimit : s.sigmask_limit = 1
  · obtain ⟨hsame, hreport⟩ := @call_limited s c hlimit
    rw [NullOk, if_pos hlimit, and_iff_right hsame, hunreported hreport]
  rcases hhow : tcb.How.ofInt c.how with _ | how
  · obtain ⟨hsame, hreport⟩ := call_invalid hsize hlimit (by simp [hset]) hhow
    rw [NullOk, if_neg hlimit, hhow, and_iff_right hsame, hunreported hreport]
  obtain ⟨hmade, hreport⟩ := call_valid hsize hlimit (by simp [hset]) hhow
  rw [hset] at hmade
  have hself := made_self_iff h c.set how
  rw [NullOk, if_neg hlimit, hhow, and_iff_left hreport]
  have heq : (s.sys_rt_sigprocmask c).1.blocked = s.blocked ↔
      made how (members s.blocked) (members c.set) = members s.blocked := by
    constructor
    · intro heq
      rw [heq] at hmade
      exact hmade.symm
    · intro heq
      exact members_inj (hmade.trans heq)
  rw [heq, hself]

/-! ## Signal returns -/

theorem sigreturn_blocked (s : MaskState) :
    (s.next .sys_rt_sigreturn).blocked = s.frameMask.getD s.blocked := by
  have hrestore : (signal_frame_restore s.sys.phys s.sys.pt s.sys.t s.sys.t.trapframe.sp).1.blocked =
      s.frameMask.getD s.blocked := by
    rw [signal_frame_restore, frameMask]
    rcases readUc s.sys.phys s.sys.pt s.sys.t.trapframe.sp with _ | bytes
    · rfl
    rcases readRiscv s.sys.phys s.sys.pt s.sys.t.trapframe.sp with _ | bytes'
    · rfl
    dsimp only
    split
    · rfl
    · rfl
  exact hrestore

theorem return_law_iff (mask : sigset_t) :
    members mask = members mask \ Unblockable ↔ SIGKILL ∉ members mask ∧ SIGSTOP ∉ members mask := by
  rw [eq_comm, sdiff_eq_left, Set.disjoint_right]
  constructor
  · intro h
    exact ⟨h (.inl rfl), h (.inr rfl)⟩
  · rintro ⟨hk, hs⟩ v (rfl | rfl)
    · exact hk
    · exact hs

/-! ## Runs -/

theorem law_iff (h : s.Safe) (e : MaskEvent) : Law s e (s.next e) ↔ s.MaskOk e := by
  rcases e with c | _ | bench | ⟨phys, pt, tf⟩
  · apply forall_congr'
    intro hsize
    apply and_congr
    · apply forall_congr'
      intro set
      apply forall_congr'
      intro how
      apply forall_congr'
      intro hset
      apply forall_congr'
      intro hhow
      exact set_law_iff h hsize hset hhow
    · apply forall_congr'
      intro hset
      exact null_law_iff h hsize hset
  · apply forall_congr'
    intro mask
    apply forall_congr'
    intro hmask
    rw [sigreturn_blocked, hmask]
    exact return_law_iff mask
  · exact iff_of_true rfl trivial
  · exact iff_of_true rfl trivial

theorem safe_of_diff {s' : MaskState} {S : Set sig_t} (h : members s'.blocked = S \ Unblockable) : s'.Safe := by
  rw [Safe, h]
  exact ⟨fun hk => hk.2 (.inl rfl), fun hs => hs.2 (.inr rfl)⟩

theorem safe_next (h : s.Safe) (e : MaskEvent) (hlaw : Law s e (s.next e)) : (s.next e).Safe := by
  have hsame : (s.next e).blocked = s.blocked → (s.next e).Safe := by
    intro heq
    rw [Safe, heq]
    exact h
  rcases e with c | _ | bench | ⟨phys, pt, tf⟩
  · by_cases hsize : c.sigsetsize = 8
    · rcases hset : c.set_addr with _ | _ | set
      · exact hsame ((hlaw hsize).2 hset).1
      · exact hsame (call_kept (.inr (.inl hset)))
      · rcases hhow : tcb.How.ofInt c.how with _ | how
        · exact hsame (call_kept (.inr (.inr hhow)))
        · exact safe_of_diff ((hlaw hsize).1 set how hset hhow)
    · exact hsame (call_kept (.inl hsize))
  · rcases hmask : s.frameMask with _ | mask
    · apply hsame
      rw [sigreturn_blocked, hmask]
      rfl
    · exact safe_of_diff (hlaw mask hmask)
  · exact hsame rfl
  · exact hsame rfl

theorem keeps_iff (h : s.Safe) (e : MaskEvent) : s.KeepsMask e ↔ s.MaskOk e := by
  rw [← law_iff h]
  constructor
  · intro hkeeps
    exact (hkeeps _ rfl).1
  · rintro hlaw _ rfl
    exact ⟨hlaw, safe_next h e hlaw⟩

/-- The runs in which every event does what it is to do, and the two signals are never blocked, are those of events
that meet the condition. -/
theorem mask_law_iff (h : s.Safe) (es : List MaskEvent) (s' : MaskState) :
    Run (Guarded Step KeepsMask) s es s' ↔ Run (Guarded Step MaskOk) s es s' := by
  apply @Run.guarded_iff _ _ Step s s' Safe
  · rintro s e _ hs hok rfl
    exact safe_next hs e ((law_iff hs e).mpr hok)
  · intro s e s' hs _
    exact keeps_iff hs e
  · exact h

/-! ## Two runs -/

/-- The calling thread has just been made. -/
def fresh : MaskState := ⟨0, Sys.idle.start, none⟩

theorem fresh_blocked : members fresh.blocked = ∅ := by
  rw [Set.eq_empty_iff_forall_notMem]
  intro v hv
  have hbit := (mem_members.mp hv).2
  rw [show fresh.blocked = 0#64 from rfl, BitVec.getLsbD_zero] at hbit
  exact absurd hbit (by decide)

theorem fresh_safe : fresh.Safe := by
  rw [Safe, fresh_blocked]
  exact ⟨Set.notMem_empty _, Set.notMem_empty _⟩

/-- A call with this set. -/
def call (how : Int) (set : sigset_t) : MaskEvent := .sys_rt_sigprocmask ⟨how, some (some set), none, 8, 0⟩

/-- `SIGTERM` is blocked. -/
theorem mask_law_blocks : ∃ s, Run (Guarded Step KeepsMask) fresh [call 0 (sig_gen_mask SIGTERM)] s ∧
    SIGTERM ∈ members s.blocked := by
  refine ⟨fresh.next (call 0 (sig_gen_mask SIGTERM)), (mask_law_iff fresh_safe _ _).mpr (.cons ⟨?_, rfl⟩ (.nil _)), ?_⟩
  · intro _
    refine ⟨fun set how hset hhow => ?_, fun hset => absurd hset (by simp)⟩
    cases hset
    cases hhow
    show ¬ (valid_signal SIGSTOP = true ∧ sig_is_member (sig_gen_mask SIGTERM) SIGSTOP = true)
    decide
  · show valid_signal SIGTERM = true ∧ sig_is_member _ SIGTERM = true
    decide

/-- `SIGTERM` and `SIGCHLD` are blocked and `SIGTERM` is unblocked again: then it alone is blocked.  And `SIGSTOP` can
be blocked. -/
theorem unblock_keeps : (∃ s, Run Step fresh [call 0 (sig_or (sig_gen_mask SIGTERM) (sig_gen_mask SIGCHLD)),
      call 1 (sig_gen_mask SIGTERM)] s ∧ SIGTERM ∈ members s.blocked ∧ SIGCHLD ∉ members s.blocked) ∧
    ∃ s, Run Step fresh [call 2 (sig_gen_mask SIGSTOP)] s ∧ ¬ s.Safe := by
  refine ⟨⟨_, .cons rfl (.cons rfl (.nil _)), ?_, ?_⟩, ⟨_, .cons rfl (.nil _), fun hsafe => hsafe.2 ?_⟩⟩
  · show valid_signal SIGTERM = true ∧ sig_is_member _ SIGTERM = true
    decide
  · show ¬ (valid_signal SIGCHLD = true ∧ sig_is_member _ SIGCHLD = true)
    decide
  · show valid_signal SIGSTOP = true ∧ sig_is_member _ SIGSTOP = true
    decide

end MaskState

end LostWakeup.Ipc.Signal
