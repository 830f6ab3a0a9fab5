/-
# LostWakeup.Ipc.PendingSignals — delivery of signals, and what is pending through a run.

`signal_handle` takes the entry of a delivered signal off the queue and leaves its bit; `SIGRETURN` clears the bit that
the frame names, and for a default action nothing does.  `pending_signals_consistent` says which runs keep bits, entries
and count together.
-/
import LostWakeup.Ipc.SignalFrame
import LostWakeup.Library.Run

namespace LostWakeup.Ipc.Signal

open Library Mm Mm.Vma Mm.Vm

/-- A thread and the user memory its frames are written to. -/
structure Sys where
  phys : Phys
  pt : PageTable
  t : tcb

inductive Panic
  /-- `signal handle : invalid signo`. -/
  | invalid_signo
  | vm (e : Vm.Panic)

namespace Sys

/-! ## `signal_handle` -/

/-- The thread with another queue. -/
def setList (s : Sys) (list : List siginfo_t) : Sys :=
  { s with t := { s.t with pending := { s.t.pending with list := list } } }

/-- The loop of `signal_handle`: `kept` is the queue before the entry it is at. -/
def handleLoop (files : Files) (mm : mm_struct) : List siginfo_t → List siginfo_t → Sys → Except Panic Sys
  | kept, [], s => .ok (s.setList kept)
  | kept, info :: rest, s =>
    let sig_no := info.si_signo
    if valid_signal sig_no = false then .error .invalid_signo
    else if s.t.sig_ignored sig_no then handleLoop files mm (kept ++ [info]) rest s
    else
      let sig_act := s.t.sig_action sig_no
      if sig_act.sa_handler = SIG_DFL then
        let t := s.t.signal_DFL sig_no
        handleLoop files mm kept rest { s with t := { t with sig_pending_cnt := t.sig_pending_cnt - 1 } }
      else if sig_act.sa_handler = SIG_IGN then handleLoop files mm (kept ++ [info]) rest s
      else
        match setup_rt_frame files mm s.phys s.pt sig_act sig_no s.t.blocked s.t.trapframe with
        | .error e => .error (.vm e)
        | .ok (phys, pt, tf) =>
          let t := { s.t with trapframe := tf, sig_pending_cnt := s.t.sig_pending_cnt - 1, sig_ing := sig_no }
          .ok (setList ⟨phys, pt, t⟩ (kept ++ rest))

def signal_handle (files : Files) (mm : mm_struct) (s : Sys) : Except Panic Sys :=
  if s.t.sig_pending_cnt = 0 then .ok s else handleLoop files mm [] s.t.pending.list s

/-! ## Events -/

inductive Event
  /-- `page` says whether `kalloc` has a page for the entry. -/
  | signal_send (info : siginfo_t) (page : Bool)
  | signal_handle (files : Files) (mm : mm_struct)
  | signal_queue_pop (mask : sigset_t)
  | signal_queue_flush
  | sys_rt_sigreturn
  | free_thread
  | do_sigaction (sig : sig_t) (act : Option sigaction)
  | do_sigprocmask (how : tcb.How) (set : sigset_t)
  /-- User code runs, and the kernel on behalf of others. -/
  | user (phys : Phys) (pt : PageTable) (tf : trapframe)

def next (s : Sys) : Event → Except Panic Sys
  | .signal_send info page => .ok { s with t := s.t.signal_send info page }
  | .signal_handle files mm => s.signal_handle files mm
  | .signal_queue_pop mask => .ok { s with t := { s.t with pending := (Signal.signal_queue_pop mask s.t.pending).1 } }
  | .signal_queue_flush => .ok { s with t := { s.t with pending := Signal.signal_queue_flush s.t.pending } }
  | .sys_rt_sigreturn => .ok { s with t := syscall_sigreturn s.phys s.pt s.t }
  | .free_thread => .ok { s with t := s.t.free_thread }
  | .do_sigaction sig act => .ok { s with t := s.t.do_sigaction sig act }
  | .do_sigprocmask how set => .ok { s with t := s.t.do_sigprocmask how set }
  | .user phys pt tf => .ok ⟨phys, pt, { s.t with trapframe := tf }⟩

def Step (s : Sys) (e : Event) (s' : Sys) : Prop := s.next e = .ok s'

/-- The thread is newly allocated. -/
def start (s : Sys) : Sys := { s with t := s.t.alloc_thread }

/-! ## The property -/

end Sys

/-- The signals of the entries. -/
def tcb.queued (t : tcb) : List sig_t := t.pending.list.map siginfo_t.si_signo

/-- A set and a queue show the same signals: the bit of a signal is set if and only if an entry is queued, and there
is at most one. -/
structure Mirrors (signal : sigset_t) (queued : List sig_t) : Prop where
  bit : ∀ sig, valid_signal sig → (sig_is_member signal sig = true ↔ sig ∈ queued)
  once : ∀ sig, valid_signal sig → queued.count sig ≤ 1

/-- The set, the queue and the count agree. -/
structure tcb.Consistent (t : tcb) : Prop where
  mirrors : Mirrors t.pending.signal t.queued
  count : t.sig_pending_cnt = t.queued.length

/-- The thread takes the signal of the entry: it is neither blocked nor ignored. -/
def tcb.Delivers (t : tcb) (info : siginfo_t) : Prop :=
  t.sig_ignored info.si_signo = false ∧ (t.sig_action info.si_signo).sa_handler ≠ SIG_IGN

namespace Sys

/-- A signal that has been sent is in the queue, if there is memory for it. -/
def Sent (s' : Sys) : Event → Prop
  | .signal_send info true => valid_signal info.si_signo → info.si_signo ∈ s'.t.queued
  | _ => True

/-- The event leaves set, queue and count in agreement, and a signal it sends is queued. -/
def Keeps (s : Sys) (e : Event) : Prop := ∀ s', s.Step e s' → s'.t.Consistent ∧ s'.Sent e

/-- The signal whose bit `SIGRETURN` clears: the one that the frame names. -/
def returning (s : Sys) : sig_t :=
  match readUc s.phys s.pt s.t.trapframe.sp with
  | none => s.t.sig_ing
  | some bytes => (ucontext.ofWords (wordsOf 72 bytes)).sig_ing

/-- What is sent is a signal, none is delivered or popped, and none that is queued is returned from. -/
def Clean (s : Sys) : Event → Prop
  | .signal_send info page => valid_signal info.si_signo ∨ s.t.sig_existed info.si_signo ∨ page = false
  | .signal_handle _ _ => ∀ info ∈ s.t.pending.list, ¬ s.t.Delivers info
  | .signal_queue_pop mask => sig_test_mask s.t.pending.signal mask = false
  | .signal_queue_flush => s.t.pending.list = []
  | .sys_rt_sigreturn => s.t.sig_existed s.returning = false
  | _ => True

end Sys

/-! ## Sets and queues -/

namespace Mirrors

variable {signal : sigset_t} {queued queued' : List sig_t} {sig : sig_t}

theorem init : Mirrors 0 [] where
  bit := by
    intro sig _
    simp
  once := by
    intro sig _
    simp

theorem exists_valid (sig : Int) : ∃ v, valid_signal v ∧ shift v = shift sig := by
  refine ⟨(sig - 1) % 64 + 1, ?_, ?_⟩
  · rw [valid_signal_iff]
    omega
  · unfold shift
    omega

/-- A new entry comes with its bit. -/
theorem send (h : Mirrors signal queued) (hvalid : valid_signal sig) (hnew : sig_is_member signal sig = false) :
    Mirrors (sig_add_set signal sig) (queued ++ [sig]) where
  bit := by
    intro v hv
    have hold := h.bit v hv
    rw [sig_is_member_eq] at hold ⊢
    rw [sig_add_set_bit, Bool.or_eq_true, decide_eq_true_eq, List.mem_append, List.mem_singleton, hold]
    constructor
    · rintro (hmem | hshift)
      · exact .inl hmem
      · exact .inr (shift_inj hv hvalid hshift)
    · rintro (hmem | rfl)
      · exact .inl hmem
      · exact .inr rfl
  once := by
    intro v hv
    have hnot : sig ∉ queued := by
      intro hmem
      rw [(h.bit sig hvalid).mpr hmem] at hnew
      cases hnew
    have hcount := h.once v hv
    rw [List.count_append, List.count_singleton]
    rcases eq_or_ne sig v with rfl | hne
    · rw [List.count_eq_zero_of_not_mem hnot]
      simp
    · simpa [hne] using hcount

theorem not_send (h : Mirrors signal queued) (hinvalid : valid_signal sig = false)
    (hnew : sig_is_member signal sig = false) : ¬ Mirrors (sig_add_set signal sig) (queued ++ [sig]) := by
  intro h'
  obtain ⟨v, hv, hshift⟩ := exists_valid sig
  have hbit : sig_is_member (sig_add_set signal sig) v = true := by simp [sig_add_set_bit, hshift]
  have hclear : sig_is_member signal v = false := by
    rw [sig_is_member_eq] at hnew ⊢
    rwa [hshift]
  rcases List.mem_append.mp ((h'.bit v hv).mp hbit) with hmem | hmem
  · rw [(h.bit v hv).mpr hmem] at hclear
    cases hclear
  · rw [List.mem_singleton.mp hmem, hinvalid] at hv
    cases hv

theorem nodup (h : Mirrors signal queued) (hvalid : ∀ v ∈ queued, valid_signal v) : queued.Nodup := by
  apply List.nodup_iff_count_le_one.mpr
  intro v
  rcases Decidable.em (v ∈ queued) with hmem | hmem
  · exact h.once v (hvalid v hmem)
  · rw [List.count_eq_zero_of_not_mem hmem]
    exact Nat.zero_le 1

theorem not_of_lost (h : Mirrors signal queued) (hvalid : ∀ v ∈ queued, valid_signal v)
    (hlost : queued'.length < queued.length) : ¬ Mirrors signal queued' := by
  intro h'
  have hsubset : queued ⊆ queued' := by
    intro v hv
    exact (h'.bit v (hvalid v hv)).mp ((h.bit v (hvalid v hv)).mpr hv)
  have hle := (List.subperm_of_subset (h.nodup hvalid) hsubset).length_le
  omega

/-- The bit of a queued signal cannot be cleared. -/
theorem del_iff (h : Mirrors signal queued) :
    Mirrors (sig_del_set_mask signal (sig_gen_mask sig)) queued ↔ sig_is_member signal sig = false := by
  have hbits : ∀ v, sig_is_member (sig_del_set_mask signal (sig_gen_mask sig)) v =
      (sig_is_member signal v && !decide (shift v = shift sig)) := by
    intro v
    rw [sig_is_member_eq, sig_is_member_eq, sig_del_set_mask_bit _ _ (shift_lt v), sig_gen_mask_bit]
  constructor
  · intro h'
    obtain ⟨v, hv, hshift⟩ := exists_valid sig
    have hsame : sig_is_member signal sig = sig_is_member signal v := by
      rw [sig_is_member_eq, sig_is_member_eq, hshift]
    have hout : ¬ v ∈ queued := by
      rw [← h'.bit v hv, hbits, hshift]
      simp
    rw [hsame, ← Bool.not_eq_true, h.bit v hv]
    exact hout
  · intro hclear
    refine ⟨fun v hv => ?_, h.once⟩
    rw [hbits, ← h.bit v hv]
    rcases Decidable.em (shift v = shift sig) with hshift | hshift
    · rw [sig_is_member_eq, ← hshift, ← sig_is_member_eq] at hclear
      rw [hclear]
      rfl
    · simp [hshift]

end Mirrors

/-! ## What the operations do to the queue -/

namespace tcb

variable {t : tcb} {info : siginfo_t}

theorem signal_send_existed (h : t.sig_existed info.si_signo = true) (page : Bool) : t.signal_send info page = t := by
  simp [signal_send, h]

theorem signal_send_no_page : (t.signal_send info false).pending = t.pending ∧
    (t.signal_send info false).sig_pending_cnt = t.sig_pending_cnt := by
  rcases h : t.sig_existed info.si_signo
  · simp [signal_send, h]
  · rw [signal_send_existed h]
    exact ⟨rfl, rfl⟩

theorem signal_send_new (h : t.sig_existed info.si_signo = false) :
    (t.signal_send info true).pending = ⟨t.pending.list ++ [info], sig_add_set t.pending.signal info.si_signo⟩ ∧
      (t.signal_send info true).sig_pending_cnt = t.sig_pending_cnt + 1 := by
  simp [signal_send, h]

theorem do_sigaction_pending (t : tcb) (sig : sig_t) (act : Option sigaction) :
    (t.do_sigaction sig act).pending = t.pending ∧ (t.do_sigaction sig act).sig_pending_cnt = t.sig_pending_cnt := by
  unfold do_sigaction
  split
  · exact ⟨rfl, rfl⟩
  · exact ⟨rfl, rfl⟩

theorem do_sigprocmask_pending (t : tcb) (how : How) (set : sigset_t) :
    (t.do_sigprocmask how set).pending = t.pending ∧
      (t.do_sigprocmask how set).sig_pending_cnt = t.sig_pending_cnt := by
  cases how <;> exact ⟨rfl, rfl⟩

end tcb

/-- Entries of signals in the mask go, and there is one if the mask meets the set. -/
theorem signal_queue_pop_lost {pending : sigpending} {mask : sigset_t} {queued : List sig_t}
    (hqueued : queued = pending.list.map siginfo_t.si_signo) (h : Mirrors pending.signal queued)
    (hmask : sig_test_mask pending.signal mask = true) :
    ((signal_queue_pop mask pending).1.list.map siginfo_t.si_signo).length < queued.length := by
  -- a bit of both masks belongs to a signal, and that is queued
  have hbit : ∃ i, pending.signal.getLsbD i = true ∧ mask.getLsbD i = true := by
    by_contra hnone
    have hfalse := (sig_test_mask_eq_false pending.signal mask).mpr fun i hi => by
      rw [← Bool.not_eq_true]
      exact fun hm => hnone ⟨i, hi, hm⟩
    rw [hmask] at hfalse
    cases hfalse
  obtain ⟨i, hset, hm⟩ := hbit
  have hi : i < 64 := BitVec.lt_of_getLsbD hset
  obtain ⟨v, hv, hshift⟩ := Mirrors.exists_valid (i + 1 : Int)
  have hshift_i : shift v = i := by
    rw [hshift]
    unfold shift
    omega
  have hmem : v ∈ queued := by
    rw [← h.bit v hv, sig_is_member_eq, hshift_i]
    exact hset
  rw [hqueued, List.mem_map] at hmem
  obtain ⟨info, hinfo, rfl⟩ := hmem
  rw [signal_queue_pop, if_neg (by rw [hmask]; decide), hqueued, List.length_map, List.length_map]
  apply List.length_filter_lt_length_iff_exists.mpr
  refine ⟨info, hinfo, ?_⟩
  rw [hv, sig_test_mask_gen, hshift_i, hm]
  decide

theorem signal_queue_pop_apart {pending : sigpending} {mask : sigset_t}
    (h : sig_test_mask pending.signal mask = false) : (signal_queue_pop mask pending).1 = pending := by
  rw [signal_queue_pop, if_pos h]

namespace Sys

/-- Where no entry is delivered the queue is as before. -/
theorem handleLoop_quiet (files : Files) (mm : mm_struct) (s : Sys) (kept rest : List siginfo_t)
    (hvalid : ∀ info ∈ rest, valid_signal info.si_signo) (hquiet : ∀ info ∈ rest, ¬ s.t.Delivers info) :
    handleLoop files mm kept rest s = .ok (s.setList (kept ++ rest)) := by
  induction rest generalizing kept with
  | nil => rw [handleLoop, List.append_nil]
  | cons info rest ih =>
    have hgo : handleLoop files mm (kept ++ [info]) rest s = .ok (s.setList (kept ++ info :: rest)) := by
      rw [ih _ (fun i hi => hvalid i (List.mem_cons_of_mem _ hi)) (fun i hi => hquiet i (List.mem_cons_of_mem _ hi)),
        List.append_assoc]
      rfl
    have hnot := hquiet info List.mem_cons_self
    rw [handleLoop, if_neg (by rw [hvalid info List.mem_cons_self]; decide)]
    rcases hign : s.t.sig_ignored info.si_signo
    · have hact : (s.t.sig_action info.si_signo).sa_handler = SIG_IGN := by
        by_contra hne
        exact hnot ⟨hign, hne⟩
      rw [if_neg Bool.false_ne_true, if_neg (by rw [hact]; decide), if_pos hact]
      exact hgo
    · rw [if_pos rfl]
      exact hgo

/-- The loop leaves the bits alone, and every delivered signal takes its entry along. -/
theorem handleLoop_lost (files : Files) (mm : mm_struct) (s : Sys) (kept rest : List siginfo_t) :
    Ensures (handleLoop files mm kept rest s) (fun _ => True) fun s' =>
      s'.t.pending.signal = s.t.pending.signal ∧ s'.t.queued.length ≤ kept.length + rest.length ∧
        ((∃ info ∈ rest, s.t.Delivers info) → s'.t.queued.length < kept.length + rest.length) := by
  induction rest generalizing kept s with
  | nil =>
    refine .ok ⟨rfl, ?_, ?_⟩
    · simp [tcb.queued, setList]
    · simp
  | cons info rest ih =>
    rw [handleLoop]
    split
    · exact .error trivial
    -- an entry that stays counts with those before it
    have hkeep : ¬ s.t.Delivers info → Ensures (handleLoop files mm (kept ++ [info]) rest s) (fun _ => True) fun s' =>
        s'.t.pending.signal = s.t.pending.signal ∧ s'.t.queued.length ≤ kept.length + (info :: rest).length ∧
          ((∃ i ∈ info :: rest, s.t.Delivers i) → s'.t.queued.length < kept.length + (info :: rest).length) := by
      intro hnot
      refine (ih s (kept ++ [info])).mono ?_
      rintro s' ⟨hsignal, hle, hlt⟩
      rw [List.length_append, List.length_singleton] at hle hlt
      refine ⟨hsignal, ?_, ?_⟩
      · rw [List.length_cons]
        omega
      rintro ⟨i, hi, hdel⟩
      rcases List.mem_cons.mp hi with rfl | hi
      · exact absurd hdel hnot
      · have := hlt ⟨i, hi, hdel⟩
        rw [List.length_cons]
        omega
    split
    · rename_i hign
      apply hkeep
      rintro ⟨hfalse, _⟩
      rw [hign] at hfalse
      cases hfalse
    · dsimp only
      split
      · refine (ih _ kept).mono ?_
        rintro s' ⟨hsignal, hle, _⟩
        refine ⟨hsignal.trans ?_, ?_, fun _ => ?_⟩
        · show (s.t.signal_DFL info.si_signo).pending.signal = _
          unfold tcb.signal_DFL
          split <;> rfl
        · rw [List.length_cons]
          omega
        · rw [List.length_cons]
          omega
      · split
        · rename_i hact
          apply hkeep
          rintro ⟨_, hne⟩
          exact hne hact
        · split
          · exact .error trivial
          · refine .ok ⟨rfl, ?_, fun _ => ?_⟩ <;> simp [tcb.queued, setList]

/-! ## Runs -/

/-- Set, queue and count agree, and every entry is of a signal. -/
structure Inv (s : Sys) : Prop where
  consistent : s.t.Consistent
  valid : ∀ v ∈ s.t.queued, valid_signal v

variable {s s' : Sys}

theorem Inv.start (s : Sys) : s.start.Inv where
  consistent := ⟨Mirrors.init, rfl⟩
  valid := by
    intro v hv
    cases hv

theorem Inv.of_same (h : s.Inv) (hpending : s'.t.pending = s.t.pending)
    (hcnt : s'.t.sig_pending_cnt = s.t.sig_pending_cnt) : s'.Inv := by
  have hqueued : s'.t.queued = s.t.queued := by rw [tcb.queued, hpending, tcb.queued]
  refine ⟨⟨?_, ?_⟩, ?_⟩
  · rw [hpending, hqueued]
    exact h.consistent.mirrors
  · rw [hcnt, hqueued]
    exact h.consistent.count
  · rw [hqueued]
    exact h.valid

theorem Inv.of_empty (hpending : s'.t.pending = ⟨[], 0⟩) (hcnt : s'.t.sig_pending_cnt = 0) : s'.Inv := by
  have hqueued : s'.t.queued = [] := by rw [tcb.queued, hpending, List.map_nil]
  refine ⟨⟨?_, ?_⟩, ?_⟩
  · rw [hpending, hqueued]
    exact Mirrors.init
  · rw [hcnt, hqueued]
    rfl
  · rw [hqueued]
    intro v hv
    cases hv

theorem Inv.valid_info (h : s.Inv) {info : siginfo_t} (hmem : info ∈ s.t.pending.list) : valid_signal info.si_signo :=
  h.valid _ (List.mem_map_of_mem hmem)

theorem queued_append {t : tcb} {info : siginfo_t} {set : sigset_t}
    (h : t.pending = ⟨s.t.pending.list ++ [info], set⟩) : t.queued = s.t.queued ++ [info.si_signo] := by
  rw [tcb.queued, h, List.map_append]
  rfl

/-- A signal is sent. -/
theorem Inv.signal_send (h : s.Inv) {info : siginfo_t} {page : Bool}
    (hclean : valid_signal info.si_signo ∨ s.t.sig_existed info.si_signo ∨ page = false) :
    Inv { s with t := s.t.signal_send info page } ∧
      Sent { s with t := s.t.signal_send info page } (.signal_send info page) := by
  rcases hex : s.t.sig_existed info.si_signo
  · rcases page with _ | _
    · exact ⟨h.of_same tcb.signal_send_no_page.1 tcb.signal_send_no_page.2, trivial⟩
    have hvalid : valid_signal info.si_signo := by
      rcases hclean with hv | hv | hv
      · exact hv
      · rw [hex] at hv
        cases hv
      · cases hv
    obtain ⟨hpending, hcnt⟩ := tcb.signal_send_new hex
    have hqueued := queued_append (s := s) hpending
    refine ⟨⟨⟨?_, ?_⟩, ?_⟩, fun _ => ?_⟩
    · rw [hqueued, hpending]
      exact h.consistent.mirrors.send hvalid hex
    · rw [hqueued, hcnt, h.consistent.count, List.length_append]
      rfl
    · rw [hqueued]
      intro v hv
      rcases List.mem_append.mp hv with hv | hv
      · exact h.valid v hv
      · rw [List.mem_singleton.mp hv]
        exact hvalid
    · rw [hqueued]
      exact List.mem_append_right _ (List.mem_singleton.mpr rfl)
  · rw [tcb.signal_send_existed hex]
    refine ⟨h, ?_⟩
    rcases page with _ | _
    · trivial
    · intro hvalid
      exact (h.consistent.mirrors.bit _ hvalid).mp hex

theorem syscall_sigreturn_pending (s : Sys) :
    (syscall_sigreturn s.phys s.pt s.t).pending =
        ⟨s.t.pending.list, sig_del_set_mask s.t.pending.signal (sig_gen_mask s.returning)⟩ ∧
      (syscall_sigreturn s.phys s.pt s.t).sig_pending_cnt = s.t.sig_pending_cnt := by
  have hrestore : (signal_frame_restore s.phys s.pt s.t s.t.trapframe.sp).1.pending = s.t.pending ∧
      (signal_frame_restore s.phys s.pt s.t s.t.trapframe.sp).1.sig_pending_cnt = s.t.sig_pending_cnt ∧
      (signal_frame_restore s.phys s.pt s.t s.t.trapframe.sp).1.sig_ing = s.returning := by
    unfold signal_frame_restore returning
    rcases readUc s.phys s.pt s.t.trapframe.sp with _ | bytes
    · exact ⟨rfl, rfl, rfl⟩
    rcases readRiscv s.phys s.pt s.t.trapframe.sp with _ | bytes'
    · exact ⟨rfl, rfl, rfl⟩
    · dsimp only
      split <;> exact ⟨rfl, rfl, rfl⟩
  obtain ⟨hpending, hcnt, hsig⟩ := hrestore
  unfold syscall_sigreturn sys_rt_sigreturn
  dsimp only
  rw [hpending, hcnt, hsig]
  exact ⟨rfl, rfl⟩

theorem queued_sigreturn (s : Sys) : (syscall_sigreturn s.phys s.pt s.t).queued = s.t.queued := by
  rw [tcb.queued, (syscall_sigreturn_pending s).1, tcb.queued]

/-- **Step lemma.** A clean event keeps set, queue and count in agreement. -/
theorem Inv.step {e : Event} (h : s.Inv) (hclean : s.Clean e) (hs : s.Step e s') : s'.Inv ∧ s'.Sent e := by
  cases e with
  | signal_send info page =>
    cases hs
    exact h.signal_send hclean
  | signal_handle files mm =>
    refine ⟨?_, trivial⟩
    have hs : s.signal_handle files mm = .ok s' := hs
    unfold Sys.signal_handle at hs
    rcases Decidable.em (s.t.sig_pending_cnt = 0) with hzero | hzero
    · rw [if_pos hzero] at hs
      cases hs
      exact h
    · rw [if_neg hzero, handleLoop_quiet files mm s [] _ (fun _ hi => h.valid_info hi) hclean] at hs
      cases hs
      exact h
  | signal_queue_pop mask =>
    cases hs
    exact ⟨h.of_same (signal_queue_pop_apart hclean) rfl, trivial⟩
  | signal_queue_flush =>
    cases hs
    have hnil : s.t.queued = [] := by rw [tcb.queued, show s.t.pending.list = [] from hclean, List.map_nil]
    refine ⟨.of_empty rfl ?_, trivial⟩
    show s.t.sig_pending_cnt = 0
    rw [h.consistent.count, hnil]
    rfl
  | sys_rt_sigreturn =>
    cases hs
    have hpending := syscall_sigreturn_pending s
    refine ⟨⟨⟨?_, ?_⟩, ?_⟩, trivial⟩
    · show Mirrors (syscall_sigreturn s.phys s.pt s.t).pending.signal (syscall_sigreturn s.phys s.pt s.t).queued
      rw [queued_sigreturn, hpending.1]
      exact h.consistent.mirrors.del_iff.mpr hclean
    · show (syscall_sigreturn s.phys s.pt s.t).sig_pending_cnt = (syscall_sigreturn s.phys s.pt s.t).queued.length
      rw [queued_sigreturn, hpending.2]
      exact h.consistent.count
    · show ∀ v ∈ (syscall_sigreturn s.phys s.pt s.t).queued, valid_signal v = true
      rw [queued_sigreturn]
      exact h.valid
  | free_thread =>
    cases hs
    exact ⟨.of_empty rfl rfl, trivial⟩
  | do_sigaction sig act =>
    cases hs
    have hsame := tcb.do_sigaction_pending s.t sig act
    exact ⟨h.of_same hsame.1 hsame.2, trivial⟩
  | do_sigprocmask how set =>
    cases hs
    have hsame := tcb.do_sigprocmask_pending s.t how set
    exact ⟨h.of_same hsame.1 hsame.2, trivial⟩
  | user phys pt tf =>
    cases hs
    exact ⟨h.of_same rfl rfl, trivial⟩

/-- An event that is not clean breaks the agreement. -/
theorem Inv.clean_of_consistent {e : Event} (h : s.Inv) (hs : s.Step e s') (hs' : s'.t.Consistent) : s.Clean e := by
  have hcount : s.t.sig_pending_cnt = s.t.pending.list.length := by rw [h.consistent.count, tcb.queued, List.length_map]
  cases e with
  | signal_send info page =>
    cases hs
    rcases hvalid : valid_signal info.si_signo
    · rcases hex : s.t.sig_existed info.si_signo
      · rcases page with _ | _
        · exact .inr (.inr rfl)
        obtain ⟨hpending, _⟩ := tcb.signal_send_new hex
        have hmirrors := hs'.mirrors
        rw [queued_append (s := s) hpending, hpending] at hmirrors
        exact absurd hmirrors (h.consistent.mirrors.not_send hvalid hex)
      · exact .inr (.inl hex)
    · exact .inl hvalid
  | signal_handle files mm =>
    intro info hinfo hdel
    have hpos : s.t.sig_pending_cnt ≠ 0 := by
      have := List.length_pos_of_mem hinfo
      omega
    have hs : s.signal_handle files mm = .ok s' := hs
    rw [Sys.signal_handle, if_neg hpos] at hs
    obtain ⟨hsignal, _, hlt⟩ := (handleLoop_lost files mm s [] s.t.pending.list).of_ok hs
    have hlost := hlt ⟨info, hinfo, hdel⟩
    have hmirrors := hs'.mirrors
    rw [hsignal] at hmirrors
    refine h.consistent.mirrors.not_of_lost h.valid ?_ hmirrors
    rwa [List.length_nil, Nat.zero_add, ← List.length_map (f := siginfo_t.si_signo)] at hlost
  | signal_queue_pop mask =>
    cases hs
    show sig_test_mask s.t.pending.signal mask = false
    rw [← Bool.not_eq_true]
    intro hmask
    have hlost : ((signal_queue_pop mask s.t.pending).1.list.map siginfo_t.si_signo).length < s.t.queued.length :=
      signal_queue_pop_lost rfl h.consistent.mirrors hmask
    have hcnt : s.t.sig_pending_cnt = ((signal_queue_pop mask s.t.pending).1.list.map siginfo_t.si_signo).length := hs'.count
    rw [h.consistent.count] at hcnt
    omega
  | signal_queue_flush =>
    cases hs
    have hcnt : s.t.sig_pending_cnt = 0 := hs'.count
    apply List.eq_nil_of_length_eq_zero
    omega
  | sys_rt_sigreturn =>
    cases hs
    have hmirrors : Mirrors (syscall_sigreturn s.phys s.pt s.t).pending.signal
        (syscall_sigreturn s.phys s.pt s.t).queued := hs'.mirrors
    rw [queued_sigreturn, (syscall_sigreturn_pending s).1] at hmirrors
    exact h.consistent.mirrors.del_iff.mp hmirrors
  | free_thread => trivial
  | do_sigaction sig act => trivial
  | do_sigprocmask how set => trivial
  | user phys pt tf => trivial

/-- **Pending signals.** From the allocation of a thread on, set, queue and count agree after every event of a run and
each signal that is sent is queued, if and only if the events of the run are clean. -/
theorem pending_signals_consistent (s₀ s : Sys) (es : List Event) :
    Run (Guarded Step Keeps) s₀.start es s ↔ Run (Guarded Step Clean) s₀.start es s := by
  refine Run.guarded_iff (I := Inv) ?_ ?_ (.start s₀)
  · intro s e s' h hclean hs
    exact (h.step hclean hs).1
  intro s e s' h hs
  constructor
  · intro hkeeps
    exact h.clean_of_consistent hs (hkeeps s' hs).1
  · intro hclean s'' hs''
    obtain ⟨hinv, hsent⟩ := h.step hclean hs''
    exact ⟨hinv.consistent, hsent⟩

/-! ## The second signal -/

/-- A thread with the default action for every signal. -/
def idle : Sys :=
  ⟨⟨fun _ => 0, fun _ => false, fun _ => 0, fun _ _ => 0, []⟩, uvmcreate,
    ⟨false, 0, fun _ => ⟨SIG_DFL, 0⟩, 0, sigpending_init, 0, ⟨fun _ => 0⟩⟩⟩

/-- SIGALRM from the kernel. -/
def alarm : Event := .signal_send (signal_info_init 14 true) true

def deliver : Event :=
  .signal_handle (fun _ _ => none) (Vma.fresh (fun _ => ⟨.VMA_ANON, 0, 0, 0, 0, none⟩) (fun _ => false) 0)

/-- After SIGALRM has been delivered once, the bit stays and a second one is dropped. -/
theorem second_alarm_dropped : ∃ s, Run Step idle.start [alarm, deliver, alarm] s ∧
    (sig_is_member s.t.pending.signal 14, s.t.queued, s.t.sig_pending_cnt) = (true, [], 0) := by
  have hrun : ∃ s, exec (fun s e => (next s e).toOption) idle.start [alarm, deliver, alarm] = some s ∧
      (sig_is_member s.t.pending.signal 14, s.t.queued, s.t.sig_pending_cnt) = (true, [], 0) := by
    refine ⟨_, rfl, ?_⟩
    decide
  obtain ⟨s, hexec, hobs⟩ := hrun
  exact ⟨s, (run_of_exec _ _ _ hexec).mono fun _ _ _ h => ok_of_toOption h, hobs⟩

end Sys

end LostWakeup.Ipc.Signal
