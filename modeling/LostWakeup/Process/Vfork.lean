/-
# LostWakeup.Process.Vfork — a clone with `CLONE_VM` gives the child its parent's page table.

`do_clone` puts the parent's root page into the child's `mm`, over the one that `create_proc` made for it, and copies the
areas.  From then on that table is nobody's, and `do_execve`, `do_exit` and `free_proc` each take down the child's
address space as if it were the child's alone.

What an exit does to open files, to the child's own children and to those who wait is left out.
-/
import LostWakeup.Process.Clone
import LostWakeup.Mm.Teardown

namespace LostWakeup.Process.Clone

open Library
open Function (update update_of_ne update_self)
open Mm.Vm (Phys PageTable Fault Files uvmcreate uvmunmap copyout orFault translate view THREAD_TRAPFRAME
  proc_freepagetable)
open Mm.Vma (vmacopy)

/-! ## The address spaces -/

/-- The tables of processes and threads and what is behind `mm`: the frames, the page table under each root page
and the areas of each process. -/
structure World where
  tables : Tables
  phys : Phys
  pagetables : Nat → PageTable
  areas : Nat → Mm.Vma.mm_struct

namespace World

/-- `free_mm` of the process `i`.  `freewalk` clears the entries on its way, and the root page goes last. -/
def free_mm (w : World) (i : Nat) (mm : mm_struct) (thread_cnt : Int) : Except Fault World := do
  let (k, areas) ← proc_freepagetable w.phys (w.pagetables mm.pagetable) (w.areas i) thread_cnt.toNat
  if w.tables.roots mm.pagetable = false then .error (.vm .kfree_refcnt)
  else return {
    tables := { w.tables with roots := update w.tables.roots mm.pagetable false }
    phys := k
    pagetables := update w.pagetables mm.pagetable uvmcreate
    areas := update w.areas i areas }

end World

/-- What `do_execve` has made when it commits. -/
structure Image where
  root : Nat
  phys : Phys
  table : PageTable
  areas : Mm.Vma.mm_struct

/-- The root page is a new one, and the frames that were taken are as they were. -/
structure Image.Loaded (im : Image) (w : World) : Prop where
  fresh : w.tables.roots im.root = false
  taken : ∀ frame, w.phys.busy frame = true → im.phys.busy frame = true ∧ im.phys.mem frame = w.phys.mem frame
  refcnt : ∀ page, w.phys.refcnt page ≠ 0 → im.phys.refcnt page = w.phys.refcnt page

namespace Tables

/-- `exit_process`. -/
def exit_process (s : Tables) (i : Nat) (status : Int) : Tables :=
  (s.PCB_Q_changeState i .PCB_ZOMBIE).modifyProc i fun n => { n with exit_state := int32 (status * 256) }

/-- `do_exit` of the thread `t` of the process `i`, but for the memory. -/
def exit_thread (s : Tables) (i t : Nat) (status : Int) : Tables :=
  let left := ((s.proc i).tg.map fun tg => int32 (tg.thread_cnt - 1)).getD 0
  let s := s.modifyProc i fun n => { n with tg := n.tg.map fun tg => { tg with thread_cnt := left } }
  let s := if left = 0 then s.exit_process i status else s
  let s := s.modifyProc i fun n => { n with tg := n.tg.map fun tg => { tg with threads := tg.threads.erase t } }
  s.leave_thread t

end Tables

/-- What the child and its parent do after the call. -/
inductive ChildEvent
  | exec (np : Nat) (im : Image)
  | exit (np t : Nat) (status : Int) (files : Files)
  | reap (np : Nat)

def ChildEvent.child : ChildEvent → Nat
  | exec np _ => np
  | exit np .. => np
  | reap np => np

def ChildEvent.isExit : ChildEvent → Bool
  | exit .. => true
  | _ => false

namespace World

/-- The commit of `do_execve`: the old address space is freed, then the new one is put in its place. -/
def exec (w : World) (np : Nat) (im : Image) : Except Fault World :=
  match (w.tables.proc np).mm, (w.tables.proc np).tg with
  | some oldmm, some tg => do
    let w ← free_mm { w with
      tables := { w.tables with roots := update w.tables.roots im.root true }
      phys := im.phys
      pagetables := update w.pagetables im.root im.table } np oldmm tg.thread_cnt
    return { w with
      tables := w.tables.modifyProc np fun n => { n with mm := some ⟨false, im.root, im.areas.start_brk, im.areas.brk⟩ }
      areas := update w.areas np im.areas }
  | _, _ => .error (.vm .null_pointer)

/-- `exit_wakeup`: a zero at `clear_child_tid`. -/
def exit_wakeup (w : World) (files : Files) (i t root : Nat) : Except Fault World :=
  let tid := (w.tables.thread t).clear_child_tid
  if tid = 0 then .ok w
  else do
    let (k, pt, ok) ← orFault (copyout files (w.areas i) w.phys (w.pagetables root) tid.toNat [0, 0, 0, 0])
    if ok then return { w with phys := k, pagetables := update w.pagetables root pt } else .error .exit_error

/-- `do_exit` of the thread `t`; `free_thread` unmaps its trap frame from the table of the process. -/
def exit (w : World) (np t : Nat) (status : Int) (files : Files) : Except Fault World :=
  match (w.tables.proc np).mm with
  | none => .error (.vm .null_pointer)
  | some mm => do
    let w ← w.exit_wakeup files np t mm.pagetable
    let frame := THREAD_TRAPFRAME (w.tables.thread t).tidx.toNat
    let (k, pt) ← orFault (uvmunmap w.phys (w.pagetables mm.pagetable) frame 1 (w.tables.thread t).trapframe.isSome true)
    return { w with
      tables := w.tables.exit_thread np t status
      phys := k
      pagetables := update w.pagetables mm.pagetable pt }

/-- `waitpid` of `p` when it has found the zombie `np`: `free_proc`, and the child goes from the list. -/
def reap (w : World) (p np : Nat) : Except Fault World :=
  match (w.tables.proc np).mm, (w.tables.proc np).tg with
  | some mm, some tg => do
    let w ← w.free_mm np mm tg.thread_idx
    let s := w.tables.leave_proc np (((w.tables.proc np).shm_clist).getD [])
    return { w with tables := s.modifyProc p fun n => { n with children := n.children.erase np } }
  | _, _ => .error (.vm .null_pointer)

def next (w : World) (p : Nat) : ChildEvent → Except Fault World
  | .exec np im => w.exec np im
  | .exit np t status files => w.exit np t status files
  | .reap np => w.reap p np

/-- Only a running child execs or exits, and only a zombie is reaped. -/
def ready (w : World) : ChildEvent → Prop
  | .exec np im => (w.tables.proc np).state = .PCB_USED ∧ im.Loaded w
  | .exit np t _ _ => (w.tables.proc np).state = .PCB_USED ∧ (w.tables.thread t).p = some np
  | .reap np => (w.tables.proc np).state = .PCB_ZOMBIE

/-- Whether `p` has the child of the event, and did not have it `before` the call. -/
def Enabled (w : World) (p : Nat) (before : List Nat) (e : ChildEvent) : Prop :=
  e.child ∈ (w.tables.proc p).children ∧ e.child ∉ before ∧ w.ready e

end World

def ChildStep (p : Nat) (before : List Nat) (w : World) (e : ChildEvent) (w' : World) : Prop :=
  w.Enabled p before e ∧ w.next p e = .ok w'

/-! ## The property -/

/-- The caller of `do_clone` with the address spaces: the root page of a process in use is allocated. -/
structure Parent extends Caller where
  phys : Phys
  pagetables : Nat → PageTable
  areas : Nat → Mm.Vma.mm_struct
  rooted : ∀ i mm, (proc i).state ≠ .PCB_UNUSED → (proc i).mm = some mm → roots mm.pagetable = true

/-- A call with `CLONE_VM` and without `CLONE_THREAD`, and what the rest of the kernel answers it. -/
structure Vfork (w : Parent) extends Call, Outcomes where
  shares : toCall.has CLONE_VM = true
  process : ¬ toCall.has CLONE_THREAD = true
  fresh : ∀ root, alloc_mm = some root → w.roots root = false
  /-- The areas of the new process before `vmacopy`. -/
  dst : Mm.Vma.mm_struct
  copies : toOutcomes.vmacopy = true →
    ∃ mm, Mm.Vma.vmacopy ((w.areas w.p).head_vma.map (w.areas w.p).vmas) dst = .ok (mm, true)

/-- The call returns `r`.  It may write the new thread's id to the memory of the caller. -/
structure Vforked (w : Parent) (v : Vfork w) (w' : World) (r : Int) : Prop where
  call : w.do_clone v.toOutcomes v.toCall w.cur = .ok (w'.tables, r)
  pagetables : ∀ root, w.roots root = true → root ≠ w.mm.pagetable → w'.pagetables root = w.pagetables root
  areas : ∀ i, (w.proc i).state ≠ .PCB_UNUSED → w'.areas i = w.areas i
  copied : ∀ np ∈ (w'.tables.proc w.p).children, np ∉ (w.proc w.p).children →
    vmacopy ((w.areas w.p).head_vma.map (w.areas w.p).vmas) v.dst = .ok (w'.areas np, true)

/-- The page is the root of a page table that is still allocated and that no process has. -/
def Leaked (w : World) (root : Nat) : Prop :=
  w.tables.roots root = true ∧
    ∀ i mm, (w.tables.proc i).state ≠ .PCB_UNUSED → (w.tables.proc i).mm = some mm → mm.pagetable ≠ root

/-- The parent's address space in `w'` is what it was in `w`, the next event frees no frame twice, and the table
that `create_proc` made is not leaked. -/
structure Contained (p root : Nat) (before : List Nat) (made : Option Nat) (w w' : World) : Prop where
  areas : w'.areas p = w.areas p
  translate : ∀ a, translate (w'.pagetables root) a = translate (w.pagetables root) a
  contents : ∀ a, view w'.phys (w'.pagetables root) a = view w.phys (w.pagetables root) a
  once : ∀ e, w'.Enabled p before e →
    w'.next p e ≠ .error (.vm .kfree_refcnt) ∧ w'.next p e ≠ .error (.vm .kfree_not_allocated)
  held : ∀ page, made = some page → ¬ Leaked w' page

/-- The child goes its way. -/
def After (w : Parent) : World → List ChildEvent → World → Prop :=
  Run (ChildStep w.p (w.proc w.p).children)

def ContainedAfter (w : Parent) (v : Vfork w) (w' w'' : World) : Prop :=
  Contained w.p w.mm.pagetable (w.proc w.p).children v.alloc_mm w' w''

/-- Whatever the child does, in whatever order, the parent does not notice. -/
def VforkContained (w : Parent) (v : Vfork w) : Prop :=
  ∀ w' r, Vforked w v w' r → ∀ es w'', After w w' es w'' → ContainedAfter w v w' w''

/-- Nothing is in the way of the call once `create_proc` has come back. -/
def Caller.completes (s : Caller) (o : Outcomes) (c : Call) : Prop :=
  c.written o ∧ c.handled o ∧ (s.proc s.p).lock = false ∧ c.copied o

/-- The call makes a child: there are a free process and a free thread, and everything can be allocated, written
and copied. -/
def Makes (w : Parent) (v : Vfork w) : Prop :=
  ∃ i rest t rest', w.pcb_q .PCB_UNUSED = i :: rest ∧ (w.proc i).lock = false ∧ v.complete ∧
    w.tcb_q .TCB_UNUSED = t :: rest' ∧ (w.thread t).lock = false ∧ w.completes v.toOutcomes v.toCall

/-! ## The call -/

namespace Caller

open Tables

variable {s : Caller} {o : Outcomes} {c : Call} {s' : Tables} {i t : Nat} {r : Int} {rest : List Nat}

/-- The caller has no new child, and the page for the new table, where it is allocated, is some process's. -/
structure Undone (s : Caller) (o : Outcomes) (s' : Tables) : Prop where
  children : (s'.proc s.p).children = (s.proc s.p).children
  held : ∀ root, o.alloc_mm = some root → s'.roots root = true →
    ∃ i mm, (s'.proc i).state ≠ .PCB_UNUSED ∧ (s'.proc i).mm = some mm ∧ mm.pagetable = root

theorem held_of_freed {s₁ : Tables} (hmm : (s₁.proc i).mm.map mm_struct.pagetable = o.alloc_mm)
    (hroots : s'.roots = fun page => s₁.roots page && (s₁.proc i).mm.map mm_struct.pagetable != some page) :
    ∀ root, o.alloc_mm = some root → s'.roots root = true →
      ∃ i mm, (s'.proc i).state ≠ .PCB_UNUSED ∧ (s'.proc i).mm = some mm ∧ mm.pagetable = root := by
  intro root halloc hroot
  rw [hroots, hmm, halloc] at hroot
  simp at hroot

theorem undone_of_incomplete (hflag : ¬ c.has CLONE_THREAD = true) (hq : s.pcb_q .PCB_UNUSED = i :: rest)
    (hi : (s.proc i).lock = false) (ho : ¬ o.complete) (h : s.do_clone o c s.cur = .ok (s', r)) : s.Undone o s' := by
  rcases alloc_proc_free (o := o) hq hi with ⟨s₁, hopen, -, hfails⟩
  have hne := caller_ne hq
  have hmm : (s₁.proc i).mm.map mm_struct.pagetable = o.alloc_mm := by
    rw [hopen.mm]
    cases o.alloc_mm <;> rfl
  rcases em (Freeable o (s₁.proc i)) with hfree | hfree
  · rcases alloc_proc_fails_free hopen.lock hfree with ⟨entries, hentries⟩
    rw [do_clone_none hflag (create_proc_none ((hfails ho).trans hentries))] at h
    cases h
    refine ⟨?_, held_of_freed hmm rfl⟩
    rw [modifyProc_ne _ _ hne, leave_proc_proc_ne _ _ hne, hopen.proc_ne _ hne]
  · rcases alloc_proc_fails_stops hopen.lock hfree with ⟨e, he⟩
    rw [do_clone_stops hflag (create_proc_stops ((hfails ho).trans he))] at h
    cases h

theorem undone_of_threadless (hflag : ¬ c.has CLONE_THREAD = true) (hq : s.pcb_q .PCB_UNUSED = i :: rest)
    (hi : (s.proc i).lock = false) (ho : o.complete) (ht : s.tcb_q .TCB_UNUSED = [])
    (h : s.do_clone o c s.cur = .ok (s', r)) : s.Undone o s' := by
  rcases threadless_create hq hi ho ht with ⟨s₁, hproc_ne, hmm, hlock, -, heq⟩
  have hne := caller_ne hq
  rcases em (Freeable o (s₁.proc i)) with hfree | hfree
  · rcases free_proc_free hlock hfree with ⟨entries, hentries⟩
    rw [do_clone_none hflag (heq.trans (by rw [hentries]; rfl))] at h
    cases h
    refine ⟨?_, held_of_freed hmm rfl⟩
    rw [leave_proc_proc_ne _ _ hne, hproc_ne _ hne]
  · rcases free_proc_stops hlock hfree with ⟨e, he⟩
    rw [do_clone_stops hflag (heq.trans (by rw [he]; rfl))] at h
    cases h

theorem undone_of_incompletable (hflag : ¬ c.has CLONE_THREAD = true) (hq : s.pcb_q .PCB_UNUSED = i :: rest)
    (hi : (s.proc i).lock = false) (ho : o.complete) {rest' : List Nat} (ht : s.tcb_q .TCB_UNUSED = t :: rest')
    (htl : (s.thread t).lock = false) (hc : ¬ s.completes o c) (h : s.do_clone o c s.cur = .ok (s', r)) :
    s.Undone o s' := by
  have hne := caller_ne hq
  rcases created_proc hq hi ho ht htl with ⟨s₁, hcreate, hcreated⟩
  have hlead := hcreated.lead hne
  rw [do_clone_created hflag hcreate hcreated] at h
  rcases em (c.written o) with hwritten | hwritten
  · rcases em (c.handled o) with hhandled | hhandled
    · rcases clone_thread_written (t := t) hlead hwritten hhandled with ⟨s₂, hs₂, hframed⟩
      rw [hs₂] at h
      have hp₂ : s₂.proc s.p = s.proc s.p := by rw [hframed.proc, hcreated.proc_ne _ hne]
      have hi₂ : (s₂.proc i).lock = true := by rw [hframed.proc, hcreated.lock]
      cases hpl : (s.proc s.p).lock with
      | true =>
        have hstop := h.symm.trans (clone_proc_held (by rw [hp₂, hpl]))
        cases hstop
      | false =>
        have hpl₂ : (s₂.proc s.p).lock = false := by rw [hp₂, hpl]
        have hcopied : ¬ c.copied o := fun hcopied => hc ⟨hwritten, hhandled, hpl, hcopied⟩
        rcases em (Freeable o (s₂.proc i)) with hfree | hfree
        · rcases clone_proc_uncopied (t := t) hcopied hne hpl₂ hi₂ hfree with ⟨s₃, hs₃, -, hchildren, hroots⟩
          have hret := h.symm.trans hs₃
          cases hret
          refine ⟨by rw [hchildren, hp₂], held_of_freed ?_ hroots⟩
          rw [hframed.proc, hcreated.mm]
        · rcases clone_proc_uncopied_stops (t := t) hcopied hne hpl₂ hi₂ hfree with ⟨e, he⟩
          have hret := h.symm.trans he
          cases hret
    · rcases clone_thread_unhandled hlead hwritten hhandled with ⟨e, he⟩
      rw [he] at h
      cases h
  · -- The process stays behind, and with it the table.
    rcases clone_thread_unwritten hlead hwritten with ⟨s₂, g, hs₂, hframed⟩
    rw [hs₂] at h
    cases h
    refine ⟨by rw [hframed.proc, hcreated.proc_ne _ hne], fun root halloc _ => ?_⟩
    have hmm := hcreated.mm
    rw [halloc, Option.map_eq_some_iff] at hmm
    rcases hmm with ⟨mm, hmm, hroot⟩
    refine ⟨i, mm, ?_, ?_, hroot⟩
    · rw [hframed.proc, hcreated.state]
      exact procstate.noConfusion
    · rw [hframed.proc, hmm]

/-- The child `i` shares the page table of the caller, and the page for its own is allocated. -/
structure Offspring (s : Caller) (o : Outcomes) (i : Nat) (s' : Tables) : Prop where
  roots : s'.roots = fun page => s.roots page || o.alloc_mm == some page
  others : ∀ u, u ≠ s.p → u ≠ i → s'.proc u = s.proc u
  parent : (s'.proc s.p).mm = some s.mm
  children : (s'.proc s.p).children = (s.proc s.p).children ++ [i]
  shared : (s'.proc i).mm.map mm_struct.pagetable = some s.mm.pagetable
  state : (s'.proc i).state = .PCB_USED

theorem offspring_of_completes (hflag : ¬ c.has CLONE_THREAD = true) (hvm : c.has CLONE_VM = true)
    (hq : s.pcb_q .PCB_UNUSED = i :: rest) (hi : (s.proc i).lock = false) (ho : o.complete) {rest' : List Nat}
    (ht : s.tcb_q .TCB_UNUSED = t :: rest') (htl : (s.thread t).lock = false) (hc : s.completes o c) :
    ∃ s', s.do_clone o c s.cur = .ok (s', s.next_pid) ∧ s.Offspring o i s' := by
  have hne := caller_ne hq
  rcases hc with ⟨hwritten, hhandled, hpl, hcopied⟩
  rcases created_proc hq hi ho ht htl with ⟨s₁, hcreate, hcreated⟩
  rcases clone_thread_written (t := t) (hcreated.lead hne) hwritten hhandled with ⟨s₂, hs₂, hframed⟩
  have hp₂ : s₂.proc s.p = s.proc s.p := by rw [hframed.proc, hcreated.proc_ne _ hne]
  have hrun := hframed.apart.not_runnable (hcreated.apart.not_runnable (unused_not_runnable ht))
  rcases clone_proc_copied hcopied hne (by rw [hp₂, hpl]) (by rw [hframed.proc, hcreated.lock])
    (hframed.lock.trans hcreated.thread_lock) hrun with ⟨s', hs', -, hlinked, hroot⟩
  refine ⟨s', ?_, ?_, fun u hup hui => ?_, ?_, ?_, ?_, ?_⟩
  · rw [do_clone_created hflag hcreate hcreated, hs₂]
    show s₂.clone_proc o c s.p i t = _
    rw [hs', hframed.proc, hcreated.pid]
  · rw [hlinked.roots, hframed.roots, hcreated.roots]
  · rw [hlinked.others u hup hui, hframed.proc, hcreated.proc_ne u hui]
  · rw [hlinked.parent_mm, hp₂, s.space]
  · rw [hlinked.children, hp₂]
  · rw [hroot, hp₂, s.space, hframed.proc]
    simp only [hvm, if_true, Option.map_some, Option.getD_some]
    have hmm := hcreated.mm
    rcases Option.isSome_iff_exists.mp ho.1 with ⟨root, halloc⟩
    rw [halloc, Option.map_eq_some_iff] at hmm
    rcases hmm with ⟨mm, hmm, -⟩
    rw [hmm]
    rfl
  · rw [hlinked.state, hframed.proc, hcreated.state]

/-- The two ways out of the call. -/
theorem undone_of_not_makes {w : Parent} {v : Vfork w} (hmakes : ¬ Makes w v)
    (h : w.do_clone v.toOutcomes v.toCall w.cur = .ok (s', r)) : w.Undone v.toOutcomes s' := by
  cases hq : w.pcb_q .PCB_UNUSED with
  | nil =>
    rw [do_clone_none v.process (create_proc_none (alloc_proc_empty hq))] at h
    cases h
    refine ⟨rfl, fun root halloc hroot => ?_⟩
    rw [v.fresh root halloc] at hroot
    cases hroot
  | cons i rest =>
    cases hi : (w.proc i).lock with
    | true =>
      rw [do_clone_stops v.process (create_proc_stops (alloc_proc_held hq hi))] at h
      cases h
    | false =>
      rcases em v.complete with ho | ho
      · cases ht : w.tcb_q .TCB_UNUSED with
        | nil => exact undone_of_threadless v.process hq hi ho ht h
        | cons t rest' =>
          cases htl : (w.thread t).lock with
          | true =>
            rw [do_clone_stops v.process (create_proc_held hq hi ho ht htl)] at h
            cases h
          | false =>
            apply undone_of_incompletable v.process hq hi ho ht htl _ h
            intro hc
            exact hmakes ⟨i, rest, t, rest', hq, hi, ho, ht, htl, hc⟩
      · exact undone_of_incomplete v.process hq hi ho h

theorem offspring_of_makes {w : Parent} {v : Vfork w} (hmakes : Makes w v) :
    ∃ i s', (w.proc i).state = .PCB_UNUSED ∧ w.do_clone v.toOutcomes v.toCall w.cur = .ok (s', w.next_pid) ∧
      w.Offspring v.toOutcomes i s' := by
  rcases hmakes with ⟨i, rest, t, rest', hq, hi, ho, ht, htl, hc⟩
  rcases offspring_of_completes v.process v.shares hq hi ho ht htl hc with ⟨s', hs', hoff⟩
  exact ⟨i, s', unused_proc hq, hs', hoff⟩

end Caller

/-! ## The child -/

namespace Tables

variable {s s' s'' : Tables} {np : Nat} {f : Proc → Proc}

/-- An exit keeps every address space, the children of everybody, and a process in use in use. -/
structure Exited (np : Nat) (s s' : Tables) : Prop where
  roots : s'.roots = s.roots
  proc_ne : ∀ u, u ≠ np → s'.proc u = s.proc u
  mm : (s'.proc np).mm = (s.proc np).mm
  children : (s'.proc np).children = (s.proc np).children
  state : (s.proc np).state ≠ .PCB_UNUSED → (s'.proc np).state ≠ .PCB_UNUSED

theorem Exited.trans (h : Exited np s s') (h' : Exited np s' s'') : Exited np s s'' where
  roots := h'.roots.trans h.roots
  proc_ne u hu := (h'.proc_ne u hu).trans (h.proc_ne u hu)
  mm := h'.mm.trans h.mm
  children := h'.children.trans h.children
  state hs := h'.state (h.state hs)

theorem modifyProc_exited (s : Tables) (np : Nat) (hf : ∀ n : Proc, (f n).mm = n.mm ∧
    (f n).children = n.children ∧ (n.state ≠ .PCB_UNUSED → (f n).state ≠ .PCB_UNUSED)) :
    Exited np s (s.modifyProc np f) where
  roots := rfl
  proc_ne _ hu := modifyProc_ne s f hu
  mm := by rw [modifyProc_self, (hf _).1]
  children := by rw [modifyProc_self, (hf _).2.1]
  state := by
    rw [modifyProc_self]
    exact (hf _).2.2

theorem leave_thread_exited (s : Tables) (np t : Nat) : Exited np s (s.leave_thread t) := by
  have hsame : (s.leave_thread t).proc = s.proc ∧ (s.leave_thread t).roots = s.roots := by
    rw [leave_thread]
    cases (s.thread t).sig <;> exact ⟨rfl, rfl⟩
  rcases hsame with ⟨hproc, hroots⟩
  exact ⟨hroots, fun u _ => by rw [hproc], by rw [hproc], by rw [hproc], by rw [hproc]; exact id⟩

theorem exit_process_exited (s : Tables) (np : Nat) (status : Int) : Exited np s (s.exit_process np status) := by
  have hzombie := modifyProc_exited (f := fun n => { n with state := .PCB_ZOMBIE }) s np
    fun n => ⟨rfl, rfl, fun _ => procstate.noConfusion⟩
  have hqueued : Exited np s (s.PCB_Q_changeState np .PCB_ZOMBIE) :=
    ⟨hzombie.roots, hzombie.proc_ne, hzombie.mm, hzombie.children, hzombie.state⟩
  exact hqueued.trans (modifyProc_exited _ np fun n => ⟨rfl, rfl, id⟩)

theorem exit_thread_exited (s : Tables) (np t : Nat) (status : Int) : Exited np s (s.exit_thread np t status) := by
  rw [exit_thread]
  refine Exited.trans ?_ (leave_thread_exited _ np t)
  refine Exited.trans ?_ (modifyProc_exited _ np fun n => ⟨rfl, rfl, id⟩)
  split
  · refine Exited.trans ?_ (exit_process_exited _ np status)
    exact modifyProc_exited s np fun n => ⟨rfl, rfl, id⟩
  · exact modifyProc_exited s np fun n => ⟨rfl, rfl, id⟩

end Tables

namespace World

variable {w w' w₁ : World} {i np p : Nat} {mm : mm_struct} {n : Int} {before : List Nat} {e : ChildEvent} {root : Nat}

theorem free_mm_ok (h : w.free_mm i mm n = .ok w') :
    w'.tables = { w.tables with roots := update w.tables.roots mm.pagetable false } ∧
      w'.pagetables = update w.pagetables mm.pagetable uvmcreate := by
  rw [free_mm] at h
  rcases ok_of_bind h with ⟨⟨k, areas⟩, -, h⟩
  dsimp only at h
  split at h
  · cases h
  · cases h
    exact ⟨rfl, rfl⟩

theorem exec_ok {im : Image} (h : w.exec np im = .ok w') :
    ∃ oldmm w₁, (w.tables.proc np).mm = some oldmm ∧
      w'.tables = w₁.modifyProc np (fun n => { n with mm := some ⟨false, im.root, im.areas.start_brk, im.areas.brk⟩ }) ∧
      w₁ = { w.tables with
        roots := update (update w.tables.roots im.root true) oldmm.pagetable false } ∧
      w'.pagetables oldmm.pagetable = uvmcreate := by
  rw [exec] at h
  split at h
  next oldmm tg hmm _ =>
    rcases ok_of_bind h with ⟨w₁, hfree, h⟩
    rcases free_mm_ok hfree with ⟨htables, hspace⟩
    cases h
    refine ⟨oldmm, w₁.tables, hmm, rfl, htables, ?_⟩
    dsimp only
    rw [hspace, update_self]
  · cases h

theorem exit_wakeup_tables {files : Files} {t : Nat} (h : w.exit_wakeup files i t root = .ok w') :
    w'.tables = w.tables := by
  rw [exit_wakeup] at h
  dsimp only at h
  split at h
  · cases h
    rfl
  rcases ok_of_bind h with ⟨⟨k, pt, ok⟩, -, h⟩
  dsimp only at h
  split at h
  · cases h
    rfl
  · cases h

theorem exit_ok {t : Nat} {status : Int} {files : Files} (h : w.exit np t status files = .ok w') :
    Tables.Exited np w.tables w'.tables := by
  rw [exit] at h
  split at h
  · cases h
  rcases ok_of_bind h with ⟨w₁, hwakeup, h⟩
  rcases ok_of_bind h with ⟨⟨k, pt⟩, -, h⟩
  cases h
  rw [← exit_wakeup_tables hwakeup]
  exact Tables.exit_thread_exited w₁.tables np t status

theorem reap_ok (h : w.reap p np = .ok w') :
    ∃ mm w₁ entries, (w.tables.proc np).mm = some mm ∧
      w'.tables = (w₁.leave_proc np entries).modifyProc p (fun n => { n with children := n.children.erase np }) ∧
      w₁ = { w.tables with roots := update w.tables.roots mm.pagetable false } ∧
      w'.pagetables mm.pagetable = uvmcreate := by
  rw [reap] at h
  split at h
  next mm tg hmm _ =>
    rcases ok_of_bind h with ⟨w₁, hfree, h⟩
    rcases free_mm_ok hfree with ⟨htables, hspace⟩
    cases h
    refine ⟨mm, w₁.tables, _, hmm, rfl, htables, ?_⟩
    dsimp only
    rw [hspace, update_self]
  · cases h

end World

/-! ## The new table -/

theorem Leaked.of_exited {w w' : World} {root np : Nat} (h : Leaked w root) (hstate : (w.tables.proc np).state ≠ .PCB_UNUSED)
    (he : Tables.Exited np w.tables w'.tables) : Leaked w' root := by
  refine ⟨by rw [he.roots]; exact h.1, fun i mm hi hmm => ?_⟩
  rcases eq_or_ne i np with rfl | hne
  · rw [he.mm] at hmm
    exact h.2 i mm hstate hmm
  · rw [he.proc_ne i hne] at hi hmm
    exact h.2 i mm hi hmm

/-- Nothing the child does gives it back: a step frees root pages that processes have. -/
theorem Leaked.step {w w' : World} {root p : Nat} {before : List Nat} {e : ChildEvent} (h : Leaked w root)
    (hs : ChildStep p before w e w') : Leaked w' root := by
  rcases hs with ⟨⟨-, -, hready⟩, hs⟩
  cases e with
  | exec np im =>
    rcases hready with ⟨hused, hloaded⟩
    have hstate : (w.tables.proc np).state ≠ .PCB_UNUSED := by
      rw [hused]
      exact procstate.noConfusion
    rcases World.exec_ok hs with ⟨oldmm, s₁, hmm, htables, hs₁, -⟩
    have hnew : root ≠ im.root := by
      rintro rfl
      have hfresh := hloaded.fresh
      rw [h.1] at hfresh
      cases hfresh
    have hproc : s₁.proc = w.tables.proc := by rw [hs₁]
    refine ⟨?_, fun i mm hi himm => ?_⟩
    · rw [htables]
      show s₁.roots root = true
      rw [hs₁]
      dsimp only
      rw [update_of_ne (h.2 np oldmm hstate hmm).symm, update_of_ne hnew, h.1]
    · rw [htables] at hi himm
      rcases eq_or_ne i np with rfl | hne
      · rw [Tables.modifyProc_self] at himm
        cases himm
        exact hnew.symm
      · rw [Tables.modifyProc_ne _ _ hne, hproc] at hi himm
        exact h.2 i mm hi himm
  | exit np t status files =>
    have hstate : (w.tables.proc np).state ≠ .PCB_UNUSED := by
      rw [hready.1]
      exact procstate.noConfusion
    exact h.of_exited hstate (World.exit_ok hs)
  | reap np =>
    have hstate : (w.tables.proc np).state ≠ .PCB_UNUSED := by
      rw [show (w.tables.proc np).state = .PCB_ZOMBIE from hready]
      exact procstate.noConfusion
    rcases World.reap_ok hs with ⟨mm, s₁, entries, hmm, htables, hs₁, -⟩
    have hproc : s₁.proc = w.tables.proc := by rw [hs₁]
    have hother := (h.2 np mm hstate hmm).symm
    refine ⟨?_, fun i mm' hi himm => ?_⟩
    · rw [htables]
      show (s₁.roots root && (s₁.proc np).mm.map mm_struct.pagetable != some root) = true
      rw [hproc, hmm, hs₁]
      dsimp only
      rw [update_of_ne hother, h.1]
      simpa using hother.symm
    · -- The list of children is neither a state nor an address space.
      have hsame : (w'.tables.proc i).state = ((s₁.leave_proc np entries).proc i).state ∧
          (w'.tables.proc i).mm = ((s₁.leave_proc np entries).proc i).mm := by
        rw [htables]
        rcases eq_or_ne i p with rfl | hne
        · rw [Tables.modifyProc_self]
          exact ⟨rfl, rfl⟩
        · rw [Tables.modifyProc_ne _ _ hne]
          exact ⟨rfl, rfl⟩
      rw [hsame.1] at hi
      rw [hsame.2] at himm
      rcases eq_or_ne i np with rfl | hne
      · exact absurd (Tables.leave_proc_proc s₁ i entries).1 hi
      · rw [Tables.leave_proc_proc_ne _ _ hne, hproc] at hi himm
        exact h.2 i mm' hi himm

variable {w : Parent} {v : Vfork w} {w' : World} {r : Int} {i : Nat}

theorem leaked_of_makes (hmakes : Makes w v) (hforked : Vforked w v w' r) :
    ∃ root, v.alloc_mm = some root ∧ Leaked w' root := by
  rcases Caller.offspring_of_makes hmakes with ⟨i, s', -, hs', hoff⟩
  have hret := hforked.call.symm.trans hs'
  cases hret
  rcases hmakes with ⟨-, -, -, -, -, -, ho, -⟩
  rcases Option.isSome_iff_exists.mp ho.1 with ⟨root, halloc⟩
  have hfresh := v.fresh root halloc
  have hother : w.mm.pagetable ≠ root := by
    rintro rfl
    have hlive : (w.proc w.p).state ≠ .PCB_UNUSED := by
      rw [w.live]
      exact procstate.noConfusion
    rw [w.rooted w.p w.mm hlive w.space] at hfresh
    cases hfresh
  refine ⟨root, halloc, ?_, fun u mm hu hmm => ?_⟩
  · rw [hoff.roots, halloc]
    simp
  rcases eq_or_ne u w.p with rfl | hp
  · rw [hoff.parent] at hmm
    cases hmm
    exact hother
  rcases eq_or_ne u i with rfl | hi
  · have hshared := hoff.shared
    rw [hmm, Option.map_some, Option.some.injEq] at hshared
    rw [hshared]
    exact hother
  rw [hoff.others u hp hi] at hu hmm
  rintro rfl
  rw [w.rooted u mm hu hmm] at hfresh
  cases hfresh

/-! ## The shared table -/

/-- The parent's only new child is `i`, and it has the page table of the parent. -/
structure Sharing (w : Parent) (i : Nat) (w₁ : World) : Prop where
  children : (w₁.tables.proc w.p).children = (w.proc w.p).children ++ [i]
  shared : (w₁.tables.proc i).mm.map mm_struct.pagetable = some w.mm.pagetable

theorem Sharing.child {w₁ : World} {e : ChildEvent} (h : Sharing w i w₁)
    (he : w₁.Enabled w.p (w.proc w.p).children e) : e.child = i := by
  rcases he with ⟨hmem, hnot, -⟩
  rw [h.children] at hmem
  rcases List.mem_append.mp hmem with hold | hnew
  · exact absurd hold hnot
  · exact List.mem_singleton.mp hnew

theorem Sharing.exit {w₁ w₂ : World} {e : ChildEvent} (h : Sharing w i w₁) (he : e.isExit = true)
    (hs : ChildStep w.p (w.proc w.p).children w₁ e w₂) : Sharing w i w₂ := by
  have hchild := h.child hs.1
  cases e with
  | exec np im => cases he
  | reap np => cases he
  | exit np t status files =>
    replace hchild : np = i := hchild
    subst hchild
    have hexited := World.exit_ok hs.2
    refine ⟨?_, by rw [hexited.mm, h.shared]⟩
    rw [← h.children]
    rcases eq_or_ne w.p np with heq | hne
    · rw [heq, hexited.children]
    · rw [hexited.proc_ne _ hne]

theorem translate_uvmcreate (a : Nat) : translate uvmcreate a = none := Mm.Vm.translate_of_dir_none rfl rfl

/-- An exec or a reaping frees what the parent has mapped. -/
theorem Sharing.unmapped {w₁ w₂ : World} {e : ChildEvent} (h : Sharing w i w₁) (he : e.isExit = false)
    (hs : ChildStep w.p (w.proc w.p).children w₁ e w₂) (a : Nat) :
    translate (w₂.pagetables w.mm.pagetable) a = none := by
  have hchild := h.child hs.1
  have hroot : ∀ mm, (w₁.tables.proc i).mm = some mm → mm.pagetable = w.mm.pagetable := by
    intro mm hmm
    have hshared := h.shared
    rw [hmm, Option.map_some, Option.some.injEq] at hshared
    exact hshared
  cases e with
  | exit np t status files => cases he
  | exec np im =>
    replace hchild : np = i := hchild
    subst hchild
    rcases World.exec_ok hs.2 with ⟨oldmm, -, hmm, -, -, hempty⟩
    rw [← hroot oldmm hmm, hempty, translate_uvmcreate]
  | reap np =>
    replace hchild : np = i := hchild
    subst hchild
    rcases World.reap_ok hs.2 with ⟨mm, -, -, hmm, -, -, hempty⟩
    rw [← hroot mm hmm, hempty, translate_uvmcreate]

theorem sharing_of_makes (hmakes : Makes w v) (hforked : Vforked w v w' r) : ∃ i, Sharing w i w' := by
  rcases Caller.offspring_of_makes hmakes with ⟨i, s', -, hs', hoff⟩
  have hret := hforked.call.symm.trans hs'
  cases hret
  exact ⟨i, hoff.children, hoff.shared⟩

/-! ## The calls that make no child -/

theorem contained_of_not_makes (hmakes : ¬ Makes w v) : VforkContained w v := by
  intro w' r hforked es w'' hrun
  have hundone := Caller.undone_of_not_makes hmakes hforked.call
  have hidle : ∀ e, ¬ w'.Enabled w.p (w.proc w.p).children e := by
    rintro e ⟨hmem, hnot, -⟩
    rw [hundone.children] at hmem
    exact hnot hmem
  cases hrun with
  | cons hs _ => exact absurd hs.1 (hidle _)
  | nil =>
    refine ⟨rfl, fun _ => rfl, fun _ => rfl, fun e he => absurd he (hidle e), fun page hpage hleaked => ?_⟩
    rcases hundone.held page hpage hleaked.1 with ⟨i, mm, hi, hmm, hroot⟩
    exact hleaked.2 i mm hi hmm hroot

theorem not_contained_of_makes (hmakes : Makes w v) (hforked : Vforked w v w' r) {es : List ChildEvent} {w'' : World}
    (hrun : After w w' es w'') : ¬ ContainedAfter w v w' w'' := by
  rcases leaked_of_makes hmakes hforked with ⟨root, halloc, hleaked⟩
  intro hcontained
  exact hcontained.held root halloc (hrun.invariant (I := fun w => Leaked w root) (fun _ _ _ h hs => h.step hs) hleaked)

theorem vforked_of_makes (hmakes : Makes w v) : ∃ w', Vforked w v w' w.next_pid := by
  rcases Caller.offspring_of_makes hmakes with ⟨i, s', hunused, hs', hoff⟩
  rcases hmakes with ⟨-, -, -, -, -, -, -, -, -, -, -, -, hcopied⟩
  rcases v.copies hcopied.1 with ⟨mm, hmm⟩
  refine ⟨⟨s', w.phys, w.pagetables, update w.areas i mm⟩, hs', fun _ _ _ => rfl, fun u hu => ?_, fun np hmem hnot => ?_⟩
  · apply update_of_ne
    rintro rfl
    exact hu hunused
  have hnp : np = i := by
    rw [hoff.children] at hmem
    rcases List.mem_append.mp hmem with hold | hnew
    · exact absurd hold hnot
    · exact List.mem_singleton.mp hnew
  rw [hmm, hnp]
  dsimp only
  rw [update_self]

/-- The parent is safe from its child if and only if the call makes none.  After a call that makes one the table
of `create_proc` is leaked for good, and the first exec or reaping leaves the parent without a page. -/
theorem vfork_contained_iff (w : Parent) (v : Vfork w) :
    (VforkContained w v ↔ ¬ Makes w v) ∧
      ∀ w' r, Makes w v → Vforked w v w' r →
        (∀ es w'', After w w' es w'' → ¬ ContainedAfter w v w' w'') ∧
          ∀ es w₁ e w₂, After w w' es w₁ → (∀ e' ∈ es, e'.isExit = true) → e.isExit = false →
            ChildStep w.p (w.proc w.p).children w₁ e w₂ → ∀ a, translate (w₂.pagetables w.mm.pagetable) a = none := by
  refine ⟨⟨fun hcontained hmakes => ?_, contained_of_not_makes⟩, fun w' r hmakes hforked => ⟨fun es w'' => ?_, ?_⟩⟩
  · rcases vforked_of_makes hmakes with ⟨w', hforked⟩
    exact not_contained_of_makes hmakes hforked (.nil w') (hcontained w' _ hforked [] w' (.nil w'))
  · exact not_contained_of_makes hmakes hforked
  · intro es w₁ e w₂ hrun hexits he hs
    rcases sharing_of_makes hmakes hforked with ⟨i, hsharing⟩
    have hstill := (hrun.guard hexits).invariant (I := Sharing w i) (fun _ _ _ h hs => h.exit hs.1 hs.2) hsharing
    exact hstill.unmapped he hs

/-! ## `vfork` of the first process -/

/-- The first process has one page of text mapped at 0x1000, in the frame 2. -/
def firstParent : Parent where
  toCaller := firstProc
  phys := ⟨fun page => if page ≤ 3 then 1 else 0, fun frame => frame ≤ 3, fun _ => 0, fun _ _ => 0, []⟩
  pagetables _ :=
    { uvmcreate with roots := fun r => if r = 0 then some 1 else none }.setEntry 0
      (.table 3 fun slot => if slot = 1 then ⟨2, 0x1B⟩ else Mm.Vm.Pte.zero)
  areas _ := ⟨fun _ => ⟨.VMA_TEXT, 0x1000, 0x1000, 5, 0, none⟩, fun pos => pos == 0, [0], 0x2000, 0x2000, none⟩
  rooted i mm hi hmm := by
    rcases eq_or_ne i 0 with rfl | hne
    · cases hmm
      rfl
    have hidle : firstProc.proc i = idleProc := by
      simp only [firstProc, ne_eq, hne, not_false_eq_true, update_of_ne]
    rw [hidle] at hi
    exact absurd rfl hi

/-- `clone(CLONE_VM, 0, 0, 0, 0)`, with 7 for the root page of the new table. -/
def firstVfork : Vfork firstParent where
  toCall := ⟨CLONE_VM, 0, 0, 0⟩
  toOutcomes := ⟨some 7, true, true, true, some 8, true, true, true, true, true⟩
  shares := by decide
  process := by decide
  fresh root h := by
    cases h
    rfl
  dst := ⟨fun _ => ⟨.VMA_TEXT, 0, 0, 0, 0, none⟩, fun pos => pos == 0, [], 0, 0, none⟩
  copies _ := ⟨_, rfl⟩

theorem vfork_not_contained : ¬ VforkContained firstParent firstVfork := by
  have hmakes : Makes firstParent firstVfork :=
    ⟨1, [], 1, [], rfl, rfl, ⟨rfl, rfl, rfl⟩, rfl, rfl,
      ⟨fun h => absurd h (by decide), fun _ h => absurd h (by decide)⟩, .inr rfl, rfl, rfl, .inl (by decide)⟩
  intro hcontained
  rcases vforked_of_makes hmakes with ⟨w', hforked⟩
  exact not_contained_of_makes hmakes hforked (.nil w') (hcontained w' _ hforked [] w' (.nil w'))

end LostWakeup.Process.Clone
