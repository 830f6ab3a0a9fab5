/-
# LostWakeup.Fs.Select — `sys_pselect6` in `src/fs/select.c`: which descriptors are ready.

The call goes through the open descriptors again and again, and counts; no bit is looked at.  `select` is what the call is
for: it keeps the sets until a descriptor that is asked for is ready.  `pselect6_iff` says when the two agree.

What the pipes are like when each descriptor is looked at, and what the clock shows, is part of a `Call`.  The copies
from and to the user are left out.
-/
import Mathlib.Data.Finset.Card
import Mathlib.Data.Finset.Range
import LostWakeup.Ipc.Pipe
import LostWakeup.Library.CInt

namespace LostWakeup.Fs.Select

open Library Ipc
open Finset (filter_true_of_mem mem_filter)
open Option (map_some)

/-! ## Descriptors and sets -/

inductive type_t
  | FD_NONE
  | FD_PIPE
  | FD_INODE
  | FD_DEVICE
  | FD_SOCKET
  deriving DecidableEq

def NOFILE : Nat := 400

def FD_SETSIZE : Nat := 1024

/-- The bits of a set. -/
abbrev fd_set := Finset Nat

inductive Panic
  /-- `this type not tested`. -/
  | not_tested
  /-- An access beyond the table or beyond a set. -/
  | overrun
  deriving DecidableEq

/-- The type of each open file, the arguments, the pipe behind a descriptor in a turn of the loop, for reading or
writing, and the two readings of the clock at its end. -/
structure Call where
  ofile : Nat → Option type_t
  nfds : Int
  readfds : Option fd_set
  writefds : Option fd_set
  exceptfds : Option fd_set
  time_out : Nat
  pipe : Nat → Bool → Nat → Pipe Unit
  clock : Nat → Nat × Nat

def FD_CLR (i : Nat) (fds : fd_set) : Except Panic fd_set :=
  if FD_SETSIZE ≤ i then .error .overrun else .ok (fds.erase i)

def pipereadable (pi : Pipe Unit) : Bool := pi.readopen

def pipewriteable (pi : Pipe Unit) : Bool := pi.writeopen

/-- The test of a pipe before a descriptor is cleared, the other way round. -/
def pipeReady (write : Bool) (pi : Pipe Unit) : Bool :=
  if write then pipewriteable pi && !decide pi.PIPE_FULL else pipereadable pi && !decide pi.PIPE_EMPTY

/-- The body of the loops over the descriptors. -/
def look (c : Call) (n : Nat) (write : Bool) (i : Nat) (fds : fd_set) (ret : Nat) : Except Panic (fd_set × Nat) :=
  if NOFILE ≤ i then .error .overrun
  else
    match c.ofile i with
    | none => .ok (fds, ret)
    | some .FD_INODE => .ok (fds, ret)
    | some .FD_PIPE =>
      if pipeReady write (c.pipe n write i) then .ok (fds, ret + 1) else (FD_CLR i fds).map fun fds => (fds, ret)
    | some .FD_DEVICE => .ok (fds, ret + 1)
    | some .FD_SOCKET => .ok (fds, ret + 1)
    | some .FD_NONE => .error .not_tested

def lookAll (c : Call) (n : Nat) (write : Bool) : List Nat → fd_set → Nat → Except Panic (fd_set × Nat)
  | [], fds, ret => .ok (fds, ret)
  | i :: is, fds, ret => do
    let r ← look c n write i fds ret
    lookAll c n write is r.1 r.2

def clearAll : List Nat → fd_set → Except Panic fd_set
  | [], fds => .ok fds
  | i :: is, fds => do clearAll is (← FD_CLR i fds)

/-- The descriptors below `nfds`. -/
def Call.fds (c : Call) : List Nat := List.range c.nfds.toNat

/-- The sets of the call. -/
structure Sets where
  readfds : Option fd_set
  writefds : Option fd_set
  exceptfds : Option fd_set
  deriving DecidableEq

def Call.sets (c : Call) : Sets := ⟨c.readfds, c.writefds, c.exceptfds⟩

/-- A loop over the descriptors, if the set is given. -/
def lookIf (c : Call) (n : Nat) (write : Bool) : Option fd_set → Nat → Except Panic (Option fd_set × Nat)
  | none, ret => .ok (none, ret)
  | some fds, ret => do
    let r ← lookAll c n write c.fds fds ret
    return (some r.1, r.2)

def clearIf (c : Call) : Option fd_set → Except Panic (Option fd_set)
  | none => .ok none
  | some fds => do return some (← clearAll c.fds fds)

/-- Turn `n` of the loop up to the clock. -/
def turn (c : Call) (n : Nat) (s : Sets) : Except Panic (Sets × Nat) := do
  let r ← lookIf c n false s.readfds 0
  let w ← lookIf c n true s.writefds r.2
  let e ← clearIf c s.exceptfds
  return (⟨r.1, w.1, e⟩, w.2)

/-- The `while` loop from turn `n` on, at most `fuel` turns of it: the return value with the sets. -/
def loop (c : Call) : Nat → Nat → Sets → Except Panic (Option (Sets × Nat))
  | 0, _, _ => .ok none
  | fuel + 1, n, s => do
    let r ← turn c n s
    if r.2 ≠ 0 ∨ (c.clock n).2 > add64 (c.clock n).1 c.time_out then return some r
    else loop c fuel (n + 1) r.1

/-- How a call ends. -/
inductive Outcome
  | rejected
  | returned (sets : Sets) (ret : Nat)
  deriving DecidableEq

/-- `sys_pselect6` after `fuel` turns. -/
def sys_pselect6 (c : Call) (fuel : Nat) : Except Panic (Option Outcome) :=
  (loop c fuel 0 c.sets).map fun r => r.map fun r => .returned r.1 r.2

/-! ## What the call is for -/

/-- An open descriptor is ready, or a pipe that the test finds ready. -/
def Call.ready (c : Call) (n : Nat) (write : Bool) (i : Nat) : Bool :=
  match c.ofile i with
  | none => false
  | some .FD_NONE => false
  | some .FD_PIPE => pipeReady write (c.pipe n write i)
  | some _ => true

/-- The descriptors that are asked for and ready in turn `n`. -/
def Call.answer (c : Call) (n : Nat) (write : Bool) (fds : fd_set) : fd_set :=
  fds.filter fun i => (i : Int) < c.nfds ∧ c.ready n write i = true

/-- No exception is ever there. -/
def Call.answers (c : Call) (n : Nat) : Sets where
  readfds := c.readfds.map (c.answer n false)
  writefds := c.writefds.map (c.answer n true)
  exceptfds := c.exceptfds.map fun _ => ∅

def bits : Option fd_set → Nat
  | none => 0
  | some fds => fds.card

def Sets.bits (s : Sets) : Nat := Select.bits s.readfds + Select.bits s.writefds + Select.bits s.exceptfds

/-- The clock is past the start of the call by more than the timeout. -/
def Call.Passed (c : Call) (n : Nat) : Prop := (c.clock n).2 > (c.clock 0).1 + c.time_out

instance decPassed (c : Call) (n : Nat) : Decidable (c.Passed n) := inferInstanceAs (Decidable (_ > _))

/-- Look until something that is asked for is ready, or the time has passed. -/
def select (c : Call) : Nat → Nat → Option Outcome
  | 0, _ => none
  | fuel + 1, n =>
    if (c.answers n).bits ≠ 0 ∨ c.Passed n then some (.returned (c.answers n) (c.answers n).bits)
    else select c fuel (n + 1)

/-- What `fuel` turns of the call should do. -/
def wanted (c : Call) (fuel : Nat) : Option Outcome :=
  if fuel ≠ 0 ∧ (NOFILE : Int) < c.nfds then some .rejected else select c fuel 0

/-- **The call does what it is for.** -/
def Meets (c : Call) : Prop := ∀ fuel, sys_pselect6 c fuel = .ok (wanted c fuel)

/-! ## The condition -/

/-- A descriptor that the loop counts. -/
def Call.counted (c : Call) (n : Nat) (write : Bool) (i : Nat) : Bool :=
  c.ready n write i && decide (c.ofile i ≠ some .FD_INODE)

/-- How many descriptors the loop counts in turn `n`, asked for or not. -/
def Call.count (c : Call) (n : Nat) : Nat :=
  (if c.readfds.isSome then c.fds.countP (c.counted n false) else 0) +
    (if c.writefds.isSome then c.fds.countP (c.counted n true) else 0)

/-- Something that is asked for is ready, or the time has passed. -/
def Call.Over (c : Call) (n : Nat) : Prop := (c.answers n).bits ≠ 0 ∨ c.Passed n

/-- Something is counted, or the turn itself took longer than the timeout. -/
def Call.Stops (c : Call) (n : Nat) : Prop := c.count n ≠ 0 ∨ (c.clock n).2 > add64 (c.clock n).1 c.time_out

/-- All that is asked for is open and below `nfds`, and what is ready has been ready in all turns. -/
def Call.Steady (c : Call) (n : Nat) (write : Bool) (fds : Option fd_set) : Prop :=
  ∀ f ∈ fds, ∀ i ∈ f, (i : Int) < c.nfds ∧ c.ofile i ≠ none ∧
    (c.ready n write i = true → ∀ m ≤ n, c.ready m write i = true)

/-- **The condition**, up to the turn in which the call should end: the table is large enough and its files have a type,
no turn but that one ends the call, and in that one the descriptors asked for are steady, no exception is asked for beyond
`nfds`, and as many descriptors are counted as are asked for and ready. -/
structure Cond (c : Call) : Prop where
  nfds : c.nfds ≤ NOFILE
  typed : (c.readfds.isSome ∨ c.writefds.isSome) → ∀ i : Nat, (i : Int) < c.nfds → c.ofile i ≠ some .FD_NONE
  ends : ∀ n, (∀ m < n, ¬c.Over m) → (c.Over n ↔ c.Stops n)
  steady : ∀ n, (∀ m < n, ¬c.Over m) → c.Over n →
    c.Steady n false c.readfds ∧ c.Steady n true c.writefds ∧ (∀ f ∈ c.exceptfds, ∀ i ∈ f, (i : Int) < c.nfds) ∧
      c.count n = (c.answers n).bits

/-! ## One turn -/

section Turn

variable {c : Call} {n : Nat} {write : Bool} {fds : fd_set} {ret i : Nat}

theorem mem_fds (c : Call) (i : Nat) : i ∈ c.fds ↔ (i : Int) < c.nfds := by
  rw [Call.fds, List.mem_range]
  omega

/-- The descriptors whose bits the turn clears. -/
def Call.Blocked (c : Call) (n : Nat) (write : Bool) (i : Nat) : Prop :=
  c.ofile i = some .FD_PIPE ∧ c.ready n write i = false

instance decBlocked (c : Call) (n : Nat) (write : Bool) : DecidablePred (c.Blocked n write) :=
  fun _ => inferInstanceAs (Decidable (_ ∧ _))

theorem look_ok (hfile : i < NOFILE) (htype : c.ofile i ≠ some .FD_NONE) : look c n write i fds ret =
    .ok (if c.Blocked n write i then fds.erase i else fds, ret + if c.counted n write i = true then 1 else 0) := by
  have hset : ¬FD_SETSIZE ≤ i := by
    simp only [FD_SETSIZE, NOFILE] at *
    omega
  rw [look, if_neg hfile.not_ge]
  rcases hty : c.ofile i with _ | ty
  · simp [Call.Blocked, Call.counted, Call.ready, hty]
  cases ty with
  | FD_NONE => exact absurd hty htype
  | FD_PIPE =>
    rcases hready : pipeReady write (c.pipe n write i) with _ | _
    · simp [Call.Blocked, Call.counted, Call.ready, hty, hready, FD_CLR, hset, Except.map]
    · simp [Call.Blocked, Call.counted, Call.ready, hty, hready]
  | FD_INODE => simp [Call.Blocked, Call.counted, Call.ready, hty]
  | FD_DEVICE => simp [Call.Blocked, Call.counted, Call.ready, hty]
  | FD_SOCKET => simp [Call.Blocked, Call.counted, Call.ready, hty]

theorem lookAll_ok {is : List Nat} (hok : ∀ i ∈ is, i < NOFILE ∧ c.ofile i ≠ some .FD_NONE) :
    lookAll c n write is fds ret =
      .ok (fds.filter fun i => ¬(i ∈ is ∧ c.Blocked n write i), ret + is.countP (c.counted n write)) := by
  induction is generalizing fds ret with
  | nil =>
    have hall : (fds.filter fun i => ¬(i ∈ ([] : List Nat) ∧ c.Blocked n write i)) = fds :=
      filter_true_of_mem fun i _ h => absurd h.1 List.not_mem_nil
    rw [lookAll, hall]
    rfl
  | cons i is ih =>
    obtain ⟨⟨hfile, htype⟩, hrest⟩ := List.forall_mem_cons.mp hok
    rw [lookAll, look_ok hfile htype]
    show lookAll c n write is _ _ = _
    rw [ih hrest, List.countP_cons]
    refine congrArg Except.ok (Prod.ext ?_ ?_)
    · ext j
      rw [mem_filter, mem_filter, List.mem_cons]
      split
      · next hblocked =>
        rw [Finset.mem_erase]
        constructor
        · rintro ⟨⟨hne, hj⟩, hno⟩
          exact ⟨hj, fun ⟨hmem, hb⟩ => hno ⟨hmem.resolve_left hne, hb⟩⟩
        rintro ⟨hj, hno⟩
        refine ⟨⟨?_, hj⟩, fun ⟨hmem, hb⟩ => hno ⟨.inr hmem, hb⟩⟩
        rintro rfl
        exact hno ⟨.inl rfl, hblocked⟩
      · next hblocked =>
        constructor
        · rintro ⟨hj, hno⟩
          refine ⟨hj, ?_⟩
          rintro ⟨rfl | hmem, hb⟩
          · exact hblocked hb
          · exact hno ⟨hmem, hb⟩
        · rintro ⟨hj, hno⟩
          exact ⟨hj, fun ⟨hmem, hb⟩ => hno ⟨.inr hmem, hb⟩⟩
    · dsimp only
      omega

theorem lookAll_error {is : List Nat} (hbad : ∃ i ∈ is, NOFILE ≤ i ∨ c.ofile i = some .FD_NONE) :
    ∃ e, lookAll c n write is fds ret = .error e := by
  induction is generalizing fds ret with
  | nil =>
    obtain ⟨i, hi, -⟩ := hbad
    exact absurd hi List.not_mem_nil
  | cons i is ih =>
    by_cases hi : NOFILE ≤ i ∨ c.ofile i = some .FD_NONE
    · rw [lookAll, look]
      rcases hi with hfile | htype
      · rw [if_pos hfile]
        exact ⟨_, rfl⟩
      rw [htype]
      split
      · exact ⟨_, rfl⟩
      · exact ⟨_, rfl⟩
    · obtain ⟨j, hj, hjbad⟩ := hbad
      rw [not_or, Nat.not_le] at hi
      have hmem : j ∈ is := by
        refine (List.mem_cons.mp hj).resolve_left ?_
        rintro rfl
        exact hjbad.elim (not_le.mpr hi.1) hi.2
      rw [lookAll, look_ok hi.1 hi.2]
      exact ih ⟨j, hmem, hjbad⟩

theorem clearAll_ok {is : List Nat} (hok : ∀ i ∈ is, i < FD_SETSIZE) :
    clearAll is fds = .ok (fds.filter fun i => i ∉ is) := by
  induction is generalizing fds with
  | nil =>
    rw [clearAll, filter_true_of_mem fun i _ => List.not_mem_nil]
  | cons i is ih =>
    obtain ⟨hi, hrest⟩ := List.forall_mem_cons.mp hok
    rw [clearAll, FD_CLR, if_neg hi.not_ge]
    show clearAll is (fds.erase i) = _
    rw [ih hrest]
    refine congrArg Except.ok ?_
    ext j
    rw [mem_filter, mem_filter, Finset.mem_erase, List.mem_cons, not_or]
    exact ⟨fun ⟨⟨hne, hj⟩, hno⟩ => ⟨hj, hne, hno⟩, fun ⟨hj, hne, hno⟩ => ⟨⟨hne, hj⟩, hno⟩⟩

end Turn

/-! ## The sets on the way -/

section Loop

variable {c : Call} {n : Nat}

/-- What is left of a set before turn `n`. -/
def Call.left (c : Call) (n : Nat) (write : Bool) (fds : fd_set) : fd_set :=
  fds.filter fun i => ¬((i : Int) < c.nfds ∧ ∃ m < n, c.Blocked m write i)

def Call.leftSets (c : Call) (n : Nat) : Sets where
  readfds := c.readfds.map (c.left n false)
  writefds := c.writefds.map (c.left n true)
  exceptfds := c.exceptfds.map fun fds => fds.filter fun i => ¬((i : Int) < c.nfds ∧ 0 < n)

theorem leftSets_zero (c : Call) : c.leftSets 0 = c.sets := by
  have hleft : ∀ (write : Bool) (fds : fd_set), c.left 0 write fds = fds := by
    intro write fds
    refine filter_true_of_mem fun i _ h => ?_
    obtain ⟨-, m, hm, -⟩ := h
    exact absurd hm (Nat.not_lt_zero m)
  have hexcept : ∀ fds : fd_set, (fds.filter fun i : Nat => ¬((i : Int) < c.nfds ∧ 0 < 0)) = fds :=
    fun fds => filter_true_of_mem fun i _ h => absurd h.2 (Nat.lt_irrefl 0)
  have hmap : ∀ {f : fd_set → fd_set} (o : Option fd_set), (∀ fds, f fds = fds) → o.map f = o := by
    intro f o hf
    rcases o with _ | fds
    · rfl
    · rw [map_some, hf]
  rw [Call.leftSets, Call.sets, hmap _ (hleft false), hmap _ (hleft true), hmap _ hexcept]

theorem left_succ (write : Bool) (fds : fd_set) :
    ((c.left n write fds).filter fun i => ¬(i ∈ c.fds ∧ c.Blocked n write i)) = c.left (n + 1) write fds := by
  ext i
  rw [Call.left, Call.left, Finset.filter_filter, mem_filter, mem_filter, mem_fds]
  refine and_congr_right fun _ => ⟨?_, ?_⟩
  · rintro ⟨hbefore, hnow⟩ ⟨hlt, m, hm, hblocked⟩
    rcases Nat.lt_succ_iff_lt_or_eq.mp hm with hm | rfl
    · exact hbefore ⟨hlt, m, hm, hblocked⟩
    · exact hnow ⟨hlt, hblocked⟩
  · intro h
    exact ⟨fun ⟨hlt, m, hm, hblocked⟩ => h ⟨hlt, m, Nat.lt_succ_of_lt hm, hblocked⟩,
      fun ⟨hlt, hblocked⟩ => h ⟨hlt, n, Nat.lt_succ_self n, hblocked⟩⟩

theorem lookIf_ok (hok : ∀ i ∈ c.fds, i < NOFILE ∧ c.ofile i ≠ some .FD_NONE) (write : Bool) (o : Option fd_set)
    (ret : Nat) : lookIf c n write (o.map (c.left n write)) ret =
      .ok (o.map (c.left (n + 1) write), ret + if o.isSome then c.fds.countP (c.counted n write) else 0) := by
  rcases o with _ | fds
  · rfl
  · rw [map_some, lookIf, lookAll_ok hok, map_some, ← left_succ]
    rfl

theorem clearIf_ok (hnfds : c.nfds ≤ NOFILE) (o : Option fd_set) :
    clearIf c (o.map fun fds => fds.filter fun i => ¬((i : Int) < c.nfds ∧ 0 < n)) =
      .ok (o.map fun fds => fds.filter fun i => ¬((i : Int) < c.nfds ∧ 0 < n + 1)) := by
  rcases o with _ | fds
  · rfl
  have hok : ∀ i ∈ c.fds, i < FD_SETSIZE := by
    intro i hi
    rw [mem_fds] at hi
    simp only [NOFILE, FD_SETSIZE] at *
    omega
  rw [map_some, clearIf, clearAll_ok hok, map_some]
  refine congrArg (fun fds => Except.ok (some fds)) ?_
  ext i
  rw [Finset.filter_filter, mem_filter, mem_filter, mem_fds]
  refine and_congr_right fun _ => ⟨fun h hno => h.2 hno.1, fun h => ⟨fun hno => h ⟨hno.1, Nat.succ_pos n⟩, fun hno => ?_⟩⟩
  exact h ⟨hno, Nat.succ_pos n⟩

/-- The files that the call looks at have a type. -/
def Call.Typed (c : Call) : Prop :=
  (c.readfds.isSome ∨ c.writefds.isSome) → ∀ i : Nat, (i : Int) < c.nfds → c.ofile i ≠ some .FD_NONE

/-- A turn counts, and clears what is blocked. -/
theorem turn_ok (hnfds : c.nfds ≤ NOFILE) (htyped : c.Typed) :
    turn c n (c.leftSets n) = .ok (c.leftSets (n + 1), c.count n) := by
  have hlook : ∀ (write : Bool) (o : Option fd_set), (o = c.readfds ∨ o = c.writefds) → ∀ ret,
      lookIf c n write (o.map (c.left n write)) ret =
        .ok (o.map (c.left (n + 1) write), ret + if o.isSome then c.fds.countP (c.counted n write) else 0) := by
    intro write o ho ret
    rcases o with _ | fds
    · rfl
    refine lookIf_ok (fun i hi => ?_) write _ ret
    rw [mem_fds] at hi
    refine ⟨by omega, htyped ?_ i hi⟩
    rcases ho with ho | ho
    · exact .inl (ho ▸ rfl)
    · exact .inr (ho ▸ rfl)
  rw [turn, Call.leftSets]
  dsimp only
  rw [hlook false _ (.inl rfl)]
  show (lookIf c n true _ _ >>= fun w => _) = _
  rw [hlook true _ (.inr rfl)]
  show (clearIf c _ >>= fun e => _) = _
  rw [clearIf_ok hnfds, Nat.zero_add]
  rfl

/-! ## The loop -/

instance decStops (c : Call) (n : Nat) : Decidable (c.Stops n) := inferInstanceAs (Decidable (_ ∨ _))

instance decOver (c : Call) (n : Nat) : Decidable (c.Over n) := inferInstanceAs (Decidable (_ ∨ _))

theorem loop_succ (hnfds : c.nfds ≤ NOFILE) (htyped : c.Typed) (fuel : Nat) :
    loop c (fuel + 1) n (c.leftSets n) =
      if c.Stops n then .ok (some (c.leftSets (n + 1), c.count n)) else loop c fuel (n + 1) (c.leftSets (n + 1)) := by
  rw [loop, turn_ok hnfds htyped]
  rfl

theorem select_succ (fuel : Nat) : select c (fuel + 1) n =
    if c.Over n then some (.returned (c.answers n) (c.answers n).bits) else select c fuel (n + 1) := rfl

theorem loop_reach (hnfds : c.nfds ≤ NOFILE) (htyped : c.Typed) (fuel : Nat) (hgo : ∀ m < n, ¬c.Stops m) :
    loop c (n + fuel) 0 (c.leftSets 0) = loop c fuel n (c.leftSets n) := by
  induction n generalizing fuel with
  | zero => rw [Nat.zero_add]
  | succ n ih =>
    rw [Nat.add_assoc, Nat.add_comm 1, ih (fuel + 1) fun m hm => hgo m (Nat.lt_succ_of_lt hm),
      loop_succ hnfds htyped, if_neg (hgo n (Nat.lt_succ_self n))]

theorem select_reach (fuel : Nat) (hgo : ∀ m < n, ¬c.Over m) : select c (n + fuel) 0 = select c fuel n := by
  induction n generalizing fuel with
  | zero => rw [Nat.zero_add]
  | succ n ih =>
    rw [Nat.add_assoc, Nat.add_comm 1, ih (fuel + 1) fun m hm => hgo m (Nat.lt_succ_of_lt hm), select_succ,
      if_neg (hgo n (Nat.lt_succ_self n))]

end Loop

/-! ## When the call does what it is for -/

section Meets

variable {c : Call} {n : Nat}

theorem answer_iff {write : Bool} {fds : fd_set}
    (htyped : ∀ i : Nat, (i : Int) < c.nfds → c.ofile i ≠ some .FD_NONE) :
    c.left (n + 1) write fds = c.answer n write fds ↔ ∀ i ∈ fds, (i : Int) < c.nfds ∧ c.ofile i ≠ none ∧
      (c.ready n write i = true → ∀ m ≤ n, c.ready m write i = true) := by
  -- a descriptor that is not blocked is ready, or has no file
  have hopen : ∀ {i : Nat} (m : Nat), (i : Int) < c.nfds → c.ofile i ≠ none → ¬c.Blocked m write i →
      c.ready m write i = true := by
    intro i m hlt hfile hfree
    rcases hty : c.ofile i with _ | ty
    · exact absurd hty hfile
    cases ty with
    | FD_NONE => exact absurd hty (htyped i hlt)
    | FD_PIPE =>
      by_contra hnot
      exact hfree ⟨hty, Bool.eq_false_iff.mpr hnot⟩
    | FD_INODE => simp [Call.ready, hty]
    | FD_DEVICE => simp [Call.ready, hty]
    | FD_SOCKET => simp [Call.ready, hty]
  have hblocked : ∀ {i m : Nat}, c.Blocked m write i → c.ready m write i = true → False := by
    intro i m hb hready
    rw [hb.2] at hready
    cases hready
  have hmem : ∀ i, i ∈ c.left (n + 1) write fds ↔ i ∈ fds ∧ ¬((i : Int) < c.nfds ∧ ∃ m < n + 1, c.Blocked m write i) :=
    fun i => mem_filter
  have hans : ∀ i, i ∈ c.answer n write fds ↔ i ∈ fds ∧ ((i : Int) < c.nfds ∧ c.ready n write i = true) :=
    fun i => mem_filter
  constructor
  · intro heq i hi
    -- a bit that no turn looks at stays set
    have hlt : (i : Int) < c.nfds := by
      by_contra hge
      have hleft := (hmem i).mpr ⟨hi, fun h => hge h.1⟩
      rw [heq] at hleft
      exact hge ((hans i).mp hleft).2.1
    have hfile : c.ofile i ≠ none := by
      intro hnone
      have hleft := (hmem i).mpr ⟨hi, fun ⟨_, m, _, hb⟩ => by rw [hb.1] at hnone; cases hnone⟩
      rw [heq] at hleft
      have hready := ((hans i).mp hleft).2.2
      rw [Call.ready, hnone] at hready
      cases hready
    refine ⟨hlt, hfile, fun hready m hm => hopen m hlt hfile fun hb => ?_⟩
    have hleft := (hans i).mpr ⟨hi, hlt, hready⟩
    rw [← heq] at hleft
    exact ((hmem i).mp hleft).2 ⟨hlt, m, Nat.lt_succ_of_le hm, hb⟩
  · intro hsteady
    ext i
    rw [hmem, hans]
    refine and_congr_right fun hi => ?_
    obtain ⟨hlt, hfile, hready⟩ := hsteady i hi
    constructor
    · intro hno
      exact ⟨hlt, hopen n hlt hfile fun hb => hno ⟨hlt, n, Nat.lt_succ_self n, hb⟩⟩
    · rintro ⟨-, hnow⟩ ⟨-, m, hm, hb⟩
      exact hblocked hb (hready hnow m (Nat.le_of_lt_succ hm))

theorem map_answer_iff (write : Bool) (o : Option fd_set)
    (htyped : o.isSome → ∀ i : Nat, (i : Int) < c.nfds → c.ofile i ≠ some .FD_NONE) :
    o.map (c.left (n + 1) write) = o.map (c.answer n write) ↔ c.Steady n write o := by
  rcases o with _ | fds
  · exact iff_of_true rfl fun f hf => by cases hf
  rw [map_some, map_some, Option.some.injEq, answer_iff (htyped rfl)]
  constructor
  · rintro h f hf
    cases hf
    exact h
  · exact fun h => h fds rfl

theorem map_except_iff (o : Option fd_set) :
    (o.map fun fds => fds.filter fun i : Nat => ¬((i : Int) < c.nfds ∧ 0 < n + 1)) = o.map (fun _ => (∅ : fd_set)) ↔
      ∀ f ∈ o, ∀ i ∈ f, (i : Int) < c.nfds := by
  rcases o with _ | fds
  · exact iff_of_true rfl fun f hf => by cases hf
  rw [map_some, map_some, Option.some.injEq, Finset.filter_eq_empty_iff]
  constructor
  · rintro h f hf i hi
    cases hf
    exact (not_not.mp (h hi)).1
  · intro h i hi hno
    exact hno ⟨h fds rfl i hi, Nat.succ_pos n⟩

theorem answers_iff (htyped : c.Typed) : c.leftSets (n + 1) = c.answers n ↔
    c.Steady n false c.readfds ∧ c.Steady n true c.writefds ∧ ∀ f ∈ c.exceptfds, ∀ i ∈ f, (i : Int) < c.nfds := by
  rw [Call.leftSets, Call.answers, Sets.mk.injEq, map_answer_iff false _ fun h => htyped (.inl h),
    map_answer_iff true _ fun h => htyped (.inr h), map_except_iff]

theorem cond_run (h : Cond c) (fuel : Nat) (hgo : ∀ m < n, ¬c.Over m) :
    (loop c fuel n (c.leftSets n)).map (fun r => r.map fun r => Outcome.returned r.1 r.2) = .ok (select c fuel n) := by
  induction fuel generalizing n with
  | zero => rfl
  | succ fuel ih =>
    rw [loop_succ h.nfds h.typed, select_succ]
    by_cases hover : c.Over n
    · obtain ⟨hread, hwrite, hexcept, hcount⟩ := h.steady n hgo hover
      rw [if_pos ((h.ends n hgo).mp hover), if_pos hover, (answers_iff h.typed).mpr ⟨hread, hwrite, hexcept⟩, hcount]
      rfl
    rw [if_neg fun hstops => hover ((h.ends n hgo).mpr hstops), if_neg hover]
    refine ih fun m hm => ?_
    rcases Nat.lt_succ_iff_lt_or_eq.mp hm with hm | rfl
    · exact hgo m hm
    · exact hover

theorem Meets.nfds (h : Meets c) : c.nfds ≤ NOFILE := by
  by_contra hlarge
  have hone := h 1
  rw [wanted, if_pos ⟨Nat.one_ne_zero, Int.not_le.mp hlarge⟩, sys_pselect6] at hone
  rcases hloop : loop c 1 0 c.sets with e | r
  · rw [hloop] at hone
    cases hone
  rw [hloop] at hone
  rcases r with _ | r
  · cases hone
  · cases hone

theorem Meets.typed (h : Meets c) : c.Typed := by
  intro hgiven i hi hnone
  have hone := h 1
  have hbad : ∃ j ∈ c.fds, NOFILE ≤ j ∨ c.ofile j = some .FD_NONE := ⟨i, (mem_fds c i).mpr hi, .inr hnone⟩
  have hturn : ∃ e, turn c 0 c.sets = .error e := by
    rw [turn, Call.sets]
    rcases hread : c.readfds with _ | fds
    · rcases hwrite : c.writefds with _ | fds
      · rw [hread, hwrite] at hgiven
        rcases hgiven with hno | hno
        · cases hno
        · cases hno
      obtain ⟨e, he⟩ := @lookAll_error c 0 true fds 0 c.fds hbad
      refine ⟨e, ?_⟩
      show (lookIf c 0 true (some fds) 0 >>= fun w => _) = _
      rw [lookIf, he]
      rfl
    · obtain ⟨e, he⟩ := @lookAll_error c 0 false fds 0 c.fds hbad
      refine ⟨e, ?_⟩
      show (lookIf c 0 false (some fds) 0 >>= fun r => _) = _
      rw [lookIf, he]
      rfl
  obtain ⟨e, he⟩ := hturn
  rw [sys_pselect6, loop, he] at hone
  cases hone

/-- Up to the turn that should end it the call goes on, and there it ends with the answer. -/
theorem Meets.turn (h : Meets c) (hgo : ∀ m < n, ¬c.Over m) :
    (c.Over n ↔ c.Stops n) ∧ (c.Over n → c.leftSets (n + 1) = c.answers n ∧ c.count n = (c.answers n).bits) := by
  induction n using Nat.strong_induction_on with
  | _ n ih =>
    have hstops : ∀ m < n, ¬c.Stops m := fun m hm hstop =>
      hgo m hm ((ih m hm fun k hk => hgo k (hk.trans hm)).1.mpr hstop)
    have hlarge : ¬(n + 1 ≠ 0 ∧ (NOFILE : Int) < c.nfds) := fun hno => absurd h.nfds (Int.not_le.mpr hno.2)
    have hn := h (n + 1)
    rw [sys_pselect6, ← leftSets_zero, loop_reach h.nfds h.typed 1 hstops, wanted, if_neg hlarge,
      select_reach 1 hgo, loop_succ h.nfds h.typed, select_succ] at hn
    by_cases hover : c.Over n
    · rw [if_pos hover] at hn
      by_cases hstop : c.Stops n
      · rw [if_pos hstop] at hn
        refine ⟨iff_of_true hover hstop, fun _ => ?_⟩
        have heq : Outcome.returned (c.leftSets (n + 1)) (c.count n) =
            .returned (c.answers n) (c.answers n).bits := Option.some.inj (Except.ok.inj hn)
        exact ⟨(Outcome.returned.inj heq).1, (Outcome.returned.inj heq).2⟩
      · rw [if_neg hstop] at hn
        cases hn
    · rw [if_neg hover] at hn
      by_cases hstop : c.Stops n
      · rw [if_pos hstop] at hn
        cases hn
      · exact ⟨iff_of_false hover hstop, fun hno => absurd hno hover⟩

/-- **Ready descriptors.** The call does what it is for exactly under the condition. -/
theorem pselect6_iff (c : Call) : Meets c ↔ Cond c := by
  constructor
  · intro h
    refine ⟨h.nfds, h.typed, fun n hgo => (h.turn hgo).1, fun n hgo hover => ?_⟩
    obtain ⟨hsets, hcount⟩ := (h.turn hgo).2 hover
    obtain ⟨hread, hwrite, hexcept⟩ := (answers_iff h.typed).mp hsets
    exact ⟨hread, hwrite, hexcept, hcount⟩
  · intro h fuel
    rw [sys_pselect6, ← leftSets_zero, wanted, if_neg fun hno => absurd h.nfds (Int.not_le.mpr hno.2)]
    exact cond_run h fuel fun m hm => absurd hm (Nat.not_lt_zero m)

end Meets

/-- A pipe with nothing in it in the first turn, and a byte in the second; a turn takes a millisecond, and the timeout is a
second. -/
def late : Call where
  ofile := fun i => if i = 0 then some .FD_PIPE else none
  nfds := 1
  readfds := some {0}
  writefds := none
  exceptfds := none
  time_out := 1000000000
  pipe := fun n _ _ => ⟨none, fun _ => 0, 0, if n = 0 then 0 else 1, true, true⟩
  clock := fun n => (2000000 * n + 1000000, 2000000 * n + 2000000)

/-- The call returns 1 and no descriptor. -/
theorem late_lost : (¬∀ c : Call, Meets c) ∧
    sys_pselect6 late 2 = .ok (some (.returned ⟨some ∅, none, none⟩ 1)) ∧
    wanted late 2 = some (.returned ⟨some {0}, none, none⟩ 1) := by
  have hcall : sys_pselect6 late 2 = .ok (some (.returned ⟨some ∅, none, none⟩ 1)) := by decide +kernel
  have hwanted : wanted late 2 = some (.returned ⟨some {0}, none, none⟩ 1) := by decide +kernel
  refine ⟨fun hclaim => ?_, hcall, hwanted⟩
  have hmeets := hclaim late 2
  rw [hcall, hwanted] at hmeets
  exact absurd hmeets (by decide)

end LostWakeup.Fs.Select
