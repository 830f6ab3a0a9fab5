/-
# LostWakeup.Fs.Sendfile — `sysfile.c`: bytes from a file to a file or a pipe, through a buffer in the kernel.

`do_sendfile` reads into a zeroed buffer of `count` bytes, writes from it, and moves three positions.  A file gets the
`nread` bytes that were read; a pipe gets `count`.  `sendfile_law_iff` says when a call is a transfer.

Files and inodes are looked up in tables, so that the two may be one.  Nothing else happens to the files during the
call, but others may use the pipe while the writer sleeps.
-/
import LostWakeup.Fs.FileOffsets
import LostWakeup.Ipc.Pipe

namespace LostWakeup.Fs.Sendfile

open Library Ipc
open Function (update update_of_ne update_self)
open Fs.PageCache (inode opened PGSIZE mappingOf view ReadResult fat32_inode_read fat32_inode_read_spec)
open Fs.FailedWrites (pagetable byteAt readable readable_good Good after fat32_inode_write)
open Fs.FileOffsets (uint uint_lt Written Spares Same contentAt inode_write_all written_iff)

/-! ## The code -/

inductive Panic
  /-- `buddy_get_pages` asserts that a block has an order of at most `BUDDY_MAX_ORDER`. -/
  | kzalloc
  | inode (e : PageCache.Panic)
  /-- Not a panic of the source: the writer to the pipe sleeps. -/
  | asleep

/-- The largest block, of 2^13 pages.  A `count` that wraps when it is rounded up to pages gets one page, and `memset`
runs out of it. -/
def KMALLOC_MAX : Nat := 2 ^ 13 * PGSIZE

/-- What the rest of the kernel does at one turn of a writer's loop: whether the process was killed, and the pipe when
the writer has slept. -/
structure Turn where
  proc_killed : Bool
  slept : Pipe Unit → Pipe Unit

/-- `pipe_write` from the kernel's `buf`, with the bytes that it stores; it sleeps when the turns are used up. -/
def pipe_write (buf : Nat → UInt8) (n : Int) : List Turn → Pipe Unit → Int → List UInt8 → Option (Pipe Unit × List UInt8 × Int)
  | [], pi, i, stored => if i < n then none else some (pi, stored, i)
  | turn :: turns, pi, i, stored =>
    if i < n then
      if pi.readopen = false ∨ turn.proc_killed = true then some (pi, stored, -1)
      else if pi.PIPE_FULL then pipe_write buf n turns (turn.slept pi) i stored
      else
        let ch := buf i.toNat
        let pi := { pi with
          data := update pi.data (Ring.slot PIPESIZE pi.nwrite) ch
          nwrite := pi.nwrite + 1 }
        pipe_write buf n turns pi (i + 1) (stored ++ [ch])
    else some (pi, stored, i)

inductive FileType (I P : Type)
  | FD_PIPE (f_pipe : P)
  | FD_INODE (f_inode : I)
  | other

structure OpenFile (I P : Type) where
  f_type : FileType I P
  f_pos : Int

/-- The user's `off_t`: what `either_copyin` gets of it, and whether `either_copyout` can change it. -/
structure UserOffset where
  value : Option Int
  writable : Bool

structure State (F I P : Type) where
  files : F → OpenFile I P
  inodes : I → inode
  pipes : P → Pipe Unit

structure Env where
  /-- Whether there is memory for the buffer. -/
  memory : Bool
  /-- What `offset` holds if it cannot be copied in. -/
  stale : Int
  budget : Nat → Nat
  rbeyond : Nat → UInt8
  wbeyond : Nat → UInt8
  turns : List Turn

/-- What a call leaves: the state, the user's offset, the bytes that it put in a pipe, and its result. -/
structure Sent (F I P : Type) where
  state : State F I P
  poff : Option UserOffset
  stored : List UInt8
  ret : Int

/-- `kbuf`: what was read, and the zeros of `kzalloc` behind it. -/
def kbuf (out : List UInt8) (i : Nat) : UInt8 := out.getD i 0

/-- The kernel's memory as `copyin` sees it: all of it is there. -/
def kernel (buf : Nat → UInt8) : pagetable := fun i => some fun o => buf (i * PGSIZE + o)

section

variable {F I P : Type} [DecidableEq F] [DecidableEq I] [DecidableEq P]

namespace State

def setInode (s : State F I P) (i : I) (ip : inode) : State F I P := { s with inodes := update s.inodes i ip }

def setPipe (s : State F I P) (p : P) (pi : Pipe Unit) : State F I P := { s with pipes := update s.pipes p pi }

/-- `f->f_pos += k`. -/
def advance (s : State F I P) (f : F) (k : Int) : State F I P :=
  { s with files := update s.files f { s.files f with f_pos := (s.files f).f_pos + k } }

end State

/-- The end of `do_sendfile`, after both transfers. -/
def finish (s : State F I P) (rf wf : F) (poff : Option UserOffset) (offset nread nwritten : Int) (stored : List UInt8) :
    Sent F I P :=
  match poff with
  | some p => ⟨s, some (if p.writable then { p with value := some (offset + nread) } else p), stored, nwritten⟩
  | none => ⟨(s.advance rf nread).advance wf nwritten, none, stored, nwritten⟩

/-- The position that is read from. -/
def startOffset (s : State F I P) (rf : F) (poff : Option UserOffset) (stale : Int) : Int :=
  match poff with
  | some p => p.value.getD stale
  | none => (s.files rf).f_pos

/-- The second half of `do_sendfile`, when `out` has been read. -/
def send (s : State F I P) (rf wf : F) (poff : Option UserOffset) (offset : Int) (count : Nat) (out : List UInt8) (env : Env) :
    Except Panic (Sent F I P) :=
  let nread := int32 out.length
  match (s.files wf).f_type with
  | .FD_PIPE p =>
    match pipe_write (kbuf out) (int32 count) env.turns (s.pipes p) 0 [] with
    | none => .error .asleep
    | some (pi, stored, nwritten) =>
      let s := s.setPipe p pi
      if nwritten < 0 then .ok ⟨s, poff, stored, -1⟩ else .ok (finish s rf wf poff offset nread nwritten stored)
  | .FD_INODE wrip =>
    match fat32_inode_write (s.inodes wrip) env.wbeyond (kernel (kbuf out)) 0 (uint (s.files wf).f_pos)
        (min count nread.toNat) with
    | .error e => .error (.inode e)
    | .ok (ip, nwritten) =>
      let s := s.setInode wrip ip
      if nwritten < 0 then .ok ⟨s, poff, [], -1⟩ else .ok (finish s rf wf poff offset nread nwritten [])
  | .other => .ok ⟨s, poff, [], -1⟩

/-- `do_sendfile`; `sys_sendfile` has seen to it that `rf` has an inode. -/
def do_sendfile (s : State F I P) (rf wf : F) (poff : Option UserOffset) (count : Nat) (env : Env) : Except Panic (Sent F I P) :=
  if KMALLOC_MAX < count then .error .kzalloc
  else if env.memory = false then .ok ⟨s, poff, [], -1⟩
  else
    match (s.files rf).f_type with
    | .FD_INODE rdip =>
      let offset := startOffset s rf poff env.stale
      match fat32_inode_read (s.inodes rdip) env.budget env.rbeyond (uint offset) (count % 2 ^ 32) with
      | .error e => .error (.inode e)
      | .ok (ip, out) =>
        let s := s.setInode rdip ip
        if int32 out.length ≤ 0 then .ok ⟨s, poff, [], -1⟩
        else send s rf wf poff offset count out env
    | _ => .ok ⟨s, poff, [], -1⟩

end

/-! ## What is wanted, and when it holds -/

section

variable {F I P : Type}

/-- The source position: the user's, or that of the file. -/
def source (s : State F I P) (rf : F) (poff : Option UserOffset) : Option Int :=
  match poff with
  | some p => p.value
  | none => some (s.files rf).f_pos

/-- Where the `k` bytes have gone.  A pipe has no position. -/
def Arrived (s : State F I P) (wf : F) (bytes : Nat → UInt8) (k : Int) (o : Sent F I P) : Prop :=
  match (s.files wf).f_type with
  | .FD_PIPE _ => o.stored = (List.range k.toNat).map bytes
  | .FD_INODE wrip =>
    Written (s.inodes wrip) (s.files wf).f_pos k bytes (o.state.inodes wrip) ∧
      (o.state.files wf).f_pos = (s.files wf).f_pos + k
  | .other => False

/-- The source position has moved by `k`, and only that. -/
def Advanced (s : State F I P) (rf : F) (poff : Option UserOffset) (pos k : Int) (o : Sent F I P) : Prop :=
  match poff with
  | some _ => (∃ p, o.poff = some p ∧ p.value = some (pos + k)) ∧ (o.state.files rf).f_pos = (s.files rf).f_pos
  | none => (o.state.files rf).f_pos = (s.files rf).f_pos + k

/-- `k` bytes were sent from `pos` on. -/
structure Transferred (s : State F I P) (rf wf : F) (rdip : I) (poff : Option UserOffset) (count : Nat) (pos k : Int)
    (o : Sent F I P) : Prop where
  nonneg : 0 ≤ pos
  le_count : k ≤ count
  le_size : pos + k ≤ (s.inodes rdip).i_size
  arrived : Arrived s wf (fun i => contentAt (s.inodes rdip) (pos.toNat + i)) k o
  advanced : Advanced s rf poff pos k o

/-- The source position is at or past the end of the file. -/
def AtEof (s : State F I P) (rf : F) (rdip : I) (poff : Option UserOffset) : Prop :=
  ∃ pos, source s rf poff = some pos ∧ ((s.inodes rdip).i_size : Int) ≤ pos

/-- A result that is not negative is a transfer, and at the end of the file it is 0. -/
structure Law (s : State F I P) (rf wf : F) (rdip : I) (poff : Option UserOffset) (count : Nat) (memory : Bool) (o : Sent F I P) :
    Prop where
  transfer : 0 ≤ o.ret → ∃ pos, source s rf poff = some pos ∧ Transferred s rf wf rdip poff count pos o.ret o
  eof : memory = true → AtEof s rf rdip poff → o.ret = 0

/-- The source position is one, and the cast to `uint` keeps it. -/
def SourceOk (s : State F I P) (rf : F) (poff : Option UserOffset) : Prop :=
  ∃ pos, source s rf poff = some pos ∧ pos = uint pos

variable [DecidableEq F] [DecidableEq I]

/-- The condition on the destination: a pipe must get all of `count` bytes, and the user's offset must be writable; a
file that does not refuse must not be given an offset or be the source itself, and its position must be a `uint` at
which no byte beside the range is lost. -/
def DestinationOk (s : State F I P) (rf wf : F) (poff : Option UserOffset) (count : Nat) (turns : List Turn) (out : List UInt8) :
    Prop :=
  match (s.files wf).f_type with
  | .FD_PIPE p =>
    (∃ pi stored, pipe_write (kbuf out) (int32 count) turns (s.pipes p) 0 [] = some (pi, stored, -1)) ∨
      (SourceOk s rf poff ∧ out.length = count ∧ ∀ p, poff = some p → p.writable = true)
  | .FD_INODE wrip =>
    2 ^ 32 ≤ uint (s.files wf).f_pos + out.length ∨
      (SourceOk s rf poff ∧ poff = none ∧ rf ≠ wf ∧ (s.files wf).f_pos = uint (s.files wf).f_pos ∧
        Spares (s.inodes wrip) (uint (s.files wf).f_pos) out.length)
  | .other => True

/-- There is no memory for the buffer, or the source is not at its end, and what is read, if anything, meets the condition
of the destination. -/
def Ok (s : State F I P) (rf wf : F) (rdip : I) (poff : Option UserOffset) (count : Nat) (env : Env) : Prop :=
  env.memory = false ∨
    (¬AtEof s rf rdip poff ∧ ∀ ip out, fat32_inode_read (s.inodes rdip) env.budget env.rbeyond
        (uint (startOffset s rf poff env.stale)) (count % 2 ^ 32) = .ok (ip, out) → out ≠ [] →
      DestinationOk (s.setInode rdip ip) rf wf poff count env.turns out)

end

/-! ## The write to a pipe -/

/-- A write to a pipe that returns has been broken off, or it has stored all of its bytes in order. -/
theorem pipe_write_result {buf : Nat → UInt8} {n : Nat} {turns : List Turn} {pi pi' : Pipe Unit} {i : Nat} {stored' : List UInt8} {r : Int}
    (hi : i ≤ n) (h : pipe_write buf n turns pi i ((List.range i).map buf) = some (pi', stored', r)) :
    r = -1 ∨ (r = n ∧ stored' = (List.range n).map buf) := by
  have hdone : ∀ {r' : Int} {stored₁ : List UInt8}, ¬ (i : Int) < n → (r', stored₁) = ((i : Int), (List.range i).map buf) →
      r' = -1 ∨ (r' = n ∧ stored₁ = (List.range n).map buf) := by
    rintro r' stored₁ hge heq
    obtain ⟨rfl, rfl⟩ := Prod.mk.inj heq
    obtain rfl : i = n := by omega
    exact .inr ⟨rfl, rfl⟩
  induction turns generalizing pi i with
  | nil =>
    rw [pipe_write] at h
    rcases em ((i : Int) < n) with hlt | hge
    · rw [if_pos hlt] at h
      cases h
    · rw [if_neg hge] at h
      cases h
      exact hdone hge rfl
  | cons turn turns ih =>
    rw [pipe_write] at h
    rcases em ((i : Int) < n) with hlt | hge
    · rw [if_pos hlt] at h
      split at h
      · cases h
        exact .inl rfl
      split at h
      · exact ih hi h hdone
      · -- the byte at `i` is stored
        have hnext : (List.range (i + 1)).map buf = (List.range i).map buf ++ [buf i] := by
          rw [List.range_succ, List.map_append, List.map_singleton]
        dsimp only at h
        rw [Int.toNat_natCast, ← hnext, show (i : Int) + 1 = ((i + 1 : Nat) : Int) from rfl] at h
        refine ih (by omega) h fun hge heq => ?_
        obtain ⟨rfl, rfl⟩ := Prod.mk.inj heq
        obtain rfl : i + 1 = n := by omega
        exact .inr ⟨rfl, rfl⟩
    · rw [if_neg hge] at h
      cases h
      exact hdone hge rfl

/-! ## The write to a file -/

theorem written_congr {ip ip₁ ip' : inode} {pos : Int} {n : Nat} {src src' : Nat → UInt8} (hsame : Same ip ip₁)
    (hsrc : ∀ k, k < n → src k = src' k) (h : Written ip₁ pos n src ip') : Written ip pos n src' ip' where
  size := by
    rw [← hsame.i_size]
    exact h.size
  bytes := by
    intro k hk
    obtain ⟨p, hp, hin, hbyte⟩ := h.bytes k hk
    exact ⟨p, hp, hin, hbyte.trans (hsrc k (by omega))⟩
  others := by
    intro p hp hout
    rw [h.others p (by rw [hsame.i_size]; exact hp) hout]
    exact hsame.bytes p hp

theorem byteAt_kernel (buf : Nat → UInt8) (k : Nat) : byteAt (kernel buf) k = buf k := by
  show buf (k / PGSIZE * PGSIZE + k % PGSIZE) = buf k
  rw [Nat.div_add_mod']

theorem kernel_good (buf : Nat → UInt8) (n : Nat) : Good (kernel buf) 0 n n where
  le := Nat.le_refl n
  mapped := fun _ _ => rfl
  stops := fun h => absurd h (Nat.lt_irrefl n)

/-- A write from the kernel's buffer is refused, or it comes back with its count. -/
theorem kernel_write {ip : inode} {beyond : Nat → UInt8} {buf : Nat → UInt8} {dpos : Int} {n : Nat} (hsize : ip.i_size < 2 ^ 32)
    (hpos : 0 < n) (hint : n < 2 ^ 31) :
    (2 ^ 32 ≤ uint dpos + n ∧ fat32_inode_write ip beyond (kernel buf) 0 (uint dpos) n = .ok (ip, -1)) ∨
      (uint dpos + n < 2 ^ 32 ∧ ∃ ip', fat32_inode_write ip beyond (kernel buf) 0 (uint dpos) n = .ok (ip', n) ∧
        (Written ip dpos n buf ip' ↔ dpos = uint dpos ∧ Spares ip (uint dpos) n)) := by
  have hlt := uint_lt dpos
  rcases lt_or_ge (uint dpos + n) (2 ^ 32) with hfits | hwrap
  · right
    obtain ⟨ip', hrun, hsize', hview, hnew⟩ := inode_write_all ip beyond (kernel_good buf n) hpos hfits
    have hr : int32 n = n := int32_of_range (by simp only [INT_MIN]; omega) (by simp only [INT_MAX]; omega)
    rw [hr] at hrun hsize'
    rw [if_neg (by omega)] at hsize'
    refine ⟨hfits, ip', hrun, ?_⟩
    rw [← written_iff hsize hpos hfits hsize' hview hnew]
    have hbuf : (fun k => byteAt (kernel buf) (0 + k)) = buf := funext fun k => by rw [Nat.zero_add, byteAt_kernel]
    rw [hbuf]
  · exact .inl ⟨hwrap, by rw [fat32_inode_write, if_pos (by omega)]⟩

/-! ## A transfer -/

section

variable {F I P : Type} {s : State F I P} {rf wf : F} {rdip : I} {poff : Option UserOffset} {count : Nat} {memory : Bool} {o : Sent F I P}

theorem law_failed (hmemory : memory = true) (hret : o.ret = -1) :
    Law s rf wf rdip poff count memory o ↔ ¬AtEof s rf rdip poff := by
  constructor
  · intro h heof
    have := h.eof hmemory heof
    omega
  · intro h
    exact ⟨fun hge => by omega, fun _ heof => absurd heof h⟩

theorem law_sent (hmemory : memory = true) {k : Nat} (hk : 0 < k) (hret : o.ret = k) :
    Law s rf wf rdip poff count memory o ↔
      ¬AtEof s rf rdip poff ∧ ∃ pos, source s rf poff = some pos ∧ Transferred s rf wf rdip poff count pos k o := by
  constructor
  · intro h
    refine ⟨fun heof => ?_, ?_⟩
    · have := h.eof hmemory heof
      omega
    · rw [← hret]
      exact h.transfer (by omega)
  · rintro ⟨hne, h⟩
    rw [← hret] at h
    exact ⟨fun _ => h, fun _ heof => absurd heof hne⟩

theorem startOffset_of_source {pos : Int} {stale : Int} (h : source s rf poff = some pos) : startOffset s rf poff stale = pos := by
  rcases poff with _ | p
  · exact Option.some_inj.mp h
  · rw [startOffset, show p.value = some pos from h, Option.getD_some]

theorem uint_of_le {size : Nat} {pos : Int} {k : Nat} (hsize : size < 2 ^ 32) (hnonneg : 0 ≤ pos) (hk : 0 < k)
    (hle : pos + k ≤ size) : pos = uint pos := by
  rw [uint]
  omega

theorem kbuf_eq {ip ip' : inode} {off n k : Nat} {out : List UInt8} (h : ReadResult ip off n ip' out) (hk : k < out.length) :
    kbuf out k = contentAt ip (off + k) := by
  rw [kbuf, List.getD_eq_getElem?_getD, List.getElem?_eq_getElem hk, Option.getD_some]
  exact (h.byte hk).2

variable [DecidableEq F]

theorem advance_self (s : State F I P) (f : F) (k : Int) : ((s.advance f k).files f).f_pos = (s.files f).f_pos + k := by
  show (update s.files f _ f).f_pos = _
  rw [update_self]

theorem advance_other {f g : F} (s : State F I P) (h : g ≠ f) (k : Int) : (s.advance f k).files g = s.files g :=
  update_of_ne h _ _

theorem finish_source (s : State F I P) (h : rf ≠ wf) (offset nread nwritten : Int) (stored : List UInt8) :
    ((finish s rf wf none offset nread nwritten stored).state.files rf).f_pos = (s.files rf).f_pos + nread := by
  show (((s.advance rf nread).advance wf nwritten).files rf).f_pos = _
  rw [advance_other _ h, advance_self]

theorem finish_destination (s : State F I P) (h : rf ≠ wf) (offset nread nwritten : Int) (stored : List UInt8) :
    ((finish s rf wf none offset nread nwritten stored).state.files wf).f_pos = (s.files wf).f_pos + nwritten := by
  show (((s.advance rf nread).advance wf nwritten).files wf).f_pos = _
  rw [advance_self, advance_other _ h.symm]

end

section

variable {F I P : Type} [DecidableEq I]

theorem setInode_self (s : State F I P) (i : I) (ip : inode) : (s.setInode i ip).inodes i = ip := by
  show update s.inodes i ip i = ip
  rw [update_self]

theorem setInode_other {i j : I} (s : State F I P) (h : j ≠ i) (ip : inode) : (s.setInode i ip).inodes j = s.inodes j := by
  show update s.inodes i ip j = s.inodes j
  rw [update_of_ne h]

end

section

variable {F I P : Type} [DecidableEq F] [DecidableEq I] {s : State F I P} {rf wf : F} {rdip : I} {poff : Option UserOffset}
  {count : Nat} {env : Env} {ip : inode} {out : List UInt8}

/-- A transfer to a file that does not refuse the write. -/
theorem file_sent_iff {wrip : I} {ip' : inode} (hsize : (s.inodes rdip).i_size < 2 ^ 32)
    (hwf : (s.files wf).f_type = .FD_INODE wrip) (hpos : 0 < out.length)
    (hres : ReadResult (s.inodes rdip) (uint (startOffset s rf poff env.stale)) count ip out)
    (hwrite : Written ((s.setInode rdip ip).inodes wrip) (s.files wf).f_pos out.length (kbuf out) ip' ↔
      (s.files wf).f_pos = uint (s.files wf).f_pos ∧
        Spares ((s.setInode rdip ip).inodes wrip) (uint (s.files wf).f_pos) out.length) :
    (∃ pos, source s rf poff = some pos ∧ Transferred s rf wf rdip poff count pos out.length
      (finish ((s.setInode rdip ip).setInode wrip ip') rf wf poff (startOffset s rf poff env.stale) out.length out.length [])) ↔
      SourceOk s rf poff ∧ poff = none ∧ rf ≠ wf ∧ (s.files wf).f_pos = uint (s.files wf).f_pos ∧
        Spares ((s.setInode rdip ip).inodes wrip) (uint (s.files wf).f_pos) out.length := by
  rw [← hwrite]
  have hsame : Same (s.inodes wrip) ((s.setInode rdip ip).inodes wrip) := by
    rcases eq_or_ne wrip rdip with rfl | hother
    · rw [setInode_self]
      exact FileOffsets.ReadResult.same hres
    · rw [setInode_other s hother]
      exact Same.refl _
  have hsame' : Same ((s.setInode rdip ip).inodes wrip) (s.inodes wrip) :=
    ⟨hsame.i_size.symm, fun p hp => (hsame.bytes p (by rw [← hsame.i_size]; exact hp)).symm⟩
  have hkbuf : ∀ pos : Int, source s rf poff = some pos → pos = uint pos → ∀ k, k < out.length →
      kbuf out k = contentAt (s.inodes rdip) (pos.toNat + k) := by
    intro pos hsource huint k hk
    rw [kbuf_eq hres hk, startOffset_of_source hsource]
    congr 2
    omega
  constructor
  · rintro ⟨pos, hsource, h⟩
    have huint := uint_of_le hsize h.nonneg hpos h.le_size
    have harrived := h.arrived
    unfold Arrived at harrived
    rw [hwf] at harrived
    obtain ⟨hwritten, hmoved⟩ := harrived
    rcases poff with _ | u
    · refine ⟨⟨pos, hsource, huint⟩, rfl, ?_, ?_⟩
      · rintro rfl
        have hboth : ((finish ((s.setInode rdip ip).setInode wrip ip') rf rf none (startOffset s rf none env.stale) out.length
            out.length []).state.files rf).f_pos = (s.files rf).f_pos + out.length + out.length := by
          show (((((s.setInode rdip ip).setInode wrip ip').advance rf out.length).advance rf out.length).files rf).f_pos = _
          rw [advance_self, advance_self]
          rfl
        rw [hboth] at hmoved
        omega
      · apply written_congr hsame' (fun k hk => (hkbuf pos hsource huint k hk).symm)
        have hleft : (finish ((s.setInode rdip ip).setInode wrip ip') rf wf none (startOffset s rf none env.stale) out.length
            out.length []).state.inodes wrip = ip' := setInode_self _ wrip ip'
        rw [hleft] at hwritten
        exact hwritten
    · -- with an offset the position of the destination stays
      have hstays : (s.files wf).f_pos = (s.files wf).f_pos + out.length := hmoved
      omega
  · rintro ⟨⟨pos, hsource, huint⟩, rfl, hne, hwritten⟩
    have hstart := @startOffset_of_source _ _ _ s rf none pos env.stale hsource
    have hin := hres.in_file hpos
    have hle := hres.length_le
    rw [hstart] at hin
    refine ⟨pos, hsource, by omega, by exact_mod_cast hle, by omega, ?_, ?_⟩
    · unfold Arrived
      rw [hwf]
      refine ⟨?_, finish_destination _ hne _ _ _ _⟩
      show Written _ _ _ _ (((s.setInode rdip ip).setInode wrip ip').inodes wrip)
      rw [setInode_self]
      exact written_congr hsame (hkbuf pos hsource huint) hwritten
    · exact finish_source _ hne _ _ _ _

end

section

variable {F I P : Type} [DecidableEq F] [DecidableEq I] [DecidableEq P] {s : State F I P} {rf wf : F} {rdip : I}
  {poff : Option UserOffset} {count : Nat} {env : Env} {o : Sent F I P} {ip : inode} {out : List UInt8}

/-- A transfer to a pipe that is not broken off. -/
theorem pipe_sent_iff {p : P} {pi : Pipe Unit} (hsize : (s.inodes rdip).i_size < 2 ^ 32)
    (hrd : (s.files rf).f_type = .FD_INODE rdip) (hwf : (s.files wf).f_type = .FD_PIPE p) (hpos : 0 < out.length)
    (hcount : count < 2 ^ 32) (hres : ReadResult (s.inodes rdip) (uint (startOffset s rf poff env.stale)) count ip out) :
    (∃ pos, source s rf poff = some pos ∧ Transferred s rf wf rdip poff count pos count
      (finish ((s.setInode rdip ip).setPipe p pi) rf wf poff (startOffset s rf poff env.stale) out.length count
        ((List.range count).map (kbuf out)))) ↔
      SourceOk s rf poff ∧ out.length = count ∧ ∀ p, poff = some p → p.writable = true := by
  have hle := hres.length_le
  have hne : rf ≠ wf := by
    rintro rfl
    rw [hrd] at hwf
    cases hwf
  constructor
  · rintro ⟨pos, hsource, h⟩
    have hadvanced := h.advanced
    refine ⟨⟨pos, hsource, uint_of_le hsize h.nonneg (by omega) h.le_size⟩, ?_⟩
    rcases poff with _ | u
    · have hmoved : _ = _ := hadvanced
      rw [finish_source _ hne] at hmoved
      refine ⟨?_, nofun⟩
      have hfile : (((s.setInode rdip ip).setPipe p pi).files rf).f_pos = (s.files rf).f_pos := rfl
      omega
    · obtain ⟨⟨u', hu', hvalue⟩, -⟩ := hadvanced
      have hstart := @startOffset_of_source _ _ _ s rf (some u) pos env.stale hsource
      rcases hw : u.writable with _ | _
      · have hkept : u' = u := by
          rw [finish, if_neg (by rw [hw]; decide)] at hu'
          exact (Option.some_inj.mp hu').symm
        rw [hkept, show u.value = some pos from hsource] at hvalue
        have := Option.some_inj.mp hvalue
        omega
      · have hmoved : u' = { u with value := some (startOffset s rf (some u) env.stale + out.length) } := by
          rw [finish, if_pos hw] at hu'
          exact (Option.some_inj.mp hu').symm
        rw [hmoved, hstart] at hvalue
        have := Option.some_inj.mp hvalue
        refine ⟨by omega, fun p hp => ?_⟩
        rw [← Option.some_inj.mp hp]
        exact hw
  · rintro ⟨⟨pos, hsource, huint⟩, hall, hwritable⟩
    have hstart := @startOffset_of_source _ _ _ s rf poff pos env.stale hsource
    rw [hstart] at hres ⊢
    have hin := hres.in_file hpos
    refine ⟨pos, hsource, by omega, le_refl _, by omega, ?_, ?_⟩
    · unfold Arrived
      rw [hwf]
      show (finish _ rf wf poff _ _ _ _).stored = _
      have hstored : (finish ((s.setInode rdip ip).setPipe p pi) rf wf poff pos out.length count
          ((List.range count).map (kbuf out))).stored = (List.range count).map (kbuf out) := by
        unfold finish
        split
        · rfl
        · rfl
      rw [hstored, Int.toNat_natCast]
      apply List.map_congr_left
      intro k hk
      rw [kbuf_eq hres (by rw [hall]; exact List.mem_range.mp hk)]
      congr 2
      omega
    · rcases poff with _ | u
      · show _ = _
        rw [finish_source _ hne, hall]
        rfl
      · refine ⟨⟨{ u with value := some (pos + out.length) }, ?_, by rw [hall]⟩, rfl⟩
        rw [finish, if_pos (hwritable u rfl)]

end

section

variable {F I P : Type} [DecidableEq F] [DecidableEq I] [DecidableEq P] {s : State F I P} {rf wf : F} {rdip : I}
  {poff : Option UserOffset} {count : Nat} {env : Env} {o : Sent F I P} {ip : inode} {out : List UInt8}

/-- The second half of a call. -/
theorem send_iff (hsize : ∀ i, (s.inodes i).i_size < 2 ^ 32) (hmemory : env.memory = true)
    (hrd : (s.files rf).f_type = .FD_INODE rdip) (hcount : count < 2 ^ 31) (hpos : 0 < out.length)
    (hres : ReadResult (s.inodes rdip) (uint (startOffset s rf poff env.stale)) count ip out)
    (h : send (s.setInode rdip ip) rf wf poff (startOffset s rf poff env.stale) count out env = .ok o) :
    Law s rf wf rdip poff count env.memory o ↔
      ¬AtEof s rf rdip poff ∧ DestinationOk (s.setInode rdip ip) rf wf poff count env.turns out := by
  have hle := hres.length_le
  have hnread : int32 out.length = out.length :=
    int32_of_range (by simp only [INT_MIN]; omega) (by simp only [INT_MAX]; omega)
  have hn : int32 count = count := int32_of_range (by simp only [INT_MIN]; omega) (by simp only [INT_MAX]; omega)
  have hfile : (s.setInode rdip ip).files = s.files := rfl
  have hsource : SourceOk (s.setInode rdip ip) rf poff ↔ SourceOk s rf poff := Iff.rfl
  unfold send at h
  unfold DestinationOk
  rw [hfile] at h ⊢
  rw [hnread, hn] at h
  rw [hn]
  rcases hwf : (s.files wf).f_type with p | wrip | _
  · simp only [hwf] at h ⊢
    have hpipe : (s.setInode rdip ip).pipes p = s.pipes p := rfl
    rw [hpipe] at h ⊢
    rcases hrun : pipe_write (kbuf out) count env.turns (s.pipes p) 0 [] with _ | ⟨pi, stored, r⟩
    · rw [hrun] at h
      cases h
    rw [hrun] at h
    dsimp only at h
    have hresult := @pipe_write_result (kbuf out) count env.turns (s.pipes p) pi 0 stored r (Nat.zero_le _) hrun
    rcases hresult with rfl | ⟨rfl, rfl⟩
    · rw [if_pos (by decide)] at h
      cases h
      rw [law_failed hmemory rfl]
      exact (and_iff_left (.inl ⟨pi, stored, rfl⟩)).symm
    rw [if_neg (by omega)] at h
    cases h
    have hret : (finish ((s.setInode rdip ip).setPipe p pi) rf wf poff (startOffset s rf poff env.stale) out.length count
        ((List.range count).map (kbuf out))).ret = count := by
      unfold finish
      split
      · rfl
      · rfl
    rw [law_sent hmemory (by omega) hret, pipe_sent_iff (hsize rdip) hrd hwf hpos (by omega) hres, hsource]
    refine and_congr_right fun _ => (or_iff_right ?_).symm
    rintro ⟨pi', stored', heq⟩
    have := congrArg (fun x => x.2.2) (Option.some_inj.mp heq)
    dsimp only at this
    omega
  · simp only [hwf] at h ⊢
    have hmin : min count (out.length : Int).toNat = out.length := by omega
    rw [hmin] at h
    have hsize' : ((s.setInode rdip ip).inodes wrip).i_size < 2 ^ 32 := by
      rcases eq_or_ne wrip rdip with rfl | hother
      · rw [setInode_self, hres.i_size]
        exact hsize wrip
      · rw [setInode_other s hother]
        exact hsize wrip
    rcases @kernel_write ((s.setInode rdip ip).inodes wrip) env.wbeyond (kbuf out) (s.files wf).f_pos out.length hsize' hpos
        (by omega) with ⟨hwrap, hrun⟩ | ⟨hfits, ip', hrun, hwrite⟩
    · rw [hrun] at h
      dsimp only at h
      rw [if_pos (by decide)] at h
      cases h
      rw [law_failed hmemory rfl]
      exact (and_iff_left (.inl hwrap)).symm
    · rw [hrun] at h
      dsimp only at h
      rw [if_neg (by omega)] at h
      cases h
      have hret : (finish ((s.setInode rdip ip).setInode wrip ip') rf wf poff (startOffset s rf poff env.stale) out.length
          out.length []).ret = out.length := by
        unfold finish
        split
        · rfl
        · rfl
      rw [law_sent hmemory hpos hret, file_sent_iff (hsize rdip) hwf hpos hres hwrite, hsource]
      exact and_congr_right fun _ => (or_iff_right (by omega)).symm
  · simp only [hwf] at h ⊢
    cases h
    rw [law_failed hmemory rfl]
    exact (and_iff_left trivial).symm

/-- **A sendfile is a transfer** if and only if there was no memory for it, or the source was not at its end and what was
read met the condition of the destination. -/
theorem sendfile_law_iff (hrd : (s.files rf).f_type = .FD_INODE rdip) (hsize : ∀ i, (s.inodes i).i_size < 2 ^ 32)
    (h : do_sendfile s rf wf poff count env = .ok o) :
    Law s rf wf rdip poff count env.memory o ↔ Ok s rf wf rdip poff count env := by
  unfold do_sendfile at h
  rcases lt_or_ge KMALLOC_MAX count with hlarge | hcount
  · rw [if_pos hlarge] at h
    cases h
  rw [if_neg (by omega)] at h
  have hsmall : count < 2 ^ 31 := hcount.trans_lt (by decide)
  rcases hmemory : env.memory with _ | _
  · rw [if_pos hmemory] at h
    cases h
    have hret : ¬(0 : Int) ≤ -1 := by decide
    exact iff_of_true ⟨fun hge => absurd hge hret, nofun⟩ (.inl hmemory)
  rw [if_neg (by rw [hmemory]; decide)] at h
  simp only [hrd] at h
  rw [← hmemory, Ok, or_iff_right (by rw [hmemory]; decide)]
  have hmod : count % 2 ^ 32 = count := Nat.mod_eq_of_lt (by omega)
  rw [hmod] at h ⊢
  rcases fat32_inode_read_spec (hsize rdip) env.budget env.rbeyond (uint (startOffset s rf poff env.stale))
    (by omega : count < 2 ^ 32) with hpanic | ⟨ip, out, hrun, hres⟩
  · rw [hpanic] at h
    cases h
  rw [hrun] at h ⊢
  dsimp only at h
  have hle := hres.length_le
  have hnread : int32 out.length = out.length :=
    int32_of_range (by simp only [INT_MIN]; omega) (by simp only [INT_MAX]; omega)
  have hread : (∀ ip₁ out₁, (Except.ok (ip, out) : Except PageCache.Panic (inode × List UInt8)) = .ok (ip₁, out₁) → out₁ ≠ [] →
      DestinationOk (s.setInode rdip ip₁) rf wf poff count env.turns out₁) ↔
        (out ≠ [] → DestinationOk (s.setInode rdip ip) rf wf poff count env.turns out) := by
    constructor
    · exact fun h => h ip out rfl
    · rintro h ip₁ out₁ heq
      cases heq
      exact h
  rw [hread]
  rcases List.eq_nil_or_concat' out with rfl | ⟨l, b, hout⟩
  · rw [if_pos (by decide)] at h
    cases h
    rw [law_failed hmemory rfl]
    exact (and_iff_left fun hne => absurd rfl hne).symm
  have hne : out ≠ [] := by
    rw [hout]
    simp
  have hpos : 0 < out.length := List.length_pos_of_ne_nil hne
  rw [if_neg (by rw [hnread]; omega)] at h
  rw [send_iff hsize hmemory hrd hsmall hpos hres h]
  exact and_congr_right fun _ => ⟨fun h _ => h, fun h => h hne⟩

end

/-! ## Two files and a pipe -/

def ten : inode := opened (fun _ => 7) 10

/-- Two files of ten bytes. -/
def files (rpos wpos : Int) : State Bool Bool Unit :=
  ⟨fun f => if f then ⟨.FD_INODE true, wpos⟩ else ⟨.FD_INODE false, rpos⟩, fun _ => ten, fun _ => ⟨none, fun _ => 0, 0, 0, true, true⟩⟩

/-- A file of ten bytes and a pipe. -/
def piped : State Bool Bool Unit :=
  ⟨fun f => if f then ⟨.FD_PIPE (), 0⟩ else ⟨.FD_INODE false, 0⟩, fun _ => ten, fun _ => ⟨none, fun _ => 0, 0, 0, true, true⟩⟩

/-- There is memory, nobody is killed, and nobody else uses the pipe. -/
def quiet : Env := ⟨true, 0, fun _ => 1, fun _ => 0, fun _ => 0, List.replicate 16 ⟨false, id⟩⟩

theorem spares_ten : Spares ten 10 4 := by
  intro p hp _ _ _ _ hzero
  have hpage : p / PGSIZE = 0 := Nat.div_eq_of_lt (hp.trans (by decide))
  rw [hpage] at hzero
  exact absurd hzero (by decide)

theorem appended_ok : Ok (files 2 10) false true false none 4 quiet := by
  refine .inr ⟨?_, fun ip out hread _ => ?_⟩
  · rintro ⟨pos, hpos, hge⟩
    obtain rfl := Option.some_inj.mp hpos
    exact absurd hge (by decide)
  have hrun : ∃ ip', fat32_inode_read ten quiet.budget quiet.rbeyond 2 4 = .ok (ip', [7, 7, 7, 7]) := ⟨_, rfl⟩
  obtain ⟨ip', hrun⟩ := hrun
  have heq : (Except.ok (ip', [7, 7, 7, 7]) : Except PageCache.Panic (inode × List UInt8)) = .ok (ip, out) := hrun.symm.trans hread
  cases heq
  have hpos : (10 : Int) = uint 10 := by decide
  refine .inr ⟨⟨2, rfl, by decide⟩, rfl, by decide, hpos, ?_⟩
  rw [setInode_other _ (by decide)]
  exact spares_ten

theorem exists_ok {ε α β : Type} {x : Except ε α} {f : α → β} {b : β} (h : x.toOption.map f = some b) :
    ∃ o, x = .ok o ∧ f o = b := by
  rcases x with e | o
  · cases h
  · exact ⟨o, rfl, Option.some_inj.mp h⟩

/-- Four bytes are appended to the other file. -/
theorem sendfile_law_appended : ∃ o, do_sendfile (files 2 10) false true none 4 quiet = .ok o ∧ o.ret = 4 ∧
    Law (files 2 10) false true false none 4 true o := by
  have hcall : (do_sendfile (files 2 10) false true none 4 quiet).toOption.map Sent.ret = some 4 := by decide +kernel
  obtain ⟨o, hrun, hret⟩ := exists_ok hcall
  have hsize : ten.i_size < 2 ^ 32 := by decide
  exact ⟨o, hrun, hret, (sendfile_law_iff rfl (fun _ => hsize) hrun).mpr appended_ok⟩

/-- **Twelve bytes of ten** are sent to a pipe, and the call at the end of a file fails. -/
theorem sendfile_pads :
    (∃ o, do_sendfile piped false true none 12 quiet = .ok o ∧ o.stored = [7, 7, 7, 7, 7, 7, 7, 7, 7, 7, 0, 0] ∧ o.ret = 12 ∧
      ¬Law piped false true false none 12 true o) ∧
    ∃ o, do_sendfile (files 10 10) false true none 4 quiet = .ok o ∧ o.ret = -1 ∧ ¬Law (files 10 10) false true false none 4 true o := by
  constructor
  · have hcall : (do_sendfile piped false true none 12 quiet).toOption.map (fun o => (o.stored, o.ret)) =
        some ([7, 7, 7, 7, 7, 7, 7, 7, 7, 7, 0, 0], 12) := by decide +kernel
    obtain ⟨o, hrun, hout⟩ := exists_ok hcall
    obtain ⟨hstored, hret⟩ := Prod.mk.inj hout
    refine ⟨o, hrun, hstored, hret, fun h => ?_⟩
    obtain ⟨pos, hsource, hsent⟩ := h.transfer (by rw [hret]; decide)
    obtain rfl := Option.some_inj.mp hsource
    have hle := hsent.le_size
    rw [hret] at hle
    exact absurd hle (by decide)
  · have hcall : (do_sendfile (files 10 10) false true none 4 quiet).toOption.map Sent.ret = some (-1) := by decide +kernel
    obtain ⟨o, hrun, hret⟩ := exists_ok hcall
    refine ⟨o, hrun, hret, fun h => ?_⟩
    have hzero := h.eof rfl ⟨10, rfl, by decide⟩
    rw [hret] at hzero
    exact absurd hzero (by decide)

end LostWakeup.Fs.Sendfile
