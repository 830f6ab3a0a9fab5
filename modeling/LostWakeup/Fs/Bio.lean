/-
# LostWakeup.Fs.Bio — `src/fs/bio.c`: the buffer cache.

`NBUF` buffers stand on one list, most recently used first.  A *session* is one `bread` with the `brelse` that ends it.
Every critical section and every disk transfer is one step, so sessions interleave wherever the code can sleep or be
preempted.

A buffer is found by device and block number, but `submit_bio` hands the block number alone to `disk_rw`.
`buffer_cache_coherent` is about sessions that use each block number with one device; `two_devices_share_a_block` shows
what the cache does otherwise.  Reference counts are `Nat`: they count threads of the kernel.
-/
import Mathlib.Data.List.Find
import Mathlib.Data.Set.Card
import LostWakeup.Library.Run

namespace LostWakeup.Fs

open Library
open Function (update update_of_ne update_self)

/-! ## The cache and its sessions -/

/-- `MAXOPBLOCKS * 3` buffers. -/
def NBUF : Nat := 10 * 3

/-- What a buffer is found by. -/
structure Block where
  dev : UInt32
  blockno : UInt32
  deriving DecidableEq

/-- `struct buffer_head` with contents of type `D`; `sem_lock` says whether the semaphore has its token. -/
structure BufferHead (D : Type) where
  sem_lock : Bool
  block : Block
  refcnt : Nat
  data : D
  valid : Bool
  dirty : Bool

/-- How far a session is. -/
inductive Phase
  /-- `bget` has chosen a buffer and goes for its semaphore. -/
  | lock
  /-- `bread` has the buffer from `bget`. -/
  | read
  /-- `bread` has returned; `written` once `bwrite` was called. -/
  | hold (written : Bool)
  /-- `brelse` is about to signal the semaphore. -/
  | signal
  /-- `brelse` is about to drop its reference. -/
  | put
  deriving DecidableEq

namespace Phase

/-- The session has the buffer's semaphore. -/
def locked : Phase → Bool
  | .read | .hold _ | .signal => true
  | _ => false

/-- `b->valid` has been tested or set. -/
def filled : Phase → Bool
  | .hold _ | .signal => true
  | _ => false

end Phase

/-- A session in progress: its buffer, the block it asked for, and how far it is. -/
structure Use where
  buf : Fin NBUF
  block : Block
  phase : Phase

/-- The cache, the disk and the sessions.  `stored` holds, for each block, the bytes last released after `bwrite`, or
the disk's; no step reads it. -/
structure BCache (S D : Type) where
  buf : Fin NBUF → BufferHead D
  head : List (Fin NBUF)
  disk : UInt32 → D
  session : S → Option Use
  stored : Block → D

inductive BioEvent (S D : Type)
  /-- The critical section of `bget`. -/
  | bget (s : S) (block : Block)
  /-- `bget` gets the semaphore and returns. -/
  | sema_wait (s : S)
  /-- The rest of `bread`. -/
  | bread (s : S)
  /-- The user stores `data` into the buffer and calls `bwrite`. -/
  | bwrite (s : S) (data : D)
  /-- `brelse` up to `sema_signal`. -/
  | brelse (s : S)
  | sema_signal (s : S)
  /-- The critical section of `brelse`. -/
  | put (s : S)

/-- `binit`, with what the disk and the buffers held before. -/
def binit {S D : Type} (disk : UInt32 → D) (data : Fin NBUF → D) : BCache S D where
  buf := fun b =>
    { sem_lock := true, block := ⟨0, 0⟩, refcnt := 0, data := data b, valid := false, dirty := false }
  head := (List.finRange NBUF).reverse
  disk := disk
  session := fun _ => none
  stored := fun block => disk block.blockno

namespace BCache

variable {S D : Type} [DecidableEq S]

/-- The first buffer of the list that stands for `block`. -/
def find (c : BCache S D) (block : Block) : Option (Fin NBUF) :=
  c.head.find? fun b => (c.buf b).block = block

/-- The least recently used buffer that nobody refers to. -/
def unused (c : BCache S D) : Option (Fin NBUF) :=
  c.head.reverse.find? fun b => (c.buf b).refcnt = 0

/-- Session `s` leaves buffer `b` as `h` and goes on as `u`. -/
def set (c : BCache S D) (s : S) (b : Fin NBUF) (h : BufferHead D) (u : Option Use) : BCache S D :=
  { c with buf := update c.buf b h, session := update c.session s u }

/-- `none` is `panic("bget: no buffers")`. -/
def bget (c : BCache S D) (s : S) (block : Block) : Option (BCache S D) :=
  match c.find block with
  | some b =>
      some (c.set s b { c.buf b with refcnt := (c.buf b).refcnt + 1 } (some ⟨b, block, .lock⟩))
  | none =>
    match c.unused with
    | some b =>
        some (c.set s b { c.buf b with block := block, valid := false, refcnt := 1 }
          (some ⟨b, block, .lock⟩))
    | none => none

/-- `sema_wait(&b->sem_lock)`; `none` while the token is away. -/
def sema_wait (c : BCache S D) (s : S) (u : Use) : Option (BCache S D) :=
  if (c.buf u.buf).sem_lock then
    some (c.set s u.buf { c.buf u.buf with sem_lock := false } (some { u with phase := .read }))
  else none

/-- `disk_rw_bio(b, DISK_READ)` unless the buffer is valid. -/
def bread (c : BCache S D) (s : S) (u : Use) : BCache S D :=
  let b := c.buf u.buf
  let h := if b.valid then b else { b with data := c.disk b.block.blockno, valid := true, dirty := false }
  c.set s u.buf h (some { u with phase := .hold false })

def bwrite (c : BCache S D) (s : S) (u : Use) (data : D) : BCache S D :=
  c.set s u.buf { c.buf u.buf with data := data, dirty := true } (some { u with phase := .hold true })

/-- `disk_rw_bio(b, DISK_WRITE)` if the buffer is dirty. -/
def brelse (c : BCache S D) (s : S) (u : Use) (written : Bool) : BCache S D :=
  let b := c.buf u.buf
  { c.set s u.buf { b with dirty := false } (some { u with phase := .signal }) with
    disk := if b.dirty then update c.disk b.block.blockno b.data else c.disk
    stored := if written then update c.stored u.block b.data else c.stored }

def sema_signal (c : BCache S D) (s : S) (u : Use) : BCache S D :=
  c.set s u.buf { c.buf u.buf with sem_lock := true } (some { u with phase := .put })

/-- Drop the reference and, if it was the last, move the buffer to the front. -/
def put (c : BCache S D) (s : S) (u : Use) : BCache S D :=
  let h := { c.buf u.buf with refcnt := (c.buf u.buf).refcnt - 1 }
  { c.set s u.buf h none with
    head := if h.refcnt = 0 then u.buf :: c.head.erase u.buf else c.head }

/-- One event; `none` where the session is not at the place the event needs. -/
def next (c : BCache S D) : BioEvent S D → Option (BCache S D)
  | .bget s block =>
    match c.session s with
    | none => c.bget s block
    | some _ => none
  | .sema_wait s =>
    match c.session s with
    | some ⟨b, block, .lock⟩ => c.sema_wait s ⟨b, block, .lock⟩
    | _ => none
  | .bread s =>
    match c.session s with
    | some ⟨b, block, .read⟩ => some (c.bread s ⟨b, block, .read⟩)
    | _ => none
  | .bwrite s data =>
    match c.session s with
    | some ⟨b, block, .hold written⟩ => some (c.bwrite s ⟨b, block, .hold written⟩ data)
    | _ => none
  | .brelse s =>
    match c.session s with
    | some ⟨b, block, .hold written⟩ => some (c.brelse s ⟨b, block, .hold written⟩ written)
    | _ => none
  | .sema_signal s =>
    match c.session s with
    | some ⟨b, block, .signal⟩ => some (c.sema_signal s ⟨b, block, .signal⟩)
    | _ => none
  | .put s =>
    match c.session s with
    | some ⟨b, block, .put⟩ => some (c.put s ⟨b, block, .put⟩)
    | _ => none

end BCache

def BioStep {S D : Type} [DecidableEq S] (c : BCache S D) (e : BioEvent S D) (c' : BCache S D) : Prop :=
  c.next e = some c'

/-! ## The first buffer of a block -/

section Search

variable {α : Type} {l : List α} {p q : α → Bool} {a : α}

theorem find?_of_imp (h : l.find? p = some a) (hqa : q a) (himp : ∀ x, q x → p x) : l.find? q = some a := by
  obtain ⟨-, before, after, hl, hskip⟩ := List.find?_eq_some_iff_append.mp h
  apply List.find?_eq_some_iff_append.mpr
  refine ⟨hqa, before, after, hl, fun x hx => ?_⟩
  have hpx := hskip x hx
  cases hq : q x with
  | false => rfl
  | true => simp [himp x hq] at hpx

theorem find?_of_unique (ha : a ∈ l) (hqa : q a) (huniq : ∀ x, q x → x = a) : l.find? q = some a := by
  cases hfind : l.find? q with
  | none =>
    have hno := List.find?_eq_none.mp hfind a ha
    exact absurd hqa hno
  | some x => rw [huniq x (List.find?_some hfind)]

variable [DecidableEq α]

theorem find?_moved (hqa : q a = false) : (a :: l.erase a).find? q = l.find? q := by
  rw [List.find?_cons_of_neg (by simp [hqa])]
  induction l with
  | nil => rfl
  | cons x l ih =>
    by_cases hx : x = a
    · subst hx
      rw [List.erase_cons_head, List.find?_cons_of_neg (by simp [hqa])]
    · rw [List.erase_cons_tail (by simpa using hx), List.find?_cons, List.find?_cons, ih]

end Search

/-! ## Reference counts and the list -/

namespace BCache

variable {S D : Type} [DecidableEq S] {c c' : BCache S D} {s s' : S} {b b' : Fin NBUF} {u u' : Use}
  {h : BufferHead D} {block : Block}

omit [DecidableEq S] in
theorem block_of_find (hfind : c.find block = some b) : (c.buf b).block = block := by
  simpa using List.find?_some hfind

omit [DecidableEq S] in
theorem block_ne_of_find (hfind : c.find block = none) (hmem : b ∈ c.head) : (c.buf b).block ≠ block := by
  simpa using List.find?_eq_none.mp hfind b hmem

omit [DecidableEq S] in
theorem refcnt_of_unused (hunused : c.unused = some b) : (c.buf b).refcnt = 0 := by
  simpa using List.find?_some hunused

/-- The sessions that have buffer `b`. -/
def users (c : BCache S D) (b : Fin NBUF) : Set S := {s | ∃ u, c.session s = some u ∧ u.buf = b}

/-- Somebody refers to the buffer, or it holds a block of the disk. -/
def Claimed (c : BCache S D) (b : Fin NBUF) : Prop := 0 < (c.buf b).refcnt ∨ (c.buf b).valid = true

/-- The list reaches every buffer, a count says how many sessions have its buffer, and a claimed buffer
is the one a search finds. -/
structure Indexed (c : BCache S D) : Prop where
  mem : ∀ b, b ∈ c.head
  users : ∀ b, (c.users b).encard = (c.buf b).refcnt
  block : ∀ s u, c.session s = some u → (c.buf u.buf).block = u.block
  first : ∀ b, c.Claimed b → c.find (c.buf b).block = some b

theorem set_buf_self (c : BCache S D) (s : S) (b : Fin NBUF) (h : BufferHead D) (u : Option Use) :
    (c.set s b h u).buf b = h :=
  update_self ..

theorem set_buf_ne (c : BCache S D) (s : S) (h : BufferHead D) (u : Option Use) (hb : b' ≠ b) :
    (c.set s b h u).buf b' = c.buf b' :=
  update_of_ne hb ..

theorem set_session_self (c : BCache S D) (s : S) (b : Fin NBUF) (h : BufferHead D) (u : Option Use) :
    (c.set s b h u).session s = u :=
  update_self ..

theorem set_session_ne (c : BCache S D) (b : Fin NBUF) (h : BufferHead D) (u : Option Use) (hs : s' ≠ s) :
    (c.set s b h u).session s' = c.session s' :=
  update_of_ne hs ..

theorem users_attach (hs : c.session s = none) (hb : u.buf = b) (b' : Fin NBUF) :
    (c.set s b h (some u)).users b' = if b' = b then insert s (c.users b') else c.users b' := by
  ext t
  by_cases ht : t = s
  · subst ht
    have hnot : t ∉ c.users b' := by
      rintro ⟨v, hv, -⟩
      rw [hs] at hv
      cases hv
    split <;> simp_all [users, set, eq_comm]
  · split <;> simp_all [users, set]

theorem users_touch (hs : c.session s = some u) (hb : u'.buf = u.buf) (b' : Fin NBUF) :
    (c.set s b h (some u')).users b' = c.users b' := by
  ext t
  by_cases ht : t = s
  · subst ht
    simp [users, set, hs, hb]
  · simp [users, set, ht]

theorem put_buf_self (c : BCache S D) (s : S) (u : Use) :
    (c.put s u).buf u.buf = { c.buf u.buf with refcnt := (c.buf u.buf).refcnt - 1 } :=
  update_self ..

theorem put_buf_ne (c : BCache S D) (s : S) (hb : b ≠ u.buf) : (c.put s u).buf b = c.buf b :=
  update_of_ne hb ..

theorem put_session_self (c : BCache S D) (s : S) (u : Use) : (c.put s u).session s = none :=
  update_self ..

theorem put_session_ne (c : BCache S D) (u : Use) (hs : s' ≠ s) : (c.put s u).session s' = c.session s' :=
  update_of_ne hs ..

theorem users_put (c : BCache S D) (s : S) (u : Use) (b : Fin NBUF) : (c.put s u).users b = c.users b \ {s} := by
  ext t
  by_cases ht : t = s
  · subst ht
    simp [users, put_session_self]
  · simp [users, put_session_ne c u ht, ht]

namespace Indexed

omit [DecidableEq S] in
theorem claimed (hi : c.Indexed) (hs : c.session s = some u) : 0 < (c.buf u.buf).refcnt := by
  have hmem : s ∈ c.users u.buf := ⟨u, hs, rfl⟩
  have hne : (c.users u.buf).encard ≠ 0 := Set.encard_ne_zero.mpr ⟨s, hmem⟩
  rw [hi.users, Nat.cast_ne_zero] at hne
  exact Nat.pos_of_ne_zero hne

omit [DecidableEq S] in
theorem unique (hi : c.Indexed) (hb : c.Claimed b) (hb' : c.Claimed b')
    (heq : (c.buf b).block = (c.buf b').block) : b = b' := by
  have hfirst := hi.first b hb
  rw [heq, hi.first b' hb'] at hfirst
  exact (Option.some.inj hfirst).symm

/-- A step of a session that has its buffer and keeps it. -/
theorem touch (hi : c.Indexed) (hs : c.session s = some u) (hbuf : u'.buf = u.buf)
    (hblock : u'.block = u.block) (hb : h.block = (c.buf u.buf).block)
    (hrefcnt : h.refcnt = (c.buf u.buf).refcnt) : (c.set s u.buf h (some u')).Indexed := by
  have hkeep : ∀ b, ((c.set s u.buf h (some u')).buf b).block = (c.buf b).block := by
    intro b
    by_cases hbu : b = u.buf
    · rw [hbu, set_buf_self, hb]
    · rw [set_buf_ne c s h _ hbu]
  have hfind : ∀ block, (c.set s u.buf h (some u')).find block = c.find block := by
    intro block
    show c.head.find? _ = c.head.find? _
    simp only [hkeep]
  refine ⟨hi.mem, fun b => ?_, fun t v ht => ?_, fun b hb' => ?_⟩
  · rw [users_touch hs hbuf, hi.users]
    by_cases hbu : b = u.buf
    · rw [hbu, set_buf_self, hrefcnt]
    · rw [set_buf_ne c s h _ hbu]
  · rw [hkeep]
    by_cases hts : t = s
    · rw [hts, set_session_self, Option.some.injEq] at ht
      rw [← ht, hbuf, hblock]
      exact hi.block s u hs
    · rw [set_session_ne c _ h _ hts] at ht
      exact hi.block t v ht
  · rw [hkeep, hfind]
    apply hi.first b
    by_cases hbu : b = u.buf
    · left
      rw [hbu]
      exact hi.claimed hs
    · rw [Claimed, set_buf_ne c s h _ hbu] at hb'
      exact hb'

/-- A session gets a buffer that already stands for the block. -/
theorem hit (hi : c.Indexed) (hs : c.session s = none) (hfind : c.find block = some b) :
    (c.set s b { c.buf b with refcnt := (c.buf b).refcnt + 1 } (some ⟨b, block, .lock⟩)).Indexed := by
  generalize hset : c.set s b { c.buf b with refcnt := (c.buf b).refcnt + 1 } (some ⟨b, block, .lock⟩) = c'
  have hself : c'.buf b = { c.buf b with refcnt := (c.buf b).refcnt + 1 } := by rw [← hset, set_buf_self]
  have hne : ∀ b', b' ≠ b → c'.buf b' = c.buf b' := fun b' hb' => by rw [← hset, set_buf_ne c s _ _ hb']
  have hkeep : ∀ b', (c'.buf b').block = (c.buf b').block := by
    intro b'
    by_cases hb : b' = b
    · rw [hb, hself]
    · rw [hne b' hb]
  have hhead : c'.head = c.head := by
    rw [← hset]
    rfl
  have husers : ∀ b', c'.users b' = if b' = b then insert s (c.users b') else c.users b' := by
    intro b'
    rw [← hset]
    exact users_attach hs rfl b'
  refine ⟨fun b' => ?_, fun b' => ?_, fun t v ht => ?_, fun b' hb' => ?_⟩
  · rw [hhead]
    exact hi.mem b'
  · have hfresh : s ∉ c.users b := by
      rintro ⟨u, hu, -⟩
      rw [hs] at hu
      cases hu
    rw [husers]
    by_cases hb : b' = b
    · rw [if_pos hb, hb, Set.encard_insert_of_notMem hfresh, hi.users, hself]
      push_cast
      rfl
    · rw [if_neg hb, hi.users, hne b' hb]
  · rw [hkeep]
    by_cases hts : t = s
    · rw [hts, ← hset, set_session_self, Option.some.injEq] at ht
      rw [← ht]
      exact block_of_find hfind
    · rw [← hset, set_session_ne c _ _ _ hts] at ht
      exact hi.block t v ht
  · have hsame : ∀ block, c'.find block = c.find block := by
      intro block
      show c'.head.find? _ = c.head.find? _
      simp only [hkeep, hhead]
    rw [hkeep, hsame]
    by_cases hb : b' = b
    · rw [hb, block_of_find hfind, hfind]
    · rw [Claimed, hne b' hb] at hb'
      exact hi.first b' hb'

/-- A session gets a buffer that nobody refers to, for a block that no buffer stands for. -/
theorem recycle (hi : c.Indexed) (hs : c.session s = none) (hfind : c.find block = none)
    (hfree : (c.buf b).refcnt = 0) :
    (c.set s b { c.buf b with block := block, valid := false, refcnt := 1 }
      (some ⟨b, block, .lock⟩)).Indexed := by
  generalize hset : c.set s b { c.buf b with block := block, valid := false, refcnt := 1 }
    (some ⟨b, block, .lock⟩) = c'
  have hself : c'.buf b = { c.buf b with block := block, valid := false, refcnt := 1 } := by
    rw [← hset, set_buf_self]
  have hne : ∀ b', b' ≠ b → c'.buf b' = c.buf b' := fun b' hb' => by rw [← hset, set_buf_ne c s _ _ hb']
  have hhead : c'.head = c.head := by
    rw [← hset]
    rfl
  have husers : ∀ b', c'.users b' = if b' = b then insert s (c.users b') else c.users b' := by
    intro b'
    rw [← hset]
    exact users_attach hs rfl b'
  have hempty : c.users b = ∅ := by
    have hcard := hi.users b
    rw [hfree] at hcard
    exact Set.encard_eq_zero.mp hcard
  refine ⟨fun b' => ?_, fun b' => ?_, fun t v ht => ?_, fun b' hb' => ?_⟩
  · rw [hhead]
    exact hi.mem b'
  · rw [husers]
    by_cases hb : b' = b
    · rw [if_pos hb, hb, hempty, hself]
      simp
    · rw [if_neg hb, hi.users, hne b' hb]
  · by_cases hts : t = s
    · rw [hts, ← hset, set_session_self, Option.some.injEq] at ht
      rw [← ht, hself]
    rw [← hset, set_session_ne c _ _ _ hts] at ht
    have hv : v.buf ≠ b := by
      intro hv
      have hmem : t ∈ c.users b := ⟨v, ht, hv⟩
      rw [hempty] at hmem
      exact hmem
    rw [hne _ hv]
    exact hi.block t v ht
  · by_cases hb : b' = b
    · subst hb
      show c'.head.find? _ = _
      rw [hhead]
      apply find?_of_unique (hi.mem b') (by simp)
      intro x hx
      by_contra hxb
      rw [hself, decide_eq_true_eq, hne x hxb] at hx
      exact block_ne_of_find hfind (hi.mem x) hx
    · rw [Claimed, hne b' hb] at hb'
      rw [hne b' hb]
      show c'.head.find? _ = _
      rw [hhead]
      apply find?_of_imp (hi.first b' hb')
      · simp [hne b' hb]
      · -- a search for another block passes over the recycled buffer
        intro x hx
        rw [decide_eq_true_eq] at hx ⊢
        by_cases hxb : x = b
        · rw [hxb, hself] at hx
          exact absurd hx.symm (block_ne_of_find hfind (hi.mem b'))
        · rw [hne x hxb] at hx
          exact hx

/-- A session drops its buffer. -/
theorem put (hi : c.Indexed) (hs : c.session s = some u) : (c.put s u).Indexed := by
  have hkeep : ∀ b', ((c.put s u).buf b').block = (c.buf b').block := by
    intro b'
    by_cases hb : b' = u.buf
    · rw [hb, put_buf_self]
    · rw [put_buf_ne c s hb]
  have hused := hi.claimed hs
  have hclaim : ∀ b', (c.put s u).Claimed b' → c.Claimed b' := by
    intro b' hb'
    by_cases hb : b' = u.buf
    · rw [hb]
      exact .inl hused
    · rw [Claimed, put_buf_ne c s hb] at hb'
      exact hb'
  refine ⟨fun b' => ?_, fun b' => ?_, fun t v ht => ?_, fun b' hb' => ?_⟩
  · show b' ∈ ite _ _ _
    split
    · by_cases hb : b' = u.buf
      · rw [hb]
        exact List.mem_cons_self
      · exact List.mem_cons_of_mem _ ((List.mem_erase_of_ne hb).mpr (hi.mem b'))
    · exact hi.mem b'
  · rw [users_put]
    by_cases hb : b' = u.buf
    · have hmem : s ∈ c.users u.buf := ⟨u, hs, rfl⟩
      have hcard := Set.encard_sdiff_singleton_add_one hmem
      rw [hi.users] at hcard
      rw [hb, put_buf_self]
      show _ = (((c.buf u.buf).refcnt - 1 : Nat) : ℕ∞)
      have hsucc : (c.buf u.buf).refcnt = (c.buf u.buf).refcnt - 1 + 1 := by omega
      rw [hsucc, Nat.cast_add, Nat.cast_one] at hcard
      exact WithTop.add_right_cancel ENat.one_ne_top hcard
    · have hnot : s ∉ c.users b' := by
        rintro ⟨v, hv, hvb⟩
        rw [hs, Option.some.injEq] at hv
        rw [← hvb, ← hv] at hb
        exact hb rfl
      rw [Set.sdiff_singleton_eq_self hnot, hi.users, put_buf_ne c s hb]
  · rw [hkeep]
    have hts : t ≠ s := by
      rintro rfl
      rw [put_session_self] at ht
      cases ht
    rw [put_session_ne c u hts] at ht
    exact hi.block t v ht
  · rw [hkeep]
    have hsame : c.find (c.buf b').block = some b' := hi.first b' (hclaim b' hb')
    have hfind : (c.put s u).find (c.buf b').block = (c.put s u).head.find? fun x => (c.buf x).block = (c.buf b').block := by
      show (c.put s u).head.find? _ = _
      simp only [hkeep]
    rw [hfind]
    show (ite _ _ _ : List (Fin NBUF)).find? _ = _
    split
    · by_cases hb : b' = u.buf
      · rw [hb]
        exact List.find?_cons_of_pos (by simp)
      · -- the moved buffer was the one of its block, so it is not looked for
        rw [find?_moved]
        · exact hsame
        · rw [decide_eq_false_iff_not]
          intro heq
          exact hb (hi.unique (.inl hused) (hclaim b' hb') heq).symm
    · exact hsame

end Indexed

/-! ## The semaphores -/

/-- At most one session has a buffer's semaphore, and only a session that has it and has called `bwrite`
leaves the buffer dirty. -/
structure Locked (c : BCache S D) : Prop where
  held : ∀ s s' u u', c.session s = some u → c.session s' = some u' → u.phase.locked = true →
    u'.phase.locked = true → u.buf = u'.buf → s = s'
  token : ∀ s u, c.session s = some u → u.phase.locked = true → (c.buf u.buf).sem_lock = false
  filled : ∀ s u, c.session s = some u → u.phase.filled = true → (c.buf u.buf).valid = true
  dirty : ∀ b, (c.buf b).dirty = true ↔ ∃ s u, c.session s = some u ∧ u.buf = b ∧ u.phase = .hold true

theorem set_session_cases {w : Option Use} (ht : (c.set s b h w).session s' = some u) :
    s' = s ∧ w = some u ∨ s' ≠ s ∧ c.session s' = some u := by
  by_cases hs : s' = s
  · left
    rw [hs, set_session_self] at ht
    exact ⟨hs, ht⟩
  · right
    rw [set_session_ne c b h w hs] at ht
    exact ⟨hs, ht⟩

theorem locked_of_filled {p : Phase} (hp : p.filled = true) : p.locked = true := by
  cases p <;> first | rfl | cases hp

namespace Locked

omit [DecidableEq S] in
theorem clean (hl : c.Locked) (hs : c.session s = some u) (hlocked : u.phase.locked = true)
    (hp : u.phase ≠ .hold true) : (c.buf u.buf).dirty = false := by
  rw [Bool.eq_false_iff]
  intro hd
  obtain ⟨t, v, ht, hbuf, hv⟩ := (hl.dirty u.buf).mp hd
  have hts : t = s := hl.held t s v u ht hs (by rw [hv]; rfl) hlocked hbuf
  rw [hts, hs, Option.some.injEq] at ht
  rw [← ht] at hv
  exact hp hv

omit [DecidableEq S] in
theorem dirty_eq {written : Bool} (hl : c.Locked) (hs : c.session s = some u) (hp : u.phase = .hold written) :
    (c.buf u.buf).dirty = written := by
  cases written with
  | true => exact (hl.dirty u.buf).mpr ⟨s, u, hs, rfl, hp⟩
  | false =>
    apply hl.clean hs
    · rw [hp]
      rfl
    · rw [hp]
      simp

/-- A step of the session that has the semaphore. -/
theorem own (hl : c.Locked) (hs : c.session s = some u) (hlocked : u.phase.locked = true)
    (hbuf : u'.buf = u.buf) (htoken : u'.phase.locked = true → h.sem_lock = false)
    (hvalid : u'.phase.filled = true → h.valid = true)
    (hdirty : h.dirty = true ↔ u'.phase = .hold true) : (c.set s u.buf h (some u')).Locked := by
  have hother : ∀ t v, t ≠ s → c.session t = some v → v.phase.locked = true → v.buf ≠ u.buf := by
    intro t v hts ht hv hb
    exact hts (hl.held t s v u ht hs hv hlocked hb)
  refine ⟨fun t t' v v' ht ht' hv hv' hb => ?_, fun t v ht hv => ?_, fun t v ht hv => ?_, fun b => ?_⟩
  · obtain ⟨rfl, hv₁⟩ | ⟨hts, ht⟩ := set_session_cases ht
    · obtain ⟨rfl, hv₂⟩ | ⟨hts', ht'⟩ := set_session_cases ht'
      · rfl
      · cases hv₁
        exact absurd (hb.symm.trans hbuf) (hother t' v' hts' ht' hv')
    obtain ⟨hts', hv₂⟩ | ⟨hts', ht'⟩ := set_session_cases ht'
    · cases hv₂
      exact absurd (hb.trans hbuf) (hother t v hts ht hv)
    · exact hl.held t t' v v' ht ht' hv hv' hb
  · obtain ⟨rfl, hv₁⟩ | ⟨hts, ht⟩ := set_session_cases ht
    · cases hv₁
      rw [hbuf, set_buf_self]
      exact htoken hv
    · rw [set_buf_ne c s h _ (hother t v hts ht hv)]
      exact hl.token t v ht hv
  · obtain ⟨rfl, hv₁⟩ | ⟨hts, ht⟩ := set_session_cases ht
    · cases hv₁
      rw [hbuf, set_buf_self]
      exact hvalid hv
    · rw [set_buf_ne c s h _ (hother t v hts ht (locked_of_filled hv))]
      exact hl.filled t v ht hv
  · by_cases hb : b = u.buf
    · subst hb
      rw [set_buf_self, hdirty]
      constructor
      · intro hp
        exact ⟨s, u', set_session_self .., hbuf, hp⟩
      rintro ⟨t, v, ht, hv, hp⟩
      obtain ⟨rfl, hv₁⟩ | ⟨hts, ht⟩ := set_session_cases ht
      · cases hv₁
        exact hp
      · exact absurd hv (hother t v hts ht (by rw [hp]; rfl))
    · rw [set_buf_ne c s h _ hb, hl.dirty b]
      constructor
      · rintro ⟨t, v, ht, hv, hp⟩
        have hts : t ≠ s := by
          rintro rfl
          rw [hs, Option.some.injEq] at ht
          rw [← hv, ← ht] at hb
          exact hb rfl
        exact ⟨t, v, by rw [set_session_ne c _ _ _ hts, ht], hv, hp⟩
      · rintro ⟨t, v, ht, hv, hp⟩
        obtain ⟨rfl, hv₁⟩ | ⟨hts, ht⟩ := set_session_cases ht
        · cases hv₁
          exact absurd (hv.symm.trans hbuf) hb
        · exact ⟨t, v, ht, hv, hp⟩

/-- A step of a session that has not got the semaphore and does not get it. -/
theorem pass {w : Option Use} (hl : c.Locked) (hs : ∀ u, c.session s = some u → u.phase.locked = false)
    (hw : ∀ u, w = some u → u.phase.locked = false) (htoken : h.sem_lock = (c.buf b).sem_lock)
    (hvalid : ∀ t v, c.session t = some v → v.buf = b → h.valid = (c.buf b).valid)
    (hdirty : h.dirty = (c.buf b).dirty) : (c.set s b h w).Locked := by
  have hold : ∀ t v, (c.set s b h w).session t = some v → v.phase.locked = true → c.session t = some v := by
    intro t v ht hv
    obtain ⟨-, hwv⟩ | ⟨-, ht⟩ := set_session_cases ht
    · rw [hw v hwv] at hv
      cases hv
    · exact ht
  have hnew : ∀ t v, c.session t = some v → v.phase.locked = true → (c.set s b h w).session t = some v := by
    intro t v ht hv
    have hts : t ≠ s := by
      rintro rfl
      rw [hs v ht] at hv
      cases hv
    rw [set_session_ne c _ _ _ hts, ht]
  refine ⟨fun t t' v v' ht ht' hv hv' hb => ?_, fun t v ht hv => ?_, fun t v ht hv => ?_, fun b' => ?_⟩
  · exact hl.held t t' v v' (hold t v ht hv) (hold t' v' ht' hv') hv hv' hb
  · have ht := hold t v ht hv
    by_cases hb : v.buf = b
    · rw [hb, set_buf_self, htoken, ← hb]
      exact hl.token t v ht hv
    · rw [set_buf_ne c s h _ hb]
      exact hl.token t v ht hv
  · have ht := hold t v ht (locked_of_filled hv)
    by_cases hb : v.buf = b
    · rw [hb, set_buf_self, hvalid t v ht hb, ← hb]
      exact hl.filled t v ht hv
    · rw [set_buf_ne c s h _ hb]
      exact hl.filled t v ht hv
  · have hsame : ((c.set s b h w).buf b').dirty = (c.buf b').dirty := by
      by_cases hb : b' = b
      · rw [hb, set_buf_self, hdirty]
      · rw [set_buf_ne c s h _ hb]
    rw [hsame, hl.dirty b']
    constructor
    · rintro ⟨t, v, ht, hv, hp⟩
      exact ⟨t, v, hnew t v ht (by rw [hp]; rfl), hv, hp⟩
    · rintro ⟨t, v, ht, hv, hp⟩
      exact ⟨t, v, hold t v ht (by rw [hp]; rfl), hv, hp⟩

/-- A session gets the semaphore. -/
theorem acquire (hl : c.Locked) (hs : c.session s = some u) (hlock : u.phase = .lock)
    (htoken : (c.buf u.buf).sem_lock = true) :
    (c.set s u.buf { c.buf u.buf with sem_lock := false } (some { u with phase := .read })).Locked := by
  have hother : ∀ t v, c.session t = some v → v.phase.locked = true → v.buf ≠ u.buf := by
    intro t v ht hv hb
    have hno := hl.token t v ht hv
    rw [hb, htoken] at hno
    cases hno
  refine ⟨fun t t' v v' ht ht' hv hv' hb => ?_, fun t v ht hv => ?_, fun t v ht hv => ?_, fun b => ?_⟩
  · obtain ⟨rfl, hv₁⟩ | ⟨-, ht⟩ := set_session_cases ht
    · obtain ⟨rfl, -⟩ | ⟨-, ht'⟩ := set_session_cases ht'
      · rfl
      · cases hv₁
        exact absurd hb.symm (hother t' v' ht' hv')
    obtain ⟨-, hv₂⟩ | ⟨-, ht'⟩ := set_session_cases ht'
    · cases hv₂
      exact absurd hb (hother t v ht hv)
    · exact hl.held t t' v v' ht ht' hv hv' hb
  · obtain ⟨rfl, hv₁⟩ | ⟨-, ht⟩ := set_session_cases ht
    · cases hv₁
      rw [set_buf_self]
    · rw [set_buf_ne c s _ _ (hother t v ht hv)]
      exact hl.token t v ht hv
  · obtain ⟨rfl, hv₁⟩ | ⟨-, ht⟩ := set_session_cases ht
    · cases hv₁
      cases hv
    · rw [set_buf_ne c s _ _ (hother t v ht (locked_of_filled hv))]
      exact hl.filled t v ht hv
  · have hsame : ((c.set s u.buf { c.buf u.buf with sem_lock := false }
        (some { u with phase := .read })).buf b).dirty = (c.buf b).dirty := by
      by_cases hb : b = u.buf
      · rw [hb, set_buf_self]
      · rw [set_buf_ne c s _ _ hb]
    rw [hsame, hl.dirty b]
    constructor
    · rintro ⟨t, v, ht, hv, hp⟩
      have hts : t ≠ s := by
        rintro rfl
        rw [hs, Option.some.injEq] at ht
        rw [← ht, hlock] at hp
        cases hp
      exact ⟨t, v, by rw [set_session_ne c _ _ _ hts, ht], hv, hp⟩
    · rintro ⟨t, v, ht, hv, hp⟩
      obtain ⟨rfl, hv₁⟩ | ⟨-, ht⟩ := set_session_cases ht
      · cases hv₁
        cases hp
      · exact ⟨t, v, ht, hv, hp⟩

end Locked

/-! ## The contents -/

/-- Of the blocks in use, no two have one block number. -/
def OneDevice (devOf : UInt32 → UInt32) (block : Block) : Prop := block.dev = devOf block.blockno

/-- A valid buffer that is not dirty agrees with the disk, and the disk with what was released last. -/
structure Coherent (devOf : UInt32 → UInt32) (c : BCache S D) : Prop where
  device : ∀ b, c.Claimed b → OneDevice devOf (c.buf b).block
  clean : ∀ b, (c.buf b).valid = true → (c.buf b).dirty = false →
    (c.buf b).data = c.disk (c.buf b).block.blockno
  stored : ∀ block, OneDevice devOf block → c.stored block = c.disk block.blockno

namespace Coherent

variable {devOf : UInt32 → UInt32}

theorem set {w : Option Use} (hc : c.Coherent devOf)
    (hdevice : 0 < h.refcnt ∨ h.valid = true → OneDevice devOf h.block)
    (hclean : h.valid = true → h.dirty = false → h.data = c.disk h.block.blockno) :
    (c.set s b h w).Coherent devOf := by
  refine ⟨fun b' hb' => ?_, fun b' hv hd => ?_, hc.stored⟩
  · by_cases hb : b' = b
    · rw [Claimed, hb, set_buf_self] at hb'
      rw [hb, set_buf_self]
      exact hdevice hb'
    · rw [Claimed, set_buf_ne c s h w hb] at hb'
      rw [set_buf_ne c s h w hb]
      exact hc.device b' hb'
  · show _ = c.disk _
    by_cases hb : b' = b
    · rw [hb, set_buf_self] at hv hd ⊢
      exact hclean hv hd
    · rw [set_buf_ne c s h w hb] at hv hd ⊢
      exact hc.clean b' hv hd

omit [DecidableEq S] in
theorem block_eq {block block' : Block} (h : OneDevice devOf block) (h' : OneDevice devOf block')
    (heq : block.blockno = block'.blockno) : block = block' := by
  have hdev : block.dev = block'.dev := by rw [h, h', heq]
  cases block
  cases block'
  simp_all

/-- A dirty buffer goes to the disk and to nobody else's block. -/
theorem brelse {written : Bool} (hc : c.Coherent devOf) (hi : c.Indexed) (hl : c.Locked)
    (hs : c.session s = some u) (hp : u.phase = .hold written) : (c.brelse s u written).Coherent devOf := by
  have hclaim : c.Claimed u.buf := .inl (hi.claimed hs)
  have hvalid : (c.buf u.buf).valid = true := hl.filled s u hs (by rw [hp]; rfl)
  have hdirty := hl.dirty_eq hs hp
  have hblock := hi.block s u hs
  have hdev := hc.device u.buf hclaim
  cases written with
  | false =>
    have hset : c.brelse s u false
        = c.set s u.buf { c.buf u.buf with dirty := false } (some { u with phase := .signal }) := by
      simp [BCache.brelse, BCache.set, hdirty]
    rw [hset]
    exact hc.set (fun _ => hdev) fun hv _ => hc.clean u.buf hv hdirty
  | true =>
    refine ⟨fun b hb => ?_, fun b hv hd => ?_, fun block hone => ?_⟩
    · by_cases hbu : b = u.buf
      · show OneDevice devOf (update c.buf u.buf _ b).block
        rw [hbu, update_self]
        exact hdev
      have hsame : (c.brelse s u true).buf b = c.buf b := update_of_ne hbu ..
      rw [Claimed, hsame] at hb
      rw [hsame]
      exact hc.device b hb
    · show _ = (if (c.buf u.buf).dirty then update c.disk _ _ else c.disk) _
      rw [if_pos hdirty]
      by_cases hbu : b = u.buf
      · have hself : (c.brelse s u true).buf u.buf = { c.buf u.buf with dirty := false } :=
          update_self ..
        rw [hbu, hself, update_self]
      have hsame : (c.brelse s u true).buf b = c.buf b := update_of_ne hbu ..
      rw [hsame] at hv hd ⊢
      have hother : (c.buf b).block.blockno ≠ (c.buf u.buf).block.blockno := by
        intro heq
        exact hbu (hi.unique (.inr hv) hclaim (block_eq (hc.device b (.inr hv)) hdev heq))
      rw [update_of_ne hother]
      exact hc.clean b hv hd
    · show update c.stored u.block _ block = (if (c.buf u.buf).dirty then _ else c.disk) _
      rw [if_pos hdirty, ← hblock]
      by_cases hb : block = (c.buf u.buf).block
      · rw [hb, update_self, update_self]
      · have hother : block.blockno ≠ (c.buf u.buf).block.blockno := fun heq => hb (block_eq hone hdev heq)
        rw [update_of_ne hb, update_of_ne hother]
        exact hc.stored block hone

end Coherent

/-! ## Every step keeps the invariants -/

omit [DecidableEq S] in
theorem Locked.of_eq (hl : c.Locked) (hbuf : c'.buf = c.buf) (hsession : c'.session = c.session) : c'.Locked := by
  obtain ⟨hheld, htoken, hfilled, hdirty⟩ := hl
  constructor <;> simpa only [hsession, hbuf]

omit [DecidableEq S] in
theorem Indexed.of_eq (hi : c.Indexed) (hbuf : c'.buf = c.buf) (hsession : c'.session = c.session)
    (hhead : c'.head = c.head) : c'.Indexed := by
  have husers : ∀ b, c'.users b = c.users b := by
    intro b
    simp only [BCache.users, hsession]
  refine ⟨fun b => ?_, fun b => ?_, fun t v ht => ?_, fun b hb => ?_⟩
  · rw [hhead]
    exact hi.mem b
  · rw [husers, hbuf]
    exact hi.users b
  · rw [hsession] at ht
    rw [hbuf]
    exact hi.block t v ht
  · rw [Claimed, hbuf] at hb
    simp only [find, hbuf, hhead]
    exact hi.first b hb

/-- What every run keeps. -/
structure Inv (c : BCache S D) : Prop where
  indexed : c.Indexed
  locked : c.Locked

namespace Inv

variable {devOf : UInt32 → UInt32} {data : D} {written : Bool}

theorem bget (hi : c.Inv) (hs : c.session s = none) (h : c.bget s block = some c') : c'.Inv := by
  have hnone : ∀ u, c.session s = some u → u.phase.locked = false := by
    intro u hu
    rw [hs] at hu
    cases hu
  unfold BCache.bget at h
  split at h
  · next b hfind =>
    cases h
    exact ⟨hi.indexed.hit hs hfind, hi.locked.pass hnone (fun u hu => by cases hu; rfl) rfl (fun _ _ _ _ => rfl) rfl⟩
  · next hfind =>
    split at h
    · next b hunused =>
      cases h
      have hfree := refcnt_of_unused hunused
      refine ⟨hi.indexed.recycle hs hfind hfree,
        hi.locked.pass hnone (fun u hu => by cases hu; rfl) rfl (fun t v ht hv => ?_) rfl⟩
      have hpos := hi.indexed.claimed ht
      rw [hv, hfree] at hpos
      exact absurd hpos (lt_irrefl 0)
    · cases h

theorem sema_wait (hi : c.Inv) (hs : c.session s = some u) (hp : u.phase = .lock)
    (h : c.sema_wait s u = some c') : c'.Inv := by
  unfold BCache.sema_wait at h
  split at h
  · next htoken =>
    cases h
    exact ⟨hi.indexed.touch hs rfl rfl rfl rfl, hi.locked.acquire hs hp htoken⟩
  · cases h

theorem bread (hi : c.Inv) (hs : c.session s = some u) (hp : u.phase = .read) : (c.bread s u).Inv := by
  have hlocked : u.phase.locked = true := by rw [hp]; rfl
  have hclean : (c.buf u.buf).dirty = false := hi.locked.clean hs hlocked (by rw [hp]; nofun)
  have htoken := hi.locked.token s u hs hlocked
  unfold BCache.bread
  simp only
  constructor
  · refine hi.indexed.touch hs ?_ ?_ ?_ ?_
    · rfl
    · rfl
    · split <;> rfl
    · split <;> rfl
  · refine hi.locked.own hs hlocked ?_ ?_ ?_ ?_
    · rfl
    · intro _
      split <;> exact htoken
    · intro _
      split
      · assumption
      · rfl
    · split <;> simp [hclean]

theorem bwrite (hi : c.Inv) (hs : c.session s = some u) (hp : u.phase = .hold written) :
    (c.bwrite s u data).Inv := by
  have hlocked : u.phase.locked = true := by rw [hp]; rfl
  constructor
  · exact hi.indexed.touch hs rfl rfl rfl rfl
  refine hi.locked.own hs hlocked ?_ ?_ ?_ ?_
  · rfl
  · exact fun _ => hi.locked.token s u hs hlocked
  · exact fun _ => hi.locked.filled s u hs (by rw [hp]; rfl)
  · simp

theorem brelse (hi : c.Inv) (hs : c.session s = some u) (hp : u.phase = .hold written) :
    (c.brelse s u written).Inv := by
  have hlocked : u.phase.locked = true := by rw [hp]; rfl
  have hset : (c.set s u.buf { c.buf u.buf with dirty := false } (some { u with phase := .signal })).Inv := by
    constructor
    · exact hi.indexed.touch hs rfl rfl rfl rfl
    refine hi.locked.own hs hlocked ?_ ?_ ?_ ?_
    · rfl
    · exact fun _ => hi.locked.token s u hs hlocked
    · exact fun _ => hi.locked.filled s u hs (by rw [hp]; rfl)
    · simp
  exact ⟨hset.indexed.of_eq rfl rfl rfl, hset.locked.of_eq rfl rfl⟩

theorem sema_signal (hi : c.Inv) (hs : c.session s = some u) (hp : u.phase = .signal) :
    (c.sema_signal s u).Inv := by
  have hlocked : u.phase.locked = true := by rw [hp]; rfl
  have hclean : (c.buf u.buf).dirty = false := hi.locked.clean hs hlocked (by rw [hp]; nofun)
  constructor
  · exact hi.indexed.touch hs rfl rfl rfl rfl
  refine hi.locked.own hs hlocked ?_ ?_ ?_ ?_
  · rfl
  · intro hput
    cases hput
  · intro hput
    cases hput
  · simp [hclean]

theorem put (hi : c.Inv) (hs : c.session s = some u) (hp : u.phase = .put) : (c.put s u).Inv := by
  have hset : (c.set s u.buf { c.buf u.buf with refcnt := (c.buf u.buf).refcnt - 1 } none).Locked := by
    refine hi.locked.pass (fun v hv => ?_) (fun v hv => ?_) rfl (fun _ _ _ _ => rfl) rfl
    · rw [hs, Option.some.injEq] at hv
      rw [← hv, hp]
      rfl
    · cases hv
  exact ⟨hi.indexed.put hs, hset.of_eq rfl rfl⟩

end Inv

omit [DecidableEq S] in
theorem inv_binit (disk : UInt32 → D) (data : Fin NBUF → D) : (binit disk data : BCache S D).Inv where
  indexed :=
    { mem := fun b => List.mem_reverse.mpr (List.mem_finRange b)
      users := by
        intro b
        simp [users, binit]
      block := fun s u hs => by cases hs
      first := by
        intro b hb
        cases hb with
        | inl hpos => exact absurd hpos (lt_irrefl 0)
        | inr hvalid => cases hvalid }
  locked :=
    { held := fun s s' u u' hs => by cases hs
      token := fun s u hs => by cases hs
      filled := fun s u hs => by cases hs
      dirty := by
        intro b
        simp [binit] }

/-- What each event needs and does. -/
inductive StepCases (c : BCache S D) : BioEvent S D → BCache S D → Prop
  | bget {s : S} {block : Block} {c' : BCache S D} (hs : c.session s = none) (h : c.bget s block = some c') :
      StepCases c (.bget s block) c'
  | sema_wait {s : S} {u : Use} {c' : BCache S D} (hs : c.session s = some u) (hp : u.phase = .lock)
      (h : c.sema_wait s u = some c') : StepCases c (.sema_wait s) c'
  | bread {s : S} {u : Use} (hs : c.session s = some u) (hp : u.phase = .read) :
      StepCases c (.bread s) (c.bread s u)
  | bwrite {s : S} {u : Use} {written : Bool} (data : D) (hs : c.session s = some u)
      (hp : u.phase = .hold written) : StepCases c (.bwrite s data) (c.bwrite s u data)
  | brelse {s : S} {u : Use} {written : Bool} (hs : c.session s = some u) (hp : u.phase = .hold written) :
      StepCases c (.brelse s) (c.brelse s u written)
  | sema_signal {s : S} {u : Use} (hs : c.session s = some u) (hp : u.phase = .signal) :
      StepCases c (.sema_signal s) (c.sema_signal s u)
  | put {s : S} {u : Use} (hs : c.session s = some u) (hp : u.phase = .put) :
      StepCases c (.put s) (c.put s u)

theorem step_cases {e : BioEvent S D} (h : BioStep c e c') : StepCases c e c' := by
  unfold BioStep next at h
  cases e with
  | bget s block =>
    simp only at h
    split at h
    · next hs => exact .bget hs h
    · cases h
  | sema_wait s =>
    simp only at h
    split at h
    · next hs => exact .sema_wait hs rfl h
    · cases h
  | bread s =>
    simp only at h
    split at h
    · next hs =>
      cases h
      exact .bread hs rfl
    · cases h
  | bwrite s data =>
    simp only at h
    split at h
    · next hs =>
      cases h
      exact .bwrite data hs rfl
    · cases h
  | brelse s =>
    simp only at h
    split at h
    · next hs =>
      cases h
      exact .brelse hs rfl
    · cases h
  | sema_signal s =>
    simp only at h
    split at h
    · next hs =>
      cases h
      exact .sema_signal hs rfl
    · cases h
  | put s =>
    simp only at h
    split at h
    · next hs =>
      cases h
      exact .put hs rfl
    · cases h

theorem Inv.step {e : BioEvent S D} (hi : c.Inv) (h : BioStep c e c') : c'.Inv := by
  cases step_cases h with
  | bget hs h => exact hi.bget hs h
  | sema_wait hs hp h => exact hi.sema_wait hs hp h
  | bread hs hp => exact hi.bread hs hp
  | bwrite data hs hp => exact hi.bwrite hs hp
  | brelse hs hp => exact hi.brelse hs hp
  | sema_signal hs hp => exact hi.sema_signal hs hp
  | put hs hp => exact hi.put hs hp

omit [DecidableEq S] in
theorem coherent_binit (devOf : UInt32 → UInt32) (disk : UInt32 → D) (data : Fin NBUF → D) :
    (binit disk data : BCache S D).Coherent devOf where
  device := by
    intro b hb
    cases hb with
    | inl hpos => exact absurd hpos (lt_irrefl 0)
    | inr hvalid => cases hvalid
  clean := fun b hv => by cases hv
  stored := fun block _ => rfl

/-- The block a `bget` names is one of the device in use. -/
def BioOk (devOf : UInt32 → UInt32) : BioEvent S D → Prop
  | .bget _ block => OneDevice devOf block
  | _ => True

theorem Coherent.step {devOf : UInt32 → UInt32} {e : BioEvent S D} (hc : c.Coherent devOf) (hi : c.Inv)
    (hok : BioOk devOf e) (h : BioStep c e c') : c'.Coherent devOf := by
  cases step_cases h with
  | @bget s block _ hs h =>
    unfold BCache.bget at h
    split at h
    · next b hfind =>
      cases h
      refine hc.set (fun _ => ?_) fun hv hd => hc.clean b hv hd
      show OneDevice devOf (c.buf b).block
      rw [block_of_find hfind]
      exact hok
    · next hfind =>
      split at h
      · next b hunused =>
        cases h
        refine hc.set (fun _ => hok) fun hv _ => ?_
        cases hv
      · cases h
  | @sema_wait s u _ hs hp h =>
    unfold BCache.sema_wait at h
    split at h
    · cases h
      exact hc.set (hc.device u.buf) (hc.clean u.buf)
    · cases h
  | @bread s u hs hp =>
    have hdev := hc.device u.buf (.inl (hi.indexed.claimed hs))
    unfold BCache.bread
    simp only
    split
    · exact hc.set (hc.device u.buf) (hc.clean u.buf)
    · exact hc.set (fun _ => hdev) fun _ _ => rfl
  | @bwrite s u written data hs hp =>
    refine hc.set (hc.device u.buf) fun _ hd => ?_
    cases hd
  | brelse hs hp => exact hc.brelse hi.indexed hi.locked hs hp
  | @sema_signal s u hs hp => exact hc.set (hc.device u.buf) (hc.clean u.buf)
  | @put s u hs hp =>
    have hdev := hc.device u.buf (.inl (hi.indexed.claimed hs))
    have hset : (c.set s u.buf { c.buf u.buf with refcnt := (c.buf u.buf).refcnt - 1 } none).Coherent devOf :=
      hc.set (fun _ => hdev) (hc.clean u.buf)
    exact ⟨hset.device, hset.clean, hset.stored⟩

/-- Only a buffer that nobody refers to comes to stand for another block. -/
theorem recycled {e : BioEvent S D} (h : BioStep c e c') (hb : (c'.buf b).block ≠ (c.buf b).block) :
    (c.buf b).refcnt = 0 := by
  have hset : ∀ (s : S) (b' : Fin NBUF) (h : BufferHead D) (w : Option Use),
      ((c.set s b' h w).buf b).block ≠ (c.buf b).block → h.block ≠ (c.buf b').block := by
    intro s b' h w hne hblock
    by_cases hbb : b = b'
    · rw [hbb, set_buf_self, hblock] at hne
      exact hne rfl
    · rw [set_buf_ne c s h w hbb] at hne
      exact hne rfl
  cases step_cases h with
  | @bget s block _ hs h =>
    unfold BCache.bget at h
    split at h
    · next b' hfind =>
      cases h
      exact (hset s b' _ _ hb rfl).elim
    · split at h
      · next b' hunused =>
        cases h
        by_cases hbb : b = b'
        · rw [hbb]
          exact refcnt_of_unused hunused
        · rw [set_buf_ne c s _ _ hbb] at hb
          exact absurd rfl hb
      · cases h
  | @sema_wait s u _ hs hp h =>
    unfold BCache.sema_wait at h
    split at h
    · cases h
      exact (hset s u.buf _ _ hb rfl).elim
    · cases h
  | @bread s u hs hp =>
    apply absurd _ (hset s u.buf _ _ hb)
    split <;> rfl
  | @bwrite s u written data hs hp => exact (hset s u.buf _ _ hb rfl).elim
  | @brelse s u written hs hp =>
    exact (hset s u.buf { c.buf u.buf with dirty := false } (some { u with phase := .signal }) hb rfl).elim
  | @sema_signal s u hs hp => exact (hset s u.buf _ _ hb rfl).elim
  | @put s u hs hp =>
    exact (hset s u.buf { c.buf u.buf with refcnt := (c.buf u.buf).refcnt - 1 } none hb rfl).elim

/-- **Buffer cache coherence.** In every run no two buffers in use stand for one block, a session has a
buffer of the block it asked for, and only a buffer out of use is recycled; and if the sessions use each
block number with one device, every `bread` returns the bytes most recently released after `bwrite`, or
those of the disk. -/
theorem buffer_cache_coherent {disk : UInt32 → D} {data : Fin NBUF → D} {es : List (BioEvent S D)}
    (hrun : Run BioStep (binit disk data) es c) :
    (∀ b b', 0 < (c.buf b).refcnt → 0 < (c.buf b').refcnt → (c.buf b).block = (c.buf b').block → b = b') ∧
      (∀ s u, c.session s = some u → 0 < (c.buf u.buf).refcnt ∧ (c.buf u.buf).block = u.block) ∧
      (∀ e c', BioStep c e c' → ∀ b, (c'.buf b).block ≠ (c.buf b).block → (c.buf b).refcnt = 0) ∧
      ∀ devOf : UInt32 → UInt32, (∀ s block, .bget s block ∈ es → block.dev = devOf block.blockno) →
        ∀ s u, c.session s = some u → u.phase = .hold false → (c.buf u.buf).data = c.stored u.block := by
  have hi : c.Inv := hrun.invariant (fun _ _ _ hi hs => hi.step hs) (inv_binit disk data)
  refine ⟨fun b b' hb hb' heq => hi.indexed.unique (.inl hb) (.inl hb') heq,
    fun s u hs => ⟨hi.indexed.claimed hs, hi.indexed.block s u hs⟩,
    fun e c' hstep b hb => recycled hstep hb, fun devOf hdev s u hs hp => ?_⟩
  have hguarded : Run (Guarded BioStep fun _ e => BioOk devOf e) (binit disk data) es c := by
    apply hrun.guard
    intro e he
    cases e with
    | bget s block => exact hdev s block he
    | _ => trivial
  have hboth : c.Inv ∧ c.Coherent devOf := by
    apply hguarded.invariant _ ⟨inv_binit disk data, coherent_binit devOf disk data⟩
    rintro c₁ e c₂ ⟨hi₁, hc₁⟩ ⟨hok, hstep⟩
    exact ⟨hi₁.step hstep, hc₁.step hi₁ hok hstep⟩
  have hvalid : (c.buf u.buf).valid = true := hi.locked.filled s u hs (by rw [hp]; rfl)
  have hdev' := hboth.2.device u.buf (.inl (hi.indexed.claimed hs))
  rw [hboth.2.clean u.buf hvalid (hi.locked.dirty_eq hs hp), ← hi.indexed.block s u hs,
    hboth.2.stored _ hdev']

/-! ## Two runs -/

/-- What session `s` has in its hands: the bytes of its buffer, those last released for its block, and
whether `bread` has returned and `bwrite` was not called. -/
def seen (c : BCache S D) (s : S) : Option (D × D × Bool) :=
  (c.session s).map fun u => ((c.buf u.buf).data, c.stored u.block, u.phase = .hold false)

/-- A whole session that stores `data` into `block`. -/
def writeSession (s : S) (block : Block) (data : D) : List (BioEvent S D) :=
  [.bget s block, .sema_wait s, .bread s, .bwrite s data, .brelse s, .sema_signal s, .put s]

/-- A session up to the return of `bread`. -/
def readSession (s : S) (block : Block) : List (BioEvent S D) :=
  [.bget s block, .sema_wait s, .bread s]

theorem run_of_seen {s₀ : BCache S D} {es : List (BioEvent S D)} {s : S} {d d' : D}
    (h : ((exec next s₀ es).bind fun c => c.seen s) = some (d, d', true)) :
    ∃ c u, Run BioStep s₀ es c ∧ c.session s = some u ∧ u.phase = .hold false ∧
      (c.buf u.buf).data = d ∧ c.stored u.block = d' := by
  obtain ⟨c, hc, hseen⟩ := Option.bind_eq_some_iff.mp h
  obtain ⟨u, hu, heq⟩ := Option.map_eq_some_iff.mp hseen
  rw [Prod.mk.injEq, Prod.mk.injEq, decide_eq_true_eq] at heq
  exact ⟨c, u, run_of_exec next s₀ es hc, hu, heq.2.2, heq.1, heq.2.1⟩

/-- Session 1 reads what session 0 has written. -/
theorem buffer_cache_coherent_reread : ∃ (c : BCache Nat Nat) (u : Use),
    Run BioStep (binit (fun _ => 0) fun _ => 9) (writeSession 0 ⟨1, 5⟩ 7 ++ readSession 1 ⟨1, 5⟩) c ∧
      c.session 1 = some u ∧ (c.buf u.buf).data = c.stored u.block ∧ c.stored u.block = 7 := by
  have hseen : ((exec next (binit (fun _ => 0) fun _ => 9)
      (writeSession 0 ⟨1, 5⟩ 7 ++ readSession 1 ⟨1, 5⟩)).bind fun c => c.seen 1) = some (7, 7, true) := by
    decide +kernel
  obtain ⟨c, u, hrun, hu, hp, -, hstored⟩ := run_of_seen hseen
  have hdev : ∀ (s : Nat) (block : Block), BioEvent.bget s block ∈
      (writeSession 0 ⟨1, 5⟩ 7 ++ readSession 1 ⟨1, 5⟩ : List (BioEvent Nat Nat)) → block.dev = 1 := by
    intro s block hmem
    simp [writeSession, readSession] at hmem
    obtain ⟨-, rfl⟩ | ⟨-, rfl⟩ := hmem <;> rfl
  exact ⟨c, u, hrun, hu, (buffer_cache_coherent hrun).2.2.2 (fun _ => 1) hdev 1 u hu hp, hstored⟩

/-- Device 1 stores 1 into block 5 and device 2 stores 2 into its block 5; later `bread` of block 5 of device 1
returns 2. -/
theorem two_devices_share_a_block : ∃ (c : BCache Nat Nat) (es : List (BioEvent Nat Nat)) (u : Use),
    Run BioStep (binit (fun _ => 0) fun _ => 9) es c ∧ c.session 0 = some u ∧ u.phase = .hold false ∧
      (c.buf u.buf).data = 2 ∧ c.stored u.block = 1 := by
  have hseen : ((exec next (binit (fun _ => 0) fun _ => 9)
      (writeSession 0 ⟨1, 5⟩ 1 ++ writeSession 0 ⟨2, 5⟩ 2 ++
        (List.range 29).map (fun i => .bget (i + 1) ⟨3, UInt32.ofNat i⟩) ++
        readSession 0 ⟨1, 5⟩)).bind fun c => c.seen 0) = some (2, 1, true) := by
    decide +kernel
  obtain ⟨c, u, hrun, hu, hp, hdata, hstored⟩ := run_of_seen hseen
  exact ⟨c, _, u, hrun, hu, hp, hdata, hstored⟩

end BCache

end LostWakeup.Fs
