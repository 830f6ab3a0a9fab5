/-
# LostWakeup.Ipc.Shm — SysV shared memory: `ipc/shm.c`, `ipc/ipc_ops.c` and `kernel/sysipc.c`.

Every process has a name space of its own, but the file behind a segment is found in the root directory by a name made of
the key, and the key of a private segment is always 0.  The calls are taken whole.  There is no call that detaches.

Left out: what else is in the root directory, a failing `icreate` (a panic), protection and flags of a mapping, and what
`shmctl` returns, which it never sets.
-/
import LostWakeup.Library.CInt
import LostWakeup.Library.Outcome
import LostWakeup.Library.Run
import Mathlib.Data.UInt
import Mathlib.Logic.Function.Basic

namespace LostWakeup.Ipc.Shm

open Library
open Function (update update_of_ne update_self)

/-! ## The segments -/

def IPC_PRIVATE : Int := 0
def IPCMNI : Nat := 32768
def SHMMNI : Nat := 4096
def SEQ_MULTIPLIER : Int := 32768
def SHMMIN : UInt64 := 1
def SHMMAX : UInt64 := 0xffffffffffffffff - 0x1000000
def SHMALL : UInt64 := 0xffffffffffffffff - 0x1000000
def SHMLBA : UInt64 := 4096

def S_IRWXUGO : UInt32 := 0x1ff
def SHM_DEST : UInt32 := 0x200
def SHM_HUGETLB : UInt32 := 0x800
def SHM_NORESERVE : UInt32 := 0x1000
def SHM_RND : UInt32 := 0x2000
def SHM_REMAP : UInt32 := 0x4000

def EINVAL : Int := 22
def ENOMEM : Int := 12
def ENOSPC : Int := 28

structure kern_ipc_perm where
  key : Int
  deleted : Bool
  id : Int
  mode : UInt32
  seq : UInt16

/-- `shm_file` is the inode of the file, `shm_creator` the process. -/
structure shmid_kernel where
  shm_perm : kern_ipc_perm
  shm_file : Nat
  shm_nattch : UInt64
  shm_segsz : UInt64
  shm_creator : Nat

/-- `struct ipc_namespace` with `struct ipc_ids`; `key_ht` is the hash table of indices, empty where there is none. -/
structure ipc_namespace where
  in_use : Int
  seq : UInt16
  next_ipc_id : Int
  key_ht : Int → Option Nat
  shm_tot : UInt64

/-- A segment mapped at an address. -/
structure attachment where
  shp : Nat
  user_addr : UInt64
  size : UInt64

/-- Segments are numbered as they are allocated, and never freed before their process is. -/
structure System where
  ns : Nat → ipc_namespace
  shm : Nat → shmid_kernel
  allocated : Nat
  /-- The root directory. -/
  root : String → Option Nat
  i_size : Nat → UInt64
  next_inode : Nat
  attached : List attachment

/-- Where the kernel stops. -/
inductive Stop
  | ipc_hash_lookup
  | has_deleted
  | ipc_lock_check
  | ipcget_public
  | not_tested
  /-- `fp->is_shm_file = 1` with the `fp` that `assist_openat` has not set. -/
  | wild_fp
  | no_id
  | no_free_memory
  | do_mmap

/-- The panics of the lookup, and the store through a pointer that is not set. -/
def Stop.breaks : Stop → Prop
  | .ipc_hash_lookup => True
  | .has_deleted => True
  | .ipc_lock_check => True
  | .wild_fp => True
  | _ => False

/-! ## `ipc_ops.c` -/

def ipcid_to_idx (id : Int) : Int := id % IPCMNI
def ipcid_to_seqx (id : Int) : Int := id / IPCMNI

def ipc_buildid (id : Int) (seq : UInt16) : Int := int32 (int32 (SEQ_MULTIPLIER * seq.toNat) + id)

/-- The name space with the segment `new` under the next index. -/
def ipc_namespace.enter (ids : ipc_namespace) (new : Nat) : ipc_namespace :=
  { ids with
    in_use := int32 (ids.in_use + 1)
    seq := ids.seq + 1
    next_ipc_id := int32 (ids.next_ipc_id + 1)
    key_ht := update ids.key_ht ids.next_ipc_id (some new) }

namespace System

def setNs (s : System) (p : Nat) (v : ipc_namespace) : System := { s with ns := update s.ns p v }

def setShm (s : System) (a : Nat) (v : shmid_kernel) : System := { s with shm := update s.shm a v }

/-- A new segment, which is not the one of any pointer. -/
def allocShm (s : System) (v : shmid_kernel) : System := { s with allocated := s.allocated + 1 }.setShm s.allocated v

def ipc_lock (s : System) (p : Nat) (id : Int) : Except Stop Nat :=
  match (s.ns p).key_ht (ipcid_to_idx id) with
  | none => .error .ipc_hash_lookup
  | some out => if (s.shm out).shm_perm.deleted then .error .has_deleted else .ok out

/-- `ipc_lock_check`; `ipc_checkid` compares the sequence numbers. -/
def ipc_lock_check (s : System) (p : Nat) (id : Int) : Except Stop Nat :=
  (s.ipc_lock p id).bind fun out =>
    if ipcid_to_seqx id ≠ (s.shm out).shm_perm.seq.toNat then .error .ipc_lock_check else .ok out

/-- `ipc_addid` of the segment `new`: the index, unless there are too many or it is taken. -/
def ipc_addid (s : System) (p new size : Nat) : Option (System × Int) :=
  let ids := s.ns p
  let size := min size IPCMNI
  if ids.in_use ≥ size then none
  else if (ids.key_ht ids.next_ipc_id).isSome then none
  else
    let perm := { (s.shm new).shm_perm with
      deleted := false, seq := ids.seq, id := ipc_buildid ids.next_ipc_id ids.seq }
    some ((s.setNs p (ids.enter new)).setShm new { s.shm new with shm_perm := perm }, ids.next_ipc_id)

/-- `ipc_rmid` takes the entry for the index in the id. -/
def ipc_rmid (s : System) (p shp : Nat) : System :=
  let ids := s.ns p
  let perm := (s.shm shp).shm_perm
  (s.setNs p { ids with
    in_use := int32 (ids.in_use - 1)
    key_ht := update ids.key_ht (ipcid_to_idx perm.id) none }).setShm shp
      { s.shm shp with shm_perm := { perm with deleted := true } }

/-! ## `shm.c` -/

end System

/-- `"SYSV%08x"`. -/
def sysvName (key : Int) : String :=
  let digits := Nat.toDigits 16 (key % 2 ^ 32).toNat
  "SYSV" ++ String.ofList (List.replicate (8 - digits.length) '0' ++ digits)

def numpages (size : UInt64) : UInt64 := (size + 4095) >>> 12

/-- The address `do_shmat` goes on with, if it does: `none` is `EINVAL`. -/
def shmatAddr (shmaddr : UInt64) (shmflg : UInt32) : Except Stop (Option UInt64) :=
  if shmaddr ≠ 0 then
    if shmaddr &&& (SHMLBA - 1) ≠ 0 then
      if shmflg &&& SHM_RND ≠ 0 then .ok (some (shmaddr &&& ~~~(SHMLBA - 1))) else .error .not_tested
    else .ok (some shmaddr)
  else if shmflg &&& SHM_REMAP ≠ 0 then .ok none
  else .ok (some 0)

namespace System

/-- `shmem_kernel_file_setup`: `icreate` opens the file that is there, if it is one of a segment. -/
def shmem_kernel_file_setup (s : System) (name : String) (size : UInt64) : System × Nat :=
  match s.root name with
  | some ip => ({ s with i_size := update s.i_size ip size }, ip)
  | none => ({ s with
      root := update s.root name (some s.next_inode)
      i_size := update s.i_size s.next_inode size
      next_inode := s.next_inode + 1 }, s.next_inode)

/-- `newseg`; `kzalloc` says whether there is memory for the segment, `assist_openat` whether there are a file and a
descriptor, which `IPC_RMID` does not give back. -/
def newseg (s : System) (p : Nat) (key : Int) (size : UInt64) (shmflg : UInt32) (kzalloc assist_openat : Bool) :
    Except Stop (System × Int) :=
  let tot := (s.ns p).shm_tot
  if size < SHMMIN ∨ size > SHMMAX then .ok (s, -EINVAL)
  else if numpages size <<< 12 < size then .ok (s, -ENOSPC)
  else if tot + numpages size < tot ∨ tot + numpages size > SHMALL then .ok (s, -ENOSPC)
  else if ¬ kzalloc then .ok (s, -ENOMEM)
  else if shmflg &&& SHM_HUGETLB ≠ 0 then .error .not_tested
  else if shmflg &&& SHM_NORESERVE ≠ 0 then .error .not_tested
  else if ¬ assist_openat then .error .wild_fp
  else
    let (s, fp) := s.shmem_kernel_file_setup (sysvName key) size
    let shp := s.allocated
    let s := s.allocShm ⟨⟨key, false, 0, shmflg &&& S_IRWXUGO, 0⟩, fp, 0, size, p⟩
    match s.ipc_addid p shp SHMMNI with
    | none => .error .no_id
    | some (s, id) =>
      if id < 0 then .error .no_id
      else .ok (s.setNs p { s.ns p with shm_tot := (s.ns p).shm_tot + numpages size }, (s.shm shp).shm_perm.id)

def sys_shmget (s : System) (p : Nat) (key : Int) (size : UInt64) (shmflg : UInt32) (kzalloc assist_openat : Bool) :
    Except Stop (System × Int) :=
  if key = IPC_PRIVATE then s.newseg p key size shmflg kzalloc assist_openat else .error .ipcget_public

def shm_destroy (s : System) (p shp : Nat) : System :=
  (s.setNs p { s.ns p with shm_tot := (s.ns p).shm_tot - numpages (s.shm shp).shm_segsz }).ipc_rmid p shp

/-! ## `sysipc.c` -/

def do_shm_rmid (s : System) (p shp : Nat) : System :=
  let seg := s.shm shp
  if seg.shm_nattch ≠ 0 then
    s.setShm shp { seg with shm_perm := { seg.shm_perm with mode := seg.shm_perm.mode ||| SHM_DEST, key := IPC_PRIVATE } }
  else s.shm_destroy p shp

/-- `sys_shmctl` with the command `IPC_RMID`. -/
def sys_shmctl (s : System) (p : Nat) (shmid : Int) : Except Stop System :=
  if shmid < 0 then .ok s
  else (s.ipc_lock_check p shmid).map fun shp => s.do_shm_rmid p shp

def setNattch (s : System) (shp : Nat) (n : UInt64) : System := s.setShm shp { s.shm shp with shm_nattch := n }

/-- `do_mmap` has mapped the file of the segment, in its length. -/
def attach (s : System) (shp : Nat) (user_addr : UInt64) : System :=
  { s with attached := ⟨shp, user_addr, s.i_size (s.shm shp).shm_file⟩ :: s.attached }

/-- The end of `do_shmat`, which takes back what the beginning has counted. -/
def outNattch (s : System) (p : Nat) (shmid : Int) : Except Stop System :=
  (s.ipc_lock p shmid).map fun shp =>
    let s := s.setNattch shp ((s.shm shp).shm_nattch - 1)
    if (s.shm shp).shm_nattch = 0 ∧ (s.shm shp).shm_perm.mode &&& SHM_DEST ≠ 0 then s.shm_destroy p shp else s

/-- `do_shmat`; `kzalloc` says whether there is memory, `mmap` where `do_mmap` has mapped the file. -/
def do_shmat (s : System) (p : Nat) (shmid : Int) (shmaddr : UInt64) (shmflg : UInt32) (kzalloc : Bool)
    (mmap : Option UInt64) : Except Stop (System × Int) :=
  if shmid < 0 then .ok (s, -EINVAL)
  else
    (shmatAddr shmaddr shmflg).bind fun
      | none => .ok (s, -EINVAL)
      | some addr =>
        (s.ipc_lock_check p shmid).bind fun shp =>
          let s := s.setNattch shp ((s.shm shp).shm_nattch + 1)
          if ¬ kzalloc then .error .no_free_memory
          else if addr ≠ 0 ∧ shmflg &&& SHM_REMAP = 0 then .error .not_tested
          else
            match mmap with
            | none => .error .do_mmap
            | some user_addr => (outNattch (s.attach shp user_addr) p shmid).map fun s => (s, 0)

end System

/-! ## Runs of calls -/

/-- The calls of the process `p`, with what the allocators, `assist_openat` and `do_mmap` answer. -/
inductive Event
  | sys_shmget (p : Nat) (key : Int) (size : UInt64) (shmflg : UInt32) (kzalloc assist_openat : Bool)
  | sys_shmat (p : Nat) (shmid : Int) (shmaddr : UInt64) (shmflg : UInt32) (kzalloc : Bool) (mmap : Option UInt64)
  | sys_shmctl (p : Nat) (shmid : Int)

def System.apply (s : System) : Event → Except Stop System
  | .sys_shmget p key size shmflg kzalloc assist_openat =>
    (s.sys_shmget p key size shmflg kzalloc assist_openat).map Prod.fst
  | .sys_shmat p shmid shmaddr shmflg kzalloc mmap => (s.do_shmat p shmid shmaddr shmflg kzalloc mmap).map Prod.fst
  | .sys_shmctl p shmid => s.sys_shmctl p shmid

/-- A panic has no state after it. -/
def Step (s : System) (e : Event) (s' : System) : Prop := s.apply e = .ok s'

/-- No segment and no file of one; what `shm` holds before a segment is allocated does not matter. -/
def boot : System where
  ns _ := ⟨0, 0, 0, fun _ => none, 0⟩
  shm _ := ⟨⟨0, false, 0, 0, 0⟩, 0, 0, 0, 0⟩
  allocated := 0
  root _ := none
  i_size _ := 0
  next_inode := 0
  attached := []

/-! ## The law -/

/-- The segment exists and has not been removed. -/
def Live (s : System) (a : Nat) : Prop := a < s.allocated ∧ (s.shm a).shm_perm.deleted = false

/-- The attachments of a segment. -/
def System.attachments (s : System) (a : Nat) : Nat := s.attached.countP fun x => x.shp = a

structure Law (s : System) : Prop where
  apart : ∀ a b, Live s a → Live s b → a ≠ b → (s.shm a).shm_file ≠ (s.shm b).shm_file
  found : ∀ a, Live s a → s.ipc_lock_check (s.shm a).shm_creator (s.shm a).shm_perm.id = .ok a
  only : ∀ p id a, s.ipc_lock_check p id = .ok a →
    Live s a ∧ (s.shm a).shm_creator = p ∧ (s.shm a).shm_perm.id = id
  nattch : ∀ a, Live s a → (s.shm a).shm_nattch.toNat = s.attachments a

/-- The call does not stop in a lookup, nor write where nothing points. -/
def Reports (s : System) (e : Event) : Prop := ∀ stop, s.apply e = .error stop → ¬ stop.breaks

/-- A segment with attachments stays. -/
def Deferred (s s' : System) : Prop := ∀ a, Live s a → s.attachments a ≠ 0 → Live s' a

def Keeps (s : System) (e : Event) : Prop := Reports s e ∧ ∀ s', Step s e s' → Law s' ∧ Deferred s s'

/-- The arguments and limits with which `sys_shmget` opens the file of a segment. -/
structure Opens (s : System) (p : Nat) (key : Int) (size : UInt64) (shmflg : UInt32) (kzalloc : Bool) : Prop where
  isPrivate : key = IPC_PRIVATE
  inRange : ¬ (size < SHMMIN ∨ size > SHMMAX)
  pages : ¬ numpages size <<< 12 < size
  tot : ¬ ((s.ns p).shm_tot + numpages size < (s.ns p).shm_tot ∨ (s.ns p).shm_tot + numpages size > SHMALL)
  memory : kzalloc = true
  hugetlb : shmflg &&& SHM_HUGETLB = 0
  noreserve : shmflg &&& SHM_NORESERVE = 0

/-- The name space has an index for one more segment. -/
structure Enters (s : System) (p : Nat) : Prop where
  room : (s.ns p).in_use < SHMMNI
  free : (s.ns p).key_ht (s.ns p).next_ipc_id = none
  index : 0 ≤ (s.ns p).next_ipc_id

/-- The arguments with which `do_shmat` looks its id up, and the address it goes on with. -/
def Looks (shmid : Int) (shmaddr : UInt64) (shmflg : UInt32) (addr : UInt64) : Prop :=
  0 ≤ shmid ∧ shmatAddr shmaddr shmflg = .ok (some addr)

/-- After the lookup nothing stops `do_shmat`. -/
def Maps (addr : UInt64) (shmflg : UInt32) (kzalloc : Bool) (mmap : Option UInt64) : Prop :=
  kzalloc = true ∧ ¬ (addr ≠ 0 ∧ shmflg &&& SHM_REMAP = 0) ∧ mmap ≠ none

/-- The id is that of a live segment of the process. -/
def Known (s : System) (p : Nat) (shmid : Int) : Prop :=
  ∃ a, Live s a ∧ (s.shm a).shm_creator = p ∧ (s.shm a).shm_perm.id = shmid

/-- A segment is made only where its file can be opened, none is live and fewer than 32768 were made, none is attached, and
the ids that are looked up are those of live segments. -/
def Ok (s : System) : Event → Prop
  | .sys_shmget p key size shmflg kzalloc assist_openat =>
    Opens s p key size shmflg kzalloc → assist_openat = true ∧
      (Enters s p → (∀ a, ¬ Live s a) ∧ (s.ns p).next_ipc_id < IPCMNI)
  | .sys_shmat p shmid shmaddr shmflg kzalloc mmap =>
    ∀ addr, Looks shmid shmaddr shmflg addr → Known s p shmid ∧ ¬ Maps addr shmflg kzalloc mmap
  | .sys_shmctl p shmid => 0 ≤ shmid → Known s p shmid

/-! ## What the calls do -/

section Calls

variable {s s' : System} {p a : Nat} {key shmid id : Int} {size shmaddr addr : UInt64} {shmflg : UInt32} {kzalloc : Bool}
  {mmap : Option UInt64}

/-- `s'` has one more segment than `s`. -/
structure Made (s s' : System) (p : Nat) (key : Int) : Prop where
  allocated : s'.allocated = s.allocated + 1
  old : ∀ a, a ≠ s.allocated → s'.shm a = s.shm a
  creator : (s'.shm s.allocated).shm_creator = p
  deleted : (s'.shm s.allocated).shm_perm.deleted = false
  nattch : (s'.shm s.allocated).shm_nattch = 0
  undest : (s'.shm s.allocated).shm_perm.mode &&& SHM_DEST = 0
  seq : (s'.shm s.allocated).shm_perm.seq = (s.ns p).seq
  id : (s'.shm s.allocated).shm_perm.id = ipc_buildid (s.ns p).next_ipc_id (s.ns p).seq
  file : s'.root (sysvName key) = some (s'.shm s.allocated).shm_file
  root : ∀ ip, s.root (sysvName key) = some ip → s'.root (sysvName key) = some ip
  key_ht : (s'.ns p).key_ht = update (s.ns p).key_ht (s.ns p).next_ipc_id (some s.allocated)
  next_ipc_id : (s'.ns p).next_ipc_id = int32 ((s.ns p).next_ipc_id + 1)
  others : ∀ q, q ≠ p → s'.ns q = s.ns q
  attached : s'.attached = s.attached

/-- `s'` is `s` without the segment `a` of the process `p`. -/
structure Removed (s s' : System) (p a : Nat) : Prop where
  allocated : s'.allocated = s.allocated
  old : ∀ b, b ≠ a → s'.shm b = s.shm b
  deleted : (s'.shm a).shm_perm.deleted = true
  key_ht : (s'.ns p).key_ht = update (s.ns p).key_ht (ipcid_to_idx (s.shm a).shm_perm.id) none
  next_ipc_id : (s'.ns p).next_ipc_id = (s.ns p).next_ipc_id
  others : ∀ q, q ≠ p → s'.ns q = s.ns q
  root : s'.root = s.root
  attached : s'.attached = s.attached

theorem shmem_kernel_file_setup_spec (name : String) (size : UInt64) :
    ∃ root i_size next_inode fp, s.shmem_kernel_file_setup name size =
        ({ s with root := root, i_size := i_size, next_inode := next_inode }, fp) ∧
      root name = some fp ∧ ∀ ip, s.root name = some ip → root name = some ip := by
  unfold System.shmem_kernel_file_setup
  cases h : s.root name with
  | some ip => exact ⟨_, _, _, _, rfl, h, fun _ hold => hold ▸ h⟩
  | none => exact ⟨_, _, _, _, rfl, update_self .., nofun⟩

theorem undest_of_and (shmflg : UInt32) : shmflg &&& S_IRWXUGO &&& SHM_DEST = 0 := by
  rw [UInt32.and_assoc]
  exact UInt32.and_zero

theorem ipc_addid_full {new : Nat} (h : (s.ns p).in_use ≥ SHMMNI) : s.ipc_addid p new SHMMNI = none := if_pos h

theorem ipc_addid_taken {new b : Nat} (h : (s.ns p).key_ht (s.ns p).next_ipc_id = some b) : s.ipc_addid p new SHMMNI = none := by
  unfold System.ipc_addid
  dsimp only
  rw [h]
  split
  · rfl
  · exact if_pos rfl

theorem ipc_addid_free {new : Nat} (hroom : (s.ns p).in_use < SHMMNI) (hfree : (s.ns p).key_ht (s.ns p).next_ipc_id = none) :
    s.ipc_addid p new SHMMNI = some ((s.setNs p ((s.ns p).enter new)).setShm new { s.shm new with
      shm_perm := { (s.shm new).shm_perm with
        deleted := false, seq := (s.ns p).seq, id := ipc_buildid (s.ns p).next_ipc_id (s.ns p).seq } },
      (s.ns p).next_ipc_id) := by
  have hsize : ¬ (s.ns p).in_use ≥ (min SHMMNI IPCMNI : Nat) := not_le.mpr hroom
  unfold System.ipc_addid
  dsimp only
  rw [if_neg hsize, hfree]
  rfl

/-- Without a file or a descriptor `fp` points anywhere. -/
theorem sys_shmget_wild (h : Opens s p key size shmflg kzalloc) :
    s.sys_shmget p key size shmflg kzalloc false = .error .wild_fp := by
  unfold System.sys_shmget System.newseg
  dsimp only
  rw [if_pos h.isPrivate, if_neg h.inRange, if_neg h.pages, if_neg h.tot, if_neg (not_not_intro h.memory),
    if_neg (not_not_intro h.hugetlb), if_neg (not_not_intro h.noreserve), if_pos Bool.false_ne_true]

/-- Where the file can be opened `sys_shmget` makes a segment or changes nothing, and no lookup is made in it. -/
theorem sys_shmget_cases (s : System) (p : Nat) (key : Int) (size : UInt64) (shmflg : UInt32) (kzalloc assist_openat : Bool)
    (hopen : Opens s p key size shmflg kzalloc → assist_openat = true) :
    ((Opens s p key size shmflg kzalloc ∧ Enters s p) ∧
      ∃ s' id, s.sys_shmget p key size shmflg kzalloc assist_openat = .ok (s', id) ∧ Made s s' p key) ∨
    (¬ (Opens s p key size shmflg kzalloc ∧ Enters s p) ∧
      ((∃ err, s.sys_shmget p key size shmflg kzalloc assist_openat = .ok (s, err)) ∨
        ∃ stop, s.sys_shmget p key size shmflg kzalloc assist_openat = .error stop ∧ ¬ stop.breaks)) := by
  unfold System.sys_shmget
  rcases eq_or_ne key IPC_PRIVATE with hkey | hkey
  swap
  · exact .inr ⟨fun h => hkey h.1.isPrivate, .inr ⟨_, if_neg hkey, id⟩⟩
  rw [if_pos hkey]
  unfold System.newseg
  dsimp only
  -- the checks, in the order of the source
  rcases em (size < SHMMIN ∨ size > SHMMAX) with h | hrange
  · exact .inr ⟨fun hc => hc.1.inRange h, .inl ⟨_, if_pos h⟩⟩
  rw [if_neg hrange]
  rcases em (numpages size <<< 12 < size) with h | hpages
  · exact .inr ⟨fun hc => hc.1.pages h, .inl ⟨_, if_pos h⟩⟩
  rw [if_neg hpages]
  rcases em ((s.ns p).shm_tot + numpages size < (s.ns p).shm_tot ∨ (s.ns p).shm_tot + numpages size > SHMALL)
    with h | htot
  · exact .inr ⟨fun hc => hc.1.tot h, .inl ⟨_, if_pos h⟩⟩
  rw [if_neg htot]
  cases kzalloc with
  | false => exact .inr ⟨fun hc => Bool.false_ne_true hc.1.memory, .inl ⟨_, if_pos Bool.false_ne_true⟩⟩
  | true =>
  rw [if_neg (not_not_intro rfl)]
  rcases eq_or_ne (shmflg &&& SHM_HUGETLB) 0 with hhuge | h
  swap
  · exact .inr ⟨fun hc => h hc.1.hugetlb, .inr ⟨_, if_pos h, id⟩⟩
  rw [if_neg (not_not_intro hhuge)]
  rcases eq_or_ne (shmflg &&& SHM_NORESERVE) 0 with hreserve | h
  swap
  · exact .inr ⟨fun hc => h hc.1.noreserve, .inr ⟨_, if_pos h, id⟩⟩
  obtain rfl := hopen ⟨hkey, hrange, hpages, htot, rfl, hhuge, hreserve⟩
  rw [if_neg (not_not_intro hreserve), if_neg (not_not_intro rfl)]
  obtain ⟨root, i_size, next_inode, fp, hsetup, hfile, hroot⟩ := shmem_kernel_file_setup_spec (s := s) (sysvName key) size
  rw [hsetup]
  dsimp only
  -- the segment is there, and gets an index
  generalize hnew : System.allocShm _ _ = t
  have hns : t.ns = s.ns := by
    rw [← hnew]
    rfl
  rcases lt_or_ge (s.ns p).in_use SHMMNI with hroom | h
  swap
  · rw [ipc_addid_full (by rw [hns]; exact h)]
    exact .inr ⟨fun hc => absurd hc.2.room h.not_gt, .inr ⟨_, rfl, id⟩⟩
  cases hfree : (s.ns p).key_ht (s.ns p).next_ipc_id with
  | some b =>
    rw [ipc_addid_taken (b := b) (by rw [hns]; exact hfree)]
    exact .inr ⟨fun hc => (nomatch hfree.symm.trans hc.2.free), .inr ⟨_, rfl, id⟩⟩
  | none =>
  rw [ipc_addid_free (by rw [hns]; exact hroom) (by rw [hns]; exact hfree), hns]
  dsimp only
  rcases lt_or_ge (s.ns p).next_ipc_id 0 with h | hindex
  · rw [if_pos h]
    exact .inr ⟨fun hc => absurd hc.2.index h.not_ge, .inr ⟨_, rfl, id⟩⟩
  rw [if_neg hindex.not_gt]
  refine .inl ⟨⟨⟨hkey, hrange, hpages, htot, rfl, hhuge, hreserve⟩, hroom, hfree, hindex⟩, _, _, rfl, ?_⟩
  subst hnew
  constructor
  case old =>
    intro a ha
    simp only [System.setNs, System.setShm, System.allocShm, update_of_ne ha]
  case others =>
    intro q hq
    simp only [System.setNs, System.setShm, System.allocShm, update_of_ne hq]
  case root => exact hroot
  all_goals simp only [System.setNs, System.setShm, System.allocShm, ipc_namespace.enter, update_self]
  case undest => exact undest_of_and shmflg
  case file => exact hfile

theorem shm_destroy_removed : Removed s (s.shm_destroy p a) p a := by
  constructor
  case old =>
    intro b hb
    simp only [System.shm_destroy, System.ipc_rmid, System.setShm, System.setNs, update_of_ne hb]
  case others =>
    intro q hq
    simp only [System.shm_destroy, System.ipc_rmid, System.setShm, System.setNs, update_of_ne hq]
  all_goals simp only [System.shm_destroy, System.ipc_rmid, System.setShm, System.setNs, update_self]

theorem do_shm_rmid_removed (h : (s.shm a).shm_nattch = 0) : Removed s (s.do_shm_rmid p a) p a := by
  unfold System.do_shm_rmid
  dsimp only
  rw [if_neg (not_not_intro h)]
  exact shm_destroy_removed

theorem ipc_lock_of_check (h : s.ipc_lock_check p id = .ok a) : s.ipc_lock p id = .ok a := by
  obtain ⟨b, hlock, hseq⟩ := ok_of_bind h
  split at hseq
  · cases hseq
  · cases hseq
    exact hlock

theorem breaks_of_check {stop : Stop} (h : s.ipc_lock_check p id = .error stop) : stop.breaks := by
  unfold System.ipc_lock_check System.ipc_lock at h
  split at h
  · cases h
    trivial
  split at h
  · cases h
    trivial
  change (if _ then _ else _) = _ at h
  split at h
  · cases h
    trivial
  · cases h

theorem do_shmat_unlooked (h : ∀ addr, ¬ Looks shmid shmaddr shmflg addr) :
    (∃ err, s.do_shmat p shmid shmaddr shmflg kzalloc mmap = .ok (s, err)) ∨
      ∃ stop, s.do_shmat p shmid shmaddr shmflg kzalloc mmap = .error stop ∧ ¬ stop.breaks := by
  unfold System.do_shmat
  rcases lt_or_ge shmid 0 with hneg | hid
  · exact .inl ⟨_, if_pos hneg⟩
  rw [if_neg hid.not_gt]
  cases haddr : shmatAddr shmaddr shmflg with
  | error stop =>
    refine .inr ⟨stop, rfl, ?_⟩
    unfold shmatAddr at haddr
    split at haddr
    · split at haddr
      · split at haddr
        · cases haddr
        · cases haddr
          exact id
      · cases haddr
    · split at haddr
      · cases haddr
      · cases haddr
  | ok r =>
    cases r with
    | none => exact .inl ⟨_, rfl⟩
    | some addr => exact absurd ⟨hid, haddr⟩ (h addr)

theorem do_shmat_unknown {stop : Stop} (h : Looks shmid shmaddr shmflg addr) (hlookup : s.ipc_lock_check p shmid = .error stop) :
    s.do_shmat p shmid shmaddr shmflg kzalloc mmap = .error stop := by
  unfold System.do_shmat
  rw [if_neg (not_lt.mpr h.1), h.2]
  show Except.bind (s.ipc_lock_check p shmid) _ = _
  rw [hlookup]
  rfl

theorem do_shmat_unmapped (h : Looks shmid shmaddr shmflg addr) (hlookup : s.ipc_lock_check p shmid = .ok a)
    (hmaps : ¬ Maps addr shmflg kzalloc mmap) :
    ∃ stop, s.do_shmat p shmid shmaddr shmflg kzalloc mmap = .error stop ∧ ¬ stop.breaks := by
  unfold System.do_shmat
  rw [if_neg (not_lt.mpr h.1), h.2]
  show ∃ stop, Except.bind (s.ipc_lock_check p shmid) _ = _ ∧ _
  rw [hlookup]
  change ∃ stop, (if ¬ kzalloc = true then _ else _) = _ ∧ _
  split
  · exact ⟨_, rfl, id⟩
  next hmemory =>
  split
  · exact ⟨_, rfl, id⟩
  next haddr =>
  cases mmap with
  | none => exact ⟨_, rfl, id⟩
  | some user_addr => exact absurd ⟨not_not.mp hmemory, haddr, nofun⟩ hmaps

theorem ipc_lock_congr (hns : s'.ns = s.ns) (hdeleted : ∀ b, (s'.shm b).shm_perm.deleted = (s.shm b).shm_perm.deleted) :
    s'.ipc_lock p id = s.ipc_lock p id := by
  unfold System.ipc_lock
  rw [hns]
  split
  · rfl
  · rw [hdeleted]

theorem setNattch_self (n : UInt64) : (s.setNattch a n).shm a = { s.shm a with shm_nattch := n } := update_self ..

theorem deleted_setNattch (n : UInt64) (b : Nat) :
    ((s.setNattch a n).shm b).shm_perm.deleted = (s.shm b).shm_perm.deleted := by
  rcases eq_or_ne b a with rfl | hne
  · rw [setNattch_self]
  · show (update s.shm a _ b).shm_perm.deleted = _
    rw [update_of_ne hne]

theorem outNattch_eq (hlock : s.ipc_lock p shmid = .ok a) (hundest : (s.shm a).shm_perm.mode &&& SHM_DEST = 0) :
    s.outNattch p shmid = .ok (s.setNattch a ((s.shm a).shm_nattch - 1)) := by
  unfold System.outNattch
  rw [hlock]
  show Except.ok (if _ ∧ ((s.setNattch a _).shm a).shm_perm.mode &&& SHM_DEST ≠ 0 then _ else _) = _
  rw [setNattch_self, if_neg fun h => h.2 hundest]

/-- What is counted at the beginning is taken back at the end, with the segment attached. -/
theorem do_shmat_mapped (h : Looks shmid shmaddr shmflg addr) (hlookup : s.ipc_lock_check p shmid = .ok a)
    (hmaps : Maps addr shmflg kzalloc mmap) (hundest : (s.shm a).shm_perm.mode &&& SHM_DEST = 0) :
    ∃ s', s.do_shmat p shmid shmaddr shmflg kzalloc mmap = .ok (s', 0) ∧ s'.shm a = s.shm a ∧
      s'.allocated = s.allocated ∧ s'.attachments a = s.attachments a + 1 := by
  obtain ⟨hmemory, haddr, hmmap⟩ := hmaps
  obtain ⟨user_addr, rfl⟩ := Option.ne_none_iff_exists'.mp hmmap
  unfold System.do_shmat
  rw [if_neg (not_lt.mpr h.1), h.2]
  show ∃ s', Except.bind (s.ipc_lock_check p shmid) _ = _ ∧ _
  rw [hlookup]
  change ∃ s', (if ¬ kzalloc = true then _ else _) = _ ∧ _
  rw [if_neg (not_not_intro hmemory), if_neg haddr]
  dsimp only
  have hlock : ((s.setNattch a ((s.shm a).shm_nattch + 1)).attach a user_addr).ipc_lock p shmid = .ok a := by
    refine (ipc_lock_congr (s := s) ?_ ?_).trans (ipc_lock_of_check hlookup)
    · rfl
    · exact fun b => deleted_setNattch _ b
  have hself : ((s.setNattch a ((s.shm a).shm_nattch + 1)).attach a user_addr).shm a =
      { s.shm a with shm_nattch := (s.shm a).shm_nattch + 1 } := setNattch_self _
  rw [outNattch_eq hlock (by rw [hself]; exact hundest)]
  refine ⟨_, rfl, ?_, rfl, ?_⟩
  · rw [setNattch_self, hself]
    dsimp only
    rw [UInt64.add_sub_cancel]
  · exact List.countP_cons_of_pos (by simp)

end Calls

/-! ## The invariant -/

/-- What holds while nothing has been attached, and one segment at most is live. -/
structure Inv (s : System) : Prop where
  attached : s.attached = []
  nattch : ∀ a, Live s a → (s.shm a).shm_nattch = 0
  undest : ∀ a, Live s a → (s.shm a).shm_perm.mode &&& SHM_DEST = 0
  file : ∀ a, Live s a → s.root (sysvName IPC_PRIVATE) = some (s.shm a).shm_file
  bound : ∀ p, (s.ns p).next_ipc_id ≤ IPCMNI
  entry : ∀ p k a, (s.ns p).key_ht k = some a → Live s a ∧ (s.shm a).shm_creator = p ∧
    0 ≤ k ∧ k < (s.ns p).next_ipc_id ∧ (s.shm a).shm_perm.id = SEQ_MULTIPLIER * (s.shm a).shm_perm.seq.toNat + k
  listed : ∀ a, Live s a → ∃ k, (s.ns (s.shm a).shm_creator).key_ht k = some a
  one : ∀ a b, Live s a → Live s b → a = b

section Invariant

variable {s s' : System} {e : Event} {p a : Nat} {key id : Int}

theorem idx_of_id {seq : UInt16} {k : Int} (hlo : 0 ≤ k) (hhi : k < IPCMNI) (hid : id = SEQ_MULTIPLIER * seq.toNat + k) :
    ipcid_to_idx id = k ∧ ipcid_to_seqx id = seq.toNat := by
  simp only [IPCMNI, SEQ_MULTIPLIER, ipcid_to_idx, ipcid_to_seqx] at *
  omega

/-- The lookup finds the live segment of the process with that id. -/
theorem Inv.lookup (h : Inv s) : s.ipc_lock_check p id = .ok a ↔
    Live s a ∧ (s.shm a).shm_creator = p ∧ (s.shm a).shm_perm.id = id := by
  constructor
  · intro hcheck
    have hlock := ipc_lock_of_check hcheck
    unfold System.ipc_lock_check at hcheck
    rw [hlock] at hcheck
    unfold System.ipc_lock at hlock
    split at hlock
    · cases hlock
    next b hb =>
      split at hlock
      · cases hlock
      cases hlock
      obtain ⟨hlive, hcreator, hlo, hhi, hid⟩ := h.entry p _ a hb
      change (if _ ≠ _ then _ else _) = _ at hcheck
      split at hcheck
      · cases hcheck
      next hseq =>
        refine ⟨hlive, hcreator, ?_⟩
        rw [hid, ← not_ne_iff.mp hseq]
        simp only [IPCMNI, SEQ_MULTIPLIER, ipcid_to_idx, ipcid_to_seqx]
        omega
  · rintro ⟨hlive, rfl, rfl⟩
    obtain ⟨k, hk⟩ := h.listed a hlive
    obtain ⟨-, -, hlo, hhi, hid⟩ := h.entry _ k a hk
    obtain ⟨hidx, hseq⟩ := idx_of_id hlo (lt_of_lt_of_le hhi (h.bound _)) hid
    have hlock : s.ipc_lock (s.shm a).shm_creator (s.shm a).shm_perm.id = .ok a := by
      unfold System.ipc_lock
      rw [hidx, hk]
      exact if_neg (by rw [hlive.2]; exact Bool.false_ne_true)
    unfold System.ipc_lock_check
    rw [hlock]
    exact if_neg (not_ne_iff.mpr hseq)

theorem Inv.law (h : Inv s) : Law s := by
  refine ⟨fun a b ha hb hne => absurd (h.one a b ha hb) hne, fun a ha => h.lookup.mpr ⟨ha, rfl, rfl⟩,
    fun p id a => h.lookup.mp, fun a ha => ?_⟩
  rw [h.nattch a ha, System.attachments, h.attached]
  rfl

theorem Inv.known_iff (h : Inv s) : Known s p id ↔ ∃ a, s.ipc_lock_check p id = .ok a := by
  constructor
  · rintro ⟨a, ha⟩
    exact ⟨a, h.lookup.mpr ha⟩
  · rintro ⟨a, ha⟩
    exact ⟨a, h.lookup.mp ha⟩

theorem inv_boot : Inv boot := by
  have hnone : ∀ a, ¬ Live boot a := fun a h => absurd h.1 (Nat.not_lt_zero a)
  exact ⟨rfl, fun a h => absurd h (hnone a), fun a h => absurd h (hnone a), fun a h => absurd h (hnone a),
    fun _ => Int.zero_le_ofNat _, nofun, fun a h => absurd h (hnone a), fun a _ h => absurd h (hnone a)⟩

theorem Made.live (h : Made s s' p key) (hne : a ≠ s.allocated) : Live s' a ↔ Live s a := by
  rw [Live, Live, h.old a hne, h.allocated]
  constructor
  · exact fun ha => ⟨by omega, ha.2⟩
  · exact fun ha => ⟨by omega, ha.2⟩

theorem Made.live_new (h : Made s s' p key) : Live s' s.allocated := ⟨by rw [h.allocated]; omega, h.deleted⟩

theorem id_of_made (h : Made s s' p key) (hlo : 0 ≤ (s.ns p).next_ipc_id) (hhi : (s.ns p).next_ipc_id < IPCMNI) :
    (s'.shm s.allocated).shm_perm.id =
      SEQ_MULTIPLIER * (s'.shm s.allocated).shm_perm.seq.toNat + (s.ns p).next_ipc_id := by
  have hsmall := (s.ns p).seq.toNat_lt
  rw [h.id, h.seq]
  simp only [IPCMNI] at hhi
  simp only [ipc_buildid, SEQ_MULTIPLIER]
  have hprod : int32 (32768 * ((s.ns p).seq.toNat : Int)) = 32768 * (s.ns p).seq.toNat := by
    apply int32_of_range <;> simp only [INT_MIN, INT_MAX] <;> omega
  rw [hprod]
  apply int32_of_range <;> simp only [INT_MIN, INT_MAX] <;> omega

theorem idx_wraps (seq : UInt16) : ipcid_to_idx (ipc_buildid IPCMNI seq) = 0 := by
  simp only [ipcid_to_idx, ipc_buildid, IPCMNI, SEQ_MULTIPLIER, int32, Int.bmod]
  omega

/-- One segment is made where there is none. -/
theorem Inv.made (h : Inv s) (hmade : Made s s' p IPC_PRIVATE) (hnone : ∀ a, ¬ Live s a) (hlo : 0 ≤ (s.ns p).next_ipc_id)
    (hhi : (s.ns p).next_ipc_id < IPCMNI) : Inv s' := by
  have hnew : ∀ a, Live s' a → a = s.allocated := by
    intro a ha
    by_contra hne
    exact hnone a ((hmade.live hne).mp ha)
  have hempty : ∀ q k a, (s.ns q).key_ht k ≠ some a := fun q k a hk => hnone a (h.entry q k a hk).1
  have hnext : int32 ((s.ns p).next_ipc_id + 1) = (s.ns p).next_ipc_id + 1 := by
    simp only [IPCMNI] at hhi
    apply int32_of_range <;> simp only [INT_MIN, INT_MAX] <;> omega
  refine ⟨hmade.attached.trans h.attached, fun a ha => ?_, fun a ha => ?_, fun a ha => ?_, fun q => ?_,
    fun q k a hk => ?_, fun a ha => ?_, fun a b ha hb => (hnew a ha).trans (hnew b hb).symm⟩
  · rw [hnew a ha]
    exact hmade.nattch
  · rw [hnew a ha]
    exact hmade.undest
  · rw [hnew a ha]
    exact hmade.file
  · rcases eq_or_ne q p with rfl | hq
    · rw [hmade.next_ipc_id, hnext]
      exact hhi
    · rw [hmade.others q hq]
      exact h.bound q
  · rcases eq_or_ne q p with rfl | hq
    · rw [hmade.key_ht] at hk
      rcases eq_or_ne k (s.ns q).next_ipc_id with rfl | hne
      · rw [update_self] at hk
        cases hk
        rw [hmade.next_ipc_id, hnext]
        exact ⟨hmade.live_new, hmade.creator, hlo, by omega, id_of_made hmade hlo hhi⟩
      · rw [update_of_ne hne] at hk
        exact absurd hk (hempty q k a)
    · rw [hmade.others q hq] at hk
      exact absurd hk (hempty q k a)
  · rw [hnew a ha, hmade.creator, hmade.key_ht]
    exact ⟨_, update_self ..⟩

/-- The only segment is removed. -/
theorem Inv.removed (h : Inv s) (hremoved : Removed s s' p a) (ha : Live s a) (hcreator : (s.shm a).shm_creator = p) :
    Inv s' := by
  have hnone : ∀ b, ¬ Live s' b := by
    intro b hb
    rcases eq_or_ne b a with rfl | hne
    · exact absurd (hb.2.symm.trans hremoved.deleted) Bool.false_ne_true
    · have hold : Live s b := ⟨hremoved.allocated ▸ hb.1, hremoved.old b hne ▸ hb.2⟩
      exact hne (h.one b a hold ha)
  have hgone : ∀ q k b, (s'.ns q).key_ht k ≠ some b := by
    intro q k b hk
    rcases eq_or_ne q p with rfl | hq
    · rw [hremoved.key_ht] at hk
      rcases eq_or_ne k (ipcid_to_idx (s.shm a).shm_perm.id) with rfl | hne
      · rw [update_self] at hk
        cases hk
      rw [update_of_ne hne] at hk
      obtain ⟨hlive, -, hlo, hhi, hid⟩ := h.entry q k b hk
      rw [h.one b a hlive ha] at hid
      exact hne (idx_of_id hlo (lt_of_lt_of_le hhi (h.bound q)) hid).1.symm
    · rw [hremoved.others q hq] at hk
      obtain ⟨hlive, hcreator', -⟩ := h.entry q k b hk
      rw [h.one b a hlive ha, hcreator] at hcreator'
      exact hq hcreator'.symm
  refine ⟨hremoved.attached.trans h.attached, fun b hb => absurd hb (hnone b), fun b hb => absurd hb (hnone b),
    fun b hb => absurd hb (hnone b), fun q => ?_, fun q k b hk => absurd hk (hgone q k b), fun b hb => absurd hb (hnone b),
    fun b _ hb => absurd hb (hnone b)⟩
  rcases eq_or_ne q p with rfl | hq
  · rw [hremoved.next_ipc_id]
    exact h.bound q
  · rw [hremoved.others q hq]
    exact h.bound q

/-! ## Steps -/

theorem of_ok {P : System → Prop} (hcall : s.apply e = .ok s') (h : P s') : Reports s e ∧ ∀ t, Step s e t → P t := by
  refine ⟨fun stop hstop => (nomatch hcall.symm.trans hstop), fun t ht => ?_⟩
  cases hcall.symm.trans ht
  exact h

theorem of_error {P : System → Prop} {stop : Stop} (hcall : s.apply e = .error stop) (h : ¬ stop.breaks) :
    Reports s e ∧ ∀ t, Step s e t → P t := by
  refine ⟨fun stop' hstop => ?_, fun t ht => (nomatch hcall.symm.trans ht)⟩
  cases hcall.symm.trans hstop
  exact h

/-- A step with the condition keeps the invariant, and stops in no lookup. -/
theorem Inv.step (h : Inv s) (hok : Ok s e) : Reports s e ∧ ∀ s', Step s e s' → Inv s' := by
  cases e with
  | sys_shmget p key size shmflg kzalloc assist_openat =>
    rcases sys_shmget_cases s p key size shmflg kzalloc assist_openat (fun hopens => (hok hopens).1) with
      ⟨⟨hopens, henters⟩, t, id, hcall, hmade⟩ | ⟨-, ⟨err, hcall⟩ | ⟨stop, hcall, hstop⟩⟩
    · obtain ⟨hnone, hlt⟩ := (hok hopens).2 henters
      rw [hopens.isPrivate] at hmade
      exact of_ok (congrArg (Except.map Prod.fst) hcall) (h.made hmade hnone henters.index hlt)
    · exact of_ok (congrArg (Except.map Prod.fst) hcall) h
    · exact of_error (congrArg (Except.map Prod.fst) hcall) hstop
  | sys_shmat p shmid shmaddr shmflg kzalloc mmap =>
    rcases em (∃ addr, Looks shmid shmaddr shmflg addr) with ⟨addr, hlooks⟩ | hunlooked
    · obtain ⟨hknown, hmaps⟩ := hok addr hlooks
      obtain ⟨a, hlookup⟩ := h.known_iff.mp hknown
      obtain ⟨stop, hcall, hstop⟩ := do_shmat_unmapped hlooks hlookup hmaps
      exact of_error (congrArg (Except.map Prod.fst) hcall) hstop
    · rcases do_shmat_unlooked (s := s) (p := p) (not_exists.mp hunlooked) with ⟨err, hcall⟩ | ⟨stop, hcall, hstop⟩
      · exact of_ok (congrArg (Except.map Prod.fst) hcall) h
      · exact of_error (congrArg (Except.map Prod.fst) hcall) hstop
  | sys_shmctl p shmid =>
    rcases lt_or_ge shmid 0 with hneg | hid
    · exact of_ok (if_pos hneg) h
    obtain ⟨a, hlive, hcreator, hid'⟩ := hok hid
    have hlookup := h.lookup.mpr ⟨hlive, hcreator, hid'⟩
    have hcall : s.sys_shmctl p shmid = .ok (s.do_shm_rmid p a) := by
      unfold System.sys_shmctl
      rw [if_neg hid.not_gt, hlookup]
      rfl
    exact of_ok hcall (h.removed (do_shm_rmid_removed (h.nattch a hlive)) hlive hcreator)

theorem Inv.deferred (h : Inv s) : Deferred s s' := by
  intro a _ hattached
  rw [System.attachments, h.attached] at hattached
  exact absurd rfl hattached

/-- A new segment beside a live one has the same file, and one with the first index too large is not found. -/
theorem Inv.ok_of_made (h : Inv s) (hmade : Made s s' p IPC_PRIVATE) (hlaw : Law s') :
    (∀ a, ¬ Live s a) ∧ (s.ns p).next_ipc_id < IPCMNI := by
  have hnone : ∀ a, ¬ Live s a := by
    intro a ha
    have hne : a ≠ s.allocated := ha.1.ne
    have hsame := hmade.file.symm.trans (hmade.root _ (h.file a ha))
    rw [← hmade.old a hne] at hsame
    exact hlaw.apart _ _ hmade.live_new ((hmade.live hne).mpr ha) hne.symm (Option.some.inj hsame)
  refine ⟨hnone, lt_of_le_of_ne (h.bound p) fun hfull => ?_⟩
  have hfound := ipc_lock_of_check (hlaw.found _ hmade.live_new)
  rw [hmade.creator, hmade.id, hfull] at hfound
  unfold System.ipc_lock at hfound
  rw [idx_wraps, hmade.key_ht, hfull, update_of_ne (by decide)] at hfound
  cases hold : (s.ns p).key_ht 0 with
  | none =>
    rw [hold] at hfound
    cases hfound
  | some b => exact hnone b (h.entry p 0 b hold).1

/-- The condition is had by every step that keeps the law. -/
theorem Inv.ok_of_keeps (h : Inv s) (hkeeps : Keeps s e) : Ok s e := by
  obtain ⟨hreports, hlaw⟩ := hkeeps
  cases e with
  | sys_shmget p key size shmflg kzalloc assist_openat =>
    intro hopens
    cases assist_openat with
    | false => exact absurd trivial (hreports .wild_fp (congrArg (Except.map Prod.fst) (sys_shmget_wild hopens)))
    | true =>
    refine ⟨rfl, fun henters => ?_⟩
    rcases sys_shmget_cases s p key size shmflg kzalloc true (fun _ => rfl) with ⟨-, t, id, hcall, hmade⟩ | ⟨hnot, -⟩
    · rw [hopens.isPrivate] at hmade
      exact h.ok_of_made hmade (hlaw t (congrArg (Except.map Prod.fst) hcall)).1
    · exact absurd ⟨hopens, henters⟩ hnot
  | sys_shmat p shmid shmaddr shmflg kzalloc mmap =>
    intro addr hlooks
    cases hlookup : s.ipc_lock_check p shmid with
    | error stop =>
      have hcall : s.do_shmat p shmid shmaddr shmflg kzalloc mmap = .error stop := do_shmat_unknown hlooks hlookup
      exact absurd (breaks_of_check hlookup) (hreports stop (congrArg (Except.map Prod.fst) hcall))
    | ok a =>
      refine ⟨h.known_iff.mpr ⟨a, hlookup⟩, fun hmaps => ?_⟩
      have hlive := (h.lookup.mp hlookup).1
      obtain ⟨s', hcall, hsame, hallocated, hcount⟩ := do_shmat_mapped hlooks hlookup hmaps (h.undest a hlive)
      have hnattch := (hlaw s' (congrArg (Except.map Prod.fst) hcall)).1.nattch a
        ⟨by rw [hallocated]; exact hlive.1, by rw [hsame]; exact hlive.2⟩
      rw [hsame, h.nattch a hlive, hcount] at hnattch
      cases hnattch
  | sys_shmctl p shmid =>
    intro hid
    cases hlookup : s.ipc_lock_check p shmid with
    | error stop =>
      refine absurd (breaks_of_check hlookup) (hreports stop ?_)
      show s.sys_shmctl p shmid = _
      unfold System.sys_shmctl
      rw [if_neg hid.not_gt, hlookup]
      rfl
    | ok a => exact h.known_iff.mpr ⟨a, hlookup⟩

variable {es : List Event}

/-- **Identity of segments.** The calls keep the law, stop in no lookup and remove nothing that is attached, as
long as a segment is made only with a file and a descriptor free, while none is live and with an index below `IPCMNI`, none is attached, and the
ids that are looked up are known; and in no other run. -/
theorem segments :
    (Run (Guarded Step Keeps) boot es s ↔ Run (Guarded Step Ok) boot es s) ∧
      (Run (Guarded Step Ok) boot es s → Law s) := by
  have hkeep : ∀ s e s', Inv s → Ok s e → Step s e s' → Inv s' := fun s e s' h hok hstep => (h.step hok).2 s' hstep
  refine ⟨Run.guarded_iff hkeep (fun s e s' h _ => ?_) inv_boot, fun hrun => ?_⟩
  · constructor
    · exact h.ok_of_keeps
    · intro hok
      have hnext := h.step hok
      exact ⟨hnext.1, fun t ht => ⟨(hnext.2 t ht).law, h.deferred⟩⟩
  · have hinv : Inv s := Run.invariant (fun s e s' h hstep => hkeep s e s' h hstep.1 hstep.2) hrun inv_boot
    exact hinv.law

theorem creates_boot (p : Nat) (hns : s.ns p = ⟨0, 0, 0, fun _ => none, 0⟩) : Opens s p 0 4096 0 true ∧ Enters s p := by
  have hzero : ¬ ((0 : UInt64) + numpages 4096 < 0 ∨ (0 : UInt64) + numpages 4096 > SHMALL) := by decide
  refine ⟨⟨rfl, by decide, by decide, ?_, rfl, by decide, by decide⟩, ?_, ?_, ?_⟩
  · rw [hns]
    exact hzero
  · rw [hns]
    exact Int.natCast_pos.mpr (by decide)
  · rw [hns]
  · rw [hns]

/-- Two processes make a private segment each, and have one file. -/
theorem shared_file : ¬ ∀ es s, Run Step boot es s → Law s := by
  intro hlaw
  rcases sys_shmget_cases boot 0 0 4096 0 true true (fun _ => rfl) with ⟨-, s, id, hcall, hmade⟩ | ⟨hnot, -⟩
  swap
  · exact hnot (creates_boot 0 rfl)
  rcases sys_shmget_cases s 1 0 4096 0 true true (fun _ => rfl) with ⟨-, s', id', hcall', hmade'⟩ | ⟨hnot, -⟩
  swap
  · exact hnot (creates_boot 1 (hmade.others 1 (by decide)))
  have hrun : Run Step boot [.sys_shmget 0 0 4096 0 true true, .sys_shmget 1 0 4096 0 true true] s' :=
    .cons (congrArg (Except.map Prod.fst) hcall) (.cons (congrArg (Except.map Prod.fst) hcall') (.nil s'))
  -- the first segment is still there
  have hne : boot.allocated ≠ s.allocated := by
    rw [hmade.allocated]
    exact (Nat.succ_ne_self _).symm
  have hsame := hmade'.file.symm.trans (hmade'.root _ hmade.file)
  rw [← hmade'.old _ hne] at hsame
  exact (hlaw _ s' hrun).apart _ _ hmade'.live_new ((hmade'.live hne).mpr hmade.live_new) hne.symm (Option.some.inj hsame)

end Invariant

end LostWakeup.Ipc.Shm
