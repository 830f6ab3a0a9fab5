/-
# LostWakeup.Fs.Vfs.Dirfd — `sysfile.c`: paths relative to a descriptor.

`find_inode` puts the descriptor's inode in the place of the process's working directory for the time of the walk.
`sys_mkdirat` does not hand its descriptor on.  `meant` is what a call resolves to by the rules; `dirfd_agree_iff` says
when all of the calls come to it and leave the process as it was.
-/
import LostWakeup.Fs.Vfs.Namex

namespace LostWakeup.Fs.Vfs.Dirfd

/-! ## The code -/

def NOFILE : Int := 400

def AT_FDCWD : Int := -100

def O_CREAT : BitVec 32 := 0o100

/-- A `struct file`, by what its union holds. -/
inductive file (ι : Type)
  | inode (f_inode : ι)
  /-- A pipe or a socket. -/
  | other

structure proc (ι : Type) where
  cwd : ι
  ofile : Nat → Option (file ι)

inductive Panic
  /-- Not a panic of the source: a pipe or a socket is used as an inode. -/
  | wild

section

variable {ι : Type}

/-- `find_inode`; `parent` says whether there is a buffer for the name. -/
def find_inode (t : Tree ι) (p : proc ι) (path : Name) (dirfd : Int) (parent : Bool) :
    Except Panic (proc ι × Option (ι × Name)) :=
  if path.head? = some slash ∨ dirfd = AT_FDCWD then
    match inode_namex t p.cwd path parent with
    | none => .ok (p, none)
    | some ip => .ok (p, some ip)
  else if dirfd < 0 ∨ NOFILE ≤ dirfd then .ok (p, none)
  else
    match p.ofile dirfd.toNat with
    | none => .ok (p, none)
    | some .other => .error .wild
    | some (.inode f_inode) =>
      let oldcwd := p.cwd
      let p := { p with cwd := f_inode }
      match inode_namex t p.cwd path parent with
      | none => .ok ({ p with cwd := oldcwd }, none)
      | some ip => .ok ({ p with cwd := oldcwd }, some ip)

/-- What a path was resolved to: a directory and a name in it, or an inode. -/
inductive Found (ι : Type)
  | parent (dp : ι) (name : Name)
  | inode (ip : ι)

/-- `assist_icreate`, up to the call of `icreate`. -/
def assist_icreate (t : Tree ι) (p : proc ι) (path : Name) (dirfd : Int) : Except Panic (proc ι × Option (Found ι)) :=
  match find_inode t p path dirfd true with
  | .error e => .error e
  | .ok (p, dp) => .ok (p, dp.map fun x => .parent x.1 x.2)

def sys_openat (t : Tree ι) (p : proc ι) (dirfd : Int) (path : Name) (flags : BitVec 32) :
    Except Panic (proc ι × Option (Found ι)) :=
  if flags &&& O_CREAT = O_CREAT then assist_icreate t p path dirfd
  else
    match find_inode t p path dirfd false with
    | .error e => .error e
    | .ok (p, ip) => .ok (p, ip.map fun x => .inode x.1)

def sys_mkdirat (t : Tree ι) (p : proc ι) (_dirfd : Int) (path : Name) : Except Panic (proc ι × Option (Found ι)) :=
  assist_icreate t p path AT_FDCWD

/-- `sys_unlinkat`, up to its look at the name. -/
def sys_unlinkat (t : Tree ι) (p : proc ι) (dirfd : Int) (path : Name) : Except Panic (proc ι × Option (Found ι)) :=
  if path = [slash] then .ok (p, none)
  else
    match find_inode t p path dirfd true with
    | .error e => .error e
    | .ok (p, dp) => .ok (p, dp.map fun x => .parent x.1 x.2)

/-! ## What is wanted, and when it holds -/

/-- The open file of a descriptor. -/
def slot (p : proc ι) (dirfd : Int) : Option (file ι) :=
  if 0 ≤ dirfd ∧ dirfd < NOFILE then p.ofile dirfd.toNat else none

/-- The directory that a descriptor is open on. -/
def directory (t : Tree ι) (p : proc ι) (dirfd : Int) : Option ι :=
  match slot p dirfd with
  | some (.inode ip) => if t.isDir ip then some ip else none
  | _ => none

/-- Where a path starts. -/
def base (t : Tree ι) (p : proc ι) (dirfd : Int) (path : Name) : Option ι :=
  if path.head? = some slash then some t.root
  else if dirfd = AT_FDCWD then some p.cwd
  else directory t p dirfd

/-- The inode of a path, by its parent directory and its last component, if it has one. -/
def target (t : Tree ι) (ip : ι) (path : Name) : Option ι :=
  if components path = [] then some (start t ip path)
  else (namei_parent t ip path).bind fun x => nextInode t x.1 x.2

inductive Call
  | openat (flags : BitVec 32)
  | mkdirat
  | unlinkat

def outcome (t : Tree ι) (p : proc ι) (dirfd : Int) (path : Name) : Call → Except Panic (proc ι × Option (Found ι))
  | .openat flags => sys_openat t p dirfd path flags
  | .mkdirat => sys_mkdirat t p dirfd path
  | .unlinkat => sys_unlinkat t p dirfd path

/-- What a call is to come to from a directory. -/
def walked (t : Tree ι) (ip : ι) (path : Name) : Call → Option (Found ι)
  | .openat flags =>
    if flags &&& O_CREAT = O_CREAT then (namei_parent t ip path).map fun x => .parent x.1 x.2
    else (target t ip path).map .inode
  | .mkdirat => (namei_parent t ip path).map fun x => .parent x.1 x.2
  | .unlinkat => (namei_parent t ip path).map fun x => .parent x.1 x.2

/-- What a call is to resolve the pair to. -/
def meant (t : Tree ι) (p : proc ι) (dirfd : Int) (path : Name) (call : Call) : Option (Found ι) :=
  (base t p dirfd path).bind fun ip => walked t ip path call

/-- Every call comes to it, and the process is as it was. -/
def Agree (t : Tree ι) (p : proc ι) (dirfd : Int) (path : Name) : Prop :=
  ∀ call, outcome t p dirfd path call = .ok (p, meant t p dirfd path call)

/-- The path leads where it leads from the descriptor's directory, if that is one, and else nowhere, and the
descriptor is not a pipe's or a socket's, nor that of a file that the path leads out of. -/
def SamePlace (t : Tree ι) (p : proc ι) (dirfd : Int) (path : Name) : Prop :=
  match slot p dirfd with
  | none => namei_parent t p.cwd path = none
  | some .other => False
  | some (.inode ip) =>
    if t.isDir ip = true then namei_parent t p.cwd path = namei_parent t ip path
    else path ≠ [] ∧ namei_parent t ip path = none ∧ namei_parent t p.cwd path = none

/-! ## The walk -/

theorem inode_namex_slash (t : Tree ι) (cwd cwd' : ι) {path : Name} (h : path.head? = some slash) (parent : Bool) :
    inode_namex t cwd path parent = inode_namex t cwd' path parent := by
  rw [inode_namex, inode_namex, if_pos h, if_pos h]

/-- An inode is found in the directory of the last component. -/
theorem namei_eq_target (t : Tree ι) (cwd : ι) {path : Name} (hlen : path.length < MAXPATH) :
    namei t cwd path = target t cwd path := by
  unfold target
  rcases List.eq_nil_or_concat' (components path) with hnil | ⟨cs, last, hcs⟩
  · rw [if_pos hnil, namei_eq t cwd hlen, hnil]
    show some (loopStart t cwd path) = some (start t cwd path)
    rw [loopStart_eq]
    -- a path that starts with dots has a component
    by_contra hdots
    rw [Bool.not_eq_false] at hdots
    rw [components_eq_nil_iff (head_of_dots hdots)] at hnil
    rw [hnil] at hdots
    exact absurd hdots (by decide)
  · rw [if_neg (by rw [hcs]; simp), namei_eq t cwd hlen, namei_parent_eq t cwd hlen, hcs, List.foldlM_append]
    simp only [List.getLast?_append, List.getLast?_singleton, List.dropLast_concat, Option.some_or]
    rcases cs.foldlM (turn t) (loopStart t cwd path) with _ | dp
    · rfl
    show turn t dp last >>= pure = _
    rw [bind_pure, turn]
    rcases hd : t.isDir dp with _ | _
    · simp [hd]
    · simp [hd]

/-! ## The calls -/

variable {t : Tree ι} {p : proc ι} {dirfd : Int} {path : Name} {ip : ι}

theorem find_inode_cwd (h : path.head? = some slash ∨ dirfd = AT_FDCWD) (parent : Bool) :
    find_inode t p path dirfd parent = .ok (p, inode_namex t p.cwd path parent) := by
  rw [find_inode, if_pos h]
  rcases inode_namex t p.cwd path parent with _ | ip
  · rfl
  · rfl

theorem find_inode_none (h : ¬(path.head? = some slash ∨ dirfd = AT_FDCWD)) (hslot : slot p dirfd = none) (parent : Bool) :
    find_inode t p path dirfd parent = .ok (p, none) := by
  rw [find_inode, if_neg h]
  rcases em (dirfd < 0 ∨ NOFILE ≤ dirfd) with hout | hin
  · rw [if_pos hout]
  · rw [slot, if_pos (by omega)] at hslot
    rw [if_neg hin, hslot]

theorem slot_some {f : file ι} (hslot : slot p dirfd = some f) : ¬(dirfd < 0 ∨ NOFILE ≤ dirfd) ∧ p.ofile dirfd.toNat = some f := by
  unfold slot at hslot
  split at hslot
  · next hin => exact ⟨by omega, hslot⟩
  · cases hslot

theorem find_inode_other (h : ¬(path.head? = some slash ∨ dirfd = AT_FDCWD)) (hslot : slot p dirfd = some .other) (parent : Bool) :
    find_inode t p path dirfd parent = .error .wild := by
  obtain ⟨hin, hfile⟩ := slot_some hslot
  rw [find_inode, if_neg h, if_neg hin, hfile]

theorem find_inode_slot (h : ¬(path.head? = some slash ∨ dirfd = AT_FDCWD)) (hslot : slot p dirfd = some (.inode ip)) (parent : Bool) :
    find_inode t p path dirfd parent = .ok (p, inode_namex t ip path parent) := by
  obtain ⟨hin, hfile⟩ := slot_some hslot
  rw [find_inode, if_neg h, if_neg hin, hfile]
  dsimp only
  rcases inode_namex t ip path parent with _ | x
  · rfl
  · rfl

theorem namei_parent_slash (t : Tree ι) (ip : ι) : namei_parent t ip [slash] = none := rfl

/-- A call that hands its descriptor on comes to what is found from an inode, if its walks start there. -/
theorem outcome_walked (hlen : path.length < MAXPATH)
    (hfind : ∀ parent, find_inode t p path dirfd parent = .ok (p, inode_namex t ip path parent)) {call : Call} (hcall : call ≠ .mkdirat) :
    outcome t p dirfd path call = .ok (p, walked t ip path call) := by
  rcases call with flags | _ | _
  · show sys_openat t p dirfd path flags = _
    unfold sys_openat assist_icreate
    rw [hfind, hfind, walked]
    rcases em (flags &&& O_CREAT = O_CREAT) with hcreat | hplain
    · rw [if_pos hcreat, if_pos hcreat]
      rfl
    · rw [if_neg hplain, if_neg hplain, ← namei_eq_target t ip hlen, namei, Option.map_map]
      rfl
  · exact absurd rfl hcall
  · show sys_unlinkat t p dirfd path = _
    unfold sys_unlinkat
    rw [hfind, walked]
    rcases eq_or_ne path [slash] with hslash | hne
    · rw [if_pos hslash, hslash, namei_parent_slash, Option.map_none]
    · rw [if_neg hne]
      rfl

theorem outcome_none (hfind : ∀ parent, find_inode t p path dirfd parent = .ok (p, none)) {call : Call} (hcall : call ≠ .mkdirat) :
    outcome t p dirfd path call = .ok (p, none) := by
  rcases call with flags | _ | _
  · show sys_openat t p dirfd path flags = _
    unfold sys_openat assist_icreate
    rw [hfind, hfind]
    exact ite_self _
  · exact absurd rfl hcall
  · show sys_unlinkat t p dirfd path = _
    unfold sys_unlinkat
    rw [hfind]
    exact ite_self _

theorem outcome_mkdirat (t : Tree ι) (p : proc ι) (dirfd : Int) (path : Name) :
    outcome t p dirfd path .mkdirat = .ok (p, walked t p.cwd path .mkdirat) := by
  show sys_mkdirat t p dirfd path = _
  unfold sys_mkdirat assist_icreate
  rw [find_inode_cwd (.inr rfl)]
  rfl

theorem walked_parent_inj {ip' : ι} : walked t ip path .mkdirat = walked t ip' path .mkdirat ↔
    namei_parent t ip path = namei_parent t ip' path := by
  constructor
  · intro h
    refine Option.map_injective (fun x y hxy => ?_) h
    obtain ⟨hdp, hname⟩ := Found.parent.inj hxy
    exact Prod.ext hdp hname
  · intro h
    rw [walked, walked, h]

theorem walked_parent_none : walked t ip path .mkdirat = none ↔ namei_parent t ip path = none := Option.map_eq_none_iff

theorem walked_none_iff (hhead : path.head? ≠ some slash) :
    (∀ call, call ≠ .mkdirat → walked t ip path call = none) ↔ path ≠ [] ∧ namei_parent t ip path = none := by
  constructor
  · intro h
    refine ⟨?_, ?_⟩
    · rintro rfl
      exact absurd (h (.openat 0) (by simp)) (by simp [walked, target, components, O_CREAT])
    · exact walked_parent_none.mp (h .unlinkat (by simp))
  · rintro ⟨hne, hnone⟩ call -
    have htarget : target t ip path = none := by
      rw [target, if_neg fun hnil => hne ((components_eq_nil_iff hhead).mp hnil), hnone]
      rfl
    rcases call with flags | _ | _
    · rw [walked, hnone, htarget, Option.map_none, Option.map_none, ite_self]
    · rw [walked, hnone, Option.map_none]
    · rw [walked, hnone, Option.map_none]

theorem agree_iff : Agree t p dirfd path ↔
    (∀ call, call ≠ .mkdirat → outcome t p dirfd path call = .ok (p, meant t p dirfd path call)) ∧
      walked t p.cwd path .mkdirat = meant t p dirfd path .mkdirat := by
  constructor
  · intro h
    refine ⟨fun call _ => h call, ?_⟩
    have hmkdir := h .mkdirat
    rw [outcome_mkdirat] at hmkdir
    exact (Prod.mk.inj (Except.ok.inj hmkdir)).2
  · rintro ⟨hothers, hmkdir⟩ call
    rcases eq_or_ne call .mkdirat with rfl | hcall
    · rw [outcome_mkdirat, hmkdir]
    · exact hothers call hcall

theorem ok_inj {r r' : Option (Found ι)} : (Except.ok (p, r) : Except Panic (proc ι × Option (Found ι))) = .ok (p, r') ↔ r = r' :=
  ⟨fun h => (Prod.mk.inj (Except.ok.inj h)).2, fun h => by rw [h]⟩

/-- **Descriptors.** The calls resolve a descriptor and a path to one directory and name, and leave the process as it was,
if and only if the path is absolute, the descriptor is `AT_FDCWD`, or it makes no difference for the path. -/
theorem dirfd_agree_iff (t : Tree ι) (p : proc ι) (dirfd : Int) (hlen : path.length < MAXPATH) :
    Agree t p dirfd path ↔ path.head? = some slash ∨ dirfd = AT_FDCWD ∨ SamePlace t p dirfd path := by
  rcases em (path.head? = some slash ∨ dirfd = AT_FDCWD) with hcwd | hrel
  · rw [← or_assoc]
    refine iff_of_true (fun call => ?_) (.inl hcwd)
    have hfind := fun parent => @find_inode_cwd ι t p dirfd path hcwd parent
    have hout : outcome t p dirfd path call = .ok (p, walked t p.cwd path call) := by
      rcases eq_or_ne call .mkdirat with rfl | hcall
      · exact outcome_mkdirat t p dirfd path
      · exact outcome_walked hlen hfind hcall
    rw [hout, meant, base]
    rcases em (path.head? = some slash) with habs | hrel
    · rw [if_pos habs]
      have hwalk : walked t p.cwd path call = walked t t.root path call := by
        have hparent : namei_parent t p.cwd path = namei_parent t t.root path := inode_namex_slash t _ _ habs true
        have htarget : target t p.cwd path = target t t.root path := by
          rw [← namei_eq_target t _ hlen, ← namei_eq_target t _ hlen, namei, namei, inode_namex_slash t _ _ habs false]
        unfold walked
        rw [hparent, htarget]
      rw [hwalk]
      rfl
    · rw [if_neg hrel, if_pos (hcwd.resolve_left hrel)]
      rfl
  · rw [or_iff_right (fun h => hrel (.inl h)), or_iff_right (fun h => hrel (.inr h))]
    have hbase : base t p dirfd path = directory t p dirfd := by
      rw [base, if_neg (fun h => hrel (.inl h)), if_neg (fun h => hrel (.inr h))]
    have hhead : path.head? ≠ some slash := fun h => hrel (.inl h)
    have hmeant : ∀ call, meant t p dirfd path call = (directory t p dirfd).bind fun ip => walked t ip path call := by
      intro call
      rw [meant, hbase]
    rw [agree_iff]
    unfold SamePlace
    rcases hslot : slot p dirfd with _ | ip | _
    · have hnone : ∀ call, meant t p dirfd path call = none := by
        intro call
        rw [hmeant, directory, hslot]
        rfl
      rw [hnone, walked_parent_none]
      refine and_iff_right fun call hcall => ?_
      rw [hnone]
      exact outcome_none (find_inode_none hrel hslot) hcall
    · have hfind := fun parent => @find_inode_slot ι t p dirfd path ip hrel hslot parent
      rcases hd : t.isDir ip with _ | _
      · -- not a directory
        have hnone : ∀ call, meant t p dirfd path call = none := by
          intro call
          rw [hmeant, directory, hslot]
          simp [hd]
        dsimp only
        rw [if_neg (by rw [hd]; decide), hnone, walked_parent_none, ← and_assoc, ← walked_none_iff hhead]
        refine and_congr_left' (forall_congr' fun call => imp_congr_right fun hcall => ?_)
        rw [hnone, outcome_walked hlen hfind hcall, ok_inj]
      · have hdir : ∀ call, meant t p dirfd path call = walked t ip path call := by
          intro call
          rw [hmeant, directory, hslot]
          simp [hd]
        dsimp only
        rw [if_pos hd, hdir, walked_parent_inj]
        refine and_iff_right fun call hcall => ?_
        rw [hdir]
        exact outcome_walked hlen hfind hcall
    · refine iff_of_false (fun h => ?_) id
      have hwild : outcome t p dirfd path .unlinkat = .error .wild := by
        show sys_unlinkat t p dirfd path = _
        rw [sys_unlinkat, if_neg fun hslash => hhead (by rw [hslash]; rfl), find_inode_other hrel hslot]
      have hcall := h.1 .unlinkat (by simp)
      rw [hwild] at hcall
      cases hcall

end

/-! ## Two directories -/

/-- A process in `/a`, with descriptor 3 on `/b`. -/
def inA : proc (List Name) := ⟨[[0x61]], fun fd => if fd = 3 then some (.inode [[0x62]]) else none⟩

theorem dirfd_agree_absolute : Agree fullTree inA 3 [slash, 0x63] :=
  (dirfd_agree_iff fullTree inA 3 (by decide)).mpr (.inl rfl)

/-- **`c` below `/b`** is made below `/a`, where `sys_openat` makes it below `/b`. -/
theorem mkdirat_in_cwd :
    sys_mkdirat fullTree inA 3 [0x63] = .ok (inA, some (.parent [[0x61]] [0x63])) ∧
      sys_openat fullTree inA 3 [0x63] O_CREAT = .ok (inA, some (.parent [[0x62]] [0x63])) ∧
      ¬Agree fullTree inA 3 [0x63] := by
  have hmkdir : sys_mkdirat fullTree inA 3 [0x63] = .ok (inA, some (.parent [[0x61]] [0x63])) := rfl
  refine ⟨hmkdir, rfl, fun h => ?_⟩
  have hcall := (h .mkdirat).symm.trans hmkdir
  have hmeant : meant fullTree inA 3 [0x63] .mkdirat = some (.parent [[0x62]] [0x63]) := rfl
  rw [hmeant, ok_inj] at hcall
  exact absurd (Found.parent.inj (Option.some_inj.mp hcall)).1 (by decide)

end LostWakeup.Fs.Vfs.Dirfd
