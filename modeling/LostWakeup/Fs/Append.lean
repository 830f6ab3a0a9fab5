/-
# LostWakeup.Fs.Append — `sysfile.c`, `fat32_file.c`: where a descriptor with `O_APPEND` writes.

`assist_openat` and `assist_setflag` put the position of an append descriptor one past the size, once; from then on it
moves as every position does.  `append_runs_iff` says of every history when its appends are appends.

One file and its `struct file`s; duplicated descriptors share one.  Whatever else is done to the file is a step that
leaves any inode and any positions.
-/
import LostWakeup.Fs.FileOffsets

namespace LostWakeup.Fs.Append

open Library
open Function (update)
open Fs.PageCache (inode opened PGSIZE mappingOf)
open Fs.FailedWrites (pagetable byteAt readable readable_good Good Harmless after after_harmless file fat32_inode_write
  fat32_inode_write_fails fat32_filewrite_of one_page)
open Fs.FileOffsets (uint uint_lt Written WritesAt Spares Same File sys_read sys_write contentAt inode_write_all
  inode_write_result written_iff writesAt_same filewrite_none)

/-! ## The code -/

def O_WRONLY : BitVec 32 := 0o1

def O_TRUNC : BitVec 32 := 0o1000

def O_APPEND : BitVec 32 := 0o2000

def O_NONBLOCK : BitVec 32 := 0o4000

def has (flags flag : BitVec 32) : Bool := flags &&& flag == flag

def FCNTLABLE (value : BitVec 32) : Bool := has value O_NONBLOCK || has value O_APPEND

/-- A `struct file` of type `FD_INODE`, without the pointer to its inode. -/
structure OpenFile where
  f_flags : BitVec 16
  f_pos : Int

namespace OpenFile

def F_WRITEABLE (f : OpenFile) : Bool := f.f_flags.toNat > 0

def F_READABLE (f : OpenFile) : Bool := !has (f.f_flags.setWidth 32) O_WRONLY

/-- The descriptor appends. -/
def appends (f : OpenFile) : Bool := has (f.f_flags.setWidth 32) O_APPEND

def on (f : OpenFile) (ip : inode) : file := ⟨f.F_WRITEABLE, f.f_pos, ip⟩

end OpenFile

/-- `assist_openat` on a regular file. -/
def assist_openat (ip : inode) (flags : BitVec 32) : inode × OpenFile :=
  if has flags O_TRUNC then ({ ip with i_size := 0 }, ⟨flags.setWidth 16, 0⟩)
  else if has flags O_APPEND then (ip, ⟨flags.setWidth 16, ((ip.i_size + 1) % 2 ^ 32 : Nat)⟩)
  else (ip, ⟨flags.setWidth 16, 0⟩)

def assist_setflag (f : OpenFile) (ip : inode) (flag : BitVec 32) : OpenFile × Int :=
  if FCNTLABLE flag then (⟨f.f_flags ||| flag.setWidth 16, ((ip.i_size + 1) % 2 ^ 32 : Nat)⟩, 0)
  else (f, -1)

inductive Whence
  | SEEK_SET
  | SEEK_CUR
  | SEEK_END

def do_lseek (f : OpenFile) (ip : inode) (offset : Int) : Whence → OpenFile
  | .SEEK_SET => { f with f_pos := offset }
  | .SEEK_CUR => { f with f_pos := f.f_pos + offset }
  | .SEEK_END => { f with f_pos := ip.i_size + offset }

/-! ## Histories of a file -/

structure State (D : Type) where
  ip : inode
  files : D → Option OpenFile

inductive Event (D : Type)
  | sys_openat (d : D) (flags : BitVec 32)
  | fcntl_setfl (d : D) (flag : BitVec 32)
  | sys_write (d : D) (beyond : Nat → UInt8) (user : pagetable) (p count : Nat)
  | sys_read (d : D) (budget : Nat → Nat) (beyond : Nat → UInt8) (count : Nat)
  | sys_lseek (d : D) (offset : Int) (whence : Whence)
  | fileclose (d : D)
  /-- Another call, on the inode. -/
  | elsewhere (ip : inode) (f_pos : D → Int)

section

variable {D : Type} [DecidableEq D]

def Step (s : State D) (e : Event D) (s' : State D) : Prop :=
  match e with
  | .sys_openat d flags =>
    s.files d = none ∧ s' = ⟨(assist_openat s.ip flags).1, update s.files d (some (assist_openat s.ip flags).2)⟩
  | .fcntl_setfl d flag =>
    ∃ f, s.files d = some f ∧ s' = ⟨s.ip, update s.files d (some (assist_setflag f s.ip flag).1)⟩
  | .sys_write d beyond user p count =>
    ∃ f f' r, s.files d = some f ∧ sys_write (f.on s.ip) beyond user p count = .ok (f', r) ∧
      s' = ⟨f'.f_inode, update s.files d (some { f with f_pos := f'.f_pos })⟩
  | .sys_read d budget beyond count =>
    ∃ f f' out r, s.files d = some f ∧ sys_read ⟨f.on s.ip, f.F_READABLE⟩ budget beyond count = .ok (f', out, r) ∧
      s' = ⟨f'.f_inode, update s.files d (some { f with f_pos := f'.f_pos })⟩
  | .sys_lseek d offset whence =>
    ∃ f, s.files d = some f ∧ s' = ⟨s.ip, update s.files d (some (do_lseek f s.ip offset whence))⟩
  | .fileclose d => s' = ⟨s.ip, update s.files d none⟩
  | .elsewhere ip f_pos =>
    ip.i_size < 2 ^ 32 ∧ s' = ⟨ip, fun d => (s.files d).map fun f => { f with f_pos := f_pos d }⟩

end

/-- A file that nobody has open. -/
def start (D : Type) (disk : Nat → UInt8) (size : Nat) : State D := ⟨opened disk size, fun _ => none⟩

/-! ## What is wanted, and when it holds -/

/-- A write through a descriptor puts its bytes at the end of the file and nothing else, or fails without effect. -/
def AppendLaw (f : OpenFile) (ip : inode) (beyond : Nat → UInt8) (user : pagetable) (p count : Nat) : Prop :=
  ∃ f' r, sys_write (f.on ip) beyond user p count = .ok (f', r) ∧
    WritesAt f.F_WRITEABLE ip ip.i_size count (fun k => byteAt user (p + k)) f'.f_inode r

/-- The write is refused; or the position is the end of the file, and no byte before it is lost; or the copy fails,
and nothing of it shows. -/
def AtEnd (ip : inode) (user : pagetable) (addr : Nat) (pos : Int) (n : Nat) : Prop :=
  2 ^ 32 ≤ uint pos + n ∨
    if readable user addr n = n then uint pos = ip.i_size ∧ Spares ip (uint pos) n else Harmless ip user addr (uint pos) n

section

variable {D : Type}

/-- Every write through an append descriptor appends. -/
def Appends (s : State D) : Event D → Prop
  | .sys_write d beyond user p count =>
    ∀ f, s.files d = some f → f.appends = true → AppendLaw f s.ip beyond user p count
  | _ => True

def AppendOk (s : State D) : Event D → Prop
  | .sys_write d _ user p count =>
    ∀ f, s.files d = some f → f.appends = true → 0 < int32 count → AtEnd s.ip user p f.f_pos (count % 2 ^ 32)
  | _ => True

end

/-! ## One write -/

section

variable {ip : inode} {user : pagetable} {addr n : Nat}

/-- A write that comes back with its count has appended if and only if it was at the end. -/
theorem appended_iff {ip' : inode} {pos : Int} (hsize : ip.i_size < 2 ^ 32) (hpos : 0 < n) (hfits : uint pos + n < 2 ^ 32)
    (hsize' : ip'.i_size = max ip.i_size (uint pos + n))
    (hview : ∀ p, p < ip.i_size → contentAt ip' p = after ip user addr (uint pos) n n (mappingOf ip) (uint pos) p)
    (hnew : ∀ p, uint pos ≤ p → p < uint pos + n → contentAt ip' p = byteAt user (addr + (p - uint pos))) :
    Written ip ip.i_size n (fun k => byteAt user (addr + k)) ip' ↔ uint pos = ip.i_size ∧ Spares ip (uint pos) n := by
  have hend : uint (ip.i_size : Int) = ip.i_size := by
    rw [uint]
    omega
  rcases eq_or_ne (uint pos) ip.i_size with hat | hat
  · rw [hat] at hfits hsize' hview hnew ⊢
    have hkept := @written_iff ip user addr n ip' ip.i_size hsize hpos (by rw [hend]; exact hfits) (by rw [hend]; exact hsize')
      (by rw [hend]; exact hview) (by rw [hend]; exact hnew)
    rw [hend] at hkept
    exact hkept.trans (and_congr_left' Int.natCast_inj)
  · refine iff_of_false (fun h => ?_) fun h => hat h.1
    have hgrown := h.size
    rw [if_pos (by omega)] at hgrown
    omega

theorem failed_iff {ip' : inode} {pos : Int} {allowed : Bool} {count : Nat} {src : Nat → UInt8} (hcount : count ≠ 0) :
    WritesAt allowed ip pos count src ip' (-1) ↔ Same ip ip' :=
  ⟨fun h => h.fails (by decide), fun h => ⟨fun _ hc => absurd hc hcount, by omega, fun hr => by omega, fun _ => h⟩⟩

theorem inode_append_iff (beyond : Nat → UInt8) {pos : Int} {allowed : Bool} {count : Nat} (hsize : ip.i_size < 2 ^ 32) (hpos : 0 < n)
    (hint : n < 2 ^ 31) (hle : n ≤ count) :
    (∃ ip' r, fat32_inode_write ip beyond user addr (uint pos) n = .ok (ip', r) ∧
      WritesAt allowed ip ip.i_size count (fun k => byteAt user (addr + k)) ip' r) ↔ AtEnd ip user addr pos n := by
  have hlt := uint_lt pos
  have hcount : count ≠ 0 := by omega
  have hlaw : ∀ ip' : inode, ∀ r : Int, (∃ ip₁ r₁, (Except.ok (ip', r) : Except PageCache.Panic (inode × Int)) = .ok (ip₁, r₁) ∧
      WritesAt allowed ip ip.i_size count (fun k => byteAt user (addr + k)) ip₁ r₁) ↔
        WritesAt allowed ip ip.i_size count (fun k => byteAt user (addr + k)) ip' r := by
    intro ip' r
    constructor
    · rintro ⟨ip₁, r₁, heq, h⟩
      cases heq
      exact h
    · exact fun h => ⟨ip', r, rfl, h⟩
  unfold AtEnd
  rcases lt_or_ge (uint pos + n) (2 ^ 32) with hfits | hwrap
  swap
  · -- the write is refused
    rw [fat32_inode_write, if_pos (by omega), hlaw, failed_iff hcount]
    exact iff_of_true (Same.refl ip) (.inl hwrap)
  rw [or_iff_right (by omega)]
  have hgood := readable_good user addr n
  rcases Nat.lt_or_eq_of_le hgood.le with hfail | hall
  · -- the copy fails
    obtain ⟨ip', hrun, hsize', hview⟩ := fat32_inode_write_fails ip beyond hgood hfail hfits
    rw [if_neg (by omega), hrun, hlaw, failed_iff hcount, ← after_harmless]
    constructor
    · intro h p hp
      rw [← hview p hp]
      exact h.bytes p hp
    · exact fun h => ⟨hsize', fun p hp => (hview p hp).trans (h p hp)⟩
  · rw [hall] at hgood
    obtain ⟨ip', hrun, hsize', hview, hnew⟩ := inode_write_all ip beyond hgood hpos hfits
    have hr : int32 n = n := int32_of_range (by simp only [INT_MIN]; omega) (by simp only [INT_MAX]; omega)
    rw [hr, if_neg (by omega)] at hsize'
    rw [if_pos hall, hrun, hr, hlaw, ← appended_iff hsize hpos hfits hsize' hview hnew]
    exact ⟨fun h => h.acts (by omega), fun h => ⟨fun _ hc => absurd hc hcount, by omega, fun _ => h, fun hr => by omega⟩⟩

end

/-! ## The system call -/

section

variable {ip : inode} {f : OpenFile}

theorem append_iff (beyond : Nat → UInt8) (user : pagetable) (p count : Nat) (hsize : ip.i_size < 2 ^ 32) :
    AppendLaw f ip beyond user p count ↔
      f.F_WRITEABLE = false ∨ int32 count ≤ 0 ∨ AtEnd ip user p f.f_pos (count % 2 ^ 32) := by
  rw [AppendLaw, sys_write]
  rcases hmode : f.F_WRITEABLE with _ | _
  · refine iff_of_true ⟨f.on ip, -1, ?_, writesAt_same (by decide) fun h => Bool.noConfusion h⟩ (.inl rfl)
    exact if_pos hmode
  rw [or_iff_right (by decide)]
  rcases lt_or_ge 0 (int32 count) with hpos | hnone
  swap
  · refine iff_of_true ⟨f.on ip, if 0 = int32 count then int32 count else -1, ?_, writesAt_same ?_ fun _ hc => ?_⟩ (.inl hnone)
    · exact filewrite_none beyond user p hmode hnone
    · split
      · omega
      · decide
    · rw [hc]
      rfl
  rw [or_iff_right (by omega)]
  have hcount : (int32 count).toNat = count % 2 ^ 32 ∧ int32 count = ((count % 2 ^ 32 : Nat) : Int) ∧ count % 2 ^ 32 < 2 ^ 31 := by
    rw [int32, Int.bmod] at *
    omega
  obtain ⟨hnat, hint, hsmall⟩ := hcount
  have hsome : 0 < count % 2 ^ 32 := by omega
  rw [← @inode_append_iff ip user p (count % 2 ^ 32) beyond f.f_pos true count hsize hsome hsmall (Nat.mod_le _ _)]
  obtain ⟨ip', r, hrun, hr⟩ := inode_write_result ip beyond user p f.f_pos hsome hsmall
  have hcall := @fat32_filewrite_of user p (f.on ip) beyond (int32 count) r ip' hmode hpos (by rw [hint]; exact hr)
    (by rw [hnat]; exact hrun)
  rw [hcall, hrun]
  constructor
  · rintro ⟨f₁, r₁, heq, h⟩
    cases heq
    exact ⟨_, _, rfl, h⟩
  · rintro ⟨ip₁, r₁, heq, h⟩
    cases heq
    exact ⟨_, _, rfl, h⟩

theorem writeable_of_appends (h : f.appends = true) : f.F_WRITEABLE = true := by
  unfold OpenFile.F_WRITEABLE
  rw [decide_eq_true_eq]
  apply Nat.pos_of_ne_zero
  intro hzero
  have hflags : f.f_flags = 0 := BitVec.eq_of_toNat_eq hzero
  rw [OpenFile.appends, hflags] at h
  exact absurd h (by decide)

theorem past_end_iff {beyond : Nat → UInt8} {user : pagetable} {p count : Nat} (hsize : ip.i_size < 2 ^ 32) (happ : f.appends = true)
    (hpast : f.f_pos = ((ip.i_size + 1) % 2 ^ 32 : Nat)) (hpos : 0 < int32 count)
    (hread : readable user p (count % 2 ^ 32) = count % 2 ^ 32) :
    AppendLaw f ip beyond user p count ↔ 2 ^ 32 ≤ (ip.i_size + 1) % 2 ^ 32 + count % 2 ^ 32 := by
  have huint : uint f.f_pos = (ip.i_size + 1) % 2 ^ 32 := by
    rw [hpast, uint]
    omega
  rw [append_iff beyond user p count hsize, or_iff_right (by rw [writeable_of_appends happ]; decide), or_iff_right (by omega), AtEnd,
    if_pos hread, huint]
  refine or_iff_left fun h => ?_
  omega

end

/-! ## Runs -/

theorem inode_write_size {ip ip' : inode} {beyond : Nat → UInt8} {user : pagetable} {src off n : Nat} {r : Int}
    (hsize : ip.i_size < 2 ^ 32) (h : fat32_inode_write ip beyond user src off n = .ok (ip', r)) : ip'.i_size < 2 ^ 32 := by
  unfold fat32_inode_write at h
  split at h
  · cases h
    exact hsize
  split at h
  · cases h
  dsimp only at h
  split at h
  · cases h
    exact hsize
  cases h
  dsimp only
  split
  · omega
  · exact hsize

theorem sys_write_size {ip : inode} {f : OpenFile} {f' : file} {beyond : Nat → UInt8} {user : pagetable} {p count : Nat} {r : Int}
    (hsize : ip.i_size < 2 ^ 32) (h : sys_write (f.on ip) beyond user p count = .ok (f', r)) : f'.f_inode.i_size < 2 ^ 32 := by
  rw [sys_write] at h
  rcases hmode : f.F_WRITEABLE with _ | _
  · have hrun : FailedWrites.fat32_filewrite (f.on ip) beyond user p (int32 count) = .ok (f.on ip, -1) := if_pos hmode
    rw [hrun] at h
    cases h
    exact hsize
  rcases lt_or_ge 0 (int32 count) with hpos | hnone
  · have hsmall : 0 < (int32 count).toNat ∧ (int32 count).toNat < 2 ^ 31 ∧ (((int32 count).toNat : Nat) : Int) = int32 count := by
      rw [int32, Int.bmod] at *
      omega
    obtain ⟨ip', r', hrun, hr⟩ := inode_write_result ip beyond user p f.f_pos hsmall.1 hsmall.2.1
    rw [@fat32_filewrite_of user p (f.on ip) beyond (int32 count) r' ip' hmode hpos (by rw [← hsmall.2.2]; exact hr) hrun] at h
    cases h
    exact inode_write_size hsize hrun
  · rw [@filewrite_none (f.on ip) beyond user p (int32 count) hmode hnone] at h
    cases h
    exact hsize

theorem sys_read_size {f f' : File} {budget : Nat → Nat} {beyond : Nat → UInt8} {count : Nat} {out : List UInt8} {r : Int}
    (hsize : f.f_inode.i_size < 2 ^ 32) (h : sys_read f budget beyond count = .ok (f', out, r)) : f'.f_inode.i_size < 2 ^ 32 := by
  rw [sys_read, FileOffsets.fat32_fileread] at h
  rcases hmode : f.f_readable with _ | _
  · rw [if_pos hmode] at h
    cases h
    exact hsize
  rw [if_neg (by rw [hmode]; decide)] at h
  rcases PageCache.fat32_inode_read_spec hsize budget beyond f.off
    (Nat.lt_of_le_of_lt (Nat.min_le_left (uint (int32 count)) f.f_inode.i_size) (uint_lt _)) with hpanic | ⟨ip', out', hrun, hres⟩
  · rw [hpanic] at h
    cases h
  rw [hrun] at h
  cases h
  show ip'.i_size < 2 ^ 32
  rw [hres.i_size]
  exact hsize

section

variable {D : Type} {s s' : State D}

theorem appends_iff (hsize : s.ip.i_size < 2 ^ 32) (e : Event D) : Appends s e ↔ AppendOk s e := by
  rcases e with ⟨d, flags⟩ | ⟨d, flag⟩ | ⟨d, beyond, user, p, count⟩ | ⟨d, budget, beyond, count⟩ | ⟨d, offset, whence⟩ | d | ⟨ip, f_pos⟩
  case sys_write =>
    refine forall_congr' fun f => imp_congr_right fun _ => imp_congr_right fun happ => ?_
    rw [append_iff beyond user p count hsize, or_iff_right (by rw [writeable_of_appends happ]; decide)]
    constructor
    · intro h hpos
      exact h.resolve_left hpos.not_ge
    intro h
    rcases lt_or_ge 0 (int32 count) with hpos | hnone
    · exact .inr (h hpos)
    · exact .inl hnone
  all_goals exact Iff.rfl

variable [DecidableEq D]

theorem step_size {e : Event D} (hsize : s.ip.i_size < 2 ^ 32) (hstep : Step s e s') : s'.ip.i_size < 2 ^ 32 := by
  rcases e with ⟨d, flags⟩ | ⟨d, flag⟩ | ⟨d, beyond, user, p, count⟩ | ⟨d, budget, beyond, count⟩ | ⟨d, offset, whence⟩ | d | ⟨ip, f_pos⟩
  · obtain ⟨_, rfl⟩ := hstep
    show (assist_openat s.ip flags).1.i_size < 2 ^ 32
    unfold assist_openat
    split
    · exact Nat.two_pow_pos 32
    · split
      · exact hsize
      · exact hsize
  · obtain ⟨f, _, rfl⟩ := hstep
    exact hsize
  · obtain ⟨f, f', r, _, hrun, rfl⟩ := hstep
    exact sys_write_size hsize hrun
  · obtain ⟨f, f', out, r, _, hrun, rfl⟩ := hstep
    exact sys_read_size (by exact hsize) hrun
  · obtain ⟨f, _, rfl⟩ := hstep
    exact hsize
  · obtain rfl := hstep
    exact hsize
  · obtain ⟨hip, rfl⟩ := hstep
    exact hip

/-- **Append writes.** In a history every write through an append descriptor appends if and only if each of them finds its
position at the end of the file, is refused or fails without effect. -/
theorem append_runs_iff {disk : Nat → UInt8} {size : Nat} (hsize : size < 2 ^ 32) {es : List (Event D)} :
    Run (Guarded Step Appends) (start D disk size) es s ↔ Run (Guarded Step AppendOk) (start D disk size) es s := by
  apply @Run.guarded_iff _ _ Step (start D disk size) s fun s => s.ip.i_size < 2 ^ 32
  · intro s₁ e s₂ h _ hstep
    exact step_size h hstep
  · intro s₁ e s₂ h _
    exact appends_iff h e
  · exact hsize

end

def O_APPENDING : BitVec 32 := O_WRONLY ||| O_APPEND

/-- After a seek to the end a byte is appended. -/
theorem append_runs_sought : ∃ s, Run (Guarded Step Appends) (start Unit (fun _ => 7) 5)
    [.sys_openat () O_APPENDING, .sys_lseek () 0 .SEEK_END, .sys_write () (fun _ => 0) one_page 0 1] s := by
  refine ⟨_, (append_runs_iff (by decide)).mpr (.cons ⟨trivial, rfl, rfl⟩ (.cons ⟨trivial, _, rfl, rfl⟩
    (.cons ⟨?_, _, _, _, rfl, rfl, rfl⟩ (.nil _))))⟩
  intro f hf _ _
  obtain rfl := Option.some_inj.mp hf
  refine .inr ?_
  rw [if_pos (by decide)]
  refine ⟨by decide, fun p hp _ _ _ _ hzero => ?_⟩
  have hpage : p / PGSIZE = 0 := Nat.div_eq_of_lt (hp.trans (by decide))
  rw [hpage] at hzero
  exact absurd hzero (by decide)

/-- **A byte appended to five** makes a file of seven. -/
theorem append_leaves_gap :
    (∃ s, Run Step (start Unit (fun _ => 7) 5) [.sys_openat () O_APPENDING, .sys_write () (fun _ => 0) one_page 0 1] s ∧
      s.ip.i_size = 7) ∧
    ¬∀ es s, Run Step (start Unit (fun _ => 7) 5) es s → Run (Guarded Step Appends) (start Unit (fun _ => 7) 5) es s := by
  have hrun : ∃ s, Run Step (start Unit (fun _ => 7) 5)
      [.sys_openat () O_APPENDING, .sys_write () (fun _ => 0) one_page 0 1] s ∧ s.ip.i_size = 7 :=
    ⟨_, .cons ⟨rfl, rfl⟩ (.cons ⟨_, _, _, rfl, rfl, rfl⟩ (.nil _)), rfl⟩
  refine ⟨hrun, fun hall => ?_⟩
  obtain ⟨s, hrun, _⟩ := hrun
  rcases hall _ s hrun with _ | ⟨⟨_, _, rfl⟩, _ | ⟨⟨happ, _⟩, _⟩⟩
  have hlaw := happ _ rfl (by decide)
  rw [past_end_iff (by decide) (by decide) rfl (by decide) (by decide)] at hlaw
  exact absurd hlaw (by decide)

end LostWakeup.Fs.Append
