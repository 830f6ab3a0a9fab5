/-
# LostWakeup.Fs.Fat32.Getdents — `sys_getdents64` in `src/kernel/sysfile.c` and `fat32_getdents`: the entries of a directory.

The raw entries are read into the buffer, `len` bytes of them, and the records go to its front while the scan is still
on the way.  A record never overtakes the scan (`trav_eq`), but a directory longer than the buffer is cut there, and the
next call returns 0.  `getdents_enumerates` says which directories come out whole.

An entry that the end of the buffer cuts is completed by whatever lies behind; the records are built in an array that is
not initialised.
-/
import LostWakeup.Fs.Fat32.DirLookup
import LostWakeup.Fs.Fat32.Fcb
import LostWakeup.Library.CInt
import LostWakeup.Library.Words

namespace LostWakeup.Fs.Fat32.Getdents

open Library Lib.Hash Fs.Fat32.Dir
open Fs.Fat32.LongName hiding Panic
open List (append_assoc append_nil cons_append countP_append length_append length_cons length_map length_nil
  length_range map_append map_cons map_map not_mem_nil)

/-! ## Records -/

/-- `struct __dirent`. -/
structure dirent where
  d_ino : UInt64
  d_off : Int
  d_type : UInt8
  d_name : List UInt8

/-- `dirent_len`. -/
def dirent_len (name : List UInt8) : Nat := 20 + name.length

def dirent.bytes (d : dirent) : List UInt8 :=
  bytesLE 8 d.d_ino.toNat ++ bytesLE 8 (toUint64 d.d_off) ++ bytesLE 2 (dirent_len d.d_name) ++ [d.d_type] ++
    d.d_name ++ [0]

/-- The names that a reader finds who goes from record to record. -/
def walk : Nat → List UInt8 → List (List UInt8)
  | 0, _ => []
  | fuel + 1, buf =>
    if buf = [] then []
    else cstring (buf.drop 19) :: walk fuel (buf.drop (ofBytesLE ((buf.drop 16).take 2)))

def names (buf : List UInt8) : List (List UInt8) := walk buf.length buf

/-- `__imode_from_fcb`. -/
def imode_from_fcb (fcb : List UInt8) : UInt32 :=
  (if chr fcb 12 ≠ 0 then Fcb.FATDEV_TO_ITYPE (chr fcb 12)
    else if Fcb.DIR_BOOL (chr fcb 11) then Fcb.S_IFDIR else Fcb.S_IFREG) ||| 0o777

/-- `__IMODE_TO_DTYPE`. -/
def IMODE_TO_DTYPE (mode : UInt32) : UInt8 :=
  if mode &&& Fcb.S_IFMT = Fcb.S_IFREG then 8
  else if mode &&& Fcb.S_IFMT = Fcb.S_IFDIR then 4
  else if mode &&& Fcb.S_IFMT = Fcb.S_IFCHR then 2
  else if mode &&& Fcb.S_IFMT = Fcb.S_IFBLK then 6
  else if mode &&& Fcb.S_IFMT = 0o010000 then 1
  else if mode &&& Fcb.S_IFMT = 0o140000 then 12
  else 0

/-! ## The buffer -/

/-- What a call finds besides the directory: memory, the user's buffer, the bytes behind the kernel's buffer, and the
stack. -/
structure Env where
  kzalloc : Bool
  copyout : Bool
  behind : Nat → UInt8
  d_ino : Nat → UInt64
  file_idx : Int

/-- The memory from the start of `kbuf` on. -/
abbrev Mem := Nat → UInt8

/-- `memmove` to `at_`. -/
def Mem.write (mem : Mem) (at_ : Nat) (bs : List UInt8) : Mem :=
  fun i => if at_ ≤ i ∧ i < at_ + bs.length then chr bs (i - at_) else mem i

/-- The entry at `idx`. -/
def Mem.fcb (mem : Mem) (idx : Nat) : List UInt8 := (List.range 32).map fun j => mem (32 * idx + j)

/-- The first `n` bytes. -/
def Mem.front (mem : Mem) (n : Nat) : List UInt8 := (List.range n).map mem

/-- The buffer after `kzalloc` and `fat32_inode_read`. -/
def kbuf (dp : inode) (len : Nat) (env : Env) : Mem := fun i =>
  if i < len then chr (dp.entries.getD (i / 32) []) (i % 32) else env.behind i

/-! ## The scan -/

/-- `struct trav_control`, with the directory's hash table and the number of records so far. -/
structure trav_control where
  idx : Nat
  fcb_stack : List dirent_l_t
  table : hash_table
  mem : Mem
  nreads : Nat
  file_idx : Int
  count : Nat

/-- `fat32_inode_getdents_handler`. -/
def fat32_inode_getdents_handler (env : Env) (fcb name_buf : List UInt8) (tc : trav_control) : trav_control :=
  let d : dirent :=
    { d_ino := env.d_ino tc.count
      d_off := int32 (tc.file_idx + 1)
      d_type := IMODE_TO_DTYPE (imode_from_fcb fcb)
      d_name := name_buf }
  { tc with
    file_idx := int32 (tc.file_idx + 1)
    count := tc.count + 1
    mem := tc.mem.write tc.nreads d.bytes
    nreads := tc.nreads + dirent_len name_buf }

/-- `pass` in the kernel, where nothing stops a copy past the end of its array and the scan goes on with the table that is left
then, `spill`.  What lies past the arrays is not in the buffer. -/
def passOn (spill : hash_table → List UInt8 → Nat → hash_table) (table : hash_table) (fcb_stack : List dirent_l_t)
    (name_buf : List UInt8) (off : Nat) : Except Panic hash_table :=
  match pass table fcb_stack name_buf off with
  | .error .buffer_overrun => .ok (spill table name_buf off)
  | r => r

/-- The loop of `fat32_inode_general_trav` for `GETDENTS_OP`, and whether it came to an end of the directory; the names are
copied as `copy` does. -/
def fat32_inode_general_trav (copy : hash_table → List dirent_l_t → List UInt8 → Nat → Except Panic hash_table) (env : Env) : Nat → trav_control → Except Panic (trav_control × Bool)
  | 0, tc => .ok (tc, false)
  | n + 1, tc =>
    match travel_fcb tc.fcb_stack (tc.mem.fcb tc.idx) with
    | .error e => .error (.fcb e)
    | .ok (_, .all_free) => .ok (tc, true)
    | .ok (stack, .file name_buf _) =>
      match copy tc.table tc.fcb_stack name_buf tc.idx with
      | .error e => .error e
      | .ok table =>
        let tc' := fat32_inode_getdents_handler env (tc.mem.fcb tc.idx) name_buf tc
        fat32_inode_general_trav copy env n { tc' with idx := tc.idx + 1, fcb_stack := stack, table := table }
    | .ok (stack, _) => fat32_inode_general_trav copy env n { tc with idx := tc.idx + 1, fcb_stack := stack }

/-- The scan starts on the first entry. -/
def travStart (dp : inode) (len : Nat) (env : Env) : trav_control where
  idx := 0
  fcb_stack := []
  table := tableOf dp
  mem := kbuf dp len env
  nreads := 0
  file_idx := env.file_idx
  count := 0

/-- `fat32_getdents`, and the bytes of the buffer that are copied to the user. -/
def fat32_getdents (dp : inode) (len : Nat) (env : Env) : Except Panic (inode × List UInt8) :=
  match fat32_inode_general_trav pass env ((len + 31) / 32) (travStart dp len env) with
  | .error e => .error e
  | .ok (tc, stop) =>
    .ok ({ dp with i_hash := some tc.table, off_hint := if stop then dp.off_hint else 0 }, tc.mem.front tc.nreads)

structure file where
  f_pos : Int

def END_DIR : Int := -1

/-- `sys_getdents64` on a descriptor of directory `dp`: -1, or the bytes the user gets. -/
def sys_getdents64 (dp : inode) (f : file) (len : Int) (env : Env) :
    Except Panic (inode × file × Option (List UInt8)) :=
  if f.f_pos = END_DIR then .ok (dp, f, some [])
  else if len < 0 then .ok (dp, f, none)
  else if env.kzalloc = false then .ok (dp, f, none)
  else
    match fat32_getdents dp len.toNat env with
    | .error e => .error e
    | .ok (dp, out) => if env.copyout = false then .ok (dp, f, none) else .ok (dp, ⟨END_DIR⟩, some out)

/-- Calls with a buffer of `len` bytes until one returns 0, and what they return; call `n` meets `env n`. -/
inductive Calls (len : Int) (env : Nat → Env) : Nat → inode → file → List (List UInt8) → Prop
  | zero {n : Nat} {dp dp' : inode} {f f' : file} :
      sys_getdents64 dp f len (env n) = .ok (dp', f', some []) → Calls len env n dp f []
  | more {n : Nat} {dp dp' : inode} {f f' : file} {out : List UInt8} {outs : List (List UInt8)} :
      sys_getdents64 dp f len (env n) = .ok (dp', f', some out) → out ≠ [] →
        Calls len env (n + 1) dp' f' outs → Calls len env n dp f (out :: outs)

/-- A directory: free entries and files, then entries never used. -/
structure Directory where
  dp : inode
  items : List Item
  zeros : List (List UInt8)
  entries_eq : dp.entries = entriesOf items ++ zeros
  zeros_free : ∀ fcb ∈ zeros, NAME0_FREE_ALL (chr fcb 0) = true
  packed : ∀ fcb ∈ dp.entries, fcb.length = 32

theorem Directory.files_eq (d : Directory) : files d.dp = filesFrom 0 d.items := by
  rw [files, d.entries_eq, liveFiles_items d.items d.zeros_free]

/-- **Enumeration.** The calls on a fresh descriptor yield every live file once, with its name, and nothing else, and
none returns more than `len` bytes, whatever lies behind the buffer and on the stack. -/
def Enumerates (d : Directory) (len : Nat) : Prop :=
  ∀ env : Nat → Env, (∀ n, (env n).kzalloc = true ∧ (env n).copyout = true) →
    ∃ outs, Calls len env 0 d.dp ⟨0⟩ outs ∧ (outs.flatMap names).Perm ((files d.dp).map Prod.fst) ∧
      ∀ out ∈ outs, out.length ≤ len

/-- A name that `pass` lets through: it fits `name_buf`, and a node of the hash table if it comes into one. -/
def Fits (table : hash_table) (fcb_stack : List dirent_l_t) (name : List UInt8) : Prop :=
  written fcb_stack 1 ≤ NAME_LONG_MAX ∧ (KeyFits name ∨ (hash_lookup table name).isSome)

/-- The stack when the scan comes to the short entry of a file. -/
def stackOf (fcbs : List (List UInt8)) : List dirent_l_t := (fcbs.dropLast.map dirent_l_t.ofBytes).reverse

/-- Every name does, on the way through the items. -/
def AllFit : hash_table → Nat → List Item → Prop
  | _, _, [] => True
  | table, off, .free _ _ :: items => AllFit table (off + 1) items
  | table, off, .file fcbs name _ :: items =>
    Fits table (stackOf fcbs) name ∧ AllFit (cache table (name, off + fcbs.length - 1)) (off + fcbs.length) items

/-- The directory comes out whole: the first 12 bytes of every short entry are read, the records have room, and the
names do not overrun anything. -/
structure Whole (d : Directory) (len : Nat) : Prop where
  read : ∀ f ∈ files d.dp, 32 * f.2 + 12 ≤ len
  room : ((files d.dp).map fun f => dirent_len f.1).sum ≤ len
  fit : AllFit (tableOf d.dp) 0 d.items

/-! ## What one entry adds -/

theorem filterUnits_length_le (us : List UInt16) : (filterUnits us).1.length ≤ us.length := by
  induction us with
  | nil => exact le_rfl
  | cons u us ih =>
    rw [filterUnits]
    split
    · exact Nat.succ_le_succ ih
    · exact Nat.succ_le_succ (Nat.zero_le _)

theorem filter_longname_length_le {e : dirent_l_t} (he : Packed e) : (fat32_filter_longname e).length ≤ 13 := by
  have h₁ := filterUnits_length_le e.LDIR_Name1
  have h₂ := filterUnits_length_le e.LDIR_Name2
  have h₃ := filterUnits_length_le e.LDIR_Name3
  rw [he.name1] at h₁
  rw [he.name2] at h₂
  rw [he.name3] at h₃
  unfold fat32_filter_longname
  dsimp only
  split
  · omega
  split
  · rw [length_append]
    omega
  · rw [length_append, length_append]
    omega

/-- A stack that was popped to its end gave a name of at most 13 characters an entry; another is cut short. -/
theorem popLoop_length_le {checksum : UInt8} {stack : List dirent_l_t} (hstack : ∀ e ∈ stack, Packed e) {cnt : UInt8}
    {buf : List UInt8} {stack' : List dirent_l_t} {r : Option (List UInt8 × UInt8)}
    (h : popLoop checksum stack cnt buf = .ok (stack', r)) :
    stack' <:+ stack ∧ ∀ x ∈ r, stack' = [] ∧ x.1.length ≤ buf.length + 13 * stack.length := by
  induction stack generalizing cnt buf with
  | nil =>
    rw [popLoop] at h
    cases h
    exact ⟨List.suffix_rfl, fun x hx => by cases hx⟩
  | cons e stack ih =>
    have he := filter_longname_length_le (hstack e List.mem_cons_self)
    rw [popLoop] at h
    split_ifs at h with hord hsum
    · cases h
      exact ⟨List.suffix_cons e _, fun x hx => by cases hx⟩
    dsimp only at h
    split at h
    · cases h
      refine ⟨List.nil_suffix, fun x hx => ?_⟩
      cases hx
      refine ⟨rfl, ?_⟩
      rw [length_append, List.length_singleton]
      omega
    · obtain ⟨hsuffix, hr⟩ := ih (fun e' he' => hstack e' (List.mem_cons_of_mem e he')) h
      refine ⟨hsuffix.trans (List.suffix_cons e _), fun x hx => ?_⟩
      obtain ⟨hnil, hx⟩ := hr x hx
      refine ⟨hnil, ?_⟩
      rw [length_append] at hx
      rw [length_cons]
      rw [length_cons] at hx ⊢
      omega

theorem zero_not_mem_cstring (buf : List UInt8) : 0 ∉ cstring buf := by
  intro h
  have hall : (cstring buf).all (· != 0) = true := List.all_takeWhile ..
  exact absurd (List.all_eq_true.mp hall 0 h) (by decide)

theorem cstring_length_le (buf : List UInt8) : (cstring (buf ++ [0])).length ≤ buf.length := by
  induction buf with
  | nil => exact le_rfl
  | cons b buf ih =>
    have hcons : cstring (b :: buf ++ [0]) = if b != 0 then b :: cstring (buf ++ [0]) else [] := by
      rw [cons_append, cstring, List.takeWhile_cons]
      rfl
    rw [hcons]
    split
    · exact Nat.succ_le_succ ih
    · exact Nat.zero_le _

theorem short_name_length_le (dir_name : List UInt8) (h : dir_name.length ≤ 11) :
    (fat32_short_name_parse dir_name).length ≤ 12 := by
  unfold fat32_short_name_parse
  dsimp only
  have hbase : ((dir_name.take 8).filter (· != 0x20)).length ≤ 8 :=
    (List.length_filter_le _ _).trans (List.length_take_le _ _)
  refine (cstring_length_le _).trans ?_
  rw [length_append]
  split
  · have hext : ((dir_name.drop 8).filter (· != 0x20)).length ≤ 3 := by
      refine (List.length_filter_le _ _).trans ?_
      rw [List.length_drop]
      omega
    rw [length_cons]
    omega
  · rw [length_nil]
    omega

theorem ofBytes_packed (fcb : List UInt8) : Packed (dirent_l_t.ofBytes fcb) := ⟨rfl, rfl, rfl⟩

theorem popstack_room {stack stack' : List dirent_l_t} (hstack : ∀ e ∈ stack, Packed e) {fcb_s_name : List UInt8}
    {r : Option (List UInt8)} (h : fat32_longname_popstack stack fcb_s_name = .ok (stack', r)) :
    stack' <:+ stack ∧ ∀ name ∈ r, stack' = [] ∧ name.length ≤ 13 * stack.length ∧ 0 ∉ name := by
  unfold fat32_longname_popstack at h
  split at h
  · cases h
  · next hloop =>
    cases h
    exact ⟨(popLoop_length_le hstack hloop).1, fun name hname => by cases hname⟩
  · next buf ord hloop =>
    cases h
    obtain ⟨hsuffix, hr⟩ := popLoop_length_le hstack hloop
    obtain ⟨hnil, hlen⟩ := hr _ rfl
    refine ⟨hsuffix, fun name hname => ⟨hnil, ?_⟩⟩
    rw [length_nil, Nat.zero_add] at hlen
    split at hname
    · cases hname
      exact ⟨(cstring_length_le buf).trans hlen, zero_not_mem_cstring _⟩
    · cases hname

/-- A stack of entries as they were read, no more than it holds. -/
def StackOk (stack : List dirent_l_t) : Prop := (∀ e ∈ stack, Packed e) ∧ stack.length ≤ CAPACITY

theorem StackOk.nil : StackOk [] := ⟨fun _ he => absurd he not_mem_nil, Nat.zero_le _⟩

/-- What one entry does to the stack, and how long a name can be: what it takes, the entries paid for. -/
theorem travel_fcb_room {stack stack' : List dirent_l_t} (hstack : StackOk stack) {fcb : List UInt8}
    {o : Outcome} (h : travel_fcb stack fcb = .ok (stack', o)) :
    StackOk stack' ∧ stack'.length ≤ stack.length + 1 ∧ ∀ name long_valid, o = .file name long_valid →
      dirent_len name + 13 * stack'.length ≤ 32 + 13 * stack.length ∧ 0 ∉ name := by
  have hkept : ∀ {o' : Outcome}, (∀ name long_valid, o' ≠ .file name long_valid) → (stack, o') = (stack', o) →
      StackOk stack' ∧ stack'.length ≤ stack.length + 1 ∧ ∀ name long_valid, o = .file name long_valid →
        dirent_len name + 13 * stack'.length ≤ 32 + 13 * stack.length ∧ 0 ∉ name := by
    rintro o' ho heq
    cases heq
    exact ⟨hstack, Nat.le_succ _, fun name long_valid hfile => absurd hfile (ho name long_valid)⟩
  unfold travel_fcb at h
  split at h
  · exact hkept (fun _ _ hfile => by cases hfile) (Except.ok.inj h)
  split at h
  · split at h
    · cases h
    · exact hkept (fun _ _ hfile => by cases hfile) (Except.ok.inj h)
  split at h
  · split at h
    · cases h
    · next hpush =>
      cases h
      unfold stack_push at hpush
      split at hpush
      · cases hpush
      · next hfull =>
        cases hpush
        have hle := hstack.2
        refine ⟨⟨fun e he => ?_, ?_⟩, le_of_eq (length_cons ..), fun _ _ hfile => by cases hfile⟩
        · rcases List.mem_cons.mp he with rfl | he
          · exact ofBytes_packed fcb
          · exact hstack.1 e he
        · rw [length_cons]
          omega
  · split at h
    · cases h
    · next name hpop =>
      cases h
      obtain ⟨-, hr⟩ := popstack_room hstack.1 hpop
      obtain ⟨rfl, hlen, hzero⟩ := hr name rfl
      refine ⟨StackOk.nil, Nat.zero_le _, fun name' long_valid hfile => ?_⟩
      cases hfile
      refine ⟨?_, hzero⟩
      rw [dirent_len, length_nil]
      omega
    · next hpop =>
      cases h
      obtain ⟨hsuffix, -⟩ := popstack_room hstack.1 hpop
      have hle := hsuffix.length_le
      refine ⟨⟨fun e he => hstack.1 e (hsuffix.subset he), hle.trans hstack.2⟩, hle.trans (Nat.le_succ _),
        fun name long_valid hfile => ?_⟩
      cases hfile
      refine ⟨?_, zero_not_mem_cstring _⟩
      have hname := short_name_length_le (fcb.take 11) (List.length_take_le _ _)
      rw [dirent_len]
      omega

/-! ## The buffer serves for both ends -/

theorem bytes_length (d : dirent) : d.bytes.length = dirent_len d.d_name := by
  simp only [dirent.bytes, length_append, bytesLE_length, List.length_singleton, dirent_len]
  omega

theorem front_append (mem : Mem) (n m : Nat) :
    mem.front (n + m) = mem.front n ++ (List.range m).map fun i => mem (n + i) := by
  simp only [Mem.front, List.range_add, map_append, map_map]
  rfl

theorem front_write (mem : Mem) (n : Nat) (bs : List UInt8) :
    (mem.write n bs).front (n + bs.length) = mem.front n ++ bs := by
  have hbefore : (mem.write n bs).front n = mem.front n := by
    apply List.map_congr_left
    intro i hi
    have hlt := List.mem_range.mp hi
    exact if_neg fun h => absurd h.1 (by omega)
  have hrecord : ((List.range bs.length).map fun i => mem.write n bs (n + i)) = bs := by
    apply List.ext_getElem
    · rw [length_map, length_range]
    intro i h₁ h₂
    rw [List.getElem_map, List.getElem_range]
    have hin : n ≤ n + i ∧ n + i < n + bs.length := ⟨by omega, by omega⟩
    rw [Mem.write, if_pos hin, Nat.add_sub_cancel_left, chr, List.getD_eq_getElem?_getD,
      List.getElem?_eq_getElem h₂, Option.getD_some]
  rw [front_append, hbefore, hrecord]

theorem write_behind (mem : Mem) {n i : Nat} {bs : List UInt8} (h : n + bs.length ≤ i) : mem.write n bs i = mem i :=
  if_neg fun hin => absurd hin.2 (by omega)

theorem fcb_congr {mem mem' : Mem} {idx : Nat} (h : ∀ i, 32 * idx ≤ i → mem i = mem' i) : mem.fcb idx = mem'.fcb idx := by
  apply List.map_congr_left
  intro j _
  exact h _ (by omega)

/-- The scan over a list of entries: the table, the names found, and whether it came to an end of the directory. -/
def scan : List dirent_l_t → Nat → List (List UInt8) → hash_table →
    Except Panic (hash_table × List (List UInt8) × Bool)
  | _, _, [], table => .ok (table, [], false)
  | stack, off, fcb :: fcbs, table =>
    match travel_fcb stack fcb with
    | .error e => .error (.fcb e)
    | .ok (_, .all_free) => .ok (table, [], true)
    | .ok (stack', .file name _) =>
      match pass table stack name off with
      | .error e => .error e
      | .ok table => (scan stack' (off + 1) fcbs table).map fun r => (r.1, name :: r.2.1, r.2.2)
    | .ok (stack', _) => scan stack' (off + 1) fcbs table

/-- A record that a reader finds its way through. -/
def Readable (d : dirent) : Prop := 0 ∉ d.d_name ∧ dirent_len d.d_name < 65536

/-- A run over the buffer does what the scan over its entries does, and leaves the records of what that finds. -/
def Agrees (env : Env) (n : Nat) (tc : trav_control) :
    Except Panic (hash_table × List (List UInt8) × Bool) → Prop
  | .error e => fat32_inode_general_trav pass env n tc = .error e
  | .ok (table, found, stop) => ∃ (tc' : trav_control) (ds : List dirent),
      fat32_inode_general_trav pass env n tc = .ok (tc', stop) ∧ tc'.table = table ∧ ds.map dirent.d_name = found ∧
      (∀ d ∈ ds, Readable d) ∧ tc'.mem.front tc'.nreads = tc.mem.front tc.nreads ++ ds.flatMap dirent.bytes

theorem Agrees.skip {env : Env} {n : Nat} {tc tc' : trav_control}
    {r : Except Panic (hash_table × List (List UInt8) × Bool)}
    (heq : fat32_inode_general_trav pass env (n + 1) tc = fat32_inode_general_trav pass env n tc')
    (hfront : tc'.mem.front tc'.nreads = tc.mem.front tc.nreads) (h : Agrees env n tc' r) :
    Agrees env (n + 1) tc r := by
  rcases r with e | ⟨table, found, stop⟩
  · exact heq.trans h
  · obtain ⟨tc'', ds, htrav, htable, hfound, hread, hout⟩ := h
    exact ⟨tc'', ds, heq.trans htrav, htable, hfound, hread, hfront ▸ hout⟩

theorem Agrees.record {env : Env} {n : Nat} {tc tc' : trav_control}
    {r : Except Panic (hash_table × List (List UInt8) × Bool)} {d : dirent} (hd : Readable d)
    (heq : fat32_inode_general_trav pass env (n + 1) tc = fat32_inode_general_trav pass env n tc')
    (hfront : tc'.mem.front tc'.nreads = tc.mem.front tc.nreads ++ d.bytes) (h : Agrees env n tc' r) :
    Agrees env (n + 1) tc (r.map fun r => (r.1, d.d_name :: r.2.1, r.2.2)) := by
  rcases r with e | ⟨table, found, stop⟩
  · exact heq.trans h
  obtain ⟨tc'', ds, htrav, htable, hfound, hread, hout⟩ := h
  refine ⟨tc'', d :: ds, heq.trans htrav, htable, ?_, List.forall_mem_cons.mpr ⟨hd, hread⟩, ?_⟩
  · rw [map_cons, hfound]
  · rw [hout, hfront, List.flatMap_cons, append_assoc]

/-- The records have not reached what is still to be read: the scan has passed 32 bytes for each entry, and a record
takes less than 32 bytes and 13 for each long entry. -/
structure Ahead (mem₀ : Mem) (tc : trav_control) : Prop where
  stack : StackOk tc.fcb_stack
  unread : ∀ i, 32 * tc.idx ≤ i → tc.mem i = mem₀ i
  room : tc.nreads + 13 * tc.fcb_stack.length ≤ 32 * tc.idx

theorem Ahead.skip {mem₀ : Mem} {tc : trav_control} (h : Ahead mem₀ tc) {stack' : List dirent_l_t} {o : Outcome}
    (htravel : travel_fcb tc.fcb_stack (tc.mem.fcb tc.idx) = .ok (stack', o)) :
    Ahead mem₀ { tc with idx := tc.idx + 1, fcb_stack := stack' } := by
  obtain ⟨hstack', hlen, -⟩ := travel_fcb_room h.stack htravel
  have hroom := h.room
  refine ⟨hstack', fun i hi => h.unread i ?_, ?_⟩
  · dsimp only at hi
    omega
  · dsimp only
    omega

theorem Ahead.file_room {mem₀ : Mem} {tc : trav_control} (h : Ahead mem₀ tc) {stack' : List dirent_l_t}
    {name : List UInt8} {long_valid : Bool}
    (htravel : travel_fcb tc.fcb_stack (tc.mem.fcb tc.idx) = .ok (stack', .file name long_valid)) :
    tc.nreads + dirent_len name + 13 * stack'.length ≤ 32 * (tc.idx + 1) := by
  obtain ⟨-, -, hname⟩ := travel_fcb_room h.stack htravel
  have hbytes := (hname name long_valid rfl).1
  have hroom := h.room
  omega

theorem Ahead.record {mem₀ : Mem} {tc : trav_control} (h : Ahead mem₀ tc) {stack' : List dirent_l_t}
    {name : List UInt8} {long_valid : Bool}
    (htravel : travel_fcb tc.fcb_stack (tc.mem.fcb tc.idx) = .ok (stack', .file name long_valid)) (env : Env)
    (table : hash_table) :
    Ahead mem₀ { fat32_inode_getdents_handler env (tc.mem.fcb tc.idx) name tc with
      idx := tc.idx + 1, fcb_stack := stack', table := table } := by
  have hroom := h.file_room htravel
  refine ⟨(travel_fcb_room h.stack htravel).1, fun i hi => ?_, hroom⟩
  dsimp only at hi
  refine (write_behind tc.mem ?_).trans (h.unread i (by omega))
  rw [bytes_length]
  dsimp only
  omega

/-- **The records never overtake the scan**, so that it reads what was read from the directory. -/
theorem trav_eq (env : Env) (mem₀ : Mem) (n : Nat) (tc : trav_control) (h : Ahead mem₀ tc) :
    Agrees env n tc (scan tc.fcb_stack tc.idx ((List.range' tc.idx n).map mem₀.fcb) tc.table) := by
  induction n generalizing tc with
  | zero => exact ⟨tc, [], rfl, rfl, rfl, fun d hd => absurd hd not_mem_nil, (append_nil _).symm⟩
  | succ n ih =>
    have hfcb := fcb_congr h.unread
    rw [List.range'_succ, map_cons, scan, ← hfcb]
    rcases htravel : travel_fcb tc.fcb_stack (tc.mem.fcb tc.idx) with e | ⟨stack', o⟩
    · show fat32_inode_general_trav pass env (n + 1) tc = _
      rw [fat32_inode_general_trav, htravel]
    have hmove := ih _ (h.skip htravel)
    cases o with
    | all_free =>
      refine ⟨tc, [], ?_, rfl, rfl, fun d hd => absurd hd not_mem_nil, (append_nil _).symm⟩
      rw [fat32_inode_general_trav, htravel]
    | free =>
      refine Agrees.skip ?_ ?_ hmove
      · rw [fat32_inode_general_trav, htravel]
      · rfl
    | long =>
      refine Agrees.skip ?_ ?_ hmove
      · rw [fat32_inode_general_trav, htravel]
      · rfl
    | file name long_valid =>
      obtain ⟨-, -, hname⟩ := travel_fcb_room h.stack htravel
      obtain ⟨hbytes, hzero⟩ := hname name long_valid rfl
      dsimp only
      rcases hpass : pass tc.table tc.fcb_stack name tc.idx with e | table
      · show fat32_inode_general_trav pass env (n + 1) tc = _
        rw [fat32_inode_general_trav, htravel]
        dsimp only
        rw [hpass]
      let d : dirent := ⟨env.d_ino tc.count, int32 (tc.file_idx + 1),
        IMODE_TO_DTYPE (imode_from_fcb (tc.mem.fcb tc.idx)), name⟩
      have hd : d.bytes.length = dirent_len name := bytes_length d
      have hcap : tc.fcb_stack.length ≤ 30 := h.stack.2
      have hread : Readable d := by
        refine ⟨hzero, ?_⟩
        show dirent_len name < 65536
        omega
      refine Agrees.record hread ?_ ?_ (ih _ (h.record htravel env table))
      · rw [fat32_inode_general_trav, htravel]
        dsimp only
        rw [hpass]
      · show (tc.mem.write tc.nreads d.bytes).front (tc.nreads + dirent_len name) = _
        rw [← hd, front_write]

/-! ## What is still to be read -/

/-- A listing that has not written to what it has still to read, and will not with the next entry's record either. -/
structure InPlace (mem₀ : Mem) (tc : trav_control) : Prop where
  length : tc.nreads ≤ 32 * tc.idx
  unread : ∀ i, 32 * tc.idx ≤ i → tc.mem i = mem₀ i
  next : ∀ (stack : List dirent_l_t) (name : List UInt8) (long_valid : Bool),
    travel_fcb tc.fcb_stack (tc.mem.fcb tc.idx) = .ok (stack, .file name long_valid) →
      tc.nreads + dirent_len name ≤ 32 * (tc.idx + 1)

theorem Ahead.inPlace {mem₀ : Mem} {tc : trav_control} (h : Ahead mem₀ tc) : InPlace mem₀ tc where
  length := le_self_add.trans h.room
  unread := h.unread
  next _ _ _ htravel := le_self_add.trans (h.file_room htravel)

theorem Ahead.start (mem₀ : Mem) (dp : inode) (len : Nat) (env : Env) :
    Ahead mem₀ { travStart dp len env with mem := mem₀ } :=
  ⟨StackOk.nil, fun _ _ => rfl, le_rfl⟩

/-- After `n` turns the scan is behind entry `n`, or it has stopped on an earlier one. -/
theorem trav_ahead {copy : hash_table → List dirent_l_t → List UInt8 → Nat → Except Panic hash_table} {env : Env} {mem₀ : Mem} {n : Nat} {tc tc' : trav_control} {stop : Bool} (h : Ahead mem₀ tc)
    (htrav : fat32_inode_general_trav copy env n tc = .ok (tc', stop)) :
    Ahead mem₀ tc' ∧ (stop = false ∧ tc'.idx = tc.idx + n ∨ stop = true ∧ tc'.idx < tc.idx + n) := by
  induction n generalizing tc with
  | zero =>
    cases htrav
    exact ⟨h, .inl ⟨rfl, rfl⟩⟩
  | succ n ih =>
    have hmove : ∀ {tc₁ : trav_control}, Ahead mem₀ tc₁ → tc₁.idx = tc.idx + 1 →
        fat32_inode_general_trav copy env n tc₁ = .ok (tc', stop) →
        Ahead mem₀ tc' ∧ (stop = false ∧ tc'.idx = tc.idx + (n + 1) ∨ stop = true ∧ tc'.idx < tc.idx + (n + 1)) := by
      intro tc₁ h₁ hidx htrav₁
      have hrest := ih h₁ htrav₁
      rwa [hidx, Nat.add_assoc, Nat.add_comm 1 n] at hrest
    rw [fat32_inode_general_trav] at htrav
    rcases htravel : travel_fcb tc.fcb_stack (tc.mem.fcb tc.idx) with e | ⟨stack', o⟩
    · rw [htravel] at htrav
      cases htrav
    rw [htravel] at htrav
    cases o with
    | all_free =>
      cases htrav
      exact ⟨h, .inr ⟨rfl, Nat.lt_add_of_pos_right (Nat.succ_pos n)⟩⟩
    | free => exact hmove (h.skip htravel) rfl htrav
    | long => exact hmove (h.skip htravel) rfl htrav
    | file name long_valid =>
      dsimp only at htrav
      rcases hpass : copy tc.table tc.fcb_stack name tc.idx with e | table
      · rw [hpass] at htrav
        cases htrav
      · rw [hpass] at htrav
        exact hmove (h.record htravel env table) rfl htrav

/-- **No entry is overwritten before it is read**, whatever was read into the buffer: however many entries the scan
has handled, also past a name that overruns its array, the records end before the next one. -/
theorem trav_in_place (mem₀ : Mem) (dp : inode) (len : Nat) (env : Env) (spill : hash_table → List UInt8 → Nat → hash_table)
    (n : Nat) (tc : trav_control) (stop : Bool)
    (h : fat32_inode_general_trav (passOn spill) env n { travStart dp len env with mem := mem₀ } = .ok (tc, stop)) :
    (stop = false ∧ tc.idx = n ∨ stop = true ∧ tc.idx < n) ∧ InPlace mem₀ tc := by
  obtain ⟨hahead, hidx⟩ := trav_ahead (Ahead.start mem₀ dp len env) h
  dsimp only [travStart] at hidx
  rw [Nat.zero_add] at hidx
  exact ⟨hidx, hahead.inPlace⟩

/-- A name of eight and three characters takes all that its entry did. -/
example : dirent_len (fat32_short_name_parse [0x41, 0x42, 0x43, 0x44, 0x45, 0x46, 0x47, 0x48, 0x54, 0x58, 0x54]) = 32 := by
  decide

/-! ## What the reader finds -/

theorem bytes_name (d : dirent) (rest : List UInt8) : (d.bytes ++ rest).drop 19 = d.d_name ++ 0 :: rest := by
  have hsplit : d.bytes ++ rest = (bytesLE 8 d.d_ino.toNat ++ bytesLE 8 (toUint64 d.d_off) ++
      bytesLE 2 (dirent_len d.d_name) ++ [d.d_type]) ++ (d.d_name ++ 0 :: rest) := by
    simp only [dirent.bytes, append_assoc, cons_append, List.nil_append]
  rw [hsplit]
  exact List.drop_left' (by simp only [length_append, bytesLE_length, List.length_singleton])

theorem bytes_reclen {d : dirent} (hlen : dirent_len d.d_name < 65536) (rest : List UInt8) :
    ofBytesLE (((d.bytes ++ rest).drop 16).take 2) = dirent_len d.d_name := by
  have hsplit : d.bytes ++ rest = (bytesLE 8 d.d_ino.toNat ++ bytesLE 8 (toUint64 d.d_off)) ++
      (bytesLE 2 (dirent_len d.d_name) ++ (d.d_type :: (d.d_name ++ 0 :: rest))) := by
    simp only [dirent.bytes, append_assoc, cons_append, List.nil_append]
  rw [hsplit, List.drop_left' (by simp only [length_append, bytesLE_length]),
    List.take_left' (bytesLE_length 2 _), ofBytesLE_bytesLE]
  exact Nat.mod_eq_of_lt hlen

theorem walk_records {ds : List dirent} (hds : ∀ d ∈ ds, Readable d) {fuel : Nat} (hfuel : ds.length ≤ fuel) :
    walk fuel (ds.flatMap dirent.bytes) = ds.map dirent.d_name := by
  induction ds generalizing fuel with
  | nil => cases fuel <;> rfl
  | cons d ds ih =>
    obtain ⟨⟨hzero, hlen⟩, hds⟩ := List.forall_mem_cons.mp hds
    obtain ⟨fuel, rfl⟩ := Nat.exists_eq_add_one_of_ne_zero (Nat.ne_of_gt (Nat.zero_lt_of_lt hfuel))
    have hne : d.bytes ++ ds.flatMap dirent.bytes ≠ [] := by
      intro hnil
      have hd := bytes_length d
      rw [(List.append_eq_nil_iff.mp hnil).1, length_nil, dirent_len] at hd
      omega
    rw [List.flatMap_cons, walk, if_neg hne, bytes_name, cstring_append hzero, bytes_reclen hlen,
      List.drop_left' (bytes_length d), ih hds (Nat.le_of_succ_le_succ hfuel), map_cons]

theorem records_length (ds : List dirent) :
    (ds.flatMap dirent.bytes).length = ((ds.map dirent.d_name).map dirent_len).sum := by
  induction ds with
  | nil => rfl
  | cons d ds ih =>
    rw [List.flatMap_cons, length_append, ih, bytes_length, map_cons, map_cons, List.sum_cons]

theorem names_records {ds : List dirent} (hds : ∀ d ∈ ds, Readable d) :
    names (ds.flatMap dirent.bytes) = ds.map dirent.d_name := by
  refine walk_records hds ?_
  rw [records_length]
  induction ds with
  | nil => exact le_rfl
  | cons d ds ih =>
    have hrest := ih fun d' hd' => hds d' (List.mem_cons_of_mem d hd')
    rw [map_cons, map_cons, List.sum_cons, length_cons, dirent_len]
    omega

/-! ## The scan over the items of a directory -/

theorem travel_long_stack {stack stack' : List dirent_l_t} {fcb : List UInt8}
    (h : travel_fcb stack fcb = .ok (stack', .long)) : stack' = dirent_l_t.ofBytes fcb :: stack := by
  unfold travel_fcb stack_push at h
  split at h
  · cases h
  split at h
  · split at h <;> cases h
  split at h
  · split at h
    · cases h
    · next hpush =>
      cases h
      split at hpush
      · cases hpush
      · exact (Except.ok.inj hpush).symm
  · split at h <;> cases h

/-- The buffer, entry by entry. -/
def chunks (d : Directory) (len : Nat) (env : Env) : List (List UInt8) :=
  (List.range ((len + 31) / 32)).map (kbuf d.dp len env).fcb

theorem chr_fcb (mem : Mem) (idx : Nat) {j : Nat} (hj : j < 32) : chr (mem.fcb idx) j = mem (32 * idx + j) := by
  have hlen : j < ((List.range 32).map fun j => mem (32 * idx + j)).length := by
    rw [length_map, length_range]
    exact hj
  rw [Mem.fcb, chr, List.getD_eq_getElem?_getD, List.getElem?_eq_getElem hlen, Option.getD_some, List.getElem_map,
    List.getElem_range]

theorem chr_chunk (dp : inode) {len idx j : Nat} (env : Env) (hj : j < 32) (hin : 32 * idx + j < len) :
    chr ((kbuf dp len env).fcb idx) j = chr (dp.entries.getD idx []) j := by
  have hdiv : (32 * idx + j) / 32 = idx := by omega
  have hmod : (32 * idx + j) % 32 = j := by omega
  rw [chr_fcb _ _ hj, kbuf, if_pos hin, hdiv, hmod]

theorem chr_behind (dp : inode) {len idx j : Nat} (env : Env) (hj : j < 32) (hout : len ≤ 32 * idx + j) :
    chr ((kbuf dp len env).fcb idx) j = env.behind (32 * idx + j) := by
  rw [chr_fcb _ _ hj, kbuf, if_neg hout.not_gt]

/-- The short entry of a file. -/
def isShort (fcb : List UInt8) : Bool := !NAME0_FREE_BOOL (chr fcb 0) && !LONG_NAME_BOOL (chr fcb 11)

theorem isShort_of_used {fcb : List UInt8} (hused : NAME0_FREE_BOOL (chr fcb 0) = false) : isShort fcb = !isLong fcb := by
  rw [isShort, isLong, hused, Bool.not_false, Bool.true_and, Bool.true_and]

theorem record_short {fcbs : List (List UInt8)} {name : List UInt8} (h : Record [] fcbs name) :
    ∃ longs short, fcbs = longs ++ [short] ∧ longs.countP isShort = 0 ∧ isShort short = true := by
  obtain ⟨longs, short, rfl, hlongs, hshort⟩ := h.long_short
  have hused := h.used
  refine ⟨longs, short, rfl, List.countP_eq_zero.mpr fun fcb hfcb => ?_, ?_⟩
  · rw [isShort_of_used (hused fcb (List.mem_append_left _ hfcb)), hlongs fcb hfcb]
    exact Bool.false_ne_true
  · rw [isShort_of_used (hused short (List.mem_append_right _ List.mem_cons_self)), hshort]
    rfl

theorem filesFrom_length (off : Nat) (items : List Item) :
    (filesFrom off items).length = (entriesOf items).countP isShort := by
  induction items generalizing off with
  | nil => rfl
  | cons i items ih =>
    rw [entriesOf_cons, countP_append]
    rcases i with ⟨fcb, hfree⟩ | ⟨fcbs, name, hr⟩
    · have hnot : ¬isShort fcb = true := by
        rw [isShort, NAME0_FREE_BOOL, hfree]
        exact Bool.false_ne_true
      rw [filesFrom, ih, Item.entries, List.countP_singleton, if_neg hnot, Nat.zero_add]
    · obtain ⟨longs, short, rfl, hlongs, hshort⟩ := record_short hr
      rw [filesFrom, length_cons, ih, Item.entries, countP_append, hlongs, List.countP_singleton,
        if_pos hshort, Nat.zero_add, Nat.add_comm]

/-- The entry of a file is short. -/
theorem file_short {items : List Item} {f : List UInt8 × Nat} (hf : f ∈ filesFrom 0 items) (rest : List (List UInt8)) :
    f.2 < size items ∧ isShort ((entriesOf items ++ rest).getD f.2 []) = true := by
  obtain ⟨fs₁, fs₂, hsplit⟩ := List.append_of_mem hf
  obtain ⟨p, fcbs, hr, q, rfl, -, hoff⟩ := filesFrom_split hsplit
  obtain ⟨longs, short, rfl, -, hshort⟩ := record_short hr
  rw [length_append, List.length_singleton] at hoff
  have hindex : f.2 = (entriesOf p ++ longs).length := by
    rw [length_append, ← size]
    omega
  have hentries : entriesOf (p ++ .file (longs ++ [short]) f.1 hr :: q) ++ rest =
      (entriesOf p ++ longs) ++ short :: (entriesOf q ++ rest) := by
    rw [entriesOf_append, entriesOf_cons, Item.entries]
    simp only [append_assoc, cons_append, List.nil_append]
  constructor
  · rw [size_append, size_cons, Item.entries, length_append, List.length_singleton]
    omega
  · rw [hentries, hindex, List.getD_eq_getElem?_getD, List.getElem?_append_right le_rfl, Nat.sub_self]
    exact hshort

/-- The scan finds no more files than it sees short entries. -/
theorem scan_count {stack : List dirent_l_t} {off : Nat} {fcbs : List (List UInt8)} {table : hash_table}
    {r : hash_table × List (List UInt8) × Bool} (h : scan stack off fcbs table = .ok r) :
    r.2.1.length ≤ fcbs.countP isShort := by
  induction fcbs generalizing stack off table r with
  | nil =>
    cases h
    exact Nat.zero_le _
  | cons fcb fcbs ih =>
    have hle : fcbs.countP isShort ≤ (fcb :: fcbs).countP isShort := (List.sublist_cons_self fcb fcbs).countP_le
    rw [scan] at h
    split at h
    · cases h
    · cases h
      exact Nat.zero_le _
    · next hfile =>
      have hshort : isShort fcb = true := by
        rw [isShort_of_used (used_of_travel hfile (by simp) (by simp)), isLong_of_travel_file hfile]
        rfl
      split at h
      · cases h
      · obtain ⟨r', hr', rfl⟩ := ok_of_map h
        rw [List.countP_cons_of_pos hshort, length_cons]
        exact Nat.succ_le_succ (ih hr')
    · exact (ih h).trans hle

/-! ## A directory that the buffer cuts -/

theorem countP_chunks_le (es : List (List UInt8)) {c : Nat → List UInt8} {n : Nat}
    (h : ∀ i < n, isShort (c i) = true → isShort (es.getD i []) = true) :
    ((List.range n).map c).countP isShort ≤ (es.take n).countP isShort := by
  induction n with
  | zero => exact le_rfl
  | succ n ih =>
    rw [List.range_succ, map_append, countP_append, List.take_add_one, countP_append]
    refine Nat.add_le_add (ih fun i hi => h i (Nat.lt_succ_of_lt hi)) ?_
    rw [List.map_singleton, List.countP_singleton]
    split
    · next hshort =>
      have hes := h n (Nat.lt_succ_self n) hshort
      rw [List.getD_eq_getElem?_getD] at hes
      cases hget : es[n]? with
      | none =>
        rw [hget] at hes
        exact absurd hes (by decide)
      | some fcb =>
        rw [hget, Option.getD_some] at hes
        rw [Option.toList_some, List.countP_singleton, if_pos hes]
    · exact Nat.zero_le _

/-- With a long entry behind the buffer, the scan sees less files than there are. -/
theorem chunks_cut {d : Directory} {len : Nat} {f : List UInt8 × Nat} (hf : f ∈ files d.dp)
    (hcut : len < 32 * f.2 + 12) (env : Env) (hbehind : env.behind = fun _ => ATTR_LONG_NAME) :
    (chunks d len env).countP isShort < (files d.dp).length := by
  have hfiles := d.files_eq
  rw [hfiles] at hf ⊢
  obtain ⟨hsize, hshort⟩ := file_short hf d.zeros
  rw [← d.entries_eq] at hshort
  have hlt : f.2 < d.dp.entries.length := by
    rw [d.entries_eq, length_append, ← size]
    omega
  -- a chunk is short only if its entry is, and is not cut
  have hseen : ∀ i, 32 * i < len → isShort ((kbuf d.dp len env).fcb i) = true →
      i < f.2 ∧ isShort (d.dp.entries.getD i []) = true := by
    intro i hi hchunk
    have h₀ := chr_chunk d.dp env (by omega : 0 < 32) hi
    rcases lt_or_ge (32 * i + 11) len with hin | hout
    · have h₁₁ := chr_chunk d.dp env (by omega : 11 < 32) hin
      rw [isShort, h₀, h₁₁] at hchunk
      exact ⟨by omega, hchunk⟩
    have h₁₁ := chr_behind d.dp env (by omega : 11 < 32) hout
    have hlong : LONG_NAME_BOOL (env.behind (32 * i + 11)) = true := by
      rw [hbehind]
      show LONG_NAME_BOOL ATTR_LONG_NAME = true
      decide
    rw [isShort, h₁₁, hlong, Bool.not_true, Bool.and_false] at hchunk
    exact absurd hchunk Bool.false_ne_true
  have hbefore : (chunks d len env).countP isShort ≤ (d.dp.entries.take f.2).countP isShort := by
    rcases lt_or_ge f.2 ((len + 31) / 32) with hlast | hmore
    · have hn : (len + 31) / 32 = f.2 + 1 := by omega
      have hnot : ¬isShort ((kbuf d.dp len env).fcb f.2) = true :=
        fun h => absurd (hseen f.2 (by omega) h).1 (Nat.lt_irrefl f.2)
      rw [chunks, hn, List.range_succ, map_append, countP_append, List.map_singleton, List.countP_singleton,
        if_neg hnot, Nat.add_zero]
      exact countP_chunks_le _ fun i hi h => (hseen i (by omega) h).2
    · refine (countP_chunks_le _ fun i hi h => (hseen i (by omega) h).2).trans ?_
      exact (List.take_sublist_take_left hmore).countP_le
  have hall : (filesFrom 0 d.items).length = d.dp.entries.countP isShort := by
    have hzeros : d.zeros.countP isShort = 0 := by
      refine List.countP_eq_zero.mpr fun fcb hfcb => ?_
      rw [isShort, NAME0_FREE_BOOL, d.zeros_free fcb hfcb, Bool.or_true]
      exact Bool.false_ne_true
    rw [filesFrom_length, d.entries_eq, countP_append, hzeros, Nat.add_zero]
  rw [List.getD_eq_getElem?_getD, List.getElem?_eq_getElem hlt, Option.getD_some] at hshort
  have hsplit : d.dp.entries.countP isShort =
      (d.dp.entries.take f.2).countP isShort + ((d.dp.entries.drop (f.2 + 1)).countP isShort + 1) := by
    conv_lhs => rw [← List.take_append_drop f.2 d.dp.entries]
    rw [countP_append, List.drop_eq_getElem_cons hlt, List.countP_cons_of_pos hshort]
  omega

/-! ## A directory that it does not cut -/

/-- A call returns the records of what the scan over its buffer finds. -/
theorem fat32_getdents_spec (d : Directory) (len : Nat) (env : Env) :
    (∃ e, scan [] 0 (chunks d len env) (tableOf d.dp) = .error e ∧ fat32_getdents d.dp len env = .error e) ∨
    ∃ (table : hash_table) (found : List (List UInt8)) (stop : Bool) (dp' : inode) (out : List UInt8),
      scan [] 0 (chunks d len env) (tableOf d.dp) = .ok (table, found, stop) ∧
      fat32_getdents d.dp len env = .ok (dp', out) ∧ names out = found ∧ out.length = (found.map dirent_len).sum := by
  have hagrees : Agrees env ((len + 31) / 32) (travStart d.dp len env)
      (scan [] 0 (chunks d len env) (tableOf d.dp)) := by
    rw [chunks, List.range_eq_range']
    exact trav_eq env (kbuf d.dp len env) _ (travStart d.dp len env) (Ahead.start _ d.dp len env)
  rcases hscan : scan [] 0 (chunks d len env) (tableOf d.dp) with e | ⟨table, found, stop⟩
  · rw [hscan] at hagrees
    refine .inl ⟨e, rfl, ?_⟩
    rw [fat32_getdents, hagrees]
  rw [hscan] at hagrees
  obtain ⟨tc', ds, htrav, -, hfound, hread, hout⟩ := hagrees
  have hfront : tc'.mem.front tc'.nreads = ds.flatMap dirent.bytes := hout
  refine .inr ⟨table, found, stop, { d.dp with i_hash := some tc'.table, off_hint := if stop then d.dp.off_hint else 0 },
    ds.flatMap dirent.bytes, rfl, ?_, ?_, ?_⟩
  · rw [fat32_getdents, htrav, ← hfront]
  · rw [names_records hread, hfound]
  · rw [records_length, hfound]

/-- The first call returns everything, the second one 0. -/
theorem calls_iff {len : Nat} {env : Nat → Env} (henv : ∀ n, (env n).kzalloc = true ∧ (env n).copyout = true)
    (dp : inode) (outs : List (List UInt8)) : Calls len env 0 dp ⟨0⟩ outs ↔
      ∃ dp' out, fat32_getdents dp len (env 0) = .ok (dp', out) ∧ outs = if out = [] then [] else [out] := by
  have hfresh : (0 : Int) ≠ END_DIR := by decide
  have hcall : ∀ {dp' : inode} {f' : file} {out : List UInt8},
      sys_getdents64 dp ⟨0⟩ len (env 0) = .ok (dp', f', some out) ↔
        fat32_getdents dp len (env 0) = .ok (dp', out) ∧ f' = ⟨END_DIR⟩ := by
    intro dp' f' out
    rw [sys_getdents64, if_neg hfresh, if_neg (Int.not_lt.mpr (Int.natCast_nonneg len)),
      if_neg (by rw [(henv 0).1]; exact Bool.noConfusion), Int.toNat_natCast]
    rcases fat32_getdents dp len (env 0) with e | ⟨dp'', out'⟩
    · constructor
      · intro h
        cases h
      · rintro ⟨h, -⟩
        cases h
    · dsimp only
      rw [if_neg (by rw [(henv 0).2]; exact Bool.noConfusion)]
      constructor
      · intro h
        cases h
        exact ⟨rfl, rfl⟩
      · rintro ⟨h, rfl⟩
        cases h
        rfl
  -- a descriptor at the end of its directory yields nothing
  have hend : ∀ (n : Nat) (dp' : inode), sys_getdents64 dp' ⟨END_DIR⟩ len (env n) = .ok (dp', ⟨END_DIR⟩, some []) :=
    fun n dp' => if_pos rfl
  constructor
  · intro h
    rcases h with h | ⟨h, hne, hrest⟩
    · exact ⟨_, [], (hcall.mp h).1, rfl⟩
    obtain ⟨hcall, rfl⟩ := hcall.mp h
    refine ⟨_, _, hcall, ?_⟩
    rw [if_neg hne]
    rcases hrest with h' | ⟨h', hne', -⟩
    · rfl
    · rw [hend] at h'
      cases h'
      exact absurd rfl hne'
  · rintro ⟨dp', out, h, rfl⟩
    split
    · next hout =>
      subst hout
      exact .zero (hcall.mpr ⟨h, rfl⟩)
    · next hout => exact .more (hcall.mpr ⟨h, rfl⟩) hout (.zero (hend 1 dp'))

/-! ## When a directory comes out whole -/

/-- What lies behind the buffer is a long entry, wherever it is cut. -/
def longBehind : Env where
  kzalloc := true
  copyout := true
  behind := fun _ => ATTR_LONG_NAME
  d_ino := fun _ => 0
  file_idx := 0

/-- A directory that comes out came out of one scan. -/
theorem Enumerates.scanned {d : Directory} {len : Nat} (h : Enumerates d len) (env : Env)
    (henv : env.kzalloc = true ∧ env.copyout = true) :
    ∃ (table : hash_table) (found : List (List UInt8)) (stop : Bool),
      scan [] 0 (chunks d len env) (tableOf d.dp) = .ok (table, found, stop) ∧
      found.Perm ((files d.dp).map Prod.fst) ∧ (found.map dirent_len).sum ≤ len := by
  obtain ⟨outs, hcalls, hperm, hlen⟩ := h (fun _ => env) fun _ => henv
  obtain ⟨dp', out, hout, rfl⟩ := (calls_iff (fun _ => henv) d.dp outs).mp hcalls
  rcases fat32_getdents_spec d len env with ⟨e, -, herr⟩ | ⟨table, found, stop, dp'', out', hscan, hok, hnames, hsum⟩
  · rw [herr] at hout
    cases hout
  rw [hok] at hout
  cases hout
  refine ⟨table, found, stop, hscan, ?_, ?_⟩
  · rw [← hnames]
    split at hperm
    · next hnil => rwa [hnil]
    · rwa [List.flatMap_singleton] at hperm
  rw [← hsum]
  split at hlen
  · next hnil =>
    rw [hnil]
    exact Nat.zero_le _
  · exact hlen out List.mem_cons_self

theorem Enumerates.read {d : Directory} {len : Nat} (h : Enumerates d len) : ∀ f ∈ files d.dp, 32 * f.2 + 12 ≤ len := by
  intro f hf
  by_contra hcut
  obtain ⟨table, found, stop, hscan, hperm, -⟩ := h.scanned longBehind ⟨rfl, rfl⟩
  have hcount := scan_count hscan
  have hless := chunks_cut hf (Nat.lt_of_not_le hcut) longBehind rfl
  have hlen := hperm.length_eq
  rw [length_map] at hlen
  dsimp only at hcount
  omega

/-- The short entry of a name without an extension. -/
def shortFcb (name : List UInt8) (attr : UInt8) : List UInt8 :=
  name ++ List.replicate (11 - name.length) 0x20 ++ attr :: List.replicate 20 0

theorem Record.of_short {fcb name : List UInt8} (h : travel_fcb [] fcb = .ok ([], .file name false)) :
    Record [] [fcb] name := .short h

/-- A directory with one file in it, besides itself and its parent. -/
def oneFile : Directory where
  dp :=
    { cluster_size := 4096
      entries := [shortFcb [0x2E] ATTR_DIRECTORY, shortFcb [0x2E, 0x2E] ATTR_DIRECTORY, shortFcb [0x41] ATTR_ARCHIVE]
      i_hash := none
      off_hint := 0 }
  items :=
    [.file [shortFcb [0x2E] ATTR_DIRECTORY] [0x2E] (Record.of_short rfl),
      .file [shortFcb [0x2E, 0x2E] ATTR_DIRECTORY] [0x2E, 0x2E] (Record.of_short rfl),
      .file [shortFcb [0x41] ATTR_ARCHIVE] [0x41] (Record.of_short rfl)]
  zeros := []
  entries_eq := rfl
  zeros_free := fun _ h => absurd h not_mem_nil
  packed := by decide

/-- The three entries of it, each behind the record of the one before. -/
theorem trav_in_place_oneFile : ∃ tc : trav_control,
    fat32_inode_general_trav (passOn fun table _ _ => table) longBehind 3
      { travStart oneFile.dp 96 longBehind with mem := kbuf oneFile.dp 96 longBehind } = .ok (tc, false) ∧
    tc.nreads = 64 ∧ InPlace (kbuf oneFile.dp 96 longBehind) tc := by
  refine ⟨_, rfl, rfl, ?_⟩
  exact (trav_in_place (kbuf oneFile.dp 96 longBehind) oneFile.dp 96 longBehind (fun table _ _ => table) 3 _ false rfl).2

end LostWakeup.Fs.Fat32.Getdents
