/-
# LostWakeup.Fs.Fat32.NameBuffers — the arrays that names are copied into.

A name is copied into the caller's `name`, into `name_search`, `name_buf`, `key_name` and `fname`, and in parts into
`file_name` and `file_ext`.  Each operation is modelled by its copies: the array after each, and the name it is to hold.
`names_kept_iff` says when each copy stays in its array and has the whole name there, with a NUL behind it.

An access past the end of an array, or to one that was never set, has no outcome.
-/
import LostWakeup.Fs.Vfs.Namex
import LostWakeup.Fs.Fat32.ShortName

namespace LostWakeup.Fs.Fat32.NameBuffers

open Lib.Strings Lib.Hash Fs.Fat32.LongName
open Fs.Fat32.ShortName (str_toupper Locals Terminated Plain)
open Fs.Vfs (MAXPATH slash)
open List (length_append length_drop not_mem_nil replicate)
open Option (bind_some map_some)

/-! ## Names and where they are stored -/

def NAME_LONG_MAX : Nat := 255

def PATH_LONG_MAX : Nat := 260

/-- A file name as a C string. -/
structure FileName extends CString where
  nonempty : bytes ≠ []

/-- A component of a path. -/
structure Component extends FileName where
  short : bytes.length < MAXPATH

/-- A path that a system call accepts. -/
structure Path extends CString where
  short : bytes.length < MAXPATH

def units (e : dirent_l_t) : List UInt16 := e.LDIR_Name1 ++ e.LDIR_Name2 ++ e.LDIR_Name3

/-- What stands behind the units of a name in its last entry. -/
def pad (us : List UInt16) : List UInt16 :=
  if us.length = FAT_LFN_LENGTH then [] else 0 :: replicate (FAT_LFN_LENGTH - 1 - us.length) 0xFFFF

/-- The long entries of a name from entry `i` on, in the order of the name. -/
inductive LongRun (sum : UInt8) : Nat → List dirent_l_t → List UInt16 → Prop
  | last {i : Nat} {e : dirent_l_t} {us : List UInt16} : us ≠ [] → us.length ≤ FAT_LFN_LENGTH →
      units e = us ++ pad us → e.LDIR_Ord = UInt8.ofNat (i ||| LAST_LONG_ENTRY) → e.LDIR_Chksum = sum →
      LongRun sum i [e] us
  | cons {i : Nat} {e : dirent_l_t} {es : List dirent_l_t} {us : List UInt16} :
      (units e).length = FAT_LFN_LENGTH → e.LDIR_Ord = UInt8.ofNat i → e.LDIR_Chksum = sum →
      LongRun sum (i + 1) es us → LongRun sum i (e :: es) (units e ++ us)

/-- A file on the disk: the units of its name, its long entries, and the name in its short entry. -/
structure File where
  name : List UInt16
  longs : List dirent_l_t
  short : List UInt8
  nonempty : name ≠ []
  valid : ∀ u ∈ name, LONG_NAME_CHAR_VALID u = true
  fits : name.length ≤ NAME_LONG_MAX
  eleven : short.length = 11
  stored : LongRun (ChkSum short) 1 longs name ∨
    longs = [] ∧ name = (fat32_short_name_parse short).map UInt8.toUInt16

/-- What a directory's scan meets: the table, and the files from the hint on with the offsets of their short entries. -/
structure Directory where
  i_hash : hash_table
  files : List (File × Nat)

/-- A caller's `name`: `NAME_LONG_MAX` bytes in `namei` and `sys_unlinkat`, `MAXPATH` bytes elsewhere. -/
structure NameArray where
  bytes : List UInt8
  size : bytes.length = NAME_LONG_MAX ∨ bytes.length = MAXPATH

/-- The arrays that are not set when they are copied into. -/
structure Memory where
  name_search : Vector UInt8 50
  key_name : List UInt8 → Vector UInt8 (NAME_LONG_MAX / 4)
  fname : Vector UInt8 NAME_LONG_MAX
  init : Locals

/-- An array after a copy, with the name that it is to hold. -/
structure Copied where
  name : List UInt16
  array : List UInt8

/-- The array has the whole name, with a NUL behind it. -/
def Copied.Holds (c : Copied) : Prop :=
  ∃ s rest, c.array = s ++ 0 :: rest ∧ s.map UInt8.toUInt16 = c.name

/-- The copy of a C string. -/
def Copied.ofString (name array : List UInt8) : Copied := ⟨name.map UInt8.toUInt16, array⟩

/-! ## The copies -/

/-- `skepelem`: the component in the caller's array, and the rest of the path. -/
def skepelem (name : List UInt8) (path : List UInt8) : Option (Option (Copied × List UInt8)) :=
  let path := path.dropWhile (· == slash)
  if path = [] then some none
  else
    let s := path.takeWhile (· != slash)
    let path := (path.dropWhile (· != slash)).dropWhile (· == slash)
    let moved :=
      if MAXPATH ≤ s.length then store name (s.take MAXPATH)
      else (store name s).bind fun name => if s.length < name.length then some (name.set s.length 0) else none
    moved.map fun name => some (.ofString s name, path)

/-- The components that the loop of `inode_namex` takes from a path, at most. -/
def namex_copies : Nat → List UInt8 → List UInt8 → Option (List Copied)
  | 0, _, _ => some []
  | fuel + 1, name, path =>
    match skepelem name path with
    | none => none
    | some none => some []
    | some (some (copy, path)) => (namex_copies fuel copy.array path).map (copy :: ·)

/-- `safestrcpy(array, name, strlen(name))`. -/
def copyName (array : List UInt8) (name : List UInt8) : Option Copied :=
  if name = [] then none
  else (safestrcpy array (name ++ [0]) name.length).map (Copied.ofString name)

/-- `fat32_inode_hash_insert`: a name that the table has is not copied. -/
def hash_copies (mem : Memory) (table : hash_table) (name : List UInt8) (off : Nat) :
    Option (List Copied × hash_table) :=
  match hash_lookup table name with
  | some _ => some ([], table)
  | none => (copyName (mem.key_name name).toList name).map fun key => ([key], hash_insert table name off)

/-- `fat32_inode_get`; `hit` says whether the inode is in memory. -/
def get_copies (mem : Memory) (name : List UInt8) (hit : Bool) : Option (List Copied) :=
  if hit then some [] else (copyName mem.fname.toList name).map ([·])

/-- The bytes that `fat32_short_name_parser` writes. -/
def shortBytes (DIR_Name : List UInt8) : List UInt8 :=
  (DIR_Name.take 8).filter (· != 0x20) ++
    (if chr DIR_Name 8 != 0x20 then 0x2E :: (DIR_Name.drop 8).filter (· != 0x20) else []) ++ [0]

/-- `name_buf` for a file.  The `memset` before clears as many bytes as a pointer has. -/
def fillNameBuf (name_buf : List UInt8) (f : File) : Option (List UInt8) :=
  (store name_buf (replicate 8 0)).bind fun name_buf =>
    match popLoop (ChkSum f.short) f.longs 1 [] with
    | .error _ => none
    | .ok (_, none) => store name_buf (shortBytes f.short)
    | .ok (_, some (buf, ord)) =>
      (store name_buf (buf ++ [0])).bind fun name_buf =>
        if LAST_LONG_ENTRY_BOOL ord then some name_buf else store name_buf (shortBytes f.short)

/-- The scan of `fat32_inode_dirlookup_with_hint`. -/
def scan (mem : Memory) (name_search : List UInt8) (hit : Bool) : hash_table → List UInt8 → List (File × Nat) →
    Option (List Copied)
  | _, _, [] => some []
  | table, name_buf, (f, off) :: files =>
    (fillNameBuf name_buf f).bind fun name_buf =>
      let name := cstring name_buf
      (if chr name_buf 0 ≠ 0x2E then hash_copies mem table name off else some ([], table)).bind fun (keys, table) =>
        (if strncmp name_search name_buf PATH_LONG_MAX = 0 then get_copies mem (cstring name_search) hit
        else scan mem name_search hit table name_buf files).map fun rest => ⟨f.name, name_buf⟩ :: (keys ++ rest)

/-- `fat32_inode_dirlookup`. -/
def dirlookup (mem : Memory) (dp : Directory) (name : Component) (hit : Bool) : Option (List Copied) :=
  match hash_lookup dp.i_hash name.bytes with
  | some _ => get_copies mem name.bytes hit
  | none =>
    (copyName mem.name_search.toList name.bytes).bind fun search =>
      (scan mem search.array hit dp.i_hash (replicate NAME_LONG_MAX 0) dp.files).map (search :: ·)

/-- The parts of a name, as `fat32_fcb_init` copies them; and `file_name`. -/
def part_copies (loc : Locals) (long_name : CString) (isDir : Bool) : Option (List Copied × List UInt8) :=
  if isDir then
    (strncpy loc.file_name.toList long_name.memory 11).map fun file_name =>
      ([.ofString long_name.bytes file_name], file_name)
  else
    match str_split long_name 0x2E loc.file_name.toList loc.file_ext.toList with
    | none => none
    | some none =>
      (strncpy loc.file_name.toList long_name.memory 8).map fun file_name =>
        ([.ofString long_name.bytes file_name], file_name)
    | some (some (file_name, file_ext)) =>
      some ([.ofString (long_name.bytes.takeWhile (· != 0x2E)) file_name,
        .ofString (long_name.bytes.dropWhile (· != 0x2E)).tail file_ext], file_name)

/-- `fat32_fcb_init`, with the name that `fat32_find_same_name_cnt` gets. -/
def fcb_copies (loc : Locals) (long_name : CString) (isDir : Bool) : Option (List Copied) :=
  if long_name.bytes = [0x2E] ∨ long_name.bytes = [0x2E, 0x2E] then some []
  else
    (part_copies loc long_name isDir).bind fun (parts, file_name) =>
      (str_toupper file_name).bind fun file_name =>
        if 8 < long_name.bytes.length then
          (copyName loc.tc.name_search.toList (cstring file_name)).map fun search => parts ++ [search]
        else some parts

/-- `fat32_inode_alloc`. -/
def alloc_copies (mem : Memory) (table : hash_table) (name : Component) (isDir : Bool) (off : Nat) (hit : Bool) :
    Option (List Copied) :=
  (fcb_copies mem.init name.toCString isDir).bind fun parts =>
    (hash_copies mem table name.bytes off).bind fun (keys, _) =>
      (get_copies mem name.bytes hit).map fun got => parts ++ keys ++ got

/-! ## What is wanted, and when it holds -/

/-- What a name goes through: the walk of a path, a lookup in a directory, the insertion into its table, and the creation
of a file. -/
inductive Op
  | walk (name : NameArray) (path : Path)
  | lookup (dp : Directory) (name : Component) (hit : Bool)
  | insert (i_hash : hash_table) (name : FileName) (off : Nat)
  | create (i_hash : hash_table) (name : Component) (isDir : Bool) (off : Nat) (hit : Bool)

def Op.copies (mem : Memory) : Op → Option (List Copied)
  | .walk name path => namex_copies (path.bytes.length + 1) name.bytes path.bytes
  | .lookup dp name hit => dirlookup mem dp name hit
  | .insert i_hash name off => (hash_copies mem i_hash name.bytes off).map Prod.fst
  | .create i_hash name isDir off hit => alloc_copies mem i_hash name isDir off hit

/-- The copies stay in their arrays and have the whole names there. -/
def Whole (x : Option (List Copied)) : Prop := ∃ copies, x = some copies ∧ ∀ c ∈ copies, c.Holds

/-- Whatever was in the arrays. -/
def Op.Law (op : Op) : Prop := ∀ mem, Whole (op.copies mem)

/-- The name in bytes. -/
def File.bytes (f : File) : List UInt8 := f.name.map LONG_NAME_CHAR_MASK

/-- A file's name has only characters of one byte, and `name_buf` has room for it and its NULs. -/
def File.Readable (f : File) : Prop :=
  (∀ u ∈ f.name, u.toNat < 256) ∧
    (f.longs = [] ∨ f.name.length + (if f.name.length % FAT_LFN_LENGTH = 0 then 1 else 2) ≤ NAME_LONG_MAX)

/-- The table has the name already, or there is room for it in a node. -/
def Keyed (table : hash_table) (name : List UInt8) : Prop :=
  (hash_lookup table name).isSome ∨ name.length < NAME_LONG_MAX / 4

/-- The table after `fat32_inode_hash_insert`. -/
def inserted (table : hash_table) (name : List UInt8) (off : Nat) : hash_table :=
  if (hash_lookup table name).isSome then table else hash_insert table name off

/-- The files up to the one of this name can be read and, unless they start with a dot, put into the table. -/
def ScanFits (name : List UInt8) : hash_table → List (File × Nat) → Prop
  | _, [] => True
  | table, (f, off) :: files =>
    f.Readable ∧ (chr f.bytes 0 ≠ 0x2E → Keyed table f.bytes) ∧
      (name ≠ f.bytes → ScanFits name (if chr f.bytes 0 ≠ 0x2E then inserted table f.bytes off else table) files)

/-- The table has a name of this hash, or the name has less than fifty bytes and the scan goes well; a name is put
into a table that has it, or in less than 63 bytes; and a new file's parts end in their arrays. -/
def Op.Fits : Op → Prop
  | .walk _ _ => True
  | .lookup dp name _ =>
    (hash_lookup dp.i_hash name.bytes).isSome ∨ name.bytes.length < 50 ∧ ScanFits name.bytes dp.i_hash dp.files
  | .insert i_hash name _ => Keyed i_hash name.bytes
  | .create _ name isDir _ _ => Plain name.toCString isDir

/-! ## Copies of strings -/

theorem holds_string (name rest : List UInt8) : (Copied.ofString name (name ++ 0 :: rest)).Holds :=
  ⟨name, rest, rfl, rfl⟩

theorem copyName_eq (array : List UInt8) {name : List UInt8} (hne : name ≠ []) (hnul : 0 ∉ name) :
    copyName array name = if name.length < array.length then
      some (.ofString name (name ++ 0 :: array.drop (name.length + 1))) else none := by
  rw [copyName, if_neg hne, safestrcpy_strlen array hnul, if_neg hne]
  split
  · rfl
  · rfl

theorem hash_copies_keyed (mem : Memory) {table : hash_table} {name : List UInt8} (hne : name ≠ []) (hnul : 0 ∉ name)
    (off : Nat) (h : Keyed table name) :
    ∃ keys, hash_copies mem table name off = some (keys, inserted table name off) ∧ ∀ c ∈ keys, c.Holds := by
  rcases hfound : hash_lookup table name with _ | node
  · rcases h with h | h
    · rw [hfound] at h
      cases h
    refine ⟨[.ofString name (name ++ 0 :: (mem.key_name name).toList.drop (name.length + 1))], ?_, ?_⟩
    · rw [hash_copies, hfound, inserted, hfound, copyName_eq _ hne hnul, Vector.length_toList]
      simp only [if_pos h, map_some, Option.isSome_none, Bool.false_eq_true, if_false]
    · exact List.forall_mem_singleton.mpr (holds_string _ _)
  · refine ⟨[], ?_, fun c hc => absurd hc not_mem_nil⟩
    rw [hash_copies, hfound, inserted, hfound]
    rfl

theorem hash_copies_overrun (mem : Memory) {table : hash_table} {name : List UInt8} (hne : name ≠ []) (hnul : 0 ∉ name)
    (off : Nat) (h : ¬ Keyed table name) : hash_copies mem table name off = none := by
  rw [Keyed, not_or, Bool.not_eq_true, Option.isSome_eq_false_iff, Option.isNone_iff_eq_none] at h
  rw [hash_copies, h.1]
  simp only [copyName_eq _ hne hnul, Vector.length_toList, if_neg h.2, Option.map_none]

theorem get_copies_holds (mem : Memory) {name : List UInt8} (hne : name ≠ []) (hnul : 0 ∉ name) (hit : Bool)
    (h : name.length < NAME_LONG_MAX) : Whole (get_copies mem name hit) := by
  rcases hit with _ | _
  · refine ⟨[.ofString name (name ++ 0 :: mem.fname.toList.drop (name.length + 1))], ?_, ?_⟩
    · rw [get_copies, copyName_eq _ hne hnul, Vector.length_toList, if_pos h]
      rfl
    · exact List.forall_mem_singleton.mpr (holds_string _ _)
  · exact ⟨[], rfl, fun c hc => absurd hc not_mem_nil⟩

/-! ## The walk of a path -/

theorem skepelem_holds {name path : List UInt8} (hname : MAXPATH ≤ name.length) (hpath : path.length < MAXPATH) :
    skepelem name path = some none ∨ ∃ copy rest, skepelem name path = some (some (copy, rest)) ∧ copy.Holds ∧
      copy.array.length = name.length ∧ rest.length < MAXPATH := by
  unfold skepelem
  have hle := List.length_dropWhile_le (· == slash) path
  generalize path.dropWhile (· == slash) = p at hle ⊢
  dsimp only
  by_cases hp : p = []
  · rw [if_pos hp]
    exact .inl rfl
  rw [if_neg hp]
  refine .inr ?_
  have hs := (List.takeWhile_prefix (· != slash) (l := p)).length_le
  have h1 := List.length_dropWhile_le (· != slash) p
  have h2 := List.length_dropWhile_le (· == slash) (p.dropWhile (· != slash))
  generalize p.takeWhile (· != slash) = c at hs ⊢
  have hstore : store name c = some (c ++ name.drop c.length) := if_pos (by omega)
  have hlen : (c ++ name.drop c.length).length = name.length := by
    rw [length_append, length_drop]
    omega
  rw [if_neg (by omega), hstore, bind_some, if_pos (by omega)]
  refine ⟨_, _, rfl, ⟨c, name.drop (c.length + 1), ?_, rfl⟩, ?_, by omega⟩
  · obtain ⟨b, rest, hrest⟩ : ∃ b rest, name.drop c.length = b :: rest :=
      List.exists_cons_of_ne_nil fun h => by
        rw [List.drop_eq_nil_iff] at h
        omega
    have htail : name.drop (c.length + 1) = rest := by
      rw [← List.tail_drop, hrest, List.tail_cons]
    change (c ++ name.drop c.length).set c.length 0 = _
    rw [hrest, htail, List.set_append_right c.length _ le_rfl, Nat.sub_self, List.set_cons_zero]
  · change ((c ++ name.drop c.length).set c.length 0).length = _
    rw [List.length_set, hlen]

theorem namex_holds {fuel : Nat} {name path : List UInt8} (hname : MAXPATH ≤ name.length)
    (hpath : path.length < MAXPATH) : Whole (namex_copies fuel name path) := by
  induction fuel generalizing name path with
  | zero => exact ⟨[], rfl, fun c hc => absurd hc not_mem_nil⟩
  | succ fuel ih =>
    rw [namex_copies]
    rcases skepelem_holds hname hpath with hnone | ⟨copy, rest, hsome, hholds, hlen, hrest⟩
    · rw [hnone]
      exact ⟨[], rfl, fun c hc => absurd hc not_mem_nil⟩
    obtain ⟨copies, hcopies, hall⟩ := ih (hlen ▸ hname) hrest
    rw [hsome]
    refine ⟨copy :: copies, ?_, List.forall_mem_cons.mpr ⟨hholds, hall⟩⟩
    dsimp only
    rw [hcopies, map_some]

/-! ## A file's name in `name_buf` -/

theorem filterUnits_valid {us : List UInt16} (h : ∀ u ∈ us, LONG_NAME_CHAR_VALID u = true) :
    filterUnits us = (us.map LONG_NAME_CHAR_MASK, false) := by
  induction us with
  | nil => rfl
  | cons u us ih =>
    rw [List.forall_mem_cons] at h
    rw [filterUnits, if_pos h.1, ih h.2, List.map_cons]

theorem filterUnits_ended {us : List UInt16} (h : ∀ u ∈ us, LONG_NAME_CHAR_VALID u = true) (r : List UInt16) :
    filterUnits (us ++ 0 :: r) = (us.map LONG_NAME_CHAR_MASK ++ [0], true) := by
  rw [filterUnits_append, filterUnits_valid h]
  rfl

/-- What follows the units in the copy. -/
def ending (us : List UInt16) : List UInt8 := if us.length % FAT_LFN_LENGTH = 0 then [] else [0]

theorem longRun_ne_nil {sum : UInt8} {i : Nat} {es : List dirent_l_t} {us : List UInt16} (h : LongRun sum i es us) :
    es ≠ [] := by
  rcases h with _ | _
  · exact List.cons_ne_nil _ _
  · exact List.cons_ne_nil _ _

theorem longRun_length {sum : UInt8} {i : Nat} {es : List dirent_l_t} {us : List UInt16} (h : LongRun sum i es us) :
    FAT_LFN_LENGTH * (es.length - 1) < us.length := by
  induction h with
  | last hne => exact List.length_pos_iff.mpr hne
  | @cons i e es us hlen _ _ hrest ih =>
    have hpos := List.length_pos_iff.mpr (longRun_ne_nil hrest)
    rw [length_append, hlen, List.length_cons]
    unfold FAT_LFN_LENGTH at *
    omega

theorem filter_last {e : dirent_l_t} {us : List UInt16} (hne : us ≠ []) (hle : us.length ≤ FAT_LFN_LENGTH)
    (hunits : units e = us ++ pad us) (hvalid : ∀ u ∈ us, LONG_NAME_CHAR_VALID u = true) :
    fat32_filter_longname e = us.map LONG_NAME_CHAR_MASK ++ ending us := by
  have hu : e.LDIR_Name1 ++ e.LDIR_Name2 ++ e.LDIR_Name3 = us ++ pad us := hunits
  have hpos := List.length_pos_iff.mpr hne
  rw [filter_eq, hu, pad, ending]
  by_cases hfull : us.length = FAT_LFN_LENGTH
  · rw [if_pos hfull, List.append_nil, filterUnits_valid hvalid, hfull, Nat.mod_self, if_pos rfl, List.append_nil]
  · rw [if_neg hfull, filterUnits_ended hvalid, Nat.mod_eq_of_lt (by omega), if_neg (by omega)]

theorem filter_full {e : dirent_l_t} (hvalid : ∀ u ∈ units e, LONG_NAME_CHAR_VALID u = true) :
    fat32_filter_longname e = (units e).map LONG_NAME_CHAR_MASK := by
  have hu : e.LDIR_Name1 ++ e.LDIR_Name2 ++ e.LDIR_Name3 = units e := rfl
  rw [filter_eq, hu, filterUnits_valid hvalid]

theorem ending_full {vs us : List UInt16} (h : vs.length = FAT_LFN_LENGTH) : ending (vs ++ us) = ending us := by
  rw [ending, ending, length_append, h, Nat.add_mod_left]

/-- Popping the entries writes the units' low bytes. -/
theorem popLoop_run {sum : UInt8} {i : Nat} {es : List dirent_l_t} {us : List UInt16} (h : LongRun sum i es us)
    (hvalid : ∀ u ∈ us, LONG_NAME_CHAR_VALID u = true) (buf : List UInt8) :
    popLoop sum es (UInt8.ofNat i) buf = .ok ([], some (buf ++ us.map LONG_NAME_CHAR_MASK ++ ending us,
      UInt8.ofNat ((i + es.length - 1) ||| LAST_LONG_ENTRY))) := by
  induction h generalizing buf with
  | @last i e us hne hle hunits hord hsum =>
    rw [popLoop_last sum _ buf hsum, filter_last hne hle hunits hvalid, hord, List.append_assoc]
    rfl
  | @cons i e es us hlen hord hsum hrest ih =>
    rw [List.forall_mem_append] at hvalid
    have hnext : UInt8.ofNat i + 1 = UInt8.ofNat (i + 1) := by simp
    have hidx : i + 1 + es.length - 1 = i + (e :: es).length - 1 := by
      rw [List.length_cons]
      omega
    rw [popLoop_cons buf (longRun_ne_nil hrest) hord hsum, hnext, ih hvalid.2, filter_full hvalid.1, ending_full hlen, hidx,
      List.map_append]
    simp only [List.append_assoc]

theorem mask_byte (b : UInt8) : LONG_NAME_CHAR_MASK b.toUInt16 = b := by
  rcases b with ⟨⟨i⟩⟩
  revert i
  decide +kernel

theorem unit_byte {u : UInt16} (h : u.toNat < 256) : (LONG_NAME_CHAR_MASK u).toUInt16 = u := by
  have hu : u.toUInt8.toUInt16 = u := by
    apply UInt16.toNat_inj.mp
    rw [UInt8.toNat_toUInt16, UInt16.toNat_toUInt8]
    exact Nat.mod_eq_of_lt h
  calc (LONG_NAME_CHAR_MASK u).toUInt16
      = (LONG_NAME_CHAR_MASK u.toUInt8.toUInt16).toUInt16 := by rw [hu]
    _ = u.toUInt8.toUInt16 := by rw [mask_byte]
    _ = u := hu

theorem map_bytes {us : List UInt16} (h : ∀ u ∈ us, u.toNat < 256) :
    (us.map LONG_NAME_CHAR_MASK).map UInt8.toUInt16 = us := by
  rw [List.map_map]
  exact (List.map_congr_left fun u hu => unit_byte (h u hu)).trans (List.map_id us)

theorem units_small {s : List UInt8} {us : List UInt16} (h : s.map UInt8.toUInt16 = us) : ∀ u ∈ us, u.toNat < 256 := by
  intro u hu
  rw [← h] at hu
  obtain ⟨b, -, rfl⟩ := List.mem_map.mp hu
  rw [UInt8.toNat_toUInt16]
  exact b.toNat_lt

theorem cstring_split {buf : List UInt8} (h : 0 ∈ buf) : ∃ rest, buf = cstring buf ++ 0 :: rest := by
  obtain ⟨p, r, rfl, hp⟩ := List.eq_append_cons_of_mem h
  exact ⟨r, by rw [cstring_append hp]⟩

theorem shortBytes_length {DIR_Name : List UInt8} (h : DIR_Name.length = 11) :
    (shortBytes DIR_Name).length ≤ NAME_LONG_MAX := by
  have hbase := List.length_filter_le (· != 0x20) (DIR_Name.take 8)
  have hext := List.length_filter_le (· != 0x20) (DIR_Name.drop 8)
  rw [List.length_take] at hbase
  rw [length_drop] at hext
  rw [shortBytes, length_append, length_append, List.length_singleton]
  unfold NAME_LONG_MAX
  split
  · rw [List.length_cons]
    omega
  · rw [List.length_nil]
    omega

section

variable {f : File} {name_buf : List UInt8}

/-- The bytes that are written for a file. -/
def written (f : File) : List UInt8 := if f.longs = [] then shortBytes f.short else f.bytes ++ ending f.name ++ [0]

theorem fillNameBuf_eq (f : File) (hbuf : name_buf.length = NAME_LONG_MAX) :
    fillNameBuf name_buf f = store (replicate 8 0 ++ name_buf.drop 8) (written f) := by
  have hclear : store name_buf (replicate 8 0) = some (replicate 8 0 ++ name_buf.drop 8) := by
    rw [store, List.length_replicate, if_pos (by rw [hbuf]; decide)]
  rw [fillNameBuf, hclear, bind_some, written]
  rcases f.stored with hrun | ⟨hlongs, -⟩
  · have hlast : LAST_LONG_ENTRY_BOOL (UInt8.ofNat ((1 + f.longs.length - 1) ||| LAST_LONG_ENTRY)) = true := by
      have hlen := longRun_length hrun
      have hfits := f.fits
      refine last_ord_bool _ ?_
      unfold FAT_LFN_LENGTH NAME_LONG_MAX at *
      omega
    have hpop := popLoop_run hrun f.valid []
    rw [if_neg (longRun_ne_nil hrun)]
    change popLoop _ _ 1 [] = _ at hpop
    rw [hpop]
    simp only [List.nil_append, if_pos hlast]
    exact Option.bind_fun_some _
  · rw [if_pos hlongs, hlongs]
    rfl

theorem fillNameBuf_room (hbuf : name_buf.length = NAME_LONG_MAX) (hroom : (written f).length ≤ NAME_LONG_MAX) :
    ∃ rest, fillNameBuf name_buf f = some (written f ++ rest) ∧ (written f ++ rest).length = NAME_LONG_MAX := by
  have hlen : (replicate 8 (0 : UInt8) ++ name_buf.drop 8).length = NAME_LONG_MAX := by
    rw [length_append, List.length_replicate, length_drop, hbuf]
    decide
  rw [fillNameBuf_eq f hbuf, store, if_pos (hlen.symm ▸ hroom)]
  refine ⟨_, rfl, ?_⟩
  rw [length_append, length_drop, hlen]
  omega

theorem fillNameBuf_overrun (hbuf : name_buf.length = NAME_LONG_MAX) (hroom : ¬ (written f).length ≤ NAME_LONG_MAX) :
    fillNameBuf name_buf f = none := by
  have hlen : (replicate 8 (0 : UInt8) ++ name_buf.drop 8).length = NAME_LONG_MAX := by
    rw [length_append, List.length_replicate, length_drop, hbuf]
    decide
  rw [fillNameBuf_eq f hbuf, store, if_neg (hlen.symm ▸ hroom)]

theorem written_long (h : f.longs ≠ []) : ∃ rest, written f = f.bytes ++ 0 :: rest := by
  rw [written, if_neg h, ending]
  split
  · exact ⟨[], by simp⟩
  · exact ⟨[0], by simp⟩

theorem long_length (h : f.longs ≠ []) :
    (written f).length = f.name.length + (if f.name.length % FAT_LFN_LENGTH = 0 then 1 else 2) := by
  rw [written, if_neg h, ending, length_append, length_append, File.bytes, List.length_map]
  split
  · rfl
  · rfl

theorem short_name (h : f.longs = []) : f.name = (cstring (shortBytes f.short)).map UInt8.toUInt16 := by
  rcases f.stored with hrun | ⟨-, hname⟩
  · exact absurd h (longRun_ne_nil hrun)
  · exact hname

theorem bytes_of_string {s : List UInt8} (h : f.name = s.map UInt8.toUInt16) : f.bytes = s := by
  rw [File.bytes, h, List.map_map]
  exact (List.map_congr_left fun b _ => mask_byte b).trans (List.map_id s)

theorem readable_string (h : f.Readable) : f.bytes.map UInt8.toUInt16 = f.name ∧ 0 ∉ f.bytes ∧ f.bytes ≠ [] := by
  refine ⟨map_bytes h.1, fun h0 => ?_, fun hnil => f.nonempty (List.map_eq_nil_iff.mp hnil)⟩
  obtain ⟨u, hu, hmask⟩ := List.mem_map.mp h0
  have hzero := unit_byte (h.1 u hu)
  rw [hmask] at hzero
  have hvalid := f.valid u hu
  rw [← hzero] at hvalid
  cases hvalid

/-- A readable file's name is whole in the buffer. -/
theorem readable_filled (hbuf : name_buf.length = NAME_LONG_MAX) (h : f.Readable) :
    ∃ rest, fillNameBuf name_buf f = some (f.bytes ++ 0 :: rest) ∧ (f.bytes ++ 0 :: rest).length = NAME_LONG_MAX := by
  by_cases hlongs : f.longs = []
  · have hname := short_name hlongs
    have hwritten : written f = shortBytes f.short := if_pos hlongs
    obtain ⟨rest, hfill, htotal⟩ := fillNameBuf_room hbuf (hwritten ▸ shortBytes_length f.eleven)
    obtain ⟨tail, htail⟩ := @cstring_split (shortBytes f.short) (by simp [shortBytes])
    rw [hwritten, htail, List.append_assoc, List.cons_append, ← bytes_of_string hname] at hfill htotal
    exact ⟨tail ++ rest, hfill, htotal⟩
  · obtain ⟨tail, htail⟩ := written_long hlongs
    obtain ⟨rest, hfill, htotal⟩ := fillNameBuf_room hbuf
      ((long_length hlongs).symm ▸ h.2.resolve_left hlongs)
    rw [htail, List.append_assoc, List.cons_append] at hfill htotal
    exact ⟨tail ++ rest, hfill, htotal⟩

theorem unreadable_filled (hbuf : name_buf.length = NAME_LONG_MAX) (h : ¬ f.Readable) :
    fillNameBuf name_buf f = none ∨
      ∃ array, fillNameBuf name_buf f = some array ∧ ¬ (Copied.mk f.name array).Holds := by
  by_cases hlongs : f.longs = []
  · exact absurd ⟨units_small (short_name hlongs).symm, .inl hlongs⟩ h
  by_cases hroom : (written f).length ≤ NAME_LONG_MAX
  · obtain ⟨rest, hfill, -⟩ := fillNameBuf_room hbuf hroom
    refine .inr ⟨_, hfill, ?_⟩
    rintro ⟨s, after, harray, hs⟩
    exact h ⟨units_small hs, .inr (long_length hlongs ▸ hroom)⟩
  · exact .inl (fillNameBuf_overrun hbuf hroom)

end

/-! ## The scan of a directory -/

theorem whole_none : ¬ Whole none := by
  rintro ⟨copies, hcopies, -⟩
  cases hcopies

theorem whole_cons_iff {c : Copied} {keys : List Copied} {x : Option (List Copied)} (hkeys : ∀ k ∈ keys, k.Holds) :
    Whole (x.map fun rest => c :: (keys ++ rest)) ↔ c.Holds ∧ Whole x := by
  constructor
  · rintro ⟨copies, hcopies, hall⟩
    obtain ⟨rest, hx, rfl⟩ := Option.map_eq_some_iff.mp hcopies
    rw [List.forall_mem_cons, List.forall_mem_append] at hall
    exact ⟨hall.1, rest, hx, hall.2.2⟩
  · rintro ⟨hc, rest, rfl, hall⟩
    exact ⟨_, rfl, List.forall_mem_cons.mpr ⟨hc, List.forall_mem_append.mpr ⟨hkeys, hall⟩⟩⟩

variable {f : File} {name_buf : List UInt8}

/-- The insertion of a scanned file. -/
theorem scan_keyed (mem : Memory) (table : hash_table) (off : Nat) (hread : f.Readable) :
    ((chr f.bytes 0 ≠ 0x2E → Keyed table f.bytes) → ∃ keys,
      (if chr f.bytes 0 ≠ 0x2E then hash_copies mem table f.bytes off else some ([], table)) =
        some (keys, if chr f.bytes 0 ≠ 0x2E then inserted table f.bytes off else table) ∧ ∀ c ∈ keys, c.Holds) ∧
    (¬ (chr f.bytes 0 ≠ 0x2E → Keyed table f.bytes) →
      (if chr f.bytes 0 ≠ 0x2E then hash_copies mem table f.bytes off else some ([], table)) = none) := by
  obtain ⟨-, hnul, hne⟩ := readable_string hread
  by_cases hdot : chr f.bytes 0 ≠ 0x2E
  · simp only [if_pos hdot]
    exact ⟨fun h => hash_copies_keyed mem hne hnul off (h hdot),
      fun h => hash_copies_overrun mem hne hnul off fun hkeyed => h fun _ => hkeyed⟩
  · simp only [if_neg hdot]
    refine ⟨fun _ => ⟨[], rfl, fun c hc => absurd hc not_mem_nil⟩, fun h => ?_⟩
    exact absurd (fun hne => absurd hne hdot) h

/-- The scan stays in its arrays exactly if each file up to the one that it looks for lets it. -/
theorem scan_copies_iff (mem : Memory) {name : List UInt8} (hne : name ≠ []) (hnul : 0 ∉ name)
    (hlen : name.length < NAME_LONG_MAX) (rest : List UInt8) (hit : Bool) {table : hash_table} {files : List (File × Nat)}
    (hbuf : name_buf.length = NAME_LONG_MAX) :
    Whole (scan mem (name ++ 0 :: rest) hit table name_buf files) ↔ ScanFits name table files := by
  induction files generalizing table name_buf with
  | nil => exact ⟨fun _ => trivial, fun _ => ⟨[], rfl, fun c hc => absurd hc not_mem_nil⟩⟩
  | cons file files ih =>
    obtain ⟨f, off⟩ := file
    rw [ScanFits]
    by_cases hread : f.Readable
    · obtain ⟨after, hfill, htotal⟩ := readable_filled hbuf hread
      obtain ⟨hunits, hnul', hne'⟩ := readable_string hread
      have hholds : (Copied.mk f.name (f.bytes ++ 0 :: after)).Holds := ⟨f.bytes, after, rfl, hunits⟩
      have hchr : chr (f.bytes ++ 0 :: after) 0 = chr f.bytes 0 := by
        obtain ⟨b, bs, hb⟩ := List.exists_cons_of_ne_nil hne'
        rw [hb]
        rfl
      have hshort : f.bytes.length < PATH_LONG_MAX := by
        have hfits := f.fits
        rw [File.bytes, List.length_map]
        exact hfits.trans_lt (by decide)
      obtain ⟨hkeyed, hunkeyed⟩ := scan_keyed mem table off hread
      rw [scan, hfill, bind_some]
      simp only [hchr, cstring_append hnul', cstring_append hnul, strncmp_strings hnul hnul' rest after hshort]
      rw [and_iff_right hread]
      by_cases hkey : chr f.bytes 0 ≠ 0x2E → Keyed table f.bytes
      · obtain ⟨keys, hkeys, hall⟩ := hkeyed hkey
        rw [hkeys, bind_some, and_iff_right hkey, whole_cons_iff hall, and_iff_right hholds]
        by_cases hsame : name = f.bytes
        · rw [if_pos hsame]
          exact ⟨fun _ h => absurd hsame h, fun _ => get_copies_holds mem hne hnul hit hlen⟩
        · rw [if_neg hsame, ih htotal]
          exact ⟨fun h _ => h, fun h => h hsame⟩
      · rw [hunkeyed hkey]
        exact ⟨fun h => absurd h whole_none, fun h => absurd h.1 hkey⟩
    · refine ⟨fun h => ?_, fun h => absurd h.1 hread⟩
      rcases unreadable_filled hbuf hread with hnone | ⟨array, hfill, hlost⟩
      · rw [scan, hnone] at h
        exact absurd h whole_none
      obtain ⟨copies, hcopies, hall⟩ := h
      rw [scan, hfill, bind_some] at hcopies
      obtain ⟨keys, -, hrest⟩ := Option.bind_eq_some_iff.mp hcopies
      obtain ⟨more, -, rfl⟩ := Option.map_eq_some_iff.mp hrest
      exact absurd (hall _ List.mem_cons_self) hlost

/-! ## The lookup, and the creation of a file -/

theorem lookup_iff (mem : Memory) (dp : Directory) (name : Component) (hit : Bool) :
    Whole (dirlookup mem dp name hit) ↔ (Op.lookup dp name hit).Fits := by
  have hlen : name.bytes.length < NAME_LONG_MAX := Nat.lt_of_lt_of_le name.short (by decide)
  rw [dirlookup, Op.Fits]
  rcases hfound : hash_lookup dp.i_hash name.bytes with _ | node
  · dsimp only
    rw [copyName_eq _ name.nonempty name.nul_free, Vector.length_toList]
    by_cases hroom : name.bytes.length < 50
    · rw [if_pos hroom, bind_some]
      have hsearch := holds_string name.bytes (mem.name_search.toList.drop (name.bytes.length + 1))
      refine ((@whole_cons_iff (.ofString name.bytes _) [] _ fun k hk => absurd hk not_mem_nil).trans
        (and_iff_right hsearch)).trans ?_
      refine (scan_copies_iff mem name.nonempty name.nul_free hlen _ hit List.length_replicate).trans ?_
      simp [hroom]
    · rw [if_neg hroom]
      refine ⟨fun h => absurd h whole_none, fun h => ?_⟩
      rcases h with h | h
      · cases h
      · exact absurd h.1 hroom
  · exact ⟨fun _ => .inl rfl, fun _ => get_copies_holds mem name.nonempty name.nul_free hit hlen⟩

theorem insert_iff (mem : Memory) (table : hash_table) (name : FileName) (off : Nat) :
    Whole ((hash_copies mem table name.bytes off).map Prod.fst) ↔ Keyed table name.bytes := by
  constructor
  · intro h
    by_contra hkeyed
    rw [hash_copies_overrun mem name.nonempty name.nul_free off hkeyed] at h
    exact absurd h whole_none
  · intro h
    obtain ⟨keys, hkeys, hall⟩ := hash_copies_keyed mem name.nonempty name.nul_free off h
    exact ⟨keys, by rw [hkeys, map_some], hall⟩

theorem part_copies_terminated (loc : Locals) {name : CString} {isDir : Bool} (h : Terminated name isDir) :
    ∃ rest, part_copies loc name isDir =
      some ([.ofString name.bytes (name.bytes ++ 0 :: rest)], name.bytes ++ 0 :: rest) := by
  rcases h with ⟨rfl, hlen⟩ | ⟨rfl, hdot, hlen⟩
  · obtain ⟨rest, hcopy⟩ := ShortName.strncpy_short (n := 11) (Nat.lt_succ_of_le hlen) (s := loc.file_name.toList)
      (by rw [Vector.length_toList]; decide)
    exact ⟨rest, by rw [part_copies, if_pos rfl, hcopy, map_some]⟩
  obtain ⟨rest, hcopy⟩ := ShortName.strncpy_short (n := 8) (Nat.lt_succ_of_le hlen) (s := loc.file_name.toList)
    (by rw [Vector.length_toList]; decide)
  refine ⟨rest, ?_⟩
  rw [part_copies, if_neg (by decide), str_split_missing hdot]
  dsimp only
  rw [hcopy, map_some]

theorem terminated_length {name : CString} {isDir : Bool} (h : Plain name isDir) : name.bytes.length ≤ 10 := by
  rcases h with (hdot | hdots) | ⟨-, hlen⟩ | ⟨-, -, hlen⟩
  · rw [hdot]
    decide
  · rw [hdots]
    decide
  · exact hlen
  · omega

theorem fcb_copies_plain (loc : Locals) {name : CString} {isDir : Bool} (h : Plain name isDir) :
    Whole (fcb_copies loc name isDir) := by
  rw [fcb_copies]
  by_cases hdots : name.bytes = [0x2E] ∨ name.bytes = [0x2E, 0x2E]
  · rw [if_pos hdots]
    exact ⟨[], rfl, fun c hc => absurd hc not_mem_nil⟩
  obtain ⟨rest, hparts⟩ := part_copies_terminated loc (h.resolve_left hdots)
  have hupper := ShortName.upper_nul_free name.nul_free
  rw [if_neg hdots, hparts, bind_some]
  dsimp only
  rw [ShortName.str_toupper_append name.nul_free, bind_some, cstring_append hupper]
  by_cases hlong : 8 < name.bytes.length
  · have hne : name.bytes.map toupper ≠ [] := by
      intro hnil
      rw [List.map_eq_nil_iff.mp hnil] at hlong
      cases hlong
    have hroom : (name.bytes.map toupper).length < 50 := by
      rw [List.length_map]
      exact Nat.lt_of_le_of_lt (terminated_length h) (by decide)
    rw [if_pos hlong, copyName_eq _ hne hupper, Vector.length_toList, if_pos hroom, map_some]
    refine ⟨_, rfl, ?_⟩
    rw [List.singleton_append, List.forall_mem_cons, List.forall_mem_singleton]
    exact ⟨holds_string _ _, holds_string _ _⟩
  · rw [if_neg hlong]
    exact ⟨_, rfl, List.forall_mem_singleton.mpr (holds_string _ _)⟩

theorem not_holds_of_nul_free {name : List UInt16} {array : List UInt8} (h : 0 ∉ array) :
    ¬ (Copied.mk name array).Holds := by
  rintro ⟨s, rest, harray, -⟩
  change array = s ++ 0 :: rest at harray
  rw [harray] at h
  exact h (by simp)

/-- In arrays without a NUL another name has no end. -/
theorem part_copies_unterminated {loc : Locals} (hloc : 0 ∉ loc.file_name.toList) {name : CString} {isDir : Bool}
    (h : ¬ Terminated name isDir) {parts : List Copied} {file_name : List UInt8}
    (hparts : part_copies loc name isDir = some (parts, file_name)) : ∃ c ∈ parts, ¬ c.Holds := by
  have hdrop : ∀ (s : List UInt8) (k : Nat), 0 ∉ s → 0 ∉ s ++ loc.file_name.toList.drop k := by
    intro s k hs h0
    rcases List.mem_append.mp h0 with h0 | h0
    · exact hs h0
    · exact hloc (List.mem_of_mem_drop h0)
  rw [part_copies] at hparts
  rcases isDir with _ | _
  · rw [if_neg (by decide)] at hparts
    by_cases hdot : 0x2E ∈ name.bytes
    · obtain ⟨s, t, hst, hs⟩ := List.eq_append_cons_of_mem hdot
      have hs0 : 0 ∉ s := fun h0 => name.nul_free (hst ▸ List.mem_append_left _ h0)
      rw [str_split_found hst hs] at hparts
      rcases hstore : store loc.file_name.toList s with _ | first
      · rw [hstore] at hparts
        cases hparts
      rw [hstore, bind_some] at hparts
      rcases hstore' : store loc.file_ext.toList t with _ | second
      · rw [hstore'] at hparts
        cases hparts
      rw [hstore', map_some] at hparts
      obtain ⟨rfl, -⟩ := Prod.mk.inj (Option.some_inj.mp hparts)
      refine ⟨_, List.mem_cons_self, not_holds_of_nul_free ?_⟩
      unfold store at hstore
      split at hstore
      · rw [← Option.some_inj.mp hstore]
        exact hdrop s _ hs0
      · cases hstore
    · have hlen : 8 ≤ name.bytes.length := by
        by_contra hshort
        exact h (.inr ⟨rfl, hdot, by omega⟩)
      rw [str_split_missing hdot] at hparts
      dsimp only at hparts
      rw [ShortName.strncpy_long hlen (by rw [Vector.length_toList]; decide), map_some] at hparts
      obtain ⟨rfl, -⟩ := Prod.mk.inj (Option.some_inj.mp hparts)
      exact ⟨_, List.mem_cons_self, not_holds_of_nul_free (hdrop _ _ (ShortName.take_nul_free name 8))⟩
  · have hlen : 11 ≤ name.bytes.length := by
      by_contra hshort
      exact h (.inl ⟨rfl, by omega⟩)
    rw [if_pos rfl, ShortName.strncpy_long hlen (by rw [Vector.length_toList]; decide), map_some] at hparts
    obtain ⟨rfl, -⟩ := Prod.mk.inj (Option.some_inj.mp hparts)
    exact ⟨_, List.mem_cons_self, not_holds_of_nul_free (hdrop _ _ (ShortName.take_nul_free name 11))⟩

theorem create_plain (mem : Memory) (table : hash_table) {name : Component} {isDir : Bool} (off : Nat) (hit : Bool)
    (h : Plain name.toCString isDir) : Whole (alloc_copies mem table name isDir off hit) := by
  have hlen := terminated_length h
  have hkey : Keyed table name.bytes := .inr (hlen.trans_lt (by decide))
  obtain ⟨parts, hparts, hall⟩ := fcb_copies_plain mem.init h
  obtain ⟨keys, hkeys, hall'⟩ := hash_copies_keyed mem name.nonempty name.nul_free off hkey
  obtain ⟨got, hgot, hall''⟩ := get_copies_holds mem name.nonempty name.nul_free hit
    (hlen.trans_lt (by decide))
  refine ⟨parts ++ keys ++ got, ?_, ?_⟩
  · rw [alloc_copies, hparts, bind_some, hkeys, bind_some]
    dsimp only
    rw [hgot, map_some]
  · rw [List.forall_mem_append, List.forall_mem_append]
    exact ⟨⟨hall, hall'⟩, hall''⟩

theorem create_unplain {mem : Memory} (hmem : 0 ∉ mem.init.file_name.toList) (table : hash_table) {name : Component}
    {isDir : Bool} (off : Nat) (hit : Bool) (h : ¬ Plain name.toCString isDir) :
    ¬ Whole (alloc_copies mem table name isDir off hit) := by
  rintro ⟨copies, hcopies, hall⟩
  rw [Plain, not_or] at h
  obtain ⟨parts, hfcb, hrest⟩ := Option.bind_eq_some_iff.mp hcopies
  obtain ⟨keys, -, hgot⟩ := Option.bind_eq_some_iff.mp hrest
  obtain ⟨got, -, rfl⟩ := Option.map_eq_some_iff.mp hgot
  have hdots : ¬ (name.bytes = [0x2E] ∨ name.bytes = [0x2E, 0x2E]) := h.1
  rw [fcb_copies, if_neg hdots] at hfcb
  obtain ⟨⟨first, file_name⟩, hfirst, hupper⟩ := Option.bind_eq_some_iff.mp hfcb
  obtain ⟨c, hc, hlost⟩ := part_copies_unterminated hmem h.2 hfirst
  obtain ⟨upper, -, hsearch⟩ := Option.bind_eq_some_iff.mp hupper
  have hmem : c ∈ parts := by
    split at hsearch
    · obtain ⟨search, -, rfl⟩ := Option.map_eq_some_iff.mp hsearch
      exact List.mem_append_left _ hc
    · exact Option.some_inj.mp hsearch ▸ hc
  exact hlost (hall c (List.mem_append_left _ (List.mem_append_left _ hmem)))

/-! ## The law -/

/-- Arrays full of one byte. -/
def filled (c : UInt8) : Memory where
  name_search := .replicate 50 c
  key_name _ := .replicate (NAME_LONG_MAX / 4) c
  fname := .replicate NAME_LONG_MAX c
  init := ⟨c, .replicate 255 c, .replicate 4 c, ⟨.replicate 50 c, 0⟩⟩

theorem filled_nul_free : 0 ∉ (filled 0x41).init.file_name.toList := ShortName.filled_nul_free 255

theorem law_of_fits {op : Op} (h : op.Fits) : op.Law := by
  intro mem
  cases op with
  | walk name path =>
    refine namex_holds ?_ path.short
    rcases name.size with hsize | hsize
    · rw [hsize]
      decide
    · exact hsize.ge
  | lookup dp name hit => exact (lookup_iff mem dp name hit).mpr h
  | insert i_hash name off => exact (insert_iff mem i_hash name off).mpr h
  | create i_hash name isDir off hit => exact create_plain mem i_hash off hit h

theorem fits_of_law {op : Op} (h : op.Law) : op.Fits := by
  cases op with
  | walk name path => trivial
  | lookup dp name hit => exact (lookup_iff (filled 0x41) dp name hit).mp (h _)
  | insert i_hash name off => exact (insert_iff (filled 0x41) i_hash name off).mp (h _)
  | create i_hash name isDir off hit =>
    by_contra hplain
    exact create_unplain filled_nul_free i_hash off hit hplain (h _)

/-- **The copies of names are whole exactly where the names fit.** -/
theorem names_kept_iff (op : Op) : op.Law ↔ op.Fits := ⟨fits_of_law, law_of_fits⟩

/-- A component of so many letters. -/
def letters (n : Nat) (hpos : 0 < n) (h : n < MAXPATH) : Component where
  bytes := .replicate n 0x61
  nul_free h0 := absurd (List.eq_of_mem_replicate h0) (by decide)
  nonempty hnil := hpos.ne' (List.length_replicate.symm.trans (congrArg List.length hnil))
  short := List.length_replicate.trans_lt h

def a_c : Component where
  toCString := ShortName.a_c
  nonempty := List.cons_ne_nil _ _
  short := by decide

/-- A lookup of a name of fifty letters, the insertion of one of sixty-three, and the creation of `a.c`. -/
theorem names_lost : ¬ (Op.lookup ⟨hash_table_entry_init, []⟩ (letters 50 (by decide) (by decide)) false).Law ∧
    ¬ (Op.insert hash_table_entry_init (letters 63 (by decide) (by decide)).toFileName 0).Law ∧
    ¬ (Op.create hash_table_entry_init a_c false 0 false).Law := by
  refine ⟨fun h => ?_, fun h => ?_, fun h => ?_⟩
  · rcases fits_of_law h with hfound | hfits
    · cases hfound
    · exact absurd hfits.1 (by decide)
  · rcases fits_of_law h with hfound | hfits
    · cases hfound
    · exact absurd hfits (by decide)
  · rcases fits_of_law h with (hdot | hdots) | ⟨hdir, -⟩ | ⟨-, hdot, -⟩
    · cases hdot
    · cases hdots
    · cases hdir
    · exact hdot (by decide)

end LostWakeup.Fs.Fat32.NameBuffers
