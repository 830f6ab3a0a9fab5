/-
# LostWakeup.Fs.Fat32.LongName — directory entries: the long entries of a name and the scan that reads them back.

A name is stored as a run of long entries, thirteen UTF-16 units each, in front of a short entry.  The encoder writes
them in reverse, through a stack; the decoder pushes what it meets and pops at the short entry.  The two halves of the
proof meet at `longEntries`, the run in the order of the name.
-/
import Mathlib.Data.UInt
import Mathlib.Data.List.Basic

namespace LostWakeup.Fs.Fat32.LongName

/-! ## Directory entries -/

def FAT_LFN_LENGTH : Nat := 13

def ATTR_LONG_NAME : UInt8 := 0x0F
def ATTR_DIRECTORY : UInt8 := 0x10
def ATTR_ARCHIVE : UInt8 := 0x20
def LAST_LONG_ENTRY : Nat := 0x40

structure dirent_l_t where
  LDIR_Ord : UInt8
  LDIR_Name1 : List UInt16
  LDIR_Attr : UInt8
  LDIR_Type : UInt8
  LDIR_Chksum : UInt8
  LDIR_Name2 : List UInt16
  LDIR_Nlinks : UInt16
  LDIR_Name3 : List UInt16
  deriving DecidableEq

structure dirent_s_t where
  DIR_Name : List UInt8
  DIR_Attr : UInt8
  DIR_Dev : UInt8
  DIR_FstClusHI : UInt16
  DIR_FstClusLO : UInt16
  DIR_FileSize : UInt32
  deriving DecidableEq

/-- `name[i]` of a C string, or the byte `i` of an entry. -/
def chr (name : List UInt8) (i : Nat) : UInt8 := name.getD i 0

/-- The little-endian `uint16` at offset `i`. -/
def unitAt (fcb : List UInt8) (i : Nat) : UInt16 := (chr fcb i).toUInt16 + (chr fcb (i + 1)).toUInt16 * 256

def unitBytes (u : UInt16) : List UInt8 := [u.toUInt8, (u >>> 8).toUInt8]

namespace dirent_l_t

/-- The 32 bytes of the packed struct. -/
def bytes (e : dirent_l_t) : List UInt8 :=
  e.LDIR_Ord :: e.LDIR_Name1.flatMap unitBytes ++ [e.LDIR_Attr, e.LDIR_Type, e.LDIR_Chksum] ++
    e.LDIR_Name2.flatMap unitBytes ++ unitBytes e.LDIR_Nlinks ++ e.LDIR_Name3.flatMap unitBytes

/-- An entry of the directory, read as a long one. -/
def ofBytes (fcb : List UInt8) : dirent_l_t where
  LDIR_Ord := chr fcb 0
  LDIR_Name1 := [1, 3, 5, 7, 9].map (unitAt fcb)
  LDIR_Attr := chr fcb 11
  LDIR_Type := chr fcb 12
  LDIR_Chksum := chr fcb 13
  LDIR_Name2 := [14, 16, 18, 20, 22, 24].map (unitAt fcb)
  LDIR_Nlinks := unitAt fcb 26
  LDIR_Name3 := [28, 30].map (unitAt fcb)

end dirent_l_t

namespace dirent_s_t

/-- The 32 bytes of the packed struct; the times and dates are 0. -/
def bytes (e : dirent_s_t) : List UInt8 :=
  e.DIR_Name ++ [e.DIR_Attr, e.DIR_Dev, 0, 0, 0, 0, 0, 0, 0] ++ unitBytes e.DIR_FstClusHI ++
    ([0, 0, 0, 0] : List UInt8) ++ unitBytes e.DIR_FstClusLO ++ unitBytes e.DIR_FileSize.toUInt16 ++
    unitBytes (e.DIR_FileSize >>> 16).toUInt16

end dirent_s_t

inductive Panic
  | stack_overflow
  | check_sum_error
  | something_wrong_with_disk
  deriving DecidableEq

def LONG_NAME_BOOL (x : UInt8) : Bool := x ^^^ ATTR_LONG_NAME == 0

def NAME0_FREE_ONLY (x : UInt8) : Bool := x == 0xE5

def NAME0_FREE_ALL (x : UInt8) : Bool := x == 0x00

def LAST_LONG_ENTRY_BOOL (x : UInt8) : Bool := x &&& 0x40 != 0

def LONG_NAME_CHAR_MASK (x : UInt16) : UInt8 := (x &&& 0xFF).toUInt8

def LONG_NAME_CHAR_VALID (x : UInt16) : Bool := x != 0x0000 && x != 0xFFFF

def LONG_NAME_CHAR_SET (x : UInt8) : UInt16 := x.toUInt16 &&& 0x00FF

/-! ## The stack -/

def CAPACITY : Nat := 30

/-- `stack_push`; the top is the head of the list. -/
def stack_push (stack : List dirent_l_t) (item : dirent_l_t) : Except Panic (List dirent_l_t) :=
  if stack.length = CAPACITY then .error .stack_overflow else .ok (item :: stack)

/-! ## The encoder -/

/-- `ChkSum`, over the bytes of the short name. -/
def ChkSum (fcb_name : List UInt8) : UInt8 :=
  fcb_name.foldl (fun sum b => (if sum &&& 1 != 0 then (0x80 : UInt8) else 0) + (sum >>> 1) + b) 0

def toupper (c : UInt8) : UInt8 := if 0x61 ≤ c ∧ c ≤ 0x7A then c - 0x20 else c

/-- One of the three loops that fill the name fields of a long entry: the units, the new `char_idx` and
`end_flag`.  The entry was set to `0xFF` before. -/
def fillName (long_name : List UInt8) : Nat → Nat → Bool → List UInt16 × Nat × Bool
  | 0, char_idx, end_flag => ([], char_idx, end_flag)
  | n + 1, char_idx, true =>
    let (units, char_idx, end_flag) := fillName long_name n char_idx true
    (0xFFFF :: units, char_idx, end_flag)
  | n + 1, char_idx, false =>
    let c := chr long_name char_idx
    let end_flag := !(LONG_NAME_CHAR_VALID c.toUInt16)
    let (units, char_idx, end_flag) := fillName long_name n (char_idx + 1) end_flag
    (LONG_NAME_CHAR_SET c :: units, char_idx, end_flag)

/-- A long entry for the bytes from `char_idx` on, and the new `char_idx`. -/
def longEntry (long_name : List UInt8) (checksum ord : UInt8) (char_idx : Nat) : dirent_l_t × Nat :=
  let (name1, char_idx, end_flag) := fillName long_name 5 char_idx false
  let (name2, char_idx, end_flag) := fillName long_name 6 char_idx end_flag
  let (name3, char_idx, _) := fillName long_name 2 char_idx end_flag
  (⟨ord, name1, ATTR_LONG_NAME, 0, checksum, name2, 0, name3⟩, char_idx)

/-- The loop that pushes the long entries from number `i` on.  At the last one the macro
`LAST_LONG_ENTRY_SET` also overwrites the loop counter. -/
def pushLoop (long_name : List UInt8) (checksum : UInt8) (ord_max : Nat) :
    Nat → Nat → Nat → List dirent_l_t → Except Panic (List dirent_l_t)
  | 0, _, _, stack => .ok stack
  | fuel + 1, i, char_idx, stack =>
    if i ≤ ord_max then
      if char_idx = long_name.length then
        .ok stack
      else
        let i := if i = ord_max then i ||| LAST_LONG_ENTRY else i
        let (entry, char_idx) := longEntry long_name checksum (UInt8.ofNat i) char_idx
        match stack_push stack entry with
        | .error e => .error e
        | .ok stack => pushLoop long_name checksum ord_max fuel (i + 1) char_idx stack
    else
      .ok stack

/-! ## The decoder -/

/-- One of the three loops of `fat32_filter_longname`: the bytes it appends, and whether it returned. -/
def filterUnits : List UInt16 → List UInt8 × Bool
  | [] => ([], false)
  | x :: xs =>
    if LONG_NAME_CHAR_VALID x then
      (LONG_NAME_CHAR_MASK x :: (filterUnits xs).1, (filterUnits xs).2)
    else
      ([LONG_NAME_CHAR_MASK x], true)

def fat32_filter_longname (e : dirent_l_t) : List UInt8 :=
  let (a, returned) := filterUnits e.LDIR_Name1
  if returned then a
  else
    let (b, returned) := filterUnits e.LDIR_Name2
    if returned then a ++ b
    else a ++ b ++ (filterUnits e.LDIR_Name3).1

/-- The loop of `fat32_longname_popstack`: the stack it leaves and, unless it returned 0, the buffer and the order
byte popped last. -/
def popLoop (checksum : UInt8) : List dirent_l_t → UInt8 → List UInt8 →
    Except Panic (List dirent_l_t × Option (List UInt8 × UInt8))
  | [], _, _ => .ok ([], none)
  | e :: stack, cnt, buf =>
    if stack ≠ [] ∧ cnt ≠ e.LDIR_Ord then
      .ok (stack, none)
    else if e.LDIR_Chksum ≠ checksum then
      .error .check_sum_error
    else
      let buf := buf ++ fat32_filter_longname e
      match stack with
      | [] => .ok ([], some (buf, e.LDIR_Ord))
      | _ :: _ => popLoop checksum stack (cnt + 1) buf

/-- The number of bytes that `fat32_longname_popstack` writes to `name_buf`. -/
def written : List dirent_l_t → UInt8 → Nat
  | [], _ => 1
  | e :: stack, cnt =>
    if stack ≠ [] ∧ cnt ≠ e.LDIR_Ord then 0 else (fat32_filter_longname e).length + written stack (cnt + 1)

/-- The C string in a buffer. -/
def cstring (buf : List UInt8) : List UInt8 := buf.takeWhile (· != 0)

/-- `fat32_longname_popstack`: the stack it leaves and, if `long_valid`, the name. -/
def fat32_longname_popstack (stack : List dirent_l_t) (fcb_s_name : List UInt8) :
    Except Panic (List dirent_l_t × Option (List UInt8)) :=
  match popLoop (ChkSum fcb_s_name) stack 1 [] with
  | .error e => .error e
  | .ok (stack, none) => .ok (stack, none)
  | .ok (stack, some (buf, ord)) =>
    .ok (stack, if LAST_LONG_ENTRY_BOOL ord then some (cstring (buf ++ [0])) else none)

/-- `fat32_short_name_parser`. -/
def fat32_short_name_parse (dir_name : List UInt8) : List UInt8 :=
  let base := (dir_name.take 8).filter (· != 0x20)
  let ext := if chr dir_name 8 != 0x20 then 0x2E :: (dir_name.drop 8).filter (· != 0x20) else []
  cstring (base ++ ext ++ [0])

/-- What the scan learns from one entry. -/
inductive Outcome
  /-- Nothing follows. -/
  | all_free
  | free
  | long
  /-- A file, with its name and whether the name came from long entries. -/
  | file (name : List UInt8) (long_valid : Bool)
  deriving DecidableEq

/-- The part of `fat32_inode_travel_fcb_handler` that reads one entry. -/
def travel_fcb (stack : List dirent_l_t) (fcb : List UInt8) : Except Panic (List dirent_l_t × Outcome) :=
  if NAME0_FREE_ALL (chr fcb 0) then
    .ok (stack, .all_free)
  else if NAME0_FREE_ONLY (chr fcb 0) then
    if stack ≠ [] then .error .something_wrong_with_disk else .ok (stack, .free)
  else if LONG_NAME_BOOL (chr fcb 11) then
    match stack_push stack (dirent_l_t.ofBytes fcb) with
    | .error err => .error err
    | .ok stack => .ok (stack, .long)
  else
    match fat32_longname_popstack stack (fcb.take 11) with
    | .error err => .error err
    | .ok (stack, some name) => .ok (stack, .file name true)
    | .ok (stack, none) => .ok (stack, .file (fat32_short_name_parse (fcb.take 11)) false)

/-! ## Units and bytes -/

theorem mask_set (c : UInt8) : LONG_NAME_CHAR_MASK (LONG_NAME_CHAR_SET c) = c := by
  rcases c with ⟨⟨i⟩⟩
  revert i
  decide +kernel

theorem valid_toUInt16 (c : UInt8) : LONG_NAME_CHAR_VALID c.toUInt16 = (c != 0) := by
  rcases c with ⟨⟨i⟩⟩
  revert i
  decide +kernel

theorem valid_set (c : UInt8) : LONG_NAME_CHAR_VALID (LONG_NAME_CHAR_SET c) = (c != 0) := by
  rcases c with ⟨⟨i⟩⟩
  revert i
  decide +kernel

theorem unit_unitBytes (u : UInt16) : u.toUInt8.toUInt16 + (u >>> 8).toUInt8.toUInt16 * 256 = u := by
  apply UInt16.toNat_inj.1
  have hu := u.toNat_lt
  simp [Nat.shiftRight_eq_div_pow]
  omega

/-- An entry whose name fields have the sizes of the struct. -/
structure Packed (e : dirent_l_t) : Prop where
  name1 : e.LDIR_Name1.length = 5
  name2 : e.LDIR_Name2.length = 6
  name3 : e.LDIR_Name3.length = 2

theorem ofBytes_bytes {e : dirent_l_t} (he : Packed e) : dirent_l_t.ofBytes e.bytes = e := by
  obtain ⟨ord, name1, attr, type, sum, name2, nlinks, name3⟩ := e
  obtain ⟨h1, h2, h3⟩ := he
  obtain ⟨a0, name1, rfl⟩ := List.exists_cons_of_length_eq_add_one h1
  obtain ⟨a1, a2, a3, a4, rfl⟩ := List.length_eq_four.1 (Nat.succ.inj h1)
  obtain ⟨b0, name2, rfl⟩ := List.exists_cons_of_length_eq_add_one h2
  obtain ⟨b1, name2, rfl⟩ := List.exists_cons_of_length_eq_add_one (Nat.succ.inj h2)
  obtain ⟨b2, b3, b4, b5, rfl⟩ := List.length_eq_four.1 (Nat.succ.inj (Nat.succ.inj h2))
  obtain ⟨c0, c1, rfl⟩ := List.length_eq_two.1 h3
  simp [dirent_l_t.ofBytes, dirent_l_t.bytes, unitAt, unitBytes, chr, unit_unitBytes,
    -UInt16.toUInt16_toUInt8]

/-! ## One entry -/

theorem fillName_length (name : List UInt8) (n ci : Nat) (ended : Bool) :
    (fillName name n ci ended).1.length = n := by
  fun_induction fillName name n ci ended with
  | case1 => rfl
  | case2 n ci units ci' ended heq ih => simpa [heq] using ih
  | case3 n ci c ended units ci' ended' heq ih => simpa [heq] using ih

theorem fillName_append (name : List UInt8) (m n ci : Nat) (ended : Bool) :
    fillName name (m + n) ci ended = ((fillName name m ci ended).1 ++
      (fillName name n (fillName name m ci ended).2.1 (fillName name m ci ended).2.2).1,
      (fillName name n (fillName name m ci ended).2.1 (fillName name m ci ended).2.2).2) := by
  induction m generalizing ci ended with
  | zero => simp [fillName]
  | succ m ih =>
    rw [Nat.add_right_comm]
    cases ended
    · simp [fillName, ih]
    · simp [fillName, ih]

theorem filterUnits_append (us vs : List UInt16) :
    filterUnits (us ++ vs) = if (filterUnits us).2 then filterUnits us
      else ((filterUnits us).1 ++ (filterUnits vs).1, (filterUnits vs).2) := by
  induction us with
  | nil => rfl
  | cons u us ih =>
    by_cases hu : LONG_NAME_CHAR_VALID u
    · cases hend : (filterUnits us).2 <;> simp [filterUnits, hu, ih, hend]
    · simp [filterUnits, hu]

theorem filter_eq (e : dirent_l_t) : fat32_filter_longname e =
    (filterUnits (e.LDIR_Name1 ++ e.LDIR_Name2 ++ e.LDIR_Name3)).1 := by
  simp only [fat32_filter_longname, filterUnits_append]
  cases h1 : (filterUnits e.LDIR_Name1).2 <;> cases (filterUnits e.LDIR_Name2).2 <;> simp [h1]

theorem longEntry_units (name : List UInt8) (sum ord : UInt8) (ci : Nat) :
    (longEntry name sum ord ci).1.LDIR_Name1 ++ (longEntry name sum ord ci).1.LDIR_Name2 ++
      (longEntry name sum ord ci).1.LDIR_Name3 = (fillName name FAT_LFN_LENGTH ci false).1 ∧
    (longEntry name sum ord ci).2 = (fillName name FAT_LFN_LENGTH ci false).2.1 := by
  have h : fillName name FAT_LFN_LENGTH ci false = fillName name (5 + 6 + 2) ci false := rfl
  rw [h, fillName_append, fillName_append]
  exact ⟨rfl, rfl⟩

theorem longEntry_packed (name : List UInt8) (sum ord : UInt8) (ci : Nat) :
    Packed (longEntry name sum ord ci).1 :=
  ⟨fillName_length name 5 ci false, fillName_length name 6 _ _, fillName_length name 2 _ _⟩

theorem fillName_full {name : List UInt8} (hnul : 0 ∉ name) {n ci : Nat} (h : ci + n ≤ name.length) :
    (fillName name n ci false).2.1 = ci + n ∧
      filterUnits (fillName name n ci false).1 = ((name.drop ci).take n, false) := by
  induction n generalizing ci with
  | zero => simp [fillName, filterUnits]
  | succ n ih =>
    have hci : ci < name.length := by omega
    have hc : chr name ci = name[ci] := by simp [chr, hci]
    have hc0 : (name[ci] != 0) = true := by
      exact bne_iff_ne.2 fun h0 => hnul (h0 ▸ List.getElem_mem hci)
    obtain ⟨ih1, ih2⟩ := @ih (ci + 1) (by omega)
    simp only [fillName, hc, valid_toUInt16, hc0, Bool.not_true, filterUnits, valid_set, mask_set, ih1, ih2]
    refine ⟨by omega, ?_⟩
    rw [List.drop_eq_getElem_cons hci, List.take_succ_cons, if_pos trivial]

/-- The last entry, if not full: the filter gives the bytes that are left, and stops after the NUL. -/
theorem fillName_partial {name : List UInt8} (hnul : 0 ∉ name) {n ci : Nat} (hle : ci ≤ name.length)
    (h : name.length < ci + n) :
    (filterUnits (fillName name n ci false).1).1 = name.drop ci ++ [0] := by
  induction n generalizing ci with
  | zero => omega
  | succ n ih =>
    rcases lt_or_ge ci name.length with hci | hci
    · have hc : chr name ci = name[ci] := by simp [chr, hci]
      have hc0 : (name[ci] != 0) = true := by
        exact bne_iff_ne.2 fun h0 => hnul (h0 ▸ List.getElem_mem hci)
      have hrest := @ih (ci + 1) (by omega) (by omega)
      simp only [fillName, hc, valid_toUInt16, hc0, Bool.not_true, filterUnits, valid_set, mask_set, if_true]
      rw [hrest, List.drop_eq_getElem_cons hci]
      rfl
    · have hc : chr name ci = 0 := by simp [chr, hci]
      simp only [fillName, hc, filterUnits, valid_set, mask_set]
      simp [List.drop_eq_nil_of_le hci]

@[simp] theorem longEntry_ord (name : List UInt8) (sum ord : UInt8) (ci : Nat) :
    (longEntry name sum ord ci).1.LDIR_Ord = ord := rfl

@[simp] theorem longEntry_chksum (name : List UInt8) (sum ord : UInt8) (ci : Nat) :
    (longEntry name sum ord ci).1.LDIR_Chksum = sum := rfl

@[simp] theorem longEntry_attr (name : List UInt8) (sum ord : UInt8) (ci : Nat) :
    (longEntry name sum ord ci).1.LDIR_Attr = ATTR_LONG_NAME := rfl

theorem longEntry_full {name : List UInt8} (hnul : 0 ∉ name) (sum ord : UInt8) {ci : Nat}
    (h : ci + FAT_LFN_LENGTH ≤ name.length) :
    (longEntry name sum ord ci).2 = ci + FAT_LFN_LENGTH ∧
      fat32_filter_longname (longEntry name sum ord ci).1 = (name.drop ci).take FAT_LFN_LENGTH := by
  rw [filter_eq, (longEntry_units name sum ord ci).1, (longEntry_units name sum ord ci).2]
  exact ⟨(fillName_full hnul h).1, congrArg Prod.fst (fillName_full hnul h).2⟩

theorem longEntry_last {name : List UInt8} (hnul : 0 ∉ name) (sum ord : UInt8) {ci : Nat}
    (hle : ci ≤ name.length) (h : name.length ≤ ci + FAT_LFN_LENGTH) :
    fat32_filter_longname (longEntry name sum ord ci).1 =
      name.drop ci ++ if name.length < ci + FAT_LFN_LENGTH then [0] else [] := by
  rcases lt_or_ge name.length (ci + FAT_LFN_LENGTH) with hpart | hfull
  · rw [filter_eq, (longEntry_units name sum ord ci).1, if_pos hpart]
    exact fillName_partial hnul hle hpart
  rw [if_neg hfull.not_gt]
  have hall : (name.drop ci).length ≤ FAT_LFN_LENGTH := by
    rw [List.length_drop]
    omega
  rw [(longEntry_full hnul sum ord hfull).2, List.take_of_length_le hall, List.append_nil]

/-! ## The run of long entries -/

/-- The `k` long entries from number `i` on, in the order of the name. -/
def longEntries (name : List UInt8) (sum : UInt8) : Nat → Nat → List dirent_l_t
  | 0, _ => []
  | k + 1, i =>
    (longEntry name sum (UInt8.ofNat (if k = 0 then i ||| LAST_LONG_ENTRY else i))
      (FAT_LFN_LENGTH * (i - 1))).1 :: longEntries name sum k (i + 1)

@[simp] theorem longEntries_length (name : List UInt8) (sum : UInt8) (k i : Nat) :
    (longEntries name sum k i).length = k := by
  induction k generalizing i with
  | zero => rfl
  | succ k ih => simp [longEntries, ih]

/-- The encoder leaves the run on its stack, last entry on top. -/
theorem pushLoop_eq {name : List UInt8} (hnul : 0 ∉ name) (sum : UInt8) {ord_max k i : Nat}
    {stack : List dirent_l_t} (hi : 1 ≤ i) (hik : i + k = ord_max + 1)
    (hlen : FAT_LFN_LENGTH * (ord_max - 1) < name.length) (hcap : stack.length + k ≤ CAPACITY) :
    pushLoop name sum ord_max k i (FAT_LFN_LENGTH * (i - 1)) stack =
      .ok ((longEntries name sum k i).reverse ++ stack) := by
  induction k generalizing i stack with
  | zero => rfl
  | succ k ih =>
    have hci : FAT_LFN_LENGTH * (i - 1) ≤ FAT_LFN_LENGTH * (ord_max - 1) :=
      Nat.mul_le_mul_left _ (by omega)
    have hroom : stack.length ≠ CAPACITY := by omega
    rw [pushLoop, if_pos (by omega), if_neg (by omega)]
    simp only [stack_push, if_neg hroom]
    rcases Nat.eq_zero_or_pos k with rfl | hk
    · -- the last entry
      have hlast : i = ord_max := by omega
      simp [pushLoop, longEntries, hlast]
    have hnext : FAT_LFN_LENGTH * (i - 1) + FAT_LFN_LENGTH = FAT_LFN_LENGTH * (i + 1 - 1) := by
      simp only [FAT_LFN_LENGTH]
      omega
    have hfit : FAT_LFN_LENGTH * (i - 1) + FAT_LFN_LENGTH ≤ name.length := by
      have := Nat.mul_le_mul_left FAT_LFN_LENGTH (show i + 1 - 1 ≤ ord_max - 1 by omega)
      omega
    rw [(longEntry_units ..).2, (fillName_full hnul hfit).1, if_neg (by omega), hnext,
      ih (by omega) (by omega) (by simp; omega)]
    simp [longEntries, if_neg (show k ≠ 0 by omega)]

theorem popLoop_last (sum cnt : UInt8) {e : dirent_l_t} (buf : List UInt8) (hsum : e.LDIR_Chksum = sum) :
    popLoop sum [e] cnt buf = .ok ([], some (buf ++ fat32_filter_longname e, e.LDIR_Ord)) := by
  simp [popLoop, hsum]

theorem popLoop_cons {sum cnt : UInt8} {e : dirent_l_t} {stack : List dirent_l_t} (buf : List UInt8)
    (hstack : stack ≠ []) (hord : e.LDIR_Ord = cnt) (hsum : e.LDIR_Chksum = sum) :
    popLoop sum (e :: stack) cnt buf = popLoop sum stack (cnt + 1) (buf ++ fat32_filter_longname e) := by
  obtain ⟨f, stack, rfl⟩ := List.exists_cons_of_ne_nil hstack
  rw [popLoop, if_neg (by simp [hord]), if_neg (by simp [hsum])]

/-- Popping the run reads the name from entry `i` on, and the NUL after it if the last entry is not full. -/
theorem popLoop_eq {name : List UInt8} (hnul : 0 ∉ name) (sum : UInt8) {ord_max k i : Nat}
    (buf : List UInt8) (hi : 1 ≤ i) (hik : i + k = ord_max)
    (hlt : FAT_LFN_LENGTH * (ord_max - 1) ≤ name.length) (hle : name.length ≤ FAT_LFN_LENGTH * ord_max) :
    popLoop sum (longEntries name sum (k + 1) i) (UInt8.ofNat i) buf =
        .ok ([], some (buf ++ name.drop (FAT_LFN_LENGTH * (i - 1)) ++
          (if name.length < FAT_LFN_LENGTH * ord_max then [0] else []), UInt8.ofNat (ord_max ||| LAST_LONG_ENTRY))) ∧
      written (longEntries name sum (k + 1) i) (UInt8.ofNat i) = name.length - FAT_LFN_LENGTH * (i - 1) +
        if name.length < FAT_LFN_LENGTH * ord_max then 2 else 1 := by
  have hstep : FAT_LFN_LENGTH * (i - 1) + FAT_LFN_LENGTH = FAT_LFN_LENGTH * i := by
    simp only [FAT_LFN_LENGTH]
    omega
  induction k generalizing i buf with
  | zero =>
    obtain rfl : i = ord_max := by omega
    have hfilter := longEntry_last hnul sum (UInt8.ofNat (i ||| LAST_LONG_ENTRY)) hlt (hstep ▸ hle)
    rw [hstep] at hfilter
    simp only [longEntries, if_true, written]
    rw [popLoop_last sum _ buf (longEntry_chksum ..), hfilter, List.append_assoc]
    refine ⟨rfl, ?_⟩
    rw [if_neg (fun h => h.1 rfl), List.length_append, List.length_drop]
    split
    · rfl
    · rfl
  | succ k ih =>
    have hfit : FAT_LFN_LENGTH * (i - 1) + FAT_LFN_LENGTH ≤ name.length := by
      have := Nat.mul_le_mul_left FAT_LFN_LENGTH (show i ≤ ord_max - 1 by omega)
      omega
    have hnil : longEntries name sum (k + 1) (i + 1) ≠ [] := by simp [longEntries]
    obtain ⟨hpop, hcount⟩ := ih (i := i + 1)
      (buf ++ (name.drop (FAT_LFN_LENGTH * (i - 1))).take FAT_LFN_LENGTH) (by omega) (by omega)
      (by simp only [FAT_LFN_LENGTH]; omega)
    have hname : (name.drop (FAT_LFN_LENGTH * (i - 1))).take FAT_LFN_LENGTH ++
        name.drop (FAT_LFN_LENGTH * (i + 1 - 1)) = name.drop (FAT_LFN_LENGTH * (i - 1)) := by
      rw [Nat.add_sub_cancel, ← hstep, ← List.drop_drop, List.take_append_drop]
    have hnext : UInt8.ofNat i + 1 = UInt8.ofNat (i + 1) := by
      rw [← UInt8.ofNat_one, ← UInt8.ofNat_add]
    rw [longEntries, if_neg (by omega)]
    refine ⟨?_, ?_⟩
    · rw [popLoop_cons buf hnil (longEntry_ord ..) (longEntry_chksum ..), (longEntry_full hnul _ _ hfit).2, hnext, hpop,
        List.append_assoc buf, hname]
    · rw [written, if_neg (fun h => h.2 rfl), hnext, hcount, (longEntry_full hnul _ _ hfit).2,
        List.length_take_of_le (by rw [List.length_drop]; omega), Nat.add_sub_cancel]
      omega

/-! ## The scan -/

/-- What the scan needs of a long entry to push it. -/
structure Pushed (e : dirent_l_t) : Prop where
  packed : Packed e
  attr : e.LDIR_Attr = ATTR_LONG_NAME
  not_free : e.LDIR_Ord ≠ 0 ∧ e.LDIR_Ord ≠ 0xE5

theorem chr_bytes_attr {e : dirent_l_t} (he : Packed e) : chr e.bytes 11 = e.LDIR_Attr :=
  congrArg dirent_l_t.LDIR_Attr (ofBytes_bytes he)

theorem travel_fcb_long {e : dirent_l_t} (he : Pushed e) {stack : List dirent_l_t}
    (hcap : stack.length < CAPACITY) : travel_fcb stack e.bytes = .ok (e :: stack, .long) := by
  have h0 : chr e.bytes 0 = e.LDIR_Ord := rfl
  have hlong : LONG_NAME_BOOL ATTR_LONG_NAME = true := by decide
  have hfree : NAME0_FREE_ALL e.LDIR_Ord = false ∧ NAME0_FREE_ONLY e.LDIR_Ord = false := by
    simpa [NAME0_FREE_ALL, NAME0_FREE_ONLY] using he.not_free
  rw [travel_fcb, h0, hfree.1, hfree.2, chr_bytes_attr he.packed, he.attr, hlong]
  simp [stack_push, ofBytes_bytes he.packed, Nat.ne_of_lt hcap]

theorem ord_not_free : ∀ i ≤ 20, 1 ≤ i →
    (UInt8.ofNat i ≠ 0 ∧ UInt8.ofNat i ≠ 0xE5) ∧
    UInt8.ofNat (i ||| LAST_LONG_ENTRY) ≠ 0 ∧ UInt8.ofNat (i ||| LAST_LONG_ENTRY) ≠ 0xE5 := by
  decide

theorem last_ord_bool : ∀ i ≤ 20, LAST_LONG_ENTRY_BOOL (UInt8.ofNat (i ||| LAST_LONG_ENTRY)) = true := by
  decide

theorem longEntries_pushed (name : List UInt8) (sum : UInt8) {k i : Nat} (hi : 1 ≤ i) (hik : i + k ≤ 21) :
    ∀ e ∈ longEntries name sum k i, Pushed e := by
  induction k generalizing i with
  | zero => simp [longEntries]
  | succ k ih =>
    intro e he
    rcases List.mem_cons.1 he with rfl | he
    · refine ⟨longEntry_packed .., longEntry_attr .., ?_⟩
      have hord := ord_not_free i (by omega) hi
      rw [longEntry_ord]
      split
      · exact hord.2
      · exact hord.1
    · exact ih (by omega) (by omega) e he

theorem cstring_append {name : List UInt8} (hnul : 0 ∉ name) (tail : List UInt8) :
    cstring (name ++ 0 :: tail) = name := by
  have hall : ∀ c ∈ name, (c != 0) = true := fun c hc => bne_iff_ne.2 fun h => hnul (h ▸ hc)
  rw [cstring, List.takeWhile_append_of_pos hall, List.takeWhile_cons_of_neg (by simp), List.append_nil]

/-- The number of long entries for a name. -/
abbrev ordMax (name : List UInt8) : Nat := (name.length + FAT_LFN_LENGTH - 1) / FAT_LFN_LENGTH

theorem ordMax_bounds {name : List UInt8} (h1 : 1 ≤ name.length) (h254 : name.length ≤ 254) :
    1 ≤ ordMax name ∧ ordMax name ≤ 20 ∧ FAT_LFN_LENGTH * (ordMax name - 1) < name.length ∧
      name.length ≤ FAT_LFN_LENGTH * ordMax name := by
  simp only [ordMax, FAT_LFN_LENGTH]
  omega

/-- The bytes that a name takes in `name_buf`: a NUL from the last entry may precede the one of the string. -/
def room (name : List UInt8) : Nat := name.length + if name.length % FAT_LFN_LENGTH = 0 then 1 else 2

/-- The run of a name pops to the name, with `long_valid` set. -/
theorem popstack_longEntries {name : List UInt8} (hnul : 0 ∉ name) (h1 : 1 ≤ name.length)
    (h254 : name.length ≤ 254) (short : List UInt8) :
    fat32_longname_popstack (longEntries name (ChkSum short) (ordMax name) 1) short = .ok ([], some name) ∧
      written (longEntries name (ChkSum short) (ordMax name) 1) 1 = room name := by
  obtain ⟨hpos, hord, hlt, hle⟩ := ordMax_bounds h1 h254
  obtain ⟨hpop, hcount⟩ := popLoop_eq hnul (ChkSum short) (i := 1) [] (Nat.le_refl 1)
    (show 1 + (ordMax name - 1) = ordMax name by omega) hlt.le hle
  rw [Nat.sub_add_cancel hpos] at hpop hcount
  have hone : (1 : UInt8) = UInt8.ofNat 1 := rfl
  refine ⟨?_, ?_⟩
  · rw [fat32_longname_popstack, hone, hpop]
    dsimp only
    rw [last_ord_bool _ hord, if_pos rfl]
    split
    · rw [List.append_assoc, List.singleton_append]
      exact congrArg (fun n => Except.ok ([], some n)) (cstring_append hnul [0])
    · rw [List.append_nil]
      exact congrArg (fun n => Except.ok ([], some n)) (cstring_append hnul [])
  · have hfull : name.length < FAT_LFN_LENGTH * ordMax name ↔ ¬ name.length % FAT_LFN_LENGTH = 0 := by
      simp only [ordMax, FAT_LFN_LENGTH] at hlt hle ⊢
      omega
    simp only [hone, hcount, room, hfull, Nat.sub_self, Nat.mul_zero, Nat.sub_zero, ite_not]

theorem toupper_not_free (c : UInt8) (h0 : c ≠ 0) (hE5 : c ≠ 0xE5) :
    NAME0_FREE_ALL (toupper c) = false ∧ NAME0_FREE_ONLY (toupper c) = false := by
  rcases c with ⟨⟨i⟩⟩
  revert i
  decide +kernel

theorem travel_fcb_short (short : dirent_s_t) (hlen : short.DIR_Name.length = 11)
    (hfree : NAME0_FREE_ALL (chr short.DIR_Name 0) = false ∧ NAME0_FREE_ONLY (chr short.DIR_Name 0) = false)
    (hattr : LONG_NAME_BOOL short.DIR_Attr = false) {stack : List dirent_l_t} {name : List UInt8}
    (hpop : fat32_longname_popstack stack short.DIR_Name = .ok ([], some name)) :
    travel_fcb stack short.bytes = .ok ([], .file name true) := by
  obtain ⟨c, cs, hname⟩ := List.exists_cons_of_length_eq_add_one hlen
  have h0 : chr short.bytes 0 = chr short.DIR_Name 0 := by
    simp [chr, dirent_s_t.bytes, hname]
  have h11 : chr short.bytes 11 = short.DIR_Attr := by
    simp [chr, dirent_s_t.bytes, hlen]
  have htake : short.bytes.take 11 = short.DIR_Name := by
    simp [dirent_s_t.bytes, hlen]
  rw [travel_fcb, h0, h11, hfree.1, hfree.2, hattr, htake, hpop]
  rfl

end LostWakeup.Fs.Fat32.LongName
