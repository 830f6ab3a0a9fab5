/-
# LostWakeup.Fs.Fat32.ShortName — the short name of a new file, and the stack contents in it.

`fat32_fcb_init` builds the short name in two arrays on its stack, and its helpers use a control block on theirs; what
these uninitialised variables hold at first is an argument of each function.  Splitting a name copies its parts without
a NUL, so that upper-casing and measuring them goes on into whatever follows.
-/
import LostWakeup.Lib.Strings
import LostWakeup.Fs.Fat32.Dir

namespace LostWakeup.Fs.Fat32.ShortName

open Lib.Strings Fs.Fat32.LongName Fs.Fat32.Dir
open List (replicate)
open Option (bind_some map_none map_some)

/-! ## Uninitialised variables -/

def DIRLOOKUP_OP : Int := 1
def GETDENTS_OP : Int := 2

/-- The fields of a `trav_control` that are read although nothing set them. -/
structure trav_control where
  name_search : Vector UInt8 50
  ops : Int

/-- The locals of `fat32_fcb_init`, and the control block of the scan it starts. -/
structure Locals where
  attr : UInt8
  file_name : Vector UInt8 255
  file_ext : Vector UInt8 4
  tc : trav_control

/-- A stack of NULs. -/
def nuls : Locals := ⟨0, Vector.replicate 255 0, Vector.replicate 4 0, ⟨Vector.replicate 50 0, 0⟩⟩

/-! ## The scan with an unset `ops` -/

/-- The loop of `fat32_inode_general_trav` over the entries from `idx` on: what the handler makes of the
caller's variables, and whether it set `stop`. -/
def visit {τ : Type} (fn : Nat → List UInt8 → τ → τ × Bool) : Nat → List (List UInt8) → τ → τ × Bool
  | _, [], t => (t, false)
  | idx, fcb :: fcbs, t =>
    let (t, stop) := fn idx fcb t
    if stop then (t, true) else visit fn (idx + 1) fcbs t

/-- `fat32_inode_general_trav` over a whole directory.  For one of its two operations it makes a stack, which no
handler here uses, and resets the hint at the end. -/
def fat32_inode_general_trav {τ : Type} (tc : trav_control) (dp : inode)
    (fn : Nat → List UInt8 → τ → τ × Bool) (t : τ) : inode × τ :=
  let (t, stop) := visit fn 0 dp.entries t
  if (tc.ops = DIRLOOKUP_OP ∨ tc.ops = GETDENTS_OP) ∧ stop = false then ({ dp with off_hint := 0 }, t)
  else (dp, t)

/-- `fat32_find_same_name_cnt_handler`. -/
def fat32_find_same_name_cnt_handler (name_search : List UInt8) (_idx : Nat) (fcb : List UInt8) (cnt : Nat) :
    Nat × Bool :=
  if NAME0_FREE_ALL (chr fcb 0) then (cnt, true)
  else if !LONG_NAME_BOOL (chr fcb 11) && decide (strncmp fcb name_search 6 = 0) && chr fcb 6 == 0x7E then
    (cnt + 1, false)
  else (cnt, false)

/-- `fat32_find_same_name_cnt`, for a name in an array. -/
def fat32_find_same_name_cnt (tc : trav_control) (dp : inode) (name : List UInt8) : Option (inode × Nat) :=
  (strlen name).bind fun n =>
    (safestrcpy tc.name_search.toList name n).map fun name_search =>
      fat32_inode_general_trav tc dp (fat32_find_same_name_cnt_handler name_search) 0

/-- `fat32_dir_fcb_insert_offset_handler`, over `fcb_free_cnt` and `*retval`. -/
def fat32_dir_fcb_insert_offset_handler (fcb_cnt_req offset_ret_base idx : Nat) (fcb : List UInt8)
    (t : Nat × Nat) : (Nat × Nat) × Bool :=
  if !NAME0_FREE_BOOL (chr fcb 0) then ((0, offset_ret_base), false)
  else
    let retval := if t.1 = 0 then idx else t.2
    ((t.1 + 1, retval), t.1 + 1 == fcb_cnt_req)

/-- `fat32_dir_fcb_insert_offset`. -/
def fat32_dir_fcb_insert_offset (tc : trav_control) (dp : inode) (fcb_cnt_req : Nat) : inode × Nat :=
  let (dp', t) := fat32_inode_general_trav tc dp
    (fat32_dir_fcb_insert_offset_handler fcb_cnt_req dp.entries.length) (0, 0)
  (dp', t.2)

/-- `fat32_isdirempty_handler`. -/
def fat32_isdirempty_handler (_idx : Nat) (fcb : List UInt8) (judge : Nat) : Nat × Bool :=
  if !NAME0_FREE_BOOL (chr fcb 0) && decide (strncmp fcb [0x2E] PATH_LONG_MAX ≠ 0) &&
      decide (strncmp fcb [0x2E, 0x2E] PATH_LONG_MAX ≠ 0) then (0, true)
  else (judge, false)

/-- `fat32_isdirempty`. -/
def fat32_isdirempty (tc : trav_control) (dp : inode) : inode × Nat :=
  fat32_inode_general_trav tc dp fat32_isdirempty_handler 1

/-! ## The short name -/

def str_toupper : List UInt8 → Option (List UInt8)
  | [] => none
  | c :: s => if c = 0 then some (c :: s) else (str_toupper s).map (toupper c :: ·)

def DIR_SET (x : UInt8) : UInt8 := x &&& 0x00 ||| ATTR_DIRECTORY

def NONE_DIR_SET (x : UInt8) : UInt8 := x &&& 0x00 ||| ATTR_ARCHIVE

/-- The three bytes of the extension, from the array they are in. -/
def fillExt (file_ext : List UInt8) : Option (List UInt8) :=
  (strncpy (replicate 3 0) file_ext 3).bind fun ext =>
    (strlen file_ext).map fun n =>
      let ext := if n = 2 then ext.set 2 0x20 else ext
      if n = 1 then (ext.set 2 0x20).set 1 0x20 else ext

/-- What the branches of `fat32_fcb_init` for the two kinds of files put into `file_name`, and the last
three bytes of the short name. -/
def nameParts (loc : Locals) (long_name : CString) (isDir : Bool) : Option (List UInt8 × List UInt8) :=
  if isDir then
    (strncpy loc.file_name.toList long_name.memory 11).map fun file_name =>
      (file_name, if 8 < long_name.bytes.length then [0x20, 0x20, 0x20] else [0, 0, 0])
  else
    match str_split long_name 0x2E loc.file_name.toList loc.file_ext.toList with
    | none => none
    | some none =>
      (strncpy loc.file_name.toList long_name.memory 8).map fun file_name => (file_name, [0x20, 0x20, 0x20])
    | some (some (file_name, file_ext)) =>
      ((str_toupper file_ext).bind fillExt).map fun ext => (file_name, ext)

/-- `DIR_Name` of a name other than the two dots. -/
def shortName (loc : Locals) (dp : inode) (long_name : CString) (isDir : Bool) :
    Option (inode × List UInt8) :=
  (nameParts loc long_name isDir).bind fun (file_name, ext) =>
    (str_toupper file_name).bind fun file_name =>
      (strncpy (replicate 8 0) file_name 8).bind fun base =>
        if 8 < long_name.bytes.length then
          (fat32_find_same_name_cnt loc.tc dp file_name).map fun (dp, long_idx) =>
            (dp, (base.set 6 0x7E).set 7 (UInt8.ofNat (long_idx + 0x31)) ++ ext)
        else
          some (dp, base ++ ext)

/-- What the entries get from elsewhere: the device byte, the first cluster of the directory and the one
allocated for the file. -/
structure Given where
  dev : UInt8
  cluster_start : UInt32
  first_c : UInt32

def DIR_FIRST_HIGH (x : UInt32) : UInt16 := (x >>> 16).toUInt16
def DIR_FIRST_LOW (x : UInt32) : UInt16 := (x &&& 0xFFFF).toUInt16

/-- The long entries and the short one: the second half of `fat32_fcb_init`. -/
def writeEntries (long_name : List UInt8) (short : dirent_s_t) : Except LongName.Panic (List (List UInt8) × Nat) :=
  let ord_max := (long_name.length + FAT_LFN_LENGTH - 1) / FAT_LFN_LENGTH
  match pushLoop long_name (ChkSum short.DIR_Name) ord_max ord_max 1 0 [] with
  | .error e => .error e
  | .ok stack => .ok (stack.map dirent_l_t.bytes ++ [short.bytes], stack.length + 1)

/-- `fat32_fcb_init`: the entries it writes and the count it returns. -/
def fat32_fcb_init (loc : Locals) (ip_parent : inode) (given : Given) (long_name : CString) (isDir : Bool) :
    Except Dir.Panic (inode × List (List UInt8) × Nat) :=
  let attr := if isDir then DIR_SET loc.attr else NONE_DIR_SET loc.attr
  if long_name.bytes = [0x2E] ∨ long_name.bytes = [0x2E, 0x2E] then
    let short : dirent_s_t := ⟨long_name.bytes ++ replicate (11 - long_name.bytes.length) 0, attr, given.dev,
      DIR_FIRST_HIGH given.cluster_start, DIR_FIRST_LOW given.cluster_start, 0⟩
    .ok (ip_parent, [short.bytes], 1)
  else
    match shortName loc ip_parent long_name isDir with
    | none => .error .buffer_overrun
    | some (ip_parent, DIR_Name) =>
      match writeEntries long_name.bytes ⟨DIR_Name, attr, given.dev, DIR_FIRST_HIGH given.first_c,
          DIR_FIRST_LOW given.first_c, 0⟩ with
      | .error e => .error (.fcb e)
      | .ok (fcb_char, cnt) => .ok (ip_parent, fcb_char, cnt)

/-! ## Creation -/

def FCB_MAX_LENGTH : Nat := 672

/-- `fat32_inode_alloc`, as far as it concerns the entries: the directory and the offset of the short entry. -/
def fat32_inode_alloc (loc : Locals) (tc : trav_control) (dp : inode) (given : Given) (name : CString)
    (isDir : Bool) : Except Dir.Panic (inode × Nat) :=
  match fat32_fcb_init loc dp given name isDir with
  | .error e => .error e
  | .ok (dp, fcb_char, fcb_cnt) =>
    if FCB_MAX_LENGTH < fcb_cnt * 32 then .error .buffer_overrun
    else
      let (dp, offset) := fat32_dir_fcb_insert_offset tc dp fcb_cnt
      let off := offset + fcb_cnt - 1
      .ok ({ fat32_inode_write dp offset fcb_char with off_hint := off + 1 }, off)

/-! ## The scans -/

section Scan

variable {τ : Type} (tc : trav_control) (dp : inode) (fn : Nat → List UInt8 → τ → τ × Bool) (t : τ)

theorem trav_value : (fat32_inode_general_trav tc dp fn t).2 = (visit fn 0 dp.entries t).1 := by
  unfold fat32_inode_general_trav
  dsimp only
  split
  · rfl
  · rfl

theorem trav_dir : ∃ hint, (fat32_inode_general_trav tc dp fn t).1 = { dp with off_hint := hint } := by
  unfold fat32_inode_general_trav
  dsimp only
  split
  · exact ⟨0, rfl⟩
  · exact ⟨dp.off_hint, rfl⟩

end Scan

theorem visit_insert (req base : Nat) (fcbs : List (List UInt8)) (idx cnt ret : Nat) :
    (visit (fat32_dir_fcb_insert_offset_handler req base) idx fcbs (cnt, ret)).1.2 =
      insertLoop req base idx fcbs cnt ret := by
  induction fcbs generalizing idx cnt ret with
  | nil => rfl
  | cons fcb fcbs ih =>
    by_cases hused : NAME0_FREE_BOOL (chr fcb 0) = true
    · by_cases hreq : cnt + 1 = req
      · simp [visit, insertLoop, fat32_dir_fcb_insert_offset_handler, hused, hreq]
      · simp [visit, insertLoop, fat32_dir_fcb_insert_offset_handler, hused, hreq, ih]
    · simp [visit, insertLoop, fat32_dir_fcb_insert_offset_handler, hused, ih]

theorem insert_offset_value (tc : trav_control) (dp : inode) (req : Nat) :
    (fat32_dir_fcb_insert_offset tc dp req).2 = Dir.fat32_dir_fcb_insert_offset dp req := by
  have hvalue := trav_value tc dp (fat32_dir_fcb_insert_offset_handler req dp.entries.length) (0, 0)
  simp only [fat32_dir_fcb_insert_offset, hvalue, visit_insert, Dir.fat32_dir_fcb_insert_offset]

/-- The short entries before the end marker, deleted ones included. -/
def shorts (dp : inode) : List (List UInt8) :=
  (dp.entries.takeWhile fun fcb => !NAME0_FREE_ALL (chr fcb 0)).filter fun fcb => !LONG_NAME_BOOL (chr fcb 11)

/-- Whether an entry has the first six bytes of a name, and a numeric tail. -/
def sameName (name_search fcb : List UInt8) : Bool :=
  decide (strncmp fcb name_search 6 = 0) && chr fcb 6 == 0x7E

theorem visit_same_name (name_search : List UInt8) (fcbs : List (List UInt8)) (idx cnt : Nat) :
    (visit (fat32_find_same_name_cnt_handler name_search) idx fcbs cnt).1 =
      cnt + ((fcbs.takeWhile fun fcb => !NAME0_FREE_ALL (chr fcb 0)).filter
        fun fcb => !LONG_NAME_BOOL (chr fcb 11)).countP (sameName name_search) := by
  induction fcbs generalizing idx cnt with
  | nil => rfl
  | cons fcb fcbs ih =>
    by_cases hend : NAME0_FREE_ALL (chr fcb 0) = true
    · simp [visit, fat32_find_same_name_cnt_handler, hend]
    by_cases hlong : LONG_NAME_BOOL (chr fcb 11) = true
    · simp [visit, fat32_find_same_name_cnt_handler, hend, hlong, ih]
    by_cases hsame : sameName name_search fcb = true
    · have hboth := hsame
      simp only [sameName, Bool.and_eq_true, decide_eq_true_eq] at hboth
      simp [visit, fat32_find_same_name_cnt_handler, hend, hlong, hboth, ih, hsame]
      omega
    · have hnot : (decide (strncmp fcb name_search 6 = 0) && chr fcb 6 == 0x7E) = false := by
        simpa [sameName] using hsame
      simp [visit, fat32_find_same_name_cnt_handler, hend, hlong, hnot, ih, hsame]

theorem same_name_value (tc : trav_control) (dp : inode) (name_search : List UInt8) :
    (fat32_inode_general_trav tc dp (fat32_find_same_name_cnt_handler name_search) 0).2 =
      (shorts dp).countP (sameName name_search) := by
  rw [trav_value, visit_same_name, Nat.zero_add]
  rfl

/-! ## Names in arrays -/

theorem toupper_ne_zero (c : UInt8) (h : c ≠ 0) : toupper c ≠ 0 := by
  rcases c with ⟨⟨i⟩⟩
  revert i
  decide +kernel

theorem upper_nul_free {s : List UInt8} (h : 0 ∉ s) : 0 ∉ s.map toupper := by
  intro h0
  obtain ⟨c, hc, hzero⟩ := List.mem_map.mp h0
  exact toupper_ne_zero c (fun hc0 => h (hc0 ▸ hc)) hzero

theorem str_toupper_append {s : List UInt8} (h : 0 ∉ s) (r : List UInt8) :
    str_toupper (s ++ 0 :: r) = some (s.map toupper ++ 0 :: r) := by
  induction s with
  | nil => rfl
  | cons c s ih =>
    have hc : c ≠ 0 := fun h0 => h (h0 ▸ List.mem_cons_self)
    simp [str_toupper, hc, ih fun h0 => h (List.mem_cons_of_mem _ h0)]

theorem str_toupper_eq_none {s : List UInt8} (h : 0 ∉ s) : str_toupper s = none := by
  induction s with
  | nil => rfl
  | cons c s ih =>
    have hc : c ≠ 0 := fun h0 => h (h0 ▸ List.mem_cons_self)
    simp [str_toupper, hc, ih fun h0 => h (List.mem_cons_of_mem _ h0)]

theorem strncpy_short {name : CString} {n : Nat} (h : name.bytes.length < n) {s : List UInt8}
    (hs : n ≤ s.length) : ∃ r, strncpy s name.memory n = some (name.bytes ++ 0 :: r) := by
  have hpad : copied name.memory n = some (name.bytes ++ replicate (n - name.bytes.length) 0) :=
    copied_padded name.nul_free [] h.le
  obtain ⟨k, hk⟩ : ∃ k, n - name.bytes.length = k + 1 := ⟨n - name.bytes.length - 1, by omega⟩
  have hlen : (name.bytes ++ replicate (n - name.bytes.length) (0 : UInt8)).length = n := by
    simp
    omega
  refine ⟨replicate k 0 ++ s.drop n, ?_⟩
  rw [strncpy, hpad, bind_some, store, if_pos (by rw [hlen]; exact hs), hlen, hk, List.replicate_succ]
  simp

theorem strncpy_long {name : CString} {n : Nat} (h : n ≤ name.bytes.length) {s : List UInt8}
    (hs : n ≤ s.length) : strncpy s name.memory n = some (name.bytes.take n ++ s.drop n) := by
  have hfull : copied name.memory n = some (name.bytes.take n) := copied_full name.nul_free [0] h
  have hlen : (name.bytes.take n).length = n := List.length_take_of_le h
  rw [strncpy, hfull, bind_some, store, if_pos (by rw [hlen]; exact hs), hlen]

/-! ## The same result for all contents -/

/-- Whatever the variables hold, the call completes, with one and the same result. -/
def Settled {γ α : Type} (f : γ → Option α) : Prop := ∃ r, ∀ g, f g = some r

/-- The names whose parts are in the arrays with a NUL behind them. -/
def Terminated (long_name : CString) (isDir : Bool) : Prop :=
  (isDir = true ∧ long_name.bytes.length ≤ 10) ∨
    (isDir = false ∧ 0x2E ∉ long_name.bytes ∧ long_name.bytes.length ≤ 7)

theorem nameParts_terminated {long_name : CString} {isDir : Bool} (h : Terminated long_name isDir) :
    ∃ ext, ∀ loc, ∃ r, nameParts loc long_name isDir = some (long_name.bytes ++ 0 :: r, ext) := by
  rcases h with ⟨rfl, hlen⟩ | ⟨rfl, hdot, hlen⟩
  · refine ⟨if 8 < long_name.bytes.length then [0x20, 0x20, 0x20] else [0, 0, 0], fun loc => ?_⟩
    obtain ⟨r, hr⟩ := @strncpy_short long_name 11 (by omega) loc.file_name.toList (by simp)
    exact ⟨r, by simp [nameParts, hr]⟩
  · refine ⟨[0x20, 0x20, 0x20], fun loc => ?_⟩
    obtain ⟨r, hr⟩ := @strncpy_short long_name 8 (by omega) loc.file_name.toList (by simp)
    exact ⟨r, by simp [nameParts, str_split_missing hdot, hr]⟩

/-- `find_same_name_cnt` of a string in an array: only for the empty one the old contents matter. -/
theorem find_same_name_cnt_string (tc : trav_control) (dp : inode) {s : List UInt8} (h : 0 ∉ s) (r : List UInt8) :
    (fat32_find_same_name_cnt tc dp (s ++ 0 :: r)).map Prod.snd =
      if s = [] then some ((shorts dp).countP (sameName tc.name_search.toList))
      else if s.length < 50 then some ((shorts dp).countP (sameName (s ++ [0]))) else none := by
  rw [fat32_find_same_name_cnt, strlen_append h, bind_some, safestrcpy_strlen _ h, Option.map_map]
  by_cases hs : s = []
  · rw [if_pos hs, if_pos hs, map_some, Function.comp_apply, same_name_value]
  rw [if_neg hs, if_neg hs, Vector.length_toList]
  by_cases hlen : s.length < 50
  · rw [if_pos hlen, if_pos hlen, map_some, Function.comp_apply, same_name_value]
    have hsame : sameName (s ++ 0 :: tc.name_search.toList.drop (s.length + 1)) = sameName (s ++ [0]) := by
      funext fcb
      rw [sameName, sameName, strncmp_string fcb h _ []]
    rw [hsame]
  · rw [if_neg hlen, if_neg hlen, map_none]

/-- The short name of such a name. -/
theorem shortName_terminated (dp : inode) {long_name : CString} {isDir : Bool} (h : Terminated long_name isDir) :
    Settled fun loc => (shortName loc dp long_name isDir).map Prod.snd := by
  obtain ⟨ext, hparts⟩ := nameParts_terminated h
  have hupper := upper_nul_free long_name.nul_free
  obtain ⟨base, hbase⟩ := copied_string hupper 8
  have hstore : store (replicate 8 0) base = some base := by
    have hlen := copied_length (hbase [])
    rw [store, if_pos (by simp [hlen]), List.drop_eq_nil_of_le (by simp [hlen]), List.append_nil]
  have hlt : long_name.bytes.length < 50 := by
    rcases h with ⟨-, hlen⟩ | ⟨-, -, hlen⟩
    · omega
    · omega
  let cnt := (shorts dp).countP (sameName (long_name.bytes.map toupper ++ [0]))
  refine ⟨if 8 < long_name.bytes.length then (base.set 6 0x7E).set 7 (UInt8.ofNat (cnt + 0x31)) ++ ext
    else base ++ ext, fun loc => ?_⟩
  obtain ⟨r, hr⟩ := hparts loc
  simp only [shortName, hr, bind_some, str_toupper_append long_name.nul_free, strncpy, hbase, hstore]
  by_cases hlong : 8 < long_name.bytes.length
  · have hne : long_name.bytes.map toupper ≠ [] := by
      intro hnil
      rw [List.map_eq_nil_iff.mp hnil] at hlong
      simp at hlong
    have hcnt := find_same_name_cnt_string loc.tc dp hupper r
    rw [if_neg hne, if_pos (by simpa using hlt)] at hcnt
    rw [if_pos hlong, if_pos hlong, Option.map_map]
    obtain ⟨⟨dp', n⟩, hfind, hn⟩ := Option.map_eq_some_iff.mp hcnt
    simp only at hn
    rw [hfind, hn]
    rfl
  · rw [if_neg hlong, if_neg hlong]
    rfl

theorem take_nul_free (name : CString) (n : Nat) : 0 ∉ name.bytes.take n :=
  fun h => name.nul_free (List.mem_of_mem_take h)

theorem part_unterminated {s r : List UInt8} (hs : 0 ∉ s) (hr : 0 ∉ r) (k : Nat) :
    str_toupper (s ++ r.drop k) = none := by
  apply str_toupper_eq_none
  intro h0
  rcases List.mem_append.mp h0 with h0 | h0
  · exact hs h0
  · exact hr (List.mem_of_mem_drop h0)

/-- Other names run out of arrays that hold no NUL. -/
theorem shortName_unterminated (dp : inode) {long_name : CString} {isDir : Bool} (h : ¬ Terminated long_name isDir)
    {loc : Locals} (hname : 0 ∉ loc.file_name.toList) (hext : 0 ∉ loc.file_ext.toList) :
    shortName loc dp long_name isDir = none := by
  rcases isDir with _ | _
  · by_cases hdot : 0x2E ∈ long_name.bytes
    · -- the extension is upper-cased without an end
      obtain ⟨s, t, hst, hs⟩ := List.eq_append_cons_of_mem hdot
      have ht : 0 ∉ t := fun h0 => long_name.nul_free (hst ▸ by simp [h0])
      have hsplit := str_split_found hst hs loc.file_name.toList loc.file_ext.toList
      rcases hstore : store loc.file_name.toList s with _ | file_name
      · rw [hstore, Option.bind_none] at hsplit
        simp [shortName, nameParts, hsplit]
      rcases hstore' : store loc.file_ext.toList t with _ | file_ext
      · rw [hstore, hstore', bind_some, map_none] at hsplit
        simp [shortName, nameParts, hsplit]
      have hupper : str_toupper file_ext = none := by
        unfold store at hstore'
        split at hstore'
        · rw [← Option.some_inj.mp hstore']
          exact part_unterminated ht hext _
        · exact absurd hstore' (by simp)
      rw [hstore, hstore', bind_some, map_some] at hsplit
      simp [shortName, nameParts, hsplit, hupper]
    · have hlen : 8 ≤ long_name.bytes.length := by
        by_contra hlt
        exact h (.inr ⟨rfl, hdot, by omega⟩)
      have hcopy := @strncpy_long long_name 8 hlen loc.file_name.toList (by simp)
      have hupper := part_unterminated (take_nul_free long_name 8) hname 8
      simp [shortName, nameParts, str_split_missing hdot, hcopy, hupper]
  · have hlen : 11 ≤ long_name.bytes.length := by
      by_contra hlt
      exact h (.inl ⟨rfl, by omega⟩)
    have hcopy := @strncpy_long long_name 11 hlen loc.file_name.toList (by simp)
    have hupper := part_unterminated (take_nul_free long_name 11) hname 11
    simp [shortName, nameParts, hcopy, hupper]

/-! ## The parts of a short name -/

theorem fillExt_length {file_ext ext : List UInt8} (h : fillExt file_ext = some ext) : ext.length = 3 := by
  obtain ⟨bytes, hcopy, h⟩ := Option.bind_eq_some_iff.mp h
  obtain ⟨n, -, rfl⟩ := Option.map_eq_some_iff.mp h
  have hlen : bytes.length = 3 := strncpy_length hcopy
  dsimp only
  split <;> split <;> simp [hlen]

theorem nameParts_ext_length {loc : Locals} {name : CString} {isDir : Bool} {file_name ext : List UInt8}
    (h : nameParts loc name isDir = some (file_name, ext)) : ext.length = 3 := by
  rcases isDir with _ | _
  · simp only [nameParts, Bool.false_eq_true, if_false] at h
    rcases hsplit : str_split name 0x2E loc.file_name.toList loc.file_ext.toList with _ | _ | ⟨fn, fe⟩
    · simp only [hsplit] at h
      exact absurd h (by simp)
    · simp only [hsplit] at h
      obtain ⟨fn, -, heq⟩ := Option.map_eq_some_iff.mp h
      rw [← (Prod.mk.inj heq).2]
      rfl
    · simp only [hsplit] at h
      obtain ⟨ext', hfill, heq⟩ := Option.map_eq_some_iff.mp h
      obtain ⟨fe', -, hfill⟩ := Option.bind_eq_some_iff.mp hfill
      rw [← (Prod.mk.inj heq).2]
      exact fillExt_length hfill
  · simp only [nameParts, if_true] at h
    obtain ⟨fn, -, heq⟩ := Option.map_eq_some_iff.mp h
    rw [← (Prod.mk.inj heq).2]
    split
    · rfl
    · rfl

/-- A short name comes from the eight bytes of `file_name` in capitals and the extension. -/
theorem shortName_parts {loc : Locals} {dp : inode} {name : CString} {isDir : Bool} {n : List UInt8}
    (h : (shortName loc dp name isDir).map Prod.snd = some n) :
    ∃ file_name ext up base, nameParts loc name isDir = some (file_name, ext) ∧ str_toupper file_name = some up ∧
      strncpy (replicate 8 0) up 8 = some base ∧
      (8 < name.bytes.length → ∃ cnt, (fat32_find_same_name_cnt loc.tc dp up).map Prod.snd = some cnt ∧
        n = (base.set 6 0x7E).set 7 (UInt8.ofNat (cnt + 0x31)) ++ ext) ∧
      (name.bytes.length ≤ 8 → n = base ++ ext) := by
  obtain ⟨⟨dp', n'⟩, hname, rfl⟩ := Option.map_eq_some_iff.mp h
  simp only [shortName, Option.bind_eq_some_iff] at hname
  obtain ⟨⟨file_name, ext⟩, hparts, up, hup, base, hbase, hrest⟩ := hname
  refine ⟨file_name, ext, up, base, hparts, hup, hbase, fun hlong => ?_, fun hshort => ?_⟩
  · simp only [if_pos hlong] at hrest
    obtain ⟨⟨dp₁, cnt⟩, hfind, heq⟩ := Option.map_eq_some_iff.mp hrest
    exact ⟨cnt, by rw [hfind]; rfl, (Prod.mk.inj heq).2.symm⟩
  · simp only [if_neg hshort.not_gt] at hrest
    exact (Prod.mk.inj (Option.some_inj.mp hrest)).2.symm

theorem shortName_length {loc : Locals} {dp : inode} {name : CString} {isDir : Bool} {n : List UInt8}
    (h : (shortName loc dp name isDir).map Prod.snd = some n) : n.length = 11 := by
  obtain ⟨file_name, ext, up, base, hparts, -, hbase, hlong, hshort⟩ := shortName_parts h
  have hext := nameParts_ext_length hparts
  have hlen : base.length = 8 := strncpy_length hbase
  rcases lt_or_ge 8 name.bytes.length with h8 | h8
  · obtain ⟨cnt, -, rfl⟩ := hlong h8
    simp [hlen, hext]
  · rw [hshort h8]
    simp [hlen, hext]

theorem split_nul_free {name : CString} {s t : List UInt8} (h : name.bytes = s ++ 0x2E :: t) : 0 ∉ s ∧ 0 ∉ t :=
  ⟨fun h0 => name.nul_free (h ▸ by simp [h0]), fun h0 => name.nul_free (h ▸ by simp [h0])⟩

/-- The parts of a name with a dot: both are copied to the front of their arrays. -/
theorem nameParts_split {loc : Locals} {name : CString} {s t file_name ext : List UInt8}
    (hname : name.bytes = s ++ 0x2E :: t) (hs : 0x2E ∉ s) (h : nameParts loc name false = some (file_name, ext)) :
    s.length ≤ 255 ∧ t.length ≤ 4 ∧ file_name = s ++ loc.file_name.toList.drop s.length ∧
      (str_toupper (t ++ loc.file_ext.toList.drop t.length)).bind fillExt = some ext := by
  have hsplit := str_split_found hname hs loc.file_name.toList loc.file_ext.toList
  rcases hfst : store loc.file_name.toList s with _ | fn
  · rw [hfst, Option.bind_none] at hsplit
    simp [nameParts, hsplit] at h
  rcases hsnd : store loc.file_ext.toList t with _ | fe
  · rw [hfst, hsnd, bind_some, map_none] at hsplit
    simp [nameParts, hsplit] at h
  rw [hfst, hsnd, bind_some, map_some] at hsplit
  simp only [nameParts, Bool.false_eq_true, if_false, hsplit] at h
  obtain ⟨ext', hext, heq⟩ := Option.map_eq_some_iff.mp h
  obtain ⟨rfl, rfl⟩ := Prod.mk.inj heq
  unfold store at hfst hsnd
  split at hfst
  · next hs255 =>
    split at hsnd
    · next ht4 =>
      rw [← Option.some_inj.mp hsnd] at hext
      exact ⟨by simpa using hs255, by simpa using ht4, (Option.some_inj.mp hfst).symm, hext⟩
    · exact absurd hsnd (by simp)
  · exact absurd hfst (by simp)

/-! ## The entries -/

/-- The long entries that `fat32_fcb_init` writes for a short name, in their order on disk. -/
def longs (long_name DIR_Name : List UInt8) : List dirent_l_t :=
  (longEntries long_name (ChkSum DIR_Name) (ordMax long_name) 1).reverse

/-- A name of up to 390 bytes fits the stack. -/
theorem writeEntries_eq (long_name : CString) (h : ordMax long_name.bytes ≤ CAPACITY) (short : dirent_s_t) :
    writeEntries long_name.bytes short =
      .ok ((longs long_name.bytes short.DIR_Name).map dirent_l_t.bytes ++ [short.bytes],
        ordMax long_name.bytes + 1) := by
  have hpush : pushLoop long_name.bytes (ChkSum short.DIR_Name) (ordMax long_name.bytes) (ordMax long_name.bytes)
      1 0 [] = .ok (longs long_name.bytes short.DIR_Name) := by
    rcases Nat.eq_zero_or_pos long_name.bytes.length with hnil | hpos
    · have hord : ordMax long_name.bytes = 0 := by simp [ordMax, hnil, FAT_LFN_LENGTH]
      simp [longs, hord, pushLoop, longEntries]
    have hlt : FAT_LFN_LENGTH * (ordMax long_name.bytes - 1) < long_name.bytes.length := by
      simp only [ordMax, FAT_LFN_LENGTH]
      omega
    have hloop := @pushLoop_eq _ long_name.nul_free (ChkSum short.DIR_Name) _ _ 1 [] le_rfl
      (Nat.add_comm 1 _) hlt (by simpa using h)
    simpa [longs] using hloop
  rw [writeEntries]
  simp only [hpush]
  simp [longs]

/-- The loop pushes one entry for each of its turns, and panics when the stack is full. -/
theorem pushLoop_room {name : List UInt8} (hnul : 0 ∉ name) (sum : UInt8) {ord_max k i : Nat}
    {stack out : List dirent_l_t} (hi : 1 ≤ i) (hik : i + k = ord_max + 1)
    (hlen : FAT_LFN_LENGTH * (ord_max - 1) < name.length) (hstack : stack.length ≤ CAPACITY)
    (h : pushLoop name sum ord_max k i (FAT_LFN_LENGTH * (i - 1)) stack = .ok out) :
    stack.length + k ≤ CAPACITY := by
  induction k generalizing i stack with
  | zero => exact hstack
  | succ k ih =>
    have hci : FAT_LFN_LENGTH * (i - 1) ≤ FAT_LFN_LENGTH * (ord_max - 1) := Nat.mul_le_mul_left _ (by omega)
    rw [pushLoop, if_pos (by omega), if_neg (by omega)] at h
    by_cases hfull : stack.length = CAPACITY
    · simp [stack_push, hfull] at h
    simp only [stack_push, if_neg hfull] at h
    rcases Nat.eq_zero_or_pos k with rfl | hk
    · omega
    have hnext : FAT_LFN_LENGTH * (i - 1) + FAT_LFN_LENGTH = FAT_LFN_LENGTH * (i + 1 - 1) := by
      simp only [FAT_LFN_LENGTH]
      omega
    have hfit : FAT_LFN_LENGTH * (i - 1) + FAT_LFN_LENGTH ≤ name.length := by
      have := Nat.mul_le_mul_left FAT_LFN_LENGTH (show i + 1 - 1 ≤ ord_max - 1 by omega)
      omega
    rw [(longEntry_units ..).2, (fillName_full hnul hfit).1, if_neg (show i ≠ ord_max by omega), hnext] at h
    have hrest := ih (by omega) (by omega) (by simp; omega) h
    rw [List.length_cons] at hrest
    omega

theorem writeEntries_room (long_name : CString) {short : dirent_s_t} {r : List (List UInt8) × Nat}
    (h : writeEntries long_name.bytes short = .ok r) : ordMax long_name.bytes ≤ CAPACITY := by
  rcases Nat.eq_zero_or_pos long_name.bytes.length with hnil | hpos
  · simp [ordMax, hnil, FAT_LFN_LENGTH]
  have hlt : FAT_LFN_LENGTH * (ordMax long_name.bytes - 1) < long_name.bytes.length := by
    simp only [ordMax, FAT_LFN_LENGTH]
    omega
  rw [writeEntries] at h
  rcases hpush : pushLoop long_name.bytes (ChkSum short.DIR_Name) (ordMax long_name.bytes)
    (ordMax long_name.bytes) 1 0 [] with e | out
  · simp only [hpush] at h
    exact absurd h (by simp)
  · have hroom := @pushLoop_room _ long_name.nul_free _ _ _ 1 [] out le_rfl (Nat.add_comm 1 _) hlt
      (Nat.zero_le _) hpush
    simpa using hroom

/-- The bytes of the entries and their count. -/
def fcbBytes (loc : Locals) (dp : inode) (given : Given) (long_name : CString) (isDir : Bool) :
    Option (List (List UInt8) × Nat) :=
  (fat32_fcb_init loc dp given long_name isDir).toOption.map Prod.snd

/-- The two entries of a directory for itself and its parent. -/
def Dots (long_name : CString) : Prop := long_name.bytes = [0x2E] ∨ long_name.bytes = [0x2E, 0x2E]

/-- The entry of one of them. -/
def dotEntry (given : Given) (long_name : CString) (isDir : Bool) : dirent_s_t :=
  ⟨long_name.bytes ++ replicate (11 - long_name.bytes.length) 0,
    if isDir then ATTR_DIRECTORY else ATTR_ARCHIVE, given.dev, DIR_FIRST_HIGH given.cluster_start,
    DIR_FIRST_LOW given.cluster_start, 0⟩

/-- The short entry of a file, under its short name. -/
def shortEntry (given : Given) (isDir : Bool) (DIR_Name : List UInt8) : dirent_s_t :=
  ⟨DIR_Name, if isDir then ATTR_DIRECTORY else ATTR_ARCHIVE, given.dev, DIR_FIRST_HIGH given.first_c,
    DIR_FIRST_LOW given.first_c, 0⟩

theorem attr_set (x : UInt8) (isDir : Bool) :
    (if isDir then DIR_SET x else NONE_DIR_SET x) = if isDir then ATTR_DIRECTORY else ATTR_ARCHIVE := by
  rcases isDir with _ | _
  · simp [NONE_DIR_SET]
  · simp [DIR_SET]

section Init

variable (loc : Locals) (dp : inode) (given : Given) {long_name : CString} {isDir : Bool}

theorem fcb_init_dots (h : Dots long_name) : fat32_fcb_init loc dp given long_name isDir =
    .ok (dp, [(dotEntry given long_name isDir).bytes], 1) := by
  unfold Dots at h
  simp only [fat32_fcb_init, if_pos h, attr_set]
  rfl

theorem fcb_init_overrun (hdots : ¬ Dots long_name) (h : shortName loc dp long_name isDir = none) :
    fat32_fcb_init loc dp given long_name isDir = .error .buffer_overrun := by
  unfold Dots at hdots
  simp only [fat32_fcb_init, if_neg hdots, h]

theorem fcb_init_named (hdots : ¬ Dots long_name) (hord : ordMax long_name.bytes ≤ CAPACITY) {dp' : inode}
    {DIR_Name : List UInt8} (h : shortName loc dp long_name isDir = some (dp', DIR_Name)) :
    fat32_fcb_init loc dp given long_name isDir = .ok (dp', (longs long_name.bytes DIR_Name).map dirent_l_t.bytes ++
      [(shortEntry given isDir DIR_Name).bytes], ordMax long_name.bytes + 1) := by
  unfold Dots at hdots
  simp only [fat32_fcb_init, if_neg hdots, h, attr_set, writeEntries_eq long_name hord]
  rfl

end Init

/-! ## Creation, with the variables given -/

/-- The scans of `fat32_fcb_init` leave the directory as it was, up to its hint. -/
theorem shortName_dir {loc : Locals} {dp dp' : inode} {name : CString} {isDir : Bool} {DIR_Name : List UInt8}
    (h : shortName loc dp name isDir = some (dp', DIR_Name)) : ∃ hint, dp' = { dp with off_hint := hint } := by
  simp only [shortName, Option.bind_eq_some_iff] at h
  obtain ⟨⟨file_name, ext⟩, -, file_name', -, base, -, h⟩ := h
  simp only at h
  split at h
  · obtain ⟨⟨dp₁, n⟩, hfind, heq⟩ := Option.map_eq_some_iff.mp h
    simp only [fat32_find_same_name_cnt, Option.bind_eq_some_iff, Option.map_eq_some_iff] at hfind
    obtain ⟨len, -, name_search, -, htrav⟩ := hfind
    obtain ⟨hint, hdir⟩ := trav_dir loc.tc dp (fat32_find_same_name_cnt_handler name_search) 0
    rw [htrav] at hdir
    obtain ⟨rfl, -⟩ := Prod.mk.inj heq
    exact ⟨hint, hdir⟩
  · obtain ⟨rfl, -⟩ := Prod.mk.inj (Option.some_inj.mp h)
    exact ⟨dp.off_hint, rfl⟩

/-- The directory with these entries in it, and the offset of the last of them. -/
def created (dp : inode) (fcb_char : List (List UInt8)) (fcb_cnt : Nat) : inode × Nat :=
  let offset := Dir.fat32_dir_fcb_insert_offset dp fcb_cnt
  let off := offset + fcb_cnt - 1
  ({ fat32_inode_write dp offset fcb_char with off_hint := off + 1 }, off)

theorem alloc_eq {loc : Locals} (tc : trav_control) {dp dp' : inode} {given : Given} {name : CString} {isDir : Bool}
    {fcb_char : List (List UInt8)} {fcb_cnt : Nat}
    (h : fat32_fcb_init loc dp given name isDir = .ok (dp', fcb_char, fcb_cnt))
    (hdir : ∃ hint, dp' = { dp with off_hint := hint }) :
    fat32_inode_alloc loc tc dp given name isDir =
      if FCB_MAX_LENGTH < fcb_cnt * 32 then .error .buffer_overrun else .ok (created dp fcb_char fcb_cnt) := by
  obtain ⟨hint, rfl⟩ := hdir
  have hvalue := insert_offset_value tc { dp with off_hint := hint } fcb_cnt
  obtain ⟨hint', hdir'⟩ := trav_dir tc { dp with off_hint := hint }
    (fat32_dir_fcb_insert_offset_handler fcb_cnt dp.entries.length) (0, 0)
  have hfst : (fat32_dir_fcb_insert_offset tc { dp with off_hint := hint } fcb_cnt).1 =
      { dp with off_hint := hint' } := hdir'
  simp only [fat32_inode_alloc, h, hvalue, hfst]
  rfl

theorem toOption_eq_some {ε α : Type} {x : Except ε α} {a : α} (h : x.toOption = some a) : x = .ok a := by
  rcases x with e | b
  · exact absurd h (by simp [Except.toOption])
  · rw [← Option.some_inj.mp h]

theorem fcb_init_dir {loc : Locals} {dp dp' : inode} {given : Given} {name : CString} {isDir : Bool}
    {r : List (List UInt8) × Nat} (h : fat32_fcb_init loc dp given name isDir = .ok (dp', r)) :
    ∃ hint, dp' = { dp with off_hint := hint } := by
  by_cases hdots : Dots name
  · rw [fcb_init_dots loc dp given hdots] at h
    obtain ⟨rfl, -⟩ := Prod.mk.inj (Except.ok.inj h)
    exact ⟨dp.off_hint, rfl⟩
  rcases hshort : shortName loc dp name isDir with _ | ⟨dp₁, DIR_Name⟩
  · rw [fcb_init_overrun loc dp given hdots hshort] at h
    exact absurd h (by simp)
  obtain ⟨hint, rfl⟩ := shortName_dir hshort
  unfold Dots at hdots
  simp only [fat32_fcb_init, if_neg hdots, hshort] at h
  split at h
  · exact absurd h (by simp)
  · obtain ⟨rfl, -⟩ := Prod.mk.inj (Except.ok.inj h)
    exact ⟨hint, rfl⟩

/-- The entries of a file: the long ones, and the short one last. -/
def fcbs (given : Given) (name : List UInt8) (isDir : Bool) (DIR_Name : List UInt8) : List (List UInt8) :=
  (longs name DIR_Name).map dirent_l_t.bytes ++ [(shortEntry given isDir DIR_Name).bytes]

@[simp] theorem fcbs_length (given : Given) (name : List UInt8) (isDir : Bool) (DIR_Name : List UInt8) :
    (fcbs given name isDir DIR_Name).length = ordMax name + 1 := by
  simp [fcbs, longs]

theorem alloc_named {loc : Locals} (tc : trav_control) {dp : inode} (given : Given) {name : CString} {isDir : Bool}
    {DIR_Name : List UInt8} (hdots : ¬ Dots name) (hord : ordMax name.bytes ≤ 20)
    (h : (shortName loc dp name isDir).map Prod.snd = some DIR_Name) :
    fat32_inode_alloc loc tc dp given name isDir =
      .ok (created dp (fcbs given name.bytes isDir DIR_Name) (ordMax name.bytes + 1)) := by
  obtain ⟨⟨dp', n⟩, hname, hn⟩ := Option.map_eq_some_iff.mp h
  obtain rfl : n = DIR_Name := hn
  have hinit := fcb_init_named loc dp given hdots (hord.trans (by decide)) hname
  have hroom : ¬ FCB_MAX_LENGTH < (ordMax name.bytes + 1) * 32 := by
    simp only [FCB_MAX_LENGTH]
    omega
  rw [alloc_eq tc hinit (shortName_dir hname), if_neg hroom]
  rfl

/-- A creation that comes to an end had room for the entries, and a short name. -/
theorem alloc_ok {loc : Locals} {tc : trav_control} {dp : inode} {given : Given} {name : CString} {isDir : Bool}
    {r : inode × Nat} (hdots : ¬ Dots name) (h : fat32_inode_alloc loc tc dp given name isDir = .ok r) :
    ∃ DIR_Name, (shortName loc dp name isDir).map Prod.snd = some DIR_Name ∧ ordMax name.bytes ≤ 20 ∧
      r = created dp (fcbs given name.bytes isDir DIR_Name) (ordMax name.bytes + 1) := by
  rcases hname : shortName loc dp name isDir with _ | ⟨dp', n⟩
  · have hinit := fcb_init_overrun loc dp given hdots hname
    simp only [fat32_inode_alloc, hinit] at h
    exact absurd h (by simp)
  have hcap : ordMax name.bytes ≤ CAPACITY := by
    by_contra hcap
    rcases hwrite : writeEntries name.bytes (shortEntry given isDir n) with e | w
    · have hdots' := hdots
      unfold Dots at hdots'
      have hinit : fat32_fcb_init loc dp given name isDir = .error (.fcb e) := by
        simp only [fat32_fcb_init, if_neg hdots', hname, attr_set]
        simp only [shortEntry] at hwrite
        rw [hwrite]
      simp only [fat32_inode_alloc, hinit] at h
      exact absurd h (by simp)
    · exact hcap (writeEntries_room name hwrite)
  have hinit := fcb_init_named loc dp given hdots hcap hname
  rw [alloc_eq tc hinit (shortName_dir hname)] at h
  split at h
  · exact absurd h (by simp)
  · next hroom =>
    refine ⟨n, rfl, ?_, (Except.ok.inj h).symm⟩
    simp only [FCB_MAX_LENGTH] at hroom
    omega

/-! ## Independence -/

/-- The names for which nothing of the stack gets into the entries. -/
def Plain (long_name : CString) (isDir : Bool) : Prop := Dots long_name ∨ Terminated long_name isDir

theorem filled_nul_free (n : Nat) : (0 : UInt8) ∉ (Vector.replicate n 0x41).toList := by
  rw [Vector.toList_replicate]
  intro h
  exact absurd (List.eq_of_mem_replicate h) (by decide)

/-- The entries of a plain name: one or two, the same for all contents of the variables. -/
theorem fcbBytes_plain (dp : inode) (given : Given) {long_name : CString} {isDir : Bool}
    (h : Plain long_name isDir) :
    ∃ fcb_char fcb_cnt, fcb_cnt ≤ 2 ∧ ∀ loc, fcbBytes loc dp given long_name isDir = some (fcb_char, fcb_cnt) := by
  by_cases hdots : Dots long_name
  · refine ⟨[(dotEntry given long_name isDir).bytes], 1, by omega, fun loc => ?_⟩
    rw [fcbBytes, fcb_init_dots loc dp given hdots]
    rfl
  have hterm : Terminated long_name isDir := h.resolve_left hdots
  obtain ⟨DIR_Name, hshort⟩ := shortName_terminated dp hterm
  have hlen : long_name.bytes.length ≤ 10 := by
    rcases hterm with ⟨-, hlen⟩ | ⟨-, -, hlen⟩
    · exact hlen
    · omega
  have hone : ordMax long_name.bytes ≤ 1 := by
    simp only [ordMax, FAT_LFN_LENGTH]
    omega
  have hord : ordMax long_name.bytes ≤ CAPACITY := hone.trans (by decide)
  refine ⟨(longs long_name.bytes DIR_Name).map dirent_l_t.bytes ++ [(shortEntry given isDir DIR_Name).bytes],
    ordMax long_name.bytes + 1, by omega, fun loc => ?_⟩
  obtain ⟨⟨dp', n⟩, hname, hn⟩ := Option.map_eq_some_iff.mp (hshort loc)
  obtain rfl : n = DIR_Name := hn
  rw [fcbBytes, fcb_init_named loc dp given hdots hord hname]
  rfl

theorem fcbBytes_settled_iff (dp : inode) (given : Given) (long_name : CString) (isDir : Bool) :
    (Settled fun loc => fcbBytes loc dp given long_name isDir) ↔ Plain long_name isDir := by
  constructor
  · rintro ⟨r, hr⟩
    by_contra hplain
    obtain ⟨hdots, hterm⟩ := not_or.mp hplain
    let loc : Locals :=
      ⟨0, Vector.replicate 255 0x41, Vector.replicate 4 0x41, ⟨Vector.replicate 50 0x41, 0⟩⟩
    have hloc : fcbBytes loc dp given long_name isDir = some r := hr loc
    have hnone := @shortName_unterminated dp _ _ hterm loc (filled_nul_free 255) (filled_nul_free 4)
    rw [fcbBytes, fcb_init_overrun loc dp given hdots hnone] at hloc
    exact absurd hloc (by simp [Except.toOption])
  · intro h
    obtain ⟨fcb_char, fcb_cnt, -, hbytes⟩ := fcbBytes_plain dp given h
    exact ⟨(fcb_char, fcb_cnt), hbytes⟩

theorem alloc_plain (dp : inode) (given : Given) {name : CString} {isDir : Bool} (h : Plain name isDir) :
    Settled fun g : Locals × trav_control => (fat32_inode_alloc g.1 g.2 dp given name isDir).toOption := by
  obtain ⟨fcb_char, fcb_cnt, hcnt, hbytes⟩ := fcbBytes_plain dp given h
  refine ⟨created dp fcb_char fcb_cnt, fun g => ?_⟩
  obtain ⟨⟨dp', r⟩, hinit, hr⟩ := Option.map_eq_some_iff.mp (hbytes g.1)
  obtain rfl : r = (fcb_char, fcb_cnt) := hr
  have hok := toOption_eq_some hinit
  have hroom : ¬ FCB_MAX_LENGTH < fcb_cnt * 32 := by
    simp only [FCB_MAX_LENGTH]
    omega
  show (fat32_inode_alloc g.1 g.2 dp given name isDir).toOption = _
  rw [alloc_eq g.2 hok (fcb_init_dir hok), if_neg hroom]
  rfl

/-- A creation: the name, the type, and what the entries get from elsewhere. -/
structure Creation where
  name : CString
  isDir : Bool
  given : Given

/-- Creations one after the other; `stack n` is what the stack held at the call with `n` more to come. -/
def allocAll (stack : Nat → Locals × trav_control) (dp : inode) : List Creation → Option inode
  | [] => some dp
  | c :: calls =>
    let (loc, tc) := stack calls.length
    (fat32_inode_alloc loc tc dp c.given c.name c.isDir).toOption.bind fun r => allocAll stack r.1 calls

/-- **Creations of plain names overrun no array**, and what the stack held at each makes no difference to the directory. -/
theorem allocAll_settled {calls : List Creation} (hplain : ∀ c ∈ calls, Plain c.name c.isDir) (dp : inode) :
    ∃ dp', ∀ stack, allocAll stack dp calls = some dp' := by
  induction calls generalizing dp with
  | nil => exact ⟨dp, fun _ => rfl⟩
  | cons c calls ih =>
    rw [List.forall_mem_cons] at hplain
    obtain ⟨r, hr⟩ := alloc_plain dp c.given hplain.1
    obtain ⟨dp', hdp'⟩ := ih hplain.2 r.1
    refine ⟨dp', fun stack => ?_⟩
    have hcall := hr (stack calls.length)
    simp only [allocAll, hcall, bind_some, hdp' stack]

def emptyDir : inode := ⟨4096, [], none, 0⟩

/-- A file and a directory. -/
theorem allocAll_settled_two : ∃ dp', ∀ stack,
    allocAll stack emptyDir [⟨⟨[0x61], by decide⟩, false, 0, 2, 5⟩, ⟨⟨[0x62], by decide⟩, true, 0, 2, 6⟩] = some dp' :=
  allocAll_settled (by simp [Plain, Terminated]) emptyDir

/-- The count of `fat32_find_same_name_cnt`. -/
def sameNameCnt (tc : trav_control) (dp : inode) (name : CString) : Option Nat :=
  (fat32_find_same_name_cnt tc dp name.memory).map Prod.snd

/-- With a `name_search` of NULs no entry is counted. -/
theorem countP_zeros (dp : inode) : (shorts dp).countP (sameName (replicate 50 0)) = 0 := by
  rw [List.countP_eq_zero]
  intro fcb hfcb
  obtain ⟨hmem, -⟩ := List.mem_filter.mp hfcb
  have hlive : (!NAME0_FREE_ALL (chr fcb 0)) = true :=
    List.all_eq_true.mp List.all_takeWhile fcb hmem
  have hchr : fcb.headD 0 ≠ 0 := by
    intro h0
    have hzero : chr fcb 0 = fcb.headD 0 := by
      rcases fcb with _ | ⟨c, fcb⟩
      · rfl
      · rfl
    rw [hzero, h0] at hlive
    exact absurd hlive (by decide)
  have hcmp : strncmp fcb (replicate 50 0) 6 ≠ 0 := by
    have hcons : replicate 50 (0 : UInt8) = 0 :: replicate 49 0 := List.replicate_succ
    have hnot : ¬ (fcb.headD 0 ≠ 0 ∧ fcb.headD 0 = 0) := fun h => h.1 h.2
    rw [hcons, strncmp_cons, if_neg hnot]
    intro h0
    exact hchr (UInt8.toNat_inj.mp (by simpa using h0))
  rw [sameName, decide_eq_false hcmp, Bool.false_and]
  exact Bool.false_ne_true

theorem countP_entry {dp : inode} {fcb : List UInt8} (h : fcb ∈ shorts dp) (htail : chr fcb 6 = 0x7E) :
    ∃ name_search : Vector UInt8 50, 0 < (shorts dp).countP (sameName name_search.toList) := by
  refine ⟨Vector.ofFn fun i => fcb.getD i 0, List.countP_pos_iff.mpr ⟨fcb, h, ?_⟩⟩
  have hcmp : strncmp fcb (Vector.ofFn fun i : Fin 50 => fcb.getD i 0).toList 6 = 0 := by
    apply strncmp_of_agree
    intro i hi
    rw [List.getD_eq_getElem?_getD, List.getD_eq_getElem?_getD]
    have hlt : i < 50 := by omega
    simp [hlt]
  rw [sameName, hcmp, htail]
  rfl

/-- Only for the empty name the old contents of `name_search` matter, and only where an entry has a
numeric tail. -/
theorem sameNameCnt_settled_iff (dp : inode) (name : CString) : (Settled fun tc => sameNameCnt tc dp name) ↔
    name.bytes.length < 50 ∧ (name.bytes = [] → ∀ fcb ∈ shorts dp, chr fcb 6 ≠ 0x7E) := by
  have hvalue : ∀ tc, sameNameCnt tc dp name = if name.bytes = [] then
      some ((shorts dp).countP (sameName tc.name_search.toList))
      else if name.bytes.length < 50 then some ((shorts dp).countP (sameName (name.bytes ++ [0]))) else none :=
    fun tc => find_same_name_cnt_string tc dp name.nul_free []
  constructor
  · rintro ⟨r, hr⟩
    by_cases hnil : name.bytes = []
    · refine ⟨by simp [hnil], fun _ fcb hfcb htail => ?_⟩
      obtain ⟨name_search, hpos⟩ := countP_entry hfcb htail
      have hzero := (hvalue ⟨Vector.replicate 50 0, 0⟩).symm.trans (hr ⟨Vector.replicate 50 0, 0⟩)
      have hone := (hvalue ⟨name_search, 0⟩).symm.trans (hr ⟨name_search, 0⟩)
      rw [if_pos hnil] at hzero hone
      rw [Vector.toList_replicate, countP_zeros] at hzero
      exact absurd (Option.some_inj.mp (hzero.trans hone.symm)) hpos.ne
    · refine ⟨?_, fun h => absurd h hnil⟩
      by_contra hlen
      have hnone := (hvalue ⟨Vector.replicate 50 0, 0⟩).symm.trans (hr ⟨Vector.replicate 50 0, 0⟩)
      rw [if_neg hnil, if_neg hlen] at hnone
      exact absurd hnone (by simp)
  · rintro ⟨hlen, htails⟩
    by_cases hnil : name.bytes = []
    · refine ⟨0, fun tc => (hvalue tc).trans ?_⟩
      rw [if_pos hnil, Option.some_inj, List.countP_eq_zero]
      intro fcb hfcb
      have := htails hnil fcb hfcb
      simp [sameName, this]
    · refine ⟨(shorts dp).countP (sameName (name.bytes ++ [0])), fun tc => (hvalue tc).trans ?_⟩
      rw [if_neg hnil, if_pos hlen]

/-- The results for a directory, a name and a type do not depend on what the variables held. -/
structure Independent (dp : inode) (given : Given) (long_name : CString) (isDir : Bool) (fcb_cnt_req : Nat) :
    Prop where
  fcb_init : Settled fun loc => fcbBytes loc dp given long_name isDir
  same_name_cnt : Settled fun tc => sameNameCnt tc dp long_name
  insert_offset : Settled fun tc => some (fat32_dir_fcb_insert_offset tc dp fcb_cnt_req).2
  isdirempty : Settled fun tc => some (fat32_isdirempty tc dp).2
  /-- The directory with the new entries in it. -/
  alloc : Settled fun g : Locals × trav_control =>
    (fat32_inode_alloc g.1 g.2 dp given long_name isDir).toOption

/-- **What the stack held stays out of the entries** of the two dots, of a file without a dot in its name and of
fewer than eight bytes, and of a directory whose name has at most ten; and out of the count for any name but the
empty one, as long as no entry has a numeric tail. -/
theorem independent_iff (dp : inode) (given : Given) (long_name : CString) (isDir : Bool) (fcb_cnt_req : Nat) :
    Independent dp given long_name isDir fcb_cnt_req ↔ Plain long_name isDir ∧
      (long_name.bytes = [] → ∀ fcb ∈ shorts dp, chr fcb 6 ≠ 0x7E) := by
  constructor
  · intro h
    exact ⟨(fcbBytes_settled_iff dp given long_name isDir).mp h.fcb_init,
      ((sameNameCnt_settled_iff dp long_name).mp h.same_name_cnt).2⟩
  rintro ⟨hname, htails⟩
  have hlen : long_name.bytes.length < 50 := by
    rcases hname with (h | h) | ⟨-, h⟩ | ⟨-, -, h⟩
    · simp [h]
    · simp [h]
    · omega
    · omega
  exact
    { fcb_init := (fcbBytes_settled_iff dp given long_name isDir).mpr hname
      same_name_cnt := (sameNameCnt_settled_iff dp long_name).mpr ⟨hlen, htails⟩
      insert_offset := ⟨_, fun tc => congrArg some (insert_offset_value tc dp fcb_cnt_req)⟩
      isdirempty := ⟨_, fun tc => congrArg some (trav_value tc dp fat32_isdirempty_handler 1)⟩
      alloc := alloc_plain dp given hname }

/-! ### A file with an extension -/

/-- The name `a.c`. -/
def a_c : CString := ⟨[0x61, 0x2E, 0x63], by decide⟩

/-- A stack of NULs, but for the second byte of `file_name`. -/
def stack (c : UInt8) : Locals :=
  ⟨0, (Vector.replicate 255 0).set 1 c, Vector.replicate 4 0, ⟨Vector.replicate 50 0, 0⟩⟩

theorem shortName_a_c (c : UInt8) (h : c = 0 ∨ c = 0x58) :
    (shortName (stack c) emptyDir a_c false).map Prod.snd =
      some [0x41, c, 0, 0, 0, 0, 0, 0, 0x43, 0x20, 0x20] := by
  rcases h with rfl | rfl
  · decide +kernel
  · decide +kernel

/-- What was on the stack becomes part of the short name. -/
theorem extension_depends : ¬ Independent emptyDir ⟨0, 2, 5⟩ a_c false 1 := by
  intro h
  obtain ⟨r, hr⟩ := h.fcb_init
  have hdots : ¬ Dots a_c := by
    rintro (h | h)
    · exact absurd h (by decide)
    · exact absurd h (by decide)
  have hbytes : ∀ c, c = 0 ∨ c = 0x58 →
      chr (r.1.getD 1 []) 1 = c := by
    intro c hc
    have hrc : fcbBytes (stack c) emptyDir ⟨0, 2, 5⟩ a_c false = some r := hr (stack c)
    obtain ⟨⟨dp', n⟩, hname, hn⟩ := Option.map_eq_some_iff.mp (shortName_a_c c hc)
    obtain rfl : n = _ := hn
    rw [fcbBytes, fcb_init_named _ _ _ hdots (by decide) hname] at hrc
    obtain rfl := Option.some_inj.mp hrc
    rcases hc with rfl | rfl
    · rfl
    · rfl
  exact absurd ((hbytes 0 (.inl rfl)).symm.trans (hbytes 0x58 (.inr rfl))) (by decide)

end LostWakeup.Fs.Fat32.ShortName
