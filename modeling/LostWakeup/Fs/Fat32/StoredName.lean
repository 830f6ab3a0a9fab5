/-
# LostWakeup.Fs.Fat32.StoredName — a name that `fat32_fcb_init` writes and a scan reads back.

The short name is made in arrays that nothing sets; `Ends` says when the parts of a name come to an end there.  The scan
reads the entries back into `name_buf`, and copies the name into a node of the directory's table.
-/
import LostWakeup.Fs.Fat32.ShortName

namespace LostWakeup.Fs.Fat32.StoredName

open Lib.Strings Lib.Hash Fs.Fat32.LongName Fs.Fat32.Dir
open Fs.Fat32.ShortName hiding trav_control fat32_inode_general_trav
open List (replicate)
open Option (bind_none bind_some map_some)

/-! ## Where the parts of a name end -/

/-- The bytes that are copied to the front of `file_name`. -/
def stem (name : CString) (isDir : Bool) : List UInt8 :=
  if isDir then (name.bytes ++ replicate 11 0).take 11
  else if 0x2E ∈ name.bytes then name.bytes.takeWhile (· != 0x2E)
  else (name.bytes ++ replicate 8 0).take 8

/-- The bytes that are copied to the front of `file_ext`. -/
def extension (name : CString) : List UInt8 := (name.bytes.dropWhile (· != 0x2E)).tail

/-- `file_name` behind the copy. -/
def fileName (loc : Locals) (name : CString) (isDir : Bool) : List UInt8 :=
  stem name isDir ++ loc.file_name.toList.drop (stem name isDir).length

/-- The parts of a name end in their arrays: a NUL stands behind them, and the string in `file_name` is short enough for
`name_search` where it goes there. -/
structure Ends (loc : Locals) (name : CString) (isDir : Bool) : Prop where
  file_name : 0 ∈ fileName loc name isDir
  name_search : 8 < name.bytes.length → (cstring (fileName loc name isDir)).length < 50
  file_ext : isDir = false → 0x2E ∈ name.bytes → 0 ∈ loc.file_ext.toList.drop (extension name).length

instance (loc : Locals) (name : CString) (isDir : Bool) : Decidable (Ends loc name isDir) :=
  decidable_of_iff (0 ∈ fileName loc name isDir ∧
      (8 < name.bytes.length → (cstring (fileName loc name isDir)).length < 50) ∧
      (isDir = false → 0x2E ∈ name.bytes → 0 ∈ loc.file_ext.toList.drop (extension name).length))
    ⟨fun ⟨h₁, h₂, h₃⟩ => ⟨h₁, h₂, h₃⟩, fun ⟨h₁, h₂, h₃⟩ => ⟨h₁, h₂, h₃⟩⟩

theorem strncpy_filled (name : CString) {n : Nat} {s : List UInt8} (hs : n ≤ s.length) :
    strncpy s name.memory n = some ((name.bytes ++ replicate n 0).take n ++ s.drop n) := by
  rcases Nat.le_total n name.bytes.length with h | h
  · rw [strncpy_long h hs, List.take_append_of_le_length h]
  · have hpad : copied name.memory n = some (name.bytes ++ replicate (n - name.bytes.length) 0) :=
      copied_padded name.nul_free [] h
    have htake : (name.bytes ++ replicate n (0 : UInt8)).take n =
        name.bytes ++ replicate (n - name.bytes.length) 0 := by
      rw [List.take_append, List.take_of_length_le h, List.take_replicate, Nat.min_eq_left (Nat.sub_le ..)]
    have hlen : (name.bytes ++ replicate (n - name.bytes.length) (0 : UInt8)).length = n := by
      rw [List.length_append, List.length_replicate]
      omega
    rw [strncpy, hpad, bind_some, store, if_pos (by rw [hlen]; exact hs), hlen, htake]

theorem split_dot {name : CString} (h : 0x2E ∈ name.bytes) :
    name.bytes = name.bytes.takeWhile (· != 0x2E) ++ 0x2E :: extension name ∧
      0x2E ∉ name.bytes.takeWhile (· != 0x2E) := by
  obtain ⟨s, t, hst, hs⟩ := List.eq_append_cons_of_mem h
  have hall : ∀ c ∈ s, (c != 0x2E) = true := fun c hc => bne_iff_ne.mpr fun hdot => hs (hdot ▸ hc)
  have htake : name.bytes.takeWhile (· != 0x2E) = s := by
    rw [hst, List.takeWhile_append_of_pos hall, List.takeWhile_cons_of_neg (by simp), List.append_nil]
  have hext : extension name = t := by
    rw [extension, hst, List.dropWhile_append_of_pos hall, List.dropWhile_cons_of_neg (by simp), List.tail_cons]
  rw [htake, hext]
  exact ⟨hst, hs⟩

theorem str_toupper_ends {s : List UInt8} (h : 0 ∈ s) :
    ∃ r, s = cstring s ++ 0 :: r ∧ 0 ∉ cstring s ∧ str_toupper s = some ((cstring s).map toupper ++ 0 :: r) := by
  obtain ⟨p, r, rfl, hp⟩ := List.eq_append_cons_of_mem h
  rw [cstring_append hp]
  exact ⟨r, rfl, hp, str_toupper_append hp r⟩

theorem strlen_ends {s : List UInt8} (h : 0 ∉ s) (r : List UInt8) : ∃ ext, fillExt (s ++ 0 :: r) = some ext := by
  obtain ⟨bytes, hcopy⟩ := copied_string h 3
  have hlen := copied_length (hcopy r)
  have hstore : strncpy (replicate 3 0) (s ++ 0 :: r) 3 = some bytes := by
    rw [strncpy, hcopy, bind_some, store, if_pos (by simp [hlen])]
    simp [hlen]
  rw [fillExt, hstore, bind_some, strlen_append h]
  exact ⟨_, rfl⟩

/-- The parts of a name, where its extension ends. -/
theorem nameParts_ends {loc : Locals} {name : CString} {isDir : Bool} (hlen : name.bytes.length ≤ 255)
    (h : isDir = false → 0x2E ∈ name.bytes → 0 ∈ loc.file_ext.toList.drop (extension name).length) :
    ∃ ext, nameParts loc name isDir = some (fileName loc name isDir, ext) := by
  have hfill : ∀ n ≤ 255, strncpy loc.file_name.toList name.memory n =
      some ((name.bytes ++ replicate n 0).take n ++ loc.file_name.toList.drop n) := fun n hn =>
    strncpy_filled name (by rw [Vector.length_toList]; exact hn)
  have htake : ∀ n, ((name.bytes ++ replicate n (0 : UInt8)).take n).length = n := fun n =>
    List.length_take_of_le (by rw [List.length_append, List.length_replicate]; omega)
  rcases isDir with _ | _
  · by_cases hdot : 0x2E ∈ name.bytes
    · obtain ⟨hst, hs⟩ := split_dot hdot
      have hs255 : (name.bytes.takeWhile (· != 0x2E)).length ≤ 255 :=
        Nat.le_trans (List.takeWhile_prefix _).length_le hlen
      have ht4 : (extension name).length < 4 := by
        by_contra hge
        have hend := h rfl hdot
        rw [List.drop_eq_nil_of_le (by rw [Vector.length_toList]; omega)] at hend
        exact absurd hend List.not_mem_nil
      have ht0 : 0 ∉ extension name := (split_nul_free hst).2
      obtain ⟨r, hr, hend, hupper⟩ := str_toupper_ends (List.mem_append_right (extension name) (h rfl hdot))
      obtain ⟨ext, hext⟩ := strlen_ends (upper_nul_free hend) r
      refine ⟨ext, ?_⟩
      simp only [nameParts, Bool.false_eq_true, if_false, str_split_found hst hs, store, Vector.length_toList,
        if_pos hs255, if_pos ht4.le, bind_some, map_some, hupper, hext, fileName, stem,
        if_pos hdot]
    · refine ⟨[0x20, 0x20, 0x20], ?_⟩
      simp only [nameParts, Bool.false_eq_true, if_false, str_split_missing hdot, hfill 8 (by decide), map_some,
        fileName, stem, if_neg hdot, htake]
  · refine ⟨if 8 < name.bytes.length then [0x20, 0x20, 0x20] else [0, 0, 0], ?_⟩
    simp only [nameParts, if_true, hfill 11 (by decide), map_some, fileName, stem, htake]

theorem nameParts_overrun {loc : Locals} {name : CString} (hdot : 0x2E ∈ name.bytes)
    (h : 0 ∉ loc.file_ext.toList.drop (extension name).length) : nameParts loc name false = none := by
  obtain ⟨hst, hs⟩ := split_dot hdot
  by_contra hsome
  obtain ⟨⟨file_name, ext⟩, hparts⟩ := Option.ne_none_iff_exists'.mp hsome
  obtain ⟨-, -, -, hupper⟩ := nameParts_split hst hs hparts
  rw [str_toupper_eq_none, bind_none] at hupper
  · exact absurd hupper (by simp)
  · rw [List.mem_append, not_or]
    exact ⟨(split_nul_free hst).2, h⟩

/-! ## The short name -/

theorem copied_front (c : UInt8) (t : List UInt8) (n : Nat) {bytes : List UInt8} (h : copied (c :: t) (n + 1) = some bytes)
    (hc : c ≠ 0) : ∃ rest, bytes = c :: rest := by
  rw [copied, if_neg hc] at h
  obtain ⟨rest, -, rfl⟩ := Option.map_eq_some_iff.mp h
  exact ⟨rest, rfl⟩

theorem fileName_front (loc : Locals) {name : CString} (isDir : Bool) {c : UInt8} {cs : List UInt8}
    (hname : name.bytes = c :: cs) (hdot : c ≠ 0x2E) : c ≠ 0 ∧ ∃ s, cstring (fileName loc name isDir) = c :: s := by
  have hc : c ≠ 0 := fun h0 => name.nul_free (by rw [hname, h0]; exact List.mem_cons_self)
  have hstem : ∃ rest, stem name isDir = c :: rest := by
    rw [stem, hname]
    split
    · exact ⟨_, List.take_succ_cons⟩
    · split
      · exact ⟨_, List.takeWhile_cons_of_pos (bne_iff_ne.mpr hdot)⟩
      · exact ⟨_, List.take_succ_cons⟩
  obtain ⟨rest, hrest⟩ := hstem
  rw [fileName, hrest]
  exact ⟨hc, _, List.takeWhile_cons_of_pos (bne_iff_ne.mpr hc)⟩

/-- A name whose parts end gets a short name, which begins with the same letter. -/
theorem shortName_ends {loc : Locals} (dp : inode) {name : CString} {isDir : Bool} (hlen : name.bytes.length ≤ 255)
    {c : UInt8} {cs : List UInt8} (hname : name.bytes = c :: cs) (hdot : c ≠ 0x2E) (h : Ends loc name isDir) :
    ∃ rest, (shortName loc dp name isDir).map Prod.snd = some (toupper c :: rest) := by
  obtain ⟨ext, hparts⟩ := nameParts_ends hlen h.file_ext
  obtain ⟨r, hr, hend, hupper⟩ := str_toupper_ends h.file_name
  obtain ⟨hc, s, hs⟩ := fileName_front loc isDir hname hdot
  have hup := upper_nul_free hend
  obtain ⟨base, hbase⟩ := copied_string hup 8
  have hblen := copied_length (hbase r)
  have hstore : strncpy (replicate 8 0) ((cstring (fileName loc name isDir)).map toupper ++ 0 :: r) 8 = some base := by
    rw [strncpy, hbase r, bind_some, store, if_pos (by simp [hblen]),
      List.drop_eq_nil_of_le (by simp [hblen]), List.append_nil]
  have hfront := hbase r
  rw [hs, List.map_cons, List.cons_append] at hfront
  obtain ⟨base', rfl⟩ := copied_front _ _ 7 hfront (toupper_ne_zero c hc)
  simp only [shortName, hparts, bind_some, hupper, hstore]
  split
  · next hlong =>
    have hcnt := find_same_name_cnt_string loc.tc dp hup r
    have hne : (cstring (fileName loc name isDir)).map toupper ≠ [] := by
      rw [hs]
      exact List.cons_ne_nil _ _
    rw [if_neg hne, if_pos (by rw [List.length_map]; exact h.name_search hlong)] at hcnt
    obtain ⟨⟨dp', n⟩, hfind, -⟩ := Option.map_eq_some_iff.mp hcnt
    rw [hfind]
    exact ⟨_, rfl⟩
  · exact ⟨_, rfl⟩

/-- Where one of the parts does not end, an array is left. -/
theorem shortName_overrun {loc : Locals} (dp : inode) {name : CString} {isDir : Bool} (hlen : name.bytes.length ≤ 255)
    {c : UInt8} {cs : List UInt8} (hname : name.bytes = c :: cs) (hdot : c ≠ 0x2E) (h : ¬ Ends loc name isDir) :
    shortName loc dp name isDir = none := by
  by_cases hext : isDir = false → 0x2E ∈ name.bytes → 0 ∈ loc.file_ext.toList.drop (extension name).length
  · obtain ⟨ext, hparts⟩ := nameParts_ends hlen hext
    by_cases hend : 0 ∈ fileName loc name isDir
    · obtain ⟨r, hr, hnul, hupper⟩ := str_toupper_ends hend
      obtain ⟨hc, s, hs⟩ := fileName_front loc isDir hname hdot
      have hne : (cstring (fileName loc name isDir)).map toupper ≠ [] := by
        rw [hs]
        exact List.cons_ne_nil _ _
      have hsearch : 8 < name.bytes.length ∧ ¬ (cstring (fileName loc name isDir)).length < 50 := by
        by_contra hboth
        exact h ⟨hend, fun hlong => by_contra fun hroom => hboth ⟨hlong, hroom⟩, hext⟩
      have hcnt := find_same_name_cnt_string loc.tc dp (upper_nul_free hnul) r
      rw [if_neg hne, if_neg (by rw [List.length_map]; exact hsearch.2), Option.map_eq_none_iff] at hcnt
      simp only [shortName, hparts, bind_some, hupper, if_pos hsearch.1, hcnt, Option.map_none,
        Option.bind_fun_none]
    · simp only [shortName, hparts, bind_some, str_toupper_eq_none hend, bind_none]
  · rw [Classical.not_imp, Classical.not_imp] at hext
    obtain ⟨rfl, hmem, hend⟩ := hext
    rw [shortName, nameParts_overrun hmem hend, bind_none]

/-! ## The entries -/

/-- What `fat32_fcb_init` writes: long entries that the scan pushes, and a short entry that it then names
from them. -/
structure Written (name : List UInt8) (es : List dirent_l_t) (short : List UInt8) : Prop where
  length_eq : es.length = ordMax name
  pushed : ∀ e ∈ es, Pushed e
  named : travel_fcb es.reverse short = .ok ([], .file name true)
  room_eq : written es.reverse 1 = room name

/-- A name that `fat32_fcb_init` can be called with and a scan can find: not empty and short enough for a path, and its
entry does not begin like that of a dot or of a free entry. -/
structure Storable (name : CString) : Prop where
  pos : 1 ≤ name.bytes.length
  le : name.bytes.length ≤ 254
  not_dot : chr name.bytes 0 ≠ 0x2E
  not_free : chr name.bytes 0 ≠ 0xE5

theorem Storable.front {name : CString} (h : Storable name) : ∃ c cs, name.bytes = c :: cs ∧ c ≠ 0x2E ∧ c ≠ 0xE5 ∧ c ≠ 0 := by
  obtain ⟨c, cs, hname⟩ := List.exists_cons_of_length_pos h.pos
  have hchr : chr name.bytes 0 = c := by
    rw [hname]
    rfl
  exact ⟨c, cs, hname, hchr ▸ h.not_dot, hchr ▸ h.not_free, fun h0 => name.nul_free (by rw [hname, h0]; exact List.mem_cons_self)⟩

theorem Storable.not_dots {name : CString} (h : Storable name) : ¬ Dots name := by
  obtain ⟨c, cs, hname, hdot, -, -⟩ := h.front
  rintro (h | h)
  · exact hdot (List.cons.inj (hname.symm.trans h)).1
  · exact hdot (List.cons.inj (hname.symm.trans h)).1

theorem written_longs {name : CString} (h : Storable name) (given : Given) (isDir : Bool) {DIR_Name : List UInt8}
    (hlen : DIR_Name.length = 11)
    (hfree : NAME0_FREE_ALL (chr DIR_Name 0) = false ∧ NAME0_FREE_ONLY (chr DIR_Name 0) = false) :
    Written name.bytes (longs name.bytes DIR_Name) (shortEntry given isDir DIR_Name).bytes := by
  have hpop := popstack_longEntries name.nul_free h.pos h.le DIR_Name
  have hattr : LONG_NAME_BOOL (shortEntry given isDir DIR_Name).DIR_Attr = false := by
    show LONG_NAME_BOOL (if isDir then ATTR_DIRECTORY else ATTR_ARCHIVE) = false
    rcases isDir with _ | _
    · rfl
    · rfl
  refine ⟨by simp [longs], fun e he => ?_, ?_, ?_⟩
  · have hord := (ordMax_bounds h.pos h.le).2.1
    exact longEntries_pushed name.bytes _ (Nat.le_refl 1) (by omega) e (List.mem_reverse.mp he)
  · rw [longs, List.reverse_reverse]
    exact travel_fcb_short _ hlen hfree hattr hpop.1
  · rw [longs, List.reverse_reverse]
    exact hpop.2

theorem fcb_init_ends {loc : Locals} (dp : inode) (given : Given) {name : CString} (hname : Storable name) {isDir : Bool}
    (h : Ends loc name isDir) : ∃ dp' es short, (∃ hint, dp' = { dp with off_hint := hint }) ∧
      fat32_fcb_init loc dp given name isDir = .ok (dp', es.map dirent_l_t.bytes ++ [short], es.length + 1) ∧
      Written name.bytes es short := by
  obtain ⟨c, cs, hcons, hdot, hE5, hc⟩ := hname.front
  have h255 : name.bytes.length ≤ 255 := Nat.le_trans hname.le (by decide)
  obtain ⟨rest, hshort⟩ := shortName_ends dp h255 hcons hdot h
  obtain ⟨⟨dp', n⟩, hsome, hn⟩ := Option.map_eq_some_iff.mp hshort
  obtain rfl : n = toupper c :: rest := hn
  have hcap : ordMax name.bytes ≤ CAPACITY := Nat.le_trans (ordMax_bounds hname.pos hname.le).2.1 (by decide)
  have hwritten := written_longs hname given isDir (shortName_length hshort) (toupper_not_free c hc hE5)
  refine ⟨dp', _, _, shortName_dir hsome, ?_, hwritten⟩
  rw [fcb_init_named loc dp given hname.not_dots hcap hsome, hwritten.length_eq]

/-! ## The round trip -/

/-- The entries handled one after the other, up to an end marker: the table, the stack, and what each entry was. -/
def travel : hash_table → List dirent_l_t → Nat → List (List UInt8) →
    Except Dir.Panic (hash_table × List dirent_l_t × List Outcome)
  | table, fcb_stack, _, [] => .ok (table, fcb_stack, [])
  | table, fcb_stack, off, fcb :: fcbs =>
    match travel_fcb fcb_stack fcb with
    | .error e => .error (.fcb e)
    | .ok (stack, .all_free) => .ok (table, stack, [.all_free])
    | .ok (stack, .file name_buf long_valid) =>
      match pass table fcb_stack name_buf off with
      | .error e => .error e
      | .ok table =>
        (travel table stack (off + 1) fcbs).map fun r => (r.1, r.2.1, .file name_buf long_valid :: r.2.2)
    | .ok (stack, o) => (travel table stack (off + 1) fcbs).map fun r => (r.1, r.2.1, o :: r.2.2)

/-- Over long entries the scan only pushes. -/
theorem travel_pushed {es : List dirent_l_t} (hes : ∀ e ∈ es, Pushed e) (table : hash_table) (stack : List dirent_l_t)
    (off : Nat) (hcap : stack.length + es.length ≤ CAPACITY) (rest : List (List UInt8)) :
    travel table stack off (es.map dirent_l_t.bytes ++ rest) = (travel table (es.reverse ++ stack) (off + es.length) rest).map
      fun r => (r.1, r.2.1, replicate es.length .long ++ r.2.2) := by
  induction es generalizing stack off with
  | nil => rcases h : travel table stack off rest with e | r <;> simp [h, Except.map]
  | cons e es ih =>
    rw [List.length_cons] at hcap
    have hpush := travel_fcb_long (hes e (.head es)) (show stack.length < CAPACITY by omega)
    have hrest := ih (fun f hf => hes f (.tail e hf)) (e :: stack) (off + 1) (by rw [List.length_cons]; omega)
    simp only [List.map_cons, List.cons_append, travel, hpush, hrest, List.reverse_cons, List.append_assoc,
      List.nil_append, List.length_cons, Nat.add_right_comm off 1, Nat.add_assoc]
    rcases travel table (es.reverse ++ e :: stack) (off + (es.length + 1)) rest with err | r
    · rfl
    · simp [Except.map, List.replicate_succ]

/-- A name goes through the buffer and the table exactly if there is room for it in both. -/
theorem pass_ok_iff {name : List UInt8} (hne : name ≠ []) (hdot : chr name 0 ≠ 0x2E) (table : hash_table)
    (stack : List dirent_l_t) (off : Nat) : (∃ table', pass table stack name off = .ok table') ↔
      written stack 1 ≤ NAME_LONG_MAX ∧ ((hash_lookup table name).isSome = true ∨ name.length < KEY_NAME) := by
  rw [Dir.pass]
  by_cases hroom : NAME_LONG_MAX < written stack 1
  · simp [if_pos hroom, not_le.mpr hroom]
  rw [if_neg hroom, if_pos hdot, fat32_inode_hash_insert, and_iff_right (not_lt.mp hroom)]
  rcases hfound : hash_lookup table name with _ | node
  · simp only [copyName, if_neg hne, Option.isSome_none, Bool.false_eq_true, false_or]
    by_cases hlen : KEY_NAME ≤ name.length
    · simp [if_pos hlen, not_lt.mpr hlen]
    · simp [if_neg hlen, Nat.not_le.mp hlen]
  · simp

/-- `fat32_fcb_init` writes entries, as many as it says, and the scan of these, from offset `off` on, consumes them all and
finds one file: of the same name, and from long entries. -/
def RoundTrip (loc : Locals) (dp : inode) (given : Given) (name : CString) (isDir : Bool) (table : hash_table)
    (off : Nat) : Prop :=
  ∃ dp' fcbs table', fat32_fcb_init loc dp given name isDir = .ok (dp', fcbs, fcbs.length) ∧
    travel table [] off fcbs = .ok (table', [], replicate (fcbs.length - 1) .long ++ [.file name.bytes true])

/-- There is room for the name in each array that it goes through. -/
structure Fits (loc : Locals) (name : CString) (isDir : Bool) (table : hash_table) : Prop where
  parts : Ends loc name isDir
  name_buf : room name.bytes ≤ NAME_LONG_MAX
  key_name : (hash_lookup table name.bytes).isSome = true ∨ name.bytes.length < KEY_NAME

/-- The scan of what was written succeeds exactly if the name passes. -/
theorem travel_written {name : List UInt8} {es : List dirent_l_t} {short : List UInt8} (h : Written name es short)
    (hord : ordMax name ≤ CAPACITY) (table : hash_table) (off : Nat) :
    travel table [] off (es.map dirent_l_t.bytes ++ [short]) =
      (pass table es.reverse name (off + es.length)).map
        fun table => (table, [], replicate es.length .long ++ [.file name true]) := by
  rw [travel_pushed h.pushed table [] off (by rw [List.length_nil, h.length_eq]; omega), List.append_nil, travel, h.named]
  dsimp only
  rcases pass table es.reverse name (off + es.length) with e | table'
  · rfl
  · rfl

/-- **A name survives the directory** exactly if there is room for it on its way: the scan consumes as many entries as
`fat32_fcb_init` counted and finds one file, under the same name. -/
theorem name_round_trip_iff {name : CString} (hname : Storable name) (loc : Locals) (dp : inode) (given : Given)
    (isDir : Bool) (table : hash_table) (off : Nat) :
    RoundTrip loc dp given name isDir table off ↔ Fits loc name isDir table := by
  obtain ⟨c, cs, hcons, hdot, -, -⟩ := hname.front
  have h255 : name.bytes.length ≤ 255 := Nat.le_trans hname.le (by decide)
  by_cases hends : Ends loc name isDir
  · obtain ⟨dp', es, short, -, hinit, hwritten⟩ := fcb_init_ends dp given hname hends
    have hcap : ordMax name.bytes ≤ CAPACITY := Nat.le_trans (ordMax_bounds hname.pos hname.le).2.1 (by decide)
    have htravel := travel_written hwritten hcap table off
    have hlen : (es.map dirent_l_t.bytes ++ [short]).length = es.length + 1 := by simp
    have hpass := pass_ok_iff (List.ne_nil_of_length_pos hname.pos) hname.not_dot table es.reverse (off + es.length)
    rw [hwritten.room_eq] at hpass
    constructor
    · rintro ⟨dp₁, fcbs, table', hinit', hscan⟩
      rw [hinit] at hinit'
      obtain ⟨-, rfl, -⟩ := Prod.mk.inj (Except.ok.inj hinit') |>.imp id Prod.mk.inj
      rw [htravel] at hscan
      rcases hres : pass table es.reverse name.bytes (off + es.length) with e | table₁
      · rw [hres] at hscan
        cases hscan
      · obtain ⟨hbuf, hkey⟩ := hpass.mp ⟨table₁, hres⟩
        exact ⟨hends, hbuf, hkey⟩
    · rintro ⟨-, hbuf, hkey⟩
      obtain ⟨table₁, hres⟩ := hpass.mpr ⟨hbuf, hkey⟩
      refine ⟨dp', _, table₁, by rw [hinit, hlen], ?_⟩
      rw [htravel, hres, hlen]
      rfl
  · refine ⟨fun h => ?_, fun h => absurd h.parts hends⟩
    obtain ⟨dp', fcbs, table', hinit, -⟩ := h
    rw [fcb_init_overrun loc dp given hname.not_dots (shortName_overrun dp h255 hcons hdot hends)] at hinit
    cases hinit

/-- A name of exactly two entries. -/
theorem name_round_trip_twenty_six : RoundTrip nuls emptyDir ⟨0, 2, 5⟩ ⟨replicate 26 0x61, by decide⟩ false
    hash_table_entry_init 0 :=
  (name_round_trip_iff ⟨by decide, by decide, by decide, by decide⟩ nuls emptyDir ⟨0, 2, 5⟩ false hash_table_entry_init 0).mpr
    ⟨⟨by decide +kernel, fun _ => by decide +kernel, fun _ hdot => absurd hdot (by decide)⟩, by decide, .inr (by decide)⟩

/-- The extension of `a.bbbbbbbb` is copied into four bytes. -/
theorem long_extension_overrun : ¬ RoundTrip nuls emptyDir ⟨0, 2, 5⟩
    ⟨0x61 :: 0x2E :: replicate 8 0x62, by decide⟩ false hash_table_entry_init 0 := by
  rintro ⟨dp', fcbs, table', hinit, -⟩
  rw [fcb_init_overrun nuls emptyDir ⟨0, 2, 5⟩ (by unfold Dots; decide) (by decide +kernel)] at hinit
  cases hinit

end LostWakeup.Fs.Fat32.StoredName
