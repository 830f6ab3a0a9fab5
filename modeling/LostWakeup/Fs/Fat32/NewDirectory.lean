/-
# LostWakeup.Fs.Fat32.NewDirectory — what is in a directory that was just made.

`fat32_inode_create` writes "." and ".." into the first page of the new directory, which is read from a cluster that
nobody clears.  Both entries are made from the new inode, so ".." leads to the directory itself.

Here the parent is a list of entries, and the new directory has its pages.
-/
import LostWakeup.Fs.PageCache
import LostWakeup.Fs.Fat32.Fcb
import LostWakeup.Fs.Fat32.InsertPoint

namespace LostWakeup.Fs.Fat32.NewDirectory

open Lib.Strings Fs.Fat32.LongName Fs.Fat32.Dir Fs.Fat32.ShortName
open Fs.Fat32.InsertPoint
open Fs.PageCache (view mappingOf Shows Keeps)
open Fs.Fat32.Fcb (DIR_FIRST_CLUS)

/-! ## The model -/

/-- The chains of clusters by their first one: how many clusters there are, and what these hold on the disk. -/
structure Volume where
  cluster_size : Nat
  cluster_cnt : UInt32 → Nat
  bytes : UInt32 → Nat → UInt8
  entries_fit : 32 ∣ cluster_size
  size_ge : 64 ≤ cluster_size
  /-- The size of a directory is a `uint`. -/
  size_lt : ∀ c, cluster_cnt c * cluster_size < 2 ^ 32
  one_lt : cluster_size < 2 ^ 32

/-- A directory with its pages. -/
structure Directory where
  ip : PageCache.inode
  cluster_start : UInt32

/-- What a creation finds in its uninitialised variables, what it gets from `fat32_cluster_alloc`, and what page
reads deliver past the end of a file. -/
structure Given where
  loc : Locals
  tc : trav_control
  dot : Locals
  dotdot : Locals
  dev : UInt8
  first_c : UInt32
  beyond : Nat → UInt8

inductive Panic
  | dir (e : Dir.Panic)
  | page (e : PageCache.Panic)
  /-- `ASSERT(tot == 32)`. -/
  | tot_assert
  deriving DecidableEq

/-- `fat32_cluster_alloc`, for the chain: it is one cluster long, and not cleared. -/
def fat32_cluster_alloc (vol : Volume) (c : UInt32) : Volume :=
  { vol with
    cluster_cnt := Function.update vol.cluster_cnt c 1
    size_lt := fun d => by
      rcases eq_or_ne d c with rfl | hne
      · rw [Function.update_self, Nat.one_mul]
        exact vol.one_lt
      · rw [Function.update_of_ne hne]
        exact vol.size_lt d }

/-- The first cluster that an entry names. -/
def firstCluster (fcb : List UInt8) : UInt32 := DIR_FIRST_CLUS (unitAt fcb 20) (unitAt fcb 26)

/-- `fat32_inode_load_from_disk` for the entry of a directory: the size is `DIRLENGTH`. -/
def fat32_inode_load_from_disk (vol : Volume) (fcb : List UInt8) : Directory :=
  let cluster_start := firstCluster fcb
  ⟨PageCache.opened (vol.bytes cluster_start) (vol.cluster_cnt cluster_start * vol.cluster_size), cluster_start⟩

/-- `fat32_inode_write` on a directory, which grows by whole clusters. -/
def fat32_inode_write (cluster_size : Nat) (ip : PageCache.inode) (beyond : Nat → UInt8) (off n : Nat)
    (src : Nat → UInt8) : Except PageCache.Panic (PageCache.inode × Int) :=
  (PageCache.fat32_inode_write ip beyond off n src).map fun (ip', tot) =>
    if ip.i_size < ip'.i_size then
      ({ ip' with i_size := (ip'.i_size + cluster_size - 1) / cluster_size * cluster_size }, tot)
    else (ip', tot)

/-- The entries of a directory, as its pages show them. -/
def entries (ip : PageCache.inode) : List (List UInt8) :=
  (List.range (ip.i_size / 32)).map fun i => (List.range 32).map fun j => view ip.disk (mappingOf ip) (32 * i + j)

def dot : CString := ⟨[0x2E], by decide⟩
def dotdot : CString := ⟨[0x2E, 0x2E], by decide⟩

/-- One of the two entries: `fat32_fcb_init` gets the new inode. -/
def writeDot (cluster_size : Nat) (loc : Locals) (g : Given) (name : CString) (off : Nat) (d : Directory) :
    Except Panic Directory :=
  match ShortName.fat32_fcb_init loc ⟨cluster_size, entries d.ip, none, 0⟩ ⟨g.dev, d.cluster_start, g.first_c⟩ name true with
  | .error e => .error (.dir e)
  | .ok (_, fcb_dot_char, _) =>
    match fat32_inode_write cluster_size d.ip g.beyond off 32 (chr fcb_dot_char.flatten) with
    | .error e => .error (.page e)
    | .ok (ip, tot) => if tot = 32 then .ok { d with ip := ip } else .error .tot_assert

/-- `fat32_inode_create` with type `S_IFDIR`, in the directory that begins at `parent`. -/
def fat32_inode_create (vol : Volume) (g : Given) (dp : Dir.inode) (parent : UInt32) (name : CString) :
    Except Panic (Dir.inode × Option Directory) :=
  match fat32_inode_dirlookup dp name.bytes with
  | .error e => .error (.dir e)
  | .ok (dp, some _) => .ok (dp, none)
  | .ok (dp, none) =>
    match ShortName.fat32_inode_alloc g.loc g.tc dp ⟨g.dev, parent, g.first_c⟩ name true with
    | .error e => .error (.dir e)
    | .ok (dp, off) =>
      -- for the dots themselves no cluster is allocated
      let vol := if name.bytes = [0x2E] ∨ name.bytes = [0x2E, 0x2E] then vol else fat32_cluster_alloc vol g.first_c
      match writeDot vol.cluster_size g.dot g dot 0 (fat32_inode_load_from_disk vol (entryAt dp off)) with
      | .error e => .error e
      | .ok d =>
        match writeDot vol.cluster_size g.dotdot g dotdot 32 d with
        | .error e => .error e
        | .ok d => .ok (dp, some d)

/-! ## The law -/

/-- A full scan finds the two dots and nothing else, and they lead to `own` and `parent`. -/
structure Dotted (fcbs : List (List UInt8)) (own parent : UInt32) : Prop where
  scan : ∃ stack, liveFiles [] 0 fcbs = .ok (stack, [([0x2E], 0), ([0x2E, 0x2E], 1)])
  dot : firstCluster (fcbs.getD 0 []) = own
  dotdot : firstCluster (fcbs.getD 1 []) = parent

/-- From the page cache and, when the pages have been written back and dropped, from the disk. -/
structure WellFormed (d : Directory) (parent : UInt32) : Prop where
  cached : Dotted (entries d.ip) d.cluster_start parent
  written : Dotted (entries (PageCache.alloc_fail (PageCache.fat32_i_mapping_writeback d.ip))) d.cluster_start parent

/-- The first cluster of the new directory. -/
def newCluster (g : Given) (parent : UInt32) (name : CString) : UInt32 :=
  if name.bytes = [0x2E] ∨ name.bytes = [0x2E, 0x2E] then parent else g.first_c

/-- The number of its clusters. -/
def newCount (vol : Volume) (parent : UInt32) (name : CString) : Nat :=
  if name.bytes = [0x2E] ∨ name.bytes = [0x2E, 0x2E] then vol.cluster_cnt parent else 1

/-- Entries on the disk, from number `first` on. -/
def stale (bytes : Nat → UInt8) (first cnt : Nat) : List (List UInt8) :=
  (List.range cnt).map fun i => (List.range 32).map fun j => bytes (32 * (first + i) + j)

/-- What the chain holds behind the first two entries reads as nothing. -/
def RestEmpty (vol : Volume) (c : UInt32) (cnt : Nat) : Prop :=
  ∃ stack, liveFiles [] 2 (stale (vol.bytes c) 2 (cnt * vol.cluster_size / 32 - 2)) = .ok (stack, [])

/-! ## The two writes -/

/-- A write of one entry inside the directory. -/
theorem write_entry (cluster_size : Nat) {ip : PageCache.inode} {c : Nat → UInt8} (h : Shows ip c)
    (beyond src : Nat → UInt8) {off : Nat} (hoff : off + 32 ≤ ip.i_size) (hkeeps : Keeps ip (mappingOf ip) off 32) :
    ∃ ip', fat32_inode_write cluster_size ip beyond off 32 src = .ok (ip', 32) ∧ ip'.i_size = ip.i_size ∧
      ((mappingOf ip').page_tree (off / PageCache.PGSIZE)).isSome = true ∧
      Shows ip' fun p => if off ≤ p ∧ p < off + 32 then src (p - off) else c p := by
  have hsize := h.inv.size_lt
  obtain ⟨m', hrun, hw⟩ := PageCache.writeLoop_spec beyond src 32 (mappingOf ip) 0 (by decide) le_rfl hkeeps
  have hrun' : PageCache.writeLoop ip beyond src 32 32 (mappingOf ip) off 0 = .ok m' := hrun
  obtain ⟨ip', r, hwrite, hshows⟩ := PageCache.write_shows h beyond src (show 32 < 2 ^ 32 by decide)
    (show PageCache.WriteAllowed ip off 32 from ⟨by decide, by omega, .inr ⟨by decide, hkeeps⟩⟩)
  have hvalue : PageCache.fat32_inode_write ip beyond off 32 src =
      .ok ({ ip with i_mapping := some m', dirty_list := true }, 32) := by
    have hint : Library.int32 ((32 : Nat) : Int) = 32 := by decide
    unfold PageCache.fat32_inode_write
    rw [if_neg (by omega), if_neg (by decide), hrun']
    simp only [hint]
    rw [if_neg (by decide), if_neg (by omega)]
  rw [hvalue] at hwrite
  obtain ⟨rfl, rfl⟩ := Prod.mk.inj (Except.ok.inj hwrite)
  refine ⟨{ ip with i_mapping := some m', dirty_list := true }, ?_, rfl, (hw.tagged off le_rfl (Nat.lt_add_of_pos_right (by decide))).2,
    ⟨hshows.inv, fun p hp => ?_⟩⟩
  · rw [fat32_inode_write, hvalue]
    simp [Except.map]
  rw [hshows.bytes p hp]
  simp only [PageCache.apply]
  by_cases hin : off ≤ p ∧ p < off + 32
  · rw [if_pos hin, if_pos ⟨by omega, hin⟩]
  · rw [if_neg hin, if_neg fun hall => hin hall.2]

/-- The entry that is written. -/
def dotBytes (g : Given) (name : CString) (c : UInt32) : List UInt8 :=
  (dotEntry ⟨g.dev, c, g.first_c⟩ name true).bytes

theorem writeDot_spec (cluster_size : Nat) (loc : Locals) (g : Given) {name : CString} (hname : Dots name)
    {d : Directory} {c : Nat → UInt8} (h : Shows d.ip c) {off : Nat} (hoff : off + 32 ≤ d.ip.i_size)
    (hkeeps : Keeps d.ip (mappingOf d.ip) off 32) :
    ∃ ip', writeDot cluster_size loc g name off d = .ok ⟨ip', d.cluster_start⟩ ∧ ip'.i_size = d.ip.i_size ∧
      ((mappingOf ip').page_tree (off / PageCache.PGSIZE)).isSome = true ∧
      Shows ip' fun p => if off ≤ p ∧ p < off + 32 then chr (dotBytes g name d.cluster_start) (p - off) else c p := by
  obtain ⟨ip', hwrite, hsize, hpage, hshows⟩ := write_entry cluster_size h g.beyond
    (chr (dotBytes g name d.cluster_start)) hoff hkeeps
  refine ⟨ip', ?_, hsize, hpage, hshows⟩
  have hflat : [dotBytes g name d.cluster_start].flatten = dotBytes g name d.cluster_start := by simp
  rw [writeDot, fcb_init_dots _ _ _ hname]
  dsimp only
  rw [← dotBytes, hflat, hwrite]
  rfl

/-! ## Entries -/

theorem entries_of_shows {ip : PageCache.inode} {c : Nat → UInt8} (h : Shows ip c) :
    entries ip = stale c 0 (ip.i_size / 32) := by
  unfold entries stale
  apply List.map_congr_left
  intro i hi
  apply List.map_congr_left
  intro j hj
  rw [List.mem_range] at hi hj
  rw [Nat.zero_add]
  exact h.bytes _ (by omega)

theorem entries_written {ip : PageCache.inode} {c : Nat → UInt8} (h : Shows ip c) :
    entries (PageCache.alloc_fail (PageCache.fat32_i_mapping_writeback ip)) = entries ip := by
  have hsize : (PageCache.alloc_fail (PageCache.fat32_i_mapping_writeback ip)).i_size = ip.i_size := by
    unfold PageCache.alloc_fail PageCache.fat32_i_mapping_writeback
    rcases hd : ip.dirty_list with _ | _
    · simp [hd]
    · simp [PageCache.mpage_writepage]
  rw [entries_of_shows h, entries_of_shows (PageCache.alloc_fail_shows (PageCache.writeback_shows h)), hsize]

theorem stale_succ (c : Nat → UInt8) (first cnt : Nat) :
    stale c first (cnt + 1) = ((List.range 32).map fun j => c (32 * first + j)) :: stale c (first + 1) cnt := by
  have hrange : List.range (cnt + 1) = 0 :: (List.range cnt).map Nat.succ := List.range_succ_eq_map
  rw [stale, hrange, List.map_cons, List.map_map, Nat.add_zero]
  congr 1
  apply List.map_congr_left
  intro i _
  simp only [Function.comp_apply]
  rw [show first + i.succ = first + 1 + i by omega]

theorem stale_congr {c c' : Nat → UInt8} {first cnt : Nat} (h : ∀ p, 32 * first ≤ p → c p = c' p) :
    stale c first cnt = stale c' first cnt := by
  apply List.map_congr_left
  intro i _
  apply List.map_congr_left
  intro j _
  exact h _ (by omega)

theorem map_chr {fcb : List UInt8} (h : fcb.length = 32) : (List.range 32).map (chr fcb) = fcb := by
  apply List.ext_getElem (by simp [h])
  intro i h1 h2
  rw [List.getElem_map, List.getElem_range, chr, List.getD_eq_getElem _ _ h2]

theorem dotBytes_length (g : Given) {name : CString} (hname : Dots name) (c : UInt32) : (dotBytes g name c).length = 32 := by
  rcases hname with h | h <;> simp [dotBytes, dotEntry, dirent_s_t.bytes, h, unitBytes]

/-! ## Clusters in entries -/

theorem dir_first (x : UInt32) : DIR_FIRST_CLUS (DIR_FIRST_HIGH x) (DIR_FIRST_LOW x) = x := by
  have hshift : UInt32.toBitVec 16 % 32 = 16#32 := by decide
  have hmask : ∀ i < 32, (UInt32.toBitVec 65535).getLsbD i = decide (i < 16) := by decide
  apply UInt32.toBitVec_inj.mp
  ext i hi
  simp only [DIR_FIRST_CLUS, DIR_FIRST_HIGH, DIR_FIRST_LOW, UInt32.toBitVec_or, UInt32.toBitVec_shiftLeft,
    UInt16.toBitVec_toUInt32, UInt32.toBitVec_toUInt16, UInt32.toBitVec_shiftRight, UInt32.toBitVec_and,
    BitVec.getElem_or, hshift]
  simp only [← BitVec.getLsbD_eq_getElem, BitVec.shiftLeft_eq', BitVec.ushiftRight_eq', BitVec.getLsbD_shiftLeft,
    BitVec.getLsbD_setWidth, BitVec.getLsbD_ushiftRight, BitVec.getLsbD_and, hmask i hi]
  by_cases h : i < 16
  · simp [h, hi]
  · simp [h, hi, show i - 16 < 16 by omega, show i - 16 < 32 by omega, show 16 + (i - 16) = i by omega]

theorem firstCluster_bytes {e : LongName.dirent_s_t} (hlen : e.DIR_Name.length = 11) {c : UInt32}
    (hhigh : e.DIR_FstClusHI = DIR_FIRST_HIGH c) (hlow : e.DIR_FstClusLO = DIR_FIRST_LOW c) :
    firstCluster e.bytes = c := by
  have h20 : unitAt e.bytes 20 = e.DIR_FstClusHI := by
    simp [unitAt, chr, dirent_s_t.bytes, unitBytes, hlen, unit_unitBytes, -UInt16.toUInt16_toUInt8]
  have h26 : unitAt e.bytes 26 = e.DIR_FstClusLO := by
    simp [unitAt, chr, dirent_s_t.bytes, unitBytes, hlen, unit_unitBytes, -UInt16.toUInt16_toUInt8]
  rw [firstCluster, h20, h26, hhigh, hlow, dir_first]

theorem dotEntry_name {name : CString} (hname : Dots name) (given : ShortName.Given) (isDir : Bool) :
    (dotEntry given name isDir).DIR_Name.length = 11 := by
  rcases hname with h | h <;> simp [dotEntry, h]

theorem dotBytes_cluster (g : Given) {name : CString} (hname : Dots name) (c : UInt32) :
    firstCluster (dotBytes g name c) = c :=
  firstCluster_bytes (dotEntry_name hname _ true) rfl rfl

/-- The scan reads such an entry as a file of that name. -/
theorem travel_dot (g : Given) {name : CString} (hname : Dots name) (c : UInt32) :
    travel_fcb [] (dotBytes g name c) = .ok ([], .file name.bytes false) := by
  have hattr : chr (dotBytes g name c) 11 = ATTR_DIRECTORY := by
    rcases hname with h | h <;> simp [chr, dotBytes, dotEntry, dirent_s_t.bytes, h]
  have hlong : ¬ LONG_NAME_BOOL (chr (dotBytes g name c) 11) = true := by
    rw [hattr]
    decide
  rcases hname with h | h
  · have hfirst : chr (dotBytes g name c) 0 = 0x2E := by simp [chr, dotBytes, dotEntry, dirent_s_t.bytes, h]
    have htake : (dotBytes g name c).take 11 = 0x2E :: List.replicate 10 0 := by
      simp [dotBytes, dotEntry, dirent_s_t.bytes, h]
    rw [travel_fcb, hfirst, htake, h, if_neg (by decide), if_neg (by decide), if_neg hlong]
    decide
  · have hfirst : chr (dotBytes g name c) 0 = 0x2E := by simp [chr, dotBytes, dotEntry, dirent_s_t.bytes, h]
    have htake : (dotBytes g name c).take 11 = 0x2E :: 0x2E :: List.replicate 9 0 := by
      simp [dotBytes, dotEntry, dirent_s_t.bytes, h]
    rw [travel_fcb, hfirst, htake, h, if_neg (by decide), if_neg (by decide), if_neg hlong]
    decide

/-! ## The new inode -/

theorem created_last (dp : Dir.inode) {fcb_char : List (List UInt8)} (hpos : 0 < fcb_char.length) :
    entryAt (created dp fcb_char fcb_char.length).1 (created dp fcb_char fcb_char.length).2 =
      fcb_char.getD (fcb_char.length - 1) [] := by
  have hle := (insert_offset_slot dp hpos).le
  have hat := (write_at dp fcb_char hle (Dir.fat32_dir_fcb_insert_offset dp fcb_char.length + fcb_char.length - 1)).1
    (by omega) (by omega)
  rw [show Dir.fat32_dir_fcb_insert_offset dp fcb_char.length + fcb_char.length - 1 -
    Dir.fat32_dir_fcb_insert_offset dp fcb_char.length = fcb_char.length - 1 by omega] at hat
  exact hat

/-- The entry in the parent names the cluster. -/
theorem alloc_cluster {loc : Locals} {tc : trav_control} {dp dp' : Dir.inode} {dev : UInt8} {parent first_c : UInt32}
    {name : CString} {off : Nat}
    (h : ShortName.fat32_inode_alloc loc tc dp ⟨dev, parent, first_c⟩ name true = .ok (dp', off)) :
    firstCluster (entryAt dp' off) =
      if name.bytes = [0x2E] ∨ name.bytes = [0x2E, 0x2E] then parent else first_c := by
  by_cases hdots : Dots name
  · have hinit := @fcb_init_dots loc dp ⟨dev, parent, first_c⟩ name true hdots
    rw [alloc_eq tc hinit ⟨dp.off_hint, rfl⟩, if_neg (by decide)] at h
    obtain ⟨rfl, rfl⟩ := Prod.mk.inj (Except.ok.inj h)
    have hlast := @created_last dp [(dotEntry ⟨dev, parent, first_c⟩ name true).bytes] (by simp)
    have hdots' : name.bytes = [0x2E] ∨ name.bytes = [0x2E, 0x2E] := hdots
    rw [if_pos hdots']
    exact hlast ▸ firstCluster_bytes (dotEntry_name hdots _ true) rfl rfl
  · obtain ⟨n, hname, -, hr⟩ := alloc_ok hdots h
    have hlen := fcbs_length ⟨dev, parent, first_c⟩ name.bytes true n
    have hlast := @created_last dp (fcbs ⟨dev, parent, first_c⟩ name.bytes true n) (by omega)
    rw [hlen] at hlast
    obtain ⟨rfl, rfl⟩ := Prod.mk.inj hr
    have hget : (fcbs ⟨dev, parent, first_c⟩ name.bytes true n).getD (LongName.ordMax name.bytes + 1 - 1) [] =
        (shortEntry ⟨dev, parent, first_c⟩ true n).bytes := by
      have hlongs : ((longs name.bytes n).map dirent_l_t.bytes).length = LongName.ordMax name.bytes := by simp [longs]
      rw [Nat.add_sub_cancel, fcbs, List.getD_append_right _ _ _ _ (Nat.le_of_eq hlongs), hlongs, Nat.sub_self]
      rfl
    have hdots' : ¬ (name.bytes = [0x2E] ∨ name.bytes = [0x2E, 0x2E]) := hdots
    rw [if_neg hdots']
    rw [hget] at hlast
    exact hlast ▸ firstCluster_bytes (shortName_length hname) rfl rfl

/-- What the pages of the new directory show: the two entries, and behind them what the disk had. -/
structure Made (vol : Volume) (g : Given) (parent : UInt32) (name : CString) (d : Directory) : Prop where
  cluster : d.cluster_start = newCluster g parent name
  size : d.ip.i_size = newCount vol parent name * vol.cluster_size
  shows : ∃ c, Shows d.ip c ∧
    (∀ p < 32, c p = chr (dotBytes g dot d.cluster_start) p) ∧
    (∀ p < 32, c (32 + p) = chr (dotBytes g dotdot d.cluster_start) p) ∧
    ∀ p, 64 ≤ p → c p = vol.bytes d.cluster_start p

theorem dots_dot : Dots dot := .inl rfl

theorem dots_dotdot : Dots dotdot := .inr rfl

/-- A creation that made the entry in the parent makes the directory. -/
theorem create_of_alloc {vol : Volume} {g : Given} {dp dp₁ dp₂ : Dir.inode} {parent : UInt32} {name : CString} {off : Nat}
    (hparent : 0 < vol.cluster_cnt parent) (hlook : fat32_inode_dirlookup dp name.bytes = .ok (dp₁, none))
    (halloc : ShortName.fat32_inode_alloc g.loc g.tc dp₁ ⟨g.dev, parent, g.first_c⟩ name true = .ok (dp₂, off)) :
    ∃ d, fat32_inode_create vol g dp parent name = .ok (dp₂, some d) ∧ Made vol g parent name d := by
  have hcluster := alloc_cluster halloc
  rw [fat32_inode_create, hlook]
  simp only [halloc]
  generalize hvol : (if name.bytes = [0x2E] ∨ name.bytes = [0x2E, 0x2E] then vol
    else fat32_cluster_alloc vol g.first_c) = vol'
  -- the inode as it is loaded
  have hfacts : vol'.cluster_size = vol.cluster_size ∧ vol'.bytes = vol.bytes ∧
      vol'.cluster_cnt (newCluster g parent name) = newCount vol parent name ∧ 0 < newCount vol parent name := by
    rw [← hvol, newCluster, newCount]
    split
    · exact ⟨rfl, rfl, rfl, hparent⟩
    · exact ⟨rfl, rfl, Function.update_self .., Nat.one_pos⟩
  obtain ⟨hcs, hbytes, hcnt, hpos⟩ := hfacts
  have hload : fat32_inode_load_from_disk vol' (entryAt dp₂ off) =
      ⟨PageCache.opened (vol.bytes (newCluster g parent name)) (newCount vol parent name * vol.cluster_size),
        newCluster g parent name⟩ := by
    rw [fat32_inode_load_from_disk, hcluster, ← newCluster, hcnt, hcs, hbytes]
  have hlt : newCount vol parent name * vol.cluster_size < 2 ^ 32 := by
    rw [← hcnt, ← hcs]
    exact vol'.size_lt _
  have hge : 64 ≤ newCount vol parent name * vol.cluster_size :=
    Nat.le_trans vol.size_ge (Nat.le_mul_of_pos_left _ hpos)
  generalize hd₀ : fat32_inode_load_from_disk vol' (entryAt dp₂ off) = d₀ at hload
  have hcluster₀ : d₀.cluster_start = newCluster g parent name := by rw [hload]
  have hsize₀ : d₀.ip.i_size = newCount vol parent name * vol.cluster_size := by
    rw [hload]
    rfl
  have hshows₀ : Shows d₀.ip (vol.bytes d₀.cluster_start) := by
    rw [hcluster₀, hload]
    exact PageCache.opened_shows _ hlt
  -- the first entry brings the page in, the second finds it there
  obtain ⟨ip₁, hwrite₁, hsize₁, hpage₁, hshows₁⟩ := writeDot_spec vol'.cluster_size g.dot g dots_dot hshows₀
    (show 0 + 32 ≤ d₀.ip.i_size by omega) (.inl rfl)
  obtain ⟨ip₂, hwrite₂, hsize₂, -, hshows₂⟩ := writeDot_spec vol'.cluster_size g.dotdot g dots_dotdot
    (show Shows (Directory.mk ip₁ d₀.cluster_start).ip _ from hshows₁) (show 32 + 32 ≤ ip₁.i_size by omega)
    (.inr (.inl hpage₁))
  simp only [hwrite₁, hwrite₂]
  refine ⟨_, rfl, hcluster₀, hsize₂.trans (hsize₁.trans hsize₀), _, hshows₂, fun p hp => ?_, fun p hp => ?_,
    fun p hp => ?_⟩
  · show (if 32 ≤ p ∧ p < 32 + 32 then _ else if 0 ≤ p ∧ p < 0 + 32 then _ else _) = _
    rw [if_neg (by omega), if_pos (by omega), Nat.sub_zero]
  · show (if 32 ≤ 32 + p ∧ 32 + p < 32 + 32 then _ else _) = _
    rw [if_pos (by omega), Nat.add_sub_cancel_left]
  · show (if 32 ≤ p ∧ p < 32 + 32 then _ else if 0 ≤ p ∧ p < 0 + 32 then _ else _) = _
    rw [if_neg (by omega), if_neg (by omega)]

theorem create_made {vol : Volume} {g : Given} {dp dp' : Dir.inode} {parent : UInt32} {name : CString} {d : Directory}
    (hparent : 0 < vol.cluster_cnt parent) (h : fat32_inode_create vol g dp parent name = .ok (dp', some d)) :
    Made vol g parent name d := by
  rcases hlook : fat32_inode_dirlookup dp name.bytes with e | ⟨dp₁, _ | off⟩
  · rw [fat32_inode_create, hlook] at h
    exact absurd h (by simp)
  · rcases halloc : ShortName.fat32_inode_alloc g.loc g.tc dp₁ ⟨g.dev, parent, g.first_c⟩ name true with e | ⟨dp₂, off⟩
    · rw [fat32_inode_create, hlook] at h
      simp only [halloc] at h
      exact absurd h (by simp)
    obtain ⟨d', hcreate, hmade⟩ := create_of_alloc hparent hlook halloc
    rw [hcreate] at h
    obtain ⟨-, hd⟩ := Prod.mk.inj (Except.ok.inj h)
    obtain rfl := Option.some_inj.mp hd
    exact hmade
  · rw [fat32_inode_create, hlook] at h
    exact absurd h (by simp)

/-- The entries of the new directory. -/
theorem made_entries {vol : Volume} {g : Given} {parent : UInt32} {name : CString} {d : Directory}
    (hcnt : 0 < newCount vol parent name) (h : Made vol g parent name d) :
    entries d.ip = dotBytes g dot d.cluster_start :: dotBytes g dotdot d.cluster_start ::
      stale (vol.bytes d.cluster_start) 2 (newCount vol parent name * vol.cluster_size / 32 - 2) := by
  obtain ⟨c, hshows, hdot, hdotdot, hrest⟩ := h.shows
  have hge : 64 ≤ newCount vol parent name * vol.cluster_size :=
    Nat.le_trans vol.size_ge (Nat.le_mul_of_pos_left _ hcnt)
  obtain ⟨k, hk⟩ : ∃ k, newCount vol parent name * vol.cluster_size / 32 = k + 1 + 1 :=
    ⟨newCount vol parent name * vol.cluster_size / 32 - 2, by omega⟩
  rw [entries_of_shows hshows, h.size, hk, stale_succ, stale_succ]
  have h0 : ((List.range 32).map fun j => c (32 * 0 + j)) = dotBytes g dot d.cluster_start := by
    rw [← map_chr (dotBytes_length g dots_dot d.cluster_start)]
    apply List.map_congr_left
    intro j hj
    rw [Nat.mul_zero, Nat.zero_add]
    exact hdot j (List.mem_range.mp hj)
  have h1 : ((List.range 32).map fun j => c (32 * (0 + 1) + j)) = dotBytes g dotdot d.cluster_start := by
    rw [← map_chr (dotBytes_length g dots_dotdot d.cluster_start)]
    apply List.map_congr_left
    intro j hj
    exact hdotdot j (List.mem_range.mp hj)
  rw [h0, h1, stale_congr fun p hp => hrest p hp]
  rfl

theorem dotted_iff (g : Given) (c parent : UInt32) (rest : List (List UInt8)) :
    Dotted (dotBytes g dot c :: dotBytes g dotdot c :: rest) c parent ↔
      c = parent ∧ ∃ stack, liveFiles [] 2 rest = .ok (stack, []) := by
  have hscan : liveFiles [] 0 (dotBytes g dot c :: dotBytes g dotdot c :: rest) =
      (liveFiles [] 2 rest).map fun r => (r.1, ([0x2E], 0) :: ([0x2E, 0x2E], 1) :: r.2) := by
    rw [liveFiles, travel_dot g dots_dot]
    dsimp only
    rw [liveFiles, travel_dot g dots_dotdot]
    dsimp only
    rcases liveFiles [] (0 + 1 + 1) rest with e | r
    · rfl
    · rfl
  constructor
  · intro h
    refine ⟨(dotBytes_cluster g dots_dotdot c).symm.trans h.dotdot, ?_⟩
    obtain ⟨stack, hs⟩ := h.scan
    rw [hscan] at hs
    rcases hrest : liveFiles [] 2 rest with e | ⟨stack', fs⟩
    · rw [hrest] at hs
      exact absurd hs (by simp [Except.map])
    · rw [hrest] at hs
      simp only [Except.map, Except.ok.injEq, Prod.mk.injEq, List.cons.injEq] at hs
      exact ⟨stack', by rw [hs.2.2.2]⟩
  · rintro ⟨rfl, stack, hrest⟩
    refine ⟨⟨stack, ?_⟩, dotBytes_cluster g dots_dot c, dotBytes_cluster g dots_dotdot c⟩
    rw [hscan, hrest]
    rfl

theorem newCount_pos {vol : Volume} {parent : UInt32} (hparent : 0 < vol.cluster_cnt parent) (name : CString) :
    0 < newCount vol parent name := by
  rw [newCount]
  split
  · exact hparent
  · exact Nat.one_pos

theorem made_iff {vol : Volume} {g : Given} {parent : UInt32} {name : CString} {d : Directory}
    (hparent : 0 < vol.cluster_cnt parent) (h : Made vol g parent name d) :
    WellFormed d parent ↔ newCluster g parent name = parent ∧
      RestEmpty vol (newCluster g parent name) (newCount vol parent name) := by
  have hentries := made_entries (newCount_pos hparent name) h
  have hdotted := dotted_iff g d.cluster_start parent
    (stale (vol.bytes d.cluster_start) 2 (newCount vol parent name * vol.cluster_size / 32 - 2))
  rw [← hentries] at hdotted
  rw [RestEmpty, ← h.cluster, ← hdotted]
  obtain ⟨c, hshows, -⟩ := h.shows
  constructor
  · exact fun hwell => hwell.cached
  intro hcached
  refine ⟨hcached, ?_⟩
  rw [entries_written hshows]
  exact hcached

/-- A new directory is well formed if it is its own parent, and what its clusters held reads as nothing. -/
theorem new_directory_iff {vol : Volume} {g : Given} {dp dp' : Dir.inode} {parent : UInt32} {name : CString}
    {d : Directory} (hparent : 0 < vol.cluster_cnt parent)
    (h : fat32_inode_create vol g dp parent name = .ok (dp', some d)) :
    WellFormed d parent ↔ newCluster g parent name = parent ∧
      RestEmpty vol (newCluster g parent name) (newCount vol parent name) :=
  made_iff hparent (create_made hparent h)

/-- A volume whose clusters hold this byte throughout. -/
def filled (b : UInt8) : Volume where
  cluster_size := 512
  cluster_cnt := fun _ => 1
  bytes := fun _ _ => b
  entries_fit := by decide
  size_ge := by decide
  size_lt := fun _ => by decide
  one_lt := by decide

/-- Cluster 9 is handed out. -/
def nine : Given := ⟨nuls, nuls.tc, nuls, nuls, 0x40, 9, fun _ => 0⟩

def newName : CString := ⟨[0x61], by decide⟩

theorem create_new (b : UInt8) (parent : UInt32) : ∃ dp dp' d,
    fat32_inode_create (filled b) nine dp parent newName = .ok (dp', some d) ∧ Made (filled b) nine parent newName d := by
  let dp : Dir.inode := ⟨512, [], some Lib.Hash.hash_table_entry_init, 0⟩
  have hdots : ¬ Dots newName := fun h => h.elim (fun h => absurd h (by decide)) fun h => absurd h (by decide)
  have hlook : fat32_inode_dirlookup dp newName.bytes = .ok (dp, none) := rfl
  have hname : (shortName nuls dp newName true).map Prod.snd = some [0x41, 0, 0, 0, 0, 0, 0, 0, 0, 0, 0] := by
    decide +kernel
  have halloc := alloc_named nuls.tc ⟨0x40, parent, 9⟩ hdots (by decide) hname
  obtain ⟨d, hcreate, hmade⟩ := @create_of_alloc (filled b) nine dp dp _ parent newName _ Nat.one_pos hlook halloc
  exact ⟨dp, _, d, hcreate, hmade⟩

/-- A cleared cluster that is the parent's own. -/
theorem new_directory_cleared : ∃ dp dp' d,
    fat32_inode_create (filled 0) nine dp 9 newName = .ok (dp', some d) ∧ WellFormed d 9 := by
  obtain ⟨dp, dp', d, hcreate, -⟩ := create_new 0 9
  refine ⟨dp, dp', d, hcreate, (new_directory_iff (by decide) hcreate).mpr ⟨rfl, [], ?_⟩⟩
  decide +kernel

/-- Made in a directory that begins at cluster 5, with a cluster full of `A`s: ".." leads to the new directory, and
there are fourteen more files. -/
theorem new_directory_misled : ∃ dp dp' d, fat32_inode_create (filled 0x41) nine dp 5 newName = .ok (dp', some d) ∧
    firstCluster ((entries d.ip).getD 1 []) = 9 ∧
    (liveFiles [] 0 (entries d.ip)).map (fun r => r.2.length) = .ok 16 ∧ ¬ WellFormed d 5 := by
  obtain ⟨dp, dp', d, hcreate, hmade⟩ := create_new 0x41 5
  have hentries := made_entries (newCount_pos Nat.one_pos newName) hmade
  have hcluster : d.cluster_start = 9 := hmade.cluster
  rw [hcluster] at hentries
  refine ⟨dp, dp', d, hcreate, ?_, ?_, fun hwell => ?_⟩
  · rw [hentries]
    exact dotBytes_cluster nine dots_dotdot 9
  · rw [hentries]
    decide +kernel
  · exact absurd ((made_iff (by decide) hmade).mp hwell).1 (by decide)

end LostWakeup.Fs.Fat32.NewDirectory
