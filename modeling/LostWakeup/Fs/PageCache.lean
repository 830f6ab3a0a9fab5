/-
# LostWakeup.Fs.PageCache — `filemap.c`: a regular file read and written through its pages.

The pages are kept in `i_mapping`, a map from page numbers to pages with a dirty tag each; a page that is missed is read
from the disk or, on a write, left zeroed when the code takes it to be written completely.  That test looks at the byte
count and at offsets inside a page only.  `file_is_byte_array` says when the file is an array of bytes.

The disk is modelled by file offset.  What a page read delivers past the end of the file is an argument.
-/
import Mathlib.Data.UInt
import Mathlib.Logic.Function.Basic
import LostWakeup.Fs.Mpage
import LostWakeup.Library.CInt
import LostWakeup.Library.Run

namespace LostWakeup.Fs.PageCache

open Library
open Function (update update_eq_self update_of_ne)
open Mpage (Short)

/-! ## The data model -/

def PGSIZE : Nat := 4096

def PGROUNDUP (sz : Nat) : Nat := roundUp PGSIZE sz

/-- A page of the cache, by offset. -/
abbrev Page : Type := Nat → UInt8

structure address_space where
  page_tree : Nat → Option Page
  /-- `PAGECACHE_TAG_DIRTY`, which nothing clears. -/
  dirty_tag : Nat → Bool
  last_index : Nat
  read_ahead_cnt : Nat
  read_ahead_end : Nat

structure inode where
  i_size : Nat
  /-- The file's bytes on the disk. -/
  disk : Nat → UInt8
  i_mapping : Option address_space
  /-- Whether the inode is on the superblock's list of dirty inodes. -/
  dirty_list : Bool

inductive Panic
  | not_tested
  /-- `ASSERT(order <= BUDDY_MAX_ORDER)`. -/
  | buddy_order
  | write_of_nothing
  /-- Not a panic of the source: a loop has not ended within the given turns. -/
  | no_return
  deriving DecidableEq

/-- `fat32_i_mapping_init`. -/
def fat32_i_mapping_init : address_space := ⟨fun _ => none, fun _ => false, 0, 0, 0⟩

/-- The mapping of an inode, made on first use. -/
def mappingOf (ip : inode) : address_space := ip.i_mapping.getD fat32_i_mapping_init

/-! ## Reading pages from the disk -/

/-- A page as the disk delivers it. -/
def diskPage (ip : inode) (beyond : Nat → UInt8) (index : Nat) : Page := fun o =>
  if index * PGSIZE + o < ip.i_size then ip.disk (index * PGSIZE + o)
  else beyond (index * PGSIZE + o)

/-- `mpage_readpages`, which is given its blocks: the pages of `[index, index + cnt)` that are not cached join the cache. -/
def mpage_readpages (ip : inode) (beyond : Nat → UInt8) (mapping : address_space) (index cnt : Nat)
    (read_from_disk : Bool) : address_space :=
  { mapping with
    page_tree := fun i =>
      match mapping.page_tree i with
      | some page => some page
      | none =>
        if index ≤ i ∧ i < index + cnt then
          some (if read_from_disk then diskPage ip beyond i else fun _ => 0)
        else
          none }

/-! ## `do_generic_file_read` -/

/-- `max_sane_readahead`; `budget` is the share of the free memory it allows, in pages. -/
def max_sane_readahead (nr read_ahead tot_nr budget : Nat) : Nat :=
  min (min (PGROUNDUP nr / PGSIZE + read_ahead) budget) (PGROUNDUP tot_nr / PGSIZE)

def READ_AHEAD_PAGE_MAX_CNT : Nat := 8

/-- The change of `read_ahead_cnt` after a miss at `index`. -/
def adjust_read_ahead (mapping : address_space) (index end_index : Nat) : address_space :=
  let cnt := mapping.read_ahead_cnt
  let cnt :=
    if index > mapping.last_index then
      if mapping.read_ahead_end + cnt ≤ end_index then
        if cnt < READ_AHEAD_PAGE_MAX_CNT then (if cnt = 0 then 1 else cnt * 2) else cnt + 1
      else cnt
    else 0
  { mapping with read_ahead_cnt := cnt, last_index := index }

/-- The page at `index`, after read-ahead if it is missed; `none` when no page may be read. -/
def readGetPage (ip : inode) (budget : Nat) (beyond : Nat → UInt8) (mapping : address_space)
    (index rest off retval : Nat) : Except Panic (address_space × Option Page) :=
  match mapping.page_tree index with
  | some page => .ok (mapping, some page)
  | none =>
    -- `off` has moved along with `retval`, so the bytes already read count twice here
    let tot_nr := toUint64 ((ip.i_size : Int) - (off + retval))
    let read_sane_cnt := max_sane_readahead rest mapping.read_ahead_cnt tot_nr budget
    let mapping := { mapping with read_ahead_end := sub64 (add64 index read_sane_cnt) 1 }
    if read_sane_cnt = 0 then
      .ok (mapping, none)
    -- each gap is one block; a write takes one page, for which there is always a block
    else if ¬ Short index read_sane_cnt mapping.page_tree 0 then
      .error .buddy_order
    else
      let mapping := mpage_readpages ip beyond mapping index read_sane_cnt true
      let mapping := adjust_read_ahead mapping index ((ip.i_size - 1) / PGSIZE)
      .ok (mapping, mapping.page_tree index)

/-- The loop of `do_generic_file_read`; `out` is what has been copied out. -/
def readLoop (ip : inode) (budget : Nat → Nat) (beyond : Nat → UInt8) (n : Nat) :
    Nat → address_space → Nat → List UInt8 → Except Panic (address_space × List UInt8)
  | 0, _, _, _ => .error .no_return
  | fuel + 1, mapping, off, out =>
    let index := off / PGSIZE
    let offset := off % PGSIZE
    let end_index := (ip.i_size - 1) / PGSIZE
    if index > end_index then
      .ok (mapping, out)
    else
      let nr := if index = end_index then (ip.i_size - 1) % PGSIZE + 1 else PGSIZE
      if nr ≤ offset then
        .error .not_tested
      else
        match readGetPage ip (budget out.length) beyond mapping index (n - out.length) off out.length with
        | .error e => .error e
        | .ok (mapping, none) => .ok (mapping, out)
        | .ok (mapping, some page) =>
          let len := min (min (n - out.length) (nr - offset)) (ip.i_size - offset)
          let out := out ++ (List.range len).map fun k => page (offset + k)
          if out.length = n then
            .ok (mapping, out)
          else
            readLoop ip budget beyond n fuel mapping (off + len) out

/-- `fat32_inode_read`, with the bytes it copies out.  `off` and `n` are `uint`. -/
def fat32_inode_read (ip : inode) (budget : Nat → Nat) (beyond : Nat → UInt8) (off n : Nat) :
    Except Panic (inode × List UInt8) :=
  if off > ip.i_size ∨ (off + n) % 2 ^ 32 < off then
    .ok (ip, [])
  else
    let n := if (off + n) % 2 ^ 32 > ip.i_size then ip.i_size - off else n
    if n = 0 then
      .ok (ip, [])
    else
      match readLoop ip budget beyond n n (mappingOf ip) off [] with
      | .ok (mapping, out) => .ok ({ ip with i_mapping := some mapping }, out)
      | .error e => .error e

/-! ## `do_generic_file_write` -/

def WRITE_FULL_PAGE (rest_val : Nat) : Bool := rest_val ≥ PGSIZE

def OUT_FILE (offset_cur offset_tot : Nat) : Bool := offset_cur > offset_tot

/-- The page at `index`; a missed one is read from the disk unless it is taken to be written
completely or to lie past the end. -/
def writeGetPage (ip : inode) (beyond : Nat → UInt8) (mapping : address_space) (index offset rest : Nat) :
    address_space :=
  match mapping.page_tree index with
  | some _ => mapping
  | none =>
    if WRITE_FULL_PAGE rest || OUT_FILE offset (ip.i_size % PGSIZE) then
      mpage_readpages ip beyond mapping index 1 false
    else
      mpage_readpages ip beyond mapping index 1 true

/-- `either_copyin` of `len` bytes into the page, which is then tagged dirty. -/
def copyin (mapping : address_space) (index offset len : Nat) (src : Nat → UInt8) : address_space :=
  { mapping with
    page_tree := update mapping.page_tree index
      ((mapping.page_tree index).map fun page o =>
        if offset ≤ o ∧ o < offset + len then src (o - offset) else page o)
    dirty_tag := update mapping.dirty_tag index true }

/-- The loop of `do_generic_file_write`; `src` are the bytes of the user's buffer. -/
def writeLoop (ip : inode) (beyond : Nat → UInt8) (src : Nat → UInt8) (n : Nat) :
    Nat → address_space → Nat → Nat → Except Panic address_space
  | 0, _, _, _ => .error .no_return
  | fuel + 1, mapping, off, retval =>
    let index := off / PGSIZE
    let offset := off % PGSIZE
    let mapping := writeGetPage ip beyond mapping index offset (n - retval)
    let len := min (n - retval) (PGSIZE - offset)
    let mapping := copyin mapping index offset len fun k => src (retval + k)
    if retval + len = n then
      .ok mapping
    else
      writeLoop ip beyond src n fuel mapping (off + len) (retval + len)

/-- `fat32_inode_write` on a regular file, with its return value.  `off` and `n` are `uint`, the byte
count comes back as an `int`. -/
def fat32_inode_write (ip : inode) (beyond : Nat → UInt8) (off n : Nat) (src : Nat → UInt8) :
    Except Panic (inode × Int) :=
  if (off + n) % 2 ^ 32 < off then
    .ok (ip, -1)
  else if n = 0 then
    .error .write_of_nothing
  else
    match writeLoop ip beyond src n n (mappingOf ip) off 0 with
    | .error e => .error e
    | .ok mapping =>
      let tot := int32 n
      let ip := { ip with i_mapping := some mapping }
      if tot = -1 then
        .ok (ip, -1)
      else
        let i_size :=
          if (off + n) % 2 ^ 32 > ip.i_size then (((off : Int) + tot) % 2 ^ 32).toNat else ip.i_size
        .ok ({ ip with dirty_list := true, i_size := i_size }, tot)

/-! ## Write-back and eviction -/

/-- The bytes of the tagged pages go to the disk: `mpage_writepage`. -/
def mpage_writepage (ip : inode) : inode :=
  let mapping := mappingOf ip
  { ip with
    disk := fun p =>
      match mapping.page_tree (p / PGSIZE) with
      | some page => if mapping.dirty_tag (p / PGSIZE) then page (p % PGSIZE) else ip.disk p
      | none => ip.disk p }

/-- `fat32_i_mapping_writeback`, and one inode's turn of `writeback_inodes`. -/
def fat32_i_mapping_writeback (ip : inode) : inode :=
  if ip.dirty_list then { mpage_writepage ip with dirty_list := false } else ip

/-- What `alloc_fail` does to an inode: the mapping of a clean one is destroyed. -/
def alloc_fail (ip : inode) : inode :=
  if ip.dirty_list then ip else { ip with i_mapping := none }

/-! ## Steps -/

inductive Event
  | fat32_inode_read (budget : Nat → Nat) (beyond : Nat → UInt8) (off n : Nat)
  | fat32_inode_write (beyond : Nat → UInt8) (off n : Nat) (src : Nat → UInt8)
  | fat32_i_mapping_writeback
  | alloc_fail

def Step (ip : inode) (e : Event) (ip' : inode) : Prop :=
  match e with
  | .fat32_inode_read budget beyond off n =>
    off < 2 ^ 32 ∧ n < 2 ^ 32 ∧ ∃ out, fat32_inode_read ip budget beyond off n = .ok (ip', out)
  | .fat32_inode_write beyond off n src =>
    off < 2 ^ 32 ∧ n < 2 ^ 32 ∧ ∃ r, fat32_inode_write ip beyond off n src = .ok (ip', r)
  | .fat32_i_mapping_writeback => ip' = fat32_i_mapping_writeback ip
  | .alloc_fail => ip' = alloc_fail ip

/-- A file of `size` bytes that has just been opened. -/
def opened (disk : Nat → UInt8) (size : Nat) : inode := ⟨size, disk, none, false⟩

/-! ## The file behind the cache -/

/-- The byte at `p`: the cached one, or the one on the disk. -/
def view (disk : Nat → UInt8) (mapping : address_space) (p : Nat) : UInt8 :=
  match mapping.page_tree (p / PGSIZE) with
  | some page => page (p % PGSIZE)
  | none => disk p

theorem view_cached {disk : Nat → UInt8} {mapping : address_space} {p : Nat} {page : Page}
    (h : mapping.page_tree (p / PGSIZE) = some page) : view disk mapping p = page (p % PGSIZE) := by
  simp only [view, h]

theorem view_missed {disk : Nat → UInt8} {mapping : address_space} {p : Nat}
    (h : mapping.page_tree (p / PGSIZE) = none) : view disk mapping p = disk p := by
  simp only [view, h]

theorem view_congr {disk : Nat → UInt8} {mapping mapping' : address_space} {p : Nat}
    (h : mapping'.page_tree (p / PGSIZE) = mapping.page_tree (p / PGSIZE)) :
    view disk mapping' p = view disk mapping p := by
  simp only [view, h]

theorem page_pos (p : Nat) : p / PGSIZE * PGSIZE + p % PGSIZE = p := by
  rw [Nat.mul_comm]
  exact Nat.div_add_mod p PGSIZE

/-- A page that holds what the disk does, as far as the file goes. -/
def Clean (ip : inode) (index : Nat) (page : Page) : Prop :=
  ∀ o, o < PGSIZE → index * PGSIZE + o < ip.i_size → page o = ip.disk (index * PGSIZE + o)

theorem diskPage_clean (ip : inode) (beyond : Nat → UInt8) (index : Nat) :
    Clean ip index (diskPage ip beyond index) := by
  intro o _ ho
  simp only [diskPage, if_pos ho]

theorem Clean.view_eq {ip : inode} {mapping : address_space} {p : Nat} {page : Page}
    (h : Clean ip (p / PGSIZE) page) (hpage : mapping.page_tree (p / PGSIZE) = some page)
    (hp : p < ip.i_size) : view ip.disk mapping p = ip.disk p := by
  have hpos := page_pos p
  rw [view_cached hpage, h (p % PGSIZE) (Nat.mod_lt _ (by decide)) (by omega), hpos]

/-- Only dirty pages differ from the disk, and there are none unless the inode is on the dirty list. -/
structure Inv (ip : inode) : Prop where
  size_lt : ip.i_size < 2 ^ 32
  untagged : ∀ i page, (mappingOf ip).page_tree i = some page → (mappingOf ip).dirty_tag i = false →
    Clean ip i page
  clean : ip.dirty_list = false → ∀ i page, (mappingOf ip).page_tree i = some page → Clean ip i page

theorem inv_of_unmapped {ip : inode} (hsize : ip.i_size < 2 ^ 32) (hmap : ip.i_mapping = none) : Inv ip := by
  have hnone : ∀ i, (mappingOf ip).page_tree i = none := fun i => by
    rw [mappingOf, hmap]
    rfl
  refine ⟨hsize, fun i page hi _ => ?_, fun _ i page hi => ?_⟩
  · rw [hnone i] at hi
    cases hi
  · rw [hnone i] at hi
    cases hi

/-! ## Reads -/

/-- A change of the mapping that only brings in pages from the disk. -/
structure Fetched (ip : inode) (mapping mapping' : address_space) : Prop where
  pages : ∀ i page, mapping'.page_tree i = some page →
    mapping.page_tree i = some page ∨ (mapping.page_tree i = none ∧ Clean ip i page)
  kept : ∀ i page, mapping.page_tree i = some page → mapping'.page_tree i = some page
  tags : mapping'.dirty_tag = mapping.dirty_tag

namespace Fetched

variable {ip : inode} {m m' m'' : address_space}

theorem refl (m : address_space) : Fetched ip m m := ⟨fun _ _ h => .inl h, fun _ _ h => h, rfl⟩

theorem trans (h : Fetched ip m m') (h' : Fetched ip m' m'') : Fetched ip m m'' := by
  refine ⟨fun i page hi => ?_, fun i page hi => h'.kept i page (h.kept i page hi),
    h'.tags.trans h.tags⟩
  rcases h'.pages i page hi with hi' | ⟨hnone, hclean⟩
  · exact h.pages i page hi'
  refine .inr ⟨?_, hclean⟩
  cases hm : m.page_tree i with
  | none => rfl
  | some old =>
    rw [h.kept i old hm] at hnone
    cases hnone

theorem view_eq (h : Fetched ip m m') {p : Nat} (hp : p < ip.i_size) :
    view ip.disk m' p = view ip.disk m p := by
  cases hm' : m'.page_tree (p / PGSIZE) with
  | none =>
    have hm : m.page_tree (p / PGSIZE) = none := by
      cases hm : m.page_tree (p / PGSIZE) with
      | none => rfl
      | some page =>
        rw [h.kept _ page hm] at hm'
        cases hm'
    rw [view_missed hm', view_missed hm]
  | some page =>
    rcases h.pages _ page hm' with hm | ⟨hm, hclean⟩
    · rw [view_cached hm', view_cached hm]
    · rw [hclean.view_eq hm' hp, view_missed hm]

end Fetched

theorem readpages_fetched (ip : inode) (beyond : Nat → UInt8) (m : address_space) (index cnt : Nat) :
    Fetched ip m (mpage_readpages ip beyond m index cnt true) := by
  refine ⟨fun i page hi => ?_, fun i page hi => ?_, rfl⟩
  · cases hm : m.page_tree i with
    | some old =>
      simp only [mpage_readpages, hm] at hi
      exact .inl hi
    | none =>
      simp only [mpage_readpages, hm, if_true] at hi
      split at hi
      · cases hi
        exact .inr ⟨rfl, diskPage_clean ip beyond i⟩
      · cases hi
  · simp only [mpage_readpages, hi]

/-- The pages are those that the scan of `mpage.c` brings in, which comes to a block too large where a gap is too long. -/
theorem readpages_mpage {mem : Mpage.Memory} {index cnt : Nat} {tree : Mpage.Tree} {nrpages : Nat} {m : address_space} {r : Mpage.Pages}
    (htree : ∀ i, tree i = none ↔ m.page_tree i = none) (hcnt : 0 < cnt) (hend : index + cnt ≤ 2 ^ 64) (hfirst : tree index = none)
    (hnear : ∀ i < cnt, tree (index + i) = none → i + 1 < 2 ^ 31 ∧ index + i + 1 < 2 ^ 64) (ip : inode) (beyond : Nat → UInt8) :
    ((∃ mem, Mpage.mpage_readpages mem index cnt true tree nrpages = .error .buddy_order) ↔ ¬ Short index cnt m.page_tree 0) ∧
      (Mpage.mpage_readpages mem index cnt true tree nrpages = .ok r →
        ∀ i, r.page_tree i = none ↔ (mpage_readpages ip beyond m index cnt true).page_tree i = none) := by
  have hshort : Short index cnt tree 0 ↔ Short index cnt m.page_tree 0 := by
    simp only [Short, ne_eq, htree]
  refine ⟨(Mpage.buddy_order_iff hcnt hend hfirst hnear nrpages).trans (not_congr hshort), fun hrun i => ?_⟩
  obtain ⟨-, -, gaps, st, s, hdone, hscan, -, rfl⟩ := Mpage.scanned_of_ok hcnt hend hfirst hnear hrun
  by_cases hgap : ∃ g ∈ gaps, g.Has i
  · obtain ⟨g, hg, hin⟩ := hgap
    have hrange : index ≤ i ∧ i < index + cnt := ⟨(hscan.lower g hg).trans hin.1, hin.2.trans_le (hscan.upper g hg)⟩
    simp [mpage_readpages, hscan.filled g hg i hin, (htree i).mp (hscan.missing g hg i hin), hrange]
  · push Not at hgap
    have hkept : st.page_tree i = tree i := hscan.kept i hgap
    dsimp only
    rw [hkept, htree i]
    cases hm : m.page_tree i with
    | some page => simp [mpage_readpages, hm]
    | none =>
      have hout : ¬ (index ≤ i ∧ i < index + cnt) := fun hrange => by
        obtain ⟨k, rfl⟩ := Nat.exists_eq_add_of_le hrange.1
        obtain ⟨g, hg, hin⟩ := hscan.all k (by omega) (by omega) ((htree _).mpr hm)
        exact hgap g hg hin
      simp [mpage_readpages, hm, hout]

theorem adjust_fetched {ip : inode} {m m' : address_space} (h : Fetched ip m m') (index end_index : Nat) :
    Fetched ip m (adjust_read_ahead m' index end_index) :=
  ⟨h.pages, h.kept, h.tags⟩

theorem readGetPage_spec (ip : inode) (budget : Nat) (beyond : Nat → UInt8) (m : address_space)
    (index rest off retval : Nat) :
    readGetPage ip budget beyond m index rest off retval = .error .buddy_order ∨
      ∃ m' got, readGetPage ip budget beyond m index rest off retval = .ok (m', got) ∧ Fetched ip m m' ∧
        ∀ page, got = some page → m'.page_tree index = some page := by
  unfold readGetPage
  cases hm : m.page_tree index with
  | some page => exact .inr ⟨m, some page, rfl, .refl m, fun page' h => h ▸ hm⟩
  | none =>
    dsimp only
    generalize max_sane_readahead rest m.read_ahead_cnt
      (toUint64 ((ip.i_size : Int) - (off + retval))) budget = cnt
    generalize sub64 (add64 index cnt) 1 = read_ahead_end
    have hstart : Fetched ip m { m with read_ahead_end := read_ahead_end } := ⟨fun _ _ h => .inl h, fun _ _ h => h, rfl⟩
    by_cases hcnt : cnt = 0
    · rw [if_pos hcnt]
      exact .inr ⟨_, _, rfl, hstart, nofun⟩
    rw [if_neg hcnt]
    split
    · exact .inl rfl
    · exact .inr ⟨_, _, rfl, adjust_fetched (hstart.trans (readpages_fetched ip beyond _ index cnt)) _ _, fun page h => h⟩

/-- What the loop has copied out: the file's bytes from `off` on. -/
def Copied (v : Nat → UInt8) (off : Nat) (out : List UInt8) : Prop :=
  out = (List.range out.length).map fun k => v (off + k)

theorem Copied.append {v : Nat → UInt8} {off : Nat} {out : List UInt8} (h : Copied v off out)
    (len : Nat) : Copied v off (out ++ (List.range len).map fun k => v (off + out.length + k)) := by
  unfold Copied at h ⊢
  rw [List.length_append, List.length_map, List.length_range, List.range_add, List.map_append,
    List.map_map, ← h]
  congr 1
  apply List.map_congr_left
  intro k _
  simp only [Function.comp, Nat.add_assoc]

theorem offset_lt_nr {size pos : Nat} (h : pos < size) :
    pos % PGSIZE < if pos / PGSIZE = (size - 1) / PGSIZE then (size - 1) % PGSIZE + 1 else PGSIZE := by
  by_cases hlast : pos / PGSIZE = (size - 1) / PGSIZE
  · rw [if_pos hlast]
    simp only [PGSIZE] at hlast ⊢
    omega
  · rw [if_neg hlast]
    exact Nat.mod_lt _ (by decide)

theorem page_bytes {disk : Nat → UInt8} {m : address_space} {page : Page} {pos len : Nat}
    (hpage : m.page_tree (pos / PGSIZE) = some page) (hlen : pos % PGSIZE + len ≤ PGSIZE) {k : Nat}
    (hk : k < len) : page (pos % PGSIZE + k) = view disk m (pos + k) := by
  have hdiv : (pos + k) / PGSIZE = pos / PGSIZE := by
    simp only [PGSIZE] at hlen ⊢
    omega
  have hmod : (pos + k) % PGSIZE = pos % PGSIZE + k := by
    simp only [PGSIZE] at hlen ⊢
    omega
  rw [view_cached (by rw [hdiv]; exact hpage), hmod]

theorem readLoop_spec (ip : inode) (budget : Nat → Nat) (beyond : Nat → UInt8) {n off : Nat}
    {v : Nat → UInt8} (hin : off + n ≤ ip.i_size) (fuel : Nat) (m : address_space) (out : List UInt8)
    (hlen : out.length < n) (hfuel : n - out.length ≤ fuel) (hcopied : Copied v off out)
    (hview : ∀ p, p < ip.i_size → view ip.disk m p = v p) :
    readLoop ip budget beyond n fuel m (off + out.length) out = .error .buddy_order ∨
      ∃ m' out', readLoop ip budget beyond n fuel m (off + out.length) out = .ok (m', out') ∧
        Fetched ip m m' ∧ out'.length ≤ n ∧ Copied v off out' := by
  induction fuel generalizing m out with
  | zero => omega
  | succ fuel ih =>
    unfold readLoop
    dsimp only
    have hend : ¬ (off + out.length) / PGSIZE > (ip.i_size - 1) / PGSIZE := by
      simp only [PGSIZE]
      omega
    rw [if_neg hend]
    have hnr := offset_lt_nr (show off + out.length < ip.i_size by omega)
    rw [if_neg hnr.not_ge]
    rcases readGetPage_spec ip (budget out.length) beyond m ((off + out.length) / PGSIZE) (n - out.length) (off + out.length)
      out.length with hpanic | ⟨m₁, got, hget, hfetch, hpage⟩
    · rw [hpanic]
      exact .inl rfl
    rw [hget]
    cases got with
    | none => exact .inr ⟨m₁, out, rfl, hfetch, by omega, hcopied⟩
    | some page =>
      have hm₁ := hpage page rfl
      dsimp only
      generalize hnr' : (if (off + out.length) / PGSIZE = (ip.i_size - 1) / PGSIZE then
        (ip.i_size - 1) % PGSIZE + 1 else PGSIZE) = nr at hnr ⊢
      generalize hlen' : min (min (n - out.length) (nr - (off + out.length) % PGSIZE))
        (ip.i_size - (off + out.length) % PGSIZE) = len
      have hmod : (off + out.length) % PGSIZE ≤ off + out.length := Nat.mod_le _ _
      have hnrle : nr ≤ PGSIZE := by
        rw [← hnr']
        split
        · exact Nat.mod_lt _ (by decide)
        · exact le_rfl
      have hpos : 0 < len := by omega
      have hle : len ≤ n - out.length := by omega
      have hpg : (off + out.length) % PGSIZE + len ≤ PGSIZE := by omega
      have hview₁ : ∀ p, p < ip.i_size → view ip.disk m₁ p = v p := fun p hp => by
        rw [hfetch.view_eq hp, hview p hp]
      have hbytes : (List.range len).map (fun k => page ((off + out.length) % PGSIZE + k)) =
          (List.range len).map fun k => v (off + out.length + k) := by
        apply List.map_congr_left
        intro k hk
        rw [List.mem_range] at hk
        rw [page_bytes hm₁ hpg hk, hview₁ _ (by omega)]
      rw [hbytes]
      have hcopied₁ := hcopied.append len
      have hlength : (out ++ (List.range len).map fun k => v (off + out.length + k)).length =
          out.length + len := by
        rw [List.length_append, List.length_map, List.length_range]
      generalize (out ++ (List.range len).map fun k => v (off + out.length + k)) = out₁
        at hcopied₁ hlength ⊢
      by_cases hdone : out₁.length = n
      · rw [if_pos hdone]
        exact .inr ⟨m₁, out₁, rfl, hfetch, by omega, hcopied₁⟩
      rw [if_neg hdone, show off + out.length + len = off + out₁.length by omega]
      rcases ih m₁ out₁ (by omega) (by omega) hcopied₁ hview₁ with hpanic | ⟨m', out', hrun, hfetch', hlen₂, hcopied'⟩
      · exact .inl hpanic
      · exact .inr ⟨m', out', hrun, hfetch.trans hfetch', hlen₂, hcopied'⟩

/-- A read returns bytes of the file, and only brings pages in. -/
structure ReadResult (ip : inode) (off n : Nat) (ip' : inode) (out : List UInt8) : Prop where
  length_le : out.length ≤ n
  in_file : 0 < out.length → off + out.length ≤ ip.i_size
  copied : Copied (view ip.disk (mappingOf ip)) off out
  i_size : ip'.i_size = ip.i_size
  disk : ip'.disk = ip.disk
  dirty_list : ip'.dirty_list = ip.dirty_list
  fetched : Fetched ip (mappingOf ip) (mappingOf ip')

theorem ReadResult.byte {ip ip' : inode} {off n : Nat} {out : List UInt8} (h : ReadResult ip off n ip' out)
    {k : Nat} (hk : k < out.length) :
    off + k < ip.i_size ∧ out.get ⟨k, hk⟩ = view ip.disk (mappingOf ip) (off + k) := by
  have hin := h.in_file (by omega)
  refine ⟨by omega, ?_⟩
  have hcopied := h.copied
  unfold Copied at hcopied
  rw [List.get_eq_getElem, List.getElem_of_eq hcopied, List.getElem_map, List.getElem_range]

theorem fat32_inode_read_spec {ip : inode} (hsize : ip.i_size < 2 ^ 32) (budget : Nat → Nat)
    (beyond : Nat → UInt8) (off : Nat) {n : Nat} (hn : n < 2 ^ 32) :
    fat32_inode_read ip budget beyond off n = .error .buddy_order ∨
      ∃ ip' out, fat32_inode_read ip budget beyond off n = .ok (ip', out) ∧ ReadResult ip off n ip' out := by
  have hnothing : ReadResult ip off n ip [] :=
    ⟨Nat.zero_le _, fun h => absurd h (Nat.lt_irrefl 0), rfl, rfl, rfl, rfl, .refl _⟩
  unfold fat32_inode_read
  by_cases hbad : off > ip.i_size ∨ (off + n) % 2 ^ 32 < off
  · rw [if_pos hbad]
    exact .inr ⟨ip, [], rfl, hnothing⟩
  rw [if_neg hbad]
  dsimp only
  rw [not_or] at hbad
  generalize hn' : (if (off + n) % 2 ^ 32 > ip.i_size then ip.i_size - off else n) = n'
  have hclip : off + n' ≤ ip.i_size ∧ n' ≤ n := by
    rw [← hn']
    split <;> omega
  by_cases hzero : n' = 0
  · rw [if_pos hzero]
    exact .inr ⟨ip, [], rfl, hnothing⟩
  rw [if_neg hzero]
  rcases readLoop_spec ip budget beyond hclip.1 n' (mappingOf ip) [] (Nat.pos_of_ne_zero hzero) le_rfl rfl
    (fun _ _ => rfl) with hpanic | ⟨m', out', hrun, hfetch, hlen, hcopied⟩
  · have hpanic' : readLoop ip budget beyond n' n' (mappingOf ip) off [] = .error .buddy_order := hpanic
    rw [hpanic']
    exact .inl rfl
  · have hrun' : readLoop ip budget beyond n' n' (mappingOf ip) off [] = .ok (m', out') := hrun
    rw [hrun']
    exact .inr ⟨_, out', rfl, by omega, fun _ => by omega, hcopied, rfl, rfl, rfl, hfetch⟩

theorem readResult_of_ok {ip ip' : inode} {budget : Nat → Nat} {beyond : Nat → UInt8} {off n : Nat} {out : List UInt8}
    (hsize : ip.i_size < 2 ^ 32) (hn : n < 2 ^ 32) (h : fat32_inode_read ip budget beyond off n = .ok (ip', out)) :
    ReadResult ip off n ip' out := by
  rcases fat32_inode_read_spec hsize budget beyond off hn with hpanic | ⟨ip₁, out₁, hread, hres⟩
  · cases hpanic.symm.trans h
  · cases hread.symm.trans h
    exact hres

theorem readGetPage_returns {budget : Nat} (hbudget : budget ≤ 2 ^ 13) (ip : inode) (beyond : Nat → UInt8) (m : address_space)
    (index rest off retval : Nat) : readGetPage ip budget beyond m index rest off retval ≠ .error .buddy_order := by
  unfold readGetPage
  split
  · nofun
  dsimp only
  split
  · nofun
  have hshort : Short index (max_sane_readahead rest m.read_ahead_cnt (toUint64 ((ip.i_size : Int) - (off + retval))) budget)
      m.page_tree 0 := by
    intro i _ hi
    unfold max_sane_readahead at hi
    omega
  rw [if_neg (not_not_intro hshort)]
  nofun

theorem readLoop_returns {budget : Nat → Nat} (hbudget : ∀ r, budget r ≤ 2 ^ 13) (ip : inode) (beyond : Nat → UInt8) (n fuel : Nat)
    (m : address_space) (off : Nat) (out : List UInt8) : readLoop ip budget beyond n fuel m off out ≠ .error .buddy_order := by
  induction fuel generalizing m off out with
  | zero => nofun
  | succ fuel ih =>
    unfold readLoop
    dsimp only
    generalize (if off / PGSIZE = (ip.i_size - 1) / PGSIZE then (ip.i_size - 1) % PGSIZE + 1 else PGSIZE) = nr
    split
    · nofun
    split
    · nofun
    split
    next e hget =>
      rintro ⟨⟩
      exact readGetPage_returns (hbudget _) _ _ _ _ _ _ _ hget
    · nofun
    · split
      · nofun
      · exact ih _ _ _

/-- No gap is too long for a read that may ask for the pages of one block only. -/
theorem fat32_inode_read_returns {budget : Nat → Nat} (hbudget : ∀ r, budget r ≤ 2 ^ 13) (ip : inode) (beyond : Nat → UInt8)
    (off n : Nat) : fat32_inode_read ip budget beyond off n ≠ .error .buddy_order := by
  unfold fat32_inode_read
  split
  · nofun
  dsimp only
  generalize (if (off + n) % 2 ^ 32 > ip.i_size then ip.i_size - off else n) = n
  split
  · nofun
  split
  · nofun
  next e hloop =>
    rintro ⟨⟩
    exact readLoop_returns hbudget _ _ _ _ _ _ _ hloop

/-! ## Writes -/

/-- The condition on a write: its first page starts at a page boundary, or is cached, or is read from
the disk. -/
def Keeps (ip : inode) (mapping : address_space) (off rest : Nat) : Prop :=
  off % PGSIZE = 0 ∨ (mapping.page_tree (off / PGSIZE)).isSome = true ∨
    (rest < PGSIZE ∧ off % PGSIZE ≤ ip.i_size % PGSIZE)

/-- A change of the mapping that puts the bytes `data` at `[a, b)` and keeps the others. -/
structure Wrote (ip : inode) (m m' : address_space) (a b : Nat) (data : Nat → UInt8) : Prop where
  view : ∀ p, p < ip.i_size ∨ (a ≤ p ∧ p < b) ∨ (m.page_tree (p / PGSIZE)).isSome = true →
    view ip.disk m' p = if a ≤ p ∧ p < b then data p else view ip.disk m p
  untouched : ∀ i, m'.dirty_tag i = false → m.dirty_tag i = false ∧ m'.page_tree i = m.page_tree i
  tagged : ∀ p, a ≤ p → p < b →
    m'.dirty_tag (p / PGSIZE) = true ∧ (m'.page_tree (p / PGSIZE)).isSome = true
  kept : ∀ i, (m.page_tree i).isSome = true → (m'.page_tree i).isSome = true
  tags : ∀ i, m.dirty_tag i = true → m'.dirty_tag i = true

namespace Wrote

variable {ip : inode} {m m' m'' : address_space} {a b c : Nat} {data : Nat → UInt8}

/-- Two adjacent writes are one. -/
theorem trans (h : Wrote ip m m' a b data) (h' : Wrote ip m' m'' b c data) (hab : a ≤ b)
    (hbc : b ≤ c) : Wrote ip m m'' a c data := by
  refine ⟨fun p hp => ?_, fun i hi => ?_, fun p hap hpc => ?_, fun i hi => h'.kept i (h.kept i hi),
    fun i hi => h'.tags i (h.tags i hi)⟩
  · by_cases hpc : b ≤ p ∧ p < c
    · rw [h'.view p (.inr (.inl hpc)), if_pos hpc, if_pos ⟨by omega, hpc.2⟩]
    · -- the first write has brought the page in, so the second one keeps its bytes
      have hfirst : p < ip.i_size ∨ (a ≤ p ∧ p < b) ∨ (m.page_tree (p / PGSIZE)).isSome = true := by
        rcases hp with hp | hp | hp
        · exact .inl hp
        · exact .inr (.inl ⟨hp.1, by omega⟩)
        · exact .inr (.inr hp)
      have hsecond : p < ip.i_size ∨ (b ≤ p ∧ p < c) ∨ (m'.page_tree (p / PGSIZE)).isSome = true := by
        rcases hfirst with hp | hp | hp
        · exact .inl hp
        · exact .inr (.inr (h.tagged p hp.1 hp.2).2)
        · exact .inr (.inr (h.kept _ hp))
      rw [h'.view p hsecond, if_neg hpc, h.view p hfirst]
      by_cases hpb : a ≤ p ∧ p < b
      · rw [if_pos hpb, if_pos ⟨hpb.1, by omega⟩]
      · rw [if_neg hpb, if_neg (by omega)]
  · obtain ⟨htag, hpage⟩ := h'.untouched i hi
    obtain ⟨htag', hpage'⟩ := h.untouched i htag
    exact ⟨htag', hpage.trans hpage'⟩
  · by_cases hpb : p < b
    · obtain ⟨htag, hpage⟩ := h.tagged p hap hpb
      exact ⟨h'.tags _ htag, h'.kept _ hpage⟩
    · exact h'.tagged p (by omega) hpc

end Wrote

theorem readpages_one {ip : inode} {m : address_space} {index : Nat} (beyond : Nat → UInt8)
    (from_disk : Bool) (hm : m.page_tree index = none) :
    mpage_readpages ip beyond m index 1 from_disk =
      { m with
        page_tree := update m.page_tree index
          (some (if from_disk then diskPage ip beyond index else fun _ => 0)) } := by
  unfold mpage_readpages
  congr 1
  funext i
  by_cases hi : i = index
  · subst hi
    simp [hm]
  rw [update_of_ne hi]
  cases hmi : m.page_tree i with
  | some page => rfl
  | none =>
    dsimp only
    rw [if_neg (by omega)]

/-- The page that a write finds or makes holds the file's bytes wherever the write leaves them. -/
theorem writeGetPage_spec {ip : inode} {m : address_space} {off rest : Nat} (beyond : Nat → UInt8)
    (hkeeps : Keeps ip m off rest) :
    ∃ page, writeGetPage ip beyond m (off / PGSIZE) (off % PGSIZE) rest =
        { m with page_tree := update m.page_tree (off / PGSIZE) (some page) } ∧
      ∀ p, p / PGSIZE = off / PGSIZE → ¬ (off ≤ p ∧ p < off + min rest (PGSIZE - off % PGSIZE)) →
        p < ip.i_size ∨ (m.page_tree (p / PGSIZE)).isSome = true →
          page (p % PGSIZE) = view ip.disk m p := by
  unfold writeGetPage
  cases hm : m.page_tree (off / PGSIZE) with
  | some page =>
    refine ⟨page, ?_, fun p hp _ _ => ?_⟩
    · show m = { m with page_tree := update m.page_tree (off / PGSIZE) (some page) }
      rw [← hm, update_eq_self]
    · rw [view_cached (by rw [hp]; exact hm)]
  | none =>
    have hmissed : ∀ p, p / PGSIZE = off / PGSIZE →
        p < ip.i_size ∨ (m.page_tree (p / PGSIZE)).isSome = true →
          p < ip.i_size ∧ view ip.disk m p = ip.disk p := by
      intro p hp hin
      have hmp : m.page_tree (p / PGSIZE) = none := by rw [hp]; exact hm
      refine ⟨?_, view_missed hmp⟩
      rcases hin with hin | hin
      · exact hin
      · rw [hmp] at hin
        cases hin
    dsimp only
    by_cases hzero : (WRITE_FULL_PAGE rest || OUT_FILE (off % PGSIZE) (ip.i_size % PGSIZE)) = true
    · rw [if_pos hzero, readpages_one beyond false hm]
      refine ⟨_, rfl, fun p hp hout hin => absurd ?_ hout⟩
      -- a page left zeroed is written from its first byte to its last
      have hboundary : off % PGSIZE = 0 ∧ PGSIZE ≤ rest := by
        simp only [WRITE_FULL_PAGE, OUT_FILE, Bool.or_eq_true, decide_eq_true_eq] at hzero
        rcases hkeeps with hk | hk | hk
        · exact ⟨hk, by omega⟩
        · rw [hm] at hk
          cases hk
        · omega
      simp only [PGSIZE] at hboundary hp ⊢
      omega
    · rw [if_neg hzero, readpages_one beyond true hm]
      refine ⟨_, rfl, fun p hp _ hin => ?_⟩
      obtain ⟨hlt, hview⟩ := hmissed p hp hin
      have hpos := page_pos p
      rw [hview, if_pos rfl, ← hp, diskPage_clean ip beyond (p / PGSIZE) (p % PGSIZE)
        (Nat.mod_lt _ (by decide)) (by omega), hpos]

theorem copyin_page_tree (m : address_space) (index : Nat) (page : Page) (offset len : Nat) (src : Nat → UInt8)
    (i : Nat) :
    (copyin { m with page_tree := update m.page_tree index (some page) } index offset len src).page_tree i =
      if i = index then some fun o => if offset ≤ o ∧ o < offset + len then src (o - offset) else page o
      else m.page_tree i := by
  by_cases hi : i = index
  · subst hi
    simp [copyin]
  · simp [copyin, hi]

/-- One turn of the write loop. -/
theorem writeTurn_spec {ip : inode} {m : address_space} {off rest : Nat} (beyond src : Nat → UInt8)
    (hkeeps : Keeps ip m off rest) {len : Nat} (hlen : len = min rest (PGSIZE - off % PGSIZE)) :
    Wrote ip m (copyin (writeGetPage ip beyond m (off / PGSIZE) (off % PGSIZE) rest) (off / PGSIZE)
      (off % PGSIZE) len src) off (off + len) fun p => src (p - off) := by
  obtain ⟨page, hget, hpage⟩ := writeGetPage_spec beyond hkeeps
  rw [hget]
  rw [← hlen] at hpage
  have hmod : off % PGSIZE + len ≤ PGSIZE := by
    have := Nat.mod_lt off (show 0 < PGSIZE by decide)
    omega
  -- the pages and the tags after the turn
  have htree := copyin_page_tree m (off / PGSIZE) page (off % PGSIZE) len src
  have htag : ∀ i, (copyin { m with page_tree := update m.page_tree (off / PGSIZE) (some page) }
      (off / PGSIZE) (off % PGSIZE) len src).dirty_tag i =
        if i = off / PGSIZE then true else m.dirty_tag i := by
    intro i
    by_cases hi : i = off / PGSIZE
    · subst hi
      simp [copyin]
    · simp [copyin, hi]
  generalize copyin { m with page_tree := update m.page_tree (off / PGSIZE) (some page) }
    (off / PGSIZE) (off % PGSIZE) len src = m' at htree htag ⊢
  have hin_page : ∀ p, off ≤ p → p < off + len → p / PGSIZE = off / PGSIZE := by
    intro p h1 h2
    simp only [PGSIZE] at hmod ⊢
    omega
  refine ⟨fun p hp => ?_, fun i hi => ?_, fun p h1 h2 => ?_, fun i hi => ?_, fun i hi => ?_⟩
  · by_cases hidx : p / PGSIZE = off / PGSIZE
    · have hcached : m'.page_tree (p / PGSIZE) = some fun o =>
          if off % PGSIZE ≤ o ∧ o < off % PGSIZE + len then src (o - off % PGSIZE) else page o := by
        rw [htree, if_pos hidx]
      rw [view_cached hcached]
      have hiff : (off % PGSIZE ≤ p % PGSIZE ∧ p % PGSIZE < off % PGSIZE + len) ↔
          (off ≤ p ∧ p < off + len) := by
        simp only [PGSIZE] at hidx ⊢
        omega
      by_cases hrange : off ≤ p ∧ p < off + len
      · rw [if_pos hrange, if_pos (hiff.mpr hrange)]
        congr 1
        simp only [PGSIZE] at hidx ⊢
        omega
      rw [if_neg hrange, if_neg (fun h => hrange (hiff.mp h))]
      refine hpage p hidx hrange ?_
      rcases hp with hp | hp | hp
      · exact .inl hp
      · exact absurd hp hrange
      · exact .inr hp
    · rw [if_neg (fun h => hidx (hin_page p h.1 h.2))]
      exact view_congr (by rw [htree, if_neg hidx])
  · rw [htag] at hi
    by_cases hidx : i = off / PGSIZE
    · rw [if_pos hidx] at hi
      cases hi
    · rw [if_neg hidx] at hi
      exact ⟨hi, by rw [htree, if_neg hidx]⟩
  · rw [htag, htree, if_pos (hin_page p h1 h2), if_pos (hin_page p h1 h2)]
    exact ⟨rfl, rfl⟩
  · rw [htree]
    split
    · rfl
    · exact hi
  · rw [htag]
    split
    · rfl
    · exact hi

/-- The loop writes the rest of the buffer.  After the first turn it is at a page boundary, so only that
turn needs the condition. -/
theorem writeLoop_spec {ip : inode} (beyond src : Nat → UInt8) {n off : Nat} (fuel : Nat)
    (m : address_space) (retval : Nat) (hlt : retval < n) (hfuel : n - retval ≤ fuel)
    (hkeeps : Keeps ip m (off + retval) (n - retval)) :
    ∃ m', writeLoop ip beyond src n fuel m (off + retval) retval = .ok m' ∧
      Wrote ip m m' (off + retval) (off + n) fun p => src (p - off) := by
  induction fuel generalizing m retval with
  | zero => omega
  | succ fuel ih =>
    unfold writeLoop
    dsimp only
    generalize hlen : min (n - retval) (PGSIZE - (off + retval) % PGSIZE) = len
    have hmod := Nat.mod_lt (off + retval) (show 0 < PGSIZE by decide)
    have hturn := writeTurn_spec beyond (fun k => src (retval + k)) hkeeps hlen.symm
    generalize copyin (writeGetPage ip beyond m ((off + retval) / PGSIZE) ((off + retval) % PGSIZE)
      (n - retval)) ((off + retval) / PGSIZE) ((off + retval) % PGSIZE) len
      (fun k => src (retval + k)) = m₁ at hturn ⊢
    have hturn' : Wrote ip m m₁ (off + retval) (off + (retval + len)) fun p => src (p - off) := by
      obtain ⟨hview, hunt, htag, hkept, htags⟩ := hturn
      rw [← Nat.add_assoc]
      refine ⟨fun p hp => ?_, hunt, htag, hkept, htags⟩
      rw [hview p hp]
      by_cases hr : off + retval ≤ p ∧ p < off + retval + len
      · rw [if_pos hr, if_pos hr]
        congr 1
        omega
      · rw [if_neg hr, if_neg hr]
    by_cases hdone : retval + len = n
    · rw [if_pos hdone]
      rw [hdone] at hturn'
      exact ⟨m₁, rfl, hturn'⟩
    rw [if_neg hdone, Nat.add_assoc]
    obtain ⟨m', hrun, hwrote⟩ := ih m₁ (retval + len) (by omega) (by omega)
      (.inl (by simp only [PGSIZE] at hlen ⊢; omega))
    exact ⟨m', hrun, hturn'.trans hwrote (by omega) (by omega)⟩

/-! ## The array of bytes -/

/-- The bytes of a file after an operation, for the file as an array `c`. -/
def apply (c : Nat → UInt8) : Event → Nat → UInt8
  | .fat32_inode_write _ off n src => fun p =>
    if off + n < 2 ^ 32 ∧ off ≤ p ∧ p < off + n then src (p - off) else c p
  | _ => c

/-- The bytes after a sequence of operations: at each position the last one written, or the original
one. -/
def contents (c : Nat → UInt8) (es : List Event) : Nat → UInt8 := es.foldl apply c

/-- A write of at least one byte inside the file or at its end, refused for its size or with `Keeps`; the byte count
`2^32 - 1` is -1 as an `int`. -/
def WriteAllowed (ip : inode) (off n : Nat) : Prop :=
  0 < n ∧ off ≤ ip.i_size ∧ (2 ^ 32 ≤ off + n ∨ (n ≠ 2 ^ 32 - 1 ∧ Keeps ip (mappingOf ip) off n))

def Allowed (ip : inode) : Event → Prop
  | .fat32_inode_write _ off n _ => WriteAllowed ip off n
  | _ => True

/-- The cache shows the array `c`. -/
structure Shows (ip : inode) (c : Nat → UInt8) : Prop where
  inv : Inv ip
  bytes : ∀ p, p < ip.i_size → view ip.disk (mappingOf ip) p = c p

theorem read_shows {ip ip' : inode} {c : Nat → UInt8} (h : Shows ip c) {off n : Nat} {out : List UInt8}
    (hread : ReadResult ip off n ip' out) : Shows ip' c := by
  obtain ⟨-, -, -, hsize, hdisk, hlist, hfetch⟩ := hread
  have hclean : ∀ i page, Clean ip i page → Clean ip' i page := fun i page hc o ho hlt => by
    rw [hdisk]
    exact hc o ho (by rw [← hsize]; exact hlt)
  refine ⟨⟨by rw [hsize]; exact h.inv.size_lt, fun i page hi ht => ?_, fun hd i page hi => ?_⟩,
    fun p hp => ?_⟩
  · rcases hfetch.pages i page hi with hold | ⟨-, hc⟩
    · exact hclean i page (h.inv.untagged i page hold (by rw [← hfetch.tags]; exact ht))
    · exact hclean i page hc
  · rcases hfetch.pages i page hi with hold | ⟨-, hc⟩
    · exact hclean i page (h.inv.clean (by rw [← hlist]; exact hd) i page hold)
    · exact hclean i page hc
  · rw [hsize] at hp
    rw [hdisk, hfetch.view_eq hp, h.bytes p hp]

theorem int32_count {n : Nat} (hn : n < 2 ^ 32) (hne : n ≠ 2 ^ 32 - 1) : int32 n ≠ -1 := by
  simp only [int32, Int.bmod]
  split <;> omega

theorem size_of_count {off n : Nat} (h : off + n < 2 ^ 32) :
    (((off : Int) + int32 n) % 2 ^ 32).toNat = off + n := by
  simp only [int32, Int.bmod]
  split <;> omega

theorem write_shows {ip : inode} {c : Nat → UInt8} (h : Shows ip c) (beyond src : Nat → UInt8)
    {off n : Nat} (hn : n < 2 ^ 32) (hok : WriteAllowed ip off n) :
    ∃ ip' r, fat32_inode_write ip beyond off n src = .ok (ip', r) ∧
      Shows ip' (apply c (.fat32_inode_write beyond off n src)) := by
  obtain ⟨hpos, hstart, hcond⟩ := hok
  have hsize := h.inv.size_lt
  unfold fat32_inode_write
  by_cases hwrap : off + n < 2 ^ 32
  · -- the write is carried out
    obtain ⟨hcount, hkeeps⟩ : n ≠ 2 ^ 32 - 1 ∧ Keeps ip (mappingOf ip) off n := by
      rcases hcond with hcond | hcond
      · omega
      · exact hcond
    rw [if_neg (by omega), if_neg (by omega)]
    obtain ⟨m', hrun, hw⟩ := writeLoop_spec beyond src n (mappingOf ip) 0 hpos le_rfl hkeeps
    have hrun' : writeLoop ip beyond src n n (mappingOf ip) off 0 = .ok m' := hrun
    have hw' : Wrote ip (mappingOf ip) m' off (off + n) fun p => src (p - off) := hw
    rw [hrun']
    dsimp only
    rw [if_neg (int32_count hn hcount), size_of_count hwrap, Nat.mod_eq_of_lt hwrap]
    refine ⟨_, _, rfl, ?_⟩
    generalize hsz : (if off + n > ip.i_size then off + n else ip.i_size) = size
    have hsz' : size < 2 ^ 32 ∧ ∀ p, p < size → p < ip.i_size ∨ (off ≤ p ∧ p < off + n) := by
      rw [← hsz]
      split
      · exact ⟨hwrap, fun p hp => by omega⟩
      · exact ⟨hsize, fun p hp => .inl hp⟩
    refine ⟨⟨hsz'.1, fun i page hi ht => ?_, nofun⟩, fun p hp => ?_⟩
    · -- a page without a tag was not touched, so none of its bytes is a new one
      have hi' : m'.page_tree i = some page := hi
      obtain ⟨htag, hsame⟩ := hw'.untouched i ht
      rw [hsame] at hi'
      intro o ho hlt
      rcases hsz'.2 _ hlt with hold | ⟨h1, h2⟩
      · exact h.inv.untagged i page hi' htag o ho hold
      have hidx : (i * PGSIZE + o) / PGSIZE = i := by
        simp only [PGSIZE] at ho ⊢
        omega
      have htrue := (hw'.tagged _ h1 h2).1
      rw [hidx] at htrue
      have hfalse : m'.dirty_tag i = false := ht
      rw [hfalse] at htrue
      cases htrue
    · have hp' := hsz'.2 p hp
      have hview : view ip.disk m' p = if off ≤ p ∧ p < off + n then src (p - off)
          else view ip.disk (mappingOf ip) p := by
        refine hw'.view p ?_
        rcases hp' with hp' | hp'
        · exact .inl hp'
        · exact .inr (.inl hp')
      show view ip.disk m' p = if off + n < 2 ^ 32 ∧ off ≤ p ∧ p < off + n then src (p - off) else c p
      rw [hview]
      by_cases hr : off ≤ p ∧ p < off + n
      · rw [if_pos hr, if_pos ⟨hwrap, hr⟩]
      · rw [if_neg hr, if_neg (fun hall => hr hall.2), h.bytes p (by tauto)]
  · -- the sum of offset and count wraps
    rw [if_pos (by omega)]
    refine ⟨ip, -1, rfl, h.inv, fun p hp => ?_⟩
    show _ = if off + n < 2 ^ 32 ∧ off ≤ p ∧ p < off + n then src (p - off) else c p
    rw [if_neg (fun hall => hwrap hall.1)]
    exact h.bytes p hp

theorem writepage_view (ip : inode) (p : Nat) :
    view (mpage_writepage ip).disk (mappingOf ip) p = view ip.disk (mappingOf ip) p := by
  cases hpage : (mappingOf ip).page_tree (p / PGSIZE) with
  | some page => rw [view_cached hpage, view_cached hpage]
  | none =>
    rw [view_missed hpage, view_missed hpage]
    simp only [mpage_writepage, hpage]

theorem writeback_shows {ip : inode} {c : Nat → UInt8} (h : Shows ip c) :
    Shows (fat32_i_mapping_writeback ip) c := by
  unfold fat32_i_mapping_writeback
  by_cases hd : ip.dirty_list = true
  · rw [if_pos hd]
    have hclean : ∀ i page, (mappingOf ip).page_tree i = some page →
        Clean { mpage_writepage ip with dirty_list := false } i page := by
      intro i page hi o ho hlt
      have hidx : (i * PGSIZE + o) / PGSIZE = i ∧ (i * PGSIZE + o) % PGSIZE = o := by
        simp only [PGSIZE] at ho ⊢
        omega
      simp only [mpage_writepage, hidx.1, hidx.2, hi]
      split
      · rfl
      · next htag => exact h.inv.untagged i page hi (by simpa using htag) o ho hlt
    refine ⟨⟨h.inv.size_lt, fun i page hi _ => hclean i page hi, fun _ => hclean⟩, fun p hp => ?_⟩
    rw [← h.bytes p hp]
    exact writepage_view ip p
  · rw [if_neg hd]
    exact h

theorem alloc_fail_shows {ip : inode} {c : Nat → UInt8} (h : Shows ip c) : Shows (alloc_fail ip) c := by
  unfold alloc_fail
  by_cases hd : ip.dirty_list = true
  · rw [if_pos hd]
    exact h
  rw [if_neg hd]
  refine ⟨inv_of_unmapped h.inv.size_lt rfl, fun p hp => ?_⟩
  show ip.disk p = c p
  rw [← h.bytes p hp]
  cases hpage : (mappingOf ip).page_tree (p / PGSIZE) with
  | some page =>
    exact ((h.inv.clean (by simpa using hd) _ page hpage).view_eq hpage hp).symm
  | none => rw [view_missed hpage]

theorem step_shows {ip ip' : inode} {c : Nat → UInt8} {e : Event} (h : Shows ip c)
    (hok : Allowed ip e) (hstep : Step ip e ip') : Shows ip' (apply c e) := by
  cases e with
  | fat32_inode_read budget beyond off n =>
    obtain ⟨-, hn, out, hread⟩ := hstep
    exact read_shows h (readResult_of_ok h.inv.size_lt hn hread)
  | fat32_inode_write beyond off n src =>
    obtain ⟨-, hn, r, hwrite⟩ := hstep
    obtain ⟨ip₁, r₁, hwrite₁, hres⟩ := write_shows h beyond src hn hok
    rw [hwrite] at hwrite₁
    cases hwrite₁
    exact hres
  | fat32_i_mapping_writeback =>
    cases hstep
    exact writeback_shows h
  | alloc_fail =>
    cases hstep
    exact alloc_fail_shows h

theorem run_shows {ip ip' : inode} {c : Nat → UInt8} {es : List Event} (h : Shows ip c)
    (hrun : Run (Guarded Step Allowed) ip es ip') : Shows ip' (contents c es) := by
  induction hrun generalizing c with
  | nil ip => exact h
  | cons hs _ ih => exact ih (step_shows h hs.1 hs.2)

theorem opened_shows (disk : Nat → UInt8) {size : Nat} (hsize : size < 2 ^ 32) :
    Shows (opened disk size) disk :=
  ⟨inv_of_unmapped hsize rfl, fun _ _ => rfl⟩

/-- **A file is an array of bytes.** After every run whose writes are allowed, a read returns unless it comes to a gap too
long for the allocator, and each byte it returns is the last one written at its position, or the original one. -/
theorem file_is_byte_array {disk : Nat → UInt8} {size : Nat} (hsize : size < 2 ^ 32)
    {es : List Event} {ip : inode} (hrun : Run (Guarded Step Allowed) (opened disk size) es ip)
    (budget : Nat → Nat) (beyond : Nat → UInt8) (off : Nat) {n : Nat} (hn : n < 2 ^ 32) :
    fat32_inode_read ip budget beyond off n = .error .buddy_order ∨
      ∃ ip' out, fat32_inode_read ip budget beyond off n = .ok (ip', out) ∧ out.length ≤ n ∧
        ∀ k (hk : k < out.length), off + k < ip.i_size ∧ out.get ⟨k, hk⟩ = contents disk es (off + k) := by
  have hshows := run_shows (opened_shows disk hsize) hrun
  rcases fat32_inode_read_spec hshows.inv.size_lt budget beyond off hn with hpanic | ⟨ip', out, hread, hres⟩
  · exact .inl hpanic
  refine .inr ⟨ip', out, hread, hres.length_le, fun k hk => ?_⟩
  obtain ⟨hin, hget⟩ := hres.byte hk
  exact ⟨hin, hget.trans (hshows.bytes _ hin)⟩

/-- Two writes with a write-back and an eviction between them. -/
def editSession : List Event :=
  [.fat32_inode_write (fun _ => 0) 0 2 (fun _ => 1), .fat32_i_mapping_writeback, .alloc_fail,
    .fat32_inode_write (fun _ => 0) 100 3 (fun _ => 2)]

theorem file_is_byte_array_edited : ∃ ip ip' out,
    Run (Guarded Step Allowed) (opened (fun _ => 7) 5000) editSession ip ∧
      fat32_inode_read ip (fun _ => 1) (fun _ => 0) 99 4 = .ok (ip', out) ∧
        ∀ k (hk : k < out.length), out.get ⟨k, hk⟩ = contents (fun _ => 7) editSession (99 + k) := by
  have hrun : ∃ ip, Run (Guarded Step Allowed) (opened (fun _ => 7) 5000) editSession ip := by
    refine ⟨_, .cons ⟨?_, by decide, by decide, _, rfl⟩ <| .cons ⟨trivial, rfl⟩ <|
      .cons ⟨trivial, rfl⟩ <| .cons ⟨?_, by decide, by decide, _, rfl⟩ (.nil _)⟩
    · exact ⟨by decide, by decide, .inr ⟨by decide, .inl rfl⟩⟩
    · exact ⟨by decide, by decide, .inr ⟨by decide, .inr (.inr ⟨by decide, by decide⟩)⟩⟩
  obtain ⟨ip, hrun⟩ := hrun
  rcases file_is_byte_array (show 5000 < 2 ^ 32 by decide) hrun (fun _ => 1) (fun _ => 0) 99 (show 4 < 2 ^ 32 by decide) with
    hpanic | ⟨ip', out, hread, -, hbytes⟩
  · exact absurd hpanic (fat32_inode_read_returns (fun _ => by decide) _ _ _ _)
  · exact ⟨ip, ip', out, hrun, hread, fun k hk => (hbytes k hk).2⟩

/-- One byte written at offset 1 of a file of two pages, none of them cached: the rest of the first page
is lost. -/
theorem write_loses_page : ∃ ip ip',
    Run Step (opened (fun _ => 7) 8192) [.fat32_inode_write (fun _ => 0) 1 1 (fun _ => 9)] ip ∧
      fat32_inode_read ip (fun _ => 1) (fun _ => 0) 0 1 = .ok (ip', [0]) ∧
        contents (fun _ => 7) [.fat32_inode_write (fun _ => 0) 1 1 (fun _ => 9)] 0 = 7 :=
  ⟨_, _, .cons ⟨by decide, by decide, _, rfl⟩ (.nil _), rfl, rfl⟩

end LostWakeup.Fs.PageCache
