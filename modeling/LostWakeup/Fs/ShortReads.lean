/-
# LostWakeup.Fs.ShortReads — `filemap.c`: when a read stops before its end.

On a miss `max_sane_readahead` gets what is left of the file as `isize - (off + retval)`.  Both variables have moved by
then, so that the bytes already read count twice; where the difference reaches zero the answer is no page at all.  The
theorem says when the loop gets there and does not find the page in the cache, or asks for a block that no allocator has.
-/
import LostWakeup.Fs.PageCache

namespace LostWakeup.Fs.PageCache

open Library
open Mpage (Short)

/-! ## What is wanted, and when it holds -/

/-- `do_generic_file_read` with the bytes it copies out.  `budget` is the share of the free memory that read-ahead may
use, in pages, after so many bytes. -/
def do_generic_file_read (ip : inode) (budget : Nat → Nat) (beyond : Nat → UInt8) (off n : Nat) :
    Except Panic (address_space × List UInt8) :=
  readLoop ip budget beyond n n (mappingOf ip) off []

/-- The read delivers the bytes of the file, up to its end. -/
def Complete (ip : inode) (budget : Nat → Nat) (beyond : Nat → UInt8) (off n : Nat) : Prop :=
  ∃ mapping out, do_generic_file_read ip budget beyond off n = .ok (mapping, out) ∧
    out.length = min n (ip.i_size - off) ∧ Copied (view ip.disk (mappingOf ip)) off out

def cached (m : address_space) (i : Nat) : Bool := (m.page_tree i).isSome

/-- How many pages a miss at page `i` brings in.  Past the first page of a read nothing but the memory limits it, as far
as the page that matters here. -/
def asked (ip : inode) (budget : Nat → Nat) (off n i : Nat) : Nat :=
  if i = off / PGSIZE then max_sane_readahead n (mappingOf ip).read_ahead_cnt (ip.i_size - off) (budget 0)
  else budget (i * PGSIZE - off)

/-- Where the pages end that were brought in before the loop comes to the `s`-th page of the read. -/
def ahead (ip : inode) (budget : Nat → Nat) (off n : Nat) : Nat → Nat
  | 0 => off / PGSIZE
  | s + 1 =>
    let i := off / PGSIZE + s
    if cached (mappingOf ip) i = true ∨ i < ahead ip budget off n s then ahead ip budget off n s
    else i + asked ip budget off n i

/-- At the start of page `j` the file is used up by what counts twice. -/
def UsedUp (ip : inode) (off j : Nat) : Prop :=
  ip.i_size ≤ off + 2 * (j * PGSIZE - off) ∧ off + 2 * (j * PGSIZE - off) < ip.i_size + PGSIZE

/-- The read comes to such a page, which is neither cached nor read ahead. -/
structure StopsAt (ip : inode) (budget : Nat → Nat) (off n j : Nat) : Prop where
  usedUp : UsedUp ip off j
  inside : j * PGSIZE < off + min n (ip.i_size - off)
  uncached : cached (mappingOf ip) j = false
  unread : ahead ip budget off n (j - off / PGSIZE) ≤ j

/-- The number of pages that a miss asks for after `r` bytes. -/
def sane (ip : inode) (budget : Nat → Nat) (n off : Nat) (m : address_space) (r : Nat) : Nat :=
  max_sane_readahead (n - r) m.read_ahead_cnt (toUint64 ((ip.i_size : Int) - (off + r + r))) (budget r)

/-- The page that the loop comes to after `r` bytes, as `readGetPage` finds it. -/
def pageAt (ip : inode) (budget : Nat → Nat) (beyond : Nat → UInt8) (off n : Nat) (m : address_space) (r : Nat) :
    Except Panic (address_space × Option Page) :=
  readGetPage ip (budget r) beyond m ((off + r) / PGSIZE) (n - r) (off + r) r

/-- The loop, after `r` bytes and with the mapping `m`, comes to a miss where of the pages it asks for more than `2^13` are
missing in a row. -/
inductive LongGap (ip : inode) (budget : Nat → Nat) (beyond : Nat → UInt8) (off n : Nat) : address_space → Nat → Prop
  | here {m : address_space} {r : Nat} (uncached : cached m ((off + r) / PGSIZE) = false)
      (long : ¬ Short ((off + r) / PGSIZE) (sane ip budget n off m r) m.page_tree 0) : LongGap ip budget beyond off n m r
  | later {m m' : address_space} {page : Page} {r r' : Nat} (got : pageAt ip budget beyond off n m r = .ok (m', some page))
      (next : r' = ((off + r) / PGSIZE + 1) * PGSIZE - off) (inside : r' < min n (ip.i_size - off))
      (rest : LongGap ip budget beyond off n m' r') : LongGap ip budget beyond off n m r

/-! ## One turn of the loop -/

section

variable {ip : inode} {budget : Nat → Nat} {beyond : Nat → UInt8} {off n : Nat}

/-- What the loop has in the cache after it has come to page `i`, where a miss brings in `cnt` pages. -/
structure Got (ip : inode) (m m' : address_space) (i cnt : Nat) : Prop where
  fetched : Fetched ip m m'
  cached : ∀ p, cached m' p = true ↔ cached m p = true ∨ (cached m i = false ∧ i ≤ p ∧ p < i + cnt)

theorem cached_readpages (ip : inode) (beyond : Nat → UInt8) (m : address_space) (i cnt p : Nat) :
    cached (mpage_readpages ip beyond m i cnt true) p = true ↔ cached m p = true ∨ (i ≤ p ∧ p < i + cnt) := by
  unfold cached mpage_readpages
  dsimp only
  rcases hp : m.page_tree p with _ | page
  · rcases em (i ≤ p ∧ p < i + cnt) with hin | hout
    · simp [hin]
    · simp [hout]
  · simp

theorem cached_false {m : address_space} {i : Nat} (h : m.page_tree i = none) : cached m i = false := by rw [cached, h]; rfl

/-- A page is found, or brought in; or no page may be read, or the allocator has no such block. -/
theorem pageAt_cases (budget : Nat → Nat) (beyond : Nat → UInt8) {m : address_space} {i r : Nat} (hi : (off + r) / PGSIZE = i) :
    (cached m i = false ∧ sane ip budget n off m r = 0 ∧ ∃ m', pageAt ip budget beyond off n m r = .ok (m', none)) ∨
    (cached m i = false ∧ ¬ Short i (sane ip budget n off m r) m.page_tree 0 ∧
      pageAt ip budget beyond off n m r = .error .buddy_order) ∨
    ((cached m i = true ∨ sane ip budget n off m r ≠ 0) ∧ (cached m i = true ∨ Short i (sane ip budget n off m r) m.page_tree 0) ∧
      ∃ m' page, pageAt ip budget beyond off n m r = .ok (m', some page) ∧ m'.page_tree i = some page ∧
        Got ip m m' i (sane ip budget n off m r)) := by
  have hsane : max_sane_readahead (n - r) m.read_ahead_cnt (toUint64 ((ip.i_size : Int) - ((off + r : Nat) + r))) (budget r) =
      sane ip budget n off m r := by
    simp [sane]
  have hspec := readGetPage_spec ip (budget r) beyond m i (n - r) (off + r) r
  unfold pageAt
  rw [hi]
  unfold readGetPage at hspec ⊢
  rcases hm : m.page_tree i with _ | page
  · rw [hm] at hspec
    dsimp only at hspec ⊢
    rw [hsane] at hspec ⊢
    have hmiss := cached_false hm
    rcases eq_or_ne (sane ip budget n off m r) 0 with hzero | hcnt
    · rw [if_pos hzero]
      exact .inl ⟨hmiss, hzero, _, rfl⟩
    rw [if_neg hcnt] at hspec ⊢
    by_cases hshort : Short i (sane ip budget n off m r) m.page_tree 0
    · rw [if_neg (not_not_intro hshort)] at hspec ⊢
      refine .inr (.inr ⟨.inr hcnt, .inr hshort, ?_⟩)
      rcases hspec with hpanic | ⟨m', got, hget, hfetch, hpage⟩
      · cases hpanic
      cases hget
      -- the page tree is what `mpage_readpages` leaves
      have hcached := fun p => cached_readpages ip beyond
        { m with read_ahead_end := sub64 (add64 i (sane ip budget n off m r)) 1 } i (sane ip budget n off m r) p
      have hin := (hcached i).mpr (.inr ⟨Nat.le_refl i, by omega⟩)
      obtain ⟨page, hin⟩ := Option.isSome_iff_exists.mp hin
      refine ⟨_, page, congrArg (Except.ok ∘ Prod.mk _) hin, hin, hfetch, fun p => (hcached p).trans ?_⟩
      rw [hmiss]
      simp [cached]
    · rw [if_pos hshort]
      exact .inr (.inl ⟨hmiss, hshort, rfl⟩)
  · have hhit : cached m i = true := by rw [cached, hm]; rfl
    refine .inr (.inr ⟨.inl hhit, .inl hhit, m, page, rfl, hm, .refl m, fun p => ?_⟩)
    simp [hhit]

/-- One turn in the file: the loop ends where a miss may read nothing or asks for too large a block, and else copies to the end
of the page, of the file or of the request. -/
theorem readLoop_turn (budget : Nat → Nat) (beyond : Nat → UInt8) {v : Nat → UInt8} {m : address_space} {out : List UInt8} {i : Nat}
    (fuel : Nat) (hi : (off + out.length) / PGSIZE = i) (hin : off + out.length < ip.i_size) (hlen : out.length < n)
    (hcopied : Copied v off out) (hview : ∀ p, p < ip.i_size → view ip.disk m p = v p) :
    (cached m i = false ∧ sane ip budget n off m out.length = 0 ∧
      ∃ m', pageAt ip budget beyond off n m out.length = .ok (m', none) ∧
        readLoop ip budget beyond n (fuel + 1) m (off + out.length) out = .ok (m', out)) ∨
    (cached m i = false ∧ ¬ Short i (sane ip budget n off m out.length) m.page_tree 0 ∧
      readLoop ip budget beyond n (fuel + 1) m (off + out.length) out = .error .buddy_order) ∨
    ((cached m i = true ∨ sane ip budget n off m out.length ≠ 0) ∧
      (cached m i = true ∨ Short i (sane ip budget n off m out.length) m.page_tree 0) ∧
      ∃ m' page out', pageAt ip budget beyond off n m out.length = .ok (m', some page) ∧
        readLoop ip budget beyond n (fuel + 1) m (off + out.length) out =
          (if out'.length = n then .ok (m', out') else readLoop ip budget beyond n fuel m' (off + out'.length) out') ∧
        Got ip m m' i (sane ip budget n off m out.length) ∧
        out'.length = min (min n (ip.i_size - off)) ((i + 1) * PGSIZE - off) ∧ Copied v off out') := by
  have hend : ¬ (off + out.length) / PGSIZE > (ip.i_size - 1) / PGSIZE := by
    simp only [PGSIZE]
    omega
  have hnr := offset_lt_nr hin
  rw [readLoop]
  dsimp only
  rw [if_neg hend, if_neg hnr.not_ge]
  have hpageAt : readGetPage ip (budget out.length) beyond m ((off + out.length) / PGSIZE) (n - out.length) (off + out.length)
      out.length = pageAt ip budget beyond off n m out.length := rfl
  rw [hpageAt]
  -- the page, from the cache or from the disk
  rcases @pageAt_cases ip off n budget beyond m i out.length hi with
    ⟨hmiss, hzero, m', hget⟩ | ⟨hmiss, hlong, hget⟩ | ⟨hsome, hshort, m', page, hget, hpage, hgot⟩
  · rw [hget]
    exact .inl ⟨hmiss, hzero, m', rfl, rfl⟩
  · rw [hget]
    exact .inr (.inl ⟨hmiss, hlong, rfl⟩)
  rw [hget]
  refine .inr (.inr ⟨hsome, hshort, m', page, ?_⟩)
  dsimp only
  rw [hi] at hnr ⊢
  generalize hnr' : (if i = (ip.i_size - 1) / PGSIZE then (ip.i_size - 1) % PGSIZE + 1 else PGSIZE) = nr at hnr ⊢
  generalize hlen' : min (min (n - out.length) (nr - (off + out.length) % PGSIZE)) (ip.i_size - (off + out.length) % PGSIZE) = len
  have hstop : nr - (off + out.length) % PGSIZE = min (ip.i_size - (off + out.length)) ((i + 1) * PGSIZE - (off + out.length)) := by
    rw [← hnr']
    rcases eq_or_ne i ((ip.i_size - 1) / PGSIZE) with hlast | hlast
    · rw [if_pos hlast]
      simp only [PGSIZE] at hi hlast ⊢
      omega
    · rw [if_neg hlast]
      simp only [PGSIZE] at hi hlast ⊢
      omega
  have hlen : len = min (n - out.length) (min (ip.i_size - (off + out.length)) ((i + 1) * PGSIZE - (off + out.length))) := by
    rw [← hlen', hstop]
    have hmod : (off + out.length) % PGSIZE ≤ off + out.length := Nat.mod_le _ _
    omega
  have hpg : (off + out.length) % PGSIZE + len ≤ PGSIZE := by
    simp only [PGSIZE] at hi hlen ⊢
    omega
  have hbytes : (List.range len).map (fun k => page ((off + out.length) % PGSIZE + k)) =
      (List.range len).map fun k => v (off + out.length + k) := by
    apply List.map_congr_left
    intro k hk
    rw [List.mem_range] at hk
    have hat : m'.page_tree ((off + out.length) / PGSIZE) = some page := by rw [hi]; exact hpage
    have hbyte : page ((off + out.length) % PGSIZE + k) = view ip.disk m' (off + out.length + k) := page_bytes hat hpg hk
    rw [hbyte, hgot.fetched.view_eq (by omega), hview _ (by omega)]
  rw [hbytes]
  have hlength : (out ++ (List.range len).map fun k => v (off + out.length + k)).length = out.length + len := by
    rw [List.length_append, List.length_map, List.length_range]
  refine ⟨_, rfl, ?_, hgot, ?_, hcopied.append len⟩
  · rw [hlength, Nat.add_assoc]
  rw [hlength, hlen]
  have hstart : off + out.length < (i + 1) * PGSIZE := by
    simp only [PGSIZE] at hi ⊢
    omega
  omega

/-! ## The pages that matter -/

theorem pages_eq {sz : Nat} (h : sz < 2 ^ 63) : PGROUNDUP sz / PGSIZE = (sz + 4095) / 4096 := by
  unfold PGROUNDUP roundUp
  simp only [PGSIZE]
  omega

theorem sane_eq_zero {m : address_space} {i : Nat} (hsize : ip.i_size < 2 ^ 32) (hn : n < 2 ^ 32) (hbudget : ∀ r, 0 < budget r)
    (hin : i * PGSIZE - off < min n (ip.i_size - off)) :
    sane ip budget n off m (i * PGSIZE - off) = 0 ↔ UsedUp ip off i := by
  have hb := hbudget (i * PGSIZE - off)
  unfold sane max_sane_readahead UsedUp
  rw [pages_eq (by omega : n - (i * PGSIZE - off) < 2 ^ 63)]
  generalize hr : i * PGSIZE - off = r at hin hb ⊢
  have hlim : PGROUNDUP (toUint64 ((ip.i_size : Int) - (off + r + r))) / PGSIZE = 0 ↔
      ip.i_size ≤ off + 2 * r ∧ off + 2 * r < ip.i_size + PGSIZE := by
    unfold PGROUNDUP roundUp toUint64
    simp only [PGSIZE]
    omega
  rw [← hlim]
  omega

theorem sane_reaches {m : address_space} {i j t : Nat} (hsize : ip.i_size < 2 ^ 32) (hn : n < 2 ^ 32) (hi : off / PGSIZE < i) (hij : i < j)
    (hused : UsedUp ip off j) (hin : j * PGSIZE < off + min n (ip.i_size - off)) (ht : t ≤ j - i) :
    t < sane ip budget n off m (i * PGSIZE - off) ↔ t < budget (i * PGSIZE - off) := by
  obtain ⟨hlow, hhigh⟩ := hused
  have hoff : off ≤ i * PGSIZE := by
    simp only [PGSIZE] at hi ⊢
    omega
  simp only [PGSIZE] at *
  unfold sane max_sane_readahead
  rw [pages_eq (by omega : n - (i * 4096 - off) < 2 ^ 63)]
  have htot : toUint64 ((ip.i_size : Int) - (off + ((i * 4096 - off : Nat) : Int) + ((i * 4096 - off : Nat) : Int))) =
      ip.i_size + off - 2 * (i * 4096) := by
    unfold toUint64
    omega
  rw [htot, pages_eq (by omega)]
  omega

/-- The cache at the `s`-th page of the read, as far as the pages that matter. -/
def Tracks (ip : inode) (budget : Nat → Nat) (off n s : Nat) (m : address_space) : Prop :=
  ∀ j, UsedUp ip off j → j * PGSIZE < off + min n (ip.i_size - off) → ∀ p, off / PGSIZE + s ≤ p → p ≤ j →
    (cached m p = true ↔ cached (mappingOf ip) p = true ∨ p < ahead ip budget off n s)

/-- What a miss asks for, as far as the page that matters. -/
theorem sane_asked {m : address_space} {i j t : Nat} (hsize : ip.i_size < 2 ^ 32) (hn : n < 2 ^ 32) (hi : off / PGSIZE ≤ i)
    (hra : i = off / PGSIZE → m.read_ahead_cnt = (mappingOf ip).read_ahead_cnt) (hij : i < j) (hused : UsedUp ip off j)
    (hin : j * PGSIZE < off + min n (ip.i_size - off)) (ht : t ≤ j - i) :
    t < sane ip budget n off m (i * PGSIZE - off) ↔ t < asked ip budget off n i := by
  rcases eq_or_lt_of_le hi with hfirst | hlater
  · have hzero : i * PGSIZE - off = 0 := by
      simp only [PGSIZE] at hfirst ⊢
      omega
    have htot : toUint64 ((ip.i_size : Int) - (off + (0 : Nat) + (0 : Nat))) = ip.i_size - off := by
      simp only [PGSIZE] at *
      unfold toUint64
      omega
    rw [hzero, asked, if_pos hfirst.symm, sane, hra hfirst.symm, htot, Nat.sub_zero]
  · rw [asked, if_neg hlater.ne']
    exact sane_reaches hsize hn hlater hij hused hin ht

theorem Tracks.step {m m' : address_space} {s i : Nat} (h : Tracks ip budget off n s m) (hsize : ip.i_size < 2 ^ 32)
    (hn : n < 2 ^ 32) (hi : i = off / PGSIZE + s) (hra : s = 0 → m.read_ahead_cnt = (mappingOf ip).read_ahead_cnt)
    (hgot : Got ip m m' i (sane ip budget n off m (i * PGSIZE - off))) : Tracks ip budget off n (s + 1) m' := by
  intro j hused hin p hp hpj
  have hrest := h j hused hin p (by omega) hpj
  have hhere := h j hused hin i (by omega) (by omega)
  have hahead : ahead ip budget off n (s + 1) =
      if cached (mappingOf ip) i = true ∨ i < ahead ip budget off n s then ahead ip budget off n s
      else i + asked ip budget off n i := by
    rw [ahead, ← hi]
  rw [hgot.cached p, hrest, hahead]
  rcases em (cached (mappingOf ip) i = true ∨ i < ahead ip budget off n s) with hhit | hmiss
  · -- a hit brings in nothing
    rw [if_pos hhit, hhere.mpr hhit]
    simp
  rw [if_neg hmiss]
  rw [not_or] at hmiss
  have hnone : cached m i = false := by
    rcases hc : cached m i with _ | _
    · rfl
    · exact absurd (hhere.mp hc) (not_or.mpr hmiss)
  have hasked : p - i < sane ip budget n off m (i * PGSIZE - off) ↔ p - i < asked ip budget off n i :=
    sane_asked hsize hn (by omega) (fun hfirst => hra (by omega)) (show i < j by omega) hused hin (by omega)
  rw [hnone]
  constructor
  · rintro ((hcached | hlt) | ⟨_, _, hlt⟩)
    · exact .inl hcached
    · omega
    · have hmore := hasked.mp (by omega)
      exact .inr (by omega)
  · rintro (hcached | hlt)
    · exact .inl (.inl hcached)
    · have hmore := hasked.mpr (by omega)
      exact .inr ⟨rfl, by omega, by omega⟩

/-! ## The whole loop -/

theorem readLoop_end {m : address_space} {out : List UInt8} (fuel : Nat) (hend : off + out.length = ip.i_size) (hsome : 0 < ip.i_size) :
    readLoop ip budget beyond n (fuel + 1) m (off + out.length) out =
      if PGSIZE ∣ ip.i_size then .ok (m, out) else .error .not_tested := by
  rw [readLoop]
  dsimp only
  rw [hend]
  rcases em (PGSIZE ∣ ip.i_size) with hdvd | hndvd
  · have hpast : ip.i_size / PGSIZE > (ip.i_size - 1) / PGSIZE := by
      simp only [PGSIZE] at hdvd ⊢
      omega
    rw [if_pos hpast, if_pos hdvd]
  have hlast : ip.i_size / PGSIZE = (ip.i_size - 1) / PGSIZE := by
    simp only [PGSIZE] at hndvd ⊢
    omega
  have hoffset : (ip.i_size - 1) % PGSIZE + 1 ≤ ip.i_size % PGSIZE := by
    simp only [PGSIZE] at hndvd ⊢
    omega
  rw [if_neg (by omega), if_pos hlast, if_pos hoffset, if_neg hndvd]

/-- How a read comes out. -/
inductive Outcome (ip : inode) (budget : Nat → Nat) (off n : Nat) (v : Nat → UInt8) :
    Except Panic (address_space × List UInt8) → Prop
  | stopped (j : Nat) (m : address_space) (out : List UInt8) : StopsAt ip budget off n j →
      out.length < min n (ip.i_size - off) → Outcome ip budget off n v (.ok (m, out))
  | complete (m : address_space) (out : List UInt8) : (∀ j, ¬ StopsAt ip budget off n j) → n ≤ ip.i_size - off ∨ PGSIZE ∣ ip.i_size →
      out.length = min n (ip.i_size - off) → Copied v off out → Outcome ip budget off n v (.ok (m, out))
  | panicked : ¬ (n ≤ ip.i_size - off ∨ PGSIZE ∣ ip.i_size) → Outcome ip budget off n v (.error .not_tested)
  | order : Outcome ip budget off n v (.error .buddy_order)

/-- The loop asks for a block that no allocator has if and only if it comes to a gap too long. -/
theorem readLoop_order_iff {v : Nat → UInt8} (fuel : Nat) {m : address_space} {out : List UInt8}
    (hin : out.length < min n (ip.i_size - off)) (hfuel : n - out.length ≤ fuel) (hcopied : Copied v off out)
    (hview : ∀ p, p < ip.i_size → view ip.disk m p = v p) :
    readLoop ip budget beyond n fuel m (off + out.length) out = .error .buddy_order ↔ LongGap ip budget beyond off n m out.length := by
  induction fuel generalizing m out with
  | zero => omega
  | succ fuel ih =>
    have hpage : (off + out.length) / PGSIZE < (off + out.length) / PGSIZE + 1 := Nat.lt_succ_self _
    rcases readLoop_turn budget beyond (n := n) fuel rfl (by omega) (by omega) hcopied hview with
      ⟨-, hzero, m', hget, hturn⟩ | ⟨hmiss, hlong, hturn⟩ | ⟨-, hshort, m', page, out', hget, hturn, hgot, hlen, hcopied'⟩
    · -- no page is asked for
      rw [hturn]
      refine iff_of_false (fun h => by cases h) ?_
      rintro (⟨-, hlong⟩ | ⟨hget', -⟩)
      · exact hlong fun i _ hi => by omega
      · cases hget.symm.trans hget'
    · rw [hturn]
      exact iff_of_true rfl (.here hmiss hlong)
    rw [hturn]
    have hview' : ∀ p, p < ip.i_size → view ip.disk m' p = v p := fun p hp => (hgot.fetched.view_eq hp).trans (hview p hp)
    have hlater : LongGap ip budget beyond off n m out.length ↔
        ((off + out.length) / PGSIZE + 1) * PGSIZE - off < min n (ip.i_size - off) ∧
          LongGap ip budget beyond off n m' (((off + out.length) / PGSIZE + 1) * PGSIZE - off) := by
      constructor
      · rintro (⟨hmiss, hlong⟩ | ⟨hget', rfl, hinside, hrest⟩)
        · rcases hshort with hhit | hshort
          · exact absurd hhit (Bool.eq_false_iff.mp hmiss)
          · exact absurd hshort hlong
        · cases hget.symm.trans hget'
          exact ⟨hinside, hrest⟩
      · rintro ⟨hinside, hrest⟩
        exact .later hget rfl hinside hrest
    rw [hlater]
    rcases lt_or_ge (((off + out.length) / PGSIZE + 1) * PGSIZE - off) (min n (ip.i_size - off)) with hmore | hlast
    · have hnext : out'.length = ((off + out.length) / PGSIZE + 1) * PGSIZE - off := by omega
      have hgrow : out.length < out'.length := by
        simp only [PGSIZE] at hnext ⊢
        omega
      rw [if_neg (by omega), ih (by omega) (by omega) hcopied' hview', hnext]
      exact (and_iff_right hmore).symm
    · refine iff_of_false ?_ fun h => by omega
      have hall : out'.length = min n (ip.i_size - off) := by omega
      rcases lt_or_ge (ip.i_size - off) n with hover | hfits
      · -- the file ends before the request does
        rw [if_neg (by omega)]
        obtain ⟨fuel, rfl⟩ : ∃ k, fuel = k + 1 := ⟨fuel - 1, by omega⟩
        rw [readLoop_end fuel (by omega) (by omega)]
        split
        · exact fun h => by cases h
        · exact fun h => by cases h
      · rw [if_pos (by omega)]
        exact fun h => by cases h

theorem readLoop_outcome {v : Nat → UInt8} (hsize : ip.i_size < 2 ^ 32) (hn : n < 2 ^ 32) (hbudget : ∀ r, 0 < budget r) (fuel : Nat)
    {s : Nat} {m : address_space} {out : List UInt8} (hr : out.length = (off / PGSIZE + s) * PGSIZE - off)
    (hin : out.length < min n (ip.i_size - off)) (hfuel : n - out.length ≤ fuel) (hcopied : Copied v off out)
    (hview : ∀ p, p < ip.i_size → view ip.disk m p = v p)
    (hra : s = 0 → m.read_ahead_cnt = (mappingOf ip).read_ahead_cnt) (htracks : Tracks ip budget off n s m)
    (hlater : ∀ j, StopsAt ip budget off n j → off / PGSIZE + s ≤ j) :
    Outcome ip budget off n v (readLoop ip budget beyond n fuel m (off + out.length) out) := by
  induction fuel generalizing s m out with
  | zero => omega
  | succ fuel ih =>
    generalize hi : off / PGSIZE + s = i at hr hlater
    have hpage : (off + out.length) / PGSIZE = i := by
      rw [hr]
      simp only [PGSIZE] at hi ⊢
      omega
    have hzero := sane_eq_zero (m := m) hsize hn hbudget (hr ▸ hin)
    have hinside : i * PGSIZE < off + min n (ip.i_size - off) := by omega
    -- whether the page matters, and whether it is there
    have hstops : UsedUp ip off i → (StopsAt ip budget off n i ↔ cached m i = false) := by
      intro hused
      have hhere := htracks i hused hinside i (by omega) le_rfl
      have hs : i - off / PGSIZE = s := by omega
      constructor
      · intro hstop
        have hunread := hstop.unread
        rw [hs] at hunread
        rcases hc : cached m i with _ | _
        · rfl
        · rcases hhere.mp hc with hcached | hlt
          · exact absurd hcached (Bool.eq_false_iff.mp hstop.uncached)
          · omega
      · intro hmiss
        rw [hmiss] at hhere
        have hnot := not_or.mp fun h => Bool.false_ne_true (hhere.mpr h)
        exact ⟨hused, hinside, Bool.eq_false_iff.mpr hnot.1, by rw [hs]; omega⟩
    rcases readLoop_turn budget beyond (n := n) fuel hpage (by omega) (by omega) hcopied hview with
      ⟨hmiss, hsane, m', -, hturn⟩ | ⟨-, -, hturn⟩ | ⟨hsome, -, m', -, out', -, hturn, hgot, hlen, hcopied'⟩
    · rw [hturn]
      rw [hr] at hsane
      exact .stopped i m' out ((hstops (hzero.mp hsane)).mpr hmiss) hin
    · rw [hturn]
      exact .order
    rw [hturn]
    rw [hr] at hsome hgot
    have hgo : ∀ j, StopsAt ip budget off n j → i + 1 ≤ j := by
      intro j hstop
      have hle := hlater j hstop
      rcases eq_or_lt_of_le hle with heq | hlt
      · rw [← heq] at hstop
        have hmiss := (hstops hstop.usedUp).mp hstop
        rcases hsome with hhit | hcnt
        · rw [hmiss] at hhit
          cases hhit
        · exact absurd (hzero.mpr hstop.usedUp) hcnt
      · exact hlt
    rcases lt_or_ge ((i + 1) * PGSIZE) (off + min n (ip.i_size - off)) with hmore | hlast
    · -- on to the next page
      have hless : out'.length ≠ n := by omega
      rw [if_neg hless]
      have hnext : i + 1 = off / PGSIZE + (s + 1) := by omega
      have hgrow : out.length < out'.length := by
        simp only [PGSIZE] at hpage hlen hmore
        omega
      refine ih (s := s + 1) (by rw [← hnext]; omega) (by omega) (by omega) hcopied' (fun p hp => ?_) (fun h => absurd h (by omega))
        (htracks.step hsize hn hi.symm hra hgot) (by rw [← hnext]; exact hgo)
      rw [hgot.fetched.view_eq hp, hview p hp]
    · have hall : out'.length = min n (ip.i_size - off) := by omega
      have hnone : ∀ j, ¬ StopsAt ip budget off n j := by
        intro j hstop
        have hin' := hstop.inside
        have hpast : (i + 1) * PGSIZE ≤ j * PGSIZE := Nat.mul_le_mul_right _ (hgo j hstop)
        omega
      rcases lt_or_ge (ip.i_size - off) n with hlong | hshort
      · -- the file ends before the request does
        rw [if_neg (by omega)]
        obtain ⟨fuel, rfl⟩ : ∃ k, fuel = k + 1 := ⟨fuel - 1, by omega⟩
        rw [readLoop_end fuel (by omega) (by omega)]
        rcases em (PGSIZE ∣ ip.i_size) with hdvd | hndvd
        · rw [if_pos hdvd]
          exact .complete m' out' hnone (.inr hdvd) hall hcopied'
        · rw [if_neg hndvd]
          exact .panicked fun h => h.elim (fun hle => by omega) hndvd
      · rw [if_pos (by omega)]
        exact .complete m' out' hnone (.inl hshort) hall hcopied'

theorem read_outcome (beyond : Nat → UInt8) (hsize : ip.i_size < 2 ^ 32) (hn : n < 2 ^ 32) (hoff : off < ip.i_size) (hpos : 0 < n)
    (hbudget : ∀ r, 0 < budget r) :
    Outcome ip budget off n (view ip.disk (mappingOf ip)) (do_generic_file_read ip budget beyond off n) := by
  have hfirst : ([] : List UInt8).length = (off / PGSIZE + 0) * PGSIZE - off := by
    simp only [PGSIZE, List.length_nil]
    omega
  have hlater : ∀ j, StopsAt ip budget off n j → off / PGSIZE + 0 ≤ j := by
    intro j hstop
    have hused := hstop.usedUp.1
    simp only [PGSIZE] at hused ⊢
    omega
  have htracks : Tracks ip budget off n 0 (mappingOf ip) := by
    intro j _ _ p hp _
    have hnot : ¬ p < ahead ip budget off n 0 := not_lt.mpr hp
    simp [hnot]
  exact readLoop_outcome hsize hn hbudget n hfirst (by rw [List.length_nil]; omega) (Nat.sub_le ..) rfl
    (fun _ _ => rfl) (fun _ => rfl) htracks hlater

theorem read_order_iff (hoff : off < ip.i_size) (hpos : 0 < n) :
    do_generic_file_read ip budget beyond off n = .error .buddy_order ↔ LongGap ip budget beyond off n (mappingOf ip) 0 := by
  have hin : ([] : List UInt8).length < min n (ip.i_size - off) := by
    rw [List.length_nil]
    omega
  have hcopied : Copied (view ip.disk (mappingOf ip)) off ([] : List UInt8) := rfl
  exact readLoop_order_iff n hin (Nat.sub_le ..) hcopied fun _ _ => rfl

/-- Read-ahead that may ask for the pages of one block only comes to no gap too long. -/
theorem not_longGap_of_budget (hbudget : ∀ r, budget r ≤ 2 ^ 13) (hoff : off < ip.i_size) (hpos : 0 < n) :
    ¬ LongGap ip budget beyond off n (mappingOf ip) 0 :=
  (read_order_iff hoff hpos).not.mp (readLoop_returns hbudget _ _ _ _ _ _ _)

theorem incomplete_of_stops (hsize : ip.i_size < 2 ^ 32) (hn : n < 2 ^ 32) (hoff : off < ip.i_size) (hpos : 0 < n)
    (hbudget : ∀ r, 0 < budget r) {j : Nat} (hstop : StopsAt ip budget off n j) : ¬ Complete ip budget beyond off n := by
  rintro ⟨m', out', heq, hlen, -⟩
  have hout := read_outcome beyond hsize hn hoff hpos hbudget
  rw [heq] at hout
  cases hout with
  | stopped _ _ _ _ hless => omega
  | complete _ _ hnone => exact hnone j hstop

end

/-- **A read is complete** exactly when the loop does not come to the page at which the bytes already read use up the file
twice without having it in the cache, nor to a gap too long for the allocator.  A read past the end of the file must also
find the end at a page boundary, where the loop stops without a panic. -/
theorem complete_read {ip : inode} {budget : Nat → Nat} {beyond : Nat → UInt8} {off n : Nat} (hsize : ip.i_size < 2 ^ 32)
    (hn : n < 2 ^ 32) (hoff : off < ip.i_size) (hpos : 0 < n) (hbudget : ∀ r, 0 < budget r) :
    Complete ip budget beyond off n ↔
      (n ≤ ip.i_size - off ∨ PGSIZE ∣ ip.i_size) ∧ (∀ j, ¬ StopsAt ip budget off n j) ∧
        ¬ LongGap ip budget beyond off n (mappingOf ip) 0 := by
  have hout := read_outcome beyond hsize hn hoff hpos hbudget
  rw [← read_order_iff hoff hpos]
  constructor
  · intro hcomplete
    refine ⟨?_, fun j hstop => incomplete_of_stops hsize hn hoff hpos hbudget hstop hcomplete, fun hpanic => ?_⟩
    · obtain ⟨m, out, heq, hlen, -⟩ := hcomplete
      rw [heq] at hout
      cases hout with
      | stopped _ _ _ _ hless => omega
      | complete _ _ _ hends => exact hends
    · obtain ⟨m, out, heq, -⟩ := hcomplete
      cases heq.symm.trans hpanic
  · rintro ⟨hends, hnone, hshort⟩
    unfold Complete
    generalize do_generic_file_read ip budget beyond off n = result at hout hshort ⊢
    cases hout with
    | stopped j _ _ hstop => exact absurd hstop (hnone j)
    | complete m out _ _ hlen hcopied => exact ⟨m, out, rfl, hlen, hcopied⟩
    | panicked hnot => exact absurd hends hnot
    | order => exact absurd rfl hshort

/-- With nothing cached, two pages are read together. -/
theorem complete_read_two_pages : Complete (opened (fun _ => 7) 8192) (fun _ => 100) (fun _ => 0) 0 8192 := by
  refine (complete_read (by decide) (by decide) (by decide) (by decide) fun _ => by decide).mpr
    ⟨.inl (by decide), fun j hstop => ?_, not_longGap_of_budget (fun _ => by decide) (by decide) (by decide)⟩
  have hone : j = 1 := by
    have hused := hstop.usedUp
    simp only [UsedUp, opened, PGSIZE] at hused
    omega
  subst hone
  exact absurd hstop.unread (by decide)

/-- A file of two pages, the first of them cached. -/
def half_cached : inode :=
  { opened (fun _ => 7) 8192 with i_mapping := some { fat32_i_mapping_init with page_tree := Function.update (fun _ => none) 0 (some fun _ => 7) } }

theorem second_page_unread : ¬ ∀ (ip : inode) (budget : Nat → Nat) (beyond : Nat → UInt8) (off n : Nat), ip.i_size < 2 ^ 32 →
    n < 2 ^ 32 → off < ip.i_size → 0 < n → (∀ r, 0 < budget r) → Complete ip budget beyond off n := by
  intro hall
  have hstop : StopsAt half_cached (fun _ => 100) 0 8192 1 := ⟨⟨by decide, by decide⟩, by decide, by decide, by decide⟩
  exact incomplete_of_stops (by decide) (by decide) (by decide) (by decide) (fun _ => by decide) hstop
    (hall half_cached (fun _ => 100) (fun _ => 0) 0 8192 (by decide) (by decide) (by decide) (by decide) fun _ => by decide)

end LostWakeup.Fs.PageCache
