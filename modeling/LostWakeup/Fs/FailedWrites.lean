/-
# LostWakeup.Fs.FailedWrites — `filemap.c`, `fat32_file.c`: a write whose buffer is not all mapped.

`do_generic_file_write` copies the buffer into the cache page by page and returns -1 at the first byte that is not
mapped.  What it has done by then stays, also the pages zeroed because the write was to fill them; the size, the position
and the dirty list are spared.  `Harmless` says when a reader does not notice.
-/
import LostWakeup.Fs.ShortReads

namespace LostWakeup.Fs.FailedWrites

open Library Fs.PageCache

/-! ## The user's memory -/

/-- What `walkaddr` finds, by page number. -/
abbrev pagetable : Type := Nat → Option Page

def mapped (user : pagetable) (va : Nat) : Bool := (user (va / PGSIZE)).isSome

def byteAt (user : pagetable) (va : Nat) : UInt8 :=
  match user (va / PGSIZE) with
  | some page => page (va % PGSIZE)
  | none => 0

/-- The loop of `copyin`, with the number of bytes it has copied. -/
def copyinLoop (user : pagetable) : Nat → Nat → Nat → Nat → Nat × Int
  | 0, _, _, copied => (copied, 0)
  | fuel + 1, srcva, len, copied =>
    if len = 0 then
      (copied, 0)
    else
      let va0 := srcva / PGSIZE * PGSIZE
      if mapped user va0 = false then
        (copied, -1)
      else
        let n := min (PGSIZE - (srcva - va0)) len
        copyinLoop user fuel (va0 + PGSIZE) (len - n) (copied + n)

/-- Every turn copies a byte, so there are no more turns than bytes. -/
def copyin (user : pagetable) (srcva len : Nat) : Nat × Int := copyinLoop user len srcva len 0

/-! ## The write -/

/-- The loop of `do_generic_file_write`, with its return value. -/
def writeLoop (ip : inode) (beyond : Nat → UInt8) (user : pagetable) (src n : Nat) :
    Nat → address_space → Nat → Nat → Except Panic (address_space × Int)
  | 0, _, _, _ => .error .no_return
  | fuel + 1, mapping, off, retval =>
    let index := off / PGSIZE
    let offset := off % PGSIZE
    let mapping := writeGetPage ip beyond mapping index offset (n - retval)
    let len := min (n - retval) (PGSIZE - offset)
    let (copied, r) := copyin user (src + retval) len
    let filled := PageCache.copyin mapping index offset copied fun k => byteAt user (src + retval + k)
    if r = -1 then
      -- the bytes are in the page, which is not tagged for them
      .ok ({ filled with dirty_tag := mapping.dirty_tag }, -1)
    else if retval + len = n then
      .ok (filled, n)
    else
      writeLoop ip beyond user src n fuel filled (off + len) (retval + len)

def do_generic_file_write (ip : inode) (beyond : Nat → UInt8) (user : pagetable) (src off n : Nat) :
    Except Panic (address_space × Int) :=
  if n = 0 then .error .write_of_nothing
  else writeLoop ip beyond user src n n (mappingOf ip) off 0

/-- `fat32_inode_write` on a regular file, from user memory. -/
def fat32_inode_write (ip : inode) (beyond : Nat → UInt8) (user : pagetable) (src off n : Nat) :
    Except Panic (inode × Int) :=
  if (off + n) % 2 ^ 32 < off then
    .ok (ip, -1)
  else
    match do_generic_file_write ip beyond user src off n with
    | .error e => .error e
    | .ok (mapping, retval) =>
      let tot := int32 retval
      let ip := { ip with i_mapping := some mapping }
      if tot = -1 then
        .ok (ip, -1)
      else
        let i_size :=
          if (off + n) % 2 ^ 32 > ip.i_size then (((off : Int) + tot) % 2 ^ 32).toNat else ip.i_size
        .ok ({ ip with dirty_list := true, i_size := i_size }, tot)

/-- An open file of type `FD_INODE`. -/
structure file where
  f_writeable : Bool
  f_pos : Int
  f_inode : inode

/-- The position as the `uint` that `fat32_inode_write` gets. -/
def file.off (f : file) : Nat := (f.f_pos % 2 ^ 32).toNat

/-- The loop of `fat32_filewrite`, with the last `i`. -/
def filewriteLoop (beyond : Nat → UInt8) (user : pagetable) (addr : Nat) (n : Int) :
    Nat → file → Int → Except Panic (file × Int)
  | 0, _, _ => .error .no_return
  | fuel + 1, f, i =>
    if i < n then
      let n1 := n - i
      match fat32_inode_write f.f_inode beyond user (addr + i.toNat) f.off n1.toNat with
      | .error e => .error e
      | .ok (ip, r) =>
        let f := { f with f_inode := ip, f_pos := if r > 0 then f.f_pos + r else f.f_pos }
        if r ≠ n1 then .ok (f, i) else filewriteLoop beyond user addr n fuel f (i + r)
    else
      .ok (f, i)

/-- `fat32_filewrite`. -/
def fat32_filewrite (f : file) (beyond : Nat → UInt8) (user : pagetable) (addr : Nat) (n : Int) :
    Except Panic (file × Int) :=
  if f.f_writeable = false then
    .ok (f, -1)
  else
    match filewriteLoop beyond user addr n (n.toNat + 1) f 0 with
    | .error e => .error e
    | .ok (f, i) => .ok (f, if i = n then n else -1)

/-! ## What is wanted, and when it holds -/

/-- A read may return the byte `b` at `p`. -/
def Returns (ip : inode) (p : Nat) (b : UInt8) : Prop :=
  ∃ budget beyond off n ip' out k, n < 2 ^ 32 ∧ fat32_inode_read ip budget beyond off n = .ok (ip', out) ∧
    off + k = p ∧ out[k]? = some b

/-- The write returns, and if with an error then without a trace. -/
def NoTrace (f : file) (beyond : Nat → UInt8) (user : pagetable) (addr : Nat) (n : Int) : Prop :=
  ∃ f' r, fat32_filewrite f beyond user addr n = .ok (f', r) ∧
    (r < 0 → f'.f_inode.i_size = f.f_inode.i_size ∧ f'.f_pos = f.f_pos ∧
      ∀ p b, Returns f'.f_inode p b ↔ Returns f.f_inode p b)

/-- How many of the first `n` bytes from `addr` on can be read before one that is not mapped. -/
def readable (user : pagetable) (addr : Nat) : Nat → Nat
  | 0 => 0
  | n + 1 =>
    if readable user addr n = n ∧ mapped user (addr + n) = true then n + 1 else readable user addr n

/-- A page that a write of `n` bytes at `off` does not read from the disk, if it is missed. -/
def zeroed (ip : inode) (off n i : Nat) : Bool :=
  let start := max off (i * PGSIZE)
  WRITE_FULL_PAGE (off + n - start) || OUT_FILE (start % PGSIZE) (ip.i_size % PGSIZE)

/-- The bytes that get into the cache are the file's, and so are the zeros of the pages that are not read. -/
def Harmless (ip : inode) (user : pagetable) (addr off n : Nat) : Prop :=
  ∀ p, p < ip.i_size →
    (off ≤ p ∧ p < off + readable user addr n → byteAt user (addr + (p - off)) = view ip.disk (mappingOf ip) p) ∧
    (¬ (off ≤ p ∧ p < off + readable user addr n) → (mappingOf ip).page_tree (p / PGSIZE) = none →
      off / PGSIZE ≤ p / PGSIZE → p / PGSIZE ≤ (off + readable user addr n) / PGSIZE →
      zeroed ip off n (p / PGSIZE) = true → ip.disk p = 0)

/-! ## The copy from user memory -/

/-- The number `good` of bytes after which `copyin` fails, for a buffer of `n` bytes. -/
structure Good (user : pagetable) (addr n good : Nat) : Prop where
  le : good ≤ n
  mapped : ∀ k, k < good → mapped user (addr + k) = true
  stops : good < n → FailedWrites.mapped user (addr + good) = false

theorem readable_good (user : pagetable) (addr n : Nat) : Good user addr n (readable user addr n) := by
  induction n with
  | zero => exact ⟨Nat.le_refl 0, fun k hk => absurd hk (Nat.not_lt_zero k), fun h => absurd h (Nat.lt_irrefl 0)⟩
  | succ n ih =>
    rw [readable]
    rcases em (readable user addr n = n ∧ mapped user (addr + n) = true) with hmore | hstop
    · rw [if_pos hmore]
      refine ⟨le_rfl, fun k hk => ?_, fun h => absurd h (Nat.lt_irrefl _)⟩
      rcases Nat.lt_succ_iff_lt_or_eq.mp hk with hlt | rfl
      · exact ih.mapped k (by rw [hmore.1]; exact hlt)
      · exact hmore.2
    · rw [if_neg hstop]
      refine ⟨Nat.le_succ_of_le ih.le, ih.mapped, fun _ => ?_⟩
      rcases Nat.lt_or_eq_of_le ih.le with hlt | heq
      · exact ih.stops hlt
      · rw [heq]
        exact Bool.eq_false_iff.mpr fun h => hstop ⟨heq, h⟩

theorem mapped_congr {user : pagetable} {va va' : Nat} (h : va / PGSIZE = va' / PGSIZE) : mapped user va = mapped user va' := by
  rw [mapped, mapped, h]

theorem copyinLoop_done (user : pagetable) (fuel srcva copied : Nat) : copyinLoop user fuel srcva 0 copied = (copied, 0) := by
  cases fuel with
  | zero => rfl
  | succ fuel => rw [copyinLoop, if_pos rfl]

theorem copyinLoop_spec {user : pagetable} {addr n good : Nat} (h : Good user addr n good) (fuel : Nat) {r len : Nat} (copied : Nat)
    (hr : r ≤ good) (hlen : r + len ≤ n) (hfuel : len ≤ fuel) :
    copyinLoop user fuel (addr + r) len copied = (copied + min len (good - r), if len ≤ good - r then 0 else -1) := by
  induction fuel generalizing r len copied with
  | zero =>
    have hzero : len = 0 := by omega
    subst hzero
    rw [copyinLoop_done, if_pos (Nat.zero_le _), Nat.zero_min, Nat.add_zero]
  | succ fuel ih =>
    rcases Nat.eq_zero_or_pos len with rfl | hpos
    · rw [copyinLoop_done, if_pos (Nat.zero_le _), Nat.zero_min, Nat.add_zero]
    have hpage : mapped user ((addr + r) / PGSIZE * PGSIZE) = mapped user (addr + r) :=
      mapped_congr (by simp only [PGSIZE]; omega)
    rw [copyinLoop]
    dsimp only
    rw [if_neg (by omega), hpage]
    rcases Nat.lt_or_eq_of_le hr with hlt | rfl
    · -- the page is mapped, so the next byte that is not lies past it
      rw [if_neg (by rw [h.mapped r hlt]; decide)]
      generalize hpiece : min (PGSIZE - (addr + r - (addr + r) / PGSIZE * PGSIZE)) len = piece
      have hin : r + piece ≤ good := by
        rcases lt_or_ge good (r + piece) with hbad | hok
        · have hsame : (addr + good) / PGSIZE = (addr + r) / PGSIZE := by
            simp only [PGSIZE] at hpiece ⊢
            omega
          have hstop := h.stops (by omega)
          rw [mapped_congr hsame, h.mapped r hlt] at hstop
          cases hstop
        · exact hok
      rcases eq_or_ne (len - piece) 0 with hlast | hmore
      · rw [hlast, copyinLoop_done, if_pos (by omega)]
        congr 1
        omega
      have hnext : (addr + r) / PGSIZE * PGSIZE + PGSIZE = addr + (r + piece) := by
        simp only [PGSIZE] at hpiece hmore ⊢
        omega
      have hsome : 0 < piece := by
        simp only [PGSIZE] at hpiece
        omega
      rw [hnext, ih (copied + piece) hin (by omega) (by omega)]
      congr 1
      · omega
      · exact if_congr (by omega) rfl rfl
    · rw [h.stops (by omega), if_pos rfl, Nat.sub_self, Nat.min_zero, Nat.add_zero, if_neg (by omega)]

theorem copyin_spec {user : pagetable} {addr n good : Nat} (h : Good user addr n good) {r len : Nat} (hr : r ≤ good)
    (hlen : r + len ≤ n) :
    copyin user (addr + r) len = (min len (good - r), if len ≤ good - r then 0 else -1) := by
  rw [copyin, copyinLoop_spec h len 0 hr hlen le_rfl, Nat.zero_add]

/-! ## The pages of a write -/

/-- The byte at `p` of the page that a turn at `pos` finds or makes. -/
def made (ip : inode) (beyond : Nat → UInt8) (m : address_space) (pos rest p : Nat) : UInt8 :=
  if (m.page_tree (p / PGSIZE)).isSome then view ip.disk m p
  else if WRITE_FULL_PAGE rest || OUT_FILE (pos % PGSIZE) (ip.i_size % PGSIZE) then 0
  else if p < ip.i_size then ip.disk p else beyond p

theorem made_inside {ip : inode} {p : Nat} (hp : p < ip.i_size) (beyond : Nat → UInt8) (m : address_space) (pos rest : Nat) :
    made ip beyond m pos rest p =
      if m.page_tree (p / PGSIZE) = none ∧ (WRITE_FULL_PAGE rest || OUT_FILE (pos % PGSIZE) (ip.i_size % PGSIZE)) = true then 0
      else view ip.disk m p := by
  rw [made]
  rcases hm : m.page_tree (p / PGSIZE) with _ | page
  · rw [if_neg (by decide), if_pos hp, view_missed hm]
    exact if_congr ⟨fun h => ⟨rfl, h⟩, And.right⟩ rfl rfl
  · rw [if_pos (by rfl), if_neg (fun h => by cases h.1)]

theorem writeGetPage_made (ip : inode) (beyond : Nat → UInt8) (m : address_space) (pos rest : Nat) :
    ∃ page, writeGetPage ip beyond m (pos / PGSIZE) (pos % PGSIZE) rest =
        { m with page_tree := Function.update m.page_tree (pos / PGSIZE) (some page) } ∧
      ∀ p, p / PGSIZE = pos / PGSIZE → page (p % PGSIZE) = made ip beyond m pos rest p := by
  unfold writeGetPage
  rcases hm : m.page_tree (pos / PGSIZE) with _ | page
  · dsimp only
    rcases hzero : (WRITE_FULL_PAGE rest || OUT_FILE (pos % PGSIZE) (ip.i_size % PGSIZE)) with _ | _
    · rw [if_neg Bool.false_ne_true, readpages_one beyond true hm]
      refine ⟨_, rfl, fun p hpage => ?_⟩
      have hmade : made ip beyond m pos rest p = if p < ip.i_size then ip.disk p else beyond p := by
        rw [made, hpage, hm, hzero, if_neg (by decide), if_neg Bool.false_ne_true]
      rw [hmade, if_pos rfl, diskPage, ← hpage, page_pos]
    · rw [if_pos rfl, readpages_one beyond false hm]
      refine ⟨_, rfl, fun p hpage => ?_⟩
      have hmade : made ip beyond m pos rest p = 0 := by
        rw [made, hpage, hm, hzero, if_neg (by decide), if_pos rfl]
      rw [hmade, if_neg Bool.false_ne_true]
  · refine ⟨page, ?_, fun p hpage => ?_⟩
    · show m = { m with page_tree := Function.update m.page_tree (pos / PGSIZE) (some page) }
      rw [← hm, Function.update_eq_self]
    · have hcached : m.page_tree (p / PGSIZE) = some page := by rw [hpage]; exact hm
      rw [made, hcached, if_pos (by rfl), view_cached hcached]

/-- One turn: its page gets `copied` bytes, the others stay. -/
structure Turned (ip : inode) (beyond : Nat → UInt8) (m m' : address_space) (pos rest copied : Nat) (data : Nat → UInt8) : Prop where
  others : ∀ i, i ≠ pos / PGSIZE → m'.page_tree i = m.page_tree i
  page : ∀ p, p / PGSIZE = pos / PGSIZE →
    view ip.disk m' p = if pos ≤ p ∧ p < pos + copied then data (p - pos) else made ip beyond m pos rest p

theorem turn_spec (ip : inode) (beyond : Nat → UInt8) (m : address_space) (pos rest copied : Nat) (data : Nat → UInt8) :
    Turned ip beyond m (PageCache.copyin (writeGetPage ip beyond m (pos / PGSIZE) (pos % PGSIZE) rest) (pos / PGSIZE) (pos % PGSIZE)
      copied data) pos rest copied data := by
  obtain ⟨page, hget, hmade⟩ := writeGetPage_made ip beyond m pos rest
  rw [hget]
  have htree := copyin_page_tree m (pos / PGSIZE) page (pos % PGSIZE) copied data
  refine ⟨fun i hi => by rw [htree, if_neg hi], fun p hpage => ?_⟩
  rw [view_cached (by rw [htree, if_pos hpage])]
  have hiff : (pos % PGSIZE ≤ p % PGSIZE ∧ p % PGSIZE < pos % PGSIZE + copied) ↔ (pos ≤ p ∧ p < pos + copied) := by
    simp only [PGSIZE] at hpage ⊢
    omega
  have hdiff : p % PGSIZE - pos % PGSIZE = p - pos := by
    simp only [PGSIZE] at hpage ⊢
    omega
  rw [hdiff, hmade p hpage]
  exact if_congr hiff rfl rfl

/-! ## A write that fails -/

section

variable {ip : inode} {user : pagetable} {addr off n good : Nat}

/-- The byte at `p` once the write has failed, where `m` is the cache when the loop is at `pos`. -/
def after (ip : inode) (user : pagetable) (addr off n good : Nat) (m : address_space) (pos p : Nat) : UInt8 :=
  if pos ≤ p ∧ p < off + good then byteAt user (addr + (p - off))
  else if m.page_tree (p / PGSIZE) = none ∧ pos / PGSIZE ≤ p / PGSIZE ∧ p / PGSIZE ≤ (off + good) / PGSIZE ∧
      zeroed ip off n (p / PGSIZE) = true then 0
  else view ip.disk m p

/-- On the page of the loop, `after` is what the turn makes of it. -/
theorem after_here (beyond : Nat → UInt8) {m : address_space} {pos p : Nat} (hstart : pos = off ∨ (off ≤ pos ∧ PGSIZE ∣ pos))
    (hpos : pos ≤ off + good) (hp : p < ip.i_size) (hpage : p / PGSIZE = pos / PGSIZE) :
    after ip user addr off n good m pos p =
      if pos ≤ p ∧ p < off + good then byteAt user (addr + (p - off)) else made ip beyond m pos (off + n - pos) p := by
  have hmax : max off (p / PGSIZE * PGSIZE) = pos := by
    rw [hpage]
    simp only [PGSIZE] at hstart ⊢
    omega
  have hlast : p / PGSIZE ≤ (off + good) / PGSIZE := by
    rw [hpage]
    exact Nat.div_le_div_right hpos
  rw [made_inside hp]
  unfold after zeroed
  dsimp only
  rw [hmax]
  refine if_congr Iff.rfl rfl (if_congr ?_ rfl rfl)
  constructor
  · rintro ⟨hnone, -, -, hzero⟩
    exact ⟨hnone, hzero⟩
  · rintro ⟨hnone, hzero⟩
    exact ⟨hnone, by rw [hpage], hlast, hzero⟩

theorem after_elsewhere {m m' : address_space} {pos pos' p : Nat} (hother : m'.page_tree (p / PGSIZE) = m.page_tree (p / PGSIZE))
    (hrange : (pos' ≤ p ∧ p < off + good) ↔ (pos ≤ p ∧ p < off + good))
    (hpages : pos' / PGSIZE ≤ p / PGSIZE ↔ pos / PGSIZE ≤ p / PGSIZE) :
    after ip user addr off n good m' pos' p = after ip user addr off n good m pos p := by
  unfold after
  rw [hother, view_congr hother]
  refine if_congr hrange rfl (if_congr ?_ rfl rfl)
  rw [hpages]

/-- The whole loop, for a buffer of which `good` bytes can be read. -/
theorem writeLoop_after (ip : inode) (beyond : Nat → UInt8) (hgood : Good user addr n good) (fuel : Nat) (m : address_space)
    {retval : Nat} (hret : retval ≤ good) (hlt : retval < n) (hfuel : n - retval ≤ fuel) (hstart : retval = 0 ∨ PGSIZE ∣ off + retval) :
    ∃ m', writeLoop ip beyond user addr n fuel m (off + retval) retval = .ok (m', if good < n then -1 else n) ∧
      (∀ p, p < ip.i_size → view ip.disk m' p = after ip user addr off n good m (off + retval) p) ∧
      (∀ p, off + retval ≤ p → p < off + good → view ip.disk m' p = byteAt user (addr + (p - off))) ∧
      ∀ i, i < (off + retval) / PGSIZE → m'.page_tree i = m.page_tree i := by
  induction fuel generalizing m retval with
  | zero => omega
  | succ fuel ih =>
    rw [writeLoop]
    dsimp only
    generalize hlen : min (n - retval) (PGSIZE - (off + retval) % PGSIZE) = len
    have hmod := Nat.mod_lt (off + retval) (show 0 < PGSIZE by decide)
    rw [copyin_spec hgood hret (by omega)]
    dsimp only
    have hrest : off + n - (off + retval) = n - retval := by omega
    have hle := hgood.le
    have hturn := turn_spec ip beyond m (off + retval) (n - retval) (min len (good - retval))
      fun k => byteAt user (addr + retval + k)
    generalize PageCache.copyin (writeGetPage ip beyond m ((off + retval) / PGSIZE) ((off + retval) % PGSIZE) (n - retval))
      ((off + retval) / PGSIZE) ((off + retval) % PGSIZE) (min len (good - retval))
      (fun k => byteAt user (addr + retval + k)) = m₁ at hturn ⊢
    have hstart' : off + retval = off ∨ (off ≤ off + retval ∧ PGSIZE ∣ off + retval) := by
      rcases hstart with rfl | hdvd
      · exact .inl rfl
      · exact .inr ⟨by omega, hdvd⟩
    -- the page of this turn
    have hcopied : ∀ p, p / PGSIZE = (off + retval) / PGSIZE → off + retval ≤ p → p < off + good →
        view ip.disk m₁ p = byteAt user (addr + (p - off)) := by
      intro p hpage hlo hhi
      have hin : off + retval ≤ p ∧ p < off + retval + min len (good - retval) := by
        simp only [PGSIZE] at hlen hpage hmod
        omega
      rw [hturn.page p hpage, if_pos hin]
      congr 1
      omega
    have hhere : ∀ p, p < ip.i_size → p / PGSIZE = (off + retval) / PGSIZE →
        view ip.disk m₁ p = after ip user addr off n good m (off + retval) p := by
      intro p hp hpage
      rw [after_here beyond hstart' (by omega) hp hpage, hrest]
      rcases em (off + retval ≤ p ∧ p < off + good) with hin | hout
      · rw [if_pos hin, hcopied p hpage hin.1 hin.2]
      · rw [hturn.page p hpage, if_neg fun h => hout ⟨h.1, by omega⟩, if_neg hout]
    rcases lt_or_ge (good - retval) len with hstop | hmore
    · -- the copy fails in this piece
      rw [if_neg hstop.not_ge, if_pos rfl, if_pos (by omega)]
      refine ⟨_, rfl, fun p hp => ?_, fun p hlo hhi => ?_, fun i hi => hturn.others i hi.ne⟩
      · rcases eq_or_ne (p / PGSIZE) ((off + retval) / PGSIZE) with hpage | hpage
        · exact hhere p hp hpage
        have hother := hturn.others _ hpage
        rw [after, if_neg (fun h => hpage ?_), if_neg (fun h => hpage ?_)]
        · exact view_congr hother
        · have hle := h.2.2.1
          have hge := h.2.1
          simp only [PGSIZE] at hlen hle hge ⊢
          omega
        · simp only [PGSIZE] at hlen ⊢
          omega
      · refine hcopied p ?_ hlo hhi
        simp only [PGSIZE] at hlen ⊢
        omega
    · rw [if_pos hmore, if_neg (by decide)]
      rcases eq_or_ne (retval + len) n with hdone | hgo
      · -- the piece was the last one
        obtain rfl : good = n := by omega
        rw [if_pos hdone, if_neg (Nat.lt_irrefl good)]
        refine ⟨_, rfl, fun p hp => ?_, fun p hlo hhi => ?_, fun i hi => hturn.others i hi.ne⟩
        · rcases eq_or_ne (p / PGSIZE) ((off + retval) / PGSIZE) with hpage | hpage
          · exact hhere p hp hpage
          have hother := hturn.others _ hpage
          rw [after, if_neg (fun h => hpage ?_), if_neg ?_]
          · exact view_congr hother
          · -- the page behind the last byte is not touched
            rintro ⟨-, hge, hle, hzero⟩
            have hbehind : off + good - max off (p / PGSIZE * PGSIZE) = 0 ∧ max off (p / PGSIZE * PGSIZE) % PGSIZE = 0 := by
              simp only [PGSIZE] at hlen hmod hpage hle hge ⊢
              omega
            unfold zeroed at hzero
            dsimp only at hzero
            rw [hbehind.1, hbehind.2] at hzero
            simp [WRITE_FULL_PAGE, OUT_FILE, PGSIZE] at hzero
          · simp only [PGSIZE] at hlen ⊢
            omega
        · refine hcopied p ?_ hlo hhi
          simp only [PGSIZE] at hlen ⊢
          omega
      · -- the piece is copied, and the loop goes on at the next page
        rw [if_neg hgo, Nat.add_assoc]
        have hnext : PGSIZE ∣ off + (retval + len) := by
          simp only [PGSIZE] at hlen hmod ⊢
          omega
        obtain ⟨m', hrun, hview, hnew, hbelow⟩ := ih m₁ (show retval + len ≤ good by omega) (by omega)
          (by simp only [PGSIZE] at hlen hmod; omega) (.inr hnext)
        have hpages : (off + retval) / PGSIZE < (off + (retval + len)) / PGSIZE := by
          simp only [PGSIZE] at hlen hmod ⊢
          omega
        refine ⟨m', hrun, fun p hp => ?_, fun p hlo hhi => ?_, fun i hi => ?_⟩
        · rw [hview p hp]
          rcases eq_or_ne (p / PGSIZE) ((off + retval) / PGSIZE) with hpage | hpage
          · rw [← hhere p hp hpage, after, if_neg, if_neg]
            · rintro ⟨-, hle, -⟩
              simp only [PGSIZE] at hlen hmod hpage hle
              omega
            · simp only [PGSIZE] at hlen hmod hpage ⊢
              omega
          · refine after_elsewhere (hturn.others _ hpage) ?_ ?_
            · simp only [PGSIZE] at hlen hmod hpage ⊢
              omega
            · simp only [PGSIZE] at hlen hmod hpage ⊢
              omega
        · rcases lt_or_ge p (off + (retval + len)) with hin | hlater
          · have hpage : p / PGSIZE = (off + retval) / PGSIZE := by
              simp only [PGSIZE] at hlen hmod ⊢
              omega
            rw [view_congr (hbelow _ (by omega))]
            exact hcopied p hpage hlo hhi
          · exact hnew p hlater hhi
        · rw [hbelow i (by omega)]
          exact hturn.others i hi.ne

theorem writeLoop_fails (ip : inode) (beyond : Nat → UInt8) (hgood : Good user addr n good) (hfail : good < n) (fuel : Nat) (m : address_space)
    {retval : Nat} (hret : retval ≤ good) (hfuel : n - retval ≤ fuel) (hstart : retval = 0 ∨ PGSIZE ∣ off + retval) :
    ∃ m', writeLoop ip beyond user addr n fuel m (off + retval) retval = .ok (m', -1) ∧
      ∀ p, p < ip.i_size → view ip.disk m' p = after ip user addr off n good m (off + retval) p := by
  obtain ⟨m', hrun, hview, -⟩ := writeLoop_after ip beyond hgood fuel m hret (hret.trans_lt hfail) hfuel hstart
  rw [if_pos hfail] at hrun
  exact ⟨m', hrun, hview⟩

theorem fat32_inode_write_fails (ip : inode) (beyond : Nat → UInt8) (hgood : Good user addr n good) (hfail : good < n) (hwrap : off + n < 2 ^ 32) :
    ∃ ip', fat32_inode_write ip beyond user addr off n = .ok (ip', -1) ∧ ip'.i_size = ip.i_size ∧
      ∀ p, p < ip.i_size → view ip'.disk (mappingOf ip') p = after ip user addr off n good (mappingOf ip) off p := by
  obtain ⟨m', hrun, hview⟩ := @writeLoop_fails user addr off n good ip beyond hgood hfail n (mappingOf ip) 0 (Nat.zero_le _)
    (Nat.sub_le ..) (.inl rfl)
  refine ⟨{ ip with i_mapping := some m' }, ?_, rfl, hview⟩
  rw [Nat.add_zero] at hrun
  unfold fat32_inode_write do_generic_file_write
  rw [if_neg (by omega), if_neg (by omega), hrun]
  rfl

/-! ## A write that gets through -/

/-- With the whole buffer mapped the write is the one of `PageCache`. -/
theorem writeLoop_completes (ip : inode) (beyond : Nat → UInt8) (hgood : Good user addr n n) (fuel : Nat) (m : address_space) {retval : Nat}
    (hlt : retval < n) (hfuel : n - retval ≤ fuel) :
    ∃ m', PageCache.writeLoop ip beyond (fun k => byteAt user (addr + k)) n fuel m (off + retval) retval = .ok m' ∧
      writeLoop ip beyond user addr n fuel m (off + retval) retval = .ok (m', n) := by
  induction fuel generalizing m retval with
  | zero => omega
  | succ fuel ih =>
    rw [PageCache.writeLoop, writeLoop]
    dsimp only
    generalize hlen : min (n - retval) (PGSIZE - (off + retval) % PGSIZE) = len
    have hmod := Nat.mod_lt (off + retval) (show 0 < PGSIZE by decide)
    rw [copyin_spec hgood hlt.le (by omega), Nat.min_eq_left (by omega)]
    dsimp only
    rw [if_pos (show len ≤ n - retval by omega), if_neg (show ¬ (0 : Int) = -1 by decide)]
    simp only [Nat.add_assoc]
    rcases eq_or_ne (retval + len) n with hdone | hmore
    · rw [if_pos hdone, if_pos hdone]
      exact ⟨_, rfl, rfl⟩
    · rw [if_neg hmore, if_neg hmore]
      exact ih _ (by omega) (by omega)

theorem fat32_inode_write_completes (ip : inode) (beyond : Nat → UInt8) (hgood : Good user addr n n) (hpos : 0 < n) (hn : n < 2 ^ 31)
    (hwrap : off + n < 2 ^ 32) :
    ∃ m' ip', PageCache.writeLoop ip beyond (fun k => byteAt user (addr + k)) n n (mappingOf ip) off 0 = .ok m' ∧
      ip' = { ip with i_mapping := some m', dirty_list := true, i_size := if off + n > ip.i_size then off + n else ip.i_size } ∧
      PageCache.fat32_inode_write ip beyond off n (fun k => byteAt user (addr + k)) = .ok (ip', n) ∧
      fat32_inode_write ip beyond user addr off n = .ok (ip', n) := by
  obtain ⟨m', hold, hnew⟩ := @writeLoop_completes user addr off n ip beyond hgood n (mappingOf ip) 0 hpos (Nat.sub_le ..)
  rw [Nat.add_zero] at hold hnew
  have hcount : int32 n = n := int32_of_range (by simp only [INT_MIN]; omega) (by simp only [INT_MAX]; omega)
  have hsize := size_of_count hwrap
  rw [hcount] at hsize
  have hfits : ¬ (off + n) % 2 ^ 32 < off := by omega
  have hsome : ¬ n = 0 := by omega
  have hdone : ¬ (n : Int) = -1 := by omega
  refine ⟨m', _, hold, rfl, ?_, ?_⟩
  · unfold PageCache.fat32_inode_write
    rw [if_neg hfits, if_neg hsome, hold]
    dsimp only
    rw [hcount, if_neg hdone, hsize, Nat.mod_eq_of_lt hwrap]
  unfold fat32_inode_write do_generic_file_write
  rw [if_neg hfits, if_neg hsome, hnew]
  dsimp only
  rw [hcount, if_neg hdone, hsize, Nat.mod_eq_of_lt hwrap]

theorem fat32_filewrite_of {f : file} {beyond : Nat → UInt8} {n r : Int} {ip' : inode} (hw : f.f_writeable = true) (hn : 0 < n)
    (hr : r = n ∨ r = -1) (hrun : fat32_inode_write f.f_inode beyond user addr f.off n.toNat = .ok (ip', r)) :
    fat32_filewrite f beyond user addr n =
      .ok ({ f with f_inode := ip', f_pos := if r > 0 then f.f_pos + r else f.f_pos }, r) := by
  unfold fat32_filewrite
  rw [if_neg (by rw [hw]; decide), filewriteLoop, if_pos hn]
  dsimp only
  rw [Int.sub_zero, Int.toNat_zero, Nat.add_zero, hrun]
  dsimp only
  rcases hr with rfl | rfl
  · obtain ⟨k, hk⟩ : ∃ k, r.toNat = k + 1 := ⟨r.toNat - 1, by omega⟩
    rw [if_neg (not_not_intro rfl), hk, filewriteLoop, Int.zero_add, if_neg (Int.lt_irrefl r)]
    dsimp only
    rw [if_pos rfl]
  · rw [if_pos (show (-1 : Int) ≠ n by omega)]
    dsimp only
    rw [if_neg (show ¬ 0 = n by omega)]

end

/-! ## What a read returns -/

theorem read_one {ip : inode} (hsize : ip.i_size < 2 ^ 32) {p : Nat} (hp : p < ip.i_size) :
    ∃ ip', fat32_inode_read ip (fun _ => 1) (fun _ => 0) p 1 = .ok (ip', [view ip.disk (mappingOf ip) p]) := by
  unfold fat32_inode_read
  rw [if_neg (by omega)]
  dsimp only
  rw [if_neg (show ¬ (p + 1) % 2 ^ 32 > ip.i_size by omega), if_neg (by decide)]
  rcases @readLoop_turn ip p 1 (fun _ => 1) (fun _ => 0) (view ip.disk (mappingOf ip)) (mappingOf ip) [] (p / PGSIZE) 0 rfl hp
      (by decide) rfl (fun q _ => rfl) with ⟨-, hsane, -⟩ | ⟨-, -, hturn⟩ | ⟨-, -, m', -, out', -, hturn, -, hlen, hcopied⟩
  · -- one page of memory is enough for one byte
    have hfirst : p / PGSIZE * PGSIZE - p = 0 := by
      simp only [PGSIZE]
      omega
    have hused := (sane_eq_zero hsize (show 1 < 2 ^ 32 by decide) (fun _ => Nat.one_pos)
      (show p / PGSIZE * PGSIZE - p < min 1 (ip.i_size - p) by omega)).mp (by rw [hfirst]; exact hsane)
    have hle := hused.1
    omega
  · exact absurd hturn (readLoop_returns (fun _ => by decide) _ _ _ _ _ _ _)
  · have hone : out'.length = 1 := by
      rw [hlen]
      simp only [PGSIZE]
      omega
    have hbyte : out' = [view ip.disk (mappingOf ip) p] := by
      unfold Copied at hcopied
      rw [hcopied, hone]
      rfl
    rw [if_pos hone, hbyte] at hturn
    have hturn' : readLoop ip (fun _ => 1) (fun _ => 0) 1 1 (mappingOf ip) p [] = .ok (m', [view ip.disk (mappingOf ip) p]) := hturn
    rw [hturn']
    exact ⟨_, rfl⟩

theorem returns_iff {ip : inode} (hsize : ip.i_size < 2 ^ 32) (p : Nat) (b : UInt8) :
    Returns ip p b ↔ p < ip.i_size ∧ view ip.disk (mappingOf ip) p = b := by
  constructor
  · rintro ⟨budget, beyond, off, n, ip', out, k, hn, hread, rfl, hk⟩
    have hres := readResult_of_ok hsize hn hread
    obtain ⟨hlt, hget⟩ := List.getElem?_eq_some_iff.mp hk
    obtain ⟨hin, hbyte⟩ := hres.byte hlt
    exact ⟨hin, hbyte.symm.trans hget⟩
  · rintro ⟨hp, rfl⟩
    obtain ⟨ip', hread⟩ := read_one hsize hp
    exact ⟨_, _, p, 1, ip', _, 0, by decide, hread, rfl, rfl⟩

theorem returns_same {ip ip' : inode} (hsize : ip.i_size < 2 ^ 32) (heq : ip'.i_size = ip.i_size) :
    (∀ p b, Returns ip' p b ↔ Returns ip p b) ↔
      ∀ p, p < ip.i_size → view ip'.disk (mappingOf ip') p = view ip.disk (mappingOf ip) p := by
  have hsize' : ip'.i_size < 2 ^ 32 := by rw [heq]; exact hsize
  constructor
  · intro h p hp
    have hret := (h p _).mpr ((returns_iff hsize p _).mpr ⟨hp, rfl⟩)
    exact ((returns_iff hsize' p _).mp hret).2
  · intro h p b
    rw [returns_iff hsize, returns_iff hsize', heq]
    exact and_congr_right fun hp => by rw [h p hp]

/-! ## The theorem -/

theorem after_harmless (ip : inode) (user : pagetable) (addr off n : Nat) :
    (∀ p, p < ip.i_size → after ip user addr off n (readable user addr n) (mappingOf ip) off p = view ip.disk (mappingOf ip) p) ↔
      Harmless ip user addr off n := by
  refine forall_congr' fun p => imp_congr_right fun _ => ?_
  rw [after]
  rcases em (off ≤ p ∧ p < off + readable user addr n) with hin | hout
  · rw [if_pos hin]
    exact ⟨fun h => ⟨fun _ => h, fun h' => absurd hin h'⟩, fun h => h.1 hin⟩
  rw [if_neg hout]
  constructor
  · intro h
    refine ⟨fun h' => absurd h' hout, fun _ hnone hfirst hlast hzero => ?_⟩
    rw [if_pos ⟨hnone, hfirst, hlast, hzero⟩, view_missed hnone] at h
    exact h.symm
  rintro ⟨-, h⟩
  rcases em ((mappingOf ip).page_tree (p / PGSIZE) = none ∧ off / PGSIZE ≤ p / PGSIZE ∧
      p / PGSIZE ≤ (off + readable user addr n) / PGSIZE ∧ zeroed ip off n (p / PGSIZE) = true) with hz | hz
  · rw [if_pos hz, view_missed hz.1]
    exact (h hout hz.1 hz.2.1 hz.2.2.1 hz.2.2.2).symm
  · rw [if_neg hz]

/-- Once the copy fails, everything depends on what is in the cache then. -/
theorem no_trace_fails {f : file} {user : pagetable} {addr : Nat} {n : Int} (beyond : Nat → UInt8) (hsize : f.f_inode.i_size < 2 ^ 32)
    (hw : f.f_writeable = true) (hpos : 0 < n) (hfits : f.off + n.toNat < 2 ^ 32) (hfail : readable user addr n.toNat < n.toNat) :
    NoTrace f beyond user addr n ↔ Harmless f.f_inode user addr f.off n.toNat := by
  obtain ⟨ip', hrun, hkept, hview⟩ :=
    fat32_inode_write_fails f.f_inode beyond (readable_good user addr n.toNat) hfail hfits
  have hlaw : NoTrace f beyond user addr n ↔ ∀ p b, Returns ip' p b ↔ Returns f.f_inode p b := by
    unfold NoTrace
    rw [fat32_filewrite_of hw hpos (.inr rfl) hrun]
    constructor
    · rintro ⟨f', r, heq, h⟩
      cases heq
      exact (h (by decide)).2.2
    · exact fun h => ⟨_, _, rfl, fun _ => ⟨hkept, rfl, h⟩⟩
  rw [hlaw, returns_same hsize hkept, ← after_harmless]
  refine forall_congr' fun p => imp_congr_right fun hp => ?_
  rw [hview p hp]

/-- **A write that fails leaves no trace** exactly when it gets no further than its first checks, or what it puts into the
cache is what the file holds there. -/
theorem no_trace_iff {f : file} {beyond : Nat → UInt8} {user : pagetable} {addr : Nat} {n : Int} (hsize : f.f_inode.i_size < 2 ^ 32)
    (hn : n < 2 ^ 31) :
    NoTrace f beyond user addr n ↔
      f.f_writeable = false ∨ n ≤ 0 ∨ 2 ^ 32 ≤ f.off + n.toNat ∨ (∀ k, k < n.toNat → mapped user (addr + k) = true) ∨
        Harmless f.f_inode user addr f.off n.toNat := by
  have hsame : ∀ r, fat32_filewrite f beyond user addr n = .ok (f, r) → NoTrace f beyond user addr n :=
    fun r h => ⟨f, r, h, fun _ => ⟨rfl, rfl, fun _ _ => Iff.rfl⟩⟩
  have hoff : f.off < 2 ^ 32 := by
    unfold file.off
    omega
  rcases hw : f.f_writeable with _ | _
  · refine iff_of_true (hsame (-1) ?_) (.inl rfl)
    rw [fat32_filewrite, if_pos hw]
  rcases lt_or_ge 0 n with hpos | hneg
  swap
  · refine iff_of_true (hsame (if 0 = n then n else -1) ?_) (.inr (.inl hneg))
    rw [fat32_filewrite, if_neg (by rw [hw]; decide), filewriteLoop, if_neg (by omega)]
  rcases lt_or_ge (f.off + n.toNat) (2 ^ 32) with hfits | hwrap
  swap
  · refine iff_of_true (hsame (-1) ?_) (.inr (.inr (.inl hwrap)))
    have hrun : fat32_inode_write f.f_inode beyond user addr f.off n.toNat = .ok (f.f_inode, -1) := by
      rw [fat32_inode_write, if_pos (by omega)]
    rw [fat32_filewrite_of hw hpos (.inr rfl) hrun]
    rfl
  have hgood := readable_good user addr n.toNat
  rcases Nat.lt_or_eq_of_le hgood.le with hfail | hall
  · rw [no_trace_fails beyond hsize hw hpos hfits hfail]
    have hunmapped : ¬ ∀ k, k < n.toNat → mapped user (addr + k) = true := fun h =>
      absurd (h _ hfail) (Bool.eq_false_iff.mp (hgood.stops hfail))
    constructor
    · exact fun h => .inr (.inr (.inr (.inr h)))
    rintro (h | h | h | h | h)
    · cases h
    · omega
    · omega
    · exact absurd h hunmapped
    · exact h
  · have hmapped : ∀ k, k < n.toNat → mapped user (addr + k) = true := fun k hk => hgood.mapped k (by rw [hall]; exact hk)
    refine iff_of_true ?_ (.inr (.inr (.inr (.inl hmapped))))
    rw [hall] at hgood
    obtain ⟨-, ip', -, -, -, hrun⟩ := fat32_inode_write_completes f.f_inode beyond hgood (by omega) (by omega) hfits
    have hcount : ((n.toNat : Nat) : Int) = n := Int.toNat_of_nonneg (by omega)
    rw [hcount] at hrun
    exact ⟨_, n, fat32_filewrite_of hw hpos (.inl rfl) hrun, fun h => absurd h (by omega)⟩

/-- A file of two pages of 7s, open for writing at its start with nothing cached. -/
def two_pages : file := ⟨true, 0, opened (fun _ => 7) 8192⟩

/-- One page of 9s is mapped, and none after it. -/
def one_page : pagetable := Function.update (fun _ => none) 0 (some fun _ => 9)

/-- A buffer of one byte that is 7 already. -/
def same_byte : pagetable := Function.update (fun _ => none) 0 (some fun _ => 7)

theorem no_trace_same_byte : NoTrace two_pages (fun _ => 0) same_byte 4095 2 := by
  refine (no_trace_iff (by decide) (by decide)).mpr (.inr (.inr (.inr (.inr fun p _ => ⟨fun hin => ?_, fun _ _ _ hlast hzero => ?_⟩))))
  · have hp : p = 0 := by
      have hone : readable same_byte 4095 2 = 1 := by decide
      have hlt : p < 0 + readable same_byte 4095 2 := hin.2
      omega
    subst hp
    decide
  · -- a write of two bytes reads its page
    have hpage : p / PGSIZE = 0 := Nat.le_zero.mp hlast
    rw [hpage] at hzero
    exact absurd hzero (by decide)

/-- Two bytes are written from a buffer of which only the first is mapped. -/
theorem failed_write_seen : ¬ ∀ (f : file) (beyond : Nat → UInt8) (user : pagetable) (addr : Nat) (n : Int),
    f.f_inode.i_size < 2 ^ 32 → n < 2 ^ 31 → NoTrace f beyond user addr n := by
  intro hall
  have htrace := hall two_pages (fun _ => 0) one_page 4095 2 (by decide) (by decide)
  have hharm := (no_trace_fails (fun _ => 0) (by decide) rfl (by decide) (by decide) (by decide)).mp htrace
  exact absurd ((hharm 0 (by decide)).1 ⟨by decide, by decide⟩) (by decide)

end LostWakeup.Fs.FailedWrites
