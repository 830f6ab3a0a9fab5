/-
# LostWakeup.Fs.ZeroGaps — `filemap.c`, `sysfile.c`: what a file shows where nothing was written.

A write past the end of a file leaves a gap, and a truncating open a file that is written from the start again.  Nothing
clears these bytes.  A ghost of the state says which positions have been written since the file was last shorter;
`zero_gaps_iff` says when the other ones read as zero.  The disk is what each position's cluster holds when it comes into
the file.
-/
import LostWakeup.Fs.FailedWrites

namespace LostWakeup.Fs.ZeroGaps

open Library Fs.PageCache Fs.FailedWrites

/-! ## Histories of a file -/

structure State where
  ip : inode
  /-- Read by no step: the positions written since the file was last shorter. -/
  written : Nat → Bool

/-- The size and the position that `assist_openat` leaves for a regular file, by `O_TRUNC` and `O_APPEND`. -/
def assist_openat (ip : inode) (trunc append : Bool) : inode × Nat :=
  if trunc then ({ ip with i_size := 0 }, 0)
  else if append then (ip, ip.i_size + 1)
  else (ip, 0)

/-- What a page read delivers past the end of the file: the cluster's bytes, or none beyond the chain. -/
def Delivers (ip : inode) (beyond : Nat → UInt8) : Prop := ∀ p, beyond p = ip.disk p ∨ beyond p = 0

inductive Event
  | fat32_inode_read (budget : Nat → Nat) (beyond : Nat → UInt8) (off n : Nat)
  /-- From user memory, which need not be mapped. -/
  | fat32_inode_write (beyond : Nat → UInt8) (user : pagetable) (src off n : Nat)
  | assist_openat (trunc append : Bool)
  | fat32_i_mapping_writeback
  | alloc_fail

def mark (written : Nat → Bool) (off n p : Nat) : Bool := written p || (decide (off ≤ p) && decide (p < off + n))

/-- The counts are those of `fat32_filewrite`, where they are positive as an `int`. -/
def Step (s : State) (e : Event) (s' : State) : Prop :=
  match e with
  | .fat32_inode_read budget beyond off n =>
    off < 2 ^ 32 ∧ n < 2 ^ 32 ∧ Delivers s.ip beyond ∧
      ∃ ip' out, fat32_inode_read s.ip budget beyond off n = .ok (ip', out) ∧ s' = ⟨ip', s.written⟩
  | .fat32_inode_write beyond user src off n =>
    off < 2 ^ 32 ∧ n < 2 ^ 31 ∧ Delivers s.ip beyond ∧
      ∃ ip' r, FailedWrites.fat32_inode_write s.ip beyond user src off n = .ok (ip', r) ∧
        s' = ⟨ip', if r = -1 then s.written else mark s.written off n⟩
  | .assist_openat trunc append =>
    s' = ⟨(ZeroGaps.assist_openat s.ip trunc append).1, if trunc then fun _ => false else s.written⟩
  | .fat32_i_mapping_writeback => s' = ⟨PageCache.fat32_i_mapping_writeback s.ip, s.written⟩
  | .alloc_fail => s' = ⟨PageCache.alloc_fail s.ip, s.written⟩

/-- A file of `size` bytes that has just been opened, all of which somebody has written. -/
def start (disk : Nat → UInt8) (size : Nat) : State := ⟨opened disk size, fun p => decide (p < size)⟩

/-! ## What is wanted, and when it holds -/

/-- Whatever a read returns at a position that has not been written is zero. -/
def Zeros (s : State) : Prop := ∀ p b, s.written p = false → Returns s.ip p b → b = 0

/-- The byte that a write of `n` bytes at `off` leaves at a position before it. -/
def filler (ip : inode) (beyond : Nat → UInt8) (off n p : Nat) : UInt8 :=
  if p / PGSIZE = off / PGSIZE then made ip beyond (mappingOf ip) off n p else view ip.disk (mappingOf ip) p

/-- The condition on a write that is carried out: the gap before it gets zeros.  If it fails, what it has copied by then
must not show. -/
def WriteOk (s : State) (beyond : Nat → UInt8) (user : pagetable) (src off n : Nat) : Prop :=
  if readable user src n = n then ∀ p, s.ip.i_size ≤ p → p < off → filler s.ip beyond off n p = 0
  else ∀ p, p < s.ip.i_size → s.written p = false → off ≤ p → p < off + readable user src n → byteAt user (src + (p - off)) = 0

/-- The condition on the other steps: pages are thrown away only where the disk has zeros too. -/
def Ok (s : State) : Event → Prop
  | .fat32_inode_write beyond user src off n => off + n < 2 ^ 32 → WriteOk s beyond user src off n
  | .alloc_fail => s.ip.dirty_list = false → ∀ p, p < s.ip.i_size → s.written p = false → s.ip.disk p = 0
  | _ => True

/-! ## The bytes after each operation -/

theorem zeros_iff {s : State} (hsize : s.ip.i_size < 2 ^ 32) :
    Zeros s ↔ ∀ p, p < s.ip.i_size → s.written p = false → view s.ip.disk (mappingOf s.ip) p = 0 := by
  constructor
  · exact fun h p hp hw => h p _ hw ((returns_iff hsize p _).mpr ⟨hp, rfl⟩)
  · intro h p b hw hret
    obtain ⟨hp, hview⟩ := (returns_iff hsize p b).mp hret
    exact hview.symm.trans (h p hp hw)

theorem zeros_congr {s s' : State} (hsize : s.ip.i_size < 2 ^ 32) (heq : s'.ip.i_size = s.ip.i_size) (hwritten : s'.written = s.written)
    (hview : ∀ p, p < s.ip.i_size → view s'.ip.disk (mappingOf s'.ip) p = view s.ip.disk (mappingOf s.ip) p) (h : Zeros s) : Zeros s' := by
  refine (zeros_iff (by rw [heq]; exact hsize)).mpr fun p hp hw => ?_
  rw [heq] at hp
  rw [hwritten] at hw
  rw [hview p hp]
  exact (zeros_iff hsize).mp h p hp hw

theorem turned_outside {ip : inode} {beyond : Nat → UInt8} {m m' : address_space} {pos rest len p : Nat} {data : Nat → UInt8}
    (h : Turned ip beyond m m' pos rest len data) (hp : p < ip.i_size) (hout : ¬ (pos ≤ p ∧ p < pos + len)) :
    view ip.disk m' p = view ip.disk m p ∨ view ip.disk m' p = 0 := by
  rcases eq_or_ne (p / PGSIZE) (pos / PGSIZE) with hpage | hpage
  · rw [h.page p hpage, if_neg hout, made_inside hp]
    split
    · exact .inr rfl
    · exact .inl rfl
  · exact .inl (view_congr (h.others _ hpage))

/-- What a write that gets through leaves outside the bytes it was given. -/
structure Left (ip : inode) (beyond : Nat → UInt8) (off n : Nat) (m m' : address_space) (pos : Nat) : Prop where
  inside : ∀ p, p < ip.i_size → ¬ (pos ≤ p ∧ p < off + n) → view ip.disk m' p = view ip.disk m p ∨ view ip.disk m' p = 0
  before : ∀ p, p < pos → p / PGSIZE ≠ pos / PGSIZE → view ip.disk m' p = view ip.disk m p
  page : ∀ p, p < pos → p / PGSIZE = pos / PGSIZE → view ip.disk m' p = made ip beyond m pos (off + n - pos) p

theorem writeLoop_left {ip : inode} {beyond src : Nat → UInt8} {off n : Nat} {m' : address_space} (fuel : Nat) (m : address_space)
    {retval : Nat} (hlt : retval < n) (hrun : PageCache.writeLoop ip beyond src n fuel m (off + retval) retval = .ok m') :
    Left ip beyond off n m m' (off + retval) := by
  induction fuel generalizing m retval with
  | zero => cases hrun
  | succ fuel ih =>
    rw [PageCache.writeLoop] at hrun
    have hmod := Nat.mod_lt (off + retval) (show 0 < PGSIZE by decide)
    have hrest : off + n - (off + retval) = n - retval := by omega
    generalize hlen : min (n - retval) (PGSIZE - (off + retval) % PGSIZE) = len at hrun
    have hturn := turn_spec ip beyond m (off + retval) (n - retval) len fun k => src (retval + k)
    generalize PageCache.copyin (writeGetPage ip beyond m ((off + retval) / PGSIZE) ((off + retval) % PGSIZE) (n - retval))
      ((off + retval) / PGSIZE) ((off + retval) % PGSIZE) len (fun k => src (retval + k)) = m₁ at hturn hrun
    have hbefore : ∀ p, p < off + retval → p / PGSIZE ≠ (off + retval) / PGSIZE → view ip.disk m₁ p = view ip.disk m p :=
      fun p _ hpage => view_congr (hturn.others _ hpage)
    have hpage : ∀ p, p < off + retval → p / PGSIZE = (off + retval) / PGSIZE →
        view ip.disk m₁ p = made ip beyond m (off + retval) (off + n - (off + retval)) p := by
      intro p hp hpage
      rw [hturn.page p hpage, if_neg (by omega), hrest]
    rcases eq_or_ne (retval + len) n with hdone | hmore
    · rw [if_pos hdone] at hrun
      cases hrun
      exact ⟨fun p hp hout => turned_outside hturn hp (by omega), hbefore, hpage⟩
    · -- the later turns start at page boundaries, so they do not come back to this page
      rw [if_neg hmore, Nat.add_assoc] at hrun
      have hleft := ih m₁ (by omega) hrun
      have hnext : ∀ p, p < off + retval → p / PGSIZE ≠ (off + (retval + len)) / PGSIZE := by
        intro p hp
        simp only [PGSIZE] at hlen hmod ⊢
        omega
      refine ⟨fun p hp hout => ?_, fun p hp hne => ?_, fun p hp heq => ?_⟩
      · rcases em (off + (retval + len) ≤ p ∧ p < off + n) with hin | hout'
        · exact absurd ⟨by omega, hin.2⟩ hout
        rcases hleft.inside p hp hout' with hsame | hzero
        · rw [hsame]
          exact turned_outside hturn hp (by omega)
        · exact .inr hzero
      · rw [hleft.before p (by omega) (hnext p hp)]
        exact hbefore p hp hne
      · rw [hleft.before p (by omega) (hnext p hp)]
        exact hpage p hp heq

/-! ## One step -/

/-- Nothing past the end has been written. -/
structure Inv (s : State) : Prop where
  size_lt : s.ip.i_size < 2 ^ 32
  unwritten : ∀ p, s.ip.i_size ≤ p → s.written p = false

theorem mark_eq_false {written : Nat → Bool} {off n p : Nat} :
    mark written off n p = false ↔ written p = false ∧ ¬ (off ≤ p ∧ p < off + n) := by
  simp [mark]

variable {s s' : State}

/-- A write that fails shows what it has copied, below the end of the file. -/
theorem write_fails_zeros {beyond : Nat → UInt8} {user : pagetable} {src off n : Nat} {ip' : inode} {r : Int} (hsize : s.ip.i_size < 2 ^ 32)
    (hfits : off + n < 2 ^ 32) (hfail : readable user src n < n) (hzeros : Zeros s)
    (hrun : FailedWrites.fat32_inode_write s.ip beyond user src off n = .ok (ip', r)) :
    r = -1 ∧ ip'.i_size = s.ip.i_size ∧
      (Zeros ⟨ip', s.written⟩ ↔ ∀ p, p < s.ip.i_size → s.written p = false → off ≤ p → p < off + readable user src n →
        byteAt user (src + (p - off)) = 0) := by
  obtain ⟨ip₁, hrun₁, hkept, hview⟩ := fat32_inode_write_fails s.ip beyond (readable_good user src n) hfail hfits
  rw [hrun] at hrun₁
  cases hrun₁
  refine ⟨rfl, hkept, ?_⟩
  have hold := (zeros_iff hsize).mp hzeros
  rw [zeros_iff (by dsimp only; rw [hkept]; exact hsize)]
  dsimp only
  rw [hkept]
  constructor
  · intro h p hp hw hlo hhi
    have hbyte := h p hp hw
    rw [hview p hp, after, if_pos ⟨hlo, hhi⟩] at hbyte
    exact hbyte
  intro h p hp hw
  rw [hview p hp, after]
  split
  · next hin => exact h p hp hw hin.1 hin.2
  · split
    · rfl
    · exact hold p hp hw

/-- A write that gets through shows its gap. -/
theorem write_completes_zeros {beyond : Nat → UInt8} {user : pagetable} {src off n : Nat} {ip' : inode} {r : Int}
    (hinv : Inv s) (hpos : 0 < n) (hn : n < 2 ^ 31) (hfits : off + n < 2 ^ 32) (hall : readable user src n = n)
    (hzeros : Zeros s) (hrun : FailedWrites.fat32_inode_write s.ip beyond user src off n = .ok (ip', r)) :
    r ≠ -1 ∧ ip'.i_size = (if off + n > s.ip.i_size then off + n else s.ip.i_size) ∧
      (Zeros ⟨ip', mark s.written off n⟩ ↔ ∀ p, s.ip.i_size ≤ p → p < off → filler s.ip beyond off n p = 0) := by
  have hgood := readable_good user src n
  rw [hall] at hgood
  obtain ⟨m', ip₁, hloop, hip, -, hrun₁⟩ := fat32_inode_write_completes s.ip beyond hgood hpos hn hfits
  rw [hrun] at hrun₁
  cases hrun₁
  have hleft : Left s.ip beyond off n (mappingOf s.ip) m' off := @writeLoop_left s.ip beyond _ off n m' n (mappingOf s.ip) 0 hpos hloop
  have hsize' : ip'.i_size = if off + n > s.ip.i_size then off + n else s.ip.i_size := by rw [hip]
  have hview' : ∀ p, view ip'.disk (mappingOf ip') p = view s.ip.disk m' p := by
    intro p
    rw [hip]
    rfl
  have hlt : ip'.i_size < 2 ^ 32 := by
    rw [hsize']
    split
    · exact hfits
    · exact hinv.size_lt
  -- the gap gets the page it shares with the write, and what was there before
  have hgap : ∀ p, p < off → view s.ip.disk m' p = filler s.ip beyond off n p := by
    intro p hp
    have hcount : off + n - off = n := by omega
    rw [filler]
    split
    · next hpage => rw [hleft.page p hp hpage, hcount]
    · next hpage => exact hleft.before p hp hpage
  refine ⟨by omega, hsize', ?_⟩
  rw [zeros_iff hlt]
  dsimp only
  constructor
  · intro h p hlo hhi
    have hnew : p < ip'.i_size := by
      rw [hsize']
      split <;> omega
    have hbyte := h p hnew (mark_eq_false.mpr ⟨hinv.unwritten p hlo, by omega⟩)
    rw [← hgap p hhi, ← hview' p]
    exact hbyte
  · intro h p hp hw
    obtain ⟨hunwritten, hout⟩ := mark_eq_false.mp hw
    rw [hview' p]
    rcases lt_or_ge p s.ip.i_size with hold | hpast
    · rcases hleft.inside p hold hout with hsame | hzero
      · rw [hsame]
        exact (zeros_iff hinv.size_lt).mp hzeros p hold hunwritten
      · exact hzero
    have hbefore : p < off := by
      rw [hsize'] at hp
      split at hp <;> omega
    rw [hgap p hbefore]
    exact h p hpast hbefore

theorem write_zeros {beyond : Nat → UInt8} {user : pagetable} {src off n : Nat} (hinv : Inv s) (hzeros : Zeros s)
    (hstep : Step s (.fat32_inode_write beyond user src off n) s') :
    Inv s' ∧ (Zeros s' ↔ Ok s (.fat32_inode_write beyond user src off n)) := by
  obtain ⟨hoff, hn, -, ip', r, hrun, rfl⟩ := hstep
  rcases lt_or_ge (off + n) (2 ^ 32) with hfits | hwrap
  · have hpos : 0 < n := by
      rcases Nat.eq_zero_or_pos n with rfl | hpos
      · -- a write of nothing panics
        rw [FailedWrites.fat32_inode_write, if_neg (by omega)] at hrun
        cases hrun
      · exact hpos
    have hgoal : Ok s (.fat32_inode_write beyond user src off n) ↔ WriteOk s beyond user src off n := ⟨fun h => h hfits, fun h _ => h⟩
    rw [hgoal, WriteOk]
    rcases eq_or_ne (readable user src n) n with hall | hfail
    · rw [if_pos hall]
      obtain ⟨hr, hsize, hiff⟩ := write_completes_zeros hinv hpos hn hfits hall hzeros hrun
      rw [if_neg hr]
      refine ⟨⟨?_, fun p hp => ?_⟩, hiff⟩
      · dsimp only
        rw [hsize]
        split
        · exact hfits
        · exact hinv.size_lt
      · dsimp only at hp ⊢
        rw [hsize] at hp
        refine mark_eq_false.mpr ⟨hinv.unwritten p ?_, ?_⟩
        · split at hp <;> omega
        · split at hp <;> omega
    · rw [if_neg hfail]
      have hless := lt_of_le_of_ne (readable_good user src n).le hfail
      obtain ⟨hr, hsize, hiff⟩ := write_fails_zeros hinv.size_lt hfits hless hzeros hrun
      rw [if_pos hr]
      refine ⟨⟨?_, fun p hp => hinv.unwritten p ?_⟩, hiff⟩
      · dsimp only
        rw [hsize]
        exact hinv.size_lt
      · dsimp only at hp
        rw [hsize] at hp
        exact hp
  · -- the sum of offset and count wraps, and nothing is done
    rw [FailedWrites.fat32_inode_write, if_pos (by omega)] at hrun
    cases hrun
    exact ⟨⟨hinv.size_lt, hinv.unwritten⟩, iff_of_true hzeros fun h => absurd h (by omega)⟩

theorem read_zeros {budget : Nat → Nat} {beyond : Nat → UInt8} {off n : Nat} (hinv : Inv s) (hzeros : Zeros s)
    (hstep : Step s (.fat32_inode_read budget beyond off n) s') : Inv s' ∧ Zeros s' := by
  obtain ⟨-, hn, -, ip', out, hread, rfl⟩ := hstep
  have hres := readResult_of_ok hinv.size_lt hn hread
  refine ⟨⟨?_, fun p hp => hinv.unwritten p ?_⟩, zeros_congr hinv.size_lt hres.i_size rfl (fun p hp => ?_) hzeros⟩
  · dsimp only
    rw [hres.i_size]
    exact hinv.size_lt
  · dsimp only at hp
    rw [hres.i_size] at hp
    exact hp
  · dsimp only
    rw [hres.disk]
    exact hres.fetched.view_eq hp

theorem open_zeros {trunc append : Bool} (hinv : Inv s) (hzeros : Zeros s) (hstep : Step s (.assist_openat trunc append) s') :
    Inv s' ∧ Zeros s' := by
  cases hstep
  rcases trunc with _ | _
  · have hsame : (ZeroGaps.assist_openat s.ip false append).1 = s.ip := by
      rcases append with _ | _ <;> rfl
    rw [hsame]
    exact ⟨hinv, hzeros⟩
  · -- an empty file has nothing to show
    have hsize : (ZeroGaps.assist_openat s.ip true append).1.i_size < 2 ^ 32 := by
      show 0 < 2 ^ 32
      decide
    exact ⟨⟨hsize, fun _ _ => rfl⟩, (zeros_iff hsize).mpr fun p hp => absurd hp (Nat.not_lt_zero p)⟩

theorem writeback_zeros (hinv : Inv s) (hzeros : Zeros s) (hstep : Step s .fat32_i_mapping_writeback s') : Inv s' ∧ Zeros s' := by
  cases hstep
  unfold PageCache.fat32_i_mapping_writeback
  split
  · exact ⟨⟨hinv.size_lt, hinv.unwritten⟩, zeros_congr hinv.size_lt rfl rfl (fun p _ => writepage_view s.ip p) hzeros⟩
  · exact ⟨hinv, hzeros⟩

theorem evict_zeros (hinv : Inv s) (hzeros : Zeros s) (hstep : Step s .alloc_fail s') : Inv s' ∧ (Zeros s' ↔ Ok s .alloc_fail) := by
  cases hstep
  unfold PageCache.alloc_fail
  rcases hd : s.ip.dirty_list with _ | _
  · rw [if_neg Bool.false_ne_true]
    refine ⟨⟨hinv.size_lt, hinv.unwritten⟩, (zeros_iff (by exact hinv.size_lt)).trans ?_⟩
    exact ⟨fun h _ => h, fun h => h hd⟩
  rw [if_pos rfl]
  refine ⟨hinv, iff_of_true hzeros fun h => ?_⟩
  rw [hd] at h
  cases h

theorem step_zeros {e : Event} (hinv : Inv s) (hzeros : Zeros s) (hstep : Step s e s') : Inv s' ∧ (Zeros s' ↔ Ok s e) := by
  cases e with
  | fat32_inode_read budget beyond off n =>
    obtain ⟨hinv', hzeros'⟩ := read_zeros hinv hzeros hstep
    exact ⟨hinv', iff_of_true hzeros' trivial⟩
  | fat32_inode_write beyond user src off n => exact write_zeros hinv hzeros hstep
  | assist_openat trunc append =>
    obtain ⟨hinv', hzeros'⟩ := open_zeros hinv hzeros hstep
    exact ⟨hinv', iff_of_true hzeros' trivial⟩
  | fat32_i_mapping_writeback =>
    obtain ⟨hinv', hzeros'⟩ := writeback_zeros hinv hzeros hstep
    exact ⟨hinv', iff_of_true hzeros' trivial⟩
  | alloc_fail => exact evict_zeros hinv hzeros hstep

/-! ## Every history -/

theorem start_inv (disk : Nat → UInt8) {size : Nat} (hsize : size < 2 ^ 32) : Inv (start disk size) :=
  ⟨hsize, fun _ hp => decide_eq_false hp.not_gt⟩

theorem start_zeros (disk : Nat → UInt8) {size : Nat} (hsize : size < 2 ^ 32) : Zeros (start disk size) := by
  refine (zeros_iff hsize).mpr fun p hp hw => ?_
  have hwritten : (start disk size).written p = true := decide_eq_true hp
  rw [hwritten] at hw
  cases hw

/-- **What has not been written reads as zero** in every state of a history exactly when each of its steps meets its
condition: no write past the end leaves other bytes in its gap, no failed write shows, and no page is thrown away that the
disk has not got. -/
theorem zero_gaps_iff {disk : Nat → UInt8} {size : Nat} (hsize : size < 2 ^ 32) {es : List Event} {s : State} :
    Zeros (start disk size) ∧ (Run (Lawful Step Zeros) (start disk size) es s ↔ Run (Guarded Step Ok) (start disk size) es s) :=
  ⟨start_zeros disk hsize,
    Run.lawful_iff (fun _ _ _ hinv hzeros hstep => step_zeros hinv hzeros hstep) (start_inv disk hsize) (start_zeros disk hsize)⟩

/-- A page of 9s is the user's memory. -/
def user_page : pagetable := Function.update (fun _ => none) 0 (some fun _ => 9)

/-- A file is truncated, and a byte written in what was its first page: the page is zeroed for it. -/
theorem zero_gaps_same_page : ∃ s, Run (Lawful Step Zeros) (start (fun _ => 7) 8192)
    [.assist_openat true false, .fat32_inode_write (fun _ => 0) user_page 0 100 1] s := by
  refine ⟨_, (zero_gaps_iff (by decide)).2.mpr (.cons ⟨trivial, rfl⟩ (.cons ⟨fun _ => ?_, by decide, by decide, fun _ => .inr rfl, _, _, rfl, rfl⟩ (.nil _)))⟩
  unfold WriteOk
  rw [if_pos (by decide)]
  intro p _ hp
  have hpage : p / PGSIZE = 0 := by
    simp only [PGSIZE]
    omega
  rw [filler, if_pos (by rw [hpage]; rfl), made, hpage]
  rfl

/-- The same with a byte in the second page: the first one is read from the disk, where the old file is. -/
theorem old_file_shows : ¬ ∀ (disk : Nat → UInt8) (size : Nat) (es : List Event) (s : State), size < 2 ^ 32 →
    Run Step (start disk size) es s → Zeros s := by
  intro hall
  have hrun : ∃ s, Run Step (start (fun _ => 7) 8192) [.assist_openat true false, .fat32_inode_write (fun _ => 0) user_page 0 5000 1] s ∧
      s.ip.i_size = 5001 ∧ s.written 0 = false ∧ view s.ip.disk (mappingOf s.ip) 0 = 7 :=
    ⟨_, .cons rfl (.cons ⟨by decide, by decide, fun _ => .inr rfl, _, _, rfl, rfl⟩ (.nil _)), rfl, rfl, rfl⟩
  obtain ⟨s, hrun, hsize, hw, hview⟩ := hrun
  have hret := (returns_iff (by rw [hsize]; decide) 0 7).mpr ⟨by rw [hsize]; decide, hview⟩
  exact absurd (hall _ _ _ s (by decide) hrun 0 7 hw hret) (by decide)

end LostWakeup.Fs.ZeroGaps
