/-
# LostWakeup.Fs.FileOffsets — `sysfile.c`, `fat32_file.c`: where in its file a read or a write acts.

A position is an `off_t`, but `fat32_inode_read` and `fat32_inode_write` take a `uint`, and their test for a wrap comes
after the cast.  The bytes that a read delivers have got to the user; those of a write come from memory that may end.
-/
import LostWakeup.Fs.FailedWrites

namespace LostWakeup.Fs.FileOffsets

open Library
open Fs.PageCache (PGSIZE inode address_space Panic mappingOf view view_missed Fetched ReadResult fat32_inode_read
  fat32_inode_read_spec readLoop readLoop_turn read_order_iff not_longGap_of_budget LongGap max_sane_readahead pages_eq cached
  sane opened size_of_count)
open Fs.FailedWrites (pagetable byteAt readable readable_good Good zeroed Harmless after after_harmless file
  fat32_inode_write
  do_generic_file_write fat32_filewrite fat32_filewrite_of writeLoop_after fat32_inode_write_fails filewriteLoop two_pages one_page)

/-! ## The code -/

/-- The cast of an `off_t` to `uint`. -/
def uint (pos : Int) : Nat := (pos % 2 ^ 32).toNat

/-- An open file of type `FD_INODE`, with `F_READABLE`. -/
structure File extends file where
  f_readable : Bool

/-- `fat32_fileread`, with the bytes that it delivers. -/
def fat32_fileread (f : File) (budget : Nat → Nat) (beyond : Nat → UInt8) (n : Int) : Except Panic (File × List UInt8 × Int) :=
  if f.f_readable = false then .ok (f, [], -1)
  else
    -- `MIN` of an `int` and a `uint32`, which is unsigned
    match fat32_inode_read f.f_inode budget beyond f.off (min (uint n) f.f_inode.i_size) with
    | .error e => .error e
    | .ok (ip, out) =>
      let r := int32 out.length
      .ok ({ f with f_inode := ip, f_pos := if r > 0 then f.f_pos + r else f.f_pos }, out, r)

/-- `sys_read`, with `count` as it is in its register. -/
def sys_read (f : File) (budget : Nat → Nat) (beyond : Nat → UInt8) (count : Nat) : Except Panic (File × List UInt8 × Int) :=
  fat32_fileread f budget beyond (int32 count)

def sys_write (f : file) (beyond : Nat → UInt8) (user : pagetable) (p count : Nat) : Except Panic (file × Int) :=
  fat32_filewrite f beyond user p (int32 count)

/-- `sys_pread64`; it does not look at the mode of the file. -/
def sys_pread64 (ip : inode) (budget : Nat → Nat) (beyond : Nat → UInt8) (count : Nat) (offset : Int) :
    Except Panic (inode × List UInt8 × Int) :=
  match fat32_inode_read ip budget beyond (uint offset) (count % 2 ^ 32) with
  | .error e => .error e
  | .ok (ip, out) => .ok (ip, out, int32 out.length)

def sys_pwrite64 (ip : inode) (beyond : Nat → UInt8) (user : pagetable) (buf count : Nat) (offset : Int) : Except Panic (inode × Int) :=
  fat32_inode_write ip beyond user buf (uint offset) (count % 2 ^ 32)

/-! ## What is wanted -/

/-- The byte of a file, in the cache or on the disk. -/
def contentAt (ip : inode) (p : Nat) : UInt8 := view ip.disk (mappingOf ip) p

structure Same (ip ip' : inode) : Prop where
  i_size : ip'.i_size = ip.i_size
  bytes : ∀ p, p < ip.i_size → contentAt ip' p = contentAt ip p

/-- A read of `count` bytes at `pos` has delivered bytes of the file from there on. -/
structure ReadsAt (allowed : Bool) (ip : inode) (pos : Int) (count : Nat) (ip' : inode) (out : List UInt8) (r : Int) : Prop where
  zero : allowed = true → count = 0 → r = 0
  length_le : out.length ≤ count
  bytes : ∀ (k : Nat) (b : UInt8), out[k]? = some b → ∃ p : Nat, (p : Int) = pos + k ∧ p < ip.i_size ∧ b = contentAt ip p
  same : Same ip ip'

/-- The first `r` bytes of the buffer are in the file from `pos` on, and nothing else has changed. -/
structure Written (ip : inode) (pos r : Int) (src : Nat → UInt8) (ip' : inode) : Prop where
  size : (ip'.i_size : Int) = if 0 < r ∧ ip.i_size < pos + r then pos + r else ip.i_size
  bytes : ∀ k : Nat, (k : Int) < r → ∃ p : Nat, (p : Int) = pos + k ∧ p < ip'.i_size ∧ contentAt ip' p = src k
  others : ∀ p : Nat, p < ip.i_size → ¬(pos ≤ p ∧ (p : Int) < pos + r) → contentAt ip' p = contentAt ip p

/-- A write of `count` bytes at `pos` has done so, or it has failed without effect. -/
structure WritesAt (allowed : Bool) (ip : inode) (pos : Int) (count : Nat) (src : Nat → UInt8) (ip' : inode) (r : Int) : Prop where
  zero : allowed = true → count = 0 → r = 0
  le : r ≤ count
  acts : 0 ≤ r → Written ip pos r src ip'
  fails : r < 0 → Same ip ip'

/-! ## When it holds -/

/-- What the read asks the allocator for are blocks that it has. -/
def Blocks (ip : inode) (budget : Nat → Nat) (beyond : Nat → UInt8) (off n : Nat) : Prop :=
  off + n < 2 ^ 32 → 0 < min n (ip.i_size - off) → ¬LongGap ip budget beyond off (min n (ip.i_size - off)) (mappingOf ip) 0

/-- The position is a `uint`, or the read finds nothing at the other one: no byte is asked for, the file ends before
it, the sum wraps, or there is no memory. -/
def ReadOk (ip : inode) (budget : Nat → Nat) (beyond : Nat → UInt8) (pos : Int) (n : Nat) : Prop :=
  Blocks ip budget beyond (uint pos) n ∧
    (pos = uint pos ∨ n = 0 ∨ ip.i_size ≤ uint pos ∨ 2 ^ 32 ≤ uint pos + n ∨
      (cached (mappingOf ip) (uint pos / PGSIZE) = false ∧ budget 0 = 0))

/-- The bytes of the file in the pages that the write leaves zeroed, outside its range, are zeros. -/
def Spares (ip : inode) (off n : Nat) : Prop :=
  ∀ p, p < ip.i_size → ¬(off ≤ p ∧ p < off + n) → (mappingOf ip).page_tree (p / PGSIZE) = none →
    off / PGSIZE ≤ p / PGSIZE → p / PGSIZE ≤ (off + n) / PGSIZE → zeroed ip off n (p / PGSIZE) = true → ip.disk p = 0

/-- The sum wraps, and the write is refused.  Or bytes that can all be read, as many as an `int`, go to a position
that is a `uint`, and no byte beside the range is lost; or the file shows nothing of what is copied. -/
def WriteOk (ip : inode) (user : pagetable) (addr : Nat) (pos : Int) (n : Nat) : Prop :=
  2 ^ 32 ≤ uint pos + n ∨
    (0 < n ∧
      if readable user addr n = n ∧ n < 2 ^ 31 then pos = uint pos ∧ Spares ip (uint pos) n
      else Harmless ip user addr (uint pos) n ∧ (readable user addr n < n ∨ n = 2 ^ 32 - 1 ∨ uint pos + n ≤ ip.i_size))

theorem Same.refl (ip : inode) : Same ip ip := ⟨rfl, fun _ _ => rfl⟩

theorem uint_lt (pos : Int) : uint pos < 2 ^ 32 := by
  rw [uint]
  omega

theorem uint_int32 (count : Nat) : uint (int32 count) = count % 2 ^ 32 := by
  rw [uint, int32, Int.bmod]
  omega

/-! ## Reads -/

section

variable {ip ip' : inode} {budget : Nat → Nat} {beyond : Nat → UInt8} {off n : Nat} {out : List UInt8}

theorem readLoop_grows {fuel : Nat} {m m' : address_space} {out' : List UInt8}
    (h : readLoop ip budget beyond n fuel m off out = .ok (m', out')) : out.length ≤ out'.length := by
  induction fuel generalizing off m out with
  | zero => cases h
  | succ fuel ih =>
    have happend : ∀ l : List UInt8, out.length ≤ (out ++ l).length := fun l => by
      rw [List.length_append]
      exact le_self_add
    rw [readLoop] at h
    dsimp only at h
    generalize (if off / PGSIZE = (ip.i_size - 1) / PGSIZE then (ip.i_size - 1) % PGSIZE + 1 else PGSIZE) = nr at h
    split at h
    · cases h
      exact le_refl _
    split at h
    · cases h
    split at h
    · cases h
    · cases h
      exact le_refl _
    split at h
    · cases h
      exact happend _
    · exact (happend _).trans (ih h)

theorem sane_first {m : address_space} (hsize : ip.i_size < 2 ^ 32) (hin : off < ip.i_size) (hpos : 0 < n) (hn : n < 2 ^ 32) :
    sane ip budget n off m 0 = 0 ↔ budget 0 = 0 := by
  unfold sane max_sane_readahead
  have hleft : toUint64 ((ip.i_size : Int) - (off + 0 + 0)) = ip.i_size - off := by
    rw [toUint64]
    omega
  rw [show ((off : Int) + ((0 : Nat) : Int) + ((0 : Nat) : Int)) = off + 0 + 0 from rfl, hleft, Nat.sub_zero, pages_eq (by omega),
    pages_eq (by omega)]
  omega

theorem read_nothing_iff (hsize : ip.i_size < 2 ^ 32) (hn : n < 2 ^ 32)
    (h : fat32_inode_read ip budget beyond off n = .ok (ip', out)) :
    out = [] ↔ n = 0 ∨ ip.i_size ≤ off ∨ 2 ^ 32 ≤ off + n ∨ (cached (mappingOf ip) (off / PGSIZE) = false ∧ budget 0 = 0) := by
  unfold fat32_inode_read at h
  by_cases hbad : off > ip.i_size ∨ (off + n) % 2 ^ 32 < off
  · rw [if_pos hbad] at h
    cases h
    refine iff_of_true rfl ?_
    omega
  rw [if_neg hbad] at h
  dsimp only at h
  generalize hn' : (if (off + n) % 2 ^ 32 > ip.i_size then ip.i_size - off else n) = n' at h
  have hclip : n' = min n (ip.i_size - off) := by
    rw [← hn']
    split
    · omega
    · omega
  by_cases hzero : n' = 0
  · rw [if_pos hzero] at h
    cases h
    refine iff_of_true rfl ?_
    omega
  rw [if_neg hzero] at h
  have hinside : n ≠ 0 ∧ ¬ip.i_size ≤ off ∧ ¬2 ^ 32 ≤ off + n := by omega
  rw [or_iff_right hinside.1, or_iff_right hinside.2.1, or_iff_right hinside.2.2]
  obtain ⟨fuel, hfuel⟩ : ∃ fuel, n' = fuel + 1 := ⟨n' - 1, by omega⟩
  have hturn := @readLoop_turn ip off n' budget beyond (view ip.disk (mappingOf ip)) (mappingOf ip) [] (off / PGSIZE) fuel rfl
    (by rw [List.length_nil]; omega) (by rw [List.length_nil]; omega) rfl fun _ _ => rfl
  have hsane := @sane_first ip budget off n' (mappingOf ip) hsize (by omega) (by omega) (by omega)
  rw [← hfuel] at hturn
  simp only [List.length_nil, Nat.add_zero, ne_eq, hsane] at hturn
  rcases hturn with ⟨hmiss, hnone, m', -, hrun⟩ | ⟨-, -, hrun⟩ | ⟨hsome, -, m', -, out', -, hrun, -, hlen, -⟩
  · rw [hrun] at h
    cases h
    exact iff_of_true rfl ⟨hmiss, hnone⟩
  · rw [hrun] at h
    cases h
  rw [hrun] at h
  refine iff_of_false ?_ ?_
  · rintro rfl
    have hlong : out'.length ≤ ([] : List UInt8).length := by
      by_cases hdone : out'.length = n'
      · rw [if_pos hdone] at h
        cases h
        exact le_refl _
      rw [if_neg hdone] at h
      rcases hrest : readLoop ip budget beyond n' fuel m' (off + out'.length) out' with e | ⟨m₂, out₂⟩
      · rw [hrest] at h
        cases h
      · rw [hrest] at h
        cases h
        exact readLoop_grows hrest
    rw [List.length_nil] at hlong
    simp only [PGSIZE] at hlen
    omega
  · rintro ⟨hmiss, hnone⟩
    rcases hsome with hhit | hbudget
    · rw [hmiss] at hhit
      cases hhit
    · exact hbudget hnone

theorem ReadResult.same (h : ReadResult ip off n ip' out) : Same ip ip' := by
  refine ⟨h.i_size, fun p hp => ?_⟩
  rw [contentAt, contentAt, h.disk]
  exact h.fetched.view_eq hp

theorem readsAt_iff {pos : Int} {count : Nat} {allowed : Bool} {r : Int} (hsize : ip.i_size < 2 ^ 32) (hn : n ≤ count)
    (hzero : allowed = true → count = 0 → r = 0) (h : ReadResult ip (uint pos) n ip' out) :
    ReadsAt allowed ip pos count ip' out r ↔ pos = uint pos ∨ out = [] := by
  constructor
  · intro hreads
    rcases hout : out with _ | ⟨b, rest⟩
    · exact .inr rfl
    left
    obtain ⟨p, hp, hin, -⟩ := hreads.bytes 0 b (by rw [hout]; rfl)
    rw [uint]
    omega
  · intro hor
    refine ⟨hzero, h.length_le.trans hn, fun k b hk => ?_, ReadResult.same h⟩
    obtain ⟨hlt, hget⟩ := List.getElem?_eq_some_iff.mp hk
    rcases hor with hpos | rfl
    · obtain ⟨hin, hbyte⟩ := h.byte hlt
      refine ⟨uint pos + k, by omega, hin, ?_⟩
      rw [← hget]
      exact hbyte
    · exact absurd hlt (Nat.not_lt_zero k)

theorem read_panics_iff (hoff : off < 2 ^ 32) (hn : n < 2 ^ 32) :
    fat32_inode_read ip budget beyond off n = .error .buddy_order ↔ ¬Blocks ip budget beyond off n := by
  unfold fat32_inode_read Blocks
  by_cases hbad : off > ip.i_size ∨ (off + n) % 2 ^ 32 < off
  · rw [if_pos hbad]
    refine iff_of_false nofun (not_not_intro fun hfits hpos => ?_)
    omega
  rw [if_neg hbad]
  dsimp only
  have hclip : (if (off + n) % 2 ^ 32 > ip.i_size then ip.i_size - off else n) = min n (ip.i_size - off) := by
    split
    · omega
    · omega
  rw [hclip]
  rcases Nat.eq_zero_or_pos (min n (ip.i_size - off)) with hzero | hpos
  · rw [if_pos hzero]
    exact iff_of_false nofun (not_not_intro fun _ hpos => by omega)
  rw [if_neg hpos.ne', ← read_order_iff (by omega) hpos, PageCache.do_generic_file_read]
  have hfits : off + n < 2 ^ 32 := by omega
  constructor
  · intro h hblocks
    refine hblocks hfits hpos ?_
    split at h
    · cases h
    next e hloop =>
      cases h
      exact hloop
  · intro h
    obtain ⟨-, h⟩ := Classical.not_imp.mp h
    rw [not_not.mp (Classical.not_imp.mp h).2]

/-- A read of the inode acts at its position, or delivers nothing, exactly when `ReadOk` holds. -/
theorem inode_read_iff {pos : Int} {allowed : Bool} {count : Nat} (hsize : ip.i_size < 2 ^ 32) (hn : n < 2 ^ 32) (hle : n ≤ count) :
    (∃ ip' out, fat32_inode_read ip budget beyond (uint pos) n = .ok (ip', out) ∧
      ReadsAt allowed ip pos count ip' out (int32 out.length)) ↔ ReadOk ip budget beyond pos n := by
  have hpanics := @read_panics_iff ip budget beyond (uint pos) n (uint_lt pos) hn
  rcases fat32_inode_read_spec hsize budget beyond (uint pos) hn with hpanic | ⟨ip', out, hrun, hres⟩
  · refine iff_of_false ?_ fun h => hpanics.mp hpanic h.1
    rintro ⟨ip', out, hrun, -⟩
    cases hpanic.symm.trans hrun
  have hblocks : Blocks ip budget beyond (uint pos) n := not_not.mp (hpanics.not.mp fun hpanic => by cases hpanic.symm.trans hrun)
  have hzero : allowed = true → count = 0 → int32 out.length = 0 := by
    intro _ hcount
    have hlen := hres.length_le
    have hempty : out.length = 0 := by omega
    rw [hempty]
    rfl
  rw [ReadOk, and_iff_right hblocks, ← read_nothing_iff hsize hn hrun, ← readsAt_iff hsize hle hzero hres]
  constructor
  · rintro ⟨ip₁, out₁, hrun₁, h⟩
    cases hrun.symm.trans hrun₁
    exact h
  · exact fun h => ⟨ip', out, hrun, h⟩

end

/-! ## Writes -/

section

variable {ip : inode} {user : pagetable} {addr off n : Nat}

/-- What is in the file after a write whose buffer can be read; the count that comes back is an `int`. -/
theorem inode_write_all (ip : inode) (beyond : Nat → UInt8) (hgood : Good user addr n n) (hpos : 0 < n) (hfits : off + n < 2 ^ 32) :
    ∃ ip', fat32_inode_write ip beyond user addr off n = .ok (ip', int32 n) ∧
      ip'.i_size = (if int32 n = -1 then ip.i_size else max ip.i_size (off + n)) ∧
      (∀ p, p < ip.i_size → contentAt ip' p = after ip user addr off n n (mappingOf ip) off p) ∧
      ∀ p, off ≤ p → p < off + n → contentAt ip' p = byteAt user (addr + (p - off)) := by
  obtain ⟨m', hrun, hview, hnew, -⟩ := @writeLoop_after user addr off n n ip beyond hgood n (mappingOf ip) 0 (Nat.zero_le _) hpos
    (Nat.sub_le ..) (.inl rfl)
  rw [Nat.add_zero, if_neg (Nat.lt_irrefl n)] at hrun
  unfold fat32_inode_write do_generic_file_write
  rw [if_neg (by omega), if_neg (by omega), hrun]
  dsimp only
  by_cases hminus : int32 n = -1
  · rw [if_pos hminus, if_pos hminus]
    exact ⟨{ ip with i_mapping := some m' }, by rw [hminus], rfl, hview, hnew⟩
  rw [if_neg hminus, if_neg hminus, size_of_count hfits, Nat.mod_eq_of_lt hfits]
  refine ⟨_, rfl, ?_, hview, hnew⟩
  dsimp only
  split
  · omega
  · omega

theorem after_spares (ip : inode) (user : pagetable) (addr off n : Nat) :
    (∀ p, p < ip.i_size → ¬(off ≤ p ∧ p < off + n) → after ip user addr off n n (mappingOf ip) off p = contentAt ip p) ↔
      Spares ip off n := by
  refine forall_congr' fun p => imp_congr_right fun _ => imp_congr_right fun hout => ?_
  rw [after, if_neg hout, contentAt]
  constructor
  · intro h hnone hfirst hlast hzero
    rw [if_pos ⟨hnone, hfirst, hlast, hzero⟩, view_missed hnone] at h
    exact h.symm
  intro h
  rcases em ((mappingOf ip).page_tree (p / PGSIZE) = none ∧ off / PGSIZE ≤ p / PGSIZE ∧
      p / PGSIZE ≤ (off + n) / PGSIZE ∧ zeroed ip off n (p / PGSIZE) = true) with hz | hz
  · rw [if_pos hz, view_missed hz.1]
    exact (h hz.1 hz.2.1 hz.2.2.1 hz.2.2.2).symm
  · rw [if_neg hz]

/-- A write that comes back with its count. -/
theorem written_iff {ip' : inode} {pos : Int} (hsize : ip.i_size < 2 ^ 32) (hpos : 0 < n) (hfits : uint pos + n < 2 ^ 32)
    (hsize' : ip'.i_size = max ip.i_size (uint pos + n))
    (hview : ∀ p, p < ip.i_size → contentAt ip' p = after ip user addr (uint pos) n n (mappingOf ip) (uint pos) p)
    (hnew : ∀ p, uint pos ≤ p → p < uint pos + n → contentAt ip' p = byteAt user (addr + (p - uint pos))) :
    Written ip pos n (fun k => byteAt user (addr + k)) ip' ↔ pos = uint pos ∧ Spares ip (uint pos) n := by
  rw [← after_spares ip user addr]
  constructor
  · intro h
    have hkept : pos = uint pos := by
      obtain ⟨p, hp, hin, -⟩ := h.bytes 0 (by omega)
      rw [uint] at hsize' hfits ⊢
      omega
    refine ⟨hkept, fun p hp hout => ?_⟩
    rw [← hview p hp]
    exact h.others p hp fun hin => hout (by omega)
  · rintro ⟨hkept, hspares⟩
    refine ⟨?_, fun k hk => ?_, fun p hp hout => ?_⟩
    · rw [hsize']
      split
      · omega
      · omega
    · refine ⟨uint pos + k, by omega, by omega, ?_⟩
      rw [hnew _ (by omega) (by omega), Nat.add_sub_cancel_left]
    · rw [hview p hp]
      exact hspares p hp fun hin => hout (by omega)

/-- A write of the inode acts at its position, or leaves nothing, exactly when `WriteOk` holds. -/
theorem inode_write_iff (beyond : Nat → UInt8) {pos : Int} {allowed : Bool} {count : Nat} (hsize : ip.i_size < 2 ^ 32) (hn : n < 2 ^ 32)
    (hle : n ≤ count) (hzero : count = 0 → n = 0) :
    (∃ ip' r, fat32_inode_write ip beyond user addr (uint pos) n = .ok (ip', r) ∧
      WritesAt allowed ip pos count (fun k => byteAt user (addr + k)) ip' r) ↔ WriteOk ip user addr pos n := by
  have hlt := uint_lt pos
  unfold WriteOk
  rcases lt_or_ge (uint pos + n) (2 ^ 32) with hfits | hwrap
  swap
  · -- the write is refused
    have hrun : fat32_inode_write ip beyond user addr (uint pos) n = .ok (ip, -1) := by
      rw [fat32_inode_write, if_pos (by omega)]
    refine iff_of_true ⟨ip, -1, hrun, fun _ hcount => ?_, by omega, fun h => by omega, fun _ => Same.refl ip⟩ (.inl hwrap)
    have := hzero hcount
    omega
  rw [or_iff_right (by omega)]
  rcases Nat.eq_zero_or_pos n with rfl | hpos
  · -- nothing to write is a panic
    refine iff_of_false ?_ fun h => absurd h.1 (Nat.lt_irrefl 0)
    rintro ⟨ip', r, hrun, -⟩
    rw [fat32_inode_write, if_neg (by omega), do_generic_file_write, if_pos rfl] at hrun
    cases hrun
  have hcount : count ≠ 0 := fun h => by
    have := hzero h
    omega
  have hgood := readable_good user addr n
  rw [and_iff_right hpos]
  rcases Nat.lt_or_eq_of_le hgood.le with hfail | hall
  · -- the copy fails
    obtain ⟨ip', hrun, hsize', hview⟩ := fat32_inode_write_fails ip beyond hgood hfail hfits
    rw [if_neg (by omega), hrun]
    have hlaw : (∃ ip₁ r, Except.ok (ip', (-1 : Int)) = (Except.ok (ip₁, r) : Except Panic (inode × Int)) ∧
        WritesAt allowed ip pos count (fun k => byteAt user (addr + k)) ip₁ r) ↔ Same ip ip' := by
      constructor
      · rintro ⟨ip₁, r, heq, h⟩
        cases heq
        exact h.fails (by decide)
      · exact fun h => ⟨ip', -1, rfl, fun _ hc => absurd hc hcount, by omega, fun hr => by omega, fun _ => h⟩
    rw [hlaw, ← after_harmless]
    constructor
    · intro h
      refine ⟨fun p hp => ?_, .inl hfail⟩
      rw [← hview p hp]
      exact h.bytes p hp
    · rintro ⟨h, -⟩
      exact ⟨hsize', fun p hp => (hview p hp).trans (h p hp)⟩
  · have hgood' : Good user addr n n := by
      rw [hall] at hgood
      exact hgood
    obtain ⟨ip', hrun, hsize', hview, hnew⟩ := inode_write_all ip beyond hgood' hpos hfits
    rw [hrun]
    rcases lt_or_ge n (2 ^ 31) with hint | hlarge
    · have hr : int32 n = n := int32_of_range (by simp only [INT_MIN]; omega) (by simp only [INT_MAX]; omega)
      rw [hr, if_neg (by omega)] at hsize'
      rw [if_pos ⟨hall, hint⟩, hr, ← written_iff hsize hpos hfits hsize' hview hnew]
      constructor
      · rintro ⟨ip₁, r, heq, h⟩
        cases heq
        exact h.acts (by omega)
      · exact fun h => ⟨ip', n, rfl, fun _ hc => absurd hc hcount, by omega, fun _ => h, fun hr => by omega⟩
    · -- the count comes back as a negative `int`
      have hr : int32 n < 0 ∧ (int32 n = -1 ↔ n = 2 ^ 32 - 1) := by
        rw [int32, Int.bmod]
        omega
      rw [if_neg (by omega), ← after_harmless, hall]
      have hcond : ip'.i_size = ip.i_size ↔ n < n ∨ n = 2 ^ 32 - 1 ∨ uint pos + n ≤ ip.i_size := by
        rw [hsize']
        split
        · omega
        · omega
      rw [← hcond]
      constructor
      · rintro ⟨ip₁, r, heq, h⟩
        cases heq
        have hsame := h.fails hr.1
        exact ⟨fun p hp => (hview p hp).symm.trans (hsame.bytes p hp), hsame.i_size⟩
      · rintro ⟨h, hkept⟩
        exact ⟨ip', _, rfl, fun _ hc => absurd hc hcount, by omega, fun hge => by omega,
          fun _ => ⟨hkept, fun p hp => (hview p hp).trans (h p hp)⟩⟩

end

/-! ## The system calls -/

/-- `sys_read`: the call returns, and acts at the position of the file. -/
def ReadLaw (f : File) (budget : Nat → Nat) (beyond : Nat → UInt8) (count : Nat) : Prop :=
  ∃ f' out r, sys_read f budget beyond count = .ok (f', out, r) ∧
    ReadsAt f.f_readable f.f_inode f.f_pos count f'.f_inode out r

def WriteLaw (f : file) (beyond : Nat → UInt8) (user : pagetable) (p count : Nat) : Prop :=
  ∃ f' r, sys_write f beyond user p count = .ok (f', r) ∧
    WritesAt f.f_writeable f.f_inode f.f_pos count (fun k => byteAt user (p + k)) f'.f_inode r

def PreadLaw (ip : inode) (budget : Nat → Nat) (beyond : Nat → UInt8) (count : Nat) (offset : Int) : Prop :=
  ∃ ip' out r, sys_pread64 ip budget beyond count offset = .ok (ip', out, r) ∧ ReadsAt true ip offset count ip' out r

def PwriteLaw (ip : inode) (beyond : Nat → UInt8) (user : pagetable) (buf count : Nat) (offset : Int) : Prop :=
  ∃ ip' r, sys_pwrite64 ip beyond user buf count offset = .ok (ip', r) ∧
    WritesAt true ip offset count (fun k => byteAt user (buf + k)) ip' r

theorem off_eq (f : file) : f.off = uint f.f_pos := rfl

theorem pread_iff {ip : inode} (budget : Nat → Nat) (beyond : Nat → UInt8) (count : Nat) (offset : Int) (hsize : ip.i_size < 2 ^ 32) :
    PreadLaw ip budget beyond count offset ↔ ReadOk ip budget beyond offset (count % 2 ^ 32) := by
  have hn : count % 2 ^ 32 < 2 ^ 32 := Nat.mod_lt _ (by decide)
  rw [← @inode_read_iff ip budget beyond (count % 2 ^ 32) offset true count hsize hn (Nat.mod_le _ _), PreadLaw, sys_pread64]
  constructor
  · rintro ⟨ip', out, r, heq, h⟩
    split at heq
    · cases heq
    next hrun =>
      cases heq
      exact ⟨_, _, hrun, h⟩
  · rintro ⟨ip', out, hrun, h⟩
    rw [hrun]
    exact ⟨_, _, _, rfl, h⟩

theorem read_iff {f : File} (budget : Nat → Nat) (beyond : Nat → UInt8) (count : Nat) (hsize : f.f_inode.i_size < 2 ^ 32) :
    ReadLaw f budget beyond count ↔
      f.f_readable = false ∨ ReadOk f.f_inode budget beyond f.f_pos (min (count % 2 ^ 32) f.f_inode.i_size) := by
  rw [ReadLaw, sys_read, fat32_fileread]
  rcases hmode : f.f_readable with _ | _
  · rw [if_pos rfl]
    refine iff_of_true ⟨f, [], -1, rfl, fun h => Bool.noConfusion h, Nat.zero_le _, fun k b hk => ?_, Same.refl _⟩ (.inl rfl)
    rw [List.getElem?_nil] at hk
    cases hk
  rw [if_neg (by decide), or_iff_right (by decide), uint_int32]
  generalize hn' : min (count % 2 ^ 32) f.f_inode.i_size = n
  have hn : n < 2 ^ 32 := by omega
  have hle : n ≤ count := by
    have := Nat.mod_le count (2 ^ 32)
    omega
  rw [← @inode_read_iff f.f_inode budget beyond n f.f_pos true count hsize hn hle, ← off_eq]
  constructor
  · rintro ⟨f', out, r, heq, h⟩
    split at heq
    · cases heq
    next hrun =>
      cases heq
      exact ⟨_, _, hrun, h⟩
  · rintro ⟨ip', out, hrun, h⟩
    rw [hrun]
    exact ⟨_, _, _, rfl, h⟩

theorem pwrite_iff {ip : inode} (beyond : Nat → UInt8) (user : pagetable) (buf count : Nat) (offset : Int) (hsize : ip.i_size < 2 ^ 32) :
    PwriteLaw ip beyond user buf count offset ↔ WriteOk ip user buf offset (count % 2 ^ 32) := by
  rw [PwriteLaw, sys_pwrite64]
  exact inode_write_iff beyond hsize (Nat.mod_lt _ (by decide)) (Nat.mod_le _ _) fun h => by rw [h, Nat.zero_mod]

theorem writesAt_same {ip : inode} {pos : Int} {allowed : Bool} {count : Nat} {src : Nat → UInt8} {r : Int} (hr : r ≤ 0)
    (hzero : allowed = true → count = 0 → r = 0) : WritesAt allowed ip pos count src ip r := by
  refine ⟨hzero, by omega, fun hge => ⟨?_, fun k hk => by omega, fun _ _ _ => rfl⟩, fun _ => Same.refl ip⟩
  rw [if_neg (by omega)]

/-- A write of the inode comes back with its count or with -1. -/
theorem inode_write_result (ip : inode) (beyond : Nat → UInt8) (user : pagetable) (addr : Nat) (pos : Int) {n : Nat} (hpos : 0 < n)
    (hn : n < 2 ^ 31) : ∃ ip' r, fat32_inode_write ip beyond user addr (uint pos) n = .ok (ip', r) ∧ (r = n ∨ r = -1) := by
  have hlt := uint_lt pos
  rcases lt_or_ge (uint pos + n) (2 ^ 32) with hfits | hwrap
  swap
  · exact ⟨ip, -1, by rw [fat32_inode_write, if_pos (by omega)], .inr rfl⟩
  have hgood := readable_good user addr n
  rcases Nat.lt_or_eq_of_le hgood.le with hfail | hall
  · obtain ⟨ip', hrun, -⟩ := fat32_inode_write_fails ip beyond hgood hfail hfits
    exact ⟨ip', -1, hrun, .inr rfl⟩
  rw [hall] at hgood
  obtain ⟨ip', hrun, -⟩ := inode_write_all ip beyond hgood hpos hfits
  have hr : int32 n = n := int32_of_range (by simp only [INT_MIN]; omega) (by simp only [INT_MAX]; omega)
  exact ⟨ip', int32 n, hrun, .inl hr⟩

theorem filewrite_none {f : file} (beyond : Nat → UInt8) (user : pagetable) (addr : Nat) {n : Int} (hmode : f.f_writeable = true)
    (hn : n ≤ 0) : fat32_filewrite f beyond user addr n = .ok (f, if 0 = n then n else -1) := by
  rw [fat32_filewrite, if_neg (by rw [hmode]; decide), filewriteLoop, if_neg (by omega)]

/-- A positive `int` count is what the loop of `fat32_filewrite` passes on. -/
theorem write_iff {f : file} (beyond : Nat → UInt8) (user : pagetable) (p count : Nat) (hsize : f.f_inode.i_size < 2 ^ 32) :
    WriteLaw f beyond user p count ↔
      f.f_writeable = false ∨ int32 count ≤ 0 ∨ WriteOk f.f_inode user p f.f_pos (count % 2 ^ 32) := by
  rw [WriteLaw, sys_write]
  rcases hmode : f.f_writeable with _ | _
  · refine iff_of_true ⟨f, -1, ?_, writesAt_same (by decide) fun h => Bool.noConfusion h⟩ (.inl rfl)
    rw [fat32_filewrite, if_pos hmode]
  rw [or_iff_right (by decide)]
  rcases lt_or_ge 0 (int32 count) with hpos | hnone
  swap
  · refine iff_of_true ⟨f, if 0 = int32 count then int32 count else -1, ?_, writesAt_same ?_ fun _ hc => ?_⟩ (.inl hnone)
    · exact filewrite_none beyond user p hmode hnone
    · split
      · omega
      · decide
    · rw [hc]
      rfl
  rw [or_iff_right (by omega)]
  have hcount : (int32 count).toNat = count % 2 ^ 32 ∧ int32 count = ((count % 2 ^ 32 : Nat) : Int) ∧ count % 2 ^ 32 < 2 ^ 31 := by
    rw [int32, Int.bmod] at *
    omega
  obtain ⟨hnat, hint, hsmall⟩ := hcount
  rw [← @inode_write_iff f.f_inode user p (count % 2 ^ 32) beyond f.f_pos true count hsize (Nat.mod_lt _ (by decide)) (Nat.mod_le _ _)
    fun h => by rw [h, Nat.zero_mod]]
  obtain ⟨ip', r, hrun, hr⟩ := inode_write_result f.f_inode beyond user p f.f_pos (by omega : 0 < count % 2 ^ 32) hsmall
  have hcall := fat32_filewrite_of hmode hpos (n := int32 count) (by rw [hint]; exact hr) (by rw [hnat]; exact hrun)
  rw [hcall, hrun]
  constructor
  · rintro ⟨f₁, r₁, heq, h⟩
    cases heq
    exact ⟨_, _, rfl, h⟩
  · rintro ⟨ip₁, r₁, heq, h⟩
    cases heq
    exact ⟨_, _, rfl, h⟩

/-- **64-bit offsets.**  A read or a write acts at its position, or fails without effect, if and only if the cast to `uint`
keeps the position or nothing is done at the other one, a read asks for no block that the allocator has not, and a write finds
something to write and spares the rest of the file. -/
theorem offsets_exact_iff (f : File) (budget : Nat → Nat) (beyond : Nat → UInt8) (user : pagetable) (p count : Nat) (offset : Int)
    (hsize : f.f_inode.i_size < 2 ^ 32) :
    (ReadLaw f budget beyond count ↔
      f.f_readable = false ∨ ReadOk f.f_inode budget beyond f.f_pos (min (count % 2 ^ 32) f.f_inode.i_size)) ∧
    (WriteLaw f.tofile beyond user p count ↔
      f.f_writeable = false ∨ int32 count ≤ 0 ∨ WriteOk f.f_inode user p f.f_pos (count % 2 ^ 32)) ∧
    (PreadLaw f.f_inode budget beyond count offset ↔ ReadOk f.f_inode budget beyond offset (count % 2 ^ 32)) ∧
    (PwriteLaw f.f_inode beyond user p count offset ↔ WriteOk f.f_inode user p offset (count % 2 ^ 32)) :=
  ⟨read_iff budget beyond count hsize, write_iff beyond user p count hsize, pread_iff budget beyond count offset hsize,
    pwrite_iff beyond user p count offset hsize⟩

theorem first_byte_ok : WriteOk two_pages.f_inode one_page 0 0 1 := by
  refine .inr ⟨by decide, ?_⟩
  rw [if_pos (by decide)]
  refine ⟨by decide, fun p _ _ _ _ hhi hzero => ?_⟩
  have hpage : p / PGSIZE = 0 := Nat.le_zero.mp hhi
  rw [hpage] at hzero
  exact absurd hzero (by decide)

theorem first_blocks : Blocks two_pages.f_inode (fun _ => 1) (fun _ => 0) 0 1 := fun _ hpos =>
  not_longGap_of_budget (fun _ => by decide) (by decide) hpos

theorem two_pages_exact :
    ReadLaw ⟨two_pages, true⟩ (fun _ => 1) (fun _ => 0) 1 ∧ WriteLaw two_pages (fun _ => 0) one_page 0 1 ∧
      PreadLaw two_pages.f_inode (fun _ => 1) (fun _ => 0) 1 0 ∧ PwriteLaw two_pages.f_inode (fun _ => 0) one_page 0 1 0 := by
  obtain ⟨hread, hwrite, hpread, hpwrite⟩ :=
    offsets_exact_iff ⟨two_pages, true⟩ (fun _ => 1) (fun _ => 0) one_page 0 1 0 (by decide)
  refine ⟨hread.mpr ?_, hwrite.mpr ?_, hpread.mpr ?_, hpwrite.mpr first_byte_ok⟩
  · exact .inr ⟨first_blocks, .inl (by decide)⟩
  · exact .inr (.inr first_byte_ok)
  · exact ⟨first_blocks, .inl (by decide)⟩

/-- **A byte written at 4 GiB** changes the first byte of the file, and a write of nothing is a panic. -/
theorem far_write_changes_first_byte :
    (∃ ip', sys_pwrite64 two_pages.f_inode (fun _ => 0) one_page 0 1 (2 ^ 32) = .ok (ip', 1) ∧
      contentAt two_pages.f_inode 0 = 7 ∧ contentAt ip' 0 = 9) ∧
    ¬PwriteLaw two_pages.f_inode (fun _ => 0) one_page 0 1 (2 ^ 32) ∧
    ¬PwriteLaw two_pages.f_inode (fun _ => 0) one_page 0 0 0 := by
  refine ⟨⟨_, rfl, rfl, rfl⟩, ?_, ?_⟩
  · rw [pwrite_iff _ _ _ _ _ (by decide)]
    rintro (h | ⟨-, h⟩)
    · exact absurd h (by decide)
    · rw [if_pos (by decide)] at h
      exact absurd h.1 (by decide)
  · rw [pwrite_iff _ _ _ _ _ (by decide)]
    rintro (h | ⟨h, -⟩)
    · exact absurd h (by decide)
    · exact absurd h (by decide)

end LostWakeup.Fs.FileOffsets
