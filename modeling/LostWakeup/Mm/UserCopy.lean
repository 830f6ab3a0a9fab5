/-
# LostWakeup.Mm.UserCopy — `copyin`, `copyout` and `copyinstr`, byte by byte.

The three loops of `vm.c` cut a user's range at the bounds of its pages and translate each part.  Here they are the
loops over single bytes that they stand for: `copyin` is a list of loads, `copyout` to pages that are there and
writable a list of stores, and `copyinstr` stops at the first NUL.
-/
import LostWakeup.Mm.Translation

namespace LostWakeup.Mm.Vm

open Library
open Function (update update_eq_self update_idem update_of_ne update_self)
open Mm.Vma (PGSIZE SUPERPGSIZE PGROUNDDOWN mm_struct)

/-! ## `copyinstr` -/

/-- The inner loop of `copyinstr`: at most `n` bytes of the frame `pa0` from the offset `p` on go to `dst` from `d` on. -/
def copyChars (k : Phys) (pa0 : Nat) : Nat → Nat → (Nat → UInt8) → Nat → (Nat → UInt8) × Bool
  | 0, _, dst, _ => (dst, false)
  | n + 1, p, dst, d =>
    if k.mem pa0 p = 0 then (update dst d 0, true)
    else copyChars k pa0 n (p + 1) (update dst d (k.mem pa0 p)) (d + 1)

/-- The outer loop.  Each turn takes at least one byte, so `max` turns do; `d` is how far `dst` has been moved on. -/
def copyinstrLoop (k : Phys) (pt : PageTable) : Nat → Nat → Nat → (Nat → UInt8) → Nat → (Nat → UInt8) × Bool
  | _, _, 0, dst, _ => (dst, false)
  | 0, _, _, dst, _ => (dst, false)
  | fuel + 1, srcva, max, dst, d =>
    let va0 := PGROUNDDOWN srcva
    let pa0 := (walkaddr pt va0).getD 0
    if pa0 = 0 then
      (dst, false)
    else
      let n := min (PGSIZE - (srcva - va0)) max
      let (dst, got_null) := copyChars k pa0 n (srcva - va0) dst d
      if got_null then (dst, true) else copyinstrLoop k pt fuel (va0 + PGSIZE) (max - n) dst (d + n)

/-- `copyinstr`, with what it leaves in `dst`; `false` is the return value `-1`. -/
def copyinstr (k : Phys) (pt : PageTable) (dst : Nat → UInt8) (srcva max : Nat) : (Nat → UInt8) × Bool :=
  copyinstrLoop k pt max srcva max dst 0

/-! ## Bytes behind user addresses -/

/-- The frame that `walkaddr` finds, and 0 where it finds none. -/
def frameAt (pt : PageTable) (a : Nat) : Nat := (walkaddr pt a).getD 0

def byteAt (k : Phys) (pt : PageTable) (a : Nat) : UInt8 := k.mem (frameAt pt a) (a % PGSIZE)

theorem translate_down (pt : PageTable) (a : Nat) : translate pt (PGROUNDDOWN a) = translate pt a := by
  by_cases hmax : a < MAXVA
  · have hpage : PGROUNDDOWN a / PGSIZE = a / PGSIZE := by
      simp only [PGROUNDDOWN, pgsize_eq]
      omega
    rw [translate_eq pt hmax, translate_eq pt (down_lt_maxva.mpr hmax), place_down, place_down, hpage]
  · rw [translate_of_ge pt (not_lt.mp hmax),
      translate_of_ge pt (not_lt.mp fun h => hmax (down_lt_maxva.mp h))]

theorem frameAt_down (pt : PageTable) (a : Nat) : frameAt pt (PGROUNDDOWN a) = frameAt pt a := by
  rw [frameAt, frameAt, walkaddr_eq, walkaddr_eq, translate_down]

theorem translate_page (pt : PageTable) {a i : Nat} (hi : i < PGSIZE - a % PGSIZE) : translate pt (a + i) = translate pt a := by
  have hpage : PGROUNDDOWN (a + i) = PGROUNDDOWN a := by
    rw [pgsize_eq] at hi
    simp only [PGROUNDDOWN, pgsize_eq]
    omega
  rw [← translate_down, hpage, translate_down]

theorem frameAt_page (pt : PageTable) {a i : Nat} (hi : i < PGSIZE - a % PGSIZE) :
    frameAt pt (a + i) = frameAt pt a ∧ (a + i) % PGSIZE = a % PGSIZE + i := by
  constructor
  · rw [frameAt, frameAt, walkaddr_eq, walkaddr_eq, translate_page pt hi]
  · rw [pgsize_eq] at hi ⊢
    omega

theorem down_eq (a : Nat) : a - PGROUNDDOWN a = a % PGSIZE ∧ PGROUNDDOWN a + PGSIZE = a + (PGSIZE - a % PGSIZE) := by
  simp only [PGROUNDDOWN, pgsize_eq]
  omega

/-! ## `copyin` -/

/-- The bytes of a range. -/
def bytesAt (k : Phys) (pt : PageTable) (va len : Nat) : List UInt8 := (List.range len).map fun i => byteAt k pt (va + i)

theorem bytesAt_add (k : Phys) (pt : PageTable) (va n m : Nat) :
    bytesAt k pt va (n + m) = bytesAt k pt va n ++ bytesAt k pt (va + n) m := by
  simp only [bytesAt, List.range_add, List.map_append, List.map_map, Function.comp_def, Nat.add_assoc]

theorem bytesAt_page (k : Phys) (pt : PageTable) {va n : Nat} (hn : n ≤ PGSIZE - va % PGSIZE) :
    bytesAt k pt va n = (List.range n).map fun i => k.mem (frameAt pt va) (va % PGSIZE + i) := by
  apply List.map_congr_left
  intro i hi
  rw [List.mem_range] at hi
  obtain ⟨hframe, hoff⟩ := frameAt_page pt (hi.trans_le hn)
  rw [byteAt, hframe, hoff]

/-- Every page of the range is there. -/
def AllMapped (pt : PageTable) (va len : Nat) : Prop := ∀ i, i < len → frameAt pt (va + i) ≠ 0

theorem copyinLoop_turn (k : Phys) (pt : PageTable) (fuel va len : Nat) {n : Nat} (hn : n = min (PGSIZE - va % PGSIZE) (len + 1)) :
    copyinLoop k pt (fuel + 1) va (len + 1) = if frameAt pt va = 0 then none
      else (copyinLoop k pt fuel (PGROUNDDOWN va + PGSIZE) (len + 1 - n)).map (bytesAt k pt va n ++ ·) := by
  have hnle : n ≤ PGSIZE - va % PGSIZE := by omega
  rw [bytesAt_page k pt hnle, ← frameAt_down, hn, ← (down_eq va).1]
  rfl

theorem copyinLoop_eq (k : Phys) (pt : PageTable) {fuel va len : Nat} (hfuel : len ≤ fuel) :
    (AllMapped pt va len → copyinLoop k pt fuel va len = some (bytesAt k pt va len)) ∧
    (¬AllMapped pt va len → copyinLoop k pt fuel va len = none) := by
  induction fuel generalizing va len with
  | zero =>
    obtain rfl : len = 0 := Nat.le_zero.mp hfuel
    refine ⟨fun _ => rfl, fun h => absurd (fun i hi => ?_) h⟩
    exact absurd hi (Nat.not_lt_zero i)
  | succ fuel ih =>
    rcases len with _ | len
    · refine ⟨fun _ => rfl, fun h => absurd (fun i hi => ?_) h⟩
      exact absurd hi (Nat.not_lt_zero i)
    obtain ⟨-, hnext⟩ := down_eq va
    have hpage : va % PGSIZE < PGSIZE := Nat.mod_lt _ (by decide)
    obtain ⟨n, hn⟩ : ∃ n, n = min (PGSIZE - va % PGSIZE) (len + 1) := ⟨_, rfl⟩
    have hnle : n ≤ PGSIZE - va % PGSIZE := by omega
    have hlen : n + (len + 1 - n) = len + 1 := by omega
    rw [copyinLoop_turn k pt fuel va len hn]
    by_cases hzero : frameAt pt va = 0
    · rw [if_pos hzero]
      exact ⟨fun h => absurd hzero (h 0 (Nat.succ_pos len)), fun _ => rfl⟩
    rw [if_neg hzero]
    -- the rest of the range begins on the next page, if there is one
    have hrest := @ih (PGROUNDDOWN va + PGSIZE) (len + 1 - n) (by omega)
    have hmapped : AllMapped pt va (len + 1) ↔ AllMapped pt (PGROUNDDOWN va + PGSIZE) (len + 1 - n) := by
      constructor
      · intro h i hi
        have heq : PGROUNDDOWN va + PGSIZE + i = va + (n + i) := by omega
        rw [heq]
        exact h (n + i) (by omega)
      intro h i hi
      rcases lt_or_ge i n with hlt | hge
      · rw [(frameAt_page pt (hlt.trans_le hnle)).1]
        exact hzero
      · have heq : va + i = PGROUNDDOWN va + PGSIZE + (i - n) := by omega
        rw [heq]
        exact h (i - n) (by omega)
    have hbytes : bytesAt k pt va (len + 1) = bytesAt k pt va n ++ bytesAt k pt (PGROUNDDOWN va + PGSIZE) (len + 1 - n) := by
      rw [← hlen, bytesAt_add, hlen]
      rcases Nat.eq_zero_or_pos (len + 1 - n) with hz | hpos
      · rw [hz]
        rfl
      · rw [show va + n = PGROUNDDOWN va + PGSIZE by omega]
    rw [hmapped, hbytes]
    constructor
    · intro h
      rw [hrest.1 h]
      rfl
    · intro h
      rw [hrest.2 h]
      rfl

theorem copyin_of_mapped (k : Phys) {pt : PageTable} {va len : Nat} (h : AllMapped pt va len) :
    copyin k pt va len = some (bytesAt k pt va len) :=
  (copyinLoop_eq k pt le_rfl).1 h

/-! ## `copyout` -/

/-- Stores of single bytes, from `va` on. -/
def pokes (pt : PageTable) : Phys → Nat → List UInt8 → Phys
  | k, _, [] => k
  | k, va, byte :: src => pokes pt (k.setByte (frameAt pt va) (va % PGSIZE) byte) (va + 1) src

theorem pokes_append (pt : PageTable) (k : Phys) (va : Nat) (src src' : List UInt8) :
    pokes pt k va (src ++ src') = pokes pt (pokes pt k va src) (va + src.length) src' := by
  induction src generalizing k va with
  | nil => rfl
  | cons byte src ih =>
    rw [List.length_cons, Nat.add_comm src.length, ← Nat.add_assoc]
    exact ih _ _

theorem setBytes_nil (k : Phys) (frame off : Nat) : k.setBytes frame off [] = k := by
  have hsame : (fun i => if off ≤ i then (([] : List UInt8)[i - off]?).getD (k.mem frame i) else k.mem frame i) =
      k.mem frame := by
    funext i
    split <;> rfl
  rw [Phys.setBytes, hsame, update_eq_self]

theorem setByte_mem (k : Phys) (frame off : Nat) (byte : UInt8) (f p : Nat) :
    (k.setByte frame off byte).mem f p = if f = frame ∧ p = off then byte else k.mem f p := by
  rcases eq_or_ne f frame with rfl | hne
  · rcases eq_or_ne p off with rfl | hne
    · rw [if_pos ⟨rfl, rfl⟩, Phys.setByte]
      exact (congrFun (update_self _ _ _) _).trans (update_self _ _ _)
    · rw [if_neg fun h => hne h.2, Phys.setByte]
      exact (congrFun (update_self _ _ _) _).trans (update_of_ne hne _ _)
  · rw [if_neg fun h => hne h.1, Phys.setByte]
    exact congrFun (update_of_ne hne _ _) _

theorem setBytes_cons (k : Phys) (frame off : Nat) (byte : UInt8) (bytes : List UInt8) :
    k.setBytes frame off (byte :: bytes) = (k.setByte frame off byte).setBytes frame (off + 1) bytes := by
  have hmem : (k.setByte frame off byte).mem frame = update (k.mem frame) off byte :=
    update_self frame _ k.mem
  rw [Phys.setBytes, Phys.setBytes, hmem, Phys.setByte, update_idem]
  congr 1
  congr 1
  funext i
  rcases Nat.lt_trichotomy i off with hlt | rfl | hgt
  · rw [if_neg hlt.not_ge, if_neg (by omega), update_of_ne hlt.ne]
  · rw [if_pos le_rfl, if_neg (by omega), update_self, Nat.sub_self]
    rfl
  · rw [if_pos hgt.le, if_pos (Nat.succ_le_of_lt hgt), update_of_ne hgt.ne',
      show i - off = i - (off + 1) + 1 by omega, List.getElem?_cons_succ]

theorem setBytes_page (k : Phys) (pt : PageTable) {va : Nat} {bytes : List UInt8}
    (hlen : bytes.length ≤ PGSIZE - va % PGSIZE) :
    k.setBytes (frameAt pt va) (va % PGSIZE) bytes = pokes pt k va bytes := by
  induction bytes generalizing k va with
  | nil => exact setBytes_nil k _ _
  | cons byte bytes ih =>
    rw [setBytes_cons]
    rcases bytes with _ | ⟨next, bytes⟩
    · exact setBytes_nil _ _ _
    rw [List.length_cons, List.length_cons] at hlen
    obtain ⟨hframe, hoff⟩ := @frameAt_page pt va 1 (by omega)
    have hrest := @ih (k.setByte (frameAt pt va) (va % PGSIZE) byte) (va + 1)
      (by rw [List.length_cons, hoff]; omega)
    rw [hframe, hoff] at hrest
    exact hrest

/-- The user may write to the page of `a`. -/
def WritableAt (pt : PageTable) (a : Nat) : Prop := ∃ frame, frame ≠ 0 ∧ writable pt a = some frame

/-- Every page of the range is there and writable. -/
def AllWritable (pt : PageTable) (va len : Nat) : Prop := ∀ i, i < len → WritableAt pt (va + i)

theorem frameAt_of_writable {pt : PageTable} {a frame : Nat} (h : writable pt a = some frame) : frameAt pt a = frame := by
  obtain ⟨flags, ht, -⟩ := translate_of_writable h
  rw [frameAt, walkaddr_eq, ht]
  rfl

theorem AllWritable.mapped {pt : PageTable} {va len : Nat} (h : AllWritable pt va len) : AllMapped pt va len := by
  intro i hi
  obtain ⟨frame, hne, hframe⟩ := h i hi
  rw [frameAt_of_writable hframe]
  exact hne

/-- A page that may be written stays as it is. -/
theorem copyoutPage_of_writable (files : Files) (mm : mm_struct) (k : Phys) {pt : PageTable} {va : Nat}
    (h : WritableAt pt va) : copyoutPage files mm k pt va = .ok (k, pt, true) := by
  obtain ⟨frame, -, h⟩ := h
  obtain ⟨flags, ht, hw⟩ := translate_of_writable h
  obtain ⟨hmax, level, hflags, hv, -⟩ := translate_iff.mp ht
  have hpte : pt.leafAt (place (PGROUNDDOWN va) level) ≠ Pte.zero := by
    intro heq
    rw [place_down] at heq
    rw [heq] at hflags
    rw [← hflags] at hv
    exact absurd hv (by decide)
  have hwalk := walk_of_leafAt (down_lt_maxva.mpr hmax) hpte
  have hpresent : copyoutPresent files mm k pt va = .ok (k, pt, true) := by
    unfold copyoutPresent
    rw [hwalk, ok_bind]
    exact if_neg hpte
  have hflags : (pt.leafAt (place (PGROUNDDOWN va) level)).flags.has PTE_W = true := by rw [place_down, hflags, hw]
  unfold copyoutPage
  rw [hpresent, ok_bind]
  dsimp only
  rw [if_neg Bool.true_eq_false.mp, hwalk, ok_bind]
  refine if_neg fun hcow => ?_
  rw [hflags] at hcow
  cases hcow.1

theorem copyoutLoop_turn (files : Files) (mm : mm_struct) (k : Phys) {pt : PageTable} (fuel : Nat) {va : Nat}
    {src : List UInt8} (hsrc : src ≠ []) (h : WritableAt pt va) :
    copyoutLoop files mm (fuel + 1) k pt va src =
      copyoutLoop files mm fuel (pokes pt k va (src.take (PGSIZE - va % PGSIZE))) pt (PGROUNDDOWN va + PGSIZE)
        (src.drop (PGSIZE - va % PGSIZE)) := by
  have hmax : ¬PGROUNDDOWN va ≥ MAXVA := by
    obtain ⟨frame, -, hframe⟩ := h
    obtain ⟨flags, ht, -⟩ := translate_of_writable hframe
    exact not_le.mpr (down_lt_maxva.mpr (translate_iff.mp ht).1)
  have hframe : frameAt pt va ≠ 0 := by
    obtain ⟨frame, hne, hframe⟩ := h
    rw [frameAt_of_writable hframe]
    exact hne
  have hdown : (walkaddr pt (PGROUNDDOWN va)).getD 0 = frameAt pt va := frameAt_down pt va
  have hbytes := @setBytes_page k pt va (src.take (PGSIZE - va % PGSIZE)) (List.length_take_le _ _)
  obtain ⟨byte, src, rfl⟩ := List.exists_cons_of_ne_nil hsrc
  rw [copyoutLoop, if_neg hmax, copyoutPage_of_writable files mm k h, ok_bind]
  dsimp only
  rw [if_neg Bool.true_eq_false.mp, (down_eq va).1, ← hbytes]
  · rw [hdown, if_neg hframe]
  · exact hsrc

/-- To pages that may be written `copyout` is a sequence of stores. -/
theorem copyoutLoop_eq (files : Files) (mm : mm_struct) (k : Phys) {pt : PageTable} {fuel va : Nat} {src : List UInt8}
    (hfuel : src.length ≤ fuel) (h : AllWritable pt va src.length) :
    copyoutLoop files mm fuel k pt va src = .ok (pokes pt k va src, pt, true) := by
  induction fuel generalizing k va src with
  | zero =>
    obtain rfl : src = [] := List.length_eq_zero_iff.mp (Nat.le_zero.mp hfuel)
    rfl
  | succ fuel ih =>
    rcases eq_or_ne src [] with rfl | hsrc
    · rfl
    have hpos : 0 < src.length := List.length_pos_of_ne_nil hsrc
    obtain ⟨-, hnext⟩ := down_eq va
    have hpage : va % PGSIZE < PGSIZE := Nat.mod_lt _ (by decide)
    have hfirst : WritableAt pt va := h 0 hpos
    rw [copyoutLoop_turn files mm k fuel hsrc hfirst, hnext]
    rw [ih _ (by rw [List.length_drop]; omega) ?_]
    · -- the rest is empty, or the page has been filled to its end
      rcases lt_or_ge src.length (PGSIZE - va % PGSIZE) with hlt | hge
      · rw [List.take_of_length_le hlt.le, List.drop_of_length_le hlt.le]
        rfl
      · have happ := pokes_append pt k va (src.take (PGSIZE - va % PGSIZE)) (src.drop (PGSIZE - va % PGSIZE))
        rw [List.length_take_of_le hge, List.take_append_drop] at happ
        rw [happ]
    · intro i hi
      rw [List.length_drop] at hi
      rw [Nat.add_assoc]
      exact h _ (by omega)

theorem copyout_of_writable (files : Files) (mm : mm_struct) (k : Phys) {pt : PageTable} {va : Nat} {src : List UInt8}
    (h : AllWritable pt va src.length) : copyout files mm k pt va src = .ok (pokes pt k va src, pt, true) :=
  copyoutLoop_eq files mm k le_rfl h

theorem pokes_eq (pt : PageTable) (k : Phys) (va : Nat) (src : List UInt8) :
    pokes pt k va src = { k with mem := (pokes pt k va src).mem } := by
  induction src generalizing k va with
  | nil => rfl
  | cons byte src ih => exact ih (k.setByte (frameAt pt va) (va % PGSIZE) byte) (va + 1)

/-- The byte at `p` of `frame` is the one behind the address `a`. -/
def Behind (pt : PageTable) (a frame p : Nat) : Prop := frame = frameAt pt a ∧ p = a % PGSIZE

/-- Of the stores to one byte the last one counts. -/
theorem pokes_mem (pt : PageTable) (k : Phys) (va : Nat) (src : List UInt8) (frame p : Nat) :
    (∃ i, ∃ hi : i < src.length, Behind pt (va + i) frame p ∧ (pokes pt k va src).mem frame p = src[i]) ∨
      (∀ i < src.length, ¬Behind pt (va + i) frame p) ∧ (pokes pt k va src).mem frame p = k.mem frame p := by
  induction src generalizing k va with
  | nil => exact .inr ⟨fun i hi => absurd hi (Nat.not_lt_zero i), rfl⟩
  | cons byte src ih =>
    have hnext : ∀ i, va + (i + 1) = va + 1 + i := by
      intro i
      omega
    rcases ih (k.setByte (frameAt pt va) (va % PGSIZE) byte) (va + 1) with ⟨i, hi, hbehind, hmem⟩ | ⟨hnot, hmem⟩
    · refine .inl ⟨i + 1, Nat.succ_lt_succ hi, ?_, hmem⟩
      rw [hnext]
      exact hbehind
    by_cases hhere : Behind pt va frame p
    · obtain ⟨rfl, rfl⟩ := hhere
      exact .inl ⟨0, Nat.succ_pos _, ⟨rfl, rfl⟩, hmem.trans ((setByte_mem _ _ _ _ _ _).trans (if_pos ⟨rfl, rfl⟩))⟩
    refine .inr ⟨fun i hi => ?_, hmem.trans ?_⟩
    · rcases i with _ | i
      · exact hhere
      · rw [hnext]
        exact hnot i (Nat.lt_of_succ_lt_succ hi)
    · exact (setByte_mem _ _ _ _ _ _).trans (if_neg hhere)

/-- Where two addresses of the range are the same byte of memory, they get the same byte. -/
def Agree (pt : PageTable) (va : Nat) (src : List UInt8) : Prop :=
  ∀ i j, ∀ (hi : i < src.length) (hj : j < src.length),
    frameAt pt (va + i) = frameAt pt (va + j) → (va + i) % PGSIZE = (va + j) % PGSIZE → src[i] = src[j]

theorem bytesAt_pokes_iff (pt : PageTable) (k : Phys) (va : Nat) (src : List UInt8) :
    bytesAt (pokes pt k va src) pt va src.length = src ↔ Agree pt va src := by
  have hget : ∀ (k : Phys) (i : Nat) (hi : i < (bytesAt k pt va src.length).length),
      (bytesAt k pt va src.length)[i] = byteAt k pt (va + i) := by
    intro k i hi
    simp only [bytesAt, List.getElem_map, List.getElem_range]
  have hlen : ∀ k : Phys, (bytesAt k pt va src.length).length = src.length := by
    intro k
    rw [bytesAt, List.length_map, List.length_range]
  constructor
  · intro h i j hi hj hframe hoff
    have hread : ∀ i, ∀ hi : i < src.length, byteAt (pokes pt k va src) pt (va + i) = src[i] := by
      intro i hi
      rw [← hget _ i (by rw [hlen]; exact hi)]
      congr 1
    rw [← hread i hi, ← hread j hj, byteAt, byteAt, hframe, hoff]
  · intro h
    refine List.ext_getElem (hlen _) fun i hi hi' => ?_
    rw [hget, byteAt]
    rcases pokes_mem pt k va src (frameAt pt (va + i)) ((va + i) % PGSIZE) with ⟨j, hj, hbehind, hmem⟩ | ⟨hnot, -⟩
    · rw [hmem]
      exact (h i j hi' hj hbehind.1 hbehind.2).symm
    · exact absurd ⟨rfl, rfl⟩ (hnot i hi')

/-! ## `copyinstr` byte by byte -/

/-- One loop over the characters, each looked up for itself. -/
def scan (k : Phys) (pt : PageTable) : Nat → Nat → (Nat → UInt8) → Nat → (Nat → UInt8) × Bool
  | 0, _, dst, _ => (dst, false)
  | max + 1, va, dst, d =>
    if frameAt pt va = 0 then (dst, false)
    else if byteAt k pt va = 0 then (update dst d 0, true)
    else scan k pt max (va + 1) (update dst d (byteAt k pt va)) (d + 1)

/-- A part of a page. -/
theorem scan_page (k : Phys) (pt : PageTable) {va n : Nat} (m : Nat) (dst : Nat → UInt8) (d : Nat)
    (hn : n ≤ PGSIZE - va % PGSIZE) (hframe : frameAt pt va ≠ 0) :
    scan k pt (n + m) va dst d =
      if (copyChars k (frameAt pt va) n (va % PGSIZE) dst d).2 = true then
        copyChars k (frameAt pt va) n (va % PGSIZE) dst d
      else scan k pt m (va + n) (copyChars k (frameAt pt va) n (va % PGSIZE) dst d).1 (d + n) := by
  induction n generalizing va dst d with
  | zero => rw [Nat.zero_add, copyChars, if_neg Bool.false_ne_true, Nat.add_zero, Nat.add_zero]
  | succ n ih =>
    rw [Nat.add_right_comm, scan, if_neg hframe, copyChars]
    by_cases hnul : byteAt k pt va = 0
    · rw [if_pos hnul, if_pos (show k.mem (frameAt pt va) (va % PGSIZE) = 0 from hnul), if_pos rfl]
    rw [if_neg hnul, if_neg (show ¬k.mem (frameAt pt va) (va % PGSIZE) = 0 from hnul)]
    rcases n with _ | n
    · rw [Nat.zero_add, copyChars, if_neg Bool.false_ne_true, Nat.zero_add]
      rfl
    obtain ⟨hnext, hoff⟩ := @frameAt_page pt va 1 (by omega)
    have hrest := @ih (va + 1) (update dst d (byteAt k pt va)) (d + 1) (by omega) (by rw [hnext]; exact hframe)
    rw [hnext, hoff, Nat.add_right_comm va 1, Nat.add_right_comm d 1] at hrest
    exact hrest

theorem copyinstrLoop_turn (k : Phys) (pt : PageTable) (fuel va max : Nat) (dst : Nat → UInt8) (d : Nat) :
    copyinstrLoop k pt (fuel + 1) va (max + 1) dst d =
      if frameAt pt va = 0 then (dst, false)
      else
        let n := min (PGSIZE - va % PGSIZE) (max + 1)
        if (copyChars k (frameAt pt va) n (va % PGSIZE) dst d).2 = true then
          ((copyChars k (frameAt pt va) n (va % PGSIZE) dst d).1, true)
        else copyinstrLoop k pt fuel (PGROUNDDOWN va + PGSIZE) (max + 1 - n)
          (copyChars k (frameAt pt va) n (va % PGSIZE) dst d).1 (d + n) := by
  rw [← frameAt_down, ← (down_eq va).1]
  rfl

theorem copyinstrLoop_eq (k : Phys) (pt : PageTable) {fuel va max : Nat} (dst : Nat → UInt8) (d : Nat)
    (hfuel : max ≤ fuel) : copyinstrLoop k pt fuel va max dst d = scan k pt max va dst d := by
  induction fuel generalizing va max dst d with
  | zero =>
    obtain rfl : max = 0 := Nat.le_zero.mp hfuel
    rfl
  | succ fuel ih =>
    rcases max with _ | max
    · rfl
    rw [copyinstrLoop_turn]
    by_cases hframe : frameAt pt va = 0
    · rw [if_pos hframe, scan, if_pos hframe]
    rw [if_neg hframe]
    dsimp only
    obtain ⟨-, hnext⟩ := down_eq va
    have hpage : va % PGSIZE < PGSIZE := Nat.mod_lt _ (by decide)
    obtain ⟨n, hn⟩ : ∃ n, n = min (PGSIZE - va % PGSIZE) (max + 1) := ⟨_, rfl⟩
    have hsplit := scan_page k pt (max + 1 - n) dst d (by omega : n ≤ PGSIZE - va % PGSIZE) hframe
    rw [Nat.add_sub_cancel' (by omega)] at hsplit
    rw [hsplit, ← hn, ih _ _ (by omega)]
    by_cases hnul : (copyChars k (frameAt pt va) n (va % PGSIZE) dst d).2 = true
    · rw [if_pos hnul, if_pos hnul, ← hnul]
    rw [if_neg hnul, if_neg hnul, hnext]
    rcases Nat.eq_zero_or_pos (max + 1 - n) with hz | hpos
    · rw [hz]
      rfl
    · rw [show PGSIZE - va % PGSIZE = n by omega]

/-- The string at `va` ends at its character `n`. -/
structure EndsAt (k : Phys) (pt : PageTable) (va n : Nat) : Prop where
  mapped : ∀ i, i ≤ n → frameAt pt (va + i) ≠ 0
  nul : byteAt k pt (va + n) = 0
  chars : ∀ i, i < n → byteAt k pt (va + i) ≠ 0

theorem endsAt_succ {k : Phys} {pt : PageTable} {va n : Nat} :
    EndsAt k pt va (n + 1) ↔ frameAt pt va ≠ 0 ∧ byteAt k pt va ≠ 0 ∧ EndsAt k pt (va + 1) n := by
  have hnext : ∀ i, va + (i + 1) = va + 1 + i := by
    intro i
    omega
  constructor
  · intro h
    refine ⟨h.mapped 0 (Nat.zero_le _), h.chars 0 (Nat.succ_pos n), fun i hi => ?_, ?_, fun i hi => ?_⟩
    · rw [← hnext]
      exact h.mapped _ (Nat.succ_le_succ hi)
    · rw [← hnext]
      exact h.nul
    · rw [← hnext]
      exact h.chars _ (Nat.succ_lt_succ hi)
  · rintro ⟨hframe, hbyte, h⟩
    refine ⟨fun i hi => ?_, ?_, fun i hi => ?_⟩
    · rcases i with _ | i
      · exact hframe
      · rw [hnext]
        exact h.mapped _ (Nat.le_of_succ_le_succ hi)
    · rw [hnext]
      exact h.nul
    · rcases i with _ | i
      · exact hbyte
      · rw [hnext]
        exact h.chars _ (Nat.lt_of_succ_lt_succ hi)

theorem scan_ends {k : Phys} {pt : PageTable} {va max n : Nat} (dst : Nat → UInt8) (d : Nat) (hn : n < max)
    (h : EndsAt k pt va n) :
    scan k pt max va dst d = (fun j => if d ≤ j ∧ j ≤ d + n then byteAt k pt (va + (j - d)) else dst j, true) := by
  induction max generalizing va n dst d with
  | zero => exact absurd hn (Nat.not_lt_zero n)
  | succ max ih =>
    have hframe : frameAt pt va ≠ 0 := h.mapped 0 (Nat.zero_le n)
    rw [scan, if_neg hframe]
    rcases n with _ | n
    · have hnul : byteAt k pt va = 0 := h.nul
      rw [if_pos hnul]
      congr 1
      funext j
      rcases eq_or_ne j d with rfl | hne
      · rw [update_self, if_pos ⟨Nat.le_refl j, Nat.le_refl j⟩, Nat.sub_self]
        exact hnul.symm
      · rw [update_of_ne hne, if_neg (by omega)]
    · obtain ⟨-, hbyte, hrest⟩ := endsAt_succ.mp h
      rw [if_neg hbyte, ih _ _ (Nat.lt_of_succ_lt_succ hn) hrest]
      congr 1
      funext j
      rcases Nat.lt_trichotomy j d with hlt | rfl | hgt
      · rw [if_neg (by omega), if_neg (by omega), update_of_ne hlt.ne]
      · rw [if_neg (by omega), if_pos ⟨Nat.le_refl j, by omega⟩, update_self, Nat.sub_self]
        rfl
      · rw [show va + 1 + (j - (d + 1)) = va + (j - d) by omega, update_of_ne hgt.ne']
        by_cases hle : j ≤ d + (n + 1)
        · rw [if_pos (by omega), if_pos (by omega)]
        · rw [if_neg (by omega), if_neg (by omega)]

theorem scan_goes_on {k : Phys} {pt : PageTable} {va max : Nat} (dst : Nat → UInt8) (d : Nat)
    (h : ∀ n < max, ¬EndsAt k pt va n) : (scan k pt max va dst d).2 = false := by
  induction max generalizing va dst d with
  | zero => rfl
  | succ max ih =>
    rw [scan]
    by_cases hframe : frameAt pt va = 0
    · rw [if_pos hframe]
    rw [if_neg hframe]
    by_cases hbyte : byteAt k pt va = 0
    · refine absurd ⟨fun i hi => ?_, hbyte, fun i hi => absurd hi (Nat.not_lt_zero i)⟩ (h 0 (Nat.succ_pos max))
      rw [Nat.le_zero.mp hi]
      exact hframe
    · rw [if_neg hbyte]
      exact ih _ _ fun n hn hends => h (n + 1) (Nat.succ_lt_succ hn) (endsAt_succ.mpr ⟨hframe, hbyte, hends⟩)

theorem endsAt_of_nul {k : Phys} {pt : PageTable} {va n : Nat} (hmapped : ∀ i ≤ n, frameAt pt (va + i) ≠ 0)
    (hnul : byteAt k pt (va + n) = 0) : ∃ m ≤ n, EndsAt k pt va m := by
  have hex : ∃ m, byteAt k pt (va + m) = 0 := ⟨n, hnul⟩
  have hle : Nat.find hex ≤ n := Nat.find_min' hex hnul
  exact ⟨Nat.find hex, hle, fun i hi => hmapped i (hi.trans hle), Nat.find_spec hex, fun i hi => Nat.find_min hex hi⟩

theorem copyinstr_eq (k : Phys) (pt : PageTable) (dst : Nat → UInt8) (va max : Nat) :
    copyinstr k pt dst va max = scan k pt max va dst 0 := copyinstrLoop_eq k pt dst 0 le_rfl

theorem copyinstr_iff (k : Phys) (pt : PageTable) (dst : Nat → UInt8) (va max : Nat) :
    (copyinstr k pt dst va max).2 = true ↔
      ∃ n < max, (∀ i ≤ n, frameAt pt (va + i) ≠ 0) ∧ byteAt k pt (va + n) = 0 := by
  rw [copyinstr_eq]
  constructor
  · intro h
    by_contra hnone
    have hno : ∀ n < max, ¬EndsAt k pt va n := fun n hn hends => hnone ⟨n, hn, hends.mapped, hends.nul⟩
    rw [scan_goes_on dst 0 hno] at h
    cases h
  · rintro ⟨n, hn, hmapped, hnul⟩
    obtain ⟨m, hm, hends⟩ := endsAt_of_nul hmapped hnul
    rw [scan_ends dst 0 (hm.trans_lt hn) hends]

theorem copyinstr_dst (k : Phys) {pt : PageTable} (dst : Nat → UInt8) {va max n : Nat} (hn : n < max)
    (h : EndsAt k pt va n) :
    (copyinstr k pt dst va max).1 = fun j => if j ≤ n then byteAt k pt (va + j) else dst j := by
  rw [copyinstr_eq, scan_ends dst 0 hn h]
  funext j
  simp only [Nat.zero_le, true_and, Nat.zero_add, Nat.sub_zero]

/-! ## The round trip -/

/-- **User copies.** A buffer comes back as it was where no byte of memory was to hold two of its bytes, and nothing
else is written; a string is found where its NUL is reached in time, and `dst` gets it and no more. -/
theorem user_copies :
    (∀ (files : Files) (mm : mm_struct) (k : Phys) (pt : PageTable) (va : Nat) (src : List UInt8),
      AllWritable pt va src.length → ∃ mem,
        copyout files mm k pt va src = .ok ({ k with mem := mem }, pt, true) ∧
        (copyin { k with mem := mem } pt va src.length = some src ↔ Agree pt va src) ∧
        ∀ frame p, (∀ i < src.length, ¬Behind pt (va + i) frame p) → mem frame p = k.mem frame p) ∧
    ∀ (k : Phys) (pt : PageTable) (dst : Nat → UInt8) (va max : Nat),
      ((copyinstr k pt dst va max).2 = true ↔
        ∃ n < max, (∀ i ≤ n, frameAt pt (va + i) ≠ 0) ∧ byteAt k pt (va + n) = 0) ∧
      ∀ n < max, EndsAt k pt va n →
        (copyinstr k pt dst va max).1 = fun j => if j ≤ n then byteAt k pt (va + j) else dst j := by
  refine ⟨fun files mm k pt va src h => ?_, fun k pt dst va max => ⟨copyinstr_iff k pt dst va max, fun n hn hends => ?_⟩⟩
  · have heq := pokes_eq pt k va src
    refine ⟨(pokes pt k va src).mem, ?_, ?_, fun frame p hnot => ?_⟩
    · rw [← heq]
      exact copyout_of_writable files mm k h
    · rw [← heq, copyin_of_mapped _ h.mapped, Option.some_inj]
      exact bytesAt_pokes_iff pt k va src
    · rcases pokes_mem pt k va src frame p with ⟨i, hi, hbehind, -⟩ | ⟨-, hmem⟩
      · exact absurd hbehind (hnot i hi)
      · exact hmem
  · exact copyinstr_dst k dst hn hends

/-- The pages at 0x1000 and 0x2000 are one frame. -/
def aliased : PageTable :=
  { uvmcreate with
    dir := fun r => if r = region 0 then
        .table 1 fun s => if s = slot 0x1000 ∨ s = slot 0x2000 then ⟨5, PTE_V ||| PTE_U ||| PTE_R ||| PTE_W⟩ else Pte.zero
      else .none }

theorem translate_aliased {a : Nat} (hlo : 0x1000 ≤ a) (hhi : a < 0x3000) :
    translate aliased a = some (5, PTE_V ||| PTE_U ||| PTE_R ||| PTE_W) := by
  have hpage : PGROUNDDOWN a = 0x1000 ∨ PGROUNDDOWN a = 0x2000 := by
    simp only [PGROUNDDOWN, pgsize_eq]
    omega
  rw [← translate_down]
  rcases hpage with h | h
  · rw [h]
    rfl
  · rw [h]
    rfl

theorem aliased_writable {va len : Nat} (hlo : 0x1000 ≤ va) (hhi : va + len ≤ 0x3000) : AllWritable aliased va len := by
  intro i hi
  refine ⟨5, by decide, ?_⟩
  rw [writable, translate_aliased (by omega) (by omega)]
  rfl

theorem frameAt_aliased {a : Nat} (hlo : 0x1000 ≤ a) (hhi : a < 0x3000) : frameAt aliased a = 5 := by
  rw [frameAt, walkaddr_eq, translate_aliased hlo hhi]
  rfl

/-- Two characters and a NUL on the next page. -/
def strings : Phys := { twoFrames with mem := fun _ p => if p = 0 then 0 else 65 }

theorem strings_end : EndsAt strings aliased 0x1ffe 2 := by
  have hbyte : ∀ i, i ≤ 2 → byteAt strings aliased (0x1ffe + i) = if (0x1ffe + i) % PGSIZE = 0 then 0 else 65 := by
    intro i hi
    rfl
  refine ⟨fun i hi => ?_, hbyte 2 (Nat.le_refl 2), fun i hi => ?_⟩
  · rw [frameAt_aliased (by omega) (by omega)]
    decide
  · rw [hbyte i hi.le, if_neg (by rw [pgsize_eq]; omega)]
    decide

theorem user_copies_aliased :
    (∃ mem, copyout (fun _ _ => none) System.heapSpace strings aliased 0x1fff [1, 2] = .ok ({ strings with mem := mem }, aliased, true) ∧
      copyin { strings with mem := mem } aliased 0x1fff 2 = some [1, 2]) ∧
    (copyinstr strings aliased (fun _ => 1) 0x1ffe 3).1 =
      fun j => if j ≤ 2 then byteAt strings aliased (0x1ffe + j) else 1 := by
  obtain ⟨hcopy, hstr⟩ := user_copies
  obtain ⟨mem, hout, hin, -⟩ := hcopy (fun _ _ => none) System.heapSpace strings aliased 0x1fff [1, 2]
    (aliased_writable (by decide) (by decide))
  refine ⟨⟨mem, hout, hin.mpr ?_⟩, (hstr strings aliased (fun _ => 1) 0x1ffe 3).2 2 (by decide) strings_end⟩
  intro i j hi hj _ hoff
  rw [pgsize_eq] at hoff
  have hi : i < 2 := hi
  have hj : j < 2 := hj
  obtain rfl : i = j := by omega
  rfl

/-- With two pages in one frame the buffer does not come back. -/
theorem aliased_buffer_changes : ¬∀ (files : Files) (mm : mm_struct) (k k' : Phys) (pt pt' : PageTable) (va : Nat)
    (src : List UInt8), AllWritable pt va src.length → copyout files mm k pt va src = .ok (k', pt', true) →
      copyin k' pt' va src.length = some src := by
  intro h
  have hlen : (1 :: List.replicate 4096 (0 : UInt8)).length = 4097 := by
    rw [List.length_cons, List.length_replicate]
  have hw : AllWritable aliased 0x1000 (1 :: List.replicate 4096 (0 : UInt8)).length := by
    rw [hlen]
    exact aliased_writable (by decide) (by decide)
  have hin := h (fun _ _ => none) System.heapSpace strings _ aliased aliased 0x1000 _ hw (copyout_of_writable _ _ strings hw)
  rw [copyin_of_mapped _ hw.mapped, Option.some_inj, bytesAt_pokes_iff] at hin
  have hbyte := hin 0 4096 (by omega) (by omega)
    ((frameAt_aliased (by decide) (by decide)).trans (frameAt_aliased (by decide) (by decide)).symm) (by decide)
  rw [List.getElem_cons_zero, List.getElem_cons_succ, List.getElem_replicate] at hbyte
  exact absurd hbyte (by decide)

end LostWakeup.Mm.Vm
