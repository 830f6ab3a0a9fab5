/-
# LostWakeup.Mm.Copyout — which bytes `copyout` writes.

A turn of `copyout` looks at a page, has it faulted in or copied, and writes to it.  Two of the turns go wrong: after a
fault that made a table for the page, the null pointer of the `walk` before is read; and a page that may not be written
and is not to be copied is written all the same.
-/
import LostWakeup.Mm.Faults
import LostWakeup.Mm.UserCopy

namespace LostWakeup.Mm.Vm

open Library
open Function (update update_of_ne update_self)
open Mm.Vma (PGSIZE SUPERPGSIZE PGROUNDUP PGROUNDDOWN PERM_READ PERM_WRITE vma mm_struct find_vma_for_va)

/-! ## The property -/

/-- The bytes are behind addresses that the user may write, another address reads as before, and so do the blocks of
other holders that the user could not write. -/
structure Written (ext : Holders) (k : Phys) (pt : PageTable) (va : Nat) (src : List UInt8) (k' : Phys) (pt' : PageTable) :
    Prop where
  there : ∀ i, ∀ hi : i < src.length, ∃ frame flags, translate pt' (va + i) = some (frame, flags) ∧
    flags.has PTE_W = true ∧ k'.mem frame ((va + i) % PGSIZE) = src[i]
  elsewhere : ∀ a frame flags, ¬(va ≤ a ∧ a < va + src.length) → translate pt a = some (frame, flags) →
    ∃ frame' flags', translate pt' a = some (frame', flags') ∧ k'.mem frame' (a % PGSIZE) = k.mem frame (a % PGSIZE)
  others : ∀ f u frame p, 0 < ext f u → inBlock f u.order frame = true → k'.mem frame p = k.mem frame p ∨
    ∃ i, i < src.length ∧ writable pt (va + i) = some frame ∧ p = (va + i) % PGSIZE

def CopyoutLaw (ext : Holders) (k : Phys) (pt : PageTable) (va : Nat) (src : List UInt8) :
    Except Panic (Phys × PageTable × Bool) → Prop
  | .ok (k', pt', true) => Written ext k pt va src k' pt'
  | .ok (_, _, false) => True
  | .error _ => False

/-! ## The condition -/

/-- The area that allows a store. -/
def storeArea (mm : mm_struct) (a : Nat) : Option vma :=
  (find_vma_for_va mm a).bind fun i => if CHECK_PERM .STORE_PAGEFAULT (mm.vmas i) then some (mm.vmas i) else none

/-- A fault reads a file that is not there, or without memory has bytes to put somewhere. -/
def fillCrashes (files : Files) (v : vma) (n a : Nat) : Bool :=
  v.type = .VMA_FILE &&
    match v.vm_file with
    | none => true
    | some file => n = 0 && !(fileOffset v a % 2 ^ 32 + PGSIZE ≥ 2 ^ 32 || (files file (fileOffset v a % 2 ^ 32)).isNone)

inductive PageKind
  /-- `-1` is returned. -/
  | refused
  /-- A null pointer is used. -/
  | crashed
  /-- The user may not write here. -/
  | readonly
  | writable
  /-- A fault makes the page writable. -/
  | faults

/-- The page at `a`, when the allocator has `n` answers left. -/
def pageKind (files : Files) (mm : mm_struct) (pt : PageTable) (n a : Nat) : PageKind :=
  match walk pt a with
  | .error _ => .refused
  | .ok .null => if (storeArea mm a).isNone then .refused else .crashed
  | .ok (.entry _ pte) =>
    if pte = Pte.zero then
      match storeArea mm a with
      | none => .refused
      | some v => if fillCrashes files v n a then .crashed else if n = 0 then .refused else .faults
    else if pte.flags.has PTE_W = false ∧ is_a_cow_page pte.flags = true then
      if (storeArea mm a).isNone ∨ n = 0 ∨ pte.flags.has PTE_U = false then .refused else .faults
    else if frameAt pt a = 0 then .refused
    else if pte.flags.has PTE_W then .writable else .readonly

inductive Verdict
  | refused
  | crashed
  /-- 0 is returned, with a page written that may not be. -/
  | readonly
  | written
  deriving DecidableEq

/-- A page that may not be written is behind, and the rest of the range is ahead. -/
def Verdict.afterReadonly : Verdict → Verdict
  | .written => .readonly
  | v => v

/-- The 2M regions that are copied, after a fault at `a`. -/
def copiedAfter (pt : PageTable) (copied : List (Fin NREGION)) (a : Nat) : List (Fin NREGION) :=
  match walk pt a with
  | .ok (.entry .SUPERPAGE _) => region a :: copied
  | _ => copied

/-- What becomes of the pages of `[a, a + len)`; `copied` are the 2M leaves copied for an earlier page, and `n` the
answers that the allocator has left. -/
def verdict (files : Files) (mm : mm_struct) (pt : PageTable) :
    Nat → List (Fin NREGION) → Nat → Nat → Nat → Verdict
  | _, _, _, _, 0 => .written
  | 0, _, _, _, _ => .crashed
  | fuel + 1, copied, n, a, len + 1 =>
    let next := PGROUNDDOWN a + PGSIZE
    let left := len + 1 - (PGSIZE - a % PGSIZE)
    if a < MAXVA ∧ region a ∈ copied then
      verdict files mm pt fuel copied n next left
    else
      match pageKind files mm pt n a with
      | .refused => .refused
      | .crashed => .crashed
      | .readonly => (verdict files mm pt fuel copied n next left).afterReadonly
      | .writable => verdict files mm pt fuel copied n next left
      | .faults => verdict files mm pt fuel (copiedAfter pt copied a) (n - 1) next left

/-- A table and a 2M leaf hang on an entry of the root. -/
def Rooted (pt : PageTable) : Prop := ∀ va, pt.dir (region va) ≠ .none → (pt.roots (rootOf va)).isSome = true

/-! ## Entries and places -/

section

variable {pt : PageTable} {a x : Nat} {level : Level} {pte new : Pte}

theorem walk_down (pt : PageTable) (a : Nat) : walk pt (PGROUNDDOWN a) = walk pt a := by
  have hsuper := place_down a .SUPERPAGE
  have hcommon := place_down a .COMMONPAGE
  unfold walk
  by_cases hmax : a < MAXVA
  · rw [if_neg hmax.not_ge, if_neg (not_le.mpr (down_lt_maxva.mpr hmax)), Use.super.inj hsuper,
      (Use.common.inj hcommon).2]
  · rw [if_pos (not_lt.mp hmax), if_pos (not_lt.mp fun h => hmax (down_lt_maxva.mp h))]

theorem walk_of_place (hwalk : walk pt a = .ok (.entry level pte)) (hx : x < MAXVA) (hplace : place x level = place a level) :
    walk pt x = .ok (.entry level pte) := by
  unfold walk
  rw [if_neg hx.not_ge]
  obtain ⟨-, ⟨rfl, hd⟩ | ⟨page, ptes, rfl, hd, rfl⟩⟩ := dir_of_walk hwalk
  · rw [Use.super.inj hplace, hd]
  · obtain ⟨hregion, hslot⟩ := Use.common.inj hplace
    rw [hregion, hd, hslot]

theorem walk_set (hwalk : walk pt a = .ok (.entry level pte)) (hnew : new ≠ Pte.zero) (hx : x < MAXVA) :
    walk (pt.set a new) x = if place x level = place a level then .ok (.entry level new) else walk pt x := by
  obtain ⟨-, ⟨rfl, hd⟩ | ⟨page, ptes, rfl, hd, rfl⟩⟩ := dir_of_walk hwalk
  · have hset : pt.set a new = pt.setEntry (region a) (.leaf new) := by
      simp only [PageTable.set, hd, if_neg hnew]
    have hiff : place x .SUPERPAGE = place a .SUPERPAGE ↔ region x = region a := ⟨Use.super.inj, congrArg Use.super⟩
    rw [hset, walk, if_neg hx.not_ge]
    rcases eq_or_ne (region x) (region a) with hr | hr
    · rw [if_pos (hiff.mpr hr), hr, setEntry_self]
    · rw [if_neg fun h => hr (hiff.mp h), walk, if_neg hx.not_ge, setEntry_dir pt a _ _ hr]
  · have hset : pt.set a new = pt.setEntry (region a) (.table page (update ptes (slot a) new)) := by
      simp only [PageTable.set, hd]
    have hiff : place x .COMMONPAGE = place a .COMMONPAGE ↔ region x = region a ∧ slot x = slot a :=
      ⟨Use.common.inj, fun h => congrArg₂ Use.common h.1 h.2⟩
    rw [hset, walk, if_neg hx.not_ge]
    rcases eq_or_ne (region x) (region a) with hr | hr
    · rw [hr, setEntry_self]
      dsimp only
      rcases eq_or_ne (slot x) (slot a) with hs | hs
      · rw [if_pos (hiff.mpr ⟨hr, hs⟩), hs, update_self]
      · rw [if_neg fun h => hs (hiff.mp h).2, walk, if_neg hx.not_ge, hr, hd, update_of_ne hs]
    · rw [if_neg fun h => hr (hiff.mp h).1, walk, if_neg hx.not_ge, setEntry_dir pt a _ _ hr]

theorem translate_of_walk (hwalk : walk pt x = .ok (.entry level pte)) :
    translate pt x = if (pte.flags.has PTE_V && pte.flags.has PTE_U) = true then some (frameOf pte level x, pte.flags) else none := by
  unfold translate
  rw [hwalk]
  rfl

theorem translate_congr_walk {pt' : PageTable} (h : walk pt' x = walk pt x) : translate pt' x = translate pt x := by
  unfold translate
  rw [h]

theorem set_roots (hwalk : walk pt a = .ok (.entry level pte)) (new : Pte) : (pt.set a new).roots = pt.roots := by
  obtain ⟨-, ⟨-, hd⟩ | ⟨page, ptes, -, hd, -⟩⟩ := dir_of_walk hwalk
  · simp only [PageTable.set, hd]
    rfl
  · simp only [PageTable.set, hd]
    rfl

theorem Rooted.set (h : Rooted pt) (hwalk : walk pt a = .ok (.entry level pte)) (new : Pte) : Rooted (pt.set a new) := by
  intro va hne
  rw [set_roots hwalk]
  apply h va
  intro hnone
  apply hne
  have hr : region va ≠ region a := by
    intro hr
    rw [hr] at hnone
    obtain ⟨-, ⟨-, hd⟩ | ⟨page, ptes, -, hd, -⟩⟩ := dir_of_walk hwalk
    · rw [hnone] at hd
      cases hd
    · rw [hnone] at hd
      cases hd
  obtain ⟨-, ⟨-, hd⟩ | ⟨page, ptes, -, hd, -⟩⟩ := dir_of_walk hwalk
  · simp only [PageTable.set, hd]
    rw [setEntry_dir pt a _ _ hr, hnone]
  · simp only [PageTable.set, hd]
    rw [setEntry_dir pt a _ _ hr, hnone]

end

/-! ## What a step keeps -/

/-- An entry that a store has copied. -/
def CowFlags (flags : Flags) : Prop := flags.has PTE_W = false ∧ is_a_cow_page flags = true

/-- What some steps of `copyout` leave as it was, but for the bytes at `S`: what an address reads, the entries not
copied, and that a page has its old frame or one of nobody else's. -/
structure Keeps (ext : Holders) (S : Nat → Prop) (k : Phys) (pt : PageTable) (k' : Phys) (pt' : PageTable) : Prop where
  held : Held k' pt' ext
  seen : ∀ a frame flags, translate pt a = some (frame, flags) → ∃ frame' flags', translate pt' a = some (frame', flags') ∧
    (CowFlags flags ∨ frame' = frame ∧ flags' = flags) ∧ (¬S a → k'.mem frame' (a % PGSIZE) = k.mem frame (a % PGSIZE))
  fresh : ∀ a frame flags, translate pt' a = some (frame, flags) → translate pt a = some (frame, flags) ∨
    ∀ f u, 0 < ext f u → inBlock f u.order frame = false

/-- The blocks of other holders change only where the user could write them. -/
def Spares (ext : Holders) (S : Nat → Prop) (k : Phys) (pt : PageTable) (k' : Phys) : Prop :=
  ∀ f u frame p, 0 < ext f u → inBlock f u.order frame = true → k'.mem frame p = k.mem frame p ∨
    ∃ a, S a ∧ writable pt a = some frame ∧ p = a % PGSIZE

section

variable {ext : Holders} {S S' : Nat → Prop} {k k' k'' : Phys} {pt pt' pt'' : PageTable}

theorem Keeps.refl (h : Held k pt ext) : Keeps ext S k pt k pt :=
  ⟨h, fun _ frame flags ht => ⟨frame, flags, ht, .inr ⟨rfl, rfl⟩, fun _ => rfl⟩, fun _ _ _ ht => .inl ht⟩

theorem Keeps.mono (h : Keeps ext S k pt k' pt') (himp : ∀ a, S a → S' a) : Keeps ext S' k pt k' pt' := by
  refine ⟨h.held, fun a frame flags ht => ?_, h.fresh⟩
  obtain ⟨frame', flags', ht', hsame, hmem⟩ := h.seen a frame flags ht
  exact ⟨frame', flags', ht', hsame, fun hnot => hmem fun hS => hnot (himp a hS)⟩

theorem Keeps.trans (h : Keeps ext S k pt k' pt') (h' : Keeps ext S k' pt' k'' pt'') : Keeps ext S k pt k'' pt'' := by
  refine ⟨h'.held, fun a frame flags ht => ?_, fun a frame flags ht => ?_⟩
  · obtain ⟨frame₁, flags₁, ht₁, hsame₁, hmem₁⟩ := h.seen a frame flags ht
    obtain ⟨frame₂, flags₂, ht₂, hsame₂, hmem₂⟩ := h'.seen a frame₁ flags₁ ht₁
    refine ⟨frame₂, flags₂, ht₂, ?_, fun hnot => (hmem₂ hnot).trans (hmem₁ hnot)⟩
    rcases hsame₁ with hcow | ⟨rfl, rfl⟩
    · exact .inl hcow
    · exact hsame₂
  · rcases h'.fresh a frame flags ht with ht' | hnot
    · exact h.fresh a frame flags ht'
    · exact .inr hnot

theorem Spares.refl (pt : PageTable) (k : Phys) : Spares ext S k pt k := fun _ _ _ _ _ _ => .inl rfl

theorem writable_iff {a frame : Nat} :
    writable pt a = some frame ↔ ∃ flags, translate pt a = some (frame, flags) ∧ flags.has PTE_W = true := by
  constructor
  · exact translate_of_writable
  · rintro ⟨flags, ht, hw⟩
    rw [writable, ht]
    exact if_pos hw

theorem Spares.trans (h : Spares ext S k pt k') (hkeeps : Keeps ext S k pt k' pt') (h' : Spares ext S k' pt' k'') :
    Spares ext S k pt k'' := by
  intro f u frame p hext hin
  rcases h' f u frame p hext hin with hmem' | ⟨a, hS, hw, rfl⟩
  · rcases h f u frame p hext hin with hmem | hwrote
    · exact .inl (hmem'.trans hmem)
    · exact .inr hwrote
  obtain ⟨flags, ht, hflags⟩ := writable_iff.mp hw
  rcases hkeeps.fresh a frame flags ht with ht | hnot
  · exact .inr ⟨a, hS, writable_iff.mpr ⟨flags, ht, hflags⟩, rfl⟩
  · rw [hnot f u hext] at hin
    cases hin

theorem MemKept.spares (h : MemKept k k') (hheld : Held k pt ext) (pt₀ : PageTable) : Spares ext S k pt₀ k' := by
  intro f u frame p hext hin
  refine .inl (congrFun (h frame ?_) p)
  obtain ⟨use, hc⟩ := hheld.1
  have hpos : 0 < pt.refs f u + ext f u := by omega
  obtain ⟨huse, hrefcnt⟩ := hc.use_eq hpos
  have hcnt : 0 < k.refcnt f := by omega
  refine hc.busy f frame hcnt ?_
  rw [hc.order f hcnt, ← huse]
  exact hin

theorem ext_of_free (hheld : Held k pt ext) {frame : Nat} (hfree : k.busy frame = false) {f : Nat} {u : Use} (hext : 0 < ext f u) :
    inBlock f u.order frame = false := by
  rw [Bool.eq_false_iff]
  intro hin
  obtain ⟨use, hc⟩ := hheld.1
  have hpos : 0 < pt.refs f u + ext f u := by omega
  obtain ⟨huse, hrefcnt⟩ := hc.use_eq hpos
  have hcnt : 0 < k.refcnt f := by omega
  rw [huse, ← hc.order f hcnt] at hin
  rw [hc.busy f frame hcnt hin] at hfree
  cases hfree

/-- An entry gets a frame that was free, and the bytes of the old one if there was one. -/
theorem keeps_set {a : Nat} {level : Level} {pte new : Pte} (hheld : Held k pt ext)
    (hwalk : walk pt a = .ok (.entry level pte)) (hheld' : Held k' (pt.set a new) ext) (hkept : MemKept k k')
    (hfresh : Fresh k level.order (some new.pfn)) (hnew : new ≠ Pte.zero)
    (hcopy : pte = Pte.zero ∨ CowFlags pte.flags ∧ new.flags = pte.flags ||| PTE_W ∧
      ∀ i, i < 2 ^ level.order → k'.mem (new.pfn + i) = k.mem (pte.pfn + i)) :
    Keeps ext S k pt k' (pt.set a new) := by
  have hbusy : ∀ x frame flags, translate pt x = some (frame, flags) → k.busy frame = true := fun x frame flags ht =>
    hheld.1.busy_of_translate (fun f u => le_self_add) ht
  have hpart : ∀ x, ∃ i, i < 2 ^ level.order ∧ ∀ pte : Pte, frameOf pte level x = pte.pfn + i := by
    intro x
    refine ⟨if level = .SUPERPAGE then x / PGSIZE % NPTE else 0, ?_, fun _ => rfl⟩
    cases level with
    | COMMONPAGE => exact Nat.one_pos
    | SUPERPAGE => exact Nat.mod_lt _ (by decide)
  refine ⟨hheld', fun x frame flags ht => ?_, fun x frame flags ht => ?_⟩
  · have hx := (translate_iff.mp ht).1
    have hset := walk_set hwalk hnew hx
    by_cases hplace : place x level = place a level
    · rw [if_pos hplace] at hset
      rw [translate_of_walk (walk_of_place hwalk hx hplace)] at ht
      rcases hcopy with rfl | ⟨hcow, hflags, hmem⟩
      · cases ht
      obtain ⟨i, hi, hframe⟩ := hpart x
      split at ht
      next hvu =>
        rw [Option.some_inj, Prod.mk.injEq] at ht
        obtain ⟨rfl, rfl⟩ := ht
        have hbits : ∀ f : Flags, (f.has PTE_V && f.has PTE_U) = true → ((f ||| PTE_W).has PTE_V && (f ||| PTE_W).has PTE_U) = true := by
          decide
        refine ⟨frameOf new level x, new.flags, ?_, .inl hcow, fun _ => ?_⟩
        · rw [translate_of_walk hset, hflags, if_pos (hbits _ hvu)]
        · rw [hframe, hframe, hmem i hi]
      next => cases ht
    · rw [if_neg hplace] at hset
      refine ⟨frame, flags, (translate_congr_walk hset).trans ht, .inr ⟨rfl, rfl⟩, fun _ => ?_⟩
      rw [hkept frame (hbusy x frame flags ht)]
  · have hx := (translate_iff.mp ht).1
    have hset := walk_set hwalk hnew hx
    by_cases hplace : place x level = place a level
    · rw [if_pos hplace] at hset
      rw [translate_of_walk hset] at ht
      obtain ⟨i, hi, hframe⟩ := hpart x
      split at ht
      next =>
        rw [Option.some_inj, Prod.mk.injEq] at ht
        obtain ⟨rfl, rfl⟩ := ht
        refine .inr fun f u hext => ext_of_free hheld ?_ hext
        rw [hframe]
        exact hfresh _ ((inBlock_iff _ _ _).mpr ⟨i, hi, rfl⟩)
      next => cases ht
    · rw [if_neg hplace] at hset
      rw [translate_congr_walk hset] at ht
      exact .inl ht

/-! ## A write to a page -/

theorem setBytes_in (k : Phys) (frame off : Nat) (bytes : List UInt8) {i : Nat} (hi : i < bytes.length) :
    (k.setBytes frame off bytes).mem frame (off + i) = bytes[i] := by
  have hself : (k.setBytes frame off bytes).mem frame = fun i =>
      if off ≤ i then (bytes[i - off]?).getD (k.mem frame i) else k.mem frame i := update_self _ _ _
  rw [hself]
  dsimp only
  rw [if_pos (Nat.le_add_right off i), Nat.add_sub_cancel_left, List.getElem?_eq_getElem hi]
  rfl

theorem setBytes_out (k : Phys) (frame off : Nat) (bytes : List UInt8) {f p : Nat}
    (hout : ¬(f = frame ∧ off ≤ p ∧ p < off + bytes.length)) : (k.setBytes frame off bytes).mem f p = k.mem f p := by
  rcases eq_or_ne f frame with rfl | hne
  · have hself : (k.setBytes f off bytes).mem f = fun i =>
        if off ≤ i then (bytes[i - off]?).getD (k.mem f i) else k.mem f i := update_self _ _ _
    rw [hself]
    dsimp only
    split
    next hle =>
      have hlen : ¬p < off + bytes.length := fun hlt => hout ⟨rfl, hle, hlt⟩
      rw [List.getElem?_eq_none (by omega)]
      rfl
    next => rfl
  · exact congrFun (update_of_ne hne _ _) p

/-- The addresses of `[va, va + len)`. -/
def Spanned (va len a : Nat) : Prop := va ≤ a ∧ a < va + len

theorem keeps_setBytes {a frame : Nat} {flags : Flags} (bytes : List UInt8) (hheld : Held k pt ext)
    (ht : translate pt a = some (frame, flags)) :
    Keeps ext (Spanned a bytes.length) k pt (k.setBytes frame (a % PGSIZE) bytes) pt := by
  refine ⟨⟨hheld.1.congr rfl rfl rfl, hheld.2⟩, fun x frame' flags' ht' => ⟨frame', flags', ht', .inr ⟨rfl, rfl⟩, fun hnot => ?_⟩,
    fun _ _ _ ht' => .inl ht'⟩
  apply setBytes_out
  rintro ⟨rfl, hlo, hhi⟩
  apply hnot
  -- the frame is behind no other page
  have hle : ∀ f u, pt.refs f u ≤ pt.refs f u + ext f u := fun f u => le_self_add
  have hpage := (hheld.1.same_page hle hle ht ht').1
  rw [pgsize_eq] at hpage hlo hhi
  have hx := Nat.div_add_mod x 4096
  have ha := Nat.div_add_mod a 4096
  rw [← hpage] at hx
  exact ⟨by omega, by omega⟩

theorem spares_setBytes {a frame : Nat} {bytes : List UInt8} (hw : writable pt a = some frame)
    (hlen : bytes.length ≤ PGSIZE - a % PGSIZE) :
    Spares ext (Spanned a bytes.length) k pt (k.setBytes frame (a % PGSIZE) bytes) := by
  intro f u frame' p hext hin
  by_cases hhit : frame' = frame ∧ a % PGSIZE ≤ p ∧ p < a % PGSIZE + bytes.length
  · obtain ⟨rfl, hlo, hhi⟩ := hhit
    obtain ⟨i, rfl⟩ := Nat.exists_eq_add_of_le hlo
    have hi : i < PGSIZE - a % PGSIZE := by omega
    refine .inr ⟨a + i, ⟨Nat.le_add_right a i, by omega⟩, ?_, (frameAt_page pt hi).2.symm⟩
    obtain ⟨flags, ht, hflags⟩ := writable_iff.mp hw
    exact writable_iff.mpr ⟨flags, (translate_page pt hi).trans ht, hflags⟩
  · exact .inl (setBytes_out k frame _ bytes hhit)

end

/-! ## The allocator, answer by answer -/

section

variable {k k' : Phys} {pt : PageTable} {ext : Holders} {own : Holders} {a : Nat}

theorem kmalloc_pool (k : Phys) (order : Nat) :
    Ensures (kmalloc k order) Anyhow fun r => (r.2 = none → answers k = 0) ∧ ∀ mem, r.2 = some mem → k.pool = some mem :: r.1.pool := by
  unfold kmalloc answers
  rcases k.pool with _ | ⟨_ | page, pool⟩
  · exact .ok ⟨fun _ => rfl, fun mem hmem => by cases hmem⟩
  · exact .ok ⟨fun _ => rfl, fun mem hmem => by cases hmem⟩
  · dsimp only
    split
    · exact .error trivial
    split
    · exact .error trivial
    · refine .ok ⟨fun hnone => (by cases hnone), fun mem hmem => ?_⟩
      cases hmem
      rfl

theorem kzalloc_pool (k : Phys) (order : Nat) :
    Ensures (kzalloc k order) Anyhow fun r => (r.2 = none → answers k = 0) ∧ ∀ mem, r.2 = some mem → k.pool = some mem :: r.1.pool := by
  unfold kzalloc
  refine .bind (kmalloc_pool k order) ?_
  rintro ⟨k', mem⟩ ⟨hnone, hsome⟩
  cases mem with
  | none => exact .ok ⟨hnone, fun mem hmem => by cases hmem⟩
  | some page => exact .ok ⟨fun h => (by cases h), hsome⟩

theorem answers_cons {mem : Nat} (h : k.pool = some mem :: k'.pool) : answers k = answers k' + 1 := by
  rw [answers, h]
  rfl

/-! ## Faults at an entry -/

theorem region_down (a : Nat) : region (PGROUNDDOWN a) = region a := Use.super.inj (place_down a .SUPERPAGE)

theorem slot_down (a : Nat) : slot (PGROUNDDOWN a) = slot a := (Use.common.inj (place_down a .COMMONPAGE)).2

theorem table_of_zero {level : Level} (hvalid : pt.Valid) (hwalk : walk pt a = .ok (.entry level Pte.zero)) :
    level = .COMMONPAGE ∧ ∃ page ptes, pt.dir (region a) = .table page ptes ∧ ptes (slot a) = Pte.zero := by
  obtain ⟨-, ⟨rfl, hd⟩ | ⟨page, ptes, rfl, hd, hzero⟩⟩ := dir_of_walk hwalk
  · have hv := hvalid (region a)
    rw [hd] at hv
    cases hv
  · exact ⟨rfl, page, ptes, hd, hzero.symm⟩

/-- `uvmalloc` of a page whose table is there. -/
theorem uvmalloc_in_table {level : Level} (hvalid : pt.Valid) (hrooted : Rooted pt) (hwalk : walk pt a = .ok (.entry level Pte.zero))
    (perm : Flags) :
    uvmalloc k pt (PGROUNDDOWN a) (PGROUNDDOWN a + PGSIZE) perm = (do
      let (k, mem) ← kzalloc k 0
      match mem with
      | none => return (k, pt, 0)
      | some mem => return (k, pt.set a ⟨mem, allocFlags perm⟩, PGROUNDDOWN a + PGSIZE)) := by
  obtain ⟨rfl, page, ptes, hd, hzero⟩ := table_of_zero hvalid hwalk
  have hmax : PGROUNDDOWN a < MAXVA := down_lt_maxva.mpr (dir_of_walk hwalk).1
  have hal : PGROUNDDOWN a % PGSIZE = 0 := Nat.mul_mod_left _ _
  rw [uvmalloc_page k pt hal hmax, allocLoop, show Level.COMMONPAGE.order = 0 from rfl]
  cases kzalloc k 0 with
  | error e => rfl
  | ok r =>
    obtain ⟨k₁, mem⟩ := r
    rw [ok_bind, ok_bind]
    cases mem with
    | none =>
      dsimp only
      rw [uvmdealloc_self]
      rfl
    | some mem =>
      have hone : mapOne k₁ pt (PGROUNDDOWN a) mem (PTE_R ||| PTE_U ||| perm) .COMMONPAGE =
          .ok (k₁, pt.set a ⟨mem, allocFlags perm⟩, true) := by
        obtain ⟨root, hroot⟩ : ∃ root, pt.roots (rootOf (PGROUNDDOWN a)) = some root := by
          apply Option.isSome_iff_exists.mp
          apply hrooted
          rw [region_down, hd]
          intro h
          cases h
        have hroot : walkRoot k₁ pt (PGROUNDDOWN a) = .ok (k₁, pt, true) := by simp only [walkRoot, hroot]
        have htable : walkTable k₁ pt (PGROUNDDOWN a) .COMMONPAGE = .ok (k₁, pt, true) := by
          simp only [walkTable, region_down, hd]
        have hentry : mapEntry pt (PGROUNDDOWN a) mem (PTE_R ||| PTE_U ||| perm) .COMMONPAGE =
            .ok (pt.set a ⟨mem, allocFlags perm⟩) := by
          simp only [mapEntry, region_down, slot_down, hd, hzero, PageTable.set]
          rfl
        rw [mapOne, if_neg hmax.not_ge, hroot, ok_bind]
        dsimp only
        rw [if_neg Bool.true_eq_false.mp, htable, ok_bind]
        dsimp only
        rw [if_neg Bool.true_eq_false.mp, hentry]
        rfl
      have hmap : mappages k₁ pt (PGROUNDDOWN a) Level.COMMONPAGE.pgsize mem (PTE_R ||| PTE_U ||| perm) .COMMONPAGE =
          .ok (k₁, pt.set a ⟨mem, allocFlags perm⟩, true) := (mappages_one .COMMONPAGE hal mem _).trans hone
      dsimp only
      rw [hmap, ok_bind]
      rfl

/-- A fault on a store in an area that allows it. -/
def storeFault (files : Files) (k : Phys) (pt : PageTable) (a : Nat) (v : vma) : Found → Except Panic (Phys × PageTable × Bool)
  | .null => pagefault.populate files a v k pt
  | .entry level pte =>
    if pte = Pte.zero then pagefault.populate files a v k pt
    else if pte.flags.has PTE_V = false then .error .pagefault_not_valid
    else if is_a_cow_page pte.flags then cow k pt a level pte
    else .ok (k, pt, false)

theorem pagefault_store (files : Files) (mm : mm_struct) (k : Phys) {found : Found} (hwalk : walk pt a = .ok found) :
    pagefault files mm .STORE_PAGEFAULT k pt a =
      (storeArea mm a).elim (.ok (k, pt, false)) fun v => storeFault files k pt a v found := by
  have hmax : ¬PGROUNDDOWN a ≥ MAXVA := by
    intro hge
    rw [walk, if_pos (not_lt.mp fun h => not_lt.mpr hge (down_lt_maxva.mpr h))] at hwalk
    cases hwalk
  unfold pagefault storeArea
  rw [if_neg hmax]
  cases find_vma_for_va mm a with
  | none => rfl
  | some i =>
    dsimp only [Option.bind]
    cases CHECK_PERM .STORE_PAGEFAULT (mm.vmas i) with
    | false => rfl
    | true =>
      rw [if_neg Bool.true_eq_false.mp, if_pos rfl, hwalk, ok_bind]
      cases found with
      | null => rfl
      | entry level pte => rfl

theorem check_of_storeArea {mm : mm_struct} {v : vma} (h : storeArea mm a = some v) : CHECK_PERM .STORE_PAGEFAULT v = true := by
  obtain ⟨i, -, hv⟩ := Option.bind_eq_some_iff.mp h
  split at hv
  next hcheck =>
    cases hv
    exact hcheck
  next => cases hv

theorem populate_true (files : Files) (v : vma) {r : Phys × PageTable × Bool} (h : pagefault.populate files a v k pt = .ok r) :
    r.2.2 = true := by
  unfold pagefault.populate at h
  obtain ⟨⟨k₁, pt₁, sz⟩, -, h⟩ := ok_of_bind h
  dsimp only at h
  by_cases hfile : v.type = .VMA_FILE
  · rw [if_pos hfile] at h
    cases hvm : v.vm_file with
    | none =>
      rw [hvm] at h
      cases h
    | some file =>
      rw [hvm] at h
      obtain ⟨k₂, -, h⟩ := ok_of_bind h
      cases h
      rfl
  · rw [if_neg hfile] at h
    cases h
    rfl

/-- A fault has left the entry `new`, which may be written and has a frame that was free. -/
structure Opened (ext : Holders) (k : Phys) (pt : PageTable) (a : Nat) (k' : Phys) (new : Pte) : Prop where
  keeps : Keeps ext (fun _ => False) k pt k' (pt.set a new)
  kept : MemKept k k'
  valid : new.flags.has PTE_V = true
  write : new.flags.has PTE_W = true
  pool : k.pool = some new.pfn :: k'.pool

theorem pte_ne_zero {new : Pte} (hv : new.flags.has PTE_V = true) : new ≠ Pte.zero := by
  rintro rfl
  cases hv

theorem inode_read_pool (k : Phys) (files : Files) (file : Vma.File) (page off : Nat) :
    Ensures (inode_read k files file page off) Anyhow fun k' => k'.pool = k.pool := by
  unfold inode_read
  dsimp only
  split
  · exact .ok rfl
  · split
    · exact .error trivial
    · exact .ok rfl

/-- What a fault on a store makes of an entry that is zero. -/
inductive Filled (ext : Holders) (files : Files) (v : vma) (k : Phys) (pt : PageTable) (a : Nat) :
    Except Panic (Phys × PageTable × Bool) → Prop
  | misled : Filled ext files v k pt a (.error .block_in_use)
  | crashed (e : Panic) : fillCrashes files v (answers k) a = true → Filled ext files v k pt a (.error e)
  | empty (k' : Phys) : fillCrashes files v (answers k) a = false → answers k = 0 → Filled ext files v k pt a (.ok (k', pt, true))
  | opened (k' : Phys) (new : Pte) : fillCrashes files v (answers k) a = false → 0 < answers k → Opened ext k pt a k' new →
      new.flags.has PTE_U = true → Filled ext files v k pt a (.ok (k', pt.set a new, true))

theorem populate_filled (files : Files) {v : vma} {level : Level} (hheld : Held k pt ext) (hrooted : Rooted pt)
    (hnull : some 0 ∉ k.pool) (hcheck : CHECK_PERM .STORE_PAGEFAULT v = true) (hwalk : walk pt a = .ok (.entry level Pte.zero)) :
    Filled ext files v k pt a (pagefault.populate files a v k pt) := by
  have hmax := (dir_of_walk hwalk).1
  have hmem := populate_leafAt files v k hmax ((absent_iff hmax).mpr (.inr ⟨level, hwalk⟩))
  have hheld' := populate_held files a v hheld
  unfold pagefault.populate at hmem hheld' ⊢
  rw [page_of_fault hmax, uvmalloc_in_table hheld.2 hrooted hwalk] at hmem hheld' ⊢
  have htakes := kzalloc_takes hheld.1 0
  have hpool := kzalloc_pool k 0
  have hfresh := kzalloc_grows k 0
  cases hz : kzalloc k 0 with
  | error e =>
    obtain rfl : e = .block_in_use := htakes.of_error hz
    exact .misled
  | ok r =>
    obtain ⟨k₁, mem⟩ := r
    obtain ⟨hnone, hsome⟩ := hpool.of_ok hz
    rw [hz] at hmem hheld'
    rw [ok_bind] at hmem hheld' ⊢
    cases mem with
    | none =>
      have hzero := hnone rfl
      have haddr : (walkaddr pt a).getD 0 = 0 := by
        rw [walkaddr_eq, translate_of_walk hwalk]
        rfl
      dsimp only
      rw [show (pure (k₁, pt, 0) : Except Panic (Phys × PageTable × Nat)) = .ok (k₁, pt, 0) from rfl, ok_bind]
      dsimp only
      by_cases hfile : v.type = .VMA_FILE
      · rw [if_pos hfile]
        cases hvm : v.vm_file with
        | none => exact .crashed _ (by simp [fillCrashes, hfile, hvm])
        | some file =>
          dsimp only
          rw [haddr]
          unfold inode_read
          dsimp only
          by_cases hbytes : fileOffset v a % 2 ^ 32 + PGSIZE ≥ 2 ^ 32 ∨ (files file (fileOffset v a % 2 ^ 32)).isNone
          · have hno : fillCrashes files v (answers k) a = false := by
              simp only [fillCrashes, hvm, hfile, hzero, decide_true, Bool.true_and, Bool.not_eq_false', Bool.or_eq_true,
                decide_eq_true_eq]
              exact hbytes
            rw [show (sub64 (add64 v.offset (PGROUNDDOWN a)) v.startva) = fileOffset v a from rfl, if_pos hbytes]
            exact .empty k₁ hno hzero
          · have hyes : fillCrashes files v (answers k) a = true := by
              simp only [fillCrashes, hvm, hfile, hzero, decide_true, Bool.true_and, Bool.not_eq_true', Bool.or_eq_false_iff,
                decide_eq_false_iff_not]
              exact ⟨fun h => hbytes (.inl h), Bool.eq_false_iff.mpr fun h => hbytes (.inr h)⟩
            rw [show (sub64 (add64 v.offset (PGROUNDDOWN a)) v.startva) = fileOffset v a from rfl, if_neg hbytes]
            exact .crashed _ hyes
      · rw [if_neg hfile]
        exact .empty k₁ (by simp [fillCrashes, hfile]) hzero
    | some mem =>
      have htaken := answers_cons (hsome mem rfl)
      have hne : mem ≠ 0 := by
        rintro rfl
        rw [hsome 0 rfl] at hnull
        exact hnull List.mem_cons_self
      have hpos : 0 < answers k := by omega
      have hv : (allocFlags (perm_vma2pte v.perm)).has PTE_V = true := allocFlags_valid _
      have hlevel := (table_of_zero hheld.2 hwalk).1
      have hset := walk_set hwalk (pte_ne_zero hv : (⟨mem, allocFlags (perm_vma2pte v.perm)⟩ : Pte) ≠ Pte.zero) hmax
      have hopened : ∀ k', MemKept k k' → Held k' (pt.set a ⟨mem, allocFlags (perm_vma2pte v.perm)⟩) ext →
          k'.pool = k₁.pool → Opened ext k pt a k' ⟨mem, allocFlags (perm_vma2pte v.perm)⟩ := by
        intro k' hkept hheld' hpool'
        refine ⟨keeps_set hheld hwalk hheld' hkept ?_ (pte_ne_zero hv) (.inl rfl), hkept, hv, permits_alloc hcheck, ?_⟩
        · rw [hlevel]
          exact (hfresh.of_ok hz).2
        · rw [hpool']
          exact hsome mem rfl
      have hframe : (walkaddr (pt.set a ⟨mem, allocFlags (perm_vma2pte v.perm)⟩) a).getD 0 = mem := by
        rw [if_pos rfl] at hset
        rw [walkaddr_eq, translate_of_walk hset, allocFlags_valid, allocFlags_user, hlevel]
        rfl
      dsimp only at hmem hheld' ⊢
      rw [show (pure (k₁, pt.set a ⟨mem, allocFlags (perm_vma2pte v.perm)⟩, PGROUNDDOWN a + PGSIZE) :
        Except Panic (Phys × PageTable × Nat)) = .ok (k₁, pt.set a ⟨mem, allocFlags (perm_vma2pte v.perm)⟩, PGROUNDDOWN a + PGSIZE)
        from rfl, ok_bind] at hmem hheld' ⊢
      dsimp only at hmem hheld' ⊢
      by_cases hfile : v.type = .VMA_FILE
      · rw [if_pos hfile] at hmem hheld' ⊢
        cases hvm : v.vm_file with
        | none => exact .crashed _ (by simp [fillCrashes, hfile, hvm])
        | some file =>
          have hno : fillCrashes files v (answers k) a = false := by
            simp only [fillCrashes, hvm, Nat.ne_of_gt hpos, decide_false, Bool.false_and, Bool.and_false]
          rw [hvm] at hmem hheld'
          dsimp only at hmem hheld' ⊢
          have hreadpool := inode_read_pool k₁ files file mem (fileOffset v a)
          rw [hframe] at hmem hheld' ⊢
          cases hread : inode_read k₁ files file mem (sub64 (add64 v.offset (PGROUNDDOWN a)) v.startva) with
          | error e =>
            unfold inode_read at hread
            dsimp only at hread
            rw [if_neg hne] at hread
            split at hread
            · cases hread
            · cases hread
          | ok k₂ =>
            rw [hread, ok_bind] at hmem hheld'
            exact .opened k₂ _ hno hpos (hopened k₂ (hmem.of_ok rfl).1 (hheld'.of_ok rfl) (hreadpool.of_ok hread)) (allocFlags_user _)
      · rw [if_neg hfile] at hmem hheld' ⊢
        refine .opened k₁ _ (by simp [fillCrashes, hfile]) hpos (hopened k₁ (hmem.of_ok rfl).1 (hheld'.of_ok rfl) rfl) (allocFlags_user _)

/-- What a fault on a store makes of an entry that is copied. -/
inductive CowDone (ext : Holders) (k : Phys) (pt : PageTable) (a : Nat) (pte : Pte) : Except Panic (Phys × PageTable × Bool) → Prop
  | misled : CowDone ext k pt a pte (.error .block_in_use)
  | short (k' : Phys) : answers k = 0 → CowDone ext k pt a pte (.ok (k', pt, false))
  | opened (k' : Phys) (new : Pte) : 0 < answers k → Opened ext k pt a k' new → new.flags.has PTE_U = pte.flags.has PTE_U →
      CowDone ext k pt a pte (.ok (k', pt.set a new, true))

theorem cow_done {level : Level} {pte : Pte} (hheld : Held k pt ext) (hwalk : walk pt a = .ok (.entry level pte))
    (hv : pte.flags.has PTE_V = true) (hcow : CowFlags pte.flags) : CowDone ext k pt a pte (cow k pt a level pte) := by
  have hmem := cow_leafAt k hwalk
  have hheld' := cow_held hwalk hv hheld
  have htakes := kmalloc_takes hheld.1 level.order
  have hcount := kmalloc_counted hheld.1 level.order
  have hpool := kmalloc_pool k level.order
  have hfresh := kmalloc_grows k level.order
  unfold cow at hmem hheld' ⊢
  cases hm : kmalloc k level.order with
  | error e =>
    obtain rfl : e = .block_in_use := htakes.of_error hm
    exact .misled
  | ok r =>
    obtain ⟨k₁, mem⟩ := r
    obtain ⟨hnone, hsome⟩ := hpool.of_ok hm
    have hgrant := hcount.of_ok hm
    rw [hm] at hmem hheld'
    rw [ok_bind] at hmem hheld' ⊢
    cases mem with
    | none => exact .short k₁ (hnone rfl)
    | some mem =>
      have htaken := answers_cons (hsome mem rfl)
      obtain ⟨k₂, hfreed, -, hmem₂⟩ := kfree_returns (cow_bump hwalk hv hgrant)
      dsimp only at hmem hheld' ⊢
      rw [hfreed, ok_bind] at hmem hheld' ⊢
      have hbits : ∀ f : Flags, f.has PTE_V = true → (f ||| PTE_W).has PTE_V = true ∧ (f ||| PTE_W).has PTE_U = f.has PTE_U ∧
          (f ||| PTE_W).has PTE_W = true := by
        decide
      obtain ⟨hv', hu', hw'⟩ := hbits pte.flags hv
      have hkept : MemKept k k₂ := (hmem.of_ok rfl).1
      refine .opened k₂ _ (by omega) ⟨keeps_set hheld hwalk (hheld'.of_ok rfl) hkept (hfresh.of_ok hm).2 (pte_ne_zero hv')
        (.inr ⟨hcow, rfl, fun i hi => ?_⟩), hkept, hv', hw', ?_⟩ hu'
      · have hin : inBlock mem level.order (mem + i) = true := (inBlock_iff _ _ _).mpr ⟨i, hi, rfl⟩
        have hsame : k₁.mem = k.mem := (htakes.of_ok hm).2.1
        rw [hmem₂, memmove]
        dsimp only
        rw [if_pos hin, Nat.add_sub_cancel_left, hsame]
      · rw [(kfree_pool _ _).of_ok hfreed]
        exact hsome mem rfl

/-! ## A turn up to the write -/

/-- What `copyout` has before it writes to the page at `a`. -/
inductive PageRuns (ext : Holders) (k : Phys) (pt : PageTable) (a : Nat) : PageKind → Except Panic (Phys × PageTable × Bool) → Prop
  | misled (kind : PageKind) : PageRuns ext k pt a kind (.error .block_in_use)
  | crashed (e : Panic) : PageRuns ext k pt a .crashed (.error e)
  | refused (k' : Phys) (pt' : PageTable) (ok : Bool) : (ok = true → frameAt pt' a = 0) →
      PageRuns ext k pt a .refused (.ok (k', pt', ok))
  | readonly (frame : Nat) (flags : Flags) : translate pt a = some (frame, flags) → frame ≠ 0 → flags.has PTE_W = false →
      is_a_cow_page flags = false → PageRuns ext k pt a .readonly (.ok (k, pt, true))
  | writable (frame : Nat) : frame ≠ 0 → Vm.writable pt a = some frame → PageRuns ext k pt a .writable (.ok (k, pt, true))
  | faults (k' : Phys) (level : Level) (pte new : Pte) : walk pt a = .ok (.entry level pte) → Opened ext k pt a k' new →
      new.flags.has PTE_U = true → PageRuns ext k pt a .faults (.ok (k', pt.set a new, true))

theorem copyoutPresent_eq (files : Files) (mm : mm_struct) (k : Phys) (pt : PageTable) (a : Nat) :
    copyoutPresent files mm k pt a = (do
      match ← walk pt a with
      | .null =>
        let (k, pt, ok) ← pagefault files mm .STORE_PAGEFAULT k pt a
        if ok then .error .null_pointer else return (k, pt, false)
      | .entry _ pte =>
        if pte = Pte.zero then pagefault files mm .STORE_PAGEFAULT k pt a else return (k, pt, true)) := by
  rw [← walk_down]
  rfl

theorem copyoutPage_ready {files : Files} {mm : mm_struct} {k₁ : Phys} {pt₁ : PageTable} {level : Level} {pte : Pte}
    (hpresent : copyoutPresent files mm k pt a = .ok (k₁, pt₁, true)) (hwalk : walk pt₁ a = .ok (.entry level pte))
    (hready : ¬(pte.flags.has PTE_W = false ∧ is_a_cow_page pte.flags = true)) :
    copyoutPage files mm k pt a = .ok (k₁, pt₁, true) := by
  unfold copyoutPage
  rw [hpresent, ok_bind]
  dsimp only
  rw [if_neg Bool.true_eq_false.mp, walk_down, hwalk, ok_bind]
  exact if_neg hready

theorem frameAt_of_translate {x frame : Nat} {flags : Flags} (ht : translate pt x = some (frame, flags)) : frameAt pt x = frame := by
  rw [frameAt, walkaddr_eq, ht]
  rfl

theorem translate_of_frameAt {x : Nat} (hne : frameAt pt x ≠ 0) : ∃ flags, translate pt x = some (frameAt pt x, flags) := by
  rw [frameAt, walkaddr_eq] at hne ⊢
  cases ht : translate pt x with
  | none =>
    rw [ht] at hne
    exact absurd rfl hne
  | some r =>
    obtain ⟨frame, flags⟩ := r
    exact ⟨flags, rfl⟩

theorem copyoutPage_stops {files : Files} {mm : mm_struct} {r : Except Panic (Phys × PageTable × Bool)}
    (hpresent : copyoutPresent files mm k pt a = r) (hr : ∀ k' pt', r ≠ .ok (k', pt', true)) : copyoutPage files mm k pt a = r := by
  unfold copyoutPage
  rw [hpresent]
  rcases r with e | ⟨k', pt', _ | _⟩
  · rfl
  · rfl
  · exact absurd rfl (hr k' pt')

/-- There is no table: the fault makes one, but the pointer is null still. -/
theorem page_null (files : Files) (mm : mm_struct) (hwalk : walk pt a = .ok .null) :
    PageRuns ext k pt a (if (storeArea mm a).isNone then .refused else .crashed) (copyoutPage files mm k pt a) := by
  have hpresent := copyoutPresent_eq files mm k pt a
  rw [hwalk, ok_bind] at hpresent
  dsimp only at hpresent
  rw [pagefault_store files mm k hwalk] at hpresent
  cases harea : storeArea mm a with
  | none =>
    rw [harea] at hpresent
    rw [copyoutPage_stops hpresent nofun]
    exact .refused k pt false nofun
  | some v =>
    rw [harea] at hpresent
    dsimp only [Option.elim, storeFault] at hpresent
    cases hpop : pagefault.populate files a v k pt with
    | error e =>
      rw [hpop] at hpresent
      rw [copyoutPage_stops hpresent nofun]
      exact .crashed e
    | ok r =>
      obtain ⟨k₁, pt₁, ok⟩ := r
      obtain rfl : ok = true := populate_true files v hpop
      rw [hpop] at hpresent
      rw [copyoutPage_stops hpresent nofun]
      exact .crashed _

/-- The fault fills an entry that is zero. -/
theorem page_zero (files : Files) {mm : mm_struct} {v : vma} {level : Level} (hheld : Held k pt ext) (hrooted : Rooted pt)
    (hnull : some 0 ∉ k.pool) (hmax : a < MAXVA) (hwalk : walk pt a = .ok (.entry level Pte.zero)) (harea : storeArea mm a = some v) :
    PageRuns ext k pt a (if fillCrashes files v (answers k) a then .crashed else if answers k = 0 then .refused else .faults)
      (copyoutPage files mm k pt a) := by
  have hpresent := copyoutPresent_eq files mm k pt a
  rw [hwalk, ok_bind] at hpresent
  dsimp only at hpresent
  rw [if_pos rfl, pagefault_store files mm k hwalk, harea] at hpresent
  have hfault : copyoutPresent files mm k pt a = pagefault.populate files a v k pt := hpresent
  have hfilled := populate_filled files hheld hrooted hnull (check_of_storeArea harea) hwalk
  rw [← hfault] at hfilled
  generalize hr : copyoutPresent files mm k pt a = r at hfilled
  cases hfilled with
  | misled =>
    rw [copyoutPage_stops hr nofun]
    exact .misled _
  | crashed e hyes =>
    rw [copyoutPage_stops hr nofun, if_pos hyes]
    exact .crashed e
  | empty k' hno hnil =>
    rw [copyoutPage_ready hr hwalk (by decide), if_neg (by rw [hno]; decide), if_pos hnil]
    refine .refused k' pt true fun _ => ?_
    rw [frameAt, walkaddr_eq, translate_of_walk hwalk]
    rfl
  | opened k' new hno hpos hopened hu =>
    have hset := walk_set hwalk (pte_ne_zero hopened.valid) hmax
    rw [if_pos rfl] at hset
    rw [copyoutPage_ready hr hset (by rw [hopened.write]; simp), if_neg (by rw [hno]; decide), if_neg hpos.ne']
    exact .faults k' level _ new hwalk hopened hu

/-- The fault copies a page that is shared until it is written to. -/
theorem page_cow (files : Files) (mm : mm_struct) {level : Level} {pte : Pte} (hheld : Held k pt ext) (hmax : a < MAXVA)
    (hwalk : walk pt a = .ok (.entry level pte)) (hzero : pte ≠ Pte.zero) (hcow : CowFlags pte.flags) :
    PageRuns ext k pt a (if (storeArea mm a).isNone ∨ answers k = 0 ∨ pte.flags.has PTE_U = false then .refused else .faults)
      (pagefault files mm .STORE_PAGEFAULT k pt a) := by
  have hv := (valid_of_walk hheld.2 hwalk).resolve_left hzero
  rw [pagefault_store files mm k hwalk]
  cases harea : storeArea mm a with
  | none =>
    rw [if_pos (.inl rfl)]
    exact .refused k pt false nofun
  | some v =>
    have hfault : storeFault files k pt a v (.entry level pte) = cow k pt a level pte := by
      rw [storeFault, if_neg hzero, if_neg (by rw [hv]; decide), if_pos hcow.2]
    have hdone := cow_done hheld hwalk hv hcow
    dsimp only [Option.elim]
    rw [hfault]
    generalize cow k pt a level pte = r at hdone ⊢
    cases hdone with
    | misled => exact .misled _
    | short k' hnil =>
      rw [if_pos (.inr (.inl hnil))]
      exact .refused k' pt false nofun
    | opened k' new hpos hopened hu =>
      have hset := walk_set hwalk (pte_ne_zero hopened.valid) hmax
      rw [if_pos rfl] at hset
      cases huser : pte.flags.has PTE_U with
      | false =>
        rw [if_pos (.inr (.inr rfl))]
        refine .refused k' _ true fun _ => ?_
        rw [frameAt, walkaddr_eq, translate_of_walk hset, hu, huser, Bool.and_false]
        rfl
      | true =>
        rw [if_neg]
        · exact .faults k' level pte new hwalk hopened (hu.trans huser)
        rintro (h | h | h)
        · cases h
        · exact Nat.ne_of_gt hpos h
        · cases h

/-- A page that is there stays as it is. -/
theorem page_present {level : Level} {pte : Pte} (hwalk : walk pt a = .ok (.entry level pte)) (hcow : ¬CowFlags pte.flags) :
    PageRuns ext k pt a (if frameAt pt a = 0 then .refused else if pte.flags.has PTE_W then .writable else .readonly)
      (.ok (k, pt, true)) := by
  by_cases hframe : frameAt pt a = 0
  · rw [if_pos hframe]
    exact .refused k pt true fun _ => hframe
  rw [if_neg hframe]
  obtain ⟨flags, ht⟩ := translate_of_frameAt hframe
  have hflags : flags = pte.flags := by
    have ht' := ht
    rw [translate_of_walk hwalk] at ht'
    split at ht'
    · rw [Option.some_inj, Prod.mk.injEq] at ht'
      exact ht'.2.symm
    · cases ht'
  cases hw : pte.flags.has PTE_W with
  | true =>
    rw [if_pos rfl]
    exact .writable _ hframe (writable_iff.mpr ⟨flags, ht, hflags ▸ hw⟩)
  | false =>
    rw [if_neg (by decide)]
    refine .readonly _ flags ht hframe (hflags ▸ hw) ?_
    rw [hflags, Bool.eq_false_iff]
    exact fun h => hcow ⟨hw, h⟩

theorem copyoutPage_runs (files : Files) (mm : mm_struct) (hheld : Held k pt ext) (hrooted : Rooted pt) (hnull : some 0 ∉ k.pool)
    (hmax : a < MAXVA) :
    PageRuns ext k pt a (pageKind files mm pt (answers k) a) (copyoutPage files mm k pt a) := by
  obtain ⟨found, hwalk⟩ := walk_of_lt pt hmax
  have hpresent := copyoutPresent_eq files mm k pt a
  rw [hwalk, ok_bind] at hpresent
  unfold pageKind
  rw [hwalk]
  cases found with
  | null => exact page_null files mm hwalk
  | entry level pte =>
    dsimp only at hpresent ⊢
    by_cases hzero : pte = Pte.zero
    · subst hzero
      rw [if_pos rfl]
      cases harea : storeArea mm a with
      | none =>
        rw [if_pos rfl, pagefault_store files mm k hwalk, harea] at hpresent
        rw [copyoutPage_stops hpresent nofun]
        exact .refused k pt false nofun
      | some v => exact page_zero files hheld hrooted hnull hmax hwalk harea
    rw [if_neg hzero] at hpresent ⊢
    by_cases hcow : pte.flags.has PTE_W = false ∧ is_a_cow_page pte.flags = true
    · rw [if_pos hcow]
      have hpage : copyoutPage files mm k pt a = pagefault files mm .STORE_PAGEFAULT k pt a := by
        unfold copyoutPage
        rw [show copyoutPresent files mm k pt a = .ok (k, pt, true) from hpresent, ok_bind]
        dsimp only
        rw [if_neg Bool.true_eq_false.mp, walk_down, hwalk, ok_bind]
        exact if_pos hcow
      rw [hpage]
      exact page_cow files mm hheld hmax hwalk hzero hcow
    · rw [if_neg hcow, copyoutPage_ready hpresent hwalk hcow]
      exact page_present hwalk hcow

end

/-! ## The loop -/

section

variable {k k₁ k₂ : Phys} {pt pt₀ pt₁ : PageTable} {ext : Holders} {a : Nat} {src : List UInt8} {v : Verdict}
  {res : Except Panic (Phys × PageTable × Bool)}

/-- The bytes of `[a, a + src.length)` are those of `src`, behind entries that may be written. -/
def There (k : Phys) (pt : PageTable) (a : Nat) (src : List UInt8) : Prop :=
  ∀ i, ∀ hi : i < src.length, ∃ frame flags, translate pt (a + i) = some (frame, flags) ∧ flags.has PTE_W = true ∧
    k.mem frame ((a + i) % PGSIZE) = src[i]

/-- A page of the range may not be written. -/
def SomeReadonly (pt : PageTable) (a len : Nat) : Prop :=
  ∃ i, i < len ∧ ∃ frame flags, translate pt (a + i) = some (frame, flags) ∧ flags.has PTE_W = false

/-- What the loop does from `a` on, by the verdict on the rest of the range. -/
inductive LoopRuns (ext : Holders) (k : Phys) (pt : PageTable) (a : Nat) (src : List UInt8) :
    Verdict → Except Panic (Phys × PageTable × Bool) → Prop
  | misled (v : Verdict) : LoopRuns ext k pt a src v (.error .block_in_use)
  | crashed (e : Panic) : LoopRuns ext k pt a src .crashed (.error e)
  | refused (k' : Phys) (pt' : PageTable) : LoopRuns ext k pt a src .refused (.ok (k', pt', false))
  | readonly (k' : Phys) (pt' : PageTable) : Keeps ext (Spanned a src.length) k pt k' pt' → SomeReadonly pt' a src.length →
      LoopRuns ext k pt a src .readonly (.ok (k', pt', true))
  | written (k' : Phys) (pt' : PageTable) : Keeps ext (Spanned a src.length) k pt k' pt' →
      Spares ext (Spanned a src.length) k pt k' → There k' pt' a src → LoopRuns ext k pt a src .written (.ok (k', pt', true))

theorem spanned_rest {n len : Nat} (x : Nat) (h : Spanned (a + n) (len - n) x) : Spanned a len x ∧ a + n ≤ x := by
  obtain ⟨hlo, hhi⟩ := h
  exact ⟨⟨by omega, by omega⟩, hlo⟩

theorem Spares.mono {S S' : Nat → Prop} (h : Spares ext S k pt k₁) (himp : ∀ x, S x → S' x) : Spares ext S' k pt k₁ := by
  intro f u frame p hext hin
  rcases h f u frame p hext hin with hmem | ⟨x, hS, hw, hp⟩
  · exact .inl hmem
  · exact .inr ⟨x, himp x hS, hw, hp⟩

theorem not_cow_of_write {flags : Flags} (hw : flags.has PTE_W = true) : ¬CowFlags flags := by
  rintro ⟨hnot, -⟩
  rw [hw] at hnot
  cases hnot

/-- After a page that may be written. -/
theorem LoopRuns.after_write {n : Nat} (hkeeps : Keeps ext (Spanned a src.length) k pt k₁ pt₁)
    (hspares : Spares ext (Spanned a src.length) k pt k₁) (hthere : There k₁ pt₁ a (src.take n))
    (h : LoopRuns ext k₁ pt₁ (a + n) (src.drop n) v res) : LoopRuns ext k pt a src v res := by
  have hrest : ∀ x, Spanned (a + n) (src.drop n).length x → Spanned a src.length x ∧ a + n ≤ x := by
    intro x hx
    rw [List.length_drop] at hx
    exact spanned_rest x hx
  cases h with
  | misled => exact .misled v
  | crashed e => exact .crashed e
  | refused k' pt' => exact .refused k' pt'
  | readonly k' pt' hkeeps' hreadonly =>
    refine .readonly k' pt' (hkeeps.trans (hkeeps'.mono fun x hx => (hrest x hx).1)) ?_
    obtain ⟨i, hi, frame, flags, ht, hw⟩ := hreadonly
    rw [List.length_drop] at hi
    rw [Nat.add_assoc] at ht
    exact ⟨n + i, by omega, frame, flags, ht, hw⟩
  | written k' pt' hkeeps' hspares' hthere' =>
    refine .written k' pt' (hkeeps.trans (hkeeps'.mono fun x hx => (hrest x hx).1))
      (hspares.trans hkeeps (hspares'.mono fun x hx => (hrest x hx).1)) fun i hi => ?_
    rcases lt_or_ge i n with hlt | hge
    · have hlen : i < (src.take n).length := by
        rw [List.length_take]
        omega
      obtain ⟨frame, flags, ht, hw, hmem⟩ := hthere i hlen
      obtain ⟨frame', flags', ht', hsame, hmem'⟩ := hkeeps'.seen _ frame flags ht
      obtain ⟨rfl, rfl⟩ := hsame.resolve_left (not_cow_of_write hw)
      refine ⟨frame', flags', ht', hw, ?_⟩
      rw [hmem' fun hx => absurd (hrest _ hx).2 (by omega), hmem, List.getElem_take]
    · obtain ⟨j, rfl⟩ := Nat.exists_eq_add_of_le hge
      obtain ⟨frame, flags, ht, hw, hmem⟩ := hthere' j (by rw [List.length_drop]; omega)
      rw [Nat.add_assoc] at ht hmem
      refine ⟨frame, flags, ht, hw, ?_⟩
      rw [hmem, List.getElem_drop]

/-- After a page that may not be written, and is. -/
theorem LoopRuns.after_readonly {n frame : Nat} {flags : Flags} (hkeeps : Keeps ext (Spanned a src.length) k pt k₁ pt₁)
    (hpos : 0 < src.length) (ht : translate pt₁ a = some (frame, flags)) (hw : flags.has PTE_W = false)
    (hcow : is_a_cow_page flags = false) (h : LoopRuns ext k₁ pt₁ (a + n) (src.drop n) v res) :
    LoopRuns ext k pt a src v.afterReadonly res := by
  have hrest : ∀ x, Spanned (a + n) (src.drop n).length x → Spanned a src.length x := by
    intro x hx
    rw [List.length_drop] at hx
    exact (spanned_rest x hx).1
  have hstays : ∀ k' pt', Keeps ext (Spanned (a + n) (src.drop n).length) k₁ pt₁ k' pt' → SomeReadonly pt' a src.length := by
    intro k' pt' hkeeps'
    obtain ⟨frame', flags', ht', hsame, -⟩ := hkeeps'.seen a frame flags ht
    have hnot : ¬CowFlags flags := by
      rintro ⟨-, h⟩
      rw [hcow] at h
      cases h
    obtain ⟨rfl, rfl⟩ := hsame.resolve_left hnot
    exact ⟨0, hpos, frame', flags', ht', hw⟩
  cases h with
  | misled => exact .misled _
  | crashed e => exact .crashed e
  | refused k' pt' => exact .refused k' pt'
  | readonly k' pt' hkeeps' => exact .readonly k' pt' (hkeeps.trans (hkeeps'.mono hrest)) (hstays k' pt' hkeeps')
  | written k' pt' hkeeps' => exact .readonly k' pt' (hkeeps.trans (hkeeps'.mono hrest)) (hstays k' pt' hkeeps')

/-- The table in the middle of the loop, from `a` on: as it was before, but for the 2M leaves that are copied. -/
structure AsBefore (pt₀ : PageTable) (copied : List (Fin NREGION)) (pt : PageTable) (a : Nat) : Prop where
  same : ∀ x, a ≤ x → x < MAXVA → region x ∉ copied → walk pt x = walk pt₀ x
  copied : ∀ x, a ≤ x → x < MAXVA → region x ∈ copied → WritableAt pt x

theorem AsBefore.mono {copied : List (Fin NREGION)} (h : AsBefore pt₀ copied pt a) {b : Nat} (hab : a ≤ b) :
    AsBefore pt₀ copied pt b :=
  ⟨fun x hx => h.same x (hab.trans hx), fun x hx => h.copied x (hab.trans hx)⟩

theorem pageKind_congr (files : Files) (mm : mm_struct) (n : Nat) (h : walk pt a = walk pt₀ a) :
    pageKind files mm pt n a = pageKind files mm pt₀ n a := by
  have hframe : frameAt pt a = frameAt pt₀ a := by
    rw [frameAt, frameAt, walkaddr_eq, walkaddr_eq, translate_congr_walk h]
  unfold pageKind
  rw [h, hframe]

/-- A fault at `a` is seen from the pages behind only where it copied a 2M leaf. -/
theorem AsBefore.fault {copied : List (Fin NREGION)} {level : Level} {pte new : Pte} (h : AsBefore pt₀ copied pt a)
    (hnot : region a ∉ copied) (hwalk : walk pt a = .ok (.entry level pte)) (hv : new.flags.has PTE_V = true)
    (hu : new.flags.has PTE_U = true) (hw : new.flags.has PTE_W = true) (hne : new.pfn ≠ 0) :
    AsBefore pt₀ (copiedAfter pt₀ copied a) (pt.set a new) (PGROUNDDOWN a + PGSIZE) := by
  have hmax := (dir_of_walk hwalk).1
  have hwalk₀ : walk pt₀ a = .ok (.entry level pte) := (h.same a le_rfl hmax hnot).symm.trans hwalk
  have hnext : a ≤ PGROUNDDOWN a + PGSIZE := by
    simp only [PGROUNDDOWN, pgsize_eq]
    omega
  have hcopied : ∀ r, r ∈ copiedAfter pt₀ copied a ↔ level = .SUPERPAGE ∧ r = region a ∨ r ∈ copied := by
    intro r
    rw [copiedAfter, hwalk₀]
    cases level with
    | COMMONPAGE => simp
    | SUPERPAGE => simp
  -- the place of `a` is that of a later page only in a 2M leaf
  have hplace : ∀ x, PGROUNDDOWN a + PGSIZE ≤ x → x < MAXVA → place x level = place a level →
      level = .SUPERPAGE ∧ region x = region a := by
    intro x hx hxmax hplace
    cases level with
    | SUPERPAGE => exact ⟨rfl, Use.super.inj hplace⟩
    | COMMONPAGE =>
      have hdiv : x / 4096 = a / 4096 := (place_inj hxmax hmax hplace).2
      simp only [PGROUNDDOWN, pgsize_eq] at hx
      omega
  constructor
  · intro x hx hxmax hout
    rw [hcopied, not_or] at hout
    rw [walk_set hwalk (pte_ne_zero hv) hxmax, if_neg fun heq => hout.1 (hplace x hx hxmax heq)]
    exact h.same x (hnext.trans hx) hxmax hout.2
  intro x hx hxmax hin
  have hset := walk_set hwalk (pte_ne_zero hv) hxmax
  by_cases heq : place x level = place a level
  · rw [if_pos heq] at hset
    refine ⟨frameOf new level x, ?_, writable_iff.mpr ⟨new.flags, ?_, hw⟩⟩
    · rw [frameOf]
      omega
    · rw [translate_of_walk hset, hv, hu]
      rfl
  · rw [if_neg heq] at hset
    have hold : region x ∈ copied := by
      rcases (hcopied _).mp hin with ⟨rfl, hr⟩ | hold
      · exact absurd (congrArg Use.super hr) heq
      · exact hold
    obtain ⟨frame, hframe, hwx⟩ := h.copied x (hnext.trans hx) hxmax hold
    refine ⟨frame, hframe, ?_⟩
    rw [writable, translate_congr_walk hset]
    exact hwx

theorem copyoutLoop_page (files : Files) (mm : mm_struct) (k : Phys) (pt : PageTable) (fuel : Nat) (hsrc : src ≠ [])
    (hmax : a < MAXVA) :
    copyoutLoop files mm (fuel + 1) k pt a src = (do
      let (k, pt, ok) ← copyoutPage files mm k pt a
      if ok = false then return (k, pt, false)
      if frameAt pt a = 0 then return (k, pt, false)
      copyoutLoop files mm fuel (k.setBytes (frameAt pt a) (a % PGSIZE) (src.take (PGSIZE - a % PGSIZE))) pt
        (a + (PGSIZE - a % PGSIZE)) (src.drop (PGSIZE - a % PGSIZE))) := by
  have hdown : ∀ pt : PageTable, (walkaddr pt (PGROUNDDOWN a)).getD 0 = frameAt pt a := fun pt => frameAt_down pt a
  rw [copyoutLoop, if_neg (not_le.mpr (down_lt_maxva.mpr hmax))]
  · simp only [hdown, (down_eq a).1, (down_eq a).2]
  · exact hsrc

/-- The write of a turn. -/
theorem turn_written {frame : Nat} (hheld : Held k pt ext) (hw : writable pt a = some frame) (src : List UInt8) :
    Keeps ext (Spanned a src.length) k pt (k.setBytes frame (a % PGSIZE) (src.take (PGSIZE - a % PGSIZE))) pt ∧
    Spares ext (Spanned a src.length) k pt (k.setBytes frame (a % PGSIZE) (src.take (PGSIZE - a % PGSIZE))) ∧
    There (k.setBytes frame (a % PGSIZE) (src.take (PGSIZE - a % PGSIZE))) pt a (src.take (PGSIZE - a % PGSIZE)) := by
  obtain ⟨flags, ht, hflags⟩ := writable_iff.mp hw
  have hlen : (src.take (PGSIZE - a % PGSIZE)).length ≤ PGSIZE - a % PGSIZE := List.length_take_le _ _
  have hle : (src.take (PGSIZE - a % PGSIZE)).length ≤ src.length := List.length_take_le' _ _
  have hpart : ∀ x, Spanned a (src.take (PGSIZE - a % PGSIZE)).length x → Spanned a src.length x :=
    fun x hx => ⟨hx.1, hx.2.trans_le (Nat.add_le_add_left hle a)⟩
  refine ⟨(keeps_setBytes _ hheld ht).mono hpart, (spares_setBytes hw hlen).mono hpart, fun i hi => ?_⟩
  have hin := hi.trans_le hlen
  refine ⟨frame, flags, (translate_page pt hin).trans ht, hflags, ?_⟩
  rw [(frameAt_page pt hin).2]
  exact setBytes_in k frame _ _ hi

/-- The rest of the loop behind a page that is written. -/
theorem LoopRuns.turn {frame : Nat} (hkeeps : Keeps ext (Spanned a src.length) k pt k₁ pt₁)
    (hspares : Spares ext (Spanned a src.length) k pt k₁) (hw : Vm.writable pt₁ a = some frame)
    (hrest : Held (k₁.setBytes frame (a % PGSIZE) (src.take (PGSIZE - a % PGSIZE))) pt₁ ext →
      LoopRuns ext (k₁.setBytes frame (a % PGSIZE) (src.take (PGSIZE - a % PGSIZE))) pt₁ (a + (PGSIZE - a % PGSIZE))
        (src.drop (PGSIZE - a % PGSIZE)) v res) : LoopRuns ext k pt a src v res := by
  obtain ⟨hkeeps', hspares', hthere⟩ := turn_written hkeeps.held hw src
  exact .after_write (hkeeps.trans hkeeps') (hspares.trans hkeeps hspares') hthere (hrest hkeeps'.held)

theorem Opened.writable {level : Level} {pte new : Pte} (h : Opened ext k pt a k₁ new) (hwalk : walk pt a = .ok (.entry level pte))
    (hu : new.flags.has PTE_U = true) : Vm.writable (pt.set a new) a = some (frameOf new level a) := by
  have hset := walk_set hwalk (pte_ne_zero h.valid) (dir_of_walk hwalk).1
  rw [if_pos rfl] at hset
  refine writable_iff.mpr ⟨new.flags, ?_, h.write⟩
  rw [translate_of_walk hset, h.valid, hu]
  rfl

theorem copyoutLoop_runs (files : Files) (mm : mm_struct) {fuel : Nat} {copied : List (Fin NREGION)} (hfuel : src.length ≤ fuel)
    (hheld : Held k pt ext) (hrooted : Rooted pt) (hnull : some 0 ∉ k.pool) (hbefore : AsBefore pt₀ copied pt a) :
    LoopRuns ext k pt a src (verdict files mm pt₀ fuel copied (answers k) a src.length) (copyoutLoop files mm fuel k pt a src) := by
  induction fuel generalizing k pt a src copied with
  | zero =>
    obtain rfl : src = [] := List.length_eq_zero_iff.mp (Nat.le_zero.mp hfuel)
    exact .written k pt (.refl hheld) (.refl pt k) fun i hi => absurd hi (Nat.not_lt_zero i)
  | succ fuel ih =>
    rcases eq_or_ne src [] with rfl | hsrc
    · exact .written k pt (.refl hheld) (.refl pt k) fun i hi => absurd hi (Nat.not_lt_zero i)
    have hpos : 0 < src.length := List.length_pos_of_ne_nil hsrc
    obtain ⟨len, hlen⟩ : ∃ len, src.length = len + 1 := ⟨src.length - 1, by omega⟩
    have hpage : a % PGSIZE < PGSIZE := Nat.mod_lt _ (by decide)
    obtain ⟨-, hnext⟩ := down_eq a
    -- what is left of the range after the page
    have hrest : (src.drop (PGSIZE - a % PGSIZE)).length ≤ fuel := by
      rw [List.length_drop]
      omega
    have hleft : len + 1 - (PGSIZE - a % PGSIZE) = (src.drop (PGSIZE - a % PGSIZE)).length := by
      rw [List.length_drop, hlen]
    have hmono : AsBefore pt₀ copied pt (a + (PGSIZE - a % PGSIZE)) := hbefore.mono le_self_add
    rw [hlen, verdict]
    by_cases hmax : a < MAXVA
    · have hloop := copyoutLoop_page files mm k pt fuel hsrc hmax
      -- a page that may be written already
      have hwritable : ∀ frame, frame ≠ 0 → writable pt a = some frame → copyoutPage files mm k pt a = .ok (k, pt, true) →
          LoopRuns ext k pt a src (verdict files mm pt₀ fuel copied (answers k) (PGROUNDDOWN a + PGSIZE) (len + 1 - (PGSIZE - a % PGSIZE)))
            (copyoutLoop files mm (fuel + 1) k pt a src) := by
        intro frame hframe hw hr
        rw [hloop, hr, ok_bind]
        dsimp only
        rw [if_neg Bool.true_eq_false.mp, frameAt_of_writable hw, if_neg hframe, hnext, hleft]
        exact .turn (.refl hheld) (.refl pt k) hw fun hheld' => ih hrest hheld' hrooted hnull hmono
      by_cases hin : region a ∈ copied
      · rw [if_pos ⟨hmax, hin⟩]
        obtain ⟨frame, hframe, hw⟩ := hbefore.copied a le_rfl hmax hin
        exact hwritable frame hframe hw (copyoutPage_of_writable files mm k ⟨frame, hframe, hw⟩)
      rw [if_neg fun h => hin h.2]
      have hruns := copyoutPage_runs files mm hheld hrooted hnull hmax
      rw [pageKind_congr files mm (answers k) (hbefore.same a le_rfl hmax hin)] at hruns
      generalize pageKind files mm pt₀ (answers k) a = kind at hruns ⊢
      generalize hr : copyoutPage files mm k pt a = r at hruns
      cases hruns with
      | misled =>
        rw [hloop, hr]
        exact .misled _
      | crashed e =>
        rw [hloop, hr]
        exact .crashed e
      | refused k' pt' ok hframe =>
        rw [hloop, hr, ok_bind]
        dsimp only
        cases ok with
        | false => exact .refused k' pt'
        | true =>
          rw [if_neg Bool.true_eq_false.mp, if_pos (hframe rfl)]
          exact .refused k' pt'
      | readonly frame flags ht hframe hw hcow =>
        rw [hloop, hr, ok_bind]
        dsimp only
        rw [if_neg Bool.true_eq_false.mp, frameAt_of_translate ht, if_neg hframe, hnext, hleft]
        have hpart : ∀ x, Spanned a (src.take (PGSIZE - a % PGSIZE)).length x → Spanned a src.length x := fun x hx =>
          ⟨hx.1, hx.2.trans_le (Nat.add_le_add_left (List.length_take_le' _ _) a)⟩
        have hkeeps := (keeps_setBytes (src.take (PGSIZE - a % PGSIZE)) hheld ht).mono hpart
        exact .after_readonly hkeeps hpos ht hw hcow (ih hrest hkeeps.held hrooted hnull hmono)
      | writable frame hframe hw => exact hwritable frame hframe hw hr
      | faults k' level pte new hwalk hopened hu =>
        rw [hopened.pool, List.mem_cons, not_or] at hnull
        have hne : new.pfn ≠ 0 := fun hzero => hnull.1 (congrArg some hzero.symm)
        have hw := hopened.writable hwalk hu
        have hframe : frameOf new level a ≠ 0 := by
          rw [frameOf]
          omega
        have hanswers : answers k - 1 = answers k' := by
          rw [answers_cons hopened.pool, Nat.add_sub_cancel]
        have hfault := hbefore.fault hin hwalk hopened.valid hu hopened.write hne
        rw [hnext] at hfault
        rw [hloop, hr, ok_bind]
        dsimp only
        rw [if_neg Bool.true_eq_false.mp, frameAt_of_writable hw, if_neg hframe, hnext, hleft, hanswers]
        exact .turn (hopened.keeps.mono fun x hx => hx.elim) (hopened.kept.spares hheld pt) hw fun hheld' =>
          ih hrest hheld' (hrooted.set hwalk new) hnull.2 hfault
    · rw [if_neg fun h => hmax h.1]
      have hkind : pageKind files mm pt₀ (answers k) a = .refused := by
        unfold pageKind walk
        rw [if_pos (not_lt.mp hmax)]
      rw [hkind, copyoutLoop, if_pos (not_lt.mp fun h => hmax (down_lt_maxva.mp h))]
      · exact .refused k pt
      · exact hsrc

end

/-! ## `copyout` -/

/-- **`copyout`.**  It writes the bytes where the user may write and nowhere else, or returns -1, if and only if no page
of the range has a null pointer used and none is written that may not be, unless a later page is refused. -/
theorem copyout_safe_iff {files : Files} {mm : mm_struct} {k : Phys} {pt : PageTable} {ext : Holders} {dstva : Nat}
    {src : List UInt8} (hheld : Held k pt ext) (hrooted : Rooted pt) (hnull : some 0 ∉ k.pool)
    (hfree : copyout files mm k pt dstva src ≠ .error .block_in_use) :
    CopyoutLaw ext k pt dstva src (copyout files mm k pt dstva src) ↔
      verdict files mm pt src.length [] (answers k) dstva src.length = .written ∨
      verdict files mm pt src.length [] (answers k) dstva src.length = .refused := by
  have hbefore : AsBefore pt [] pt dstva := ⟨fun _ _ _ _ => rfl, fun x _ _ hx => by cases hx⟩
  have hruns := copyoutLoop_runs files mm (Nat.le_refl src.length) hheld hrooted hnull hbefore
  rw [copyout] at hfree ⊢
  generalize copyoutLoop files mm src.length k pt dstva src = res at hruns hfree ⊢
  generalize verdict files mm pt src.length [] (answers k) dstva src.length = v at hruns ⊢
  cases hruns with
  | misled => exact absurd rfl hfree
  | crashed e => exact ⟨fun h => h.elim, fun h => by rcases h with h | h <;> cases h⟩
  | refused k' pt' => exact ⟨fun _ => .inr rfl, fun _ => trivial⟩
  | readonly k' pt' hkeeps hreadonly =>
    obtain ⟨i, hi, frame, flags, ht, hw⟩ := hreadonly
    refine ⟨fun h => ?_, fun h => by rcases h with h | h <;> cases h⟩
    obtain ⟨frame', flags', ht', hw', -⟩ := h.there i hi
    rw [ht] at ht'
    cases ht'
    rw [hw] at hw'
    cases hw'
  | written k' pt' hkeeps hspares hthere =>
    refine ⟨fun _ => .inl rfl, fun _ => ⟨hthere, fun a frame flags hout ht => ?_, fun f u frame p hext hin => ?_⟩⟩
    · obtain ⟨frame', flags', ht', -, hmem⟩ := hkeeps.seen a frame flags ht
      exact ⟨frame', flags', ht', hmem hout⟩
    rcases hspares f u frame p hext hin with hsame | ⟨a, ⟨hlo, hhi⟩, hw, hp⟩
    · exact .inl hsame
    · obtain ⟨i, rfl⟩ := Nat.exists_eq_add_of_le hlo
      exact .inr ⟨i, by omega, hw, hp⟩

theorem Rooted.setEntry {pt : PageTable} (h : Rooted pt) {a : Nat} (hroot : (pt.roots (rootOf a)).isSome = true) (e : Entry) :
    Rooted (pt.setEntry (region a) e) := by
  intro va hne
  show (pt.roots (rootOf va)).isSome = true
  rcases eq_or_ne (region va) (region a) with hr | hr
  · -- a region has one root entry
    have hsame : rootOf va = rootOf a := by
      have hval : va / 2097152 % 131072 = a / 2097152 % 131072 := congrArg Fin.val hr
      apply Fin.ext
      show va / 1073741824 % 256 = a / 1073741824 % 256
      omega
    rw [hsame]
    exact hroot
  · rw [setEntry_dir pt a _ _ hr] at hne
    exact h va hne

/-- A heap with its first page. -/
def heapPage : PageTable :=
  let pt : PageTable := { uvmcreate with roots := update uvmcreate.roots (rootOf 0x400000) (some 2) }
  (pt.setEntry (region 0x400000) (.table 3 fun _ => Pte.zero)).setEntry (region 0x400000)
    (.table 3 (update (fun _ => Pte.zero) (slot 0x400000) ⟨1, allocFlags (perm_vma2pte (PERM_READ ||| PERM_WRITE))⟩))

theorem copyout_safe_iff_heap : ∃ k ext, CopyoutLaw ext k heapPage 0x400fff [1, 2]
    (copyout (fun _ _ => none) System.heapSpace k heapPage 0x400fff [1, 2]) := by
  have hboot : (System.booted [some 1, some 2, some 3, some 4]).Boot := ⟨fun _ => rfl, fun _ => rfl, fun _ => rfl, fun _ => rfl⟩
  obtain ⟨k, hk, hanswers, hnull, r, hr⟩ : ∃ k, firstStore [some 1, some 2, some 3, some 4] = .ok (k, heapPage, true) ∧
      answers k = 1 ∧ some 0 ∉ k.pool ∧
      ∃ r, copyout (fun _ _ => none) System.heapSpace k heapPage 0x400fff [1, 2] = .ok r :=
    ⟨_, rfl, rfl, by decide, _, rfl⟩
  have hheld := (pagefault_held _ _ _ _ (hboot.inv.held 0)).of_ok hk
  have hroot : Rooted { uvmcreate with roots := Function.update uvmcreate.roots (rootOf 0x400000) (some 2) } :=
    fun _ hne => absurd rfl hne
  have hrooted : Rooted heapPage := (hroot.setEntry rfl _).setEntry rfl _
  have hfree : copyout (fun _ _ => none) System.heapSpace k heapPage 0x400fff [1, 2] ≠ .error .block_in_use := by
    rw [hr]
    intro h
    cases h
  refine ⟨k, _, (copyout_safe_iff hheld hrooted hnull hfree).mpr (.inl ?_)⟩
  rw [hanswers]
  rfl

/-- The null pointer is read for the first page of a heap. -/
theorem null_pointer_is_read : ¬∀ (files : Files) (mm : mm_struct) (k : Phys) (pt : PageTable) (ext : Holders) (dstva : Nat)
    (src : List UInt8), Held k pt ext → Rooted pt → some 0 ∉ k.pool →
      copyout files mm k pt dstva src ≠ .error .block_in_use → CopyoutLaw ext k pt dstva src (copyout files mm k pt dstva src) := by
  intro hall
  have hboot : (System.booted [some 1, some 2, some 3]).Boot := ⟨fun _ => rfl, fun _ => rfl, fun _ => rfl, fun _ => rfl⟩
  have hres : copyout (fun _ _ => none) System.heapSpace (System.booted [some 1, some 2, some 3]).phys uvmcreate 0x400123 [7] =
      .error .null_pointer := rfl
  have hlaw := hall (fun _ _ => none) System.heapSpace (System.booted [some 1, some 2, some 3]).phys uvmcreate _ 0x400123 [7]
    (hboot.inv.held 0) (fun _ hne => absurd rfl hne) (by decide) (by rw [hres]; intro h; cases h)
  rw [hres] at hlaw
  exact hlaw

end LostWakeup.Mm.Vm
