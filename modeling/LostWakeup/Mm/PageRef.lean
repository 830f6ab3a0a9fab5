/-
# LostWakeup.Mm.PageRef — reference counts are exact.

A block has one use: memory of kernel code, a page-table page, or the page behind a leaf entry at one place of the address
space.  `Counted k own` says that all holders of a block agree on its use, that its reference count is their number, and
that the allocated blocks are disjoint and are exactly the frames marked busy.  Each function of `vm.c` keeps
`refs + ext`, what its table holds beside holders `ext` that it does not touch.
-/
import LostWakeup.Mm.Vm

namespace LostWakeup.Mm.Vm

open Library
open Function (update update_of_ne update_self)
open Mm.Vma (PGSIZE SUPERPGSIZE PGROUNDUP PGROUNDDOWN SUPERPG_ROUNDUP PERM_READ PERM_WRITE PERM_EXEC
  PERM_SHARED File vma vmatype mm_struct find_vma_for_va)

/-! ## Frames -/

/-- The panics about reference counts. -/
def Panic.refcnt : Panic → Bool
  | .kmalloc_refcnt | .kfree_refcnt | .kfree_not_allocated | .share_refcnt => true
  | _ => false

/-- The ways a function may stop here. -/
def Benign (e : Panic) : Prop := e.refcnt = false

/-- What a block is used for. -/
inductive Use
  | kernel (order : Nat)
  /-- Page-table pages. -/
  | root (r : Fin NROOT)
  | table (r : Fin NREGION)
  /-- Pages behind leaf entries. -/
  | common (r : Fin NREGION) (s : Fin NPTE)
  | super (r : Fin NREGION)
  deriving DecidableEq

namespace Use

def order : Use → Nat
  | kernel order => order
  | super _ => 9
  | _ => 0

/-- Only these can have more than one holder. -/
def leaf : Use → Bool
  | common _ _ | super _ => true
  | _ => false

/-- The region of a use that is recorded in a level-1 entry. -/
def region? : Use → Option (Fin NREGION)
  | table r | common r _ | super r => some r
  | _ => none

end Use

/-- How many holders a block has, by its first frame and its use. -/
abbrev Holders := Nat → Use → Nat

/-- One more holder of `page`. -/
def bump (own : Holders) (page : Nat) (use : Use) : Holders :=
  fun f u => own f u + if f = page ∧ u = use then 1 else 0

structure CountedAs (k : Phys) (own : Holders) (use : Nat → Use) : Prop where
  refcnt : ∀ f u, own f u = if u = use f then k.refcnt f else 0
  order : ∀ f, 0 < k.refcnt f → k.order f = (use f).order
  once : ∀ f, (use f).leaf = false → k.refcnt f ≤ 1
  busy : ∀ f frame, 0 < k.refcnt f → inBlock f (k.order f) frame = true → k.busy frame = true
  covered : ∀ frame, k.busy frame = true → ∃ f, 0 < k.refcnt f ∧ inBlock f (k.order f) frame = true
  disjoint : ∀ f g frame, 0 < k.refcnt f → 0 < k.refcnt g → inBlock f (k.order f) frame = true →
    inBlock g (k.order g) frame = true → f = g

def Counted (k : Phys) (own : Holders) : Prop := ∃ use, CountedAs k own use

theorem inBlock_self (page order : Nat) : inBlock page order page = true := by
  have : 0 < 2 ^ order := Nat.pow_pos (by decide)
  simp only [inBlock, Bool.and_eq_true, decide_eq_true_eq]
  omega

theorem inBlock_iff (page order frame : Nat) :
    inBlock page order frame = true ↔ ∃ i, i < 2 ^ order ∧ frame = page + i := by
  simp only [inBlock, Bool.and_eq_true, decide_eq_true_eq]
  constructor
  · intro h
    exact ⟨frame - page, by omega, by omega⟩
  · rintro ⟨i, hi, rfl⟩
    omega

namespace CountedAs

variable {k : Phys} {own : Holders} {use : Nat → Use}

theorem use_eq (h : CountedAs k own use) {f : Nat} {u : Use} (hpos : 0 < own f u) :
    u = use f ∧ k.refcnt f = own f u := by
  rw [h.refcnt] at hpos ⊢
  split at hpos
  · next hu => exact ⟨hu, by rw [if_pos hu]⟩
  · omega

theorem refcnt_of_free (h : CountedAs k own use) {page : Nat} (hfree : k.busy page = false) : k.refcnt page = 0 := by
  by_contra hne
  have := h.busy page page (Nat.pos_of_ne_zero hne) (inBlock_self _ _)
  rw [hfree] at this
  cases this

end CountedAs

namespace Counted

variable {k k' : Phys} {own own' : Holders}

theorem congr (h : Counted k own) (hrefcnt : k'.refcnt = k.refcnt) (hbusy : k'.busy = k.busy)
    (horder : k'.order = k.order) : Counted k' own := by
  obtain ⟨use, h⟩ := h
  refine ⟨use, ?_, ?_, ?_, ?_, ?_, ?_⟩
  · rw [hrefcnt]
    exact h.refcnt
  · rw [hrefcnt, horder]
    exact h.order
  · rw [hrefcnt]
    exact h.once
  · rw [hrefcnt, hbusy, horder]
    exact h.busy
  · rw [hrefcnt, hbusy, horder]
    exact h.covered
  · rw [hrefcnt, horder]
    exact h.disjoint

theorem own_eq (h : Counted k own) (hown : ∀ f u, own' f u = own f u) : Counted k own' := by
  have : own' = own := funext fun f => funext fun u => hown f u
  rw [this]
  exact h

theorem own_of_free (h : Counted k own) {page : Nat} (hfree : k.busy page = false) (u : Use) : own page u = 0 := by
  obtain ⟨use, h⟩ := h
  rw [h.refcnt, h.refcnt_of_free hfree]
  exact ite_self 0

end Counted

/-- What an allocation does: nothing, or one holder of a block nobody had. -/
def Granted (k : Phys) (own : Holders) (order : Nat) : Phys × Option Nat → Prop
  | (k', none) => Counted k' own
  | (k', some page) => (∀ use, use.order = order → Counted k' (bump own page use)) ∧ (∀ u, own page u = 0) ∧
      ∀ frame, inBlock page order frame = true → k.busy frame = false

theorem kmalloc_counted {k : Phys} {own : Holders} (h : Counted k own) (order : Nat) :
    Ensures (kmalloc k order) Benign (Granted k own order) := by
  unfold kmalloc
  cases hpool : k.pool with
  | nil => exact .ok h
  | cons head pool =>
    cases head with
    | none => exact .ok (h.congr rfl rfl rfl)
    | some page =>
      simp only
      split
      · exact .error rfl
      · next hany =>
        have hfree : ∀ frame, inBlock page order frame = true → k.busy frame = false := by
          intro frame hin
          obtain ⟨i, hi, rfl⟩ := (inBlock_iff _ _ _).mp hin
          simp only [List.any_eq_true, List.mem_range, not_exists, not_and, Bool.not_eq_true] at hany
          exact hany i hi
        have hpage : k.busy page = false := hfree page (inBlock_self _ _)
        have hown : ∀ u, own page u = 0 := h.own_of_free hpage
        obtain ⟨use, h⟩ := h
        have hzero : k.refcnt page = 0 := h.refcnt_of_free hpage
        split
        · next hne => exact absurd hzero hne
        · refine .ok ⟨fun u hu => ⟨update use page u, ?_⟩, hown, hfree⟩
          refine ⟨fun f u' => ?_, fun f hf => ?_, fun f hleaf => ?_, fun f frame hf hin => ?_, fun frame hbusy => ?_,
            fun f g frame hf hg hin hin' => ?_⟩
          all_goals simp only at *
          · by_cases hf : f = page
            · subst hf
              simp only [bump, hown, true_and, update_self, Nat.zero_add]
            · simp only [bump, hf, false_and, if_false, update_of_ne hf, h.refcnt, Nat.add_zero]
          · by_cases hfp : f = page
            · subst hfp
              simp only [update_self, hu]
            · simp only [update_of_ne hfp] at hf ⊢
              exact h.order f hf
          · by_cases hfp : f = page
            · subst hfp
              simp only [update_self, Nat.le_refl]
            · simp only [update_of_ne hfp] at hleaf ⊢
              exact h.once f hleaf
          · by_cases hfp : f = page
            · subst hfp
              simp only [update_self] at hin
              simp [hin]
            · simp only [update_of_ne hfp] at hin hf
              simp [h.busy f frame hf hin]
          · by_cases hin : inBlock page order frame = true
            · exact ⟨page, by simp, by simpa using hin⟩
            simp only [hin, Bool.or_eq_true, false_or, Bool.false_eq_true] at hbusy
            obtain ⟨f, hf, hfin⟩ := h.covered frame hbusy
            have hfp : f ≠ page := by
              rintro rfl
              omega
            exact ⟨f, by simpa [update_of_ne hfp] using hf, by simpa [update_of_ne hfp] using hfin⟩
          · by_cases hfp : f = page
            · by_cases hgp : g = page
              · rw [hfp, hgp]
              subst hfp
              simp only [update_self, update_of_ne hgp] at hin hin' hg
              have := h.busy g frame hg hin'
              rw [hfree frame hin] at this
              cases this
            · by_cases hgp : g = page
              · subst hgp
                simp only [update_self, update_of_ne hfp] at hin hin' hf
                have := h.busy f frame hf hin
                rw [hfree frame hin'] at this
                cases this
              · simp only [update_of_ne hfp, update_of_ne hgp] at hin hin' hf hg
                exact h.disjoint f g frame hf hg hin hin'

theorem kzalloc_counted {k : Phys} {own : Holders} (h : Counted k own) (order : Nat) :
    Ensures (kzalloc k order) Benign (Granted k own order) := by
  unfold kzalloc
  refine .bind (kmalloc_counted h order) ?_
  rintro ⟨k', mem⟩ hgrant
  cases mem with
  | none => exact .ok hgrant
  | some page => exact .ok ⟨fun u hu => (hgrant.1 u hu).congr rfl rfl rfl, hgrant.2⟩

theorem kfree_counted {k : Phys} {own : Holders} {page : Nat} {u : Use} (h : Counted k (bump own page u)) :
    Ensures (kfree k page) Benign fun k' => Counted k' own := by
  obtain ⟨use, h⟩ := h
  have hpos : 0 < bump own page u page u := by simp [bump]
  obtain ⟨huse, hrefcnt⟩ := h.use_eq hpos
  simp only [bump, and_self, if_true] at hrefcnt
  have hbusy : k.busy page = true := h.busy page page (by omega) (inBlock_self _ _)
  have hcount : ∀ f u', own f u' = if u' = use f then update k.refcnt page (own page u) f else 0 := by
    intro f u'
    have hcount := h.refcnt f u'
    by_cases hf : f = page
    · subst hf
      rw [update_self]
      simp only [bump, true_and, ← huse] at hcount ⊢
      by_cases hu : u' = u
      · rw [if_pos hu, hu]
      · simpa [hu] using hcount
    · rw [update_of_ne hf]
      simpa [bump, hf] using hcount
  have hle : ∀ f, update k.refcnt page (own page u) f ≤ k.refcnt f := by
    intro f
    by_cases hf : f = page
    · subst hf
      rw [update_self]
      omega
    · rw [update_of_ne hf]
  have hmono : ∀ f, 0 < update k.refcnt page (own page u) f → 0 < k.refcnt f :=
    fun f hf => hf.trans_le (hle f)
  have hother : ∀ f, f ≠ page → update k.refcnt page (own page u) f = k.refcnt f :=
    fun f hf => update_of_ne hf _ _
  unfold kfree
  rw [if_neg (by omega)]
  simp only [hrefcnt, Nat.add_sub_cancel]
  by_cases hlast : own page u ≥ 1
  · rw [if_pos hlast]
    refine .ok ⟨use, hcount, fun f hf => h.order f (hmono f hf), fun f hleaf => (hle f).trans (h.once f hleaf),
      fun f frame hf => h.busy f frame (hmono f hf), fun frame hb => ?_, fun f g frame hf hg =>
      h.disjoint f g frame (hmono f hf) (hmono g hg)⟩
    obtain ⟨f, hf, hin⟩ := h.covered frame hb
    refine ⟨f, ?_, hin⟩
    by_cases hfp : f = page
    · subst hfp
      show 0 < update k.refcnt f (own f u) f
      rw [update_self]
      omega
    · simpa [hfp] using hf
  · -- the last holder is gone: the block goes back
    have hzero : own page u = 0 := by omega
    rw [if_neg hlast, if_neg (by rw [hbusy]; decide)]
    refine .ok ⟨use, hcount, fun f hf => h.order f (hmono f hf), fun f hleaf => (hle f).trans (h.once f hleaf),
      fun f frame hf hin => ?_, fun frame hb => ?_, fun f g frame hf hg =>
      h.disjoint f g frame (hmono f hf) (hmono g hg)⟩
    · have hfp : f ≠ page := by
        rintro rfl
        simp [hzero] at hf
      have hb := h.busy f frame (hmono f hf) hin
      have hnot : inBlock page (k.order page) frame = false := by
        rw [Bool.eq_false_iff]
        intro hin'
        exact hfp (h.disjoint f page frame (hmono f hf) (by omega) hin hin')
      simp [hb, hnot]
    · simp only [Bool.and_eq_true, Bool.not_eq_true'] at hb
      obtain ⟨f, hf, hin⟩ := h.covered frame hb.1
      have hfp : f ≠ page := by
        rintro rfl
        rw [hb.2] at hin
        cases hin
      exact ⟨f, by simpa [hfp] using hf, hin⟩

theorem share_counted {k : Phys} {own : Holders} {page : Nat} {u : Use} (h : Counted k own) (hleaf : u.leaf = true)
    (hpos : 0 < own page u) : Ensures (share_page k page) Benign fun k' => Counted k' (bump own page u) := by
  obtain ⟨use, h⟩ := h
  obtain ⟨huse, hrefcnt⟩ := h.use_eq hpos
  have hiff : ∀ f, 0 < update k.refcnt page (k.refcnt page + 1) f ↔ 0 < k.refcnt f := by
    intro f
    by_cases hf : f = page
    · subst hf
      simp only [update_self]
      omega
    · simp only [update_of_ne hf]
  unfold share_page
  rw [if_neg (by omega)]
  refine .ok ⟨use, fun f u' => ?_, fun f hf => h.order f ((hiff f).mp hf), fun f hf => ?_, fun f frame hf =>
    h.busy f frame ((hiff f).mp hf), fun frame hb => ?_, fun f g frame hf hg =>
    h.disjoint f g frame ((hiff f).mp hf) ((hiff g).mp hg)⟩
  · by_cases hf : f = page
    · subst hf
      simp only [bump, true_and, update_self, h.refcnt, ← huse]
      by_cases hu : u' = u
      · simp [hu]
      · simp [hu]
    · simp [bump, hf, h.refcnt]
  · have hfp : f ≠ page := by
      rintro rfl
      rw [← huse, hleaf] at hf
      cases hf
    simp only [update_of_ne hfp]
    exact h.once f hf
  · obtain ⟨f, hf, hin⟩ := h.covered frame hb
    exact ⟨f, (hiff f).mpr hf, hin⟩

/-! ## What a page table holds -/

/-- Does an entry refer to the block at `f`? -/
def Pte.refs (f : Nat) (pte : Pte) : Nat := if pte.flags.has PTE_V = true ∧ pte.pfn = f then 1 else 0

/-- What a level-1 entry holds, as far as the use names its region. -/
def Entry.refs (f : Nat) : Entry → Use → Nat
  | .table page _, .table _ => if page = f then 1 else 0
  | .table _ ptes, .common _ s => (ptes s).refs f
  | .leaf pte, .super _ => pte.refs f
  | _, _ => 0

def PageTable.refs (pt : PageTable) (f : Nat) (u : Use) : Nat :=
  match u.region? with
  | some r => (pt.dir r).refs f u
  | none =>
    match u with
    | .root r => if pt.roots r = some f then 1 else 0
    | _ => 0

/-- The use of the page behind a leaf entry for `va`. -/
def place (va : Nat) : Level → Use
  | .COMMONPAGE => .common (region va) (slot va)
  | .SUPERPAGE => .super (region va)

theorem place_order (va : Nat) (level : Level) : (place va level).order = level.order := by
  cases level <;> rfl

theorem place_leaf (va : Nat) (level : Level) : (place va level).leaf = true := by
  cases level <;> rfl

theorem place_region (va : Nat) (level : Level) : (place va level).region? = some (region va) := by
  cases level <;> rfl

@[simp] theorem refs_zero (f : Nat) : Pte.zero.refs f = 0 := rfl

theorem refs_of_valid {pte : Pte} (h : pte.flags.has PTE_V = true) (f : Nat) :
    pte.refs f = if f = pte.pfn then 1 else 0 := by
  simp only [Pte.refs, h, true_and, eq_comm]

theorem refs_of_not_valid {pte : Pte} (h : pte.flags.has PTE_V = false) (f : Nat) : pte.refs f = 0 := by
  simp [Pte.refs, h]

/-- Entries are zero or valid, as `mappages` writes them. -/
def Entry.Valid : Entry → Prop
  | .none => True
  | .table _ ptes => ∀ i, ptes i = Pte.zero ∨ (ptes i).flags.has PTE_V = true
  | .leaf pte => pte.flags.has PTE_V = true

def PageTable.Valid (pt : PageTable) : Prop := ∀ r, (pt.dir r).Valid

theorem valid_setEntry {pt : PageTable} (h : pt.Valid) {r : Fin NREGION} {e : Entry} (he : e.Valid) :
    (pt.setEntry r e).Valid := by
  intro r'
  show (update pt.dir r e r').Valid
  by_cases hr : r' = r
  · subst hr
    rw [update_self]
    exact he
  · rw [update_of_ne hr]
    exact h r'

theorem refs_of_region (pt : PageTable) (f : Nat) {u : Use} {r : Fin NREGION} (hu : u.region? = some r) :
    pt.refs f u = (pt.dir r).refs f u := by
  unfold PageTable.refs
  rw [hu]

theorem refs_setEntry (pt : PageTable) (r : Fin NREGION) (e : Entry) (f : Nat) (u : Use) :
    (pt.setEntry r e).refs f u = if u.region? = some r then e.refs f u else pt.refs f u := by
  unfold PageTable.refs
  cases hu : u.region? with
  | none => rfl
  | some r' =>
    show (update pt.dir r e r').refs f u = if some r' = some r then _ else _
    by_cases hr : r' = r
    · subst hr
      rw [update_self, if_pos rfl]
    · rw [update_of_ne hr, if_neg (by simpa using hr)]

theorem refs_setRoot (pt : PageTable) {r : Fin NROOT} (hr : pt.roots r = none) (page f : Nat) (u : Use) :
    PageTable.refs { pt with roots := update pt.roots r (some page) } f u
      = bump pt.refs page (.root r) f u := by
  cases u with
  | root r' =>
    show (if update pt.roots r (some page) r' = some f then 1 else 0)
      = (if pt.roots r' = some f then 1 else 0) + if f = page ∧ Use.root r' = .root r then 1 else 0
    by_cases hr' : r' = r
    · subst hr'
      simp [hr, eq_comm]
    · simp [hr']
  | kernel order => simp [bump, PageTable.refs, Use.region?]
  | table r' => simp [bump, PageTable.refs, Use.region?]
  | common r' s => simp [bump, PageTable.refs, Use.region?]
  | super r' => simp [bump, PageTable.refs, Use.region?]

theorem refs_update (f page : Nat) (ptes : Fin NPTE → Pte) {va : Nat} (pte : Pte) {u : Use}
    (hu : u.region? = some (region va)) :
    (Entry.table page (update ptes (slot va) pte)).refs f u
      = if u = place va .COMMONPAGE then pte.refs f else (Entry.table page ptes).refs f u := by
  cases u with
  | common r s =>
    cases hu
    show (update ptes (slot va) pte s).refs f = if Use.common _ s = .common _ (slot va) then _ else (ptes s).refs f
    by_cases hs : s = slot va
    · subst hs
      rw [update_self, if_pos rfl]
    · rw [update_of_ne hs, if_neg (by simpa using hs)]
  | table r => rfl
  | super r => rfl
  | kernel order => cases hu
  | root r => cases hu

/-- Storing through the pointer `walk` returned trades the old entry for the new one. -/
theorem refs_set {pt : PageTable} {va : Nat} {level : Level} {old new : Pte}
    (hwalk : walk pt va = .ok (.entry level old)) (f : Nat) (u : Use) :
    (pt.set va new).refs f u = (if u = place va level then new.refs f else pt.refs f u) ∧
      pt.refs f (place va level) = old.refs f := by
  unfold walk at hwalk
  split at hwalk
  · cases hwalk
  cases hd : pt.dir (region va) with
  | none =>
    rw [hd] at hwalk
    cases hwalk
  | leaf pte =>
    rw [hd] at hwalk
    cases hwalk
    constructor
    · simp only [PageTable.set, hd]
      rw [refs_setEntry]
      by_cases hu : u = place va .SUPERPAGE
      · subst hu
        rw [if_pos (place_region va _), if_pos rfl]
        split
        · next hzero =>
          rw [hzero]
          rfl
        · rfl
      · rw [if_neg hu]
        split
        · next hr =>
          -- the other uses in the region are those of a table
          have hempty : ∀ e : Entry, (e = .none ∨ ∃ pte, e = .leaf pte) → e.refs f u = 0 := by
            rintro e (rfl | ⟨pte, rfl⟩)
            · cases u <;> rfl
            cases u with
            | super r =>
              cases hr
              exact absurd rfl hu
            | _ => rfl
          rw [hempty _ (by split <;> simp), refs_of_region pt f hr, hd, hempty _ (.inr ⟨_, rfl⟩)]
        · rfl
    · show (pt.dir (region va)).refs f (.super (region va)) = _
      rw [hd]
      rfl
  | table page ptes =>
    rw [hd] at hwalk
    cases hwalk
    constructor
    · simp only [PageTable.set, hd]
      rw [refs_setEntry]
      split
      · next hr => rw [refs_update f page ptes new hr, refs_of_region pt f hr, hd]
      · next hr =>
        rw [if_neg]
        rintro rfl
        exact hr (place_region va _)
    · show (pt.dir (region va)).refs f (.common (region va) (slot va)) = _
      rw [hd]
      rfl

theorem valid_set {pt : PageTable} (h : pt.Valid) {va : Nat} {new : Pte}
    (hnew : new = Pte.zero ∨ new.flags.has PTE_V = true) : (pt.set va new).Valid := by
  unfold PageTable.set
  split
  · next page ptes hd =>
    refine valid_setEntry h fun i => ?_
    have hold := h (region va)
    rw [hd] at hold
    by_cases hi : i = slot va
    · subst hi
      rw [update_self]
      exact hnew
    · rw [update_of_ne hi]
      exact hold i
  · refine valid_setEntry h ?_
    split
    · trivial
    · next hne => exact hnew.resolve_left hne

theorem valid_of_walk {pt : PageTable} (h : pt.Valid) {va : Nat} {level : Level} {pte : Pte}
    (hwalk : walk pt va = .ok (.entry level pte)) : pte = Pte.zero ∨ pte.flags.has PTE_V = true := by
  unfold walk at hwalk
  split at hwalk
  · cases hwalk
  have hr := h (region va)
  cases hd : pt.dir (region va) with
  | none =>
    rw [hd] at hwalk
    cases hwalk
  | leaf pte' =>
    rw [hd] at hwalk hr
    cases hwalk
    exact .inr hr
  | table page ptes =>
    rw [hd] at hwalk hr
    cases hwalk
    exact hr (slot va)

theorem refs_of_walk {pt : PageTable} {va : Nat} {level : Level} {pte : Pte}
    (hwalk : walk pt va = .ok (.entry level pte)) (hv : pte.flags.has PTE_V = true) :
    pt.refs pte.pfn (place va level) = 1 := by
  rw [(@refs_set pt va level pte Pte.zero hwalk pte.pfn (place va level)).2, refs_of_valid hv, if_pos rfl]

theorem has_or_self (perm bit : Flags) (hbit : bit ≠ 0) : (perm ||| bit).has bit = true := by
  have hand : (perm ||| bit) &&& bit = bit := by
    apply BitVec.eq_of_getLsbD_eq
    intro i hi
    simp only [BitVec.getLsbD_and, BitVec.getLsbD_or]
    cases perm.getLsbD i <;> cases bit.getLsbD i <;> rfl
  rw [Flags.has, hand]
  exact bne_iff_ne.mpr hbit

/-! ## `mappages` -/

/-- The state of one page table among other holders. -/
def Held (k : Phys) (pt : PageTable) (ext : Holders) : Prop :=
  Counted k (fun f u => pt.refs f u + ext f u) ∧ pt.Valid

theorem walk_ensures (pt : PageTable) (va : Nat) :
    Ensures (walk pt va) Benign fun found => walk pt va = .ok found := by
  cases hwalk : walk pt va with
  | ok found => exact .ok rfl
  | error e =>
    unfold walk at hwalk
    split at hwalk
    · cases hwalk
      exact .error rfl
    · split at hwalk <;> cases hwalk

section Map

variable {k : Phys} {pt : PageTable} {ext : Holders}

theorem walkRoot_held (h : Held k pt ext) (va : Nat) :
    Ensures (walkRoot k pt va) Benign fun r => Held r.1 r.2.1 ext := by
  unfold walkRoot
  cases hroot : pt.roots (rootOf va) with
  | some page => exact .ok h
  | none =>
    refine .bind (kzalloc_counted h.1 0) ?_
    rintro ⟨k', page⟩ hgrant
    cases page with
    | none => exact .ok ⟨hgrant, h.2⟩
    | some page =>
      refine .ok ⟨(hgrant.1 (.root (rootOf va)) rfl).own_eq fun f u => ?_, h.2⟩
      show PageTable.refs { pt with roots := update pt.roots (rootOf va) (some page) } f u + ext f u
        = pt.refs f u + ext f u + _
      rw [refs_setRoot pt hroot, bump]
      omega

theorem walkTable_held (h : Held k pt ext) (va : Nat) (level : Level) :
    Ensures (walkTable k pt va level) Benign fun r => Held r.1 r.2.1 ext := by
  unfold walkTable
  split
  · next hd =>
    refine .bind (kzalloc_counted h.1 0) ?_
    rintro ⟨k', page⟩ hgrant
    cases page with
    | none => exact .ok ⟨hgrant, h.2⟩
    | some page =>
      refine .ok ⟨(hgrant.1 (.table (region va)) rfl).own_eq fun f u => ?_, valid_setEntry h.2 fun _ => .inl rfl⟩
      show (pt.setEntry (region va) (.table page fun _ => Pte.zero)).refs f u + ext f u
        = pt.refs f u + ext f u + _
      rw [refs_setEntry]
      by_cases hu : u.region? = some (region va)
      · rw [if_pos hu, refs_of_region pt f hu, hd]
        cases u with
        | table r =>
          cases hu
          simp only [Entry.refs, and_true, eq_comm (a := f)]
          omega
        | common r s => simp [Entry.refs]
        | super r => simp [Entry.refs]
        | kernel order => cases hu
        | root r => cases hu
      · have hne : u ≠ .table (region va) := by
          rintro rfl
          exact hu rfl
        simp [hu, hne]
  · exact .ok h

/-- A new leaf entry is one more holder of its block. -/
theorem mapEntry_refs {pt : PageTable} (h : pt.Valid) (va pfn : Nat) (perm : Flags) (level : Level) :
    Ensures (mapEntry pt va pfn perm level) Benign fun pt' =>
      pt'.Valid ∧ ∀ f u, pt'.refs f u = bump pt.refs pfn (place va level) f u := by
  have hvalid : (perm ||| PTE_V).has PTE_V = true := has_or_self perm PTE_V (by decide)
  have hrefs : ∀ f, (Pte.mk pfn (perm ||| PTE_V)).refs f = if f = pfn then 1 else 0 :=
    fun f => refs_of_valid hvalid f
  unfold mapEntry
  simp only
  split
  · next hd =>
    refine .ok ⟨valid_setEntry h hvalid, fun f u => ?_⟩
    rw [refs_setEntry, bump]
    by_cases hu : u.region? = some (region va)
    · rw [if_pos hu, refs_of_region pt f hu, hd]
      cases u with
      | super r =>
        cases hu
        simp only [Entry.refs, hrefs, place, and_true, Nat.zero_add]
      | common r s => simp [Entry.refs, place]
      | table r => simp [Entry.refs, place]
      | kernel order => cases hu
      | root r => cases hu
    · have hne : u ≠ place va .SUPERPAGE := by
        rintro rfl
        exact hu (place_region va _)
      simp [hu, hne]
  · next page ptes hd =>
    split
    · exact .error rfl
    · next hfree =>
      refine .ok ⟨valid_setEntry h fun i => ?_, fun f u => ?_⟩
      · have hold := h (region va)
        rw [hd] at hold
        by_cases hi : i = slot va
        · subst hi
          rw [update_self]
          exact .inr hvalid
        · rw [update_of_ne hi]
          exact hold i
      · rw [refs_setEntry, bump]
        by_cases hu : u.region? = some (region va)
        · rw [if_pos hu, refs_update f page ptes _ hu, refs_of_region pt f hu, hd]
          by_cases hplace : u = place va .COMMONPAGE
          · subst hplace
            have hold : (Entry.table page ptes).refs f (place va .COMMONPAGE) = 0 :=
              refs_of_not_valid (by simpa using hfree) f
            simp only [if_true, hrefs, hold, and_true, Nat.zero_add]
          · simp [hplace]
        · have hne : u ≠ place va .COMMONPAGE := by
            rintro rfl
            exact hu (place_region va _)
          simp [hu, hne]
  · exact .error rfl

/-- `mapOne` returns with a new holder that the counts do not know yet, or without. -/
theorem mapOne_held (h : Held k pt ext) (va pfn : Nat) (perm : Flags) (level : Level) :
    Ensures (mapOne k pt va pfn perm level) Benign fun r => r.2.1.Valid ∧ ∃ own, Counted r.1 own ∧
      ∀ f u, ext f u ≤ own f u ∧
        r.2.1.refs f u + ext f u = own f u + if r.2.2 = true ∧ f = pfn ∧ u = place va level then 1 else 0 := by
  unfold mapOne
  split
  · exact .error rfl
  refine .bind (walkRoot_held h va) ?_
  rintro ⟨k₁, pt₁, ok₁⟩ h₁
  cases ok₁ with
  | false => exact .ok ⟨h₁.2, _, h₁.1, fun f u => ⟨Nat.le_add_left _ _, by simp⟩⟩
  | true =>
    simp only [Bool.true_eq_false, if_false]
    refine .bind (walkTable_held h₁ va level) ?_
    rintro ⟨k₂, pt₂, ok₂⟩ h₂
    cases ok₂ with
    | false => exact .ok ⟨h₂.2, _, h₂.1, fun f u => ⟨Nat.le_add_left _ _, by simp⟩⟩
    | true =>
      simp only [Bool.true_eq_false, if_false]
      refine .bind (mapEntry_refs h₂.2 va pfn perm level) ?_
      rintro pt₃ ⟨hvalid, hrefs⟩
      refine .ok ⟨hvalid, _, h₂.1, fun f u => ⟨Nat.le_add_left _ _, ?_⟩⟩
      simp only [hrefs, bump, true_and]
      omega

/-- Where the caller holds the frame, the entry takes it over. -/
theorem mapOne_hands {va pfn : Nat} {level : Level} (h : Held k pt (bump ext pfn (place va level))) (perm : Flags) :
    Ensures (mapOne k pt va pfn perm level) Benign fun r => r.2.1.Valid ∧ (r.2.2 = true → Held r.1 r.2.1 ext) ∧
      (r.2.2 = false → Counted r.1 (bump (fun f u => r.2.1.refs f u + ext f u) pfn (place va level))) := by
  refine (mapOne_held h va pfn perm level).mono ?_
  rintro ⟨k₁, pt₁, ok⟩ ⟨hvalid, own, hcount, hown⟩
  refine ⟨hvalid, fun (hok : ok = true) => ⟨hcount.own_eq fun f u => ?_, hvalid⟩, fun (hok : ok = false) =>
    hcount.own_eq fun f u => ?_⟩
  · have := (hown f u).2
    simp only [bump, hok, true_and] at this ⊢
    omega
  · have := (hown f u).2
    simp only [bump, hok, Bool.false_eq_true, false_and, if_false] at this ⊢
    omega

/-- A call of `mappages` for one leaf is one turn of its loop. -/
theorem mappages_one {va : Nat} (level : Level) (halign : va % level.pgsize = 0) (pfn : Nat) (perm : Flags) :
    mappages k pt va level.pgsize pfn perm level = mapOne k pt va pfn perm level := by
  have hpos : 0 < level.pgsize := by cases level <;> decide
  have ha : va / level.pgsize * level.pgsize = va := Nat.div_mul_cancel (Nat.dvd_of_mod_eq_zero halign)
  have hlast : (va + level.pgsize - 1) / level.pgsize = va / level.pgsize := by
    rw [Nat.add_sub_assoc hpos, Nat.add_div_eq_of_add_mod_lt, Nat.div_eq_of_lt (Nat.sub_lt hpos (by decide)),
      Nat.add_zero]
    rw [halign, Nat.zero_add, Nat.mod_eq_of_lt (Nat.sub_lt hpos (by decide))]
    exact Nat.sub_lt hpos (by decide)
  have hsuper : ¬ (level = .SUPERPAGE ∧ va % SUPERPGSIZE ≠ 0) := by
    rintro ⟨rfl, hne⟩
    exact hne halign
  unfold mappages
  rw [if_neg (by omega), if_neg hsuper]
  simp only [hlast, ha, Nat.sub_self, Nat.zero_div, mapLoop]
  cases hone : mapOne k pt va pfn perm level with
  | error e => rfl
  | ok r =>
    obtain ⟨k', pt', ok⟩ := r
    cases ok <;> rfl

end Map

/-! ## `uvmalloc`, `uvmdealloc` and `uvmunmap` -/

def DeallocHeld (dealloc : Dealloc) : Prop :=
  ∀ ⦃k : Phys⦄ ⦃pt : PageTable⦄ ⦃ext : Holders⦄ (a b : Nat), Held k pt ext →
    Ensures (dealloc k pt a b) Benign fun r => Held r.1 r.2 ext

def ReallocHeld (realloc : Realloc) : Prop :=
  ∀ ⦃k : Phys⦄ ⦃pt : PageTable⦄ ⦃ext : Holders⦄ (a b : Nat) (perm : Flags), Held k pt ext →
    Ensures (realloc k pt a b perm) Benign fun r => Held r.1 r.2 ext

theorem mem_addrs {start stop step a : Nat} (ha : a ∈ addrs start stop step) :
    ∃ i, a = start + step * i := by
  simp only [addrs, List.mem_map, List.mem_range] at ha
  obtain ⟨i, -, rfl⟩ := ha
  exact ⟨i, rfl⟩

theorem addrs_aligned {start stop step : Nat} (hstart : start % step = 0) :
    ∀ a ∈ addrs start stop step, a % step = 0 := by
  intro a ha
  obtain ⟨i, rfl⟩ := mem_addrs ha
  rw [Nat.add_mul_mod_self_left, hstart]

section Alloc

variable {k : Phys} {pt : PageTable} {ext : Holders}

theorem allocLoop_held {dealloc : Dealloc} (hdealloc : DeallocHeld dealloc) (startva : Nat) (perm : Flags)
    (level : Level) {as : List Nat} (hal : ∀ a ∈ as, a % level.pgsize = 0) (h : Held k pt ext) :
    Ensures (allocLoop dealloc startva perm level as k pt) Benign fun r => Held r.1 r.2.1 ext := by
  induction as generalizing k pt with
  | nil => exact .ok h
  | cons a as ih =>
    unfold allocLoop
    refine .bind (kzalloc_counted h.1 _) ?_
    rintro ⟨k₁, mem⟩ hgrant
    cases mem with
    | none =>
      refine .bind (hdealloc a startva ⟨hgrant, h.2⟩) ?_
      exact fun r hr => .ok hr
    | some mem =>
      -- the new block is in the hands of the loop until an entry refers to it
      have h₁ : Held k₁ pt (bump ext mem (place a level)) :=
        ⟨(hgrant.1 _ (place_order a level)).own_eq fun f u => (Nat.add_assoc _ _ _).symm, h.2⟩
      simp only [mappages_one level (hal a (by simp))]
      refine .bind (mapOne_hands h₁ _) ?_
      rintro ⟨k₂, pt₂, ok⟩ ⟨hvalid, hheld, hback⟩
      cases ok with
      | false =>
        simp only [if_true]
        refine .bind (kfree_counted (hback rfl)) fun k₃ h₃ => ?_
        exact .bind (hdealloc a startva ⟨h₃, hvalid⟩) fun r hr => .ok hr
      | true =>
        simp only [Bool.true_eq_false, if_false]
        exact ih (fun b hb => hal b (by simp [hb])) (hheld rfl)

/-- What the loops of `uvmalloc` keep, with whether they have given up. -/
theorem uvmallocWith_keeps (dealloc : Dealloc) (startva endva : Nat) (perm : Flags) {E : Panic → Prop}
    {I : Bool → Phys → PageTable → Prop} (hloop : ∀ level as k pt, (∀ a ∈ as, a % Level.pgsize level = 0) → I true k pt →
      Ensures (allocLoop dealloc startva perm level as k pt) E fun r => I r.2.2 r.1 r.2.1) (h : I true k pt) :
    Ensures (uvmallocWith dealloc k pt startva endva perm) E fun r =>
      I true r.1 r.2.1 ∨ r.2.2 = 0 ∧ I false r.1 r.2.1 := by
  have hup : PGROUNDUP startva % Level.COMMONPAGE.pgsize = 0 := Nat.mul_mod_left _ _
  have hsuper : SUPERPG_ROUNDUP startva % Level.SUPERPAGE.pgsize = 0 := Nat.mul_mod_left _ _
  have hdown : SUPERPG_DOWN endva % Level.COMMONPAGE.pgsize = 0 := by
    show endva / (PGSIZE * 512) * (PGSIZE * 512) % PGSIZE = 0
    rw [Nat.mul_left_comm, Nat.mul_mod_right]
  unfold uvmallocWith
  split
  · exact .ok (.inl h)
  refine .bind (hloop .COMMONPAGE _ _ _ (addrs_aligned hup) h) ?_
  rintro ⟨k₁, pt₁, ok₁⟩ h₁
  cases ok₁ with
  | false => exact .ok (.inr ⟨rfl, h₁⟩)
  | true =>
    simp only [Bool.true_eq_false, if_false]
    split
    · exact .ok (.inl h₁)
    refine .bind (hloop .SUPERPAGE _ _ _ (addrs_aligned hsuper) h₁) ?_
    rintro ⟨k₂, pt₂, ok₂⟩ h₂
    cases ok₂ with
    | false => exact .ok (.inr ⟨rfl, h₂⟩)
    | true =>
      simp only [Bool.true_eq_false, if_false]
      refine .bind (hloop .COMMONPAGE _ _ _ (addrs_aligned hdown) h₂) ?_
      rintro ⟨k₃, pt₃, ok₃⟩ h₃
      cases ok₃ with
      | false => exact .ok (.inr ⟨rfl, h₃⟩)
      | true => exact .ok (.inl h₃)

theorem uvmallocWith_held {dealloc : Dealloc} (hdealloc : DeallocHeld dealloc) (startva endva : Nat) (perm : Flags)
    (h : Held k pt ext) :
    Ensures (uvmallocWith dealloc k pt startva endva perm) Benign fun r => Held r.1 r.2.1 ext := by
  have hkeeps := uvmallocWith_keeps dealloc startva endva perm (I := fun _ k pt => Held k pt ext)
    (fun level _ _ _ hal h => allocLoop_held hdealloc startva perm level hal h) h
  exact hkeeps.mono fun r hr => hr.elim id And.right

/-- A leaf that goes leaves its frame to the caller. -/
theorem Held.clear (h : Held k pt ext) {a : Nat} {level : Level} {pte : Pte} (hwalk : walk pt a = .ok (.entry level pte))
    (hv : pte.flags.has PTE_V = true) :
    Counted k (bump (fun f u => (pt.set a Pte.zero).refs f u + ext f u) pte.pfn (place a level)) := by
  refine h.1.own_eq fun f u => ?_
  obtain ⟨hset, hold⟩ := @refs_set pt a level pte Pte.zero hwalk f u
  rw [refs_of_valid hv] at hold
  rw [bump, hset]
  by_cases hu : u = place a level
  · subst hu
    simp only [if_true, refs_zero, and_true, hold]
    omega
  · simp [hu]

theorem unmapLeaf_held {realloc : Realloc} (hrealloc : ReallocHeld realloc) {args : UnmapArgs}
    (hfree : args.do_free = true) {a : Nat} {level : Level} {pte : Pte} (hwalk : walk pt a = .ok (.entry level pte))
    (hv : pte.flags.has PTE_V = true) (h : Held k pt ext) :
    Ensures (unmapLeaf realloc args a level pte k pt) Benign fun r => Held r.1 r.2 ext := by
  unfold unmapLeaf unmapLeaf.free
  rw [if_pos hfree]
  refine .bind (kfree_counted (h.clear hwalk hv)) fun k₁ h₁ => ?_
  have hheld : Held k₁ (pt.set a Pte.zero) ext := ⟨h₁, valid_set h.2 (.inl rfl)⟩
  simp only
  split
  · exact hrealloc _ _ _ hheld
  · exact .ok hheld

theorem unmapLoop_held {realloc : Realloc} (hrealloc : ReallocHeld realloc) {args : UnmapArgs}
    (hfree : args.do_free = true) (fuel a : Nat) (h : Held k pt ext) :
    Ensures (unmapLoop realloc args fuel a k pt) Benign fun r => Held r.1 r.2 ext := by
  induction fuel generalizing a k pt with
  | zero =>
    unfold unmapLoop
    split
    · exact .error rfl
    · exact .ok h
  | succ fuel ih =>
    unfold unmapLoop
    split
    · refine .bind (walk_ensures pt a) ?_
      rintro found hwalk
      cases found with
      | null =>
        simp only
        split
        · exact ih _ h
        · exact .error rfl
      | entry level pte =>
        simp only
        split
        · split
          · exact ih _ h
          · exact .error rfl
        · next hv =>
          split
          · exact .error rfl
          · refine .bind (unmapLeaf_held hrealloc hfree hwalk (by simpa using hv) h) ?_
            exact fun r hr => ih _ hr
    · exact .ok h

theorem uvmunmapWith_held {realloc : Realloc} (hrealloc : ReallocHeld realloc) (va npages : Nat) (on_demand : Bool)
    (h : Held k pt ext) :
    Ensures (uvmunmapWith realloc k pt va npages true on_demand) Benign fun r => Held r.1 r.2 ext := by
  unfold uvmunmapWith
  split
  · exact .error rfl
  · exact unmapLoop_held hrealloc rfl _ _ h

theorem uvmdeallocWith_held {realloc : Realloc} (hrealloc : ReallocHeld realloc) :
    DeallocHeld (uvmdeallocWith realloc) := by
  intro k pt ext a b h
  unfold uvmdeallocWith
  split
  · exact .ok h
  · split
    · exact uvmunmapWith_held hrealloc _ _ _ h
    · exact .ok h

theorem uvmalloc_front_held : ReallocHeld uvmalloc_front := by
  intro k pt ext a b perm h
  unfold uvmalloc_front
  have hstop : ReallocHeld fun _ _ _ _ _ => .error .out_of_fuel := by
    intro k pt ext a b perm _
    exact .error rfl
  have hdealloc := uvmdeallocWith_held hstop
  exact .bind (uvmallocWith_held hdealloc a b perm h) fun r hr => .ok hr

theorem uvmunmap_held (va npages : Nat) (on_demand : Bool) (h : Held k pt ext) :
    Ensures (uvmunmap k pt va npages true on_demand) Benign fun r => Held r.1 r.2 ext :=
  uvmunmapWith_held uvmalloc_front_held va npages on_demand h

theorem uvmalloc_held (startva endva : Nat) (perm : Flags) (h : Held k pt ext) :
    Ensures (uvmalloc k pt startva endva perm) Benign fun r => Held r.1 r.2.1 ext :=
  uvmallocWith_held (uvmdeallocWith_held uvmalloc_front_held) startva endva perm h

end Alloc

/-! ## `uvmcopy` -/

section Copy

variable {k : Phys} {src dst : PageTable} {ext : Holders}

theorem copyStack_held {startva : Nat} {offsets : List Nat} (hal : ∀ o ∈ offsets, (startva + o) % PGSIZE = 0)
    (h : Held k dst ext) :
    Ensures (copyStack src startva offsets k dst) Benign fun r => Held r.1 r.2.1 ext := by
  induction offsets generalizing k dst with
  | nil => exact .ok h
  | cons offset offsets ih =>
    unfold copyStack
    refine .bind (walk_ensures src _) ?_
    rintro found -
    cases found with
    | null => exact .error rfl
    | entry level pte =>
      refine .bind (kzalloc_counted h.1 0) ?_
      rintro ⟨k₁, new⟩ hgrant
      cases new with
      | none => exact .ok ⟨hgrant, h.2⟩
      | some new =>
        have h₁ : Held (memmove k₁ new pte.pfn .COMMONPAGE) dst
            (bump ext new (place (startva + offset) .COMMONPAGE)) := by
          refine ⟨((hgrant.1 (place (startva + offset) .COMMONPAGE) rfl).own_eq fun f u => ?_).congr rfl rfl rfl, h.2⟩
          exact (Nat.add_assoc _ _ _).symm
        have hone := @mappages_one (memmove k₁ new pte.pfn .COMMONPAGE) dst (startva + offset) .COMMONPAGE
          (hal offset (by simp)) new (PTE_W ||| PTE_R ||| PTE_U)
        simp only [Level.pgsize] at hone
        simp only [hone]
        refine .bind (mapOne_hands h₁ _) ?_
        rintro ⟨k₂, dst₂, ok⟩ ⟨-, hheld, -⟩
        cases ok with
        | false => exact .error rfl
        | true =>
          simp only [Bool.true_eq_false, if_false]
          exact ih (fun o ho => hal o (by simp [ho])) (hheld rfl)

theorem shareFlags_valid {flags : Flags} (h : flags.has PTE_V = true) : (shareFlags flags).has PTE_V = true := by
  have hbit : ∀ f : Flags, f.has PTE_V = f.getLsbD 0 := by
    intro f
    revert f
    decide
  rw [hbit] at h ⊢
  simp only [shareFlags]
  split <;> split <;> simp [h, PTE_READONLY, PTE_SHARE, PTE_W]

theorem aligned_of_leaf {i : Nat} {level : Level} (hi : i % PGSIZE = 0)
    (halign : ¬ (level = .SUPERPAGE ∧ i ≠ SUPERPG_DOWN i)) : i % level.pgsize = 0 := by
  cases level with
  | COMMONPAGE => exact hi
  | SUPERPAGE =>
    have : i = SUPERPG_DOWN i := by simpa using halign
    rw [this]
    exact Nat.mul_mod_left _ _

theorem next_aligned {i : Nat} (hi : i % PGSIZE = 0) (level : Level) : (i + level.pgsize) % PGSIZE = 0 := by
  cases level with
  | COMMONPAGE =>
    show (i + PGSIZE) % PGSIZE = 0
    rw [Nat.add_mod_right, hi]
  | SUPERPAGE =>
    show (i + PGSIZE * 512) % PGSIZE = 0
    rw [Nat.add_mul_mod_self_left, hi]

/-- Both tables of a fork, and the holders beside them. -/
def HeldBoth (k : Phys) (src dst : PageTable) (ext : Holders) : Prop :=
  Held k dst (fun f u => src.refs f u + ext f u) ∧ src.Valid

theorem copyLoop_held {v : vma} {endva : Nat} (fuel i : Nat) (hi : i % PGSIZE = 0)
    (h : HeldBoth k src dst ext) :
    Ensures (copyLoop v endva fuel i k src dst) Benign fun r => HeldBoth r.1 r.2.1 r.2.2 ext := by
  induction fuel generalizing i k src dst with
  | zero =>
    unfold copyLoop
    split
    · exact .error rfl
    · exact .ok h
  | succ fuel ih =>
    have hnext : (i + PGSIZE) % PGSIZE = 0 := next_aligned hi .COMMONPAGE
    unfold copyLoop
    split
    · refine .bind (walk_ensures src i) ?_
      rintro found hwalk
      cases found with
      | null => exact ih _ hnext h
      | entry level pte =>
        simp only
        split
        · exact ih _ hnext h
        · next hne =>
          have hv : pte.flags.has PTE_V = true := (valid_of_walk h.2 hwalk).resolve_left hne
          -- the entry keeps its frame and stays valid, whatever its other flags become
          obtain ⟨pte', hpte'⟩ : ∃ pte', pte' = if keepsShared v then pte
            else { pte with flags := shareFlags pte.flags } := ⟨_, rfl⟩
          have hpfn : pte'.pfn = pte.pfn := by
            rw [hpte']
            split <;> rfl
          have hv' : pte'.flags.has PTE_V = true := by
            rw [hpte']
            split
            · exact hv
            · exact shareFlags_valid hv
          have hsrc : ∀ f u, (src.set i pte').refs f u = src.refs f u := by
            intro f u
            obtain ⟨hset, hold⟩ := @refs_set src i level pte pte' hwalk f u
            rw [hset]
            split
            · next hu => rw [hu, hold, refs_of_valid hv, refs_of_valid hv', hpfn]
            · rfl
          rw [← hpte']
          split
          · exact .error rfl
          · next halign =>
            have hal := aligned_of_leaf hi halign
            have hstep := next_aligned hi level
            simp only [mappages_one level hal]
            refine .bind (mapOne_held h.1 i pte'.pfn pte'.flags level) ?_
            rintro ⟨k₂, dst₂, ok⟩ ⟨hvalid, own, hcount, hown⟩
            cases ok with
            | false => exact .error rfl
            | true =>
              simp only [Bool.true_eq_false, if_false]
              have hpos : 0 < own pte'.pfn (place i level) := by
                have hone := refs_of_walk hwalk hv
                have hle := (hown pte.pfn (place i level)).1
                rw [hpfn]
                omega
              refine .bind (share_counted hcount (place_leaf i level) hpos) fun k₃ h₃ => ?_
              refine ih _ hstep ⟨⟨h₃.own_eq fun f u => ?_, hvalid⟩, valid_set h.2 (.inr hv')⟩
              have := (hown f u).2
              simp only [true_and] at this
              simp only [hsrc, bump]
              omega
    · exact .ok h

theorem copyArea_held {v : vma} (hal : v.startva % PGSIZE = 0) (h : HeldBoth k src dst ext) :
    Ensures (copyArea v k src dst) Benign fun r => HeldBoth r.1 r.2.1 r.2.2.1 ext := by
  unfold copyArea
  split
  · have hoff : ∀ o ∈ addrs 0 v.size PGSIZE, (v.startva + o) % PGSIZE = 0 := by
      intro o ho
      obtain ⟨i, rfl⟩ := mem_addrs ho
      rw [Nat.zero_add, Nat.add_mul_mod_self_left, hal]
    refine .bind (copyStack_held hoff h.1) ?_
    rintro ⟨k₁, dst₁, ok⟩ h₁
    exact .ok ⟨h₁, h.2⟩
  · split
    · exact .error rfl
    · refine .bind (copyLoop_held _ _ hal h) ?_
      exact fun r hr => .ok hr

theorem uvmcopy_held {vs : List vma} (hal : ∀ v ∈ vs, v.startva % PGSIZE = 0) (h : HeldBoth k src dst ext) :
    Ensures (uvmcopy vs k src dst) Benign fun r => HeldBoth r.1 r.2.1 r.2.2.1 ext := by
  induction vs generalizing k src dst with
  | nil => exact .ok h
  | cons v vs ih =>
    unfold uvmcopy
    refine .bind (copyArea_held (hal v (by simp)) h) ?_
    rintro ⟨k₁, src₁, dst₁, ok⟩ h₁
    cases ok with
    | false => exact .ok h₁
    | true => exact ih (fun w hw => hal w (by simp [hw])) h₁

end Copy

/-! ## Page faults -/

section Fault

variable {k : Phys} {pt : PageTable} {ext : Holders}

/-- The entry moves to the copy: the old block has a holder less, the new one its first. -/
theorem cow_bump {va mem : Nat} {level : Level} {pte : Pte} {k₁ : Phys} (hwalk : walk pt va = .ok (.entry level pte))
    (hv : pte.flags.has PTE_V = true)
    (hgrant : Granted k (fun f u => pt.refs f u + ext f u) level.order (k₁, some mem)) :
    Counted (memmove k₁ mem pte.pfn level)
      (bump (fun f u => (pt.set va ⟨mem, pte.flags ||| PTE_W⟩).refs f u + ext f u) pte.pfn (place va level)) := by
  have hv' : (Pte.mk mem (pte.flags ||| PTE_W)).flags.has PTE_V = true := by
    have hbit : ∀ f : Flags, f.has PTE_V = true → (f ||| PTE_W).has PTE_V = true := by decide
    exact hbit pte.flags hv
  refine ((hgrant.1 _ (place_order va level)).own_eq fun f u => ?_).congr rfl rfl rfl
  obtain ⟨hset, hold⟩ := @refs_set pt va level pte ⟨mem, pte.flags ||| PTE_W⟩ hwalk f u
  rw [refs_of_valid hv] at hold
  rw [bump, bump, hset]
  by_cases hu : u = place va level
  · subst hu
    simp only [if_true, and_true, hold, refs_of_valid hv']
    omega
  · simp [hu]

theorem cow_held {va : Nat} {level : Level} {pte : Pte} (hwalk : walk pt va = .ok (.entry level pte))
    (hv : pte.flags.has PTE_V = true) (h : Held k pt ext) :
    Ensures (cow k pt va level pte) Benign fun r => Held r.1 r.2.1 ext := by
  unfold cow
  refine .bind (kmalloc_counted h.1 _) ?_
  rintro ⟨k₁, mem⟩ hgrant
  cases mem with
  | none => exact .ok ⟨hgrant, h.2⟩
  | some mem =>
    have hv' : (Pte.mk mem (pte.flags ||| PTE_W)).flags.has PTE_V = true := by
      have hbit : ∀ f : Flags, f.has PTE_V = true → (f ||| PTE_W).has PTE_V = true := by decide
      exact hbit pte.flags hv
    refine .bind (kfree_counted (cow_bump hwalk hv hgrant)) fun k₂ h₂ => ?_
    exact .ok ⟨h₂, valid_set h.2 (.inr hv')⟩

theorem inode_read_held (files : Files) (file : Vma.File) (page off : Nat) (h : Held k pt ext) :
    Ensures (inode_read k files file page off) Benign fun k' => Held k' pt ext := by
  unfold inode_read
  dsimp only
  split
  · exact .ok h
  · split
    · exact .error rfl
    · exact .ok ⟨h.1.congr rfl rfl rfl, h.2⟩

theorem populate_held (files : Files) (stval : Nat) (v : vma) (h : Held k pt ext) :
    Ensures (pagefault.populate files stval v k pt) Benign fun r => Held r.1 r.2.1 ext := by
  unfold pagefault.populate
  refine .bind (uvmalloc_held _ _ _ h) ?_
  rintro ⟨k₁, pt₁, sz⟩ h₁
  simp only
  split
  · cases v.vm_file with
    | none => exact .error rfl
    | some file =>
      dsimp only
      refine .bind (inode_read_held files file _ _ h₁) fun k₂ h₂ => ?_
      exact .ok h₂
  · exact .ok h₁

theorem pagefault_held (files : Files) (mm : mm_struct) (cause : Cause) (stval : Nat) (h : Held k pt ext) :
    Ensures (pagefault files mm cause k pt stval) Benign fun r => Held r.1 r.2.1 ext := by
  unfold pagefault
  split
  · exact .ok h
  split
  · exact .ok h
  simp only
  split
  · exact .ok h
  refine .bind (walk_ensures pt stval) ?_
  rintro found hwalk
  cases found with
  | null => exact populate_held files stval _ h
  | entry level pte =>
    simp only
    split
    · exact populate_held files stval _ h
    split
    · exact .error rfl
    · next hv =>
      split
      · exact cow_held hwalk (by simpa using hv) h
      · exact .ok h

end Fault

end LostWakeup.Mm.Vm
