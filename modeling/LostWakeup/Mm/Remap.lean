/-
# LostWakeup.Mm.Remap — when `mappages` finds its place taken.

`uvmalloc` of a range where no page is mapped panics all the same, when a table of 4K pages that have all been
unmapped lies where a 2M page is to go: `uvmunmap` clears the leaves and keeps the table.  `Ahead` says what is free
from the address on that a loop of `uvmalloc` has come to; a turn takes away only what it passes.
-/
import LostWakeup.Mm.AddressSpaces
import LostWakeup.Mm.AllocFailure

namespace LostWakeup.Mm.Vm

open Library
open Mm.Vma (PGSIZE SUPERPGSIZE PGROUNDUP SUPERPG_ROUNDUP vma mm_struct)

/-! ## One leaf -/

/-- Nothing is in the way of a leaf. -/
def Vacant (pt : PageTable) (va : Nat) : Level → Prop
  | .COMMONPAGE => ¬FoundAt pt va
  | .SUPERPAGE => pt.dir (region va) = .none

/-- The panics that are not `mappages: remap`. -/
def NotRemap (e : Panic) : Prop := e ≠ .remap

instance decidableNotRemap (e : Panic) : Decidable (NotRemap e) := inferInstanceAs (Decidable (_ ≠ _))

/-- The place in the table that a walk has made for a leaf. -/
def Room (pt : PageTable) (va : Nat) : Level → Prop
  | .COMMONPAGE => ∃ page ptes, pt.dir (region va) = .table page ptes ∧ (ptes (slot va)).flags.has PTE_V = false
  | .SUPERPAGE => pt.dir (region va) = .none

/-- Only the entry of the region of `va` may have changed. -/
def DirKept (va : Nat) (pt pt' : PageTable) : Prop := ∀ r, r ≠ region va → pt'.dir r = pt.dir r

section

variable {k : Phys} {pt : PageTable} {va : Nat} {level : Level}

theorem kmalloc_notRemap (k : Phys) (order : Nat) : Ensures (kmalloc k order) NotRemap fun _ => True := by
  unfold kmalloc
  rcases k.pool with _ | ⟨_ | page, pool⟩
  · exact .ok trivial
  · exact .ok trivial
  · dsimp only
    split
    · exact .error (by decide)
    · split
      · exact .error (by decide)
      · exact .ok trivial

theorem kzalloc_notRemap (k : Phys) (order : Nat) : Ensures (kzalloc k order) NotRemap fun _ => True := by
  unfold kzalloc
  refine .bind (kmalloc_notRemap k order) ?_
  rintro ⟨k', mem⟩ -
  cases mem with
  | none => exact .ok trivial
  | some page => exact .ok trivial

theorem kfree_notRemap (k : Phys) (page : Nat) : Ensures (kfree k page) NotRemap fun _ => True := by
  unfold kfree
  split
  · exact .error (by decide)
  dsimp only
  split
  · exact .ok trivial
  · split
    · exact .error (by decide)
    · exact .ok trivial

theorem walkRoot_notRemap (k : Phys) (pt : PageTable) (va : Nat) :
    Ensures (walkRoot k pt va) NotRemap fun r => r.2.1.dir = pt.dir := by
  unfold walkRoot
  rcases pt.roots (rootOf va) with _ | page
  · refine .bind (kzalloc_notRemap k 0) ?_
    rintro ⟨k', page⟩ -
    cases page with
    | none => exact .ok rfl
    | some page => exact .ok rfl
  · exact .ok rfl

theorem setEntry_dir (pt : PageTable) (va : Nat) (e : Entry) : DirKept va pt (pt.setEntry (region va) e) :=
  fun _ hr => Function.update_of_ne hr _ _

theorem setEntry_self (pt : PageTable) (r : Fin NREGION) (e : Entry) : (pt.setEntry r e).dir r = e :=
  Function.update_self _ _ _

theorem walkTable_room (k : Phys) (hvalid : pt.Valid) (h : Vacant pt va level) :
    Ensures (walkTable k pt va level) NotRemap fun r =>
      DirKept va pt r.2.1 ∧ r.2.1.Valid ∧ (r.2.2 = true → Room r.2.1 va level) := by
  cases level with
  | SUPERPAGE => exact .ok ⟨fun _ _ => rfl, hvalid, fun _ => h⟩
  | COMMONPAGE =>
    cases hd : pt.dir (region va) with
    | none =>
      simp only [walkTable, hd]
      refine .bind (kzalloc_notRemap k 0) ?_
      rintro ⟨k', page⟩ -
      cases page with
      | none => exact .ok ⟨fun _ _ => rfl, hvalid, nofun⟩
      | some page =>
        exact .ok ⟨setEntry_dir pt va _, valid_setEntry hvalid fun _ => .inl rfl, fun _ => ⟨page, _, setEntry_self pt _ _, rfl⟩⟩
    | table page ptes =>
      simp only [walkTable, hd]
      refine .ok ⟨fun _ _ => rfl, hvalid, fun _ => ⟨page, ptes, hd, ?_⟩⟩
      by_contra hv
      apply h
      refine ⟨.COMMONPAGE, ?_⟩
      simp only [place, PageTable.leafAt, hd]
      simpa using hv
    | leaf pte =>
      -- a 2M leaf is a page at `va`
      have hv := hvalid (region va)
      rw [hd] at hv
      refine absurd ⟨.SUPERPAGE, ?_⟩ h
      simp only [place, PageTable.leafAt, hd]
      exact hv

theorem mapEntry_room (pfn : Nat) (perm : Flags) (h : Room pt va level) :
    Ensures (mapEntry pt va pfn perm level) NotRemap (DirKept va pt) := by
  cases level with
  | SUPERPAGE =>
    have hd : pt.dir (region va) = .none := h
    unfold mapEntry
    rw [hd]
    exact .ok (setEntry_dir pt va _)
  | COMMONPAGE =>
    obtain ⟨page, ptes, hd, hv⟩ := h
    unfold mapEntry
    rw [hd]
    dsimp only
    rw [if_neg (by rw [hv]; decide)]
    exact .ok (setEntry_dir pt va _)

/-- A turn of `mappages` panics about a mapping only where one is. -/
theorem mapOne_notRemap (k : Phys) (pfn : Nat) (perm : Flags) (hvalid : pt.Valid) (h : va < MAXVA → Vacant pt va level) :
    Ensures (mapOne k pt va pfn perm level) NotRemap fun r => DirKept va pt r.2.1 ∧ r.2.1.Valid := by
  unfold mapOne
  split
  · exact .error (by decide)
  next hlt =>
    have h := h (Nat.lt_of_not_le hlt)
    refine .bind ((walkRoot_notRemap k pt va).both (walkRoot_leafAt k pt va)) ?_
    rintro ⟨k₁, pt₁, ok₁⟩ ⟨hdir, -, hleaf⟩
    have hdir : pt₁.dir = pt.dir := hdir
    have hleaf : pt₁.leafAt = pt.leafAt := hleaf
    have hvalid₁ : pt₁.Valid := fun r => by rw [hdir]; exact hvalid r
    cases ok₁ with
    | false => exact .ok ⟨fun r _ => by rw [hdir], hvalid₁⟩
    | true =>
      have h₁ : Vacant pt₁ va level := by
        cases level with
        | SUPERPAGE =>
          show pt₁.dir (region va) = .none
          rw [hdir]
          exact h
        | COMMONPAGE => exact fun hfound => h ((foundAt_congr hleaf va).mp hfound)
      simp only [Bool.true_eq_false, if_false]
      refine .bind (walkTable_room k₁ hvalid₁ h₁) ?_
      rintro ⟨k₂, pt₂, ok₂⟩ ⟨hkept, hvalid₂, hroom⟩
      rw [DirKept, hdir] at hkept
      cases ok₂ with
      | false => exact .ok ⟨hkept, hvalid₂⟩
      | true =>
        simp only [Bool.true_eq_false, if_false]
        refine .bind ((mapEntry_room pfn perm (hroom rfl)).both (mapEntry_refs hvalid₂ va pfn perm level)) ?_
        rintro pt₃ ⟨hkept₃, hvalid₃, -⟩
        exact .ok ⟨fun r hr => (hkept₃ r hr).trans (hkept r hr), hvalid₃⟩

end

/-! ## The loops -/

/-- What is free from `a` on: the pages of the range, and the 2M regions from `s` to `d`. -/
structure Ahead (startva endva s d a : Nat) (cur : PageTable) : Prop where
  valid : cur.Valid
  pages : ∀ b, a ≤ b → startva ≤ b → b < endva → b % PGSIZE = 0 → b < MAXVA → ¬FoundAt cur b
  regions : ∀ r : Fin NREGION, a ≤ r.val * SUPERPGSIZE → s ≤ r.val * SUPERPGSIZE → r.val * SUPERPGSIZE < d →
    cur.dir r = .none

section

variable {k : Phys} {cur cur' : PageTable} {startva endva s d a : Nat} {level : Level}

/-- The turn at `a`. -/
theorem Ahead.next {new : Pte} (h : Ahead startva endva s d a cur) (hmax : a < MAXVA) (hal : a % level.pgsize = 0)
    (hdir : DirKept a cur cur') (hvalid : cur'.Valid) (hleaf : cur'.leafAt = Function.update cur.leafAt (place a level) new) :
    Ahead startva endva s d (a + level.pgsize) cur' where
  valid := hvalid
  pages b hlo hstart hend hb hbmax := by
    have hpos := level.pgsize_pos
    rintro ⟨level', hv⟩
    apply h.pages b (by omega) hstart hend hb hbmax
    refine ⟨level', ?_⟩
    rw [hleaf, Function.update_of_ne] at hv
    · exact hv
    · -- the leaf at `a` is the one of the pages up to the next
      intro heq
      have haddr := place_addr hmax hal
      rw [← heq] at haddr
      cases level' with
      | COMMONPAGE =>
        rw [place_common_addr hbmax] at haddr
        rw [pgsize_eq] at hb
        omega
      | SUPERPAGE =>
        rw [place_super_addr hbmax] at haddr
        cases level with
        | COMMONPAGE => cases heq
        | SUPERPAGE =>
          have hlo : a + 2097152 ≤ b := hlo
          omega
  regions r hlo hs hd := by
    have hpos := level.pgsize_pos
    rw [hdir r]
    · exact h.regions r (by omega) hs hd
    · rintro rfl
      rw [region_val hmax, superpgsize_eq] at hlo
      omega

/-- A loop of `uvmalloc` whose leaves have room, by induction on its turns. -/
theorem allocLoop_notRemap (perm : Flags) (n : Nat) (hal : a % level.pgsize = 0) (h : Ahead startva endva s d a cur)
    (hcommon : level = .COMMONPAGE → startva ≤ a ∧ ∀ b, b < a + n * PGSIZE → b % PGSIZE = 0 → b < MAXVA → b < endva)
    (hsuper : level = .SUPERPAGE → s ≤ a ∧ a + n * SUPERPGSIZE ≤ d)
    {as : List Nat} (has : as = (List.range n).map fun i => a + level.pgsize * i) :
    Ensures (allocLoop noCleanup startva perm level as k cur) NotRemap fun r =>
      r.2.2 = true → Ahead startva endva s d (a + n * level.pgsize) r.2.1 := by
  induction n generalizing a k cur as with
  | zero =>
    rw [has, Nat.zero_mul]
    exact .ok fun _ => h
  | succ n ih =>
    rw [range_steps] at has
    rw [has]
    have hpos := level.pgsize_pos
    have hsum : a + level.pgsize + n * level.pgsize = a + (n + 1) * level.pgsize := by
      rw [Nat.succ_mul]
      omega
    have hvacant : a < MAXVA → Vacant cur a level := by
      intro hmax
      cases level with
      | COMMONPAGE =>
        obtain ⟨hstart, hend⟩ := hcommon rfl
        have hal : a % PGSIZE = 0 := hal
        refine h.pages a le_rfl hstart (hend a ?_ hal hmax) hal hmax
        rw [pgsize_eq]
        omega
      | SUPERPAGE =>
        obtain ⟨hs, hd⟩ := hsuper rfl
        have hal : a % 2097152 = 0 := hal
        rw [superpgsize_eq] at hd
        have hregion : (region a).val * SUPERPGSIZE = a := by
          rw [region_val hmax, superpgsize_eq]
          omega
        exact h.regions (region a) (by omega) (by omega) (by omega)
    unfold allocLoop
    refine .bind (kzalloc_notRemap k level.order) ?_
    rintro ⟨k₁, mem⟩ -
    cases mem with
    | none => exact .ok fun hok => by cases hok
    | some mem =>
      simp only [mappages_one level hal]
      refine .bind ((mapOne_notRemap k₁ mem (PTE_R ||| PTE_U ||| perm) h.valid hvacant).both
        ((mapOne_leafAt k₁ cur a mem (PTE_R ||| PTE_U ||| perm) level).both
          (mapOne_lt k₁ cur a mem (PTE_R ||| PTE_U ||| perm) level))) ?_
      rintro ⟨k₂, cur₂, ok⟩ ⟨⟨hdir, hvalid⟩, ⟨-, hleaf⟩, hmax⟩
      cases ok with
      | false =>
        simp only [if_true]
        refine .bind (kfree_notRemap k₂ mem) fun k₃ _ => ?_
        exact .ok fun hok => by cases hok
      | true =>
        simp only [Bool.true_eq_false, if_false]
        rw [← hsum]
        refine ih (next_pgsize hal) (h.next hmax hal hdir hvalid hleaf) (fun hl => ?_) (fun hl => ?_) rfl
        · subst hl
          obtain ⟨hstart, hend⟩ := hcommon rfl
          refine ⟨hstart.trans le_self_add, fun b hb => hend b ?_⟩
          rw [← show a + PGSIZE + n * PGSIZE = a + (n + 1) * PGSIZE from hsum]
          exact hb
        · subst hl
          obtain ⟨hs, hd⟩ := hsuper rfl
          refine ⟨hs.trans le_self_add, ?_⟩
          rw [show a + Level.SUPERPAGE.pgsize + n * SUPERPGSIZE = a + (n + 1) * SUPERPGSIZE from hsum]
          exact hd

end

/-! ## The whole of `uvmalloc` -/

section

variable {k : Phys} {pt : PageTable} {startva endva : Nat} {perm : Flags}

/-- No level-1 entry lies where a 2M page is to go. -/
def RegionsFree (pt : PageTable) (startva endva : Nat) : Prop :=
  ∀ r : Fin NREGION, SUPERPG_ROUNDUP startva ≤ r.val * SUPERPGSIZE → r.val * SUPERPGSIZE < SUPERPG_DOWN endva →
    pt.dir r = .none

theorem ahead_of_free (hvalid : pt.Valid) (hfree : ∀ a, startva ≤ a → a < endva → ¬Mapped pt a)
    (hregions : RegionsFree pt startva endva) (a : Nat) :
    Ahead startva endva (SUPERPG_ROUNDUP startva) (SUPERPG_DOWN endva) a pt where
  valid := hvalid
  pages b _ hlo hhi _ hmax hfound := hfree b hlo hhi (mapped_iff.mpr ⟨hmax, hfound⟩)
  regions r _ hs hd := hregions r hs hd

/-- Without the clean-up, where `SUPERPG_ROUNDUP` does not wrap around. -/
theorem uvmallocWith_notRemap (hround : RoundsUp startva) (hle : startva ≤ endva) (hvalid : pt.Valid)
    (hfree : ∀ a, startva ≤ a → a < endva → ¬Mapped pt a) (hregions : RegionsFree pt startva endva) :
    Ensures (uvmallocWith noCleanup k pt startva endva perm) NotRemap fun _ => True := by
  have hup := hround.page
  have hsuper := hround.super
  obtain ⟨p, hp⟩ : ∃ p, p = PGROUNDUP startva := ⟨_, rfl⟩
  have hahead := ahead_of_free hvalid hfree hregions p
  obtain ⟨s, hs⟩ : ∃ s, s = SUPERPG_ROUNDUP startva := ⟨_, rfl⟩
  obtain ⟨d, hd⟩ : ∃ d, d = SUPERPG_DOWN endva := ⟨_, rfl⟩
  have hdown : d = endva / 2097152 * 2097152 := by rw [hd, SUPERPG_DOWN, superpgsize_eq]
  obtain ⟨m, hm⟩ : ∃ m, m = if endva ≤ s then endva else s := ⟨_, rfl⟩
  rw [← hp] at hup
  rw [← hs] at hsuper
  rw [← hs, ← hd] at hahead
  have hpal : p % Level.COMMONPAGE.pgsize = 0 := by
    show p % 4096 = 0
    omega
  have hstart : startva ≤ p := by omega
  obtain ⟨n₁, hn₁⟩ : ∃ n, n = (m - p + (PGSIZE - 1)) / PGSIZE := ⟨_, rfl⟩
  have haddrs₁ : addrs p m PGSIZE = (List.range n₁).map fun i => p + Level.COMMONPAGE.pgsize * i := by rw [hn₁]; rfl
  rw [pgsize_eq] at hn₁
  have hq₁ : ∀ b, b < p + n₁ * PGSIZE → b % PGSIZE = 0 → b < MAXVA → b < endva := by
    intro b hb hal _
    rw [pgsize_eq] at hb hal
    split at hm <;> omega
  unfold uvmallocWith
  rw [if_neg hle.not_gt]
  dsimp only
  rw [← hp, ← hs, ← hd, ← hm]
  refine .bind (allocLoop_notRemap perm n₁ hpal hahead (fun _ => ⟨hstart, hq₁⟩) (fun h => by cases h) haddrs₁) ?_
  rintro ⟨k₁, pt₁, ok₁⟩ h₁
  cases ok₁ with
  | false =>
    show Ensures (Except.ok (k₁, pt₁, 0)) _ _
    exact .ok trivial
  | true =>
    have h₁ := h₁ rfl
    dsimp only at h₁ ⊢
    rw [if_neg Bool.true_eq_false.mp]
    by_cases hsmall : endva ≤ s
    · rw [if_pos hsmall]
      exact .ok trivial
    rw [if_neg hsmall] at hm ⊢
    have hend₁ : p + n₁ * Level.COMMONPAGE.pgsize = s := by
      show p + n₁ * 4096 = s
      omega
    rw [hend₁] at h₁
    obtain ⟨n₂, hn₂⟩ : ∃ n, n = (d - s + (SUPERPGSIZE - 1)) / SUPERPGSIZE := ⟨_, rfl⟩
    have haddrs₂ : addrs s d SUPERPGSIZE = (List.range n₂).map fun i => s + Level.SUPERPAGE.pgsize * i := by
      rw [hn₂]
      rfl
    rw [superpgsize_eq] at hn₂
    have hal₂ : s % Level.SUPERPAGE.pgsize = 0 := by
      show s % 2097152 = 0
      omega
    have hend₂ : s + n₂ * SUPERPGSIZE = d := by
      rw [superpgsize_eq]
      omega
    refine .bind (allocLoop_notRemap perm n₂ hal₂ h₁ (fun h => by cases h) (fun _ => ⟨le_rfl, by omega⟩) haddrs₂) ?_
    rintro ⟨k₂, pt₂, ok₂⟩ h₂
    cases ok₂ with
    | false =>
      show Ensures (Except.ok (k₂, pt₂, 0)) _ _
      exact .ok trivial
    | true =>
      have h₂ := h₂ rfl
      dsimp only at h₂ ⊢
      rw [if_neg Bool.true_eq_false.mp]
      rw [show s + n₂ * Level.SUPERPAGE.pgsize = d from hend₂] at h₂
      obtain ⟨n₃, hn₃⟩ : ∃ n, n = (endva - d + (PGSIZE - 1)) / PGSIZE := ⟨_, rfl⟩
      have haddrs₃ : addrs d endva PGSIZE = (List.range n₃).map fun i => d + Level.COMMONPAGE.pgsize * i := by
        rw [hn₃]
        rfl
      rw [pgsize_eq] at hn₃
      have hal₃ : d % Level.COMMONPAGE.pgsize = 0 := by
        show d % 4096 = 0
        omega
      have hq₃ : ∀ b, b < d + n₃ * PGSIZE → b % PGSIZE = 0 → b < MAXVA → b < endva := by
        intro b hb hal _
        rw [pgsize_eq] at hb hal
        omega
      refine .bind (allocLoop_notRemap perm n₃ hal₃ h₂ (fun _ => ⟨by omega, hq₃⟩) (fun h => by cases h) haddrs₃) ?_
      rintro ⟨k₃, pt₃, ok₃⟩ -
      cases ok₃ with
      | false =>
        show Ensures (Except.ok (k₃, pt₃, 0)) _ _
        exact .ok trivial
      | true =>
        show Ensures (Except.ok (k₃, pt₃, endva)) _ _
        exact .ok trivial

/-- A loop that gives back nothing. -/
theorem allocLoop_larger (level : Level) {as : List Nat} (h : ∀ a ∈ as, a ≤ startva) :
    allocLoop uvmdealloc startva perm level as k pt = allocLoop noCleanup startva perm level as k pt := by
  induction as generalizing k pt with
  | nil => rfl
  | cons a as ih =>
    have ha := h a List.mem_cons_self
    unfold allocLoop
    congr 1
    funext r
    obtain ⟨k₁, mem⟩ := r
    cases mem with
    | none =>
      dsimp only
      rw [uvmdealloc_larger k₁ pt ha]
      rfl
    | some mem =>
      dsimp only
      congr 1
      funext r
      obtain ⟨k₂, pt₂, ok⟩ := r
      cases ok with
      | false =>
        dsimp only
        rw [if_pos rfl, if_pos rfl]
        congr 1
        funext k₃
        rw [uvmdealloc_larger k₃ pt₂ ha]
        rfl
      | true =>
        dsimp only
        rw [if_neg Bool.true_eq_false.mp, if_neg Bool.true_eq_false.mp]
        exact ih fun b hb => h b (List.mem_cons_of_mem _ hb)

theorem allocLoop_beyond {level : Level} {a : Nat} (as : List Nat) (hal : a % level.pgsize = 0) (hmax : MAXVA ≤ a)
    (ha : a ≤ startva) :
    Ensures (allocLoop uvmdealloc startva perm level (a :: as) k pt) NotRemap fun _ => True := by
  unfold allocLoop
  refine .bind (kzalloc_notRemap k level.order) ?_
  rintro ⟨k₁, mem⟩ -
  cases mem with
  | none =>
    dsimp only
    rw [uvmdealloc_larger k₁ pt ha]
    exact .ok trivial
  | some mem =>
    dsimp only
    rw [mappages_one level hal, mapOne, if_pos hmax]
    exact .error (by decide)

theorem uvmalloc_wrapped_notRemap (hround : ¬RoundsUp startva) (hle : startva ≤ endva) (hend : endva < 2 ^ 64)
    (hvalid : pt.Valid) (hfree : ∀ a, startva ≤ a → a < endva → ¬Mapped pt a) (hregions : RegionsFree pt startva endva) :
    Ensures (uvmalloc k pt startva endva perm) NotRemap fun _ => True := by
  obtain ⟨-, -, hs, -⟩ := @addrs_wrapped startva endva hround hle hend
  have hahead := ahead_of_free hvalid hfree hregions 0
  rw [hs] at hahead
  obtain ⟨d, hd⟩ : ∃ d, d = SUPERPG_DOWN endva := ⟨_, rfl⟩
  have hdown : d = 2 ^ 64 - 2097152 := by
    simp only [RoundsUp, superpgsize_eq] at hround
    rw [hd, SUPERPG_DOWN, superpgsize_eq]
    omega
  have hdstart : d ≤ startva := by
    simp only [RoundsUp, superpgsize_eq] at hround
    omega
  rw [← hd] at hahead
  unfold uvmalloc
  rw [uvmallocWith_wraps uvmdealloc hround hle hend, ← hd]
  obtain ⟨n, hn⟩ : ∃ n, n = (d - 0 + (SUPERPGSIZE - 1)) / SUPERPGSIZE := ⟨_, rfl⟩
  have haddrs : addrs 0 d SUPERPGSIZE = (List.range n).map fun i => 0 + Level.SUPERPAGE.pgsize * i := by
    rw [hn]
    rfl
  have hbelow : ∀ a ∈ addrs 0 d SUPERPGSIZE, a ≤ startva := by
    intro a ha
    rw [haddrs, List.mem_map] at ha
    obtain ⟨i, hi, rfl⟩ := ha
    rw [List.mem_range] at hi
    rw [superpgsize_eq] at hn
    show 0 + 2097152 * i ≤ startva
    omega
  rw [allocLoop_larger .SUPERPAGE hbelow]
  have hturns : 0 + n * SUPERPGSIZE ≤ d := by
    rw [superpgsize_eq] at hn ⊢
    omega
  refine .bind (allocLoop_notRemap perm n (Nat.zero_mod _) hahead (fun h => by cases h) (fun _ => ⟨le_rfl, hturns⟩)
    haddrs) ?_
  rintro ⟨k₁, pt₁, ok₁⟩ -
  cases ok₁ with
  | false =>
    show Ensures (Except.ok (k₁, pt₁, 0)) _ _
    exact .ok trivial
  | true =>
    dsimp only
    rw [if_neg Bool.true_eq_false.mp]
    have hbeyond : MAXVA ≤ d := by
      simp only [MAXVA]
      omega
    have hal : d % Level.COMMONPAGE.pgsize = 0 := by
      show d % 4096 = 0
      omega
    have hlast : Ensures (allocLoop uvmdealloc startva perm .COMMONPAGE (addrs d endva PGSIZE) k₁ pt₁) NotRemap
        fun _ => True := by
      rcases @addrs_head d endva PGSIZE (by decide) with ⟨-, hhead⟩ | ⟨-, hnil⟩
      · obtain ⟨as, has⟩ : ∃ as, addrs d endva PGSIZE = d :: as := by
          rcases hlist : addrs d endva PGSIZE with _ | ⟨b, as⟩
          · rw [hlist] at hhead
            cases hhead
          · rw [hlist] at hhead
            cases hhead
            exact ⟨as, rfl⟩
        rw [has]
        exact allocLoop_beyond as hal hbeyond hdstart
      · rw [hnil]
        exact .ok trivial
    refine .bind hlast ?_
    rintro ⟨k₂, pt₂, ok₂⟩ -
    cases ok₂ with
    | false =>
      show Ensures (Except.ok (k₂, pt₂, 0)) _ _
      exact .ok trivial
    | true =>
      show Ensures (Except.ok (k₂, pt₂, endva)) _ _
      exact .ok trivial

theorem uvmalloc_notRemap {ext : Holders} (hheld : Held k pt ext) (hle : startva ≤ endva) (hend : endva < 2 ^ 64)
    (hfree : ∀ a, startva ≤ a → a < endva → ¬Mapped pt a) (hregions : RegionsFree pt startva endva) :
    uvmalloc k pt startva endva perm ≠ .error .remap := by
  intro hpanic
  by_cases hround : RoundsUp startva
  · -- the clean-up does not panic, so the loops do
    have halone := (uvmalloc_fails perm hheld hround hle hfree).of_error hpanic
    exact (uvmallocWith_notRemap hround hle hheld.2 hfree hregions).of_error halone rfl
  · exact (uvmalloc_wrapped_notRemap hround hle hend hheld.2 hfree hregions).of_error hpanic rfl

end

/-! ## Runs -/

namespace System

/-- The calls that a page table sees. -/
inductive PageCall
  | event (e : Event)
  | uvmdealloc (p : Fin NPROC) (oldsz newsz : Nat)

def call (sys : System) : PageCall → Except Panic System
  | .event e => sys.next e
  | .uvmdealloc p oldsz newsz => do
    let (k, pt) ← Vm.uvmdealloc sys.phys (sys.tables p) oldsz newsz
    return sys.setTable k p pt

def CallStep (sys : System) (c : PageCall) (sys' : System) : Prop :=
  (∀ e, c = .event e → sys.Legal e) ∧ sys.call c = .ok sys'

theorem call_inv {sys sys' : System} {c : PageCall} (h : sys.Inv) (hs : CallStep sys c sys') : sys'.Inv := by
  cases c with
  | event e => exact (next_inv h e (hs.1 e rfl)).of_ok hs.2
  | uvmdealloc p oldsz newsz =>
    have hret : Ensures (sys.call (.uvmdealloc p oldsz newsz)) Benign Inv := by
      refine .bind (uvmdeallocWith_held uvmalloc_front_held oldsz newsz (h.held p)) ?_
      rintro ⟨k, pt⟩ hheld
      exact .ok (inv_setTable hheld fun q _ => h.valid q)
    exact hret.of_ok hs.2

theorem no_false_remap {boot sys : System} {cs : List PageCall} (hboot : boot.Boot) (hrun : Run CallStep boot cs sys)
    (p : Fin NPROC) {startva endva : Nat} (perm : Flags) (hle : startva ≤ endva) (hend : endva < 2 ^ 64)
    (hfree : ∀ a, startva ≤ a → a < endva → ¬Mapped (sys.tables p) a)
    (hregions : RegionsFree (sys.tables p) startva endva) :
    Vm.uvmalloc sys.phys (sys.tables p) startva endva perm ≠ .error .remap := by
  have hinv := hrun.invariant (fun _ _ _ hinv hs => call_inv hinv hs) hboot.inv
  exact uvmalloc_notRemap (hinv.held p) hle hend hfree hregions

/-- A legal call, where it returns. -/
def allowedCall (sys : System) : PageCall → Option System
  | .event e => sys.allowedStep e
  | c => (sys.call c).toOption

theorem step_of_allowedCall {sys sys' : System} {c : PageCall} (h : sys.allowedCall c = some sys') : CallStep sys c sys' := by
  cases c with
  | event e =>
    have hs := step_of_allowedStep h
    refine ⟨fun e' he => ?_, hs.2⟩
    cases he
    exact hs.1
  | uvmdealloc p oldsz newsz => exact ⟨fun e he => (by cases he), ok_of_toOption h⟩

/-- A 4K page is mapped and unmapped. -/
def onePage (p : Fin NPROC) : List PageCall :=
  [.event (.uvmalloc p 0x1000 0x2000 PTE_W), .event (.uvmunmap p 0x1000 1 false)]

/-- No leaf of the first 2M is valid. -/
def emptyRegion (pt : PageTable) : Bool :=
  !(pt.leafAt (.super (region 0))).flags.has PTE_V &&
    (List.finRange NPTE).all fun s => !(pt.leafAt (.common (region 0) s)).flags.has PTE_V

theorem not_mapped_of_empty {pt : PageTable} (h : emptyRegion pt = true) {a : Nat} (ha : a < SUPERPGSIZE) : ¬Mapped pt a := by
  rw [mapped_iff]
  rintro ⟨hmax, level, hv⟩
  simp only [emptyRegion, Bool.and_eq_true, List.all_eq_true, Bool.not_eq_true'] at h
  have hregion : region a = region 0 := by
    apply Fin.ext
    rw [region_val hmax, region_val (by decide)]
    rw [superpgsize_eq] at ha
    exact Nat.div_eq_of_lt ha
  cases level with
  | COMMONPAGE =>
    rw [place, hregion, h.2 (slot a) (List.mem_finRange _)] at hv
    cases hv
  | SUPERPAGE =>
    rw [place, hregion, h.1] at hv
    cases hv

/-- The page can be had again. -/
theorem no_false_remap_again : ∃ sys, Run CallStep (booted [some 1, some 2, some 3, some 4]) (onePage 0) sys ∧
    Vm.uvmalloc sys.phys (sys.tables 0) 0x1000 0x2000 PTE_W ≠ .error .remap := by
  have hsome : ((exec allowedCall (booted [some 1, some 2, some 3, some 4]) (onePage 0)).map fun sys =>
      emptyRegion (sys.tables 0)) = some true := by
    decide +kernel
  obtain ⟨sys, hexec, hempty⟩ := Option.map_eq_some_iff.1 hsome
  have hrun := (run_of_exec _ _ _ hexec).mono fun _ _ _ => step_of_allowedCall
  refine ⟨sys, hrun, no_false_remap ⟨fun _ => rfl, fun _ => rfl, fun _ => rfl, fun _ => rfl⟩ hrun 0 PTE_W (by decide)
    (by decide) (fun a _ ha => not_mapped_of_empty hempty ?_) fun r hlo hhi => ?_⟩
  · rw [superpgsize_eq]
    omega
  · rw [show SUPERPG_DOWN 0x2000 = 0 from rfl] at hhi
    exact absurd hhi (Nat.not_lt_zero _)

/-- The first 2M are asked for at once, and the table is in the way. -/
theorem left_table_is_remapped : ¬∀ (boot sys : System) (cs : List PageCall) (p : Fin NPROC) (startva endva : Nat)
    (perm : Flags), boot.Boot → Run CallStep boot cs sys → startva ≤ endva → endva < 2 ^ 64 →
      (∀ a, startva ≤ a → a < endva → ¬Mapped (sys.tables p) a) →
      Vm.uvmalloc sys.phys (sys.tables p) startva endva perm ≠ .error .remap := by
  intro hall
  have hsome : ((exec allowedCall (booted [some 1, some 2, some 3, some 512]) (onePage 0)).map fun sys =>
      (emptyRegion (sys.tables 0), (Vm.uvmalloc sys.phys (sys.tables 0) 0 0x200000 PTE_W).map fun r => r.2.2))
        = some (true, .error .remap) := by
    decide +kernel
  obtain ⟨sys, hexec, hres⟩ := Option.map_eq_some_iff.1 hsome
  have hrun := (run_of_exec _ _ _ hexec).mono fun _ _ _ => step_of_allowedCall
  rw [Prod.mk.injEq] at hres
  have hfree : ∀ a, 0 ≤ a → a < 0x200000 → ¬Mapped (sys.tables 0) a := fun a _ ha => not_mapped_of_empty hres.1 ha
  apply hall _ sys (onePage 0) 0 0 0x200000 PTE_W ⟨fun _ => rfl, fun _ => rfl, fun _ => rfl, fun _ => rfl⟩ hrun (by decide)
    (by decide) hfree
  exact error_of_map hres.2

end System

end LostWakeup.Mm.Vm
