/-
# LostWakeup.Mm.AllocFailure — `uvmalloc` when memory runs out.

`uvmalloc` gives up at six places, and each time gives back what it has mapped so far: the pages from
`PGROUNDUP(startva)` to the address it has come to, 4K and 2M leaves mixed (`Grown`).

In the last 2M of the 64-bit space `SUPERPG_ROUNDUP` wraps around to 0, and the 2M pages are mapped from 0 on;
`uvmdealloc` then gives back nothing.
-/
import LostWakeup.Mm.Found
import LostWakeup.Mm.Translation

namespace LostWakeup.Mm.Vm

open Library
open Function (update update_of_ne update_self)
open Mm.Vma (PGSIZE SUPERPGSIZE PGROUNDUP SUPERPG_ROUNDUP)

/-! ## The property -/

/-- `uvmalloc` with the clean-up left out. -/
def noCleanup : Dealloc := fun k pt _ _ => .ok (k, pt)

/-- Nothing is left of a call that failed, but for pages of the table.  The frames that it took are free again, and the
counts of the others are exact. -/
structure NoTrace (pt : PageTable) (startva endva : Nat) (ext : Holders) (k k' : Phys) (pt' : PageTable) : Prop where
  unmapped : ∀ a, startva ≤ a → a < endva → ¬Mapped pt' a
  kept : ∀ a, ¬(startva ≤ a ∧ a < endva) → SameAt a pt pt'
  freed : ∀ frame, k'.busy frame = true → k.busy frame = true ∨ pt'.HasPage frame
  held : Held k' pt' ext

/-- A call that returns 0 leaves no trace, and where a call panics it is not the clean-up that does. -/
def FailsCleanly (k : Phys) (pt : PageTable) (ext : Holders) (startva endva : Nat) (perm : Flags) : Prop :=
  (∀ k' pt', uvmalloc k pt startva endva perm = .ok (k', pt', 0) → NoTrace pt startva endva ext k k' pt') ∧
  ∀ e, uvmalloc k pt startva endva perm = .error e → uvmallocWith noCleanup k pt startva endva perm = .error e

/-! ## What has been mapped so far -/

/-- The pages from `p` to `a` have been mapped. -/
structure Grown (pt : PageTable) (p a : Nat) (cur : PageTable) : Prop where
  le : p ≤ a
  max : p < a → a ≤ MAXVA
  kept : ∀ u, u.addr < p ∨ a ≤ u.addr → cur.leafAt u = pt.leafAt u
  plain : PlainLeaves cur p a
  present : Present cur p a
  whole : ∀ r : Fin NREGION, (cur.leafAt (.super r)).flags.has PTE_V = true → p ≤ r.val * SUPERPGSIZE →
    r.val * SUPERPGSIZE < a → r.val * SUPERPGSIZE + SUPERPGSIZE ≤ a

theorem Grown.refl (pt : PageTable) (p : Nat) : Grown pt p p pt where
  le := Nat.le_refl p
  max h := absurd h (Nat.lt_irrefl p)
  kept _ _ := rfl
  plain _ hlo hhi := absurd hlo hhi.not_ge
  present _ hlo hhi := absurd hlo hhi.not_ge
  whole _ _ hlo hhi := absurd hlo hhi.not_ge

/-- The pages that begin in `[p, q)` are not mapped. -/
def FreePages (pt : PageTable) (p q : Nat) : Prop :=
  ∀ b, p ≤ b → b < q → b % PGSIZE = 0 → b < MAXVA → ¬FoundAt pt b

section

variable {pt cur cur' : PageTable} {p q a : Nat} {level : Level}

theorem FreePages.leafAt (h : FreePages pt p q) (hvalid : pt.Valid) {u : Use} (hlo : p ≤ u.addr) (hhi : u.addr < q) :
    pt.leafAt u = Pte.zero := by
  refine (leafAt_valid hvalid u).resolve_right fun hv => ?_
  have hmax := u.addr_lt
  apply h u.addr hlo hhi u.addr_aligned hmax
  rcases use_of_addr (leaf_of_leafAt hv) hmax with heq | heq
  · exact ⟨.COMMONPAGE, by rw [← heq]; exact hv⟩
  · exact ⟨.SUPERPAGE, by rw [← heq]; exact hv⟩

theorem plain_allocFlags : ∀ perm : Flags, allocFlags perm ≠ PTE_V := by decide

/-- One more leaf. -/
theorem Grown.next (h : Grown pt p a cur) (hfree : FreePages pt p q) (hvalid : pt.Valid) (hmax : a < MAXVA)
    (hal : a % level.pgsize = 0) (hq : ∀ b, b < a + level.pgsize → b % PGSIZE = 0 → b < q) {mem : Nat} {perm : Flags}
    (hleaf : cur'.leafAt = update cur.leafAt (place a level) ⟨mem, allocFlags perm⟩) :
    Grown pt p (a + level.pgsize) cur' := by
  have hle := h.le
  have haddr := place_addr hmax hal
  have hpos := level.pgsize_pos
  have hend : a + level.pgsize ≤ MAXVA := by
    have hM := maxva_aligned level
    cases level with
    | COMMONPAGE =>
      have hal : a % 4096 = 0 := hal
      show a + 4096 ≤ MAXVA
      simp only [MAXVA] at hmax ⊢
      omega
    | SUPERPAGE =>
      have hal : a % 2097152 = 0 := hal
      show a + 2097152 ≤ MAXVA
      simp only [MAXVA] at hmax ⊢
      omega
  -- the other leaves that begin in the new page are not there
  have hnew : ∀ u, u ≠ place a level → a ≤ u.addr → u.addr < a + level.pgsize → cur'.leafAt u = Pte.zero := by
    intro u hne hlo hhi
    rw [hleaf, update_of_ne hne, h.kept u (.inr hlo)]
    exact hfree.leafAt hvalid (hle.trans hlo) (hq _ hhi u.addr_aligned)
  have hold : ∀ u, u.addr < a → cur'.leafAt u = cur.leafAt u := by
    intro u hlt
    rw [hleaf, update_of_ne]
    rintro rfl
    omega
  refine ⟨by omega, fun _ => hend, fun u hu => ?_, fun u hlo hhi hv => ?_, fun b hlo hhi hb => ?_, fun r hv hlo hhi => ?_⟩
  · rw [hleaf, update_of_ne]
    · exact h.kept u (by omega)
    · rintro rfl
      omega
  · rcases lt_or_ge u.addr a with hlt | hge
    · rw [hold u hlt] at hv ⊢
      exact h.plain u hlo hlt hv
    rcases eq_or_ne u (place a level) with rfl | hne
    · rw [hleaf, update_self]
      exact plain_allocFlags perm
    · rw [hnew u hne hge hhi] at hv
      cases hv
  · rcases lt_or_ge b a with hlt | hge
    · obtain ⟨level', hv⟩ := h.present b hlo hlt hb
      refine ⟨level', ?_⟩
      rw [hleaf]
      rcases eq_or_ne (place b level') (place a level) with heq | hne
      · rw [heq, update_self]
        exact allocFlags_valid perm
      · rw [update_of_ne hne]
        exact hv
    · refine ⟨level, ?_⟩
      rw [place_of_mem hal hge hhi level id, hleaf, update_self]
      exact allocFlags_valid perm
  · have haddr' : (Use.super r).addr = r.val * SUPERPGSIZE := rfl
    rcases lt_or_ge (r.val * SUPERPGSIZE) a with hlt | hge
    · rw [hold (.super r) hlt] at hv
      exact (h.whole r hv hlo hlt).trans le_self_add
    rcases eq_or_ne (Use.super r) (place a level) with heq | hne
    · cases level with
      | COMMONPAGE => cases heq
      | SUPERPAGE =>
        rw [heq] at haddr'
        show _ ≤ a + SUPERPGSIZE
        omega
    · rw [hnew _ hne hge hhi] at hv
      cases hv

/-- **The clean-up** returns, and the leaves are those of before. -/
theorem Grown.cleanup (h : Grown pt p a cur) (hfree : FreePages pt p a) (hvalid : pt.Valid) (hp : p % PGSIZE = 0)
    (ha : a % PGSIZE = 0) {k : Phys} {ext : Holders} (hheld : Held k cur ext) {startva : Nat}
    (hstart : PGROUNDUP startva = p) (hle : startva ≤ p) :
    ∃ k' pt', uvmdealloc k cur a startva = .ok (k', pt') ∧ Held k' pt' ext ∧ pt'.leafAt = pt.leafAt := by
  have hpa := h.le
  rcases Nat.eq_or_lt_of_le hpa with rfl | hlt
  · -- nothing has been mapped
    refine ⟨k, cur, ?_, hheld, funext fun u => h.kept u (by omega)⟩
    have hup : PGROUNDUP p = p := by
      rw [← hstart]
      simp only [Vma.PGROUNDUP, roundUp, pgsize_eq]
      omega
    unfold uvmdealloc uvmdeallocWith
    split
    · rfl
    · rw [if_neg (by rw [hstart, hup]; exact Nat.lt_irrefl p)]
  · have hmax := h.max hlt
    have hup : PGROUNDUP a = a := by
      simp only [Vma.PGROUNDUP, roundUp, pgsize_eq, MAXVA] at ha hmax ⊢
      omega
    have hpages : p + (a - p) / PGSIZE * PGSIZE = a := by
      rw [pgsize_eq] at hp ha ⊢
      omega
    have hedge : Edge cur p := by
      intro r hv hr
      rw [h.kept (.super r) (.inl hr)] at hv
      exact edge_of_free (by omega) (hfree p le_rfl hlt hp (by omega)) r hv hr
    have hswept : Swept cur p p cur := ⟨fun u hlo hhi => absurd hlo hhi.not_ge, fun _ _ => rfl, hedge⟩
    have hplain : PlainLeaves cur p (p + (a - p) / PGSIZE * PGSIZE) := by rw [hpages]; exact h.plain
    have hpresent : Present cur p (p + (a - p) / PGSIZE * PGSIZE) := by rw [hpages]; exact h.present
    have hmode : false = true ∨ p = p ∧ Present cur p (p + (a - p) / PGSIZE * PGSIZE) := .inr ⟨rfl, hpresent⟩
    obtain ⟨k', pt', h', hret, hpast⟩ := uvmunmap_sweeps hplain hedge hp (by omega) hp le_rfl le_rfl hmode hheld hswept
    rw [hpages] at hpast
    have hstop : h' = a := by
      rcases hpast.stops with hstop | ⟨r, hv, hlo, hhi, hstop⟩
      · omega
      · have hwhole := h.whole r hv hlo hhi
        have hge := hpast.past
        omega
    refine ⟨k', pt', ?_, hpast.held, funext fun u => ?_⟩
    · unfold uvmdealloc uvmdeallocWith
      rw [if_neg (by omega), hstart, hup, if_pos hlt]
      exact hret
    have hswept := hpast.swept
    rw [hstop] at hswept
    rcases lt_or_ge u.addr p with hlow | hge
    · rw [hswept.kept u (.inl hlow), h.kept u (.inl hlow)]
    · rcases lt_or_ge u.addr a with hin | hout
      · rw [hswept.gone u hge hin, hfree.leafAt hvalid hge hin]
      · rw [hswept.kept u (.inr hout), h.kept u (.inr hout)]

theorem Grown.congr (h : Grown pt p a cur) (hleaf : cur'.leafAt = cur.leafAt) : Grown pt p a cur' where
  le := h.le
  max := h.max
  kept u hu := by rw [hleaf]; exact h.kept u hu
  plain u := by rw [hleaf]; exact h.plain u
  present b hlo hhi hb := by
    rcases h.present b hlo hhi hb with ⟨level, hv⟩
    exact ⟨level, by rw [hleaf]; exact hv⟩
  whole r := by rw [hleaf]; exact h.whole r

end

/-! ## The loops -/

theorem range_steps (a step n : Nat) :
    (List.range (n + 1)).map (fun i => a + step * i) = a :: (List.range n).map fun i => a + step + step * i := by
  rw [List.range_succ_eq_map, List.map_cons, List.map_map]
  congr 1
  apply List.map_congr_left
  intro i _
  simp only [Function.comp, Nat.mul_succ]
  omega

theorem next_pgsize {a : Nat} {level : Level} (h : a % level.pgsize = 0) : (a + level.pgsize) % level.pgsize = 0 := by
  rw [Nat.add_mod_right]
  exact h

/-- What a loop of `uvmalloc` has done: the pages up to `a` have been mapped, or everything has been given back. -/
def GrownOrUndone (pt : PageTable) (ext : Holders) (p a : Nat) (alone : Except Panic (Phys × PageTable × Bool))
    (r : Phys × PageTable × Bool) : Prop :=
  Held r.1 r.2.1 ext ∧ if r.2.2 then Grown pt p a r.2.1 ∧ alone = .ok r else r.2.1.leafAt = pt.leafAt

/-- A loop of `uvmalloc`, by induction on its turns.  It stops only where it would stop without the clean-up. -/
theorem allocLoop_fails {pt cur : PageTable} {p q a startva : Nat} {level : Level} {k : Phys} {ext : Holders} (perm : Flags)
    (hfree : FreePages pt p q) (hvalid : pt.Valid) (hp : p % PGSIZE = 0) (hstart : PGROUNDUP startva = p)
    (hle : startva ≤ p) (n : Nat) (hal : a % level.pgsize = 0)
    (hq : ∀ b, b < a + n * level.pgsize → b % PGSIZE = 0 → b < q) (hgrown : Grown pt p a cur) (hheld : Held k cur ext)
    {as : List Nat} (has : as = (List.range n).map fun i => a + level.pgsize * i) :
    Ensures (allocLoop uvmdealloc startva perm level as k cur)
      (fun e => allocLoop noCleanup startva perm level as k cur = .error e)
      (GrownOrUndone pt ext p (a + n * level.pgsize) (allocLoop noCleanup startva perm level as k cur)) := by
  induction n generalizing a k cur as with
  | zero =>
    rw [has]
    refine .ok ⟨hheld, ?_, rfl⟩
    rw [Nat.zero_mul]
    exact hgrown
  | succ n ih =>
    rw [range_steps] at has
    rw [has]
    have hpos := level.pgsize_pos
    have hsum : a + level.pgsize + n * level.pgsize = a + (n + 1) * level.pgsize := by
      rw [Nat.succ_mul]
      omega
    have hpage : a % PGSIZE = 0 := by
      cases level with
      | COMMONPAGE => exact hal
      | SUPERPAGE =>
        have hal : a % 2097152 = 0 := hal
        rw [pgsize_eq]
        omega
    -- what is mapped ends here
    have hback : ∀ {k₁ : Phys} {cur₁ : PageTable}, cur₁.leafAt = cur.leafAt → Held k₁ cur₁ ext →
        ∃ k' pt', uvmdealloc k₁ cur₁ a startva = .ok (k', pt') ∧ Held k' pt' ext ∧ pt'.leafAt = pt.leafAt := by
      intro k₁ cur₁ hsame hheld₁
      have hfree' : FreePages pt p a := by
        intro b hlo hhi hb
        exact hfree b hlo (hq b (by omega) hb) hb
      exact (hgrown.congr hsame).cleanup hfree' hvalid hp hpage hheld₁ hstart hle
    unfold allocLoop
    have hmem := kzalloc_counted hheld.1 level.order
    cases hz : kzalloc k level.order with
    | error e => exact .error rfl
    | ok r =>
      obtain ⟨k₁, mem⟩ := r
      have hgrant := hmem.of_ok hz
      cases mem with
      | none =>
        obtain ⟨k', pt', hret, hheld', hleaf⟩ := hback rfl ⟨hgrant, hheld.2⟩
        simp only [bind, Except.bind, hret]
        exact .ok ⟨hheld', hleaf⟩
      | some mem =>
        have h₁ : Held k₁ cur (bump ext mem (place a level)) :=
          ⟨(hgrant.1 _ (place_order a level)).own_eq fun f u => (Nat.add_assoc _ _ _).symm, hheld.2⟩
        simp only [bind, Except.bind, mappages_one level hal]
        have hone := mapOne_hands h₁ (PTE_R ||| PTE_U ||| perm)
        have hleaves := mapOne_leafAt k₁ cur a mem (PTE_R ||| PTE_U ||| perm) level
        have hmax := mapOne_lt k₁ cur a mem (PTE_R ||| PTE_U ||| perm) level
        cases hm : mapOne k₁ cur a mem (PTE_R ||| PTE_U ||| perm) level with
        | error e => exact .error rfl
        | ok r =>
          obtain ⟨k₂, cur₂, ok⟩ := r
          obtain ⟨hvalid₂, hheld₂, hfailed⟩ := hone.of_ok hm
          have hleaf := (hleaves.of_ok hm).2
          cases ok with
          | false =>
            -- the new block goes back before the pages that came before it
            obtain ⟨k₃, hfreed, h₃, -⟩ := kfree_returns (hfailed rfl)
            obtain ⟨k', pt', hret, hheld', hleaf'⟩ := hback hleaf ⟨h₃, hvalid₂⟩
            simp only [if_true, hfreed, hret]
            exact .ok ⟨hheld', hleaf'⟩
          | true =>
            simp only [Bool.true_eq_false, if_false]
            have hgrown₂ := hgrown.next hfree hvalid (hmax.of_ok hm) hal
              (fun b hb => hq b (by rw [← hsum]; omega)) hleaf
            rw [← hsum]
            exact ih (next_pgsize hal) (fun b hb => hq b (by rw [← hsum]; exact hb)) hgrown₂ (hheld₂ rfl) rfl

/-! ## The whole of `uvmalloc` -/

/-- Where `SUPERPG_ROUNDUP` does not wrap around. -/
def RoundsUp (startva : Nat) : Prop := startva ≤ 2 ^ 64 - SUPERPGSIZE

instance decidableRoundsUp (startva : Nat) : Decidable (RoundsUp startva) := inferInstanceAs (Decidable (_ ≤ _))

theorem RoundsUp.page {startva : Nat} (h : RoundsUp startva) : PGROUNDUP startva = (startva + 4095) / 4096 * 4096 := by
  simp only [RoundsUp, superpgsize_eq] at h
  simp only [Vma.PGROUNDUP, roundUp, pgsize_eq]
  omega

theorem RoundsUp.super {startva : Nat} (h : RoundsUp startva) :
    SUPERPG_ROUNDUP startva = (startva + 2097151) / 2097152 * 2097152 := by
  simp only [RoundsUp, superpgsize_eq] at h
  simp only [Vma.SUPERPG_ROUNDUP, roundUp, superpgsize_eq]
  omega

/-- `uvmalloc` that gives up has put back every leaf. -/
theorem uvmalloc_fails {k : Phys} {pt : PageTable} {ext : Holders} {startva endva : Nat} (perm : Flags)
    (hheld : Held k pt ext) (hround : RoundsUp startva) (hle : startva ≤ endva)
    (hfree : ∀ a, startva ≤ a → a < endva → ¬Mapped pt a) :
    Ensures (uvmalloc k pt startva endva perm) (fun e => uvmallocWith noCleanup k pt startva endva perm = .error e)
      fun r => r.2.2 = 0 → Held r.1 r.2.1 ext ∧ r.2.1.leafAt = pt.leafAt := by
  have hup := hround.page
  have hsuper := hround.super
  obtain ⟨p, hp⟩ : ∃ p, p = PGROUNDUP startva := ⟨_, rfl⟩
  obtain ⟨s, hs⟩ : ∃ s, s = SUPERPG_ROUNDUP startva := ⟨_, rfl⟩
  obtain ⟨d, hd⟩ : ∃ d, d = SUPERPG_DOWN endva := ⟨_, rfl⟩
  have hdown : d = endva / 2097152 * 2097152 := by rw [hd, SUPERPG_DOWN, superpgsize_eq]
  obtain ⟨m, hm⟩ : ∃ m, m = if endva ≤ s then endva else s := ⟨_, rfl⟩
  rw [← hp] at hup
  rw [← hs] at hsuper
  have hpal : p % PGSIZE = 0 := by
    rw [pgsize_eq]
    omega
  have hstart : startva ≤ p := by omega
  have hpages : FreePages pt p endva := by
    intro b hlo hhi _ hmax hfound
    exact hfree b (hstart.trans hlo) hhi (mapped_iff.mpr ⟨hmax, hfound⟩)
  -- the turns of the three loops
  obtain ⟨n₁, hn₁⟩ : ∃ n, n = (m - p + (PGSIZE - 1)) / PGSIZE := ⟨_, rfl⟩
  have hn₁' := hn₁
  rw [pgsize_eq] at hn₁'
  have haddrs₁ : addrs p m PGSIZE = (List.range n₁).map fun i => p + Level.COMMONPAGE.pgsize * i := by rw [hn₁]; rfl
  have hq₁ : ∀ b, b < p + n₁ * Level.COMMONPAGE.pgsize → b % PGSIZE = 0 → b < endva := by
    intro b hb hal
    rw [pgsize_eq] at hal
    have hb : b < p + n₁ * 4096 := hb
    split at hm <;> omega
  have hloop₁ := allocLoop_fails perm hpages hheld.2 hpal hp.symm hstart n₁ hpal hq₁ (Grown.refl pt p) hheld haddrs₁
  unfold uvmalloc uvmallocWith
  rw [if_neg hle.not_gt, if_neg hle.not_gt]
  dsimp only
  rw [← hp, ← hs, ← hd, ← hm]
  refine .bind_beside hloop₁ ?_
  rintro ⟨k₁, pt₁, ok₁⟩ ⟨hheld₁, hres₁⟩
  cases ok₁ with
  | false =>
    show Ensures (Except.ok (k₁, pt₁, 0)) _ _
    exact .ok fun _ => ⟨hheld₁, hres₁⟩
  | true =>
    obtain ⟨hgrown₁, halone₁⟩ : Grown pt p (p + n₁ * Level.COMMONPAGE.pgsize) pt₁ ∧ _ := hres₁
    rw [halone₁, ok_bind, if_neg Bool.true_eq_false.mp, if_neg Bool.true_eq_false.mp]
    by_cases hsmall : endva ≤ s
    · rw [if_pos hsmall, if_pos hsmall]
      refine .ok fun hzero => ⟨hheld₁, ?_⟩
      -- an empty range at 0
      have hzero : endva = 0 := hzero
      have hn : n₁ = 0 := by
        rw [if_pos hsmall] at hm
        omega
      have hend : p + n₁ * Level.COMMONPAGE.pgsize = 0 := by
        rw [hn, Nat.zero_mul]
        omega
      funext u
      exact hgrown₁.kept u (.inr (by rw [hend]; exact Nat.zero_le _))
    · rw [if_neg hsmall, if_neg hsmall]
      rw [if_neg hsmall] at hm
      have hend₁ : p + n₁ * Level.COMMONPAGE.pgsize = s := by
        show p + n₁ * 4096 = s
        omega
      rw [hend₁] at hgrown₁
      obtain ⟨n₂, hn₂⟩ : ∃ n, n = (d - s + (SUPERPGSIZE - 1)) / SUPERPGSIZE := ⟨_, rfl⟩
      have hn₂' := hn₂
      rw [superpgsize_eq] at hn₂'
      have haddrs₂ : addrs s d SUPERPGSIZE = (List.range n₂).map fun i => s + Level.SUPERPAGE.pgsize * i := by
        rw [hn₂]
        rfl
      have hend₂ : s + n₂ * Level.SUPERPAGE.pgsize = d := by
        show s + n₂ * 2097152 = d
        omega
      have hal₂ : s % Level.SUPERPAGE.pgsize = 0 := by
        show s % 2097152 = 0
        omega
      have hq₂ : ∀ b, b < s + n₂ * Level.SUPERPAGE.pgsize → b % PGSIZE = 0 → b < endva := by
        intro b hb _
        rw [hend₂] at hb
        omega
      have hloop₂ := allocLoop_fails perm hpages hheld.2 hpal hp.symm hstart n₂ hal₂ hq₂ hgrown₁ hheld₁ haddrs₂
      rw [hend₂] at hloop₂
      refine .bind_beside hloop₂ ?_
      rintro ⟨k₂, pt₂, ok₂⟩ ⟨hheld₂, hres₂⟩
      cases ok₂ with
      | false =>
        show Ensures (Except.ok (k₂, pt₂, 0)) _ _
        exact .ok fun _ => ⟨hheld₂, hres₂⟩
      | true =>
        obtain ⟨hgrown₂, halone₂⟩ : Grown pt p d pt₂ ∧ _ := hres₂
        rw [halone₂, ok_bind, if_neg Bool.true_eq_false.mp, if_neg Bool.true_eq_false.mp]
        obtain ⟨n₃, hn₃⟩ : ∃ n, n = (endva - d + (PGSIZE - 1)) / PGSIZE := ⟨_, rfl⟩
        have hn₃' := hn₃
        rw [pgsize_eq] at hn₃'
        have haddrs₃ : addrs d endva PGSIZE = (List.range n₃).map fun i => d + Level.COMMONPAGE.pgsize * i := by
          rw [hn₃]
          rfl
        have hal₃ : d % Level.COMMONPAGE.pgsize = 0 := by
          show d % 4096 = 0
          omega
        have hq₃ : ∀ b, b < d + n₃ * Level.COMMONPAGE.pgsize → b % PGSIZE = 0 → b < endva := by
          intro b hb hal
          rw [pgsize_eq] at hal
          have hb : b < d + n₃ * 4096 := hb
          omega
        have hloop₃ := allocLoop_fails perm hpages hheld.2 hpal hp.symm hstart n₃ hal₃ hq₃ hgrown₂ hheld₂ haddrs₃
        refine .bind_beside hloop₃ ?_
        rintro ⟨k₃, pt₃, ok₃⟩ ⟨hheld₃, hres₃⟩
        cases ok₃ with
        | false =>
          show Ensures (Except.ok (k₃, pt₃, 0)) _ _
          exact .ok fun _ => ⟨hheld₃, hres₃⟩
        | true =>
          show Ensures (Except.ok (k₃, pt₃, endva)) _ _
          refine .ok fun hzero => ?_
          have hzero : endva = 0 := hzero
          omega

theorem eq_of_inBlock {page frame : Nat} (h : inBlock page 0 frame = true) : frame = page := by
  simp only [inBlock, Bool.and_eq_true, decide_eq_true_eq] at h
  omega

/-- A block that was in use before, or an entry still refers to it. -/
theorem busy_of_held {k k' : Phys} {pt pt' : PageTable} {ext : Holders} (h : Held k pt ext) (h' : Held k' pt' ext)
    (hleaf : pt'.leafAt = pt.leafAt) {frame : Nat} (hbusy : k'.busy frame = true) :
    k.busy frame = true ∨ pt'.HasPage frame := by
  obtain ⟨⟨use, hc⟩, -⟩ := h
  obtain ⟨⟨use', hc'⟩, -⟩ := h'
  obtain ⟨f, hpos, hin⟩ := hc'.covered frame hbusy
  have hown := hc'.refcnt f (use' f)
  rw [if_pos rfl] at hown
  have horder := hc'.order f hpos
  -- the same use of the block in the state before
  have hbefore : 0 < pt.refs f (use' f) + ext f (use' f) → k.busy frame = true := by
    intro hpos₀
    obtain ⟨huse, hcount⟩ := hc.use_eq hpos₀
    have hk : 0 < k.refcnt f := by omega
    apply hc.busy f frame hk
    rw [hc.order f hk, ← huse, ← horder]
    exact hin
  rcases Nat.eq_zero_or_pos (pt'.refs f (use' f)) with hzero | hrefs
  · exact .inl (hbefore (by omega))
  cases huse : use' f with
  | kernel order =>
    rw [huse] at hrefs
    exact absurd hrefs (Nat.lt_irrefl 0)
  | root r =>
    rw [huse] at hrefs horder
    right
    left
    refine ⟨r, ?_⟩
    have hroot : pt'.roots r = some f := by
      by_contra hne
      simp [PageTable.refs, Use.region?, hne] at hrefs
    rw [horder] at hin
    have hone : frame = f := eq_of_inBlock hin
    rw [hone]
    exact hroot
  | table r =>
    rw [huse] at hrefs horder
    right
    right
    rw [horder] at hin
    have hone : frame = f := eq_of_inBlock hin
    cases hd : pt'.dir r with
    | none => simp [PageTable.refs, Use.region?, hd, Entry.refs] at hrefs
    | leaf pte => simp [PageTable.refs, Use.region?, hd, Entry.refs] at hrefs
    | table page ptes =>
      have hpage : page = f := by
        by_contra hne
        simp [PageTable.refs, Use.region?, hd, Entry.refs, hne] at hrefs
      exact ⟨r, ptes, by rw [hd, hpage, hone]⟩
  | common | super =>
    left
    apply hbefore
    have hrefs' := refs_eq_leafAt pt' f (u := use' f) (by rw [huse]; rfl)
    rw [hleaf, ← refs_eq_leafAt pt f (by rw [huse]; rfl)] at hrefs'
    omega

theorem noTrace_of_leafAt {k k' : Phys} {pt pt' : PageTable} {ext : Holders} {startva endva : Nat}
    (h : Held k pt ext) (h' : Held k' pt' ext) (hleaf : pt'.leafAt = pt.leafAt)
    (hfree : ∀ a, startva ≤ a → a < endva → ¬Mapped pt a) : NoTrace pt startva endva ext k k' pt' where
  unmapped a hlo hhi hm := hfree a hlo hhi (hm.of_leafAt fun level hv => by rw [← hleaf]; exact hv)
  kept _ _ level := by rw [hleaf]
  freed _ hbusy := busy_of_held h h' hleaf hbusy
  held := h'

/-! ## Where `SUPERPG_ROUNDUP` wraps around -/

section

variable {k : Phys} {pt : PageTable} {ext : Holders} {startva endva : Nat} {perm : Flags}

theorem walkRoot_dir (k : Phys) (pt : PageTable) (va : Nat) :
    Ensures (walkRoot k pt va) Anyhow fun r => r.2.1.dir = pt.dir := by
  unfold walkRoot
  cases pt.roots (rootOf va) with
  | some page => exact .ok rfl
  | none =>
    refine .bind (kzalloc_grows k 0) ?_
    rintro ⟨k', page⟩ -
    cases page with
    | none => exact .ok rfl
    | some page => exact .ok rfl

theorem walkTable_super (k : Phys) (pt : PageTable) (va : Nat) : walkTable k pt va .SUPERPAGE = .ok (k, pt, true) := rfl

theorem mapEntry_super (pt : PageTable) (va pfn : Nat) (perm : Flags) :
    Ensures (mapEntry pt va pfn perm .SUPERPAGE) Anyhow fun _ => pt.dir (region va) = .none := by
  unfold mapEntry
  cases pt.dir (region va) with
  | none => exact .ok rfl
  | table page ptes => exact .error trivial
  | leaf pte => exact .error trivial

theorem mapOne_super (k : Phys) (pt : PageTable) (va pfn : Nat) (perm : Flags) :
    Ensures (mapOne k pt va pfn perm .SUPERPAGE) Anyhow fun r => r.2.2 = true → pt.dir (region va) = .none := by
  unfold mapOne
  split
  · exact .error trivial
  refine .bind (walkRoot_dir k pt va) ?_
  rintro ⟨k₁, pt₁, ok₁⟩ hdir
  cases ok₁ with
  | false => exact .ok nofun
  | true =>
    simp only [Bool.true_eq_false, if_false, walkTable_super, ok_bind]
    refine .bind (mapEntry_super pt₁ va pfn perm) fun pt₂ hnone => ?_
    rw [← show pt₁.dir = pt.dir from hdir]
    exact .ok fun _ => hnone

theorem uvmdealloc_larger (k : Phys) (pt : PageTable) {oldsz newsz : Nat} (h : oldsz ≤ newsz) :
    uvmdealloc k pt oldsz newsz = .ok (k, pt) := by
  unfold uvmdealloc uvmdeallocWith
  rw [if_pos h]

/-- A loop that cannot put its first 2M leaf. -/
theorem allocLoop_blocked {as : List Nat} (hheld : Held k pt ext) (hdir : pt.dir (region 0) ≠ .none) :
    Ensures (allocLoop uvmdealloc startva perm .SUPERPAGE (0 :: as) k pt)
      (fun e => allocLoop noCleanup startva perm .SUPERPAGE (0 :: as) k pt = .error e)
      fun r => r.2.2 = false ∧ Held r.1 r.2.1 ext ∧ r.2.1.leafAt = pt.leafAt := by
  unfold allocLoop
  have hmem := kzalloc_counted hheld.1 Level.SUPERPAGE.order
  cases hz : kzalloc k Level.SUPERPAGE.order with
  | error e => exact .error rfl
  | ok r =>
    obtain ⟨k₁, mem⟩ := r
    have hgrant := hmem.of_ok hz
    cases mem with
    | none =>
      simp only [bind, Except.bind, uvmdealloc_larger k₁ pt (Nat.zero_le startva)]
      exact .ok ⟨rfl, ⟨hgrant, hheld.2⟩, rfl⟩
    | some mem =>
      have h₁ : Held k₁ pt (bump ext mem (place 0 .SUPERPAGE)) :=
        ⟨(hgrant.1 _ (place_order 0 .SUPERPAGE)).own_eq fun f u => (Nat.add_assoc _ _ _).symm, hheld.2⟩
      simp only [bind, Except.bind, mappages_one .SUPERPAGE (Nat.zero_mod _)]
      have hone := mapOne_hands h₁ (PTE_R ||| PTE_U ||| perm)
      have hleaves := mapOne_leafAt k₁ pt 0 mem (PTE_R ||| PTE_U ||| perm) .SUPERPAGE
      have hnone := mapOne_super k₁ pt 0 mem (PTE_R ||| PTE_U ||| perm)
      cases hm : mapOne k₁ pt 0 mem (PTE_R ||| PTE_U ||| perm) .SUPERPAGE with
      | error e => exact .error rfl
      | ok r =>
        obtain ⟨k₂, pt₂, ok⟩ := r
        obtain ⟨hvalid₂, -, hfailed⟩ := hone.of_ok hm
        have hleaf := (hleaves.of_ok hm).2
        cases ok with
        | true => exact absurd (hnone.of_ok hm rfl) hdir
        | false =>
          obtain ⟨k₃, hfreed, h₃, -⟩ := kfree_returns (hfailed rfl)
          simp only [if_true, hfreed, uvmdealloc_larger k₃ pt₂ (Nat.zero_le startva)]
          exact .ok ⟨rfl, ⟨h₃, hvalid₂⟩, hleaf⟩

/-- The 2M pages are mapped from 0 on. -/
theorem addrs_wrapped (hround : ¬RoundsUp startva) (hle : startva ≤ endva) (hend : endva < 2 ^ 64) :
    addrs (PGROUNDUP startva) (if endva ≤ SUPERPG_ROUNDUP startva then endva else SUPERPG_ROUNDUP startva) PGSIZE = [] ∧
    ¬endva ≤ SUPERPG_ROUNDUP startva ∧ SUPERPG_ROUNDUP startva = 0 ∧
    ∃ as, addrs 0 (SUPERPG_DOWN endva) SUPERPGSIZE = 0 :: 2097152 :: as := by
  have hsuper : SUPERPG_ROUNDUP startva = 0 := by
    simp only [RoundsUp, superpgsize_eq] at hround
    simp only [Vma.SUPERPG_ROUNDUP, roundUp, superpgsize_eq]
    omega
  have hpos : ¬endva ≤ 0 := by
    simp only [RoundsUp, superpgsize_eq] at hround
    omega
  rw [hsuper, if_neg hpos]
  have hempty := @addrs_head (PGROUNDUP startva) 0 PGSIZE (by decide)
  refine ⟨?_, hpos, rfl, ?_⟩
  · rcases hempty with ⟨hlt, -⟩ | ⟨-, hnil⟩
    · cases hlt
    · exact hnil
  obtain ⟨n, hn⟩ : ∃ n, (SUPERPG_DOWN endva - 0 + (SUPERPGSIZE - 1)) / SUPERPGSIZE = n + 1 + 1 := by
    refine ⟨(SUPERPG_DOWN endva - 0 + (SUPERPGSIZE - 1)) / SUPERPGSIZE - 2, ?_⟩
    simp only [RoundsUp, superpgsize_eq] at hround
    simp only [SUPERPG_DOWN, superpgsize_eq]
    omega
  rw [addrs, hn, range_steps, range_steps]
  exact ⟨_, rfl⟩

theorem uvmallocWith_wraps (dealloc : Dealloc) (hround : ¬RoundsUp startva) (hle : startva ≤ endva)
    (hend : endva < 2 ^ 64) :
    uvmallocWith dealloc k pt startva endva perm = (do
      let r ← allocLoop dealloc startva perm .SUPERPAGE (addrs 0 (SUPERPG_DOWN endva) SUPERPGSIZE) k pt
      if r.2.2 = false then return (r.1, r.2.1, 0)
      let r ← allocLoop dealloc startva perm .COMMONPAGE (addrs (SUPERPG_DOWN endva) endva PGSIZE) r.1 r.2.1
      if r.2.2 = false then return (r.1, r.2.1, 0)
      return (r.1, r.2.1, endva)) := by
  obtain ⟨hempty, hpos, hsuper, -⟩ := @addrs_wrapped startva endva hround hle hend
  unfold uvmallocWith
  rw [if_neg hle.not_gt]
  dsimp only
  rw [hempty, allocLoop_nil, ok_bind, if_neg Bool.true_eq_false.mp, if_neg hpos, hsuper]

theorem uvmalloc_blocked (hheld : Held k pt ext) (hround : ¬RoundsUp startva) (hle : startva ≤ endva)
    (hend : endva < 2 ^ 64) (hdir : pt.dir (region 0) ≠ .none) :
    Ensures (uvmalloc k pt startva endva perm) (fun e => uvmallocWith noCleanup k pt startva endva perm = .error e)
      fun r => Held r.1 r.2.1 ext ∧ r.2.1.leafAt = pt.leafAt := by
  obtain ⟨-, -, -, as, has⟩ := @addrs_wrapped startva endva hround hle hend
  unfold uvmalloc
  rw [uvmallocWith_wraps uvmdealloc hround hle hend, uvmallocWith_wraps noCleanup hround hle hend, has]
  refine .bind_beside (allocLoop_blocked hheld hdir) ?_
  rintro ⟨k₁, pt₁, ok₁⟩ ⟨hok, hheld₁, hleaf⟩
  cases ok₁ with
  | true => cases hok
  | false =>
    show Ensures (Except.ok (k₁, pt₁, 0)) _ _
    exact .ok ⟨hheld₁, hleaf⟩

/-- What `kzalloc` does when it finds a free block. -/
theorem kzalloc_free {page order : Nat} {pool : List (Option Nat)} (hpool : k.pool = some page :: pool)
    (hfree : ∀ frame, inBlock page order frame = true → k.busy frame = false) (hcount : k.refcnt page = 0) :
    ∃ k', kzalloc k order = .ok (k', some page) ∧ k'.pool = pool ∧
      (∀ frame, inBlock page order frame = false → k'.busy frame = k.busy frame) ∧
      ∀ f, f ≠ page → k'.refcnt f = k.refcnt f := by
  have hany : ¬((List.range (2 ^ order)).any fun i => k.busy (page + i)) = true := by
    simp only [List.any_eq_true, List.mem_range, not_exists, not_and, Bool.not_eq_true]
    intro i hi
    exact hfree _ ((inBlock_iff _ _ _).mpr ⟨i, hi, rfl⟩)
  unfold kzalloc kmalloc
  rw [hpool]
  dsimp only
  rw [if_neg hany, if_neg (not_not.mpr hcount), ok_bind]
  refine ⟨_, rfl, rfl, fun frame hout => ?_, fun f hne => ?_⟩
  · show (inBlock page order frame || k.busy frame) = k.busy frame
    rw [hout, Bool.false_or]
  · exact update_of_ne hne _ _

theorem kzalloc_none {order : Nat} {pool : List (Option Nat)} (hpool : k.pool = none :: pool) :
    kzalloc k order = .ok ({ k with pool := pool }, none) := by
  unfold kzalloc kmalloc
  rw [hpool]
  rfl

/-- A 2M leaf at 0, when a page is left for the table. -/
theorem mapOne_first {m f : Nat} {pool : List (Option Nat)} (hdir : pt.dir (region 0) = .none)
    (hpool : k.pool = if (pt.roots (rootOf 0)).isSome then pool else some f :: pool)
    (hbusy : k.busy f = false) (hcount : k.refcnt f = 0) :
    ∃ k' pt', mapOne k pt 0 m (PTE_R ||| PTE_U ||| perm) .SUPERPAGE = .ok (k', pt', true) ∧ k'.pool = pool := by
  have hmax : ¬(0 ≥ MAXVA) := by decide
  unfold mapOne
  rw [if_neg hmax]
  have hroot : ∃ k' pt', walkRoot k pt 0 = .ok (k', pt', true) ∧ k'.pool = pool ∧ pt'.dir = pt.dir := by
    unfold walkRoot
    cases hr : pt.roots (rootOf 0) with
    | some page =>
      rw [hr] at hpool
      exact ⟨_, _, rfl, hpool, rfl⟩
    | none =>
      rw [hr] at hpool
      have hfree : ∀ frame, inBlock f 0 frame = true → k.busy frame = false := by
        intro frame hin
        rw [eq_of_inBlock hin]
        exact hbusy
      obtain ⟨k', hret, hpool', -, -⟩ := kzalloc_free hpool hfree hcount
      dsimp only
      rw [hret, ok_bind]
      exact ⟨_, _, rfl, hpool', rfl⟩
  obtain ⟨k', pt', hret, hpool', hdir'⟩ := hroot
  rw [hret, ok_bind]
  dsimp only
  rw [if_neg Bool.true_eq_false.mp, walkTable_super, ok_bind]
  dsimp only
  rw [if_neg Bool.true_eq_false.mp]
  unfold mapEntry
  dsimp only
  rw [hdir', hdir]
  exact ⟨_, _, rfl, hpool'⟩

/-- A 2M page at 0 is left behind when the next one cannot be had. -/
theorem uvmalloc_leaves_page {m f : Nat} (hheld : Held k pt ext) (hround : ¬RoundsUp startva) (hle : startva ≤ endva)
    (hend : endva < 2 ^ 64) (hdir : pt.dir (region 0) = .none)
    (hm : ∀ frame, inBlock m 9 frame = true → k.busy frame = false) (hf : k.busy f = false)
    (hmf : inBlock m 9 f = false) :
    ∃ k' pt', uvmalloc { k with pool := some m :: (if (pt.roots (rootOf 0)).isSome then [none] else [some f, none]) } pt
        startva endva perm = .ok (k', pt', 0) ∧
      (pt'.leafAt (place 0 .SUPERPAGE)).flags.has PTE_V = true := by
  obtain ⟨-, -, -, as, has⟩ := @addrs_wrapped startva endva hround hle hend
  obtain ⟨⟨use, hcount⟩, -⟩ := hheld
  have hmzero : k.refcnt m = 0 := hcount.refcnt_of_free (hm m (inBlock_self m 9))
  have hfzero : k.refcnt f = 0 := hcount.refcnt_of_free hf
  have hne : f ≠ m := by
    rintro rfl
    rw [inBlock_self] at hmf
    cases hmf
  obtain ⟨pool, hp⟩ : ∃ pool, pool = if (pt.roots (rootOf 0)).isSome then [none] else [some f, none] := ⟨_, rfl⟩
  rw [← hp]
  obtain ⟨k₁, hk₁, hpool₁, hbusy₁, hcount₁⟩ := @kzalloc_free { k with pool := some m :: pool } m 9 pool rfl hm hmzero
  obtain ⟨k₂, pt₂, hk₂, hpool₂⟩ := @mapOne_first k₁ pt perm m f [none] hdir (hpool₁.trans hp)
    ((hbusy₁ f hmf).trans hf) ((hcount₁ f hne).trans hfzero)
  have hleaf := ((mapOne_leafAt k₁ pt 0 m (PTE_R ||| PTE_U ||| perm) .SUPERPAGE).of_ok hk₂).2
  have hstart : 2097152 ≤ startva := by
    simp only [RoundsUp, superpgsize_eq] at hround
    omega
  refine ⟨{ k₂ with pool := [] }, pt₂, ?_, ?_⟩
  · unfold uvmalloc
    rw [uvmallocWith_wraps uvmdealloc hround hle hend, has]
    have hloop : allocLoop uvmdealloc startva perm .SUPERPAGE (0 :: 2097152 :: as) { k with pool := some m :: pool } pt
        = .ok ({ k₂ with pool := [] }, pt₂, false) := by
      rw [allocLoop, show Level.SUPERPAGE.order = 9 from rfl, hk₁, ok_bind]
      dsimp only
      rw [mappages_one .SUPERPAGE (Nat.zero_mod _), hk₂, ok_bind]
      dsimp only
      rw [if_neg Bool.true_eq_false.mp]
      rw [allocLoop, kzalloc_none hpool₂, ok_bind]
      dsimp only
      rw [uvmdealloc_larger _ pt₂ hstart]
      rfl
    rw [hloop]
    rfl
  · rw [hleaf]
    show (update pt.leafAt (place 0 .SUPERPAGE) _ (place 0 .SUPERPAGE)).flags.has PTE_V = true
    rw [update_self]
    exact allocFlags_valid perm

theorem not_failsCleanly {k' : Phys} {pt' : PageTable} (hround : ¬RoundsUp startva) (hdir : pt.dir (region 0) = .none)
    (hret : uvmalloc k pt startva endva perm = .ok (k', pt', 0))
    (hv : (pt'.leafAt (place 0 .SUPERPAGE)).flags.has PTE_V = true) : ¬FailsCleanly k pt ext startva endva perm := by
  rintro ⟨hreturns, -⟩
  have hout : ¬(startva ≤ 0 ∧ 0 < endva) := by
    rintro ⟨hzero, -⟩
    apply hround
    simp only [RoundsUp, superpgsize_eq]
    omega
  have hsame := (hreturns k' pt' hret).kept 0 hout .SUPERPAGE
  have hzero : pt.leafAt (place 0 .SUPERPAGE) = Pte.zero := by simp only [place, PageTable.leafAt, hdir]
  rw [hsame, hzero] at hv
  cases hv

end

/-- The allocator has a 2M block left, and one more page. -/
def Spare (k : Phys) : Prop :=
  ∃ m f, (∀ frame, inBlock m 9 frame = true → k.busy frame = false) ∧ k.busy f = false ∧ inBlock m 9 f = false

theorem uvmalloc_failure_leaves_no_trace {k : Phys} {pt : PageTable} {ext : Holders} {startva endva : Nat} (perm : Flags)
    (hheld : Held k pt ext) (hle : startva ≤ endva) (hend : endva < 2 ^ 64)
    (hfree : ∀ a, startva ≤ a → a < endva → ¬Mapped pt a) :
    (RoundsUp startva ∨ pt.dir (region 0) ≠ .none →
      ∀ pool, FailsCleanly { k with pool := pool } pt ext startva endva perm) ∧
    (Spare k → (∀ pool, FailsCleanly { k with pool := pool } pt ext startva endva perm) →
      RoundsUp startva ∨ pt.dir (region 0) ≠ .none) := by
  constructor
  · intro hcond pool
    have hheld' : Held { k with pool := pool } pt ext := ⟨hheld.1.congr rfl rfl rfl, hheld.2⟩
    by_cases hround : RoundsUp startva
    · have hret := uvmalloc_fails perm hheld' hround hle hfree
      refine ⟨fun k' pt' hok => ?_, fun e herr => hret.of_error herr⟩
      obtain ⟨hheld₁, hleaf⟩ := hret.of_ok hok rfl
      exact noTrace_of_leafAt hheld' hheld₁ hleaf hfree
    have hret := @uvmalloc_blocked _ pt ext startva endva perm hheld' hround hle hend (hcond.resolve_left hround)
    refine ⟨fun k' pt' hok => ?_, fun e herr => hret.of_error herr⟩
    obtain ⟨hheld₁, hleaf⟩ := hret.of_ok hok
    exact noTrace_of_leafAt hheld' hheld₁ hleaf hfree
  · rintro ⟨m, f, hm, hf, hmf⟩ hall
    by_contra hcond
    rw [not_or, not_not] at hcond
    rcases hcond with ⟨hround, hdir⟩
    obtain ⟨k', pt', hret, hv⟩ := @uvmalloc_leaves_page k pt ext startva endva perm m f hheld hround hle hend hdir
      hm hf hmf
    exact not_failsCleanly hround hdir hret hv (hall _)

theorem not_mapped_uvmcreate (a : Nat) : ¬Mapped uvmcreate a := by
  rw [mapped_iff]
  rintro ⟨-, level, hv⟩
  rw [leafAt_uvmcreate] at hv
  cases hv

/-- The 4K page is there, and no page for the table. -/
theorem uvmalloc_failure_leaves_no_trace_table : ∃ k' pt',
    uvmalloc (System.booted [some 1, none]).phys uvmcreate 0x1000 0x2000 PTE_W = .ok (k', pt', 0) ∧
    NoTrace uvmcreate 0x1000 0x2000 ((System.booted []).rest 0) (System.booted [some 1, none]).phys k' pt' := by
  have hboot : (System.booted []).Boot := ⟨fun _ => rfl, fun _ => rfl, fun _ => rfl, fun _ => rfl⟩
  obtain ⟨k', pt', hret⟩ : ∃ k' pt', uvmalloc (System.booted [some 1, none]).phys uvmcreate 0x1000 0x2000 PTE_W
    = .ok (k', pt', 0) := ⟨_, _, rfl⟩
  have hclean := (uvmalloc_failure_leaves_no_trace PTE_W (hboot.inv.held 0) (by decide : 0x1000 ≤ 0x2000) (by decide)
    fun a _ _ => not_mapped_uvmcreate a).1 (.inl (by decide)) [some 1, none]
  exact ⟨k', pt', hret, hclean.1 k' pt' hret⟩

/-- The last page of the address space is asked for. -/
theorem wrapped_page_is_left : ¬∀ (k : Phys) (pt : PageTable) (ext : Holders) (startva endva : Nat) (perm : Flags),
    Held k pt ext → startva ≤ endva → endva < 2 ^ 64 → (∀ a, startva ≤ a → a < endva → ¬Mapped pt a) →
      FailsCleanly k pt ext startva endva perm := by
  intro hall
  have hboot : (System.booted [some 512, some 1, none]).Boot := ⟨fun _ => rfl, fun _ => rfl, fun _ => rfl, fun _ => rfl⟩
  have hheld := hboot.inv.held 0
  have hround : ¬RoundsUp 0xfffffffffffff000 := by decide
  obtain ⟨k', pt', hret, hv⟩ := @uvmalloc_leaves_page _ _ _ _ 0xffffffffffffffff PTE_W 512 1 hheld hround
    (by decide) (by decide) rfl (fun _ _ => rfl) rfl (by decide)
  exact not_failsCleanly (by decide) rfl hret hv
    (hall _ _ _ _ _ PTE_W hheld (by decide) (by decide) fun a _ _ => not_mapped_uvmcreate a)

end LostWakeup.Mm.Vm
