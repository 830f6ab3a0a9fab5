/-
# LostWakeup.Mm.SharedFork — a shared mapping after `fork`.

What `uvmcopy` does is described address by address.  A page of a shared file mapping that is present goes into the
child's table as it is, and from then on a store of either process is what both load.  A page that is not present, or
of an area that is not of a file, ends up with a frame of its own in each process.
-/
import LostWakeup.Mm.ForkIsolation

namespace LostWakeup.Mm.Vm

open Library
open Function (update update_of_ne update_self)
open Mm.Vma (PGSIZE SUPERPGSIZE PGROUNDDOWN PERM_SHARED vma mm_struct)

/-! ## Places and addresses -/

theorem place_inj {a b : Nat} (ha : a < MAXVA) (hb : b < MAXVA) {level level' : Level}
    (h : place a level = place b level') : level = level' ∧ a / level.pgsize = b / level.pgsize := by
  simp only [MAXVA] at ha hb
  cases level <;> cases level' <;> simp only [place, Use.common.injEq, Use.super.injEq, reduceCtorEq] at h
  · obtain ⟨hregion, hslot⟩ := h
    have hr : a / 2097152 % 131072 = b / 2097152 % 131072 := Fin.val_eq_of_eq hregion
    have hs : a / 4096 % 512 = b / 4096 % 512 := Fin.val_eq_of_eq hslot
    refine ⟨rfl, ?_⟩
    show a / 4096 = b / 4096
    omega
  · have hr : a / 2097152 % 131072 = b / 2097152 % 131072 := Fin.val_eq_of_eq h
    refine ⟨rfl, ?_⟩
    show a / 2097152 = b / 2097152
    omega

theorem place_of_mem {i va : Nat} {level : Level} (hi : i % level.pgsize = 0) (hle : i ≤ va)
    (hlt : va < i + level.pgsize) (level' : Level) (hlevel : level = .SUPERPAGE → level' = .SUPERPAGE) :
    place va level' = place i level' := by
  cases level with
  | COMMONPAGE =>
    have hdown : PGROUNDDOWN va = i := by
      change i % 4096 = 0 at hi
      change va < i + 4096 at hlt
      show va / 4096 * 4096 = i
      omega
    rw [← hdown, place_down]
  | SUPERPAGE =>
    rw [hlevel rfl]
    have hdiv : va / SUPERPGSIZE = i / SUPERPGSIZE := by
      change i % SUPERPGSIZE = 0 at hi
      change va < i + SUPERPGSIZE at hlt
      rw [superpgsize_eq] at hi hlt ⊢
      omega
    simp only [place, region, hdiv]

/-! ## `uvmcopy` at an address -/

/-- A page is mapped at the address. -/
def FoundAt (pt : PageTable) (va : Nat) : Prop := ∃ level, (pt.leafAt (place va level)).flags.has PTE_V = true

/-- There is an entry at the address. -/
def EntryAt (pt : PageTable) (va : Nat) : Prop := ∃ level, pt.leafAt (place va level) ≠ Pte.zero

/-- The entries at the address are the same. -/
def SameAt (va : Nat) (pt pt' : PageTable) : Prop := ∀ level, pt'.leafAt (place va level) = pt.leafAt (place va level)

theorem SameAt.refl (va : Nat) (pt : PageTable) : SameAt va pt pt := fun _ => rfl

theorem SameAt.trans {va : Nat} {pt pt' pt'' : PageTable} (h : SameAt va pt pt') (h' : SameAt va pt' pt'') :
    SameAt va pt pt'' :=
  fun level => (h' level).trans (h level)

theorem SameAt.entry {va : Nat} {pt pt' : PageTable} (h : SameAt va pt pt') : EntryAt pt' va ↔ EntryAt pt va := by
  simp only [EntryAt, h _]

theorem SameAt.found {va : Nat} {pt pt' : PageTable} (h : SameAt va pt pt') : FoundAt pt' va ↔ FoundAt pt va := by
  simp only [FoundAt, h _]

/-- What a user needs of an entry to store there and load it back. -/
def accessBits : List Flags := [PTE_U, PTE_R, PTE_W]

/-- Where both processes have the same frame at the address, neither lets its user both store and load. -/
def ApartAt (pt q : PageTable) (va : Nat) : Prop :=
  ∀ level, (pt.leafAt (place va level)).flags.has PTE_V = true → (q.leafAt (place va level)).flags.has PTE_V = true →
    (pt.leafAt (place va level)).pfn = (q.leafAt (place va level)).pfn →
      ∃ bit ∈ accessBits, (pt.leafAt (place va level)).flags.has bit = false ∧
        (q.leafAt (place va level)).flags.has bit = false

/-- The entry of the parent goes to the child as it is. -/
def GivenAt (src src' dst' : PageTable) (va : Nat) : Prop :=
  SameAt va src src' ∧ ∀ level, src.leafAt (place va level) ≠ Pte.zero →
    dst'.leafAt (place va level) =
      ⟨(src.leafAt (place va level)).pfn, (src.leafAt (place va level)).flags ||| PTE_V⟩

/-- An area is copied and takes the address. -/
structure Taken (v : vma) (va : Nat) (src dst src' dst' : PageTable) : Prop where
  free : ¬ FoundAt dst va
  found : FoundAt dst' va
  entry : EntryAt src' va ↔ EntryAt src va
  given : keepsShared v = true → GivenAt src src' dst' va
  apart : keepsShared v = false → ApartAt src' dst' va

/-- An area is copied and does not touch the address. -/
def Passed (va : Nat) (src dst src' dst' : PageTable) : Prop := SameAt va src src' ∧ SameAt va dst dst'

section Taken

variable {v : vma} {va : Nat} {src dst src₁ dst₁ src₂ dst₂ : PageTable}

theorem Taken.passed (h : Taken v va src dst src₁ dst₁) (h' : Passed va src₁ dst₁ src₂ dst₂) :
    Taken v va src dst src₂ dst₂ := by
  obtain ⟨hsrc, hdst⟩ := h'
  refine ⟨h.free, hdst.found.mpr h.found, hsrc.entry.trans h.entry, fun hkeep => ?_, fun hkeep level => ?_⟩
  · obtain ⟨hsame, hgiven⟩ := h.given hkeep
    refine ⟨hsame.trans hsrc, fun level hne => ?_⟩
    rw [hdst level, hgiven level hne]
  · rw [hsrc level, hdst level]
    exact h.apart hkeep level

theorem Passed.taken (h : Passed va src dst src₁ dst₁) (h' : Taken v va src₁ dst₁ src₂ dst₂) :
    Taken v va src dst src₂ dst₂ := by
  obtain ⟨hsrc, hdst⟩ := h
  refine ⟨fun hf => h'.free (hdst.found.mpr hf), h'.found, h'.entry.trans hsrc.entry, fun hkeep => ?_, h'.apart⟩
  obtain ⟨hsame, hgiven⟩ := h'.given hkeep
  refine ⟨hsrc.trans hsame, fun level hne => ?_⟩
  rw [← hsrc level] at hne ⊢
  exact hgiven level hne

theorem Passed.trans (h : Passed va src dst src₁ dst₁) (h' : Passed va src₁ dst₁ src₂ dst₂) :
    Passed va src dst src₂ dst₂ :=
  ⟨h.1.trans h'.1, h.2.trans h'.2⟩

theorem Passed.refl (va : Nat) (src dst : PageTable) : Passed va src dst src dst := ⟨.refl va src, .refl va dst⟩

end Taken

theorem mapEntry_free (pt : PageTable) (i pfn : Nat) (perm : Flags) (level : Level) :
    Ensures (mapEntry pt i pfn perm level) Anyhow fun _ =>
      ∀ va, place va level = place i level → ¬ FoundAt pt va := by
  unfold mapEntry
  simp only
  split
  · next hd =>
    refine .ok fun va hva => ?_
    have hregion : region va = region i := Use.super.inj hva
    rintro ⟨level', hv⟩
    cases level' <;> simp only [place, PageTable.leafAt, hregion, hd] at hv <;> cases hv
  · next page ptes hd =>
    split
    · exact .error trivial
    · next hfree =>
      refine .ok fun va hva => ?_
      obtain ⟨hregion, hslot⟩ := Use.common.inj hva
      rintro ⟨level', hv⟩
      cases level' <;> simp only [place, PageTable.leafAt, hregion, hslot, hd] at hv
      · exact hfree hv
      · cases hv
  · exact .error trivial

theorem foundAt_congr {pt pt' : PageTable} (h : pt'.leafAt = pt.leafAt) (va : Nat) : FoundAt pt' va ↔ FoundAt pt va := by
  simp only [FoundAt, h]

theorem mapOne_free (k : Phys) (pt : PageTable) (i pfn : Nat) (perm : Flags) (level : Level) :
    Ensures (mapOne k pt i pfn perm level) Anyhow fun r => r.2.2 = true →
      ∀ va, place va level = place i level → ¬ FoundAt pt va := by
  unfold mapOne
  split
  · exact .error trivial
  refine .bind (walkRoot_leafAt k pt i) ?_
  rintro ⟨k₁, pt₁, ok₁⟩ ⟨-, hleaf₁⟩
  cases ok₁ with
  | false => exact .ok nofun
  | true =>
    simp only [Bool.true_eq_false, if_false]
    refine .bind (walkTable_leafAt k₁ pt₁ i level) ?_
    rintro ⟨k₂, pt₂, ok₂⟩ ⟨-, hleaf₂⟩
    cases ok₂ with
    | false => exact .ok nofun
    | true =>
      simp only [Bool.true_eq_false, if_false]
      refine .bind (mapEntry_free pt₂ i pfn perm level) ?_
      intro pt₃ hfree
      refine .ok fun _ va hva hfound => hfree va hva ?_
      exact (foundAt_congr (hleaf₂.trans hleaf₁) va).mpr hfound

theorem sameAt_update {pt pt' : PageTable} {i va : Nat} {level : Level} {new : Pte}
    (h : pt'.leafAt = update pt.leafAt (place i level) new) (hva : ∀ level', place va level' ≠ place i level) :
    SameAt va pt pt' := by
  intro level'
  rw [h, update_of_ne (hva level')]

theorem not_entryAt_null {pt : PageTable} {va : Nat} (hwalk : walk pt va = .ok .null) : ¬ EntryAt pt va :=
  fun ⟨level, hne⟩ => hne (leafAt_of_walk_null hwalk level)

theorem not_entryAt_zero {pt : PageTable} {va : Nat} {level : Level} (hwalk : walk pt va = .ok (.entry level .zero)) :
    ¬ EntryAt pt va := by
  rintro ⟨level', hne⟩
  by_cases hlevel : level' = level
  · subst hlevel
    exact hne (leafAt_of_walk hwalk)
  · exact hne (leafAt_of_walk_ne hwalk hlevel)

theorem leafAt_of_walk_page {pt : PageTable} {i va : Nat} {level : Level} {pte : Pte}
    (hwalk : walk pt i = .ok (.entry level pte)) (hva : place va level = place i level) {level' : Level}
    (hne : level' ≠ level) : pt.leafAt (place va level') = Pte.zero := by
  have hregion : region va = region i := by
    cases level with
    | COMMONPAGE => exact (Use.common.inj hva).1
    | SUPERPAGE => exact Use.super.inj hva
  obtain ⟨-, ⟨rfl, hd⟩ | ⟨page, ptes, rfl, hd, rfl⟩⟩ := dir_of_walk hwalk
  · cases level' with
    | SUPERPAGE => exact absurd rfl hne
    | COMMONPAGE => simp only [place, PageTable.leafAt, hregion, hd]
  · cases level' with
    | COMMONPAGE => exact absurd rfl hne
    | SUPERPAGE => simp only [place, PageTable.leafAt, hregion, hd]

theorem entryAt_page {pt : PageTable} {i va : Nat} (hi : i % PGSIZE = 0) (hle : i ≤ va) (hlt : va < i + PGSIZE) :
    EntryAt pt va ↔ EntryAt pt i := by
  have hplace := @place_of_mem i va .COMMONPAGE hi hle hlt
  simp only [EntryAt, hplace _ nofun]

theorem lacks_write_shareFlags : ∀ flags : Flags, (shareFlags flags).has PTE_W = false ∧
    (shareFlags flags ||| PTE_V).has PTE_W = false := by decide

theorem ne_zero_of_flags {pte : Pte} (h : pte.flags ≠ 0) : pte ≠ Pte.zero := by
  rintro rfl
  exact h rfl

theorem shareFlags_ne_zero : ∀ flags : Flags, shareFlags flags ≠ 0 := by decide

section CopyAt

variable {k : Phys} {src dst : PageTable}

/-- One page of the loop of `uvmcopy`, at the addresses of that page. -/
theorem copyPage_taken {v : vma} {i va : Nat} {level : Level} {pte : Pte} (hwalk : walk src i = .ok (.entry level pte))
    (hne : pte ≠ Pte.zero) (hva : place va level = place i level) {src₁ dst₁ : PageTable} {new : Pte}
    (hnew : new = if keepsShared v then pte else { pte with flags := shareFlags pte.flags })
    (hsrc : src₁.leafAt = update src.leafAt (place i level) new)
    (hdst : dst₁.leafAt = update dst.leafAt (place i level) ⟨new.pfn, new.flags ||| PTE_V⟩)
    (hfree : ¬ FoundAt dst va) : Taken v va src dst src₁ dst₁ := by
  have hentry : src.leafAt (place va level) = pte := by
    rw [hva]
    exact leafAt_of_walk hwalk
  have hsrc₁ : src₁.leafAt (place va level) = new := by
    rw [hva, hsrc, update_self]
  have hdst₁ : dst₁.leafAt (place va level) = ⟨new.pfn, new.flags ||| PTE_V⟩ := by
    rw [hva, hdst, update_self]
  -- at the other size there is nothing in either table
  have hother : ∀ level', level' ≠ level → place va level' ≠ place i level := by
    intro level' hlevel hplace
    cases level <;> cases level' <;> first | exact hlevel rfl | cases hplace
  have hdst_other : ∀ level', level' ≠ level → (dst₁.leafAt (place va level')).flags.has PTE_V = false := by
    intro level' hlevel
    rw [hdst, update_of_ne (hother level' hlevel)]
    exact Bool.eq_false_iff.mpr fun hv => hfree ⟨level', hv⟩
  refine ⟨hfree, ⟨level, ?_⟩, iff_of_true ⟨level, ?_⟩ ⟨level, ?_⟩, fun hkeep => ?_, fun hkeep level' _ hv _ => ?_⟩
  · rw [hdst₁]
    exact has_or_self _ PTE_V (by decide)
  · rw [hsrc₁, hnew]
    split
    · exact hne
    · exact ne_zero_of_flags (shareFlags_ne_zero _)
  · rw [hentry]
    exact hne
  · rw [hkeep, if_pos rfl] at hnew
    subst hnew
    refine ⟨fun level' => ?_, fun level' hne' => ?_⟩
    · by_cases hlevel : level' = level
      · subst hlevel
        rw [hsrc₁, hentry]
      · rw [hsrc, update_of_ne (hother level' hlevel)]
    by_cases hlevel : level' = level
    · subst hlevel
      rw [hdst₁, hentry]
    · exact absurd (leafAt_of_walk_page hwalk hva hlevel) hne'
  · rw [hkeep, if_neg (by decide)] at hnew
    subst hnew
    by_cases hlevel : level' = level
    · subst hlevel
      rw [hsrc₁, hdst₁]
      exact ⟨PTE_W, by decide, lacks_write_shareFlags pte.flags⟩
    · rw [hdst_other level' hlevel] at hv
      cases hv

/-- The loop of `uvmcopy` over the pages from `i` on: an address is taken or passed by, and one with an entry that
is still to come is taken. -/
theorem copyLoop_at {v : vma} {endva : Nat} (va fuel i : Nat) (hi : i % PGSIZE = 0) :
    Ensures (copyLoop v endva fuel i k src dst) Anyhow fun r =>
      (Passed va src dst r.2.1 r.2.2 ∨ Taken v va src dst r.2.1 r.2.2) ∧
      (i ≤ va → va < endva → EntryAt src va → Taken v va src dst r.2.1 r.2.2) := by
  induction fuel generalizing i k src dst with
  | zero =>
    unfold copyLoop
    split
    · exact .error trivial
    · next hend => exact .ok ⟨.inl (.refl va src dst), fun hle hlt _ => absurd (hle.trans_lt hlt) hend⟩
  | succ fuel ih =>
    have hnext : (i + PGSIZE) % PGSIZE = 0 := next_aligned hi .COMMONPAGE
    unfold copyLoop
    split
    · -- a page without an entry is skipped
      have hskip : ¬ EntryAt src i → Ensures (copyLoop v endva fuel (i + PGSIZE) k src dst) Anyhow fun r =>
          (Passed va src dst r.2.1 r.2.2 ∨ Taken v va src dst r.2.1 r.2.2) ∧
          (i ≤ va → va < endva → EntryAt src va → Taken v va src dst r.2.1 r.2.2) := by
        intro hnone
        refine (ih _ hnext).mono fun r hr => ⟨hr.1, fun hle hlt hentry => hr.2 ?_ hlt hentry⟩
        by_contra hin
        exact hnone ((entryAt_page hi hle (Nat.not_le.mp hin)).mp hentry)
      cases hwalk : walk src i with
      | error e => exact .error trivial
      | ok found =>
        simp only [bind, Except.bind]
        cases found with
        | null => exact hskip (not_entryAt_null hwalk)
        | entry level pte =>
          simp only
          split
          · next hzero =>
            subst hzero
            exact hskip (not_entryAt_zero hwalk)
          · next hne =>
            generalize hnew : (if keepsShared v = true then pte else { pte with flags := shareFlags pte.flags }) = new
            split
            · exact .error trivial
            · next halign =>
              have halign := aligned_of_leaf hi halign
              have hsrc := leafAt_set hwalk new
              simp only [mappages_one level halign]
              refine .bind ((mapOne_leafAt k dst i new.pfn new.flags level).both
                (mapOne_free k dst i new.pfn new.flags level)) ?_
              rintro ⟨k₁, dst₁, ok⟩ ⟨⟨-, hdst⟩, hfree⟩
              cases ok with
              | false => exact .error trivial
              | true =>
                simp only [Bool.true_eq_false, if_false]
                simp only [if_true] at hdst
                cases hshare : share_page k₁ new.pfn with
                | error e => exact .error trivial
                | ok k₂ =>
                  refine (ih _ (next_aligned hi level)).mono fun r hr => ?_
                  by_cases hva : place va level = place i level
                  · -- the address is on this page, and the rest passes it by
                    have htaken := copyPage_taken hwalk hne hva hnew.symm hsrc hdst (hfree rfl va hva)
                    have hrest : Passed va (src.set i new) dst₁ r.2.1 r.2.2 :=
                      hr.1.resolve_right fun h => h.free htaken.found
                    exact ⟨.inr (htaken.passed hrest), fun _ _ _ => htaken.passed hrest⟩
                  · have hnot : ∀ level', place va level' ≠ place i level := by
                      intro level' hplace
                      cases level <;> cases level' <;> first | exact hva hplace | cases hplace
                    have hpass : Passed va src dst (src.set i new) dst₁ :=
                      ⟨sameAt_update hsrc hnot, sameAt_update hdst hnot⟩
                    refine ⟨hr.1.imp hpass.trans hpass.taken, fun hle hlt hentry => hpass.taken ?_⟩
                    refine hr.2 ?_ hlt (hpass.1.entry.mpr hentry)
                    by_contra hin
                    exact hva (place_of_mem halign hle (Nat.not_le.mp hin) level id)
    · next hend => exact .ok ⟨.inl (.refl va src dst), fun hle hlt _ => absurd (hle.trans_lt hlt) hend⟩

/-- A page of a stack, at the addresses of that page. -/
theorem copyStack_taken {v : vma} (hkeep : keepsShared v = false) {i va new : Nat} {flags : Flags} (hva : place va .COMMONPAGE = place i .COMMONPAGE)
    (hback : Backed k src) (hnew : k.busy new = false) {dst₁ : PageTable}
    (hdst : dst₁.leafAt = update dst.leafAt (place i .COMMONPAGE) ⟨new, flags ||| PTE_V⟩)
    (hfree : ¬ FoundAt dst va) : Taken v va src dst src dst₁ := by
  refine ⟨hfree, ⟨.COMMONPAGE, ?_⟩, Iff.rfl, fun h => absurd h (by simp [hkeep]), fun _ level hp hq heq => ?_⟩
  · rw [hva, hdst, update_self]
    exact has_or_self flags PTE_V (by decide)
  cases level with
  | COMMONPAGE =>
    rw [hva, hdst, update_self, ← hva] at heq
    exact absurd heq (hback.ne_of_free hp hnew)
  | SUPERPAGE =>
    rw [hdst, update_of_ne (show place va .SUPERPAGE ≠ place i .COMMONPAGE from nofun)] at hq
    exact absurd ⟨_, hq⟩ hfree

/-- The copies of the pages of a stack: each is in a frame that was free. -/
theorem copyStack_at {v : vma} (hkeep : keepsShared v = false) {startva : Nat} (va : Nat) {offsets : List Nat}
    (hal : ∀ o ∈ offsets, (startva + o) % PGSIZE = 0) (hback : Backed k src) :
    Ensures (copyStack src startva offsets k dst) Anyhow fun r => r.2.2 = true →
      (Passed va src dst src r.2.1 ∨ Taken v va src dst src r.2.1) ∧
      ((∃ o ∈ offsets, startva + o ≤ va ∧ va < startva + o + PGSIZE) → Taken v va src dst src r.2.1) := by
  induction offsets generalizing k dst with
  | nil =>
    refine .ok fun _ => ⟨.inl (.refl va src dst), ?_⟩
    rintro ⟨o, ho, -⟩
    cases ho
  | cons offset offsets ih =>
    have hoffset := hal offset (by simp)
    unfold copyStack
    cases hwalk : walk src (startva + offset) with
    | error e => exact .error trivial
    | ok found =>
      simp only [bind, Except.bind]
      cases found with
      | null => exact .error trivial
      | entry level pte =>
        refine .bind (kzalloc_grows k 0) ?_
        rintro ⟨k₁, new⟩ ⟨hgrows₁, hfresh⟩
        cases new with
        | none => exact .ok fun hok => absurd hok Bool.false_ne_true
        | some new =>
          have hgrows : Grows k (memmove k₁ new pte.pfn .COMMONPAGE) :=
            grows_write hgrows₁ hfresh rfl fun frame hout => memmove_mem k₁ _ rfl hout
          have hone := @mappages_one (memmove k₁ new pte.pfn .COMMONPAGE) dst (startva + offset) .COMMONPAGE
            hoffset new (PTE_W ||| PTE_R ||| PTE_U)
          simp only [Level.pgsize] at hone
          simp only [hone]
          refine .bind ((mapOne_leafAt _ dst (startva + offset) new _ .COMMONPAGE).both
            (mapOne_free _ dst (startva + offset) new _ .COMMONPAGE)) ?_
          rintro ⟨k₂, dst₂, ok⟩ ⟨⟨hgrows₂, hdst⟩, hfree⟩
          cases ok with
          | false => exact .error trivial
          | true =>
            simp only [Bool.true_eq_false, if_false]
            simp only [if_true] at hdst
            refine (ih (fun o ho => hal o (by simp [ho])) (hback.mono (hgrows.trans hgrows₂))).mono fun r hr hok => ?_
            obtain ⟨hrest, hlater⟩ := hr hok
            by_cases hva : place va .COMMONPAGE = place (startva + offset) .COMMONPAGE
            · have htaken := copyStack_taken hkeep hva hback (hfresh new (inBlock_self _ _)) hdst
                (hfree rfl va hva)
              have hpass := hrest.resolve_right fun h => h.free htaken.found
              exact ⟨.inr (htaken.passed hpass), fun _ => htaken.passed hpass⟩
            · have hnot : ∀ level', place va level' ≠ place (startva + offset) .COMMONPAGE := by
                intro level' hplace
                cases level' with
                | COMMONPAGE => exact hva hplace
                | SUPERPAGE => cases hplace
              have hpass : Passed va src dst src dst₂ := ⟨.refl va src, sameAt_update hdst hnot⟩
              refine ⟨hrest.imp hpass.trans hpass.taken, ?_⟩
              rintro ⟨o, ho, hle, hlt⟩
              obtain rfl | ho := List.mem_cons.mp ho
              · exact absurd (@place_of_mem (startva + o) va .COMMONPAGE hoffset hle hlt _ Level.noConfusion) hva
              · exact hpass.taken (hlater ⟨o, ho, hle, hlt⟩)

/-- The address lies in the area, as `find_vma_for_va` sees it. -/
def Within (va : Nat) (v : vma) : Prop := v.startva ≤ va ∧ va < add64 v.startva v.size

instance (va : Nat) (v : vma) : Decidable (Within va v) :=
  inferInstanceAs (Decidable (v.startva ≤ va ∧ va < add64 v.startva v.size))

theorem page_of_within {va : Nat} {v : vma} (h : Within va v) :
    ∃ o ∈ addrs 0 v.size PGSIZE, v.startva + o ≤ va ∧ va < v.startva + o + PGSIZE := by
  obtain ⟨hle, hlt⟩ := h
  have hsize : va - v.startva < v.size := by
    have := Nat.mod_le (v.startva + v.size) (2 ^ 64)
    change va < (v.startva + v.size) % 2 ^ 64 at hlt
    omega
  refine ⟨0 + PGSIZE * ((va - v.startva) / PGSIZE), ?_, ?_⟩
  · simp only [addrs, List.mem_map, List.mem_range]
    refine ⟨_, ?_, rfl⟩
    rw [pgsize_eq]
    omega
  · rw [pgsize_eq]
    omega

theorem copyArea_at {v : vma} (va : Nat) (hal : v.startva % PGSIZE = 0) (hback : Backed k src) :
    Ensures (copyArea v k src dst) Anyhow fun r => r.2.2.2 = true →
      (Passed va src dst r.2.1 r.2.2.1 ∨ Taken v va src dst r.2.1 r.2.2.1) ∧
      (Within va v → EntryAt src va → Taken v va src dst r.2.1 r.2.2.1) := by
  unfold copyArea
  split
  · next htype =>
    have hkeep : keepsShared v = false := by simp [keepsShared, htype]
    have hoff : ∀ o ∈ addrs 0 v.size PGSIZE, (v.startva + o) % PGSIZE = 0 := by
      intro o ho
      obtain ⟨i, rfl⟩ := mem_addrs ho
      rw [Nat.zero_add, Nat.add_mul_mod_self_left, hal]
    refine .bind (copyStack_at hkeep va hoff hback) ?_
    rintro ⟨k₁, dst₁, ok⟩ hr
    exact .ok fun hok => ⟨(hr hok).1, fun hin _ => (hr hok).2 (page_of_within hin)⟩
  · split
    · exact .error trivial
    · refine .bind (copyLoop_at va _ _ hal) ?_
      exact fun r hr => .ok fun _ => ⟨hr.1, fun hin hentry => hr.2 hin.1 hin.2 hentry⟩

/-- All areas: at most one of them takes the address, and an area takes its own addresses with an entry. -/
theorem uvmcopy_at {vs : List vma} {ext : Holders} (va : Nat) (hal : ∀ v ∈ vs, v.startva % PGSIZE = 0)
    (hheld : HeldBoth k src dst ext) :
    Ensures (uvmcopy vs k src dst) Anyhow fun r => r.2.2.2 = true →
      (Passed va src dst r.2.1 r.2.2.1 ∨ ∃ v ∈ vs, Taken v va src dst r.2.1 r.2.2.1) ∧
      ∀ v ∈ vs, Within va v → EntryAt src va → Taken v va src dst r.2.1 r.2.2.1 := by
  induction vs generalizing k src dst with
  | nil =>
    refine .ok fun _ => ⟨.inl (.refl va src dst), ?_⟩
    intro v hv
    cases hv
  | cons v vs ih =>
    have hal' := hal v (by simp)
    unfold uvmcopy
    refine .bind ((copyArea_at va hal' hheld.backed).both ((copyArea_held hal' hheld).weaken fun _ _ => trivial)) ?_
    rintro ⟨k₁, src₁, dst₁, ok⟩ ⟨harea, hheld₁⟩
    cases ok with
    | false => exact .ok fun hok => absurd hok Bool.false_ne_true
    | true =>
      refine (ih (fun w hw => hal w (by simp [hw])) hheld₁).mono fun r hr hok => ?_
      obtain ⟨hone, hmine⟩ := harea rfl
      obtain ⟨hrest, hlater⟩ := hr hok
      obtain hpass | htaken := hone
      · refine ⟨hrest.imp hpass.trans ?_, fun w hw hin hentry => ?_⟩
        · rintro ⟨w, hw, htaken⟩
          exact ⟨w, by simp [hw], hpass.taken htaken⟩
        · obtain rfl | hw := List.mem_cons.mp hw
          · exact absurd (hpass.2.found.mp (hmine hin hentry).found) (hmine hin hentry).free
          · exact hpass.taken (hlater w hw hin (hpass.1.entry.mpr hentry))
      · -- what is taken is taken once
        have hrest : Passed va src₁ dst₁ r.2.1 r.2.2.1 := by
          refine hrest.resolve_right ?_
          rintro ⟨w, -, h⟩
          exact h.free htaken.found
        refine ⟨.inr ⟨v, by simp, htaken.passed hrest⟩, fun w hw hin hentry => ?_⟩
        obtain rfl | hw := List.mem_cons.mp hw
        · exact (hmine hin hentry).passed hrest
        · exact absurd htaken.found (hlater w hw hin (htaken.entry.mpr hentry)).free

end CopyAt

/-! ## Translations -/

/-- The frame of the page that an entry maps at the address. -/
def frameOf (pte : Pte) (level : Level) (va : Nat) : Nat :=
  pte.pfn + (if level = .SUPERPAGE then va / PGSIZE % NPTE else 0)

theorem translate_iff {pt : PageTable} {va frame : Nat} {flags : Flags} :
    translate pt va = some (frame, flags) ↔ va < MAXVA ∧ ∃ level, (pt.leafAt (place va level)).flags = flags ∧
      flags.has PTE_V = true ∧ flags.has PTE_U = true ∧ frame = frameOf (pt.leafAt (place va level)) level va := by
  constructor
  · intro ht
    unfold translate at ht
    split at ht
    · next level pte hwalk =>
      split at ht
      · next hvu =>
        rw [Bool.and_eq_true] at hvu
        simp only [Option.some.injEq, Prod.mk.injEq] at ht
        obtain ⟨rfl, rfl⟩ := ht
        refine ⟨(dir_of_walk hwalk).1, level, ?_⟩
        rw [leafAt_of_walk hwalk]
        exact ⟨rfl, hvu.1, hvu.2, rfl⟩
      · cases ht
    · cases ht
  · rintro ⟨hva, level, rfl, hv, hu, rfl⟩
    have hne : pt.leafAt (place va level) ≠ Pte.zero := by
      intro hzero
      rw [hzero] at hv
      cases hv
    unfold translate
    simp only [walk_of_leafAt hva hne, hv, hu, Bool.and_self, if_true, frameOf]

/-- An entry through which a user can store and load. -/
def Pte.Open (pte : Pte) : Prop := pte.flags.has PTE_V = true ∧ ∀ bit ∈ accessBits, pte.flags.has bit = true

theorem accessBits_iff (flags : Flags) : (∀ bit ∈ accessBits, flags.has bit = true) ↔
    flags.has PTE_U = true ∧ flags.has PTE_R = true ∧ flags.has PTE_W = true := by
  simp [accessBits]

/-- A user can store at the address and load it, without a page fault. -/
def OpenAt (pt : PageTable) (va : Nat) : Prop :=
  ∃ frame flags, translate pt va = some (frame, flags) ∧ flags.has PTE_R = true ∧ flags.has PTE_W = true

theorem openAt_iff {pt : PageTable} {va : Nat} :
    OpenAt pt va ↔ va < MAXVA ∧ ∃ level, (pt.leafAt (place va level)).Open := by
  simp only [OpenAt, translate_iff, Pte.Open, accessBits_iff]
  constructor
  · rintro ⟨frame, flags, ⟨hva, level, rfl, hv, hu, -⟩, hr, hw⟩
    exact ⟨hva, level, hv, hu, hr, hw⟩
  · rintro ⟨hva, level, hv, hu, hr, hw⟩
    exact ⟨_, _, ⟨hva, level, rfl, hv, hu, rfl⟩, hr, hw⟩

theorem Pte.Open.ne_zero {pte : Pte} (h : pte.Open) : pte ≠ Pte.zero := by
  rintro rfl
  cases h.1

/-- Parent and child have one entry at the address, and no access there faults. -/
def JoinedAt (pt q : PageTable) (va : Nat) : Prop :=
  ∃ level pte, pt.leafAt (place va level) = pte ∧ q.leafAt (place va level) = pte ∧ pte.Open

theorem JoinedAt.symm {pt q : PageTable} {va : Nat} (h : JoinedAt pt q va) : JoinedAt q pt va := by
  obtain ⟨level, pte, hp, hq, hopen⟩ := h
  exact ⟨level, pte, hq, hp, hopen⟩

theorem ApartAt.symm {pt q : PageTable} {va : Nat} (h : ApartAt pt q va) : ApartAt q pt va := by
  intro level hq hp heq
  obtain ⟨bit, hbit, hlacks⟩ := h level hp hq heq.symm
  exact ⟨bit, hbit, hlacks.symm⟩

theorem or_valid {pte : Pte} (h : pte.flags.has PTE_V = true) : (⟨pte.pfn, pte.flags ||| PTE_V⟩ : Pte) = pte := by
  have hor : ∀ flags : Flags, flags.has PTE_V = true → flags ||| PTE_V = flags := by decide
  rw [hor pte.flags h]

/-- The address after a fork: given to the child, or apart. -/
theorem uvmcopy_shared {k k' : Phys} {src src' dst' : PageTable} {vs : List vma} {ext : Holders} {va : Nat}
    (hal : ∀ v ∈ vs, v.startva % PGSIZE = 0) (hheld : HeldBoth k src uvmcreate ext)
    (hcopy : uvmcopy vs k src uvmcreate = .ok (k', src', dst', true)) {v : vma} (hv : v ∈ vs) (hin : Within va v)
    (hva : va < MAXVA) :
    (keepsShared v = true ∧ OpenAt src va → JoinedAt src' dst' va) ∧
      (¬ (keepsShared v = true ∧ OpenAt src va) → ApartAt src' dst' va) := by
  obtain ⟨hrest, hmine⟩ := (uvmcopy_at va hal hheld).of_ok hcopy rfl
  constructor
  · rintro ⟨hkeep, hopen⟩
    obtain ⟨-, level, hopen⟩ := openAt_iff.mp hopen
    obtain ⟨hsame, hgiven⟩ := (hmine v hv hin ⟨level, hopen.ne_zero⟩).given hkeep
    refine ⟨level, src.leafAt (place va level), hsame level, ?_, hopen⟩
    show dst'.leafAt (place va level) = src.leafAt (place va level)
    rw [hgiven level hopen.ne_zero, or_valid hopen.1]
  · intro hnot level hp hq heq
    have hp : (src'.leafAt (place va level)).flags.has PTE_V = true := hp
    by_cases hentry : EntryAt src va
    · have htaken := hmine v hv hin hentry
      cases hkeep : keepsShared v with
      | false => exact htaken.apart hkeep level hp hq heq
      | true =>
        -- the entry is the same in both, and closed to the parent
        obtain ⟨hsame, hgiven⟩ := htaken.given hkeep
        have hne : src.leafAt (place va level) ≠ Pte.zero := by
          intro hzero
          rw [hsame level, hzero] at hp
          cases hp
        rw [hsame level] at hp
        have hclosed : ¬ ∀ bit ∈ accessBits, (src.leafAt (place va level)).flags.has bit = true :=
          fun hbits => hnot ⟨hkeep, openAt_iff.mpr ⟨hva, level, hp, hbits⟩⟩
        push Not at hclosed
        obtain ⟨bit, hbit, hlacks⟩ := hclosed
        refine ⟨bit, hbit, ?_⟩
        show (src'.leafAt (place va level)).flags.has bit = false ∧ (dst'.leafAt (place va level)).flags.has bit = false
        rw [hsame level, hgiven level hne, or_valid hp]
        exact ⟨Bool.eq_false_iff.mpr hlacks, Bool.eq_false_iff.mpr hlacks⟩
    · -- nothing comes into the parent's table
      have hentry' : EntryAt src' va := by
        refine ⟨level, fun hzero => ?_⟩
        rw [hzero] at hp
        cases hp
      have hentries : EntryAt src' va ↔ EntryAt src va := hrest.elim (fun h => h.1.entry) fun ⟨_, _, h⟩ => h.entry
      exact absurd (hentries.mp hentry') hentry

/-! ## Frames behind addresses -/

section Frames

variable {k : Phys} {own : Holders} {pt q : PageTable}

/-- Two addresses with one frame have one place, and lie in one page. -/
theorem Counted.same_page (h : Counted k own) (hp : ∀ f u, pt.refs f u ≤ own f u) (hq : ∀ f u, q.refs f u ≤ own f u)
    {va va' frame : Nat} {flags flags' : Flags} (ht : translate pt va = some (frame, flags))
    (ht' : translate q va' = some (frame, flags')) :
    va / PGSIZE = va' / PGSIZE ∧ ∃ level, place va level = place va' level ∧
      (pt.leafAt (place va level)).pfn = (q.leafAt (place va' level)).pfn ∧
      (pt.leafAt (place va level)).flags = flags ∧ (q.leafAt (place va' level)).flags = flags' := by
  obtain ⟨hva, level, hflags, hv, -, hframe⟩ := translate_iff.mp ht
  obtain ⟨hva', level', hflags', hv', -, hframe'⟩ := translate_iff.mp ht'
  have hin : ∀ (pte : Pte) (l : Level) (a : Nat), inBlock pte.pfn l.order (frameOf pte l a) = true := by
    intro pte l a
    refine (inBlock_iff _ _ _).mpr ⟨_, ?_, rfl⟩
    cases l with
    | COMMONPAGE => exact Nat.one_pos
    | SUPERPAGE => exact Nat.mod_lt _ (by decide)
  have hone := @refs_leafAt pt _ (hflags ▸ hv)
  have hone' := @refs_leafAt q _ (hflags' ▸ hv')
  have hle := hp (pt.leafAt (place va level)).pfn (place va level)
  have hle' := hq (q.leafAt (place va' level')).pfn (place va' level')
  have hsame := Counted.same (x := frame) (f := (pt.leafAt (place va level)).pfn)
    (g := (q.leafAt (place va' level')).pfn) (u := place va level) (w := place va' level') h (by omega) (by omega)
    (by rw [place_order, hframe]; exact hin _ _ _) (by rw [place_order, hframe']; exact hin _ _ _)
  obtain ⟨hpfn, hplace⟩ := hsame
  obtain ⟨rfl, hdiv⟩ := place_inj hva hva' hplace
  refine ⟨?_, level, hplace, hpfn, hflags, hflags'⟩
  cases level with
  | COMMONPAGE => exact hdiv
  | SUPERPAGE =>
    -- within a 2M page the frame tells which 4K it is
    have hslot : va / PGSIZE % NPTE = va' / PGSIZE % NPTE := by
      have heq := hframe.symm.trans hframe'
      simp only [frameOf, if_true, hpfn] at heq
      exact Nat.add_left_cancel heq
    change va / 2097152 = va' / 2097152 at hdiv
    change va / 4096 % 512 = va' / 4096 % 512 at hslot
    show va / 4096 = va' / 4096
    omega

/-- A store elsewhere leaves a byte alone. -/
theorem Counted.setByte_elsewhere (h : Counted k own) (hp : ∀ f u, pt.refs f u ≤ own f u)
    (hq : ∀ f u, q.refs f u ≤ own f u) {va va' frame : Nat} (hw : writable pt va' = some frame) (hne : va' ≠ va)
    (byte : UInt8) : load (k.setByte frame (va' % PGSIZE) byte) q va = load k q va := by
  obtain ⟨flags', ht', -⟩ := translate_of_writable hw
  unfold load
  cases ht : translate q va with
  | none => rfl
  | some r =>
    obtain ⟨frame₀, flags⟩ := r
    have hmem : (k.setByte frame (va' % PGSIZE) byte).mem frame₀ (va % PGSIZE) = k.mem frame₀ (va % PGSIZE) := by
      show update k.mem frame _ frame₀ _ = _
      by_cases hframe : frame₀ = frame
      · subst hframe
        have hpage := (h.same_page hp hq ht' ht).1
        have hoff : va % PGSIZE ≠ va' % PGSIZE := by
          rw [pgsize_eq] at hpage ⊢
          omega
        rw [update_self, update_of_ne hoff]
      · rw [update_of_ne hframe]
    simp only [hmem]

/-- A store behind an address that is apart is not seen at this address. -/
theorem Counted.setByte_apart (h : Counted k own) (hp : ∀ f u, pt.refs f u ≤ own f u)
    (hq : ∀ f u, q.refs f u ≤ own f u) {va frame : Nat} (hapart : ApartAt pt q va) (hw : writable pt va = some frame)
    (off : Nat) (byte : UInt8) : load (k.setByte frame off byte) q va = load k q va := by
  obtain ⟨flags', ht', hwrite⟩ := translate_of_writable hw
  unfold load
  cases ht : translate q va with
  | none => rfl
  | some r =>
    obtain ⟨frame₀, flags⟩ := r
    simp only
    split
    · next hread =>
      have hframe : frame₀ ≠ frame := by
        rintro rfl
        obtain ⟨-, level, -, hpfn, hflags', hflags⟩ := h.same_page hp hq ht' ht
        obtain ⟨-, -, -, hv', hu', -⟩ := translate_iff.mp ht'
        obtain ⟨-, -, -, hv, hu, -⟩ := translate_iff.mp ht
        obtain ⟨bit, hbit, hlacks', hlacks⟩ := hapart level (hflags'.symm ▸ hv') (hflags.symm ▸ hv) hpfn
        rw [hflags'] at hlacks'
        rw [hflags] at hlacks
        simp only [accessBits, List.mem_cons, List.not_mem_nil, or_false] at hbit
        obtain rfl | rfl | rfl := hbit
        · rw [hu] at hlacks
          cases hlacks
        · rw [hread] at hlacks
          cases hlacks
        · rw [hwrite] at hlacks'
          cases hlacks'
      show some (update k.mem frame _ frame₀ _) = _
      rw [update_of_ne hframe]
    · rfl

end Frames

/-! ## Loads and stores of the two processes -/

/-- A load by the user: at once, or again after the page fault. -/
def userLoad (files : Files) (mm : mm_struct) (k : Phys) (pt : PageTable) (va : Nat) :
    Except Panic (Phys × PageTable × Option UInt8) :=
  match load k pt va with
  | some byte => .ok (k, pt, some byte)
  | none => do
    let (k, pt, ok) ← pagefault files mm .LOAD_PAGEFAULT k pt va
    if ok = false then return (k, pt, none)
    return (k, pt, load k pt va)

/-- An access of a user program, with the files and areas its page fault sees. -/
inductive UserAccess
  | load (p : Fin NPROC) (files : Files) (mm : mm_struct) (va : Nat)
  | store (p : Fin NPROC) (files : Files) (mm : mm_struct) (va : Nat) (byte : UInt8)

def UserAccess.proc : UserAccess → Fin NPROC
  | load p _ _ _ => p
  | store p _ _ _ _ => p

def UserAccess.va : UserAccess → Nat
  | load _ _ _ va => va
  | store _ _ _ va _ => va

/-- The access does not store at `va`. -/
def UserAccess.Leaves (va : Nat) : UserAccess → Prop
  | load _ _ _ _ => True
  | store _ _ _ va' _ => va' ≠ va

namespace System

def user (sys : System) : UserAccess → Except Panic System
  | .load p files mm va => do
    let (k, pt, _) ← userLoad files mm sys.phys (sys.tables p) va
    return sys.setTable k p pt
  | .store p files mm va byte => do
    let (k, pt, _) ← Vm.store files mm sys.phys (sys.tables p) va byte
    return sys.setTable k p pt

/-- An access in one of the two processes. -/
def UserStep (src dst : Fin NPROC) (sys : System) (a : UserAccess) (sys' : System) : Prop :=
  (a.proc = src ∨ a.proc = dst) ∧ Ends (sys.user a) sys'

/-- The access comes to no null pointer: its page fault, if it has one in the area of a file, finds memory for the page. -/
def Fed (sys : System) (a : UserAccess) : Prop := toNull (sys.user a) = false

def setByte (sys : System) (frame off : Nat) (byte : UInt8) : System :=
  { sys with phys := sys.phys.setByte frame off byte }

/-- The page fault of an access, if it has one. -/
def Faults (p : Fin NPROC) (stval : Nat) (sys sys' : System) : Prop :=
  sys' = sys ∨ ¬ OpenAt (sys.tables p) stval ∧ ∃ files mm cause k pt ok,
    Vm.pagefault files mm cause sys.phys (sys.tables p) stval = .ok (k, pt, ok) ∧ sys' = sys.setTable k p pt

variable {sys sys' : System} {p : Fin NPROC}

theorem openAt_load {k : Phys} {pt : PageTable} {va : Nat} (h : OpenAt pt va) : (load k pt va).isSome = true := by
  obtain ⟨frame, flags, ht, hr, -⟩ := h
  simp only [Vm.load, ht, hr, if_true, Option.isSome_some]

theorem openAt_writable {pt : PageTable} {va : Nat} (h : OpenAt pt va) : (writable pt va).isSome = true := by
  obtain ⟨frame, flags, ht, -, hw⟩ := h
  simp only [writable, ht, hw, if_true, Option.isSome_some]

theorem openAt_of_some {k : Phys} {pt : PageTable} {va : Nat} (hload : (load k pt va).isSome = true)
    (hw : (writable pt va).isSome = true) : OpenAt pt va := by
  unfold Vm.load at hload
  unfold writable at hw
  split at hload
  · next frame flags ht =>
    simp only [ht] at hw
    split at hload
    · next hr =>
      split at hw
      · next hwrite => exact ⟨frame, flags, ht, hr, hwrite⟩
      · cases hw
    · cases hload
  · cases hload

theorem user_load_cases {files : Files} {mm : mm_struct} {va : Nat} (h : sys.user (.load p files mm va) = .ok sys') :
    Faults p va sys sys' := by
  simp only [user, userLoad] at h
  cases hload : Vm.load sys.phys (sys.tables p) va with
  | some byte =>
    rw [hload] at h
    cases h
    exact .inl (setTable_self sys p)
  | none =>
    have hclosed : ¬ OpenAt (sys.tables p) va := by
      intro hopen
      have hsome := @openAt_load sys.phys _ _ hopen
      rw [hload] at hsome
      cases hsome
    rw [hload] at h
    cases hfault : Vm.pagefault files mm .LOAD_PAGEFAULT sys.phys (sys.tables p) va with
    | error e =>
      rw [hfault] at h
      cases h
    | ok r =>
      obtain ⟨k, pt, ok⟩ := r
      rw [hfault] at h
      refine .inr ⟨hclosed, files, mm, _, k, pt, ok, hfault, ?_⟩
      cases ok <;> (cases h; rfl)

/-- What a store does: it may fault, and then writes one byte behind the address or nothing. -/
theorem user_store_cases {files : Files} {mm : mm_struct} {va : Nat} {byte : UInt8}
    (h : sys.user (.store p files mm va byte) = .ok sys') : ∃ sys₁, Faults p va sys sys₁ ∧
      ((sys' = sys₁ ∧ ¬ OpenAt (sys.tables p) va) ∨ ∃ frame, writable (sys₁.tables p) va = some frame ∧
        sys' = sys₁.setByte frame (va % PGSIZE) byte) := by
  simp only [user, Vm.store] at h
  cases hw : writable (sys.tables p) va with
  | some frame =>
    rw [hw] at h
    cases h
    refine ⟨sys, .inl rfl, .inr ⟨frame, hw, ?_⟩⟩
    simp [setTable, setByte]
  | none =>
    have hclosed : ¬ OpenAt (sys.tables p) va := by
      intro hopen
      have hsome := openAt_writable hopen
      rw [hw] at hsome
      cases hsome
    rw [hw] at h
    cases hfault : Vm.pagefault files mm .STORE_PAGEFAULT sys.phys (sys.tables p) va with
    | error e =>
      rw [hfault] at h
      cases h
    | ok r =>
      obtain ⟨k, pt, ok⟩ := r
      rw [hfault] at h
      have hfaults : Faults p va sys (sys.setTable k p pt) :=
        .inr ⟨hclosed, files, mm, _, k, pt, ok, hfault, rfl⟩
      have hself : (sys.setTable k p pt).tables p = pt := update_self _ _ _
      cases ok with
      | false =>
        cases h
        exact ⟨_, hfaults, .inl ⟨rfl, hclosed⟩⟩
      | true =>
        simp only [bind, Except.bind, Bool.true_eq_false, if_false] at h
        cases hw₁ : writable pt va with
        | none =>
          rw [hw₁] at h
          cases h
          exact ⟨_, hfaults, .inl ⟨rfl, hclosed⟩⟩
        | some frame =>
          rw [hw₁] at h
          cases h
          exact ⟨_, hfaults, .inr ⟨frame, by rw [hself, hw₁], rfl⟩⟩

/-! ### What a page fault does to either process -/

theorem refs_le_own (sys : System) (q : Fin NPROC) (f : Nat) (u : Use) : (sys.tables q).refs f u ≤ sys.own f u := by
  have := le_total (fun pt : PageTable => pt.refs f u) sys.tables q
  rw [own]
  omega

section Faults

variable {stval : Nat}

theorem Faults.inv (h : Faults p stval sys sys') (hinv : sys.Inv) : sys'.Inv := by
  obtain rfl | ⟨-, files, mm, cause, k, pt, ok, hfault, rfl⟩ := h
  · exact hinv
  · exact inv_setTable ((pagefault_held files mm cause stval (hinv.held p)).of_ok hfault) fun q _ => hinv.valid q

theorem Faults.tables (h : Faults p stval sys sys') {q : Fin NPROC} (hq : q ≠ p) : sys'.tables q = sys.tables q := by
  obtain rfl | ⟨-, files, mm, cause, k, pt, ok, -, rfl⟩ := h
  · rfl
  · exact update_of_ne hq _ _

theorem Faults.kept (h : Faults p stval sys sys') : MemKept sys.phys sys'.phys := by
  obtain rfl | ⟨-, files, mm, cause, k, pt, ok, hfault, rfl⟩ := h
  · exact fun _ _ => rfl
  · exact ((pagefault_leafAt files mm cause sys.phys (sys.tables p) stval).of_ok hfault).1

/-- An entry changes only at the page that faults, where a frame comes in that was free. -/
theorem Faults.leaf (h : Faults p stval sys sys') (u : Use) :
    (sys'.tables p).leafAt u = (sys.tables p).leafAt u ∨
      (sys.phys.busy ((sys'.tables p).leafAt u).pfn = false ∧ ¬ OpenAt (sys.tables p) stval ∧ stval < MAXVA ∧
        ∃ level, u = place stval level) := by
  obtain rfl | ⟨hclosed, files, mm, cause, k, pt, ok, hfault, rfl⟩ := h
  · exact .inl rfl
  have hself : (sys.setTable k p pt).tables p = pt := update_self _ _ _
  rw [hself]
  have hfaulted := ((pagefault_leafAt files mm cause sys.phys (sys.tables p) stval).of_ok hfault).2
  by_cases hmax : stval < MAXVA
  · obtain ⟨hsame, -⟩ | ⟨level, mem, flags, hfree, -, -, hnew⟩ := hfaulted
    · exact .inl (congrFun hsame u)
    have hnew : pt.leafAt = update (sys.tables p).leafAt (place stval level) ⟨mem, flags⟩ := hnew
    by_cases hu : u = place stval level
    · subst hu
      rw [hnew, update_self]
      exact .inr ⟨hfree, hclosed, hmax, level, rfl⟩
    · rw [hnew, update_of_ne hu]
      exact .inl rfl
  · unfold Vm.pagefault at hfault
    rw [if_pos (not_lt.mp fun hlt => hmax (down_lt_maxva.mp hlt))] at hfault
    cases hfault
    exact .inl rfl

theorem Faults.open_leaf (h : Faults p stval sys sys') {va : Nat} {level : Level}
    (hopen : ((sys.tables p).leafAt (place va level)).Open) :
    (sys'.tables p).leafAt (place va level) = (sys.tables p).leafAt (place va level) := by
  refine (h.leaf (place va level)).resolve_right ?_
  rintro ⟨-, hclosed, hmax, level', hplace⟩
  rw [hplace] at hopen
  exact hclosed (openAt_iff.mpr ⟨hmax, level', hopen⟩)

theorem Faults.load (h : Faults p stval sys sys') (hinv : sys.Inv) {q : Fin NPROC} (hq : q ≠ p) (va : Nat) :
    Vm.load sys'.phys (sys'.tables q) va = Vm.load sys.phys (sys.tables q) va := by
  rw [h.tables hq]
  unfold Vm.load
  cases ht : translate (sys.tables q) va with
  | none => rfl
  | some r =>
    obtain ⟨frame, flags⟩ := r
    simp only [h.kept frame (hinv.counted.busy_of_translate (refs_le_own sys q) ht)]

theorem Faults.joined (h : Faults p stval sys sys') {q : Fin NPROC} (hq : q ≠ p) {va : Nat}
    (hjoined : JoinedAt (sys.tables p) (sys.tables q) va) : JoinedAt (sys'.tables p) (sys'.tables q) va := by
  obtain ⟨level, pte, hp, hother, hopen⟩ := hjoined
  refine ⟨level, pte, ?_, ?_, hopen⟩
  · rw [← hp] at hopen ⊢
    exact h.open_leaf hopen
  · rw [h.tables hq]
    exact hother

theorem Faults.apart (h : Faults p stval sys sys') (hinv : sys.Inv) {q : Fin NPROC} (hq : q ≠ p) {va : Nat}
    (hapart : ApartAt (sys.tables p) (sys.tables q) va) : ApartAt (sys'.tables p) (sys'.tables q) va := by
  rw [h.tables hq]
  intro level hv hv' heq
  obtain hsame | ⟨hfree, -⟩ := h.leaf (place va level)
  · rw [hsame] at hv heq ⊢
    exact hapart level hv hv' heq
  · have hback : Backed sys.phys (sys.tables q) := Counted.backed hinv.counted (refs_le_own sys q)
    exact absurd heq.symm (hback.ne_of_free hv' hfree)

end Faults

theorem inv_setByte (h : sys.Inv) (frame off : Nat) (byte : UInt8) : (sys.setByte frame off byte).Inv :=
  ⟨h.counted.congr rfl rfl rfl, h.valid⟩

/-! ### Runs -/

/-- `uvmcopy` of a fork that succeeds. -/
def Forks (sys : System) (vmas : List vma) (src dst : Fin NPROC) (forked : System) : Prop :=
  sys.Legal (.uvmcopy vmas src dst) ∧ ∃ k spt dpt,
    Vm.uvmcopy vmas sys.phys (sys.tables src) (sys.tables dst) = .ok (k, spt, dpt, true) ∧
      forked = (sys.setTable k src spt).setTable k dst dpt

/-- What holds of the tables of the two at `va` whatever they access. -/
structure Stable (P : PageTable → PageTable → Prop) : Prop where
  symm : ∀ {pt q}, P pt q → P q pt
  faults : ∀ {p q : Fin NPROC} {stval : Nat} {sys sys' : System}, sys.Inv → q ≠ p → Faults p stval sys sys' →
    P (sys.tables p) (sys.tables q) → P (sys'.tables p) (sys'.tables q)

theorem stable_joined (va : Nat) : Stable fun pt q => JoinedAt pt q va :=
  ⟨JoinedAt.symm, fun _ hq hfault h => hfault.joined hq h⟩

theorem stable_apart (va : Nat) : Stable fun pt q => ApartAt pt q va :=
  ⟨ApartAt.symm, fun hinv hq hfault h => hfault.apart hinv hq h⟩

theorem user_cases {a : UserAccess} (h : sys.user a = .ok sys') : ∃ sys₁, Faults a.proc a.va sys sys₁ ∧
    (sys' = sys₁ ∨ ∃ files mm byte frame, a = .store a.proc files mm a.va byte ∧
      writable (sys₁.tables a.proc) a.va = some frame ∧ sys' = sys₁.setByte frame (a.va % PGSIZE) byte) := by
  cases a with
  | load p files mm va => exact ⟨sys', user_load_cases h, .inl rfl⟩
  | store p files mm va byte =>
    obtain ⟨sys₁, hfault, ⟨hsame, -⟩ | ⟨frame, hw, hset⟩⟩ := user_store_cases h
    · exact ⟨sys₁, hfault, .inl hsame⟩
    · exact ⟨sys₁, hfault, .inr ⟨files, mm, byte, frame, rfl, hw, hset⟩⟩

theorem user_stable {P : PageTable → PageTable → Prop} (hP : Stable P) {a : UserAccess} (hp : a.proc = p)
    {q : Fin NPROC} (hq : q ≠ p) (hinv : sys.Inv) (h : P (sys.tables p) (sys.tables q)) (hstep : sys.user a = .ok sys') :
    sys'.Inv ∧ P (sys'.tables p) (sys'.tables q) := by
  subst hp
  obtain ⟨sys₁, hfault, rfl | ⟨files, mm, byte, frame, -, -, rfl⟩⟩ := user_cases hstep
  · exact ⟨hfault.inv hinv, hP.faults hinv hq hfault h⟩
  · have htables := hP.faults hinv hq hfault h
    exact ⟨inv_setByte (hfault.inv hinv) _ _ _, htables⟩

theorem step_stable {P : PageTable → PageTable → Prop} (hP : Stable P) {src dst : Fin NPROC} (hne : src ≠ dst)
    {a : UserAccess} (hinv : sys.Inv) (h : P (sys.tables src) (sys.tables dst))
    (hstep : Guarded (UserStep src dst) Fed sys a sys') : sys'.Inv ∧ P (sys'.tables src) (sys'.tables dst) := by
  obtain ⟨hfed, hproc | hproc, hends⟩ := hstep
  · exact user_stable hP hproc hne.symm hinv h (hends.ok hfed)
  · obtain ⟨hinv', h'⟩ := user_stable hP hproc hne hinv (hP.symm h) (hends.ok hfed)
    exact ⟨hinv', hP.symm h'⟩

theorem run_stable {P : PageTable → PageTable → Prop} (hP : Stable P) {src dst : Fin NPROC} (hne : src ≠ dst)
    {as : List UserAccess} (hinv : sys.Inv) (h : P (sys.tables src) (sys.tables dst))
    (hrun : Run (Guarded (UserStep src dst) Fed) sys as sys') : sys'.Inv ∧ P (sys'.tables src) (sys'.tables dst) := by
  refine hrun.invariant (I := fun sys => sys.Inv ∧ P (sys.tables src) (sys.tables dst)) ?_ ⟨hinv, h⟩
  exact fun _ _ _ hs hstep => step_stable hP hne hs.1 hs.2 hstep

theorem load_joined (k : Phys) {pt q : PageTable} {va : Nat} (hva : va < MAXVA) (h : JoinedAt pt q va) :
    Vm.load k pt va = Vm.load k q va := by
  obtain ⟨level, pte, hp, hq, hv, hbits⟩ := h
  have hu := ((accessBits_iff pte.flags).mp hbits).1
  have htp : translate pt va = some (frameOf pte level va, pte.flags) :=
    translate_iff.mpr ⟨hva, level, by rw [hp], hv, hu, by rw [hp]⟩
  have htq : translate q va = some (frameOf pte level va, pte.flags) :=
    translate_iff.mpr ⟨hva, level, by rw [hq], hv, hu, by rw [hq]⟩
  simp only [Vm.load, htp, htq]

theorem load_of_leaves {a : UserAccess} (hp : a.proc = p) {q : Fin NPROC} (hq : q ≠ p) (hinv : sys.Inv) {va : Nat}
    (hleaves : a.Leaves va) (hstep : sys.user a = .ok sys') :
    Vm.load sys'.phys (sys'.tables q) va = Vm.load sys.phys (sys.tables q) va := by
  subst hp
  obtain ⟨sys₁, hfault, rfl | ⟨files, mm, byte, frame, ha, hw, rfl⟩⟩ := user_cases hstep
  · exact hfault.load hinv hq va
  have hne : a.va ≠ va := by
    rw [ha] at hleaves
    exact hleaves
  rw [← hfault.load hinv hq va]
  exact (hfault.inv hinv).counted.setByte_elsewhere (refs_le_own sys₁ a.proc) (refs_le_own sys₁ q) hw hne byte

/-- Two processes that are joined at `va`, where both load `byte`. -/
structure Shows (p q : Fin NPROC) (va : Nat) (byte : UInt8) (sys : System) : Prop where
  inv : sys.Inv
  joined : JoinedAt (sys.tables p) (sys.tables q) va
  byte : Vm.load sys.phys (sys.tables q) va = some byte

section Shows

variable {q : Fin NPROC} {va : Nat} {byte : UInt8}

theorem Shows.symm (h : Shows p q va byte sys) (hva : va < MAXVA) : Shows q p va byte sys :=
  ⟨h.inv, h.joined.symm, by rw [load_joined sys.phys hva h.joined, h.byte]⟩

theorem Shows.user (h : Shows p q va byte sys) (hq : q ≠ p) {a : UserAccess} (hp : a.proc = p)
    (hleaves : a.Leaves va) (hstep : sys.user a = .ok sys') : Shows p q va byte sys' := by
  obtain ⟨hinv, hjoined⟩ := user_stable (stable_joined va) hp hq h.inv h.joined hstep
  exact ⟨hinv, hjoined, (load_of_leaves hp hq h.inv hleaves hstep).trans h.byte⟩

theorem Shows.step (h : Shows p q va byte sys) (hq : q ≠ p) (hva : va < MAXVA) {a : UserAccess}
    (hleaves : a.Leaves va) (hstep : Guarded (UserStep p q) Fed sys a sys') : Shows p q va byte sys' := by
  obtain ⟨hfed, hproc | hproc, hends⟩ := hstep
  · exact h.user hq hproc hleaves (hends.ok hfed)
  · exact ((h.symm hva).user hq.symm hproc hleaves (hends.ok hfed)).symm hva

/-- A store where the two are joined is what both load from then on. -/
theorem shows_store (hinv : sys.Inv) (hjoined : JoinedAt (sys.tables p) (sys.tables q) va) (hva : va < MAXVA)
    {files : Files} {mm : mm_struct} (hstore : sys.user (.store p files mm va byte) = .ok sys') :
    Shows p q va byte sys' := by
  obtain ⟨level, pte, hp, -, hopen⟩ := id hjoined
  have hopenAt : OpenAt (sys.tables p) va := openAt_iff.mpr ⟨hva, level, hp ▸ hopen⟩
  obtain ⟨sys₁, hfault, hcase⟩ := user_store_cases hstore
  obtain ⟨frame, hw, rfl⟩ := hcase.resolve_left fun h => h.2 hopenAt
  obtain rfl := hfault.resolve_right fun h => h.1 hopenAt
  refine ⟨inv_setByte hinv _ _ _, hjoined, ?_⟩
  show Vm.load (sys₁.phys.setByte frame (va % PGSIZE) byte) (sys₁.tables q) va = some byte
  rw [← load_joined _ hva hjoined]
  obtain ⟨frame', flags, ht, hr, hwrite⟩ := hopenAt
  have hframe : frame' = frame := by
    simpa only [writable, ht, hwrite, if_true, Option.some.injEq] using hw
  subst hframe
  simp only [Vm.load, ht, hr, if_true, Phys.setByte, update_self]

end Shows

theorem load_of_apart (hinv : sys.Inv) {q : Fin NPROC} (hq : q ≠ p) {va : Nat}
    (hapart : ApartAt (sys.tables p) (sys.tables q) va) {files : Files} {mm : mm_struct} {byte : UInt8}
    (hstore : sys.user (.store p files mm va byte) = .ok sys') :
    Vm.load sys'.phys (sys'.tables q) va = Vm.load sys.phys (sys.tables q) va := by
  obtain ⟨sys₁, hfault, ⟨rfl, -⟩ | ⟨frame, hw, rfl⟩⟩ := user_store_cases hstore
  · exact hfault.load hinv hq va
  · rw [← hfault.load hinv hq va]
    have hapart₁ := hfault.apart hinv hq hapart
    exact (hfault.inv hinv).counted.setByte_apart (refs_le_own sys₁ p) (refs_le_own sys₁ q) hapart₁ hw _ _

theorem load_high (k : Phys) (pt : PageTable) {va : Nat} (hva : ¬ va < MAXVA) : Vm.load k pt va = none := by
  unfold Vm.load
  cases ht : translate pt va with
  | none => rfl
  | some r => exact absurd (translate_iff.mp ht).1 hva

/-- The two tables at an address of an area, once the fork is done. -/
theorem Forks.shared {forked : System} {vmas : List vma} {src dst : Fin NPROC} (h : sys.Forks vmas src dst forked)
    (hinv : sys.Inv) (hempty : sys.tables dst = uvmcreate) {v : vma} (hv : v ∈ vmas) {va : Nat} (hin : Within va v)
    (hva : va < MAXVA) : forked.Inv ∧
      (keepsShared v = true ∧ OpenAt (sys.tables src) va → JoinedAt (forked.tables src) (forked.tables dst) va) ∧
      (¬ (keepsShared v = true ∧ OpenAt (sys.tables src) va) →
        ApartAt (forked.tables src) (forked.tables dst) va) := by
  obtain ⟨hlegal, k, spt, dpt, hcopy, rfl⟩ := h
  obtain ⟨hne, hal⟩ := id hlegal
  have hnext : sys.next (.uvmcopy vmas src dst) = .ok ((sys.setTable k src spt).setTable k dst dpt) := by
    simp only [next, hcopy]
    rfl
  have hdst := hinv.held dst
  rw [← sys.setTable_self src, rest_setTable sys sys.phys hne, setTable_self, hempty] at hdst
  rw [hempty] at hcopy
  have hsrc : ((sys.setTable k src spt).setTable k dst dpt).tables src = spt := by
    show update (update sys.tables src spt) dst dpt src = spt
    rw [update_of_ne hne, update_self]
  have hdpt : ((sys.setTable k src spt).setTable k dst dpt).tables dst = dpt := update_self _ _ _
  rw [hsrc, hdpt]
  exact ⟨(next_inv hinv _ hlegal).of_ok hnext, uvmcopy_shared hal ⟨hdst, hinv.valid src⟩ hcopy hv hin hva⟩

theorem keepsShared_iff {v : vma} (h : v.perm &&& PERM_SHARED ≠ 0) : keepsShared v = true ↔ v.type = .VMA_FILE := by
  simp [keepsShared, h]

/-- **Shared mappings.**  After a fork and any accesses of parent and child that come to no null pointer, one of them stores
at an address of an area that was shared at the fork.  Where the area is of a file and the parent's page was present and writable, both
load the byte from then on, whatever they access, until one of them stores there again.  Elsewhere the other one
loads what it loaded before. -/
theorem shared_store_visible {boot sys forked s₁ s₂ : System} {es : List Event} (hboot : boot.Boot)
    (hreach : Run Step boot es sys) {vmas : List vma} {src dst : Fin NPROC} (hempty : sys.tables dst = uvmcreate)
    (hfork : sys.Forks vmas src dst forked) {v : vma} (hv : v ∈ vmas) (hshared : v.perm &&& PERM_SHARED ≠ 0) {va : Nat}
    (hin : Within va v) {as : List UserAccess} (hrun : Run (Guarded (UserStep src dst) Fed) forked as s₁) {p q : Fin NPROC}
    (hpq : (p = src ∧ q = dst) ∨ (p = dst ∧ q = src)) {files : Files} {mm : mm_struct} {byte : UInt8}
    (hstore : Guarded (UserStep src dst) Fed s₁ (.store p files mm va byte) s₂) :
    (v.type = .VMA_FILE ∧ OpenAt (sys.tables src) va → ∀ bs s₃,
        Run (Guarded (UserStep src dst) fun s a => s.Fed a ∧ a.Leaves va) s₂ bs s₃ →
          Vm.load s₃.phys (s₃.tables q) va = some byte) ∧
      (¬ (v.type = .VMA_FILE ∧ OpenAt (sys.tables src) va) →
        Vm.load s₂.phys (s₂.tables q) va = Vm.load s₁.phys (s₁.tables q) va) := by
  have hne := hfork.1.1
  have hinv := inv_of_run hboot hreach
  have hcall : s₁.user (.store p files mm va byte) = .ok s₂ := hstore.2.2.ok hstore.1
  rw [← keepsShared_iff hshared]
  by_cases hva : va < MAXVA
  · obtain ⟨hforked, hjoins, hparts⟩ := hfork.shared hinv hempty hv hin hva
    constructor
    · intro hcond bs s₃ hlater
      obtain ⟨hinv₁, hjoined⟩ := run_stable (stable_joined va) hne hforked (hjoins hcond) hrun
      have hshows : Shows src dst va byte s₂ := by
        obtain ⟨rfl, rfl⟩ | ⟨rfl, rfl⟩ := hpq
        · exact shows_store hinv₁ hjoined hva hcall
        · exact (shows_store hinv₁ hjoined.symm hva hcall).symm hva
      have hend : Shows src dst va byte s₃ :=
        hlater.invariant (fun _ _ _ hs hstep => hs.step hne.symm hva hstep.1.2 ⟨hstep.1.1, hstep.2⟩) hshows
      obtain ⟨-, rfl⟩ | ⟨-, rfl⟩ := hpq
      · exact hend.byte
      · exact (hend.symm hva).byte
    · intro hcond
      obtain ⟨hinv₁, hapart⟩ := run_stable (stable_apart va) hne hforked (hparts hcond) hrun
      obtain ⟨rfl, rfl⟩ | ⟨rfl, rfl⟩ := hpq
      · exact load_of_apart hinv₁ hne.symm hapart hcall
      · exact load_of_apart hinv₁ hne hapart.symm hcall
  · refine ⟨fun hcond => absurd (openAt_iff.mp hcond.2).1 hva, fun _ => ?_⟩
    rw [load_high _ _ hva, load_high _ _ hva]

/-! ### Three forks -/

/-- A fork, where it succeeds. -/
def forkOf (sys : System) (vmas : List vma) (src dst : Fin NPROC) : Option System :=
  if sys.Legal (.uvmcopy vmas src dst) then
    match Vm.uvmcopy vmas sys.phys (sys.tables src) (sys.tables dst) with
    | .ok (k, spt, dpt, true) => some ((sys.setTable k src spt).setTable k dst dpt)
    | _ => none
  else none

theorem forks_of_forkOf {vmas : List vma} {src dst : Fin NPROC} (h : sys.forkOf vmas src dst = some sys') :
    sys.Forks vmas src dst sys' := by
  unfold forkOf at h
  split at h
  · next hlegal =>
    split at h
    · next k spt dpt hcopy =>
      cases h
      exact ⟨hlegal, k, spt, dpt, hcopy, rfl⟩
    · cases h
  · cases h

/-- An access in one of the two that returns. -/
def userStep (src dst : Fin NPROC) (sys : System) (a : UserAccess) : Option System :=
  if a.proc = src ∨ a.proc = dst then (sys.user a).toOption else none

theorem step_of_userStep {src dst : Fin NPROC} {a : UserAccess} (h : userStep src dst sys a = some sys') :
    Guarded (UserStep src dst) Fed sys a sys' := by
  unfold userStep at h
  split at h
  · next hproc =>
    have hok := ok_of_toOption h
    refine ⟨?_, hproc, .inl hok⟩
    rw [Fed, hok]
    rfl
  · cases h

/-- Two pages that are mapped for all to read and write. -/
def sharedPages (type : Vma.vmatype) : vma := ⟨type, 0x10000, 0x2000, 3 ||| PERM_SHARED, 0, some ⟨0, 1⟩⟩

def sharedSpace (type : Vma.vmatype) : mm_struct :=
  ⟨fun _ => sharedPages type, fun _ => true, [0], 0x400000, 0x400000, none⟩

/-- The child stores 7 to the second byte of the first page. -/
def childStore (type : Vma.vmatype) : UserAccess := .store 1 (fun _ _ => none) (sharedSpace type) 0x10001 7

/-- Process 0 is prepared by `es` and forks process 1, the two make the accesses `as`, and the child stores. -/
def sharedRun (type : Vma.vmatype) (es : List Event) (as : List UserAccess) : Option (System × System × System × System) :=
  (exec allowedStep (booted ((List.range 8).map fun i => some (i + 1))) es).bind fun sys =>
    (sys.forkOf [sharedPages type] 0 1).bind fun forked => (exec (userStep 0 1) forked as).bind fun s₁ =>
      (userStep 0 1 s₁ (childStore type)).map fun s₂ => (sys, forked, s₁, s₂)

theorem of_sharedRun {type : Vma.vmatype} {es : List Event} {as : List UserAccess} {sys forked s₁ s₂ : System}
    (h : sharedRun type es as = some (sys, forked, s₁, s₂)) :
    Run Step (booted ((List.range 8).map fun i => some (i + 1))) es sys ∧ sys.Forks [sharedPages type] 0 1 forked ∧
      Run (Guarded (UserStep 0 1) Fed) forked as s₁ ∧ Guarded (UserStep 0 1) Fed s₁ (childStore type) s₂ := by
  obtain ⟨t, hsys, h⟩ := Option.bind_eq_some_iff.mp h
  obtain ⟨t', hforked, h⟩ := Option.bind_eq_some_iff.mp h
  obtain ⟨t₁, hrun, h⟩ := Option.bind_eq_some_iff.mp h
  obtain ⟨t₂, hstore, h⟩ := Option.map_eq_some_iff.mp h
  simp only [Prod.mk.injEq] at h
  obtain ⟨rfl, rfl, rfl, rfl⟩ := h
  exact ⟨(run_of_exec _ _ _ hsys).mono fun _ _ _ => step_of_allowedStep, forks_of_forkOf hforked,
    (run_of_exec _ _ _ hrun).mono fun _ _ _ => step_of_userStep, step_of_userStep hstore⟩

theorem child_empty {sys : System} {perm : Flags} (h : Run Step (booted ((List.range 8).map fun i => some (i + 1)))
    [.uvmalloc 0 0x10000 0x12000 perm] sys) : sys.tables 1 = uvmcreate := by
  obtain _ | ⟨hstep, hnil⟩ := h
  cases hnil
  exact tables_of_uvmalloc (by decide) hstep.2

/-- A page of a shared file mapping that the parent has when it forks: the parent loads what the child stored. -/
theorem shared_store_visible_file : ∃ sys forked s₁ s₂,
    Run Step (booted ((List.range 8).map fun i => some (i + 1))) [.uvmalloc 0 0x10000 0x12000 PTE_W] sys ∧
    sys.Forks [sharedPages .VMA_FILE] 0 1 forked ∧
    Run (Guarded (UserStep 0 1) Fed) forked [.load 0 (fun _ _ => none) (sharedSpace .VMA_FILE) 0x10001] s₁ ∧
    Guarded (UserStep 0 1) Fed s₁ (childStore .VMA_FILE) s₂ ∧ Vm.load s₂.phys (s₂.tables 0) 0x10001 = some 7 := by
  have hsome : ((sharedRun .VMA_FILE [.uvmalloc 0 0x10000 0x12000 PTE_W]
      [.load 0 (fun _ _ => none) (sharedSpace .VMA_FILE) 0x10001]).map fun s =>
        ((Vm.load s.1.phys (s.1.tables 0) 0x10001).isSome, (writable (s.1.tables 0) 0x10001).isSome))
          = some (true, true) := by
    decide +kernel
  obtain ⟨⟨sys, forked, s₁, s₂⟩, hrun, hopen⟩ := Option.map_eq_some_iff.mp hsome
  obtain ⟨hreach, hfork, has, hstore⟩ := of_sharedRun hrun
  rw [Prod.mk.injEq] at hopen
  have hvisible := shared_store_visible ⟨fun _ => rfl, fun _ => rfl, fun _ => rfl, fun _ => rfl⟩ hreach
    (child_empty hreach) hfork (List.mem_singleton.mpr rfl) (show (3 ||| PERM_SHARED) &&& PERM_SHARED ≠ 0 by decide)
    (show Within 0x10001 (sharedPages .VMA_FILE) by decide) has (.inr ⟨rfl, rfl⟩) hstore
  exact ⟨sys, forked, s₁, s₂, hreach, hfork, has, hstore,
    hvisible.1 ⟨rfl, openAt_of_some hopen.1 hopen.2⟩ [] s₂ (.nil s₂)⟩

/-- In a shared area that is not of a file, also where the parent has the page when it forks; and in one of a file
where the page comes after the fork. -/
theorem shared_store_invisible :
    (∃ sys forked s₁ s₂,
      Run Step (booted ((List.range 8).map fun i => some (i + 1))) [.uvmalloc 0 0x10000 0x12000 PTE_W] sys ∧
      sys.Forks [sharedPages .VMA_ANON] 0 1 forked ∧ Run (Guarded (UserStep 0 1) Fed) forked [] s₁ ∧
      Guarded (UserStep 0 1) Fed s₁ (childStore .VMA_ANON) s₂ ∧ Vm.load s₂.phys (s₂.tables 1) 0x10001 = some 7 ∧
      Vm.load s₂.phys (s₂.tables 0) 0x10001 = some 0) ∧
    ∃ sys forked s₁ s₂, Run Step (booted ((List.range 8).map fun i => some (i + 1))) [] sys ∧
      sys.Forks [sharedPages .VMA_FILE] 0 1 forked ∧
      Run (Guarded (UserStep 0 1) Fed) forked [.load 0 (fun _ _ => none) (sharedSpace .VMA_FILE) 0x10001] s₁ ∧
      Guarded (UserStep 0 1) Fed s₁ (childStore .VMA_FILE) s₂ ∧ Vm.load s₂.phys (s₂.tables 1) 0x10001 = some 7 ∧
      Vm.load s₂.phys (s₂.tables 0) 0x10001 = some 0 := by
  constructor
  · have hsome : ((sharedRun .VMA_ANON [.uvmalloc 0 0x10000 0x12000 PTE_W] []).map fun s =>
        (Vm.load s.2.2.2.phys (s.2.2.2.tables 1) 0x10001, Vm.load s.2.2.2.phys (s.2.2.2.tables 0) 0x10001))
          = some (some 7, some 0) := by
      decide +kernel
    obtain ⟨⟨sys, forked, s₁, s₂⟩, hrun, hload⟩ := Option.map_eq_some_iff.mp hsome
    obtain ⟨hreach, hfork, has, hstore⟩ := of_sharedRun hrun
    rw [Prod.mk.injEq] at hload
    exact ⟨sys, forked, s₁, s₂, hreach, hfork, has, hstore, hload.1, hload.2⟩
  · have hsome : ((sharedRun .VMA_FILE [] [.load 0 (fun _ _ => none) (sharedSpace .VMA_FILE) 0x10001]).map fun s =>
        (Vm.load s.2.2.2.phys (s.2.2.2.tables 1) 0x10001, Vm.load s.2.2.2.phys (s.2.2.2.tables 0) 0x10001))
          = some (some 7, some 0) := by
      decide +kernel
    obtain ⟨⟨sys, forked, s₁, s₂⟩, hrun, hload⟩ := Option.map_eq_some_iff.mp hsome
    obtain ⟨hreach, hfork, has, hstore⟩ := of_sharedRun hrun
    rw [Prod.mk.injEq] at hload
    exact ⟨sys, forked, s₁, s₂, hreach, hfork, has, hstore, hload.1, hload.2⟩

end System

end LostWakeup.Mm.Vm
