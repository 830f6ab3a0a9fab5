/-
# LostWakeup.Mm.ForkIsolation — parent and child do not see each other's writes.

After `uvmcopy` the two tables have the same frame only at the same place and behind entries that are shared and not
writable (`Excl`), and a user's store goes through a writable entry or gets a new frame first.  `copyout` writes through
any entry that is present and not for copying on write, and so through a page that both have for reading only.
-/
import LostWakeup.Mm.AddressSpaces
import LostWakeup.Mm.Leaves

namespace LostWakeup.Mm.Vm

open Library
open Function (update update_of_ne update_self)
open Mm.Vma (PGSIZE PGROUNDDOWN PERM_SHARED vma mm_struct)

/-! ## Shared frames -/

/-- The flags that `uvmcopy` leaves on a page of both. -/
def guarded (flags : Flags) : Bool := !flags.has PTE_W && flags.has PTE_SHARE

/-- Where two tables have the same frame at a place, both entries are guarded. -/
def Excl (pt q : PageTable) : Prop :=
  ∀ u, (pt.leafAt u).flags.has PTE_V = true → (q.leafAt u).flags.has PTE_V = true →
    (pt.leafAt u).pfn = (q.leafAt u).pfn →
      guarded (pt.leafAt u).flags = true ∧ guarded (q.leafAt u).flags = true

theorem Excl.symm {pt q : PageTable} (h : Excl pt q) : Excl q pt :=
  fun u hq hp heq => (h u hp hq heq.symm).symm

theorem excl_uvmcreate (pt : PageTable) : Excl pt uvmcreate := by
  intro u _ hv
  have hzero : uvmcreate.leafAt u = Pte.zero := by
    cases u <;> rfl
  rw [hzero] at hv
  cases hv

/-- The frames behind the leaf entries are allocated. -/
def Backed (k : Phys) (pt : PageTable) : Prop :=
  ∀ u, (pt.leafAt u).flags.has PTE_V = true → k.busy (pt.leafAt u).pfn = true

theorem leaf_of_leafAt {pt : PageTable} {u : Use} (hv : (pt.leafAt u).flags.has PTE_V = true) : u.leaf = true := by
  cases u with
  | common r s => rfl
  | super r => rfl
  | _ =>
    have hzero : Pte.zero.flags.has PTE_V = true := hv
    cases hzero

theorem refs_leafAt {pt : PageTable} {u : Use} (hv : (pt.leafAt u).flags.has PTE_V = true) :
    pt.refs (pt.leafAt u).pfn u = 1 := by
  rw [refs_eq_leafAt pt _ (leaf_of_leafAt hv), refs_of_valid hv, if_pos rfl]

theorem Counted.backed {k : Phys} {own : Holders} {pt : PageTable} (h : Counted k own)
    (hle : ∀ f u, pt.refs f u ≤ own f u) : Backed k pt := by
  intro u hv
  by_contra hbusy
  have hzero := h.own_of_free (Bool.eq_false_iff.mpr hbusy) u
  have hone := refs_leafAt hv
  have := hle (pt.leafAt u).pfn u
  omega

theorem Backed.ne_of_free {k : Phys} {pt : PageTable} (h : Backed k pt) {u : Use}
    (hv : (pt.leafAt u).flags.has PTE_V = true) {mem : Nat} (hfree : k.busy mem = false) :
    (pt.leafAt u).pfn ≠ mem := by
  rintro rfl
  have := h u hv
  rw [hfree] at this
  cases this

theorem Backed.mono {k k' : Phys} {pt : PageTable} (h : Backed k pt) (hgrows : Grows k k') : Backed k' pt :=
  fun u hv => (hgrows _ (h u hv)).1

theorem excl_update {k : Phys} {pt pt' q : PageTable} {u₀ : Use} {new : Pte} (h : Excl pt q) (hq : Backed k q)
    (hfree : k.busy new.pfn = false) (hleaf : pt'.leafAt = update pt.leafAt u₀ new) : Excl pt' q := by
  intro u hp hv heq
  rw [hleaf] at hp heq ⊢
  by_cases hu : u = u₀
  · subst hu
    rw [update_self] at heq
    exact absurd heq.symm (hq.ne_of_free hv hfree)
  · rw [update_of_ne hu] at hp heq ⊢
    exact h u hp hv heq

/-! ## `uvmcopy` -/

theorem guarded_shareFlags : ∀ flags : Flags, guarded (shareFlags flags) = true := by decide

theorem guarded_valid : ∀ flags : Flags, guarded flags = true → guarded (flags ||| PTE_V) = true := by decide

theorem keepsShared_of_private {v : vma} (h : v.perm &&& PERM_SHARED = 0) : keepsShared v = false := by
  simp [keepsShared, h]

section Copy

variable {k : Phys} {src dst : PageTable}

theorem copyLoop_excl {v : vma} (hkeep : keepsShared v = false) {endva : Nat} (fuel i : Nat) (hi : i % PGSIZE = 0)
    (h : Excl src dst) :
    Ensures (copyLoop v endva fuel i k src dst) Anyhow fun r => Excl r.2.1 r.2.2 := by
  induction fuel generalizing i k src dst with
  | zero =>
    unfold copyLoop
    split
    · exact .error trivial
    · exact .ok h
  | succ fuel ih =>
    have hnext : (i + PGSIZE) % PGSIZE = 0 := next_aligned hi .COMMONPAGE
    unfold copyLoop
    split
    · cases hwalk : walk src i with
      | error e => exact .error trivial
      | ok found =>
        simp only [bind, Except.bind]
        cases found with
        | null => exact ih _ hnext h
        | entry level pte =>
          simp only [hkeep, Bool.false_eq_true, if_false]
          split
          · exact ih _ hnext h
          split
          · exact .error trivial
          · next halign =>
            have hsrc := leafAt_set hwalk { pte with flags := shareFlags pte.flags }
            simp only [mappages_one level (aligned_of_leaf hi halign)]
            refine .bind (mapOne_leafAt k dst i pte.pfn (shareFlags pte.flags) level) ?_
            rintro ⟨k₁, dst₁, ok⟩ ⟨-, hdst⟩
            cases ok with
            | false => exact .error trivial
            | true =>
              simp only [Bool.true_eq_false, if_false]
              simp only [if_true] at hdst
              cases hshare : share_page k₁ pte.pfn with
              | error e => exact .error trivial
              | ok k₂ =>
                refine ih _ (next_aligned hi level) fun u hp hq heq => ?_
                -- at the place itself both entries are the shared one; elsewhere nothing changed
                rw [hsrc] at hp heq ⊢
                rw [hdst] at hq heq ⊢
                by_cases hu : u = place i level
                · subst hu
                  rw [update_self, update_self]
                  exact ⟨guarded_shareFlags _, guarded_valid _ (guarded_shareFlags _)⟩
                · rw [update_of_ne hu] at hp heq ⊢
                  rw [update_of_ne hu] at hq heq ⊢
                  exact h u hp hq heq
    · exact .ok h

theorem copyStack_excl {startva : Nat} {offsets : List Nat} (hal : ∀ o ∈ offsets, (startva + o) % PGSIZE = 0)
    (hback : Backed k src) (h : Excl src dst) :
    Ensures (copyStack src startva offsets k dst) Anyhow fun r => Excl src r.2.1 := by
  induction offsets generalizing k dst with
  | nil => exact .ok h
  | cons offset offsets ih =>
    unfold copyStack
    cases hwalk : walk src (startva + offset) with
    | error e => exact .error trivial
    | ok found =>
      simp only [bind, Except.bind]
      cases found with
      | null => exact .error trivial
      | entry level pte =>
        refine .bind (kzalloc_grows k 0) ?_
        rintro ⟨k₁, new⟩ ⟨hgrows₁, hfresh⟩
        cases new with
        | none => exact .ok h
        | some new =>
          have hgrows : Grows k (memmove k₁ new pte.pfn .COMMONPAGE) :=
            grows_write hgrows₁ hfresh rfl fun frame hout => memmove_mem k₁ _ rfl hout
          have hone := @mappages_one (memmove k₁ new pte.pfn .COMMONPAGE) dst (startva + offset) .COMMONPAGE
            (hal offset (by simp)) new (PTE_W ||| PTE_R ||| PTE_U)
          simp only [Level.pgsize] at hone
          simp only [hone]
          refine .bind (mapOne_leafAt _ dst (startva + offset) new _ .COMMONPAGE) ?_
          rintro ⟨k₂, dst₂, ok⟩ ⟨hgrows₂, hleaf⟩
          cases ok with
          | false => exact .error trivial
          | true =>
            simp only [Bool.true_eq_false, if_false]
            refine ih (fun o ho => hal o (by simp [ho])) (hback.mono (hgrows.trans hgrows₂)) ?_
            exact (excl_update h.symm hback (hfresh new (inBlock_self _ _)) hleaf).symm

theorem HeldBoth.backed {ext : Holders} (h : HeldBoth k src dst ext) : Backed k src := by
  refine Counted.backed h.1.1 fun f u => ?_
  show src.refs f u ≤ dst.refs f u + (src.refs f u + ext f u)
  omega

theorem copyArea_excl {v : vma} {ext : Holders} (hkeep : keepsShared v = false) (hal : v.startva % PGSIZE = 0)
    (hheld : HeldBoth k src dst ext) (h : Excl src dst) :
    Ensures (copyArea v k src dst) Anyhow fun r => Excl r.2.1 r.2.2.1 := by
  unfold copyArea
  split
  · have hoff : ∀ o ∈ addrs 0 v.size PGSIZE, (v.startva + o) % PGSIZE = 0 := by
      intro o ho
      obtain ⟨i, rfl⟩ := mem_addrs ho
      rw [Nat.zero_add, Nat.add_mul_mod_self_left, hal]
    refine .bind (copyStack_excl hoff hheld.backed h) ?_
    exact fun r hr => .ok hr
  · split
    · exact .error trivial
    · refine .bind (copyLoop_excl hkeep _ _ hal h) ?_
      exact fun r hr => .ok hr

theorem uvmcopy_excl {vs : List vma} {ext : Holders} (hal : ∀ v ∈ vs, v.startva % PGSIZE = 0)
    (hshared : ∀ v ∈ vs, v.perm &&& PERM_SHARED = 0) (hheld : HeldBoth k src dst ext) (h : Excl src dst) :
    Ensures (uvmcopy vs k src dst) Anyhow fun r => Excl r.2.1 r.2.2.1 := by
  induction vs generalizing k src dst with
  | nil => exact .ok h
  | cons v vs ih =>
    have hal' := hal v (by simp)
    have hkeep := keepsShared_of_private (hshared v (by simp))
    unfold uvmcopy
    refine .bind ((copyArea_excl hkeep hal' hheld h).both (copyArea_held hal' hheld)) ?_
    rintro ⟨k₁, src₁, dst₁, ok⟩ ⟨hexcl, hheld₁⟩
    cases ok with
    | false => exact .ok hexcl
    | true => exact ih (fun w hw => hal w (by simp [hw])) (fun w hw => hshared w (by simp [hw])) hheld₁ hexcl

end Copy

/-! ## What the other process sees -/

/-- `q` reads the same from the frames it has. -/
def SeesSame (k k' : Phys) (q : PageTable) : Prop :=
  ∀ va frame flags, translate q va = some (frame, flags) → k'.mem frame = k.mem frame

theorem SeesSame.trans {k k' k'' : Phys} {q : PageTable} (h : SeesSame k k' q) (h' : SeesSame k' k'' q) :
    SeesSame k k'' q :=
  fun va frame flags ht => (h' va frame flags ht).trans (h va frame flags ht)

theorem SeesSame.load {k k' : Phys} {q : PageTable} (h : SeesSame k k' q) (va : Nat) : load k' q va = load k q va := by
  unfold Vm.load
  cases ht : translate q va with
  | none => rfl
  | some r =>
    obtain ⟨frame, flags⟩ := r
    simp only [h va frame flags ht]

theorem leafAt_of_translate {pt : PageTable} {va frame : Nat} {flags : Flags}
    (h : translate pt va = some (frame, flags)) :
    ∃ level, (pt.leafAt (place va level)).flags = flags ∧ flags.has PTE_V = true ∧
      inBlock (pt.leafAt (place va level)).pfn level.order frame = true := by
  unfold translate at h
  split at h
  · next level pte hwalk =>
    have hleaf := leafAt_of_walk hwalk
    split at h
    · next hv =>
      rw [Bool.and_eq_true] at hv
      simp only [Option.some.injEq, Prod.mk.injEq] at h
      refine ⟨level, by rw [hleaf]; exact h.2, h.2 ▸ hv.1, ?_⟩
      rw [hleaf, inBlock_iff]
      refine ⟨_, ?_, h.1.symm⟩
      cases level with
      | COMMONPAGE => exact Nat.one_pos
      | SUPERPAGE => exact Nat.mod_lt _ (by decide)
    · cases h
  · cases h

theorem translate_of_walkaddr {pt : PageTable} {va page : Nat} (h : walkaddr pt va = some page) :
    ∃ flags, translate pt va = some (page, flags) := by
  unfold walkaddr at h
  unfold translate
  split at h
  · cases h
  split at h
  · next level pte hwalk =>
    split at h
    · next hv =>
      simp only [if_pos hv]
      exact ⟨pte.flags, by rw [Option.some_inj.mp h]⟩
    · cases h
  · cases h

theorem Counted.same {k : Phys} {own : Holders} (h : Counted k own) {f g x : Nat} {u w : Use}
    (hf : 0 < own f u) (hg : 0 < own g w) (hin : inBlock f u.order x = true)
    (hin' : inBlock g w.order x = true) : f = g ∧ u = w := by
  obtain ⟨use, h⟩ := h
  obtain ⟨hu, hrf⟩ := h.use_eq hf
  obtain ⟨hw, hrg⟩ := h.use_eq hg
  have hof : k.order f = u.order := by
    rw [h.order f (by omega), hu]
  have hog : k.order g = w.order := by
    rw [h.order g (by omega), hw]
  have heq := h.disjoint f g x (by omega) (by omega) (by rw [hof]; exact hin) (by rw [hog]; exact hin')
  subst heq
  exact ⟨rfl, by rw [hu, hw]⟩

theorem Counted.busy_of_translate {k : Phys} {own : Holders} {q : PageTable} (h : Counted k own)
    (hle : ∀ f u, q.refs f u ≤ own f u) {va frame : Nat} {flags : Flags} (ht : translate q va = some (frame, flags)) : k.busy frame = true := by
  obtain ⟨level, hflags, hv, hin⟩ := leafAt_of_translate ht
  have hone := @refs_leafAt q _ (hflags ▸ hv)
  have hother := hle (q.leafAt (place va level)).pfn (place va level)
  obtain ⟨use, hcount⟩ := h
  obtain ⟨huse, hrefcnt⟩ := @CountedAs.use_eq _ _ _ hcount (q.leafAt (place va level)).pfn (place va level) (by omega)
  have hpos : 0 < k.refcnt (q.leafAt (place va level)).pfn := by omega
  refine hcount.busy _ frame hpos ?_
  rw [hcount.order _ hpos, ← huse, place_order]
  exact hin

/-- The table at hand, and that of the other process among the rest. -/
structure Beside (k : Phys) (pt q : PageTable) (ext : Holders) : Prop where
  held : Held k pt ext
  other : ∀ f u, q.refs f u ≤ ext f u
  excl : Excl pt q

/-- The other process does not have the frame behind `va`. -/
def Unshared (pt q : PageTable) (va : Nat) : Prop :=
  ∀ level, (pt.leafAt (place va level)).flags.has PTE_V = true → ∀ u, q.refs (pt.leafAt (place va level)).pfn u = 0

section Access

variable {k : Phys} {pt q : PageTable} {ext : Holders}

theorem Beside.backed (h : Beside k pt q ext) : Backed k q := by
  refine Counted.backed h.held.1 fun f u => ?_
  have := h.other f u
  omega

theorem Beside.seesSame (h : Beside k pt q ext) {k' : Phys} (hkept : MemKept k k') : SeesSame k k' q := by
  intro va frame flags ht
  apply hkept
  refine h.held.1.busy_of_translate (fun f u => ?_) ht
  have := h.other f u
  omega

theorem Beside.unshared (h : Beside k pt q ext) {va : Nat}
    (hopen : ∀ level, guarded (pt.leafAt (place va level)).flags = false) : Unshared pt q va := by
  intro level hv u
  by_contra hne
  have hother := h.other (pt.leafAt (place va level)).pfn u
  have hone := refs_leafAt hv
  have hsame := Counted.same (f := (pt.leafAt (place va level)).pfn) (g := (pt.leafAt (place va level)).pfn)
    (x := (pt.leafAt (place va level)).pfn) (u := place va level) (w := u) h.held.1 (by omega) (by omega)
    (inBlock_self _ _) (inBlock_self _ _)
  -- the other process has it at the same place
  obtain ⟨-, rfl⟩ := hsame
  rw [refs_eq_leafAt q _ (place_leaf va level), Pte.refs] at hne
  split at hne
  · next hq =>
    have hguard := (h.excl (place va level) hv hq.1 hq.2.symm).1
    rw [hopen level] at hguard
    cases hguard
  · exact hne rfl

/-- A write behind an address that is not shared. -/
theorem Beside.write (h : Beside k pt q ext) {va frame : Nat} {flags : Flags} (hun : Unshared pt q va)
    (ht : translate pt va = some (frame, flags)) {k' : Phys}
    (hmem : ∀ frame', frame' ≠ frame → k'.mem frame' = k.mem frame') : SeesSame k k' q := by
  intro va' frame' flags' ht'
  apply hmem
  rintro rfl
  obtain ⟨level, hflags, hv, hin⟩ := leafAt_of_translate ht
  obtain ⟨level', hflags', hv', hin'⟩ := leafAt_of_translate ht'
  have hone := @refs_leafAt pt _ (hflags ▸ hv)
  have hone' := @refs_leafAt q _ (hflags' ▸ hv')
  have hother := h.other (q.leafAt (place va' level')).pfn (place va' level')
  have hsame := Counted.same (x := frame') (f := (pt.leafAt (place va level)).pfn)
    (g := (q.leafAt (place va' level')).pfn) (u := place va level) (w := place va' level') h.held.1
    (by omega) (by omega) (by rw [place_order]; exact hin) (by rw [place_order]; exact hin')
  have hzero := hun level (hflags ▸ hv) (place va' level')
  rw [hsame.1, hone'] at hzero
  cases hzero

/-- No entry becomes one that is shared for reading only. -/
def NoNewReadonly (pt pt' : PageTable) : Prop :=
  ∀ u, sharedReadonly (pt.leafAt u).flags = false → sharedReadonly (pt'.leafAt u).flags = false

/-- One step of an access: the other process sees nothing of it. -/
structure Unseen (k : Phys) (pt q : PageTable) (ext : Holders) (k' : Phys) (pt' : PageTable) : Prop where
  beside : Beside k' pt' q ext
  sees : SeesSame k k' q
  readonly : NoNewReadonly pt pt'

theorem Beside.refl (h : Beside k pt q ext) : Unseen k pt q ext k pt := ⟨h, fun _ _ _ _ => rfl, fun _ h => h⟩

theorem Unseen.trans {k' k'' : Phys} {pt' pt'' : PageTable} (h : Unseen k pt q ext k' pt')
    (h' : Unseen k' pt' q ext k'' pt'') : Unseen k pt q ext k'' pt'' :=
  ⟨h'.beside, h.sees.trans h'.sees, fun u hu => h'.readonly u (h.readonly u hu)⟩

theorem Beside.memory (h : Beside k pt q ext) {k' : Phys} (hsees : SeesSame k k' q) (hrefcnt : k'.refcnt = k.refcnt)
    (hbusy : k'.busy = k.busy) (horder : k'.order = k.order) : Unseen k pt q ext k' pt :=
  ⟨⟨⟨h.held.1.congr hrefcnt hbusy horder, h.held.2⟩, h.other, h.excl⟩, hsees, fun _ h => h⟩

theorem pagefault_unseen (files : Files) (mm : mm_struct) (cause : Cause) (stval : Nat) (h : Beside k pt q ext) :
    Ensures (pagefault files mm cause k pt stval) Anyhow fun r =>
      Unseen k pt q ext r.1 r.2.1 ∧ (r.2.2 = true → Unshared r.2.1 q stval) := by
  have hboth := (pagefault_held files mm cause stval h.held).both (pagefault_leafAt files mm cause k pt stval)
  refine (hboth.weaken fun _ _ => trivial).mono ?_
  rintro ⟨k', pt', ok⟩ ⟨hheld, hkept, hfault⟩
  have hsees := h.seesSame hkept
  obtain ⟨hsame, hzero⟩ | ⟨level, mem, flags, hfree, hro, hzero, hnew⟩ := hfault
  · have hsame : pt'.leafAt = pt.leafAt := hsame
    refine ⟨⟨⟨hheld, h.other, fun u hp hv heq => ?_⟩, hsees, fun u hu => ?_⟩, fun hok level hv => ?_⟩
    · rw [hsame] at hp heq ⊢
      exact h.excl u hp hv heq
    · show sharedReadonly (pt'.leafAt u).flags = false
      rw [hsame]
      exact hu
    · have hv : (pt'.leafAt (place stval level)).flags.has PTE_V = true := hv
      rw [hsame, hzero hok level] at hv
      cases hv
  · have hnew : pt'.leafAt = update pt.leafAt (place stval level) ⟨mem, flags⟩ := hnew
    refine ⟨⟨⟨hheld, h.other, excl_update h.excl h.backed hfree hnew⟩, hsees, fun u hu => ?_⟩, fun hok level' hv u => ?_⟩
    · show sharedReadonly (pt'.leafAt u).flags = false
      rw [hnew]
      by_cases hplace : u = place stval level
      · subst hplace
        rw [update_self]
        exact hro
      · rw [update_of_ne hplace]
        exact hu
    · show q.refs (pt'.leafAt (place stval level')).pfn u = 0
      have hv : (pt'.leafAt (place stval level')).flags.has PTE_V = true := hv
      have hlevel : level' = level := by
        by_contra hne
        have hplace : place stval level' ≠ place stval level := by
          cases level <;> cases level' <;> first | exact absurd rfl hne | simp [place]
        rw [hnew, update_of_ne hplace, hzero level' hne] at hv
        cases hv
      subst hlevel
      rw [hnew, update_self]
      -- the frame was free, so nobody had it
      have hfree := h.held.1.own_of_free hfree u
      have hother := h.other mem u
      show q.refs mem u = 0
      omega

/-! ## Stores and `copyout` -/

theorem translate_of_writable {va frame : Nat} (h : writable pt va = some frame) :
    ∃ flags, translate pt va = some (frame, flags) ∧ flags.has PTE_W = true := by
  unfold writable at h
  split at h
  · next frame' flags ht =>
    split at h
    · next hw =>
      cases h
      exact ⟨flags, ht, hw⟩
    · cases h
  · cases h

theorem leafAt_unique {va frame : Nat} {flags : Flags} (ht : translate pt va = some (frame, flags)) (level : Level) :
    pt.leafAt (place va level) = Pte.zero ∨ (pt.leafAt (place va level)).flags = flags := by
  unfold translate at ht
  split at ht
  · next level' pte hwalk =>
    split at ht
    · simp only [Option.some.injEq, Prod.mk.injEq] at ht
      by_cases hlevel : level = level'
      · subst hlevel
        right
        rw [leafAt_of_walk hwalk]
        exact ht.2
      · exact .inl (leafAt_of_walk_ne hwalk hlevel)
    · cases ht
  · cases ht

theorem Beside.setByte (h : Beside k pt q ext) {va frame : Nat} (hw : writable pt va = some frame) (off : Nat)
    (byte : UInt8) : Unseen k pt q ext (k.setByte frame off byte) pt := by
  obtain ⟨flags, ht, hflags⟩ := translate_of_writable hw
  have hopen : ∀ level, guarded (pt.leafAt (place va level)).flags = false := by
    intro level
    obtain hzero | heq := leafAt_unique ht level
    · rw [hzero]
      rfl
    · rw [heq, guarded, hflags]
      rfl
  refine h.memory (h.write (h.unshared hopen) ht fun frame' hne => ?_) rfl rfl rfl
  show update k.mem frame _ frame' = k.mem frame'
  rw [update_of_ne hne]

theorem store_unseen (files : Files) (mm : mm_struct) (va : Nat) (byte : UInt8) (h : Beside k pt q ext) :
    Ensures (store files mm k pt va byte) Anyhow fun r => Unseen k pt q ext r.1 r.2.1 := by
  unfold store
  cases hw : writable pt va with
  | some frame => exact .ok (h.setByte hw _ _)
  | none =>
    refine .bind (pagefault_unseen files mm .STORE_PAGEFAULT va h) ?_
    rintro ⟨k₁, pt₁, ok⟩ ⟨hun, -⟩
    cases ok with
    | false => exact .ok hun
    | true =>
      simp only [Bool.true_eq_false, if_false]
      cases hw₁ : writable pt₁ va with
      | none => exact .ok hun
      | some frame => exact .ok (hun.trans (hun.beside.setByte hw₁ _ _))

/-- The page at `va` is not one that is shared for reading only. -/
def Spared (pt : PageTable) (va : Nat) : Prop := ∀ level, sharedReadonly (pt.leafAt (place va level)).flags = false

theorem copyoutPresent_unseen (files : Files) (mm : mm_struct) (dstva : Nat) (h : Beside k pt q ext) :
    Ensures (copyoutPresent files mm k pt dstva) Anyhow fun r => Unseen k pt q ext r.1 r.2.1 := by
  have hfault := pagefault_unseen files mm .STORE_PAGEFAULT dstva h
  unfold copyoutPresent
  cases walk pt (PGROUNDDOWN dstva) with
  | error e => exact .error trivial
  | ok found =>
    simp only [bind, Except.bind]
    cases found with
    | null =>
      refine .bind hfault ?_
      rintro ⟨k₁, pt₁, ok⟩ ⟨hun, -⟩
      cases ok with
      | true => exact .error trivial
      | false => exact .ok hun
    | entry level pte =>
      simp only
      split
      · exact hfault.mono fun r hr => hr.1
      · exact .ok h.refl

theorem guarded_of_not_cow : ∀ flags : Flags, ¬ (flags.has PTE_W = false ∧ is_a_cow_page flags = true) →
    sharedReadonly flags = false → guarded flags = false := by decide

theorem copyoutPage_unseen (files : Files) (mm : mm_struct) (dstva : Nat) (h : Beside k pt q ext)
    (hspare : Spared pt dstva) :
    Ensures (copyoutPage files mm k pt dstva) Anyhow fun r =>
      Unseen k pt q ext r.1 r.2.1 ∧ (r.2.2 = true → Unshared r.2.1 q dstva) := by
  unfold copyoutPage
  refine .bind (copyoutPresent_unseen files mm dstva h) ?_
  rintro ⟨k₁, pt₁, ok⟩ hun
  cases ok with
  | false => exact .ok ⟨hun, nofun⟩
  | true =>
    simp only [Bool.true_eq_false, if_false]
    cases hwalk : walk pt₁ (PGROUNDDOWN dstva) with
    | error e => exact .error trivial
    | ok found =>
      simp only [bind, Except.bind]
      cases found with
      | null => exact .error trivial
      | entry level pte =>
        simp only
        split
        · refine (pagefault_unseen files mm .STORE_PAGEFAULT dstva hun.beside).mono ?_
          exact fun r hr => ⟨hun.trans hr.1, hr.2⟩
        · next hcow =>
          refine .ok ⟨hun, fun _ => hun.beside.unshared fun level' => ?_⟩
          have hspare' := hun.readonly (place dstva level') (hspare level')
          by_cases hlevel : level' = level
          · subst hlevel
            have hleaf := leafAt_of_walk hwalk
            rw [place_down] at hleaf
            have hspare' : sharedReadonly (pt₁.leafAt (place dstva level')).flags = false := hspare'
            show guarded (pt₁.leafAt (place dstva level')).flags = false
            rw [hleaf] at hspare' ⊢
            exact guarded_of_not_cow pte.flags hcow hspare'
          · have hzero := leafAt_of_walk_ne hwalk hlevel
            rw [place_down] at hzero
            show guarded (pt₁.leafAt (place dstva level')).flags = false
            rw [hzero]
            rfl

theorem Beside.setBytes (h : Beside k pt q ext) {va frame : Nat} {flags : Flags} (hun : Unshared pt q va)
    (ht : translate pt va = some (frame, flags)) (off : Nat) (bytes : List UInt8) :
    Unseen k pt q ext (k.setBytes frame off bytes) pt := by
  refine h.memory (h.write hun ht fun frame' hne => ?_) rfl rfl rfl
  show update k.mem frame _ frame' = k.mem frame'
  rw [update_of_ne hne]

theorem mem_rest {dstva va len : Nat}
    (hva : PGROUNDDOWN dstva + PGSIZE ≤ va)
    (hlt : va < PGROUNDDOWN dstva + PGSIZE + (len - (PGSIZE - (dstva - PGROUNDDOWN dstva)))) :
    dstva ≤ va ∧ va < dstva + len := by
  simp only [PGROUNDDOWN, pgsize_eq] at hva hlt ⊢
  omega

theorem copyoutLoop_unseen (files : Files) (mm : mm_struct) (fuel dstva : Nat) (src : List UInt8)
    (h : Beside k pt q ext) (hspare : ∀ va, dstva ≤ va → va < dstva + src.length → Spared pt va) :
    Ensures (copyoutLoop files mm fuel k pt dstva src) Anyhow fun r => Unseen k pt q ext r.1 r.2.1 := by
  induction fuel generalizing k pt dstva src with
  | zero =>
    cases src with
    | nil => exact .ok h.refl
    | cons byte src => exact .error trivial
  | succ fuel ih =>
    cases src with
    | nil => exact .ok h.refl
    | cons byte src =>
      unfold copyoutLoop
      simp only
      split
      · exact .ok h.refl
      have hhere : Spared pt dstva := hspare dstva le_rfl (by simp)
      refine .bind (copyoutPage_unseen files mm dstva h hhere) ?_
      rintro ⟨k₁, pt₁, ok⟩ ⟨hun, hunshared⟩
      cases ok with
      | false => exact .ok hun
      | true =>
        simp only [Bool.true_eq_false, if_false]
        cases haddr : walkaddr pt₁ (PGROUNDDOWN dstva) with
        | none => exact .ok hun
        | some pa0 =>
          rw [Option.getD_some]
          split
          · exact .ok hun
          obtain ⟨flags, ht⟩ := translate_of_walkaddr haddr
          have hshared : Unshared pt₁ q (PGROUNDDOWN dstva) := by
            intro level
            rw [place_down]
            exact hunshared rfl level
          have hwrite := hun.trans (hun.beside.setBytes hshared ht (dstva - PGROUNDDOWN dstva)
            ((byte :: src).take (PGSIZE - (dstva - PGROUNDDOWN dstva))))
          refine (ih _ _ hwrite.beside fun va hva hlt => ?_).mono fun r hr => hwrite.trans hr
          rw [List.length_drop] at hlt
          obtain ⟨hle, hlt⟩ := mem_rest hva hlt
          exact fun level => hun.readonly _ (hspare va hle hlt level)

end Access

/-! ## Runs -/

/-- A write by a process or on its behalf, with the files and areas its page faults see. -/
inductive Access
  | store (p : Fin NPROC) (files : Files) (mm : mm_struct) (va : Nat) (byte : UInt8)
  | copyout (p : Fin NPROC) (files : Files) (mm : mm_struct) (dstva : Nat) (src : List UInt8)

def Access.proc : Access → Fin NPROC
  | store p _ _ _ _ => p
  | copyout p _ _ _ _ => p

namespace System

def access (sys : System) : Access → Except Panic System
  | .store p files mm va byte => do
    let (k, pt, _) ← Vm.store files mm sys.phys (sys.tables p) va byte
    return sys.setTable k p pt
  | .copyout p files mm dstva src => do
    let (k, pt, _) ← Vm.copyout files mm sys.phys (sys.tables p) dstva src
    return sys.setTable k p pt

/-- A write in one of the two processes. -/
def AccessStep (src dst : Fin NPROC) (sys : System) (a : Access) (sys' : System) : Prop :=
  (a.proc = src ∨ a.proc = dst) ∧ Ends (sys.access a) sys'

/-- `copyout` keeps off the pages that are shared for reading only. -/
def KeepsOff (sys : System) : Access → Prop
  | .store _ _ _ _ _ => True
  | .copyout p _ _ dstva src => ∀ va, dstva ≤ va → va < dstva + src.length → Spared (sys.tables p) va

/-- And the access comes to no null pointer: a page fault in the area of a file has memory for the page, and `copyout` finds
a table for each page. -/
def Spares (sys : System) (a : Access) : Prop := toNull (sys.access a) = false ∧ sys.KeepsOff a

/-- What `uvmcopy` establishes between the two and every write keeps. -/
structure Forked (src dst : Fin NPROC) (sys : System) : Prop where
  inv : sys.Inv
  excl : Excl (sys.tables src) (sys.tables dst)

variable {sys : System}

theorem refs_le_rest {p q : Fin NPROC} (hne : q ≠ p) (f : Nat) (u : Use) : (sys.tables q).refs f u ≤ sys.rest p f u := by
  have hle := le_total (fun pt : PageTable => pt.refs f u) (update sys.tables p uvmcreate) q
  simp only [update_of_ne hne] at hle
  rw [rest]
  omega

theorem Inv.beside (h : sys.Inv) {p q : Fin NPROC} (hne : q ≠ p) (hexcl : Excl (sys.tables p) (sys.tables q)) :
    Beside sys.phys (sys.tables p) (sys.tables q) (sys.rest p) :=
  ⟨h.held p, fun f u => refs_le_rest hne f u, hexcl⟩

theorem access_unseen {p q : Fin NPROC} (hne : q ≠ p) (hinv : sys.Inv) (hexcl : Excl (sys.tables p) (sys.tables q))
    {a : Access} (hp : a.proc = p) (hspare : sys.KeepsOff a) :
    Ensures (sys.access a) Anyhow fun sys' => ∃ k pt, sys' = sys.setTable k p pt ∧
      Unseen sys.phys (sys.tables p) (sys.tables q) (sys.rest p) k pt := by
  have hbeside := hinv.beside hne hexcl
  subst hp
  cases a with
  | store p files mm va byte =>
    refine .bind (store_unseen files mm va byte hbeside) ?_
    exact fun r hr => .ok ⟨_, _, rfl, hr⟩
  | copyout p files mm dstva src =>
    refine .bind (copyoutLoop_unseen files mm _ dstva src hbeside hspare) ?_
    exact fun r hr => .ok ⟨_, _, rfl, hr⟩

/-- One access: both processes are as apart as before, and the other one reads what it read. -/
theorem access_forked {src dst : Fin NPROC} (hne : src ≠ dst) (h : Forked src dst sys) {a : Access}
    {sys' : System} (hstep : Guarded (AccessStep src dst) Spares sys a sys') :
    Forked src dst sys' ∧ ∀ q, (q = src ∨ q = dst) → q ≠ a.proc → ∀ va,
      load sys'.phys (sys'.tables q) va = load sys.phys (sys.tables q) va := by
  obtain ⟨⟨hnull, hspare⟩, hproc, hends⟩ := hstep
  have hstep := hends.ok hnull
  -- the same for either side: `p` writes, `q` looks
  have hside : ∀ p q : Fin NPROC, q ≠ p → a.proc = p → Excl (sys.tables p) (sys.tables q) →
      sys'.Inv ∧ Excl (sys'.tables p) (sys'.tables q) ∧
        ∀ va, load sys'.phys (sys'.tables q) va = load sys.phys (sys.tables q) va := by
    intro p q hqp hp hexcl
    obtain ⟨k, pt, rfl, hun⟩ := (access_unseen hqp h.inv hexcl hp hspare).of_ok hstep
    have hpt : (sys.setTable k p pt).tables p = pt := update_self _ _ _
    have hq : (sys.setTable k p pt).tables q = sys.tables q := update_of_ne hqp _ _
    rw [hpt, hq]
    exact ⟨inv_setTable hun.beside.held fun r _ => h.inv.valid r, hun.beside.excl, fun va => hun.sees.load va⟩
  obtain hp | hp := hproc
  · obtain ⟨hinv, hexcl, hload⟩ := hside src dst hne.symm hp h.excl
    refine ⟨⟨hinv, hexcl⟩, fun q hq hqa => ?_⟩
    obtain rfl | rfl := hq
    · exact absurd hp.symm hqa
    · exact hload
  · obtain ⟨hinv, hexcl, hload⟩ := hside dst src hne hp h.excl.symm
    refine ⟨⟨hinv, hexcl.symm⟩, fun q hq hqa => ?_⟩
    obtain rfl | rfl := hq
    · exact hload
    · exact absurd hp.symm hqa

/-- `uvmcopy` into an empty address space, without shared areas. -/
theorem fork_forked {sys' : System} (h : sys.Inv) {vmas : List vma} {src dst : Fin NPROC}
    (hempty : sys.tables dst = uvmcreate) (hshared : ∀ v ∈ vmas, v.perm &&& PERM_SHARED = 0)
    (hfork : sys.Step (.uvmcopy vmas src dst) sys') : Forked src dst sys' := by
  obtain ⟨hlegal, hnext⟩ := hfork
  refine ⟨(next_inv h _ hlegal).of_ok hnext, ?_⟩
  obtain ⟨hne, hal⟩ := hlegal
  have hdst := h.held dst
  rw [← sys.setTable_self src, rest_setTable sys sys.phys hne] at hdst
  rw [setTable_self, hempty] at hdst
  have hcopy := @uvmcopy_excl sys.phys (sys.tables src) uvmcreate vmas _ hal hshared ⟨hdst, h.valid src⟩
    (excl_uvmcreate _)
  have hexcl : Ensures (sys.next (.uvmcopy vmas src dst)) Anyhow fun sys' =>
      Excl (sys'.tables src) (sys'.tables dst) := by
    rw [← hempty] at hcopy
    refine .bind hcopy ?_
    rintro ⟨k, spt, dpt, ok⟩ hr
    refine .ok ?_
    show Excl (update (update sys.tables src spt) dst dpt src)
      (update (update sys.tables src spt) dst dpt dst)
    rw [update_of_ne hne, update_self, update_self]
    exact hr
  exact hexcl.of_ok hnext

/-- **Fork isolation.**  After a fork of a process without shared areas, and after any writes in parent and
child that come to no null pointer and in which `copyout` keeps off the pages they share for reading only, a write in one
of them does not change what a load in the other returns. -/
theorem fork_isolation {boot sys forked sys₁ sys₂ : System} {es : List Event} (hboot : boot.Boot)
    (hreach : Run Step boot es sys) {vmas : List vma} {src dst : Fin NPROC} (hempty : sys.tables dst = uvmcreate)
    (hshared : ∀ v ∈ vmas, v.perm &&& PERM_SHARED = 0) (hfork : sys.Step (.uvmcopy vmas src dst) forked)
    {as : List Access} (hrun : Run (Guarded (AccessStep src dst) Spares) forked as sys₁) {a : Access}
    (hstep : Guarded (AccessStep src dst) Spares sys₁ a sys₂) {q : Fin NPROC} (hq : q = src ∨ q = dst)
    (hother : q ≠ a.proc) (va : Nat) :
    load sys₂.phys (sys₂.tables q) va = load sys₁.phys (sys₁.tables q) va := by
  have hforked := fork_forked (inv_of_run hboot hreach) hempty hshared hfork
  have hkept : Forked src dst sys₁ := by
    refine hrun.invariant (fun s b s' hs hb => ?_) hforked
    exact (access_forked hfork.1.1 hs hb).1
  exact (access_forked hfork.1.1 hkept hstep).2 q hq hother va

/-! ## Two forks -/

instance (pt : PageTable) (va : Nat) : Decidable (Spared pt va) :=
  decidable_of_iff (sharedReadonly (pt.leafAt (place va .COMMONPAGE)).flags = false ∧
      sharedReadonly (pt.leafAt (place va .SUPERPAGE)).flags = false)
    ⟨fun h level => by cases level with | COMMONPAGE => exact h.1 | SUPERPAGE => exact h.2,
      fun h => ⟨h .COMMONPAGE, h .SUPERPAGE⟩⟩

instance decidableKeepsOff (sys : System) (a : Access) : Decidable (sys.KeepsOff a) := by
  cases a <;> (unfold KeepsOff; infer_instance)

instance decidableSpares (sys : System) (a : Access) : Decidable (sys.Spares a) :=
  inferInstanceAs (Decidable (_ ∧ _))

/-- A write in one of the two that returns. -/
def accessStep (src dst : Fin NPROC) (sys : System) (a : Access) : Option System :=
  if a.proc = src ∨ a.proc = dst then (sys.access a).toOption else none

theorem accessStep_of_some {src dst : Fin NPROC} {sys sys' : System} {a : Access}
    (h : accessStep src dst sys a = some sys') : AccessStep src dst sys a sys' := by
  unfold accessStep at h
  split at h
  · next hproc => exact ⟨hproc, .inl (ok_of_toOption h)⟩
  · cases h

/-- A write that spares the shared read-only pages. -/
def sparedStep (src dst : Fin NPROC) (sys : System) (a : Access) : Option System :=
  if sys.Spares a then accessStep src dst sys a else none

theorem guarded_of_sparedStep {src dst : Fin NPROC} {sys sys' : System} {a : Access}
    (h : sparedStep src dst sys a = some sys') : Guarded (AccessStep src dst) Spares sys a sys' := by
  unfold sparedStep at h
  split at h
  · next hspare => exact ⟨hspare, accessStep_of_some h⟩
  · cases h

theorem tables_of_uvmalloc {sys sys' : System} {p q : Fin NPROC} (hne : q ≠ p) {startva endva : Nat} {perm : Flags}
    (h : sys.next (.uvmalloc p startva endva perm) = .ok sys') : sys'.tables q = sys.tables q := by
  simp only [next] at h
  cases halloc : Vm.uvmalloc sys.phys (sys.tables p) startva endva perm with
  | error e =>
    rw [halloc] at h
    cases h
  | ok r =>
    rw [halloc] at h
    cases h
    exact update_of_ne hne _ _

/-- Two pages, as program text or as writable memory. -/
def pages (perm : Nat) : vma := ⟨.VMA_TEXT, 0x10000, 0x2000, perm, 0, none⟩

def space (perm : Nat) : mm_struct := ⟨fun _ => pages perm, fun _ => true, [0], 0x400000, 0x400000, none⟩

/-- The states of a run: `parent` maps its pages and forks `child`, the two make the writes `as`, and then `a`. -/
def forkRun (parent child : Fin NPROC) (flags : Flags) (perm : Nat) (as : List Access) (a : Access)
    (step : System → Access → Option System) : Option (System × System × System × System) :=
  (allowedStep (booted ((List.range 8).map fun i => some (i + 1))) (.uvmalloc parent 0x10000 0x12000 flags)).bind
    fun sys => (allowedStep sys (.uvmcopy [pages perm] parent child)).bind fun forked =>
      (exec step forked as).bind fun sys₁ => (step sys₁ a).map fun sys₂ => (sys, forked, sys₁, sys₂)

/-- What the states of such a run are to each other. -/
theorem of_forkRun {parent child : Fin NPROC} {flags : Flags} {perm : Nat} {as : List Access} {a : Access}
    {step : System → Access → Option System} {sys forked sys₁ sys₂ : System}
    (h : forkRun parent child flags perm as a step = some (sys, forked, sys₁, sys₂)) :
    Step (booted ((List.range 8).map fun i => some (i + 1))) (.uvmalloc parent 0x10000 0x12000 flags) sys ∧
      Step sys (.uvmcopy [pages perm] parent child) forked ∧
      Run (fun s b s' => step s b = some s') forked as sys₁ ∧ step sys₁ a = some sys₂ := by
  obtain ⟨t, hsys, h⟩ := Option.bind_eq_some_iff.mp h
  obtain ⟨t', hforked, h⟩ := Option.bind_eq_some_iff.mp h
  obtain ⟨t₁, hrun, h⟩ := Option.bind_eq_some_iff.mp h
  obtain ⟨t₂, hstep, h⟩ := Option.map_eq_some_iff.mp h
  simp only [Prod.mk.injEq] at h
  obtain ⟨rfl, rfl, rfl, rfl⟩ := h
  exact ⟨step_of_allowedStep hsys, step_of_allowedStep hforked, run_of_exec _ _ _ hrun, hstep⟩

/-- The child stores to a page, and then the kernel copies bytes to the same page of the parent. -/
theorem fork_isolation_both_write : ∃ sys forked sys₁ sys₂, Step (booted ((List.range 8).map fun i => some (i + 1)))
      (.uvmalloc 0 0x10000 0x12000 PTE_W) sys ∧ Step sys (.uvmcopy [pages 3] 0 1) forked ∧
    Run (Guarded (AccessStep 0 1) Spares) forked [.store 1 (fun _ _ => none) (space 3) 0x10001 7] sys₁ ∧
    Guarded (AccessStep 0 1) Spares sys₁ (.copyout 0 (fun _ _ => none) (space 3) 0x10000 [8, 9]) sys₂ ∧
    load sys₂.phys (sys₂.tables 1) 0x10001 = load sys₁.phys (sys₁.tables 1) 0x10001 ∧
    load sys₂.phys (sys₂.tables 0) 0x10001 = some 9 := by
  have hsome : ((forkRun 0 1 PTE_W 3 [.store 1 (fun _ _ => none) (space 3) 0x10001 7]
      (.copyout 0 (fun _ _ => none) (space 3) 0x10000 [8, 9]) (sparedStep 0 1)).map fun s =>
        load s.2.2.2.phys (s.2.2.2.tables 0) 0x10001) = some (some 9) := by
    decide +kernel
  obtain ⟨⟨sys, forked, sys₁, sys₂⟩, hrun, hload⟩ := Option.map_eq_some_iff.mp hsome
  obtain ⟨hsetup, hfork, hwrites, hlast⟩ := of_forkRun hrun
  have hwrites := hwrites.mono fun _ _ _ => guarded_of_sparedStep
  have hlast := guarded_of_sparedStep hlast
  have hempty : sys.tables 1 = uvmcreate := tables_of_uvmalloc (by decide) hsetup.2
  exact ⟨sys, forked, sys₁, sys₂, hsetup, hfork, hwrites, hlast,
    fork_isolation ⟨fun _ => rfl, fun _ => rfl, fun _ => rfl, fun _ => rfl⟩ (.cons hsetup (.nil _)) hempty
      (by decide) hfork hwrites hlast (.inr rfl) (by decide) 0x10001, hload⟩

/-- Program text is shared for reading only, and `copyout` to it in the child changes the parent's text. -/
theorem copyout_into_shared_text : ∃ sys forked sys₁ sys₂,
    Step (booted ((List.range 8).map fun i => some (i + 1))) (.uvmalloc 0 0x10000 0x12000 PTE_X) sys ∧
    sys.tables 1 = uvmcreate ∧ (∀ v ∈ [pages 5], v.perm &&& PERM_SHARED = 0) ∧
    Step sys (.uvmcopy [pages 5] 0 1) forked ∧ Run (AccessStep 0 1) forked [] sys₁ ∧
    AccessStep 0 1 sys₁ (.copyout 1 (fun _ _ => none) (space 5) 0x10000 [7, 8]) sys₂ ∧
    load sys₂.phys (sys₂.tables 0) 0x10001 ≠ load sys₁.phys (sys₁.tables 0) 0x10001 := by
  have hsome : ((forkRun 0 1 PTE_X 5 [] (.copyout 1 (fun _ _ => none) (space 5) 0x10000 [7, 8])
      (accessStep 0 1)).map fun s => (load s.2.2.2.phys (s.2.2.2.tables 0) 0x10001,
        load s.2.2.1.phys (s.2.2.1.tables 0) 0x10001)) = some (some 8, some 0) := by
    decide +kernel
  obtain ⟨⟨sys, forked, sys₁, sys₂⟩, hrun, hload⟩ := Option.map_eq_some_iff.mp hsome
  obtain ⟨hsetup, hfork, hwrites, hlast⟩ := of_forkRun hrun
  have hempty : sys.tables 1 = uvmcreate := tables_of_uvmalloc (by decide) hsetup.2
  rw [Prod.mk.injEq] at hload
  refine ⟨sys, forked, sys₁, sys₂, hsetup, hempty, by decide, hfork, hwrites.mono fun _ _ _ => accessStep_of_some,
    accessStep_of_some hlast, ?_⟩
  rw [hload.1, hload.2]
  decide

end System

end LostWakeup.Mm.Vm
