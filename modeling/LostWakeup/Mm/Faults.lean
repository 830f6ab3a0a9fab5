/-
# LostWakeup.Mm.Faults — which page faults are resolved.

`pagefault` returns 0 without a look at what it has done: `uvmalloc` may have failed, and a page that is copied on
writing need not have the permission that the fault was about.  The offset of a page in its file is cut down to a
`uint`.  What a fault takes from the allocator is counted in answers, one for each call of `kmalloc` that finds memory.
-/
import LostWakeup.Mm.Remap

namespace LostWakeup.Mm.Vm

open Library
open Function (update update_of_ne update_self)
open Mm.Vma (PGSIZE SUPERPGSIZE PGROUNDUP PGROUNDDOWN SUPERPG_ROUNDUP PERM_READ PERM_WRITE PERM_EXEC vma
  mm_struct find_vma_for_va)

/-! ## The answers of the allocator -/

/-- How many calls of `kmalloc` find memory before the first that does not. -/
def answers (k : Phys) : Nat := (k.pool.takeWhile Option.isSome).length

/-- The allocator has handed out a frame that was not free. -/
def Misled (e : Panic) : Prop := e = .block_in_use

/-- A step needs `m` blocks: with `ok` it has taken them, without there were too few. -/
structure Takes (m : Nat) (k : Phys) (ok : Bool) (k' : Phys) : Prop where
  taken : ok = true → answers k = m + answers k'
  short : ok = false → answers k < m

theorem Takes.none (k : Phys) : Takes 0 k true k := ⟨fun _ => (Nat.zero_add _).symm, nofun⟩

section

variable {k : Phys} {pt : PageTable} {ext own : Holders} {va : Nat}

theorem kmalloc_takes (h : Counted k own) (order : Nat) :
    Ensures (kmalloc k order) Misled fun r => Takes 1 k r.2.isSome r.1 ∧ r.1.mem = k.mem ∧
      (r.2 = none → r.1.refcnt = k.refcnt) ∧ ∀ page, r.2 = some page → some page ∈ k.pool := by
  have hcounted := kmalloc_counted h order
  unfold kmalloc at hcounted ⊢
  rcases hpool : k.pool with _ | ⟨_ | page, pool⟩
  · refine .ok ⟨⟨fun hok => (by cases hok), fun _ => ?_⟩, rfl, fun _ => rfl, fun page hpage => by cases hpage⟩
    rw [answers, hpool]
    exact Nat.zero_lt_one
  · refine .ok ⟨⟨fun hok => (by cases hok), fun _ => ?_⟩, rfl, fun _ => rfl, fun page hpage => by cases hpage⟩
    rw [answers, hpool]
    exact Nat.zero_lt_one
  · rw [hpool] at hcounted
    dsimp only at hcounted ⊢
    split
    · exact .error rfl
    next hany =>
      rw [if_neg hany] at hcounted
      split
      next hne =>
        rw [if_pos hne] at hcounted
        cases hcounted with
        | error he => cases he
      next =>
        refine .ok ⟨⟨fun _ => ?_, fun hok => (by cases hok)⟩, rfl, fun hnone => (by cases hnone), fun page' hpage => ?_⟩
        · rw [answers, hpool]
          exact Nat.add_comm _ 1
        · cases hpage
          exact List.mem_cons_self

theorem kzalloc_takes (h : Counted k own) (order : Nat) :
    Ensures (kzalloc k order) Misled fun r => Takes 1 k r.2.isSome r.1 ∧ (r.2 = none → r.1.refcnt = k.refcnt) ∧
      ∀ page, r.2 = some page → some page ∈ k.pool ∧ r.1.mem page = fun _ => 0 := by
  unfold kzalloc
  refine .bind (kmalloc_takes h order) ?_
  rintro ⟨k', mem⟩ ⟨htakes, -, hrefcnt, hpool⟩
  cases mem with
  | none => exact .ok ⟨htakes, hrefcnt, fun page hpage => by cases hpage⟩
  | some page =>
    refine .ok ⟨⟨htakes.taken, htakes.short⟩, fun hnone => (by cases hnone), fun page' hpage => ?_⟩
    cases hpage
    refine ⟨hpool page rfl, ?_⟩
    show (if inBlock page order page = true then fun _ => 0 else k'.mem page) = fun _ => 0
    rw [if_pos (inBlock_self page order)]

theorem Takes.trans {m m' : Nat} {k' k'' : Phys} {ok : Bool} (h : Takes m k true k') (h' : Takes m' k' ok k'') :
    Takes (m + m') k ok k'' := by
  have htaken := h.taken rfl
  refine ⟨fun hok => ?_, fun hok => ?_⟩
  · have := h'.taken hok
    omega
  · have := h'.short hok
    omega

theorem Takes.fail {m m' : Nat} {k' : Phys} (h : Takes m k false k') : Takes (m + m') k false k' := by
  refine ⟨fun hok => (by cases hok), fun _ => ?_⟩
  have := h.short rfl
  omega

/-- The pages of the table that are missing on the way to `va`. -/
def rootMissing (pt : PageTable) (va : Nat) : Nat := if (pt.roots (rootOf va)).isNone then 1 else 0

def tableMissing (pt : PageTable) (va : Nat) : Nat :=
  match pt.dir (region va) with
  | .none => 1
  | _ => 0

theorem walkRoot_takes (h : Held k pt ext) (va : Nat) :
    Ensures (walkRoot k pt va) Misled fun r => Takes (rootMissing pt va) k r.2.2 r.1 := by
  unfold walkRoot rootMissing
  cases pt.roots (rootOf va) with
  | some page => exact .ok (.none k)
  | none =>
    refine .bind (kzalloc_takes h.1 0) ?_
    rintro ⟨k', page⟩ ⟨htakes, -⟩
    cases page with
    | none => exact .ok htakes
    | some page => exact .ok htakes

theorem walkTable_takes (h : Held k pt ext) (va : Nat) :
    Ensures (walkTable k pt va .COMMONPAGE) Misled fun r => Takes (tableMissing pt va) k r.2.2 r.1 := by
  unfold tableMissing
  cases hd : pt.dir (region va) with
  | none =>
    simp only [walkTable, hd]
    refine .bind (kzalloc_takes h.1 0) ?_
    rintro ⟨k', page⟩ ⟨htakes, -⟩
    cases page with
    | none => exact .ok htakes
    | some page => exact .ok htakes
  | table page ptes =>
    simp only [walkTable, hd]
    exact .ok (.none k)
  | leaf pte =>
    simp only [walkTable, hd]
    exact .ok (.none k)

theorem mapEntry_returns (pfn : Nat) (perm : Flags) {level : Level} (h : Room pt va level) :
    ∃ pt', mapEntry pt va pfn perm level = .ok pt' := by
  unfold mapEntry
  cases level with
  | SUPERPAGE =>
    have hd : pt.dir (region va) = .none := h
    rw [hd]
    exact ⟨_, rfl⟩
  | COMMONPAGE =>
    obtain ⟨page, ptes, hd, hv⟩ := h
    rw [hd]
    dsimp only
    rw [if_neg (by rw [hv]; decide)]
    exact ⟨_, rfl⟩

/-- A turn of `mappages` for a 4K page. -/
theorem mapOne_takes (h : Held k pt ext) (hmax : va < MAXVA) (hvacant : Vacant pt va .COMMONPAGE) (pfn : Nat) (perm : Flags) :
    Ensures (mapOne k pt va pfn perm .COMMONPAGE) Misled fun r =>
      Takes (rootMissing pt va + tableMissing pt va) k r.2.2 r.1 := by
  have hleaf₁ := walkRoot_leafAt k pt va
  have hdir₁ := walkRoot_dir k pt va
  have hheld₁ := walkRoot_held h va
  have htakes₁ := walkRoot_takes h va
  unfold mapOne
  rw [if_neg hmax.not_ge]
  cases hroot : walkRoot k pt va with
  | error e => exact .error (htakes₁.of_error hroot)
  | ok r =>
    obtain ⟨k₁, pt₁, ok₁⟩ := r
    have htakes₁ := htakes₁.of_ok hroot
    have hheld₁ : Held k₁ pt₁ ext := hheld₁.of_ok hroot
    have hdir₁ : pt₁.dir = pt.dir := hdir₁.of_ok hroot
    have hleaf₁ : pt₁.leafAt = pt.leafAt := (hleaf₁.of_ok hroot).2
    rw [ok_bind]
    dsimp only at htakes₁ ⊢
    cases ok₁ with
    | false =>
      rw [if_pos rfl]
      exact .ok htakes₁.fail
    | true =>
      rw [if_neg Bool.true_eq_false.mp]
      have hvacant₁ : Vacant pt₁ va .COMMONPAGE := fun hfound => hvacant ((foundAt_congr hleaf₁ va).mp hfound)
      have htable : tableMissing pt₁ va = tableMissing pt va := by rw [tableMissing, tableMissing, hdir₁]
      have htakes₂ := walkTable_takes hheld₁ va
      have hroom₂ := walkTable_room k₁ hheld₁.2 hvacant₁
      rw [htable] at htakes₂
      cases hwalk : walkTable k₁ pt₁ va .COMMONPAGE with
      | error e => exact .error (htakes₂.of_error hwalk)
      | ok r =>
        obtain ⟨k₂, pt₂, ok₂⟩ := r
        have htakes₂ := htakes₂.of_ok hwalk
        have hroom₂ := (hroom₂.of_ok hwalk).2.2
        rw [ok_bind]
        dsimp only at htakes₂ hroom₂ ⊢
        cases ok₂ with
        | false =>
          rw [if_pos rfl]
          exact .ok (htakes₁.trans htakes₂)
        | true =>
          rw [if_neg Bool.true_eq_false.mp]
          obtain ⟨pt₃, hentry⟩ := mapEntry_returns pfn perm (hroom₂ rfl)
          rw [hentry]
          exact .ok (htakes₁.trans htakes₂)

/-- The blocks that a 4K page at `va` needs. -/
def pagesMissing (pt : PageTable) (va : Nat) : Nat := 1 + (rootMissing pt va + tableMissing pt va)

/-- What `uvmalloc` of one page has done: a zeroed frame is behind it, or nothing is. -/
def PageOrNone (k : Phys) (pt : PageTable) (va : Nat) (perm : Flags) (k' : Phys) (pt' : PageTable) : Prop :=
  (pagesMissing pt va ≤ answers k ∧ ∃ mem, some mem ∈ k.pool ∧ k'.mem mem = (fun _ => 0) ∧
    pt'.leafAt = update pt.leafAt (place va .COMMONPAGE) ⟨mem, allocFlags perm⟩) ∨
  (answers k < pagesMissing pt va ∧ pt'.leafAt = pt.leafAt)

theorem uvmalloc_page_or_none (h : Held k pt ext) (hal : va % PGSIZE = 0) (hmax : va < MAXVA)
    (hvacant : Vacant pt va .COMMONPAGE) (perm : Flags) :
    Ensures (uvmalloc k pt va (va + PGSIZE) perm) Misled fun r => PageOrNone k pt va perm r.1 r.2.1 := by
  rw [uvmalloc_page k pt hal hmax]
  refine .map (Q := fun r => PageOrNone k pt va perm r.1 r.2.1) ?_ fun r hr => hr
  have htakes₁ := kzalloc_takes h.1 0
  have hcount₁ := kzalloc_counted h.1 0
  unfold allocLoop
  cases hz : kzalloc k Level.COMMONPAGE.order with
  | error e => exact .error (htakes₁.of_error hz)
  | ok r =>
    obtain ⟨k₁, mem⟩ := r
    obtain ⟨htakes₁, -, hmem₁⟩ := htakes₁.of_ok hz
    have hgrant := hcount₁.of_ok hz
    rw [ok_bind]
    cases mem with
    | none =>
      dsimp only
      rw [uvmdealloc_self, ok_bind]
      refine .ok (.inr ⟨?_, rfl⟩)
      have := htakes₁.short rfl
      rw [pagesMissing]
      omega
    | some mem =>
      obtain ⟨hpool, hzeros⟩ := hmem₁ mem rfl
      have htaken := htakes₁.taken rfl
      have hcount : Counted k₁ (bump (fun f u => pt.refs f u + ext f u) mem (place va .COMMONPAGE)) :=
        hgrant.1 _ (place_order va .COMMONPAGE)
      have h₁ : Held k₁ pt (bump ext mem (place va .COMMONPAGE)) :=
        ⟨hcount.own_eq fun f u => (Nat.add_assoc _ _ _).symm, h.2⟩
      dsimp only at htaken ⊢
      rw [show Level.COMMONPAGE.pgsize = PGSIZE from rfl]
      rw [show mappages k₁ pt va PGSIZE mem (PTE_R ||| PTE_U ||| perm) .COMMONPAGE = _ from mappages_one .COMMONPAGE hal mem _]
      have htakes₂ := mapOne_takes h₁ hmax hvacant mem (PTE_R ||| PTE_U ||| perm)
      have hleaf₂ := mapOne_leafAt k₁ pt va mem (PTE_R ||| PTE_U ||| perm) .COMMONPAGE
      have hheld₂ := mapOne_hands h₁ (PTE_R ||| PTE_U ||| perm)
      cases hm : mapOne k₁ pt va mem (PTE_R ||| PTE_U ||| perm) .COMMONPAGE with
      | error e => exact .error (htakes₂.of_error hm)
      | ok r =>
        obtain ⟨k₂, pt₂, ok⟩ := r
        have htakes₂ := htakes₂.of_ok hm
        obtain ⟨hgrows, hleaf⟩ := hleaf₂.of_ok hm
        rw [ok_bind]
        dsimp only at htakes₂ ⊢
        cases ok with
        | false =>
          rw [if_pos rfl]
          obtain ⟨k₃, hfreed, -, -⟩ := kfree_returns ((hheld₂.of_ok hm).2.2 rfl)
          rw [hfreed, ok_bind, uvmdealloc_self, ok_bind]
          refine .ok (.inr ⟨?_, hleaf⟩)
          have := htakes₂.short rfl
          rw [pagesMissing]
          omega
        | true =>
          rw [if_neg Bool.true_eq_false.mp, allocLoop_nil]
          refine .ok (.inl ⟨?_, mem, hpool, ?_, hleaf⟩)
          · have := htakes₂.taken rfl
            rw [pagesMissing]
            omega
          · -- the pages of the table are other blocks
            obtain ⟨use, hc⟩ := hcount
            have hpos : 0 < bump (fun f u => pt.refs f u + ext f u) mem (place va .COMMONPAGE) mem (place va .COMMONPAGE) := by
              simp [bump]
            obtain ⟨-, hrefcnt⟩ := hc.use_eq hpos
            have hbusy : k₁.busy mem = true := hc.busy mem mem (by omega) (inBlock_self _ _)
            rw [(hgrows mem hbusy).2, hzeros]

end

/-! ## The property -/

/-- The access goes through. -/
def Permits (cause : Cause) (flags : Flags) : Bool :=
  match cause with
  | .STORE_PAGEFAULT => flags.has PTE_W
  | .LOAD_PAGEFAULT => flags.has PTE_R
  | .INSTUCTION_PAGEFAULT => flags.has PTE_X

/-- A file ends somewhere; `i_size` is an `int`. -/
def Sized (files : Files) : Prop := ∀ file, ∃ size, size < 2 ^ 31 ∧ ∀ x, (files file x).isSome = true ↔ x < size

/-- The access that faulted goes through now, and a page of a file that was not there holds its bytes. -/
def Resolved (files : Files) (v : vma) (cause : Cause) (pt : PageTable) (stval : Nat) (k' : Phys) (pt' : PageTable) : Prop :=
  ∃ frame flags, translate pt' stval = some (frame, flags) ∧ Permits cause flags = true ∧
    (v.type = .VMA_FILE → ¬Mapped pt stval → ∃ file, v.vm_file = some file ∧
      ∀ i, i < PGSIZE → k'.mem frame i = (files file (fileOffset v stval + i)).getD 0)

/-- A fault that is resolved is one of an area that allows the access, and one that is not leaves no trace. -/
def FaultLaw (files : Files) (mm : mm_struct) (cause : Cause) (k : Phys) (pt : PageTable) (stval : Nat) :
    Except Panic (Phys × PageTable × Bool) → Prop
  | .ok (k', pt', true) => ∃ i, find_vma_for_va mm stval = some i ∧ CHECK_PERM cause (mm.vmas i) = true ∧
      Resolved files (mm.vmas i) cause pt stval k' pt'
  | .ok (k', pt', false) => pt' = pt ∧ k'.refcnt = k.refcnt
  | .error _ => False

/-! ## The condition -/

/-- Memory is there for the page and for the table, and the offset of a page that is in the file is a `uint`. -/
def Populatable (files : Files) (v : vma) (k : Phys) (pt : PageTable) (stval : Nat) : Prop :=
  pagesMissing pt (PGROUNDDOWN stval) ≤ answers k ∧
  (v.type = .VMA_FILE → ∃ file, v.vm_file = some file ∧
    (fileOffset v stval < 2 ^ 32 ∨ ∀ i, i < PGSIZE → (files file (fileOffset v stval % 2 ^ 32 + i)).getD 0 = 0))

/-- A page that is copied has the permission already, or there is no memory for the copy. -/
def Copyable (cause : Cause) (k : Phys) (flags : Flags) : Prop :=
  is_a_cow_page flags = true → 0 < answers k → flags.has PTE_U = true ∧ Permits cause (flags ||| PTE_W) = true

/-- Nothing is behind the address. -/
def Absent (pt : PageTable) (va : Nat) : Prop := ∀ level, pt.leafAt (place va level) = Pte.zero

def Resolvable (files : Files) (mm : mm_struct) (cause : Cause) (k : Phys) (pt : PageTable) (stval : Nat) : Prop :=
  stval < MAXVA → ∀ i, find_vma_for_va mm stval = some i → CHECK_PERM cause (mm.vmas i) = true →
    (Absent pt stval → Populatable files (mm.vmas i) k pt stval) ∧
    ∀ level pte, walk pt stval = .ok (.entry level pte) → pte ≠ Pte.zero → Copyable cause k pte.flags

/-! ## A page that is not there -/

section

variable {k : Phys} {pt : PageTable} {ext : Holders} {files : Files} {stval : Nat} {v : vma} {cause : Cause}

theorem permits_alloc (h : CHECK_PERM cause v = true) : Permits cause (allocFlags (perm_vma2pte v.perm)) = true := by
  have hread : ∀ f : Flags, (allocFlags f).has PTE_R = true := by decide
  cases cause with
  | LOAD_PAGEFAULT => exact hread _
  | STORE_PAGEFAULT =>
    have h : (v.perm &&& PERM_WRITE != 0) = true := h
    have hne : v.perm &&& PERM_WRITE ≠ 0 := by simpa using h
    unfold perm_vma2pte
    rw [if_pos hne]
    split <;> split <;> rfl
  | INSTUCTION_PAGEFAULT =>
    have h : (v.perm &&& PERM_EXEC != 0) = true := h
    have hne : v.perm &&& PERM_EXEC ≠ 0 := by simpa using h
    unfold perm_vma2pte
    rw [if_pos hne]
    split <;> split <;> rfl

/-- The bytes that a read finds in the file, in a page of zeros. -/
theorem inode_read_zeroed (hfiles : Sized files) (file : Vma.File) {page : Nat} (off : Nat) (hpage : page ≠ 0)
    (hzeros : k.mem page = fun _ => 0) :
    ∃ k', inode_read k files file page off = .ok k' ∧ ∀ i, k'.mem page i = (files file (off % 2 ^ 32 + i)).getD 0 := by
  obtain ⟨size, hsize, hbytes⟩ := hfiles file
  unfold inode_read
  dsimp only
  split
  next hout =>
    refine ⟨k, rfl, fun i => ?_⟩
    have hend : size ≤ off % 2 ^ 32 + i := by
      rcases hout with hwrap | hpast
      · rw [pgsize_eq] at hwrap
        omega
      have hnot : ¬off % 2 ^ 32 < size := by
        rw [← hbytes]
        simpa using hpast
      omega
    have hnone : files file (off % 2 ^ 32 + i) = none := by
      rw [← Option.not_isSome_iff_eq_none, hbytes]
      omega
    rw [hzeros, hnone]
    rfl
  next =>
    refine ⟨_, rfl, fun i => ?_⟩
    show update k.mem page _ page i = _
    rw [update_self, hzeros]

theorem bytes_iff (hfiles : Sized files) (file : Vma.File) (off : Nat) :
    (∀ i, i < PGSIZE → (files file (off % 2 ^ 32 + i)).getD 0 = (files file (off + i)).getD 0) ↔
      off < 2 ^ 32 ∨ ∀ i, i < PGSIZE → (files file (off % 2 ^ 32 + i)).getD 0 = 0 := by
  obtain ⟨size, hsize, hbytes⟩ := hfiles file
  rcases lt_or_ge off (2 ^ 32) with hlt | hge
  · rw [Nat.mod_eq_of_lt hlt]
    exact ⟨fun _ => .inl hlt, fun _ _ _ => rfl⟩
  have hnone : ∀ i, files file (off + i) = none := by
    intro i
    rw [← Option.not_isSome_iff_eq_none, hbytes]
    omega
  constructor
  · intro h
    refine .inr fun i hi => ?_
    rw [h i hi, hnone]
    rfl
  rintro (hlt | h) i hi
  · omega
  · rw [h i hi, hnone]
    rfl

theorem Absent.not_mapped (h : Absent pt stval) : ¬Mapped pt stval := by
  rw [mapped_iff]
  rintro ⟨-, level, hv⟩
  rw [h level] at hv
  cases hv

theorem Absent.vacant (h : Absent pt stval) : Vacant pt (PGROUNDDOWN stval) .COMMONPAGE := by
  rintro ⟨level, hv⟩
  rw [place_down, h level] at hv
  cases hv

theorem translate_new {pt' : PageTable} {mem : Nat} {perm : Flags} (hmax : stval < MAXVA)
    (hleaf : pt'.leafAt = update pt.leafAt (place (PGROUNDDOWN stval) .COMMONPAGE) ⟨mem, allocFlags perm⟩) :
    translate pt' stval = some (mem, allocFlags perm) := by
  rw [place_down] at hleaf
  refine translate_iff.mpr ⟨hmax, .COMMONPAGE, ?_⟩
  rw [hleaf, update_self]
  exact ⟨rfl, allocFlags_valid perm, allocFlags_user perm, rfl⟩

/-- The branch for a page that is not there. -/
theorem populate_law (mm : mm_struct) {i : Nat} (hi : find_vma_for_va mm stval = some i) (hcheck : CHECK_PERM cause (mm.vmas i) = true)
    (hheld : Held k pt ext) (hfiles : Sized files) (hnull : some 0 ∉ k.pool) (hmax : stval < MAXVA) (habsent : Absent pt stval)
    (hfree : pagefault.populate files stval (mm.vmas i) k pt ≠ .error .block_in_use) :
    FaultLaw files mm cause k pt stval (pagefault.populate files stval (mm.vmas i) k pt) ↔
      Populatable files (mm.vmas i) k pt stval := by
  have hpage := uvmalloc_page_or_none hheld (Nat.mul_mod_left _ _) (down_lt_maxva.mpr hmax) habsent.vacant
    (perm_vma2pte (mm.vmas i).perm)
  have hnone := habsent.not_mapped
  unfold pagefault.populate at hfree ⊢
  rw [page_of_fault hmax] at hfree ⊢
  cases hu : uvmalloc k pt (PGROUNDDOWN stval) (PGROUNDDOWN stval + PGSIZE) (perm_vma2pte (mm.vmas i).perm) with
  | error e =>
    have he : e = .block_in_use := hpage.of_error hu
    rw [hu, he] at hfree
    exact absurd rfl hfree
  | ok r =>
    obtain ⟨k₁, pt₁, sz⟩ := r
    rw [ok_bind]
    dsimp only
    rcases hpage.of_ok hu with ⟨henough, mem, hpool, hzeros, hleaf⟩ | ⟨hshort, hleaf⟩
    · have htrans := @translate_new pt stval pt₁ mem _ hmax hleaf
      have hpermits := permits_alloc hcheck
      have hne : mem ≠ 0 := by
        rintro rfl
        exact hnull hpool
      by_cases hfile : (mm.vmas i).type = .VMA_FILE
      · rw [if_pos hfile]
        cases hvm : (mm.vmas i).vm_file with
        | none =>
          refine ⟨fun h => h.elim, fun h => ?_⟩
          obtain ⟨file, hsome, -⟩ := h.2 hfile
          rw [hvm] at hsome
          cases hsome
        | some file =>
          have haddr : (walkaddr pt₁ stval).getD 0 = mem := by
            rw [walkaddr_eq, htrans]
            rfl
          obtain ⟨k₂, hread, hbytes⟩ := inode_read_zeroed hfiles file (fileOffset (mm.vmas i) stval) hne hzeros
          have hread : inode_read k₁ files file mem (sub64 (add64 (mm.vmas i).offset (PGROUNDDOWN stval)) (mm.vmas i).startva)
              = .ok k₂ := hread
          dsimp only
          rw [haddr, hread, ok_bind]
          have hiff := bytes_iff hfiles file (fileOffset (mm.vmas i) stval)
          constructor
          · rintro ⟨i', hi', -, frame, flags, htrans', -, hfilled⟩
            rw [hi] at hi'
            cases hi'
            rw [htrans] at htrans'
            cases htrans'
            obtain ⟨file', hsome, hsame⟩ := hfilled hfile hnone
            rw [hvm] at hsome
            cases hsome
            refine ⟨henough, fun _ => ⟨file, hvm, hiff.mp fun j hj => ?_⟩⟩
            rw [← hbytes, hsame j hj]
          · rintro ⟨-, hreach⟩
            obtain ⟨file', hsome, hoff⟩ := hreach hfile
            rw [hvm] at hsome
            cases hsome
            refine ⟨i, hi, hcheck, mem, _, htrans, hpermits, fun _ _ => ⟨file, hvm, fun j hj => ?_⟩⟩
            rw [hbytes, hiff.mpr hoff j hj]
      · rw [if_neg hfile]
        refine ⟨fun _ => ⟨henough, fun h => absurd h hfile⟩, fun _ => ?_⟩
        exact ⟨i, hi, hcheck, mem, _, htrans, hpermits, fun h => absurd h hfile⟩
    · have htrans : translate pt₁ stval = none := by
        apply translate_none
        intro level
        rw [hleaf]
        exact habsent level
      have hlaw : ∀ k₂, ¬FaultLaw files mm cause k pt stval (.ok (k₂, pt₁, true)) := by
        rintro k₂ ⟨i', -, -, frame, flags, htrans', -⟩
        rw [htrans] at htrans'
        cases htrans'
      have hcond : ¬Populatable files (mm.vmas i) k pt stval := fun h => absurd h.1 hshort.not_ge
      by_cases hfile : (mm.vmas i).type = .VMA_FILE
      · rw [if_pos hfile]
        cases (mm.vmas i).vm_file with
        | none => exact ⟨fun h => h.elim, fun h => absurd h hcond⟩
        | some file =>
          dsimp only
          cases inode_read k₁ files file ((walkaddr pt₁ stval).getD 0)
              (sub64 (add64 (mm.vmas i).offset (PGROUNDDOWN stval)) (mm.vmas i).startva) with
          | error e => exact ⟨fun h => h.elim, fun h => absurd h hcond⟩
          | ok k₂ => exact ⟨fun h => absurd h (hlaw k₂), fun h => absurd h hcond⟩
      · rw [if_neg hfile]
        exact ⟨fun h => absurd h (hlaw k₁), fun h => absurd h hcond⟩

/-! ## A page that is copied -/

theorem cow_returns {level : Level} {pte : Pte} (hheld : Held k pt ext) (hwalk : walk pt stval = .ok (.entry level pte))
    (hv : pte.flags.has PTE_V = true) (hfree : cow k pt stval level pte ≠ .error .block_in_use) :
    (answers k = 0 ∧ ∃ k', cow k pt stval level pte = .ok (k', pt, false) ∧ k'.refcnt = k.refcnt) ∨
    (0 < answers k ∧ ∃ k' mem, cow k pt stval level pte = .ok (k', pt.set stval ⟨mem, pte.flags ||| PTE_W⟩, true)) := by
  have htakes := kmalloc_takes hheld.1 level.order
  have hcount := kmalloc_counted hheld.1 level.order
  unfold cow at hfree ⊢
  cases hm : kmalloc k level.order with
  | error e =>
    have he : e = .block_in_use := htakes.of_error hm
    rw [hm, he] at hfree
    exact absurd rfl hfree
  | ok r =>
    obtain ⟨k₁, mem⟩ := r
    obtain ⟨htakes, -, hrefcnt, -⟩ := htakes.of_ok hm
    have hgrant := hcount.of_ok hm
    rw [ok_bind]
    cases mem with
    | none =>
      have hshort := htakes.short rfl
      exact .inl ⟨by omega, k₁, rfl, hrefcnt rfl⟩
    | some mem =>
      have htaken := htakes.taken rfl
      obtain ⟨k₂, hfreed, -, -⟩ := kfree_returns (cow_bump hwalk hv hgrant)
      dsimp only
      rw [hfreed, ok_bind]
      exact .inr ⟨by omega, k₂, mem, rfl⟩

theorem cow_law (mm : mm_struct) {i : Nat} (hi : find_vma_for_va mm stval = some i)
    (hcheck : CHECK_PERM cause (mm.vmas i) = true) {level : Level} {pte : Pte} (hheld : Held k pt ext)
    (hwalk : walk pt stval = .ok (.entry level pte)) (hv : pte.flags.has PTE_V = true)
    (hfree : cow k pt stval level pte ≠ .error .block_in_use) :
    FaultLaw files mm cause k pt stval (cow k pt stval level pte) ↔
      (0 < answers k → pte.flags.has PTE_U = true ∧ Permits cause (pte.flags ||| PTE_W) = true) := by
  rcases cow_returns hheld hwalk hv hfree with ⟨hzero, k', hret, hrefcnt⟩ | ⟨hpos, k', mem, hret⟩
  · rw [hret]
    exact ⟨fun _ hpos => absurd hpos (by omega), fun _ => ⟨rfl, hrefcnt⟩⟩
  rw [hret]
  have hmax := (dir_of_walk hwalk).1
  have hleaf := leafAt_set hwalk ⟨mem, pte.flags ||| PTE_W⟩
  have hbits : ∀ f : Flags, f.has PTE_V = true → (f ||| PTE_W).has PTE_V = true ∧ (f ||| PTE_W).has PTE_U = f.has PTE_U := by
    decide
  obtain ⟨hv', hu'⟩ := hbits pte.flags hv
  constructor
  · rintro ⟨i', -, -, frame, flags, htrans, hpermits, -⟩ -
    obtain ⟨-, level', hflags, hval, hu, -⟩ := translate_iff.mp htrans
    rw [hleaf] at hflags
    rcases eq_or_ne level' level with rfl | hne
    · rw [update_self] at hflags
      subst hflags
      exact ⟨hu'.symm.trans hu, hpermits⟩
    · -- at the other size there is nothing
      have hother : place stval level' ≠ place stval level := by
        cases level' <;> cases level <;> first | exact absurd rfl hne | (intro h; cases h)
      rw [update_of_ne hother, leafAt_of_walk_ne hwalk hne] at hflags
      subst hflags
      cases hval
  · intro h
    obtain ⟨hu, hpermits⟩ := h hpos
    refine ⟨i, hi, hcheck, _, pte.flags ||| PTE_W, translate_iff.mpr ⟨hmax, level, ?_, hv', hu'.trans hu, rfl⟩, hpermits,
      fun _ hnot => absurd ⟨level, pte, hwalk, hv⟩ hnot⟩
    rw [hleaf, update_self]

end

/-! ## `pagefault` -/

theorem absent_iff {pt : PageTable} {stval : Nat} (hmax : stval < MAXVA) :
    Absent pt stval ↔ walk pt stval = .ok .null ∨ ∃ level, walk pt stval = .ok (.entry level .zero) := by
  constructor
  · intro h
    obtain ⟨found, hwalk⟩ := walk_of_lt pt hmax
    cases found with
    | null => exact .inl hwalk
    | entry level pte =>
      have hzero := h level
      rw [leafAt_of_walk hwalk] at hzero
      rw [hwalk, hzero]
      exact .inr ⟨level, rfl⟩
  · rintro (hwalk | ⟨level, hwalk⟩) level'
    · exact leafAt_of_walk_null hwalk level'
    · rcases eq_or_ne level' level with rfl | hne
      · exact leafAt_of_walk hwalk
      · exact leafAt_of_walk_ne hwalk hne

/-- **Page faults.**  A fault is resolved, or refused without a trace, if and only if memory is there for a page that
is not, its offset is a `uint`, and a page that is copied lets the access through. -/
theorem pagefault_resolves_iff {files : Files} {mm : mm_struct} {cause : Cause} {k : Phys} {pt : PageTable} {ext : Holders}
    {stval : Nat} (hheld : Held k pt ext) (hfiles : Sized files) (hnull : some 0 ∉ k.pool)
    (hfree : pagefault files mm cause k pt stval ≠ .error .block_in_use) :
    FaultLaw files mm cause k pt stval (pagefault files mm cause k pt stval) ↔ Resolvable files mm cause k pt stval := by
  have hrefused : FaultLaw files mm cause k pt stval (.ok (k, pt, false)) := ⟨rfl, rfl⟩
  unfold pagefault at hfree ⊢
  by_cases hmax : stval < MAXVA
  · have hdown : ¬PGROUNDDOWN stval ≥ MAXVA := not_le.mpr (down_lt_maxva.mpr hmax)
    rw [if_neg hdown] at hfree ⊢
    cases hfind : find_vma_for_va mm stval with
    | none =>
      refine ⟨fun _ _ i hi => ?_, fun _ => hrefused⟩
      rw [hfind] at hi
      cases hi
    | some i =>
      rw [hfind] at hfree
      dsimp only at hfree ⊢
      cases hcheck : CHECK_PERM cause (mm.vmas i) with
      | false =>
        rw [if_pos rfl]
        refine ⟨fun _ _ i' hi' hcheck' => ?_, fun _ => hrefused⟩
        rw [hfind] at hi'
        cases hi'
        rw [hcheck] at hcheck'
        cases hcheck'
      | true =>
        rw [hcheck] at hfree
        rw [if_neg Bool.true_eq_false.mp] at hfree ⊢
        -- the condition is that of the one area
        have hcond : Resolvable files mm cause k pt stval ↔ (Absent pt stval → Populatable files (mm.vmas i) k pt stval) ∧
            ∀ level pte, walk pt stval = .ok (.entry level pte) → pte ≠ Pte.zero → Copyable cause k pte.flags := by
          constructor
          · exact fun h => h hmax i hfind hcheck
          intro h _ i' hi' _
          rw [hfind] at hi'
          cases hi'
          exact h
        rw [hcond]
        obtain ⟨found, hwalk⟩ := walk_of_lt pt hmax
        rw [hwalk, ok_bind] at hfree ⊢
        cases found with
        | null =>
          dsimp only at hfree ⊢
          have habsent := (absent_iff hmax).mpr (.inl hwalk)
          rw [populate_law mm hfind hcheck hheld hfiles hnull hmax habsent hfree]
          exact ⟨fun h => ⟨fun _ => h, fun level pte hentry => by cases hentry⟩, fun h => h.1 habsent⟩
        | entry level pte =>
          dsimp only at hfree ⊢
          by_cases hzero : pte = Pte.zero
          · subst hzero
            rw [if_pos rfl] at hfree ⊢
            have habsent := (absent_iff hmax).mpr (.inr ⟨level, hwalk⟩)
            rw [populate_law mm hfind hcheck hheld hfiles hnull hmax habsent hfree]
            refine ⟨fun h => ⟨fun _ => h, fun level' pte' hentry hne => ?_⟩, fun h => h.1 habsent⟩
            cases hentry
            exact absurd rfl hne
          · rw [if_neg hzero] at hfree ⊢
            have hv := (valid_of_walk hheld.2 hwalk).resolve_left hzero
            have hpresent : ¬Absent pt stval := by
              intro habsent
              have := habsent level
              rw [leafAt_of_walk hwalk] at this
              exact hzero this
            rw [if_neg (by rw [hv]; decide)] at hfree ⊢
            cases hcow : is_a_cow_page pte.flags with
            | false =>
              rw [if_neg (by decide)]
              refine ⟨fun _ => ⟨fun h => absurd h hpresent, fun level' pte' hentry _ hcow' => ?_⟩, fun _ => hrefused⟩
              cases hentry
              rw [hcow] at hcow'
              cases hcow'
            | true =>
              rw [hcow] at hfree
              rw [if_pos rfl] at hfree ⊢
              rw [cow_law mm hfind hcheck hheld hwalk hv hfree]
              constructor
              · intro h
                refine ⟨fun h => absurd h hpresent, fun level' pte' hentry _ _ => ?_⟩
                cases hentry
                exact h
              · exact fun h => h.2 level pte rfl hzero hcow
  · have hdown : PGROUNDDOWN stval ≥ MAXVA := not_lt.mp fun hlt => hmax (down_lt_maxva.mp hlt)
    rw [if_pos hdown]
    exact ⟨fun _ hlt => absurd hlt hmax, fun _ => hrefused⟩

/-- A store to a heap of which no page is there. -/
def firstStore (pool : List (Option Nat)) : Except Panic (Phys × PageTable × Bool) :=
  pagefault (fun _ _ => none) System.heapSpace .STORE_PAGEFAULT (System.booted pool).phys uvmcreate 0x400123

theorem sized_empty : Sized fun _ _ => none := by
  intro file
  refine ⟨0, by decide, fun x => ?_⟩
  simp

theorem pagefault_resolves_iff_heap : FaultLaw (fun _ _ => none) System.heapSpace .STORE_PAGEFAULT
    (System.booted [some 1, some 2, some 3]).phys uvmcreate 0x400123 (firstStore [some 1, some 2, some 3]) := by
  have hboot : (System.booted [some 1, some 2, some 3]).Boot := ⟨fun _ => rfl, fun _ => rfl, fun _ => rfl, fun _ => rfl⟩
  have hfree : firstStore [some 1, some 2, some 3] ≠ .error .block_in_use := by
    obtain ⟨r, hr⟩ : ∃ r, firstStore [some 1, some 2, some 3] = .ok r := ⟨_, rfl⟩
    rw [hr]
    intro h
    cases h
  refine (pagefault_resolves_iff (hboot.inv.held 0) sized_empty (by decide) hfree).mpr fun _ i hi _ => ⟨fun _ => ?_, ?_⟩
  · cases hi
    exact ⟨by decide, nofun⟩
  · intro level pte hwalk
    cases hwalk

/-- Without memory 0 is returned all the same. -/
theorem store_unresolved : ¬∀ (files : Files) (mm : mm_struct) (cause : Cause) (k : Phys) (pt : PageTable) (ext : Holders)
    (stval : Nat), Held k pt ext → Sized files → some 0 ∉ k.pool → pagefault files mm cause k pt stval ≠ .error .block_in_use →
      FaultLaw files mm cause k pt stval (pagefault files mm cause k pt stval) := by
  intro hall
  have hboot : (System.booted []).Boot := ⟨fun _ => rfl, fun _ => rfl, fun _ => rfl, fun _ => rfl⟩
  have hret : firstStore [] = .ok ((System.booted []).phys, uvmcreate, true) := rfl
  have hfree : firstStore [] ≠ .error .block_in_use := by
    rw [hret]
    intro h
    cases h
  have hlaw : FaultLaw _ _ _ _ _ _ (firstStore []) :=
    hall (fun _ _ => none) System.heapSpace .STORE_PAGEFAULT _ uvmcreate _ 0x400123 (hboot.inv.held 0) sized_empty (by decide) hfree
  rw [hret] at hlaw
  obtain ⟨i, -, -, frame, flags, htrans, -⟩ := hlaw
  cases htrans

end LostWakeup.Mm.Vm
