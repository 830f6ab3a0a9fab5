/-
# LostWakeup.Mm.AddressSpaces — all page tables of the system, over whole runs.

The frames, the page tables of all processes, and the blocks that kernel code holds.  An event is one call of `uvmalloc`,
`uvmunmap`, `uvmcopy`, `pagefault`, `kmalloc` or `kfree`.
-/
import LostWakeup.Library.Count
import LostWakeup.Library.Run
import LostWakeup.Mm.PageRef

namespace LostWakeup.Mm.Vm

open Library
open Function (update update_comm update_of_ne update_self)
open Mm.Vma (PGSIZE vma mm_struct)

abbrev NPROC : Nat := 500

structure System where
  phys : Phys
  tables : Fin NPROC → PageTable
  /-- Blocks that kernel code got from `kmalloc` and has not given back, with their orders. -/
  kernel : Nat → Option Nat

inductive Event
  | uvmalloc (p : Fin NPROC) (startva endva : Nat) (perm : Flags)
  | uvmunmap (p : Fin NPROC) (va npages : Nat) (on_demand : Bool)
  | uvmcopy (vmas : List vma) (src dst : Fin NPROC)
  | pagefault (files : Files) (mm : mm_struct) (cause : Cause) (p : Fin NPROC) (stval : Nat)
  | kmalloc (order : Nat)
  | kfree (page : Nat)

namespace System

def setTable (sys : System) (k : Phys) (p : Fin NPROC) (pt : PageTable) : System :=
  { sys with phys := k, tables := update sys.tables p pt }

def next (sys : System) : Event → Except Panic System
  | .uvmalloc p startva endva perm => do
    let (k, pt, _) ← Vm.uvmalloc sys.phys (sys.tables p) startva endva perm
    return sys.setTable k p pt
  | .uvmunmap p va npages on_demand => do
    let (k, pt) ← Vm.uvmunmap sys.phys (sys.tables p) va npages true on_demand
    return sys.setTable k p pt
  | .uvmcopy vmas src dst => do
    let (k, spt, dpt, _) ← Vm.uvmcopy vmas sys.phys (sys.tables src) (sys.tables dst)
    return (sys.setTable k src spt).setTable k dst dpt
  | .pagefault files mm cause p stval => do
    let (k, pt, _) ← Vm.pagefault files mm cause sys.phys (sys.tables p) stval
    return sys.setTable k p pt
  | .kmalloc order => do
    let (k, page) ← Vm.kmalloc sys.phys order
    match page with
    | none => return { sys with phys := k }
    | some page => return { sys with phys := k, kernel := update sys.kernel page (some order) }
  | .kfree page => do
    let k ← Vm.kfree sys.phys page
    return { sys with phys := k, kernel := update sys.kernel page none }

/-- What the callers see to: a fork is between two processes and its areas begin on a page, as
`vma_map_range` asserts, and the kernel frees what it holds. -/
def Legal (sys : System) : Event → Prop
  | .uvmcopy vmas src dst => src ≠ dst ∧ ∀ v ∈ vmas, v.startva % PGSIZE = 0
  | .kfree page => (sys.kernel page).isSome = true
  | _ => True

def Step (sys : System) (e : Event) (sys' : System) : Prop := sys.Legal e ∧ sys.next e = .ok sys'

/-- Nothing is mapped and nothing allocated. -/
structure Boot (sys : System) : Prop where
  refcnt : ∀ f, sys.phys.refcnt f = 0
  busy : ∀ f, sys.phys.busy f = false
  tables : ∀ p, sys.tables p = uvmcreate
  kernel : ∀ f, sys.kernel f = none

/-! ## The invariant -/

/-- What kernel code holds. -/
def kernelRefs (sys : System) (f : Nat) : Use → Nat
  | .kernel order => if sys.kernel f = some order then 1 else 0
  | _ => 0

/-- All holders. -/
noncomputable def own (sys : System) : Holders :=
  fun f u => total (fun pt : PageTable => pt.refs f u) sys.tables + sys.kernelRefs f u

structure Inv (sys : System) : Prop where
  counted : Counted sys.phys sys.own
  valid : ∀ p, (sys.tables p).Valid

/-- The holders beside the page table of `p`. -/
noncomputable def rest (sys : System) (p : Fin NPROC) : Holders :=
  fun f u => total (fun pt : PageTable => pt.refs f u) (update sys.tables p uvmcreate) + sys.kernelRefs f u

end System

theorem refs_uvmcreate (f : Nat) (u : Use) : uvmcreate.refs f u = 0 := by
  cases u <;> rfl

theorem total_split {g : PageTable → Nat} (hg : g uvmcreate = 0) (tables : Fin NPROC → PageTable) (p : Fin NPROC)
    (pt : PageTable) :
    total g (update tables p pt) = g pt + total g (update tables p uvmcreate) := by
  have hset := total_update g tables p pt
  have hempty := total_update g tables p uvmcreate
  omega

namespace System

variable {sys : System}

theorem own_setTable (sys : System) (k : Phys) (p : Fin NPROC) (pt : PageTable) (f : Nat) (u : Use) :
    (sys.setTable k p pt).own f u = pt.refs f u + sys.rest p f u := by
  have hsplit := @total_split (fun pt => pt.refs f u) (refs_uvmcreate f u) sys.tables p pt
  show total (fun pt : PageTable => pt.refs f u) (update sys.tables p pt) + sys.kernelRefs f u
    = pt.refs f u + (total (fun pt : PageTable => pt.refs f u) (update sys.tables p uvmcreate)
      + sys.kernelRefs f u)
  omega

theorem setTable_self (sys : System) (p : Fin NPROC) : sys.setTable sys.phys p (sys.tables p) = sys := by
  simp [setTable]

theorem rest_setTable (sys : System) (k : Phys) {p q : Fin NPROC} (hne : q ≠ p) (pt : PageTable) :
    (sys.setTable k q pt).rest p = fun f u => pt.refs f u + (sys.setTable k q uvmcreate).rest p f u := by
  funext f u
  have hsplit := @total_split (fun pt => pt.refs f u) (refs_uvmcreate f u)
    (update sys.tables p uvmcreate) q pt
  show total (fun pt : PageTable => pt.refs f u) (update (update sys.tables q pt) p uvmcreate)
      + sys.kernelRefs f u
    = pt.refs f u + (total (fun pt : PageTable => pt.refs f u)
      (update (update sys.tables q uvmcreate) p uvmcreate) + sys.kernelRefs f u)
  rw [update_comm hne, update_comm hne, hsplit]
  omega

theorem Inv.held (h : sys.Inv) (p : Fin NPROC) : Held sys.phys (sys.tables p) (sys.rest p) := by
  refine ⟨h.counted.own_eq fun f u => ?_, h.valid p⟩
  rw [← own_setTable sys sys.phys, setTable_self]

theorem inv_setTable {k : Phys} {p : Fin NPROC} {pt : PageTable} (h : Held k pt (sys.rest p))
    (hvalid : ∀ q, q ≠ p → (sys.tables q).Valid) : (sys.setTable k p pt).Inv := by
  refine ⟨h.1.own_eq fun f u => own_setTable sys k p pt f u, fun q => ?_⟩
  show (update sys.tables p pt q).Valid
  by_cases hq : q = p
  · subst hq
    rw [update_self]
    exact h.2
  · rw [update_of_ne hq]
    exact hvalid q hq

theorem inv_setBoth {k : Phys} {src dst : Fin NPROC} (hne : src ≠ dst) {spt dpt : PageTable}
    (h : HeldBoth k spt dpt ((sys.setTable sys.phys src uvmcreate).rest dst))
    (hvalid : ∀ q, (sys.tables q).Valid) : ((sys.setTable k src spt).setTable k dst dpt).Inv := by
  have hheld : Held k dpt ((sys.setTable k src spt).rest dst) := by
    rw [rest_setTable sys k hne]
    exact h.1
  refine inv_setTable hheld fun q _ => ?_
  show (update sys.tables src spt q).Valid
  by_cases hq : q = src
  · subst hq
    rw [update_self]
    exact h.2
  · rw [update_of_ne hq]
    exact hvalid q

theorem kernelRefs_take (sys : System) (k : Phys) {page : Nat} (hnone : sys.kernel page = none) (order f : Nat)
    (u : Use) :
    ({ sys with phys := k, kernel := update sys.kernel page (some order) } : System).kernelRefs f u
      = bump sys.kernelRefs page (.kernel order) f u := by
  cases u with
  | kernel o =>
    show (if update sys.kernel page (some order) f = some o then 1 else 0)
      = (if sys.kernel f = some o then 1 else 0) + if f = page ∧ Use.kernel o = .kernel order then 1 else 0
    by_cases hf : f = page
    · subst hf
      simp [hnone, eq_comm]
    · simp [hf]
  | _ => simp [bump, kernelRefs]

theorem kernelRefs_drop (sys : System) (k : Phys) {page order : Nat} (hsome : sys.kernel page = some order) (f : Nat)
    (u : Use) :
    sys.kernelRefs f u = bump ({ sys with phys := k, kernel := update sys.kernel page none } :
      System).kernelRefs page (.kernel order) f u := by
  cases u with
  | kernel o =>
    show (if sys.kernel f = some o then 1 else 0) = (if update sys.kernel page none f = some o then 1 else 0)
      + if f = page ∧ Use.kernel o = .kernel order then 1 else 0
    by_cases hf : f = page
    · subst hf
      simp [hsome, eq_comm]
    · simp [hf]
  | _ => simp [bump, kernelRefs]

/-- One event: the invariant is kept, or the system stops for another reason than a count. -/
theorem next_inv (h : sys.Inv) (e : Event) (hlegal : sys.Legal e) : Ensures (sys.next e) Benign Inv := by
  cases e with
  | uvmalloc p startva endva perm =>
    refine .bind (uvmalloc_held startva endva perm (h.held p)) ?_
    exact fun r hr => .ok (inv_setTable hr fun q _ => h.valid q)
  | uvmunmap p va npages on_demand =>
    refine .bind (uvmunmap_held va npages on_demand (h.held p)) ?_
    exact fun r hr => .ok (inv_setTable hr fun q _ => h.valid q)
  | uvmcopy vmas src dst =>
    have hdst := h.held dst
    rw [← sys.setTable_self src, rest_setTable sys sys.phys hlegal.1] at hdst
    have hsame : (sys.setTable sys.phys src (sys.tables src)).tables dst = sys.tables dst := by
      rw [setTable_self]
    rw [hsame] at hdst
    refine .bind (uvmcopy_held hlegal.2 ⟨hdst, h.valid src⟩) ?_
    exact fun r hr => .ok (inv_setBoth hlegal.1 hr h.valid)
  | pagefault files mm cause p stval =>
    refine .bind (pagefault_held files mm cause stval (h.held p)) ?_
    exact fun r hr => .ok (inv_setTable hr fun q _ => h.valid q)
  | kmalloc order =>
    refine .bind (kmalloc_counted h.counted order) ?_
    rintro ⟨k, page⟩ hgrant
    cases page with
    | none => exact .ok ⟨hgrant, h.valid⟩
    | some page =>
      -- nobody had the block, the kernel in particular
      have hnone : sys.kernel page = none := by
        cases hheld : sys.kernel page with
        | none => rfl
        | some o =>
          have hzero : _ + (if sys.kernel page = some o then 1 else 0) = 0 := hgrant.2.1 (.kernel o)
          rw [if_pos hheld] at hzero
          omega
      refine .ok ⟨(hgrant.1 (.kernel order) rfl).own_eq fun f u => ?_, h.valid⟩
      have htake := kernelRefs_take sys k hnone order f u
      rw [bump] at htake ⊢
      rw [own, htake]
      exact (Nat.add_assoc _ _ _).symm
  | kfree page =>
    obtain ⟨order, hheld⟩ := Option.isSome_iff_exists.mp hlegal
    have hbump : Counted sys.phys (bump (fun f u => ({ sys with kernel := update sys.kernel page none } :
        System).own f u) page (.kernel order)) := by
      refine h.counted.own_eq fun f u => ?_
      have hdrop := kernelRefs_drop sys sys.phys hheld f u
      rw [bump] at hdrop
      show _ = total (fun pt : PageTable => pt.refs f u) sys.tables + sys.kernelRefs f u
      rw [hdrop]
      exact Nat.add_assoc _ _ _
    exact .bind (kfree_counted hbump) fun k hk => .ok ⟨hk, h.valid⟩

theorem Boot.inv (h : sys.Boot) : sys.Inv := by
  have hown : ∀ f u, sys.own f u = 0 := by
    intro f u
    have hrefs : total (fun pt : PageTable => pt.refs f u) sys.tables = 0 :=
      total_eq_zero fun p => by rw [h.tables, refs_uvmcreate]
    rw [own, hrefs]
    cases u with
    | kernel order => simp [kernelRefs, h.kernel]
    | _ => rfl
  refine ⟨⟨fun _ => .kernel 0, fun f u => ?_, fun f hf => ?_, fun f _ => ?_, fun f frame hf => ?_,
    fun frame hbusy => ?_, fun f g frame hf => ?_⟩, fun p => ?_⟩
  · rw [h.refcnt, hown, ite_self]
  · rw [h.refcnt] at hf
    omega
  · rw [h.refcnt]
    omega
  · rw [h.refcnt] at hf
    omega
  · rw [h.busy] at hbusy
    cases hbusy
  · rw [h.refcnt] at hf
    omega
  · rw [h.tables]
    exact fun _ => trivial

theorem inv_of_run {sys' : System} {es : List Event} (hboot : sys.Boot) (hrun : Run Step sys es sys') : sys'.Inv :=
  hrun.invariant (fun _ e _ hinv hs => (next_inv hinv e hs.1).of_ok hs.2) hboot.inv

/-! ## The counts, entry by entry -/

end System

/-- The leaf entries of a region that refer to `f`. -/
noncomputable def Entry.leaves (f : Nat) : Entry → Nat
  | .none => 0
  | .table _ ptes => total (Pte.refs f) ptes
  | .leaf pte => pte.refs f

/-- The leaf entries of a page table that refer to `f`. -/
noncomputable def PageTable.leaves (pt : PageTable) (f : Nat) : Nat := total (Entry.leaves f) pt.dir

/-- Whether `f` is a page of the page table, below its root. -/
def PageTable.HasPage (pt : PageTable) (f : Nat) : Prop :=
  (∃ r, pt.roots r = some f) ∨ ∃ r ptes, pt.dir r = .table f ptes

theorem entry_leaves_eq_zero {pt : PageTable} {f : Nat} {r : Fin NREGION}
    (h : ∀ u, u.leaf = true → u.region? = some r → pt.refs f u = 0) : (pt.dir r).leaves f = 0 := by
  cases hd : pt.dir r with
  | none => rfl
  | leaf pte =>
    have hzero := h (.super r) rfl rfl
    rw [refs_of_region pt f rfl, hd] at hzero
    exact hzero
  | table page ptes =>
    refine total_eq_zero fun s => ?_
    have hzero := h (.common r s) rfl rfl
    rw [refs_of_region pt f rfl, hd] at hzero
    exact hzero

/-- Where the leaf entries for a block are all at one place, there is one or none. -/
theorem leaves_eq_refs {pt : PageTable} {f : Nat} {u : Use} (hleaf : u.leaf = true)
    (h : ∀ w, w ≠ u → pt.refs f w = 0) : pt.leaves f = pt.refs f u := by
  have hregion : ∀ r, u.region? = some r → pt.leaves f = (pt.dir r).leaves f := by
    intro r hr
    refine total_eq_single r fun r' hne => entry_leaves_eq_zero fun w _ hw => h w ?_
    rintro rfl
    rw [hr, Option.some_inj] at hw
    exact hne hw.symm
  cases u with
  | kernel order => cases hleaf
  | root r => cases hleaf
  | table r => cases hleaf
  | super r =>
    rw [hregion r rfl, refs_of_region pt f rfl]
    cases hd : pt.dir r with
    | none => rfl
    | leaf pte => rfl
    | table page ptes =>
      refine total_eq_zero fun s => ?_
      have hzero := h (.common r s) (by simp)
      rw [refs_of_region pt f rfl, hd] at hzero
      exact hzero
  | common r s =>
    rw [hregion r rfl, refs_of_region pt f rfl]
    cases hd : pt.dir r with
    | none => rfl
    | leaf pte =>
      have hzero := h (.super r) (by simp)
      rw [refs_of_region pt f rfl, hd] at hzero
      exact hzero
    | table page ptes =>
      refine total_eq_single s fun s' hne => ?_
      have hzero := h (.common r s') (by simpa using hne)
      rw [refs_of_region pt f rfl, hd] at hzero
      exact hzero

/-- The uses of a page-table page. -/
theorem hasPage_iff (pt : PageTable) (f : Nat) : pt.HasPage f ↔ ∃ u, u.leaf = false ∧ 0 < pt.refs f u := by
  constructor
  · rintro (⟨r, hr⟩ | ⟨r, ptes, hr⟩)
    · refine ⟨.root r, rfl, ?_⟩
      show 0 < if pt.roots r = some f then 1 else 0
      rw [if_pos hr]
      exact Nat.one_pos
    refine ⟨.table r, rfl, ?_⟩
    rw [refs_of_region pt f rfl, hr]
    show 0 < if f = f then 1 else 0
    rw [if_pos rfl]
    exact Nat.one_pos
  · rintro ⟨u, hleaf, hpos⟩
    cases u with
    | kernel order => cases hpos
    | common r s => cases hleaf
    | super r => cases hleaf
    | root r =>
      have hpos : 0 < if pt.roots r = some f then 1 else 0 := hpos
      split at hpos
      · next hr => exact .inl ⟨r, hr⟩
      · cases hpos
    | table r =>
      rw [refs_of_region pt f rfl] at hpos
      cases hd : pt.dir r with
      | none =>
        rw [hd] at hpos
        cases hpos
      | leaf pte =>
        rw [hd] at hpos
        cases hpos
      | table page ptes =>
        rw [hd] at hpos
        have hpos : 0 < if page = f then 1 else 0 := hpos
        split at hpos
        · next hpage =>
          subst hpage
          exact .inr ⟨r, ptes, hd⟩
        · cases hpos

namespace System

variable {sys : System}

/-- The leaf entries of all page tables that point to the block at `f`. -/
noncomputable def leafRefs (sys : System) (f : Nat) : Nat := total (fun pt : PageTable => pt.leaves f) sys.tables

/-- The kernel's own allocations: page-table pages, and what kernel code got from `kmalloc`. -/
def KernelOwned (sys : System) (f : Nat) : Prop :=
  (sys.kernel f).isSome = true ∨ ∃ p, (sys.tables p).HasPage f

/-- Whether some leaf entry or the kernel holds the block at `f`. -/
def Referred (sys : System) (f : Nat) : Prop := 0 < sys.leafRefs f ∨ sys.KernelOwned f

open Classical in
/-- The counts say how many leaf entries there are, and what is allocated is what is referred to. -/
structure Exact (sys : System) : Prop where
  refcnt : ∀ f, sys.phys.refcnt f = sys.leafRefs f + if sys.KernelOwned f then 1 else 0
  allocated_iff : ∀ frame, sys.phys.busy frame = true ↔
    ∃ f, sys.Referred f ∧ inBlock f (sys.phys.order f) frame = true
  disjoint : ∀ f g frame, sys.Referred f → sys.Referred g → inBlock f (sys.phys.order f) frame = true →
    inBlock g (sys.phys.order g) frame = true → f = g

theorem kernelOwned_iff (f : Nat) : sys.KernelOwned f ↔ ∃ u, u.leaf = false ∧ 0 < sys.own f u := by
  constructor
  · rintro (hsome | ⟨p, hpage⟩)
    · obtain ⟨order, hsome⟩ := Option.isSome_iff_exists.mp hsome
      refine ⟨.kernel order, rfl, ?_⟩
      show 0 < _ + if sys.kernel f = some order then 1 else 0
      rw [if_pos hsome]
      exact Nat.succ_pos _
    · obtain ⟨u, hleaf, hpos⟩ := (hasPage_iff _ f).mp hpage
      have hle := le_total (fun pt : PageTable => pt.refs f u) sys.tables p
      refine ⟨u, hleaf, ?_⟩
      rw [own]
      omega
  · rintro ⟨u, hleaf, hpos⟩
    rw [own] at hpos
    by_cases htotal : 0 < total (fun pt : PageTable => pt.refs f u) sys.tables
    · obtain ⟨p, hp⟩ := exists_of_total_pos htotal
      exact .inr ⟨p, (hasPage_iff _ f).mpr ⟨u, hleaf, hp⟩⟩
    have hkernel : 0 < sys.kernelRefs f u := by omega
    cases u with
    | kernel order =>
      have hkernel : 0 < if sys.kernel f = some order then 1 else 0 := hkernel
      split at hkernel
      · next hsome =>
        left
        rw [hsome]
        rfl
      · cases hkernel
    | _ => cases hkernel

theorem leafRefs_eq_own {f : Nat} {u : Use} (hleaf : u.leaf = true) (h : ∀ w, w ≠ u → sys.own f w = 0) :
    sys.leafRefs f = sys.own f u := by
  have hkernel : sys.kernelRefs f u = 0 := by
    cases u with
    | kernel order => cases hleaf
    | _ => rfl
  rw [own, hkernel, Nat.add_zero]
  show total (fun pt : PageTable => pt.leaves f) sys.tables = total (fun pt : PageTable => pt.refs f u) sys.tables
  rw [total_eq_sum, total_eq_sum]
  refine Finset.sum_congr rfl fun p _ => leaves_eq_refs hleaf fun w hw => ?_
  have hle := le_total (fun pt : PageTable => pt.refs f w) sys.tables p
  have hzero := h w hw
  rw [own] at hzero
  omega

theorem leafRefs_eq_zero {f : Nat} (h : ∀ w, w.leaf = true → sys.own f w = 0) : sys.leafRefs f = 0 := by
  refine total_eq_zero fun p => total_eq_zero fun r => entry_leaves_eq_zero fun w hw _ => ?_
  have hle := le_total (fun pt : PageTable => pt.refs f w) sys.tables p
  have hzero := h w hw
  rw [own] at hzero
  omega

open Classical in
theorem refcnt_eq (h : sys.Inv) (f : Nat) :
    sys.phys.refcnt f = sys.leafRefs f + if sys.KernelOwned f then 1 else 0 := by
  obtain ⟨use, hcount⟩ := h.counted
  have hother : ∀ w, w ≠ use f → sys.own f w = 0 := by
    intro w hw
    rw [hcount.refcnt, if_neg hw]
  have hself : sys.own f (use f) = sys.phys.refcnt f := by
    rw [hcount.refcnt, if_pos rfl]
  cases hleaf : (use f).leaf with
  | true =>
    have hnot : ¬ sys.KernelOwned f := by
      rw [kernelOwned_iff]
      rintro ⟨u, hu, hpos⟩
      rw [hother u fun heq => by rw [heq, hleaf] at hu; cases hu] at hpos
      cases hpos
    rw [if_neg hnot, leafRefs_eq_own hleaf hother, hself]
    rfl
  | false =>
    have hzero : sys.leafRefs f = 0 := by
      refine leafRefs_eq_zero fun w hw => hother w ?_
      rintro rfl
      rw [hleaf] at hw
      cases hw
    have honce := hcount.once f hleaf
    by_cases hown : sys.KernelOwned f
    · obtain ⟨u, -, hpos⟩ := (kernelOwned_iff f).mp hown
      have hpos := (hcount.use_eq hpos).2 ▸ hpos
      rw [if_pos hown]
      omega
    · have hnone : ¬ 0 < sys.own f (use f) := fun hpos => hown ((kernelOwned_iff f).mpr ⟨use f, hleaf, hpos⟩)
      rw [if_neg hown]
      omega

theorem referred_iff (h : sys.Inv) (f : Nat) : sys.Referred f ↔ 0 < sys.phys.refcnt f := by
  classical
  rw [refcnt_eq h, Referred]
  by_cases hown : sys.KernelOwned f
  · simp [hown]
  · simp [hown]

theorem Inv.exact (h : sys.Inv) : sys.Exact := by
  obtain ⟨use, hcount⟩ := h.counted
  refine ⟨refcnt_eq h, fun frame => ⟨fun hbusy => ?_, ?_⟩, fun f g frame hf hg => ?_⟩
  · obtain ⟨f, hf, hin⟩ := hcount.covered frame hbusy
    exact ⟨f, (referred_iff h f).mpr hf, hin⟩
  · rintro ⟨f, hf, hin⟩
    exact hcount.busy f frame ((referred_iff h f).mp hf) hin
  · exact hcount.disjoint f g frame ((referred_iff h f).mp hf) ((referred_iff h g).mp hg)

/-- The pages of a small heap. -/
def heapArea : vma := ⟨.VMA_HEAP, 0x400000, 0x202000, 3, 0, none⟩

def heapSpace : mm_struct := ⟨fun _ => heapArea, fun _ => true, [0], 0x400000, 0x602000, some 0⟩

def booted (pool : List (Option Nat)) : System :=
  ⟨⟨fun _ => 0, fun _ => false, fun _ => 0, fun _ _ => 0, pool⟩, fun _ => uvmcreate, fun _ => none⟩

instance (sys : System) (e : Event) : Decidable (sys.Legal e) := by
  cases e <;> (unfold Legal; infer_instance)

/-- A legal step, where it returns. -/
def allowedStep (sys : System) (e : Event) : Option System :=
  if sys.Legal e then (sys.next e).toOption else none

theorem step_of_allowedStep {sys sys' : System} {e : Event} (h : sys.allowedStep e = some sys') :
    Step sys e sys' := by
  unfold allowedStep at h
  split at h
  · next hlegal => exact ⟨hlegal, ok_of_toOption h⟩
  · cases h

end System

end LostWakeup.Mm.Vm
