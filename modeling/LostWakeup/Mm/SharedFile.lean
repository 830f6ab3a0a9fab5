/-
# LostWakeup.Mm.SharedFile — `writeback` in `vma.c`: a shared file mapping is unmapped.

`vmspace_unmap` hands the dirty pages of a writable shared mapping to `fat32_filewrite`, the write of `write(2)`: it puts
the bytes where the `f_pos` of the open file is, and moves `f_pos` on.

The mapped files are regular files.  A file offset is a natural number, cut to 32 bits where it is passed to
`fat32_inode_write`.  The pages of a user's table have `PTE_U`, so its `copyin` finds them.
-/
import LostWakeup.Fs.PageCache
import LostWakeup.Mm.Munmap

namespace LostWakeup.Mm.SharedFile

open Library
open Function (update update_apply update_of_ne update_self)
open Fs
open Mm.Vm (Phys PageTable Flags PTE_V walk walkaddr)
open Mm.Vma (PGSIZE PGROUNDUP PERM_SHARED PERM_WRITE File F_WRITEABLE vma vmatype mm_struct find_vma_for_va
  mem_of_find free_vma)

/-! ## Open files and the write-back -/

/-- Set by the hardware on a store. -/
def PTE_D : Flags := 0x080

inductive Panic
  | vm (e : Vm.Panic)
  | fs (e : PageCache.Panic)

def liftVm {α : Type} : Except Vm.Panic α → Except Panic α := Except.mapError .vm

/-- `struct file`, for a regular file. -/
structure OpenFile where
  f_pos : Nat
  f_inode : Nat

structure FileTable where
  /-- By `File.id`. -/
  file : Nat → OpenFile
  inode : Nat → PageCache.inode

/-- `fat32_filewrite`, without its return value; `src` are the bytes behind the user address. -/
def fat32_filewrite (beyond : Nat → UInt8) (fs : FileTable) (fp : File) (src : Nat → UInt8) (n : Nat) :
    Except Panic FileTable :=
  if F_WRITEABLE fp = false then
    .ok fs
  else
    let f := fs.file fp.id
    match PageCache.fat32_inode_write (fs.inode f.f_inode) beyond (f.f_pos % 2 ^ 32) n src with
    | .error e => .error (.fs e)
    | .ok (ip, r) =>
      .ok {
        file := if r > 0 then update fs.file fp.id { f with f_pos := f.f_pos + r.toNat } else fs.file
        inode := update fs.inode f.f_inode ip }

/-- The byte `copyin` reads at a user address. -/
def userByte (k : Phys) (pt : PageTable) (a : Nat) : Option UInt8 :=
  (walkaddr pt a).map fun frame => k.mem frame (a % PGSIZE)

/-- The loop of `writeback` over the addresses that are left. -/
def writebackLoop (beyond : Nat → UInt8) (k : Phys) (pt : PageTable) (fp : File) (endva : Nat) :
    List Nat → FileTable → Except Panic FileTable
  | [], fs => .ok fs
  | addr :: rest, fs =>
    match walk pt addr with
    | .error e => .error (.vm e)
    | .ok .null => writebackLoop beyond k pt fp endva rest fs
    | .ok (.entry _ pte) =>
      if pte.flags.has PTE_V = false then
        writebackLoop beyond k pt fp endva rest fs
      else if pte.flags.has PTE_D then
        let n := if PGSIZE > endva - addr then endva - addr else PGSIZE
        match fat32_filewrite beyond fs fp (fun j => (userByte k pt (addr + j)).getD 0) n with
        | .error e => .error e
        | .ok fs => writebackLoop beyond k pt fp endva rest fs
      else
        writebackLoop beyond k pt fp endva rest fs

def writeback (beyond : Nat → UInt8) (k : Phys) (pt : PageTable) (fp : File) (start len : Nat) (fs : FileTable) :
    Except Panic FileTable :=
  let endva := add64 start len
  writebackLoop beyond k pt fp endva (Vm.addrs start endva PGSIZE) fs

/-- Whether `vmspace_unmap` writes an area back. -/
def sharedWritable (v : vma) : Bool :=
  v.type = .VMA_FILE && v.perm &&& PERM_SHARED != 0 && v.perm &&& PERM_WRITE != 0

/-- `vmspace_unmap`, with the files. -/
def vmspace_unmap (beyond : Nat → UInt8) (k : Phys) (pt : PageTable) (mm : mm_struct) (va len : Nat) (fs : FileTable) :
    Except Panic (Phys × PageTable × mm_struct × FileTable × Int) :=
  match h : find_vma_for_va mm va with
  | none => .ok (k, pt, mm, fs, -1)
  | some vma =>
    let start := (mm.vmas vma).startva
    let size := (mm.vmas vma).size
    if va ≠ start then
      .ok (k, pt, mm, fs, -1)
    else do
      let origin_len := len
      let len := PGROUNDUP len
      let fs ←
        if sharedWritable (mm.vmas vma) then
          match (mm.vmas vma).vm_file with
          | none => .error (.vm .null_pointer)
          | some fp => writeback beyond k pt fp start origin_len fs
        else .ok fs
      if size > len then
        let mm' := mm.set vma { mm.vmas vma with startva := add64 start len, size := size - len }
        let (k, pt) ← liftVm (Vm.uvmunmap k pt start (PGROUNDUP size / PGSIZE) true true)
        return (k, pt, mm', fs, 0)
      else
        let mm' := free_vma { mm with head_vma := mm.head_vma.erase vma } vma
        let (k, pt) ← liftVm (Vm.uvmunmap k pt start (PGROUNDUP size / PGSIZE) true true)
        if size < len then
          let (k, pt, mm'', fs, _) ← vmspace_unmap beyond k pt mm' (add64 va size) (len - size) fs
          return (k, pt, mm'', fs, 0)
        else
          return (k, pt, mm', fs, 0)
termination_by mm.head_vma.length
decreasing_by
  have hmem := mem_of_find h
  simp only [free_vma, List.length_erase_of_mem hmem]
  have := List.length_pos_of_mem hmem
  omega

/-! ## The property -/

/-- The byte of a file at `p`, if the file reaches so far. -/
def byteAt (ip : PageCache.inode) (p : Nat) : Option UInt8 :=
  if p < ip.i_size then some (PageCache.view ip.disk (PageCache.mappingOf ip) p) else none

/-- The page at an address is there and has been stored to. -/
def Dirty (pt : PageTable) (a : Nat) : Prop :=
  ∃ level pte, walk pt a = .ok (.entry level pte) ∧ pte.flags.has PTE_V = true ∧ pte.flags.has PTE_D = true

/-- The file of the mapping `v` has the bytes of its dirty pages below `len`, each at its place, nothing else is
changed, and `f_pos` is where it was. -/
structure WrittenBack (k : Phys) (pt : PageTable) (v : vma) (fp : File) (len : Nat) (fs fs' : FileTable) : Prop where
  stored : ∀ j, j < len → Dirty pt (v.startva + j) →
    ∃ byte, userByte k pt (v.startva + j) = some byte ∧
      byteAt (fs'.inode (fs.file fp.id).f_inode) (v.offset + j) = some byte
  kept : ∀ p, (∀ j, j < len → Dirty pt (v.startva + j) → p ≠ v.offset + j) →
    byteAt (fs'.inode (fs.file fp.id).f_inode) p = byteAt (fs.inode (fs.file fp.id).f_inode) p
  f_pos : (fs'.file fp.id).f_pos = (fs.file fp.id).f_pos

/-! ## What the loop does -/

variable {beyond : Nat → UInt8} {k : Phys} {pt : PageTable} {fp : File} {fs fs' : FileTable}

theorem writeLoop_returns (ip : PageCache.inode) (beyond src : Nat → UInt8) {n : Nat} (fuel : Nat)
    (m : PageCache.address_space) (off retval : Nat) (hlt : retval < n) (hfuel : n - retval ≤ fuel) :
    ∃ m', PageCache.writeLoop ip beyond src n fuel m off retval = .ok m' := by
  induction fuel generalizing m off retval with
  | zero => omega
  | succ fuel ih =>
    unfold PageCache.writeLoop
    dsimp only
    have hmod := Nat.mod_lt off (show 0 < PageCache.PGSIZE by decide)
    split
    · exact ⟨_, rfl⟩
    · exact ih _ _ _ (by omega) (by omega)

theorem fat32_inode_write_returns (ip : PageCache.inode) (beyond src : Nat → UInt8) {off n : Nat} (hpos : 0 < n)
    (hn : n ≤ PGSIZE) :
    (PageCache.fat32_inode_write ip beyond off n src = .ok (ip, -1)) ∨
      ∃ ip', PageCache.fat32_inode_write ip beyond off n src = .ok (ip', n) := by
  have hcount : int32 n = n := by
    simp only [PGSIZE] at hn
    simp only [int32, Int.bmod]
    split <;> omega
  unfold PageCache.fat32_inode_write
  split
  · exact .inl rfl
  obtain ⟨m', hm'⟩ := writeLoop_returns ip beyond src n (PageCache.mappingOf ip) off 0 hpos (by omega)
  rw [if_neg (by omega), hm']
  dsimp only
  rw [hcount, if_neg (by omega)]
  exact .inr ⟨_, rfl⟩

theorem fat32_filewrite_returns (beyond : Nat → UInt8) (fs : FileTable) (fp : File) (src : Nat → UInt8) {n : Nat} (hpos : 0 < n)
    (hn : n ≤ PGSIZE) :
    fat32_filewrite beyond fs fp src n = .ok fs ∨
      ∃ fs', fat32_filewrite beyond fs fp src n = .ok fs' ∧ (fs'.file fp.id).f_pos = (fs.file fp.id).f_pos + n := by
  unfold fat32_filewrite
  split
  · exact .inl rfl
  dsimp only
  obtain hnone | ⟨ip', hall⟩ := fat32_inode_write_returns (fs.inode (fs.file fp.id).f_inode) beyond src hpos hn
  · rw [hnone]
    refine .inl ?_
    simp
  · rw [hall]
    refine .inr ⟨_, rfl, ?_⟩
    simp [hpos]

theorem walk_of_loop {endva : Nat} (l : List Nat) (h : writebackLoop beyond k pt fp endva l fs = .ok fs') :
    ∀ addr ∈ l, ∃ found, walk pt addr = .ok found := by
  induction l generalizing fs with
  | nil => exact fun _ hmem => absurd hmem List.not_mem_nil
  | cons addr rest ih =>
    unfold writebackLoop at h
    intro a ha
    cases hwalk : walk pt addr with
    | error e =>
      rw [hwalk] at h
      cases h
    | ok found =>
      obtain rfl | hrest := List.mem_cons.mp ha
      · exact ⟨found, hwalk⟩
      rw [hwalk] at h
      cases found with
      | null => exact ih h a hrest
      | entry level pte =>
        simp only at h
        split at h
        · exact ih h a hrest
        split at h
        · split at h
          · cases h
          · exact ih h a hrest
        · exact ih h a hrest

theorem writebackLoop_clean {endva : Nat} (l : List Nat) (hclean : ∀ addr ∈ l, ¬Dirty pt addr)
    (h : writebackLoop beyond k pt fp endva l fs = .ok fs') : fs' = fs := by
  induction l with
  | nil =>
    cases h
    rfl
  | cons addr rest ih =>
    have hrest := ih fun a ha => hclean a (List.mem_cons_of_mem _ ha)
    unfold writebackLoop at h
    cases hwalk : walk pt addr with
    | error e =>
      rw [hwalk] at h
      cases h
    | ok found =>
      rw [hwalk] at h
      cases found with
      | null => exact hrest h
      | entry level pte =>
        simp only at h
        split at h
        · exact hrest h
        · next hv =>
          split at h
          · next hd =>
            exact absurd ⟨level, pte, hwalk, by simpa using hv, hd⟩ (hclean addr List.mem_cons_self)
          · exact hrest h

/-- Where the walks succeed the loop returns, and has written nothing unless it has moved `f_pos` on. -/
theorem writebackLoop_returns (fp : File) {endva : Nat} (l : List Nat) (hlt : ∀ addr ∈ l, addr < endva)
    (hwalk : ∀ addr ∈ l, ∃ found, walk pt addr = .ok found) (fs : FileTable) :
    ∃ fs', writebackLoop beyond k pt fp endva l fs = .ok fs' ∧
      (fs' = fs ∨ (fs.file fp.id).f_pos < (fs'.file fp.id).f_pos) := by
  induction l generalizing fs with
  | nil => exact ⟨fs, rfl, .inl rfl⟩
  | cons addr rest ih =>
    have hrest := ih (fun a ha => hlt a (List.mem_cons_of_mem _ ha)) fun a ha => hwalk a (List.mem_cons_of_mem _ ha)
    obtain ⟨found, hfound⟩ := hwalk addr List.mem_cons_self
    unfold writebackLoop
    rw [hfound]
    cases found with
    | null => exact hrest fs
    | entry level pte =>
      simp only
      split
      · exact hrest fs
      split
      · generalize hn : (if PGSIZE > endva - addr then endva - addr else PGSIZE) = n
        have hpos : 0 < n ∧ n ≤ PGSIZE := by
          have hbound := hlt addr List.mem_cons_self
          have hpage : 0 < PGSIZE := by decide
          by_cases hlast : PGSIZE > endva - addr
          · rw [if_pos hlast] at hn
            omega
          · rw [if_neg hlast] at hn
            omega
        obtain hnone | ⟨fs₁, hall, hmoved⟩ := fat32_filewrite_returns beyond fs fp
          (fun j => (userByte k pt (addr + j)).getD 0) hpos.1 hpos.2
        · rw [hnone]
          exact hrest fs
        rw [hall]
        obtain ⟨fs₂, hloop, hsame⟩ := hrest fs₁
        refine ⟨fs₂, hloop, .inr ?_⟩
        obtain rfl | hmore := hsame
        · omega
        · omega
      · exact hrest fs

/-! ## The unmap of one mapping -/

/-- The call writes the one area back and unmaps as before. -/
theorem vmspace_unmap_eq (beyond : Nat → UInt8) (k : Phys) (pt : PageTable) (fs : FileTable) {mm : mm_struct}
    {i va len : Nat} (hfind : find_vma_for_va mm va = some i)
    (hstart : (mm.vmas i).startva = va) (hshared : sharedWritable (mm.vmas i) = true)
    (hfile : (mm.vmas i).vm_file = some fp) (hlen : PGROUNDUP len ≤ (mm.vmas i).size) :
    vmspace_unmap beyond k pt mm va len fs = (writeback beyond k pt fp va len fs).bind fun fs' =>
      (liftVm (Vm.vmspace_unmap k pt mm va len)).map fun r => (r.1, r.2.1, r.2.2.1, fs', r.2.2.2) := by
  have hold : Vm.vmspace_unmap k pt mm va len =
      if (mm.vmas i).size > PGROUNDUP len then
        (Vm.uvmunmap k pt va (PGROUNDUP (mm.vmas i).size / PGSIZE) true true).map fun r =>
          (r.1, r.2, mm.set i { mm.vmas i with
            startva := add64 va (PGROUNDUP len), size := (mm.vmas i).size - PGROUNDUP len }, 0)
      else
        (Vm.uvmunmap k pt va (PGROUNDUP (mm.vmas i).size / PGSIZE) true true).map fun r =>
          (r.1, r.2, free_vma { mm with head_vma := mm.head_vma.erase i } i, 0) := by
    rw [Vm.vmspace_unmap]
    split
    · next hnone => rw [hfind] at hnone; cases hnone
    · next i' hsome =>
      rw [hfind, Option.some.injEq] at hsome
      subst hsome
      simp only [hstart, ne_eq, not_true_eq_false, if_false, if_neg hlen.not_gt]
      split
      · cases Vm.uvmunmap k pt va (PGROUNDUP (mm.vmas i).size / PGSIZE) true true <;> rfl
      · cases Vm.uvmunmap k pt va (PGROUNDUP (mm.vmas i).size / PGSIZE) true true <;> rfl
  rw [vmspace_unmap, hold]
  split
  · next hnone => rw [hfind] at hnone; cases hnone
  · next i' hsome =>
    rw [hfind, Option.some.injEq] at hsome
    subst hsome
    simp only [hstart, ne_eq, not_true_eq_false, if_false, hshared, if_true, hfile, if_neg hlen.not_gt]
    cases hwb : writeback beyond k pt fp va len fs with
    | error e => rfl
    | ok fs' =>
      show (if _ then _ else _) = _
      split
      · cases Vm.uvmunmap k pt va (PGROUNDUP (mm.vmas i).size / PGSIZE) true true <;> rfl
      · cases Vm.uvmunmap k pt va (PGROUNDUP (mm.vmas i).size / PGSIZE) true true <;> rfl

theorem mem_addrs_lt {start stop a : Nat} (h : a ∈ Vm.addrs start stop PGSIZE) : start ≤ a ∧ a < stop := by
  simp only [Vm.addrs, List.mem_map, List.mem_range, PGSIZE] at h
  obtain ⟨i, hi, rfl⟩ := h
  omega

/-- **The unmap of a shared mapping.**  For an area of a file that `vmspace_unmap` writes back, and any `f_pos`: the
call leaves the file and `f_pos` as they should be, whatever the file holds, if and only if no page of the range is
dirty. -/
theorem shared_writeback_iff {mm : mm_struct} {i va len : Nat} (hl : Vma.Layout mm)
    (hfind : find_vma_for_va mm va = some i) (hstart : (mm.vmas i).startva = va)
    (hshared : sharedWritable (mm.vmas i) = true) (hfile : (mm.vmas i).vm_file = some fp)
    (hlen : len ≤ (mm.vmas i).size) (hret : ∃ fs r, vmspace_unmap beyond k pt mm va len fs = .ok r) (pos : Nat) :
    (∀ fs, (fs.file fp.id).f_pos = pos → ∀ k' pt' mm' fs' r,
      vmspace_unmap beyond k pt mm va len fs = .ok (k', pt', mm', fs', r) →
        WrittenBack k pt (mm.vmas i) fp len fs fs') ↔
      ∀ j, j < len → ¬Dirty pt (va + j) := by
  obtain ⟨-, hsize, hend⟩ := hl.placed i (mem_of_find hfind)
  have hround : PGROUNDUP len ≤ (mm.vmas i).size := by
    simp only [PGROUNDUP, roundUp, PGSIZE] at hsize ⊢
    omega
  have hsum : add64 va len = va + len := by
    simp only [add64]
    omega
  have hrange : ∀ addr ∈ Vm.addrs va (va + len) PGSIZE, va ≤ addr ∧ addr < va + len := fun _ => mem_addrs_lt
  constructor
  · intro hall j hj hdirty
    -- a file of no bytes, with `f_pos` where it is
    let fs₀ : FileTable := ⟨fun _ => ⟨pos, 0⟩, fun _ => PageCache.opened (fun _ => 0) 0⟩
    obtain ⟨fs₁, r, hr⟩ := hret
    rw [vmspace_unmap_eq beyond k pt fs₁ hfind hstart hshared hfile hround, writeback, hsum] at hr
    cases hwb : writebackLoop beyond k pt fp (va + len) (Vm.addrs va (va + len) PGSIZE) fs₁ with
    | error e =>
      rw [hwb] at hr
      cases hr
    | ok fs₁' =>
      rw [hwb] at hr
      obtain ⟨fs', hloop, hsame⟩ := writebackLoop_returns fp (Vm.addrs va (va + len) PGSIZE)
        (fun addr haddr => (hrange addr haddr).2) (walk_of_loop _ hwb) fs₀
      cases hunmap : Vm.vmspace_unmap k pt mm va len with
      | error e =>
        rw [hunmap] at hr
        cases hr
      | ok r' =>
        have hcall : vmspace_unmap beyond k pt mm va len fs₀ = .ok (r'.1, r'.2.1, r'.2.2.1, fs', r'.2.2.2) := by
          rw [vmspace_unmap_eq beyond k pt fs₀ hfind hstart hshared hfile hround, writeback, hsum, hloop, hunmap]
          rfl
        have hback := hall fs₀ rfl _ _ _ _ _ hcall
        obtain rfl | hmoved := hsame
        · obtain ⟨byte, -, hbyte⟩ := hback.stored j hj (hstart.symm ▸ hdirty)
          have hnone : byteAt (fs₀.inode (fs₀.file fp.id).f_inode) ((mm.vmas i).offset + j) = none :=
            if_neg (Nat.not_lt_zero _)
          rw [hnone] at hbyte
          cases hbyte
        · have hpos := hback.f_pos
          omega
  · intro hclean fs _ k' pt' mm' fs' r hr
    rw [vmspace_unmap_eq beyond k pt fs hfind hstart hshared hfile hround, writeback, hsum] at hr
    cases hwb : writebackLoop beyond k pt fp (va + len) (Vm.addrs va (va + len) PGSIZE) fs with
    | error e =>
      rw [hwb] at hr
      cases hr
    | ok fs₁ =>
      have hsame : fs₁ = fs := by
        refine writebackLoop_clean _ (fun addr haddr => ?_) hwb
        obtain ⟨hlo, hhi⟩ := hrange addr haddr
        have hnot := hclean (addr - va) (by omega)
        rwa [Nat.add_sub_cancel' hlo] at hnot
      have hfs : fs' = fs := by
        rw [hwb] at hr
        cases hunmap : Vm.vmspace_unmap k pt mm va len with
        | error e =>
          rw [hunmap] at hr
          cases hr
        | ok r' =>
          rw [hunmap] at hr
          cases hr
          exact hsame
      subst hfs
      refine ⟨fun j hj hdirty => ?_, fun _ _ => rfl, rfl⟩
      exact absurd (hstart ▸ hdirty) (hclean j hj)

/-! ## A mapping of two pages -/

def fileArea : vma := ⟨.VMA_FILE, 0x30000000, 0x2000, 11, 0, some ⟨0, 2⟩⟩

/-- The first page is clean, the second has `flags`. -/
def twoPages (flags : Flags) : PageTable :=
  Vm.uvmcreate.setEntry (Vm.region 0x30000000)
    (.table 1 (update (update (fun _ => Vm.Pte.zero) (Vm.slot 0x30000000) ⟨2, 0x17⟩)
      (Vm.slot 0x30001000) ⟨3, flags⟩))

/-- Memory full of sevens. -/
def sevens : Phys := ⟨fun _ => 1, fun _ => true, fun _ => 0, fun _ _ => 7, []⟩

/-- A file of two pages of zeros. -/
def zeros (pos : Nat) : FileTable := ⟨fun _ => ⟨pos, 0⟩, fun _ => PageCache.opened (fun _ => 0) 8192⟩

theorem layout_fileArea : Vma.Layout (Vma.areasOf [fileArea]) := by
  refine Vma.areasOf_layout ?_ (List.pairwise_singleton _ _)
  intro v hv
  rw [List.mem_singleton] at hv
  subst hv
  exact ⟨by decide, by decide, by decide⟩

theorem not_dirty_twoPages {flags : Flags} (h : flags.has PTE_D = false) (a : Nat) : ¬Dirty (twoPages flags) a := by
  rintro ⟨level, pte, hwalk, hv, hd⟩
  unfold walk at hwalk
  split at hwalk
  · cases hwalk
  unfold twoPages PageTable.setEntry Vm.uvmcreate at hwalk
  by_cases hr : Vm.region a = Vm.region 0x30000000
  · rw [hr] at hwalk
    simp only [update_self, Except.ok.injEq, Vm.Found.entry.injEq] at hwalk
    obtain ⟨-, hpte⟩ := hwalk
    rw [update_apply, update_apply] at hpte
    rw [← hpte] at hd
    split at hd
    · rw [h] at hd
      cases hd
    · split at hd
      · exact absurd hd (by decide)
      · exact absurd hd (by decide)
  · simp [update_of_ne hr] at hwalk

/-- A mapping that was not stored to. -/
theorem shared_writeback_iff_clean : ∃ k' pt' mm' fs' r,
    vmspace_unmap (fun _ => 0) sevens (twoPages 0x17) (Vma.areasOf [fileArea]) 0x30000000 0x2000 (zeros 100)
      = .ok (k', pt', mm', fs', r) ∧
    WrittenBack sevens (twoPages 0x17) fileArea ⟨0, 2⟩ 0x2000 (zeros 100) fs' := by
  have hsome : ((vmspace_unmap (fun _ => 0) sevens (twoPages 0x17) (Vma.areasOf [fileArea]) 0x30000000 0x2000
      (zeros 100)).toOption.map fun r => r.2.2.2.2) = some 0 := by
    decide +kernel
  obtain ⟨⟨k', pt', mm', fs', r⟩, hr, -⟩ := Option.map_eq_some_iff.mp hsome
  have hok := ok_of_toOption hr
  have hfile : fileArea.vm_file = some ⟨0, 2⟩ := rfl
  have hfind : find_vma_for_va (Vma.areasOf [fileArea]) 0x30000000 = some 0 := by decide
  have hexact := shared_writeback_iff layout_fileArea hfind rfl (by decide) hfile (by decide) ⟨_, _, hok⟩ 100
  have hclean := hexact.mpr fun j _ => not_dirty_twoPages (by decide) _
  exact ⟨k', pt', mm', fs', r, hok, hclean (zeros 100) rfl k' pt' mm' fs' r hok⟩

/-- A store to the second page: its bytes go to the front of the file. -/
theorem second_page_in_front : ∃ k' pt' mm' fs' r,
    vmspace_unmap (fun _ => 0) sevens (twoPages 0x97) (Vma.areasOf [fileArea]) 0x30000000 0x2000 (zeros 0)
      = .ok (k', pt', mm', fs', r) ∧
    byteAt (fs'.inode 0) 0 = some 7 ∧ byteAt (fs'.inode 0) 4096 = some 0 ∧ (fs'.file 0).f_pos = 4096 ∧
    ¬WrittenBack sevens (twoPages 0x97) fileArea ⟨0, 2⟩ 0x2000 (zeros 0) fs' := by
  have hsome : ((vmspace_unmap (fun _ => 0) sevens (twoPages 0x97) (Vma.areasOf [fileArea]) 0x30000000 0x2000
      (zeros 0)).toOption.map fun r => (byteAt (r.2.2.2.1.inode 0) 0, byteAt (r.2.2.2.1.inode 0) 4096,
        (r.2.2.2.1.file 0).f_pos)) = some (some 7, some 0, 4096) := by
    decide +kernel
  obtain ⟨⟨k', pt', mm', fs', r⟩, hr, heq⟩ := Option.map_eq_some_iff.mp hsome
  rw [Prod.mk.injEq, Prod.mk.injEq] at heq
  obtain ⟨hfront, hplace, hpos⟩ := heq
  refine ⟨k', pt', mm', fs', r, ok_of_toOption hr, hfront, hplace, hpos, fun hback => ?_⟩
  have hsame : (fs'.file 0).f_pos = 0 := hback.f_pos
  rw [hpos] at hsame
  cases hsame

end LostWakeup.Mm.SharedFile
