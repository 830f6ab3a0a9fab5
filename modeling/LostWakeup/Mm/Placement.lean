/-
# LostWakeup.Mm.Placement — when the kernel finds a good place for a mapping.

`find_mapping_space` takes the highest end of the areas, with the stack and the interpreter passed over, and does not
look at the length.  Both lie at fixed addresses above, and so do the trap frames.  `placement_iff` says for every list
of areas that a process can come to which lengths get a range that is free.
-/
import Mathlib.Order.Bounds.Basic
import LostWakeup.Mm.VmaCopy

namespace LostWakeup.Mm.Vma

open Library
open Mm.Vma.Copy (freeSlots areas blank asMapped copyOf copyAll vma_map_range_none vma_map_range_some
  alloc_vma_eq mappedIn)

/-! ## Where a mapping may go -/

/-- The bytes of a mapping: whole pages, and at least one. -/
def wanted (length : Nat) : Nat := (max length 1 + (PGSIZE - 1)) / PGSIZE * PGSIZE

/-- The address of the last trap frame of a process that has had `threads` threads; the frames, the signal
return and the trampoline take the addresses from there on. -/
def userTop (threads : Nat) : Nat := Vm.SIGRETURN - threads * PGSIZE

/-- The areas that `find_mapping_space` passes over. -/
def Skipped (v : vma) : Prop := v.type = .VMA_STACK ∨ v.type = .VMA_INTERP

/-- The addresses that `find_mapping_space` stays above. -/
def EndSeen (mm : mm_struct) (e : Nat) : Prop :=
  e = MMAP_START ∨ ∃ i ∈ mm.head_vma, ¬ Skipped (mm.vmas i) ∧ e = (mm.vmas i).startva + (mm.vmas i).size

/-- Above all ends there is room: below the trap frames, and below each area passed over that does not itself
end below one of them. -/
structure Room (mm : mm_struct) (threads length : Nat) : Prop where
  below_top : ∀ e, EndSeen mm e → e + wanted length ≤ userTop threads
  below_skipped : ∀ i ∈ mm.head_vma, Skipped (mm.vmas i) → (mm.vmas i).size = 0 ∨
    (∃ e, EndSeen mm e ∧ (mm.vmas i).startva + (mm.vmas i).size ≤ e) ∨
    ∀ e, EndSeen mm e → e + wanted length ≤ (mm.vmas i).startva

/-- Every mapping whose address is left to the kernel fails with `MAP_FAILED` or gets whole pages below the trap
frames, clear of all areas. -/
def ChosenWell (mm : mm_struct) (threads length : Nat) (mapped : Bool) : Prop :=
  ∀ prot flags fp offset, ∃ mm' r, do_mmap mm 0 length prot flags fp offset mapped = .ok (mm', r) ∧
    ∀ va, r = some va → va % PGSIZE = 0 ∧ va + wanted length ≤ userTop threads ∧
      ∀ i ∈ mm.head_vma, Disjoint (Set.Ico va (va + wanted length)) (mm.vmas i).span

/-! ## The lists that a process comes to -/

/-- What becomes of the areas of a process; after a fork the child is followed. -/
inductive Op
  | area (e : Event)
  | fork

/-- A step of a process or, after a fork, of its child. -/
def OpStep (mm : mm_struct) : Op → mm_struct → Prop
  | .area e, mm' => Step mm e mm'
  | .fork, mm' => ∃ f_count s, Copy.vmacopy (areas mm) (blank mm f_count) = .ok (s, true) ∧
      mm' = { s.mm with start_brk := mm.start_brk, brk := mm.brk }

/-- The areas stay in order when each is taken as at least one page, as `vmacopy` takes it. -/
structure ForkApart (mm : mm_struct) : Prop where
  placed : ∀ i ∈ mm.head_vma, (asMapped (mm.vmas i)).Placed
  disjoint : ∀ i ∈ mm.head_vma, ∀ j ∈ mm.head_vma, i ≠ j →
    Disjoint (asMapped (mm.vmas i)).span (asMapped (mm.vmas j)).span

/-- The operations that keep the areas in order, with room for what the kernel places. -/
def Fit (threads : Nat) (mm : mm_struct) : Op → Prop
  | .area (.do_mmap 0 length _ _ _ _ _) => freeSlots mm.used = [] ∨ Room mm threads length
  | .area e => Allowed mm e
  | .fork => ForkApart mm

/-! ## The search -/

section

variable {mm : mm_struct}

theorem wanted_pos (length : Nat) : 0 < wanted length := by
  simp only [wanted, PGSIZE]
  omega

theorem userTop_lt (threads : Nat) : userTop threads < Vma.MAXVA := by
  simp only [userTop, Vm.SIGRETURN, Vm.TRAMPOLINE, Vm.MAXVA, Vma.MAXVA, PGSIZE]
  omega

theorem mapSize_eq_wanted {length threads : Nat} (h : wanted length ≤ userTop threads) :
    mapSize length = wanted length := by
  have htop := userTop_lt threads
  rw [mapSize]
  by_cases hsmall : length < PGSIZE
  · rw [if_pos hsmall]
    simp only [PGROUNDUP, roundUp, wanted, PGSIZE, Vma.MAXVA] at h htop hsmall ⊢
    omega
  · rw [if_neg hsmall]
    simp only [PGROUNDUP, roundUp, wanted, PGSIZE, Vma.MAXVA] at h htop hsmall ⊢
    omega

theorem mappingMax_seen (hl : Layout mm) : EndSeen mm (mappingMax mm) := by
  suffices h : ∀ (l : List Nat) (max : Nat), l ⊆ mm.head_vma → EndSeen mm max →
      EndSeen mm (l.foldl (raiseMax mm) max) from
    h mm.head_vma MMAP_START (List.Subset.refl _) (.inl rfl)
  intro l
  induction l with
  | nil => exact fun max _ hmax => hmax
  | cons j l ih =>
    intro max hsub hmax
    obtain ⟨hj, hsub⟩ := List.cons_subset.mp hsub
    refine ih _ hsub ?_
    simp only [raiseMax, (hl.placed j hj).end_eq]
    -- the turn keeps the maximum or takes the end of an area that is not passed over
    split_ifs with hinterp hstack hlt
    · exact hmax
    · exact hmax
    · exact .inr ⟨j, hj, not_or.mpr ⟨hstack, hinterp⟩, rfl⟩
    · exact hmax

theorem mappingMax_greatest (hl : Layout mm) : IsGreatest {e | EndSeen mm e} (mappingMax mm) := by
  refine ⟨mappingMax_seen hl, ?_⟩
  rintro e (rfl | ⟨i, hi, hskip, rfl⟩)
  · exact le_foldl_raiseMax mm.head_vma MMAP_START
  · rw [Skipped, not_or] at hskip
    exact le_mappingMax hl hi hskip.1 hskip.2

theorem mappingMax_aligned (hl : Layout mm) : mappingMax mm % PGSIZE = 0 := by
  rcases mappingMax_seen hl with h | ⟨i, hi, -, h⟩
  · rw [h]
    rfl
  · rw [h, Nat.add_mod, (hl.placed i hi).start_aligned, (hl.placed i hi).size_aligned]
    rfl

/-- Room above all ends is room at the greatest of them. -/
theorem room_iff (hl : Layout mm) {threads length : Nat} : Room mm threads length ↔
    mappingMax mm + wanted length ≤ userTop threads ∧
      ∀ i ∈ mm.head_vma, Disjoint (Set.Ico (mappingMax mm) (mappingMax mm + wanted length)) (mm.vmas i).span := by
  obtain ⟨hseen, hgreatest⟩ := mappingMax_greatest hl
  have hpos := wanted_pos length
  constructor
  · rintro ⟨htop, hskipped⟩
    refine ⟨htop _ hseen, fun i hi => ?_⟩
    rw [vma.span, Set.Ico_disjoint_Ico]
    by_cases hskip : Skipped (mm.vmas i)
    · rcases hskipped i hi hskip with hempty | ⟨e, he, hle⟩ | habove
      · omega
      · have hmax : e ≤ mappingMax mm := hgreatest he
        omega
      · have hle := habove _ hseen
        omega
    · have hle : (mm.vmas i).startva + (mm.vmas i).size ≤ mappingMax mm := hgreatest (.inr ⟨i, hi, hskip, rfl⟩)
      omega
  · rintro ⟨htop, hdisjoint⟩
    refine ⟨fun e he => ?_, fun i hi _ => ?_⟩
    · have hmax : e ≤ mappingMax mm := hgreatest he
      omega
    have hdis := hdisjoint i hi
    rw [vma.span, Set.Ico_disjoint_Ico] at hdis
    by_cases hempty : (mm.vmas i).size = 0
    · exact .inl hempty
    by_cases hbelow : (mm.vmas i).startva + (mm.vmas i).size ≤ mappingMax mm
    · exact .inr (.inl ⟨_, hseen, hbelow⟩)
    · refine .inr (.inr fun e he => ?_)
      have hmax : e ≤ mappingMax mm := hgreatest he
      omega

theorem canPlace_of_room (hl : Layout mm) {threads length : Nat} (h : Room mm threads length) :
    CanPlace mm (mappingMax mm) length := by
  obtain ⟨htop, hdisjoint⟩ := (room_iff hl).mp h
  have hsize : mapSize length = wanted length := @mapSize_eq_wanted length threads (by omega)
  have hmax := userTop_lt threads
  rw [Vma.MAXVA] at hmax
  refine ⟨?_, ?_, ?_⟩
  · rw [hsize]
    exact wanted_pos length
  · rw [hsize]
    omega
  · rw [hsize]
    exact hdisjoint

/-! ## The mapping -/

theorem layout_owned (hl : Layout mm) : Copy.Owned mm := hl.in_use

theorem range_returns (hl : Layout mm) {va len : Nat} (perm : Nat) (type : vmatype) (hva : va % PGSIZE = 0)
    (hcan : CanPlace mm va len) : ∃ mm' r, vma_map_range mm va len perm type = .ok (mm', r) := by
  cases hfree : freeSlots mm.used with
  | nil => exact ⟨mm, none, vma_map_range_none hfree⟩
  | cons i rest =>
    have hdown : PGROUNDDOWN va = va := Nat.div_mul_cancel (Nat.dvd_of_mod_eq_zero hva)
    refine ⟨_, _, (vma_map_range_some (layout_owned hl) hfree).mpr ⟨hva, fun j hj => ?_, rfl⟩⟩
    refine endpointIn_eq_false ?_ hcan.size_pos (hl.placed j hj).end_lt ?_
    · show PGROUNDDOWN va + mapSize len < 2 ^ 64
      rw [hdown]
      exact hcan.end_lt
    · show Disjoint (Set.Ico (PGROUNDDOWN va) (PGROUNDDOWN va + mapSize len)) _
      rw [hdown]
      exact hcan.clear j hj

/-- The call that maps, at the end of `do_mmap`. -/
def mapCall (mm : mm_struct) (mapva length prot flags : Nat) (fp : Option File) (offset : Nat) :
    Except Stop (mm_struct × Int) :=
  match fp with
  | none => vma_map mm mapva length (mkperm prot flags) .VMA_ANON
  | some fp =>
    if flags &&& MAP_ANONYMOUS ≠ 0 then vma_map mm mapva length (mkperm prot flags) .VMA_ANON
    else vma_map_file mm mapva length (mkperm prot flags) .VMA_FILE offset fp

/-- Where the search ends with an address, `do_mmap` is the call that maps there. -/
theorem do_mmap_chosen (hl : Layout mm) (hmax : mappingMax mm < Vma.MAXVA) (length prot flags : Nat)
    (fp : Option File) (offset : Nat) : do_mmap mm 0 length prot flags fp offset false =
      (mapCall mm (mappingMax mm) length prot flags fp offset).map
        fun c => (c.1, if c.2 < 0 then none else some (mappingMax mm)) := by
  have hfind : find_mapping_space mm false = .ok (mappingMax mm) := by
    rw [find_mapping_space, if_neg (not_not.mpr (mappingMax_aligned hl)), if_neg hmax.not_ge]
    rfl
  rw [do_mmap, mmap_place, if_pos rfl, hfind]
  cases fp with
  | none => rfl
  | some fp =>
    rw [mapCall]
    by_cases hflag : flags &&& MAP_ANONYMOUS ≠ 0
    · rw [if_pos hflag]
      show (if flags &&& MAP_ANONYMOUS ≠ 0 then _ else _) = _
      rw [if_pos hflag]
      rfl
    rw [if_neg hflag]
    show (if flags &&& MAP_ANONYMOUS ≠ 0 then _ else _) = _
    rw [if_neg hflag]
    rfl

theorem vma_map_returns {va len perm : Nat} {type : vmatype} {mm₁ : mm_struct} {r : Option Nat}
    (h : vma_map_range mm va len perm type = .ok (mm₁, r)) :
    ∃ mm' n, vma_map mm va len perm type = .ok (mm', n) ∧ (r = none → mm' = mm₁ ∧ n < 0) := by
  rw [vma_map, h]
  cases r with
  | none => exact ⟨_, _, rfl, fun _ => ⟨rfl, Int.negSucc_lt_zero 0⟩⟩
  | some i => exact ⟨_, _, rfl, fun hn => by cases hn⟩

theorem vma_map_file_returns {va len perm : Nat} {type : vmatype} {mm₁ : mm_struct} {r : Option Nat}
    (h : vma_map_range mm va len perm type = .ok (mm₁, r)) (offset : Nat) (fp : File) :
    ∃ mm' n, vma_map_file mm va len perm type offset fp = .ok (mm', n) ∧
      (r = none → mm₁ = mm → mm' = mm ∧ n < 0) := by
  rw [vma_map_file]
  by_cases hrefused : F_WRITEABLE fp = false ∧ perm &&& PERM_WRITE ≠ 0 ∧ perm &&& PERM_SHARED ≠ 0
  · rw [if_pos hrefused]
    exact ⟨_, _, rfl, fun _ _ => ⟨rfl, Int.negSucc_lt_zero 0⟩⟩
  rw [if_neg hrefused, h]
  cases r with
  | none => exact ⟨_, _, rfl, fun _ heq => ⟨heq, Int.negSucc_lt_zero 0⟩⟩
  | some i => exact ⟨_, _, rfl, fun hn => by cases hn⟩

/-- What `vma_map_range` does at an address decides whether the call comes back, and whether it fails with
nothing done. -/
theorem mapCall_returns {va length : Nat} (h : ∀ perm type, ∃ mm' r, vma_map_range mm va length perm type = .ok (mm', r))
    (prot flags : Nat) (fp : Option File) (offset : Nat) :
    ∃ mm' n, mapCall mm va length prot flags fp offset = .ok (mm', n) ∧
      (freeSlots mm.used = [] → mm' = mm ∧ n < 0) := by
  obtain ⟨mm₁, r₁, hanon⟩ := h (mkperm prot flags) .VMA_ANON
  obtain ⟨mm₂, n, hmap, hnone⟩ := vma_map_returns hanon
  have hfull₁ : freeSlots mm.used = [] → mm₂ = mm ∧ n < 0 := by
    intro hfull
    rw [vma_map_range_none hfull] at hanon
    cases hanon
    exact hnone rfl
  unfold mapCall
  cases fp with
  | none => exact ⟨mm₂, n, hmap, hfull₁⟩
  | some fp =>
    dsimp only
    by_cases hflag : flags &&& MAP_ANONYMOUS ≠ 0
    · rw [if_pos hflag]
      exact ⟨mm₂, n, hmap, hfull₁⟩
    rw [if_neg hflag]
    obtain ⟨mm₃, r₃, hfile⟩ := h (mkperm prot flags) .VMA_FILE
    obtain ⟨mm₄, n', hmap', hnone'⟩ := vma_map_file_returns hfile offset fp
    refine ⟨mm₄, n', hmap', fun hfull => ?_⟩
    rw [vma_map_range_none hfull] at hfile
    cases hfile
    exact hnone' rfl rfl

theorem do_mmap_returns (hl : Layout mm) (hmax : mappingMax mm < Vma.MAXVA) {length : Nat}
    (h : ∀ perm type, ∃ mm' r, vma_map_range mm (mappingMax mm) length perm type = .ok (mm', r))
    (prot flags : Nat) (fp : Option File) (offset : Nat) :
    ∃ mm' r, do_mmap mm 0 length prot flags fp offset false = .ok (mm', r) ∧ (r = none ∨ r = some (mappingMax mm)) := by
  obtain ⟨mm', n, hcall, -⟩ := mapCall_returns h prot flags fp offset
  rw [do_mmap_chosen hl hmax, hcall]
  refine ⟨_, _, rfl, ?_⟩
  dsimp only
  split
  · exact .inl rfl
  · exact .inr rfl

theorem do_mmap_full (hl : Layout mm) (hmax : mappingMax mm < Vma.MAXVA) (hfull : freeSlots mm.used = [])
    (length prot flags : Nat) (fp : Option File) (offset : Nat) :
    do_mmap mm 0 length prot flags fp offset false = .ok (mm, none) := by
  obtain ⟨mm', n, hcall, hdone⟩ :=
    mapCall_returns (fun perm type => ⟨mm, none, @vma_map_range_none mm (mappingMax mm) length perm type hfull⟩)
      prot flags fp offset
  obtain ⟨rfl, hn⟩ := hdone hfull
  rw [do_mmap_chosen hl hmax, hcall]
  show Except.ok (mm', if n < 0 then none else _) = _
  rw [if_pos hn]

theorem do_mmap_stops (hl : Layout mm) {length prot flags offset : Nat} {fp : Option File} {mapped : Bool}
    {c : mm_struct × Option Nat} (h : do_mmap mm 0 length prot flags fp offset mapped = .ok c) :
    mappingMax mm < Vma.MAXVA ∧ mapped = false := by
  rw [do_mmap, mmap_place, if_pos rfl, find_mapping_space, if_neg (not_not.mpr (mappingMax_aligned hl))] at h
  by_cases hmax : mappingMax mm < Vma.MAXVA
  · rw [if_neg hmax.not_ge] at h
    cases mapped with
    | true => cases h
    | false => exact ⟨hmax, rfl⟩
  · rw [if_pos (not_lt.mp hmax)] at h
    cases h

theorem do_mmap_anon (hl : Layout mm) {length : Nat} (hfree : freeSlots mm.used ≠ []) {mapped : Bool}
    {mm' : mm_struct} {r : Option Nat} (h : do_mmap mm 0 length 0 0 none 0 mapped = .ok (mm', r)) :
    r = some (mappingMax mm) := by
  obtain ⟨hmax, rfl⟩ := do_mmap_stops hl h
  obtain ⟨i, rest, hslots⟩ := List.exists_cons_of_ne_nil hfree
  rw [do_mmap_chosen hl hmax] at h
  obtain ⟨⟨mm₁, n⟩, hcall, hret⟩ := ok_of_map h
  obtain ⟨⟨mm₂, r₂⟩, hrange, hrest⟩ := ok_of_bind hcall
  obtain ⟨-, -, heq⟩ := (vma_map_range_some (layout_owned hl) hslots).mp hrange
  cases heq
  cases hrest
  cases hret
  rfl

/-! ## Runs -/

theorem copyAll_owned {ps : List vma} {slots : List Nat} {s : Copy.State} (h : Copy.Owned s.mm) :
    Copy.Owned (copyAll ps slots s).mm := by
  induction ps generalizing slots s with
  | nil => exact h
  | cons v ps ih =>
    cases slots with
    | nil => exact h
    | cons i slots => exact ih (h.took i)

theorem zip_right_unique {l slots : List Nat} (hnodup : l.Nodup) {h j j' : Nat} (hj : (h, j) ∈ l.zip slots)
    (hj' : (h, j') ∈ l.zip slots) : j = j' := by
  have hswap : ∀ {k}, (h, k) ∈ l.zip slots → (k, h) ∈ slots.zip l := by
    intro k hk
    rw [← List.zip_swap]
    exact List.mem_map.mpr ⟨_, hk, rfl⟩
  exact Copy.zip_left_unique hnodup (hswap hj) (hswap hj')

/-- Each area of a child is an area of its parent, taken as at least one page. -/
theorem copy_area {f_count : Nat → Nat} {s : Copy.State}
    (hcopy : Copy.vmacopy (areas mm) (blank mm f_count) = .ok (s, true)) :
    Copy.Owned s.mm ∧ s.mm.head_vma.Nodup ∧ ∀ j ∈ s.mm.head_vma, ∃ i ∈ mm.head_vma,
      (i, j) ∈ mm.head_vma.zip (freeSlots mm.used) ∧
        (s.mm.vmas j).startva = (asMapped (mm.vmas i)).startva ∧ (s.mm.vmas j).size = (asMapped (mm.vmas i)).size := by
  obtain ⟨hfits, hs⟩ := (Copy.vmacopy_true Copy.blank_owned).mp hcopy
  change s = copyAll (areas mm) (freeSlots mm.used) (blank mm f_count) at hs
  subst hs
  have hlen : (areas mm).length ≤ (freeSlots mm.used).length := hfits.slots
  have hrev := @Copy.copy_reverse mm f_count hlen
  have hnodup : ((freeSlots mm.used).take mm.head_vma.length).Nodup :=
    (Copy.freeSlots_nodup mm.used).sublist (List.take_sublist _ _)
  refine ⟨copyAll_owned Copy.blank_owned, ?_, fun j hj => ?_⟩
  · rw [← hrev] at hnodup
    exact List.nodup_reverse.mp hnodup
  have hj' := List.mem_reverse.mpr hj
  have hrev' : j ∈ (freeSlots mm.used).take mm.head_vma.length := hrev ▸ hj'
  rw [Copy.areas_length] at hlen
  have hlen' : ((freeSlots mm.used).take mm.head_vma.length).length ≤ mm.head_vma.length := by
    rw [List.length_take]
    exact Nat.min_le_left _ _
  rw [← List.map_snd_zip hlen', Copy.zip_take] at hrev'
  obtain ⟨⟨i, k⟩, hp, rfl⟩ := List.mem_map.mp hrev'
  refine ⟨i, (List.of_mem_zip hp).1, hp, ?_⟩
  have hmem : (mm.vmas i, k) ∈ (areas mm).zip (freeSlots mm.used) := by
    rw [areas, List.zip_map_left]
    exact List.mem_map.mpr ⟨_, hp, rfl⟩
  have hslot := Copy.copyAll_slot (s := blank mm f_count) (Copy.freeSlots_nodup _) hmem
  dsimp only at hslot ⊢
  rw [hslot]
  unfold copyOf
  split <;> exact ⟨rfl, rfl⟩

/-- The areas of a child are in order. -/
theorem fork_layout (hl : Layout mm) (hapart : ForkApart mm) {f_count : Nat → Nat} {s : Copy.State}
    (hcopy : Copy.vmacopy (areas mm) (blank mm f_count) = .ok (s, true)) :
    Layout { s.mm with start_brk := mm.start_brk, brk := mm.brk } := by
  obtain ⟨howned, hnodup, harea⟩ := copy_area hcopy
  refine ⟨hnodup, howned, fun j hj => ?_, ?_, hl.brk_aligned, hl.brk_le, hl.brk_lt⟩
  · obtain ⟨i, hi, -, hstart, hsize⟩ := harea j hj
    obtain ⟨h₁, h₂, h₃⟩ := hapart.placed i hi
    exact ⟨hstart ▸ h₁, hsize ▸ h₂, by rw [hstart, hsize]; exact h₃⟩
  intro j hj j' hj' hne
  obtain ⟨i, hi, hzip, hstart, hsize⟩ := harea j hj
  obtain ⟨i', hi', hzip', hstart', hsize'⟩ := harea j' hj'
  have hii : i ≠ i' := by
    rintro rfl
    exact hne (zip_right_unique hl.nodup hzip hzip')
  have hdis := hapart.disjoint i hi i' hi' hii
  simp only [Function.onFun, vma.span, hstart, hsize, hstart', hsize']
  exact hdis

theorem do_mmap_layout (hl : Layout mm) {threads length prot flags offset : Nat} {fp : Option File} {mapped : Bool}
    (hfit : freeSlots mm.used = [] ∨ Room mm threads length) {mm' : mm_struct}
    (h : Step mm (.do_mmap 0 length prot flags fp offset mapped) mm') : Layout mm' := by
  obtain ⟨c, hmap, rfl⟩ := ok_of_map h
  rcases hfit with hfull | hroom
  · obtain ⟨hmax, rfl⟩ := do_mmap_stops hl hmap
    rw [do_mmap_full hl hmax hfull] at hmap
    cases hmap
    exact hl
  have hcan := canPlace_of_room hl hroom
  have habove : MmapAllowed mm 0 length flags := by
    rw [MmapAllowed, if_pos rfl]
    exact ⟨hcan.size_pos, hcan.end_lt, fun i hi _ => hcan.clear i hi⟩
  exact (do_mmap_spec hl prot fp offset mapped habove).of_ok hmap

theorem opStep_layout (hl : Layout mm) {threads : Nat} {op : Op} (hfit : Fit threads mm op) {mm' : mm_struct}
    (h : OpStep mm op mm') : Layout mm' := by
  cases op with
  | fork =>
    obtain ⟨f_count, s, hcopy, rfl⟩ := h
    exact fork_layout hl hfit hcopy
  | area e =>
    unfold Fit at hfit
    split at hfit
    · next hop =>
      cases hop
      exact do_mmap_layout hl hfit h
    · next hop =>
      cases hop
      exact (step_spec hl hfit).of_ok h
    · next hop => cases hop

/-- What the kernel finds is good exactly where the walk goes through and finds nothing, and there is room, or no
slot to map with. -/
theorem chosenWell_iff (hl : Layout mm) (threads length : Nat) (mapped : Bool) :
    ChosenWell mm threads length mapped ↔
      mapped = false ∧ ((freeSlots mm.used = [] ∧ ∀ e, EndSeen mm e → e < Vma.MAXVA) ∨ Room mm threads length) := by
  obtain ⟨hseen, hgreatest⟩ := mappingMax_greatest hl
  constructor
  · intro h
    obtain ⟨mm', r, hmap, hgood⟩ := h 0 0 none 0
    obtain ⟨hmax, hmapped⟩ := do_mmap_stops hl hmap
    refine ⟨hmapped, ?_⟩
    by_cases hfull : freeSlots mm.used = []
    · exact .inl ⟨hfull, fun e he => Nat.lt_of_le_of_lt (hgreatest he) hmax⟩
    · obtain ⟨-, hplace⟩ := hgood _ (do_mmap_anon hl hfull hmap)
      exact .inr ((room_iff hl).mpr hplace)
  · rintro ⟨rfl, hfull | hroom⟩ prot flags fp offset
    · exact ⟨mm, none, do_mmap_full hl (hfull.2 _ hseen) hfull.1 length prot flags fp offset, fun va hva => by cases hva⟩
    have hplace := (room_iff hl).mp hroom
    have hmax : mappingMax mm < Vma.MAXVA := by
      have htop := userTop_lt threads
      omega
    have hcan := canPlace_of_room hl hroom
    obtain ⟨mm', r, hmap, hr⟩ := do_mmap_returns hl hmax
      (fun perm type => range_returns hl perm type (mappingMax_aligned hl) hcan) prot flags fp offset
    refine ⟨mm', r, hmap, fun va hva => ?_⟩
    rcases hr with rfl | rfl
    · cases hva
    · cases hva
      exact ⟨mappingMax_aligned hl, hplace⟩

/-- **In every list of areas that a process comes to, with room for each mapping the kernel has placed, a length is
placed well exactly where there is room for it.** -/
theorem placement_iff {vmas : Nat → vma} {used : Nat → Bool} {size threads : Nat} {ops : List Op}
    (hrun : Run (Guarded OpStep (Fit threads)) (fresh vmas used size) ops mm) (length : Nat) (mapped : Bool) :
    ChosenWell mm threads length mapped ↔
      mapped = false ∧ ((freeSlots mm.used = [] ∧ ∀ e, EndSeen mm e → e < Vma.MAXVA) ∨ Room mm threads length) := by
  have hl : Layout mm := by
    refine hrun.invariant ?_ (fresh_layout vmas used size)
    intro mm₁ op mm₂ hl₁ hstep
    exact opStep_layout hl₁ hstep.1 hstep.2
  exact chosenWell_iff hl threads length mapped

end

/-! ## Deciding the condition -/

section Decide

variable (mm : mm_struct)

theorem forall_endSeen {mm : mm_struct} {P : Nat → Prop} : (∀ e, EndSeen mm e → P e) ↔
    P MMAP_START ∧ ∀ i ∈ mm.head_vma, ¬ Skipped (mm.vmas i) → P ((mm.vmas i).startva + (mm.vmas i).size) := by
  constructor
  · exact fun h => ⟨h _ (.inl rfl), fun i hi hskip => h _ (.inr ⟨i, hi, hskip, rfl⟩)⟩
  · rintro ⟨hstart, hareas⟩ e (rfl | ⟨i, hi, hskip, rfl⟩)
    · exact hstart
    · exact hareas i hi hskip

theorem exists_endSeen {mm : mm_struct} {P : Nat → Prop} : (∃ e, EndSeen mm e ∧ P e) ↔
    P MMAP_START ∨ ∃ i ∈ mm.head_vma, ¬ Skipped (mm.vmas i) ∧ P ((mm.vmas i).startva + (mm.vmas i).size) := by
  constructor
  · rintro ⟨e, rfl | ⟨i, hi, hskip, rfl⟩, hP⟩
    · exact .inl hP
    · exact .inr ⟨i, hi, hskip, hP⟩
  · rintro (hP | ⟨i, hi, hskip, hP⟩)
    · exact ⟨_, .inl rfl, hP⟩
    · exact ⟨_, .inr ⟨i, hi, hskip, rfl⟩, hP⟩

instance decidableSkipped (v : vma) : Decidable (Skipped v) :=
  inferInstanceAs (Decidable (v.type = .VMA_STACK ∨ v.type = .VMA_INTERP))

instance decidableForallEnd (P : Nat → Prop) [DecidablePred P] : Decidable (∀ e, EndSeen mm e → P e) :=
  decidable_of_iff _ forall_endSeen.symm

instance decidableExistsEnd (P : Nat → Prop) [DecidablePred P] : Decidable (∃ e, EndSeen mm e ∧ P e) :=
  decidable_of_iff _ exists_endSeen.symm

instance decidableRoom (threads length : Nat) : Decidable (Room mm threads length) :=
  decidable_of_iff ((∀ e, EndSeen mm e → e + wanted length ≤ userTop threads) ∧
      ∀ i ∈ mm.head_vma, Skipped (mm.vmas i) → (mm.vmas i).size = 0 ∨
        (∃ e, EndSeen mm e ∧ (mm.vmas i).startva + (mm.vmas i).size ≤ e) ∨
        ∀ e, EndSeen mm e → e + wanted length ≤ (mm.vmas i).startva)
    ⟨fun ⟨h₁, h₂⟩ => ⟨h₁, h₂⟩, fun ⟨h₁, h₂⟩ => ⟨h₁, h₂⟩⟩

instance decidablePlaced (v : vma) : Decidable v.Placed :=
  decidable_of_iff (v.startva % PGSIZE = 0 ∧ v.size % PGSIZE = 0 ∧ v.startva + v.size < 2 ^ 64)
    ⟨fun ⟨h₁, h₂, h₃⟩ => ⟨h₁, h₂, h₃⟩, fun ⟨h₁, h₂, h₃⟩ => ⟨h₁, h₂, h₃⟩⟩

instance decidableSpans (v w : vma) : Decidable (Disjoint v.span w.span) :=
  inferInstanceAs (Decidable (Disjoint (Set.Ico v.startva (v.startva + v.size)) w.span))

instance decidableForkApart : Decidable (ForkApart mm) :=
  decidable_of_iff ((∀ i ∈ mm.head_vma, (asMapped (mm.vmas i)).Placed) ∧
      ∀ i ∈ mm.head_vma, ∀ j ∈ mm.head_vma, i ≠ j →
        Disjoint (asMapped (mm.vmas i)).span (asMapped (mm.vmas j)).span)
    ⟨fun ⟨h₁, h₂⟩ => ⟨h₁, h₂⟩, fun ⟨h₁, h₂⟩ => ⟨h₁, h₂⟩⟩

instance decidableFit (threads : Nat) (op : Op) : Decidable (Fit threads mm op) := by
  unfold Fit
  split
  · infer_instance
  · infer_instance
  · infer_instance

end Decide

/-- A step of the code, where it returns; no file is mapped. -/
def opReturned (mm : mm_struct) : Op → Option mm_struct
  | .area e => returned mm e
  | .fork =>
    match Copy.vmacopy (areas mm) (blank mm fun _ => 0) with
    | .ok (s, true) => some { s.mm with start_brk := mm.start_brk, brk := mm.brk }
    | _ => none

theorem opStep_of_returned {mm mm' : mm_struct} {op : Op} (h : opReturned mm op = some mm') : OpStep mm op mm' := by
  cases op with
  | area e => exact step_of_returned h
  | fork =>
    rw [opReturned] at h
    split at h
    · next s hcopy => exact ⟨_, s, hcopy, (Option.some.inj h).symm⟩
    · cases h

/-- A program that maps two pages and forks. -/
def mapAndFork : List Op :=
  [.area (.vma_map 0x10000 0x3000 5 .VMA_TEXT), .area (.vma_map 0x3ffebf6000 0xa000 3 .VMA_STACK),
    .area (.do_mmap 0 0x2000 3 0x22 none 0 false), .fork]

/-- In the child a mapping of 256 MiB is placed well. -/
theorem placement_after_fork : ∃ mm, Run (Guarded OpStep (Fit 1)) (fresh unusedPool (fun _ => false) 0x12345) mapAndFork mm ∧
    ChosenWell mm 1 0x10000000 false := by
  have hexec : (exec (fun mm op => if Fit 1 mm op then opReturned mm op else none)
      (fresh unusedPool (fun _ => false) 0x12345) mapAndFork).any (fun mm => Room mm 1 0x10000000) = true := by
    decide +kernel
  obtain ⟨mm, hmm, hat⟩ := (Option.any_eq_true _ _).mp hexec
  have hrun : Run (Guarded OpStep (Fit 1)) (fresh unusedPool (fun _ => false) 0x12345) mapAndFork mm := by
    refine (run_of_exec _ _ _ hmm).mono fun mm₁ op mm₂ hstep => ?_
    by_cases hok : Fit 1 mm₁ op
    · rw [if_pos hok] at hstep
      exact ⟨hok, opStep_of_returned hstep⟩
    · rw [if_neg hok] at hstep
      cases hstep
  exact ⟨mm, hrun, (placement_iff hrun 0x10000000 false).mpr ⟨rfl, .inr (of_decide_eq_true hat)⟩⟩

/-- A dynamically linked program after `execve`. -/
def linkedProgram : List Op :=
  [.area (.vma_map 0x10000 0x3000 5 .VMA_TEXT), .area (.vma_map 0x40000000 0xa1000 5 .VMA_INTERP),
    .area (.vma_map 0x3ffebf6000 0xa000 3 .VMA_STACK)]

/-- A mapping of 512 MiB is placed over the interpreter. -/
theorem placed_over_interpreter : ∃ mm, Run OpStep (fresh unusedPool (fun _ => false) 0x12345) linkedProgram mm ∧
    ¬ ChosenWell mm 1 0x20000000 false := by
  have hexec : (exec opReturned (fresh unusedPool (fun _ => false) 0x12345) linkedProgram).any (fun mm =>
      (do_mmap mm 0 0x20000000 0 0 none 0 false).toOption.map Prod.snd = some (some 0x30000000) ∧
        ∃ i ∈ mm.head_vma, (mm.vmas i).startva = 0x40000000 ∧ (mm.vmas i).size = 0xa1000) = true := by
    decide +kernel
  obtain ⟨mm, hmm, hat⟩ := (Option.any_eq_true _ _).mp hexec
  obtain ⟨hmap, i, hi, hstart, hsize⟩ := of_decide_eq_true hat
  refine ⟨mm, (run_of_exec _ _ _ hmm).mono fun _ _ _ => opStep_of_returned, fun h => ?_⟩
  obtain ⟨mm', r, hret, hgood⟩ := h 0 0 none 0
  rw [hret] at hmap
  cases hmap
  obtain ⟨-, -, hclear⟩ := hgood 0x30000000 rfl
  have hdis := hclear i hi
  rw [vma.span, hstart, hsize, Set.Ico_disjoint_Ico] at hdis
  exact absurd hdis (by decide)

end LostWakeup.Mm.Vma
