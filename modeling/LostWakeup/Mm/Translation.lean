/-
# LostWakeup.Mm.Translation — what `walkaddr` returns after `mappages`.

`mapLoop` stores one leaf a turn, and no two turns store at one place.  Nothing is asked of the table before: where an
entry is in the way, `mappages` does not return.  A physical address goes into an entry by its page number, so that its
offset in the page is lost.
-/
import LostWakeup.Mm.SharedFork
import LostWakeup.Mm.Unmap

namespace LostWakeup.Mm.Vm

open Library
open Mm.Vma (PGSIZE SUPERPGSIZE PGROUNDDOWN)

/-- `walkaddr` as the source returns it: a physical address, and 0 where nothing is mapped. -/
def walkaddr_pa (pt : PageTable) (va : Nat) : Nat :=
  match walkaddr pt va with
  | none => 0
  | some frame => frame * PGSIZE % 2 ^ 64

/-- `PGROUNDDOWN` and `SUPERPG_DOWN`. -/
def Level.down (level : Level) (va : Nat) : Nat := va / level.pgsize * level.pgsize

/-- The pages of `level` that `[va, va + size)` meets. -/
def Covered (level : Level) (va size x : Nat) : Prop :=
  level.down va ≤ x ∧ x < level.down (va + size - 1) + level.pgsize

/-- The permissions of a user's leaf.  Without `PTE_R` and `PTE_X` an entry of level 1 is a pointer to a table. -/
def UserLeaf (level : Level) (perm : Flags) : Prop :=
  perm.has PTE_U = true ∧ (level = .SUPERPAGE → perm.has PTE_R = true ∨ perm.has PTE_X = true)

/-- No leaf is in the way, and for a 2M leaf no table of level 0. -/
def NoConflict (pt : PageTable) (level : Level) (va size : Nat) : Prop :=
  ∀ x, Covered level va size x → ¬FoundAt pt x ∧ (level = .SUPERPAGE → pt.dir (region x) = .none)

theorem walkaddr_eq (pt : PageTable) (va : Nat) : walkaddr pt va = (translate pt va).map Prod.fst := by
  unfold walkaddr translate
  split
  · next hva =>
    unfold walk
    rw [if_pos hva]
    rfl
  · split
    · split <;> rfl
    · rfl

theorem walkaddr_pa_aligned (pt : PageTable) (va : Nat) : walkaddr_pa pt va % PGSIZE = 0 := by
  unfold walkaddr_pa
  split
  · rfl
  · next frame _ =>
    show frame * 4096 % 2 ^ 64 % 4096 = 0
    omega

theorem has_or_valid : ∀ perm : Flags, perm.has PTE_U = true → (perm ||| PTE_V).has PTE_U = true := by decide

theorem walkaddr_congr {pt pt' : PageTable} {va : Nat} (h : SameAt va pt pt') : walkaddr pt' va = walkaddr pt va := by
  rw [walkaddr_eq, walkaddr_eq, translate_congr h]

theorem Level.pgsize_pos (level : Level) : 0 < level.pgsize := by cases level <;> decide

/-- The leaves that `n` turns from `a` on store. -/
structure MapsFrom (perm : Flags) (level : Level) (pt : PageTable) (n a pfn : Nat) (pt' : PageTable) (ok : Bool) :
    Prop where
  leaf : ok = true → ∀ i < n, pt'.leafAt (place (a + i * level.pgsize) level) = ⟨pfn + i * level.pages, perm ||| PTE_V⟩
  kept : ∀ u, (∀ i < n, u ≠ place (a + i * level.pgsize) level) → pt'.leafAt u = pt.leafAt u

theorem place_turn_ne {level : Level} {a i : Nat} (hmax : a + (i + 1) * level.pgsize < MAXVA) :
    place a level ≠ place (a + level.pgsize + i * level.pgsize) level := by
  intro heq
  have hpos := level.pgsize_pos
  rw [Nat.add_one_mul] at hmax
  have hdiv := (place_inj (by omega) (by omega) heq).2
  have hle : a / level.pgsize + 1 ≤ (a + level.pgsize + i * level.pgsize) / level.pgsize := by
    rw [← Nat.add_div_right a hpos]
    exact Nat.div_le_div_right (by omega)
  omega

theorem mapLoop_maps (perm : Flags) (level : Level) (k : Phys) (pt : PageTable) (n a pfn : Nat)
    (hmax : a + n * level.pgsize ≤ MAXVA) :
    Ensures (mapLoop perm level k pt n a pfn) Anyhow fun r => MapsFrom perm level pt n a pfn r.2.1 r.2.2 := by
  induction n generalizing k pt a pfn with
  | zero => exact .ok ⟨fun _ i hi => absurd hi (Nat.not_lt_zero i), fun _ _ => rfl⟩
  | succ n ih =>
    have hpos := level.pgsize_pos
    have hturn : ∀ i, a + (i + 1) * level.pgsize = a + level.pgsize + i * level.pgsize := by
      intro i
      rw [Nat.add_one_mul]
      omega
    have hplace : place (a + 0 * level.pgsize) level = place a level := by rw [Nat.zero_mul, Nat.add_zero]
    unfold mapLoop
    refine .bind (mapOne_leafAt k pt a pfn perm level) ?_
    rintro ⟨k₁, pt₁, ok₁⟩ ⟨-, hleaf⟩
    cases ok₁ with
    | false => exact .ok ⟨fun hok => absurd hok Bool.false_ne_true, fun u _ => congrFun hleaf u⟩
    | true =>
      have hleaf : pt₁.leafAt = Function.update pt.leafAt (place a level) ⟨pfn, perm ||| PTE_V⟩ := hleaf
      simp only [Bool.true_eq_false, if_false]
      refine (ih k₁ pt₁ (a + level.pgsize) (pfn + level.pages) (by rw [← hturn]; exact hmax)).mono fun r hr => ?_
      refine ⟨fun hok i hi => ?_, fun u hu => ?_⟩
      · cases i with
        | zero =>
          -- the later turns store elsewhere
          rw [hplace, hr.kept, hleaf, Function.update_self, Nat.zero_mul, Nat.add_zero]
          intro i hi
          have hlt : (i + 1) * level.pgsize < (n + 1) * level.pgsize :=
            Nat.mul_lt_mul_of_pos_right (Nat.succ_lt_succ hi) hpos
          exact place_turn_ne (by omega)
        | succ i =>
          rw [hturn, hr.leaf hok i (Nat.lt_of_succ_lt_succ hi), Nat.add_one_mul]
          congr 1
          omega
      · rw [hr.kept u fun i hi => ?_, hleaf, Function.update_of_ne]
        · rw [← hplace]
          exact hu 0 (Nat.succ_pos n)
        · rw [← hturn]
          exact hu (i + 1) (Nat.succ_lt_succ hi)

theorem last_turn (level : Level) (va size : Nat) :
    (level.down (va + size - 1) - level.down va) / level.pgsize * level.pgsize =
      level.down (va + size - 1) - level.down va := by
  rw [Level.down, Level.down, ← Nat.sub_mul, Nat.mul_div_cancel _ level.pgsize_pos]

theorem down_le_last (level : Level) (va : Nat) {size : Nat} (hsize : 0 < size) :
    level.down va ≤ level.down (va + size - 1) :=
  Nat.mul_le_mul_right _ (Nat.div_le_div_right (by omega))

theorem covered_turn {level : Level} {va size x : Nat} (hx : Covered level va size x) :
    ∃ i < (level.down (va + size - 1) - level.down va) / level.pgsize + 1,
      level.down va + i * level.pgsize ≤ x ∧ x < level.down va + i * level.pgsize + level.pgsize := by
  obtain ⟨hlo, hhi⟩ := hx
  have hpos := level.pgsize_pos
  refine ⟨(x - level.down va) / level.pgsize, ?_, ?_, ?_⟩
  · rw [Nat.div_lt_iff_lt_mul hpos, Nat.add_one_mul]
    have hlast := last_turn level va size
    omega
  · have := Nat.div_mul_le_self (x - level.down va) level.pgsize
    omega
  · have := Nat.lt_div_mul_add (a := x - level.down va) hpos
    omega

theorem maxva_aligned (level : Level) : MAXVA % level.pgsize = 0 := by cases level <;> decide

theorem turns_le (level : Level) {va size : Nat} (hsize : 0 < size) (hmax : va + size ≤ MAXVA) :
    level.down va + ((level.down (va + size - 1) - level.down va) / level.pgsize + 1) * level.pgsize ≤ MAXVA := by
  have hpos := level.pgsize_pos
  have hle := down_le_last level va hsize
  have hlast := last_turn level va size
  have hend : level.down (va + size - 1) + level.pgsize ≤ MAXVA := by
    obtain ⟨m, hm⟩ := Nat.dvd_of_mod_eq_zero (maxva_aligned level)
    have hlt : (va + size - 1) / level.pgsize < m := by
      rw [Nat.div_lt_iff_lt_mul hpos, Nat.mul_comm, ← hm]
      omega
    rw [Level.down, ← Nat.add_one_mul, hm, Nat.mul_comm level.pgsize]
    exact Nat.mul_le_mul_right _ hlt
  rw [Nat.add_one_mul, hlast]
  omega

theorem frame_of_turn {level : Level} {va i x pfn : Nat} (hlo : level.down va + i * level.pgsize ≤ x)
    (hhi : x < level.down va + i * level.pgsize + level.pgsize) (perm : Flags) :
    frameOf ⟨pfn + i * level.pages, perm⟩ level x * PGSIZE = pfn * PGSIZE + (PGROUNDDOWN x - level.down va) := by
  cases level with
  | COMMONPAGE =>
    have hlo : va / 4096 * 4096 + i * 4096 ≤ x := hlo
    have hhi : x < va / 4096 * 4096 + i * 4096 + 4096 := hhi
    show (pfn + i * 1 + 0) * 4096 = pfn * 4096 + (x / 4096 * 4096 - va / 4096 * 4096)
    omega
  | SUPERPAGE =>
    have hlo : va / 2097152 * 2097152 + i * 2097152 ≤ x := hlo
    have hhi : x < va / 2097152 * 2097152 + i * 2097152 + 2097152 := hhi
    show (pfn + i * 512 + x / 4096 % 512) * 4096 = pfn * 4096 + (x / 4096 * 4096 - va / 2097152 * 2097152)
    omega

/-- **Translation after mapping.** Of the physical address the page counts. -/
theorem mappages_translates {k k' : Phys} {pt pt' : PageTable} {va size pa : Nat} {perm : Flags} {level : Level}
    {ok : Bool} (hmax : va + size ≤ MAXVA) (hperm : UserLeaf level perm)
    (h : mappages k pt va size (pa / PGSIZE) perm level = .ok (k', pt', ok)) :
    (ok = true → ∀ x, Covered level va size x →
      walkaddr_pa pt' x = (PGROUNDDOWN pa + (PGROUNDDOWN x - level.down va)) % 2 ^ 64) ∧
    ∀ x, ¬Covered level va size x → walkaddr_pa pt' x = walkaddr_pa pt x := by
  unfold mappages at h
  split at h
  · cases h
  next hsize =>
    split at h
    · cases h
    dsimp only at h
    have hturns := turns_le level (Nat.pos_of_ne_zero hsize) hmax
    have hmaps : MapsFrom perm level pt _ _ _ pt' ok := (mapLoop_maps perm level k pt _ _ (pa / PGSIZE) hturns).of_ok h
    have hpos := level.pgsize_pos
    constructor
    · intro hok x hx
      obtain ⟨i, hi, hlo, hhi⟩ := covered_turn hx
      have hlt : x < MAXVA := by
        have := Nat.mul_le_mul_right level.pgsize hi
        rw [Nat.succ_mul] at this
        omega
      have hal : (level.down va + i * level.pgsize) % level.pgsize = 0 := by
        rw [Level.down, ← Nat.add_mul, Nat.mul_mod_left]
      have hleaf : pt'.leafAt (place x level) = ⟨pa / PGSIZE + i * level.pages, perm ||| PTE_V⟩ := by
        rw [place_of_mem hal hlo hhi level id]
        exact hmaps.leaf hok i hi
      have htrans : translate pt' x =
          some (frameOf ⟨pa / PGSIZE + i * level.pages, perm ||| PTE_V⟩ level x, perm ||| PTE_V) := by
        refine translate_iff.mpr ⟨hlt, level, ?_, has_or_self perm PTE_V (by decide),
          has_or_valid perm hperm.1, ?_⟩
        · rw [hleaf]
        · rw [hleaf]
      rw [walkaddr_pa, walkaddr_eq, htrans]
      show frameOf _ level x * PGSIZE % 2 ^ 64 = _
      rw [frame_of_turn hlo hhi]
      rfl
    · intro x hx
      rw [walkaddr_pa, walkaddr_pa]
      rcases lt_or_ge x MAXVA with hlt | hge
      · rw [walkaddr_congr]
        refine fun level' => hmaps.kept _ fun i hi heq => hx ?_
        have hle : (i + 1) * level.pgsize ≤ ((level.down (va + size - 1) - level.down va) / level.pgsize + 1) * level.pgsize :=
          Nat.mul_le_mul_right _ hi
        rw [Nat.add_one_mul] at hle
        obtain ⟨rfl, hdiv⟩ := place_inj hlt (by omega) heq
        have hturn : (level'.down va + i * level'.pgsize) / level'.pgsize * level'.pgsize =
            level'.down va + i * level'.pgsize := by
          rw [Level.down, ← Nat.add_mul, Nat.mul_div_cancel _ hpos]
        rw [← hdiv] at hturn
        have hlo := Nat.div_mul_le_self x level'.pgsize
        have hhi := Nat.lt_div_mul_add (a := x) hpos
        have hlast := last_turn level' va size
        have hfirst := down_le_last level' va (Nat.pos_of_ne_zero hsize)
        rw [Nat.add_one_mul, hlast] at hle
        exact ⟨by omega, by omega⟩
      · rw [walkaddr, walkaddr, if_pos hge, if_pos hge]

/-- Frames for a table and for a page. -/
def twoFrames : Phys := ⟨fun _ => 0, fun _ => false, fun _ => 0, fun _ _ => 0, [some 1, some 2]⟩

theorem userLeaf_page : UserLeaf .COMMONPAGE (PTE_R ||| PTE_U) := ⟨by decide, nofun⟩

theorem mappages_translates_page : ∃ k' pt',
    mappages twoFrames uvmcreate 0x1000 PGSIZE (0x5000 / PGSIZE) (PTE_R ||| PTE_U) .COMMONPAGE = .ok (k', pt', true) ∧
      walkaddr_pa pt' 0x1fff = 0x5000 := by
  obtain ⟨k', pt', h⟩ : ∃ k' pt', mappages twoFrames uvmcreate 0x1000 PGSIZE (0x5000 / PGSIZE) (PTE_R ||| PTE_U)
      .COMMONPAGE = .ok (k', pt', true) := ⟨_, _, rfl⟩
  have hmax : 0x1000 + PGSIZE ≤ MAXVA := by decide
  exact ⟨k', pt', h, (mappages_translates hmax userLeaf_page h).1 rfl 0x1fff ⟨by decide, by decide⟩⟩

theorem leafAt_uvmcreate (u : Use) : uvmcreate.leafAt u = Pte.zero := by cases u <;> rfl

/-- The offset of a physical address is lost. -/
theorem offset_is_lost : ¬∀ (k k' : Phys) (pt pt' : PageTable) (va size pa : Nat) (perm : Flags) (level : Level),
    0 < size → va + size ≤ MAXVA → UserLeaf level perm → NoConflict pt level va size →
      mappages k pt va size (pa / PGSIZE) perm level = .ok (k', pt', true) →
        ∀ x, Covered level va size x → walkaddr_pa pt' x = (pa + (PGROUNDDOWN x - level.down va)) % 2 ^ 64 := by
  intro h
  have hfree : NoConflict uvmcreate .COMMONPAGE 0x1000 PGSIZE := by
    refine fun x _ => ⟨?_, nofun⟩
    rintro ⟨level, hv⟩
    rw [leafAt_uvmcreate] at hv
    cases hv
  obtain ⟨k', pt', hmap⟩ : ∃ k' pt', mappages twoFrames uvmcreate 0x1000 PGSIZE (0x5001 / PGSIZE) (PTE_R ||| PTE_U)
      .COMMONPAGE = .ok (k', pt', true) := ⟨_, _, rfl⟩
  have hpa := h _ _ _ _ 0x1000 PGSIZE 0x5001 _ _ (by decide) (by decide) userLeaf_page hfree hmap 0x1000
    ⟨by decide, by decide⟩
  have hal := walkaddr_pa_aligned pt' 0x1000
  rw [hpa] at hal
  exact absurd hal (by decide)

end LostWakeup.Mm.Vm
