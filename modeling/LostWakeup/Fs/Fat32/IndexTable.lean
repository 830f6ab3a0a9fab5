/-
# LostWakeup.Fs.Fat32.IndexTable — the index table of an inode: from the number of a cluster in its file to the cluster.

The first 12 numbers are in the inode, the next 50 * 1024 in pages that are allocated when they are first looked at; the
levels above panic.  The loops that empty the table stop at the first place that is empty.
-/
import Mathlib.Data.Nat.Bitwise
import Mathlib.Logic.Function.Basic
import LostWakeup.Library.Run
import LostWakeup.Library.Outcome

namespace LostWakeup.Fs.Fat32.IndexTable

open Library
open Function (update update_of_ne update_self)

/-! ## The table -/

def N_DIRECT : Nat := 12
def N_LEVEL_ONE : Nat := 50
def N_INDIRECT : Nat := 1024
def MAX_INDEX_0 : Nat := N_DIRECT
def OFFSET_LEVEL_1 : Nat := N_INDIRECT
def MAX_INDEX_1 : Nat := MAX_INDEX_0 + N_LEVEL_ONE * OFFSET_LEVEL_1
def MAX_INDEX_2 : Nat := MAX_INDEX_1 + N_INDIRECT * N_INDIRECT
def MAX_INDEX_3 : Nat := MAX_INDEX_2 + N_INDIRECT * N_INDIRECT * N_INDIRECT

def IDX_OFFSET (idx : Nat) : Nat := idx &&& (N_INDIRECT - 1)

def EOC : Nat := 0x0FFFFFFF

/-- `struct index_table`, with the pages behind its pointers; the upper levels are never used. -/
structure index_table where
  direct : Nat → Nat
  indirect_one : Nat → Option (Nat → Nat)

/-- The fields of an inode that say where its clusters are. -/
structure inode where
  cluster_start : Nat
  cluster_end : Nat
  cluster_cnt : Nat
  i_table : index_table

inductive Panic
  | l_num_assert
  | lookup_not_tested
  deriving DecidableEq

def INDEX_LOOKUP (p : Nat) : Nat := if p = 0 then EOC else p

def get_index_val (idx_table : Nat → Nat) (idx_entry cluster_num : Nat) : (Nat → Nat) × Nat :=
  if cluster_num = 0 then (idx_table, INDEX_LOOKUP (idx_table idx_entry))
  else (update idx_table idx_entry cluster_num, cluster_num)

/-- `fat32_ctl_index_table`: a store, or a lookup if `cluster_num` is 0. -/
def fat32_ctl_index_table (ip : inode) (l_num cluster_num : Nat) : Except Panic (inode × Nat) :=
  if ¬(1 ≤ l_num ∧ l_num ≤ MAX_INDEX_3) then
    .error .l_num_assert
  else
    let idx := l_num - 1
    if l_num ≤ MAX_INDEX_0 then
      let (direct, val) := get_index_val ip.i_table.direct idx cluster_num
      .ok ({ ip with i_table := { ip.i_table with direct := direct } }, val)
    else if l_num ≤ MAX_INDEX_1 then
      let idx := idx - MAX_INDEX_0
      let table_offset := idx / OFFSET_LEVEL_1
      -- an empty slot gets a page of zeros, for a lookup too
      let page := (ip.i_table.indirect_one table_offset).getD fun _ => 0
      let (page, val) := get_index_val page (IDX_OFFSET (idx % OFFSET_LEVEL_1)) cluster_num
      .ok ({ ip with i_table := { ip.i_table with
        indirect_one := update ip.i_table.indirect_one table_offset (some page) } }, val)
    else
      .error .lookup_not_tested

/-- A loop that empties the places of an array up to the first empty one. -/
def clearFrom {α : Type} (isEmpty : α → Bool) (empty : α) : Nat → Nat → (Nat → α) → Nat → α
  | 0, _, f => f
  | fuel + 1, idx, f => if isEmpty (f idx) then f else clearFrom isEmpty empty fuel (idx + 1) (update f idx empty)

def fat32_free_index_table (ip : inode) : inode :=
  if ip.cluster_cnt = 0 then ip
  else { ip with
    i_table := {
      direct := clearFrom (· == 0) 0 N_DIRECT 0 ip.i_table.direct
      indirect_one := clearFrom Option.isNone none N_LEVEL_ONE 0 ip.i_table.indirect_one } }

/-! ## The array it stands for -/

/-- The clusters that were stored, by number. -/
abbrev Clusters := Nat → Option Nat

inductive Event
  | ctl (l_num cluster_num : Nat)
  | free
  /-- The file system counts the clusters of the file. -/
  | count (cluster_cnt : Nat)

/-- What an event returns, and the inode after it. -/
def perform (ip : inode) : Event → Except Panic (inode × Option Nat)
  | .ctl l_num cluster_num => (fat32_ctl_index_table ip l_num cluster_num).map fun r => (r.1, some r.2)
  | .free => .ok (fat32_free_index_table ip, none)
  | .count cluster_cnt => .ok ({ ip with cluster_cnt := cluster_cnt }, none)

/-- The same for the array. -/
def effect (a : Clusters) : Event → Clusters
  | .ctl l_num cluster_num => if cluster_num = 0 then a else update a l_num (some cluster_num)
  | .free => fun _ => none
  | .count _ => a

def answer (a : Clusters) : Event → Option Nat
  | .ctl l_num cluster_num => some (if cluster_num = 0 then (a l_num).getD EOC else cluster_num)
  | .free => none
  | .count _ => none

/-- The numbers that the `ASSERT` admits. -/
def Admitted : Event → Prop
  | .ctl l_num _ => 1 ≤ l_num ∧ l_num ≤ MAX_INDEX_3
  | .free => True
  | .count _ => True

/-- The place of a cluster number, 0 where there is nothing. -/
def index_table.entry (t : index_table) (l_num : Nat) : Nat :=
  if l_num ≤ MAX_INDEX_0 then t.direct (l_num - 1)
  else ((t.indirect_one ((l_num - 1 - MAX_INDEX_0) / OFFSET_LEVEL_1)).getD fun _ => 0) ((l_num - 1 - MAX_INDEX_0) % OFFSET_LEVEL_1)

def index_table.NoPages (t : index_table) : Prop := ∀ table_offset < N_LEVEL_ONE, t.indirect_one table_offset = none

def Refines (ip : inode) (a : Clusters) : Prop :=
  ∀ l_num, 1 ≤ l_num → l_num ≤ MAX_INDEX_1 → ip.i_table.entry l_num = (a l_num).getD 0

/-- An event does to the table what it does to the array, and if it empties the table it leaves no page. -/
def Correct (ip : inode) (a : Clusters) (e : Event) : Prop :=
  ∃ ip', perform ip e = .ok (ip', answer a e) ∧ Refines ip' (effect a e) ∧ (e = .free → ip'.i_table.NoPages)

/-! ## The condition -/

/-- Nothing is behind an empty place. -/
def Packed {α : Type} (isEmpty : α → Bool) (n : Nat) (f : Nat → α) : Prop :=
  ∀ i j, i < j → j < n → isEmpty (f i) = true → isEmpty (f j) = true

/-- The table is empty, or the file has clusters and the loops come to all of the table. -/
def Releasable (ip : inode) : Prop :=
  if ip.cluster_cnt = 0 then (∀ idx < N_DIRECT, ip.i_table.direct idx = 0) ∧ ip.i_table.NoPages
  else Packed (· == 0) N_DIRECT ip.i_table.direct ∧ Packed Option.isNone N_LEVEL_ONE ip.i_table.indirect_one

def Cond (ip : inode) : Event → Prop
  | .ctl l_num _ => l_num ≤ MAX_INDEX_1
  | .free => Releasable ip
  | .count _ => True

/-- The table and the array, step by step. -/
def Step (s : inode × Clusters) (e : Event) (s' : inode × Clusters) : Prop :=
  ∃ r, perform s.1 e = .ok (s'.1, r) ∧ s'.2 = effect s.2 e

/-! ## Lookups and stores -/

theorem idx_offset_mod (idx : Nat) : IDX_OFFSET (idx % OFFSET_LEVEL_1) = idx % OFFSET_LEVEL_1 := by
  have hmask := Nat.and_two_pow_sub_one_eq_mod (idx % 1024) 10
  rw [IDX_OFFSET, OFFSET_LEVEL_1, N_INDIRECT]
  rw [show (1024 : Nat) - 1 = 2 ^ 10 - 1 from rfl, hmask]
  exact Nat.mod_mod idx 1024

theorem get_index_val_eq (idx_table : Nat → Nat) (idx_entry cluster_num : Nat) :
    get_index_val idx_table idx_entry cluster_num =
      (if cluster_num = 0 then idx_table else update idx_table idx_entry cluster_num,
        if cluster_num = 0 then INDEX_LOOKUP (idx_table idx_entry) else cluster_num) := by
  unfold get_index_val
  split <;> rfl

/-- What a lookup or a store does, where it does not panic. -/
theorem ctl_spec (ip : inode) {l_num : Nat} (cluster_num : Nat) (hlo : 1 ≤ l_num) (hhi : l_num ≤ MAX_INDEX_1) :
    ∃ t, fat32_ctl_index_table ip l_num cluster_num =
        .ok ({ ip with i_table := t }, if cluster_num = 0 then INDEX_LOOKUP (ip.i_table.entry l_num) else cluster_num) ∧
      (∀ k, 1 ≤ k → t.entry k = if cluster_num ≠ 0 ∧ k = l_num then cluster_num else ip.i_table.entry k) ∧
      ∀ j, (t.indirect_one j).isNone = true ↔ (ip.i_table.indirect_one j).isNone = true ∧
        ¬(MAX_INDEX_0 < l_num ∧ j = (l_num - 1 - MAX_INDEX_0) / OFFSET_LEVEL_1) := by
  have hassert : ¬¬(1 ≤ l_num ∧ l_num ≤ MAX_INDEX_3) := by
    have hle : MAX_INDEX_1 ≤ MAX_INDEX_3 := by decide
    omega
  unfold fat32_ctl_index_table
  rw [if_neg hassert]
  dsimp only
  split
  next hdirect =>
    rw [get_index_val_eq]
    refine ⟨_, by rw [index_table.entry, if_pos hdirect], fun k hk => ?_, fun j => ?_⟩
    · unfold index_table.entry
      rcases Nat.eq_zero_or_pos cluster_num with rfl | hpos
      · simp
      have hne : cluster_num ≠ 0 := Nat.ne_of_gt hpos
      rcases eq_or_ne k l_num with rfl | hother
      · simp [hne, hdirect]
      · have hidx : k - 1 ≠ l_num - 1 := by omega
        simp [hne, hother, update_of_ne hidx]
    · have hnot : ¬MAX_INDEX_0 < l_num := not_lt.mpr hdirect
      simp [hnot]
  next hpage =>
    rw [get_index_val_eq, idx_offset_mod]
    refine ⟨_, by rw [index_table.entry, if_neg hpage], fun k hk => ?_, fun j => ?_⟩
    · unfold index_table.entry
      by_cases hk0 : k ≤ MAX_INDEX_0
      · have hother : k ≠ l_num := by omega
        simp [hk0, hother]
      rw [if_neg hk0, if_neg hk0]
      dsimp only
      rcases eq_or_ne ((k - 1 - MAX_INDEX_0) / OFFSET_LEVEL_1) ((l_num - 1 - MAX_INDEX_0) / OFFSET_LEVEL_1) with hsame | hdiff
      · rw [hsame, update_self, Option.getD_some]
        rcases Nat.eq_zero_or_pos cluster_num with rfl | hpos
        · simp
        have hne : cluster_num ≠ 0 := Nat.ne_of_gt hpos
        rw [if_neg hne]
        rcases eq_or_ne k l_num with rfl | hother
        · simp [hne]
        have hoff : (k - 1 - MAX_INDEX_0) % OFFSET_LEVEL_1 ≠ (l_num - 1 - MAX_INDEX_0) % OFFSET_LEVEL_1 := by
          have hk' := Nat.div_add_mod (k - 1 - MAX_INDEX_0) OFFSET_LEVEL_1
          have hl' := Nat.div_add_mod (l_num - 1 - MAX_INDEX_0) OFFSET_LEVEL_1
          rw [hsame] at hk'
          omega
        simp [hother, update_of_ne hoff]
      · have hother : k ≠ l_num := by
          rintro rfl
          exact hdiff rfl
        simp [hother, update_of_ne hdiff]
    · have hgt : MAX_INDEX_0 < l_num := Nat.lt_of_not_le hpage
      rcases eq_or_ne j ((l_num - 1 - MAX_INDEX_0) / OFFSET_LEVEL_1) with rfl | hne
      · simp [hgt]
      · simp [hne]

/-! ## Emptying -/

section

variable {α : Type} {isEmpty : α → Bool} {empty : α}

/-- The loop empties the places before the first empty one, and no others. -/
theorem clearFrom_spec (fuel idx : Nat) (f : Nat → α) : ∃ stop, idx ≤ stop ∧ stop ≤ idx + fuel ∧
    (∀ k, idx ≤ k → k < stop → isEmpty (f k) = false) ∧ (stop < idx + fuel → isEmpty (f stop) = true) ∧
      ∀ k, clearFrom isEmpty empty fuel idx f k = if idx ≤ k ∧ k < stop then empty else f k := by
  induction fuel generalizing idx f with
  | zero =>
    refine ⟨idx, Nat.le_refl idx, Nat.le_refl idx, fun k hk hk' => by omega, fun h => by omega, fun k => ?_⟩
    rw [if_neg (by omega)]
    rfl
  | succ fuel ih =>
    rw [clearFrom]
    rcases Bool.eq_false_or_eq_true (isEmpty (f idx)) with hempty | hfull
    · rw [if_pos hempty]
      refine ⟨idx, Nat.le_refl idx, by omega, fun k hk hk' => by omega, fun _ => hempty, fun k => ?_⟩
      rw [if_neg (by omega)]
    rw [if_neg (by rw [hfull]; exact Bool.false_ne_true)]
    obtain ⟨stop, hlo, hhi, hbefore, hstop, hclear⟩ := ih (idx + 1) (update f idx empty)
    refine ⟨stop, by omega, by omega, fun k hk hk' => ?_, fun h => ?_, fun k => ?_⟩
    · rcases Nat.eq_or_lt_of_le hk with rfl | hlt
      · exact hfull
      · have hold := hbefore k hlt hk'
        rwa [update_of_ne (by omega)] at hold
    · have hold := hstop (by omega)
      rwa [update_of_ne (by omega)] at hold
    · rw [hclear k]
      rcases eq_or_ne k idx with rfl | hne
      · rw [if_neg (by omega), update_self, if_pos ⟨Nat.le_refl k, by omega⟩]
      · rw [update_of_ne hne]
        have hiff : idx + 1 ≤ k ∧ k < stop ↔ idx ≤ k ∧ k < stop := by omega
        simp only [hiff]

theorem clearFrom_empty_iff (hempty : isEmpty empty = true) (n : Nat) (f : Nat → α) :
    (∀ k < n, isEmpty (clearFrom isEmpty empty n 0 f k) = true) ↔ Packed isEmpty n f := by
  obtain ⟨stop, -, hhi, hbefore, hstop, hclear⟩ := @clearFrom_spec α isEmpty empty n 0 f
  constructor
  · intro hall i j hij hj hi
    have hle : stop ≤ i := by
      by_contra hlt
      exact absurd (hi.symm.trans (hbefore i (Nat.zero_le i) (by omega))) (by decide)
    have hafter := hall j hj
    rwa [hclear j, if_neg (by omega)] at hafter
  · intro hpacked k hk
    rw [hclear k]
    split
    · exact hempty
    next hout =>
      rcases lt_or_ge stop k with hlt | hge
      · exact hpacked stop k hlt hk (hstop (by omega))
      · obtain rfl : k = stop := by omega
        exact hstop (by omega)

end

theorem isNone_iff {α : Type} (o : Option α) : o.isNone = true ↔ o = none := Option.isNone_iff_eq_none

theorem entries_zero_iff (t : index_table) (hpages : t.NoPages) :
    (∀ l_num, 1 ≤ l_num → l_num ≤ MAX_INDEX_1 → t.entry l_num = 0) ↔ ∀ idx < N_DIRECT, t.direct idx = 0 := by
  constructor
  · intro hall idx hidx
    have hentry := hall (idx + 1) (Nat.succ_pos idx) (hidx.trans (by decide))
    rwa [index_table.entry, if_pos (show idx + 1 ≤ MAX_INDEX_0 from hidx), Nat.add_sub_cancel] at hentry
  intro hall l_num hlo hhi
  unfold index_table.entry
  split
  next hle => exact hall _ (by rw [MAX_INDEX_0] at hle; omega)
  next hgt =>
    have hslot : (l_num - 1 - MAX_INDEX_0) / OFFSET_LEVEL_1 < N_LEVEL_ONE := by
      simp only [MAX_INDEX_1, MAX_INDEX_0, N_DIRECT, N_LEVEL_ONE, OFFSET_LEVEL_1, N_INDIRECT] at hhi hgt ⊢
      omega
    rw [hpages _ hslot]
    rfl

theorem free_correct_iff (ip : inode) :
    (Refines (fat32_free_index_table ip) (fun _ => none) ∧ (fat32_free_index_table ip).i_table.NoPages) ↔ Releasable ip := by
  have hrefines : ∀ ip' : inode, ip'.i_table.NoPages →
      (Refines ip' (fun _ => none) ↔ ∀ idx < N_DIRECT, ip'.i_table.direct idx = 0) := by
    intro ip' hpages
    rw [← entries_zero_iff _ hpages]
    exact Iff.rfl
  rw [and_congr_left fun hpages => hrefines _ hpages]
  unfold fat32_free_index_table Releasable
  split
  · exact Iff.rfl
  have hdirect := @clearFrom_empty_iff Nat (· == 0) 0 rfl N_DIRECT ip.i_table.direct
  have hpages := @clearFrom_empty_iff (Option (Nat → Nat)) Option.isNone none rfl N_LEVEL_ONE ip.i_table.indirect_one
  rw [← hdirect, ← hpages]
  simp only [beq_iff_eq, isNone_iff]
  exact Iff.rfl

/-! ## The refinement -/

theorem refines_count {ip : inode} {a : Clusters} (h : Refines ip a) (cluster_cnt : Nat) :
    Refines { ip with cluster_cnt := cluster_cnt } a := h

/-- What is stored is never 0. -/
def NonZero (a : Clusters) : Prop := ∀ l_num c, a l_num = some c → c ≠ 0

theorem effect_nonzero {a : Clusters} (h : NonZero a) (e : Event) : NonZero (effect a e) := by
  cases e with
  | ctl l_num cluster_num =>
    intro k c hk
    rw [effect] at hk
    split at hk
    · exact h k c hk
    next hne =>
      rcases eq_or_ne k l_num with rfl | hother
      · rw [update_self] at hk
        cases hk
        exact hne
      · rw [update_of_ne hother] at hk
        exact h k c hk
  | free =>
    intro k c hk
    cases hk
  | count cluster_cnt => exact h

theorem lookup_eq {a : Clusters} (h : NonZero a) (l_num : Nat) : INDEX_LOOKUP ((a l_num).getD 0) = (a l_num).getD EOC := by
  cases hl : a l_num with
  | none => rfl
  | some c => exact if_neg (h l_num c hl)

/-- Where table and array agree, an event keeps them so exactly when it meets the condition. -/
theorem correct_iff {ip : inode} {a : Clusters} (h : Refines ip a) (hne : NonZero a) {e : Event} (hadm : Admitted e) :
    Correct ip a e ↔ Cond ip e := by
  cases e with
  | ctl l_num cluster_num =>
    obtain ⟨hlo, hmax⟩ := hadm
    constructor
    · rintro ⟨ip', hrun, -⟩
      by_contra hgt
      have hgt : ¬l_num ≤ MAX_INDEX_1 := hgt
      have h0 : ¬l_num ≤ MAX_INDEX_0 := fun hle => hgt (hle.trans (by decide))
      rw [perform, fat32_ctl_index_table, if_neg (not_not.mpr ⟨hlo, hmax⟩), if_neg h0, if_neg hgt] at hrun
      cases hrun
    · intro hhi
      obtain ⟨t, hrun, hentry, -⟩ := ctl_spec ip cluster_num hlo hhi
      refine ⟨{ ip with i_table := t }, ?_, fun k hk hk' => ?_, nofun⟩
      · rw [perform, hrun, answer, h l_num hlo hhi, lookup_eq hne]
        rfl
      show t.entry k = _
      rw [hentry k hk, effect]
      rcases Nat.eq_zero_or_pos cluster_num with rfl | hpos
      · rw [if_neg (by simp), if_pos rfl]
        exact h k hk hk'
      have hnz : cluster_num ≠ 0 := Nat.ne_of_gt hpos
      rw [if_neg hnz]
      rcases eq_or_ne k l_num with rfl | hother
      · rw [if_pos ⟨hnz, rfl⟩, update_self]
        rfl
      · rw [if_neg fun hc => hother hc.2, update_of_ne hother]
        exact h k hk hk'
  | free =>
    rw [Cond, ← free_correct_iff]
    constructor
    · rintro ⟨ip', hrun, hrefines, hpages⟩
      cases hrun
      exact ⟨hrefines, hpages rfl⟩
    · rintro ⟨hrefines, hpages⟩
      exact ⟨_, rfl, hrefines, fun _ => hpages⟩
  | count cluster_cnt =>
    refine ⟨fun _ => trivial, fun _ => ⟨_, rfl, refines_count h cluster_cnt, nofun⟩⟩

/-- A new inode. -/
def fresh : inode := ⟨0, 0, 0, ⟨fun _ => 0, fun _ => none⟩⟩

theorem fresh_refines : Refines fresh fun _ => none := by
  intro l_num _ _
  unfold index_table.entry fresh
  split <;> rfl

/-- **The index table stands for the array of what was stored** in every run whose steps stay in the first levels and empty
no table with gaps; and a further step is right if and only if it does so too. -/
theorem index_table_refines {es : List Event} {ip : inode} {a : Clusters}
    (hrun : Run (Guarded Step fun s e => Admitted e ∧ Cond s.1 e) (fresh, fun _ => none) es (ip, a)) :
    Refines ip a ∧ ∀ e, Admitted e → (Correct ip a e ↔ Cond ip e) := by
  have hinv : Refines ip a ∧ NonZero a := by
    refine @Run.invariant _ _ _ _ _ (fun s => Refines s.1 s.2 ∧ NonZero s.2) ?_ es hrun ⟨fresh_refines, fun l_num c h => by cases h⟩
    rintro s e s' ⟨hrefines, hne⟩ ⟨⟨hadm, hcond⟩, r, hperform, heffect⟩
    obtain ⟨ip', hrun', hrefines', -⟩ := (correct_iff hrefines hne hadm).mpr hcond
    rw [hperform] at hrun'
    cases hrun'
    rw [heffect]
    exact ⟨hrefines', effect_nonzero hne e⟩
  exact ⟨hinv.1, fun e hadm => correct_iff hinv.1 hinv.2 hadm⟩

theorem step_of {ip ip' : inode} {a : Clusters} {e : Event} {r : Option Nat} (h : perform ip e = .ok (ip', r)) :
    Step (ip, a) e (ip', effect a e) :=
  ⟨r, h, rfl⟩

theorem step_ctl (ip : inode) (a : Clusters) {l_num : Nat} (cluster_num : Nat) (hlo : 1 ≤ l_num) (hhi : l_num ≤ MAX_INDEX_1) :
    ∃ t, Step (ip, a) (.ctl l_num cluster_num) ({ ip with i_table := t }, effect a (.ctl l_num cluster_num)) ∧
      ∀ j, (t.indirect_one j).isNone = true ↔ (ip.i_table.indirect_one j).isNone = true ∧
        ¬(MAX_INDEX_0 < l_num ∧ j = (l_num - 1 - MAX_INDEX_0) / OFFSET_LEVEL_1) := by
  obtain ⟨t, hrun, -, hpages⟩ := ctl_spec ip cluster_num hlo hhi
  have hperform : perform ip (.ctl l_num cluster_num) = .ok ({ ip with i_table := t },
      some (if cluster_num = 0 then INDEX_LOOKUP (ip.i_table.entry l_num) else cluster_num)) := by
    rw [perform, hrun]
    rfl
  exact ⟨t, step_of hperform, hpages⟩

/-- An inode with one cluster, before anything is stored. -/
def ofOneCluster : inode := ⟨0, 0, 1, ⟨fun _ => 0, fun _ => none⟩⟩

/-- A file of one cluster, looked up behind its end. -/
theorem index_table_refines_one : ∃ ip a,
    Run (Guarded Step fun s e => Admitted e ∧ Cond s.1 e) (fresh, fun _ => none) [.count 1, .ctl 1 7, .ctl 2 0] (ip, a) ∧
      Refines ip a ∧ ∀ e, Admitted e → (Correct ip a e ↔ Cond ip e) := by
  have hcount : Step (fresh, fun _ => none) (.count 1) (ofOneCluster, effect (fun _ => none) (.count 1)) := step_of rfl
  have hfst : 1 ≤ 1 ∧ 1 ≤ MAX_INDEX_1 ∧ 1 ≤ MAX_INDEX_3 := by decide
  have hsnd : 1 ≤ 2 ∧ 2 ≤ MAX_INDEX_1 ∧ 2 ≤ MAX_INDEX_3 := by decide
  obtain ⟨t, hstore, -⟩ := step_ctl ofOneCluster (effect (fun _ => none) (.count 1)) 7 hfst.1 hfst.2.1
  obtain ⟨t', hlookup, -⟩ :=
    step_ctl { ofOneCluster with i_table := t } (effect (effect (fun _ => none) (.count 1)) (.ctl 1 7)) 0 hsnd.1 hsnd.2.1
  have hrun : Run (Guarded Step fun s e => Admitted e ∧ Cond s.1 e) (fresh, fun _ => none) [.count 1, .ctl 1 7, .ctl 2 0] _ :=
    .cons ⟨⟨trivial, trivial⟩, hcount⟩ (.cons ⟨⟨⟨hfst.1, hfst.2.2⟩, hfst.2.1⟩, hstore⟩
      (.cons ⟨⟨⟨hsnd.1, hsnd.2.2⟩, hsnd.2.1⟩, hlookup⟩ (.nil _)))
  exact ⟨_, _, hrun, index_table_refines hrun⟩

/-- A lookup in the second page leaves it behind the empty slot of the first, and the release loop stops there. -/
theorem looked_up_page_kept : ¬∀ (es : List Event) (ip : inode) (a : Clusters), (∀ e ∈ es, Admitted e) →
    Run Step (fresh, fun _ => none) es (ip, a) → ∀ e, Admitted e → Correct ip a e := by
  intro h
  have hsecond : 1 ≤ 1037 ∧ 1037 ≤ MAX_INDEX_1 ∧ 1037 ≤ MAX_INDEX_3 := by decide
  have hcount : Step (fresh, fun _ => none) (.count 1) (ofOneCluster, effect (fun _ => none) (.count 1)) := step_of rfl
  obtain ⟨t, hlookup, hpages⟩ := step_ctl ofOneCluster (effect (fun _ => none) (.count 1)) 0 hsecond.1 hsecond.2.1
  have hadm : ∀ e ∈ [Event.count 1, Event.ctl 1037 0], Admitted e := by
    intro e he
    rcases List.mem_cons.mp he with rfl | he
    · trivial
    · obtain rfl := List.mem_singleton.mp he
      exact ⟨hsecond.1, hsecond.2.2⟩
  obtain ⟨ip', hfree, hrefines, hnone⟩ := h _ _ _ hadm (.cons hcount (.cons hlookup (.nil _))) .free trivial
  cases hfree
  have hrel := (free_correct_iff _).mp ⟨hrefines, hnone rfl⟩
  unfold Releasable at hrel
  dsimp only at hrel
  rw [if_neg (show ¬ofOneCluster.cluster_cnt = 0 from Nat.one_ne_zero)] at hrel
  have hempty : (t.indirect_one 0).isNone = true := (hpages 0).mpr ⟨rfl, by decide⟩
  exact ((hpages 1).mp (hrel.2 0 1 (by decide) (by decide) hempty)).2 ⟨by decide, by decide⟩

end LostWakeup.Fs.Fat32.IndexTable
