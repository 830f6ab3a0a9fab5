/-
# LostWakeup.Fs.Mpage — `mpage.c`: pages that are missing from the cache are read in batches.

`mpage_readpages` takes one block of memory for every gap between cached pages.  The pages of the gaps go on a list, which
`fat32_rw_pages_batch` cuts into runs of consecutive pages in consecutive frames again; each run is one transfer.
`block_full_pages` turns its page number into a byte offset of 32 bits.

The page tree is a map from page numbers to page frames, and a frame goes by its number.
-/
import LostWakeup.Mm.Sizes

namespace LostWakeup.Fs.Mpage

open Library
open Function (update update_of_ne update_self)
open Mm.Buddy (PGSIZE BUDDY_MAX_ORDER)
open Mm.Kalloc.Mem (size_to_page_order)
open Mm.Sizes (page_num size_to_page_order_eq)
open List (mem_cons_self)

/-! ## The data -/

/-- The page tree of a mapping. -/
abbrev Tree := Nat → Option Nat

structure Page_item where
  pa : Nat
  index : Nat
  deriving DecidableEq

/-- What `kzalloc` has for one call of `mpage_readpages`: the first frame of the block for each gap, and room for the
`Page_item` of each page. -/
structure Memory where
  block : Nat → Option Nat
  item : Nat → Bool

inductive Panic
  | cnt_assert
  /-- `ASSERT(order <= BUDDY_MAX_ORDER)`. -/
  | buddy_order
  | no_memory
  | add_to_page_cache
  | start_idx
  /-- Not of the source: a loop has not ended within the given turns. -/
  | no_return
  deriving DecidableEq

/-- What the scan of a range keeps. -/
structure Scan where
  page_tree : Tree
  nrpages : Nat
  first_pa : Option Nat
  entry : List Page_item

/-! ## The scan -/

def kzalloc (mem : Memory) (start_idx size : Nat) : Except Panic Nat :=
  if BUDDY_MAX_ORDER < (if size ≤ PGSIZE then 0 else size_to_page_order size) then .error .buddy_order
  else
    match mem.block start_idx with
    | some pa => .ok pa
    | none => .error .no_memory

def add_to_page_cache_atomic (page : Nat) (s : Scan) (index : Nat) : Except Panic Scan :=
  if (s.page_tree index).isSome then .error .add_to_page_cache
  else .ok { s with page_tree := update s.page_tree index (some page), nrpages := s.nrpages + 1 }

section Code

variable (mem : Memory) (index cnt : Nat) (read_from_disk : Bool)

/-- The loop over `end_idx`. -/
def gapEnd (page_tree : Tree) : Nat → Nat → Nat
  | 0, end_idx => end_idx
  | fuel + 1, end_idx =>
    if end_idx < cnt ∧ page_tree (add64 index end_idx) = none then gapEnd page_tree fuel (end_idx + 1) else end_idx

def gapSize (start_idx end_idx : Nat) : Nat := PGSIZE * (end_idx - start_idx) % 2 ^ 64

/-- The loop over `int z`; the flag says that the function has returned. -/
def addLoop (pa start_idx end_idx : Nat) : Nat → Int → Scan → Except Panic (Bool × Scan)
  | 0, _, _ => .error .no_return
  | fuel + 1, z, s =>
    if toUint64 z < end_idx then
      let pa_tmp := pa + (toUint64 z - start_idx)
      let index_tmp := add64 index (toUint64 z)
      match add_to_page_cache_atomic pa_tmp s index_tmp with
      | .error e => .error e
      | .ok s =>
        if cnt = 1 ∧ read_from_disk = false then .ok (true, s)
        else if mem.item (toUint64 z) = false then .error .no_memory
        else addLoop pa start_idx end_idx fuel (int32 (z + 1)) { s with entry := s.entry ++ [⟨pa_tmp, index_tmp⟩] }
    else .ok (false, s)

/-- A block for the gap at `start_idx`, whose pages join the cache; the flag, and the end of the gap. -/
def takeGap (start_idx : Nat) (s : Scan) : Except Panic (Bool × Nat × Scan) :=
  let end_idx := gapEnd index cnt s.page_tree cnt (start_idx + 1)
  match kzalloc mem start_idx (gapSize start_idx end_idx) with
  | .error e => .error e
  | .ok pa =>
    let s := { s with first_pa := s.first_pa.or (some pa) }
    match addLoop mem index cnt read_from_disk pa start_idx end_idx (end_idx - start_idx + 1) (int32 start_idx) s with
    | .error e => .error e
    | .ok (returned, s) => .ok (returned, end_idx, s)

/-- The loop over `start_idx`. -/
def scanLoop : Nat → Nat → Scan → Except Panic (Bool × Scan)
  | 0, _, _ => .error .no_return
  | fuel + 1, start_idx, s =>
    if start_idx < cnt then
      if s.page_tree (add64 index start_idx) = none then
        match takeGap mem index cnt read_from_disk start_idx s with
        | .error e => .error e
        | .ok (returned, end_idx, s) => if returned then .ok (true, s) else scanLoop fuel (add64 end_idx 1) s
      else if start_idx = 0 then .error .start_idx
      else scanLoop fuel (start_idx + 1) s
    else .ok (false, s)

/-! ## The batches -/

def PAGE_ADJACENT (p_cur p_nxt : Page_item) : Prop := add64 p_cur.index 1 = p_nxt.index ∧ p_cur.pa + 1 = p_nxt.pa

instance decidablePageAdjacent (p_cur p_nxt : Page_item) : Decidable (PAGE_ADJACENT p_cur p_nxt) :=
  inferInstanceAs (Decidable (_ ∧ _))

/-- What `fat32_rw_pages` is called with. -/
structure Batch where
  src : Nat
  index : Nat
  cnt : Nat
  deriving DecidableEq

/-- The inner loop, from the item `p_cur_out` on: the size of the batch, and the items behind it. -/
def growBatch (p_cur_out : Page_item) (batch_size : Nat) : List Page_item → Nat × List Page_item
  | [] => (batch_size, [])
  | p_cur_in :: rest =>
    if PAGE_ADJACENT p_cur_out p_cur_in then growBatch p_cur_in (batch_size + 1) rest else (batch_size, p_cur_in :: rest)

/-- The outer loop; it takes at least one item each time. -/
def batchLoop : Nat → List Page_item → List Batch
  | 0, _ => []
  | _ + 1, [] => []
  | fuel + 1, p_cur_out :: rest =>
    let (batch_size, rest) := growBatch p_cur_out 1 rest
    ⟨p_cur_out.pa, p_cur_out.index, batch_size⟩ :: batchLoop fuel rest

def fat32_rw_pages_batch (entry : List Page_item) : List Batch := batchLoop entry.length entry

/-- The offset and the number of bytes that `block_full_pages` asks `fat32_get_block` for. -/
def Batch.off (b : Batch) : Nat := b.index * PGSIZE % 2 ^ 32

def Batch.n (b : Batch) : Nat := b.cnt * PGSIZE % 2 ^ 32

structure Pages where
  page_tree : Tree
  nrpages : Nat
  first_pa : Option Nat
  batches : List Batch

def mpage_readpages (page_tree : Tree) (nrpages : Nat) : Except Panic Pages :=
  if cnt = 0 then .error .cnt_assert
  else
    match scanLoop mem index cnt read_from_disk (cnt + 1) 0 ⟨page_tree, nrpages, none, []⟩ with
    | .error e => .error e
    | .ok (returned, s) =>
      let batches := if returned = false ∧ read_from_disk = true then fat32_rw_pages_batch s.entry else []
      .ok ⟨s.page_tree, s.nrpages, s.first_pa, batches⟩

end Code

/-! ## The order of a block -/

/-- The assertion of the allocator fires from `2^13 + 1` pages on. -/
theorem order_gt_iff {k : Nat} (hk : k < 2 ^ 52) :
    BUDDY_MAX_ORDER < (if PGSIZE * k % 2 ^ 64 ≤ PGSIZE then 0 else size_to_page_order (PGSIZE * k % 2 ^ 64)) ↔ 2 ^ 13 < k := by
  have hsize : PGSIZE * k % 2 ^ 64 = PGSIZE * k := Nat.mod_eq_of_lt (by rw [PGSIZE]; omega)
  rw [hsize]
  by_cases hone : PGSIZE * k ≤ PGSIZE
  · rw [if_pos hone]
    rw [PGSIZE] at hone
    exact ⟨fun h => absurd h (Nat.not_lt_zero _), fun h => by omega⟩
  rw [if_neg hone, size_to_page_order_eq]
  have hpages : page_num (PGSIZE * k) = k := by
    rw [page_num, roundUp, PGSIZE] at *
    omega
  have hk0 : k ≠ 0 := by
    rintro rfl
    exact hone (Nat.zero_le _)
  rw [hpages]
  have hlo : 2 ^ Nat.log 2 k ≤ k := Nat.pow_log_le_self 2 hk0
  have hhi : k < 2 ^ (Nat.log 2 k + 1) := Nat.lt_pow_succ_log_self (by decide) k
  generalize Nat.log 2 k = order at hlo hhi ⊢
  have hcases : order < 13 ∨ order = 13 ∨ 14 ≤ order := by omega
  rcases hcases with hlt | rfl | hge
  · have hle : 2 ^ (order + 1) ≤ 2 ^ 13 := Nat.pow_le_pow_right (by decide) hlt
    have hnot : ¬2 ^ 13 < k := by omega
    refine ⟨fun h => ?_, fun h => absurd h hnot⟩
    split at h
    · rw [BUDDY_MAX_ORDER] at h
      omega
    · rw [BUDDY_MAX_ORDER] at h
      omega
  · have hshift : toUint64 (int_shl_one 13) = 2 ^ 13 := rfl
    rw [hshift]
    by_cases hgt : k > 2 ^ 13
    · rw [if_pos hgt]
      exact ⟨fun _ => hgt, fun _ => by decide⟩
    · rw [if_neg hgt]
      exact ⟨fun h => absurd h (by decide), fun h => absurd h hgt⟩
  · have hle : 2 ^ 14 ≤ 2 ^ order := Nat.pow_le_pow_right (by decide) hge
    refine ⟨fun _ => by omega, fun _ => ?_⟩
    split
    · rw [BUDDY_MAX_ORDER]
      omega
    · rw [BUDDY_MAX_ORDER]
      omega

/-! ## Gaps and batches -/

/-- The items of consecutive pages in consecutive frames. -/
def run : Nat → Nat → Nat → List Page_item
  | _, _, 0 => []
  | frame, start, len + 1 => ⟨frame, start⟩ :: run (frame + 1) (start + 1) len

/-- A gap between cached pages, with the block that was taken for it. -/
structure Gap where
  start : Nat
  len : Nat
  frame : Nat

def Gap.items (g : Gap) : List Page_item := run g.frame g.start g.len

def Gap.batch (g : Gap) : Batch := ⟨g.frame, g.start, g.len⟩

/-- The page is in the gap. -/
def Gap.Has (g : Gap) (p : Nat) : Prop := g.start ≤ p ∧ p < g.start + g.len

theorem growBatch_run {frame start len batch_size : Nat} {rest : List Page_item} (hend : start + len < 2 ^ 64 - 1)
    (hrest : ∀ i ∈ rest.head?, start + len + 1 < i.index) :
    growBatch ⟨frame, start⟩ batch_size (run (frame + 1) (start + 1) len ++ rest) = (batch_size + len, rest) := by
  induction len generalizing frame start batch_size with
  | zero =>
    rw [run, List.nil_append]
    cases rest with
    | nil => rfl
    | cons i rest =>
      have hfar : start + 1 < i.index := hrest i rfl
      rw [growBatch, if_neg, Nat.add_zero]
      rintro ⟨hadj, -⟩
      have hnext : add64 start 1 = start + 1 := Nat.mod_eq_of_lt (by omega)
      rw [hnext] at hadj
      omega
  | succ len ih =>
    have hnext : add64 start 1 = start + 1 := Nat.mod_eq_of_lt (by omega)
    rw [run, List.cons_append, growBatch, if_pos ⟨hnext, rfl⟩, ih (by omega) fun i hi => ?_, Nat.add_assoc, Nat.add_comm 1 len]
    have := hrest i hi
    omega

/-- Gaps one behind the other, with a page between them. -/
structure Apart (gaps : List Gap) : Prop where
  pos : ∀ g ∈ gaps, 0 < g.len
  end_lt : ∀ g ∈ gaps, g.start + g.len < 2 ^ 64
  apart : gaps.Pairwise fun g g' => g.start + g.len < g'.start

/-- **The batches are the gaps.** -/
theorem batches_of_gaps {gaps : List Gap} (h : Apart gaps) : fat32_rw_pages_batch (gaps.flatMap Gap.items) = gaps.map Gap.batch := by
  have hloop : ∀ fuel, (gaps.flatMap Gap.items).length ≤ fuel →
      batchLoop fuel (gaps.flatMap Gap.items) = gaps.map Gap.batch := by
    induction gaps with
    | nil => exact fun fuel _ => by cases fuel <;> rfl
    | cons g gaps ih =>
      obtain ⟨hfirst, hapart⟩ := List.pairwise_cons.mp h.apart
      have hrest := ih ⟨fun g' hg => h.pos g' (List.mem_cons_of_mem g hg), fun g' hg => h.end_lt g' (List.mem_cons_of_mem g hg), hapart⟩
      obtain ⟨start, len, frame⟩ := g
      obtain ⟨len, rfl⟩ : ∃ m, len = m + 1 := ⟨len - 1, by have := h.pos _ mem_cons_self; dsimp only at this; omega⟩
      have hend : start + (len + 1) < 2 ^ 64 := h.end_lt _ mem_cons_self
      intro fuel hfuel
      have hitems : (⟨start, len + 1, frame⟩ :: gaps : List Gap).flatMap Gap.items =
          ⟨frame, start⟩ :: (run (frame + 1) (start + 1) len ++ gaps.flatMap Gap.items) := rfl
      rw [hitems, List.length_cons, List.length_append] at hfuel
      obtain ⟨fuel, rfl⟩ : ∃ m, fuel = m + 1 := ⟨fuel - 1, by omega⟩
      rw [hitems, batchLoop, growBatch_run (by omega) ?_]
      · dsimp only
        rw [hrest fuel (by omega), List.map_cons, Nat.add_comm 1 len]
        rfl
      · -- the next item is the first of the next gap
        intro i hi
        cases gaps with
        | nil => cases hi
        | cons g' gaps =>
          have hpos := h.pos g' (List.mem_cons_of_mem _ mem_cons_self)
          have hlt := hfirst g' mem_cons_self
          obtain ⟨start', len', frame'⟩ := g'
          obtain ⟨len', rfl⟩ : ∃ m, len' = m + 1 := ⟨len' - 1, by dsimp only at hpos; omega⟩
          obtain rfl : (⟨frame', start'⟩ : Page_item) = i := Option.some.inj hi
          exact hlt
  exact hloop _ (le_refl _)

/-! ## One gap -/

theorem toUint64_natCast {n : Nat} (h : n < 2 ^ 64) : toUint64 (n : Int) = n := by
  rw [toUint64]
  omega

theorem int32_natCast {n : Nat} (h : n < 2 ^ 31) : int32 (n : Int) = n := by
  apply int32_of_range
  · rw [INT_MIN]
    omega
  · rw [INT_MAX]
    omega

/-- The pages from `start` on in the frames from `frame` on. -/
def fillRun (t : Tree) (frame start len : Nat) : Tree := fun p =>
  if start ≤ p ∧ p < start + len then some (frame + (p - start)) else t p

theorem fillRun_zero (t : Tree) (frame start : Nat) : fillRun t frame start 0 = t := by
  funext p
  exact if_neg (by omega)

theorem fillRun_succ (t : Tree) (frame start len : Nat) :
    fillRun (update t start (some frame)) (frame + 1) (start + 1) len = fillRun t frame start (len + 1) := by
  funext p
  rw [fillRun, fillRun]
  rcases eq_or_ne p start with rfl | hne
  · rw [if_neg (by omega), if_pos (by omega), update_self, Nat.sub_self, Nat.add_zero]
  by_cases hin : start ≤ p ∧ p < start + (len + 1)
  · rw [if_pos (by omega), if_pos hin]
    congr 1
    omega
  · rw [if_neg (by omega), if_neg hin, update_of_ne hne]

section

variable {mem : Memory} {index cnt : Nat}

/-- The scan after a run of pages has joined the cache. -/
def Scan.add (s : Scan) (frame start len : Nat) : Scan :=
  { s with
    page_tree := fillRun s.page_tree frame start len, nrpages := s.nrpages + len, entry := s.entry ++ run frame start len }

/-- The loop over `int z` puts the rest of a gap into the cache, if there is memory for its items. -/
theorem addLoop_spec {pa start_idx end_idx fuel z : Nat} {s : Scan} (hlo : start_idx ≤ z) (hhi : z ≤ end_idx)
    (hsmall : end_idx < 2 ^ 31) (hend : index + end_idx < 2 ^ 64) (hfuel : end_idx < z + fuel)
    (hmissing : ∀ i, z ≤ i → i < end_idx → s.page_tree (index + i) = none) :
    ((∀ i, z ≤ i → i < end_idx → mem.item i = true) →
      addLoop mem index cnt true pa start_idx end_idx fuel z s =
        .ok (false, s.add (pa + (z - start_idx)) (index + z) (end_idx - z))) ∧
    ((∃ i, z ≤ i ∧ i < end_idx ∧ mem.item i = false) →
      addLoop mem index cnt true pa start_idx end_idx fuel z s = .error .no_memory) := by
  induction fuel generalizing z s with
  | zero => omega
  | succ fuel ih =>
    rw [addLoop, toUint64_natCast (by omega)]
    rcases lt_or_ge z end_idx with hlt | hge
    · have hindex : add64 index z = index + z := Nat.mod_eq_of_lt (by omega)
      have hnone := hmissing z (le_refl z) hlt
      have hadd : add_to_page_cache_atomic (pa + (z - start_idx)) s (index + z) =
          .ok { s with
            page_tree := update s.page_tree (index + z) (some (pa + (z - start_idx))), nrpages := s.nrpages + 1 } := by
        rw [add_to_page_cache_atomic, hnone]
        rfl
      have hsucc : z + 1 < 2 ^ 31 := by omega
      have hnext : int32 ((z : Int) + 1) = ((z + 1 : Nat) : Int) := int32_natCast hsucc
      have hread : ¬(cnt = 1 ∧ true = false) := fun h => Bool.noConfusion h.2
      rw [if_pos hlt, hindex]
      dsimp only
      rw [hadd, hnext]
      dsimp only
      rw [if_neg hread]
      obtain ⟨hgood, hbad⟩ := @ih (z + 1) { s with
        page_tree := update s.page_tree (index + z) (some (pa + (z - start_idx))), nrpages := s.nrpages + 1,
        entry := s.entry ++ [⟨pa + (z - start_idx), index + z⟩] } (by omega) (by omega) (by omega) fun i hi hlt' => by
          dsimp only
          rw [update_of_ne (by omega)]
          exact hmissing i (by omega) hlt'
      constructor
      · intro hitems
        have hitem := hitems z (le_refl z) hlt
        rw [hitem]
        refine (hgood fun i hi hlt' => hitems i (by omega) hlt').trans ?_
        obtain ⟨len, hlen⟩ : ∃ len, end_idx - z = len + 1 := ⟨end_idx - z - 1, by omega⟩
        rw [Scan.add, Scan.add, show end_idx - (z + 1) = len by omega, hlen, show pa + (z + 1 - start_idx) = pa + (z - start_idx) + 1 by omega,
          ← Nat.add_assoc index z 1]
        dsimp only
        rw [fillRun_succ, run, List.append_assoc, Nat.add_assoc, Nat.add_comm 1 len]
        rfl
      · rintro ⟨i, hi, hlt', hitem⟩
        rcases hz : mem.item z with _ | _
        · rfl
        refine hbad ⟨i, ?_, hlt', hitem⟩
        rcases eq_or_ne i z with rfl | hne
        · rw [hz] at hitem
          cases hitem
        · omega
    · rw [if_neg (by omega)]
      constructor
      · intro _
        obtain rfl : z = end_idx := by omega
        rw [Nat.sub_self, Scan.add, fillRun_zero, run, List.append_nil]
        rfl
      · rintro ⟨i, hi, hlt, -⟩
        omega

/-- The search for the end of a gap stops at the first page that is cached. -/
theorem gapEnd_spec {t : Tree} {fuel end_idx : Nat} (hle : end_idx ≤ cnt) (hend : index + cnt ≤ 2 ^ 64) (hfuel : cnt ≤ end_idx + fuel) :
    end_idx ≤ gapEnd index cnt t fuel end_idx ∧ gapEnd index cnt t fuel end_idx ≤ cnt ∧
      (∀ i, end_idx ≤ i → i < gapEnd index cnt t fuel end_idx → t (index + i) = none) ∧
      (gapEnd index cnt t fuel end_idx < cnt → t (index + gapEnd index cnt t fuel end_idx) ≠ none) := by
  induction fuel generalizing end_idx with
  | zero =>
    rw [gapEnd]
    exact ⟨le_refl _, hle, fun i hi hlt => by omega, fun hlt => by omega⟩
  | succ fuel ih =>
    rw [gapEnd]
    by_cases hmore : end_idx < cnt ∧ t (add64 index end_idx) = none
    · rw [if_pos hmore]
      obtain ⟨h₁, h₂, h₃, h₄⟩ := @ih (end_idx + 1) hmore.1 (by omega)
      refine ⟨by omega, h₂, fun i hi hlt => ?_, h₄⟩
      rcases eq_or_ne i end_idx with rfl | hne
      · have hindex : add64 index i = index + i := Nat.mod_eq_of_lt (by omega)
        rw [← hindex]
        exact hmore.2
      · exact h₃ i (by omega) hlt
    · rw [if_neg hmore]
      refine ⟨le_refl _, hle, fun i hi hlt => by omega, fun hlt hnone => hmore ⟨hlt, ?_⟩⟩
      have hindex : add64 index end_idx = index + end_idx := Nat.mod_eq_of_lt (by omega)
      rw [hindex]
      exact hnone

/-! ## The whole range -/

/-- No gap in the rest of a range is longer than the largest block of the allocator. -/
def Short {α : Type} (index cnt : Nat) (tree : Nat → Option α) (s : Nat) : Prop :=
  ∀ i, s ≤ i → i + 2 ^ 13 < cnt → ∃ j ≤ 2 ^ 13, tree (index + (i + j)) ≠ none

instance decidableShort {α : Type} (index cnt : Nat) (tree : Nat → Option α) (s : Nat) : Decidable (Short index cnt tree s) :=
  decidable_of_iff (∀ i < cnt - 2 ^ 13, s ≤ i → ∃ j < 2 ^ 13 + 1, (tree (index + (i + j))).isSome = true) (by
    simp only [Short, Nat.lt_sub_iff_add_lt, Nat.lt_succ_iff, Option.isSome_iff_ne_none]
    exact forall_congr' fun i => forall_comm)

/-- There is memory for the rest of a range: a block for each gap, and room for the items. -/
structure Granted (mem : Memory) (index cnt : Nat) (tree : Tree) (s : Nat) : Prop where
  block : ∀ i, s ≤ i → i < cnt → tree (index + i) = none → i = 0 ∨ tree (index + (i - 1)) ≠ none → mem.block i ≠ none
  item : ∀ i, s ≤ i → i < cnt → tree (index + i) = none → mem.item i = true

/-- The scan has come to `s` and has found these gaps. -/
structure Scanned (mem : Memory) (index cnt : Nat) (tree : Tree) (s : Nat) (gaps : List Gap) (st : Scan) : Prop where
  filled : ∀ g ∈ gaps, ∀ p, g.Has p → st.page_tree p = some (g.frame + (p - g.start))
  kept : ∀ p, (∀ g ∈ gaps, ¬g.Has p) → st.page_tree p = tree p
  entry : st.entry = gaps.flatMap Gap.items
  first : st.first_pa = gaps.head?.map Gap.frame
  pos : ∀ g ∈ gaps, 0 < g.len
  lower : ∀ g ∈ gaps, index ≤ g.start
  upper : ∀ g ∈ gaps, g.start + g.len ≤ index + cnt
  missing : ∀ g ∈ gaps, ∀ p, g.Has p → tree p = none
  begins : ∀ g ∈ gaps, g.start = index ∨ tree (g.start - 1) ≠ none
  block : ∀ g ∈ gaps, mem.block (g.start - index) = some g.frame
  all : ∀ i < s, i < cnt → tree (index + i) = none → ∃ g ∈ gaps, g.Has (index + i)
  apart : gaps.Pairwise fun g g' => g.start + g.len < g'.start
  behind : ∀ g ∈ gaps, g.start + g.len < index + s
  edge : s < cnt → s = 0 ∨ tree (index + (s - 1)) ≠ none

variable {tree : Tree} {s : Nat} {gaps : List Gap} {st : Scan}

theorem Scanned.start (nrpages : Nat) : Scanned mem index cnt tree 0 [] ⟨tree, nrpages, none, []⟩ := by
  have hnone : ∀ {P : Gap → Prop}, ∀ g ∈ ([] : List Gap), P g := fun g hg => absurd hg List.not_mem_nil
  exact ⟨hnone, fun _ _ => rfl, rfl, rfl, hnone, hnone, hnone, hnone, hnone, hnone, fun i hi => absurd hi (Nat.not_lt_zero i),
    .nil, hnone, fun _ => .inl rfl⟩

theorem Scanned.ahead (h : Scanned mem index cnt tree s gaps st) {i : Nat} (hi : s ≤ i) : st.page_tree (index + i) = tree (index + i) := by
  refine h.kept _ fun g hg hin => ?_
  have hbehind := h.behind g hg
  have hhi := hin.2
  omega

theorem Scanned.skip (h : Scanned mem index cnt tree s gaps st) (hcached : tree (index + s) ≠ none) :
    Scanned mem index cnt tree (s + 1) gaps st :=
  { h with
    all := fun i hi hlt hnone => by
      rcases eq_or_ne i s with rfl | hne
      · exact absurd hnone hcached
      · exact h.all i (by omega) hlt hnone
    behind := fun g hg => Nat.lt_succ_of_lt (h.behind g hg)
    edge := fun _ => .inr hcached }

/-- A gap has joined the cache. -/
theorem Scanned.fill (h : Scanned mem index cnt tree s gaps st) {e frame : Nat} (hlt : s < e) (hle : e ≤ cnt)
    (hmissing : ∀ i, s ≤ i → i < e → tree (index + i) = none) (hcached : e < cnt → tree (index + e) ≠ none)
    (hblock : mem.block s = some frame) :
    Scanned mem index cnt tree (e + 1) (gaps ++ [⟨index + s, e - s, frame⟩])
      (Scan.add { st with first_pa := st.first_pa.or (some frame) } frame (index + s) (e - s)) := by
  have hsplit : ∀ {P : Gap → Prop}, (∀ g ∈ gaps, P g) → P ⟨index + s, e - s, frame⟩ →
      ∀ g ∈ gaps ++ [⟨index + s, e - s, frame⟩], P g := by
    intro P hold hnew g hg
    rcases List.mem_append.mp hg with hg | hg
    · exact hold g hg
    · rw [List.mem_singleton.mp hg]
      exact hnew
  refine ⟨hsplit (fun g hg p hp => ?_) fun p hp => if_pos hp, fun p hp => ?_, ?_, ?_, hsplit h.pos (Nat.sub_pos_of_lt hlt),
    hsplit h.lower le_self_add, hsplit h.upper ?_, hsplit h.missing fun p hp => ?_, hsplit h.begins ?_,
    hsplit h.block ?_, fun i hi hcnt hnone => ?_, ?_, hsplit (fun g hg => ?_) ?_, fun hmore => .inr (hcached (by omega))⟩
  · have hbehind := h.behind g hg
    have hhi := hp.2
    exact (if_neg fun hin => by omega).trans (h.filled g hg p hp)
  · have hout := hp _ (List.mem_append_right _ mem_cons_self)
    exact (if_neg hout).trans (h.kept p fun g hg => hp g (List.mem_append_left _ hg))
  · rw [Scan.add, List.flatMap_append, List.flatMap_singleton, ← h.entry]
    rfl
  · rw [Scan.add, h.first]
    cases gaps <;> rfl
  · dsimp only
    omega
  · have hlo : index + s ≤ p := hp.1
    have hhi : p < index + s + (e - s) := hp.2
    have := hmissing (p - index) (by omega) (by omega)
    rwa [Nat.add_sub_of_le (by omega)] at this
  · rcases h.edge (by omega) with rfl | hedge
    · exact .inl rfl
    rcases Nat.eq_zero_or_pos s with rfl | hpos
    · exact .inl rfl
    · right
      rw [← Nat.add_sub_assoc hpos] at hedge
      exact hedge
  · rw [Nat.add_sub_cancel_left]
    exact hblock
  · rcases lt_or_ge i s with hold | hnew
    · obtain ⟨g, hg, hin⟩ := h.all i hold hcnt hnone
      exact ⟨g, List.mem_append_left _ hg, hin⟩
    · rcases eq_or_ne i e with rfl | hne
      · exact absurd hnone (hcached hcnt)
      · exact ⟨_, List.mem_append_right _ mem_cons_self, Nat.add_le_add_left hnew index, by dsimp only; omega⟩
  · refine List.pairwise_append.mpr ⟨h.apart, List.pairwise_singleton _ _, fun g hg g' hg' => ?_⟩
    rw [List.mem_singleton.mp hg']
    exact h.behind g hg
  · have := h.behind g hg
    omega
  · dsimp only
    omega

theorem short_skip (hcached : tree (index + s) ≠ none) : Short index cnt tree s ↔ Short index cnt tree (s + 1) := by
  refine ⟨fun h i hi => h i (Nat.le_of_succ_le hi), fun h i hi hlt => ?_⟩
  rcases eq_or_ne i s with rfl | hne
  · exact ⟨0, Nat.zero_le _, hcached⟩
  · exact h i (by omega) hlt

theorem Granted.mono {s' : Nat} (h : Granted mem index cnt tree s) (hle : s ≤ s') : Granted mem index cnt tree s' :=
  ⟨fun i hi => h.block i (hle.trans hi), fun i hi => h.item i (hle.trans hi)⟩

theorem granted_skip (hcached : tree (index + s) ≠ none) : Granted mem index cnt tree s ↔ Granted mem index cnt tree (s + 1) := by
  refine ⟨fun h => h.mono (Nat.le_succ s), fun h => ⟨fun i hi hlt hnone hedge => ?_, fun i hi hlt hnone => ?_⟩⟩
  · rcases eq_or_ne i s with rfl | hne
    · exact absurd hnone hcached
    · exact h.block i (by omega) hlt hnone hedge
  · rcases eq_or_ne i s with rfl | hne
    · exact absurd hnone hcached
    · exact h.item i (by omega) hlt hnone

section

variable {e : Nat} (hlt : s < e) (hle : e ≤ cnt) (hmissing : ∀ i, s ≤ i → i < e → tree (index + i) = none)
  (hcached : e < cnt → tree (index + e) ≠ none)

include hlt hle hmissing hcached

theorem short_gap : Short index cnt tree s ↔ e - s ≤ 2 ^ 13 ∧ Short index cnt tree (e + 1) := by
  refine ⟨fun h => ⟨?_, fun i hi => h i (by omega)⟩, ?_⟩
  · by_contra hlong
    obtain ⟨j, hj, hne⟩ := h s (le_refl s) (by omega)
    exact hne (hmissing (s + j) (Nat.le_add_right s j) (by omega))
  rintro ⟨hshort, hrest⟩ i hi hmore
  rcases lt_or_ge e i with hafter | hin
  · exact hrest i hafter hmore
  · refine ⟨e - i, by omega, ?_⟩
    rw [Nat.add_sub_of_le hin]
    exact hcached (by omega)

theorem granted_gap (hedge : s = 0 ∨ tree (index + (s - 1)) ≠ none) : Granted mem index cnt tree s ↔
    (mem.block s ≠ none ∧ ∀ i, s ≤ i → i < e → mem.item i = true) ∧ Granted mem index cnt tree (e + 1) := by
  constructor
  · intro h
    refine ⟨⟨h.block s (le_refl s) (by omega) (hmissing s (le_refl s) hlt) hedge, fun i hi hie => ?_⟩, h.mono (by omega)⟩
    exact h.item i hi (by omega) (hmissing i hi hie)
  rintro ⟨⟨hblock, hitem⟩, hrest⟩
  refine ⟨fun i hi hmore hnone hbegin => ?_, fun i hi hmore hnone => ?_⟩
  · rcases eq_or_ne i s with rfl | hne
    · exact hblock
    rcases lt_or_ge e i with hafter | hin
    · exact hrest.block i hafter hmore hnone hbegin
    · -- inside the gap no other gap begins
      rcases hbegin with rfl | hbegin
      · omega
      · rcases eq_or_ne i e with rfl | hbefore
        · exact absurd hnone (hcached hmore)
        · exact absurd (hmissing (i - 1) (by omega) (by omega)) hbegin
  · rcases lt_or_ge i e with hin | hafter
    · exact hitem i hi hin
    · rcases eq_or_ne i e with rfl | hne
      · exact absurd hnone (hcached hmore)
      · exact hrest.item i (by omega) hmore hnone

end

theorem kzalloc_ok {start_idx k : Nat} (hk : k < 2 ^ 52) :
    kzalloc mem start_idx (PGSIZE * k % 2 ^ 64) =
      if 2 ^ 13 < k then .error .buddy_order
      else
        match mem.block start_idx with
        | some pa => .ok pa
        | none => .error .no_memory := by
  rw [kzalloc]
  exact if_congr (order_gt_iff hk) rfl rfl

/-- One gap: it joins the cache if the allocator has a block of its size and there is memory. -/
theorem takeGap_spec (hend : index + cnt ≤ 2 ^ 64) (hnear : ∀ i < cnt, tree (index + i) = none → i + 1 < 2 ^ 31 ∧ index + i + 1 < 2 ^ 64)
    (hscan : Scanned mem index cnt tree s gaps st) (hlt : s < cnt) (hnone : tree (index + s) = none) :
    ∃ (e : Nat) (granted : Prop), s < e ∧ e ≤ cnt ∧ e < 2 ^ 31 ∧
      (Short index cnt tree s ↔ e - s ≤ 2 ^ 13 ∧ Short index cnt tree (e + 1)) ∧
      (Granted mem index cnt tree s ↔ granted ∧ Granted mem index cnt tree (e + 1)) ∧
      (e - s ≤ 2 ^ 13 → granted → ∃ gaps' st', takeGap mem index cnt true s st = .ok (false, e, st') ∧
        Scanned mem index cnt tree (e + 1) gaps' st') ∧
      (e - s ≤ 2 ^ 13 → ¬granted → takeGap mem index cnt true s st = .error .no_memory) ∧
      (2 ^ 13 < e - s → takeGap mem index cnt true s st = .error .buddy_order) := by
  have hahead : ∀ i, s ≤ i → st.page_tree (index + i) = tree (index + i) := fun i hi => hscan.ahead hi
  obtain ⟨hlo, hhi, hmissing, hstop⟩ := @gapEnd_spec index cnt st.page_tree cnt (s + 1) hlt hend (by omega)
  rw [takeGap]
  dsimp only
  generalize gapEnd index cnt st.page_tree cnt (s + 1) = e at hlo hhi hmissing hstop ⊢
  have hmissing' : ∀ i, s ≤ i → i < e → tree (index + i) = none := by
    intro i hi hie
    rcases eq_or_ne i s with rfl | hne
    · exact hnone
    · rw [← hahead i hi]
      exact hmissing i (by omega) hie
  have hcached : e < cnt → tree (index + e) ≠ none := by
    intro hmore
    rw [← hahead e (by omega)]
    exact hstop hmore
  have hlast := hnear (e - 1) (by omega) (hmissing' (e - 1) (by omega) (by omega))
  have hloop := fun frame => @addLoop_spec mem index cnt frame s e (e - s + 1) s
    { st with first_pa := st.first_pa.or (some frame) } (le_refl s) (by omega) (by omega) (by omega) (by omega)
    fun i hi hie => (hahead i hi).trans (hmissing' i hi hie)
  refine ⟨e, _, hlo, hhi, by omega, short_gap hlo hhi hmissing' hcached,
    granted_gap hlo hhi hmissing' hcached (hscan.edge hlt), ?_, ?_, ?_⟩
  · rintro hshort ⟨hblock, hitems⟩
    obtain ⟨frame, hframe⟩ := Option.ne_none_iff_exists'.mp hblock
    rw [gapSize, kzalloc_ok (by omega), if_neg (by omega), hframe, int32_natCast (by omega)]
    obtain ⟨hadd, -⟩ := hloop frame
    dsimp only
    rw [hadd hitems, Nat.sub_self, Nat.add_zero]
    exact ⟨_, _, rfl, hscan.fill hlo hhi hmissing' hcached hframe⟩
  · intro hshort hgranted
    rw [gapSize, kzalloc_ok (by omega), if_neg (by omega), int32_natCast (by omega)]
    cases hblock : mem.block s with
    | none => rfl
    | some frame =>
      have hitems : ∃ i, s ≤ i ∧ i < e ∧ mem.item i = false := by
        by_contra hall
        push Not at hall
        refine hgranted ⟨fun h => ?_, fun i hi hie => by simpa using hall i hi hie⟩
        rw [hblock] at h
        cases h
      obtain ⟨-, hadd⟩ := hloop frame
      dsimp only
      rw [hadd hitems]
  · intro hlong
    rw [gapSize, kzalloc_ok (by omega), if_pos hlong]

/-- The scan, where none of its numbers wraps: it ends well if no gap is too long and there is memory; a gap that is
too long ends it with the assertion of the allocator. -/
theorem scanLoop_spec (hend : index + cnt ≤ 2 ^ 64) (hnear : ∀ i < cnt, tree (index + i) = none → i + 1 < 2 ^ 31 ∧ index + i + 1 < 2 ^ 64)
    (hfirst : tree index = none) {fuel : Nat} (hpos : 0 < fuel) (hfuel : cnt < s + fuel)
    (hscan : Scanned mem index cnt tree s gaps st) :
    (Short index cnt tree s → Granted mem index cnt tree s → ∃ gaps' st' s',
      scanLoop mem index cnt true fuel s st = .ok (false, st') ∧ cnt ≤ s' ∧ Scanned mem index cnt tree s' gaps' st') ∧
    (Short index cnt tree s → ¬Granted mem index cnt tree s → scanLoop mem index cnt true fuel s st = .error .no_memory) ∧
    (¬Short index cnt tree s → ∃ e, scanLoop mem index cnt true fuel s st = .error e ∧
      (Granted mem index cnt tree s → e = .buddy_order)) := by
  induction fuel generalizing s gaps st with
  | zero => omega
  | succ fuel ih =>
    rw [scanLoop]
    rcases lt_or_ge s cnt with hlt | hge
    · have hindex : add64 index s = index + s := Nat.mod_eq_of_lt (by omega)
      rw [if_pos hlt, hindex, hscan.ahead (le_refl s)]
      by_cases hnone : tree (index + s) = none
      · rw [if_pos hnone]
        obtain ⟨e, granted, hlo, hhi, hsmall, hshort, hgranted, hgood, hbad, hlong⟩ := takeGap_spec hend hnear hscan hlt hnone
        rw [hshort, hgranted]
        have hnext : add64 e 1 = e + 1 := Nat.mod_eq_of_lt (by omega)
        by_cases hfits : e - s ≤ 2 ^ 13
        · by_cases hmem : granted
          · obtain ⟨gaps', st', htake, hscan'⟩ := hgood hfits hmem
            obtain ⟨h₁, h₂, h₃⟩ := ih (by omega) (by omega) hscan'
            rw [htake]
            dsimp only
            rw [if_neg Bool.false_ne_true, hnext]
            exact ⟨fun hs hg => h₁ hs.2 hg.2, fun hs hg => h₂ hs.2 fun hrest => hg ⟨hmem, hrest⟩,
              fun hs => (h₃ fun hrest => hs ⟨hfits, hrest⟩).imp fun err herr => ⟨herr.1, fun hg => herr.2 hg.2⟩⟩
          · rw [hbad hfits hmem]
            exact ⟨fun _ hg => absurd hg.1 hmem, fun _ _ => rfl, fun _ => ⟨_, rfl, fun hg => absurd hg.1 hmem⟩⟩
        · rw [hlong (by omega)]
          exact ⟨fun hs => absurd hs.1 hfits, fun hs => absurd hs.1 hfits, fun _ => ⟨_, rfl, fun _ => rfl⟩⟩
      · rw [if_neg hnone, if_neg fun h0 => hnone (by rw [h0]; exact hfirst), short_skip hnone, granted_skip hnone]
        exact ih (by omega) (by omega) (hscan.skip hnone)
    · have hshort : Short index cnt tree s := fun i hi hlt => by omega
      have hgranted : Granted mem index cnt tree s := ⟨fun i hi hlt => by omega, fun i hi hlt => by omega⟩
      rw [if_neg hge.not_gt]
      exact ⟨fun _ _ => ⟨gaps, st, s, rfl, hge, hscan⟩, fun _ h => absurd hgranted h, fun h => absurd hshort h⟩

end

/-! ## What the call is to do -/

/-- Page `p` of the file is in the range of bytes of a batch. -/
def Batch.covers (b : Batch) (p : Nat) : Bool := decide (b.off ≤ p * PGSIZE ∧ (p + 1) * PGSIZE ≤ b.off + b.n)

/-- The transfer of a batch puts page `p` of the file into frame `f`. -/
def Batch.Reads (b : Batch) (p f : Nat) : Prop := b.covers p = true ∧ f = b.src + (p - b.off / PGSIZE)

/-- The missing pages of the range join the cache, each is read once, into a frame of its own, and nothing else is. -/
structure BatchedRead (tree : Tree) (index cnt : Nat) (r : Pages) : Prop where
  inserted : ∀ p, r.page_tree p ≠ none ↔ tree p ≠ none ∨ (index ≤ p ∧ p < index + cnt)
  kept : ∀ p f, tree p = some f → r.page_tree p = some f
  own : ∀ p q f, tree p = none → r.page_tree p = some f → r.page_tree q = some f → q = p
  once : ∀ p, tree p = none → index ≤ p → p < index + cnt → (r.batches.countP fun b => b.covers p) = 1
  reads : ∀ b ∈ r.batches, ∀ p f, b.Reads p f → tree p = none ∧ index ≤ p ∧ p < index + cnt ∧ r.page_tree p = some f
  runs : ∀ b ∈ r.batches, 0 < b.cnt ∧ ∀ k < b.cnt, tree (b.index + k) = none ∧ r.page_tree (b.index + k) = some (b.src + k)
  returned : r.first_pa = r.page_tree index

/-- Where the gap of a missing page begins. -/
def gapStart (index : Nat) (tree : Tree) : Nat → Nat
  | 0 => 0
  | i + 1 => if tree (index + i) = none then gapStart index tree i else i + 1

/-- The frame for a page in the block of its gap. -/
def Memory.frame (mem : Memory) (index : Nat) (tree : Tree) (i : Nat) : Option Nat :=
  (mem.block (gapStart index tree i)).map fun pa => pa + (i - gapStart index tree i)

/-- The blocks of the allocator are nobody's: they share no frame with each other or with the cache. -/
structure Fresh (mem : Memory) (index cnt : Nat) (tree : Tree) : Prop where
  distinct : ∀ i j f, i < cnt → j < cnt → tree (index + i) = none → tree (index + j) = none →
    mem.frame index tree i = some f → mem.frame index tree j = some f → i = j
  unused : ∀ i f p, i < cnt → tree (index + i) = none → mem.frame index tree i = some f → tree p ≠ some f

section

variable {mem : Memory} {index cnt : Nat} {tree : Tree} {s : Nat} {gaps : List Gap} {st : Scan}

theorem gapStart_spec (i : Nat) : gapStart index tree i ≤ i ∧ (∀ j, gapStart index tree i ≤ j → j < i → tree (index + j) = none) ∧
    (gapStart index tree i = 0 ∨ tree (index + (gapStart index tree i - 1)) ≠ none) := by
  induction i with
  | zero => exact ⟨le_refl 0, fun j _ hlt => absurd hlt (Nat.not_lt_zero j), .inl rfl⟩
  | succ i ih =>
    rw [gapStart]
    obtain ⟨hle, hmissing, hedge⟩ := ih
    by_cases hnone : tree (index + i) = none
    · rw [if_pos hnone]
      refine ⟨by omega, fun j hj hlt => ?_, hedge⟩
      rcases eq_or_ne j i with rfl | hne
      · exact hnone
      · exact hmissing j hj (by omega)
    · rw [if_neg hnone]
      exact ⟨le_refl _, fun j hj hlt => by omega, .inr hnone⟩

theorem gapStart_eq {i : Nat} (hle : s ≤ i) (hmissing : ∀ j, s ≤ j → j < i → tree (index + j) = none)
    (hedge : s = 0 ∨ tree (index + (s - 1)) ≠ none) : gapStart index tree i = s := by
  obtain ⟨hle', hmissing', hedge'⟩ := @gapStart_spec index tree i
  rcases Nat.lt_trichotomy (gapStart index tree i) s with hlt | heq | hgt
  · rcases hedge with rfl | hedge
    · omega
    · exact absurd (hmissing' (s - 1) (by omega) (by omega)) hedge
  · exact heq
  · rcases hedge' with hzero | hedge'
    · omega
    · exact absurd (hmissing _ (by omega) (by omega)) hedge'

theorem Scanned.frame_eq (h : Scanned mem index cnt tree s gaps st) {g : Gap} (hg : g ∈ gaps) {i : Nat} (hi : g.Has (index + i)) :
    mem.frame index tree i = some (g.frame + (index + i - g.start)) := by
  have hlower := h.lower g hg
  have hlo := hi.1
  have hhi := hi.2
  have hstart : gapStart index tree i = g.start - index := by
    apply gapStart_eq
    · omega
    · intro j hj hlt
      exact h.missing g hg _ ⟨by omega, by omega⟩
    · rcases h.begins g hg with hbegin | hbegin
      · left
        omega
      rcases eq_or_ne g.start index with heq | hne
      · left
        omega
      · right
        rwa [show index + (g.start - index - 1) = g.start - 1 by omega]
  rw [Memory.frame, hstart, h.block g hg, Option.map_some]
  congr 1
  omega

theorem Short.len_le (h : Short index cnt tree 0) (hscan : Scanned mem index cnt tree s gaps st) {g : Gap} (hg : g ∈ gaps) :
    g.len ≤ 2 ^ 13 := by
  by_contra hlong
  have hlower := hscan.lower g hg
  have hupper := hscan.upper g hg
  obtain ⟨j, hj, hcached⟩ := h (g.start - index) (Nat.zero_le _) (by omega)
  exact hcached (hscan.missing g hg _ ⟨by omega, by omega⟩)

theorem Gap.covers_iff {g : Gap} (hstart : g.start < 2 ^ 20) (hlen : g.len ≤ 2 ^ 13) (p : Nat) : g.batch.covers p = true ↔ g.Has p := by
  have hoff : g.start * PGSIZE % 2 ^ 32 = g.start * PGSIZE := Nat.mod_eq_of_lt (by rw [PGSIZE]; omega)
  have hn : g.len * PGSIZE % 2 ^ 32 = g.len * PGSIZE := Nat.mod_eq_of_lt (by rw [PGSIZE]; omega)
  rw [Batch.covers, decide_eq_true_iff, Batch.off, Batch.n, Gap.batch, hoff, hn, Gap.Has, PGSIZE]
  omega

theorem Gap.reads_iff {g : Gap} (hstart : g.start < 2 ^ 20) (hlen : g.len ≤ 2 ^ 13) (p f : Nat) :
    g.batch.Reads p f ↔ g.Has p ∧ f = g.frame + (p - g.start) := by
  have hoff : g.start * PGSIZE % 2 ^ 32 = g.start * PGSIZE := Nat.mod_eq_of_lt (by rw [PGSIZE]; omega)
  have hdiv : g.batch.off / PGSIZE = g.start := by
    rw [Batch.off, Gap.batch, hoff]
    exact Nat.mul_div_cancel _ (by decide)
  rw [Batch.Reads, Gap.covers_iff hstart hlen, hdiv]
  rfl

/-- One gap has the page, and so one batch. -/
theorem countP_batch {gaps : List Gap} (hapart : gaps.Pairwise fun g g' => g.start + g.len < g'.start)
    (hlow : ∀ g ∈ gaps, g.start < 2 ^ 20) (hlen : ∀ g ∈ gaps, g.len ≤ 2 ^ 13) {g : Gap} (hg : g ∈ gaps) {p : Nat} (hp : g.Has p) :
    ((gaps.map Gap.batch).countP fun b => b.covers p) = 1 := by
  obtain ⟨pre, post, rfl⟩ := List.append_of_mem hg
  obtain ⟨-, hpost, hbefore⟩ := List.pairwise_append.mp hapart
  obtain ⟨hafter, -⟩ := List.pairwise_cons.mp hpost
  obtain ⟨hlo, hhi⟩ := hp
  have hother : ∀ g' ∈ pre ++ g :: post, ¬g'.Has p → ¬g'.batch.covers p = true := fun g' hg' hno hcov =>
    hno ((Gap.covers_iff (hlow g' hg') (hlen g' hg') p).mp hcov)
  have hpre : ((pre.map Gap.batch).countP fun b => b.covers p) = 0 := by
    rw [List.countP_eq_zero]
    intro b hb
    obtain ⟨g', hg', rfl⟩ := List.mem_map.mp hb
    have := hbefore g' hg' g mem_cons_self
    exact hother g' (List.mem_append_left _ hg') fun hin => by have := hin.2; omega
  have hpost : ((post.map Gap.batch).countP fun b => b.covers p) = 0 := by
    rw [List.countP_eq_zero]
    intro b hb
    obtain ⟨g', hg', rfl⟩ := List.mem_map.mp hb
    have := hafter g' hg'
    exact hother g' (List.mem_append_right _ (List.mem_cons_of_mem _ hg')) fun hin => by have := hin.1; omega
  rw [List.map_append, List.map_cons, List.countP_append, List.countP_cons, hpre, hpost,
    if_pos ((Gap.covers_iff (hlow g hg) (hlen g hg) p).mpr ⟨hlo, hhi⟩)]

theorem batches_of_scanned (hscan : Scanned mem index cnt tree s gaps st)
    (hnear : ∀ i < cnt, tree (index + i) = none → i + 1 < 2 ^ 31 ∧ index + i + 1 < 2 ^ 64) :
    fat32_rw_pages_batch st.entry = gaps.map Gap.batch := by
  rw [hscan.entry]
  refine batches_of_gaps ⟨hscan.pos, fun g hg => ?_, hscan.apart⟩
  have hlower := hscan.lower g hg
  have hupper := hscan.upper g hg
  have hpos := hscan.pos g hg
  have hlast := hnear (g.start + g.len - 1 - index) (by omega) (hscan.missing g hg _ ⟨by omega, by omega⟩)
  omega

theorem Scanned.cases (hscan : Scanned mem index cnt tree s gaps st) {p f : Nat} (hp : st.page_tree p = some f) :
    tree p = some f ∨ ∃ g ∈ gaps, g.Has p ∧ f = g.frame + (p - g.start) := by
  by_cases hin : ∃ g ∈ gaps, g.Has p
  · obtain ⟨g, hg, hhas⟩ := hin
    rw [hscan.filled g hg p hhas] at hp
    exact .inr ⟨g, hg, hhas, (Option.some.inj hp).symm⟩
  · push Not at hin
    rw [hscan.kept p hin] at hp
    exact .inl hp

theorem batchedRead_of_scanned (hscan : Scanned mem index cnt tree s gaps st) (hdone : cnt ≤ s) (hcnt : 0 < cnt)
    (hfirst : tree index = none) (hfresh : Fresh mem index cnt tree) (hlow : ∀ g ∈ gaps, g.start < 2 ^ 20)
    (hlen : ∀ g ∈ gaps, g.len ≤ 2 ^ 13) :
    BatchedRead tree index cnt ⟨st.page_tree, st.nrpages, st.first_pa, gaps.map Gap.batch⟩ := by
  have hrange : ∀ g ∈ gaps, ∀ p, g.Has p → index ≤ p ∧ p < index + cnt := by
    intro g hg p hp
    exact ⟨(hscan.lower g hg).trans hp.1, hp.2.trans_le (hscan.upper g hg)⟩
  have hall : ∀ p, tree p = none → index ≤ p → p < index + cnt → ∃ g ∈ gaps, g.Has p := by
    intro p hnone hlo hhi
    have hget := hscan.all (p - index) (by omega) (by omega)
    rw [Nat.add_sub_of_le hlo] at hget
    exact hget hnone
  -- a frame of a gap is the frame of one page only
  have hframe : ∀ g ∈ gaps, ∀ p, g.Has p → mem.frame index tree (p - index) = some (g.frame + (p - g.start)) := by
    intro g hg p hp
    have hlo := (hrange g hg p hp).1
    have := @Scanned.frame_eq mem index cnt tree s gaps st hscan g hg (p - index) (by rw [Nat.add_sub_of_le hlo]; exact hp)
    rwa [Nat.add_sub_of_le hlo] at this
  have hmissing : ∀ g ∈ gaps, ∀ p, g.Has p → p - index < cnt ∧ tree (index + (p - index)) = none := by
    intro g hg p hp
    obtain ⟨hlo, hhi⟩ := hrange g hg p hp
    rw [Nat.add_sub_of_le hlo]
    exact ⟨by omega, hscan.missing g hg p hp⟩
  refine ⟨fun p => ⟨fun hne => ?_, ?_⟩, fun p f hp => ?_, fun p q f hnone hp hq => ?_, fun p hnone hlo hhi => ?_, ?_, ?_, ?_⟩
  · obtain ⟨f, hf⟩ := Option.ne_none_iff_exists'.mp hne
    rcases hscan.cases hf with hold | ⟨g, hg, hhas, -⟩
    · left
      rw [hold]
      exact Option.some_ne_none f
    · exact .inr (hrange g hg p hhas)
  · rintro (hold | ⟨hlo, hhi⟩)
    · have hout : ∀ g ∈ gaps, ¬g.Has p := fun g hg hhas => hold (hscan.missing g hg p hhas)
      dsimp only
      rw [hscan.kept p hout]
      exact hold
    by_cases hnone : tree p = none
    · obtain ⟨g, hg, hhas⟩ := hall p hnone hlo hhi
      dsimp only
      rw [hscan.filled g hg p hhas]
      exact Option.some_ne_none _
    have hout : ∀ g ∈ gaps, ¬g.Has p := fun g hg hhas => hnone (hscan.missing g hg p hhas)
    dsimp only
    rw [hscan.kept p hout]
    exact hnone
  · have hout : ∀ g ∈ gaps, ¬g.Has p := fun g hg hhas => by
      rw [hscan.missing g hg p hhas] at hp
      cases hp
    dsimp only
    rw [hscan.kept p hout]
    exact hp
  · rcases hscan.cases hp with hold | ⟨g, hg, hhas, rfl⟩
    · rw [hnone] at hold
      cases hold
    obtain ⟨hlt, hnone'⟩ := hmissing g hg p hhas
    rcases hscan.cases hq with hold | ⟨g', hg', hhas', hsame⟩
    · exact absurd hold (hfresh.unused _ _ q hlt hnone' (hframe g hg p hhas))
    obtain ⟨hlt', hnone''⟩ := hmissing g' hg' q hhas'
    have hframe' := hframe g' hg' q hhas'
    rw [← hsame] at hframe'
    have heq := hfresh.distinct _ _ _ hlt hlt' hnone' hnone'' (hframe g hg p hhas) hframe'
    have hlo := (hrange g hg p hhas).1
    have hlo' := (hrange g' hg' q hhas').1
    omega
  · obtain ⟨g, hg, hhas⟩ := hall p hnone hlo hhi
    exact countP_batch hscan.apart hlow hlen hg hhas
  · intro b hb p f hreads
    obtain ⟨g, hg, rfl⟩ := List.mem_map.mp hb
    obtain ⟨hhas, rfl⟩ := (Gap.reads_iff (hlow g hg) (hlen g hg) p f).mp hreads
    obtain ⟨hlo, hhi⟩ := hrange g hg p hhas
    exact ⟨hscan.missing g hg p hhas, hlo, hhi, hscan.filled g hg p hhas⟩
  · intro b hb
    obtain ⟨g, hg, rfl⟩ := List.mem_map.mp hb
    refine ⟨hscan.pos g hg, fun k hk => ?_⟩
    have hhas : g.Has (g.start + k) := ⟨le_self_add, Nat.add_lt_add_left hk _⟩
    refine ⟨hscan.missing g hg _ hhas, (hscan.filled g hg _ hhas).trans ?_⟩
    rw [Nat.add_sub_cancel_left]
    rfl
  · -- the first gap is the one of page `index`
    obtain ⟨g, hg, hhas⟩ := hall index hfirst (le_refl _) (by omega)
    have hpage := hscan.filled g hg index hhas
    have hlower := hscan.lower
    have hapart := hscan.apart
    have hhead := hscan.first
    dsimp only
    rw [hpage, hhead]
    cases gaps with
    | nil => cases hg
    | cons g' gaps =>
      rcases List.mem_cons.mp hg with rfl | hlater
      · have hlo := hlower g mem_cons_self
        have hstart : index - g.start = 0 := by omega
        rw [hstart]
        rfl
      have hlt := (List.pairwise_cons.mp hapart).1 g hlater
      have hlo := hlower g' mem_cons_self
      have hle := hhas.1
      omega

/-- What the call does where nothing of the scan wraps. -/
theorem mpage_readpages_spec (hcnt : 0 < cnt) (hend : index + cnt ≤ 2 ^ 64) (hfirst : tree index = none)
    (hnear : ∀ i < cnt, tree (index + i) = none → i + 1 < 2 ^ 31 ∧ index + i + 1 < 2 ^ 64) (nrpages : Nat) :
    (Short index cnt tree 0 → Granted mem index cnt tree 0 → ∃ gaps st s, cnt ≤ s ∧ Scanned mem index cnt tree s gaps st ∧
      (∀ g ∈ gaps, g.len ≤ 2 ^ 13) ∧
      mpage_readpages mem index cnt true tree nrpages = .ok ⟨st.page_tree, st.nrpages, st.first_pa, gaps.map Gap.batch⟩) ∧
    (Short index cnt tree 0 → ¬Granted mem index cnt tree 0 →
      mpage_readpages mem index cnt true tree nrpages = .error .no_memory) ∧
    (¬Short index cnt tree 0 → ∃ e, mpage_readpages mem index cnt true tree nrpages = .error e ∧
      (Granted mem index cnt tree 0 → e = .buddy_order)) := by
  obtain ⟨hok, hmem, horder⟩ := @scanLoop_spec mem index cnt tree 0 [] ⟨tree, nrpages, none, []⟩ hend hnear hfirst (cnt + 1)
    (Nat.succ_pos _) (by omega) (Scanned.start nrpages)
  rw [mpage_readpages, if_neg (by omega)]
  refine ⟨fun hshort hgranted => ?_, fun hshort hgranted => ?_, fun hlong => ?_⟩
  · obtain ⟨gaps, st, s, hloop, hdone, hscan⟩ := hok hshort hgranted
    have hlen : ∀ g ∈ gaps, g.len ≤ 2 ^ 13 := fun g hg => hshort.len_le hscan hg
    refine ⟨gaps, st, s, hdone, hscan, hlen, ?_⟩
    rw [hloop]
    dsimp only
    rw [if_pos ⟨rfl, rfl⟩, batches_of_scanned hscan hnear]
  · rw [hmem hshort hgranted]
  · obtain ⟨e, hloop, he⟩ := horder hlong
    rw [hloop]
    exact ⟨e, rfl, he⟩

/-- The assertion of the allocator can fire if and only if a gap of the range is too long. -/
theorem buddy_order_iff (hcnt : 0 < cnt) (hend : index + cnt ≤ 2 ^ 64) (hfirst : tree index = none)
    (hnear : ∀ i < cnt, tree (index + i) = none → i + 1 < 2 ^ 31 ∧ index + i + 1 < 2 ^ 64) (nrpages : Nat) :
    (∃ mem, mpage_readpages mem index cnt true tree nrpages = .error .buddy_order) ↔ ¬Short index cnt tree 0 := by
  constructor
  · rintro ⟨mem, hpanic⟩ hshort
    obtain ⟨hok, hmem, -⟩ := @mpage_readpages_spec mem index cnt tree hcnt hend hfirst hnear nrpages
    by_cases hgranted : Granted mem index cnt tree 0
    · obtain ⟨gaps, st, s, -, -, -, hrun⟩ := hok hshort hgranted
      rw [hrun] at hpanic
      cases hpanic
    · rw [hmem hshort hgranted] at hpanic
      cases hpanic
  · intro hlong
    obtain ⟨-, -, horder⟩ := @mpage_readpages_spec ⟨fun _ => some 0, fun _ => true⟩ index cnt tree hcnt hend hfirst hnear nrpages
    obtain ⟨e, hpanic, he⟩ := horder hlong
    rw [he ⟨fun i _ _ _ _ => Option.some_ne_none 0, fun i _ _ _ => rfl⟩] at hpanic
    exact ⟨_, hpanic⟩

/-- A call that has returned has found the gaps short enough and memory for them. -/
theorem scanned_of_ok (hcnt : 0 < cnt) (hend : index + cnt ≤ 2 ^ 64) (hfirst : tree index = none)
    (hnear : ∀ i < cnt, tree (index + i) = none → i + 1 < 2 ^ 31 ∧ index + i + 1 < 2 ^ 64) {nrpages : Nat} {r : Pages}
    (hrun : mpage_readpages mem index cnt true tree nrpages = .ok r) :
    Short index cnt tree 0 ∧ Granted mem index cnt tree 0 ∧ ∃ gaps st s, cnt ≤ s ∧ Scanned mem index cnt tree s gaps st ∧
      (∀ g ∈ gaps, g.len ≤ 2 ^ 13) ∧ r = ⟨st.page_tree, st.nrpages, st.first_pa, gaps.map Gap.batch⟩ := by
  obtain ⟨hok, hmem, horder⟩ := @mpage_readpages_spec mem index cnt tree hcnt hend hfirst hnear nrpages
  have hshort : Short index cnt tree 0 := by
    by_contra hlong
    obtain ⟨e, hpanic, -⟩ := horder hlong
    rw [hpanic] at hrun
    cases hrun
  have hgranted : Granted mem index cnt tree 0 := by
    by_contra hnot
    rw [hmem hshort hnot] at hrun
    cases hrun
  obtain ⟨gaps, st, s, hdone, hscan, hlen, hrun'⟩ := hok hshort hgranted
  exact ⟨hshort, hgranted, gaps, st, s, hdone, hscan, hlen, (Except.ok.inj (hrun'.symm.trans hrun)).symm⟩

/-- A gap begins at the `i`-th page of a range. -/
structure GapAt (index cnt : Nat) (tree : Tree) (i : Nat) : Prop where
  lt : i < cnt
  missing : tree (index + i) = none
  edge : i = 0 ∨ tree (index + (i - 1)) ≠ none

theorem Scanned.gapAt (hscan : Scanned mem index cnt tree s gaps st) {g : Gap} (hg : g ∈ gaps) :
    GapAt index cnt tree (g.start - index) := by
  have hlower := hscan.lower g hg
  have hupper := hscan.upper g hg
  have hpos := hscan.pos g hg
  refine ⟨by omega, ?_, ?_⟩
  · rw [Nat.add_sub_of_le hlower]
    exact hscan.missing g hg _ ⟨le_refl _, by omega⟩
  rcases hscan.begins g hg with hbegin | hbegin
  · left
    omega
  rcases eq_or_ne g.start index with heq | hne
  · left
    omega
  · right
    rwa [show index + (g.start - index - 1) = g.start - 1 by omega]

theorem Scanned.gap_of_gapAt (hscan : Scanned mem index cnt tree s gaps st) (hdone : cnt ≤ s) {i : Nat} (h : GapAt index cnt tree i) :
    ∃ g ∈ gaps, g.start = index + i := by
  obtain ⟨g, hg, hhas⟩ := hscan.all i (h.lt.trans_le hdone) h.lt h.missing
  refine ⟨g, hg, ?_⟩
  have hlower := hscan.lower g hg
  have hlo := hhas.1
  have hhi := hhas.2
  by_contra hne
  rcases h.edge with rfl | hcached
  · omega
  · exact hcached (hscan.missing g hg _ ⟨by omega, by omega⟩)

theorem batch_index_iff (hcnt : 0 < cnt) (hend : index + cnt ≤ 2 ^ 64) (hfirst : tree index = none)
    (hnear : ∀ i < cnt, tree (index + i) = none → i + 1 < 2 ^ 31 ∧ index + i + 1 < 2 ^ 64) {nrpages : Nat} {r : Pages}
    (hrun : mpage_readpages mem index cnt true tree nrpages = .ok r) (p : Nat) :
    (∃ b ∈ r.batches, b.index = p) ↔ ∃ i, GapAt index cnt tree i ∧ p = index + i := by
  obtain ⟨-, -, gaps, st, s, hdone, hscan, -, rfl⟩ := scanned_of_ok hcnt hend hfirst hnear hrun
  constructor
  · rintro ⟨b, hb, rfl⟩
    obtain ⟨g, hg, rfl⟩ := List.mem_map.mp hb
    exact ⟨g.start - index, hscan.gapAt hg, (Nat.add_sub_of_le (hscan.lower g hg)).symm⟩
  · rintro ⟨i, hgap, rfl⟩
    obtain ⟨g, hg, hstart⟩ := hscan.gap_of_gapAt hdone hgap
    exact ⟨g.batch, List.mem_map_of_mem hg, hstart⟩

/-- The gaps of a range begin in the first 4 GiB of the file. -/
def Low (index cnt : Nat) (tree : Tree) : Prop := ∀ i, GapAt index cnt tree i → index + i < 2 ^ 20

theorem Short.low (h : Short index cnt tree 0) (hlow : Low index cnt tree) {i : Nat} (hi : i < cnt)
    (hnone : tree (index + i) = none) : index + i < 2 ^ 21 := by
  obtain ⟨hle, hmissing, hedge⟩ := @gapStart_spec index tree i
  generalize gapStart index tree i = b at hle hmissing hedge
  have hall : ∀ j, b ≤ j → j ≤ i → tree (index + j) = none := by
    intro j hj hji
    rcases eq_or_ne j i with rfl | hne
    · exact hnone
    · exact hmissing j hj (by omega)
  have hbegin := hlow b ⟨by omega, hall b (le_refl b) hle, hedge⟩
  have hnear : i < b + 2 ^ 13 := by
    by_contra hfar
    obtain ⟨j, hj, hcached⟩ := h b (Nat.zero_le b) (by omega)
    exact hcached (hall (b + j) (Nat.le_add_right b j) (by omega))
  omega

theorem BatchedRead.low {r : Pages} (h : BatchedRead tree index cnt r) {p : Nat} (hnone : tree p = none) (hlo : index ≤ p)
    (hhi : p < index + cnt) : p < 2 ^ 21 := by
  have honce := h.once p hnone hlo hhi
  obtain ⟨b, -, hcovers⟩ := List.countP_pos_iff.mp (by rw [honce]; exact Nat.one_pos)
  have hin := of_decide_eq_true hcovers
  have hoff : b.off < 2 ^ 32 := Nat.mod_lt _ (by decide)
  have hn : b.n < 2 ^ 32 := Nat.mod_lt _ (by decide)
  rw [PGSIZE] at hin
  omega

/-- **Batched page read.**  The call does what it is to do if and only if no gap of the range is longer than a block of the
allocator, each begins in the first 4 GiB of the file, and there is memory. -/
theorem batched_read_iff (mem : Memory) (tree : Tree) (index cnt nrpages : Nat) (hcnt : 0 < cnt) (hend : index + cnt ≤ 2 ^ 64)
    (hfirst : tree index = none) (hfresh : Fresh mem index cnt tree) :
    (∃ r, mpage_readpages mem index cnt true tree nrpages = .ok r ∧ BatchedRead tree index cnt r) ↔
      Short index cnt tree 0 ∧ Low index cnt tree ∧ Granted mem index cnt tree 0 := by
  constructor
  · rintro ⟨r, hrun, hread⟩
    have hfar : ∀ i < cnt, tree (index + i) = none → index + i < 2 ^ 21 := fun i hi hnone =>
      hread.low hnone (Nat.le_add_right index i) (Nat.add_lt_add_left hi index)
    have hnear : ∀ i < cnt, tree (index + i) = none → i + 1 < 2 ^ 31 ∧ index + i + 1 < 2 ^ 64 := fun i hi hnone => by
      have := hfar i hi hnone
      omega
    obtain ⟨hshort, hgranted, gaps, st, s, hdone, hscan, hlen, rfl⟩ := scanned_of_ok hcnt hend hfirst hnear hrun
    refine ⟨hshort, fun i hgap => ?_, hgranted⟩
    obtain ⟨hi, hnone, hedge⟩ := hgap
    by_contra hbeyond
    -- the batch that reads the page, whose offset has lost its upper bits
    have honce := hread.once (index + i) hnone (Nat.le_add_right index i) (Nat.add_lt_add_left hi index)
    obtain ⟨b, hb, hcovers⟩ := List.countP_pos_iff.mp (by rw [honce]; exact Nat.one_pos)
    obtain ⟨g, hg, rfl⟩ := List.mem_map.mp hb
    have hlower := hscan.lower g hg
    have hupper := hscan.upper g hg
    have hpos := hscan.pos g hg
    have hlong := hlen g hg
    have hin := of_decide_eq_true hcovers
    rcases lt_or_ge g.start (2 ^ 20) with hlow | hhigh
    · obtain ⟨hlo, hhi⟩ := (Gap.covers_iff hlow hlong (index + i)).mp hcovers
      rcases hedge with rfl | hedge
      · omega
      · refine hedge (hscan.missing g hg _ ⟨by omega, by omega⟩)
    have hlast := hfar (g.start + g.len - 1 - index) (by omega) (hscan.missing g hg _ ⟨by omega, by omega⟩)
    have hoff : g.batch.off = (g.start - 2 ^ 20) * PGSIZE := by
      show g.start * PGSIZE % 2 ^ 32 = (g.start - 2 ^ 20) * PGSIZE
      rw [PGSIZE]
      omega
    have hn : g.batch.n ≤ g.len * PGSIZE := Nat.mod_le _ _
    rw [hoff] at hin
    rw [PGSIZE] at hin hn
    omega
  · rintro ⟨hshort, hlow, hgranted⟩
    have hnear : ∀ i < cnt, tree (index + i) = none → i + 1 < 2 ^ 31 ∧ index + i + 1 < 2 ^ 64 := fun i hi hnone => by
      have := hshort.low hlow hi hnone
      omega
    obtain ⟨hok, -⟩ := @mpage_readpages_spec mem index cnt tree hcnt hend hfirst hnear nrpages
    obtain ⟨gaps, st, s, hdone, hscan, hlen, hrun⟩ := hok hshort hgranted
    refine ⟨_, hrun, batchedRead_of_scanned hscan hdone hcnt hfirst hfresh (fun g hg => ?_) hlen⟩
    have hstart := hlow _ (hscan.gapAt hg)
    rwa [Nat.add_sub_of_le (hscan.lower g hg)] at hstart

end

/-- A block for each gap of a small range. -/
def smallMemory : Memory := ⟨fun s => some (1000 + 16 * s), fun _ => true⟩

/-- Only page 1 is cached. -/
def secondCached : Tree := fun p => if p = 1 then some 7 else none

theorem batched_read_iff_secondCached :
    ∃ r, mpage_readpages smallMemory 0 3 true secondCached 1 = .ok r ∧ BatchedRead secondCached 0 3 r := by
  have hframes : ∀ i < 3, secondCached (0 + i) = none → smallMemory.frame 0 secondCached i = some (1000 + 16 * i) := by
    decide
  have hfresh : Fresh smallMemory 0 3 secondCached := by
    refine ⟨fun i j f hi hj hni hnj hfi hfj => ?_, fun i f p hi hni hfi hp => ?_⟩
    · rw [hframes i hi hni, Option.some.injEq] at hfi
      rw [hframes j hj hnj, Option.some.injEq] at hfj
      omega
    rw [hframes i hi hni, Option.some.injEq] at hfi
    unfold secondCached at hp
    split at hp
    · rw [Option.some.injEq] at hp
      omega
    · cases hp
  have hgranted : Granted smallMemory 0 3 secondCached 0 := ⟨fun i _ _ _ _ => Option.some_ne_none _, fun _ _ _ _ => rfl⟩
  exact (batched_read_iff smallMemory secondCached 0 3 1 (by decide) (by decide) rfl hfresh).mpr
    ⟨fun i _ hlt => by omega, fun i hgap => by have := hgap.lt; omega, hgranted⟩

theorem uncached_panics (mem : Memory) (nrpages : Nat) {cnt : Nat} (hlong : 2 ^ 13 < cnt) (hcnt : cnt < 2 ^ 52) :
    mpage_readpages mem 0 cnt true (fun _ => none) nrpages = .error .buddy_order := by
  obtain ⟨hlo, hhi, -, hstop⟩ := @gapEnd_spec 0 cnt (fun _ => none) cnt (0 + 1) (by omega) (by omega) (by omega)
  have hwhole : gapEnd 0 cnt (fun _ => none) cnt (0 + 1) = cnt := by
    by_contra hne
    exact hstop (by omega) rfl
  have htake : takeGap mem 0 cnt true 0 ⟨fun _ => none, nrpages, none, []⟩ = .error .buddy_order := by
    rw [takeGap]
    dsimp only
    rw [hwhole, gapSize, kzalloc_ok (by omega), Nat.sub_zero, if_pos hlong]
  rw [mpage_readpages, if_neg (by omega), scanLoop, if_pos (by omega), if_pos rfl, htake]

theorem long_gap_panics : Fresh smallMemory 0 (2 ^ 13 + 1) (fun _ => none) ∧
    mpage_readpages smallMemory 0 (2 ^ 13 + 1) true (fun _ => none) 0 = .error .buddy_order := by
  have hframe : ∀ i, smallMemory.frame 0 (fun _ => none) i = some (1000 + i) := by
    intro i
    have hstart : gapStart 0 (fun _ => none) i = 0 := gapStart_eq (Nat.zero_le i) (fun _ _ _ => rfl) (.inl rfl)
    rw [Memory.frame, hstart]
    rfl
  refine ⟨⟨fun i j f _ _ _ _ hi hj => ?_, fun i f p _ _ _ hp => by cases hp⟩, uncached_panics _ _ (by decide) (by decide)⟩
  rw [hframe, Option.some.injEq] at hi hj
  omega

end LostWakeup.Fs.Mpage
