/-
# LostWakeup.Mm.BuddyRefine — the buddy allocator keeps its representation invariant.

The functions of `buddy.c` are compositions of the moves of `BuddyRep`, so each of them takes a
tiling of the pool to a tiling of the pool and never panics.  `RepInv` says what that means for the
data of the code, and `buddy_repInv` that it holds in every state the callers can reach.
-/
import LostWakeup.Library.Run
import LostWakeup.Mm.BuddyRep

namespace LostWakeup.Mm.Buddy

open Library

/-! ## The functions of the source -/

theorem assert_ok {cond : Prop} [Decidable cond] (h : cond) (panic : Panic) :
    assert cond panic = .ok () := if_pos h

theorem buddy_offset (p k : Nat) :
    Pool.page_to_offset p ^^^ (1 <<< (k + 12)) = (p ^^^ 2 ^ k) * PGSIZE := by
  have hshift := Nat.shiftLeft_xor_distrib (i := 12) (a := p) (b := 2 ^ k)
  simp only [Nat.shiftLeft_eq] at hshift
  simp only [Pool.page_to_offset, PGSIZE, Nat.shiftLeft_eq, Nat.one_mul, Nat.pow_add]
  exact hshift.symm

theorem list_del_ok (pool : Pool) {page k : Nat} (hk : k ≤ BUDDY_MAX_ORDER)
    (hmem : page ∈ (pool.freelists k).lists) :
    ∃ pool', pool.list_del page = .ok pool' ∧ pool'.pages = pool.pages ∧
      pool'.addNum k (-1) = pool.delist page k := by
  have hlinked : pool.linked page = true := by
    refine List.any_eq_true.mpr ⟨k, List.mem_range.mpr (by omega), ?_⟩
    simpa using hmem
  exact ⟨_, if_pos hlinked, rfl, rfl⟩

namespace Rep

variable {n : Nat} {t : Blocks} {pool : Pool} {out : List (Nat × Nat)} {p k : Nat}
  {c : Option (Nat × Nat)}

theorem get_buddy (pool : Pool) (hmem : pool.mem_size = n * PGSIZE) (hord : (pool.pages p).order = k)
    (hk : k < BUDDY_MAX_ORDER) :
    pool.get_buddy p = .ok (if p ^^^ 2 ^ k < n then some (p ^^^ 2 ^ k) else none) := by
  have hpg : 0 < PGSIZE := by decide
  unfold Pool.get_buddy
  dsimp only
  rw [hord, assert_ok hk, buddy_offset, hmem]
  by_cases hlt : p ^^^ 2 ^ k < n
  · have hoff : ¬ (p ^^^ 2 ^ k) * PGSIZE ≥ n * PGSIZE := by
      rw [ge_iff_le, Nat.mul_le_mul_right_iff hpg]
      omega
    simp only [bind, Except.bind, if_neg hoff, if_pos hlt, Pool.offset_to_page,
      assert_ok (Nat.mul_mod_left _ _), pure, Except.pure, Nat.mul_div_cancel _ hpg]
  · have hoff : (p ^^^ 2 ^ k) * PGSIZE ≥ n * PGSIZE := Nat.mul_le_mul_right _ (by omega)
    simp only [bind, Except.bind, if_pos hoff, if_neg hlt, pure, Except.pure]

/-- The test of `merge_page` is exact, whatever stale fields interior pages hold: the buddy's fields
say "free, and of this order" only when it heads a free block of this order. -/
theorem buddy_free_iff (h : Rep n t (some (p, k)) pool out) (hlt : p ^^^ 2 ^ k < n) :
    ((pool.pages (p ^^^ 2 ^ k)).allocated = false ∧ (pool.pages (p ^^^ 2 ^ k)).order = k) ↔
      t (p ^^^ 2 ^ k) = some (k, .free) := by
  have htp := ((h.agrees p).is_cur k).mp rfl
  have hba := h.agrees (p ^^^ 2 ^ k)
  constructor
  · rintro ⟨halloc, hord⟩
    obtain ⟨j, -, hj⟩ := h.tiles.buddy_head (Blocks.orders_eq_some htp) hlt
    obtain ⟨⟨i, o⟩, hb, hi⟩ := Option.map_eq_some_iff.mp hj
    have hik : i = k := by rw [← (hba.order i o hb).2, hord]
    subst hik
    cases o with
    | free => exact hb
    | out =>
      rw [(hba.allocated hlt).mpr ⟨i, hb⟩] at halloc
      cases halloc
    | cur =>
      have hcur := (hba.is_cur i).mpr hb
      simp only [Option.some.injEq, Prod.mk.injEq, and_true] at hcur
      exact absurd hcur.symm (xor_two_pow_ne p i)
  · intro hb
    refine ⟨?_, (hba.order k .free hb).2⟩
    by_contra halloc
    obtain ⟨j, hj⟩ := (hba.allocated hlt).mp (by simpa using halloc)
    rw [hb] at hj
    cases hj

/-- `merge_page` climbs to a block whose buddy is not free. -/
theorem merge_page (h : Rep n t (some (p, k)) pool out) (fuel : Nat)
    (hfuel : BUDDY_MAX_ORDER < k + fuel) :
    ∃ t' p' k' pool', pool.merge_page p fuel = .ok (pool', p') ∧ Rep n t' (some (p', k')) pool' out ∧
      (k' < BUDDY_MAX_ORDER → t' (p' ^^^ 2 ^ k') ≠ some (k', .free)) := by
  induction fuel generalizing t p k pool with
  | zero =>
    have htp := ((h.agrees p).is_cur k).mp rfl
    have := ((h.agrees p).order k .cur htp).1
    omega
  | succ fuel ih =>
    have htp := ((h.agrees p).is_cur k).mp rfl
    obtain ⟨hle, hord⟩ := (h.agrees p).order k .cur htp
    unfold Pool.merge_page
    by_cases hmax : k = BUDDY_MAX_ORDER
    · refine ⟨t, p, k, pool, ?_, h, by omega⟩
      rw [hord, if_pos hmax]
      rfl
    have hk : k < BUDDY_MAX_ORDER := by omega
    rw [hord, if_neg hmax, get_buddy pool h.mem_size hord hk]
    by_cases hlt : p ^^^ 2 ^ k < n
    · simp only [if_pos hlt, bind, Except.bind]
      by_cases hfree : t (p ^^^ 2 ^ k) = some (k, .free)
      · rw [if_pos ((h.buddy_free_iff hlt).mpr hfree)]
        obtain ⟨pool₁, hdel, hpages, hdelist⟩ := list_del_ok pool hle
          ((h.mem_list_iff hfree hle).mpr rfl)
        have hordb := ((h.buddy_free_iff hlt).mpr hfree).2
        rw [hdel]
        simp only [hpages, hordb, hdelist, delist_pages]
        have hordlo : (pool.pages (if p ^^^ 2 ^ k < p then p ^^^ 2 ^ k else p)).order = k := by
          split
          · exact hordb
          · exact hord
        rw [hordlo]
        exact ih (h.join hk hfree rfl rfl) (by omega)
      · rw [if_neg (mt (h.buddy_free_iff hlt).mp hfree)]
        exact ⟨t, p, k, pool, rfl, h, fun _ => hfree⟩
    · simp only [if_neg hlt, bind, Except.bind]
      refine ⟨t, p, k, pool, rfl, h, fun _ hb => ?_⟩
      exact hlt (h.lt_of_block hb)

theorem buddy_free_pages (h : Rep n t none pool out) (hp : (p, k) ∈ out) :
    ∃ t' pool', pool.buddy_free_pages p = .ok pool' ∧ Rep n t' none pool' (out.erase (p, k)) := by
  have h₁ := h.take_back hp
  obtain ⟨hle, hord⟩ := (h₁.agrees p).order k .cur (by simp)
  unfold Pool.buddy_free_pages
  dsimp only
  rw [hord]
  by_cases hk : k < BUDDY_MAX_ORDER
  · obtain ⟨t₂, p₂, k₂, pool₂, hmerge, h₂, hno⟩ :=
      h₁.merge_page (BUDDY_MAX_ORDER + 1) (by omega)
    have hord₂ := ((h₂.agrees p₂).order k₂ .cur (((h₂.agrees p₂).is_cur k₂).mp rfl)).2
    refine ⟨_, _, ?_, h₂.list hno⟩
    simp only [if_pos hk, hmerge, bind, Except.bind, hord₂]
    rfl
  · refine ⟨_, _, ?_, h₁.list (fun hk' => absurd hk' hk)⟩
    simp only [if_neg hk, bind, Except.bind, pure, Except.pure, hord]
    rfl

/-- `split_page` halves the block in hand down to the order asked for. -/
theorem split_loop (h : Rep n t (some (p, k)) pool out) (fuel : Nat) {order : Nat} (hle : order ≤ k)
    (hfuel : k < order + fuel) :
    ∃ t' pool', pool.split_loop order p fuel = .ok pool' ∧ Rep n t' (some (p, order)) pool' out := by
  induction fuel generalizing t k pool with
  | zero => omega
  | succ fuel ih =>
    have htp := ((h.agrees p).is_cur k).mp rfl
    obtain ⟨hmax, hord⟩ := (h.agrees p).order k .cur htp
    unfold Pool.split_loop
    rw [hord]
    rcases Nat.eq_or_lt_of_le hle with heq | hlt
    · subst heq
      rw [if_neg (by omega)]
      exact ⟨t, pool, rfl, h⟩
    obtain ⟨j, rfl⟩ : ∃ j, k = j + 1 := ⟨k - 1, by omega⟩
    have hpos := Nat.two_pow_pos j
    have hpow : 2 ^ (j + 1) = 2 ^ j + 2 ^ j := by ring
    have hal := h.tiles.aligned p _ (Blocks.orders_eq_some htp)
    have hin := h.tiles.inside p _ (Blocks.orders_eq_some htp)
    have hbuddy : p ^^^ 2 ^ j = p + 2 ^ j := Dyadic.xor_two_pow_of_dvd hal
    have hne : p + 2 ^ j ≠ p := by omega
    have hhalve := h.halve
    have hget := get_buddy (n := n) (pool.setOrder p j) (p := p) (k := j) h.mem_size
      (by simp [Pool.setOrder]) (by omega)
    rw [hbuddy, if_pos (by omega)] at hget
    -- the right half is not marked: no block starts there yet
    have halloc : ((pool.setOrder p j).pages (p + 2 ^ j)).allocated = false := by
      have hagree := (hhalve.agrees (p + 2 ^ j)).allocated (by omega)
      simpa [Pool.setOrder, hne] using hagree
    have hordp : (((pool.setOrder p j).setOrder (p + 2 ^ j) j).pages p).order = j := by
      simp [Pool.setOrder]
    obtain ⟨t', pool', hrun, hrep⟩ := ih hhalve (by omega) (by omega)
    refine ⟨t', pool', ?_, hrep⟩
    rw [if_pos hlt]
    simp only [Nat.add_sub_cancel, hget, bind, Except.bind, assert_ok halloc]
    have hpj : ((pool.setOrder p j).pages p).order = j := by simp [Pool.setOrder]
    have hqj : (((pool.setOrder p j).setOrder (p + 2 ^ j) j).pages (p + 2 ^ j)).order = j := by
      simp [Pool.setOrder]
    rw [hpj, hqj]
    exact hrun

/-- The search finds a free block that is large enough, or there is none. -/
theorem find_block (h : Rep n t none pool out) (order : Nat) :
    (pool.find_block order = none ∧
        ∀ q j, t q = some (j, .free) → j < order) ∨
      ∃ q j, pool.find_block order = some q ∧ order ≤ j ∧ t q = some (j, .free) := by
  cases hfind : pool.find_block order with
  | none =>
    left
    refine ⟨rfl, fun q j hq => ?_⟩
    by_contra hge
    have hj := ((h.agrees q).order j .free hq).1
    have hmem := ((h.agrees q).mem_free j hj).mpr hq
    have hnone := List.findSome?_eq_none_iff.mp hfind j (List.mem_range'_1.mpr (by omega))
    rw [List.head?_eq_none_iff] at hnone
    rw [hnone] at hmem
    cases hmem
  | some q =>
    right
    obtain ⟨j, hj, hhead⟩ := List.exists_of_findSome?_eq_some hfind
    rw [List.mem_range'_1] at hj
    have hmem : q ∈ (pool.freelists j).lists := List.mem_of_mem_head? hhead
    exact ⟨q, j, rfl, hj.1, ((h.agrees q).mem_free j (by omega)).mp hmem⟩

/-- `buddy_get_pages` returns a block of the order asked for, or `NULL` when every free block is
smaller. -/
theorem buddy_get_pages {order : Nat} (h : Rep n t none pool out) (horder : order ≤ BUDDY_MAX_ORDER) :
    (pool.buddy_get_pages order = .ok (pool, none) ∧ ∀ q j, t q = some (j, .free) → j < order) ∨
      ∃ t' pool' q, pool.buddy_get_pages order = .ok (pool', some q) ∧
        Rep n t' none pool' ((q, order) :: out) := by
  unfold Pool.buddy_get_pages
  rw [assert_ok horder]
  rcases h.find_block order with ⟨hfind, hnone⟩ | ⟨q, j, hfind, hoj, hq⟩
  · left
    rw [hfind]
    exact ⟨rfl, hnone⟩
  right
  have h₁ := h.unlist hq
  obtain ⟨hj, hord⟩ := (h.agrees q).order j .free hq
  obtain ⟨pool₁, hdel, hpages, hdelist⟩ := list_del_ok pool hj
    ((h.mem_list_iff hq hj).mpr rfl)
  obtain ⟨t₂, pool₂, hsplit, h₂⟩ := h₁.split_loop (BUDDY_MAX_ORDER + 1) hoj (by omega)
  have hord₂ := ((h₂.hand_out.agrees q).order order .out (by simp)).2
  refine ⟨_, _, q, ?_, h₂.hand_out⟩
  simp only [hfind, hdel, bind, Except.bind, hpages, hord, hdelist, delist_pages]
  by_cases hgt : j > order
  · simp only [if_pos hgt, Pool.split_page, delist_pages, hord, assert_ok hgt, hsplit, bind,
      Except.bind, assert_ok hord₂]
    rfl
  have heq : j = order := by omega
  subst heq
  -- nothing to split: the loop returns at once
  have hsame : pool₂ = pool.delist q j := by
    rw [Pool.split_loop, delist_pages, hord, if_neg (by omega)] at hsplit
    cases hsplit
    rfl
  simp only [if_neg hgt, pure, Except.pure, ← hsame, assert_ok hord₂]

end Rep

/-! ## Initialisation -/

/-- Every page on its own, held by the initialisation. -/
def singletons (n : Nat) : Blocks := fun p => if p < n then some (0, .out) else none

/-- The pages `m, …, n - 1` as blocks of order 0. -/
def pagesFrom (m n : Nat) : List (Nat × Nat) := (List.range' m (n - m)).map fun p => (p, 0)

theorem mem_pagesFrom {m n p k : Nat} : (p, k) ∈ pagesFrom m n ↔ (m ≤ p ∧ p < n) ∧ k = 0 := by
  simp only [pagesFrom, List.mem_map, List.mem_range'_1, Prod.mk.injEq]
  constructor
  · rintro ⟨q, hq, rfl, rfl⟩
    exact ⟨by omega, rfl⟩
  · rintro ⟨hp, rfl⟩
    exact ⟨p, by omega, rfl, rfl⟩

theorem pagesFrom_nodup (m n : Nat) : (pagesFrom m n).Nodup :=
  List.Nodup.map (fun a b hab => (Prod.mk.inj hab).1) (List.nodup_range')

theorem pagesFrom_succ {m n : Nat} (h : m < n) : pagesFrom m n = (m, 0) :: pagesFrom (m + 1) n := by
  simp only [pagesFrom]
  rw [show n - m = (n - (m + 1)) + 1 by omega, List.range'_succ, List.map_cons]

theorem weight_pagesFrom (n : Nat) : weight (pagesFrom 0 n) = n := by
  have hone : (pagesFrom 0 n).map (fun b => 2 ^ b.2) = List.replicate n 1 := by
    simp only [pagesFrom, List.map_map, Nat.sub_zero]
    refine List.eq_replicate_iff.mpr ⟨by simp, ?_⟩
    intro b hb
    obtain ⟨p, -, rfl⟩ := List.mem_map.mp hb
    rfl
  rw [weight, hone]
  simp

theorem tiles_singletons (n : Nat) : Dyadic.Tiles n (singletons n).orders := by
  have heq : ∀ p k, (singletons n).orders p = some k ↔ p < n ∧ k = 0 := by
    intro p k
    by_cases hp : p < n
    · simp [Blocks.orders, singletons, hp, eq_comm]
    · simp [Blocks.orders, singletons, hp]
  refine ⟨?_, ?_, ?_, ?_⟩
  · intro p k hp
    rw [((heq p k).mp hp).2]
    exact one_dvd p
  · intro p k hp
    obtain ⟨hlt, rfl⟩ := (heq p k).mp hp
    exact hlt
  · intro p k q j hp _ hlt
    obtain ⟨-, rfl⟩ := (heq p k).mp hp
    exact hlt
  · intro i hi
    exact ⟨i, 0, (heq i 0).mpr ⟨hi, rfl⟩, le_refl i, by simp⟩

theorem rep_init {n : Nat} (pool : Pool) (hsmall : n < 2 ^ 19) (hmem : pool.mem_size = n * PGSIZE)
    (hpages : ∀ p, p < n → pool.pages p = ⟨true, 0⟩) (hlists : ∀ k, pool.freelists k = ⟨[], 0⟩) :
    Rep n (singletons n) none pool (pagesFrom 0 n) where
  tiles := tiles_singletons n
  mem_size := hmem
  small := hsmall
  agrees := by
    intro p
    by_cases hp : p < n
    · simp only [singletons, if_pos hp]
      refine ⟨?_, ?_, ?_, ?_, ?_⟩
      · intro k o hk
        cases hk
        simp [hpages p hp]
      · simp [hpages p hp]
      · intro k hk
        simp [hlists]
      · intro k
        simp [mem_pagesFrom, hp, eq_comm]
      · simp
    · simp only [singletons, if_neg hp]
      refine ⟨by simp, fun hlt => absurd hlt hp, ?_, ?_, by simp⟩
      · intro k hk
        simp [hlists]
      · intro k
        simp [mem_pagesFrom, hp]
  lists := by
    intro k hk
    simp [hlists]
  out_nodup := pagesFrom_nodup 0 n
  no_buddies := by
    intro p k hk hp
    by_cases hpn : p < n
    · simp [singletons, hpn] at hp
    · simp [singletons, hpn] at hp
  total := by
    have hfree : freeWeight pool = 0 := Finset.sum_eq_zero fun k _ => by simp [hlists]
    rw [hfree, weight_pagesFrom]
    simp [weight]

theorem free_all {n m : Nat} {pool : Pool} (h : Rep n (singletons n) none pool (pagesFrom 0 n))
    (hm : m ≤ n) :
    ∃ t pool', pool.free_all m = .ok pool' ∧ Rep n t none pool' (pagesFrom m n) := by
  induction m with
  | zero => exact ⟨_, pool, rfl, h⟩
  | succ m ih =>
    obtain ⟨t, pool₁, hrun, h₁⟩ := ih (by omega)
    rw [pagesFrom_succ (by omega)] at h₁
    obtain ⟨t', pool', hfree, h'⟩ := h₁.buddy_free_pages (p := m) (k := 0) (by simp)
    rw [List.erase_cons_head] at h'
    refine ⟨t', pool', ?_, h'⟩
    simp only [Pool.free_all, hrun, bind, Except.bind]
    exact hfree

/-- The check sum of `init_buddy`, in `int` and `uint64` arithmetic, is the size of the free
memory. -/
theorem memsize_eq {pool : Pool} (h : ListsOk pool) (hsmall : freeWeight pool < 2 ^ 19) :
    pool.memsize = freeWeight pool * PGSIZE := by
  have hpart : ∀ m, m ≤ BUDDY_MAX_ORDER + 1 →
      (∑ k ∈ Finset.range m, (pool.freelists k).lists.length * 2 ^ k) ≤ freeWeight pool ∧
      (List.range m).foldl (fun (sum : Int) i => (sum + int32 (int32 ((pool.freelists i).num * PGSIZE)
          * (1 <<< i : Nat))) % 2 ^ 64) 0
        = (∑ k ∈ Finset.range m, (pool.freelists k).lists.length * 2 ^ k : Nat) * PGSIZE := by
    intro m hm
    induction m with
    | zero => simp
    | succ m ih =>
      have hle : ∑ k ∈ Finset.range (m + 1), (pool.freelists k).lists.length * 2 ^ k
          ≤ freeWeight pool :=
        Finset.sum_le_sum_of_subset (Finset.range_mono hm)
      refine ⟨hle, ?_⟩
      rw [Finset.sum_range_succ] at hle ⊢
      rw [List.range_succ, List.foldl_append, (ih (by omega)).2, List.foldl_cons, List.foldl_nil,
        (h m (by omega)).2]
      generalize hS : ∑ k ∈ Finset.range m, (pool.freelists k).lists.length * 2 ^ k = S at hle ⊢
      generalize hL : (pool.freelists m).lists.length = L at hle ⊢
      have hLle : L ≤ L * 2 ^ m := Nat.le_mul_of_pos_right _ (Nat.two_pow_pos m)
      have hshift : (((1 <<< m : Nat) : Int)) = ((2 ^ m : Nat) : Int) := by
        rw [Nat.shiftLeft_eq, Nat.one_mul]
      have hterm : int32 (int32 ((L : Int) * PGSIZE) * (1 <<< m : Nat)) = ((L * 2 ^ m : Nat) : Int) * PGSIZE := by
        rw [int32_of_range (x := (L : Int) * PGSIZE) (by simp only [INT_MIN, PGSIZE]; omega)
          (by simp only [INT_MAX, PGSIZE]; omega), hshift]
        have hprod : (L : Int) * PGSIZE * ((2 ^ m : Nat) : Int) = ((L * 2 ^ m : Nat) : Int) * PGSIZE := by
          push_cast
          ring
        rw [hprod]
        exact int32_of_range (by simp only [INT_MIN, PGSIZE]; omega)
          (by simp only [INT_MAX, PGSIZE]; omega)
      rw [hterm]
      simp only [PGSIZE]
      omega
  exact (hpart (BUDDY_MAX_ORDER + 1) le_rfl).2

/-- `init_buddy` succeeds when the metadata array fits between the kernel and the pool. -/
theorem init_buddy_ok (mem : Nat → Page) (start_addr : Nat) {start_page page_num : Nat}
    (hbase : KERNBASE ≤ start_page) (hfit : start_page + page_num * sizeof_page < START_MEM) :
    ∃ t pool, init_buddy mem start_page start_addr page_num = .ok pool ∧
      Rep page_num t none pool [] := by
  simp only [KERNBASE, START_MEM, sizeof_page] at hbase hfit
  have hassert : (start_page + page_num * sizeof_page) % 2 ^ 64 < START_MEM := by
    simp only [START_MEM, sizeof_page]
    omega
  have hmod : PGSIZE * page_num % 2 ^ 64 = page_num * PGSIZE := by
    simp only [PGSIZE]
    omega
  unfold init_buddy
  rw [assert_ok hassert]
  have hinit := rep_init (n := page_num)
    { start_addr := start_addr
      mem_size := PGSIZE * page_num % 2 ^ 64
      page_metadata := start_page
      pages := fun page_idx => if page_idx < page_num then ⟨true, 0⟩ else mem page_idx
      freelists := fun _ => ⟨[], 0⟩ } (by omega) hmod (fun p hp => by simp [hp]) (fun _ => rfl)
  obtain ⟨t, pool, hrun, hrep⟩ := free_all hinit le_rfl
  have hnil : pagesFrom page_num page_num = [] := by simp [pagesFrom]
  rw [hnil] at hrep
  have htotal := hrep.total
  simp only [weight, Option.toList, List.map_nil, List.sum_nil, Nat.add_zero] at htotal
  have hsum : pool.memsize = pool.mem_size := by
    rw [memsize_eq hrep.lists hrep.freeWeight_lt, hrep.mem_size, htotal]
    push_cast
    rfl
  refine ⟨t, pool, ?_, hrep⟩
  simp only [bind, Except.bind, hrun, assert_ok hsum]
  rfl

/-! ## The representation invariant -/

/-- The blocks on the free lists, as head page and order. -/
def Pool.freeBlocks (pool : Pool) : List (Nat × Nat) :=
  (List.range (BUDDY_MAX_ORDER + 1)).flatMap fun k => (pool.freelists k).lists.map fun p => (p, k)

/-- Two blocks have no page in common. -/
def BlockDisjoint (b b' : Nat × Nat) : Prop := b.1 + 2 ^ b.2 ≤ b'.1 ∨ b'.1 + 2 ^ b'.2 ≤ b.1

/-- The representation invariant of a pool of `n` pages, in terms of the data of the code. -/
structure RepInv (n : Nat) (s : InUse) : Prop where
  aligned : ∀ b ∈ s.pool.freeBlocks, 2 ^ b.2 ∣ b.1
  /-- Free and outstanding blocks are pairwise disjoint, lie in the pool and cover it. -/
  disjoint : (s.pool.freeBlocks ++ s.out).Pairwise BlockDisjoint
  contained : ∀ b ∈ s.pool.freeBlocks ++ s.out, b.1 + 2 ^ b.2 ≤ n
  cover : ∀ i, i < n → ∃ b ∈ s.pool.freeBlocks ++ s.out, b.1 ≤ i ∧ i < b.1 + 2 ^ b.2
  num : ∀ k, k ≤ BUDDY_MAX_ORDER →
    (s.pool.freelists k).num = (s.pool.freelists k).lists.length
  no_buddies : ∀ k, k < BUDDY_MAX_ORDER → ∀ p ∈ (s.pool.freelists k).lists,
    p ^^^ 2 ^ k ∉ (s.pool.freelists k).lists
  allocated : ∀ p, p < n → ((s.pool.pages p).allocated = true ↔ ∃ k, (p, k) ∈ s.out)

namespace Rep

variable {n : Nat} {t : Blocks} {pool : Pool} {out : List (Nat × Nat)}

theorem mem_freeBlocks (h : Rep n t none pool out) (b : Nat × Nat) :
    b ∈ pool.freeBlocks ↔ t b.1 = some (b.2, .free) := by
  obtain ⟨p, k⟩ := b
  simp only [Pool.freeBlocks, List.mem_flatMap, List.mem_range, List.mem_map, Prod.mk.injEq]
  constructor
  · rintro ⟨j, hj, q, hq, rfl, rfl⟩
    exact ((h.agrees q).mem_free j (by omega)).mp hq
  · intro hp
    have hk := ((h.agrees p).order k .free hp).1
    exact ⟨k, by omega, p, ((h.agrees p).mem_free k hk).mpr hp, rfl, rfl⟩

theorem mem_blocks (h : Rep n t none pool out) (b : Nat × Nat) :
    b ∈ pool.freeBlocks ++ out ↔ t.orders b.1 = some b.2 := by
  rw [List.mem_append, h.mem_freeBlocks, (h.agrees b.1).mem_out]
  constructor
  · rintro (hb | hb)
    · exact Blocks.orders_eq_some hb
    · exact Blocks.orders_eq_some hb
  intro hb
  obtain ⟨⟨k, o⟩, ht, hk⟩ := Option.map_eq_some_iff.mp hb
  simp only at hk
  subst hk
  cases o with
  | free => exact .inl ht
  | out => exact .inr ht
  | cur => exact absurd (((h.agrees b.1).is_cur b.2).mpr ht) (by simp)

theorem nodup_freeBlocks (h : Rep n t none pool out) : pool.freeBlocks.Nodup := by
  refine List.nodup_flatMap.mpr ⟨?_, ?_⟩
  · intro k hk
    rw [List.mem_range] at hk
    exact (h.lists k (by omega)).1.map fun a b hab => (Prod.mk.inj hab).1
  refine (List.nodup_range).imp ?_
  intro i j hij b hbi hbj
  obtain ⟨p, -, rfl⟩ := List.mem_map.mp hbi
  obtain ⟨q, -, hq⟩ := List.mem_map.mp hbj
  exact hij (Prod.mk.inj hq).2.symm

theorem nodup_blocks (h : Rep n t none pool out) : (pool.freeBlocks ++ out).Nodup := by
  refine List.nodup_append.mpr ⟨h.nodup_freeBlocks, h.out_nodup, ?_⟩
  rintro b hb b' hb' rfl
  rw [h.mem_freeBlocks] at hb
  rw [(h.agrees b.1).mem_out b.2] at hb'
  rw [hb] at hb'
  cases hb'

/-- What the tiling says, in terms of the data of the code. -/
theorem repInv (h : Rep n t none pool out) : RepInv n ⟨pool, out⟩ where
  aligned b hb := h.tiles.aligned _ _ ((h.mem_blocks b).mp (List.mem_append_left _ hb))
  disjoint := by
    refine h.nodup_blocks.pairwise_of_forall_ne ?_
    intro b hb b' hb' hne
    have hord := (h.mem_blocks b).mp hb
    have hord' := (h.mem_blocks b').mp hb'
    rcases Nat.lt_trichotomy b.1 b'.1 with hlt | heq | hgt
    · exact .inl (h.tiles.disjoint _ _ _ _ hord hord' hlt)
    · rw [heq, hord'] at hord
      exact absurd (Prod.ext heq (Option.some.inj hord).symm) hne
    · exact .inr (h.tiles.disjoint _ _ _ _ hord' hord hgt)
  contained b hb := h.tiles.inside _ _ ((h.mem_blocks b).mp hb)
  cover i hi := by
    obtain ⟨p, k, hp, hlo, hhi⟩ := h.tiles.cover i hi
    exact ⟨(p, k), (h.mem_blocks (p, k)).mpr hp, hlo, hhi⟩
  num k hk := (h.lists k hk).2
  no_buddies k hk p hp hb := by
    rw [(h.agrees _).mem_free k hk.le] at hp hb
    exact h.no_buddies p k hk hp hb
  allocated p hp := by
    rw [(h.agrees p).allocated hp]
    exact exists_congr fun k => ((h.agrees p).mem_out k).symm

theorem call {s : InUse} {e : BuddyEvent} (h : Rep n t none s.pool s.out) (hlegal : s.Legal e) :
    ∃ t' s', s.call e = .ok s' ∧ Rep n t' none s'.pool s'.out := by
  cases e with
  | buddy_get_pages order =>
    rcases h.buddy_get_pages hlegal with ⟨hget, -⟩ | ⟨t', pool', q, hget, hrep⟩
    · refine ⟨t, s, ?_, h⟩
      simp only [InUse.call, hget, bind, Except.bind]
      rfl
    · refine ⟨t', ⟨pool', (q, order) :: s.out⟩, ?_, hrep⟩
      simp only [InUse.call, hget, bind, Except.bind]
      rfl
  | buddy_free_pages page order =>
    obtain ⟨t', pool', hfree, hrep⟩ := h.buddy_free_pages hlegal
    refine ⟨t', ⟨pool', s.out.erase (page, order)⟩, ?_, hrep⟩
    simp only [InUse.call, hfree, bind, Except.bind]
    rfl

end Rep

/-- **The buddy allocator keeps its representation invariant.**  For every page count whose metadata
array fits below the memory it describes, initialisation succeeds; after it, in every state that
legal calls lead to, the invariant holds and every legal call returns without a panic. -/
theorem buddy_repInv (mem : Nat → Page) (start_page start_addr page_num : Nat)
    (hbase : KERNBASE ≤ start_page) (hfit : start_page + page_num * sizeof_page < START_MEM) :
    ∃ pool, init_buddy mem start_page start_addr page_num = .ok pool ∧
      ∀ es s, Run InUse.Step ⟨pool, []⟩ es s →
        RepInv page_num s ∧ ∀ e, s.Legal e → ∃ s', s.call e = .ok s' := by
  obtain ⟨t₀, pool, hinit, hrep⟩ := init_buddy_ok mem start_addr hbase hfit
  refine ⟨pool, hinit, fun es s hrun => ?_⟩
  have hinv : ∃ t, Rep page_num t none s.pool s.out := by
    refine hrun.invariant (I := fun s => ∃ t, Rep page_num t none s.pool s.out) ?_ ⟨t₀, hrep⟩
    rintro s₁ e s₂ ⟨t, h⟩ ⟨hlegal, hcall⟩
    obtain ⟨t', s', hcall', h'⟩ := h.call hlegal
    rw [hcall] at hcall'
    cases hcall'
    exact ⟨t', h'⟩
  obtain ⟨t, h⟩ := hinv
  refine ⟨h.repInv, fun e hlegal => ?_⟩
  obtain ⟨-, s', hcall, -⟩ := h.call hlegal
  exact ⟨s', hcall⟩

theorem buddy_repInv_three_pages :
    ∃ pool, init_buddy (fun _ => ⟨false, 0⟩) 0x80300000 START_MEM 3 = .ok pool ∧
      RepInv 3 ⟨pool, []⟩ ∧ ∃ s', InUse.call ⟨pool, []⟩ (.buddy_get_pages 1) = .ok s' := by
  obtain ⟨pool, hinit, hreach⟩ :=
    buddy_repInv (fun _ => ⟨false, 0⟩) 0x80300000 START_MEM 3 (by decide) (by decide)
  obtain ⟨hinv, hcalls⟩ := hreach [] ⟨pool, []⟩ (.nil _)
  exact ⟨pool, hinit, hinv, hcalls (.buddy_get_pages 1) (show 1 ≤ BUDDY_MAX_ORDER by decide)⟩

/-- A page count whose metadata would run into the pool is refused by the first `ASSERT`. -/
theorem init_buddy_too_many_pages :
    init_buddy (fun _ => ⟨false, 0⟩) 0x80300000 START_MEM 1000000 = .error .init_buddy_metadata := by
  have hfull : ¬ (0x80300000 + 1000000 * sizeof_page) % 2 ^ 64 < START_MEM := by decide
  simp only [init_buddy, assert, if_neg hfull]
  rfl

/-! ## The free lists are canonical -/

namespace Rep

variable {n : Nat} {t t' : Blocks} {pool pool' : Pool} {out out' : List (Nat × Nat)}

theorem merged (h : Rep n t none pool out) :
    Dyadic.Merged BUDDY_MAX_ORDER n t.orders fun p => ∃ k, t p = some (k, .free) where
  toTiles := h.tiles
  order_le p k hp := by
    obtain ⟨⟨j, o⟩, ht, rfl⟩ := Option.map_eq_some_iff.mp hp
    exact ((h.agrees p).order j o ht).1
  merged := by
    rintro p k hk hp ⟨j, hj⟩ hq ⟨l, hl⟩
    rw [Blocks.orders_eq_some hj] at hp
    rw [Blocks.orders_eq_some hl] at hq
    cases hp
    cases hq
    exact h.no_buddies p k hk hj hl

/-- The free pages are those of no outstanding block. -/
theorem covered_of_perm (h : Rep n t none pool out) (h' : Rep n t' none pool' out') (hout : out.Perm out') {i : Nat}
    (hi : Dyadic.Covered t.orders (fun p => ∃ k, t p = some (k, .free)) i) :
    Dyadic.Covered t'.orders (fun p => ∃ k, t' p = some (k, .free)) i := by
  obtain ⟨p, k, hp, ⟨j, hj⟩, hle, hlt⟩ := hi
  obtain ⟨r, l, hr, hrle, hrlt⟩ := h'.tiles.cover i (hlt.trans_le (h.tiles.inside p k hp))
  rcases List.mem_append.mp ((h'.mem_blocks (r, l)).mpr hr) with hfree | hmem
  · exact ⟨r, l, hr, ⟨l, (h'.mem_freeBlocks (r, l)).mp hfree⟩, hrle, hrlt⟩
  -- an outstanding block of one pool is one of the other
  have hrt := ((h.agrees r).mem_out l).mp (hout.mem_iff.mpr hmem)
  have hro := Blocks.orders_eq_some hrt
  rcases Nat.lt_trichotomy p r with hpr | rfl | hrp
  · have := h.tiles.disjoint p k r l hp hro hpr
    omega
  · rw [hj] at hrt
    cases hrt
  · have := h.tiles.disjoint r l p k hro hp hrp
    omega

theorem free_of_perm (h : Rep n t none pool out) (h' : Rep n t' none pool' out') (hout : out.Perm out') {p k : Nat}
    (hp : t p = some (k, .free)) : t' p = some (k, .free) := by
  obtain ⟨hord, j, hj⟩ := h.merged.marked_of_covered h'.merged
    (fun i => ⟨h.covered_of_perm h' hout, h'.covered_of_perm h hout.symm⟩) (Blocks.orders_eq_some hp) ⟨k, hp⟩
  rw [Blocks.orders_eq_some hj] at hord
  cases hord
  exact hj

/-- The free lists are determined by the outstanding blocks. -/
theorem freeBlocks_perm (h : Rep n t none pool out) (h' : Rep n t' none pool' out') (hout : out.Perm out') :
    pool.freeBlocks.Perm pool'.freeBlocks := by
  refine (List.perm_ext_iff_of_nodup h.nodup_freeBlocks h'.nodup_freeBlocks).mpr fun b => ?_
  rw [h.mem_freeBlocks, h'.mem_freeBlocks]
  exact ⟨h.free_of_perm h' hout, h'.free_of_perm h hout.symm⟩

end Rep

/-- **The free lists are a function of the outstanding blocks**: whatever the order of the calls, two runs that leave
the same blocks out leave the same blocks free.  So when all is freed the pool is as initialisation left it. -/
theorem buddy_canonical (mem : Nat → Page) (start_page start_addr page_num : Nat)
    (hbase : KERNBASE ≤ start_page) (hfit : start_page + page_num * sizeof_page < START_MEM) :
    ∃ pool, init_buddy mem start_page start_addr page_num = .ok pool ∧
      ∀ es s es' s', Run InUse.Step ⟨pool, []⟩ es s → Run InUse.Step ⟨pool, []⟩ es' s' →
        s.out.Perm s'.out → s.pool.freeBlocks.Perm s'.pool.freeBlocks := by
  obtain ⟨t₀, pool, hinit, hrep⟩ := init_buddy_ok mem start_addr hbase hfit
  have hinv : ∀ es s, Run InUse.Step ⟨pool, []⟩ es s → ∃ t, Rep page_num t none s.pool s.out := by
    intro es s hrun
    refine hrun.invariant (I := fun s => ∃ t, Rep page_num t none s.pool s.out) ?_ ⟨t₀, hrep⟩
    rintro s₁ e s₂ ⟨t, h⟩ ⟨hlegal, hcall⟩
    obtain ⟨t', s', hcall', h'⟩ := h.call hlegal
    rw [hcall] at hcall'
    cases hcall'
    exact ⟨t', h'⟩
  refine ⟨pool, hinit, fun es s es' s' hrun hrun' hout => ?_⟩
  obtain ⟨t, h⟩ := hinv es s hrun
  obtain ⟨t', h'⟩ := hinv es' s' hrun'
  exact h.freeBlocks_perm h' hout

theorem buddy_canonical_three_pages :
    ∃ pool, init_buddy (fun _ => ⟨false, 0⟩) 0x80300000 START_MEM 3 = .ok pool ∧
      ∀ es s, Run InUse.Step ⟨pool, []⟩ es s → s.out = [] → s.pool.freeBlocks.Perm pool.freeBlocks := by
  obtain ⟨pool, hinit, hcanon⟩ :=
    buddy_canonical (fun _ => ⟨false, 0⟩) 0x80300000 START_MEM 3 (by decide) (by decide)
  exact ⟨pool, hinit, fun es s hrun hout => hcanon es s [] ⟨pool, []⟩ hrun (.nil _) (hout ▸ .refl _)⟩

end LostWakeup.Mm.Buddy
