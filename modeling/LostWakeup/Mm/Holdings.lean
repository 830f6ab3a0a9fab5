/-
# LostWakeup.Mm.Holdings — the blocks that one program holds while other CPUs allocate and free.

A program takes blocks with `kzalloc`, reads the flag `allocated` of a `struct page`, and gives blocks back with `kfree`.
Between two of its calls the other CPUs call the allocator as they like.  They do not free what the program holds: of a
block that is shared they drop references of their own.
-/
import Mathlib.Data.Multiset.MapFold
import LostWakeup.Library.Interference
import LostWakeup.Mm.Kalloc

namespace LostWakeup.Mm.Holdings

open Library
open Function (update update_of_ne update_self)
open Mm.Buddy (PGSIZE BUDDY_MAX_ORDER)
open Mm.Kalloc
open Mm.Kalloc.Mem (Live Inv Freed Taken)

/-! ## The machine -/

/-- The memory, and the pages that the program has from `kzalloc` and has not passed to `kfree`. -/
structure State where
  mem : Mem
  held : Multiset Nat

inductive Call
  | kzalloc (size : Nat)
  /-- `page->allocated` is read. -/
  | allocated (page : Nat)
  | kfree (page : Nat)

@[reducible] def Call.Answer : Call → Type
  | .kzalloc _ => Nat
  | .allocated _ => Bool
  | .kfree _ => Unit

abbrev Prog := Program Call Call.Answer

def kzalloc (size : Nat) : Prog Nat := .call (.kzalloc size) .ret

def allocated (page : Nat) : Prog Bool := .call (.allocated page) .ret

def kfree (page : Nat) : Prog Unit := .call (.kfree page) .ret

/-- Another CPU reclaims no page of the program, drops no reference of the program's, and takes fewer references than an
`int` can count. -/
def Foreign (s : State) : Mem.Event → Prop
  | .kmalloc _ _ alloc_fail => ∀ page ∈ alloc_fail, page ∉ s.held
  | .kalloc _ alloc_fail => ∀ page ∈ alloc_fail, page ∉ s.held
  | .share_page page => page ∈ s.held → s.mem.refcnt page < INT_MAX
  | .kfree page => page ∈ s.held → 1 < s.mem.refcnt page

inductive Act (c : Config) (s : State) : (call : Call) → call.Answer → State → Prop
  /-- The program's callers stop the machine at `NULL`; what the allocation reclaims is not the program's. -/
  | kzalloc {id size page : Nat} {alloc_fail : List Nat} {mem : Mem} : (∀ p ∈ alloc_fail, p ∉ page ::ₘ s.held) →
      s.mem.kmalloc c id size alloc_fail = .ok (mem, some page) → Act c s (.kzalloc size) page ⟨mem, page ::ₘ s.held⟩
  | allocated (page : Nat) : Act c s (.allocated page) (s.mem.page c page).allocated s
  | kfree {page : Nat} {mem : Mem} : s.mem.kfree c page = .ok mem → Act c s (.kfree page) () ⟨mem, s.held.erase page⟩

def Other (c : Config) (s : State) (e : Mem.Event) (s' : State) : Prop :=
  Foreign s e ∧ s.mem.next c e = .ok s'.mem ∧ s'.held = s.held

def machine (c : Config) : Machine State Mem.Event Call Call.Answer := ⟨Act c, Other c⟩

/-! ## What a call leaves alone -/

variable {c : Config} {m m' : Mem} {page page' size : Nat}

/-- A page that heads a block which is out still does, with the block unchanged. -/
structure Stays (c : Config) (m m' : Mem) (page : Nat) : Prop where
  refcnt : 1 ≤ m.refcnt page → 1 ≤ m'.refcnt page
  live : ∀ i p k, Live c m page i p k → Live c m' page i p k

theorem Stays.refl (c : Config) (m : Mem) (page : Nat) : Stays c m m page := ⟨id, fun _ _ _ h => h⟩

theorem Stays.trans {m'' : Mem} (h : Stays c m m' page) (h' : Stays c m' m'' page) : Stays c m m'' page :=
  ⟨fun hpos => h'.refcnt (h.refcnt hpos), fun i p k hlive => h'.live i p k (h.live i p k hlive)⟩

theorem stays_of_same (hpools : m'.pools = m.pools) (hrefcnt : m'.refcnt page = m.refcnt page) : Stays c m m' page :=
  ⟨fun hpos => hrefcnt ▸ hpos, fun _ _ _ hlive => hlive.of_out (hpools ▸ hlive.out)⟩

/-- `kfree` of another page. -/
theorem kfree_other (hfree : m.kfree c page = .ok m') (hne : page' ≠ page) : Stays c m m' page' := by
  unfold Mem.kfree at hfree
  dsimp only at hfree
  split at hfree
  · cases hfree
  split at hfree
  · cases hfree
    exact stays_of_same rfl (update_of_ne hne _ _)
  split at hfree
  · cases hfree
  split at hfree
  · cases hfree
  split at hfree
  · rcases hpool : liftBuddy ((m.pools (page / c.PAGES_PER_CPU)).pool.buddy_free_pages (page % c.PAGES_PER_CPU)) with e | pool
    · rw [hpool] at hfree
      cases hfree
    rw [hpool] at hfree
    cases hfree
    refine ⟨fun hpos => ?_, fun i p k hlive => hlive.of_out ?_⟩
    · dsimp only
      rw [update_of_ne hne]
      exact hpos
    dsimp only
    rcases eq_or_ne i (page / c.PAGES_PER_CPU) with rfl | hi
    · rw [update_self]
      apply (List.mem_erase_of_ne _).mpr hlive.out
      -- the block that is returned starts at `page`
      intro heq
      apply hne
      rw [hlive.page, (Prod.mk.inj heq).1, Nat.mul_comm]
      exact Nat.div_add_mod page c.PAGES_PER_CPU
    · rw [update_of_ne hi]
      exact hlive.out
  · cases hfree

theorem kfree_same (h : m.Inv c) (hmany : 1 < m.refcnt page) :
    ∃ m', m.kfree c page = .ok m' ∧ 1 ≤ m'.refcnt page ∧ m'.pools = m.pools := by
  have hpred := Mem.int32_pred (x := m.refcnt page) (by omega) (h.bound page)
  refine ⟨{ m with refcnt := update m.refcnt page (m.refcnt page - 1) }, ?_, ?_, rfl⟩
  · rw [Mem.kfree, if_neg (by omega)]
    dsimp only
    rw [update_self, hpred, if_pos (by omega)]
  · dsimp only
    rw [update_self]
    omega

theorem kfree_ok (h : m.Inv c) (hpos : 1 ≤ m.refcnt page) : ∃ m', m.kfree c page = .ok m' := by
  rcases eq_or_lt_of_le hpos with hone | hmany
  · obtain ⟨i, p, k, hlive⟩ := h.live page hpos
    obtain ⟨m', hfree, _⟩ := h.kfree_last hlive hone.symm
    exact ⟨m', hfree⟩
  · obtain ⟨m', hfree, _⟩ := kfree_same h hmany
    exact ⟨m', hfree⟩

theorem foldlM_kfree_stays {pages : List Nat} (hnot : page' ∉ pages) (hfold : pages.foldlM (Mem.kfree c) m = .ok m') :
    Stays c m m' page' := by
  induction pages generalizing m with
  | nil =>
    cases hfold
    exact .refl c _ page'
  | cons page pages ih =>
    obtain ⟨hne, hrest⟩ := not_or.mp (mt List.mem_cons.mpr hnot)
    rw [List.foldlM_cons] at hfold
    rcases hfree : m.kfree c page with e | m₁
    · rw [hfree] at hfold
      cases hfold
    · rw [hfree] at hfold
      exact (kfree_other hfree hne).trans (ih hrest hfold)

theorem reclaim_stays {alloc_fail : List Nat} (hnot : page' ∉ alloc_fail) (hrec : m.reclaim c alloc_fail = .ok m') :
    Stays c m m' page' := by
  unfold Mem.reclaim at hrec
  split at hrec
  · rcases hfold : alloc_fail.foldlM (Mem.kfree c) { m with recycling := int32 (m.recycling + 1) } with e | m₁
    · rw [hfold] at hrec
      cases hrec
    rw [hfold] at hrec
    cases hrec
    have hstart : Stays c m { m with recycling := int32 (m.recycling + 1) } page' := stays_of_same rfl rfl
    exact hstart.trans ((foldlM_kfree_stays hnot hfold).trans (stays_of_same rfl rfl))
  · cases hrec
    exact .refl c _ page'

/-- An allocation leaves every block with references alone, and hands out a page that had none. -/
theorem alloc_spec {id order : Nat} {alloc_fail : List Nat} {r : Option Nat} (h : m.Inv c)
    (halloc : m.alloc c id order alloc_fail = .ok (m', r)) :
    m'.Inv c ∧ (∀ page, page ∉ alloc_fail → 1 ≤ m.refcnt page → Stays c m m' page) ∧
      ∀ page, r = some page → page ∉ alloc_fail → m.refcnt page = 0 ∧ 1 ≤ m'.refcnt page ∧
        ∃ i p, Live c m' page i p order := by
  rcases h.find halloc with ⟨rfl, rfl⟩ | ⟨m₁, q, htaken, hout⟩
  · exact ⟨h, fun page _ _ => .refl c m' page, fun page hpage => by cases hpage⟩
  obtain ⟨rfl, hrec⟩ := Mem.hand_out_eq hout
  have hzero : m₁.refcnt q = 0 := by
    by_contra hne
    rw [Mem.hand_out, if_pos hne] at hout
    cases hout
  have hafter := h.handed htaken
  refine ⟨hafter.reclaim hrec, ?_, ?_⟩
  · intro page hnot hpos
    have hne : page ≠ q := by
      rintro rfl
      rw [← htaken.refcnt, hzero] at hpos
      exact absurd hpos (by decide)
    have hhanded : Stays c m (m₁.handed c q) page := by
      refine ⟨fun _ => ?_, fun i p k hlive => (htaken.keep page i p k hlive).of_out (htaken.keep page i p k hlive).out⟩
      rw [Mem.handed]
      dsimp only
      rw [update_of_ne hne, htaken.refcnt]
      exact hpos
    exact hhanded.trans (reclaim_stays hnot hrec)
  · rintro page hpage hnot
    obtain rfl : q = page := Option.some.inj hpage
    have hstays := reclaim_stays hnot hrec
    obtain ⟨i, p, hlive⟩ := htaken.live
    refine ⟨htaken.refcnt ▸ hzero, hstays.refcnt ?_, i, p, hstays.live i p order (hlive.of_out hlive.out)⟩
    rw [Mem.handed]
    dsimp only
    rw [update_self]

/-- **What the others leave alone.** -/
theorem other_stays {s s' : State} {e : Mem.Event} (h : s.mem.Inv c) (hother : Other c s e s') (hheld : page ∈ s.held)
    (hpos : 1 ≤ s.mem.refcnt page) : s'.mem.Inv c ∧ Stays c s.mem s'.mem page := by
  obtain ⟨hforeign, hnext, _⟩ := hother
  refine ⟨h.step hnext, ?_⟩
  have halloc : ∀ {id order : Nat} {alloc_fail : List Nat}, (∀ p ∈ alloc_fail, p ∉ s.held) →
      (s.mem.alloc c id order alloc_fail).map Prod.fst = .ok s'.mem → Stays c s.mem s'.mem page := by
    intro id order alloc_fail hfail hmap
    rcases hr : s.mem.alloc c id order alloc_fail with e | ⟨m₁, r⟩
    · rw [hr] at hmap
      cases hmap
    · rw [hr] at hmap
      obtain rfl := Except.ok.inj hmap
      exact (alloc_spec h hr).2.1 page (fun hmem => hfail page hmem hheld) hpos
  cases e with
  | kmalloc id size alloc_fail => exact halloc hforeign hnext
  | kalloc id alloc_fail => exact halloc hforeign hnext
  | share_page q =>
    have hshare : s.mem.share_page q = .ok s'.mem := hnext
    unfold Mem.share_page at hshare
    split at hshare
    · cases hshare
    obtain hs' := Except.ok.inj hshare
    rw [← hs']
    rcases eq_or_ne page q with rfl | hne
    · have hsmall := hforeign hheld
      refine ⟨fun _ => ?_, fun i p k hlive => hlive.of_out hlive.out⟩
      dsimp only
      rw [update_self, int32_of_range (by unfold INT_MIN; omega) (by omega)]
      omega
    · exact stays_of_same rfl (update_of_ne hne _ _)
  | kfree q =>
    have hfree : s.mem.kfree c q = .ok s'.mem := hnext
    rcases eq_or_ne page q with rfl | hne
    · obtain ⟨m', hfree', hpos', hpools⟩ := kfree_same h (hforeign hheld)
      rw [hfree] at hfree'
      obtain rfl := Except.ok.inj hfree'
      exact ⟨fun _ => hpos', fun i p k hlive => hlive.of_out (hpools ▸ hlive.out)⟩
    · exact kfree_other hfree hne

/-! ## Blocks -/

/-- A block of at least `n` pages is out at `page`, and has references. -/
structure Block (c : Config) (m : Mem) (page n : Nat) : Prop where
  refcnt : 1 ≤ m.refcnt page
  live : ∃ i p k, Live c m page i p k ∧ n ≤ 2 ^ k

/-- The page has its `struct page` in one of the pools. -/
def InPools (c : Config) (page : Nat) : Prop := 0 < c.PAGES_PER_CPU ∧ page / c.PAGES_PER_CPU < c.NCPU

variable {n q : Nat}

theorem Block.stays (h : Block c m page n) (hstays : Stays c m m' page) : Block c m' page n := by
  obtain ⟨hpos, i, p, k, hlive, hn⟩ := h
  exact ⟨hstays.refcnt hpos, i, p, k, hstays.live i p k hlive, hn⟩

/-- The pages of a block, in the pool of its first page. -/
theorem Block.place (hinv : m.Inv c) (h : Block c m page n) (hlo : page ≤ q) (hhi : q < page + n) :
    ∃ i p k, Live c m page i p k ∧ q / c.PAGES_PER_CPU = i ∧ q % c.PAGES_PER_CPU = p + (q - page) ∧ q - page < 2 ^ k ∧
      0 < c.PAGES_PER_CPU := by
  obtain ⟨_, i, p, k, hlive, hn⟩ := h
  obtain ⟨t, hrep⟩ := hinv.rep i hlive.cpu
  have hmem := ((hrep.agrees p).mem_out k).mp hlive.out
  have hinside := hrep.tiles.inside p k (Buddy.Blocks.orders_eq_some hmem)
  have hpos : 0 < c.PAGES_PER_CPU := Nat.zero_lt_of_lt hlive.inside
  have hsplit : q = p + (q - page) + i * c.PAGES_PER_CPU := by
    have := hlive.page
    omega
  have hlt : p + (q - page) < c.PAGES_PER_CPU := by omega
  have hwithin : q - page < 2 ^ k := by omega
  generalize q - page = j at *
  subst hsplit
  refine ⟨i, p, k, hlive, ?_, ?_, hwithin, hpos⟩
  · rw [Nat.add_mul_div_right _ _ hpos, Nat.div_eq_of_lt hlt, Nat.zero_add]
  · rw [Nat.add_mul_mod_self_right, Nat.mod_eq_of_lt hlt]

theorem Block.inPools (hinv : m.Inv c) (h : Block c m page n) (hlo : page ≤ q) (hhi : q < page + n) : InPools c q := by
  obtain ⟨i, p, k, hlive, hdiv, _, _, hpos⟩ := h.place hinv hlo hhi
  exact ⟨hpos, hdiv ▸ hlive.cpu⟩

theorem Block.head (hinv : m.Inv c) (h : Block c m page n) (hlo : page ≤ q) (hhi : q < page + n) {i p k : Nat}
    (hq : Live c m q i p k) : q = page := by
  obtain ⟨i', p', k', hlive, hdiv, hmod, hlt, _⟩ := h.place hinv hlo hhi
  obtain rfl : i = i' := hq.div.symm.trans hdiv
  obtain rfl : p = p' + (q - page) := hq.mod.symm.trans hmod
  obtain ⟨t, hrep⟩ := hinv.rep i hlive.cpu
  have hmem := Buddy.Blocks.orders_eq_some (((hrep.agrees p').mem_out k').mp hlive.out)
  have hin := Buddy.Blocks.orders_eq_some (((hrep.agrees _).mem_out k).mp hq.out)
  by_contra hne
  have hnone := hrep.tiles.interior hmem (by omega : p' < p' + (q - page)) (by omega)
  rw [hin] at hnone
  cases hnone

theorem allocated_iff (hinv : m.Inv c) (hin : InPools c page) :
    (m.page c page).allocated = true ↔ ∃ i p k, Live c m page i p k := by
  obtain ⟨hpos, hcpu⟩ := hin
  obtain ⟨t, hrep⟩ := hinv.rep _ hcpu
  have hmod : page % c.PAGES_PER_CPU < c.PAGES_PER_CPU := Nat.mod_lt _ hpos
  have hagrees := hrep.agrees (page % c.PAGES_PER_CPU)
  rw [Mem.page, hagrees.allocated hmod]
  constructor
  · rintro ⟨k, hk⟩
    refine ⟨_, _, k, hcpu, hmod, ?_, (hagrees.mem_out k).mpr hk⟩
    rw [Nat.mul_comm]
    exact (Nat.div_add_mod page _).symm
  rintro ⟨i, p, k, hlive⟩
  obtain rfl := hlive.div
  obtain rfl := hlive.mod
  exact ⟨k, (hagrees.mem_out k).mp hlive.out⟩

/-! ## What the program holds -/

variable {s s' : State}

/-- The program holds these blocks; each has at least the pages given with it. -/
structure Owns (c : Config) (blocks : Multiset (Nat × Nat)) (s : State) : Prop where
  inv : s.mem.Inv c
  held : s.held = blocks.map Prod.fst
  nodup : s.held.Nodup
  block : ∀ b ∈ blocks, Block c s.mem b.1 b.2

/-- The program holds these pages. -/
structure Holds (c : Config) (pages : Multiset Nat) (s : State) : Prop where
  inv : s.mem.Inv c
  held : s.held = pages
  nodup : s.held.Nodup
  refcnt : ∀ page ∈ pages, 1 ≤ s.mem.refcnt page

variable {blocks : Multiset (Nat × Nat)} {pages : Multiset Nat} {e : Mem.Event}

theorem Owns.mem_held (h : Owns c blocks s) {b : Nat × Nat} (hb : b ∈ blocks) : b.1 ∈ s.held := by
  rw [h.held]
  exact Multiset.mem_map_of_mem _ hb

theorem Owns.holds (h : Owns c blocks s) : Holds c (blocks.map Prod.fst) s := by
  refine ⟨h.inv, h.held, h.nodup, ?_⟩
  intro page hpage
  obtain ⟨b, hb, rfl⟩ := Multiset.mem_map.mp hpage
  exact (h.block b hb).refcnt

theorem Owns.other (h : Owns c blocks s) (hother : Other c s e s') : Owns c blocks s' := by
  have hheld := hother.2.2
  refine ⟨h.inv.step hother.2.1, hheld.trans h.held, hheld ▸ h.nodup, ?_⟩
  intro b hb
  have hblock := h.block b hb
  exact hblock.stays (other_stays h.inv hother (h.mem_held hb) hblock.refcnt).2

theorem Holds.other (h : Holds c pages s) (hother : Other c s e s') : Holds c pages s' := by
  have hheld := hother.2.2
  refine ⟨h.inv.step hother.2.1, hheld.trans h.held, hheld ▸ h.nodup, ?_⟩
  intro page hpage
  have hpos := h.refcnt page hpage
  exact (other_stays h.inv hother (h.held ▸ hpage) hpos).2.refcnt hpos

/-- A block that has been taken joins the others. -/
theorem Owns.kzalloc (h : Owns c blocks s) (hact : Act c s (.kzalloc size) page s')
    (hn : n ≤ 2 ^ (if size ≤ PGSIZE then 0 else Mem.size_to_page_order size)) : Owns c ((page, n) ::ₘ blocks) s' := by
  cases hact with
  | @kzalloc id _ _ alloc_fail mem hfail halloc =>
    obtain ⟨hinv, hstays, hnew⟩ := alloc_spec h.inv halloc
    obtain ⟨hzero, hpos, i, p, hlive⟩ := hnew page rfl fun hmem => hfail page hmem (Multiset.mem_cons_self _ _)
    have hfresh : page ∉ s.held := by
      intro hmem
      have := h.holds.refcnt page (h.held ▸ hmem)
      omega
    refine ⟨hinv, ?_, Multiset.nodup_cons.mpr ⟨hfresh, h.nodup⟩, ?_⟩
    · dsimp only
      rw [Multiset.map_cons, h.held]
    intro b hb
    rcases Multiset.mem_cons.mp hb with rfl | hb
    · exact ⟨hpos, i, p, _, hlive, hn⟩
    · have hblock := h.block b hb
      have hmem : b.1 ∈ page ::ₘ s.held := Multiset.mem_cons_of_mem (h.mem_held hb)
      exact hblock.stays (hstays b.1 (fun hin => hfail b.1 hin hmem) hblock.refcnt)

theorem Owns.shrink {n' : Nat} (h : Owns c ((page, n) ::ₘ blocks) s) (hle : n' ≤ n) : Owns c ((page, n') ::ₘ blocks) s := by
  refine ⟨h.inv, by rw [h.held, Multiset.map_cons, Multiset.map_cons], h.nodup, ?_⟩
  intro b hb
  rcases Multiset.mem_cons.mp hb with rfl | hb
  · obtain ⟨hpos, i, p, k, hlive, hn⟩ := h.block (page, n) (Multiset.mem_cons_self _ _)
    exact ⟨hpos, i, p, k, hlive, hle.trans hn⟩
  · exact h.block b (Multiset.mem_cons_of_mem hb)

theorem Holds.live (h : Holds c pages s) (hpage : page ∈ s.held) : ∃ i p k, Live c s.mem page i p k :=
  h.inv.live page (h.refcnt page (h.held ▸ hpage))

theorem Holds.kfree (h : Holds c (page ::ₘ pages) s) (hact : Act c s (.kfree page) () s') : Holds c pages s' := by
  cases hact with
  | @kfree _ mem hfree =>
    have hnodup := h.nodup
    rw [h.held] at hnodup
    obtain ⟨hfresh, hrest⟩ := Multiset.nodup_cons.mp hnodup
    have hheld : s.held.erase page = pages := by rw [h.held, Multiset.erase_cons_head]
    refine ⟨(h.inv.kfree hfree).inv, hheld, ?_, ?_⟩
    · dsimp only
      rwa [hheld]
    intro page' hpage'
    have hne : page' ≠ page := by
      rintro rfl
      exact hfresh hpage'
    exact (kfree_other hfree hne).refcnt (h.refcnt page' (Multiset.mem_cons_of_mem hpage'))

end LostWakeup.Mm.Holdings
