/-
# LostWakeup.Fs.Fat32.MappingDestroy — `fat32_i_mapping_destroy`: the page cache of an inode is given back.

`mpage_readpages` takes one block of pages for each gap between cached pages, and the tree holds them one by one.
`radix_tree_free_whole_tree` passes a page to `kfree` where `page->allocated` says that a block begins there; once the
first page of a block is freed, that flag is no longer the tree's.

The tree is `Lib.RadixTree`'s with the addresses of its nodes, and without counts and tags.  Between two calls of the
allocator the other CPUs allocate and free.
-/
import Mathlib.Algebra.BigOperators.Fin
import LostWakeup.Lib.RadixTree
import LostWakeup.Fs.Mpage

namespace LostWakeup.Fs.Fat32.MappingDestroy

open Library Mm.Holdings
open Function (update update_of_ne update_self)
open Lib.RadixTree (RADIX_TREE_MAP_SIZE RADIX_TREE_MAX_PATH slotOffset radix_tree_maxindex extendHeight)
open Mm.Buddy (PGSIZE)
open Mm.Kalloc (Config Mem)
open Mm.Kalloc.Mem (Live)
open List (map_cons range' sum_cons)

/-! ## The tree -/

def sizeof_radix_tree_node : Nat := 536
def sizeof_address_space : Nat := 64

/-- What a `void *` of the tree points to, that many levels above the pages. -/
inductive Slot : Nat → Type
  | null {h : Nat} : Slot h
  | page (p : Nat) : Slot 0
  | node {h : Nat} (addr : Nat) (slots : Fin RADIX_TREE_MAP_SIZE → Slot h) : Slot (h + 1)

/-- `struct radix_tree_root`; all pages of the tree are at the bottom level. -/
structure Root where
  height : Nat
  rnode : Slot height

/-- `struct address_space`. -/
structure Mapping where
  addr : Nat
  page_tree : Root

/-- The pages that the tree holds. -/
def Slot.pages : {h : Nat} → Slot h → Multiset Nat
  | _, .null => 0
  | _, .page p => {p}
  | _, .node _ slots => ∑ i, (slots i).pages

/-- The nodes that it consists of. -/
def Slot.nodes : {h : Nat} → Slot h → Multiset Nat
  | _, .null => 0
  | _, .page _ => 0
  | _, .node addr slots => addr ::ₘ ∑ i, (slots i).nodes

/-! ## Filling the tree -/

/-- A computation that makes no calls; where it fails the machine stops. -/
def ofExcept {ε α : Type} : Except ε α → Prog α
  | .ok a => .ret a
  | .error _ => .halt

/-- Follow `index` down to the pages, or to a `NULL`. -/
def Slot.walk (index : Nat) : {h : Nat} → Slot h → Option Nat
  | _, .null => none
  | _, .page p => some p
  | h + 1, .node _ slots => (slots (slotOffset index h)).walk index

def radix_tree_lookup_node (root : Root) (index : Nat) : Except Lib.RadixTree.Panic (Option Nat) :=
  match root with
  | ⟨_, .null⟩ => .ok none
  | ⟨_, .page p⟩ => .ok (if index > 0 then none else some p)
  | ⟨h + 1, .node addr slots⟩ => do
    let max ← radix_tree_maxindex (h + 1)
    return if index > max then none else (Slot.node addr slots).walk index

def radix_tree_node_alloc : Prog Nat := kzalloc sizeof_radix_tree_node

/-- The descent of `radix_tree_insert`. -/
def insertPath (index page : Nat) : (h : Nat) → Slot h → Prog (Slot h)
  | 0, .null => return .page page
  -- the place is taken: `add_to_page_cache_atomic` panics
  | 0, .page _ => .halt
  | h + 1, .null => do
    let addr ← radix_tree_node_alloc
    let child ← insertPath index page h .null
    return .node addr (update (fun _ => .null) (slotOffset index h) child)
  | h + 1, .node addr slots => do
    let child ← insertPath index page h (slots (slotOffset index h))
    return .node addr (update slots (slotOffset index h) child)

local instance neZero_slots : NeZero RADIX_TREE_MAP_SIZE := ⟨Nat.succ_ne_zero 63⟩

/-- The loop `do { .. } while (height > root->height)`. -/
def extendLoop (height : Nat) : Nat → Root → Prog Root
  | 0, _ => .halt
  | fuel + 1, root => do
    let addr ← radix_tree_node_alloc
    let root : Root := ⟨root.height + 1, .node addr (update (fun _ => .null) 0 root.rnode)⟩
    if height > root.height then extendLoop height fuel root else return root

def radix_tree_extend (root : Root) (index : Nat) : Prog Root := do
  let height ← ofExcept (extendHeight index (RADIX_TREE_MAX_PATH + 2) (root.height + 1))
  match root.rnode with
  | .null => return ⟨height, .null⟩
  | _ => extendLoop height (RADIX_TREE_MAX_PATH + 1) root

def radix_tree_insert (root : Root) (index page : Nat) : Prog Root := do
  let max ← ofExcept (radix_tree_maxindex root.height)
  let root ← (if index > max then radix_tree_extend root index else pure root : Prog Root)
  let rnode ← insertPath index page root.height root.rnode
  return ⟨root.height, rnode⟩

/-- The arguments of `mpage_readpages`; its callers ask for no more pages than the memory has. -/
structure Readpages where
  index : Nat
  cnt : Nat
  read_from_disk : Bool
  cnt_lt : cnt < 2 ^ 31

/-- The loop over `end_idx`. -/
def gapEnd (call : Readpages) (root : Root) : Nat → Nat → Except Lib.RadixTree.Panic Nat
  | 0, end_idx => .ok end_idx
  | fuel + 1, end_idx =>
    if end_idx < call.cnt then do
      match ← radix_tree_lookup_node root (add64 call.index end_idx) with
      | none => gapEnd call root fuel (end_idx + 1)
      | some _ => return end_idx
    else .ok end_idx

/-- The loop over `z`, for the given number of pages; the flag says that the function has returned. -/
def addLoop (call : Readpages) (pa start_idx : Nat) : Nat → Nat → Root → Prog (Bool × Root)
  | 0, _, root => return (false, root)
  | n + 1, z, root => do
    let root ← radix_tree_insert root (add64 call.index z) (pa + (z - start_idx))
    if call.cnt = 1 ∧ call.read_from_disk = false then return (true, root)
    else addLoop call pa start_idx n (z + 1) root

/-- The loop over `start_idx`. -/
def scanLoop (call : Readpages) : Nat → Nat → Root → Prog Root
  | 0, _, _ => .halt
  | fuel + 1, start_idx, root =>
    if start_idx < call.cnt then do
      match ← ofExcept (radix_tree_lookup_node root (add64 call.index start_idx)) with
      | none =>
        let end_idx ← ofExcept (gapEnd call root call.cnt (start_idx + 1))
        let pa ← kzalloc (PGSIZE * (end_idx - start_idx))
        let (returned, root) ← addLoop call pa start_idx (end_idx - start_idx) start_idx root
        if returned then return root else scanLoop call fuel (end_idx + 1) root
      | some _ => if start_idx = 0 then .halt else scanLoop call fuel (start_idx + 1) root
    else return root

def mpage_readpages (call : Readpages) (root : Root) : Prog Root :=
  -- `ASSERT(cnt > 0)`
  if call.cnt = 0 then .halt else scanLoop call (call.cnt + 1) 0 root

def readAll : List Readpages → Root → Prog Root
  | [], root => return root
  | call :: calls, root => do
    let root ← mpage_readpages call root
    readAll calls root

/-- `fat32_i_mapping_init`, and the given calls of `mpage_readpages`. -/
def fill (calls : List Readpages) : Prog Mapping := do
  let addr ← kzalloc sizeof_address_space
  let root ← readAll calls ⟨0, .null⟩
  return ⟨addr, root⟩

/-! ## Giving it back -/

/-- What `radix_tree_free_whole_tree` does for a slot. -/
def radix_tree_free_whole_tree : {h : Nat} → Slot h → Prog Unit
  | _, .null => return ()
  | _, .page p => do
    if ← allocated p then kfree p
  | _, .node addr slots => do
    (List.finRange RADIX_TREE_MAP_SIZE).forM fun i => radix_tree_free_whole_tree (slots i)
    kfree addr

/-- `fat32_i_mapping_destroy`, from the old value of `ip->i_mapping` to the new one. -/
def fat32_i_mapping_destroy : Option Mapping → Prog (Option Mapping)
  | none => return none
  | some ⟨mapping, ⟨h, .null⟩⟩ => return some ⟨mapping, ⟨h, .null⟩⟩
  | some ⟨mapping, ⟨_, .page p⟩⟩ => do
    kfree p
    kfree mapping
    return none
  | some ⟨mapping, ⟨_, .node addr slots⟩⟩ => do
    radix_tree_free_whole_tree (.node addr slots)
    kfree mapping
    return none

/-! ## What a tree is made of -/

section Tree

variable {h : Nat} {addr : Nat} {slots : Fin RADIX_TREE_MAP_SIZE → Slot h}

/-- The blocks of the nodes; each is one page. -/
def Slot.blocks (slot : Slot h) : Multiset (Nat × Nat) := slot.nodes.map fun addr => (addr, 1)

theorem node_pages (o : Fin RADIX_TREE_MAP_SIZE) :
    (Slot.node addr slots).pages = (slots o).pages + ∑ i ∈ Finset.univ.erase o, (slots i).pages := by
  rw [Slot.pages, Finset.add_sum_erase _ (fun i => (slots i).pages) (Finset.mem_univ o)]

theorem node_blocks (o : Fin RADIX_TREE_MAP_SIZE) :
    (Slot.node addr slots).blocks = (addr, 1) ::ₘ ((slots o).blocks + ∑ i ∈ Finset.univ.erase o, (slots i).blocks) := by
  rw [Slot.blocks, Slot.nodes, Multiset.map_cons, Finset.add_sum_erase _ (fun i => (slots i).blocks) (Finset.mem_univ o)]
  congr 1
  exact map_sum (Multiset.mapAddMonoidHom fun addr => (addr, 1)) _ _

theorem update_pages (o : Fin RADIX_TREE_MAP_SIZE) (child : Slot h) :
    (Slot.node addr (update slots o child)).pages =
      child.pages + ∑ i ∈ Finset.univ.erase o, (slots i).pages := by
  rw [node_pages o, update_self]
  congr 1
  apply Finset.sum_congr rfl
  intro i hi
  rw [update_of_ne (Finset.ne_of_mem_erase hi)]

theorem update_blocks (o : Fin RADIX_TREE_MAP_SIZE) (child : Slot h) :
    (Slot.node addr (update slots o child)).blocks =
      (addr, 1) ::ₘ (child.blocks + ∑ i ∈ Finset.univ.erase o, (slots i).blocks) := by
  rw [node_blocks o, update_self]
  congr 2
  apply Finset.sum_congr rfl
  intro i hi
  rw [update_of_ne (Finset.ne_of_mem_erase hi)]

theorem only_child (o : Fin RADIX_TREE_MAP_SIZE) (child : Slot h) :
    (Slot.node addr (update (fun _ => .null) o child)).pages = child.pages ∧
      (Slot.node addr (update (fun _ => .null) o child)).blocks = (addr, 1) ::ₘ child.blocks := by
  rw [update_pages, update_blocks]
  have hpages : ∀ i ∈ Finset.univ.erase o, ((fun _ => .null : Fin RADIX_TREE_MAP_SIZE → Slot h) i).pages = 0 := fun _ _ => rfl
  have hblocks : ∀ i ∈ Finset.univ.erase o, ((fun _ => .null : Fin RADIX_TREE_MAP_SIZE → Slot h) i).blocks = 0 :=
    fun _ _ => rfl
  rw [Finset.sum_eq_zero hpages, Finset.sum_eq_zero hblocks, add_zero, add_zero]
  exact ⟨rfl, rfl⟩

end Tree

/-! ## Filling it keeps the books -/

section Fill

variable {c : Config} {s : State} {α β : Type} {rest : Multiset (Nat × Nat)} {page index : Nat} {root : Root}

/-- A precondition of a computation that frees nothing. -/
def Builds (c : Config) (Q : α → State → Prop) (p : Prog α) (s : State) : Prop :=
  Meets (machine c) (fun _ _ => True) (fun _ _ => True) Q p s

theorem builds_ret {blocks : Multiset (Nat × Nat)} {a : α} {Q : α → State → Prop} (h : Owns c blocks s)
    (hQ : ∀ s, Owns c blocks s → Q a s) : Builds c Q (.ret a) s :=
  Meets.ret (fun _ _ _ hs hother => hs.other hother) h hQ

theorem builds_pure {blocks : Multiset (Nat × Nat)} {a : α} {Q : α → State → Prop} (h : Owns c blocks s)
    (hQ : ∀ s, Owns c blocks s → Q a s) : Builds c Q (pure a) s :=
  builds_ret h hQ

theorem builds_seq {p : Prog α} {f : α → Prog β} {Q : α → State → Prop} {R : β → State → Prop} (h : Builds c Q p s)
    (hQ : ∀ a s, Q a s → Builds c R (f a) s) : Builds c R (p >>= f) s :=
  Meets.seq (h.mono hQ)

theorem builds_ofExcept {ε : Type} {x : Except ε α} {f : α → Prog β} {Q : β → State → Prop}
    (h : ∀ a, x = .ok a → Builds c Q (f a) s) : Builds c Q (ofExcept x >>= f) s := by
  rcases x with e | a
  · trivial
  · exact h a rfl

theorem builds_kzalloc {blocks : Multiset (Nat × Nat)} {size n : Nat} {f : Nat → Prog α} {Q : α → State → Prop}
    (h : Owns c blocks s) (hn : n ≤ 2 ^ (if size ≤ PGSIZE then 0 else Mem.size_to_page_order size))
    (hQ : ∀ page s, Owns c ((page, n) ::ₘ blocks) s → Builds c Q (f page) s) : Builds c Q (kzalloc size >>= f) s := by
  apply Meets.seq
  apply Meets.call_free (P := Owns c blocks) (fun _ _ _ hs hother => hs.other hother) h (fun _ => trivial) (fun _ _ => trivial)
  intro s₁ page s₂ h₁ hact
  exact builds_ret (h₁.kzalloc hact hn) (hQ page)

theorem builds_node_alloc {blocks : Multiset (Nat × Nat)} {f : Nat → Prog α} {Q : α → State → Prop} (h : Owns c blocks s)
    (hQ : ∀ addr s, Owns c ((addr, 1) ::ₘ blocks) s → Builds c Q (f addr) s) :
    Builds c Q (radix_tree_node_alloc >>= f) s :=
  builds_kzalloc h Nat.one_le_two_pow hQ

theorem insertPath_builds {h : Nat} {slot : Slot h} (howns : Owns c (slot.blocks + rest) s) :
    Builds c (fun slot' s' => slot'.pages = page ::ₘ slot.pages ∧ Owns c (slot'.blocks + rest) s')
      (insertPath index page h slot) s := by
  induction h generalizing rest s with
  | zero =>
    cases slot with
    | null => exact builds_pure howns fun s₁ h₁ => ⟨rfl, h₁⟩
    | page p => trivial
  | succ h ih =>
    cases slot with
    | null =>
      rw [insertPath]
      apply builds_node_alloc howns
      intro addr s₁ h₁
      have hchild : Owns c ((Slot.null : Slot h).blocks + (addr, 1) ::ₘ rest) s₁ := by
        have hnull : (Slot.null : Slot (h + 1)).blocks + rest = rest := zero_add rest
        have hnull' : (Slot.null : Slot h).blocks + (addr, 1) ::ₘ rest = (addr, 1) ::ₘ rest := zero_add _
        rw [hnull']
        rwa [hnull] at h₁
      apply builds_seq (ih hchild)
      rintro child s₂ ⟨hpages, h₂⟩
      obtain ⟨hpages', hblocks'⟩ := @only_child h addr (slotOffset index h) child
      refine builds_pure h₂ fun s₃ h₃ => ?_
      refine ⟨hpages'.trans hpages, ?_⟩
      rwa [hblocks', Multiset.cons_add, ← Multiset.add_cons]
    | node addr slots =>
      rw [insertPath]
      rw [node_blocks (slotOffset index h), Multiset.cons_add, add_assoc, ← Multiset.add_cons] at howns
      apply builds_seq (ih howns)
      rintro child s₁ ⟨hpages, h₁⟩
      refine builds_pure h₁ fun s₂ h₂ => ?_
      constructor
      · rw [update_pages, hpages, node_pages (slotOffset index h), Multiset.cons_add]
      · rwa [update_blocks, Multiset.cons_add, add_assoc, ← Multiset.add_cons]

theorem extendLoop_builds {height fuel : Nat} (howns : Owns c (root.rnode.blocks + rest) s) :
    Builds c (fun root' s' => root'.rnode.pages = root.rnode.pages ∧ Owns c (root'.rnode.blocks + rest) s')
      (extendLoop height fuel root) s := by
  induction fuel generalizing root s with
  | zero => trivial
  | succ fuel ih =>
    rw [extendLoop]
    apply builds_node_alloc howns
    intro addr s₁ h₁
    obtain ⟨hpages, hblocks⟩ := @only_child root.height addr 0 root.rnode
    rw [← Multiset.cons_add, ← hblocks] at h₁
    dsimp only
    split
    · apply Meets.mono _ (ih h₁)
      rintro root' s₂ ⟨hpages', h₂⟩
      exact ⟨hpages'.trans hpages, h₂⟩
    · exact builds_pure h₁ fun s₂ h₂ => ⟨hpages, h₂⟩

theorem radix_tree_extend_builds (howns : Owns c (root.rnode.blocks + rest) s) :
    Builds c (fun root' s' => root'.rnode.pages = root.rnode.pages ∧ Owns c (root'.rnode.blocks + rest) s')
      (radix_tree_extend root index) s := by
  rw [radix_tree_extend]
  apply builds_ofExcept
  intro height _
  obtain ⟨h, rnode⟩ := root
  cases rnode with
  | null => exact builds_pure howns fun s₁ h₁ => ⟨rfl, h₁⟩
  | page p => exact extendLoop_builds howns
  | node addr slots => exact extendLoop_builds howns

theorem radix_tree_insert_builds (howns : Owns c (root.rnode.blocks + rest) s) :
    Builds c (fun root' s' => root'.rnode.pages = page ::ₘ root.rnode.pages ∧ Owns c (root'.rnode.blocks + rest) s')
      (radix_tree_insert root index page) s := by
  rw [radix_tree_insert]
  apply builds_ofExcept
  intro max _
  have hgrown : Builds c (fun root' s' => root'.rnode.pages = root.rnode.pages ∧ Owns c (root'.rnode.blocks + rest) s')
      (if index > max then radix_tree_extend root index else pure root) s := by
    split
    · exact radix_tree_extend_builds howns
    · exact builds_pure howns fun s₁ h₁ => ⟨rfl, h₁⟩
  apply builds_seq hgrown
  rintro root₁ s₁ ⟨hpages, h₁⟩
  apply builds_seq (insertPath_builds h₁)
  rintro rnode s₂ ⟨hpages', h₂⟩
  refine builds_pure h₂ fun s₃ h₃ => ?_
  exact ⟨hpages'.trans (congrArg _ hpages), h₃⟩

/-- The loop over `z` puts at least one page of the block into the tree, and its pages one after the other. -/
theorem addLoop_builds {call : Readpages} {pa start_idx n z : Nat} (hz : start_idx ≤ z)
    (howns : Owns c (root.rnode.blocks + rest) s) :
    Builds c (fun r s' => ∃ m, m ≤ n ∧ (0 < n → 0 < m) ∧
        r.2.rnode.pages = ↑(range' (pa + (z - start_idx)) m) + root.rnode.pages ∧ Owns c (r.2.rnode.blocks + rest) s')
      (addLoop call pa start_idx n z root) s := by
  induction n generalizing z root s with
  | zero => exact builds_pure howns fun s₁ h₁ => ⟨0, le_refl 0, id, (zero_add _).symm, h₁⟩
  | succ n ih =>
    rw [addLoop]
    apply builds_seq (radix_tree_insert_builds howns)
    rintro root₁ s₁ ⟨hpages, h₁⟩
    split
    · refine builds_pure h₁ fun s₂ h₂ => ?_
      refine ⟨1, Nat.le_add_left 1 n, fun _ => Nat.one_pos, ?_, h₂⟩
      rw [hpages]
      rfl
    apply Meets.mono _ (ih (Nat.le_succ_of_le hz) h₁)
    rintro r s₂ ⟨m, hm, _, hpages', h₂⟩
    refine ⟨m + 1, Nat.succ_le_succ hm, fun _ => Nat.succ_pos m, ?_, h₂⟩
    have hnext : pa + (z + 1 - start_idx) = pa + (z - start_idx) + 1 := by omega
    rw [hpages', hpages, hnext, Multiset.add_cons, List.range'_succ, ← Multiset.cons_coe, Multiset.cons_add]

theorem gapEnd_spec {call : Readpages} {fuel end_idx r : Nat} (h : gapEnd call root fuel end_idx = .ok r) :
    end_idx ≤ r ∧ (end_idx ≤ call.cnt → r ≤ call.cnt) := by
  induction fuel generalizing end_idx with
  | zero =>
    obtain rfl := Except.ok.inj h
    exact ⟨le_refl _, id⟩
  | succ fuel ih =>
    rw [gapEnd] at h
    split at h
    · rename_i hlt
      rcases hlookup : radix_tree_lookup_node root (add64 call.index end_idx) with e | found
      · rw [hlookup] at h
        cases h
      rw [hlookup] at h
      cases found with
      | none =>
        obtain ⟨hle, hcnt⟩ := ih h
        exact ⟨Nat.le_of_succ_le hle, fun _ => hcnt hlt⟩
      | some p =>
        obtain rfl := Except.ok.inj h
        exact ⟨le_refl _, id⟩
    · obtain rfl := Except.ok.inj h
      exact ⟨le_refl _, id⟩

theorem le_two_pow_order {n : Nat} (hn : n < 2 ^ 31) :
    n ≤ 2 ^ (if PGSIZE * n ≤ PGSIZE then 0 else Mem.size_to_page_order (PGSIZE * n)) := by
  have hsmall : ∀ k, k < 31 → toUint64 (int_shl_one k) = 2 ^ k := by decide
  split
  · rename_i hone
    unfold PGSIZE at hone
    omega
  rename_i hmany
  have hpos : 0 < PGSIZE * n := Nat.zero_lt_of_lt (Nat.lt_of_not_le hmany)
  have hfit : PGSIZE * n + PGSIZE ≤ 2 ^ 64 := by
    unfold PGSIZE
    omega
  have hpages : Mm.Sizes.page_num (PGSIZE * n) = n := by
    rw [Mm.Sizes.page_num_eq hfit]
    unfold PGSIZE
    omega
  have hlog : Nat.log 2 n < 31 := Nat.log_lt_of_lt_pow' (by decide) hn
  have hleast := Mm.Sizes.size_to_page_order_isLeast hpos hfit (by rw [hpages, hsmall _ hlog])
  have henough := Mm.Sizes.le_pages_iff.mp hleast.1
  rwa [← Mm.Sizes.page_num_eq hfit, hpages] at henough

/-- The pages of a block that the tree holds. -/
def pagesOf (b : Nat × Nat) : Multiset Nat := ↑(range' b.1 b.2)

/-- The tree holds the first pages of some blocks; these, its nodes and the rest are all that the program has. -/
def Cached (c : Config) (rest : Multiset (Nat × Nat)) (root : Root) (s : State) : Prop :=
  ∃ blocks : Multiset (Nat × Nat), (∀ b ∈ blocks, 0 < b.2) ∧ root.rnode.pages = blocks.bind pagesOf ∧
    Owns c (root.rnode.blocks + (blocks + rest)) s

theorem scanLoop_builds {call : Readpages} {fuel start_idx : Nat} (h : Cached c rest root s) :
    Builds c (Cached c rest) (scanLoop call fuel start_idx root) s := by
  induction fuel generalizing start_idx root s with
  | zero => trivial
  | succ fuel ih =>
    obtain ⟨blocks, hpos, hpages, howns⟩ := h
    rw [scanLoop]
    split
    · rename_i hlt
      apply builds_ofExcept
      intro found _
      cases found with
      | some p =>
        dsimp only
        split
        · trivial
        · exact ih ⟨blocks, hpos, hpages, howns⟩
      | none =>
        apply builds_ofExcept
        intro end_idx hend
        obtain ⟨hlo, hhi⟩ := gapEnd_spec hend
        have hle := hhi hlt
        have hcnt := call.cnt_lt
        apply builds_kzalloc howns (le_two_pow_order (by omega : end_idx - start_idx < 2 ^ 31))
        intro pa s₁ h₁
        rw [← Multiset.add_cons, ← Multiset.cons_add] at h₁
        apply builds_seq (addLoop_builds (le_refl start_idx) h₁)
        rintro ⟨returned, root₁⟩ s₂ ⟨m, hm, hm0, hpages', h₂⟩
        have hafter : ∀ s, Owns c (root₁.rnode.blocks + ((pa, end_idx - start_idx) ::ₘ blocks + rest)) s →
            Cached c rest root₁ s := by
          intro s₃ h₃
          refine ⟨(pa, m) ::ₘ blocks, ?_, ?_, ?_⟩
          · intro b hb
            rcases Multiset.mem_cons.mp hb with rfl | hb
            · exact hm0 (by omega)
            · exact hpos b hb
          · rw [Multiset.cons_bind, ← hpages, hpages', Nat.sub_self, Nat.add_zero]
            rfl
          · rw [Multiset.cons_add, Multiset.add_cons] at h₃ ⊢
            exact h₃.shrink hm
        dsimp only
        split
        · exact builds_pure h₂ hafter
        · exact ih (hafter s₂ h₂)
    · exact builds_pure howns fun s₁ h₁ => ⟨blocks, hpos, hpages, h₁⟩

theorem readAll_builds {calls : List Readpages} (h : Cached c rest root s) :
    Builds c (Cached c rest) (readAll calls root) s := by
  induction calls generalizing root s with
  | nil =>
    obtain ⟨blocks, hpos, hpages, howns⟩ := h
    exact builds_pure howns fun s₁ h₁ => ⟨blocks, hpos, hpages, h₁⟩
  | cons call calls ih =>
    have hcall : Builds c (Cached c rest) (mpage_readpages call root) s := by
      rw [mpage_readpages]
      split
      · trivial
      · exact scanLoop_builds h
    exact builds_seq hcall fun root₁ s₁ h₁ => ih h₁

/-- **The tree and its books**, after any calls of `mpage_readpages`. -/
theorem fill_builds {calls : List Readpages} (h : Owns c 0 s) :
    Builds c (fun mapping s' => Cached c {(mapping.addr, 1)} mapping.page_tree s') (fill calls) s := by
  rw [fill]
  apply builds_kzalloc h Nat.one_le_two_pow
  intro addr s₁ h₁
  have hempty : Cached c {(addr, 1)} ⟨0, .null⟩ s₁ := by
    refine ⟨0, fun b hb => absurd hb (Multiset.notMem_zero b), rfl, ?_⟩
    have hnull : (Slot.null : Slot 0).blocks = 0 := rfl
    rw [hnull, zero_add, zero_add]
    exact h₁
  apply builds_seq (readAll_builds hempty)
  rintro root s₂ ⟨blocks, hpos, hpages, h₂⟩
  exact builds_pure h₂ fun s₃ h₃ => ⟨blocks, hpos, hpages, h₃⟩

end Fill

/-! ## The release -/

/-- Only what the program holds is passed to `kfree`, and `kfree` goes through. -/
def Admissible (c : Config) (s : State) : Call → Prop
  | .kfree page => page ∈ s.held ∧ ∃ mem, s.mem.kfree c page = .ok mem
  | _ => True

/-- The flag of a page that is not the first of a block of the tree's is read while no block begins there. -/
def Undisturbed (c : Config) (s : State) : Call → Prop
  | .allocated page => page ∉ s.held → ¬ ∃ i p k, Live c s.mem page i p k
  | _ => True

/-- Every block has been given back, and `i_mapping` is `NULL`. -/
def Released (i_mapping : Option Mapping) (s : State) : Prop := i_mapping = none ∧ s.held = 0

section Free

variable {c : Config} {s : State} {α : Type} {page : Nat} {pages heads rest : Multiset Nat}

/-- A precondition of a computation that gives back what it holds. -/
def Frees (c : Config) (Q : α → State → Prop) (p : Prog α) (s : State) : Prop :=
  Meets (machine c) (Admissible c) (Undisturbed c) Q p s

theorem frees_pure {a : α} {Q : α → State → Prop} (h : Holds c pages s) (hQ : ∀ s, Holds c pages s → Q a s) :
    Frees c Q (pure a) s :=
  Meets.ret (fun _ _ _ hs hother => hs.other hother) h hQ

theorem frees_seq {β : Type} {p : Prog α} {f : α → Prog β} {Q : α → State → Prop} {R : β → State → Prop}
    (h : Frees c Q p s) (hQ : ∀ a s, Q a s → Frees c R (f a) s) : Frees c R (p >>= f) s :=
  Meets.seq (h.mono hQ)

theorem frees_kfree {Q : Unit → State → Prop} (h : Holds c (page ::ₘ pages) s) (hQ : ∀ s, Holds c pages s → Q () s) :
    Frees c Q (kfree page) s := by
  apply Meets.call_free (P := Holds c (page ::ₘ pages)) (fun _ _ _ hs hother => hs.other hother) h (fun _ => trivial)
  · intro s₁ h₁
    have hpage : page ∈ page ::ₘ pages := Multiset.mem_cons_self page pages
    exact ⟨h₁.held ▸ hpage, kfree_ok h₁.inv (h₁.refcnt page hpage)⟩
  · intro s₁ ans s₂ h₁ hact
    exact frees_pure (h₁.kfree hact) hQ

theorem free_head (h : Holds c (page ::ₘ rest) s) (hin : InPools c page) :
    Frees c (fun _ s' => Holds c rest s') (radix_tree_free_whole_tree (.page page)) s := by
  rw [radix_tree_free_whole_tree]
  apply Meets.seq
  have hheld : ∀ s, Holds c (page ::ₘ rest) s → page ∈ s.held := by
    intro s₁ h₁
    rw [h₁.held]
    exact Multiset.mem_cons_self page rest
  apply Meets.call (P := Holds c (page ::ₘ rest)) (fun _ _ _ hs hother => hs.other hother) h (fun _ _ => trivial)
  · intro s₁ ans s₂ h₁ hact _
    cases hact
    rw [(allocated_iff h₁.inv hin).mpr (h₁.live (hheld s₁ h₁))]
    exact Meets.ret (fun _ _ _ hs hother => hs.other hother) h₁ fun s₃ h₃ => frees_kfree h₃ fun _ h₄ => h₄
  · intro s₁ ans s₂ h₁ _ hnot
    exact absurd (fun hout => absurd (hheld s₁ h₁) hout) hnot

/-- Another page of a block is passed over, unless a block that is not the tree's begins there by now. -/
theorem free_interior (h : Holds c rest s) (hin : InPools c page) (hout : page ∉ rest) :
    Frees c (fun _ s' => Holds c rest s') (radix_tree_free_whole_tree (.page page)) s := by
  rw [radix_tree_free_whole_tree]
  have hfree : ∀ s, Holds c rest s → page ∉ s.held := by
    intro s₁ h₁
    rwa [h₁.held]
  apply Meets.call (P := Holds c rest) (fun _ _ _ hs hother => hs.other hother) h (fun _ _ => trivial)
  · intro s₁ ans s₂ h₁ hact hok
    cases hact
    have hflag : (s₁.mem.page c page).allocated = false := by
      rw [← Bool.not_eq_true, allocated_iff h₁.inv hin]
      exact hok (hfree s₁ h₁)
    rw [hflag]
    exact frees_pure h₁ fun _ h₂ => h₂
  · intro s₁ ans s₂ h₁ hact hnot
    cases hact
    have hlive : ∃ i p k, Live c s₁.mem page i p k := by
      by_contra hnone
      exact hnot fun _ => hnone
    rw [(allocated_iff h₁.inv hin).mpr hlive]
    exact ⟨.kfree page, _, rfl, fun hadm => hfree s₁ h₁ hadm.1⟩

/-- What the release of a subtree starts from: it holds the first pages of the blocks among its pages, its nodes and
the rest. -/
structure Releases (c : Config) (heads : Multiset Nat) (pages nodes rest : Multiset Nat) : Prop where
  inPools : ∀ p ∈ pages, InPools c p
  apart : ∀ p ∈ pages, p ∉ heads → p ∉ nodes + rest

theorem free_slots {h : Nat} {slots : Fin RADIX_TREE_MAP_SIZE → Slot h} {is : List (Fin RADIX_TREE_MAP_SIZE)}
    (ih : ∀ i {rest : Multiset Nat} {s : State}, Releases c heads (slots i).pages (slots i).nodes rest →
      Holds c ((slots i).pages.filter (· ∈ heads) + ((slots i).nodes + rest)) s →
      Frees c (fun _ s' => Holds c rest s') (radix_tree_free_whole_tree (slots i)) s)
    (hrel : Releases c heads (is.map fun i => (slots i).pages).sum (is.map fun i => (slots i).nodes).sum rest)
    (hholds : Holds c ((is.map fun i => (slots i).pages).sum.filter (· ∈ heads) +
      ((is.map fun i => (slots i).nodes).sum + rest)) s) :
    Frees c (fun _ s' => Holds c rest s') (is.forM fun i => radix_tree_free_whole_tree (slots i)) s := by
  induction is generalizing s with
  | nil =>
    rw [List.map_nil, List.map_nil, List.sum_nil, Multiset.filter_zero, zero_add, zero_add] at hholds
    exact frees_pure hholds fun _ h₁ => h₁
  | cons i is ihs =>
    rw [map_cons, map_cons, sum_cons, sum_cons] at hrel
    have hrest : Releases c heads (is.map fun i => (slots i).pages).sum (is.map fun i => (slots i).nodes).sum rest := by
      refine ⟨fun p hp => hrel.inPools p (Multiset.mem_add.mpr (.inr hp)), fun p hp hnot hmem => ?_⟩
      apply hrel.apart p (Multiset.mem_add.mpr (.inr hp)) hnot
      rw [add_assoc]
      exact Multiset.mem_add.mpr (.inr hmem)
    have hfirst : Releases c heads (slots i).pages (slots i).nodes
        ((is.map fun i => (slots i).pages).sum.filter (· ∈ heads) + ((is.map fun i => (slots i).nodes).sum + rest)) := by
      refine ⟨fun p hp => hrel.inPools p (Multiset.mem_add.mpr (.inl hp)), fun p hp hnot hmem => ?_⟩
      have happ := hrel.apart p (Multiset.mem_add.mpr (.inl hp)) hnot
      rw [add_assoc] at happ
      rcases Multiset.mem_add.mp hmem with hmem | hmem
      · exact happ (Multiset.mem_add.mpr (.inl hmem))
      · rcases Multiset.mem_add.mp hmem with hmem | hmem
        · exact hnot (Multiset.mem_filter.mp hmem).2
        · exact happ (Multiset.mem_add.mpr (.inr hmem))
    have hstart : Holds c ((slots i).pages.filter (· ∈ heads) + ((slots i).nodes +
        ((is.map fun i => (slots i).pages).sum.filter (· ∈ heads) + ((is.map fun i => (slots i).nodes).sum + rest)))) s := by
      rw [map_cons, map_cons, sum_cons, sum_cons, Multiset.filter_add, add_assoc, add_assoc,
        add_left_comm (((is.map fun i => (slots i).pages).sum).filter (· ∈ heads))] at hholds
      exact hholds
    exact frees_seq (ih i hfirst hstart) fun _ s₁ h₁ => ihs hrest h₁

/-- **The walk** gives back the blocks of a subtree and its nodes, as long as nobody disturbs it. -/
theorem free_whole_tree {h : Nat} {slot : Slot h} (hrel : Releases c heads slot.pages slot.nodes rest)
    (hholds : Holds c (slot.pages.filter (· ∈ heads) + (slot.nodes + rest)) s) :
    Frees c (fun _ s' => Holds c rest s') (radix_tree_free_whole_tree slot) s := by
  induction slot generalizing rest s with
  | null =>
    rw [Slot.pages, Slot.nodes, Multiset.filter_zero, zero_add, zero_add] at hholds
    rw [radix_tree_free_whole_tree]
    exact frees_pure hholds fun _ h₁ => h₁
  | page p =>
    have hp : p ∈ (Slot.page p).pages := Multiset.mem_singleton_self p
    rw [Slot.pages, Slot.nodes, zero_add, Multiset.filter_singleton] at hholds
    by_cases hhead : p ∈ heads
    · rw [if_pos hhead, Multiset.singleton_add] at hholds
      exact free_head hholds (hrel.inPools p hp)
    rw [if_neg hhead, Multiset.empty_eq_zero, zero_add] at hholds
    have hout := hrel.apart p hp hhead
    rw [Slot.nodes, zero_add] at hout
    exact free_interior hholds (hrel.inPools p hp) hout
  | node addr slots ih =>
    rw [radix_tree_free_whole_tree]
    have hpages : (Slot.node addr slots).pages = ((List.finRange RADIX_TREE_MAP_SIZE).map fun i => (slots i).pages).sum :=
      Fin.sum_univ_def _
    have hnodes : (Slot.node addr slots).nodes =
        addr ::ₘ ((List.finRange RADIX_TREE_MAP_SIZE).map fun i => (slots i).nodes).sum := by
      rw [Slot.nodes, Fin.sum_univ_def]
    rw [hpages, hnodes, Multiset.cons_add, ← Multiset.add_cons] at hholds
    have hslots : Releases c heads ((List.finRange RADIX_TREE_MAP_SIZE).map fun i => (slots i).pages).sum
        ((List.finRange RADIX_TREE_MAP_SIZE).map fun i => (slots i).nodes).sum (addr ::ₘ rest) := by
      rw [hpages, hnodes] at hrel
      refine ⟨hrel.inPools, fun p hp hnot hmem => hrel.apart p hp hnot ?_⟩
      rwa [Multiset.cons_add, ← Multiset.add_cons]
    apply frees_seq (free_slots (fun i _ _ => ih i) hslots hholds)
    intro _ s₁ h₁
    exact frees_kfree h₁ fun _ h₂ => h₂

/-! ## From the filled tree to the empty one -/

variable {blocks others : Multiset (Nat × Nat)} {b : Nat × Nat} {q : Nat}

theorem mem_pagesOf : q ∈ pagesOf b ↔ b.1 ≤ q ∧ q < b.1 + b.2 := by
  rw [pagesOf, Multiset.mem_coe, List.mem_range'_1]

theorem first_of_held (h : Owns c blocks s) (hb : b ∈ blocks) (hq : q ∈ pagesOf b) (hheld : q ∈ s.held) : q = b.1 := by
  obtain ⟨hlo, hhi⟩ := mem_pagesOf.mp hq
  obtain ⟨i, p, k, hlive⟩ := h.holds.live hheld
  exact (h.block b hb).head h.inv hlo hhi hlive

/-- Each block has one first page in the tree. -/
theorem filter_heads (h : Owns c others s) (hsub : ∀ b ∈ blocks, b ∈ others ∧ 0 < b.2 ∧ b.1 ∈ heads)
    (hheads : ∀ q ∈ heads, q ∈ s.held) : (blocks.bind pagesOf).filter (· ∈ heads) = blocks.map Prod.fst := by
  induction blocks using Multiset.induction_on with
  | empty => rfl
  | cons b blocks ih =>
    obtain ⟨hb, hpos, hhead⟩ := hsub b (Multiset.mem_cons_self b blocks)
    have htail := ih fun b' hb' => hsub b' (Multiset.mem_cons_of_mem hb')
    obtain ⟨n, hn⟩ : ∃ n, b.2 = n + 1 := ⟨b.2 - 1, by omega⟩
    have hsplit : pagesOf b = b.1 ::ₘ ↑(range' (b.1 + 1) n) := by
      rw [pagesOf, hn, List.range'_succ, Multiset.cons_coe]
    have hnone : (↑(range' (b.1 + 1) n) : Multiset Nat).filter (· ∈ heads) = 0 := by
      apply Multiset.filter_eq_nil.mpr
      intro q hq hmem
      have hrange := List.mem_range'_1.mp (Multiset.mem_coe.mp hq)
      have hin : q ∈ pagesOf b := mem_pagesOf.mpr ⟨by omega, by omega⟩
      have := first_of_held h hb hin (hheads q hmem)
      omega
    rw [Multiset.cons_bind, Multiset.filter_add, htail, hsplit, Multiset.filter_cons_of_pos _ hhead, hnone,
      Multiset.map_cons, Multiset.cons_add, zero_add]

/-- What the walk finds in a filled tree. -/
theorem Cached.releases {mapping : Mapping} (h : Cached c {(mapping.addr, 1)} mapping.page_tree s) :
    ∃ heads, Releases c heads mapping.page_tree.rnode.pages mapping.page_tree.rnode.nodes {mapping.addr} ∧
      Holds c (mapping.page_tree.rnode.pages.filter (· ∈ heads) + (mapping.page_tree.rnode.nodes + {mapping.addr})) s ∧
      heads = mapping.page_tree.rnode.pages.filter (· ∈ heads) ∧
      (mapping.page_tree.rnode.pages ≠ 0 → heads ≠ 0) := by
  obtain ⟨blocks, hpos, hpages, howns⟩ := h
  have hmem : ∀ b ∈ blocks, b ∈ mapping.page_tree.rnode.blocks + (blocks + {(mapping.addr, 1)}) := fun b hb =>
    Multiset.mem_add.mpr (.inr (Multiset.mem_add.mpr (.inl hb)))
  have hall : (mapping.page_tree.rnode.blocks + (blocks + {(mapping.addr, 1)})).map Prod.fst =
      blocks.map Prod.fst + (mapping.page_tree.rnode.nodes + {mapping.addr}) := by
    have hfst : mapping.page_tree.rnode.blocks.map Prod.fst = mapping.page_tree.rnode.nodes := by
      rw [Slot.blocks, Multiset.map_map]
      exact Multiset.map_id _
    rw [Multiset.map_add, Multiset.map_add, hfst, Multiset.map_singleton, add_left_comm]
  have hholds := howns.holds
  rw [hall] at hholds
  have hheads : ∀ q ∈ blocks.map Prod.fst, q ∈ s.held := fun q hq => by
    rw [hholds.held]
    exact Multiset.mem_add.mpr (.inl hq)
  have hfilter := filter_heads howns (fun b hb => ⟨hmem b hb, hpos b hb, Multiset.mem_map_of_mem _ hb⟩) hheads
  rw [← hpages] at hfilter
  refine ⟨blocks.map Prod.fst, ⟨?_, ?_⟩, hfilter.symm ▸ hholds, hfilter.symm, ?_⟩
  · intro q hq
    rw [hpages] at hq
    obtain ⟨b, hb, hqb⟩ := Multiset.mem_bind.mp hq
    obtain ⟨hlo, hhi⟩ := mem_pagesOf.mp hqb
    exact (howns.block b (hmem b hb)).inPools howns.inv hlo hhi
  · intro q hq hnot hin
    rw [hpages] at hq
    obtain ⟨b, hb, hqb⟩ := Multiset.mem_bind.mp hq
    have hheld : q ∈ s.held := by
      rw [hholds.held]
      exact Multiset.mem_add.mpr (.inr hin)
    obtain rfl := first_of_held howns (hmem b hb) hqb hheld
    exact hnot (Multiset.mem_map_of_mem _ hb)
  · intro hne hzero
    rw [Multiset.map_eq_zero.mp hzero] at hpages
    exact hne hpages

/-- **The release** of a tree that is not empty, as long as nobody disturbs it. -/
theorem destroy_frees {mapping : Mapping} (h : Cached c {(mapping.addr, 1)} mapping.page_tree s)
    (hne : mapping.page_tree.rnode ≠ .null) : Frees c Released (fat32_i_mapping_destroy (some mapping)) s := by
  have hend : ∀ {s}, Holds c {mapping.addr} s → Frees c Released (do kfree mapping.addr; return none) s := by
    intro s₁ h₁
    apply frees_seq (Q := fun _ s => Holds c 0 s) (frees_kfree h₁ fun _ h₂ => h₂)
    intro _ s₂ h₂
    exact frees_pure h₂ fun _ h₃ => ⟨rfl, h₃.held⟩
  obtain ⟨heads, hrel, hholds, hheads, hsome⟩ := h.releases
  obtain ⟨addr, height, rnode⟩ := mapping
  cases rnode with
  | null => exact absurd rfl hne
  | page p =>
    -- the one page of the tree heads its block
    have hfilter : ((Slot.page p).pages).filter (· ∈ heads) = {p} := by
      have hsingle : (Slot.page p).pages = {p} := rfl
      rw [hsingle, Multiset.filter_singleton] at hheads ⊢
      split at hheads
      · rename_i hp
        exact if_pos hp
      · exact absurd hheads (hsome (Multiset.singleton_ne_zero p))
    dsimp only at hholds
    rw [hfilter, Slot.nodes, zero_add, Multiset.singleton_add] at hholds
    exact frees_seq (frees_kfree hholds fun _ h₁ => h₁) fun _ s₁ h₁ => hend h₁
  | node node slots => exact frees_seq (free_whole_tree hrel hholds) fun _ s₁ h₁ => hend h₁

end Free

/-! ## Whole runs -/

/-- A mapping after any calls of `mpage_readpages`, on memory that has been in use since `mm_init`, while other CPUs
allocate and free. -/
structure Filled (c : Config) where
  boot : Mem
  before : Mem
  calls : List Readpages
  mapping : Mapping
  state : State
  base_le : Mm.Buddy.KERNBASE ≤ c.pagemeta_start
  fits : c.pagemeta_start + c.NCPU * c.PAGES_PER_CPU * Mm.Buddy.sizeof_page < Mm.Buddy.START_MEM
  initialised : ∃ pages, Mem.mm_init c pages = .ok boot
  used : ∃ es, Run (Mem.Step c) boot es before
  filled : ∃ es, Run (machine c).Step (⟨before, 0⟩, fill calls) es (state, .ret mapping)

theorem Filled.cached {c : Config} (f : Filled c) : Cached c {(f.mapping.addr, 1)} f.mapping.page_tree f.state := by
  obtain ⟨pages, hinit⟩ := f.initialised
  obtain ⟨es, hused⟩ := f.used
  obtain ⟨es', hfilled⟩ := f.filled
  obtain ⟨boot, hboot, hinv, _, _⟩ := Mem.mm_init_ok c pages f.base_le f.fits
  rw [hinit] at hboot
  obtain rfl := Except.ok.inj hboot
  have hbefore : f.before.Inv c := hused.invariant (I := Mem.Inv c) (fun _ _ _ h hs => h.step hs) hinv
  have howns : Owns c 0 ⟨f.before, 0⟩ :=
    ⟨hbefore, rfl, Multiset.nodup_zero, fun b hb => absurd hb (Multiset.notMem_zero b)⟩
  exact (fill_builds howns).returns (fun _ _ => trivial) hfilled

/-- **Page-cache release.** In a run of `fat32_i_mapping_destroy` on a filled mapping, amid the allocations of the other
CPUs, only pages that are the tree's to free reach `kfree`, each once, and at the end all blocks, all nodes and the
`address_space` have been given back and `i_mapping` is `NULL`, if and only if the tree is not empty and no block
begins at a page that is not the first of one of the tree's blocks when the walk reads its flag. -/
theorem release_iff (c : Config) (f : Filled c) (es : List (Option Mem.Event)) (t : State × Prog (Option Mapping)) :
    Legal (Admissible c) Released (f.state, fat32_i_mapping_destroy (some f.mapping)) ∧
      Run (Lawful (machine c).Step (Legal (Admissible c) Released))
        (f.state, fat32_i_mapping_destroy (some f.mapping)) es t ↔
    f.mapping.page_tree.rnode ≠ .null ∧
      Run (Guarded (machine c).Step (Allowed (Undisturbed c)))
        (f.state, fat32_i_mapping_destroy (some f.mapping)) es t := by
  by_cases hne : f.mapping.page_tree.rnode = .null
  · -- the early return keeps the `address_space`
    have hkept : ¬ Legal (Admissible c) Released (f.state, fat32_i_mapping_destroy (some f.mapping)) := by
      obtain ⟨_, _, _, ⟨addr, height, rnode⟩, _⟩ := f
      obtain rfl : rnode = .null := hne
      rintro ⟨hnone, _⟩
      cases hnone
    exact iff_of_false (fun h => hkept h.1) fun h => h.1 hne
  · have hfrees := destroy_frees f.cached hne
    have hiff := hfrees.lawful_iff es t
    exact ⟨fun h => ⟨hne, hiff.mp h.2⟩, fun h => ⟨hfrees.legal, hiff.mpr h.2⟩⟩

/-! ## A page of another owner -/

/-- The steps in which everybody runs on CPU 0 and nothing is reclaimed. -/
def next {α : Type} (c : Config) : State × Prog α → Option Mem.Event → Option (State × Prog α)
  | (s, .call (.kzalloc size) rest), none =>
    match s.mem.kmalloc c 0 size [] with
    | .ok (mem, some page) => some (⟨mem, page ::ₘ s.held⟩, rest page)
    | _ => none
  | (s, .call (.allocated page) rest), none => some (s, rest (s.mem.page c page).allocated)
  | (s, .call (.kfree page) rest), none =>
    match s.mem.kfree c page with
    | .ok mem => some (⟨mem, s.held.erase page⟩, rest ())
    | _ => none
  | (s, p), some (.kalloc id []) =>
    match s.mem.next c (.kalloc id []) with
    | .ok mem => some (⟨mem, s.held⟩, p)
    | _ => none
  | _, _ => none

theorem next_step {α : Type} {c : Config} {t t' : State × Prog α} {e : Option Mem.Event} (h : next c t e = some t') :
    (machine c).Step t e t' := by
  unfold next at h
  split at h
  · split at h
    · rename_i hmalloc
      obtain rfl := Option.some.inj h
      exact .own (.kzalloc (fun p hp => absurd hp List.not_mem_nil) hmalloc)
    · cases h
  · obtain rfl := Option.some.inj h
    exact .own (.allocated _)
  · split at h
    · rename_i hfree
      obtain rfl := Option.some.inj h
      exact .own (.kfree hfree)
    · cases h
  · rename_i s p id
    split at h
    · rename_i mem hnext
      obtain rfl := Option.some.inj h
      have hother : Other c s (.kalloc id []) ⟨mem, s.held⟩ := ⟨fun page hpage => absurd hpage List.not_mem_nil, hnext, rfl⟩
      exact .other hother
    · cases h
  · cases h

theorem run_of_next {α : Type} {c : Config} {t t' : State × Prog α} {es : List (Option Mem.Event)}
    (h : exec (next c) t es = some t') : Run (machine c).Step t es t' :=
  (run_of_exec (next c) t es h).mono fun _ _ _ hs => next_step hs

/-- A CPU with four pages. -/
def fourPages : Config := ⟨1, 4, 0x80400000⟩

/-- The page that is about to be passed to `kfree` without being the program's. -/
def stray {α : Type} : State × Prog α → Option Nat
  | (s, .call (.kfree page) _) => if page ∈ s.held then none else some page
  | _ => none

/-- The memory after boot, and what a call of `mpage_readpages` for two pages leaves. -/
def twoPages : Option (Mem × Mapping × State) := do
  let boot ← (Mem.mm_init fourPages fun _ _ => ⟨false, 0⟩).toOption
  let t ← exec (next fourPages) (⟨boot, 0⟩, fill [⟨0, 2, true, by decide⟩]) [none, none, none]
  match t.2 with
  | .ret mapping => some (boot, mapping, t.1)
  | _ => none

/-- The first page of the block goes back, another CPU is given both pages, and the walk frees the second. -/
theorem another_owners_page_freed : ∃ (f : Filled fourPages) (es : List (Option Mem.Event))
    (t : State × Prog (Option Mapping)) (page : Nat),
    Run (machine fourPages).Step (f.state, fat32_i_mapping_destroy (some f.mapping)) es t ∧ stray t = some page := by
  have hdemo : (twoPages.bind fun d => (exec (next fourPages) (d.2.2, fat32_i_mapping_destroy (some d.2.1))
      [none, none, some (.kalloc 0 []), some (.kalloc 0 []), none]).bind stray) = some 3 := by decide +kernel
  obtain ⟨⟨boot, mapping, state⟩, htwo, hdemo⟩ := Option.bind_eq_some_iff.mp hdemo
  obtain ⟨t, hexec, hstray⟩ := Option.bind_eq_some_iff.mp hdemo
  unfold twoPages at htwo
  obtain ⟨boot', hboot, htwo⟩ := Option.bind_eq_some_iff.mp htwo
  obtain ⟨⟨state', p⟩, hfill, htwo⟩ := Option.bind_eq_some_iff.mp htwo
  have hinit : Mem.mm_init fourPages (fun _ _ => ⟨false, 0⟩) = .ok boot' := by
    rcases hmm : Mem.mm_init fourPages (fun _ _ => ⟨false, 0⟩) with e | b
    · rw [hmm] at hboot
      cases hboot
    · rw [hmm] at hboot
      exact congrArg _ (Option.some.inj hboot)
  cases p with
  | ret mapping' =>
    obtain rfl : boot' = boot := congrArg Prod.fst (Option.some.inj htwo)
    obtain rfl : mapping' = mapping := congrArg (fun d => d.2.1) (Option.some.inj htwo)
    obtain rfl : state' = state := congrArg (fun d => d.2.2) (Option.some.inj htwo)
    exact ⟨⟨boot', boot', [⟨0, 2, true, by decide⟩], mapping', state', by decide, by decide, ⟨_, hinit⟩, ⟨[], .nil _⟩,
      ⟨_, run_of_next hfill⟩⟩, _, t, 3, run_of_next hexec, hstray⟩
  | call op rest => cases htwo
  | halt => cases htwo

end LostWakeup.Fs.Fat32.MappingDestroy
