/-
# LostWakeup.Lib.RadixTreeRefine — the radix tree is a finite map.

`find` reads the map a subtree stands for, and `Wf h` is the shape the operations keep: every subtree is non-empty, its
nodes carry their height and the number of their non-`NULL` slots.  `radix_tree_refines_map` runs any sequence of
operations on the tree and on a map side by side.
-/
import Mathlib.Tactic.Ring
import Mathlib.Tactic.IntervalCases
import LostWakeup.Library.Count
import LostWakeup.Lib.RadixTree

namespace LostWakeup.Lib.RadixTree

open Library
open Function (update update_eq_self update_of_ne update_self)

/-! ## Digits of an index -/

theorem slotOffset_val (i h : Nat) : (slotOffset i h).val = i / 64 ^ h % 64 := by
  have hmask : RADIX_TREE_MAP_MASK = 2 ^ 6 - 1 := rfl
  have hpow : 2 ^ (h * RADIX_TREE_MAP_SHIFT) = 64 ^ h := by
    rw [Nat.mul_comm, Nat.pow_mul]
    rfl
  show (i >>> (h * RADIX_TREE_MAP_SHIFT)) &&& RADIX_TREE_MAP_MASK = i / 64 ^ h % 64
  rw [hmask, Nat.and_two_pow_sub_one_eq_mod, Nat.shiftRight_eq_div_pow, hpow]

theorem mod_succ_eq_iff (i j h : Nat) :
    i % 64 ^ (h + 1) = j % 64 ^ (h + 1) ↔
      slotOffset i h = slotOffset j h ∧ i % 64 ^ h = j % 64 ^ h := by
  have hpos : 0 < 64 ^ h := Nat.pow_pos (by decide)
  rw [Fin.ext_iff, slotOffset_val, slotOffset_val, Nat.pow_succ, Nat.mod_mul, Nat.mod_mul]
  constructor
  · intro heq
    have hi := Nat.mod_lt i hpos
    have hj := Nat.mod_lt j hpos
    have hdiv := congrArg (· / 64 ^ h) heq
    simp only [Nat.add_mul_div_left _ _ hpos, Nat.div_eq_of_lt hi, Nat.div_eq_of_lt hj,
      Nat.zero_add] at hdiv
    rw [hdiv] at heq
    exact ⟨hdiv, by omega⟩
  · rintro ⟨hdig, hmod⟩
    rw [hdig, hmod]

theorem slotOffset_of_lt {i h : Nat} (hi : i < 64 ^ h) : slotOffset i h = 0 := by
  rw [Fin.ext_iff, slotOffset_val, Nat.div_eq_of_lt hi]
  rfl

theorem lt_of_slotOffset_eq_zero {i h : Nat} (hi : i < 64 ^ (h + 1)) (hzero : slotOffset i h = 0) :
    i < 64 ^ h := by
  have hpos : 0 < 64 ^ h := Nat.pow_pos (by decide)
  rw [Fin.ext_iff, slotOffset_val] at hzero
  have hdiv : i / 64 ^ h < 64 := by
    rw [Nat.div_lt_iff_lt_mul hpos, Nat.mul_comm, ← Nat.pow_succ]
    exact hi
  rw [Nat.mod_eq_of_lt hdiv] at hzero
  exact (Nat.div_eq_zero_iff.mp hzero).resolve_left (by omega)

/-! ## The map of a subtree -/

/-- The item a subtree of height `h` stores at `index`. -/
def find (index : Nat) : Nat → Slot → Option (BitVec 64)
  | 0, .item a => some a
  | h + 1, .node n => find index h (n.slots (slotOffset index h))
  | _, _ => none

@[simp] theorem find_null (i h : Nat) : find i h .null = none := by
  cases h <;> rfl

theorem find_update (i j h : Nat) (n : Node Slot) (child : Slot) (c : BitVec 32) :
    find j (h + 1) (.node { n with count := c, slots := update n.slots (slotOffset i h) child })
      = if slotOffset j h = slotOffset i h then find j h child else find j (h + 1) (.node n) := by
  simp only [find]
  by_cases hoff : slotOffset j h = slotOffset i h
  · rw [if_pos hoff, hoff, update_self]
  · rw [if_neg hoff, update_of_ne hoff]

/-- The number of slots of a node in use. -/
def used (n : Node Slot) : Nat := count Slot.present n.slots

theorem used_le (n : Node Slot) : used n ≤ 64 := count_le_card Slot.present n.slots

theorem used_pos_of {n : Node Slot} {o : Fin RADIX_TREE_MAP_SIZE} (ho : (n.slots o).present = true) :
    0 < used n := count_pos_of ho

theorem used_alloc (h : Nat) : used (radix_tree_node_alloc h) = 0 := count_eq_zero fun _ => rfl

theorem used_fill (n : Node Slot) (o : Fin RADIX_TREE_MAP_SIZE) {child : Slot} (c : BitVec 32)
    (hchild : child.present = true) :
    used { n with count := c, slots := update n.slots o child }
      = used n + if (n.slots o).present then 0 else 1 := by
  have hupd := count_update Slot.present n.slots o child
  rw [hchild, Bool.toNat_true] at hupd
  show count Slot.present (update n.slots o child) = count Slot.present n.slots + _
  cases hp : (n.slots o).present with
  | true =>
    rw [hp, Bool.toNat_true] at hupd
    rw [if_pos rfl]
    omega
  | false =>
    rw [hp, Bool.toNat_false] at hupd
    rw [if_neg (by decide)]
    omega

theorem used_clear (n : Node Slot) {o : Fin RADIX_TREE_MAP_SIZE} (c : BitVec 32)
    (ho : (n.slots o).present = true) :
    used { n with slots := update n.slots o .null, count := c } + 1 = used n := by
  have hupd := count_update Slot.present n.slots o .null
  have hnull : Slot.null.present.toNat = 0 := rfl
  rw [ho, Bool.toNat_true, hnull, Nat.add_zero] at hupd
  show count Slot.present (update n.slots o .null) + 1 = count Slot.present n.slots
  omega

-- a sum over the 64 slots, never to be evaluated
attribute [irreducible] used

/-- A well-formed, non-empty subtree of height `h` that carries no tags. -/
def Wf : Nat → Slot → Prop
  | 0, .item _ => True
  | h + 1, .node n =>
    n.height = h + 1 ∧ n.count = BitVec.ofNat 32 (used n) ∧ 0 < used n ∧ (∀ tag, n.tags tag = 0) ∧
      ∀ o, n.slots o = .null ∨ Wf h (n.slots o)
  | _, _ => False

theorem Wf.present {h : Nat} {s : Slot} (hs : Wf h s) : s.present = true := by
  cases s with
  | null => cases h <;> exact hs.elim
  | item a => rfl
  | node n => rfl

theorem present_iff {h : Nat} {s : Slot} (hs : s = .null ∨ Wf h s) : s.present = true ↔ Wf h s := by
  constructor
  · rintro hp
    rcases hs with rfl | hwf
    · cases hp
    · exact hwf
  · exact Wf.present

theorem tag_get_of_zero {n : Node Slot} (h : ∀ tag, n.tags tag = 0) (tag : Tag)
    (o : Fin RADIX_TREE_MAP_SIZE) : tag_get n tag o = false := by
  simp [tag_get, h]

/-- The item as a pointer of the tree. -/
def toSlot : Option (BitVec 64) → Slot
  | none => .null
  | some a => .item a

theorem walk_eq {i h : Nat} {s : Slot} (hs : s = .null ∨ Wf h s) :
    walk i h s = .ok (toSlot (find i h s)) := by
  induction h generalizing s with
  | zero =>
    rcases hs with rfl | hwf
    · rfl
    · cases s <;> first | rfl | exact absurd hwf (by simp [Wf])
  | succ h ih =>
    rcases hs with rfl | hwf
    · rfl
    cases s with
    | null => rfl
    | item a => exact absurd hwf (by simp [Wf])
    | node n => exact ih (hwf.2.2.2.2 _)

/-! ## Insertion along a path -/

/-- Filling a slot of a node keeps it well-formed. -/
theorem wf_fill {h : Nat} {n : Node Slot} {child : Slot} (o : Fin RADIX_TREE_MAP_SIZE)
    (hheight : n.height = h + 1) (hcount : n.count = BitVec.ofNat 32 (used n))
    (htags : ∀ tag, n.tags tag = 0) (hchildren : ∀ o, n.slots o = .null ∨ Wf h (n.slots o))
    (hchild : Wf h child) :
    Wf (h + 1) (.node { n with
      count := if (n.slots o).present then n.count else n.count + 1
      slots := update n.slots o child }) := by
  have hused := used_fill n o (if (n.slots o).present then n.count else n.count + 1) hchild.present
  refine ⟨hheight, ?_, ?_, htags, fun o' => ?_⟩
  · rw [hused]
    cases (n.slots o).present with
    | true => simpa using hcount
    | false => simp [hcount, BitVec.ofNat_add]
  · exact used_pos_of (o := o) (by simpa using hchild.present)
  · by_cases ho : o' = o
    · subst ho
      simp only [update_self]
      exact .inr hchild
    · simp only [update_of_ne ho]
      exact hchildren o'

theorem insertPath_spec {i h : Nat} {a : BitVec 64} {s : Slot} (hs : s = .null ∨ Wf h s) :
    (find i h s ≠ none → insertPath i a h s = .ok none) ∧
      (find i h s = none → ∃ s', insertPath i a h s = .ok (some s') ∧ Wf h s' ∧
        ∀ j, find j h s' = if j % 64 ^ h = i % 64 ^ h then some a else find j h s) := by
  induction h generalizing s with
  | zero =>
    rcases hs with rfl | hwf
    · refine ⟨fun hne => absurd rfl hne, fun _ => ⟨.item a, rfl, trivial, fun j => ?_⟩⟩
      simp [find, Nat.mod_one]
    cases s with
    | null => exact absurd hwf (by simp [Wf])
    | item b => exact ⟨fun _ => rfl, nofun⟩
    | node n => exact absurd hwf (by simp [Wf])
  | succ h ih =>
    -- the node at this level, there already or allocated now
    have hnode : ∃ n : Node Slot, nodeOrAlloc (h + 1) s = .ok n ∧ n.height = h + 1 ∧
        n.count = BitVec.ofNat 32 (used n) ∧ (∀ tag, n.tags tag = 0) ∧
        (∀ o, n.slots o = .null ∨ Wf h (n.slots o)) ∧ ∀ j, find j (h + 1) s = find j (h + 1) (.node n) := by
      rcases hs with rfl | hwf
      · refine ⟨radix_tree_node_alloc (h + 1), rfl, rfl, ?_, fun _ => rfl, fun _ => .inl rfl, fun j => ?_⟩
        · rw [used_alloc]
          rfl
        · simp [find, radix_tree_node_alloc]
      cases s with
      | null => exact absurd hwf (by simp [Wf])
      | item b => exact absurd hwf (by simp [Wf])
      | node n =>
        obtain ⟨hh, hc, -, ht, hch⟩ := hwf
        exact ⟨n, rfl, hh, hc, ht, hch, fun _ => rfl⟩
    obtain ⟨n, hn, hheight, hcount, htags, hchildren, hfind⟩ := hnode
    obtain ⟨htaken, hfree⟩ := ih (hchildren (slotOffset i h))
    simp only [insertPath, hn, bind, Except.bind, hfind]
    refine ⟨fun hne => ?_, fun hnone => ?_⟩
    · rw [htaken hne]
      rfl
    obtain ⟨child, hrun, hwf, hchild⟩ := hfree hnone
    have hnotag : h = 0 → tag_get n 0 (slotOffset i h) = false ∧ tag_get n 1 (slotOffset i h) = false :=
      fun _ => ⟨tag_get_of_zero htags _ _, tag_get_of_zero htags _ _⟩
    rw [hrun]
    simp only [assert, if_pos hnotag]
    refine ⟨_, rfl, wf_fill _ hheight hcount htags hchildren hwf, fun j => ?_⟩
    rw [find_update, hchild]
    simp only [mod_succ_eq_iff]
    by_cases hoff : slotOffset j h = slotOffset i h
    · simp only [hoff, true_and, if_true, find]
    · simp only [hoff, false_and, if_false]

/-! ## Deletion along a path -/

theorem leafTag_eq_false {i h : Nat} {s : Slot} (hs : s = .null ∨ Wf h s) (tag : Tag) :
    leafTag i tag h s = false := by
  induction h generalizing s with
  | zero => cases s <;> rfl
  | succ h ih =>
    cases s with
    | null => rfl
    | item a => rfl
    | node n =>
      obtain ⟨-, -, -, htags, hchildren⟩ := hs.resolve_left (by simp)
      unfold leafTag
      split
      · exact tag_get_of_zero htags _ _
      · exact ih (hchildren _)

theorem ofNat_eq_zero_iff {k : Nat} (hk : k ≤ 64) : BitVec.ofNat 32 k = 0 ↔ k = 0 := by
  constructor
  · intro h
    have := congrArg BitVec.toNat h
    simp only [BitVec.toNat_ofNat, BitVec.ofNat_eq_ofNat, Nat.zero_mod] at this
    omega
  · rintro rfl
    rfl

theorem find_of_used_zero {n : Node Slot} (h : used n = 0) (j k : Nat) :
    find j (k + 1) (.node n) = none := by
  cases hs : n.slots (slotOffset j k) with
  | null => simp [find, hs]
  | item a =>
    have := used_pos_of (n := n) (o := slotOffset j k) (by rw [hs]; rfl)
    omega
  | node n' =>
    have := used_pos_of (n := n) (o := slotOffset j k) (by rw [hs]; rfl)
    omega

theorem deletePath_present {i h : Nat} {a : BitVec 64} {s : Slot} (hs : Wf h s)
    (ha : find i h s = some a) :
    (deletePath i h s = .ok (.emptied (.item a)) ∧ ∀ j, j % 64 ^ h ≠ i % 64 ^ h → find j h s = none) ∨
      ∃ s' here, deletePath i h s = .ok (.kept (.item a) s' here) ∧ Wf h s' ∧
        ∀ j, find j h s' = if j % 64 ^ h = i % 64 ^ h then none else find j h s := by
  induction h generalizing s with
  | zero =>
    left
    cases s with
    | null => exact absurd hs (by simp [Wf])
    | item b =>
      cases ha
      exact ⟨rfl, fun j hj => absurd (by simp [Nat.mod_one]) hj⟩
    | node n => exact absurd hs (by simp [Wf])
  | succ h ih =>
    cases s with
    | null => exact absurd hs (by simp [Wf])
    | item b => exact absurd hs (by simp [Wf])
    | node n =>
      obtain ⟨hheight, hcount, -, htags, hchildren⟩ := hs
      have hchild : Wf h (n.slots (slotOffset i h)) := by
        refine (hchildren _).resolve_left fun hnull => ?_
        simp [find, hnull] at ha
      simp only [deletePath, bind, Except.bind]
      rcases ih hchild ha with ⟨hrun, hothers⟩ | ⟨s', here, hrun, hwf, hfind⟩
      · -- the child is gone: the node loses a slot, and goes too if that was its last
        have hclear := used_clear n (n.count - 1) hchild.present
        have hle := used_le n
        have hcount' : n.count - 1 = BitVec.ofNat 32
            (used { n with slots := update n.slots (slotOffset i h) .null, count := n.count - 1 }) := by
          have hsub : n.count = BitVec.ofNat 32
              (used { n with
                slots := update n.slots (slotOffset i h) .null, count := n.count - 1 }) + 1 := by
            refine hcount.trans ?_
            rw [← hclear, BitVec.ofNat_add]
            rfl
          exact BitVec.sub_eq_iff_eq_add.mpr hsub
        have hfind' : ∀ j, find j (h + 1) (.node { n with
              slots := update n.slots (slotOffset i h) .null, count := n.count - 1 })
            = if j % 64 ^ (h + 1) = i % 64 ^ (h + 1) then none else find j (h + 1) (.node n) := by
          intro j
          have hupd := find_update i j h n .null (n.count - 1)
          simp only [find_null] at hupd
          refine hupd.trans ?_
          simp only [mod_succ_eq_iff]
          by_cases hoff : slotOffset j h = slotOffset i h
          · by_cases hmod : j % 64 ^ h = i % 64 ^ h
            · simp [hoff, hmod]
            · simp only [hoff, hmod, if_true, and_false, if_false, find]
              exact (hothers j hmod).symm
          · simp [hoff]
        rw [hrun]
        by_cases hzero : n.count - 1 = 0
        · left
          refine ⟨by simp only [pure, Except.pure, hzero, ne_eq, not_true_eq_false, if_false], ?_⟩
          intro j hj
          rw [hcount', ofNat_eq_zero_iff (by omega)] at hzero
          have hgone := find_of_used_zero hzero j h
          rwa [hfind', if_neg hj] at hgone
        · right
          simp only [pure, Except.pure, ne_eq, hzero, not_false_eq_true, if_true]
          refine ⟨_, true, rfl, ⟨hheight, hcount', ?_, htags, fun o => ?_⟩, hfind'⟩
          · rw [hcount', ofNat_eq_zero_iff (by omega)] at hzero
            omega
          by_cases ho : o = slotOffset i h
          · subst ho
            exact .inl (update_self _ _ _)
          · simp only [update_of_ne ho]
            exact hchildren o
      · right
        rw [hrun]
        have hwf' := wf_fill (slotOffset i h) hheight hcount htags hchildren hwf
        rw [if_pos hchild.present] at hwf'
        refine ⟨_, false, rfl, hwf', fun j => ?_⟩
        refine (find_update i j h n s' n.count).trans ?_
        rw [hfind]
        simp only [mod_succ_eq_iff]
        by_cases hoff : slotOffset j h = slotOffset i h
        · simp only [hoff, true_and, if_true, find]
        · simp only [hoff, false_and, if_false]

/-! ## Roots -/

/-- The map a root stands for. -/
def mapOf (root : Root) (j : Nat) : Option (BitVec 64) :=
  if j < 64 ^ root.height then find j root.height root.rnode else none

/-- A root without tags over nothing or a well-formed tree.  `radix_tree_extend` may leave a height
above an empty tree. -/
structure Shape (root : Root) : Prop where
  height_le : root.height ≤ 5
  tags : ∀ tag, root_tag_get root tag = false
  rnode : root.rnode = .null ∨
    (Wf root.height root.rnode ∧ root.indirect = decide (0 < root.height))

/-- What the operations keep: an empty tree has height 0. -/
structure Good (root : Root) : Prop extends Shape root where
  empty : root.rnode = .null → root.height = 0 ∧ root.indirect = false

theorem maxindex_eq {h : Nat} (hh : h ≤ 5) : radix_tree_maxindex h = .ok (64 ^ h - 1) := by
  interval_cases h <;> rfl

theorem gt_max_iff {i h : Nat} : i > 64 ^ h - 1 ↔ ¬ i < 64 ^ h := by
  have hpos : 0 < 64 ^ h := Nat.pow_pos (by decide)
  omega

theorem Shape.wf_or_null {root : Root} (h : Shape root) :
    root.rnode = .null ∨ Wf root.height root.rnode :=
  h.rnode.imp_right And.left

theorem lookup_eq {root : Root} (h : Good root) (i : Nat) :
    radix_tree_lookup_node root i = .ok (toSlot (mapOf root i)) := by
  obtain ⟨height, rnode, indirect, gfp⟩ := root
  have hcases := h.rnode
  simp only at hcases
  rcases hcases with rfl | ⟨hwf, hind⟩
  · obtain ⟨rfl, rfl⟩ := h.empty rfl
    by_cases hi : i > 0
    · simp [radix_tree_lookup_node, hi, mapOf, toSlot]
    · simp [radix_tree_lookup_node, hi, mapOf, toSlot]
  cases height with
  | zero =>
    cases rnode with
    | null => exact hwf.elim
    | node n => exact hwf.elim
    | item a =>
      by_cases hi : i > 0
      · simp [radix_tree_lookup_node, hind, hi, mapOf, toSlot, show i ≠ 0 by omega]
      · simp [radix_tree_lookup_node, hind, mapOf, toSlot, find, show i = 0 by omega]
  | succ k =>
    cases rnode with
    | null => exact hwf.elim
    | item a => exact hwf.elim
    | node n =>
      have hheight : n.height = k + 1 := hwf.1
      have hmax : radix_tree_maxindex n.height = .ok (64 ^ (k + 1) - 1) := by
        rw [hheight]
        exact maxindex_eq h.height_le
      simp only [radix_tree_lookup_node, hind, mapOf, hmax, bind, Except.bind, gt_max_iff,
        Nat.zero_lt_succ, decide_true, if_true]
      by_cases hlt : i < 64 ^ (k + 1)
      · rw [if_neg (not_not_intro hlt), if_pos hlt, hheight]
        exact walk_eq (.inr hwf)
      · rw [if_pos hlt, if_neg hlt]
        rfl

/-! ## Growing the root -/

theorem growRoot_spec {root : Root} (hwf : Wf root.height root.rnode)
    (htags : ∀ tag, root_tag_get root tag = false) :
    Wf (growRoot root).height (growRoot root).rnode ∧ mapOf (growRoot root) = mapOf root := by
  have hgrow : growRoot root = { root with
      height := root.height + 1
      rnode := .node { radix_tree_node_alloc (root.height + 1) with
        count := if ((radix_tree_node_alloc (root.height + 1)).slots 0).present then
          (radix_tree_node_alloc (root.height + 1)).count
          else (radix_tree_node_alloc (root.height + 1)).count + 1
        slots := update (radix_tree_node_alloc (root.height + 1)).slots 0 root.rnode }
      indirect := true } := by
    simp [growRoot, htags, radix_tree_node_alloc, Slot.present]
  refine ⟨?_, ?_⟩
  · rw [hgrow]
    exact wf_fill 0 rfl (by rw [used_alloc]; rfl) (fun _ => rfl) (fun _ => .inl rfl) hwf
  funext j
  rw [hgrow]
  simp only [mapOf, find]
  have hle : 64 ^ root.height ≤ 64 ^ (root.height + 1) := Nat.pow_le_pow_right (by decide) (by omega)
  by_cases hj : j < 64 ^ root.height
  · rw [if_pos (by omega), if_pos hj, slotOffset_of_lt hj, update_self]
  rw [if_neg hj]
  split
  · next hlt =>
    have hne : slotOffset j root.height ≠ 0 := fun hz => hj (lt_of_slotOffset_eq_zero hlt hz)
    rw [update_of_ne hne]
    simp [radix_tree_node_alloc]
  · rfl

theorem extendHeight_spec {i : Nat} (fuel : Nat) {h : Nat} (hi : i < 64 ^ 5) (hh : h ≤ 5) (hfuel : 5 < h + fuel) :
    ∃ h', extendHeight i fuel h = .ok h' ∧ h ≤ h' ∧ h' ≤ 5 ∧ i < 64 ^ h' := by
  induction fuel generalizing h with
  | zero => omega
  | succ fuel ih =>
    simp only [extendHeight, maxindex_eq hh, bind, Except.bind, gt_max_iff]
    by_cases hlt : i < 64 ^ h
    · rw [if_neg (not_not_intro hlt)]
      exact ⟨h, rfl, le_refl h, hh, hlt⟩
    rw [if_pos hlt]
    have hne : h ≠ 5 := by
      rintro rfl
      exact hlt hi
    obtain ⟨h', hrun, hge, hle, hlt'⟩ := ih (h := h + 1) (by omega) (by omega)
    exact ⟨h', hrun, by omega, hle, hlt'⟩

theorem extendLoop_spec (fuel : Nat) {height : Nat} (root : Root) (hwf : Wf root.height root.rnode)
    (htags : ∀ tag, root_tag_get root tag = false) (hlt : root.height < height)
    (hfuel : height ≤ root.height + fuel) :
    ∃ root', extendLoop root height fuel = .ok root' ∧ root'.height = height ∧
      Wf root'.height root'.rnode ∧ root'.indirect = true ∧
      (∀ tag, root_tag_get root' tag = false) ∧ mapOf root' = mapOf root := by
  induction fuel generalizing root with
  | zero => omega
  | succ fuel ih =>
    obtain ⟨hwf', hmap⟩ := growRoot_spec hwf htags
    have hheight : (growRoot root).height = root.height + 1 := rfl
    simp only [extendLoop]
    by_cases hmore : height > (growRoot root).height
    · rw [if_pos hmore]
      obtain ⟨root', hrun, hh, hw, hind, ht, hm⟩ :=
        ih (growRoot root) hwf' htags hmore (by omega)
      exact ⟨root', hrun, hh, hw, hind, ht, hm.trans hmap⟩
    · rw [if_neg hmore]
      exact ⟨growRoot root, rfl, by omega, hwf', rfl, htags, hmap⟩

/-- `radix_tree_extend` makes room for the index and keeps the map. -/
theorem extend_spec {root : Root} {i : Nat} (h : Shape root) (hi : i < 64 ^ 5)
    (hbig : ¬ i < 64 ^ root.height) :
    ∃ root', radix_tree_extend root i = .ok root' ∧ Shape root' ∧ i < 64 ^ root'.height ∧
      mapOf root' = mapOf root := by
  have hlt5 : root.height < 5 := by
    have hle := h.height_le
    by_contra hge
    have : root.height = 5 := by omega
    rw [this] at hbig
    exact hbig hi
  obtain ⟨height, hrun, hge, hle, hlt⟩ := extendHeight_spec (RADIX_TREE_MAX_PATH + 2)
    (h := root.height + 1) hi (by omega) (by simp only [RADIX_TREE_MAX_PATH]; omega)
  simp only [radix_tree_extend, hrun, bind, Except.bind]
  rcases h.rnode with hnull | ⟨hwf, -⟩
  · rw [hnull]
    refine ⟨_, rfl, ⟨hle, h.tags, .inl rfl⟩, hlt, ?_⟩
    funext j
    simp [mapOf, hnull]
  obtain ⟨root', hrun', hh, hwf', hind, htags, hmap⟩ :=
    extendLoop_spec (RADIX_TREE_MAX_PATH + 1) root hwf h.tags (Nat.lt_of_succ_le hge)
      (by simp only [RADIX_TREE_MAX_PATH]; omega)
  have hpresent := hwf.present
  refine ⟨root', ?_, ⟨by omega, htags, .inr ⟨hwf', ?_⟩⟩, by rw [hh]; exact hlt, hmap⟩
  · cases hr : root.rnode with
    | null => rw [hr] at hpresent; cases hpresent
    | item a => exact hrun'
    | node n => exact hrun'
  · rw [hind, eq_comm, decide_eq_true_iff]
    omega

/-! ## Insertion -/

/-- Inserting below a root that is high enough. -/
theorem insertBelow_spec {root : Root} {i : Nat} (a : BitVec 64) (h : Shape root)
    (hi : i < 64 ^ root.height) :
    (mapOf root i ≠ none → insertBelow root i a = .ok (root, -1)) ∧
      (mapOf root i = none → ∃ root', insertBelow root i a = .ok (root', 0) ∧ Good root' ∧
        mapOf root' = update (mapOf root) i (some a)) := by
  obtain ⟨htaken, hfree⟩ := insertPath_spec (i := i) (a := a) h.wf_or_null
  have hmapi : mapOf root i = find i root.height root.rnode := if_pos hi
  rw [hmapi]
  refine ⟨fun hne => ?_, fun hnone => ?_⟩
  · simp only [insertBelow, htaken hne, bind, Except.bind]
    rfl
  obtain ⟨slot, hrun, hwf, hfind⟩ := hfree hnone
  have htags : root.height = 0 → root_tag_get root 0 = false ∧ root_tag_get root 1 = false :=
    fun _ => ⟨h.tags 0, h.tags 1⟩
  have hindirect : (if root.height = 0 then false else if root.rnode.present then root.indirect
      else true) = decide (0 < root.height) := by
    by_cases hzero : root.height = 0
    · simp [hzero]
    rw [if_neg hzero, decide_eq_true (by omega)]
    rcases h.rnode with hnull | ⟨hwf', hind⟩
    · simp [hnull, Slot.present]
    · simp [hwf'.present, hind]
      omega
  simp only [insertBelow, hrun, bind, Except.bind, assert, if_pos htags, hindirect]
  refine ⟨_, rfl, ⟨⟨h.height_le, h.tags, .inr ⟨hwf, rfl⟩⟩, fun hnull => ?_⟩, funext fun j => ?_⟩
  · have hpresent := hwf.present
    simp only at hnull
    rw [hnull] at hpresent
    cases hpresent
  by_cases hji : j = i
  · subst hji
    simp only [mapOf, update_self, if_pos hi, hfind, if_true]
  rw [update_of_ne hji]
  simp only [mapOf]
  by_cases hj : j < 64 ^ root.height
  · rw [if_pos hj, if_pos hj, hfind, Nat.mod_eq_of_lt hj, Nat.mod_eq_of_lt hi, if_neg hji]
  · rw [if_neg hj, if_neg hj]

theorem insert_spec {root : Root} {i : Nat} {a : BitVec 64} (h : Good root) (hi : i < 64 ^ 5)
    (ha : a.getLsbD 0 = false) :
    (mapOf root i ≠ none → radix_tree_insert root i a = .ok (root, -1)) ∧
      (mapOf root i = none → ∃ root', radix_tree_insert root i a = .ok (root', 0) ∧ Good root' ∧
        mapOf root' = update (mapOf root) i (some a)) := by
  simp only [radix_tree_insert, assert, if_pos ha, maxindex_eq h.height_le, bind, Except.bind, gt_max_iff]
  by_cases hlt : i < 64 ^ root.height
  · rw [if_neg (not_not_intro hlt)]
    exact insertBelow_spec a h.toShape hlt
  rw [if_pos hlt]
  have hnone : mapOf root i = none := by simp [mapOf, hlt]
  refine ⟨fun hne => absurd hnone hne, fun _ => ?_⟩
  obtain ⟨r, hrun, hshape, hlt', hmap⟩ := extend_spec h.toShape hi hlt
  rw [hrun, ← hmap]
  exact (insertBelow_spec a hshape hlt').2 (by rw [hmap]; exact hnone)

/-! ## Shrinking and deletion -/

theorem ofNat_eq_one_iff {k : Nat} (hk : k ≤ 64) : BitVec.ofNat 32 k = 1 ↔ k = 1 := by
  constructor
  · intro h
    have := congrArg BitVec.toNat h
    simp only [BitVec.toNat_ofNat, BitVec.ofNat_eq_ofNat] at this
    omega
  · rintro rfl
    rfl

theorem find_of_leftmost {n : Node Slot} (hused : used n = 1) (hzero : (n.slots 0).present = true)
    {j k : Nat} (hoff : slotOffset j k ≠ 0) : find j (k + 1) (.node n) = none := by
  have hclear := used_clear n n.count hzero
  have hnone := find_of_used_zero (n := { n with slots := update n.slots 0 .null })
    (by omega) j k
  have hslot : slotOffset 0 k = 0 := slotOffset_of_lt (Nat.pow_pos (by decide))
  have hupd := find_update 0 j k n .null n.count
  rw [hslot, if_neg hoff] at hupd
  rw [← hupd]
  exact hnone

theorem shrink_spec (fuel : Nat) (root : Root) (hle : root.height ≤ 5)
    (htags : ∀ tag, root_tag_get root tag = false) (hwf : Wf root.height root.rnode)
    (hind : root.indirect = decide (0 < root.height)) (hfuel : root.height < fuel) :
    ∃ root', radix_tree_shrink root fuel = .ok root' ∧ Good root' ∧ mapOf root' = mapOf root := by
  induction fuel generalizing root with
  | zero => omega
  | succ fuel ih =>
    have hgood : Good root := ⟨⟨hle, htags, .inr ⟨hwf, hind⟩⟩, fun hnull => by
      have hpresent := hwf.present
      rw [hnull] at hpresent
      cases hpresent⟩
    obtain ⟨height, rnode, indirect, gfp⟩ := root
    cases height with
    | zero => exact ⟨_, rfl, hgood, rfl⟩
    | succ k =>
      cases rnode with
      | null => exact hwf.elim
      | item a => exact hwf.elim
      | node n =>
        obtain ⟨-, hcount, -, -, hchildren⟩ := hwf
        have hindirect : indirect = true := by simpa using hind
        subst hindirect
        simp only [radix_tree_shrink, assert, Nat.zero_lt_succ, if_true, bind, Except.bind, gt_iff_lt]
        by_cases hone : n.count = 1
        · by_cases hzero : (n.slots 0).present = true
          · have hused : used n = 1 := by
              rw [hcount, ofNat_eq_one_iff (used_le n)] at hone
              exact hone
            have hwf' : Wf k (n.slots 0) := (present_iff (hchildren 0)).mp hzero
            rw [if_neg (not_not_intro hone), if_neg (by rw [hzero]; decide)]
            obtain ⟨root', hrun, hgood', hmap⟩ := ih ⟨k, n.slots 0, decide (k + 1 > 1), gfp⟩
              (Nat.le_of_succ_le hle) htags hwf' (by simp) (Nat.lt_of_succ_lt_succ hfuel)
            refine ⟨root', hrun, hgood', hmap.trans (funext fun j => ?_)⟩
            simp only [mapOf]
            have hpow : 64 ^ k ≤ 64 ^ (k + 1) := Nat.pow_le_pow_right (by decide) (by omega)
            by_cases hj : j < 64 ^ k
            · rw [if_pos hj, if_pos (by omega)]
              simp only [find, slotOffset_of_lt hj]
            rw [if_neg hj]
            split
            · next hlt =>
              exact (find_of_leftmost hused hzero fun hoff =>
                hj (lt_of_slotOffset_eq_zero hlt hoff)).symm
            · rfl
          · rw [if_neg (not_not_intro hone), if_pos (by simpa using hzero)]
            exact ⟨_, rfl, hgood, rfl⟩
        · rw [if_pos hone]
          exact ⟨_, rfl, hgood, rfl⟩

theorem root_tag_clear_all_spec {root : Root} (h : ∀ tag, root_tag_get root tag = false) (tag : Tag) :
    root_tag_get (root_tag_clear_all root) tag = false := by
  have htag := h tag
  simp only [root_tag_get, root_tag_clear_all] at htag ⊢
  rw [BitVec.getLsbD_and, htag, Bool.false_and]

theorem update_none_of_none {m : Nat → Option (BitVec 64)} {i : Nat} (h : m i = none) :
    m = update m i none := by
  rw [← h, update_eq_self]

theorem delete_spec {root : Root} (h : Good root) (i : Nat) :
    ∃ root', radix_tree_delete root i = .ok (root', toSlot (mapOf root i)) ∧ Good root' ∧
      mapOf root' = update (mapOf root) i none := by
  simp only [radix_tree_delete, maxindex_eq h.height_le, bind, Except.bind, gt_max_iff]
  by_cases hlt : i < 64 ^ root.height
  · rw [if_neg (not_not_intro hlt)]
    have hmapi : mapOf root i = find i root.height root.rnode := if_pos hlt
    by_cases hheight : root.height = 0
    · -- the root pointer is the item, or nothing
      have hizero : i = 0 := by
        rw [hheight] at hlt
        simpa using hlt
      have hret : toSlot (mapOf root i) = root.rnode := by
        rw [hmapi, hheight]
        rcases h.rnode with hnull | ⟨hwf, -⟩
        · simp [hnull, toSlot]
        rw [hheight] at hwf
        cases hr : root.rnode with
        | null => rfl
        | item a => rfl
        | node n =>
          rw [hr] at hwf
          exact hwf.elim
      rw [if_pos hheight, hret]
      refine ⟨_, rfl, ⟨⟨h.height_le, root_tag_clear_all_spec h.tags, .inl rfl⟩, fun _ => ⟨hheight, rfl⟩⟩,
        funext fun j => ?_⟩
      subst hizero
      by_cases hj : j = 0
      · subst hj
        simp [mapOf]
      · rw [update_of_ne hj]
        simp [mapOf, root_tag_clear_all, hheight, hj]
    · rw [if_neg hheight]
      have hwf : Wf root.height root.rnode :=
        h.wf_or_null.resolve_left fun hnull => hheight (h.empty hnull).1
      rw [walk_eq (.inr hwf), hmapi]
      cases hfind : find i root.height root.rnode with
      | none =>
        exact ⟨root, rfl, h, update_none_of_none (by rw [hmapi, hfind])⟩
      | some a =>
        simp only [toSlot, Slot.present, Bool.true_eq_false, if_false,
          leafTag_eq_false (.inr hwf), Bool.false_eq_true, pure, Except.pure]
        rcases deletePath_present hwf hfind with ⟨hrun, hothers⟩ | ⟨s', here, hrun, hwf', hfind'⟩
        · rw [hrun]
          refine ⟨_, rfl, ⟨⟨by simp, root_tag_clear_all_spec h.tags, .inl rfl⟩, fun _ => ⟨rfl, rfl⟩⟩,
            funext fun j => ?_⟩
          by_cases hji : j = i
          · subst hji
            simp [mapOf]
          rw [update_of_ne hji]
          by_cases hj : j < 64 ^ root.height
          · have := hothers j (by rwa [Nat.mod_eq_of_lt hj, Nat.mod_eq_of_lt hlt])
            simp [mapOf, hj, this]
          · simp [mapOf, hj]
        · rw [hrun]
          have hind : root.indirect = decide (0 < root.height) := by
            rcases h.rnode with hnull | ⟨-, hind⟩
            · exact absurd (h.empty hnull).1 hheight
            · exact hind
          have hmap' : mapOf { root with rnode := s' } = update (mapOf root) i none := by
            funext j
            by_cases hji : j = i
            · subst hji
              simp [mapOf, hfind']
            rw [update_of_ne hji]
            simp only [mapOf]
            by_cases hj : j < 64 ^ root.height
            · rw [if_pos hj, if_pos hj, hfind', Nat.mod_eq_of_lt hj, Nat.mod_eq_of_lt hlt, if_neg hji]
            · rw [if_neg hj, if_neg hj]
          cases here with
          | true =>
            obtain ⟨root', hshrink, hgood, hmap⟩ := shrink_spec (root.height + 1)
              { root with rnode := s' } h.height_le h.tags hwf' hind (Nat.lt_succ_self _)
            simp only [if_true, hshrink]
            exact ⟨root', rfl, hgood, hmap.trans hmap'⟩
          | false =>
            refine ⟨_, rfl, ⟨⟨h.height_le, h.tags, .inr ⟨hwf', hind⟩⟩, fun hnull => ?_⟩, hmap'⟩
            have hpresent := hwf'.present
            simp only at hnull
            rw [hnull] at hpresent
            cases hpresent
  · rw [if_pos hlt]
    have hnone : mapOf root i = none := by simp [mapOf, hlt]
    refine ⟨root, ?_, h, update_none_of_none hnone⟩
    rw [hnone]
    rfl

/-! ## Runs -/

inductive MapOp
  | insert (index : Nat) (item : BitVec 64)
  | delete (index : Nat)
  | lookup (index : Nat)

/-- What an operation returns: the `int` of an insertion, or a pointer. -/
inductive MapOut
  | ret (code : Int)
  | ptr (slot : Slot)

/-- Indices below `2^30`, and items that are pointers to data: not `NULL`, the low bit clear. -/
def MapOp.Legal : MapOp → Prop
  | .insert index item => index < 2 ^ 30 ∧ item ≠ 0 ∧ item.getLsbD 0 = false
  | .delete index => index < 2 ^ 30
  | .lookup index => index < 2 ^ 30

/-- One operation on the tree. -/
def Root.apply (root : Root) : MapOp → Except Panic (Root × MapOut)
  | .insert index item => do
    let (root, code) ← radix_tree_insert root index item
    return (root, .ret code)
  | .delete index => do
    let (root, slot) ← radix_tree_delete root index
    return (root, .ptr slot)
  | .lookup index => do
    let slot ← radix_tree_lookup_node root index
    return (root, .ptr slot)

/-- The same operation on a partial map, which is what the tree is for. -/
def applyMap (m : Nat → Option (BitVec 64)) : MapOp → (Nat → Option (BitVec 64)) × MapOut
  | .insert index item =>
    if m index = none then (update m index (some item), .ret 0) else (m, .ret (-1))
  | .delete index => (update m index none, .ptr (toSlot (m index)))
  | .lookup index => (m, .ptr (toSlot (m index)))

def runTree (root : Root) : List MapOp → Except Panic (Root × List MapOut)
  | [] => .ok (root, [])
  | op :: ops => do
    let (root, out) ← root.apply op
    let (root, outs) ← runTree root ops
    return (root, out :: outs)

def runMap (m : Nat → Option (BitVec 64)) : List MapOp → (Nat → Option (BitVec 64)) × List MapOut
  | [] => (m, [])
  | op :: ops =>
    let (m, out) := applyMap m op
    let (m, outs) := runMap m ops
    (m, out :: outs)

/-- One operation: the tree answers as the map does and stands for the map's next state. -/
theorem apply_spec {root : Root} (h : Good root) {op : MapOp} (hop : op.Legal) :
    ∃ root', root.apply op = .ok (root', (applyMap (mapOf root) op).2) ∧ Good root' ∧
      mapOf root' = (applyMap (mapOf root) op).1 := by
  cases op with
  | insert index item =>
    obtain ⟨hi, -, ha⟩ := hop
    obtain ⟨htaken, hfree⟩ := insert_spec h (i := index) (by omega) ha
    by_cases hnone : mapOf root index = none
    · obtain ⟨root', hrun, hgood, hmap⟩ := hfree hnone
      refine ⟨root', ?_, hgood, ?_⟩
      · simp only [Root.apply, hrun, applyMap, if_pos hnone, bind, Except.bind]
        rfl
      · simp only [applyMap, if_pos hnone, hmap]
    · refine ⟨root, ?_, h, ?_⟩
      · simp only [Root.apply, htaken hnone, applyMap, if_neg hnone, bind, Except.bind]
        rfl
      · simp only [applyMap, if_neg hnone]
  | delete index =>
    obtain ⟨root', hrun, hgood, hmap⟩ := delete_spec h index
    refine ⟨root', ?_, hgood, hmap⟩
    simp only [Root.apply, hrun, applyMap, bind, Except.bind]
    rfl
  | lookup index =>
    refine ⟨root, ?_, h, rfl⟩
    simp only [Root.apply, lookup_eq h, applyMap, bind, Except.bind]
    rfl

theorem runTree_spec {root : Root} (h : Good root) {ops : List MapOp} (hops : ∀ op ∈ ops, op.Legal) :
    ∃ root', runTree root ops = .ok (root', (runMap (mapOf root) ops).2) ∧ Good root' ∧
      mapOf root' = (runMap (mapOf root) ops).1 := by
  induction ops generalizing root with
  | nil => exact ⟨root, rfl, h, rfl⟩
  | cons op ops ih =>
    obtain ⟨root₁, hrun₁, h₁, hmap₁⟩ := apply_spec h (hops op (by simp))
    obtain ⟨root', hrun', h', hmap'⟩ := ih h₁ fun o ho => hops o (by simp [ho])
    rw [hmap₁] at hrun' hmap'
    refine ⟨root', ?_, h', hmap'⟩
    simp only [runTree, hrun₁, hrun', bind, Except.bind, runMap]
    rfl

theorem good_init : Good (INIT_RADIX_TREE GFP_FS) :=
  ⟨⟨by decide, by decide, .inl rfl⟩, fun _ => ⟨rfl, rfl⟩⟩

theorem mapOf_init : mapOf (INIT_RADIX_TREE GFP_FS) = fun _ => none := by
  funext j
  simp [mapOf, INIT_RADIX_TREE]

/-- **The radix tree refines a finite map.**  Any sequence of operations on an empty tree returns
what the same sequence returns on an empty map; afterwards the tree answers every lookup as the map
does, and an insertion at an occupied index returns `-1` and leaves the tree exactly as it is. -/
theorem radix_tree_refines_map (ops : List MapOp) (hops : ∀ op ∈ ops, op.Legal) :
    ∃ root, runTree (INIT_RADIX_TREE GFP_FS) ops = .ok (root, (runMap (fun _ => none) ops).2) ∧
      (∀ i, i < 2 ^ 30 →
        radix_tree_lookup_node root i = .ok (toSlot ((runMap (fun _ => none) ops).1 i))) ∧
      ∀ i item, (MapOp.insert i item).Legal → (runMap (fun _ => none) ops).1 i ≠ none →
        radix_tree_insert root i item = .ok (root, -1) := by
  obtain ⟨root, hrun, hgood, hmap⟩ := runTree_spec good_init hops
  rw [mapOf_init] at hrun hmap
  refine ⟨root, hrun, fun i _ => ?_, fun i item hlegal hne => ?_⟩
  · rw [lookup_eq hgood, hmap]
  · obtain ⟨hi, -, ha⟩ := hlegal
    exact (insert_spec hgood (by omega) ha).1 (by rwa [hmap])

/-- Two items, one of them far to the right, and the removal of the far one. -/
def grow_and_shrink : List MapOp :=
  [.insert 0 0x1000, .insert 100000 0x2000, .insert 100000 0x3000, .delete 100000, .lookup 0]

theorem radix_tree_refines_map_grow_and_shrink :
    (∀ op ∈ grow_and_shrink, op.Legal) ∧
      ∃ root, runTree (INIT_RADIX_TREE GFP_FS) grow_and_shrink
        = .ok (root, (runMap (fun _ => none) grow_and_shrink).2) := by
  have hlegal : ∀ op ∈ grow_and_shrink, op.Legal := by
    intro op hop
    simp only [grow_and_shrink, List.mem_cons, List.not_mem_nil, or_false] at hop
    rcases hop with rfl | rfl | rfl | rfl | rfl <;> simp only [MapOp.Legal] <;> decide
  obtain ⟨root, hrun, -⟩ := radix_tree_refines_map grow_and_shrink hlegal
  exact ⟨hlegal, root, hrun⟩

end LostWakeup.Lib.RadixTree
