/-
# LostWakeup.Lib.RadixTagsRefine — the tags of the radix tree are exact.

`bare` is the tree without tags, `Tags` says that all bits of a tree are right, and `tagOf` is the tag of an index.
`radix_tree_tags_refine` runs any sequence of operations on the tree and on the abstract `Tagging` side by side.
-/
import LostWakeup.Lib.RadixTags

namespace LostWakeup.Lib.RadixTree

open Library
open Function (update update_of_ne update_self)

/-! ## Roots -/

/-- The root of the tree without its tags. -/
def bare (root : Root) : Root := { root with gfp_mask := 0, rnode := strip root.height root.rnode }

@[simp] theorem root_tag_get_bare (root : Root) (t : Tag) : root_tag_get (bare root) t = false := by
  simp [root_tag_get, bare]

theorem height_of_bare {root root' : Root} (h : bare root' = bare root) : root'.height = root.height := by
  have hheight := congrArg Root.height h
  exact hheight

theorem mapOf_bare (root : Root) : mapOf (bare root) = mapOf root := by
  funext j
  simp [mapOf, bare]

/-- The bits of the tree and the root's own are right. -/
structure Tags (root : Root) : Prop where
  exact : Exact root.height root.rnode
  summary : ∀ t, Summary root.height (root_tag_get root t) t root.rnode

/-- The tag of an index. -/
def tagOf (root : Root) (j : Nat) (t : Tag) : Bool :=
  decide (j < 64 ^ root.height) && carries j t root.height (root_tag_get root t) root.rnode

theorem Shape.wf_bare {root : Root} (h : Shape (bare root)) :
    root.rnode = .null ∨ Wf root.height (strip root.height root.rnode) :=
  h.wf_or_null.imp_left strip_eq_null.mp

theorem mapOf_of_tagOf {root : Root} (h : Shape (bare root)) (htags : Tags root) {j : Nat} {t : Tag}
    (ht : tagOf root j t = true) : mapOf root j ≠ none := by
  simp only [tagOf, Bool.and_eq_true, decide_eq_true_eq] at ht
  simp only [mapOf, if_pos ht.1]
  exact find_of_carries h.wf_bare htags.exact (htags.summary t) ht.2

theorem root_tag_iff {root : Root} (h : Shape (bare root)) (htags : Tags root) (t : Tag) :
    root_tag_get root t = true ↔ ∃ j, tagOf root j t = true := by
  rw [bit_iff_carries h.wf_bare htags.exact (htags.summary t)]
  simp only [tagOf, Bool.and_eq_true, decide_eq_true_eq]

theorem tagOf_of_step {root root' : Root} {i : Nat} {E : Tag → Bool → Bool}
    (hheight : root'.height = root.height) (hi : i < 64 ^ root.height)
    (hstep : TagStep i root.height E (root_tag_get root) (root_tag_get root') root.rnode root'.rnode)
    (j : Nat) (t : Tag) :
    tagOf root' j t = if j = i then E t (tagOf root j t) else tagOf root j t := by
  simp only [tagOf, hheight, hstep.carries]
  by_cases hj : j < 64 ^ root.height
  · rw [Nat.mod_eq_of_lt hj, Nat.mod_eq_of_lt hi, decide_eq_true hj, Bool.true_and, Bool.true_and]
  · have hne : j ≠ i := fun heq => hj (heq ▸ hi)
    rw [decide_eq_false hj, if_neg hne, Bool.false_and, Bool.false_and]

theorem tagOf_eq_of_step {root root' : Root} {i : Nat} (hheight : root'.height = root.height)
    (hi : i < 64 ^ root.height)
    (hstep : TagStep i root.height (fun _ x => x) (root_tag_get root) (root_tag_get root') root.rnode
      root'.rnode) : tagOf root' = tagOf root := by
  funext j t
  rw [tagOf_of_step hheight hi hstep, ite_self]

/-! ## Setting, clearing and reading a tag -/

theorem tag_set_spec {root : Root} {i : Nat} (tag : Tag) (h : Good (bare root)) (htags : Tags root)
    (hi : mapOf root i ≠ none) :
    ∃ root', radix_tree_tag_set root i tag = .ok (root', toSlot (mapOf root i)) ∧
      bare root' = bare root ∧ Tags root' ∧
      ∀ j t, tagOf root' j t = (tagOf root j t || decide (j = i ∧ t = tag)) := by
  have hlt : i < 64 ^ root.height := by
    by_contra hge
    exact hi (if_neg hge)
  have hmap : mapOf root i = find i root.height root.rnode := if_pos hlt
  rw [hmap] at hi ⊢
  have hwf : Wf root.height (strip root.height root.rnode) := by
    refine h.wf_bare.resolve_left fun hnull => hi ?_
    rw [hnull, find_null]
  obtain ⟨s', hrun, hstrip, hexact, hsteps⟩ := tagSetPath_spec tag hwf htags.exact hi
  have hstep := hsteps (root_tag_get root) htags.summary
  have hmax : i ≤ 64 ^ root.height - 1 := by omega
  have hpresent : (toSlot (find i root.height root.rnode)).present = true := by
    cases hf : find i root.height root.rnode with
    | none => exact absurd hf hi
    | some a => rfl
  -- the root's bit ends up set, whether it was before or not
  obtain ⟨root', hroot'⟩ : ∃ root', root' = if (toSlot (find i root.height root.rnode)).present = true ∧
      root_tag_get { root with rnode := s' } tag = false then root_tag_set { root with rnode := s' } tag
      else { root with rnode := s' } := ⟨_, rfl⟩
  have hsame : root'.height = root.height ∧ root'.rnode = s' ∧ root'.indirect = root.indirect := by
    rw [hroot']
    split <;> exact ⟨rfl, rfl, rfl⟩
  have hget : root_tag_get root' = fun t => root_tag_get root t || decide (t = tag) := by
    funext t
    rw [hroot']
    split
    · rw [root_tag_get_set, Bool.or_comm]
      rfl
    · next hset =>
      by_cases ht : t = tag
      · rw [ht, decide_eq_true rfl, Bool.or_true]
        simpa [hpresent] using hset
      · rw [decide_eq_false ht, Bool.or_false]
        rfl
  rw [← hget, ← hsame.2.1] at hstep
  refine ⟨root', ?_, ?_, ⟨?_, ?_⟩, fun j t => ?_⟩
  · have hassert : radix_tree_maxindex root.height = .ok (64 ^ root.height - 1) := maxindex_eq h.height_le
    simp only [radix_tree_tag_set, bind, Except.bind, assert, hrun, hassert, if_pos hmax, ← hroot']
    rfl
  · simp only [bare, hsame, hstrip]
  · rw [hsame.1, hsame.2.1]
    exact hexact
  · rw [hsame.1]
    exact hstep.summary
  · rw [tagOf_of_step hsame.1 hlt hstep]
    by_cases hji : j = i
    · simp [hji]
    · simp [hji]

theorem tagClearPath_absent {i h : Nat} {tag : Tag} {s : Slot} (hwf : s = .null ∨ Wf h (strip h s))
    (hnone : find i h s = none) : tagClearPath i tag h s = .ok none := by
  induction h generalizing s with
  | zero =>
    rcases hwf with rfl | hwf
    · rfl
    cases s with
    | null => rfl
    | item a => cases hnone
    | node n => exact hwf.elim
  | succ h ih =>
    rcases hwf with rfl | hwf
    · rfl
    cases s with
    | null => rfl
    | item a => exact hwf.elim
    | node n =>
      simp only [tagClearPath, ih (wf_child hwf _) hnone, bind, Except.bind]
      rfl

theorem tag_clear_spec {root : Root} (i : Nat) (tag : Tag) (h : Shape (bare root)) (htags : Tags root) :
    ∃ root', radix_tree_tag_clear root i tag = .ok root' ∧ bare root' = bare root ∧ Tags root' ∧
      ∀ j t, tagOf root' j t = (tagOf root j t && !decide (j = i ∧ t = tag)) := by
  have hmax : radix_tree_maxindex root.height = .ok (64 ^ root.height - 1) := maxindex_eq h.height_le
  -- an index that is not there carries nothing to clear
  have habsent : mapOf root i = none → ∀ j t, tagOf root j t = (tagOf root j t && !decide (j = i ∧ t = tag)) := by
    intro hnone j t
    by_cases hjt : j = i ∧ t = tag
    · have : tagOf root j t = false := by
        rw [Bool.eq_false_iff, hjt.1]
        exact fun ht => mapOf_of_tagOf h htags ht hnone
      rw [this, Bool.false_and]
    · simp [hjt]
  simp only [radix_tree_tag_clear, hmax, bind, Except.bind, gt_max_iff]
  by_cases hlt : i < 64 ^ root.height
  · rw [if_neg (not_not_intro hlt)]
    have hmap : mapOf root i = find i root.height root.rnode := if_pos hlt
    by_cases hfind : find i root.height root.rnode = none
    · rw [tagClearPath_absent h.wf_bare hfind]
      exact ⟨root, rfl, rfl, htags, habsent (hmap.trans hfind)⟩
    have hwf : Wf root.height (strip root.height root.rnode) := by
      refine h.wf_bare.resolve_left fun hnull => hfind ?_
      rw [hnull, find_null]
    obtain ⟨s', up, hrun, hstrip, hexact, hsteps⟩ := tagClearPath_spec tag hwf htags.exact hfind
    have hstep := hsteps (root_tag_get root) htags.summary
    obtain ⟨root', hroot'⟩ : ∃ root', root' = if up = true ∧
        root_tag_get { root with rnode := s' } tag = true then root_tag_clear { root with rnode := s' } tag
        else { root with rnode := s' } := ⟨_, rfl⟩
    have hsame : root'.height = root.height ∧ root'.rnode = s' ∧ root'.indirect = root.indirect := by
      rw [hroot']
      split <;> exact ⟨rfl, rfl, rfl⟩
    have hget : root_tag_get root' = fun t => root_tag_get root t && !decide (up = true ∧ t = tag) := by
      funext t
      rw [hroot']
      split
      · next hset =>
        rw [root_tag_get_clear]
        simp only [hset.1, true_and]
        rfl
      · next hset =>
        show root_tag_get root t = _
        by_cases ht : up = true ∧ t = tag
        · have hoff : root_tag_get root t = false := by
            rw [ht.2, Bool.eq_false_iff]
            exact fun hon => hset ⟨ht.1, hon⟩
          rw [hoff, Bool.false_and]
        · simp [ht]
    rw [← hget, ← hsame.2.1] at hstep
    refine ⟨root', ?_, ?_, ⟨?_, ?_⟩, fun j t => ?_⟩
    · simp only [hrun, ← hroot']
      rfl
    · simp only [bare, hsame, hstrip]
    · rw [hsame.1, hsame.2.1]
      exact hexact
    · rw [hsame.1]
      exact hstep.summary
    · rw [tagOf_of_step hsame.1 hlt hstep]
      by_cases hji : j = i
      · simp [hji]
      · simp [hji]
  · rw [if_pos hlt]
    exact ⟨root, rfl, rfl, htags, habsent (if_neg hlt)⟩

theorem tagGetPath_eq {i h : Nat} {t : Tag} {bit : Bool} {n : Node Slot}
    (hwf : Wf (h + 1) (strip (h + 1) (.node n))) :
    tagGetPath i t (h + 1) (.node n) = .ok (if carries i t (h + 1) bit (.node n) = true then 1 else 0) := by
  induction h generalizing n bit with
  | zero => rfl
  | succ h ih =>
    rw [carries_node]
    show tagGetPath i t (h + 1) (n.slots (slotOffset i (h + 1))) = _
    rcases wf_child hwf (slotOffset i (h + 1)) with hnull | hchild
    · rw [hnull]
      rfl
    cases hs : n.slots (slotOffset i (h + 1)) with
    | null => rfl
    | item a =>
      rw [hs] at hchild
      exact hchild.elim
    | node m =>
      rw [hs] at hchild
      exact ih hchild

theorem tag_get_spec {root : Root} (h : Good (bare root)) (htags : Tags root) (i : Nat) (t : Tag) :
    radix_tree_tag_get root i t = .ok (if tagOf root i t = true then 1 else 0) := by
  unfold radix_tree_tag_get
  by_cases hroot : root_tag_get root t = false
  · have hoff : tagOf root i t = false := by
      rw [Bool.eq_false_iff]
      intro hon
      have := (root_tag_iff h.toShape htags t).mpr ⟨i, hon⟩
      rw [hroot] at this
      cases this
    rw [if_pos hroot, hoff]
    rfl
  · rw [if_neg hroot]
    rcases h.rnode with hnull | ⟨hwf, hind⟩
    · -- an empty tree has no root tag
      have hnull' : root.rnode = .null := strip_eq_null.mp hnull
      have hsum := htags.summary t
      rw [hnull'] at hsum
      exact absurd hsum.null hroot
    · have hwf' : Wf root.height (strip root.height root.rnode) := hwf
      have hpresent : root.rnode.present = true := by
        rw [← present_strip root.height]
        exact hwf'.present
      have hind' : root.indirect = decide (0 < root.height) := hind
      rw [if_neg (by rw [hpresent]; decide)]
      have hon : root_tag_get root t = true := by simpa using hroot
      by_cases hzero : root.height = 0
      · rw [if_pos (by rw [hind', hzero]; rfl)]
        simp only [tagOf, hzero, carries_zero, hon, Bool.and_true, Nat.pow_zero, Nat.lt_one_iff,
          decide_eq_true_eq]
      rw [if_neg (by rw [hind']; simpa using hzero)]
      obtain ⟨k, hk⟩ := Nat.exists_eq_succ_of_ne_zero hzero
      rw [hk] at hwf'
      cases hr : root.rnode with
      | null =>
        rw [hr] at hpresent
        cases hpresent
      | item a =>
        rw [hr] at hwf'
        exact hwf'.elim
      | node n =>
        rw [hr] at hwf'
        have hheight : n.height = k + 1 := hwf'.1
        have hmax : radix_tree_maxindex (k + 1) = .ok (64 ^ (k + 1) - 1) := by
          rw [← Nat.succ_eq_add_one, ← hk]
          exact maxindex_eq h.height_le
        simp only [hheight, hmax, bind, Except.bind, gt_max_iff, tagOf, hk, hr, Nat.succ_eq_add_one]
        by_cases hlt : i < 64 ^ (k + 1)
        · rw [if_neg (not_not_intro hlt), decide_eq_true hlt, Bool.true_and]
          exact tagGetPath_eq hwf'
        · rw [if_pos hlt, decide_eq_false hlt, Bool.false_and]
          rfl

/-! ## Growing the root -/

/-- The node `growRoot` puts above the old root. -/
theorem growRoot_node (root : Root) :
    ∃ n, (growRoot root).rnode = .node n ∧ n.height = root.height + 1 ∧ n.count = 1 ∧
      n.slots = update (fun _ => .null) 0 root.rnode ∧
      ∀ t o, tag_get n t o = (decide (o = 0) && root_tag_get root t) := by
  -- the tag words after the loop over the tags
  have hloop : ∀ (n : Node Slot), (∀ t o, tag_get n t o = false) → ∀ t o,
      tag_get (if root_tag_get root 1 = true then
          tag_set (if root_tag_get root 0 = true then tag_set n 0 0 else n) 1 0
        else if root_tag_get root 0 = true then tag_set n 0 0 else n) t o
        = (decide (o = 0) && root_tag_get root t) := by
    intro n hn t o
    match t with
    | 0 => cases h0 : root_tag_get root 0 <;> cases h1 : root_tag_get root 1 <;> simp [hn]
    | 1 => cases h0 : root_tag_get root 0 <;> cases h1 : root_tag_get root 1 <;> simp [hn]
  refine ⟨_, rfl, ?_, rfl, ?_, fun t o => ?_⟩
  · split <;> split <;> rfl
  · split <;> split <;> rfl
  · exact hloop { radix_tree_node_alloc (root.height + 1) with
      slots := update (radix_tree_node_alloc (root.height + 1)).slots 0 root.rnode }
      (fun t o => tag_get_alloc (root.height + 1) t o) t o

theorem bare_growRoot (root : Root) : bare (growRoot root) = growRoot (bare root) := by
  obtain ⟨n, hn, hheight, hcount, hslots, -⟩ := growRoot_node root
  have hbare : growRoot (bare root) = { bare root with
      height := root.height + 1
      rnode := .node ⟨root.height + 1, 1, update (fun _ => .null) 0 (strip root.height root.rnode),
        fun _ => 0⟩
      indirect := true } := by
    simp only [growRoot, root_tag_get_bare, Bool.false_eq_true, if_false]
    rfl
  have hheight' : (growRoot root).height = root.height + 1 := rfl
  rw [hbare]
  simp only [bare, hn, hheight']
  simp only [strip, hheight, hcount, hslots, strip_update, strip_null]
  rfl

theorem growRoot_tags {root : Root} (htags : Tags root) :
    Tags (growRoot root) ∧ tagOf (growRoot root) = tagOf root := by
  obtain ⟨n, hn, hheight, hcount, hslots, hget⟩ := growRoot_node root
  have hheight' : (growRoot root).height = root.height + 1 := rfl
  have hroot : ∀ t, root_tag_get (growRoot root) t = root_tag_get root t := fun t => rfl
  have hzero : n.slots 0 = root.rnode := by rw [hslots, update_self]
  have hother : ∀ o, o ≠ 0 → n.slots o = .null := fun o ho => by rw [hslots, update_of_ne ho]
  have hsum : ∀ o t, Summary root.height (tag_get n t o) t (n.slots o) := by
    intro o t
    by_cases ho : o = 0
    · rw [ho, hzero, hget]
      simpa using htags.summary t
    · rw [hother o ho, hget, decide_eq_false ho, Bool.false_and]
      exact summary_null _ t
  refine ⟨⟨?_, fun t => ?_⟩, funext fun j => funext fun t => ?_⟩
  · rw [hheight', hn]
    intro o
    refine ⟨?_, hsum o⟩
    by_cases ho : o = 0
    · rw [ho, hzero]
      exact htags.exact
    · rw [hother o ho]
      exact exact_null _
  · rw [hheight', hn, hroot]
    refine ⟨fun h => absurd h (Nat.succ_ne_zero _), fun _ => ?_⟩
    show _ = any_tag_set n t
    rw [Bool.eq_iff_iff, any_tag_set_iff]
    constructor
    · exact fun hon => ⟨0, by rw [hget, hon]; rfl⟩
    · rintro ⟨o, ho⟩
      rw [hget, Bool.and_eq_true] at ho
      exact ho.2
  · simp only [tagOf, hheight', hn, hroot, carries_node]
    have hle : 64 ^ root.height ≤ 64 ^ (root.height + 1) := Nat.pow_le_pow_right (by decide) (by omega)
    by_cases hj : j < 64 ^ root.height
    · have hj' : j < 64 ^ (root.height + 1) := by omega
      rw [decide_eq_true hj, decide_eq_true hj', slotOffset_of_lt hj, hzero, hget]
      rfl
    rw [decide_eq_false hj, Bool.false_and]
    by_cases hj' : j < 64 ^ (root.height + 1)
    · have ho : slotOffset j root.height ≠ 0 := fun hz => hj (lt_of_slotOffset_eq_zero hj' hz)
      have hlow := hsum (slotOffset j root.height) t
      rw [hother _ ho] at hlow ⊢
      rw [carries_null hlow, Bool.and_false]
    · rw [decide_eq_false hj', Bool.false_and]

theorem extendLoop_bare (root : Root) (height fuel : Nat) :
    extendLoop (bare root) height fuel = (extendLoop root height fuel).map bare := by
  induction fuel generalizing root with
  | zero => rfl
  | succ fuel ih =>
    simp only [extendLoop, ← bare_growRoot]
    have hheight : (bare (growRoot root)).height = (growRoot root).height := rfl
    rw [hheight]
    split
    · exact ih _
    · rfl

theorem extendLoop_tags {root r : Root} {height fuel : Nat} (htags : Tags root)
    (hrun : extendLoop root height fuel = .ok r) : Tags r ∧ tagOf r = tagOf root := by
  induction fuel generalizing root with
  | zero => cases hrun
  | succ fuel ih =>
    obtain ⟨htags', hsame⟩ := growRoot_tags htags
    simp only [extendLoop] at hrun
    split at hrun
    · rw [← hsame]
      exact ih htags' hrun
    · cases hrun
      exact ⟨htags', hsame⟩

theorem extend_bare (root : Root) (i : Nat) :
    radix_tree_extend (bare root) i = (radix_tree_extend root i).map bare := by
  unfold radix_tree_extend
  have hheight : (bare root).height = root.height := rfl
  rw [hheight]
  cases extendHeight i (RADIX_TREE_MAX_PATH + 2) (root.height + 1) with
  | error e => rfl
  | ok height =>
    have hloop := extendLoop_bare root height (RADIX_TREE_MAX_PATH + 1)
    simp only [bind, Except.bind]
    cases hr : root.rnode with
    | null =>
      have hnull : (bare root).rnode = .null := by simp [bare, hr]
      rw [hnull]
      simp [bare, hr, Except.map, pure, Except.pure]
    | item a =>
      cases hb : (bare root).rnode with
      | null => simp [bare, hr] at hb
      | item b => exact hloop
      | node m => exact hloop
    | node n =>
      cases hb : (bare root).rnode with
      | null => simp [bare, hr] at hb
      | item b => exact hloop
      | node m => exact hloop

theorem extend_tags {root r : Root} {i : Nat} (htags : Tags root) (hrun : radix_tree_extend root i = .ok r) :
    Tags r ∧ tagOf r = tagOf root := by
  unfold radix_tree_extend at hrun
  cases hheight : extendHeight i (RADIX_TREE_MAX_PATH + 2) (root.height + 1) with
  | error e =>
    rw [hheight] at hrun
    cases hrun
  | ok height =>
    rw [hheight] at hrun
    simp only [bind, Except.bind] at hrun
    cases hr : root.rnode with
    | null =>
      rw [hr] at hrun
      cases hrun
      have hbits : ∀ t, root_tag_get root t = false := by
        intro t
        have hsum := htags.summary t
        rw [hr] at hsum
        exact hsum.null
      have hoff : ∀ (r' : Root) (j : Nat) (t : Tag), r'.rnode = .null → r'.gfp_mask = root.gfp_mask →
          tagOf r' j t = false := by
        intro r' j t hnull hgfp
        have hget : root_tag_get r' t = false := by
          rw [← hbits t]
          simp only [root_tag_get, hgfp]
        rw [tagOf, hnull, hget, carries_null (summary_null _ t), Bool.and_false]
      refine ⟨⟨?_, fun t => ?_⟩, funext fun j => funext fun t => ?_⟩
      · exact exact_null _
      · show Summary height (root_tag_get root t) t .null
        rw [hbits]
        exact summary_null height t
      · rw [hoff root j t hr rfl]
        exact hoff _ j t rfl rfl
    | item a =>
      rw [hr] at hrun
      exact extendLoop_tags htags hrun
    | node n =>
      rw [hr] at hrun
      exact extendLoop_tags htags hrun

/-! ## Insertion -/

theorem insertBelow_tags {root r₀ : Root} {i : Nat} {a : BitVec 64} {code : Int}
    (htags : Tags root) (hi : i < 64 ^ root.height) (hrun : insertBelow (bare root) i a = .ok (r₀, code)) :
    ∃ r, insertBelow root i a = .ok (r, code) ∧ bare r = r₀ ∧ Tags r ∧ tagOf r = tagOf root := by
  unfold insertBelow at hrun ⊢
  have hbare : (bare root).height = root.height ∧ (bare root).rnode = strip root.height root.rnode := ⟨rfl, rfl⟩
  rw [hbare.1, hbare.2] at hrun
  cases hpath : insertPath i a root.height (strip root.height root.rnode) with
  | error e =>
    rw [hpath] at hrun
    cases hrun
  | ok res =>
    obtain ⟨res', hrun', hmap, hstep⟩ := insertPath_of_strip htags.exact hpath
    rw [hpath] at hrun
    rw [hrun']
    simp only [bind, Except.bind] at hrun ⊢
    cases res' with
    | none =>
      subst hmap
      cases hrun
      exact ⟨root, rfl, rfl, htags, rfl⟩
    | some s' =>
      subst hmap
      -- an item goes into the root pointer only when there is none, and then the root has no tag
      have hnotag : root.height = 0 → root_tag_get root 0 = false ∧ root_tag_get root 1 = false := by
        intro hzero
        rw [hzero] at hrun'
        have hnull : root.rnode = .null := by
          cases hr : root.rnode with
          | null => rfl
          | item b =>
            rw [hr] at hrun'
            cases hrun'
          | node m =>
            rw [hr] at hrun'
            cases hrun'
        have hsum := htags.summary
        rw [hnull] at hsum
        exact ⟨(hsum 0).null, (hsum 1).null⟩
      simp only [Option.map_some, assert, root_tag_get_bare, and_self, implies_true, if_true,
        present_strip] at hrun
      simp only [assert, if_pos hnotag]
      obtain ⟨hexact, hsteps⟩ := hstep s' rfl
      have htag := hsteps (root_tag_get root) htags.summary
      obtain ⟨hr₀, rfl⟩ := Prod.mk.inj (Except.ok.inj hrun)
      refine ⟨_, rfl, ?_, ⟨hexact, htag.summary⟩, tagOf_eq_of_step rfl hi htag⟩
      rw [← hr₀]
      rfl

theorem insert_of_bare {root r₀ : Root} {i : Nat} {a : BitVec 64} {code : Int} (h : Shape (bare root))
    (htags : Tags root) (hi : i < 64 ^ 5) (hrun : radix_tree_insert (bare root) i a = .ok (r₀, code)) :
    ∃ r, radix_tree_insert root i a = .ok (r, code) ∧ bare r = r₀ ∧ Tags r ∧ tagOf r = tagOf root := by
  have hheight : (bare root).height = root.height := rfl
  have hmax : radix_tree_maxindex root.height = .ok (64 ^ root.height - 1) := maxindex_eq h.height_le
  simp only [radix_tree_insert, bind, Except.bind, hheight, hmax, gt_max_iff] at hrun ⊢
  cases hassert : assert (a.getLsbD 0 = false) .insert_item_indirect with
  | error e =>
    rw [hassert] at hrun
    cases hrun
  | ok u =>
    rw [hassert] at hrun
    simp only at hrun ⊢
    by_cases hlt : i < 64 ^ root.height
    · rw [if_neg (not_not_intro hlt)] at hrun ⊢
      exact insertBelow_tags htags hlt hrun
    rw [if_pos hlt] at hrun ⊢
    obtain ⟨r₁, hext, -, hlt', -⟩ := extend_spec h hi hlt
    rw [hext] at hrun
    rw [extend_bare] at hext
    cases hext' : radix_tree_extend root i with
    | error e =>
      rw [hext'] at hext
      cases hext
    | ok r =>
      rw [hext'] at hext
      cases hext
      obtain ⟨htags', hsame⟩ := extend_tags htags hext'
      rw [← hsame]
      exact insertBelow_tags htags' hlt' hrun

/-! ## Shrinking -/

theorem shrink_bare (root : Root) (fuel : Nat) :
    radix_tree_shrink (bare root) fuel = (radix_tree_shrink root fuel).map bare := by
  induction fuel generalizing root with
  | zero => rfl
  | succ fuel ih =>
    obtain ⟨height, rnode, indirect, gfp⟩ := root
    cases height with
    | zero => rfl
    | succ k =>
      simp only [radix_tree_shrink, bare, Nat.zero_lt_succ, if_true, gt_iff_lt, bind, Except.bind]
      cases indirect with
      | false => rfl
      | true =>
        simp only [assert, if_true]
        cases rnode with
        | null => rfl
        | item a => rfl
        | node n =>
          simp only [strip, present_strip]
          by_cases hone : n.count ≠ 1
          · rw [if_pos hone, if_pos hone]
            rfl
          rw [if_neg hone, if_neg hone]
          by_cases hzero : (n.slots 0).present = false
          · rw [if_pos hzero, if_pos hzero]
            rfl
          · rw [if_neg hzero, if_neg hzero]
            exact ih ⟨k, n.slots 0, decide (1 < k + 1), gfp⟩

theorem only_leftmost {n : Node Slot} (hused : used n = 1) (hzero : (n.slots 0).present = true)
    {o : Fin RADIX_TREE_MAP_SIZE} (ho : o ≠ 0) : n.slots o = .null := by
  by_contra hne
  have hclear := used_clear n n.count hzero
  have hpresent : (update n.slots 0 .null o).present = true := by
    rw [update_of_ne ho]
    cases hs : n.slots o with
    | null => exact absurd hs hne
    | item a => rfl
    | node m => rfl
  have hpos := used_pos_of (n := { n with slots := update n.slots 0 .null, count := n.count }) hpresent
  omega

/-- Dropping a root node that has nothing but its leftmost child. -/
theorem dropRoot_tags {k : Nat} {n : Node Slot} {indirect : Bool} {gfp : BitVec 32} (indirect' : Bool)
    (hwf : Wf (k + 1) (strip (k + 1) (.node n))) (hone : n.count = 1)
    (hzero : (n.slots 0).present = true) (htags : Tags ⟨k + 1, .node n, indirect, gfp⟩) :
    Tags ⟨k, n.slots 0, indirect', gfp⟩ ∧
      tagOf ⟨k, n.slots 0, indirect', gfp⟩ = tagOf ⟨k + 1, .node n, indirect, gfp⟩ := by
  have hroot : ∀ t, root_tag_get ⟨k, n.slots 0, indirect', gfp⟩ t
      = root_tag_get ⟨k + 1, .node n, indirect, gfp⟩ t := fun t => rfl
  have hused : used { n with tags := fun _ => 0, slots := fun o => strip k (n.slots o) } = 1 := by
    have hcount := hwf.2.1
    rw [← ofNat_eq_one_iff (used_le _), ← hone]
    exact hcount.symm
  have hnull : ∀ o, o ≠ 0 → n.slots o = .null := by
    intro o ho
    have := only_leftmost hused (by simpa using hzero) ho
    simpa using this
  have hoff : ∀ t o, o ≠ 0 → tag_get n t o = false := by
    intro t o ho
    have hsum := (htags.exact o).2 t
    rw [hnull o ho] at hsum
    exact hsum.null
  -- so the root's bit, which sums up the node, is the bit of its leftmost slot
  have hbit : ∀ t, root_tag_get ⟨k + 1, .node n, indirect, gfp⟩ t = tag_get n t 0 := by
    intro t
    rw [(htags.summary t).2 (Nat.succ_ne_zero k)]
    show any_tag_set n t = tag_get n t 0
    rw [Bool.eq_iff_iff, any_tag_set_iff]
    constructor
    · rintro ⟨o, ho⟩
      by_cases hz : o = 0
      · rwa [hz] at ho
      · rw [hoff t o hz] at ho
        cases ho
    · exact fun hon => ⟨0, hon⟩
  refine ⟨⟨(htags.exact 0).1, fun t => ?_⟩, funext fun j => funext fun t => ?_⟩
  · rw [hroot, hbit]
    exact (htags.exact 0).2 t
  simp only [tagOf, hroot, hbit, carries_node]
  have hle : 64 ^ k ≤ 64 ^ (k + 1) := Nat.pow_le_pow_right (by decide) (by omega)
  by_cases hj : j < 64 ^ k
  · have hj' : j < 64 ^ (k + 1) := by omega
    rw [decide_eq_true hj, decide_eq_true hj', slotOffset_of_lt hj]
  rw [decide_eq_false hj, Bool.false_and]
  by_cases hj' : j < 64 ^ (k + 1)
  · have ho : slotOffset j k ≠ 0 := fun hz => hj (lt_of_slotOffset_eq_zero hj' hz)
    rw [hnull _ ho, hoff t _ ho, carries_null (summary_null k t), Bool.and_false]
  · rw [decide_eq_false hj', Bool.false_and]

theorem shrink_tags {root r : Root} {fuel : Nat} (hwf : Wf root.height (strip root.height root.rnode))
    (htags : Tags root) (hrun : radix_tree_shrink root fuel = .ok r) : Tags r ∧ tagOf r = tagOf root := by
  induction fuel generalizing root with
  | zero => cases hrun
  | succ fuel ih =>
    obtain ⟨height, rnode, indirect, gfp⟩ := root
    cases height with
    | zero =>
      cases hrun
      exact ⟨htags, rfl⟩
    | succ k =>
      simp only [radix_tree_shrink, Nat.zero_lt_succ, if_true, gt_iff_lt, bind, Except.bind] at hrun
      cases hassert : assert (indirect = true) .shrink_not_indirect with
      | error e =>
        rw [hassert] at hrun
        cases hrun
      | ok u =>
        rw [hassert] at hrun
        cases rnode with
        | null => cases hrun
        | item a => cases hrun
        | node n =>
          simp only at hrun
          split at hrun
          · cases hrun
            exact ⟨htags, rfl⟩
          · next hone =>
            split at hrun
            · cases hrun
              exact ⟨htags, rfl⟩
            · next hzero =>
              have hpresent : (n.slots 0).present = true := by simpa using hzero
              obtain ⟨htags', hsame⟩ := dropRoot_tags (decide (1 < k + 1)) hwf
                (not_not.mp hone) hpresent htags
              rw [← hsame]
              refine ih ?_ htags' hrun
              refine (wf_child hwf 0).resolve_left fun hnull => ?_
              rw [hnull] at hpresent
              cases hpresent

/-! ## Deletion -/

theorem clear_leaf_spec {root : Root} {i : Nat} (tag : Tag) (h : Shape (bare root)) (htags : Tags root)
    (hne : root.height ≠ 0) :
    ∃ r, (if leafTag i tag root.height root.rnode = true then radix_tree_tag_clear root i tag else pure root)
        = .ok r ∧ bare r = bare root ∧ Tags r ∧
      ∀ j t, tagOf r j t = (tagOf root j t && !decide (j = i ∧ t = tag)) := by
  by_cases hleaf : leafTag i tag root.height root.rnode = true
  · rw [if_pos hleaf]
    exact tag_clear_spec i tag h htags
  rw [if_neg hleaf]
  refine ⟨root, rfl, rfl, htags, fun j t => ?_⟩
  by_cases hjt : j = i ∧ t = tag
  · have hoff : tagOf root j t = false := by
      rw [hjt.1, hjt.2, tagOf, carries, if_neg hne, Bool.eq_false_iff.mpr hleaf, Bool.and_false]
    rw [hoff, Bool.false_and]
  · simp [hjt]

/-- Both turns: afterwards the index carries no tag. -/
theorem clear_leaves_spec {root : Root} {i : Nat} (h : Shape (bare root)) (htags : Tags root)
    (hne : root.height ≠ 0) :
    ∃ r₁ r₂, (if leafTag i 0 root.height root.rnode = true then radix_tree_tag_clear root i 0 else pure root)
        = .ok r₁ ∧
      (if leafTag i 1 r₁.height r₁.rnode = true then radix_tree_tag_clear r₁ i 1 else pure r₁) = .ok r₂ ∧
      bare r₂ = bare root ∧ Tags r₂ ∧ ∀ j t, tagOf r₂ j t = (tagOf root j t && !decide (j = i)) := by
  obtain ⟨r₁, hrun₁, hbare₁, htags₁, hof₁⟩ := clear_leaf_spec (i := i) 0 h htags hne
  have hheight := height_of_bare hbare₁
  obtain ⟨r₂, hrun₂, hbare₂, htags₂, hof₂⟩ :=
    clear_leaf_spec (i := i) 1 (by rw [hbare₁]; exact h) htags₁ (by rw [hheight]; exact hne)
  refine ⟨r₁, r₂, hrun₁, hrun₂, hbare₂.trans hbare₁, htags₂, fun j t => ?_⟩
  rw [hof₂, hof₁]
  match t with
  | 0 => simp
  | 1 => simp

theorem tags_empty (height : Nat) (root : Root) :
    Tags { root_tag_clear_all root with rnode := .null, indirect := false, height := height } ∧
      ∀ j t, tagOf { root_tag_clear_all root with rnode := .null, indirect := false, height := height } j t
        = false := by
  have hget : ∀ t, root_tag_get { root_tag_clear_all root with
      rnode := .null, indirect := false, height := height } t = false :=
    fun t => root_tag_get_clear_all root t
  refine ⟨⟨exact_null _, fun t => ?_⟩, fun j t => ?_⟩
  · rw [hget]
    exact summary_null _ t
  · rw [tagOf, hget, carries_null (summary_null _ t), Bool.and_false]

/-- The end of `radix_tree_delete`: the ascent, and what it leaves at the root. -/
def unlink (root : Root) (index : Nat) : Except Panic (Root × Slot) := do
  match ← deletePath index root.height root.rnode with
  | .absent => return (root, .null)
  | .emptied item =>
    return ({ root_tag_clear_all root with rnode := .null, indirect := false, height := 0 }, item)
  | .kept item slot here =>
    let root := { root with rnode := slot }
    let root ← if here then radix_tree_shrink root (root.height + 1) else pure root
    return (root, item)

theorem delete_eq_unlink {root : Root} {i : Nat} {slot : Slot} (hle : root.height ≤ 5)
    (hlt : i < 64 ^ root.height) (hzero : root.height ≠ 0)
    (hwalk : walk i root.height root.rnode = .ok slot) (hslot : slot.present = true) :
    radix_tree_delete root i
      = (if leafTag i 0 root.height root.rnode = true then radix_tree_tag_clear root i 0 else pure root).bind
        fun r₁ => (if leafTag i 1 r₁.height r₁.rnode = true then radix_tree_tag_clear r₁ i 1 else pure r₁).bind
        fun r₂ => unlink r₂ i := by
  simp only [radix_tree_delete, bind, Except.bind, maxindex_eq hle, gt_max_iff, if_neg (not_not_intro hlt),
    if_neg hzero, hwalk, hslot, Bool.true_eq_false, if_false]
  split
  · cases radix_tree_tag_clear root i 0 with
    | error e => rfl
    | ok r₁ =>
      simp only
      split <;> rfl
  · simp only [pure, Except.pure]
    split <;> rfl

/-- The ascent, when the item carries no tag any more. -/
theorem unlink_of_bare {root r₀ : Root} {i : Nat} {a : BitVec 64} {slot : Slot} (h : Shape (bare root))
    (htags : Tags root) (hi : i < 64 ^ root.height) (hfind : find i root.height root.rnode = some a)
    (hclear : ∀ t, tagOf root i t = false) (hrun : unlink (bare root) i = .ok (r₀, slot)) :
    ∃ r, unlink root i = .ok (r, slot) ∧ bare r = r₀ ∧ Tags r ∧ tagOf r = tagOf root := by
  have hwf : Wf root.height (strip root.height root.rnode) := by
    refine h.wf_bare.resolve_left fun hnull => ?_
    rw [hnull, find_null] at hfind
    cases hfind
  have hcarries : ∀ t, carries i t root.height (root_tag_get root t) root.rnode = false := by
    intro t
    have := hclear t
    rwa [tagOf, decide_eq_true hi, Bool.true_and] at this
  have hbare : deletePath i (bare root).height (bare root).rnode
      = (deletePath i root.height root.rnode).map (Removal.strip root.height) := deletePath_strip i _ _
  simp only [unlink, bind, Except.bind, hbare] at hrun ⊢
  cases hpath : deletePath i root.height root.rnode with
  | error e =>
    rw [hpath] at hrun
    cases hrun
  | ok res =>
    rw [hpath] at hrun
    cases res with
    | absent =>
      cases hrun
      exact ⟨root, rfl, rfl, htags, rfl⟩
    | emptied item =>
      obtain ⟨hr₀, rfl⟩ := Prod.mk.inj (Except.ok.inj hrun)
      obtain ⟨htags', hoff⟩ := tags_empty 0 root
      refine ⟨_, rfl, ?_, htags', funext fun j => funext fun t => (hoff j t).trans ?_⟩
      · rw [← hr₀]
        simp [bare, root_tag_clear_all]
      have hbit := bit_false_of_alone (.inr hwf) htags.exact (htags.summary t) (hcarries t)
        (alone_of_emptied hwf hfind hpath)
      rw [eq_comm, Bool.eq_false_iff]
      intro hon
      have hset := (root_tag_iff h htags t).mpr ⟨j, hon⟩
      rw [hbit] at hset
      cases hset
    | kept item s' here =>
      obtain ⟨hexact, hstep⟩ := deletePath_tags hwf htags.exact hfind htags.summary hcarries hpath
      have htags' : Tags { root with rnode := s' } := ⟨hexact, hstep.summary⟩
      have hsame : tagOf { root with rnode := s' } = tagOf root := tagOf_eq_of_step rfl hi hstep
      cases here with
      | false =>
        obtain ⟨hr₀, rfl⟩ := Prod.mk.inj (Except.ok.inj hrun)
        exact ⟨_, rfl, hr₀, htags', hsame⟩
      | true =>
        have hwf' : Wf root.height (strip root.height s') := by
          rcases deletePath_present hwf (by rwa [find_strip]) with ⟨hemptied, -⟩ | ⟨s₀, here₀, hkept, hs₀, -⟩
          · rw [deletePath_strip, hpath] at hemptied
            cases hemptied
          · rw [deletePath_strip, hpath] at hkept
            cases hkept
            exact hs₀
        have hshrink : radix_tree_shrink { bare root with rnode := strip root.height s' }
            ((bare root).height + 1)
            = (radix_tree_shrink { root with rnode := s' } (root.height + 1)).map bare :=
          shrink_bare { root with rnode := s' } (root.height + 1)
        simp only [Except.map, Removal.strip, if_true] at hrun ⊢
        rw [hshrink] at hrun
        cases hs : radix_tree_shrink { root with rnode := s' } (root.height + 1) with
        | error e =>
          rw [hs] at hrun
          cases hrun
        | ok r =>
          rw [hs] at hrun
          cases hrun
          obtain ⟨htags₁, hsame₁⟩ := shrink_tags hwf' htags' hs
          exact ⟨r, rfl, rfl, htags₁, hsame₁.trans hsame⟩

theorem delete_of_bare {root r₀ : Root} {i : Nat} {slot : Slot} (h : Good (bare root)) (htags : Tags root)
    (hrun : radix_tree_delete (bare root) i = .ok (r₀, slot)) :
    ∃ r, radix_tree_delete root i = .ok (r, slot) ∧ bare r = r₀ ∧ Tags r ∧
      ∀ j t, tagOf r j t = (tagOf root j t && !decide (j = i)) := by
  have hheight : (bare root).height = root.height := rfl
  have hrnode : (bare root).rnode = strip root.height root.rnode := rfl
  have hle : root.height ≤ 5 := h.height_le
  have hmax : radix_tree_maxindex root.height = .ok (64 ^ root.height - 1) := maxindex_eq hle
  have habsent : mapOf root i = none → ∀ j t, tagOf root j t = (tagOf root j t && !decide (j = i)) := by
    intro hnone j t
    by_cases hji : j = i
    · have hoff : tagOf root j t = false := by
        rw [Bool.eq_false_iff, hji]
        exact fun ht => mapOf_of_tagOf h.toShape htags ht hnone
      rw [hoff, Bool.false_and]
    · simp [hji]
  by_cases hlt : i < 64 ^ root.height
  · by_cases hzero : root.height = 0
    · -- the root pointer was the item, if there was one
      simp only [radix_tree_delete, bind, Except.bind, hheight, hmax, gt_max_iff, hrnode,
        if_neg (not_not_intro hlt), if_pos hzero] at hrun ⊢
      obtain ⟨hr₀, rfl⟩ := Prod.mk.inj (Except.ok.inj hrun)
      obtain ⟨htags', hoff⟩ := tags_empty root.height root
      refine ⟨{ root_tag_clear_all root with rnode := .null, indirect := false }, ?_, ?_, htags', fun j t => ?_⟩
      · rw [hzero, strip_zero]
        rfl
      · rw [← hr₀]
        simp [bare, root_tag_clear_all]
      · refine (hoff j t).trans ?_
        by_cases hji : j = i
        · simp [hji]
        have hge : ¬ j < 64 ^ root.height := by
          rw [hzero, Nat.pow_zero] at hlt ⊢
          omega
        rw [tagOf, decide_eq_false hge, Bool.false_and, Bool.false_and]
    · have hwf : Wf root.height (strip root.height root.rnode) :=
        h.wf_bare.resolve_left fun hnull => hzero (h.empty (strip_eq_null.mpr hnull)).1
      have hmap : mapOf root i = find i root.height root.rnode := if_pos hlt
      have hwalk₀ : walk i root.height (strip root.height root.rnode)
          = .ok (toSlot (find i root.height root.rnode)) := by
        rw [walk_eq (.inr hwf), find_strip]
      have hwalk : walk i root.height root.rnode = .ok (toSlot (find i root.height root.rnode)) := by
        rw [← walk_strip, hwalk₀]
      cases hfind : find i root.height root.rnode with
      | none =>
        rw [hfind] at hwalk hwalk₀
        simp only [radix_tree_delete, bind, Except.bind, hheight, hmax, gt_max_iff, hrnode,
          if_neg (not_not_intro hlt), if_neg hzero, hwalk, hwalk₀, toSlot] at hrun ⊢
        cases hrun
        exact ⟨root, rfl, rfl, htags, habsent (hmap.trans hfind)⟩
      | some a =>
        rw [hfind] at hwalk hwalk₀
        obtain ⟨r₁, r₂, hrun₁, hrun₂, hbare, htags₂, hof₂⟩ := clear_leaves_spec (i := i) h.toShape htags hzero
        have hheight₂ := height_of_bare hbare
        have hstrip₂ : strip root.height r₂.rnode = strip root.height root.rnode := by
          have := congrArg Root.rnode hbare
          rwa [bare, bare, hheight₂] at this
        -- the bare tree has no tags to clear
        rw [@delete_eq_unlink (bare root) i _ hle hlt hzero hwalk₀ rfl] at hrun
        simp only [hheight, hrnode, leafTag_eq_false (.inr hwf), Bool.false_eq_true, if_false, pure,
          Except.pure, Except.bind] at hrun
        rw [delete_eq_unlink hle hlt hzero hwalk rfl, hrun₁]
        simp only [Except.bind]
        rw [hrun₂]
        rw [← hbare] at hrun
        obtain ⟨r, hunlink, hr, htags', hsame⟩ := unlink_of_bare (a := a) (by rw [hbare]; exact h.toShape) htags₂
          (by rw [hheight₂]; exact hlt) (by rw [hheight₂, ← find_strip, hstrip₂, find_strip, hfind])
          (fun t => by simp [hof₂]) hrun
        exact ⟨r, hunlink, hr, htags', fun j t => by rw [hsame, hof₂]⟩
  · simp only [radix_tree_delete, bind, Except.bind, hheight, hmax, gt_max_iff, if_pos hlt] at hrun ⊢
    cases hrun
    exact ⟨root, rfl, rfl, htags, habsent (if_neg hlt)⟩

/-! ## Interior nodes -/

/-- The node with `k` levels below it on the path of `index`, from a slot of height `h` down. -/
def nodeAt (index k : Nat) : Nat → Slot → Option (Node Slot)
  | h + 1, .node n => if h = k then some n else nodeAt index k h (n.slots (slotOffset index h))
  | _, _ => none

theorem slotOffset_of_div_eq {i j h k : Nat} (hk : k ≤ h) (hij : j / 64 ^ k = i / 64 ^ k) :
    slotOffset j h = slotOffset i h := by
  rw [Fin.ext_iff, slotOffset_val, slotOffset_val]
  obtain ⟨d, rfl⟩ := Nat.exists_eq_add_of_le hk
  rw [Nat.pow_add, ← Nat.div_div_eq_div_mul, ← Nat.div_div_eq_div_mul, hij]

/-- A node on a path is part of the tree: its bits are right, and the tags it shows are the tree's. -/
theorem nodeAt_spec {i k h : Nat} {s : Slot} {n : Node Slot} (hwf : s = .null ∨ Wf h (strip h s))
    (hexact : Exact h s) (hn : nodeAt i k h s = some n) :
    k < h ∧ Wf (k + 1) (strip (k + 1) (.node n)) ∧ Exact (k + 1) (.node n) ∧
      ∀ j t bit, j / 64 ^ k = i / 64 ^ k →
        carries j t h bit s = carries j t k (tag_get n t (slotOffset i k)) (n.slots (slotOffset i k)) := by
  induction h generalizing s with
  | zero => cases s <;> cases hn
  | succ h ih =>
    cases s with
    | null => cases hn
    | item a => cases hn
    | node m =>
      have hwf' := hwf.resolve_left nofun
      unfold nodeAt at hn
      split at hn
      · next hhk =>
        subst hhk
        cases hn
        refine ⟨Nat.lt_succ_self h, hwf', hexact, fun j t bit hij => ?_⟩
        rw [carries_node, slotOffset_of_div_eq (le_refl h) hij]
      · next hhk =>
        obtain ⟨hlt, hwfn, hexactn, hcarries⟩ := ih (wf_child hwf' _) (hexact _).1 hn
        refine ⟨Nat.lt_succ_of_lt hlt, hwfn, hexactn, fun j t bit hij => ?_⟩
        rw [carries_node, slotOffset_of_div_eq hlt.le hij]
        exact hcarries j t _ hij

/-- **A bit of an interior node is set iff an index below its slot carries the tag.** -/
theorem node_bit_iff {root : Root} (h : Shape (bare root)) (htags : Tags root) {i k : Nat} {n : Node Slot}
    (hi : i < 64 ^ root.height) (hn : nodeAt i k root.height root.rnode = some n) (t : Tag) :
    tag_get n t (slotOffset i k) = true ↔ ∃ j, j / 64 ^ k = i / 64 ^ k ∧ tagOf root j t = true := by
  obtain ⟨hk, hwf, hexact, hcarries⟩ := nodeAt_spec h.wf_bare htags.exact hn
  obtain ⟨hsub, hsum⟩ := hexact (slotOffset i k)
  have hpos : 0 < 64 ^ k := Nat.pow_pos (by decide)
  -- the indices below the slot are below the root
  have hroom : ∀ j, j / 64 ^ k = i / 64 ^ k → j < 64 ^ root.height := by
    intro j hij
    obtain ⟨d, hd⟩ := Nat.exists_eq_add_of_le hk.le
    rw [hd, Nat.add_comm, Nat.pow_add, ← Nat.div_lt_iff_lt_mul hpos] at hi ⊢
    rwa [hij]
  rw [bit_iff_carries (wf_child hwf _) hsub (hsum t)]
  constructor
  · rintro ⟨j, hj, hon⟩
    have hdiv : (64 ^ k * (i / 64 ^ k) + j) / 64 ^ k = i / 64 ^ k := by
      rw [Nat.mul_add_div hpos, Nat.div_eq_of_lt hj, Nat.add_zero]
    refine ⟨64 ^ k * (i / 64 ^ k) + j, hdiv, ?_⟩
    rw [tagOf, decide_eq_true (hroom _ hdiv), Bool.true_and, hcarries _ t _ hdiv,
      carries_congr (Nat.mul_add_mod _ _ _)]
    exact hon
  · rintro ⟨j, hij, hon⟩
    rw [tagOf, decide_eq_true (hroom _ hij), Bool.true_and, hcarries _ t _ hij] at hon
    refine ⟨j % 64 ^ k, Nat.mod_lt _ hpos, ?_⟩
    rw [carries_congr (Nat.mod_mod j _)]
    exact hon

/-! ## Runs -/

inductive TagOp
  | insert (index : Nat) (item : BitVec 64)
  | delete (index : Nat)
  | tag_set (index : Nat) (tag : Tag)
  | tag_clear (index : Nat) (tag : Tag)

/-- What the tags are for: the items, and which tags each index got since its last insertion. -/
structure Tagging where
  items : Nat → Option (BitVec 64)
  since : Nat → Tag → Bool

namespace Tagging

def empty : Tagging := ⟨fun _ => none, fun _ _ => false⟩

def apply (st : Tagging) : TagOp → Tagging
  | .insert index item =>
    if st.items index = none then
      ⟨update st.items index (some item), update st.since index fun _ => false⟩
    else st
  | .delete index => { st with items := update st.items index none }
  | .tag_set index tag =>
    { st with since := update st.since index (update (st.since index) tag true) }
  | .tag_clear index tag =>
    { st with since := update st.since index (update (st.since index) tag false) }

/-- Present, tagged after the last insertion and not cleared since. -/
def Carries (st : Tagging) (index : Nat) (tag : Tag) : Prop :=
  st.items index ≠ none ∧ st.since index tag = true

instance (st : Tagging) (index : Nat) (tag : Tag) : Decidable (st.Carries index tag) :=
  inferInstanceAs (Decidable (_ ∧ _))

/-- Indices below `2^30`, items that are pointers to data, and tags set only on present indices. -/
def Legal (st : Tagging) : TagOp → Prop
  | .insert index item => index < 2 ^ 30 ∧ item ≠ 0 ∧ item.getLsbD 0 = false
  | .delete index => index < 2 ^ 30
  | .tag_set index _ => index < 2 ^ 30 ∧ st.items index ≠ none
  | .tag_clear index _ => index < 2 ^ 30

def run (st : Tagging) (ops : List TagOp) : Tagging := ops.foldl apply st

def LegalRun (st : Tagging) : List TagOp → Prop
  | [] => True
  | op :: ops => st.Legal op ∧ (st.apply op).LegalRun ops

end Tagging

def Root.applyTag (root : Root) : TagOp → Except Panic Root
  | .insert index item => do return (← radix_tree_insert root index item).1
  | .delete index => do return (← radix_tree_delete root index).1
  | .tag_set index tag => do return (← radix_tree_tag_set root index tag).1
  | .tag_clear index tag => radix_tree_tag_clear root index tag

def runTags (root : Root) (ops : List TagOp) : Except Panic Root := ops.foldlM Root.applyTag root

/-- The tree stands for the abstract state. -/
structure Represents (root : Root) (st : Tagging) : Prop where
  good : Good (bare root)
  tags : Tags root
  items : mapOf root = st.items
  carries : ∀ j t, tagOf root j t = true ↔ st.Carries j t

section Step

variable {root : Root} {st : Tagging} (h : Represents root st)

include h

theorem applyTag_insert {index : Nat} {item : BitVec 64} (hop : st.Legal (.insert index item)) :
    ∃ root', root.applyTag (.insert index item) = .ok root' ∧
      Represents root' (st.apply (.insert index item)) := by
  obtain ⟨hi, -, ha⟩ := hop
  have hi5 : index < 64 ^ 5 := by omega
  obtain ⟨htaken, hfree⟩ := insert_spec h.good hi5 ha
  rw [mapOf_bare, h.items] at htaken hfree
  by_cases hnone : st.items index = none
  · obtain ⟨r₀, hrun₀, hgood, hmap⟩ := hfree hnone
    obtain ⟨r, hrun, hbare, htags, hsame⟩ := insert_of_bare h.good.toShape h.tags hi5 hrun₀
    have hitems : mapOf r = update st.items index (some item) := by rw [← mapOf_bare, hbare, hmap]
    refine ⟨r, by simp only [Root.applyTag, hrun]; rfl, ?_⟩
    simp only [Tagging.apply, if_pos hnone]
    refine ⟨by rw [hbare]; exact hgood, htags, hitems, fun j t => ?_⟩
    rw [hsame, h.carries]
    by_cases hj : j = index
    · simp [Tagging.Carries, hj, hnone]
    · simp [Tagging.Carries, hj]
  · obtain ⟨r, hrun, hbare, htags, hsame⟩ := insert_of_bare h.good.toShape h.tags hi5 (htaken hnone)
    refine ⟨r, by simp only [Root.applyTag, hrun]; rfl, ?_⟩
    simp only [Tagging.apply, if_neg hnone]
    refine ⟨by rw [hbare]; exact h.good, htags, ?_, fun j t => ?_⟩
    · rw [← mapOf_bare, hbare, mapOf_bare, h.items]
    · rw [hsame, h.carries]

theorem applyTag_delete (index : Nat) :
    ∃ root', root.applyTag (.delete index) = .ok root' ∧ Represents root' (st.apply (.delete index)) := by
  obtain ⟨r₀, hrun₀, hgood, hmap⟩ := delete_spec h.good index
  rw [mapOf_bare, h.items] at hmap
  obtain ⟨r, hrun, hbare, htags, hof⟩ := delete_of_bare h.good h.tags hrun₀
  have hitems : mapOf r = update st.items index none := by rw [← mapOf_bare, hbare, hmap]
  refine ⟨r, by simp only [Root.applyTag, hrun]; rfl, by rw [hbare]; exact hgood, htags, hitems, fun j t => ?_⟩
  rw [hof, Bool.and_eq_true, h.carries]
  by_cases hj : j = index
  · simp [Tagging.Carries, Tagging.apply, hj]
  · simp [Tagging.Carries, Tagging.apply, hj]

theorem applyTag_tag_set {index : Nat} {tag : Tag} (hop : st.Legal (.tag_set index tag)) :
    ∃ root', root.applyTag (.tag_set index tag) = .ok root' ∧
      Represents root' (st.apply (.tag_set index tag)) := by
  have hitem : mapOf root index ≠ none := by
    rw [h.items]
    exact hop.2
  obtain ⟨r, hrun, hbare, htags, hof⟩ := tag_set_spec tag h.good h.tags hitem
  refine ⟨r, by simp only [Root.applyTag, hrun]; rfl, by rw [hbare]; exact h.good, htags, ?_, fun j t => ?_⟩
  · rw [← mapOf_bare, hbare, mapOf_bare, h.items]
    rfl
  rw [hof, Bool.or_eq_true, h.carries]
  simp only [Tagging.Carries, Tagging.apply, decide_eq_true_eq]
  by_cases hj : j = index
  · subst hj
    by_cases ht : t = tag
    · simp [ht, hop.2]
    · simp [ht]
  · simp [hj]

theorem applyTag_tag_clear (index : Nat) (tag : Tag) :
    ∃ root', root.applyTag (.tag_clear index tag) = .ok root' ∧
      Represents root' (st.apply (.tag_clear index tag)) := by
  obtain ⟨r, hrun, hbare, htags, hof⟩ := tag_clear_spec index tag h.good.toShape h.tags
  refine ⟨r, hrun, by rw [hbare]; exact h.good, htags, ?_, fun j t => ?_⟩
  · rw [← mapOf_bare, hbare, mapOf_bare, h.items]
    rfl
  rw [hof, Bool.and_eq_true, h.carries]
  simp only [Tagging.Carries, Tagging.apply]
  by_cases hj : j = index
  · subst hj
    by_cases ht : t = tag
    · simp [ht]
    · simp [ht]
  · simp [hj]

theorem applyTag_spec {op : TagOp} (hop : st.Legal op) :
    ∃ root', root.applyTag op = .ok root' ∧ Represents root' (st.apply op) := by
  cases op with
  | insert index item => exact applyTag_insert h hop
  | delete index => exact applyTag_delete h index
  | tag_set index tag => exact applyTag_tag_set h hop
  | tag_clear index tag => exact applyTag_tag_clear h index tag

end Step

theorem runTags_spec {root : Root} {st : Tagging} (h : Represents root st) {ops : List TagOp}
    (hops : st.LegalRun ops) :
    ∃ root', runTags root ops = .ok root' ∧ Represents root' (st.run ops) := by
  induction ops generalizing root st with
  | nil => exact ⟨root, rfl, h⟩
  | cons op ops ih =>
    obtain ⟨root₁, hrun₁, h₁⟩ := applyTag_spec h hops.1
    obtain ⟨root', hrun', h'⟩ := ih h₁ hops.2
    refine ⟨root', ?_, h'⟩
    show (root.applyTag op >>= fun r => runTags r ops) = _
    rw [hrun₁]
    exact hrun'

theorem represents_init : Represents (INIT_RADIX_TREE GFP_FS) Tagging.empty := by
  have hget : ∀ t, root_tag_get (INIT_RADIX_TREE GFP_FS) t = false := by decide
  have htags : Tags (INIT_RADIX_TREE GFP_FS) := by
    refine ⟨exact_null _, fun t => ?_⟩
    rw [hget]
    exact summary_null _ t
  refine ⟨⟨⟨by decide, by decide, .inl rfl⟩, fun _ => ⟨rfl, rfl⟩⟩, htags, mapOf_init, fun j t => ?_⟩
  have hoff : tagOf (INIT_RADIX_TREE GFP_FS) j t = false := by
    rw [tagOf, hget]
    exact Bool.and_false _
  simp [hoff, Tagging.Carries, Tagging.empty]

/-- Looking an index up does not read the tags. -/
theorem lookup_tagged {root : Root} (h : Good (bare root)) (i : Nat) :
    radix_tree_lookup_node root i = .ok (toSlot (mapOf root i)) := by
  rw [← mapOf_bare, ← lookup_eq h i]
  obtain ⟨height, rnode, indirect, gfp⟩ := root
  rcases h.rnode with hnull | ⟨hwf, hind⟩
  · have hnull' : rnode = .null := strip_eq_null.mp hnull
    subst hnull'
    simp [radix_tree_lookup_node, bare]
  have hind' : indirect = decide (0 < height) := hind
  have hwf' : Wf height (strip height rnode) := hwf
  cases height with
  | zero => simp [radix_tree_lookup_node, bare, hind']
  | succ k =>
    cases rnode with
    | null => exact hwf'.elim
    | item a => exact hwf'.elim
    | node n =>
      have hheight : n.height = k + 1 := hwf'.1
      have hwalk := walk_strip i (k + 1) (.node n)
      simp only [strip, hheight] at hwalk
      simp only [radix_tree_lookup_node, bare, hind', strip, hheight, hwalk, Nat.zero_lt_succ, decide_true,
        if_true]

/-- **The tags of the radix tree are exact.**  After any sequence of operations on an empty tree no
assertion has fired, `radix_tree_tag_get` is 1 exactly on the indices that are present, were tagged
after their last insertion and have not been cleared since, and every tag bit, of an interior node
or of the root, is set exactly when such an index lies below it. -/
theorem radix_tree_tags_refine (ops : List TagOp) (hops : Tagging.empty.LegalRun ops) :
    ∃ root, runTags (INIT_RADIX_TREE GFP_FS) ops = .ok root ∧
      (∀ i, radix_tree_lookup_node root i = .ok (toSlot ((Tagging.empty.run ops).items i))) ∧
      (∀ i t, radix_tree_tag_get root i t = .ok (if (Tagging.empty.run ops).Carries i t then 1 else 0)) ∧
      (∀ i k n t, i < 64 ^ root.height → nodeAt i k root.height root.rnode = some n →
        (tag_get n t (slotOffset i k) = true ↔
          ∃ j, j / 64 ^ k = i / 64 ^ k ∧ (Tagging.empty.run ops).Carries j t)) ∧
      ∀ t, root_tag_get root t = true ↔ ∃ j, (Tagging.empty.run ops).Carries j t := by
  obtain ⟨root, hrun, h⟩ := runTags_spec represents_init hops
  refine ⟨root, hrun, fun i => ?_, fun i t => ?_, fun i k n t hi hn => ?_, fun t => ?_⟩
  · rw [lookup_tagged h.good, h.items]
  · rw [tag_get_spec h.good h.tags]
    simp only [h.carries]
  · rw [node_bit_iff h.good.toShape h.tags hi hn]
    simp only [h.carries]
  · rw [root_tag_iff h.good.toShape h.tags]
    simp only [h.carries]

/-- A tag that survives growing and shrinking, and one that is deleted with its item. -/
def tag_and_grow (dirty writeback : Tag) : List TagOp :=
  [.insert 0 0x1000, .tag_set 0 dirty, .insert 100000 0x2000, .tag_set 100000 writeback, .delete 100000,
    .tag_clear 0 writeback]

theorem tag_and_grow_legal : Tagging.empty.LegalRun (tag_and_grow 0 1) := by
  refine ⟨?_, ?_, ?_, ?_, ?_, ?_, trivial⟩
  all_goals simp only [Tagging.Legal]
  all_goals decide

theorem radix_tree_tags_refine_tag_and_grow :
    Tagging.empty.LegalRun (tag_and_grow 0 1) ∧ (Tagging.empty.run (tag_and_grow 0 1)).Carries 0 0 ∧
      ∃ root, runTags (INIT_RADIX_TREE GFP_FS) (tag_and_grow 0 1) = .ok root ∧
        radix_tree_tag_get root 0 0 = .ok 1 := by
  have hcarries : (Tagging.empty.run (tag_and_grow 0 1)).Carries 0 0 := by decide
  obtain ⟨root, hrun, -, hget, -⟩ := radix_tree_tags_refine (tag_and_grow 0 1) tag_and_grow_legal
  refine ⟨tag_and_grow_legal, hcarries, root, hrun, ?_⟩
  rw [hget, if_pos hcarries]

end LostWakeup.Lib.RadixTree
