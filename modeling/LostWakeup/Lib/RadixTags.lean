/-
# LostWakeup.Lib.RadixTags — tag bits along a path of the radix tree.

`Summary h bit tag s` says what the bit kept next to a slot must be: at the bottom it may only be set on an item, above it
repeats whether the child has any such bit.  The root's tag bit is the same bit for the root pointer; `carries` reads the
tag of an index from there.  `TagStep` is what an operation does to the bits, one level at a time; of the shape of the
tree, the tree without its tags (`strip`), `RadixTreeRefine` has said all.
-/
import LostWakeup.Lib.RadixTreeRefine

namespace LostWakeup.Lib.RadixTree

open Library
open Function (update update_of_ne update_self)

/-! ## Tag bits -/

theorem getLsbD_twoPow_slot (o p : Fin RADIX_TREE_MAP_SIZE) :
    (BitVec.twoPow 64 o).getLsbD p = decide (p = o) := by
  rw [BitVec.getLsbD_twoPow, decide_eq_true o.isLt, Bool.true_and]
  exact decide_eq_decide.mpr ⟨fun h => (Fin.ext h).symm, fun h => congrArg Fin.val h.symm⟩

@[simp] theorem tag_get_tag_set (n : Node Slot) (tag t : Tag) (o p : Fin RADIX_TREE_MAP_SIZE) :
    tag_get (tag_set n tag o) t p = (decide (t = tag ∧ p = o) || tag_get n t p) := by
  by_cases ht : t = tag
  · subst ht
    simp only [tag_get, tag_set, update_self, BitVec.getLsbD_or, getLsbD_twoPow_slot, true_and]
    exact Bool.or_comm _ _
  · simp [tag_get, tag_set, ht]

@[simp] theorem tag_get_tag_clear (n : Node Slot) (tag t : Tag) (o p : Fin RADIX_TREE_MAP_SIZE) :
    tag_get (tag_clear n tag o) t p = (tag_get n t p && !decide (t = tag ∧ p = o)) := by
  by_cases ht : t = tag
  · subst ht
    simp only [tag_get, tag_clear, update_self, BitVec.getLsbD_and, BitVec.getLsbD_not,
      getLsbD_twoPow_slot, true_and]
    rw [decide_eq_true p.isLt, Bool.true_and]
  · simp [tag_get, tag_clear, ht]

theorem any_tag_set_iff (n : Node Slot) (tag : Tag) :
    any_tag_set n tag = true ↔ ∃ o, tag_get n tag o = true := by
  constructor
  · intro hany
    by_contra hnone
    push Not at hnone
    apply (bne_iff_ne.mp hany)
    apply BitVec.eq_of_getLsbD_eq
    intro k hk
    simpa [tag_get] using hnone ⟨k, hk⟩
  · rintro ⟨o, ho⟩
    apply bne_iff_ne.mpr
    intro hzero
    simp [tag_get, hzero] at ho

theorem getLsbD_twoPow_root (tag t : Tag) :
    (BitVec.twoPow 32 (tag + GFP_BITS_SHIFT)).getLsbD (t + GFP_BITS_SHIFT) = decide (t = tag) := by
  revert tag t
  decide

@[simp] theorem root_tag_get_set (root : Root) (tag t : Tag) :
    root_tag_get (root_tag_set root tag) t = (decide (t = tag) || root_tag_get root t) := by
  simp only [root_tag_get, root_tag_set, BitVec.getLsbD_or, getLsbD_twoPow_root]
  exact Bool.or_comm _ _

@[simp] theorem root_tag_get_clear (root : Root) (tag t : Tag) :
    root_tag_get (root_tag_clear root tag) t = (root_tag_get root t && !decide (t = tag)) := by
  have hlt : ∀ t : Tag, t.val + GFP_BITS_SHIFT < 32 := by decide
  simp only [root_tag_get, root_tag_clear, BitVec.getLsbD_and, BitVec.getLsbD_not, getLsbD_twoPow_root]
  rw [decide_eq_true (hlt t), Bool.true_and]

@[simp] theorem root_tag_get_clear_all (root : Root) (t : Tag) :
    root_tag_get (root_tag_clear_all root) t = false := by
  have hmask : ∀ t : Tag, GFP_BITS_MASK.getLsbD (t + GFP_BITS_SHIFT) = false := by decide
  simp only [root_tag_get, root_tag_clear_all, BitVec.getLsbD_and, hmask, Bool.and_false]

/-! ## The tree without its tags -/

/-- A subtree of height `h` with every tag word cleared. -/
def strip : Nat → Slot → Slot
  | h + 1, .node n => .node { n with tags := fun _ => 0, slots := fun o => strip h (n.slots o) }
  | _, s => s

@[simp] theorem strip_null (h : Nat) : strip h .null = .null := by
  cases h <;> rfl

@[simp] theorem strip_zero (s : Slot) : strip 0 s = s := by
  cases s <;> rfl

@[simp] theorem present_strip (h : Nat) (s : Slot) : (strip h s).present = s.present := by
  cases h <;> cases s <;> rfl

@[simp] theorem strip_eq_null {h : Nat} {s : Slot} : strip h s = .null ↔ s = .null := by
  cases h <;> cases s <;> simp [strip]

theorem strip_update (h : Nat) (f : Fin RADIX_TREE_MAP_SIZE → Slot) (o : Fin RADIX_TREE_MAP_SIZE)
    (child : Slot) :
    (fun p => strip h (update f o child p))
      = update (fun p => strip h (f p)) o (strip h child) := by
  funext p
  by_cases hp : p = o
  · subst hp
    simp
  · simp [update_of_ne hp]

@[simp] theorem find_strip (i h : Nat) (s : Slot) : find i h (strip h s) = find i h s := by
  induction h generalizing s with
  | zero => rw [strip_zero]
  | succ h ih =>
    cases s with
    | null => rfl
    | item a => rfl
    | node n => exact ih _

theorem walk_strip (i h : Nat) (s : Slot) : walk i h (strip h s) = walk i h s := by
  induction h generalizing s with
  | zero => rw [strip_zero]
  | succ h ih =>
    cases s with
    | null => rfl
    | item a => rfl
    | node n => exact ih _

theorem wf_child {h : Nat} {n : Node Slot} (hwf : Wf (h + 1) (strip (h + 1) (.node n)))
    (o : Fin RADIX_TREE_MAP_SIZE) : n.slots o = .null ∨ Wf h (strip h (n.slots o)) := by
  have hchild := hwf.2.2.2.2 o
  simpa only [strip_eq_null] using hchild

/-! ## What a tag bit stands for -/

/-- Does the node behind a slot have any bit of the tag? -/
def tagged (tag : Tag) : Slot → Bool
  | .node n => any_tag_set n tag
  | _ => false

/-- The bit kept beside a slot with `h` levels below it is what it should be. -/
def Summary (h : Nat) (bit : Bool) (tag : Tag) (s : Slot) : Prop :=
  (h = 0 → bit = true → s.present = true) ∧ (h ≠ 0 → bit = tagged tag s)

/-- Every bit in a subtree of height `h` is what it should be. -/
def Exact : Nat → Slot → Prop
  | h + 1, .node n => ∀ o, Exact h (n.slots o) ∧ ∀ tag, Summary h (tag_get n tag o) tag (n.slots o)
  | _, _ => True

@[simp] theorem exact_null (h : Nat) : Exact h .null := by
  cases h <;> trivial

theorem Summary.null {h : Nat} {bit : Bool} {tag : Tag} (hs : Summary h bit tag .null) : bit = false := by
  by_cases hh : h = 0
  · have := hs.1 hh
    cases bit with
    | true => exact absurd (this rfl) (by decide)
    | false => rfl
  · exact hs.2 hh

theorem summary_null (h : Nat) (tag : Tag) : Summary h false tag .null :=
  ⟨fun _ hbit => absurd hbit (by decide), fun _ => rfl⟩

/-- The tag of `index`, seen from a slot with `h` levels below it and the bit beside that slot. -/
def carries (index : Nat) (tag : Tag) (h : Nat) (bit : Bool) (s : Slot) : Bool :=
  if h = 0 then bit else leafTag index tag h s

theorem carries_zero (i : Nat) (tag : Tag) (bit : Bool) (s : Slot) : carries i tag 0 bit s = bit := rfl

@[simp] theorem leafTag_null (i : Nat) (tag : Tag) (h : Nat) : leafTag i tag h .null = false := by
  cases h <;> rfl

theorem carries_node (i h : Nat) (tag : Tag) (bit : Bool) (n : Node Slot) :
    carries i tag (h + 1) bit (.node n)
      = carries i tag h (tag_get n tag (slotOffset i h)) (n.slots (slotOffset i h)) := by
  unfold carries
  rw [if_neg (Nat.succ_ne_zero h)]
  rfl

theorem carries_null {i h : Nat} {tag : Tag} {bit : Bool} (hs : Summary h bit tag .null) :
    carries i tag h bit .null = false := by
  rw [carries, hs.null, leafTag_null]
  split <;> rfl

theorem carries_congr {i j h : Nat} (hij : i % 64 ^ h = j % 64 ^ h) (tag : Tag) (bit : Bool) (s : Slot) :
    carries i tag h bit s = carries j tag h bit s := by
  induction h generalizing bit s with
  | zero => rfl
  | succ h ih =>
    obtain ⟨hoff, hmod⟩ := (mod_succ_eq_iff i j h).mp hij
    cases s with
    | null => rfl
    | item a => rfl
    | node n => rw [carries_node, carries_node, hoff, ih hmod]

/-- Only items carry tags. -/
theorem find_of_carries {i h : Nat} {tag : Tag} {bit : Bool} {s : Slot}
    (hwf : s = .null ∨ Wf h (strip h s)) (hexact : Exact h s) (hbit : Summary h bit tag s)
    (hc : carries i tag h bit s = true) : find i h s ≠ none := by
  rcases hwf with rfl | hwf
  · rw [carries_null hbit] at hc
    cases hc
  induction h generalizing bit s with
  | zero =>
    rw [strip_zero] at hwf
    cases s with
    | null => exact hwf.elim
    | item a => exact nofun
    | node n => exact hwf.elim
  | succ h ih =>
    cases s with
    | null => exact hwf.elim
    | item a => exact hwf.elim
    | node n =>
      rw [carries_node] at hc
      obtain ⟨hsub, hsum⟩ := hexact (slotOffset i h)
      rcases wf_child hwf (slotOffset i h) with hnull | hchild
      · rw [hnull] at hc
        rw [carries_null (by simpa [hnull] using hsum tag)] at hc
        cases hc
      · exact ih hsub (hsum tag) hc hchild

theorem exists_index (i h : Nat) (o : Fin RADIX_TREE_MAP_SIZE) :
    ∃ j, slotOffset j h = o ∧ j % 64 ^ h = i % 64 ^ h ∧ j < 64 ^ (h + 1) := by
  have hpos : 0 < 64 ^ h := Nat.pow_pos (by decide)
  have hmod := Nat.mod_lt i hpos
  have ho : o.val ≤ 63 := Nat.le_of_lt_succ o.isLt
  refine ⟨i % 64 ^ h + 64 ^ h * o, ?_, ?_, ?_⟩
  · rw [Fin.ext_iff, slotOffset_val, Nat.add_mul_div_left _ _ hpos, Nat.div_eq_of_lt hmod,
      Nat.zero_add, Nat.mod_eq_of_lt o.isLt]
  · rw [Nat.add_mul_mod_self_left, Nat.mod_mod]
  · have hmul : 64 ^ h * o.val ≤ 64 ^ h * 63 := Nat.mul_le_mul_left _ ho
    rw [Nat.pow_succ]
    omega

/-- **A tag bit is set iff some index below carries the tag.** -/
theorem bit_iff_carries {h : Nat} {tag : Tag} {bit : Bool} {s : Slot} (hwf : s = .null ∨ Wf h (strip h s))
    (hexact : Exact h s) (hbit : Summary h bit tag s) :
    bit = true ↔ ∃ j, j < 64 ^ h ∧ carries j tag h bit s = true := by
  induction h generalizing bit s with
  | zero => exact ⟨fun hb => ⟨0, by simp, hb⟩, fun ⟨_, _, hb⟩ => hb⟩
  | succ h ih =>
    rcases hwf with rfl | hwf
    · rw [hbit.null]
      refine ⟨fun hb => absurd hb (by decide), fun ⟨j, _, hc⟩ => ?_⟩
      exact absurd hc (by rw [carries_null (summary_null _ _)]; decide)
    cases s with
    | null => exact hwf.elim
    | item a => exact hwf.elim
    | node n =>
      rw [hbit.2 (Nat.succ_ne_zero h)]
      show any_tag_set n tag = true ↔ _
      rw [any_tag_set_iff]
      -- a bit of the node is a bit beside one of its slots
      constructor
      · rintro ⟨o, ho⟩
        obtain ⟨hsub, hsum⟩ := hexact o
        obtain ⟨j, -, hj⟩ := (ih (wf_child hwf o) hsub (hsum tag)).mp ho
        obtain ⟨k, hoff, hmod, hlt⟩ := exists_index j h o
        refine ⟨k, hlt, ?_⟩
        rw [carries_node, hoff, carries_congr hmod]
        exact hj
      · rintro ⟨j, -, hj⟩
        rw [carries_node] at hj
        obtain ⟨hsub, hsum⟩ := hexact (slotOffset j h)
        refine ⟨slotOffset j h, (ih (wf_child hwf _) hsub (hsum tag)).mpr ?_⟩
        refine ⟨j % 64 ^ h, Nat.mod_lt _ (Nat.pow_pos (by decide)), ?_⟩
        rw [carries_congr (Nat.mod_mod j _)]
        exact hj

/-! ## Changing one slot of a node -/

theorem any_tag_set_congr {n n' : Node Slot} {tag : Tag} (h : ∀ o, tag_get n' tag o = tag_get n tag o) :
    any_tag_set n' tag = any_tag_set n tag := by
  rw [Bool.eq_iff_iff, any_tag_set_iff, any_tag_set_iff]
  exact exists_congr fun o => by rw [h o]

theorem strip_node_eq {h : Nat} {n n' : Node Slot} (hheight : n'.height = n.height)
    (hcount : n'.count = n.count) (hslots : ∀ o, strip h (n'.slots o) = strip h (n.slots o)) :
    strip (h + 1) (.node n') = strip (h + 1) (.node n) := by
  show Slot.node _ = Slot.node _
  rw [hheight, hcount, funext hslots]

/-- An operation on the path of `i` turns the slot `s` with the bits `bits` beside it into `s'` with
`bits'`: the new bits are right, the tags of `i` change by `E` and no other index notices. -/
structure TagStep (i h : Nat) (E : Tag → Bool → Bool) (bits bits' : Tag → Bool) (s s' : Slot) : Prop where
  summary : ∀ t, Summary h (bits' t) t s'
  carries : ∀ j t, carries j t h (bits' t) s'
    = if j % 64 ^ h = i % 64 ^ h then E t (carries j t h (bits t) s) else carries j t h (bits t) s

section Update

variable {i h : Nat} {n : Node Slot} {child : Slot} {E : Tag → Bool → Bool}

theorem strip_update_same {n : Node Slot} {o : Fin RADIX_TREE_MAP_SIZE}
    (hstrip : strip h child = strip h (n.slots o)) (p : Fin RADIX_TREE_MAP_SIZE) :
    strip h (update n.slots o child p) = strip h (n.slots p) := by
  by_cases hp : p = o
  · subst hp
    rw [update_self, hstrip]
  · rw [update_of_ne hp]

/-- A node whose child on the path took a step has taken one. -/
theorem TagStep.node (n' : Node Slot) (hexact : Exact (h + 1) (.node n))
    (hslots : n'.slots = update n.slots (slotOffset i h) child) (hchild : Exact h child)
    (hother : ∀ t p, p ≠ slotOffset i h → tag_get n' t p = tag_get n t p)
    (hstep : TagStep i h E (fun t => tag_get n t (slotOffset i h))
      (fun t => tag_get n' t (slotOffset i h)) (n.slots (slotOffset i h)) child) :
    Exact (h + 1) (.node n') ∧ ∀ bits bits' : Tag → Bool, (∀ t, bits' t = any_tag_set n' t) →
      TagStep i (h + 1) E bits bits' (.node n) (.node n') := by
  refine ⟨fun p => ?_, fun bits bits' hbits =>
    ⟨fun t => ⟨fun hzero => absurd hzero (Nat.succ_ne_zero h), fun _ => hbits t⟩, fun j t => ?_⟩⟩
  · rw [hslots]
    by_cases hp : p = slotOffset i h
    · subst hp
      rw [update_self]
      exact ⟨hchild, hstep.summary⟩
    rw [update_of_ne hp]
    refine ⟨(hexact p).1, fun t => ?_⟩
    rw [hother t p hp]
    exact (hexact p).2 t
  · rw [carries_node, carries_node, hslots]
    simp only [mod_succ_eq_iff]
    by_cases hoff : slotOffset j h = slotOffset i h
    · rw [hoff, update_self]
      simp only [true_and]
      exact hstep.carries j t
    · rw [update_of_ne hoff, hother t _ hoff]
      simp only [hoff, false_and, if_false]

end Update

theorem wf_child_of_find {i h : Nat} {n : Node Slot} (hwf : Wf (h + 1) (strip (h + 1) (.node n)))
    (hfind : find i (h + 1) (.node n) ≠ none) : Wf h (strip h (n.slots (slotOffset i h))) := by
  refine (wf_child hwf _).resolve_left fun hnull => hfind ?_
  simp [find, hnull]

/-! ## Setting a tag along a path -/

theorem tagSetPath_spec {i h : Nat} (tag : Tag) {s : Slot} (hwf : Wf h (strip h s)) (hexact : Exact h s)
    (hfind : find i h s ≠ none) :
    ∃ s', tagSetPath i tag h s = .ok (s', toSlot (find i h s)) ∧ strip h s' = strip h s ∧ Exact h s' ∧
      ∀ bits : Tag → Bool, (∀ t, Summary h (bits t) t s) →
        TagStep i h (fun t x => x || decide (t = tag)) bits (fun t => bits t || decide (t = tag)) s s' := by
  induction h generalizing s with
  | zero =>
    rw [strip_zero] at hwf
    cases s with
    | null => exact hwf.elim
    | node n => exact hwf.elim
    | item a =>
      refine ⟨.item a, rfl, rfl, trivial, fun bits _ => ⟨fun t => ⟨fun _ _ => rfl, fun h => absurd rfl h⟩, ?_⟩⟩
      intro j t
      simp [carries_zero, Nat.mod_one]
  | succ h ih =>
    cases s with
    | null => exact hwf.elim
    | item a => exact hwf.elim
    | node n =>
      have hchild := wf_child_of_find hwf hfind
      obtain ⟨hsub, hsum⟩ := hexact (slotOffset i h)
      obtain ⟨child, hrun, hstrip, hexact', hsteps⟩ := ih hchild hsub hfind
      have hstep := hsteps (fun t => tag_get n t (slotOffset i h)) hsum
      -- the node with its own bit set, whether it was before or not
      obtain ⟨n₁, hn₁⟩ : ∃ n₁, n₁ = if tag_get n tag (slotOffset i h) = true then n
        else tag_set n tag (slotOffset i h) := ⟨_, rfl⟩
      have hsame : n₁.slots = n.slots ∧ n₁.height = n.height ∧ n₁.count = n.count := by
        rw [hn₁]
        split <;> exact ⟨rfl, rfl, rfl⟩
      have hget : ∀ t p, tag_get n₁ t p = (tag_get n t p || decide (t = tag ∧ p = slotOffset i h)) := by
        intro t p
        rw [hn₁]
        split
        · next hset =>
          by_cases htp : t = tag ∧ p = slotOffset i h
          · rw [htp.1, htp.2, hset, Bool.true_or]
          · simp [htp]
        · rw [tag_get_tag_set, Bool.or_comm]
      have hpresent : (n₁.slots (slotOffset i h)).present = true := by
        rw [hsame.1, ← present_strip h]
        exact hchild.present
      obtain ⟨n', hn'⟩ : ∃ n', n' = { n₁ with slots := update n.slots (slotOffset i h) child } :=
        ⟨_, rfl⟩
      have hget' : ∀ t p, tag_get n' t p = (tag_get n t p || decide (t = tag ∧ p = slotOffset i h)) := by
        rw [hn']
        exact hget
      have hstep' : TagStep i h (fun t x => x || decide (t = tag))
          (fun t => tag_get n t (slotOffset i h)) (fun t => tag_get n' t (slotOffset i h))
          (n.slots (slotOffset i h)) child := by
        simpa only [hget', and_true] using hstep
      obtain ⟨hexact₁, hnode⟩ := TagStep.node n' hexact (by rw [hn']) hexact'
        (fun t p hp => by simp [hget', hp]) hstep'
      refine ⟨.node n', ?_, ?_, hexact₁, fun bits hbits => hnode _ _ fun t => ?_⟩
      · simp only [tagSetPath, ← hn₁, assert, if_pos hpresent, bind, Except.bind]
        rw [hsame.1, hrun, hn']
        rfl
      · refine strip_node_eq (by rw [hn']; exact hsame.2.1) (by rw [hn']; exact hsame.2.2) fun p => ?_
        rw [hn']
        exact strip_update_same hstrip p
      · by_cases ht : t = tag
        · rw [decide_eq_true ht, Bool.or_true, eq_comm, any_tag_set_iff]
          exact ⟨slotOffset i h, by simp [hget', ht]⟩
        · rw [decide_eq_false ht, Bool.or_false, (hbits t).2 (Nat.succ_ne_zero h)]
          exact (any_tag_set_congr fun p => by simp [hget', ht]).symm

/-! ## Clearing a tag along a path -/

theorem tagClearPath_spec {i h : Nat} (tag : Tag) {s : Slot} (hwf : Wf h (strip h s)) (hexact : Exact h s)
    (hfind : find i h s ≠ none) :
    ∃ s' up, tagClearPath i tag h s = .ok (some (s', up)) ∧ strip h s' = strip h s ∧ Exact h s' ∧
      ∀ bits : Tag → Bool, (∀ t, Summary h (bits t) t s) →
        TagStep i h (fun t x => x && !decide (t = tag)) bits
          (fun t => bits t && !decide (up = true ∧ t = tag)) s s' := by
  induction h generalizing s with
  | zero =>
    rw [strip_zero] at hwf
    cases s with
    | null => exact hwf.elim
    | node n => exact hwf.elim
    | item a =>
      refine ⟨.item a, true, rfl, rfl, trivial, fun bits _ => ⟨fun t => ⟨fun _ _ => rfl, fun h => absurd rfl h⟩, ?_⟩⟩
      intro j t
      simp [carries_zero, Nat.mod_one]
  | succ h ih =>
    cases s with
    | null => exact hwf.elim
    | item a => exact hwf.elim
    | node n =>
      have hchild := wf_child_of_find hwf hfind
      obtain ⟨hsub, hsum⟩ := hexact (slotOffset i h)
      obtain ⟨child, up, hrun, hstrip, hexact', hsteps⟩ := ih hchild hsub hfind
      have hstep := hsteps (fun t => tag_get n t (slotOffset i h)) hsum
      obtain ⟨n₁, hn₁⟩ : ∃ n₁, n₁ = { n with slots := update n.slots (slotOffset i h) child } :=
        ⟨_, rfl⟩
      have hget₁ : ∀ t p, tag_get n₁ t p = tag_get n t p := by
        rw [hn₁]
        exact fun t p => rfl
      have hstrip₁ : strip (h + 1) (.node n₁) = strip (h + 1) (.node n) := by
        rw [hn₁]
        exact strip_node_eq rfl rfl fun p => strip_update_same hstrip p
      simp only [tagClearPath, hrun, bind, Except.bind, ← hn₁]
      by_cases hup : up = true ∧ tag_get n₁ tag (slotOffset i h) = true
      · -- the node clears its bit; the level above has to as well if that was the last one
        rw [if_pos hup]
        have hget : ∀ t p, tag_get (tag_clear n₁ tag (slotOffset i h)) t p
            = (tag_get n t p && !decide (t = tag ∧ p = slotOffset i h)) := by
          intro t p
          rw [tag_get_tag_clear, hget₁]
        have hstep' : TagStep i h (fun t x => x && !decide (t = tag))
            (fun t => tag_get n t (slotOffset i h))
            (fun t => tag_get (tag_clear n₁ tag (slotOffset i h)) t (slotOffset i h))
            (n.slots (slotOffset i h)) child := by
          simpa only [hget, hup.1, true_and, and_true] using hstep
        obtain ⟨hexact₁, hnode⟩ := TagStep.node (tag_clear n₁ tag (slotOffset i h)) hexact
          (by rw [hn₁]; rfl) hexact' (fun t p hp => by simp [hget, hp]) hstep'
        refine ⟨_, _, rfl, hstrip₁, hexact₁, fun bits hbits => hnode _ _ fun t => ?_⟩
        rw [(hbits t).2 (Nat.succ_ne_zero h)]
        show (any_tag_set n t && _) = _
        by_cases ht : t = tag
        · subst ht
          have hany : any_tag_set n t = true := (any_tag_set_iff n t).mpr ⟨_, by rw [← hget₁]; exact hup.2⟩
          rw [hany]
          cases any_tag_set (tag_clear n₁ t (slotOffset i h)) t <;> simp
        · have hsame : any_tag_set (tag_clear n₁ tag (slotOffset i h)) t = any_tag_set n t :=
            any_tag_set_congr fun p => by simp [hget, ht]
          simp [hsame, ht]
      · rw [if_neg hup]
        have hstep' : TagStep i h (fun t x => x && !decide (t = tag))
            (fun t => tag_get n t (slotOffset i h)) (fun t => tag_get n₁ t (slotOffset i h))
            (n.slots (slotOffset i h)) child := by
          refine Eq.mp (congrArg (fun b => TagStep i h _ _ b _ _) (funext fun t => ?_)) hstep
          rw [hget₁]
          by_cases ht : up = true ∧ t = tag
          · -- nothing to clear: the bit is not set
            have hoff : tag_get n t (slotOffset i h) = false := by
              rw [ht.2, ← hget₁]
              simpa [ht.1] using hup
            rw [hoff, Bool.false_and]
          · simp [ht]
        obtain ⟨hexact₁, hnode⟩ := TagStep.node n₁ hexact (by rw [hn₁]) hexact'
          (fun t p _ => hget₁ t p) hstep'
        refine ⟨_, _, rfl, hstrip₁, hexact₁, fun bits hbits => hnode _ _ fun t => ?_⟩
        rw [(hbits t).2 (Nat.succ_ne_zero h), any_tag_set_congr (n := n) (hget₁ t)]
        show (any_tag_set n t && _) = _
        simp

/-! ## Insertion and deletion along a path -/

theorem tag_get_alloc (h : Nat) (t : Tag) (o : Fin RADIX_TREE_MAP_SIZE) :
    tag_get (radix_tree_node_alloc h) t o = false := by
  simp [tag_get, radix_tree_node_alloc]

/-- The node at a level, there already or allocated: its tags are those of the slot. -/
theorem nodeOrAlloc_exact {h : Nat} {s : Slot} {n₀ : Node Slot} (hexact : Exact (h + 1) s)
    (hrun : nodeOrAlloc (h + 1) (strip (h + 1) s) = .ok n₀) :
    ∃ n, nodeOrAlloc (h + 1) s = .ok n ∧ Exact (h + 1) (.node n) ∧ strip (h + 1) (.node n) = .node n₀ ∧
      (∀ t, any_tag_set n t = tagged t s) ∧
      ∀ j t bit, carries j t (h + 1) bit (.node n) = carries j t (h + 1) bit s := by
  cases s with
  | null =>
    have hn₀ : radix_tree_node_alloc (h + 1) = n₀ := Except.ok.inj hrun
    have hsum : ∀ t o, Summary h (tag_get (radix_tree_node_alloc (h + 1)) t o) t .null := by
      intro t o
      rw [tag_get_alloc]
      exact summary_null h t
    refine ⟨_, rfl, fun o => ⟨exact_null h, fun t => hsum t o⟩, ?_, fun t => rfl, fun j t bit => ?_⟩
    · rw [← hn₀]
      show Slot.node _ = Slot.node _
      simp [radix_tree_node_alloc]
    · rw [carries_node]
      exact carries_null (hsum t _)
  | item a => cases hrun
  | node n => exact ⟨n, rfl, hexact, congrArg Slot.node (Except.ok.inj hrun), fun _ => rfl, fun _ _ _ => rfl⟩

/-- An insertion that the bare subtree takes is taken by the subtree, and no tag changes. -/
theorem insertPath_of_strip {i h : Nat} {a : BitVec 64} {s : Slot} {r : Option Slot} (hexact : Exact h s)
    (hrun : insertPath i a h (strip h s) = .ok r) :
    ∃ r', insertPath i a h s = .ok r' ∧ r'.map (strip h) = r ∧ ∀ s', r' = some s' → Exact h s' ∧
      ∀ bits : Tag → Bool, (∀ t, Summary h (bits t) t s) → TagStep i h (fun _ x => x) bits bits s s' := by
  induction h generalizing s r with
  | zero =>
    rw [strip_zero] at hrun
    refine ⟨r, hrun, by cases r <;> simp, fun s' hs' => ?_⟩
    subst hs'
    cases s with
    | null =>
      cases hrun
      exact ⟨trivial, fun bits _ =>
        ⟨fun t => ⟨fun _ _ => rfl, fun h => absurd rfl h⟩, fun j t => (ite_self _).symm⟩⟩
    | item b => cases hrun
    | node n => cases hrun
  | succ h ih =>
    simp only [insertPath, bind, Except.bind] at hrun ⊢
    cases hn₀ : nodeOrAlloc (h + 1) (strip (h + 1) s) with
    | error e =>
      rw [hn₀] at hrun
      cases hrun
    | ok n₀ =>
      obtain ⟨n, hn, hexactn, hstrip, htagged, hcarries⟩ := nodeOrAlloc_exact hexact hn₀
      have hn₀' : n₀ = { n with tags := fun _ => 0, slots := fun o => strip h (n.slots o) } :=
        (Slot.node.inj hstrip).symm
      rw [hn₀] at hrun
      simp only [hn₀'] at hrun
      rw [hn]
      simp only
      obtain ⟨hsub, hsum⟩ := hexactn (slotOffset i h)
      cases hchild : insertPath i a h (strip h (n.slots (slotOffset i h))) with
      | error e =>
        rw [hchild] at hrun
        cases hrun
      | ok r₀ =>
        obtain ⟨r₁, hrun₁, hmap, hstep⟩ := ih hsub hchild
        rw [hchild] at hrun
        rw [hrun₁]
        cases r₁ with
        | none =>
          subst hmap
          cases hrun
          exact ⟨none, rfl, rfl, fun s' hs' => by cases hs'⟩
        | some child =>
          subst hmap
          -- the slot was empty, so the last node carries no tag for it
          have hnotag : h = 0 → tag_get n 0 (slotOffset i h) = false ∧ tag_get n 1 (slotOffset i h) = false := by
            rintro rfl
            have hnull : n.slots (slotOffset i 0) = .null := by
              cases hs : n.slots (slotOffset i 0) with
              | null => rfl
              | item b =>
                rw [hs] at hrun₁
                cases hrun₁
              | node m =>
                rw [hs] at hrun₁
                cases hrun₁
            rw [hnull] at hsum
            exact ⟨(hsum 0).null, (hsum 1).null⟩
          have hzero : h = 0 → tag_get { n with
              tags := fun _ => 0, slots := fun o => strip h (n.slots o) } 0 (slotOffset i h) = false ∧
              tag_get { n with tags := fun _ => 0, slots := fun o => strip h (n.slots o) } 1
                (slotOffset i h) = false := by
            simp [tag_get]
          simp only [assert, Option.map_some, if_pos hzero, present_strip] at hrun
          simp only [assert, if_pos hnotag]
          refine ⟨_, rfl, ?_, fun s' hs' => ?_⟩
          · rw [← Except.ok.inj hrun, Option.map_some]
            simp only [strip, strip_update]
          obtain ⟨hexact', hbits⟩ := hstep child rfl
          obtain ⟨hexact₁, hnode⟩ := TagStep.node { n with
              count := if (n.slots (slotOffset i h)).present = true then n.count else n.count + 1
              slots := update n.slots (slotOffset i h) child } hexactn rfl hexact'
            (fun t p _ => rfl) (hbits (fun t => tag_get n t (slotOffset i h)) hsum)
          cases hs'
          refine ⟨hexact₁, fun bits hsums => ?_⟩
          obtain ⟨hsummary, hc⟩ := hnode bits bits fun t => by
            rw [(hsums t).2 (Nat.succ_ne_zero h), ← htagged t]
            rfl
          refine ⟨hsummary, fun j t => ?_⟩
          rw [hc j t, hcarries]

/-- What a removal leaves, without its tags. -/
def Removal.strip (h : Nat) : Removal → Removal
  | .absent => .absent
  | .emptied item => .emptied item
  | .kept item s here => .kept item (RadixTree.strip h s) here

theorem deletePath_strip (i h : Nat) (s : Slot) :
    deletePath i h (strip h s) = (deletePath i h s).map (Removal.strip h) := by
  induction h generalizing s with
  | zero => cases s <;> rfl
  | succ h ih =>
    cases s with
    | null => rfl
    | item a => rfl
    | node n =>
      simp only [strip, deletePath, ih, bind, Except.bind]
      cases deletePath i h (n.slots (slotOffset i h)) with
      | error e => rfl
      | ok r =>
        cases r with
        | absent => rfl
        | emptied item =>
          simp only [Except.map, Removal.strip, pure, Except.pure]
          split
          · simp only [RadixTree.strip, strip_update, strip_null]
          · rfl
        | kept item child here =>
          simp only [Except.map, Removal.strip, pure, Except.pure, RadixTree.strip, strip_update]

section Bits

variable {h : Nat} {s : Slot} {t : Tag} (hwf : s = .null ∨ Wf h (strip h s)) (hexact : Exact h s)

include hwf hexact

theorem carries_of_bit_false (hbit : Summary h false t s) (j : Nat) : carries j t h false s = false := by
  rw [Bool.eq_false_iff]
  intro hc
  have hset := (bit_iff_carries hwf hexact hbit).mpr ⟨j % 64 ^ h, Nat.mod_lt _ (Nat.pow_pos (by decide)), by
    rw [carries_congr (Nat.mod_mod j _)]
    exact hc⟩
  cases hset

theorem bit_false_of_alone {i : Nat} {bit : Bool} (hbit : Summary h bit t s)
    (hclear : carries i t h bit s = false)
    (halone : ∀ j, j % 64 ^ h ≠ i % 64 ^ h → find j h s = none) : bit = false := by
  rw [Bool.eq_false_iff]
  intro hset
  obtain ⟨j, -, hj⟩ := (bit_iff_carries hwf hexact hbit).mp hset
  by_cases hji : j % 64 ^ h = i % 64 ^ h
  · rw [carries_congr hji, hclear] at hj
    cases hj
  · exact find_of_carries hwf hexact hbit hj (halone j hji)

end Bits

theorem alone_of_emptied {i h : Nat} {a : BitVec 64} {s : Slot} {item : Slot} (hwf : Wf h (strip h s))
    (hfind : find i h s = some a) (hrun : deletePath i h s = .ok (.emptied item)) :
    ∀ j, j % 64 ^ h ≠ i % 64 ^ h → find j h s = none := by
  rcases deletePath_present hwf (by rwa [find_strip]) with ⟨-, halone⟩ | ⟨s', here, hkept, -⟩
  · simpa only [find_strip] using halone
  · rw [deletePath_strip, hrun] at hkept
    cases hkept

/-- Unlinking an untagged item changes no tag. -/
theorem deletePath_tags {i h : Nat} {a : BitVec 64} {s s' item : Slot} {here : Bool} {bits : Tag → Bool}
    (hwf : Wf h (strip h s)) (hexact : Exact h s) (hfind : find i h s = some a)
    (hsums : ∀ t, Summary h (bits t) t s) (hclear : ∀ t, carries i t h (bits t) s = false)
    (hrun : deletePath i h s = .ok (.kept item s' here)) :
    Exact h s' ∧ TagStep i h (fun _ x => x) bits bits s s' := by
  induction h generalizing s s' here bits with
  | zero => cases s <;> cases hrun
  | succ h ih =>
    cases s with
    | null => cases hrun
    | item b => cases hrun
    | node n =>
      have hchild : Wf h (strip h (n.slots (slotOffset i h))) :=
        wf_child_of_find hwf (by rw [hfind]; exact Option.some_ne_none a)
      obtain ⟨hsub, hsum⟩ := hexact (slotOffset i h)
      have hclear' : ∀ t, carries i t h (tag_get n t (slotOffset i h)) (n.slots (slotOffset i h)) = false := by
        intro t
        rw [← carries_node]
        exact hclear t
      simp only [deletePath, bind, Except.bind] at hrun
      cases hrun₁ : deletePath i h (n.slots (slotOffset i h)) with
      | error e =>
        rw [hrun₁] at hrun
        cases hrun
      | ok r =>
        rw [hrun₁] at hrun
        cases r with
        | absent => cases hrun
        | emptied item₁ =>
          -- the whole subtree goes, and none of its items carried a tag
          have hbits : ∀ t, tag_get n t (slotOffset i h) = false := fun t =>
            bit_false_of_alone (.inr hchild) hsub (hsum t) (hclear' t) (alone_of_emptied hchild hfind hrun₁)
          have hstep : TagStep i h (fun _ x => x) (fun t => tag_get n t (slotOffset i h))
              (fun t => tag_get n t (slotOffset i h)) (n.slots (slotOffset i h)) .null := by
            refine ⟨fun t => ?_, fun j t => ?_⟩
            · rw [hbits]
              exact summary_null h t
            · have hlow := hsum t
              rw [hbits] at hlow ⊢
              rw [ite_self, carries_null (summary_null h t), carries_of_bit_false (.inr hchild) hsub hlow]
          simp only [pure, Except.pure] at hrun
          split at hrun
          · cases hrun
            obtain ⟨hexact₁, hnode⟩ := TagStep.node { n with
              slots := update n.slots (slotOffset i h) .null, count := n.count - 1 } hexact rfl
              (exact_null h) (fun t p _ => rfl) hstep
            exact ⟨hexact₁, hnode bits bits fun t => (hsums t).2 (Nat.succ_ne_zero h)⟩
          · cases hrun
        | kept item₁ child here₁ =>
          cases hrun
          obtain ⟨hexact', hstep⟩ := ih hchild hsub hfind hsum hclear' hrun₁
          obtain ⟨hexact₁, hnode⟩ := TagStep.node { n with
            slots := update n.slots (slotOffset i h) child } hexact rfl hexact'
            (fun t p _ => rfl) hstep
          exact ⟨hexact₁, hnode bits bits fun t => (hsums t).2 (Nat.succ_ne_zero h)⟩

end LostWakeup.Lib.RadixTree
