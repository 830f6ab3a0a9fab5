/-
# LostWakeup.Lib.GangLookup — `radix_tree_general_gang_lookup_elements`: reading a radix tree in order.

A batch is one descent to a node of the lowest level.  On the way down it steps over empty slots, each time to the first
index of the next one, and where a node has nothing more to give it ends with the first index past that node.  With a
tag a slot counts when its tag bit is set, without one when it is not `NULL`.
-/
import Mathlib.Data.List.Range
import LostWakeup.Lib.RadixTagsRefine

namespace LostWakeup.Lib.RadixTree

open Library

/-! ## The lookup -/

def UINT64_MAX : Nat := 2 ^ 64 - 1

/-- What the callback is given: the index and what its slot holds. -/
abbrev Call := Nat × Slot

/-- The test of a slot on the way down; `none` is the tag `-1`. -/
def passable (n : Node Slot) (tag : Option Tag) (i : Fin RADIX_TREE_MAP_SIZE) : Bool :=
  match tag with
  | some tag => tag_get n tag i
  | none => (n.slots i).present

/-- How the search for a slot in a node ends. -/
inductive Skip
  | found (i : Fin RADIX_TREE_MAP_SIZE) (index : Nat)
  | out (index : Nat)

/-- The loop `for (;;)` at a node, from slot `i` on. -/
def skipEmpty (n : Node Slot) (tag : Option Tag) (shift : Nat) : Nat → Nat → Nat → Skip
  | 0, _, index => .out index
  | fuel + 1, i, index =>
    if hi : i < RADIX_TREE_MAP_SIZE then
      if passable n tag ⟨i, hi⟩ then
        .found ⟨i, hi⟩ index
      else
        let index := add64 (index / 2 ^ shift * 2 ^ shift) (2 ^ shift)
        if index = 0 then .out index
        else if i + 1 = RADIX_TREE_MAP_SIZE then .out index
        else skipEmpty n tag shift fuel (i + 1) index
    else .out index

/-- The loop over the slots of a node of the lowest level. -/
def grabItems (n : Node Slot) (tag : Option Tag) (max_items : Nat) : Nat → Nat → Nat → List Call → List Call × Nat
  | 0, _, index, calls => (calls, index)
  | fuel + 1, i, index, calls =>
    if hi : i < RADIX_TREE_MAP_SIZE then
      let index := add64 index 1
      if tag.isSome ∧ passable n tag ⟨i, hi⟩ = false then
        grabItems n tag max_items fuel (i + 1) index calls
      else if (n.slots ⟨i, hi⟩).present then
        let calls := calls ++ [(sub64 index 1, n.slots ⟨i, hi⟩)]
        if calls.length = max_items then (calls, index) else grabItems n tag max_items fuel (i + 1) index calls
      else
        grabItems n tag max_items fuel (i + 1) index calls
    else (calls, index)

/-- The descent of `radix_tree_lookup_batch_elements`: the calls, and `*next_index`.  With a tag the lowest node is
searched once more. -/
def batchFrom (tag : Option Tag) (max_items : Nat) : Nat → Slot → Nat → Except Panic (List Call × Nat)
  | 0, _, index => .ok ([], index)
  | 1, .node n, index =>
    if tag.isSome then
      match skipEmpty n tag 0 RADIX_TREE_MAP_SIZE (slotOffset index 0) index with
      | .out index => .ok ([], index)
      | .found _ index => .ok (grabItems n tag max_items RADIX_TREE_MAP_SIZE (slotOffset index 0) index [])
    else
      .ok (grabItems n tag max_items RADIX_TREE_MAP_SIZE (slotOffset index 0) index [])
  | h + 2, .node n, index =>
    match skipEmpty n tag ((h + 1) * RADIX_TREE_MAP_SHIFT) RADIX_TREE_MAP_SIZE (slotOffset index (h + 1)) index with
    | .out index => .ok ([], index)
    | .found i index =>
      if (n.slots i).present then batchFrom tag max_items (h + 1) (n.slots i) index else .ok ([], index)
  | _, _, _ => .error .bad_pointer

def radix_tree_lookup_batch_elements (n : Node Slot) (index max_items : Nat) (tag : Option Tag) :
    Except Panic (List Call × Nat) :=
  batchFrom tag max_items n.height (.node n) index

/-- The loop `while (ret < max_items)`; `calls` are the calls made so far. -/
def gangLoop (n : Node Slot) (max_items max_index : Nat) (tag : Option Tag) : Nat → Nat → List Call → Except Panic (List Call)
  | 0, _, _ => .error .out_of_fuel
  | fuel + 1, cur_index, calls =>
    if calls.length < max_items then
      if cur_index > max_index then
        .ok calls
      else do
        let (found, next_index) ← radix_tree_lookup_batch_elements n cur_index (max_items - calls.length) tag
        let calls := calls ++ found
        if next_index = 0 then return calls
        if max_items ≠ UINT64_MAX then return calls
        gangLoop n max_items max_index tag fuel next_index calls
    else .ok calls

/-- `radix_tree_general_gang_lookup_elements`: the calls it makes, and its return value. -/
def radix_tree_general_gang_lookup_elements (fuel : Nat) (root : Root) (first_index max_items : Nat) (tag : Option Tag) :
    Except Panic (List Call × Nat) := do
  if tag.any fun tag => root_tag_get root tag = false then
    return ([], 0)
  else if root.rnode.present = false then
    return ([], 0)
  else if root.indirect = false then
    if first_index > 0 then return ([], 0) else return ([(0, root.rnode)], 1)
  else
    match root.rnode with
    | .node n => do
      let max_index ← radix_tree_maxindex n.height
      let calls ← gangLoop n max_items max_index tag fuel first_index []
      return (calls, calls.length)
    | _ => .error .bad_pointer

/-! ## A map read in order -/

/-- The entries of a map from `lo` up to `hi`. -/
def entries (f : Nat → Option Slot) (lo hi : Nat) : List Call :=
  (List.range' lo (hi - lo)).filterMap fun j => (f j).map fun s => (j, s)

section

variable {f g : Nat → Option Slot} {lo mid hi : Nat}

theorem entries_append (hlo : lo ≤ mid) (hhi : mid ≤ hi) : entries f lo hi = entries f lo mid ++ entries f mid hi := by
  have hsplit : List.range' lo (hi - lo) = List.range' lo (mid - lo) ++ List.range' mid (hi - mid) := by
    have happend := @List.range'_append_1 lo (mid - lo) (hi - mid)
    rw [show lo + (mid - lo) = mid by omega, show mid - lo + (hi - mid) = hi - lo by omega] at happend
    exact happend.symm
  rw [entries, hsplit, List.filterMap_append]
  rfl

theorem entries_congr (h : ∀ j, lo ≤ j → j < hi → f j = g j) : entries f lo hi = entries g lo hi := by
  refine List.filterMap_congr fun j hj => ?_
  obtain ⟨hj₁, hj₂⟩ := List.mem_range'_1.mp hj
  rw [h j hj₁ (by omega)]

theorem entries_none (h : ∀ j, lo ≤ j → j < hi → f j = none) : entries f lo hi = [] := by
  rw [entries_congr h]
  exact List.filterMap_eq_nil_iff.mpr fun _ _ => rfl

theorem entries_succ (lo : Nat) : entries f lo (lo + 1) = ((f lo).map fun s => (lo, s)).toList := by
  rw [entries, Nat.add_sub_cancel_left, List.range'_one, List.filterMap_cons, List.filterMap_nil]
  cases f lo <;> rfl

theorem mem_entries {c : Call} : c ∈ entries f lo hi ↔ lo ≤ c.1 ∧ c.1 < hi ∧ f c.1 = some c.2 := by
  rw [entries, List.mem_filterMap]
  constructor
  · rintro ⟨j, hj, hc⟩
    obtain ⟨s, hs, rfl⟩ := Option.map_eq_some_iff.mp hc
    obtain ⟨hj₁, hj₂⟩ := List.mem_range'_1.mp hj
    exact ⟨hj₁, by dsimp only; omega, hs⟩
  · rintro ⟨h₁, h₂, hs⟩
    exact ⟨c.1, List.mem_range'_1.mpr ⟨h₁, by omega⟩, by rw [hs]; rfl⟩

theorem entries_sorted (f : Nat → Option Slot) (lo hi : Nat) : (entries f lo hi).Pairwise fun c d => c.1 < d.1 := by
  refine List.Pairwise.filterMap _ (R := (· < ·)) ?_ (@List.pairwise_lt_range' lo (hi - lo) 1 Nat.one_pos)
  intro i j hij c hc d hd
  obtain ⟨s, -, rfl⟩ := Option.map_eq_some_iff.mp hc
  obtain ⟨s', -, rfl⟩ := Option.map_eq_some_iff.mp hd
  exact hij

theorem length_entries_le : (entries f lo hi).length ≤ hi - lo := by
  refine (List.length_filterMap_le _ _).trans ?_
  rw [List.length_range']

end

/-! ## What is wanted of a subtree -/

/-- The item at an index, if it is there and, with a tag, carries it; `bit` is the tag bit beside the subtree. -/
def wantedAt (tag : Option Tag) (h : Nat) (bit : Tag → Bool) (s : Slot) (j : Nat) : Option Slot :=
  if tag.all fun t => carries j t h (bit t) s then (find j h s).map Slot.item else none

section

variable {tag : Option Tag} {h : Nat} {bit : Tag → Bool} {n : Node Slot} {o : Fin RADIX_TREE_MAP_SIZE} {j : Nat}

theorem wantedAt_node : wantedAt tag (h + 1) bit (.node n) j =
    wantedAt tag h (fun t => tag_get n t (slotOffset j h)) (n.slots (slotOffset j h)) j := by
  unfold wantedAt
  simp only [carries_node]
  rfl

/-- Under a slot that is stepped over nothing is wanted. -/
theorem wantedAt_of_not_passable (hwf : Wf (h + 1) (strip (h + 1) (.node n))) (hexact : Exact (h + 1) (.node n))
    (hpass : passable n tag (slotOffset j h) = false) : wantedAt tag (h + 1) bit (.node n) j = none := by
  rw [wantedAt_node]
  obtain ⟨hsub, hsum⟩ := hexact (slotOffset j h)
  cases tag with
  | none =>
    have hnull : n.slots (slotOffset j h) = .null := by
      cases hslot : n.slots (slotOffset j h) with
      | null => rfl
      | item a =>
        rw [passable, hslot] at hpass
        cases hpass
      | node m =>
        rw [passable, hslot] at hpass
        cases hpass
    rw [hnull, wantedAt, find_null]
    rfl
  | some t =>
    have hbit : tag_get n t (slotOffset j h) = false := hpass
    have hsum := hsum t
    rw [hbit] at hsum
    have hcarries := carries_of_bit_false (wf_child hwf _) hsub hsum j
    rw [wantedAt, Option.all_some, hbit, hcarries]
    rfl

theorem present_of_passable (hexact : Exact (h + 1) (.node n)) (hpass : passable n tag o = true) :
    (n.slots o).present = true := by
  cases tag with
  | none => exact hpass
  | some t =>
    obtain ⟨hzero, hsucc⟩ := (hexact o).2 t
    have hbit : tag_get n t o = true := hpass
    rcases eq_or_ne h 0 with hh | hh
    · exact hzero hh hbit
    have htagged := (hsucc hh).symm.trans hbit
    cases hslot : n.slots o with
    | null =>
      rw [hslot] at htagged
      cases htagged
    | item a => rfl
    | node m => rfl

/-- In a node of the lowest level. -/
theorem wantedAt_leaf (hwf : Wf 1 (strip 1 (.node n))) (ho : slotOffset j 0 = o) : wantedAt tag 1 bit (.node n) j =
    if (tag.all fun t => tag_get n t o) = true ∧ (n.slots o).present = true then some (n.slots o) else none := by
  have hall : (tag.all fun t => carries j t 0 (tag_get n t o) (n.slots o)) = tag.all fun t => tag_get n t o := rfl
  rw [wantedAt_node, ho, wantedAt, hall]
  have hfind : (find j 0 (n.slots o)).map Slot.item = if (n.slots o).present = true then some (n.slots o) else none := by
    rcases wf_child hwf o with hnull | hchild
    · rw [hnull]
      rfl
    rw [strip_zero] at hchild
    cases hslot : n.slots o with
    | null =>
      rw [hslot] at hchild
      exact hchild.elim
    | item a => rfl
    | node m =>
      rw [hslot] at hchild
      exact hchild.elim
  rw [hfind]
  by_cases htag : (tag.all fun t => tag_get n t o) = true
  · rw [if_pos htag]
    exact if_congr ⟨fun h => ⟨htag, h⟩, And.right⟩ rfl rfl
  · rw [if_neg htag, if_neg fun h => htag h.1]

end

/-! ## Stepping over empty slots -/

theorem pow_shift (h : Nat) : 2 ^ (h * RADIX_TREE_MAP_SHIFT) = 64 ^ h := by
  rw [Nat.mul_comm, Nat.pow_mul]
  rfl

theorem slotOffset_at {base h j o : Nat} (hbase : base % 64 ^ (h + 1) = 0) (ho : o < 64) (hlo : base + o * 64 ^ h ≤ j)
    (hhi : j < base + (o + 1) * 64 ^ h) : j / 64 ^ h = base / 64 ^ h + o ∧ (slotOffset j h).val = o := by
  have hpos : 0 < 64 ^ h := Nat.pow_pos (by decide)
  obtain ⟨q, rfl⟩ := Nat.dvd_of_mod_eq_zero hbase
  have hmul : 64 ^ (h + 1) * q = q * 64 * 64 ^ h := by
    rw [Nat.pow_succ]
    ring
  have hdiv : j / 64 ^ h = q * 64 + o := by
    rw [Nat.div_eq_iff hpos]
    have hsucc : (o + 1) * 64 ^ h = o * 64 ^ h + 64 ^ h := Nat.succ_mul o _
    have hsum : (q * 64 + o) * 64 ^ h = q * 64 * 64 ^ h + o * 64 ^ h := Nat.add_mul _ _ _
    omega
  have hbase : 64 ^ (h + 1) * q / 64 ^ h = q * 64 := by
    rw [hmul, Nat.mul_div_cancel _ hpos]
  refine ⟨by rw [hdiv, hbase], ?_⟩
  rw [slotOffset_val, hdiv]
  omega

/-- How far the search in a node has come: no slot before its end is one to go down. -/
inductive Skipped (n : Node Slot) (tag : Option Tag) (h base index : Nat) : Skip → Prop
  | found {o : Fin RADIX_TREE_MAP_SIZE} {index' : Nat} (hpass : passable n tag o = true) (hle : index ≤ index')
      (hlo : base + o * 64 ^ h ≤ index') (hhi : index' < base + (o + 1) * 64 ^ h)
      (hempty : ∀ j, index ≤ j → j < index' → passable n tag (slotOffset j h) = false) :
      Skipped n tag h base index (.found o index')
  | out (hempty : ∀ j, index ≤ j → j < base + 64 ^ (h + 1) → passable n tag (slotOffset j h) = false) :
      Skipped n tag h base index (.out (base + 64 ^ (h + 1)))

theorem skipEmpty_spec {n : Node Slot} {tag : Option Tag} {h base : Nat} (hbase : base % 64 ^ (h + 1) = 0)
    (hend : base + 64 ^ (h + 1) < 2 ^ 64) {fuel i index : Nat} (hi : i < 64) (hfuel : 64 ≤ fuel + i)
    (hlo : base + i * 64 ^ h ≤ index) (hhi : index < base + (i + 1) * 64 ^ h) :
    Skipped n tag h base index (skipEmpty n tag (h * RADIX_TREE_MAP_SHIFT) fuel i index) := by
  have hpos : 0 < 64 ^ h := Nat.pow_pos (by decide)
  induction fuel generalizing i index with
  | zero => omega
  | succ fuel ih =>
    have hsize : i < RADIX_TREE_MAP_SIZE := hi
    obtain ⟨hdiv, -⟩ := slotOffset_at hbase hi hlo hhi
    rw [skipEmpty, dif_pos hsize]
    by_cases hpass : passable n tag ⟨i, hsize⟩ = true
    · rw [if_pos hpass]
      exact .found hpass (le_refl index) hlo hhi fun j hj hlt => absurd hlt hj.not_gt
    rw [if_neg hpass]
    rw [Bool.not_eq_true] at hpass
    -- the first index of the next slot
    have hnext : add64 (index / 2 ^ (h * RADIX_TREE_MAP_SHIFT) * 2 ^ (h * RADIX_TREE_MAP_SHIFT)) (2 ^ (h * RADIX_TREE_MAP_SHIFT)) =
        base + (i + 1) * 64 ^ h := by
      have hround : (base / 64 ^ h + i) * 64 ^ h + 64 ^ h = base + (i + 1) * 64 ^ h := by
        have hcancel : base / 64 ^ h * 64 ^ h = base :=
          Nat.div_mul_cancel ((pow_dvd_pow 64 (Nat.le_succ h)).trans (Nat.dvd_of_mod_eq_zero hbase))
        rw [Nat.add_mul, hcancel, Nat.succ_mul]
        omega
      have hle : (i + 1) * 64 ^ h ≤ 64 ^ (h + 1) := by
        rw [Nat.pow_succ, Nat.mul_comm (64 ^ h)]
        exact Nat.mul_le_mul_right _ hi
      rw [pow_shift, hdiv, add64, hround]
      exact Nat.mod_eq_of_lt (by omega)
    have hempty : ∀ j, index ≤ j → j < base + (i + 1) * 64 ^ h → passable n tag (slotOffset j h) = false := by
      intro j hj hlt
      have hoff : slotOffset j h = ⟨i, hsize⟩ := Fin.ext (slotOffset_at hbase hi (hlo.trans hj) hlt).2
      rw [hoff]
      exact hpass
    dsimp only
    rw [hnext, if_neg (by positivity)]
    rcases eq_or_ne (i + 1) RADIX_TREE_MAP_SIZE with hlast | hmore
    · rw [if_pos hlast]
      have hall : base + (i + 1) * 64 ^ h = base + 64 ^ (h + 1) := by
        rw [hlast, Nat.pow_succ, Nat.mul_comm]
      rw [hall] at hempty ⊢
      exact .out hempty
    · rw [if_neg hmore]
      have hlt : i + 1 < 64 := by
        have hne : i + 1 ≠ 64 := hmore
        omega
      have hstep : (i + 1) * 64 ^ h < (i + 1 + 1) * 64 ^ h := Nat.mul_lt_mul_of_pos_right (Nat.lt_succ_self _) hpos
      have hrest := ih hlt (by omega) (le_refl (base + (i + 1) * 64 ^ h)) (by omega)
      generalize skipEmpty n tag (h * RADIX_TREE_MAP_SHIFT) fuel (i + 1) (base + (i + 1) * 64 ^ h) = r at hrest
      cases hrest with
      | found hpass' hle hlo' hhi' hempty' =>
        refine .found hpass' (by omega) hlo' hhi' fun j hj hlt => ?_
        rcases lt_or_ge j (base + (i + 1) * 64 ^ h) with hbefore | hafter
        · exact hempty j hj hbefore
        · exact hempty' j hafter hlt
      | out hempty' =>
        refine .out fun j hj hlt => ?_
        rcases lt_or_ge j (base + (i + 1) * 64 ^ h) with hbefore | hafter
        · exact hempty j hj hbefore
        · exact hempty' j hafter hlt

theorem slot_bounds {base h index : Nat} (hbase : base % 64 ^ (h + 1) = 0) (hlo : base ≤ index)
    (hhi : index < base + 64 ^ (h + 1)) : base + (slotOffset index h).val * 64 ^ h ≤ index ∧
      index < base + ((slotOffset index h).val + 1) * 64 ^ h := by
  have hpos : 0 < 64 ^ h := Nat.pow_pos (by decide)
  obtain ⟨q, rfl⟩ := Nat.dvd_of_mod_eq_zero hbase
  obtain ⟨r, rfl⟩ := Nat.exists_eq_add_of_le hlo
  have hr : r < 64 * 64 ^ h := by
    rw [Nat.mul_comm, ← Nat.pow_succ]
    omega
  have hdiv : r / 64 ^ h < 64 := Nat.div_lt_of_lt_mul (by rw [Nat.mul_comm]; exact hr)
  have hslot : (slotOffset (64 ^ (h + 1) * q + r) h).val = r / 64 ^ h := by
    rw [slotOffset_val, Nat.pow_succ, Nat.mul_assoc, Nat.mul_add_div hpos, Nat.mul_add_mod, Nat.mod_eq_of_lt hdiv]
  have hfloor := Nat.div_mul_le_self r (64 ^ h)
  have hceil : r < (r / 64 ^ h + 1) * 64 ^ h := Nat.lt_mul_of_div_lt (Nat.lt_succ_self _) hpos
  rw [hslot]
  exact ⟨Nat.add_le_add_left hfloor _, Nat.add_lt_add_left hceil _⟩

/-! ## A batch -/

/-- The last loop takes what is wanted up to the end of the node. -/
theorem grabItems_spec {n : Node Slot} {tag : Option Tag} {bit : Tag → Bool} {base max_items : Nat}
    (hwf : Wf 1 (strip 1 (.node n))) (hbase : base % 64 = 0) (hend : base + 64 < 2 ^ 64) {fuel i : Nat} {calls : List Call}
    (hi : i ≤ 64) (hfuel : 64 ≤ i + fuel) (hmax : calls.length + (64 - i) < max_items) :
    grabItems n tag max_items fuel i (base + i) calls =
      (calls ++ entries (wantedAt tag 1 bit (.node n)) (base + i) (base + 64), base + 64) := by
  have hdone : entries (wantedAt tag 1 bit (.node n)) (base + 64) (base + 64) = [] := by
    rw [entries, Nat.sub_self]
    rfl
  induction fuel generalizing i calls with
  | zero =>
    obtain rfl : i = 64 := by omega
    rw [grabItems, hdone, List.append_nil]
  | succ fuel ih =>
    rcases lt_or_ge i 64 with hlt | hge
    swap
    · obtain rfl : i = 64 := by omega
      rw [grabItems, dif_neg (lt_irrefl 64), hdone, List.append_nil]
    have hi : i < RADIX_TREE_MAP_SIZE := hlt
    have hnext : add64 (base + i) 1 = base + (i + 1) := Nat.mod_eq_of_lt (by omega)
    have hback : sub64 (base + (i + 1)) 1 = base + i := by
      rw [sub64]
      omega
    have hoff : slotOffset (base + i) 0 = ⟨i, hi⟩ := by
      refine Fin.ext (@slotOffset_at base 0 (base + i) i hbase hi ?_ ?_).2
      · omega
      · omega
    have hwanted := @wantedAt_leaf tag bit n ⟨i, hi⟩ (base + i) hwf hoff
    have hsplit : entries (wantedAt tag 1 bit (.node n)) (base + i) (base + 64) =
        ((wantedAt tag 1 bit (.node n) (base + i)).map fun s => (base + i, s)).toList ++
          entries (wantedAt tag 1 bit (.node n)) (base + (i + 1)) (base + 64) := by
      rw [← entries_succ]
      exact entries_append (by omega) (by omega)
    rw [grabItems, dif_pos hi]
    dsimp only
    rw [hnext, hback, hsplit]
    have hskipped : ∀ calls : List Call, calls.length + (64 - (i + 1)) < max_items →
        grabItems n tag max_items fuel (i + 1) (base + (i + 1)) calls = (calls ++
          entries (wantedAt tag 1 bit (.node n)) (base + (i + 1)) (base + 64), base + 64) :=
      fun calls hcalls => ih (by omega) (by omega) hcalls
    have hall : (tag.isSome = true ∧ passable n tag ⟨i, hi⟩ = false) ↔ ¬(tag.all fun t => tag_get n t ⟨i, hi⟩) = true := by
      cases tag with
      | none => simp
      | some t => simp [passable]
    by_cases htag : (tag.all fun t => tag_get n t ⟨i, hi⟩) = true
    · rw [if_neg (by rw [hall, not_not]; exact htag)]
      by_cases hpresent : (n.slots ⟨i, hi⟩).present = true
      · rw [if_pos ⟨htag, hpresent⟩] at hwanted
        rw [if_pos hpresent, hwanted]
        have hlength : (calls ++ [(base + i, n.slots ⟨i, hi⟩)]).length = calls.length + 1 := by
          rw [List.length_append, List.length_singleton]
        rw [if_neg (by rw [hlength]; omega), hskipped _ (by rw [hlength]; omega), List.append_assoc]
        rfl
      · rw [if_neg fun h => hpresent h.2] at hwanted
        rw [if_neg hpresent, hwanted, hskipped _ (by omega)]
        rfl
    · rw [if_neg fun h => htag h.1] at hwanted
      rw [if_pos (hall.mpr htag), hwanted, hskipped _ (by omega)]
      rfl

/-- One batch takes what is wanted from the cursor up to where it leaves the cursor, which has moved. -/
theorem batchFrom_spec {tag : Option Tag} {max_items : Nat} (hmax : 64 < max_items) {h : Nat} {bit : Tag → Bool} {s : Slot}
    {base index : Nat} (hpos : 0 < h) (hwf : Wf h (strip h s)) (hexact : Exact h s) (hbase : base % 64 ^ h = 0)
    (hend : base + 64 ^ h < 2 ^ 64) (hlo : base ≤ index) (hhi : index < base + 64 ^ h) :
    ∃ next, batchFrom tag max_items h s index = .ok (entries (wantedAt tag h bit s) index next, next) ∧
      index < next ∧ next ≤ base + 64 ^ h := by
  induction h generalizing bit s base index with
  | zero => cases hpos
  | succ h ih =>
    cases s with
    | null => exact hwf.elim
    | item a => exact hwf.elim
    | node n =>
      -- the slot of the cursor, and where the search from there ends
      have hi := (slotOffset index h).isLt
      obtain ⟨hslot_lo, hslot_hi⟩ := slot_bounds hbase hlo hhi
      have hskip := @skipEmpty_spec n tag h base hbase hend RADIX_TREE_MAP_SIZE _ index hi le_self_add hslot_lo hslot_hi
      have hempty : ∀ hi, (∀ j, index ≤ j → j < hi → passable n tag (slotOffset j h) = false) →
          entries (wantedAt tag (h + 1) bit (.node n)) index hi = [] := fun hi hall =>
        entries_none fun j hj hlt => wantedAt_of_not_passable hwf hexact (hall j hj hlt)
      cases h with
      | zero =>
        have hgrab : ∀ index, base ≤ index → index < base + 64 →
            grabItems n tag max_items RADIX_TREE_MAP_SIZE (slotOffset index 0) index [] =
              (entries (wantedAt tag 1 bit (.node n)) index (base + 64), base + 64) := by
          intro index hlo hhi
          have hat : (slotOffset index 0).val = index - base := by
            rw [slotOffset_val]
            omega
          have hspec := @grabItems_spec n tag bit base max_items hwf hbase hend RADIX_TREE_MAP_SIZE (index - base) []
            (by omega) (Nat.le_add_left _ _) (by rw [List.length_nil]; omega)
          rw [Nat.add_sub_of_le hlo, List.nil_append] at hspec
          rw [hat]
          exact hspec
        rw [batchFrom]
        cases htag : tag.isSome with
        | false =>
          rw [if_neg Bool.false_ne_true, hgrab index hlo hhi]
          exact ⟨_, rfl, hhi, le_refl _⟩
        | true =>
          rw [if_pos rfl]
          have hskip : Skipped n tag 0 base index
            (skipEmpty n tag 0 RADIX_TREE_MAP_SIZE (slotOffset index 0) index) := hskip
          generalize skipEmpty n tag 0 RADIX_TREE_MAP_SIZE (slotOffset index 0) index = r at hskip ⊢
          cases hskip with
          | out hall =>
            refine ⟨base + 64 ^ (0 + 1), ?_, hhi, le_refl _⟩
            rw [hempty _ hall]
          | @found o index' hpass hle hlo' hhi' hall =>
            have hlt : index' < base + 64 := by
              have ho : o.val < 64 := o.isLt
              omega
            refine ⟨base + 64, ?_, by omega, le_refl _⟩
            dsimp only
            rw [hgrab index' (by omega) hlt, entries_append hle hlt.le, hempty _ hall]
            rfl
      | succ h =>
        rw [batchFrom]
        generalize skipEmpty n tag ((h + 1) * RADIX_TREE_MAP_SHIFT) RADIX_TREE_MAP_SIZE (slotOffset index (h + 1)) index = r at hskip ⊢
        cases hskip with
        | out hall =>
          refine ⟨base + 64 ^ (h + 1 + 1), ?_, hhi, le_refl _⟩
          rw [hempty _ hall]
        | @found o index' hpass hle hlo' hhi' hall =>
          have hpresent := present_of_passable hexact hpass
          dsimp only
          rw [if_pos hpresent]
          have hchild := (wf_child hwf o).resolve_left fun hnull => by
            rw [hnull] at hpresent
            cases hpresent
          have hdvd : 64 ^ (h + 1) ∣ base := (pow_dvd_pow 64 (Nat.le_succ _)).trans (Nat.dvd_of_mod_eq_zero hbase)
          have hbase' : (base + o * 64 ^ (h + 1)) % 64 ^ (h + 1) = 0 :=
            Nat.mod_eq_zero_of_dvd (Nat.dvd_add hdvd (Nat.dvd_mul_left _ _))
          have hsucc : (o.val + 1) * 64 ^ (h + 1) = o * 64 ^ (h + 1) + 64 ^ (h + 1) := Nat.succ_mul _ _
          have hwidth : (o.val + 1) * 64 ^ (h + 1) ≤ 64 ^ (h + 1 + 1) := by
            rw [Nat.pow_succ 64 (h + 1), Nat.mul_comm (64 ^ (h + 1))]
            exact Nat.mul_le_mul_right _ o.isLt
          obtain ⟨next, hbatch, hlt, hle'⟩ := @ih (fun t => tag_get n t o) (n.slots o) (base + o * 64 ^ (h + 1)) index'
            (Nat.succ_pos h) hchild (hexact o).1 hbase' (by omega) hlo' (by omega)
          refine ⟨next, ?_, by omega, by omega⟩
          rw [hbatch, entries_append hle hlt.le, hempty _ hall, List.nil_append]
          refine congrArg (fun l => Except.ok (l, next)) (entries_congr fun j hj hlt => ?_)
          have hoff : slotOffset j (h + 1) = o := Fin.ext (slotOffset_at hbase o.isLt (by omega) (by omega)).2
          rw [wantedAt_node, hoff]

/-! ## The whole lookup -/

/-- From the cursor on the loop takes what is wanted to the end of the tree. -/
theorem gangLoop_spec {n : Node Slot} {tag : Option Tag} {h : Nat} {bit : Tag → Bool} (hh : h < 5)
    (hheight : n.height = h + 1) (hwf : Wf (h + 1) (strip (h + 1) (.node n))) (hexact : Exact (h + 1) (.node n))
    {fuel cur : Nat} {calls : List Call} (hcur : cur ≤ 64 ^ (h + 1)) (hfuel : 64 ^ (h + 1) < cur + fuel)
    (hcalls : calls.length ≤ cur) :
    gangLoop n UINT64_MAX (64 ^ (h + 1) - 1) tag fuel cur calls =
      .ok (calls ++ entries (wantedAt tag (h + 1) bit (.node n)) cur (64 ^ (h + 1))) := by
  have hsize : 64 ^ (h + 1) ≤ 2 ^ 30 := Nat.pow_le_pow_right (by decide) (show h + 1 ≤ 5 from hh)
  have hpos : 0 < 64 ^ (h + 1) := Nat.pow_pos (by decide)
  induction fuel generalizing cur calls with
  | zero => omega
  | succ fuel ih =>
    have hmore : calls.length < UINT64_MAX := by
      rw [UINT64_MAX]
      omega
    rw [gangLoop, if_pos hmore]
    rcases lt_or_ge cur (64 ^ (h + 1)) with hlt | hge
    · rw [if_neg (by omega)]
      have hmax : 64 < UINT64_MAX - calls.length := by
        rw [UINT64_MAX]
        omega
      obtain ⟨next, hbatch, hnext, hle⟩ := @batchFrom_spec tag _ hmax (h + 1) bit (.node n) 0 cur (Nat.succ_pos h) hwf hexact
        (Nat.zero_mod _) (by omega) (Nat.zero_le cur) (by omega)
      rw [Nat.zero_add] at hle
      have hlength : (calls ++ entries (wantedAt tag (h + 1) bit (.node n)) cur next).length ≤ next := by
        have := @length_entries_le (wantedAt tag (h + 1) bit (.node n)) cur next
        rw [List.length_append]
        omega
      rw [radix_tree_lookup_batch_elements, hheight, hbatch]
      show (if next = 0 then _ else if UINT64_MAX ≠ UINT64_MAX then _ else gangLoop _ _ _ _ _ _ _) = _
      rw [if_neg (by omega), if_neg (not_not.mpr rfl), ih hle (by omega) hlength, List.append_assoc,
        ← entries_append hnext.le hle]
    · obtain rfl : cur = 64 ^ (h + 1) := by omega
      rw [if_pos (by omega), entries, Nat.sub_self]
      simp

/-- What the abstract state has for a callback at an index. -/
def Tagging.wanted (st : Tagging) (tag : Option Tag) (j : Nat) : Option Slot :=
  if tag.all fun t => st.Carries j t then (st.items j).map Slot.item else none

theorem Tagging.wanted_iff {st : Tagging} {tag : Option Tag} {j : Nat} {s : Slot} :
    st.wanted tag j = some s ↔ (∃ a, st.items j = some a ∧ s = .item a) ∧ ∀ t, tag = some t → st.Carries j t := by
  have hall : (tag.all fun t => st.Carries j t) = true ↔ ∀ t, tag = some t → st.Carries j t := by
    cases tag with
    | none => simp
    | some t => simp
  unfold Tagging.wanted
  by_cases htag : (tag.all fun t => st.Carries j t) = true
  · rw [if_pos htag, Option.map_eq_some_iff]
    constructor
    · rintro ⟨a, ha, rfl⟩
      exact ⟨⟨a, ha, rfl⟩, hall.mp htag⟩
    · rintro ⟨⟨a, ha, rfl⟩, -⟩
      exact ⟨a, ha, rfl⟩
  · rw [if_neg htag]
    exact ⟨fun h => (by cases h), fun h => absurd (hall.mpr h.2) htag⟩

section

variable {root : Root} {st : Tagging} (h : Represents root st) {tag : Option Tag}
include h

theorem wantedAt_root {j : Nat} (hj : j < 64 ^ root.height) :
    wantedAt tag root.height (root_tag_get root) root.rnode j = st.wanted tag j := by
  have hitems : find j root.height root.rnode = st.items j := by
    rw [← h.items, mapOf, if_pos hj]
  have hcarries : ∀ t, carries j t root.height (root_tag_get root t) root.rnode = decide (st.Carries j t) := by
    intro t
    have hiff := h.carries j t
    rw [tagOf, decide_eq_true hj, Bool.true_and] at hiff
    rw [Bool.eq_iff_iff, hiff, decide_eq_true_eq]
  rw [wantedAt, Tagging.wanted, hitems]
  simp only [hcarries]

theorem wanted_beyond {j : Nat} (hj : 64 ^ root.height ≤ j) : st.wanted tag j = none := by
  rw [Option.eq_none_iff_forall_ne_some]
  intro s hs
  obtain ⟨⟨a, ha, -⟩, -⟩ := Tagging.wanted_iff.mp hs
  rw [← h.items, mapOf, if_neg hj.not_gt] at ha
  cases ha

theorem wanted_of_root_clear {t : Tag} (hroot : root_tag_get root t = false) (j : Nat) : st.wanted (some t) j = none := by
  rw [Option.eq_none_iff_forall_ne_some]
  intro s hs
  obtain ⟨-, hcarries⟩ := Tagging.wanted_iff.mp hs
  have hset := (root_tag_iff h.good.toShape h.tags t).mpr ⟨j, (h.carries j t).mpr (hcarries t rfl)⟩
  rw [hroot] at hset
  cases hset

theorem gang_lookup_eq (first : Nat) (tag : Option Tag) {fuel : Nat} (hfuel : 2 ^ 30 < fuel) :
    ∃ calls, radix_tree_general_gang_lookup_elements fuel root first UINT64_MAX tag = .ok (calls, calls.length) ∧
      calls = entries (st.wanted tag) first (64 ^ root.height) := by
  have hempty : (∀ j, first ≤ j → j < 64 ^ root.height → st.wanted tag j = none) →
      ∃ calls, (.ok ([], 0) : Except Panic (List Call × Nat)) = .ok (calls, calls.length) ∧
        calls = entries (st.wanted tag) first (64 ^ root.height) := fun hnone => ⟨[], rfl, (entries_none hnone).symm⟩
  unfold radix_tree_general_gang_lookup_elements
  by_cases hclear : (tag.any fun t => root_tag_get root t = false) = true
  · rw [if_pos hclear]
    apply hempty
    intro j _ _
    cases tag with
    | none => cases hclear
    | some t =>
      have hroot : root_tag_get root t = false := by simpa using hclear
      exact wanted_of_root_clear h hroot j
  rw [if_neg hclear]
  have hmap : ∀ lo, entries (wantedAt tag root.height (root_tag_get root) root.rnode) lo (64 ^ root.height) =
      entries (st.wanted tag) lo (64 ^ root.height) := fun lo => entries_congr fun j _ hj => wantedAt_root h hj
  rw [← hmap first]
  rcases h.good.rnode with hnull | ⟨hwf, hindirect⟩
  · have hnull : root.rnode = .null := strip_eq_null.mp hnull
    rw [hmap, if_pos (by rw [hnull]; rfl)]
    apply hempty
    intro j _ hj
    rw [← wantedAt_root h hj, hnull, wantedAt, find_null]
    exact ite_self _
  have hexact := h.tags.exact
  have hle := h.good.height_le
  have hindirect : root.indirect = decide (0 < root.height) := hindirect
  have hwf : Wf root.height (strip root.height root.rnode) := hwf
  have hle : root.height ≤ 5 := hle
  clear hmap hempty
  generalize root_tag_get root = bit at hclear ⊢
  generalize root.height = k, root.rnode = s, root.indirect = indirect at hindirect hwf hexact hle ⊢
  subst hindirect
  cases k with
  | zero =>
    cases s with
    | null => exact hwf.elim
    | node n => exact hwf.elim
    | item a =>
      have hset : (tag.all fun t => bit t) = true := by
        cases tag with
        | none => rfl
        | some t => simpa using hclear
      have hitem : wantedAt tag 0 bit (.item a) 0 = some (.item a) := if_pos hset
      have hpresent : ¬(Slot.item a).present = false := Bool.noConfusion
      have hdirect : decide (0 < 0) = false := rfl
      rw [if_neg hpresent, if_pos hdirect, Nat.pow_zero]
      rcases Nat.eq_zero_or_pos first with rfl | hpos
      · rw [if_neg (Nat.lt_irrefl 0), entries_succ 0, hitem]
        exact ⟨_, rfl, rfl⟩
      · rw [if_pos hpos]
        exact ⟨_, rfl, (entries_none fun j hj hlt => by omega).symm⟩
  | succ k =>
    cases s with
    | null => exact hwf.elim
    | item a => exact hwf.elim
    | node n =>
      have hheight : n.height = k + 1 := hwf.1
      have hsize : 64 ^ (k + 1) ≤ 2 ^ 30 := Nat.pow_le_pow_right (by decide) hle
      have hpos : 0 < 64 ^ (k + 1) := Nat.pow_pos (by decide)
      have hloop : gangLoop n UINT64_MAX (64 ^ (k + 1) - 1) tag fuel first [] =
          .ok (entries (wantedAt tag (k + 1) bit (.node n)) first (64 ^ (k + 1))) := by
        rcases lt_or_ge (64 ^ (k + 1)) first with hbeyond | hfirst
        · obtain ⟨fuel, rfl⟩ : ∃ m, fuel = m + 1 := ⟨fuel - 1, by omega⟩
          rw [gangLoop, if_pos (by decide), if_pos (by omega), entries_none fun j hj hlt => by omega]
        · exact gangLoop_spec hle hheight hwf hexact hfirst (by omega) (Nat.zero_le _)
      refine ⟨_, ?_, rfl⟩
      show (radix_tree_maxindex n.height).bind _ = _
      rw [hheight, maxindex_eq hle]
      show (gangLoop n UINT64_MAX (64 ^ (k + 1) - 1) tag fuel first []).bind _ = _
      rw [hloop]
      rfl

end

/-- **Gang lookup.**  In a tree made by any operations on indices below `2^30`, with any first index and with a tag or
without, the lookup ends, and it has called back once for each item from the first index on that is there and carries the
tag, in the order of the indices. -/
theorem gang_lookup_complete (ops : List TagOp) (hops : Tagging.empty.LegalRun ops) :
    ∃ root, runTags (INIT_RADIX_TREE GFP_FS) ops = .ok root ∧
      ∀ (first : Nat) (tag : Option Tag) (fuel : Nat), 2 ^ 30 < fuel →
        ∃ calls, radix_tree_general_gang_lookup_elements fuel root first UINT64_MAX tag = .ok (calls, calls.length) ∧
          (calls.Pairwise fun c d => c.1 < d.1) ∧
          ∀ j s, (j, s) ∈ calls ↔ first ≤ j ∧ (∃ a, (Tagging.empty.run ops).items j = some a ∧ s = .item a) ∧
            ∀ t, tag = some t → (Tagging.empty.run ops).Carries j t := by
  obtain ⟨root, hrun, h⟩ := runTags_spec represents_init hops
  refine ⟨root, hrun, fun first tag fuel hfuel => ?_⟩
  obtain ⟨calls, hcall, rfl⟩ := gang_lookup_eq h first tag hfuel
  refine ⟨_, hcall, entries_sorted _ _ _, fun j s => ?_⟩
  rw [mem_entries]
  dsimp only
  rw [← Tagging.wanted_iff]
  constructor
  · exact fun ⟨hfirst, _, hwanted⟩ => ⟨hfirst, hwanted⟩
  rintro ⟨hfirst, hwanted⟩
  refine ⟨hfirst, ?_, hwanted⟩
  by_contra hbeyond
  rw [wanted_beyond h (not_lt.mp hbeyond)] at hwanted
  cases hwanted

theorem gang_lookup_complete_tag_and_grow :
    ∃ root, runTags (INIT_RADIX_TREE GFP_FS) (tag_and_grow 0 1) = .ok root ∧
      ∃ calls, radix_tree_general_gang_lookup_elements (2 ^ 30 + 1) root 0 UINT64_MAX (some 0) = .ok (calls, calls.length) ∧
        (0, .item 0x1000) ∈ calls := by
  obtain ⟨root, hrun, hlookup⟩ := gang_lookup_complete (tag_and_grow 0 1) tag_and_grow_legal
  obtain ⟨calls, hcalls, -, hmem⟩ := hlookup 0 (some 0) (2 ^ 30 + 1) (Nat.lt_succ_self _)
  refine ⟨root, hrun, calls, hcalls, (hmem 0 (.item 0x1000)).mpr ⟨Nat.le_refl 0, ⟨0x1000, by decide, rfl⟩, ?_⟩⟩
  intro t ht
  obtain rfl : 0 = t := Option.some.inj ht
  decide

end LostWakeup.Lib.RadixTree
