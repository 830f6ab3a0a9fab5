/-
# LostWakeup.Library.Queues — queues with a head each, over objects that carry one node.

The nodes are the heads and the objects, and a queue is the ring of its head.  `Queues k q` says that the links
`k` represent the lists `q`: the ring of every head runs through its list, no object is in two lists, and an object
in none is a ring of its own.  Taking an object off does not need to know where it is.
-/
import LostWakeup.Library.Links

namespace LostWakeup.Library.Links

open Function (update update_eq_self update_idem update_of_ne update_self)
open List (map_append mem_append mem_singleton)

variable {η α : Type*} [DecidableEq η] [DecidableEq α] {k : Links (η ⊕ α)} {q : η → List α} {h h' : η} {x y : α} {l : List α}

def pushBack (k : Links (η ⊕ α)) (h : η) (x : α) : Links (η ⊕ α) := k.addTail (.inr x) (.inl h)

def remove (k : Links (η ⊕ α)) (x : α) : Links (η ⊕ α) := k.delInit (.inr x)

def isEmpty (k : Links (η ⊕ α)) (h : η) : Prop := k.next (.inl h) = .inl h

instance decidableIsEmpty (k : Links (η ⊕ α)) (h : η) : Decidable (k.isEmpty h) := inferInstanceAs (Decidable (_ = _))

/-- The object behind the head. -/
def first (k : Links (η ⊕ α)) (h : η) : Option α := (k.next (.inl h)).getRight?

/-- The rings of the heads run through the lists, which have no object in common. -/
structure Heads (k : Links (η ⊕ α)) (q : η → List α) : Prop where
  ring : ∀ h, k.Ring (.inl h) ((q h).map .inr)
  apart : ∀ h h' x, x ∈ q h → x ∈ q h' → h = h'

structure Queues (k : Links (η ⊕ α)) (q : η → List α) : Prop extends Heads k q where
  loose : ∀ x, (∀ h, x ∉ q h) → k.Ring (.inr x) []

section

omit [DecidableEq η] [DecidableEq α]

theorem inr_mem_ring : (Sum.inr x : η ⊕ α) ∈ Sum.inl h :: l.map .inr ↔ x ∈ l := by simp

theorem inl_mem_ring : (Sum.inl h' : η ⊕ α) ∈ Sum.inl h :: l.map .inr ↔ h' = h := by simp

theorem Heads.nodup (hq : Heads k q) (h : η) : (q h).Nodup :=
  List.Nodup.of_map _ (List.nodup_cons.mp (hq.ring h).2).2

theorem Heads.disjoint (hq : Heads k q) (hne : h ≠ h') :
    ∀ w ∈ (Sum.inl h : η ⊕ α) :: (q h).map .inr, w ∉ (Sum.inl h' : η ⊕ α) :: (q h').map .inr := by
  intro w hw hw'
  rcases w with g | x
  · exact hne ((inl_mem_ring.mp hw).symm.trans (inl_mem_ring.mp hw'))
  · exact hne (hq.apart h h' x (inr_mem_ring.mp hw) (inr_mem_ring.mp hw'))

theorem Heads.isEmpty_iff (hq : Heads k q) (h : η) : k.isEmpty h ↔ q h = [] := by
  have hself := (hq.ring h).next_eq_self
  rw [List.map_eq_nil_iff] at hself
  exact hself

theorem Heads.first_eq (hq : Heads k q) (hcons : q h = x :: l) : k.first h = some x := by
  have hring := hq.ring h
  rw [hcons, List.map_cons] at hring
  have hnext : k.next (.inl h) = .inr x := hring.1.1.1
  rw [first, hnext]
  rfl

end

/-- An object in no queue is put at the end of one. -/
theorem Heads.pushBack (hq : Heads k q) (hx : ∀ h, x ∉ q h) (h : η) :
    Heads (k.pushBack h x) (update q h (q h ++ [x])) := by
  constructor
  · intro g
    rcases eq_or_ne g h with rfl | hne
    · rw [update_self, map_append]
      exact (hq.ring g).addTail (mt inr_mem_ring.mp (hx g))
    · rw [update_of_ne hne]
      exact (hq.ring h).addTail_other (hq.ring g) (mt inr_mem_ring.mp (hx g)) (hq.disjoint hne.symm)
  · -- `x` itself is in the one queue only
    have hmem : ∀ g y, y ∈ update q h (q h ++ [x]) g → y ∈ q g ∨ (y = x ∧ g = h) := by
      intro g y hy
      rcases eq_or_ne g h with rfl | hne
      · rw [update_self, mem_append, mem_singleton] at hy
        exact hy.imp_right fun heq => ⟨heq, rfl⟩
      · rw [update_of_ne hne] at hy
        exact .inl hy
    intro g g' y hy hy'
    rcases hmem g y hy with hold | ⟨rfl, rfl⟩
    · rcases hmem g' y hy' with hold' | ⟨rfl, rfl⟩
      · exact hq.apart g g' y hold hold'
      · exact absurd hold (hx g)
    · rcases hmem g' y hy' with hold' | ⟨-, rfl⟩
      · exact absurd hold' (hx g')
      · rfl

/-- One object after the other is put at the end of a queue. -/
theorem Heads.pushAll (hq : Heads k q) (hl : l.Nodup) (hfresh : ∀ x ∈ l, ∀ g, x ∉ q g) (h : η) :
    Heads (l.foldl (fun k x => k.pushBack h x) k) (update q h (q h ++ l)) := by
  induction l generalizing k q with
  | nil =>
    rw [List.append_nil, update_eq_self]
    exact hq
  | cons x l ih =>
    rcases List.nodup_cons.mp hl with ⟨hxl, hl⟩
    have hfirst := hq.pushBack (hfresh x List.mem_cons_self) h
    have hrest := ih hfirst hl fun y hy g hmem => ?_
    · rw [update_self, update_idem, List.append_assoc] at hrest
      exact hrest
    rcases eq_or_ne g h with rfl | hne
    · rw [update_self, mem_append, mem_singleton] at hmem
      rcases hmem with hold | rfl
      · exact hfresh y (List.mem_cons_of_mem _ hy) g hold
      · exact hxl hy
    · rw [update_of_ne hne] at hmem
      exact hfresh y (List.mem_cons_of_mem _ hy) g hmem

theorem Queues.pushBack (hq : Queues k q) (hx : ∀ h, x ∉ q h) (h : η) :
    Queues (k.pushBack h x) (update q h (q h ++ [x])) := by
  refine ⟨hq.toHeads.pushBack hx h, fun y hy => ?_⟩
  have hyh := hy h
  rw [update_self, mem_append, mem_singleton, not_or] at hyh
  rcases hyh with ⟨hyh, hne⟩
  have hnone : ∀ g, y ∉ q g := by
    intro g
    rcases eq_or_ne g h with rfl | hgh
    · exact hyh
    · have hyg := hy g
      rw [update_of_ne hgh] at hyg
      exact hyg
  refine (hq.ring h).addTail_other (hq.loose y hnone) ?_ fun w hw hw' => ?_
  · rw [mem_singleton, Sum.inr.injEq]
    exact fun heq => hne heq.symm
  · rw [mem_singleton] at hw'
    rw [hw'] at hw
    exact hyh (inr_mem_ring.mp hw)

/-- An object is taken off the queue it is in. -/
theorem Queues.remove (hq : Queues k q) (hx : x ∈ q h) : Queues (k.remove x) (update q h ((q h).erase x)) := by
  obtain ⟨a, b, hab⟩ := List.append_of_mem hx
  have hnodup := hq.nodup h
  have hxa : x ∉ a := by
    rw [hab] at hnodup
    exact fun hmem => List.disjoint_of_nodup_append hnodup hmem List.mem_cons_self
  have herase : (q h).erase x = a ++ b := by rw [hab, List.erase_append_right _ hxa, List.erase_cons_head]
  have hhere : k.Ring (.inl h) (a.map .inr ++ .inr x :: b.map .inr) := by
    have hring := hq.ring h
    rw [hab, map_append, List.map_cons] at hring
    exact hring
  have hrotated : k.Ring (.inr x) (b.map .inr ++ .inl h :: a.map .inr) := hhere.rotate
  have hnodes : ∀ w ∈ (Sum.inr x : η ⊕ α) :: (b.map .inr ++ .inl h :: a.map .inr), w ∈ (Sum.inl h : η ⊕ α) :: (q h).map .inr := by
    intro w hw
    rw [hab]
    simp only [List.mem_cons, mem_append, map_append, List.map_cons] at hw ⊢
    tauto
  have hsub : ∀ g y, y ∈ update q h ((q h).erase x) g → y ∈ q g := by
    intro g y hy
    rcases eq_or_ne g h with rfl | hne
    · rw [update_self] at hy
      exact List.mem_of_mem_erase hy
    · rw [update_of_ne hne] at hy
      exact hy
  refine ⟨⟨fun g => ?_, fun g g' y hy hy' => hq.apart g g' y (hsub g y hy) (hsub g' y hy')⟩, fun y hy => ?_⟩
  · rcases eq_or_ne g h with rfl | hne
    · rw [update_self, herase, map_append]
      exact hhere.delInit
    · rw [update_of_ne hne]
      exact hrotated.delInit_other (hq.ring g) fun w hw => hq.disjoint hne.symm w (hnodes w hw)
  · rcases eq_or_ne y x with rfl | hne
    · exact ring_delInit k (.inr y)
    have hnone : ∀ g, y ∉ q g := by
      intro g
      have hyg := hy g
      rcases eq_or_ne g h with rfl | hgh
      · rw [update_self] at hyg
        exact fun hmem => hyg ((List.mem_erase_of_ne hne).mpr hmem)
      · rw [update_of_ne hgh] at hyg
        exact hyg
    refine hrotated.delInit_other (hq.loose y hnone) fun w hw hw' => ?_
    rw [mem_singleton] at hw'
    have hin := hnodes w hw
    rw [hw'] at hin
    exact hnone h (inr_mem_ring.mp hin)

theorem Queues.remove_loose (hq : Queues k q) (hx : ∀ h, x ∉ q h) : k.remove x = k := (hq.loose x hx).delInit_eq

theorem Queues.erase (hq : Queues k q) (x : α) : Queues (k.remove x) fun g => (q g).erase x := by
  rcases em (∃ h, x ∈ q h) with ⟨h, hx⟩ | hnone
  · have hmap : (fun g => (q g).erase x) = update q h ((q h).erase x) := by
      funext g
      rcases eq_or_ne g h with rfl | hne
      · rw [update_self]
      · rw [update_of_ne hne, List.erase_of_not_mem fun hmem => hne (hq.apart g h x hmem hx)]
    rw [hmap]
    exact hq.remove hx
  · have hnot : ∀ h, x ∉ q h := fun h hx => hnone ⟨h, hx⟩
    have hmap : (fun g => (q g).erase x) = q := funext fun g => List.erase_of_not_mem (hnot g)
    rw [hmap, hq.remove_loose hnot]
    exact hq

theorem Queues.remove_remove (hq : Queues k q) (x : α) : (k.remove x).remove x = k.remove x :=
  (hq.erase x).remove_loose fun g => (hq.nodup g).not_mem_erase

/-- The lists after an object has gone to the end of one. -/
def moved (q : η → List α) (x : α) (h : η) : η → List α :=
  Function.update (fun g => (q g).erase x) h ((q h).erase x ++ [x])

theorem Queues.move (hq : Queues k q) (x : α) (h : η) : Queues ((k.remove x).pushBack h x) (moved q x h) :=
  (hq.erase x).pushBack (fun g => (hq.nodup g).not_mem_erase) h

omit [DecidableEq η] in
theorem Heads.mem_erase (hq : Heads k q) : y ∈ (q h').erase x ↔ y ≠ x ∧ y ∈ q h' := (hq.nodup h').mem_erase_iff

theorem Heads.mem_moved (hq : Heads k q) : y ∈ moved q x h h' ↔ (y ≠ x ∧ y ∈ q h') ∨ (y = x ∧ h' = h) := by
  unfold moved
  rcases eq_or_ne h' h with rfl | hne
  · rw [update_self, mem_append, mem_singleton, hq.mem_erase]
    simp
  · rw [update_of_ne hne, hq.mem_erase]
    simp [hne]

end LostWakeup.Library.Links
