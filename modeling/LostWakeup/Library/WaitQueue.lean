/-
# LostWakeup.Library.WaitQueue — sleepers on queues, and wakers that take them off.

A sleeper waits on one queue and has an entry that names it.  A waker first takes a sleeper off the queue into its hand
and wakes it later; whoever wakes a sleeper another way follows the entry and unlinks it.  `Consistent`: a sleeper is on
the queue that its entry names, or in one hand.  For each operation a rule says when it keeps that.
-/
import Mathlib.Data.List.Nodup
import Mathlib.Logic.Function.Basic

namespace LostWakeup.Library

open Function (update update_of_ne update_self)

/-- Sleepers `T`, queues `Q`, and the hands `H` of wakers. -/
@[ext]
structure Waiting (T Q H : Type*) where
  asleep : T → Prop
  entry : T → Option Q
  queue : Q → List T
  /-- The queue has its storage. -/
  live : Q → Prop
  hand : H → Option T

namespace Waiting

variable {T Q H : Type*}

def Linked (w : Waiting T Q H) (t : T) : Prop := ∃ q, t ∈ w.queue q

def Held (w : Waiting T Q H) (t : T) : Prop := ∃ h, w.hand h = some t

structure Consistent (w : Waiting T Q H) : Prop where
  nodup : ∀ q, (w.queue q).Nodup
  /-- Who is on a queue sleeps, and the entry names this queue, which is live. -/
  linked : ∀ q t, t ∈ w.queue q → w.asleep t ∧ w.entry t = some q ∧ w.live q
  /-- Who sleeps is on a queue, unless a waker has it. -/
  settled : ∀ t, w.asleep t → w.Linked t ∨ w.Held t
  awake : ∀ t, ¬ w.asleep t → w.entry t = none
  /-- What a waker has can be woken: it sleeps, with an entry, and is on no queue. -/
  held : ∀ h t, w.hand h = some t → w.asleep t ∧ w.entry t ≠ none ∧ ¬ w.Linked t
  once : ∀ h h' t, w.hand h = some t → w.hand h' = some t → h = h'

namespace Consistent

variable {w : Waiting T Q H} {t : T} {q q' : Q} {h : H}

theorem queue_unique (hw : w.Consistent) (hq : t ∈ w.queue q) (hq' : t ∈ w.queue q') : q = q' :=
  Option.some.inj ((hw.linked q t hq).2.1.symm.trans (hw.linked q' t hq').2.1)

theorem not_held_of_linked (hw : w.Consistent) (ht : w.Linked t) : ¬ w.Held t :=
  fun ⟨h, hh⟩ => (hw.held h t hh).2.2 ht

theorem asleep_of_linked (hw : w.Consistent) (ht : w.Linked t) : w.asleep t := by
  obtain ⟨q, hq⟩ := ht
  exact (hw.linked q t hq).1

theorem not_linked_of_awake (hw : w.Consistent) (ht : ¬ w.asleep t) : ¬ w.Linked t :=
  fun h => ht (hw.asleep_of_linked h)

end Consistent

/-! ## Operations -/

section Operations

variable [DecidableEq T] [DecidableEq Q] [DecidableEq H]

/-- `t` goes to sleep on `q`. -/
def sleep (w : Waiting T Q H) (t : T) (q : Q) : Waiting T Q H :=
  { w with
    asleep := update w.asleep t True
    entry := update w.entry t (some q)
    queue := update w.queue q (w.queue q ++ [t]) }

/-- A waker takes the head of `q`, with `rest` behind it. -/
def take (w : Waiting T Q H) (h : H) (q : Q) (t : T) (rest : List T) : Waiting T Q H :=
  { w with
    queue := update w.queue q rest
    hand := update w.hand h (some t) }

/-- A waker wakes what it has. -/
def release (w : Waiting T Q H) (h : H) (t : T) : Waiting T Q H :=
  { w with
    asleep := update w.asleep t False
    entry := update w.entry t none
    hand := update w.hand h none }

/-- `t` is woken by itself, off whatever queue it is on. -/
def unlink (w : Waiting T Q H) (t : T) : Waiting T Q H :=
  { w with
    asleep := update w.asleep t False
    entry := update w.entry t none
    queue := fun q => (w.queue q).filter (· ≠ t) }

variable {w : Waiting T Q H} {t : T} {q : Q} {h : H}

omit [DecidableEq T] [DecidableEq H] in
theorem mem_push (w : Waiting T Q H) (t u : T) (q q' : Q) :
    u ∈ update w.queue q (w.queue q ++ [t]) q' ↔ u ∈ w.queue q' ∨ (q' = q ∧ u = t) := by
  by_cases hq : q' = q
  · subst hq
    simp
  · simp [hq]

omit [DecidableEq T] [DecidableEq H] in
theorem nodup_push (hw : w.Consistent) (ht : ¬ w.Linked t) (q' : Q) :
    (update w.queue q (w.queue q ++ [t]) q').Nodup := by
  by_cases hq : q' = q
  · subst hq
    rw [update_self, List.nodup_append]
    refine ⟨hw.nodup q', List.nodup_singleton t, fun a ha b hb => ?_⟩
    rw [List.mem_singleton] at hb
    subst hb
    rintro rfl
    exact ht ⟨q', ha⟩
  · rw [update_of_ne hq]
    exact hw.nodup q'

omit [DecidableEq H] in
theorem Consistent.sleep (hw : w.Consistent) (ht : ¬ w.asleep t) (hq : w.live q) : (w.sleep t q).Consistent := by
  have hlinked : ¬ w.Linked t := hw.not_linked_of_awake ht
  have hother : ∀ u, u ≠ t → ((w.sleep t q).Linked u ↔ w.Linked u) := by
    intro u hu
    simp only [Linked, Waiting.sleep, mem_push, hu, and_false, or_false]
  have hheld : ∀ h' u, w.hand h' = some u → u ≠ t := by
    rintro h' u hh rfl
    exact ht (hw.held h' u hh).1
  refine ⟨nodup_push hw hlinked, fun q' u hu => ?_, fun u hu => ?_, fun u hu => ?_, fun h' u hh => ?_, hw.once⟩
  · obtain hmem | ⟨rfl, rfl⟩ := (mem_push w t u q q').mp hu
    · have hne : u ≠ t := by
        rintro rfl
        exact hlinked ⟨q', hmem⟩
      simp only [Waiting.sleep, update_of_ne hne]
      exact hw.linked q' u hmem
    · simp only [Waiting.sleep, update_self]
      exact ⟨trivial, trivial, hq⟩
  · by_cases hut : u = t
    · subst hut
      exact .inl ⟨q, (mem_push w u u q q).mpr (.inr ⟨rfl, rfl⟩)⟩
    · simp only [Waiting.sleep, update_of_ne hut] at hu
      exact (hw.settled u hu).imp_left (hother u hut).mpr
  · by_cases hut : u = t
    · subst hut
      simp [Waiting.sleep] at hu
    · simp only [Waiting.sleep, update_of_ne hut] at hu ⊢
      exact hw.awake u hu
  · have hne := hheld h' u hh
    rw [hother u hne]
    simp only [Waiting.sleep, update_of_ne hne]
    exact hw.held h' u hh

theorem Consistent.take (hw : w.Consistent) (hh : w.hand h = none) {rest : List T} (hq : w.queue q = t :: rest) :
    (w.take h q t rest).Consistent := by
  have hmem : t ∈ w.queue q := by
    rw [hq]
    exact List.mem_cons_self
  have hnodup := hw.nodup q
  rw [hq, List.nodup_cons] at hnodup
  have hsub : ∀ q' u, u ∈ (w.take h q t rest).queue q' → u ∈ w.queue q' ∧ u ≠ t := by
    intro q' u hu
    by_cases hqq : q' = q
    · subst hqq
      simp only [Waiting.take, update_self] at hu
      rw [hq]
      refine ⟨List.mem_cons_of_mem _ hu, ?_⟩
      rintro rfl
      exact hnodup.1 hu
    · simp only [Waiting.take, update_of_ne hqq] at hu
      refine ⟨hu, ?_⟩
      rintro rfl
      exact hqq (hw.queue_unique hu hmem)
  have hkept : ∀ u, u ≠ t → w.Linked u → (w.take h q t rest).Linked u := by
    rintro u hne ⟨q', hu⟩
    refine ⟨q', ?_⟩
    by_cases hqq : q' = q
    · subst hqq
      rw [hq] at hu
      simp only [Waiting.take, update_self]
      exact (List.mem_cons.mp hu).resolve_left hne
    · simp only [Waiting.take, update_of_ne hqq]
      exact hu
  have hhand : ∀ h' u, (w.take h q t rest).hand h' = some u → (h' = h ∧ u = t) ∨ (h' ≠ h ∧ w.hand h' = some u) := by
    intro h' u hu
    by_cases hhh : h' = h
    · subst hhh
      simp only [Waiting.take, update_self, Option.some.injEq] at hu
      exact .inl ⟨rfl, hu.symm⟩
    · simp only [Waiting.take, update_of_ne hhh] at hu
      exact .inr ⟨hhh, hu⟩
  have htaken : ∀ h' u, w.hand h' = some u → u ≠ t := by
    rintro h' u hu rfl
    exact (hw.held h' u hu).2.2 ⟨q, hmem⟩
  refine ⟨fun q' => ?_, fun q' u hu => hw.linked q' u (hsub q' u hu).1, fun u hu => ?_, hw.awake, fun h' u hu => ?_,
    fun h' h'' u hu hu' => ?_⟩
  · by_cases hqq : q' = q
    · subst hqq
      simp only [Waiting.take, update_self]
      exact hnodup.2
    · simp only [Waiting.take, update_of_ne hqq]
      exact hw.nodup q'
  · by_cases hut : u = t
    · subst hut
      exact .inr ⟨h, update_self _ _ _⟩
    refine (hw.settled u hu).imp (hkept u hut) ?_
    rintro ⟨h', hu'⟩
    refine ⟨h', ?_⟩
    have hne : h' ≠ h := by
      rintro rfl
      rw [hh] at hu'
      cases hu'
    simp only [Waiting.take, update_of_ne hne]
    exact hu'
  · obtain ⟨rfl, rfl⟩ | ⟨-, hu⟩ := hhand h' u hu
    · obtain ⟨hsleep, hentry, -⟩ := hw.linked q u hmem
      refine ⟨hsleep, ?_, fun ⟨q', hu'⟩ => (hsub q' u hu').2 rfl⟩
      show w.entry u ≠ none
      rw [hentry]
      exact Option.some_ne_none q
    · obtain ⟨hsleep, hentry, hnot⟩ := hw.held h' u hu
      exact ⟨hsleep, hentry, fun ⟨q', hu'⟩ => hnot ⟨q', (hsub q' u hu').1⟩⟩
  · obtain ⟨rfl, rfl⟩ | ⟨-, hu₁⟩ := hhand h' u hu
    · obtain ⟨rfl, -⟩ | ⟨-, hu₂⟩ := hhand h'' u hu'
      · rfl
      · exact absurd rfl (htaken h'' u hu₂)
    · obtain ⟨rfl, rfl⟩ | ⟨-, hu₂⟩ := hhand h'' u hu'
      · exact absurd rfl (htaken h' u hu₁)
      · exact hw.once h' h'' u hu₁ hu₂

omit [DecidableEq T] [DecidableEq Q] in
theorem Consistent.hand_eq (hw : w.Consistent) (hh : w.hand h = some t) {h' : H} {u : T}
    (hu : update w.hand h none h' = some u) : h' ≠ h ∧ u ≠ t ∧ w.hand h' = some u := by
  have hne : h' ≠ h := by
    rintro rfl
    rw [update_self] at hu
    cases hu
  rw [update_of_ne hne] at hu
  refine ⟨hne, ?_, hu⟩
  rintro rfl
  exact hne (hw.once h' h u hu hh)

omit [DecidableEq T] [DecidableEq Q] in
theorem held_update (hh : w.hand h = some t) {u : T} (hut : u ≠ t) (hu : w.Held u) :
    ∃ h', update w.hand h none h' = some u := by
  obtain ⟨h', hu⟩ := hu
  refine ⟨h', ?_⟩
  have hne : h' ≠ h := by
    rintro rfl
    rw [hh, Option.some.injEq] at hu
    exact hut hu.symm
  rw [update_of_ne hne]
  exact hu

omit [DecidableEq Q] in
theorem Consistent.release (hw : w.Consistent) (hh : w.hand h = some t) : (w.release h t).Consistent := by
  obtain ⟨-, -, hnot⟩ := hw.held h t hh
  refine ⟨hw.nodup, fun q' u hu => ?_, fun u hu => ?_, fun u hu => ?_, fun h' u hu => ?_, fun h' h'' u hu hu' => ?_⟩
  · have hne : u ≠ t := by
      rintro rfl
      exact hnot ⟨q', hu⟩
    simp only [Waiting.release, update_of_ne hne]
    exact hw.linked q' u hu
  · have hne : u ≠ t := by
      rintro rfl
      simp [Waiting.release] at hu
    simp only [Waiting.release, update_of_ne hne] at hu
    exact (hw.settled u hu).imp_right (held_update hh hne)
  · by_cases hne : u = t
    · subst hne
      exact update_self _ _ _
    · simp only [Waiting.release, update_of_ne hne] at hu ⊢
      exact hw.awake u hu
  · obtain ⟨-, hne, hu⟩ := hw.hand_eq hh hu
    simp only [Waiting.release, update_of_ne hne]
    exact hw.held h' u hu
  · exact hw.once h' h'' u (hw.hand_eq hh hu).2.2 (hw.hand_eq hh hu').2.2

omit [DecidableEq Q] [DecidableEq H] in
/-- A sleeper may be woken from outside while it is on a queue, not while a waker has it. -/
theorem Consistent.unlink_iff (hw : w.Consistent) (ht : w.asleep t) : (w.unlink t).Consistent ↔ w.Linked t := by
  have hmem : ∀ q u, u ∈ (w.unlink t).queue q ↔ u ∈ w.queue q ∧ u ≠ t := by
    intro q u
    simp [Waiting.unlink]
  have hlink : ∀ u, u ≠ t → ((w.unlink t).Linked u ↔ w.Linked u) := by
    intro u hne
    simp only [Linked, hmem, hne, ne_eq, not_false_eq_true, and_true]
  constructor
  · intro hw'
    refine (hw.settled t ht).resolve_right ?_
    rintro ⟨h, hh⟩
    have hsleep := (hw'.held h t hh).1
    simp [Waiting.unlink] at hsleep
  · intro hlinked
    have hheld := hw.not_held_of_linked hlinked
    refine ⟨fun q => (hw.nodup q).filter _, fun q u hu => ?_, fun u hu => ?_, fun u hu => ?_, fun h' u hu => ?_, hw.once⟩
    · obtain ⟨hu, hne⟩ := (hmem q u).mp hu
      simp only [Waiting.unlink, update_of_ne hne]
      exact hw.linked q u hu
    · have hne : u ≠ t := by
        rintro rfl
        simp [Waiting.unlink] at hu
      simp only [Waiting.unlink, update_of_ne hne] at hu
      exact (hw.settled u hu).imp_left (hlink u hne).mpr
    · by_cases hne : u = t
      · subst hne
        exact update_self _ _ _
      · simp only [Waiting.unlink, update_of_ne hne] at hu ⊢
        exact hw.awake u hu
    · have hne : u ≠ t := by
        rintro rfl
        exact hheld ⟨h', hu⟩
      rw [hlink u hne]
      simp only [Waiting.unlink, update_of_ne hne]
      exact hw.held h' u hu

end Operations

end Waiting

end LostWakeup.Library
