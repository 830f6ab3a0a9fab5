/-
# LostWakeup.Library.Links — doubly linked circular lists whose nodes are part of the objects.

`Path k a l b` says that the links lead from `a` through the nodes of `l` to `b`, and back.  A ring is a path from a node
to itself; a list with a separate head is the ring of its head.
-/
import Mathlib.Data.List.Nodup
import Mathlib.Logic.Function.Basic

namespace LostWakeup.Library

open Function (update update_apply update_of_ne update_self)
open List (mem_cons_of_mem mem_cons_self)

variable {ν : Type*} [DecidableEq ν]

/-- The two pointers of every node. -/
@[ext]
structure Links (ν : Type*) where
  next : ν → ν
  prev : ν → ν

namespace Links

def setNext (k : Links ν) (a b : ν) : Links ν := { k with next := update k.next a b }

def setPrev (k : Links ν) (a b : ν) : Links ν := { k with prev := update k.prev a b }

/-- A node of its own. -/
def init (k : Links ν) (x : ν) : Links ν := (k.setNext x x).setPrev x x

/-- Insert `x` between `a` and `b`, which follow each other. -/
def add (k : Links ν) (x a b : ν) : Links ν := (((k.setPrev b x).setNext x b).setPrev x a).setNext a x

def addTail (k : Links ν) (x head : ν) : Links ν := k.add x (k.prev head) head

/-- Make `a` and `b` follow each other. -/
def del (k : Links ν) (a b : ν) : Links ν := (k.setPrev b a).setNext a b

/-- Delete `x` from where it is, and make it a node of its own. -/
def delInit (k : Links ν) (x : ν) : Links ν := (k.del (k.prev x) (k.next x)).init x

/-- The links lead from `a` through `l` to `b`, and back. -/
def Path (k : Links ν) (a : ν) : List ν → ν → Prop
  | [], b => k.next a = b ∧ k.prev b = a
  | x :: l, b => (k.next a = x ∧ k.prev x = a) ∧ Path k x l b

/-- The ring that starts at `x` and goes on with `l`. -/
def Ring (k : Links ν) (x : ν) (l : List ν) : Prop := k.Path x l x ∧ (x :: l).Nodup

/-! ## Paths -/

section Paths

omit [DecidableEq ν]

variable {k k' : Links ν} {a b c x y : ν} {l m : List ν}

theorem path_append : k.Path a (l ++ x :: m) b ↔ k.Path a l x ∧ k.Path x m b := by
  induction l generalizing a with
  | nil => exact Iff.rfl
  | cons y l ih =>
    constructor
    · rintro ⟨hstep, hrest⟩
      rcases ih.mp hrest with ⟨hfst, hsnd⟩
      exact ⟨⟨hstep, hfst⟩, hsnd⟩
    · rintro ⟨⟨hstep, hfst⟩, hsnd⟩
      exact ⟨hstep, ih.mpr ⟨hfst, hsnd⟩⟩

theorem Path.congr (h : k.Path a l b) (hnext : ∀ y ∈ a :: l, k'.next y = k.next y)
    (hprev : ∀ y ∈ l ++ [b], k'.prev y = k.prev y) : k'.Path a l b := by
  induction l generalizing a with
  | nil =>
    have hna := hnext a mem_cons_self
    have hpb := hprev b (List.mem_singleton.mpr rfl)
    exact ⟨hna.trans h.1, hpb.trans h.2⟩
  | cons y l ih =>
    have hna := hnext a mem_cons_self
    have hpy := hprev y mem_cons_self
    refine ⟨⟨hna.trans h.1.1, hpy.trans h.1.2⟩, ih h.2 ?_ ?_⟩
    · exact fun z hz => hnext z (mem_cons_of_mem _ hz)
    · exact fun z hz => hprev z (mem_cons_of_mem _ hz)

theorem path_last (h : k.Path a l b) : ∃ c, c ∈ a :: l ∧ k.next c = b ∧ k.prev b = c := by
  induction l generalizing a with
  | nil => exact ⟨a, mem_cons_self, h⟩
  | cons y l ih =>
    rcases ih h.2 with ⟨c, hc, hlink⟩
    exact ⟨c, mem_cons_of_mem _ hc, hlink⟩

theorem Ring.rotate (h : k.Ring x (l ++ y :: m)) : k.Ring y (m ++ x :: l) := by
  rcases path_append.mp h.1 with ⟨hfst, hsnd⟩
  refine ⟨path_append.mpr ⟨hsnd, hfst⟩, ?_⟩
  have hperm : (x :: (l ++ y :: m)).Perm (y :: (m ++ x :: l)) := by
    have hswap : ((x :: l) ++ (y :: m)).Perm ((y :: m) ++ (x :: l)) := List.perm_append_comm
    exact hswap
  exact hperm.nodup_iff.mp h.2

theorem Ring.prev_mem (h : k.Ring x l) : k.prev x ∈ x :: l := by
  rcases path_last h.1 with ⟨c, hc, -, hprev⟩
  rw [hprev]
  exact hc

theorem Ring.next_mem (h : k.Ring x l) : k.next x ∈ x :: l := by
  rcases h with ⟨hpath, -⟩
  cases l with
  | nil =>
    rw [hpath.1]
    exact mem_cons_self
  | cons y l =>
    rw [hpath.1.1]
    exact mem_cons_of_mem _ mem_cons_self

theorem Ring.next_eq_self (h : k.Ring x l) : k.next x = x ↔ l = [] := by
  rcases h with ⟨hpath, hnodup⟩
  cases l with
  | nil => exact ⟨fun _ => rfl, fun _ => hpath.1⟩
  | cons y l =>
    refine ⟨fun hself => ?_, nofun⟩
    rw [hpath.1.1] at hself
    rw [hself] at hnodup
    exact absurd mem_cons_self (List.nodup_cons.mp hnodup).1

theorem mem_of_back (h : y ∈ l ++ [x]) : y ∈ x :: l := by
  rcases List.mem_append.mp h with hm | hz
  · exact mem_cons_of_mem _ hm
  · rw [List.mem_singleton.mp hz]
    exact mem_cons_self

theorem Ring.congr (h : k.Ring x l) (hnext : ∀ y ∈ x :: l, k'.next y = k.next y)
    (hprev : ∀ y ∈ x :: l, k'.prev y = k.prev y) : k'.Ring x l :=
  ⟨h.1.congr hnext fun y hy => hprev y (mem_of_back hy), h.2⟩

end Paths

/-! ## Adding and deleting -/

section Updates

variable {k : Links ν} {a b x y z : ν} {l m : List ν}

theorem next_add (k : Links ν) (x a b y : ν) :
    (k.add x a b).next y = if y = a then x else if y = x then b else k.next y := by
  simp only [add, setNext, setPrev, update_apply]

theorem prev_add (k : Links ν) (x a b y : ν) :
    (k.add x a b).prev y = if y = x then a else if y = b then x else k.prev y := by
  simp only [add, setNext, setPrev, update_apply]

theorem next_delInit (k : Links ν) (x y : ν) :
    (k.delInit x).next y = if y = x then x else if y = k.prev x then k.next x else k.next y := by
  simp only [delInit, del, init, setNext, setPrev, update_apply]

theorem prev_delInit (k : Links ν) (x y : ν) :
    (k.delInit x).prev y = if y = x then x else if y = k.next x then k.prev x else k.prev y := by
  simp only [delInit, del, init, setNext, setPrev, update_apply]

theorem ring_init (k : Links ν) (x : ν) : (k.init x).Ring x [] :=
  ⟨⟨update_self .., update_self ..⟩, List.nodup_singleton x⟩

theorem Ring.init_other (h : k.Ring z m) (hx : x ∉ z :: m) : (k.init x).Ring z m := by
  refine h.congr (fun y hy => ?_) (fun y hy => ?_)
  · have hne : y ≠ x := fun heq => hx (heq ▸ hy)
    exact update_of_ne hne ..
  · have hne : y ≠ x := fun heq => hx (heq ▸ hy)
    exact update_of_ne hne ..

/-- A node is inserted behind `a`. -/
theorem Ring.insert (h : k.Ring a l) (hx : x ∉ a :: l) : (k.add x a (k.next a)).Ring a (x :: l) := by
  rcases h with ⟨hpath, hnodup⟩
  rw [List.mem_cons, not_or] at hx
  rcases hx with ⟨hxa, hxl⟩
  rcases List.nodup_cons.mp hnodup with ⟨hal, hl⟩
  have hnodup' : (a :: x :: l).Nodup := by
    refine List.nodup_cons.mpr ⟨?_, List.nodup_cons.mpr ⟨hxl, hl⟩⟩
    rw [List.mem_cons, not_or]
    exact ⟨fun heq => hxa heq.symm, hal⟩
  refine ⟨?_, hnodup'⟩
  cases l with
  | nil =>
    rw [hpath.1]
    refine ⟨⟨?_, ?_⟩, ?_, ?_⟩
    · rw [next_add, if_pos rfl]
    · rw [prev_add, if_pos rfl]
    · rw [next_add, if_neg hxa, if_pos rfl]
    · rw [prev_add, if_neg fun heq => hxa heq.symm, if_pos rfl]
  | cons y l =>
    rcases hpath with ⟨⟨hnext, hprev⟩, hrest⟩
    rcases List.nodup_cons.mp hl with ⟨hyl, -⟩
    rw [hnext]
    refine ⟨⟨?_, ?_⟩, ⟨?_, ?_⟩, hrest.congr (fun w hw => ?_) (fun w hw => ?_)⟩
    · rw [next_add, if_pos rfl]
    · rw [prev_add, if_pos rfl]
    · rw [next_add, if_neg hxa, if_pos rfl]
    · have hyx : y ≠ x := fun heq => hxl (heq ▸ mem_cons_self)
      rw [prev_add, if_neg hyx, if_pos rfl]
    · have hwa : w ≠ a := fun heq => hal (heq ▸ hw)
      have hwx : w ≠ x := fun heq => hxl (heq ▸ hw)
      rw [next_add, if_neg hwa, if_neg hwx]
    · rcases List.mem_append.mp hw with hwl | hwa
      · have hwx : w ≠ x := fun heq => hxl (heq ▸ mem_cons_of_mem _ hwl)
        have hwy : w ≠ y := fun heq => hyl (heq ▸ hwl)
        rw [prev_add, if_neg hwx, if_neg hwy]
      rw [List.mem_singleton] at hwa
      have hwx : w ≠ x := fun heq => hxa (heq.symm.trans hwa)
      have hwy : w ≠ y := fun heq => hal (hwa ▸ heq ▸ mem_cons_self)
      rw [prev_add, if_neg hwx, if_neg hwy]

/-- A node is added at the end of a ring, which is before its first node. -/
theorem Ring.addTail (h : k.Ring y l) (hx : x ∉ y :: l) : (k.addTail x y).Ring y (l ++ [x]) := by
  unfold Links.addTail
  rcases List.eq_nil_or_concat l with rfl | ⟨l, c, rfl⟩
  · have hself : k.prev y = y := h.1.2
    have hinsert := h.insert hx
    rw [h.1.1] at hinsert
    rw [hself]
    exact hinsert
  · rw [List.concat_eq_append] at h hx ⊢
    have hlast : k.next c = y ∧ k.prev y = c := (path_append.mp h.1).2
    have hrotated : k.Ring c (y :: l) := h.rotate
    have hx' : x ∉ c :: y :: l := by
      intro hmem
      apply hx
      rcases List.mem_cons.mp hmem with rfl | hmem
      · exact mem_cons_of_mem _ (List.mem_append_right _ (List.mem_singleton.mpr rfl))
      · rcases List.mem_cons.mp hmem with rfl | hmem
        · exact mem_cons_self
        · exact mem_cons_of_mem _ (List.mem_append_left _ hmem)
    have hinsert : (k.add x c (k.next c)).Ring c ([x] ++ y :: l) := hrotated.insert hx'
    rw [hlast.1] at hinsert
    rw [hlast.2, List.append_assoc]
    exact hinsert.rotate

theorem Ring.addTail_other (h : k.Ring y l) (h' : k.Ring z m) (hx : x ∉ z :: m) (hdisj : ∀ w ∈ y :: l, w ∉ z :: m) :
    (k.addTail x y).Ring z m := by
  have hprev := hdisj _ h.prev_mem
  have hhead := hdisj y mem_cons_self
  unfold Links.addTail
  refine h'.congr (fun w hw => ?_) (fun w hw => ?_)
  · have hwc : w ≠ k.prev y := fun heq => hprev (heq ▸ hw)
    have hwx : w ≠ x := fun heq => hx (heq ▸ hw)
    rw [next_add, if_neg hwc, if_neg hwx]
  · have hwx : w ≠ x := fun heq => hx (heq ▸ hw)
    have hwy : w ≠ y := fun heq => hhead (heq ▸ hw)
    rw [prev_add, if_neg hwx, if_neg hwy]

theorem ring_delInit (k : Links ν) (x : ν) : (k.delInit x).Ring x [] := by
  refine ⟨⟨?_, ?_⟩, List.nodup_singleton x⟩
  · rw [next_delInit, if_pos rfl]
  · rw [prev_delInit, if_pos rfl]

theorem Ring.delInit_eq (h : k.Ring x []) : k.delInit x = k := by
  rcases h.1 with ⟨hnext, hprev⟩
  ext y
  · rw [next_delInit, hprev]
    split
    next heq => rw [heq, hnext]
    next => rfl
  rw [prev_delInit, hnext]
  split
  next heq => rw [heq, hprev]
  next => rfl

/-- The node behind `a` is deleted. -/
theorem Ring.deleteNext (h : k.Ring a (x :: l)) : (k.delInit x).Ring a l := by
  rcases h with ⟨⟨⟨hnext, hprev⟩, hrest⟩, hnodup⟩
  rcases List.nodup_cons.mp hnodup with ⟨hal, hl⟩
  rcases List.nodup_cons.mp hl with ⟨hxl, hl'⟩
  have hax : a ≠ x := fun heq => hal (heq ▸ mem_cons_self)
  have hal' : a ∉ l := fun hmem => hal (mem_cons_of_mem _ hmem)
  refine ⟨?_, List.nodup_cons.mpr ⟨hal', hl'⟩⟩
  cases l with
  | nil =>
    refine ⟨?_, ?_⟩
    · rw [next_delInit, if_neg hax, hprev, if_pos rfl]
      exact hrest.1
    · rw [prev_delInit, if_neg hax, hrest.1, if_pos rfl]
      exact hprev
  | cons y l =>
    rcases hrest with ⟨⟨hnext', hprev'⟩, hrest⟩
    rcases List.nodup_cons.mp hl' with ⟨hyl, -⟩
    have hyx : y ≠ x := fun heq => hxl (heq ▸ mem_cons_self)
    refine ⟨⟨?_, ?_⟩, hrest.congr (fun w hw => ?_) (fun w hw => ?_)⟩
    · rw [next_delInit, if_neg hax, hprev, if_pos rfl]
      exact hnext'
    · rw [prev_delInit, if_neg hyx, hnext', if_pos rfl]
      exact hprev
    · have hwx : w ≠ x := fun heq => hxl (heq ▸ hw)
      have hwa : w ≠ a := fun heq => hal' (heq ▸ hw)
      rw [next_delInit, if_neg hwx, hprev, if_neg hwa]
    · have hwx : w ≠ x := by
        rintro rfl
        rcases List.mem_append.mp hw with hwl | hwa
        · exact hxl (mem_cons_of_mem _ hwl)
        · exact hax (List.mem_singleton.mp hwa).symm
      have hwy : w ≠ y := by
        rintro rfl
        rcases List.mem_append.mp hw with hwl | hwa
        · exact hyl hwl
        · exact hal' (List.mem_singleton.mp hwa ▸ mem_cons_self)
      rw [prev_delInit, if_neg hwx, hnext', if_neg hwy]

theorem Ring.delInit (h : k.Ring y (l ++ x :: m)) : (k.delInit x).Ring y (l ++ m) := by
  rcases List.eq_nil_or_concat l with rfl | ⟨l, c, rfl⟩
  · exact h.deleteNext
  · rw [List.concat_eq_append, List.append_assoc] at h ⊢
    have hrotated : k.Ring c (x :: (m ++ y :: l)) := h.rotate
    exact hrotated.deleteNext.rotate

theorem Ring.delInit_first (h : k.Ring x (y :: m)) : (k.delInit x).Ring y m := by
  have hrotated : k.Ring y (m ++ x :: []) := Ring.rotate (l := []) h
  have hdeleted := hrotated.delInit
  rw [List.append_nil] at hdeleted
  exact hdeleted

theorem Ring.delInit_other (h : k.Ring x l) (h' : k.Ring z m) (hdisj : ∀ w ∈ x :: l, w ∉ z :: m) :
    (k.delInit x).Ring z m := by
  have hhead := hdisj x mem_cons_self
  have hnext := hdisj _ h.next_mem
  have hprev := hdisj _ h.prev_mem
  refine h'.congr (fun w hw => ?_) (fun w hw => ?_)
  · have hwx : w ≠ x := fun heq => hhead (heq ▸ hw)
    have hwp : w ≠ k.prev x := fun heq => hprev (heq ▸ hw)
    rw [next_delInit, if_neg hwx, if_neg hwp]
  · have hwx : w ≠ x := fun heq => hhead (heq ▸ hw)
    have hwn : w ≠ k.next x := fun heq => hnext (heq ▸ hw)
    rw [prev_delInit, if_neg hwx, if_neg hwn]

end Updates

end Links

end LostWakeup.Library
