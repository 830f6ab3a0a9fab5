/-
# LostWakeup.Library.Chained — tables of chains whose lookup compares hashes only.

A key belongs to the chain numbered by its hash, and a lookup takes the first pair of that chain with the
same hash.  Such a table is a partial function of the hash, not of the key: `find` is that function, and
the rules below say what adding and removing a pair does to it.
-/
import Mathlib.Tactic.Abel
import LostWakeup.Library.Count

namespace LostWakeup.Library

open Function (update update_eq_self update_of_ne update_self)

variable {κ ν : Type*}

/-- Chain by chain, the pairs of a table. -/
abbrev Chains (κ ν : Type*) : Type _ := Nat → List (κ × ν)

namespace Chains

variable (hash : κ → Nat) (size : Nat)

/-- The first pair whose key has hash `h`. -/
def find (t : Chains κ ν) (h : Nat) : Option (κ × ν) :=
  (t (h % size)).find? fun p => hash p.1 == h

/-- The pair joins the end of its chain. -/
def append (t : Chains κ ν) (k : κ) (v : ν) : Chains κ ν :=
  update t (hash k % size) (t (hash k % size) ++ [(k, v)])

/-- The first pair with the hash of `k` leaves its chain. -/
def erase (t : Chains κ ν) (k : κ) : Chains κ ν :=
  update t (hash k % size) ((t (hash k % size)).eraseP fun p => hash p.1 == hash k)

/-- The first pair with the hash of `k` keeps its key, and its value changes by `f`. -/
def modify (t : Chains κ ν) (k : κ) (f : ν → ν) : Chains κ ν :=
  update t (hash k % size) ((t (hash k % size)).replaceF fun p =>
    if hash p.1 == hash k then some (p.1, f p.2) else none)

/-- No chain holds two pairs of one hash. -/
def Unique (t : Chains κ ν) : Prop := ∀ b, (t b).Pairwise fun p q => hash p.1 ≠ hash q.1

variable {hash size} {t : Chains κ ν} {k : κ} {v : ν}

theorem hash_of_find {h : Nat} {p : κ × ν} (hp : find hash size t h = some p) : hash p.1 = h := by
  simpa using List.find?_some hp

theorem find_append (hnone : find hash size t (hash k) = none) (h : Nat) :
    find hash size (append hash size t k v) h =
      if h = hash k then some (k, v) else find hash size t h := by
  unfold find at hnone ⊢
  unfold append
  split
  · next heq => simp [heq, hnone]
  · next hne =>
    rcases eq_or_ne (h % size) (hash k % size) with hb | hb
    · have hother : (hash k == h) = false := by simpa using Ne.symm hne
      simp [hb, List.find?_append, hother]
    · rw [update_of_ne hb]

theorem unique_append (hu : Unique hash t) (hnone : find hash size t (hash k) = none) :
    Unique hash (append hash size t k v) := by
  intro b
  unfold append
  rcases eq_or_ne b (hash k % size) with rfl | hb
  · rw [update_self, List.pairwise_append]
    refine ⟨hu _, List.pairwise_singleton _ _, fun p hp q hq => ?_⟩
    rw [List.mem_singleton.1 hq]
    simpa using List.find?_eq_none.1 hnone p hp
  · rw [update_of_ne hb]
    exact hu b

theorem find?_eraseP_eq_none {l : List (κ × ν)} (hl : l.Pairwise fun p q => hash p.1 ≠ hash q.1) (h : Nat) :
    (l.eraseP fun p => hash p.1 == h).find? (fun p => hash p.1 == h) = none := by
  induction l with
  | nil => rfl
  | cons p l ih =>
    rw [List.pairwise_cons] at hl
    rcases eq_or_ne (hash p.1) h with rfl | hp
    · simpa using fun k v hkv => Ne.symm (hl.1 (k, v) hkv)
    · simpa [List.eraseP_cons, hp] using ih hl.2

theorem find?_eraseP_of_ne {l : List (κ × ν)} {h h' : Nat} (hne : h' ≠ h) :
    (l.eraseP fun p => hash p.1 == h).find? (fun p => hash p.1 == h') =
      l.find? fun p => hash p.1 == h' := by
  induction l with
  | nil => rfl
  | cons p l ih =>
    rcases eq_or_ne (hash p.1) h with rfl | hp
    · simp [Ne.symm hne]
    · simp [hp, List.find?_cons, ih]

theorem find_erase (hu : Unique hash t) (h : Nat) :
    find hash size (erase hash size t k) h = if h = hash k then none else find hash size t h := by
  unfold find erase
  split
  · next heq =>
    rw [heq, update_self]
    exact find?_eraseP_eq_none (hu _) _
  · next hne =>
    rcases eq_or_ne (h % size) (hash k % size) with hb | hb
    · rw [hb, update_self, find?_eraseP_of_ne hne]
    · rw [update_of_ne hb]

theorem unique_erase (hu : Unique hash t) : Unique hash (erase hash size t k) := by
  intro b
  unfold erase
  rcases eq_or_ne b (hash k % size) with rfl | hb
  · rw [update_self]
    exact (hu _).sublist List.eraseP_sublist
  · rw [update_of_ne hb]
    exact hu b

/-! ### Changing a value -/

theorem find?_replaceF (f : ν → ν) (l : List (κ × ν)) (h h' : Nat) :
    (l.replaceF fun p => if hash p.1 == h then some (p.1, f p.2) else none).find? (fun p => hash p.1 == h') =
      if h' = h then (l.find? fun p => hash p.1 == h).map fun p => (p.1, f p.2)
      else l.find? fun p => hash p.1 == h' := by
  induction l with
  | nil => simp
  | cons p l ih =>
    rcases eq_or_ne (hash p.1) h with rfl | hp
    · rcases eq_or_ne h' (hash p.1) with rfl | hne
      · simp
      · simp [hne, Ne.symm hne]
    · rcases eq_or_ne h' (hash p.1) with rfl | hne
      · simp [hp]
      · simpa [hp, Ne.symm hne] using ih

theorem map_fst_replaceF (f : ν → ν) (l : List (κ × ν)) (h : Nat) :
    (l.replaceF fun p => if hash p.1 == h then some (p.1, f p.2) else none).map Prod.fst = l.map Prod.fst := by
  induction l with
  | nil => rfl
  | cons p l ih =>
    rcases eq_or_ne (hash p.1) h with hp | hp
    · simp [hp]
    · simpa [hp] using ih

theorem find_modify (f : ν → ν) (h : Nat) : find hash size (modify hash size t k f) h =
    if h = hash k then (find hash size t (hash k)).map fun p => (p.1, f p.2) else find hash size t h := by
  unfold find modify
  rcases eq_or_ne (h % size) (hash k % size) with hb | hb
  · rw [hb, update_self]
    exact find?_replaceF f _ _ _
  have hne : h ≠ hash k := by
    rintro rfl
    exact hb rfl
  rw [update_of_ne hb, if_neg hne]

theorem unique_modify (hu : Unique hash t) (f : ν → ν) : Unique hash (modify hash size t k f) := by
  intro b
  unfold modify
  rcases eq_or_ne b (hash k % size) with rfl | hb
  · rw [update_self]
    have hkeys : ∀ l : List (κ × ν), l.Pairwise (fun p q => hash p.1 ≠ hash q.1) ↔
        (l.map Prod.fst).Pairwise fun x y => hash x ≠ hash y := by
      intro l
      rw [List.pairwise_map]
    rw [hkeys, map_fst_replaceF, ← hkeys]
    exact hu _
  · rw [update_of_ne hb]
    exact hu b

/-! ### Sums over the pairs -/

variable {M : Type*} [AddCancelCommMonoid M] (g : κ × ν → M)

/-- The sum of `g` over all pairs of the chains. -/
def sum (size : Nat) (t : Chains κ ν) : M := ∑ b ∈ Finset.range size, ((t b).map g).sum

theorem sum_update (t : Chains κ ν) (l : List (κ × ν)) {b : Nat} (hb : b < size) :
    sum g size (update t b l) + ((t b).map g).sum = sum g size t + (l.map g).sum :=
  sum_range_update (fun l : List (κ × ν) => (l.map g).sum) t hb l

theorem split_of_find? {l : List (κ × ν)} {p : κ × ν} {h : Nat} (hp : l.find? (fun p => hash p.1 == h) = some p) :
    ∃ as bs, l = as ++ p :: bs ∧ (l.eraseP fun p => hash p.1 == h) = as ++ bs ∧
      ∀ f : ν → ν, (l.replaceF fun p => if hash p.1 == h then some (p.1, f p.2) else none) = as ++ (p.1, f p.2) :: bs := by
  induction l with
  | nil => cases hp
  | cons q l ih =>
    rcases eq_or_ne (hash q.1) h with hq | hq
    · obtain rfl : q = p := by simpa [hq] using hp
      refine ⟨[], l, rfl, ?_, fun f => ?_⟩
      · simp [hq]
      · simp [hq]
    obtain ⟨as, bs, rfl, herase, hreplace⟩ := ih (by simpa [hq] using hp)
    refine ⟨q :: as, bs, rfl, ?_, fun f => ?_⟩
    · simpa [hq] using herase
    · simpa [hq] using hreplace f

theorem sum_append (hsize : 0 < size) : sum g size (append hash size t k v) = sum g size t + g (k, v) := by
  have hnew := sum_update g t (t (hash k % size) ++ [(k, v)]) (Nat.mod_lt (hash k) hsize)
  rw [List.map_append, List.sum_append, List.map_singleton, List.sum_singleton, add_comm ((t _).map g).sum, ← add_assoc] at hnew
  exact add_right_cancel hnew

theorem sum_erase (hsize : 0 < size) {p : κ × ν} (hp : find hash size t (hash k) = some p) :
    sum g size (erase hash size t k) + g p = sum g size t := by
  have hnew := sum_update g t ((t (hash k % size)).eraseP fun p => hash p.1 == hash k) (Nat.mod_lt (hash k) hsize)
  obtain ⟨as, bs, hl, herase, _⟩ := split_of_find? hp
  rw [herase, hl] at hnew
  simp only [List.map_append, List.map_cons, List.sum_append, List.sum_cons] at hnew
  apply add_right_cancel (b := (as.map g).sum + (bs.map g).sum)
  rw [← hnew, erase, herase]
  abel

theorem sum_modify (hsize : 0 < size) (f : ν → ν) {p : κ × ν} (hp : find hash size t (hash k) = some p) :
    sum g size (modify hash size t k f) + g p = sum g size t + g (p.1, f p.2) := by
  have hnew := sum_update g t ((t (hash k % size)).replaceF fun p => if hash p.1 == hash k then some (p.1, f p.2) else none)
    (Nat.mod_lt (hash k) hsize)
  obtain ⟨as, bs, hl, _, hreplace⟩ := split_of_find? hp
  rw [hreplace f, hl] at hnew
  simp only [List.map_append, List.map_cons, List.sum_append, List.sum_cons] at hnew
  apply add_right_cancel (b := (as.map g).sum + (bs.map g).sum)
  rw [modify, hreplace f]
  calc
    _ = sum g size (update t (hash k % size) (as ++ (p.1, f p.2) :: bs)) +
        ((as.map g).sum + (g p + (bs.map g).sum)) := by abel
    _ = sum g size t + ((as.map g).sum + (g (p.1, f p.2) + (bs.map g).sum)) := hnew
    _ = _ := by abel

theorem erase_of_none (hnone : find hash size t (hash k) = none) : erase hash size t k = t := by
  have hchain : (t (hash k % size)).eraseP (fun p => hash p.1 == hash k) = t (hash k % size) :=
    List.eraseP_of_forall_not fun p hp => List.find?_eq_none.mp hnone p hp
  rw [erase, hchain, update_eq_self]

end Chains

end LostWakeup.Library
