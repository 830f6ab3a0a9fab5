/-
# LostWakeup.Library.Ring — a bounded FIFO stored in a ring with free-running counters.

A ring of `N` cells is indexed by two `w`-bit counters that are only incremented and wrap at `2^w`; a cell is addressed
by a counter modulo `N`.  `Holds data r wr q` says that it holds exactly the queue `q`, oldest element first.
-/
import Mathlib.Data.BitVec
import Mathlib.Logic.Function.Basic

namespace LostWakeup.Library.Ring

open List (length_append)

variable {α : Type*} {w N : Nat} [NeZero N]

/-- The cell a free-running counter addresses. -/
def slot (N : Nat) [NeZero N] (n : BitVec w) : Fin N :=
  ⟨n.toNat % N, Nat.mod_lt _ (Nat.pos_of_neZero N)⟩

/-- The ring holds the queue `q`: the counters differ by its length, and the cell `i` places after
the read counter holds its `i`-th element. -/
structure Holds (data : Fin N → α) (r wr : BitVec w) (q : List α) : Prop where
  counters : wr = r + BitVec.ofNat w q.length
  bounded : q.length ≤ N
  cells : ∀ i (h : i < q.length), data (slot N (r + BitVec.ofNat w i)) = q[i]

theorem slot_add (hdvd : N ∣ 2 ^ w) (r : BitVec w) (i : Nat) :
    (slot N (r + BitVec.ofNat w i)).val = (r.toNat + i) % N := by
  simp only [slot, BitVec.toNat_add, BitVec.toNat_ofNat, Nat.add_mod_mod]
  exact Nat.mod_mod_of_dvd _ hdvd

theorem slot_add_ne (hdvd : N ∣ 2 ^ w) (r : BitVec w) {i j : Nat} (hij : i < j) (hj : j < i + N) :
    slot N (r + BitVec.ofNat w i) ≠ slot N (r + BitVec.ofNat w j) := by
  intro h
  have hval := congrArg Fin.val h
  rw [slot_add hdvd, slot_add hdvd] at hval
  have hsub : (r.toNat + j - (r.toNat + i)) % N = 0 := Nat.sub_mod_eq_zero_of_mod_eq hval.symm
  have hji : r.toNat + j - (r.toNat + i) = j - i := by omega
  rw [hji, Nat.mod_eq_of_lt (by omega)] at hsub
  omega

namespace Holds

variable {data : Fin N → α} {r wr : BitVec w} {q : List α}

theorem toNat_sub (hlt : N < 2 ^ w) (h : Holds data r wr q) : (wr - r).toNat = q.length := by
  have hlen := h.bounded
  have hsub : wr - r = BitVec.ofNat w q.length := by
    rw [h.counters, BitVec.add_comm, BitVec.add_sub_cancel]
  rw [hsub, BitVec.toNat_ofNat, Nat.mod_eq_of_lt (by omega)]

theorem eq_iff_nil (hlt : N < 2 ^ w) (h : Holds data r wr q) : r = wr ↔ q = [] := by
  constructor
  · intro he
    have hsub := h.toNat_sub hlt
    rw [he, BitVec.sub_self] at hsub
    exact List.length_eq_zero_iff.mp hsub.symm
  · rintro rfl
    simpa using h.counters.symm

theorem eq_add_iff_full (hlt : N < 2 ^ w) (h : Holds data r wr q) :
    wr = r + BitVec.ofNat w N ↔ q.length = N := by
  constructor
  · intro he
    have hsub := h.toNat_sub hlt
    rw [he, BitVec.add_comm, BitVec.add_sub_cancel, BitVec.toNat_ofNat, Nat.mod_eq_of_lt hlt] at hsub
    exact hsub.symm
  · intro hlen
    rw [h.counters, hlen]

/-- Storing at the write counter of a ring that is not full appends to the queue. -/
theorem push (hdvd : N ∣ 2 ^ w) (h : Holds data r wr q) (hroom : q.length ≠ N) (a : α) :
    Holds (Function.update data (slot N wr) a) r (wr + 1) (q ++ [a]) where
  counters := by
    rw [h.counters, length_append, List.length_singleton, BitVec.ofNat_add, BitVec.add_assoc]
    rfl
  bounded := by
    have hlen := h.bounded
    simp only [length_append, List.length_singleton]
    omega
  cells := by
    intro i hi
    have hlen := h.bounded
    simp only [length_append, List.length_singleton] at hi
    rcases Nat.lt_succ_iff_lt_or_eq.mp hi with hlt | heq
    · -- an older element: its cell is not the one written
      have hne := slot_add_ne hdvd r hlt (by omega : q.length < i + N)
      rw [Function.update_of_ne (by rw [h.counters]; exact hne), h.cells i hlt,
        List.getElem_append_left hlt]
    · subst heq
      rw [← h.counters, Function.update_self, List.getElem_concat_length rfl]

theorem pop {a : α} (h : Holds data r wr (a :: q)) : Holds data (r + 1) wr q where
  counters := by
    have hone : BitVec.ofNat w (a :: q).length = 1 + BitVec.ofNat w q.length := by
      rw [List.length_cons, Nat.add_comm, BitVec.ofNat_add]
      rfl
    rw [h.counters, hone, BitVec.add_assoc]
  bounded := by
    have hlen := h.bounded
    simp only [List.length_cons] at hlen
    omega
  cells := by
    intro i hi
    have hcell := h.cells (i + 1) (by simpa using hi)
    have hidx : r + BitVec.ofNat w (i + 1) = r + 1 + BitVec.ofNat w i := by
      rw [Nat.add_comm, BitVec.ofNat_add, BitVec.add_assoc]
      rfl
    rw [hidx] at hcell
    simpa using hcell

theorem head {a : α} (h : Holds data r wr (a :: q)) : data (slot N r) = a := by
  have hcell := h.cells 0 (by simp)
  rw [List.getElem_cons_zero] at hcell
  simpa using hcell

theorem drop_last {a : α} (h : Holds data r wr (q ++ [a])) : Holds data r (wr - 1) q where
  counters := by
    have hone : BitVec.ofNat w (q ++ [a]).length = BitVec.ofNat w q.length + 1 := by
      rw [length_append, List.length_singleton, BitVec.ofNat_add]
      rfl
    rw [h.counters, hone, ← BitVec.add_assoc, BitVec.add_sub_cancel]
  bounded := by
    have hlen := h.bounded
    rw [length_append] at hlen
    omega
  cells := by
    intro i hi
    have hcell := h.cells i (by rw [length_append]; omega)
    rwa [List.getElem_append_left hi] at hcell

theorem last {a : α} (h : Holds data r wr (q ++ [a])) : data (slot N (wr - 1)) = a := by
  have hcell := h.cells q.length (by simp)
  rwa [List.getElem_concat_length rfl, ← h.drop_last.counters] at hcell

theorem front {q' : List α} (h : Holds data r wr (q ++ q')) : Holds data r (r + BitVec.ofNat w q.length) q where
  counters := rfl
  bounded := by
    have hlen := h.bounded
    rw [length_append] at hlen
    omega
  cells := by
    intro i hi
    have hcell := h.cells i (by rw [length_append]; omega)
    rwa [List.getElem_append_left hi] at hcell

end Holds

theorem holds_nil (data : Fin N → α) (r : BitVec w) : Holds data r r [] :=
  ⟨by simp, by simp, by intro i hi; simp at hi⟩

end LostWakeup.Library.Ring
