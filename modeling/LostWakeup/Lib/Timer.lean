/-
# LostWakeup.Lib.Timer — `src/lib/timer.c`: timers, and the list that a clock tick goes through.

A timer is due once the clock, in nanoseconds, is past its `expires_end`.  Both are taken modulo `2^64`, and the clock
falls back now and then.  A timer never expires too early for that, if its `expires_end` has not wrapped; it expires in
time if the clock has not fallen back since it was set.
-/
import Mathlib.Data.List.Nodup
import Mathlib.Logic.Function.Basic
import LostWakeup.Lib.Clock

namespace LostWakeup.Lib.Timer

open Library Lib.Clock

/-! ## Timers -/

/-- `struct timer_list`.  The function and its argument go with the owner of a timer. -/
structure timer_list where
  expires : Nat
  expires_end : Nat
  count : Int
  interval : Nat
  deriving DecidableEq

/-- The timers of some owners, and the owners of those that are linked in `timer_head`. -/
structure Timers (K : Type) where
  entry : List K
  timer : K → timer_list

instance decTimeOut (board : Board) (time expires_end : Nat) : Decidable (TIME_OUT board time expires_end) :=
  inferInstanceAs (Decidable (_ > _))

section Operations

variable {K : Type} [DecidableEq K]

/-- `add_timer_atomic` up to the test of the list. -/
def Timers.set (s : Timers K) (board : Board) (now : Nat) (k : K) (expires : Nat) : Timers K :=
  let t := { s.timer k with expires_end := add64 expires (TIME2NS board now), expires := expires }
  { s with timer := Function.update s.timer k t }

/-- The rest of `add_timer_atomic`. -/
def Timers.link (s : Timers K) (k : K) : Timers K :=
  { s with entry := if k ∈ s.entry then s.entry else s.entry ++ [k] }

def add_timer_atomic (board : Board) (now : Nat) (s : Timers K) (k : K) (expires : Nat) : Timers K :=
  (s.set board now k expires).link k

def delete_timer_atomic (s : Timers K) (k : K) : Timers K := { s with entry := s.entry.erase k }

/-- What becomes of a timer that was due, after its function. -/
def expired (board : Board) (now : Nat) (t : timer_list) : timer_list :=
  if t.count = -1 then
    let again := if t.interval = 2 ^ 64 - 1 then t.expires else t.interval
    { t with expires_end := add64 again (TIME2NS board now) }
  else { t with expires_end := 0, expires := 0 }

def expire (board : Board) (now : Nat) (s : Timers K) (k : K) : Timers K where
  entry := if (s.timer k).count = -1 then s.entry else s.entry.erase k
  timer := Function.update s.timer k (expired board now (s.timer k))

/-- `timer_list_decrease_atomic` from some entry on, and the owners whose functions it calls; the counter is read
before the call, and for a timer that stays linked also after it. -/
def timer_list_decrease_atomic (board : Board) (test rearm : K → Nat) : List K → Timers K → Timers K × List K
  | [], s => (s, [])
  | k :: ks, s =>
    if TIME_OUT board (test k) (s.timer k).expires_end then
      let r := timer_list_decrease_atomic board test rearm ks (expire board (rearm k) s k)
      (r.1, k :: r.2)
    else timer_list_decrease_atomic board test rearm ks s

end Operations

/-! ## Nanoseconds that have gone by -/

section Elapsed

variable {board : Board} {since time wait : Nat}

/-- **No timer is early**, even if the clock has fallen back. -/
theorem time_out_elapsed (hle : since ≤ time) (hout : TIME_OUT board time (wait + TIME2NS board since)) :
    wait * FREQUENCY board < (time - since) * 1000000000 := by
  have ha := Nat.div_add_mod (since * 1000000000) (2 ^ 64)
  have hb := Nat.div_add_mod (time * 1000000000) (2 ^ 64)
  have hmul : since * 1000000000 ≤ time * 1000000000 := Nat.mul_le_mul_right _ hle
  have hturns : since * 1000000000 / 2 ^ 64 ≤ time * 1000000000 / 2 ^ 64 := Nat.div_le_div_right hmul
  rw [Nat.mul_sub_right_distrib]
  by_contra hearly
  -- the product has grown by no more than the wait, so neither has what is left of it
  have hmod : time * 1000000000 % 2 ^ 64 ≤ since * 1000000000 % 2 ^ 64 + wait * FREQUENCY board := by
    omega
  have hdiv := @Nat.div_le_div_right _ _ (FREQUENCY board) hmod
  rw [Nat.add_mul_div_right _ _ (frequency_pos board)] at hdiv
  have hlt : wait + TIME2NS board since < TIME2NS board time := hout
  simp only [TIME2NS, mul64] at hlt
  omega

/-- **A timer is not late** if the product has not wrapped. -/
theorem time_out_of_elapsed (hturns : since * 1000000000 / 2 ^ 64 = time * 1000000000 / 2 ^ 64)
    (helapsed : (wait + 1) * FREQUENCY board ≤ (time - since) * 1000000000) :
    TIME_OUT board time (wait + TIME2NS board since) := by
  have ha := Nat.div_add_mod (since * 1000000000) (2 ^ 64)
  have hb := Nat.div_add_mod (time * 1000000000) (2 ^ 64)
  rw [Nat.mul_sub_right_distrib] at helapsed
  have hpos : 0 < (wait + 1) * FREQUENCY board := Nat.mul_pos (Nat.succ_pos wait) (frequency_pos board)
  have hmod : since * 1000000000 % 2 ^ 64 + (wait + 1) * FREQUENCY board ≤ time * 1000000000 % 2 ^ 64 := by
    rw [hturns] at ha
    omega
  have hdiv := @Nat.div_le_div_right _ _ (FREQUENCY board) hmod
  rw [Nat.add_mul_div_right _ _ (frequency_pos board)] at hdiv
  show wait + TIME2NS board since < TIME2NS board time
  simp only [TIME2NS, mul64]
  omega

end Elapsed

/-! ## Arming -/

section Arming

variable {K : Type} [DecidableEq K] {s : Timers K} {k k' : K}

theorem link_nodup (h : s.entry.Nodup) : (s.link k).entry.Nodup := by
  dsimp only [Timers.link]
  split
  · exact h
  · next hk =>
    rw [← List.concat_eq_append]
    exact h.concat hk

theorem mem_link : k ∈ (s.link k).entry := by
  dsimp only [Timers.link]
  split
  · assumption
  · exact List.mem_append_right _ List.mem_cons_self

theorem mem_link_other (h : k' ≠ k) : k' ∈ (s.link k).entry ↔ k' ∈ s.entry := by
  dsimp only [Timers.link]
  split
  · exact Iff.rfl
  · rw [List.mem_append, List.mem_singleton, or_iff_left h]

variable {board : Board} {now expires : Nat}

theorem add_timer_own :
    (add_timer_atomic board now s k expires).timer k =
      { s.timer k with expires_end := add64 expires (TIME2NS board now), expires := expires } :=
  Function.update_self _ _ _

theorem add_timer_other (h : k' ≠ k) :
    (add_timer_atomic board now s k expires).timer k' = s.timer k' ∧
    (k' ∈ (add_timer_atomic board now s k expires).entry ↔ k' ∈ s.entry) :=
  ⟨Function.update_of_ne h _ _, mem_link_other h⟩

end Arming

/-! ## What a tick does -/

section Walk

variable {K : Type} [DecidableEq K] {board : Board}

theorem expire_other {now : Nat} {s : Timers K} {k k' : K} (h : k' ≠ k) :
    (expire board now s k).timer k' = s.timer k' ∧ (k' ∈ (expire board now s k).entry ↔ k' ∈ s.entry) := by
  refine ⟨Function.update_of_ne h _ _, ?_⟩
  dsimp only [expire]
  split
  · exact Iff.rfl
  · exact List.mem_erase_of_ne h

theorem expire_own {now : Nat} {s : Timers K} {k : K} (hnodup : s.entry.Nodup) (h : k ∈ s.entry) :
    (expire board now s k).timer k = expired board now (s.timer k) ∧
    (k ∈ (expire board now s k).entry ↔ (s.timer k).count = -1) := by
  refine ⟨Function.update_self _ _ _, ?_⟩
  dsimp only [expire]
  split
  · next hcount => exact iff_of_true h hcount
  · next hcount => exact iff_of_false hnodup.not_mem_erase hcount

theorem expire_nodup {now : Nat} {s : Timers K} {k : K} (h : s.entry.Nodup) :
    (expire board now s k).entry.Nodup := by
  dsimp only [expire]
  split
  · exact h
  · exact h.erase k

theorem decrease_nodup {test rearm : K → Nat} {ks : List K} {s : Timers K} (h : s.entry.Nodup) :
    (timer_list_decrease_atomic board test rearm ks s).1.entry.Nodup := by
  induction ks generalizing s with
  | nil => exact h
  | cons k ks ih =>
    rw [timer_list_decrease_atomic]
    split
    · exact ih (expire_nodup h)
    · exact ih h

theorem decrease_other {test rearm : K → Nat} {ks : List K} {s : Timers K} {k : K} (h : k ∉ ks) :
    k ∉ (timer_list_decrease_atomic board test rearm ks s).2 ∧
    (timer_list_decrease_atomic board test rearm ks s).1.timer k = s.timer k ∧
    (k ∈ (timer_list_decrease_atomic board test rearm ks s).1.entry ↔ k ∈ s.entry) := by
  induction ks generalizing s with
  | nil => exact ⟨List.not_mem_nil, rfl, Iff.rfl⟩
  | cons j ks ih =>
    rw [List.mem_cons, not_or] at h
    obtain ⟨hne, hrest⟩ := h
    rw [timer_list_decrease_atomic]
    split
    · obtain ⟨hfired, htimer, hentry⟩ := @ih (expire board (rearm j) s j) hrest
      obtain ⟨hsame, hlinked⟩ := @expire_other K _ board (rearm j) s j k hne
      refine ⟨?_, htimer.trans hsame, hentry.trans hlinked⟩
      rw [List.mem_cons, not_or]
      exact ⟨hne, hfired⟩
    · exact ih hrest

/-- What a tick does with a timer that it comes to: it goes off if it is due. -/
theorem decrease_mem {test rearm : K → Nat} {ks : List K} {s : Timers K} {k : K} (hnodup : ks.Nodup)
    (hentry : s.entry.Nodup) (h : k ∈ ks) (hk : k ∈ s.entry) :
    (TIME_OUT board (test k) (s.timer k).expires_end ∧
      (timer_list_decrease_atomic board test rearm ks s).2.count k = 1 ∧
      (timer_list_decrease_atomic board test rearm ks s).1.timer k = expired board (rearm k) (s.timer k) ∧
      (k ∈ (timer_list_decrease_atomic board test rearm ks s).1.entry ↔ (s.timer k).count = -1)) ∨
    (¬TIME_OUT board (test k) (s.timer k).expires_end ∧
      k ∉ (timer_list_decrease_atomic board test rearm ks s).2 ∧
      (timer_list_decrease_atomic board test rearm ks s).1.timer k = s.timer k ∧
      k ∈ (timer_list_decrease_atomic board test rearm ks s).1.entry) := by
  induction ks generalizing s with
  | nil => exact absurd h List.not_mem_nil
  | cons j ks ih =>
    obtain ⟨hj, hks⟩ := List.nodup_cons.mp hnodup
    rw [timer_list_decrease_atomic]
    rcases eq_or_ne k j with rfl | hne
    · split
      · next hout =>
        obtain ⟨hfired, htimer, hlinked⟩ :=
          @decrease_other K _ board test rearm ks (expire board (rearm k) s k) k hj
        obtain ⟨hown, hstays⟩ := @expire_own K _ board (rearm k) s k hentry hk
        refine .inl ⟨hout, ?_, htimer.trans hown, hlinked.trans hstays⟩
        rw [List.count_cons_self, List.count_eq_zero_of_not_mem hfired]
      · next hout =>
        obtain ⟨hfired, htimer, hlinked⟩ := @decrease_other K _ board test rearm ks s k hj
        exact .inr ⟨hout, hfired, htimer, hlinked.mpr hk⟩
    · have hmem : k ∈ ks := (List.mem_cons.mp h).resolve_left hne
      split
      · obtain ⟨hsame, hlinked⟩ := @expire_other K _ board (rearm j) s j k hne
        have hrest := @ih (expire board (rearm j) s j) hks (expire_nodup hentry) hmem (hlinked.mpr hk)
        rw [hsame] at hrest
        rcases hrest with ⟨hout, hcount, htimer, hstays⟩ | ⟨hout, hfired, htimer, hstays⟩
        · refine .inl ⟨hout, ?_, htimer, hstays⟩
          rw [List.count_cons_of_ne (Ne.symm hne), hcount]
        · refine .inr ⟨hout, ?_, htimer, hstays⟩
          rw [List.mem_cons, not_or]
          exact ⟨hne, hfired⟩
      · exact ih hks hentry hmem hk

end Walk

end LostWakeup.Lib.Timer
