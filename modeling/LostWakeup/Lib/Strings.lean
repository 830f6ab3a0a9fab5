/-
# LostWakeup.Lib.Strings — the string functions that copy into arrays.

An array, or what a pointer points to, is the list of its bytes from there on.  The functions follow
pointers without knowing where an array ends; here an access past the end has no outcome, `none`.
-/
import Mathlib.Data.List.Basic
import Mathlib.Data.UInt

namespace LostWakeup.Lib.Strings

open List (mem_cons_of_mem mem_cons_self)

/-- A C string: its bytes, without the NUL behind them. -/
structure CString where
  bytes : List UInt8
  nul_free : 0 ∉ bytes

/-- The bytes of a string and its NUL. -/
def CString.memory (s : CString) : List UInt8 := s.bytes ++ [0]

/-! ## The functions -/

def strlen : List UInt8 → Option Nat
  | [] => none
  | c :: s => if c = 0 then some 0 else (strlen s).map (· + 1)

/-- The bytes that `strncpy` writes: after the NUL only NULs. -/
def copied : List UInt8 → Nat → Option (List UInt8)
  | _, 0 => some []
  | [], _ + 1 => none
  | c :: t, n + 1 => if c = 0 then some (List.replicate (n + 1) 0) else (copied t n).map (c :: ·)

/-- Bytes written to the front of an array. -/
def store (s bytes : List UInt8) : Option (List UInt8) :=
  if bytes.length ≤ s.length then some (bytes ++ s.drop bytes.length) else none

/-- `strncpy`: the array after it. -/
def strncpy (s t : List UInt8) (n : Nat) : Option (List UInt8) := (copied t n).bind (store s)

/-- The bytes that `safestrcpy` writes for `0 < n`: one more than it copies. -/
def copiedSafe : List UInt8 → Nat → Option (List UInt8)
  | _, 0 => some [0]
  | [], _ + 1 => none
  | c :: t, n + 1 => if c = 0 then some [0, 0] else (copiedSafe t n).map (c :: ·)

/-- `safestrcpy`: the array after it.  For `n = 0` it returns at once. -/
def safestrcpy (s t : List UInt8) (n : Nat) : Option (List UInt8) :=
  if n = 0 then some s else (copiedSafe t n).bind (store s)

/-- `strncmp`, of memory that is readable up to the first difference. -/
def strncmp : List UInt8 → List UInt8 → Nat → Int
  | _, _, 0 => 0
  | p, q, n + 1 =>
    if p.headD 0 ≠ 0 ∧ p.headD 0 = q.headD 0 then strncmp p.tail q.tail n
    else (p.headD 0).toNat - (q.headD 0).toNat

/-- `strchr`, for a character other than NUL: the index of what it points to. -/
def strchr (str : CString) (c : UInt8) : Option Nat := str.bytes.idxOf? c

/-- `str_split`: the two arrays after it, unless the character is missing. -/
def str_split (str : CString) (ch : UInt8) (str1 str2 : List UInt8) :
    Option (Option (List UInt8 × List UInt8)) :=
  match strchr str ch with
  | none => some none
  | some p =>
    (strncpy str1 str.memory p).bind fun str1 =>
      (strncpy str2 (str.memory.drop (p + 1)) (str.bytes.length - 1 - p)).map fun str2 => some (str1, str2)

/-! ## Lengths -/

theorem strlen_append {s : List UInt8} (h : 0 ∉ s) (r : List UInt8) : strlen (s ++ 0 :: r) = some s.length := by
  induction s with
  | nil => rfl
  | cons c s ih =>
    have hc : c ≠ 0 := fun h0 => h (h0 ▸ mem_cons_self)
    simp [strlen, hc, ih fun h0 => h (mem_cons_of_mem _ h0)]

theorem strlen_eq_none {s : List UInt8} (h : 0 ∉ s) : strlen s = none := by
  induction s with
  | nil => rfl
  | cons c s ih =>
    have hc : c ≠ 0 := fun h0 => h (h0 ▸ mem_cons_self)
    simp [strlen, hc, ih fun h0 => h (mem_cons_of_mem _ h0)]

theorem split_at_nul (s : List UInt8) : 0 ∉ s ∨ ∃ p r, s = p ++ 0 :: r ∧ 0 ∉ p := by
  by_cases h : (0 : UInt8) ∈ s
  · obtain ⟨p, r, rfl, hp⟩ := List.eq_append_cons_of_mem h
    exact .inr ⟨p, r, rfl, hp⟩
  · exact .inl h

/-! ## Copies -/

theorem copied_full {s : List UInt8} (h : 0 ∉ s) (r : List UInt8) {n : Nat} (hn : n ≤ s.length) :
    copied (s ++ r) n = some (s.take n) := by
  induction s generalizing n with
  | nil =>
    rw [Nat.le_zero.mp hn]
    simp [copied]
  | cons c s ih =>
    have hc : c ≠ 0 := fun h0 => h (h0 ▸ mem_cons_self)
    have hs : 0 ∉ s := fun h0 => h (mem_cons_of_mem _ h0)
    rcases n with _ | n
    · simp [copied]
    · simp [copied, hc, ih hs (Nat.le_of_succ_le_succ hn)]

theorem copied_padded {s : List UInt8} (h : 0 ∉ s) (r : List UInt8) {n : Nat} (hn : s.length ≤ n) :
    copied (s ++ 0 :: r) n = some (s ++ List.replicate (n - s.length) 0) := by
  induction s generalizing n with
  | nil =>
    rcases n with _ | n
    · simp [copied]
    · simp [copied]
  | cons c s ih =>
    have hc : c ≠ 0 := fun h0 => h (h0 ▸ mem_cons_self)
    have hs : 0 ∉ s := fun h0 => h (mem_cons_of_mem _ h0)
    rcases n with _ | n
    · simp at hn
    · simp [copied, hc, ih hs (Nat.le_of_succ_le_succ hn)]

theorem copied_string {s : List UInt8} (h : 0 ∉ s) (n : Nat) :
    ∃ bytes, ∀ r, copied (s ++ 0 :: r) n = some bytes := by
  rcases Nat.le_total n s.length with hn | hn
  · exact ⟨s.take n, fun r => copied_full h (0 :: r) hn⟩
  · exact ⟨s ++ List.replicate (n - s.length) 0, fun r => copied_padded h r hn⟩

theorem copied_length {t bytes : List UInt8} {n : Nat} (h : copied t n = some bytes) : bytes.length = n := by
  induction t generalizing n bytes with
  | nil =>
    rcases n with _ | n
    · obtain rfl := Option.some_inj.mp h
      rfl
    · simp [copied] at h
  | cons c t ih =>
    rcases n with _ | n
    · obtain rfl := Option.some_inj.mp h
      rfl
    simp only [copied] at h
    split at h
    · obtain rfl := Option.some_inj.mp h
      simp
    · obtain ⟨bytes', hb, rfl⟩ := Option.map_eq_some_iff.mp h
      simp [ih hb]

theorem copiedSafe_string {s : List UInt8} (h : 0 ∉ s) (r : List UInt8) :
    copiedSafe (s ++ r) s.length = some (s ++ [0]) := by
  induction s with
  | nil => simp [copiedSafe]
  | cons c s ih =>
    have hc : c ≠ 0 := fun h0 => h (h0 ▸ mem_cons_self)
    simp [copiedSafe, hc, ih fun h0 => h (mem_cons_of_mem _ h0)]

theorem safestrcpy_strlen (s : List UInt8) {t : List UInt8} (h : 0 ∉ t) (r : List UInt8) :
    safestrcpy s (t ++ r) t.length =
      if t = [] then some s
      else if t.length < s.length then some (t ++ 0 :: s.drop (t.length + 1)) else none := by
  by_cases ht : t = []
  · simp [safestrcpy, ht]
  · have hlen : t.length ≠ 0 := fun h0 => ht (List.length_eq_zero_iff.mp h0)
    rw [safestrcpy, if_neg hlen, copiedSafe_string h, if_neg ht]
    simp [store, Nat.succ_le_iff]

theorem store_length {s bytes s' : List UInt8} (h : store s bytes = some s') : s'.length = s.length := by
  unfold store at h
  split at h
  · obtain rfl := Option.some_inj.mp h
    rw [List.length_append, List.length_drop]
    omega
  · exact absurd h (by simp)

theorem strncpy_length {s t s' : List UInt8} {n : Nat} (h : strncpy s t n = some s') : s'.length = s.length := by
  obtain ⟨bytes, -, hstore⟩ := Option.bind_eq_some_iff.mp h
  exact store_length hstore

/-! ## Comparisons -/

theorem strncmp_cons (p : List UInt8) (d : UInt8) (q : List UInt8) (n : Nat) :
    strncmp p (d :: q) (n + 1) =
      if p.headD 0 ≠ 0 ∧ p.headD 0 = d then strncmp p.tail q n else ((p.headD 0).toNat : Int) - d.toNat := rfl

theorem strncmp_string (p : List UInt8) {q : List UInt8} (h : 0 ∉ q) (r r' : List UInt8) (n : Nat) :
    strncmp p (q ++ 0 :: r) n = strncmp p (q ++ 0 :: r') n := by
  induction q generalizing p n with
  | nil =>
    rcases n with _ | n
    · simp [strncmp]
    · have hstop : ¬ (p.headD 0 ≠ 0 ∧ p.headD 0 = (0 : UInt8)) := fun hc => hc.1 hc.2
      rw [List.nil_append, List.nil_append, strncmp_cons, strncmp_cons, if_neg hstop, if_neg hstop]
  | cons c q ih =>
    rcases n with _ | n
    · simp [strncmp]
    · rw [List.cons_append, List.cons_append, strncmp_cons, strncmp_cons,
        ih p.tail (fun h0 => h (mem_cons_of_mem _ h0))]

theorem strncmp_eq_zero_iff {p q : List UInt8} {n : Nat} (hq : n ≤ q.length) (hnul : 0 ∉ q.take n) :
    strncmp p q n = 0 ↔ p.take n = q.take n := by
  induction n generalizing p q with
  | zero => simp [strncmp]
  | succ n ih =>
    rcases q with _ | ⟨d, q⟩
    · simp at hq
    have hd : d ≠ 0 := fun h0 => hnul (h0 ▸ mem_cons_self)
    have hrest : 0 ∉ q.take n := fun h0 => hnul (mem_cons_of_mem _ h0)
    rw [strncmp_cons]
    rcases p with _ | ⟨c, p⟩
    · have hd0 : d.toNat ≠ 0 := fun h0 => hd (UInt8.toNat_inj.mp h0)
      simp [hd0]
    by_cases hc : c = d
    · subst hc
      have hih := @ih p q (Nat.le_of_succ_le_succ hq) hrest
      simpa [hd] using hih
    have hsub : (c.toNat : Int) - d.toNat ≠ 0 := by
      intro h0
      exact hc (UInt8.toNat_inj.mp (by omega))
    simp [hc, hsub]

theorem strncmp_of_agree {p q : List UInt8} {n : Nat} (h : ∀ i < n, p.getD i 0 = q.getD i 0) :
    strncmp p q n = 0 := by
  induction n generalizing p q with
  | zero => simp [strncmp]
  | succ n ih =>
    have hhead : p.headD 0 = q.headD 0 := by
      have h0 := h 0 (Nat.succ_pos n)
      simpa [List.getD_eq_getElem?_getD, List.headD_eq_head?_getD, List.head?_eq_getElem?] using h0
    have htail : strncmp p.tail q.tail n = 0 := by
      apply ih
      intro i hi
      have hi1 := h (i + 1) (Nat.succ_lt_succ hi)
      simpa [List.getD_eq_getElem?_getD] using hi1
    rw [strncmp, htail, hhead, Int.sub_self]
    exact ite_self 0

/-- A string is compared up to its NUL. -/
theorem strncmp_string_eq_zero_iff {p q : List UInt8} {n : Nat} (hq : 0 ∉ q) (hn : q.length < n) :
    strncmp p q n = 0 ↔ ∀ i ≤ q.length, p.getD i 0 = q.getD i 0 := by
  induction q generalizing p n with
  | nil =>
    obtain ⟨n, rfl⟩ : ∃ m, n = m + 1 := ⟨n - 1, by simp at hn; omega⟩
    have hstop : ¬ (p.headD 0 ≠ 0 ∧ p.headD 0 = ([] : List UInt8).headD 0) := fun hc => hc.1 hc.2
    rw [strncmp, if_neg hstop]
    rcases p with _ | ⟨c, p⟩
    · simp
    have hc : (c.toNat : Int) - (0 : UInt8).toNat = 0 ↔ c = 0 := by
      rw [← UInt8.toNat_inj]
      simp
    simpa using hc
  | cons d q ih =>
    obtain ⟨n, rfl⟩ : ∃ m, n = m + 1 := ⟨n - 1, by simp at hn; omega⟩
    have hd : d ≠ 0 := fun h0 => hq (h0 ▸ mem_cons_self)
    have hhead : p.headD 0 = p.getD 0 0 := by rcases p with _ | ⟨c, p⟩ <;> rfl
    have htail : ∀ i, p.tail.getD i 0 = p.getD (i + 1) 0 := by
      intro i
      rcases p with _ | ⟨c, p⟩ <;> rfl
    have hsplit : (∀ i ≤ (d :: q).length, p.getD i 0 = (d :: q).getD i 0) ↔
        p.getD 0 0 = d ∧ ∀ i ≤ q.length, p.tail.getD i 0 = q.getD i 0 := by
      constructor
      · intro h
        refine ⟨h 0 (Nat.zero_le _), fun i hi => ?_⟩
        rw [htail]
        exact h (i + 1) (Nat.succ_le_succ hi)
      rintro ⟨h0, h⟩ (_ | i) hi
      · exact h0
      · rw [← htail]
        exact h i (Nat.le_of_succ_le_succ hi)
    rw [strncmp_cons, hsplit, hhead]
    by_cases hc : p.getD 0 0 = d
    · rw [if_pos ⟨hc ▸ hd, hc⟩, and_iff_right hc]
      exact ih (fun h0 => hq (mem_cons_of_mem _ h0)) (by simpa using hn)
    · rw [if_neg fun h => hc h.2]
      refine ⟨fun h => absurd (UInt8.toNat_inj.mp ?_) hc, fun h => absurd h.1 hc⟩
      omega

/-- Two strings in arrays compare as equal if they are. -/
theorem strncmp_strings {p q : List UInt8} (hp : 0 ∉ p) (hq : 0 ∉ q) (r r' : List UInt8) {n : Nat} (hn : q.length < n) :
    strncmp (p ++ 0 :: r) (q ++ 0 :: r') n = 0 ↔ p = q := by
  induction q generalizing p n with
  | nil =>
    obtain ⟨n, rfl⟩ := Nat.exists_eq_succ_of_ne_zero (Nat.pos_iff_ne_zero.mp (Nat.zero_lt_of_lt hn))
    have hstop : ¬ ((p ++ 0 :: r).headD 0 ≠ 0 ∧ (p ++ 0 :: r).headD 0 = 0) := fun h => h.1 h.2
    rw [List.nil_append, strncmp_cons, if_neg hstop]
    rcases p with _ | ⟨c, p⟩
    · simp
    · have hc : c ≠ 0 := fun h0 => hp (h0 ▸ mem_cons_self)
      have hc0 : c.toNat ≠ 0 := fun h0 => hc (UInt8.toNat_inj.mp h0)
      simp [hc0]
  | cons d q ih =>
    obtain ⟨n, rfl⟩ := Nat.exists_eq_succ_of_ne_zero (Nat.pos_iff_ne_zero.mp (Nat.zero_lt_of_lt hn))
    have hd : d ≠ 0 := fun h0 => hq (h0 ▸ mem_cons_self)
    rw [List.cons_append, strncmp_cons]
    rcases p with _ | ⟨c, p⟩
    · have hd0 : d.toNat ≠ 0 := fun h0 => hd (UInt8.toNat_inj.mp h0)
      simp [hd0]
    rw [List.mem_cons, not_or] at hp hq
    have hrest := ih hp.2 hq.2 (Nat.lt_of_succ_lt_succ hn)
    rw [List.cons_append, List.headD_cons, List.tail_cons]
    by_cases hcd : c = d
    · rw [if_pos ⟨hcd ▸ hd, hcd⟩, hrest, hcd]
      simp
    · rw [if_neg fun h => hcd h.2]
      refine ⟨fun h => absurd (UInt8.toNat_inj.mp (by omega)) hcd, fun h => absurd (List.cons.inj h).1 hcd⟩

/-! ## Splits -/

theorem str_split_missing {str : CString} {ch : UInt8} (h : ch ∉ str.bytes) (str1 str2 : List UInt8) :
    str_split str ch str1 str2 = some none := by
  have hnone : strchr str ch = none := by simpa [strchr] using h
  simp [str_split, hnone]

/-- Both parts are copied without a NUL behind them. -/
theorem str_split_found {str : CString} {ch : UInt8} {s t : List UInt8} (h : str.bytes = s ++ ch :: t) (hs : ch ∉ s)
    (str1 str2 : List UInt8) :
    str_split str ch str1 str2 = (store str1 s).bind fun str1 => (store str2 t).map fun str2 => some (str1, str2) := by
  have hnul := str.nul_free
  rw [h] at hnul
  have hs0 : 0 ∉ s := fun h0 => hnul (List.mem_append_left _ h0)
  have ht0 : 0 ∉ t := fun h0 => hnul (List.mem_append_right _ (mem_cons_of_mem _ h0))
  have hpos : strchr str ch = some s.length := by
    rw [strchr, h, List.idxOf?_eq_some_iff]
    refine ⟨by simp, by simp, fun j hj => ?_⟩
    rw [List.getElem_append_left hj]
    exact fun heq => hs (heq ▸ List.getElem_mem hj)
  have hfirst : copied str.memory s.length = some s := by
    rw [CString.memory, h, List.append_assoc, copied_full hs0 _ le_rfl, List.take_length]
  have hdrop : str.memory.drop (s.length + 1) = t ++ [0] := by
    rw [CString.memory, h, List.append_assoc, List.drop_length_add_append]
    rfl
  have hcount : str.bytes.length - 1 - s.length = t.length := by
    rw [h]
    simp
  have hsecond : copied (t ++ [0]) t.length = some t := by
    rw [copied_full ht0 _ le_rfl, List.take_length]
  rw [str_split, hpos]
  simp only [strncpy, hfirst, hdrop, hcount, hsecond, Option.bind_some]

end LostWakeup.Lib.Strings
