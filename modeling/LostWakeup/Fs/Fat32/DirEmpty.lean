/-
# LostWakeup.Fs.Fat32.DirEmpty — when the test for an empty directory agrees with a scan of it.

`fat32_isdirempty` looks at every entry in use, also behind the end marker, and compares the bytes of the short name with
"." and ".." as C strings.  What it calls empty lists nothing but the dots; a directory that lists nothing else may
still be refused.
-/
import LostWakeup.Fs.Fat32.InsertPoint

namespace LostWakeup.Fs.Fat32.DirEmpty

open Lib.Strings Fs.Fat32.LongName Fs.Fat32.Dir Fs.Fat32.ShortName
open Fs.Fat32.InsertPoint

/-! ## What a scan reports -/

/-- The names that `fat32_inode_travel_fcb_handler` finds, until the end, an end marker or a panic. -/
def reported : List dirent_l_t → List (List UInt8) → List (List UInt8)
  | _, [] => []
  | stack, fcb :: fcbs =>
    match travel_fcb stack fcb with
    | .error _ => []
    | .ok (_, .all_free) => []
    | .ok (stack, .file name_buf _) => name_buf :: reported stack fcbs
    | .ok (stack, _) => reported stack fcbs

/-- The scan reports nothing but "." and "..". -/
def ListsNone (dp : inode) : Prop := ∀ name ∈ reported [] dp.entries, name = [0x2E] ∨ name = [0x2E, 0x2E]

/-- `DIR_Name`, read as a C string, is "." or "..". -/
def isDots (fcb : List UInt8) : Bool :=
  chr fcb 0 == 0x2E && (chr fcb 1 == 0 || (chr fcb 1 == 0x2E && chr fcb 2 == 0))

/-- Every entry in use is one of the dots, with a NUL behind it. -/
def OnlyDots (dp : inode) : Prop := ∀ fcb ∈ dp.entries, NAME0_FREE_BOOL (chr fcb 0) = false → isDots fcb = true

/-! ## The test -/

theorem namecmp_dot (fcb : List UInt8) :
    strncmp fcb [0x2E] PATH_LONG_MAX = 0 ↔ chr fcb 0 = 0x2E ∧ chr fcb 1 = 0 := by
  rw [strncmp_string_eq_zero_iff (by decide) (by decide)]
  constructor
  · intro h
    exact ⟨h 0 (by decide), h 1 (by decide)⟩
  rintro ⟨h0, h1⟩ (_ | _ | i) hi
  · exact h0
  · exact h1
  · simp at hi

theorem namecmp_dotdot (fcb : List UInt8) : strncmp fcb [0x2E, 0x2E] PATH_LONG_MAX = 0 ↔
    chr fcb 0 = 0x2E ∧ chr fcb 1 = 0x2E ∧ chr fcb 2 = 0 := by
  rw [strncmp_string_eq_zero_iff (by decide) (by decide)]
  constructor
  · intro h
    exact ⟨h 0 (by decide), h 1 (by decide), h 2 (by decide)⟩
  rintro ⟨h0, h1, h2⟩ (_ | _ | _ | i) hi
  · exact h0
  · exact h1
  · exact h2
  · simp at hi

theorem handler_eq (idx : Nat) (fcb : List UInt8) (judge : Nat) : fat32_isdirempty_handler idx fcb judge =
    if NAME0_FREE_BOOL (chr fcb 0) = false ∧ isDots fcb = false then (0, true) else (judge, false) := by
  have hdots : isDots fcb = false ↔
      strncmp fcb [0x2E] PATH_LONG_MAX ≠ 0 ∧ strncmp fcb [0x2E, 0x2E] PATH_LONG_MAX ≠ 0 := by
    rw [ne_eq, ne_eq, namecmp_dot, namecmp_dotdot, ← not_or, ← Bool.not_eq_true, isDots]
    simp only [Bool.and_eq_true, Bool.or_eq_true, beq_iff_eq, and_or_left]
  simp only [fat32_isdirempty_handler, Bool.and_eq_true, Bool.not_eq_true', decide_eq_true_eq, and_assoc, hdots]

theorem visit_isdirempty (fcbs : List (List UInt8)) (idx : Nat) :
    (visit fat32_isdirempty_handler idx fcbs 1).1 = 1 ↔
      ∀ fcb ∈ fcbs, NAME0_FREE_BOOL (chr fcb 0) = false → isDots fcb = true := by
  induction fcbs generalizing idx with
  | nil => simp [visit]
  | cons fcb fcbs ih =>
    rw [visit, handler_eq, List.forall_mem_cons]
    by_cases hbad : NAME0_FREE_BOOL (chr fcb 0) = false ∧ isDots fcb = false
    · simp [hbad]
    have hfcb : NAME0_FREE_BOOL (chr fcb 0) = false → isDots fcb = true := by
      intro hused
      rw [← Bool.not_eq_false]
      exact fun hdots => hbad ⟨hused, hdots⟩
    simp only [if_neg hbad, Bool.false_eq_true, if_false]
    rw [ih, and_iff_right hfcb]

theorem isdirempty_iff_onlyDots (tc : trav_control) (dp : inode) : (fat32_isdirempty tc dp).2 = 1 ↔ OnlyDots dp := by
  rw [fat32_isdirempty, trav_value, visit_isdirempty]
  rfl

/-! ## A directory called empty -/

theorem short_name_dots {fcb : List UInt8} (hlen : fcb.length = 32) (h : isDots fcb = true) :
    fat32_short_name_parse (fcb.take 11) = [0x2E] ∨ fat32_short_name_parse (fcb.take 11) = [0x2E, 0x2E] := by
  obtain ⟨a, fcb, rfl⟩ := List.exists_cons_of_length_eq_add_one hlen
  obtain ⟨b, fcb, rfl⟩ := List.exists_cons_of_length_eq_add_one (Nat.succ.inj hlen)
  obtain ⟨c, fcb, rfl⟩ := List.exists_cons_of_length_eq_add_one (Nat.succ.inj (Nat.succ.inj hlen))
  simp only [isDots, chr, List.getD_cons_zero, List.getD_cons_succ, Bool.and_eq_true, Bool.or_eq_true,
    beq_iff_eq] at h
  obtain ⟨rfl, rfl | ⟨rfl, rfl⟩⟩ := h
  · exact .inl (by simp [fat32_short_name_parse, cstring])
  · exact .inr (by simp [fat32_short_name_parse, cstring])

/-- Such an entry, taken as a long one, is never the last of a name. -/
def Stray (e : dirent_l_t) : Prop := LAST_LONG_ENTRY_BOOL e.LDIR_Ord = false

theorem popLoop_stray {checksum : UInt8} {stack stack' : List dirent_l_t} (hs : ∀ e ∈ stack, Stray e) {cnt : UInt8}
    {buf : List UInt8} {r : Option (List UInt8 × UInt8)} (h : popLoop checksum stack cnt buf = .ok (stack', r)) :
    (∀ e ∈ stack', Stray e) ∧ ∀ buf' ord, r = some (buf', ord) → LAST_LONG_ENTRY_BOOL ord = false := by
  induction stack generalizing cnt buf with
  | nil =>
    cases h
    exact ⟨hs, fun buf' ord h => absurd h (by simp)⟩
  | cons e stack ih =>
    have hrest : ∀ e ∈ stack, Stray e := fun e he => hs e (List.mem_cons_of_mem _ he)
    rw [popLoop] at h
    split at h
    · cases h
      exact ⟨hrest, fun buf' ord h => absurd h (by simp)⟩
    split at h
    · exact absurd h (by simp)
    rcases stack with _ | ⟨e', stack⟩
    · cases h
      refine ⟨hrest, fun buf' ord h => ?_⟩
      cases h
      exact hs e List.mem_cons_self
    · exact ih hrest h

theorem popstack_stray {stack stack' : List dirent_l_t} (hs : ∀ e ∈ stack, Stray e) {name : List UInt8}
    {r : Option (List UInt8)} (h : fat32_longname_popstack stack name = .ok (stack', r)) :
    (∀ e ∈ stack', Stray e) ∧ r = none := by
  rw [fat32_longname_popstack] at h
  rcases hpop : popLoop (ChkSum name) stack 1 [] with err | ⟨s, _ | ⟨buf, ord⟩⟩
  · simp only [hpop] at h
    exact absurd h (by simp)
  · simp only [hpop] at h
    cases h
    exact ⟨(popLoop_stray hs hpop).1, rfl⟩
  · have hpopped := popLoop_stray hs hpop
    simp only [hpop, hpopped.2 buf ord rfl] at h
    cases h
    exact ⟨hpopped.1, rfl⟩

/-- One entry of such a directory: what is on the stack names no file, and a short entry gives one of the dots. -/
theorem travel_dots {fcb : List UInt8} (hlen : fcb.length = 32)
    (hdots : NAME0_FREE_BOOL (chr fcb 0) = false → isDots fcb = true) {stack stack' : List dirent_l_t}
    (hs : ∀ e ∈ stack, Stray e) {o : Outcome} (h : travel_fcb stack fcb = .ok (stack', o)) :
    (∀ e ∈ stack', Stray e) ∧ ∀ name long_valid, o = .file name long_valid → name = [0x2E] ∨ name = [0x2E, 0x2E] := by
  rcases hall : NAME0_FREE_ALL (chr fcb 0) with _ | _
  · rcases honly : NAME0_FREE_ONLY (chr fcb 0) with _ | _
    · have hd := hdots (by simp [NAME0_FREE_BOOL, hall, honly])
      simp only [travel_fcb, hall, honly, Bool.false_eq_true, if_false] at h
      split at h
      · -- a long entry: its number is the dot
        unfold stack_push at h
        split at h
        · next hpush =>
          split at hpush
          · exact absurd h (by simp)
          · exact absurd hpush (by simp)
        · next hpush =>
          split at hpush
          · exact absurd hpush (by simp)
          cases hpush
          cases h
          refine ⟨List.forall_mem_cons.mpr ⟨?_, hs⟩, fun name long_valid h => absurd h (by simp)⟩
          have hfirst : chr fcb 0 = 0x2E := by
            rw [isDots, Bool.and_eq_true, beq_iff_eq] at hd
            exact hd.1
          show LAST_LONG_ENTRY_BOOL (chr fcb 0) = false
          rw [hfirst]
          rfl
      · rcases hpop : fat32_longname_popstack stack (fcb.take 11) with err | ⟨s, r⟩
        · simp only [hpop] at h
          exact absurd h (by simp)
        obtain ⟨hstray, rfl⟩ := popstack_stray hs hpop
        simp only [hpop] at h
        cases h
        refine ⟨hstray, fun name long_valid h => ?_⟩
        cases h
        exact short_name_dots hlen hd
    · simp only [travel_fcb, hall, honly, Bool.false_eq_true, if_false, if_true] at h
      split at h
      · exact absurd h (by simp)
      · cases h
        exact ⟨hs, fun name long_valid h => absurd h (by simp)⟩
  · rw [travel_fcb_all_free hall] at h
    cases h
    exact ⟨hs, fun name long_valid h => absurd h (by simp)⟩

theorem reported_dots {fcbs : List (List UInt8)} (hlen : ∀ fcb ∈ fcbs, fcb.length = 32)
    (hdots : ∀ fcb ∈ fcbs, NAME0_FREE_BOOL (chr fcb 0) = false → isDots fcb = true) {stack : List dirent_l_t}
    (hs : ∀ e ∈ stack, Stray e) : ∀ name ∈ reported stack fcbs, name = [0x2E] ∨ name = [0x2E, 0x2E] := by
  induction fcbs generalizing stack with
  | nil => simp [reported]
  | cons fcb fcbs ih =>
    rw [List.forall_mem_cons] at hlen hdots
    rw [reported]
    rcases ht : travel_fcb stack fcb with e | ⟨s, o⟩
    · simp
    have hafter := travel_dots hlen.1 hdots.1 hs ht
    rcases o with _ | _ | _ | ⟨name, long_valid⟩
    · simp
    · exact ih hlen.2 hdots.2 hafter.1
    · exact ih hlen.2 hdots.2 hafter.1
    · intro n hn
      rcases List.mem_cons.mp hn with rfl | hn
      · exact hafter.2 n long_valid rfl
      · exact ih hlen.2 hdots.2 hafter.1 n hn

theorem listsNone_of_isdirempty {tc : trav_control} {dp : inode} (hlen : ∀ fcb ∈ dp.entries, fcb.length = 32)
    (h : (fat32_isdirempty tc dp).2 = 1) : ListsNone dp :=
  reported_dots hlen ((isdirempty_iff_onlyDots tc dp).mp h) (fun _ he => absurd he List.not_mem_nil)

/-! ## When the two agree -/

/-- They agree on the directories that list another file, and on those with no entry in use but the dots. -/
theorem isdirempty_agrees_iff (tc : trav_control) {dp : inode} (hlen : ∀ fcb ∈ dp.entries, fcb.length = 32) :
    ((fat32_isdirempty tc dp).2 = 1 ↔ ListsNone dp) ↔
      (∃ name ∈ reported [] dp.entries, name ≠ [0x2E] ∧ name ≠ [0x2E, 0x2E]) ∨ OnlyDots dp := by
  have hsome : (∃ name ∈ reported [] dp.entries, name ≠ [0x2E] ∧ name ≠ [0x2E, 0x2E]) ↔ ¬ ListsNone dp := by
    simp only [ListsNone, not_forall, not_or, exists_prop, ne_eq]
  rw [hsome, ← isdirempty_iff_onlyDots tc]
  constructor
  · intro hagree
    rcases em (ListsNone dp) with hnone | hlists
    · exact .inr (hagree.mpr hnone)
    · exact .inl hlists
  · intro hcond
    refine ⟨listsNone_of_isdirempty hlen, fun hnone => ?_⟩
    exact hcond.resolve_left fun hlists => hlists hnone

/-- An entry with this name and attribute. -/
def shortDir (DIR_Name : List UInt8) : List UInt8 := DIR_Name ++ ATTR_DIRECTORY :: List.replicate 20 0

/-- The dots as this kernel writes them. -/
def ownDirectory : inode :=
  ⟨512, [shortDir (0x2E :: List.replicate 10 0), shortDir (0x2E :: 0x2E :: List.replicate 9 0)], none, 0⟩

theorem isdirempty_agrees_own : (∀ fcb ∈ ownDirectory.entries, fcb.length = 32) ∧
    ∀ tc, (fat32_isdirempty tc ownDirectory).2 = 1 ↔ ListsNone ownDirectory := by
  have hlen : ∀ fcb ∈ ownDirectory.entries, fcb.length = 32 := by decide
  have honly : OnlyDots ownDirectory := by
    show ∀ fcb ∈ ownDirectory.entries, NAME0_FREE_BOOL (chr fcb 0) = false → isDots fcb = true
    decide
  exact ⟨hlen, fun tc => (isdirempty_agrees_iff tc hlen).mpr (.inr honly)⟩

/-- The dots as the FAT format has them. -/
def paddedDirectory : inode :=
  ⟨512, [shortDir (0x2E :: List.replicate 10 0x20), shortDir (0x2E :: 0x2E :: List.replicate 9 0x20)], none, 0⟩

/-- It lists the two dots and nothing else, and is not called empty. -/
theorem padded_dots_refused : (∀ fcb ∈ paddedDirectory.entries, fcb.length = 32) ∧
    reported [] paddedDirectory.entries = [[0x2E], [0x2E, 0x2E]] ∧
    ∀ tc, ¬ ((fat32_isdirempty tc paddedDirectory).2 = 1 ↔ ListsNone paddedDirectory) := by
  have hnames : reported [] paddedDirectory.entries = [[0x2E], [0x2E, 0x2E]] := by decide
  refine ⟨by decide, hnames, fun tc hagree => ?_⟩
  have hnone : ListsNone paddedDirectory := by
    rw [ListsNone, hnames]
    decide
  have honly := (isdirempty_iff_onlyDots tc paddedDirectory).mp (hagree.mpr hnone)
  exact absurd (honly _ List.mem_cons_self (by decide)) (by decide)

end LostWakeup.Fs.Fat32.DirEmpty
