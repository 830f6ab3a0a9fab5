/-
# LostWakeup.Fs.Fat32.MalformedRuns — the scan of a directory with arbitrary contents.

The scan pushes long entries and takes them off its stack at the next short one.  An early return leaves entries on the
stack, three kinds of inconsistency are panics, and `name_buf` is filled without a look at its length.  `Legible` is a
grammar of directories, and `scan_iff` says that the scan gets through exactly on these.

The name table that the handler fills on the way is left out here.
-/
import LostWakeup.Fs.Fat32.NameBuffers

namespace LostWakeup.Fs.Fat32.MalformedRuns

open Fs.Fat32.LongName
open Fs.Fat32.NameBuffers (LongRun NAME_LONG_MAX)
open List (append_assoc append_nil cons_append cons_ne_nil length_cons nil_append)

/-! ## The code -/

inductive Panic
  | source (e : LongName.Panic)
  /-- Not a panic of the source: `name_buf` is written past its end. -/
  | overrun
  deriving DecidableEq

/-- The loop of `fat32_longname_popstack`, as in `LongName`, with the end of `name_buf`. -/
def popLoop (checksum : UInt8) : List dirent_l_t → UInt8 → List UInt8 →
    Except Panic (List dirent_l_t × Option (List UInt8 × UInt8))
  | [], _, _ => .ok ([], none)
  | e :: stack, cnt, buf =>
    if stack ≠ [] ∧ cnt ≠ e.LDIR_Ord then .ok (stack, none)
    else if e.LDIR_Chksum ≠ checksum then .error (.source .check_sum_error)
    else if NAME_LONG_MAX < (buf ++ fat32_filter_longname e).length then .error .overrun
    else if stack = [] then .ok ([], some (buf ++ fat32_filter_longname e, e.LDIR_Ord))
    else popLoop checksum stack (cnt + 1) (buf ++ fat32_filter_longname e)

/-- `fat32_longname_popstack`: the stack it leaves and, if `long_valid`, the name. -/
def fat32_longname_popstack (stack : List dirent_l_t) (fcb_s_name : List UInt8) :
    Except Panic (List dirent_l_t × Option (List UInt8)) :=
  match popLoop (ChkSum fcb_s_name) stack 1 [] with
  | .error e => .error e
  | .ok (stack, none) => .ok (stack, none)
  | .ok (stack, some (buf, ord)) =>
    if NAME_LONG_MAX ≤ buf.length then .error .overrun
    else .ok (stack, if LAST_LONG_ENTRY_BOOL ord then some (cstring (buf ++ [0])) else none)

/-- The part of `fat32_inode_travel_fcb_handler` that reads one entry. -/
def travel_fcb (stack : List dirent_l_t) (fcb : List UInt8) : Except Panic (List dirent_l_t × Outcome) :=
  if NAME0_FREE_ALL (chr fcb 0) then .ok (stack, .all_free)
  else if NAME0_FREE_ONLY (chr fcb 0) then
    if stack ≠ [] then .error (.source .something_wrong_with_disk) else .ok (stack, .free)
  else if LONG_NAME_BOOL (chr fcb 11) then
    match stack_push stack (dirent_l_t.ofBytes fcb) with
    | .error e => .error (.source e)
    | .ok stack => .ok (stack, .long)
  else
    match fat32_longname_popstack stack (fcb.take 11) with
    | .error e => .error e
    | .ok (stack, some name) => .ok (stack, .file name true)
    | .ok (stack, none) => .ok (stack, .file (fat32_short_name_parse (fcb.take 11)) false)

/-- An entry that the scan reads: those before it, the stack that it meets, and what comes of it. -/
structure Visit where
  before : List (List UInt8)
  stack : List dirent_l_t
  fcb : List UInt8
  outcome : Outcome

/-- The loop of `fat32_inode_general_trav`, up to the first end marker. -/
def fat32_inode_general_trav : List (List UInt8) → List dirent_l_t → List (List UInt8) → Except Panic (List Visit)
  | _, _, [] => .ok []
  | before, stack, fcb :: fcbs =>
    match travel_fcb stack fcb with
    | .error e => .error e
    | .ok (_, .all_free) => .ok [⟨before, stack, fcb, .all_free⟩]
    | .ok (stack', outcome) =>
      (fat32_inode_general_trav (before ++ [fcb]) stack' fcbs).map (⟨before, stack, fcb, outcome⟩ :: ·)

/-! ## What is wanted -/

def isEnd (fcb : List UInt8) : Prop := NAME0_FREE_ALL (chr fcb 0) = true

def isFree (fcb : List UInt8) : Prop := NAME0_FREE_ONLY (chr fcb 0) = true

def isLong (fcb : List UInt8) : Prop := ¬ isEnd fcb ∧ ¬ isFree fcb ∧ LONG_NAME_BOOL (chr fcb 11) = true

def isShort (fcb : List UInt8) : Prop := ¬ isEnd fcb ∧ ¬ isFree fcb ∧ LONG_NAME_BOOL (chr fcb 11) = false

/-- The entry is marked as the first of a run. -/
def Marked (fcb : List UInt8) : Prop := LAST_LONG_ENTRY_BOOL (chr fcb 0) = true

/-- No long entry stands directly before. -/
def Apart (before : List (List UInt8)) : Prop := ∀ fcb, before.getLast? = some fcb → ¬ isLong fcb

/-- The long entries of a run, before a short entry with this name: as the format has them. -/
structure WellFormed (run : List (List UInt8)) (short : List UInt8) (us : List UInt16) : Prop where
  longs : ∀ fcb ∈ run, isLong fcb
  entries : LongRun (ChkSum (short.take 11)) 1 (run.map dirent_l_t.ofBytes).reverse us
  valid : ∀ u ∈ us, LONG_NAME_CHAR_VALID u = true
  fits : us.length ≤ NAME_LONG_MAX

/-- A run starts on an empty stack; a file without long entries has the name in its short entry; and a well-formed one
has it in its long entries, by their low bytes. -/
structure Visit.Good (v : Visit) : Prop where
  clean : isLong v.fcb → Marked v.fcb ∨ Apart v.before → v.stack = []
  short : isShort v.fcb → Apart v.before →
    ∃ long_valid, v.outcome = .file (fat32_short_name_parse (v.fcb.take 11)) long_valid
  named : isShort v.fcb → ∀ rest run us, v.before = rest ++ run → WellFormed run v.fcb us →
    v.outcome = .file (cstring (us.map LONG_NAME_CHAR_MASK ++ [0])) true

/-- The scan gets through, and all is well at every entry that it reads. -/
def Reads (before : List (List UInt8)) (stack : List dirent_l_t) (fcbs : List (List UInt8)) : Prop :=
  ∃ visits, fat32_inode_general_trav before stack fcbs = .ok visits ∧ ∀ v ∈ visits, v.Good

/-! ## The grammar -/

/-- The entries have the ordinals from `k` on, and the checksum. -/
def InOrder (sum : UInt8) : Nat → List dirent_l_t → Prop
  | _, [] => True
  | k, e :: es => e.LDIR_Ord = UInt8.ofNat k ∧ e.LDIR_Chksum = sum ∧ InOrder sum (k + 1) es

/-- The bytes that entries put into `name_buf`. -/
def nameBytes (es : List dirent_l_t) : List UInt8 := es.flatMap fat32_filter_longname

/-- What a short entry with this checksum takes off the entries of a stack, what it leaves, and the name it gets from
them.  The ordinal of the one at the bottom is not looked at. -/
inductive Takes (sum : UInt8) : List dirent_l_t → List dirent_l_t → Option (List UInt8) → Prop
  | none : Takes sum [] [] none
  | broken {good : List dirent_l_t} {e : dirent_l_t} {left : List dirent_l_t} : InOrder sum 1 good →
      (nameBytes good).length ≤ NAME_LONG_MAX → e.LDIR_Ord ≠ UInt8.ofNat (good.length + 1) → left ≠ [] →
      Takes sum (good ++ e :: left) left none
  | whole {good : List dirent_l_t} {e : dirent_l_t} : InOrder sum 1 good → e.LDIR_Chksum = sum →
      (nameBytes (good ++ [e])).length < NAME_LONG_MAX →
      Takes sum (good ++ [e]) []
        (if LAST_LONG_ENTRY_BOOL e.LDIR_Ord then some (cstring (nameBytes (good ++ [e]) ++ [0])) else none)

/-- Long entries one after the other, of which at most the first is marked, and not more than the stack holds. -/
structure OneRun (run : List (List UInt8)) : Prop where
  longs : ∀ fcb ∈ run, isLong fcb
  unmarked : ∀ fcb ∈ run.tail, ¬ Marked fcb
  fits : run.length ≤ CAPACITY

/-- `Legible left fcbs`: a directory, with the long entries left over from before. -/
inductive Legible : List dirent_l_t → List (List UInt8) → Prop
  | done {left : List dirent_l_t} : Legible left []
  | stop {left : List dirent_l_t} {fcb : List UInt8} {fcbs : List (List UInt8)} : isEnd fcb → Legible left (fcb :: fcbs)
  | free {fcb : List UInt8} {fcbs : List (List UInt8)} : isFree fcb → Legible [] fcbs → Legible [] (fcb :: fcbs)
  /-- A run without a short entry, before the end. -/
  | orphans {run fcbs : List (List UInt8)} : run ≠ [] → OneRun run → (∀ fcb, fcbs.head? = some fcb → isEnd fcb) →
      Legible [] (run ++ fcbs)
  /-- A run with its short entry, on a stack without leftovers. -/
  | file {run : List (List UInt8)} {fcb : List UInt8} {fcbs : List (List UInt8)} {left : List dirent_l_t}
      {name : Option (List UInt8)} : OneRun run → isShort fcb →
      Takes (ChkSum (fcb.take 11)) (run.map dirent_l_t.ofBytes).reverse left name → Legible left fcbs →
      Legible [] (run ++ fcb :: fcbs)
  /-- A short entry by itself, which may take what is left over unless that gives it another name. -/
  | leftover {fcb : List UInt8} {fcbs : List (List UInt8)} {left left' : List dirent_l_t} {name : Option (List UInt8)} :
      left ≠ [] → isShort fcb → Takes (ChkSum (fcb.take 11)) left left' name →
      (∀ n, name = some n → n = fat32_short_name_parse (fcb.take 11)) → Legible left' fcbs →
      Legible left (fcb :: fcbs)

/-! ## Taking a stack off -/

variable {sum : UInt8}

theorem ofNat_succ (k : Nat) : UInt8.ofNat k + 1 = UInt8.ofNat (k + 1) := by simp

/-- Entries in order only fill the buffer. -/
theorem popLoop_inOrder {good rest : List dirent_l_t} {k : Nat} {buf : List UInt8} (hgood : InOrder sum k good)
    (hrest : rest ≠ []) (hroom : (buf ++ nameBytes good).length ≤ NAME_LONG_MAX) :
    popLoop sum (good ++ rest) (UInt8.ofNat k) buf =
      popLoop sum rest (UInt8.ofNat (k + good.length)) (buf ++ nameBytes good) := by
  induction good generalizing k buf with
  | nil => rw [nil_append, nameBytes, List.flatMap_nil, append_nil, List.length_nil, Nat.add_zero]
  | cons e good ih =>
    obtain ⟨hord, hsum, hgood⟩ := hgood
    have hbytes : buf ++ nameBytes (e :: good) = buf ++ fat32_filter_longname e ++ nameBytes good := by
      rw [nameBytes, List.flatMap_cons, append_assoc]
      rfl
    have hne : good ++ rest ≠ [] := List.append_ne_nil_of_right_ne_nil _ hrest
    have hfits : ¬ NAME_LONG_MAX < (buf ++ fat32_filter_longname e).length := by
      rw [hbytes, List.length_append] at hroom
      omega
    have hidx : k + 1 + good.length = k + (e :: good).length := by
      rw [length_cons]
      omega
    rw [hbytes] at hroom
    rw [cons_append, popLoop, if_neg (fun h => h.2 hord.symm), if_neg (not_not_intro hsum), if_neg hfits, if_neg hne,
      ofNat_succ, ih hgood hroom, hidx, hbytes]

/-- What the loop leaves and reads, if it returns. -/
theorem popLoop_ok {st left : List dirent_l_t} {k : Nat} {buf : List UInt8} {r : Option (List UInt8 × UInt8)}
    (hbuf : buf.length ≤ NAME_LONG_MAX) (h : popLoop sum st (UInt8.ofNat k) buf = .ok (left, r)) :
    (st = [] ∧ left = [] ∧ r = none) ∨
    (∃ good e, st = good ++ e :: left ∧ left ≠ [] ∧ InOrder sum k good ∧
      (buf ++ nameBytes good).length ≤ NAME_LONG_MAX ∧ e.LDIR_Ord ≠ UInt8.ofNat (k + good.length) ∧ r = none) ∨
    ∃ good e, st = good ++ [e] ∧ left = [] ∧ InOrder sum k good ∧ e.LDIR_Chksum = sum ∧
      (buf ++ nameBytes (good ++ [e])).length ≤ NAME_LONG_MAX ∧
      r = some (buf ++ nameBytes (good ++ [e]), e.LDIR_Ord) := by
  induction st generalizing k buf with
  | nil =>
    rw [popLoop] at h
    obtain ⟨rfl, rfl⟩ := Prod.mk.inj (Except.ok.inj h)
    exact .inl ⟨rfl, rfl, rfl⟩
  | cons e st ih =>
    refine .inr ?_
    rw [popLoop] at h
    split at h
    · next hbad =>
      obtain ⟨rfl, rfl⟩ := Prod.mk.inj (Except.ok.inj h)
      refine .inl ⟨[], e, rfl, hbad.1, trivial, ?_, fun hord => hbad.2 hord.symm, rfl⟩
      rwa [nameBytes, List.flatMap_nil, append_nil]
    · next hord =>
      split at h
      · cases h
      · next hsum =>
        rw [not_not] at hsum
        split at h
        · cases h
        · next hroom =>
          have hone : nameBytes [e] = fat32_filter_longname e := by simp [nameBytes]
          rw [Nat.not_lt] at hroom
          split at h
          · next hst =>
            obtain ⟨rfl, rfl⟩ := Prod.mk.inj (Except.ok.inj h)
            refine .inr ⟨[], e, by rw [hst]; rfl, rfl, trivial, hsum, ?_, ?_⟩
            · rwa [nil_append, hone]
            · rw [nil_append, hone]
          · next hst =>
            have hord' : e.LDIR_Ord = UInt8.ofNat k := by
              by_contra hne
              exact hord ⟨hst, fun heq => hne heq.symm⟩
            have hcons : ∀ es, buf ++ nameBytes (e :: es) = buf ++ fat32_filter_longname e ++ nameBytes es := by
              intro es
              rw [nameBytes, List.flatMap_cons, append_assoc]
              rfl
            rw [ofNat_succ] at h
            rcases ih hroom h with ⟨hnil, -, -⟩ | ⟨good, f, rfl, hleft, hgood, hlen, hford, hr⟩ |
              ⟨good, f, rfl, hleft, hgood, hfsum, hlen, hr⟩
            · exact absurd hnil hst
            · refine .inl ⟨e :: good, f, rfl, hleft, ⟨hord', hsum, hgood⟩, ?_, ?_, hr⟩
              · rwa [hcons]
              have hidx : k + (e :: good).length = k + 1 + good.length := by
                rw [length_cons]
                omega
              rwa [hidx]
            · refine .inr ⟨e :: good, f, rfl, hleft, ⟨hord', hsum, hgood⟩, hfsum, ?_, ?_⟩
              · rwa [cons_append, hcons]
              · rwa [cons_append, hcons]

theorem popstack_of_takes {st left : List dirent_l_t} {name : Option (List UInt8)} {s : List UInt8}
    (h : Takes (ChkSum s) st left name) : fat32_longname_popstack st s = .ok (left, name) := by
  rcases h with _ | @⟨good, e, _, hgood, hroom, hord, hleft⟩ | @⟨good, e, hgood, hsum, hroom⟩
  · rfl
  · have hpop := @popLoop_inOrder _ _ _ _ [] hgood (cons_ne_nil e left) hroom
    have hstop : popLoop (ChkSum s) (e :: left) (UInt8.ofNat (1 + good.length)) ([] ++ nameBytes good) =
        .ok (left, none) := by
      rw [popLoop, if_pos ⟨hleft, fun heq => hord (heq.symm.trans (congrArg _ (Nat.add_comm 1 good.length)))⟩]
    rw [hstop] at hpop
    change popLoop _ _ 1 [] = _ at hpop
    rw [fat32_longname_popstack, hpop]
  · have hbytes : nameBytes good ++ fat32_filter_longname e = nameBytes (good ++ [e]) := by simp [nameBytes]
    have hfirst : (nameBytes good).length ≤ NAME_LONG_MAX := by
      rw [← hbytes, List.length_append] at hroom
      omega
    have hpop := @popLoop_inOrder _ _ _ _ [] hgood (cons_ne_nil e []) hfirst
    have hlast : popLoop (ChkSum s) [e] (UInt8.ofNat (1 + good.length)) ([] ++ nameBytes good) =
        .ok ([], some (nameBytes (good ++ [e]), e.LDIR_Ord)) := by
      rw [popLoop, if_neg (fun h => h.1 rfl), if_neg (not_not_intro hsum), nil_append, hbytes,
        if_neg (Nat.not_lt_of_lt hroom), if_pos rfl]
    rw [hlast] at hpop
    change popLoop _ _ 1 [] = _ at hpop
    rw [fat32_longname_popstack, hpop]
    exact if_neg hroom.not_ge

theorem takes_of_popstack {st left : List dirent_l_t} {name : Option (List UInt8)} {s : List UInt8}
    (h : fat32_longname_popstack st s = .ok (left, name)) : Takes (ChkSum s) st left name := by
  rw [fat32_longname_popstack] at h
  rcases hpop : popLoop (ChkSum s) st 1 [] with e | ⟨left', r⟩
  · rw [hpop] at h
    cases h
  have hcases := @popLoop_ok (ChkSum s) st left' 1 [] r (Nat.zero_le _) hpop
  rw [hpop] at h
  rcases hcases with ⟨rfl, rfl, rfl⟩ | ⟨good, e, rfl, hleft, hgood, hroom, hord, rfl⟩ |
    ⟨good, e, rfl, rfl, hgood, hsum, -, rfl⟩
  · obtain ⟨rfl, rfl⟩ := Prod.mk.inj (Except.ok.inj h)
    exact .none
  · obtain ⟨rfl, rfl⟩ := Prod.mk.inj (Except.ok.inj h)
    exact .broken hgood hroom (fun heq => hord (heq.trans (congrArg _ (Nat.add_comm _ 1)))) hleft
  · dsimp only at h
    split at h
    · cases h
    · next hroom =>
      obtain ⟨rfl, rfl⟩ := Prod.mk.inj (Except.ok.inj h)
      exact .whole hgood hsum (Nat.lt_of_not_le hroom)

/-- The loop does what the one without a buffer does, as long as there is room. -/
theorem popLoop_refines {st left : List dirent_l_t} {cnt : UInt8} {buf : List UInt8} {r : Option (List UInt8 × UInt8)}
    (h : popLoop sum st cnt buf = .ok (left, r)) : LongName.popLoop sum st cnt buf = .ok (left, r) := by
  induction st generalizing cnt buf with
  | nil =>
    rw [popLoop] at h
    rw [LongName.popLoop]
    exact congrArg Except.ok (Except.ok.inj h)
  | cons e st ih =>
    rw [popLoop] at h
    rw [LongName.popLoop]
    split at h
    · next hbad =>
      rw [if_pos hbad]
      exact congrArg Except.ok (Except.ok.inj h)
    · next hord =>
      rw [if_neg hord]
      split at h
      · cases h
      · next hsum =>
        rw [if_neg hsum]
        split at h
        · cases h
        split at h
        · next hst =>
          subst hst
          exact congrArg Except.ok (Except.ok.inj h)
        · next hst =>
          obtain ⟨f, st, rfl⟩ := List.exists_cons_of_ne_nil hst
          exact ih h

theorem popstack_refines {st left : List dirent_l_t} {name : Option (List UInt8)} {s : List UInt8}
    (h : fat32_longname_popstack st s = .ok (left, name)) : LongName.fat32_longname_popstack st s = .ok (left, name) := by
  rw [fat32_longname_popstack] at h
  rcases hpop : popLoop (ChkSum s) st 1 [] with e | ⟨left', r⟩
  · rw [hpop] at h
    cases h
  rw [LongName.fat32_longname_popstack, popLoop_refines hpop]
  rw [hpop] at h
  rcases r with _ | ⟨buf, ord⟩
  · exact congrArg Except.ok (Except.ok.inj h)
  dsimp only at h ⊢
  split at h
  · cases h
  · exact congrArg Except.ok (Except.ok.inj h)

/-! ## One entry -/

variable {before fcbs : List (List UInt8)} {st : List dirent_l_t} {fcb : List UInt8}

theorem travel_end (h : isEnd fcb) (st : List dirent_l_t) : travel_fcb st fcb = .ok (st, .all_free) := if_pos h

theorem travel_free (h : isFree fcb) (st : List dirent_l_t) :
    travel_fcb st fcb = if st ≠ [] then .error (.source .something_wrong_with_disk) else .ok (st, .free) := by
  have hend : ¬ NAME0_FREE_ALL (chr fcb 0) = true := by
    have hfree : chr fcb 0 = 0xE5 := beq_iff_eq.mp h
    rw [hfree]
    decide
  unfold isFree at h
  rw [travel_fcb, if_neg hend, if_pos h]

theorem travel_long (h : isLong fcb) (st : List dirent_l_t) : travel_fcb st fcb =
    if st.length = CAPACITY then .error (.source .stack_overflow) else .ok (dirent_l_t.ofBytes fcb :: st, .long) := by
  unfold isLong isEnd isFree at h
  obtain ⟨hend, hfree, hlong⟩ := h
  rw [travel_fcb, if_neg hend, if_neg hfree, if_pos hlong, stack_push]
  by_cases hfull : st.length = CAPACITY
  · rw [if_pos hfull, if_pos hfull]
  · rw [if_neg hfull, if_neg hfull]

theorem travel_short (h : isShort fcb) {left : List dirent_l_t} {name : Option (List UInt8)}
    (htakes : Takes (ChkSum (fcb.take 11)) st left name) : travel_fcb st fcb =
      .ok (left, .file (name.getD (fat32_short_name_parse (fcb.take 11))) name.isSome) := by
  unfold isShort isEnd isFree at h
  obtain ⟨hend, hfree, hlong⟩ := h
  rw [travel_fcb, if_neg hend, if_neg hfree, if_neg (by rw [hlong]; decide), popstack_of_takes htakes]
  rcases name with _ | name
  · rfl
  · rfl

theorem takes_of_travel (h : isShort fcb) {left : List dirent_l_t} {o : Outcome}
    (htravel : travel_fcb st fcb = .ok (left, o)) : ∃ name, Takes (ChkSum (fcb.take 11)) st left name := by
  unfold isShort isEnd isFree at h
  obtain ⟨hend, hfree, hlong⟩ := h
  rw [travel_fcb, if_neg hend, if_neg hfree, if_neg (by rw [hlong]; decide)] at htravel
  rcases hpop : fat32_longname_popstack st (fcb.take 11) with e | ⟨left', name⟩
  · rw [hpop] at htravel
    cases htravel
  rw [hpop] at htravel
  refine ⟨name, takes_of_popstack ?_⟩
  rcases name with _ | name
  · obtain ⟨rfl, -⟩ := Prod.mk.inj (Except.ok.inj htravel)
    exact hpop
  · obtain ⟨rfl, -⟩ := Prod.mk.inj (Except.ok.inj htravel)
    exact hpop

/-! ## One step of the scan -/

theorem kind (fcb : List UInt8) : isEnd fcb ∨ isFree fcb ∨ isLong fcb ∨ isShort fcb := by
  by_cases hend : isEnd fcb
  · exact .inl hend
  by_cases hfree : isFree fcb
  · exact .inr (.inl hfree)
  · rcases hlong : LONG_NAME_BOOL (chr fcb 11) with _ | _
    · exact .inr (.inr (.inr ⟨hend, hfree, hlong⟩))
    · exact .inr (.inr (.inl ⟨hend, hfree, hlong⟩))

theorem not_short_of_long (h : isLong fcb) : ¬ isShort fcb :=
  fun hs => Bool.noConfusion (h.2.2.symm.trans hs.2.2)

theorem apart_nil : Apart [] := fun _ h => absurd h (Option.some_ne_none _).symm

theorem apart_snoc : Apart (before ++ [fcb]) ↔ ¬ isLong fcb := by
  rw [Apart, List.getLast?_concat]
  exact ⟨fun h => h fcb rfl, fun h f hf => Option.some_inj.mp hf ▸ h⟩

theorem reads_nil : Reads before st [] := ⟨[], rfl, fun _ hv => absurd hv List.not_mem_nil⟩

theorem reads_end (h : isEnd fcb) : Reads before st (fcb :: fcbs) := by
  refine ⟨[⟨before, st, fcb, .all_free⟩], ?_, List.forall_mem_singleton.mpr ⟨?_, ?_, ?_⟩⟩
  · rw [fat32_inode_general_trav, travel_end h]
  · exact fun hlong => absurd h hlong.1
  · exact fun hshort => absurd h hshort.1
  · exact fun hshort => absurd h hshort.1

theorem not_reads_of_error {e : Panic} (h : travel_fcb st fcb = .error e) : ¬ Reads before st (fcb :: fcbs) := by
  rintro ⟨visits, hvisits, -⟩
  rw [fat32_inode_general_trav, h] at hvisits
  cases hvisits

/-- An entry after which the scan goes on. -/
theorem reads_step {st' : List dirent_l_t} {o : Outcome} (h : travel_fcb st fcb = .ok (st', o)) (ho : o ≠ .all_free) :
    Reads before st (fcb :: fcbs) ↔ (Visit.mk before st fcb o).Good ∧ Reads (before ++ [fcb]) st' fcbs := by
  have hscan : fat32_inode_general_trav before st (fcb :: fcbs) =
      (fat32_inode_general_trav (before ++ [fcb]) st' fcbs).map (⟨before, st, fcb, o⟩ :: ·) := by
    rw [fat32_inode_general_trav, h]
    cases o with
    | all_free => exact absurd rfl ho
    | free => rfl
    | long => rfl
    | file name long_valid => rfl
  constructor
  · rintro ⟨visits, hvisits, hall⟩
    rw [hscan] at hvisits
    rcases hrest : fat32_inode_general_trav (before ++ [fcb]) st' fcbs with e | rest
    · rw [hrest] at hvisits
      cases hvisits
    rw [hrest] at hvisits
    obtain rfl := Except.ok.inj hvisits
    rw [List.forall_mem_cons] at hall
    exact ⟨hall.1, rest, hrest, hall.2⟩
  · rintro ⟨hgood, rest, hrest, hall⟩
    refine ⟨⟨before, st, fcb, o⟩ :: rest, ?_, List.forall_mem_cons.mpr ⟨hgood, hall⟩⟩
    rw [hscan, hrest]
    rfl

theorem reads_free (h : isFree fcb) :
    Reads before st (fcb :: fcbs) ↔ st = [] ∧ Reads (before ++ [fcb]) [] fcbs := by
  have htravel := travel_free h st
  by_cases hst : st = []
  · subst hst
    rw [if_neg (not_not_intro rfl)] at htravel
    rw [reads_step htravel Outcome.noConfusion, and_iff_right rfl]
    refine and_iff_right ⟨?_, ?_, ?_⟩
    · exact fun hlong => absurd h hlong.2.1
    · exact fun hshort => absurd h hshort.2.1
    · exact fun hshort => absurd h hshort.2.1
  · rw [if_pos hst] at htravel
    exact ⟨fun hr => absurd hr (not_reads_of_error htravel), fun hr => absurd hr.1 hst⟩

theorem reads_long (h : isLong fcb) : Reads before st (fcb :: fcbs) ↔
    (Marked fcb ∨ Apart before → st = []) ∧ st.length ≠ CAPACITY ∧
      Reads (before ++ [fcb]) (dirent_l_t.ofBytes fcb :: st) fcbs := by
  have htravel := travel_long h st
  by_cases hfull : st.length = CAPACITY
  · rw [if_pos hfull] at htravel
    exact ⟨fun hr => absurd hr (not_reads_of_error htravel), fun hr => absurd hfull hr.2.1⟩
  rw [if_neg hfull] at htravel
  rw [reads_step htravel Outcome.noConfusion, and_iff_right hfull]
  refine and_congr_left fun _ => ⟨fun hgood => hgood.clean h, fun hclean => ⟨fun _ => hclean, ?_, ?_⟩⟩
  · exact fun hshort => absurd hshort (not_short_of_long h)
  · exact fun hshort => absurd hshort (not_short_of_long h)

theorem reads_short (h : isShort fcb) : Reads before st (fcb :: fcbs) ↔
    ∃ left name, Takes (ChkSum (fcb.take 11)) st left name ∧
      (Visit.mk before st fcb (.file (name.getD (fat32_short_name_parse (fcb.take 11))) name.isSome)).Good ∧
      Reads (before ++ [fcb]) left fcbs := by
  constructor
  · intro hr
    rcases htravel : travel_fcb st fcb with e | ⟨left, o⟩
    · exact absurd hr (not_reads_of_error htravel)
    · obtain ⟨name, htakes⟩ := takes_of_travel h htravel
      exact ⟨left, name, htakes, (reads_step (travel_short h htakes) Outcome.noConfusion).mp hr⟩
  · rintro ⟨left, name, htakes, hgood⟩
    exact (reads_step (travel_short h htakes) Outcome.noConfusion).mpr hgood

/-! ## A run -/

variable {run : List (List UInt8)}

/-- The rest of a run, behind its first entry. -/
theorem reads_longs (hlongs : ∀ fcb ∈ run, isLong fcb) (hprev : ¬ Apart before) (hst : st ≠ [])
    (hcap : st.length ≤ CAPACITY) : Reads before st (run ++ fcbs) ↔
      (∀ fcb ∈ run, ¬ Marked fcb) ∧ st.length + run.length ≤ CAPACITY ∧
        Reads (before ++ run) ((run.map dirent_l_t.ofBytes).reverse ++ st) fcbs := by
  induction run generalizing before st with
  | nil => simpa using fun _ => hcap
  | cons fcb run ih =>
    rw [List.forall_mem_cons] at hlongs
    have hnext : ¬ Apart (before ++ [fcb]) := fun h => apart_snoc.mp h hlongs.1
    rw [cons_append, reads_long hlongs.1, List.forall_mem_cons, length_cons]
    by_cases hfull : st.length = CAPACITY
    · refine ⟨fun h => absurd hfull h.2.1, fun h => ?_⟩
      exact absurd h.2.1 (by rw [hfull]; omega)
    have hroom : (dirent_l_t.ofBytes fcb :: st).length ≤ CAPACITY := by
      rw [length_cons]
      omega
    have hstack : (run.map dirent_l_t.ofBytes).reverse ++ dirent_l_t.ofBytes fcb :: st =
        ((fcb :: run).map dirent_l_t.ofBytes).reverse ++ st := by simp
    have hcount : (dirent_l_t.ofBytes fcb :: st).length + run.length = st.length + (run.length + 1) := by
      rw [length_cons]
      omega
    rw [ih hlongs.2 hnext (cons_ne_nil _ _) hroom, hstack, hcount, append_assoc, List.singleton_append]
    constructor
    · rintro ⟨hclean, -, hrest⟩
      exact ⟨⟨fun hmark => hst (hclean (.inl hmark)), hrest.1⟩, hrest.2⟩
    · rintro ⟨⟨hmark, hmarks⟩, hrest⟩
      exact ⟨fun h => absurd h (not_or.mpr ⟨hmark, hprev⟩), hfull, hmarks, hrest⟩

/-- A whole run. -/
theorem reads_run (hne : run ≠ []) (hlongs : ∀ fcb ∈ run, isLong fcb) (hprev : Apart before) :
    Reads before st (run ++ fcbs) ↔
      st = [] ∧ OneRun run ∧ Reads (before ++ run) (run.map dirent_l_t.ofBytes).reverse fcbs := by
  obtain ⟨fcb, run, rfl⟩ := List.exists_cons_of_ne_nil hne
  have hall := hlongs
  rw [List.forall_mem_cons] at hlongs
  have hnext : ¬ Apart (before ++ [fcb]) := fun h => apart_snoc.mp h hlongs.1
  rw [cons_append, reads_long hlongs.1]
  by_cases hst : st = []
  · subst hst
    have hstack : (run.map dirent_l_t.ofBytes).reverse ++ [dirent_l_t.ofBytes fcb] =
        ((fcb :: run).map dirent_l_t.ofBytes).reverse := by simp
    have hempty : ([] : List dirent_l_t).length ≠ CAPACITY := by decide
    have hroom : [dirent_l_t.ofBytes fcb].length ≤ CAPACITY := by
      rw [List.length_singleton]
      decide
    rw [reads_longs hlongs.2 hnext (cons_ne_nil _ _) hroom, hstack, append_assoc, List.singleton_append,
      and_iff_right fun _ => rfl, and_iff_right hempty, and_iff_right rfl]
    constructor
    · rintro ⟨hmarks, hcount, hrest⟩
      refine ⟨⟨hall, hmarks, ?_⟩, hrest⟩
      rw [length_cons]
      rwa [List.length_singleton, Nat.add_comm] at hcount
    rintro ⟨hone, hrest⟩
    have hcount := hone.fits
    rw [length_cons, Nat.add_comm] at hcount
    exact ⟨hone.unmarked, hcount, hrest⟩
  · exact ⟨fun h => absurd (h.1 (.inr hprev)) hst, fun h => absurd h.1 hst⟩

/-! ## A file -/

theorem longRun_marked {i : Nat} {es : List dirent_l_t} {us : List UInt16} (h : LongRun sum i es us) :
    ∃ init e, es = init ++ [e] ∧ e.LDIR_Ord = UInt8.ofNat ((i + init.length) ||| LAST_LONG_ENTRY) := by
  induction h with
  | @last i e us _ _ _ hord => exact ⟨[], e, rfl, hord⟩
  | @cons i e es us _ _ _ _ ih =>
    obtain ⟨init, f, rfl, hord⟩ := ih
    refine ⟨e :: init, f, rfl, ?_⟩
    rw [length_cons, Nat.add_comm init.length, ← Nat.add_assoc]
    exact hord

theorem wellFormed_marked {us : List UInt16} (h : WellFormed run fcb us) :
    ∃ first rest, run = first :: rest ∧ Marked first := by
  obtain ⟨init, e, hes, hord⟩ := longRun_marked h.entries
  have hlen := NameBuffers.longRun_length h.entries
  have hfits := h.fits
  rw [List.reverse_eq_iff, List.reverse_append, List.reverse_singleton, List.singleton_append] at hes
  obtain ⟨first, rest, rfl, hfirst, hrest⟩ := List.map_eq_cons_iff.mp hes
  refine ⟨first, rest, rfl, ?_⟩
  have hchr : chr first 0 = e.LDIR_Ord := hfirst ▸ rfl
  rw [Marked, hchr, hord]
  apply last_ord_bool
  have hinit : init.length = rest.length := by
    rw [← @List.length_reverse _ init, ← hrest, List.length_map]
  rw [List.length_reverse, List.length_map, length_cons] at hlen
  unfold FAT_LFN_LENGTH NAME_LONG_MAX at *
  omega

/-- The run before a file is its run. -/
theorem wellFormed_run {rest run' : List (List UInt8)} {us : List UInt16} (hprev : Apart before) (hone : OneRun run)
    (hsplit : before ++ run = rest ++ run') (h : WellFormed run' fcb us) : run' = run := by
  obtain ⟨first, more, rfl, hmark⟩ := wellFormed_marked h
  rcases List.append_eq_append_iff.mp hsplit with ⟨as, -, hrun⟩ | ⟨as, hbefore, hrun⟩
  · rcases as with _ | ⟨a, as⟩
    · exact hrun.symm
    have htail : first ∈ run.tail := by
      rw [hrun]
      exact List.mem_append_right _ List.mem_cons_self
    exact absurd hmark (hone.unmarked first htail)
  · rcases List.eq_nil_or_concat' as with rfl | ⟨as, a, rfl⟩
    · exact hrun
    have hlast : before.getLast? = some a := by
      rw [hbefore, ← append_assoc, List.getLast?_concat]
    have hmem : a ∈ first :: more := by
      rw [hrun]
      exact List.mem_append_left _ (List.mem_append_right _ (List.mem_singleton_self a))
    exact absurd (h.longs a hmem) (hprev a hlast)

theorem cstring_ended (s r : List UInt8) : cstring (s ++ 0 :: r) = cstring (s ++ [0]) := by
  induction s with
  | nil => rfl
  | cons c s ih =>
    rw [cstring, cstring, cons_append, cons_append, List.takeWhile_cons, List.takeWhile_cons]
    exact congrArg (fun t => if (c != 0) = true then c :: t else []) ih

/-- What a short entry takes off a well-formed run. -/
theorem wellFormed_takes {us : List UInt16} {left : List dirent_l_t} {name : Option (List UInt8)}
    (h : WellFormed run fcb us)
    (htakes : Takes (ChkSum (fcb.take 11)) (run.map dirent_l_t.ofBytes).reverse left name) :
    name = some (cstring (us.map LONG_NAME_CHAR_MASK ++ [0])) := by
  have hpop := NameBuffers.popLoop_run h.entries h.valid []
  change LongName.popLoop _ _ 1 [] = _ at hpop
  have hlen := NameBuffers.longRun_length h.entries
  have hlast : LAST_LONG_ENTRY_BOOL (UInt8.ofNat ((1 + (run.map dirent_l_t.ofBytes).reverse.length - 1) |||
      LAST_LONG_ENTRY)) = true := by
    have hfits := h.fits
    apply last_ord_bool
    unfold FAT_LFN_LENGTH NAME_LONG_MAX at *
    omega
  have hrefines := popstack_refines (popstack_of_takes htakes)
  rw [LongName.fat32_longname_popstack, hpop] at hrefines
  dsimp only at hrefines
  rw [if_pos hlast] at hrefines
  obtain ⟨-, rfl⟩ := Prod.mk.inj (Except.ok.inj hrefines)
  refine congrArg some ?_
  rw [nil_append, NameBuffers.ending]
  split
  · rw [append_nil]
  · rw [append_assoc]
    exact cstring_ended _ _

/-- The short entry behind a run. -/
theorem good_file {left : List dirent_l_t} {name : Option (List UInt8)} (hprev : Apart before) (hone : OneRun run)
    (hshort : isShort fcb)
    (htakes : Takes (ChkSum (fcb.take 11)) (run.map dirent_l_t.ofBytes).reverse left name) :
    (Visit.mk (before ++ run) (run.map dirent_l_t.ofBytes).reverse fcb
      (.file (name.getD (fat32_short_name_parse (fcb.take 11))) name.isSome)).Good where
  clean hlong := absurd hshort (not_short_of_long hlong)
  short _ hapart := by
    rcases List.eq_nil_or_concat' run with rfl | ⟨init, last, rfl⟩
    · generalize hstack : (([] : List (List UInt8)).map dirent_l_t.ofBytes).reverse = stack at htakes
      rcases htakes with _ | ⟨_, _, _, _⟩ | ⟨_, _, _⟩
      · exact ⟨_, rfl⟩
      · simp at hstack
      · simp at hstack
    · rw [← append_assoc] at hapart
      exact absurd (hone.longs last (by simp)) (apart_snoc.mp hapart)
  named _ rest run' us hsplit hwell := by
    obtain rfl := wellFormed_run hprev hone hsplit hwell
    rw [wellFormed_takes hwell htakes]
    rfl

/-! ## The scan -/

theorem apart_of_free (h : isFree fcb) : Apart (before ++ [fcb]) := apart_snoc.mpr fun hlong => hlong.2.1 h

theorem apart_of_short (h : isShort fcb) : Apart (before ++ [fcb]) := apart_snoc.mpr fun hlong => not_short_of_long hlong h

/-- A short entry by itself, on what is left over. -/
theorem good_leftover {name : Option (List UInt8)}
    (hname : ∀ n, name = some n → n = fat32_short_name_parse (fcb.take 11)) (hprev : Apart before)
    (hshort : isShort fcb) :
    (Visit.mk before st fcb (.file (name.getD (fat32_short_name_parse (fcb.take 11))) name.isSome)).Good where
  clean hlong := absurd hshort (not_short_of_long hlong)
  short _ _ := by
    rcases name with _ | name
    · exact ⟨_, rfl⟩
    · exact ⟨true, by rw [Option.getD_some, Option.isSome_some, hname name rfl]⟩
  named _ rest run us hsplit hwell := by
    obtain ⟨first, more, rfl, -⟩ := wellFormed_marked hwell
    -- the entry before is not a long one
    obtain ⟨init, last, hlast⟩ := List.eq_nil_or_concat' (first :: more) |>.resolve_left (cons_ne_nil _ _)
    have hbefore : before.getLast? = some last := by
      change before = _ at hsplit
      rw [hsplit, hlast, ← append_assoc, List.getLast?_concat]
    have hmem : last ∈ first :: more := by
      rw [hlast]
      exact List.mem_append_right _ (List.mem_singleton_self last)
    exact absurd (hwell.longs last hmem) (hprev last hbefore)

theorem reads_of_legible (h : Legible st fcbs) (hprev : Apart before) : Reads before st fcbs := by
  induction h generalizing before with
  | done => exact reads_nil
  | stop hend => exact reads_end hend
  | free hfree _ ih => exact (reads_free hfree).mpr ⟨rfl, ih (apart_of_free hfree)⟩
  | @orphans run fcbs hne hone hrest =>
    refine (reads_run hne hone.longs hprev).mpr ⟨rfl, hone, ?_⟩
    rcases fcbs with _ | ⟨fcb, fcbs⟩
    · exact reads_nil
    · exact reads_end (hrest fcb rfl)
  | @file run fcb fcbs left name hone hshort htakes _ ih =>
    have hfile : Reads (before ++ run) (run.map dirent_l_t.ofBytes).reverse (fcb :: fcbs) :=
      (reads_short hshort).mpr ⟨left, name, htakes, good_file hprev hone hshort htakes, ih (apart_of_short hshort)⟩
    rcases eq_or_ne run [] with rfl | hne
    · rwa [append_nil] at hfile
    · exact (reads_run hne hone.longs hprev).mpr ⟨rfl, hone, hfile⟩
  | @leftover fcb fcbs left left' name _ hshort htakes hname _ ih =>
    exact (reads_short hshort).mpr
      ⟨left', name, htakes, good_leftover hname hprev hshort, ih (apart_of_short hshort)⟩

theorem split_run (fcbs : List (List UInt8)) : ∃ run rest, fcbs = run ++ rest ∧ (∀ fcb ∈ run, isLong fcb) ∧
    ∀ fcb, rest.head? = some fcb → ¬ isLong fcb := by
  induction fcbs with
  | nil => exact ⟨[], [], rfl, fun _ h => absurd h List.not_mem_nil, fun _ h => absurd h (Option.some_ne_none _).symm⟩
  | cons fcb fcbs ih =>
    by_cases hlong : isLong fcb
    · obtain ⟨run, rest, rfl, hall, hhead⟩ := ih
      exact ⟨fcb :: run, rest, rfl, List.forall_mem_cons.mpr ⟨hlong, hall⟩, hhead⟩
    · refine ⟨[], fcb :: fcbs, rfl, fun _ h => absurd h List.not_mem_nil, fun f hf => ?_⟩
      rwa [← Option.some_inj.mp hf]

/-- What the scan reads is of the grammar, by the length of the directory. -/
theorem legible_of_reads {n : Nat} (hn : fcbs.length < n) (hprev : Apart before) (h : Reads before st fcbs) :
    Legible st fcbs := by
  induction n generalizing before st fcbs with
  | zero => exact absurd hn (Nat.not_lt_zero _)
  | succ n ih =>
    obtain ⟨run, rest, rfl, hlongs, hhead⟩ := split_run fcbs
    rcases eq_or_ne run [] with rfl | hne
    · rcases rest with _ | ⟨fcb, rest⟩
      · exact .done
      have hlen : rest.length < n := Nat.lt_of_succ_lt_succ hn
      rcases kind fcb with hend | hfree | hlong | hshort
      · exact .stop hend
      · obtain ⟨rfl, hrest⟩ := (reads_free hfree).mp h
        exact .free hfree (ih hlen (apart_of_free hfree) hrest)
      · exact absurd hlong (hhead fcb rfl)
      · obtain ⟨left, name, htakes, hgood, hrest⟩ := (reads_short hshort).mp h
        have hlegible := ih hlen (apart_of_short hshort) hrest
        rcases eq_or_ne st [] with rfl | hst
        · exact @Legible.file [] _ _ _ _ ⟨hlongs, fun _ h => absurd h List.not_mem_nil, Nat.zero_le _⟩ hshort htakes hlegible
        refine .leftover hst hshort htakes (fun m hm => ?_) hlegible
        obtain ⟨long_valid, houtcome⟩ := hgood.short hshort hprev
        rw [hm] at houtcome
        injection houtcome
    · obtain ⟨rfl, hone, hrest⟩ := (reads_run hne hlongs hprev).mp h
      rcases rest with _ | ⟨fcb, rest⟩
      · exact .orphans hne hone fun _ h => absurd h (Option.some_ne_none _).symm
      have hlen : rest.length < n := by
        rw [List.length_append, length_cons] at hn
        omega
      rcases kind fcb with hend | hfree | hlong | hshort
      · exact .orphans hne hone fun f hf => Option.some_inj.mp hf ▸ hend
      · have hstack := ((reads_free hfree).mp hrest).1
        rw [List.reverse_eq_nil_iff, List.map_eq_nil_iff] at hstack
        exact absurd hstack hne
      · exact absurd hlong (hhead fcb rfl)
      · obtain ⟨left, name, htakes, -, hafter⟩ := (reads_short hshort).mp hrest
        exact .file hone hshort htakes (ih hlen (apart_of_short hshort) hafter)

/-- **The scan reads exactly the legible directories.** -/
theorem scan_iff (fcbs : List (List UInt8)) : Reads [] [] fcbs ↔ Legible [] fcbs :=
  ⟨legible_of_reads (Nat.lt_succ_self _) apart_nil, fun h => reads_of_legible h apart_nil⟩

/-- A long entry that is marked as the first of a run and has the ordinal 1. -/
def orphan : List UInt8 := 0x41 :: List.replicate 10 0x61 ++ 0x0F :: List.replicate 20 0x61

/-- A free entry behind a long one is a panic. -/
theorem orphan_panics : fat32_inode_general_trav [] [] [orphan, Dir.freeFcb] =
    .error (.source .something_wrong_with_disk) ∧ ¬ Reads [] [] [orphan, Dir.freeFcb] := by
  have hpanic : fat32_inode_general_trav [] [] [orphan, Dir.freeFcb] = .error (.source .something_wrong_with_disk) := rfl
  refine ⟨hpanic, ?_⟩
  rintro ⟨visits, hvisits, -⟩
  rw [hpanic] at hvisits
  cases hvisits

end LostWakeup.Fs.Fat32.MalformedRuns
