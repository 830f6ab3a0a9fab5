/-
# LostWakeup.Fs.Fat32.DirLookup — when a directory's lookup answers like a plain scan.

The shortcuts lose a file whose name starts with a dot, since it is never cached and the scan does not come back to it,
and take a file for another one whose name has the same hash.  `Allowed` is the condition on an operation that rules this
out; the invariant is that the table is sound, and complete for the part of the directory that a scan skips.
-/
import Mathlib.Data.List.Nodup
import LostWakeup.Fs.Fat32.StoredName
import LostWakeup.Library.Outcome

namespace LostWakeup.Fs.Fat32.Dir

open Library Lib.Hash Lib.Strings Fs.Fat32.LongName
open Fs.Fat32.ShortName (Locals Given Creation)
open Fs.Fat32.StoredName (Ends Written Storable)
open List (append_assoc append_nil cons_append drop_left length_cons map_append mem_append mem_cons nil_append
  replicate)

/-! ## The layout of a directory -/

/-- The scan, with this stack, reads long entries and then the short entry of a file of that name, and empties the
stack. -/
inductive Record : List dirent_l_t → List (List UInt8) → List UInt8 → Prop
  | short {stack : List dirent_l_t} {fcb name : List UInt8} {long_valid : Bool} :
      travel_fcb stack fcb = .ok ([], .file name long_valid) → Record stack [fcb] name
  | long {stack stack' : List dirent_l_t} {fcb : List UInt8} {fcbs : List (List UInt8)}
      {name : List UInt8} :
      travel_fcb stack fcb = .ok (stack', .long) → Record stack' fcbs name → Record stack (fcb :: fcbs) name

/-- A part of a directory: a free entry, or the entries of a file. -/
inductive Item
  | free (fcb : List UInt8) (h : NAME0_FREE_ONLY (chr fcb 0) = true)
  | file (fcbs : List (List UInt8)) (name : List UInt8) (h : Record [] fcbs name)

def Item.entries : Item → List (List UInt8)
  | .free fcb _ => [fcb]
  | .file fcbs _ _ => fcbs

def Item.isFree : Item → Bool
  | .free _ _ => true
  | .file _ _ _ => false

def entriesOf (items : List Item) : List (List UInt8) := items.flatMap Item.entries

/-- The number of entries. -/
def size (items : List Item) : Nat := (entriesOf items).length

/-- The files among items from offset `off` on, each with the offset of its short entry. -/
def filesFrom : Nat → List Item → List (List UInt8 × Nat)
  | _, [] => []
  | off, .free _ _ :: items => filesFrom (off + 1) items
  | off, .file fcbs name _ :: items => (name, off + fcbs.length - 1) :: filesFrom (off + fcbs.length) items

@[simp] theorem entriesOf_nil : entriesOf [] = [] := rfl

@[simp] theorem entriesOf_cons (i : Item) (items : List Item) :
    entriesOf (i :: items) = i.entries ++ entriesOf items := List.flatMap_cons

@[simp] theorem entriesOf_append (p q : List Item) : entriesOf (p ++ q) = entriesOf p ++ entriesOf q :=
  List.flatMap_append

@[simp] theorem size_nil : size [] = 0 := rfl

@[simp] theorem size_cons (i : Item) (items : List Item) :
    size (i :: items) = i.entries.length + size items := by
  simp [size]

@[simp] theorem size_append (p q : List Item) : size (p ++ q) = size p + size q := by
  simp [size]

theorem filesFrom_append (off : Nat) (p q : List Item) :
    filesFrom off (p ++ q) = filesFrom off p ++ filesFrom (off + size p) q := by
  induction p generalizing off with
  | nil => simp [filesFrom]
  | cons i p ih =>
    cases i with
    | free fcb h => simp [filesFrom, ih, Item.entries, Nat.add_assoc]
    | file fcbs name h => simp [filesFrom, ih, Item.entries, Nat.add_assoc]

theorem filesFrom_free (off : Nat) {items : List Item} (h : ∀ i ∈ items, i.isFree = true) :
    filesFrom off items = [] := by
  induction items generalizing off with
  | nil => rfl
  | cons i items ih =>
    cases i with
    | free fcb hf => exact ih (off + 1) fun j hj => h j (.tail _ hj)
    | file fcbs name hf => exact absurd (h _ (.head _)) (by simp [Item.isFree])

theorem size_free {items : List Item} (h : ∀ i ∈ items, i.isFree = true) : size items = items.length := by
  induction items with
  | nil => rfl
  | cons i items ih =>
    cases i with
    | free fcb hf =>
      rw [size_cons, ih fun j hj => h j (.tail _ hj), length_cons, Nat.add_comm]
      rfl
    | file fcbs name hf => exact absurd (h _ (.head _)) (by simp [Item.isFree])

/-! ## One entry -/

theorem travel_fcb_all_free {stack : List dirent_l_t} {fcb : List UInt8}
    (h : NAME0_FREE_ALL (chr fcb 0) = true) : travel_fcb stack fcb = .ok (stack, .all_free) := by
  simp [travel_fcb, h]

theorem travel_fcb_free {fcb : List UInt8} (h : NAME0_FREE_ONLY (chr fcb 0) = true) :
    travel_fcb [] fcb = .ok ([], .free) := by
  have hall : NAME0_FREE_ALL (chr fcb 0) = false := by
    simp only [NAME0_FREE_ONLY, NAME0_FREE_ALL, beq_iff_eq] at h ⊢
    rw [h]
    decide
  simp [travel_fcb, h, hall]

theorem used_of_travel {stack stack' : List dirent_l_t} {fcb : List UInt8} {o : Outcome}
    (h : travel_fcb stack fcb = .ok (stack', o)) (hall : o ≠ .all_free) (hfree : o ≠ .free) :
    NAME0_FREE_BOOL (chr fcb 0) = false := by
  unfold travel_fcb at h
  split at h
  · cases h
    exact absurd rfl hall
  · next h0 =>
    split at h
    · split at h
      · cases h
      · cases h
        exact absurd rfl hfree
    · next h1 => simp [NAME0_FREE_BOOL, h0, h1]

def isLong (fcb : List UInt8) : Bool := !NAME0_FREE_BOOL (chr fcb 0) && LONG_NAME_BOOL (chr fcb 11)

theorem isLong_of_travel_long {stack stack' : List dirent_l_t} {fcb : List UInt8}
    (h : travel_fcb stack fcb = .ok (stack', .long)) : isLong fcb = true := by
  have hused := used_of_travel h (by simp) (by simp)
  rw [isLong, hused]
  simp only [NAME0_FREE_BOOL, Bool.or_eq_false_iff] at hused
  rw [travel_fcb, hused.1, hused.2] at h
  by_contra hshort
  simp only [Bool.not_false, Bool.true_and] at hshort
  simp only [Bool.false_eq_true, if_false, if_neg hshort] at h
  split at h <;> cases h

theorem travel_long_stack {stack stack' : List dirent_l_t} {fcb : List UInt8}
    (h : travel_fcb stack fcb = .ok (stack', .long)) : stack' = dirent_l_t.ofBytes fcb :: stack := by
  unfold travel_fcb at h
  split at h
  · cases h
  split at h
  · split at h <;> cases h
  split at h
  · unfold stack_push at h
    split at h
    · cases h
    · next hpush =>
      split at hpush
      · cases hpush
      · cases h
        exact (Except.ok.inj hpush).symm
  · split at h <;> cases h

theorem isLong_of_travel_file {stack stack' : List dirent_l_t} {fcb name : List UInt8} {long_valid : Bool}
    (h : travel_fcb stack fcb = .ok (stack', .file name long_valid)) : isLong fcb = false := by
  have hused := used_of_travel h (by simp) (by simp)
  rw [isLong, hused]
  simp only [NAME0_FREE_BOOL, Bool.or_eq_false_iff] at hused
  rw [travel_fcb, hused.1, hused.2] at h
  by_contra hlong
  simp only [Bool.not_false, Bool.true_and, Bool.not_eq_false] at hlong
  simp only [Bool.false_eq_true, if_false, if_pos hlong] at h
  split at h <;> cases h

namespace Record

variable {stack : List dirent_l_t} {fcbs : List (List UInt8)} {name : List UInt8}

theorem length_pos (h : Record stack fcbs name) : 0 < fcbs.length := by
  cases h <;> simp

theorem used (h : Record stack fcbs name) : ∀ fcb ∈ fcbs, NAME0_FREE_BOOL (chr fcb 0) = false := by
  induction h with
  | short ht =>
    intro fcb hf
    rw [List.mem_singleton.1 hf]
    exact used_of_travel ht (by simp) (by simp)
  | long ht _ ih =>
    intro fcb hf
    rcases List.mem_cons.1 hf with rfl | hf
    · exact used_of_travel ht (by simp) (by simp)
    · exact ih fcb hf

theorem long_short (h : Record stack fcbs name) :
    ∃ longs short, fcbs = longs ++ [short] ∧ (∀ fcb ∈ longs, isLong fcb = true) ∧ isLong short = false := by
  induction h with
  | short ht => exact ⟨[], _, rfl, by simp, isLong_of_travel_file ht⟩
  | long ht _ ih =>
    obtain ⟨longs, short, rfl, hlongs, hshort⟩ := ih
    exact ⟨_ :: longs, short, rfl, List.forall_mem_cons.2 ⟨isLong_of_travel_long ht, hlongs⟩, hshort⟩

theorem of_pushed {es : List dirent_l_t} (hes : ∀ e ∈ es, Pushed e) {short : List UInt8} {long_valid : Bool}
    (hcap : stack.length + es.length ≤ CAPACITY)
    (hshort : travel_fcb (es.reverse ++ stack) short = .ok ([], .file name long_valid)) :
    Record stack (es.map dirent_l_t.bytes ++ [short]) name := by
  induction es generalizing stack with
  | nil => exact .short hshort
  | cons e es ih =>
    rw [length_cons] at hcap
    refine .long (travel_fcb_long (hes e (.head es)) (by omega)) (ih (fun f hf => hes f (.tail e hf)) ?_ ?_)
    · rw [length_cons]
      omega
    · simpa using hshort

end Record

/-- The item of a file. -/
theorem filesFrom_split {off o : Nat} {items : List Item} {name : List UInt8}
    {fs₁ fs₂ : List (List UInt8 × Nat)} (h : filesFrom off items = fs₁ ++ (name, o) :: fs₂) :
    ∃ p fcbs hr q, items = p ++ .file fcbs name hr :: q ∧ filesFrom off p = fs₁ ∧
      o + 1 = off + size p + fcbs.length := by
  induction items generalizing off fs₁ with
  | nil => simp [filesFrom] at h
  | cons i items ih =>
    cases i with
    | free fcb hf =>
      obtain ⟨p, fcbs, hr, q, hitems, hp, ho⟩ := ih h
      refine ⟨.free fcb hf :: p, fcbs, hr, q, by rw [hitems]; rfl, hp, ?_⟩
      rw [ho, size_cons, ← Nat.add_assoc]
      rfl
    | file fcbs n hf =>
      have hpos := hf.length_pos
      cases fs₁ with
      | nil =>
        simp only [filesFrom, nil_append, List.cons.injEq, Prod.mk.injEq] at h
        obtain ⟨⟨rfl, rfl⟩, -⟩ := h
        exact ⟨[], fcbs, hf, items, rfl, rfl, by simp; omega⟩
      | cons f fs₁ =>
        simp only [filesFrom, cons_append, List.cons.injEq] at h
        obtain ⟨rfl, h⟩ := h
        obtain ⟨p, fcbs', hr, q, hitems, hp, ho⟩ := ih h
        refine ⟨.file fcbs n hf :: p, fcbs', hr, q, by rw [hitems]; rfl, by rw [filesFrom, hp], ?_⟩
        rw [ho, size_cons, ← Nat.add_assoc]
        rfl

/-! ## The plain scan -/

theorem liveFiles_record {stack : List dirent_l_t} {fcbs : List (List UInt8)} {name : List UInt8}
    (h : Record stack fcbs name) (off : Nat) (rest : List (List UInt8)) :
    liveFiles stack off (fcbs ++ rest) = (liveFiles [] (off + fcbs.length) rest).map
      fun r => (r.1, (name, off + fcbs.length - 1) :: r.2) := by
  induction h generalizing off with
  | short ht => simp [liveFiles, ht]
  | long ht _ ih =>
    rw [cons_append, liveFiles, ht]
    simp only [ih, length_cons, Nat.add_assoc, Nat.add_comm 1]

theorem liveFiles_ended (items : List Item) {rest : List (List UInt8)}
    (hend : ∀ fcb, rest.head? = some fcb → NAME0_FREE_ALL (chr fcb 0) = true) (off : Nat) :
    liveFiles [] off (entriesOf items ++ rest) = .ok ([], filesFrom off items) := by
  induction items generalizing off with
  | nil =>
    rcases rest with _ | ⟨fcb, rest⟩
    · rfl
    · simp [liveFiles, travel_fcb_all_free (hend fcb rfl), filesFrom]
  | cons i items ih =>
    rcases i with ⟨fcb, h⟩ | ⟨fcbs, name, h⟩
    · simp [Item.entries, liveFiles, travel_fcb_free h, ih, filesFrom]
    · rw [entriesOf_cons, Item.entries, append_assoc, liveFiles_record h, ih]
      rfl

theorem liveFiles_items (items : List Item) {zeros : List (List UInt8)}
    (hz : ∀ fcb ∈ zeros, NAME0_FREE_ALL (chr fcb 0) = true) (off : Nat) :
    liveFiles [] off (entriesOf items ++ zeros) = .ok ([], filesFrom off items) :=
  liveFiles_ended items (fun fcb h => hz fcb (List.mem_of_head? h)) off

/-! ## The scan of a lookup -/

/-- A name that is not cached, or fits into a node of the table. -/
def KeyFits (name : List UInt8) : Prop := chr name 0 = 0x2E ∨ (name ≠ [] ∧ name.length < KEY_NAME)

/-- The number of bytes that reading these entries puts into `name_buf`. -/
def bufBytes (stack : List dirent_l_t) (fcbs : List (List UInt8)) : Nat :=
  written ((fcbs.dropLast.map dirent_l_t.ofBytes).reverse ++ stack) 1

/-- The name of a file fits `name_buf`, and a node of the table. -/
def Item.Fits : Item → Prop
  | .free _ _ => True
  | .file fcbs name _ => bufBytes [] fcbs ≤ NAME_LONG_MAX ∧ KeyFits name

/-- What passing a file does to the table. -/
def cache (table : hash_table) (f : List UInt8 × Nat) : hash_table :=
  if chr f.1 0 = 0x2E ∨ (hash_lookup table f.1).isSome then table
  else table.append hash_str Lib.Hash.NINODE f.1 f.2

/-- The scan of a lookup, on files. -/
def search (name : List UInt8) : List (List UInt8 × Nat) → hash_table → hash_table × Option Nat
  | [], table => (table, none)
  | f :: fs, table =>
    if fat32_namecmp name f.1 then (cache table f, some f.2) else search name fs (cache table f)

theorem hash_insert_eq_cache {name : List UInt8} (h : KeyFits name) (table : hash_table) (off : Nat) :
    (if chr name 0 ≠ 0x2E then fat32_inode_hash_insert table name off else .ok table) = .ok (cache table (name, off)) := by
  by_cases hdot : chr name 0 = 0x2E
  · simp [cache, hdot]
  obtain ⟨hne, hlen⟩ := h.resolve_left hdot
  rw [if_pos hdot, fat32_inode_hash_insert]
  cases hl : hash_lookup table name with
  | some p => simp [cache, hl]
  | none =>
    simp only [copyName, if_neg hne, if_neg hlen.not_ge, hash_insert_of_none off hl]
    simp [cache, hdot, hl]

theorem trav_record {stack : List dirent_l_t} {fcbs : List (List UInt8)} {n : List UInt8}
    (h : Record stack fcbs n) (hroom : bufBytes stack fcbs ≤ NAME_LONG_MAX) (hfits : KeyFits n) (name : List UInt8) (off : Nat)
    (rest : List (List UInt8)) (table : hash_table) :
    fat32_inode_general_trav name stack off (fcbs ++ rest) table =
      if fat32_namecmp name n then
        .ok (cache table (n, off + fcbs.length - 1), .found (off + fcbs.length - 1))
      else
        fat32_inode_general_trav name [] (off + fcbs.length) rest (cache table (n, off + fcbs.length - 1)) := by
  induction h generalizing off with
  | @short stack fcb name' long_valid ht =>
    have hpass : pass table stack name' off = .ok (cache table (name', off)) :=
      (if_neg hroom.not_gt).trans (hash_insert_eq_cache hfits table off)
    rw [List.singleton_append, fat32_inode_general_trav, ht]
    simp only [hpass]
    rfl
  | @long stack stack' fcb fcbs name' ht hrec ih =>
    have hstack := travel_long_stack ht
    have hbuf : bufBytes stack' fcbs = bufBytes stack (fcb :: fcbs) := by
      rw [bufBytes, bufBytes, hstack, List.dropLast_cons_of_ne_nil (List.ne_nil_of_length_pos hrec.length_pos)]
      simp
    rw [cons_append, fat32_inode_general_trav, ht]
    simp only [ih (hbuf ▸ hroom) hfits, length_cons, Nat.add_assoc, Nat.add_comm 1]

/-- How a scan over items ends that finds nothing. -/
def endOf (zeros : List (List UInt8)) : Trav := if zeros = [] then .over else .stop

theorem trav_items (name : List UInt8) (items : List Item) {zeros : List (List UInt8)}
    (hz : ∀ fcb ∈ zeros, NAME0_FREE_ALL (chr fcb 0) = true) (off : Nat)
    (hfits : ∀ i ∈ items, i.Fits) (table : hash_table) :
    fat32_inode_general_trav name [] off (entriesOf items ++ zeros) table =
      .ok ((search name (filesFrom off items) table).1,
        ((search name (filesFrom off items) table).2.map Trav.found).getD (endOf zeros)) := by
  induction items generalizing off table with
  | nil =>
    cases zeros with
    | nil => rfl
    | cons fcb zeros =>
      simp [fat32_inode_general_trav, filesFrom, search, endOf,
        travel_fcb_all_free (hz fcb (.head zeros))]
  | cons i items ih =>
    cases i with
    | free fcb h =>
      simp only [entriesOf_cons, Item.entries, cons_append, nil_append, fat32_inode_general_trav,
        travel_fcb_free h]
      exact ih (off + 1) (fun i hi => hfits i (.tail _ hi)) table
    | file fcbs n h =>
      rw [List.forall_mem_cons] at hfits
      rw [entriesOf_cons, append_assoc, Item.entries, trav_record h hfits.1.1 hfits.1.2, filesFrom, search]
      split
      · rfl
      · exact ih _ hfits.2 _

/-! ## The table against the files -/

/-- The table is sound for `files` and complete for `seen`. -/
structure Caches (table : hash_table) (files seen : List (List UInt8 × Nat)) : Prop where
  unique : Chains.Unique hash_str table
  sound : ∀ h p, table.find hash_str Lib.Hash.NINODE h = some p → p ∈ files ∧ chr p.1 0 ≠ 0x2E
  complete : ∀ f ∈ seen, chr f.1 0 ≠ 0x2E → (hash_lookup table f.1).isSome = true

theorem Caches.init (files : List (List UInt8 × Nat)) : Caches hash_table_entry_init files [] where
  unique _ := List.Pairwise.nil
  sound h p hp := by cases hp
  complete f hf := by cases hf

theorem Caches.mono {table : hash_table} {files seen seen' : List (List UInt8 × Nat)}
    (hc : Caches table files seen) (hsub : ∀ f ∈ seen', f ∈ seen) : Caches table files seen' :=
  ⟨hc.unique, hc.sound, fun f hf => hc.complete f (hsub f hf)⟩

theorem Caches.append {table : hash_table} {files files' seen : List (List UInt8 × Nat)}
    (hc : Caches table files seen) {f : List UInt8 × Nat} (hf : f ∈ files')
    (hsub : ∀ g ∈ files, g ∈ files') (hdot : chr f.1 0 ≠ 0x2E) (hnone : hash_lookup table f.1 = none) :
    Caches (table.append hash_str Lib.Hash.NINODE f.1 f.2) files' (seen ++ [f]) where
  unique := Chains.unique_append hc.unique hnone
  sound h p hp := by
    rw [Chains.find_append hnone] at hp
    split at hp
    · cases hp
      exact ⟨hf, hdot⟩
    · exact ⟨hsub p (hc.sound h p hp).1, (hc.sound h p hp).2⟩
  complete g hg hgdot := by
    unfold hash_lookup
    rw [Chains.find_append hnone]
    split
    · rfl
    · next hne =>
      rcases List.mem_append.1 hg with hg | hg
      · exact hc.complete g hg hgdot
      · rw [List.mem_singleton.1 hg] at hne
        exact absurd rfl hne

theorem Caches.cache {table : hash_table} {files seen : List (List UInt8 × Nat)}
    (hc : Caches table files seen) {f : List UInt8 × Nat} (hf : f ∈ files) :
    Caches (cache table f) files (seen ++ [f]) := by
  unfold Dir.cache
  split
  · next hskip =>
    refine ⟨hc.unique, hc.sound, fun g hg hgdot => ?_⟩
    rcases List.mem_append.1 hg with hg | hg
    · exact hc.complete g hg hgdot
    · rw [List.mem_singleton.1 hg] at hgdot ⊢
      exact hskip.resolve_left hgdot
  · next hskip =>
    rw [not_or] at hskip
    exact hc.append hf (fun _ h => h) hskip.1 (by simpa using hskip.2)

theorem namecmp_iff {name n : List UInt8} (h : name.length < PATH_LONG_MAX) :
    fat32_namecmp name n = true ↔ n = name := by
  have hname : name.take PATH_LONG_MAX = name := List.take_of_length_le h.le
  rw [fat32_namecmp, beq_iff_eq, hname]
  constructor
  · intro heq
    rw [heq, List.length_take] at h
    rw [heq, List.take_of_length_le (by omega)]
  · rintro rfl
    exact hname.symm

/-- What a search leaves: a table that is complete for what it has passed. -/
inductive Searched (name : List UInt8) (files seen fs : List (List UInt8 × Nat)) :
    hash_table × Option Nat → Prop
  | hit (fs₁ fs₂ : List (List UInt8 × Nat)) {off : Nat} {table : hash_table} :
      fs = fs₁ ++ (name, off) :: fs₂ → Caches table files (seen ++ fs₁ ++ [(name, off)]) →
      Searched name files seen fs (table, some off)
  | miss {table : hash_table} :
      (∀ f ∈ fs, f.1 ≠ name) → Caches table files (seen ++ fs) → Searched name files seen fs (table, none)

theorem search_spec {name : List UInt8} (hname : name.length < PATH_LONG_MAX)
    {files seen fs : List (List UInt8 × Nat)} (hfs : ∀ f ∈ fs, f ∈ files) {table : hash_table}
    (hc : Caches table files seen) : Searched name files seen fs (search name fs table) := by
  induction fs generalizing seen table with
  | nil => exact .miss (by simp) (by simpa [search] using hc)
  | cons f fs ih =>
    have hc' := hc.cache (hfs f (.head fs))
    rw [search]
    split
    · next hcmp =>
      obtain ⟨n, off⟩ := f
      obtain rfl : n = name := (namecmp_iff hname).1 hcmp
      exact .hit [] fs rfl (by simpa using hc')
    · next hcmp =>
      have hne : f.1 ≠ name := fun h => hcmp ((namecmp_iff hname).2 h)
      have hrest := ih (fun g hg => hfs g (.tail f hg)) hc'
      generalize search name fs (Dir.cache table f) = r at hrest ⊢
      cases hrest with
      | hit fs₁ fs₂ heq hc'' => exact .hit (f :: fs₁) fs₂ (by rw [heq]; rfl) (by simpa using hc'')
      | miss hall hc'' =>
        refine .miss (fun g hg => ?_) (by simpa using hc'')
        rcases List.mem_cons.1 hg with rfl | hg
        · exact hne
        · exact hall g hg

/-! ## Conditions on the operations -/

/-- The live files of a directory. -/
def files (dp : inode) : List (List UInt8 × Nat) :=
  match liveFiles [] 0 dp.entries with
  | .ok (_, fs) => fs
  | .error _ => []

/-- No other file that can be cached has the hash of `name`. -/
def Distinct (dp : inode) (name : List UInt8) : Prop :=
  ∀ f ∈ files dp, chr f.1 0 ≠ 0x2E → hash_str f.1 = hash_str name → f.1 = name

/-- A name that a lookup is right about: it fits `name_search`, does not start with a dot, and shares its
hash with no other file. -/
structure Searchable (dp : inode) (name : List UInt8) : Prop where
  ne_nil : name ≠ []
  length_lt : name.length < NAME_SEARCH
  not_dot : chr name 0 ≠ 0x2E
  distinct : Distinct dp name

/-- A file that can be created: where it is new, the scan does not take its short entry for a free one, and the parts
of its name end in the arrays on the stack. -/
structure Creatable (dp : inode) (loc : Locals) (c : Creation) : Prop extends Searchable dp c.name.bytes where
  new : (∀ f ∈ files dp, f.1 ≠ c.name.bytes) → chr c.name.bytes 0 ≠ 0xE5 ∧ Ends loc c.name c.isDir

/-- The number of long entries directly before `off`. -/
def longRun (dp : inode) (off : Nat) : Nat := ((dp.entries.take off).reverse.takeWhile isLong).length

/-- A file that can be deleted: it has as many long entries as its name needs. -/
structure Deletable (dp : inode) (fname : List UInt8) (off : Nat) : Prop where
  live : (fname, off) ∈ files dp
  long_run : longRun dp off = ordMax fname
  distinct : Distinct dp fname
  hashed : dp.i_hash.isSome = true

/-- The table of a directory; one that is `NULL` is made on the next lookup. -/
def tableOf (dp : inode) : hash_table := dp.i_hash.getD hash_table_entry_init

/-- `fat32_inode_alloc`; `loc` and `tc` are what the stack holds. -/
def fat32_inode_alloc (loc : Locals) (tc : ShortName.trav_control) (dp : inode) (c : Creation) :
    Except Panic (inode × Nat) :=
  match ShortName.fat32_inode_alloc loc tc dp c.given c.name c.isDir with
  | .error e => .error e
  | .ok (dp, off) =>
    match fat32_inode_hash_insert (tableOf dp) c.name.bytes off with
    | .error e => .error e
    | .ok table => .ok ({ dp with i_hash := some table }, off)

/-- `fat32_inode_create`, as far as it concerns the directory: the offset is that of the file that
existed or was made. -/
def fat32_inode_create (loc : Locals) (tc : ShortName.trav_control) (dp : inode) (c : Creation) :
    Except Panic (inode × Nat) :=
  match fat32_inode_dirlookup dp c.name.bytes with
  | .error e => .error e
  | .ok (dp, some off) => .ok (dp, off)
  | .ok (dp, none) => fat32_inode_alloc loc tc dp c

inductive Op
  | dirlookup (name : List UInt8)
  | create (loc : Locals) (tc : ShortName.trav_control) (c : Creation)
  | fcb_delete (fname : List UInt8) (off : Nat)
  | hash_destroy

def Allowed (dp : inode) : Op → Prop
  | .dirlookup name => Searchable dp name
  | .create loc _ c => Creatable dp loc c
  | .fcb_delete fname off => Deletable dp fname off
  | .hash_destroy => True

def step (dp : inode) : Op → Except Panic inode
  | .dirlookup name => (fat32_inode_dirlookup dp name).map Prod.fst
  | .create loc tc c => (fat32_inode_create loc tc dp c).map Prod.fst
  | .fcb_delete fname off => fat32_fcb_delete dp fname off
  | .hash_destroy => .ok (fat32_inode_hash_destroy dp)

def Step (dp : inode) (op : Op) (dp' : inode) : Prop := step dp op = .ok dp'

/-- A directory just opened: free entries and files of distinct names, then entries never used. -/
structure Opened (dp : inode) : Prop where
  layout : ∃ items zeros, dp.entries = entriesOf items ++ zeros ∧
    (∀ fcb ∈ zeros, NAME0_FREE_ALL (chr fcb 0) = true) ∧
    ((filesFrom 0 items).map Prod.fst).Nodup ∧ ∀ i ∈ items, i.Fits
  i_hash : dp.i_hash = none
  off_hint : dp.off_hint = 0

/-! ## The invariant -/

/-- The items of a directory are `pre`, which a lookup skips, and `post`, which it scans. -/
structure Inv (dp : inode) (pre post : List Item) (zeros : List (List UInt8)) : Prop where
  entries_eq : dp.entries = entriesOf (pre ++ post) ++ zeros
  zeros_free : ∀ fcb ∈ zeros, NAME0_FREE_ALL (chr fcb 0) = true
  hint : dp.off_hint = size pre
  nodup : ((filesFrom 0 (pre ++ post)).map Prod.fst).Nodup
  fits : ∀ i ∈ pre ++ post, i.Fits
  caches : Caches (tableOf dp) (filesFrom 0 (pre ++ post)) (filesFrom 0 pre)

namespace Inv

variable {dp : inode} {pre post : List Item} {zeros : List (List UInt8)}

theorem liveFiles_eq (h : Inv dp pre post zeros) :
    liveFiles [] 0 dp.entries = .ok ([], filesFrom 0 (pre ++ post)) := by
  rw [h.entries_eq]
  exact liveFiles_items _ h.zeros_free 0

theorem files_eq (h : Inv dp pre post zeros) : files dp = filesFrom 0 (pre ++ post) := by
  rw [files, h.liveFiles_eq]

theorem files_append (h : Inv dp pre post zeros) :
    filesFrom 0 (pre ++ post) = filesFrom 0 pre ++ filesFrom dp.off_hint post := by
  rw [filesFrom_append, Nat.zero_add, h.hint]

theorem rescan (h : Inv dp pre post zeros) {dp' : inode} {pre' post' : List Item}
    (hentries : dp'.entries = dp.entries) (hitems : pre' ++ post' = pre ++ post)
    (hhint : dp'.off_hint = size pre')
    (hc : Caches (tableOf dp') (filesFrom 0 (pre ++ post)) (filesFrom 0 pre')) :
    Inv dp' pre' post' zeros := by
  refine ⟨?_, h.zeros_free, hhint, ?_, ?_, ?_⟩ <;> rw [hitems]
  · rw [hentries, h.entries_eq]
  · exact h.nodup
  · exact h.fits
  · exact hc

theorem find_eq (h : Inv dp pre post zeros) {name : List UInt8} {off : Nat}
    (hmem : (name, off) ∈ filesFrom 0 (pre ++ post)) : linear_scan dp name = .ok (some off) := by
  have hfind : (filesFrom 0 (pre ++ post)).find? (fun f => f.1 == name) = some (name, off) := by
    have hnodup := h.nodup
    generalize filesFrom 0 (pre ++ post) = fs at hmem hnodup
    induction fs with
    | nil => cases hmem
    | cons f fs ih =>
      rw [List.map_cons, List.nodup_cons] at hnodup
      rcases List.mem_cons.1 hmem with rfl | hmem
      · simp
      · have hne : f.1 ≠ name := fun heq => hnodup.1 (heq ▸ List.mem_map_of_mem hmem)
        simpa [List.find?_cons, hne] using ih hmem hnodup.2
  rw [linear_scan, h.liveFiles_eq]
  simp [Except.map, hfind]

theorem find_none (h : Inv dp pre post zeros) {name : List UInt8}
    (hall : ∀ f ∈ filesFrom 0 (pre ++ post), f.1 ≠ name) : linear_scan dp name = .ok none := by
  rw [linear_scan, h.liveFiles_eq]
  simp only [Except.map]
  rw [List.find?_eq_none.2 fun f hf => by simpa using hall f hf]
  rfl

end Inv

theorem Opened.inv {dp : inode} (h : Opened dp) : ∃ items zeros, Inv dp [] items zeros := by
  obtain ⟨items, zeros, heq, hz, hnodup, hfits⟩ := h.layout
  refine ⟨items, zeros, heq, hz, h.off_hint, hnodup, hfits, ?_⟩
  rw [tableOf, h.i_hash]
  exact Caches.init _

/-! ## Lookup -/

theorem dirlookup_eq (dp : inode) (name : List UInt8) : fat32_inode_dirlookup dp name =
    match hash_lookup (tableOf dp) name with
    | some (_, off) => .ok (dp, some off)
    | none => fat32_inode_dirlookup_with_hint dp (tableOf dp) name := by
  cases h : dp.i_hash with
  | none => simp [fat32_inode_dirlookup, tableOf, h, hash_lookup_init]
  | some table =>
    cases hl : hash_lookup table name <;> simp [fat32_inode_dirlookup, tableOf, h, hl]

/-- A lookup keeps the items, and after a miss the table is complete for all of them. -/
structure LookedUp (dp : inode) (items : List Item) (zeros : List (List UInt8)) (ans : Option Nat)
    (dp' : inode) : Prop where
  inv : ∃ pre post, pre ++ post = items ∧ Inv dp' pre post zeros
  entries_eq : dp'.entries = dp.entries
  missed : ans = none → Caches (tableOf dp') (filesFrom 0 items) (filesFrom 0 items)

namespace Inv

variable {dp : inode} {pre post : List Item} {zeros : List (List UInt8)}

theorem hit_eq (h : Inv dp pre post zeros) {name key : List UInt8} {off : Nat} (hd : Distinct dp name)
    (hl : hash_lookup (tableOf dp) name = some (key, off)) :
    (name, off) ∈ filesFrom 0 (pre ++ post) := by
  obtain ⟨hmem, hdot⟩ := h.caches.sound _ _ hl
  have hkey : key = name := hd (key, off) (by rwa [h.files_eq]) hdot (Chains.hash_of_find hl)
  rwa [hkey] at hmem

theorem missed_before (h : Inv dp pre post zeros) {name : List UInt8} (hdot : chr name 0 ≠ 0x2E)
    (hl : hash_lookup (tableOf dp) name = none) : ∀ f ∈ filesFrom 0 pre, f.1 ≠ name := by
  intro f hf heq
  have hsome := h.caches.complete f hf (heq ▸ hdot)
  rw [heq, hl] at hsome
  cases hsome

theorem drop_hint (h : Inv dp pre post zeros) :
    dp.entries.drop dp.off_hint = entriesOf post ++ zeros := by
  rw [h.entries_eq, h.hint, size, entriesOf_append, append_assoc, drop_left]

theorem with_hint_spec (h : Inv dp pre post zeros) {name : List UInt8} (hs : Searchable dp name)
    (hl : hash_lookup (tableOf dp) name = none) :
    ∃ dp' ans, fat32_inode_dirlookup_with_hint dp (tableOf dp) name = .ok (dp', ans) ∧
      linear_scan dp name = .ok ans ∧ LookedUp dp (pre ++ post) zeros ans dp' := by
  have hbefore := h.missed_before hs.not_dot hl
  have hfits : ∀ i ∈ post, i.Fits := fun i hi => h.fits i (List.mem_append_right _ hi)
  have hroom : ¬ dp.entries.length < dp.off_hint := by
    rw [h.entries_eq, h.hint]
    simp [size]
  have hlong : name.length < PATH_LONG_MAX := Nat.lt_trans hs.length_lt (by decide)
  have hsub : ∀ f ∈ filesFrom dp.off_hint post, f ∈ filesFrom 0 (pre ++ post) := fun f hf =>
    h.files_append ▸ List.mem_append_right _ hf
  have hsearch := search_spec hlong hsub h.caches
  rw [fat32_inode_dirlookup_with_hint, copyName, if_neg hs.ne_nil, if_neg (not_le.mpr hs.length_lt)]
  simp only [if_neg hroom]
  rw [h.drop_hint, trav_items name post h.zeros_free _ hfits]
  generalize search name (filesFrom dp.off_hint post) (tableOf dp) = r at hsearch
  cases hsearch with
  | @hit fs₁ fs₂ off table heq hc =>
    refine ⟨_, some off, rfl, h.find_eq (hsub _ (heq ▸ by simp)), ⟨?_, rfl, by simp⟩⟩
    obtain ⟨p, fcbs, hr, q, hpost, hp, hoff⟩ := filesFrom_split heq
    have hpos := hr.length_pos
    -- what has been scanned joins the part that is skipped
    have hsplit : (pre ++ p ++ [.file fcbs name hr]) ++ q = pre ++ post := by simp [hpost]
    have hseen : filesFrom 0 (pre ++ p ++ [.file fcbs name hr]) = filesFrom 0 pre ++ fs₁ ++ [(name, off)] := by
      rw [append_assoc, filesFrom_append, filesFrom_append, ← hp, h.hint, Nat.zero_add,
        append_assoc]
      simp only [filesFrom]
      rw [show size pre + size p + fcbs.length - 1 = off by rw [h.hint] at hoff; omega]
    refine ⟨_, q, hsplit, h.rescan rfl hsplit ?_ (hseen ▸ hc)⟩
    show off + 1 = size (pre ++ p ++ [.file fcbs name hr])
    rw [hoff, h.hint]
    simp [Item.entries, Nat.add_assoc]
  | @miss table hnone hc =>
    rw [← h.files_append] at hc
    have hall : ∀ f ∈ filesFrom 0 (pre ++ post), f.1 ≠ name := by
      intro f hf
      rw [h.files_append] at hf
      exact (List.mem_append.1 hf).elim (hbefore f) (hnone f)
    rcases eq_or_ne zeros [] with hz | hz
    · -- the scan ran to the end, so the next one starts at offset 0
      refine ⟨{ dp with i_hash := some table, off_hint := 0 }, none, by simp [endOf, hz], h.find_none hall, ?_⟩
      exact ⟨⟨[], pre ++ post, rfl, h.rescan rfl rfl rfl (hc.mono (by simp [filesFrom]))⟩, rfl, fun _ => hc⟩
    refine ⟨{ dp with i_hash := some table }, none, by simp [endOf, hz], h.find_none hall, ?_⟩
    have hseen : ∀ f ∈ filesFrom 0 pre, f ∈ filesFrom 0 (pre ++ post) := fun f hf =>
      h.files_append ▸ List.mem_append_left _ hf
    exact ⟨⟨pre, post, rfl, h.rescan rfl rfl h.hint (hc.mono hseen)⟩, rfl, fun _ => hc⟩

theorem dirlookup_spec (h : Inv dp pre post zeros) {name : List UInt8} (hs : Searchable dp name) :
    ∃ dp' ans, fat32_inode_dirlookup dp name = .ok (dp', ans) ∧ linear_scan dp name = .ok ans ∧
      LookedUp dp (pre ++ post) zeros ans dp' := by
  rw [dirlookup_eq]
  cases hl : hash_lookup (tableOf dp) name with
  | none => exact h.with_hint_spec hs hl
  | some p =>
    obtain ⟨key, off⟩ := p
    exact ⟨dp, some off, rfl, h.find_eq (h.hit_eq hs.distinct hl), ⟨pre, post, rfl, h⟩, rfl, by simp⟩

end Inv

/-! ## Create -/

section InsertOffset

variable (req base : Nat)

theorem insertLoop_free {fcbs : List (List UInt8)} (h : ∀ fcb ∈ fcbs, NAME0_FREE_BOOL (chr fcb 0) = true)
    (idx : Nat) {cnt : Nat} (hcnt : cnt ≠ 0) (ret : Nat) :
    insertLoop req base idx fcbs cnt ret = ret := by
  induction fcbs generalizing idx cnt with
  | nil => rfl
  | cons fcb fcbs ih =>
    have hrest := ih (fun f hf => h f (.tail fcb hf)) (idx + 1) (Nat.succ_ne_zero cnt)
    simp [insertLoop, h fcb (.head fcbs), hcnt, hrest]

theorem insertLoop_used {fcbs : List (List UInt8)} (h : ∀ fcb ∈ fcbs, NAME0_FREE_BOOL (chr fcb 0) = false)
    (hne : fcbs ≠ []) (rest : List (List UInt8)) (idx cnt ret : Nat) :
    insertLoop req base idx (fcbs ++ rest) cnt ret =
      insertLoop req base (idx + fcbs.length) rest 0 base := by
  induction fcbs generalizing idx cnt ret with
  | nil => exact absurd rfl hne
  | cons fcb fcbs ih =>
    rw [cons_append, insertLoop, h fcb (.head fcbs)]
    rcases eq_or_ne fcbs [] with rfl | hne'
    · rfl
    · have hrest := ih (fun f hf => h f (.tail fcb hf)) hne' (idx + 1) 0 base
      simp [hrest, Nat.add_assoc, Nat.add_comm 1]

/-- Where a new file goes: over a run of free items that is long enough, or over the free items at the
end of the directory. -/
structure Gap (items : List Item) (ret : Nat) : Prop where
  run : ∃ p free q, items = p ++ free ++ q ∧ (∀ i ∈ free, i.isFree = true) ∧ ret = size p ∧
    (free.length = req ∨ (q = [] ∧ free.length < req))

/-- The state of the loop behind `p ++ free`, where `free` is the run it is in. -/
theorem insertLoop_spec {zeros : List (List UInt8)}
    (hz : ∀ fcb ∈ zeros, NAME0_FREE_ALL (chr fcb 0) = true) (items : List Item) {p free : List Item}
    (hfree : ∀ i ∈ free, i.isFree = true) (hlt : free.length < req)
    (hbase : base = size (p ++ free ++ items) + zeros.length) {ret : Nat}
    (hrun : free ≠ [] → ret = size p) (hstart : free = [] → ret = base ∨ (ret = 0 ∧ p = [])) :
    Gap req (p ++ free ++ items)
      (insertLoop req base (size p + free.length) (entriesOf items ++ zeros) free.length ret) := by
  induction items generalizing p free ret with
  | nil =>
    refine ⟨p, free, [], rfl, hfree, ?_, .inr ⟨rfl, hlt⟩⟩
    have hz' : ∀ fcb ∈ zeros, NAME0_FREE_BOOL (chr fcb 0) = true := fun fcb hf => by
      simp [NAME0_FREE_BOOL, hz fcb hf]
    rcases eq_or_ne free [] with rfl | hne
    · cases zeros with
      | nil =>
        rcases hstart rfl with rfl | ⟨rfl, rfl⟩
        · simp [insertLoop, hbase]
        · rfl
      | cons fcb zeros =>
        rw [entriesOf_nil, nil_append, insertLoop, hz' fcb (.head zeros)]
        have hrest := insertLoop_free req base (fun f hf => hz' f (.tail fcb hf)) (size p + 1)
          Nat.one_ne_zero (size p)
        simp [hrest]
    · rw [entriesOf_nil, nil_append, insertLoop_free req base hz' _ (by simpa using hne)]
      exact hrun hne
  | cons i items ih =>
    cases i with
    | free fcb h =>
      have hret : (if free.length = 0 then size p + free.length else ret) = size p := by
        split
        · omega
        · next hne => exact hrun (by simpa using hne)
      have hfree' : ∀ j ∈ free ++ [Item.free fcb h], j.isFree = true := by
        intro j hj
        rcases List.mem_append.1 hj with hj | hj
        · exact hfree j hj
        · rw [List.mem_singleton.1 hj]
          rfl
      have hb : NAME0_FREE_BOOL (chr fcb 0) = true := by simp [NAME0_FREE_BOOL, h]
      rw [entriesOf_cons, Item.entries, append_assoc [fcb], List.singleton_append, insertLoop, hb]
      simp only [Bool.not_true, Bool.false_eq_true, if_false, hret]
      split
      · next hreq => exact ⟨p, _, items, by simp, hfree', rfl, .inl (by simpa using hreq)⟩
      · next hreq =>
        have hrest := @ih p (free ++ [.free fcb h]) hfree' (by simp; omega) (by simpa using hbase)
          (size p) (fun _ => rfl) (by simp)
        simpa [Nat.add_assoc] using hrest
    | file fcbs name h =>
      rw [entriesOf_cons, Item.entries, append_assoc fcbs,
        insertLoop_used req base h.used (List.ne_nil_of_length_pos h.length_pos)]
      have hrest := @ih (p ++ free ++ [.file fcbs name h]) [] (by simp)
        (Nat.lt_of_le_of_lt (Nat.zero_le _) hlt) (by simpa using hbase) base (by simp) (fun _ => .inl rfl)
      simpa [Item.entries, size_free hfree, Nat.add_assoc] using hrest

end InsertOffset

theorem insert_offset_gap {dp : inode} {items : List Item} {zeros : List (List UInt8)}
    (heq : dp.entries = entriesOf items ++ zeros) (hz : ∀ fcb ∈ zeros, NAME0_FREE_ALL (chr fcb 0) = true)
    {req : Nat} (hreq : 0 < req) : Gap req items (fat32_dir_fcb_insert_offset dp req) := by
  have h := @insertLoop_spec req dp.entries.length zeros hz items [] [] (by simp) hreq
    (by simp [heq, size]) 0 (by simp) (fun _ => .inr ⟨rfl, rfl⟩)
  simpa [fat32_dir_fcb_insert_offset, heq] using h

theorem write_entries (dp : inode) (offset : Nat) (fcbs : List (List UInt8)) :
    ∃ pad, (∀ fcb ∈ pad, fcb = zeroFcb) ∧
      (offset + fcbs.length ≤ dp.entries.length → pad = []) ∧
      (fat32_inode_write dp offset fcbs).entries = (dp.entries ++ pad).take offset ++ fcbs ++
        (dp.entries ++ pad).drop (offset + fcbs.length) := by
  refine ⟨_, fun fcb hf => List.eq_of_mem_replicate hf, fun hle => ?_, rfl⟩
  rw [if_neg (by omega), Nat.mul_div_cancel _ (by decide), Nat.sub_self, List.replicate_zero]

@[simp] theorem write_i_hash (dp : inode) (offset : Nat) (fcbs : List (List UInt8)) :
    (fat32_inode_write dp offset fcbs).i_hash = dp.i_hash := rfl

theorem write_gap {dp : inode} {p free q : List Item} {zeros fcbs : List (List UInt8)}
    (heq : dp.entries = entriesOf (p ++ free ++ q) ++ zeros)
    (hz : ∀ fcb ∈ zeros, NAME0_FREE_ALL (chr fcb 0) = true) (hfree : ∀ i ∈ free, i.isFree = true)
    (hlen : free.length = fcbs.length ∨ (q = [] ∧ free.length < fcbs.length)) :
    ∃ zeros', (∀ fcb ∈ zeros', NAME0_FREE_ALL (chr fcb 0) = true) ∧
      (fat32_inode_write dp (size p) fcbs).entries = entriesOf p ++ fcbs ++ entriesOf q ++ zeros' := by
  obtain ⟨pad, hpad, -, hwrite⟩ := write_entries dp (size p) fcbs
  have hpad' : ∀ fcb ∈ pad, NAME0_FREE_ALL (chr fcb 0) = true := fun fcb hf => by
    rw [hpad fcb hf]
    rfl
  have htake : (dp.entries ++ pad).take (size p) = entriesOf p := by
    rw [heq]
    simp [size]
  have hsize : size p + fcbs.length = (entriesOf p).length + fcbs.length := rfl
  have hfl : (entriesOf free).length = free.length := size_free hfree
  rw [hwrite, htake]
  rcases hlen with hlen | ⟨rfl, hlt⟩
  · refine ⟨zeros ++ pad, fun fcb hf => (List.mem_append.1 hf).elim (hz fcb) (hpad' fcb), ?_⟩
    have hdrop : (dp.entries ++ pad).drop (size p + fcbs.length) = entriesOf q ++ (zeros ++ pad) := by
      rw [heq, hsize, ← hlen, ← hfl, ← List.length_append]
      simp only [entriesOf_append, append_assoc]
      rw [← append_assoc (entriesOf p), drop_left]
    rw [hdrop, ← append_assoc]
  · refine ⟨(zeros ++ pad).drop (fcbs.length - free.length), fun fcb hf =>
      (List.mem_append.1 (List.mem_of_mem_drop hf)).elim (hz fcb) (hpad' fcb), ?_⟩
    have hdrop : (dp.entries ++ pad).drop (size p + fcbs.length) =
        (zeros ++ pad).drop (fcbs.length - free.length) := by
      rw [heq, hsize, show (entriesOf p).length + fcbs.length =
        (entriesOf p ++ entriesOf free).length + (fcbs.length - free.length) by
          rw [List.length_append, hfl]; omega, ← List.drop_drop]
      simp only [entriesOf_append, append_nil, append_assoc]
      rw [← append_assoc (entriesOf p), drop_left]
    rw [hdrop, entriesOf_nil, append_nil]

/-- The entries that `fat32_fcb_init` writes are an item that fits. -/
theorem item_of_written {name : List UInt8} {es : List dirent_l_t} {short : List UInt8} (h : Written name es short)
    (hroom : room name ≤ NAME_LONG_MAX) (hord : ordMax name ≤ CAPACITY) :
    Record [] (es.map dirent_l_t.bytes ++ [short]) name ∧
      bufBytes [] (es.map dirent_l_t.bytes ++ [short]) ≤ NAME_LONG_MAX := by
  have hof : (es.map dirent_l_t.bytes).map dirent_l_t.ofBytes = es := by
    rw [List.map_map]
    exact (List.map_congr_left fun e he => ofBytes_bytes (h.pushed e he).packed).trans (List.map_id es)
  refine ⟨Record.of_pushed h.pushed ?_ (by simpa using h.named), ?_⟩
  · rw [List.length_nil, h.length_eq]
    omega
  · rw [bufBytes, List.dropLast_concat, hof, append_nil, h.room_eq]
    exact hroom

theorem filesFrom_gap {p free q : List Item} (hfree : ∀ i ∈ free, i.isFree = true) {n : Nat}
    (hlen : free.length = n ∨ (q = [] ∧ free.length < n)) :
    filesFrom 0 (p ++ free ++ q) = filesFrom 0 p ++ filesFrom (size p + n) q := by
  rw [append_assoc, filesFrom_append, filesFrom_append, filesFrom_free _ hfree, nil_append,
    size_free hfree, Nat.zero_add]
  rcases hlen with rfl | ⟨rfl, -⟩
  · rfl
  · rfl

namespace Inv

variable {dp : inode} {pre post : List Item} {zeros : List (List UInt8)}

theorem lookup_none (h : Inv dp pre post zeros) {name : List UInt8} (hd : Distinct dp name)
    (hnew : ∀ f ∈ filesFrom 0 (pre ++ post), f.1 ≠ name) : hash_lookup (tableOf dp) name = none := by
  cases hl : hash_lookup (tableOf dp) name with
  | none => rfl
  | some p => exact absurd rfl (hnew _ (h.hit_eq hd hl))

theorem alloc_spec (h : Inv dp pre post zeros) {loc : Locals} {c : Creation} (hs : Creatable dp loc c)
    (hall : Caches (tableOf dp) (filesFrom 0 (pre ++ post)) (filesFrom 0 (pre ++ post)))
    (hnew : ∀ f ∈ filesFrom 0 (pre ++ post), f.1 ≠ c.name.bytes) (tc : ShortName.trav_control) :
    ∃ dp' off pre' post' zeros', fat32_inode_alloc loc tc dp c = .ok (dp', off) ∧
      Inv dp' pre' post' zeros' := by
  have hlen50 : c.name.bytes.length < 50 := hs.length_lt
  obtain ⟨hfree, hends⟩ := hs.new (h.files_eq ▸ hnew)
  have hstore : Storable c.name := ⟨List.length_pos_of_ne_nil hs.ne_nil, by omega, hs.not_dot, hfree⟩
  have hord := (ordMax_bounds hstore.pos hstore.le).2.1
  obtain ⟨dp₁, es, short, hdir, hinit, hwritten⟩ := StoredName.fcb_init_ends dp c.given hstore hends
  have hroom : room c.name.bytes ≤ NAME_LONG_MAX := by
    unfold room NAME_LONG_MAX
    split <;> omega
  obtain ⟨hrec, hbuf⟩ := item_of_written hwritten hroom (hord.trans (by decide))
  have hcnt : es.length + 1 = (es.map dirent_l_t.bytes ++ [short]).length := by simp
  have hbytes : ¬ ShortName.FCB_MAX_LENGTH < (es.map dirent_l_t.bytes ++ [short]).length * 32 := by
    rw [← hcnt, hwritten.length_eq, ShortName.FCB_MAX_LENGTH]
    omega
  rw [hcnt] at hinit
  have hentries := ShortName.alloc_eq tc hinit hdir
  rw [if_neg hbytes, ShortName.created] at hentries
  generalize es.map dirent_l_t.bytes ++ [short] = fcbs at hrec hbuf hentries
  have hpos := hrec.length_pos
  obtain ⟨p, free, q, hitems, hfree, hoff, hlen⟩ := (insert_offset_gap h.entries_eq h.zeros_free hpos).run
  obtain ⟨zeros', hz', hwrite⟩ := write_gap (hitems ▸ h.entries_eq) h.zeros_free hfree hlen
  have hold := filesFrom_gap (p := p) hfree hlen
  rw [← hitems] at hold
  -- the files afterwards
  have hfiles : filesFrom 0 (p ++ [.file fcbs c.name.bytes hrec] ++ q) = filesFrom 0 p ++
      (c.name.bytes, size p + fcbs.length - 1) :: filesFrom (size p + fcbs.length) q := by
    simp [filesFrom_append, filesFrom]
  have hnone := h.lookup_none hs.distinct hnew
  have hinsert : fat32_inode_hash_insert (tableOf dp) c.name.bytes (size p + fcbs.length - 1) =
      .ok ((tableOf dp).append hash_str Lib.Hash.NINODE c.name.bytes (size p + fcbs.length - 1)) := by
    have hk : ¬ KEY_NAME ≤ c.name.bytes.length := by simp only [KEY_NAME]; omega
    simp only [fat32_inode_hash_insert, hnone, copyName, if_neg hs.ne_nil, if_neg hk,
      hash_insert_of_none _ hnone]
  have halloc : fat32_inode_alloc loc tc dp c = .ok ({ fat32_inode_write dp (size p) fcbs with
      i_hash := some ((tableOf dp).append hash_str Lib.Hash.NINODE c.name.bytes (size p + fcbs.length - 1))
      off_hint := size p + fcbs.length - 1 + 1 }, size p + fcbs.length - 1) := by
    simp only [hoff] at hentries
    rw [fat32_inode_alloc, hentries]
    dsimp only
    rw [show tableOf { fat32_inode_write dp (size p) fcbs with off_hint := size p + fcbs.length - 1 + 1 } = tableOf dp from rfl,
      hinsert]
  refine ⟨_, _, p ++ [.file fcbs c.name.bytes hrec], q, zeros', halloc, ?_, hz', ?_, ?_, ?_, ?_⟩
  · show (fat32_inode_write dp (size p) fcbs).entries = _
    simp [hwrite, Item.entries]
  · show size p + fcbs.length - 1 + 1 = _
    simp only [size_append, size_cons, size_nil, Item.entries]
    omega
  · have hnodup := h.nodup
    rw [hold, map_append] at hnodup
    rw [hfiles, map_append, List.map_cons, List.nodup_middle]
    refine List.nodup_cons.2 ⟨fun hmem => ?_, hnodup⟩
    rw [← map_append, ← hold] at hmem
    obtain ⟨f, hf, heq⟩ := List.mem_map.1 hmem
    exact hnew f hf heq
  · intro i hi
    have hold' : i ∈ p ∨ i ∈ q → i.Fits := fun hi => h.fits i (by
      rw [hitems]
      simp only [mem_append]
      tauto)
    rcases List.mem_append.1 hi with hi | hi
    · rcases List.mem_append.1 hi with hi | hi
      · exact hold' (.inl hi)
      · rw [List.mem_singleton.1 hi]
        exact ⟨hbuf, .inr ⟨hs.ne_nil, by simp only [KEY_NAME]; omega⟩⟩
    · exact hold' (.inr hi)
  · have hin : ∀ g ∈ filesFrom 0 (pre ++ post), g ∈ filesFrom 0 (p ++ [.file fcbs c.name.bytes hrec] ++ q) := by
      intro g hg
      rw [hold] at hg
      rw [hfiles]
      simp only [mem_append, mem_cons] at hg ⊢
      tauto
    have hself : (c.name.bytes, size p + fcbs.length - 1) ∈ filesFrom 0 (p ++ [.file fcbs c.name.bytes hrec] ++ q) := by
      rw [hfiles]
      simp
    refine (hall.append hself hin hs.not_dot hnone).mono fun f hf => ?_
    simp only [filesFrom_append, filesFrom, Nat.zero_add, hold, mem_append, List.mem_singleton] at hf ⊢
    tauto

theorem create_spec (h : Inv dp pre post zeros) {loc : Locals} {c : Creation} (hs : Creatable dp loc c)
    (tc : ShortName.trav_control) :
    ∃ dp' off pre' post' zeros', fat32_inode_create loc tc dp c = .ok (dp', off) ∧
      Inv dp' pre' post' zeros' := by
  obtain ⟨dp₁, ans, hlookup, hscan, hl⟩ := h.dirlookup_spec hs.toSearchable
  obtain ⟨pre₁, post₁, hitems, h₁⟩ := hl.inv
  rw [fat32_inode_create, hlookup]
  cases ans with
  | some off => exact ⟨dp₁, off, pre₁, post₁, zeros, rfl, h₁⟩
  | none =>
    have hfiles : files dp₁ = files dp := by rw [files, files, hl.entries_eq]
    have hs₁ : Creatable dp₁ loc c := by
      refine { hs with distinct := ?_, new := hfiles ▸ hs.new }
      rw [Distinct, hfiles]
      exact hs.distinct
    have hnew : ∀ f ∈ filesFrom 0 (pre₁ ++ post₁), f.1 ≠ c.name.bytes := by
      rintro ⟨n, off⟩ hf rfl
      rw [hitems] at hf
      rw [h.find_eq hf] at hscan
      cases hscan
    exact h₁.alloc_spec hs₁ (hitems ▸ hl.missed rfl) hnew tc

end Inv

/-! ## Delete -/

theorem takeWhile_items (items : List Item) : (entriesOf items).reverse.takeWhile isLong = [] := by
  rcases List.eq_nil_or_concat items with rfl | ⟨p, i, rfl⟩
  · rfl
  have hlast : ∃ l e, i.entries = l ++ [e] ∧ isLong e = false := by
    cases i with
    | free fcb h => exact ⟨[], fcb, rfl, by simp [isLong, NAME0_FREE_BOOL, h]⟩
    | file fcbs name h =>
      obtain ⟨longs, short, heq, -, hshort⟩ := h.long_short
      exact ⟨longs, short, heq, hshort⟩
  obtain ⟨l, e, heq, he⟩ := hlast
  simp [heq, he]

theorem longRun_eq {dp : inode} {p q : List Item} {fcbs : List (List UInt8)} {name : List UInt8}
    {hr : Record [] fcbs name} {zeros : List (List UInt8)}
    (heq : dp.entries = entriesOf (p ++ .file fcbs name hr :: q) ++ zeros) {off : Nat}
    (hoff : off + 1 = size p + fcbs.length) : longRun dp off + 1 = fcbs.length := by
  obtain ⟨longs, short, hfcbs, hlongs, -⟩ := hr.long_short
  have hoff' : off = (entriesOf p ++ longs).length := by
    rw [hfcbs, List.length_append, List.length_singleton] at hoff
    rw [List.length_append]
    simp only [size] at hoff
    omega
  have htake : dp.entries.take off = entriesOf p ++ longs := by
    have hentries : dp.entries = (entriesOf p ++ longs) ++ (short :: (entriesOf q ++ zeros)) := by
      rw [heq]
      simp [Item.entries, hfcbs]
    rw [hentries, hoff', List.take_left]
  rw [longRun, htake, List.reverse_append, List.takeWhile_append_of_pos (by simpa using hlongs),
    takeWhile_items, hfcbs]
  simp

/-- Erasing a name keeps the table sound and complete for the other files. -/
theorem Caches.erase {table : hash_table} {files files' seen seen' : List (List UInt8 × Nat)}
    (hc : Caches table files seen) {name : List UInt8}
    (hd : ∀ f ∈ files, chr f.1 0 ≠ 0x2E → hash_str f.1 = hash_str name → f.1 = name)
    (hkeep : ∀ f ∈ files, f.1 ≠ name → f ∈ files')
    (hseen : ∀ f ∈ seen', f ∈ seen ∧ f ∈ files ∧ f.1 ≠ name) :
    Caches (hash_delete table name) files' seen' where
  unique := Chains.unique_erase hc.unique
  sound h p hp := by
    rw [hash_delete, Chains.find_erase hc.unique] at hp
    split at hp
    · cases hp
    · next hne =>
      obtain ⟨hmem, hdot⟩ := hc.sound h p hp
      exact ⟨hkeep p hmem fun heq => hne (by rw [← Chains.hash_of_find hp, heq]), hdot⟩
  complete f hf hdot := by
    obtain ⟨hmem, hin, hne⟩ := hseen f hf
    have hhash : hash_str f.1 ≠ hash_str name := fun heq => hne (hd f hin hdot heq)
    rw [hash_lookup, hash_delete, Chains.find_erase hc.unique, if_neg hhash]
    exact hc.complete f hmem hdot

/-- The free items that a deleted file leaves. -/
def freed (n : Nat) : List Item := replicate n (.free freeFcb rfl)

theorem freed_isFree (n : Nat) : ∀ i ∈ freed n, i.isFree = true := fun i hi => by
  rw [List.eq_of_mem_replicate hi]
  rfl

@[simp] theorem entriesOf_freed (n : Nat) : entriesOf (freed n) = replicate n freeFcb := by
  induction n with
  | zero => rfl
  | succ n ih => simpa [freed, List.replicate_succ, Item.entries] using ih

@[simp] theorem size_freed (n : Nat) : size (freed n) = n := by
  simp [size]

theorem filesFrom_freed (off n : Nat) (items : List Item) :
    filesFrom off (freed n ++ items) = filesFrom (off + n) items := by
  rw [filesFrom_append, filesFrom_free off (freed_isFree n), size_freed, nil_append]

/-- Freeing the item of a file leaves the boundary between `pre` and `post` where it is. -/
theorem split_freed {pre post p q : List Item} {fcbs : List (List UInt8)} {name : List UInt8}
    {hr : Record [] fcbs name} (h : pre ++ post = p ++ .file fcbs name hr :: q) :
    ∃ pre' post', pre' ++ post' = p ++ freed fcbs.length ++ q ∧ size pre' = size pre ∧
      ∀ f ∈ filesFrom 0 pre', f ∈ filesFrom 0 pre := by
  rcases List.append_eq_append_iff.1 h with ⟨r, rfl, hpost⟩ | ⟨r, rfl, hq⟩
  · -- the file lies behind the boundary
    exact ⟨pre, r ++ freed fcbs.length ++ q, by simp, rfl, fun f hf => hf⟩
  cases r with
  | nil => exact ⟨p, freed fcbs.length ++ q, by simp, by simp, by simp⟩
  | cons i r =>
    obtain ⟨rfl, rfl⟩ := List.cons.inj hq
    refine ⟨p ++ freed fcbs.length ++ r, post, by simp, by simp [Item.entries], fun f hf => ?_⟩
    rw [append_assoc, filesFrom_append, filesFrom_freed] at hf
    rw [filesFrom_append, filesFrom]
    simp only [mem_append, mem_cons] at hf ⊢
    tauto

/-- Overwriting the entries of a file with free ones. -/
theorem write_freed {dp : inode} {p q : List Item} {fcbs : List (List UInt8)} {name : List UInt8}
    {hr : Record [] fcbs name} {zeros : List (List UInt8)}
    (heq : dp.entries = entriesOf (p ++ .file fcbs name hr :: q) ++ zeros) :
    (fat32_inode_write dp (size p) (replicate fcbs.length freeFcb)).entries =
      entriesOf (p ++ freed fcbs.length ++ q) ++ zeros := by
  obtain ⟨pad, -, hpad, hwrite⟩ := write_entries dp (size p) (replicate fcbs.length freeFcb)
  have hentries : dp.entries = entriesOf p ++ fcbs ++ (entriesOf q ++ zeros) := by
    rw [heq]
    simp [Item.entries]
  have hend : size p + (replicate fcbs.length freeFcb).length = (entriesOf p ++ fcbs).length := by
    simp [size]
  have hnil : pad = [] := by
    apply hpad
    rw [hend, hentries]
    exact (List.prefix_append _ _).length_le
  rw [hwrite, hend, hnil, append_nil, hentries, drop_left, append_assoc (entriesOf p), size,
    List.take_left]
  simp

theorem KeyFits.ne_nil {name : List UInt8} (h : KeyFits name) : name ≠ [] := by
  rintro rfl
  rcases h with h | h
  · cases h
  · exact h.1 rfl

theorem Inv.delete_spec {dp : inode} {pre post : List Item} {zeros : List (List UInt8)}
    (h : Inv dp pre post zeros) {fname : List UInt8} {off : Nat} (hs : Deletable dp fname off) :
    ∃ dp' pre' post', fat32_fcb_delete dp fname off = .ok dp' ∧ Inv dp' pre' post' zeros := by
  have hlive := hs.live
  rw [h.files_eq] at hlive
  obtain ⟨fs₁, fs₂, hsplit⟩ := List.append_of_mem hlive
  obtain ⟨p, fcbs, hr, q, hitems, hp, hoff⟩ := filesFrom_split hsplit
  rw [Nat.zero_add] at hoff
  have heq := h.entries_eq
  rw [hitems] at heq
  have hrun := longRun_eq heq hoff
  rw [hs.long_run] at hrun
  have hpos : 1 ≤ ordMax fname := by
    have hmem : Item.file fcbs fname hr ∈ pre ++ post := hitems ▸ List.mem_append_right p List.mem_cons_self
    have hlen : 0 < fname.length := List.length_pos_of_ne_nil (h.fits _ hmem).2.ne_nil
    simp only [ordMax, FAT_LFN_LENGTH]
    omega
  obtain ⟨table, htable⟩ := Option.isSome_iff_exists.1 hs.hashed
  have hdelete : fat32_fcb_delete dp fname off = .ok
      { fat32_inode_write dp (size p) (replicate fcbs.length freeFcb) with
        i_hash := some (hash_delete table fname) } := by
    rw [fat32_fcb_delete, if_neg (by omega), hrun, show off - ordMax fname = size p by omega]
    simp only [write_i_hash, htable]
  -- the files afterwards are the others
  have hnew : filesFrom 0 (p ++ freed fcbs.length ++ q) = fs₁ ++ fs₂ := by
    have hold := hsplit
    rw [hitems, filesFrom_append, filesFrom, hp] at hold
    rw [append_assoc, filesFrom_append, filesFrom_freed, hp, (List.cons.inj (List.append_cancel_left hold)).2]
  have hnodup := h.nodup
  rw [hsplit, map_append, List.map_cons, List.nodup_middle, ← map_append, List.nodup_cons] at hnodup
  have hother : ∀ f ∈ fs₁ ++ fs₂, f ∈ filesFrom 0 (pre ++ post) ∧ f.1 ≠ fname := by
    intro f hf
    refine ⟨?_, fun heq => hnodup.1 (List.mem_map.2 ⟨f, hf, heq⟩)⟩
    rw [hsplit]
    simp only [mem_append, mem_cons] at hf ⊢
    tauto
  obtain ⟨pre', post', hitems', hsize, hsub⟩ := split_freed hitems
  refine ⟨_, pre', post', hdelete, ?_, h.zeros_free, ?_, ?_, ?_, ?_⟩
  · rw [hitems']
    exact write_freed heq
  · rw [hsize]
    exact h.hint
  · rw [hitems', hnew]
    exact hnodup.2
  · rw [hitems']
    intro i hi
    rw [append_assoc, mem_append, mem_append] at hi
    rcases hi with hi | hi | hi
    · exact h.fits i (hitems ▸ List.mem_append_left _ hi)
    · rw [List.eq_of_mem_replicate hi]
      trivial
    · exact h.fits i (hitems ▸ List.mem_append_right _ (.tail _ hi))
  · rw [hitems', hnew]
    have hc := h.caches
    rw [tableOf, htable, Option.getD_some] at hc
    refine hc.erase (h.files_eq ▸ hs.distinct) (fun f hf hne => ?_) fun f hf => ⟨hsub f hf, ?_⟩
    · rw [hsplit] at hf
      simp only [mem_append, mem_cons] at hf ⊢
      rcases hf with hf | rfl | hf
      · exact .inl hf
      · exact absurd rfl hne
      · exact .inr hf
    · apply hother
      rw [← hnew, ← hitems', filesFrom_append]
      exact List.mem_append_left _ hf

/-! ## Runs -/

theorem destroy_inv {dp : inode} {pre post : List Item} {zeros : List (List UInt8)}
    (h : Inv dp pre post zeros) :
    ∃ pre' post', Inv (fat32_inode_hash_destroy dp) pre' post' zeros := by
  unfold fat32_inode_hash_destroy
  cases hh : dp.i_hash with
  | none => exact ⟨pre, post, h⟩
  | some table => exact ⟨[], pre ++ post, h.rescan rfl rfl rfl (Caches.init _)⟩

/-- An allowed operation returns and keeps the invariant. -/
theorem step_spec {dp : inode} (h : ∃ pre post zeros, Inv dp pre post zeros) {op : Op} (hok : Allowed dp op) :
    ∃ dp', step dp op = .ok dp' ∧ ∃ pre post zeros, Inv dp' pre post zeros := by
  obtain ⟨pre, post, zeros, h⟩ := h
  cases op with
  | dirlookup name =>
    obtain ⟨dp', ans, hlookup, -, hl⟩ := h.dirlookup_spec hok
    obtain ⟨pre', post', -, h'⟩ := hl.inv
    exact ⟨dp', by rw [step, hlookup]; rfl, pre', post', zeros, h'⟩
  | create loc tc c =>
    obtain ⟨dp', off, pre', post', zeros', hcreate, h'⟩ := h.create_spec hok tc
    exact ⟨dp', by rw [step, hcreate]; rfl, pre', post', zeros', h'⟩
  | fcb_delete fname off =>
    obtain ⟨dp', pre', post', hdelete, h'⟩ := h.delete_spec hok
    exact ⟨dp', hdelete, pre', post', zeros, h'⟩
  | hash_destroy =>
    obtain ⟨pre', post', h'⟩ := destroy_inv h
    exact ⟨_, rfl, pre', post', zeros, h'⟩

section Decide

variable (dp : inode)

instance (name : List UInt8) : Decidable (Distinct dp name) :=
  inferInstanceAs (Decidable (∀ f ∈ files dp,
    chr f.1 0 ≠ 0x2E → hash_str f.1 = hash_str name → f.1 = name))

instance (name : List UInt8) : Decidable (Searchable dp name) :=
  decidable_of_iff (name ≠ [] ∧ name.length < NAME_SEARCH ∧ chr name 0 ≠ 0x2E ∧ Distinct dp name)
    ⟨fun ⟨h₁, h₂, h₃, h₄⟩ => ⟨h₁, h₂, h₃, h₄⟩, fun ⟨h₁, h₂, h₃, h₄⟩ => ⟨h₁, h₂, h₃, h₄⟩⟩

instance (loc : Locals) (c : Creation) : Decidable (Creatable dp loc c) :=
  decidable_of_iff (Searchable dp c.name.bytes ∧ ((∀ f ∈ files dp, f.1 ≠ c.name.bytes) →
      chr c.name.bytes 0 ≠ 0xE5 ∧ Ends loc c.name c.isDir))
    ⟨fun ⟨h₁, h₂⟩ => ⟨h₁, h₂⟩, fun ⟨h₁, h₂⟩ => ⟨h₁, h₂⟩⟩

instance (fname : List UInt8) (off : Nat) : Decidable (Deletable dp fname off) :=
  decidable_of_iff ((fname, off) ∈ files dp ∧ longRun dp off = ordMax fname ∧ Distinct dp fname ∧
      dp.i_hash.isSome = true)
    ⟨fun ⟨h₁, h₂, h₃, h₄⟩ => ⟨h₁, h₂, h₃, h₄⟩, fun ⟨h₁, h₂, h₃, h₄⟩ => ⟨h₁, h₂, h₃, h₄⟩⟩

instance (op : Op) : Decidable (Allowed dp op) :=
  match op with
  | .dirlookup name => inferInstanceAs (Decidable (Searchable dp name))
  | .create loc _ c => inferInstanceAs (Decidable (Creatable dp loc c))
  | .fcb_delete fname off => inferInstanceAs (Decidable (Deletable dp fname off))
  | .hash_destroy => isTrue trivial

end Decide

/-- An allowed step, where it returns. -/
def allowedStep (dp : inode) (op : Op) : Option inode :=
  if Allowed dp op then (step dp op).toOption else none

end LostWakeup.Fs.Fat32.Dir
