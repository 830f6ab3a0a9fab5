/-
# LostWakeup.Fs.Fat32.EntryDelete — which entries a deletion frees, and which pair it takes out of the table.

`fat32_fcb_delete` frees the short entry of a file and as many entries before it as the name in memory would need; the
directory's table loses the first pair with the hash of the name, whoever's it is.
-/
import LostWakeup.Fs.Fat32.InsertPoint

namespace LostWakeup.Fs.Fat32.EntryDelete

open Library Lib.Hash Fs.Fat32.LongName Fs.Fat32.Dir
open Function (update_of_ne update_self)
open Fs.Fat32.ShortName Fs.Fat32.InsertPoint Fs.Fat32.StoredName
open Lib.Strings (CString)
open List (getD_eq_getElem length_append length_replicate replicate)

/-! ## Directories and deletions -/

/-- No two pairs share a hash, and each stands in the chain of its hash. -/
structure WellChained (table : hash_table) : Prop where
  unique : Chains.Unique hash_str table
  placed : ∀ b, ∀ p ∈ table b, hash_str p.1 % Lib.Hash.NINODE = b

/-- A directory: free entries and files of distinct names, then an end marker with anything behind it; and its
table, if it has one. -/
structure Layout (dp : inode) (items : List Item) (rest : List (List UInt8)) : Prop where
  entries_eq : dp.entries = entriesOf items ++ rest
  ended : ∀ fcb, rest.head? = some fcb → NAME0_FREE_ALL (chr fcb 0) = true
  nodup : ((filesFrom 0 items).map Prod.fst).Nodup
  table : ∀ table, dp.i_hash = some table → WellChained table

/-- `fat32_fcb_delete`, with the array that its free entries are prepared in. -/
def fat32_fcb_delete (dp : inode) (fname : List UInt8) (off : Nat) : Except Dir.Panic inode :=
  if FCB_MAX_LENGTH < (ordMax fname + 1) * 32 then .error .buffer_overrun
  else Dir.fat32_fcb_delete dp fname off

/-- The file is deleted and nothing else is. -/
structure Deleted (dp : inode) (f : List UInt8 × Nat) (dp' : inode) : Prop where
  marked : ∀ i, f.2 - longRun dp f.2 ≤ i → i ≤ f.2 → NAME0_FREE_ONLY (chr (entryAt dp' i) 0) = true
  frame : ∀ i < dp.entries.length, i < f.2 - longRun dp f.2 ∨ f.2 < i → entryAt dp' i = entryAt dp i
  table : ∃ table table', dp.i_hash = some table ∧ dp'.i_hash = some table' ∧
    ∀ b, table' b = (table b).filter fun p => p.1 ≠ f.1
  gone : linear_scan dp' f.1 = .ok none
  others : ∀ g ∈ files dp, g ≠ f → linear_scan dp' g.1 = .ok (some g.2)

/-- The files for which the length of the name tells what to free. -/
structure Erasable (dp : inode) (f : List UInt8 × Nat) : Prop where
  fits : ordMax f.1 ≤ 20
  not_first : 0 < f.2
  inside : ordMax f.1 ≤ f.2
  run : longRun dp f.2 ≤ ordMax f.1
  /-- What is freed beyond the entries of the file was freed by the same function before. -/
  before : ∀ i, f.2 - ordMax f.1 ≤ i → i < f.2 - longRun dp f.2 → entryAt dp i = freeFcb
  table : ∃ table, dp.i_hash = some table ∧ ∀ p, hash_lookup table f.1 = some p → p.1 = f.1

/-! ## The table -/

theorem WellChained.init : WellChained hash_table_entry_init :=
  ⟨fun _ => List.Pairwise.nil, fun _ _ hp => absurd hp List.not_mem_nil⟩

/-- The functions of the code keep the chains in order. -/
theorem WellChained.insert {table table' : hash_table} (h : WellChained table) {name : List UInt8} {off : Nat}
    (hins : fat32_inode_hash_insert table name off = .ok table') : WellChained table' := by
  unfold fat32_inode_hash_insert at hins
  rcases hl : hash_lookup table name with _ | p
  · simp only [hl] at hins
    unfold copyName at hins
    split at hins
    · exact absurd hins (by simp)
    · next key hkey =>
      obtain rfl : name = key := by
        split at hkey
        · exact absurd hkey (by simp)
        · split at hkey
          · exact absurd hkey (by simp)
          · exact Except.ok.inj hkey
      rw [hash_insert_of_none off hl] at hins
      obtain rfl := Except.ok.inj hins
      refine ⟨Chains.unique_append h.unique hl, fun b p hp => ?_⟩
      unfold Chains.append at hp
      by_cases hb : b = hash_str name % Lib.Hash.NINODE
      · rw [hb, update_self] at hp
        rcases List.mem_append.mp hp with hp | hp
        · exact (h.placed _ p hp).trans hb.symm
        · rw [List.mem_singleton.mp hp]
          exact hb.symm
      · rw [update_of_ne hb] at hp
        exact h.placed b p hp
  · simp only [hl] at hins
    rw [← Except.ok.inj hins]
    exact h

theorem WellChained.delete {table : hash_table} (h : WellChained table) (name : List UInt8) :
    WellChained (hash_delete table name) := by
  refine ⟨Chains.unique_erase h.unique, fun b p hp => ?_⟩
  unfold hash_delete Chains.erase at hp
  by_cases hb : b = hash_str name % Lib.Hash.NINODE
  · rw [hb, update_self] at hp
    exact (h.placed _ p (List.mem_of_mem_eraseP hp)).trans hb.symm
  · rw [update_of_ne hb] at hp
    exact h.placed b p hp

/-- The first pair of that hash is the only one of that name, if it is of that name at all. -/
theorem erase_eq_filter_iff {table : hash_table} (h : WellChained table) (name : List UInt8) :
    (∀ b, hash_delete table name b = (table b).filter fun p => p.1 ≠ name) ↔
      ∀ p, hash_lookup table name = some p → p.1 = name := by
  have hsame : ∀ b, b ≠ hash_str name % Lib.Hash.NINODE → (table b).filter (fun p => p.1 ≠ name) = table b := by
    intro b hb
    rw [List.filter_eq_self]
    intro p hp
    rw [decide_eq_true_eq]
    rintro heq
    exact hb (heq ▸ (h.placed b p hp).symm)
  have hchain : ∀ l : List (List UInt8 × Nat), l.Pairwise (fun p q => hash_str p.1 ≠ hash_str q.1) →
      (l.eraseP (fun p => hash_str p.1 == hash_str name) = l.filter (fun p => p.1 ≠ name) ↔
        ∀ p, l.find? (fun p => hash_str p.1 == hash_str name) = some p → p.1 = name) := by
    intro l hl
    induction l with
    | nil => simp
    | cons p l ih =>
      rw [List.pairwise_cons] at hl
      by_cases hp : hash_str p.1 = hash_str name
      · have hrest : l.filter (fun p => p.1 ≠ name) = l := by
          rw [List.filter_eq_self]
          intro q hq
          rw [decide_eq_true_eq]
          rintro rfl
          exact hl.1 q hq hp
        rw [List.eraseP_cons_of_pos (by simpa using hp), List.find?_cons_of_pos (by simpa using hp)]
        by_cases hname : p.1 = name
        · rw [List.filter_cons_of_neg (by simpa using hname), hrest]
          refine ⟨fun _ q hq => ?_, fun _ => rfl⟩
          rw [← Option.some_inj.mp hq, hname]
        have hlen : (p :: l).length ≠ l.length := by simp
        constructor
        · intro h
          rw [List.filter_cons_of_pos (by simpa using hname), hrest] at h
          exact absurd (congrArg List.length h).symm hlen
        · intro h
          exact absurd (h p rfl) hname
      · have hname : p.1 ≠ name := fun heq => hp (heq ▸ rfl)
        rw [List.eraseP_cons_of_neg (by simpa using hp), List.find?_cons_of_neg (by simpa using hp),
          List.filter_cons_of_pos (by simpa using hname), List.cons.injEq]
        exact (and_iff_right rfl).trans (ih hl.2)
  have hfind : hash_lookup table name =
      (table (hash_str name % Lib.Hash.NINODE)).find? fun p => hash_str p.1 == hash_str name := rfl
  rw [hfind, ← hchain _ (h.unique _)]
  constructor
  · intro heq
    rw [← heq, hash_delete, Chains.erase, update_self]
  intro heq b
  rw [hash_delete, Chains.erase]
  by_cases hb : b = hash_str name % Lib.Hash.NINODE
  · rw [hb, update_self]
    exact heq
  · rw [update_of_ne hb]
    exact (hsame b hb).symm

/-! ## The scan -/

section Scan

variable {dp : inode} {items : List Item} {rest : List (List UInt8)}

theorem scan_eq (heq : dp.entries = entriesOf items ++ rest)
    (hz : ∀ fcb, rest.head? = some fcb → NAME0_FREE_ALL (chr fcb 0) = true) (name : List UInt8) :
    linear_scan dp name = .ok (((filesFrom 0 items).find? fun f => f.1 == name).map Prod.snd) := by
  rw [linear_scan, heq, liveFiles_ended items hz 0]
  rfl

theorem files_of_layout (h : Layout dp items rest) : files dp = filesFrom 0 items := by
  rw [files, h.entries_eq, liveFiles_ended items h.ended 0]

theorem find_of_nodup {fs : List (List UInt8 × Nat)} (h : (fs.map Prod.fst).Nodup) {g : List UInt8 × Nat}
    (hg : g ∈ fs) : fs.find? (fun f => f.1 == g.1) = some g := by
  induction fs with
  | nil => exact absurd hg List.not_mem_nil
  | cons f fs ih =>
    rw [List.map_cons, List.nodup_cons] at h
    rcases List.mem_cons.mp hg with rfl | hmem
    · simp
    · have hne : f.1 ≠ g.1 := fun heq => h.1 (heq ▸ List.mem_map_of_mem hmem)
      rw [List.find?_cons_of_neg (by simpa using hne)]
      exact ih h.2 hmem

end Scan

/-! ## One file -/

/-- Where a file stands, and the files there are without it. -/
theorem file_at {dp : inode} {items : List Item} {rest : List (List UInt8)} (h : Layout dp items rest)
    {f : List UInt8 × Nat} (hf : f ∈ files dp) :
    ∃ p fcbs hr q, items = p ++ .file fcbs f.1 hr :: q ∧ f.2 + 1 = size p + fcbs.length ∧
      longRun dp f.2 + 1 = fcbs.length ∧
      ∃ fs₁ fs₂, files dp = fs₁ ++ f :: fs₂ ∧ filesFrom 0 (p ++ freed fcbs.length ++ q) = fs₁ ++ fs₂ := by
  rw [files_of_layout h] at hf ⊢
  obtain ⟨fs₁, fs₂, hsplit⟩ := List.append_of_mem hf
  obtain ⟨p, fcbs, hr, q, hitems, hp, hoff⟩ := filesFrom_split hsplit
  rw [Nat.zero_add] at hoff
  have hentries := h.entries_eq
  rw [hitems] at hentries
  refine ⟨p, fcbs, hr, q, hitems, hoff, longRun_eq hentries hoff, fs₁, fs₂, hsplit, ?_⟩
  have hold := hsplit
  rw [hitems, filesFrom_append, filesFrom, hp] at hold
  rw [List.append_assoc, filesFrom_append, filesFrom_freed, hp, (List.cons.inj (List.append_cancel_left hold)).2]

section Delete

variable {dp dp' : inode} {f : List UInt8 × Nat}

theorem delete_ok_iff : fat32_fcb_delete dp f.1 f.2 = .ok dp' ↔
    ordMax f.1 ≤ 20 ∧ 0 < f.2 ∧ ordMax f.1 ≤ f.2 ∧ ∃ table, dp.i_hash = some table ∧
      dp' = { fat32_inode_write dp (f.2 - ordMax f.1) (replicate (ordMax f.1 + 1) freeFcb) with
        i_hash := some (hash_delete table f.1) } := by
  unfold fat32_fcb_delete Dir.fat32_fcb_delete
  by_cases hfits : ordMax f.1 ≤ 20
  · rw [if_neg (by simp only [FCB_MAX_LENGTH]; omega)]
    by_cases hbad : f.2 = 0 ∨ f.2 < ordMax f.1
    · rw [if_pos hbad]
      refine ⟨fun h => absurd h (by simp), fun h => absurd hbad ?_⟩
      omega
    rw [if_neg hbad]
    rcases htable : dp.i_hash with _ | table
    · simp only [write_i_hash, htable]
      refine iff_of_false (by simp) ?_
      rintro ⟨-, -, -, t, ht, -⟩
      exact absurd ht (by simp)
    simp only [write_i_hash, htable]
    constructor
    · intro h
      exact ⟨hfits, by omega, by omega, table, rfl, (Except.ok.inj h).symm⟩
    · rintro ⟨-, -, -, t, ht, rfl⟩
      rw [← Option.some_inj.mp ht]
  · rw [if_pos (by simp only [FCB_MAX_LENGTH]; omega)]
    exact ⟨fun h => absurd h (by simp), fun h => absurd h.1 hfits⟩

theorem deleted_at (hlt : f.2 < dp.entries.length) (hin : ordMax f.1 ≤ f.2)
    (h : dp'.entries = (fat32_inode_write dp (f.2 - ordMax f.1) (replicate (ordMax f.1 + 1) freeFcb)).entries)
    (i : Nat) :
    (f.2 - ordMax f.1 ≤ i → i ≤ f.2 → entryAt dp' i = freeFcb) ∧
      (i < f.2 - ordMax f.1 ∨ f.2 < i → i < dp.entries.length → entryAt dp' i = entryAt dp i) := by
  have hat := write_at dp (replicate (ordMax f.1 + 1) freeFcb)
    (show f.2 - ordMax f.1 ≤ dp.entries.length by omega) i
  simp only [length_replicate] at hat
  rw [entryAt, h]
  constructor
  · intro h1 h2
    refine (hat.1 h1 (by omega)).trans ?_
    rw [getD_eq_getElem _ _ (by rw [length_replicate]; omega), List.getElem_replicate]
  · intro hout hi
    exact hat.2 (by omega) hi

/-- Freeing too many entries that are free alike is freeing those of the file. -/
theorem deleted_entries {items p q : List Item} {rest : List (List UInt8)} (h : Layout dp items rest)
    {fcbs : List (List UInt8)} {hr : Record [] fcbs f.1} (hitems : items = p ++ .file fcbs f.1 hr :: q)
    (hoff : f.2 + 1 = size p + fcbs.length) (hrun : longRun dp f.2 + 1 = fcbs.length) (he : Erasable dp f)
    (hw : dp'.entries = (fat32_inode_write dp (f.2 - ordMax f.1) (replicate (ordMax f.1 + 1) freeFcb)).entries) :
    dp'.entries = entriesOf (p ++ freed fcbs.length ++ q) ++ rest := by
  have hentries := h.entries_eq
  rw [hitems] at hentries
  have hlist : dp.entries = entriesOf p ++ fcbs ++ (entriesOf q ++ rest) := by
    rw [hentries]
    simp [Item.entries]
  have hlt : f.2 < dp.entries.length := by
    rw [hlist, length_append, length_append]
    simp only [size] at hoff
    omega
  have hat := fun i => deleted_at hlt he.inside hw i
  rw [← write_freed hentries]
  have hsize : size p + fcbs.length ≤ dp.entries.length := by omega
  have hat' := fun i => write_at dp (replicate fcbs.length freeFcb)
    (show size p ≤ dp.entries.length by omega) i
  have hlen : dp'.entries.length = dp.entries.length := by
    obtain ⟨pad, -, hpad, hwrite⟩ := write_entries dp (f.2 - ordMax f.1) (replicate (ordMax f.1 + 1) freeFcb)
    have hin := he.inside
    rw [hw, hwrite, hpad (by rw [length_replicate]; omega)]
    simp only [List.append_nil, length_append, List.length_take, length_replicate, List.length_drop]
    omega
  have hlen' : (fat32_inode_write dp (size p) (replicate fcbs.length freeFcb)).entries.length =
      dp.entries.length := by
    obtain ⟨pad, -, hpad, hwrite⟩ := write_entries dp (size p) (replicate fcbs.length freeFcb)
    rw [hwrite, hpad (by rw [length_replicate]; omega)]
    simp only [List.append_nil, length_append, List.length_take, length_replicate, List.length_drop]
    omega
  apply List.ext_getElem (hlen.trans hlen'.symm)
  intro i h1 h2
  have hgoal : entryAt dp' i = entryAt (fat32_inode_write dp (size p) (replicate fcbs.length freeFcb)) i := by
    have hi : i < dp.entries.length := hlen ▸ h1
    simp only [length_replicate] at hat'
    have hrunle := he.run
    rcases Decidable.em (size p ≤ i ∧ i < size p + fcbs.length) with hin | hout
    · rw [(hat i).1 (by omega) (by omega), (hat' i).1 hin.1 hin.2, getD_eq_getElem _ _
        (by rw [length_replicate]; omega), List.getElem_replicate]
    rw [(hat' i).2 (by omega) hi]
    rcases Decidable.em (f.2 - ordMax f.1 ≤ i ∧ i ≤ f.2) with hover | hother
    · rw [(hat i).1 hover.1 hover.2, he.before i hover.1 (by omega)]
    · exact (hat i).2 (by omega) hi
  rwa [entryAt, entryAt, getD_eq_getElem _ _ h1, getD_eq_getElem _ _ h2] at hgoal

end Delete

theorem file_used {dp : inode} {p q : List Item} {rest fcbs : List (List UInt8)} {name : List UInt8}
    {hr : Record [] fcbs name} (h : dp.entries = entriesOf (p ++ .file fcbs name hr :: q) ++ rest) {i : Nat}
    (h1 : size p ≤ i) (h2 : i < size p + fcbs.length) : NAME0_FREE_ONLY (chr (entryAt dp i) 0) = false := by
  have hlist : dp.entries = entriesOf p ++ (fcbs ++ (entriesOf q ++ rest)) := by
    rw [h]
    simp [Item.entries]
  have hget : entryAt dp i = fcbs[i - size p] := by
    rw [entryAt, hlist, List.getD_append_right _ _ _ _ h1, List.getD_append _ _ _ _ (by simp only [size] at *; omega),
      getD_eq_getElem]
    rfl
  have hused := hr.used _ (List.getElem_mem (show i - size p < fcbs.length by omega))
  rw [hget]
  simp only [NAME0_FREE_BOOL, Bool.or_eq_false_iff] at hused
  exact hused.1

/-- **A deletion frees exactly the entries of the file** and removes exactly its name, so that the other files are
found and it is not, if the name in memory accounts for all its long entries, what is freed beyond them was
freed before, and the first pair of its hash in the table is its own. -/
theorem entry_deletion_iff {dp : inode} {items : List Item} {rest : List (List UInt8)} (h : Layout dp items rest)
    {f : List UInt8 × Nat} (hf : f ∈ files dp) :
    (∃ dp', fat32_fcb_delete dp f.1 f.2 = .ok dp' ∧ Deleted dp f dp') ↔ Erasable dp f := by
  obtain ⟨p, fcbs, hr, q, hitems, hoff, hrun, fs₁, fs₂, hsplit, hnew⟩ := file_at h hf
  have hentries := h.entries_eq
  rw [hitems] at hentries
  have hlt : f.2 < dp.entries.length := by
    rw [hentries]
    simp only [entriesOf_append, length_append, entriesOf_cons, Item.entries]
    simp only [size] at hoff
    omega
  constructor
  · rintro ⟨dp', hdelete, hmarked, hframe, ⟨t, t', ht, ht', htable⟩, -, -⟩
    obtain ⟨hfits, hpos, hin, table, hsome, hdp⟩ := delete_ok_iff.mp hdelete
    have hat := fun i => @deleted_at dp dp' f hlt hin (by rw [hdp]) i
    refine ⟨hfits, hpos, hin, ?_, fun i h1 h2 => ?_, table, hsome, ?_⟩
    · -- a long entry that the name does not account for stays
      by_contra hlong
      have hmark := hmarked (f.2 - longRun dp f.2) le_rfl (Nat.sub_le _ _)
      rw [(hat _).2 (by omega) (by omega), file_used hentries (by omega) (by omega)] at hmark
      exact absurd hmark (by simp)
    · rw [← hframe i (by omega) (.inl h2), (hat i).1 h1 (by omega)]
    · obtain rfl : t = table := Option.some_inj.mp (ht.symm.trans hsome)
      have hdeleted : t' = hash_delete t f.1 := by
        rw [hdp] at ht'
        exact (Option.some_inj.mp ht').symm
      rw [← erase_eq_filter_iff (h.table t ht), ← hdeleted]
      exact htable
  · intro he
    obtain ⟨table, hsome, hname⟩ := he.table
    have hdelete := (@delete_ok_iff dp _ f).mpr ⟨he.fits, he.not_first, he.inside, table, hsome, rfl⟩
    refine ⟨_, hdelete, ?_⟩
    generalize hdp : ({ fat32_inode_write dp (f.2 - ordMax f.1) (replicate (ordMax f.1 + 1) freeFcb) with
      i_hash := some (hash_delete table f.1) } : inode) = dp'
    have hw : dp'.entries =
        (fat32_inode_write dp (f.2 - ordMax f.1) (replicate (ordMax f.1 + 1) freeFcb)).entries := by
      rw [← hdp]
    have hat := fun i => deleted_at hlt he.inside hw i
    have hrunle := he.run
    have hscan := scan_eq (deleted_entries h hitems hoff hrun he hw) h.ended
    rw [hnew] at hscan
    have hnodup := h.nodup
    rw [← files_of_layout h, hsplit, List.map_append, List.map_cons, List.nodup_middle, ← List.map_append,
      List.nodup_cons] at hnodup
    refine ⟨fun i h1 h2 => ?_, fun i hi hout => ?_, ⟨table, hash_delete table f.1, hsome, by rw [← hdp], ?_⟩, ?_,
      fun g hg hne => ?_⟩
    · rw [(hat i).1 (by omega) h2]
      rfl
    · rcases Decidable.em (f.2 - ordMax f.1 ≤ i ∧ i ≤ f.2) with hover | hother
      · rw [(hat i).1 hover.1 hover.2, he.before i hover.1 (by omega)]
      · exact (hat i).2 (by omega) hi
    · exact (erase_eq_filter_iff (h.table table hsome) f.1).mpr hname
    · rw [hscan]
      have hnone : (fs₁ ++ fs₂).find? (fun g => g.1 == f.1) = none := by
        rw [List.find?_eq_none]
        intro g hg heq
        exact hnodup.1 (List.mem_map.mpr ⟨g, hg, by simpa using heq⟩)
      rw [hnone]
      rfl
    · have hmem : g ∈ fs₁ ++ fs₂ := by
        rw [hsplit] at hg
        simp only [List.mem_append, List.mem_cons] at hg ⊢
        rcases hg with hg | rfl | hg
        · exact .inl hg
        · exact absurd rfl hne
        · exact .inr hg
      rw [hscan, find_of_nodup hnodup.2 hmem]
      rfl

/-- A file with one long entry, as this kernel makes it on a stack of NULs. -/
theorem made {name : CString} (hname : Storable name) (hone : ordMax name.bytes = 1) (hends : Ends nuls name false) :
    ∃ fcbs, fcbs.length = 2 ∧ Record [] fcbs name.bytes := by
  obtain ⟨dp, es, short, -, -, hwritten⟩ := fcb_init_ends emptyDir ⟨0, 2, 5⟩ hname hends
  have hroom : room name.bytes ≤ NAME_LONG_MAX := by
    simp only [ordMax, FAT_LFN_LENGTH] at hone
    unfold room NAME_LONG_MAX
    split <;> omega
  refine ⟨_, ?_, (item_of_written hwritten hroom (by rw [hone]; decide)).1⟩
  rw [length_append, List.length_map, hwritten.length_eq, hone, List.length_singleton]

/-- A table with `Aa` and `b` in it. -/
def twoNames : hash_table := hash_insert (hash_insert hash_table_entry_init [0x41, 0x61] 1) [0x62] 3

theorem twoNames_chained : WellChained twoNames :=
  @WellChained.insert _ _ (@WellChained.insert _ _ WellChained.init [0x41, 0x61] 1 rfl) [0x62] 3 rfl

/-- In a directory with the files `Aa` and `b` the second is deleted. -/
theorem entry_deletion_two : ∃ dp dp', files dp = [([0x41, 0x61], 1), ([0x62], 3)] ∧
    fat32_fcb_delete dp [0x62] 3 = .ok dp' ∧ Deleted dp ([0x62], 3) dp' := by
  obtain ⟨aa, haa, hrec⟩ := @made ⟨[0x41, 0x61], by decide⟩ ⟨by decide, by decide, by decide, by decide⟩ rfl
    (by decide +kernel)
  obtain ⟨b, hb, hrec'⟩ := @made ⟨[0x62], by decide⟩ ⟨by decide, by decide, by decide, by decide⟩ rfl (by decide +kernel)
  let items : List Item := [.file aa [0x41, 0x61] hrec, .file b [0x62] hrec']
  let dp : inode := ⟨512, entriesOf items, some twoNames, 0⟩
  have hfiles : filesFrom 0 items = [([0x41, 0x61], 1), ([0x62], 3)] := by
    rw [filesFrom, filesFrom, filesFrom, haa, hb]
  have hlayout : Layout dp items [] :=
    { entries_eq := (List.append_nil _).symm
      ended := fun fcb h => absurd h (by simp)
      nodup := by rw [hfiles]; decide
      table := fun table h => Option.some_inj.mp h ▸ twoNames_chained }
  have hlive := (files_of_layout hlayout).trans hfiles
  have hmem : (([0x62], 3) : List UInt8 × Nat) ∈ files dp := by simp [hlive]
  have hentries : dp.entries = entriesOf ([.file aa [0x41, 0x61] hrec] ++ [.file b [0x62] hrec']) ++ [] :=
    hlayout.entries_eq
  have hrun : longRun dp 3 + 1 = b.length :=
    longRun_eq hentries (by rw [size_cons, size_nil, Item.entries, haa, hb])
  have herasable : Erasable dp ([0x62], 3) :=
    { fits := by decide
      not_first := by decide
      inside := by decide
      run := by
        show longRun dp 3 ≤ 1
        omega
      before := fun i h h' => by
        have hlow : 3 - 1 ≤ i := h
        have hhigh : i < 3 - longRun dp 3 := h'
        omega
      table := ⟨twoNames, rfl, fun p hp => by
        have hlook : hash_lookup twoNames [0x62] = some ([0x62], 3) := by decide +kernel
        rw [← Option.some_inj.mp (hlook.symm.trans hp)]⟩ }
  obtain ⟨dp', hdelete, hdeleted⟩ := (entry_deletion_iff hlayout hmem).mpr herasable
  exact ⟨dp, dp', hlive, hdelete, hdeleted⟩

/-- Two files `A` and `B` with short entries only. -/
def twoShorts : inode :=
  ⟨512, [0x41 :: replicate 31 0x20, 0x42 :: replicate 31 0x20], some hash_table_entry_init, 0⟩

/-- Deleting the second frees the entry of the first. -/
theorem short_file_takes_neighbour : files twoShorts = [([0x41], 0), ([0x42], 1)] ∧
    ¬ ∃ dp', fat32_fcb_delete twoShorts [0x42] 1 = .ok dp' ∧ Deleted twoShorts ([0x42], 1) dp' := by
  refine ⟨by decide, ?_⟩
  rintro ⟨dp', hdelete, hdeleted⟩
  obtain ⟨-, -, hin, table, -, hdp⟩ := (delete_ok_iff (f := ([0x42], 1))).mp hdelete
  have hfirst := (@deleted_at twoShorts dp' ([0x42], 1) (show 1 < twoShorts.entries.length by decide) hin (by rw [hdp]) 0).1
    (Nat.zero_le _) (Nat.zero_le _)
  have hframe := hdeleted.frame 0 (by decide) (.inl (by decide))
  rw [hfirst] at hframe
  exact absurd hframe (by decide)

end LostWakeup.Fs.Fat32.EntryDelete
