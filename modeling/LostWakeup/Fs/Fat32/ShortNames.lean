/-
# LostWakeup.Fs.Fat32.ShortNames — the short names of a directory while files come and go.

Where a name is longer than eight bytes its short name gets a tail: `~` and the number of entries with the same front and
a tail, plus `1`.  After a deletion that tail may be in use, and past nine it is no digit; shorter names are padded with
NULs.  The law is kept exactly by the names that fill their fields.
-/
import LostWakeup.Fs.Fat32.InsertPoint

namespace LostWakeup.Fs.Fat32.ShortNames

open Library Lib.Strings Fs.Fat32.LongName Fs.Fat32.Dir
open Fs.Fat32.ShortName Fs.Fat32.InsertPoint
open List (append_assoc append_nil length_map not_mem_nil replicate)
open Option (bind_some map_some)

/-! ## Runs -/

/-- A directory, and the files that were made in it and not deleted: name and offset of the short entry. -/
structure Directory where
  dp : inode
  files : List (List UInt8 × Nat)

inductive Event
  | create (name : CString) (isDir : Bool) (given : Given) (loc : Locals) (tc : trav_control)
  | delete (name : List UInt8) (off : Nat)

/-- The entries after `fat32_fcb_delete`. -/
def fcbDeleted (dp : inode) (name : List UInt8) (off : Nat) : inode :=
  fat32_inode_write dp (off - ordMax name) (replicate (ordMax name + 1) freeFcb)

/-- A name is created that the directory does not have, and a file is deleted that it has. -/
inductive Step : Directory → Event → Directory → Prop
  | create {s : Directory} {name : CString} {isDir : Bool} {given : Given} {loc : Locals} {tc : trav_control}
      {dp : inode} {off : Nat} :
      name.bytes ≠ [] → ¬ Dots name → name.bytes ∉ s.files.map Prod.fst →
      fat32_inode_alloc loc tc s.dp given name isDir = .ok (dp, off) →
      Step s (.create name isDir given loc tc) ⟨dp, s.files ++ [(name.bytes, off)]⟩
  | delete {s : Directory} {name : List UInt8} {off : Nat} :
      (name, off) ∈ s.files →
      Step s (.delete name off) ⟨fcbDeleted s.dp name off, s.files.erase (name, off)⟩

/-- A directory in which nothing was made yet: at most the entries of the two dots are in use. -/
structure Fresh (s : Directory) : Prop where
  files : s.files = []
  entries : ∀ fcb ∈ s.dp.entries, NAME0_FREE_BOOL (chr fcb 0) = true ∨ chr fcb 0 = 0x2E

/-! ## The law -/

/-- The characters of a short name: capitals, digits, some signs, bytes of the code page, and the padding. -/
def LegalChar (c : UInt8) : Bool :=
  (0x41 ≤ c && c ≤ 0x5A) || (0x30 ≤ c && c ≤ 0x39) || 0x80 ≤ c ||
    [0x20, 0x21, 0x23, 0x24, 0x25, 0x26, 0x27, 0x28, 0x29, 0x2D, 0x40, 0x5E, 0x5F, 0x60, 0x7B, 0x7D, 0x7E].contains c

/-- The first byte is neither padding nor the mark of a deleted entry. -/
def LegalName (n : List UInt8) : Prop :=
  (∀ c ∈ n, LegalChar c = true) ∧ chr n 0 ≠ 0x20 ∧ chr n 0 ≠ 0xE5

def shortNames (s : Directory) : List (List UInt8) := s.files.map fun f => (entryAt s.dp f.2).take 11

structure Law (s : Directory) : Prop where
  distinct : (shortNames s).Nodup
  legal : ∀ n ∈ shortNames s, LegalName n

/-! ## The condition -/

def upper (s : List UInt8) : List UInt8 := s.map toupper

/-- `1` plus the number of short entries that have the first six bytes in capitals, and a tail. -/
def tail (dp : inode) (name : List UInt8) : UInt8 :=
  UInt8.ofNat ((shorts dp).countP (fun fcb => fcb.take 6 == upper (name.take 6) && chr fcb 6 == 0x7E) + 0x31)

/-- The names with a tail that fill their fields, and the extension they get. -/
inductive Tailed (name : List UInt8) : Bool → List UInt8 → Prop
  | dir : 8 < name.length → Tailed name true [0x20, 0x20, 0x20]
  | plain : 0x2E ∉ name → 8 < name.length → Tailed name false [0x20, 0x20, 0x20]
  | ext {s t : List UInt8} : name = s ++ 0x2E :: t → 0x2E ∉ s → 6 ≤ s.length → t.length = 3 →
      Tailed name false (upper t)

/-- A name legal and not in use. -/
def Free (s : Directory) (n : List UInt8) : Prop := LegalName n ∧ n ∉ shortNames s

/-- The names that keep the law. -/
inductive Fits (s : Directory) (name : List UInt8) : Bool → Prop
  | whole : 0x2E ∉ name → name.length = 8 → Free s (upper name ++ [0x20, 0x20, 0x20]) → Fits s name false
  | tailed {isDir : Bool} {ext : List UInt8} : Tailed name isDir ext →
      Free s (upper (name.take 6) ++ [0x7E, tail s.dp name] ++ ext) → Fits s name isDir

/-- A creation of such a name, or a deletion. -/
def Kept (s : Directory) : Event → Prop
  | .create name isDir _ _ _ => Fits s name.bytes isDir
  | .delete _ _ => True

/-! ## The invariant -/

/-- The entries that a file takes up: its long ones, and the short one at the end. -/
def Covers (f : List UInt8 × Nat) (i : Nat) : Prop := f.2 - ordMax f.1 ≤ i ∧ i ≤ f.2

structure Inv (s : Directory) : Prop where
  names : (s.files.map Prod.fst).Nodup
  inside : ∀ f ∈ s.files, ordMax f.1 ≤ f.2 ∧ f.2 < s.dp.entries.length
  used : ∀ f ∈ s.files, ∀ i, Covers f i → isFree s.dp.entries i = false
  apart : ∀ f ∈ s.files, ∀ g ∈ s.files, f ≠ g → ∀ i, Covers f i → ¬ Covers g i

theorem Fresh.inv {s : Directory} (h : Fresh s) : Inv s where
  names := by simp [h.files]
  inside f hf := absurd (h.files ▸ hf) not_mem_nil
  used f hf := absurd (h.files ▸ hf) not_mem_nil
  apart f hf := absurd (h.files ▸ hf) not_mem_nil

theorem Fresh.law {s : Directory} (h : Fresh s) : Law s where
  distinct := by simp [shortNames, h.files]
  legal n hn := by simp [shortNames, h.files] at hn

/-! ## Creation -/

/-- What a creation does to the entries. -/
structure Made (dp dp' : inode) (name n : List UInt8) (off : Nat) : Prop where
  inside : ordMax name ≤ off ∧ off < dp'.entries.length
  grown : dp.entries.length ≤ dp'.entries.length
  /-- The entries it takes were free. -/
  free : ∀ i, Covers (name, off) i → isFree dp.entries i = true
  used : chr n 0 ≠ 0 → chr n 0 ≠ 0xE5 → ∀ i, Covers (name, off) i → isFree dp'.entries i = false
  short : (entryAt dp' off).take 11 = n
  frame : ∀ i < dp.entries.length, ¬ Covers (name, off) i → entryAt dp' i = entryAt dp i

theorem created_made (dp : inode) (given : Given) {name : List UInt8} (isDir : Bool) {n : List UInt8}
    (hord : ordMax name ≤ 20) (hlen : n.length = 11) {dp' : inode} {off : Nat}
    (h : (dp', off) = created dp (fcbs given name isDir n) (ordMax name + 1)) : Made dp dp' name n off := by
  obtain ⟨hle, hfree, -⟩ := insert_offset_slot dp (Nat.succ_pos (ordMax name))
  obtain ⟨rfl, rfl⟩ := Prod.mk.inj h
  generalize Dir.fat32_dir_fcb_insert_offset dp (ordMax name + 1) = o at hle hfree ⊢
  have hsize : (fcbs given name isDir n).length = ordMax name + 1 := fcbs_length ..
  obtain ⟨hgrown, hend⟩ := write_length dp (fcbs given name isDir n) hle
  have hat := write_at dp (fcbs given name isDir n) hle
  rw [hsize] at hend
  simp only [hsize] at hat
  have hcovers : ∀ i, Covers (name, o + (ordMax name + 1) - 1) i ↔ o ≤ i ∧ i < o + (ordMax name + 1) := by
    intro i
    simp only [Covers]
    omega
  refine ⟨⟨by omega, ?_⟩, hgrown, fun i hi => ?_, fun h0 hE5 i hi => ?_, ?_, fun i hi hout => ?_⟩
  · show o + (ordMax name + 1) - 1 < (fat32_inode_write dp o (fcbs given name isDir n)).entries.length
    omega
  · obtain ⟨h1, h2⟩ := (hcovers i).mp hi
    exact hfree i h1 h2
  · obtain ⟨h1, h2⟩ := (hcovers i).mp hi
    have hentry := (hat i).1 h1 h2
    have hin : i - o < (fcbs given name isDir n).length := by omega
    have hmem : (fcbs given name isDir n).getD (i - o) [] ∈ fcbs given name isDir n := by
      rw [List.getD_eq_getElem _ _ hin]
      exact List.getElem_mem hin
    rw [isFree]
    exact (congrArg (fun fcb => NAME0_FREE_BOOL (chr fcb 0)) hentry).trans
      (fcbs_used given isDir hord hlen h0 hE5 _ hmem)
  · have hentry := (hat (o + ordMax name)).1 (by omega) (by omega)
    rw [Nat.add_sub_cancel_left] at hentry
    exact (congrArg (List.take 11) hentry).trans (fcbs_short given isDir hlen)
  · have hnot : ¬ (o ≤ i ∧ i < o + (ordMax name + 1)) := fun hc => hout ((hcovers i).mpr hc)
    exact (hat i).2 (by omega) hi

section Steps

variable {s : Directory}

theorem shortNames_frame {dp' : inode} {files : List (List UInt8 × Nat)}
    (h : ∀ f ∈ files, entryAt dp' f.2 = entryAt s.dp f.2) :
    shortNames ⟨dp', files⟩ = files.map fun f => (entryAt s.dp f.2).take 11 := by
  apply List.map_congr_left
  intro f hf
  rw [h f hf]

theorem Made.keeps {dp' : inode} {name n : List UInt8} {off : Nat} (h : Made s.dp dp' name n off) (hinv : Inv s)
    {f : List UInt8 × Nat} (hf : f ∈ s.files) {i : Nat} (hi : Covers f i) :
    ¬ Covers (name, off) i ∧ entryAt dp' i = entryAt s.dp i := by
  have hout : ¬ Covers (name, off) i := by
    intro hc
    have hfree := h.free i hc
    rw [hinv.used f hf i hi] at hfree
    exact absurd hfree (by simp)
  have hin := hinv.inside f hf
  exact ⟨hout, h.frame i (Nat.lt_of_le_of_lt hi.2 hin.2) hout⟩

theorem covers_self {f : List UInt8 × Nat} : Covers f f.2 := ⟨Nat.sub_le _ _, le_rfl⟩

theorem shortNames_made (hinv : Inv s) {dp' : inode} {name n : List UInt8} {off : Nat}
    (h : Made s.dp dp' name n off) :
    shortNames ⟨dp', s.files ++ [(name, off)]⟩ = shortNames s ++ [n] := by
  have hold : ∀ f ∈ s.files, entryAt dp' f.2 = entryAt s.dp f.2 :=
    fun f hf => (h.keeps hinv hf covers_self).2
  rw [shortNames, List.map_append, List.map_singleton]
  have hfiles := @shortNames_frame s dp' s.files hold
  rw [shortNames] at hfiles
  rw [hfiles, h.short]
  rfl

theorem Made.inv (hinv : Inv s) {dp' : inode} {name n : List UInt8} {off : Nat} (h : Made s.dp dp' name n off)
    (hnew : name ∉ s.files.map Prod.fst) (h0 : chr n 0 ≠ 0) (hE5 : chr n 0 ≠ 0xE5) :
    Inv ⟨dp', s.files ++ [(name, off)]⟩ := by
  have hmem : ∀ f ∈ s.files ++ [(name, off)], f ∈ s.files ∨ f = (name, off) := by
    intro f hf
    simpa using hf
  refine ⟨?_, fun f hf => ?_, fun f hf i hi => ?_, fun f hf g hg hne i hi => ?_⟩
  · rw [List.map_append, List.map_singleton]
    exact List.nodup_append'.mpr ⟨hinv.names, List.nodup_singleton _, by simpa using hnew⟩
  · rcases hmem f hf with hf | rfl
    · have hin := hinv.inside f hf
      exact ⟨hin.1, Nat.lt_of_lt_of_le hin.2 h.grown⟩
    · exact h.inside
  · rcases hmem f hf with hf | rfl
    · have hkeep := (h.keeps hinv hf hi).2
      have hused := hinv.used f hf i hi
      rw [isFree] at hused ⊢
      exact (congrArg (fun fcb => NAME0_FREE_BOOL (chr fcb 0)) hkeep).trans hused
    · exact h.used h0 hE5 i hi
  · rcases hmem f hf with hf | rfl
    · rcases hmem g hg with hg | rfl
      · exact hinv.apart f hf g hg hne i hi
      · exact (h.keeps hinv hf hi).1
    · rcases hmem g hg with hg | rfl
      · exact fun hc => (h.keeps hinv hg hc).1 hi
      · exact absurd rfl hne

/-! ## Deletion -/

theorem deleted_frame (hinv : Inv s) {f g : List UInt8 × Nat} (hf : f ∈ s.files) (hg : g ∈ s.files.erase f) {i : Nat}
    (hi : Covers g i) : g ∈ s.files ∧ g ≠ f ∧ entryAt (fcbDeleted s.dp f.1 f.2) i = entryAt s.dp i := by
  have hnodup : s.files.Nodup := hinv.names.of_map _
  obtain ⟨hne, hmem⟩ := (hnodup.mem_erase_iff).mp hg
  have hout := hinv.apart g hmem f hf hne i hi
  obtain ⟨h1, h2⟩ := hinv.inside f hf
  have hin := hinv.inside g hmem
  refine ⟨hmem, hne, ?_⟩
  have hat := (write_at s.dp (replicate (ordMax f.1 + 1) freeFcb)
    (show f.2 - ordMax f.1 ≤ s.dp.entries.length by omega) i).2
  simp only [List.length_replicate] at hat
  refine hat ?_ (Nat.lt_of_le_of_lt hi.2 hin.2)
  simp only [Covers] at hout
  omega

theorem shortNames_deleted (hinv : Inv s) {f : List UInt8 × Nat} (hf : f ∈ s.files) :
    shortNames ⟨fcbDeleted s.dp f.1 f.2, s.files.erase f⟩ =
      (s.files.erase f).map fun g => (entryAt s.dp g.2).take 11 :=
  shortNames_frame fun _ hg => (deleted_frame hinv hf hg covers_self).2.2

theorem deleted_inv (hinv : Inv s) {f : List UInt8 × Nat} (hf : f ∈ s.files) :
    Inv ⟨fcbDeleted s.dp f.1 f.2, s.files.erase f⟩ := by
  obtain ⟨h1, h2⟩ := hinv.inside f hf
  have hgrown := (write_length s.dp (replicate (ordMax f.1 + 1) freeFcb)
    (show f.2 - ordMax f.1 ≤ s.dp.entries.length by omega)).1
  refine ⟨?_, fun g hg => ?_, fun g hg i hi => ?_, fun g hg g' hg' hne i hi => ?_⟩
  · exact hinv.names.sublist (List.erase_sublist.map _)
  · have hin := hinv.inside g (List.mem_of_mem_erase hg)
    exact ⟨hin.1, Nat.lt_of_lt_of_le hin.2 hgrown⟩
  · obtain ⟨hmem, -, hkeep⟩ := deleted_frame hinv hf hg hi
    have hused := hinv.used g hmem i hi
    rw [isFree] at hused ⊢
    exact (congrArg (fun fcb => NAME0_FREE_BOOL (chr fcb 0)) hkeep).trans hused
  · exact hinv.apart g (List.mem_of_mem_erase hg) g' (List.mem_of_mem_erase hg') hne i hi

theorem deleted_law (hinv : Inv s) (hlaw : Law s) {f : List UInt8 × Nat} (hf : f ∈ s.files) :
    Law ⟨fcbDeleted s.dp f.1 f.2, s.files.erase f⟩ := by
  have hsub : ((s.files.erase f).map fun g => (entryAt s.dp g.2).take 11).Sublist (shortNames s) :=
    List.erase_sublist.map _
  rw [← shortNames_deleted hinv hf] at hsub
  exact ⟨hlaw.distinct.sublist hsub, fun n hn => hlaw.legal n (hsub.subset hn)⟩

end Steps

/-! ## The short names that fill their fields -/

theorem copied_take {t bytes : List UInt8} {n k : Nat} (h : copied t n = some bytes) (hk : k ≤ n) :
    copied t k = some (bytes.take k) := by
  induction t generalizing n k bytes with
  | nil =>
    rcases n with _ | n
    · obtain rfl := Nat.le_zero.mp hk
      simp [copied]
    · simp [copied] at h
  | cons c t ih =>
    rcases k with _ | k
    · simp [copied]
    obtain ⟨n, rfl⟩ : ∃ m, n = m + 1 := ⟨n - 1, by omega⟩
    simp only [copied] at h ⊢
    split at h
    · next h0 =>
      obtain rfl := Option.some_inj.mp h
      rw [if_pos h0, List.take_replicate, Nat.min_eq_left hk]
    · next h0 =>
      obtain ⟨bytes', hb, rfl⟩ := Option.map_eq_some_iff.mp h
      rw [if_neg h0, ih hb (Nat.le_of_succ_le_succ hk)]
      rfl

theorem base_take {s r base : List UInt8} {k : Nat} (hs : 0 ∉ s) (hk : k ≤ s.length) (hk8 : k ≤ 8)
    (h : strncpy (replicate 8 0) (s ++ r) 8 = some base) : base.take k = s.take k := by
  obtain ⟨bytes, hcopy, hstore⟩ := Option.bind_eq_some_iff.mp h
  have hlen := copied_length hcopy
  have hbase : base = bytes := by
    rw [store, if_pos (by simp [hlen]), List.drop_eq_nil_of_le (by simp [hlen]), append_nil] at hstore
    exact (Option.some_inj.mp hstore).symm
  have htake := copied_take hcopy hk8
  rw [copied_full hs r hk] at htake
  rw [hbase]
  exact (Option.some_inj.mp htake).symm

theorem str_toupper_front {s r up : List UInt8} (hs : 0 ∉ s) (h : str_toupper (s ++ r) = some up) :
    ∃ r', up = upper s ++ r' := by
  induction s generalizing up with
  | nil => exact ⟨up, rfl⟩
  | cons c s ih =>
    have hc : c ≠ 0 := fun h0 => hs (h0 ▸ List.mem_cons_self)
    simp only [List.cons_append, str_toupper, if_neg hc] at h
    obtain ⟨up', hup, rfl⟩ := Option.map_eq_some_iff.mp h
    obtain ⟨r', rfl⟩ := ih (fun h0 => hs (List.mem_cons_of_mem _ h0)) hup
    exact ⟨r', rfl⟩

theorem set_tail {base : List UInt8} (h : base.length = 8) (x y : UInt8) :
    (base.set 6 x).set 7 y = base.take 6 ++ [x, y] := by
  have hsplit := List.take_append_drop 6 base
  have htake : (base.take 6).length = 6 := by simp [h]
  have hdrop : (base.drop 6).length = 2 := by simp [h]
  obtain ⟨a, b, hab⟩ := List.length_eq_two.mp hdrop
  rw [hab] at hsplit
  conv_lhs => rw [← hsplit]
  rw [List.set_append_right _ _ (Nat.le_of_eq htake), htake, List.set_append_right _ _ (by omega), htake]
  rfl

/-- The count, for a name whose first six bytes are in the array. -/
theorem cnt_of_front {tc : trav_control} {dp : inode} {s r : List UInt8} {cnt : Nat} (hs : 0 ∉ s) (hlen : s.length = 6)
    (h : (fat32_find_same_name_cnt tc dp (s ++ r)).map Prod.snd = some cnt) :
    cnt = (shorts dp).countP fun fcb => fcb.take 6 == s && chr fcb 6 == 0x7E := by
  rcases split_at_nul (s ++ r) with hnul | ⟨p, q, hpq, hp⟩
  · rw [fat32_find_same_name_cnt, strlen_eq_none hnul] at h
    exact absurd h (by simp)
  have hsix : 6 ≤ p.length := by
    by_contra hlt
    have hpos : p.length < s.length := by omega
    have hzero : (s ++ r)[p.length]? = some 0 := by rw [hpq]; simp
    rw [List.getElem?_append_left hpos] at hzero
    exact hs (List.mem_of_getElem? hzero)
  have hfront : p.take 6 = s := by
    have htake : (s ++ r).take 6 = (p ++ 0 :: q).take 6 := by rw [hpq]
    rw [List.take_append_of_le_length (Nat.le_of_eq hlen.symm), List.take_append_of_le_length hsix, ← hlen,
      List.take_length] at htake
    rw [← hlen]
    exact htake.symm
  have hne : p ≠ [] := by
    rintro rfl
    exact absurd hsix (by simp)
  rw [hpq, find_same_name_cnt_string tc dp hp, if_neg hne] at h
  split at h
  · have hsame : sameName (p ++ [0]) = fun fcb => fcb.take 6 == s && chr fcb 6 == 0x7E := by
      funext fcb
      have hpre : (p ++ [0]).take 6 = s := by rw [List.take_append_of_le_length hsix, hfront]
      have hiff := @strncmp_eq_zero_iff fcb (p ++ [0]) 6 (by simp; omega) (by rw [hpre]; exact hs)
      rw [hpre] at hiff
      rw [sameName]
      congr 1
      by_cases heq : fcb.take 6 = s
      · simp [hiff.mpr heq, heq]
      · simp [heq, mt hiff.mp heq]
    rw [← Option.some_inj.mp h, hsame]
  · exact absurd h (by simp)

/-- A short name with a tail. -/
theorem shortName_tail {loc : Locals} {dp : inode} {name : CString} {isDir : Bool} {n file_name ext r : List UInt8}
    (hlen : 8 < name.bytes.length) (hparts : nameParts loc name isDir = some (file_name, ext))
    (hfront : file_name = name.bytes.take 6 ++ r) (h : (shortName loc dp name isDir).map Prod.snd = some n) :
    n = upper (name.bytes.take 6) ++ [0x7E, tail dp name.bytes] ++ ext := by
  obtain ⟨fn, e, up, base, hparts', hup, hbase, hlong, -⟩ := shortName_parts h
  obtain ⟨rfl, rfl⟩ := Prod.mk.inj (Option.some_inj.mp (hparts.symm.trans hparts'))
  obtain ⟨cnt, hcnt, rfl⟩ := hlong hlen
  have hnul := take_nul_free name 6
  have hupper : 0 ∉ upper (name.bytes.take 6) := upper_nul_free hnul
  have hsix : (upper (name.bytes.take 6)).length = 6 := by
    simp only [upper, length_map, List.length_take]
    omega
  rw [hfront] at hup
  obtain ⟨r', rfl⟩ := str_toupper_front hnul hup
  have hbase6 := base_take hupper (Nat.le_of_eq hsix.symm) (by decide) hbase
  rw [List.take_of_length_le (Nat.le_of_eq hsix)] at hbase6
  rw [set_tail (strncpy_length hbase), hbase6, cnt_of_front hupper hsix hcnt]
  rfl

theorem nameParts_plain {loc : Locals} {name : CString} {file_name ext : List UInt8} (hdot : 0x2E ∉ name.bytes)
    (hlen : 8 ≤ name.bytes.length) (h : nameParts loc name false = some (file_name, ext)) :
    (∃ r, file_name = name.bytes.take 8 ++ r) ∧ ext = [0x20, 0x20, 0x20] := by
  have hcopy := @strncpy_long name 8 hlen loc.file_name.toList (by simp)
  simp only [nameParts, Bool.false_eq_true, if_false, str_split_missing hdot, hcopy, map_some] at h
  obtain ⟨rfl, rfl⟩ := Prod.mk.inj (Option.some_inj.mp h)
  exact ⟨⟨_, rfl⟩, rfl⟩

theorem nameParts_dir {loc : Locals} {name : CString} {file_name ext : List UInt8} (hlen : 8 < name.bytes.length)
    (h : nameParts loc name true = some (file_name, ext)) :
    (∃ r, file_name = name.bytes.take 8 ++ r) ∧ ext = [0x20, 0x20, 0x20] := by
  rcases lt_or_ge name.bytes.length 11 with hshort | hlong
  · obtain ⟨r, hcopy⟩ := @strncpy_short name 11 hshort loc.file_name.toList (by simp)
    simp only [nameParts, if_true, hcopy, map_some, if_pos hlen] at h
    obtain ⟨rfl, rfl⟩ := Prod.mk.inj (Option.some_inj.mp h)
    exact ⟨⟨name.bytes.drop 8 ++ 0 :: r, by rw [← append_assoc, List.take_append_drop]⟩, rfl⟩
  have hcopy := @strncpy_long name 11 hlong loc.file_name.toList (by simp)
  simp only [nameParts, if_true, hcopy, map_some, if_pos hlen] at h
  obtain ⟨rfl, rfl⟩ := Prod.mk.inj (Option.some_inj.mp h)
  refine ⟨⟨(name.bytes.take 11).drop 8 ++ loc.file_name.toList.drop 11, ?_⟩, rfl⟩
  have htake : name.bytes.take 8 = (name.bytes.take 11).take 8 := by rw [List.take_take]; rfl
  rw [htake, ← append_assoc, List.take_append_drop]

theorem store_front {s : List UInt8} {n : Nat} (h : s.length = n) : store (replicate n 0) s = some s := by
  rw [store, if_pos (by simp [h]), List.drop_eq_nil_of_le (by simp [h]), append_nil]

theorem fillExt_string {s : List UInt8} (hs : 0 ∉ s) (hlen : s.length = 3) (r : List UInt8) :
    fillExt (s ++ 0 :: r) = some s := by
  have hcopy : copied (s ++ 0 :: r) 3 = some s := by
    rw [copied_full hs _ (Nat.le_of_eq hlen.symm), List.take_of_length_le (Nat.le_of_eq hlen)]
  have hcount := strlen_append hs r
  rw [hlen] at hcount
  simp only [fillExt, strncpy, hcopy, bind_some, store_front hlen, hcount, map_some]
  rfl

theorem ext_three {t r ext : List UInt8} (ht : 0 ∉ t) (hlen : t.length = 3) (hr : r.length = 1)
    (h : (str_toupper (t ++ r)).bind fillExt = some ext) : ext = upper t := by
  obtain ⟨b, rfl⟩ := List.length_eq_one_iff.mp hr
  by_cases hb : b = 0
  · rw [hb, str_toupper_append ht, bind_some,
      fillExt_string (upper_nul_free ht) (by simpa using hlen)] at h
    exact (Option.some_inj.mp h).symm
  have hnul : 0 ∉ t ++ [b] := by
    intro h0
    rcases List.mem_append.mp h0 with h0 | h0
    · exact ht h0
    · exact hb (List.mem_singleton.mp h0).symm
  rw [str_toupper_eq_none hnul] at h
  exact absurd h (by simp)

/-- The short name of a name with a tail, whatever the stack held. -/
theorem Tailed.shortName {loc : Locals} {dp : inode} {name : CString} {isDir : Bool} {ext n : List UInt8}
    (h : Tailed name.bytes isDir ext) (hname : (shortName loc dp name isDir).map Prod.snd = some n) :
    n = upper (name.bytes.take 6) ++ [0x7E, tail dp name.bytes] ++ ext := by
  obtain ⟨file_name, e, up, base, hparts, -⟩ := shortName_parts hname
  have hsix : ∀ r, name.bytes.take 8 ++ r = name.bytes.take 6 ++ ((name.bytes.take 8).drop 6 ++ r) := by
    intro r
    have htake : name.bytes.take 6 = (name.bytes.take 8).take 6 := by rw [List.take_take]; rfl
    rw [htake, ← append_assoc, List.take_append_drop]
  rcases h with hlen | ⟨hdot, hlen⟩ | ⟨hst, hs, hs6, ht⟩
  · obtain ⟨⟨r, hr⟩, rfl⟩ := nameParts_dir hlen hparts
    exact shortName_tail hlen hparts (hr.trans (hsix r)) hname
  · obtain ⟨⟨r, hr⟩, rfl⟩ := nameParts_plain hdot hlen.le hparts
    exact shortName_tail hlen hparts (hr.trans (hsix r)) hname
  · rename_i s t
    obtain ⟨-, -, hfile, hext⟩ := nameParts_split hst hs hparts
    obtain rfl := ext_three (split_nul_free hst).2 ht (by simp [ht]) hext
    have hlen : 8 < name.bytes.length := by
      rw [hst]
      simp
      omega
    have htake : name.bytes.take 6 = s.take 6 := by rw [hst, List.take_append_of_le_length hs6]
    refine shortName_tail hlen hparts (r := s.drop 6 ++ loc.file_name.toList.drop s.length) ?_ hname
    rw [hfile, htake, ← append_assoc, List.take_append_drop]

/-- The short name of a name of eight bytes without a dot. -/
theorem whole_shortName {loc : Locals} {dp : inode} {name : CString} {n : List UInt8} (hdot : 0x2E ∉ name.bytes)
    (hlen : name.bytes.length = 8) (hname : (shortName loc dp name false).map Prod.snd = some n) :
    n = upper name.bytes ++ [0x20, 0x20, 0x20] := by
  obtain ⟨file_name, ext, up, base, hparts, hup, hbase, -, hshort⟩ := shortName_parts hname
  obtain ⟨⟨r, rfl⟩, rfl⟩ := nameParts_plain hdot (Nat.le_of_eq hlen.symm) hparts
  rw [List.take_of_length_le (Nat.le_of_eq hlen)] at hup
  obtain ⟨r', rfl⟩ := str_toupper_front name.nul_free hup
  have h8 : (upper name.bytes).length = 8 := by simpa [upper] using hlen
  have hbase8 : base.take 8 = (upper name.bytes).take 8 :=
    base_take (upper_nul_free name.nul_free) (Nat.le_of_eq h8.symm) le_rfl hbase
  have hlen8 : base.length = 8 := strncpy_length hbase
  rw [List.take_of_length_le (Nat.le_of_eq hlen8), List.take_of_length_le (Nat.le_of_eq h8)] at hbase8
  rw [hshort (Nat.le_of_eq hlen), hbase8]

/-! ## One step -/

theorem LegalName.first {n : List UInt8} (h : LegalName n) (hlen : n.length = 11) : chr n 0 ≠ 0 ∧ chr n 0 ≠ 0xE5 := by
  obtain ⟨c, cs, rfl⟩ := List.exists_cons_of_length_eq_add_one hlen
  refine ⟨fun h0 => ?_, h.2.2⟩
  have hc : c = 0 := h0
  have hlegal := h.1 c List.mem_cons_self
  rw [hc] at hlegal
  exact absurd hlegal (by decide)

/-- A file whose short name is free joins the others lawfully. -/
theorem made_law {s : Directory} (hinv : Inv s) {dp' : inode} {name n : List UInt8} {off : Nat}
    (h : Made s.dp dp' name n off) :
    Law ⟨dp', s.files ++ [(name, off)]⟩ ↔ Law s ∧ Free s n := by
  have hshort := shortNames_made hinv h
  constructor
  · rintro ⟨hdistinct, hlegal⟩
    rw [hshort] at hdistinct hlegal
    obtain ⟨hold, -, hdisj⟩ := List.nodup_append'.mp hdistinct
    refine ⟨⟨hold, fun m hm => hlegal m (List.mem_append_left _ hm)⟩, hlegal n (by simp), fun hmem => ?_⟩
    exact hdisj hmem (List.mem_singleton_self n)
  · rintro ⟨⟨hdistinct, hlegal⟩, hn, hfree⟩
    refine ⟨?_, fun m hm => ?_⟩
    · rw [hshort]
      exact List.nodup_append'.mpr ⟨hdistinct, List.nodup_singleton n, by simpa using hfree⟩
    rw [hshort] at hm
    rcases List.mem_append.mp hm with hm | hm
    · exact hlegal m hm
    · exact List.mem_singleton.mp hm ▸ hn

theorem create_made {s : Directory} {name : CString} {isDir : Bool} {given : Given} {loc : Locals}
    {tc : trav_control} {dp' : inode} {off : Nat} (hdots : ¬ Dots name)
    (h : fat32_inode_alloc loc tc s.dp given name isDir = .ok (dp', off)) :
    ∃ n, (shortName loc s.dp name isDir).map Prod.snd = some n ∧ Made s.dp dp' name.bytes n off := by
  obtain ⟨n, hname, hord, hmade⟩ := alloc_ok hdots h
  exact ⟨n, hname, created_made s.dp given isDir hord (shortName_length hname) hmade⟩

theorem Fits.free {s : Directory} {name : CString} {isDir : Bool} {loc : Locals} {n : List UInt8}
    (h : Fits s name.bytes isDir) (hname : (ShortName.shortName loc s.dp name isDir).map Prod.snd = some n) :
    Free s n := by
  rcases h with ⟨hdot, hlen, hfree⟩ | ⟨htail, hfree⟩
  · rw [whole_shortName hdot hlen hname]
    exact hfree
  · rw [htail.shortName hname]
    exact hfree

theorem step_law {s s' : Directory} {e : Event} (hinv : Inv s) (hlaw : Law s) (hkept : Kept s e)
    (h : Step s e s') : Inv s' ∧ Law s' := by
  rcases h with ⟨hne, hdots, hnew, halloc⟩ | hmem
  · obtain ⟨n, hname, hmade⟩ := create_made hdots halloc
    have hfree := Fits.free hkept hname
    obtain ⟨h0, hE5⟩ := hfree.1.first (shortName_length hname)
    exact ⟨hmade.inv hinv hnew h0 hE5, (made_law hinv hmade).mpr ⟨hlaw, hfree⟩⟩
  · exact ⟨deleted_inv hinv hmem, deleted_law hinv hlaw hmem⟩

theorem run_law {s s' : Directory} {es : List Event} (h0 : Fresh s) (h : Run (Guarded Step Kept) s es s') :
    Inv s' ∧ Law s' :=
  Run.invariant (I := fun s => Inv s ∧ Law s) (fun _ _ _ hi hs => step_law hi.1 hi.2 hs.1 hs.2) h
    ⟨h0.inv, h0.law⟩

/-! ## Names that do not fit -/

theorem not_free_of_mem {s : Directory} {n : List UInt8} {c : UInt8} (hc : c ∈ n) (hlegal : LegalChar c = false) :
    ¬ Free s n := by
  intro h
  rw [h.1.1 c hc] at hlegal
  exact absurd hlegal (by simp)

theorem base_short {p r base : List UInt8} (hp : 0 ∉ p) (hlen : p.length ≤ 8)
    (h : strncpy (replicate 8 0) (p ++ 0 :: r) 8 = some base) : base = p ++ replicate (8 - p.length) 0 := by
  have hcopy := copied_padded hp r hlen
  rw [strncpy, hcopy, bind_some, store_front (by simp; omega)] at h
  exact (Option.some_inj.mp h).symm

/-- A stack on which the part before the dot is followed by NULs, the one behind it by dots. -/
def dotted (loc : Locals) : Locals :=
  { loc with file_name := Vector.replicate 255 0, file_ext := #v[0x2E, 0x2E, 0x2E, 0] }

/-- What the parts of a name must be for its creation to come to an end. -/
theorem split_bounds {loc : Locals} {dp : inode} {name : CString} {s t n : List UInt8}
    (hname : name.bytes = s ++ 0x2E :: t) (hs : 0x2E ∉ s) (h : (shortName loc dp name false).map Prod.snd = some n) :
    s.length ≤ 254 ∧ t.length ≤ 3 ∧ (8 < name.bytes.length → s.length < 50) := by
  obtain ⟨file_name, ext, up, base, hparts, hup, -, hlong, -⟩ := shortName_parts h
  obtain ⟨h255, h4, rfl, hext⟩ := nameParts_split hname hs hparts
  obtain ⟨hs0, ht0⟩ := split_nul_free hname
  refine ⟨?_, ?_, fun h8 => ?_⟩
  · by_contra hlt
    have hlen : s.length = 255 := by omega
    rw [List.drop_eq_nil_of_le (by simp [hlen]), append_nil, str_toupper_eq_none hs0] at hup
    exact absurd hup (by simp)
  · by_contra hlt
    have hlen : t.length = 4 := by omega
    rw [List.drop_eq_nil_of_le (by simp [hlen]), append_nil, str_toupper_eq_none ht0] at hext
    exact absurd hext (by simp)
  · obtain ⟨cnt, hcnt, -⟩ := hlong h8
    obtain ⟨r', rfl⟩ := str_toupper_front hs0 hup
    rcases split_at_nul (upper s ++ r') with hnul | ⟨p, q, hpq, hp⟩
    · rw [fat32_find_same_name_cnt, strlen_eq_none hnul] at hcnt
      exact absurd hcnt (by simp)
    have hle : s.length ≤ p.length := by
      by_contra hlt
      have hpos : p.length < (upper s).length := by simp [upper]; omega
      have hzero : (upper s ++ r')[p.length]? = some 0 := by rw [hpq]; simp
      rw [List.getElem?_append_left hpos] at hzero
      exact upper_nul_free hs0 (List.mem_of_getElem? hzero)
    rw [hpq, find_same_name_cnt_string loc.tc dp hp] at hcnt
    split at hcnt
    · next hnil =>
      rw [hnil, List.length_nil] at hle
      omega
    · split at hcnt
      · omega
      · exact absurd hcnt (by simp)

/-- On that stack the creation comes to an end too, with these parts. -/
theorem shortName_dotted (loc : Locals) (dp : inode) {name : CString} {s t : List UInt8}
    (hname : name.bytes = s ++ 0x2E :: t) (hs : 0x2E ∉ s) (h254 : s.length ≤ 254) (h3 : t.length ≤ 3)
    (h50 : 8 < name.bytes.length → s.length < 50) :
    ∃ base n, (shortName (dotted loc) dp name false).map Prod.snd = some n ∧
      strncpy (replicate 8 0) (upper s ++ 0 :: replicate (254 - s.length) 0) 8 = some base ∧
      base.take 6 ++ upper (t ++ replicate (3 - t.length) 0x2E) ⊆ n := by
  obtain ⟨hs0, ht0⟩ := split_nul_free hname
  have hfst : store (dotted loc).file_name.toList s = some (s ++ 0 :: replicate (254 - s.length) 0) := by
    have hdrop : (replicate 255 (0 : UInt8)).drop s.length = 0 :: replicate (254 - s.length) 0 := by
      rw [List.drop_replicate, ← List.replicate_succ]
      congr 1
      omega
    rw [store, dotted, Vector.toList_replicate, if_pos (by rw [List.length_replicate]; omega), hdrop]
  have hdots : 0 ∉ t ++ replicate (3 - t.length) 0x2E := by
    intro h0
    rcases List.mem_append.mp h0 with h0 | h0
    · exact ht0 h0
    · exact absurd (List.eq_of_mem_replicate h0) (by decide)
  have hsnd : store (dotted loc).file_ext.toList t = some (t ++ replicate (3 - t.length) 0x2E ++ [0]) := by
    have hlist : (dotted loc).file_ext.toList = replicate 3 0x2E ++ [0] := rfl
    have hdrop : (replicate 3 (0x2E : UInt8) ++ [0]).drop t.length = replicate (3 - t.length) 0x2E ++ [0] := by
      rw [List.drop_append_of_le_length (by simpa using h3), List.drop_replicate]
    rw [store, hlist, if_pos (by simp; omega), hdrop, append_assoc]
  have hext : (str_toupper (t ++ replicate (3 - t.length) 0x2E ++ [0])).bind fillExt =
      some (upper (t ++ replicate (3 - t.length) 0x2E)) := by
    rw [str_toupper_append hdots, bind_some]
    refine fillExt_string (upper_nul_free hdots) ?_ []
    simp
    omega
  have hsplit := str_split_found hname hs (dotted loc).file_name.toList (dotted loc).file_ext.toList
  rw [hfst, hsnd, bind_some, map_some] at hsplit
  have hparts : nameParts (dotted loc) name false = some (s ++ 0 :: replicate (254 - s.length) 0,
      upper (t ++ replicate (3 - t.length) 0x2E)) := by
    simp only [nameParts, Bool.false_eq_true, if_false, hsplit, hext, map_some]
  have hupper := upper_nul_free hs0
  obtain ⟨bytes, hbytes⟩ := copied_string hupper 8
  have hbase : strncpy (replicate 8 0) (upper s ++ 0 :: replicate (254 - s.length) 0) 8 = some bytes := by
    have hcopy := hbytes (replicate (254 - s.length) 0)
    rw [strncpy, upper, hcopy, bind_some, store_front (copied_length hcopy)]
  have hcnt := find_same_name_cnt_string (dotted loc).tc dp hupper (replicate (254 - s.length) 0)
  simp only [shortName, hparts, bind_some, str_toupper_append hs0]
  rw [show s.map toupper = upper s from rfl, hbase]
  simp only [bind_some]
  by_cases h8 : 8 < name.bytes.length
  · obtain ⟨cnt, hsome⟩ : ∃ cnt, (fat32_find_same_name_cnt (dotted loc).tc dp
        (upper s ++ 0 :: replicate (254 - s.length) 0)).map Prod.snd = some cnt := by
      rw [upper, hcnt]
      split
      · exact ⟨_, rfl⟩
      · rw [if_pos (by simpa using h50 h8)]
        exact ⟨_, rfl⟩
    obtain ⟨⟨dp', cnt'⟩, hfind, rfl⟩ := Option.map_eq_some_iff.mp hsome
    rw [if_pos h8, hfind]
    refine ⟨bytes, _, rfl, rfl, ?_⟩
    dsimp only
    rw [set_tail (strncpy_length hbase)]
    intro c hc
    rcases List.mem_append.mp hc with hc | hc
    · simp [hc]
    · simp [hc]
  · rw [if_neg h8]
    refine ⟨bytes, _, rfl, rfl, ?_⟩
    intro c hc
    rcases List.mem_append.mp hc with hc | hc
    · exact List.mem_append_left _ (List.mem_of_mem_take hc)
    · exact List.mem_append_right _ hc

theorem upper_dots (t : List UInt8) (k : Nat) : 0x2E ∈ upper (t ++ replicate (k + 1) 0x2E) :=
  List.mem_map.mpr ⟨0x2E, by simp, by decide⟩

/-- A name that does not fit gets a short name that is not free, on this stack or on another. -/
theorem misfit {s : Directory} {loc : Locals} {name : CString} {isDir : Bool} {n : List UInt8}
    (hname : (shortName loc s.dp name isDir).map Prod.snd = some n) (hfits : ¬ Fits s name.bytes isDir) :
    ∃ loc' n', (shortName loc' s.dp name isDir).map Prod.snd = some n' ∧ ¬ Free s n' := by
  have htailed : ∀ ext, Tailed name.bytes isDir ext → ¬ Free s n := by
    intro ext htail hfree
    rw [htail.shortName hname] at hfree
    exact hfits (.tailed htail hfree)
  obtain ⟨file_name, ext, up, base, hparts, hup, hbase, -, hshort⟩ := shortName_parts hname
  rcases isDir with _ | _
  · by_cases hdot : 0x2E ∈ name.bytes
    · obtain ⟨p, t, hpt, hp⟩ := List.eq_append_cons_of_mem hdot
      obtain ⟨h254, h3, h50⟩ := split_bounds hpt hp hname
      by_cases hfill : 6 ≤ p.length ∧ t.length = 3
      · exact ⟨loc, n, hname, htailed _ (.ext hpt hp hfill.1 hfill.2)⟩
      obtain ⟨base', n', hname', hbase', hsub⟩ := shortName_dotted loc s.dp hpt hp h254 h3 h50
      refine ⟨dotted loc, n', hname', ?_⟩
      rcases lt_or_ge p.length 6 with hlt | hge
      · -- the field before the dot is padded with NULs
        have hlen : (upper p).length = p.length := by simp [upper]
        have hpad := base_short (upper_nul_free (split_nul_free hpt).1) (by rw [length_map]; omega) hbase'
        refine not_free_of_mem (hsub (List.mem_append_left _ ?_)) (show LegalChar 0 = false by decide)
        rw [hpad, List.take_append, length_map, List.take_replicate]
        refine List.mem_append_right _ (List.mem_replicate.mpr ⟨?_, rfl⟩)
        omega
      · -- the extension is followed by what the stack held
        obtain ⟨k, hk⟩ : ∃ k, 3 - t.length = k + 1 := ⟨2 - t.length, by omega⟩
        rw [hk] at hsub
        exact not_free_of_mem (hsub (List.mem_append_right _ (upper_dots t k))) (by decide)
    · rcases Nat.lt_trichotomy name.bytes.length 8 with hlt | heq | hgt
      · refine ⟨loc, n, hname, ?_⟩
        obtain ⟨r, hcopy⟩ := @strncpy_short name 8 hlt loc.file_name.toList (by simp)
        simp only [nameParts, Bool.false_eq_true, if_false, str_split_missing hdot, hcopy, map_some] at hparts
        obtain ⟨rfl, rfl⟩ := Prod.mk.inj (Option.some_inj.mp hparts)
        rw [str_toupper_append name.nul_free] at hup
        obtain rfl := Option.some_inj.mp hup
        have hpad := base_short (upper_nul_free name.nul_free) (by rw [length_map]; omega) hbase
        rw [hshort hlt.le, hpad]
        refine not_free_of_mem (c := 0) ?_ (by decide)
        refine List.mem_append_left _ (List.mem_append_right _ (List.mem_replicate.mpr ⟨?_, rfl⟩))
        rw [length_map]
        omega
      · refine ⟨loc, n, hname, fun hfree => ?_⟩
        rw [whole_shortName hdot heq hname] at hfree
        exact hfits (.whole hdot heq hfree)
      · exact ⟨loc, n, hname, htailed _ (.plain hdot hgt)⟩
  · refine ⟨loc, n, hname, ?_⟩
    rcases lt_or_ge 8 name.bytes.length with hlong | hle
    · exact htailed _ (.dir hlong)
    simp only [nameParts, if_true, if_neg hle.not_gt] at hparts
    obtain ⟨fn, -, heq⟩ := Option.map_eq_some_iff.mp hparts
    rw [hshort hle, ← (Prod.mk.inj heq).2]
    exact not_free_of_mem (c := 0) (by simp) (by decide)

theorem misfit_step {s s' : Directory} (hinv : Inv s) {name : CString} {isDir : Bool} {given : Given} {loc : Locals}
    {tc : trav_control} (hfits : ¬ Fits s name.bytes isDir) (h : Step s (.create name isDir given loc tc) s') :
    ∃ loc' s'', Step s (.create name isDir given loc' tc) s'' ∧ ¬ Law s'' := by
  rcases h with ⟨hne, hdots, hnew, halloc⟩
  obtain ⟨n, hname, hord, -⟩ := alloc_ok hdots halloc
  obtain ⟨loc', n', hname', hfree⟩ := misfit hname hfits
  have halloc' := alloc_named tc given hdots hord hname'
  refine ⟨loc', _, .create hne hdots hnew halloc', fun hlaw => ?_⟩
  have hmade := created_made s.dp given isDir hord (shortName_length hname') rfl
  exact hfree ((made_law hinv hmade).mp hlaw).2

/-- **Short names stay legal and distinct** in every run whose creations all fill their fields: a file without a
dot and of eight bytes or more, one with at least six bytes before the dot and three behind it, a directory of
more than eight, each with legal characters, a legal tail, and no live entry of that short name.  Any other
creation that comes to an end breaks the law on some stack. -/
theorem short_names_law {s s' : Directory} {es : List Event} (h0 : Fresh s) (h : Run (Guarded Step Kept) s es s') :
    Law s' ∧ ∀ name isDir given loc tc, ¬ Fits s' name.bytes isDir →
      (∃ s'', Step s' (.create name isDir given loc tc) s'') →
      ∃ loc' s'', Step s' (.create name isDir given loc' tc) s'' ∧ ¬ Law s'' := by
  obtain ⟨hinv, hlaw⟩ := run_law h0 h
  refine ⟨hlaw, fun name isDir given loc tc hfits hstep => ?_⟩
  obtain ⟨s'', hstep⟩ := hstep
  exact misfit_step hinv hfits hstep

def abcdefgh : CString := ⟨[0x61, 0x62, 0x63, 0x64, 0x65, 0x66, 0x67, 0x68], by decide⟩

def foo : CString := ⟨[0x66, 0x6F, 0x6F], by decide⟩

theorem fresh_empty : Fresh ⟨emptyDir, []⟩ := ⟨rfl, fun _ h => absurd h not_mem_nil⟩

theorem create_first {name : CString} {n : List UInt8} (hne : name.bytes ≠ []) (hdots : ¬ Dots name)
    (hord : ordMax name.bytes ≤ 20) (hname : (shortName nuls emptyDir name false).map Prod.snd = some n) :
    ∃ s', Step ⟨emptyDir, []⟩ (.create name false ⟨0, 2, 5⟩ nuls nuls.tc) s' ∧
      (Law s' ↔ Free ⟨emptyDir, []⟩ n) := by
  have halloc := alloc_named nuls.tc ⟨0, 2, 5⟩ hdots hord hname
  have hmade := created_made emptyDir ⟨0, 2, 5⟩ false hord (shortName_length hname) rfl
  have hlaw := made_law fresh_empty.inv hmade
  exact ⟨_, .create hne hdots not_mem_nil halloc, hlaw.trans (and_iff_right fresh_empty.law)⟩

def bcdefghi : CString := ⟨[0x62, 0x63, 0x64, 0x65, 0x66, 0x67, 0x68, 0x69], by decide⟩

/-- A run with two files of eight bytes. -/
theorem short_names_law_two : ∃ s', Run (Guarded Step Kept) ⟨emptyDir, []⟩
    [.create abcdefgh false ⟨0, 2, 5⟩ nuls nuls.tc, .create bcdefghi false ⟨0, 2, 5⟩ nuls nuls.tc] s' ∧ Law s' := by
  have hdots : ¬ Dots abcdefgh := by unfold Dots; decide
  have hdots' : ¬ Dots bcdefghi := by unfold Dots; decide
  have halloc := @alloc_named nuls nuls.tc emptyDir ⟨0, 2, 5⟩ _ false (upper abcdefgh.bytes ++ [0x20, 0x20, 0x20]) hdots
    (by decide) (by decide +kernel)
  have halloc' := @alloc_named nuls nuls.tc (created emptyDir (fcbs ⟨0, 2, 5⟩ abcdefgh.bytes false (upper abcdefgh.bytes ++ [0x20, 0x20, 0x20])) 2).1 ⟨0, 2, 5⟩ _ false
    (upper bcdefghi.bytes ++ [0x20, 0x20, 0x20]) hdots' (by decide) (by decide +kernel)
  have hrun : ∃ s', Run (Guarded Step Kept) ⟨emptyDir, []⟩
      [.create abcdefgh false ⟨0, 2, 5⟩ nuls nuls.tc, .create bcdefghi false ⟨0, 2, 5⟩ nuls nuls.tc] s' :=
    ⟨_, .cons ⟨.whole (by decide) rfl ⟨⟨by decide +kernel, by decide +kernel, by decide +kernel⟩, not_mem_nil⟩,
        .create (by decide) hdots not_mem_nil halloc⟩
      (.cons ⟨.whole (by decide) rfl ⟨⟨by decide +kernel, by decide +kernel, by decide +kernel⟩, by decide +kernel⟩,
        .create (by decide) hdots' (by decide +kernel) halloc'⟩ (.nil _))⟩
  obtain ⟨s', hrun⟩ := hrun
  exact ⟨s', hrun, (short_names_law fresh_empty hrun).1⟩

/-- A name of three bytes is padded with NULs. -/
theorem foo_breaks_law : ¬ ∀ (s s' : Directory) (es : List Event), Fresh s → Run Step s es s' → Law s' := by
  intro h
  have hdots : ¬ Dots foo := by unfold Dots; decide
  obtain ⟨s', hstep, hlaw⟩ := create_first (n := [0x46, 0x4F, 0x4F, 0, 0, 0, 0, 0, 0x20, 0x20, 0x20])
    (by decide) hdots (by decide) (by decide +kernel)
  have hfree := hlaw.mp (h _ _ _ fresh_empty (.cons hstep (.nil s')))
  exact not_free_of_mem (c := 0) (by simp) (by decide) hfree

end LostWakeup.Fs.Fat32.ShortNames
