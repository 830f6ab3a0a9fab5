/-
# LostWakeup.Fs.Fat32.InsertPoint — where the entries of a new file go, and what they hide.

The search for a place goes over the whole directory, end markers included.  What it returns never covers an entry in use
and never lies past the end.  The entries behind it stay visible as long as none of the new ones looks like an end
marker, as the short name of a file whose name begins with a dot may.
-/
import Mathlib.Data.List.GetD
import LostWakeup.Fs.Fat32.DirLookup

namespace LostWakeup.Fs.Fat32.InsertPoint

open Lib.Strings Fs.Fat32.LongName Fs.Fat32.Dir Fs.Fat32.ShortName

/-! ## Where the entries go -/

/-- Whether an entry is free; what lies behind the end is. -/
def isFree (fcbs : List (List UInt8)) (i : Nat) : Bool := NAME0_FREE_BOOL (chr (fcbs.getD i []) 0)

/-- A run of `req` free entries of the directory. -/
def FreeRun (fcbs : List (List UInt8)) (req p : Nat) : Prop :=
  p + req ≤ fcbs.length ∧ ∀ i, p ≤ i → i < p + req → isFree fcbs i = true

/-- The place for `req` entries: the first run of them, or else the end. -/
structure Slot (fcbs : List (List UInt8)) (req off : Nat) : Prop where
  le : off ≤ fcbs.length
  free : ∀ i, off ≤ i → i < off + req → isFree fcbs i = true
  first : ∀ p, FreeRun fcbs req p → off ≤ p

theorem isFree_end {fcbs : List (List UInt8)} {i : Nat} (h : fcbs.length ≤ i) : isFree fcbs i = true := by
  rw [isFree, List.getD_eq_default _ _ h]
  rfl

/-- The loop behind `pre`: there is no run in `pre`, and its last `cnt` entries are the free ones at its end. -/
theorem insertLoop_slot {req : Nat} (rest : List (List UInt8)) {pre : List (List UInt8)} {cnt ret : Nat}
    (hcnt : cnt ≤ pre.length) (hlt : cnt < req)
    (hfree : ∀ i, pre.length - cnt ≤ i → i < pre.length → isFree (pre ++ rest) i = true)
    (hused : cnt < pre.length → isFree (pre ++ rest) (pre.length - cnt - 1) = false)
    (hnone : ∀ p, p + req ≤ pre.length → ¬ FreeRun (pre ++ rest) req p)
    (hrun : cnt ≠ 0 → ret = pre.length - cnt) (hstart : cnt = 0 → ret = (pre ++ rest).length ∨ ret = 0 ∧ pre = []) :
    Slot (pre ++ rest) req (insertLoop req (pre ++ rest).length pre.length rest cnt ret) := by
  induction rest generalizing pre cnt ret with
  | nil =>
    have hfirst : ∀ p, ¬ FreeRun (pre ++ []) req p := fun p hp => hnone p (by simpa using hp.1) hp
    rw [insertLoop]
    rcases Nat.eq_zero_or_pos cnt with rfl | hpos
    · have hret : ret = (pre ++ []).length := by
        rcases hstart rfl with h | ⟨rfl, rfl⟩
        · exact h
        · rfl
      exact ⟨Nat.le_of_eq hret, fun i hi _ => isFree_end (hret ▸ hi), fun p hp => absurd hp (hfirst p)⟩
    · have hret := hrun hpos.ne'
      refine ⟨by simp [hret], fun i hi _ => ?_, fun p hp => absurd hp (hfirst p)⟩
      rcases lt_or_ge i pre.length with hin | hout
      · exact hfree i (hret ▸ hi) hin
      · exact isFree_end (by simpa using hout)
  | cons fcb rest ih =>
    have hassoc : pre ++ fcb :: rest = pre ++ [fcb] ++ rest := by simp
    have hlen : (pre ++ [fcb]).length = pre.length + 1 := by simp
    have hat : isFree (pre ++ fcb :: rest) pre.length = NAME0_FREE_BOOL (chr fcb 0) := by
      simp [isFree]
    rw [insertLoop]
    by_cases hfcb : NAME0_FREE_BOOL (chr fcb 0) = true
    · have hret : (if cnt = 0 then pre.length else ret) = pre.length - cnt := by
        split
        · omega
        · next hne => exact hrun hne
      have hfree' : ∀ i, pre.length - cnt ≤ i → i < pre.length + 1 → isFree (pre ++ fcb :: rest) i = true := by
        intro i hi hlt'
        rcases lt_or_ge i pre.length with hin | hout
        · exact hfree i hi hin
        · rw [show i = pre.length by omega, hat, hfcb]
      simp only [hfcb, Bool.not_true, Bool.false_eq_true, if_false, hret]
      split
      · next hreq =>
        refine ⟨by simp; omega, fun i hi hlt' => hfree' i hi (by omega), fun p hp => ?_⟩
        by_contra hbefore
        exact hnone p (by omega) hp
      · next hreq =>
        have hnone' : ∀ p, p + req ≤ pre.length + 1 → ¬ FreeRun (pre ++ fcb :: rest) req p := by
          intro p hp hrunp
          rcases lt_or_ge pre.length (p + req) with hend | hbefore
          · -- a run that ends here would reach over the used entry in front of the free ones
            have hu := hused (by omega)
            rw [hrunp.2 (pre.length - cnt - 1) (by omega) (by omega)] at hu
            exact absurd hu (by simp)
          · exact hnone p hbefore hrunp
        have hrest := @ih (pre ++ [fcb]) (cnt + 1) (pre.length - cnt) (by omega) (by omega)
          (fun i hi hlt' => by
            rw [← hassoc]
            exact hfree' i (by omega) (by omega))
          (fun hlt' => by
            rw [← hassoc, hlen, show pre.length + 1 - (cnt + 1) - 1 = pre.length - cnt - 1 by omega]
            exact hused (by omega))
          (fun p hp => by
            rw [← hassoc]
            exact hnone' p (by omega))
          (fun _ => by omega) (fun h => absurd h (Nat.succ_ne_zero cnt))
        rwa [hlen, ← hassoc] at hrest
    · rw [Bool.not_eq_true] at hfcb
      have hnone' : ∀ p, p + req ≤ pre.length + 1 → ¬ FreeRun (pre ++ fcb :: rest) req p := by
        intro p hp hrunp
        rcases lt_or_ge pre.length (p + req) with hend | hbefore
        · have hu := hrunp.2 pre.length (by omega) (by omega)
          rw [hat, hfcb] at hu
          exact absurd hu (by simp)
        · exact hnone p hbefore hrunp
      have hrest := @ih (pre ++ [fcb]) 0 (pre ++ fcb :: rest).length (Nat.zero_le _)
        (Nat.lt_of_le_of_lt (Nat.zero_le _) hlt) (fun i hi hlt' => absurd hi (by omega))
        (fun _ => by
          rw [← hassoc, hlen, show pre.length + 1 - 0 - 1 = pre.length by omega, hat, hfcb])
        (fun p hp => by
          rw [← hassoc]
          exact hnone' p (by omega))
        (fun h => absurd rfl h) (fun _ => .inl (by rw [hassoc]))
      simp only [hfcb, Bool.not_false, if_true]
      rwa [hlen, ← hassoc] at hrest

theorem insert_offset_slot (dp : inode) {req : Nat} (hreq : 0 < req) :
    Slot dp.entries req (Dir.fat32_dir_fcb_insert_offset dp req) :=
  @insertLoop_slot req dp.entries [] 0 0 (Nat.zero_le _) hreq (fun i _ hi => absurd hi (Nat.not_lt_zero i))
    (fun h => absurd h (Nat.lt_irrefl 0)) (fun p hp => absurd hp (by simp; omega)) (fun h => absurd rfl h)
    (fun _ => .inr ⟨rfl, rfl⟩)

/-- The entry at an offset. -/
def entryAt (dp : inode) (off : Nat) : List UInt8 := dp.entries.getD off []

/-- A write at most at the end of a directory: what it wrote is there, the other entries are as they were. -/
theorem write_at (dp : inode) {off : Nat} (fcbs : List (List UInt8)) (h : off ≤ dp.entries.length) (i : Nat) :
    (off ≤ i → i < off + fcbs.length → entryAt (fat32_inode_write dp off fcbs) i = fcbs.getD (i - off) []) ∧
    (i < off ∨ off + fcbs.length ≤ i → i < dp.entries.length →
      entryAt (fat32_inode_write dp off fcbs) i = entryAt dp i) := by
  obtain ⟨pad, -, -, hentries⟩ := write_entries dp off fcbs
  have hlen : ((dp.entries ++ pad).take off).length = off := by
    rw [List.length_take, List.length_append]
    omega
  constructor
  · intro h1 h2
    rw [entryAt, hentries, List.append_assoc, List.getD_append_right _ _ _ _ (by omega), hlen,
      List.getD_append _ _ _ _ (by omega)]
  rintro (h1 | h1) h2
  · rw [entryAt, hentries, List.append_assoc, List.getD_append _ _ _ _ (by omega), entryAt,
      List.getD_eq_getElem?_getD, List.getElem?_take_of_lt h1, List.getElem?_append_left h2,
      List.getD_eq_getElem?_getD]
  have hsplit : ((dp.entries ++ pad).take off ++ fcbs).length = off + fcbs.length := by
    rw [List.length_append, hlen]
  rw [entryAt, hentries, List.getD_append_right _ _ _ _ (by omega), hsplit, entryAt,
    List.getD_eq_getElem?_getD, List.getElem?_drop, Nat.add_sub_cancel' h1, List.getElem?_append_left h2,
    List.getD_eq_getElem?_getD]

theorem write_length (dp : inode) {off : Nat} (fcbs : List (List UInt8)) (h : off ≤ dp.entries.length) :
    dp.entries.length ≤ (fat32_inode_write dp off fcbs).entries.length ∧
      off + fcbs.length ≤ (fat32_inode_write dp off fcbs).entries.length := by
  obtain ⟨pad, -, -, hentries⟩ := write_entries dp off fcbs
  rw [hentries]
  simp only [List.length_append, List.length_take, List.length_drop]
  omega

/-! ## The entries of a file -/

section Entries

variable (given : Given) {name : List UInt8} (isDir : Bool) {n : List UInt8}

theorem fcbs_short (hlen : n.length = 11) : ((fcbs given name isDir n).getD (ordMax name) []).take 11 = n := by
  have hlongs : ((longs name n).map dirent_l_t.bytes).length = ordMax name := by simp [longs]
  rw [fcbs, List.getD_append_right _ _ _ _ (Nat.le_of_eq hlongs), hlongs, Nat.sub_self]
  simp [dirent_s_t.bytes, shortEntry, hlen]

/-- None of the entries reads as free, if the short name does not. -/
theorem fcbs_used (hord : ordMax name ≤ 20) (hlen : n.length = 11) (h0 : chr n 0 ≠ 0) (hE5 : chr n 0 ≠ 0xE5) :
    ∀ fcb ∈ fcbs given name isDir n, NAME0_FREE_BOOL (chr fcb 0) = false := by
  intro fcb hfcb
  rcases List.mem_append.mp hfcb with hlong | hshort
  · obtain ⟨e, he, rfl⟩ := List.mem_map.mp hlong
    have hpushed := longEntries_pushed name (ChkSum n) (Nat.le_refl 1) (show 1 + ordMax name ≤ 21 by omega) e
      (List.mem_reverse.mp he)
    have hchr : chr e.bytes 0 = e.LDIR_Ord := rfl
    rw [hchr]
    simpa [NAME0_FREE_BOOL, NAME0_FREE_ONLY, NAME0_FREE_ALL] using And.intro hpushed.not_free.2 hpushed.not_free.1
  · rw [List.mem_singleton.mp hshort]
    obtain ⟨c, cs, rfl⟩ := List.exists_cons_of_length_eq_add_one hlen
    have hchr : chr (shortEntry given isDir (c :: cs)).bytes 0 = c := rfl
    have hc : chr (c :: cs) 0 = c := rfl
    rw [hc] at h0 hE5
    rw [hchr]
    simp [NAME0_FREE_BOOL, NAME0_FREE_ONLY, NAME0_FREE_ALL, h0, hE5]

end Entries

/-! ## What a scan sees -/

/-- Whether an entry is an end marker; what lies behind the end is. -/
def isEnd (fcbs : List (List UInt8)) (i : Nat) : Bool := NAME0_FREE_ALL (chr (fcbs.getD i []) 0)

/-- An entry in use, with no end marker before it: a scan from the start comes to it. -/
def Live (fcbs : List (List UInt8)) (i : Nat) : Prop :=
  isFree fcbs i = false ∧ ∀ j ≤ i, isEnd fcbs j = false

theorem Live.lt {fcbs : List (List UInt8)} {i : Nat} (h : Live fcbs i) : i < fcbs.length := by
  by_contra hge
  have hfree := isFree_end (not_lt.mp hge)
  rw [h.1] at hfree
  exact absurd hfree (by simp)

section Write

variable {dp : inode} {fcbs : List (List UInt8)} {off : Nat}

theorem write_spares (h : Slot dp.entries fcbs.length off) {i : Nat} (hi : isFree dp.entries i = false) :
    entryAt (fat32_inode_write dp off fcbs) i = entryAt dp i := by
  have hlt : i < dp.entries.length := by
    by_contra hge
    rw [isFree_end (not_lt.mp hge)] at hi
    exact absurd hi (by simp)
  refine (write_at dp fcbs h.le i).2 ?_ hlt
  by_contra hin
  push Not at hin
  rw [h.free i (by omega) (by omega)] at hi
  exact absurd hi (by simp)

/-- The files behind the place stay visible, unless one of the new entries is an end marker. -/
theorem write_keeps_iff (h : Slot dp.entries fcbs.length off) :
    (∀ i, Live dp.entries i → Live (fat32_inode_write dp off fcbs).entries i) ↔
      ∀ j < fcbs.length, NAME0_FREE_ALL (chr (fcbs.getD j []) 0) = true → ∀ i, off + j < i → ¬ Live dp.entries i := by
  have hnew : ∀ j < fcbs.length, isEnd (fat32_inode_write dp off fcbs).entries (off + j) =
      NAME0_FREE_ALL (chr (fcbs.getD j []) 0) := by
    intro j hj
    have hat := (write_at dp fcbs h.le (off + j)).1 le_self_add (by omega)
    rw [Nat.add_sub_cancel_left] at hat
    exact congrArg (fun fcb => NAME0_FREE_ALL (chr fcb 0)) hat
  constructor
  · intro hkeep j hj hend i hi hlive
    have hseen := (hkeep i hlive).2 (off + j) hi.le
    rw [hnew j hj, hend] at hseen
    exact absurd hseen (by simp)
  rintro hends i ⟨hused, hseen⟩
  refine ⟨?_, fun k hk => ?_⟩
  · rw [← hused]
    exact congrArg (fun fcb => NAME0_FREE_BOOL (chr fcb 0)) (write_spares h hused)
  rcases Decidable.em (off ≤ k ∧ k < off + fcbs.length) with hin | hout
  · obtain ⟨j, rfl⟩ := Nat.exists_eq_add_of_le hin.1
    rw [hnew j (by omega)]
    by_contra hend
    rw [Bool.not_eq_false] at hend
    -- the entry itself is in use, so the marker lies before it
    have hne : off + j ≠ i := by
      rintro rfl
      rw [h.free (off + j) hin.1 hin.2] at hused
      exact absurd hused (by simp)
    exact hends j (by omega) hend i (by omega) ⟨hused, hseen⟩
  · have hlt : k < dp.entries.length := hk.trans_lt (Live.lt ⟨hused, hseen⟩)
    have hat := (write_at dp fcbs h.le k).2 (by omega) hlt
    rw [← hseen k hk]
    exact congrArg (fun fcb => NAME0_FREE_ALL (chr fcb 0)) hat

end Write

/-! ## The first byte of a short name -/

theorem strncpy_first {s t s' : List UInt8} {n : Nat} (hn : 0 < n) (h : strncpy s t n = some s') :
    chr s' 0 = chr t 0 := by
  obtain ⟨bytes, hcopy, hstore⟩ := Option.bind_eq_some_iff.mp h
  have hlen := copied_length hcopy
  have hbytes : chr bytes 0 = chr t 0 := by
    obtain ⟨n, rfl⟩ := Nat.exists_eq_succ_of_ne_zero hn.ne'
    rcases t with _ | ⟨c, t⟩
    · exact absurd hcopy (by simp [copied])
    simp only [copied] at hcopy
    split at hcopy
    · next hc =>
      obtain rfl := Option.some_inj.mp hcopy
      rw [hc]
      rfl
    · obtain ⟨b, -, rfl⟩ := Option.map_eq_some_iff.mp hcopy
      rfl
  obtain ⟨b, bs, rfl⟩ := List.exists_cons_of_length_pos (hlen ▸ hn)
  unfold store at hstore
  split at hstore
  · rw [← Option.some_inj.mp hstore]
    exact hbytes
  · exact absurd hstore (by simp)

theorem toupper_eq_zero_iff (c : UInt8) : toupper c = 0 ↔ c = 0 := by
  constructor
  · intro h
    by_contra hc
    exact toupper_ne_zero c hc h
  · rintro rfl
    rfl

theorem str_toupper_first {s up : List UInt8} (h : str_toupper s = some up) : chr up 0 = 0 ↔ chr s 0 = 0 := by
  rcases s with _ | ⟨c, s⟩
  · exact absurd h (by simp [str_toupper])
  simp only [str_toupper] at h
  split at h
  · rw [← Option.some_inj.mp h]
  · obtain ⟨u, -, rfl⟩ := Option.map_eq_some_iff.mp h
    exact toupper_eq_zero_iff c

theorem first_eq_zero_iff (name : CString) : chr name.bytes 0 = 0 ↔ name.bytes = [] := by
  rcases hname : name.bytes with _ | ⟨c, cs⟩
  · exact ⟨fun _ => rfl, fun _ => rfl⟩
  · refine ⟨fun h => ?_, fun h => absurd h (by simp)⟩
    have hc : c = 0 := h
    exact absurd (hname ▸ hc ▸ List.mem_cons_self) name.nul_free

theorem memory_first (name : CString) : chr name.memory 0 = chr name.bytes 0 := by
  rcases hname : name.bytes with _ | ⟨c, cs⟩
  · simp [CString.memory, hname, chr]
  · simp [CString.memory, hname, chr]

/-- The names for which the first byte of the entry is NUL: the empty one, and those that begin with a dot, where
nothing is copied in front of it. -/
def NulFirst (loc : Locals) (name : CString) (isDir : Bool) : Prop :=
  name.bytes = [] ∨ (isDir = false ∧ ¬ Dots name ∧ chr name.bytes 0 = 0x2E ∧ chr loc.file_name.toList 0 = 0)

theorem nameParts_first {loc : Locals} {name : CString} {isDir : Bool} {file_name ext : List UInt8}
    (hdots : ¬ Dots name) (h : nameParts loc name isDir = some (file_name, ext)) :
    chr file_name 0 = 0 ↔ NulFirst loc name isDir := by
  have hcopied : ∀ {n}, 0 < n → ∀ {fn}, strncpy loc.file_name.toList name.memory n = some fn →
      (chr fn 0 = 0 ↔ name.bytes = []) := by
    intro n hn fn hfn
    rw [strncpy_first hn hfn, memory_first, first_eq_zero_iff]
  rcases isDir with _ | _
  · by_cases hdot : 0x2E ∈ name.bytes
    · obtain ⟨s, t, hst, hs⟩ := List.eq_append_cons_of_mem hdot
      obtain ⟨-, -, rfl, -⟩ := nameParts_split hst hs h
      have hne : name.bytes ≠ [] := by
        rw [hst]
        simp
      rcases s with _ | ⟨c, s⟩
      · have hfirst : chr name.bytes 0 = 0x2E := by rw [hst]; rfl
        simp [NulFirst, hdots, hne, hfirst]
      have hfirst : chr name.bytes 0 = c := by rw [hst]; rfl
      have hc : c ≠ 0x2E := fun hc => hs (hc ▸ List.mem_cons_self)
      have hc0 : c ≠ 0 := fun h0 => (split_nul_free hst).1 (h0 ▸ List.mem_cons_self)
      have hat : chr ((c :: s) ++ loc.file_name.toList.drop (c :: s).length) 0 = c := rfl
      rw [hat]
      simp [NulFirst, hne, hfirst, hc, hc0]
    · simp only [nameParts, Bool.false_eq_true, if_false, str_split_missing hdot] at h
      obtain ⟨fn, hfn, heq⟩ := Option.map_eq_some_iff.mp h
      obtain ⟨rfl, rfl⟩ := Prod.mk.inj heq
      have hfirst : chr name.bytes 0 ≠ 0x2E := by
        rcases hname : name.bytes with _ | ⟨c, cs⟩
        · decide
        · intro hc
          have hc' : c = 0x2E := hc
          exact hdot (hname ▸ hc' ▸ List.mem_cons_self)
      rw [hcopied (by decide) hfn]
      simp [NulFirst, hfirst]
  · simp only [nameParts, if_true] at h
    obtain ⟨fn, hfn, heq⟩ := Option.map_eq_some_iff.mp h
    obtain ⟨rfl, rfl⟩ := Prod.mk.inj heq
    rw [hcopied (by decide) hfn]
    simp [NulFirst]

theorem shortName_first {loc : Locals} {dp : inode} {name : CString} {isDir : Bool} {n : List UInt8}
    (hdots : ¬ Dots name) (h : (shortName loc dp name isDir).map Prod.snd = some n) :
    chr n 0 = 0 ↔ NulFirst loc name isDir := by
  obtain ⟨file_name, ext, up, base, hparts, hup, hbase, hlong, hshort⟩ := shortName_parts h
  have hlen : base.length = 8 := strncpy_length hbase
  have hfirst : chr n 0 = chr base 0 := by
    obtain ⟨b, bs, rfl⟩ := List.exists_cons_of_length_eq_add_one hlen
    rcases lt_or_ge 8 name.bytes.length with h8 | h8
    · obtain ⟨cnt, -, rfl⟩ := hlong h8
      rfl
    · rw [hshort h8]
      rfl
  rw [hfirst, strncpy_first (by decide) hbase, str_toupper_first hup, nameParts_first hdots hparts]

/-! ## Creation -/

/-- The entries of a creation that comes to an end; only the last can be an end marker. -/
theorem alloc_entries {loc : Locals} {tc : trav_control} {dp dp' : inode} {given : Given} {name : CString}
    {isDir : Bool} {off : Nat} (h : fat32_inode_alloc loc tc dp given name isDir = .ok (dp', off)) :
    ∃ fcb_char, 0 < fcb_char.length ∧ (¬ Dots name → fcb_char.length = ordMax name.bytes + 1) ∧ (dp', off) = created dp fcb_char fcb_char.length ∧
      ∀ j < fcb_char.length, (NAME0_FREE_ALL (chr (fcb_char.getD j []) 0) = true ↔
        j + 1 = fcb_char.length ∧ NulFirst loc name isDir) := by
  by_cases hdots : Dots name
  · have hinit := @fcb_init_dots loc dp given name isDir hdots
    rw [alloc_eq tc hinit ⟨dp.off_hint, rfl⟩, if_neg (by decide)] at h
    refine ⟨[(dotEntry given name isDir).bytes], by simp, fun hn => absurd hdots hn,
      (Except.ok.inj h).symm, fun j hj => ?_⟩
    have hne : name.bytes ≠ [] := by
      rcases hdots with h | h
      · simp [h]
      · simp [h]
    have hfirst : chr (dotEntry given name isDir).bytes 0 = 0x2E := by
      rcases hdots with h | h
      · simp [dotEntry, dirent_s_t.bytes, h, chr]
      · simp [dotEntry, dirent_s_t.bytes, h, chr]
    obtain rfl : j = 0 := by simpa using hj
    have hat : ([(dotEntry given name isDir).bytes] : List (List UInt8)).getD 0 [] = (dotEntry given name isDir).bytes :=
      rfl
    rw [hat, hfirst]
    simp [NulFirst, hne, hdots, NAME0_FREE_ALL]
  · obtain ⟨n, hname, hord, hcreated⟩ := alloc_ok hdots h
    have hlen : (fcbs given name.bytes isDir n).length = ordMax name.bytes + 1 := fcbs_length ..
    refine ⟨fcbs given name.bytes isDir n, by omega, fun _ => hlen, by rw [hlen]; exact hcreated,
      fun j hj => ?_⟩
    have hn := shortName_length hname
    have hlongs : ((longs name.bytes n).map dirent_l_t.bytes).length = ordMax name.bytes := by simp [longs]
    rcases lt_or_ge j (ordMax name.bytes) with hlong | hlast
    · have hget : (fcbs given name.bytes isDir n).getD j [] ∈ (longs name.bytes n).map dirent_l_t.bytes := by
        rw [fcbs, List.getD_append _ _ _ _ (by omega), List.getD_eq_getElem _ _ (by omega)]
        exact List.getElem_mem _
      obtain ⟨e, he, heq⟩ := List.mem_map.mp hget
      have hpushed := longEntries_pushed name.bytes (ChkSum n) (Nat.le_refl 1)
        (show 1 + ordMax name.bytes ≤ 21 by omega) e (List.mem_reverse.mp he)
      have hchr : chr e.bytes 0 = e.LDIR_Ord := rfl
      rw [← heq, hchr]
      simp only [NAME0_FREE_ALL, beq_iff_eq, hpushed.not_free.1, false_iff]
      omega
    · obtain rfl : j = ordMax name.bytes := by omega
      have hget : (fcbs given name.bytes isDir n).getD (ordMax name.bytes) [] = (shortEntry given isDir n).bytes := by
        rw [fcbs, List.getD_append_right _ _ _ _ (Nat.le_of_eq hlongs), hlongs, Nat.sub_self]
        rfl
      obtain ⟨c, cs, rfl⟩ := List.exists_cons_of_length_eq_add_one hn
      have hchr : chr (shortEntry given isDir (c :: cs)).bytes 0 = chr (c :: cs) 0 := rfl
      rw [hget, hchr, hlen]
      simp only [NAME0_FREE_ALL, beq_iff_eq, shortName_first hdots hname, true_and]

/-- A creation after which files are hidden: its short entry begins with NUL, and a file lies behind a long enough run
of free entries. -/
def Hides (loc : Locals) (dp : inode) (name : CString) (isDir : Bool) : Prop :=
  NulFirst loc name isDir ∧ ∃ p i, FreeRun dp.entries (ordMax name.bytes + 1) p ∧ p + ordMax name.bytes < i ∧
    Live dp.entries i

theorem alloc_keeps {loc : Locals} {tc : trav_control} {dp dp' : inode} {given : Given} {name : CString}
    {isDir : Bool} {off : Nat} (h : fat32_inode_alloc loc tc dp given name isDir = .ok (dp', off)) :
    (∀ i, Live dp.entries i → entryAt dp' i = entryAt dp i) ∧
      ((∀ i, Live dp.entries i → Live dp'.entries i) ↔ ¬ Hides loc dp name isDir) := by
  obtain ⟨fcb_char, hpos, hlen, hcreated, hends⟩ := alloc_entries h
  have hslot := insert_offset_slot dp hpos
  have hentries : dp'.entries =
      (fat32_inode_write dp (Dir.fat32_dir_fcb_insert_offset dp fcb_char.length) fcb_char).entries := by
    rw [(Prod.mk.inj hcreated).1]
  have hkeeps := write_keeps_iff hslot
  rw [← hentries] at hkeeps
  have hcnt : NulFirst loc name isDir → fcb_char.length = ordMax name.bytes + 1 := by
    intro hnul
    rcases hnul with hnil | ⟨-, hdots, -⟩
    · exact hlen fun h => h.elim (fun h => absurd (hnil ▸ h) (by simp)) fun h => absurd (hnil ▸ h) (by simp)
    · exact hlen hdots
  refine ⟨fun i hi => ?_, ?_, ?_⟩
  · rw [entryAt, hentries]
    exact write_spares hslot hi.1
  · rintro hreach ⟨hnul, p, i, hrun, hbehind, hlive⟩
    have hcount := hcnt hnul
    rw [← hcount] at hrun
    have hfirst := hslot.first p hrun
    exact hkeeps.mp hreach (ordMax name.bytes) (by omega) ((hends _ (by omega)).mpr ⟨hcount.symm, hnul⟩) i (by omega)
      hlive
  · intro hnot
    refine hkeeps.mpr fun j hj hend i hi hlive => hnot ?_
    obtain ⟨hlast, hnul⟩ := (hends j hj).mp hend
    have hcount := hcnt hnul
    have hin := hlive.lt
    exact ⟨hnul, _, i, ⟨by omega, fun k hk hk' => hslot.free k hk (by omega)⟩, by omega, hlive⟩

/-- What is asked of the place for `req` entries, and of a creation that led to `dp'`. -/
structure Safe (tc : trav_control) (req : Nat) (dp dp' : inode) : Prop where
  place : Slot dp.entries req (fat32_dir_fcb_insert_offset tc dp req).2
  spared : ∀ i, Live dp.entries i → entryAt dp' i = entryAt dp i
  reachable : ∀ i, Live dp.entries i → Live dp'.entries i

/-- **The place for a new file** covers no entry in use, is at most the end, and is the first there is; a creation
writes over no file, and hides none unless its short entry begins with NUL and a file lies behind. -/
theorem insertion_safe_iff {loc : Locals} {tc : trav_control} {dp dp' : inode} {given : Given} {name : CString}
    {isDir : Bool} {off req : Nat} (hreq : 1 ≤ req)
    (h : fat32_inode_alloc loc tc dp given name isDir = .ok (dp', off)) :
    Safe tc req dp dp' ↔ ¬ Hides loc dp name isDir := by
  obtain ⟨hspared, hreach⟩ := alloc_keeps h
  constructor
  · intro hsafe
    exact hreach.mp hsafe.reachable
  intro hnot
  refine ⟨?_, hspared, hreach.mpr hnot⟩
  rw [insert_offset_value]
  exact insert_offset_slot dp hreq

/-- Two deleted entries, and a file behind them. -/
def gapDir : inode := ⟨4096, [freeFcb, freeFcb, 0x42 :: List.replicate 31 0x20], none, 0⟩

theorem gapDir_live : Live gapDir.entries 2 := ⟨by decide, by decide⟩

/-- The names `ab` and `.a`. -/
def ab : CString := ⟨[0x61, 0x62], by decide⟩

def dot_a : CString := ⟨[0x2E, 0x61], by decide⟩

theorem alloc_gap (name : CString) (n : List UInt8) (hdots : ¬ Dots name) (hord : ordMax name.bytes ≤ 20)
    (hname : (shortName nuls gapDir name false).map Prod.snd = some n) :
    ∃ dp' off, fat32_inode_alloc nuls nuls.tc gapDir ⟨0, 2, 5⟩ name false = .ok (dp', off) :=
  ⟨_, _, alloc_named nuls.tc ⟨0, 2, 5⟩ hdots hord hname⟩

/-- A creation in the gap that hides nothing. -/
theorem insertion_safe_gap : ∃ dp' off, fat32_inode_alloc nuls nuls.tc gapDir ⟨0, 2, 5⟩ ab false = .ok (dp', off) ∧
    Safe nuls.tc 2 gapDir dp' := by
  obtain ⟨dp', off, halloc⟩ := alloc_gap ab [0x41, 0x42, 0, 0, 0, 0, 0, 0, 0x20, 0x20, 0x20]
    (fun h => h.elim (fun h => absurd h (by decide)) fun h => absurd h (by decide)) (by decide) (by decide +kernel)
  refine ⟨dp', off, halloc, (insertion_safe_iff (by decide) halloc).mpr ?_⟩
  rintro ⟨hnul, -⟩
  rcases hnul with hnil | ⟨-, -, hdot, -⟩
  · exact absurd hnil (by decide)
  · exact absurd hdot (by decide)

/-- With a NUL on the stack, the short entry of `.a` is an end marker in front of the file. -/
theorem dot_a_hides : ∃ dp' off, fat32_inode_alloc nuls nuls.tc gapDir ⟨0, 2, 5⟩ dot_a false = .ok (dp', off) ∧
    ¬ Safe nuls.tc 2 gapDir dp' := by
  have hdots : ¬ Dots dot_a := fun h => h.elim (fun h => absurd h (by decide)) fun h => absurd h (by decide)
  obtain ⟨dp', off, halloc⟩ := alloc_gap dot_a [0, 0, 0, 0, 0, 0, 0, 0, 0x41, 0x20, 0x20] hdots (by decide)
    (by decide +kernel)
  refine ⟨dp', off, halloc, fun hsafe => (alloc_keeps halloc).2.mp hsafe.reachable ?_⟩
  refine ⟨.inr ⟨rfl, hdots, rfl, rfl⟩, 0, 2, ⟨by decide, ?_⟩, by decide, gapDir_live⟩
  intro i _ hi
  have h2 : i < 2 := hi
  rcases i with _ | _ | i
  · rfl
  · rfl
  · omega

end LostWakeup.Fs.Fat32.InsertPoint
