/-
# LostWakeup.Fs.Vfs.Namex — path resolution: `skepelem` and `inode_namex`.

The code takes a path apart on the fly and treats a component by its first one or two characters; a path that starts
with `..` moves to the parent before its first component is read.  `resolve` is the meaning of a path by its list of
components, and `Plain` the condition under which the two agree in every directory tree.

A path is a list of characters; `lookup` is the answer of `fat32_inode_dirlookup` in a directory.
-/
import Mathlib.Data.UInt
import Mathlib.Data.List.Basic
import Mathlib.Data.List.TakeWhile
import Mathlib.Data.Fin.Basic

namespace LostWakeup.Fs.Vfs

open List (foldlM_cons length_cons replicate)

/-! ## Paths -/

abbrev Name : Type := List UInt8

def slash : UInt8 := 0x2F
def dot : UInt8 := 0x2E

def MAXPATH : Nat := 128

/-- `strncmp(s, t, n) == 0`. -/
def strncmp (s t : Name) (n : Nat) : Bool := s.take n == t.take n

/-- `skepelem`: the next component and the rest of the path. -/
def skepelem (path : Name) : Option (Name × Name) :=
  let path := path.dropWhile (· == slash)
  if path = [] then
    none
  else
    let name := path.takeWhile (· != slash)
    let path := path.dropWhile (· != slash)
    some (name.take MAXPATH, path.dropWhile (· == slash))

/-! ## Directory trees -/

/-- A directory tree with inodes in `ι`. -/
structure Tree (ι : Type) where
  root : ι
  parent : ι → ι
  isDir : ι → Bool
  lookup : ι → Name → Option ι
  parent_root : parent root = root
  parent_of_lookup : ∀ d n c, lookup d n = some c → parent c = d

variable {ι : Type}

/-- The inode a component leads to. -/
def nextInode (t : Tree ι) (ip : ι) (name : Name) : Option ι :=
  if strncmp name [dot, dot] 2 then some (t.parent ip)
  else if strncmp name [dot] 1 then some ip
  else t.lookup ip name

/-- The loop of `inode_namex`; `name` is the caller's buffer. -/
def namexLoop (t : Tree ι) (nameeparent : Bool) : Nat → ι → Name → Name → Option (ι × Name)
  | 0, _, _, _ => none
  | fuel + 1, ip, name, path =>
    match skepelem path with
    | none => if nameeparent then none else some (ip, name)
    | some (name, path) =>
      if !t.isDir ip then none
      else if nameeparent ∧ path = [] then some (ip, name)
      else
        match nextInode t ip name with
        | none => none
        | some next => namexLoop t nameeparent fuel next name path

/-- `inode_namex`: the inode and what it leaves in the name buffer. -/
def inode_namex (t : Tree ι) (cwd : ι) (path : Name) (nameeparent : Bool) : Option (ι × Name) :=
  let ip :=
    if path.head? = some slash then t.root
    else if strncmp path [dot, dot] 2 then t.parent cwd
    else cwd
  namexLoop t nameeparent (path.length + 1) ip [] path

def namei (t : Tree ι) (cwd : ι) (path : Name) : Option ι := (inode_namex t cwd path false).map Prod.fst

def namei_parent (t : Tree ι) (cwd : ι) (path : Name) : Option (ι × Name) := inode_namex t cwd path true

/-! ## The meaning of a path -/

/-- The components of a path. -/
def components (path : Name) : List Name := (path.splitOn slash).filter (· ≠ [])

/-- One component, from a directory. -/
def enter (t : Tree ι) (ip : ι) (c : Name) : Option ι :=
  if t.isDir ip = false then none
  else if c = [dot] then some ip
  else if c = [dot, dot] then some (t.parent ip)
  else t.lookup ip c

def resolve (t : Tree ι) (ip : ι) (cs : List Name) : Option ι := cs.foldlM (enter t) ip

def start (t : Tree ι) (cwd : ι) (path : Name) : ι := if path.head? = some slash then t.root else cwd

/-- What `namei` is to return. -/
def pathInode (t : Tree ι) (cwd : ι) (path : Name) : Option ι :=
  resolve t (start t cwd path) (components path)

/-- What `namei_parent` is to return: the directory of the last component, and that component. -/
def pathParent (t : Tree ι) (cwd : ι) (path : Name) : Option (ι × Name) := do
  let last ← (components path).getLast?
  let ip ← resolve t (start t cwd path) (components path).dropLast
  if t.isDir ip then some (ip, last) else none

/-! ## Components one by one -/

theorem components_slash (path : Name) : components (slash :: path) = components path := by
  have h : ([] ++ slash :: path).splitOn slash = [] :: path.splitOn slash :=
    List.splitOn_append_cons_self_of_not_mem (by simp) path
  rw [List.nil_append] at h
  simp [components, h]

theorem components_dropWhile (path : Name) : components (path.dropWhile (· == slash)) = components path := by
  induction path with
  | nil => rfl
  | cons c path ih =>
    by_cases hc : c = slash
    · subst hc
      rw [List.dropWhile_cons_of_pos (by simp), ih, components_slash]
    · rw [List.dropWhile_cons_of_neg (by simpa using hc)]

/-- The first component of a path that does not start with a slash. -/
theorem components_name {path : Name} (hne : path ≠ []) (hhead : path.head? ≠ some slash) :
    components path = path.takeWhile (· != slash) ::
      components ((path.dropWhile (· != slash)).dropWhile (· == slash)) := by
  have hs : slash ∉ path.takeWhile (· != slash) := fun h => by simpa using List.mem_takeWhile_imp h
  have hs0 : path.takeWhile (· != slash) ≠ [] := by
    obtain ⟨c, cs, rfl⟩ := List.exists_cons_of_ne_nil hne
    have hc : (c != slash) = true := by simpa using hhead
    simp [hc]
  rw [components_dropWhile]
  nth_rewrite 1 [← List.takeWhile_append_dropWhile (p := (· != slash)) (l := path)]
  generalize path.takeWhile (· != slash) = s at hs hs0
  cases hr : path.dropWhile (· != slash) with
  | nil => simp [components, List.splitOn_eq_singleton hs, hs0]
  | cons c r =>
    -- what stops the component is a slash
    have hc : c = slash := by
      have := List.head?_dropWhile_not (· != slash) path
      rw [hr] at this
      simpa using this
    subst hc
    rw [components_slash]
    simp [components, List.splitOn_append_cons_self_of_not_mem hs, hs0]

theorem components_eq_nil_iff {path : Name} (hhead : path.head? ≠ some slash) :
    components path = [] ↔ path = [] := by
  constructor
  · intro h
    by_contra hne
    rw [components_name hne hhead] at h
    cases h
  · rintro rfl
    rfl

theorem head_dropWhile_ne (path : Name) : (path.dropWhile (· == slash)).head? ≠ some slash := by
  intro h
  have := List.head?_dropWhile_not (· == slash) path
  rw [h] at this
  simp at this

theorem skepelem_none {path : Name} (h : skepelem path = none) : components path = [] := by
  rw [← components_dropWhile]
  simp only [skepelem] at h
  split at h
  · next hnil =>
    rw [hnil]
    rfl
  · cases h

theorem skepelem_some {path name rest : Name} (hlen : path.length < MAXPATH)
    (h : skepelem path = some (name, rest)) :
    components path = name :: components rest ∧ (rest = [] ↔ components rest = []) ∧
      rest.length < path.length := by
  unfold skepelem at h
  have hle := List.length_dropWhile_le (· == slash) path
  rw [← components_dropWhile]
  have hhead := head_dropWhile_ne path
  generalize path.dropWhile (· == slash) = p at *
  simp only at h
  split at h
  · cases h
  · next hne =>
    have htake : (p.takeWhile (· != slash)).take MAXPATH = p.takeWhile (· != slash) := by
      apply List.take_of_length_le
      have := (List.takeWhile_prefix (· != slash) (l := p)).length_le
      omega
    rw [htake] at h
    cases h
    refine ⟨components_name hne hhead, (components_eq_nil_iff (head_dropWhile_ne _)).symm, ?_⟩
    have h1 := List.length_dropWhile_le (· == slash) (p.dropWhile (· != slash))
    obtain ⟨c, cs, rfl⟩ := List.exists_cons_of_ne_nil hne
    have hc : (c != slash) = true := by simpa using hhead
    have h2 := List.length_dropWhile_le (· != slash) cs
    simp only [List.dropWhile_cons, hc, if_true, length_cons] at h1 hle ⊢
    omega

theorem components_ne_nil (path : Name) : ∀ c ∈ components path, c ≠ [] := fun c hc => by
  simpa using (List.mem_filter.1 hc).2

/-! ## The loop as a fold over the components -/

/-- One turn of the loop. -/
def turn (t : Tree ι) (ip : ι) (c : Name) : Option ι :=
  if t.isDir ip = false then none else nextInode t ip c

theorem namexLoop_false (t : Tree ι) {fuel : Nat} {path : Name} (hlen : path.length < MAXPATH)
    (hfuel : path.length < fuel) (ip : ι) (name : Name) :
    (namexLoop t false fuel ip name path).map Prod.fst = (components path).foldlM (turn t) ip := by
  induction fuel generalizing path ip name with
  | zero => omega
  | succ fuel ih =>
    rw [namexLoop]
    cases hs : skepelem path with
    | none =>
      rw [skepelem_none hs]
      rfl
    | some r =>
      obtain ⟨c, rest⟩ := r
      obtain ⟨hcs, -, hlt⟩ := skepelem_some hlen hs
      rw [hcs, foldlM_cons]
      cases hd : t.isDir ip with
      | false => simp [turn, hd]
      | true =>
        cases hn : nextInode t ip c with
        | none => simp [turn, hd, hn]
        | some next => simpa [turn, hd, hn] using ih (by omega) (by omega) next c

theorem namexLoop_true (t : Tree ι) {fuel : Nat} {path : Name} (hlen : path.length < MAXPATH)
    (hfuel : path.length < fuel) (ip : ι) (name : Name) :
    namexLoop t true fuel ip name path = (do
      let last ← (components path).getLast?
      let ip ← (components path).dropLast.foldlM (turn t) ip
      if t.isDir ip then some (ip, last) else none) := by
  induction fuel generalizing path ip name with
  | zero => omega
  | succ fuel ih =>
    rw [namexLoop]
    cases hs : skepelem path with
    | none =>
      rw [skepelem_none hs]
      rfl
    | some r =>
      obtain ⟨c, rest⟩ := r
      obtain ⟨hcs, hnil, hlt⟩ := skepelem_some hlen hs
      rw [hcs]
      rcases eq_or_ne rest [] with hrest | hrest
      · -- the last component
        rw [hnil.1 hrest]
        cases hd : t.isDir ip <;> simp [hd, hrest]
      obtain ⟨d, ds, hds⟩ := List.exists_cons_of_ne_nil (fun h => hrest (hnil.2 h))
      have hrec := @ih rest (by omega) (by omega)
      cases hd : t.isDir ip with
      | false => simp [hds, turn, hd]
      | true =>
        cases hn : nextInode t ip c with
        | none => simp [hds, turn, hd, hn, hrest]
        | some next =>
          have := hrec next c
          rw [hds] at this ⊢
          simpa [turn, hd, hn, hrest] using this

/-! ## Plain paths -/

/-- A path that does not start with `..`, and components of it that start with a dot only if they are
`.` or `..`. -/
structure Plain (path : Name) (cs : List Name) : Prop where
  start : strncmp path [dot, dot] 2 = false
  dots : ∀ c ∈ cs, c.head? = some dot → c = [dot] ∨ c = [dot, dot]

theorem turn_eq_enter (t : Tree ι) (ip : ι) {c : Name} (hne : c ≠ [])
    (hc : c.head? = some dot → c = [dot] ∨ c = [dot, dot]) : turn t ip c = enter t ip c := by
  obtain ⟨a, as, rfl⟩ := List.exists_cons_of_ne_nil hne
  unfold turn enter nextInode
  congr 1
  by_cases ha : a = dot
  · rcases hc (by simp [ha]) with h | h
    · simp [h, strncmp]
    · simp [h, strncmp]
  · simp [strncmp, ha]

theorem foldlM_congr {f g : ι → Name → Option ι} {cs : List Name} (h : ∀ c ∈ cs, ∀ ip, f ip c = g ip c)
    (ip : ι) : cs.foldlM f ip = cs.foldlM g ip := by
  induction cs generalizing ip with
  | nil => rfl
  | cons c cs ih =>
    rw [foldlM_cons, foldlM_cons, h c (.head cs) ip]
    congr 1
    funext ip'
    exact ih (fun d hd => h d (.tail c hd)) ip'

theorem foldlM_turn (t : Tree ι) {path : Name} {cs : List Name} (hne : ∀ c ∈ cs, c ≠ []) (h : Plain path cs)
    (ip : ι) : cs.foldlM (turn t) ip = resolve t ip cs :=
  foldlM_congr (fun c hc ip => turn_eq_enter t ip (hne c hc) (h.dots c hc)) ip

/-- Where the loop starts. -/
def loopStart (t : Tree ι) (cwd : ι) (path : Name) : ι :=
  if path.head? = some slash then t.root
  else if strncmp path [dot, dot] 2 then t.parent cwd
  else cwd

theorem namei_eq (t : Tree ι) (cwd : ι) {path : Name} (hlen : path.length < MAXPATH) :
    namei t cwd path = (components path).foldlM (turn t) (loopStart t cwd path) :=
  namexLoop_false t hlen (Nat.lt_succ_self _) _ _

theorem namei_parent_eq (t : Tree ι) (cwd : ι) {path : Name} (hlen : path.length < MAXPATH) :
    namei_parent t cwd path = (do
      let last ← (components path).getLast?
      let ip ← (components path).dropLast.foldlM (turn t) (loopStart t cwd path)
      if t.isDir ip then some (ip, last) else none) :=
  namexLoop_true t hlen (Nat.lt_succ_self _) _ _

theorem loopStart_eq (t : Tree ι) (cwd : ι) {path : Name} (h : strncmp path [dot, dot] 2 = false) :
    loopStart t cwd path = start t cwd path := by
  simp [loopStart, start, h]

/-! ## A tree that tells the others apart -/

/-- Every name that does not start with a dot exists in every directory, and no other. -/
def fullTree : Tree (List Name) where
  root := []
  parent := List.tail
  isDir _ := true
  lookup d n := if n.head? = some dot then none else some (n :: d)
  parent_root := rfl
  parent_of_lookup d n c h := by
    split at h
    · cases h
    · cases h
      rfl

@[simp] theorem fullTree_isDir (d : List Name) : fullTree.isDir d = true := rfl

theorem fullTree_turn_some (cs : List Name) (d : List Name) : ∃ e, cs.foldlM (turn fullTree) d = some e := by
  induction cs generalizing d with
  | nil => exact ⟨d, rfl⟩
  | cons c cs ih =>
    have hnext : ∃ e, turn fullTree d c = some e := by
      simp only [turn, nextInode, fullTree, Bool.true_eq_false, if_false]
      by_cases h2 : strncmp c [dot, dot] 2
      · simp [h2]
      by_cases h1 : strncmp c [dot] 1
      · simp [h2, h1]
      have hdot : c.head? ≠ some dot := by
        rintro h
        obtain ⟨as, rfl⟩ := List.head?_eq_some_iff.1 h
        simp [strncmp] at h1
      simp [h2, h1, hdot]
    obtain ⟨e, he⟩ := hnext
    rw [foldlM_cons, he]
    exact ih e

theorem fullTree_resolve_none {cs : List Name} {c : Name} (hc : c ∈ cs) (hdot : c.head? = some dot)
    (h1 : c ≠ [dot]) (h2 : c ≠ [dot, dot]) (d : List Name) : resolve fullTree d cs = none := by
  unfold resolve
  induction cs generalizing d with
  | nil => cases hc
  | cons b cs ih =>
    rw [foldlM_cons]
    rcases List.mem_cons.1 hc with rfl | hc
    · simp [enter, fullTree, h1, h2, hdot]
    · cases he : enter fullTree d b with
      | none => rfl
      | some e => exact ih hc e

/-- Two directories one level apart lead to different places, if they are deep enough. -/
theorem fullTree_levels {cs : List Name} (hcs : ∀ c ∈ cs, c.head? = some dot → c = [dot] ∨ c = [dot, dot])
    {d e : List Name} (hlen : e.length + 1 = d.length) (hdeep : cs.length ≤ e.length) :
    resolve fullTree e cs ≠ resolve fullTree d cs := by
  unfold resolve
  induction cs generalizing d e with
  | nil =>
    intro h
    cases h
    omega
  | cons c cs ih =>
    rw [length_cons] at hdeep
    have hrest := @ih fun b hb => hcs b (.tail c hb)
    rw [foldlM_cons, foldlM_cons]
    by_cases hdot : c.head? = some dot
    · rcases hcs c (.head cs) hdot with rfl | rfl
      · simpa [enter, fullTree] using hrest hlen (by omega)
      · simpa [enter, fullTree] using
          @hrest d.tail e.tail (by rw [List.length_tail, List.length_tail]; omega)
            (by rw [List.length_tail]; omega)
    · have hc1 : c ≠ [dot] := by rintro rfl; exact hdot rfl
      have hc2 : c ≠ [dot, dot] := by rintro rfl; exact hdot rfl
      simpa [enter, fullTree, hdot, hc1, hc2] using
        @hrest (c :: d) (c :: e) (by rw [length_cons, length_cons, hlen])
          (by rw [length_cons]; omega)

theorem head_of_dots {path : Name} (h : strncmp path [dot, dot] 2 = true) : path.head? ≠ some slash := by
  intro hslash
  obtain ⟨as, rfl⟩ := List.head?_eq_some_iff.1 hslash
  simp [strncmp, slash, dot] at h

/-- Agreement in the full tree makes a path plain. -/
theorem plain_of_agree {path : Name} {cs : List Name} (hne : ∀ c ∈ cs, c ≠ [])
    (h : ∀ cwd, cs.foldlM (turn fullTree) (loopStart fullTree cwd path) =
      resolve fullTree (start fullTree cwd path) cs) : Plain path cs := by
  have hdots : ∀ c ∈ cs, c.head? = some dot → c = [dot] ∨ c = [dot, dot] := by
    intro c hc hdot
    by_contra hbad
    rw [not_or] at hbad
    have hnone := h []
    rw [fullTree_resolve_none hc hdot hbad.1 hbad.2] at hnone
    obtain ⟨e, he⟩ := fullTree_turn_some cs (loopStart fullTree [] path)
    rw [he] at hnone
    cases hnone
  refine ⟨?_, hdots⟩
  by_contra hstart
  rw [Bool.not_eq_false] at hstart
  -- a working directory deep enough for the whole path
  have hagree := h (replicate (cs.length + 1) [])
  rw [foldlM_congr fun c hc ip => turn_eq_enter fullTree ip (hne c hc) (hdots c hc)] at hagree
  have hs : start fullTree (replicate (cs.length + 1) []) path = replicate (cs.length + 1) [] :=
    if_neg (head_of_dots hstart)
  have hl : loopStart fullTree (replicate (cs.length + 1) []) path = replicate cs.length [] := by
    simp [loopStart, head_of_dots hstart, hstart, fullTree]
  rw [hs, hl] at hagree
  exact fullTree_levels hdots (by simp) (by simp) hagree

theorem pathParent_eq (t : Tree ι) (cwd : ι) (path : Name) : pathParent t cwd path = (do
    let last ← (components path).getLast?
    let ip ← resolve t (start t cwd path) (components path).dropLast
    if t.isDir ip then some (ip, last) else none) := rfl

/-- **Path resolution is componentwise exactly on plain paths.**  The first half is about `namei`, the
second about `namei_parent`, which does not look at the last component. -/
theorem namex_resolves_iff {path : Name} (hlen : path.length < MAXPATH) :
    ((∀ (ι : Type) (t : Tree ι) (cwd : ι), namei t cwd path = pathInode t cwd path) ↔
      Plain path (components path)) ∧
    ((∀ (ι : Type) (t : Tree ι) (cwd : ι), namei_parent t cwd path = pathParent t cwd path) ↔
      Plain path (components path).dropLast) := by
  have hne : ∀ c ∈ (components path).dropLast, c ≠ [] := fun c hc =>
    components_ne_nil path c (List.mem_of_mem_dropLast hc)
  refine ⟨⟨fun h => ?_, fun h ι t cwd => ?_⟩, ⟨fun h => ?_, fun h ι t cwd => ?_⟩⟩
  · apply plain_of_agree (components_ne_nil path)
    intro cwd
    have := h _ fullTree cwd
    rwa [namei_eq _ _ hlen] at this
  · rw [namei_eq t cwd hlen, loopStart_eq t cwd h.start, foldlM_turn t (components_ne_nil path) h]
    rfl
  · apply plain_of_agree hne
    intro cwd
    have hagree := h _ fullTree cwd
    rw [namei_parent_eq _ _ hlen, pathParent_eq] at hagree
    cases hlast : (components path).getLast? with
    | none =>
      rw [List.getLast?_eq_none_iff] at hlast
      have hstart : strncmp path [dot, dot] 2 = false := by
        by_contra hdots
        rw [Bool.not_eq_false] at hdots
        rw [components_eq_nil_iff (head_of_dots hdots)] at hlast
        simp [hlast, strncmp] at hdots
      rw [hlast, loopStart_eq fullTree cwd hstart]
      rfl
    | some last =>
      rw [hlast] at hagree
      obtain ⟨e, he⟩ := fullTree_turn_some (components path).dropLast (loopStart fullTree cwd path)
      rw [he] at hagree ⊢
      cases hr : resolve fullTree (start fullTree cwd path) (components path).dropLast with
      | none => simp [hr] at hagree
      | some e' => simpa [hr] using hagree
  · rw [namei_parent_eq t cwd hlen, pathParent_eq, loopStart_eq t cwd h.start, foldlM_turn t hne h]

/-- A root with one directory `a`, which has one directory `b`. -/
def twoLevels : Tree (Fin 3) where
  root := 0
  parent d := if d = 2 then 1 else 0
  isDir _ := true
  lookup d n := if d = 0 ∧ n = [0x61] then some 1 else if d = 1 ∧ n = [0x62] then some 2 else none
  parent_root := rfl
  parent_of_lookup d n c h := by
    split at h
    · next hd =>
      cases h
      rw [hd.1]
      rfl
    · split at h
      · next hd =>
        cases h
        rw [hd.1]
        rfl
      · cases h

/-- A path of two slashes, a dot and a name. -/
theorem namex_resolves_iff_plain :
    namei twoLevels 1 [slash, slash, dot, slash, 0x61] = pathInode twoLevels 1 [slash, slash, dot, slash, 0x61] :=
  (namex_resolves_iff (by decide)).1.2 ⟨by decide, by decide⟩ _ twoLevels 1

/-- From `/a/b`, the path `../b` leads nowhere. -/
theorem namei_goes_up_twice : namei twoLevels 2 [dot, dot, slash, 0x62] = none ∧
    pathInode twoLevels 2 [dot, dot, slash, 0x62] = some 2 := by
  decide

/-! ## Paths in two parts -/

theorem components_append (p q : Name) : components (p ++ slash :: q) = components p ++ components q := by
  rw [components, List.splitOn, List.splitOnP_append_cons (p := (· == slash)) _ _ (beq_self_eq_true slash), List.filter_append]
  rfl

theorem loopStart_append (t : Tree ι) (cwd : ι) {p : Name} (hp : p ≠ []) (q : Name) :
    loopStart t cwd (p ++ slash :: q) = loopStart t cwd p := by
  obtain ⟨a, as, rfl⟩ := List.exists_cons_of_ne_nil hp
  rcases as with _ | ⟨b, as⟩
  · simp [loopStart, strncmp, slash, dot]
  · simp [loopStart, strncmp]

/-- **Path resolution composes**: `p/q` leads where `q` leads from where `p` leads, if `q` is relative and does not start
with `..`, which the code takes before it looks at the directory. -/
theorem namei_append (t : Tree ι) (cwd : ι) {p q : Name} (hp : p ≠ []) (hq : q.head? ≠ some slash)
    (hdots : strncmp q [dot, dot] 2 = false) (hlen : (p ++ slash :: q).length < MAXPATH) :
    namei t cwd (p ++ slash :: q) = (namei t cwd p).bind fun d => namei t d q := by
  have hsum := hlen
  rw [List.length_append, length_cons] at hsum
  have hstart : ∀ d, loopStart t d q = d := fun d => by rw [loopStart_eq t d hdots, start, if_neg hq]
  rw [namei_eq t cwd hlen, namei_eq t cwd (by omega), components_append, List.foldlM_append, loopStart_append t cwd hp]
  simp only [namei_eq t _ (show q.length < MAXPATH by omega), hstart]
  rfl

theorem namei_append_full : namei fullTree [] [0x61, slash, 0x62] = some [[0x62], [0x61]] :=
  (namei_append fullTree [] (p := [0x61]) (q := [0x62]) (by decide) (by decide) (by decide) (by decide)).trans (by decide)

/-- **The two lookups agree**: `namei` is `namei_parent`, and the last component from the directory that it returns. -/
theorem namei_eq_parent (t : Tree ι) (cwd : ι) {path : Name} (hne : components path ≠ []) (hlen : path.length < MAXPATH) :
    namei t cwd path = (namei_parent t cwd path).bind fun r => nextInode t r.1 r.2 := by
  rw [namei_eq t cwd hlen, namei_parent_eq t cwd hlen, List.getLast?_eq_some_getLast hne]
  nth_rewrite 1 [← List.dropLast_append_getLast hne]
  rw [List.foldlM_append, Option.bind_eq_bind, Option.bind_eq_bind]
  cases (components path).dropLast.foldlM (turn t) (loopStart t cwd path) with
  | none => rfl
  | some ip => cases hd : t.isDir ip <;> simp [turn, hd]

theorem namei_eq_parent_slashes : namei fullTree [[0x61]] [0x62, slash, slash] =
    (namei_parent fullTree [[0x61]] [0x62, slash, slash]).bind fun r => nextInode fullTree r.1 r.2 :=
  @namei_eq_parent _ fullTree [[0x61]] [0x62, slash, slash] (by decide) (by decide)

end LostWakeup.Fs.Vfs
