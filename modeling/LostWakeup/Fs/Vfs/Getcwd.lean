/-
# LostWakeup.Fs.Vfs.Getcwd — `get_absolute_path` and `sys_getcwd`: the way from a directory to its path.

The path is built in a buffer of `MAXPATH` bytes from the names on the way to the root, by functions that do not know the
buffer's size; what comes out is copied to the user without a look at his.  `getcwd_iff` says when the path comes out
whole, leads back to the directory, and fits.

An access past the end of the buffer has no outcome.  Directories that are removed or renamed are left out.
-/
import LostWakeup.Fs.Vfs.Namex
import LostWakeup.Lib.Strings

namespace LostWakeup.Fs.Vfs.Getcwd

open Lib.Strings (strlen strlen_append strncpy safestrcpy store copied_full)
open List (append_assoc cons_ne_nil flatMap_cons length_append length_singleton mem_cons_of_mem not_mem_nil replicate
  replicate_succ)

/-! ## The code -/

/-- The inodes in memory: each has the name that it was looked up by. -/
structure Cache (ι : Type) extends Tree ι where
  fname : ι → Name
  fname_root : fname root = [slash]
  fname_of_lookup : ∀ d n c, lookup d n = some c → fname c = n

inductive Panic
  /-- Not a panic of the source: memory past the end of the buffer is used. -/
  | overrun
  /-- Not a panic of the source: the recursion has not ended within the given levels. -/
  | no_return
  deriving DecidableEq

/-- What a string function does to the buffer from `n` on. -/
def at_ (n : Nat) (f : Name → Option Name) (buf : Name) : Except Panic Name :=
  match f (buf.drop n) with
  | none => .error .overrun
  | some rest => .ok (buf.take n ++ rest)

def len (buf : Name) : Except Panic Nat :=
  match strlen buf with
  | none => .error .overrun
  | some n => .ok n

section

variable {ι : Type}

def get_absolute_path (c : Cache ι) : Nat → ι → Name → Except Panic Name
  | 0, _, _ => .error .no_return
  | fuel + 1, ip, buf => do
    let buf ← if (c.fname ip).head? ≠ some slash then get_absolute_path c fuel (c.parent ip) buf else .ok buf
    let n0 ← len buf
    let n1 := (c.fname ip).length
    let buf ← at_ n0 (fun s => strncpy s (c.fname ip ++ [0]) n1) buf
    if (c.fname ip).head? ≠ some slash then at_ (n0 + n1) (fun s => safestrcpy s [slash, 0] 2) buf else .ok buf

def assist_getcwd (c : Cache ι) (fuel : Nat) (cwd : ι) (kbuf : Name) : Except Panic Name := do
  let kbuf ← get_absolute_path c fuel cwd kbuf
  let n ← len kbuf
  return if n > 1 then kbuf.set (n - 1) 0 else kbuf

/-- `sys_getcwd`, with the bytes that it hands to the user; `copyout` says whether it can.  The user's size is not used. -/
def sys_getcwd (c : Cache ι) (fuel : Nat) (cwd : ι) (_size : Nat) (copyout : Bool) : Except Panic (Option Name) := do
  let kbuf ← assist_getcwd c fuel cwd (replicate MAXPATH 0)
  -- `strnlen(kbuf, MAXPATH) + 1` bytes
  let n := (kbuf.takeWhile (· != 0)).length + 1
  if copyout then return some (kbuf.take n) else return none

def sys_chdir (t : Tree ι) (cwd : ι) (path : Name) : ι :=
  match namei t cwd path with
  | none => cwd
  | some ip => if t.isDir ip then ip else cwd

/-! ## What is wanted, and when it holds -/

/-- A working directory that calls of `sys_chdir` lead to. -/
def Reached (t : Tree ι) (d : ι) : Prop :=
  ∃ paths : List Name, (∀ path ∈ paths, path.length < MAXPATH ∧ 0 ∉ path) ∧ paths.foldl (sys_chdir t) t.root = d

/-- A path of the directory `d`, from the root. -/
structure PathOf (t : Tree ι) (d : ι) (path : Name) : Prop where
  absolute : path.head? = some slash
  whole : path = [slash] ∨ [] ∉ path.tail.splitOn slash
  leads : ∀ cwd, namei t cwd path = some d

/-- The call fails, or hands out a path of the directory and its NUL, not more than the user's size. -/
def GetcwdLaw (c : Cache ι) (d : ι) (size : Nat) (copyout : Bool) : Prop :=
  ∃ fuel r, sys_getcwd c fuel d size copyout = .ok r ∧
    ∀ bytes, r = some bytes → ∃ path, bytes = path ++ [0] ∧ PathOf c.toTree d path ∧ bytes.length ≤ size

/-- The names on the way from the root. -/
inductive Chain (t : Tree ι) : List Name → ι → Prop
  | root : Chain t [] t.root
  | snoc {ns : List Name} {d e : ι} {n : Name} : Chain t ns d → t.isDir d = true → t.lookup d n = some e →
      n ≠ [] → slash ∉ n → 0 ∉ n → n.head? ≠ some dot → Chain t (ns ++ [n]) e

/-- What `get_absolute_path` makes of the names. -/
def text (ns : List Name) : Name := slash :: ns.flatMap (· ++ [slash])

/-- There is room for the names, a slash behind each, the last NUL and the one that `safestrcpy` writes after it; and
the path and its NUL fit the user's size. -/
def Fits (ns : List Name) (size : Nat) (copyout : Bool) : Prop :=
  (ns = [] ∨ (text ns).length + 2 ≤ MAXPATH) ∧ (copyout = true → max 2 (text ns).length ≤ size)

/-! ## The names on the way -/

variable {t : Tree ι} {d : ι} {ns : List Name}

theorem chain_parent (h : Chain t ns d) : ∃ ns', Chain t ns' (t.parent d) := by
  rcases h with _ | @⟨ns, d', e, n, hd, _, hlookup, _⟩
  · rw [t.parent_root]
    exact ⟨[], .root⟩
  · rw [t.parent_of_lookup d' n d hlookup]
    exact ⟨ns, hd⟩

theorem chain_turn {ip next : ι} {n : Name} (h : Chain t ns ip) (hne : n ≠ []) (hslash : slash ∉ n) (hnul : 0 ∉ n)
    (hturn : turn t ip n = some next) : ∃ ns', Chain t ns' next := by
  unfold turn at hturn
  split at hturn
  · cases hturn
  · next hdir =>
    unfold nextInode at hturn
    split at hturn
    · rw [← Option.some_inj.mp hturn]
      exact chain_parent h
    split at hturn
    · rw [← Option.some_inj.mp hturn]
      exact ⟨ns, h⟩
    · next hdot =>
      refine ⟨ns ++ [n], .snoc h (Bool.not_eq_false _ ▸ hdir) hturn hne hslash hnul fun hhead => ?_⟩
      obtain ⟨as, rfl⟩ := List.head?_eq_some_iff.mp hhead
      exact hdot (by simp [strncmp])

/-- The pieces between the separators are made of the other characters. -/
theorem splitOn_mem {a : UInt8} {path c : Name} (hc : c ∈ path.splitOn a) : a ∉ c ∧ ∀ b ∈ c, b ∈ path := by
  induction path generalizing c with
  | nil =>
    rw [List.splitOn_nil, List.mem_singleton] at hc
    rw [hc]
    exact ⟨not_mem_nil, fun b hb => hb⟩
  | cons x path ih =>
    rw [List.splitOn_cons_eq_if_modifyHead] at hc
    split at hc
    · rcases List.mem_cons.mp hc with rfl | hc
      · exact ⟨not_mem_nil, fun b hb => absurd hb not_mem_nil⟩
      · exact ⟨(ih hc).1, fun b hb => mem_cons_of_mem _ ((ih hc).2 b hb)⟩
    · next hx =>
      rcases hp : path.splitOn a with _ | ⟨head, rest⟩
      · exact absurd hp (List.splitOn_ne_nil a path)
      rw [hp, List.modifyHead_cons] at hc
      rcases List.mem_cons.mp hc with rfl | hc
      · have hhead := @ih head (by rw [hp]; exact List.mem_cons_self)
        refine ⟨fun hmem => ?_, fun b hb => ?_⟩
        · rcases List.mem_cons.mp hmem with heq | hmem
          · exact hx (by simp [heq])
          · exact hhead.1 hmem
        · rcases List.mem_cons.mp hb with rfl | hb
          · exact List.mem_cons_self
          · exact mem_cons_of_mem _ (hhead.2 b hb)
      · have hmem := @ih c (by rw [hp]; exact mem_cons_of_mem _ hc)
        exact ⟨hmem.1, fun b hb => mem_cons_of_mem _ (hmem.2 b hb)⟩

theorem components_mem {path c : Name} (hnul : 0 ∉ path) (hc : c ∈ components path) : c ≠ [] ∧ slash ∉ c ∧ 0 ∉ c := by
  have hmem := splitOn_mem (List.mem_filter.mp hc).1
  exact ⟨components_ne_nil path c hc, hmem.1, fun h => hnul (hmem.2 0 h)⟩

theorem chain_fold {cs : List Name} {ip : ι} (hcs : ∀ c ∈ cs, c ≠ [] ∧ slash ∉ c ∧ 0 ∉ c) (h : Chain t ns ip)
    (hfold : cs.foldlM (turn t) ip = some d) : ∃ ns', Chain t ns' d := by
  induction cs generalizing ns ip with
  | nil =>
    obtain rfl := Option.some_inj.mp hfold
    exact ⟨ns, h⟩
  | cons c cs ih =>
    rw [List.foldlM_cons] at hfold
    obtain ⟨next, hturn, hrest⟩ := Option.bind_eq_some_iff.mp hfold
    obtain ⟨hne, hslash, hnul⟩ := hcs c List.mem_cons_self
    obtain ⟨ns', hnext⟩ := chain_turn h hne hslash hnul hturn
    exact ih (fun c' hc' => hcs c' (mem_cons_of_mem _ hc')) hnext hrest

theorem chain_chdir {cwd : ι} {path : Name} (hlen : path.length < MAXPATH) (hnul : 0 ∉ path) (h : Chain t ns cwd) :
    ∃ ns', Chain t ns' (sys_chdir t cwd path) := by
  unfold sys_chdir
  rcases hfound : namei t cwd path with _ | ip
  · exact ⟨ns, h⟩
  dsimp only
  split
  · rw [namei_eq t cwd hlen] at hfound
    obtain ⟨ns₀, hstart⟩ : ∃ ns₀, Chain t ns₀ (loopStart t cwd path) := by
      unfold loopStart
      split
      · exact ⟨[], .root⟩
      · split
        · exact chain_parent h
        · exact ⟨ns, h⟩
    exact chain_fold (fun c hc => components_mem hnul hc) hstart hfound
  · exact ⟨ns, h⟩

theorem chain_of_reached (h : Reached t d) : ∃ ns, Chain t ns d := by
  obtain ⟨paths, hpaths, hfold⟩ := h
  have hgo : ∀ (paths : List Name) (cwd : ι) (ns : List Name), (∀ path ∈ paths, path.length < MAXPATH ∧ 0 ∉ path) →
      Chain t ns cwd → ∃ ns', Chain t ns' (paths.foldl (sys_chdir t) cwd) := by
    intro paths
    induction paths with
    | nil => exact fun cwd ns _ h => ⟨ns, h⟩
    | cons path paths ih =>
      intro cwd ns hall h
      rw [List.forall_mem_cons] at hall
      obtain ⟨ns', hnext⟩ := chain_chdir hall.1.1 hall.1.2 h
      exact ih _ ns' hall.2 hnext
  obtain ⟨ns, hchain⟩ := hgo paths t.root [] hpaths .root
  rw [hfold] at hchain
  exact ⟨ns, hchain⟩

/-! ## The buffer -/

theorem text_snoc (ns : List Name) (n : Name) : text (ns ++ [n]) = text ns ++ n ++ [slash] := by
  simp [text]

theorem text_nul_free (h : Chain t ns d) : 0 ∉ text ns := by
  induction h with
  | root => decide
  | @snoc ns d e n _ _ _ _ _ hnul _ ih =>
    rw [text_snoc, append_assoc, List.mem_append, List.mem_append, List.mem_singleton]
    exact not_or.mpr ⟨ih, not_or.mpr ⟨hnul, by decide⟩⟩

theorem text_pos (ns : List Name) : 0 < (text ns).length := Nat.succ_pos _

theorem at_some {p s rest : Name} {f : Name → Option Name} (h : f s = some rest) :
    at_ p.length f (p ++ s) = .ok (p ++ rest) := by
  rw [at_, List.drop_left, List.take_left, h]

theorem at_none {p s : Name} {f : Name → Option Name} (h : f s = none) : at_ p.length f (p ++ s) = .error .overrun := by
  rw [at_, List.drop_left, h]

theorem len_clean {p : Name} (hp : 0 ∉ p) {k : Nat} (hk : 0 < k) : len (p ++ replicate k 0) = .ok p.length := by
  obtain ⟨k, rfl⟩ := Nat.exists_eq_succ_of_ne_zero (Nat.pos_iff_ne_zero.mp hk)
  rw [len, replicate_succ, strlen_append hp]

theorem store_zeros (bytes : Name) (k : Nat) :
    store (replicate k 0) bytes =
      if bytes.length ≤ k then some (bytes ++ replicate (k - bytes.length) 0) else none := by
  rw [store, List.length_replicate, List.drop_replicate]

theorem name_copied {n : Name} (hn : 0 ∉ n) (k : Nat) :
    strncpy (replicate k 0) (n ++ [0]) n.length =
      if n.length ≤ k then some (n ++ replicate (k - n.length) 0) else none := by
  rw [strncpy, copied_full hn [0] le_rfl, Option.bind_some, List.take_length, store_zeros]

theorem slash_copied (k : Nat) : safestrcpy (replicate k 0) [slash, 0] 2 =
    if 3 ≤ k then some (slash :: replicate (k - 1) 0) else none := by
  have hbytes : safestrcpy (replicate k 0) [slash, 0] 2 = store (replicate k 0) [slash, 0, 0] := rfl
  have hthree : ([slash, 0, 0] : Name).length = 3 := rfl
  rw [hbytes, store_zeros, hthree]
  by_cases hk : 3 ≤ k
  · obtain ⟨m, rfl⟩ := Nat.exists_eq_add_of_le' hk
    rw [if_pos hk, if_pos hk]
    simp [replicate_succ]
  · rw [if_neg hk, if_neg hk]

/-- A name and its slash, behind what is in the buffer. -/
theorem name_written {p n : Name} (hp : 0 ∉ p) (hn : 0 ∉ n) {k : Nat} (hk : 0 < k) :
    (do
      let n0 ← len (p ++ replicate k 0)
      let buf ← at_ n0 (fun s => strncpy s (n ++ [0]) n.length) (p ++ replicate k 0)
      at_ (n0 + n.length) (fun s => safestrcpy s [slash, 0] 2) buf) =
      if n.length + 3 ≤ k then .ok (p ++ n ++ [slash] ++ replicate (k - (n.length + 1)) 0) else .error .overrun := by
  rw [len_clean hp hk]
  change (at_ p.length _ _ >>= fun buf => at_ (p.length + n.length) _ buf) = _
  by_cases hname : n.length ≤ k
  · rw [at_some (f := fun s => strncpy s (n ++ [0]) n.length) ((name_copied hn k).trans (if_pos hname)),
      ← append_assoc, ← length_append]
    by_cases hroom : n.length + 3 ≤ k
    · rw [if_pos hroom]
      refine (at_some (f := fun s => safestrcpy s [slash, 0] 2)
        ((slash_copied (k - n.length)).trans (if_pos (by omega)))).trans ?_
      rw [Nat.sub_sub, append_assoc, append_assoc, append_assoc, List.singleton_append]
    · rw [if_neg hroom]
      exact at_none (f := fun s => safestrcpy s [slash, 0] 2) ((slash_copied (k - n.length)).trans (if_neg (by omega)))
  · rw [at_none (f := fun s => strncpy s (n ++ [0]) n.length) ((name_copied hn k).trans (if_neg hname)), if_neg (by omega)]
    rfl

/-! ## The path -/

variable {c : Cache ι} {size fuel : Nat} {copyout : Bool}

theorem head_ne_slash {n : Name} (h : slash ∉ n) : n.head? ≠ some slash := by
  intro hhead
  obtain ⟨rest, rfl⟩ := List.head?_eq_some_iff.mp hhead
  exact h List.mem_cons_self

theorem absolute_path_root (c : Cache ι) (fuel : Nat) (buf : Name) : get_absolute_path c (fuel + 1) c.root buf =
    (len buf >>= fun n0 => at_ n0 (fun s => strncpy s [slash, 0] 1) buf) := by
  have hroot : ¬ ([slash] : Name).head? ≠ some slash := by decide
  rw [get_absolute_path, c.fname_root]
  simp only [if_neg hroot]
  exact congrArg (len buf >>= ·) (funext fun n0 => bind_pure _)

theorem root_written (c : Cache ι) (fuel : Nat) {k : Nat} (hk : 0 < k) :
    get_absolute_path c (fuel + 1) c.root (replicate k 0) = .ok (slash :: replicate (k - 1) 0) := by
  have hclean := len_clean (p := []) not_mem_nil hk
  rw [List.nil_append, List.length_nil] at hclean
  rw [absolute_path_root, hclean]
  exact at_some (p := []) (f := fun s => strncpy s [slash, 0] 1)
    ((name_copied (n := [slash]) (by decide) k).trans (if_pos hk))

theorem absolute_path_below {ip : ι} (hhead : (c.fname ip).head? ≠ some slash) (fuel : Nat) (buf : Name) :
    get_absolute_path c (fuel + 1) ip buf = (do
      let buf ← get_absolute_path c fuel (c.parent ip) buf
      let n0 ← len buf
      let buf ← at_ n0 (fun s => strncpy s (c.fname ip ++ [0]) (c.fname ip).length) buf
      at_ (n0 + (c.fname ip).length) (fun s => safestrcpy s [slash, 0] 2) buf) := by
  rw [get_absolute_path, if_pos hhead]
  simp only [if_pos hhead]

/-- What comes out of a clean buffer, given enough levels. -/
theorem absolute_path (h : Chain c.toTree ns d) (hfuel : ns.length < fuel) :
    get_absolute_path c fuel d (replicate MAXPATH 0) =
      if ns = [] ∨ (text ns).length + 2 ≤ MAXPATH then .ok (text ns ++ replicate (MAXPATH - (text ns).length) 0)
      else .error .overrun := by
  induction h generalizing fuel with
  | root =>
    obtain ⟨fuel, rfl⟩ := Nat.exists_eq_succ_of_ne_zero (Nat.pos_iff_ne_zero.mp hfuel)
    rw [if_pos (.inl rfl)]
    exact root_written c fuel (by decide)
  | @snoc ns d e n hd _ hlookup hne hslash hnul _ ih =>
    rw [length_append, length_singleton] at hfuel
    obtain ⟨fuel, rfl⟩ := Nat.exists_eq_succ_of_ne_zero (Nat.pos_iff_ne_zero.mp (Nat.zero_lt_of_lt hfuel))
    have hname : c.fname e = n := c.fname_of_lookup d n e hlookup
    have hhead : (c.fname e).head? ≠ some slash := hname.symm ▸ head_ne_slash hslash
    have hlen : (text (ns ++ [n])).length = (text ns).length + n.length + 1 := by
      rw [text_snoc, length_append, length_append, length_singleton]
    rw [absolute_path_below hhead, c.parent_of_lookup d n e hlookup, ih (Nat.lt_of_succ_lt_succ hfuel), hname]
    by_cases hfits : ns = [] ∨ (text ns).length + 2 ≤ MAXPATH
    · have hroom : 0 < MAXPATH - (text ns).length := by
        rcases hfits with rfl | hfits
        · decide
        · unfold MAXPATH at *
          omega
      rw [if_pos hfits]
      refine (name_written (text_nul_free hd) hnul hroom).trans ?_
      rw [text_snoc, ← text_snoc, hlen, Nat.sub_sub, ← Nat.add_assoc]
      have hiff : n.length + 3 ≤ MAXPATH - (text ns).length ↔
          ns ++ [n] = [] ∨ (text ns).length + n.length + 1 + 2 ≤ MAXPATH := by
        simp only [List.append_eq_nil_iff, cons_ne_nil, and_false, false_or]
        omega
      simp only [hiff]
    · rw [if_neg hfits, if_neg]
      · rfl
      push Not at hfits
      rw [not_or]
      refine ⟨List.append_ne_nil_of_right_ne_nil _ (cons_ne_nil _ _), ?_⟩
      omega

theorem absolute_path_deeper (h : Chain c.toTree ns d) (hfuel : fuel ≤ ns.length) (buf : Name) :
    get_absolute_path c fuel d buf = .error .no_return := by
  induction h generalizing fuel with
  | root => rw [Nat.le_zero.mp hfuel, get_absolute_path]
  | @snoc ns d e n _ _ hlookup _ hslash _ _ ih =>
    rw [length_append, length_singleton] at hfuel
    rcases fuel with _ | fuel
    · rw [get_absolute_path]
    have hhead : (c.fname e).head? ≠ some slash :=
      (c.fname_of_lookup d n e hlookup).symm ▸ head_ne_slash hslash
    rw [absolute_path_below hhead, c.parent_of_lookup d n e hlookup, ih (Nat.le_of_succ_le_succ hfuel)]
    rfl

/-- The path of a directory, from the names on the way. -/
def cwdPath (ns : List Name) : Name := if ns = [] then [slash] else ns.flatMap (slash :: ·)

theorem text_eq (hne : ns ≠ []) : text ns = cwdPath ns ++ [slash] := by
  rw [cwdPath, if_neg hne, text]
  induction ns with
  | nil => rfl
  | cons n ns ih =>
    rcases eq_or_ne ns [] with rfl | hns
    · simp
    · rw [flatMap_cons, flatMap_cons, append_assoc, append_assoc, List.singleton_append, ih hns]
      rfl

theorem cwdPath_nul_free (h : Chain t ns d) : 0 ∉ cwdPath ns := by
  rcases eq_or_ne ns [] with rfl | hne
  · decide
  intro hmem
  have htext := text_nul_free h
  rw [text_eq hne] at htext
  exact htext (List.mem_append_left _ hmem)

theorem cwdPath_head (ns : List Name) : (cwdPath ns).head? = some slash := by
  rcases ns with _ | ⟨n, ns⟩
  · rfl
  · rw [cwdPath, if_neg (cons_ne_nil n ns), flatMap_cons]
    rfl

theorem cwdPath_length (ns : List Name) : (cwdPath ns ++ [0]).length = max 2 (text ns).length := by
  rcases eq_or_ne ns [] with rfl | hne
  · rfl
  have hpos : 0 < (cwdPath ns).length := by
    obtain ⟨rest, hrest⟩ := List.head?_eq_some_iff.mp (cwdPath_head ns)
    rw [hrest, List.length_cons]
    exact Nat.succ_pos _
  rw [text_eq hne, length_append, length_append, length_singleton, length_singleton]
  omega

/-- The last slash goes. -/
theorem assist_getcwd_eq (h : Chain c.toTree ns d) (hfuel : ns.length < fuel)
    (hfits : ns = [] ∨ (text ns).length + 2 ≤ MAXPATH) : assist_getcwd c fuel d (replicate MAXPATH 0) =
      .ok (cwdPath ns ++ replicate (MAXPATH - (cwdPath ns).length) 0) := by
  have hroom : 0 < MAXPATH - (text ns).length := by
    rcases hfits with rfl | hfits
    · decide
    · unfold MAXPATH at *
      omega
  rw [assist_getcwd, absolute_path h hfuel, if_pos hfits]
  dsimp only [bind, Except.bind]
  rw [len_clean (text_nul_free h) hroom]
  refine congrArg Except.ok ?_
  rcases eq_or_ne ns [] with rfl | hne
  · rfl
  have hlen := cwdPath_length ns
  rw [text_eq hne] at hroom ⊢
  rw [length_append, length_singleton] at hroom ⊢
  have hlong : (cwdPath ns).length + 1 > 1 := by
    obtain ⟨rest, hrest⟩ := List.head?_eq_some_iff.mp (cwdPath_head ns)
    rw [hrest, List.length_cons]
    omega
  rw [if_pos hlong, Nat.add_sub_cancel, append_assoc,
    List.set_append_right (cwdPath ns).length _ le_rfl, Nat.sub_self]
  refine congrArg (cwdPath ns ++ ·) ?_
  rw [List.singleton_append, List.set_cons_zero, ← replicate_succ]
  refine congrArg (replicate · 0) ?_
  omega

/-- The whole call: the path and its NUL, if there is room. -/
theorem getcwd_ok (h : Chain c.toTree ns d) (hfuel : ns.length < fuel)
    (hfits : ns = [] ∨ (text ns).length + 2 ≤ MAXPATH) (size : Nat) (copyout : Bool) :
    sys_getcwd c fuel d size copyout = .ok (if copyout then some (cwdPath ns ++ [0]) else none) := by
  have hroom : 0 < MAXPATH - (cwdPath ns).length := by
    have hlen := cwdPath_length ns
    rw [length_append, length_singleton] at hlen
    rcases hfits with rfl | hfits
    · decide
    · have hpos := text_pos ns
      unfold MAXPATH at *
      omega
  obtain ⟨k, hk⟩ := Nat.exists_eq_succ_of_ne_zero (Nat.pos_iff_ne_zero.mp hroom)
  have hfront : ((cwdPath ns ++ replicate (MAXPATH - (cwdPath ns).length) 0).takeWhile (· != 0)) = cwdPath ns := by
    rw [hk, replicate_succ, List.takeWhile_append_of_pos]
    · simp
    · intro b hb
      exact bne_iff_ne.mpr fun h0 => cwdPath_nul_free h (h0 ▸ hb)
  rw [sys_getcwd, assist_getcwd_eq h hfuel hfits]
  dsimp only [bind, Except.bind]
  rw [hfront, hk, replicate_succ, List.append_cons, List.take_left' (by simp)]
  cases copyout with
  | false => rfl
  | true => rfl

theorem getcwd_overruns (h : Chain c.toTree ns d) (hfuel : ns.length < fuel)
    (hfits : ¬ (ns = [] ∨ (text ns).length + 2 ≤ MAXPATH)) (size : Nat) (copyout : Bool) :
    sys_getcwd c fuel d size copyout = .error .overrun := by
  rw [sys_getcwd, assist_getcwd, absolute_path h hfuel, if_neg hfits]
  rfl

theorem getcwd_deeper (h : Chain c.toTree ns d) (hfuel : fuel ≤ ns.length) (size : Nat) (copyout : Bool) :
    sys_getcwd c fuel d size copyout = .error .no_return := by
  rw [sys_getcwd, assist_getcwd, absolute_path_deeper h hfuel]
  rfl

/-! ## Back to the directory -/

theorem splitOn_joined {n : Name} (hn : slash ∉ n) (hns : ∀ m ∈ ns, slash ∉ m) :
    (n ++ ns.flatMap (slash :: ·)).splitOn slash = n :: ns := by
  induction ns generalizing n with
  | nil => rw [List.flatMap_nil, List.append_nil, List.splitOn_eq_singleton hn]
  | cons m ns ih =>
    rw [List.forall_mem_cons] at hns
    rw [flatMap_cons, List.cons_append, List.splitOn_append_cons_self_of_not_mem hn, ih hns.1 hns.2]

theorem chain_names (h : Chain t ns d) : ∀ n ∈ ns, n ≠ [] ∧ slash ∉ n := by
  induction h with
  | root => exact fun n hn => absurd hn not_mem_nil
  | snoc _ _ _ hne hslash _ _ ih =>
    intro m hm
    rcases List.mem_append.mp hm with hm | hm
    · exact ih m hm
    · rw [List.mem_singleton.mp hm]
      exact ⟨hne, hslash⟩

theorem components_cwdPath (h : Chain t ns d) : components (cwdPath ns) = ns := by
  have hnames := chain_names h
  rcases ns with _ | ⟨n, ns⟩
  · decide
  have hslash : ∀ m ∈ n :: ns, slash ∉ m := fun m hm => (hnames m hm).2
  rw [List.forall_mem_cons] at hslash
  rw [cwdPath, if_neg (cons_ne_nil n ns), flatMap_cons, List.cons_append, components_slash, components,
    splitOn_joined hslash.1 hslash.2, List.filter_eq_self]
  exact fun m hm => decide_eq_true (hnames m hm).1

theorem chain_leads (h : Chain t ns d) : ns.foldlM (turn t) t.root = some d := by
  induction h with
  | root => rfl
  | @snoc ns d e n _ hdir hlookup hne _ _ hdot ih =>
    rw [List.foldlM_append, ih]
    change List.foldlM (turn t) d [n] = some e
    rw [List.foldlM_cons, turn_eq_enter t d hne fun hhead => absurd hhead hdot, enter]
    have h1 : n ≠ [dot] := fun heq => hdot (heq ▸ rfl)
    have h2 : n ≠ [dot, dot] := fun heq => hdot (heq ▸ rfl)
    rw [hdir]
    simp [h1, h2, hlookup]

theorem path_of (h : Chain t ns d) (hlen : (cwdPath ns).length < MAXPATH) : PathOf t d (cwdPath ns) where
  absolute := cwdPath_head ns
  whole := by
    have hnames := chain_names h
    rcases ns with _ | ⟨n, ns⟩
    · exact .inl rfl
    refine .inr ?_
    have hslash : ∀ m ∈ n :: ns, slash ∉ m := fun m hm => (hnames m hm).2
    rw [List.forall_mem_cons] at hslash
    rw [cwdPath, if_neg (cons_ne_nil n ns), flatMap_cons, List.cons_append, List.tail_cons,
      splitOn_joined hslash.1 hslash.2]
    exact fun hmem => (hnames [] hmem).1 rfl
  leads cwd := by
    rw [namei_eq t cwd hlen, components_cwdPath h, loopStart, if_pos (cwdPath_head ns)]
    exact chain_leads h

/-! ## The law -/

/-- **`sys_getcwd` gives a directory's path exactly where it fits.** -/
theorem getcwd_iff (c : Cache ι) (h : Reached c.toTree d) (size : Nat) (copyout : Bool) :
    (∃ ns, Chain c.toTree ns d) ∧
      ∀ ns, Chain c.toTree ns d → (GetcwdLaw c d size copyout ↔ Fits ns size copyout) := by
  refine ⟨chain_of_reached h, fun ns hchain => ⟨?_, ?_⟩⟩
  · rintro ⟨fuel, r, hcall, hlaw⟩
    -- a call that returns has enough levels and enough room
    have hfuel : ns.length < fuel := by
      by_contra hshort
      rw [getcwd_deeper hchain (not_lt.mp hshort)] at hcall
      cases hcall
    have hfits : ns = [] ∨ (text ns).length + 2 ≤ MAXPATH := by
      by_contra hover
      rw [getcwd_overruns hchain hfuel hover] at hcall
      cases hcall
    refine ⟨hfits, fun hcopy => ?_⟩
    rw [getcwd_ok hchain hfuel hfits, hcopy] at hcall
    obtain ⟨path, hbytes, -, hsize⟩ := hlaw (cwdPath ns ++ [0]) (Except.ok.inj hcall).symm
    rwa [cwdPath_length] at hsize
  · rintro ⟨hfits, hsize⟩
    refine ⟨ns.length + 1, _, getcwd_ok hchain (Nat.lt_succ_self _) hfits size copyout, fun bytes hbytes => ?_⟩
    cases copyout with
    | false => cases hbytes
    | true =>
      obtain rfl := Option.some_inj.mp hbytes
      refine ⟨cwdPath ns, rfl, path_of hchain ?_, ?_⟩
      · have hlen := cwdPath_length ns
        have hpos := text_pos ns
        rw [length_append, length_singleton] at hlen
        rcases hfits with rfl | hfits
        · decide
        · unfold MAXPATH at *
          omega
      · rw [cwdPath_length]
        exact hsize rfl

end

/-! ## A tree of directories -/

/-- The tree in which every name exists. -/
def fullCache : Cache (List Name) where
  toTree := fullTree
  fname d := d.headD [slash]
  fname_root := rfl
  fname_of_lookup d n c h := by
    change (if n.head? = some dot then none else some (n :: d)) = some c at h
    split at h
    · cases h
    · obtain rfl := Option.some_inj.mp h
      rfl

theorem fullCache_chain {n : Name} (hne : n ≠ []) (hslash : slash ∉ n) (hnul : 0 ∉ n) (hdot : n.head? ≠ some dot)
    (k : Nat) :
    Chain fullCache.toTree (replicate k n) (replicate k n) := by
  induction k with
  | zero => exact .root
  | succ k ih =>
    have hlookup : fullCache.lookup (replicate k n) n = some (replicate (k + 1) n) := if_neg hdot
    have hnext := Chain.snoc ih rfl hlookup hne hslash hnul hdot
    rwa [← List.replicate_succ'] at hnext

/-- A name of twenty characters. -/
def letters : Name := replicate 20 0x61

/-- Five directories below one another. -/
theorem getcwd_iff_five : GetcwdLaw fullCache (replicate 5 letters) 4096 true :=
  ((getcwd_iff fullCache ⟨replicate 5 letters, by decide, by decide +kernel⟩ 4096 true).2 _
    (fullCache_chain (by decide) (by decide) (by decide) (by decide) 5)).mpr ⟨by decide, by decide⟩

/-- With six the buffer is too small; and a byte for the root's path is too small, but not for the call. -/
theorem getcwd_overruns_at_six : Reached fullCache.toTree (replicate 6 letters) ∧
    (∀ fuel, 6 < fuel → sys_getcwd fullCache fuel (replicate 6 letters) 4096 true = .error .overrun) ∧
    ¬ GetcwdLaw fullCache (replicate 6 letters) 4096 true ∧ ¬ GetcwdLaw fullCache fullCache.root 1 true := by
  have hchain := fullCache_chain (n := letters) (by decide) (by decide) (by decide) (by decide) 6
  have hfits : ¬ (replicate 6 letters = [] ∨ (text (replicate 6 letters)).length + 2 ≤ MAXPATH) := by
    decide +kernel
  refine ⟨⟨replicate 6 letters, by decide, by decide +kernel⟩, fun fuel hfuel => ?_, ?_, ?_⟩
  · exact getcwd_overruns hchain hfuel hfits 4096 true
  · rintro ⟨fuel, r, hcall, -⟩
    rcases lt_or_ge 6 fuel with hfuel | hfuel
    · rw [getcwd_overruns hchain hfuel hfits] at hcall
      cases hcall
    · rw [getcwd_deeper hchain hfuel] at hcall
      cases hcall
  · rintro ⟨fuel, r, hcall, hlaw⟩
    rcases Nat.eq_zero_or_pos fuel with rfl | hfuel
    · cases hcall
    · rw [getcwd_ok .root hfuel (.inl rfl)] at hcall
      obtain ⟨path, hbytes, -, hsize⟩ := hlaw _ (Except.ok.inj hcall).symm
      exact absurd hsize (by decide)

end LostWakeup.Fs.Vfs.Getcwd
