/-
# LostWakeup.Process.ExecArgs — `sys_execve`: the vectors of arguments on their way to the new stack.

The system call walks each vector through the page table, entry by entry, and counts.  Then it leaves the vector to be
read in a row from the physical address of its first entry, by `ustack_init` or by the loop that puts the interpreter of
a script in front, which fills an array of ten and does not look at the count.

Memory is read twice: `ram` while the vectors are checked, `later` when the program has been loaded.
-/
import LostWakeup.Process.UserStack

namespace LostWakeup.Process.Exec

open Library
open Mm.Vm (PageTable uvmcreate region slot Pte)
open Mm.Vma (PGSIZE)
open List (length_append length_map replicate)

/-! ## The checks -/

/-- `fetchaddr`: eight bytes through `copyin`. -/
def fetchaddr (ram : Ram) (p : PageTable) (addr : Nat) : Option Nat :=
  if (List.range 8).all fun i => getphyaddr p (add64 addr i) ≠ 0 then
    some (ofBytesLE ((List.range 8).map fun i => ram (getphyaddr p (add64 addr i))))
  else none

/-- `strlen(cp) > PGSIZE`. -/
def tooLong (ram : Ram) (cp : Nat) : Bool := (strlenFrom ram (PGSIZE + 1) cp).isNone

def chars (s : String) : List UInt8 := s.toList.map fun c => UInt8.ofNat c.toNat

/-- `strcmp(cp, s) == 0`. -/
def streq (ram : Ram) (cp : Nat) (s : String) : Bool :=
  (List.range ((chars s).length + 1)).all fun k => ram (cp + k) == (chars s).getD k 0

/-- The arguments that are refused for their names, by index. -/
def refusedArg (ram : Ram) (i cp : Nat) : Bool := (i == 5 && streq ram cp "lat_sig") || (i == 1 && streq ram cp "bw_pipe")

/-- The loop over a vector at `base`: the number of entries before the NULL, or `none` for -1.  What is left of the limit is
counted down. -/
def checkVector (ram : Ram) (p : PageTable) (refused : Nat → Nat → Bool) (base : Nat) : Nat → Nat → Option Nat
  | 0, _ => none
  | fuel + 1, i =>
    match fetchaddr ram p (add64 base (8 * i)) with
    | none => none
    | some temp =>
      if temp = 0 then
        some i
      else
        let cp := getphyaddr p temp
        if cp = 0 ∨ tooLong ram cp = true then none
        else if refused i cp = true then none
        else checkVector ram p refused base fuel (i + 1)

def checked (ram : Ram) (p : PageTable) (refused : Nat → Nat → Bool) (limit base : Nat) : Option Nat :=
  if base = 0 then some 0 else checkVector ram p refused base limit 0

/-! ## `sys_execve` -/

/-- A vector read in a row from a physical address, if this is not 0. -/
def inRow (ram : Ram) (pa : Nat) : Option (Nat → Nat) := if pa = 0 then none else some fun i => wordAt ram (pa + 8 * i)

/-- The physical address of a vector of the user. -/
def pointer (p : PageTable) (base : Nat) : Nat := if base = 0 then 0 else getphyaddr p base

/-- Where the kernel has the strings that a script's vector begins with. -/
structure KernelStrings where
  busybox : Nat
  sh : Nat
  path : Nat
  busybox_ne : busybox ≠ 0
  sh_ne : sh ≠ 0
  path_ne : path ≠ 0

/-- `strncmp(path + len - 3, ".sh", 3) == 0`.  A path of less than three bytes is compared with what lies below the array. -/
def isScript (below path : List UInt8) : Bool := (below ++ path).drop ((below ++ path).length - 3) == chars ".sh"

def SH_ARGV : Nat := 10

/-- The loop that fills `sh_argv` from index 3 on, for `n` arguments from the `i`-th. -/
def shLoop (arg : Nat → Nat) : Nat → Nat → List Nat → Except Fault (List Nat)
  | 0, _, sh_argv => .ok sh_argv
  | n + 1, i, sh_argv =>
    if i + 2 < sh_argv.length then shLoop arg n (i + 1) (sh_argv.set (i + 2) (arg i))
    else .error .out_of_bounds

/-- What `do_execve` is called with: the path and the fields of `bprm` that have been set. -/
structure Call where
  path : List UInt8
  sh : Bool
  stack_limit : Bool
  argc : Nat
  envpc : Nat
  argv : Option (Nat → Nat)
  envp : Option (Nat → Nat)

/-- The programs that get a short stack. -/
def stackLimit (path : List UInt8) : Bool := path == chars "./cyclictest" || path == chars "./hackbench"

/-- The caller of `sys_execve`: its page table, memory when the vectors are checked and when they are read, what `argstr` has
made of the path, and the bytes below the array for it. -/
structure Caller where
  p : PageTable
  ram : Ram
  later : Ram
  kernel : KernelStrings
  below : List UInt8
  path : Option (List UInt8)
  uargv : Nat
  uenvp : Nat

/-- `sys_execve` up to `do_execve`; `none` is the return value -1. -/
def sys_execve (c : Caller) : Except Fault (Option Call) :=
  match c.path with
  | none => .ok none
  | some path =>
    match checked c.ram c.p (refusedArg c.ram) MAXARG c.uargv, checked c.ram c.p (fun _ _ => false) MAXENV c.uenvp with
    | some argc, some envpc =>
      let argv := pointer c.p c.uargv
      let envp := inRow c.later (pointer c.p c.uenvp)
      if isScript c.below path then
        match shLoop (fun i => getphyaddr c.p (wordAt c.ram (argv + 8 * i))) (argc - 1) 1
            ([c.kernel.busybox, c.kernel.sh, c.kernel.path] ++ replicate (SH_ARGV - 3) 0) with
        | .error e => .error e
        | .ok sh_argv => .ok (some ⟨chars "/busybox", true, stackLimit path, argc, envpc, some fun i => sh_argv.getD i 0, envp⟩)
      else
        .ok (some ⟨path, false, stackLimit path, argc, envpc, inRow c.later argv, envp⟩)
    | _, _ => .ok none

/-! ## What is wanted, and when it holds -/

/-- From the `i`-th entry on the user's vector at `base` is `ptrs` and a NULL. -/
def Entries (ram : Ram) (p : PageTable) (base : Nat) : Nat → List Nat → Prop
  | i, [] => fetchaddr ram p (add64 base (8 * i)) = some 0
  | i, ptr :: ptrs => fetchaddr ram p (add64 base (8 * i)) = some ptr ∧ ptr ≠ 0 ∧ Entries ram p base (i + 1) ptrs

/-- The user gives the vector `ptrs`; none is an empty one. -/
def Given (ram : Ram) (p : PageTable) (base : Nat) (ptrs : List Nat) : Prop :=
  if base = 0 then ptrs = [] else Entries ram p base 0 ptrs

instance decidableEntries (ram : Ram) (p : PageTable) (base : Nat) : ∀ i ptrs, Decidable (Entries ram p base i ptrs)
  | i, [] => inferInstanceAs (Decidable (fetchaddr ram p (add64 base (8 * i)) = some 0))
  | i, _ :: ptrs => @instDecidableAnd _ _ inferInstance (@instDecidableAnd _ _ inferInstance (decidableEntries ram p base (i + 1) ptrs))

instance (ram : Ram) (p : PageTable) (base : Nat) (ptrs : List Nat) : Decidable (Given ram p base ptrs) :=
  inferInstanceAs (Decidable (if base = 0 then ptrs = [] else Entries ram p base 0 ptrs))

/-- The strings can be read, and none is longer than a page. -/
def Readable (ram : Ram) (p : PageTable) (ptrs : List Nat) : Prop :=
  ∀ ptr ∈ ptrs, getphyaddr p ptr ≠ 0 ∧ tooLong ram (getphyaddr p ptr) = false

/-- One of the arguments is refused for its name. -/
def Refused (ram : Ram) (p : PageTable) (args : List Nat) : Prop :=
  ∃ i, i < args.length ∧ refusedArg ram i (getphyaddr p (args.getD i 0)) = true

/-- The vector that is read is `ptrs` and a NULL. -/
def Lists (vector : Option (Nat → Nat)) (ptrs : List Nat) : Prop :=
  (vector = none → ptrs = []) ∧ ∀ v, vector = some v → ∀ i, i ≤ ptrs.length → v i = ptrs.getD i 0

namespace Caller

/-- The vector that the program is to get. -/
def expected (c : Caller) (script : Bool) (args : List Nat) : List Nat :=
  if script then [c.kernel.busybox, c.kernel.sh, c.kernel.path] ++ args.tail.map (getphyaddr c.p) else args

/-- With its NULL each vector fits the arrays that it goes through. -/
def Fits (c : Caller) (script : Bool) (args envs : List Nat) : Prop :=
  args.length < MAXARG ∧ envs.length < MAXENV ∧ (script = true → (c.expected script args).length < SH_ARGV)

/-- The arrays are kept to, vectors that fit are passed on, and longer ones are refused. -/
structure ArgLaw (c : Caller) (path : List UInt8) : Prop where
  bounds : sys_execve c ≠ .error .out_of_bounds
  stack_bounds : ∀ call, sys_execve c = .ok (some call) → ∀ pagetable bprm ustack_page, bprm.sh = call.sh →
    ustack_init c.p pagetable bprm call.argv call.envp ustack_page c.later ≠ .error .out_of_bounds
  passed : ∀ args envs, Given c.ram c.p c.uargv args → Given c.ram c.p c.uenvp envs → Readable c.ram c.p args →
    Readable c.ram c.p envs → c.Fits (isScript c.below path) args envs →
      ∃ call, sys_execve c = .ok (some call) ∧ Lists call.argv (c.expected (isScript c.below path) args) ∧ Lists call.envp envs
  rejected : ∀ args envs, Given c.ram c.p c.uargv args → Given c.ram c.p c.uenvp envs →
    ¬ c.Fits (isScript c.below path) args envs → sys_execve c = .ok none

/-- What is read in a row is what has been checked: the whole vector for a program, the arguments behind the first for
a script. -/
def SameArgs (c : Caller) (script : Bool) (args : List Nat) : Prop :=
  if script then ∀ i, 1 ≤ i → i < args.length →
    getphyaddr c.p (wordAt c.ram (pointer c.p c.uargv + 8 * i)) = getphyaddr c.p (args.getD i 0)
  else Lists (inRow c.later (pointer c.p c.uargv)) args

/-- The vectors that pass the checks are used, and fit.  Too many arguments of a script must be refused for a name,
the ones that fit must not. -/
def Sound (c : Caller) (path : List UInt8) : Prop :=
  ∀ args envs, Given c.ram c.p c.uargv args → Given c.ram c.p c.uenvp envs → Readable c.ram c.p args → Readable c.ram c.p envs →
    args.length < MAXARG → envs.length < MAXENV →
      if isScript c.below path = true ∧ 8 ≤ args.length then Refused c.ram c.p args
      else ¬ Refused c.ram c.p args ∧ c.SameArgs (isScript c.below path) args ∧ Lists (inRow c.later (pointer c.p c.uenvp)) envs

end Caller

/-! ## The checks of a vector -/

section

variable {ram : Ram} {p : PageTable} {refused : Nat → Nat → Bool} {base : Nat}

theorem lists_inRow {ptrs : List Nat} (hpa : pa ≠ 0) (h : ∀ i, i ≤ ptrs.length → wordAt ram (pa + 8 * i) = ptrs.getD i 0) :
    Lists (inRow ram pa) ptrs := by
  rw [inRow, if_neg hpa, Lists]
  refine ⟨nofun, ?_⟩
  rintro v ⟨⟩
  exact h

theorem Entries.unique {i : Nat} {ptrs ptrs' : List Nat} (h : Entries ram p base i ptrs) (h' : Entries ram p base i ptrs') :
    ptrs = ptrs' := by
  induction ptrs generalizing i ptrs' with
  | nil =>
    cases ptrs' with
    | nil => rfl
    | cons ptr' ptrs' =>
      have hsame : some 0 = some ptr' := h.symm.trans h'.1
      exact absurd (Option.some_inj.mp hsame).symm h'.2.1
  | cons ptr ptrs ih =>
    cases ptrs' with
    | nil =>
      have hsame : some ptr = some 0 := h.1.symm.trans h'
      exact absurd (Option.some_inj.mp hsame) h.2.1
    | cons ptr' ptrs' =>
      have hsame : some ptr = some ptr' := h.1.symm.trans h'.1
      rw [Option.some_inj.mp hsame, ih h.2.2 h'.2.2]

theorem Given.unique {ptrs ptrs' : List Nat} (h : Given ram p base ptrs) (h' : Given ram p base ptrs') : ptrs = ptrs' := by
  unfold Given at h h'
  split at h
  · next hzero =>
    rw [if_pos hzero] at h'
    rw [h, h']
  · next hne =>
    rw [if_neg hne] at h'
    exact h.unique h'

/-- No string of the vector is refused, where the first has the index `i`. -/
def Passes (ram : Ram) (p : PageTable) (refused : Nat → Nat → Bool) (i : Nat) (ptrs : List Nat) : Prop :=
  Readable ram p ptrs ∧ ∀ k, k < ptrs.length → refused (i + k) (getphyaddr p (ptrs.getD k 0)) = false

theorem passes_cons {i ptr : Nat} {ptrs : List Nat} :
    Passes ram p refused i (ptr :: ptrs) ↔
      (getphyaddr p ptr ≠ 0 ∧ tooLong ram (getphyaddr p ptr) = false) ∧ refused i (getphyaddr p ptr) = false ∧
        Passes ram p refused (i + 1) ptrs := by
  constructor
  · rintro ⟨hread, hname⟩
    refine ⟨hread ptr List.mem_cons_self, hname 0 (Nat.succ_pos _), fun q hq => hread q (List.mem_cons_of_mem _ hq), fun k hk => ?_⟩
    have hnext := hname (k + 1) (Nat.succ_lt_succ hk)
    rw [List.getD_cons_succ] at hnext
    rw [Nat.add_assoc, Nat.add_comm 1 k]
    exact hnext
  · rintro ⟨hptr, hhead, hread, hname⟩
    refine ⟨fun q hq => ?_, fun k hk => ?_⟩
    · rcases List.mem_cons.mp hq with rfl | hq
      · exact hptr
      · exact hread q hq
    cases k with
    | zero => exact hhead
    | succ k =>
      have hnext := hname k (Nat.lt_of_succ_lt_succ hk)
      rw [List.getD_cons_succ, Nat.add_comm k 1, ← Nat.add_assoc]
      exact hnext

theorem checkVector_iff (fuel i n : Nat) :
    checkVector ram p refused base fuel i = some n ↔
      ∃ ptrs, Entries ram p base i ptrs ∧ i + ptrs.length = n ∧ ptrs.length < fuel ∧ Passes ram p refused i ptrs := by
  induction fuel generalizing i with
  | zero =>
    constructor
    · intro h
      cases h
    · rintro ⟨_, -, -, hlt, -⟩
      exact absurd hlt (Nat.not_lt_zero _)
  | succ fuel ih =>
    rw [checkVector]
    rcases hfetch : fetchaddr ram p (add64 base (8 * i)) with _ | temp
    · -- the entry cannot be read
      dsimp only
      refine iff_of_false nofun ?_
      rintro ⟨_ | ⟨ptr, ptrs⟩, hentries, -⟩
      · rw [Entries, hfetch] at hentries
        cases hentries
      · rw [Entries, hfetch] at hentries
        cases hentries.1
    dsimp only
    rcases eq_or_ne temp 0 with rfl | hne
    · -- the NULL
      rw [if_pos rfl]
      constructor
      · intro h
        refine ⟨[], hfetch, Option.some_inj.mp h, Nat.succ_pos _, fun _ hq => absurd hq List.not_mem_nil, fun _ hk => absurd hk (Nat.not_lt_zero _)⟩
      rintro ⟨_ | ⟨ptr, ptrs⟩, hentries, hlen, -⟩
      · rw [← hlen, List.length_nil, Nat.add_zero]
      · rw [Entries, hfetch] at hentries
        exact absurd (Option.some_inj.mp hentries.1).symm hentries.2.1
    · rw [if_neg hne]
      have hcons : (∃ ptrs, Entries ram p base i ptrs ∧ i + ptrs.length = n ∧ ptrs.length < fuel + 1 ∧ Passes ram p refused i ptrs) ↔
          ((getphyaddr p temp ≠ 0 ∧ tooLong ram (getphyaddr p temp) = false) ∧ refused i (getphyaddr p temp) = false) ∧
            checkVector ram p refused base fuel (i + 1) = some n := by
        rw [ih]
        constructor
        · rintro ⟨_ | ⟨ptr, ptrs⟩, hentries, hlen, hlt, hpasses⟩
          · rw [Entries, hfetch] at hentries
            exact absurd (Option.some_inj.mp hentries) hne
          rw [Entries, hfetch] at hentries
          obtain ⟨hptr, -, hrest⟩ := hentries
          rw [Option.some_inj.mp hptr]
          obtain ⟨hread, hname, hpasses⟩ := passes_cons.mp hpasses
          rw [List.length_cons] at hlen hlt
          exact ⟨⟨hread, hname⟩, ptrs, hrest, by omega, by omega, hpasses⟩
        · rintro ⟨⟨hread, hname⟩, ptrs, hrest, hlen, hlt, hpasses⟩
          refine ⟨temp :: ptrs, ⟨hfetch, hne, hrest⟩, ?_, ?_, passes_cons.mpr ⟨hread, hname, hpasses⟩⟩
          · rw [List.length_cons]
            omega
          · rw [List.length_cons]
            omega
      rw [hcons]
      split
      · next hbad =>
        refine iff_of_false nofun ?_
        rintro ⟨⟨⟨hmapped, hshort⟩, -⟩, -⟩
        rcases hbad with hzero | hlong
        · exact hmapped hzero
        · rw [hshort] at hlong
          cases hlong
      · next hok =>
        rw [not_or, Bool.not_eq_true] at hok
        split
        · next hname =>
          refine iff_of_false nofun ?_
          rintro ⟨⟨-, hname'⟩, -⟩
          rw [hname'] at hname
          cases hname
        · next hname =>
          rw [Bool.not_eq_true] at hname
          exact ⟨fun h => ⟨⟨hok, hname⟩, h⟩, And.right⟩

theorem checked_iff {limit : Nat} (hlimit : 0 < limit) (n : Nat) :
    checked ram p refused limit base = some n ↔
      ∃ ptrs, Given ram p base ptrs ∧ ptrs.length = n ∧ ptrs.length < limit ∧ Passes ram p refused 0 ptrs := by
  unfold checked Given
  split
  · constructor
    · intro h
      refine ⟨[], rfl, Option.some_inj.mp h, hlimit, fun _ hq => absurd hq List.not_mem_nil, fun _ hk => absurd hk (Nat.not_lt_zero _)⟩
    · rintro ⟨_, rfl, hlen, -⟩
      rw [← hlen, List.length_nil]
  · rw [checkVector_iff]
    simp only [Nat.zero_add]

end

theorem passes_env {ram : Ram} {p : PageTable} {envs : List Nat} : Passes ram p (fun _ _ => false) 0 envs ↔ Readable ram p envs :=
  ⟨And.left, fun h => ⟨h, fun _ _ => rfl⟩⟩

theorem passes_arg {ram : Ram} {p : PageTable} {args : List Nat} :
    Passes ram p (refusedArg ram) 0 args ↔ Readable ram p args ∧ ¬ Refused ram p args := by
  refine and_congr_right fun _ => ?_
  constructor
  · rintro h ⟨i, hi, hname⟩
    have hnot := h i hi
    rw [Nat.zero_add, hname] at hnot
    cases hnot
  intro h k hk
  rw [Nat.zero_add]
  rcases hname : refusedArg ram k (getphyaddr p (args.getD k 0)) with _ | _
  · rfl
  · exact absurd ⟨k, hk, hname⟩ h

/-! ## The vector of a script -/

theorem shLoop_eq (arg : Nat → Nat) (n : Nat) {i : Nat} {front : List Nat} (room : Nat) (hfront : front.length = i + 2) :
    shLoop arg n i (front ++ replicate room 0) =
      if n ≤ room then .ok (front ++ (List.range' i n).map arg ++ replicate (room - n) 0) else .error .out_of_bounds := by
  induction n generalizing i front room with
  | zero =>
    rw [shLoop, if_pos (Nat.zero_le _), List.range'_zero, List.map_nil, List.append_nil, Nat.sub_zero]
  | succ n ih =>
    rw [shLoop, length_append, List.length_replicate, hfront]
    cases room with
    | zero => rw [if_neg (by omega), if_neg (by omega)]
    | succ room =>
      have hset : (front ++ replicate (room + 1) 0).set (i + 2) (arg i) = (front ++ [arg i]) ++ replicate room 0 := by
        rw [List.set_append_right _ _ (by omega), hfront, Nat.sub_self, List.replicate_succ, List.set_cons_zero, List.append_assoc,
          List.singleton_append]
      have hnext : (front ++ [arg i]).length = i + 1 + 2 := by
        rw [length_append, hfront, List.length_singleton]
      rw [if_pos (by omega), hset, ih room hnext, List.range'_succ, List.map_cons, Nat.add_sub_add_right, List.append_assoc front,
        List.singleton_append]
      exact if_congr Nat.add_le_add_iff_right.symm rfl rfl

theorem getD_append_zeros (ptrs : List Nat) (m i : Nat) : (ptrs ++ replicate m 0).getD i 0 = ptrs.getD i 0 := by
  rcases lt_or_ge i ptrs.length with hlt | hge
  · rw [List.getD_append _ _ _ _ hlt]
  · rw [List.getD_append_right _ _ _ _ hge, List.getD_eq_default _ _ hge, List.getD_eq_getElem?_getD, List.getElem?_replicate]
    split <;> rfl

theorem lists_zeros_iff {ptrs ptrs' : List Nat} (m : Nat) (hlen : ptrs.length = ptrs'.length) :
    Lists (some fun i => (ptrs ++ replicate m 0).getD i 0) ptrs' ↔ ptrs = ptrs' := by
  constructor
  · rintro ⟨-, h⟩
    apply List.ext_getElem hlen
    intro i hi hi'
    have hsame := h _ rfl i hi'.le
    rw [getD_append_zeros, List.getD_eq_getElem _ _ hi, List.getD_eq_getElem _ _ hi'] at hsame
    exact hsame
  · rintro rfl
    refine ⟨nofun, fun v hv i _ => ?_⟩
    cases hv
    exact getD_append_zeros ptrs m i

/-! ## The stack keeps to its arrays -/

/-- A vector that ends inside the array is not read or stored past it. -/
theorem pushStrings_bounded {f : Frame} {p : PageTable} {source : Source} {size n : Nat} {vector : Nat → Nat} (fuel : Nat)
    {addrs : List Nat} {st : Stack} (hnull : vector n = 0) (hsize : n < size) (hlen : addrs.length ≤ n) (hfuel : n < addrs.length + fuel) :
    pushStrings f p source size vector fuel addrs st ≠ .error .out_of_bounds := by
  induction fuel generalizing addrs st with
  | zero => omega
  | succ fuel ih =>
    rw [pushStrings]
    rcases eq_or_ne (vector addrs.length) 0 with hzero | hne
    · rw [if_pos hzero, if_pos (by omega)]
      exact fun h => by cases h
    have hmore : addrs.length < n := by
      rcases Nat.lt_or_eq_of_le hlen with hlt | heq
      · exact hlt
      · exact absurd (heq ▸ hnull) hne
    rw [if_neg hne, if_neg (by omega)]
    dsimp only
    split
    · exact fun h => by cases h
    unfold pushString
    rcases strlen st.ram (source.lookup p (vector addrs.length)) with _ | len
    · exact fun h => by cases h
    dsimp only
    split
    · exact fun h => by cases h
    rw [ok_bind]
    dsimp only
    rw [if_pos (by omega)]
    refine ih ?_ ?_
    · rw [length_append, List.length_singleton]
      omega
    · rw [length_append, List.length_singleton]
      omega

theorem pushVector_bounded {f : Frame} {p : PageTable} {source : Source} {size : Nat} {vector : Option (Nat → Nat)} {ptrs : List Nat}
    {st : Stack} (h : Lists vector ptrs) (hsize : ptrs.length < size) : pushVector f p source size vector st ≠ .error .out_of_bounds := by
  cases vector with
  | none => exact nofun
  | some v =>
    have hnull : v ptrs.length = 0 := by
      rw [h.2 v rfl _ le_rfl, List.getD_eq_default _ _ le_rfl]
    apply pushStrings_bounded (size + 1) hnull hsize (Nat.zero_le _)
    rw [List.length_nil]
    omega

theorem ustack_init_bounded {p pagetable : PageTable} {bprm : binprm} {argv envp : Option (Nat → Nat)} {ustack_page : Nat} {ram : Ram}
    {args envs : List Nat} (hargv : Lists argv args) (hargs : args.length < MAXARG) (henvp : Lists envp envs)
    (henvs : envs.length < MAXENV) : ustack_init p pagetable bprm argv envp ustack_page ram ≠ .error .out_of_bounds := by
  unfold ustack_init
  dsimp only
  have hfirst := @pushVector_bounded (frameOf pagetable ustack_page) p (argSource bprm) MAXARG argv args
    ⟨ram, (frameOf pagetable ustack_page).stacktop, []⟩ hargv hargs
  rcases hpush : pushVector (frameOf pagetable ustack_page) p (argSource bprm) MAXARG argv
      ⟨ram, (frameOf pagetable ustack_page).stacktop, []⟩ with e | _ | ⟨argv_addr, st⟩
  · rw [hpush] at hfirst
    exact fun h => hfirst (by cases h; rfl)
  · exact nofun
  · rw [ok_bind]
    dsimp only
    have hsecond := @pushVector_bounded (frameOf pagetable ustack_page) p .user MAXENV envp envs st henvp henvs
    rcases hpush' : pushVector (frameOf pagetable ustack_page) p .user MAXENV envp st with e | _ | ⟨envp_addr, st'⟩
    · rw [hpush'] at hsecond
      exact fun h => hsecond (by cases h; rfl)
    · exact nofun
    · exact nofun

/-! ## The system call -/

namespace Caller

variable {c : Caller} {path : List UInt8} {args envs : List Nat}

/-- The vectors of the caller get through the checks. -/
structure Accepted (c : Caller) (args envs : List Nat) : Prop where
  given_args : Given c.ram c.p c.uargv args
  given_envs : Given c.ram c.p c.uenvp envs
  args_readable : Readable c.ram c.p args
  envs_readable : Readable c.ram c.p envs
  args_lt : args.length < MAXARG
  envs_lt : envs.length < MAXENV
  unrefused : ¬ Refused c.ram c.p args

theorem sys_execve_refused (hpath : c.path = some path) (h : ¬ ∃ args envs, c.Accepted args envs) : sys_execve c = .ok none := by
  unfold sys_execve
  rw [hpath]
  dsimp only
  rcases hargs : checked c.ram c.p (refusedArg c.ram) MAXARG c.uargv with _ | argc
  · rfl
  rcases henvs : checked c.ram c.p (fun _ _ => false) MAXENV c.uenvp with _ | envpc
  · rfl
  obtain ⟨args, hgiven, -, hlt, hpasses⟩ := (checked_iff (by decide) argc).mp hargs
  obtain ⟨envs, hgiven', -, hlt', hpasses'⟩ := (checked_iff (by decide) envpc).mp henvs
  obtain ⟨hread, hname⟩ := passes_arg.mp hpasses
  exact absurd ⟨args, envs, hgiven, hgiven', hread, passes_env.mp hpasses', hlt, hlt', hname⟩ h

/-- The arguments that the loop for a script reads. -/
def rowArgs (c : Caller) (n : Nat) : List Nat :=
  (List.range' 1 n).map fun i => getphyaddr c.p (wordAt c.ram (pointer c.p c.uargv + 8 * i))

theorem sys_execve_accepted (hpath : c.path = some path) (h : c.Accepted args envs) :
    ∃ call, call.sh = isScript c.below path ∧ call.envp = inRow c.later (pointer c.p c.uenvp) ∧
      call.argv = (if isScript c.below path then
        some fun i => ([c.kernel.busybox, c.kernel.sh, c.kernel.path] ++ c.rowArgs (args.length - 1) ++
          replicate (7 - (args.length - 1)) 0).getD i 0
        else inRow c.later (pointer c.p c.uargv)) ∧
      sys_execve c = if isScript c.below path = true ∧ 9 ≤ args.length then .error .out_of_bounds else .ok (some call) := by
  have hargs : checked c.ram c.p (refusedArg c.ram) MAXARG c.uargv = some args.length :=
    (checked_iff (by decide) _).mpr ⟨args, h.given_args, rfl, h.args_lt, passes_arg.mpr ⟨h.args_readable, h.unrefused⟩⟩
  have henvs : checked c.ram c.p (fun _ _ => false) MAXENV c.uenvp = some envs.length :=
    (checked_iff (by decide) _).mpr ⟨envs, h.given_envs, rfl, h.envs_lt, passes_env.mpr h.envs_readable⟩
  unfold sys_execve
  rw [hpath, hargs, henvs]
  dsimp only
  rcases hscript : isScript c.below path with _ | _
  · exact ⟨_, rfl, rfl, rfl, rfl⟩
  have hloop := @shLoop_eq (fun i => getphyaddr c.p (wordAt c.ram (pointer c.p c.uargv + 8 * i))) (args.length - 1) 1
    [c.kernel.busybox, c.kernel.sh, c.kernel.path] (SH_ARGV - 3) rfl
  refine ⟨⟨chars "/busybox", true, stackLimit path, args.length, envs.length, some fun i => ([c.kernel.busybox, c.kernel.sh, c.kernel.path] ++
    c.rowArgs (args.length - 1) ++ replicate (7 - (args.length - 1)) 0).getD i 0, inRow c.later (pointer c.p c.uenvp)⟩,
    rfl, rfl, (if_pos rfl).symm, ?_⟩
  rw [if_pos rfl, hloop]
  rcases lt_or_ge args.length 9 with hfits | hlong
  · rw [if_pos (show args.length - 1 ≤ SH_ARGV - 3 by simp only [SH_ARGV]; omega), if_neg (by omega)]
    rfl
  · rw [if_neg (show ¬ args.length - 1 ≤ SH_ARGV - 3 by simp only [SH_ARGV]; omega), if_pos ⟨rfl, hlong⟩]

theorem rowArgs_length (n : Nat) : (c.rowArgs n).length = n := by
  rw [rowArgs, length_map, List.length_range']

/-- Behind the interpreter a script gets the arguments that are read in a row. -/
theorem rowArgs_iff : c.rowArgs (args.length - 1) = args.tail.map (getphyaddr c.p) ↔ c.SameArgs true args := by
  have hlen : (c.rowArgs (args.length - 1)).length = (args.tail.map (getphyaddr c.p)).length := by
    rw [rowArgs_length, length_map, List.length_tail]
  have hrow : ∀ k (hk : k < (c.rowArgs (args.length - 1)).length), (c.rowArgs (args.length - 1))[k] =
      getphyaddr c.p (wordAt c.ram (pointer c.p c.uargv + 8 * (k + 1))) := by
    intro k hk
    simp only [rowArgs, List.getElem_map, List.getElem_range', Nat.one_mul, Nat.add_comm 1 k]
  have hgiven : ∀ k (hk : k < (args.tail.map (getphyaddr c.p)).length), (args.tail.map (getphyaddr c.p))[k] =
      getphyaddr c.p (args.getD (k + 1) 0) := by
    intro k hk
    rw [length_map, List.length_tail] at hk
    rw [List.getElem_map, List.getElem_tail, List.getD_eq_getElem _ _ (show k + 1 < args.length by omega)]
  unfold SameArgs
  rw [if_pos rfl]
  constructor
  · intro h i hi hlt
    obtain ⟨k, rfl⟩ : ∃ k, i = k + 1 := ⟨i - 1, by omega⟩
    have hk : k < (c.rowArgs (args.length - 1)).length := by
      rw [rowArgs_length]
      omega
    rw [← hrow k hk, ← hgiven k (hlen ▸ hk), List.getElem_of_eq h]
  · intro h
    apply List.ext_getElem hlen
    intro k hk hk'
    have hlt : k + 1 < args.length := by
      rw [rowArgs_length] at hk
      omega
    rw [hrow k hk, hgiven k hk', h (k + 1) (Nat.succ_pos k) hlt]

theorem argv_iff {script : Bool} {argv : Option (Nat → Nat)} (hargv : argv = (if script then
        some fun i => ([c.kernel.busybox, c.kernel.sh, c.kernel.path] ++ c.rowArgs (args.length - 1) ++
          replicate (7 - (args.length - 1)) 0).getD i 0
        else inRow c.later (pointer c.p c.uargv))) : Lists argv (c.expected script args) ↔ c.SameArgs script args := by
  rw [hargv]
  rcases script with _ | _
  · exact Iff.rfl
  · rw [if_pos rfl, expected, if_pos rfl, ← rowArgs_iff, lists_zeros_iff]
    · exact List.append_right_inj _
    · rw [length_append, length_append, rowArgs_length, length_map, List.length_tail]

theorem fits_iff (c : Caller) (script : Bool) (hargs : args.length < MAXARG) (henvs : envs.length < MAXENV) :
    c.Fits script args envs ↔ ¬ (script = true ∧ 8 ≤ args.length) := by
  unfold Fits
  have hlen : (c.expected true args).length = 3 + (args.length - 1) := by
    rw [expected, if_pos rfl, length_append, length_map, List.length_tail]
    rfl
  constructor
  · rintro ⟨-, -, h⟩ ⟨rfl, hlong⟩
    have hlt := h rfl
    rw [hlen] at hlt
    simp only [SH_ARGV] at hlt
    omega
  · intro h
    refine ⟨hargs, henvs, ?_⟩
    rintro rfl
    rw [hlen]
    simp only [SH_ARGV]
    have hshort : ¬ 8 ≤ args.length := fun hlong => h ⟨rfl, hlong⟩
    omega

/-- **The vectors of `sys_execve`** keep to their arrays, arrive whole and are refused when they are too long exactly when
those that get through the checks are sound. -/
theorem argLaw_iff (hpath : c.path = some path) : c.ArgLaw path ↔ c.Sound path := by
  constructor
  · intro hlaw args envs hargs henvs hread hread' hlt hlt'
    have hfits := fits_iff c (isScript c.below path) hlt hlt'
    split
    · next hlong =>
      -- too many for a script: they are refused, and there is only the name for it
      by_contra hname
      obtain ⟨call, -, -, -, hrun⟩ := sys_execve_accepted hpath ⟨hargs, henvs, hread, hread', hlt, hlt', hname⟩
      rw [hlaw.rejected args envs hargs henvs (fun h => hfits.mp h hlong)] at hrun
      split at hrun
      · cases hrun
      · cases hrun
    · next hok =>
      obtain ⟨call, hcall, hargv, henvp⟩ := hlaw.passed args envs hargs henvs hread hread' (hfits.mpr hok)
      have hname : ¬ Refused c.ram c.p args := by
        intro hname
        rw [sys_execve_refused hpath] at hcall
        · cases hcall
        · rintro ⟨args', envs', hacc⟩
          rw [hacc.given_args.unique hargs] at hacc
          exact hacc.unrefused hname
      obtain ⟨call', -, henvp', hargv', hrun⟩ := sys_execve_accepted hpath ⟨hargs, henvs, hread, hread', hlt, hlt', hname⟩
      rw [if_neg (fun h => hok ⟨h.1, by omega⟩), hcall] at hrun
      cases hrun
      exact ⟨hname, (argv_iff hargv').mp hargv, henvp' ▸ henvp⟩
  · intro hsound
    rcases em (∃ args envs, c.Accepted args envs) with ⟨args, envs, hacc⟩ | hnone
    · have h := hsound args envs hacc.given_args hacc.given_envs hacc.args_readable hacc.envs_readable hacc.args_lt hacc.envs_lt
      have hfits := fits_iff c (isScript c.below path) hacc.args_lt hacc.envs_lt
      obtain ⟨call, hsh, henvp, hargv, hrun⟩ := sys_execve_accepted hpath hacc
      split at h
      · exact absurd h hacc.unrefused
      · next hok =>
        obtain ⟨-, hsame, henv⟩ := h
        rw [if_neg (fun h => hok ⟨h.1, by omega⟩)] at hrun
        rw [← henvp] at henv
        have hlists := (argv_iff hargv).mpr hsame
        have hshort : (c.expected (isScript c.below path) args).length < MAXARG := by
          rcases hscript : isScript c.below path with _ | _
          · exact hacc.args_lt
          rw [hscript] at hfits hok
          have hten := (hfits.mpr hok).2.2 rfl
          simp only [SH_ARGV] at hten
          simp only [MAXARG]
          omega
        refine ⟨?_, ?_, ?_, ?_⟩
        · rw [hrun]
          exact fun h => by cases h
        · intro call' hcall pagetable bprm ustack_page _
          rw [hrun] at hcall
          cases hcall
          exact ustack_init_bounded hlists hshort henv hacc.envs_lt
        · intro args' envs' hargs' henvs' _ _ _
          rw [hargs'.unique hacc.given_args, henvs'.unique hacc.given_envs]
          exact ⟨call, hrun, hlists, henv⟩
        · intro args' envs' hargs' henvs' hnot
          rw [hargs'.unique hacc.given_args, henvs'.unique hacc.given_envs] at hnot
          exact absurd (hfits.mpr hok) hnot
    · have hrun := sys_execve_refused hpath hnone
      refine ⟨?_, ?_, ?_, fun _ _ _ _ _ => hrun⟩
      · rw [hrun]
        exact fun h => by cases h
      · intro call hcall
        rw [hrun] at hcall
        cases hcall
      · intro args envs hargs henvs hread hread' hfit
        have h := hsound args envs hargs henvs hread hread' hfit.1 hfit.2.1
        rw [if_neg ((fits_iff c _ hfit.1 hfit.2.1).mp hfit)] at h
        exact absurd ⟨args, envs, hargs, henvs, hread, hread', hfit.1, hfit.2.1, h.1⟩ hnone

/-- A caller with the stack of `inARow`, whose first words are `words`. -/
def withWords (words : List Nat) (path : String) (uargv : Nat) : Caller :=
  let ram := putWords (fun _ => 0) (getphyaddr inARow USTACK) words
  { p := inARow, ram := ram, later := ram, kernel := ⟨0x80200000, 0x80200010, 0x80200020, by decide, by decide, by decide⟩,
    below := [], path := some (chars path), uargv := uargv, uenvp := 0 }

/-- A program with the arguments `a.out` and `-l` and the environment `A=1`. -/
def listing : Caller :=
  { withWords [USTACK + 40, USTACK + 48, 0, USTACK + 56, 0, 0x74756f2e61, 0x6c2d, 0x313d41] "a.out" USTACK with
    uenvp := USTACK + 24 }

theorem argLaw_listing : listing.ArgLaw (chars "a.out") := by
  refine (argLaw_iff rfl).mpr fun args envs hargs henvs _ _ _ _ => ?_
  obtain rfl := hargs.unique (show Given _ _ _ [USTACK + 40, USTACK + 48] by decide +kernel)
  obtain rfl := henvs.unique (show Given _ _ _ [USTACK + 56] by decide +kernel)
  rw [if_neg (fun h => absurd h.2 (by decide))]
  refine ⟨?_, ?_, lists_inRow (by decide +kernel) (by decide +kernel)⟩
  · unfold Refused
    decide +kernel
  · rw [SameArgs, if_neg (by decide +kernel)]
    exact lists_inRow (by decide +kernel) (by decide +kernel)

/-- A script with nine arguments: the ninth goes behind the array. -/
theorem nine_args_overrun : ¬ ∀ (c : Caller) (path : List UInt8), c.path = some path → c.ArgLaw path := by
  intro hall
  have hlaw := hall (withWords (replicate 9 (USTACK + 2048)) "a.sh" USTACK) (chars "a.sh") rfl
  obtain ⟨args, hgiven, hlen, hlt, hpasses⟩ := (@checked_iff (withWords (replicate 9 (USTACK + 2048)) "a.sh" USTACK).ram inARow
    (refusedArg (withWords (replicate 9 (USTACK + 2048)) "a.sh" USTACK).ram) USTACK MAXARG (by decide) 9).mp (by decide +kernel)
  obtain ⟨hread, hname⟩ := passes_arg.mp hpasses
  have hacc : (withWords (replicate 9 (USTACK + 2048)) "a.sh" USTACK).Accepted args [] :=
    ⟨hgiven, rfl, hread, fun _ hq => absurd hq List.not_mem_nil, hlt, by decide, hname⟩
  obtain ⟨call, -, -, -, hrun⟩ := sys_execve_accepted (show _ = some (chars "a.sh") from rfl) hacc
  rw [if_pos ⟨by decide, by omega⟩] at hrun
  exact hlaw.bounds hrun

end Caller

end LostWakeup.Process.Exec
