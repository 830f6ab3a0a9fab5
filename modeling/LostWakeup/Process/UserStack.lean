/-
# LostWakeup.Process.UserStack — `ustack_init`: the first stack of a program.

The function builds the stack from its top down, through the physical address of its last byte.  Memory is the bytes at
physical addresses, and what is read and written is kept in a trace, with the user address that each access is for.  The
vectors are read through kernel pointers; they are functions of the index.

The system wants the stack pointer at a multiple of 16.  It never is: `ustack_misaligned`.
-/
import LostWakeup.Library.Words
import LostWakeup.Mm.Translation

namespace LostWakeup.Process.Exec

open Library
open Mm.Vm (PageTable walkaddr_pa MAXVA uvmcreate region slot Pte Level)
open Mm.Vma (PGSIZE PGROUNDDOWN)

/-! ## Memory -/

/-- The bytes at physical addresses. -/
abbrev Ram := Nat → UInt8

def getphyaddr (pt : PageTable) (va : Nat) : Nat :=
  let aligned_pa := walkaddr_pa pt va
  if aligned_pa = 0 then 0 else add64 aligned_pa (va - PGROUNDDOWN va)

def strlenFrom (ram : Ram) : Nat → Nat → Option Nat
  | 0, _ => none
  | fuel + 1, s => if ram s = 0 then some 0 else (strlenFrom ram fuel (s + 1)).map (· + 1)

/-- `strlen`, which counts in an `int`. -/
def strlen (ram : Ram) (s : Nat) : Option Nat := strlenFrom ram (2 ^ 31) s

def memmove (ram : Ram) (dst src len : Nat) : Ram :=
  fun x => if dst ≤ x ∧ x < dst + len then ram (src + (x - dst)) else ram x

/-- `memmove` of an array of `uint64`. -/
def putWords (ram : Ram) (dst : Nat) (words : List Nat) : Ram :=
  fun x => if dst ≤ x ∧ x < dst + 8 * words.length then ((words.flatMap (bytesLE 8)).getD (x - dst) 0) else ram x

/-! ## `ustack_init` -/

def MAXARG : Nat := 32
def MAXENV : Nat := 32
def AUX_CNT : Nat := 38
def USTACK_PAGE : Nat := 10
def USTACK : Nat := MAXVA - 512 * 10 * PGSIZE - USTACK_PAGE * PGSIZE
def LDSO : Nat := 0x40000000

def AT_PHDR : Nat := 3
def AT_PHENT : Nat := 4
def AT_PHNUM : Nat := 5
def AT_PAGESZ : Nat := 6
def AT_BASE : Nat := 7
def AT_ENTRY : Nat := 9
def AT_RANDOM : Nat := 25

/-- The fields of `struct binprm` and of the ELF header behind it that `ustack_init` reads. -/
structure binprm where
  path : String
  interp : Bool
  sh : Bool
  phvaddr : Nat
  e_entry : Nat
  e_phoff : Nat
  e_phnum : Nat
  e_phentsize : Nat

/-- `lmpath[0]`. -/
def lmpath : String := "//lmbench_all"

inductive Fault
  /-- A string runs on past the end of memory. -/
  | no_nul
  /-- `argv_addr` or `envp_addr` is written past its end. -/
  | out_of_bounds
  deriving DecidableEq

/-- Where the strings of a vector are: a script has its arguments behind kernel pointers. -/
inductive Source
  | kernel
  | user
  deriving DecidableEq

/-- How a pointer to a string is looked up, in the page table `p` of the process. -/
def Source.lookup (p : PageTable) : Source → Nat → Nat
  | .kernel => id
  | .user => getphyaddr p

/-- Bytes at `paddr` that are read for those at `vaddr`, or written for those of the new stack at `vaddr`. -/
inductive Access
  | read (source : Source) (vaddr paddr len : Nat)
  | write (vaddr paddr len : Nat)
  deriving DecidableEq

/-- The stack that is built: `spp` is the physical address of its lower end. -/
structure Stack where
  ram : Ram
  spp : Nat
  trace : List Access

/-- `stacktop`, `stackbase` and `ustack_page`. -/
structure Frame where
  stacktop : Nat
  stackbase : Nat
  ustack_page : Nat

def Frame.SPP2SP (f : Frame) (spp : Nat) : Nat := sub64 (USTACK + f.ustack_page * PGSIZE) (sub64 f.stacktop spp)

/-- `spp -= spp % 8`. -/
def down8 (spp : Nat) : Nat := spp - spp % 8

/-- A string goes on the stack; `none` is the return value `-1`. -/
def pushString (f : Frame) (source : Source) (st : Stack) (vaddr cp : Nat) : Except Fault (Option Stack) :=
  match strlen st.ram cp with
  | none => .error .no_nul
  | some n =>
    let spp := down8 (sub64 st.spp (n + 1))
    if spp < f.stackbase then
      .ok none
    else
      .ok (some ⟨memmove st.ram spp cp (n + 1), spp,
        st.trace ++ [.read source vaddr cp (n + 1), .write (f.SPP2SP spp) spp (n + 1)]⟩)

/-- The loops over the strings of a vector.  Those over user pointers compare the index to the size of the array
first; the store of the NULL behind it is part of this. -/
def pushStrings (f : Frame) (p : PageTable) (source : Source) (size : Nat) (vector : Nat → Nat) :
    Nat → List Nat → Stack → Except Fault (Option (List Nat × Stack))
  | 0, _, _ => .error .out_of_bounds
  | fuel + 1, addrs, st =>
    if vector addrs.length = 0 then
      if addrs.length < size then .ok (some (addrs, st)) else .error .out_of_bounds
    else if source = .user ∧ addrs.length ≥ size then
      .ok none
    else
      let cp := source.lookup p (vector addrs.length)
      if cp = 0 then
        .ok none
      else do
        match ← pushString f source st (vector addrs.length) cp with
        | none => return none
        | some st =>
          if addrs.length < size then
            pushStrings f p source size vector fuel (addrs ++ [f.SPP2SP st.spp]) st
          else .error .out_of_bounds

/-- A vector of the caller, if there is one.  The array is full after `size` turns. -/
def pushVector (f : Frame) (p : PageTable) (source : Source) (size : Nat) (vector : Option (Nat → Nat)) (st : Stack) :
    Except Fault (Option (List Nat × Stack)) :=
  match vector with
  | none => .ok (some ([], st))
  | some vector => pushStrings f p source size vector (size + 1) [] st

/-- A block of words goes to `spp`, if this is not below the stack. -/
def putBlock (f : Frame) (st : Stack) (spp : Nat) (words : List Nat) : Option Stack :=
  if spp < f.stackbase then none
  else some ⟨putWords st.ram spp words, spp, st.trace ++ [.write (f.SPP2SP spp) spp (8 * words.length)]⟩

/-- The auxiliary vector, entry by entry: the type and the value. -/
def auxv (bprm : binprm) (random : Nat) : List Nat :=
  (List.range AUX_CNT).flatMap fun i => [if i + 1 > AT_RANDOM then 0 else i + 1, value (i + 1)]
where
  value (type : Nat) : Nat :=
    if type = AT_PAGESZ then PGSIZE
    else if type = AT_RANDOM then random
    else if bprm.interp = true ∨ bprm.path = lmpath then
      if type = AT_BASE then LDSO
      else if type = AT_PHDR then if bprm.path = lmpath then bprm.e_phoff else bprm.phvaddr
      else if type = AT_PHNUM then bprm.e_phnum
      else if type = AT_PHENT then bprm.e_phentsize
      else if type = AT_ENTRY then bprm.e_entry
      else 0
    else 0

/-- "to make sp 16-bit aligned". -/
def align16 (spp argc envpc : Nat) : Nat :=
  if (spp % 16 ≠ 0 ∧ (argc + envpc + 1 + AUX_CNT) % 2 = 0) ∨ (spp % 16 = 0 ∧ (argc + envpc + 2 + 1) % 2 = 1) then sub64 spp 8
  else spp

/-- What is left in `bprm` and in memory. -/
structure Image where
  ram : Ram
  sp : Nat
  a1 : Nat
  a2 : Nat
  argc : Nat
  trace : List Access

/-- The part of `ustack_init` behind the strings. -/
def pushVectors (f : Frame) (bprm : binprm) (argv_addr envp_addr : List Nat) (st : Stack) : Option Image := do
  let argc := argv_addr.length
  let envpc := envp_addr.length
  let spp := align16 st.spp argc envpc
  let st ← putBlock f st (sub64 spp (AUX_CNT * 16 + 8)) (auxv bprm (f.SPP2SP spp))
  let st ← putBlock f st (down8 (sub64 st.spp ((envpc + 1) * 8))) (envp_addr ++ [0])
  let a2 := f.SPP2SP st.spp
  let st ← putBlock f st (down8 (sub64 st.spp ((argc + 1) * 8))) (argv_addr ++ [0])
  let a1 := f.SPP2SP st.spp
  -- the last word goes unchecked
  let spp := sub64 st.spp 8
  return {
    ram := putWords st.ram spp [argc]
    sp := f.SPP2SP spp
    a1 := a1
    a2 := a2
    argc := argc
    trace := st.trace ++ [.write (f.SPP2SP spp) spp 8] }

def frameOf (pagetable : PageTable) (ustack_page : Nat) : Frame :=
  let stacktop := add64 (getphyaddr pagetable (USTACK + ustack_page * PGSIZE - 1)) 1
  ⟨stacktop, sub64 stacktop (ustack_page * PGSIZE), ustack_page⟩

def argSource (bprm : binprm) : Source := if bprm.sh then .kernel else .user

/-- `ustack_init`, for the process with the page table `p` and the new one `pagetable`. -/
def ustack_init (p pagetable : PageTable) (bprm : binprm) (argv envp : Option (Nat → Nat)) (ustack_page : Nat) (ram : Ram) :
    Except Fault (Option Image) := do
  let f := frameOf pagetable ustack_page
  match ← pushVector f p (argSource bprm) MAXARG argv ⟨ram, f.stacktop, []⟩ with
  | none => return none
  | some (argv_addr, st) =>
    match ← pushVector f p .user MAXENV envp st with
    | none => return none
    | some (envp_addr, st) => return pushVectors f bprm argv_addr envp_addr st

/-! ## The System V layout -/

/-- What the user reads at an address. -/
def view (ram : Ram) (pt : PageTable) (va : Nat) : UInt8 := ram (getphyaddr pt va)

def wordAt (v : Nat → UInt8) (a : Nat) : Nat := ofBytesLE ((List.range 8).map fun i => v (a + i))

/-- The string at `p`. -/
structure CString (v : Nat → UInt8) (p : Nat) (s : List UInt8) : Prop where
  chars : ∀ i, ∀ hi : i < s.length, v (p + i) = s[i] ∧ s[i] ≠ 0
  nul : v (p + s.length) = 0

/-- The strings that a vector of the caller points to, in the memory `v`. -/
structure Strings (v : Nat → UInt8) (vector : Option (Nat → Nat)) (strings : List (List UInt8)) : Prop where
  absent : vector = none → strings = []
  each : ∀ ptrs, vector = some ptrs → ∀ i, ∀ hi : i < strings.length, ptrs i ≠ 0 ∧ CString v (ptrs i) strings[i]
  last : ∀ ptrs, vector = some ptrs → ptrs strings.length = 0

/-- A vector in the new stack, from `a` on. -/
structure Vector (v : Nat → UInt8) (ustack_page a : Nat) (strings : List (List UInt8)) : Prop where
  each : ∀ i, ∀ hi : i < strings.length, USTACK ≤ wordAt v (a + 8 * i) ∧
    wordAt v (a + 8 * i) + strings[i].length < USTACK + ustack_page * PGSIZE ∧ CString v (wordAt v (a + 8 * i)) strings[i]
  last : wordAt v (a + 8 * strings.length) = 0

/-- The initial stack of the System V interface. -/
structure Decodes (v : Nat → UInt8) (ustack_page sp : Nat) (args envs : List (List UInt8)) : Prop where
  argc : wordAt v sp = args.length
  argv : Vector v ustack_page (sp + 8) args
  envp : Vector v ustack_page (sp + 8 * (args.length + 2)) envs
  auxv : ∃ n, wordAt v (sp + 8 * (args.length + envs.length + 3) + 16 * n) = 0

/-- What a program may rely on: the pointer is aligned, and the stack is that of its arguments. -/
structure StackLaw (p pagetable : PageTable) (bprm : binprm) (argv envp : Option (Nat → Nat)) (ustack_page : Nat) (ram : Ram)
    (im : Image) : Prop where
  aligned : im.sp % 16 = 0
  decodes : ∀ args envs, Strings (fun a => ram ((argSource bprm).lookup p a)) argv args → Strings (view ram p) envp envs →
    Decodes (view im.ram pagetable) ustack_page im.sp args envs

/-! ## Where the pointer is -/

section

variable {f : Frame} {p : PageTable} {source : Source} {size fuel : Nat} {vector : Nat → Nat} {addrs addrs' : List Nat}
  {st st' : Stack}

/-- One turn of a loop that goes on. -/
theorem pushStrings_step (h : pushStrings f p source size vector (fuel + 1) addrs st = .ok (some (addrs', st')))
    (hne : vector addrs.length ≠ 0) :
    ∃ st₁, addrs.length < size ∧ source.lookup p (vector addrs.length) ≠ 0 ∧
      pushString f source st (vector addrs.length) (source.lookup p (vector addrs.length)) = .ok (some st₁) ∧
      pushStrings f p source size vector fuel (addrs ++ [f.SPP2SP st₁.spp]) st₁ = .ok (some (addrs', st')) := by
  rw [pushStrings, if_neg hne] at h
  split at h
  · cases h
  dsimp only at h
  split at h
  · cases h
  next hcp =>
    cases hpush : pushString f source st (vector addrs.length) (source.lookup p (vector addrs.length)) with
    | error e =>
      rw [hpush] at h
      cases h
    | ok r =>
      rw [hpush, ok_bind] at h
      cases r with
      | none => cases h
      | some st₁ =>
        dsimp only at h
        split at h
        next hlt => exact ⟨st₁, hlt, hcp, rfl, h⟩
        next => cases h

theorem pushStrings_done (h : pushStrings f p source size vector (fuel + 1) addrs st = .ok (some (addrs', st')))
    (hzero : vector addrs.length = 0) : addrs.length < size ∧ addrs' = addrs ∧ st' = st := by
  rw [pushStrings, if_pos hzero] at h
  split at h
  next hlt =>
    cases h
    exact ⟨hlt, rfl, rfl⟩
  next => cases h

/-- What holds of the stack, and is kept by each string, holds when the strings are pushed. -/
theorem pushStrings_inv {P : List Nat → Stack → Prop}
    (hstep : ∀ addrs st st₁, P addrs st → addrs.length < size → vector addrs.length ≠ 0 →
      source.lookup p (vector addrs.length) ≠ 0 →
      pushString f source st (vector addrs.length) (source.lookup p (vector addrs.length)) = .ok (some st₁) → P (addrs ++ [f.SPP2SP st₁.spp]) st₁)
    (hP : P addrs st) (h : pushStrings f p source size vector fuel addrs st = .ok (some (addrs', st'))) :
    P addrs' st' ∧ addrs'.length < size ∧ vector addrs'.length = 0 := by
  induction fuel generalizing addrs st with
  | zero => cases h
  | succ fuel ih =>
    rcases eq_or_ne (vector addrs.length) 0 with hzero | hne
    · obtain ⟨hlt, rfl, rfl⟩ := pushStrings_done h hzero
      exact ⟨hP, hlt, hzero⟩
    · obtain ⟨st₁, hlt, hcp, hpush, hrest⟩ := pushStrings_step h hne
      exact ih (hstep addrs st st₁ hP hlt hne hcp hpush) hrest

end

theorem pushString_ok {f : Frame} {source : Source} {st st' : Stack} {vaddr cp : Nat}
    (h : pushString f source st vaddr cp = .ok (some st')) :
    ∃ n, strlen st.ram cp = some n ∧ f.stackbase ≤ down8 (sub64 st.spp (n + 1)) ∧
      st' = ⟨memmove st.ram (down8 (sub64 st.spp (n + 1))) cp (n + 1), down8 (sub64 st.spp (n + 1)),
        st.trace ++ [.read source vaddr cp (n + 1),
          .write (f.SPP2SP (down8 (sub64 st.spp (n + 1)))) (down8 (sub64 st.spp (n + 1))) (n + 1)]⟩ := by
  unfold pushString at h
  cases hlen : strlen st.ram cp with
  | none =>
    rw [hlen] at h
    cases h
  | some n =>
    rw [hlen] at h
    dsimp only at h
    split at h
    · cases h
    next hle =>
      cases h
      exact ⟨n, rfl, not_lt.mp hle, rfl⟩

theorem pushVector_spec {f : Frame} {p : PageTable} {source : Source} {size : Nat} {vector : Option (Nat → Nat)}
    {addrs : List Nat} {st st' : Stack} (hsize : 0 < size)
    (h : pushVector f p source size vector st = .ok (some (addrs, st'))) :
    addrs.length < size ∧ (st.spp % 8 = 0 → st'.spp % 8 = 0) := by
  cases vector with
  | none =>
    cases h
    exact ⟨hsize, id⟩
  | some vector =>
    obtain ⟨hP, hlt, -⟩ := @pushStrings_inv _ _ _ _ _ _ _ _ _ _ (fun _ st₁ => st.spp % 8 = 0 → st₁.spp % 8 = 0) (fun _ _ st₁ _ _ _ _ hpush => by
      obtain ⟨n, -, -, rfl⟩ := pushString_ok hpush
      intro _
      simp only [down8]
      omega) id h
    exact ⟨hlt, hP⟩

/-- The lower end of the stack, from that of the strings. -/
def lowerEnd (spp argc envpc : Nat) : Nat :=
  sub64 (down8 (sub64 (down8 (sub64 (sub64 (align16 spp argc envpc) (AUX_CNT * 16 + 8)) ((envpc + 1) * 8))) ((argc + 1) * 8))) 8

theorem putBlock_ok {f : Frame} {st st' : Stack} {spp : Nat} {words : List Nat} (h : putBlock f st spp words = some st') :
    f.stackbase ≤ spp ∧
      st' = ⟨putWords st.ram spp words, spp, st.trace ++ [.write (f.SPP2SP spp) spp (8 * words.length)]⟩ := by
  unfold putBlock at h
  split at h
  · cases h
  next hle =>
    cases h
    exact ⟨not_lt.mp hle, rfl⟩

theorem pushVectors_sp {f : Frame} {bprm : binprm} {argv_addr envp_addr : List Nat} {st : Stack} {im : Image}
    (h : pushVectors f bprm argv_addr envp_addr st = some im) :
    im.sp = f.SPP2SP (lowerEnd st.spp argv_addr.length envp_addr.length) := by
  unfold pushVectors at h
  obtain ⟨st₁, h₁, h⟩ := Option.bind_eq_some_iff.mp h
  obtain ⟨st₂, h₂, h⟩ := Option.bind_eq_some_iff.mp h
  obtain ⟨st₃, h₃, h⟩ := Option.bind_eq_some_iff.mp h
  obtain ⟨-, rfl⟩ := putBlock_ok h₁
  obtain ⟨-, rfl⟩ := putBlock_ok h₂
  obtain ⟨-, rfl⟩ := putBlock_ok h₃
  rw [← Option.some_inj.mp h]
  simp only [lowerEnd]

theorem stacktop_cases (pagetable : PageTable) (ustack_page : Nat) :
    (frameOf pagetable ustack_page).stacktop % 16 = 0 ∨ (frameOf pagetable ustack_page).stacktop = 1 := by
  unfold frameOf getphyaddr
  dsimp only
  have hal := Mm.Vm.walkaddr_pa_aligned pagetable (USTACK + ustack_page * PGSIZE - 1)
  have hoff : USTACK + ustack_page * PGSIZE - 1 - PGROUNDDOWN (USTACK + ustack_page * PGSIZE - 1) = 4095 := by
    have hustack : USTACK = 274856894464 := by decide
    simp only [PGROUNDDOWN, Mm.Vm.pgsize_eq, hustack]
    omega
  split
  · exact .inr rfl
  rw [hoff]
  left
  generalize walkaddr_pa pagetable (USTACK + ustack_page * PGSIZE - 1) = pa at hal ⊢
  rw [Mm.Vm.pgsize_eq] at hal
  simp only [add64]
  omega

theorem align16_mod {spp : Nat} (hspp : spp % 8 = 0) (argc envpc : Nat) :
    align16 spp argc envpc % 16 = 8 * ((argc + envpc + 1) % 2) := by
  unfold align16 sub64 AUX_CNT
  split <;> omega

theorem lowerEnd_mod {spp argc envpc : Nat} (hspp : spp % 8 = 0) (hargc : argc < MAXARG) (henvpc : envpc < MAXENV) :
    lowerEnd spp argc envpc % 16 = 8 := by
  have halign := align16_mod hspp argc envpc
  unfold lowerEnd
  generalize align16 spp argc envpc = r at halign ⊢
  simp only [down8, sub64, MAXARG, MAXENV, AUX_CNT] at *
  omega

theorem lowerEnd_mod_eight (spp argc envpc : Nat) : lowerEnd spp argc envpc % 8 = 0 := by
  simp only [lowerEnd, down8, sub64]
  omega

theorem lowerEnd_lt (spp argc envpc : Nat) : lowerEnd spp argc envpc < 2 ^ 64 := Nat.mod_lt _ (by decide)

/-- **The stack pointer is never aligned.** -/
theorem ustack_misaligned {p pagetable : PageTable} {bprm : binprm} {argv envp : Option (Nat → Nat)} {ustack_page : Nat} {ram : Ram}
    {im : Image} (h : ustack_init p pagetable bprm argv envp ustack_page ram = .ok (some im)) :
    ¬StackLaw p pagetable bprm argv envp ustack_page ram im := by
  intro hlaw
  have haligned := hlaw.aligned
  unfold ustack_init at h
  dsimp only at h
  obtain ⟨r, hargv, h⟩ := ok_of_bind h
  cases r with
  | none => cases h
  | some r =>
    obtain ⟨argv_addr, st⟩ := r
    obtain ⟨r, henvp, h⟩ := ok_of_bind h
    cases r with
    | none => cases h
    | some r =>
      obtain ⟨envp_addr, st'⟩ := r
      have hpush : pushVectors (frameOf pagetable ustack_page) bprm argv_addr envp_addr st' = some im := Except.ok.inj h
      obtain ⟨hargc, hmod⟩ := pushVector_spec (by decide) hargv
      obtain ⟨henvpc, hmod'⟩ := pushVector_spec (by decide) henvp
      rw [pushVectors_sp hpush, Frame.SPP2SP] at haligned
      have hpages : (frameOf pagetable ustack_page).ustack_page * PGSIZE % 16 = 0 := by
        rw [Mm.Vm.pgsize_eq]
        omega
      have hustack : USTACK % 16 = 0 := by decide
      have height := lowerEnd_mod_eight st'.spp argv_addr.length envp_addr.length
      have hlt := lowerEnd_lt st'.spp argv_addr.length envp_addr.length
      rcases stacktop_cases pagetable ustack_page with htop | htop
      · have hlow := lowerEnd_mod (hmod' (hmod (by dsimp only; omega))) hargc henvpc
        simp only [sub64] at haligned
        omega
      · rw [htop] at haligned
        simp only [sub64] at haligned
        omega

/-- Frames in a row behind the pages of a stack. -/
def inARow : PageTable :=
  { uvmcreate with
    dir := fun r => if r = region USTACK then
        .table 1 fun s => if (slot USTACK).val ≤ s.val then
            ⟨0x80000 + s.val, Mm.Vm.PTE_V ||| Mm.Vm.PTE_U ||| Mm.Vm.PTE_R ||| Mm.Vm.PTE_W⟩ else Pte.zero
      else .none }

/-- A program with no arguments. -/
def plain : binprm := ⟨"a.out", false, false, 0, 0x1000, 64, 1, 56⟩

theorem plain_accepted :
    ∃ im, ustack_init uvmcreate inARow plain none none USTACK_PAGE (fun _ => 0) = .ok (some im) ∧ im.sp % 16 = 8 := by
  have hsp : ((ustack_init uvmcreate inARow plain none none USTACK_PAGE fun _ => 0).toOption.bind
      fun r => r.map fun im => im.sp % 16) = some 8 := by
    decide +kernel
  obtain ⟨r, hr, hsp⟩ := Option.bind_eq_some_iff.mp hsp
  obtain ⟨im, rfl, hsp⟩ := Option.map_eq_some_iff.mp hsp
  exact ⟨im, ok_of_toOption hr, Option.some_inj.mp hsp⟩

theorem ustack_misaligned_plain :
    ∃ im, ustack_init uvmcreate inARow plain none none USTACK_PAGE (fun _ => 0) = .ok (some im) ∧
      ¬StackLaw uvmcreate inARow plain none none USTACK_PAGE (fun _ => 0) im := by
  obtain ⟨im, him, -⟩ := plain_accepted
  exact ⟨im, him, ustack_misaligned him⟩

/-- No arguments and no environment: the pointer is 8 above a multiple of 16. -/
theorem plain_stack_misaligned : ¬∀ (p pagetable : PageTable) (bprm : binprm) (argv envp : Option (Nat → Nat)) (ustack_page : Nat)
    (ram : Ram) (im : Image), ustack_init p pagetable bprm argv envp ustack_page ram = .ok (some im) →
      StackLaw p pagetable bprm argv envp ustack_page ram im := by
  intro h
  obtain ⟨im, him, hsp⟩ := plain_accepted
  have haligned := (h _ _ _ _ _ _ _ im him).aligned
  rw [hsp] at haligned
  cases haligned

end LostWakeup.Process.Exec
