/-
# LostWakeup.Process.StackFrames — which memory `ustack_init` reads and writes.

One address of each string is translated, and one of the stack; from there on the function counts in physical addresses.
So it stays at the strings and in the stack when the frames behind them are in a row, as far as they are used, and when
the last word, which is pushed without a look at the bottom of the stack, is not the one below it.
-/
import LostWakeup.Mm.UserCopy
import LostWakeup.Process.UserStack

namespace LostWakeup.Process.Exec

open Library
open Mm.Vm (PageTable walkaddr_pa MAXVA uvmcreate region)
open Mm.Vma (PGSIZE PGROUNDDOWN)
open List (length_append length_singleton mem_append)

/-! ## The property -/

/-- The end of the stack. -/
def stackEnd (ustack_page : Nat) : Nat := USTACK + ustack_page * PGSIZE

/-- The bytes behind the new stack. -/
def BehindStack (pagetable : PageTable) (ustack_page x : Nat) : Prop :=
  ∃ va, USTACK ≤ va ∧ va < stackEnd ustack_page ∧ getphyaddr pagetable va = x

/-- Byte by byte, what is read is the string at its address, which is no part of the new stack, and what is written is
the stack at the address that is recorded for it. -/
def Confined (p pagetable : PageTable) (ustack_page : Nat) : Access → Prop
  | .read source vaddr paddr len =>
    ∀ j < len, source.lookup p (vaddr + j) = paddr + j ∧ ¬BehindStack pagetable ustack_page (paddr + j)
  | .write vaddr paddr len => ∀ j < len, USTACK ≤ vaddr + j ∧ vaddr + j < stackEnd ustack_page ∧
      getphyaddr pagetable (vaddr + j) = paddr + j

/-! ## The condition -/

/-- The number of strings of a vector, before its NULL. -/
def Counts (vector : Option (Nat → Nat)) (count : Nat) : Prop :=
  match vector with
  | none => count = 0
  | some ptrs => (∀ i < count, ptrs i ≠ 0) ∧ ptrs count = 0

/-- The bytes of a string, up to the NUL that `strlen` finds, are behind the addresses of the string. -/
def Straight (ram : Ram) (p pagetable : PageTable) (ustack_page : Nat) (source : Source) (va : Nat) : Prop :=
  ∃ n, strlen ram (source.lookup p va) = some n ∧ ∀ j ≤ n, source.lookup p (va + j) = source.lookup p va + j ∧
    ¬BehindStack pagetable ustack_page (source.lookup p va + j)

def StraightVector (ram : Ram) (p pagetable : PageTable) (ustack_page : Nat) (source : Source) (vector : Option (Nat → Nat))
    (count : Nat) : Prop :=
  ∀ ptrs, vector = some ptrs → ∀ i < count, Straight ram p pagetable ustack_page source (ptrs i)

def lengths (ram : Ram) (p : PageTable) (source : Source) (vector : Option (Nat → Nat)) (count : Nat) : List Nat :=
  match vector with
  | none => []
  | some ptrs => (List.range count).map fun i => (strlen ram (source.lookup p (ptrs i))).getD 0

/-- The lower end of the stack with a string of `n` characters. -/
def withString (spp n : Nat) : Nat := down8 (spp - (n + 1))

/-- The lower end of the stack behind the strings, when all is pushed. -/
def withVectors (spp argc envpc : Nat) : Nat :=
  spp - (if (spp % 16 ≠ 0 ∧ (argc + envpc + 1 + AUX_CNT) % 2 = 0) ∨ (spp % 16 = 0 ∧ (argc + envpc + 2 + 1) % 2 = 1) then 8 else 0)
    - (AUX_CNT * 16 + 8) - (envpc + 1) * 8 - (argc + 1) * 8 - 8

/-- The lower end of the whole stack. -/
def lowest (ram : Ram) (p : PageTable) (bprm : binprm) (argv envp : Option (Nat → Nat)) (argc envpc stacktop : Nat) : Nat :=
  withVectors ((lengths ram p .user envp envpc).foldl withString
    ((lengths ram p (argSource bprm) argv argc).foldl withString stacktop)) argc envpc

/-- The stack from `lo` to its top has its frames in a row. -/
def RowsFrom (pagetable : PageTable) (ustack_page lo : Nat) : Prop :=
  ∀ va, stackEnd ustack_page - ((frameOf pagetable ustack_page).stacktop - lo) ≤ va → va < stackEnd ustack_page →
    getphyaddr pagetable va = (frameOf pagetable ustack_page).stacktop - (stackEnd ustack_page - va)

/-- The frames of the strings, and those of the stack as far as it is used, are in a row, and the stack is large enough. -/
structure FramesInARow (p pagetable : PageTable) (bprm : binprm) (argv envp : Option (Nat → Nat)) (argc envpc ustack_page : Nat)
    (ram : Ram) : Prop where
  args : StraightVector ram p pagetable ustack_page (argSource bprm) argv argc
  envs : StraightVector ram p pagetable ustack_page .user envp envpc
  fits : (frameOf pagetable ustack_page).stackbase ≤
    lowest ram p bprm argv envp argc envpc (frameOf pagetable ustack_page).stacktop
  frames : RowsFrom pagetable ustack_page (lowest ram p bprm argv envp argc envpc (frameOf pagetable ustack_page).stacktop)

/-- The kernel is at the start of memory, and takes more of it than a stack has pages. -/
def AboveKernel (pagetable : PageTable) (ustack_page : Nat) : Prop :=
  2 ^ 31 + ustack_page * PGSIZE ≤ (frameOf pagetable ustack_page).stacktop

/-! ## Strings -/

theorem strlenFrom_lt {ram : Ram} {fuel s n : Nat} (h : strlenFrom ram fuel s = some n) : n < fuel := by
  induction fuel generalizing s n with
  | zero => cases h
  | succ fuel ih =>
    rw [strlenFrom] at h
    split at h
    · cases h
      exact Nat.succ_pos fuel
    · obtain ⟨m, hm, rfl⟩ := Option.map_eq_some_iff.mp h
      exact Nat.succ_lt_succ (ih hm)

theorem strlenFrom_congr {ram ram' : Ram} {fuel s n : Nat} (hsame : ∀ j ≤ n, ram' (s + j) = ram (s + j))
    (h : strlenFrom ram fuel s = some n) : strlenFrom ram' fuel s = some n := by
  induction fuel generalizing s n with
  | zero => cases h
  | succ fuel ih =>
    have hhere : ram' s = ram s := hsame 0 (Nat.zero_le n)
    rw [strlenFrom] at h ⊢
    rw [hhere]
    by_cases hnul : ram s = 0
    · rw [if_pos hnul] at h ⊢
      exact h
    rw [if_neg hnul] at h ⊢
    obtain ⟨m, hm, rfl⟩ := Option.map_eq_some_iff.mp h
    have hrest : ∀ j ≤ m, ram' (s + 1 + j) = ram (s + 1 + j) := by
      intro j hj
      rw [Nat.add_assoc, Nat.add_comm 1 j]
      exact hsame (j + 1) (Nat.succ_le_succ hj)
    rw [ih hrest hm]
    rfl

/-! ## The shape of the trace -/

/-- The writes go from the top of the stack down to `lo`, and leave no gap of more than 16 bytes. -/
structure Shaped (f : Frame) (trace : List Access) (lo : Nat) : Prop where
  high : lo ≤ f.stacktop
  writes : ∀ vaddr paddr len, Access.write vaddr paddr len ∈ trace →
    vaddr = f.SPP2SP paddr ∧ lo ≤ paddr ∧ paddr + len ≤ f.stacktop
  covers : ∀ x, lo ≤ x → x < f.stacktop → ∃ vaddr paddr len, Access.write vaddr paddr len ∈ trace ∧
    ∃ y, paddr ≤ y ∧ y < paddr + len ∧ lo ≤ y ∧ y ≤ x ∧ x < y + 17

theorem Shaped.nil (f : Frame) : Shaped f [] f.stacktop :=
  ⟨le_rfl, fun _ _ _ h => absurd h List.not_mem_nil, fun _ hlo hhi => absurd hhi hlo.not_gt⟩

/-- One write more, below the others. -/
theorem Shaped.push {f : Frame} {trace trace' : List Access} {lo spp len : Nat} (h : Shaped f trace lo) (hlen : 0 < len)
    (hbelow : spp + len ≤ lo) (hgap : lo ≤ spp + len + 16)
    (hmem : ∀ vaddr paddr n, Access.write vaddr paddr n ∈ trace' ↔
      Access.write vaddr paddr n ∈ trace ∨ Access.write vaddr paddr n = .write (f.SPP2SP spp) spp len) : Shaped f trace' spp := by
  have hhigh := h.high
  refine ⟨by omega, fun vaddr paddr n hw => ?_, fun x hlo hhi => ?_⟩
  · rcases (hmem vaddr paddr n).mp hw with hold | hnew
    · obtain ⟨hva, hlow, hend⟩ := h.writes vaddr paddr n hold
      exact ⟨hva, by omega, hend⟩
    · cases hnew
      exact ⟨rfl, Nat.le_refl spp, by omega⟩
  · have hself : Access.write (f.SPP2SP spp) spp len ∈ trace' := (hmem _ _ _).mpr (.inr rfl)
    rcases lt_or_ge x (spp + len) with hin | hout
    · exact ⟨_, spp, len, hself, x, hlo, hin, hlo, Nat.le_refl x, by omega⟩
    rcases lt_or_ge x lo with hgapx | habove
    · -- in the gap: the last byte of the new write
      exact ⟨_, spp, len, hself, spp + len - 1, by omega, by omega, by omega, by omega, by omega⟩
    · obtain ⟨vaddr, paddr, n, hw, y, hy⟩ := h.covers x habove hhi
      exact ⟨vaddr, paddr, n, (hmem _ _ _).mpr (.inl hw), y, hy.1, hy.2.1, by omega, hy.2.2.2.1, hy.2.2.2.2⟩

/-! ## Pages -/

section

variable {pagetable : PageTable} {ustack_page : Nat}

theorem walkaddr_pa_page (pt : PageTable) {a b : Nat} (h : a / PGSIZE = b / PGSIZE) : walkaddr_pa pt a = walkaddr_pa pt b := by
  have hdown : PGROUNDDOWN a = PGROUNDDOWN b := congrArg (· * PGSIZE) h
  rw [walkaddr_pa, walkaddr_pa, Mm.Vm.walkaddr_eq, Mm.Vm.walkaddr_eq, ← Mm.Vm.translate_down pt a, hdown, Mm.Vm.translate_down]

theorem walkaddr_pa_lt (pt : PageTable) (a : Nat) : walkaddr_pa pt a < 2 ^ 64 := by
  unfold walkaddr_pa
  split
  · exact Nat.pow_pos (by decide)
  · exact Nat.mod_lt _ (by decide)

theorem getphyaddr_eq (pt : PageTable) (a : Nat) :
    getphyaddr pt a = if walkaddr_pa pt a = 0 then 0 else walkaddr_pa pt a + a % PGSIZE := by
  have hoff : a - PGROUNDDOWN a = a % PGSIZE := (Mm.Vm.down_eq a).1
  have hal := Mm.Vm.walkaddr_pa_aligned pt a
  have hlt := walkaddr_pa_lt pt a
  rw [getphyaddr, hoff]
  split
  · rfl
  · rw [Mm.Vm.pgsize_eq] at hal ⊢
    rw [add64]
    omega

theorem getphyaddr_page (pt : PageTable) {a b : Nat} (h : a / PGSIZE = b / PGSIZE) (hne : getphyaddr pt a ≠ 0) :
    getphyaddr pt b + a % PGSIZE = getphyaddr pt a + b % PGSIZE := by
  rw [getphyaddr_eq, walkaddr_pa_page pt h] at hne
  rw [getphyaddr_eq pt a, getphyaddr_eq pt b, walkaddr_pa_page pt h]
  split at hne
  · exact absurd rfl hne
  next hpa =>
    rw [if_neg hpa, if_neg hpa]
    omega

/-- The frame of a stack that is mapped, in memory. -/
theorem frame_of_above (habove : AboveKernel pagetable ustack_page) :
    (frameOf pagetable ustack_page).stacktop % PGSIZE = 0 ∧ (frameOf pagetable ustack_page).stacktop < 2 ^ 64 ∧
      (frameOf pagetable ustack_page).stackbase + ustack_page * PGSIZE = (frameOf pagetable ustack_page).stacktop ∧
      stackEnd ustack_page ≤ MAXVA := by
  have htop : (frameOf pagetable ustack_page).stacktop = add64 (getphyaddr pagetable (stackEnd ustack_page - 1)) 1 := rfl
  have hlt : (frameOf pagetable ustack_page).stacktop < 2 ^ 64 := Nat.mod_lt _ (by decide)
  have hbase : (frameOf pagetable ustack_page).stackbase = sub64 (frameOf pagetable ustack_page).stacktop (ustack_page * PGSIZE) := rfl
  have hmemory : 2 ^ 31 + ustack_page * PGSIZE ≤ (frameOf pagetable ustack_page).stacktop := habove
  have hmapped : walkaddr_pa pagetable (stackEnd ustack_page - 1) ≠ 0 := by
    intro hzero
    rw [AboveKernel, htop, getphyaddr_eq, if_pos hzero, add64] at habove
    omega
  have hal := Mm.Vm.walkaddr_pa_aligned pagetable (stackEnd ustack_page - 1)
  have hustack : USTACK = 274856894464 := by decide
  refine ⟨?_, hlt, ?_, ?_⟩
  · rw [htop, getphyaddr_eq, if_neg hmapped, add64]
    rw [Mm.Vm.pgsize_eq] at hal ⊢
    simp only [stackEnd, hustack, Mm.Vm.pgsize_eq] at hal ⊢
    omega
  · rw [hbase, sub64]
    omega
  · by_contra hge
    apply hmapped
    have hge : stackEnd ustack_page - 1 ≥ MAXVA := by omega
    rw [walkaddr_pa, Mm.Vm.walkaddr, if_pos hge]

theorem SPP2SP_eq (habove : AboveKernel pagetable ustack_page) {spp : Nat}
    (hlow : (frameOf pagetable ustack_page).stackbase ≤ spp + 8) (hhigh : spp ≤ (frameOf pagetable ustack_page).stacktop) :
    (frameOf pagetable ustack_page).SPP2SP spp = stackEnd ustack_page - ((frameOf pagetable ustack_page).stacktop - spp) := by
  obtain ⟨-, hlt, hbase, hend⟩ := frame_of_above habove
  have hustack : USTACK = 274856894464 := by decide
  have hmax : MAXVA = 2 ^ 38 := rfl
  have hpage : (frameOf pagetable ustack_page).ustack_page = ustack_page := rfl
  have hstack : stackEnd ustack_page = USTACK + ustack_page * PGSIZE := rfl
  rw [Frame.SPP2SP, hpage, ← hstack, sub64, sub64]
  omega

/-- All writes are confined if and only if the frames are in a row from the lowest one on, and this is in the stack. -/
theorem writes_confined_iff (p : PageTable) {trace : List Access} {lo : Nat}
    (habove : AboveKernel pagetable ustack_page)
    (hshape : Shaped (frameOf pagetable ustack_page) trace lo) (hlow : (frameOf pagetable ustack_page).stackbase ≤ lo + 8)
    (hlt : lo < (frameOf pagetable ustack_page).stacktop) :
    (∀ vaddr paddr len, Access.write vaddr paddr len ∈ trace → Confined p pagetable ustack_page (.write vaddr paddr len)) ↔
      (frameOf pagetable ustack_page).stackbase ≤ lo ∧ RowsFrom pagetable ustack_page lo := by
  obtain ⟨hal, -, hbase, hend⟩ := frame_of_above habove
  have hustack : USTACK = 274856894464 := by decide
  have hstack : stackEnd ustack_page = USTACK + ustack_page * PGSIZE := rfl
  constructor
  · intro hconf
    -- the lowest byte is written, so its address is in the stack
    have hbottom : (frameOf pagetable ustack_page).stackbase ≤ lo := by
      obtain ⟨vaddr, paddr, len, hw, y, hy⟩ := hshape.covers lo le_rfl hlt
      obtain ⟨hva, hlo, -⟩ := hshape.writes vaddr paddr len hw
      obtain rfl : paddr = lo := by omega
      have hin := (hconf vaddr paddr len hw 0 (by omega)).1
      rw [hva, SPP2SP_eq habove hlow hlt.le] at hin
      omega
    refine ⟨hbottom, fun va hlo hhi => ?_⟩
    -- some byte of the page of `va` is written
    obtain ⟨first, hfirst⟩ : ∃ first, first = (frameOf pagetable ustack_page).stacktop - (stackEnd ustack_page - va / PGSIZE * PGSIZE) :=
      ⟨_, rfl⟩
    have hmemory : 2 ^ 31 + ustack_page * PGSIZE ≤ (frameOf pagetable ustack_page).stacktop := habove
    rw [Mm.Vm.pgsize_eq] at hal hbase hstack hfirst hmemory
    obtain ⟨vaddr, paddr, len, hw, y, hy⟩ := hshape.covers (max (first + 16) lo) (le_max_right _ _) (by omega)
    obtain ⟨hva, hle, hin⟩ := hshape.writes vaddr paddr len hw
    obtain ⟨-, -, hphys⟩ := hconf vaddr paddr len hw (y - paddr) (by omega)
    rw [hva, SPP2SP_eq habove (by omega) (by omega)] at hphys
    have hbyte : stackEnd ustack_page - ((frameOf pagetable ustack_page).stacktop - paddr) + (y - paddr) =
        stackEnd ustack_page - ((frameOf pagetable ustack_page).stacktop - y) := by omega
    rw [hbyte] at hphys
    have hpage := @getphyaddr_page pagetable (stackEnd ustack_page - ((frameOf pagetable ustack_page).stacktop - y)) va
      (by rw [Mm.Vm.pgsize_eq]; omega) (by omega)
    rw [hphys, Mm.Vm.pgsize_eq] at hpage
    omega
  · rintro ⟨hbottom, hrows⟩ vaddr paddr len hw j hj
    obtain ⟨hva, hle, hin⟩ := hshape.writes vaddr paddr len hw
    rw [hva, SPP2SP_eq habove (by omega) (by omega)]
    refine ⟨by omega, by omega, ?_⟩
    rw [hrows _ (by omega) (by omega)]
    omega

end

/-! ## One string -/

section

variable {p pagetable : PageTable} {ustack_page : Nat} {ram : Ram} {source : Source}

/-- A stack that is being built. -/
structure Ready (f : Frame) (st : Stack) : Prop where
  shape : Shaped f st.trace st.spp
  aligned : st.spp % 8 = 0
  inside : f.stackbase ≤ st.spp

def AllConfined (p pagetable : PageTable) (ustack_page : Nat) (trace : List Access) : Prop :=
  ∀ x ∈ trace, Confined p pagetable ustack_page x

def ReadsConfined (p pagetable : PageTable) (ustack_page : Nat) (trace : List Access) : Prop :=
  ∀ source vaddr paddr len, Access.read source vaddr paddr len ∈ trace →
    Confined p pagetable ustack_page (.read source vaddr paddr len)

/-- Nothing is changed but the new stack. -/
def Untouched (pagetable : PageTable) (ustack_page : Nat) (ram ram' : Ram) : Prop :=
  ∀ x, ¬BehindStack pagetable ustack_page x → ram' x = ram x

theorem stackbase_large (habove : AboveKernel pagetable ustack_page) : 2 ^ 31 ≤ (frameOf pagetable ustack_page).stackbase := by
  obtain ⟨-, -, hbase, -⟩ := frame_of_above habove
  have hmemory : 2 ^ 31 + ustack_page * PGSIZE ≤ (frameOf pagetable ustack_page).stacktop := habove
  omega

/-- A string, pushed where nothing wraps around. -/
theorem pushString_ready (habove : AboveKernel pagetable ustack_page) {st st' : Stack} {vaddr cp : Nat}
    (hready : Ready (frameOf pagetable ustack_page) st)
    (h : pushString (frameOf pagetable ustack_page) source st vaddr cp = .ok (some st')) :
    ∃ n, strlen st.ram cp = some n ∧ st'.spp = withString st.spp n ∧ st'.ram = memmove st.ram st'.spp cp (n + 1) ∧
      st'.trace = st.trace ++ [.read source vaddr cp (n + 1),
        .write ((frameOf pagetable ustack_page).SPP2SP st'.spp) st'.spp (n + 1)] ∧
      st'.spp + (n + 1) ≤ st.spp ∧ Ready (frameOf pagetable ustack_page) st' := by
  obtain ⟨n, hlen, hlow, rfl⟩ := pushString_ok h
  obtain ⟨-, htop, -, -⟩ := frame_of_above habove
  have hn : n < 2 ^ 31 := strlenFrom_lt hlen
  have hbase := stackbase_large habove
  have hinside := hready.inside
  have hhigh := hready.shape.high
  have hspp : down8 (sub64 st.spp (n + 1)) = withString st.spp n := by
    have hsub : sub64 st.spp (n + 1) = st.spp - (n + 1) := by
      unfold sub64
      omega
    rw [hsub, withString]
  have hbelow : withString st.spp n + (n + 1) ≤ st.spp := by
    unfold withString down8
    omega
  rw [hspp] at hlow ⊢
  refine ⟨n, hlen, rfl, rfl, rfl, hbelow, ⟨?_, ?_, hlow⟩⟩
  · apply hready.shape.push (Nat.succ_pos n) hbelow
    · show st.spp ≤ withString st.spp n + (n + 1) + 16
      unfold withString down8
      omega
    · intro vaddr' paddr len
      simp only [mem_append, List.mem_cons, List.not_mem_nil, or_false, reduceCtorEq, false_or]
  · show withString st.spp n % 8 = 0
    unfold withString down8
    omega

theorem Confined.behind {vaddr paddr len x : Nat} (h : Confined p pagetable ustack_page (.write vaddr paddr len))
    (hlow : paddr ≤ x) (hhigh : x < paddr + len) : BehindStack pagetable ustack_page x := by
  obtain ⟨hlo, hhi, hphys⟩ := h (x - paddr) (by omega)
  exact ⟨_, hlo, hhi, by omega⟩

theorem RowsFrom.behind (habove : AboveKernel pagetable ustack_page) {lo x : Nat} (h : RowsFrom pagetable ustack_page lo)
    (hbase : (frameOf pagetable ustack_page).stackbase ≤ lo) (hlow : lo ≤ x) (hhigh : x < (frameOf pagetable ustack_page).stacktop) :
    BehindStack pagetable ustack_page x := by
  obtain ⟨-, -, hsum, -⟩ := frame_of_above habove
  have hstack : stackEnd ustack_page = USTACK + ustack_page * PGSIZE := rfl
  refine ⟨stackEnd ustack_page - ((frameOf pagetable ustack_page).stacktop - x), by omega, by omega, ?_⟩
  rw [h _ (by omega) (by omega)]
  omega

theorem Untouched.memmove {ram' : Ram} {dst src len : Nat} (h : Untouched pagetable ustack_page ram ram')
    (hin : ∀ x, dst ≤ x → x < dst + len → BehindStack pagetable ustack_page x) :
    Untouched pagetable ustack_page ram (memmove ram' dst src len) := by
  intro x hout
  have hnot : ¬(dst ≤ x ∧ x < dst + len) := fun hx => hout (hin x hx.1 hx.2)
  rw [Exec.memmove, if_neg hnot]
  exact h x hout

theorem Untouched.strlen_iff {ram' : Ram} (h : Untouched pagetable ustack_page ram ram') {s n : Nat}
    (hout : ∀ j ≤ n, ¬BehindStack pagetable ustack_page (s + j)) : strlen ram' s = some n ↔ strlen ram s = some n :=
  ⟨strlenFrom_congr fun j hj => (h _ (hout j hj)).symm, strlenFrom_congr fun j hj => h _ (hout j hj)⟩

/-! ## A vector -/

/-- The first strings of a vector are pushed, and the memory around the stack is as before. -/
structure Faithful (ram : Ram) (p pagetable : PageTable) (ustack_page : Nat) (source : Source) (vector : Nat → Nat) (start : Nat)
    (count : Nat) (st : Stack) : Prop where
  untouched : Untouched pagetable ustack_page ram st.ram
  straight : ∀ i < count, Straight ram p pagetable ustack_page source (vector i)
  lower : st.spp = (lengths ram p source (some vector) count).foldl withString start

theorem lengths_succ (vector : Nat → Nat) (count : Nat) :
    lengths ram p source (some vector) (count + 1) =
      lengths ram p source (some vector) count ++ [(strlen ram (source.lookup p (vector count))).getD 0] := by
  simp only [lengths, List.range_succ, List.map_append, List.map_cons, List.map_nil]

/-- One string more. -/
theorem Faithful.push {vector : Nat → Nat} {start count n : Nat} {st st' : Stack}
    (h : Faithful ram p pagetable ustack_page source vector start count st)
    (hlen : strlen ram (source.lookup p (vector count)) = some n)
    (hplace : ∀ j ≤ n, source.lookup p (vector count + j) = source.lookup p (vector count) + j ∧
      ¬BehindStack pagetable ustack_page (source.lookup p (vector count) + j))
    (hspp : st'.spp = withString st.spp n)
    (hram : st'.ram = memmove st.ram st'.spp (source.lookup p (vector count)) (n + 1))
    (hin : ∀ x, st'.spp ≤ x → x < st'.spp + (n + 1) → BehindStack pagetable ustack_page x) :
    Faithful ram p pagetable ustack_page source vector start (count + 1) st' := by
  refine ⟨?_, fun i hi => ?_, ?_⟩
  · rw [hram]
    exact h.untouched.memmove hin
  · rcases Nat.lt_succ_iff_lt_or_eq.mp hi with hlt | rfl
    · exact h.straight i hlt
    · exact ⟨n, hlen, hplace⟩
  · rw [hspp, h.lower, lengths_succ, List.foldl_append, hlen]
    rfl

theorem foldl_withString_le (lens : List Nat) (start : Nat) : lens.foldl withString start ≤ start := by
  induction lens generalizing start with
  | nil => exact Nat.le_refl start
  | cons n lens ih =>
    have hle : withString start n ≤ start := by
      unfold withString down8
      omega
    exact Nat.le_trans (ih _) hle

theorem lengths_foldl_mono (vector : Nat → Nat) (start : Nat) {k count : Nat} (h : k ≤ count) :
    (lengths ram p source (some vector) count).foldl withString start ≤
      (lengths ram p source (some vector) k).foldl withString start := by
  induction count with
  | zero =>
    obtain rfl := Nat.le_zero.mp h
    exact le_rfl
  | succ count ih =>
    rcases Nat.eq_or_lt_of_le h with rfl | hlt
    · exact le_rfl
    · apply Nat.le_trans _ (ih (Nat.le_of_lt_succ hlt))
      rw [lengths_succ, List.foldl_append]
      exact foldl_withString_le _ _

theorem AllConfined.left {trace trace' : List Access} (h : AllConfined p pagetable ustack_page (trace ++ trace')) :
    AllConfined p pagetable ustack_page trace :=
  fun x hx => h x (List.mem_append_left _ hx)

/-- What a vector does to the stack, and that the strings are straight if all accesses are confined. -/
structure Pushed (ram : Ram) (p pagetable : PageTable) (ustack_page : Nat) (source : Source) (vector : Nat → Nat) (st₀ : Stack)
    (addrs : List Nat) (st : Stack) : Prop where
  ready : Ready (frameOf pagetable ustack_page) st
  strings : ∀ i < addrs.length, vector i ≠ 0
  prefixes : ∃ trace, st.trace = st₀.trace ++ trace
  faithful : AllConfined p pagetable ustack_page st.trace →
    Faithful ram p pagetable ustack_page source vector st₀.spp addrs.length st

theorem pushStrings_pushed (habove : AboveKernel pagetable ustack_page) {size fuel : Nat} {vector : Nat → Nat}
    {addrs : List Nat} {st₀ st : Stack} (hready : Ready (frameOf pagetable ustack_page) st₀)
    (hsame : AllConfined p pagetable ustack_page st₀.trace → Untouched pagetable ustack_page ram st₀.ram)
    (h : pushStrings (frameOf pagetable ustack_page) p source size vector fuel [] st₀ = .ok (some (addrs, st))) :
    Pushed ram p pagetable ustack_page source vector st₀ addrs st ∧ addrs.length < size ∧ vector addrs.length = 0 := by
  apply @pushStrings_inv _ _ _ _ _ _ _ _ _ _ (Pushed ram p pagetable ustack_page source vector st₀) _ _ h
  · intro addrs st st₁ hst _ hne _ hpush
    obtain ⟨n, hlen, hspp, hram, htrace, -, hready₁⟩ := pushString_ready habove hst.ready hpush
    refine ⟨hready₁, fun i hi => ?_, ?_, fun hall => ?_⟩
    · rw [length_append, length_singleton] at hi
      rcases Nat.lt_succ_iff_lt_or_eq.mp hi with hlt | rfl
      · exact hst.strings i hlt
      · exact hne
    · obtain ⟨trace, ht⟩ := hst.prefixes
      rw [htrace, ht, List.append_assoc]
      exact ⟨_, rfl⟩
    · rw [htrace] at hall
      have hold := hst.faithful hall.left
      have hread : Confined p pagetable ustack_page (.read source (vector addrs.length) (source.lookup p (vector addrs.length)) (n + 1)) :=
        hall _ (List.mem_append_right _ List.mem_cons_self)
      have hwrite : Confined p pagetable ustack_page
          (.write ((frameOf pagetable ustack_page).SPP2SP st₁.spp) st₁.spp (n + 1)) :=
        hall _ (List.mem_append_right _ (List.mem_cons_of_mem _ List.mem_cons_self))
      have hplace := fun j (hj : j ≤ n) => hread j (Nat.lt_succ_of_le hj)
      have hlen₀ := (hold.untouched.strlen_iff fun j hj => (hplace j hj).2).mp hlen
      rw [length_append, length_singleton]
      exact hold.push hlen₀ hplace hspp hram fun x => hwrite.behind
  · refine ⟨hready, fun i hi => absurd hi (Nat.not_lt_zero i), ⟨[], (List.append_nil _).symm⟩, fun hall => ?_⟩
    exact ⟨hsame hall, fun i hi => absurd hi (Nat.not_lt_zero i), rfl⟩

theorem ReadsConfined.push {trace : List Access} {vaddr paddr len va pa n : Nat}
    (h : ReadsConfined p pagetable ustack_page trace) (hread : Confined p pagetable ustack_page (.read source vaddr paddr len)) :
    ReadsConfined p pagetable ustack_page (trace ++ [.read source vaddr paddr len, .write va pa n]) := by
  intro source' vaddr' paddr' len' hmem
  rcases List.mem_append.mp hmem with hold | hnew
  · exact h _ _ _ _ hold
  rcases List.mem_cons.mp hnew with heq | hlast
  · cases heq
    exact hread
  · cases List.mem_singleton.mp hlast

/-- Straight strings are pushed from where they are to where they belong. -/
theorem pushStrings_confined (habove : AboveKernel pagetable ustack_page) {size fuel count lo : Nat} {vector : Nat → Nat}
    {addrs : List Nat} {st₀ st : Stack} (hready : Ready (frameOf pagetable ustack_page) st₀)
    (hsame : Untouched pagetable ustack_page ram st₀.ram) (hreads : ReadsConfined p pagetable ustack_page st₀.trace)
    (hstraight : ∀ i < count, Straight ram p pagetable ustack_page source (vector i)) (hzero : vector count = 0)
    (hrows : RowsFrom pagetable ustack_page lo) (hbase : (frameOf pagetable ustack_page).stackbase ≤ lo)
    (hlo : lo ≤ (lengths ram p source (some vector) count).foldl withString st₀.spp)
    (h : pushStrings (frameOf pagetable ustack_page) p source size vector fuel [] st₀ = .ok (some (addrs, st))) :
    Faithful ram p pagetable ustack_page source vector st₀.spp addrs.length st ∧ ReadsConfined p pagetable ustack_page st.trace := by
  have hstart : Faithful ram p pagetable ustack_page source vector st₀.spp 0 st₀ :=
    ⟨hsame, fun i hi => absurd hi (Nat.not_lt_zero i), rfl⟩
  obtain ⟨⟨-, hfaithful, hconf, -⟩, -⟩ := @pushStrings_inv _ _ _ _ _ _ [] _ _ _ (fun addrs st =>
    Ready (frameOf pagetable ustack_page) st ∧ Faithful ram p pagetable ustack_page source vector st₀.spp addrs.length st ∧
      ReadsConfined p pagetable ustack_page st.trace ∧ addrs.length ≤ count) (by
    rintro addrs st st₁ ⟨hst, hold, hconf, hle⟩ - hne - hpush
    have hlt : addrs.length < count := Nat.lt_of_le_of_ne hle fun heq => hne (heq ▸ hzero)
    obtain ⟨n, hlen₀, hplace⟩ := hstraight addrs.length hlt
    obtain ⟨m, hlen, hspp, hram, htrace, hbelow, hready₁⟩ := pushString_ready habove hst hpush
    rw [(hold.untouched.strlen_iff fun j hj => (hplace j hj).2).mpr hlen₀] at hlen
    obtain rfl : n = m := Option.some_inj.mp hlen
    have hlow : lo ≤ st₁.spp := by
      have hmono := @lengths_foldl_mono p ram source vector st₀.spp (addrs.length + 1) count hlt
      rw [lengths_succ, List.foldl_append, ← hold.lower, hlen₀] at hmono
      rw [hspp]
      exact hlo.trans hmono
    have hhigh := hst.shape.high
    rw [length_append, length_singleton]
    refine ⟨hready₁, hold.push hlen₀ hplace hspp hram fun x hx hx' => hrows.behind habove hbase (by omega) (by omega), ?_, hlt⟩
    rw [htrace]
    exact hconf.push fun j hj => hplace j (Nat.le_of_lt_succ hj)) ⟨hready, hstart, hreads, Nat.zero_le count⟩ h
  exact ⟨hfaithful, hconf⟩

theorem Counts.unique {vector : Nat → Nat} {count k : Nat} (h : Counts (some vector) count) (hne : ∀ i < k, vector i ≠ 0)
    (hzero : vector k = 0) : k = count := by
  obtain ⟨hcount, hend⟩ := h
  rcases Nat.lt_trichotomy k count with hlt | heq | hgt
  · exact absurd hzero (hcount k hlt)
  · exact heq
  · exact absurd hend (hne count hgt)

/-- The loop over a vector, where there is one. -/
theorem pushVector_run (habove : AboveKernel pagetable ustack_page) {size count : Nat} {vector : Option (Nat → Nat)}
    {addrs : List Nat} {st₀ st : Stack} (hready : Ready (frameOf pagetable ustack_page) st₀) (hsize : 0 < size)
    (hcount : Counts vector count)
    (h : pushVector (frameOf pagetable ustack_page) p source size vector st₀ = .ok (some (addrs, st))) :
    Ready (frameOf pagetable ustack_page) st ∧ addrs.length = count ∧ count < size ∧ ∃ trace, st.trace = st₀.trace ++ trace := by
  cases vector with
  | none =>
    cases h
    obtain rfl : count = 0 := hcount
    exact ⟨hready, rfl, hsize, [], (List.append_nil _).symm⟩
  | some vector =>
    obtain ⟨hpushed, hlt, hzero⟩ := @pushStrings_pushed p pagetable _ st₀.ram _ habove _ _ _ _ _ _ hready (fun _ _ _ => rfl) h
    have hlength := hcount.unique hpushed.strings hzero
    exact ⟨hpushed.ready, hlength, hlength ▸ hlt, hpushed.prefixes⟩

/-- Confined accesses are those to a vector of straight strings. -/
theorem pushVector_straight (habove : AboveKernel pagetable ustack_page) {size count : Nat} {vector : Option (Nat → Nat)}
    {addrs : List Nat} {st₀ st : Stack} (hready : Ready (frameOf pagetable ustack_page) st₀) (hcount : Counts vector count)
    (hsame : AllConfined p pagetable ustack_page st₀.trace → Untouched pagetable ustack_page ram st₀.ram)
    (h : pushVector (frameOf pagetable ustack_page) p source size vector st₀ = .ok (some (addrs, st)))
    (hall : AllConfined p pagetable ustack_page st.trace) :
    StraightVector ram p pagetable ustack_page source vector count ∧ Untouched pagetable ustack_page ram st.ram ∧
      st.spp = (lengths ram p source vector count).foldl withString st₀.spp := by
  cases vector with
  | none =>
    cases h
    exact ⟨(fun ptrs hptrs => by cases hptrs), hsame hall, rfl⟩
  | some vector =>
    obtain ⟨hpushed, -, hzero⟩ := pushStrings_pushed habove hready hsame h
    obtain rfl := hcount.unique hpushed.strings hzero
    obtain ⟨huntouched, hstraight, hlower⟩ := hpushed.faithful hall
    refine ⟨fun ptrs hptrs => ?_, huntouched, hlower⟩
    cases hptrs
    exact hstraight

theorem pushVector_confined (habove : AboveKernel pagetable ustack_page) {size count lo : Nat} {vector : Option (Nat → Nat)}
    {addrs : List Nat} {st₀ st : Stack} (hready : Ready (frameOf pagetable ustack_page) st₀) (hcount : Counts vector count)
    (hsame : Untouched pagetable ustack_page ram st₀.ram) (hreads : ReadsConfined p pagetable ustack_page st₀.trace)
    (hstraight : StraightVector ram p pagetable ustack_page source vector count)
    (hrows : RowsFrom pagetable ustack_page lo) (hbase : (frameOf pagetable ustack_page).stackbase ≤ lo)
    (hlo : lo ≤ (lengths ram p source vector count).foldl withString st₀.spp)
    (h : pushVector (frameOf pagetable ustack_page) p source size vector st₀ = .ok (some (addrs, st))) :
    Untouched pagetable ustack_page ram st.ram ∧ st.spp = (lengths ram p source vector count).foldl withString st₀.spp ∧
      ReadsConfined p pagetable ustack_page st.trace := by
  cases vector with
  | none =>
    cases h
    exact ⟨hsame, rfl, hreads⟩
  | some vector =>
    obtain ⟨hpushed, -, hzero⟩ := @pushStrings_pushed p pagetable _ ram _ habove _ _ _ _ _ _ hready (fun _ => hsame) h
    obtain rfl := hcount.unique hpushed.strings hzero
    obtain ⟨hfaithful, hconf⟩ :=
      pushStrings_confined habove hready hsame hreads (hstraight vector rfl) hzero hrows hbase hlo h
    exact ⟨hfaithful.untouched, hfaithful.lower, hconf⟩

/-! ## The whole stack -/

theorem auxv_length (bprm : binprm) (random : Nat) : (auxv bprm random).length = 2 * AUX_CNT := by
  simp only [auxv, List.length_flatMap, List.length_cons, List.length_nil, List.map_const', List.length_range, List.sum_replicate,
    smul_eq_mul]
  decide

theorem putBlock_ready {f : Frame} {st st' : Stack} {spp : Nat} {words : List Nat} (hready : Ready f st)
    (h : putBlock f st spp words = some st') (hwords : 0 < words.length) (hbelow : spp + 8 * words.length ≤ st.spp)
    (hgap : st.spp ≤ spp + 8 * words.length + 16) (hal : spp % 8 = 0) :
    st'.spp = spp ∧ Ready f st' ∧ st'.trace = st.trace ++ [.write (f.SPP2SP spp) spp (8 * words.length)] := by
  obtain ⟨hlow, rfl⟩ := putBlock_ok h
  refine ⟨rfl, ⟨?_, hal, hlow⟩, rfl⟩
  apply hready.shape.push (Nat.mul_pos (by decide) hwords) hbelow hgap
  intro vaddr paddr n
  rw [mem_append, List.mem_singleton]

/-- The vectors take the stack down to `withVectors`; the last word may be one below its end. -/
theorem pushVectors_shape (habove : AboveKernel pagetable ustack_page) {bprm : binprm} {argv_addr envp_addr : List Nat} {st : Stack}
    {im : Image} (hready : Ready (frameOf pagetable ustack_page) st) (hargc : argv_addr.length < MAXARG)
    (henvpc : envp_addr.length < MAXENV)
    (h : pushVectors (frameOf pagetable ustack_page) bprm argv_addr envp_addr st = some im) :
    Shaped (frameOf pagetable ustack_page) im.trace (withVectors st.spp argv_addr.length envp_addr.length) ∧
      (frameOf pagetable ustack_page).stackbase ≤ withVectors st.spp argv_addr.length envp_addr.length + 8 ∧
      withVectors st.spp argv_addr.length envp_addr.length < (frameOf pagetable ustack_page).stacktop ∧
      ∃ writes, im.trace = st.trace ++ writes ∧ ∀ x ∈ writes, ∃ vaddr paddr len, x = .write vaddr paddr len := by
  have hbase := stackbase_large habove
  obtain ⟨-, htop, -, -⟩ := frame_of_above habove
  obtain ⟨hshape, hal, hinside⟩ := id hready
  have hhigh := hshape.high
  have hpad : align16 st.spp argv_addr.length envp_addr.length = st.spp -
      (if (st.spp % 16 ≠ 0 ∧ (argv_addr.length + envp_addr.length + 1 + AUX_CNT) % 2 = 0) ∨
        (st.spp % 16 = 0 ∧ (argv_addr.length + envp_addr.length + 2 + 1) % 2 = 1) then 8 else 0) := by
    unfold align16 sub64
    split <;> omega
  have hsome : ∀ addrs : List Nat, 0 < (addrs ++ [0]).length := fun addrs => by
    rw [length_append]
    exact Nat.succ_pos _
  unfold withVectors
  rw [← hpad]
  have hpadle : align16 st.spp argv_addr.length envp_addr.length ≤ st.spp ∧
      st.spp ≤ align16 st.spp argv_addr.length envp_addr.length + 8 ∧ align16 st.spp argv_addr.length envp_addr.length % 8 = 0 := by
    rw [hpad]
    split <;> omega
  unfold pushVectors at h
  dsimp only at h
  generalize align16 st.spp argv_addr.length envp_addr.length = top at h hpadle ⊢
  obtain ⟨hle, hge, haltop⟩ := hpadle
  obtain ⟨st₁, h₁, h⟩ := Option.bind_eq_some_iff.mp h
  obtain ⟨st₂, h₂, h⟩ := Option.bind_eq_some_iff.mp h
  obtain ⟨st₃, h₃, h⟩ := Option.bind_eq_some_iff.mp h
  simp only [MAXARG, MAXENV] at hargc henvpc
  have haux : sub64 top (AUX_CNT * 16 + 8) = top - (AUX_CNT * 16 + 8) := by
    simp only [sub64, AUX_CNT]
    omega
  rw [haux] at h₁
  obtain ⟨hspp₁, hready₁, htrace₁⟩ := putBlock_ready hready h₁ (by rw [auxv_length]; decide)
    (by simp only [auxv_length, AUX_CNT]; omega) (by simp only [auxv_length, AUX_CNT]; omega)
    (by simp only [AUX_CNT]; omega)
  have hin₁ := hready₁.inside
  have hal₁ := hready₁.aligned
  have hhigh₁ := hready₁.shape.high
  have henv : down8 (sub64 st₁.spp ((envp_addr.length + 1) * 8)) = st₁.spp - (envp_addr.length + 1) * 8 := by
    simp only [sub64, down8]
    omega
  rw [henv] at h₂
  obtain ⟨hspp₂, hready₂, htrace₂⟩ := putBlock_ready hready₁ h₂ (hsome _)
    (by rw [length_append, length_singleton]; omega) (by rw [length_append, length_singleton]; omega) (by omega)
  have hin₂ := hready₂.inside
  have hal₂ := hready₂.aligned
  have hhigh₂ := hready₂.shape.high
  have harg : down8 (sub64 st₂.spp ((argv_addr.length + 1) * 8)) = st₂.spp - (argv_addr.length + 1) * 8 := by
    simp only [sub64, down8]
    omega
  rw [harg] at h₃
  obtain ⟨hspp₃, hready₃, htrace₃⟩ := putBlock_ready hready₂ h₃ (hsome _)
    (by rw [length_append, length_singleton]; omega) (by rw [length_append, length_singleton]; omega) (by omega)
  have hin₃ := hready₃.inside
  have hhigh₃ := hready₃.shape.high
  have hlast : sub64 st₃.spp 8 = top - (AUX_CNT * 16 + 8) - (envp_addr.length + 1) * 8 - (argv_addr.length + 1) * 8 - 8 := by
    rw [← hspp₁, ← hspp₂, ← hspp₃, sub64]
    omega
  have hsum : top - (AUX_CNT * 16 + 8) - (envp_addr.length + 1) * 8 - (argv_addr.length + 1) * 8 = st₃.spp := by
    rw [hspp₃, hspp₂, hspp₁]
  rw [hsum] at hlast ⊢
  rw [← Option.some_inj.mp h, ← hlast]
  dsimp only
  refine ⟨?_, by omega, by omega, ?_⟩
  · apply hready₃.shape.push (by decide : 0 < 8) (by omega) (by omega)
    intro vaddr paddr n
    rw [mem_append, List.mem_singleton]
  rw [htrace₃, htrace₂, htrace₁, List.append_assoc, List.append_assoc, List.append_assoc]
  refine ⟨_, rfl, fun x hx => ?_⟩
  simp only [mem_append, List.mem_singleton] at hx
  rcases hx with rfl | rfl | rfl | rfl
  all_goals exact ⟨_, _, _, rfl⟩

theorem withVectors_le (spp argc envpc : Nat) : withVectors spp argc envpc ≤ spp := by
  unfold withVectors
  omega

theorem start_ready (habove : AboveKernel pagetable ustack_page) (ram : Ram) :
    Ready (frameOf pagetable ustack_page) ⟨ram, (frameOf pagetable ustack_page).stacktop, []⟩ := by
  obtain ⟨hal, -, hbase, -⟩ := frame_of_above habove
  refine ⟨Shaped.nil _, ?_, ?_⟩
  · rw [Mm.Vm.pgsize_eq] at hal
    dsimp only
    omega
  · dsimp only
    omega

/-- **What `ustack_init` reads and writes**: only the strings and only the stack, if and only if the frames behind them are
in a row. -/
theorem ustack_confined_iff {bprm : binprm} {argv envp : Option (Nat → Nat)} {argc envpc : Nat} {im : Image}
    (habove : AboveKernel pagetable ustack_page) (hargc : Counts argv argc) (henvpc : Counts envp envpc)
    (hacc : ustack_init p pagetable bprm argv envp ustack_page ram = .ok (some im)) :
    (∀ x ∈ im.trace, Confined p pagetable ustack_page x) ↔
      FramesInARow p pagetable bprm argv envp argc envpc ustack_page ram := by
  unfold ustack_init at hacc
  dsimp only at hacc
  obtain ⟨r, hargv, hacc⟩ := ok_of_bind hacc
  rcases r with _ | ⟨argv_addr, st₁⟩
  · cases hacc
  obtain ⟨r, henvp, hacc⟩ := ok_of_bind hacc
  rcases r with _ | ⟨envp_addr, st₂⟩
  · cases hacc
  have hpush : pushVectors (frameOf pagetable ustack_page) bprm argv_addr envp_addr st₂ = some im := Except.ok.inj hacc
  have hready := start_ready habove ram
  obtain ⟨hready₁, hlen₁, hlt₁, trace₁, htrace₁⟩ := pushVector_run habove hready (by decide) hargc hargv
  obtain ⟨hready₂, hlen₂, hlt₂, trace₂, htrace₂⟩ := pushVector_run habove hready₁ (by decide) henvpc henvp
  subst hlen₁ hlen₂
  obtain ⟨hshape, hlow, hlt, writes, htrace, hwrites⟩ := pushVectors_shape habove hready₂ hlt₁ hlt₂ hpush
  have hiff := writes_confined_iff p habove hshape hlow hlt
  obtain ⟨-, -, hbase, -⟩ := frame_of_above habove
  constructor
  · intro hall
    have hall₂ : AllConfined p pagetable ustack_page st₂.trace := AllConfined.left (htrace ▸ hall)
    have hall₁ : AllConfined p pagetable ustack_page st₁.trace := AllConfined.left (htrace₂ ▸ hall₂)
    obtain ⟨hargs, hsame₁, hspp₁⟩ := @pushVector_straight _ _ _ ram _ habove _ _ _ _ _ _ hready hargc (fun _ _ _ => rfl) hargv hall₁
    obtain ⟨henvs, -, hspp₂⟩ := pushVector_straight habove hready₁ henvpc (fun _ => hsame₁) henvp hall₂
    obtain ⟨hbottom, hrows⟩ := hiff.mp fun vaddr paddr len hw => hall _ hw
    rw [hspp₂, hspp₁] at hbottom hrows
    exact ⟨hargs, henvs, hbottom, hrows⟩
  · rintro ⟨hargs, henvs, hfits, hrows⟩
    have hle := withVectors_le ((lengths ram p .user envp envp_addr.length).foldl withString
      ((lengths ram p (argSource bprm) argv argv_addr.length).foldl withString (frameOf pagetable ustack_page).stacktop))
      argv_addr.length envp_addr.length
    obtain ⟨hsame₁, hspp₁, hreads₁⟩ := @pushVector_confined _ _ _ ram _ habove _ _ _ _ _ _ _ hready hargc (fun _ _ => rfl)
      (fun _ _ _ _ hmem => absurd hmem List.not_mem_nil) hargs hrows hfits (hle.trans (foldl_withString_le _ _)) hargv
    dsimp only at hspp₁
    obtain ⟨-, hspp₂, hreads₂⟩ := pushVector_confined habove hready₁ henvpc hsame₁ hreads₁ henvs hrows hfits
      (by rw [hspp₁]; exact hle) henvp
    rw [hspp₁] at hspp₂
    rw [hspp₂] at hiff
    intro x hx
    cases x with
    | write vaddr paddr len => exact hiff.mpr ⟨hfits, hrows⟩ vaddr paddr len hx
    | read source vaddr paddr len =>
      rw [htrace] at hx
      rcases List.mem_append.mp hx with hold | hnew
      · exact hreads₂ _ _ _ _ hold
      · obtain ⟨_, _, _, heq⟩ := hwrites _ hnew
        cases heq

end

/-- Pages with a frame between each two of theirs. -/
def everyOther : PageTable :=
  { uvmcreate with
    dir := fun r => if r = region 0 then
        .table 1 fun s => ⟨0x90000 + 2 * s.val, Mm.Vm.PTE_V ||| Mm.Vm.PTE_U ||| Mm.Vm.PTE_R ||| Mm.Vm.PTE_W⟩
      else .none }

/-- The string "A" at `va`, through `everyOther`. -/
def letterAt (va : Nat) : Ram := fun x => if x = getphyaddr everyOther va then 65 else 0

def oneArgument (va : Nat) : Nat → Nat := fun i => if i = 0 then va else 0

theorem inARow_above : AboveKernel inARow USTACK_PAGE := by
  unfold AboveKernel
  decide +kernel

theorem letter_accepted :
    ∃ im, ustack_init everyOther inARow plain (some (oneArgument 0x10ff0)) none USTACK_PAGE (letterAt 0x10ff0) = .ok (some im) := by
  have hrun : ((ustack_init everyOther inARow plain (some (oneArgument 0x10ff0)) none USTACK_PAGE (letterAt 0x10ff0)).toOption.bind
      fun r => r.map fun im => im.argc) = some 1 := by
    decide +kernel
  obtain ⟨r, hr, hrun⟩ := Option.bind_eq_some_iff.mp hrun
  obtain ⟨im, rfl, -⟩ := Option.map_eq_some_iff.mp hrun
  exact ⟨im, ok_of_toOption hr⟩

theorem ustack_confined_iff_letter :
    ∃ im, ustack_init everyOther inARow plain (some (oneArgument 0x10ff0)) none USTACK_PAGE (letterAt 0x10ff0) = .ok (some im) ∧
      ((∀ x ∈ im.trace, Confined everyOther inARow USTACK_PAGE x) ↔
        FramesInARow everyOther inARow plain (some (oneArgument 0x10ff0)) none 1 0 USTACK_PAGE (letterAt 0x10ff0)) := by
  obtain ⟨im, him⟩ := letter_accepted
  exact ⟨im, him, ustack_confined_iff inARow_above ⟨by decide, by decide⟩ rfl him⟩

/-- The letter is the last byte of its page, and the NUL is read from the frame behind, which is not that of the next page. -/
theorem string_read_past_its_page : ¬∀ (p pagetable : PageTable) (bprm : binprm) (argv envp : Option (Nat → Nat))
    (ustack_page : Nat) (ram : Ram) (im : Image), AboveKernel pagetable ustack_page →
      ustack_init p pagetable bprm argv envp ustack_page ram = .ok (some im) → ∀ x ∈ im.trace, Confined p pagetable ustack_page x := by
  intro h
  have hrun : ((ustack_init everyOther inARow plain (some (oneArgument 0x10fff)) none USTACK_PAGE (letterAt 0x10fff)).toOption.bind
      fun r => r.bind fun im => im.trace.head?) = some (.read .user 0x10fff 0x90020fff 2) := by
    decide +kernel
  obtain ⟨r, hr, hrun⟩ := Option.bind_eq_some_iff.mp hrun
  obtain ⟨im, rfl, hhead⟩ := Option.bind_eq_some_iff.mp hrun
  have hread := h _ _ _ _ _ _ _ im inARow_above (ok_of_toOption hr) _ (List.mem_of_mem_head? hhead)
  have hnul : getphyaddr everyOther (0x10fff + 1) = 0x90020fff + 1 := (hread 1 (by decide)).1
  have hnext : getphyaddr everyOther (0x10fff + 1) = 0x90022000 := by decide +kernel
  rw [hnext] at hnul
  cases hnul

end LostWakeup.Process.Exec
