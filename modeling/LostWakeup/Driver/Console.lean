/-
# LostWakeup.Driver.Console — `console.c`: a line discipline on a ring with three counters.

The interrupt handler stores what is typed at `e`, commits it by moving `w` up to `e`, and edits what lies between;
readers take what lies between `r` and `w`.  `Discipline` says on lists what editing means, and `console_law` that the
ring shows these lists through every run.

A critical section is one step, and a blocked `sema_wait` may return at any moment.  Two ghost fields record the
discipline and what readers took.  Echoing is left out.
-/
import LostWakeup.Library.Run
import LostWakeup.Library.Ring

namespace LostWakeup.Driver

open Library
open List (append_assoc append_nil length_append not_mem_nil prefix_rfl)

/-! ## The console -/

def INPUT_BUF_SIZE : Nat := 128

instance inputBufNeZero : NeZero INPUT_BUF_SIZE := ⟨by decide⟩

/-- Control-x. -/
def C (x : UInt8) : UInt8 := x - 0x40

def NEWLINE : UInt8 := 0x0A

/-- The flags of `term` that the input side looks at. -/
structure termios where
  ICRNL : Bool
  ICANON : Bool

structure console where
  buf : Fin INPUT_BUF_SIZE → UInt8
  r : BitVec 32
  w : BitVec 32
  e : BitVec 32

namespace console

/-- `cons.buf[cons.e++ % INPUT_BUF_SIZE] = c`. -/
def store (cons : console) (c : UInt8) : console :=
  { cons with buf := Function.update cons.buf (Ring.slot INPUT_BUF_SIZE cons.e) c, e := cons.e + 1 }

/-- `cons.w = cons.e`. -/
def commit (cons : console) : console := { cons with w := cons.e }

/-- The loop of control-U; `e - w` turns are enough for it. -/
def killLoop : Nat → console → console
  | 0, cons => cons
  | n + 1, cons =>
    if cons.e ≠ cons.w ∧ cons.buf (Ring.slot INPUT_BUF_SIZE (cons.e - 1)) ≠ NEWLINE then
      killLoop n { cons with e := cons.e - 1 }
    else cons

def consoleintr (term : termios) (c : UInt8) (cons : console) : console :=
  if term.ICANON = false then
    if c ≠ 0 ∧ (cons.e - cons.r).toNat < INPUT_BUF_SIZE then (cons.store c).commit else cons
  else if c = C 0x54 then cons
  else if c = C 0x55 then killLoop (cons.e - cons.w).toNat cons
  else if c = C 0x48 ∨ c = 0x7F then
    if cons.e ≠ cons.w then { cons with e := cons.e - 1 } else cons
  else if c ≠ 0 ∧ (cons.e - cons.r).toNat < INPUT_BUF_SIZE then
    let c := if term.ICRNL = true ∧ c = 0x0D then NEWLINE else c
    let cons := cons.store c
    if c = NEWLINE ∨ c = C 0x44 ∨ cons.e = cons.r + BitVec.ofNat 32 INPUT_BUF_SIZE then cons.commit else cons
  else cons

end console

/-- What became of a byte that a reader took: it was copied out, it ended the input, or the copy failed. -/
inductive Fate
  | delivered
  | eof
  | lost
  deriving DecidableEq

/-- Where a thread is: outside, with what its last call returned, or in `consoleread` before it takes the lock, with
the mode in which the call began. -/
inductive ConsoleCall
  | user (ret : Int)
  | reading (canonical : Bool) (target n : Nat)

/-- The loop of `consoleread` with the lock held, until the call returns or waits; `copyout` is what
`either_copyout` says of a byte. -/
def readLoop (canonical : Bool) (target : Nat) (killed : Bool) (copyout : Nat → UInt8 → Bool) :
    Nat → console → List (UInt8 × Fate) → console × List (UInt8 × Fate) × ConsoleCall
  | 0, cons, took => (cons, took, .user target)
  | n + 1, cons, took =>
    if cons.r = cons.w then
      (cons, took, if killed then .user (-1) else .reading canonical target (n + 1))
    else
      let c := cons.buf (Ring.slot INPUT_BUF_SIZE cons.r)
      let cons := { cons with r := cons.r + 1 }
      if canonical = false then
        if copyout (target - (n + 1)) c then readLoop canonical target killed copyout n cons (took ++ [(c, .delivered)])
        else (cons, took ++ [(c, .lost)], .user (target - (n + 1)))
      else if c = C 0x44 then
        -- the end of the input is kept for the next call, unless this one has nothing to return
        if n + 1 < target then ({ cons with r := cons.r - 1 }, took, .user (target - (n + 1)))
        else (cons, took ++ [(c, .eof)], .user (target - (n + 1)))
      else if copyout (target - (n + 1)) c then
        if c = NEWLINE then (cons, took ++ [(c, .delivered)], .user (target - n))
        else readLoop canonical target killed copyout n cons (took ++ [(c, .delivered)])
      else (cons, took ++ [(c, .lost)], .user (target - (n + 1)))

/-! ## What editing means -/

/-- All input that was committed, and the line under edit. -/
structure Discipline where
  committed : List UInt8
  line : List UInt8

namespace Discipline

/-- A character arrives while `waiting` committed ones have not been taken. -/
def input (term : termios) (waiting : Nat) (c : UInt8) (d : Discipline) : Discipline :=
  if term.ICANON = false then
    if c ≠ 0 ∧ waiting + d.line.length < INPUT_BUF_SIZE then ⟨d.committed ++ (d.line ++ [c]), []⟩ else d
  else if c = C 0x54 then d
  else if c = C 0x55 then { d with line := [] }
  else if c = C 0x48 ∨ c = 0x7F then { d with line := d.line.dropLast }
  else if c ≠ 0 ∧ waiting + d.line.length < INPUT_BUF_SIZE then
    let c := if term.ICRNL = true ∧ c = 0x0D then NEWLINE else c
    let line := d.line ++ [c]
    if c = NEWLINE ∨ c = C 0x44 ∨ waiting + line.length = INPUT_BUF_SIZE then ⟨d.committed ++ line, []⟩
    else { d with line := line }
  else d

end Discipline

/-! ## The system -/

structure ConsoleState (T : Type) where
  cons : console
  term : termios
  call : T → ConsoleCall
  took : List (UInt8 × Fate)
  disc : Discipline

inductive ConsoleEvent (T : Type)
  | consoleintr (c : UInt8)
  | tcsetattr (term : termios)
  | consoleread (t : T) (n : Int)
  /-- The thread takes the lock and goes on. -/
  | run (t : T) (killed : Bool) (copyout : Nat → UInt8 → Bool)

namespace ConsoleState

variable {T : Type} [DecidableEq T]

/-- The committed input that was not taken. -/
def waiting (s : ConsoleState T) : List UInt8 := s.disc.committed.drop s.took.length

def next (s : ConsoleState T) : ConsoleEvent T → Option (ConsoleState T)
  | .consoleintr c =>
    some { s with cons := s.cons.consoleintr s.term c, disc := s.disc.input s.term s.waiting.length c }
  | .tcsetattr term => some { s with term := term }
  | .consoleread t n =>
    match s.call t with
    | .user _ => some { s with call := Function.update s.call t (.reading s.term.ICANON n.toNat n.toNat) }
    | .reading _ _ _ => none
  | .run t killed copyout =>
    match s.call t with
    | .user _ => none
    | .reading canonical target n =>
      let (cons, took, call) := readLoop canonical target killed copyout n s.cons s.took
      some { s with cons := cons, took := took, call := Function.update s.call t call }

def Step (s : ConsoleState T) (e : ConsoleEvent T) (s' : ConsoleState T) : Prop := s.next e = some s'

/-- The state after `consoleinit`. -/
def start (buf : Fin INPUT_BUF_SIZE → UInt8) (term : termios) : ConsoleState T :=
  ⟨⟨buf, 0, 0, 0⟩, term, fun _ => .user 0, [], ⟨[], []⟩⟩

/-- The bytes that were copied to user space, in order. -/
def delivered (s : ConsoleState T) : List UInt8 := (s.took.filter fun x => x.2 = .delivered).map Prod.fst

/-! ## The law -/

structure Law (s : ConsoleState T) : Prop where
  /-- `w - r` and `e - r` are ordered and bounded, as 32-bit differences. -/
  indices : (s.cons.w - s.cons.r).toNat ≤ (s.cons.e - s.cons.r).toNat ∧
    (s.cons.e - s.cons.r).toNat ≤ INPUT_BUF_SIZE
  /-- In a full buffer everything is committed, and a reader finds something. -/
  full : (s.cons.e - s.cons.r).toNat = INPUT_BUF_SIZE → s.cons.w = s.cons.e ∧ s.cons.r ≠ s.cons.w
  /-- Readers have taken the committed input in order, and only end-of-file characters were not meant for them. -/
  took : s.took.map Prod.fst <+: s.disc.committed
  eof : ∀ x ∈ s.took, x.2 = .eof → x.1 = C 0x44
  /-- What was committed and not taken, and the line under edit, are in the buffer. -/
  committed : Ring.Holds s.cons.buf s.cons.r s.cons.w s.waiting
  line : Ring.Holds s.cons.buf s.cons.r s.cons.e (s.waiting ++ s.disc.line)

end ConsoleState

/-! ## The ring -/

/-- The ring holds the committed bytes up to `w` and the line behind them; the line has no newline, and is empty
in a full ring. -/
structure Shows (cons : console) (waiting line : List UInt8) : Prop where
  ring : Ring.Holds cons.buf cons.r cons.e (waiting ++ line)
  committed : cons.w = cons.r + BitVec.ofNat 32 waiting.length
  full : (waiting ++ line).length = INPUT_BUF_SIZE → line = []
  newline : NEWLINE ∉ line

namespace Shows

variable {cons : console} {waiting line : List UInt8}

theorem size_lt : INPUT_BUF_SIZE < 2 ^ 32 := by decide

theorem size_dvd : INPUT_BUF_SIZE ∣ 2 ^ 32 := ⟨2 ^ 25, by decide⟩

theorem e_sub_r (h : Shows cons waiting line) : (cons.e - cons.r).toNat = waiting.length + line.length := by
  rw [h.ring.toNat_sub size_lt, length_append]

theorem w_ring (h : Shows cons waiting line) : Ring.Holds cons.buf cons.r cons.w waiting := by
  rw [h.committed]
  exact h.ring.front

theorem w_sub_r (h : Shows cons waiting line) : (cons.w - cons.r).toNat = waiting.length :=
  h.w_ring.toNat_sub size_lt

theorem length_le (h : Shows cons waiting line) : waiting.length + line.length ≤ INPUT_BUF_SIZE := by
  have hlen := h.ring.bounded
  rwa [length_append] at hlen

theorem line_ring (h : Shows cons waiting line) : cons.e = cons.w + BitVec.ofNat 32 line.length := by
  rw [h.ring.counters, h.committed, length_append, BitVec.ofNat_add, BitVec.add_assoc]

theorem e_sub_w (h : Shows cons waiting line) : (cons.e - cons.w).toNat = line.length := by
  have hlen := h.length_le
  have hlt := size_lt
  rw [h.line_ring, BitVec.add_comm, BitVec.add_sub_cancel, BitVec.toNat_ofNat, Nat.mod_eq_of_lt (by omega)]

theorem e_eq_w_iff (h : Shows cons waiting line) : cons.e = cons.w ↔ line = [] := by
  constructor
  · intro heq
    have hlen := h.e_sub_w
    rw [heq, BitVec.sub_self] at hlen
    exact List.length_eq_zero_iff.mp hlen.symm
  · rintro rfl
    simpa using h.line_ring

theorem r_eq_w_iff (h : Shows cons waiting line) : cons.r = cons.w ↔ waiting = [] :=
  h.w_ring.eq_iff_nil size_lt

theorem commit (h : Ring.Holds cons.buf cons.r cons.e (waiting ++ line)) : Shows cons.commit (waiting ++ line) [] where
  ring := by rwa [append_nil]
  committed := h.counters
  full := fun _ => rfl
  newline := not_mem_nil

theorem store (h : Shows cons waiting line) (hroom : waiting.length + line.length < INPUT_BUF_SIZE) (c : UInt8) :
    Ring.Holds (cons.store c).buf (cons.store c).r (cons.store c).e (waiting ++ (line ++ [c])) := by
  rw [← append_assoc]
  exact h.ring.push size_dvd (by rw [length_append]; omega) c

theorem erase {a : UInt8} (h : Shows cons waiting (line ++ [a])) : Shows { cons with e := cons.e - 1 } waiting line where
  ring := by
    have hring := h.ring
    rw [← append_assoc] at hring
    exact hring.drop_last
  committed := h.committed
  full := by
    intro hfull
    have hlen := h.length_le
    rw [length_append] at hfull hlen
    rw [List.length_singleton] at hlen
    omega
  newline := fun hmem => h.newline (List.mem_append_left _ hmem)

theorem killLoop (h : Shows cons waiting line) {n : Nat} (hn : line.length ≤ n) :
    Shows (cons.killLoop n) waiting [] := by
  induction n generalizing cons line with
  | zero =>
    obtain rfl := List.length_eq_zero_iff.mp (Nat.le_zero.mp hn)
    exact h
  | succ n ih =>
    rw [console.killLoop]
    rcases List.eq_nil_or_concat' line with rfl | ⟨l, a, rfl⟩
    · rw [if_neg fun hc => hc.1 (h.e_eq_w_iff.mpr rfl)]
      exact h
    have hring := h.ring
    rw [← append_assoc] at hring
    have hlast : cons.buf (Ring.slot INPUT_BUF_SIZE (cons.e - 1)) = a := hring.last
    have hne : cons.e ≠ cons.w := fun heq => absurd (h.e_eq_w_iff.mp heq) (by simp)
    have ha : a ≠ NEWLINE := fun heq => h.newline (heq ▸ by simp)
    rw [if_pos ⟨hne, hlast.symm ▸ ha⟩]
    rw [length_append, List.length_singleton] at hn
    exact ih h.erase (by omega)

end Shows

/-! ## The interrupt handler -/

/-- What the handler does to the ring is what the discipline does to the lists. -/
theorem intr_shows {cons : console} {waiting : List UInt8} {d : Discipline} (h : Shows cons waiting d.line)
    (term : termios) (c : UInt8) :
    ∃ more, (d.input term waiting.length c).committed = d.committed ++ more ∧
      Shows (cons.consoleintr term c) (waiting ++ more) (d.input term waiting.length c).line := by
  have hroom : (cons.e - cons.r).toNat < INPUT_BUF_SIZE ↔ waiting.length + d.line.length < INPUT_BUF_SIZE := by
    rw [h.e_sub_r]
  have hsame : ∃ more, d.committed = d.committed ++ more ∧ Shows cons (waiting ++ more) d.line :=
    ⟨[], (append_nil _).symm, (append_nil waiting).symm ▸ h⟩
  unfold console.consoleintr Discipline.input
  simp only [hroom]
  by_cases hraw : term.ICANON = false
  · rw [if_pos hraw, if_pos hraw]
    by_cases hacc : c ≠ 0 ∧ waiting.length + d.line.length < INPUT_BUF_SIZE
    · rw [if_pos hacc, if_pos hacc]
      exact ⟨d.line ++ [c], rfl, Shows.commit (h.store hacc.2 c)⟩
    · rw [if_neg hacc, if_neg hacc]
      exact hsame
  · rw [if_neg hraw, if_neg hraw]
    by_cases hT : c = C 0x54
    · rw [if_pos hT, if_pos hT]
      exact hsame
    rw [if_neg hT, if_neg hT]
    by_cases hU : c = C 0x55
    · rw [if_pos hU, if_pos hU]
      refine ⟨[], (append_nil _).symm, ?_⟩
      rw [append_nil]
      exact h.killLoop (Nat.le_of_eq h.e_sub_w.symm)
    rw [if_neg hU, if_neg hU]
    by_cases hH : c = C 0x48 ∨ c = 0x7F
    · rw [if_pos hH, if_pos hH]
      refine ⟨[], (append_nil _).symm, ?_⟩
      rw [append_nil]
      rcases List.eq_nil_or_concat' d.line with hnil | ⟨l, a, hl⟩
      · rw [if_neg fun hne => hne (h.e_eq_w_iff.mpr hnil), hnil]
        rwa [hnil] at h
      · have hne : cons.e ≠ cons.w := fun heq => absurd (h.e_eq_w_iff.mp heq) (by simp [hl])
        rw [if_pos hne, hl, List.dropLast_concat]
        exact (hl ▸ h : Shows cons waiting (l ++ [a])).erase
    · rw [if_neg hH, if_neg hH]
      by_cases hacc : c ≠ 0 ∧ waiting.length + d.line.length < INPUT_BUF_SIZE
      · rw [if_pos hacc, if_pos hacc]
        generalize (if term.ICRNL = true ∧ c = 0x0D then NEWLINE else c) = c'
        have hring := h.store hacc.2 c'
        have hfull : (cons.store c').e = (cons.store c').r + BitVec.ofNat 32 INPUT_BUF_SIZE ↔
            waiting.length + (d.line ++ [c']).length = INPUT_BUF_SIZE := by
          rw [hring.eq_add_iff_full Shows.size_lt, length_append]
        simp only [hfull]
        by_cases hend : c' = NEWLINE ∨ c' = C 0x44 ∨ waiting.length + (d.line ++ [c']).length = INPUT_BUF_SIZE
        · rw [if_pos hend, if_pos hend]
          exact ⟨d.line ++ [c'], rfl, Shows.commit hring⟩
        rw [if_neg hend, if_neg hend]
        refine ⟨[], (append_nil _).symm, ?_⟩
        rw [append_nil]
        refine ⟨hring, h.committed, fun hlen => ?_, fun hmem => ?_⟩
        · rw [length_append] at hlen
          exact absurd (.inr (.inr hlen)) hend
        · rcases List.mem_append.mp hmem with hold | hnew
          · exact h.newline hold
          · exact hend (.inl (List.mem_singleton.mp hnew).symm)
      · rw [if_neg hacc, if_neg hacc]
        exact hsame

/-! ## Readers -/

theorem Shows.take {cons : console} {waiting line : List UInt8} {c : UInt8} (h : Shows cons (c :: waiting) line) :
    cons.buf (Ring.slot INPUT_BUF_SIZE cons.r) = c ∧ Shows { cons with r := cons.r + 1 } waiting line := by
  have hring := h.ring
  rw [List.cons_append] at hring
  refine ⟨hring.head, hring.pop, ?_, fun hfull => ?_, h.newline⟩
  · show cons.w = cons.r + 1 + BitVec.ofNat 32 waiting.length
    rw [h.committed, List.length_cons, Nat.add_comm, BitVec.ofNat_add, BitVec.add_assoc]
    rfl
  have hlen := h.length_le
  rw [length_append] at hfull
  rw [List.length_cons] at hlen
  omega

/-- A reader that began with `took` has taken more from the front of what was waiting. -/
def Reads (waiting line : List UInt8) (copies : Prop) (took : List (UInt8 × Fate))
    (out : console × List (UInt8 × Fate) × ConsoleCall) : Prop :=
  ∃ got rest, waiting = got.map Prod.fst ++ rest ∧ out.2.1 = took ++ got ∧ Shows out.1 rest line ∧
    (∀ x ∈ got, x.2 = .eof → x.1 = C 0x44) ∧ (copies → ∀ x ∈ got, x.2 ≠ .lost)

section Reads

variable {waiting line : List UInt8} {copies : Prop} {took : List (UInt8 × Fate)}

theorem Reads.nothing {cons : console} (h : Shows cons waiting line) (call : ConsoleCall) :
    Reads waiting line copies took (cons, took, call) :=
  ⟨[], waiting, rfl, (append_nil _).symm, h, fun _ hx => absurd hx not_mem_nil,
    fun _ _ hx => absurd hx not_mem_nil⟩

theorem Reads.byte {c : UInt8} {fate : Fate} {out : console × List (UInt8 × Fate) × ConsoleCall}
    (h : Reads waiting line copies (took ++ [(c, fate)]) out) (heof : fate = .eof → c = C 0x44)
    (hlost : copies → fate ≠ .lost) : Reads (c :: waiting) line copies took out := by
  obtain ⟨got, rest, hgot, htook, hshows, heofs, hlosts⟩ := h
  refine ⟨(c, fate) :: got, rest, by rw [hgot]; rfl, by rw [htook, append_assoc]; rfl, hshows, ?_, fun hc => ?_⟩
  · exact List.forall_mem_cons.mpr ⟨heof, heofs⟩
  · exact List.forall_mem_cons.mpr ⟨hlost hc, hlosts hc⟩

end Reads

/-- A reader takes from the front of what is committed. -/
theorem readLoop_reads {canonical killed : Bool} {target : Nat} {copyout : Nat → UInt8 → Bool} {n : Nat}
    {cons : console} {waiting line : List UInt8} (h : Shows cons waiting line) (took : List (UInt8 × Fate)) :
    Reads waiting line (∀ i c, copyout i c = true) took (readLoop canonical target killed copyout n cons took) := by
  induction n generalizing cons waiting took with
  | zero => exact .nothing h _
  | succ n ih =>
    rw [readLoop]
    rcases waiting with _ | ⟨c, waiting⟩
    · rw [if_pos (h.r_eq_w_iff.mpr rfl)]
      exact .nothing h _
    obtain ⟨hc, hnext⟩ := h.take
    rw [if_neg fun heq => absurd (h.r_eq_w_iff.mp heq) (by simp)]
    simp only [hc]
    by_cases hraw : canonical = false
    · rw [if_pos hraw]
      by_cases hcopy : copyout (target - (n + 1)) c = true
      · rw [if_pos hcopy]
        exact (ih hnext _).byte (fun h => absurd h (by decide)) fun _ => by decide
      · rw [if_neg hcopy]
        exact (Reads.nothing hnext _).byte (fun h => absurd h (by decide)) fun hall => absurd (hall _ _) hcopy
    · rw [if_neg hraw]
      by_cases hD : c = C 0x44
      · rw [if_pos hD]
        by_cases hpart : n + 1 < target
        · rw [if_pos hpart, BitVec.add_sub_cancel]
          exact .nothing h _
        · rw [if_neg hpart]
          exact (Reads.nothing hnext _).byte (fun _ => hD) fun _ => by decide
      · rw [if_neg hD]
        by_cases hcopy : copyout (target - (n + 1)) c = true
        · rw [if_pos hcopy]
          by_cases hline : c = NEWLINE
          · rw [if_pos hline]
            exact (Reads.nothing hnext _).byte (fun h => absurd h (by decide)) fun _ => by decide
          · rw [if_neg hline]
            exact (ih hnext _).byte (fun h => absurd h (by decide)) fun _ => by decide
        · rw [if_neg hcopy]
          exact (Reads.nothing hnext _).byte (fun h => absurd h (by decide)) fun hall => absurd (hall _ _) hcopy

/-! ## Runs -/

namespace ConsoleState

variable {T : Type} {s s' : ConsoleState T}

/-- The ring shows what the discipline says was committed and not taken, and its line. -/
structure Inv (s : ConsoleState T) : Prop where
  took : s.disc.committed = s.took.map Prod.fst ++ s.waiting
  shows : Shows s.cons s.waiting s.disc.line
  eof : ∀ x ∈ s.took, x.2 = .eof → x.1 = C 0x44

theorem start_inv (buf : Fin INPUT_BUF_SIZE → UInt8) (term : termios) : Inv (start buf term : ConsoleState T) where
  took := rfl
  shows := ⟨Ring.holds_nil buf 0, rfl, fun _ => rfl, not_mem_nil⟩
  eof := fun _ hx => absurd hx not_mem_nil

theorem law_of_inv (h : Inv s) : Law s where
  indices := by
    rw [h.shows.w_sub_r, h.shows.e_sub_r]
    exact ⟨Nat.le_add_right .., h.shows.length_le⟩
  full := by
    intro hfull
    rw [h.shows.e_sub_r] at hfull
    have hline := h.shows.full (by rw [length_append]; exact hfull)
    refine ⟨(h.shows.e_eq_w_iff.mpr hline).symm, fun heq => ?_⟩
    rw [h.shows.r_eq_w_iff.mp heq, hline] at hfull
    exact absurd hfull (by decide)
  took := ⟨s.waiting, h.took.symm⟩
  eof := h.eof
  committed := h.shows.w_ring
  line := h.shows.ring

theorem waiting_of_took {committed rest : List UInt8} {took : List (UInt8 × Fate)}
    (h : committed = took.map Prod.fst ++ rest) : committed.drop took.length = rest := by
  rw [h, ← @List.length_map _ _ took Prod.fst, List.drop_left]

/-- No copy to user space fails. -/
def Copies : ConsoleEvent T → Prop
  | .run _ _ copyout => ∀ i c, copyout i c = true
  | _ => True

variable [DecidableEq T]

/-- One step keeps the invariant; nothing committed is erased, and nothing is lost if the copies succeed. -/
theorem step_inv {e : ConsoleEvent T} (h : Inv s) (hstep : Step s e s') :
    Inv s' ∧ s.disc.committed <+: s'.disc.committed ∧
      (Copies e → (∀ x ∈ s.took, x.2 ≠ .lost) → ∀ x ∈ s'.took, x.2 ≠ .lost) := by
  rcases e with c | term | ⟨t, n⟩ | ⟨t, killed, copyout⟩
  · obtain rfl := Option.some_inj.mp hstep
    obtain ⟨more, hcommitted, hshows⟩ := intr_shows h.shows s.term c
    have htook : (s.disc.input s.term s.waiting.length c).committed = s.took.map Prod.fst ++ (s.waiting ++ more) := by
      rw [hcommitted, h.took, append_assoc]
    have hwaiting := waiting_of_took htook
    refine ⟨⟨?_, ?_, h.eof⟩, ⟨more, hcommitted.symm⟩, fun _ hlost => hlost⟩
    · show _ = _ ++ List.drop _ _
      rw [hwaiting]
      exact htook
    · show Shows _ (List.drop _ _) _
      rw [hwaiting]
      exact hshows
  · obtain rfl := Option.some_inj.mp hstep
    exact ⟨⟨h.took, h.shows, h.eof⟩, prefix_rfl, fun _ hlost => hlost⟩
  · unfold Step next at hstep
    rcases hcall : s.call t with ret | ⟨canonical, target, m⟩
    · simp only [hcall] at hstep
      obtain rfl := Option.some_inj.mp hstep
      exact ⟨⟨h.took, h.shows, h.eof⟩, prefix_rfl, fun _ hlost => hlost⟩
    · simp only [hcall] at hstep
      exact absurd hstep (by simp)
  · unfold Step next at hstep
    rcases hcall : s.call t with ret | ⟨canonical, target, m⟩
    · simp only [hcall] at hstep
      exact absurd hstep (by simp)
    simp only [hcall] at hstep
    obtain rfl := Option.some_inj.mp hstep
    obtain ⟨got, rest, hgot, htook, hshows, heof, hlost⟩ := @readLoop_reads canonical killed target copyout m _ _ _
      h.shows s.took
    have hcommitted : s.disc.committed = (s.took ++ got).map Prod.fst ++ rest := by
      rw [h.took, hgot, List.map_append, append_assoc]
    have hwaiting := waiting_of_took hcommitted
    refine ⟨⟨?_, ?_, ?_⟩, prefix_rfl, fun hcopies hold => ?_⟩
    · show s.disc.committed = _ ++ List.drop _ s.disc.committed
      rw [htook, hwaiting]
      exact hcommitted
    · show Shows _ (List.drop _ s.disc.committed) _
      rw [htook, hwaiting]
      exact hshows
    · intro x hx
      rw [htook] at hx
      rcases List.mem_append.mp hx with hx | hx
      · exact h.eof x hx
      · exact heof x hx
    · intro x hx
      rw [htook] at hx
      rcases List.mem_append.mp hx with hx | hx
      · exact hold x hx
      · exact hlost hcopies x hx

theorem run_inv {es : List (ConsoleEvent T)} (hrun : Run Step s es s') (h : Inv s) : Inv s' :=
  hrun.invariant (fun _ _ _ hs hstep => (step_inv hs hstep).1) h

theorem run_committed {es : List (ConsoleEvent T)} (hrun : Run Step s es s') (h : Inv s) :
    s.disc.committed <+: s'.disc.committed := by
  induction hrun with
  | nil s => exact prefix_rfl
  | cons hs _ ih =>
    have hstep := step_inv h hs
    exact hstep.2.1.trans (ih hstep.1)

theorem run_copied {es : List (ConsoleEvent T)} (hrun : Run Step s es s') (h : Inv s)
    (hcopies : ∀ e ∈ es, Copies e) (hold : ∀ x ∈ s.took, x.2 ≠ .lost) : ∀ x ∈ s'.took, x.2 ≠ .lost := by
  induction hrun with
  | nil s => exact hold
  | cons hs _ ih =>
    rw [List.forall_mem_cons] at hcopies
    have hstep := step_inv h hs
    exact ih hstep.1 hcopies.2 (hstep.2.2 hcopies.1 hold)

/-- **The line discipline.** In every state that is reached the indices are in order, a full buffer is committed,
and readers have taken the edited input in order; what has been committed is never erased; and as long as copies
succeed, all that was taken was delivered, except for end-of-file characters. -/
theorem console_law {buf : Fin INPUT_BUF_SIZE → UInt8} {term : termios} {es es' : List (ConsoleEvent T)}
    (hrun : Run Step (start buf term) es s) (hmore : Run Step s es' s') :
    Law s ∧ s.disc.committed <+: s'.disc.committed ∧
      ((∀ e ∈ es, Copies e) → s.delivered = (s.took.filter fun x => x.2 ≠ .eof).map Prod.fst) := by
  have hinv := run_inv hrun (start_inv buf term)
  refine ⟨law_of_inv hinv, run_committed hmore hinv, fun hcopies => ?_⟩
  have hlost := run_copied hrun (start_inv buf term) hcopies fun _ hx => absurd hx not_mem_nil
  rw [delivered]
  congr 1
  apply List.filter_congr
  intro x hx
  have hne := hlost x hx
  rcases x with ⟨c, _ | _ | _⟩
  · rfl
  · rfl
  · exact absurd rfl hne

/-- A line is edited while a reader waits for it, and the next line is cut by a switch to raw mode. -/
def edited : List (ConsoleEvent Unit) :=
  [.consoleread () 8, .consoleintr 0x61, .consoleintr 0x62, .consoleintr 0x7F, .consoleintr 0x0D,
    .run () false fun _ _ => true, .consoleintr 0x63, .tcsetattr ⟨true, false⟩, .consoleintr 0x64]

theorem edited_run : ∃ s, Run Step (start (fun _ => 0) ⟨true, true⟩) edited s ∧ s.delivered = [0x61, NEWLINE] ∧
    s.waiting = [0x63, 0x64] :=
  ⟨_, .cons rfl (.cons rfl (.cons rfl (.cons rfl (.cons rfl (.cons rfl (.cons rfl (.cons rfl (.cons rfl (.nil _))))))))),
    rfl, rfl⟩

theorem console_law_edited : ∃ s, Run Step (start (fun _ => 0) ⟨true, true⟩) edited s ∧ Law s ∧
    s.delivered = (s.took.filter fun x => x.2 ≠ .eof).map Prod.fst := by
  obtain ⟨s, hrun, _⟩ := edited_run
  obtain ⟨hlaw, _, hcopied⟩ := console_law hrun (.nil s)
  have hcopies : ∀ e ∈ edited, Copies e := by simp [edited, Copies]
  exact ⟨s, hrun, hlaw, hcopied hcopies⟩

end ConsoleState

end LostWakeup.Driver
