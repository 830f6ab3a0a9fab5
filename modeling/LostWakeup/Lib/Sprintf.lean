/-
# LostWakeup.Lib.Sprintf — `sprintf.c`: formatting with and without a limit.

`vsprintf` and `vsnprintf` read the format with the same code.  What they write for a conversion comes in steps: plain
text, `%c` and `%s` go character by character, and `vsnprintf` counts and tests after each; the text of `number` goes in
one piece, and `vsnprintf` either counts nothing or, for `%p`, takes the field width off its count.
-/
import LostWakeup.Lib.Number

namespace LostWakeup.Lib.Sprintf

open Library
open Lib.Number (Flags number)
open List (append_assoc append_nil flatMap_cons length_append length_nil mem_cons_self prefix_append prefix_refl)

/-! ## Arguments and steps -/

/-- An argument of a `va_list`; a string comes with its characters, `none` for `NULL`. -/
inductive Arg
  | int (n : BitVec 32)
  | long (n : BitVec 64)
  | pointer (p : BitVec 64)
  | string (s : Option (List Char))

inductive Fault
  /-- The next argument is not of the type that the format asks for. -/
  | args
  | number (e : Number.Fault)
  /-- Not of the source: the loop has not ended within the given turns. -/
  | no_return
  deriving DecidableEq

/-- What is written at once. -/
inductive Step
  | char (c : Char)
  /-- The `%` of a conversion that does not exist. -/
  | percent
  /-- The text of `number`. -/
  | block (text : List Char)
  /-- The text of `number` for `%p`. -/
  | pointer (field_width : Int) (text : List Char)
  /-- `%n` stores how much has been written, as a `long` or an `int`. -/
  | count (ip : BitVec 64) (long : Bool)

/-! ## Reading the format -/

def is_digit (c : Char) : Bool := '0' ≤ c && c ≤ '9'

def skip_atoi : List Char → Int → Int × List Char
  | [], i => (i, [])
  | c :: s, i => if is_digit c then skip_atoi s (int32 (i * 10 + c.toNat - '0'.toNat)) else (i, c :: s)

def va_int : List Arg → Except Fault (BitVec 32 × List Arg)
  | .int n :: args => .ok (n, args)
  | _ => .error .args

def va_long : List Arg → Except Fault (BitVec 64 × List Arg)
  | .long n :: args => .ok (n, args)
  | _ => .error .args

def va_pointer : List Arg → Except Fault (BitVec 64 × List Arg)
  | .pointer p :: args => .ok (p, args)
  | _ => .error .args

def va_string : List Arg → Except Fault (Option (List Char) × List Arg)
  | .string s :: args => .ok (s, args)
  | _ => .error .args

def process_flags : List Char → Flags → Flags × List Char
  | '-' :: fmt, flags => process_flags fmt { flags with left := true }
  | '+' :: fmt, flags => process_flags fmt { flags with plus := true }
  | ' ' :: fmt, flags => process_flags fmt { flags with space := true }
  | '#' :: fmt, flags => process_flags fmt { flags with special := true }
  | '0' :: fmt, flags => process_flags fmt { flags with zeropad := true }
  | fmt, flags => (flags, fmt)

/-- The field width; a negative argument for `*` means `LEFT`. -/
def get_field_width (fmt : List Char) (args : List Arg) (flags : Flags) : Except Fault (Int × Flags × List Char × List Arg) :=
  match fmt with
  | [] => .ok (-1, flags, [], args)
  | c :: rest =>
    if is_digit c then
      let (field_width, fmt) := skip_atoi fmt 0
      .ok (field_width, flags, fmt, args)
    else if c = '*' then do
      let (n, args) ← va_int args
      if n.toInt < 0 then return (int32 (-n.toInt), { flags with left := true }, rest, args)
      else return (n.toInt, flags, rest, args)
    else .ok (-1, flags, fmt, args)

def get_precision (fmt : List Char) (args : List Arg) : Except Fault (Int × List Char × List Arg) :=
  match fmt with
  | '.' :: [] => .ok (0, [], args)
  | '.' :: c :: rest =>
    if is_digit c then
      let (precision, fmt) := skip_atoi (c :: rest) 0
      .ok (if precision < 0 then 0 else precision, fmt, args)
    else if c = '*' then do
      let (n, args) ← va_int args
      return (if n.toInt < 0 then 0 else n.toInt, rest, args)
    else .ok (0, c :: rest, args)
  | fmt => .ok (-1, fmt, args)

def get_qualifier : List Char → Option Char × List Char
  | 'l' :: fmt => (some 'l', fmt)
  | 'L' :: fmt => (some 'L', fmt)
  | fmt => (none, fmt)

/-! ## Converting -/

/-- `while (--field_width > 0)`: the blanks, and the width after them. -/
def blanksLoop : Nat → Int → List Char × Int
  | 0, field_width => ([], int32 (field_width - 1))
  | fuel + 1, field_width =>
    let field_width := int32 (field_width - 1)
    if field_width > 0 then
      let (str, field_width) := blanksLoop fuel field_width
      (' ' :: str, field_width)
    else ([], field_width)

def blanks (field_width : Int) : List Char × Int := blanksLoop (int32 (field_width - 1)).toNat field_width

/-- `while (len < field_width--)`. -/
def alignLoop (len : Int) : Nat → Int → List Char × Int
  | 0, field_width => ([], int32 (field_width - 1))
  | fuel + 1, field_width =>
    if len < field_width then
      let (str, field_width) := alignLoop len fuel (int32 (field_width - 1))
      (' ' :: str, field_width)
    else ([], int32 (field_width - 1))

def align (len field_width : Int) : List Char × Int := alignLoop len (field_width - len).toNat field_width

/-- `strnlen`; the `int` that is passed for `count` becomes a `size_t`. -/
def strnlen (s : List Char) (count : Int) : Nat := min s.length (toUint64 count)

/-- `%c`. -/
def convert_c (c : Char) (field_width : Int) (flags : Flags) : List Char :=
  let (front, field_width) := if flags.left then ([], field_width) else blanks field_width
  let (back, _) := blanks field_width
  front ++ [c] ++ back

/-- `%s`. -/
def convert_s (s : Option (List Char)) (field_width precision : Int) (flags : Flags) : List Char :=
  let s := s.getD "<NULL>".toList
  let len := int32 (strnlen s precision)
  let (front, field_width) := if flags.left then ([], field_width) else align len field_width
  let (back, _) := align len field_width
  front ++ s.take len.toNat ++ back

def liftNumber : Except Number.Fault (List Char) → Except Fault (List Char)
  | .ok text => .ok text
  | .error e => .error (.number e)

/-- The argument of an integer conversion, by qualifier and sign. -/
def va_num (flags : Flags) (qualifier : Option Char) (args : List Arg) : Except Fault (BitVec 64 × List Arg) :=
  if qualifier = some 'l' then va_long args
  else do
    let (n, args) ← va_int args
    return (if flags.sign then n.signExtend 64 else n.setWidth 64, args)

def convert_number (base : Nat) (field_width precision : Int) (flags : Flags) (qualifier : Option Char) (args : List Arg) :
    Except Fault (List Step × List Arg) := do
  let (num, args) ← va_num flags qualifier args
  let text ← liftNumber (number num base field_width precision flags)
  return ([.block text], args)

/-- The switch over the conversion character: what it writes, and what is left of the format. -/
def convert (fmt : List Char) (args : List Arg) (field_width precision : Int) (flags : Flags) (qualifier : Option Char) :
    Except Fault (List Step × List Char × List Arg) :=
  match fmt with
  | [] => .ok ([.percent], [], args)
  | c :: fmt =>
    if c = 'c' then do
      let (n, args) ← va_int args
      return ((convert_c (Char.ofNat (n.toNat % 2 ^ 8)) field_width flags).map .char, fmt, args)
    else if c = 's' then do
      let (s, args) ← va_string args
      return ((convert_s s field_width precision flags).map .char, fmt, args)
    else if c = 'p' then do
      let (field_width, flags) := if field_width = -1 then (16, { flags with zeropad := true }) else (field_width, flags)
      let (p, args) ← va_pointer args
      let text ← liftNumber (number p 16 field_width precision flags)
      return ([.pointer field_width text], fmt, args)
    else if c = 'n' then do
      let (ip, args) ← va_pointer args
      return ([.count ip (qualifier = some 'l')], fmt, args)
    else if c = 'o' then do
      let (steps, args) ← convert_number 8 field_width precision flags qualifier args
      return (steps, fmt, args)
    else if c = 'X' then do
      let (steps, args) ← convert_number 16 field_width precision { flags with large := true } qualifier args
      return (steps, fmt, args)
    else if c = 'x' then do
      let (steps, args) ← convert_number 16 field_width precision flags qualifier args
      return (steps, fmt, args)
    else if c = 'd' ∨ c = 'i' then do
      let (steps, args) ← convert_number 10 field_width precision { flags with sign := true } qualifier args
      return (steps, fmt, args)
    else if c = 'u' then do
      let (steps, args) ← convert_number 10 field_width precision flags qualifier args
      return (steps, fmt, args)
    else .ok (if c = '%' then [.char '%'] else [.percent, .char c], fmt, args)

/-- One turn of the loop over the format, which begins with `c`. -/
def turn (c : Char) (fmt : List Char) (args : List Arg) : Except Fault (List Step × List Char × List Arg) :=
  if c ≠ '%' then .ok ([.char c], fmt, args)
  else do
    let (flags, fmt) := process_flags fmt {}
    let (field_width, flags, fmt, args) ← get_field_width fmt args flags
    let (precision, fmt, args) ← get_precision fmt args
    let (qualifier, fmt) := get_qualifier fmt
    convert fmt args field_width precision flags qualifier

/-! ## Writing -/

/-- What has been written to `buf`, and what `%n` has stored. -/
structure Buf where
  str : List Char
  stores : List (BitVec 64 × Int)
  deriving DecidableEq

def Buf.write (b : Buf) (text : List Char) : Buf := { b with str := b.str ++ text }

def Buf.store (b : Buf) (ip : BitVec 64) (long : Bool) : Buf :=
  { b with stores := b.stores ++ [(ip, if long then (b.str.length : Int) else int32 b.str.length)] }

def put (b : Buf) : Step → Buf
  | .char c => b.write [c]
  | .percent => b.write ['%']
  | .block text => b.write text
  | .pointer _ text => b.write text
  | .count ip long => b.store ip long

def vsprintfLoop : Nat → List Char → List Arg → Buf → Except Fault Buf
  | _, [], _, b => .ok b
  | 0, _ :: _, _, _ => .error .no_return
  | fuel + 1, c :: fmt, args, b => do
    let (steps, fmt, args) ← turn c fmt args
    vsprintfLoop fuel fmt args (steps.foldl put b)

/-- `vsprintf`; every turn takes at least one character of the format. -/
def vsprintf (fmt : List Char) (args : List Arg) : Except Fault Buf := vsprintfLoop fmt.length fmt args ⟨[], []⟩

/-- One step under the limit: `buf`, `write_cnt`, and whether the loop goes to `finish`.  A conversion that does not exist
is written with a blank for the `%`. -/
def put_limited (size : Int) (b : Buf) (write_cnt : Int) : Step → Buf × Int × Bool
  | .char c => (b.write [c], int32 (write_cnt + 1), decide (int32 (write_cnt + 1) ≥ size - 1))
  | .percent => (b.write [' '], int32 (write_cnt + 1), decide (int32 (write_cnt + 1) ≥ size - 1))
  | .block text => (b.write text, write_cnt, false)
  | .pointer field_width text =>
    let write_cnt := if field_width ≥ int32 (size - 1 - write_cnt) then 0 else int32 (write_cnt - field_width)
    (b.write text, write_cnt, decide (write_cnt = 0))
  | .count ip long => (b.store ip long, write_cnt, false)

def putAll_limited (size : Int) : List Step → Buf → Int → Buf × Int × Bool
  | [], b, write_cnt => (b, write_cnt, false)
  | step :: steps, b, write_cnt =>
    match put_limited size b write_cnt step with
    | (b, write_cnt, true) => (b, write_cnt, true)
    | (b, write_cnt, false) => putAll_limited size steps b write_cnt

def vsnprintfLoop (size : Int) : Nat → List Char → List Arg → Buf → Int → Except Fault Buf
  | _, [], _, b, _ => .ok b
  | 0, _ :: _, _, _, _ => .error .no_return
  | fuel + 1, c :: fmt, args, b, write_cnt => do
    let (steps, fmt, args) ← turn c fmt args
    match putAll_limited size steps b write_cnt with
    | (b, _, true) => return b
    | (b, write_cnt, false) => vsnprintfLoop size fuel fmt args b write_cnt

/-- `vsnprintf`: what is written before the NUL, if anything is, and the return value. -/
def vsnprintf (size : Int) (fmt : List Char) (args : List Arg) : Except Fault (Option Buf × Int) :=
  if size = 0 then .ok (none, 0)
  else do
    let b ← vsnprintfLoop size fmt.length fmt args ⟨[], []⟩ 0
    return (some b, if size > b.str.length then b.str.length else size)

/-! ## What a format comes to -/

def stepsLoop : Nat → List Char → List Arg → Except Fault (List Step)
  | _, [], _ => .ok []
  | 0, _ :: _, _ => .error .no_return
  | fuel + 1, c :: fmt, args => do
    let (steps, fmt, args) ← turn c fmt args
    let rest ← stepsLoop fuel fmt args
    return steps ++ rest

/-- All that is written for a format and arguments that match it. -/
def steps (fmt : List Char) (args : List Arg) : Except Fault (List Step) := stepsLoop fmt.length fmt args

def stepText (percent : Char) : Step → List Char
  | .char c => [c]
  | .percent => [percent]
  | .block text => text
  | .pointer _ text => text
  | .count _ _ => []

def text (ss : List Step) : List Char := ss.flatMap (stepText '%')

/-- How many characters go one by one. -/
def chars : List Step → Nat
  | [] => 0
  | .char _ :: ss => chars ss + 1
  | .percent :: ss => chars ss + 1
  | _ :: ss => chars ss

/-- The sum of the field widths of `%p`. -/
def widths : List Step → Int
  | [] => 0
  | .pointer field_width _ :: ss => field_width + widths ss
  | _ :: ss => widths ss

/-- The test of the loop after a step, for the steps before it. -/
def Stops (size : Int) (before : List Step) : Step → Prop
  | .char _ | .percent => size - 1 ≤ int32 (chars before + 1 - widths before)
  | .pointer field_width _ =>
    int32 (size - 1 - int32 (chars before - widths before)) ≤ field_width ∨ int32 (chars before - widths before - field_width) = 0
  | _ => False

/-- `vsnprintf` writes no more than `size` bytes, the NUL included: the first characters of what `vsprintf` writes, and it
returns how many. -/
def Bounded (size : Int) (fmt : List Char) (args : List Arg) (whole : Buf) : Prop :=
  ∃ b ret, vsnprintf size fmt args = .ok (some b, ret) ∧ b.str.length + 1 ≤ size ∧
    b.str = whole.str.take (size - 1).toNat ∧ ret = b.str.length

/-- A conversion that does not exist lies beyond the limit; where the loop stops below the limit there is no more to
write; and all fits, or it stops at the limit. -/
structure InLimit (size : Int) (ss : List Step) : Prop where
  unknown : ∀ a, a ++ [.percent] <+: ss → size - 1 ≤ (text a).length
  early : ∀ a s, a ++ [s] <+: ss → Stops size a s → (text (a ++ [s])).length < size - 1 → text (a ++ [s]) = text ss
  late : (text ss).length ≤ size - 1 ∨ ∃ a s, a ++ [s] <+: ss ∧ Stops size a s ∧ (text (a ++ [s])).length = size - 1

/-- The same for formats without `%p`: unless all fits, the characters up to the limit come before any number. -/
structure PlainLimit (size : Int) (ss : List Step) : Prop where
  room : text ss = [] ∨ 2 ≤ size
  unknown : ∀ a, a ++ [.percent] <+: ss → size - 1 ≤ (text a).length
  fits : (text ss).length ≤ size - 1 ∨ ∃ a, a <+: ss ∧ (∀ l, Step.block l ∉ a) ∧ size - 1 ≤ (text a).length

/-- No `%p` is among the steps. -/
def NoPointer (ss : List Step) : Prop := ∀ field_width l, Step.pointer field_width l ∉ ss

section Proofs

variable {size : Int} {fmt : List Char} {args : List Arg} {ss done : List Step}

/-! ## The loops over the steps -/

/-- `write_cnt` after steps that have not stopped the loop. -/
def write_cnt (a : List Step) : Int := int32 (chars a - widths a)

theorem chars_append (a b : List Step) : chars (a ++ b) = chars a + chars b := by
  induction a with
  | nil => exact (Nat.zero_add _).symm
  | cons s a ih =>
    rw [List.cons_append]
    cases s <;> simp only [chars, ih] <;> omega

theorem widths_append (a b : List Step) : widths (a ++ b) = widths a + widths b := by
  induction a with
  | nil => exact (Int.zero_add _).symm
  | cons s a ih =>
    rw [List.cons_append]
    cases s <;> simp only [widths, ih] <;> omega

/-- **One step under the limit.** -/
theorem put_limited_eq (b : Buf) (a : List Step) (s : Step) : ∃ b' w fin, put_limited size b (write_cnt a) s = (b', w, fin) ∧
    b'.str = b.str ++ stepText ' ' s ∧ (fin = true ↔ Stops size a s) ∧ (fin = false → w = write_cnt (a ++ [s])) := by
  have hone : int32 (write_cnt a + 1) = int32 (chars a + 1 - widths a) := by
    rw [write_cnt, int32_add]
    congr 1
    omega
  have hnext : int32 (chars a + 1 - widths a) = int32 ((chars a + 1 : Nat) - (widths a + 0)) := by
    congr 1
    omega
  cases s with
  | char c =>
    refine ⟨_, _, _, rfl, rfl, ?_, fun _ => ?_⟩
    · rw [decide_eq_true_eq, hone]
      exact Iff.rfl
    · rw [hone, hnext, write_cnt, chars_append, widths_append]
      rfl
  | percent =>
    refine ⟨_, _, _, rfl, rfl, ?_, fun _ => ?_⟩
    · rw [decide_eq_true_eq, hone]
      exact Iff.rfl
    · rw [hone, hnext, write_cnt, chars_append, widths_append]
      rfl
  | block l =>
    refine ⟨_, _, _, rfl, rfl, ?_, fun _ => ?_⟩
    · exact iff_of_false Bool.false_ne_true id
    · rw [write_cnt, write_cnt, chars_append, widths_append, show widths [.block l] = 0 from rfl, Int.add_zero]
      rfl
  | pointer field_width l =>
    have hleft : int32 (write_cnt a - field_width) = int32 (chars a - widths a - field_width) := by
      rw [write_cnt, Int.sub_eq_add_neg, int32_add, ← Int.sub_eq_add_neg]
    refine ⟨_, _, _, rfl, rfl, ?_, fun hfin => ?_⟩
    · rw [decide_eq_true_eq, hleft]
      unfold Stops
      rw [write_cnt]
      split
      · rename_i hge
        exact ⟨fun _ => .inl hge, fun _ => rfl⟩
      · rename_i hlt
        exact ⟨.inr, fun h => h.resolve_left hlt⟩
    · rw [decide_eq_false_iff_not] at hfin
      split at hfin
      · exact absurd rfl hfin
      rename_i hlt
      rw [if_neg hlt, hleft, write_cnt, chars_append, widths_append]
      congr 1
      simp only [chars, widths]
      omega
  | count ip long =>
    refine ⟨_, _, _, rfl, (append_nil _).symm, ?_, fun _ => ?_⟩
    · exact iff_of_false Bool.false_ne_true id
    · rw [write_cnt, write_cnt, chars_append, widths_append, show widths [.count ip long] = 0 from rfl, Int.add_zero]
      rfl

/-- What the loop over the steps has written when it ends: all of them, or those up to the first at which it stops. -/
structure Cut (size : Int) (before ss done : List Step) : Prop where
  pre : done <+: ss
  stops : done = ss ∨ ∃ c s, done = c ++ [s] ∧ Stops size (before ++ c) s
  first : ∀ c s, c ++ [s] <+: ss → Stops size (before ++ c) s → done <+: c ++ [s]

def limitedText (ss : List Step) : List Char := ss.flatMap (stepText ' ')

theorem reached_cons {α : Type} {s s' : α} {c ss : List α} (h : c ++ [s'] <+: s :: ss) :
    (c = [] ∧ s' = s) ∨ ∃ c', c = s :: c' ∧ c' ++ [s'] <+: ss := by
  cases c with
  | nil => exact .inl ⟨rfl, (List.cons_prefix_cons.mp h).1⟩
  | cons d c =>
    obtain ⟨rfl, hpre⟩ := List.cons_prefix_cons.mp h
    exact .inr ⟨c, rfl, hpre⟩

theorem putAll_limited_eq (b : Buf) (a ss : List Step) : ∃ done b' w fin,
    putAll_limited size ss b (write_cnt a) = (b', w, fin) ∧ Cut size a ss done ∧ b'.str = b.str ++ limitedText done ∧
      (fin = true → ∃ c s, done = c ++ [s] ∧ Stops size (a ++ c) s) ∧
      (fin = false → w = write_cnt (a ++ ss) ∧ done = ss ∧ ∀ c s, c ++ [s] <+: ss → ¬ Stops size (a ++ c) s) := by
  induction ss generalizing a b with
  | nil =>
    refine ⟨[], b, write_cnt a, false, rfl, ⟨prefix_refl _, .inl rfl, ?_⟩, (append_nil _).symm, ?_, ?_⟩
    · exact fun c s h => absurd (List.prefix_nil.mp h) (List.append_ne_nil_of_right_ne_nil c (List.cons_ne_nil s []))
    · exact fun h => absurd h Bool.false_ne_true
    · refine fun _ => ⟨by rw [append_nil], rfl, ?_⟩
      exact fun c s h => absurd (List.prefix_nil.mp h) (List.append_ne_nil_of_right_ne_nil c (List.cons_ne_nil s []))
  | cons s ss ih =>
    obtain ⟨b₁, w₁, fin₁, hput, hstr, hfin, hw⟩ := @put_limited_eq size b a s
    rw [putAll_limited, hput]
    cases fin₁ with
    | true =>
      have hstop := hfin.mp rfl
      refine ⟨[s], b₁, w₁, true, rfl, ⟨⟨ss, rfl⟩, .inr ⟨[], s, rfl, ?_⟩, ?_⟩, ?_, ?_, ?_⟩
      · rwa [append_nil]
      · intro c s' hpre _
        rcases reached_cons hpre with ⟨rfl, rfl⟩ | ⟨c', rfl, _⟩
        · exact prefix_refl _
        · exact List.cons_prefix_cons.mpr ⟨rfl, List.nil_prefix⟩
      · rw [hstr, limitedText, List.flatMap_singleton]
      · exact fun _ => ⟨[], s, rfl, by rwa [append_nil]⟩
      · exact fun h => absurd h.symm Bool.false_ne_true
    | false =>
      have hgo : ¬ Stops size a s := fun h => Bool.false_ne_true (hfin.mpr h)
      rw [hw rfl]
      obtain ⟨done, b', w, fin, hrest, hcut, hstr', hyes, hno⟩ := ih b₁ (a ++ [s])
      have hshift : ∀ c, a ++ [s] ++ c = a ++ (s :: c) := fun c => append_assoc a [s] c
      refine ⟨s :: done, b', w, fin, hrest, ⟨List.cons_prefix_cons.mpr ⟨rfl, hcut.pre⟩, ?_, ?_⟩, ?_, ?_, ?_⟩
      · rcases hcut.stops with rfl | ⟨c, s', rfl, hstop⟩
        · exact .inl rfl
        · exact .inr ⟨s :: c, s', rfl, hshift c ▸ hstop⟩
      · intro c s' hpre hstop
        rcases reached_cons hpre with ⟨rfl, rfl⟩ | ⟨c', rfl, hpre'⟩
        · exact absurd (append_nil a ▸ hstop) hgo
        · exact List.cons_prefix_cons.mpr ⟨rfl, hcut.first c' s' hpre' ((hshift c').symm ▸ hstop)⟩
      · rw [hstr', hstr, limitedText, limitedText, flatMap_cons, append_assoc]
      · intro hyes'
        obtain ⟨c, s', rfl, hstop⟩ := hyes hyes'
        exact ⟨s :: c, s', rfl, hshift c ▸ hstop⟩
      · intro hno'
        obtain ⟨rfl, rfl, hnone⟩ := hno hno'
        refine ⟨by rw [hshift], rfl, ?_⟩
        intro c s' hpre hstop
        rcases reached_cons hpre with ⟨rfl, rfl⟩ | ⟨c', rfl, hpre'⟩
        · exact hgo (append_nil a ▸ hstop)
        · exact hnone c' s' hpre' ((hshift c').symm ▸ hstop)

theorem Cut.stopped {a ss₂ : List Step} (h : Cut size a ss done) (hstop : ∃ c s, done = c ++ [s] ∧ Stops size (a ++ c) s) :
    Cut size a (ss ++ ss₂) done := by
  refine ⟨h.pre.trans (prefix_append _ _), .inr hstop, ?_⟩
  intro c s hpre hs
  rcases List.prefix_or_prefix_of_prefix hpre (prefix_append ss ss₂) with hin | hout
  · exact h.first c s hin hs
  · exact h.pre.trans hout

/-- A loop that has not stopped goes on with the further steps. -/
theorem Cut.going {a ss₂ : List Step} (hgo : ∀ c s, c ++ [s] <+: ss → ¬ Stops size (a ++ c) s)
    (h : Cut size (a ++ ss) ss₂ done) : Cut size a (ss ++ ss₂) (ss ++ done) := by
  refine ⟨(List.prefix_append_right_inj ss).mpr h.pre, ?_, ?_⟩
  · rcases h.stops with rfl | ⟨c, s, rfl, hs⟩
    · exact .inl rfl
    · exact .inr ⟨ss ++ c, s, (append_assoc _ _ _).symm, append_assoc a ss c ▸ hs⟩
  intro c s hpre hs
  rcases List.prefix_or_prefix_of_prefix hpre (prefix_append ss ss₂) with hin | ⟨d, hd⟩
  · exact absurd hs (hgo c s hin)
  rcases List.eq_nil_or_concat d with rfl | ⟨d', s', rfl⟩
  · rw [append_nil] at hd
    exact absurd hs (hgo c s (hd ▸ prefix_refl _))
  · -- the step is one of the further ones
    rw [List.concat_eq_append, ← append_assoc] at hd
    obtain ⟨rfl, hlast⟩ := List.append_inj' hd rfl
    obtain rfl := List.singleton_inj.mp hlast
    rw [append_assoc] at hpre ⊢
    have hpre' := (List.prefix_append_right_inj ss).mp hpre
    exact (List.prefix_append_right_inj ss).mpr (h.first d' s' hpre' ((append_assoc a ss d').symm ▸ hs))

/-! ## The loops over the format -/

theorem vsprintfLoop_eq (fuel : Nat) (fmt : List Char) (args : List Arg) (b : Buf) :
    vsprintfLoop fuel fmt args b = (stepsLoop fuel fmt args).map fun ss => ss.foldl put b := by
  induction fuel generalizing fmt args b with
  | zero => cases fmt <;> rfl
  | succ fuel ih =>
    cases fmt with
    | nil => rfl
    | cons c fmt =>
      rw [vsprintfLoop, stepsLoop]
      rcases hturn : turn c fmt args with e | ⟨ss₁, fmt₁, args₁⟩
      · rfl
      simp only [bind, Except.bind, ih]
      rcases hrest : stepsLoop fuel fmt₁ args₁ with e | ss₂
      · rfl
      · exact congrArg Except.ok (List.foldl_append ..).symm

theorem vsprintf_eq (fmt : List Char) (args : List Arg) :
    vsprintf fmt args = (steps fmt args).map fun ss => ss.foldl put ⟨[], []⟩ := vsprintfLoop_eq ..

theorem foldl_put_str (ss : List Step) (b : Buf) : (ss.foldl put b).str = b.str ++ text ss := by
  induction ss generalizing b with
  | nil => exact (append_nil _).symm
  | cons s ss ih =>
    rw [List.foldl_cons, ih, text, text, flatMap_cons, ← append_assoc]
    congr 1
    cases s with
    | count ip long => exact (append_nil _).symm
    | _ => rfl

theorem vsnprintfLoop_eq {fuel : Nat} (b : Buf) (a : List Step) (h : stepsLoop fuel fmt args = .ok ss) : ∃ done b',
    vsnprintfLoop size fuel fmt args b (write_cnt a) = .ok b' ∧ Cut size a ss done ∧ b'.str = b.str ++ limitedText done := by
  induction fuel generalizing fmt args ss b a with
  | zero =>
    cases fmt with
    | nil =>
      cases h
      obtain ⟨done, b', w, fin, hput, hcut, hstr, _⟩ := @putAll_limited_eq size b a []
      cases hput
      exact ⟨done, b, rfl, hcut, hstr⟩
    | cons c fmt => cases h
  | succ fuel ih =>
    cases fmt with
    | nil =>
      cases h
      obtain ⟨done, b', w, fin, hput, hcut, hstr, _⟩ := @putAll_limited_eq size b a []
      cases hput
      exact ⟨done, b, rfl, hcut, hstr⟩
    | cons c fmt =>
      rw [stepsLoop] at h
      rw [vsnprintfLoop]
      rcases hturn : turn c fmt args with e | ⟨ss₁, fmt₁, args₁⟩
      · rw [hturn] at h
        cases h
      rcases hrest : stepsLoop fuel fmt₁ args₁ with e | ss₂
      · simp only [hturn, bind, Except.bind, hrest] at h
        cases h
      simp only [hturn, bind, Except.bind, hrest] at h
      obtain rfl := Except.ok.inj h
      obtain ⟨done, b', w, fin, hput, hcut, hstr, hyes, hno⟩ := @putAll_limited_eq size b a ss₁
      simp only [bind, Except.bind, hput]
      cases fin with
      | true =>
        exact ⟨done, b', rfl, hcut.stopped (hyes rfl), hstr⟩
      | false =>
        obtain ⟨rfl, rfl, hgo⟩ := hno rfl
        obtain ⟨done₂, b₂, hloop, hcut₂, hstr₂⟩ := ih b' (a ++ done) hrest
        refine ⟨done ++ done₂, b₂, hloop, .going hgo hcut₂, ?_⟩
        rw [hstr₂, hstr, limitedText, limitedText, limitedText, List.flatMap_append, append_assoc]

/-! ## The limit -/

theorem text_append (a b : List Step) : text (a ++ b) = text a ++ text b := List.flatMap_append ..

theorem text_mono {a : List Step} (h : a <+: ss) : text a <+: text ss := by
  obtain ⟨b, rfl⟩ := h
  rw [text_append]
  exact prefix_append _ _

theorem limitedText_length (ss : List Step) : (limitedText ss).length = (text ss).length := by
  induction ss with
  | nil => rfl
  | cons s ss ih =>
    rw [limitedText, text, flatMap_cons, flatMap_cons, length_append, length_append] at *
    have hstep : (stepText ' ' s).length = (stepText '%' s).length := by cases s <;> rfl
    omega

theorem limitedText_eq (h : Step.percent ∉ ss) : limitedText ss = text ss := by
  induction ss with
  | nil => rfl
  | cons s ss ih =>
    obtain ⟨hne, hrest⟩ := not_or.mp (mt List.mem_cons.mpr h)
    rw [limitedText, text, flatMap_cons, flatMap_cons, ← text, ← ih hrest, limitedText]
    congr 1
    cases s with
    | percent => exact absurd rfl hne
    | _ => rfl

theorem Cut.right (h : Cut size [] ss done) (hsize : 1 ≤ size) (hin : InLimit size ss) :
    limitedText done = (text ss).take (size - 1).toNat := by
  have hpre := text_mono h.pre
  have hle := hpre.length_le
  -- where the loop stops below the limit, all is written
  have hearly : (text done).length < size - 1 → text done = text ss := by
    intro hlt
    rcases h.stops with rfl | ⟨c, s, rfl, hstop⟩
    · rfl
    · exact hin.early c s h.pre hstop hlt
  have htext : text done = (text ss).take (size - 1).toNat := by
    rcases hin.late with hfit | ⟨a, s, hreach, hstop, hlen⟩
    · rw [List.take_of_length_le (by omega)]
      by_cases hlt : (text done).length < size - 1
      · exact hearly hlt
      · exact hpre.eq_of_length (by omega)
    have hfirst := (text_mono (h.first a s hreach hstop)).length_le
    by_cases hlt : (text done).length < size - 1
    · have hall := hearly hlt
      have hreach' := (text_mono hreach).length_le
      rw [hall] at hlt
      omega
    · have hlen' : (text done).length = (size - 1).toNat := by omega
      rw [← hlen']
      exact List.prefix_iff_eq_take.mp hpre
  rw [← htext]
  apply limitedText_eq
  intro hmem
  obtain ⟨a, d, rfl⟩ := List.append_of_mem hmem
  have hreach : a ++ [.percent] <+: ss := List.IsPrefix.trans ⟨d, by simp⟩ h.pre
  have hfar := hin.unknown a hreach
  have hlen := congrArg List.length htext
  rw [text_append, length_append, List.length_take] at hlen
  have hone : 1 ≤ (text (Step.percent :: d)).length := Nat.le_add_left 1 (text d).length
  omega

theorem Cut.inLimit (h : Cut size [] ss done) (hsize : 1 ≤ size) (hright : limitedText done = (text ss).take (size - 1).toNat) :
    InLimit size ss := by
  have hlen : (text done).length = min (size - 1).toNat (text ss).length := by
    rw [← limitedText_length, hright, List.length_take]
  refine ⟨?_, ?_, ?_⟩
  · intro a hreach
    by_contra hnear
    have hlong := (text_mono hreach).length_le
    rw [text_append, length_append, show (text [.percent]).length = 1 from rfl] at hlong
    have hin : a ++ [.percent] <+: done := by
      rcases List.prefix_or_prefix_of_prefix hreach h.pre with hin | hout
      · exact hin
      rcases List.prefix_concat_iff.mp hout with rfl | hshort
      · exact prefix_refl _
      · have := (text_mono hshort).length_le
        omega
    -- the character at this place is a blank in the one text and `%` in the other
    obtain ⟨d, rfl⟩ := hin
    obtain ⟨d', hss⟩ := hreach
    have hblank : (limitedText (a ++ [.percent] ++ d))[(text a).length]? = some ' ' := by
      rw [← limitedText_length, limitedText, limitedText, List.flatMap_append, List.flatMap_append, append_assoc,
        List.getElem?_append_right (le_refl _), Nat.sub_self]
      rfl
    have hpercent : ((text ss).take (size - 1).toNat)[(text a).length]? = some '%' := by
      rw [List.getElem?_take_of_lt (by omega), ← hss, text_append, text_append, append_assoc,
        List.getElem?_append_right (le_refl _), Nat.sub_self]
      rfl
    rw [hright, hpercent] at hblank
    exact absurd (Option.some.inj hblank) (by decide)
  · intro a s hreach hstop hlt
    have hfirst := (text_mono (h.first a s hreach hstop)).length_le
    have hpre := text_mono hreach
    have hle := hpre.length_le
    exact hpre.eq_of_length (by omega)
  · by_cases hfit : (text ss).length ≤ size - 1
    · exact .inl hfit
    right
    rcases h.stops with rfl | ⟨c, s, rfl, hstop⟩
    · omega
    · exact ⟨c, s, h.pre, hstop, by omega⟩

theorem bounded_iff_inLimit {whole : Buf} (hsize : 1 ≤ size) (hwhole : vsprintf fmt args = .ok whole)
    (hss : steps fmt args = .ok ss) : Bounded size fmt args whole ↔ InLimit size ss := by
  have hstr : whole.str = text ss := by
    rw [vsprintf_eq, hss] at hwhole
    rw [← Except.ok.inj hwhole, foldl_put_str]
    rfl
  obtain ⟨done, b, hloop, hcut, hdone⟩ := @vsnprintfLoop_eq size fmt args ss _ ⟨[], []⟩ [] hss
  rw [List.nil_append] at hdone
  have hrun : vsnprintf size fmt args = .ok (some b, if size > b.str.length then b.str.length else size) := by
    rw [vsnprintf, if_neg (by omega), show (0 : Int) = write_cnt [] from rfl, hloop]
    rfl
  constructor
  · rintro ⟨b', ret, hrun', _, htake, _⟩
    rw [hrun] at hrun'
    cases hrun'
    rw [hdone, hstr] at htake
    exact hcut.inLimit hsize htake
  · intro hin
    have htake := hcut.right hsize hin
    rw [← hstr, ← hdone] at htake
    have hlen := congrArg List.length htake
    rw [List.length_take] at hlen
    refine ⟨b, _, hrun, by omega, htake, ?_⟩
    rw [if_pos (by omega)]

/-! ## What the reader of the format does -/

/-- A computation returns something with a property, or the arguments do not match. -/
def Safe {α : Type} (x : Except Fault α) (post : α → Prop) : Prop :=
  (∀ a, x = .ok a → post a) ∧ ∀ e, x = .error e → e = .args

theorem Safe.ok {α : Type} {a : α} {post : α → Prop} (h : post a) : Safe (.ok a) post :=
  ⟨fun _ heq => Except.ok.inj heq ▸ h, nofun⟩

theorem Safe.unmatched {α : Type} {post : α → Prop} : Safe (.error .args : Except Fault α) post :=
  ⟨fun _ heq => (by cases heq), fun _ heq => (Except.error.inj heq).symm⟩

theorem Safe.bind {α β : Type} {x : Except Fault α} {f : α → Except Fault β} {mid : α → Prop} {post : β → Prop} (h : Safe x mid)
    (hf : ∀ a, mid a → Safe (f a) post) : Safe (x >>= f) post := by
  cases x with
  | ok a => exact hf a (h.1 a rfl)
  | error e =>
    obtain rfl := h.2 e rfl
    exact .unmatched

/-- The range of an `int`. -/
def IsInt (x : Int) : Prop := INT_MIN ≤ x ∧ x ≤ INT_MAX

theorem isInt_int32 (x : Int) : IsInt (int32 x) := ⟨Number.le_int32 x, int32_le x⟩

theorem isInt_toInt (n : BitVec 32) : IsInt n.toInt := by
  have hlo := BitVec.le_toInt n
  have hhi := @BitVec.toInt_lt 32 n
  unfold IsInt INT_MIN INT_MAX
  omega

theorem skip_atoi_spec (s : List Char) {i : Int} (hi : IsInt i) : IsInt (skip_atoi s i).1 ∧ (skip_atoi s i).2.length ≤ s.length := by
  induction s generalizing i with
  | nil => exact ⟨hi, le_refl _⟩
  | cons c s ih =>
    rw [skip_atoi]
    split
    · obtain ⟨hint, hle⟩ := ih (isInt_int32 (i * 10 + c.toNat - '0'.toNat))
      exact ⟨hint, Nat.le_succ_of_le hle⟩
    · exact ⟨hi, le_refl _⟩

theorem process_flags_le (fmt : List Char) (flags : Flags) : (process_flags fmt flags).2.length ≤ fmt.length := by
  fun_induction process_flags fmt flags with
  | case6 fmt flags => exact le_refl _
  | _ => rename_i ih; exact Nat.le_succ_of_le ih

theorem va_int_safe (args : List Arg) : Safe (va_int args) fun _ => True := by
  unfold va_int
  split
  · exact .ok trivial
  · exact .unmatched

theorem va_pointer_safe (args : List Arg) : Safe (va_pointer args) fun _ => True := by
  unfold va_pointer
  split
  · exact .ok trivial
  · exact .unmatched

theorem va_string_safe (args : List Arg) : Safe (va_string args) fun _ => True := by
  unfold va_string
  split
  · exact .ok trivial
  · exact .unmatched

theorem get_field_width_safe (fmt : List Char) (args : List Arg) (flags : Flags) :
    Safe (get_field_width fmt args flags) fun r => IsInt r.1 ∧ r.2.2.1.length ≤ fmt.length := by
  have hminus : IsInt (-1) := ⟨by decide, by decide⟩
  unfold get_field_width
  split
  · exact .ok ⟨hminus, le_refl _⟩
  rename_i c rest
  split
  · exact .ok (skip_atoi_spec (c :: rest) ⟨by decide, by decide⟩)
  split
  · apply (va_int_safe args).bind
    rintro ⟨n, args⟩ _
    dsimp only
    split
    · exact .ok ⟨isInt_int32 _, Nat.le_succ _⟩
    · exact .ok ⟨isInt_toInt n, Nat.le_succ _⟩
  · exact .ok ⟨hminus, le_refl _⟩

theorem get_precision_safe (fmt : List Char) (args : List Arg) :
    Safe (get_precision fmt args) fun r => r.1 ≤ INT_MAX ∧ r.2.1.length ≤ fmt.length := by
  have hclip : ∀ x, IsInt x → (if x < 0 then 0 else x) ≤ INT_MAX := by
    intro x hx
    split
    · decide
    · exact hx.2
  have hzero : (0 : Int) ≤ INT_MAX := by decide
  have hminus : (-1 : Int) ≤ INT_MAX := by decide
  unfold get_precision
  split
  · exact .ok ⟨hzero, Nat.zero_le _⟩
  · rename_i c rest
    split
    · obtain ⟨hint, hle⟩ := skip_atoi_spec (c :: rest) (i := 0) ⟨by decide, by decide⟩
      exact .ok ⟨hclip _ hint, Nat.le_succ_of_le hle⟩
    split
    · apply (va_int_safe args).bind
      rintro ⟨n, args⟩ _
      exact .ok ⟨hclip _ (isInt_toInt n), by dsimp only [List.length_cons]; omega⟩
    · exact .ok ⟨hzero, Nat.le_succ _⟩
  · exact .ok ⟨hminus, le_refl _⟩

theorem get_qualifier_le (fmt : List Char) : (get_qualifier fmt).2.length ≤ fmt.length := by
  unfold get_qualifier
  split
  · exact Nat.le_succ _
  · exact Nat.le_succ _
  · exact le_refl _

theorem liftNumber_safe {num : BitVec 64} {base : Nat} {width precision : Int} {flags : Flags} (hbase : 2 ≤ base)
    (hbase' : base ≤ 36) (hwidth : IsInt width) (hprec : precision ≤ INT_MAX) :
    Safe (liftNumber (number num base width precision flags)) fun text => text ≠ [] := by
  obtain ⟨front, fill, ds, back, hnumber, _, _, _, hds, _⟩ :=
    @Number.number_eq num base width precision flags hbase hbase' hwidth.1 hwidth.2 hprec
  rw [hnumber]
  apply Safe.ok
  intro hnil
  have hlen := congrArg List.length hnil
  have hpos : 1 ≤ Number.digitCount num base precision flags := le_max_of_le_right (le_max_left _ _)
  simp only [length_append, length_nil] at hlen
  omega

/-- A step that writes a number writes something. -/
def Solid (s : Step) : Prop := ∀ text, s = .block text → text ≠ []

theorem va_num_safe (flags : Flags) (qualifier : Option Char) (args : List Arg) :
    Safe (va_num flags qualifier args) fun _ => True := by
  unfold va_num
  split
  · unfold va_long
    split
    · exact .ok trivial
    · exact .unmatched
  · apply (va_int_safe args).bind
    intro _ _
    exact .ok trivial

theorem convert_number_safe {base : Nat} {width precision : Int} (flags : Flags) (qualifier : Option Char) (args : List Arg)
    (hbase : 2 ≤ base) (hbase' : base ≤ 36) (hwidth : IsInt width) (hprec : precision ≤ INT_MAX) :
    Safe (convert_number base width precision flags qualifier args) fun r => ∀ s ∈ r.1, Solid s := by
  apply (va_num_safe flags qualifier args).bind
  rintro ⟨num, args⟩ _
  apply (liftNumber_safe hbase hbase' hwidth hprec).bind
  intro text htext
  apply Safe.ok
  intro s hs
  obtain rfl := List.mem_singleton.mp hs
  intro text' heq
  obtain rfl := Step.block.inj heq
  exact htext

theorem solid_chars (l : List Char) : ∀ s ∈ l.map Step.char, Solid s := by
  intro s hs text heq
  subst heq
  obtain ⟨c, _, hc⟩ := List.mem_map.mp hs
  cases hc

theorem convert_safe (fmt : List Char) (args : List Arg) {width precision : Int} (flags : Flags) (qualifier : Option Char)
    (hwidth : IsInt width) (hprec : precision ≤ INT_MAX) :
    Safe (convert fmt args width precision flags qualifier) fun r => (∀ s ∈ r.1, Solid s) ∧ r.2.1.length ≤ fmt.length := by
  have hmap : ∀ {base : Nat} {flags : Flags} {rest : List Char}, 2 ≤ base → base ≤ 36 → rest.length ≤ fmt.length →
      Safe (do
        let (steps, args) ← convert_number base width precision flags qualifier args
        return (steps, rest, args)) fun r : List Step × List Char × List Arg =>
          (∀ s ∈ r.1, Solid s) ∧ r.2.1.length ≤ fmt.length := by
    intro base flags rest hbase hbase' hrest
    apply (convert_number_safe flags qualifier args hbase hbase' hwidth hprec).bind
    intro r hr
    exact .ok ⟨hr, hrest⟩
  have h16 : IsInt 16 := ⟨by decide, by decide⟩
  have hsolid : ∀ (s : Step), (∀ text, s ≠ .block text) → ∀ s' ∈ [s], Solid s' := by
    intro s hne s' hs' text heq
    rw [List.mem_singleton.mp hs'] at heq
    exact absurd heq (hne text)
  unfold convert
  split
  · exact .ok ⟨hsolid _ fun _ => Step.noConfusion, le_refl _⟩
  rename_i c rest
  have hrest : rest.length ≤ (c :: rest).length := Nat.le_succ _
  split
  · apply (va_int_safe args).bind
    rintro ⟨n, args⟩ _
    exact .ok ⟨solid_chars _, hrest⟩
  split
  · apply (va_string_safe args).bind
    rintro ⟨s, args⟩ _
    exact .ok ⟨solid_chars _, hrest⟩
  split
  · apply (va_pointer_safe args).bind
    rintro ⟨p, args⟩ _
    have hwidth' : IsInt (if width = -1 then (16, { flags with zeropad := true }) else (width, flags)).1 := by
      split
      · exact h16
      · exact hwidth
    apply (liftNumber_safe (by decide) (by decide) hwidth' hprec).bind
    intro text _
    exact .ok ⟨hsolid _ fun _ => Step.noConfusion, hrest⟩
  split
  · apply (va_pointer_safe args).bind
    rintro ⟨ip, args⟩ _
    exact .ok ⟨hsolid _ fun _ => Step.noConfusion, hrest⟩
  split
  · exact hmap (by decide) (by decide) hrest
  split
  · exact hmap (by decide) (by decide) hrest
  split
  · exact hmap (by decide) (by decide) hrest
  split
  · exact hmap (by decide) (by decide) hrest
  split
  · exact hmap (by decide) (by decide) hrest
  refine .ok ⟨?_, hrest⟩
  intro s hs text heq
  subst heq
  dsimp only at hs
  split at hs
  · cases List.mem_singleton.mp hs
  · rcases List.mem_cons.mp hs with heq | hs
    · cases heq
    · cases List.mem_singleton.mp hs

theorem turn_safe (c : Char) (fmt : List Char) (args : List Arg) :
    Safe (turn c fmt args) fun r => (∀ s ∈ r.1, Solid s) ∧ r.2.1.length ≤ fmt.length := by
  unfold turn
  split
  · refine .ok ⟨solid_chars [c], le_refl _⟩
  have hflags := process_flags_le fmt {}
  rcases hpf : process_flags fmt {} with ⟨flags, fmt₁⟩
  rw [hpf] at hflags
  dsimp only at hflags ⊢
  apply (get_field_width_safe fmt₁ args flags).bind
  rintro ⟨width, flags, fmt₂, args⟩ ⟨hwidth, hfmt₂⟩
  apply (get_precision_safe fmt₂ args).bind
  rintro ⟨precision, fmt₃, args⟩ ⟨hprec, hfmt₃⟩
  have hqualifier := get_qualifier_le fmt₃
  rcases hgq : get_qualifier fmt₃ with ⟨qualifier, fmt₄⟩
  rw [hgq] at hqualifier
  dsimp only at *
  have hconvert := convert_safe fmt₄ args flags qualifier hwidth hprec
  refine ⟨fun r hr => ?_, hconvert.2⟩
  obtain ⟨hsolid, hle⟩ := hconvert.1 r hr
  exact ⟨hsolid, by omega⟩

theorem stepsLoop_safe {fuel : Nat} (fmt : List Char) (args : List Arg) (hfuel : fmt.length ≤ fuel) :
    Safe (stepsLoop fuel fmt args) fun ss => ∀ s ∈ ss, Solid s := by
  induction fuel generalizing fmt args with
  | zero =>
    obtain rfl := List.eq_nil_of_length_eq_zero (Nat.le_zero.mp hfuel)
    exact .ok fun s hs => absurd hs List.not_mem_nil
  | succ fuel ih =>
    cases fmt with
    | nil => exact .ok fun s hs => absurd hs List.not_mem_nil
    | cons c fmt =>
      rw [stepsLoop]
      apply (turn_safe c fmt args).bind
      rintro ⟨ss₁, fmt₁, args₁⟩ ⟨hsolid, hle⟩
      have hshort : fmt₁.length ≤ fuel := hle.trans (Nat.le_of_succ_le_succ hfuel)
      apply (ih fmt₁ args₁ hshort).bind
      intro ss₂ hrest
      apply Safe.ok
      intro s hs
      rcases List.mem_append.mp hs with hs | hs
      · exact hsolid s hs
      · exact hrest s hs

/-! ## Formats without `%p` -/

theorem NoPointer.tail {s : Step} (h : NoPointer (s :: ss)) : NoPointer ss :=
  fun field_width l hmem => h field_width l (List.mem_cons_of_mem _ hmem)

theorem NoPointer.pre {a : List Step} (h : NoPointer ss) (hpre : a <+: ss) : NoPointer a :=
  fun field_width l hmem => h field_width l (hpre.subset hmem)

theorem widths_eq_zero (h : NoPointer ss) : widths ss = 0 := by
  induction ss with
  | nil => rfl
  | cons s ss ih =>
    cases s with
    | pointer field_width l => exact absurd mem_cons_self (h field_width l)
    | _ => exact ih h.tail

theorem chars_le (ss : List Step) : chars ss ≤ (text ss).length := by
  induction ss with
  | nil => exact le_refl _
  | cons s ss ih =>
    rw [text, flatMap_cons, length_append, ← text]
    cases s <;> simp only [chars, stepText, List.length_singleton, length_nil] <;> omega

theorem chars_eq_iff (h : NoPointer ss) (hsolid : ∀ s ∈ ss, Solid s) :
    chars ss = (text ss).length ↔ ∀ l, Step.block l ∉ ss := by
  induction ss with
  | nil => exact ⟨fun _ l => List.not_mem_nil, fun _ => rfl⟩
  | cons s ss ih =>
    have hrest := ih h.tail fun s hs => hsolid s (List.mem_cons_of_mem _ hs)
    have hle := chars_le ss
    rw [text, flatMap_cons, length_append, ← text]
    cases s with
    | block l =>
      have hpos := List.length_pos_of_ne_nil (hsolid _ mem_cons_self l rfl)
      refine ⟨fun heq => ?_, fun hno => absurd mem_cons_self (hno l)⟩
      simp only [chars, stepText] at heq
      omega
    | pointer field_width l => exact absurd mem_cons_self (h field_width l)
    | char c =>
      simp only [chars, stepText, List.length_singleton, List.mem_cons, reduceCtorEq, false_or]
      rw [← hrest]
      omega
    | percent =>
      simp only [chars, stepText, List.length_singleton, List.mem_cons, reduceCtorEq, false_or]
      rw [← hrest]
      omega
    | count ip long =>
      simp only [chars, stepText, length_nil, List.mem_cons, reduceCtorEq, false_or, Nat.zero_add]
      exact hrest

theorem stops_iff {a : List Step} {s : Step} (h : NoPointer (a ++ [s])) (hsmall : (chars a + 1 : Int) ≤ INT_MAX) :
    Stops size a s ↔ chars (a ++ [s]) = chars a + 1 ∧ size - 1 ≤ chars a + 1 := by
  have hwidths := widths_eq_zero (h.pre (prefix_append a [s]))
  have hint : int32 (chars a + 1 - widths a) = chars a + 1 := by
    rw [hwidths, Int.sub_zero]
    exact int32_of_range (by unfold INT_MIN; omega) hsmall
  rw [chars_append]
  cases s with
  | char c => rw [Stops, hint]; exact ⟨fun h => ⟨rfl, h⟩, fun h => h.2⟩
  | percent => rw [Stops, hint]; exact ⟨fun h => ⟨rfl, h⟩, fun h => h.2⟩
  | block l => exact iff_of_false id fun h => by simp [chars] at h
  | pointer field_width l => exact absurd (List.mem_append_right a mem_cons_self) (h field_width l)
  | count ip long => exact iff_of_false id fun h => by simp [chars] at h

/-- The step that writes the character of a given number. -/
theorem exists_char {a : List Step} {n : Nat} (hpos : 1 ≤ n) (hn : n ≤ chars a) :
    ∃ c s, c ++ [s] <+: a ∧ chars c + 1 = n ∧ chars (c ++ [s]) = n := by
  induction a generalizing n with
  | nil => exact absurd hn (by simp only [chars]; omega)
  | cons s a ih =>
    have hs : chars (s :: a) = chars [s] + chars a := chars_append [s] a
    have hone : chars [s] ≤ 1 := by cases s <;> simp [chars]
    by_cases hfirst : n ≤ chars [s]
    · exact ⟨[], s, List.cons_prefix_cons.mpr ⟨rfl, List.nil_prefix⟩, by simp only [chars]; omega, by rw [List.nil_append]; omega⟩
    obtain ⟨c, s', hpre, hlt, heq⟩ := @ih (n - chars [s]) (by omega) (by omega)
    refine ⟨s :: c, s', List.cons_prefix_cons.mpr ⟨rfl, hpre⟩, ?_, ?_⟩
    · rw [show chars (s :: c) = chars [s] + chars c from chars_append [s] c]
      omega
    · rw [List.cons_append, show chars (s :: (c ++ [s'])) = chars [s] + chars (c ++ [s']) from chars_append [s] _]
      omega

theorem inLimit_iff_plainLimit (hsize : 1 ≤ size) (hmax : size ≤ INT_MAX) (h : NoPointer ss) (hsolid : ∀ s ∈ ss, Solid s) :
    InLimit size ss ↔ PlainLimit size ss := by
  -- up to the limit the count does not wrap
  have hcount : ∀ a s, a ++ [s] <+: ss → ((text (a ++ [s])).length : Int) ≤ size - 1 →
      (Stops size a s ↔ chars (a ++ [s]) = chars a + 1 ∧ size - 1 ≤ chars a + 1) := by
    intro a s hreach hlen
    have hle := chars_le (a ++ [s])
    rw [chars_append] at hle
    exact stops_iff (h.pre hreach) (by omega)
  constructor
  · intro hin
    refine ⟨?_, hin.unknown, ?_⟩
    · rcases List.eq_nil_or_concat (text ss) with hnil | ⟨l, c, hl⟩
      · exact .inl hnil
      right
      by_contra hone
      have hlong : 1 ≤ (text ss).length := by
        rw [hl, List.concat_eq_append, length_append]
        exact Nat.le_add_left 1 _
      rcases hin.late with hfit | ⟨a, s, hreach, hstop, hlen⟩
      · omega
      · have hchar := ((hcount a s hreach (by omega)).mp hstop).1
        have hle := chars_le (a ++ [s])
        omega
    · rcases hin.late with hfit | ⟨a, s, hreach, hstop, hlen⟩
      · exact .inl hfit
      right
      obtain ⟨hchar, hstop⟩ := (hcount a s hreach (by omega)).mp hstop
      have hle := chars_le (a ++ [s])
      have hsolid' : ∀ s' ∈ a ++ [s], Solid s' := fun s' hs' => hsolid s' (hreach.subset hs')
      exact ⟨a ++ [s], hreach, (chars_eq_iff (h.pre hreach) hsolid').mp (by omega), by omega⟩
  · intro hplain
    refine ⟨hplain.unknown, ?_, ?_⟩
    · intro a s hreach hstop hlt
      obtain ⟨hchar, hstop⟩ := (hcount a s hreach (by omega)).mp hstop
      have hle := chars_le (a ++ [s])
      omega
    rcases hplain.fits with hfit | ⟨a, hpre, hno, hlen⟩
    · exact .inl hfit
    rcases hplain.room with hnil | hroom
    · left
      rw [hnil, length_nil]
      omega
    right
    have hall : ∀ b, b <+: a → chars b = (text b).length := by
      intro b hb
      have hsolid' : ∀ s ∈ b, Solid s := fun s hs => hsolid s (hpre.subset (hb.subset hs))
      exact (chars_eq_iff (h.pre (hb.trans hpre)) hsolid').mpr fun l hl => hno l (hb.subset hl)
    have hchars := hall a (prefix_refl a)
    obtain ⟨c, s, hc, hlt, heq⟩ := @exists_char a (size - 1).toNat (by omega) (by omega)
    have hlast := hall _ hc
    exact ⟨c, s, hc.trans hpre, (hcount c s (hc.trans hpre) (by omega)).mpr ⟨by omega, by omega⟩, by omega⟩

end Proofs

/-- **Bounded formatting.** For a format and arguments that match it, `vsnprintf` writes the first characters of what
`vsprintf` writes if and only if its count keeps the limit; without `%p` that is a matter of the text before the first
number. -/
theorem bounded_iff (size : Int) (fmt : List Char) (args : List Arg) (whole : Buf) (hsize : 1 ≤ size) (hmax : size ≤ INT_MAX)
    (hwhole : vsprintf fmt args = .ok whole) : ∃ ss, steps fmt args = .ok ss ∧ (Bounded size fmt args whole ↔ InLimit size ss) ∧
      (NoPointer ss → (Bounded size fmt args whole ↔ PlainLimit size ss)) := by
  rcases hss : steps fmt args with e | ss
  · rw [vsprintf_eq, hss] at hwhole
    cases hwhole
  · have hbounded := bounded_iff_inLimit hsize hwhole hss
    refine ⟨ss, rfl, hbounded, fun hno => ?_⟩
    exact hbounded.trans (inLimit_iff_plainLimit hsize hmax hno ((stepsLoop_safe fmt args (le_refl _)).1 ss hss))

/-- A string that is cut. -/
theorem bounded_iff_cut : Bounded 4 "%s!".toList [.string (some "hello".toList)] ⟨"hello!".toList, []⟩ := by
  obtain ⟨ss, hss, _, hplain⟩ := bounded_iff 4 "%s!".toList [.string (some "hello".toList)] ⟨"hello!".toList, []⟩
    (by decide) (by decide) (by decide)
  have hsteps : steps "%s!".toList [.string (some "hello".toList)] = .ok ("hello!".toList.map .char) := rfl
  rw [hsteps] at hss
  obtain rfl := Except.ok.inj hss
  refine (hplain ?_).mpr ⟨.inr (by decide), ?_, .inr ⟨"hello!".toList.map .char, prefix_refl _, ?_, by decide⟩⟩
  · intro field_width l hmem
    simp at hmem
  · intro a hreach
    have hmem := hreach.subset (List.mem_append_right a mem_cons_self)
    simp at hmem
  · intro l hmem
    simp at hmem

/-- A number of six digits goes into a buffer of four bytes. -/
theorem number_over_limit : vsprintf "%d".toList [.int 123456] = .ok ⟨"123456".toList, []⟩ ∧
    vsnprintf 4 "%d".toList [.int 123456] = .ok (some ⟨"123456".toList, []⟩, 4) ∧
    ¬ Bounded 4 "%d".toList [.int 123456] ⟨"123456".toList, []⟩ := by
  have hrun : vsnprintf 4 "%d".toList [.int 123456] = .ok (some ⟨"123456".toList, []⟩, 4) := by decide
  refine ⟨by decide, hrun, ?_⟩
  rintro ⟨b, ret, hrun', hlen, _⟩
  rw [hrun] at hrun'
  cases hrun'
  exact absurd hlen (by decide)

end LostWakeup.Lib.Sprintf
