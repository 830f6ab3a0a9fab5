/-
# LostWakeup.Lib.Number — `number` of `sprintf.c`: a number as text.

The digits go into an array of 66 places, least digit first.  `size` is the width that is left: the sign, the prefix and
the digits are taken off it, and every padding loop counts it down and once more when it ends.  It is an `int` and wraps.
-/
import Mathlib.Data.Nat.Digits.Lemmas
import LostWakeup.Library.CInt

namespace LostWakeup.Lib.Number

open Library
open List (replicate)

/-! ## The functions of the source -/

/-- The bits of `type`: `ZEROPAD`, `SIGN`, `PLUS`, `SPACE`, `LEFT`, `SPECIAL` and `LARGE`. -/
structure Flags where
  zeropad : Bool := false
  sign : Bool := false
  plus : Bool := false
  space : Bool := false
  left : Bool := false
  special : Bool := false
  large : Bool := false
  deriving DecidableEq

inductive Fault
  /-- The base is not one that `number` knows: it returns 0. -/
  | base
  /-- A digit would go behind `tmp`. -/
  | tmp
  deriving DecidableEq

def lower : List Char := "0123456789abcdefghijklmnopqrstuvwxyz".toList

def upper : List Char := "0123456789ABCDEFGHIJKLMNOPQRSTUVWXYZ".toList

def digit (digits : List Char) (i : Nat) : Char := digits.getD i ' '

/-- The loop over the digits, with the places of `tmp` that are left. -/
def digitLoop (digits : List Char) (base : Nat) : Nat → Nat → List Char → Except Fault (List Char)
  | 0, num, tmp => if num = 0 then .ok tmp else .error .tmp
  | room + 1, num, tmp =>
    if num = 0 then .ok tmp else digitLoop digits base room (num / base) (tmp ++ [digit digits (num % base)])

/-- The digits of a number, in `tmp`. -/
def fill_tmp (digits : List Char) (base : Nat) (num : BitVec 64) : Except Fault (List Char) :=
  if num = 0 then .ok ['0'] else digitLoop digits base 66 num.toNat []

/-- `while (size-- > 0) *str++ = c`; the number of turns is known before. -/
def padLoop (c : Char) : Nat → Int → List Char × Int
  | 0, size => ([], int32 (size - 1))
  | fuel + 1, size =>
    if size > 0 then
      let (str, size) := padLoop c fuel (int32 (size - 1))
      (c :: str, size)
    else ([], int32 (size - 1))

def pad (c : Char) (size : Int) : List Char × Int := padLoop c size.toNat size

/-- `while (i < precision--) *str++ = '0'`. -/
def zeroLoop (i : Nat) : Nat → Int → List Char
  | 0, _ => []
  | fuel + 1, precision => if i < precision then '0' :: zeroLoop i fuel (int32 (precision - 1)) else []

/-- `while (i-- > 0) *str++ = tmp[i]`. -/
def copyLoop (tmp : List Char) : Nat → List Char
  | 0 => []
  | i + 1 => digit tmp i :: copyLoop tmp i

/-- The sign, what is left of the number, and of the width. -/
def signOf (num : BitVec 64) (size : Int) (type : Flags) : List Char × BitVec 64 × Int :=
  if type.sign then
    if num.toInt < 0 then (['-'], -num, int32 (size - 1))
    else if type.plus then (['+'], num, int32 (size - 1))
    else if type.space then ([' '], num, int32 (size - 1))
    else ([], num, size)
  else ([], num, size)

/-- The text, once the digits are in `tmp`. -/
def write (digits : List Char) (base : Nat) (size precision : Int) (type : Flags) (sign tmp : List Char) : List Char :=
  let c := if type.zeropad then '0' else ' '
  let i := tmp.length
  let precision : Int := if (i : Int) > precision then i else precision
  let size := int32 (size - precision)
  let (front, size) := if type.zeropad ∨ type.left then ([], size) else pad ' ' size
  let special :=
    if type.special then
      if base = 8 then ['0']
      else if base = 16 then ['0', digit digits 33]
      else []
    else []
  let (fill, size) := if type.left then ([], size) else pad c size
  let zeros := zeroLoop i (precision - i).toNat precision
  let (back, _) := pad ' ' size
  front ++ sign ++ special ++ fill ++ zeros ++ copyLoop tmp i ++ back

/-- `number`: what it writes. -/
def number (num : BitVec 64) (base : Nat) (size precision : Int) (type : Flags) : Except Fault (List Char) :=
  let digits := if type.large then upper else lower
  let type := if type.left then { type with zeropad := false } else type
  if base < 2 ∨ base > 36 then .error .base
  else do
    let (sign, num, size) := signOf num size type
    let size :=
      if type.special then
        if base = 16 then int32 (size - 2)
        else if base = 8 then int32 (size - 1)
        else size
      else size
    let tmp ← fill_tmp digits base num
    return write digits base size precision type sign tmp

/-! ## What the text is -/

/-- The value of a digit, in either case. -/
def digitValue (c : Char) : Option Nat := lower.idxOf? c <|> upper.idxOf? c

/-- A text of digits read back. -/
def parse (base : Nat) (ds : List Char) : Option Nat :=
  ds.foldlM (fun n c => (digitValue c).bind fun d => if d < base then some (n * base + d) else none) 0

/-- The number that is meant. -/
def meant (num : BitVec 64) (type : Flags) : Int := if type.sign then num.toInt else num.toNat

def signText (num : BitVec 64) (type : Flags) : List Char :=
  if meant num type < 0 then ['-']
  else if type.sign = true ∧ type.plus = true then ['+']
  else if type.sign = true ∧ type.space = true then [' ']
  else []

def prefixText (base : Nat) (type : Flags) : List Char :=
  if type.special = true ∧ base = 8 then ['0']
  else if type.special = true ∧ base = 16 then ['0', if type.large then 'X' else 'x']
  else []

/-- How many digits are written: as many as the number has, one for zero, or as many as `precision` asks for. -/
def digitCount (num : BitVec 64) (base : Nat) (precision : Int) (type : Flags) : Nat :=
  max precision.toNat (max 1 (Nat.digits base (meant num type).natAbs).length)

/-- The text is padding, sign, prefix, padding, digits and padding; the digits read back are the number without its sign,
and padding is there as far as the width asks for it. -/
structure Formatted (num : BitVec 64) (base : Nat) (width precision : Int) (type : Flags) (out : List Char) : Prop where
  parts : ∃ front fill ds back, out = front ++ signText num type ++ prefixText base type ++ fill ++ ds ++ back ∧
    (∀ c ∈ front ++ back, c = ' ') ∧ (∀ c ∈ fill, c = '0') ∧ parse base ds = some (meant num type).natAbs ∧
    ds.length = digitCount num base precision type
  length : out.length =
    max width.toNat ((signText num type).length + (prefixText base type).length + digitCount num base precision type)

/-- `number` returns, `tmp` is not overrun, and the text is right. -/
def Right (num : BitVec 64) (base : Nat) (width precision : Int) (type : Flags) : Prop :=
  ∃ out, number num base width precision type = .ok out ∧ Formatted num base width precision type out

/-- The width that is left for padding. -/
def rest (num : BitVec 64) (base : Nat) (width precision : Int) (type : Flags) : Int :=
  width - (signText num type).length - (prefixText base type).length - digitCount num base precision type

/-- How many of the padding loops the flags let run. -/
def loops (type : Flags) : Nat := if type.left then 1 else if type.zeropad then 2 else 3

/-- The count of the loops does not go below the range of an `int`, or it has been brought to zero by wrapping once. -/
def Fits (num : BitVec 64) (base : Nat) (width precision : Int) (type : Flags) : Prop :=
  INT_MIN + loops type ≤ rest num base width precision type + 1 ∨ rest num base width precision type ≤ -2 ^ 32

instance instDecidableFits (num : BitVec 64) (base : Nat) (width precision : Int) (type : Flags) :
    Decidable (Fits num base width precision type) :=
  inferInstanceAs (Decidable (_ ∨ _))

section Proofs

variable {num : BitVec 64} {base : Nat} {width precision size : Int} {type : Flags} {digits : List Char}

/-! ## The digits -/

theorem digit_value (hdigits : digits = lower ∨ digits = upper) {i : Nat} (hi : i < 36) : digitValue (digit digits i) = some i := by
  have hall : ∀ i, i < 36 → digitValue (digit lower i) = some i ∧ digitValue (digit upper i) = some i := by decide
  rcases hdigits with rfl | rfl
  · exact (hall i hi).1
  · exact (hall i hi).2

theorem digitLoop_eq (hbase : 1 < base) {room n : Nat} (tmp : List Char) (hroom : (Nat.digits base n).length ≤ room) :
    digitLoop digits base room n tmp = .ok (tmp ++ (Nat.digits base n).map (digit digits)) := by
  induction room generalizing n tmp with
  | zero =>
    have hnil := List.eq_nil_of_length_eq_zero (Nat.le_zero.mp hroom)
    rw [digitLoop, if_pos (Nat.digits_eq_nil_iff_eq_zero.mp hnil), hnil, List.map_nil, List.append_nil]
  | succ room ih =>
    rw [digitLoop]
    rcases Nat.eq_zero_or_pos n with rfl | hpos
    · rw [if_pos rfl, Nat.digits_zero, List.map_nil, List.append_nil]
    · rw [Nat.digits_def' hbase hpos] at hroom ⊢
      rw [if_neg hpos.ne', ih _ (Nat.le_of_succ_le_succ hroom), List.append_assoc]
      rfl

theorem digits_length_le (hbase : 1 < base) (n : BitVec 64) : (Nat.digits base n.toNat).length ≤ 64 := by
  rw [Nat.digits_length_le_iff hbase]
  exact Nat.lt_of_lt_of_le n.isLt (Nat.pow_le_pow_left hbase 64)

/-- The digits of a number, the least one first. -/
def tmpDigits (base n : Nat) : List Nat := if n = 0 then [0] else Nat.digits base n

theorem fill_tmp_eq (hbase : 1 < base) (n : BitVec 64) (hdigits : digits = lower ∨ digits = upper) :
    fill_tmp digits base n = .ok ((tmpDigits base n.toNat).map (digit digits)) := by
  have hzero : digit digits 0 = '0' := by rcases hdigits with rfl | rfl <;> rfl
  unfold fill_tmp tmpDigits
  by_cases hn : n = 0
  · subst hn
    have hnat : (0 : BitVec 64).toNat = 0 := rfl
    rw [if_pos rfl, hnat, if_pos rfl, List.map_singleton, hzero]
  · have hnat : n.toNat ≠ 0 := fun h => hn (BitVec.eq_of_toNat_eq h)
    rw [if_neg hn, if_neg hnat, digitLoop_eq hbase [] ((digits_length_le hbase n).trans (by decide))]
    rfl

theorem tmpDigits_length (base n : Nat) : (tmpDigits base n).length = max 1 (Nat.digits base n).length := by
  unfold tmpDigits
  split
  · rename_i hn
    rw [hn, Nat.digits_zero]
    rfl
  · rename_i hn
    have hpos := @List.length_pos_of_ne_nil _ (Nat.digits base n) (mt Nat.digits_eq_nil_iff_eq_zero.mp hn)
    exact (max_eq_right hpos).symm

theorem copyLoop_eq (tmp : List Char) {i : Nat} (hi : i ≤ tmp.length) : copyLoop tmp i = (tmp.take i).reverse := by
  induction i with
  | zero => rfl
  | succ i ih =>
    have hget : digit tmp i = tmp[i] := by
      rw [digit, List.getD_eq_getElem?_getD, List.getElem?_eq_getElem hi]
      rfl
    rw [copyLoop, ih (Nat.le_of_succ_le hi), List.take_succ_eq_append_getElem hi, List.reverse_append, hget]
    rfl

theorem parse_concat (ds : List Char) (c : Char) : parse base (ds ++ [c]) =
    (parse base ds).bind fun n => (digitValue c).bind fun d => if d < base then some (n * base + d) else none := by
  unfold parse
  rw [List.foldlM_append]
  simp only [List.foldlM_cons, List.foldlM_nil, bind_pure]
  rfl

theorem parse_digits (hbase : base ≤ 36) (hdigits : digits = lower ∨ digits = upper) {l : List Nat} (hl : ∀ d ∈ l, d < base) :
    parse base (l.map (digit digits)).reverse = some (Nat.ofDigits base l) := by
  induction l with
  | nil => rfl
  | cons d l ih =>
    have hd := hl d List.mem_cons_self
    rw [List.map_cons, List.reverse_cons, parse_concat, ih fun d hd => hl d (List.mem_cons_of_mem _ hd),
      Option.bind_some, digit_value hdigits (hd.trans_le hbase), Option.bind_some, if_pos hd, Nat.ofDigits_cons]
    congr 1
    rw [Nat.add_comm, Nat.mul_comm]

theorem parse_zeros (hbase : 1 < base) (k : Nat) (ds : List Char) : parse base (replicate k '0' ++ ds) = parse base ds := by
  induction k with
  | zero => rfl
  | succ k ih =>
    rw [← ih, List.replicate_succ, List.cons_append]
    unfold parse
    rw [List.foldlM_cons, show digitValue '0' = some 0 by decide, Option.bind_some, if_pos (by omega), Nat.zero_mul]
    rfl

/-! ## The width -/

/-- What a padding loop leaves of the width. -/
def next (size : Int) : Int := if 0 < size then -1 else int32 (size - 1)

theorem padLoop_eq (c : Char) {n : Nat} (hsize : size ≤ INT_MAX) (hn : size.toNat = n) :
    padLoop c n size = (replicate n c, next size) := by
  induction n generalizing size with
  | zero => rw [padLoop, next, if_neg (by omega), List.replicate_zero]
  | succ n ih =>
    have hone : int32 (size - 1) = size - 1 := int32_of_range (by unfold INT_MIN; omega) (by omega)
    have hlast : next (size - 1) = next size := by
      unfold next
      rw [if_pos (by omega : 0 < size)]
      split
      · rfl
      · rw [show size - 1 - 1 = -1 by omega]
        rfl
    rw [padLoop, if_pos (by omega), hone, ih (by omega) (by omega), hlast]
    rfl

theorem pad_eq (c : Char) (hsize : size ≤ INT_MAX) : pad c size = (replicate size.toNat c, next size) :=
  padLoop_eq c hsize rfl

theorem zeroLoop_eq {i n : Nat} (hlo : 0 ≤ precision) (hhi : precision ≤ INT_MAX) (hn : (precision - i).toNat = n) :
    zeroLoop i n precision = replicate n '0' := by
  induction n generalizing precision with
  | zero => rfl
  | succ n ih =>
    have hone : int32 (precision - 1) = precision - 1 := int32_of_range (by unfold INT_MIN; omega) (by omega)
    rw [zeroLoop, if_pos (by omega), hone, ih (by omega) (by omega) (by omega)]
    rfl

theorem int32_sub (x y : Int) : int32 (int32 x - y) = int32 (x - y) := Int.bmod_sub_bmod

/-- Sign, magnitude, and the width without the sign. -/
theorem signOf_eq (hlo : INT_MIN ≤ width) (hhi : width ≤ INT_MAX) : ∃ n : BitVec 64,
    n.toNat = (meant num type).natAbs ∧
    signOf num width type = (signText num type, n, int32 (width - (signText num type).length)) := by
  have hwidth : int32 width = width := int32_of_range hlo hhi
  have hcond := @BitVec.toInt_eq_toNat_cond 64 num
  have hlt := num.isLt
  unfold signOf signText meant
  cases hsign : type.sign with
  | false =>
    have hnat : ¬ (num.toNat : Int) < 0 := by omega
    refine ⟨num, ?_, ?_⟩
    · simp
    · simp [hnat, hwidth]
  | true =>
    by_cases hneg : num.toInt < 0
    · refine ⟨-num, ?_, ?_⟩
      · simp only [if_true, BitVec.toNat_neg]
        split at hcond <;> omega
      · simp [hneg]
    have habs : num.toNat = num.toInt.natAbs := by
      split at hcond <;> omega
    cases hplus : type.plus with
    | true => exact ⟨num, habs, by simp [hneg]⟩
    | false =>
      cases hspace : type.space with
      | true => exact ⟨num, habs, by simp [hneg]⟩
      | false => exact ⟨num, habs, by simp [hneg, hwidth]⟩

/-- How much padding the loops write, from the width that is left. -/
def padding (type : Flags) (size : Int) : Nat :=
  if type.left then size.toNat
  else if type.zeropad then size.toNat + (next size).toNat
  else size.toNat + (next size).toNat + (next (next size)).toNat

theorem le_int32 (x : Int) : INT_MIN ≤ int32 x := by
  simp only [int32, INT_MIN, Int.bmod]
  omega

theorem next_pos (hlo : INT_MIN ≤ size) (hpos : 0 < next size) : next size = INT_MAX := by
  unfold next at *
  split at hpos
  · omega
  rename_i hsize
  rw [if_neg hsize]
  simp only [int32, INT_MIN, INT_MAX, Int.bmod] at *
  omega

theorem next_le (size : Int) : next size ≤ INT_MAX := by
  unfold next
  split
  · decide
  · exact int32_le _

theorem write_eq (sign : List Char) {tmp : List Char} {count : Nat} (hcount : count = max precision.toNat tmp.length)
    (hmax : (count : Int) ≤ INT_MAX) :
    ∃ front fill back, write digits base size precision type sign tmp = front ++ sign ++
        (if type.special then if base = 8 then ['0'] else if base = 16 then ['0', digit digits 33] else [] else []) ++ fill ++
        (replicate (count - tmp.length) '0' ++ tmp.reverse) ++ back ∧
      (∀ c ∈ front ++ back, c = ' ') ∧ ((∀ c ∈ fill, c = '0') ∨ fill.length = INT_MAX) ∧
      front.length + fill.length + back.length = padding type (int32 (size - count)) := by
  have hprec : (if (tmp.length : Int) > precision then (tmp.length : Int) else precision) = count := by
    split <;> omega
  have hzeros : zeroLoop tmp.length ((count : Int) - tmp.length).toNat count = replicate (count - tmp.length) '0' := by
    have hnat : ((count : Int) - tmp.length).toNat = count - tmp.length := by omega
    rw [hnat]
    exact zeroLoop_eq (by omega) hmax hnat
  have hcopy : copyLoop tmp tmp.length = tmp.reverse := by rw [copyLoop_eq tmp (le_refl _), List.take_length]
  have hv := int32_le (size - count)
  have hlo := le_int32 (size - count)
  unfold write padding
  dsimp only
  rw [hprec, hzeros, hcopy]
  generalize int32 (size - count) = v at hv hlo
  cases hleft : type.left with
  | true =>
    refine ⟨[], [], replicate v.toNat ' ', ?_, ?_, ?_, ?_⟩
    · simp [pad_eq _ hv]
    · simp
    · simp
    · simp
  | false =>
    cases hzero : type.zeropad with
    | true =>
      refine ⟨[], replicate v.toNat '0', replicate (next v).toNat ' ', ?_, ?_, ?_, ?_⟩
      · simp [pad_eq _ hv, pad_eq _ (next_le v), -List.replicate_append_replicate]
      · simp
      · simp
      · simp
    | false =>
      refine ⟨replicate v.toNat ' ', replicate (next v).toNat ' ', replicate (next (next v)).toNat ' ', ?_, ?_, ?_, ?_⟩
      · simp [pad_eq _ hv, pad_eq _ (next_le v), pad_eq _ (next_le (next v))]
      · simp
      · -- the second loop has something to write only after a wrap
        rcases Int.lt_or_le 0 (next v) with hpos | hneg
        · right
          rw [List.length_replicate, Int.toNat_of_nonneg hpos.le]
          exact next_pos hlo hpos
        · left
          rw [Int.toNat_of_nonpos hneg]
          simp
      · simp

theorem special_eq (x : Int) : (if type.special then
      if base = 16 then int32 (int32 x - 2) else if base = 8 then int32 (int32 x - 1) else int32 x
    else int32 x) = int32 (x - (prefixText base type).length) := by
  unfold prefixText
  cases hspecial : type.special with
  | false => simp
  | true =>
    rcases eq_or_ne base 16 with rfl | h16
    · simp [int32_sub]
    · rcases eq_or_ne base 8 with rfl | h8
      · simp [int32_sub]
      · simp [h16, h8]

theorem prefix_eq (hdigits : digits = if type.large then upper else lower) :
    (if type.special then if base = 8 then ['0'] else if base = 16 then ['0', digit digits 33] else [] else []) =
      prefixText base type := by
  have hx : digit digits 33 = if type.large then 'X' else 'x' := by
    rw [hdigits]
    cases type.large <;> rfl
  unfold prefixText
  rw [hx]
  cases hspecial : type.special with
  | false => simp
  | true =>
    rcases eq_or_ne base 16 with rfl | h16
    · simp
    · simp [h16]

theorem digitCount_le (hbase : 2 ≤ base) (hprec : precision ≤ INT_MAX) : (digitCount num base precision type : Int) ≤ INT_MAX := by
  obtain ⟨n, hn, _⟩ := @signOf_eq num 0 type (by decide) (by decide)
  have hshort := digits_length_le hbase n
  rw [hn] at hshort
  unfold digitCount INT_MAX at *
  omega

/-- What `number` writes, in parts. -/
theorem number_eq (hbase : 2 ≤ base) (hbase' : base ≤ 36) (hlo : INT_MIN ≤ width) (hhi : width ≤ INT_MAX)
    (hprec : precision ≤ INT_MAX) :
    ∃ front fill ds back, number num base width precision type =
        .ok (front ++ signText num type ++ prefixText base type ++ fill ++ ds ++ back) ∧
      (∀ c ∈ front ++ back, c = ' ') ∧ ((∀ c ∈ fill, c = '0') ∨ fill.length = INT_MAX) ∧
      parse base ds = some (meant num type).natAbs ∧ ds.length = digitCount num base precision type ∧
      front.length + fill.length + back.length = padding type (int32 (rest num base width precision type)) := by
  obtain ⟨digits, hdigits⟩ : ∃ digits, digits = if type.large then upper else lower := ⟨_, rfl⟩
  obtain ⟨type', htype⟩ : ∃ type', type' = if type.left then { type with zeropad := false } else type := ⟨_, rfl⟩
  have hcase : digits = lower ∨ digits = upper := by
    rw [hdigits]
    cases type.large
    · exact .inl rfl
    · exact .inr rfl
  -- clearing `ZEROPAD` for `LEFT` matters to the padding only, and not there
  have hsign' : signOf num width type' = signOf num width type := by
    rw [htype]
    cases type.left <;> rfl
  have hspecial : type'.special = type.special := by
    rw [htype]
    cases type.left <;> rfl
  have hpad : padding type' = padding type := by
    rw [htype]
    funext size
    unfold padding
    cases hleft : type.left <;> simp [hleft]
  obtain ⟨n, hn, hsign⟩ := @signOf_eq num width type hlo hhi
  have hone : 1 < base := hbase
  have htmp := fill_tmp_eq hone n hcase
  obtain ⟨tmp, htmp'⟩ : ∃ tmp, tmp = (tmpDigits base n.toNat).map (digit digits) := ⟨_, rfl⟩
  rw [← htmp'] at htmp
  have hcount : digitCount num base precision type = max precision.toNat tmp.length := by
    rw [digitCount, htmp', List.length_map, tmpDigits_length, hn]
  have hmax := @digitCount_le num base precision type hbase hprec
  obtain ⟨front, fill, back, hwrite, hspaces, hfill, hlength⟩ := @write_eq base precision
    (int32 (width - (signText num type).length - (prefixText base type).length)) type' digits (signText num type) tmp _ hcount hmax
  rw [hspecial, prefix_eq hdigits] at hwrite
  rw [int32_sub, hpad] at hlength
  refine ⟨front, fill, replicate (digitCount num base precision type - tmp.length) '0' ++ tmp.reverse, back, ?_,
    hspaces, hfill, ?_, ?_, hlength⟩
  · rw [number]
    dsimp only
    rw [← hdigits, ← htype, if_neg (by omega), hsign', hsign]
    dsimp only
    rw [hspecial, special_eq, htmp, ← hwrite]
    rfl
  · rw [parse_zeros hone, htmp', parse_digits hbase' hcase, ← hn]
    · unfold tmpDigits
      split
      · rename_i hzero
        rw [hzero]
        rfl
      · rw [Nat.ofDigits_digits]
    · intro d hd
      unfold tmpDigits at hd
      split at hd
      · rw [List.mem_singleton.mp hd]
        omega
      · exact Nat.digits_lt_base hone hd
  · rw [List.length_append, List.length_replicate, List.length_reverse]
    omega

theorem padding_iff (hrest : rest num base width precision type < INT_MAX)
    (hlow : INT_MIN - INT_MAX - 3 ≤ rest num base width precision type) :
    padding type (int32 (rest num base width precision type)) = (rest num base width precision type).toNat ↔
      Fits num base width precision type := by
  unfold Fits
  generalize rest num base width precision type = r at *
  unfold padding loops next
  simp only [int32, INT_MIN, INT_MAX, Int.bmod] at *
  cases type.left with
  | true =>
    simp only [if_true]
    omega
  | false =>
    cases type.zeropad with
    | true =>
      simp only [if_true, Bool.false_eq_true, if_false]
      omega
    | false =>
      simp only [Bool.false_eq_true, if_false]
      omega

theorem rest_bounds (hbase : 2 ≤ base) (hlo : INT_MIN ≤ width) (hhi : width ≤ INT_MAX) (hprec : precision ≤ INT_MAX) :
    rest num base width precision type < INT_MAX ∧ INT_MIN - INT_MAX - 3 ≤ rest num base width precision type := by
  have hsign : (signText num type).length ≤ 1 := by
    unfold signText
    split
    · exact le_refl _
    split
    · exact le_refl _
    · split
      · exact le_refl _
      · exact Nat.zero_le _
  have hprefix : (prefixText base type).length ≤ 2 := by
    unfold prefixText
    split
    · decide
    · split
      · exact le_refl _
      · exact Nat.zero_le _
  have hmax := @digitCount_le num base precision type hbase hprec
  have hpos : 1 ≤ digitCount num base precision type := le_max_of_le_right (le_max_left _ _)
  unfold rest INT_MAX INT_MIN at *
  omega

theorem fits_of_right (hbase : 2 ≤ base) (hbase' : base ≤ 36) (hlo : INT_MIN ≤ width) (hhi : width ≤ INT_MAX)
    (hprec : precision ≤ INT_MAX) (h : Right num base width precision type) : Fits num base width precision type := by
  obtain ⟨front, fill, ds, back, hnumber, _, _, _, hds, hpad⟩ := @number_eq num base width precision type hbase hbase' hlo hhi hprec
  obtain ⟨hlt, hlow⟩ := @rest_bounds num base width precision type hbase hlo hhi hprec
  obtain ⟨out, hout, hformat⟩ := h
  rw [hnumber] at hout
  obtain rfl := Except.ok.inj hout
  apply (padding_iff hlt hlow).mp
  have hlength := hformat.length
  simp only [List.length_append] at hlength
  unfold rest at *
  omega

theorem right_of_fits (hbase : 2 ≤ base) (hbase' : base ≤ 36) (hlo : INT_MIN ≤ width) (hhi : width ≤ INT_MAX)
    (hprec : precision ≤ INT_MAX) (h : Fits num base width precision type) : Right num base width precision type := by
  obtain ⟨front, fill, ds, back, hnumber, hspaces, hfill, hparse, hds, hpad⟩ :=
    @number_eq num base width precision type hbase hbase' hlo hhi hprec
  obtain ⟨hlt, hlow⟩ := @rest_bounds num base width precision type hbase hlo hhi hprec
  have hrest := (padding_iff hlt hlow).mpr h
  rw [← hpad] at hrest
  refine ⟨_, hnumber, ⟨front, fill, ds, back, rfl, hspaces, ?_, hparse, hds⟩, ?_⟩
  · rcases hfill with hfill | hmax
    · exact hfill
    · unfold INT_MAX at *
      omega
  · simp only [List.length_append]
    unfold rest at *
    omega

end Proofs

/-- **A number as text.** What `number` writes reads back as the number, at the width that is asked for, if and only if the
count of its padding loops does not wrap. -/
theorem number_right_iff (num : BitVec 64) (base : Nat) (width precision : Int) (type : Flags) (hbase : 2 ≤ base ∧ base ≤ 36)
    (hwidth : INT_MIN ≤ width ∧ width ≤ INT_MAX) (hprec : INT_MIN ≤ precision ∧ precision ≤ INT_MAX) :
    Right num base width precision type ↔ Fits num base width precision type :=
  ⟨fits_of_right hbase.1 hbase.2 hwidth.1 hwidth.2 hprec.2, right_of_fits hbase.1 hbase.2 hwidth.1 hwidth.2 hprec.2⟩

/-- The least `long`, in a field that is wider than it. -/
theorem number_right_least : Right (BitVec.intMin 64) 10 30 (-1) { sign := true } :=
  (number_right_iff _ 10 30 (-1) _ (by decide) (by decide) (by decide)).mpr (by decide)

/-- The greatest precision, without a width: the first padding loop leaves the greatest `int` to the second. -/
theorem number_greatest_precision : ¬ Right 5 10 (-1) INT_MAX { sign := true } := by
  intro h
  have hfits := fits_of_right (by decide) (by decide) (by decide) (by decide) (by decide) h
  exact absurd hfits (by decide)

example : number 255 16 8 (-1) { special := true } = .ok "    0xff".toList := by decide

end LostWakeup.Lib.Number
