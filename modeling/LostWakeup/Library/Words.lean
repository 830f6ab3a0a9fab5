/-
# LostWakeup.Library.Words — structs of 64-bit words as bytes in memory.

A C struct whose fields are all `uint64` is the list of its words, and in memory each word is eight bytes,
the lowest first.  Reading back what was written gives the words again.
-/
import Mathlib.Data.UInt
import Mathlib.Data.List.Basic
import Mathlib.Tactic.Ring

namespace LostWakeup.Library

/-! ## Numbers as bytes -/

/-- The `n` lowest bytes of `x`, the lowest first. -/
def bytesLE : Nat → Nat → List UInt8
  | 0, _ => []
  | n + 1, x => UInt8.ofNat x :: bytesLE n (x / 256)

/-- The number that bytes stand for. -/
def ofBytesLE : List UInt8 → Nat
  | [] => 0
  | b :: bs => b.toNat + 256 * ofBytesLE bs

@[simp] theorem bytesLE_length (n x : Nat) : (bytesLE n x).length = n := by
  induction n generalizing x with
  | zero => rfl
  | succ n ih => simp [bytesLE, ih]

theorem ofBytesLE_bytesLE (n x : Nat) : ofBytesLE (bytesLE n x) = x % 256 ^ n := by
  induction n generalizing x with
  | zero => simp [bytesLE, ofBytesLE, Nat.mod_one]
  | succ n ih =>
    have hlow : (UInt8.ofNat x).toNat = x % 256 := UInt8.toNat_ofNat'
    rw [bytesLE, ofBytesLE, ih, hlow, pow_succ, mul_comm (256 ^ n) 256, Nat.mod_mul]

/-! ## Words -/

abbrev Word := BitVec 64

def wordsBytes (ws : List Word) : List UInt8 := ws.flatMap fun w => bytesLE 8 w.toNat

/-- The first `n` words of what is in memory. -/
def wordsOf : Nat → List UInt8 → List Word
  | 0, _ => []
  | n + 1, bs => BitVec.ofNat 64 (ofBytesLE (bs.take 8)) :: wordsOf n (bs.drop 8)

@[simp] theorem wordsBytes_length (ws : List Word) : (wordsBytes ws).length = 8 * ws.length := by
  induction ws with
  | nil => rfl
  | cons w ws ih =>
    have htail : (wordsBytes (w :: ws)).length = 8 + (wordsBytes ws).length := by simp [wordsBytes]
    rw [htail, ih, List.length_cons]
    ring

/-- **Round trip.** Words read back from memory are the words that were written. -/
theorem wordsOf_wordsBytes (ws : List Word) : wordsOf ws.length (wordsBytes ws) = ws := by
  induction ws with
  | nil => rfl
  | cons w ws ih =>
    have hsplit : wordsBytes (w :: ws) = bytesLE 8 w.toNat ++ wordsBytes ws := rfl
    have hword : BitVec.ofNat 64 (ofBytesLE (bytesLE 8 w.toNat)) = w := by
      rw [ofBytesLE_bytesLE]
      apply BitVec.eq_of_toNat_eq
      rw [BitVec.toNat_ofNat]
      have := w.isLt
      omega
    rw [List.length_cons, wordsOf, hsplit, List.take_left' (bytesLE_length 8 _), List.drop_left' (bytesLE_length 8 _),
      hword, ih]

end LostWakeup.Library
