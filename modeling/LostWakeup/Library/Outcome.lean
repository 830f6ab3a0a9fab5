/-
# LostWakeup.Library.Outcome — what a computation that can stop does.

Kernel code that can panic is a function into `Except`.  `Ensures r P Q` says that `r` either returned
a value with `Q` or stopped for a reason with `P`; the rules below take such facts apart along the
structure of the code.
-/
import Mathlib.Logic.Basic

namespace LostWakeup.Library

universe u v

variable {ε : Type v} {α β : Type u}

theorem ok_of_toOption {r : Except ε α} {a : α} (h : r.toOption = some a) : r = .ok a := by
  cases r with
  | error e => cases h
  | ok b =>
    cases h
    rfl

theorem ok_bind (a : α) (f : α → Except ε β) : (Except.ok a >>= f) = f a := rfl

theorem ok_of_bind {r : Except ε α} {f : α → Except ε β} {b : β} (h : r.bind f = .ok b) :
    ∃ a, r = .ok a ∧ f a = .ok b := by
  cases r with
  | error e => cases h
  | ok a => exact ⟨a, rfl, h⟩

theorem ok_of_map {r : Except ε α} {f : α → β} {b : β} (h : r.map f = .ok b) : ∃ a, r = .ok a ∧ f a = b := by
  cases r with
  | error e => cases h
  | ok a => exact ⟨a, rfl, Except.ok.inj h⟩

theorem error_of_map {r : Except ε α} {f : α → β} {e : ε} (h : r.map f = .error e) : r = .error e := by
  cases r with
  | error e' =>
    cases h
    rfl
  | ok a => cases h

/-- A returned value satisfies `Q`, a stop satisfies `P`. -/
inductive Ensures : Except ε α → (ε → Prop) → (α → Prop) → Prop
  | ok {P : ε → Prop} {Q : α → Prop} {a : α} : Q a → Ensures (.ok a) P Q
  | error {P : ε → Prop} {Q : α → Prop} {e : ε} : P e → Ensures (.error e) P Q

namespace Ensures

variable {P : ε → Prop} {Q Q' : α → Prop} {r : Except ε α}

theorem mono (h : Ensures r P Q) (himp : ∀ a, Q a → Q' a) : Ensures r P Q' := by
  cases h with
  | ok ha => exact .ok (himp _ ha)
  | error he => exact .error he

theorem both {P' : ε → Prop} (h : Ensures r P Q) (h' : Ensures r P' Q') : Ensures r P fun a => Q a ∧ Q' a := by
  cases h with
  | ok ha =>
    cases h' with
    | ok ha' => exact .ok ⟨ha, ha'⟩
  | error he => exact .error he

theorem weaken {P' : ε → Prop} (h : Ensures r P Q) (himp : ∀ e, P e → P' e) : Ensures r P' Q := by
  cases h with
  | ok ha => exact .ok ha
  | error he => exact .error (himp _ he)

theorem bind {f : α → Except ε β} {R : β → Prop} (h : Ensures r P Q)
    (hf : ∀ a, Q a → Ensures (f a) P R) : Ensures (r >>= f) P R := by
  cases h with
  | ok ha => exact hf _ ha
  | error he => exact .error he

theorem bind_beside {alone : Except ε α} {f g : α → Except ε β} {R : β → Prop}
    (h : Ensures r (fun e => alone = .error e) Q)
    (hf : ∀ a, Q a → Ensures (f a) (fun e => (alone >>= g) = .error e) R) :
    Ensures (r >>= f) (fun e => (alone >>= g) = .error e) R := by
  cases h with
  | ok ha => exact hf _ ha
  | error he =>
    rw [he]
    exact .error rfl

theorem map {f : α → β} {R : β → Prop} (h : Ensures r P Q) (hf : ∀ a, Q a → R (f a)) :
    Ensures (r.map f) P R := by
  cases h with
  | ok ha => exact .ok (hf _ ha)
  | error he => exact .error he

theorem of_ok {a : α} (h : Ensures r P Q) (hr : r = .ok a) : Q a := by
  subst hr
  cases h
  assumption

theorem of_error {e : ε} (h : Ensures r P Q) (hr : r = .error e) : P e := by
  subst hr
  cases h
  assumption

end Ensures

end LostWakeup.Library
