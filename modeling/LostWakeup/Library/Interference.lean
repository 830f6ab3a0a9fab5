/-
# LostWakeup.Library.Interference — a program between whose calls others move.

A program is a tree of calls into a machine, and any number of steps of others may come before a call.  `Meets` is a
precondition that allows for them: every call that the program is about to make is admissible, and what it returns is
right.  Where some calls are only safe under a condition, the lawful runs are those in which it holds at every call
(`Meets.lawful_iff`).
-/
import LostWakeup.Library.Run

namespace LostWakeup.Library

/-! ## Programs and machines -/

inductive Program (Op : Type) (Ans : Op → Type) (α : Type)
  | ret (a : α)
  | call (op : Op) (rest : Ans op → Program Op Ans α)
  /-- The program has stopped the machine. -/
  | halt

namespace Program

variable {Op : Type} {Ans : Op → Type} {α β : Type}

def bind : Program Op Ans α → (α → Program Op Ans β) → Program Op Ans β
  | .ret a, f => f a
  | .call op rest, f => .call op fun ans => (rest ans).bind f
  | .halt, _ => .halt

instance monad : Monad (Program Op Ans) where
  pure := .ret
  bind := .bind

end Program

/-- A machine, with the calls of a program and the steps of others. -/
structure Machine (σ ε Op : Type) (Ans : Op → Type) where
  act : σ → (op : Op) → Ans op → σ → Prop
  other : σ → ε → σ → Prop

section Machine

variable {σ ε Op : Type} {Ans : Op → Type} {α β : Type}

/-- A step of a program on its machine: one of the others moves, or the program makes its next call. -/
inductive Machine.Step (M : Machine σ ε Op Ans) :
    σ × Program Op Ans α → Option ε → σ × Program Op Ans α → Prop
  | other {s s' : σ} {e : ε} {p : Program Op Ans α} : M.other s e s' → Step M (s, p) (some e) (s', p)
  | own {s s' : σ} {op : Op} {ans : Ans op} {rest : Ans op → Program Op Ans α} : M.act s op ans s' →
      Step M (s, .call op rest) none (s', rest ans)

/-- The next call is admissible, and what has been returned is right. -/
def Legal (pre : σ → Op → Prop) (Q : α → σ → Prop) : σ × Program Op Ans α → Prop
  | (s, .ret a) => Q a s
  | (s, .call op _) => pre s op
  | (_, .halt) => True

/-- A condition on the states in which the program makes its calls. -/
def Allowed (ok : σ → Op → Prop) : σ × Program Op Ans α → Option ε → Prop
  | (s, .call op _), none => ok s op
  | _, _ => True

/-- The program is about to make an inadmissible call. -/
def Fails (pre : σ → Op → Prop) (p : Program Op Ans α) (s : σ) : Prop :=
  ∃ op rest, p = .call op rest ∧ ¬ pre s op

theorem Fails.bind {pre : σ → Op → Prop} {p : Program Op Ans α} {s : σ} (h : Fails pre p s)
    (f : α → Program Op Ans β) : Fails pre (p.bind f) s := by
  obtain ⟨op, rest, rfl, hpre⟩ := h
  exact ⟨op, _, rfl, hpre⟩

theorem Fails.not_legal {pre : σ → Op → Prop} {Q : α → σ → Prop} {p : Program Op Ans α} {s : σ}
    (h : Fails pre p s) : ¬ Legal pre Q (s, p) := by
  obtain ⟨op, rest, rfl, hpre⟩ := h
  exact hpre

/-! ## Preconditions -/

/-- From the state on, whatever the others do before each call: every call is admissible as long as each finds its
condition, and the first that does not find it leads to an inadmissible one. -/
def Meets (M : Machine σ ε Op Ans) (pre ok : σ → Op → Prop) (Q : α → σ → Prop) : Program Op Ans α → σ → Prop
  | .ret a, s => ∀ es s₁, Run M.other s es s₁ → Q a s₁
  | .call op rest, s => ∀ es s₁, Run M.other s es s₁ → pre s₁ op ∧ ∀ ans s₂, M.act s₁ op ans s₂ →
      (ok s₁ op → Meets M pre ok Q (rest ans) s₂) ∧ (¬ ok s₁ op → Fails pre (rest ans) s₂)
  | .halt, _ => True

variable {M : Machine σ ε Op Ans} {pre ok : σ → Op → Prop} {Q Q' : α → σ → Prop} {p : Program Op Ans α} {s s' : σ}

namespace Meets

theorem ret {P : σ → Prop} {a : α} (hstable : ∀ s e s', P s → M.other s e s' → P s') (h : P s)
    (hQ : ∀ s, P s → Q a s) : Meets M pre ok Q (.ret a) s :=
  fun _ s₁ hrun => hQ s₁ (hrun.invariant hstable h)

theorem call {P : σ → Prop} {op : Op} {rest : Ans op → Program Op Ans α}
    (hstable : ∀ s e s', P s → M.other s e s' → P s') (h : P s) (hpre : ∀ s, P s → pre s op)
    (hok : ∀ s ans s', P s → M.act s op ans s' → ok s op → Meets M pre ok Q (rest ans) s')
    (hfail : ∀ s ans s', P s → M.act s op ans s' → ¬ ok s op → Fails pre (rest ans) s') :
    Meets M pre ok Q (.call op rest) s := by
  intro es s₁ hrun
  have h₁ := hrun.invariant hstable h
  exact ⟨hpre s₁ h₁, fun ans s₂ hact => ⟨hok s₁ ans s₂ h₁ hact, hfail s₁ ans s₂ h₁ hact⟩⟩

theorem call_free {P : σ → Prop} {op : Op} {rest : Ans op → Program Op Ans α}
    (hstable : ∀ s e s', P s → M.other s e s' → P s') (h : P s) (hfree : ∀ s, ok s op) (hpre : ∀ s, P s → pre s op)
    (hok : ∀ s ans s', P s → M.act s op ans s' → Meets M pre ok Q (rest ans) s') :
    Meets M pre ok Q (.call op rest) s :=
  call hstable h hpre (fun s₁ ans s₂ h₁ hact _ => hok s₁ ans s₂ h₁ hact)
    (fun s₁ _ _ _ _ hnot => absurd (hfree s₁) hnot)

theorem legal (h : Meets M pre ok Q p s) : Legal pre Q (s, p) := by
  cases p with
  | ret a => exact h [] s (.nil s)
  | call op rest => exact (h [] s (.nil s)).1
  | halt => trivial

theorem other {e : ε} (h : Meets M pre ok Q p s) (hs : M.other s e s') : Meets M pre ok Q p s' := by
  cases p with
  | ret a => exact fun es s₁ hrun => h (e :: es) s₁ (.cons hs hrun)
  | call op rest => exact fun es s₁ hrun => h (e :: es) s₁ (.cons hs hrun)
  | halt => trivial

theorem mono (hQ : ∀ a s, Q a s → Q' a s) (h : Meets M pre ok Q p s) : Meets M pre ok Q' p s := by
  induction p generalizing s with
  | ret a => exact fun es s₁ hrun => hQ a s₁ (h es s₁ hrun)
  | call op rest ih =>
    intro es s₁ hrun
    obtain ⟨hpre, hact⟩ := h es s₁ hrun
    exact ⟨hpre, fun ans s₂ hs => ⟨fun hok => ih ans ((hact ans s₂ hs).1 hok), (hact ans s₂ hs).2⟩⟩
  | halt => trivial

/-- **Sequencing.** What the first program returns is what the second starts from. -/
theorem bind {f : α → Program Op Ans β} {Q : β → σ → Prop}
    (h : Meets M pre ok (fun a s => Meets M pre ok Q (f a) s) p s) : Meets M pre ok Q (p.bind f) s := by
  induction p generalizing s with
  | ret a => exact h [] s (.nil s)
  | call op rest ih =>
    intro es s₁ hrun
    obtain ⟨hpre, hact⟩ := h es s₁ hrun
    exact ⟨hpre, fun ans s₂ hs => ⟨fun hok => ih ans ((hact ans s₂ hs).1 hok),
      fun hnot => ((hact ans s₂ hs).2 hnot).bind f⟩⟩
  | halt => trivial

theorem seq {f : α → Program Op Ans β} {Q : β → σ → Prop}
    (h : Meets M pre ok (fun a s => Meets M pre ok Q (f a) s) p s) : Meets M pre ok Q (p >>= f) s := bind h

/-! ## Runs -/

/-- **Step lemma.** -/
theorem step {p' : Program Op Ans α} {e : Option ε} (h : Meets M pre ok Q p s) (hs : M.Step (s, p) e (s', p')) :
    (Allowed ok (s, p) e → Meets M pre ok Q p' s') ∧ (¬ Allowed ok (s, p) e → Fails pre p' s') := by
  cases hs with
  | other hother =>
    have hafter := h.other hother
    refine ⟨fun _ => hafter, fun hnot => absurd ?_ hnot⟩
    cases p <;> trivial
  | own hact => exact (h [] s (.nil s)).2 _ s' hact

/-- **Run lemma.** The runs through lawful states only are the runs in which every call finds its condition. -/
theorem lawful_iff (h : Meets M pre ok Q p s) (es : List (Option ε)) (t : σ × Program Op Ans α) :
    Run (Lawful M.Step (Legal pre Q)) (s, p) es t ↔ Run (Guarded M.Step (Allowed ok)) (s, p) es t := by
  apply @Run.lawful_iff _ _ _ _ _ (fun c => Legal pre Q c → Meets M pre ok Q c.2 c.1)
  · rintro ⟨s₁, p₁⟩ e ⟨s₂, p₂⟩ hmeets hlegal hs
    obtain ⟨hgood, hbad⟩ := (hmeets hlegal).step hs
    by_cases hok : Allowed ok (s₁, p₁) e
    · exact ⟨fun _ => hgood hok, iff_of_true (hgood hok).legal hok⟩
    · have hnot : ¬ Legal pre Q (s₂, p₂) := (hbad hok).not_legal
      exact ⟨fun hlegal' => absurd hlegal' hnot, iff_of_false hnot hok⟩
  · exact fun _ => h
  · exact h.legal

theorem returns {es : List (Option ε)} {a : α} (h : Meets M pre ok Q p s) (hfree : ∀ s op, ok s op)
    (hrun : Run M.Step (s, p) es (s', .ret a)) : Q a s' := by
  have hall : ∀ c e, @Allowed σ ε Op Ans α ok c e := by
    rintro ⟨s₁, p₁⟩ e
    cases p₁ <;> cases e <;> first | exact hfree _ _ | trivial
  have hmeets : Meets M pre ok Q (.ret a) s' := by
    apply @Run.invariant _ _ _ _ _ (fun c => Meets M pre ok Q c.2 c.1) _ es hrun h
    rintro ⟨s₁, p₁⟩ e ⟨s₂, p₂⟩ h₁ hs
    exact (h₁.step hs).1 (hall _ e)
  exact hmeets.legal

end Meets

end Machine

end LostWakeup.Library
