/-
# LostWakeup.Library.Run — finite runs of a labelled step relation.

Every concurrent or stateful component of the development is a relation `step s e s'` ("event `e` takes state `s` to
`s'`"), and a *run* is a finite list of events chained by it.  An invariant that every step keeps holds at the end of
every run, also under a side condition that each step of the run meets.
-/
import Mathlib.Logic.Basic
import Mathlib.Data.List.Basic

namespace LostWakeup.Library

variable {σ ε : Type*}

/-- `Run step s es s'`: the events `es`, taken in order, lead from `s` to `s'`. -/
inductive Run (step : σ → ε → σ → Prop) : σ → List ε → σ → Prop
  | nil (s : σ) : Run step s [] s
  | cons {s s' s'' : σ} {e : ε} {es : List ε} :
      step s e s' → Run step s' es s'' → Run step s (e :: es) s''

/-- The steps of `step` whose pre-state and event satisfy `ok`. -/
def Guarded (step : σ → ε → σ → Prop) (ok : σ → ε → Prop) (s : σ) (e : ε) (s' : σ) : Prop :=
  ok s e ∧ step s e s'

/-- The steps that end in a state with the property `law`. -/
def Lawful (step : σ → ε → σ → Prop) (law : σ → Prop) (s : σ) (e : ε) (s' : σ) : Prop :=
  step s e s' ∧ law s'

namespace Run

variable {step : σ → ε → σ → Prop} {s s' s'' : σ}

/-- **The invariant rule.** What holds initially and is kept by every step holds after every run. -/
theorem invariant {I : σ → Prop} (hstep : ∀ s e s', I s → step s e s' → I s')
    {es : List ε} (hrun : Run step s es s') (h0 : I s) : I s' := by
  induction hrun with
  | nil s => exact h0
  | cons hs _ ih => exact ih (hstep _ _ _ h0 hs)

theorem mono {step' : σ → ε → σ → Prop} (hsub : ∀ s e s', step s e s' → step' s e s') {es : List ε}
    (h : Run step s es s') : Run step' s es s' := by
  induction h with
  | nil s => exact .nil s
  | cons hs _ ih => exact .cons (hsub _ _ _ hs) ih

theorem guard {ok : ε → Prop} {es : List ε} (h : Run step s es s') (hok : ∀ e ∈ es, ok e) :
    Run (Guarded step fun _ e => ok e) s es s' := by
  induction h with
  | nil s => exact .nil s
  | @cons _ _ _ e es hs _ ih =>
    have htail := ih fun e' he' => hok e' (List.mem_cons_of_mem _ he')
    exact .cons ⟨hok e List.mem_cons_self, hs⟩ htail

theorem guarded_iff {I : σ → Prop} {ok ok' : σ → ε → Prop}
    (hstep : ∀ s e s', I s → ok' s e → step s e s' → I s')
    (hiff : ∀ s e s', I s → step s e s' → (ok s e ↔ ok' s e)) {es : List ε} (h0 : I s) :
    Run (Guarded step ok) s es s' ↔ Run (Guarded step ok') s es s' := by
  constructor
  · intro h
    induction h with
    | nil s => exact .nil s
    | cons hs _ ih =>
      have hok' := (hiff _ _ _ h0 hs.2).mp hs.1
      exact .cons ⟨hok', hs.2⟩ (ih (hstep _ _ _ h0 hok' hs.2))
  · intro h
    induction h with
    | nil s => exact .nil s
    | cons hs _ ih =>
      have hok := (hiff _ _ _ h0 hs.2).mpr hs.1
      exact .cons ⟨hok, hs.2⟩ (ih (hstep _ _ _ h0 hs.1 hs.2))

theorem lawful_iff {I law : σ → Prop} {ok : σ → ε → Prop}
    (hstep : ∀ s e s', I s → law s → step s e s' → I s' ∧ (law s' ↔ ok s e)) {es : List ε} (h0 : I s) (hlaw : law s) :
    Run (Lawful step law) s es s' ↔ Run (Guarded step ok) s es s' := by
  constructor
  · intro h
    induction h with
    | nil s => exact .nil s
    | cons hs _ ih =>
      obtain ⟨hinv, hiff⟩ := hstep _ _ _ h0 hlaw hs.1
      exact .cons ⟨hiff.mp hs.2, hs.1⟩ (ih hinv hs.2)
  · intro h
    induction h with
    | nil s => exact .nil s
    | cons hs _ ih =>
      obtain ⟨hinv, hiff⟩ := hstep _ _ _ h0 hlaw hs.2
      exact .cons ⟨hs.2, hiff.mpr hs.1⟩ (ih hinv (hiff.mpr hs.1))

theorem append {es es' : List ε} (h : Run step s es s') (h' : Run step s' es' s'') :
    Run step s (es ++ es') s'' := by
  induction h with
  | nil s => exact h'
  | cons hs _ ih => exact .cons hs (ih h')

theorem split {es es' : List ε} (h : Run step s (es ++ es') s'') :
    ∃ s', Run step s es s' ∧ Run step s' es' s'' := by
  induction es generalizing s with
  | nil => exact ⟨s, .nil s, h⟩
  | cons e es ih =>
    cases h with
    | cons hs htail =>
      obtain ⟨s', hfst, hsnd⟩ := ih htail
      exact ⟨s', .cons hs hfst, hsnd⟩

theorem snoc {es : List ε} {e : ε} (h : Run step s es s') (hs : step s' e s'') :
    Run step s (es ++ [e]) s'' :=
  h.append (.cons hs (.nil _))

end Run

/-- Run the events of a list through a partial step function. -/
def exec (next : σ → ε → Option σ) (s : σ) : List ε → Option σ
  | [] => some s
  | e :: es => (next s e).bind fun s' => exec next s' es

theorem run_of_exec (next : σ → ε → Option σ) (s : σ) (es : List ε) {s' : σ}
    (h : exec next s es = some s') : Run (fun s e s' => next s e = some s') s es s' := by
  induction es generalizing s with
  | nil =>
    cases h
    exact .nil _
  | cons e es ih =>
    obtain ⟨s₁, hs, htail⟩ := Option.bind_eq_some_iff.mp h
    exact .cons hs (ih s₁ htail)

end LostWakeup.Library
