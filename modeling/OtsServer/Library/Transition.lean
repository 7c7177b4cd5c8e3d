import Mathlib.Logic.Relation

/-!
# Transition systems

A system has initial states and a step relation; a run is a finite sequence of steps.
What holds of every reachable state is proved once, from what one step keeps: an
invariant is inductive relative to facts already known of reachable states, so that a
large invariant can be proved in parts. A property that steps keep from some state on
is kept by every run from there.
-/

namespace Transition

structure System (σ : Type*) where
  init : σ → Prop
  step : σ → σ → Prop

namespace System

variable {σ : Type*} (S : System σ)

/-- A finite run from one state to another. -/
def Run : σ → σ → Prop := Relation.ReflTransGen S.step

/-- The states that some run from an initial state reaches. -/
inductive Reachable : σ → Prop
  | init {s : σ} : S.init s → Reachable s
  | step {s t : σ} : Reachable s → S.step s t → Reachable t

variable {S}

/-- Every step between reachable states keeps the property, and initial states have it. -/
structure Inductive (S : System σ) (I : σ → Prop) : Prop where
  init : ∀ s, S.init s → I s
  step : ∀ s t, S.Reachable s → I s → S.step s t → I t

theorem Inductive.reachable {I : σ → Prop} (h : S.Inductive I) {s : σ} (hs : S.Reachable s) :
    I s := by
  induction hs with
  | init hs => exact h.init _ hs
  | step hs hst ih => exact h.step _ _ hs ih hst

theorem Reachable.run {s t : σ} (hs : S.Reachable s) (h : S.Run s t) : S.Reachable t := by
  induction h with
  | refl => exact hs
  | tail _ hst ih => exact .step ih hst

/-- A property that every step between reachable states keeps holds at the end of a run
when it holds at its start. -/
theorem Run.keeps {P : σ → Prop} (hP : ∀ s t, S.Reachable s → P s → S.step s t → P t) {s t : σ}
    (hs : S.Reachable s) (h : S.Run s t) (hp : P s) : P t := by
  induction h with
  | refl => exact hp
  | tail hrun hst ih => exact hP _ _ (hs.run hrun) ih hst

end System

end Transition
