import Mathlib.Logic.Relation

/-!
# Runs of a labelled transition system

A system is a step relation `step s a s'` on states, labelled by the action taken.
`Runs step s s'` says that `s'` is reached from `s` by finitely many steps.

* `Runs.invariant`: what holds at the start and is kept by every step holds in every
  reached state.
* `Runs.relates`: a reflexive and transitive relation that every step satisfies relates
  the two ends of a run.
* `Runs.mono`: the runs of a restricted step relation are runs of the full one.
* `runList`: the run of a system whose steps are functions of the action.
* `runList_keeps`, `allOk_congr`: invariants of such a run.
* `runResults_refines`: a system that answers as another one does, step by step, answers
  every sequence of calls as the other one does.
-/

namespace Libobjc2.Common

variable {σ α : Type*}

/-- `s'` is reached from `s` by steps of `step`. -/
def Runs (step : σ → α → σ → Prop) : σ → σ → Prop :=
  Relation.ReflTransGen fun s s' => ∃ a, step s a s'

theorem Runs.refl {step : σ → α → σ → Prop} (s : σ) : Runs step s s := Relation.ReflTransGen.refl

theorem Runs.tail {step : σ → α → σ → Prop} {s t u : σ} {a : α} (h : Runs step s t)
    (ht : step t a u) : Runs step s u :=
  Relation.ReflTransGen.tail h ⟨a, ht⟩

theorem Runs.single {step : σ → α → σ → Prop} {s t : σ} {a : α} (h : step s a t) :
    Runs step s t :=
  (Runs.refl s).tail h

theorem Runs.trans {step : σ → α → σ → Prop} {s t u : σ} (h : Runs step s t)
    (h' : Runs step t u) : Runs step s u :=
  Relation.ReflTransGen.trans h h'

/-- **The invariant rule.** What holds in `s` and is kept by every step holds in every
    state reached from `s`. -/
theorem Runs.invariant {step : σ → α → σ → Prop} {Inv : σ → Prop} {s t : σ}
    (h : Runs step s t) (hs : Inv s) (hstep : ∀ u a u', Inv u → step u a u' → Inv u') : Inv t := by
  induction h with
  | refl => exact hs
  | tail _ hbc ih =>
    obtain ⟨a, ha⟩ := hbc
    exact hstep _ a _ ih ha

/-- **The two-state rule.** Under an invariant, a reflexive and transitive relation that
    every step satisfies relates the ends of a run. -/
theorem Runs.relates {step : σ → α → σ → Prop} {Inv : σ → Prop} {R : σ → σ → Prop} {s t : σ}
    (h : Runs step s t) (hs : Inv s) (hinv : ∀ u a u', Inv u → step u a u' → Inv u')
    (hrefl : ∀ u, R u u) (htrans : ∀ u v w, R u v → R v w → R u w)
    (hstep : ∀ u a u', Inv u → step u a u' → R u u') : R s t := by
  have : Inv t ∧ R s t := by
    induction h with
    | refl => exact ⟨hs, hrefl _⟩
    | tail _ hbc ih =>
      obtain ⟨a, ha⟩ := hbc
      exact ⟨hinv _ a _ ih.1 ha, htrans _ _ _ ih.2 (hstep _ a _ ih.1 ha)⟩
  exact this.2

theorem Runs.mono {step step' : σ → α → σ → Prop} {s t : σ} (h : Runs step s t)
    (hsub : ∀ u a u', step u a u' → step' u a u') : Runs step' s t :=
  Relation.ReflTransGen.mono (fun _ _ ⟨a, ha⟩ => ⟨a, hsub _ a _ ha⟩) _ _ h

/-- The steps of a functional system that are taken only where `ok` allows them. -/
def guarded (ok : σ → α → Prop) (next : σ → α → σ) : σ → α → σ → Prop :=
  fun s a s' => ok s a ∧ s' = next s a

/-- The state after a list of actions. -/
def runList (next : σ → α → σ) (s : σ) (as : List α) : σ := as.foldl next s

/-- `ok` holds at every step of the run over `as` from `s`. -/
def AllOk (ok : σ → α → Prop) (next : σ → α → σ) : σ → List α → Prop
  | _, [] => True
  | s, a :: as => ok s a ∧ AllOk ok next (next s a) as

theorem runs_of_allOk {ok : σ → α → Prop} {next : σ → α → σ} :
    ∀ (as : List α) (s : σ), AllOk ok next s as → Runs (guarded ok next) s (runList next s as)
  | [], s, _ => Runs.refl s
  | a :: as, s, ⟨h, hs⟩ =>
    (Runs.single (a := a) ⟨h, rfl⟩).trans (runs_of_allOk as (next s a) hs)

instance AllOk.decidable (ok : σ → α → Prop) (next : σ → α → σ) [∀ s a, Decidable (ok s a)] :
    ∀ (s : σ) (as : List α), Decidable (AllOk ok next s as)
  | _, [] => isTrue trivial
  | s, a :: as =>
    have := AllOk.decidable ok next (next s a) as
    inferInstanceAs (Decidable (ok s a ∧ AllOk ok next (next s a) as))

/-! ## Conditions on every step -/

theorem runList_keeps {next : σ → α → σ} (Inv : σ → Prop) (h : ∀ s a, Inv s → Inv (next s a))
    (as : List α) {s : σ}
    (hs : Inv s) : Inv (runList next s as) := by
  induction as generalizing s with
  | nil => exact hs
  | cons a as ih => exact ih (h s a hs)

theorem allOk_and_iff (ok ok' : σ → α → Prop) (next : σ → α → σ) (as : List α) (s : σ) :
    AllOk (fun s a => ok s a ∧ ok' s a) next s as ↔ AllOk ok next s as ∧ AllOk ok' next s as := by
  induction as generalizing s with
  | nil => simp [AllOk]
  | cons a as ih =>
    rw [AllOk, AllOk, AllOk, ih]
    exact and_and_and_comm

/-- Conditions that agree under an invariant hold of the same runs. -/
theorem allOk_congr {ok ok' : σ → α → Prop} {next : σ → α → σ} (Inv : σ → Prop)
    (hinv : ∀ s a, Inv s → Inv (next s a)) (h : ∀ s a, Inv s → (ok s a ↔ ok' s a)) (as : List α) {s : σ}
    (hs : Inv s) : AllOk ok next s as ↔ AllOk ok' next s as := by
  induction as generalizing s with
  | nil => exact Iff.rfl
  | cons a as ih => exact and_congr (h s a hs) (ih (hinv s a hs))

/-! ## Calls with results -/

/-- The state after a list of calls, and what the calls return. -/
def runResults {ω ρ : Type*} (step : σ → ω → σ × ρ) : σ → List ω → σ × List ρ
  | s, [] => (s, [])
  | s, o :: os =>
    let (s', r) := step s o
    let (s'', rs) := runResults step s' os
    (s'', r :: rs)

/-- **Refinement.** If `f` maps the states of one system to states of another in which every call
    has the mapped effect and the same result, then it does so for every sequence of calls. -/
theorem runResults_refines {τ ω ρ : Type*} {step : σ → ω → σ × ρ} {step' : τ → ω → τ × ρ} {f : τ → σ}
    (h : ∀ t o, step (f t) o = (f (step' t o).1, (step' t o).2)) :
    ∀ (os : List ω) (t : τ),
      runResults step (f t) os = (f (runResults step' t os).1, (runResults step' t os).2)
  | [], _ => rfl
  | o :: os, t => by
    simp only [runResults]
    rw [h t o, runResults_refines h os]

/-- What every call keeps, a sequence of calls keeps. -/
theorem runResults_keeps {ω ρ : Type*} {step : σ → ω → σ × ρ} (Inv : σ → Prop)
    (h : ∀ s o, Inv s → Inv (step s o).1) : ∀ (os : List ω) (s : σ), Inv s → Inv (runResults step s os).1
  | [], _, hs => hs
  | o :: os, s, hs => runResults_keeps Inv h os (step s o).1 (h s o hs)

end Libobjc2.Common
