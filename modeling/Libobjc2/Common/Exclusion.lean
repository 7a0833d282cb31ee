import Mathlib.Logic.Function.Basic

/-!
# Sections that one thread at a time is in

A word says whether a section is free. `Guards free inside` ties it to the threads that are inside.

Results:
* `Guards.enter`, `Guards.leave`: a thread that finds the section free enters it, and the one that is
  inside leaves it.
* `Guards.keep`: other steps.
-/

namespace Libobjc2.Common

variable {Thread : Type*}

/-- At most one thread is inside, and none if the word says free. -/
structure Guards (free : Prop) (inside : Thread → Prop) : Prop where
  atMostOne : ∀ t u, inside t → inside u → t = u
  free_iff : free ↔ ∀ t, ¬ inside t

variable {free free' : Prop} {inside inside' : Thread → Prop} {t : Thread}

theorem Guards.initial (hfree : free) (h : ∀ t, ¬ inside t) : Guards free inside :=
  ⟨fun t _ ht => absurd ht (h t), iff_of_true hfree h⟩

/-- A thread enters the free section. -/
theorem Guards.enter (h : Guards free inside) (hfree : free) (hfree' : ¬ free')
    (hinside : ∀ u, inside' u ↔ u = t ∨ inside u) : Guards free' inside' := by
  have hnone := h.free_iff.mp hfree
  have hself : ∀ u, inside' u → u = t := fun u hu => ((hinside u).mp hu).resolve_right (hnone u)
  refine ⟨fun u v hu hv => (hself u hu).trans (hself v hv).symm, iff_of_false hfree' fun hall => ?_⟩
  exact hall t ((hinside t).mpr (.inl rfl))

/-- The thread that is inside leaves. -/
theorem Guards.leave (h : Guards free inside) (ht : inside t) (hfree' : free')
    (hinside : ∀ u, inside' u ↔ u ≠ t ∧ inside u) : Guards free' inside' :=
  Guards.initial hfree' fun u hu =>
    ((hinside u).mp hu).1 (h.atMostOne u t ((hinside u).mp hu).2 ht)

theorem Guards.keep (h : Guards free inside) (hfree : free' ↔ free) (hinside : ∀ u, inside' u ↔ inside u) :
    Guards free' inside' := by
  refine ⟨fun u v hu hv => h.atMostOne u v ((hinside u).mp hu) ((hinside v).mp hv), ?_⟩
  rw [hfree, h.free_iff]
  exact forall_congr' fun u => (not_congr (hinside u)).symm

end Libobjc2.Common
