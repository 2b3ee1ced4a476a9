import Mathlib.Logic.Function.Basic
import Mathlib.Tactic.Common

/-!
# Locks and the places of their holders

A lock that has at most one holder, and threads each at a place of its program:
the holder is the one thread that stands at a place where the lock is held.
-/

namespace Cs3650.Lib

variable {T P : Type*} {lock : Option T} {holds : P → Bool} {pc : T → P} {t u : T} {p : P}

/-- Who holds the lock is told by where the threads are. -/
def HeldAt (holds : P → Bool) (lock : Option T) (pc : T → P) : Prop :=
  ∀ t, lock = some t ↔ holds (pc t) = true

namespace HeldAt

theorem unique (h : HeldAt holds lock pc) (ht : holds (pc t) = true)
    (hu : holds (pc u) = true) : t = u :=
  Option.some.inj (((h t).mpr ht).symm.trans ((h u).mpr hu))

theorem free (h : HeldAt holds lock pc) (hfree : lock = none) (t : T) : holds (pc t) = false := by
  have hiff := h t
  rw [hfree] at hiff
  cases hp : holds (pc t) with
  | false => rfl
  | true => exact absurd (hiff.mpr hp) (Option.some_ne_none t).symm

theorem other (h : HeldAt holds lock pc) (ht : holds (pc t) = true) (hne : u ≠ t) :
    holds (pc u) = false := by
  cases hu : holds (pc u) with
  | false => rfl
  | true => exact absurd (h.unique hu ht) hne

/-- Moves that change for no thread whether it holds the lock. -/
theorem congr (h : HeldAt holds lock pc) {pc' : T → P} (hsame : ∀ u, holds (pc' u) = holds (pc u)) :
    HeldAt holds lock pc' := by
  intro u
  rw [hsame u]
  exact h u

section Move

variable [DecidableEq T]

theorem keep (h : HeldAt holds lock pc) (hsame : holds p = holds (pc t)) :
    HeldAt holds lock (Function.update pc t p) := by
  apply h.congr
  intro u
  by_cases hu : u = t
  · subst hu
    rw [Function.update_self, hsame]
  · rw [Function.update_of_ne hu]

theorem acquire (h : HeldAt holds lock pc) (hfree : lock = none) (hp : holds p = true) :
    HeldAt holds (some t) (Function.update pc t p) := by
  intro u
  by_cases hu : u = t
  · subst hu
    simp [hp]
  · rw [Function.update_of_ne hu, h.free hfree u]
    simp [Ne.symm hu]

theorem release (h : HeldAt holds lock pc) (ht : holds (pc t) = true) (hp : holds p = false) :
    HeldAt holds none (Function.update pc t p) := by
  intro u
  by_cases hu : u = t
  · subst hu
    simp [hp]
  · rw [Function.update_of_ne hu, h.other ht hu]
    simp

end Move

end HeldAt

end Cs3650.Lib
