import Mathlib.Tactic.Common

/-!
# Machines that make events

A step that may be impossible takes a state to the next one and makes events.
What holds at the start, and after a step when it held before, holds after every
run.
-/

namespace Cs3650.Lib

variable {S A E : Type*} {step : S → A → Option (S × List E)} {s s' : S} {acts : List A}
    {evs : List E}

def runs (step : S → A → Option (S × List E)) : S → List A → Option (S × List E)
  | s, [] => some (s, [])
  | s, a :: acts => do
    let (s₁, es) ← step s a
    let (s', evs) ← runs step s₁ acts
    some (s', es ++ evs)

theorem runs_cons {a : A} (h : runs step s (a :: acts) = some (s', evs)) :
    ∃ s₁ es evs', step s a = some (s₁, es) ∧ runs step s₁ acts = some (s', evs') ∧
    evs = es ++ evs' := by
  simp only [runs, bind, Option.bind_eq_some_iff] at h
  obtain ⟨⟨s₁, es⟩, hstep, ⟨s₂, evs'⟩, hrest, heq⟩ := h
  simp only [Option.some.injEq, Prod.mk.injEq] at heq
  obtain ⟨rfl, rfl⟩ := heq
  exact ⟨s₁, es, evs', hstep, hrest, rfl⟩

theorem runs_append {acts' : List A} {s₁ : S} {evs' : List E}
    (h : runs step s acts = some (s₁, evs))
    (h' : runs step s₁ acts' = some (s', evs')) :
    runs step s (acts ++ acts') = some (s', evs ++ evs') := by
  induction acts generalizing s evs with
  | nil =>
    simp only [runs, Option.some.injEq, Prod.mk.injEq] at h
    obtain ⟨rfl, rfl⟩ := h
    exact h'
  | cons a acts ih =>
    obtain ⟨s₂, es, evs₂, hfirst, hrest, rfl⟩ := runs_cons h
    simp only [List.cons_append, runs, hfirst, ih hrest, bind, Option.bind_some, List.append_assoc]

/-- An invariant of the state and of the events so far. -/
theorem runs_invariant {P : S → List E → Prop}
    (hstep : ∀ {s a s' es evs}, P s evs → step s a = some (s', es) → P s' (evs ++ es))
    {before : List E}
    (hstart : P s before) (hrun : runs step s acts = some (s', evs)) : P s' (before ++ evs) := by
  induction acts generalizing s before evs with
  | nil =>
    simp only [runs, Option.some.injEq, Prod.mk.injEq] at hrun
    obtain ⟨rfl, rfl⟩ := hrun
    simpa using hstart
  | cons a acts ih =>
    obtain ⟨s₁, es, evs', hfirst, hrest, rfl⟩ := runs_cons hrun
    rw [← List.append_assoc]
    exact ih (hstep hstart hfirst) hrest

/-- Every event fits what came before it. -/
def Fits (P : List E → E → Prop) (evs : List E) : Prop :=
  ∀ before e after, evs = before ++ e :: after → P before e

theorem fits_nil {P : List E → E → Prop} : Fits P [] := by
  intro before e after h
  simp at h

theorem Fits.append {P : List E → E → Prop} {e : E} (h : Fits P evs) (he : P evs e) :
    Fits P (evs ++ [e]) := by
  intro before e' after heq
  cases List.eq_nil_or_concat after with
  | inl hnil =>
    rw [hnil] at heq
    obtain ⟨rfl, hlast⟩ := List.append_inj' heq rfl
    obtain rfl : e = e' := (List.cons.inj hlast).1
    exact he
  | inr hsnoc =>
    obtain ⟨after', e'', hafter⟩ := hsnoc
    have hcons : evs ++ [e] = (before ++ e' :: after') ++ [e''] := by
      rw [heq, hafter]
      simp
    exact h before e' after' (List.append_inj' hcons rfl).1

theorem Fits.of_append {P : List E → E → Prop} {es : List E} (h : Fits P (evs ++ es)) :
    Fits P evs := by
  intro before e after heq
  exact h before e (after ++ es) (by simp [heq])

theorem Fits.last {P : List E → E → Prop} {e : E} (h : Fits P (evs ++ [e])) : P evs e :=
  h evs e [] rfl

end Cs3650.Lib
