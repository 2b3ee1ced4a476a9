import Mathlib.Data.Set.Insert
import Mathlib.Logic.Function.Basic

/-!
# Exact ownership

Some resources are reserved, the others are handed out to places that hold at
most one each. The used ones are exactly the reserved ones and those held, and
nothing is held in two places.
-/

namespace Cs3650.Lib

structure Exact {ι ρ : Type} (reserved used : Set ρ) (holds : ι → Option ρ) : Prop where
  single : ∀ a b r, holds a = some r → holds b = some r → a = b
  used_iff : ∀ r, r ∈ used ↔ r ∈ reserved ∨ ∃ a, holds a = some r
  apart : ∀ a r, holds a = some r → r ∉ reserved

namespace Exact

variable {ι ρ : Type} {reserved used used' : Set ρ} {holds holds' : ι → Option ρ}

theorem used_of_holds (h : Exact reserved used holds) {a : ι} {r : ρ} (ha : holds a = some r) :
    r ∈ used :=
  (h.used_iff r).mpr (Or.inr ⟨a, ha⟩)

/-- A used resource that is not reserved is held in exactly one place. -/
theorem used_iff_unique (h : Exact reserved used holds) (r : ρ) :
    r ∈ used ↔ r ∈ reserved ∨ ∃! a, holds a = some r := by
  rw [h.used_iff]
  constructor
  · rintro (hr | ⟨a, ha⟩)
    · exact Or.inl hr
    · exact Or.inr ⟨a, ha, fun b hb => h.single b a r hb ha⟩
  · rintro (hr | ⟨a, ha, -⟩)
    · exact Or.inl hr
    · exact Or.inr ⟨a, ha⟩

theorem acquire (h : Exact reserved used holds) {a : ι} {r : ρ} (hfree : r ∉ used)
    (hnone : holds a = none) (hused : ∀ x, x ∈ used' ↔ x = r ∨ x ∈ used)
    (ha : holds' a = some r) (hrest : ∀ b, b ≠ a → holds' b = holds b) :
    Exact reserved used' holds' := by
  have hnew : ∀ b, holds' b = some r → b = a := by
    intro b hb
    by_contra hne
    rw [hrest b hne] at hb
    exact hfree (h.used_of_holds hb)
  refine ⟨?_, ?_, ?_⟩
  · intro b c x hb hc
    by_cases hx : x = r
    · subst hx
      rw [hnew b hb, hnew c hc]
    · have hba : b ≠ a := fun he => hx (by rw [he, ha] at hb; exact (Option.some.inj hb).symm)
      have hca : c ≠ a := fun he => hx (by rw [he, ha] at hc; exact (Option.some.inj hc).symm)
      rw [hrest b hba] at hb
      rw [hrest c hca] at hc
      exact h.single b c x hb hc
  · intro x
    rw [hused, h.used_iff]
    constructor
    · rintro (rfl | hx | ⟨b, hb⟩)
      · exact Or.inr ⟨a, ha⟩
      · exact Or.inl hx
      · have hba : b ≠ a := fun he => by rw [he, hnone] at hb; cases hb
        exact Or.inr ⟨b, by rw [hrest b hba]; exact hb⟩
    · rintro (hx | ⟨b, hb⟩)
      · exact Or.inr (Or.inl hx)
      · by_cases hba : b = a
        · rw [hba, ha] at hb
          exact Or.inl (Option.some.inj hb).symm
        · rw [hrest b hba] at hb
          exact Or.inr (Or.inr ⟨b, hb⟩)
  · intro b x hb
    by_cases hba : b = a
    · rw [hba, ha] at hb
      obtain rfl := Option.some.inj hb
      exact fun hr => hfree ((h.used_iff _).mpr (Or.inl hr))
    · rw [hrest b hba] at hb
      exact h.apart b x hb

theorem release (h : Exact reserved used holds) {a : ι} {r : ρ} (ha : holds a = some r)
    (hused : ∀ x, x ∈ used' ↔ x ≠ r ∧ x ∈ used) (hnone : holds' a = none)
    (hrest : ∀ b, b ≠ a → holds' b = holds b) : Exact reserved used' holds' := by
  have hold : ∀ b x, holds' b = some x → b ≠ a ∧ holds b = some x := by
    intro b x hb
    have hba : b ≠ a := fun he => by rw [he, hnone] at hb; cases hb
    exact ⟨hba, by rw [← hrest b hba]; exact hb⟩
  refine ⟨?_, ?_, ?_⟩
  · intro b c x hb hc
    exact h.single b c x (hold b x hb).2 (hold c x hc).2
  · intro x
    rw [hused, h.used_iff]
    constructor
    · rintro ⟨hx, hr | ⟨b, hb⟩⟩
      · exact Or.inl hr
      · have hba : b ≠ a := fun he => by
          rw [he, ha] at hb
          exact hx (Option.some.inj hb).symm
        exact Or.inr ⟨b, by rw [hrest b hba]; exact hb⟩
    · rintro (hr | ⟨b, hb⟩)
      · exact ⟨fun he => h.apart a r ha (he ▸ hr), Or.inl hr⟩
      · obtain ⟨hba, hb⟩ := hold b x hb
        refine ⟨fun he => hba ?_, Or.inr ⟨b, hb⟩⟩
        rw [he] at hb
        exact h.single b a r hb ha
  · intro b x hb
    exact h.apart b x (hold b x hb).2

variable [DecidableEq ι]

/-- A place gives up what it holds, if anything. -/
theorem vacate (h : Exact reserved used holds) (a : ι) :
    Exact reserved {x | x ∈ used ∧ holds a ≠ some x} (Function.update holds a none) := by
  cases ha : holds a with
  | none =>
    rw [Function.update_eq_self_iff.mpr ha.symm]
    simpa using h
  | some r =>
    refine h.release ha ?_ (Function.update_self ..) fun b hb => Function.update_of_ne hb ..
    intro x
    simp only [Set.mem_setOf_eq, ne_eq, Option.some.injEq, and_comm, eq_comm]

theorem occupy (h : Exact reserved used holds) {a : ι} {r : ρ} (hfree : r ∉ used)
    (hnone : holds a = none) : Exact reserved (insert r used) (Function.update holds a (some r)) :=
  h.acquire hfree hnone (fun _ => Set.mem_insert_iff) (Function.update_self ..)
    fun _ hb => Function.update_of_ne hb ..

/-- The places trade what they hold. -/
theorem reindex (h : Exact reserved used holds) (e : ι → ι) (he : Function.Involutive e) :
    Exact reserved used fun a => holds (e a) := by
  refine ⟨?_, ?_, fun a => h.apart (e a)⟩
  · intro a b r ha hb
    rw [← he a, h.single (e a) (e b) r ha hb, he b]
  · intro r
    rw [h.used_iff]
    constructor
    · rintro (hr | ⟨a, ha⟩)
      · exact Or.inl hr
      · exact Or.inr ⟨e a, by rw [he a]; exact ha⟩
    · rintro (hr | ⟨a, ha⟩)
      · exact Or.inl hr
      · exact Or.inr ⟨e a, ha⟩

end Exact

end Cs3650.Lib
