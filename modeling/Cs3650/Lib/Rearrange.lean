import Mathlib.Data.List.Perm.Basic
import Mathlib.Data.Set.Basic
import Mathlib.Logic.Relation

/-!
# Lists rearranged in place

A list goes to another by swaps at places of a set. Nothing is lost, what lies
at other places stays, and what holds of every entry of the set holds of them
afterwards.
-/

namespace Cs3650.Lib

variable {α : Type*} {S T : Set Nat} {xs ys zs : List α}

def Rearranged (S : Set Nat) : List α → List α → Prop :=
  Relation.ReflTransGen fun xs ys => ∃ i ∈ S, ∃ j ∈ S, ys = xs.swap i j

theorem getElem?_swap_of_ne {i j k : Nat} (hi : k ≠ i) (hj : k ≠ j) :
    (xs.swap i j)[k]? = xs[k]? := by
  rcases Nat.lt_or_ge k xs.length with hk | hk
  · rw [List.getElem?_eq_getElem (by rwa [List.length_swap]), List.getElem?_eq_getElem hk,
      List.getElem_swap_of_ne hi hj]
  · rw [List.getElem?_eq_none (by rwa [List.length_swap]), List.getElem?_eq_none hk]

theorem getElem?_swap_left {i j : Nat} (hi : i < xs.length) (hj : j < xs.length) :
    (xs.swap i j)[i]? = xs[j]? := by
  rw [List.getElem?_eq_getElem (by rwa [List.length_swap]), List.getElem?_eq_getElem hj,
    List.getElem_swap_left_of_lt hj]

theorem getElem?_swap_right {i j : Nat} (hi : i < xs.length) (hj : j < xs.length) :
    (xs.swap i j)[j]? = xs[i]? := by
  rw [List.swap_comm]
  exact getElem?_swap_left hj hi

/-- Every entry of a swapped list was there before, at the same place or at the other of the two. -/
theorem exists_getElem?_swap (xs : List α) (i j k : Nat) :
    ∃ k', (xs.swap i j)[k]? = xs[k']? ∧ (k' = k ∨ k = i ∧ k' = j ∨ k = j ∧ k' = i) := by
  by_cases hlt : i < xs.length ∧ j < xs.length
  · by_cases hi : k = i
    · subst hi
      exact ⟨j, getElem?_swap_left hlt.1 hlt.2, Or.inr (Or.inl ⟨rfl, rfl⟩)⟩
    by_cases hj : k = j
    · subst hj
      exact ⟨i, getElem?_swap_right hlt.1 hlt.2, Or.inr (Or.inr ⟨rfl, rfl⟩)⟩
    exact ⟨k, getElem?_swap_of_ne hi hj, Or.inl rfl⟩
  · rw [List.swap_eq, dif_neg hlt]
    exact ⟨k, rfl, Or.inl rfl⟩

namespace Rearranged

theorem refl : Rearranged S xs xs := Relation.ReflTransGen.refl

theorem trans (h₁ : Rearranged S xs ys) (h₂ : Rearranged S ys zs) : Rearranged S xs zs :=
  Relation.ReflTransGen.trans h₁ h₂

theorem swap {i j : Nat} (hi : i ∈ S) (hj : j ∈ S) : Rearranged S xs (xs.swap i j) :=
  Relation.ReflTransGen.single ⟨i, hi, j, hj, rfl⟩

theorem mono (h : Rearranged S xs ys) (hST : S ⊆ T) : Rearranged T xs ys := by
  induction h with
  | refl => exact refl
  | tail _ hstep ih =>
    obtain ⟨i, hi, j, hj, rfl⟩ := hstep
    exact ih.trans (swap (hST hi) (hST hj))

theorem perm (h : Rearranged S xs ys) : ys.Perm xs := by
  induction h with
  | refl => exact .refl _
  | tail _ hstep ih =>
    obtain ⟨i, -, j, -, rfl⟩ := hstep
    exact (List.swap_perm _ i j).trans ih

theorem length_eq (h : Rearranged S xs ys) : ys.length = xs.length := h.perm.length_eq

theorem getElem?_eq (h : Rearranged S xs ys) {k : Nat} (hk : k ∉ S) : ys[k]? = xs[k]? := by
  induction h with
  | refl => rfl
  | tail _ hstep ih =>
    obtain ⟨i, hi, j, hj, rfl⟩ := hstep
    rw [getElem?_swap_of_ne (ne_of_mem_of_not_mem hi hk).symm (ne_of_mem_of_not_mem hj hk).symm, ih]

theorem forall_mem (h : Rearranged S xs ys) {P : α → Prop} (hP : ∀ k ∈ S, ∀ x ∈ xs[k]?, P x) :
    ∀ k ∈ S, ∀ y ∈ ys[k]?, P y := by
  induction h with
  | refl => exact hP
  | tail _ hstep ih =>
    obtain ⟨i, hi, j, hj, rfl⟩ := hstep
    intro k hk y hy
    obtain ⟨k', hsame, hk'⟩ := exists_getElem?_swap _ i j k
    rw [hsame] at hy
    refine ih k' ?_ y hy
    rcases hk' with rfl | ⟨-, rfl⟩ | ⟨-, rfl⟩
    · exact hk
    · exact hj
    · exact hi

/-- The places below `n` only: they hold what they held in another order, the rest as before. -/
theorem take_perm {n : Nat} (h : Rearranged {k | k < n} xs ys) :
    (ys.take n).Perm (xs.take n) ∧ ys.drop n = xs.drop n := by
  have hdrop : ys.drop n = xs.drop n := by
    apply List.ext_getElem?
    intro k
    rw [List.getElem?_drop, List.getElem?_drop]
    exact h.getElem?_eq (Nat.not_lt.mpr (Nat.le_add_right n k))
  have hperm : (ys.take n ++ xs.drop n).Perm (xs.take n ++ xs.drop n) := by
    rw [List.take_append_drop, ← hdrop, List.take_append_drop]
    exact h.perm
  exact ⟨(List.perm_append_right_iff _).mp hperm, hdrop⟩

end Rearranged

end Cs3650.Lib
