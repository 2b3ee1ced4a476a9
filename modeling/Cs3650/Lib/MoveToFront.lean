import Mathlib.Data.List.Nodup
import Mathlib.Data.List.Induction
import Mathlib.Data.List.Perm.Basic
import Mathlib.Tactic.Common

/-!
# Lists in the order of the last use

A list whose elements are brought to the front when they are used is ordered by
when that last was.
-/

namespace Cs3650.Lib

variable {ι : Type*} [DecidableEq ι] {l uses : List ι} {i j : ι} {p : ι → Bool}

def moveToFront (l uses : List ι) : List ι := uses.foldl (fun l i => i :: l.erase i) l

/-- The number of uses up to the last one of `i`, and 0 without one. -/
def lastUse (uses : List ι) (i : ι) : Nat := uses.length - uses.reverse.idxOf i

theorem moveToFront_append : moveToFront l (uses ++ [i]) = i :: (moveToFront l uses).erase i := by
  simp [moveToFront]

theorem lastUse_append :
    lastUse (uses ++ [i]) j = if j = i then uses.length + 1 else lastUse uses j := by
  simp only [lastUse, List.reverse_append, List.reverse_singleton, List.singleton_append,
    List.length_append, List.length_singleton, List.idxOf_cons]
  by_cases hj : j = i
  · simp [hj]
  · have hij : (i == j) = false := by simpa using Ne.symm hj
    simp only [hij, cond_false, if_neg hj]
    omega

theorem lastUse_le (uses : List ι) (i : ι) : lastUse uses i ≤ uses.length := Nat.sub_le ..

theorem moveToFront_perm (huses : ∀ i ∈ uses, i ∈ l) : (moveToFront l uses).Perm l := by
  induction uses using List.reverseRecOn with
  | nil => exact List.Perm.refl l
  | append_singleton uses i ih =>
    have hperm := ih fun j hj => huses j (List.mem_append_left _ hj)
    have hi : i ∈ moveToFront l uses := hperm.mem_iff.mpr (huses i (by simp))
    rw [moveToFront_append]
    exact (List.perm_cons_erase hi).symm.trans hperm

theorem moveToFront_pairwise (hnodup : l.Nodup) (huses : ∀ i ∈ uses, i ∈ l) :
    (moveToFront l uses).Pairwise fun i j => lastUse uses j ≤ lastUse uses i := by
  induction uses using List.reverseRecOn with
  | nil => exact List.pairwise_of_forall fun i j => by simp [lastUse]
  | append_singleton uses i ih =>
    have huses' : ∀ j ∈ uses, j ∈ l := fun j hj => huses j (List.mem_append_left _ hj)
    have hnodup' := (moveToFront_perm huses').nodup_iff.mpr hnodup
    have hother {j : ι} (hj : j ∈ (moveToFront l uses).erase i) :
        lastUse (uses ++ [i]) j = lastUse uses j := by
      have hne : j ≠ i := (hnodup'.mem_erase_iff.mp hj).1
      rw [lastUse_append, if_neg hne]
    rw [moveToFront_append, List.pairwise_cons]
    constructor
    · intro j hj
      have hle := lastUse_le uses j
      rw [hother hj, lastUse_append, if_pos rfl]
      omega
    · refine ((ih huses').sublist List.erase_sublist).imp_of_mem fun ha hb hle => ?_
      rwa [hother ha, hother hb]

/-- The first choice from the back was used least recently. -/
theorem lastUse_le_of_find_reverse (hnodup : l.Nodup) (huses : ∀ i ∈ uses, i ∈ l)
    (hfind : (moveToFront l uses).reverse.find? p = some i) (hj : j ∈ l) (hp : p j = true) :
    lastUse uses i ≤ lastUse uses j := by
  have hpairwise := (List.pairwise_reverse.mpr (moveToFront_pairwise hnodup huses))
  obtain ⟨-, before, after, heq, hbefore⟩ := List.find?_eq_some_iff_append.mp hfind
  have hmem : j ∈ (moveToFront l uses).reverse :=
    List.mem_reverse.mpr ((moveToFront_perm huses).mem_iff.mpr hj)
  rw [heq] at hpairwise hmem
  cases List.mem_append.mp hmem with
  | inl hin =>
    have hnot := hbefore j hin
    rw [hp] at hnot
    cases hnot
  | inr hin =>
    cases List.mem_cons.mp hin with
    | inl hsame => exact Nat.le_of_eq (by rw [hsame])
    | inr hafter => exact (List.pairwise_cons.mp (List.pairwise_append.mp hpairwise).2.1).1 j hafter

end Cs3650.Lib
