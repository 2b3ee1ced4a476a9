import Mathlib.Data.List.Nodup

/-!
# Round robin

A cursor goes over a table from the start to the end again and again and stops at
some places. As long as it has not come to a place, it stops nowhere twice.
-/

namespace Cs3650.Lib

/-- The places that a cursor has passed on its way from `i` to `j`, at most once around. -/
def Between (i j q : Nat) : Prop := i ≤ j ∧ i ≤ q ∧ q < j ∨ j < i ∧ (i ≤ q ∨ q < j)

/-- From `i` to `j` the cursor stopped at the places of the list and did not pass `p`. -/
structure Round (p i j : Nat) (stops : List Nat) : Prop where
  stopped : ∀ q ∈ stops, Between i j q
  ahead : ¬Between i j p
  nodup : stops.Nodup

variable {p i j q : Nat} {stops : List Nat}

theorem round_nil (p i : Nat) : Round p i i [] where
  stopped := by simp
  ahead := by
    unfold Between
    omega
  nodup := List.nodup_nil

/-- The cursor goes on to a place before `p`. -/
theorem Round.stop (h : Round p i j stops) (hq : j ≤ q) (hp : j ≤ p → q < p) :
    Round p i (q + 1) (stops ++ [q]) := by
  have hahead := h.ahead
  have hnew : q ∉ stops := by
    intro hmem
    have hold := h.stopped q hmem
    unfold Between at hold hahead
    omega
  constructor
  · intro r hr
    rcases List.mem_append.mp hr with hold | hlast
    · have hr' := h.stopped r hold
      unfold Between at hr' hahead ⊢
      omega
    · obtain rfl := List.mem_singleton.mp hlast
      unfold Between at hahead ⊢
      omega
  · unfold Between at hahead ⊢
    omega
  · rw [List.nodup_append]
    refine ⟨h.nodup, List.nodup_singleton q, fun r hr r' hr' heq => hnew ?_⟩
    rwa [← List.mem_singleton.mp hr', ← heq]

/-- The cursor starts again, since it is past `p`. -/
theorem Round.again (h : Round p i j stops) (hp : p < j) : Round p i 0 stops := by
  have hahead := h.ahead
  constructor
  · intro r hr
    have hr' := h.stopped r hr
    unfold Between at hr' hahead ⊢
    omega
  · unfold Between at hahead ⊢
    omega
  · exact h.nodup

end Cs3650.Lib
