import Mathlib.Data.List.Basic
import Mathlib.Order.Lattice
import Mathlib.Tactic.Common

/-!
# Partition of a list into buckets

A monotone sequence of bounds cuts a list over a linear order into half-open
buckets. Laid out one after another, the buckets are a permutation of a list
inside the outer bounds, and sorting each of them sorts the whole.
Any selections that take every item exactly once are laid out as a permutation
of the list.
-/

namespace Cs3650.Lib

section Layout

variable {α : Type*} (f : ℕ → List α)

/-- The first `T` pieces one after another. -/
def layout (T : ℕ) : List α := (List.range T).flatMap f

/-- Position of piece `t` in the layout. -/
def pieceStart (t : ℕ) : ℕ := (layout f t).length

theorem layout_succ (T : ℕ) : layout f (T + 1) = layout f T ++ f T := by
  simp [layout, List.range_succ]

theorem pieceStart_zero : pieceStart f 0 = 0 := rfl

theorem pieceStart_succ (t : ℕ) : pieceStart f (t + 1) = pieceStart f t + (f t).length := by
  simp [pieceStart, layout_succ]

theorem pieceStart_mono : Monotone (pieceStart f) :=
  monotone_nat_of_le_succ fun t => by
    rw [pieceStart_succ]
    omega

theorem layout_getElem? {T t k : ℕ} (ht : t < T) (hk : k < (f t).length) :
    (layout f T)[pieceStart f t + k]? = (f t)[k]? := by
  induction T with
  | zero => omega
  | succ T ih =>
    rw [layout_succ]
    by_cases heq : t = T
    · subst heq
      rw [List.getElem?_append_right (by simp [pieceStart])]
      simp [pieceStart]
    · have hlt : t < T := by omega
      have hend : pieceStart f t + k < (layout f T).length := by
        have h1 := pieceStart_mono f (show t + 1 ≤ T by omega)
        rw [pieceStart_succ] at h1
        show _ < pieceStart f T
        omega
      rw [List.getElem?_append_left hend, ih hlt]

theorem exists_piece {T i : ℕ} (hi : i < pieceStart f T) :
    ∃ t k, t < T ∧ k < (f t).length ∧ i = pieceStart f t + k := by
  induction T with
  | zero => simp [pieceStart_zero] at hi
  | succ T ih =>
    by_cases hlt : i < pieceStart f T
    · obtain ⟨t, k, ht, hk, he⟩ := ih hlt
      exact ⟨t, k, by omega, hk, he⟩
    · rw [pieceStart_succ] at hi
      exact ⟨T, i - pieceStart f T, by omega, by omega, by omega⟩

theorem piece_disjoint {t u k j : ℕ} (hk : k < (f t).length) (hj : j < (f u).length)
    (hne : t ≠ u) : pieceStart f t + k ≠ pieceStart f u + j := by
  have ht := pieceStart_succ f t
  have hu := pieceStart_succ f u
  rcases Nat.lt_or_gt_of_ne hne with hlt | hlt
  · have := pieceStart_mono f (show t + 1 ≤ u by omega)
    omega
  · have := pieceStart_mono f (show u + 1 ≤ t by omega)
    omega

theorem layout_perm {g : ℕ → List α} (h : ∀ j, (f j).Perm (g j)) (T : ℕ) :
    (layout f T).Perm (layout g T) := by
  induction T with
  | zero => exact List.Perm.refl _
  | succ T ih =>
    rw [layout_succ, layout_succ]
    exact ih.append (h T)

variable {f}

/-- An item put in front of one of several lists. -/
theorem flatMap_cons_perm {I : List ℕ} {f' : ℕ → List α} {i : ℕ} {x : α} (hi : i ∈ I)
    (hnd : I.Nodup) (hi' : f' i = x :: f i) (hj : ∀ j ∈ I, j ≠ i → f' j = f j) :
    (I.flatMap f').Perm (x :: I.flatMap f) := by
  induction I with
  | nil => cases hi
  | cons k I ih =>
    obtain ⟨hk, hnd⟩ := List.nodup_cons.mp hnd
    simp only [List.flatMap_cons]
    by_cases hik : k = i
    · subst hik
      have hrest : I.flatMap f' = I.flatMap f :=
        List.flatMap_congr fun j hj' =>
          hj j (List.mem_cons_of_mem _ hj') fun hjk => hk (hjk ▸ hj')
      rw [hi', hrest]
      exact List.Perm.refl _
    · have hmem : i ∈ I := (List.mem_cons.mp hi).resolve_left fun h => hik h.symm
      rw [hj k (List.mem_cons_self ..) hik]
      have hrest := ih hmem hnd fun j hj' => hj j (List.mem_cons_of_mem _ hj')
      exact (hrest.append_left (f k)).trans List.perm_middle

/-- Selections that take every item of a list exactly once lay it out anew. -/
theorem layout_filter_perm {p : ℕ → α → Bool} {T : ℕ} {xs : List α}
    (h : ∀ x ∈ xs, ∃! i, i < T ∧ p i x = true) :
    (layout (fun i => xs.filter (p i)) T).Perm xs := by
  induction xs with
  | nil => simp [layout]
  | cons x xs ih =>
    obtain ⟨i, ⟨hi, hpi⟩, honly⟩ := h x (List.mem_cons_self ..)
    have hrest := ih fun y hy => h y (List.mem_cons_of_mem _ hy)
    have hput : (layout (fun i => (x :: xs).filter (p i)) T).Perm
        (x :: layout (fun i => xs.filter (p i)) T) := by
      apply flatMap_cons_perm (List.mem_range.mpr hi) List.nodup_range
      · rw [List.filter_cons_of_pos hpi]
      · intro j hj hne
        rw [List.filter_cons_of_neg fun hpj => hne (honly j ⟨List.mem_range.mp hj, hpj⟩)]
    exact hput.trans (hrest.cons x)

end Layout

section Bounds

variable {α : Type*} [LinearOrder α] (bound : ℕ → α) (xs : List α)

/-- The items of `xs` between two consecutive bounds. -/
def bucket (j : ℕ) : List α := xs.filter fun x => decide (bound j ≤ x ∧ x < bound (j + 1))

variable {bound xs}

theorem mem_bucket {j : ℕ} {x : α} :
    x ∈ bucket bound xs j ↔ x ∈ xs ∧ bound j ≤ x ∧ x < bound (j + 1) := by
  simp [bucket]

theorem one_bucket (hmono : Monotone bound) {x : α} {T : ℕ} (h0 : bound 0 ≤ x)
    (hT : x < bound T) : ∃! i, i < T ∧ bound i ≤ x ∧ x < bound (i + 1) := by
  have hsome : ∃ i < T, bound i ≤ x ∧ x < bound (i + 1) := by
    induction T with
    | zero => exact absurd hT (not_lt.mpr h0)
    | succ T ih =>
      rcases lt_or_ge x (bound T) with hlt | hge
      · obtain ⟨i, hi, hin⟩ := ih hlt
        exact ⟨i, by omega, hin⟩
      · exact ⟨T, Nat.lt_succ_self T, hge, hT⟩
  -- a bucket further up starts above `x`
  have hbelow : ∀ {i j : ℕ}, x < bound (i + 1) → bound j ≤ x → ¬ i < j := by
    intro i j hi hj hij
    exact absurd (hi.trans_le (hmono hij)) (not_lt.mpr hj)
  obtain ⟨i, hi, hlow, hhigh⟩ := hsome
  refine ⟨i, ⟨hi, hlow, hhigh⟩, ?_⟩
  intro j hj
  have h1 := hbelow hhigh hj.2.1
  have h2 := hbelow hj.2.2 hlow
  omega

theorem layout_bucket_perm (hmono : Monotone bound) {T : ℕ}
    (hrange : ∀ x ∈ xs, bound 0 ≤ x ∧ x < bound T) : (layout (bucket bound xs) T).Perm xs := by
  apply layout_filter_perm
  intro x hx
  simp only [decide_eq_true_eq]
  exact one_bucket hmono (hrange x hx).1 (hrange x hx).2

/-- Sorted pieces, each within its bounds, lie sorted one after another. -/
theorem layout_sorted (hmono : Monotone bound) {f : ℕ → List α}
    (hsorted : ∀ j, (f j).Pairwise (· ≤ ·))
    (hbound : ∀ j, ∀ x ∈ f j, bound j ≤ x ∧ x < bound (j + 1)) (T : ℕ) :
    (layout f T).Pairwise (· ≤ ·) := by
  induction T with
  | zero => exact List.Pairwise.nil
  | succ T ih =>
    rw [layout_succ, List.pairwise_append]
    refine ⟨ih, hsorted T, ?_⟩
    intro x hx y hy
    obtain ⟨j, hj, hxj⟩ := List.mem_flatMap.mp hx
    have hjT : j + 1 ≤ T := List.mem_range.mp hj
    calc x ≤ bound (j + 1) := (hbound j x hxj).2.le
      _ ≤ bound T := hmono hjT
      _ ≤ y := (hbound T y hy).1

end Bounds

end Cs3650.Lib
