import Mathlib.Data.List.Perm.Basic

/-!
# Sorting by swaps of neighbours

An index goes forward over neighbours in order and back over the others, which
are swapped. What lies before the index is ordered; entries with equal keys are
never swapped and keep their order, and every swap undoes one inversion.
-/

namespace Cs3650.Lib

variable {α : Type} (key : α → Nat)

def inversions : List α → Nat
  | [] => 0
  | x :: xs => xs.countP (fun y => decide (key y < key x)) + inversions xs

theorem swap_neighbours (pre post : List α) (a b : α) :
    (pre ++ a :: b :: post).swap (pre.length + 1) pre.length = pre ++ b :: a :: post := by
  induction pre with
  | nil => rfl
  | cons x pre ih =>
    rw [List.cons_append, List.length_cons, List.swap_cons, ih]
    rfl

theorem inversions_swap (pre post : List α) {a b : α} (h : key b < key a) :
    inversions key (pre ++ a :: b :: post) = inversions key (pre ++ b :: a :: post) + 1 := by
  induction pre with
  | nil =>
    simp only [List.nil_append, inversions, List.countP_cons, h, decide_true, if_true,
      show ¬key a < key b by omega, decide_false, Bool.false_eq_true, if_false]
    omega
  | cons x pre ih =>
    have hcount : (pre ++ a :: b :: post).countP (fun y => decide (key y < key x)) =
        (pre ++ b :: a :: post).countP fun y => decide (key y < key x) :=
      ((List.Perm.swap b a post).append_left pre).countP_eq _
    simp only [List.cons_append, inversions, hcount, ih]
    omega

theorem filter_swap (pre post : List α) {a b : α} {k : Nat} (h : key b < key a) :
    (pre ++ b :: a :: post).filter (fun x => key x == k) =
      (pre ++ a :: b :: post).filter fun x => key x == k := by
  simp only [List.filter_append, List.filter_cons]
  by_cases ha : key a = k
  · have hb : (key b == k) = false := by simp; omega
    rw [hb]
    rfl
  · have ha' : (key a == k) = false := by simpa using ha
    rw [ha']
    rfl

/-- `xs` comes from `xs₀`, equal keys in their order, and is ordered before the index. -/
structure Sorting (xs₀ xs : List α) (ii : Nat) : Prop where
  perm : xs.Perm xs₀
  stable : ∀ k, xs.filter (fun x => key x == k) = xs₀.filter fun x => key x == k
  ordered : (xs.take ii).Pairwise fun x y => key x ≤ key y

theorem split_neighbours {xs : List α} {i : Nat} {a b : α} (ha : xs[i]? = some a)
    (hb : xs[i + 1]? = some b) :
    xs = xs.take i ++ a :: b :: xs.drop (i + 2) ∧ (xs.take i).length = i := by
  obtain ⟨hi, rfl⟩ := List.getElem?_eq_some_iff.mp ha
  obtain ⟨hi', rfl⟩ := List.getElem?_eq_some_iff.mp hb
  refine ⟨?_, List.length_take_of_le (by omega)⟩
  rw [← List.drop_eq_getElem_cons hi', ← List.drop_eq_getElem_cons hi, List.take_append_drop]

namespace Sorting

variable {key} {xs₀ xs : List α} {ii : Nat}

theorem init (xs : List α) : Sorting key xs xs 0 := ⟨.refl _, fun _ => rfl, List.Pairwise.nil⟩

theorem first (h : Sorting key xs₀ xs 0) : Sorting key xs₀ xs 1 :=
  ⟨h.perm, h.stable, by cases xs <;> simp⟩

theorem forward (h : Sorting key xs₀ xs (ii + 1)) {a b : α} (ha : xs[ii]? = some a)
    (hb : xs[ii + 1]? = some b) (hle : key a ≤ key b) : Sorting key xs₀ xs (ii + 2) := by
  refine ⟨h.perm, h.stable, ?_⟩
  have hord := h.ordered
  have htake : xs.take (ii + 1) = xs.take ii ++ [a] := by rw [List.take_add_one, ha]; rfl
  rw [List.take_add_one, hb]
  rw [htake] at hord ⊢
  rw [Option.toList_some, List.pairwise_append]
  refine ⟨hord, List.pairwise_singleton .., ?_⟩
  intro x hx y hy
  obtain rfl := List.mem_singleton.mp hy
  rcases List.mem_append.mp hx with hx | hx
  · exact Nat.le_trans ((List.pairwise_append.mp hord).2.2 x hx a (List.mem_singleton_self a)) hle
  · obtain rfl := List.mem_singleton.mp hx
    exact hle

theorem back (h : Sorting key xs₀ xs (ii + 1)) {a b : α} (ha : xs[ii]? = some a)
    (hb : xs[ii + 1]? = some b) (hlt : key b < key a) :
    Sorting key xs₀ (xs.swap (ii + 1) ii) ii ∧
      inversions key xs = inversions key (xs.swap (ii + 1) ii) + 1 := by
  obtain ⟨hsplit, hlen⟩ := split_neighbours ha hb
  have hswap : xs.swap (ii + 1) ii = xs.take ii ++ b :: a :: xs.drop (ii + 2) := by
    conv_lhs => rw [hsplit]
    have := swap_neighbours (xs.take ii) (xs.drop (ii + 2)) a b
    rwa [hlen] at this
  have hfilter : ∀ k, (xs.swap (ii + 1) ii).filter (fun x => key x == k) = xs.filter fun x =>
      key x == k := by
    intro k
    rw [hswap, filter_swap key _ _ hlt, ← hsplit]
  refine ⟨⟨(List.swap_perm ..).trans h.perm, fun k => (hfilter k).trans (h.stable k), ?_⟩, ?_⟩
  · rw [hswap, List.take_left' hlen]
    have := h.ordered
    rw [List.take_add_one] at this
    exact (List.pairwise_append.mp this).1
  · rw [hswap, ← inversions_swap key _ _ hlt, ← hsplit]

theorem done (h : Sorting key xs₀ xs ii) (hend : xs.length ≤ ii) : xs.Pairwise fun x y =>
    key x ≤ key y := by
  rw [← List.take_of_length_le hend]
  exact h.ordered

end Sorting

end Cs3650.Lib
