import Cs3650.Lib.Rearrange
import Mathlib.Order.Interval.Set.Basic

/-!
# Quicksort (hw03/starter-hw03/quicksort.c)

The array is the list of its longs. Every access is one to the first `n` cells;
an access elsewhere, or a loop or recursion that goes on for longer than it is
given, has no result.
-/

namespace Cs3650.Sort

open Cs3650.Lib

/-! ## quicksort.c -/

def load (n : Nat) (xs : List Int) (ii : Nat) : Option Int := if ii < n then xs[ii]? else none

def store (n : Nat) (xs : List Int) (ii : Nat) (x : Int) : Option (List Int) :=
  if ii < n ∧ ii < xs.length then some (xs.set ii x) else none

def swap (n : Nat) (xs : List Int) (ii jj : Nat) : Option (List Int) :=
  if ii ≠ jj then do
    let tmp ← load n xs ii
    let x ← load n xs jj
    let xs₁ ← store n xs ii x
    store n xs₁ jj tmp
  else some xs

/-- The loop of `partition` from `jj` on. -/
def partitionLoop (n hi : Nat) (pivot : Int) : Nat → List Int → Nat → Nat → Option (List Int × Nat)
  | 0, xs, ii, jj => if jj < hi - 1 then none else some (xs, ii)
  | turns + 1, xs, ii, jj =>
    if jj < hi - 1 then do
      let x ← load n xs jj
      if x < pivot then
        (swap n xs ii jj).bind fun xs₁ => partitionLoop n hi pivot turns xs₁ (ii + 1) (jj + 1)
      else partitionLoop n hi pivot turns xs ii (jj + 1)
    else some (xs, ii)

def partition (n : Nat) (xs : List Int) (lo hi : Nat) : Option (List Int × Nat) := do
  let pivot ← load n xs (hi - 1)
  let (xs₁, ii) ← partitionLoop n hi pivot (hi - 1 - lo) xs lo lo
  let xs₂ ← swap n xs₁ ii (hi - 1)
  return (xs₂, ii)

def quicksort (n : Nat) : Nat → List Int → Nat → Nat → Option (List Int)
  | 0, _, _, _ => none
  | depth + 1, xs, lo, hi =>
    if hi - lo < 1 then some xs
    else do
      let (xs₁, pp) ← partition n xs lo hi
      let xs₂ ← quicksort n depth xs₁ lo pp
      quicksort n depth xs₂ (pp + 1) hi

/-! ## Accesses inside -/

variable {n : Nat} {xs ys : List Int} {ii jj lo hi : Nat}

theorem load_of (hn : n ≤ xs.length) (hi : ii < n) :
    ∃ x, load n xs ii = some x ∧ xs[ii]? = some x := by
  have hx := List.getElem?_eq_getElem (show ii < xs.length by omega)
  exact ⟨_, (if_pos hi).trans hx, hx⟩

theorem swap_of (hn : n ≤ xs.length) (hi : ii < n) (hj : jj < n) :
    swap n xs ii jj = some (xs.swap ii jj) := by
  unfold swap
  by_cases hne : ii ≠ jj
  · have hi' : ii < xs.length := by omega
    have hj' : jj < xs.length := by omega
    have hjset : jj < (xs.set ii xs[jj]).length := by rwa [List.length_set]
    rw [if_pos hne, load, if_pos hi, List.getElem?_eq_getElem hi', load, if_pos hj,
      List.getElem?_eq_getElem hj', List.swap_eq_of_lt hi' hj']
    change (store n xs ii xs[jj] >>= _) = _
    rw [store, if_pos ⟨hi, hi'⟩]
    exact if_pos ⟨hj, hjset⟩
  · rw [if_neg hne, not_not.mp hne, List.swap_self]

/-! ## Partition -/

/-- Below the pivot up to `ii`, and not below it from there to `jj`. -/
structure Parted (pivot : Int) (lo ii jj : Nat) (xs : List Int) : Prop where
  below : ∀ k, lo ≤ k → k < ii → ∀ x ∈ xs[k]?, x < pivot
  above : ∀ k, ii ≤ k → k < jj → ∀ x ∈ xs[k]?, pivot ≤ x

namespace Parted

variable {pivot x : Int}

theorem init : Parted pivot lo lo lo xs := ⟨fun _ _ _ => by omega, fun _ _ _ => by omega⟩

theorem small (h : Parted pivot lo ii jj xs) (hij : ii ≤ jj) (hlen : jj < xs.length)
    (hx : xs[jj]? = some x)
    (hlt : x < pivot) : Parted pivot lo (ii + 1) (jj + 1) (xs.swap ii jj) := by
  have hlen' : ii < xs.length := by omega
  refine ⟨?_, ?_⟩
  · intro k h1 h2 y hy
    by_cases hk : k = ii
    · rw [hk, getElem?_swap_left hlen' hlen, hx] at hy
      obtain rfl := Option.some.inj hy
      exact hlt
    · rw [getElem?_swap_of_ne hk (by omega)] at hy
      exact h.below k h1 (by omega) y hy
  · intro k h1 h2 y hy
    by_cases hk : k = jj
    · rw [hk, getElem?_swap_right hlen' hlen] at hy
      exact h.above ii (Nat.le_refl _) (by omega) y hy
    · rw [getElem?_swap_of_ne (by omega) hk] at hy
      exact h.above k (by omega) (by omega) y hy

theorem large (h : Parted pivot lo ii jj xs) (hx : xs[jj]? = some x) (hge : ¬x < pivot) :
    Parted pivot lo ii (jj + 1) xs := by
  refine ⟨h.below, ?_⟩
  intro k h1 h2 y hy
  by_cases hk : k = jj
  · rw [hk, hx] at hy
    obtain rfl := Option.some.inj hy
    exact Int.not_lt.mp hge
  · exact h.above k h1 (by omega) y hy

end Parted

theorem partitionLoop_spec {pivot : Int} (turns : Nat) (hn : n ≤ xs.length) (hhi : hi ≤ n)
    (hlo : lo ≤ ii)
    (hij : ii ≤ jj) (ht : jj + turns = hi - 1) (hpos : 0 < hi) (h : Parted pivot lo ii jj xs) :
    ∃ ys pp, partitionLoop n hi pivot turns xs ii jj = some (ys, pp) ∧
      Rearranged (Set.Ico lo (hi - 1)) xs ys ∧ lo ≤ pp ∧ pp ≤ hi - 1 ∧
      Parted pivot lo pp (hi - 1) ys := by
  induction turns generalizing xs ii jj with
  | zero =>
    obtain rfl : jj = hi - 1 := by omega
    exact ⟨xs, ii, if_neg (Nat.lt_irrefl _), .refl, hlo, hij, h⟩
  | succ turns ih =>
    obtain ⟨x, hload, hx⟩ := load_of hn (show jj < n by omega)
    rw [partitionLoop, if_pos (by omega), hload]
    change ∃ ys pp, (if x < pivot then _ else _) = _ ∧ _
    by_cases hlt : x < pivot
    · rw [if_pos hlt, swap_of hn (by omega) (by omega)]
      obtain ⟨ys, pp, hloop, hre, hrest⟩ :=
        ih (by rw [List.length_swap]; exact hn) (by omega) (by omega) (by omega)
          (h.small hij (by omega) hx hlt)
      have hswap : Rearranged (Set.Ico lo (hi - 1)) xs (xs.swap ii jj) :=
        .swap ⟨hlo, by omega⟩ ⟨by omega, by omega⟩
      exact ⟨ys, pp, hloop, hswap.trans hre, hrest⟩
    · rw [if_neg hlt]
      exact ih hn hlo (by omega) (by omega) (h.large hx hlt)

theorem partition_spec (hn : n ≤ xs.length) (hhi : hi ≤ n) (hlt : lo < hi) :
    ∃ ys pp pivot, partition n xs lo hi = some (ys, pp) ∧ Rearranged (Set.Ico lo hi) xs ys ∧
    lo ≤ pp ∧ pp < hi ∧
      ys[pp]? = some pivot ∧ (∀ k ∈ Set.Ico lo pp, ∀ x ∈ ys[k]?, x ≤ pivot) ∧
      ∀ k ∈ Set.Ico (pp + 1) hi, ∀ x ∈ ys[k]?, pivot ≤ x := by
  obtain ⟨pivot, hload, hpivot⟩ := load_of hn (show hi - 1 < n by omega)
  have hstart : Parted pivot lo lo lo xs := .init
  obtain ⟨ys, pp, hloop, hre, hlo, hpp, hparted⟩ :=
    partitionLoop_spec (hi - 1 - lo) hn hhi (Nat.le_refl lo) (Nat.le_refl lo) (by omega)
      (by omega) hstart
  have hlen : ys.length = xs.length := hre.length_eq
  have hlast : ys[hi - 1]? = some pivot := by
    rw [hre.getElem?_eq (fun hk => Nat.lt_irrefl _ hk.2), hpivot]
  have hin : pp < ys.length := by omega
  have hin' : hi - 1 < ys.length := by omega
  refine ⟨ys.swap pp (hi - 1), pp, pivot, ?_, ?_, hlo, by omega, ?_, ?_, ?_⟩
  · rw [partition, hload]
    change (partitionLoop n hi pivot (hi - 1 - lo) xs lo lo >>= _) = _
    rw [hloop]
    change (swap n ys pp (hi - 1) >>= _) = _
    rw [swap_of (by omega) (by omega) (by omega)]
    rfl
  · refine (hre.mono ?_).trans (.swap ⟨hlo, by omega⟩ ⟨by omega, by omega⟩)
    exact fun k hk => ⟨hk.1, by have := hk.2; omega⟩
  · rw [getElem?_swap_left hin hin', hlast]
  · rintro k ⟨h1, h2⟩ x hx
    rw [getElem?_swap_of_ne (by omega) (by omega)] at hx
    exact Int.le_of_lt (hparted.below k h1 h2 x hx)
  · rintro k ⟨h1, h2⟩ x hx
    by_cases hk : k = hi - 1
    · rw [hk, getElem?_swap_right hin hin'] at hx
      exact hparted.above pp (Nat.le_refl _) (by omega) x hx
    · rw [getElem?_swap_of_ne (by omega) hk] at hx
      exact hparted.above k (by omega) (by omega) x hx

/-! ## The recursion -/

def Ordered (lo hi : Nat) (xs : List Int) : Prop :=
  ∀ i j, lo ≤ i → i < j → j < hi → ∀ x ∈ xs[i]?, ∀ y ∈ xs[j]?, x ≤ y

/-- Two sorted sides around a pivot. -/
theorem Ordered.join {pp : Nat} {pivot : Int} (hl : Ordered lo pp xs) (hr : Ordered (pp + 1) hi xs)
    (hp : xs[pp]? = some pivot) (hle : ∀ k ∈ Set.Ico lo pp, ∀ x ∈ xs[k]?, x ≤ pivot)
    (hge : ∀ k ∈ Set.Ico (pp + 1) hi, ∀ x ∈ xs[k]?, pivot ≤ x) : Ordered lo hi xs := by
  have hpivot : ∀ x ∈ xs[pp]?, x = pivot := by
    intro x hx
    rw [hp] at hx
    exact (Option.some.inj hx).symm
  intro i j h1 hij h2 x hx y hy
  rcases Nat.lt_trichotomy i pp with hi | rfl | hi
  · have hxp := hle i ⟨h1, hi⟩ x hx
    rcases Nat.lt_trichotomy j pp with hj | rfl | hj
    · exact hl i j h1 hij hj x hx y hy
    · rw [hpivot y hy]
      exact hxp
    · exact Int.le_trans hxp (hge j ⟨hj, h2⟩ y hy)
  · rw [hpivot x hx]
    exact hge j ⟨hij, h2⟩ y hy
  · exact hr i j hi hij h2 x hx y hy

theorem Ordered.congr (h : Ordered lo hi xs) (hsame : ∀ k, lo ≤ k → k < hi → ys[k]? = xs[k]?) :
    Ordered lo hi ys := by
  intro i j h1 hij h2 x hx y hy
  rw [hsame i h1 (by omega)] at hx
  rw [hsame j (by omega) h2] at hy
  exact h i j h1 hij h2 x hx y hy

theorem quicksort_spec (m : Nat) (hn : n ≤ xs.length) (hhi : hi ≤ n) (hm : hi - lo ≤ m) :
    ∃ ys, (∀ depth, m < depth → quicksort n depth xs lo hi = some ys) ∧
      Rearranged (Set.Ico lo hi) xs ys ∧ Ordered lo hi ys := by
  induction m generalizing xs lo hi with
  | zero =>
    refine ⟨xs, ?_, .refl, fun i j _ _ _ => by omega⟩
    intro depth hd
    obtain ⟨d, rfl⟩ : ∃ d, depth = d + 1 := ⟨depth - 1, by omega⟩
    exact if_pos (by omega)
  | succ m ih =>
    by_cases hempty : hi - lo < 1
    · refine ⟨xs, ?_, .refl, fun i j _ _ _ => by omega⟩
      intro depth hd
      obtain ⟨d, rfl⟩ : ∃ d, depth = d + 1 := ⟨depth - 1, by omega⟩
      exact if_pos hempty
    obtain ⟨ys, pp, pivot, hpart, hre, hlo, hpp, hpivot, hle, hge⟩ :=
      partition_spec hn hhi (show lo < hi by omega)
    obtain ⟨us, hleft, hreL, hordL⟩ := ih (show n ≤ ys.length by rw [hre.length_eq]; exact hn)
      (show pp ≤ n by omega) (show pp - lo ≤ m by omega)
    obtain ⟨vs, hright, hreR, hordR⟩ :=
      ih (show n ≤ us.length by rw [hreL.length_eq, hre.length_eq]; exact hn)
      hhi (show hi - (pp + 1) ≤ m by omega)
    have hsubL : Set.Ico lo pp ⊆ Set.Ico lo hi := fun k hk => ⟨hk.1, by have := hk.2; omega⟩
    have hsubR : Set.Ico (pp + 1) hi ⊆ Set.Ico lo hi := fun k hk => ⟨by have := hk.1; omega, hk.2⟩
    have hkeepL : ∀ k, k < lo ∨ pp ≤ k → us[k]? = ys[k]? := by
      intro k hk
      exact hreL.getElem?_eq fun hin => by have := hin.1; have := hin.2; omega
    have hkeepR : ∀ k, k ≤ pp → vs[k]? = us[k]? := by
      intro k hk
      exact hreR.getElem?_eq fun hin => by have := hin.1; omega
    refine ⟨vs, ?_, (hre.trans (hreL.mono hsubL)).trans (hreR.mono hsubR), ?_⟩
    · intro depth hd
      obtain ⟨d, rfl⟩ : ∃ d, depth = d + 1 := ⟨depth - 1, by omega⟩
      rw [quicksort, if_neg hempty, hpart]
      change (quicksort n d ys lo pp >>= _) = _
      rw [hleft d (by omega)]
      exact hright d (by omega)
    · have hordL' : Ordered lo pp vs := hordL.congr fun k _ hk => hkeepR k (by omega)
      have hpivot' : vs[pp]? = some pivot := by
        rw [hkeepR pp (Nat.le_refl _), hkeepL pp (Or.inr (Nat.le_refl _)), hpivot]
      refine hordL'.join hordR hpivot' ?_ ?_
      · intro k hk x hx
        rw [hkeepR k (Nat.le_of_lt hk.2)] at hx
        exact hreL.forall_mem hle k hk x hx
      · refine hreR.forall_mem ?_
        intro k hk x hx
        rw [hkeepL k (Or.inr (by have := hk.1; omega))] at hx
        exact hge k hk x hx

theorem Ordered.pairwise (h : Ordered 0 n xs) : (xs.take n).Pairwise (· ≤ ·) := by
  rw [List.pairwise_iff_getElem]
  intro i j hi hj hij
  rw [List.length_take] at hi hj
  rw [List.getElem_take, List.getElem_take]
  exact h i j (Nat.zero_le _) hij (by omega) _ (List.getElem?_eq_getElem (by omega)) _
    (List.getElem?_eq_getElem (by omega))

/-- A call on the first `n` cells ends at every depth past `n` and touches no other cell. -/
theorem quicksort_sorts (hn : n ≤ xs.length) :
    ∃ ys, (∀ depth, n < depth → quicksort n depth xs 0 n = some ys) ∧ (ys.take n).Pairwise (· ≤ ·) ∧
      (ys.take n).Perm (xs.take n) ∧ ys.drop n = xs.drop n := by
  obtain ⟨ys, hrun, hre, hord⟩ := quicksort_spec n hn (Nat.le_refl n) (Nat.le_refl (n - 0))
  have hfirst : Rearranged {k | k < n} xs ys := hre.mono fun k hk => hk.2
  exact ⟨ys, hrun, hord.pairwise, hfirst.take_perm⟩

theorem quicksort_sorts_first_three :
    ∃ ys, (∀ depth, 3 < depth → quicksort 3 depth [3, 1, 2, 0] 0 3 = some ys) ∧
      (ys.take 3).Pairwise (· ≤ ·) ∧ (ys.take 3).Perm [3, 1, 2] ∧ ys.drop 3 = [0] :=
  quicksort_sorts (show 3 ≤ ([3, 1, 2, 0] : List Int).length by decide)

example : quicksort 8 9 [80, 10, 70, 20, 50, 30, 50, 40] 0 8 =
    some [10, 20, 30, 40, 50, 50, 70, 80] := by decide

end Cs3650.Sort
