import Cs3650.Tsort.SampleSortProof

/-!
# Elements the sample sort loses

A worker keeps the elements of its half-open interval (`tsort.c:47-62`), and
the intervals reach from `0.0` to `INFINITY` (`tsort.c:109-115`). An element
below the first sentinel or at the last one is in no interval, except that an
array with one value everywhere has that value as its bounds. `floats_size`
hands out the number of elements as an `int` (`float_vec.c:50-53`).
-/

namespace Cs3650.Tsort

open Cs3650.Lib

variable {α : Type*} [LinearOrder α] {T : Nat}

/-- `in_range` (`tsort.c:47-62`). -/
def inRange (fs : List α) (start finish : α) : List α :=
  (fs.take (floatsSize fs).toNat).filter fun test => decide (start ≤ test ∧ test < finish)

section Intervals

variable (qsort : Qsort α) (infinity : α) (fs medians : List α)

/-- What worker `i` collects. -/
def collected (i : Nat) : List α :=
  inRange fs (boundAt medians infinity i) (boundAt medians infinity (i + 1))

/-- `x` is in exactly one of the intervals of `T` workers. -/
def InOneInterval (T : Nat) (x : α) : Prop :=
  ∃! i, i < T ∧ boundAt medians infinity i ≤ x ∧ x < boundAt medians infinity (i + 1)

/-- `T` workers with these bounds lose no element: the sizes that they record
in a run add up to the size of the array, and their copies, one after another,
are the whole of it. -/
structure LosesNone (T : Nat) : Prop where
  once : ∀ x ∈ fs, InOneInterval infinity medians T x
  counted : ∑ i ∈ Finset.range T, (collected infinity fs medians i).length = fs.length
  filled : ∀ (sizes : Fin T → Nat) (schedule : List (Fin T)) (s : State α T),
    run qsort medians schedule (initial fs sizes) = some s →
    (AllFinished s → (∀ t, s.sizes t = (collected infinity fs medians t).length) ∧
      s.data = layout (fun i => qsort.run (collected infinity fs medians i)) T ∧
      s.data.Perm fs) ∧
    ∃ rest s', run qsort medians rest s = some s' ∧ AllFinished s'

variable {qsort infinity fs medians}

theorem sum_collected :
    ∑ i ∈ Finset.range T, (collected infinity fs medians i).length =
      (layout (collected infinity fs medians) T).length := by
  induction T with
  | zero => rfl
  | succ T ih => rw [Finset.sum_range_succ, ih, layout_succ, List.length_append]

theorem layout_collected (honce : ∀ x ∈ fs, InOneInterval infinity medians T x) :
    (layout (collected infinity fs medians) T).Perm (fs.take (floatsSize fs).toNat) := by
  apply layout_filter_perm
  intro x hx
  simp only [decide_eq_true_eq]
  exact honce x (List.mem_of_mem_take hx)

theorem collected_eq (hsmall : fs.length < 2 ^ 31) :
    collected infinity fs medians = bucket (boundAt medians infinity) fs := by
  funext i
  rw [collected, inRange, floatsSize_eq hsmall, Int.toNat_natCast, List.take_length, bucket]

theorem LosesNone.small (h : LosesNone qsort infinity fs medians T) : fs.length < 2 ^ 31 := by
  have hcount := h.counted
  rw [sum_collected, (layout_collected h.once).length_eq, List.length_take] at hcount
  have hint : floatsSize fs < 2 ^ 31 := by
    have := @Int.bmod_lt fs.length (2 ^ 32) (by decide)
    unfold floatsSize toInt
    omega
  omega

theorem losesNone_of_once (hlen : medians.length = T + 1) (hsmall : fs.length < 2 ^ 31) (hT : 1 ≤ T)
    (honce : ∀ x ∈ fs, InOneInterval infinity medians T x) :
    LosesNone qsort infinity fs medians T := by
  have hcover := layout_collected honce
  rw [floatsSize_eq hsmall, Int.toNat_natCast, List.take_length] at hcover
  have hcollected : collected infinity fs medians = bucket (boundAt medians infinity) fs :=
    collected_eq hsmall
  have hpiece : (fun i => qsort.run (collected infinity fs medians i)) =
      piece qsort (boundAt medians infinity) fs := by
    rw [hcollected]
    rfl
  have hall : (layout (piece qsort (boundAt medians infinity) fs) T).Perm fs :=
    layout_piece_perm (hcollected ▸ hcover)
  have hmed : ∀ j ≤ T, floatsGet medians j = some (boundAt medians infinity j) :=
    fun j hj => floatsGet_boundAt (by omega)
  refine ⟨honce, ?_, ?_⟩
  · rw [sum_collected, hcover.length_eq]
  · intro sizes schedule s hrun
    have hinv := run_inv hall hmed hsmall (initial_inv hT sizes) hrun
    refine ⟨fun hdone => ?_, can_finish hall hmed hsmall hinv⟩
    have hdata := final_data hinv hall hdone
    refine ⟨fun t => ?_, hpiece ▸ hdata, hdata ▸ hall⟩
    have hjob := hinv.jobs t
    rw [hdone t] at hjob
    rw [hcollected, ← piece_length qsort]
    exact hinv.sized t (by simp [hjob.1])

end Intervals

/-! ### The bounds of one sample -/

section OneSample

variable {zero infinity y : α}

omit [LinearOrder α] in
theorem boundAt_replicate {j : Nat} (hj : 1 ≤ j) (hT : 1 ≤ T) :
    boundAt (zero :: List.replicate (T - 1) y ++ [infinity]) infinity j =
      if j < T then y else infinity := by
  obtain ⟨k, rfl⟩ := Nat.exists_eq_add_of_le' hj
  rw [boundAt, List.cons_append, List.getD_cons_succ]
  split
  · rw [List.getD_append _ _ _ _ (by simp; omega), List.getD_replicate _ (by omega)]
  · rw [List.getD_append_right _ _ _ _ (by simp; omega)]
    cases k - (List.replicate (T - 1) y).length <;> simp

/-- With one sampled value between the sentinels, all intervals but the first
and the last are empty. -/
theorem inOneInterval_replicate (hT : 2 ≤ T) {x : α} :
    InOneInterval infinity (zero :: List.replicate (T - 1) y ++ [infinity]) T x ↔
      zero ≤ x ∧ x < y ∨ y ≤ x ∧ x < infinity := by
  have hfirst : boundAt (zero :: List.replicate (T - 1) y ++ [infinity]) infinity 0 = zero := rfl
  have hbound := fun j (hj : 1 ≤ j) =>
    @boundAt_replicate α T zero infinity y j hj (by omega)
  have hin : ∀ i < T,
      (boundAt (zero :: List.replicate (T - 1) y ++ [infinity]) infinity i ≤ x ∧
        x < boundAt (zero :: List.replicate (T - 1) y ++ [infinity]) infinity (i + 1)) ↔
      (i = 0 ∧ zero ≤ x ∧ x < y) ∨ (i = T - 1 ∧ y ≤ x ∧ x < infinity) := by
    intro i hi
    rcases Nat.eq_zero_or_pos i with rfl | hpos
    · rw [hfirst, hbound 1 le_rfl, if_pos (by omega)]
      simp [show 0 ≠ T - 1 by omega]
    · have hne : i ≠ 0 := by omega
      rw [hbound i hpos, hbound (i + 1) (by omega), if_pos hi]
      rcases Nat.lt_or_ge (i + 1) T with hlt | hge
      · have hempty : ¬ (y ≤ x ∧ x < y) := fun h => absurd h.2 (not_lt.mpr h.1)
        rw [if_pos hlt]
        simp [hempty, hne, show i ≠ T - 1 by omega]
      · have hlast : i = T - 1 := by omega
        rw [if_neg (by omega), eq_true hlast, eq_false hne, false_and, false_or, true_and]
  constructor
  · intro ⟨i, ⟨hi, hx⟩, _⟩
    exact ((hin i hi).mp hx).imp And.right And.right
  · intro h
    rcases h with h | h
    · refine ⟨0, ⟨by omega, (hin 0 (by omega)).mpr (Or.inl ⟨rfl, h⟩)⟩, ?_⟩
      intro j hj
      rcases (hin j hj.1).mp hj.2 with hzero | hlast
      · exact hzero.1
      · exact absurd h.2 (not_lt.mpr hlast.2.1)
    · refine ⟨T - 1, ⟨by omega, (hin _ (by omega)).mpr (Or.inr ⟨rfl, h⟩)⟩, ?_⟩
      intro j hj
      rcases (hin j hj.1).mp hj.2 with hzero | hlast
      · exact absurd hzero.2.2 (not_lt.mpr h.1)
      · exact hlast.1

variable {fs : List α}

theorem each_sample_iff :
    (∀ y ∈ fs, ∀ x ∈ fs, zero ≤ x ∧ x < y ∨ y ≤ x ∧ x < infinity) ↔
      (∀ x ∈ fs, zero ≤ x ∧ x < infinity) ∨ ∃ y < infinity, ∀ x ∈ fs, x = y := by
  constructor
  · intro h
    have htop : ∀ x ∈ fs, x < infinity := by
      intro x hx
      rcases h x hx x hx with hin | hin
      · exact absurd hin.2 (lt_irrefl x)
      · exact hin.2
    by_cases hlow : ∀ x ∈ fs, zero ≤ x
    · exact Or.inl fun x hx => ⟨hlow x hx, htop x hx⟩
    · -- an element below `zero` is in the last interval of every sample
      push Not at hlow
      obtain ⟨y, hy, hneg⟩ := hlow
      refine Or.inr ⟨y, htop y hy, ?_⟩
      intro x hx
      apply le_antisymm
      · rcases h x hx y hy with hin | hin
        · exact absurd hneg (not_lt.mpr hin.1)
        · exact hin.1
      · rcases h y hy x hx with hin | hin
        · exact absurd (hin.2.trans hneg) (not_lt.mpr hin.1)
        · exact hin.1
  · intro h y hy x hx
    rcases h with hrange | ⟨z, hz, heq⟩
    · rcases lt_or_ge x y with hlt | hge
      · exact Or.inl ⟨(hrange x hx).1, hlt⟩
      · exact Or.inr ⟨hge, (hrange x hx).2⟩
    · rw [heq x hx, heq y hy]
      exact Or.inr ⟨le_rfl, hz⟩

end OneSample

theorem sampleMedians_constant (qsort : Qsort α) (zero infinity : α) {fs : List α} (hne : fs ≠ [])
    {y : α} {random : Nat → Nat} (hy : ∀ i, fs[random i % fs.length]? = some y) :
    sampleMedians qsort zero infinity fs T random =
      some (zero :: List.replicate (T - 1) y ++ [infinity]) := by
  obtain ⟨picked, hmedians, hlen, -, hpicks⟩ := sampleMedians_picks qsort zero infinity hne T random
  have hpicked : picked = List.replicate (T - 1) y := by
    rw [List.eq_replicate_iff]
    refine ⟨hlen, fun x hx => ?_⟩
    obtain ⟨i, hi⟩ := hpicks x hx
    exact Option.some.inj (hi.symm.trans (hy i))
  rw [hmedians, hpicked]

/-- No element is lost, whatever the samples and the schedule are, exactly if
the number of elements is an `int` and the elements are at least `0.0` and
below `INFINITY`, or several workers share an array of one value below
`INFINITY`. -/
theorem sample_sort_loses_none_iff (qsort : Qsort α) (zero infinity : α) (fs : List α)
    (hn : 1 ≤ fs.length) (T : Nat) (hT : 1 ≤ T) :
    (∀ random, ∃ medians, sampleMedians qsort zero infinity fs T random = some medians ∧
      LosesNone qsort infinity fs medians T) ↔
    fs.length < 2 ^ 31 ∧ ((∀ x ∈ fs, zero ≤ x ∧ x < infinity) ∨
      2 ≤ T ∧ ∃ y < infinity, ∀ x ∈ fs, x = y) := by
  have hne : fs ≠ [] := List.length_pos_iff.mp hn
  constructor
  · intro h
    have hsmall : fs.length < 2 ^ 31 := by
      obtain ⟨medians, -, hnone⟩ := h fun _ => 0
      exact hnone.small
    refine ⟨hsmall, ?_⟩
    rcases Nat.lt_or_ge 1 T with htwo | hone
    · refine each_sample_iff.mp ?_ |>.imp id (And.intro htwo)
      intro y hy x hx
      obtain ⟨j, hj, rfl⟩ := List.mem_iff_getElem.mp hy
      obtain ⟨medians, hmedians, hnone⟩ := h fun _ => j
      have hpick : fs[j % fs.length]? = some fs[j] := by simp [Nat.mod_eq_of_lt hj]
      rw [sampleMedians_constant _ _ _ hne fun _ => hpick, Option.some.injEq] at hmedians
      rw [← inOneInterval_replicate htwo, hmedians]
      exact hnone.once x hx
    · left
      intro x hx
      have hT1 : T = 1 := by omega
      subst hT1
      obtain ⟨medians, hmedians, hnone⟩ := h fun _ => 0
      obtain ⟨picked, hpicks, hlen, -⟩ :=
        sampleMedians_picks qsort zero infinity hne 1 fun _ => 0
      rw [hpicks, List.length_eq_zero_iff.mp hlen, Option.some.injEq] at hmedians
      obtain ⟨i, ⟨hi, hin⟩, -⟩ := hnone.once x hx
      have hi0 : i = 0 := by omega
      subst hi0 hmedians
      exact hin
  · intro ⟨hsmall, h⟩ random
    rcases h with hrange | ⟨htwo, y, hy, heq⟩
    · obtain ⟨medians, hmedians, hlen, hmono, hzero, hinf⟩ :=
        sampleMedians_spec qsort hne hrange hT random
      refine ⟨medians, hmedians, losesNone_of_once hlen hsmall hT fun x hx => ?_⟩
      apply one_bucket hmono
      · rw [hzero]
        exact (hrange x hx).1
      · rw [hinf]
        exact (hrange x hx).2
    · have hlt : ∀ i, random i % fs.length < fs.length := fun i => Nat.mod_lt _ hn
      refine ⟨_, sampleMedians_constant qsort zero infinity hne (y := y) fun i => ?_,
        losesNone_of_once (by simp; omega) hsmall hT fun x hx => ?_⟩
      · rw [List.getElem?_eq_getElem (hlt i), heq _ (List.getElem_mem (hlt i))]
      · rw [inOneInterval_replicate htwo, heq x hx]
        exact Or.inr ⟨le_rfl, hy⟩

/-- Two workers and three elements between the sentinels. -/
theorem three_elements_kept :
    ∃ medians, sampleMedians insertionQsort 0 100 [30, 10, 20] 2 id = some medians ∧
      LosesNone insertionQsort 100 [30, 10, 20] medians 2 :=
  (sample_sort_loses_none_iff insertionQsort 0 100 [30, 10, 20] (by decide) 2 (by decide)).mpr
    ⟨by decide, Or.inl (by decide)⟩ id

/-- A worker on its own leaves out a negative element. -/
theorem negative_element_lost :
    ¬ ∀ (qsort : Qsort Int) (zero infinity : Int) (fs : List Int), 1 ≤ fs.length → zero < infinity →
      (∀ x ∈ fs, x ≤ infinity) → ∀ T : Nat, 1 ≤ T → ∀ random,
      ∃ medians, sampleMedians qsort zero infinity fs T random = some medians ∧
        LosesNone qsort infinity fs medians T := by
  intro hclaim
  let qsort : Qsort Int :=
    ⟨List.insertionSort (· ≤ ·), List.perm_insertionSort _, List.pairwise_insertionSort _⟩
  obtain ⟨medians, hmedians, hnone⟩ :=
    hclaim qsort 0 100 [-1, 2] (by decide) (by decide) (by decide) 1 (by decide) fun _ => 0
  obtain ⟨picked, hpicks, hlen, -⟩ :=
    sampleMedians_picks qsort 0 100 (List.cons_ne_nil (-1) [2]) 1 fun _ => 0
  rw [hpicks, List.length_eq_zero_iff.mp hlen, Option.some.injEq] at hmedians
  obtain ⟨i, ⟨hi, hin⟩, -⟩ := hnone.once (-1) (by decide)
  have hi0 : i = 0 := by omega
  subst hi0 hmedians
  exact absurd hin.1 (by decide)

end Cs3650.Tsort
