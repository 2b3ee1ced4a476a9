import Cs3650.Tsort.SampleSortProof
import Mathlib.Algebra.Order.Floor.Semiring
import Mathlib.Data.Rat.Floor
import Mathlib.Tactic.Linarith

/-!
# The bucket plan of the process sample sort (ssort.c, float_vec.c)

`main` (`ssort.c:187-202`) cuts the range of the values into buckets that start
at the smallest value and counts them. A worker (`ssort.c:56-87`) collects the
values between two multiples of the bucket size, if the count for it is not
zero. The values are rationals; C drops the fraction where it converts one to
an integer type, and leaves the conversion undefined out of the type's range.
-/

namespace Cs3650.Ssort

open Cs3650.Tsort

def truncate (x : ℚ) : Int := if 0 ≤ x then ⌊x⌋ else ⌈x⌉

/-- Conversion to a signed integer of `w` bits. -/
def toSigned (w : Nat) (x : ℚ) : Option Int :=
  if -2 ^ (w - 1) ≤ truncate x ∧ truncate x < 2 ^ (w - 1) then some (truncate x) else none

/-- `floats_smallest` (`float_vec.c:59-71`); `none` is the read of an empty array. -/
def floatsSmallest : List ℚ → Option ℚ
  | [] => none
  | x :: xs => some ((x :: xs).foldl (fun smallest y => if y < smallest then y else smallest) x)

/-- `floats_largest` (`float_vec.c:45-57`). -/
def floatsLargest : List ℚ → Option ℚ
  | [] => none
  | x :: xs => some ((x :: xs).foldl (fun largest y => if y > largest then y else largest) x)

/-- `abs(largest - smallest) / num_proc` (`ssort.c:190`), where `abs` takes an `int`. -/
def bucketSize (fs : List ℚ) (numProc : Nat) : Option Int := do
  let smallest ← floatsSmallest fs
  let largest ← floatsLargest fs
  let difference ← toSigned 32 (largest - smallest)
  pure (|difference|.tdiv numProc)

/-- `in_range` (`ssort.c:34-49`). -/
def inRange (fs : List ℚ) (start finish : Int) : Nat :=
  (fs.take (floatsSize fs).toNat).countP fun (test : ℚ) =>
    decide (start ≤ test ∧ test < finish)

/-- The array `sizes` of `main` (`ssort.c:196-202`). -/
def bucketSizes (fs : List ℚ) (numProc : Nat) (bucket : Int) : Option (List Nat) := do
  let smallest ← floatsSmallest fs
  (List.range numProc).mapM fun (i : Nat) => do
    let start ← toSigned 64 (smallest + i * bucket)
    let finish ← toSigned 64 (smallest + (i + 1) * bucket)
    pure (inRange fs start finish)

/-- The values that `sort_worker` pushes to `samps` (`ssort.c:58-71`). -/
def samps (fs : List ℚ) (sizes : List Nat) (bucket : Int) (p : Nat) : List ℚ :=
  if 0 < sizes.getD p 0 then
    fs.filter fun fl => decide (p * bucket ≤ fl ∧ fl < (p + 1) * bucket)
  else []

/-- Every worker collects as many values as `main` has counted for it, and
every value of the array is collected by one worker. -/
def PlanHolds (fs : List ℚ) (numProc : Nat) (bucket : Int) : Prop :=
  ∃ sizes, bucketSizes fs numProc bucket = some sizes ∧
    (∀ p < numProc, (samps fs sizes bucket p).length = sizes.getD p 0) ∧
    ∀ x ∈ fs, ∃! p, p < numProc ∧ x ∈ samps fs sizes bucket p

section Bounds

variable {fs : List ℚ} {numProc : Nat} {bucket : Int}

theorem foldl_pick (better : ℚ → ℚ → Prop) [DecidableRel better] (xs : List ℚ) (x : ℚ) :
    xs.foldl (fun best y => if better y best then y else best) x ∈ x :: xs := by
  induction xs generalizing x with
  | nil => exact List.mem_cons_self ..
  | cons y xs ih =>
    rw [List.foldl_cons]
    rcases List.mem_cons.mp (ih (if better y x then y else x)) with h | h
    · rw [h]
      split
      · exact List.mem_cons_of_mem _ (List.mem_cons_self ..)
      · exact List.mem_cons_self ..
    · exact List.mem_cons_of_mem _ (List.mem_cons_of_mem _ h)

theorem floatsSmallest_mem {smallest : ℚ} (h : floatsSmallest fs = some smallest) :
    smallest ∈ fs := by
  cases fs with
  | nil => cases h
  | cons x xs =>
    rw [floatsSmallest, Option.some.injEq] at h
    have hmem := foldl_pick (· < ·) (x :: xs) x
    rw [h] at hmem
    simpa using hmem

theorem floatsLargest_mem {largest : ℚ} (h : floatsLargest fs = some largest) : largest ∈ fs := by
  cases fs with
  | nil => cases h
  | cons x xs =>
    rw [floatsLargest, Option.some.injEq] at h
    have hmem := foldl_pick (· > ·) (x :: xs) x
    rw [h] at hmem
    simpa using hmem

theorem abs_truncate_le (x : ℚ) : ((|truncate x| : Int) : ℚ) ≤ |x| := by
  rw [Int.cast_abs]
  unfold truncate
  split
  · next h =>
    have hfloor : (0 : ℚ) ≤ ⌊x⌋ := by exact_mod_cast Int.floor_nonneg.mpr h
    rw [abs_of_nonneg h, abs_of_nonneg hfloor]
    exact Int.floor_le x
  · next h =>
    have hneg : x ≤ 0 := (not_le.mp h).le
    have hceil : (⌈x⌉ : ℚ) ≤ 0 := by exact_mod_cast Int.ceil_nonpos.mpr hneg
    rw [abs_of_nonpos hneg, abs_of_nonpos hceil]
    exact neg_le_neg (Int.le_ceil x)

/-- All buckets together are no wider than the range of the values. -/
theorem buckets_le_range (h : bucketSize fs numProc = some bucket) :
    ∃ smallest ∈ fs, ∃ largest ∈ fs, floatsSmallest fs = some smallest ∧
      ((numProc * bucket : Int) : ℚ) ≤ |largest - smallest| ∧ numProc * bucket ≤ 2 ^ 31 := by
  simp only [bucketSize, Option.bind_eq_bind, Option.bind_eq_some_iff, Option.pure_def,
    Option.some.injEq] at h
  obtain ⟨smallest, hsmallest, largest, hlargest, difference, hdiff, rfl⟩ := h
  have hmul : (numProc : Int) * |difference|.tdiv numProc ≤ |difference| := by
    rw [Int.tdiv_eq_ediv_of_nonneg (abs_nonneg _)]
    rcases Nat.eq_zero_or_pos numProc with rfl | hpos
    · simp
    · exact Int.mul_ediv_self_le (by omega)
  unfold toSigned at hdiff
  split at hdiff
  · next hrange =>
    obtain rfl := Option.some.inj hdiff
    refine ⟨smallest, floatsSmallest_mem hsmallest, largest, floatsLargest_mem hlargest, hsmallest,
      ?_, ?_⟩
    · exact (Int.cast_le.mpr hmul).trans (abs_truncate_le _)
    · exact hmul.trans (abs_le.mpr ⟨by omega, by omega⟩)
  · cases hdiff

theorem mem_samps {sizes : List Nat} {p : Nat} {x : ℚ} (h : x ∈ samps fs sizes bucket p) :
    p * bucket ≤ x ∧ x < (p + 1) * bucket := by
  unfold samps at h
  split at h
  · simpa using (List.mem_filter.mp h).2
  · cases h

theorem samps_within {sizes : List Nat} {p : Nat} (hp : p < numProc) (hb : 0 < bucket) {x : ℚ}
    (h : x ∈ samps fs sizes bucket p) : 0 ≤ x ∧ x < (numProc * bucket : Int) := by
  obtain ⟨hlow, hhigh⟩ := mem_samps h
  have hb' : (0 : ℚ) < bucket := by exact_mod_cast hb
  have hp' : (p : ℚ) + 1 ≤ numProc := by exact_mod_cast hp
  constructor
  · exact le_trans (by positivity) hlow
  · push_cast
    exact hhigh.trans_le (mul_le_mul_of_nonneg_right hp' hb'.le)

theorem toSigned_offset {x : ℚ} (h0 : 0 ≤ x) (h1 : x < 1) {z : Int} (hz : 0 ≤ z)
    (hz' : z < 2 ^ 63) : toSigned 64 (x + z) = some z := by
  have hsum : (0 : ℚ) ≤ x + z := add_nonneg h0 (by exact_mod_cast hz)
  have hfloor : ⌊x⌋ = 0 := Int.floor_eq_zero_iff.mpr ⟨h0, h1⟩
  have htrunc : truncate (x + z) = z := by
    rw [truncate, if_pos hsum, Int.floor_add_intCast, hfloor, zero_add]
  rw [toSigned, htrunc, if_pos]
  constructor <;> norm_num <;> omega

theorem length_samps {sizes : List Nat} {p : Nat} (hsmall : fs.length < 2 ^ 31)
    (hsize : sizes.getD p 0 = inRange fs (p * bucket) ((p + 1) * bucket)) :
    (samps fs sizes bucket p).length = sizes.getD p 0 := by
  rw [inRange, floatsSize_eq hsmall, Int.toNat_natCast, List.take_length,
    List.countP_eq_length_filter] at hsize
  push_cast at hsize
  unfold samps
  split
  · exact hsize.symm
  · next hzero =>
    rw [List.length_nil]
    omega

/-- The two counts are the same if the smallest value is a fraction below one:
then `main` starts its buckets at the multiples of the bucket size, too. -/
theorem counts_agree (h : bucketSize fs numProc = some bucket) (hb : 0 < bucket)
    (hsmall : fs.length < 2 ^ 31) {smallest : ℚ} (hmin : floatsSmallest fs = some smallest)
    (h0 : 0 ≤ smallest) (h1 : smallest < 1) :
    ∃ sizes, bucketSizes fs numProc bucket = some sizes ∧
      ∀ p < numProc, (samps fs sizes bucket p).length = sizes.getD p 0 := by
  obtain ⟨_, -, _, -, -, -, hfits⟩ := buckets_le_range h
  have hbound : ∀ i :
      Nat, i ≤ numProc → toSigned 64 (smallest + i * bucket) = some (i * bucket) := by
    intro i hi
    have hle : (i : Int) * bucket ≤ numProc * bucket :=
      mul_le_mul_of_nonneg_right (by exact_mod_cast hi) hb.le
    have hconv := toSigned_offset h0 h1 (mul_nonneg (Int.natCast_nonneg i) hb.le) (by omega)
    push_cast at hconv
    exact hconv
  let sizes := (List.range numProc).map fun (i : Nat) => inRange fs (i * bucket) ((i + 1) * bucket)
  have hsizes : bucketSizes fs numProc bucket = some sizes := by
    rw [bucketSizes, hmin, Option.bind_eq_bind, Option.bind_some]
    refine mapM_eq_map fun i hi => ?_
    have hlt : i < numProc := List.mem_range.mp hi
    have hnext := hbound (i + 1) (by omega)
    push_cast at hnext
    simp only [hbound i hlt.le, hnext, Option.bind_eq_bind, Option.bind_some, Option.pure_def]
  refine ⟨sizes, hsizes, fun p hp => length_samps hsmall ?_⟩
  rw [List.getD_eq_getElem _ _ (by simpa [sizes] using hp)]
  simp [sizes]

end Bounds

/-- The plan holds for no array: all the buckets of the workers lie between
zero and the width of the values' range, so that the largest value or a
negative one is left out. -/
theorem plan_never_holds (fs : List ℚ) (numProc : Nat) (bucket : Int)
    (h : bucketSize fs numProc = some bucket) (hb : 0 < bucket) :
    ¬ PlanHolds fs numProc bucket := by
  intro ⟨sizes, _, _, hcollected⟩
  obtain ⟨smallest, hsmallest, largest, hlargest, -, hrange, -⟩ := buckets_le_range h
  obtain ⟨p, ⟨hp, hmem⟩, -⟩ := hcollected smallest hsmallest
  obtain ⟨q, ⟨hq, hmem'⟩, -⟩ := hcollected largest hlargest
  obtain ⟨hs0, hs⟩ := samps_within hp hb hmem
  obtain ⟨hl0, hl⟩ := samps_within hq hb hmem'
  rcases abs_cases (largest - smallest) with ⟨heq, -⟩ | ⟨heq, -⟩ <;> linarith

/-- Zero and ten in two buckets of five. -/
theorem zero_and_ten_plan : ¬ PlanHolds [0, 10] 2 5 :=
  plan_never_holds [0, 10] 2 5 (by decide +kernel) (by decide)

/-- The worker of the last bucket leaves out the ten. -/
theorem ten_not_collected :
    ¬ ∀ (fs : List ℚ) (numProc : Nat) (bucket : Int), 1 ≤ numProc →
      bucketSize fs numProc = some bucket → 0 < bucket → PlanHolds fs numProc bucket := by
  intro hclaim
  obtain ⟨sizes, -, -, hcollected⟩ :=
    hclaim [0, 10] 2 5 (by decide) (by decide +kernel) (by decide)
  obtain ⟨p, ⟨hp, hmem⟩, -⟩ := hcollected 10 (by simp)
  have hlt := (samps_within hp (by decide) hmem).2
  norm_num at hlt

end Cs3650.Ssort
