import Mathlib.Data.List.Basic
import Mathlib.Tactic.Common

/-!
# Extents

A file as a list that can be cut or filled up, overwritten at an offset and read
in slices. `extent n f` is the list of the first `n` values of `f`. Records of one
length lie in such a list one behind the other.
-/

namespace Cs3650.Lib

variable {α : Type*} (zero : α)

def extent (n : ℕ) (f : ℕ → α) : List α := (List.range n).map f

/-- Cut or filled up with `zero`. -/
def resizeTo (c : List α) (len : ℕ) : List α := c.take len ++ List.replicate (len - c.length) zero

def overwrite (c buf : List α) (offset : ℕ) : List α :=
  let filled := resizeTo zero c (max c.length (offset + buf.length))
  filled.take offset ++ buf ++ filled.drop (offset + buf.length)

/-- At most `n` values from `offset` on. -/
def slice (c : List α) (offset n : ℕ) : List α := (c.drop offset).take n

variable {f g : ℕ → α} {n : ℕ}

@[simp] theorem length_extent : (extent n f).length = n := by simp [extent]

@[simp] theorem length_resizeTo (c : List α) (len : ℕ) : (resizeTo zero c len).length = len := by
  simp only [resizeTo, List.length_append, List.length_take, List.length_replicate]
  omega

@[simp] theorem length_overwrite (c buf : List α) (offset : ℕ) :
    (overwrite zero c buf offset).length = max c.length (offset + buf.length) := by
  simp only [overwrite, List.length_append, List.length_take, List.length_drop, length_resizeTo]
  omega

@[simp] theorem length_slice (c : List α) (offset k : ℕ) :
    (slice c offset k).length = min k (c.length - offset) := by
  simp [slice]

theorem extent_congr (h : ∀ k < n, g k = f k) : extent n g = extent n f :=
  List.map_congr_left fun k hk => h k (List.mem_range.mp hk)

theorem extent_add (a b : ℕ) : extent (a + b) f = extent a f ++ extent b fun k => f (a + k) := by
  simp [extent, List.range_add, Function.comp_def]

theorem extent_const (h : ∀ k < n, f k = zero) : extent n f = List.replicate n zero := by
  rw [extent_congr h, extent, List.map_const', List.length_range]

theorem extent_list (buf : List α) (h : ∀ k < buf.length, g k = buf.getD k zero) :
    extent buf.length g = buf := by
  rw [extent_congr h]
  apply List.ext_getElem length_extent
  intro k _ hk
  simp [extent, List.getElem?_eq_getElem hk]

theorem slice_extent (offset k : ℕ) :
    slice (extent n f) offset k = extent (min k (n - offset)) fun j => f (offset + j) := by
  apply List.ext_getElem
  · simp
  · intro j _ _
    simp [slice, extent]

theorem take_extent {k : ℕ} (hk : k ≤ n) : (extent n f).take k = extent k f := by
  have h := slice_extent (f := f) (n := n) 0 k
  rw [Nat.sub_zero, Nat.min_eq_left hk] at h
  simpa [slice] using h

theorem resizeTo_extent {len : ℕ} (hkept : ∀ k < min n len, g k = f k)
    (hblank : ∀ k, n ≤ k → k < len → g k = zero) :
    resizeTo zero (extent n f) len = extent len g := by
  unfold resizeTo
  rw [length_extent]
  by_cases h : len ≤ n
  · rw [Nat.sub_eq_zero_of_le h, List.replicate_zero, List.append_nil, take_extent h]
    exact (extent_congr fun k hk => hkept k (by omega)).symm
  · obtain ⟨more, rfl⟩ := Nat.exists_eq_add_of_le (Nat.le_of_not_le h)
    rw [Nat.add_sub_cancel_left, List.take_of_length_le (by simp), extent_add]
    congr 1
    · exact (extent_congr fun k hk => hkept k (by omega)).symm
    · exact (extent_const zero fun k hk => hblank _ (by omega) (by omega)).symm

/-- A write that reaches the end. -/
theorem overwrite_extent {buf : List α} {offset : ℕ} (hend : n ≤ offset + buf.length)
    (hkept : ∀ k < min n offset, g k = f k) (hblank : ∀ k, n ≤ k → k < offset → g k = zero)
    (hcopied : ∀ k < buf.length, g (offset + k) = buf.getD k zero) :
    overwrite zero (extent n f) buf offset = extent (offset + buf.length) g := by
  have hfilled :
      ((resizeTo zero (extent n f) (offset + buf.length)).take offset) = extent offset g := by
    rw [← resizeTo_extent zero hkept hblank]
    unfold resizeTo
    rw [length_extent, List.take_append, List.take_take, List.take_replicate, List.length_take,
      length_extent]
    congr 2 <;> omega
  unfold overwrite
  dsimp only
  rw [length_extent, Nat.max_eq_right hend, hfilled, List.drop_eq_nil_of_le (by simp),
    List.append_nil, extent_add, extent_list zero buf hcopied]

/-- A list put over the values from an offset on, or past the end. -/
theorem extent_splice {buf : List α} {offset m : ℕ} (hoff : offset ≤ n)
    (hm : m = max n (offset + buf.length))
    (hg : ∀ k < m, g k = if offset ≤ k ∧ k < offset + buf.length
      then buf.getD (k - offset) zero else f k) :
    extent m g = (extent n f).take offset ++ buf ++ (extent n f).drop (offset + buf.length) := by
  apply List.ext_getElem
  · simp only [length_extent, List.length_append, List.length_take, List.length_drop]
    omega
  · intro k hlen _
    have hk : k < m := by rwa [length_extent] at hlen
    have hval : (extent m g)[k] = g k := by simp [extent]
    rw [hval, hg k hk]
    by_cases hin : offset ≤ k ∧ k < offset + buf.length
    · have hlt : k - offset < buf.length := by omega
      rw [if_pos hin, List.getD_eq_getElem?_getD, List.getElem?_eq_getElem hlt, Option.getD_some]
      rw [List.getElem_append_left (by simp; omega), List.getElem_append_right (by simp; omega)]
      congr 1
      simp only [List.length_take, length_extent]
      omega
    · rw [if_neg hin]
      by_cases hbefore : k < offset
      · rw [List.getElem_append_left (by simp; omega), List.getElem_append_left (by simp; omega)]
        simp [extent]
      · rw [List.getElem_append_right (by simp; omega)]
        simp only [List.getElem_drop, extent, List.getElem_map, List.getElem_range]
        congr 1
        simp only [List.length_append, List.length_take, List.length_map, List.length_range]
        omega

section Records

variable {β : Type*} {bytes : β → List α} {w k : ℕ} {rs : List β} {r : β}

/-- Records of `w` values each, one behind the other. -/
theorem length_records (hw : ∀ r ∈ rs, (bytes r).length = w) :
    (rs.flatMap bytes).length = w * rs.length := by
  induction rs with
  | nil => rfl
  | cons r rs ih =>
    have htail := ih fun r' hr => hw r' (List.mem_cons_of_mem r hr)
    rw [List.flatMap_cons, List.length_append, hw r List.mem_cons_self, htail, List.length_cons,
      Nat.mul_succ, Nat.add_comm]

theorem length_take_records (hw : ∀ r ∈ rs, (bytes r).length = w) (hk : k ≤ rs.length) :
    ((rs.take k).flatMap bytes).length = w * k := by
  rw [length_records fun r hr => hw r (List.mem_of_mem_take hr), List.length_take,
    Nat.min_eq_left hk]

theorem take_records (hw : ∀ r ∈ rs, (bytes r).length = w) (hk : k ≤ rs.length) :
    (rs.flatMap bytes).take (w * k) = (rs.take k).flatMap bytes := by
  conv_lhs => rw [← List.take_append_drop k rs, List.flatMap_append]
  exact List.take_left' (length_take_records hw hk)

theorem drop_records (hw : ∀ r ∈ rs, (bytes r).length = w) (hk : k ≤ rs.length) :
    (rs.flatMap bytes).drop (w * k) = (rs.drop k).flatMap bytes := by
  conv_lhs => rw [← List.take_append_drop k rs, List.flatMap_append]
  exact List.drop_left' (length_take_records hw hk)

theorem slice_records (hw : ∀ r ∈ rs, (bytes r).length = w) (hk : k < rs.length) :
    slice (rs.flatMap bytes) (w * k) w = bytes rs[k] := by
  rw [slice, drop_records hw (Nat.le_of_lt hk), List.drop_eq_getElem_cons hk, List.flatMap_cons]
  exact List.take_left' (hw _ (List.getElem_mem hk))

theorem set_records (hw : ∀ r ∈ rs, (bytes r).length = w) (hk : k < rs.length) :
    (rs.set k r).flatMap bytes = (rs.flatMap bytes).take (w * k) ++ bytes r ++
      (rs.flatMap bytes).drop (w * k + w) := by
  rw [← Nat.mul_succ, take_records hw (Nat.le_of_lt hk), drop_records hw (Nat.succ_le_of_lt hk),
    List.set_eq_take_append_cons_drop, if_pos hk, List.flatMap_append, List.flatMap_cons,
    List.append_assoc]

end Records
end Cs3650.Lib
