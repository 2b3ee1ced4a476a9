import Cs3650.Lib.FirstFit
import Mathlib.Data.List.Sort

/-!
# Free regions as the maximal runs of a set of addresses

A list of regions in address order, no two of which touch, is determined by the
set of addresses it covers: its regions are the maximal runs of that set. What
the first-fit policy does to the list is therefore what it does to the set.
-/

namespace Cs3650.Lib

open FirstFit

def Region.Has (r : Region) (x : Nat) : Prop := r.base ≤ x ∧ x < r.stop

/-- Some region of the list has the address. -/
def Covered (L : List Region) (x : Nat) : Prop := ∃ r ∈ L, r.Has x

/-- A run of addresses in `F` that can be extended on neither side. -/
structure MaximalRun (F : Nat → Prop) (r : Region) : Prop where
  pos : 0 < r.len
  inside : ∀ x, r.Has x → F x
  before : ∀ x, x + 1 = r.base → ¬ F x
  behind : ¬ F r.stop

/-- The maximal runs of `F`, in address order. -/
def RunsOf (F : Nat → Prop) (L : List Region) : Prop :=
  L.Pairwise (fun r s => r.base < s.base) ∧ ∀ r, r ∈ L ↔ MaximalRun F r

theorem RunsOf.unique {F : Nat → Prop} {L L' : List Region} (h : RunsOf F L) (h' : RunsOf F L') :
    L = L' := by
  have hirrefl : Std.Irrefl fun r s : Region => r.base < s.base := ⟨fun r => Nat.lt_irrefl r.base⟩
  have hasymm : Std.Antisymm fun r s : Region => r.base < s.base :=
    ⟨fun r s hrs hsr => absurd hrs (Nat.lt_asymm hsr)⟩
  exact h.1.eq_of_mem_iff h'.1 fun r => (h.2 r).trans (h'.2 r).symm

theorem RunsOf.congr {F G : Nat → Prop} {L : List Region} (h : RunsOf F L) (hFG : ∀ x, F x ↔ G x) :
    RunsOf G L := by
  have heq : F = G := funext fun x => propext (hFG x)
  rwa [← heq]

theorem has_base {r : Region} (h : 0 < r.len) : r.Has r.base := by
  unfold Region.Has Region.stop
  omega

/-- A run inside a separated list lies in one of its regions. -/
theorem run_in_region {L : List Region} (hL : Separated L) {r a : Region} (ha : a ∈ L)
    (hstart : a.Has r.base) (hin : ∀ x, r.Has x → Covered L x) :
    r.stop ≤ a.stop := by
  apply Nat.le_of_not_lt
  intro hlt
  have hout : r.Has a.stop := ⟨by unfold Region.Has at hstart; omega, hlt⟩
  obtain ⟨b, hb, hbstop⟩ := hin _ hout
  obtain ⟨as, bs, rfl⟩ := List.append_of_mem ha
  obtain ⟨-, hcons, hbefore⟩ := List.pairwise_append.mp hL
  obtain ⟨hafter, -⟩ := List.pairwise_cons.mp hcons
  unfold Region.Has at *
  rcases List.mem_append.mp hb with hb | hb
  · have h := hbefore b hb a List.mem_cons_self
    omega
  · rcases List.mem_cons.mp hb with rfl | hb
    · omega
    · have h := hafter b hb
      omega

/-- Behind a region of a separated list there is an uncovered address. -/
theorem not_covered_stop {L : List Region} (hL : Separated L) {a : Region} (ha : a ∈ L) :
    ¬ Covered L a.stop := by
  rintro ⟨b, hb, hbstop⟩
  obtain ⟨as, bs, rfl⟩ := List.append_of_mem ha
  obtain ⟨-, hcons, hbefore⟩ := List.pairwise_append.mp hL
  obtain ⟨hafter, -⟩ := List.pairwise_cons.mp hcons
  unfold Region.Has Region.stop at *
  rcases List.mem_append.mp hb with hb | hb
  · have h := hbefore b hb a List.mem_cons_self
    omega
  · rcases List.mem_cons.mp hb with rfl | hb
    · omega
    · have h := hafter b hb
      omega

theorem not_covered_before {L : List Region} (hL : Separated L) {a : Region} (ha : a ∈ L)
    (hpos : ∀ r ∈ L, 0 < r.len) {x : Nat} (hx : x + 1 = a.base) : ¬ Covered L x := by
  rintro ⟨b, hb, hbx⟩
  obtain ⟨as, bs, rfl⟩ := List.append_of_mem ha
  obtain ⟨-, hcons, hbefore⟩ := List.pairwise_append.mp hL
  obtain ⟨hafter, -⟩ := List.pairwise_cons.mp hcons
  have hblen := hpos b hb
  have halen := hpos a (by simp)
  unfold Region.Has Region.stop at *
  rcases List.mem_append.mp hb with hb | hb
  · have h := hbefore b hb a List.mem_cons_self
    omega
  · rcases List.mem_cons.mp hb with rfl | hb
    · omega
    · have h := hafter b hb
      omega

/-- A separated list is the list of the maximal runs of what it covers. -/
theorem runsOf_covered {L : List Region} (hL : Separated L) (hpos : ∀ r ∈ L, 0 < r.len) :
    RunsOf (Covered L) L := by
  constructor
  · refine hL.imp fun hrs => ?_
    unfold Region.stop at hrs
    omega
  · intro r
    constructor
    · intro hr
      exact ⟨hpos r hr, fun x hx => ⟨r, hr, hx⟩, fun x hx => not_covered_before hL hr hpos hx,
        not_covered_stop hL hr⟩
    · rintro ⟨hrpos, hin, hbefore, hbehind⟩
      -- the region that has the start of the run is the run
      obtain ⟨a, ha, hstart⟩ := hin r.base (has_base hrpos)
      have hstop := run_in_region hL ha hstart hin
      have hbase : a.base = r.base := by
        apply Nat.le_antisymm hstart.1
        apply Nat.le_of_not_lt
        intro hlt
        apply hbefore (r.base - 1) (by omega)
        refine ⟨a, ha, ?_⟩
        unfold Region.Has at *
        omega
      have hend : a.stop = r.stop := by
        apply Nat.le_antisymm _ hstop
        apply Nat.le_of_not_lt
        intro hlt
        apply hbehind
        refine ⟨a, ha, ?_⟩
        unfold Region.Has at *
        unfold Region.stop at *
        omega
      have heq : a = r := by
        obtain ⟨abase, alen⟩ := a
        obtain ⟨rbase, rlen⟩ := r
        unfold Region.stop at hend
        dsimp only at hbase hend
        simp only [Region.mk.injEq]
        omega
      exact heq ▸ ha

/-! ## What the policy does to the set -/

theorem covered_cons {r : Region} {L : List Region} {x : Nat} :
    Covered (r :: L) x ↔ r.Has x ∨ Covered L x := by
  unfold Covered
  simp

theorem covered_append {L M : List Region} {x : Nat} :
    Covered (L ++ M) x ↔ Covered L x ∨ Covered M x := by
  unfold Covered
  simp [or_and_right, exists_or]

theorem has_join {r s : Region} (h : r.stop = s.base) {x : Nat} :
    Region.Has ⟨r.base, r.len + s.len⟩ x ↔ r.Has x ∨ s.Has x := by
  unfold Region.Has Region.stop at *
  dsimp only
  omega

theorem covered_glue {r : Region} {L : List Region} {x : Nat} :
    Covered (glue r L) x ↔ r.Has x ∨ Covered L x := by
  cases L with
  | nil => simp [glue, covered_cons]
  | cons s L =>
    rw [glue]
    split
    · rename_i htouch
      rw [covered_cons, covered_cons, has_join htouch, or_assoc]
    · rw [covered_cons]

theorem covered_release {c : Region} {L : List Region} {x : Nat} :
    Covered (release c L) x ↔ c.Has x ∨ Covered L x := by
  induction L with
  | nil => rw [release, covered_cons]
  | cons a L ih =>
    rw [release]
    split
    · exact covered_glue
    · rw [covered_glue, ih, covered_cons]
      exact or_left_comm

theorem covered_carve {slack size : Nat} {L L' : List Region} {k : Region}
    (h : carve slack size L = some (k, L')) {x : Nat} :
    Covered L x ↔ k.Has x ∨ Covered L' x := by
  obtain ⟨as, r, bs, rfl, -, hsize, hcase⟩ := carve_cases h
  rcases hcase with ⟨-, rfl, rfl⟩ | ⟨-, rfl, rfl⟩
  · have hr : r.Has x ↔
        Region.Has ⟨r.base, size⟩ x ∨ Region.Has ⟨r.base + size, r.len - size⟩ x := by
      unfold Region.Has Region.stop
      dsimp only
      omega
    simp only [covered_append, covered_cons, hr]
    tauto
  · simp only [covered_append, covered_cons]
    tauto

end Cs3650.Lib
