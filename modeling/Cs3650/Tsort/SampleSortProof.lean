import Cs3650.Tsort.SampleSort
import Mathlib.Data.List.GetD
import Mathlib.Data.List.Sort

/-!
# Correctness of the threaded sample sort

Every worker that has left the barrier has found all sizes recorded and the
array no longer read, so the copies fill disjoint segments of the array with
the sorted buckets. The invariant `Inv` says so for every schedule of the
workers' steps; `final_sorted` reads the result off it, and `can_finish` shows
that no schedule gets stuck.
-/

namespace Cs3650.Tsort

open Cs3650.Lib

variable {α : Type*} [LinearOrder α] {T : Nat}

/-! ### The bucket bounds -/

theorem mapM_eq_map {β γ : Type*} {f : β → Option γ} {g : β → γ} {is : List β}
    (h : ∀ i ∈ is, f i = some (g i)) : is.mapM f = some (is.map g) := by
  induction is with
  | nil => rfl
  | cons i is ih =>
    have hx := h i (List.mem_cons_self ..)
    have hxs := ih fun j hj => h j (List.mem_cons_of_mem _ hj)
    simp [List.mapM_cons, hx, hxs]

theorem getD_le_getD {q : List α} (hq : q.Pairwise (· ≤ ·)) (d : α) {i j : Nat} (hij : i ≤ j)
    (hj : j < q.length) : q.getD i d ≤ q.getD j d := by
  rw [List.getD_eq_getElem _ _ (by omega), List.getD_eq_getElem _ _ hj]
  rcases Nat.lt_or_eq_of_le hij with hlt | rfl
  · exact List.pairwise_iff_getElem.mp hq i j (by omega) hj hlt
  · exact le_rfl

/-- The bound with number `j`, and `infinity` past the last one. -/
def boundAt (medians : List α) (infinity : α) (j : Nat) : α := medians.getD j infinity

theorem boundAt_mono {medians : List α} {infinity : α} (hs : medians.Pairwise (· ≤ ·))
    (htop : ∀ x ∈ medians, x ≤ infinity) : Monotone (boundAt medians infinity) := by
  intro i j hij
  by_cases hj : j < medians.length
  · exact getD_le_getD hs infinity hij hj
  · have hlast : boundAt medians infinity j = infinity :=
      List.getD_eq_default _ _ (Nat.le_of_not_lt hj)
    rw [hlast]
    by_cases hi : i < medians.length
    · rw [boundAt, List.getD_eq_getElem _ _ hi]
      exact htop _ (List.getElem_mem hi)
    · exact (List.getD_eq_default _ _ (Nat.le_of_not_lt hi)).le

omit [LinearOrder α] in
theorem floatsGet_boundAt {medians : List α} {infinity : α} {j : Nat} (hj : j < medians.length) :
    floatsGet medians j = some (boundAt medians infinity j) := by
  rw [floatsGet, boundAt, List.getD_eq_getElem _ _ hj, List.getElem?_eq_getElem hj]

/-- `sample_sort` takes `T - 1` of the sampled items as bounds, in ascending
order, whatever the random numbers are. -/
theorem sampleMedians_picks (qsort : Qsort α) (zero infinity : α) {fs : List α} (hne : fs ≠ [])
    (T : Nat) (random : Nat → Nat) :
    ∃ picked, sampleMedians qsort zero infinity fs T random = some (zero :: picked ++ [infinity]) ∧
      picked.length = T - 1 ∧ picked.Pairwise (· ≤ ·) ∧
      ∀ x ∈ picked, ∃ i, fs[random i % fs.length]? = some x := by
  have hlt : ∀ i, random i % fs.length < fs.length :=
    fun i => Nat.mod_lt _ (List.length_pos_iff.mpr hne)
  let sampled := (List.range (3 * (T - 1))).map fun i => fs.getD (random i % fs.length) zero
  have hsampled : (List.range (3 * (T - 1))).mapM
      (fun i => floatsGet fs (random i % fs.length)) = some sampled := by
    refine mapM_eq_map fun i _ => ?_
    rw [floatsGet, List.getD_eq_getElem _ _ (hlt i), List.getElem?_eq_getElem (hlt i)]
  have hmem : ∀ x ∈ qsort.run sampled, ∃ i, fs[random i % fs.length]? = some x := by
    intro x hx
    obtain ⟨i, -, rfl⟩ := List.mem_map.mp ((qsort.perm sampled).mem_iff.mp hx)
    exact ⟨i, by rw [List.getD_eq_getElem _ _ (hlt i), List.getElem?_eq_getElem (hlt i)]⟩
  have hqlen : (qsort.run sampled).length = 3 * (T - 1) := by
    rw [(qsort.perm sampled).length_eq]
    simp [sampled]
  let picks := List.range' 1 ((3 * (T - 1) + 1) / 3) 3
  let picked := picks.map fun i => (qsort.run sampled).getD i zero
  have hin : ∀ i ∈ picks, i < (qsort.run sampled).length := by
    intro i hi
    obtain ⟨j, hj, rfl⟩ := List.mem_range'.mp hi
    omega
  have hpicked : picks.mapM (fun i => floatsGet (qsort.run sampled) i) = some picked := by
    refine mapM_eq_map fun i hi => ?_
    rw [floatsGet, List.getD_eq_getElem _ _ (hin i hi), List.getElem?_eq_getElem (hin i hi)]
  refine ⟨picked, ?_, ?_, ?_, ?_⟩
  · simp only [sampleMedians, hsampled, Option.bind_eq_bind, Option.bind_some]
    simp only [picks] at hpicked
    rw [hpicked]
    rfl
  · simp only [picked, picks, List.length_map, List.length_range']
    omega
  · rw [List.pairwise_map]
    have hpicks : picks.Pairwise (· < ·) := List.pairwise_lt_range' 3 (by omega)
    refine List.Pairwise.imp_of_mem ?_ hpicks
    intro i j _ hj hij
    exact getD_le_getD (qsort.sorted sampled) zero hij.le (hin j hj)
  · intro x hx
    obtain ⟨i, hi, rfl⟩ := List.mem_map.mp hx
    apply hmem
    rw [List.getD_eq_getElem _ _ (hin i hi)]
    exact List.getElem_mem (hin i hi)

/-- With all items from `zero` up to `infinity`, so are the `T + 1` bounds. -/
theorem sampleMedians_spec (qsort : Qsort α) {zero infinity : α} {fs : List α} (hne : fs ≠ [])
    (hrange : ∀ x ∈ fs, zero ≤ x ∧ x < infinity) (hT : 1 ≤ T) (random : Nat → Nat) :
    ∃ medians, sampleMedians qsort zero infinity fs T random = some medians ∧
      medians.length = T + 1 ∧ Monotone (boundAt medians infinity) ∧
      boundAt medians infinity 0 = zero ∧ boundAt medians infinity T = infinity := by
  obtain ⟨picked, hmedians, hpicklen, hsorted, hpicks⟩ :=
    sampleMedians_picks qsort zero infinity hne T random
  have hpickmem : ∀ x ∈ picked, x ∈ fs := by
    intro x hx
    obtain ⟨i, hi⟩ := hpicks x hx
    exact List.mem_of_getElem? hi
  have hzero : zero ≤ infinity := by
    obtain ⟨x, hx⟩ := List.exists_mem_of_ne_nil fs hne
    exact (hrange x hx).1.trans (hrange x hx).2.le
  refine ⟨zero :: picked ++ [infinity], hmedians, by simp [hpicklen]; omega, ?_, rfl, ?_⟩
  · apply boundAt_mono
    · simp only [List.cons_append, List.pairwise_cons, List.mem_append, List.mem_singleton,
        List.pairwise_append, List.not_mem_nil, false_imp_iff,
        implies_true, true_and]
      refine ⟨?_, hsorted, .nil, ?_⟩
      · rintro x (hx | rfl)
        · exact (hrange x (hpickmem x hx)).1
        · exact hzero
      · rintro x hx y rfl
        exact (hrange x (hpickmem x hx)).2.le
    · intro x hx
      simp only [List.cons_append, List.mem_cons, List.mem_append, List.not_mem_nil,
        or_false] at hx
      rcases hx with rfl | hx | rfl
      · exact hzero
      · exact (hrange x (hpickmem x hx)).2.le
      · exact le_rfl
  · have hT' : T = (zero :: picked).length := by
      simp [hpicklen]
      omega
    rw [boundAt, hT', List.getD_append_right _ _ _ _ le_rfl]
    simp

/-! ### The invariant of the workers -/

section Workers

variable (qsort : Qsort α) (bound : Nat → α) (input : List α)

/-- What worker `t` has to bring back: its sorted bucket. -/
def piece (t : Nat) : List α := qsort.run (bucket bound input t)

theorem piece_length (t : Nat) :
    (piece qsort bound input t).length = (bucket bound input t).length :=
  (qsort.perm _).length_eq

/-- The first `k` items of piece `t` are in place. -/
def Copied (data : List α) (t k : Nat) : Prop :=
  ∀ j < k, data[pieceStart (piece qsort bound input) t + j]? = (piece qsort bound input t)[j]?

/-- The local variables of worker `t` in the state `s`. -/
def JobOk (s : State α T) (t : Fin T) : Worker α → Prop
  | .start => s.bar.pc t = .enter
  | .reading start finish i range =>
    s.bar.pc t = .enter ∧ start = bound t ∧ finish = bound (t + 1) ∧ i ≤ input.length ∧
      range = bucket bound (input.take i) t
  | .sizing range => s.bar.pc t = .enter ∧ range = bucket bound input t
  | .sorting range =>
    s.bar.pc t = .enter ∧ range = bucket bound input t ∧ s.sizes t = range.length
  | .waiting range =>
    s.bar.pc t ≠ .returned ∧ range = piece qsort bound input t ∧ s.sizes t = range.length
  | .counting range i count =>
    s.bar.pc t = .returned ∧ range = piece qsort bound input t ∧ i ≤ t ∧
      count = pieceStart (piece qsort bound input) i
  | .copying range count k =>
    s.bar.pc t = .returned ∧ range = piece qsort bound input t ∧
      count = pieceStart (piece qsort bound input) t ∧ k ≤ range.length ∧
      Copied qsort bound input s.data t k
  | .finished =>
    s.bar.pc t = .returned ∧ Copied qsort bound input s.data t (piece qsort bound input t).length

structure Inv (s : State α T) : Prop where
  bar : Barrier.Inv s.bar
  len : s.data.length = input.length
  intact : (∃ t, s.bar.pc t = .enter) → s.data = input
  sized : ∀ t, s.bar.pc t ≠ .enter → s.sizes t = (piece qsort bound input t).length
  jobs : ∀ t, JobOk qsort bound input s t (s.job t)

variable {qsort bound input}

theorem initial_inv (hT : 1 ≤ T) (sizes : Fin T → Nat) :
    Inv qsort bound input (initial input sizes) where
  bar := Barrier.makeBarrier_inv hT
  len := rfl
  intact := fun _ => rfl
  sized := fun _ ht => absurd rfl ht
  jobs := fun _ => rfl

theorem all_sized {s : State α T} (h : Inv qsort bound input s) {t : Fin T}
    (ht : s.bar.pc t = .returned) (u : Fin T) :
    s.bar.pc u ≠ .enter ∧ s.sizes u = (piece qsort bound input u).length := by
  have hfull := h.bar.passed t (by simp [ht, Barrier.Pc.passed])
  have hu := Barrier.entered_of_full h.bar hfull u
  exact ⟨hu, h.sized u hu⟩

/-- What a step keeps if it only moves worker `t`. -/
theorem inv_setJob {s : State α T} (h : Inv qsort bound input s) (t : Fin T) (w : Worker α)
    (hw : JobOk qsort bound input s t w) : Inv qsort bound input (s.setJob t w) := by
  refine ⟨h.bar, h.len, h.intact, h.sized, ?_⟩
  intro u
  by_cases hu : u = t
  · subst hu
    have : (s.setJob u w).job u = w := by simp [State.setJob]
    rw [this]
    cases w <;> exact hw
  · have : (s.setJob t w).job u = s.job u := by simp [State.setJob, hu]
    rw [this]
    have hold := h.jobs u
    cases hj : s.job u <;> rw [hj] at hold <;> exact hold

theorem toInt_eq {x : Int} (h0 : 0 ≤ x) (h1 : x < 2 ^ 31) : toInt x = x := by
  rw [toInt, Int.bmod_eq_of_le_mul_two] <;> omega

omit [LinearOrder α] in
theorem floatsSize_eq {fs : List α} (h : fs.length < 2 ^ 31) : floatsSize fs = fs.length :=
  toInt_eq (by omega) (by omega)

theorem bucket_take_succ {i : Nat} {x : α} (hx : input[i]? = some x) (t : Nat) :
    bucket bound (input.take (i + 1)) t = bucket bound (input.take i) t ++
      (if bound t ≤ x ∧ x < bound (t + 1) then [x] else []) := by
  rw [List.take_add_one, hx]
  simp only [bucket, List.filter_append, Option.toList_some, List.filter_cons, List.filter_nil,
    decide_eq_true_eq]

theorem pieceStart_le (hall : (layout (piece qsort bound input) T).Perm input) {t : Nat}
    (ht : t ≤ T) : pieceStart (piece qsort bound input) t ≤ input.length := by
  rw [← hall.length_eq]
  exact pieceStart_mono _ ht

theorem inv_sizing {s : State α T} {t : Fin T} (h : Inv qsort bound input s)
    (hpc : s.bar.pc t = .enter) :
    Inv qsort bound input { s.setJob t (.sorting (bucket bound input t)) with
      sizes := Function.update s.sizes t (bucket bound input t).length } := by
  refine ⟨h.bar, h.len, h.intact, ?_, ?_⟩
  · intro u hu
    have hne : u ≠ t := by
      rintro rfl
      exact hu hpc
    simpa [State.setJob, hne] using h.sized u hu
  · intro u
    by_cases hu : u = t
    · subst hu
      simpa [State.setJob, JobOk] using hpc
    · have hold := h.jobs u
      simp only [State.setJob, ne_eq, hu, not_false_eq_true, Function.update_of_ne]
      cases hj : s.job u <;> rw [hj] at hold <;>
        simpa only [JobOk, ne_eq, hu, not_false_eq_true, Function.update_of_ne] using hold

theorem inv_waiting {s : State α T} {t : Fin T} {range : List α} {bar : Barrier.State T}
    (h : Inv qsort bound input s) (hjob : JobOk qsort bound input s t (.waiting range))
    (hbar : Barrier.step t s.bar = some bar) :
    Inv qsort bound input
      { s.setJob t (if bar.pc t = .returned then .counting range 0 0 else .waiting range) with
        bar := bar } := by
  obtain ⟨hpc, rfl, hsize⟩ := hjob
  refine ⟨Barrier.step_inv h.bar hbar, h.len, ?_, ?_, ?_⟩
  · rintro ⟨u, hu⟩
    have hne : u ≠ t := by
      rintro rfl
      exact Barrier.step_entered hbar hu
    exact h.intact ⟨u, (Barrier.step_other hbar hne).1.mp hu⟩
  · intro u hu
    by_cases hut : u = t
    · subst hut
      exact hsize
    · exact h.sized u fun hc => hu ((Barrier.step_other hbar hut).1.mpr hc)
  · intro u
    by_cases hut : u = t
    · subst hut
      simp only [State.setJob, Function.update_self]
      split
      · next hret => exact ⟨hret, rfl, Nat.zero_le _, rfl⟩
      · next hret => exact ⟨hret, rfl, hsize⟩
    · -- the others only may have been woken
      have hold := h.jobs u
      obtain ⟨henter, hret⟩ := Barrier.step_other hbar hut
      simp only [State.setJob, ne_eq, hut, not_false_eq_true, Function.update_of_ne]
      cases hj : s.job u <;> rw [hj] at hold <;>
        simpa only [JobOk, ne_eq, henter, hret] using hold

theorem copied_set {data : List α} {t u k m : Nat} {x : α}
    (hm : m ≤ (piece qsort bound input u).length)
    (hk : k < (piece qsort bound input t).length) (hne : u ≠ t)
    (h : Copied qsort bound input data u m) :
    Copied qsort bound input (data.set (pieceStart (piece qsort bound input) t + k) x) u m := by
  intro j hj
  have hpos := piece_disjoint (piece qsort bound input) hk (show j < _ by omega) (Ne.symm hne)
  rw [List.getElem?_set_ne hpos]
  exact h j hj

theorem inv_copying {s : State α T} {t : Fin T} {k : Nat} {x : α}
    (h : Inv qsort bound input s) (hpc : s.bar.pc t = .returned)
    (hcopied : Copied qsort bound input s.data t k)
    (hx : (piece qsort bound input t)[k]? = some x)
    (hin : pieceStart (piece qsort bound input) t + k < s.data.length) :
    Inv qsort bound input
      { s.setJob t (.copying (piece qsort bound input t)
          (pieceStart (piece qsort bound input) t) (k + 1)) with
        data := s.data.set (pieceStart (piece qsort bound input) t + k) x } := by
  have hk : k < (piece qsort bound input t).length := (List.getElem?_eq_some_iff.mp hx).1
  refine ⟨h.bar, by simpa using h.len, ?_, h.sized, ?_⟩
  · rintro ⟨u, hu⟩
    exact absurd hu (all_sized h hpc u).1
  · intro u
    by_cases hut : u = t
    · subst hut
      simp only [State.setJob, Function.update_self]
      refine ⟨hpc, rfl, rfl, hk, ?_⟩
      intro j hj
      by_cases hjk : j = k
      · subst hjk
        rw [List.getElem?_set_self hin, hx]
      · rw [List.getElem?_set_ne (by omega)]
        exact hcopied j (by omega)
    · have hold := h.jobs u
      have hval : (u : Nat) ≠ t := fun hc => hut (Fin.ext hc)
      simp only [State.setJob, ne_eq, hut, not_false_eq_true, Function.update_of_ne]
      cases hj : s.job u <;> rw [hj] at hold <;> try exact hold
      · obtain ⟨h1, rfl, h3, h4, h5⟩ := hold
        exact ⟨h1, rfl, h3, h4, copied_set h4 hk hval h5⟩
      · exact ⟨hold.1, copied_set le_rfl hk hval hold.2⟩

section Step

variable {medians : List α} {s s' : State α T} {t : Fin T}
  (hall : (layout (piece qsort bound input) T).Perm input)
  (hmed : ∀ j ≤ T, floatsGet medians j = some (bound j)) (hsmall : input.length < 2 ^ 31)

include hall hmed hsmall

theorem step_inv (h : Inv qsort bound input s) (hstep : step qsort medians t s = some s') :
    Inv qsort bound input s' := by
  have hjob := h.jobs t
  unfold step at hstep
  cases hj : s.job t with
  | start =>
    rw [hj] at hjob hstep
    simp only [hmed t t.isLt.le, hmed (t + 1) t.isLt, Option.bind_eq_bind, Option.bind_some,
      Option.pure_def, Option.some.injEq] at hstep
    subst hstep
    exact inv_setJob h t _ ⟨hjob, rfl, rfl, Nat.zero_le _, rfl⟩
  | reading start finish i range =>
    rw [hj] at hjob hstep
    obtain ⟨hpc, rfl, rfl, hi, rfl⟩ := hjob
    have hdata := h.intact ⟨t, hpc⟩
    simp only [hdata, floatsSize_eq hsmall, Int.ofNat_lt] at hstep
    split at hstep
    · next hlt =>
      obtain ⟨x, hx⟩ : ∃ x, input[i]? = some x := ⟨_, List.getElem?_eq_getElem hlt⟩
      simp only [floatsGet, hx, Option.bind_eq_bind, Option.bind_some, Option.pure_def,
        Option.some.injEq] at hstep
      subst hstep
      refine inv_setJob h t _ ⟨hpc, rfl, rfl, hlt, ?_⟩
      rw [bucket_take_succ hx]
      split <;> simp
    · next hge =>
      have hend : i = input.length := by omega
      cases hstep
      refine inv_setJob h t _ ⟨hpc, ?_⟩
      rw [hend, List.take_length]
  | sizing range =>
    rw [hj] at hjob hstep
    obtain ⟨hpc, rfl⟩ := hjob
    cases hstep
    exact inv_sizing h hpc
  | sorting range =>
    rw [hj] at hjob hstep
    obtain ⟨hpc, rfl, hsize⟩ := hjob
    cases hstep
    refine inv_setJob h t _ ⟨by simp [hpc], rfl, ?_⟩
    rw [hsize]
    exact (piece_length qsort bound input t).symm
  | waiting range =>
    rw [hj] at hjob hstep
    obtain ⟨bar, hbar, rfl⟩ := Option.map_eq_some_iff.mp hstep
    exact inv_waiting h hjob hbar
  | counting range i count =>
    rw [hj] at hjob hstep
    obtain ⟨hpc, rfl, hi, rfl⟩ := hjob
    dsimp only at hstep
    split at hstep
    · next hlt =>
      cases hstep
      refine inv_setJob h t _ ⟨hpc, rfl, hlt, ?_⟩
      have hsize := (all_sized h hpc ⟨i, hlt.trans t.isLt⟩).2
      have hle : pieceStart (piece qsort bound input) (i + 1) ≤ input.length :=
        pieceStart_le hall (by omega)
      rw [pieceStart_succ] at hle ⊢
      rw [hsize, toInt_eq (by omega) (by push_cast; omega)]
      push_cast
      rfl
    · next hge =>
      cases hstep
      have hit : i = t := by omega
      subst hit
      exact inv_setJob h t _ ⟨hpc, rfl, rfl, Nat.zero_le _, fun j hj => by omega⟩
  | copying range count k =>
    rw [hj] at hjob hstep
    obtain ⟨hpc, rfl, rfl, hk, hcopied⟩ := hjob
    dsimp only at hstep
    split at hstep
    · next x hx =>
      split at hstep
      · next hin =>
        cases hstep
        exact inv_copying h hpc hcopied hx (by omega)
      · cases hstep
    · next hx =>
      cases hstep
      have hend : k = (piece qsort bound input t).length := by
        have := List.getElem?_eq_none_iff.mp hx
        omega
      subst hend
      exact inv_setJob h t _ ⟨hpc, hcopied⟩
  | finished =>
    rw [hj] at hstep
    cases hstep

theorem run_inv (h : Inv qsort bound input s) {schedule : List (Fin T)}
    (hrun : run qsort medians schedule s = some s') : Inv qsort bound input s' := by
  induction schedule generalizing s with
  | nil =>
    cases hrun
    exact h
  | cons t rest ih =>
    obtain ⟨mid, hmid, hrest⟩ := Option.bind_eq_some_iff.mp hrun
    exact ih (step_inv hall hmed hsmall h hmid) hrest

end Step

/-! ### The result -/

theorem layout_piece_perm (h : (layout (bucket bound input) T).Perm input) :
    (layout (piece qsort bound input) T).Perm input :=
  (layout_perm _ (fun _ => qsort.perm _) T).trans h

theorem layout_piece_sorted (hmono : Monotone bound) :
    (layout (piece qsort bound input) T).Pairwise (· ≤ ·) :=
  layout_sorted hmono (fun _ => qsort.sorted _)
    (fun _ _ hx => (mem_bucket.mp ((qsort.perm _).mem_iff.mp hx)).2) T

theorem final_data {s : State α T} (h : Inv qsort bound input s)
    (hall : (layout (piece qsort bound input) T).Perm input) (hdone : AllFinished s) :
    s.data = layout (piece qsort bound input) T := by
  have hlen : s.data.length = (layout (piece qsort bound input) T).length := by
    rw [h.len, hall.length_eq]
  apply List.ext_getElem?
  intro i
  by_cases hi : i < s.data.length
  · have hi' : i < pieceStart (piece qsort bound input) T := by
      rw [pieceStart, ← hlen]
      exact hi
    obtain ⟨t, k, ht, hk, rfl⟩ := exists_piece _ hi'
    have hjob := h.jobs ⟨t, ht⟩
    rw [hdone ⟨t, ht⟩] at hjob
    rw [layout_getElem? _ ht hk]
    exact hjob.2 k hk
  · rw [List.getElem?_eq_none (by omega), List.getElem?_eq_none (by omega)]

theorem final_sorted {s : State α T} (h : Inv qsort bound input s) (hmono : Monotone bound)
    (hall : (layout (piece qsort bound input) T).Perm input) (hdone : AllFinished s) :
    s.data.Pairwise (· ≤ ·) ∧ s.data.Perm input := by
  rw [final_data h hall hdone]
  exact ⟨layout_piece_sorted hmono, hall⟩

/-! ### Every schedule can be completed -/

/-- Steps a worker still has to do outside the barrier, for an array of `n`
items and `T` workers. -/
def jobWork (n T : Nat) : Worker α → Nat
  | .start => 2 * n + T + 7
  | .reading _ _ i _ => (n - i) + n + T + 6
  | .sizing _ => n + T + 5
  | .sorting _ => n + T + 4
  | .waiting _ => n + T + 3
  | .counting _ i _ => (T - i) + n + 2
  | .copying _ _ k => (n - k) + 1
  | .finished => 0

def totalWork (s : State α T) : Nat :=
  (∑ t, jobWork s.data.length T (s.job t)) + Barrier.work s.bar

omit [LinearOrder α] in
theorem totalWork_lt {s s' : State α T} {t : Fin T} {w : Worker α}
    (hjob : s'.job = Function.update s.job t w) (hlen : s'.data.length = s.data.length)
    (hbar : s'.bar = s.bar)
    (h : jobWork s.data.length T w < jobWork s.data.length T (s.job t)) :
    totalWork s' < totalWork s := by
  rw [totalWork, totalWork, hlen, hbar, hjob]
  refine Nat.add_lt_add_right (Barrier.work_lt t (fun u hu => ?_) ?_) _
  · simp [hu]
  · simpa using h

section Progress

variable {medians : List α} {s : State α T}
  (hall : (layout (piece qsort bound input) T).Perm input)
  (hmed : ∀ j ≤ T, floatsGet medians j = some (bound j)) (hsmall : input.length < 2 ^ 31)

include hall hmed hsmall

theorem local_step (h : Inv qsort bound input s) (t : Fin T)
    (hwait : ∀ range, s.job t ≠ .waiting range) (hdone : s.job t ≠ .finished) :
    ∃ s', step qsort medians t s = some s' ∧ totalWork s' < totalWork s := by
  have hjob := h.jobs t
  unfold step
  cases hj : s.job t with
  | start =>
    simp only [hmed t t.isLt.le, hmed (t + 1) t.isLt]
    refine ⟨_, rfl, totalWork_lt rfl rfl rfl ?_⟩
    simp only [hj, jobWork]
    omega
  | reading start finish i range =>
    rw [hj] at hjob
    obtain ⟨hpc, rfl, rfl, hi, rfl⟩ := hjob
    have hdata := h.intact ⟨t, hpc⟩
    simp only [hdata, floatsSize_eq hsmall, Int.ofNat_lt]
    by_cases hlt : i < input.length
    · simp only [hlt, if_true, floatsGet, List.getElem?_eq_getElem]
      refine ⟨_, rfl, totalWork_lt rfl rfl rfl ?_⟩
      simp only [hj, jobWork, hdata]
      omega
    · simp only [hlt, if_false]
      refine ⟨_, rfl, totalWork_lt rfl rfl rfl ?_⟩
      simp only [hj, jobWork]
      omega
  | sizing range =>
    refine ⟨_, rfl, totalWork_lt rfl rfl rfl ?_⟩
    simp only [hj, jobWork]
    omega
  | sorting range =>
    refine ⟨_, rfl, totalWork_lt rfl rfl rfl ?_⟩
    simp only [hj, jobWork]
    omega
  | waiting range => exact absurd hj (hwait range)
  | counting range i count =>
    dsimp only
    split
    · next hlt =>
      refine ⟨_, rfl, totalWork_lt rfl rfl rfl ?_⟩
      have := t.isLt
      simp only [hj, jobWork]
      omega
    · refine ⟨_, rfl, totalWork_lt rfl rfl rfl ?_⟩
      have := t.isLt
      simp only [hj, jobWork]
      omega
  | copying range count k =>
    rw [hj] at hjob
    obtain ⟨hpc, rfl, rfl, hk, -⟩ := hjob
    have hle : pieceStart (piece qsort bound input) (t + 1) ≤ input.length :=
      pieceStart_le hall t.isLt
    rw [pieceStart_succ] at hle
    have hlen := h.len
    cases hx : (piece qsort bound input t)[k]? with
    | some x =>
      have hlt := (List.getElem?_eq_some_iff.mp hx).1
      have hin : (0 : Int) ≤ pieceStart (piece qsort bound input) t ∧
          (pieceStart (piece qsort bound input) t : Int) + k < s.data.length := by omega
      simp only [hx, hin, and_self, if_true]
      refine ⟨_, rfl, totalWork_lt rfl (by simp) rfl ?_⟩
      simp only [hj, jobWork]
      omega
    | none =>
      simp only [hx]
      refine ⟨_, rfl, totalWork_lt rfl rfl rfl ?_⟩
      simp only [hj, jobWork]
      omega
  | finished => exact absurd hj hdone

theorem exists_step (h : Inv qsort bound input s) (hnot : ¬ AllFinished s) :
    ∃ t s', step qsort medians t s = some s' ∧ totalWork s' < totalWork s := by
  by_cases hlocal : ∃ t, (∀ range, s.job t ≠ .waiting range) ∧ s.job t ≠ .finished
  · obtain ⟨t, hwait, hdone⟩ := hlocal
    exact ⟨t, local_step hall hmed hsmall h t hwait hdone⟩
  · -- all others wait: the barrier lets one of them go on
    have hrest : ∀ t, s.job t ≠ .finished → ∃ range, s.job t = .waiting range := by
      intro t ht
      by_contra hc
      exact hlocal ⟨t, fun range hr => hc ⟨range, hr⟩, ht⟩
    simp only [AllFinished, not_forall] at hnot
    obtain ⟨u, hu⟩ := hnot
    obtain ⟨range, hr⟩ := hrest u hu
    have hjob := h.jobs u
    rw [hr] at hjob
    obtain ⟨t, bar, hbar, hawake⟩ := Barrier.progress h.bar u hjob.1
    have ht : s.job t ≠ .finished := by
      intro hf
      have hjt := h.jobs t
      rw [hf] at hjt
      have hnone : Barrier.step t s.bar = none := by simp only [Barrier.step, hjt.1]
      simp [hnone] at hbar
    obtain ⟨range', hr'⟩ := hrest t ht
    refine ⟨t, _, by simp only [step, hr', hbar]; rfl, ?_⟩
    have hwork := Barrier.step_work h.bar hbar hawake
    refine Nat.add_lt_add_of_le_of_lt (Finset.sum_le_sum fun v _ => ?_) hwork
    by_cases hv : v = t
    · subst hv
      simp only [State.setJob, Function.update_self, hr']
      split <;> simp only [jobWork] <;> omega
    · simp [State.setJob, hv]

theorem can_finish (h : Inv qsort bound input s) :
    ∃ rest s', run qsort medians rest s = some s' ∧ AllFinished s' := by
  induction hn : totalWork s using Nat.strongRecOn generalizing s with
  | ind n ih =>
    subst hn
    by_cases hdone : AllFinished s
    · exact ⟨[], s, rfl, hdone⟩
    · obtain ⟨t, mid, hmid, hlt⟩ := exists_step hall hmed hsmall h hdone
      obtain ⟨rest, s', hrun, hfin⟩ :=
        ih _ hlt (step_inv hall hmed hsmall h hmid) rfl
      exact ⟨t :: rest, s', by simp only [run, hmid, Option.bind_some, hrun], hfin⟩

end Progress

end Workers

/-- The threaded sample sort: whatever the samples and the schedule are, the
workers never get stuck, and when all of them are done the array is a sorted
permutation of the input. -/
theorem sample_sort_correct (qsort : Qsort α) (zero infinity : α) (input : List α)
    (hne : 1 ≤ input.length) (hsmall : input.length < 2 ^ 31)
    (hrange : ∀ x ∈ input, zero ≤ x ∧ x < infinity) (hT : 1 ≤ T) (random : Nat → Nat)
    (sizes : Fin T → Nat) :
    ∃ medians, sampleMedians qsort zero infinity input T random = some medians ∧
      ∀ schedule s, run qsort medians schedule (initial input sizes) = some s →
        (AllFinished s → s.data.Pairwise (· ≤ ·) ∧ s.data.Perm input) ∧
        ∃ rest s', run qsort medians rest s = some s' ∧ AllFinished s' := by
  obtain ⟨medians, hmedians, hlen, hmono, hzero, hinf⟩ :=
    sampleMedians_spec qsort (List.length_pos_iff.mp hne) hrange hT random
  have hmed : ∀ j ≤ T, floatsGet medians j = some (boundAt medians infinity j) :=
    fun j hj => floatsGet_boundAt (by omega)
  have hall : (layout (piece qsort (boundAt medians infinity) input) T).Perm input := by
    apply layout_piece_perm
    apply layout_bucket_perm hmono
    rw [hzero, hinf]
    exact hrange
  refine ⟨medians, hmedians, ?_⟩
  intro schedule s hrun
  have hinv := run_inv hall hmed hsmall (initial_inv hT sizes) hrun
  exact ⟨final_sorted hinv hmono hall, can_finish hall hmed hsmall hinv⟩

def insertionQsort : Qsort Nat :=
  ⟨List.insertionSort (· ≤ ·), List.perm_insertionSort _, List.pairwise_insertionSort _⟩

theorem sample_sort_two_threads :
    ∃ medians, sampleMedians insertionQsort 0 100 [30, 10, 20] 2 id = some medians ∧
      ∀ schedule s, run insertionQsort medians schedule
          (initial [30, 10, 20] (fun _ : Fin 2 => 7)) = some s →
        (AllFinished s → s.data.Pairwise (· ≤ ·) ∧ s.data.Perm [30, 10, 20]) ∧
        ∃ rest s', run insertionQsort medians rest s = some s' ∧ AllFinished s' :=
  sample_sort_correct insertionQsort 0 100 [30, 10, 20] (by decide) (by decide) (by decide)
    (by decide) id (fun _ => 7)

end Cs3650.Tsort
