import Mathlib.Algebra.BigOperators.Group.Finset.Basic
import Mathlib.Algebra.Order.BigOperators.Group.Finset
import Mathlib.Data.Fintype.Card
import Mathlib.Data.Fin.Basic
import Mathlib.Tactic.Common

/-!
# The thread barrier (barrier.h / barrier.c)

`barrier_wait` (`barrier.c:29-45`) as atomic steps of the threads that call it:
the increment of `seen` under `seen_lock`, the lock of `wall`, the test of the
`while` loop, `pthread_cond_wait` (which releases `wall` and sleeps in one
step), a wake-up, the re-acquisition of `wall`, the broadcast and the unlock.
The counter is guarded by another mutex than the condition variable.
-/

namespace Cs3650.Tsort.Barrier

/-- Where a thread is in `barrier_wait`. -/
inductive Pc where
  | enter
  | lockWall
  | test
  | asleep
  | woken
  | broadcast
  | unlock
  | returned
  deriving DecidableEq, Repr

structure State (N : Nat) where
  seen : Nat
  wall : Option (Fin N)
  pc : Fin N → Pc

/-- `make_barrier(nn)`, before any thread has called `barrier_wait`. -/
def makeBarrier (N : Nat) : State N := ⟨0, none, fun _ => .enter⟩

/-- Every thread that sleeps on the condition variable is woken. -/
def wakeAll {N : Nat} (pc : Fin N → Pc) : Fin N → Pc :=
  fun t => if pc t = .asleep then .woken else pc t

/-- The next step of thread `t`; `none` while it is blocked on `wall` or has
returned. For a sleeping thread the step is a spurious wake-up. -/
def step {N : Nat} (t : Fin N) (s : State N) : Option (State N) :=
  match s.pc t with
  | .enter => some { s with seen := s.seen + 1, pc := Function.update s.pc t .lockWall }
  | .lockWall =>
    if s.wall = none then some { s with wall := some t, pc := Function.update s.pc t .test }
    else none
  | .test =>
    if s.seen < N then some { s with wall := none, pc := Function.update s.pc t .asleep }
    else some { s with pc := Function.update s.pc t .broadcast }
  | .asleep => some { s with pc := Function.update s.pc t .woken }
  | .woken =>
    if s.wall = none then some { s with wall := some t, pc := Function.update s.pc t .test }
    else none
  | .broadcast =>
    if N ≤ s.seen then some { s with pc := Function.update (wakeAll s.pc) t .unlock }
    else some { s with pc := Function.update s.pc t .unlock }
  | .unlock => some { s with wall := none, pc := Function.update s.pc t .returned }
  | .returned => none

variable {N : Nat} {s s' : State N} {t : Fin N}

theorem step_cases (h : step t s = some s') :
    (s.pc t = .enter ∧
      s' = { s with seen := s.seen + 1, pc := Function.update s.pc t .lockWall }) ∨
    ((s.pc t = .lockWall ∨ s.pc t = .woken) ∧ s.wall = none ∧
      s' = { s with wall := some t, pc := Function.update s.pc t .test }) ∨
    (s.pc t = .test ∧ s.seen < N ∧
      s' = { s with wall := none, pc := Function.update s.pc t .asleep }) ∨
    (s.pc t = .test ∧ N ≤ s.seen ∧ s' = { s with pc := Function.update s.pc t .broadcast }) ∨
    (s.pc t = .asleep ∧ s' = { s with pc := Function.update s.pc t .woken }) ∨
    (s.pc t = .broadcast ∧ N ≤ s.seen ∧
      s' = { s with pc := Function.update (wakeAll s.pc) t .unlock }) ∨
    (s.pc t = .broadcast ∧ s.seen < N ∧ s' = { s with pc := Function.update s.pc t .unlock }) ∨
    (s.pc t = .unlock ∧ s' = { s with wall := none, pc := Function.update s.pc t .returned }) := by
  unfold step at h
  cases hp : s.pc t <;> simp only [hp] at h
  · exact .inl ⟨rfl, (Option.some.inj h).symm⟩
  · split at h
    · next hw => exact .inr (.inl ⟨.inl rfl, hw, (Option.some.inj h).symm⟩)
    · cases h
  · split at h
    · next hs => exact .inr (.inr (.inl ⟨rfl, hs, (Option.some.inj h).symm⟩))
    · next hs => exact .inr (.inr (.inr (.inl ⟨rfl, by omega, (Option.some.inj h).symm⟩)))
  · exact .inr (.inr (.inr (.inr (.inl ⟨rfl, (Option.some.inj h).symm⟩))))
  · split at h
    · next hw => exact .inr (.inl ⟨.inr rfl, hw, (Option.some.inj h).symm⟩)
    · cases h
  · split at h
    · next hs =>
      exact .inr (.inr (.inr (.inr (.inr (.inl ⟨rfl, hs, (Option.some.inj h).symm⟩)))))
    · next hs =>
      exact .inr (.inr (.inr (.inr (.inr (.inr (.inl
        ⟨rfl, by omega, (Option.some.inj h).symm⟩))))))
  · exact .inr (.inr (.inr (.inr (.inr (.inr (.inr ⟨rfl, (Option.some.inj h).symm⟩))))))
  · cases h

/-- What a step of `t` leaves alone: who has entered and who has returned,
among the others. -/
theorem step_other (h : step t s = some s') {u : Fin N} (hu : u ≠ t) :
    (s'.pc u = .enter ↔ s.pc u = .enter) ∧ (s'.pc u = .returned ↔ s.pc u = .returned) := by
  rcases step_cases h with ⟨-, rfl⟩ | ⟨-, -, rfl⟩ | ⟨-, -, rfl⟩ | ⟨-, -, rfl⟩ | ⟨-, rfl⟩ |
    ⟨-, -, rfl⟩ | ⟨-, -, rfl⟩ | ⟨-, rfl⟩ <;>
    simp only [ne_eq, hu, not_false_eq_true, Function.update_of_ne, and_self]
  simp only [wakeAll]
  split
  · next hs => simp [hs]
  · exact ⟨Iff.rfl, Iff.rfl⟩

theorem step_entered (h : step t s = some s') : s'.pc t ≠ .enter := by
  rcases step_cases h with ⟨-, rfl⟩ | ⟨-, -, rfl⟩ | ⟨-, -, rfl⟩ | ⟨-, -, rfl⟩ | ⟨-, rfl⟩ |
    ⟨-, -, rfl⟩ | ⟨-, -, rfl⟩ | ⟨-, rfl⟩ <;> simp

/-! ### Reachable states -/

/-- The program counters at which a thread holds `wall`. -/
def Pc.holds : Pc → Prop
  | .test | .broadcast | .unlock => True
  | _ => False

/-- The program counters past the `while` loop. -/
def Pc.passed : Pc → Prop
  | .broadcast | .unlock | .returned => True
  | _ => False

/-- The program counters past the broadcast. -/
def Pc.announced : Pc → Prop
  | .unlock | .returned => True
  | _ => False

structure Inv (s : State N) : Prop where
  seen_eq : s.seen = (Finset.univ.filter fun t => s.pc t ≠ .enter).card
  holder : ∀ t, s.wall = some t ↔ (s.pc t).holds
  passed : ∀ t, (s.pc t).passed → N ≤ s.seen
  awake : N ≤ s.seen → ∃ t, s.pc t ≠ .asleep
  announced : ∀ t, (s.pc t).announced → ∀ u, s.pc u ≠ .asleep

theorem makeBarrier_inv (hN : 1 ≤ N) : Inv (makeBarrier N) where
  seen_eq := by simp [makeBarrier]
  holder := by simp [makeBarrier, Pc.holds]
  passed := by simp [makeBarrier, Pc.passed]
  awake := fun _ => ⟨⟨0, hN⟩, by simp [makeBarrier]⟩
  announced := by simp [makeBarrier, Pc.announced]

theorem entered_update (pc : Fin N → Pc) (t : Fin N) (p : Pc) (hp : p ≠ .enter)
    (ht : pc t ≠ .enter) :
    (Finset.univ.filter fun u => Function.update pc t p u ≠ .enter) =
      Finset.univ.filter fun u => pc u ≠ .enter := by
  ext u
  by_cases hu : u = t
  · subst hu
    simp [hp, ht]
  · simp [Function.update_of_ne hu]

theorem entered_wakeAll (pc : Fin N → Pc) :
    (Finset.univ.filter fun u => wakeAll pc u ≠ .enter) =
      Finset.univ.filter fun u => pc u ≠ .enter := by
  ext u
  rw [Finset.mem_filter, Finset.mem_filter, wakeAll]
  by_cases hu : pc u = .asleep <;> simp [hu]

theorem entered_of_full (h : Inv s) (hfull : N ≤ s.seen) (t : Fin N) : s.pc t ≠ .enter := by
  rw [h.seen_eq] at hfull
  have hall : (Finset.univ.filter fun u => s.pc u ≠ .enter) = Finset.univ :=
    Finset.eq_univ_of_card _ (le_antisymm (Finset.card_le_univ _) (by simpa using hfull))
  have hmem : t ∈ Finset.univ.filter fun u => s.pc u ≠ .enter := by
    rw [hall]
    exact Finset.mem_univ t
  exact (Finset.mem_filter.mp hmem).2

theorem entered_enter (h : Inv s) (ht : s.pc t = .enter) :
    s.seen + 1 =
    (Finset.univ.filter fun u => Function.update s.pc t .lockWall u ≠ .enter).card := by
  have hins : (Finset.univ.filter fun u => Function.update s.pc t .lockWall u ≠ .enter) =
      insert t (Finset.univ.filter fun u => s.pc u ≠ .enter) := by
    ext u
    by_cases hu : u = t
    · subst hu
      simp
    · simp [hu]
  rw [hins, Finset.card_insert_of_notMem (by simp [ht]), h.seen_eq]

theorem inv_enter (h : Inv s) (hp : s.pc t = .enter) :
    Inv { s with seen := s.seen + 1, pc := Function.update s.pc t .lockWall } := by
  have hft := h.holder t
  refine ⟨entered_enter h hp, ?_, ?_, fun _ => ⟨t, by simp⟩, ?_⟩
  · intro u
    by_cases hu : u = t
    · subst hu
      simpa [hp, Pc.holds] using hft
    · simpa [Function.update_of_ne hu] using h.holder u
  · intro u hpu
    by_cases hu : u = t
    · subst hu
      simp [Pc.passed] at hpu
    · have := h.passed u (by simpa [Function.update_of_ne hu] using hpu)
      show N ≤ s.seen + 1
      omega
  · intro u hpu v
    have hne : u ≠ t := by
      rintro rfl
      simp [Pc.announced] at hpu
    have hv := h.announced u (by simpa [Function.update_of_ne hne] using hpu) v
    by_cases hvt : v = t
    · subst hvt
      simp
    · simpa [Function.update_of_ne hvt] using hv

/-- A move of one thread past the increment: it falls asleep only if the
counter is not full, and leaves the loop only if it is. -/
theorem inv_move (h : Inv s) (p : Pc) (wall' : Option (Fin N)) (ht : s.pc t ≠ .enter)
    (hp : p ≠ .enter) (hw : ∀ u, wall' = some u ↔ (Function.update s.pc t p u).holds)
    (hpass : p.passed → N ≤ s.seen) (hsleep : p = .asleep → s.seen < N)
    (hann : p.announced → ∀ u, s.pc u ≠ .asleep) :
    Inv { s with wall := wall', pc := Function.update s.pc t p } := by
  refine ⟨?_, hw, ?_, ?_, ?_⟩
  · show s.seen = _
    rw [entered_update s.pc t p hp ht, h.seen_eq]
  · intro u hpu
    by_cases hu : u = t
    · subst hu
      exact hpass (by simpa using hpu)
    · exact h.passed u (by simpa [Function.update_of_ne hu] using hpu)
  · intro hfull
    refine ⟨t, ?_⟩
    simp only [Function.update_self]
    intro hs
    have hlt := hsleep hs
    have hge : N ≤ s.seen := hfull
    omega
  · intro u hpu v
    have hold : ∀ v, s.pc v ≠ .asleep := by
      by_cases hu : u = t
      · subst hu
        exact hann (by simpa using hpu)
      · exact h.announced u (by simpa [Function.update_of_ne hu] using hpu)
    have hfull : N ≤ s.seen := by
      by_cases hu : u = t
      · subst hu
        simp only [Function.update_self] at hpu
        exact hpass (by cases p <;> simp_all [Pc.announced, Pc.passed])
      · simp only [ne_eq, hu, not_false_eq_true, Function.update_of_ne] at hpu
        exact h.passed u (by cases hq : s.pc u <;> simp_all [Pc.announced, Pc.passed])
    by_cases hvt : v = t
    · subst hvt
      simp only [Function.update_self]
      intro hs
      have := hsleep hs
      omega
    · simpa [Function.update_of_ne hvt] using hold v

theorem inv_wakeAll (h : Inv s) : Inv { s with pc := wakeAll s.pc } := by
  have hclass : ∀ u, ((wakeAll s.pc u).holds ↔ (s.pc u).holds) ∧
      ((wakeAll s.pc u).passed ↔ (s.pc u).passed) ∧ wakeAll s.pc u ≠ .asleep := by
    intro u
    simp only [wakeAll]
    split
    · next hu => simp [hu, Pc.holds, Pc.passed]
    · next hu => exact ⟨Iff.rfl, Iff.rfl, hu⟩
  refine ⟨?_, ?_, ?_, ?_, ?_⟩
  · show s.seen = _
    rw [entered_wakeAll, h.seen_eq]
  · intro u
    exact (h.holder u).trans (hclass u).1.symm
  · intro u hpu
    exact h.passed u ((hclass u).2.1.mp hpu)
  · intro hfull
    obtain ⟨u, -⟩ := h.awake hfull
    exact ⟨u, (hclass u).2.2⟩
  · intro u _ v
    exact (hclass v).2.2

theorem holds_update (h : Inv s) (p : Pc) (wall' : Option (Fin N))
    (hself : wall' = some t ↔ p.holds)
    (hother : ∀ u, u ≠ t → (wall' = some u ↔ s.wall = some u)) :
    ∀ u, wall' = some u ↔ (Function.update s.pc t p u).holds := by
  intro u
  by_cases hu : u = t
  · subst hu
    simpa using hself
  · simpa [Function.update_of_ne hu] using (hother u hu).trans (h.holder u)

theorem step_inv (h : Inv s) (hstep : step t s = some s') : Inv s' := by
  have hft := h.holder t
  rcases step_cases hstep with ⟨hp, rfl⟩ | ⟨hp, hw, rfl⟩ | ⟨hp, hs, rfl⟩ | ⟨hp, hs, rfl⟩ |
    ⟨hp, rfl⟩ | ⟨hp, hs, rfl⟩ | ⟨hp, hs, rfl⟩ | ⟨hp, rfl⟩
  · exact inv_enter h hp
  · have hne : s.pc t ≠ .enter := by rcases hp with hp | hp <;> simp [hp]
    exact inv_move h .test _ hne (by simp)
      (holds_update h _ _ (by simp [Pc.holds]) (fun u hu => by simp [hw, Ne.symm hu]))
      (by simp [Pc.passed]) (by simp) (by simp [Pc.announced])
  · have hwall : s.wall = some t := hft.mpr (by simp [hp, Pc.holds])
    exact inv_move h .asleep _ (by simp [hp]) (by simp)
      (holds_update h _ _ (by simp [Pc.holds]) (fun u hu => by simp [hwall, Ne.symm hu]))
      (by simp [Pc.passed]) (fun _ => hs) (by simp [Pc.announced])
  · have hwall : s.wall = some t := hft.mpr (by simp [hp, Pc.holds])
    exact inv_move h .broadcast s.wall (by simp [hp]) (by simp)
      (holds_update h _ _ (by simp [hwall, Pc.holds]) (fun u _ => Iff.rfl))
      (fun _ => hs) (by simp) (by simp [Pc.announced])
  · have hwall : ¬ s.wall = some t := fun hc => by simpa [hp, Pc.holds] using hft.mp hc
    exact inv_move h .woken s.wall (by simp [hp]) (by simp)
      (holds_update h _ _ (by simp [hwall, Pc.holds]) (fun u _ => Iff.rfl))
      (by simp [Pc.passed]) (by simp) (by simp [Pc.announced])
  · have hwall : s.wall = some t := hft.mpr (by simp [hp, Pc.holds])
    have hpw : wakeAll s.pc t = .broadcast := by simp [wakeAll, hp]
    exact inv_move (inv_wakeAll h) .unlock s.wall (by simp [hpw]) (by simp)
      (holds_update (inv_wakeAll h) _ _ (by simp [hwall, Pc.holds]) (fun u _ => Iff.rfl))
      (fun _ => hs) (by simp) (fun _ u => by
        simp only [wakeAll]
        split
        · simp
        · next hu => exact hu)
  · have hfull := h.passed t (by simp [hp, Pc.passed])
    omega
  · have hwall : s.wall = some t := hft.mpr (by simp [hp, Pc.holds])
    exact inv_move h .returned _ (by simp [hp]) (by simp)
      (holds_update h _ _ (by simp [Pc.holds]) (fun u hu => by simp [hwall, Ne.symm hu]))
      (fun _ => h.passed t (by simp [hp, Pc.passed])) (by simp)
      (fun _ => h.announced t (by simp [hp, Pc.announced]))

/-! ### No lost wake-up -/

/-- Steps a thread still has to do, spurious wake-ups apart. A sleeper of a
full barrier has been left behind its broadcast. -/
def rank (full : Bool) : Pc → Nat
  | .enter => 12
  | .lockWall => if full then 6 else 9
  | .woken => if full then 6 else 9
  | .test => if full then 5 else 8
  | .asleep => 7
  | .broadcast => 4
  | .unlock => 3
  | .returned => 0

def work (s : State N) : Nat := ∑ t, rank (decide (N ≤ s.seen)) (s.pc t)

theorem rank_full_le (full : Bool) (p : Pc) : rank true p ≤ rank full p := by
  cases full <;> cases p <;> decide

theorem work_lt {f g : Fin N → Nat} (t : Fin N) (hle : ∀ u, u ≠ t → g u ≤ f u) (hlt : g t < f t) :
    ∑ u, g u < ∑ u, f u := by
  refine Finset.sum_lt_sum ?_ ⟨t, Finset.mem_univ t, hlt⟩
  intro u _
  by_cases hu : u = t
  · subst hu
    exact hlt.le
  · exact hle u hu

theorem step_work (h : Inv s) (hstep : step t s = some s') (ht : s.pc t ≠ .asleep) :
    work s' < work s := by
  rcases step_cases hstep with ⟨hp, rfl⟩ | ⟨hp, hw, rfl⟩ | ⟨hp, hs, rfl⟩ | ⟨hp, hs, rfl⟩ |
    ⟨hp, rfl⟩ | ⟨hp, hs, rfl⟩ | ⟨hp, hs, rfl⟩ | ⟨hp, rfl⟩
  · -- the increment may fill the counter, which lowers the ranks of the others
    refine work_lt t (fun u hu => ?_) ?_
    · simp only [ne_eq, hu, not_false_eq_true, Function.update_of_ne]
      by_cases hfull : N ≤ s.seen + 1
      · simpa [hfull] using rank_full_le _ (s.pc u)
      · have hold : ¬ N ≤ s.seen := by omega
        simp [hfull, hold]
    · simp only [Function.update_self, hp, rank]
      split <;> omega
  · refine work_lt t (fun u hu => by simp [hu]) ?_
    rcases hp with hp | hp <;> simp only [Function.update_self, hp, rank] <;> split <;> omega
  · refine work_lt t (fun u hu => by simp [hu]) ?_
    have hnot : decide (N ≤ s.seen) = false := by simpa using hs
    simp only [Function.update_self, hp, rank, hnot]
    decide
  · refine work_lt t (fun u hu => by simp [hu]) ?_
    simp only [Function.update_self, hp, rank]
    split <;> omega
  · exact absurd hp ht
  · refine work_lt t (fun u hu => ?_) ?_
    · simp only [ne_eq, hu, not_false_eq_true, Function.update_of_ne, wakeAll]
      split
      · next hu' => simp [hu', hs, rank]
      · exact le_rfl
    · simp only [Function.update_self, hp, rank]
      omega
  · have hfull := h.passed t (by simp [hp, Pc.passed])
    omega
  · refine work_lt t (fun u hu => by simp [hu]) ?_
    simp only [Function.update_self, hp, rank]
    omega

theorem seen_of_entered (h : Inv s) (hall : ∀ u, s.pc u ≠ .enter) : s.seen = N := by
  rw [h.seen_eq, Finset.filter_true_of_mem (fun u _ => hall u)]
  simp

/-- As long as some thread has not returned, some thread can take a step that
is no spurious wake-up. -/
theorem progress (h : Inv s) (u : Fin N) (hu : s.pc u ≠ .returned) :
    ∃ t s', step t s = some s' ∧ s.pc t ≠ .asleep := by
  cases hw : s.wall with
  | some t =>
    have hholds := (h.holder t).mp hw
    cases hp : s.pc t <;> simp only [hp, Pc.holds] at hholds
    · by_cases hs : s.seen < N
      · exact ⟨t, _, by simp only [step, hp, hs, if_true]; rfl, by simp [hp]⟩
      · exact ⟨t, _, by simp only [step, hp, hs, if_false]; rfl, by simp [hp]⟩
    · have hs := h.passed t (by simp [hp, Pc.passed])
      exact ⟨t, _, by simp only [step, hp, hs, if_true]; rfl, by simp [hp]⟩
    · exact ⟨t, _, by simp only [step, hp]; rfl, by simp [hp]⟩
  | none =>
    have hnone : ∀ t, ¬ (s.pc t).holds := fun t hc => by
      simp [(h.holder t).mpr hc] at hw
    by_cases henter : ∃ t, s.pc t = .enter
    · obtain ⟨t, hp⟩ := henter
      exact ⟨t, _, by simp only [step, hp]; rfl, by simp [hp]⟩
    · by_cases hlock : ∃ t, s.pc t = .lockWall ∨ s.pc t = .woken
      · obtain ⟨t, hp | hp⟩ := hlock
        · exact ⟨t, _, by simp only [step, hp, hw, if_true]; rfl, by simp [hp]⟩
        · exact ⟨t, _, by simp only [step, hp, hw, if_true]; rfl, by simp [hp]⟩
      · -- everyone sleeps or has returned: the broadcast would have woken `u`
        exfalso
        simp only [not_exists, not_or] at henter hlock
        have hrest : ∀ t, s.pc t = .asleep ∨ s.pc t = .returned := by
          intro t
          have h1 := henter t
          have h2 := hlock t
          have h3 := hnone t
          cases hp : s.pc t <;> simp_all [Pc.holds]
        obtain ⟨v, hv⟩ := h.awake (seen_of_entered h henter).ge
        have hvr : s.pc v = .returned := (hrest v).resolve_left hv
        have hno := h.announced v (by simp [hvr, Pc.announced]) u
        exact (hrest u).elim hno hu

/-! ### Every interleaving -/

/-- The steps of the threads in the given order; `none` if one of them cannot
be taken. -/
def runThreads {N : Nat} : State N → List (Fin N) → Option (State N)
  | s, [] => some s
  | s, t :: ts => (step t s).bind fun s' => runThreads s' ts

/-- Asleep on the condition variable, or waiting for `wall`. The other mutex
is never held between two steps. -/
def Blocked (s : State N) (t : Fin N) : Prop :=
  s.pc t = .asleep ∨ (s.pc t = .lockWall ∨ s.pc t = .woken) ∧ s.wall ≠ none

theorem runThreads_inv (ts : List (Fin N)) (h : Inv s) (hrun : runThreads s ts = some s') :
    Inv s' := by
  induction ts generalizing s with
  | nil =>
    obtain rfl : s = s' := Option.some.inj hrun
    exact h
  | cons t ts ih =>
    obtain ⟨mid, hstep, hrest⟩ := Option.bind_eq_some_iff.mp hrun
    exact ih (step_inv h hstep) hrest

/-- In every state of every interleaving a thread that has returned has seen all
of them arrive, and where a thread is blocked some thread can move. -/
theorem every_interleaving_safe (hN : 1 ≤ N) (ts : List (Fin N))
    (hrun : runThreads (makeBarrier N) ts = some s) :
    (∀ t, s.pc t = .returned → s.seen = N ∧ ∀ u, s.pc u ≠ .enter) ∧
      ∀ t, Blocked s t → ∃ u s', step u s = some s' ∧ s.pc u ≠ .asleep := by
  have h := runThreads_inv ts (makeBarrier_inv hN) hrun
  refine ⟨fun t ht => ?_, fun t hblocked => ?_⟩
  · have hfull := h.passed t (by simp [ht, Pc.passed])
    have hall := entered_of_full h hfull
    exact ⟨seen_of_entered h hall, hall⟩
  · have hinside : s.pc t ≠ .returned := by
      rcases hblocked with hp | ⟨hp | hp, -⟩ <;> simp [hp]
    exact progress h t hinside

/-- The first thread falls asleep before the second arrives. -/
def sleeperRun : Option (State 2) := runThreads (makeBarrier 2) [0, 0, 0, 1, 1, 1, 1]

theorem sleeper_safe : (∀ t, (sleeperRun.get (by decide)).pc t = .returned →
      (sleeperRun.get (by decide)).seen = 2 ∧ ∀ u, (sleeperRun.get (by decide)).pc u ≠ .enter) ∧
    ∀ t, Blocked (sleeperRun.get (by decide)) t →
      ∃ u s', step u (sleeperRun.get (by decide)) = some s' ∧
      (sleeperRun.get (by decide)).pc u ≠ .asleep :=
  every_interleaving_safe (by decide) [0, 0, 0, 1, 1, 1, 1] (Option.some_get _).symm

end Cs3650.Tsort.Barrier
