import Cs3650.Xv6.ProcFamily
import Mathlib.Data.Fintype.Basic
import Mathlib.Data.Finset.Max
import Mathlib.Order.Fin.Basic

/-!
# Processes in `wait`

Nobody sleeps in `wait` beside a child that has exited, no child that has exited is
left without a parent that will find it, and the processes never all wait for each
other.
-/

namespace Cs3650.Xv6.Procs

open Cs3650.Lib

variable {C : Type} {s s' : State C} {p q np r : ProcId} {c : C} {es evs : List (Event C)}

/-- `p` sleeps in `wait`. -/
def Asleep (s : State C) (p : ProcId) : Prop := (s.proc p).state = .SLEEPING ∧ s.pc p = .wait

instance : Decidable (Asleep s p) := inferInstanceAs (Decidable (_ ∧ _))

structure Waits (s : State C) : Prop where
  killed : ∀ p, Asleep s p → (s.proc p).killed = false
  child : ∀ p, Asleep s p → ∃ q, (s.proc q).parent = some p
  zombie : ∀ p q, Asleep s p → (s.proc q).parent = some p → (s.proc q).state ≠ .ZOMBIE

/-- Who sleeps in `wait` slept there before, and for it nothing has changed. -/
theorem Waits.keep (h : Waits s) (hasleep : ∀ p, Asleep s' p → Asleep s p)
    (hkilled : ∀ p, Asleep s' p → (s'.proc p).killed = (s.proc p).killed)
    (hparent : ∀ p q, Asleep s' p → ((s'.proc q).parent = some p ↔ (s.proc q).parent = some p))
    (hzombie : ∀ p q, Asleep s' p → (s.proc q).parent = some p → (s'.proc q).state = .ZOMBIE →
      (s.proc q).state = .ZOMBIE) :
    Waits s' where
  killed p hp := (hkilled p hp).trans (h.killed p (hasleep p hp))
  child p hp := by
    obtain ⟨q, hq⟩ := h.child p (hasleep p hp)
    exact ⟨q, (hparent p q hp).mpr hq⟩
  zombie p q hp hq hz :=
    h.zombie p q (hasleep p hp) ((hparent p q hp).mp hq)
      (hzombie p q hp ((hparent p q hp).mp hq) hz)

theorem Waits.woken (h : Waits s) (chan : Option Chan) : Waits (wakeup1 s chan) := by
  have hstate : ∀ r, ((s.proc r).woken chan).state = (s.proc r).state ∨
      (s.proc r).state = .SLEEPING ∧ ((s.proc r).woken chan).state = .RUNNABLE :=
      fun r => (s.proc r).woken_state chan
  apply h.keep <;> intro r
  · have hr := hstate r
    simp only [Asleep, wakeup1]
    grind
  · simp [wakeup1]
  · simp [wakeup1]
  · simp [wakeup1]

variable [DecidableEq C]

/-- The exit of `p`: its parent was woken, and so was the first process if it gets a zombie. -/
theorem Waits.exit (h : Waits s) (hs : Sane s) (hcpu : s.cpu c = some p) (hp : p ≠ initproc) :
    Waits (exit s c p) := by
  have hstate := fun r => (woke_gone s p r).state
  have hchan {r} (hr : Asleep s r) : (s.proc r).chan = some (.proc r) := by
    have hplace := hs.placed.place r
    simpa [Place, hr.1, hr.2] using hplace
  have hbefore {r} (hr : (gone s p r).state = .SLEEPING ∧ s.pc r = .wait) : Asleep s r := by
    have hgone := hstate r
    simpa [Asleep, hr.1, hr.2, eq_comm] using hgone
  have hself : (s.proc p).parent ≠ some p := by
    intro hparent
    obtain ⟨q, hq, -, hlt⟩ := hs.tree.child p (.inl (hs.placed.live hcpu)) hp
    have hpq : p = q := Option.some.inj (hparent.symm.trans hq)
    exact absurd (hpq ▸ hlt) (lt_irrefl _)
  have hwait {r} : Asleep (Procs.exit s c p) r ↔ r ≠ p ∧ (gone s p r).state = .SLEEPING ∧
      s.pc r = .wait := by
    rw [exit_eq hp]
    simp only [Asleep, State.sched, State.setProc, Function.update_apply]
    grind
  have hproc {r} (hr : r ≠ p) : (Procs.exit s c p).proc r = gone s p r := by
    rw [exit_eq hp]
    simp [State.sched, State.setProc, hr]
  have hlast : ((Procs.exit s c p).proc p).parent = (gone s p p).parent := by
    rw [exit_eq hp]
    simp [State.sched, State.setProc]
  constructor
  · intro r hr
    obtain ⟨hne, hr⟩ := hwait.mp hr
    rw [hproc hne, (woke_gone s p r).killed]
    exact h.killed r (hbefore hr)
  · intro r hr
    obtain ⟨hne, hr⟩ := hwait.mp hr
    obtain ⟨q, hq⟩ := h.child r (hbefore hr)
    have hstill : (gone s p q).parent = some r := by
      rw [gone_parent, hq, if_neg (by simpa using hne)]
    by_cases hqp : q = p
    · rw [hqp] at hstill
      exact ⟨p, hlast.trans hstill⟩
    · exact ⟨q, by rw [hproc hqp]; exact hstill⟩
  · intro r q hr hq hz
    obtain ⟨hne, hr⟩ := hwait.mp hr
    obtain ⟨hparent, hleft⟩ := gone_asleep hr.1 (hchan (hbefore hr))
    by_cases hqp : q = p
    · rw [hqp, hlast, gone_parent, if_neg hself] at hq
      exact hparent hq
    · rw [hproc hqp] at hq hz
      have hzombie : (s.proc q).state = .ZOMBIE := by
        have hgone := hstate q
        simpa [hz, eq_comm] using hgone
      rw [gone_parent] at hq
      split at hq
      · next hchild => exact hleft (Option.some.inj hq).symm q hchild hzombie
      · exact h.zombie r q (hbefore hr) hq hzombie

theorem Move.waits (hm : Move s s' es) (hs : Sane s) (h : Waits s) : Waits s' := by
  have hrun {c p} (hcpu : s.cpu c = some p) : (s.proc p).state = .RUNNING :=
    hs.placed.running c p hcpu
  cases hm with
  | pass => exact ⟨h.killed, h.child, h.zombie⟩
  | full | noKill => exact h
  | pick c p hcpu hscan hstate =>
    apply h.keep <;> intro r <;>
      simp only [Asleep, State.picked, State.setProc, Function.update_apply] <;> grind
  | yield c p hcpu =>
    have hp := hrun hcpu
    apply h.keep <;> intro r <;>
      simp only [Asleep, State.sched, State.setProc, Function.update_apply] <;> grind
  | sleep c p n hcpu hpc =>
    have hp := hrun hcpu
    apply h.keep <;> intro r <;>
      simp only [Asleep, Procs.sleep, State.sched, State.setProc, Function.update_apply] <;> grind
  | wakeup n => exact h.woken _
  | alloc c p np hcpu hpc hfree =>
    have hp := hrun hcpu
    apply h.keep <;> intro r <;>
      simp only [Asleep, allocproc, State.goto, State.setProc, Function.update_apply] <;> grind
  | stack c p np hcpu hpc =>
    have hp := hrun hcpu
    have hnp : (s.proc np).state = .EMBRYO := embryo_state hs.tree (by rw [hpc]; rfl)
    apply h.keep <;> intro r <;>
      simp only [Asleep, State.goto, State.setProc, Function.update_apply] <;> grind
  | copy c p np hcpu hpc =>
    have hp := hrun hcpu
    have hmaking : (s.pc p).making = some (np, false) := by rw [hpc]; rfl
    have hnp : (s.proc np).state = .EMBRYO := embryo_state hs.tree hmaking
    have hnone : (s.proc np).parent = none := (hs.tree.making p np false hmaking).2.2.2
    apply h.keep <;> intro r <;>
      simp only [Asleep, State.goto, State.setProc, Function.update_apply] <;> grind
  | drop c p np pgdir hcpu hpc =>
    have hp := hrun hcpu
    have hmaking : (s.pc p).making = some (np, false) := by
      rcases hpc with hpc | hpc <;> rw [hpc] <;> rfl
    have hnp : (s.proc np).state = .EMBRYO := embryo_state hs.tree hmaking
    apply h.keep <;> intro r <;>
      simp only [Asleep, State.goto, State.setProc, Function.update_apply] <;> grind
  | ready c p np hcpu hpc =>
    have hp := hrun hcpu
    have hnp : (s.proc np).state = .EMBRYO := embryo_state hs.tree (by rw [hpc]; rfl)
    apply h.keep <;> intro r <;>
      simp only [Asleep, State.goto, State.setProc, Function.update_apply] <;> grind
  | exit c p hcpu hpc hp => exact h.exit hs hcpu hp
  | reap c p q hcpu hpc hparent hzombie =>
    have hp := hrun hcpu
    apply h.keep <;> intro r <;>
      simp only [Asleep, State.reaped, State.goto, State.setProc, Function.update_apply] <;> grind
  | waitFailed c p hcpu =>
    have hp := hrun hcpu
    apply h.keep <;> intro r <;> simp only [Asleep, State.goto, Function.update_apply] <;> grind
  | wait c p q hcpu hpc hnone hchild hkilled =>
    have hwait {r} (hr : Asleep ((Procs.sleep s c p (.proc p)).goto p .wait) r) :
        r = p ∨ Asleep s r := by
      by_cases hrp : r = p
      · exact .inl hrp
      · exact .inr
          (by simpa [Asleep, Procs.sleep, State.sched, State.goto, State.setProc, hrp] using hr)
    have hparent (r) :
        (((Procs.sleep s c p (.proc p)).goto p .wait).proc r).parent = (s.proc r).parent := by
      simp only [Procs.sleep, State.sched, State.goto, State.setProc, Function.update_apply]
      grind
    constructor
    · intro r hr
      have hold := h.killed r
      have hwhere := hwait hr
      simp only [Procs.sleep, State.sched, State.goto, State.setProc, Function.update_apply]
      grind
    · intro r hr
      simp only [hparent]
      rcases hwait hr with rfl | hold
      · exact ⟨q, hchild⟩
      · exact h.child r hold
    · intro r k hr hk hz
      rw [hparent] at hk
      have hzombie : (s.proc k).state = .ZOMBIE := by
        simp only [Procs.sleep, State.sched, State.goto, State.setProc, Function.update_apply] at hz
        grind
      rcases hwait hr with rfl | hold
      · exact hnone k hk hzombie
      · exact h.zombie r k hold hk hzombie
  | kill p pid =>
    apply h.keep <;> intro r <;> simp only [Asleep, State.setProc, Function.update_apply] <;> grind
  | fault c p hcpu =>
    have hp := hrun hcpu
    apply h.keep <;> intro r <;> simp only [Asleep, State.setProc, Function.update_apply] <;> grind

omit [DecidableEq C] in
/-- The youngest process has no child, so it does not wait. -/
theorem exists_awake (hs : Sane s) (h : Waits s) :
    ∃ p, (s.proc p).state.kind = .live ∧ ¬Asleep s p := by
  by_contra hall
  have hasleep (p) (hp : (s.proc p).state.kind = .live) : Asleep s p := by
    by_contra hp'
    exact hall ⟨p, hp, hp'⟩
  have hinit : (s.proc initproc).state.kind = .live := hs.tree.root_kind
  obtain ⟨p, hp, hmax⟩ :=
    Finset.exists_max_image (Finset.univ.filter fun p => (s.proc p).state.kind = .live)
      (fun p => (s.proc p).pid) ⟨initproc, by simp [hinit]⟩
  simp only [Finset.mem_filter, Finset.mem_univ, true_and] at hp hmax
  obtain ⟨q, hq⟩ := h.child p (hasleep p hp)
  have hkind : (s.proc q).state.kind = .live := by
    cases hk : (s.proc q).state.kind with
    | live => rfl
    | free =>
      have hnone : (s.proc q).parent = none := hs.tree.free q hk
      rw [hnone] at hq
      cases hq
    | embryo =>
      obtain ⟨r, b, hr⟩ := hs.tree.embryo q hk
      have hmaking : (s.pc r).making = some (q, b) := hr
      have hrlive : (s.proc r).state.kind = .live := (hs.tree.making r q b hr).1
      rw [(hasleep r hrlive).2] at hmaking
      cases hmaking
    | zombie =>
      have hz : (s.proc q).state = .ZOMBIE := by
        cases hs : (s.proc q).state <;> simp [hs, ProcState.kind] at hk
        rfl
      exact absurd hz (h.zombie p q (hasleep p hp) hq)
  have hroot : q ≠ initproc := by
    intro heq
    have hnode : (s.tree.node initproc).parent = none := by rw [hs.tree.root]
    rw [heq] at hq
    exact absurd (hnode.symm.trans hq) (by simp)
  obtain ⟨r, hr, -, hlt⟩ := hs.tree.child q (.inl hkind) hroot
  have hrp : r = p := Option.some.inj (hr.symm.trans hq)
  have hle := hmax q hkind
  rw [hrp] at hlt
  exact absurd hlt (not_lt_of_ge hle)

omit [DecidableEq C] in
/-- The parent of a zombie is a process that does not sleep in `wait`. -/
theorem zombie_parent (hs : Sane s) (h : Waits s) (hq : (s.proc q).state = .ZOMBIE) :
    ∃ p, (s.proc q).parent = some p ∧ (s.proc p).state.kind = .live ∧ ¬Asleep s p := by
  have hkind : (s.tree.node q).kind = .zombie := by simp [State.tree, Proc.node, hq, ProcState.kind]
  have hroot : q ≠ initproc := by
    intro heq
    rw [heq, hs.tree.root_kind] at hkind
    cases hkind
  obtain ⟨p, hp, hlive, -⟩ := hs.tree.child q (.inr hkind) hroot
  exact ⟨p, hp, hlive, fun hasleep => h.zombie p q hasleep hp hq⟩

section Runs

variable {acts : List (Action C)}

omit [DecidableEq C] in
theorem waits_userinit : Waits (userinit C) := by
  constructor <;> intro p <;> simp [Asleep, userinit]

theorem run_waits (h : run (userinit C) acts = some (s, evs)) : Sane s ∧ Waits s :=
  run_keeps (P := fun s _ => Sane s ∧ Waits s) (fun hs hm => ⟨hm.sane hs.1, hm.waits hs.1 hs.2⟩)
    ⟨sane_userinit, waits_userinit⟩ h

/-- No exit is missed, and the processes never all wait for each other. -/
theorem no_exit_missed (h : run (userinit C) acts = some (s, evs)) :
    (∀ p, Asleep s p → (s.proc p).killed = false ∧ (∃ q, (s.proc q).parent = some p) ∧
      ∀ q, (s.proc q).parent = some p → (s.proc q).state ≠ .ZOMBIE) ∧
    (∀ q, (s.proc q).state = .ZOMBIE →
      ∃ p, (s.proc q).parent = some p ∧ (s.proc p).state.kind = .live ∧ ¬Asleep s p) ∧
    ∃ p, (s.proc p).state.kind = .live ∧ ¬Asleep s p := by
  obtain ⟨hs, hw⟩ := run_waits h
  exact ⟨fun p hp => ⟨hw.killed p hp, hw.child p hp, fun q => hw.zombie p q hp⟩, fun q =>
    zombie_parent hs hw, exists_awake hs hw⟩

/-- The first process waits for 2, which waits for 3, which exits. -/
def waiting : List (Action Bool) :=
  [.scheduler true, .fork true, .run true true, .run true true, .run true true, .wait true,
    .scheduler true, .fork true,
    .run true true, .run true true, .run true true, .wait true, .scheduler true, .exit true,
    .scheduler true,
    .scheduler true]

theorem no_exit_missed_waiting : ∃ r, run (userinit Bool) waiting = some r ∧ .reaped 2 3 ∈ r.2 ∧
    Asleep r.1 initproc ∧ (∃ q, (r.1.proc q).parent = some initproc) ∧
    ∃ p, (r.1.proc p).state.kind = .live ∧ ¬Asleep r.1 p := by
  obtain ⟨r, hr, hreaped, hasleep⟩ : ∃ r, run (userinit Bool) waiting = some r ∧ .reaped 2 3 ∈ r.2 ∧
      Asleep r.1 initproc :=
    ⟨_, Option.some_get (by decide +kernel) |>.symm, by decide +kernel, by decide +kernel⟩
  exact ⟨r, hr, hreaped, hasleep, ((no_exit_missed hr).1 initproc hasleep).2.1,
    (no_exit_missed hr).2.2⟩

end Runs

end Cs3650.Xv6.Procs
