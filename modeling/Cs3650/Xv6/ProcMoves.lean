import Cs3650.Xv6.Proc
import Mathlib.Data.List.Induction

/-!
# What a step of a process can do

A step is one move, or two where the scheduler goes on with a process in `wait`.
-/

namespace Cs3650.Xv6.Procs

open Cs3650.Lib

section Woken

variable {x : Proc} {chan chan' : Option Chan} {p : ProcId}

/-- `p->parent = initproc` for the children of `p`. -/
def Proc.orphaned (p : ProcId) (x : Proc) : Proc :=
  if x.parent = some p then { x with parent := some initproc } else x

@[simp] theorem Proc.woken_pid : (x.woken chan).pid = x.pid := by unfold woken; split <;> rfl
@[simp] theorem Proc.woken_parent : (x.woken chan).parent = x.parent := by
    unfold woken; split <;> rfl
@[simp] theorem Proc.woken_chan : (x.woken chan).chan = x.chan := by unfold woken; split <;> rfl
@[simp] theorem Proc.woken_killed : (x.woken chan).killed = x.killed := by
    unfold woken; split <;> rfl
@[simp] theorem Proc.woken_kstack : (x.woken chan).kstack = x.kstack := by
    unfold woken; split <;> rfl
@[simp] theorem Proc.woken_pgdir : (x.woken chan).pgdir = x.pgdir := by unfold woken; split <;> rfl

@[simp] theorem Proc.orphaned_state : (x.orphaned p).state = x.state := by
    unfold orphaned; split <;> rfl
@[simp] theorem Proc.orphaned_pid : (x.orphaned p).pid = x.pid := by unfold orphaned; split <;> rfl
@[simp] theorem Proc.orphaned_chan : (x.orphaned p).chan = x.chan := by
    unfold orphaned; split <;> rfl
@[simp] theorem Proc.orphaned_killed : (x.orphaned p).killed = x.killed := by
    unfold orphaned; split <;> rfl
@[simp] theorem Proc.orphaned_kstack : (x.orphaned p).kstack = x.kstack := by
    unfold orphaned; split <;> rfl
@[simp] theorem Proc.orphaned_pgdir : (x.orphaned p).pgdir = x.pgdir := by
    unfold orphaned; split <;> rfl

theorem Proc.orphaned_parent :
    (x.orphaned p).parent = if x.parent = some p then some initproc else x.parent := by
  unfold orphaned
  split <;> rfl

theorem Proc.woken_state (x : Proc) (chan : Option Chan) :
    (x.woken chan).state = x.state ∨ x.state = .SLEEPING ∧ (x.woken chan).state = .RUNNABLE := by
  unfold woken
  split
  · next h => exact .inr ⟨h.1, rfl⟩
  · exact .inl rfl

@[simp] theorem Proc.woken_zombie : (x.woken chan).state = .ZOMBIE ↔ x.state = .ZOMBIE := by
  have h := woken_state x chan
  constructor
  · intro hz
    simpa [hz, eq_comm] using h
  · intro hz
    simpa [hz] using h

/-- Who still sleeps does not sleep on the channel. -/
theorem Proc.woken_asleep (h : (x.woken chan).state = .SLEEPING) :
    x.state = .SLEEPING ∧ x.chan ≠ chan := by
  unfold woken at h
  split at h
  · cases h
  · next hne => exact ⟨h, fun hc => hne ⟨h, hc⟩⟩

theorem Proc.orphaned_woken : (x.woken chan).orphaned p = (x.orphaned p).woken chan := by
  unfold orphaned woken
  split <;> split <;> simp_all

theorem Proc.woken_woken : (x.woken chan).woken chan = x.woken chan := by
  unfold woken
  split <;> simp_all

theorem Proc.orphaned_orphaned (hp : p ≠ initproc) : (x.orphaned p).orphaned p = x.orphaned p := by
  unfold orphaned
  split <;> simp_all [hp.symm]

end Woken

section Exit

def Proc.wokenIf (b : Prop) [Decidable b] (x : Proc) : Proc :=
  if b then x.woken (some (.proc initproc)) else x

variable {x : Proc} {a b : Prop} [Decidable a] [Decidable b] {p q : ProcId}

theorem Proc.wokenIf_wokenIf : (x.wokenIf a).wokenIf b = x.wokenIf (a ∨ b) := by
  by_cases ha : a <;> by_cases hb : b <;> simp [wokenIf, ha, hb, woken_woken]

theorem Proc.wokenIf_congr (h : a ↔ b) : x.wokenIf a = x.wokenIf b := by
  by_cases hb : b <;> simp [wokenIf, h, hb]

theorem Proc.orphaned_wokenIf : (x.wokenIf b).orphaned p = (x.orphaned p).wokenIf b := by
  unfold wokenIf
  split
  · exact orphaned_woken
  · rfl

@[simp] theorem Proc.wokenIf_parent : (x.wokenIf b).parent = x.parent := by
    unfold wokenIf; split <;> simp
@[simp] theorem Proc.wokenIf_zombie : (x.wokenIf b).state = .ZOMBIE ↔ x.state = .ZOMBIE := by
    unfold wokenIf; split <;> simp

variable {C : Type} {s : State C} {c : C} {l : List ProcId}

/-- Some child of `p` in the list is a zombie. -/
def Left (s : State C) (p : ProcId) (l : List ProcId) : Prop :=
  ∃ r ∈ l, (s.proc r).parent = some p ∧ (s.proc r).state = .ZOMBIE

instance : Decidable (Left s p l) := inferInstanceAs (Decidable (∃ r ∈ l, _ ∧ _))

/-- What the loop of `exit` has done to one entry. -/
def passed (s : State C) (p : ProcId) (l : List ProcId) (q : ProcId) : Proc :=
  (if q ∈ l then (s.proc q).orphaned p else s.proc q).wokenIf (Left s p l)

/-- What one round of the loop does to an entry. -/
def adopted (p : ProcId) (s : State C) (q r : ProcId) : Proc :=
  (if r = q then (s.proc r).orphaned p else s.proc r).wokenIf ((s.proc q).parent = some p ∧
    (s.proc q).state = .ZOMBIE)

theorem adopt_eq : adopt p s q = { s with proc := adopted p s q } := by
  by_cases hparent : (s.proc q).parent = some p
  · have hset : Function.update s.proc q { s.proc q with parent := some initproc } =
        fun r => if r = q then (s.proc r).orphaned p else s.proc r := by
      funext r
      by_cases hr : r = q
      · subst hr
        simp [Proc.orphaned, hparent]
      · simp [hr]
    unfold adopt adopted State.setProc
    rw [hset]
    by_cases hz : (s.proc q).state = .ZOMBIE <;> simp [hparent, hz, wakeup1, Proc.wokenIf]
  · have hsame : adopted p s q = s.proc := by
      funext r
      by_cases hr : r = q
      · subst hr
        simp [adopted, Proc.orphaned, Proc.wokenIf, hparent]
      · simp [adopted, Proc.wokenIf, hr, hparent]
    rw [hsame, adopt, if_neg hparent]

theorem passed_parent :
    (passed s p l q).parent = (if q ∈ l then (s.proc q).orphaned p else s.proc q).parent := by
  rw [passed, Proc.wokenIf_parent]

theorem passed_zombie : (passed s p l q).state = .ZOMBIE ↔ (s.proc q).state = .ZOMBIE := by
  rw [passed, Proc.wokenIf_zombie]
  split <;> simp

/-- A child that the loop has passed is no child any more, so nothing is done twice. -/
theorem left_concat (hp : p ≠ initproc) : Left s p (l ++ [q]) ↔
    Left s p l ∨ (passed s p l q).parent = some p ∧ (passed s p l q).state = .ZOMBIE := by
  have hparent : (passed s p l q).parent = some p ↔ q ∉ l ∧ (s.proc q).parent = some p := by
    rw [passed_parent]
    by_cases hq : q ∈ l
    · simp only [hq, if_true, Proc.orphaned_parent]
      grind
    · simp [hq]
  rw [hparent, passed_zombie]
  simp only [Left, List.mem_append, List.mem_singleton]
  grind

theorem foldl_adopt (hp : p ≠ initproc) (l : List ProcId) :
    l.foldl (adopt p) s = { s with proc := passed s p l } := by
  induction l using List.reverseRecOn with
  | nil =>
    have hnone : passed s p [] = s.proc := by
      funext r
      simp [passed, Left, Proc.wokenIf]
    rw [List.foldl_nil, hnone]
  | append_singleton l q ih =>
    rw [List.foldl_append, ih, List.foldl_cons, List.foldl_nil, adopt_eq]
    congr 1
    funext r
    rw [adopted]
    have hmem : (if r = q then (passed s p l r).orphaned p else passed s p l r) =
        (if r ∈ l ++ [q] then (s.proc r).orphaned p else s.proc r).wokenIf (Left s p l) := by
      by_cases hr : r = q <;> by_cases hl : r ∈ l <;>
        simp_all [passed, Proc.orphaned_wokenIf, Proc.orphaned_orphaned]
    rw [hmem, Proc.wokenIf_wokenIf]
    exact Proc.wokenIf_congr (left_concat hp).symm

/-- The entries that `exit` leaves behind. -/
def gone (s : State C) (p q : ProcId) : Proc :=
  passed (wakeup1 s ((s.proc p).parent.map .proc)) p (List.finRange NPROC) q

theorem exit_eq [DecidableEq C] (hp : p ≠ initproc) : exit s c p =
    (({ s with proc := gone s p } : State C).setProc p
      { gone s p p with state := .ZOMBIE }).sched c := by
  unfold exit
  rw [foldl_adopt hp]
  rfl

/-- An entry that was perhaps woken and perhaps given another parent. -/
structure Woke (x y : Proc) : Prop where
  pid : y.pid = x.pid
  chan : y.chan = x.chan
  killed : y.killed = x.killed
  kstack : y.kstack = x.kstack
  pgdir : y.pgdir = x.pgdir
  state : y.state = x.state ∨ x.state = .SLEEPING ∧ y.state = .RUNNABLE

theorem Woke.trans {y z : Proc} (h : Woke x y) (h' : Woke y z) : Woke x z where
  pid := h'.pid.trans h.pid
  chan := h'.chan.trans h.chan
  killed := h'.killed.trans h.killed
  kstack := h'.kstack.trans h.kstack
  pgdir := h'.pgdir.trans h.pgdir
  state := by
    have hx := h.state
    have hy := h'.state
    grind

theorem woke_woken (chan : Option Chan) (x : Proc) : Woke x (x.woken chan) :=
  ⟨x.woken_pid, x.woken_chan, x.woken_killed, x.woken_kstack, x.woken_pgdir, x.woken_state chan⟩

theorem woke_orphaned (p : ProcId) (x : Proc) : Woke x (x.orphaned p) :=
  ⟨x.orphaned_pid, x.orphaned_chan, x.orphaned_killed, x.orphaned_kstack, x.orphaned_pgdir,
    .inl x.orphaned_state⟩

theorem woke_wokenIf (b : Prop) [Decidable b] (x : Proc) : Woke x (x.wokenIf b) := by
  unfold Proc.wokenIf
  split
  · exact woke_woken _ x
  · exact ⟨rfl, rfl, rfl, rfl, rfl, .inl rfl⟩

theorem gone_eq : gone s p q = (((s.proc q).woken ((s.proc p).parent.map .proc)).orphaned p).wokenIf
    (Left (wakeup1 s ((s.proc p).parent.map .proc)) p (List.finRange NPROC)) := by
  rw [gone, passed, if_pos (List.mem_finRange q)]
  rfl

theorem woke_gone (s : State C) (p q : ProcId) : Woke (s.proc q) (gone s p q) := by
  rw [gone_eq]
  exact ((woke_woken _ _).trans (woke_orphaned p _)).trans (woke_wokenIf _ _)

theorem gone_parent : (gone s p q).parent =
    if (s.proc q).parent = some p then some initproc else (s.proc q).parent := by
  rw [gone_eq, Proc.wokenIf_parent, Proc.orphaned_parent, Proc.woken_parent]

/-- Who sleeps on in `wait` has not to do with the process that exits. -/
theorem gone_asleep {r : ProcId} (h : (gone s p q).state = .SLEEPING)
    (hchan : (s.proc q).chan = some (.proc r)) :
    (s.proc p).parent ≠ some r ∧
    (r = initproc → ∀ k, (s.proc k).parent = some p → (s.proc k).state ≠ .ZOMBIE) := by
  rw [gone_eq] at h
  constructor
  · intro hparent
    have hstill : ((s.proc q).woken ((s.proc p).parent.map .proc)).state = .SLEEPING := by
      have hstate :=
        ((woke_orphaned p ((s.proc q).woken ((s.proc p).parent.map .proc))).trans
          (woke_wokenIf
            (Left (wakeup1 s ((s.proc p).parent.map .proc)) p (List.finRange NPROC)) _)).state
      rw [h] at hstate
      simpa [eq_comm] using hstate
    exact (Proc.woken_asleep hstill).2 (by rw [hchan, hparent]; rfl)
  · intro hr k hk hz
    subst hr
    have hleft : Left (wakeup1 s ((s.proc p).parent.map .proc)) p (List.finRange NPROC) :=
      ⟨k, List.mem_finRange k, by simpa [wakeup1] using hk, by simpa [wakeup1] using hz⟩
    rw [Proc.wokenIf, if_pos hleft] at h
    exact (Proc.woken_asleep h).2 (by simpa using hchan)

end Exit

section Moves

variable {C : Type} [DecidableEq C]

/-- What a CPU or an interrupt does without letting go of `ptable.lock`. -/
inductive Move (s : State C) : State C → List (Event C) → Prop
  | pass (c : C) (hnone : ∀ q, s.scan c ≤ q.val → (s.proc q).state ≠ .RUNNABLE) :
      Move s { s with scan := Function.update s.scan c 0 } []
  | pick (c : C) (p : ProcId) (hcpu : s.cpu c = none) (hscan : s.scan c ≤ p.val)
      (hstate : (s.proc p).state = .RUNNABLE)
      (hfirst : ∀ q, s.scan c ≤ q.val → (s.proc q).state = .RUNNABLE → p ≤ q) :
      Move s (s.picked c p) [.scheduled c p]
  | yield (c : C) (p : ProcId) (hcpu : s.cpu c = some p) :
      Move s ((s.setProc p { s.proc p with state := .RUNNABLE }).sched c) []
  | sleep (c : C) (p : ProcId) (n : Nat) (hcpu : s.cpu c = some p) (hpc : s.pc p = .user) :
      Move s (Procs.sleep s c p (.other n)) []
  | wakeup (n : Nat) : Move s (wakeup1 s (some (.other n))) []
  | full (c : C) (p : ProcId) (hcpu : s.cpu c = some p) : Move s s [.forkFailed (s.proc p).pid]
  | alloc (c : C) (p np : ProcId) (hcpu : s.cpu c = some p) (hpc : s.pc p = .user)
      (hfree : (s.proc np).state = .UNUSED) : Move s ((allocproc s np).goto p (.stack np)) []
  | stack (c : C) (p np : ProcId) (hcpu : s.cpu c = some p) (hpc : s.pc p = .stack np) :
      Move s ((s.setProc np { s.proc np with kstack := true }).goto p (.copy np)) []
  | copy (c : C) (p np : ProcId) (hcpu : s.cpu c = some p) (hpc : s.pc p = .copy np) :
      Move s ((s.setProc np { s.proc np with pgdir := true, parent := some p }).goto p (.ready np))
      []
  | drop (c : C) (p np : ProcId) (pgdir : Bool) (hcpu : s.cpu c = some p)
      (hpc : s.pc p = .stack np ∨ s.pc p = .copy np) :
      Move s ((s.setProc np
        { s.proc np with pgdir := pgdir, kstack := false, state := .UNUSED }).goto p .user)
        [.forkFailed (s.proc p).pid]
  | ready (c : C) (p np : ProcId) (hcpu : s.cpu c = some p) (hpc : s.pc p = .ready np) :
      Move s ((s.setProc np { s.proc np with state := .RUNNABLE }).goto p .user)
        [.forked (s.proc p).pid (s.proc np).pid]
  | exit (c : C) (p : ProcId) (hcpu : s.cpu c = some p) (hpc : s.pc p = .user) (hp : p ≠ initproc) :
      Move s (exit s c p) [.exited (s.proc p).pid]
  | reap (c : C) (p q : ProcId) (hcpu : s.cpu c = some p) (hpc : s.pc p = .user ∨ s.pc p = .wait)
      (hparent : (s.proc q).parent = some p) (hzombie : (s.proc q).state = .ZOMBIE) :
      Move s (s.reaped p q) [.reaped (s.proc p).pid (s.proc q).pid]
  | waitFailed (c : C) (p : ProcId) (hcpu : s.cpu c = some p) (hpc : s.pc p = .user ∨
      s.pc p = .wait) (hwhy : (∀ q, (s.proc q).parent ≠ some p) ∨ (s.proc p).killed = true) :
      Move s (s.goto p .user) [.waitFailed (s.proc p).pid (s.proc p).killed]
  | wait (c : C) (p q : ProcId) (hcpu : s.cpu c = some p) (hpc : s.pc p = .user ∨ s.pc p = .wait)
      (hnone : ∀ r, (s.proc r).parent = some p → (s.proc r).state ≠ .ZOMBIE)
      (hchild : (s.proc q).parent = some p) (hkilled : (s.proc p).killed = false) :
      Move s ((Procs.sleep s c p (.proc p)).goto p .wait) []
  | kill (p : ProcId) (pid : Int) (hpid : (s.proc p).pid = pid) :
      Move s (s.setProc p { s.proc p with
        killed := true, state :=
          if (s.proc p).state = .SLEEPING then .RUNNABLE else (s.proc p).state })
        [.killed pid true]
  | noKill (pid : Int) (hpid : ∀ q, (s.proc q).pid ≠ pid) : Move s s [.killed pid false]
  | fault (c : C) (p : ProcId) (hcpu : s.cpu c = some p) (hpc : s.pc p = .user) :
      Move s (s.setProc p { s.proc p with killed := true }) [.faulted (s.proc p).pid]

variable {s s' s₁ : State C} {c : C} {p q : ProcId} {es evs : List (Event C)} {a : Action C}

omit [DecidableEq C] in
theorem first_some {test : ProcId → Proc → Bool} (h : s.first test = some p) :
    test p (s.proc p) = true :=
  List.find?_some (p := fun q => test q (s.proc q)) h

omit [DecidableEq C] in
theorem first_none {test : ProcId → Proc → Bool} (h : s.first test = none) (q : ProcId) :
    test q (s.proc q) = false := by
  have hq := List.find?_eq_none.mp h q (List.mem_finRange q)
  simpa using hq

omit [DecidableEq C] in
theorem first_le {test : ProcId → Proc → Bool} (h : s.first test = some p)
    (hq : test q (s.proc q) = true) : p ≤ q := by
  obtain ⟨-, before, after, heq, hbefore⟩ := List.find?_eq_some_iff_append.mp h
  have hmem : q ∈ before ++ p :: after := heq ▸ List.mem_finRange q
  have hsorted : (before ++ p :: after).Pairwise (· < ·) := heq ▸ List.pairwise_lt_finRange NPROC
  rcases List.mem_append.mp hmem with hin | hin
  · exact absurd hq (by simpa using hbefore q hin)
  · rcases List.mem_cons.mp hin with heq' | hafter
    · exact heq' ▸ le_refl q
    · exact le_of_lt (List.rel_of_pairwise_cons (List.pairwise_append.mp hsorted).2.1 hafter)

theorem move_waitLoop (hcpu : s.cpu c = some p) (hpc : s.pc p = .user ∨ s.pc p = .wait)
    (h : waitLoop s c p = some (s', es)) : Move s s' es := by
  unfold waitLoop at h
  split at h
  · next q hq =>
    have htest := first_some hq
    simp only [Bool.and_eq_true, beq_iff_eq] at htest
    split at h
    · simp only [Option.some.injEq, Prod.mk.injEq] at h
      obtain ⟨rfl, rfl⟩ := h
      exact .reap c p q hcpu hpc htest.1 htest.2
    · cases h
  · next hnone =>
    have hzombie : ∀ r, (s.proc r).parent = some p → (s.proc r).state ≠ .ZOMBIE := by
      intro r hr hz
      have htest := first_none hnone r
      simp [hr, hz] at htest
    split at h
    · next hwhy =>
      simp only [Option.some.injEq, Prod.mk.injEq] at h
      obtain ⟨rfl, rfl⟩ := h
      refine .waitFailed c p hcpu hpc (hwhy.imp_left fun hchild q hq => ?_)
      have htest := first_none hchild q
      simp [hq] at htest
    · next hgo =>
      simp only [not_or, Bool.not_eq_true] at hgo
      obtain ⟨q, hq⟩ := Option.ne_none_iff_exists'.mp hgo.1
      simp only [Option.some.injEq, Prod.mk.injEq] at h
      obtain ⟨rfl, rfl⟩ := h
      exact .wait c p q hcpu hpc hzombie (by simpa using first_some hq) hgo.2

theorem move_forkStep {memory : Bool} (hcpu : s.cpu c = some p)
    (h : forkStep s p memory = some (s', es)) : Move s s' es := by
  unfold forkStep at h
  cases hpc : s.pc p with
  | user | wait => simp [hpc] at h
  | stack np =>
    cases memory with
    | true =>
      simp only [hpc, if_true, Option.some.injEq, Prod.mk.injEq] at h
      obtain ⟨rfl, rfl⟩ := h
      exact .stack c p np hcpu hpc
    | false =>
      simp only [hpc, Bool.false_eq_true, if_false, Option.some.injEq, Prod.mk.injEq] at h
      obtain ⟨rfl, rfl⟩ := h
      exact .drop c p np (s.proc np).pgdir hcpu (.inl hpc)
  | copy np =>
    cases memory with
    | true =>
      simp only [hpc, if_true, Option.some.injEq, Prod.mk.injEq] at h
      obtain ⟨rfl, rfl⟩ := h
      exact .copy c p np hcpu hpc
    | false =>
      simp only [hpc, Bool.false_eq_true, if_false, Option.some.injEq, Prod.mk.injEq] at h
      obtain ⟨rfl, rfl⟩ := h
      exact .drop c p np false hcpu (.inr hpc)
  | ready np =>
    simp only [hpc, Option.some.injEq, Prod.mk.injEq] at h
    obtain ⟨rfl, rfl⟩ := h
    exact .ready c p np hcpu hpc

theorem move_kill (s : State C) (pid : Int) :
    Move s (kill s pid).1 [.killed pid (kill s pid).2] := by
  unfold kill
  split
  · next p hp => exact .kill p pid (by simpa using first_some hp)
  · next hnone => exact .noKill pid fun q hq => by simpa [hq] using first_none hnone q

theorem picked_cpu : (s.picked c p).cpu c = some p := Function.update_self ..

/-- The scheduler makes one move, and the process that comes back to `wait` another. -/
theorem moves_scheduler (hcpu : s.cpu c = none) (h : scheduler s c = some (s', es)) : Move s s' es ∨
    ∃ p es', Move s (s.picked c p) [.scheduled c p] ∧ Move (s.picked c p) s' es' ∧
    es = .scheduled c p :: es' := by
  unfold scheduler at h
  split at h
  · next hnone =>
    simp only [Option.some.injEq, Prod.mk.injEq] at h
    obtain ⟨rfl, rfl⟩ := h
    exact .inl (.pass c fun q hscan hq => by simpa [hscan, hq] using first_none hnone q)
  · next p hp =>
    have htest := first_some hp
    simp only [Bool.and_eq_true, decide_eq_true_eq, beq_iff_eq] at htest
    have hpick : Move s (s.picked c p) [.scheduled c p] :=
      .pick c p hcpu htest.1 htest.2 fun q hscan hq => first_le hp (by simp [hscan, hq])
    split at h
    · next hpc =>
      obtain ⟨⟨s₂, es'⟩, hwait, heq⟩ := Option.map_eq_some_iff.mp h
      simp only [Prod.mk.injEq] at heq
      obtain ⟨rfl, rfl⟩ := heq
      exact .inr ⟨p, es', hpick, move_waitLoop picked_cpu (.inr hpc) hwait, rfl⟩
    · simp only [Option.some.injEq, Prod.mk.injEq] at h
      obtain ⟨rfl, rfl⟩ := h
      exact .inl hpick

omit [DecidableEq C] in
theorem myproc_some (h : s.myproc c = some p) : s.cpu c = some p ∧ s.pc p = .user := by
  simpa [State.myproc, Option.filter_eq_some_iff] using h

theorem moves_of_step (h : step s a = some (s', es)) : Move s s' es ∨
    ∃ c p es', Move s (s.picked c p) [.scheduled c p] ∧ Move (s.picked c p) s' es' ∧
    es = .scheduled c p :: es' := by
  cases a with
  | scheduler c =>
    simp only [step] at h
    split at h
    · next hcpu => exact (moves_scheduler hcpu h).imp_right fun ⟨p, es', hmoves⟩ =>
        ⟨c, p, es', hmoves⟩
    · cases h
  | yield c =>
    simp only [step, bind, Option.bind_eq_some_iff, Option.some.injEq, Prod.mk.injEq] at h
    obtain ⟨p, hcpu, rfl, rfl⟩ := h
    exact .inl (.yield c p hcpu)
  | sleep c n =>
    simp only [step, bind, Option.bind_eq_some_iff, Option.some.injEq, Prod.mk.injEq] at h
    obtain ⟨p, hp, rfl, rfl⟩ := h
    obtain ⟨hcpu, hpc⟩ := myproc_some hp
    exact .inl (.sleep c p n hcpu hpc)
  | wakeup n =>
    simp only [step, Option.some.injEq, Prod.mk.injEq] at h
    obtain ⟨rfl, rfl⟩ := h
    exact .inl (.wakeup n)
  | fork c =>
    simp only [step, bind, Option.bind_eq_some_iff] at h
    obtain ⟨p, hp, h⟩ := h
    obtain ⟨hcpu, hpc⟩ := myproc_some hp
    split at h
    · simp only [Option.some.injEq, Prod.mk.injEq] at h
      obtain ⟨rfl, rfl⟩ := h
      exact .inl (.full c p hcpu)
    · next np hnp =>
      split at h
      · simp only [Option.some.injEq, Prod.mk.injEq] at h
        obtain ⟨rfl, rfl⟩ := h
        exact .inl (.alloc c p np hcpu hpc (by simpa using first_some hnp))
      · cases h
  | run c memory =>
    simp only [step, bind, Option.bind_eq_some_iff] at h
    obtain ⟨p, hcpu, h⟩ := h
    exact .inl (move_forkStep hcpu h)
  | exit c =>
    simp only [step, bind, Option.bind_eq_some_iff] at h
    obtain ⟨p, hp, h⟩ := h
    obtain ⟨hcpu, hpc⟩ := myproc_some hp
    split at h
    · cases h
    · next hinit =>
      simp only [Option.some.injEq, Prod.mk.injEq] at h
      obtain ⟨rfl, rfl⟩ := h
      exact .inl (.exit c p hcpu hpc hinit)
  | wait c =>
    simp only [step, bind, Option.bind_eq_some_iff] at h
    obtain ⟨p, hp, h⟩ := h
    obtain ⟨hcpu, hpc⟩ := myproc_some hp
    exact .inl (move_waitLoop hcpu (.inl hpc) h)
  | kill c pid =>
    simp only [step, bind, Option.bind_eq_some_iff, Option.some.injEq, Prod.mk.injEq] at h
    obtain ⟨-, -, rfl, rfl⟩ := h
    exact .inl (move_kill s pid)
  | fault c =>
    simp only [step, bind, Option.bind_eq_some_iff, Option.some.injEq, Prod.mk.injEq] at h
    obtain ⟨p, hp, rfl, rfl⟩ := h
    obtain ⟨hcpu, hpc⟩ := myproc_some hp
    exact .inl (.fault c p hcpu hpc)

/-- What every move keeps, every run keeps. -/
theorem run_keeps {P : State C → List (Event C) → Prop}
    (hmove : ∀ {s s' es evs}, P s evs → Move s s' es → P s' (evs ++ es)) {acts : List (Action C)}
    (hstart : P s []) (h : run s acts = some (s', evs)) : P s' evs := by
  have hstep {s a s' es evs} (hs : P s evs) (hstep : step s a = some (s', es)) :
      P s' (evs ++ es) := by
    rcases moves_of_step hstep with hone | ⟨c, p, es', hpick, hnext, rfl⟩
    · exact hmove hs hone
    · simpa using hmove (hmove hs hpick) hnext
  simpa using runs_invariant hstep hstart h

end Moves

end Cs3650.Xv6.Procs
