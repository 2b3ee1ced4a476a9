import Cs3650.Lib.RoundRobin
import Cs3650.Xv6.ProcWait
import Mathlib.Data.Fintype.Card

/-!
# Runs of processes

A process that can run is passed over at most once by each CPU for each other
process. A process is killed only by its own pid, if nobody kills the pid 0. The
entry of a process that has exited has the memory that `wait` frees.
-/

namespace Cs3650.Xv6.Procs

open Cs3650.Lib

variable {C : Type} [DecidableEq C] {s s' : State C} {p q np r : ProcId} {c : C}
    {es evs : List (Event C)}

section Fair

/-- The entries that the CPU has picked. -/
def picks (c : C) (evs : List (Event C)) : List ProcId :=
  evs.filterMap fun
    | .scheduled c' p => if c' = c then some p else none
    | _ => none

/-- While `p` was not picked it is ready, and no CPU has come to it. -/
def Skipped (scan : C → Nat) (p : ProcId) (s : State C) (evs : List (Event C)) : Prop :=
  (∀ c, p ∉ picks c evs) →
    (s.proc p).state = .RUNNABLE ∧ ∀ c, Round p.val (scan c) (s.scan c) ((picks c evs).map Fin.val)

theorem picks_append : picks c (evs ++ es) = picks c evs ++ picks c es := List.filterMap_append

/-- Only the scheduler takes a process from the ready ones. -/
theorem Move.runnable (hm : Move s s' es) (hs : Sane s) (hp : (s.proc p).state = .RUNNABLE)
    (hnot : ∀ c, p ∉ picks c es) : (s'.proc p).state = .RUNNABLE := by
  have hrun {c q} (hcpu : s.cpu c = some q) : q ≠ p := fun heq => by
    have hq := hs.placed.running c q hcpu
    rw [heq, hp] at hq
    cases hq
  have hembryo {q np b} (hpc : (s.pc q).making = some (np, b)) : np ≠ p := fun heq => by
    have hnp := embryo_state hs.tree hpc
    rw [heq, hp] at hnp
    cases hnp
  cases hm with
  | pass | full | noKill | waitFailed => exact hp
  | pick c q =>
    have hne : p ≠ q := by simpa [picks] using hnot c
    simpa [State.picked, State.setProc, hne] using hp
  | yield c q hcpu | sleep c q n hcpu | wait c q k hcpu | fault c q hcpu =>
    simpa [Procs.sleep, State.sched, State.setProc, State.goto, (hrun hcpu).symm] using hp
  | wakeup n => simpa [wakeup1, hp] using (s.proc p).woken_state (some (.other n))
  | alloc c q np hcpu hpc hfree =>
    have hne : p ≠ np := fun heq => by rw [← heq, hp] at hfree; cases hfree
    simpa [allocproc, State.setProc, State.goto, hne] using hp
  | stack c q np hcpu hpc | copy c q np hcpu hpc | ready c q np hcpu hpc =>
    have hne := hembryo (q := q) (by rw [hpc]; rfl)
    simpa [State.setProc, State.goto, hne.symm] using hp
  | drop c q np pgdir hcpu hpc =>
    have hne : np ≠ p := by rcases hpc with hpc | hpc <;> exact hembryo (q := q) (by rw [hpc]; rfl)
    simpa [State.setProc, State.goto, hne.symm] using hp
  | exit c q hcpu hpc hq =>
    rw [exit_eq hq]
    simpa [State.sched, State.setProc, (hrun hcpu).symm, hp] using (woke_gone s q p).state
  | reap c q k hcpu hpc hparent hzombie =>
    have hne : p ≠ k := fun heq => by rw [← heq, hp] at hzombie; cases hzombie
    simpa [State.reaped, State.setProc, State.goto, hne] using hp
  | kill q pid =>
    simp only [State.setProc, Function.update_apply]
    grind

theorem Move.skipped {scan : C → Nat} (hm : Move s s' es) (hs : Sane s) (h : Skipped scan p s evs) :
    Skipped scan p s' (evs ++ es) := by
  intro hnot
  simp only [picks_append, List.mem_append, not_or] at hnot
  obtain ⟨hp, hround⟩ := h fun c => (hnot c).1
  refine ⟨hm.runnable hs hp fun c => (hnot c).2, fun c => ?_⟩
  have hc := hround c
  rw [picks_append]
  cases hm with
  | pass c' hnone =>
    have hpast : s.scan c' ≤ p.val → False := fun hle => hnone p hle hp
    simp only [Function.update_apply, picks, List.filterMap_nil, List.append_nil]
    split
    · next heq =>
      subst heq
      exact hc.again (Nat.lt_of_not_le hpast)
    · exact hc
  | pick c' q hcpu hscan hstate hfirst =>
    by_cases heq : c = c'
    · subst heq
      have hne : p ≠ q := by simpa [picks] using (hnot c).2
      have hlt : s.scan c ≤ p.val → q.val < p.val := fun hle =>
        lt_of_le_of_ne (hfirst p hle hp) fun hval => hne (Fin.ext hval.symm)
      simpa [picks, State.picked] using hc.stop hscan hlt
    · simpa [picks, State.picked, heq, Ne.symm heq] using hc
  | exit c' q hcpu hpc hq =>
    rw [exit_eq hq]
    simpa [picks, State.sched, State.setProc] using hc
  | _ =>
    simp only [picks, List.filterMap_cons, List.filterMap_nil, List.append_nil]
    exact hc

/-- No process is overtaken twice: as long as `p` waits for a CPU, each CPU picks each
other process at most once. -/
theorem overtaken_once {acts acts' : List (Action C)} (h : run (userinit C) acts = some (s, evs))
    (hp : (s.proc p).state = .RUNNABLE) {evs' : List (Event C)} (h' : run s acts' = some (s', evs'))
    (hnot : ∀ c, p ∉ picks c evs') (c : C) :
    (picks c evs').Nodup ∧ (picks c evs').length < NPROC := by
  have hstart : Sane s ∧ Skipped s.scan p s [] :=
    ⟨(run_waits h).1, fun _ => ⟨hp, fun c => round_nil p.val (s.scan c)⟩⟩
  have hend : Sane s' ∧ Skipped s.scan p s' evs' :=
    run_keeps (P := fun s₁ evs => Sane s₁ ∧ Skipped s.scan p s₁ evs)
      (fun hs hm => ⟨hm.sane hs.1, hm.skipped hs.1 hs.2⟩) hstart h'
  have hnodup : (picks c evs').Nodup := ((hend.2 hnot).2 c).nodup.of_map Fin.val
  have hall : (p :: picks c evs').Nodup := List.nodup_cons.mpr ⟨hnot c, hnodup⟩
  have hlen : (p :: picks c evs').length ≤ NPROC := by simpa using hall.length_le_card
  exact ⟨hnodup, hlen⟩

/-- The first process has forked another one, and gives its CPU up to it. -/
def yielding : List (Action Bool) :=
  [.scheduler true, .fork true, .run true true, .run true true, .run true true, .yield true]

theorem overtaken_once_yielding : ∃ r r', run (userinit Bool) yielding = some r ∧
    run r.1 [.scheduler true] = some r' ∧ (picks true r'.2).length = 1 ∧
    (picks true r'.2).Nodup := by
  obtain ⟨r, r', hr, hr', hready, hone, hnot⟩ : ∃ r r', run (userinit Bool) yielding = some r ∧
      run r.1 [.scheduler true] = some r' ∧ (r.1.proc initproc).state = .RUNNABLE ∧
      (picks true r'.2).length = 1 ∧
        ∀ c, initproc ∉ picks c r'.2 :=
    ⟨_, _, Option.some_get (by decide +kernel) |>.symm, Option.some_get (by decide +kernel) |>.symm,
      by decide +kernel, by decide +kernel, by decide +kernel⟩
  exact ⟨r, r', hr, hr', hone, (overtaken_once hr hready hr' hnot true).1⟩

end Fair

section Killed

def State.killed (s : State C) (p : ProcId) : Bool := (s.proc p).killed

/-- The pid that the event sets `killed` for. -/
def Event.marks : Event C → Option Int
  | killed n true | faulted n => some n
  | _ => none

def Marked (n : Int) (evs : List (Event C)) : Prop := ∃ e ∈ evs, e.marks = some n

/-- A `kill` that finds an entry was given the pid of a process. -/
def Named (before : List (Event C)) : Event C → Prop
  | .killed n true => n = firstPid ∨ ∃ k, .forked k n ∈ before
  | _ => True

/-- Who is killed was marked by its own pid. -/
structure Own (t : Tree) (killed : ProcId → Bool) (evs : List (Event C)) : Prop where
  young : ∀ p, (t.node p).kind = .free ∨ (t.node p).kind = .embryo → killed p = false
  grown : ∀ p, (t.node p).kind = .live ∨ (t.node p).kind = .zombie →
    (killed p = true ↔ Marked (t.node p).pid evs)
  stale : ∀ p, (t.node p).kind = .free → (family evs).stage (t.node p).pid = .unborn
  marked : ∀ n, Marked n evs → (family evs).stage n ≠ .unborn
  low : ∀ n, n ≤ 0 → (family evs).stage n = .unborn

omit [DecidableEq C] in
theorem marked_append {n : Int} : Marked n (evs ++ es) ↔ Marked n evs ∨ Marked n es := by
  simp only [Marked, List.mem_append, or_and_right, exists_or]

/-- How a move changes the flags. -/
theorem Move.killed (hm : Move s s' es) (hs : Placed s) :
    (s'.killed = s.killed ∧ (∀ n, ¬Marked n es) ∧ ∀ n m, .reaped n m ∉ es) ∨
      (∃ p q, s'.killed = Function.update s.killed q false ∧
        s'.tree = s.tree.setNode q ⟨.free, 0, none⟩ ∧
        (s.tree.node q).kind = .zombie ∧ es = [.reaped (s.tree.node p).pid (s.tree.node q).pid]) ∨
      ∃ p e, s'.killed = Function.update s.killed p true ∧ s'.tree = s.tree ∧ es = [e] ∧
        e.marks = some (s.tree.node p).pid ∧
        (e = .killed (s.tree.node p).pid true ∨ (s.tree.node p).kind = .live) := by
  have hsame {q : ProcId} {x : Proc} (hx : x.killed = (s.proc q).killed) :
      (s.setProc q x).killed = s.killed := by
    funext r
    simp only [State.killed, State.setProc, Function.update_apply]
    grind
  cases hm with
  | pass | full | noKill => exact .inl ⟨rfl, by simp [Marked, Event.marks], by simp⟩
  | pick c p => exact .inl ⟨hsame (q := p) rfl, by simp [Marked, Event.marks], by simp⟩
  | yield c p | sleep c p | wait c p =>
    exact .inl ⟨hsame (q := p) rfl, by simp [Marked, Event.marks], by simp⟩
  | waitFailed => exact .inl ⟨rfl, by simp [Marked, Event.marks], by simp⟩
  | wakeup => exact .inl ⟨by funext r; simp [State.killed, wakeup1], by simp [Marked], by simp⟩
  | alloc c p np | stack c p np | copy c p np | drop c p np | ready c p np =>
    exact .inl ⟨hsame (q := np) rfl, by simp [Marked, Event.marks], by simp⟩
  | exit c p hcpu hpc hp =>
    refine .inl ⟨?_, by simp [Marked, Event.marks], by simp⟩
    rw [exit_eq hp]
    funext r
    simp only [State.killed, State.sched, State.setProc, Function.update_apply]
    split
    · next heq => rw [heq, (woke_gone s p p).killed]
    · exact (woke_gone s p r).killed
  | reap c p q hcpu hpc hparent hzombie =>
    have htree : (s.reaped p q).tree = s.tree.setNode q ⟨.free, 0, none⟩ := by
      rw [State.reaped, tree_back (by exact hpc) (by rfl), tree_setProc]
      rfl
    refine .inr (.inl ⟨p, q, ?_, htree,
      by simp [State.tree, Proc.node, hzombie, ProcState.kind], rfl⟩)
    funext r
    simp only [State.killed, State.reaped, State.goto, State.setProc, Function.update_apply]
    split <;> rfl
  | kill p pid hpid =>
    refine .inr (.inr ⟨p, _, ?_, tree_same ?_, rfl,
      by simp [Event.marks, State.tree, Proc.node, hpid], .inl ?_⟩)
    · funext r
      simp only [State.killed, State.setProc, Function.update_apply]
      split <;> rfl
    · by_cases hsleep : (s.proc p).state = .SLEEPING <;> simp [Proc.node, hsleep, ProcState.kind]
    · simp [State.tree, Proc.node, hpid]
  | fault c p hcpu =>
    refine .inr (.inr ⟨p, _, ?_, tree_same (by rfl), rfl,
      by simp [Event.marks, State.tree, Proc.node], .inr ?_⟩)
    · funext r
      simp only [State.killed, State.setProc, Function.update_apply]
      split <;> rfl
    · simp [State.tree, Proc.node, hs.running c p hcpu, ProcState.kind]

variable {t t' : Tree} {k : ProcId → Bool} {e : Event C}

omit [DecidableEq C] in
theorem family_quiet (hquiet : ∀ e ∈ es, e.quiet = true) : family (evs ++ es) = family evs := by
  induction es generalizing evs with
  | nil => simp
  | cons e es ih =>
    have hrest : family (evs ++ [e] ++ es) = family (evs ++ [e]) :=
      ih fun e' he' => hquiet e' (List.mem_cons_of_mem e he')
    rw [List.append_assoc, List.singleton_append] at hrest
    rw [hrest, family_concat, (quiet_allowed (hquiet e List.mem_cons_self)).2]

omit [DecidableEq C] in
theorem Own.congr (h : Own t k evs) (hfamily : family (evs ++ es) = family evs)
    (hmarks : ∀ n, ¬Marked n es) : Own t k (evs ++ es) where
  young := h.young
  grown p hp := by simpa [marked_append, hmarks] using h.grown p hp
  stale p hp := by simpa [hfamily] using h.stale p hp
  marked n hn := by
    rw [hfamily]
    exact h.marked n (by simpa [marked_append, hmarks] using hn)
  low n hn := by simpa [hfamily] using h.low n hn

omit [DecidableEq C] in
/-- A step of the tree that kills nobody. -/
theorem Own.step (h : Own t k evs) (hs : t.Step t' es) (ht : t.Inv) (hshown : Shows t (family evs))
    (hmarks : ∀ n, ¬Marked n es) (hreaped : ∀ n m, .reaped n m ∉ es) : Own t' k (evs ++ es) := by
  cases hs with
  | same es hquiet => exact h.congr (family_quiet hquiet) hmarks
  | childless p hp hnone => exact h.congr (family_concat ..) hmarks
  | alloc p np hp hm hfree =>
    rw [List.append_nil]
    refine ⟨fun r => ?_, fun r => ?_, fun r => ?_, h.marked, h.low⟩
    · have hr := h.young r
      simp
      grind
    · have hr := h.grown r
      simp
      grind
    · have hr := h.stale r
      simp
      grind
  | copy p np hm =>
    have hnp := ht.making p np false hm
    rw [List.append_nil]
    refine ⟨fun r => ?_, fun r => ?_, fun r => ?_, h.marked, h.low⟩
    · have hr := h.young r
      simp
      grind
    · have hr := h.grown r
      simp
      grind
    · have hr := h.stale r
      simp
      grind
  | drop p np hm =>
    have hnp := ht.making p np false hm
    have hunborn := hshown.stage np .unborn (by rw [hnp.2.1]; rfl)
    have hdropped :
        Own ((t.setNode np { t.node np with kind := .free }).setMaking p none) k evs := by
      refine ⟨fun r => ?_, fun r => ?_, fun r => ?_, h.marked, h.low⟩
      · have hr := h.young r
        simp
        grind
      · have hr := h.grown r
        simp
        grind
      · have hr := h.stale r
        simp
        grind
    exact hdropped.congr (family_concat ..) hmarks
  | ready p np hm =>
    have hnp := ht.making p np true hm
    have hunborn := hshown.stage np .unborn (by rw [hnp.2.1]; rfl)
    have hpos := ht.used np (by simp [hnp.2.1])
    have hmark : ¬Marked (t.node np).pid evs := fun hmark => h.marked _ hmark hunborn
    refine ⟨fun r => ?_, fun r => ?_, fun r => ?_, fun n hn => ?_, fun n hn => ?_⟩
    · have hr := h.young r
      simp
      grind
    · have hr := h.grown r
      have hy := h.young np (.inr hnp.2.1)
      simp only [marked_append, hmarks, or_false, Tree.node_setMaking, Tree.node_setNode]
      grind
    · have hr := h.stale r
      have huniq := ht.unique np r hpos
      rw [family_concat]
      simp [Family.after, Function.update_apply]
      grind
    · have hold := h.marked n (by simpa [marked_append, hmarks] using hn)
      rw [family_concat]
      simp only [Family.after, Function.update_apply]
      grind
    · have hold := h.low n hn
      rw [family_concat]
      simp only [Family.after, Function.update_apply]
      grind
  | exit p hp hm hinit =>
    have hpos := ht.used p (by simp [hp])
    refine ⟨fun r => ?_, fun r => ?_, fun r => ?_, fun n hn => ?_, fun n hn => ?_⟩
    · have hr := h.young r
      simp only [Tree.exited]
      grind
    · have hr := h.grown r
      simp only [marked_append, hmarks, or_false, Tree.exited]
      grind
    · have hr := h.stale r
      have huniq := ht.unique p r hpos
      rw [family_concat]
      simp only [Family.after, Function.update_apply, Tree.exited]
      grind
    · have hold := h.marked n (by simpa [marked_append, hmarks] using hn)
      rw [family_concat]
      simp only [Family.after, Function.update_apply]
      grind
    · have hold := h.low n hn
      rw [family_concat]
      simp only [Family.after, Function.update_apply]
      grind
  | reap p q => exact absurd List.mem_cons_self (hreaped _ _)

omit [DecidableEq C] in
theorem Own.reap (h : Own t k evs) (ht : t.Inv) (hzombie : (t.node q).kind = .zombie) {n : Int} :
    Own (t.setNode q ⟨.free, 0, none⟩) (Function.update k q false)
      (evs ++ [.reaped n (t.node q).pid]) := by
  have hpos := ht.used q (by simp [hzombie])
  have hmarks : ∀ m, ¬Marked m [(.reaped n (t.node q).pid : Event C)] := by
    simp [Marked, Event.marks]
  refine ⟨fun r => ?_, fun r => ?_, fun r => ?_, fun m hm => ?_, fun m hm => ?_⟩
  · have hr := h.young r
    simp [Function.update_apply]
    grind
  · have hr := h.grown r
    simp only [marked_append, hmarks, or_false, Tree.node_setNode, Function.update_apply]
    grind
  · have hr := h.stale r
    have hzero := h.low 0 (le_refl _)
    have huniq := ht.unique q r hpos
    rw [family_concat]
    simp [Family.after, Function.update_apply]
    grind
  · have hold := h.marked m (by simpa [marked_append, hmarks] using hm)
    rw [family_concat]
    simp only [Family.after, Function.update_apply]
    grind
  · have hold := h.low m hm
    rw [family_concat]
    simp only [Family.after, Function.update_apply]
    grind

omit [DecidableEq C] in
/-- A process is killed by its own pid, or by a fault. -/
theorem Own.mark (h : Own t k evs) (ht : t.Inv) (hshown : Shows t (family evs))
    (hlife : ∀ m, Life evs m) (hmarks : e.marks = some (t.node p).pid) (hwhy : Named evs e)
    (hkill : e = .killed (t.node p).pid true ∨ (t.node p).kind = .live) :
    Own t (Function.update k p true) (evs ++ [e]) := by
  have hborn : (family evs).stage (t.node p).pid ≠ .unborn := by
    rcases hkill with rfl | hlive
    · rcases hwhy with hfirst | ⟨n, hn⟩
      · rw [hfirst]
        exact (hlife firstPid).first
      · intro hunborn
        have hcount := (hlife (t.node p).pid).born
        rw [if_pos (.inl hunborn), List.countP_eq_zero] at hcount
        exact hcount _ hn (by simp [Event.bears])
    · rw [hshown.alive hlive]
      simp
  have hgrown : (t.node p).kind = .live ∨ (t.node p).kind = .zombie := by
    cases hk : (t.node p).kind with
    | live | zombie => simp
    | free => exact absurd (h.stale p hk) hborn
    | embryo => exact absurd (hshown.stage p .unborn (by rw [hk]; rfl)) hborn
  have hpos := ht.used p (by rcases hgrown with hk | hk <;> simp [hk])
  have hfamily : family (evs ++ [e]) = family evs := by
    rw [family_concat]
    cases e <;> first | rfl | cases hmarks
  have hmarked (n : Int) : Marked n (evs ++ [e]) ↔ Marked n evs ∨ n = (t.node p).pid := by
    rw [marked_append]
    simp [Marked, hmarks, eq_comm]
  refine ⟨fun r => ?_, fun r => ?_, fun r => ?_, fun n hn => ?_, fun n hn => ?_⟩
  · have hr := h.young r
    simp only [Function.update_apply]
    grind
  · have hr := h.grown r
    have huniq := ht.unique p r hpos
    rw [hmarked]
    simp only [Function.update_apply]
    grind
  · rw [hfamily]
    exact h.stale r
  · rw [hfamily]
    rcases (hmarked n).mp hn with hold | rfl
    · exact h.marked n hold
    · exact hborn
  · rw [hfamily]
    exact h.low n hn

section Runs

variable {acts : List (Action C)}

structure KilledInv (s : State C) (evs : List (Event C)) : Prop where
  refines : Refines s evs
  own : Fits Named evs → Own s.tree s.killed evs

theorem Move.killedInv (hm : Move s s' es) (h : KilledInv s evs) : KilledInv s' (evs ++ es) where
  refines := hm.refines h.refines
  own hnamed := by
    have ht := h.refines.sane.tree
    have hown := h.own hnamed.of_append
    rcases hm.killed h.refines.sane.placed with ⟨hsame, hmarks, hreaped⟩
      | ⟨p, q, hset, htree, hzombie, rfl⟩ | ⟨p, e, hset, htree, rfl, hmarks, hkill⟩
    · rw [hsame]
      exact hown.step (hm.tree h.refines.sane.placed) ht h.refines.shown hmarks hreaped
    · rw [hset, htree]
      exact hown.reap ht hzombie
    · rw [hset, htree]
      exact hown.mark ht h.refines.shown (life h.refines.fits) hmarks hnamed.last hkill

omit [DecidableEq C] in
theorem own_userinit : Own (userinit C).tree (userinit C).killed ([] : List (Event C)) where
  young p _ := by
    by_cases hp : p = initproc <;> simp [State.killed, userinit, unused, hp]
  grown p _ := by
    by_cases hp : p = initproc <;> simp [State.killed, userinit, unused, hp, Marked]
  stale p hp := by
    rw [node_userinit] at hp ⊢
    by_cases hinit : p = initproc
    · simp [hinit] at hp
    · simp [hinit, family, Family.first, firstPid]
  marked n hn := by simp [Marked] at hn
  low n hn := by
    have hne : n ≠ firstPid := fun heq => by
      rw [heq] at hn
      exact absurd hn (by decide)
    simp [family, Family.first, hne]

/-- Nobody is killed for another one, if `kill` is given the pids of processes. -/
theorem killed_own (h : run (userinit C) acts = some (s, evs)) (hnamed : Fits Named evs)
    (p : ProcId) (hp : (s.proc p).state.kind = .live ∨ (s.proc p).state.kind = .zombie) :
    (s.proc p).killed = true ↔ Marked (s.proc p).pid evs := by
  have hinv : KilledInv s evs :=
    run_keeps (fun hs hm => hm.killedInv hs)
      ⟨⟨sane_userinit, fits_nil, shows_userinit⟩, fun _ => own_userinit⟩ h
  exact (hinv.own hnamed).grown p hp

/-- The first process forks 2 and kills it. -/
def killing : List (Action Bool) :=
  [.scheduler true, .fork true, .run true true, .run true true, .run true true, .kill true 2]

omit [DecidableEq C] in
theorem named_killing {c : C} :
    Fits Named [.scheduled c initproc, .forked 1 2, .killed 2 true] := by
  have hforked : Fits Named ([] ++ [.scheduled c initproc] ++ [.forked 1 2]) :=
    (fits_nil.append trivial).append trivial
  exact hforked.append (.inr ⟨1, by simp⟩)

theorem killed_own_killing : ∃ r p, run (userinit Bool) killing = some r ∧ (r.1.proc p).pid = 2 ∧
    (r.1.proc p).killed = true ∧ Marked 2 r.2 ∧
    ((r.1.proc initproc).killed = true ↔ Marked 1 r.2) := by
  obtain ⟨r, p, hr, hpid, hinit, hlive, hkind, hkilled, hevs⟩ :
      ∃ r p, run (userinit Bool) killing = some r ∧ (r.1.proc p).pid = 2 ∧
      (r.1.proc initproc).pid = 1 ∧ (r.1.proc p).state.kind = .live ∧
      (r.1.proc initproc).state.kind = .live ∧ (r.1.proc p).killed = true ∧
      r.2 = [.scheduled true initproc, .forked 1 2, .killed 2 true] :=
    ⟨_, ⟨1, by decide⟩, Option.some_get (by decide +kernel) |>.symm, by decide +kernel,
      by decide +kernel, by decide +kernel, by decide +kernel, by decide +kernel, by decide +kernel⟩
  have hnamed : Fits Named r.2 := hevs ▸ named_killing
  have hmarked : Marked 2 r.2 := hpid ▸ (killed_own hr hnamed p (.inl hlive)).mp hkilled
  exact ⟨r, p, hr, hpid, hkilled, hmarked, hinit ▸ killed_own hr hnamed initproc (.inl hkind)⟩

/-- `kill` of 0 finds an entry that is not in use, and the next process there is born
killed. -/
def doomed : List (Action Bool) :=
  [.scheduler true, .kill true 0, .fork true, .run true true, .run true true, .run true true]

theorem killed_of_zero : ∃ r p, run (userinit Bool) doomed = some r ∧ (r.1.proc p).pid = 2 ∧
    (r.1.proc p).state = .RUNNABLE ∧ (r.1.proc p).killed = true ∧ .killed 0 true ∈ r.2 ∧
    ∀ found, .killed 2 found ∉ r.2 :=
  ⟨_, ⟨1, by decide⟩, Option.some_get (by decide +kernel) |>.symm, by decide +kernel,
    by decide +kernel, by decide +kernel, by decide +kernel, by decide +kernel⟩

end Runs

end Killed

section Memory

/-- What `wait` frees is there. -/
structure Stocked (s : State C) : Prop where
  grown : ∀ p, (s.proc p).state.kind = .live ∨ (s.proc p).state.kind = .zombie →
    (s.proc p).kstack = true ∧ (s.proc p).pgdir = true
  copy : ∀ p np, s.pc p = .copy np → (s.proc np).kstack = true
  ready : ∀ p np, s.pc p = .ready np → (s.proc np).kstack = true ∧ (s.proc np).pgdir = true

omit [DecidableEq C] in
/-- No entry loses memory, and nobody goes on in `fork`. -/
theorem Stocked.keep (h : Stocked s)
    (hkind : ∀ p, (s'.proc p).state.kind = .live ∨ (s'.proc p).state.kind = .zombie →
    (s.proc p).state.kind = .live ∨ (s.proc p).state.kind = .zombie)
    (hstack : ∀ p, (s'.proc p).kstack = (s.proc p).kstack)
    (hpgdir : ∀ p, (s'.proc p).pgdir = (s.proc p).pgdir)
    (hpc : ∀ p, s'.pc p = s.pc p ∨ s'.pc p = .user ∨ s'.pc p = .wait ∨ ∃ np, s'.pc p = .stack np) :
    Stocked s' where
  grown p hp := by
    rw [hstack, hpgdir]
    exact h.grown p (hkind p hp)
  copy p np hp := by
    rw [hstack]
    rcases hpc p with hsame | hother | hother | ⟨np', hother⟩
    · exact h.copy p np (hsame ▸ hp)
    · simp [hother] at hp
    · simp [hother] at hp
    · simp [hother] at hp
  ready p np hp := by
    rw [hstack, hpgdir]
    rcases hpc p with hsame | hother | hother | ⟨np', hother⟩
    · exact h.ready p np (hsame ▸ hp)
    · simp [hother] at hp
    · simp [hother] at hp
    · simp [hother] at hp

theorem Move.stocked (hm : Move s s' es) (hs : Sane s) (h : Stocked s) : Stocked s' := by
  have hembryo {p np b} (hpc : (s.pc p).making = some (np, b)) : (s.proc np).state = .EMBRYO :=
    embryo_state hs.tree hpc
  have hsingle {p q np b b'} (hp : (s.pc p).making = some (np, b)) (hq : (s.pc q).making =
      some (np, b')) : p = q :=
    hs.tree.single p q np b b' hp hq
  cases hm with
  | pass | full | noKill => exact ⟨h.grown, h.copy, h.ready⟩
  | pick c p hcpu hscan hstate =>
    apply h.keep <;> intro r <;> simp only [State.picked, State.setProc, Function.update_apply] <;>
      grind [ProcState.kind]
  | yield c p hcpu =>
    have hp := hs.placed.running c p hcpu
    apply h.keep <;> intro r <;> simp only [State.sched, State.setProc, Function.update_apply] <;>
      grind [ProcState.kind]
  | sleep c p n hcpu =>
    have hp := hs.placed.running c p hcpu
    apply h.keep <;> intro r <;>
      simp only [Procs.sleep, State.sched, State.setProc, Function.update_apply] <;>
      grind [ProcState.kind]
  | wakeup n =>
    apply h.keep <;> intro r <;> simp [wakeup1, (woke_woken _ _).kind]
  | alloc c p np hcpu hpc hfree =>
    apply h.keep <;> intro r <;>
      simp only [allocproc, State.goto, State.setProc, Function.update_apply] <;>
      grind [ProcState.kind]
  | stack c p np hcpu hpc =>
    refine ⟨fun r => ?_, fun r m => ?_, fun r m => ?_⟩ <;>
      simp only [State.goto, State.setProc, Function.update_apply]
    · have hr := h.grown r
      grind
    · have hr := h.copy r m
      grind
    · have hr := h.ready r m
      grind
  | copy c p np hcpu hpc =>
    have hnp := hembryo (p := p) (by rw [hpc]; rfl)
    have hstack := h.copy p np hpc
    refine ⟨fun r => ?_, fun r m => ?_, fun r m => ?_⟩ <;>
      simp only [State.goto, State.setProc, Function.update_apply]
    · have hr := h.grown r
      grind
    · have hr := h.copy r m
      grind
    · have hr := h.ready r m
      grind
  | drop c p np pgdir hcpu hpc =>
    have hone {r b} (hr : (s.pc r).making = some (np, b)) : r = p := by
      rcases hpc with hpc | hpc <;> exact hsingle hr (by rw [hpc]; rfl)
    refine ⟨fun r => ?_, fun r m => ?_, fun r m => ?_⟩ <;>
      simp only [State.goto, State.setProc, Function.update_apply]
    · have hr := h.grown r
      grind [ProcState.kind]
    · have hr := h.copy r m
      have hm := hone (r := r) (b := false)
      grind [Pc.making]
    · have hr := h.ready r m
      have hm := hone (r := r) (b := true)
      grind [Pc.making]
  | ready c p np hcpu hpc =>
    have hstocked := h.ready p np hpc
    refine ⟨fun r => ?_, fun r m => ?_, fun r m => ?_⟩ <;>
      simp only [State.goto, State.setProc, Function.update_apply]
    · have hr := h.grown r
      grind
    · have hr := h.copy r m
      grind
    · have hr := h.ready r m
      grind
  | exit c p hcpu hpc hp =>
    have hlive := hs.placed.live hcpu
    have hfields := fun r => woke_gone s p r
    rw [exit_eq hp]
    apply h.keep <;> intro r <;> simp only [State.sched, State.setProc, Function.update_apply]
    · by_cases hr : r = p
      · subst hr
        exact fun _ => .inl hlive
      · simp [hr, (hfields r).kind]
    · by_cases hr : r = p
      · subst hr
        simp [(hfields r).kstack]
      · simp [hr, (hfields r).kstack]
    · by_cases hr : r = p
      · subst hr
        simp [(hfields r).pgdir]
      · simp [hr, (hfields r).pgdir]
    · simp
  | reap c p q hcpu hpc hparent hzombie =>
    have hne {r m b} (hr : (s.pc r).making = some (m, b)) : m ≠ q := fun heq => by
      have hm := hembryo hr
      rw [heq, hzombie] at hm
      cases hm
    refine ⟨fun r => ?_, fun r m => ?_, fun r m => ?_⟩ <;>
      simp only [State.reaped, State.goto, State.setProc, Function.update_apply]
    · have hr := h.grown r
      grind [ProcState.kind]
    · have hr := h.copy r m
      have hm := hne (r := r) (m := m) (b := false)
      grind [Pc.making]
    · have hr := h.ready r m
      have hm := hne (r := r) (m := m) (b := true)
      grind [Pc.making]
  | waitFailed c p hcpu =>
    apply h.keep <;> intro r <;> simp only [State.goto, Function.update_apply] <;> grind
  | wait c p q hcpu =>
    have hp := hs.placed.running c p hcpu
    apply h.keep <;> intro r <;>
      simp only [Procs.sleep, State.sched, State.goto, State.setProc, Function.update_apply] <;>
      grind [ProcState.kind]
  | kill p pid =>
    apply h.keep <;> intro r <;> simp only [State.setProc, Function.update_apply] <;>
      grind [ProcState.kind]
  | fault c p hcpu =>
    apply h.keep <;> intro r <;> simp only [State.setProc, Function.update_apply] <;>
      grind [ProcState.kind]

/-- Nobody runs in `wait`: the scheduler goes on there before it lets go of the lock. -/
def Awake (s : State C) : Prop := ∀ c p, s.cpu c = some p → s.pc p ≠ .wait

omit [DecidableEq C] in
theorem Awake.keep (h : Awake s) (hcpu : ∀ c r, s'.cpu c = some r → s.cpu c = some r)
    (hpc : ∀ r, s'.pc r = .wait → s.pc r = .wait) : Awake s' :=
  fun c r hc hr => h c r (hcpu c r hc) (hpc r hr)

theorem awake_waitLoop (h : ∀ c' r, s.cpu c' = some r → r ≠ p → s.pc r ≠ .wait)
    (hone : ∀ c', s.cpu c' = some p → c' = c) (hw : waitLoop s c p = some (s', es)) : Awake s' := by
  have hback {t : State C} (ht : t.cpu = s.cpu) (hpc : t.pc = Function.update s.pc p .user) :
      Awake t := by
    intro c' r hc hr
    rw [hpc, Function.update_apply] at hr
    split at hr
    · cases hr
    · next hne => exact h c' r (ht ▸ hc) hne hr
  unfold waitLoop at hw
  split at hw
  · split at hw
    · simp only [Option.some.injEq, Prod.mk.injEq] at hw
      obtain ⟨rfl, rfl⟩ := hw
      exact hback rfl rfl
    · cases hw
  · split at hw
    · simp only [Option.some.injEq, Prod.mk.injEq] at hw
      obtain ⟨rfl, rfl⟩ := hw
      exact hback rfl rfl
    · simp only [Option.some.injEq, Prod.mk.injEq] at hw
      obtain ⟨rfl, rfl⟩ := hw
      intro c' r hc hr
      simp only [sleep, State.sched, State.setProc, State.goto, Function.update_apply] at hc hr
      have hold := h c' r
      have hpc := hone c'
      grind

omit [DecidableEq C] in
theorem forkStep_frame {memory : Bool} (h : forkStep s p memory = some (s', es)) :
    s'.cpu = s.cpu ∧ ∃ pc, s'.pc = Function.update s.pc p pc ∧ pc ≠ .wait := by
  unfold forkStep at h
  cases hpc : s.pc p with
  | user | wait => simp [hpc] at h
  | stack np | copy np =>
    cases memory <;>
      simp only [hpc, if_true, Bool.false_eq_true, if_false, Option.some.injEq,
        Prod.mk.injEq] at h <;>
      obtain ⟨rfl, -⟩ := h <;> exact ⟨rfl, _, rfl, by simp⟩
  | ready np =>
    simp only [hpc, Option.some.injEq, Prod.mk.injEq] at h
    obtain ⟨rfl, -⟩ := h
    exact ⟨rfl, _, rfl, by simp⟩

theorem awake_step {a : Action C} (hs : Placed s) (h : Awake s) (hstep : step s a = some (s', es)) :
    Awake s' := by
  cases a with
  | scheduler c =>
    simp only [step, scheduler] at hstep
    split at hstep
    · next hcpu =>
      split at hstep
      · simp only [Option.some.injEq, Prod.mk.injEq] at hstep
        obtain ⟨rfl, rfl⟩ := hstep
        exact h
      · next p hp =>
        have hready : (s.proc p).state = .RUNNABLE := by
          have htest := first_some hp
          simp only [Bool.and_eq_true, beq_iff_eq] at htest
          exact htest.2
        have hidle (c') : s.cpu c' ≠ some p := fun hc => by
          have hrun := hs.running c' p hc
          rw [hready] at hrun
          cases hrun
        have hpicked (c' : C) (r : ProcId) (hc : (s.picked c p).cpu c' = some r) :
            c' = c ∧ r = p ∨ s.cpu c' = some r ∧ r ≠ p := by
          have hnot := hidle c'
          simp only [State.picked, Function.update_apply] at hc
          grind
        split at hstep
        · obtain ⟨⟨s₂, es'⟩, hwait, heq⟩ := Option.map_eq_some_iff.mp hstep
          simp only [Prod.mk.injEq] at heq
          obtain ⟨rfl, rfl⟩ := heq
          refine awake_waitLoop (fun c' r hc hne => ?_) (fun c' hc => ?_) hwait
          · rcases hpicked c' r hc with ⟨-, heq⟩ | ⟨hold, -⟩
            · exact absurd heq hne
            · exact h c' r hold
          · rcases hpicked c' p hc with ⟨heq, -⟩ | ⟨-, hne⟩
            · exact heq
            · exact absurd rfl hne
        · next hpc =>
          simp only [Option.some.injEq, Prod.mk.injEq] at hstep
          obtain ⟨rfl, rfl⟩ := hstep
          intro c' r hc
          rcases hpicked c' r hc with ⟨-, rfl⟩ | ⟨hold, -⟩
          · exact hpc
          · exact h c' r hold
    · cases hstep
  | yield c =>
    simp only [step, bind, Option.bind_eq_some_iff, Option.some.injEq, Prod.mk.injEq] at hstep
    obtain ⟨p, hcpu, rfl, rfl⟩ := hstep
    apply h.keep
    · intro c' r
      simp only [State.sched, State.setProc, Function.update_apply]
      grind
    · exact fun r hr => hr
  | sleep c n =>
    simp only [step, bind, Option.bind_eq_some_iff, Option.some.injEq, Prod.mk.injEq] at hstep
    obtain ⟨p, hp, rfl, rfl⟩ := hstep
    apply h.keep
    · intro c' r
      simp only [sleep, State.sched, State.setProc, Function.update_apply]
      grind
    · exact fun r hr => hr
  | wakeup n =>
    simp only [step, Option.some.injEq, Prod.mk.injEq] at hstep
    obtain ⟨rfl, rfl⟩ := hstep
    exact h
  | fork c =>
    simp only [step, bind, Option.bind_eq_some_iff] at hstep
    obtain ⟨p, hp, hstep⟩ := hstep
    split at hstep
    · simp only [Option.some.injEq, Prod.mk.injEq] at hstep
      obtain ⟨rfl, rfl⟩ := hstep
      exact h
    · split at hstep
      · simp only [Option.some.injEq, Prod.mk.injEq] at hstep
        obtain ⟨rfl, rfl⟩ := hstep
        refine h.keep (by exact fun c r hc => hc) fun r => ?_
        simp only [allocproc, State.setProc, State.goto, Function.update_apply]
        grind
      · cases hstep
  | run c memory =>
    simp only [step, bind, Option.bind_eq_some_iff] at hstep
    obtain ⟨p, hp, hstep⟩ := hstep
    obtain ⟨hcpu, pc, hpc, hne⟩ := forkStep_frame hstep
    refine h.keep (by rw [hcpu]; exact fun c r hc => hc) fun r => ?_
    rw [hpc, Function.update_apply]
    grind
  | exit c =>
    simp only [step, bind, Option.bind_eq_some_iff] at hstep
    obtain ⟨p, hp, hstep⟩ := hstep
    split at hstep
    · cases hstep
    · next hinit =>
      simp only [Option.some.injEq, Prod.mk.injEq] at hstep
      obtain ⟨rfl, rfl⟩ := hstep
      rw [exit_eq hinit]
      apply h.keep
      · intro c' r
        simp only [State.sched, State.setProc, Function.update_apply]
        grind
      · exact fun r hr => hr
  | wait c =>
    simp only [step, bind, Option.bind_eq_some_iff] at hstep
    obtain ⟨p, hp, hstep⟩ := hstep
    have hcpu := (myproc_some hp).1
    exact awake_waitLoop (fun c' r hc _ => h c' r hc) (fun c' hc => hs.single c' c p hc hcpu) hstep
  | kill c pid =>
    simp only [step, bind, Option.bind_eq_some_iff, Option.some.injEq, Prod.mk.injEq] at hstep
    obtain ⟨-, -, rfl, rfl⟩ := hstep
    unfold kill
    split
    · exact h
    · exact h
  | fault c =>
    simp only [step, bind, Option.bind_eq_some_iff, Option.some.injEq, Prod.mk.injEq] at hstep
    obtain ⟨p, hp, rfl, rfl⟩ := hstep
    exact h

omit [DecidableEq C] in
theorem Stocked.freeable (h : Stocked s) (hq : (s.proc q).state = .ZOMBIE) :
    (s.proc q).kstack = true ∧ (s.proc q).pgdir = true :=
  h.grown q (.inr (by rw [hq]; rfl))

theorem waitLoop_isSome (h : Stocked s) : (waitLoop s c p).isSome = true := by
  unfold waitLoop
  split
  · next q hq =>
    have htest := first_some hq
    simp only [Bool.and_eq_true, beq_iff_eq] at htest
    rw [if_pos (h.freeable htest.2)]
    rfl
  · split <;> rfl

theorem scheduler_isSome (hs : Sane s) (h : Stocked s) (hcpu : s.cpu c = none) :
    (scheduler s c).isSome = true := by
  unfold scheduler
  split
  · rfl
  · next p hp =>
    have htest := first_some hp
    simp only [Bool.and_eq_true, decide_eq_true_eq, beq_iff_eq] at htest
    have hpick : Move s (s.picked c p) [.scheduled c p] :=
      .pick c p hcpu htest.1 htest.2 fun q hscan hq => first_le hp (by simp [hscan, hq])
    split
    · rw [Option.isSome_map]
      exact waitLoop_isSome (hpick.stocked hs h)
    · rfl

omit [DecidableEq C] in
theorem forkStep_isSome {memory : Bool} (huser : s.pc p ≠ .user) (hwait : s.pc p ≠ .wait) :
    (forkStep s p memory).isSome = true := by
  unfold forkStep
  cases hpc : s.pc p with
  | user => exact absurd hpc huser
  | wait => exact absurd hpc hwait
  | stack | copy => cases memory <;> rfl
  | ready => rfl

omit [DecidableEq C] in
theorem stocked_userinit : Stocked (userinit C) where
  grown p hp := by
    by_cases hinit : p = initproc
    · simp [userinit, hinit]
    · simp [userinit, unused, hinit, ProcState.kind] at hp
  copy p np hp := by simp [userinit] at hp
  ready p np hp := by simp [userinit] at hp

omit [DecidableEq C] in
theorem myproc_eq (hcpu : s.cpu c = some p) (hpc : s.pc p = .user) : s.myproc c = some p := by
  simp [State.myproc, hcpu, hpc, Option.filter]

theorem run_awake {acts : List (Action C)} (h : run (userinit C) acts = some (s, evs)) :
    Awake s := by
  have hkeep {s s' : State C} {a : Action C} {es} (hs : Sane s ∧
      Awake s) (hstep : step s a = some (s', es)) : Sane s' ∧ Awake s' := by
    refine ⟨?_, awake_step hs.1.placed hs.2 hstep⟩
    rcases moves_of_step hstep with hone | ⟨c, p, es', hpick, hnext, -⟩
    · exact hone.sane hs.1
    · exact hnext.sane (hpick.sane hs.1)
  have hstart : Sane (userinit C) ∧ Awake (userinit C) :=
    ⟨sane_userinit, fun c p hc => by simp [userinit] at hc⟩
  have hall : Sane s ∧ Awake s := @runs_invariant _ _ _ _ _ _ _ _ (fun s _ => Sane s ∧ Awake s)
    (fun hs hstep => hkeep hs hstep) [] hstart h
  exact hall.2

/-- No CPU is ever stuck or panics, but for the exit of the first process: the loop
of the scheduler goes on, `wait` finds the memory that it frees, and `fork` goes on
with memory or without. -/
theorem never_stuck {acts : List (Action C)} (h : run (userinit C) acts = some (s, evs)) (c : C) :
    (s.cpu c = none → (step s (.scheduler c)).isSome = true) ∧
    ∀ p, s.cpu c = some p →
      (s.pc p = .user → (step s (.wait c)).isSome = true ∧
        ((step s (.exit c)).isSome = true ↔ p ≠ initproc)) ∧
      (s.pc p ≠ .user → ∀ memory, (step s (.run c memory)).isSome = true) := by
  have hstocked : Sane s ∧ Stocked s :=
    run_keeps (P := fun s _ => Sane s ∧ Stocked s)
      (fun hs hm => ⟨hm.sane hs.1, hm.stocked hs.1 hs.2⟩) ⟨sane_userinit, stocked_userinit⟩ h
  refine ⟨fun hcpu => ?_, fun p hcpu => ⟨fun hpc => ⟨?_, ?_⟩, fun hpc memory => ?_⟩⟩
  · simp only [step, hcpu, if_true]
    exact scheduler_isSome hstocked.1 hstocked.2 hcpu
  · simp only [step, myproc_eq hcpu hpc]
    exact waitLoop_isSome hstocked.2
  · simp only [step, myproc_eq hcpu hpc, bind, Option.bind_some]
    by_cases hp : p = initproc <;> simp [hp]
  · simp only [step, hcpu]
    exact forkStep_isSome hpc (run_awake h c p hcpu)

theorem never_stuck_killing :
    ∃ r, run (userinit Bool) killing = some r ∧ (step r.1 (.wait true)).isSome = true ∧
    (step r.1 (.scheduler false)).isSome = true := by
  obtain ⟨r, hr, hcpu, hpc, hidle⟩ : ∃ r, run (userinit Bool) killing = some r ∧
      r.1.cpu true = some initproc ∧ r.1.pc initproc = .user ∧ r.1.cpu false = none :=
    ⟨_, Option.some_get (by decide +kernel) |>.symm, by decide +kernel, by decide +kernel,
      by decide +kernel⟩
  exact ⟨r, hr, (((never_stuck hr true).2 initproc hcpu).1 hpc).1, (never_stuck hr false).1 hidle⟩

end Memory

end Cs3650.Xv6.Procs
