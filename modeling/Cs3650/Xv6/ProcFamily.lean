import Cs3650.Xv6.ProcTree

/-!
# Parents and children

What `fork`, `exit` and `wait` say of the processes, by their pids: a process is
born once, exits once and is reported once, to who is its parent then. The table of
`proc.c` refines this.
-/

namespace Cs3650.Xv6.Procs

open Cs3650.Lib

inductive Stage
  | unborn
  | alive
  | zombie
  | gone
  deriving DecidableEq, Repr

/-- The pid of the first process. -/
def firstPid : Int := 1

structure Family where
  stage : Int → Stage
  parent : Int → Int

namespace Family

/-- The first process alone. -/
def first : Family where
  stage := Function.update (fun _ => .unborn) firstPid .alive
  parent := fun _ => 0

variable {C : Type}

/-- `n` has a child that `wait` has not reported. -/
def HasChild (f : Family) (n : Int) : Prop :=
  ∃ m, (f.stage m = .alive ∨ f.stage m = .zombie) ∧ f.parent m = n

/-- What may happen. -/
def Allows (f : Family) : Event C → Prop
  | .forked n m => f.stage n = .alive ∧ f.stage m = .unborn
  | .exited n => f.stage n = .alive ∧ n ≠ firstPid
  | .reaped n m => f.stage n = .alive ∧ f.stage m = .zombie ∧ f.parent m = n
  | .waitFailed n killed => killed = true ∨ f.stage n = .alive ∧ ¬f.HasChild n
  | .scheduled .. | .forkFailed _ | .killed .. | .faulted _ => True

def after (f : Family) : Event C → Family
  | .forked n m =>
  { stage := Function.update f.stage m .alive, parent := Function.update f.parent m n }
  | .exited n =>
    { stage := Function.update f.stage n .zombie
      parent := fun m => if f.parent m = n then firstPid else f.parent m }
  | .reaped _ m => { f with stage := Function.update f.stage m .gone }
  | .waitFailed .. | .scheduled .. | .forkFailed _ | .killed .. | .faulted _ => f

end Family

variable {C : Type}

/-- The family that the events have made. -/
def family (evs : List (Event C)) : Family := evs.foldl Family.after .first

theorem family_concat (evs : List (Event C)) (e : Event C) :
    family (evs ++ [e]) = (family evs).after e := by
  simp [family]

/-- The kind that the entry of a pid has, if there is one in use. -/
def Kind.stage : Kind → Option Stage
  | live => some .alive
  | zombie => some .zombie
  | embryo => some .unborn
  | free => none

/-- The entries in use are the processes that are alive and the zombies, and their
parents are the parents. -/
structure Shows (t : Tree) (f : Family) : Prop where
  stage : ∀ p x, (t.node p).kind.stage = some x → f.stage (t.node p).pid = x
  entry : ∀ n, f.stage n = .alive ∨ f.stage n = .zombie → ∃ p, (t.node p).kind ≠ .free ∧
    (t.node p).pid = n
  unborn : ∀ n, t.nextpid ≤ n → f.stage n = .unborn
  parent : ∀ p q, (t.node q).kind = .live ∨ (t.node q).kind = .zombie → (t.node q).parent = some p →
    f.parent (t.node q).pid = (t.node p).pid
  orphan : f.parent firstPid = 0

variable {t t' : Tree} {f : Family} {e : Event C} {es evs : List (Event C)}
    {p q np : ProcId} {b : Bool}

theorem Shows.alive (h : Shows t f) (hp : (t.node p).kind = .live) :
    f.stage (t.node p).pid = .alive :=
  h.stage p .alive (by rw [hp]; rfl)

theorem Shows.zombie (h : Shows t f) (hp : (t.node p).kind = .zombie) :
    f.stage (t.node p).pid = .zombie :=
  h.stage p .zombie (by rw [hp]; rfl)

theorem quiet_allowed (h : e.quiet = true) : f.Allows e ∧ f.after e = f := by
  cases e <;> simp_all [Event.quiet, Family.Allows, Family.after]

/-- A process without an entry that names it as the parent has no child. -/
theorem Shows.childless (h : Shows t f) (ht : t.Inv) (hp : (t.node p).kind = .live)
    (hnone : ∀ q, (t.node q).parent ≠ some p) : ¬f.HasChild (t.node p).pid := by
  intro hchild
  obtain ⟨m, hstage, hparent⟩ := hchild
  obtain ⟨q, hq, rfl⟩ := h.entry m hstage
  have hlive : (t.node q).kind = .live ∨ (t.node q).kind = .zombie := by
    cases hk : (t.node q).kind with
    | free => exact absurd hk hq
    | live | zombie => simp
    | embryo =>
      have hunborn := h.stage q .unborn (by rw [hk]; rfl)
      simp [hunborn] at hstage
  by_cases hroot : q = initproc
  · have horphan := h.orphan
    have hpos := ht.used p (by simp [hp])
    have hpid : (t.node initproc).pid = firstPid := by rw [ht.root]; rfl
    rw [hroot, hpid, horphan] at hparent
    omega
  · obtain ⟨r, hr, hrlive, -⟩ := ht.child q hlive hroot
    have hpid := h.parent r q hlive hr
    have heq : r = p := ht.unique r p (ht.used r (by simp [hrlive])) (by rw [← hpid, hparent])
    exact hnone q (heq ▸ hr)

theorem Shows.alloc (h : Shows t f) (ht : t.Inv) (hfree : (t.node np).kind = .free)
    {m : Option (ProcId × Bool)} :
    Shows { (t.setNode np { t.node np with kind := .embryo, pid := t.nextpid }).setMaking p m with
      nextpid := t.nextpid + 1 } f where
  stage r x := by
    have hr := h.stage r x
    have hunborn := h.unborn t.nextpid (le_refl _)
    simp
    grind [Kind.stage]
  entry n hn := by
    obtain ⟨r, hr, hpid⟩ := h.entry n hn
    have hne : r ≠ np := fun heq => hr (heq ▸ hfree)
    exact ⟨r, by simpa [hne] using hr, by simpa [hne] using hpid⟩
  unborn n hn := h.unborn n (by simp at hn; omega)
  parent r q := by
    have hr := h.parent r q
    have hchild := ht.child q
    have hroot := ht.root
    simp
    grind
  orphan := h.orphan

theorem Shows.copy (h : Shows t f) (ht : t.Inv) (hm : t.making p = some (np, false))
    {m : Option (ProcId × Bool)} :
    Shows ((t.setNode np { t.node np with parent := some p }).setMaking p m) f where
  stage r x := by
    have hr := h.stage r x
    simp
    grind
  entry n hn := by
    obtain ⟨r, hr, hpid⟩ := h.entry n hn
    by_cases heq : r = np
    · exact ⟨np, by simpa [heq] using hr, by simpa [heq] using hpid⟩
    · exact ⟨r, by simpa [heq] using hr, by simpa [heq] using hpid⟩
  unborn := h.unborn
  parent r q := by
    have hr := h.parent r q
    have hnp := ht.making p np false hm
    simp
    grind
  orphan := h.orphan

theorem Shows.drop (h : Shows t f) (ht : t.Inv) (hm : t.making p = some (np, false)) :
    Shows ((t.setNode np { t.node np with kind := .free }).setMaking p none) f where
  stage r x := by
    have hr := h.stage r x
    simp
    grind [Kind.stage]
  entry n hn := by
    obtain ⟨r, hr, hpid⟩ := h.entry n hn
    have hunborn := h.stage np .unborn (by rw [(ht.making p np false hm).2.1]; rfl)
    have hne : r ≠ np := fun heq => by rw [← hpid, heq, hunborn] at hn; simp at hn
    exact ⟨r, by simpa [hne] using hr, by simpa [hne] using hpid⟩
  unborn := h.unborn
  parent r q := by
    have hr := h.parent r q
    have hnp := ht.making p np false hm
    simp
    grind
  orphan := h.orphan

theorem Tree.Inv.first_pid (ht : t.Inv) : (t.node initproc).pid = firstPid := by
  rw [ht.root]
  rfl

theorem Shows.ready (h : Shows t f) (ht : t.Inv) (hm : t.making p = some (np, true)) :
    Shows ((t.setNode np { t.node np with kind := .live }).setMaking p none)
      (f.after (.forked (t.node p).pid (t.node np).pid : Event C)) where
  stage r x := by
    have hr := h.stage r x
    have hnp := ht.making p np true hm
    have huniq := ht.unique np r (ht.used np (by simp [hnp.2.1]))
    simp [Family.after, Function.update_apply]
    grind [Kind.stage]
  entry n hn := by
    have hnp := ht.making p np true hm
    by_cases hpid : n = (t.node np).pid
    · exact ⟨np, by simp, by simp [hpid]⟩
    · obtain ⟨r, hr, hrpid⟩ := h.entry n (by simpa [Family.after, hpid] using hn)
      have hne : r ≠ np := fun heq => hpid (by rw [← hrpid, heq])
      exact ⟨r, by simpa [hne] using hr, by simpa [hne] using hrpid⟩
  unborn n hn := by
    have hbound := ht.bound np
    have hne : n ≠ (t.node np).pid := by
      simp at hn
      omega
    simpa [Family.after, hne] using h.unborn n hn
  parent r q := by
    have hr := h.parent r q
    have hnp := ht.making p np true hm
    have huniq := ht.unique np q (ht.used np (by simp [hnp.2.1]))
    simp [Family.after, Function.update_apply]
    grind
  orphan := by
    have hnp := ht.making p np true hm
    have hpos := ht.used np (by simp [hnp.2.1])
    have hne : firstPid ≠ (t.node np).pid := by
      intro heq
      have hinit : initproc = np :=
        ht.unique initproc np (by rw [ht.first_pid]; decide) (ht.first_pid.trans heq)
      simp [← hinit, ht.root] at hnp
    simpa [Family.after, hne] using h.orphan

theorem Shows.exited (h : Shows t f) (ht : t.Inv) (hp : (t.node p).kind = .live) :
    Shows (t.exited p) (f.after (.exited (t.node p).pid : Event C)) where
  stage r x := by
    have hr := h.stage r x
    have huniq := ht.unique p r (ht.used p (by simp [hp]))
    simp [Family.after, Function.update_apply, Tree.exited]
    grind [Kind.stage]
  entry n hn := by
    by_cases hpid : n = (t.node p).pid
    · exact ⟨p, by simp [Tree.exited], by simp [Tree.exited, hpid]⟩
    · obtain ⟨r, hr, hrpid⟩ := h.entry n (by simpa [Family.after, hpid] using hn)
      have hne : r ≠ p := fun heq => hpid (by rw [← hrpid, heq])
      exact ⟨r, by simpa [Tree.exited, hne] using hr, hrpid⟩
  unborn n hn := by
    have hbound := ht.bound p
    have hne : n ≠ (t.node p).pid := by
      simp only [Tree.exited] at hn
      omega
    simpa [Family.after, hne] using h.unborn n hn
  parent r q := by
    have hr := h.parent r q
    have hchild := ht.child q
    have hroot := ht.root
    have hpid := ht.first_pid
    have hparent := fun k => h.parent k q
    have huniq := fun k => ht.unique p k (ht.used p (by simp [hp]))
    simp only [Family.after, Tree.exited]
    grind
  orphan := by
    have hpos := ht.used p (by simp [hp])
    have hne : f.parent firstPid ≠ (t.node p).pid := by
      rw [h.orphan]
      omega
    simpa [Family.after, hne] using h.orphan

theorem Shows.reap (h : Shows t f) (ht : t.Inv) (hzombie : (t.node q).kind = .zombie) {n : Int} :
    Shows (t.setNode q ⟨.free, 0, none⟩) (f.after (.reaped n (t.node q).pid : Event C)) where
  stage r x := by
    have hr := h.stage r x
    have huniq := ht.unique q r (ht.used q (by simp [hzombie]))
    simp [Family.after, Function.update_apply]
    grind [Kind.stage]
  entry m hm := by
    have hne : m ≠ (t.node q).pid := fun heq => by simp [Family.after, heq] at hm
    obtain ⟨r, hr, hpid⟩ := h.entry m (by simpa [Family.after, hne] using hm)
    have hrq : r ≠ q := fun heq => hne (by rw [← hpid, heq])
    exact ⟨r, by simpa [hrq] using hr, by simpa [hrq] using hpid⟩
  unborn m hm := by
    have hbound := ht.bound q
    have hne : m ≠ (t.node q).pid := by
      simp at hm
      omega
    simpa [Family.after, hne] using h.unborn m hm
  parent r k := by
    have hr := h.parent r k
    have hchild := ht.child k
    have hroot := ht.root
    simp [Family.after]
    grind
  orphan := h.orphan

/-- The event fits the family that was there. -/
def Allowed (before : List (Event C)) (e : Event C) : Prop := (family before).Allows e

theorem Shows.quiet (h : Shows t (family evs)) (hfits : Fits Allowed evs)
    (hquiet : ∀ e ∈ es, e.quiet = true) :
    Fits Allowed (evs ++ es) ∧ Shows t (family (evs ++ es)) := by
  induction es generalizing evs with
  | nil => simpa using ⟨hfits, h⟩
  | cons e es ih =>
    obtain ⟨hallows, hafter⟩ := quiet_allowed (f := family evs) (hquiet e List.mem_cons_self)
    have hshows : Shows t (family (evs ++ [e])) := by
      rw [family_concat, hafter]
      exact h
    have hrest :=
      ih hshows (hfits.append hallows) fun e' he' => hquiet e' (List.mem_cons_of_mem e he')
    simpa using hrest

theorem Tree.Step.shows (hs : Step t t' es) (ht : t.Inv) (h : Shows t (family evs))
    (hfits : Fits Allowed evs) : Fits Allowed (evs ++ es) ∧ Shows t' (family (evs ++ es)) := by
  cases hs with
  | same es hquiet => exact h.quiet hfits hquiet
  | childless p hp hnone =>
    have hallows : Allowed evs (.waitFailed (t.node p).pid false : Event C) :=
      .inr ⟨h.alive hp, h.childless ht hp hnone⟩
    rw [family_concat]
    exact ⟨hfits.append hallows, h⟩
  | alloc p np hp hm hfree => simpa using ⟨hfits, h.alloc ht hfree⟩
  | copy p np hm => simpa using ⟨hfits, h.copy ht hm⟩
  | drop p np hm => exact (h.drop ht hm).quiet hfits (by simp [Event.quiet])
  | ready p np hm =>
    obtain ⟨hp, hnp, -⟩ := ht.making p np true hm
    have hallows : Allowed evs (.forked (t.node p).pid (t.node np).pid : Event C) :=
      ⟨h.alive hp, h.stage np .unborn (by rw [hnp]; rfl)⟩
    rw [family_concat]
    exact ⟨hfits.append hallows, h.ready ht hm⟩
  | exit p hp hm hinit =>
    have hne : (t.node p).pid ≠ firstPid := fun heq =>
      hinit (ht.unique p initproc (ht.used p (by simp [hp])) (heq.trans ht.first_pid.symm))
    have hallows : Allowed evs (.exited (t.node p).pid : Event C) := ⟨h.alive hp, hne⟩
    rw [family_concat]
    exact ⟨hfits.append hallows, h.exited ht hp⟩
  | reap p q hp hparent hzombie =>
    have hallows : Allowed evs (.reaped (t.node p).pid (t.node q).pid : Event C) :=
      ⟨h.alive hp, h.zombie hzombie, h.parent p q (.inr hzombie) hparent⟩
    rw [family_concat]
    exact ⟨hfits.append hallows, h.reap ht hzombie⟩

section Life

def Event.bears (m : Int) : Event C → Bool
  | forked _ n => n == m
  | _ => false

def Event.ends (m : Int) : Event C → Bool
  | exited n => n == m
  | _ => false

def Event.reports (m : Int) : Event C → Bool
  | reaped _ n => n == m
  | _ => false

/-- How often each thing happened to the process `m`, and who its parent is: who
forked it, or the first process after that one exited. -/
structure Life (evs : List (Event C)) (m : Int) : Prop where
  born : evs.countP (Event.bears m) = if (family evs).stage m = .unborn ∨ m = firstPid then 0 else 1
  ended : evs.countP (Event.ends m) = if (family evs).stage m = .zombie ∨
    (family evs).stage m = .gone then 1 else 0
  reported : evs.countP (Event.reports m) = if (family evs).stage m = .gone then 1 else 0
  raised : (family evs).stage m ≠ .unborn → m ≠ firstPid → ∃ k, .forked k m ∈ evs ∧
    ((family evs).parent m = k ∨ (family evs).parent m = firstPid ∧ .exited k ∈ evs)
  first : (family evs).stage firstPid ≠ .unborn

theorem life_nil (m : Int) : Life ([] : List (Event C)) m := by
  by_cases hm : m = firstPid <;> constructor <;> simp [family, Family.first, hm]

theorem Life.concat {m : Int} (h : Life evs m) (he : Allowed evs e) : Life (evs ++ [e]) m where
  born := by
    have hb := h.born
    have hfirst := h.first
    rw [family_concat, List.countP_append, List.countP_singleton]
    cases e <;>
      simp_all [Allowed, Family.Allows, Family.after, Event.bears, Function.update_apply] <;> grind
  ended := by
    have hb := h.ended
    rw [family_concat, List.countP_append, List.countP_singleton]
    cases e <;>
      simp_all [Allowed, Family.Allows, Family.after, Event.ends, Function.update_apply] <;> grind
  reported := by
    have hb := h.reported
    rw [family_concat, List.countP_append, List.countP_singleton]
    cases e <;>
      simp_all [Allowed, Family.Allows, Family.after, Event.reports, Function.update_apply] <;>
      grind
  raised hborn hfirst := by
    rw [family_concat] at hborn ⊢
    cases e with
    | forked n c =>
      by_cases hc : m = c
      · exact ⟨n, by simp [hc], .inl (by simp [Family.after, hc])⟩
      · obtain ⟨k, hk, hparent⟩ := h.raised (by simpa [Family.after, hc] using hborn) hfirst
        exact ⟨k, List.mem_append_left _ hk, by simpa [Family.after, hc] using hparent⟩
    | exited n =>
      have hold : (family evs).stage m ≠ .unborn := by
        intro hunborn
        by_cases hn : m = n
        · simp [Allowed, Family.Allows, ← hn, hunborn] at he
        · exact hborn (by simpa [Family.after, hn] using hunborn)
      obtain ⟨k, hk, hparent⟩ := h.raised hold hfirst
      refine ⟨k, List.mem_append_left _ hk, ?_⟩
      simp only [Family.after, List.mem_append, List.mem_singleton]
      grind
    | reaped n c =>
      have hold : (family evs).stage m ≠ .unborn := by
        intro hunborn
        by_cases hc : m = c
        · simp [Allowed, Family.Allows, ← hc, hunborn] at he
        · exact hborn (by simpa [Family.after, hc] using hunborn)
      obtain ⟨k, hk, hparent⟩ := h.raised hold hfirst
      exact ⟨k, List.mem_append_left _ hk, by simpa [Family.after] using hparent⟩
    | scheduled | forkFailed | waitFailed | killed | faulted =>
      obtain ⟨k, hk, hparent⟩ := h.raised hborn hfirst
      exact ⟨k, List.mem_append_left _ hk, by simpa [Family.after] using hparent⟩
  first := by
    have hfirst := h.first
    rw [family_concat]
    cases e <;> simp_all [Allowed, Family.Allows, Family.after, Function.update_apply] <;> grind

theorem life (h : Fits Allowed evs) (m : Int) : Life evs m := by
  induction evs using List.reverseRecOn with
  | nil => exact life_nil m
  | append_singleton evs e ih => exact (ih h.of_append).concat h.last

end Life

section Runs

variable [DecidableEq C] {s s' : State C} {acts : List (Action C)}

omit [DecidableEq C] in
theorem node_userinit (p : ProcId) :
    (userinit C).tree.node p = if p = initproc then ⟨.live, 1, none⟩ else ⟨.free, 0, none⟩ := by
  by_cases hp : p = initproc <;> simp [State.tree, userinit, Proc.node, ProcState.kind, unused, hp]

omit [DecidableEq C] in
theorem shows_userinit : Shows (userinit C).tree (family ([] : List (Event C))) where
  stage p x := by
    simp only [node_userinit, family, List.foldl_nil, Family.first, firstPid, Function.update_apply]
    grind [Kind.stage]
  entry n hn := by
    have hfirst : n = firstPid := by
      simp only [family, List.foldl_nil, Family.first, Function.update_apply] at hn
      grind
    exact ⟨initproc, by simp [node_userinit], by simp [node_userinit, hfirst, firstPid]⟩
  unborn n hn := by
    have hge : 2 ≤ n := hn
    simp only [family, List.foldl_nil, Family.first, firstPid, Function.update_apply]
    grind
  parent p q := by
    simp only [node_userinit]
    grind
  orphan := rfl

structure Refines (s : State C) (evs : List (Event C)) : Prop where
  sane : Sane s
  fits : Fits Allowed evs
  shown : Shows s.tree (family evs)

theorem Move.refines (hm : Move s s' es) (h : Refines s evs) : Refines s' (evs ++ es) := by
  obtain ⟨hfits, hshown⟩ := (hm.tree h.sane.placed).shows h.sane.tree h.shown h.fits
  exact ⟨hm.sane h.sane, hfits, hshown⟩

theorem run_refines (h : run (userinit C) acts = some (s, evs)) : Refines s evs :=
  run_keeps (fun hs hm => hm.refines hs) ⟨sane_userinit, fits_nil, shows_userinit⟩ h

/-- The table of processes refines the family. -/
theorem runs_family (h : run (userinit C) acts = some (s, evs)) :
    Fits Allowed evs ∧ Shows s.tree (family evs) ∧ ∀ m, Life evs m :=
  ⟨(run_refines h).fits, (run_refines h).shown, life (run_refines h).fits⟩

/-- The first process forks 2, which forks 3 and exits, and reaps them both. -/
def orphaned : List (Action Bool) :=
  [.scheduler true, .fork true, .run true true, .run true true, .run true true, .scheduler false,
    .fork false,
    .run false true, .run false true, .run false true, .exit false, .wait true, .scheduler false,
    .exit false,
    .wait true]

theorem runs_family_orphaned : ∃ r, run (userinit Bool) orphaned = some r ∧ .forked 2 3 ∈ r.2 ∧
    .reaped 1 3 ∈ r.2 ∧ Fits Allowed r.2 ∧ Shows r.1.tree (family r.2) ∧ ∀ m, Life r.2 m := by
  obtain ⟨r, hr, hforked, hreaped⟩ : ∃ r, run (userinit Bool) orphaned = some r ∧
      .forked 2 3 ∈ r.2 ∧ .reaped 1 3 ∈ r.2 :=
    ⟨_, Option.some_get (by decide +kernel) |>.symm, by decide +kernel, by decide +kernel⟩
  exact ⟨r, hr, hforked, hreaped, runs_family hr⟩

end Runs

end Cs3650.Xv6.Procs
