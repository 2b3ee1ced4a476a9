import Cs3650.Xv6.ProcMoves

/-!
# The tree of processes

What of the table does not depend on the scheduler: which entries are in use, with
which pids, and whose children they are.
-/

namespace Cs3650.Xv6.Procs

inductive Kind
  | free
  | embryo
  | live
  | zombie
  deriving DecidableEq, Repr

def ProcState.kind : ProcState → Kind
  | UNUSED => .free
  | EMBRYO => .embryo
  | SLEEPING | RUNNABLE | RUNNING => .live
  | ZOMBIE => .zombie

structure Node where
  kind : Kind
  pid : Int
  parent : Option ProcId

/-- `making` has the entry that a process in `fork` has taken, and whether it has
set its parent. -/
structure Tree where
  nextpid : Int
  node : ProcId → Node
  making : ProcId → Option (ProcId × Bool)

def Proc.node (x : Proc) : Node := ⟨x.state.kind, x.pid, x.parent⟩

def Pc.making : Pc → Option (ProcId × Bool)
  | stack np | copy np => some (np, false)
  | ready np => some (np, true)
  | user | wait => none

variable {C : Type}

def State.tree (s : State C) : Tree :=
  ⟨s.nextpid, fun p => (s.proc p).node, fun p => (s.pc p).making⟩

/-- The event changes nothing between the processes. -/
def Event.quiet : Event C → Bool
  | scheduled .. | forkFailed _ | killed .. | faulted _ => true
  | waitFailed _ k => k
  | forked .. | exited _ | reaped .. => false

namespace Tree

def setNode (t : Tree) (p : ProcId) (x : Node) : Tree :=
  { t with node := Function.update t.node p x }

def setMaking (t : Tree) (p : ProcId) (m : Option (ProcId × Bool)) : Tree :=
  { t with making := Function.update t.making p m }

/-- `p` is a zombie and its children are `initproc`'s. -/
def exited (t : Tree) (p : ProcId) : Tree :=
  { t with node := fun q =>
      ⟨if q = p then .zombie else (t.node q).kind, (t.node q).pid,
        if (t.node q).parent = some p then some initproc else (t.node q).parent⟩ }

@[simp] theorem node_setNode {t : Tree} {p q : ProcId} {x : Node} :
    (t.setNode p x).node q = if q = p then x else t.node q := Function.update_apply ..

@[simp] theorem making_setMaking {t : Tree} {p q : ProcId} {m : Option (ProcId × Bool)} :
    (t.setMaking p m).making q = if q = p then m else t.making q := Function.update_apply ..

@[simp] theorem node_setMaking {t : Tree} {p : ProcId} {m : Option (ProcId × Bool)} :
    (t.setMaking p m).node = t.node := rfl

@[simp] theorem making_setNode {t : Tree} {p : ProcId} {x : Node} :
    (t.setNode p x).making = t.making := rfl

@[simp] theorem nextpid_setNode {t : Tree} {p : ProcId} {x : Node} :
    (t.setNode p x).nextpid = t.nextpid := rfl

@[simp] theorem nextpid_setMaking {t : Tree} {p : ProcId} {m : Option (ProcId × Bool)} :
    (t.setMaking p m).nextpid = t.nextpid := rfl

inductive Step (t : Tree) : Tree → List (Event C) → Prop
  | same (es : List (Event C)) (hquiet : ∀ e ∈ es, e.quiet = true) : Step t t es
  | childless (p : ProcId) (hp : (t.node p).kind = .live)
      (hnone : ∀ q, (t.node q).parent ≠ some p) : Step t t [.waitFailed (t.node p).pid false]
  | alloc (p np : ProcId) (hp : (t.node p).kind = .live) (hm : t.making p = none)
      (hfree : (t.node np).kind = .free) :
      Step t
        { (t.setNode np { t.node np with kind := .embryo, pid := t.nextpid }).setMaking p
            (some (np, false)) with
          nextpid := t.nextpid + 1 } []
  | copy (p np : ProcId) (hm : t.making p = some (np, false)) :
      Step t ((t.setNode np { t.node np with parent := some p }).setMaking p (some (np, true))) []
  | drop (p np : ProcId) (hm : t.making p = some (np, false)) :
      Step t ((t.setNode np { t.node np with kind := .free }).setMaking p none)
      [.forkFailed (t.node p).pid]
  | ready (p np : ProcId) (hm : t.making p = some (np, true)) :
      Step t ((t.setNode np { t.node np with kind := .live }).setMaking p none)
        [.forked (t.node p).pid (t.node np).pid]
  | exit (p : ProcId) (hp : (t.node p).kind = .live) (hm : t.making p = none)
      (hinit : p ≠ initproc) : Step t (t.exited p) [.exited (t.node p).pid]
  | reap (p q : ProcId) (hp : (t.node p).kind = .live) (hparent : (t.node q).parent = some p)
      (hzombie : (t.node q).kind = .zombie) :
      Step t (t.setNode q ⟨.free, 0, none⟩) [.reaped (t.node p).pid (t.node q).pid]

/-- Every entry in use has a pid of its own, and a parent that lives and is older. -/
structure Inv (t : Tree) : Prop where
  bound : ∀ p, 0 ≤ (t.node p).pid ∧ (t.node p).pid < t.nextpid
  used : ∀ p, (t.node p).kind ≠ .free → 0 < (t.node p).pid
  unique : ∀ p q, 0 < (t.node p).pid → (t.node p).pid = (t.node q).pid → p = q
  free : ∀ p, (t.node p).kind = .free → (t.node p).parent = none
  embryo : ∀ np, (t.node np).kind = .embryo → ∃ p b, t.making p = some (np, b)
  making : ∀ p np b, t.making p = some (np, b) → (t.node p).kind = .live ∧
    (t.node np).kind = .embryo ∧ (t.node p).pid < (t.node np).pid ∧ (t.node np).parent = if b
    then some p else none
  single : ∀ p q np b b', t.making p = some (np, b) → t.making q = some (np, b') → p = q
  root : t.node initproc = ⟨.live, 1, none⟩
  child : ∀ q, (t.node q).kind = .live ∨ (t.node q).kind = .zombie → q ≠ initproc →
    ∃ p, (t.node q).parent = some p ∧ (t.node p).kind = .live ∧ (t.node p).pid < (t.node q).pid

variable {t t' : Tree} {es : List (Event C)} {p q np : ProcId} {b : Bool}

theorem Inv.root_kind (h : t.Inv) : (t.node initproc).kind = .live := by rw [h.root]

/-- The entry that `allocproc` takes. -/
theorem Inv.alloc (h : t.Inv) (hp : (t.node p).kind = .live) (hm : t.making p = none)
    (hfree : (t.node np).kind = .free) :
    Inv
      { (t.setNode np { t.node np with kind := .embryo, pid := t.nextpid }).setMaking p
          (some (np, false)) with
        nextpid := t.nextpid + 1 } where
  bound r := by
    have hr := h.bound r
    have hinit := h.bound initproc
    simp
    grind
  used r := by
    have hr := h.used r
    have hinit := h.bound initproc
    have hpos := h.used initproc
    have hroot := h.root_kind
    simp
    grind
  unique r r' := by
    have hr := h.bound r
    have hr' := h.bound r'
    have huniq := h.unique r r'
    simp
    grind
  free r := by
    have hr := h.free r
    simp
    grind
  embryo r hr := by
    by_cases heq : r = np
    · exact ⟨p, false, by simp [heq]⟩
    · obtain ⟨p', b, hp'⟩ := h.embryo r (by simpa [heq] using hr)
      have hne : p' ≠ p := fun heq' => by simp [heq', hm] at hp'
      exact ⟨p', b, by simpa [hne] using hp'⟩
  making r n b := by
    have hr := h.making r n b
    have hnp := h.free np hfree
    have hbound := h.bound p
    simp
    grind
  single r r' n b b' := by
    have hsingle := h.single r r' n b b'
    have hr := h.making r n b
    have hr' := h.making r' n b'
    simp
    grind
  root := by
    have hroot := h.root
    simp
    grind
  child r := by
    have hr := h.child r
    simp
    grind

theorem Inv.copy (h : t.Inv) (hm : t.making p = some (np, false)) :
    Inv ((t.setNode np { t.node np with parent := some p }).setMaking p (some (np, true))) where
  bound r := by
    have hr := h.bound r
    simp
    grind
  used r := by
    have hr := h.used r
    simp
    grind
  unique r r' := by
    have huniq := h.unique r r'
    simp
    grind
  free r := by
    have hr := h.free r
    have hnp := h.making p np false hm
    simp
    grind
  embryo r hr := by
    by_cases heq : r = np
    · exact ⟨p, true, by simp [heq]⟩
    · obtain ⟨p', b, hp'⟩ := h.embryo r (by simpa [heq] using hr)
      have hne : p' ≠ p := fun heq' => by simp [heq', hm, Ne.symm heq] at hp'
      exact ⟨p', b, by simpa [hne] using hp'⟩
  making r n b := by
    have hr := h.making r n b
    have hnp := h.making p np false hm
    have hone := h.single p r np false b hm
    simp
    grind
  single r r' n b b' := by
    have hsingle := h.single r r' n b b'
    have hone := h.single p r np false b hm
    have hone' := h.single p r' np false b' hm
    simp
    grind
  root := by
    have hroot := h.root
    have hnp := h.making p np false hm
    simp
    grind
  child r := by
    have hr := h.child r
    have hnp := h.making p np false hm
    simp
    grind

/-- The entry is given back, or it becomes a process. -/
theorem Inv.made (h : t.Inv) (hm : t.making p = some (np, b)) :
    Inv ((t.setNode np { t.node np with kind := if b then .live else .free }).setMaking p none)
      where
  bound r := by
    have hr := h.bound r
    simp
    grind
  used r := by
    have hr := h.used r
    have hnp := h.making p np b hm
    simp
    grind
  unique r r' := by
    have huniq := h.unique r r'
    simp
    grind
  free r := by
    have hr := h.free r
    have hnp := h.making p np b hm
    simp
    grind
  embryo r hr := by
    have hne : r ≠ np := fun heq => by cases b <;> simp [heq] at hr
    obtain ⟨p', b', hp'⟩ := h.embryo r (by simpa [hne] using hr)
    have hne' : p' ≠ p := fun heq' => by simp [heq', hm, Ne.symm hne] at hp'
    exact ⟨p', b', by simpa [hne'] using hp'⟩
  making r n b' := by
    have hr := h.making r n b'
    have hnp := h.making p np b hm
    have hone := h.single p r np b b' hm
    simp
    grind
  single r r' n b' b'' := by
    have hsingle := h.single r r' n b' b''
    simp
    grind
  root := by
    have hroot := h.root
    have hnp := h.making p np b hm
    simp
    grind
  child r := by
    have hr := h.child r
    have hnp := h.making p np b hm
    simp
    grind

theorem Inv.exited (h : t.Inv) (hp : (t.node p).kind = .live) (hm : t.making p = none)
    (hinit : p ≠ initproc) : (t.exited p).Inv where
  bound := h.bound
  used r := by
    have hr := h.used r
    have hp := h.used p
    simp only [Tree.exited]
    grind
  unique := h.unique
  free r := by
    have hr := h.free r
    simp only [Tree.exited]
    grind
  embryo r := by
    have hr := h.embryo r
    simp only [Tree.exited]
    grind
  making r n b := by
    have hr := h.making r n b
    simp only [Tree.exited]
    grind
  single := h.single
  root := by
    have hroot := h.root
    simp only [Tree.exited]
    grind
  child r := by
    have hr := h.child r
    have huniq := h.unique initproc r
    have hpos := h.used r
    have hroot := h.root
    simp only [Tree.exited]
    grind

theorem Inv.reap (h : t.Inv) (hzombie : (t.node q).kind = .zombie) :
    (t.setNode q ⟨.free, 0, none⟩).Inv where
  bound r := by
    have hr := h.bound r
    have hinit := h.bound initproc
    simp
    grind
  used r := by
    have hr := h.used r
    simp
    grind
  unique r r' := by
    have huniq := h.unique r r'
    simp
    grind
  free r := by
    have hr := h.free r
    simp
    grind
  embryo r hr := by
    have hne : r ≠ q := fun heq => by simp [heq] at hr
    exact h.embryo r (by simpa [hne] using hr)
  making r n b := by
    have hr := h.making r n b
    simp
    grind
  single := h.single
  root := by
    have hroot := h.root
    simp
    grind
  child r := by
    have hr := h.child r
    simp
    grind

theorem Step.inv (hs : Step t t' es) (h : t.Inv) : t'.Inv := by
  cases hs with
  | same | childless => exact h
  | alloc p np hp hm hfree => exact h.alloc hp hm hfree
  | copy p np hm => exact h.copy hm
  | drop p np hm => exact h.made hm
  | ready p np hm => exact h.made hm
  | exit p hp hm hinit => exact h.exited hp hm hinit
  | reap p q hp hparent hzombie => exact h.reap hzombie

end Tree

/-- Where a process of each state is, and what it sleeps on. -/
def Place (p : ProcId) (x : Proc) (pc : Pc) : Prop :=
  match x.state with
  | .RUNNABLE | .RUNNING => True
  | .SLEEPING => pc = .user ∧ (∃ n, x.chan = some (.other n)) ∨ pc = .wait ∧ x.chan = some (.proc p)
  | .UNUSED | .EMBRYO | .ZOMBIE => pc = .user

structure Placed (s : State C) : Prop where
  place : ∀ p, Place p (s.proc p) (s.pc p)
  running : ∀ c p, s.cpu c = some p → (s.proc p).state = .RUNNING
  single : ∀ c c' p, s.cpu c = some p → s.cpu c' = some p → c = c'
  busy : ∀ p, (s.proc p).state = .RUNNING → ∃ c, s.cpu c = some p

section Simulation

variable {s s' : State C} {p q np : ProcId} {x : Proc} {pc : Pc} {c : C} {es : List (Event C)}
    {chan : Option Chan}

theorem tree_setProc : (s.setProc p x).tree = s.tree.setNode p x.node := by
  simp only [State.tree, State.setProc, Tree.setNode, Function.apply_update (fun _ => Proc.node)]

theorem tree_goto : (s.goto p pc).tree = s.tree.setMaking p pc.making := by
  simp only [State.tree, State.goto, Tree.setMaking, Function.apply_update (fun _ => Pc.making)]

/-- An entry that only changes between the states of a live process. -/
theorem tree_same (h : x.node = (s.proc p).node) : (s.setProc p x).tree = s.tree := by
  rw [tree_setProc, h]
  simp [Tree.setNode, State.tree]

theorem tree_still (h : pc.making = (s.pc p).making) : (s.goto p pc).tree = s.tree := by
  rw [tree_goto, h]
  simp [Tree.setMaking, State.tree]

theorem Woke.kind {y : Proc} (h : Woke x y) : y.state.kind = x.state.kind := by
  rcases h.state with heq | ⟨hx, hy⟩
  · rw [heq]
  · rw [hx, hy]
    rfl

theorem tree_wakeup1 : (wakeup1 s chan).tree = s.tree := by
  simp only [State.tree, wakeup1, Proc.node, (woke_woken chan _).kind, Proc.woken_pid,
    Proc.woken_parent]

variable [DecidableEq C]

theorem tree_sched : (s.sched c).tree = s.tree := rfl

theorem tree_picked (h : (s.proc p).state = .RUNNABLE) : (s.picked c p).tree = s.tree := by
  change (s.setProc p { s.proc p with state := .RUNNING, chan := none }).tree = s.tree
  exact tree_same (by simp [Proc.node, h, ProcState.kind])

theorem tree_exit (hp : p ≠ initproc) : (exit s c p).tree = s.tree.exited p := by
  rw [exit_eq hp, tree_sched, tree_setProc]
  simp only [State.tree, Tree.setNode, Tree.exited, Proc.node]
  congr 1
  funext q
  by_cases hq : q = p
  · subst hq
    simp only [Function.update_self, (woke_gone s q q).pid, gone_parent, if_true]
    rfl
  · simp only [Function.update_of_ne hq, (woke_gone s p q).kind, (woke_gone s p q).pid,
      gone_parent, if_neg hq]
    rfl

omit [DecidableEq C] in
theorem Placed.live (h : Placed s) (hcpu : s.cpu c = some p) : (s.tree.node p).kind = .live := by
  simp [State.tree, Proc.node, h.running c p hcpu, ProcState.kind]

omit [DecidableEq C] in
theorem making_of_user (h : s.pc p = .user ∨ s.pc p = .wait) : (s.pc p).making = none := by
  rcases h with h | h <;> rw [h] <;> rfl

omit [DecidableEq C] in
theorem tree_back (h : s.pc p = .user ∨ s.pc p = .wait) (hpc : pc.making = none) :
    (s.goto p pc).tree = s.tree :=
  tree_still (hpc.trans (making_of_user h).symm)

omit [DecidableEq C] in
theorem tree_alloc : (allocproc s np).tree =
    { s.tree.setNode np { s.tree.node np with kind := .embryo, pid := s.tree.nextpid } with
      nextpid := s.tree.nextpid + 1 } := by
  simp only [State.tree, allocproc, State.setProc, Tree.setNode,
    Function.apply_update (fun _ => Proc.node)]
  rfl

/-- A move is a step of the tree. -/
theorem Move.tree (hm : Move s s' es) (h : Placed s) : s.tree.Step s'.tree es := by
  cases hm with
  | pass c => exact .same [] (by simp)
  | pick c p hcpu hscan hstate =>
    rw [tree_picked hstate]
    exact .same _ (by simp [Event.quiet])
  | yield c p hcpu =>
    rw [tree_sched, tree_same (by simp [Proc.node, h.running c p hcpu, ProcState.kind])]
    exact .same [] (by simp)
  | sleep c p n hcpu =>
    rw [Procs.sleep, tree_sched,
      tree_same (by simp [Proc.node, h.running c p hcpu, ProcState.kind])]
    exact .same [] (by simp)
  | wakeup n =>
    rw [tree_wakeup1]
    exact .same [] (by simp)
  | full c p => exact .same _ (by simp [Event.quiet])
  | alloc c p np hcpu hpc hfree =>
    have hstep :=
      Tree.Step.alloc (C := C) (t := s.tree) p np (h.live hcpu) (making_of_user (.inl hpc))
        (by simp [State.tree, Proc.node, hfree, ProcState.kind])
    rw [tree_goto, tree_alloc]
    exact hstep
  | stack c p np hcpu hpc =>
    rw [tree_still (by rw [State.setProc, hpc]; rfl), tree_same (by rfl)]
    exact .same [] (by simp)
  | copy c p np hcpu hpc =>
    rw [tree_goto, tree_setProc]
    exact .copy p np (by simp [State.tree, hpc, Pc.making])
  | drop c p np pgdir hcpu hpc =>
    rw [tree_goto, tree_setProc]
    exact .drop p np (by rcases hpc with hpc | hpc <;> simp [State.tree, hpc, Pc.making])
  | ready c p np hcpu hpc =>
    rw [tree_goto, tree_setProc]
    exact .ready p np (by simp [State.tree, hpc, Pc.making])
  | exit c p hcpu hpc hp =>
    rw [tree_exit hp]
    exact .exit p (h.live hcpu) (making_of_user (.inl hpc)) hp
  | reap c p q hcpu hpc hparent hzombie =>
    rw [State.reaped, tree_back (by exact hpc) (by rfl), tree_setProc]
    exact .reap p q (h.live hcpu) hparent (by simp [State.tree, Proc.node, hzombie, ProcState.kind])
  | waitFailed c p hcpu hpc hwhy =>
    rw [tree_back (by exact hpc) (by rfl)]
    cases hk : (s.proc p).killed with
    | true => exact .same _ (by simp [Event.quiet])
    | false => exact .childless p (h.live hcpu) (hwhy.resolve_right (by simp [hk]))
  | wait c p q hcpu hpc =>
    rw [tree_back (by exact hpc) (by rfl), Procs.sleep, tree_sched,
      tree_same (by simp [Proc.node, h.running c p hcpu, ProcState.kind])]
    exact .same [] (by simp)
  | kill p pid =>
    rw [tree_same]
    · exact .same _ (by simp [Event.quiet])
    · by_cases hs : (s.proc p).state = .SLEEPING <;> simp [Proc.node, hs, ProcState.kind]
  | noKill pid => exact .same _ (by simp [Event.quiet])
  | fault c p hcpu =>
    rw [tree_same (by rfl)]
    exact .same _ (by simp [Event.quiet])

end Simulation

section Places

variable {s s' : State C} {p q np : ProcId} {x : Proc} {pc : Pc} {c : C} {es : List (Event C)}

theorem place_woke {x y : Proc} (h : Place p x pc) (hchan : y.chan = x.chan)
    (hstate : y.state = x.state ∨ x.state = .SLEEPING ∧ y.state = .RUNNABLE) : Place p y pc := by
  rcases hstate with heq | ⟨-, hy⟩
  · simpa [Place, heq, hchan] using h
  · simp [Place, hy]

/-- An entry changes that is on no CPU before and after. -/
theorem Placed.setProc (h : Placed s) (hx : Place q x (s.pc q)) (hold : (s.proc q).state ≠ .RUNNING)
    (hnew : x.state ≠ .RUNNING) : Placed (s.setProc q x) where
  place r := by
    have hr := h.place r
    simp only [State.setProc, Function.update_apply]
    grind
  running c r hc := by
    have hr := h.running c r hc
    have hne : r ≠ q := fun heq => hold (heq ▸ hr)
    simpa [State.setProc, hne] using hr
  single := h.single
  busy r hr := by
    have hne : r ≠ q := fun heq => hnew (by simpa [State.setProc, heq] using hr)
    exact h.busy r (by simpa [State.setProc, hne] using hr)

theorem Placed.goto (h : Placed s) (hpc : Place p (s.proc p) pc) : Placed (s.goto p pc) where
  place r := by
    have hr := h.place r
    simp only [State.goto, Function.update_apply]
    grind
  running := h.running
  single := h.single
  busy := h.busy

/-- While `p` runs an entry changes, and where `p` goes on. -/
theorem Placed.make (h : Placed s) (hcpu : s.cpu c = some p) (hx : Place q x (s.pc q))
    (hold : (s.proc q).state ≠ .RUNNING) (hnew : x.state ≠ .RUNNING) :
    Placed ((s.setProc q x).goto p pc) := by
  have hset : Placed (s.setProc q x) := h.setProc hx hold hnew
  exact hset.goto (by simp [Place, hset.running c p hcpu])

/-- Entries are woken. -/
theorem Placed.woke {f : ProcId → Proc} (h : Placed s) (hchan : ∀ q, (f q).chan = (s.proc q).chan)
    (hstate : ∀ q, (f q).state = (s.proc q).state ∨ (s.proc q).state = .SLEEPING ∧
      (f q).state = .RUNNABLE) :
    Placed { s with proc := f } where
  place r := place_woke (h.place r) (hchan r) (hstate r)
  running c r hc := by
    have hr := h.running c r hc
    rcases hstate r with heq | ⟨hx, -⟩
    · exact heq.trans hr
    · rw [hr] at hx
      cases hx
  single := h.single
  busy r hr := by
    rcases hstate r with heq | ⟨-, hy⟩
    · exact h.busy r (heq ▸ hr)
    · simp [hy] at hr

variable [DecidableEq C]

/-- The process of a CPU stops to run. -/
theorem Placed.leave (h : Placed s) (hcpu : s.cpu c = some p) (hx : Place p x (s.pc p))
    (hnew : x.state ≠ .RUNNING) : Placed ((s.setProc p x).sched c) where
  place r := by
    have hr := h.place r
    simp only [State.sched, State.setProc, Function.update_apply]
    grind
  running c' r hc := by
    have hr := h.running c' r
    have hone := h.single c c' r
    simp only [State.sched, State.setProc, Function.update_apply] at hc ⊢
    grind
  single c' c'' r := by
    have hone := h.single c' c'' r
    simp only [State.sched, State.setProc, Function.update_apply]
    grind
  busy r hr := by
    have hne : r ≠ p := fun heq => hnew (by simpa [State.sched, State.setProc, heq] using hr)
    obtain ⟨c', hc'⟩ := h.busy r (by simpa [State.sched, State.setProc, hne] using hr)
    have hc : c' ≠ c := fun heq => hne (Option.some.inj (hc'.symm.trans (heq ▸ hcpu)))
    exact ⟨c', by simpa [State.sched, State.setProc, hc] using hc'⟩

theorem Placed.picked (h : Placed s) (hcpu : s.cpu c = none)
    (hstate : (s.proc p).state = .RUNNABLE) : Placed (s.picked c p) where
  place r := by
    have hr := h.place r
    simp only [State.picked, State.setProc, Function.update_apply]
    split
    · trivial
    · exact hr
  running c' r hc := by
    have hr := h.running c' r
    simp only [State.picked, State.setProc, Function.update_apply] at hc ⊢
    grind
  single c' c'' r := by
    have hone := h.single c' c'' r
    have hr := h.running c' r
    have hr' := h.running c'' r
    simp only [State.picked, State.setProc, Function.update_apply]
    grind
  busy r hr := by
    by_cases heq : r = p
    · exact ⟨c, by simp [State.picked, heq]⟩
    · obtain ⟨c', hc'⟩ := h.busy r (by simpa [State.picked, State.setProc, heq] using hr)
      have hc : c' ≠ c := fun heq' => by simp [heq', hcpu] at hc'
      exact ⟨c', by simpa [State.picked, hc] using hc'⟩

omit [DecidableEq C] in
/-- What the entry that is being made looks like. -/
theorem embryo_state (ht : s.tree.Inv) {b : Bool} (hpc : (s.pc p).making = some (np, b)) :
    (s.proc np).state = .EMBRYO := by
  have hkind : (s.proc np).state.kind = .embryo := (ht.making p np b hpc).2.1
  cases hs : (s.proc np).state <;> simp [hs, ProcState.kind] at hkind
  rfl

omit [DecidableEq C] in
theorem Placed.user_of_kind (h : Placed s) (hk : (s.proc p).state.kind ≠ .live) :
    s.pc p = .user := by
  have hp := h.place p
  cases hs : (s.proc p).state <;> simp [hs, ProcState.kind] at hk <;> simpa [Place, hs] using hp

theorem Move.placed (hm : Move s s' es) (h : Placed s) (ht : s.tree.Inv) : Placed s' := by
  cases hm with
  | pass c => exact ⟨h.place, h.running, h.single, h.busy⟩
  | pick c p hcpu hscan hstate => exact h.picked hcpu hstate
  | yield c p hcpu => exact h.leave hcpu trivial (by simp)
  | sleep c p n hcpu hpc => exact h.leave hcpu (.inl ⟨hpc, n, rfl⟩) (by simp)
  | wakeup n => exact h.woke (fun q => Proc.woken_chan) fun q => (s.proc q).woken_state _
  | full | noKill => exact h
  | alloc c p np hcpu hpc hfree =>
    have huser : s.pc np = .user := h.user_of_kind (by simp [hfree, ProcState.kind])
    have hset :
        Placed ((s.setProc np { s.proc np with state := .EMBRYO, pid := s.nextpid }).goto p
          (.stack np)) :=
      h.make hcpu huser (by simp [hfree]) (by simp)
    exact ⟨hset.place, hset.running, hset.single, hset.busy⟩
  | stack c p np hcpu hpc =>
    have hstate : (s.proc np).state = .EMBRYO := embryo_state ht (by rw [hpc]; rfl)
    exact h.make hcpu (h.place np) (by simp [hstate]) (by simp [hstate])
  | copy c p np hcpu hpc =>
    have hstate : (s.proc np).state = .EMBRYO := embryo_state ht (by rw [hpc]; rfl)
    exact h.make hcpu (h.place np) (by simp [hstate]) (by simp [hstate])
  | drop c p np pgdir hcpu hpc =>
    have hmaking : (s.pc p).making = some (np, false) := by
      rcases hpc with hpc | hpc <;> rw [hpc] <;> rfl
    have hstate : (s.proc np).state = .EMBRYO := embryo_state ht hmaking
    exact h.make hcpu (h.user_of_kind (by simp [hstate, ProcState.kind]))
      (by simp [hstate]) (by simp)
  | ready c p np hcpu hpc =>
    have hstate : (s.proc np).state = .EMBRYO := embryo_state ht (by rw [hpc]; rfl)
    exact h.make hcpu trivial (by simp [hstate]) (by simp)
  | exit c p hcpu hpc hp =>
    have hgone : Placed { s with proc := gone s p } :=
      h.woke (fun q => (woke_gone s p q).chan) fun q => (woke_gone s p q).state
    rw [exit_eq hp]
    exact hgone.leave hcpu hpc (by simp)
  | reap c p q hcpu hpc hparent hzombie =>
    exact h.make hcpu (h.user_of_kind (by simp [hzombie, ProcState.kind]))
      (by simp [hzombie]) (by simp)
  | waitFailed c p hcpu => exact h.goto (by simp [Place, h.running c p hcpu])
  | wait c p q hcpu =>
    have hgoto : Placed (s.goto p .wait) := h.goto (by simp [Place, h.running c p hcpu])
    exact hgoto.leave hcpu (.inr ⟨by simp [State.goto], rfl⟩) (by simp)
  | kill p pid =>
    apply h.woke
    · intro q
      simp only [Function.update_apply]
      grind
    · intro q
      simp only [Function.update_apply]
      grind
  | fault c p =>
    apply h.woke
    · intro q
      simp only [Function.update_apply]
      grind
    · intro q
      simp only [Function.update_apply]
      grind

/-- What every move keeps. -/
structure Sane (s : State C) : Prop where
  placed : Placed s
  tree : s.tree.Inv

theorem Move.sane (hm : Move s s' es) (h : Sane s) : Sane s' :=
  ⟨hm.placed h.placed h.tree, (hm.tree h.placed).inv h.tree⟩

omit [DecidableEq C] in
theorem sane_userinit : Sane (userinit C) where
  placed := by
    constructor
    · intro p
      by_cases hp : p = initproc <;> simp [userinit, Place, unused, hp]
    · simp [userinit]
    · simp [userinit]
    · intro p hp
      by_cases hp' : p = initproc <;> simp [userinit, unused, hp'] at hp
  tree := by
    constructor <;>
      simp [State.tree, userinit, Function.update_apply, Pc.making, unused, Proc.node,
        ProcState.kind]
    all_goals grind

end Places

end Cs3650.Xv6.Procs
