import Cs3650.Nush.Implement

/-!
# The decisions of `&&` and `||`

`and_cmd` and `or_cmd` (`implement.c:186-211`) see a status only. `trace` runs a
tree as `execute` does, but hands on what the status stands for: how the last
process of the tree has ended, and through which subshells its status came. It
records at every `&&` and `||` what the left side has handed on and whether the
right side is run; without the records it is `execute` (`trace_run`). The right
side of `||` is run after status 1, a process that a signal has killed counts as
0, and a `>` hands on 0 in its child and the child's own end in its parent.
-/

namespace Cs3650.Nush

/-- How the last process has ended, or the builtin `cd`; `nothing` if there was
no process to wait for. -/
inductive Ending
  | waited (fate : Fate)
  | cd (ok : Bool)
  | nothing
  deriving DecidableEq, Repr

namespace Ending

/-- What a call that ends so returns. -/
def status : Ending → Int
  | waited fate => fate.wexitstatus
  | cd ok => if ok then 0 else -1
  | nothing => 0

/-- A normal exit with code 0, or a successful `cd`. -/
def Succeeded : Ending → Prop
  | waited (.exits code) => code % 256 = 0
  | cd ok => ok = true
  | _ => False

/-- A successful `cd`, or a normal exit with code 0 or 1. -/
def Plain : Ending → Prop
  | waited (.exits code) => code % 256 ≤ 1
  | cd ok => ok = true
  | _ => False

end Ending

/-- The way from the last process to the call that returns. -/
inductive LeftSide
  | last (ending : Ending)
  /-- A subshell of `|` or `<` exits with the status. -/
  | subshell (inner : LeftSide)
  /-- The child of `>` returns 0. -/
  | returned (inner : LeftSide)
  /-- The parent of `>`: its child has left the `>` so, and ended as `child` later. -/
  | redirected (inner : LeftSide) (child : Fate)
  deriving DecidableEq, Repr

namespace LeftSide

def ending : LeftSide → Ending
  | last ending => ending
  | subshell inner | returned inner | redirected inner _ => inner.ending

def status : LeftSide → Int
  | last ending => ending.status
  | subshell inner => inner.status % 256
  | returned _ => 0
  | redirected _ child => child.wexitstatus

/-- When `&&` goes by the last process. A `>` hands on 0 in its child, and in its
parent what the child has made of the rest of the script. -/
def FitsAnd : LeftSide → Prop
  | last ending => ending ≠ .waited .killed
  | subshell inner => inner.FitsAnd
  | returned inner => inner.ending.Succeeded
  | redirected inner child => child.wexitstatus = 0 ↔ inner.ending.Succeeded

/-- When `||` goes by the last process. -/
def FitsOr : LeftSide → Prop
  | last ending => ending.Plain
  | subshell inner => inner.FitsOr
  | returned inner => inner.ending.Succeeded
  | redirected inner child => child.wexitstatus = 1 ↔ ¬ inner.ending.Succeeded

end LeftSide

inductive Event
  | did (action : Action)
  /-- The left side of `a oper b` has handed on `left`, and `b` is run or not. -/
  | decided (oper : Oper) (a b : Astree) (left : LeftSide) (ran : Bool)
  deriving DecidableEq, Repr

/-- The run of a process. `outcome` is for a parent that waits for it: how the call
has ended in a subshell, and how the left side has ended in the child of a `>`. -/
structure Trace where
  fate : Fate
  log : List Event
  outcome : LeftSide

def Trace.after (t : Trace) (log : List Event) : Trace := { t with log := log ++ t.log }

def actions (log : List Event) : List Action :=
  log.filterMap fun
    | .did action => some action
    | .decided .. => none

/-- The run without the records. -/
def Trace.run (t : Trace) : Run := ⟨t.fate, actions t.log⟩

abbrev TraceCont := Nat → LeftSide → Shell → Oracle → Trace

abbrev TraceExec := Nat → Shell → Oracle → TraceCont → Trace

def traceCrash (gen : Nat) : Trace :=
  ⟨.killed, [.did (.crashed gen)], .last (.waited .killed)⟩

def traceExit : TraceCont := fun _ left _ _ => ⟨(exitWith left.status).fate, [], left⟩

/-- The parent after `waitpid`, with what it hands on. -/
def traceWait (child : Trace) (left : LeftSide) (gen : Nat) (s : Shell) (o : Oracle)
    (k : TraceCont) : Trace :=
  (k gen left s o).after child.log

def traceCmd (words : List String) : TraceExec := fun gen s o k =>
  match words with
  | [] => traceCrash gen
  | input :: args =>
    if input = "cd" then
      match args with
      | [] => traceCrash gen
      | dir :: _ =>
        if o.next.cdOk then k gen (.last (.cd true)) (s ++ [dir]) o.rest
        else k gen (.last (.cd false)) s o.rest
    else if input = "exit" then
      ⟨.exits 0, [.did (.exitBuiltin gen)], .last (.waited (.exits 0))⟩
    else (k gen (.last (.waited o.next.fate)) s o.rest).after [.did (.ran (gen + 1) words)]

/-- `or_cmd` and `and_cmd` differ in the status after which `b` is run. -/
def traceChoice (oper : Oper) (wanted : Int) (a b : Astree) (branch1 branch2 : TraceExec) :
    TraceExec := fun gen s o k =>
  branch1 gen s o fun gen' left s' o' =>
    (if left.status = wanted then branch2 gen' s' o' k else k gen' left s' o').after
      [.decided oper a b left (decide (left.status = wanted))]

def traceReturning (caller : Nat) (k : TraceCont) : TraceCont := fun gen left s o =>
  (k gen left s o).after [.did (.returned caller gen)]

def trace : Astree → TraceExec
  | .null => fun gen s o k => traceReturning gen k gen (.last .nothing) s o
  | .cmd words => fun gen s o k => traceCmd words gen s o (traceReturning gen k)
  | .op oper a b => fun gen s o k =>
    let k' := traceReturning gen k
    match oper with
    | .semicolon =>
      trace a gen s o fun gen' left s' o' =>
        if b ≠ .null then trace b gen' s' o' k' else k' gen' left s' o'
    | .background =>
      let child := trace a (gen + 1) s o.child fun _ left _ _ => ⟨(exitWith 0).fate, [], left⟩
      let parent :=
        if b ≠ .null then trace b gen s o.parent k' else k' gen (.last .nothing) s o.parent
      parent.after child.log
    | .or => traceChoice .or 1 a b (trace a) (trace b) gen s o k'
    | .and => traceChoice .and 0 a b (trace a) (trace b) gen s o k'
    | .pipe =>
      let child2 := trace a (gen + 2) s o.child.child traceExit
      let child1 := trace b (gen + 1) s o.child.parent traceExit
      traceWait (child1.after child2.log) (.subshell child1.outcome) gen s o.parent k'
    | .rdrIn =>
      let child :=
        match fileName b with
        | none => traceCrash (gen + 1)
        | some _ => trace a (gen + 1) s o.child traceExit
      traceWait child (.subshell child.outcome) gen s o.parent k'
    | .rdrOut =>
      let child :=
        match fileName b with
        | none => traceCrash (gen + 1)
        | some _ => trace a (gen + 1) s o.child fun gen' left s' o' =>
            { k' gen' (.returned left) s' o' with outcome := left }
      traceWait child (.redirected child.outcome child.fate) gen s o.parent k'

def traceLine (t : Astree) (s : Shell) (o : Oracle) (ends : Nat → Int → Shell → Oracle → Fate) :
    Trace :=
  trace t 0 s o fun gen left s o =>
    ⟨ends gen left.status s o, [.did (.lineDone gen)], left⟩

/-! ## Statuses -/

theorem Fate.wexitstatus_range (fate : Fate) : 0 ≤ fate.wexitstatus ∧ fate.wexitstatus < 256 := by
  cases fate with
  | exits code =>
    show (0 : Int) ≤ ((code % 256 : Nat) : Int) ∧ ((code % 256 : Nat) : Int) < 256
    omega
  | killed => decide

theorem LeftSide.status_range (left : LeftSide) : -1 ≤ left.status ∧ left.status < 256 := by
  cases left with
  | last ending =>
    cases ending with
    | waited fate =>
      have hrange := fate.wexitstatus_range
      exact ⟨Int.le_trans (by decide) hrange.1, hrange.2⟩
    | cd ok => cases ok <;> decide
    | nothing => decide
  | subshell inner =>
    show -1 ≤ inner.status % 256 ∧ inner.status % 256 < 256
    omega
  | returned inner =>
    show -1 ≤ (0 : Int) ∧ (0 : Int) < 256
    decide
  | redirected inner child =>
    have hrange := child.wexitstatus_range
    exact ⟨Int.le_trans (by decide) hrange.1, hrange.2⟩

/-- The parent sees what the process has handed on to `exit`. -/
def Trace.Sound (t : Trace) : Prop := t.fate.wexitstatus = t.outcome.status % 256

theorem sound_exit (gen : Nat) (left : LeftSide) (s : Shell) (o : Oracle) :
    (traceExit gen left s o).Sound := by
  show (((left.status % 256).toNat % 256 : Nat) : Int) = left.status % 256
  omega

theorem sound_crash (gen : Nat) : (traceCrash gen).Sound := rfl

theorem sound_cmd (words : List String) (gen : Nat) (s : Shell) (o : Oracle) {k : TraceCont}
    (hk : ∀ gen left s o, (k gen left s o).Sound) : (traceCmd words gen s o k).Sound := by
  unfold traceCmd
  cases words with
  | nil => exact sound_crash gen
  | cons input args =>
    dsimp only
    split
    · cases args with
      | nil => exact sound_crash gen
      | cons dir args =>
        dsimp only
        split <;> exact hk _ _ _ _
    · split
      · rfl
      · exact hk _ _ _ _

theorem trace_sound (t : Astree) (gen : Nat) (s : Shell) (o : Oracle) (k : TraceCont)
    (hk : ∀ gen left s o, (k gen left s o).Sound) : (trace t gen s o k).Sound := by
  induction t generalizing gen s o k with
  | null => exact hk _ _ _ _
  | cmd words => exact sound_cmd words gen s o hk
  | op oper a b iha ihb =>
    cases oper with
    | semicolon =>
      apply iha
      intro gen' left s' o'
      split
      · exact ihb _ _ _ _ hk
      · exact hk _ _ _ _
    | background =>
      show (ite _ _ _ : Trace).Sound
      split
      · exact ihb _ _ _ _ hk
      · exact hk _ _ _ _
    | or | and =>
      apply iha
      intro gen' left s' o'
      show (ite _ _ _ : Trace).Sound
      split
      · exact ihb _ _ _ _ hk
      · exact hk _ _ _ _
    | pipe | rdrIn | rdrOut => exact hk _ _ _ _

/-! ## Without the records -/

theorem Trace.run_after (t : Trace) (L : List Event) :
    (t.after L).run = t.run.after (actions L) := by
  simp only [Trace.run, Trace.after, Run.after, actions, List.filterMap_append]

/-- The continuations do the same, apart from the records. -/
def SameCont (k : TraceCont) (k₀ : Cont) : Prop :=
  ∀ gen left s o, (k gen left s o).run = k₀ gen left.status s o

theorem SameCont.returning {k : TraceCont} {k₀ : Cont} (h : SameCont k k₀) (caller : Nat) :
    SameCont (traceReturning caller k) (returning caller k₀) := by
  intro gen left s o
  rw [traceReturning, Trace.run_after, h gen left s o]
  rfl

theorem sameCont_exit : SameCont traceExit fun _ status _ _ => exitWith status :=
  fun _ _ _ _ => rfl

theorem traceWait_run {child : Trace} {child₀ : Run} (hchild : child.run = child₀) {left : LeftSide}
    (hleft : left.status = child.fate.wexitstatus) {k : TraceCont} {k₀ : Cont} (hk : SameCont k k₀)
    (gen : Nat) (s : Shell) (o : Oracle) :
    (traceWait child left gen s o k).run = afterWait child₀ gen s o k₀ := by
  subst hchild
  rw [traceWait, Trace.run_after, hk, hleft]
  rfl

theorem traceCmd_run (words : List String) (gen : Nat) (s : Shell) (o : Oracle) {k : TraceCont}
    {k₀ : Cont} (hk : SameCont k k₀) :
    (traceCmd words gen s o k).run = executeCmd words gen s o k₀ := by
  unfold traceCmd executeCmd
  cases words with
  | nil => rfl
  | cons input args =>
    dsimp only
    split
    · cases args with
      | nil => rfl
      | cons dir args =>
        dsimp only
        split <;> exact hk _ _ _ _
    · split
      · rfl
      · rw [Trace.run_after, hk]
        rfl

theorem traceChoice_run {oper : Oper} {wanted : Int} {a b : Astree} {x y : TraceExec}
    {x₀ y₀ : Exec}
    (hx : ∀ gen s o k k₀, SameCont k k₀ → (x gen s o k).run = x₀ gen s o k₀)
    (hy : ∀ gen s o k k₀, SameCont k k₀ → (y gen s o k).run = y₀ gen s o k₀)
    (gen : Nat) (s : Shell) (o : Oracle) {k : TraceCont} {k₀ : Cont} (hk : SameCont k k₀) :
    (traceChoice oper wanted a b x y gen s o k).run =
      x₀ gen s o fun gen' first s' o' =>
        if first = wanted then y₀ gen' s' o' k₀ else k₀ gen' first s' o' := by
  apply hx
  intro gen' left s' o'
  rw [Trace.run_after]
  show (if left.status = wanted then y gen' s' o' k else k gen' left s' o').run = _
  dsimp only
  split
  · exact hy _ _ _ _ _ hk
  · exact hk _ _ _ _

theorem trace_run (t : Astree) (gen : Nat) (s : Shell) (o : Oracle) (k : TraceCont) (k₀ : Cont)
    (hk : SameCont k k₀) : (trace t gen s o k).run = execute t gen s o k₀ := by
  induction t generalizing gen s o k k₀ with
  | null => exact hk.returning gen gen (.last .nothing) s o
  | cmd words => exact traceCmd_run words gen s o (hk.returning gen)
  | op oper a b iha ihb =>
    have hk' := hk.returning gen
    cases oper with
    | semicolon =>
      apply iha
      intro gen' left s' o'
      by_cases hb : b = .null
      · simpa [hb] using hk' gen' left s' o'
      · simpa [hb] using ihb gen' s' o' _ _ hk'
    | background =>
      have hchild := iha (gen + 1) s o.child (fun _ left _ _ => ⟨(exitWith 0).fate, [], left⟩)
        (fun _ _ _ _ => exitWith 0) fun _ _ _ _ => rfl
      have hparent : (if b ≠ .null then trace b gen s o.parent (traceReturning gen k)
          else traceReturning gen k gen (.last .nothing) s o.parent).run =
          if decide (b ≠ .null) then execute b gen s o.parent (returning gen k₀)
          else returning gen k₀ gen 0 s o.parent := by
        by_cases hb : b = .null
        · have hnull := hk' gen (.last .nothing) s o.parent
          simpa [hb, LeftSide.status, Ending.status] using hnull
        · simpa [hb] using ihb gen s o.parent _ _ hk'
      exact (Trace.run_after _ _).trans
        (congrArg₂ Run.after hparent (congrArg Run.log hchild))
    | or => exact traceChoice_run iha ihb gen s o hk'
    | and => exact traceChoice_run iha ihb gen s o hk'
    | pipe =>
      have hchild2 := iha (gen + 2) s o.child.child _ _ sameCont_exit
      have hchild1 := ihb (gen + 1) s o.child.parent _ _ sameCont_exit
      have hchildren : ((trace b (gen + 1) s o.child.parent traceExit).after
          (trace a (gen + 2) s o.child.child traceExit).log).run = _ :=
        (Trace.run_after _ _).trans (congrArg₂ Run.after hchild1 (congrArg Run.log hchild2))
      have hsound :
          (LeftSide.subshell (trace b (gen + 1) s o.child.parent traceExit).outcome).status =
          (trace b (gen + 1) s o.child.parent traceExit).fate.wexitstatus :=
        (trace_sound b (gen + 1) s o.child.parent _ sound_exit).symm
      exact traceWait_run hchildren hsound hk' gen s o.parent
    | rdrIn =>
      cases hname : fileName b with
      | none =>
        simp only [trace, execute, rdrInCmd, hname]
        exact traceWait_run rfl rfl hk' gen s o.parent
      | some path =>
        simp only [trace, execute, rdrInCmd, hname]
        have hsound : (LeftSide.subshell (trace a (gen + 1) s o.child traceExit).outcome).status =
            (trace a (gen + 1) s o.child traceExit).fate.wexitstatus :=
          (trace_sound a (gen + 1) s o.child _ sound_exit).symm
        exact traceWait_run (iha (gen + 1) s o.child _ _ sameCont_exit) hsound hk' gen s o.parent
    | rdrOut =>
      apply traceWait_run _ rfl hk'
      cases fileName b with
      | none => rfl
      | some path =>
        exact iha (gen + 1) s o.child _ _ fun gen' left s' o' => hk' gen' (.returned left) s' o'

theorem traceLine_run (t : Astree) (s : Shell) (o : Oracle)
    (ends : Nat → Int → Shell → Oracle → Fate) :
    (traceLine t s o ends).run = executeLine t s o ends :=
  trace_run t 0 s o _ _ fun _ _ _ _ => rfl

/-! ## The decisions -/

/-- All records say what `or_cmd` and `and_cmd` do with the status. -/
def Faithful (L : List Event) : Prop :=
  ∀ oper a b left ran, .decided oper a b left ran ∈ L →
    (oper = .or ∧ ran = decide (left.status = 1)) ∨ (oper = .and ∧ ran = decide (left.status = 0))

theorem Faithful.append {L M : List Event} (hL : Faithful L) (hM : Faithful M) :
    Faithful (L ++ M) := by
  intro oper a b left ran h
  rcases List.mem_append.mp h with h | h
  · exact hL oper a b left ran h
  · exact hM oper a b left ran h

theorem faithful_did (action : Action) : Faithful [.did action] := by
  intro oper a b left ran h
  simp at h

theorem faithful_nil : Faithful [] := by
  intro oper a b left ran h
  cases h

theorem faithful_exit (gen : Nat) (left : LeftSide) (s : Shell) (o : Oracle) :
    Faithful (traceExit gen left s o).log := faithful_nil

theorem faithful_cmd (words : List String) (gen : Nat) (s : Shell) (o : Oracle) {k : TraceCont}
    (hk : ∀ gen left s o, Faithful (k gen left s o).log) :
    Faithful (traceCmd words gen s o k).log := by
  unfold traceCmd
  cases words with
  | nil => exact faithful_did _
  | cons input args =>
    dsimp only
    split
    · cases args with
      | nil => exact faithful_did _
      | cons dir args =>
        dsimp only
        split <;> exact hk _ _ _ _
    · split
      · exact faithful_did _
      · exact (faithful_did _).append (hk _ _ _ _)

theorem faithful_choice {oper : Oper} {wanted : Int} {a b : Astree} {x y : TraceExec}
    (hoper : (oper = .or ∧ wanted = 1) ∨ (oper = .and ∧ wanted = 0))
    (hx : ∀ gen s o k, (∀ gen left s o, Faithful (k gen left s o).log) →
      Faithful (x gen s o k).log)
    (hy : ∀ gen s o k, (∀ gen left s o, Faithful (k gen left s o).log) →
      Faithful (y gen s o k).log)
    (gen : Nat) (s : Shell) (o : Oracle) {k : TraceCont}
    (hk : ∀ gen left s o, Faithful (k gen left s o).log) :
    Faithful (traceChoice oper wanted a b x y gen s o k).log := by
  apply hx
  intro gen' left s' o'
  have hhere : Faithful [.decided oper a b left (decide (left.status = wanted))] := by
    intro oper' a' b' left' ran h
    obtain ⟨rfl, -, -, rfl, rfl⟩ := by simpa using h
    rcases hoper with ⟨rfl, rfl⟩ | ⟨rfl, rfl⟩
    · exact Or.inl ⟨rfl, rfl⟩
    · exact Or.inr ⟨rfl, rfl⟩
  apply hhere.append
  split
  · exact hy _ _ _ _ hk
  · exact hk _ _ _ _

theorem trace_faithful (t : Astree) (gen : Nat) (s : Shell) (o : Oracle) (k : TraceCont)
    (hk : ∀ gen left s o, Faithful (k gen left s o).log) :
    Faithful (trace t gen s o k).log := by
  induction t generalizing gen s o k with
  | null => exact (faithful_did _).append (hk _ _ _ _)
  | cmd words =>
    exact faithful_cmd words gen s o fun _ _ _ _ => (faithful_did _).append (hk _ _ _ _)
  | op oper a b iha ihb =>
    have hk' : ∀ gen' left s o, Faithful (traceReturning gen k gen' left s o).log :=
      fun _ _ _ _ => (faithful_did _).append (hk _ _ _ _)
    cases oper with
    | semicolon =>
      apply iha
      intro gen' left s' o'
      split
      · exact ihb _ _ _ _ hk'
      · exact hk' _ _ _ _
    | background =>
      apply Faithful.append (iha _ _ _ _ fun _ _ _ _ => faithful_nil)
      split
      · exact ihb _ _ _ _ hk'
      · exact hk' _ _ _ _
    | or => exact faithful_choice (Or.inl ⟨rfl, rfl⟩) iha ihb gen s o hk'
    | and => exact faithful_choice (Or.inr ⟨rfl, rfl⟩) iha ihb gen s o hk'
    | pipe =>
      have hchildren := (iha (gen + 2) s o.child.child _ faithful_exit).append
        (ihb (gen + 1) s o.child.parent _ faithful_exit)
      exact hchildren.append (hk' _ _ _ _)
    | rdrIn =>
      refine Faithful.append ?_ (hk' _ _ _ _)
      cases fileName b with
      | none => exact faithful_did _
      | some path => exact iha _ _ _ _ faithful_exit
    | rdrOut =>
      refine Faithful.append ?_ (hk' _ _ _ _)
      cases fileName b with
      | none => exact faithful_did _
      | some path => exact iha _ _ _ _ fun _ _ _ _ => hk' _ _ _ _

/-- In some run of some line the left side of `a oper b` has handed on `left`,
and then `b` was run, or was not. -/
def Decides (oper : Oper) (a b : Astree) (left : LeftSide) (ran : Bool) : Prop :=
  ∃ t s o ends, .decided oper a b left ran ∈ (traceLine t s o ends).log

theorem Decides.ran_eq {oper : Oper} {a b : Astree} {left : LeftSide} {ran : Bool}
    (h : Decides oper a b left ran) :
    (oper = .or ∧ ran = decide (left.status = 1)) ∨
    (oper = .and ∧ ran = decide (left.status = 0)) := by
  obtain ⟨t, s, o, ends, hmem⟩ := h
  exact trace_faithful t 0 s o _ (fun _ _ _ _ => faithful_did _) _ _ _ _ _ hmem

theorem and_right_iff {left : LeftSide} (h : left.ending ≠ .nothing) :
    (left.status = 0 ↔ left.ending.Succeeded) ↔ left.FitsAnd := by
  induction left with
  | last ending =>
    match ending with
    | .waited (.exits code) =>
      have hstatus : LeftSide.status (.last (.waited (.exits code))) = 0 ↔ code % 256 = 0 :=
        Int.natCast_eq_zero
      simp [hstatus, LeftSide.ending, Ending.Succeeded, LeftSide.FitsAnd]
    | .waited .killed =>
      simp [LeftSide.status, Ending.status, Fate.wexitstatus, LeftSide.ending, Ending.Succeeded,
        LeftSide.FitsAnd]
    | .cd ok =>
      cases ok <;>
        simp [LeftSide.status, Ending.status, LeftSide.ending, Ending.Succeeded, LeftSide.FitsAnd]
    | .nothing => exact absurd rfl h
  | subshell inner ih =>
    have hrange := inner.status_range
    have hzero : inner.status % 256 = 0 ↔ inner.status = 0 := by omega
    exact (iff_congr hzero Iff.rfl).trans (ih h)
  | returned inner =>
    show ((0 : Int) = 0 ↔ inner.ending.Succeeded) ↔ inner.ending.Succeeded
    simp
  | redirected inner child => exact Iff.rfl

theorem or_right_iff {left : LeftSide} (h : left.ending ≠ .nothing) :
    (left.status = 1 ↔ ¬ left.ending.Succeeded) ↔ left.FitsOr := by
  induction left with
  | last ending =>
    match ending with
    | .waited (.exits code) =>
      have hstatus : LeftSide.status (.last (.waited (.exits code))) = 1 ↔ code % 256 = 1 := by
        show ((code % 256 : Nat) : Int) = 1 ↔ _
        omega
      rw [hstatus]
      show (_ ↔ ¬ code % 256 = 0) ↔ code % 256 ≤ 1
      omega
    | .waited .killed =>
      simp [LeftSide.status, Ending.status, Fate.wexitstatus, LeftSide.ending, Ending.Succeeded,
        LeftSide.FitsOr, Ending.Plain]
    | .cd ok =>
      cases ok <;> simp [LeftSide.status, Ending.status, LeftSide.ending, Ending.Succeeded,
        LeftSide.FitsOr, Ending.Plain]
    | .nothing => exact absurd rfl h
  | subshell inner ih =>
    have hrange := inner.status_range
    have hone : inner.status % 256 = 1 ↔ inner.status = 1 := by omega
    exact (iff_congr hone Iff.rfl).trans (ih h)
  | returned inner =>
    show ((0 : Int) = 1 ↔ ¬ inner.ending.Succeeded) ↔ inner.ending.Succeeded
    simp
  | redirected inner child => exact Iff.rfl

/-- `false > f || echo`: nothing runs `echo`, the child because its `>` has handed
on 0, and the parent because the child has ended with 0. -/
example : Event.decided .or (.op .rdrOut (.cmd ["false"]) (.cmd ["f"])) (.cmd ["echo"])
      (.returned (.last (.waited (.exits 1)))) false ∈
        (traceLine (.op .or (.op .rdrOut (.cmd ["false"]) (.cmd ["f"])) (.cmd ["echo"])) []
          (fun _ => ⟨.exits 1, true⟩) fun _ _ _ _ => .exits 0).log ∧
    Event.decided .or (.op .rdrOut (.cmd ["false"]) (.cmd ["f"])) (.cmd ["echo"])
      (.redirected (.last (.waited (.exits 1))) (.exits 0)) false ∈
        (traceLine (.op .or (.op .rdrOut (.cmd ["false"]) (.cmd ["f"])) (.cmd ["echo"])) []
          (fun _ => ⟨.exits 1, true⟩) fun _ _ _ _ => .exits 0).log := by
  decide

end Cs3650.Nush
