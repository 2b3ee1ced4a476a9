import Cs3650.Nush.Astree

/-!
# Executing a syntax tree (chal1/challenge01/implement.c)

A process that calls `execute` goes on with whatever its caller does next, and
so does every forked child that returns from the call instead of ending inside
it. `execute` therefore takes the rest of the program as a continuation, and
the result says how the calling process ends and what it and its descendants
did. Processes are told apart by their generation: the number of forks between
them and the process in which the line was started.

`fork`, `pipe` and `dup` succeed. What external commands and `chdir` answer is
read from an oracle; the two sides of a fork read independent parts of it. The
shell state is the list of directories changed to so far.
-/

namespace Cs3650.Nush

/-- How a process ends. A failed assertion and a null dereference are signals. -/
inductive Fate
  | exits (code : Nat)
  | killed
  deriving DecidableEq, Repr

/-- `WEXITSTATUS` of what `waitpid` stores. -/
def Fate.wexitstatus : Fate → Int
  | .exits code => ((code % 256 : Nat) : Int)
  | .killed => 0

structure Answer where
  fate : Fate
  cdOk : Bool

/-- The answers of the world, first needed first. -/
abbrev Oracle := Nat → Answer

namespace Oracle

def next (o : Oracle) : Answer := o 0
def rest (o : Oracle) : Oracle := fun n => o (n + 1)
def child (o : Oracle) : Oracle := fun n => o (2 * n)
def parent (o : Oracle) : Oracle := fun n => o (2 * n + 1)

end Oracle

abbrev Shell := List String

inductive Action
  | ran (gen : Nat) (words : List String)
  | exitBuiltin (gen : Nat)
  | crashed (gen : Nat)
  /-- A call of `execute` made by generation `caller` returned in `gen`. -/
  | returned (caller gen : Nat)
  /-- The call for the whole line returned in `gen`. -/
  | lineDone (gen : Nat)
  deriving DecidableEq, Repr

structure Run where
  fate : Fate
  log : List Action

def Run.after (r : Run) (log : List Action) : Run := ⟨r.fate, log ++ r.log⟩

/-- What a process does when a call returns in it: its generation, the status,
the shell state and the oracle from there on. -/
abbrev Cont := Nat → Int → Shell → Oracle → Run

abbrev Exec := Nat → Shell → Oracle → Cont → Run

/-- `exit(status)`. -/
def exitWith (status : Int) : Run := ⟨.exits (status % 256).toNat, []⟩

def crash (gen : Nat) : Run := ⟨.killed, [.crashed gen]⟩

/-- The parent after `waitpid`: it goes on with the child's exit status. -/
def afterWait (child : Run) (gen : Nat) (s : Shell) (o : Oracle) (k : Cont) : Run :=
  (k gen child.fate.wexitstatus s o).after child.log

def executeCmd (words : List String) : Exec := fun gen s o k =>
  match words with
  | [] => crash gen
  | input :: args =>
    if input = "cd" then
      match args with
      | [] => crash gen
      | dir :: _ => if o.next.cdOk then k gen 0 (s ++ [dir]) o.rest else k gen (-1) s o.rest
    else if input = "exit" then ⟨.exits 0, [.exitBuiltin gen]⟩
    else afterWait ⟨o.next.fate, [.ran (gen + 1) words]⟩ gen s o.rest k

def semicolonCmd (branch1 branch2 : Exec) (hasBranch2 : Bool) : Exec := fun gen s o k =>
  branch1 gen s o fun gen' first s' o' =>
    if hasBranch2 then branch2 gen' s' o' k else k gen' first s' o'

def backgroundCmd (branch1 branch2 : Exec) (hasBranch2 : Bool) : Exec := fun gen s o k =>
  let child := branch1 (gen + 1) s o.child fun _ _ _ _ => exitWith 0
  let parent := if hasBranch2 then branch2 gen s o.parent k else k gen 0 s o.parent
  parent.after child.log

def orCmd (branch1 branch2 : Exec) : Exec := fun gen s o k =>
  branch1 gen s o fun gen' first s' o' =>
    if first = 1 then branch2 gen' s' o' k else k gen' first s' o'

def andCmd (branch1 branch2 : Exec) : Exec := fun gen s o k =>
  branch1 gen s o fun gen' first s' o' =>
    if first = 0 then branch2 gen' s' o' k else k gen' first s' o'

def pipeCmd (branch1 branch2 : Exec) : Exec := fun gen s o k =>
  let child2 := branch1 (gen + 2) s o.child.child fun _ status _ _ => exitWith status
  let child1 := branch2 (gen + 1) s o.child.parent fun _ status _ _ => exitWith status
  afterWait (child1.after child2.log) gen s o.parent k

/-- `svec_get(ast->branch2->cmd, 0)`; there is no name in a null branch, in an
operator node or in an empty vector. -/
def fileName : Astree → Option String
  | .cmd (path :: _) => some path
  | _ => none

def rdrInCmd (branch1 : Exec) (branch2 : Astree) : Exec := fun gen s o k =>
  let child :=
    match fileName branch2 with
    | none => crash (gen + 1)
    | some _ => branch1 (gen + 1) s o.child fun _ status _ _ => exitWith status
  afterWait child gen s o.parent k

/-- The child has no `exit` behind `execute(ast->branch1)`: it falls through to
`return 0`. -/
def rdrOutCmd (branch1 : Exec) (branch2 : Astree) : Exec := fun gen s o k =>
  let child :=
    match fileName branch2 with
    | none => crash (gen + 1)
    | some _ => branch1 (gen + 1) s o.child fun gen' _ s' o' => k gen' 0 s' o'
  afterWait child gen s o.parent k

/-- The call made by `caller` returns. -/
def returning (caller : Nat) (k : Cont) : Cont := fun gen status s o =>
  (k gen status s o).after [.returned caller gen]

/-- `execute` together with `run`. -/
def execute : Astree → Exec
  | .null => fun gen s o k => returning gen k gen 0 s o
  | .cmd words => fun gen s o k => executeCmd words gen s o (returning gen k)
  | .op oper a b => fun gen s o k =>
    let k' := returning gen k
    match oper with
    | .semicolon => semicolonCmd (execute a) (execute b) (b ≠ .null) gen s o k'
    | .background => backgroundCmd (execute a) (execute b) (b ≠ .null) gen s o k'
    | .or => orCmd (execute a) (execute b) gen s o k'
    | .and => andCmd (execute a) (execute b) gen s o k'
    | .pipe => pipeCmd (execute a) (execute b) gen s o k'
    | .rdrIn => rdrInCmd (execute a) b gen s o k'
    | .rdrOut => rdrOutCmd (execute a) b gen s o k'

/-- `execute` for a line, in a process that ends as `ends` says once the call
has returned in it. -/
def executeLine (t : Astree) (s : Shell) (o : Oracle) (ends : Nat → Int → Shell → Oracle → Fate) :
    Run :=
  execute t 0 s o fun gen status s o => ⟨ends gen status s o, [.lineDone gen]⟩

def Action.isLineDone : Action → Bool
  | .lineDone _ => true
  | _ => false

/-- Every call of `execute` returns in the process that made it only, no
process dies by a signal of its own making, and the call for the line returns
once, in the process that made it, unless that process ran `exit`. -/
def Disciplined (r : Run) : Prop :=
  (∀ a ∈ r.log, ∀ caller gen, a = .returned caller gen → gen = caller) ∧
  (∀ gen, Action.crashed gen ∉ r.log) ∧
  (r.log.filter Action.isLineDone = [.lineDone 0] ∨
    (r.log.filter Action.isLineDone = [] ∧ Action.exitBuiltin 0 ∈ r.log))

end Cs3650.Nush
