import Cs3650.Lib.Machine
import Mathlib.Data.List.FinRange
import Mathlib.Logic.Function.Basic

/-!
# Processes (hw09/starter-hw09/xv6: proc.c, and of trap.c what sets `killed`)

The CPUs and the processes they run, in any interleaving. What runs under
`ptable.lock` is one step, with the `sched` at its end and the part of the
scheduler up to its next choice. A panic is `none`, and so is the fork that would
carry `nextpid` over the top of an `int`.
-/

namespace Cs3650.Xv6.Procs

open Cs3650.Lib

def NPROC : Nat := 64

def INT_MAX : Int := 2147483647

/-- A place in `ptable.proc`. -/
abbrev ProcId := Fin NPROC

/-- `userinit` takes the first place. -/
def initproc : ProcId := ⟨0, Nat.succ_pos 63⟩

inductive ProcState
  | UNUSED
  | EMBRYO
  | SLEEPING
  | RUNNABLE
  | RUNNING
  | ZOMBIE
  deriving DecidableEq, Repr

/-- `wait` sleeps on the address of the own `struct proc`. -/
inductive Chan
  | proc (p : ProcId)
  | other (n : Nat)
  deriving DecidableEq, Repr

/-- Of `kstack` and `pgdir`, whether they are not null. -/
structure Proc where
  state : ProcState
  pid : Int
  parent : Option ProcId
  chan : Option Chan
  killed : Bool
  kstack : Bool
  pgdir : Bool
  deriving DecidableEq, Repr

/-- The body of the loop of `wakeup1`. -/
def Proc.woken (chan : Option Chan) (x : Proc) : Proc :=
  if x.state = .SLEEPING ∧ x.chan = chan then { x with state := .RUNNABLE } else x

/-- Where a process goes on when it runs. -/
inductive Pc
  /-- anywhere but in `fork` and `wait` -/
  | user
  /-- `kalloc` of `allocproc` in `fork` -/
  | stack (np : ProcId)
  /-- `copyuvm` and the copying after it -/
  | copy (np : ProcId)
  /-- the end of `fork` -/
  | ready (np : ProcId)
  /-- after the `sleep` of `wait` -/
  | wait
  deriving DecidableEq, Repr

structure State (C : Type) where
  proc : ProcId → Proc
  nextpid : Int
  pc : ProcId → Pc
  /-- `cpus[c].proc` -/
  cpu : C → Option ProcId
  /-- `p` of the loop of `scheduler` -/
  scan : C → Nat

/-- With the pid of who does it, and of the child. -/
inductive Event (C : Type)
  | scheduled (c : C) (p : ProcId)
  | forked (pid child : Int)
  | forkFailed (pid : Int)
  | exited (pid : Int)
  | reaped (pid child : Int)
  | waitFailed (pid : Int) (killed : Bool)
  | killed (pid : Int) (found : Bool)
  | faulted (pid : Int)
  deriving DecidableEq, Repr

inductive Action (C : Type)
  | scheduler (c : C)
  | yield (c : C)
  | sleep (c : C) (n : Nat)
  | wakeup (n : Nat)
  | fork (c : C)
  /-- the next part of `fork`, and whether there is memory for it -/
  | run (c : C) (memory : Bool)
  | exit (c : C)
  | wait (c : C)
  | kill (c : C) (pid : Int)
  /-- a trap of user code that is no system call and no interrupt -/
  | fault (c : C)
  deriving DecidableEq, Repr

section Step

variable {C : Type} [DecidableEq C]

def State.setProc (s : State C) (p : ProcId) (x : Proc) : State C :=
  { s with proc := Function.update s.proc p x }

def State.goto (s : State C) (p : ProcId) (x : Pc) : State C :=
  { s with pc := Function.update s.pc p x }

/-- `c` is back in the scheduler. -/
def State.sched (s : State C) (c : C) : State C := { s with cpu := Function.update s.cpu c none }

/-- The first place in the table that passes a test. -/
def State.first (s : State C) (test : ProcId → Proc → Bool) : Option ProcId :=
  (List.finRange NPROC).find? fun p => test p (s.proc p)

def wakeup1 (s : State C) (chan : Option Chan) : State C :=
  { s with proc := fun p => (s.proc p).woken chan }

def sleep (s : State C) (c : C) (p : ProcId) (chan : Chan) : State C :=
  (s.setProc p { s.proc p with chan := some chan, state := .SLEEPING }).sched c

/-- `allocproc` as far as `ptable.lock` is held. -/
def allocproc (s : State C) (np : ProcId) : State C :=
  { s.setProc np { s.proc np with state := .EMBRYO, pid := s.nextpid } with
    nextpid := s.nextpid + 1 }

/-- `wait` clears the entry of the child. -/
def State.reaped (s : State C) (p q : ProcId) : State C :=
  (s.setProc q { s.proc q with
    kstack := false, pid := 0, parent := none, killed := false, state := .UNUSED }).goto p .user

/-- The loop of `wait` from its start to where it returns or sleeps. -/
def waitLoop (s : State C) (c : C) (p : ProcId) : Option (State C × List (Event C)) :=
  match s.first fun _ x => x.parent == some p && x.state == .ZOMBIE with
  | some q =>
    if (s.proc q).kstack = true ∧ (s.proc q).pgdir = true then
      some (s.reaped p q, [.reaped (s.proc p).pid (s.proc q).pid])
    else none
  | none =>
    if (s.first fun _ x => x.parent == some p) = none ∨ (s.proc p).killed = true then
      some (s.goto p .user, [.waitFailed (s.proc p).pid (s.proc p).killed])
    else some ((sleep s c p (.proc p)).goto p .wait, [])

/-- The process `p` gets the CPU `c`. If it comes back from `sleep` it sets its `chan`
to 0; with the others it is 0. -/
def State.picked (s : State C) (c : C) (p : ProcId) : State C :=
  { s.setProc p { s.proc p with state := .RUNNING, chan := none } with
    cpu := Function.update s.cpu c (some p), scan := Function.update s.scan c (p.val + 1) }

/-- The loop of `scheduler` up to the next process, or to the end of the table. -/
def scheduler (s : State C) (c : C) : Option (State C × List (Event C)) :=
  match s.first fun p x => s.scan c ≤ p.val && x.state == .RUNNABLE with
  | none => some ({ s with scan := Function.update s.scan c 0 }, [])
  | some p =>
    if s.pc p = .wait then (waitLoop (s.picked c p) c p).map fun (s', es) =>
      (s', .scheduled c p :: es)
    else some (s.picked c p, [.scheduled c p])

/-- The parts of `fork` after the place `np` was found. -/
def forkStep (s : State C) (p : ProcId) (memory : Bool) : Option (State C × List (Event C)) :=
  match s.pc p with
  | .stack np =>
    if memory then
      some ((s.setProc np { s.proc np with kstack := true }).goto p (.copy np), [])
    else
      some ((s.setProc np { s.proc np with kstack := false, state := .UNUSED }).goto p .user,
        [.forkFailed (s.proc p).pid])
  | .copy np =>
    if memory then
      some ((s.setProc np { s.proc np with pgdir := true, parent := some p }).goto p (.ready np),
        [])
    else
      some ((s.setProc np { s.proc np with pgdir := false, kstack := false, state := .UNUSED }).goto
        p .user, [.forkFailed (s.proc p).pid])
  | .ready np =>
    some ((s.setProc np { s.proc np with state := .RUNNABLE }).goto p .user,
      [.forked (s.proc p).pid (s.proc np).pid])
  | .user | .wait => none

/-- The body of the loop of `exit` over the table. -/
def adopt (p : ProcId) (s : State C) (q : ProcId) : State C :=
  if (s.proc q).parent = some p then
    let s₁ := s.setProc q { s.proc q with parent := some initproc }
    if (s.proc q).state = .ZOMBIE then wakeup1 s₁ (some (.proc initproc)) else s₁
  else s

/-- `exit` from where it takes `ptable.lock`. -/
def exit (s : State C) (c : C) (p : ProcId) : State C :=
  let s₁ := (List.finRange NPROC).foldl (adopt p) (wakeup1 s ((s.proc p).parent.map .proc))
  (s₁.setProc p { s₁.proc p with state := .ZOMBIE }).sched c

def kill (s : State C) (pid : Int) : State C × Bool :=
  match s.first fun _ x => x.pid == pid with
  | some p =>
    (s.setProc p { s.proc p with
      killed := true, state :=
        if (s.proc p).state = .SLEEPING then .RUNNABLE else (s.proc p).state }, true)
  | none => (s, false)

/-- The process of a CPU at a place outside of `fork` and `wait`. -/
def State.myproc (s : State C) (c : C) : Option ProcId :=
  (s.cpu c).filter fun p => s.pc p = .user

def step (s : State C) : Action C → Option (State C × List (Event C))
  | .scheduler c => if s.cpu c = none then scheduler s c else none
  | .yield c => do
    let p ← s.cpu c
    some ((s.setProc p { s.proc p with state := .RUNNABLE }).sched c, [])
  | .sleep c n => do
    let p ← s.myproc c
    some (sleep s c p (.other n), [])
  | .wakeup n => some (wakeup1 s (some (.other n)), [])
  | .fork c => do
    let p ← s.myproc c
    match s.first fun _ x => x.state == .UNUSED with
    | none => some (s, [.forkFailed (s.proc p).pid])
    | some np =>
      if s.nextpid < INT_MAX then some ((allocproc s np).goto p (.stack np), []) else none
  | .run c memory => do
    let p ← s.cpu c
    forkStep s p memory
  | .exit c => do
    let p ← s.myproc c
    if p = initproc then none else some (exit s c p, [.exited (s.proc p).pid])
  | .wait c => do
    let p ← s.myproc c
    waitLoop s c p
  | .kill c pid => do
    let _ ← s.myproc c
    some ((kill s pid).1, [.killed pid (kill s pid).2])
  | .fault c => do
    let p ← s.myproc c
    some (s.setProc p { s.proc p with killed := true }, [.faulted (s.proc p).pid])

/-- The actions of the CPUs in any order. -/
def run (s : State C) (acts : List (Action C)) : Option (State C × List (Event C)) :=
  runs step s acts

end Step

def unused : Proc where
  state := .UNUSED
  pid := 0
  parent := none
  chan := none
  killed := false
  kstack := false
  pgdir := false

/-- After `userinit`. -/
def userinit (C : Type) : State C where
  proc := Function.update (fun _ => unused) initproc
    { unused with state := .RUNNABLE, pid := 1, kstack := true, pgdir := true }
  nextpid := 2
  pc := fun _ => .user
  cpu := fun _ => none
  scan := fun _ => 0

end Cs3650.Xv6.Procs
