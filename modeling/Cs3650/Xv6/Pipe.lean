import Cs3650.Lib.Machine
import Cs3650.Lib.Memory
import Cs3650.Lib.Mutex
import Cs3650.Lib.Ring
import Cs3650.Xv6.FileTable
import Mathlib.Data.Fintype.Card

/-!
# Pipes (hw09/starter-hw09/xv6: pipe.c, and of proc.c sleep, wakeup and kill)

The processes that call `pipewrite`, `piperead` and `pipeclose` on one pipe, step
by step, in any interleaving. The fields of the pipe are used under `p->lock`
only, so a step is what happens between two places where another process or a
`kill` can come between. `true` is the end for writing.
-/

namespace Cs3650.Xv6.Pipes

open Cs3650.Lib

def PIPESIZE : Nat := 512

structure Pipe where
  data : Nat → Byte
  nread : Nat
  nwrite : Nat
  readopen : Bool
  writeopen : Bool

/-- The pipe that `pipealloc` makes of a page of memory. -/
def pipealloc (page : Nat → Byte) : Pipe where
  data := page
  nread := 0
  nwrite := 0
  readopen := true
  writeopen := true

namespace Pipe

def isOpen (p : Pipe) : Bool → Bool
  | true => p.writeopen
  | false => p.readopen

def close (p : Pipe) : Bool → Pipe
  | true => { p with writeopen := false }
  | false => { p with readopen := false }

/-- `p->nwrite == p->nread + PIPESIZE` -/
def full (p : Pipe) : Bool := p.nwrite == uint (p.nread + PIPESIZE)

/-- `p->nread == p->nwrite` -/
def empty (p : Pipe) : Bool := p.nread == p.nwrite

/-- `p->data[p->nwrite++ % PIPESIZE] = b` -/
def put (p : Pipe) (b : Byte) : Pipe :=
  { p with data := Function.update p.data (p.nwrite % PIPESIZE) b, nwrite := uint (p.nwrite + 1) }

/-- `p->data[p->nread++ % PIPESIZE]` -/
def next (p : Pipe) : Byte := p.data (p.nread % PIPESIZE)

def drop (p : Pipe) : Pipe := { p with nread := uint (p.nread + 1) }

/-- The bytes that are in the pipe. -/
def contents (p : Pipe) : List Byte := ringContents PIPESIZE (2 ^ 32) p.data p.nread p.nwrite

end Pipe

/-- `&p->nread` and `&p->nwrite` -/
inductive Chan
  | nread
  | nwrite
  deriving DecidableEq, Repr

/-- `pipewrite(p, addr, n)` with `i` bytes done, or `piperead(p, addr, n)`. `n` is
not negative (`argptr`). -/
inductive Call
  | write (addr : List Byte) (i : Nat)
  | read (n : Nat)
  deriving DecidableEq, Repr

/-- The end that the call works on. -/
def Call.writable : Call → Bool
  | write .. => true
  | read _ => false

/-- Where the call sleeps. -/
def Call.chan : Call → Chan
  | write .. => .nwrite
  | read _ => .nread

/-- What a process has done when it comes to its last `wakeup`. -/
inductive Done
  | write (addr : List Byte)
  | read (n : Nat) (addr : List Byte)
  | close (writable : Bool)
  deriving DecidableEq, Repr

/-- Whom the last `wakeup` wakes. -/
def Done.chan : Done → Chan
  | write _ => .nread
  | read .. => .nwrite
  | close true => .nread
  | close false => .nwrite

/-- What a process does next. -/
inductive Pc
  | user
  /-- `acquire(&p->lock)`, at the start of a call and at the end of `sleep` -/
  | acquire (c : Call)
  /-- the test of the loop -/
  | loop (c : Call)
  /-- `wakeup(&p->nread)` of a writer that is about to sleep -/
  | wakeReaders (addr : List Byte) (i : Nat)
  /-- `acquire(&ptable.lock)` in `sleep` -/
  | sleepTable (c : Call)
  /-- `release(lk)` in `sleep` -/
  | sleepRelease (c : Call)
  /-- `p->state = SLEEPING; sched()`, and the scheduler releases `ptable.lock` -/
  | sleepSched (c : Call)
  | asleep (c : Call)
  /-- the loop of `piperead` that copies -/
  | copy (n : Nat) (addr : List Byte)
  /-- `acquire(&p->lock)` in `pipeclose` -/
  | closing (writable : Bool)
  | wakeup (d : Done)
  | release (d : Done)
  | kfree
  deriving DecidableEq, Repr

/-- `wakeup1(chan)` -/
def Pc.woken (ch : Chan) : Pc → Pc
  | asleep c => if c.chan = ch then acquire c else asleep c
  | p => p

/-- `kill` wakes a process wherever it sleeps. -/
def Pc.killed : Pc → Pc
  | asleep c => acquire c
  | p => p

/-- The end that the call under way works on. -/
def Pc.end? : Pc → Option Bool
  | acquire c | loop c | sleepTable c | sleepRelease c | sleepSched c | asleep c => some c.writable
  | wakeReaders .. | wakeup (.write _) | release (.write _) => some true
  | copy .. | wakeup (.read ..) | release (.read ..) => some false
  | user | closing _ | wakeup (.close _) | release (.close _) | kfree => none

structure State (T : Type) where
  pipe : Pipe
  /-- the page was given back -/
  freed : Bool
  /-- `ref` of the open file of each end -/
  ref : Bool → Nat
  /-- `p->lock` -/
  lock : Option T
  /-- `ptable.lock` -/
  table : Option T
  killed : T → Bool
  pc : T → Pc

inductive Event (T : Type)
  | put (t : T) (b : Byte)
  | got (t : T) (b : Byte)
  /-- `pipewrite` returns `r` and `i` bytes were put in -/
  | wrote (t : T) (addr : List Byte) (i : Nat) (r : Int)
  /-- `piperead` returns `r` with these bytes -/
  | read (t : T) (n : Nat) (addr : List Byte) (r : Int)
  deriving DecidableEq, Repr

inductive Action (T : Type)
  | write (t : T) (addr : List Byte)
  | read (t : T) (n : Nat)
  | filedup (writable : Bool)
  | fileclose (t : T) (writable : Bool)
  | kill (t : T)
  | run (t : T)
  deriving DecidableEq, Repr

section Step

variable {T : Type} [DecidableEq T]

def State.goto (s : State T) (t : T) (p : Pc) : State T := { s with pc := Function.update s.pc t p }

/-- The next step of a process that is not asleep. -/
def resume (s : State T) (t : T) : Option (State T × List (Event T)) :=
  match s.pc t with
  | .user | .asleep _ => none
  | .acquire c =>
    if s.lock = none then some ({ s.goto t (.loop c) with lock := some t }, []) else none
  | .loop (.write addr i) =>
    match addr[i]? with
    | none => some (s.goto t (.wakeup (.write addr)), [])
    | some b =>
      if s.pipe.full then
        if s.pipe.readopen = false ∨ s.killed t = true then
          some ({ s.goto t .user with lock := none }, [.wrote t addr i (-1)])
        else some (s.goto t (.wakeReaders addr i), [])
      else some ({ s.goto t (.loop (.write addr (i + 1))) with pipe := s.pipe.put b }, [.put t b])
  | .wakeReaders addr i =>
    if s.table = none then
      some ({ s with
        pc := Function.update (fun u => (s.pc u).woken .nread) t
          (.sleepTable (.write addr i)) }, [])
    else none
  | .loop (.read n) =>
    if s.pipe.empty ∧ s.pipe.writeopen = true then
      if s.killed t = true then some ({ s.goto t .user with lock := none }, [.read t n [] (-1)])
      else some (s.goto t (.sleepTable (.read n)), [])
    else some (s.goto t (.copy n []), [])
  | .copy n addr =>
    if addr.length < n ∧ ¬s.pipe.empty then
      some ({ s.goto t (.copy n (addr ++ [s.pipe.next])) with pipe := s.pipe.drop },
        [.got t s.pipe.next])
    else some (s.goto t (.wakeup (.read n addr)), [])
  | .sleepTable c =>
    if s.table = none then some ({ s.goto t (.sleepRelease c) with table := some t }, []) else none
  | .sleepRelease c => some ({ s.goto t (.sleepSched c) with lock := none }, [])
  | .sleepSched c => some ({ s.goto t (.asleep c) with table := none }, [])
  | .closing w =>
    if s.lock = none then
      some ({ s.goto t (.wakeup (.close w)) with lock := some t, pipe := s.pipe.close w }, [])
    else none
  | .wakeup d =>
    if s.table = none then
      some ({ s with pc := Function.update (fun u => (s.pc u).woken d.chan) t (.release d) }, [])
    else none
  | .release (.write addr) =>
    some ({ s.goto t .user with lock := none }, [.wrote t addr addr.length addr.length])
  | .release (.read n addr) =>
    some ({ s.goto t .user with lock := none }, [.read t n addr addr.length])
  | .release (.close _) =>
    if s.pipe.readopen = false ∧ s.pipe.writeopen = false
      then some ({ s.goto t .kfree with lock := none }, [])
    else some ({ s.goto t .user with lock := none }, [])
  | .kfree => some ({ s.goto t .user with freed := true }, [])

variable [Fintype T]

/-- The processes in a call on the end. Each has a descriptor of its own open. -/
def State.calls (s : State T) (w : Bool) : Finset T :=
  Finset.univ.filter fun t => (s.pc t).end? = some w

/-- `fileclose` of the last descriptor of an end calls `pipeclose`. -/
def step (s : State T) : Action T → Option (State T × List (Event T))
  | .write t addr =>
    if s.pc t = .user ∧ (s.calls true).card < s.ref true
      then some (s.goto t (.acquire (.write addr 0)), []) else none
  | .read t n =>
    if s.pc t = .user ∧ (s.calls false).card < s.ref false
      then some (s.goto t (.acquire (.read n)), []) else none
  | .filedup w =>
    if 0 < s.ref w then some ({ s with ref := Function.update s.ref w (s.ref w + 1) }, []) else none
  | .fileclose t w =>
    if s.pc t = .user ∧ (s.calls w).card < s.ref w then
      if s.ref w = 1 then some ({ s.goto t (.closing w) with ref := Function.update s.ref w 0 }, [])
      else some ({ s with ref := Function.update s.ref w (s.ref w - 1) }, [])
    else none
  | .kill t =>
    if s.table = none then
      some ({ s.goto t (s.pc t).killed with killed := Function.update s.killed t true }, [])
    else none
  | .run t => resume s t

/-- The actions of the processes in any order. -/
def run (s : State T) (acts : List (Action T)) : Option (State T × List (Event T)) :=
  runs step s acts

end Step

/-- After `pipealloc` both ends have one open file. -/
def start (T : Type) (page : Nat → Byte) : State T where
  pipe := pipealloc page
  freed := false
  ref := fun _ => 1
  lock := none
  table := none
  killed := fun _ => false
  pc := fun _ => .user

end Cs3650.Xv6.Pipes
