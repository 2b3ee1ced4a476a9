import Cs3650.Lib.LinkedList
import Cs3650.Lib.Machine
import Cs3650.Lib.MoveToFront
import Cs3650.Xv6.FileTable
import Mathlib.Data.Fintype.Card

/-!
# The buffer cache (hw09/starter-hw09/xv6: bio.c, buf.h, sleeplock.c, and iderw of ide.c)

The processes that call `bread`, `log_write`, `bwrite` and `brelse`, in any
interleaving. What runs under `bcache.lock` is one step, and the disk works for
one buffer in one step, since its caller has the buffer locked. A caller changes
a buffer only to pass it to `log_write` or `bwrite` before it releases it. Device
0 is what the unused buffers have; nobody asks for it. A panic is `none`.
-/

namespace Cs3650.Xv6.BufCache

open Cs3650.Lib

def NBUF : Nat := MAXOPBLOCKS * 3

abbrev BufId := Fin NBUF

/-- A device and a block number. -/
abbrev BlockId := Nat × Nat

/-- `struct buf`; `lock` has the process that `b->lock.pid` names. -/
structure Buf (D T : Type) where
  dev : Nat
  blockno : Nat
  refcnt : Nat
  valid : Bool
  dirty : Bool
  lock : Option T
  data : D

variable {D T : Type}

def Buf.id (b : Buf D T) : BlockId := (b.dev, b.blockno)

/-- `locking` is in `acquiresleep` of `bget`, `filling` in `bread` after it, and
`releasing` in `brelse` after `releasesleep`. -/
inductive Pc
  | user
  | locking (b : BufId) (dev blockno : Nat)
  | filling (b : BufId) (dev blockno : Nat)
  | writing (b : BufId)
  | releasing (b : BufId)
  deriving DecidableEq, Repr

structure State (D T : Type) where
  buf : BufId → Buf D T
  links : Links BufId
  disk : BlockId → D
  pc : T → Pc

inductive Event (D T : Type)
  | got (t : T) (b : BufId) (dev blockno : Nat) (data : D)
  | stored (t : T) (b : BufId) (dev blockno : Nat) (data : D)
  | released (t : T) (b : BufId)
  | freed (b : BufId)

inductive Action (D T : Type)
  | bread (t : T) (dev blockno : Nat)
  | logWrite (t : T) (b : BufId) (data : D)
  | bwrite (t : T) (b : BufId) (data : D)
  | brelse (t : T) (b : BufId)
  | run (t : T)

def State.setBuf (s : State D T) (b : BufId) (x : Buf D T) : State D T :=
  { s with buf := Function.update s.buf b x }

section Step

/-- The first loop of `bget`. -/
def findCached (s : State D T) (dev blockno : Nat) : Option BufId :=
  Links.find (fun b => (s.buf b).dev == dev && (s.buf b).blockno == blockno) s.links.next NBUF
    (s.links.next none)

/-- The second loop of `bget`. -/
def findUnused (s : State D T) : Option BufId :=
  Links.find (fun b => (s.buf b).refcnt == 0 && !(s.buf b).dirty) s.links.prev NBUF
    (s.links.prev none)

/-- `bget` up to `acquiresleep`; `none` is `panic("bget: no buffers")`. -/
def bget (s : State D T) (dev blockno : Nat) : Option (BufId × State D T) :=
  match findCached s dev blockno with
  | some b => some (b, s.setBuf b { s.buf b with refcnt := (s.buf b).refcnt + 1 })
  | none =>
    match findUnused s with
    | some b =>
      some (b, s.setBuf b { s.buf b with
        dev := dev, blockno := blockno, valid := false, dirty := false, refcnt := 1 })
    | none => none

/-- `iderw` of a buffer that is locked. -/
def iderw (s : State D T) (b : BufId) : Option (State D T) :=
  let x := s.buf b
  if x.dirty then
    some { s.setBuf b { x with valid := true, dirty := false } with
      disk := Function.update s.disk x.id x.data }
  else if x.valid then none
  else some (s.setBuf b { x with valid := true, data := s.disk x.id })

variable [DecidableEq T]

def State.goto (s : State D T) (t : T) (p : Pc) : State D T :=
  { s with pc := Function.update s.pc t p }

def resume (s : State D T) (t : T) : Option (State D T × List (Event D T)) :=
  match s.pc t with
  | .user => none
  | .locking b dev blockno =>
    if (s.buf b).lock = none then
      some ((s.setBuf b { s.buf b with lock := some t }).goto t (.filling b dev blockno), [])
    else none
  | .filling b dev blockno =>
    if (s.buf b).valid then some (s.goto t .user, [.got t b dev blockno (s.buf b).data])
    else (iderw s b).map fun s' => (s'.goto t .user, [.got t b dev blockno (s'.buf b).data])
  | .writing b => (iderw s b).map fun s' => (s'.goto t .user, [])
  | .releasing b =>
    let s' := s.setBuf b { s.buf b with refcnt := (s.buf b).refcnt - 1 }
    if (s.buf b).refcnt - 1 = 0 then
      some ({ s'.goto t .user with links := (s.links.unlink b).pushFront b }, [.freed b])
    else some (s'.goto t .user, [])

def step (s : State D T) : Action D T → Option (State D T × List (Event D T))
  | .bread t dev blockno =>
    if s.pc t = .user ∧ dev ≠ 0 then
      (bget s dev blockno).map fun (b, s') => (s'.goto t (.locking b dev blockno), [])
    else none
  | .logWrite t b data =>
    if s.pc t = .user ∧ (s.buf b).lock = some t then
      some (s.setBuf b { s.buf b with data := data, dirty := true },
        [.stored t b (s.buf b).dev (s.buf b).blockno data])
    else none
  | .bwrite t b data =>
    if s.pc t = .user ∧ (s.buf b).lock = some t then
      some ((s.setBuf b { s.buf b with data := data, dirty := true }).goto t (.writing b),
        [.stored t b (s.buf b).dev (s.buf b).blockno data])
    else none
  | .brelse t b =>
    if s.pc t = .user ∧ (s.buf b).lock = some t then
      some ((s.setBuf b { s.buf b with lock := none }).goto t (.releasing b), [.released t b])
    else none
  | .run t => resume s t

def run (s : State D T) (acts : List (Action D T)) : Option (State D T × List (Event D T)) :=
  runs step s acts

end Step

/-- `binit`: every buffer goes behind the head in turn. -/
def binit (disk : BlockId → D) (junk : D) : State D T where
  buf := fun _ => ⟨0, 0, 0, false, false, none, junk⟩
  links := (List.finRange NBUF).foldl Links.pushFront Links.nil
  disk := disk
  pc := fun _ => .user

/-! ### What the events say -/

def Event.freed? : Event D T → Option BufId
  | freed b => some b
  | _ => none

/-- The buffers that were released by their last user, in this order. -/
def uses (evs : List (Event D T)) : List BufId := evs.filterMap Event.freed?

/-- The order of the list of the buffers. -/
def order (evs : List (Event D T)) : List BufId :=
  moveToFront (List.finRange NBUF).reverse (uses evs)

def Event.store (k : BlockId) (x : D) : Event D T → D
  | stored _ _ dev blockno data => if (dev, blockno) = k then data else x
  | _ => x

/-- What was stored last in the block. -/
def latest (disk : BlockId → D) (evs : List (Event D T)) (k : BlockId) : D :=
  evs.foldl (Event.store k) (disk k)

variable [DecidableEq T]

def Event.hold (t : T) (b : BufId) (x : Option BlockId) : Event D T → Option BlockId
  | got u c dev blockno _ => if u = t ∧ c = b then some (dev, blockno) else x
  | released u c => if u = t ∧ c = b then none else x
  | _ => x

/-- The block for which `t` has got the buffer and has not released it. -/
def holding (t : T) (b : BufId) (evs : List (Event D T)) : Option BlockId :=
  evs.foldl (Event.hold t b) none

end Cs3650.Xv6.BufCache
