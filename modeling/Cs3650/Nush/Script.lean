import Cs3650.Nush.Implement
import Cs3650.Nush.Tokens

/-!
# Running a script (chal1/challenge01/nush.c)

`main` reads the script through a buffer of 256 bytes and executes what each
`fgets` returns as one line. A process in which the call of `execute` returns
goes on with the loop, also a child that was forked inside the call.

The script is one open file; its offset is shared by all processes of the run.
Each process has a stream of its own with the bytes that it has read from the
file and not yet used, and a fork copies it. The C library brings the offset of
an open stream up to date in `exit`: it goes back by the bytes that the stream
has left. So a child that calls `exit`, one whose `execvp` has failed among
them, lets the shell read these bytes again; a process that is killed, that has
become another program or that calls `_exit` does not. `executeOn` is `execute`
with this file.
-/

namespace Cs3650.Nush

/-! ## The file -/

structure File where
  offset : Nat
  /-- How often the file has been read. -/
  reads : Nat
  /-- How many processes in the background have called `exit` with bytes left. -/
  exits : Nat
  /-- Exits that are still to come: before which read, and how far they go back. -/
  late : List (Nat × Nat)
  deriving DecidableEq, Repr

/-- What the run does not decide. -/
structure World where
  /-- The programs that `execvp` finds, whatever the working directory is. -/
  installed : String → Bool
  /-- How many reads there are before each exit of a process in the background; an
  exit after 0 of them comes before the shell goes on. -/
  delay : Nat → Nat

namespace File

/-- `lseek(fd, -n, SEEK_CUR)`; it fails if the file has no byte there. -/
def back (n : Nat) (f : File) : File :=
  if n ≤ f.offset then { f with offset := f.offset - n } else f

/-- `exit` in a process whose stream has `n` bytes left. -/
def exit (delay : Nat → Nat) (n : Nat) (background : Bool) (f : File) : File :=
  if n = 0 then f
  else if background then
    match delay f.exits with
    | 0 => { f.back n with exits := f.exits + 1 }
    | d + 1 => { f with exits := f.exits + 1, late := f.late ++ [(f.reads + d, n)] }
  else f.back n

/-- The late exits that come before this read. -/
def settle (f : File) : File :=
  (f.late.filter (·.1 == f.reads)).foldl (fun f e => f.back e.2)
    { f with late := f.late.filter (·.1 != f.reads) }

def read (blksize : Nat) (text : List Char) (f : File) : List Char × File :=
  let f := f.settle
  let bytes := (text.drop f.offset).take blksize
  (bytes, { f with offset := f.offset + bytes.length, reads := f.reads + 1 })

end File

/-- The stream of a process: its unused bytes, and the end-of-file flag. -/
structure Stream where
  unread : List Char
  eof : Bool
  deriving DecidableEq, Repr

/-- A stream without a byte left reads a block. -/
def Stream.fill (blksize : Nat) (text : List Char) (st : Stream) (f : File) : Stream × File :=
  if st.unread ≠ [] ∨ st.eof then (st, f)
  else (⟨(f.read blksize text).1, (f.read blksize text).1.isEmpty⟩, (f.read blksize text).2)

/-- `fgets(buf, n + 1, file)`; it returns a null pointer if it stores nothing. -/
def fgets (blksize : Nat) (text : List Char) : Nat → Stream → File → List Char × Stream × File
  | 0, st, f => ([], st, f)
  | n + 1, st, f =>
    let (st', f') := st.fill blksize text f
    match st'.unread with
    | [] => ([], st', f')
    | c :: rest =>
      if c = '\n' then ([c], { st' with unread := rest }, f')
      else
        let (cmd, st'', f'') := fgets blksize text n { st' with unread := rest } f'
        (c :: cmd, st'', f'')

/-! ## Execution -/

inductive ScriptEvent
  | did (action : Action)
  /-- `main` hands the string on to `tokenize`. -/
  | passed (gen : Nat) (cmd : List Char)
  /-- The process still runs. -/
  | cutOff (gen : Nat)
  deriving DecidableEq, Repr

/-- A run, with the file as it leaves it. -/
structure FileRun where
  fate : Fate
  log : List ScriptEvent
  file : File

def FileRun.after (r : FileRun) (log : List ScriptEvent) : FileRun := { r with log := log ++ r.log }

def actionsOf (log : List ScriptEvent) : List Action :=
  log.filterMap fun
    | .did action => some action
    | .passed .. => none
    | .cutOff _ => none

/-- The run without the file. -/
def FileRun.run (r : FileRun) : Run := ⟨r.fate, actionsOf r.log⟩

abbrev FileCont := Nat → Int → Shell → Oracle → File → FileRun

abbrev FileExec := Nat → Shell → Oracle → File → FileCont → FileRun

/-- `execvp` does not find the program; the child then exits with 1. -/
def World.missing (w : World) (input : String) (a : Answer) : Bool :=
  !w.installed input && decide (a.fate = .exits 1) && !a.cdOk

def crashOn (gen : Nat) (f : File) : FileRun := ⟨.killed, [.did (.crashed gen)], f⟩

/-- `_exit(0)`. -/
def leaveOn : FileCont := fun _ _ _ _ f => ⟨(exitWith 0).fate, [], f⟩

section Execute

-- No process reads in the call, so the streams of all of them have the same `n` bytes left.
variable (w : World) (n : Nat)

/-- `exit(status)`. -/
def exitOn (background : Bool) : FileCont := fun _ status _ _ f =>
  ⟨(exitWith status).fate, [], f.exit w.delay n background⟩

def waitOn (child : FileRun) (gen : Nat) (s : Shell) (o : Oracle) (k : FileCont) : FileRun :=
  (k gen child.fate.wexitstatus s o child.file).after child.log

def cmdOn (background : Bool) (words : List String) : FileExec := fun gen s o f k =>
  match words with
  | [] => crashOn gen f
  | input :: args =>
    if input = "cd" then
      match args with
      | [] => crashOn gen f
      | dir :: _ => if o.next.cdOk then k gen 0 (s ++ [dir]) o.rest f else k gen (-1) s o.rest f
    else if input = "exit" then
      ⟨.exits 0, [.did (.exitBuiltin gen)], f.exit w.delay n background⟩
    else
      let file := if w.missing input o.next then f.exit w.delay n background else f
      waitOn ⟨o.next.fate, [.did (.ran (gen + 1) words)], file⟩ gen s o.rest k

def returningOn (caller : Nat) (k : FileCont) : FileCont := fun gen status s o f =>
  (k gen status s o f).after [.did (.returned caller gen)]

/-- `;`, `||` and `&&`: the right side runs after the statuses in `cond`. -/
def seqOn (cond : Int → Bool) (branch1 branch2 : FileExec) : FileExec := fun gen s o f k =>
  branch1 gen s o f fun gen' first s' o' f' =>
    if cond first then branch2 gen' s' o' f' k else k gen' first s' o' f'

/-- `execute`, with the file that the script is read from. A child that waits for
its own children ends after them. -/
def executeOn (background : Bool) : Astree → FileExec
  | .null => fun gen s o f k => returningOn gen k gen 0 s o f
  | .cmd words => fun gen s o f k => cmdOn w n background words gen s o f (returningOn gen k)
  | .op oper a b => fun gen s o f k =>
    let k' := returningOn gen k
    match oper with
    | .semicolon =>
      seqOn (fun _ => b ≠ .null) (executeOn background a) (executeOn background b) gen s o f k'
    | .background =>
      let child := executeOn true a (gen + 1) s o.child f leaveOn
      let parent :=
        if b ≠ .null then executeOn background b gen s o.parent child.file k'
        else k' gen 0 s o.parent child.file
      parent.after child.log
    | .or =>
      seqOn (fun first => first = 1) (executeOn background a) (executeOn background b) gen s o f k'
    | .and =>
      seqOn (fun first => first = 0) (executeOn background a) (executeOn background b) gen s o f k'
    | .pipe =>
      let child2 := executeOn background a (gen + 2) s o.child.child f (exitOn w n background)
      let child1 :=
        executeOn background b (gen + 1) s o.child.parent child2.file (exitOn w n background)
      waitOn (child1.after child2.log) gen s o.parent k'
    | .rdrIn =>
      let child :=
        match fileName b with
        | none => crashOn (gen + 1) f
        | some _ => executeOn background a (gen + 1) s o.child f (exitOn w n background)
      waitOn child gen s o.parent k'
    | .rdrOut =>
      let child :=
        match fileName b with
        | none => crashOn (gen + 1) f
        | some _ => executeOn background a (gen + 1) s o.child f fun gen' _ s' o' f' =>
            k' gen' 0 s' o' f'
      waitOn child gen s o.parent k'

end Execute

/-- The loop of `main`, cut off after `fuel` lines. At the end of the file the
stream has no byte left, so this `exit` leaves the offset alone. -/
def mainLoop (w : World) (blksize : Nat) (text : List Char) :
    Nat → Stream → Nat → Shell → Oracle → File → FileRun
  | 0, _, gen, _, _, f => ⟨.exits 0, [.cutOff gen], f⟩
  | fuel + 1, st, gen, s, o, f =>
    let (cmd, st', f') := fgets blksize text 255 st f
    if cmd = [] then exitOn w st'.unread.length false gen 0 s o f'
    else
      (executeOn w st'.unread.length false (parse (tokenize cmd)) gen s o f'
        fun gen' _ s' o' f'' =>
          (mainLoop w blksize text fuel st' gen' s' o' f'').after [.did (.lineDone gen')]).after
        [.passed gen cmd]

/-- The run of the shell for a script. -/
def runScript (w : World) (blksize : Nat) (text : List Char) (fuel : Nat) (s : Shell) (o : Oracle) :
    FileRun :=
  mainLoop w blksize text fuel ⟨[], false⟩ 0 s o ⟨0, 0, 0, []⟩

/-! ## Line by line -/

/-- The lines of a file, each with its newline. -/
def lines : List Char → List (List Char)
  | [] => []
  | c :: text =>
    if c = '\n' then [c] :: lines text
    else
      match lines text with
      | [] => [[c]]
      | line :: rest => (c :: line) :: rest

/-- The strings that are handed on, and by whom. -/
def passedBy (log : List ScriptEvent) : List (Nat × List Char) :=
  log.filterMap fun
    | .passed gen cmd => some (gen, cmd)
    | .did _ => none
    | .cutOff _ => none

/-- The shell, and no other process, hands on these strings, each once, and then exits. -/
structure Passes (strings : List (List Char)) (r : FileRun) : Prop where
  finished : ∀ gen, .cutOff gen ∉ r.log
  strings : passedBy r.log = strings.map fun cmd => (0, cmd)
  exits : r.fate = .exits 0

/-- Whatever the world answers, the strings handed on are the lines. -/
def RunsLineByLine (installed : String → Bool) (blksize : Nat) (text : List Char) : Prop :=
  ∀ delay s o, ∃ fuel, Passes (lines text) (runScript ⟨installed, delay⟩ blksize text fuel s o)

end Cs3650.Nush
