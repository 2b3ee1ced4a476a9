import Cs3650.Lib.Memory
import Mathlib.Data.List.FinRange

/-!
# Open files of xv6 (hw09/starter-hw09/xv6: file.c, sysfile.c, pipe.c, fs.c)

A call runs to its end in one step, and what a pipe or the console gives it is
told by the step: a process that sleeps there keeps its descriptor open. User
addresses are good, the disk does not fill up, an inode is the list of its bytes
and a path stands for what it leads to. A panic ends the run.
-/

namespace Cs3650.Xv6

open Cs3650.Lib

def NPROC : Nat := 64
def NOFILE : Nat := 16
def NFILE : Nat := 100
def MAXOPBLOCKS : Nat := 10
def CONSOLE : Int := 1

/-- `MAXFILE * BSIZE` -/
def MAXBYTES : Nat := (12 + 128) * 512

abbrev Pid := Fin NPROC
abbrev Fd := Fin NOFILE
abbrev Slot := Fin NFILE

def uint (x : Nat) : Nat := x % 2 ^ 32

inductive FileType
  | none
  | pipe
  | inode
  deriving DecidableEq, Repr

structure File where
  type : FileType
  ref : Int
  readable : Bool
  writable : Bool
  ip : Nat
  off : Nat
  readBytes : Nat
  writeBytes : Nat
  deriving DecidableEq, Repr

inductive InodeType
  | dir
  | file
  | dev
  deriving DecidableEq, Repr

structure Inode where
  type : InodeType
  major : Int
  data : List Byte
  fits : data.length ≤ MAXBYTES

/-- `ftable.file`, the `ofile` of each process and the inodes. -/
structure Kernel where
  file : Slot → File
  ofile : Pid → Fd → Option Slot
  inode : Nat → Inode

namespace Kernel

def setFile (k : Kernel) (s : Slot) (f : File) : Kernel :=
  { k with file := Function.update k.file s f }

def setOfile (k : Kernel) (pid : Pid) (fd : Fd) (v : Option Slot) : Kernel :=
  { k with ofile := Function.update k.ofile pid (Function.update (k.ofile pid) fd v) }

def setInode (k : Kernel) (i : Nat) (ip : Inode) : Kernel :=
  { k with inode := Function.update k.inode i ip }

end Kernel

def boot (inode : Nat → Inode) : Kernel where
  file _ := ⟨.none, 0, false, false, 0, 0, 0, 0⟩
  ofile _ _ := none
  inode := inode

/-! ## fs.c -/

/-- What a pipe or the console gives for `n` bytes; nothing to a process that is killed. -/
def delivered (got : Option (List Byte)) (n : Nat) : Int × List Byte :=
  match got with
  | none => (-1, [])
  | some bytes => ((bytes.take n).length, bytes.take n)

/-- The return value and the bytes copied. -/
def readi (ip : Inode) (got : Option (List Byte)) (off n : Nat) : Int × List Byte :=
  if ip.type = .dev then
    if ip.major = CONSOLE then delivered got n else (-1, [])
  -- `off + n < off` is the overflow of the sum
  else if off > ip.data.length ∨ 2 ^ 32 ≤ off + n then (-1, [])
  else
    let n := if off + n > ip.data.length then ip.data.length - off else n
    (n, (ip.data.drop off).take n)

def writei (ip : Inode) (src : List Byte) (off : Nat) : Inode × Int :=
  if ip.type = .dev then
    if ip.major = CONSOLE then (ip, src.length) else (ip, -1)
  else if off > ip.data.length ∨ 2 ^ 32 ≤ off + src.length then (ip, -1)
  else if h : off + src.length > MAXBYTES then (ip, -1)
  else
    ({ ip with
        data := ip.data.take off ++ src ++ ip.data.drop (off + src.length)
        fits := by
          have := ip.fits
          simp only [List.length_append, List.length_take, List.length_drop]
          omega }, src.length)

/-! ## file.c -/

def filealloc (k : Kernel) : Kernel × Option Slot :=
  match (List.finRange NFILE).find? fun s => (k.file s).ref == 0 with
  | some s => (k.setFile s { k.file s with ref := 1 }, some s)
  | none => (k, none)

def filedup (k : Kernel) (s : Slot) : Option Kernel :=
  if (k.file s).ref < 1 then none
  else some (k.setFile s { k.file s with ref := (k.file s).ref + 1 })

/-- Nothing that `pipeclose` and `iput` change is looked at here. -/
def fileclose (k : Kernel) (s : Slot) : Option Kernel :=
  if (k.file s).ref < 1 then none
  else if (k.file s).ref - 1 > 0 then some (k.setFile s { k.file s with ref := (k.file s).ref - 1 })
  else some (k.setFile s { k.file s with ref := 0, type := .none })

def fileread (k : Kernel) (s : Slot) (n : Nat) (got : Option (List Byte)) :
    Option (Kernel × Int × List Byte) :=
  let f := k.file s
  if f.readable = false then some (k, -1, [])
  else
    match f.type with
    | .pipe => some (k.setFile s { f with readBytes := uint (f.readBytes + n) }, delivered got n)
    | .inode =>
      let r := readi (k.inode f.ip) got f.off n
      if r.1 > 0 then
        some (k.setFile s
          { f with off := uint (f.off + r.1.toNat), readBytes := uint (f.readBytes + n) }, r)
      else none
    | .none => none

/-- One turn of the loop of `filewrite`. -/
def writeChunk (k : Kernel) (s : Slot) (chunk : List Byte) : Kernel × Int :=
  let f := k.file s
  let w := writei (k.inode f.ip) chunk f.off
  let k₁ := k.setInode f.ip w.1
  (if w.2 > 0 then k₁.setFile s { f with off := uint (f.off + w.2.toNat) } else k₁, w.2)

/-- The loop of `filewrite` with the bytes that are left; each turn takes one at least. -/
def writeLoop (s : Slot) : Nat → Kernel → List Byte → Option (Kernel × List Byte)
  | 0, k, rest => some (k, rest)
  | fuel + 1, k, rest =>
    if rest = [] then some (k, rest)
    else
      let chunk := rest.take ((MAXOPBLOCKS - 1 - 1 - 2) / 2 * 512)
      let w := writeChunk k s chunk
      if w.2 < 0 then some (w.1, rest)
      else if w.2 ≠ chunk.length then none
      else writeLoop s fuel w.1 (rest.drop chunk.length)

def filewrite (k : Kernel) (s : Slot) (src : List Byte) (sent : Bool) : Option (Kernel × Int) :=
  let f := k.file s
  if f.writable = false then some (k, -1)
  else
    match f.type with
    | .pipe =>
      some (k.setFile s { f with writeBytes := uint (f.writeBytes + src.length) },
        if sent then (src.length : Int) else -1)
    | .inode =>
      match writeLoop s src.length k src with
      | none => none
      | some (k₁, rest) =>
        some (k₁.setFile s
          { k₁.file s with writeBytes := uint ((k₁.file s).writeBytes + src.length) },
          if rest = [] then (src.length : Int) else -1)
    | .none => none

structure IoStats where
  readBytes : Nat
  writeBytes : Nat
  deriving DecidableEq, Repr

def getiostats (k : Kernel) (s : Slot) : Option IoStats :=
  let f := k.file s
  if f.type = .inode then some ⟨f.readBytes, f.writeBytes⟩ else none

/-! ## sysfile.c -/

def toFd (fd : Int) : Option Fd :=
  if h : 0 ≤ fd ∧ fd < NOFILE then some ⟨fd.toNat, by omega⟩ else none

def argfd (k : Kernel) (pid : Pid) (fd : Int) : Option (Fd × Slot) :=
  match toFd fd with
  | none => none
  | some fd => (k.ofile pid fd).map fun s => (fd, s)

def fdalloc (k : Kernel) (pid : Pid) (s : Slot) : Kernel × Option Fd :=
  match (List.finRange NOFILE).find? fun fd => (k.ofile pid fd).isNone with
  | some fd => (k.setOfile pid fd (some s), some fd)
  | none => (k, none)

/-- What a path leads to: nothing, an inode, or a place for a new one. -/
inductive Found
  | missing
  | inode (ip : Nat)
  | free (ip : Nat)

def newFile : Inode := ⟨.file, 0, [], Nat.zero_le _⟩

def O_WRONLY : Int := 1
def O_RDWR : Int := 2
def O_CREATE : Int := 0x200

/-- `omode & flag` for a flag of one bit. -/
def hasFlag (omode flag : Int) : Bool := omode / flag % 2 == 1

/-- `create` with `T_FILE`. -/
def create (k : Kernel) (found : Found) : Option (Kernel × Nat) :=
  match found with
  | .missing => none
  | .inode ip => if (k.inode ip).type = .file then some (k, ip) else none
  | .free ip => some (k.setInode ip newFile, ip)

def namei (found : Found) : Option Nat :=
  match found with
  | .inode ip => some ip
  | _ => none

/-- The inode that `sys_open` opens. -/
def openInode (k : Kernel) (found : Found) (omode : Int) : Option (Kernel × Nat) :=
  if hasFlag omode O_CREATE then create k found
  else
    match namei found with
    | none => none
    | some ip => if (k.inode ip).type = .dir ∧ omode ≠ 0 then none else some (k, ip)

def sysOpen (k : Kernel) (pid : Pid) (found : Found) (omode : Int) : Option (Kernel × Option Fd) :=
  match openInode k found omode with
  | none => some (k, none)
  | some (k₀, ip) =>
    match filealloc k₀ with
    | (k₁, none) => some (k₁, none)
    | (k₁, some s) =>
      match fdalloc k₁ pid s with
      | (k₂, none) => (fileclose k₂ s).map fun k => (k, none)
      | (k₂, some fd) =>
        some (k₂.setFile s { k₂.file s with
          type := .inode
          ip := ip
          off := 0
          readable := !hasFlag omode O_WRONLY
          writable := hasFlag omode O_WRONLY || hasFlag omode O_RDWR }, some fd)

def sysDup (k : Kernel) (pid : Pid) (fd : Int) : Option (Kernel × Option Fd) :=
  match argfd k pid fd with
  | none => some (k, none)
  | some (_, s) =>
    match fdalloc k pid s with
    | (k₁, none) => some (k₁, none)
    | (k₁, some fd) => (filedup k₁ s).map fun k => (k, some fd)

def sysRead (k : Kernel) (pid : Pid) (fd n : Int) (got : Option (List Byte)) :
    Option (Kernel × Int × List Byte) :=
  match argfd k pid fd with
  | none => some (k, -1, [])
  | some (_, s) => if n < 0 then some (k, -1, []) else fileread k s n.toNat got

/-- More bytes than an `int` counts make the size negative. -/
def sysWrite (k : Kernel) (pid : Pid) (fd : Int) (src : List Byte) (sent : Bool) :
    Option (Kernel × Int) :=
  match argfd k pid fd with
  | none => some (k, -1)
  | some (_, s) => if 2 ^ 31 ≤ src.length then some (k, -1) else filewrite k s src sent

def sysClose (k : Kernel) (pid : Pid) (fd : Int) : Option (Kernel × Int) :=
  match argfd k pid fd with
  | none => some (k, -1)
  | some (fd, s) => (fileclose (k.setOfile pid fd none) s).map fun k => (k, 0)

/-- `mem` tells whether `kalloc` has a page. -/
def pipealloc (k : Kernel) (mem : Bool) : Option (Kernel × Option (Slot × Slot)) :=
  match filealloc k with
  | (k₁, none) => some (k₁, none)
  | (k₁, some f0) =>
    match filealloc k₁ with
    | (k₂, none) => (fileclose k₂ f0).map fun k => (k, none)
    | (k₂, some f1) =>
      if mem then
        let k₃ :=
          k₂.setFile f0 { k₂.file f0 with type := .pipe, readable := true, writable := false }
        some (k₃.setFile f1 { k₃.file f1 with type := .pipe, readable := false, writable := true },
          some (f0, f1))
      else ((fileclose k₂ f0).bind fun k => fileclose k f1).map fun k => (k, none)

def sysPipe (k : Kernel) (pid : Pid) (mem : Bool) : Option (Kernel × Option (Fd × Fd)) :=
  match pipealloc k mem with
  | none => none
  | some (k₁, none) => some (k₁, none)
  | some (k₁, some (rf, wf)) =>
    match fdalloc k₁ pid rf with
    | (k₂, none) => ((fileclose k₂ rf).bind fun k => fileclose k wf).map fun k => (k, none)
    | (k₂, some fd0) =>
      match fdalloc k₂ pid wf with
      | (k₃, none) =>
        ((fileclose (k₃.setOfile pid fd0 none) rf).bind fun k => fileclose k wf).map
          fun k => (k, none)
      | (k₃, some fd1) => some (k₃, some (fd0, fd1))

def sysGetiostats (k : Kernel) (pid : Pid) (fd : Int) : Option IoStats :=
  match argfd k pid fd with
  | none => none
  | some (_, s) => getiostats k s

/-! ## Calls -/

/-- A system call of a process, with what pipes, the console and `kalloc` give it. -/
inductive Call
  | open (pid : Pid) (found : Found) (omode : Int)
  | dup (pid : Pid) (fd : Int)
  | read (pid : Pid) (fd n : Int) (got : Option (List Byte))
  | write (pid : Pid) (fd : Int) (src : List Byte) (sent : Bool)
  | pipe (pid : Pid) (mem : Bool)
  | close (pid : Pid) (fd : Int)

/-- What the call returns; a descriptor that is missing is -1. -/
inductive Result
  | fd (fd : Option Fd)
  | bytes (r : Int) (data : List Byte)
  | int (r : Int)
  | fds (fds : Option (Fd × Fd))

def Call.run (k : Kernel) : Call → Option (Kernel × Result)
  | .open pid found omode => (sysOpen k pid found omode).map fun r => (r.1, .fd r.2)
  | .dup pid fd => (sysDup k pid fd).map fun r => (r.1, .fd r.2)
  | .read pid fd n got => (sysRead k pid fd n got).map fun r => (r.1, .bytes r.2.1 r.2.2)
  | .write pid fd src sent => (sysWrite k pid fd src sent).map fun r => (r.1, .int r.2)
  | .pipe pid mem => (sysPipe k pid mem).map fun r => (r.1, .fds r.2)
  | .close pid fd => (sysClose k pid fd).map fun r => (r.1, .int r.2)

end Cs3650.Xv6
