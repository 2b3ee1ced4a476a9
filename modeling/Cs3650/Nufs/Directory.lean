import Cs3650.Nufs.Inode
import Cs3650.Nufs.Path

/-!
# Directories (hw10/starter-fshw/directory.c)

A directory is one page of 64 entries of 64 bytes: a name of 60 bytes and an
inode number. An empty name marks a free entry.
-/

namespace Cs3650.Nufs

open Cs3650.Lib

def ENOENT : Int := 2
def EEXIST : Int := 17

def directoryInit (m : Image) : Image × Int :=
  let (m₁, inum) := allocInode m
  let rn := getInode inum
  let m₂ := setInt32 m₁ (rn + Inode.mode) 0o40755
  ((growInode 0 m₂ rn 4096).1, inum)

/-- `strcmp` with the string at `a` gives 0. -/
def streq (m : Image) (a : Int) : Str → Bool
  | [] => m a == nul
  | c :: cs => m a == c && streq m (a + 1) cs

def strncpy (m : Image) (dst : Int) (src : Str) (n : Nat) : Image :=
  patch m dst n fun i => src.getD i nul

/-- The string at `a`, looked for in `fuel` bytes. -/
def strdup (m : Image) (a : Int) : Nat → Str
  | 0 => []
  | fuel + 1 => if m a = nul then [] else m a :: strdup m (a + 1) fuel

/-- The first entry of the directory page. -/
def direntBase (m : Image) (dir : Int) : Int := pagesGetPage (inodeGetPnum m dir 0)

def direntName (start : Int) (i : Nat) : Int := start + 64 * i
def direntInum (start : Int) (i : Nat) : Int := start + 64 * i + 60

def findName (m : Image) (start : Int) (name : Str) : Option Nat :=
  (List.range 64).find? fun i => streq m (direntName start i) name

def directoryLookup (m : Image) (dir : Int) (name : Str) : Int :=
  let start := direntBase m dir
  match findName m start name with
  | some i => int32 m (direntInum start i)
  | none => -ENOENT

def lookupFrom (m : Image) (curInum : Int) : List Str → Int
  | [] => curInum
  | base :: rest =>
    let next := directoryLookup m (getInode curInum) base
    if next < 0 then next else lookupFrom m next rest

def treeLookup (m : Image) (path : Path) : Int := lookupFrom m 0 (sSplit path.text slash)

def findEmpty (m : Image) (start : Int) : Option Nat :=
  (List.range 64).find? fun i => m (direntName start i) == nul

def directoryPut (m : Image) (dir : Int) (name : Str) (inum : Int) : Image × Int :=
  let start := direntBase m dir
  if directoryLookup m dir name > 0 then (m, -1)
  else if name.length > 60 then (m, -1)
  else
    match findEmpty m start with
    | none => (m, -1)
    | some emptyIndex =>
      let newEnt := direntName start emptyIndex
      let m₁ := strncpy m newEnt name 59
      let m₂ := fill m₁ (newEnt + 59) 1 nul
      let m₃ := setInt32 m₂ (direntInum start emptyIndex) inum
      let og := getInode inum
      (setInt32 m₃ (og + Inode.refs) (int32 m₃ (og + Inode.refs) + 1), 0)

def directoryDelete (m : Image) (dir : Int) (name : Str) : Image × Int :=
  let start := direntBase m dir
  match findName m start name with
  | none => (m, -ENOENT)
  | some dirIndex =>
    let m₁ := fill m (direntName start dirIndex) 1 nul
    let m₂ := freeInode m₁ (int32 m₁ (direntInum start dirIndex))
    (setInt32 m₂ (direntInum start dirIndex) 0, 0)

/-- Each name is put in front of the ones before it. -/
def directoryList (m : Image) (dir : Int) : List Str :=
  let start := direntBase m dir
  (List.range 64).foldl (fun ys i =>
    if m (direntName start i) ≠ nul then strdup m (direntName start i) NUFS_SIZE :: ys else ys) []

end Cs3650.Nufs
