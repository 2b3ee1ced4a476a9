import Cs3650.Nufs.Directory

/-!
# Storage (hw10/starter-fshw/storage.c, nufs_readdir of nufsmount.c)

`size_t` and `off_t` have 64 bits. `junk` is what an `int` holds that nobody
has set.
-/

namespace Cs3650.Nufs

open Cs3650.Lib

def toInt (x : Int) : Int := x.bmod (2 ^ 32)
def toOff (x : Int) : Int := x.bmod (2 ^ 64)
def toSize (x : Int) : Int := x % 2 ^ 64

/-- `storage_init` for a new file. -/
def storageInit (m : Image) : Image := (directoryInit (pagesInit m)).1

structure Stat where
  mode : Int
  size : Int
  nlink : Int
  blocks : Int
  deriving DecidableEq, Repr

/-- The error is the return value; 0 otherwise. -/
def storageStat (m : Image) (path : Path) : Except Int Stat :=
  let inum := treeLookup m path
  if inum < 0 then .error inum
  else
    let node := getInode inum
    .ok ⟨int32 m (node + Inode.mode), int32 m (node + Inode.size), 1, pagesOwned m node * 4⟩

/-- The return value and the bytes copied to the buffer. -/
def storageRead (m : Image) (path : Path) (size : Nat) (offset : Int) : Int × Str :=
  let inum := treeLookup m path
  if inum < 0 then (inum, [])
  else
    let fileSize := int32 m (getInode inum + Inode.size)
    if offset ≥ fileSize then (0, [])
    else
      let n := if toSize (offset + size) ≥ toSize fileSize then toSize (fileSize - offset) else size
      let data := pagesGetPage inum
      (toInt n, (List.range n.toNat).map fun i => m (data + offset + i))

def storageTruncate (junk : Int) (m : Image) (path : Path) (size : Int) : Image × Int :=
  let inum := treeLookup m path
  if inum < 0 then (m, inum)
  else
    let node := getInode inum
    let fileSize := int32 m (node + Inode.size)
    let (m₁, rv) :=
      if fileSize > size then shrinkInode junk m node (toInt size)
      else if fileSize < size then growInode junk m node (toInt size)
      else (m, junk)
    (setInt32 m₁ (node + Inode.size) size, rv)

def storageWrite (junk : Int) (m : Image) (path : Path) (buf : Str) (offset : Int) : Image × Int :=
  let (m₁, trv) := storageTruncate junk m path (toOff (offset + buf.length))
  if trv < 0 then (m₁, trv)
  else
    let inum := treeLookup m₁ path
    if inum < 0 then (m₁, inum)
    else
      let data := pagesGetPage inum
      (patch m₁ (data + offset) buf.length fun i => buf.getD i nul, toInt buf.length)

def hasDirBit (mode : Int) : Bool := mode / 0o40000 % 2 == 1

def storageMknod (m : Image) (path : Path) (mode : Int) : Image × Int :=
  if treeLookup m path ≠ -ENOENT then (m, -EEXIST)
  else
    let (m₁, inum) := if hasDirBit mode then directoryInit m else allocInode m
    let dirNum := treeLookup m₁ path.dirname
    directoryPut m₁ (getInode dirNum) path.basename inum

def storageList (m : Image) (path : Path) : List Str :=
  directoryList m (getInode (treeLookup m path))

def storageUnlink (m : Image) (path : Path) : Image × Int :=
  let dirNum := treeLookup m path.dirname
  directoryDelete m (getInode dirNum) path.basename

def storageLink (m : Image) (src dst : Path) : Image × Int :=
  let first := treeLookup m src
  let second := treeLookup m dst
  if first < 0 then (m, -ENOENT)
  else if second > 0 then (m, -1)
  else
    let dirNum := treeLookup m dst.dirname
    if dirNum < 0 then (m, -ENOENT)
    else directoryPut m (getInode dirNum) dst.basename first

def storageRename (m : Image) (src dst : Path) : Image × Int :=
  let (m₁, linkRv) := storageLink m src dst
  if linkRv < 0 then (m₁, linkRv) else storageUnlink m₁ src

/-- What `filler` is called with; nothing when an assertion fails. -/
def nufsReaddir (m : Image) (path : Path) : Option (List (Str × Stat)) :=
  match storageStat m path with
  | .error _ => none
  | .ok st =>
    let entry := fun item =>
      match storageStat m (path.join item) with
      | .error _ => none
      | .ok st => some (item, st)
    ((storageList m path).mapM entry).map fun items => ([0x2E], st) :: items

end Cs3650.Nufs
