import Cs3650.Lib.Memory
import Cs3650.Xv6.FileTable

/-!
# Files in blocks (hw09/starter-hw09/xv6: fs.c, fs.h)

The blocks of the disk as the processes see them through the buffer cache, and
the inodes as the inode cache has them. `addrs` of an inode has the numbers of
twelve blocks and of a block with the numbers of the next ones. A panic is `none`.
-/

namespace Cs3650.Xv6.Blocks

open Cs3650.Lib

def BSIZE : Nat := 512
def NDIRECT : Nat := 12
def NINDIRECT : Nat := 128

/-- Bitmap bits per block. -/
def BPB : Nat := BSIZE * 8

/-- Inodes per block. -/
def IPB : Nat := 8

/-- Bytes of a `struct dinode`. -/
def DINODE : Nat := 64

/-- The layout of the disk: inode blocks, bitmap blocks, and from `nmeta` on the data. -/
structure Superblock where
  size : Nat
  ninodes : Nat
  inodestart : Nat
  bmapstart : Nat
  nmeta : Nat
  inodes_fit : ∀ i < ninodes, i / IPB + inodestart < bmapstart
  bitmap_fit : ∀ b < size, b / BPB + bmapstart < nmeta
  nmeta_pos : 0 < nmeta
  nmeta_le : nmeta ≤ size
  size_lt : size < 2 ^ 32

/-- The fields of `struct inode` that are on the disk. -/
@[ext] structure Dinode where
  type : Nat
  major : Nat
  minor : Nat
  nlink : Nat
  size : Nat
  addrs : Fin 13 → Nat

namespace Dinode

/-- `ip->addrs[j]` -/
def addr (d : Dinode) (j : Nat) : Nat := if h : j < 13 then d.addrs ⟨j, h⟩ else 0

def setAddr (d : Dinode) (j a : Nat) : Dinode :=
  { d with addrs := fun k => if k.val = j then a else d.addrs k }

/-- `memset(dip, 0, sizeof(*dip))` -/
def zero : Dinode := ⟨0, 0, 0, 0, 0, fun _ => 0⟩

end Dinode

/-- The blocks, and the inodes in memory. -/
structure Fs where
  disk : Nat → Memory
  inode : Nat → Dinode

namespace Fs

def setBlock (fs : Fs) (b : Nat) (m : Memory) : Fs :=
  { fs with disk := Function.update fs.disk b m }

def setInode (fs : Fs) (i : Nat) (d : Dinode) : Fs :=
  { fs with inode := Function.update fs.inode i d }

end Fs

/-! ## The bitmap -/

/-- `BBLOCK` -/
def bblock (sb : Superblock) (b : Nat) : Nat := b / BPB + sb.bmapstart

/-- `bp->data[bi/8] & (1 << (bi % 8))`, with `bi = b % BPB` -/
def inUse (sb : Superblock) (disk : Nat → Memory) (b : Nat) : Bool :=
  (disk (bblock sb b) (b % BPB / 8 : Nat)) &&& ((1 : Byte) <<< (b % BPB % 8)) != 0

def setUse (sb : Superblock) (fs : Fs) (b : Nat) (f : Byte → Byte → Byte) : Fs :=
  let m := fs.disk (bblock sb b)
  let p : Int := (b % BPB / 8 : Nat)
  fs.setBlock (bblock sb b) (patch m p 1 fun _ => f (m p) ((1 : Byte) <<< (b % BPB % 8)))

/-- `bp->data[bi/8] |= m` -/
def markUsed (sb : Superblock) (fs : Fs) (b : Nat) : Fs := setUse sb fs b fun x m => x ||| m

/-- `bp->data[bi/8] &= ~m` -/
def markFree (sb : Superblock) (fs : Fs) (b : Nat) : Fs := setUse sb fs b fun x m => x &&& ~~~m

def bzero (fs : Fs) (b : Nat) : Fs := fs.setBlock b (fill (fs.disk b) 0 BSIZE 0)

/-- The two loops look at the blocks in order. -/
def balloc (sb : Superblock) (fs : Fs) : Option (Fs × Nat) :=
  match (List.range sb.size).find? fun b => !inUse sb fs.disk b with
  | some b => some (bzero (markUsed sb fs b) b, b)
  | none => none

def bfree (sb : Superblock) (fs : Fs) (b : Nat) : Option Fs :=
  if inUse sb fs.disk b then some (markFree sb fs b) else none

/-! ## Inodes -/

/-- `IBLOCK` -/
def iblock (sb : Superblock) (i : Nat) : Nat := i / IPB + sb.inodestart

/-- Where the inode is in its block. -/
def ioffset (i : Nat) : Nat := i % IPB * DINODE

def getInode (m : Memory) (p : Int) : Dinode where
  type := load m p 2
  major := load m (p + 2) 2
  minor := load m (p + 4) 2
  nlink := load m (p + 6) 2
  size := load m (p + 8) 4
  addrs j := load m (p + 12 + 4 * j.val) 4

/-- The stores of `iupdate`. -/
def putInode (m : Memory) (p : Int) (d : Dinode) : Memory :=
  let m := store m p 2 d.type
  let m := store m (p + 2) 2 d.major
  let m := store m (p + 4) 2 d.minor
  let m := store m (p + 6) 2 d.nlink
  let m := store m (p + 8) 4 d.size
  patch m (p + 12) 52 fun k => BitVec.ofNat 8 (d.addr (k / 4) / 256 ^ (k % 4))

/-- The inode as the disk has it. -/
def dinode (sb : Superblock) (disk : Nat → Memory) (i : Nat) : Dinode :=
  getInode (disk (iblock sb i)) (ioffset i)

def iupdate (sb : Superblock) (fs : Fs) (i : Nat) : Fs :=
  fs.setBlock (iblock sb i) (putInode (fs.disk (iblock sb i)) (ioffset i) (fs.inode i))

/-- `ilock` of an inode that is not valid in the cache. -/
def reload (sb : Superblock) (fs : Fs) (i : Nat) : Fs := fs.setInode i (dinode sb fs.disk i)

/-- `ialloc`, and the `ilock` of the caller. -/
def ialloc (sb : Superblock) (fs : Fs) (type : Nat) : Option (Fs × Nat) :=
  match (List.range sb.ninodes).find? fun i => 1 ≤ i && (dinode sb fs.disk i).type == 0 with
  | some i =>
    let m := putInode (fs.disk (iblock sb i)) (ioffset i) { Dinode.zero with type := type }
    some (reload sb (fs.setBlock (iblock sb i) m) i, i)
  | none => none

/-- `((uint*)bp->data)[k]` -/
def entry (m : Memory) (k : Nat) : Nat := load m (4 * k : Nat) 4

/-- `ip->addrs[j]`, and `balloc` where it is 0. -/
def mapAddr (sb : Superblock) (fs : Fs) (i j : Nat) : Option (Fs × Nat) :=
  if (fs.inode i).addr j = 0 then
    (balloc sb fs).map fun r => (r.1.setInode i ((r.1.inode i).setAddr j r.2), r.2)
  else some (fs, (fs.inode i).addr j)

/-- Entry `k` of the block `table`, and `balloc` where it is 0. -/
def mapEntry (sb : Superblock) (fs : Fs) (table k : Nat) : Option (Fs × Nat) :=
  if entry (fs.disk table) k = 0 then
    (balloc sb fs).map fun r =>
      (r.1.setBlock table (store (r.1.disk table) (4 * k : Nat) 4 r.2), r.2)
  else some (fs, entry (fs.disk table) k)

def bmap (sb : Superblock) (fs : Fs) (i bn : Nat) : Option (Fs × Nat) :=
  if bn < NDIRECT then mapAddr sb fs i bn
  else if bn - NDIRECT < NINDIRECT then
    (mapAddr sb fs i NDIRECT).bind fun r => mapEntry sb r.1 r.2 (bn - NDIRECT)
  else none

/-! ## Contents -/

/-- The loop of `readi`, with `n` bytes to go; each turn takes one at least. -/
def readLoop (sb : Superblock) (i : Nat) : Nat → Fs → Nat → Nat → Option (Fs × List Byte)
  | 0, fs, _, _ => some (fs, [])
  | fuel + 1, fs, off, n =>
    if n = 0 then some (fs, [])
    else
      (bmap sb fs i (off / BSIZE)).bind fun r =>
        let m := min n (BSIZE - off % BSIZE)
        let bytes := (List.range m).map fun k => r.1.disk r.2 (off % BSIZE + k : Nat)
        (readLoop sb i fuel r.1 (off + m) (n - m)).map fun q => (q.1, bytes ++ q.2)

/-- The branch of `readi` for inodes that are no devices. -/
def readi (sb : Superblock) (fs : Fs) (i off n : Nat) : Option (Fs × Int × List Byte) :=
  if off > (fs.inode i).size ∨ 2 ^ 32 ≤ off + n then some (fs, -1, [])
  else
    let n := if off + n > (fs.inode i).size then (fs.inode i).size - off else n
    (readLoop sb i n fs off n).map fun r => (r.1, n, r.2)

/-- The loop of `writei`; it ends with the new offset. -/
def writeLoop (sb : Superblock) (i : Nat) : Nat → Fs → List Byte → Nat → Option (Fs × Nat)
  | 0, fs, _, off => some (fs, off)
  | fuel + 1, fs, src, off =>
    if src = [] then some (fs, off)
    else
      (bmap sb fs i (off / BSIZE)).bind fun r =>
        let m := min src.length (BSIZE - off % BSIZE)
        let data := patch (r.1.disk r.2) (off % BSIZE : Nat) m fun k => src.getD k 0
        writeLoop sb i fuel (r.1.setBlock r.2 data) (src.drop m) (off + m)

/-- The branch of `writei` for inodes that are no devices. -/
def writei (sb : Superblock) (fs : Fs) (i : Nat) (src : List Byte) (off : Nat) :
    Option (Fs × Int) :=
  if off > (fs.inode i).size ∨ 2 ^ 32 ≤ off + src.length then some (fs, -1)
  else if off + src.length > MAXBYTES then some (fs, -1)
  else
    (writeLoop sb i src.length fs src off).map fun r =>
      let ip := r.1.inode i
      if 0 < src.length ∧ r.2 > ip.size then
        (iupdate sb (r.1.setInode i { ip with size := r.2 }) i, src.length)
      else (r.1, src.length)

/-- The first loop of `itrunc`, over the numbers left. -/
def truncDirect (sb : Superblock) (i : Nat) : List Nat → Fs → Option Fs
  | [], fs => some fs
  | j :: js, fs =>
    if (fs.inode i).addr j = 0 then truncDirect sb i js fs
    else
      (bfree sb fs ((fs.inode i).addr j)).bind fun fs =>
        truncDirect sb i js (fs.setInode i ((fs.inode i).setAddr j 0))

/-- The second loop. -/
def truncEntries (sb : Superblock) (table : Nat) : List Nat → Fs → Option Fs
  | [], fs => some fs
  | j :: js, fs =>
    if entry (fs.disk table) j = 0 then truncEntries sb table js fs
    else (bfree sb fs (entry (fs.disk table) j)).bind (truncEntries sb table js)

def truncIndirect (sb : Superblock) (i : Nat) (fs : Fs) : Option Fs :=
  let table := (fs.inode i).addr NDIRECT
  if table = 0 then some fs
  else
    (truncEntries sb table (List.range NINDIRECT) fs).bind fun fs =>
      (bfree sb fs table).map fun fs => fs.setInode i ((fs.inode i).setAddr NDIRECT 0)

def itrunc (sb : Superblock) (fs : Fs) (i : Nat) : Option Fs :=
  ((truncDirect sb i (List.range NDIRECT) fs).bind (truncIndirect sb i)).map fun fs =>
    iupdate sb (fs.setInode i { fs.inode i with size := 0 }) i

/-- `iput` of the last reference to an inode without links. -/
def ifree (sb : Superblock) (fs : Fs) (i : Nat) : Option Fs :=
  (itrunc sb fs i).map fun fs => iupdate sb (fs.setInode i { fs.inode i with type := 0 }) i

end Cs3650.Xv6.Blocks
