import Cs3650.Lib.Statement
import Cs3650.Nufs.Pages

/-!
# Inodes (hw10/starter-fshw/inode.c)

An inode is named by the address of its record in the inode table. `grow_inode`
and `shrink_inode` can reach their closing brace without a return value; the
caller then gets `junk`.
-/

namespace Cs3650.Nufs

open Cs3650.Lib

def INODE_COUNT : Nat := 256

/-! ## The record -/

namespace Inode

def refs : Int := 0
def mode : Int := 4
def size : Int := 8
def dptrs : Int := 12
def iptr : Int := 20

end Inode

/-- `sizeof(inode)` -/
def INODE_SIZE : Nat := 24

def getInode (inum : Int) : Int := getInodeBase + INODE_SIZE * inum

def allocInode (m : Image) : Image × Int :=
  match firstClear m getInodeBitmap INODE_COUNT with
  | some ii =>
    let node := getInode ii
    let m₁ := fill m node INODE_SIZE 0
    let m₂ := setInt32 m₁ (node + Inode.mode) 0o100644
    (bitmapSet m₂ getInodeBitmap ii 1, ii)
  | none => (m, -1)

def inodeGetPnum (m : Image) (node : Int) (fpn : Nat) : Int :=
  if fpn < 2 then int32 m (node + Inode.dptrs + 4 * fpn)
  else int32 m (pagesGetPage (int32 m (node + Inode.iptr)) + 4 * ((fpn : Int) - 2))

/-- File pages from `fpn` on, at most `fuel`, up to the first that is absent. -/
def ownedFrom (m : Image) (node : Int) : Nat → Nat → Nat
  | _, 0 => 0
  | fpn, fuel + 1 => if inodeGetPnum m node fpn > 0 then ownedFrom m node (fpn + 1) fuel + 1 else 0

def pagesOwned (m : Image) (node : Int) : Nat := ownedFrom m node 0 1026

/-- `pages_owned(node) * 4096` -/
def ownedBytes (m : Image) (node : Int) : Int := pagesOwned m node * 4096

/-! ## Growing -/

/-- One turn of either loop: the page goes to `slot`, unless the loop's own
condition `absent` says there is one. -/
def growTurn (node size slot : Int) (absent : Image → Bool) : Stmt Image Int := fun m =>
  let check := fun m => (m, if ownedBytes m node ≥ size then some 0 else none)
  if ownedBytes m node < size && absent m then
    let (m₁, pageNum) := allocPage m
    if pageNum < 0 then (m₁, some pageNum) else check (setInt32 m₁ slot pageNum)
  else check m

def growDirect (node size : Int) (i : Nat) : Stmt Image Int :=
  growTurn node size (node + Inode.dptrs + 4 * i) fun m =>
    int32 m (node + Inode.dptrs + 4 * i) ≤ 0

def growIndirect (node : Int) : Stmt Image Int := fun m =>
  if int32 m (node + Inode.iptr) = 0 then
    let (m₁, pageNum) := allocPage m
    if pageNum < 0 then (m₁, some pageNum) else (setInt32 m₁ (node + Inode.iptr) pageNum, none)
  else (m, none)

def growEntry (node size pageNums : Int) (i : Nat) : Stmt Image Int :=
  growTurn node size (pageNums + 4 * i) fun _ => true

def growEntries (node size : Int) : Stmt Image Int := fun m =>
  let pageNums := pagesGetPage (int32 m (node + Inode.iptr))
  Stmt.loop (growEntry node size pageNums) 0 1024 m

def growBody (node size : Int) : Stmt Image Int :=
  Stmt.seq (Stmt.loop (growDirect node size) 0 2)
    (Stmt.seq (growIndirect node) (growEntries node size))

def growInode (junk : Int) (m : Image) (node size : Int) : Image × Int :=
  if size > 1026 * 4096 then (m, -1) else Stmt.run (growBody node size) junk m

/-! ## Shrinking -/

def shrinkCheck (node size : Int) (m : Image) : Image × Option Int :=
  (m, if ownedBytes m node ≤ size then some 0 else none)

/-- The count is taken again for the second use of the index. -/
def shrinkEntry (node size : Int) : Stmt Image Int := fun m =>
  shrinkCheck node size <|
    if ownedBytes m node > size then
      let pageNums := pagesGetPage (int32 m (node + Inode.iptr))
      let m₁ := freePage m (int32 m (pageNums + 4 * ((pagesOwned m node : Int) - 2 - 1)))
      setInt32 m₁ (pageNums + 4 * ((pagesOwned m₁ node : Int) - 2 - 1)) 0
    else m

def shrinkEntries (node size : Int) : Stmt Image Int := fun m =>
  Stmt.loop (fun _ => shrinkEntry node size) 0 (pagesOwned m node - 2) m

def shrinkIndirect (node : Int) : Stmt Image Int := fun m =>
  let pageNum := int32 m (node + Inode.iptr)
  let m₁ := if pageNum ≠ 0 then freePage m pageNum else m
  (setInt32 m₁ (node + Inode.iptr) 0, none)

def shrinkDirect (node size : Int) (i : Nat) : Stmt Image Int := fun m =>
  let slot := node + Inode.dptrs + 4 * i
  shrinkCheck node size <|
    if ownedBytes m node > size ∧ int32 m slot > 0 then setInt32 (freePage m (int32 m slot)) slot 0
    else m

def shrinkBody (node size : Int) : Stmt Image Int :=
  Stmt.seq (shrinkEntries node size)
    (Stmt.seq (shrinkIndirect node) (Stmt.loop (fun j => shrinkDirect node size (1 - j)) 0 2))

def shrinkInode (junk : Int) (m : Image) (node size : Int) : Image × Int :=
  if size < 0 then (m, -1) else Stmt.run (shrinkBody node size) junk m

/-- The return value of `shrink_inode` is not looked at. -/
def freeInode (m : Image) (inum : Int) : Image :=
  if inum < 0 then m
  else
    let node := getInode inum
    let m₁ := setInt32 m (node + Inode.refs) (int32 m (node + Inode.refs) - 1)
    if int32 m₁ (node + Inode.refs) = 0 then
      let m₂ := (shrinkInode 0 m₁ node 0).1
      let m₃ := fill m₂ node INODE_SIZE 0
      bitmapSet m₃ getInodeBitmap inum 0
    else m₁

/-! ## Counting pages -/

theorem ownedFrom_le (m : Image) (node : Int) (fpn fuel : Nat) :
    ownedFrom m node fpn fuel ≤ fuel := by
  induction fuel generalizing fpn with
  | zero => exact Nat.le_refl 0
  | succ fuel ih =>
    have hrest := ih (fpn + 1)
    simp only [ownedFrom]
    by_cases h : inodeGetPnum m node fpn > 0
    · rw [if_pos h]
      omega
    · rw [if_neg h]
      omega

theorem ownedFrom_pos {m : Image} {node : Int} {fpn fuel i : Nat}
    (h : i < ownedFrom m node fpn fuel) : 0 < inodeGetPnum m node (fpn + i) := by
  induction fuel generalizing fpn i with
  | zero => exact absurd h (Nat.not_lt_zero i)
  | succ fuel ih =>
    simp only [ownedFrom] at h
    by_cases hpos : inodeGetPnum m node fpn > 0
    · rw [if_pos hpos] at h
      cases i with
      | zero => exact hpos
      | succ i =>
        have hrest := @ih (fpn + 1) i (by omega)
        rwa [Nat.add_right_comm, Nat.add_assoc] at hrest
    · rw [if_neg hpos] at h
      omega

theorem ownedFrom_stop {m : Image} {node : Int} {fpn fuel : Nat}
    (h : ownedFrom m node fpn fuel < fuel) :
    inodeGetPnum m node (fpn + ownedFrom m node fpn fuel) ≤ 0 := by
  induction fuel generalizing fpn with
  | zero => exact absurd h (Nat.not_lt_zero _)
  | succ fuel ih =>
    simp only [ownedFrom] at h ⊢
    by_cases hpos : inodeGetPnum m node fpn > 0
    · rw [if_pos hpos] at h ⊢
      have hrest := @ih (fpn + 1) (by omega)
      rwa [Nat.add_right_comm, Nat.add_assoc] at hrest
    · rw [if_neg hpos]
      exact Int.not_lt.mp hpos

theorem pagesOwned_le (m : Image) (node : Int) : pagesOwned m node ≤ 1026 :=
  ownedFrom_le m node 0 1026

theorem pnum_pos {m : Image} {node : Int} {i : Nat} (h : i < pagesOwned m node) :
    0 < inodeGetPnum m node i := by
  have hpos := ownedFrom_pos h
  rwa [Nat.zero_add] at hpos

theorem pnum_stop {m : Image} {node : Int} (h : pagesOwned m node < 1026) :
    inodeGetPnum m node (pagesOwned m node) ≤ 0 := by
  have hstop := ownedFrom_stop h
  rwa [Nat.zero_add] at hstop

theorem pagesOwned_ge {m : Image} {node : Int} {n : Nat} (hn : n ≤ 1026)
    (hpos : ∀ i < n, 0 < inodeGetPnum m node i) : n ≤ pagesOwned m node := by
  by_contra hlt
  have hstop : inodeGetPnum m node (pagesOwned m node) ≤ 0 := pnum_stop (by omega)
  have := hpos (pagesOwned m node) (by omega)
  omega

theorem pagesOwned_eq {m : Image} {node : Int} {n : Nat} (hn : n ≤ 1026)
    (hpos : ∀ i < n, 0 < inodeGetPnum m node i) (hstop : n < 1026 → inodeGetPnum m node n ≤ 0) :
    pagesOwned m node = n := by
  have hle := pagesOwned_le m node
  apply Nat.le_antisymm
  · by_contra hlt
    have hlt' : n < pagesOwned m node := by omega
    have := pnum_pos hlt'
    have := hstop (by omega)
    omega
  · by_contra hlt
    have := hpos (pagesOwned m node) (by omega)
    have hstop : inodeGetPnum m node (pagesOwned m node) ≤ 0 := pnum_stop (by omega)
    omega

theorem pagesOwned_congr {m m' : Image} {node node' : Int}
    (h : ∀ i < 1026, inodeGetPnum m' node' i = inodeGetPnum m node i) :
    pagesOwned m' node' = pagesOwned m node := by
  have hle := pagesOwned_le m node
  apply pagesOwned_eq hle
  · intro i hi
    rw [h i (by omega)]
    exact pnum_pos hi
  · intro hlt
    rw [h _ hlt]
    exact pnum_stop hlt

end Cs3650.Nufs
