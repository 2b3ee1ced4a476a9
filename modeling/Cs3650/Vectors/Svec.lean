import Cs3650.Lib.Footprint
import Mathlib.Logic.Function.Basic

/-!
# String vectors (chal1/challenge01/svec.c and hw04/starter-hw04/svec.c)

Both copies keep an array of pointers with room for `size` of them, `spaces` in
use. The one of chal1 clears the room it takes, the one of hw04 leaves in it what
the memory held. What the allocator answers is told beforehand, one answer for
each request, and a request that is refused ends the run.
-/

namespace Cs3650.Vectors

open Cs3650.Lib

abbrev Str := List Byte
/-- 0 is the null pointer. -/
abbrev Ptr := Nat

inductive Fault
  /-- an `assert` that fails -/
  | assertion
  /-- outside a block, of a place nobody wrote, or of a string that is not there -/
  | badAccess
  | badFree
  | outOfMemory
  | outOfTurns
  deriving DecidableEq, Repr

/-- A pointer in an array, and whether the program put it there. -/
structure Slot where
  ptr : Ptr
  written : Bool
  deriving DecidableEq, Repr

structure Svec where
  size : Int
  spaces : Int
  data : List Slot
  deriving DecidableEq, Repr

/-- Where a new block begins, 0 when it is refused, and what it holds. -/
structure Answer where
  addr : Ptr
  garbage : Nat → Ptr

/-- The strings in memory, and what the allocator answers from now on. -/
structure World where
  heap : Ptr → Option Str
  answers : Nat → Answer

namespace World

def answer (w : World) : Answer := w.answers 0
def answered (w : World) : World := { w with answers := fun k => w.answers (k + 1) }

end World

/-- Empty memory that answers with one address after the other and reads as zero. -/
def zeroed : World := ⟨fun _ => none, fun k => ⟨k + 1, fun _ => 0⟩⟩

/-- An `int` -/
def int (x : Int) : Int := x.bmod (2 ^ 32)

/-- `x * sizeof(char*)`, a `size_t` -/
def bytes (x : Int) : Nat := ((x % 2 ^ 64) * 8 % 2 ^ 64).toNat

/-! ## The library -/

def strdup (w : World) (s : Str) : Except Fault (World × Ptr) :=
  let p := w.answer.addr
  if p = 0 ∨ (w.heap p).isSome then .error .outOfMemory
  else .ok ({ w.answered with heap := Function.update w.heap p (some s) }, p)

def free (w : World) (p : Ptr) : Except Fault World :=
  if (w.heap p).isSome then .ok { w with heap := Function.update w.heap p none }
    else .error .badFree

/-- `n` pointers at the end of a block that has just been taken. -/
def fresh (a : Answer) (n : Nat) : List Slot := (List.range n).map fun k => ⟨a.garbage k, false⟩

/-- No block is longer than `PTRDIFF_MAX`. -/
def malloc (w : World) (n : Nat) : Except Fault (World × List Slot) :=
  if w.answer.addr = 0 ∨ 2 ^ 63 ≤ n then .error .outOfMemory
  else .ok (w.answered, fresh w.answer (n / 8))

def memset (data : List Slot) (start count : Nat) : Except Fault (List Slot) :=
  if start + count ≤ data.length then
    .ok (data.take start ++ List.replicate count ⟨0, true⟩ ++ data.drop (start + count))
  else .error .badAccess

def realloc (w : World) (data : List Slot) (n : Nat) : Except Fault (World × List Slot) := do
  let (w', block) ← malloc w n
  return (w', data.take (n / 8) ++ block.drop data.length)

/-- The string behind a pointer; nothing behind the null pointer. -/
def deref (w : World) (p : Ptr) : Except Fault (Option Str) :=
  if p = 0 then .ok none
  else
    match w.heap p with
    | some s => .ok (some s)
    | none => .error .badAccess

/-! ## svec.c -/

namespace Svec

/-- The place `data[ii]`, written or not. -/
def slot (sv : Svec) (ii : Int) : Except Fault Slot :=
  if ii < 0 then .error .badAccess
  else
    match sv.data[ii.toNat]? with
    | some s => .ok s
    | none => .error .badAccess

/-- The value of `data[ii]`. -/
def load (sv : Svec) (ii : Int) : Except Fault Ptr := do
  let s ← sv.slot ii
  if s.written then .ok s.ptr else .error .badAccess

def store (sv : Svec) (ii : Int) (p : Ptr) : Svec :=
  { sv with data := sv.data.set ii.toNat ⟨p, true⟩ }

end Svec

def svecGet (sv : Svec) (ii : Int) : Except Fault Ptr :=
  if 0 ≤ ii ∧ ii < sv.spaces then sv.load ii else .error .assertion

/-- `if (sv->data[ii]) free(sv->data[ii])`: what nobody wrote is not a pointer to free. -/
def freeSlot (w : World) (s : Slot) : Except Fault World :=
  if s.ptr = 0 then .ok w else if s.written then free w s.ptr else .error .badFree

/-- The `copy` of `svec_put`. -/
def copyOf (w : World) (item : Option Str) : Except Fault (World × Ptr) :=
  match item with
  | some s => strdup w s
  | none => .ok (w, 0)

def svecPut (w : World) (sv : Svec) (ii : Int) (item : Option Str) : Except Fault (World × Svec) :=
  if 0 ≤ ii ∧ ii < sv.spaces then do
    let (w₁, copy) ← copyOf w item
    let old ← sv.slot ii
    let w₂ ← freeSlot w₁ old
    return (w₂, sv.store ii copy)
  else .error .assertion

/-- The `memset` behind `realloc`, which one of the copies makes. -/
def clearRoom (clear : Bool) (block : List Slot) (size : Nat) : Except Fault (List Slot) :=
  if clear then memset block size size else .ok block

/-- The growth in `svec_push_back`. -/
def grow (clear : Bool) (w : World) (sv : Svec) : Except Fault (World × Svec) :=
  if sv.spaces ≥ sv.size then do
    let newSize := int (sv.size * 2)
    let (w₁, block) ← realloc w sv.data (bytes newSize)
    let data ← clearRoom clear block sv.size.toNat
    return (w₁, { sv with data := data, size := newSize })
  else .ok (w, sv)

def pushBack (clear : Bool) (w : World) (sv : Svec) (item : Option Str) :
    Except Fault (World × Svec) := do
  let ii := sv.spaces
  let (w₁, sv₁) ← grow clear w sv
  svecPut w₁ { sv₁ with spaces := int (sv₁.spaces + 1) } ii item

def svecSwap (sv : Svec) (ii jj : Int) : Except Fault Svec := do
  let slot1 ← svecGet sv ii
  let slot2 ← svecGet sv jj
  return (sv.store ii slot2).store jj slot1

namespace Chal1

def makeSvec (w : World) : Except Fault (World × Svec) := do
  let (w₁, block) ← malloc w (bytes 2)
  let data ← memset block 0 2
  return (w₁, ⟨2, 0, data⟩)

def svecPushBack : World → Svec → Option Str → Except Fault (World × Svec) := pushBack true

/-- The loop of `svec_reverse` from `ii` on. -/
def reverseFrom : Nat → Svec → Int → Except Fault Svec
  | 0, sv, ii => if ii < sv.spaces.tdiv 2 then .error .outOfTurns else .ok sv
  | turns + 1, sv, ii =>
    if ii < sv.spaces.tdiv 2 then do
      let sv₁ ← svecSwap sv ii (sv.spaces - ii - 1)
      reverseFrom turns sv₁ (ii + 1)
    else .ok sv

def svecReverse (sv : Svec) : Except Fault Svec := reverseFrom (sv.spaces.tdiv 2).toNat sv 0

/-- The loop of `sub_svec` from `ii` on. -/
def subFrom (sv : Svec) (endIndex : Int) : Nat → World → Svec → Int → Except Fault (World × Svec)
  | 0, w, newSv, ii => if ii < endIndex then .error .outOfTurns else .ok (w, newSv)
  | turns + 1, w, newSv, ii =>
    if ii < endIndex then do
      let p ← svecGet sv ii
      let item ← deref w p
      let (w₁, newSv₁) ← svecPushBack w newSv item
      subFrom sv endIndex turns w₁ newSv₁ (ii + 1)
    else .ok (w, newSv)

def subSvec (w : World) (sv : Svec) (startIndex endIndex : Int) : Except Fault (World × Svec) :=
  if endIndex ≤ sv.spaces ∧ startIndex ≥ 0 then do
    let (w₁, newSv) ← makeSvec w
    subFrom sv endIndex (endIndex - startIndex).toNat w₁ newSv startIndex
  else .error .assertion

def svecClone (w : World) (sv : Svec) : Except Fault (World × Svec) := subSvec w sv 0 sv.spaces

end Chal1

namespace Hw04

def makeSvec (w : World) : Except Fault (World × Svec) := do
  let (w₁, block) ← malloc w (bytes 2)
  return (w₁, ⟨2, 0, block⟩)

def svecPushBack : World → Svec → Option Str → Except Fault (World × Svec) := pushBack false

end Hw04

end Cs3650.Vectors
