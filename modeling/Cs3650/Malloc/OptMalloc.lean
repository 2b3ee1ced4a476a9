import Cs3650.Malloc.Os

/-!
# The bin allocator (chal2/starter-ch02/opt_malloc.c)

`heads[i]` starts a singly linked list of cells of `2^(i+5)` bytes. A call maps
memory at most once; the address that the kernel answers with is an argument.
Every public call runs under `fl_lock`, so a trace of any number of threads is
a sequence of whole calls and of byte accesses to the blocks.
-/

namespace Cs3650.Malloc.Opt

open Cs3650.Lib

structure Heap where
  mem : Memory
  heads : Nat → Nat
  pages : Pages

def heapSize : Nat := 1048576
def sizeofFlCell : Nat := 24
def numBins : Nat := 16

def makeFlCell (m : Memory) (addr size : Nat) : Memory :=
  setWord (setWord (setWord m addr size) (addr + 16) 0) (addr + 8) 0

def pop (h : Heap) (index : Nat) : Except Fault (Nat × Heap) :=
  let temp := h.heads index
  if temp = 0 then .error .segv
  else .ok (temp, { h with heads := Function.update h.heads index (word h.mem (temp + 8)) })

def insertFlCell (h : Heap) (i cell : Nat) : Heap :=
  { h with mem := setWord h.mem (cell + 8) (h.heads i), heads := Function.update h.heads i cell }

def pullFromAbove (h : Heap) (i : Nat) : Except Fault Heap := do
  let (snatched, h₁) ← pop h (i + 1)
  let size := 2 ^ (i + 5)
  let newCell := snatched + size
  let h₂ := { h₁ with mem := makeFlCell (setWord h₁.mem snatched size) newCell size }
  .ok (insertFlCell (insertFlCell h₂ i newCell) i snatched)

/-- `redistribute(15 - above)`. -/
def redistributeUp (addr : Nat) : Nat → Heap → Except Fault Heap
  | 0, h =>
    if h.heads 15 ≠ 0 then .ok h
    else do
      let (m, pg) ← mmap h.mem h.pages addr heapSize
      .ok ⟨makeFlCell m addr heapSize, Function.update h.heads 15 addr, pg⟩
  | above + 1, h =>
    if h.heads (14 - above) ≠ 0 then .ok h
    else do
      let h' ← redistributeUp addr above h
      pullFromAbove h' (14 - above)

def redistribute (addr : Nat) (h : Heap) (i : Nat) : Except Fault Heap :=
  redistributeUp addr (15 - i) h

def getFlIndex (size : Nat) : Except Fault Nat :=
  match (List.range numBins).find? fun i => size ≤ 2 ^ (i + 5) with
  | some i => .ok i
  | none => .error .abort

def xmallocHelper (addr size₀ : Nat) (h : Heap) : Except Fault (Nat × Heap) :=
  let size := if size₀ < sizeofFlCell then sizeofFlCell else size₀
  if heapSize < size then do
    let (m, pg) ← mmap h.mem h.pages addr size
    .ok (addr + 8, { h with mem := setWord m addr size, pages := pg })
  else do
    let flIndex ← getFlIndex size
    let h' ← redistribute addr h flIndex
    let (designated, h'') ← pop h' flIndex
    if designated = 0 then .error .abort
    else .ok (designated + 8, h'')

def xmalloc (addr size : Nat) (h : Heap) : Except Fault (Nat × Heap) :=
  xmallocHelper addr ((size + 8) % 2 ^ 64) h

def xfreeHelper (h : Heap) (item : Nat) : Except Fault Heap :=
  let cellAddr := item - 8
  let size := word h.mem cellAddr
  if heapSize < size then .ok { h with pages := h.pages.munmap cellAddr size }
  else do
    let flIndex ← getFlIndex size
    .ok (insertFlCell h flIndex cellAddr)

def xfree (h : Heap) (item : Nat) : Except Fault Heap := xfreeHelper h item

def xreallocHelper (addr : Nat) (h : Heap) (item newSize₀ : Nat) : Except Fault (Nat × Heap) :=
  if item = 0 then xmallocHelper addr ((newSize₀ + 8) % 2 ^ 64) h
  else if newSize₀ = 0 then do
    let h' ← xfreeHelper h item
    .ok (0, h')
  else
    let newSize := (newSize₀ + 8) % 2 ^ 64
    let size := word h.mem (item - 8)
    if newSize ≤ size then .ok (item, h)
    else do
      let (newItem, h₁) ← xmallocHelper addr newSize h
      let h₂ ← xfreeHelper { h₁ with mem := copy h₁.mem newItem item (size - 8) } item
      .ok (newItem, h₂)

def xrealloc (addr : Nat) (h : Heap) (item newSize : Nat) : Except Fault (Nat × Heap) :=
  xreallocHelper addr h item newSize

def readByte (h : Heap) (p off : Nat) : Byte := h.mem ((p + off : Nat) : Int)

def writeByte (h : Heap) (p off : Nat) (b : Byte) : Heap :=
  { h with mem := patch h.mem ((p + off : Nat) : Int) 1 fun _ => b }

/-! ## Traces -/

/-- What the clients know of a block: where it is, how much they asked for,
what its header recorded when they got it, and the last byte written at each
offset. -/
structure Block where
  base : Nat
  size : Nat
  chunk : Nat
  data : Nat → Option Byte

def Block.ptr (b : Block) : Nat := b.base + 8

structure World where
  heap : Heap
  blocks : List Block

inductive Event
  | malloc (n addr : Nat)
  | free (p : Nat)
  | realloc (p n addr : Nat)
  | write (p off : Nat) (b : Byte)

def blockAt (h : Heap) (p n : Nat) (data : Nat → Option Byte) : Block :=
  ⟨p - 8, n, word h.mem (p - 8), data⟩

def without (p : Nat) (blocks : List Block) : List Block := blocks.filter fun b => b.ptr ≠ p

/-- The first `min(old, new)` bytes of a block that is moved or resized. -/
def carried (b : Block) (n : Nat) : Nat → Option Byte :=
  fun off => if off < min b.size n then b.data off else none

def step (w : World) : Event → Except Fault World
  | .malloc n addr => do
    let (p, h) ← xmalloc addr n w.heap
    .ok ⟨h, blockAt h p n (fun _ => none) :: w.blocks⟩
  | .free p => do
    let h ← xfree w.heap p
    .ok ⟨h, without p w.blocks⟩
  | .realloc p n addr => do
    let (q, h) ← xrealloc addr w.heap p n
    match w.blocks.find? fun b => b.ptr = p with
    | none => .ok ⟨h, blockAt h q n (fun _ => none) :: w.blocks⟩
    | some b =>
      if n = 0 then .ok ⟨h, without p w.blocks⟩
      else .ok ⟨h, blockAt h q n (carried b n) :: without p w.blocks⟩
  | .write p off v =>
    .ok ⟨writeByte w.heap p off v,
      w.blocks.map fun b =>
        if b.ptr = p then { b with data := Function.update b.data off (some v) } else b⟩

def LivePtr (w : World) (p : Nat) : Prop := ∃ b ∈ w.blocks, b.ptr = p

/-- Pointers are live, offsets are below the size asked for. -/
def Allowed (w : World) : Event → Prop
  | .malloc n _ => n + 8 < 2 ^ 64
  | .free p => LivePtr w p
  | .realloc p n _ => n + 8 < 2 ^ 64 ∧ (p = 0 ∨ LivePtr w p)
  | .write p off _ => ∃ b ∈ w.blocks, b.ptr = p ∧ off < b.size

def emptyWorld (m : Memory) : World := ⟨⟨m, fun _ => 0, Pages.empty true⟩, []⟩

inductive Reachable (m : Memory) : World → Prop
  | empty : Reachable m (emptyWorld m)
  | step {w w' : World} {e : Event} (hw : Reachable m w) (ha : Allowed w e)
      (hs : step w e = .ok w') : Reachable m w'

end Cs3650.Malloc.Opt
