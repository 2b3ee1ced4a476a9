import Cs3650.Malloc.FreeList

/-!
# The coalescing allocator (chal2/starter-ch02/hwx_malloc.c)

The public calls hold `fl_lock` from entry to return, so a run is a sequence
of whole calls and of writes by the clients. The addresses that the kernel
answers `mmap` with come with each call as a list; `xmalloc_helper` calls
itself again after it has mapped a page, and each such call takes the next
address.

Only the bytes matter here: that a block is read or written while its page is
mapped is not checked.
-/

namespace Cs3650.Malloc.Hwx

open Cs3650.Lib

structure Heap where
  list : FreeList
  pages : Pages

def divUp (xx : Nat) : Nat :=
  let zz := xx / pageSize
  if zz * pageSize = xx then zz else zz + 1

/-- The bytes of the pages that hold `size` bytes, as a `size_t`. -/
def roundUp (size : Nat) : Nat := divUp size * pageSize % 2 ^ 64

def clamp (size : Nat) : Nat := if size < sizeofFlCell then sizeofFlCell else size

/-- `size + sizeof(size_t)`. -/
def withHeader (size : Nat) : Nat := (size + 8) % 2 ^ 64

/-- The tail of `xmalloc_helper`: split the cell found if enough is left, and
take it out of the list. -/
def takeCell (h : Heap) (cell size : Nat) : Except Fault (Nat × Heap) := do
  let fl ←
    if sizeofFlCell < subWord (h.list.size cell) size then h.list.splitChunk cell size
    else .ok h.list
  .ok (cell + 8, { h with list := fl.unlink cell })

/-- The large path of `xmalloc_helper`. -/
def mapLarge (h : Heap) (size : Nat) : List Nat → Except Fault (Nat × Heap)
  | [] => .error .noMemory
  | addr :: _ => do
    let (m, pg) ← mmap h.list.mem h.pages addr (roundUp size)
    .ok (addr + 8, ⟨{ h.list with mem := setWord m addr (roundUp size) }, pg⟩)

/-- A fresh page goes to the free list. -/
def addPage (h : Heap) (addr : Nat) : Except Fault Heap := do
  let (m, pg) ← mmap h.list.mem h.pages addr pageSize
  let fl ← ({ h.list with mem := m }.makeFlCell addr pageSize).insertFlCell addr
  let fl ← fl.coalesce addr
  .ok ⟨fl, pg⟩

def xmallocHelper (answers : List Nat) (size₀ : Nat) (h : Heap) : Except Fault (Nat × Heap) :=
  let size := clamp size₀
  if pageSize ≤ size then mapLarge h size answers
  else do
    let anyFree ← h.list.searchSize size walkFuel h.list.head
    if anyFree = 0 then
      match answers with
      | [] => .error .noMemory
      | addr :: rest => do
        let h' ← addPage h addr
        xmallocHelper rest size h'
    else takeCell h anyFree size

def xmalloc (answers : List Nat) (size : Nat) (h : Heap) : Except Fault (Nat × Heap) :=
  xmallocHelper answers (withHeader size) h

def xfreeHelper (h : Heap) (item : Nat) : Except Fault Heap :=
  let cellAddr := item - 8
  let size := h.list.size cellAddr
  if pageSize ≤ size then .ok { h with pages := h.pages.munmap cellAddr (roundUp size) }
  else do
    let fl ← (h.list.makeFlCell cellAddr size).insertFlCell cellAddr
    let fl ← fl.coalesce cellAddr
    .ok { h with list := fl }

def xfree (h : Heap) (item : Nat) : Except Fault Heap :=
  if item = 0 then .error .abort else xfreeHelper h item

/-- The `memcpy` of `xrealloc_helper`: it copies the recorded size, header
included, when that is below the new size. -/
def copyBlock (h : Heap) (newItem item size newSize : Nat) : Heap :=
  { h with list := { h.list with
      mem := copy h.list.mem newItem item (if size < newSize then size else newSize) } }

def xreallocHelper (answers : List Nat) (h : Heap) (item newSize : Nat) :
    Except Fault (Nat × Heap) :=
  if item = 0 ∧ newSize ≠ 0 then xmallocHelper answers (withHeader newSize) h
  else if item = 0 then .ok (0, h)
  else if newSize = 0 then do
    let h' ← xfreeHelper h item
    .ok (0, h')
  else do
    let size := h.list.size (item - 8)
    let (newItem, h₁) ← xmallocHelper answers (withHeader newSize) h
    let h₂ ← xfreeHelper (copyBlock h₁ newItem item size newSize) item
    .ok (newItem, h₂)

def xrealloc (answers : List Nat) (h : Heap) (item newSize : Nat) : Except Fault (Nat × Heap) :=
  xreallocHelper answers h item newSize

/-! ## Runs -/

/-- A heap and the chunks its clients hold, each with the size that its header
recorded when it was handed out. -/
structure World where
  heap : Heap
  live : List Region

inductive Event
  | malloc (n : Nat) (answers : List Nat)
  | free (p : Nat)
  | realloc (p n : Nat) (answers : List Nat)
  | write (p off : Nat) (b : Byte)

def chunkAt (h : Heap) (p : Nat) : Region := ⟨p - 8, h.list.size (p - 8)⟩

def gain (h : Heap) (p : Nat) (live : List Region) : List Region :=
  if p = 0 then live else chunkAt h p :: live

def lose (p : Nat) (live : List Region) : List Region :=
  live.filter fun k => k.base + 8 ≠ p

def step (w : World) : Event → Except Fault World
  | .malloc n answers => do
    let (p, h) ← xmalloc answers n w.heap
    .ok ⟨h, gain h p w.live⟩
  | .free p => do
    let h ← xfree w.heap p
    .ok ⟨h, lose p w.live⟩
  | .realloc p n answers => do
    let (q, h) ← xrealloc answers w.heap p n
    .ok ⟨h, gain h q (lose p w.live)⟩
  | .write p off b =>
    .ok ⟨{ w.heap with
      list := { w.heap.list with mem := patch w.heap.list.mem (p + off : Nat) 1 fun _ => b } },
      w.live⟩

def LivePtr (w : World) (p : Nat) : Prop := ∃ k ∈ w.live, k.base + 8 = p

/-- What a client may do. A write stays inside the block. -/
def Allowed (w : World) : Event → Prop
  | .malloc n _ => n + 8 < 2 ^ 64
  | .free p => LivePtr w p
  | .realloc p n _ => n + 8 < 2 ^ 64 ∧ (p = 0 ∨ LivePtr w p)
  | .write p off _ => ∃ k ∈ w.live, k.base + 8 = p ∧ 8 + off < k.len

def emptyWorld (reuse : Bool) (m : Memory) : World := ⟨⟨⟨m, 0⟩, Pages.empty reuse⟩, []⟩

/-- The worlds that allowed events lead to, when every event also satisfies `C`. -/
inductive Reachable (C : World → Event → Prop) (reuse : Bool) (m : Memory) : World → Prop
  | empty : Reachable C reuse m (emptyWorld reuse m)
  | step {w w' : World} {e : Event} (hw : Reachable C reuse m w) (ha : Allowed w e) (hc : C w e)
      (hs : step w e = .ok w') : Reachable C reuse m w'

/-- The cells of the free list, by following `next` from a cell on. -/
def cellsFrom (fl : FreeList) : Nat → Nat → Option (List Region)
  | 0, _ => none
  | fuel + 1, p =>
    if p = 0 then some []
    else (cellsFrom fl fuel (fl.next p)).map fun cs => ⟨p, fl.size p⟩ :: cs

def freeCells (h : Heap) : Option (List Region) := cellsFrom h.list walkFuel h.list.head

end Cs3650.Malloc.Hwx
