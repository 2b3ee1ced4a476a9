import Cs3650.Malloc.HwxMalloc

/-!
# The homework allocator (hw08/hw08-assignment/hmalloc.c)

`make_fl_cell`, `insert_fl_cell`, `coalesce` and `div_up` have the text of
`hwx_malloc.c` and are not repeated. The other functions differ: the search and
the split assert nothing, a cell is taken out with a test of `head` in place
of one of `last`, the recursion goes through the public call, and there are
counters.
-/

namespace Cs3650.Malloc.Hmalloc

open Cs3650.Lib
open Hwx (divUp roundUp clamp withHeader lose)

/-- `hm_stats`; `free_length` is computed anew whenever it is reported. -/
structure Stats where
  pagesMapped : Int
  pagesUnmapped : Int
  chunksAllocated : Int
  chunksFreed : Int
  deriving DecidableEq, Repr

structure Heap where
  list : FreeList
  pages : Pages
  stats : Stats

def searchSize (fl : FreeList) (size : Nat) : Nat → Nat → Except Fault Nat
  | 0, _ => .error .diverges
  | fuel + 1, cell =>
    if cell = 0 then .ok 0
    else if size ≤ fl.size cell then .ok cell
    else searchSize fl size fuel (fl.next cell)

def splitChunk (fl : FreeList) (cell size : Nat) : Except Fault FreeList :=
  let leftover := subWord (fl.size cell) size
  ((fl.setSize cell size).makeFlCell (cell + size) leftover).insertFlCell (cell + size)

/-- The unlinking in `hmalloc`. -/
def unlink (fl : FreeList) (cell : Nat) : FreeList :=
  let last := fl.last cell
  let next := fl.next cell
  let fl₁ := if last ≠ 0 then fl.setNext last next else fl
  let fl₂ := if next ≠ 0 then fl₁.setLast next last else fl₁
  if fl₂.head = cell then { fl₂ with head := next } else fl₂

def takeCell (h : Heap) (cell size : Nat) : Except Fault (Nat × Heap) := do
  let fl ←
    if sizeofFlCell < subWord (h.list.size cell) size then splitChunk h.list cell size
    else .ok h.list
  .ok (cell + 8, { h with
    list := unlink fl cell
    stats := { h.stats with chunksAllocated := h.stats.chunksAllocated + 1 } })

/-- The large path of `hmalloc`. -/
def mapLarge (h : Heap) (size : Nat) : List Nat → Except Fault (Nat × Heap)
  | [] => .error .noMemory
  | addr :: _ => do
    let (m, pg) ← mmap h.list.mem h.pages addr (roundUp size)
    .ok (addr + 8, {
      list := { h.list with mem := setWord m addr (roundUp size) }
      pages := pg
      stats := { h.stats with
        pagesMapped := h.stats.pagesMapped + divUp size
        chunksAllocated := h.stats.chunksAllocated + 1 } })

/-- A fresh page goes to the free list. -/
def addPage (h : Heap) (addr : Nat) : Except Fault Heap := do
  let (m, pg) ← mmap h.list.mem h.pages addr pageSize
  let fl ← ({ h.list with mem := m }.makeFlCell addr pageSize).insertFlCell addr
  let fl ← fl.coalesce addr
  .ok ⟨fl, pg, { h.stats with pagesMapped := h.stats.pagesMapped + 1 }⟩

def hmalloc (answers : List Nat) (size₀ : Nat) (h : Heap) : Except Fault (Nat × Heap) :=
  let size := clamp (withHeader size₀)
  if pageSize ≤ size then mapLarge h size answers
  else do
    let anyFree ← searchSize h.list size walkFuel h.list.head
    if anyFree ≠ 0 then takeCell h anyFree size
    else
      match answers with
      | [] => .error .noMemory
      | addr :: rest => do
        let h' ← addPage h addr
        hmalloc rest (subWord size 8) h'

/-- The address that `munmap` gets is that of the block, not that of its header. -/
def hfree (h : Heap) (item : Nat) : Except Fault Heap :=
  let cell := item - 8
  let size := h.list.size cell
  if pageSize ≤ size then
    .ok { h with
      pages := h.pages.munmap item (roundUp size)
      stats := { h.stats with
        pagesUnmapped := h.stats.pagesUnmapped + divUp size
        chunksFreed := h.stats.chunksFreed + 1 } }
  else do
    let fl ← (h.list.makeFlCell cell size).insertFlCell cell
    let fl ← fl.coalesce cell
    .ok { h with
      list := fl
      stats := { h.stats with chunksFreed := h.stats.chunksFreed + 1 } }

/-! ## Runs -/

structure World where
  heap : Heap
  live : List Region

inductive Event
  | malloc (n : Nat) (answers : List Nat)
  | free (p : Nat)
  | write (p off : Nat) (b : Byte)

def chunkAt (h : Heap) (p : Nat) : Region := ⟨p - 8, h.list.size (p - 8)⟩

def step (w : World) : Event → Except Fault World
  | .malloc n answers => do
    let (p, h) ← hmalloc answers n w.heap
    .ok ⟨h, chunkAt h p :: w.live⟩
  | .free p => do
    let h ← hfree w.heap p
    .ok ⟨h, lose p w.live⟩
  | .write p off b =>
    .ok ⟨{ w.heap with
      list := { w.heap.list with mem := patch w.heap.list.mem (p + off : Nat) 1 fun _ => b } },
      w.live⟩

def Allowed (w : World) : Event → Prop
  | .malloc _ _ => True
  | .free p => ∃ k ∈ w.live, k.base + 8 = p
  | .write p off _ => ∃ k ∈ w.live, k.base + 8 = p ∧ 8 + off < k.len

def emptyWorld (reuse : Bool) (m : Memory) : World :=
  ⟨⟨⟨m, 0⟩, Pages.empty reuse, ⟨0, 0, 0, 0⟩⟩, []⟩

/-- A run, with the world in which each of its events happened, the last event first. -/
inductive Run (reuse : Bool) (m : Memory) : List (World × Event) → World → Prop
  | empty : Run reuse m [] (emptyWorld reuse m)
  | step {past : List (World × Event)} {w w' : World} {e : Event} (hw : Run reuse m past w)
      (ha : Allowed w e) (hs : step w e = .ok w') : Run reuse m ((w, e) :: past) w'

/-- The same heap without the counters. -/
def Heap.hwx (h : Heap) : Hwx.Heap := ⟨h.list, h.pages⟩

def freeCells (h : Heap) : Option (List Region) := Hwx.freeCells h.hwx

end Cs3650.Malloc.Hmalloc
