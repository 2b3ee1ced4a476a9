import Cs3650.Lib.FirstFit
import Cs3650.Malloc.Os

/-!
# The address-ordered free list (chal2/starter-ch02/hwx_malloc.c, lines 29–202)

A cell of the list lies in the free memory itself: `size` in its first word,
`next` in the second and `last` in the third. A pointer is a number, `NULL` is
zero. The loops of the source follow `next` until `NULL`; `walkFuel` bounds a
walk by the number of addresses, and a walk that exceeds it is one that never
ends.
-/

namespace Cs3650.Malloc

open Cs3650.Lib

structure FreeList where
  mem : Memory
  head : Nat

def sizeofFlCell : Nat := 24
def walkFuel : Nat := 2 ^ 64

/-- Subtraction of `size_t` values. -/
def subWord (a b : Nat) : Nat := (a + 2 ^ 64 - b) % 2 ^ 64

/-- A free cell or chunk: large enough for its three words, inside the address space. -/
def CellOk (r : Region) : Prop := sizeofFlCell ≤ r.len ∧ 0 < r.base ∧ r.stop < 2 ^ 64

instance (r : Region) : Decidable (CellOk r) := inferInstanceAs (Decidable (_ ∧ _ ∧ _))

theorem cellOk_join {r s : Region} (hr : CellOk r) (hs : CellOk s) (htouch : r.stop = s.base) :
    CellOk ⟨r.base, r.len + s.len⟩ := by
  unfold CellOk sizeofFlCell Region.stop at *
  dsimp only
  omega

theorem CellOk.pos {r : Region} (h : CellOk r) : 0 < r.len :=
  Nat.lt_of_lt_of_le (by decide) h.1

namespace FreeList

def size (fl : FreeList) (p : Nat) : Nat := word fl.mem p
def next (fl : FreeList) (p : Nat) : Nat := word fl.mem (p + 8)
def last (fl : FreeList) (p : Nat) : Nat := word fl.mem (p + 16)

def setSize (fl : FreeList) (p v : Nat) : FreeList := { fl with mem := setWord fl.mem p v }
def setNext (fl : FreeList) (p v : Nat) : FreeList := { fl with mem := setWord fl.mem (p + 8) v }
def setLast (fl : FreeList) (p v : Nat) : FreeList := { fl with mem := setWord fl.mem (p + 16) v }

def makeFlCell (fl : FreeList) (addr size : Nat) : FreeList :=
  ((fl.setSize addr size).setLast addr 0).setNext addr 0

/-- The branch `cur > cell` of the loop in `insert_fl_cell`. -/
def insertBefore (fl : FreeList) (cell cur : Nat) : FreeList :=
  let fl₁ :=
    if fl.last cur ≠ 0 then
      let fl₀ := fl.setNext (fl.last cur) cell
      fl₀.setLast cell (fl₀.last cur)
    else { fl.setLast cell 0 with head := cell }
  (fl₁.setNext cell cur).setLast cur cell

def insertLoop (cell : Nat) : Nat → FreeList → Nat → Except Fault FreeList
  | 0, _, _ => .error .diverges
  | fuel + 1, fl, cur =>
    if cur = 0 then .ok fl
    else if cell < cur then .ok (fl.insertBefore cell cur)
    else if fl.next cur = 0 then .ok (((fl.setNext cur cell).setLast cell cur).setNext cell 0)
    else insertLoop cell fuel fl (fl.next cur)

def insertFlCell (fl : FreeList) (cell : Nat) : Except Fault FreeList :=
  if fl.head = 0 then .ok { (fl.setLast cell 0).setNext cell 0 with head := cell }
  else insertLoop cell walkFuel fl fl.head

def searchSize (fl : FreeList) (size : Nat) : Nat → Nat → Except Fault Nat
  | 0, _ => .error .diverges
  | fuel + 1, cell =>
    if cell = 0 then .ok 0
    else if fl.size cell = 0 then .error .abort
    else if size ≤ fl.size cell then .ok cell
    else searchSize fl size fuel (fl.next cell)

def splitChunk (fl : FreeList) (cell size : Nat) : Except Fault FreeList :=
  let leftover := subWord (fl.size cell) size
  if leftover ≤ sizeofFlCell then .error .abort
  else ((fl.setSize cell size).makeFlCell (cell + size) leftover).insertFlCell (cell + size)

/-- `x` takes over the cell `y` behind it: both halves of `coalesce` do this,
the first for `cell` and `cell->next`, the second for `cell->last` and `cell`. -/
def absorb (fl : FreeList) (x y : Nat) : FreeList :=
  let fl₁ := fl.setNext x (fl.next y)
  let fl₂ := fl₁.setSize x (fl₁.size x + fl₁.size y)
  if fl₂.next y ≠ 0 then fl₂.setLast (fl₂.next y) x else fl₂

/-- One half of `coalesce`, for two cells that follow each other in the list. -/
def coalescePair (fl : FreeList) (x y xEnd : Nat) : Except Fault FreeList :=
  if xEnd = y then .ok (fl.absorb x y)
  else if y < xEnd ∧ x < y then .error .abort
  else .ok fl

def coalesceNext (fl : FreeList) (cell : Nat) : Except Fault FreeList :=
  if fl.next cell ≠ 0 then fl.coalescePair cell (fl.next cell) (cell + fl.size cell) else .ok fl

def coalesceLast (fl : FreeList) (cell : Nat) : Except Fault FreeList :=
  if fl.last cell ≠ 0 then
    fl.coalescePair (fl.last cell) cell (fl.last cell + fl.size (fl.last cell))
  else .ok fl

def coalesce (fl : FreeList) (cell : Nat) : Except Fault FreeList := do
  let fl₁ ← fl.coalesceNext cell
  fl₁.coalesceLast cell

/-- The unlinking at the end of `xmalloc_helper`. -/
def unlink (fl : FreeList) (cell : Nat) : FreeList :=
  let last := fl.last cell
  let next := fl.next cell
  let fl₁ := if last ≠ 0 then fl.setNext last next else { fl with head := next }
  if next ≠ 0 then fl₁.setLast next last else fl₁

/-! ## What the links of a list of cells hold -/

def firstBase (cs : List Region) (e : Nat) : Nat := (cs.head?.map Region.base).getD e
def lastBase (q : Nat) (cs : List Region) : Nat := (cs.getLast?.map Region.base).getD q

structure CellAt (m : Memory) (r : Region) (q e : Nat) : Prop where
  size : word m r.base = r.len
  next : word m (r.base + 8) = e
  last : word m (r.base + 16) = q

/-- The cells `cs` are linked one to the next; `q` is in front of them and `e` behind. -/
def Links (m : Memory) : Nat → List Region → Nat → Prop
  | _, [], _ => True
  | q, c :: cs, e => CellAt m c q (firstBase cs e) ∧ Links m c.base cs e

def Linked (fl : FreeList) (cs : List Region) : Prop :=
  fl.head = firstBase cs 0 ∧ Links fl.mem 0 cs 0

/-- The part of the list up to a place where the pointer `e` stands. -/
def Before (fl : FreeList) (as : List Region) (e : Nat) : Prop :=
  fl.head = firstBase as e ∧ Links fl.mem 0 as e

@[simp] theorem firstBase_nil (e : Nat) : firstBase [] e = e := rfl
@[simp] theorem firstBase_cons (c : Region) (cs : List Region) (e : Nat) :
    firstBase (c :: cs) e = c.base := rfl
@[simp] theorem lastBase_nil (q : Nat) : lastBase q [] = q := rfl
@[simp] theorem lastBase_concat (q : Nat) (cs : List Region) (c : Region) :
    lastBase q (cs ++ [c]) = c.base := by
  simp [lastBase]

theorem lastBase_cons (q : Nat) (c : Region) (cs : List Region) :
    lastBase q (c :: cs) = lastBase c.base cs := by
  cases cs with
  | nil => rfl
  | cons d ds => simp [lastBase, List.getLast?_cons]

theorem firstBase_append (as bs : List Region) (e : Nat) :
    firstBase (as ++ bs) e = firstBase as (firstBase bs e) := by
  cases as <;> rfl

theorem links_append {m : Memory} {q e : Nat} {as bs : List Region} :
    Links m q (as ++ bs) e ↔ Links m q as (firstBase bs e) ∧ Links m (lastBase q as) bs e := by
  induction as generalizing q with
  | nil => simp [Links]
  | cons a as ih =>
    simp only [List.cons_append, Links, firstBase_append, lastBase_cons, ih, and_assoc]

theorem linked_append {fl : FreeList} {as bs : List Region} :
    Linked fl (as ++ bs) ↔
      Before fl as (firstBase bs 0) ∧ Links fl.mem (lastBase 0 as) bs 0 := by
  unfold Linked Before
  rw [links_append, firstBase_append, and_assoc]

theorem CellAt.frame {m m' : Memory} {L : List Region} (hu : UnchangedOff L m m') {r : Region}
    (hr : sizeofFlCell ≤ r.len) (hL : ∀ s ∈ L, s.Apart r) {q e : Nat} (h : CellAt m r q e) :
    CellAt m' r q e := by
  unfold sizeofFlCell at hr
  have hload : ∀ a, r.base ≤ a → a + 8 ≤ r.stop → word m' a = word m a := fun a h1 h2 =>
    hu.word hL h1 h2
  unfold Region.stop at hload
  exact ⟨(hload _ (by omega) (by omega)).trans h.size, (hload _ (by omega) (by omega)).trans h.next,
    (hload _ (by omega) (by omega)).trans h.last⟩

theorem Links.frame {m m' : Memory} {L : List Region} (hu : UnchangedOff L m m')
    {cs : List Region} (hcs : ∀ r ∈ cs, sizeofFlCell ≤ r.len) (hL : ∀ r ∈ cs, ∀ s ∈ L, s.Apart r)
    {q e : Nat} (h : Links m q cs e) : Links m' q cs e := by
  induction cs generalizing q with
  | nil => trivial
  | cons c cs ih =>
    have hc := List.mem_cons_self (a := c) (l := cs)
    refine ⟨h.1.frame hu (hcs c hc) (hL c hc), ?_⟩
    exact ih (fun r hr => hcs r (List.mem_cons_of_mem _ hr))
      (fun r hr => hL r (List.mem_cons_of_mem _ hr)) h.2

end FreeList

end Cs3650.Malloc
