import Cs3650.Malloc.HwxInvariant

/-!
# Memory that is mapped

`step` lets a call read and write bytes of pages that an earlier `munmap` has
taken away. On the machine the call dies there. `readCells` follows the free
list and dies at a cell that is not mapped, and `stepChecked` makes a call only
where the list can be read and the block that it gets is mapped. In a calm run
that is always so.
-/

namespace Cs3650.Malloc

open Cs3650.Lib Cs3650.Lib.FirstFit

namespace Pages

/-- The `n` bytes from `a` on are mapped. -/
def backs (pg : Pages) (a n : Nat) : Bool :=
  (List.range n).all fun i => pg.mapped ((a + i) / pageSize)

/-- The same pages for a kernel that may return what was unmapped: what is not
taken is what is not mapped. -/
def now (pg : Pages) : Pages := { pg with reuse := true }

theorem taken_now (pg : Pages) (p : Nat) : pg.now.taken p = pg.mapped p := by
  simp [taken, now]

theorem Free.now {pg : Pages} {a len : Nat} (h : pg.Free a len) : pg.now.Free a len := by
  obtain ⟨hpos, halign, hbase, hstop, hfree⟩ := h
  refine ⟨hpos, halign, hbase, hstop, fun i hi => ?_⟩
  have htaken := hfree i hi
  rw [taken, Bool.or_eq_false_iff] at htaken
  rw [taken_now]
  exact htaken.1

theorem backs_of_holds {pg : Pages} {r : Region} (h : pg.now.Holds r) {n : Nat} (hn : n ≤ r.len) :
    pg.backs r.base n = true := by
  rw [backs, List.all_eq_true]
  intro i hi
  have hlt : i < n := List.mem_range.mp hi
  rw [← taken_now]
  refine h _ (Nat.le_add_right _ _) ?_
  unfold Region.stop
  omega

end Pages

namespace Hwx

open FreeList

def readFrom (h : Heap) : Nat → Nat → Except Fault (List Region)
  | 0, _ => .error .diverges
  | fuel + 1, p =>
    if p = 0 then .ok []
    else if h.pages.backs p sizeofFlCell then do
      let cs ← readFrom h fuel (h.list.next p)
      .ok (⟨p, h.list.size p⟩ :: cs)
    else .error .segv

/-- The free list, as it can be read. -/
def readCells (h : Heap) : Except Fault (List Region) := readFrom h walkFuel h.list.head

/-- The pointer that the call gets. -/
def Event.pointer : Event → Nat
  | .malloc _ _ => 0
  | .free p => p
  | .realloc p _ _ => p
  | .write p _ _ => p

/-- A call on a machine that checks the list and the block before it. -/
def stepChecked (w : World) (e : Event) : Except Fault World := do
  let _ ← readCells w.heap
  if ∀ k ∈ w.live, k.base + 8 = e.pointer → w.heap.pages.backs k.base k.len = true then step w e
  else .error .segv

/-- Every free cell and every live chunk is mapped. -/
def Here (s : Spec) : Prop := Layout s.pages.now s.free s.live

theorem here_malloc {size : Nat} (hsize : sizeofFlCell ≤ size) {answers : List Nat} {s s' : Spec}
    {k : Region} (h : Here s) (hm : Spec.malloc size answers s = .ok (k, s')) : Here s' := by
  rcases malloc_cases hm with ⟨-, addr, hf, rfl, hs⟩ | ⟨-, free, pages, hserves, hc, hs⟩
  · rw [hs]
    exact Layout.map h hf.now (roundUp_pages size)
  · rw [hs]
    cases hserves with
    | hit => exact Layout.carve h hsize hc
    | miss _ _ hf => exact (Layout.map h hf.now pageCount_pageSize).release.carve hsize hc

theorem here_free₁ {s : Spec} (h : Here s)
    (hused : ∀ p, s.pages.mapped p = true → s.pages.used p = true)
    {k : Region} (hk : k ∈ s.live) (hwhole : WholePages k) : Here (s.free₁ k) := by
  have hperm := lose_perm h.live_apart (fun r hr => (h.chunk_ok hr).pos) hk
  have hlay := h.perm hperm
  unfold Spec.free₁
  by_cases hbig : pageSize ≤ k.len
  · rw [if_pos hbig]
    obtain ⟨hbase, hlen⟩ := hwhole hbig
    have hlt : k.len < 2 ^ 64 := by
      have hstop := (h.chunk_ok hk).2.2
      unfold Region.stop at hstop
      omega
    refine hlay.munmap hused (Or.inr ⟨hbase, ?_, roundUp_pages _⟩)
    rw [roundUp_of_whole hlen hlt]
  · rw [if_neg hbig]
    exact hlay.release

theorem here_step {w : World} {s s' : Spec} (hw : RepWorld w s) (h : Here s)
    (hwhole : ∀ k ∈ s.live, WholePages k) {e : Event} (hc : Calm w e) (hs : s.step e = .ok s') :
    Here s' := by
  cases spec_steps hs with
  | malloc hm => exact here_malloc (clamp_ge _) h hm
  | free hk => exact here_free₁ h hw.heap.used hk (hwhole _ hk)
  | fresh _ hm => exact here_malloc (clamp_ge _) h hm
  | nothing => exact h
  | drop hk => exact here_free₁ h hw.heap.used hk (hwhole _ hk)
  | move hk hn hm =>
    obtain ⟨hlive, -, -⟩ := malloc_live hm
    exact here_free₁ (here_malloc (clamp_ge _) h hm) (hw.layout_malloc hm).2
      (hlive ▸ List.mem_cons_of_mem _ hk) (hwhole _ hk)
  | write => exact h

theorem here_empty (reuse : Bool) : Here (emptySpec reuse) := by
  refine ⟨List.Pairwise.nil, ?_, ?_, List.Pairwise.nil, ?_⟩
  · simp [emptySpec]
  · simp [emptySpec]
  · simp [emptySpec]

theorem readFrom_spec {h : Heap} {q : Nat} {cs : List Region} (hl : Links h.list.mem q cs 0)
    (hok : ∀ r ∈ cs, CellOk r) (hmapped : ∀ r ∈ cs, h.pages.now.Holds r) {fuel : Nat}
    (hfuel : cs.length < fuel) : readFrom h fuel (firstBase cs 0) = .ok cs := by
  induction cs generalizing q fuel with
  | nil =>
    obtain ⟨fuel, rfl⟩ := Nat.exists_eq_succ_of_ne_zero (Nat.ne_of_gt hfuel)
    rfl
  | cons c cs ih =>
    obtain ⟨fuel, rfl⟩ := Nat.exists_eq_succ_of_ne_zero (Nat.ne_of_gt (Nat.zero_lt_of_lt hfuel))
    obtain ⟨hcell, hrest⟩ := hl
    have hnext : h.list.next c.base = firstBase cs 0 := hcell.next
    have hsize : h.list.size c.base = c.len := hcell.size
    have hc : CellOk c := hok c List.mem_cons_self
    have hbacks := Pages.backs_of_holds (hmapped c List.mem_cons_self) hc.1
    have hlen : cs.length < fuel := by simpa using hfuel
    have hih := ih hrest (fun r hr => hok r (List.mem_cons_of_mem _ hr))
      (fun r hr => hmapped r (List.mem_cons_of_mem _ hr)) hlen
    rw [firstBase_cons, readFrom, if_neg (Nat.ne_of_gt hc.2.1), if_pos hbacks, hnext, hsize, hih]
    rfl

theorem readCells_spec {h : Heap} {s : Spec} (hr : Rep h s) (hs : Here s) :
    readCells h = .ok s.free := by
  have hok : ∀ r ∈ s.free, CellOk r := fun r hmem => hr.layout.cell_ok hmem
  unfold readCells
  rw [hr.linked.1]
  refine readFrom_spec hr.linked.2 hok (fun r hmem => ?_)
    (length_ascending hr.layout.separated.ascending hok)
  rw [hr.pages]
  exact hs.holds r (List.mem_append_left _ hmem)

/-- A first cell that is not mapped cannot be read. -/
theorem readCells_unmapped {h : Heap} {s : Spec} (hr : Rep h s) {c : Region} {cs : List Region}
    (hfree : s.free = c :: cs) (hc : s.pages.backs c.base sizeofFlCell = false) :
    readCells h = .error .segv := by
  have hpos : c.base ≠ 0 := Nat.ne_of_gt (hr.layout.cell_ok (hfree ▸ List.mem_cons_self)).2.1
  have hhead : h.list.head = c.base := by
    rw [hr.linked.1, hfree]
    rfl
  rw [readCells, hhead, walkFuel, show 2 ^ 64 = (2 ^ 64 - 1) + 1 from rfl, readFrom,
    if_neg hpos, hr.pages, hc]
  rfl

theorem stepChecked_eq {w : World} {s : Spec} (hw : RepWorld w s) (hs : Here s) (e : Event) :
    stepChecked w e = step w e := by
  have hblock : ∀ k ∈ w.live, k.base + 8 = e.pointer → w.heap.pages.backs k.base k.len = true := by
    intro k hk _
    rw [hw.heap.pages]
    exact Pages.backs_of_holds (hs.holds k (List.mem_append_right _ (hw.live ▸ hk))) (Nat.le_refl _)
  rw [stepChecked, readCells_spec hw.heap hs, ok_bind, if_pos hblock]

/-- A request that gets less than a page is calm. -/
theorem calm_of_small {w : World} {s s' : Spec} (hw : RepWorld w s) {size : Nat}
    {answers : List Nat}
    {k : Region} (hm : Spec.malloc size answers s = .ok (k, s')) (hk : k.len < pageSize) :
    FitsCalmly w size answers := by
  intro hsmall cells r hcells hfirst hrest hbig
  rw [freeCells_spec hw.heap, Option.some.injEq] at hcells
  subst hcells
  rcases malloc_cases hm with ⟨hlarge, -⟩ | ⟨-, free, pages, hserves, hc, -⟩
  · omega
  · obtain ⟨r', hfind, -, hcase⟩ := find_of_carve hc
    have hsame : firstFit s.free size answers = some r' := by
      unfold firstFit
      cases hserves with
      | hit => rw [hfind]
      | miss hnone hans hf =>
        rw [find_of_carve_none hnone, hans]
        exact hfind
    rw [hfirst, Option.some.injEq] at hsame
    subst hsame
    rcases hcase with ⟨hlt, -⟩ | ⟨-, rfl⟩ <;> omega

/-! ## Runs of the lists that are calm -/

def Spec.fits (s : Spec) (size : Nat) (answers : List Nat) : Bool :=
  pageSize ≤ size || (firstFit s.free size answers).all fun r =>
    sizeofFlCell < r.len - size || r.len < pageSize || (r.len == pageSize && r.base % pageSize == 0)

def Spec.calm (s : Spec) : Event → Bool
  | .malloc n answers => s.fits (clamp (withHeader n)) answers
  | .realloc _ n answers => n == 0 || s.fits (clamp (withHeader n)) answers
  | _ => true

theorem fitsCalmly_of_fits {w : World} {s : Spec} (hw : RepWorld w s) {size : Nat}
    {answers : List Nat} (h : s.fits size answers = true) : FitsCalmly w size answers := by
  intro hsmall cells r hcells hfirst hrest hbig
  rw [freeCells_spec hw.heap, Option.some.injEq] at hcells
  subst hcells
  rw [Spec.fits, hfirst] at h
  simp only [Option.all_some, Bool.or_eq_true, Bool.and_eq_true, decide_eq_true_eq, beq_iff_eq] at h
  omega

theorem calm_of_spec {w : World} {s : Spec} {e : Event} (hw : RepWorld w s) (h : s.calm e = true) :
    Calm w e := by
  cases e with
  | malloc n answers => exact fitsCalmly_of_fits hw h
  | free p => trivial
  | realloc p n answers =>
    intro hn
    rw [Spec.calm, Bool.or_eq_true, beq_iff_eq] at h
    exact fitsCalmly_of_fits hw (h.resolve_left hn)
  | write p off b => trivial

/-- A run of the lists whose events all pass the check. -/
def Spec.runIf (ok : Spec → Event → Bool) (s : Spec) : List Event → Option Spec
  | [] => some s
  | e :: es => if ok s e then (s.run [e]).bind fun s' => s'.runIf ok es else none

end Hwx

end Cs3650.Malloc
