import Cs3650.Malloc.HwxProof

/-!
# What holds in every run of the coalescing allocator

`WellFormed` says what the free list and the live chunks of a reachable heap
look like, in terms of the memory. `munmap` is the exception: `xfree_helper`
chooses it by the recorded size alone, and first fit can hand out a cell that
coalescing made larger than a page. As long as no request is served by such a
cell, every unmapped range is the chunk itself.
-/

namespace Cs3650.Malloc.Hwx

open Cs3650.Lib Cs3650.Lib.FirstFit FreeList

structure WellFormed (w : World) (free : List Region) : Prop where
  cells : freeCells w.heap = some free
  ascending : free.Pairwise fun r s => r.base < s.base
  separate : free.Pairwise fun r s => r.stop < s.base
  head_last : w.heap.list.head ≠ 0 → w.heap.list.last w.heap.list.head = 0
  next_last : ∀ c ∈ free, w.heap.list.next c.base ≠ 0 →
    w.heap.list.last (w.heap.list.next c.base) = c.base
  last_next : ∀ c ∈ free, w.heap.list.last c.base ≠ 0 →
    w.heap.list.next (w.heap.list.last c.base) = c.base
  size : ∀ c ∈ free, sizeofFlCell ≤ c.len
  apart : (free ++ w.live).Pairwise Region.Apart
  header : ∀ k ∈ w.live, w.heap.list.size k.base = k.len

theorem cellsFrom_spec {fl : FreeList} {q : Nat} {cs : List Region} (hl : Links fl.mem q cs 0)
    (hok : ∀ r ∈ cs, CellOk r) {fuel : Nat} (hfuel : cs.length < fuel) :
    cellsFrom fl fuel (firstBase cs 0) = some cs := by
  induction cs generalizing q fuel with
  | nil =>
    obtain ⟨fuel, rfl⟩ := Nat.exists_eq_succ_of_ne_zero (Nat.ne_of_gt hfuel)
    rfl
  | cons c cs ih =>
    obtain ⟨fuel, rfl⟩ := Nat.exists_eq_succ_of_ne_zero (Nat.ne_of_gt (Nat.zero_lt_of_lt hfuel))
    obtain ⟨hcell, hrest⟩ := hl
    have hnext : fl.next c.base = firstBase cs 0 := hcell.next
    have hsize : fl.size c.base = c.len := hcell.size
    rw [firstBase_cons, cellsFrom, if_neg (Nat.ne_of_gt (hok c List.mem_cons_self).2.1), hnext,
      hsize, ih hrest (fun r hr => hok r (List.mem_cons_of_mem _ hr)) (by simpa using hfuel)]
    rfl

theorem freeCells_spec {h : Heap} {s : Spec} (hr : Rep h s) : freeCells h = some s.free := by
  have hok : ∀ r ∈ s.free, CellOk r := fun r hmem => hr.layout.cell_ok hmem
  unfold freeCells
  rw [hr.linked.1]
  exact cellsFrom_spec hr.linked.2 hok (length_ascending hr.layout.separated.ascending hok)

theorem wellFormed_of_rep {w : World} {s : Spec} (hw : RepWorld w s) : WellFormed w s.free where
  cells := freeCells_spec hw.heap
  ascending := by
    refine hw.heap.layout.separated.imp fun hrs => ?_
    unfold Region.stop at hrs
    omega
  separate := hw.heap.layout.separated
  head_last := by
    obtain ⟨hhead, hlinks⟩ := hw.heap.linked
    intro hne
    rw [hhead] at hne ⊢
    cases hfree : s.free with
    | nil =>
      rw [hfree] at hne
      exact absurd rfl hne
    | cons c cs =>
      rw [hfree] at hlinks
      exact hlinks.1.last
  next_last := by
    intro c hc hne
    obtain ⟨as, bs, hsplit⟩ := List.append_of_mem hc
    have hlinked := hw.heap.linked
    rw [hsplit] at hlinked
    obtain ⟨-, hcell, hafter⟩ := linked_append.mp hlinked
    have hnext : w.heap.list.next c.base = firstBase bs 0 := hcell.next
    rw [hnext] at hne ⊢
    cases bs with
    | nil => exact absurd rfl hne
    | cons b bs => exact hafter.1.last
  last_next := by
    intro c hc hne
    obtain ⟨as, bs, hsplit⟩ := List.append_of_mem hc
    have hlinked := hw.heap.linked
    rw [hsplit] at hlinked
    obtain ⟨hbefore, hcell, -⟩ := linked_append.mp hlinked
    have hlast : w.heap.list.last c.base = lastBase 0 as := hcell.last
    rw [hlast] at hne ⊢
    rcases List.eq_nil_or_concat as with rfl | ⟨as, a, rfl⟩
    · exact absurd rfl hne
    · rw [List.concat_eq_append] at hbefore ⊢
      rw [lastBase_concat]
      exact (links_append.mp hbefore.2).2.1.next
  size := fun _ hc => (hw.heap.layout.cell_ok hc).1
  apart := by
    rw [hw.live]
    exact hw.heap.layout.pairwise
  header := by
    rw [hw.live]
    exact hw.heap.header

theorem rep_empty (reuse : Bool) (m : Memory) :
    RepWorld (emptyWorld reuse m) ⟨[], [], Pages.empty reuse⟩ := by
  refine ⟨rfl, ⟨rfl, trivial⟩, ?_, rfl, ⟨List.Pairwise.nil, ?_, ?_, List.Pairwise.nil, ?_⟩, ?_⟩
  · simp
  · simp
  · simp
  · simp
  · simp [Pages.empty]

/-- The length of the range that a request maps, if it maps one. -/
def mapLen (n : Nat) : Nat :=
  if pageSize ≤ clamp (withHeader n) then roundUp (clamp (withHeader n)) else pageSize

/-- The kernel has an address for the call. -/
def Answered (w : World) : Event → Prop
  | .malloc n answers => ∃ a rest, answers = a :: rest ∧ w.heap.pages.Free a (mapLen n)
  | .realloc _ n answers => ∃ a rest, answers = a :: rest ∧ w.heap.pages.Free a (mapLen n)
  | _ => True

theorem spec_step_answered {w : World} {s : Spec} (hw : RepWorld w s) {e : Event}
    (ha : Allowed w e) (hans : Answered w e) : ∃ s', s.step e = .ok s' := by
  have hserved : ∀ n answers, (∃ a rest, answers = a :: rest ∧ w.heap.pages.Free a (mapLen n)) →
      ∃ r, Spec.malloc (clamp (withHeader n)) answers s = .ok r := by
    rintro n answers ⟨a, rest, rfl, hf⟩
    rw [hw.heap.pages] at hf
    exact malloc_served hf
  cases e with
  | malloc n answers =>
    obtain ⟨r, hr⟩ := hserved n answers hans
    refine ⟨r.2, ?_⟩
    rw [Spec.step, hr, ok_bind]
  | free p =>
    obtain ⟨k, hk, rfl⟩ := ha
    rw [Spec.step, find_live hw.heap.layout (hw.live ▸ hk)]
    exact ⟨_, rfl⟩
  | realloc p n answers =>
    obtain ⟨r, hr⟩ := hserved n answers hans
    rw [Spec.step, hr, ok_bind]
    by_cases hp0 : p = 0
    · simp only [hp0, if_true, true_and]
      split <;> exact ⟨_, rfl⟩
    · obtain ⟨k, hk, rfl⟩ := ha.2.resolve_left hp0
      simp only [hp0, false_and, if_false, find_live hw.heap.layout (hw.live ▸ hk)]
      split <;> exact ⟨_, rfl⟩
  | write p off b => exact ⟨s, rfl⟩

theorem free₁_reuse (s : Spec) (k : Region) : (s.free₁ k).pages.reuse = s.pages.reuse := by
  unfold Spec.free₁
  split <;> rfl

theorem spec_step_reuse {s s' : Spec} {e : Event} (h : s.step e = .ok s') :
    s'.pages.reuse = s.pages.reuse := by
  cases spec_steps h with
  | malloc hm => exact (malloc_live hm).2.1
  | free _ => exact free₁_reuse s _
  | fresh _ hm => exact (malloc_live hm).2.1
  | nothing => rfl
  | drop _ => exact free₁_reuse s _
  | move _ _ hm => exact (free₁_reuse _ _).trans (malloc_live hm).2.1
  | write => rfl

theorem rep_step {w w' : World} {s : Spec} (hw : RepWorld w s) {e : Event} (ha : Allowed w e)
    (hwhole : s.pages.reuse = false ∨ ∀ k ∈ s.live, WholePages k) (hs : step w e = .ok w') :
    ∃ s', s.step e = .ok s' ∧ RepWorld w' s' := by
  have hsim := step_sim hw ha hwhole
  rw [hs] at hsim
  cases hspec : s.step e with
  | ok s' =>
    rw [hspec] at hsim
    exact ⟨s', rfl, hsim⟩
  | error f =>
    rw [hspec] at hsim
    exact absurd hsim id

theorem rep_of_reachable {C : World → Event → Prop} {m : Memory} {w : World}
    (hw : Reachable C false m w) : ∃ s, RepWorld w s ∧ s.pages.reuse = false := by
  induction hw with
  | empty => exact ⟨_, rep_empty false m, rfl⟩
  | step _ ha _ hs ih =>
    obtain ⟨s, hrep, hreuse⟩ := ih
    obtain ⟨s', hspec, hrep'⟩ := rep_step hrep ha (Or.inl hreuse) hs
    exact ⟨s', hrep', (spec_step_reuse hspec).trans hreuse⟩

/-- When no address is returned twice, every reachable heap is well formed, and
no call fails while the kernel has memory. -/
theorem reachable_heap_well_formed {m : Memory} {w : World}
    (hw : Reachable (fun _ _ => True) false m w) :
    (∃ free, WellFormed w free) ∧
      ∀ e, Allowed w e →
        (∃ w', step w e = .ok w') ∨ (step w e = .error .noMemory ∧ ¬ Answered w e) := by
  obtain ⟨s, hrep, hreuse⟩ := rep_of_reachable hw
  refine ⟨⟨s.free, wellFormed_of_rep hrep⟩, fun e ha => ?_⟩
  have hsim := step_sim hrep ha (Or.inl hreuse)
  cases hstep : step w e with
  | ok w' => exact Or.inl ⟨w', rfl⟩
  | error f =>
    rw [hstep] at hsim
    cases hspec : s.step e with
    | ok s' =>
      rw [hspec] at hsim
      exact absurd hsim id
    | error f' =>
      rw [hspec] at hsim
      refine Or.inr ⟨by rw [hsim.1], fun hans => ?_⟩
      obtain ⟨s', hok⟩ := spec_step_answered hrep ha hans
      rw [hspec] at hok
      cases hok

/-! ## Runs of the lists -/

instance (w : World) (p : Nat) : Decidable (LivePtr w p) :=
  inferInstanceAs (Decidable (∃ k ∈ w.live, k.base + 8 = p))

instance (w : World) (e : Event) : Decidable (Allowed w e) :=
  match e with
  | .malloc n _ => inferInstanceAs (Decidable (n + 8 < 2 ^ 64))
  | .free p => inferInstanceAs (Decidable (LivePtr w p))
  | .realloc p n _ => inferInstanceAs (Decidable (n + 8 < 2 ^ 64 ∧ (p = 0 ∨ LivePtr w p)))
  | .write p off _ => inferInstanceAs (Decidable (∃ k ∈ w.live, k.base + 8 = p ∧ 8 + off < k.len))

theorem allowed_congr {w w' : World} (h : w.live = w'.live) {e : Event} (ha : Allowed w e) :
    Allowed w' e := by
  cases e <;> simpa [Allowed, LivePtr, h] using ha

/-- Run the events on the lists, as long as they are allowed. -/
def Spec.run (s : Spec) : List Event → Option Spec
  | [] => some s
  | e :: es =>
    if Allowed ⟨⟨⟨fun _ => 0, 0⟩, s.pages⟩, s.live⟩ e then
      match s.step e with
      | .ok s' => Spec.run s' es
      | .error _ => none
    else none

theorem reachable_of_run {m : Memory} {es : List Event} {w : World} {s s' : Spec}
    (hw : Reachable (fun _ _ => True) false m w) (hrep : RepWorld w s)
    (hreuse : s.pages.reuse = false) (hrun : s.run es = some s') :
    ∃ w', Reachable (fun _ _ => True) false m w' ∧ RepWorld w' s' ∧ s'.pages.reuse = false := by
  induction es generalizing w s with
  | nil =>
    cases hrun
    exact ⟨w, hw, hrep, hreuse⟩
  | cons e es ih =>
    rw [Spec.run] at hrun
    split at hrun
    · rename_i hallowed
      have ha : Allowed w e := allowed_congr hrep.live.symm hallowed
      have hsim := step_sim hrep ha (Or.inl hreuse)
      cases hspec : s.step e with
      | error f =>
        rw [hspec] at hrun
        cases hrun
      | ok s₁ =>
        rw [hspec] at hsim hrun
        obtain ⟨w₁, hstep, hrep₁⟩ := agrees_ok hsim
        exact ih (.step hw ha trivial hstep) hrep₁ ((spec_step_reuse hspec).trans hreuse) hrun
    · cases hrun

def emptySpec (reuse : Bool) : Spec := ⟨[], [], Pages.empty reuse⟩

/-- Two blocks of one page, the first of them freed again. -/
theorem two_blocks_well_formed :
    ∃ w, Reachable (fun _ _ => True) false (fun _ => 0) w ∧
      w.live = [⟨65636, 1000⟩] ∧ freeCells w.heap = some [⟨65536, 100⟩, ⟨66636, 2996⟩] ∧
      ∃ free, WellFormed w free := by
  have hrun : ((emptySpec false).run
      [.malloc 92 [65536], .malloc 992 [], .free 65544]).map (fun s => (s.live, s.free)) =
      some ([⟨65636, 1000⟩], [⟨65536, 100⟩, ⟨66636, 2996⟩]) := by decide +kernel
  obtain ⟨s, hs, heq⟩ := Option.map_eq_some_iff.mp hrun
  obtain ⟨w, hw, hrep, -⟩ := reachable_of_run .empty (rep_empty false _) rfl hs
  have hlive : s.live = [⟨65636, 1000⟩] := congrArg Prod.fst heq
  have hfree : s.free = [⟨65536, 100⟩, ⟨66636, 2996⟩] := congrArg Prod.snd heq
  exact ⟨w, hw, hrep.live.trans hlive, hfree ▸ freeCells_spec hrep.heap,
    (reachable_heap_well_formed hw).1⟩

/-! ## Unmapping -/

/-- The `munmap` calls made between the two states. -/
def newUnmaps (w w' : World) : List Region :=
  w'.heap.pages.unmaps.take (w'.heap.pages.unmaps.length - w.heap.pages.unmaps.length)

/-- Only pages that nothing else uses have been unmapped. -/
def MunmapOk (w w' : World) : Prop :=
  ∀ r ∈ newUnmaps w w', r.base % pageSize = 0 ∧ (∀ k ∈ w'.live, r.Apart k) ∧
    ∃ cells, freeCells w'.heap = some cells ∧ ∀ c ∈ cells, r.Apart c

/-- The cell that `search_size` finds for a small request, after the page that
is mapped when it finds none. -/
def firstFit (cells : List Region) (size : Nat) (answers : List Nat) : Option Region :=
  match cells.find? fun r => size ≤ r.len with
  | some r => some r
  | none =>
    match answers with
    | [] => none
    | addr :: _ => (release ⟨addr, pageSize⟩ cells).find? fun r => size ≤ r.len

/-- A cell of a page or more is not handed out unsplit, unless it is one page. -/
def FitsCalmly (w : World) (size : Nat) (answers : List Nat) : Prop :=
  size < pageSize → ∀ cells r, freeCells w.heap = some cells →
    firstFit cells size answers = some r →
    r.len - size ≤ sizeofFlCell → pageSize ≤ r.len → r.len = pageSize ∧ r.base % pageSize = 0

def Calm (w : World) : Event → Prop
  | .malloc n answers => FitsCalmly w (clamp (withHeader n)) answers
  | .realloc _ n answers => n ≠ 0 → FitsCalmly w (clamp (withHeader n)) answers
  | _ => True

theorem malloc_whole {w : World} {s s' : Spec} (hw : RepWorld w s) {size : Nat}
    {answers : List Nat} (hcalm : FitsCalmly w size answers) {k : Region}
    (h : Spec.malloc size answers s = .ok (k, s')) : WholePages k := by
  intro hbig
  rcases malloc_cases h with ⟨-, addr, hf, rfl, -⟩ | ⟨hsmall, free, pages, hserves, hc, -⟩
  · have hpages := roundUp_pages size
    refine ⟨hf.2.1, ?_⟩
    dsimp only
    rw [← hpages, Nat.mul_mod_left]
  · obtain ⟨r, hfind, -, hk⟩ := find_of_carve hc
    have hfirst : firstFit s.free size answers = some r := by
      unfold firstFit
      cases hserves with
      | hit => rw [hfind]
      | miss hnone hans hf =>
        rw [find_of_carve_none hnone, hans]
        exact hfind
    rcases hk with hk | ⟨hrest, rfl⟩
    · omega
    · obtain ⟨hlen, hbase⟩ := hcalm hsmall _ _ (freeCells_spec hw.heap) hfirst hrest hbig
      rw [hlen]
      exact ⟨hbase, Nat.mod_self _⟩

theorem free₁_munmap {s : Spec} (hlay : Layout s.pages s.free s.live) {k : Region}
    (hk : k ∈ s.live) (hwhole : WholePages k) :
    (s.free₁ k).pages.unmaps = s.pages.unmaps ∨
      ((s.free₁ k).pages.unmaps = k :: s.pages.unmaps ∧ k.base % pageSize = 0 ∧
        ∀ r ∈ (s.free₁ k).free ++ (s.free₁ k).live, k.Apart r) := by
  unfold Spec.free₁
  by_cases hbig : pageSize ≤ k.len
  · rw [if_pos hbig]
    obtain ⟨hbase, hlen⟩ := hwhole hbig
    have hlt : k.len < 2 ^ 64 := by
      have hstop := (hlay.chunk_ok hk).2.2
      unfold Region.stop at hstop
      omega
    have hperm := lose_perm hlay.live_apart (fun r hr => (hlay.chunk_ok hr).pos) hk
    refine Or.inr ⟨?_, hbase, fun r hr => ?_⟩
    · unfold Pages.munmap
      rw [roundUp_of_whole hlen hlt]
    · rcases List.mem_append.mp hr with hr | hr
      · exact (hlay.apart r hr k hk).symm
      · exact Region.apart_cons (hlay.perm hperm).live_apart r hr
  · rw [if_neg hbig]
    exact Or.inl rfl

theorem free₁_live (s : Spec) (k : Region) : (s.free₁ k).live = lose (k.base + 8) s.live := by
  unfold Spec.free₁
  split <;> rfl

/-- What one event does to the live chunks and to the kernel's record. -/
structure Calmly (s s' : Spec) : Prop where
  whole : ∀ k ∈ s'.live, WholePages k
  unmaps : s'.pages.unmaps = s.pages.unmaps ∨
    ∃ k, s'.pages.unmaps = k :: s.pages.unmaps ∧ k.base % pageSize = 0 ∧
      ∀ r ∈ s'.free ++ s'.live, k.Apart r

theorem Calmly.free {s t : Spec} (hlay : Layout t.pages t.free t.live) {k : Region}
    (hk : k ∈ t.live) (hwhole : ∀ k ∈ t.live, WholePages k)
    (hsame : t.pages.unmaps = s.pages.unmaps) : Calmly s (t.free₁ k) := by
  refine ⟨fun j hj => ?_, ?_⟩
  · rw [free₁_live] at hj
    exact hwhole j (List.mem_filter.mp hj).1
  · rw [← hsame]
    exact (free₁_munmap hlay hk (hwhole k hk)).imp id fun h => ⟨k, h⟩

theorem Calmly.malloc {w : World} {s s' : Spec} (hw : RepWorld w s)
    (hwhole : ∀ k ∈ s.live, WholePages k) {size : Nat} {answers : List Nat}
    (hcalm : FitsCalmly w size answers) {k : Region}
    (h : Spec.malloc size answers s = .ok (k, s')) : Calmly s s' := by
  obtain ⟨hlive, -, hsame⟩ := malloc_live h
  refine ⟨fun j hj => ?_, Or.inl hsame⟩
  rw [hlive] at hj
  rcases List.mem_cons.mp hj with rfl | hj
  · exact malloc_whole hw hcalm h
  · exact hwhole j hj

/-- A request that succeeds on the lists leaves lists that some heap represents. -/
theorem RepWorld.layout_malloc {w : World} {s : Spec} (hw : RepWorld w s) {n : Nat}
    {answers : List Nat}
    {r : Region × Spec} (hm : Spec.malloc (clamp (withHeader n)) answers s = .ok r) :
    Layout r.2.pages r.2.free r.2.live ∧ ∀ p, r.2.pages.mapped p = true →
    r.2.pages.used p = true := by
  have hsim := xmallocHelper_sim hw.heap answers (withHeader n)
  rw [hm] at hsim
  obtain ⟨_, -, -, hrep⟩ := agrees_ok hsim
  exact ⟨hrep.layout, hrep.used⟩

theorem spec_step_calm {w : World} {s s' : Spec} (hw : RepWorld w s)
    (hwhole : ∀ k ∈ s.live, WholePages k) {e : Event} (hcalm : Calm w e) (h : s.step e = .ok s') :
    Calmly s s' := by
  have hlay := hw.heap.layout
  cases spec_steps h with
  | malloc hm => exact Calmly.malloc hw hwhole hcalm hm
  | free hk => exact Calmly.free hlay hk hwhole rfl
  | fresh hn hm => exact Calmly.malloc hw hwhole (hcalm hn) hm
  | nothing => exact ⟨hwhole, Or.inl rfl⟩
  | drop hk => exact Calmly.free hlay hk hwhole rfl
  | move hk hn hm =>
    obtain ⟨hlive, -, hsame⟩ := malloc_live hm
    exact Calmly.free (hw.layout_malloc hm).1 (hlive ▸ List.mem_cons_of_mem _ hk)
      (Calmly.malloc hw hwhole (hcalm hn) hm).whole hsame
  | write => exact ⟨hwhole, Or.inl rfl⟩

theorem rep_of_reachable_calm {reuse : Bool} {m : Memory} {w : World}
    (hw : Reachable Calm reuse m w) : ∃ s, RepWorld w s ∧ ∀ k ∈ s.live, WholePages k := by
  induction hw with
  | empty => exact ⟨_, rep_empty reuse m, by simp⟩
  | step _ ha hc hs ih =>
    obtain ⟨s, hrep, hwhole⟩ := ih
    obtain ⟨s', hspec, hrep'⟩ := rep_step hrep ha (Or.inr hwhole) hs
    exact ⟨s', hrep', (spec_step_calm hrep hwhole hc hspec).whole⟩

/-- In a run in which no request is served by an unsplit cell of a page or
more, other than one page, `munmap` only takes pages that nothing else uses. -/
theorem calm_run_munmap_ok {reuse : Bool} {m : Memory} {w w' : World} {e : Event}
    (hw : Reachable Calm reuse m w) (ha : Allowed w e) (hc : Calm w e) (hs : step w e = .ok w') :
    MunmapOk w w' := by
  obtain ⟨s, hrep, hwhole⟩ := rep_of_reachable_calm hw
  obtain ⟨s', hspec, hrep'⟩ := rep_step hrep ha (Or.inr hwhole) hs
  have hcalmly := spec_step_calm hrep hwhole hc hspec
  intro r hr
  unfold newUnmaps at hr
  rw [hrep.heap.pages, hrep'.heap.pages] at hr
  rcases hcalmly.unmaps with hsame | ⟨k, hcons, hbase, hapart⟩
  · rw [hsame, Nat.sub_self] at hr
    cases hr
  · rw [hcons] at hr
    simp only [List.length_cons, Nat.add_sub_cancel_left, List.take_succ_cons, List.take_zero,
      List.mem_singleton] at hr
    subst hr
    refine ⟨hbase, fun j hj => ?_, s'.free, freeCells_spec hrep'.heap, fun c hc => ?_⟩
    · rw [hrep'.live] at hj
      exact hapart j (List.mem_append_right _ hj)
    · exact hapart c (List.mem_append_left _ hc)

/-- A block of two pages, freed again. -/
theorem large_block_munmap_ok :
    ∃ w w', Reachable Calm true (fun _ => 0) w ∧ step w (.free 65544) = .ok w' ∧
      newUnmaps w w' = [⟨65536, 8192⟩] ∧ MunmapOk w w' := by
  have hcalm : Calm (emptyWorld true fun _ => 0) (.malloc 5000 [65536]) := fun h =>
    absurd h (by decide)
  have hrep₀ := rep_empty true fun _ => 0
  have hsim₁ := step_sim hrep₀ (e := .malloc 5000 [65536]) (by decide) (Or.inr (by simp))
  have hspec₁ : (emptySpec true).step (.malloc 5000 [65536]) =
      .ok ⟨[], [⟨65536, 8192⟩], (Pages.empty true).map 65536 8192⟩ := by
    rw [Spec.step, Spec.malloc.eq_def, if_pos (by decide), Spec.mapLarge, if_pos (by decide)]
    rfl
  change (⟨[], [], Pages.empty true⟩ : Spec).step _ = _ at hspec₁
  rw [hspec₁] at hsim₁
  obtain ⟨w, hstep, hrep⟩ := agrees_ok hsim₁
  have hw : Reachable Calm true (fun _ => 0) w := .step .empty (by decide) hcalm hstep
  have ha : Allowed w (.free 65544) := ⟨⟨65536, 8192⟩, by rw [hrep.live]; simp, rfl⟩
  have hwhole : ∀ k ∈ [(⟨65536, 8192⟩ : Region)], WholePages k := by
    intro k hk
    rw [List.mem_singleton.mp hk]
    exact fun _ => by decide
  have hsim₂ := step_sim hrep ha (Or.inr hwhole)
  obtain ⟨w', hstep', hrep'⟩ := agrees_ok hsim₂
  refine ⟨w, w', hw, hstep', ?_, calm_run_munmap_ok hw ha trivial hstep'⟩
  unfold newUnmaps
  rw [hrep.heap.pages, hrep'.heap.pages]
  rfl

/-- Freeing a block that first fit cut whole from a coalesced cell of 4106
bytes unmaps both pages under it, and with the second one a live block. -/
theorem unsplit_cell_unmaps_live_block :
    ¬ ∀ (reuse : Bool) (m : Memory) (w w' : World) (e : Event),
      Reachable (fun _ _ => True) reuse m w → Allowed w e → step w e = .ok w' → MunmapOk w w' := by
  intro hclaim
  have hrun : ((emptySpec false).run [.malloc 2992 [65536], .malloc 1098 [69632], .malloc 4078 [],
      .free 65544, .free 68544, .malloc 4082 []]).map
        (fun s => (s.live, s.free, s.pages.unmaps)) =
      some ([⟨65536, 4106⟩, ⟨69642, 4086⟩], [], []) := by decide +kernel
  obtain ⟨s, hs, heq⟩ := Option.map_eq_some_iff.mp hrun
  obtain ⟨w, hw, hrep, hreuse⟩ := reachable_of_run .empty (rep_empty false fun _ => 0) rfl hs
  have hlive : s.live = [⟨65536, 4106⟩, ⟨69642, 4086⟩] := congrArg (fun t => t.1) heq
  have hunmaps : s.pages.unmaps = [] := congrArg (fun t => t.2.2) heq
  have ha : Allowed w (.free 65544) := ⟨⟨65536, 4106⟩, by rw [hrep.live, hlive]; simp, rfl⟩
  have hsim := step_sim hrep ha (Or.inl hreuse)
  have hspec : s.step (.free 65544) = .ok (s.free₁ ⟨65536, 4106⟩) := by
    rw [Spec.step, hlive]
    rfl
  rw [hspec] at hsim
  obtain ⟨w', hstep, hrep'⟩ := agrees_ok hsim
  have hok := hclaim false (fun _ => 0) w w' _ hw ha hstep
  have hfree : s.free₁ ⟨65536, 4106⟩ =
      ⟨s.free, [⟨69642, 4086⟩], s.pages.munmap 65536 8192⟩ := by
    unfold Spec.free₁
    rw [if_pos (by decide), hlive]
    rfl
  rw [hfree] at hrep'
  have hnew : newUnmaps w w' = [⟨65536, 8192⟩] := by
    unfold newUnmaps
    rw [hrep.heap.pages, hrep'.heap.pages, hunmaps]
    unfold Pages.munmap
    rw [hunmaps]
    rfl
  obtain ⟨-, happart, -⟩ := hok ⟨65536, 8192⟩ (by rw [hnew]; simp)
  have hlive' : (⟨69642, 4086⟩ : Region) ∈ w'.live := by
    rw [hrep'.live]
    simp
  exact absurd (happart _ hlive') (by decide)

end Cs3650.Malloc.Hwx
