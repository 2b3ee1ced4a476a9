import Cs3650.Malloc.HmallocStats
import Cs3650.Malloc.HwxRealloc

/-!
# Which blocks are aligned

Cells come from pages and are cut at the size of the request, which neither
`hwx_malloc.c` nor `hmalloc.c` rounds. As long as a cell is only cut at a
multiple of eight, every cell and chunk starts at one and has one as its
length; coalescing keeps that.
-/

namespace Cs3650.Malloc

open Cs3650.Lib Cs3650.Lib.FirstFit

/-- The region starts and ends at a multiple of eight. -/
def WordAligned (r : Region) : Prop := r.base % 8 = 0 ∧ r.len % 8 = 0

/-- A small request that cuts the cell found cuts it at a multiple of eight. -/
def CutsAligned (cells : List Region) (size : Nat) (answers : List Nat) : Prop :=
  size < pageSize → ∀ r, Hwx.firstFit cells size answers = some r →
    sizeofFlCell < r.len - size → size % 8 = 0

theorem release_aligned {c : Region} {L : List Region} (hc : WordAligned c)
    (hL : ∀ r ∈ L, WordAligned r) : ∀ r ∈ release c L, WordAligned r := by
  apply all_release (P := WordAligned) _ hc hL
  intro r s hr hs _
  obtain ⟨hbase, hlen⟩ := hr
  obtain ⟨-, hslen⟩ := hs
  refine ⟨hbase, ?_⟩
  dsimp only
  omega

theorem carve_aligned {slack size : Nat} {L L' : List Region} {k : Region}
    (hL : ∀ r ∈ L, WordAligned r) (h : carve slack size L = some (k, L')) :
    k.base % 8 = 0 ∧
      ((∀ r, (L.find? fun r => size ≤ r.len) = some r → slack < r.len - size → size % 8 = 0) →
        WordAligned k ∧ ∀ r ∈ L', WordAligned r) := by
  obtain ⟨as, r, bs, rfl, has, hfit, hcase⟩ := carve_cases h
  have hr := hL r (by simp)
  have hrest : ∀ t ∈ as ++ bs, WordAligned t := by
    intro t ht
    apply hL
    rw [List.mem_append] at ht ⊢
    exact ht.imp id (List.mem_cons_of_mem r)
  have hfind : ((as ++ r :: bs).find? fun r => size ≤ r.len) = some r := by
    rw [List.find?_append, List.find?_eq_none.mpr fun a ha => by simpa using has a ha,
      Option.none_or, List.find?_cons_of_pos (by simpa using hfit)]
  rcases hcase with ⟨hcut, rfl, rfl⟩ | ⟨-, rfl, rfl⟩
  · refine ⟨hr.1, fun hsize => ?_⟩
    have hmod := hsize r hfind hcut
    obtain ⟨hbase, hlen⟩ := hr
    refine ⟨⟨hbase, hmod⟩, fun t ht => ?_⟩
    rcases List.mem_append.mp ht with ht | ht
    · exact hrest t (List.mem_append_left _ ht)
    · rcases List.mem_cons.mp ht with rfl | ht
      · unfold WordAligned
        dsimp only
        omega
      · exact hrest t (List.mem_append_right _ ht)
  · exact ⟨hr.1, fun _ => ⟨hr, hrest⟩⟩

namespace Hwx

/-- All cells and chunks are aligned. -/
def Spec.Aligned (s : Spec) : Prop := ∀ r ∈ s.free ++ s.live, WordAligned r

theorem Spec.Aligned.free {s : Spec} (h : s.Aligned) : ∀ r ∈ s.free, WordAligned r :=
  fun r hr => h r (List.mem_append_left _ hr)

theorem Spec.Aligned.live {s : Spec} (h : s.Aligned) : ∀ k ∈ s.live, WordAligned k :=
  fun k hk => h k (List.mem_append_right _ hk)

theorem pages_aligned {a len : Nat} (ha : a % pageSize = 0) (hlen : len % pageSize = 0) :
    WordAligned ⟨a, len⟩ := by
  unfold WordAligned pageSize at *
  dsimp only
  omega

/-- The chunk of a request, and, if nothing was cut badly, everything after it. -/
theorem malloc_aligned {s s' : Spec} {size : Nat} {answers : List Nat} {k : Region}
    (hs : s.Aligned) (h : Spec.malloc size answers s = .ok (k, s')) :
    k.base % 8 = 0 ∧ (CutsAligned s.free size answers → s'.Aligned) := by
  have hlive : s'.live = k :: s.live := (malloc_live h).1
  have hall : ∀ {free}, s'.free = free → WordAligned k → (∀ r ∈ free, WordAligned r) →
      s'.Aligned := by
    rintro free rfl hk hfree r hr
    rcases List.mem_append.mp hr with hr | hr
    · exact hfree r hr
    · rw [hlive] at hr
      rcases List.mem_cons.mp hr with rfl | hr
      · exact hk
      · exact hs.live r hr
  rcases malloc_cases h with ⟨-, addr, hf, rfl, rfl⟩ | ⟨hsmall, free, pages, hserves, hc, -⟩
  · have hk : WordAligned ⟨addr, roundUp size⟩ := by
      refine pages_aligned hf.2.1 ?_
      rw [← roundUp_pages, Nat.mul_mod_left]
    exact ⟨hk.1, fun _ => hall rfl hk hs.free⟩
  · cases hserves with
    | hit =>
      obtain ⟨hbase, hrest⟩ := carve_aligned hs.free hc
      refine ⟨hbase, fun hcut => ?_⟩
      obtain ⟨hk, hfree⟩ := hrest fun r hfind hlong => by
        refine hcut (by omega) r ?_ hlong
        unfold firstFit
        rw [hfind]
      exact hall rfl hk hfree
    | miss hnone hans hf =>
      rename_i addr rest
      have hpage : ∀ r ∈ release ⟨addr, pageSize⟩ s.free, WordAligned r :=
        release_aligned (pages_aligned hf.2.1 (Nat.mod_self _)) hs.free
      obtain ⟨hbase, hrest⟩ := carve_aligned hpage hc
      refine ⟨hbase, fun hcut => ?_⟩
      obtain ⟨hk, hfree⟩ := hrest fun r hfind hlong => by
        refine hcut (by omega) r ?_ hlong
        unfold firstFit
        rw [find_of_carve_none hnone, hans]
        exact hfind
      exact hall rfl hk hfree

theorem lists_aligned {free free' live live' : List Region} {k : Region}
    (h : ∀ r ∈ free ++ live, WordAligned r) (hk : k ∈ live) (hlive : ∀ j ∈ live', j ∈ live)
    (hfree : free' = free ∨ free' = release k free) : ∀ r ∈ free' ++ live', WordAligned r := by
  have hcells : ∀ r ∈ free, WordAligned r := fun r hr => h r (List.mem_append_left _ hr)
  have hchunks : ∀ j ∈ live, WordAligned j := fun j hj => h j (List.mem_append_right _ hj)
  intro r hr
  rcases List.mem_append.mp hr with hr | hr
  · rcases hfree with rfl | rfl
    · exact hcells r hr
    · exact release_aligned (hchunks k hk) hcells r hr
  · exact hchunks r (hlive r hr)

theorem free₁_aligned {s : Spec} (hs : s.Aligned) {k : Region} (hk : k ∈ s.live) :
    (s.free₁ k).Aligned := by
  refine lists_aligned hs hk (fun j hj => ?_) ?_
  · rw [free₁_live] at hj
    exact (List.mem_filter.mp hj).1
  · unfold Spec.free₁
    split
    · exact Or.inl rfl
    · exact Or.inr rfl

/-- What an event asks of `split_chunk`. -/
def CutsWell (w : World) : Event → Prop
  | .malloc n answers =>
    ∀ cells, freeCells w.heap = some cells → CutsAligned cells (clamp (withHeader n)) answers
  | .realloc _ n answers =>
    n ≠ 0 → ∀ cells, freeCells w.heap = some cells →
      CutsAligned cells (clamp (withHeader n)) answers
  | _ => True

theorem spec_step_aligned {w : World} {s s' : Spec} (hw : RepWorld w s) (hs : s.Aligned) {e : Event}
    (hcut : CutsWell w e) (h : s.step e = .ok s') : s'.Aligned := by
  have hcells := freeCells_spec hw.heap
  cases spec_steps h with
  | malloc hm => exact (malloc_aligned hs hm).2 (hcut _ hcells)
  | free hk => exact free₁_aligned hs hk
  | fresh hn hm => exact (malloc_aligned hs hm).2 (hcut hn _ hcells)
  | nothing => exact hs
  | drop hk => exact free₁_aligned hs hk
  | move hk hn hm =>
    have hlive := (malloc_live hm).1
    exact free₁_aligned ((malloc_aligned hs hm).2 (hcut hn _ hcells))
      (hlive ▸ List.mem_cons_of_mem _ hk)
  | write => exact hs

/-- The condition on every step of a run. -/
def CutsInRun (reuse : Bool) (w : World) (e : Event) : Prop := CutsWell w e ∧ CalmIfReused reuse w e

/-- A heap represents only one pair of lists. -/
theorem RepWorld.unique {w : World} {s s' : Spec} (h : RepWorld w s) (h' : RepWorld w s') :
    s = s' := by
  have hfree : s.free = s'.free :=
    Option.some.inj ((freeCells_spec h.heap).symm.trans (freeCells_spec h'.heap))
  have hlive : s.live = s'.live := h.live.symm.trans h'.live
  have hpages : s.pages = s'.pages := h.heap.pages.symm.trans h'.heap.pages
  cases s
  cases s'
  dsimp only at hfree hlive hpages
  rw [hfree, hlive, hpages]

theorem aligned_of_reachable {reuse : Bool} {m : Memory} {w : World}
    (hw : Reachable (CutsInRun reuse) reuse m w) : ∃ s, RepWorld w s ∧ s.Aligned := by
  induction hw with
  | empty => exact ⟨_, rep_empty reuse m, by simp [Spec.Aligned]⟩
  | step hw ha hc hs ih =>
    obtain ⟨s, hrep, haligned⟩ := ih
    obtain ⟨s₂, hrep₂, hsafe⟩ := rep_of_calmIfReused (hw.mono fun _ _ h => h.2)
    rw [hrep₂.unique hrep] at hsafe
    obtain ⟨s', hspec, hrep'⟩ := rep_step hrep ha hsafe hs
    exact ⟨s', hrep', spec_step_aligned hrep haligned hc.1 hspec⟩

theorem xmalloc_aligned {reuse : Bool} {m : Memory} {w : World}
    (hw : Reachable (CutsInRun reuse) reuse m w) {answers : List Nat} {n q : Nat} {h' : Heap}
    (hrun : xmalloc answers n w.heap = .ok (q, h')) : q % 8 = 0 := by
  obtain ⟨s, hrep, haligned⟩ := aligned_of_reachable hw
  obtain ⟨k, s', hspec, hq, -⟩ := xmalloc_lists hrep.heap hrun
  have hbase := (malloc_aligned haligned hspec).1
  omega

end Hwx

namespace Hmalloc

open Hwx (clamp withHeader lose Spec)

def CutsWell (w : World) : Event → Prop
  | .malloc n answers =>
    ∀ cells, freeCells w.heap = some cells → CutsAligned cells (clamp (withHeader n)) answers
  | _ => True

/-- The condition on every step of a run. -/
def CutsInRun (reuse : Bool) (w : World) (e : Event) : Prop :=
  CutsWell w e ∧ (reuse = true → FreesWhole w e)

theorem freed_aligned {s : Spec} (hs : s.Aligned) {k : Region} (hk : k ∈ s.live) :
    (freed s k).Aligned := by
  refine Hwx.lists_aligned hs hk (fun j hj => ?_) ?_
  · rw [freed_live] at hj
    exact (List.mem_filter.mp hj).1
  · unfold freed
    split
    · exact Or.inl rfl
    · exact Or.inr rfl

theorem aligned_step {w w' : World} {s : Spec} (hw : RepWorld w s) (hs : s.Aligned) {e : Event}
    (ha : Allowed w e) (hcut : CutsWell w e) (hkeep : s.pages.reuse = false ∨ FreesWhole w e)
    (hstep : step w e = .ok w') : ∃ s', RepWorld w' s' ∧ s'.Aligned := by
  cases e with
  | malloc n answers =>
    obtain ⟨k, s', hspec, -, hrep', -⟩ := malloc_step hw hstep
    exact ⟨s', hrep', (Hwx.malloc_aligned hs hspec).2 (hcut _ (Hwx.freeCells_spec hw.heap))⟩
  | free p =>
    obtain ⟨k, hk, rfl⟩ := ha
    rw [hw.live] at hk
    obtain ⟨h', -, hstep', hrep', -⟩ := free_step hw hk (keeps_of_freesWhole hw hk hkeep)
    rw [hstep] at hstep'
    cases hstep'
    exact ⟨_, hrep', freed_aligned hs hk⟩
  | write p off b =>
    obtain ⟨k, hk, rfl, hoff⟩ := ha
    rw [hw.live] at hk
    cases hstep
    exact ⟨s, write_step hw hk hoff b, hs⟩

theorem RepWorld.unique {w : World} {s s' : Spec} (h : RepWorld w s) (h' : RepWorld w s') :
    s = s' := by
  have hrep : ∀ {t : Spec}, RepWorld w t → Hwx.RepWorld ⟨w.heap.hwx, w.live⟩ t := fun ht =>
    ⟨ht.live, ht.heap⟩
  exact (hrep h).unique (hrep h')

theorem aligned_of_run {reuse : Bool} {m : Memory} {past : List (World × Event)} {w : World}
    (hw : Run reuse m past w) (hcut : ∀ x ∈ past, CutsInRun reuse x.1 x.2) :
    ∃ s, RepWorld w s ∧ s.Aligned := by
  induction hw with
  | empty => exact ⟨_, rep_empty reuse m, by simp [Spec.Aligned]⟩
  | @step past w w' e hw ha hs ih =>
    rw [List.forall_mem_cons] at hcut
    obtain ⟨s, hrep, haligned⟩ := ih hcut.2
    have hsafe : reuse = false ∨ ∀ x ∈ past, FreesWhole x.1 x.2 := by
      cases reuse with
      | false => exact Or.inl rfl
      | true => exact Or.inr fun x hx => (hcut.2 x hx).2 rfl
    obtain ⟨s₂, haccount, hreuse⟩ := account_of_run hw hsafe
    rw [haccount.rep.unique hrep] at hreuse
    have hkeep : s.pages.reuse = false ∨ FreesWhole w e := by
      cases reuse with
      | false => exact Or.inl hreuse
      | true => exact Or.inr (hcut.1.2 rfl)
    exact aligned_step hrep haligned ha hcut.1.1 hkeep hs

theorem hmalloc_aligned {reuse : Bool} {m : Memory} {past : List (World × Event)} {w : World}
    (hw : Run reuse m past w) (hcut : ∀ x ∈ past, CutsInRun reuse x.1 x.2) {answers : List Nat}
    {n q : Nat} {h' : Heap} (hrun : hmalloc answers n w.heap = .ok (q, h')) : q % 8 = 0 := by
  obtain ⟨s, hrep, haligned⟩ := aligned_of_run hw hcut
  obtain ⟨k, s', hspec, hq, -⟩ := hmalloc_lists hrep.heap hrun
  have hbase := (Hwx.malloc_aligned haligned hspec).1
  omega

end Hmalloc

/-- A run in which cells are cut at multiples of eight only gets aligned
pointers, from either allocator. -/
theorem pointers_aligned (reuse : Bool) (m : Memory) :
    (∀ w : Hwx.World, Hwx.Reachable (Hwx.CutsInRun reuse) reuse m w →
      (∀ k ∈ w.live, (k.base + 8) % 8 = 0) ∧ ∀ answers n q h',
        Hwx.xmalloc answers n w.heap = .ok (q, h') → q % 8 = 0) ∧
    ∀ (past : List (Hmalloc.World × Hmalloc.Event)) (w : Hmalloc.World),
      Hmalloc.Run reuse m past w → (∀ x ∈ past, Hmalloc.CutsInRun reuse x.1 x.2) →
      (∀ k ∈ w.live, (k.base + 8) % 8 = 0) ∧ ∀ answers n q h',
        Hmalloc.hmalloc answers n w.heap = .ok (q, h') → q % 8 = 0 := by
  constructor
  · intro w hw
    refine ⟨fun k hk => ?_, fun answers n q h' hrun => Hwx.xmalloc_aligned hw hrun⟩
    obtain ⟨s, hrep, haligned⟩ := Hwx.aligned_of_reachable hw
    have hbase := (haligned.live k (hrep.live ▸ hk)).1
    omega
  · intro past w hw hcut
    refine ⟨fun k hk => ?_, fun answers n q h' hrun => Hmalloc.hmalloc_aligned hw hcut hrun⟩
    obtain ⟨s, hrep, haligned⟩ := Hmalloc.aligned_of_run hw hcut
    have hbase := (haligned.live k (hrep.live ▸ hk)).1
    omega

/-- The smallest block is cut at 24 bytes. -/
theorem smallest_block_aligned :
    (∃ w, Hwx.Reachable (Hwx.CutsInRun false) false (fun _ => 0) w ∧ w.live = [⟨65536, 24⟩] ∧
        ∀ k ∈ w.live, (k.base + 8) % 8 = 0) ∧
      ∃ past w, Hmalloc.Run false (fun _ => 0) past w ∧ w.live = [⟨65536, 24⟩] ∧
        ∀ k ∈ w.live, (k.base + 8) % 8 = 0 := by
  constructor
  · have hlive : ((Hwx.emptySpec false).step (.malloc 16 [65536])).toOption.map
        (fun s => s.live) = some [⟨65536, 24⟩] := by decide +kernel
    have hsim := Hwx.step_sim (Hwx.rep_empty false fun _ => 0) (e := .malloc 16 [65536])
      (by decide) (Or.inl rfl)
    change Hwx.Agrees _ _ ((Hwx.emptySpec false).step _) at hsim
    cases hspec : (Hwx.emptySpec false).step (.malloc 16 [65536]) with
    | error e =>
      rw [hspec] at hlive
      cases hlive
    | ok s =>
      rw [hspec] at hlive hsim
      obtain ⟨w, hstep, hrep⟩ := Hwx.agrees_ok hsim
      have hcut : Hwx.CutsInRun false (Hwx.emptyWorld false fun _ => 0) (.malloc 16 [65536]) :=
        ⟨fun _ _ _ _ _ _ => rfl, fun h => absurd h (by decide)⟩
      have hw := Hwx.Reachable.step .empty (by decide) hcut hstep
      exact ⟨w, hw, hrep.live.trans (Option.some.inj hlive), ((pointers_aligned _ _).1 _ hw).1⟩
  · have hrun : (Hmalloc.followAll (Hwx.emptySpec false) [.malloc 16 [65536]]).map
        (fun s => s.live) = some [⟨65536, 24⟩] := by decide +kernel
    obtain ⟨past, w, s, hw, hrep, -, hlive, hevents⟩ := Hmalloc.run_of_live (fun _ => 0) hrun
    refine ⟨past, w, hw, hrep.live.trans hlive, ((pointers_aligned _ _).2 _ _ hw ?_).1⟩
    intro x hx
    obtain ⟨w', e⟩ := x
    have he : e = .malloc 16 [65536] := List.mem_singleton.mp (hevents _ hx)
    subst he
    exact ⟨fun _ _ _ _ _ _ => rfl, fun h => absurd h (by decide)⟩

/-- After a block of 17 bytes the next one starts at an odd address. -/
theorem odd_request_misaligns :
    (¬ ∀ (m : Memory) (w : Hwx.World), Hwx.Reachable (fun _ _ => True) false m w →
        ∀ k ∈ w.live, (k.base + 8) % 8 = 0) ∧
      ¬ ∀ (m : Memory) (past : List (Hmalloc.World × Hmalloc.Event)) (w : Hmalloc.World),
        Hmalloc.Run false m past w → ∀ k ∈ w.live, (k.base + 8) % 8 = 0 := by
  have hodd : ¬ (65561 + 8) % 8 = 0 := by decide
  refine ⟨fun hclaim => hodd ?_, fun hclaim => hodd ?_⟩
  · have hrun : ((Hwx.emptySpec false).run [.malloc 17 [65536], .malloc 17 []]).map
        (fun s => s.live) = some [⟨65561, 25⟩, ⟨65536, 25⟩] := by decide +kernel
    obtain ⟨s, hs, hlive⟩ := Option.map_eq_some_iff.mp hrun
    obtain ⟨w, hw, hrep, -⟩ := Hwx.reachable_of_run .empty (Hwx.rep_empty false fun _ => 0) rfl hs
    exact hclaim _ w hw ⟨65561, 25⟩ (by rw [hrep.live, hlive]; exact List.mem_cons_self)
  · have hrun : (Hmalloc.followAll (Hwx.emptySpec false) [.malloc 17 [65536], .malloc 17 []]).map
        (fun s => s.live) = some [⟨65561, 25⟩, ⟨65536, 25⟩] := by decide +kernel
    obtain ⟨past, w, s, hw, hrep, -, hlive, -⟩ := Hmalloc.run_of_live (fun _ => 0) hrun
    exact hclaim _ past w hw ⟨65561, 25⟩ (by rw [hrep.live, hlive]; exact List.mem_cons_self)

end Cs3650.Malloc
