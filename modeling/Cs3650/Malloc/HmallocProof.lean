import Cs3650.Malloc.HwxInvariant
import Cs3650.Malloc.Hmalloc

/-!
# The homework allocator follows the same policy

On a well-formed heap the functions of `hmalloc.c` do what those of
`hwx_malloc.c` do, so the calls follow `Hwx.Spec`, and the counters follow the
bytes of the cells and chunks.
-/

namespace Cs3650.Malloc.Hmalloc

open Cs3650.Lib Cs3650.Lib.FirstFit FreeList
open Hwx (divUp roundUp clamp withHeader lose Spec Rep Agrees agrees_ok)

theorem agrees_map {α α' β : Type} {R : α' → β → Prop} {f : α → α'} {x : Except Fault α}
    {y : Except Fault β} (h : Agrees (fun a b => R (f a) b) x y) : Agrees R (x.map f) y := by
  cases x <;> cases y <;> exact h

/-! ## The functions that differ -/

section Functions

variable {fl : FreeList} {as bs : List Region} {c : Region}

theorem searchSize_of_hwx {size cell : Nat} (fuel : Nat) {p : Nat}
    (h : fl.searchSize size fuel p = .ok cell) : searchSize fl size fuel p = .ok cell := by
  induction fuel generalizing p with
  | zero => cases h
  | succ fuel ih =>
    rw [FreeList.searchSize] at h
    rw [searchSize]
    split
    · rwa [if_pos ‹_›] at h
    · rw [if_neg ‹_›] at h
      split at h
      · cases h
      · split
        · rwa [if_pos ‹_›] at h
        · rw [if_neg ‹_›] at h
          exact ih h

theorem splitChunk_eq {cell size : Nat} (h : sizeofFlCell < subWord (fl.size cell) size) :
    splitChunk fl cell size = fl.splitChunk cell size := by
  unfold splitChunk FreeList.splitChunk
  dsimp only
  rw [if_neg (Nat.not_le.mpr h)]

theorem last_iff_head (hl : Linked fl (as ++ c :: bs)) (hasc : Ascending (as ++ c :: bs))
    (hok : ∀ r ∈ as ++ c :: bs, CellOk r) : fl.last c.base = 0 ↔ fl.head = c.base := by
  obtain ⟨⟨hhead, -⟩, hcell, -⟩ := linked_append.mp hl
  have hlast : fl.last c.base = lastBase 0 as := hcell.last
  rw [hlast, hhead]
  rcases List.eq_nil_or_concat as with rfl | ⟨as, a, rfl⟩
  · exact iff_of_true rfl rfl
  · rw [List.concat_eq_append] at *
    rw [lastBase_concat]
    have ha : a ∈ as ++ [a] ++ c :: bs := by simp
    refine iff_of_false (Nat.ne_of_gt (hok a ha).2.1) ?_
    obtain ⟨d, ds, hd⟩ := List.exists_cons_of_ne_nil (show as ++ [a] ≠ [] by simp)
    rw [hd] at hasc hok ⊢
    have hbelow := (List.pairwise_cons.mp hasc).1 c (by simp)
    have hpos := (hok d List.mem_cons_self).1
    unfold sizeofFlCell at hpos
    unfold Region.stop at hbelow
    rw [firstBase_cons]
    omega

theorem unlink_eq {cell : Nat} (h : fl.last cell = 0 ↔ fl.head = cell) :
    unlink fl cell = fl.unlink cell := by
  unfold unlink FreeList.unlink
  dsimp only
  by_cases hlast : fl.last cell = 0
  · have hhead := h.mp hlast
    simp only [hlast, ne_eq, not_true_eq_false, if_false]
    split
    · exact if_pos hhead
    · rfl
  · have hhead : fl.head ≠ cell := fun heq => hlast (h.mpr heq)
    simp only [hlast, ne_eq, not_false_eq_true, if_true]
    split
    · exact if_neg hhead
    · exact if_neg hhead

end Functions

/-! ## The calls -/

/-- The heap of `hwx_malloc.c` with counters. -/
def counted (stats : Stats) (h : Hwx.Heap) : Heap := ⟨h.list, h.pages, stats⟩

@[simp] theorem counted_hwx (stats : Stats) (h : Hwx.Heap) : (counted stats h).hwx = h := rfl
@[simp] theorem counted_stats (stats : Stats) (h : Hwx.Heap) : (counted stats h).stats = stats :=
  rfl

def Stats.alloc (s : Stats) : Stats := { s with chunksAllocated := s.chunksAllocated + 1 }

def Stats.mapPages (s : Stats) (n : Nat) : Stats := { s with pagesMapped := s.pagesMapped + n }

theorem mapLarge_eq (h : Heap) (size : Nat) (answers : List Nat) :
    mapLarge h size answers = (Hwx.mapLarge h.hwx size answers).map fun r =>
      (r.1, counted (h.stats.mapPages (divUp size)).alloc r.2) := by
  cases answers with
  | nil => rfl
  | cons addr rest =>
    unfold mapLarge Hwx.mapLarge
    show (mmap h.list.mem h.pages addr (roundUp size) >>= _) =
      (mmap h.list.mem h.pages addr (roundUp size) >>= _).map _
    cases mmap h.list.mem h.pages addr (roundUp size) with
    | error e => rfl
    | ok r => rfl

theorem addPage_eq (h : Heap) (addr : Nat) :
    addPage h addr = (Hwx.addPage h.hwx addr).map (counted (h.stats.mapPages 1)) := by
  unfold addPage Hwx.addPage
  show (mmap h.list.mem h.pages addr pageSize >>= _) =
    (mmap h.list.mem h.pages addr pageSize >>= _).map _
  cases mmap h.list.mem h.pages addr pageSize with
  | error e => rfl
  | ok r =>
    simp only [ok_bind]
    show ((makeFlCell _ addr pageSize).insertFlCell addr >>= _) =
      ((makeFlCell { h.list with mem := r.1 } addr pageSize).insertFlCell addr >>= _).map _
    cases (makeFlCell { h.list with mem := r.1 } addr pageSize).insertFlCell addr with
    | error e => rfl
    | ok fl =>
      simp only [ok_bind]
      cases fl.coalesce addr with
      | error e => rfl
      | ok fl' => rfl

theorem takeCell_eq {h : Heap} {s : Spec} (hr : Rep h.hwx s) {size : Nat}
    (hsize : sizeofFlCell ≤ size) {k : Region} {free : List Region}
    (hc : carve sizeofFlCell size s.free = some (k, free)) :
    takeCell h k.base size = (Hwx.takeCell h.hwx k.base size).map fun r =>
      (r.1, counted h.stats.alloc r.2) := by
  have hasc := hr.layout.separated.ascending
  have hok : ∀ r ∈ s.free, CellOk r := fun r hmem => hr.layout.cell_ok hmem
  have hlinked : Linked h.list s.free := hr.linked
  obtain ⟨as, r, bs, hfree, -, hfit, hcase⟩ := carve_cases hc
  rw [hfree] at hasc hok hlinked
  have hrsize : h.list.size r.base = r.len := (linked_append.mp hlinked).2.1.size
  have hdiff : subWord (h.list.size r.base) size = r.len - size := by
    have hstop := (hok r (by simp)).2.2
    unfold Region.stop at hstop
    rw [hrsize]
    unfold subWord
    omega
  have hbase : k.base = r.base := by
    rcases hcase with ⟨-, rfl, -⟩ | ⟨-, rfl, -⟩ <;> rfl
  unfold takeCell Hwx.takeCell
  rw [hbase]
  show _ = (Except.map _ (do
    let fl ← if sizeofFlCell < subWord (h.list.size r.base) size then
      h.list.splitChunk r.base size else Except.ok h.list
    _))
  rw [hdiff]
  by_cases hleft : sizeofFlCell < r.len - size
  · obtain ⟨fl', hrun, hl', -⟩ := splitChunk_spec hlinked hasc hok hsize hleft
    obtain ⟨hascx, hoks, -⟩ := halves_spec hasc hok hsize hleft
    have hhead := last_iff_head hl' hascx hoks
    have hunlink : unlink fl' r.base = fl'.unlink r.base := unlink_eq hhead
    rw [if_pos hleft, if_pos hleft, splitChunk_eq (hdiff ▸ hleft), hrun, ok_bind, ok_bind]
    dsimp only
    rw [hunlink]
    rfl
  · have hunlink : unlink h.list r.base = h.list.unlink r.base :=
      unlink_eq (last_iff_head hlinked hasc hok)
    rw [if_neg hleft, if_neg hleft, ok_bind, ok_bind]
    dsimp only
    rw [hunlink]
    rfl

/-- Bytes that the allocator has: free cells and live chunks. -/
def owned (s : Spec) : Int := bytes s.free + bytes s.live

/-- The call maps pages for as many bytes as the lists gain. -/
structure Paid (h h' : Heap) (s s' : Spec) : Prop where
  mapped : pageSize * (h'.stats.pagesMapped - h.stats.pagesMapped) = owned s' - owned s
  unmapped : h'.stats.pagesUnmapped = h.stats.pagesUnmapped

theorem Paid.trans {h₁ h₂ h₃ : Heap} {s₁ s₂ s₃ : Spec} (h : Paid h₁ h₂ s₁ s₂)
    (h' : Paid h₂ h₃ s₂ s₃) : Paid h₁ h₃ s₁ s₃ := by
  refine ⟨?_, h'.unmapped.trans h.unmapped⟩
  have h1 := h.mapped
  have h2 := h'.mapped
  unfold pageSize at *
  omega

theorem roundUp_eq {size : Nat} (hlt : size < 2 ^ 64) (hpos : 0 < roundUp size) :
    roundUp size = divUp size * pageSize := by
  have h := Hwx.divUp_spec size
  unfold roundUp at *
  unfold pageSize at *
  omega

theorem mapLarge_sim {h : Heap} {s : Spec} (hr : Rep h.hwx s) {size : Nat} (hlt : size < 2 ^ 64)
    (answers : List Nat) :
    Agrees (fun r t => r.1 = t.1.base + 8 ∧ Rep r.2.hwx t.2 ∧ Paid h r.2 s t.2)
      (mapLarge h size answers) (s.mapLarge size answers) := by
  rw [mapLarge_eq]
  apply agrees_map
  apply Hwx.agrees_imp (Hwx.mapLarge_sim hr size answers)
  rintro r t ht ⟨hptr, hrep⟩
  refine ⟨hptr, hrep, ?_, rfl⟩
  cases answers with
  | nil => cases ht
  | cons addr rest =>
    rw [Spec.mapLarge] at ht
    split at ht
    · rename_i hf
      cases ht
      have hpages := roundUp_eq hlt hf.1
      unfold owned Stats.alloc Stats.mapPages
      simp only [counted_stats, bytes_cons]
      unfold pageSize at *
      omega
    · cases ht

theorem addPage_sim {h : Heap} {s : Spec} (hr : Rep h.hwx s) (addr : Nat) :
    Agrees (fun h' s' => Rep h'.hwx s' ∧ Paid h h' s s') (addPage h addr) (s.addPage addr) := by
  rw [addPage_eq]
  apply agrees_map
  apply Hwx.agrees_imp (Hwx.addPage_sim hr addr)
  intro h' s' hs hrep
  refine ⟨hrep, ?_, rfl⟩
  unfold Spec.addPage at hs
  split at hs
  · cases hs
    unfold owned Stats.mapPages
    simp only [counted_stats, bytes_release]
    unfold pageSize
    omega
  · cases hs

/-- The search found a cell: it is taken, and `onMiss` is not run. -/
theorem hit_sim {h : Heap} {s : Spec} (hr : Rep h.hwx s) {size : Nat}
    (hsize : sizeofFlCell ≤ size) {k : Region} {free : List Region}
    (hc : carve sizeofFlCell size s.free = some (k, free)) (onMiss : Except Fault (Nat × Heap)) :
    Agrees (fun r t => r.1 = t.1.base + 8 ∧ Rep r.2.hwx t.2 ∧ Paid h r.2 s t.2)
      (if ((s.free.find? fun r => size ≤ r.len).map Region.base).getD 0 ≠ 0 then
        takeCell h (((s.free.find? fun r => size ≤ r.len).map Region.base).getD 0) size
        else onMiss)
      (.ok (k, ⟨free, k :: s.live, s.pages⟩)) := by
  obtain ⟨r, hfind, hbase, -⟩ := find_of_carve hc
  obtain ⟨h', hrun, hrep⟩ := Hwx.takeCell_sim hr hsize hc
  have hpos : k.base ≠ 0 :=
    Nat.ne_of_gt ((hr.layout.carve hsize hc).chunk_ok List.mem_cons_self).2.1
  have htake := takeCell_eq hr hsize hc
  rw [hrun] at htake
  rw [hfind]
  simp only [Option.map_some, Option.getD_some, hbase, if_pos hpos, htake]
  refine ⟨rfl, hrep, ?_, rfl⟩
  have hbytes := bytes_carve hc
  unfold owned Stats.alloc
  simp only [counted_stats, bytes_cons]
  omega

theorem search_sim {h : Heap} {s : Spec} (hr : Rep h.hwx s) (size : Nat) :
    searchSize h.list size walkFuel h.list.head =
      .ok (((s.free.find? fun r => size ≤ r.len).map Region.base).getD 0) :=
  searchSize_of_hwx _ (Hwx.search_sim hr size)

/-- The recursion asks for what the first call asked for. -/
theorem again (n : Nat) : clamp (withHeader (subWord (clamp (withHeader n)) 8)) =
    clamp (withHeader n) := by
  have hge := Hwx.clamp_ge (withHeader n)
  have hlt := Hwx.clamp_lt (Nat.mod_lt (n + 8) (Nat.two_pow_pos 64))
  unfold sizeofFlCell at hge
  have hsame : withHeader (subWord (clamp (withHeader n)) 8) = clamp (withHeader n) := by
    change clamp (withHeader n) < 2 ^ 64 at hlt
    generalize clamp (withHeader n) = size at *
    unfold withHeader subWord
    omega
  rw [hsame, Hwx.clamp_clamp]

theorem hmalloc_sim {h : Heap} {s : Spec} (hr : Rep h.hwx s) (answers : List Nat) (n : Nat) :
    Agrees (fun r t => r.1 = t.1.base + 8 ∧ Rep r.2.hwx t.2 ∧ Paid h r.2 s t.2)
      (hmalloc answers n h) (Spec.malloc (clamp (withHeader n)) answers s) := by
  have hlt : ∀ n, clamp (withHeader n) < 2 ^ 64 := fun n =>
    Hwx.clamp_lt (Nat.mod_lt _ (Nat.two_pow_pos 64))
  induction answers generalizing h s n with
  | nil =>
    rw [hmalloc, Spec.malloc]
    by_cases hbig : pageSize ≤ clamp (withHeader n)
    · rw [if_pos hbig, if_pos hbig]
      exact mapLarge_sim hr (hlt n) _
    · rw [if_neg hbig, if_neg hbig, search_sim hr, ok_bind]
      cases hc : carve sizeofFlCell (clamp (withHeader n)) s.free with
      | none =>
        rw [find_of_carve_none hc]
        exact ⟨rfl, rfl⟩
      | some kf => exact hit_sim hr (Hwx.clamp_ge _) hc _
  | cons addr rest ih =>
    rw [hmalloc, Spec.malloc]
    by_cases hbig : pageSize ≤ clamp (withHeader n)
    · rw [if_pos hbig, if_pos hbig]
      exact mapLarge_sim hr (hlt n) _
    · rw [if_neg hbig, if_neg hbig, search_sim hr, ok_bind]
      cases hc : carve sizeofFlCell (clamp (withHeader n)) s.free with
      | some kf => exact hit_sim hr (Hwx.clamp_ge _) hc _
      | none =>
        rw [find_of_carve_none hc]
        simp only [Option.map_none, Option.getD_none, ne_eq, not_true_eq_false, if_false]
        apply Hwx.agrees_bind (addPage_sim hr addr)
        rintro h' s' - ⟨hr', hpaid⟩
        have hrec := ih hr' (subWord (clamp (withHeader n)) 8)
        rw [again] at hrec
        exact Hwx.agrees_imp hrec fun r t _ hrt => ⟨hrt.1, hrt.2.1, hpaid.trans hrt.2.2⟩

theorem hmalloc_lists {h h' : Heap} {s : Spec} (hr : Rep h.hwx s) {answers : List Nat} {n q : Nat}
    (hrun : hmalloc answers n h = .ok (q, h')) :
    ∃ k s', Spec.malloc (clamp (withHeader n)) answers s = .ok (k, s') ∧ q = k.base + 8 ∧
      Rep h'.hwx s' := by
  have hsim := hmalloc_sim hr answers n
  rw [hrun] at hsim
  cases hspec : Spec.malloc (clamp (withHeader n)) answers s with
  | error e =>
    rw [hspec] at hsim
    exact absurd hsim id
  | ok t =>
    rw [hspec] at hsim
    exact ⟨t.1, t.2, rfl, hsim.1, hsim.2.1⟩

/-! ## Giving back -/

/-- Give the chunk `k` back; the kernel is told the address of the block. -/
def freed (s : Spec) (k : Region) : Spec :=
  if pageSize ≤ k.len then
    ⟨s.free, lose (k.base + 8) s.live, s.pages.munmap (k.base + 8) (roundUp k.len)⟩
  else ⟨release k s.free, lose (k.base + 8) s.live, s.pages⟩

/-- No page is lost to the kernel that it could hand out a second time. -/
def Keeps (s : Spec) (k : Region) : Prop :=
  s.pages.reuse = false ∨ (pageSize ≤ k.len → (k.base + 8) % pageSize ≠ 0)

theorem layout_munmap {pg : Pages} {free live : List Region} {a len : Nat}
    (h : Layout pg free live) (hused : ∀ p, pg.mapped p = true → pg.used p = true)
    (hcase : pg.reuse = false ∨ a % pageSize ≠ 0) : Layout (pg.munmap a len) free live := by
  refine ⟨h.separated, h.ok, fun r hr x h1 h2 => ?_, h.live_apart, h.apart⟩
  have htaken := h.holds r hr x h1 h2
  rcases hcase with hreuse | hodd
  · exact Pages.taken_munmap_of_not_reuse hreuse hused a len _ htaken
  · unfold Pages.munmap Pages.taken at *
    dsimp only
    rw [if_neg fun h => hodd h.1]
    exact htaken

theorem used_munmap {pg : Pages} (h : ∀ p, pg.mapped p = true → pg.used p = true) (a len : Nat) :
    ∀ p, (pg.munmap a len).mapped p = true → (pg.munmap a len).used p = true := by
  intro p hp
  unfold Pages.munmap at *
  dsimp only at *
  split at hp
  · exact h p (Bool.and_eq_true_iff.mp hp).2
  · exact h p hp

theorem hfree_sim {h : Heap} {s : Spec} (hr : Rep h.hwx s) {k : Region} (hk : k ∈ s.live)
    (hkeep : Keeps s k) :
    ∃ h', hfree h (k.base + 8) = .ok h' ∧ Rep h'.hwx (freed s k) ∧
      h'.stats.pagesMapped = h.stats.pagesMapped ∧
      h'.stats.pagesUnmapped = h.stats.pagesUnmapped +
        (if pageSize ≤ k.len then divUp k.len else 0 : Nat) := by
  have hheader : h.list.size k.base = k.len := hr.header k hk
  unfold hfree freed
  dsimp only
  rw [Nat.add_sub_cancel, hheader]
  by_cases hbig : pageSize ≤ k.len
  · rw [if_pos hbig, if_pos hbig, if_pos hbig]
    have hperm := Hwx.lose_perm hr.layout.live_apart
      (fun r hmem => (hr.layout.chunk_ok hmem).pos) hk
    have hsub : ∀ j ∈ lose (k.base + 8) s.live, j ∈ s.live := fun j hj =>
      (List.mem_filter.mp hj).1
    have hpages : h.pages = s.pages := hr.pages
    refine ⟨_, rfl, ⟨hr.linked, fun j hj => hr.header j (hsub j hj), ?_, ?_, ?_⟩, rfl, rfl⟩
    · show h.pages.munmap _ _ = _
      rw [hpages]
    · exact layout_munmap (hr.layout.perm hperm).tail hr.used (hkeep.imp id fun h => h hbig)
    · exact used_munmap hr.used _ _
  · rw [if_neg hbig, if_neg hbig, if_neg hbig]
    obtain ⟨h', hrun, hrep⟩ := Hwx.xfreeHelper_sim hr hk (Or.inr fun hlen => absurd hlen hbig)
    unfold Spec.free₁ at hrep
    rw [if_neg hbig] at hrep
    unfold Hwx.xfreeHelper at hrun
    dsimp only at hrun
    rw [Nat.add_sub_cancel, show h.hwx.list.size k.base = k.len from hheader, if_neg hbig] at hrun
    change ((h.list.makeFlCell k.base k.len).insertFlCell k.base >>= _) = _ at hrun
    cases hins : (h.list.makeFlCell k.base k.len).insertFlCell k.base with
    | error e =>
      rw [hins] at hrun
      cases hrun
    | ok fl =>
      rw [hins, ok_bind] at hrun
      cases hco : fl.coalesce k.base with
      | error e =>
        rw [hco] at hrun
        cases hrun
      | ok fl' =>
        rw [hco] at hrun
        cases hrun
        rw [ok_bind, hco, ok_bind]
        exact ⟨_, rfl, hrep, rfl, (Int.add_zero _).symm⟩

theorem freed_live (s : Spec) (k : Region) : (freed s k).live = lose (k.base + 8) s.live := by
  unfold freed
  split <;> rfl

theorem freed_reuse (s : Spec) (k : Region) : (freed s k).pages.reuse = s.pages.reuse := by
  unfold freed
  split <;> rfl

theorem owned_freed {s : Spec} (hlay : Layout s.pages s.free s.live) {k : Region}
    (hk : k ∈ s.live) :
    owned (freed s k) = owned s - (if pageSize ≤ k.len then k.len else 0 : Nat) := by
  have hperm := Hwx.lose_perm hlay.live_apart (fun r hmem => (hlay.chunk_ok hmem).pos) hk
  have hbytes := bytes_perm hperm
  rw [bytes_cons] at hbytes
  unfold owned freed
  split
  · dsimp only
    omega
  · simp only [bytes_release]
    omega

/-! ## Events -/

structure RepWorld (w : World) (s : Spec) : Prop where
  live : w.live = s.live
  heap : Rep w.heap.hwx s

theorem rep_empty (reuse : Bool) (m : Memory) :
    RepWorld (emptyWorld reuse m) ⟨[], [], Pages.empty reuse⟩ :=
  ⟨rfl, (Hwx.rep_empty reuse m).heap⟩

theorem malloc_step {w w' : World} {s : Spec} (hw : RepWorld w s) {n : Nat} {answers : List Nat}
    (hs : step w (.malloc n answers) = .ok w') :
    ∃ k s', Spec.malloc (clamp (withHeader n)) answers s = .ok (k, s') ∧
      hmalloc answers n w.heap = .ok (k.base + 8, w'.heap) ∧ RepWorld w' s' ∧
      Paid w.heap w'.heap s s' := by
  have hsim := hmalloc_sim hw.heap answers n
  unfold step at hs
  dsimp only at hs
  cases hrun : hmalloc answers n w.heap with
  | error e =>
    rw [hrun] at hs
    cases hs
  | ok r =>
    rw [hrun] at hs hsim
    cases hs
    cases hspec : Spec.malloc (clamp (withHeader n)) answers s with
    | error e =>
      rw [hspec] at hsim
      exact absurd hsim id
    | ok t =>
      rw [hspec] at hsim
      obtain ⟨hptr, hrep, hpaid⟩ := hsim
      obtain ⟨hlive, -, -⟩ := Hwx.malloc_live hspec
      have hk : t.1 ∈ t.2.live := hlive ▸ List.mem_cons_self
      have hchunk : chunkAt r.2 r.1 = t.1 := by
        rw [hptr]
        exact Hwx.chunkAt_header hrep hk
      refine ⟨t.1, t.2, rfl, by rw [← hptr], ⟨?_, hrep⟩, hpaid⟩
      dsimp only
      rw [hchunk, hw.live, hlive]

theorem free_step {w : World} {s : Spec} (hw : RepWorld w s) {k : Region} (hk : k ∈ s.live)
    (hkeep : Keeps s k) :
    ∃ h', hfree w.heap (k.base + 8) = .ok h' ∧
      step w (.free (k.base + 8)) = .ok ⟨h', lose (k.base + 8) w.live⟩ ∧
      RepWorld ⟨h', lose (k.base + 8) w.live⟩ (freed s k) ∧
      h'.stats.pagesMapped = w.heap.stats.pagesMapped ∧
      h'.stats.pagesUnmapped = w.heap.stats.pagesUnmapped +
        (if pageSize ≤ k.len then divUp k.len else 0 : Nat) := by
  obtain ⟨h', hrun, hrep, hmapped, hunmapped⟩ := hfree_sim hw.heap hk hkeep
  refine ⟨h', hrun, ?_, ⟨?_, hrep⟩, hmapped, hunmapped⟩
  · unfold step
    dsimp only
    rw [hrun, ok_bind]
  · rw [freed_live, hw.live]

theorem write_step {w : World} {s : Spec} (hw : RepWorld w s) {k : Region} (hk : k ∈ s.live)
    {off : Nat} (hoff : 8 + off < k.len) (b : Byte) :
    RepWorld ⟨{ w.heap with list := { w.heap.list with
      mem := patch w.heap.list.mem (k.base + 8 + off : Nat) 1 fun _ => b } }, w.live⟩ s := by
  refine ⟨hw.live, hw.heap.payload hk ?_⟩
  apply unchangedOff_patch _ _ (by dsimp only; omega)
  unfold Region.stop
  dsimp only
  omega

/-! ## Runs of the lists -/

/-- The event on the lists. -/
def follow (s : Spec) : Event → Option Spec
  | .malloc n answers => (Spec.malloc (clamp (withHeader n)) answers s).toOption.map Prod.snd
  | .free p => (s.live.find? fun k => k.base + 8 = p).map (freed s)
  | .write p off _ => if ∃ k ∈ s.live, k.base + 8 = p ∧ 8 + off < k.len then some s else none

def followAll (s : Spec) : List Event → Option Spec
  | [] => some s
  | e :: es => (follow s e).bind fun s' => followAll s' es

theorem step_of_follow {w : World} {s s' : Spec} {e : Event} (hw : RepWorld w s)
    (hreuse : s.pages.reuse = false) (h : follow s e = some s') :
    ∃ w', Allowed w e ∧ step w e = .ok w' ∧ RepWorld w' s' ∧ s'.pages.reuse = false := by
  cases e with
  | malloc n answers =>
    have hsim := hmalloc_sim hw.heap answers n
    unfold follow at h
    dsimp only at h
    cases hspec : Spec.malloc (clamp (withHeader n)) answers s with
    | error e =>
      rw [hspec] at h
      cases h
    | ok t =>
      rw [hspec] at h hsim
      cases h
      obtain ⟨r, hrun, -⟩ := agrees_ok hsim
      have hstep : step w (.malloc n answers) = .ok ⟨r.2, chunkAt r.2 r.1 :: w.live⟩ := by
        unfold step
        dsimp only
        rw [hrun, ok_bind]
      obtain ⟨k, t', hspec', -, hrep, -⟩ := malloc_step hw hstep
      rw [hspec] at hspec'
      cases hspec'
      exact ⟨_, trivial, hstep, hrep, (Hwx.malloc_live hspec).2.1.trans hreuse⟩
  | free p =>
    obtain ⟨k, hfind, rfl⟩ := Option.map_eq_some_iff.mp h
    have hk := List.mem_of_find?_eq_some hfind
    have hp := List.find?_some hfind
    simp only [decide_eq_true_eq] at hp
    obtain ⟨h', -, hstep, hrep, -⟩ := free_step hw hk (Or.inl hreuse)
    rw [hp] at hstep
    exact ⟨_, ⟨k, hw.live ▸ hk, hp⟩, hstep, hp ▸ hrep, (freed_reuse s k).trans hreuse⟩
  | write p off b =>
    unfold follow at h
    dsimp only at h
    split at h
    · rename_i hk
      cases h
      obtain ⟨k, hk, rfl, hoff⟩ := hk
      exact ⟨_, ⟨k, hw.live ▸ hk, rfl, hoff⟩, rfl, write_step hw hk hoff b, hreuse⟩
    · cases h

theorem run_of_follow {m : Memory} {past : List (World × Event)} {w : World} {s s' : Spec}
    {es : List Event} (hrun : Run false m past w) (hw : RepWorld w s)
    (hreuse : s.pages.reuse = false) (h : followAll s es = some s') :
    ∃ past' w', Run false m past' w' ∧ RepWorld w' s' ∧ s'.pages.reuse = false ∧
      past'.map Prod.snd = es.reverse ++ past.map Prod.snd := by
  induction es generalizing past w s with
  | nil =>
    cases h
    exact ⟨past, w, hrun, hw, hreuse, rfl⟩
  | cons e es ih =>
    obtain ⟨s₁, hs₁, hrest⟩ := Option.bind_eq_some_iff.mp h
    obtain ⟨w₁, ha, hstep, hw₁, hreuse₁⟩ := step_of_follow hw hreuse hs₁
    obtain ⟨past', w', hrun', hw', hreuse', hevents⟩ :=
      ih (.step hrun ha hstep) hw₁ hreuse₁ hrest
    exact ⟨past', w', hrun', hw', hreuse', by rw [hevents]; simp⟩

theorem run_of_live {es : List Event} {live : List Region} (m : Memory)
    (h : (followAll (Hwx.emptySpec false) es).map (fun s => s.live) = some live) :
    ∃ past w s, Run false m past w ∧ RepWorld w s ∧ s.pages.reuse = false ∧ s.live = live ∧
      ∀ x ∈ past, x.2 ∈ es := by
  obtain ⟨s, hs, hlive⟩ := Option.map_eq_some_iff.mp h
  obtain ⟨past, w, hrun, hw, hreuse, hevents⟩ := run_of_follow .empty (rep_empty false m) rfl hs
  refine ⟨past, w, s, hrun, hw, hreuse, hlive, fun x hx => ?_⟩
  have hmem : x.2 ∈ past.map Prod.snd := List.mem_map_of_mem hx
  rw [hevents] at hmem
  simpa using hmem

theorem free_of_live {m : Memory} {past : List (World × Event)} {w : World} {s : Spec}
    {k : Region} (hrun : Run false m past w) (hw : RepWorld w s) (hreuse : s.pages.reuse = false)
    (hk : k ∈ s.live) :
    ∃ w', Run false m ((w, .free (k.base + 8)) :: past) w' ∧
      w'.live = lose (k.base + 8) s.live ∧ w.heap.list.size k.base = k.len := by
  obtain ⟨h', -, hstep, -, -, -⟩ := free_step hw hk (Or.inl hreuse)
  exact ⟨_, .step hrun ⟨k, hw.live ▸ hk, rfl⟩ hstep, by rw [← hw.live], hw.heap.header k hk⟩

end Cs3650.Malloc.Hmalloc
