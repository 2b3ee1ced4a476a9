import Cs3650.Malloc.FreeListProof
import Cs3650.Malloc.HwxMalloc
import Cs3650.Malloc.Layout

/-!
# The coalescing allocator follows the first-fit policy

`Spec` is the allocator without memory: the free cells, the live chunks and
the kernel's pages, changed by the policy of `Lib.FirstFit`. `Rep` relates a
heap to it. Every call of the allocator does on the heap what `Spec` does on
the lists, and neither fails for another reason than that the kernel has no
memory to give.
-/

namespace Cs3650.Malloc.Hwx

open Cs3650.Lib Cs3650.Lib.FirstFit FreeList

structure Spec where
  free : List Region
  live : List Region
  pages : Pages

namespace Spec

def mapLarge (s : Spec) (size : Nat) : List Nat → Except Fault (Region × Spec)
  | [] => .error .noMemory
  | addr :: _ =>
    if s.pages.Free addr (roundUp size) then
      .ok (⟨addr, roundUp size⟩, ⟨s.free, ⟨addr, roundUp size⟩ :: s.live,
        s.pages.map addr (roundUp size)⟩)
    else .error .noMemory

def addPage (s : Spec) (addr : Nat) : Except Fault Spec :=
  if s.pages.Free addr pageSize then
    .ok ⟨release ⟨addr, pageSize⟩ s.free, s.live, s.pages.map addr pageSize⟩
  else .error .noMemory

def malloc (size : Nat) (answers : List Nat) (s : Spec) : Except Fault (Region × Spec) :=
  if pageSize ≤ size then s.mapLarge size answers
  else
    match carve sizeofFlCell size s.free with
    | some (k, free) => .ok (k, ⟨free, k :: s.live, s.pages⟩)
    | none =>
      match answers with
      | [] => .error .noMemory
      | addr :: rest => s.addPage addr >>= malloc size rest

/-- Give the chunk `k` back. -/
def free₁ (s : Spec) (k : Region) : Spec :=
  if pageSize ≤ k.len then
    ⟨s.free, lose (k.base + 8) s.live, s.pages.munmap k.base (roundUp k.len)⟩
  else ⟨release k s.free, lose (k.base + 8) s.live, s.pages⟩

end Spec

structure Rep (h : Heap) (s : Spec) : Prop where
  linked : Linked h.list s.free
  header : ∀ k ∈ s.live, h.list.size k.base = k.len
  pages : h.pages = s.pages
  layout : Layout s.pages s.free s.live
  used : ∀ p, s.pages.mapped p = true → s.pages.used p = true

/-- Both computations succeed with related results, or both lack memory. -/
def Agrees {α β : Type} (R : α → β → Prop) : Except Fault α → Except Fault β → Prop
  | .ok a, .ok b => R a b
  | .error e, .error e' => e = .noMemory ∧ e' = .noMemory
  | _, _ => False

theorem agrees_ok {α β : Type} {R : α → β → Prop} {x : Except Fault α} {b : β}
    (h : Agrees R x (.ok b)) : ∃ a, x = .ok a ∧ R a b := by
  cases x with
  | ok a => exact ⟨a, rfl, h⟩
  | error e => exact absurd h id

theorem agrees_bind {α β α' β' : Type} {R : α → β → Prop} {R' : α' → β' → Prop}
    {x : Except Fault α} {y : Except Fault β} {f : α → Except Fault α'} {g : β → Except Fault β'}
    (h : Agrees R x y) (hfg : ∀ a b, y = .ok b → R a b → Agrees R' (f a) (g b)) :
    Agrees R' (x >>= f) (y >>= g) := by
  cases x with
  | ok a =>
    cases y with
    | ok b => exact hfg a b rfl h
    | error e => exact absurd h id
  | error e =>
    cases y with
    | ok b => exact absurd h id
    | error e' => exact h

theorem agrees_imp {α β : Type} {R R' : α → β → Prop} {x : Except Fault α} {y : Except Fault β}
    (h : Agrees R x y) (himp : ∀ a b, y = .ok b → R a b → R' a b) : Agrees R' x y := by
  cases x with
  | ok a =>
    cases y with
    | ok b => exact himp a b rfl h
    | error e => exact h
  | error e =>
    cases y with
    | ok b => exact h
    | error e' => exact h

theorem lose_perm {live : List Region} {k : Region} (hapart : live.Pairwise Region.Apart)
    (hpos : ∀ r ∈ live, 0 < r.len) (hk : k ∈ live) : live.Perm (k :: lose (k.base + 8) live) := by
  induction live with
  | nil => cases hk
  | cons x live ih =>
    obtain ⟨hx, hrest⟩ := List.pairwise_cons.mp hapart
    have hposx := hpos x List.mem_cons_self
    have hposr : ∀ r ∈ live, 0 < r.len := fun r hr => hpos r (List.mem_cons_of_mem _ hr)
    have hbase : ∀ r ∈ live, x.base ≠ r.base := by
      intro r hr heq
      have h1 := hx r hr
      have h2 := hposr r hr
      unfold Region.Apart Region.stop at h1
      omega
    rcases List.mem_cons.mp hk with rfl | hk
    · have hsame : lose (k.base + 8) (k :: live) = live := by
        unfold lose
        rw [List.filter_cons_of_neg (by simp), List.filter_eq_self]
        intro r hr
        have h1 := hbase r hr
        simp only [ne_eq, decide_eq_true_eq]
        omega
      rw [hsame]
    · have hne := hbase k hk
      have hkeep : lose (k.base + 8) (x :: live) = x :: lose (k.base + 8) live := by
        unfold lose
        rw [List.filter_cons_of_pos]
        simp only [ne_eq, decide_eq_true_eq]
        omega
      rw [hkeep]
      exact ((ih hrest hposr hk).cons x).trans (List.Perm.swap k x _)

theorem divUp_spec (size : Nat) :
    size ≤ divUp size * pageSize ∧ divUp size * pageSize < size + pageSize := by
  unfold divUp pageSize
  dsimp only
  split <;> omega

theorem roundUp_pages (size : Nat) : pageCount (roundUp size) * pageSize = roundUp size := by
  unfold roundUp pageCount pageSize
  omega

theorem roundUp_lt (size : Nat) : roundUp size < 2 ^ 64 := Nat.mod_lt _ (Nat.two_pow_pos 64)

theorem clamp_ge (size : Nat) : sizeofFlCell ≤ clamp size := by
  unfold clamp
  split <;> omega

theorem clamp_clamp (size : Nat) : clamp (clamp size) = clamp size :=
  if_neg (Nat.not_lt.mpr (clamp_ge size))

/-! ## Frame -/

/-- The bytes of the chunks are as before. -/
def Kept (live : List Region) (m m' : Memory) : Prop :=
  ∀ k ∈ live, ∀ x : Int, k.Contains x → m' x = m x

theorem kept_of_off {live L : List Region} {m m' : Memory} (hu : UnchangedOff L m m')
    (hL : ∀ k ∈ live, ∀ t ∈ L, t.Apart k) : Kept live m m' :=
  fun k hk _ hx => hu.apply (hL k hk) hx

theorem Kept.trans {live : List Region} {m₁ m₂ m₃ : Memory} (h₁ : Kept live m₁ m₂)
    (h₂ : Kept live m₂ m₃) : Kept live m₁ m₃ :=
  fun k hk x hx => (h₂ k hk x hx).trans (h₁ k hk x hx)

theorem Rep.header_frame {h : Heap} {s : Spec} (hr : Rep h s) {m' : Memory} {L : List Region}
    (hu : UnchangedOff L h.list.mem m') {live : List Region} (hsub : ∀ k ∈ live, k ∈ s.live)
    (hL : ∀ k ∈ live, ∀ t ∈ L, t.Apart k) : ∀ k ∈ live, word m' k.base = k.len := by
  intro k hk
  have hlen := (hr.layout.chunk_ok (hsub k hk)).1
  unfold sizeofFlCell at hlen
  have hload : word m' k.base = word h.list.mem k.base :=
    hu.word (hL k hk) (Nat.le_refl _) (by unfold Region.stop; omega)
  exact hload.trans (hr.header k (hsub k hk))

theorem Rep.linked_frame {h : Heap} {s : Spec} (hr : Rep h s) {m' : Memory} {L : List Region}
    (hu : UnchangedOff L h.list.mem m') (hL : ∀ r ∈ s.free, ∀ t ∈ L, t.Apart r) :
    Linked { h.list with mem := m' } s.free :=
  hr.linked.frame hu (fun _ hmem => hr.layout.cell_ok hmem) hL

/-! ## The calls -/

theorem mmap_cases (m : Memory) (pg : Pages) (a len : Nat) :
    (pg.Free a len ∧ mmap m pg a len = .ok (fill m a (pageCount len * pageSize) 0, pg.map a len)) ∨
      (¬ pg.Free a len ∧ mmap m pg a len = .error .noMemory) := by
  unfold mmap
  by_cases h : pg.Free a len
  · exact Or.inl ⟨h, if_pos h⟩
  · exact Or.inr ⟨h, if_neg h⟩

theorem used_map {pg : Pages} (h : ∀ p, pg.mapped p = true → pg.used p = true) (a len : Nat) :
    ∀ p, (pg.map a len).mapped p = true → (pg.map a len).used p = true := by
  intro p hp
  unfold Pages.map at *
  simp only [Bool.or_eq_true] at *
  exact hp.imp id (h p)

/-- A freshly mapped range, marked with its length, is a chunk. -/
theorem Rep.map {h : Heap} {s : Spec} (hr : Rep h s) {a len : Nat} (hf : s.pages.Free a len)
    (hlen : pageCount len * pageSize = len) {m' : Memory}
    (hu : UnchangedOff [⟨a, len⟩] h.list.mem m') (hsize : word m' a = len) :
    Rep ⟨{ h.list with mem := m' }, s.pages.map a len⟩
      ⟨s.free, ⟨a, len⟩ :: s.live, s.pages.map a len⟩ := by
  have hlay := hr.layout.map hf hlen
  have happart : ∀ r ∈ s.live, Region.Apart ⟨a, len⟩ r := Region.apart_cons hlay.live_apart
  refine ⟨?_, ?_, rfl, hlay, used_map hr.used a len⟩
  · apply hr.linked_frame hu
    intro r hmem t ht
    rw [List.mem_singleton.mp ht]
    exact (hlay.apart r hmem _ List.mem_cons_self).symm
  · intro k hk
    rcases List.mem_cons.mp hk with rfl | hk
    · exact hsize
    · refine hr.header_frame hu (fun _ hmem => hmem) ?_ k hk
      intro r hmem t ht
      rw [List.mem_singleton.mp ht]
      exact happart r hmem

/-- The block and the heap after a request are those of the lists, and the
chunks that were live before are untouched. -/
def Given (h : Heap) (s : Spec) (r : Nat × Heap) (t : Region × Spec) : Prop :=
  r.1 = t.1.base + 8 ∧ Rep r.2 t.2 ∧ Kept s.live h.list.mem r.2.list.mem

theorem mapLarge_run {h : Heap} {s : Spec} (hr : Rep h s) (size : Nat) (answers : List Nat) :
    Agrees (Given h s) (mapLarge h size answers) (s.mapLarge size answers) := by
  cases answers with
  | nil => exact ⟨rfl, rfl⟩
  | cons addr rest =>
    rw [mapLarge, Spec.mapLarge, hr.pages]
    rcases mmap_cases h.list.mem s.pages addr (roundUp size) with ⟨hf, hrun⟩ | ⟨hf, hrun⟩
    · rw [hrun, if_pos hf, ok_bind]
      have hlen : 4096 ≤ roundUp size := by
        have h1 := roundUp_pages size
        have h2 := hf.1
        unfold pageCount pageSize at h1
        omega
      have hu : UnchangedOff [⟨addr, roundUp size⟩] h.list.mem
          (setWord (fill h.list.mem addr (pageCount (roundUp size) * pageSize) 0) addr
            (roundUp size)) := by
        rw [roundUp_pages]
        unfold fill
        exact (unchangedOff_patch _ _ (Nat.le_refl _) (Nat.le_refl _)).trans
          (unchangedOff_setWord _ _ (Nat.le_refl _) (by unfold Region.stop; dsimp only; omega))
      have hlay := hr.layout.map hf (roundUp_pages size)
      refine ⟨rfl, hr.map hf (roundUp_pages size) hu (word_setWord_of_lt _ (roundUp_lt size)),
        kept_of_off hu fun k hk t ht => ?_⟩
      rw [List.mem_singleton.mp ht]
      exact Region.apart_cons hlay.live_apart k hk
    · rw [hrun, if_neg hf, error_bind]
      exact ⟨rfl, rfl⟩

theorem mapLarge_sim {h : Heap} {s : Spec} (hr : Rep h s) (size : Nat) (answers : List Nat) :
    Agrees (fun r t => r.1 = t.1.base + 8 ∧ Rep r.2 t.2) (mapLarge h size answers)
      (s.mapLarge size answers) :=
  agrees_imp (mapLarge_run hr size answers) fun _ _ _ hrt => ⟨hrt.1, hrt.2.1⟩

theorem pageCount_pageSize : pageCount pageSize * pageSize = pageSize := by decide

theorem addPage_run {h : Heap} {s : Spec} (hr : Rep h s) (addr : Nat) :
    Agrees (fun h' s' => Rep h' s' ∧ Kept s.live h.list.mem h'.list.mem) (addPage h addr)
      (s.addPage addr) := by
  unfold addPage Spec.addPage
  rw [hr.pages]
  rcases mmap_cases h.list.mem s.pages addr pageSize with ⟨hf, hrun⟩ | ⟨hf, hrun⟩
  · rw [hrun, if_pos hf, ok_bind, pageCount_pageSize]
    dsimp only
    have hlay := hr.layout.map hf pageCount_pageSize
    have hu₀ : UnchangedOff [⟨addr, pageSize⟩] h.list.mem (fill h.list.mem addr pageSize 0) := by
      unfold fill
      exact unchangedOff_patch _ _ (Nat.le_refl _) (Nat.le_refl _)
    have hapart : ∀ r ∈ s.free, Region.Apart ⟨addr, pageSize⟩ r := fun r hmem =>
      (hlay.apart r hmem _ List.mem_cons_self).symm
    have hl₀ := hr.linked_frame hu₀ fun r hmem t ht => by
      rw [List.mem_singleton.mp ht]
      exact hapart r hmem
    have hok : ∀ r ∈ (⟨addr, pageSize⟩ : Region) :: s.free, CellOk r := by
      intro r hmem
      rcases List.mem_cons.mp hmem with rfl | hmem
      · exact hlay.chunk_ok List.mem_cons_self
      · exact hr.layout.cell_ok hmem
    obtain ⟨fl₁, fl₂, hrun₁, hrun₂, hl₂, hu₂⟩ := giveBack_spec hl₀ hr.layout.separated hok hapart
    dsimp only at hrun₁
    rw [hrun₁, ok_bind, hrun₂, ok_bind]
    have hu : UnchangedOff (⟨addr, pageSize⟩ :: s.free) h.list.mem fl₂.mem :=
      (unchangedOff_subset hu₀ (by simp)).trans hu₂
    have hoff : ∀ k ∈ s.live, ∀ t ∈ (⟨addr, pageSize⟩ : Region) :: s.free, t.Apart k := by
      intro k hk t ht
      rcases List.mem_cons.mp ht with rfl | ht
      · exact Region.apart_cons hlay.live_apart k hk
      · exact hr.layout.apart t ht k hk
    exact ⟨⟨hl₂, hr.header_frame hu (fun _ hmem => hmem) hoff, rfl, hlay.release,
      used_map hr.used addr pageSize⟩, kept_of_off hu hoff⟩
  · rw [hrun, if_neg hf, error_bind]
    exact ⟨rfl, rfl⟩

theorem addPage_sim {h : Heap} {s : Spec} (hr : Rep h s) (addr : Nat) :
    Agrees Rep (addPage h addr) (s.addPage addr) :=
  agrees_imp (addPage_run hr addr) fun _ _ _ hrt => hrt.1

theorem takeCell_run {h : Heap} {s : Spec} (hr : Rep h s) {size : Nat} (hsize : sizeofFlCell ≤ size)
    {k : Region} {free : List Region} (hc : carve sizeofFlCell size s.free = some (k, free)) :
    ∃ h', takeCell h k.base size = .ok (k.base + 8, h') ∧ Rep h' ⟨free, k :: s.live, s.pages⟩ ∧
      Kept s.live h.list.mem h'.list.mem := by
  have hlay := hr.layout.carve hsize hc
  have hasc := hr.layout.separated.ascending
  have hok : ∀ r ∈ s.free, CellOk r := fun r hmem => hr.layout.cell_ok hmem
  have happart := hr.layout.apart
  have hlinked := hr.linked
  have hoff : ∀ j ∈ s.live, ∀ t ∈ s.free, t.Apart j := fun j hj t ht => happart t ht j hj
  have hheader : ∀ {m' : Memory}, UnchangedOff s.free h.list.mem m' →
      ∀ j ∈ s.live, word m' j.base = j.len := fun hu =>
    hr.header_frame hu (fun _ hmem => hmem) hoff
  obtain ⟨as, r, bs, hfree, -, hfit, hcase⟩ := carve_cases hc
  rw [hfree] at hasc hok hlinked hheader hoff
  have hcell := (linked_append.mp hlinked).2.1
  have hrsize : h.list.size r.base = r.len := hcell.size
  have hrlt : r.len < 2 ^ 64 := by
    have h1 := (hok r (by simp)).2.2
    unfold Region.stop at h1
    omega
  have hdiff : subWord (h.list.size r.base) size = r.len - size := by
    rw [hrsize]
    unfold subWord
    omega
  rcases hcase with ⟨hleft, rfl, rfl⟩ | ⟨hleft, rfl, rfl⟩
  · obtain ⟨fl', hrun, hl', hhead, hu⟩ := takeSplit_spec hlinked hasc hok hsize hleft
    refine ⟨⟨fl'.unlink r.base, h.pages⟩, ?_, ?_, kept_of_off hu hoff⟩
    · unfold takeCell
      rw [hdiff, if_pos hleft, hrun, ok_bind]
    · refine ⟨?_, ?_, hr.pages, hlay, hr.used⟩
      · exact hl'
      · intro j hj
        rcases List.mem_cons.mp hj with rfl | hj
        · exact hhead
        · exact hheader hu j hj
  · obtain ⟨hl', hhead, hu⟩ := takeWhole_spec hlinked hasc hok
    refine ⟨⟨h.list.unlink k.base, h.pages⟩, ?_, ?_, kept_of_off hu hoff⟩
    · unfold takeCell
      rw [hdiff, if_neg (Nat.not_lt.mpr hleft), ok_bind]
    · refine ⟨?_, ?_, hr.pages, hlay, hr.used⟩
      · exact hl'
      · intro j hj
        rcases List.mem_cons.mp hj with rfl | hj
        · exact hhead
        · exact hheader hu j hj

theorem takeCell_sim {h : Heap} {s : Spec} (hr : Rep h s) {size : Nat} (hsize : sizeofFlCell ≤ size)
    {k : Region} {free : List Region} (hc : carve sizeofFlCell size s.free = some (k, free)) :
    ∃ h', takeCell h k.base size = .ok (k.base + 8, h') ∧
      Rep h' ⟨free, k :: s.live, s.pages⟩ := by
  obtain ⟨h', hrun, hrep, -⟩ := takeCell_run hr hsize hc
  exact ⟨h', hrun, hrep⟩

theorem search_sim {h : Heap} {s : Spec} (hr : Rep h s) (size : Nat) :
    h.list.searchSize size walkFuel h.list.head =
      .ok (((s.free.find? fun r => size ≤ r.len).map Region.base).getD 0) := by
  have hok : ∀ r ∈ s.free, CellOk r := fun r hmem => hr.layout.cell_ok hmem
  rw [hr.linked.1]
  exact searchSize_spec hr.linked.2 hok (length_ascending hr.layout.separated.ascending hok)

/-- The search found a cell: it is taken, and `onMiss` is not run. -/
theorem hit_sim {h : Heap} {s : Spec} (hr : Rep h s) {size : Nat} (hsize : sizeofFlCell ≤ size)
    {k : Region} {free : List Region} (hc : carve sizeofFlCell size s.free = some (k, free))
    (onMiss : Except Fault (Nat × Heap)) :
    Agrees (Given h s)
      (if ((s.free.find? fun r => size ≤ r.len).map Region.base).getD 0 = 0 then onMiss
        else takeCell h (((s.free.find? fun r => size ≤ r.len).map Region.base).getD 0) size)
      (.ok (k, ⟨free, k :: s.live, s.pages⟩)) := by
  obtain ⟨r, hfind, hbase, -⟩ := find_of_carve hc
  obtain ⟨h', hrun, hgiven⟩ := takeCell_run hr hsize hc
  have hpos : k.base ≠ 0 := by
    have hlay := hr.layout.carve hsize hc
    exact Nat.ne_of_gt (hlay.chunk_ok List.mem_cons_self).2.1
  rw [hfind]
  simp only [Option.map_some, Option.getD_some, hbase, if_neg hpos, hrun]
  exact ⟨rfl, hgiven⟩

theorem addPage_live {s s' : Spec} {addr : Nat} (h : s.addPage addr = .ok s') :
    s'.live = s.live := by
  unfold Spec.addPage at h
  split at h
  · cases h
    rfl
  · cases h

theorem xmallocHelper_run {h : Heap} {s : Spec} (hr : Rep h s) (answers : List Nat) (size₀ : Nat) :
    Agrees (Given h s) (xmallocHelper answers size₀ h) (Spec.malloc (clamp size₀) answers s) := by
  -- every `mmap` uses up one answer
  induction answers generalizing h s size₀ with
  | nil =>
    rw [xmallocHelper, Spec.malloc]
    by_cases hbig : pageSize ≤ clamp size₀
    · rw [if_pos hbig, if_pos hbig]
      exact mapLarge_run hr _ _
    · rw [if_neg hbig, if_neg hbig, search_sim hr, ok_bind]
      cases hc : carve sizeofFlCell (clamp size₀) s.free with
      | none =>
        rw [find_of_carve_none hc]
        exact ⟨rfl, rfl⟩
      | some kf => exact hit_sim hr (clamp_ge size₀) hc _
  | cons addr rest ih =>
    rw [xmallocHelper, Spec.malloc]
    by_cases hbig : pageSize ≤ clamp size₀
    · rw [if_pos hbig, if_pos hbig]
      exact mapLarge_run hr _ _
    · rw [if_neg hbig, if_neg hbig, search_sim hr, ok_bind]
      cases hc : carve sizeofFlCell (clamp size₀) s.free with
      | some kf => exact hit_sim hr (clamp_ge size₀) hc _
      | none =>
        rw [find_of_carve_none hc]
        simp only [Option.map_none, Option.getD_none, if_true]
        apply agrees_bind (addPage_run hr addr)
        rintro h' s' hs' ⟨hr', hkept⟩
        have hrec := ih hr' (clamp size₀)
        rw [clamp_clamp] at hrec
        have hlive := addPage_live hs'
        refine agrees_imp hrec fun r t _ hrt => ⟨hrt.1, hrt.2.1, hkept.trans ?_⟩
        rw [← hlive]
        exact hrt.2.2

theorem xmallocHelper_sim {h : Heap} {s : Spec} (hr : Rep h s) (answers : List Nat) (size₀ : Nat) :
    Agrees (fun r t => r.1 = t.1.base + 8 ∧ Rep r.2 t.2) (xmallocHelper answers size₀ h)
      (Spec.malloc (clamp size₀) answers s) :=
  agrees_imp (xmallocHelper_run hr answers size₀) fun _ _ _ hrt => ⟨hrt.1, hrt.2.1⟩

theorem xmalloc_lists {h h' : Heap} {s : Spec} (hr : Rep h s) {answers : List Nat} {n q : Nat}
    (hrun : xmalloc answers n h = .ok (q, h')) :
    ∃ k s', Spec.malloc (clamp (withHeader n)) answers s = .ok (k, s') ∧ q = k.base + 8 ∧
      Rep h' s' := by
  have hsim := xmallocHelper_sim hr answers (withHeader n)
  unfold xmalloc at hrun
  rw [hrun] at hsim
  cases hspec : Spec.malloc (clamp (withHeader n)) answers s with
  | error e =>
    rw [hspec] at hsim
    exact absurd hsim id
  | ok t =>
    rw [hspec] at hsim
    exact ⟨t.1, t.2, rfl, hsim⟩

/-- The free list that serves a small request: the present one, or, when no
cell fits, the one with a fresh page. -/
inductive Serves (s : Spec) (size : Nat) (answers : List Nat) : List Region → Pages → Prop
  | hit : Serves s size answers s.free s.pages
  | miss {addr : Nat} {rest : List Nat} (hc : carve sizeofFlCell size s.free = none)
      (ha : answers = addr :: rest) (hf : s.pages.Free addr pageSize) :
      Serves s size answers (release ⟨addr, pageSize⟩ s.free) (s.pages.map addr pageSize)

/-- What a successful request does; a second fresh page is never needed. -/
theorem malloc_cases {size : Nat} {answers : List Nat} {s s' : Spec} {k : Region}
    (h : Spec.malloc size answers s = .ok (k, s')) :
    (pageSize ≤ size ∧ ∃ addr, s.pages.Free addr (roundUp size) ∧ k = ⟨addr, roundUp size⟩ ∧
      s' = ⟨s.free, k :: s.live, s.pages.map addr (roundUp size)⟩) ∨
    (size < pageSize ∧ ∃ free pages, Serves s size answers free pages ∧
      carve sizeofFlCell size free = some (k, s'.free) ∧ s' = ⟨s'.free, k :: s.live, pages⟩) := by
  rw [Spec.malloc.eq_def] at h
  by_cases hbig : pageSize ≤ size
  · rw [if_pos hbig] at h
    cases answers with
    | nil => cases h
    | cons addr rest =>
      rw [Spec.mapLarge] at h
      split at h
      · cases h
        exact Or.inl ⟨hbig, addr, ‹_›, rfl, rfl⟩
      · cases h
  · rw [if_neg hbig] at h
    refine Or.inr ⟨Nat.lt_of_not_le hbig, ?_⟩
    cases hc : carve sizeofFlCell size s.free with
    | some kf =>
      rw [hc] at h
      cases h
      exact ⟨s.free, s.pages, .hit, hc, rfl⟩
    | none =>
      rw [hc] at h
      cases answers with
      | nil => cases h
      | cons addr rest =>
        dsimp only at h
        unfold Spec.addPage at h
        split at h
        · rename_i hf
          rw [ok_bind, Spec.malloc.eq_def, if_neg hbig] at h
          dsimp only at h
          cases hc' : carve sizeofFlCell size (release ⟨addr, pageSize⟩ s.free) with
          | some kf =>
            rw [hc'] at h
            cases h
            exact ⟨_, _, .miss hc rfl hf, hc', rfl⟩
          | none =>
            obtain ⟨r, hr, hlen⟩ := exists_long_release ⟨addr, pageSize⟩ s.free
            have hshort := carve_none hc' r hr
            dsimp only at hlen
            omega
        · cases h

/-- The new chunk joins the live ones; the kernel is asked for memory only. -/
theorem malloc_live {size : Nat} {answers : List Nat} {s s' : Spec} {k : Region}
    (h : Spec.malloc size answers s = .ok (k, s')) :
    s'.live = k :: s.live ∧ s'.pages.reuse = s.pages.reuse ∧
      s'.pages.unmaps = s.pages.unmaps := by
  rcases malloc_cases h with ⟨-, addr, hf, rfl, hs⟩ | ⟨-, free, pages, hserves, hc, hs⟩
  · rw [hs]
    exact ⟨rfl, rfl, rfl⟩
  · rw [hs]
    cases hserves with
    | hit => exact ⟨rfl, rfl, rfl⟩
    | miss => exact ⟨rfl, rfl, rfl⟩

theorem malloc_len {size : Nat} (hlt : size < 2 ^ 64) {answers : List Nat} {s s' : Spec}
    {k : Region} (h : Spec.malloc size answers s = .ok (k, s')) : size ≤ k.len := by
  rcases malloc_cases h with ⟨-, addr, hf, rfl, hs⟩ | ⟨-, free, pages, hserves, hc, hs⟩
  · have hpos := hf.1
    obtain ⟨h1, h2⟩ := divUp_spec size
    unfold roundUp pageSize at *
    dsimp only
    omega
  · exact carve_len hc

theorem malloc_served {size : Nat} {addr : Nat} {rest : List Nat} {s : Spec}
    (hf : s.pages.Free addr (if pageSize ≤ size then roundUp size else pageSize)) :
    ∃ r, Spec.malloc size (addr :: rest) s = .ok r := by
  rw [Spec.malloc.eq_def]
  by_cases hbig : pageSize ≤ size
  · rw [if_pos hbig] at hf ⊢
    rw [Spec.mapLarge, if_pos hf]
    exact ⟨_, rfl⟩
  · rw [if_neg hbig] at hf ⊢
    cases hc : carve sizeofFlCell size s.free with
    | some kf => exact ⟨_, rfl⟩
    | none =>
      dsimp only
      unfold Spec.addPage
      rw [if_pos hf, ok_bind, Spec.malloc.eq_def, if_neg hbig]
      dsimp only
      cases hc' : carve sizeofFlCell size (release ⟨addr, pageSize⟩ s.free) with
      | some kf => exact ⟨_, rfl⟩
      | none =>
        obtain ⟨r, hr, hlen⟩ := exists_long_release ⟨addr, pageSize⟩ s.free
        have hshort := carve_none hc' r hr
        dsimp only at hlen
        omega

/-! ## Giving back and moving -/

/-- A chunk that `xfree_helper` unmaps consists of whole pages. -/
def WholePages (k : Region) : Prop :=
  pageSize ≤ k.len → k.base % pageSize = 0 ∧ k.len % pageSize = 0

theorem roundUp_of_whole {len : Nat} (h : len % pageSize = 0) (hlt : len < 2 ^ 64) :
    roundUp len = len := by
  unfold roundUp divUp pageSize at *
  dsimp only
  rw [if_pos (by omega)]
  omega

theorem xfreeHelper_run {h : Heap} {s : Spec} (hr : Rep h s) {k : Region} (hk : k ∈ s.live)
    (hwhole : s.pages.reuse = false ∨ WholePages k) :
    ∃ h', xfreeHelper h (k.base + 8) = .ok h' ∧ Rep h' (s.free₁ k) ∧
      Kept (lose (k.base + 8) s.live) h.list.mem h'.list.mem := by
  have hperm := lose_perm hr.layout.live_apart (fun r hmem => (hr.layout.chunk_ok hmem).pos) hk
  have hlay := hr.layout.perm hperm
  have hkok := hr.layout.chunk_ok hk
  have hsub : ∀ j ∈ lose (k.base + 8) s.live, j ∈ s.live := fun j hj =>
    (List.mem_filter.mp hj).1
  unfold xfreeHelper Spec.free₁
  dsimp only
  rw [Nat.add_sub_cancel, hr.header k hk, hr.pages]
  by_cases hbig : pageSize ≤ k.len
  · rw [if_pos hbig, if_pos hbig]
    refine ⟨_, rfl, ⟨hr.linked, fun j hj => hr.header j (hsub j hj), rfl, ?_, ?_⟩,
      fun _ _ _ _ => rfl⟩
    · apply hlay.munmap hr.used
      rcases hwhole with hreuse | hwhole
      · exact Or.inl hreuse
      · obtain ⟨h1, h2⟩ := hwhole hbig
        have hlt : k.len < 2 ^ 64 := by
          have hstop := hkok.2.2
          unfold Region.stop at hstop
          omega
        refine Or.inr ⟨h1, ?_, roundUp_pages _⟩
        rw [roundUp_of_whole h2 hlt]
    · intro p hp
      unfold Pages.munmap at hp
      dsimp only at hp
      split at hp
      · exact hr.used p (Bool.and_eq_true _ _ ▸ hp).2
      · exact hr.used p hp
  · rw [if_neg hbig, if_neg hbig]
    have hapart : ∀ r ∈ s.free, k.Apart r := fun r hmem => (hr.layout.apart r hmem k hk).symm
    have hok : ∀ r ∈ k :: s.free, CellOk r := by
      intro r hmem
      rcases List.mem_cons.mp hmem with rfl | hmem
      · exact hkok
      · exact hr.layout.cell_ok hmem
    obtain ⟨fl₁, fl₂, hrun₁, hrun₂, hl₂, hu⟩ :=
      giveBack_spec hr.linked hr.layout.separated hok hapart
    rw [hrun₁, ok_bind, hrun₂, ok_bind]
    have hoff : ∀ j ∈ lose (k.base + 8) s.live, ∀ t ∈ k :: s.free, t.Apart j := by
      intro j hj t ht
      rcases List.mem_cons.mp ht with rfl | ht
      · exact Region.apart_cons hlay.live_apart j hj
      · exact hr.layout.apart t ht j (hsub j hj)
    exact ⟨_, rfl, ⟨hl₂, hr.header_frame hu hsub hoff, rfl, hlay.release, hr.used⟩,
      kept_of_off hu hoff⟩

theorem xfreeHelper_sim {h : Heap} {s : Spec} (hr : Rep h s) {k : Region} (hk : k ∈ s.live)
    (hwhole : s.pages.reuse = false ∨ WholePages k) :
    ∃ h', xfreeHelper h (k.base + 8) = .ok h' ∧ Rep h' (s.free₁ k) := by
  obtain ⟨h', hrun, hrep, -⟩ := xfreeHelper_run hr hk hwhole
  exact ⟨h', hrun, hrep⟩

theorem Rep.payload {h : Heap} {s : Spec} (hr : Rep h s) {k : Region} (hk : k ∈ s.live)
    {m' : Memory} (hu : UnchangedOff [⟨k.base + 8, k.len - 8⟩] h.list.mem m') :
    Rep { h with list := { h.list with mem := m' } } s := by
  have hklen := (hr.layout.chunk_ok hk).1
  unfold sizeofFlCell at hklen
  have hin : UnchangedOff [k] h.list.mem m' := hu.mono fun r hmem => by
    rw [List.mem_singleton.mp hmem]
    refine ⟨k, List.mem_singleton_self k, ?_⟩
    unfold Region.Within Region.stop
    dsimp only
    omega
  have hperm := lose_perm hr.layout.live_apart (fun r hmem => (hr.layout.chunk_ok hmem).pos) hk
  have hlay := hr.layout.perm hperm
  refine ⟨?_, ?_, hr.pages, hr.layout, hr.used⟩
  · apply hr.linked_frame hin
    intro r hmem t ht
    rw [List.mem_singleton.mp ht]
    exact (hr.layout.apart r hmem k hk).symm
  · intro j hj
    rcases List.mem_cons.mp (hperm.subset hj) with rfl | hj'
    · have hword : word m' j.base = word h.list.mem j.base := by
        apply hu.word (s := ⟨j.base, 8⟩) _ (Nat.le_refl _) (Nat.le_refl _)
        intro r hmem
        rw [List.mem_singleton.mp hmem]
        exact Or.inr (Nat.le_refl _)
      exact hword.trans (hr.header j hj)
    · apply hr.header_frame hin (fun _ hmem => (List.mem_filter.mp hmem).1) _ j hj'
      intro i hi t ht
      rw [List.mem_singleton.mp ht]
      exact Region.apart_cons hlay.live_apart i hi

/-! ## Events -/

def Spec.step (s : Spec) : Event → Except Fault Spec
  | .malloc n answers => do
    let r ← Spec.malloc (clamp (withHeader n)) answers s
    .ok r.2
  | .free p =>
    match s.live.find? fun k => k.base + 8 = p with
    | some k => .ok (s.free₁ k)
    | none => .error .abort
  | .realloc p n answers =>
    if p = 0 ∧ n ≠ 0 then do
      let r ← Spec.malloc (clamp (withHeader n)) answers s
      .ok r.2
    else if p = 0 then .ok s
    else
      match s.live.find? fun k => k.base + 8 = p with
      | none => .error .abort
      | some k =>
        if n = 0 then .ok (s.free₁ k)
        else do
          let r ← Spec.malloc (clamp (withHeader n)) answers s
          .ok (r.2.free₁ k)
  | .write _ _ _ => .ok s

/-- What an event can do to the lists. -/
inductive Spec.Steps (s : Spec) : Event → Spec → Prop
  | malloc {n : Nat} {answers : List Nat} {r : Region × Spec}
      (hm : Spec.malloc (clamp (withHeader n)) answers s = .ok r) : Steps s (.malloc n answers) r.2
  | free {k : Region} (hk : k ∈ s.live) : Steps s (.free (k.base + 8)) (s.free₁ k)
  | fresh {n : Nat} {answers : List Nat} {r : Region × Spec} (hn : n ≠ 0)
      (hm : Spec.malloc (clamp (withHeader n)) answers s = .ok r) :
      Steps s (.realloc 0 n answers) r.2
  | nothing {answers : List Nat} : Steps s (.realloc 0 0 answers) s
  | drop {k : Region} {answers : List Nat} (hk : k ∈ s.live) :
      Steps s (.realloc (k.base + 8) 0 answers) (s.free₁ k)
  | move {k : Region} {n : Nat} {answers : List Nat} {r : Region × Spec} (hk : k ∈ s.live)
      (hn : n ≠ 0) (hm : Spec.malloc (clamp (withHeader n)) answers s = .ok r) :
      Steps s (.realloc (k.base + 8) n answers) (r.2.free₁ k)
  | write {p off : Nat} {b : Byte} : Steps s (.write p off b) s

theorem live_of_find {s : Spec} {p : Nat} {k : Region}
    (h : (s.live.find? fun k => k.base + 8 = p) = some k) : k ∈ s.live ∧ p = k.base + 8 := by
  have hbase := List.find?_some h
  exact ⟨List.mem_of_find?_eq_some h, (of_decide_eq_true hbase).symm⟩

theorem spec_steps {s s' : Spec} {e : Event} (h : s.step e = .ok s') : s.Steps e s' := by
  cases e with
  | malloc n answers =>
    obtain ⟨r, hm, heq⟩ := bind_eq_ok.mp h
    cases heq
    exact .malloc hm
  | free p =>
    rw [Spec.step] at h
    split at h
    · rename_i k hfind
      obtain ⟨hk, rfl⟩ := live_of_find hfind
      cases h
      exact .free hk
    · cases h
  | realloc p n answers =>
    rw [Spec.step] at h
    split at h
    · rename_i hnew
      obtain ⟨rfl, hn⟩ := hnew
      obtain ⟨r, hm, heq⟩ := bind_eq_ok.mp h
      cases heq
      exact .fresh hn hm
    · rename_i hold
      split at h
      · rename_i hp0
        have hn0 : n = 0 := by
          by_contra hne
          exact hold ⟨hp0, hne⟩
        subst hp0 hn0
        cases h
        exact .nothing
      · split at h
        · cases h
        · rename_i k hfind
          obtain ⟨hk, rfl⟩ := live_of_find hfind
          split at h
          · rename_i hn0
            subst hn0
            cases h
            exact .drop hk
          · rename_i hn0
            obtain ⟨r, hm, heq⟩ := bind_eq_ok.mp h
            cases heq
            exact .move hk hn0 hm
  | write p off b =>
    cases h
    exact .write

structure RepWorld (w : World) (s : Spec) : Prop where
  live : w.live = s.live
  heap : Rep w.heap s

theorem chunkAt_header {h : Heap} {s : Spec} (hr : Rep h s) {k : Region} (hk : k ∈ s.live) :
    chunkAt h (k.base + 8) = k := by
  unfold chunkAt
  rw [Nat.add_sub_cancel, hr.header k hk]

theorem gain_chunk {h : Heap} {s : Spec} (hr : Rep h s) {k : Region} (hk : k ∈ s.live)
    (live : List Region) : gain h (k.base + 8) live = k :: live := by
  unfold gain
  rw [if_neg (by omega), chunkAt_header hr hk]

theorem find_live {s : Spec} (hlay : Layout s.pages s.free s.live) {k : Region} (hk : k ∈ s.live) :
    (s.live.find? fun j => j.base + 8 = k.base + 8) = some k := by
  have hperm := lose_perm hlay.live_apart (fun r hr => (hlay.chunk_ok hr).pos) hk
  cases hfind : s.live.find? fun j => j.base + 8 = k.base + 8 with
  | none =>
    have hnone := List.find?_eq_none.mp hfind k hk
    simp at hnone
  | some j =>
    have hj := List.mem_of_find?_eq_some hfind
    have hbase := List.find?_some hfind
    rcases List.mem_cons.mp (hperm.subset hj) with rfl | hj
    · rfl
    · have hne := (List.mem_filter.mp hj).2
      simp only [ne_eq, decide_eq_true_eq] at hne hbase
      exact absurd hbase hne

theorem withHeader_of_lt {n : Nat} (h : n + 8 < 2 ^ 64) : withHeader n = n + 8 := Nat.mod_eq_of_lt h

theorem clamp_lt {size : Nat} (h : size < 2 ^ 64) : clamp size < 2 ^ 64 := by
  unfold clamp sizeofFlCell
  split <;> omega

theorem le_clamp (size : Nat) : size ≤ clamp size := by
  unfold clamp
  split <;> omega

/-- The chunk that was moved from is still live when the new one has been made. -/
theorem lose_cons {pg : Pages} {free live : List Region} {k k' : Region}
    (hlay : Layout pg free (k' :: live)) (hk : k ∈ live) :
    lose (k.base + 8) (k' :: live) = k' :: lose (k.base + 8) live := by
  have hapart := Region.apart_cons hlay.live_apart k hk
  have h1 := (hlay.chunk_ok (k := k') List.mem_cons_self).pos
  have h2 := (hlay.chunk_ok (List.mem_cons_of_mem k' hk)).pos
  unfold lose
  rw [List.filter_cons_of_pos]
  unfold Region.Apart Region.stop at hapart
  simp only [ne_eq, decide_eq_true_eq]
  omega

theorem copyBlock_sim {h : Heap} {s : Spec} (hr : Rep h s) {k : Region} (hk : k ∈ s.live)
    {item size newSize : Nat} (hroom : newSize + 8 ≤ k.len) :
    Rep (copyBlock h (k.base + 8) item size newSize) s := by
  apply hr.payload hk
  unfold copy
  apply unchangedOff_patch _ _ (Nat.le_refl _)
  unfold Region.stop
  dsimp only
  split <;> omega

theorem realloc_sim {w : World} {s : Spec} (hw : RepWorld w s) {k : Region} (hk : k ∈ s.live)
    (hwhole : s.pages.reuse = false ∨ WholePages k) {n : Nat} (hn : n + 8 < 2 ^ 64) (hn0 : n ≠ 0)
    (answers : List Nat) :
    Agrees RepWorld (step w (.realloc (k.base + 8) n answers)) (do
      let r ← Spec.malloc (clamp (withHeader n)) answers s
      .ok (r.2.free₁ k)) := by
  have hstep : step w (.realloc (k.base + 8) n answers) = (do
      let r ← xmallocHelper answers (withHeader n) w.heap
      let h₂ ← xfreeHelper (copyBlock r.2 r.1 (k.base + 8) (w.heap.list.size k.base) n) (k.base + 8)
      .ok ⟨h₂, gain h₂ r.1 (lose (k.base + 8) w.live)⟩) := by
    unfold step xrealloc xreallocHelper
    simp only [Nat.add_eq_zero_iff, OfNat.ofNat_ne_zero, and_false, false_and, if_false, hn0,
      Nat.add_sub_cancel]
    cases xmallocHelper answers (withHeader n) w.heap with
    | error e => rfl
    | ok r =>
      simp only [ok_bind]
      cases xfreeHelper (copyBlock r.2 r.1 (k.base + 8) (w.heap.list.size k.base) n)
        (k.base + 8) with
      | error e => rfl
      | ok h₂ => rfl
  rw [hstep]
  apply agrees_bind (xmallocHelper_sim hw.heap answers (withHeader n))
  intro r t ht hrt
  obtain ⟨hptr, hrep⟩ := hrt
  have hlt : clamp (withHeader n) < 2 ^ 64 := by
    rw [withHeader_of_lt hn]
    exact clamp_lt hn
  have hlen := malloc_len hlt ht
  obtain ⟨hlive, hreuse, -⟩ := malloc_live ht
  have hroom : n + 8 ≤ t.1.len := by
    have h1 := le_clamp (withHeader n)
    rw [withHeader_of_lt hn] at h1 hlen
    omega
  have hnew : t.1 ∈ t.2.live := hlive ▸ List.mem_cons_self
  have hold : k ∈ t.2.live := hlive ▸ List.mem_cons_of_mem _ hk
  have hcopy := @copyBlock_sim _ _ hrep _ hnew (k.base + 8) (w.heap.list.size k.base) _ hroom
  rw [hptr]
  obtain ⟨h₂, hrun, hrep₂⟩ := xfreeHelper_sim hcopy hold (hreuse ▸ hwhole)
  rw [hrun, ok_bind]
  have hlay := hrep.layout
  rw [hlive] at hlay
  have hlose : (t.2.free₁ k).live = t.1 :: lose (k.base + 8) s.live := by
    have h1 : (t.2.free₁ k).live = lose (k.base + 8) t.2.live := by
      unfold Spec.free₁
      split <;> rfl
    rw [h1, hlive]
    exact lose_cons hlay hk
  refine ⟨?_, hrep₂⟩
  rw [gain_chunk hrep₂ (hlose ▸ List.mem_cons_self), hlose, hw.live]

theorem step_sim {w : World} {s : Spec} (hw : RepWorld w s) {e : Event} (ha : Allowed w e)
    (hwhole : s.pages.reuse = false ∨ ∀ k ∈ s.live, WholePages k) :
    Agrees RepWorld (step w e) (s.step e) := by
  have hone : ∀ k ∈ s.live, s.pages.reuse = false ∨ WholePages k := fun k hk =>
    hwhole.imp id fun h => h k hk
  have hptr : ∀ p, LivePtr w p → ∃ k ∈ s.live, p = k.base + 8 := by
    rintro p ⟨k, hk, rfl⟩
    exact ⟨k, hw.live ▸ hk, rfl⟩
  have hmalloc : ∀ n answers, Agrees RepWorld (do
      let r ← xmallocHelper answers (withHeader n) w.heap
      .ok (⟨r.2, gain r.2 r.1 w.live⟩ : World)) (do
      let r ← Spec.malloc (clamp (withHeader n)) answers s
      .ok r.2) := by
    intro n answers
    apply agrees_bind (xmallocHelper_sim hw.heap answers (withHeader n))
    intro r t ht hrt
    obtain ⟨hptr, hrep⟩ := hrt
    obtain ⟨hlive, -, -⟩ := malloc_live ht
    refine ⟨?_, hrep⟩
    rw [hptr, gain_chunk hrep (hlive ▸ List.mem_cons_self), hlive, hw.live]
  have hfree : ∀ k ∈ s.live, ∃ h', xfreeHelper w.heap (k.base + 8) = .ok h' ∧
      RepWorld ⟨h', lose (k.base + 8) w.live⟩ (s.free₁ k) := by
    intro k hk
    obtain ⟨h', hrun, hrep⟩ := xfreeHelper_sim hw.heap hk (hone k hk)
    refine ⟨h', hrun, ?_, hrep⟩
    unfold Spec.free₁
    rw [hw.live]
    split <;> rfl
  cases e with
  | malloc n answers => exact hmalloc n answers
  | free p =>
    obtain ⟨k, hk, rfl⟩ := hptr p ha
    obtain ⟨h', hrun, hrep⟩ := hfree k hk
    unfold step Spec.step
    dsimp only
    rw [find_live hw.heap.layout hk]
    unfold xfree
    rw [if_neg (by omega), hrun, ok_bind]
    exact hrep
  | realloc p n answers =>
    obtain ⟨hn, hp⟩ := ha
    by_cases hp0 : p = 0
    · subst hp0
      have hlose : lose 0 w.live = w.live := by
        unfold lose
        rw [List.filter_eq_self]
        simp
      by_cases hn0 : n = 0
      · subst hn0
        have hgain : gain w.heap 0 w.live = w.live := rfl
        refine ⟨?_, hw.heap⟩
        dsimp only
        rw [hlose, hgain, hw.live]
      · have h := hmalloc n answers
        unfold step Spec.step xrealloc xreallocHelper
        simp only [hlose, hn0, ne_eq, not_false_eq_true, and_self, if_true]
        exact h
    · obtain ⟨k, hk, rfl⟩ := hptr p (hp.resolve_left hp0)
      have hfind := find_live hw.heap.layout hk
      by_cases hn0 : n = 0
      · subst hn0
        obtain ⟨h', hrun, hrep⟩ := hfree k hk
        unfold step Spec.step xrealloc xreallocHelper
        simp only [hp0, hfind, ne_eq, not_true_eq_false, and_false, if_false, if_true, hrun,
          ok_bind]
        exact hrep
      · have h := realloc_sim hw hk (hone k hk) hn hn0 answers
        rw [show s.step (.realloc (k.base + 8) n answers) = (do
            let r ← Spec.malloc (clamp (withHeader n)) answers s
            .ok (r.2.free₁ k)) by
          unfold Spec.step
          simp only [hp0, false_and, if_false, hfind, hn0]]
        exact h
  | write p off b =>
    obtain ⟨k, hk, rfl, hoff⟩ := ha
    refine ⟨hw.live, hw.heap.payload (hw.live ▸ hk) ?_⟩
    apply unchangedOff_patch _ _ (by dsimp only; omega)
    unfold Region.stop
    dsimp only
    omega

end Cs3650.Malloc.Hwx
