import Cs3650.Malloc.HmallocProof
import Mathlib.Order.Interval.Finset.Nat

/-!
# What the counters of the homework allocator say

`pages_mapped - pages_unmapped` should be the number of pages under the cells
and chunks, and the number of pages that are mapped. Both fail in `hfree`,
which takes every chunk of a page or more for a mapping of its own and passes
the address of the block, not of the header, to `munmap`. Neither difference
ever gets smaller again, so a run keeps the law exactly when all of its steps
do.
-/

namespace Cs3650.Malloc.Hmalloc

open Cs3650.Lib Cs3650.Lib.FirstFit
open Hwx (divUp roundUp clamp withHeader lose Spec)

/-! ## The bytes of cells and chunks -/

def Balanced (w : World) : Prop :=
  ∃ cells, freeCells w.heap = some cells ∧
    pageSize * (w.heap.stats.pagesMapped - w.heap.stats.pagesUnmapped) =
      (bytes cells + bytes w.live : Nat)

/-- A block that goes through `munmap` records whole pages. When the kernel may
hand out pages again, the call must also miss, as it does for a large block. -/
def FreesWhole (w : World) : Event → Prop
  | .free p =>
    w.heap.list.size (p - 8) < pageSize ∨
      (w.heap.list.size (p - 8) % pageSize = 0 ∧
        (w.heap.pages.reuse = true → p % pageSize ≠ 0))
  | _ => True

/-- The bytes of cells and chunks that the counters do not know of. -/
def debt (w : World) (s : Spec) : Int :=
  owned s - pageSize * (w.heap.stats.pagesMapped - w.heap.stats.pagesUnmapped)

theorem balanced_iff {w : World} {s : Spec} (hw : RepWorld w s) : Balanced w ↔ debt w s = 0 := by
  have hcells : freeCells w.heap = some s.free := Hwx.freeCells_spec hw.heap
  unfold Balanced debt owned
  rw [hcells, hw.live]
  constructor
  · rintro ⟨cells, hsome, heq⟩
    cases hsome
    omega
  · exact fun h => ⟨s.free, rfl, by omega⟩

/-- What a chunk adds to the debt when it is given back. -/
def loss (len : Nat) : Nat := if pageSize ≤ len then divUp len * pageSize - len else 0

theorem loss_eq_zero {len : Nat} : loss len = 0 ↔ len < pageSize ∨ len % pageSize = 0 := by
  have h := Hwx.divUp_spec len
  unfold loss divUp pageSize at *
  dsimp only at *
  split
  · split at h <;> simp only [*, if_true, if_false] <;> omega
  · omega

structure Account (past : List (World × Event)) (w : World) (s : Spec) : Prop where
  rep : RepWorld w s
  nonneg : 0 ≤ debt w s
  zero : debt w s = 0 ↔ ∀ x ∈ past, FreesWhole x.1 x.2

theorem debt_malloc {w w' : World} {s s' : Spec} (h : Paid w.heap w'.heap s s') :
    debt w' s' = debt w s := by
  have h1 := h.mapped
  have h2 := h.unmapped
  unfold debt pageSize at *
  rw [h2]
  omega

theorem debt_free {w w' : World} {s : Spec} (hw : RepWorld w s) {k : Region} (hk : k ∈ s.live)
    (hmapped : w'.heap.stats.pagesMapped = w.heap.stats.pagesMapped)
    (hunmapped : w'.heap.stats.pagesUnmapped = w.heap.stats.pagesUnmapped +
      (if pageSize ≤ k.len then divUp k.len else 0 : Nat)) :
    debt w' (freed s k) = debt w s + loss k.len := by
  have hle := (Hwx.divUp_spec k.len).1
  unfold debt loss
  rw [owned_freed hw.heap.layout hk, hmapped, hunmapped]
  split
  · rw [Nat.cast_sub hle]
    unfold pageSize
    push_cast
    ring
  · simp

/-- The header that `hfree` reads, and what it means for the counters. -/
theorem freesWhole_free {w : World} {s : Spec} (hw : RepWorld w s) {k : Region} (hk : k ∈ s.live) :
    FreesWhole w (.free (k.base + 8)) ↔
      loss k.len = 0 ∧ (s.pages.reuse = true → pageSize ≤ k.len → (k.base + 8) % pageSize ≠ 0) := by
  have hheader : w.heap.list.size (k.base + 8 - 8) = k.len := by
    rw [Nat.add_sub_cancel]
    exact hw.heap.header k hk
  have hpages : w.heap.pages.reuse = s.pages.reuse := congrArg Pages.reuse hw.heap.pages
  unfold FreesWhole
  dsimp only
  rw [hheader, hpages, loss_eq_zero]
  by_cases hsmall : k.len < pageSize
  · exact iff_of_true (Or.inl hsmall) ⟨Or.inl hsmall, fun _ hbig =>
      absurd hsmall (Nat.not_lt.mpr hbig)⟩
  · simp only [hsmall, false_or, Nat.le_of_not_lt hsmall, true_implies]

theorem keeps_of_freesWhole {w : World} {s : Spec} (hw : RepWorld w s) {k : Region}
    (hk : k ∈ s.live) (hkeep : s.pages.reuse = false ∨ FreesWhole w (.free (k.base + 8))) :
    Keeps s k := by
  cases hreuse : s.pages.reuse with
  | false => exact Or.inl hreuse
  | true =>
    have h' := hkeep.resolve_left (by rw [hreuse]; decide)
    exact Or.inr fun hbig => ((freesWhole_free hw hk).mp h').2 hreuse hbig

theorem account_step {past : List (World × Event)} {w w' : World} {s : Spec} {e : Event}
    (h : Account past w s) (ha : Allowed w e) (hs : step w e = .ok w')
    (hkeep : s.pages.reuse = false ∨ FreesWhole w e) :
    ∃ s', Account ((w, e) :: past) w' s' ∧ s'.pages.reuse = s.pages.reuse := by
  obtain ⟨hrep, hnonneg, hzero⟩ := h
  -- a step that owes nothing leaves the history as good as it was
  have hfree : FreesWhole w e → ∀ {s'}, RepWorld w' s' → debt w' s' = debt w s →
      Account ((w, e) :: past) w' s' := by
    intro hwhole s' hrep' hdebt
    refine ⟨hrep', hdebt ▸ hnonneg, ?_⟩
    rw [hdebt, hzero, List.forall_mem_cons]
    exact (and_iff_right hwhole).symm
  cases e with
  | malloc n answers =>
    obtain ⟨k, s', hspec, -, hrep', hpaid⟩ := malloc_step hrep hs
    exact ⟨s', hfree trivial hrep' (debt_malloc hpaid), (Hwx.malloc_live hspec).2.1⟩
  | free p =>
    obtain ⟨k, hk, rfl⟩ := ha
    rw [hrep.live] at hk
    have hwhole := freesWhole_free hrep hk
    have hloss : FreesWhole w (.free (k.base + 8)) ↔ loss k.len = 0 := by
      refine ⟨fun h => (hwhole.mp h).1, fun h => ?_⟩
      rcases hkeep with hreuse | h'
      · exact hwhole.mpr ⟨h, fun htrue => absurd (hreuse.symm.trans htrue) (by decide)⟩
      · exact h'
    obtain ⟨h', -, hstep, hrep', hmapped, hunmapped⟩ :=
      free_step hrep hk (keeps_of_freesWhole hrep hk hkeep)
    rw [hs] at hstep
    cases hstep
    have hdebt : debt ⟨h', lose (k.base + 8) w.live⟩ (freed s k) = debt w s + loss k.len :=
      debt_free hrep hk hmapped hunmapped
    refine ⟨freed s k, ⟨hrep', ?_, ?_⟩, freed_reuse s k⟩
    · rw [hdebt]
      omega
    · rw [hdebt, List.forall_mem_cons, hloss, ← hzero]
      omega
  | write p off b =>
    obtain ⟨k, hk, rfl, hoff⟩ := ha
    rw [hrep.live] at hk
    cases hs
    exact ⟨s, hfree trivial (write_step hrep hk hoff b) rfl, rfl⟩

theorem account_of_run {reuse : Bool} {m : Memory} {past : List (World × Event)} {w : World}
    (hw : Run reuse m past w) (h : reuse = false ∨ ∀ x ∈ past, FreesWhole x.1 x.2) :
    ∃ s, Account past w s ∧ s.pages.reuse = reuse := by
  induction hw with
  | empty => exact ⟨_, ⟨rep_empty reuse m, by simp [debt, owned, emptyWorld],
      by simp [debt, owned, emptyWorld]⟩, rfl⟩
  | step hw ha hs ih =>
    rw [List.forall_mem_cons] at h
    obtain ⟨s, haccount, hreuse⟩ := ih (h.imp id And.right)
    obtain ⟨s', haccount', hreuse'⟩ := account_step haccount ha hs (hreuse ▸ h.imp id And.left)
    exact ⟨s', haccount', hreuse'.trans hreuse⟩

/-- A run in which only blocks of whole pages go through `munmap` keeps the
balance; when the kernel hands out no page twice, no other run does. -/
theorem run_balanced {reuse : Bool} {m : Memory} {past : List (World × Event)} {w : World}
    (hw : Run reuse m past w) :
    ((∀ x ∈ past, FreesWhole x.1 x.2) → Balanced w) ∧
      (reuse = false → (Balanced w ↔ ∀ x ∈ past, FreesWhole x.1 x.2)) := by
  constructor
  · intro h
    obtain ⟨s, haccount, -⟩ := account_of_run hw (Or.inr h)
    exact (balanced_iff haccount.rep).mpr (haccount.zero.mpr h)
  · intro hreuse
    obtain ⟨s, haccount, -⟩ := account_of_run hw (Or.inl hreuse)
    exact (balanced_iff haccount.rep).trans haccount.zero

/-- Two blocks, of which the one with pages of its own is given back. -/
theorem large_block_balanced :
    ∃ past w, Run false (fun _ => 0) past w ∧ w.live = [⟨65536, 100⟩] ∧ Balanced w := by
  have hrun : (followAll (Hwx.emptySpec false) [.malloc 92 [65536], .malloc 5000 [69632]]).map
      (fun s => s.live) = some [⟨69632, 8192⟩, ⟨65536, 100⟩] := by
    decide +kernel
  obtain ⟨past, w, s, hw, hrep, hreuse, hlive, hevents⟩ := run_of_live (fun _ => 0) hrun
  obtain ⟨w', hw', hlive', hsize⟩ :=
    free_of_live (k := ⟨69632, 8192⟩) hw hrep hreuse (by simp [hlive])
  refine ⟨_, w', hw', by rw [hlive', hlive]; decide, (run_balanced hw').1 ?_⟩
  rw [List.forall_mem_cons]
  constructor
  · have hwhole : w.heap.list.size 69632 % pageSize = 0 := by
      rw [hsize]
      decide
    exact Or.inr ⟨hwhole, fun _ => by decide⟩
  · intro x hx
    unfold FreesWhole
    rcases List.mem_pair.mp (hevents x hx) with h | h <;> rw [h] <;> trivial

/-- A block cut whole from a coalesced cell of 4106 bytes counts as two pages
when it is given back. -/
theorem unsplit_cell_unbalanced :
    ¬ ∀ (reuse : Bool) (m : Memory) (past : List (World × Event)) (w : World),
      Run reuse m past w → Balanced w := by
  intro hclaim
  have hrun : (followAll (Hwx.emptySpec false) [.malloc 2992 [65536], .malloc 1098 [69632],
      .malloc 4078 [], .free 65544, .free 68544, .malloc 4082 []]).map (fun s => s.live) =
      some [⟨65536, 4106⟩, ⟨69642, 4086⟩] := by
    decide +kernel
  obtain ⟨past, w, s, hw, hrep, hreuse, hlive, -⟩ := run_of_live (fun _ => 0) hrun
  obtain ⟨w', hw', -, hsize⟩ :=
    free_of_live (k := ⟨65536, 4106⟩) hw hrep hreuse (by simp [hlive])
  obtain ⟨s', haccount, -⟩ := account_of_run hw' (Or.inl rfl)
  have hall := haccount.zero.mp ((balanced_iff haccount.rep).mp (hclaim _ _ _ _ hw'))
  have hlast : w.heap.list.size 65536 < pageSize ∨ w.heap.list.size 65536 % pageSize = 0 ∧ _ :=
    hall _ List.mem_cons_self
  rw [hsize] at hlast
  exact hlast.elim (by decide) fun h => absurd h.1 (by decide)

/-! ## The pages that are mapped -/

/-- The number of pages that are mapped; an address space has `2 ^ 52`. -/
def mappedPages (pg : Pages) : Nat :=
  ((Finset.range (2 ^ 52)).filter fun p => pg.mapped p = true).card

def CountsMapped (w : World) : Prop :=
  w.heap.stats.pagesMapped - w.heap.stats.pagesUnmapped = mappedPages w.heap.pages

/-- The pages that `hfree` counts as unmapped are mapped, and `munmap` accepts
the address of the block. -/
def Releases (w : World) : Event → Prop
  | .free p =>
    w.heap.list.size (p - 8) < pageSize ∨
      (p % pageSize = 0 ∧ ∀ i < divUp (w.heap.list.size (p - 8)),
        w.heap.pages.mapped (p / pageSize + i) = true)
  | _ => True

def InSpace (pg : Pages) : Prop := ∀ p, pg.mapped p = true → 0 < p ∧ p < 2 ^ 52

/-- The pages of the range that are mapped. -/
def mappedIn (pg : Pages) (a len : Nat) : Nat :=
  ((Finset.range (2 ^ 52)).filter fun p => Pages.inRange a len p = true ∧ pg.mapped p = true).card

theorem filter_inRange {a len : Nat} (hspace : a / pageSize + pageCount len ≤ 2 ^ 52) :
    ((Finset.range (2 ^ 52)).filter fun p => Pages.inRange a len p = true) =
      Finset.Ico (a / pageSize) (a / pageSize + pageCount len) := by
  ext p
  unfold Pages.inRange
  simp only [Finset.mem_filter, Finset.mem_range, Finset.mem_Ico, Bool.and_eq_true,
    decide_eq_true_eq]
  omega

theorem mappedPages_map {pg : Pages} {a len : Nat} (hf : pg.Free a len) :
    mappedPages (pg.map a len) = mappedPages pg + pageCount len := by
  obtain ⟨-, halign, -, hstop, hfree⟩ := hf
  have hspace : a / pageSize + pageCount len ≤ 2 ^ 52 := by
    unfold pageSize at *
    omega
  have hdisjoint : Disjoint ((Finset.range (2 ^ 52)).filter fun p => Pages.inRange a len p = true)
      ((Finset.range (2 ^ 52)).filter fun p => pg.mapped p = true) := by
    refine Finset.disjoint_filter.mpr fun p _ hin hmapped => ?_
    unfold Pages.inRange at hin
    simp only [Bool.and_eq_true, decide_eq_true_eq] at hin
    have hnot := hfree (p - a / pageSize) (by omega)
    rw [Nat.add_sub_cancel' hin.1] at hnot
    unfold Pages.taken at hnot
    rw [hmapped, Bool.true_or] at hnot
    cases hnot
  unfold mappedPages
  have hsplit : ((Finset.range (2 ^ 52)).filter fun p => (pg.map a len).mapped p = true) =
      ((Finset.range (2 ^ 52)).filter fun p => Pages.inRange a len p = true) ∪
        ((Finset.range (2 ^ 52)).filter fun p => pg.mapped p = true) := by
    rw [← Finset.filter_or]
    refine Finset.filter_congr fun p _ => ?_
    exact Bool.or_eq_true_iff
  rw [hsplit, Finset.card_union_of_disjoint hdisjoint, filter_inRange hspace, Nat.card_Ico,
    Nat.add_sub_cancel_left, Nat.add_comm]

theorem inSpace_map {pg : Pages} (h : InSpace pg) {a len : Nat} (hf : pg.Free a len) :
    InSpace (pg.map a len) := by
  intro p hp
  obtain ⟨-, halign, hpos, hstop, -⟩ := hf
  rcases Bool.or_eq_true_iff.mp hp with hin | hp
  · unfold Pages.inRange pageSize at *
    simp only [Bool.and_eq_true, decide_eq_true_eq] at hin
    omega
  · exact h p hp

/-- `munmap` at a page boundary takes away the pages of the range that are mapped. -/
theorem mappedPages_munmap {pg : Pages} {a len : Nat} (halign : a % pageSize = 0) (hlen : 0 < len) :
    mappedPages pg = mappedPages (pg.munmap a len) + mappedIn pg a len := by
  have hrest : ∀ p, (pg.munmap a len).mapped p = true ↔
      pg.mapped p = true ∧ ¬ Pages.inRange a len p = true := by
    intro p
    unfold Pages.munmap
    dsimp only
    rw [if_pos ⟨halign, hlen⟩, Bool.and_eq_true, Bool.not_eq_true', Bool.not_eq_true, and_comm]
  have hsplit := Finset.card_filter_add_card_filter_not
    (s := (Finset.range (2 ^ 52)).filter fun p => pg.mapped p = true)
    (p := fun p => Pages.inRange a len p = true)
  rw [Finset.filter_filter, Finset.filter_filter] at hsplit
  unfold mappedPages mappedIn
  have hboth : ((Finset.range (2 ^ 52)).filter fun p =>
      Pages.inRange a len p = true ∧ pg.mapped p = true) =
      (Finset.range (2 ^ 52)).filter fun p => pg.mapped p = true ∧ Pages.inRange a len p = true :=
    Finset.filter_congr fun p _ => and_comm
  rw [← hsplit, Nat.add_comm, Finset.filter_congr fun p _ => hrest p, hboth]

/-- At most the pages of the range, and all of them when they are all mapped. -/
theorem mappedIn_le {pg : Pages} (h : InSpace pg) (a len : Nat) :
    mappedIn pg a len ≤ pageCount len ∧
      (mappedIn pg a len = pageCount len ↔
        ∀ i < pageCount len, pg.mapped (a / pageSize + i) = true) := by
  have heq : ((Finset.range (2 ^ 52)).filter fun p =>
      Pages.inRange a len p = true ∧ pg.mapped p = true) =
      (Finset.Ico (a / pageSize) (a / pageSize + pageCount len)).filter fun p =>
        pg.mapped p = true := by
    ext p
    unfold Pages.inRange
    simp only [Finset.mem_filter, Finset.mem_range, Finset.mem_Ico, Bool.and_eq_true,
      decide_eq_true_eq]
    exact ⟨fun hp => hp.2, fun hp => ⟨(h p hp.2).2, hp⟩⟩
  have hcard : (Finset.Ico (a / pageSize) (a / pageSize + pageCount len)).card = pageCount len := by
    rw [Nat.card_Ico, Nat.add_sub_cancel_left]
  unfold mappedIn
  rw [heq]
  have hle := Finset.card_filter_le (Finset.Ico (a / pageSize) (a / pageSize + pageCount len))
    fun p => pg.mapped p = true
  rw [hcard] at hle
  refine ⟨hle, ?_⟩
  have hall := Finset.card_filter_eq_iff
    (s := Finset.Ico (a / pageSize) (a / pageSize + pageCount len))
    (p := fun p => pg.mapped p = true)
  rw [hcard] at hall
  rw [hall]
  constructor
  · intro hp i hi
    exact hp _ (Finset.mem_Ico.mpr (by omega))
  · intro hi p hp
    have hp' := Finset.mem_Ico.mp hp
    have hmapped := hi (p - a / pageSize) (by omega)
    rwa [Nat.add_sub_cancel' hp'.1] at hmapped

/-- Every page that is mapped is counted. -/
structure Grows (h h' : Heap) : Prop where
  mapped : h'.stats.pagesMapped - h.stats.pagesMapped =
    (mappedPages h'.pages : Int) - mappedPages h.pages
  unmapped : h'.stats.pagesUnmapped = h.stats.pagesUnmapped
  space : InSpace h.pages → InSpace h'.pages

theorem Grows.trans {h₁ h₂ h₃ : Heap} (h : Grows h₁ h₂) (h' : Grows h₂ h₃) : Grows h₁ h₃ := by
  refine ⟨?_, h'.unmapped.trans h.unmapped, fun hs => h'.space (h.space hs)⟩
  have h1 := h.mapped
  have h2 := h'.mapped
  omega

theorem grows_mmap {h : Heap} {m : Memory} {pg : Pages} {a len : Nat}
    (hrun : mmap h.list.mem h.pages a len = .ok (m, pg)) (h' : Heap) (hpg : h'.pages = pg)
    (hmapped : h'.stats.pagesMapped = h.stats.pagesMapped + pageCount len)
    (hunmapped : h'.stats.pagesUnmapped = h.stats.pagesUnmapped) : Grows h h' := by
  unfold mmap at hrun
  split at hrun
  · rename_i hf
    cases hrun
    refine ⟨?_, hunmapped, fun hs => hpg ▸ inSpace_map hs hf⟩
    rw [hpg, mappedPages_map hf, hmapped]
    omega
  · cases hrun

theorem mapLarge_grows {h h' : Heap} {size p : Nat} (hlt : size < 2 ^ 64) {answers : List Nat}
    (hrun : mapLarge h size answers = .ok (p, h')) : Grows h h' := by
  cases answers with
  | nil => cases hrun
  | cons addr rest =>
    obtain ⟨r, hmmap, hok⟩ := bind_eq_ok.mp hrun
    cases hok
    have hcount : pageCount (roundUp size) = divUp size := by
      unfold mmap at hmmap
      split at hmmap
      · rename_i hf
        have hround := roundUp_eq hlt hf.1
        unfold pageCount pageSize at *
        omega
      · cases hmmap
    exact grows_mmap hmmap _ rfl (by rw [hcount]) rfl

theorem addPage_grows {h h' : Heap} {addr : Nat} (hrun : addPage h addr = .ok h') :
    Grows h h' := by
  obtain ⟨r, hmmap, hrun⟩ := bind_eq_ok.mp hrun
  obtain ⟨fl, -, hrun⟩ := bind_eq_ok.mp hrun
  obtain ⟨fl', -, hok⟩ := bind_eq_ok.mp hrun
  cases hok
  exact grows_mmap hmmap _ rfl rfl rfl

theorem takeCell_grows {h h' : Heap} {cell size p : Nat}
    (hrun : takeCell h cell size = .ok (p, h')) : Grows h h' := by
  have hsame : ∀ fl st, st.pagesMapped = h.stats.pagesMapped →
      st.pagesUnmapped = h.stats.pagesUnmapped → Grows h ⟨fl, h.pages, st⟩ := by
    intro fl st hmapped hunmapped
    refine ⟨?_, hunmapped, id⟩
    rw [hmapped, Int.sub_self, Int.sub_self]
  unfold takeCell at hrun
  split at hrun
  · obtain ⟨fl, -, hok⟩ := bind_eq_ok.mp hrun
    cases hok
    exact hsame _ _ rfl rfl
  · cases hrun
    exact hsame _ _ rfl rfl

theorem hmalloc_grows {h h' : Heap} {answers : List Nat} {n p : Nat}
    (hrun : hmalloc answers n h = .ok (p, h')) : Grows h h' := by
  have hlt : ∀ n, clamp (withHeader n) < 2 ^ 64 := fun n =>
    Hwx.clamp_lt (Nat.mod_lt _ (Nat.two_pow_pos 64))
  induction answers generalizing h n with
  | nil =>
    rw [hmalloc] at hrun
    split at hrun
    · exact mapLarge_grows (hlt n) hrun
    · obtain ⟨cell, -, hrun⟩ := bind_eq_ok.mp hrun
      split at hrun
      · exact takeCell_grows hrun
      · cases hrun
  | cons addr rest ih =>
    rw [hmalloc] at hrun
    split at hrun
    · exact mapLarge_grows (hlt n) hrun
    · obtain ⟨cell, -, hrun⟩ := bind_eq_ok.mp hrun
      split at hrun
      · exact takeCell_grows hrun
      · obtain ⟨h₁, hadd, hrun⟩ := bind_eq_ok.mp hrun
        exact (addPage_grows hadd).trans (ih hrun)

theorem hfree_counts {h h' : Heap} {p : Nat} (hspace : InSpace h.pages)
    (hrun : hfree h p = .ok h') : InSpace h'.pages ∧
      (h'.stats.pagesMapped - h'.stats.pagesUnmapped : Int) - mappedPages h'.pages ≤
        (h.stats.pagesMapped - h.stats.pagesUnmapped : Int) - mappedPages h.pages ∧
      ((h'.stats.pagesMapped - h'.stats.pagesUnmapped : Int) - mappedPages h'.pages =
        (h.stats.pagesMapped - h.stats.pagesUnmapped : Int) - mappedPages h.pages ↔
        h.list.size (p - 8) < pageSize ∨
          (p % pageSize = 0 ∧ ∀ i < divUp (h.list.size (p - 8)),
            h.pages.mapped (p / pageSize + i) = true)) := by
  unfold hfree at hrun
  dsimp only at hrun
  split at hrun
  · rename_i hbig
    cases hrun
    dsimp only
    have hlt : h.list.size (p - 8) < 2 ^ 64 := word_lt _ _
    generalize h.list.size (p - 8) = size at *
    have hspec := Hwx.divUp_spec size
    obtain ⟨hle, hall⟩ := mappedIn_le hspace p (roundUp size)
    have hspace' : InSpace (h.pages.munmap p (roundUp size)) := by
      intro q hq
      refine hspace q ?_
      unfold Pages.munmap at hq
      dsimp only at hq
      split at hq
      · exact (Bool.and_eq_true_iff.mp hq).2
      · exact hq
    refine ⟨hspace', ?_⟩
    by_cases htakes : p % pageSize = 0 ∧ 0 < roundUp size
    · have hpages := @mappedPages_munmap h.pages _ _ htakes.1 htakes.2
      have hcount : pageCount (roundUp size) = divUp size := by
        have hround := roundUp_eq hlt htakes.2
        unfold pageCount pageSize at *
        omega
      rw [hcount] at hle hall
      refine ⟨by omega, ?_⟩
      rw [← hall, or_iff_right (Nat.not_lt.mpr hbig), and_iff_right htakes.1]
      omega
    · -- the kernel refuses the call, and nothing is released
      have hsame : mappedPages (h.pages.munmap p (roundUp size)) = mappedPages h.pages := by
        unfold mappedPages Pages.munmap
        dsimp only
        rw [if_neg htakes]
      have hdiv : 0 < divUp size := by
        unfold pageSize at *
        omega
      rw [hsame]
      refine ⟨by omega, iff_of_false (by omega) ?_⟩
      rintro (hsmall | ⟨halign, hmapped⟩)
      · exact absurd hbig (Nat.not_le.mpr hsmall)
      · have hall52 : divUp size = 2 ^ 52 := by
          have hzero : roundUp size = 0 := Nat.eq_zero_of_not_pos fun h => htakes ⟨halign, h⟩
          unfold roundUp pageSize at *
          omega
        have hfirst := (hspace _ (hmapped 0 hdiv)).1
        have hlast := (hspace _ (hmapped (2 ^ 52 - 1) (by omega))).2
        omega
  · rename_i hsmall
    obtain ⟨fl, -, hrun⟩ := bind_eq_ok.mp hrun
    obtain ⟨fl', -, hok⟩ := bind_eq_ok.mp hrun
    cases hok
    exact ⟨hspace, Int.le_refl _, iff_of_true rfl (Or.inl (Nat.lt_of_not_le hsmall))⟩

/-- Counted pages less mapped pages. -/
def surplus (w : World) : Int :=
  (w.heap.stats.pagesMapped - w.heap.stats.pagesUnmapped) - mappedPages w.heap.pages

theorem countsMapped_iff {w : World} : CountsMapped w ↔ surplus w = 0 := by
  unfold CountsMapped surplus
  omega

theorem surplus_step {w w' : World} {e : Event} (hspace : InSpace w.heap.pages)
    (hs : step w e = .ok w') :
    InSpace w'.heap.pages ∧ surplus w' ≤ surplus w ∧ (surplus w' = surplus w ↔ Releases w e) := by
  cases e with
  | malloc n answers =>
    obtain ⟨r, hrun, hok⟩ := bind_eq_ok.mp hs
    cases hok
    have hgrows := hmalloc_grows hrun
    have h1 := hgrows.mapped
    have h2 := hgrows.unmapped
    have hsame : surplus ⟨r.2, chunkAt r.2 r.1 :: w.live⟩ = surplus w := by
      unfold surplus
      dsimp only
      omega
    exact ⟨hgrows.space hspace, Int.le_of_eq hsame, iff_of_true hsame trivial⟩
  | free p =>
    obtain ⟨h', hrun, hok⟩ := bind_eq_ok.mp hs
    cases hok
    exact hfree_counts hspace hrun
  | write p off b =>
    cases hs
    exact ⟨hspace, Int.le_refl _, iff_of_true rfl trivial⟩

theorem surplus_of_run {reuse : Bool} {m : Memory} {past : List (World × Event)} {w : World}
    (hw : Run reuse m past w) :
    InSpace w.heap.pages ∧ surplus w ≤ 0 ∧ (surplus w = 0 ↔ ∀ x ∈ past, Releases x.1 x.2) := by
  induction hw with
  | empty =>
    have hnone : mappedPages (Pages.empty reuse) = 0 := by
      unfold mappedPages
      rw [Finset.card_filter_eq_zero_iff]
      exact fun p _ => Bool.false_ne_true
    have hzero : surplus (emptyWorld reuse m) = 0 := by
      unfold surplus emptyWorld
      dsimp only
      rw [hnone]
      rfl
    exact ⟨fun p hp => absurd hp Bool.false_ne_true, Int.le_of_eq hzero, by simp [hzero]⟩
  | step _ _ hs ih =>
    obtain ⟨hspace, hle, hzero⟩ := ih
    obtain ⟨hspace', hle', hsame⟩ := surplus_step hspace hs
    refine ⟨hspace', Int.le_trans hle' hle, ?_⟩
    rw [List.forall_mem_cons, ← hsame, ← hzero]
    omega

/-- The counters agree with the kernel after a run exactly when every block of
a page or more was given back by a call that released as many pages as it counted. -/
theorem run_counts_mapped {reuse : Bool} {m : Memory} {past : List (World × Event)} {w : World}
    (hw : Run reuse m past w) : CountsMapped w ↔ ∀ x ∈ past, Releases x.1 x.2 :=
  countsMapped_iff.trans (surplus_of_run hw).2.2

/-- Two blocks of which the one without pages of its own is given back. -/
theorem small_block_counts :
    ∃ past w, Run false (fun _ => 0) past w ∧ w.live = [⟨69632, 8192⟩] ∧ CountsMapped w := by
  have hrun : (followAll (Hwx.emptySpec false) [.malloc 92 [65536], .malloc 5000 [69632]]).map
      (fun s => s.live) = some [⟨69632, 8192⟩, ⟨65536, 100⟩] := by
    decide +kernel
  obtain ⟨past, w, s, hw, hrep, hreuse, hlive, hevents⟩ := run_of_live (fun _ => 0) hrun
  obtain ⟨w', hw', hlive', hsize⟩ :=
    free_of_live (k := ⟨65536, 100⟩) hw hrep hreuse (by simp [hlive])
  refine ⟨_, w', hw', by rw [hlive', hlive]; decide, (run_counts_mapped hw').mpr ?_⟩
  rw [List.forall_mem_cons]
  constructor
  · have hsmall : w.heap.list.size 65536 < pageSize := by
      rw [hsize]
      decide
    exact Or.inl hsmall
  · intro x hx
    unfold Releases
    rcases List.mem_pair.mp (hevents x hx) with h | h <;> rw [h] <;> trivial

/-- `hfree` of a block of two pages: `munmap` refuses the address behind the header. -/
theorem large_block_stays_mapped :
    ¬ ∀ (reuse : Bool) (m : Memory) (past : List (World × Event)) (w : World),
      Run reuse m past w → CountsMapped w := by
  intro hclaim
  have hrun : (followAll (Hwx.emptySpec false) [.malloc 5000 [65536]]).map (fun s => s.live) =
      some [⟨65536, 8192⟩] := by
    decide +kernel
  obtain ⟨past, w, s, hw, hrep, hreuse, hlive, -⟩ := run_of_live (fun _ => 0) hrun
  obtain ⟨w', hw', -, hsize⟩ :=
    free_of_live (k := ⟨65536, 8192⟩) hw hrep hreuse (by simp [hlive])
  have hall := (surplus_of_run hw').2.2.mp (countsMapped_iff.mp (hclaim _ _ _ _ hw'))
  have hlast : w.heap.list.size 65536 < pageSize ∨ 65544 % pageSize = 0 ∧ _ :=
    hall _ List.mem_cons_self
  rw [hsize] at hlast
  exact hlast.elim (by decide) fun h => absurd h.1 (by decide)

end Cs3650.Malloc.Hmalloc
