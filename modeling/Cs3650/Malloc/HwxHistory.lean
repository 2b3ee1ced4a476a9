import Cs3650.Lib.MaximalRuns
import Cs3650.Malloc.HwxMapped

/-!
# The free list as a function of the free bytes

The free bytes of a run are the bytes of the pages that small requests have
mapped, less those of live chunks and of chunks that were given back through
`munmap`. The free list is the list of their maximal runs. It therefore does
not depend on the history that led to the same free bytes.
-/

namespace Cs3650.Malloc.Hwx

open Cs3650.Lib Cs3650.Lib.FirstFit FreeList

/-- A world with what the run so far has mapped for small requests and has
given back through `munmap`. -/
structure History where
  world : World
  pool : Nat → Bool
  gone : List Region

/-- The event asks for less than a page. -/
def Event.small : Event → Bool
  | .malloc n _ => clamp (withHeader n) < pageSize
  | .realloc _ n _ => clamp (withHeader n) < pageSize
  | _ => false

/-- The pointer that the event gives back; no chunk has the null pointer. -/
def Event.givesBack : Event → Nat
  | .free p => p
  | .realloc p _ _ => p
  | _ => 0

/-- The history after the event `e` has led to `w'`. -/
def History.record (t : History) (e : Event) (w' : World) : History where
  world := w'
  pool := fun p => t.pool p ||
    (e.small && w'.heap.pages.used p && !t.world.heap.pages.used p)
  gone := (t.world.live.filter fun k => k.base + 8 = e.givesBack && pageSize ≤ k.len) ++ t.gone

/-- The histories of allowed events that all satisfy `C`; the kernel returns no
address twice. -/
inductive Recorded (C : World → Event → Prop) (m : Memory) : History → Prop
  | empty : Recorded C m ⟨emptyWorld false m, fun _ => false, []⟩
  | step {t : History} {e : Event} {w' : World} (ht : Recorded C m t) (ha : Allowed t.world e)
      (hc : C t.world e) (hs : step t.world e = .ok w') : Recorded C m (t.record e w')

def History.FreeByte (t : History) (x : Nat) : Prop :=
  t.pool (x / pageSize) = true ∧ ¬ Covered t.world.live x ∧ ¬ Covered t.gone x

/-! ## Conservation of bytes -/

/-- The free cells cover the bytes of the pool that are in no live chunk and
not gone. -/
structure Conserves (pool : Nat → Bool) (gone : List Region) (s : Spec) : Prop where
  cover : ∀ x, Covered s.free x ↔
    pool (x / pageSize) = true ∧ ¬ Covered s.live x ∧ ¬ Covered gone x
  used : ∀ p, pool p = true → s.pages.used p = true
  held : ∀ g ∈ gone, s.pages.Holds g
  apart : ∀ x, Covered gone x → ¬ Covered s.live x
  small : ∀ k ∈ s.live, k.len < pageSize → ∀ x, k.Has x → pool (x / pageSize) = true

theorem has_not_apart {r s : Region} (h : r.Apart s) {x : Nat} (hr : r.Has x) : ¬ s.Has x := by
  unfold Region.Apart Region.Has at *
  omega

theorem not_covered_of_apart {L : List Region} {r : Region} (h : ∀ s ∈ L, r.Apart s) {x : Nat}
    (hr : r.Has x) : ¬ Covered L x := by
  rintro ⟨s, hs, hx⟩
  exact has_not_apart (h s hs) hr hx

theorem apart_of_layout {pg : Pages} {free live : List Region} {k : Region}
    (h : Layout pg free (k :: live)) {x : Nat} (hx : k.Has x) :
    ¬ Covered free x ∧ ¬ Covered live x := by
  constructor
  · exact not_covered_of_apart (fun r hr => (h.apart r hr k List.mem_cons_self).symm) hx
  · exact not_covered_of_apart (Region.apart_cons h.live_apart) hx

/-- No page of a range that the kernel may return has been used. -/
theorem not_used_of_free {pg : Pages} (hreuse : pg.reuse = false) {a len x : Nat}
    (hf : pg.Free a len) (hx : Region.Has ⟨a, pageCount len * pageSize⟩ x) :
    pg.used (x / pageSize) = false := by
  obtain ⟨-, halign, -, -, hfree⟩ := hf
  have hin := Pages.inRange_of_mem halign hx.1 hx.2
  unfold Pages.inRange at hin
  simp only [Bool.and_eq_true, decide_eq_true_eq] at hin
  have hnot := hfree (x / pageSize - a / pageSize) (by omega)
  rw [Nat.add_sub_cancel' hin.1] at hnot
  unfold Pages.taken at hnot
  cases hu : pg.used (x / pageSize) with
  | true => simp [hreuse, hu] at hnot
  | false => rfl

namespace Conserves

variable {pool pool' : Nat → Bool} {gone gone' : List Region} {s : Spec} {k : Region}

theorem congr (h : Conserves pool gone s) (hpool : ∀ p, pool' p = pool p)
    (hgone : ∀ g, g ∈ gone' ↔ g ∈ gone) : Conserves pool' gone' s := by
  have hp : pool' = pool := funext hpool
  have hcovered : ∀ x, Covered gone' x ↔ Covered gone x := fun x =>
    exists_congr fun g => and_congr_left fun _ => hgone g
  subst hp
  exact ⟨fun x => by rw [hcovered, h.cover], h.used, fun g hg => h.held g ((hgone g).mp hg),
    fun x hx => h.apart x ((hcovered x).mp hx), h.small⟩

theorem fresh (h : Conserves pool gone s) (hreuse : s.pages.reuse = false)
    (hlay : Layout s.pages s.free s.live)
    (hused : ∀ p, s.pages.mapped p = true → s.pages.used p = true) {a len x : Nat}
    (hf : s.pages.Free a len) (hx : Region.Has ⟨a, pageCount len * pageSize⟩ x) :
    pool (x / pageSize) = false ∧ ¬ Covered s.live x ∧ ¬ Covered gone x := by
  have hnot := not_used_of_free hreuse hf hx
  have hheld : ∀ r : Region, s.pages.Holds r → ¬ r.Has x := by
    intro r hr hrx
    have htaken := hr x hrx.1 hrx.2
    rw [Pages.taken_eq_used hreuse hused, hnot] at htaken
    cases htaken
  refine ⟨?_, ?_, ?_⟩
  · cases hp : pool (x / pageSize) with
    | true =>
      rw [h.used _ hp] at hnot
      cases hnot
    | false => rfl
  · rintro ⟨r, hr, hrx⟩
    exact hheld r (hlay.holds r (List.mem_append_right _ hr)) hrx
  · rintro ⟨g, hg, hgx⟩
    exact hheld g (h.held g hg) hgx

theorem mapLarge (h : Conserves pool gone s) (hreuse : s.pages.reuse = false)
    (hlay : Layout s.pages s.free s.live)
    (hused : ∀ p, s.pages.mapped p = true → s.pages.used p = true) {a len : Nat}
    (hf : s.pages.Free a len) (hlen : pageCount len * pageSize = len) (hbig : pageSize ≤ len) :
    Conserves pool gone ⟨s.free, ⟨a, len⟩ :: s.live, s.pages.map a len⟩ := by
  have hfresh : ∀ x, Region.Has ⟨a, len⟩ x →
      pool (x / pageSize) = false ∧ ¬ Covered s.live x ∧ ¬ Covered gone x := by
    intro x hx
    rw [← hlen] at hx
    exact h.fresh hreuse hlay hused hf hx
  refine ⟨fun x => ?_, fun p hp => ?_, fun g hg => (h.held g hg).map a len, fun x hx => ?_, ?_⟩
  · rw [h.cover, covered_cons]
    constructor
    · rintro ⟨hp, hlive, hg⟩
      refine ⟨hp, fun hcov => hcov.elim (fun hx => ?_) hlive, hg⟩
      rw [(hfresh x hx).1] at hp
      cases hp
    · rintro ⟨hp, hlive, hg⟩
      exact ⟨hp, fun hcov => hlive (Or.inr hcov), hg⟩
  · show (Pages.inRange a len p || s.pages.used p) = true
    rw [h.used p hp, Bool.or_true]
  · rw [covered_cons]
    exact fun hcov => hcov.elim (fun hk => (hfresh x hk).2.2 hx) (h.apart x hx)
  · intro j hj hsmall
    rcases List.mem_cons.mp hj with rfl | hj
    · exact absurd hbig (Nat.not_le.mpr hsmall)
    · exact h.small j hj hsmall

theorem addPage (h : Conserves pool gone s) (hreuse : s.pages.reuse = false)
    (hlay : Layout s.pages s.free s.live)
    (hused : ∀ p, s.pages.mapped p = true → s.pages.used p = true) {a : Nat}
    (hf : s.pages.Free a pageSize) :
    Conserves (fun p => pool p || ((s.pages.map a pageSize).used p && !s.pages.used p)) gone
      ⟨release ⟨a, pageSize⟩ s.free, s.live, s.pages.map a pageSize⟩ := by
  have hpage : ∀ x, Region.Has ⟨a, pageSize⟩ x → s.pages.used (x / pageSize) = false ∧
      pool (x / pageSize) = false ∧ ¬ Covered s.live x ∧ ¬ Covered gone x := by
    intro x hx
    rw [← pageCount_pageSize] at hx
    exact ⟨not_used_of_free hreuse hf hx, h.fresh hreuse hlay hused hf hx⟩
  have hnew : ∀ x, ((s.pages.map a pageSize).used (x / pageSize) &&
      !s.pages.used (x / pageSize)) = true ↔ Region.Has ⟨a, pageSize⟩ x := by
    intro x
    show ((Pages.inRange a pageSize (x / pageSize) || s.pages.used (x / pageSize)) &&
      !s.pages.used (x / pageSize)) = true ↔ _
    constructor
    · intro hx
      have hin : Pages.inRange a pageSize (x / pageSize) = true := by
        cases hu : s.pages.used (x / pageSize) <;> simp_all
      have hmem := Pages.mem_of_inRange hf.2.1 hin
      rw [pageCount_pageSize] at hmem
      exact hmem
    · intro hx
      rw [(hpage x hx).1]
      rw [Pages.inRange_of_mem hf.2.1 hx.1 (by rw [pageCount_pageSize]; exact hx.2)]
      rfl
  refine ⟨fun x => ?_, fun p hp => ?_, fun g hg => (h.held g hg).map _ _, h.apart, ?_⟩
  · rw [covered_release, h.cover, Bool.or_eq_true, hnew]
    constructor
    · rintro (hx | ⟨hp, hrest⟩)
      · exact ⟨Or.inr hx, (hpage x hx).2.2⟩
      · exact ⟨Or.inl hp, hrest⟩
    · rintro ⟨hp | hx, hrest⟩
      · exact Or.inr ⟨hp, hrest⟩
      · exact Or.inl hx
  · rcases Bool.or_eq_true_iff.mp hp with hp | hp
    · show (Pages.inRange a pageSize p || s.pages.used p) = true
      rw [h.used p hp, Bool.or_true]
    · exact (Bool.and_eq_true_iff.mp hp).1
  · intro j hj hsmall x hx
    rw [Bool.or_eq_true]
    exact Or.inl (h.small j hj hsmall x hx)

theorem carve (h : Conserves pool gone s) {size : Nat} {free' : List Region}
    (hc : carve sizeofFlCell size s.free = some (k, free'))
    (hlay : Layout s.pages free' (k :: s.live)) :
    Conserves pool gone ⟨free', k :: s.live, s.pages⟩ := by
  have hk : ∀ x, k.Has x → Covered s.free x := fun x hx => (covered_carve hc).mpr (Or.inl hx)
  refine ⟨fun x => ?_, h.used, h.held, fun x hx => ?_, fun j hj hsmall x hx => ?_⟩
  · rw [covered_cons]
    constructor
    · intro hx
      obtain ⟨hp, hlive, hg⟩ := (h.cover x).mp ((covered_carve hc).mpr (Or.inr hx))
      exact ⟨hp, fun hcov => hcov.elim (fun hkx => (apart_of_layout hlay hkx).1 hx) hlive, hg⟩
    · rintro ⟨hp, hlive, hg⟩
      have hfree := (h.cover x).mpr ⟨hp, fun hcov => hlive (Or.inr hcov), hg⟩
      exact ((covered_carve hc).mp hfree).resolve_left fun hkx => hlive (Or.inl hkx)
  · rw [covered_cons]
    exact fun hcov => hcov.elim (fun hkx => ((h.cover x).mp (hk x hkx)).2.2 hx) (h.apart x hx)
  · rcases List.mem_cons.mp hj with rfl | hj
    · exact ((h.cover x).mp (hk x hx)).1
    · exact h.small j hj hsmall x hx

theorem malloc (h : Conserves pool gone s) (hreuse : s.pages.reuse = false)
    (hlay : Layout s.pages s.free s.live)
    (hused : ∀ p, s.pages.mapped p = true → s.pages.used p = true) {size : Nat}
    (hlt : size < 2 ^ 64) {answers : List Nat} {s' : Spec}
    (hm : Spec.malloc size answers s = .ok (k, s')) (hlay' : Layout s'.pages s'.free s'.live) :
    Conserves (fun p => pool p || (decide (size < pageSize) && s'.pages.used p &&
      !s.pages.used p)) gone s' := by
  have hlen := malloc_len hlt hm
  rcases malloc_cases hm with ⟨hbig, addr, hf, rfl, hs⟩ | ⟨hsmall, free, pages, hserves, hc, hs⟩
  · rw [hs]
    have hlarge := h.mapLarge hreuse hlay hused hf (roundUp_pages size) (Nat.le_trans hbig hlen)
    refine hlarge.congr (fun p => ?_) fun g => Iff.rfl
    rw [decide_eq_false (Nat.not_lt.mpr hbig), Bool.false_and, Bool.false_and, Bool.or_false]
  · rw [hs] at hlay' ⊢
    simp only [hsmall, decide_true, Bool.true_and]
    cases hserves with
    | hit =>
      refine (h.carve hc hlay').congr (fun p => ?_) fun g => Iff.rfl
      cases hu : s.pages.used p <;> simp
    | miss hnone hans hf =>
      exact carve (s := ⟨release ⟨_, pageSize⟩ s.free, s.live, s.pages.map _ pageSize⟩)
        (h.addPage hreuse hlay hused hf) hc hlay'

theorem free (h : Conserves pool gone s) (hreuse : s.pages.reuse = false)
    (hused : ∀ p, s.pages.mapped p = true → s.pages.used p = true)
    (hlay : Layout s.pages s.free s.live) (hk : k ∈ s.live) :
    Conserves pool (if pageSize ≤ k.len then k :: gone else gone) (s.free₁ k) := by
  have hperm := lose_perm hlay.live_apart (fun r hr => (hlay.chunk_ok hr).pos) hk
  have hlay' := hlay.perm hperm
  have hlive : ∀ x, Covered s.live x ↔ k.Has x ∨ Covered (lose (k.base + 8) s.live) x := by
    intro x
    rw [← covered_cons]
    exact exists_congr fun r => and_congr_left fun _ => hperm.mem_iff
  have hsmall : ∀ j ∈ lose (k.base + 8) s.live, j.len < pageSize → ∀ x, j.Has x →
      pool (x / pageSize) = true := fun j hj => h.small j (List.mem_filter.mp hj).1
  unfold Spec.free₁
  by_cases hbig : pageSize ≤ k.len
  · rw [if_pos hbig, if_pos hbig]
    refine ⟨fun x => ?_, h.used, fun g hg => ?_, fun x hx => ?_, hsmall⟩
    · rw [h.cover, hlive, covered_cons]
      tauto
    · have hheld : s.pages.Holds g := by
        rcases List.mem_cons.mp hg with rfl | hg
        · exact hlay.holds g (List.mem_append_right _ hk)
        · exact h.held g hg
      intro x h1 h2
      exact Pages.taken_munmap_of_not_reuse hreuse hused _ _ _ (hheld x h1 h2)
    · rw [covered_cons] at hx
      rcases hx with hx | hx
      · exact (apart_of_layout hlay' hx).2
      · exact fun hcov => h.apart x hx ((hlive x).mpr (Or.inr hcov))
  · rw [if_neg hbig, if_neg hbig]
    refine ⟨fun x => ?_, h.used, h.held, fun x hx hcov => ?_, hsmall⟩
    · rw [covered_release, h.cover, hlive]
      constructor
      · rintro (hx | ⟨hp, hnot, hg⟩)
        · refine ⟨h.small k hk (Nat.lt_of_not_le hbig) x hx, (apart_of_layout hlay' hx).2, ?_⟩
          exact fun hg => h.apart x hg ((hlive x).mpr (Or.inl hx))
        · exact ⟨hp, fun hcov => hnot (Or.inr hcov), hg⟩
      · rintro ⟨hp, hnot, hg⟩
        by_cases hx : k.Has x
        · exact Or.inl hx
        · exact Or.inr ⟨hp, fun hcov => hcov.elim hx hnot, hg⟩
    · exact h.apart x hx ((hlive x).mpr (Or.inr hcov))

end Conserves

/-- What the lists of a history look like. -/
structure Tracks (t : History) (s : Spec) : Prop where
  rep : RepWorld t.world s
  reuse : s.pages.reuse = false
  bytes : Conserves t.pool t.gone s

theorem base_inj {pg : Pages} {free live : List Region} (hlay : Layout pg free live)
    {k r : Region} (hk : k ∈ live) (hr : r ∈ live) (h : r.base + 8 = k.base + 8) : r = k := by
  have hperm := lose_perm hlay.live_apart (fun r hr => (hlay.chunk_ok hr).pos) hk
  rcases List.mem_cons.mp (hperm.subset hr) with rfl | hr
  · rfl
  · have hne := (List.mem_filter.mp hr).2
    simp only [ne_eq, decide_eq_true_eq] at hne
    exact absurd h hne

theorem free₁_used (s : Spec) (k : Region) : (s.free₁ k).pages.used = s.pages.used := by
  unfold Spec.free₁
  split <;> rfl

/-- A chunk that is given back is the only live one with its pointer. -/
theorem gone_of_live {pg : Pages} {free live gone : List Region} (hlay : Layout pg free live)
    {k : Region} (hk : k ∈ live) (g : Region) :
    g ∈ (live.filter fun r => r.base + 8 = k.base + 8 && pageSize ≤ r.len) ++ gone ↔
      g ∈ if pageSize ≤ k.len then k :: gone else gone := by
  have hone : g ∈ (live.filter fun r => r.base + 8 = k.base + 8 && pageSize ≤ r.len) ↔
      g = k ∧ pageSize ≤ k.len := by
    simp only [List.mem_filter, Bool.and_eq_true, decide_eq_true_eq]
    constructor
    · rintro ⟨hg, hbase, hbig⟩
      obtain rfl := base_inj hlay hk hg hbase
      exact ⟨rfl, hbig⟩
    · rintro ⟨rfl, hbig⟩
      exact ⟨hk, rfl, hbig⟩
  rw [List.mem_append, hone]
  by_cases hbig : pageSize ≤ k.len
  · simp [hbig]
  · simp [hbig]

theorem gone_of_null (live gone : List Region) (g : Region) :
    g ∈ (live.filter fun r => r.base + 8 = 0 && pageSize ≤ r.len) ++ gone ↔ g ∈ gone := by
  simp

theorem Tracks.malloc {t : History} {s : Spec} (h : Tracks t s) {n : Nat} {answers : List Nat}
    {r : Region × Spec} (hm : Spec.malloc (clamp (withHeader n)) answers s = .ok r) :
    Conserves (fun p => t.pool p || (decide (clamp (withHeader n) < pageSize) &&
      r.2.pages.used p && !s.pages.used p)) t.gone r.2 :=
  h.bytes.malloc h.reuse h.rep.heap.layout h.rep.heap.used
    (clamp_lt (Nat.mod_lt _ (Nat.two_pow_pos 64))) hm (h.rep.layout_malloc hm).1

theorem track_step {t : History} {s : Spec} {e : Event} {w' : World} (h : Tracks t s)
    (ha : Allowed t.world e) (hs : step t.world e = .ok w') :
    ∃ s', s.step e = .ok s' ∧ Tracks (t.record e w') s' := by
  obtain ⟨s', hspec, hrep'⟩ := rep_step h.rep ha (Or.inl h.reuse) hs
  refine ⟨s', hspec, hrep', (spec_step_reuse hspec).trans h.reuse, ?_⟩
  have hlay := h.rep.heap.layout
  have hpages : t.world.heap.pages = s.pages := h.rep.heap.pages
  have hpages' : w'.heap.pages = s'.pages := hrep'.heap.pages
  unfold History.record
  dsimp only
  rw [hpages, hpages', h.rep.live]
  cases spec_steps hspec with
  | malloc hm => exact (h.malloc hm).congr (fun p => rfl) (gone_of_null _ _)
  | free hk =>
    refine (h.bytes.free h.reuse h.rep.heap.used hlay hk).congr (fun p => ?_) (gone_of_live hlay hk)
    simp [Event.small]
  | fresh _ hm => exact (h.malloc hm).congr (fun p => rfl) (gone_of_null _ _)
  | nothing =>
    refine h.bytes.congr (fun p => ?_) (gone_of_null _ _)
    cases hu : s.pages.used p <;> simp
  | drop hk =>
    refine (h.bytes.free h.reuse h.rep.heap.used hlay hk).congr (fun p => ?_) (gone_of_live hlay hk)
    rw [free₁_used]
    cases hu : s.pages.used p <;> simp
  | move hk _ hm =>
    obtain ⟨hlay₁, hused₁⟩ := h.rep.layout_malloc hm
    obtain ⟨hlive₁, hreuse₁, -⟩ := malloc_live hm
    refine ((h.malloc hm).free (hreuse₁.trans h.reuse) hused₁ hlay₁
      (hlive₁ ▸ List.mem_cons_of_mem _ hk)).congr (fun p => ?_) (gone_of_live hlay hk)
    rw [free₁_used]
    rfl
  | write =>
    refine h.bytes.congr (fun p => ?_) (gone_of_null _ _)
    simp [Event.small]

theorem tracks_empty (m : Memory) :
    Tracks ⟨emptyWorld false m, fun _ => false, []⟩ (emptySpec false) := by
  refine ⟨rep_empty false m, rfl, ?_, ?_, ?_, ?_, ?_⟩
  · simp [Covered, emptySpec]
  · simp
  · simp
  · simp [Covered]
  · simp [emptySpec]

theorem tracks_of_recorded {m : Memory} {t : History} (ht : Recorded Calm m t) :
    ∃ s, Tracks t s ∧ Here s ∧ ∀ k ∈ s.live, WholePages k := by
  induction ht with
  | empty => exact ⟨_, tracks_empty m, here_empty false, by simp [emptySpec]⟩
  | step _ ha hc hs ih =>
    obtain ⟨s, htracks, hhere, hwhole⟩ := ih
    obtain ⟨s', hspec, htracks'⟩ := track_step htracks ha hs
    exact ⟨s', htracks', here_step htracks.rep hhere hwhole hc hspec,
      (spec_step_calm htracks.rep hwhole hc hspec).whole⟩

theorem Tracks.covered {t : History} {s : Spec} (h : Tracks t s) (x : Nat) :
    Covered s.free x ↔ t.FreeByte x := by
  rw [h.bytes.cover]
  unfold History.FreeByte
  rw [h.rep.live]

theorem Tracks.cells {t : History} {s : Spec} (h : Tracks t s) (hs : Here s) :
    readCells t.world.heap = .ok s.free ∧ RunsOf t.FreeByte s.free := by
  refine ⟨readCells_spec h.rep.heap hs, ?_⟩
  have hlay := h.rep.heap.layout
  exact (runsOf_covered hlay.separated fun r hr => (hlay.cell_ok hr).pos).congr h.covered

theorem readCells_congr {m m' : Memory} {t t' : History} (ht : Recorded Calm m t)
    (ht' : Recorded Calm m' t') (h : ∀ x, t.FreeByte x ↔ t'.FreeByte x) :
    readCells t.world.heap = readCells t'.world.heap := by
  obtain ⟨s, hs, hhere, -⟩ := tracks_of_recorded ht
  obtain ⟨s', hs', hhere', -⟩ := tracks_of_recorded ht'
  obtain ⟨hcells, hruns⟩ := hs.cells hhere
  obtain ⟨hcells', hruns'⟩ := hs'.cells hhere'
  rw [hcells, hcells', (hruns.congr h).unique hruns']

/-! ## Giving back -/

/-- `p` points to a live chunk whose header records less than a page. -/
def SmallBlock (w : World) (p : Nat) : Prop := ∃ k ∈ w.live, k.base + 8 = p ∧ k.len < pageSize

theorem freeByte_free {m : Memory} {t : History} (ht : Recorded Calm m t) {k : Region}
    (hk : k ∈ t.world.live) (hsmall : k.len < pageSize) :
    ∃ w', stepChecked t.world (.free (k.base + 8)) = .ok w' ∧
      Recorded Calm m (t.record (.free (k.base + 8)) w') ∧
      w'.live = lose (k.base + 8) t.world.live ∧
      ∀ x, (t.record (.free (k.base + 8)) w').FreeByte x ↔ t.FreeByte x ∨ k.Has x := by
  obtain ⟨s, htracks, hhere, -⟩ := tracks_of_recorded ht
  have hrep := htracks.rep
  have hk' : k ∈ s.live := hrep.live ▸ hk
  obtain ⟨h', hrun, -⟩ := xfreeHelper_sim hrep.heap hk' (Or.inl htracks.reuse)
  have hstep : step t.world (.free (k.base + 8)) = .ok ⟨h', lose (k.base + 8) t.world.live⟩ := by
    unfold step xfree
    dsimp only
    rw [if_neg (by omega), hrun, ok_bind]
  have hallowed : Allowed t.world (.free (k.base + 8)) := ⟨k, hk, rfl⟩
  refine ⟨_, (stepChecked_eq hrep hhere _).trans hstep, .step ht hallowed trivial hstep, rfl,
    fun x => ?_⟩
  obtain ⟨s', hspec, htracks'⟩ := track_step htracks hallowed hstep
  rw [Spec.step, find_live hrep.heap.layout hk'] at hspec
  cases hspec
  have hcells : (s.free₁ k).free = release k s.free := by
    unfold Spec.free₁
    rw [if_neg (Nat.not_le.mpr hsmall)]
  rw [← htracks'.covered, ← htracks.covered, hcells, covered_release]
  exact or_comm

/-- `xfree` of the pointers one after the other. -/
def freeAll (w : World) : List Nat → Except Fault World
  | [] => .ok w
  | p :: ps => do
    let w' ← stepChecked w (.free p)
    freeAll w' ps

theorem freeByte_freeAll {m : Memory} {t : History} (ht : Recorded Calm m t) {ps : List Nat}
    (hps : ∀ p ∈ ps, SmallBlock t.world p) (hnodup : ps.Nodup) :
    ∃ t', Recorded Calm m t' ∧ freeAll t.world ps = .ok t'.world ∧
      ∀ x, t'.FreeByte x ↔ t.FreeByte x ∨ ∃ k ∈ t.world.live, k.base + 8 ∈ ps ∧ k.Has x := by
  induction ps generalizing t with
  | nil => exact ⟨t, ht, rfl, fun x => by simp⟩
  | cons p ps ih =>
    obtain ⟨hp, hnodup'⟩ := List.nodup_cons.mp hnodup
    obtain ⟨k, hk, rfl, hsmall⟩ := hps p List.mem_cons_self
    obtain ⟨w', hstep, ht', hlive, hfree⟩ := freeByte_free ht hk hsmall
    have hrest : ∀ q ∈ ps, SmallBlock w' q := by
      intro q hq
      obtain ⟨j, hj, hjq, hjsmall⟩ := hps q (List.mem_cons_of_mem _ hq)
      refine ⟨j, ?_, hjq, hjsmall⟩
      rw [hlive]
      refine List.mem_filter.mpr ⟨hj, ?_⟩
      simp only [ne_eq, decide_eq_true_eq]
      rintro heq
      exact hp (heq ▸ hjq ▸ hq)
    obtain ⟨t', hrec, hrun, hbytes⟩ := ih ht' hrest hnodup'
    refine ⟨t', hrec, ?_, fun x => ?_⟩
    · rw [freeAll, hstep, ok_bind]
      exact hrun
    · obtain ⟨s, htracks, -, -⟩ := tracks_of_recorded ht
      have hlay := htracks.rep.heap.layout
      rw [hbytes, hfree]
      have hworld :
          (t.record (.free (k.base + 8)) w').world.live = lose (k.base + 8) t.world.live :=
        hlive
      rw [hworld]
      constructor
      · rintro ((hx | hx) | ⟨j, hj, hjps, hx⟩)
        · exact Or.inl hx
        · exact Or.inr ⟨k, hk, List.mem_cons_self, hx⟩
        · exact Or.inr ⟨j, (List.mem_filter.mp hj).1, List.mem_cons_of_mem _ hjps, hx⟩
      · rintro (hx | ⟨j, hj, hjps, hx⟩)
        · exact Or.inl (Or.inl hx)
        · rcases List.mem_cons.mp hjps with hbase | hjps
          · rw [htracks.rep.live] at hk hj
            obtain rfl := base_inj hlay hk hj hbase
            exact Or.inl (Or.inr hx)
          · refine Or.inr ⟨j, List.mem_filter.mpr ⟨hj, ?_⟩, hjps, hx⟩
            simp only [ne_eq, decide_eq_true_eq]
            intro heq
            exact hp (heq ▸ hjps)

/-- A request that the kernel is not asked for takes the bytes of its chunk. -/
theorem freeByte_malloc {m : Memory} {t : History} (ht : Recorded Calm m t) {n p : Nat}
    {answers : List Nat} {h₁ : Heap} (hn : n + 8 < 2 ^ 64)
    (hrun : xmalloc answers n t.world.heap = .ok (p, h₁)) (hpages : h₁.pages = t.world.heap.pages)
    (hsmall : (chunkAt h₁ p).len < pageSize) :
    ∃ t₁ k, Recorded Calm m t₁ ∧ t₁.world = ⟨h₁, gain h₁ p t.world.live⟩ ∧ k ∈ t₁.world.live ∧
      p = k.base + 8 ∧ k.len < pageSize ∧ ∀ x, t.FreeByte x ↔ t₁.FreeByte x ∨ k.Has x := by
  obtain ⟨s, htracks, -, -⟩ := tracks_of_recorded ht
  have hsim := xmallocHelper_sim htracks.rep.heap answers (withHeader n)
  have hrun' : xmallocHelper answers (withHeader n) t.world.heap = .ok (p, h₁) := hrun
  rw [hrun'] at hsim
  cases hm : Spec.malloc (clamp (withHeader n)) answers s with
  | error f =>
    rw [hm] at hsim
    exact absurd hsim id
  | ok r =>
    rw [hm] at hsim
    obtain ⟨hptr, hrep₁⟩ := hsim
    obtain ⟨hlive₁, -, -⟩ := malloc_live hm
    have hk : r.1 ∈ r.2.live := hlive₁ ▸ List.mem_cons_self
    have hchunk := chunkAt_header hrep₁ hk
    have hptr' : p = r.1.base + 8 := hptr
    have hstep : step t.world (.malloc n answers) = .ok ⟨h₁, gain h₁ p t.world.live⟩ := by
      simp only [step, hrun, ok_bind]
    have hgain : gain h₁ p t.world.live = r.1 :: t.world.live := by
      rw [hptr', gain_chunk hrep₁ hk]
    rw [hptr', hchunk] at hsmall
    have hcalm : Calm t.world (.malloc n answers) := calm_of_small htracks.rep hm hsmall
    refine ⟨t.record (.malloc n answers) ⟨h₁, gain h₁ p t.world.live⟩, r.1,
      .step ht hn hcalm hstep, rfl, ?_, hptr', hsmall, fun x => ?_⟩
    · show r.1 ∈ gain h₁ p t.world.live
      rw [hgain]
      exact List.mem_cons_self
    · have hallowed : Allowed t.world (.malloc n answers) := hn
      obtain ⟨s', hspec, htracks'⟩ := track_step htracks hallowed hstep
      rw [Spec.step, hm, ok_bind] at hspec
      cases hspec
      rw [← htracks.covered, ← htracks'.covered]
      have hlt : clamp (withHeader n) < 2 ^ 64 := clamp_lt (Nat.mod_lt _ (Nat.two_pow_pos 64))
      rcases malloc_cases hm with ⟨hbig, -⟩ | ⟨-, free, pages, hserves, hc, hs⟩
      · have hlen := malloc_len hlt hm
        omega
      · cases hserves with
        | hit => exact (covered_carve hc).trans or_comm
        | @miss addr _ _ _ hf =>
          -- the page would have been used before it was mapped
          exfalso
          have hmap : s.pages.map addr pageSize = s.pages := by
            have hsame : r.2.pages = s.pages := by
              rw [← hrep₁.pages, hpages, htracks.rep.heap.pages]
            rw [hs] at hsame
            exact hsame
          have hbase : Region.Has ⟨addr, pageCount pageSize * pageSize⟩ addr := by
            rw [pageCount_pageSize]
            exact has_base (show 0 < pageSize by decide)
          have hfresh := not_used_of_free htracks.reuse hf hbase
          have hused : (s.pages.map addr pageSize).used (addr / pageSize) = true := by
            show (Pages.inRange addr pageSize _ || _) = true
            rw [Pages.inRange_of_mem hf.2.1 hbase.1 hbase.2, Bool.true_or]
          rw [hmap, hfresh] at hused
          cases hused

/-- The list can be read and is that of the maximal runs of the free bytes, no
call dies of memory that is not mapped, histories with the same free bytes have
the same list, blocks of less than a page may be given back in any order, and
giving such a block back undoes the request for it, unless that mapped a page. -/
structure HistoryIndependent (C : World → Event → Prop) (t : History) : Prop where
  cells : ∃ cells, readCells t.world.heap = .ok cells ∧ RunsOf t.FreeByte cells
  mapped : ∀ e, Allowed t.world e → stepChecked t.world e = step t.world e
  same : ∀ (m' : Memory) (t' : History), Recorded C m' t' → (∀ x, t.FreeByte x ↔ t'.FreeByte x) →
    readCells t.world.heap = readCells t'.world.heap
  order : ∀ ps qs : List Nat, ps.Perm qs → ps.Nodup → (∀ p ∈ ps, SmallBlock t.world p) →
    ∃ w w', freeAll t.world ps = .ok w ∧ freeAll t.world qs = .ok w' ∧
      readCells w.heap = readCells w'.heap
  undo : ∀ n answers p h₁, n + 8 < 2 ^ 64 → xmalloc answers n t.world.heap = .ok (p, h₁) →
    h₁.pages = t.world.heap.pages → (chunkAt h₁ p).len < pageSize →
    ∃ w, stepChecked ⟨h₁, gain h₁ p t.world.live⟩ (.free p) = .ok w ∧
      readCells w.heap = readCells t.world.heap

/-- The kernel returns no address twice, and no request is served by an unsplit
cell of a page or more other than one page. -/
theorem free_list_history_independent {m : Memory} {t : History} (ht : Recorded Calm m t) :
    HistoryIndependent Calm t where
  cells := by
    obtain ⟨s, htracks, hhere, -⟩ := tracks_of_recorded ht
    exact ⟨s.free, htracks.cells hhere⟩
  mapped e _ := by
    obtain ⟨s, htracks, hhere, -⟩ := tracks_of_recorded ht
    exact stepChecked_eq htracks.rep hhere e
  same m' t' ht' h := readCells_congr ht ht' h
  order ps qs hperm hnodup hps := by
    have hqs : ∀ q ∈ qs, SmallBlock t.world q := fun q hq => hps q (hperm.mem_iff.mpr hq)
    obtain ⟨t₁, ht₁, hrun₁, hfree₁⟩ := freeByte_freeAll ht hps hnodup
    obtain ⟨t₂, ht₂, hrun₂, hfree₂⟩ := freeByte_freeAll ht hqs (hperm.nodup_iff.mp hnodup)
    refine ⟨_, _, hrun₁, hrun₂, readCells_congr ht₁ ht₂ fun x => ?_⟩
    rw [hfree₁, hfree₂]
    simp only [hperm.mem_iff]
  undo n answers p h₁ hn hrun hpages hsmall := by
    obtain ⟨t₁, k, ht₁, hworld, hk, hp, hklen, hbytes⟩ := freeByte_malloc ht hn hrun hpages hsmall
    obtain ⟨w', hstep, ht₂, -, hfree⟩ := freeByte_free ht₁ hk hklen
    subst hp
    rw [hworld] at hstep
    refine ⟨w', hstep, readCells_congr ht₂ ht fun x => ?_⟩
    rw [hfree, hbytes]

theorem recorded_of_run {C : World → Event → Prop} (ok : Spec → Event → Bool)
    (hC : ∀ {w s e}, RepWorld w s → ok s e = true → C w e) {m : Memory} {es : List Event}
    {t : History}
    {s s' : Spec} (ht : Recorded C m t) (h : Tracks t s) (hrun : s.runIf ok es = some s') :
    ∃ t', Recorded C m t' ∧ Tracks t' s' := by
  induction es generalizing t s with
  | nil =>
    cases hrun
    exact ⟨t, ht, h⟩
  | cons e es ih =>
    rw [Spec.runIf] at hrun
    split at hrun
    · next hok =>
      obtain ⟨s₁, hone, hrest⟩ := Option.bind_eq_some_iff.mp hrun
      rw [Spec.run] at hone
      split at hone
      · next hallowed =>
        have ha : Allowed t.world e := allowed_congr h.rep.live.symm hallowed
        have hsim := step_sim h.rep ha (Or.inl h.reuse)
        cases hspec : s.step e with
        | error f =>
          rw [hspec] at hone
          cases hone
        | ok s₂ =>
          rw [hspec] at hsim hone
          obtain rfl : s₂ = s₁ := Option.some.inj hone
          obtain ⟨w₁, hstep, -⟩ := agrees_ok hsim
          obtain ⟨s₃, hspec₃, htracks⟩ := track_step h ha hstep
          obtain rfl : s₂ = s₃ := by
            rw [hspec] at hspec₃
            cases hspec₃
            rfl
          exact ih (.step ht ha (hC h.rep hok) hstep) htracks hrest
      · cases hone
    · cases hrun

/-- Two blocks of one page, given back in either order. -/
theorem two_blocks_either_order :
    ∃ t, Recorded Calm (fun _ => 0) t ∧ t.world.live = [⟨65636, 1000⟩, ⟨65536, 100⟩] ∧
      ∃ w w', freeAll t.world [65544, 65644] = .ok w ∧ freeAll t.world [65644, 65544] = .ok w' ∧
        readCells w.heap = readCells w'.heap := by
  have hrun : ((emptySpec false).runIf Spec.calm [.malloc 92 [65536], .malloc 992 []]).map
      (fun s => s.live) = some [⟨65636, 1000⟩, ⟨65536, 100⟩] := by decide +kernel
  obtain ⟨s, hs, hlive⟩ := Option.map_eq_some_iff.mp hrun
  obtain ⟨t, ht, htracks⟩ := recorded_of_run Spec.calm calm_of_spec .empty
    (t := ⟨emptyWorld false fun _ => 0, fun _ => false, []⟩) (tracks_empty fun _ => 0) hs
  have hworld : t.world.live = [⟨65636, 1000⟩, ⟨65536, 100⟩] := htracks.rep.live.trans hlive
  refine ⟨t, ht, hworld, ?_⟩
  apply (free_list_history_independent ht).order [65544, 65644] [65644, 65544]
  · exact List.Perm.swap _ _ _
  · decide
  · intro p hp
    rcases List.mem_pair.mp hp with rfl | rfl
    · exact ⟨⟨65536, 100⟩, by rw [hworld]; simp, rfl, by decide⟩
    · exact ⟨⟨65636, 1000⟩, by rw [hworld]; simp, rfl, by decide⟩

/-- Freeing a block cut whole from a cell of 4106 bytes unmaps both pages under
it; the only free cell lies on the second one, and the list cannot be read. -/
theorem unmapped_cell_not_read : ¬ ∀ (m : Memory) (t : History), Recorded (fun _ _ => True) m t →
    HistoryIndependent (fun _ _ => True) t := by
  intro hclaim
  have hrun :
      ((emptySpec false).runIf (fun _ _ => true) [.malloc 2992 [65536], .malloc 1098 [69632],
      .malloc 100 [], .free 65544, .free 68544, .malloc 4082 [], .free 65544]).map
        (fun s => (s.free, s.pages.backs 69750 24)) = some ([⟨69750, 3978⟩], false) := by
        decide +kernel
  obtain ⟨s, hs, heq⟩ := Option.map_eq_some_iff.mp hrun
  obtain ⟨t, ht, htracks⟩ := recorded_of_run _ (fun _ _ => trivial) .empty
    (t := ⟨emptyWorld false fun _ => 0, fun _ => false, []⟩) (tracks_empty fun _ => 0) hs
  obtain ⟨cells, hcells, -⟩ := (hclaim _ t ht).cells
  rw [readCells_unmapped htracks.rep.heap (congrArg Prod.fst heq) (congrArg Prod.snd heq)] at hcells
  cases hcells

end Cs3650.Malloc.Hwx
