import Cs3650.Malloc.OptTrace

/-!
# The regions that `redistribute` maps stay partitioned

Every region of `HEAP_SIZE` bytes that was mapped to fill the last bin is tiled
by cells of the bins and chunks of live blocks: a request halves cells, takes
one out and makes it a block, and a block that is given back becomes a cell of
the bin its header names.
-/

namespace Cs3650.Malloc.Opt

open Cs3650.Lib Cs3650.Lib.Buddy

/-- The cells of a list, by following `next` from the pointer on. -/
def cellsFrom (m : Memory) : Nat → Nat → Option (List Nat)
  | 0, _ => none
  | fuel + 1, p =>
    if p = 0 then some [] else (cellsFrom m fuel (word m (p + 8))).map fun cs => p :: cs

def binCells (h : Heap) (i : Nat) : Option (List Nat) := cellsFrom h.mem (2 ^ 64) (h.heads i)

/-- The cells of the bins and the chunks of the live blocks, with the sizes
that are recorded in memory. -/
def pieces (h : Heap) (bins : Nat → List Nat) (blocks : List Block) : List Region :=
  ((List.range numBins).flatMap fun i => (bins i).map fun c => ⟨c, word h.mem c⟩) ++
    blocks.map fun b => ⟨b.base, word h.mem b.base⟩

/-- What an event asks for, and the address the kernel would answer with. -/
def Event.request : Event → Option (Nat × Nat)
  | .malloc n addr => some (n, addr)
  | .realloc _ n addr => some (n, addr)
  | _ => none

/-- The region that `redistribute` mapped in the event: only a request of at
most `HEAP_SIZE` bytes gets there, and it maps nothing else. -/
def newArena (e : Event) (pg pg' : Pages) : List Nat :=
  match e.request with
  | some (n, addr) =>
    if clamp (n + 8) ≤ heapSize ∧ pg.mapped (addr / pageSize) = false ∧
      pg'.mapped (addr / pageSize) = true then [addr] else []
  | none => []

/-- Worlds that a trace reaches, with the regions `redistribute` has mapped. -/
inductive Traced (m : Memory) : World → List Nat → Prop
  | empty : Traced m (emptyWorld m) []
  | step {w w' : World} {arenas : List Nat} {e : Event} (hw : Traced m w arenas)
      (ha : Allowed w e) (hs : step w e = .ok w') :
      Traced m w' (newArena e w.heap.pages w'.heap.pages ++ arenas)

structure Partitioned (w : World) (arenas : List Nat) (bins : Nat → List Nat) : Prop where
  cells : ∀ i < numBins, binCells w.heap i = some (bins i)
  size : ∀ i < numBins, ∀ c ∈ bins i, word w.heap.mem c = 2 ^ (i + 5)
  once : ((List.range numBins).flatMap bins).Nodup
  disjoint : (pieces w.heap bins w.blocks).Pairwise Region.Apart
  cover : ∀ a ∈ arenas, ∀ x, a ≤ x → x < a + heapSize → ∃ r ∈ pieces w.heap bins w.blocks, r.Has x
  aligned : ∀ a ∈ arenas, ∀ r ∈ pieces w.heap bins w.blocks,
    (∃ x, r.Has x ∧ a ≤ x ∧ x < a + heapSize) →
      (∃ j < numBins, r.len = 2 ^ (j + 5)) ∧ a ≤ r.base ∧ r.stop ≤ a + heapSize ∧
        (r.base - a) % r.len = 0

variable {h : Heap} {bins : Nat → List Nat} {blocks : List Block} {b : Block} {arenas : List Nat}

/-! ## Chunks that were cut from a region -/

def chunks (blocks : List Block) : List Region :=
  (blocks.filter fun b => b.chunk ≤ heapSize).map Block.region

theorem bin_le_heapSize {i : Nat} (hi : i < numBins) : 2 ^ (i + 5) ≤ heapSize :=
  Nat.pow_le_pow_right (n := 2) (by omega) (show i + 5 ≤ 20 by unfold numBins at hi; omega)

theorem region_of_bin {i : Nat} (hi : i < numBins) (hb : b.chunk = 2 ^ (i + 5)) :
    b.region = cell i b.base := by
  unfold Block.region cell
  rw [hb, extent_bin hi]

theorem chunks_small {i : Nat} (hi : i < numBins) (hb : b.chunk = 2 ^ (i + 5)) :
    chunks (b :: blocks) = cell i b.base :: chunks blocks := by
  have hle := bin_le_heapSize hi
  unfold chunks
  rw [List.filter_cons_of_pos (by simpa [hb] using hle), List.map_cons, region_of_bin hi hb]

theorem chunks_large (hb : heapSize < b.chunk) : chunks (b :: blocks) = chunks blocks := by
  unfold chunks
  rw [List.filter_cons_of_neg (by simpa using hb)]

theorem chunks_perm {blocks' : List Block} (hp : blocks.Perm blocks') :
    (chunks blocks).Perm (chunks blocks') :=
  (hp.filter _).map _

theorem chunks_cons_congr {b' : Block} {blocks' : List Block}
    (hb : b'.base = b.base ∧ b'.chunk = b.chunk) (h : chunks blocks' = chunks blocks) :
    chunks (b' :: blocks') = chunks (b :: blocks) := by
  have hregion : b'.region = b.region := by
    unfold Block.region
    rw [hb.1, hb.2]
  unfold chunks at h ⊢
  rw [List.filter_cons, List.filter_cons, hb.2]
  split
  · rw [List.map_cons, List.map_cons, h, hregion]
  · exact h

theorem chunks_congr {f : Block → Block} (hf : ∀ c, (f c).base = c.base ∧ (f c).chunk = c.chunk) :
    chunks (blocks.map f) = chunks blocks := by
  induction blocks with
  | nil => rfl
  | cons c blocks ih => exact chunks_cons_congr (hf c) ih

/-! ## Steps -/

theorem arena_apart (hinv : Inv h bins blocks []) {addr : Nat} (hf : h.pages.Free addr heapSize) :
    ∀ r ∈ cellsOf bins ++ chunks blocks, (block 20 addr).Apart r := by
  intro r hr
  have hlen : (⟨addr, pageCount heapSize * pageSize⟩ : Region) = block 20 addr := by
    rw [show pageCount heapSize * pageSize = 2 ^ 20 by decide]
    rfl
  have hmem : r ∈ cellsOf bins ++ (blocks.map Block.region ++ []) := by
    rw [List.append_nil]
    rcases List.mem_append.mp hr with hr | hr
    · exact List.mem_append_left _ hr
    · obtain ⟨c, hc, rfl⟩ := List.mem_map.mp hr
      exact List.mem_append_right _ (List.mem_map.mpr ⟨c, (List.mem_filter.mp hc).1, rfl⟩)
  rw [← hlen]
  exact hf.apart (hinv.spread.holds r hmem) (hinv.spread.pos r hmem).1

theorem newArena_same {e : Event} {pg pg' : Pages}
    (h : ∀ p, pg'.mapped p = true → pg.mapped p = true) : newArena e pg pg' = [] := by
  unfold newArena
  cases e.request with
  | none => rfl
  | some r =>
    refine if_neg ?_
    rintro ⟨-, hbefore, hafter⟩
    rw [h _ hafter] at hbefore
    cases hbefore

theorem newArena_large {e : Event} {pg pg' : Pages} {n addr : Nat} (he : e.request = some (n, addr))
    (hbig : heapSize < clamp (n + 8)) : newArena e pg pg' = [] := by
  unfold newArena
  rw [he]
  exact if_neg fun h => absurd h.1 (Nat.not_le.mpr hbig)

theorem newArena_map {e : Event} {pg pg' : Pages} {n addr : Nat} (he : e.request = some (n, addr))
    (hsmall : clamp (n + 8) ≤ heapSize) (hf : pg.Free addr heapSize)
    (hmap : pg'.mapped = (pg.map addr heapSize).mapped) : newArena e pg pg' = [addr] := by
  obtain ⟨hpos, halign, -, -, hfree⟩ := hf
  have hbefore : pg.mapped (addr / pageSize) = false := by
    have h0 := hfree 0 (by decide)
    unfold Pages.taken at h0
    rw [Nat.add_zero] at h0
    exact (Bool.or_eq_false_iff.mp h0).1
  have hafter : pg'.mapped (addr / pageSize) = true := by
    rw [hmap]
    show (Pages.inRange addr heapSize (addr / pageSize) || _) = true
    rw [Pages.inRange_of_mem halign (Nat.le_refl addr) (Nat.lt_add_of_pos_right (by decide)),
      Bool.true_or]
  unfold newArena
  rw [he]
  exact if_pos ⟨hsmall, hbefore, hafter⟩

theorem tile_malloc {h' : Heap} {bins' : Nat → List Nat} {n addr base len : Nat} {e : Event}
    (he : e.request = some (n, addr)) (hinv : Inv h bins blocks [])
    (ht : Tiling 5 20 arenas (cellsOf bins ++ chunks blocks))
    (hserved : Served addr (n + 8) h h' bins bins' base len) (hb : b.base = base ∧ b.chunk = len) :
    Tiling 5 20 (newArena e h.pages h'.pages ++ arenas)
      (cellsOf bins' ++ chunks (b :: blocks)) := by
  obtain ⟨rfl, rfl⟩ := hb
  rcases hserved with ⟨hbig, hlen, hcells⟩ | ⟨hsmall, i, hi, hlen, hrefilled⟩
  · rw [newArena_large he hbig, chunks_large (hlen ▸ hbig), hcells]
    exact ht
  · have hperm : (cell i b.base :: cellsOf bins' ++ chunks blocks).Perm
        (cellsOf bins' ++ chunks (b :: blocks)) := by
      rw [chunks_small hi hlen]
      exact List.perm_middle.symm
    rcases hrefilled with ⟨hpages, hhalves⟩ | ⟨hf, hpages, hhalves⟩
    · rw [newArena_same (fun p hp => hpages ▸ hp)]
      exact (ht.halves (hhalves.append (chunks blocks))).perm hperm
    · rw [newArena_map he hsmall hf (by rw [hpages])]
      have hmore := ht.arena (by omega) (arena_apart hinv hf)
      exact (hmore.halves (hhalves.append (chunks blocks))).perm hperm

/-- A chunk that is given back is a cell again, or had pages of its own. -/
theorem tile_free {h' : Heap} {bins' : Nat → List Nat}
    (ht : Tiling 5 20 arenas (cellsOf bins ++ chunks (b :: blocks)))
    (hback : GivenBack b h h' bins bins') :
    Tiling 5 20 arenas (cellsOf bins' ++ chunks blocks) := by
  rcases hback with ⟨hbig, -, hcells⟩ | ⟨i, hi, hlen, -, hcells⟩
  · rw [chunks_large hbig] at ht
    rw [hcells]
    exact ht
  · rw [chunks_small hi hlen] at ht
    exact ht.perm (List.perm_middle.trans (hcells.symm.append_right _))

theorem mapped_of_givenBack {h' : Heap} {bins' : Nat → List Nat}
    (hback : GivenBack b h h' bins bins') :
    ∀ p, h'.pages.mapped p = true → h.pages.mapped p = true := by
  intro p hp
  rcases hback with ⟨-, hpages, -⟩ | ⟨i, -, -, hpages, -⟩
  · rw [hpages] at hp
    unfold Pages.munmap at hp
    dsimp only at hp
    split at hp
    · exact (Bool.and_eq_true_iff.mp hp).2
    · exact hp
  · rw [hpages] at hp
    exact hp

/-- The invariant of traces. -/
def Tiled (w : World) (arenas : List Nat) : Prop :=
  ∃ bins, Inv w.heap bins w.blocks [] ∧ Tiling 5 20 arenas (cellsOf bins ++ chunks w.blocks)

theorem tiled_malloc {w w' : World} (ht : Tiled w arenas) {n addr : Nat} (hn : n + 8 < 2 ^ 64)
    (hs : step w (.malloc n addr) = .ok w') :
    Tiled w' (newArena (.malloc n addr) w.heap.pages w'.heap.pages ++ arenas) := by
  obtain ⟨bins, hinv, htile⟩ := ht
  unfold step xmalloc at hs
  dsimp only at hs
  rw [Nat.mod_eq_of_lt hn] at hs
  rcases xmallocHelper_spec hinv addr hn with
    ⟨base, len, h', bins', hrun, hfresh, hserved⟩ | ⟨hrun, -⟩
  · rw [hrun, ok_bind] at hs
    cases hs
    exact ⟨bins', hfresh.block (Nat.le_refl _) (by simp),
      tile_malloc rfl hinv htile hserved ⟨rfl, hfresh.header⟩⟩
  · rw [hrun, error_bind] at hs
    cases hs

theorem tiled_free {w : World} (ht : Tiled w arenas) (hb : b ∈ w.blocks) {e : Event} :
    ∃ h', xfreeHelper w.heap b.ptr = .ok h' ∧
      Tiled ⟨h', without b.ptr w.blocks⟩ (newArena e w.heap.pages h'.pages ++ arenas) := by
  obtain ⟨bins, hinv, htile⟩ := ht
  obtain ⟨h', bins', hrun, hinv', hback⟩ := free_outcome hinv hb
  have hfront := htile.perm ((chunks_perm (without_perm hinv hb)).append_left _)
  refine ⟨h', hrun, bins', hinv', ?_⟩
  rw [newArena_same (mapped_of_givenBack hback)]
  exact tile_free hfront hback

theorem tiled_move {w : World} {bins : Nat → List Nat} (hinv : Inv w.heap bins w.blocks [])
    (ht : Tiling 5 20 arenas (cellsOf bins ++ chunks w.blocks)) (hb : b ∈ w.blocks)
    {n addr base len : Nat} {h₁ : Heap} {bins₁ : Nat → List Nat} (hbig : b.chunk < n + 8)
    (hfresh : Fresh h₁ bins₁ w.blocks base len (n + 8))
    (hserved : Served addr (n + 8) w.heap h₁ bins bins₁ base len) :
    ∃ h', xfreeHelper
      { h₁ with mem := copy h₁.mem ((base + 8 : Nat) : Int) b.ptr (b.chunk - 8) } b.ptr =
        .ok h' ∧
      Tiled ⟨h', blockAt h' (base + 8) n (carried b n) :: without b.ptr w.blocks⟩
        (newArena (.realloc b.ptr n addr) w.heap.pages h'.pages ++ arenas) := by
  have hinv₁ : Inv h₁ bins₁ w.blocks [] :=
    ⟨hfresh.inv.chain, hfresh.inv.spread_front.tail.perm (by simp), hfresh.inv.block⟩
  obtain ⟨h', bins', hfree, hinv', hchunk, hback⟩ := realloc_move hinv₁ hb hbig hfresh
  refine ⟨h', hfree, bins', hinv', ?_⟩
  set b' := blockAt h' (base + 8) n (carried b n) with hb'
  have hmalloc := tile_malloc (e := .realloc b.ptr n addr) rfl hinv ht hserved
    (b := b') ⟨rfl, hchunk⟩
  have hperm : (b' :: w.blocks).Perm (b :: b' :: without b.ptr w.blocks) :=
    ((without_perm hinv hb).cons b').trans (List.Perm.swap _ _ _)
  have hback' := tile_free (hmalloc.perm ((chunks_perm hperm).append_left _)) hback
  -- pages are unmapped only when the request was too large for a bin
  have hsame : newArena (.realloc b.ptr n addr) w.heap.pages h'.pages =
      newArena (.realloc b.ptr n addr) w.heap.pages h₁.pages := by
    rcases hback with ⟨hlarge, -, -⟩ | ⟨-, -, -, hpages, -⟩
    · have hclamp : heapSize < clamp (n + 8) := by
        unfold clamp
        split <;> omega
      rw [newArena_large rfl hclamp, newArena_large rfl hclamp]
    · rw [hpages]
  rw [hsame]
  exact hback'

theorem tiled_realloc {w w' : World} (ht : Tiled w arenas) (hb : b ∈ w.blocks) {n addr : Nat}
    (hn : n + 8 < 2 ^ 64) (hs : step w (.realloc b.ptr n addr) = .ok w') :
    Tiled w' (newArena (.realloc b.ptr n addr) w.heap.pages w'.heap.pages ++ arenas) := by
  obtain ⟨bins, hinv, htile⟩ := ht
  have hptr : b.ptr ≠ 0 := Nat.succ_ne_zero (b.base + 7)
  have hheader : word w.heap.mem (b.ptr - 8) = b.chunk := (hinv.block b hb).header
  unfold step xrealloc xreallocHelper at hs
  dsimp only at hs
  rw [if_neg hptr, hheader, Nat.mod_eq_of_lt hn, find_block hinv hb] at hs
  by_cases hn0 : n = 0
  · obtain ⟨h', hrun, hfree⟩ :=
      tiled_free ⟨bins, hinv, htile⟩ hb (e := .realloc b.ptr n addr)
    rw [if_pos hn0, hrun, ok_bind, ok_bind] at hs
    dsimp only at hs
    rw [if_pos hn0] at hs
    cases hs
    exact hfree
  · rw [if_neg hn0] at hs
    by_cases hfit : n + 8 ≤ b.chunk
    · rw [if_pos hfit, ok_bind] at hs
      dsimp only at hs
      rw [if_neg hn0] at hs
      cases hs
      refine ⟨bins, realloc_in_place hinv hb hfit, ?_⟩
      have hregion : chunks (blockAt w.heap b.ptr n (carried b n) :: without b.ptr w.blocks) =
          chunks (b :: without b.ptr w.blocks) :=
        chunks_cons_congr ⟨Nat.add_sub_cancel .., hheader⟩ rfl
      rw [newArena_same fun p hp => hp, hregion]
      exact htile.perm ((chunks_perm (without_perm hinv hb)).append_left _)
    · rw [if_neg hfit] at hs
      rcases xmallocHelper_spec hinv addr hn with
        ⟨base, len, h₁, bins₁, hrun, hfresh, hserved⟩ | ⟨hrun, -⟩
      · obtain ⟨h', hfree, hmove⟩ :=
          tiled_move hinv htile hb (Nat.lt_of_not_le hfit) hfresh hserved
        rw [hrun, ok_bind] at hs
        dsimp only at hs
        rw [hfree, ok_bind, ok_bind] at hs
        dsimp only at hs
        rw [if_neg hn0] at hs
        cases hs
        exact hmove
      · rw [hrun, error_bind, error_bind] at hs
        cases hs

theorem tiled_step {w w' : World} (ht : Tiled w arenas) {e : Event} (ha : Allowed w e)
    (hs : step w e = .ok w') : Tiled w' (newArena e w.heap.pages w'.heap.pages ++ arenas) := by
  cases e with
  | malloc n addr => exact tiled_malloc ht ha hs
  | free p =>
    obtain ⟨b, hb, rfl⟩ := ha
    obtain ⟨h', hrun, hfree⟩ := tiled_free ht hb (e := .free b.ptr)
    unfold step xfree at hs
    dsimp only at hs
    rw [hrun, ok_bind] at hs
    cases hs
    exact hfree
  | realloc p n addr =>
    obtain ⟨hn, rfl | ⟨b, hb, rfl⟩⟩ := ha
    · exact @tiled_malloc _ w _ ht n addr hn (step_realloc_null w n addr ▸ hs)
    · exact tiled_realloc ht hb hn hs
  | write p off v =>
    obtain ⟨b, hb, rfl, hoff⟩ := ha
    cases hs
    obtain ⟨bins, hinv, htile⟩ := ht
    refine ⟨bins, write_spec hinv hb hoff v, ?_⟩
    have hchunks := @chunks_congr w.blocks _ fun c => by
      show (if c.ptr = b.ptr then { c with data := Function.update c.data off (some v) }
          else c).base =
        c.base ∧ _
      split <;> exact ⟨rfl, rfl⟩
    show Tiling 5 20 arenas (cellsOf bins ++ chunks (w.blocks.map _))
    rw [hchunks]
    exact htile

theorem tiled_of_traced {m : Memory} {w : World} (hw : Traced m w arenas) : Tiled w arenas := by
  induction hw with
  | empty =>
    refine ⟨_, inv_empty m, ?_⟩
    have hnil : cellsOf (fun _ => []) ++ chunks (emptyWorld m).blocks = [] := by
      simp [cellsOf, chunks, emptyWorld]
    rw [hnil]
    exact .nil
  | step _ ha hs ih => exact tiled_step ih ha hs

/-! ## What the invariant says of the lists -/

theorem cellsFrom_of_chain {m : Memory} {size : Nat} {cs : List Nat} (fuel : Nat) {p : Nat}
    (hc : Chain m size p cs) (hpos : ∀ c ∈ cs, c ≠ 0) (hlen : cs.length < fuel) :
    cellsFrom m fuel p = some cs := by
  induction cs generalizing fuel p with
  | nil =>
    obtain ⟨fuel, rfl⟩ := Nat.exists_eq_succ_of_ne_zero (Nat.ne_of_gt hlen)
    exact if_pos hc
  | cons c cs ih =>
    obtain ⟨fuel, rfl⟩ := Nat.exists_eq_succ_of_ne_zero (Nat.ne_of_gt (Nat.zero_lt_of_lt hlen))
    obtain ⟨rfl, -, hrest⟩ := hc
    have hne := hpos p List.mem_cons_self
    have htail := ih fuel hrest (fun d hd => hpos d (List.mem_cons_of_mem _ hd))
      (Nat.lt_of_succ_lt_succ hlen)
    unfold cellsFrom
    rw [if_neg hne, htail]
    rfl

theorem bases_eq (bins : Nat → List Nat) :
    (List.range numBins).flatMap bins = (cellsOf bins).map Region.base := by
  unfold cellsOf
  rw [List.map_flatMap]
  refine List.flatMap_congr fun i _ => ?_
  rw [List.map_map]
  exact (List.map_id _).symm

theorem bases_nodup (hinv : Inv h bins blocks []) : ((List.range numBins).flatMap bins).Nodup := by
  have hcells := (List.pairwise_append.mp hinv.spread.apart).1
  have hpos : ∀ r ∈ cellsOf bins, 0 < r.len := fun r hr =>
    (hinv.spread.pos r (List.mem_append_left _ hr)).1
  rw [bases_eq]
  refine List.pairwise_map.mpr (hcells.imp_of_mem fun {r s} hr hs hrs heq => ?_)
  have h1 := hpos r hr
  have h2 := hpos s hs
  unfold Region.Apart Region.stop at hrs
  omega

theorem cell_in_space (hinv : Inv h bins blocks []) {i c : Nat} (hi : i < numBins)
    (hc : c ∈ bins i) : 0 < c ∧ c < 2 ^ 64 - 1 := by
  have hpos := hinv.spread.pos _ (List.mem_append_left _ (mem_cellsOf hi hc))
  unfold cell Region.stop at hpos
  dsimp only at hpos
  omega

theorem bin_length (hinv : Inv h bins blocks []) {i : Nat} (hi : i < numBins) :
    (bins i).length < 2 ^ 64 := by
  have hnodup := (List.nodup_flatMap.mp (bases_nodup hinv)).1 i (List.mem_range.mpr hi)
  have hsub := List.subperm_of_subset hnodup fun c hc =>
    List.mem_range.mpr (cell_in_space hinv hi hc).2
  have hle := hsub.length_le
  rw [List.length_range] at hle
  omega

theorem chain_size {m : Memory} {size p : Nat} {cs : List Nat} (hc : Chain m size p cs) :
    ∀ c ∈ cs, word m c = size := by
  induction cs generalizing p with
  | nil => exact fun c hc => absurd hc List.not_mem_nil
  | cons d cs ih =>
    obtain ⟨-, hword, hrest⟩ := hc
    exact List.forall_mem_cons.mpr ⟨hword, ih hrest⟩

theorem pieces_eq (hinv : Inv h bins blocks []) :
    pieces h bins blocks = cellsOf bins ++ blocks.map fun b => ⟨b.base, b.chunk⟩ := by
  have hcells : ((List.range numBins).flatMap fun i => (bins i).map fun c =>
      (⟨c, word h.mem c⟩ : Region)) = cellsOf bins := by
    refine List.flatMap_congr fun i hi => List.map_congr_left fun c hc => ?_
    rw [chain_size (hinv.chain i (List.mem_range.mp hi)) c hc]
    rfl
  have hblocks : (blocks.map fun b => (⟨b.base, word h.mem b.base⟩ : Region)) =
      blocks.map fun b => ⟨b.base, b.chunk⟩ :=
    List.map_congr_left fun b hb => by rw [(hinv.block b hb).header]
  unfold pieces
  rw [hcells, hblocks]

theorem chunk_within (b : Block) : Region.Within ⟨b.base, b.chunk⟩ b.region :=
  ⟨Nat.le_refl _, Nat.add_le_add_left (le_extent b.chunk) b.base⟩

theorem pieces_apart (hinv : Inv h bins blocks []) :
    (pieces h bins blocks).Pairwise Region.Apart := by
  rw [pieces_eq hinv]
  obtain ⟨hcells, hmid, hcross⟩ := List.pairwise_append.mp hinv.spread.apart
  rw [List.append_nil] at hmid hcross
  refine List.pairwise_append.mpr ⟨hcells, ?_, fun r hr s hs => ?_⟩
  · refine List.pairwise_map.mpr ((List.pairwise_map.mp hmid).imp fun {b c} hbc => ?_)
    exact ((hbc.within (chunk_within c)).symm.within (chunk_within b)).symm
  · obtain ⟨b, hb, rfl⟩ := List.mem_map.mp hs
    exact (hcross r hr b.region (List.mem_map.mpr ⟨b, hb, rfl⟩)).within (chunk_within b)

/-- A piece of the tiling is a cell, or the chunk of a block that was cut from a region. -/
theorem mem_pieces_of_tile (hinv : Inv h bins blocks []) {r : Region}
    (hr : r ∈ cellsOf bins ++ chunks blocks) : r ∈ pieces h bins blocks := by
  rw [pieces_eq hinv]
  rcases List.mem_append.mp hr with hr | hr
  · exact List.mem_append_left _ hr
  · obtain ⟨b, hb, rfl⟩ := List.mem_map.mp hr
    obtain ⟨hb, hle⟩ := List.mem_filter.mp hb
    refine List.mem_append_right _ (List.mem_map.mpr ⟨b, hb, ?_⟩)
    unfold Block.region extent
    rw [if_neg (Nat.not_lt.mpr (by simpa using hle))]

theorem large_outside (hinv : Inv h bins blocks [])
    (ht : Tiling 5 20 arenas (cellsOf bins ++ chunks blocks)) (hb : b ∈ blocks)
    (hlarge : heapSize < b.chunk) {a x : Nat} (ha : a ∈ arenas) (hx : (block 20 a).Has x) :
    ¬ Region.Has ⟨b.base, b.chunk⟩ x := by
  intro hbx
  obtain ⟨r, hr, hrx⟩ := ht.cover a ha x hx
  have hapart : r.Apart b.region := by
    rcases List.mem_append.mp hr with hr | hr
    · have hcross := (List.pairwise_append.mp hinv.spread.apart).2.2
      exact hcross r hr _ (List.mem_append_left _ (List.mem_map.mpr ⟨b, hb, rfl⟩))
    · obtain ⟨c, hc, rfl⟩ := List.mem_map.mp hr
      obtain ⟨hc, hle⟩ := List.mem_filter.mp hc
      have hsymm : Std.Symm fun b c : Block => b.region.Apart c.region := ⟨fun _ _ h => h.symm⟩
      refine (blocks_apart hinv).forall hc hb ?_
      rintro rfl
      exact absurd (by simpa using hle) (Nat.not_le.mpr hlarge)
  have hwithin := chunk_within b
  unfold Region.Apart Region.Within at *
  unfold Region.Has at *
  omega

theorem piece_aligned (hinv : Inv h bins blocks [])
    (ht : Tiling 5 20 arenas (cellsOf bins ++ chunks blocks)) {a x : Nat} {r : Region}
    (ha : a ∈ arenas) (hr : r ∈ pieces h bins blocks) (hrx : r.Has x) (hx : (block 20 a).Has x) :
    AlignedIn 5 20 a r := by
  have htile : r ∈ cellsOf bins ++ chunks blocks := by
    rw [pieces_eq hinv] at hr
    rcases List.mem_append.mp hr with hr | hr
    · exact List.mem_append_left _ hr
    · obtain ⟨b, hb, rfl⟩ := List.mem_map.mp hr
      have hle : b.chunk ≤ heapSize := by
        by_contra hlarge
        exact large_outside hinv ht hb (Nat.lt_of_not_le hlarge) ha hx hrx
      refine List.mem_append_right _ (List.mem_map.mpr
        ⟨b, List.mem_filter.mpr ⟨hb, by simpa using hle⟩, ?_⟩)
      unfold Block.region extent
      rw [if_neg (Nat.not_lt.mpr hle)]
  obtain ⟨a', ha', haligned⟩ := ht.aligned r htile
  have hsame : a = a' := by
    by_contra hne
    have hsymm : Std.Symm fun a b => (block 20 a).Apart (block 20 b) := ⟨fun _ _ h => h.symm⟩
    have hapart := ht.apart.forall ha ha' hne
    have hinside := haligned.inside
    unfold Region.Apart Region.Has Region.stop block at *
    dsimp only at *
    omega
  rw [hsame]
  exact haligned

/-- After any trace the cells of the bins and the chunks of the live blocks
partition each region that `redistribute` has mapped, aligned to their sizes. -/
theorem regions_partitioned {m : Memory} {w : World} {arenas : List Nat}
    (hw : Traced m w arenas) : ∃ bins, Partitioned w arenas bins := by
  obtain ⟨bins, hinv, htile⟩ := tiled_of_traced hw
  refine ⟨bins, ?_, ?_, bases_nodup hinv, pieces_apart hinv, ?_, ?_⟩
  · intro i hi
    exact cellsFrom_of_chain _ (hinv.chain i hi)
      (fun c hc => Nat.ne_of_gt (cell_in_space hinv hi hc).1) (bin_length hinv hi)
  · exact fun i hi => chain_size (hinv.chain i hi)
  · intro a ha x hlo hhi
    obtain ⟨r, hr, hrx⟩ := htile.cover a ha x ⟨hlo, hhi⟩
    exact ⟨r, mem_pieces_of_tile hinv hr, hrx⟩
  · rintro a ha r hr ⟨x, hrx, hlo, hhi⟩
    obtain ⟨⟨k, hk, hkn, hlen⟩, ⟨hbase, hstop⟩, hoffset⟩ :=
      piece_aligned hinv htile ha hr hrx ⟨hlo, hhi⟩
    obtain ⟨j, rfl⟩ := Nat.exists_eq_add_of_le' hk
    exact ⟨⟨j, by unfold numBins; omega, hlen⟩, hbase, hstop, hoffset⟩

/-- Ten bytes are cut from a region at 1 MiB. -/
theorem ten_bytes_partitioned :
    ∃ w bins, Traced (fun _ => 0) w [1048576] ∧ Partitioned w [1048576] bins := by
  have ha : Allowed (emptyWorld fun _ => 0) (.malloc 10 1048576) := by
    show 10 + 8 < 2 ^ 64
    omega
  have hmapped : (match step (emptyWorld fun _ => 0) (.malloc 10 1048576) with
      | .ok w => w.heap.pages.mapped (1048576 / pageSize)
      | .error _ => false) = true := by
    decide +kernel
  cases hs : step (emptyWorld fun _ => 0) (.malloc 10 1048576) with
  | error e =>
    rw [hs] at hmapped
    cases hmapped
  | ok w =>
    rw [hs] at hmapped
    have hw := Traced.step .empty ha hs
    have hnew : newArena (.malloc 10 1048576) (emptyWorld fun _ => 0).heap.pages w.heap.pages =
        [1048576] :=
      if_pos ⟨by decide, rfl, hmapped⟩
    rw [hnew] at hw
    obtain ⟨bins, hpart⟩ := regions_partitioned hw
    exact ⟨w, bins, hw, hpart⟩

end Cs3650.Malloc.Opt
