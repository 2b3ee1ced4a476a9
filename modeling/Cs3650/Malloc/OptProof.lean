import Cs3650.Lib.Buckets
import Cs3650.Lib.Buddy
import Cs3650.Malloc.OptMalloc
import Mathlib.Data.List.Perm.Basic
import Mathlib.Data.List.Range
import Mathlib.Logic.Function.Basic

/-!
# No bin operation touches a live block

The invariant `Inv` accounts for every byte the allocator owns: the cells of
the bins, the extents of the live blocks, and a list of regions in transit,
which belong to nobody while a call is under way. Only regions in transit are
written, so headers and contents of live blocks survive.
-/

namespace Cs3650.Malloc.Opt

open Cs3650.Lib Cs3650.Lib.Buddy

/-- The cells `cs`, all of `size` bytes, are linked from the pointer `p` on. -/
def Chain (m : Memory) (size : Nat) : Nat → List Nat → Prop
  | p, [] => p = 0
  | p, c :: cs => p = c ∧ word m c = size ∧ Chain m size (word m (c + 8)) cs

def cell (i c : Nat) : Region := ⟨c, 2 ^ (i + 5)⟩

def cellsOf (bins : Nat → List Nat) : List Region :=
  (List.range numBins).flatMap fun i => (bins i).map (cell i)

/-- The bytes a chunk occupies: a large one fills its pages. -/
def extent (len : Nat) : Nat := if heapSize < len then pageCount len * pageSize else len

def Block.region (b : Block) : Region := ⟨b.base, extent b.chunk⟩

/-- Sizes that a header can hold: a whole mapping or the size of a bin. -/
def ChunkSize (len : Nat) (base : Nat) : Prop :=
  (heapSize < len ∧ base % pageSize = 0) ∨ ∃ i < numBins, len = 2 ^ (i + 5)

structure BlockOk (m : Memory) (b : Block) : Prop where
  header : word m b.base = b.chunk
  fits : b.size + 8 ≤ b.chunk
  kind : ChunkSize b.chunk b.base
  data : ∀ off < b.size, ∀ v, b.data off = some v → m ((b.ptr + off : Nat) : Int) = v

structure Inv (h : Heap) (bins : Nat → List Nat) (blocks : List Block) (extra : List Region) :
    Prop where
  chain : ∀ i < numBins, Chain h.mem (2 ^ (i + 5)) (h.heads i) (bins i)
  spread : Spread h.pages (cellsOf bins ++ (blocks.map Block.region ++ extra))
  block : ∀ b ∈ blocks, BlockOk h.mem b

theorem pow_bin_ge (i : Nat) : 32 ≤ 2 ^ (i + 5) := by
  have h := Nat.pow_le_pow_right (n := 2) (by omega) (show 5 ≤ i + 5 by omega)
  simpa using h

theorem le_extent (len : Nat) : len ≤ extent len := by
  unfold extent pageCount pageSize
  split <;> omega

theorem extent_bin {i : Nat} (hi : i < numBins) : extent (2 ^ (i + 5)) = 2 ^ (i + 5) := by
  have hle : 2 ^ (i + 5) ≤ 2 ^ 20 :=
    Nat.pow_le_pow_right (by omega) (by unfold numBins at hi; omega)
  unfold extent heapSize
  rw [if_neg (by omega)]

/-! ## Bins -/

theorem cellsOf_push (bins : Nat → List Nat) {i : Nat} (hi : i < numBins) (c : Nat)
    (cs : List Nat) :
    (cellsOf (Function.update bins i (c :: cs))).Perm
      (cell i c :: cellsOf (Function.update bins i cs)) := by
  apply flatMap_cons_perm (List.mem_range.mpr hi) List.nodup_range
  · simp
  · intro j _ hj
    simp [Function.update_of_ne hj]

theorem cellsOf_insert (bins : Nat → List Nat) {i : Nat} (hi : i < numBins) (c : Nat) :
    (cellsOf (Function.update bins i (c :: bins i))).Perm (cell i c :: cellsOf bins) := by
  have hpush := cellsOf_push bins hi c (bins i)
  rwa [Function.update_eq_self] at hpush

theorem cellsOf_pop {bins : Nat → List Nat} {i : Nat} (hi : i < numBins) {c : Nat}
    {cs : List Nat} (hbin : bins i = c :: cs) :
    (cellsOf bins).Perm (cell i c :: cellsOf (Function.update bins i cs)) := by
  have hpush := cellsOf_push bins hi c cs
  rwa [← hbin, Function.update_eq_self] at hpush

theorem mem_cellsOf {bins : Nat → List Nat} {i c : Nat} (hi : i < numBins) (hc : c ∈ bins i) :
    cell i c ∈ cellsOf bins :=
  List.mem_flatMap.mpr ⟨i, List.mem_range.mpr hi, List.mem_map.mpr ⟨c, hc, rfl⟩⟩

theorem Chain.frame {m m' : Memory} {L : List Region} (hu : UnchangedOff L m m') {i p : Nat}
    {cs : List Nat} (hL : ∀ c ∈ cs, ∀ r ∈ L, r.Apart (cell i c))
    (h : Chain m (2 ^ (i + 5)) p cs) : Chain m' (2 ^ (i + 5)) p cs := by
  have hsize := pow_bin_ge i
  induction cs generalizing p with
  | nil => exact h
  | cons c cs ih =>
    obtain ⟨hp, hword, hrest⟩ := h
    have hc := hL c List.mem_cons_self
    have h0 : word m' c = word m c :=
      hu.word hc (Nat.le_refl _) (by unfold cell Region.stop; dsimp only; omega)
    have h8 : word m' (c + 8) = word m (c + 8) :=
      hu.word hc (by unfold cell; dsimp only; omega) (by unfold cell Region.stop; dsimp only; omega)
    exact ⟨hp, h0.trans hword, h8.symm ▸ ih (fun d hd => hL d (List.mem_cons_of_mem _ hd)) hrest⟩

theorem BlockOk.frame {m m' : Memory} {L : List Region} (hu : UnchangedOff L m m') {b : Block}
    (hL : ∀ r ∈ L, r.Apart b.region) (h : BlockOk m b) : BlockOk m' b := by
  have hfits := h.fits
  have hext := le_extent b.chunk
  refine ⟨?_, h.fits, h.kind, fun off hoff v hv => ?_⟩
  · rw [← h.header]
    exact hu.word hL (Nat.le_refl _) (by unfold Block.region Region.stop; dsimp only; omega)
  · rw [← h.data off hoff v hv]
    apply hu.apply hL
    unfold Block.region Region.Contains Region.stop Block.ptr
    dsimp only
    omega

namespace Inv

variable {h : Heap} {bins : Nat → List Nat} {blocks : List Block} {extra extra' : List Region}

/-- Regions in transit may be written. -/
theorem scribble (hinv : Inv h bins blocks extra) {m' : Memory} {L : List Region}
    (hu : UnchangedOff L h.mem m') (hL : ∀ r ∈ L, ∃ s ∈ extra, r.Within s) :
    Inv { h with mem := m' } bins blocks extra := by
  have hu' : UnchangedOff extra h.mem m' := hu.mono hL
  obtain ⟨-, hmid, hcells⟩ := List.pairwise_append.mp hinv.spread.apart
  obtain ⟨-, -, hblocks⟩ := List.pairwise_append.mp hmid
  refine ⟨fun i hi => (hinv.chain i hi).frame hu' ?_, hinv.spread, fun b hb => ?_⟩
  · intro c hc r hr
    exact (hcells _ (mem_cellsOf hi hc) r (List.mem_append_right _ hr)).symm
  · apply (hinv.block b hb).frame hu'
    intro r hr
    exact (hblocks _ (List.mem_map.mpr ⟨b, hb, rfl⟩) r hr).symm

theorem perm_extra (hinv : Inv h bins blocks extra) (hp : extra.Perm extra') :
    Inv h bins blocks extra' :=
  ⟨hinv.chain, hinv.spread.perm ((hp.append_left _).append_left _), hinv.block⟩

theorem perm_blocks {blocks' : List Block} (hinv : Inv h bins blocks extra)
    (hp : blocks.Perm blocks') : Inv h bins blocks' extra :=
  ⟨hinv.chain, hinv.spread.perm (((hp.map _).append_right _).append_left _),
    fun b hb => hinv.block b (hp.symm.subset hb)⟩

theorem extra_spread (hinv : Inv h bins blocks extra) : Spread h.pages extra := by
  have hsub : extra.Sublist (cellsOf bins ++ (blocks.map Block.region ++ extra)) :=
    (List.sublist_append_right _ _).trans (List.sublist_append_right _ _)
  exact ⟨hinv.spread.apart.sublist hsub, fun r hr => hinv.spread.pos r (hsub.subset hr),
    fun r hr => hinv.spread.holds r (hsub.subset hr)⟩

/-- Change which regions are in transit, given that the whole stays spread out. -/
theorem with_extra (hinv : Inv h bins blocks extra)
    (hs : Spread h.pages (extra' ++ (cellsOf bins ++ blocks.map Block.region))) :
    Inv h bins blocks extra' := by
  refine ⟨hinv.chain, hs.perm ?_, hinv.block⟩
  rw [← List.append_assoc (cellsOf bins)]
  exact List.perm_append_comm

theorem spread_front (hinv : Inv h bins blocks extra) :
    Spread h.pages (extra ++ (cellsOf bins ++ blocks.map Block.region)) := by
  refine hinv.spread.perm ?_
  rw [← List.append_assoc (cellsOf bins)]
  exact List.perm_append_comm

theorem link {i c : Nat} (hinv : Inv h bins blocks (cell i c :: extra)) (hi : i < numBins)
    (hsize : word h.mem c = 2 ^ (i + 5))
    (hnext : Chain h.mem (2 ^ (i + 5)) (word h.mem (c + 8)) (bins i)) :
    Inv { h with heads := Function.update h.heads i c } (Function.update bins i (c :: bins i))
      blocks extra := by
  refine ⟨fun j hj => ?_, ?_, hinv.block⟩
  · by_cases hji : j = i
    · subst hji
      simp only [Function.update_self]
      exact ⟨rfl, hsize, hnext⟩
    · simp only [Function.update_of_ne hji]
      exact hinv.chain j hj
  · refine hinv.spread.perm (List.Perm.trans ?_ ((cellsOf_insert bins hi c).symm.append_right _))
    have hmove : (cellsOf bins ++ (blocks.map Block.region ++ cell i c :: extra)).Perm
        (cellsOf bins ++ cell i c :: (blocks.map Block.region ++ extra)) :=
      List.perm_middle.append_left _
    exact hmove.trans List.perm_middle

theorem unlink {i c : Nat} {cs : List Nat} (hinv : Inv h bins blocks extra) (hi : i < numBins)
    (hbin : bins i = c :: cs) :
    Inv { h with heads := Function.update h.heads i (word h.mem (c + 8)) }
      (Function.update bins i cs) blocks (cell i c :: extra) := by
  have hchain := hinv.chain i hi
  rw [hbin] at hchain
  refine ⟨fun j hj => ?_, ?_, hinv.block⟩
  · by_cases hji : j = i
    · subst hji
      simp only [Function.update_self]
      exact hchain.2.2
    · simp only [Function.update_of_ne hji]
      exact hinv.chain j hj
  · refine hinv.spread.perm (((cellsOf_pop hi hbin).append_right _).trans ?_)
    have hmove : (cellsOf (Function.update bins i cs) ++
        cell i c :: (blocks.map Block.region ++ extra)).Perm
        (cellsOf (Function.update bins i cs) ++ (blocks.map Block.region ++ cell i c :: extra)) :=
      List.perm_middle.symm.append_left _
    exact List.perm_middle.symm.trans hmove

theorem map (hinv : Inv h bins blocks extra) {a len : Nat} (hf : h.pages.Free a len) {m' : Memory}
    (hu : UnchangedOff [⟨a, pageCount len * pageSize⟩] h.mem m') :
    Inv ⟨m', h.heads, h.pages.map a len⟩ bins blocks (⟨a, pageCount len * pageSize⟩ :: extra) := by
  have hs := hinv.spread_front.map hf
  have hinv' : Inv ⟨h.mem, h.heads, h.pages.map a len⟩ bins blocks extra :=
    ⟨hinv.chain, hs.tail.perm (by
      rw [← List.append_assoc (cellsOf bins)]
      exact List.perm_append_comm), hinv.block⟩
  refine (hinv'.with_extra hs).scribble hu fun r hr => ?_
  rw [List.mem_singleton.mp hr]
  exact ⟨_, List.mem_cons_self, Nat.le_refl _, Nat.le_refl _⟩

end Inv

/-! ## The operations on the bins -/

section Bins

variable {h : Heap} {bins : Nat → List Nat} {blocks : List Block} {extra : List Region}

theorem chain_head_lt (hinv : Inv h bins blocks extra) {i : Nat} (hi : i < numBins) :
    h.heads i < 2 ^ 64 := by
  have hchain := hinv.chain i hi
  cases hbin : bins i with
  | nil =>
    rw [hbin] at hchain
    rw [show h.heads i = 0 from hchain]
    exact Nat.two_pow_pos 64
  | cons c cs =>
    rw [hbin] at hchain
    have hmem := mem_cellsOf hi (hbin ▸ List.mem_cons_self (a := c) (l := cs))
    have hstop := (hinv.spread.pos _ (List.mem_append_left _ hmem)).2.2
    rw [hchain.1]
    exact Nat.lt_of_le_of_lt (Nat.le_add_right c (2 ^ (i + 5))) hstop

theorem pop_spec (hinv : Inv h bins blocks extra) {i c : Nat} {cs : List Nat} (hi : i < numBins)
    (hbin : bins i = c :: cs) :
    ∃ h', pop h i = .ok (c, h') ∧ h'.mem = h.mem ∧ h'.pages = h.pages ∧
      word h.mem c = 2 ^ (i + 5) ∧
      Inv h' (Function.update bins i cs) blocks (cell i c :: extra) := by
  have hchain := hinv.chain i hi
  rw [hbin] at hchain
  obtain ⟨hhead, hsize, -⟩ := hchain
  have hpos : c ≠ 0 := by
    have hmem := mem_cellsOf hi (hbin ▸ List.mem_cons_self (a := c) (l := cs))
    exact Nat.ne_of_gt (hinv.spread.pos _ (List.mem_append_left _ hmem)).2.1
  refine ⟨{ h with heads := Function.update h.heads i (word h.mem (c + 8)) }, ?_, rfl, rfl, hsize,
    hinv.unlink hi hbin⟩
  unfold pop
  simp only [hhead, if_neg hpos]

theorem insertFlCell_spec {i c : Nat} (hinv : Inv h bins blocks (cell i c :: extra))
    (hi : i < numBins) (hsize : word h.mem c = 2 ^ (i + 5)) :
    Inv (insertFlCell h i c) (Function.update bins i (c :: bins i)) blocks extra := by
  have hge := pow_bin_ge i
  have hu : UnchangedOff [cell i c] h.mem (setWord h.mem (c + 8) (h.heads i)) := by
    apply unchangedOff_setWord <;> unfold cell
    · exact Nat.le_add_right _ _
    · unfold Region.stop
      dsimp only
      omega
  have hinv' := hinv.scribble hu fun r hr => by
    rw [List.mem_singleton.mp hr]
    exact ⟨_, List.mem_cons_self, Nat.le_refl _, Nat.le_refl _⟩
  apply hinv'.link hi
  · dsimp only
    rw [word_setWord_ne _ _ _ (by omega), hsize]
  · dsimp only
    rw [word_setWord_of_lt _ (chain_head_lt hinv hi)]
    exact hinv'.chain i hi

/-- The bins when the first cell of bin `i + 1` has become two of bin `i`. -/
def pulled (bins : Nat → List Nat) (i c : Nat) (cs : List Nat) : Nat → List Nat :=
  Function.update (Function.update bins (i + 1) cs) i (c :: (c + 2 ^ (i + 5)) :: bins i)

theorem pullFromAbove_bins (hinv : Inv h bins blocks extra) {i : Nat} (hi : i + 1 < numBins)
    {c : Nat} {cs : List Nat} (hbin : bins (i + 1) = c :: cs) :
    ∃ h', pullFromAbove h i = .ok h' ∧ Inv h' (pulled bins i c cs) blocks extra ∧
      h'.pages = h.pages := by
  obtain ⟨h₁, hpop, hmem, hpages, -, hinv₁⟩ := pop_spec hinv hi hbin
  have hge := pow_bin_ge i
  have hdouble : 2 ^ (i + 1 + 5) = 2 ^ (i + 5) + 2 ^ (i + 5) := by
    rw [show i + 1 + 5 = i + 5 + 1 by omega, Nat.pow_succ]
    omega
  -- the cell from above is two cells of this bin
  have hsplit : Spread h₁.pages (cell i c :: cell i (c + 2 ^ (i + 5)) ::
      (extra ++ (cellsOf (Function.update bins (i + 1) cs) ++ blocks.map Block.region))) := by
    have hs := hinv₁.spread_front.split (n := 2 ^ (i + 5)) (by omega) (by
      unfold cell
      dsimp only
      omega)
    have hhalf : (cell (i + 1) c).len - 2 ^ (i + 5) = 2 ^ (i + 5) := by
      unfold cell
      dsimp only
      omega
    rw [hhalf] at hs
    exact hs
  have hinv₂ : Inv h₁ (Function.update bins (i + 1) cs) blocks
      (cell i c :: cell i (c + 2 ^ (i + 5)) :: extra) := hinv₁.with_extra hsplit
  set m₂ := makeFlCell (setWord h₁.mem c (2 ^ (i + 5))) (c + 2 ^ (i + 5)) (2 ^ (i + 5)) with hm₂
  have hu : UnchangedOff [cell i c, cell i (c + 2 ^ (i + 5))] h₁.mem m₂ := by
    have hin : ∀ p, (c ≤ p ∧ p + 8 ≤ c + 2 ^ (i + 5)) ∨
        (c + 2 ^ (i + 5) ≤ p ∧ p + 8 ≤ c + 2 ^ (i + 5) + 2 ^ (i + 5)) → ∀ m v,
        UnchangedOff [cell i c, cell i (c + 2 ^ (i + 5))] m (setWord m p v) := by
      rintro p (⟨h1, h2⟩ | ⟨h1, h2⟩) m v
      · exact (unchangedOff_setWord (r := cell i c) m v h1 h2).mono fun r hr =>
          ⟨r, by simp [List.mem_singleton.mp hr], Nat.le_refl _, Nat.le_refl _⟩
      · exact (unchangedOff_setWord (r := cell i (c + 2 ^ (i + 5))) m v h1 h2).mono fun r hr =>
          ⟨r, by simp [List.mem_singleton.mp hr], Nat.le_refl _, Nat.le_refl _⟩
    rw [hm₂]
    unfold makeFlCell
    exact (((hin _ (by omega) _ _).trans (hin _ (by omega) _ _)).trans
      (hin _ (by omega) _ _)).trans (hin _ (by omega) _ _)
  have hinv₃ := hinv₂.scribble hu fun r hr => by
    refine ⟨r, ?_, Nat.le_refl _, Nat.le_refl _⟩
    simp only [List.mem_cons, List.not_mem_nil, or_false] at hr ⊢
    exact hr.imp id Or.inl
  have hlt : 2 ^ (i + 5) < 2 ^ 64 :=
    Nat.pow_lt_pow_right (by omega) (by unfold numBins at hi; omega)
  have hsize₁ : word m₂ c = 2 ^ (i + 5) := by
    rw [hm₂]
    unfold makeFlCell
    rw [word_setWord_ne _ _ _ (by omega), word_setWord_ne _ _ _ (by omega),
      word_setWord_ne _ _ _ (by omega), word_setWord_of_lt _ hlt]
  have hsize₂ : word m₂ (c + 2 ^ (i + 5)) = 2 ^ (i + 5) := by
    rw [hm₂]
    unfold makeFlCell
    rw [word_setWord_ne _ _ _ (by omega), word_setWord_ne _ _ _ (by omega),
      word_setWord_of_lt _ hlt]
  have hi' : i < numBins := by omega
  have hinv₄ := insertFlCell_spec (hinv₃.perm_extra (List.Perm.swap _ _ _)) hi' hsize₂
  have hsize₃ :
      word (insertFlCell { h₁ with mem := m₂ } i (c + 2 ^ (i + 5))).mem c = 2 ^ (i + 5) := by
    unfold insertFlCell
    dsimp only
    rw [word_setWord_ne _ _ _ (by omega), hsize₁]
  have hinv₅ := insertFlCell_spec hinv₄ hi' hsize₃
  have hbins : Function.update (Function.update (Function.update bins (i + 1) cs) i
      ((c + 2 ^ (i + 5)) :: Function.update bins (i + 1) cs i)) i
      (c :: Function.update (Function.update bins (i + 1) cs) i
        ((c + 2 ^ (i + 5)) :: Function.update bins (i + 1) cs i) i) = pulled bins i c cs := by
    rw [Function.update_self, Function.update_idem,
      Function.update_of_ne (Nat.ne_of_lt (Nat.lt_succ_self i)), pulled]
  rw [hbins] at hinv₅
  refine ⟨_, ?_, hinv₅, hpages⟩
  unfold pullFromAbove
  rw [hpop, ok_bind]

theorem pulled_halves {i : Nat} (hi : i + 1 < numBins) {c : Nat} {cs : List Nat}
    (hbin : bins (i + 1) = c :: cs) : Halves 5 (cellsOf bins) (cellsOf (pulled bins i c cs)) := by
  have hi' : i < numBins := by omega
  have hout := cellsOf_pop hi hbin
  have hin₁ := cellsOf_insert (Function.update bins (i + 1) cs) hi' (c + 2 ^ (i + 5))
  have hin₂ := cellsOf_push (Function.update bins (i + 1) cs) hi' c ((c + 2 ^ (i + 5)) :: bins i)
  have hsame : Function.update bins (i + 1) cs i = bins i :=
    Function.update_of_ne (Nat.ne_of_lt (Nat.lt_succ_self i)) _ _
  rw [hsame] at hin₁
  have hhalve : Halves 5 (cell (i + 1) c :: cellsOf (Function.update bins (i + 1) cs))
      (cell i c :: cell i (c + 2 ^ (i + 5)) :: cellsOf (Function.update bins (i + 1) cs)) := by
    have h := @Halves.halve 5 (i + 5) c (cellsOf (Function.update bins (i + 1) cs)) (by omega)
    rwa [show i + 5 + 1 = i + 1 + 5 by omega] at h
  have hperm := hin₂.trans (hin₁.cons (cell i c))
  exact ((Halves.perm hout).trans hhalve).trans (.perm hperm.symm)

theorem pullFromAbove_spec (hinv : Inv h bins blocks extra) {i : Nat} (hi : i + 1 < numBins)
    (hne : bins (i + 1) ≠ []) :
    ∃ h' bins', pullFromAbove h i = .ok h' ∧ Inv h' bins' blocks extra ∧ bins' i ≠ [] ∧
      h'.pages = h.pages ∧ Halves 5 (cellsOf bins) (cellsOf bins') := by
  obtain ⟨c, cs, hbin⟩ := List.exists_cons_of_ne_nil hne
  obtain ⟨h', hpull, hinv', hpages⟩ := pullFromAbove_bins hinv hi hbin
  exact ⟨h', pulled bins i c cs, hpull, hinv', by simp [pulled], hpages, pulled_halves hi hbin⟩

theorem heads_ne_zero (hinv : Inv h bins blocks extra) {i : Nat} (hi : i < numBins) :
    h.heads i ≠ 0 ↔ bins i ≠ [] := by
  have hchain := hinv.chain i hi
  cases hbin : bins i with
  | nil =>
    rw [hbin] at hchain
    simp [show h.heads i = 0 from hchain]
  | cons c cs =>
    rw [hbin] at hchain
    have hmem := mem_cellsOf hi (hbin ▸ List.mem_cons_self (a := c) (l := cs))
    have hpos : 0 < c := (hinv.spread.pos _ (List.mem_append_left _ hmem)).2.1
    rw [hchain.1]
    simpa using Nat.ne_of_gt hpos

theorem unchangedOff_fill (m : Memory) (a n : Nat) (b : Byte) :
    UnchangedOff [⟨a, n⟩] m (fill m a n b) := by
  unfold fill
  exact unchangedOff_patch _ _ (Nat.le_refl _) (Nat.le_refl _)

theorem makeFlCell_unchanged (m : Memory) {r : Region} (size : Nat) (hr : sizeofFlCell ≤ r.len) :
    UnchangedOff [r] m (makeFlCell m r.base size) := by
  unfold sizeofFlCell at hr
  unfold makeFlCell
  refine ((unchangedOff_setWord _ _ ?_ ?_).trans (unchangedOff_setWord _ _ ?_ ?_)).trans
    (unchangedOff_setWord _ _ ?_ ?_) <;> first | omega | (unfold Region.stop; omega)

/-- What happens to the cells when a bin is filled: some are halved, and the
kernel may be asked for one of the largest size. -/
def Refilled (addr : Nat) (h h' : Heap) (cells cells' : List Region) : Prop :=
  (h'.pages = h.pages ∧ Halves 5 cells cells') ∨
    (h.pages.Free addr heapSize ∧ h'.pages = h.pages.map addr heapSize ∧
      Halves 5 (cell 15 addr :: cells) cells')

theorem Refilled.trans {addr : Nat} {h h' h'' : Heap} {P Q R : List Region}
    (hPQ : Refilled addr h h' P Q) (hpages : h''.pages = h'.pages) (hQR : Halves 5 Q R) :
    Refilled addr h h'' P R := by
  rcases hPQ with ⟨hsame, hhalves⟩ | ⟨hf, hmap, hhalves⟩
  · exact Or.inl ⟨hpages.trans hsame, hhalves.trans hQR⟩
  · exact Or.inr ⟨hf, hpages.trans hmap, hhalves.trans hQR⟩

theorem redistributeUp_fresh (addr : Nat) (hinv : Inv h bins blocks extra) (hempty : bins 15 = []) :
    (∃ h', redistributeUp addr 0 h = .ok h' ∧ h.pages.Free addr heapSize ∧
        h'.pages = h.pages.map addr heapSize ∧
        Inv h' (Function.update bins 15 [addr]) blocks extra) ∨
      (redistributeUp addr 0 h = .error .noMemory ∧ ¬ h.pages.Free addr heapSize) := by
  have hhead : ¬ h.heads 15 ≠ 0 := by
    intro hne
    exact (heads_ne_zero hinv (by decide)).mp hne hempty
  rw [redistributeUp, if_neg hhead]
  unfold mmap
  by_cases hf : h.pages.Free addr heapSize
  · rw [if_pos hf, ok_bind]
    dsimp only
    have hlen : pageCount heapSize * pageSize = heapSize := by decide
    have hregion : (⟨addr, pageCount heapSize * pageSize⟩ : Region) = cell 15 addr := by
      rw [hlen]
      rfl
    have hu : UnchangedOff [⟨addr, pageCount heapSize * pageSize⟩] h.mem
        (makeFlCell (fill h.mem addr (pageCount heapSize * pageSize) 0) addr heapSize) :=
      (unchangedOff_fill _ _ _ _).trans
        (makeFlCell_unchanged _ _ (by rw [hlen]; show 24 ≤ 1048576; omega))
    have hinv₁ := hinv.map hf hu
    rw [hregion] at hinv₁
    have hlink := hinv₁.link (by decide) (by
      unfold makeFlCell
      dsimp only
      rw [word_setWord_ne _ _ _ (by omega), word_setWord_ne _ _ _ (by omega),
        word_setWord_of_lt _ (by decide)]
      rfl) (by
      unfold makeFlCell
      dsimp only
      rw [word_setWord_of_lt _ (by decide), hempty]
      rfl)
    rw [hempty] at hlink
    exact Or.inl ⟨_, rfl, hf, rfl, hlink⟩
  · rw [if_neg hf, error_bind]
    exact Or.inr ⟨rfl, hf⟩

theorem redistributeUp_spec (addr above : Nat) (habove : above < numBins)
    (hinv : Inv h bins blocks extra) :
    (∃ h' bins', redistributeUp addr above h = .ok h' ∧ Inv h' bins' blocks extra ∧
        bins' (15 - above) ≠ [] ∧ Refilled addr h h' (cellsOf bins) (cellsOf bins')) ∨
      (redistributeUp addr above h = .error .noMemory ∧ ¬ h.pages.Free addr heapSize) := by
  -- the recursion climbs to the first bin that is not empty, or to the last one
  induction above with
  | zero =>
    rw [redistributeUp]
    by_cases hhead : h.heads 15 ≠ 0
    · rw [if_pos hhead]
      exact Or.inl ⟨h, bins, rfl, hinv, (heads_ne_zero hinv (by decide)).mp hhead,
        Or.inl ⟨rfl, .refl _⟩⟩
    · have hempty : bins 15 = [] := by
        by_contra hne
        exact hhead ((heads_ne_zero hinv (by decide)).mpr hne)
      rcases redistributeUp_fresh addr hinv hempty with ⟨h', hrun, hf, hpages, hinv'⟩ | hfail
      · rw [redistributeUp] at hrun
        have hcells := cellsOf_insert bins (i := 15) (by decide) addr
        rw [hempty] at hcells
        exact Or.inl ⟨h', _, hrun, hinv', by simp,
          Or.inr ⟨hf, hpages, .perm hcells.symm⟩⟩
      · rw [redistributeUp] at hfail
        exact Or.inr hfail
  | succ above ih =>
    unfold numBins at habove
    have hi : 15 - (above + 1) = 14 - above := by omega
    have hi' : 15 - above = 14 - above + 1 := by omega
    have hbound : 14 - above + 1 < numBins := by
      unfold numBins
      omega
    rw [redistributeUp, hi]
    by_cases hhead : h.heads (14 - above) ≠ 0
    · rw [if_pos hhead]
      exact Or.inl ⟨h, bins, rfl, hinv, (heads_ne_zero hinv (by omega)).mp hhead,
        Or.inl ⟨rfl, .refl _⟩⟩
    · rw [if_neg hhead]
      rcases ih (by unfold numBins; omega) with
        ⟨h₁, bins₁, hrun, hinv₁, hne, hcells⟩ | ⟨hrun, hf⟩
      · rw [hi'] at hne
        rw [hrun, ok_bind]
        obtain ⟨h₂, bins₂, hpull, hinv₂, hne₂, hpages, hhalves⟩ :=
          pullFromAbove_spec hinv₁ hbound hne
        exact Or.inl ⟨h₂, bins₂, hpull, hinv₂, hne₂, hcells.trans hpages hhalves⟩
      · rw [hrun, error_bind]
        exact Or.inr ⟨rfl, hf⟩

theorem redistribute_spec (addr : Nat) {i : Nat} (hi : i < numBins)
    (hinv : Inv h bins blocks extra) :
    (∃ h' bins', redistribute addr h i = .ok h' ∧ Inv h' bins' blocks extra ∧ bins' i ≠ [] ∧
        Refilled addr h h' (cellsOf bins) (cellsOf bins')) ∨
      (redistribute addr h i = .error .noMemory ∧ ¬ h.pages.Free addr heapSize) := by
  unfold numBins at hi
  have hspec := redistributeUp_spec addr (15 - i) (by unfold numBins; omega) hinv
  rwa [show 15 - (15 - i) = i by omega] at hspec

end Bins

theorem getFlIndex_spec {size : Nat} (h : size ≤ heapSize) :
    ∃ i, getFlIndex size = .ok i ∧ i < numBins ∧ size ≤ 2 ^ (i + 5) := by
  unfold getFlIndex
  cases hfind : (List.range numBins).find? fun i => size ≤ 2 ^ (i + 5) with
  | none =>
    have hlast := List.find?_eq_none.mp hfind 15 (by decide)
    simp only [decide_eq_true_eq] at hlast
    exact absurd h hlast
  | some i =>
    refine ⟨i, rfl, List.mem_range.mp (List.mem_of_find?_eq_some hfind), ?_⟩
    simpa using List.find?_some hfind

theorem getFlIndex_bin {i : Nat} (hi : i < numBins) : getFlIndex (2 ^ (i + 5)) = .ok i := by
  have hall : ∀ i < numBins, getFlIndex (2 ^ (i + 5)) = .ok i := by decide
  exact hall i hi

/-! ## The calls -/

section Calls

variable {h : Heap} {bins : Nat → List Nat} {blocks : List Block} {extra : List Region}

def clamp (size : Nat) : Nat := if size < sizeofFlCell then sizeofFlCell else size

/-- The length a request maps, if it maps anything. -/
def mapLen (size : Nat) : Nat := if heapSize < clamp size then clamp size else heapSize

/-- A chunk in transit: its header is set and it has room for the request. -/
structure Fresh (h : Heap) (bins : Nat → List Nat) (blocks : List Block) (base len size : Nat) :
    Prop where
  inv : Inv h bins blocks [⟨base, extent len⟩]
  header : word h.mem base = len
  kind : ChunkSize len base
  room : size ≤ len

/-- Where the chunk of a request comes from: pages of its own, or a cell of a bin. -/
def Served (addr size : Nat) (h h' : Heap) (bins bins' : Nat → List Nat) (base len : Nat) : Prop :=
  (heapSize < clamp size ∧ len = clamp size ∧ cellsOf bins' = cellsOf bins) ∨
    (clamp size ≤ heapSize ∧ ∃ i < numBins, len = 2 ^ (i + 5) ∧
      Refilled addr h h' (cellsOf bins) (cell i base :: cellsOf bins'))

theorem xmallocHelper_spec (hinv : Inv h bins blocks []) (addr : Nat) {size : Nat}
    (hlt : size < 2 ^ 64) :
    (∃ base len h' bins', xmallocHelper addr size h = .ok (base + 8, h') ∧
        Fresh h' bins' blocks base len size ∧ Served addr size h h' bins bins' base len) ∨
      (xmallocHelper addr size h = .error .noMemory ∧ ¬ h.pages.Free addr (mapLen size)) := by
  have hle : size ≤ clamp size := by
    unfold clamp
    split <;> omega
  have hclamp : clamp size < 2 ^ 64 := by
    unfold clamp sizeofFlCell
    split <;> omega
  have hfold : (if size < sizeofFlCell then sizeofFlCell else size) = clamp size := rfl
  unfold xmallocHelper mapLen
  rw [hfold]
  dsimp only
  by_cases hbig : heapSize < clamp size
  · rw [if_pos hbig, if_pos hbig]
    unfold mmap
    by_cases hf : h.pages.Free addr (clamp size)
    · rw [if_pos hf, ok_bind]
      have hlen : 24 ≤ pageCount (clamp size) * pageSize := by
        unfold pageCount pageSize heapSize at *
        omega
      have hu : UnchangedOff [⟨addr, pageCount (clamp size) * pageSize⟩] h.mem
          (setWord (fill h.mem addr (pageCount (clamp size) * pageSize) 0) addr (clamp size)) :=
        (unchangedOff_fill _ _ _ _).trans
          (unchangedOff_setWord _ _ (Nat.le_refl _) (by unfold Region.stop; dsimp only; omega))
      have hinv' := hinv.map hf hu
      refine Or.inl ⟨addr, clamp size, _, bins, rfl, ⟨?_, word_setWord_of_lt _ hclamp,
        Or.inl ⟨hbig, hf.2.1⟩, hle⟩, Or.inl ⟨hbig, rfl, rfl⟩⟩
      unfold extent
      rw [if_pos hbig]
      exact hinv'
    · rw [if_neg hf, error_bind]
      exact Or.inr ⟨rfl, hf⟩
  · rw [if_neg hbig, if_neg hbig]
    obtain ⟨i, hindex, hi, hfit⟩ := getFlIndex_spec (Nat.le_of_not_lt hbig)
    rw [hindex, ok_bind]
    rcases redistribute_spec addr hi hinv with
      ⟨h₁, bins₁, hrun, hinv₁, hne, hcells⟩ | ⟨hrun, hf⟩
    · rw [hrun, ok_bind]
      obtain ⟨c, cs, hbin⟩ := List.exists_cons_of_ne_nil hne
      obtain ⟨h₂, hpop, hmem, hpages, hsize, hinv₂⟩ := pop_spec hinv₁ hi hbin
      have hpos : c ≠ 0 := Nat.ne_of_gt (hinv₂.extra_spread.pos _ List.mem_cons_self).2.1
      rw [hpop, ok_bind]
      refine Or.inl ⟨c, 2 ^ (i + 5), h₂, Function.update bins₁ i cs, if_neg hpos,
        ⟨?_, hmem ▸ hsize, Or.inr ⟨i, hi, rfl⟩, Nat.le_trans hle hfit⟩,
        Or.inr ⟨Nat.le_of_not_lt hbig, i, hi, rfl,
          hcells.trans hpages (.perm (cellsOf_pop hi hbin))⟩⟩
      rw [extent_bin hi]
      exact hinv₂
    · rw [hrun, error_bind]
      exact Or.inr ⟨rfl, hf⟩

theorem Fresh.block {base len size n : Nat} (hfresh : Fresh h bins blocks base len size)
    (hn : n + 8 ≤ size) {data : Nat → Option Byte}
    (hdata : ∀ off < n, ∀ v, data off = some v → h.mem ((base + 8 + off : Nat) : Int) = v) :
    Inv h bins (blockAt h (base + 8) n data :: blocks) [] := by
  have hblock : blockAt h (base + 8) n data = ⟨base, n, len, data⟩ := by
    unfold blockAt
    rw [Nat.add_sub_cancel, hfresh.header]
  have hroom := hfresh.room
  rw [hblock]
  refine ⟨hfresh.inv.chain, hfresh.inv.spread.perm ?_, ?_⟩
  · simp only [List.map_cons, List.append_nil]
    exact List.perm_append_comm.append_left _
  · intro b hb
    rcases List.mem_cons.mp hb with rfl | hb
    · exact ⟨hfresh.header, by dsimp only; omega, hfresh.kind, hdata⟩
    · exact hfresh.inv.block b hb

/-- Where a chunk goes that is given back: its pages are unmapped, or it joins a bin. -/
def GivenBack (b : Block) (h h' : Heap) (bins bins' : Nat → List Nat) : Prop :=
  (heapSize < b.chunk ∧ h'.pages = h.pages.munmap b.base b.chunk ∧ cellsOf bins' = cellsOf bins) ∨
    ∃ i < numBins, b.chunk = 2 ^ (i + 5) ∧ h'.pages = h.pages ∧
      (cellsOf bins').Perm (cell i b.base :: cellsOf bins)

theorem xfreeHelper_spec {b : Block} (hinv : Inv h bins (b :: blocks) extra) :
    ∃ h' bins', xfreeHelper h b.ptr = .ok h' ∧ Inv h' bins' blocks extra ∧
      GivenBack b h h' bins bins' := by
  have hb := hinv.block b List.mem_cons_self
  have hfront :
      Spread h.pages (b.region :: extra ++ (cellsOf bins ++ blocks.map Block.region)) := by
    refine hinv.spread.perm ?_
    simp only [List.map_cons, List.cons_append]
    refine List.perm_middle.trans (List.Perm.cons _ ?_)
    rw [← List.append_assoc]
    exact List.perm_append_comm
  have hinv' : Inv h bins blocks (b.region :: extra) := by
    refine ⟨hinv.chain, hfront.perm ?_, fun c hc => hinv.block c (List.mem_cons_of_mem _ hc)⟩
    rw [← List.append_assoc (cellsOf bins)]
    exact List.perm_append_comm
  unfold xfreeHelper Block.ptr
  dsimp only
  rw [Nat.add_sub_cancel, hb.header]
  rcases hb.kind with ⟨hbig, halign⟩ | ⟨i, hi, hlen⟩
  · rw [if_pos hbig]
    have hregion : b.region = ⟨b.base, pageCount b.chunk * pageSize⟩ := by
      unfold Block.region extent
      rw [if_pos hbig]
    rw [hregion] at hfront
    have hs := hfront.munmap halign
    refine ⟨_, bins, rfl, ⟨hinv'.chain, hs.perm ?_, hinv'.block⟩, Or.inl ⟨hbig, rfl, rfl⟩⟩
    rw [← List.append_assoc (cellsOf bins)]
    exact List.perm_append_comm
  · have hsmall : ¬ heapSize < b.chunk := by
      have hle : 2 ^ (i + 5) ≤ 2 ^ 20 :=
        Nat.pow_le_pow_right (by omega) (by unfold numBins at hi; omega)
      unfold heapSize
      omega
    rw [if_neg hsmall, hlen, getFlIndex_bin hi, ok_bind]
    have hregion : b.region = cell i b.base := by
      unfold Block.region cell
      rw [hlen, extent_bin hi]
    rw [hregion] at hinv'
    exact ⟨_, _, rfl, insertFlCell_spec hinv' hi (hb.header.trans hlen),
      Or.inr ⟨i, hi, hlen, rfl, cellsOf_insert bins hi b.base⟩⟩

end Calls

end Cs3650.Malloc.Opt
