import Cs3650.Nufs.ShrinkEffect

/-!
# The data pages of an inode

`shrink_inode` compares whole pages with a size in bytes: it keeps the pages
that fit into the size, where its caller asks for those that the size needs. `grow_inode` starts
again at the first entry of an indirect page.
-/

namespace Cs3650.Nufs

open Cs3650.Lib

/-- The inode holds the data pages `0` to `k - 1`; past two it has an indirect page. -/
structure HoldsPages (m : Image) (i k : Nat) : Prop where
  le : k ≤ 1026
  range : ∀ j < k, 2 ≤ inodeGetPnum m (getInode i) j ∧ inodeGetPnum m (getInode i) j < 256
  used : ∀ j < k, bit m getPagesBitmap (inodeGetPnum m (getInode i) j).toNat = true
  distinct : ∀ j < k, ∀ j' < k, inodeGetPnum m (getInode i) j =
    inodeGetPnum m (getInode i) j' → j = j'
  next : k < 2 ∨ ptr m i 2 ≠ 0 → k < 1026 → inodeGetPnum m (getInode i) k ≤ 0
  indirect : ptr m i 2 ≠ 0 → 2 ≤ ptr m i 2 ∧ ptr m i 2 < 256 ∧
    bit m getPagesBitmap (ptr m i 2).toNat = true ∧
    ∀ j < k, inodeGetPnum m (getInode i) j ≠ ptr m i 2
  many : 2 < k → ptr m i 2 ≠ 0

/-- The number of data pages: without an indirect page only the direct ones count. -/
def heldPages (m : Image) (i : Nat) : Nat :=
  if ptr m i 2 = 0 then min (pagesOwned m (getInode i)) 2 else pagesOwned m (getInode i)

/-- The pages that a size needs. -/
def pagesFor (size : Int) : Nat := ((size + 4095) / 4096).toNat

/-- `pages_owned` goes on in page 0. -/
def Overcounts (m : Image) (i k : Nat) : Prop := k = 2 ∧ ptr m i 2 = 0 ∧ 0 < int32 m 0

namespace HoldsPages

variable {m : Image} {i k : Nat}

theorem owned_ge (h : HoldsPages m i k) : k ≤ pagesOwned m (getInode i) :=
  pagesOwned_ge h.le fun j hj => by
    have := h.range j hj
    omega

theorem owned_eq (h : HoldsPages m i k) (hnext : k < 2 ∨ ptr m i 2 ≠ 0) :
    pagesOwned m (getInode i) = k :=
  pagesOwned_eq h.le (fun j hj => by
    have := h.range j hj
    omega) (h.next hnext)

/-- The page after the last, in page 0 where there is no indirect page. -/
theorem owned (h : HoldsPages m i k) (hfew : ¬ Overcounts m i k) :
    pagesOwned m (getInode i) = k := by
  by_cases hnext : k < 2 ∨ ptr m i 2 ≠ 0
  · exact h.owned_eq hnext
  · have hk : k = 2 := by
      by_contra hne
      exact hnext (Or.inr (h.many (by omega)))
    have hzero : ptr m i 2 = 0 := by
      by_contra hne
      exact hnext (Or.inr hne)
    subst hk
    apply pagesOwned_eq (by decide)
    · intro j hj
      have := h.range j hj
      omega
    · intro _
      rw [pnum_word hzero]
      by_contra hpos
      exact hfew ⟨rfl, hzero, by omega⟩

theorem held (h : HoldsPages m i k) : heldPages m i = k := by
  unfold heldPages
  by_cases hzero : ptr m i 2 = 0
  · rw [if_pos hzero]
    have hle : k ≤ 2 := by
      by_contra hlt
      exact h.many (by omega) hzero
    by_cases h2 : k < 2
    · rw [h.owned_eq (Or.inl h2)]
      omega
    · have := h.owned_ge
      omega
  · rw [if_neg hzero]
    exact h.owned_eq (Or.inr hzero)

theorem shrinkable (h : HoldsPages m i k) (hfew : ¬ Overcounts m i k) : Shrinkable m i := by
  have hcount := h.owned hfew
  constructor
  · intro j hj
    exact (h.range j (by omega)).2
  · by_cases hzero : ptr m i 2 = 0
    · exact Or.inl hzero
    · exact Or.inr ⟨(h.indirect hzero).1, (h.indirect hzero).2.1⟩
  · intro hzero
    by_contra hlt
    exact h.many (by omega) hzero

end HoldsPages

/-! ## Shrinking -/

/-- What the call is to do: the first `pagesFor size` pages stay, the others are
free afterwards, the indirect page with them when it has no entry left. -/
structure ShrinkKeeps (junk : Int) (m : Image) (i k : Nat) (size : Int) : Prop where
  ok : (shrinkInode junk m (getInode i) size).2 = 0
  held : heldPages (shrinkInode junk m (getInode i) size).1 i = pagesFor size
  kept : ∀ j < pagesFor size, inodeGetPnum (shrinkInode junk m (getInode i) size).1 (getInode i) j =
    inodeGetPnum m (getInode i) j
  freed : ∀ p < 256, bit (shrinkInode junk m (getInode i) size).1 getPagesBitmap p = true ↔
    bit m getPagesBitmap p = true ∧
      (∀ j, pagesFor size ≤ j → j < k → inodeGetPnum m (getInode i) j ≠ p) ∧
      ¬(pagesFor size ≤ 2 ∧ ptr m i 2 ≠ 0 ∧ ptr m i 2 = p)
  frame : ∀ x, 32 ≤ x → x < 8192 → x ∉ span (getInode i) INODE_SIZE →
    (shrinkInode junk m (getInode i) size).1 x = m x

/-- The size is a whole number of pages, the indirect page does not stay with
two pages left, and nothing is counted in page 0. -/
structure ShrinksWhole (m : Image) (i k : Nat) (size : Int) : Prop where
  whole : 4096 ∣ size
  past : 3 ≤ k → size ≠ 8192
  few : ¬ Overcounts m i k
  after : k = 2 → ptr m i 2 ≠ 0 → size = 8192 → int32 (freePage m (ptr m i 2)) 0 ≤ 0

theorem Shrunk.frame {m m' : Image} {i k : Nat} {gone : Bool} (hm : Shrinkable m i)
    (h : Shrunk m i k gone m')
    {x : Int} (hlo : 32 ≤ x) (hhi : x < 8192) (hout : x ∉ span (getInode i) INODE_SIZE) :
    m' x = m x := by
  apply h.changed
  rintro (hx | hx | ⟨hne, hx⟩)
  · simp only [mem_span] at hx
    omega
  · apply hout
    simp only [mem_span, INODE_SIZE, Inode.dptrs] at hx ⊢
    omega
  · have hpage := (hm.indirect.resolve_left hne).1
    simp only [mem_span, pagesGetPage] at hx
    omega

theorem Shrunk.held {m m' : Image} {i k : Nat} {gone : Bool} (h : Shrunk m i k gone m')
    (hk : k ≤ pagesOwned m (getInode i)) (hind : 2 ≤ k → gone = false ∧ ptr m i 2 ≠ 0) :
    heldPages m' i = k := by
  have hcount := h.count hk hind
  unfold heldPages
  rw [hcount]
  by_cases hzero : ptr m' i 2 = 0
  · rw [if_pos hzero]
    by_cases h2 : 2 ≤ k
    · obtain ⟨hgone, hne⟩ := hind h2
      rw [h.indirect, hgone, if_neg (by decide)] at hzero
      exact absurd hzero hne
    · omega
  · rw [if_neg hzero]

section

variable {m m' : Image} {i k : Nat} {size : Int} (h : HoldsPages m i k) (hfew : ¬ Overcounts m i k)

include h hfew

/-- How many pages stay is told by the size, rounded down. -/
theorem Outcome.stays (hout : Outcome m i size m') (hle : size ≤ 4096 * k) :
    (∃ n, heldPages m' i = n ∧ Shrunk m i n false m' ∧ 3 ≤ k ∧ 2 ≤ n ∧ n ≤ k ∧
      4096 * (n : Int) ≤ size ∧
        size < 4096 * ((n : Int) + 1)) ∨
    (∃ n, heldPages m' i = n ∧ Shrunk m i n true m' ∧ n ≤ 2 ∧ n ≤ k ∧ 4096 * (n : Int) ≤ size ∧
        size < 4096 * ((n : Int) + 1) ∧ (3 ≤ k → size < 8192) ∧ (n = 2 → int32 m' 0 ≤ 0)) ∨
    (heldPages m' i = 1 ∧ k = 2 ∧ size = 8192 ∧ Spills m i) := by
  have hcount := h.owned hfew
  have hm := h.shrinkable hfew
  cases hout with
  | inside n left least many le fits last =>
    rw [hcount] at many le last
    refine Or.inl ⟨n, left.held (by omega) fun _ => ⟨rfl, h.many (by omega)⟩, left, many, least,
      le, fits, ?_⟩
    omega
  | whole left few fits =>
    rw [hcount] at left few
    have hge : k ≤ pagesOwned m' (getInode i) := by
      apply pagesOwned_ge h.le
      intro j hj
      rw [left.pnum_kept (Or.inl hj) (by omega) fun h2 => absurd h2 (by omega)]
      have := h.range j hj
      omega
    unfold ownedBytes at fits
    have hsame : pagesOwned m' (getInode i) = k := by omega
    have hheld : heldPages m' i = k := by
      unfold heldPages
      rw [left.indirect, if_pos rfl, if_pos rfl, hsame]
      omega
    refine Or.inr (Or.inl ⟨k, hheld, left, few, Nat.le_refl k, by omega, by omega, by omega,
      fun h2 => ?_⟩)
    have hstop : inodeGetPnum m' (getInode i) (pagesOwned m' (getInode i)) ≤ 0 :=
      pnum_stop (by omega)
    rwa [hsame, h2, pnum_word (left.indirect.trans (if_pos rfl))] at hstop
  | direct n left lt le fits last =>
    rw [hcount] at le
    refine Or.inr (Or.inl ⟨n, left.held (by omega) fun h2 => absurd h2 (by omega), left,
      by omega, by omega, fits, last, fun _ => by omega, fun h2 => absurd h2 (by omega)⟩)
  | spilled left enough spills =>
    have hk : k = 2 := by
      rw [← hcount]
      exact spills.1
    exact Or.inr (Or.inr ⟨left.held (by omega) fun h2 => absurd h2 (by decide), hk, by omega,
      spills⟩)

theorem shrinkKeeps_of_whole (junk : Int) (hi : i < 256) (h0 : 0 ≤ size) (hle : size ≤ 4096 * k)
    (hwhole : ShrinksWhole m i k size) : ShrinkKeeps junk m i k size := by
  have hm := h.shrinkable hfew
  have hcount := h.owned hfew
  obtain ⟨hok, hout⟩ := shrinkInode_effect hm hi junk h0
  obtain ⟨c, hc⟩ := hwhole.whole
  have hfor : ∀ n : Nat, 4096 * (n : Int) ≤ size → size < 4096 * ((n : Int) + 1) →
      pagesFor size = n := by
    intro n hlo hhi
    unfold pagesFor
    omega
  rcases hout.stays h hfew hle with
    ⟨n, hheld, left, hk3, hn2, hn, hlo, hhi⟩ | ⟨n, hheld, left, hn2, hn, hlo, hhi, -, -⟩
      | ⟨-, hk, hsize, hspill⟩
  · have hfor := hfor n hlo hhi
    have hpast : ¬ n ≤ 2 := fun hle2 => by
      have := hwhole.past hk3
      omega
    refine ⟨hok, by rw [hheld, hfor], fun j hj => ?_, fun p hp => ?_, fun x hlo hhi hx =>
      left.frame hm hlo hhi hx⟩
    · rw [hfor] at hj
      exact left.pnum_kept (Or.inl hj) (Nat.lt_of_lt_of_le hj (Nat.le_trans hn h.le)) fun _ =>
        ⟨rfl, h.many hk3⟩
    · rw [left.bits p hp, hcount, hfor]
      constructor
      · rintro ⟨hset, hdropped, -⟩
        exact ⟨hset, hdropped, fun hc => hpast hc.1⟩
      · rintro ⟨hset, hdropped, -⟩
        exact ⟨hset, hdropped, fun hc => Bool.noConfusion hc.1⟩
  · have hfor := hfor n hlo hhi
    refine ⟨hok, by rw [hheld, hfor], fun j hj => ?_, fun p hp => ?_, fun x hlo hhi hx =>
      left.frame hm hlo hhi hx⟩
    · rw [hfor] at hj
      exact left.pnum_kept (Or.inl hj) (by omega) fun h2 => absurd h2 (by omega)
    · rw [left.bits p hp, hcount, hfor]
      constructor
      · rintro ⟨hset, hdropped, hgone⟩
        exact ⟨hset, hdropped, fun hc => hgone ⟨rfl, hc.2⟩⟩
      · rintro ⟨hset, hdropped, hgone⟩
        exact ⟨hset, hdropped, fun hc => hgone ⟨hn2, hc.2⟩⟩
  · obtain ⟨-, hne, hword⟩ := hspill
    have := hwhole.after hk hne hsize
    omega

/-- Nothing else does what it is to do, as long as nothing is counted in page 0. -/
theorem whole_of_shrinkKeeps {junk : Int} (hi : i < 256) (h0 : 0 ≤ size) (hle : size ≤ 4096 * k)
    (hkeeps : ShrinkKeeps junk m i k size) : ShrinksWhole m i k size := by
  have hm := h.shrinkable hfew
  have hcount := h.owned hfew
  obtain ⟨-, hout⟩ := shrinkInode_effect hm hi junk h0
  have hheld := hkeeps.held
  have hfor : ∀ n : Nat, pagesFor size = n → 4096 * (n : Int) ≤ size → size = 4096 * (n : Int) := by
    intro n hn hlo
    unfold pagesFor at hn
    omega
  rcases hout.stays h hfew hle with
    ⟨n, hn, left, hk3, hn2, hnk, hlo, -⟩ | ⟨n, hn, left, hn2, hnk, hlo, -, hless, hword⟩
      | ⟨hn, -, hsize, -⟩
  · have hsize := hfor n (hheld.symm.trans hn) hlo
    refine ⟨⟨n, hsize⟩, fun _ heq => ?_, hfew, fun hk => by omega⟩
    -- two data pages stay, and the indirect page with them
    have htwo : n = 2 := by omega
    have hne := h.many (by omega)
    obtain ⟨hlo, hhi, hused, hapart⟩ := h.indirect hne
    obtain ⟨q, hq⟩ : ∃ q : Nat, ptr m i 2 = q := ⟨(ptr m i 2).toNat, by omega⟩
    rw [hq, Int.toNat_natCast] at hused
    have hset := (left.bits q (by omega)).mpr ⟨hused, fun j _ hlt => by
      rw [← hq]
      exact hapart j (by omega), fun hc => Bool.noConfusion hc.1⟩
    have hclear := ((hkeeps.freed q (by omega)).mp hset).2.2
    exact absurd ⟨by omega, hne, hq⟩ hclear
  · have hsize := hfor n (hheld.symm.trans hn) hlo
    refine ⟨⟨n, hsize⟩, fun h3 => by have := hless h3; omega, hfew, fun hk hne heq => ?_⟩
    have htwo : n = 2 := by omega
    rw [htwo] at left
    have hfirst := hword htwo
    rwa [Shrunk.word hm left (by omega), if_neg hne] at hfirst
  · have hone : pagesFor size = 1 := hheld.symm.trans hn
    unfold pagesFor at hone
    omega

end

theorem shrink_keeps_iff {m : Image} {i k : Nat} {size : Int} (junk : Int) (hi : i < 256)
    (h : HoldsPages m i k) (h0 : 0 ≤ size) (hle : size ≤ 4096 * k) :
    (ShrinksWhole m i k size → ShrinkKeeps junk m i k size) ∧
      (¬ Overcounts m i k → ShrinkKeeps junk m i k size → ShrinksWhole m i k size) :=
  ⟨fun hwhole => shrinkKeeps_of_whole h hwhole.few junk hi h0 hle hwhole,
    fun hfew => whole_of_shrinkKeeps h hfew hi h0 hle⟩

theorem rootPages : HoldsPages (storageInit fun _ => 0) 0 1 where
  le := by decide
  range := by decide +kernel
  used := by decide +kernel
  distinct := by decide +kernel
  next _ _ := by decide +kernel
  indirect hne := absurd (by decide +kernel) hne
  many := by decide

theorem root_keeps_page : ShrinkKeeps 0 (storageInit fun _ => 0) 0 1 4096 :=
  (shrink_keeps_iff 0 (by decide) rootPages (by decide) (by decide)).1
    ⟨by decide, fun h => absurd h (by decide), fun h => absurd h.1 (by decide), fun h =>
      absurd h (by decide)⟩

/-- Of one page no byte of 100 is left. -/
theorem part_of_page_lost : ¬ ∀ (junk : Int) (m : Image) (i k : Nat) (size : Int), i < 256 →
    HoldsPages m i k → 0 ≤ size → size ≤ 4096 * k → ShrinkKeeps junk m i k size := by
  intro h
  have hheld :=
    (h 0 (storageInit fun _ => 0) 0 1 100 (by decide) rootPages (by decide) (by decide)).held
  have hnone : heldPages (shrinkInode 0 (storageInit fun _ => 0) (getInode 0) 100).1 0 = 0 := by
    decide +kernel
  rw [show ((0 : Nat) : Int) = 0 from rfl] at hheld
  rw [hnone] at hheld
  exact absurd hheld (by decide)

end Cs3650.Nufs
