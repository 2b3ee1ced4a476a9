import Cs3650.Nufs.PageOwnership

/-!
# A rule for growing

`grow_inode` deals with the places of an inode one after the other: it passes a
pointer that is set, and fills any other place with the lowest free page. What
holds of the first `n` places and is kept by both holds when the call is over.
-/

namespace Cs3650.Nufs

open Cs3650.Lib

theorem allocPage_cases (m : Image) :
    (allocPage m = (m, -1) ∧ ∀ p < 256, bit m getPagesBitmap p = true) ∨
      ∃ p : Nat, p < 256 ∧ bit m getPagesBitmap p = false ∧
        (∀ j < p, bit m getPagesBitmap j = true) ∧
        allocPage m = (bitmapSet m getPagesBitmap p 1, (p : Int)) := by
  unfold allocPage
  cases hfind : firstClear m getPagesBitmap PAGE_COUNT with
  | none => exact Or.inl ⟨rfl, firstClear_none hfind⟩
  | some p =>
    obtain ⟨hlt, hclear, hless⟩ := firstClear_some hfind
    exact Or.inr ⟨p, hlt, hclear, hless, rfl⟩

theorem growTurn_cases (node size slot : Int) (absent : Image → Bool) (m : Image) :
    (¬(ownedBytes m node < size ∧ absent m = true) ∧
      growTurn node size slot absent m = (m, if ownedBytes m node ≥ size then some 0 else none)) ∨
    (ownedBytes m node < size ∧ absent m = true ∧ (∀ p < 256, bit m getPagesBitmap p = true) ∧
      growTurn node size slot absent m = (m, some (-1))) ∨
    ∃ p : Nat, p < 256 ∧ bit m getPagesBitmap p = false ∧ (∀ j < p, bit m getPagesBitmap j = true) ∧
      ownedBytes m node < size ∧ absent m = true ∧
      growTurn node size slot absent m =
        (setInt32 (bitmapSet m getPagesBitmap p 1) slot p,
          if ownedBytes (setInt32 (bitmapSet m getPagesBitmap p 1) slot p) node ≥ size then some 0
          else none) := by
  unfold growTurn
  by_cases hcond : ownedBytes m node < size ∧ absent m = true
  · have hcond' : (decide (ownedBytes m node < size) && absent m) = true := by simpa using hcond
    right
    dsimp only
    rw [if_pos hcond']
    rcases allocPage_cases m with ⟨halloc, hfull⟩ | ⟨p, hp, hclear, hless, halloc⟩
    · left
      rw [halloc]
      exact ⟨hcond.1, hcond.2, hfull, rfl⟩
    · right
      have hnonneg : ¬ (p : Int) < 0 := by omega
      refine ⟨p, hp, hclear, hless, hcond.1, hcond.2, ?_⟩
      rw [halloc]
      dsimp only
      rw [if_neg hnonneg]
  · have hcond' : ¬ (decide (ownedBytes m node < size) && absent m) = true := by simpa using hcond
    left
    dsimp only
    rw [if_neg hcond']
    exact ⟨hcond, rfl⟩

/-- `G n` holds when the first `n` places of inode `i` have been dealt with. -/
structure GrowInv (i : Nat) (size : Int) (G : Nat → Image → Prop) : Prop where
  pass : ∀ n m, n < 3 → G n m → ownedBytes m (getInode i) < size →
    (n < 2 → 0 < ptr m i n) → (n = 2 → ptr m i 2 ≠ 0) → G (n + 1) m
  take : ∀ n m p, n < 1027 → G n m → ownedBytes m (getInode i) < size →
    (n < 2 → ptr m i n ≤ 0) → (n = 2 → ptr m i 2 = 0) → p < 256 → bit m getPagesBitmap p = false →
    (∀ j < p, bit m getPagesBitmap j = true) → G (n + 1) (assign m i n p 1 p)
  page : ∀ n m, 3 ≤ n → G n m → 2 ≤ ptr m i 2 ∧ ptr m i 2 < 256

/-- How the call returns: with enough pages or without a free one. -/
def GrowReturns (i : Nat) (size : Int) (G : Nat → Image → Prop) (r : Int) (m : Image) : Prop :=
  (r = 0 ∧ ∃ n ≤ 1027, G n m ∧ size ≤ ownedBytes m (getInode i)) ∨
    (r = -1 ∧ ∃ n < 1027, G n m ∧ ownedBytes m (getInode i) < size ∧ (n < 2 → ptr m i n ≤ 0) ∧
      (n = 2 → ptr m i 2 = 0) ∧ ∀ p < 256, bit m getPagesBitmap p = true)

namespace GrowInv

variable {i : Nat} {size : Int} {G : Nat → Image → Prop} (hG : GrowInv i size G)

include hG

theorem direct {j : Nat} (hj : j < 2) :
    Stmt.Triple (fun m => G j m ∧
      (0 < j → ownedBytes m (getInode i) < size)) (growDirect (getInode i) size j)
      (fun m => G (j + 1) m ∧
        (0 < j + 1 → ownedBytes m (getInode i) < size)) (GrowReturns i size G) := by
  rintro m ⟨h, -⟩
  unfold growDirect
  rcases growTurn_cases (getInode i) size (getInode i + Inode.dptrs + 4 * j)
    (fun m => int32 m (getInode i + Inode.dptrs + 4 * j) ≤ 0) m with
    ⟨hcond, hturn⟩ | ⟨hless, habsent, hfull, hturn⟩ | ⟨p, hp, hclear, hlow, hless, habsent, hturn⟩
  · rw [hturn]
    by_cases hsize : ownedBytes m (getInode i) ≥ size
    · rw [if_pos hsize]
      exact ⟨fun hfall => absurd hfall (by simp),
        fun r hr => Or.inl ⟨by simpa using hr.symm, j, by omega, h, hsize⟩⟩
    · have hless : ownedBytes m (getInode i) < size := by omega
      have hpos : 0 < ptr m i j := by
        by_contra hle
        exact hcond ⟨hless, by simpa [ptr] using hle⟩
      rw [if_neg hsize]
      exact ⟨fun _ =>
        ⟨hG.pass j m (by omega) h hless (fun _ => hpos) fun h2 => by omega, fun _ => hless⟩,
          fun r hr => by cases hr⟩
  · have hle : ptr m i j ≤ 0 := by simpa [ptr] using habsent
    rw [hturn]
    exact ⟨fun hfall => absurd hfall (by simp), fun r hr =>
      Or.inr ⟨by simpa using hr.symm, j, by omega, h,
      hless, fun _ => hle, fun h2 => by omega, hfull⟩⟩
  · have hle : ptr m i j ≤ 0 := by simpa [ptr] using habsent
    have hstate : setInt32 (bitmapSet m getPagesBitmap p 1) (getInode i + Inode.dptrs + 4 * j) p =
        assign m i j p 1 p := by
      unfold assign
      rw [if_pos (by omega)]
    have hnext :=
      hG.take j m p (by omega) h hless (fun _ => hle) (fun h2 => by omega) hp hclear hlow
    rw [hturn, hstate]
    by_cases hsize : ownedBytes (assign m i j p 1 p) (getInode i) ≥ size
    · rw [if_pos hsize]
      exact ⟨fun hfall => absurd hfall (by simp),
        fun r hr => Or.inl ⟨by simpa using hr.symm, j + 1, by omega, hnext, hsize⟩⟩
    · rw [if_neg hsize]
      exact ⟨fun _ => ⟨hnext, fun _ => Int.not_le.mp hsize⟩, fun r hr => by cases hr⟩

theorem indirect : Stmt.Triple (fun m => G 2 m ∧ (0 < 2 → ownedBytes m (getInode i) < size))
    (growIndirect (getInode i)) (G 3) (GrowReturns i size G) := by
  rintro m ⟨h, hless⟩
  have hless := hless (by decide)
  unfold growIndirect
  rw [← ptr_two]
  by_cases hzero : ptr m i 2 = 0
  · rw [if_pos hzero]
    rcases allocPage_cases m with ⟨halloc, hfull⟩ | ⟨p, hp, hclear, hlow, halloc⟩
    · rw [halloc]
      exact ⟨fun hfall => absurd hfall (by simp), fun r hr =>
        Or.inr ⟨(Option.some.inj hr).symm, 2, by decide,
        h, hless, fun h2 => absurd h2 (by decide), fun _ => hzero, hfull⟩⟩
    · have hnonneg : ¬ (p : Int) < 0 := by omega
      have hstate : setInt32 (bitmapSet m getPagesBitmap p 1) (getInode i + Inode.iptr) p =
          assign m i 2 p 1 p := rfl
      rw [halloc]
      dsimp only
      rw [if_neg hnonneg, hstate]
      exact ⟨fun _ =>
        hG.take 2 m p (by decide) h hless (fun h2 => absurd h2 (by decide)) (fun _ => hzero) hp
        hclear hlow, fun r hr => by cases hr⟩
  · rw [if_neg hzero]
    exact ⟨fun _ =>
      hG.pass 2 m (by decide) h hless (fun h2 => absurd h2 (by decide)) fun _ =>
        hzero, fun r hr => by cases hr⟩

theorem entries (hi : i < 256) : Stmt.Triple (G 3) (growEntries (getInode i) size)
    (fun m => G 1027 m ∧ ownedBytes m (getInode i) < size) (GrowReturns i size G) := by
  intro m h
  have hloop : Stmt.Triple (fun m' => G (3 + 0) m' ∧ ptr m' i 2 = ptr m i 2 ∧
        (0 < 0 → ownedBytes m' (getInode i) < size))
      (Stmt.loop (growEntry (getInode i) size (pagesGetPage (ptr m i 2))) 0 1024)
      (fun m' => G (3 + (0 + 1024)) m' ∧ ptr m' i 2 = ptr m i 2 ∧
        (0 < 0 + 1024 → ownedBytes m' (getInode i) < size)) (GrowReturns i size G) := by
    apply Stmt.Triple.loop fun k m' => G (3 + k) m' ∧ ptr m' i 2 = ptr m i 2 ∧
      (0 < k → ownedBytes m' (getInode i) < size)
    rintro k - hk m' ⟨h', hind, -⟩
    unfold growEntry
    rcases growTurn_cases (getInode i) size (pagesGetPage (ptr m i 2) + 4 * k)
      (fun _ => true) m' with
      ⟨hcond, hturn⟩ | ⟨hless, -, hfull, hturn⟩ | ⟨p, hp, hclear, hlow, hless, -, hturn⟩
    · have hsize : ownedBytes m' (getInode i) ≥ size := by simpa using hcond
      rw [hturn, if_pos hsize]
      exact ⟨fun hfall => absurd hfall (by simp),
        fun r hr => Or.inl ⟨by simpa using hr.symm, 3 + k, by omega, h', hsize⟩⟩
    · rw [hturn]
      exact ⟨fun hfall => absurd hfall (by simp), fun r hr =>
        Or.inr ⟨by simpa using hr.symm, 3 + k, by omega,
        h', hless, fun h2 => by omega, fun h2 => by omega, hfull⟩⟩
    · have hpage := hG.page (3 + k) m' (Nat.le_add_right 3 k) h'
      have hstate : setInt32 (bitmapSet m' getPagesBitmap p 1)
          (pagesGetPage (ptr m i 2) + 4 * k) p = assign m' i (3 + k) p 1 p := by
        unfold assign
        rw [if_neg (by omega), hind, Nat.add_sub_cancel_left]
      have hnext :=
        hG.take (3 + k) m' p (by omega) h' hless (fun h2 => by omega) (fun h2 => by omega) hp
        hclear hlow
      have hind' : ptr (assign m' i (3 + k) p 1 p) i 2 = ptr m i 2 := by
        rw [assign_ptr hi (by omega) hp hp (fun _ => hpage) hi (by decide), if_neg (by omega), hind]
      rw [hturn, hstate]
      by_cases hsize : ownedBytes (assign m' i (3 + k) p 1 p) (getInode i) ≥ size
      · rw [if_pos hsize]
        exact ⟨fun hfall => absurd hfall (by simp),
          fun r hr => Or.inl ⟨by simpa using hr.symm, 3 + k + 1, by omega, hnext, hsize⟩⟩
      · rw [if_neg hsize]
        exact ⟨fun _ => ⟨hnext, hind', fun _ => Int.not_le.mp hsize⟩, fun r hr => by cases hr⟩
  unfold growEntries
  rw [← ptr_two]
  obtain ⟨hfall, hret⟩ := hloop m ⟨h, rfl, fun h0 => absurd h0 (Nat.lt_irrefl 0)⟩
  exact ⟨fun hn => ⟨(hfall hn).1, (hfall hn).2.2 (by decide)⟩, hret⟩

/-- Falling off the end leaves all places dealt with. -/
theorem body (hi : i < 256) : Stmt.Triple (G 0) (growBody (getInode i) size)
    (fun m => G 1027 m ∧ ownedBytes m (getInode i) < size) (GrowReturns i size G) := by
  have hdirect := Stmt.Triple.loop (fun j m => G j m ∧ (0 < j → ownedBytes m (getInode i) < size))
    (i := 0) (n := 2) fun j _ hj => hG.direct (by omega)
  have hbody := hdirect.seq (hG.indirect.seq (hG.entries hi))
  exact hbody.weaken (fun m h => ⟨h, fun h0 => absurd h0 (Nat.lt_irrefl 0)⟩) (fun m h => h)
    fun r m h => h

theorem growInode (hi : i < 256) (junk : Int) {m : Image} (h : G 0 m) (hsize : size ≤ 1026 * 4096) :
    GrowReturns i size G (growInode junk m (getInode i) size).2
      (growInode junk m (getInode i) size).1 ∨
      (growInode junk m (getInode i) size).2 = junk ∧
      G 1027 (growInode junk m (getInode i) size).1 ∧
        ownedBytes (growInode junk m (getInode i) size).1 (getInode i) < size := by
  unfold Nufs.growInode
  rw [if_neg (by omega)]
  have hbody : Stmt.Triple (G 0) (growBody (getInode i) size)
      (fun m => G 1027 m ∧ ownedBytes m (getInode i) < size) fun r m => GrowReturns i size G r m ∨
        r = junk ∧ G 1027 m ∧ ownedBytes m (getInode i) < size :=
    (hG.body hi).weaken (fun m h => h) (fun m h => h) fun r m h => Or.inl h
  exact hbody.run junk (fun s hs => Or.inr ⟨rfl, hs⟩) h

end GrowInv

end Cs3650.Nufs
