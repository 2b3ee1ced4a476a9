import Cs3650.Nufs.GrowRule

/-!
# The inode operations keep every page owned once

Two things go wrong. While an inode has both direct pages and no indirect page,
`pages_owned` goes on to count in page 0, and `shrink_inode` then clears the
bitmap as if it were an indirect page. And `grow_inode` starts again at entry 0
of an indirect page that is in use, and writes over the page recorded there.
`ShrinksClean` and `GrowsClean` exclude these two.
-/

namespace Cs3650.Nufs

open Cs3650.Lib

/-! ## The count of pages -/

theorem pnum_direct (m : Image) (i : Nat) {j : Nat} (hj : j < 2) :
    inodeGetPnum m (getInode i) j = recorded m i j := by
  rw [recorded_ptr m i (by omega)]
  exact if_pos hj

theorem pnum_entry {m : Image} {i k : Nat} (hne : ptr m i 2 ≠ 0) :
    inodeGetPnum m (getInode i) (k + 2) = recorded m i (k + 3) := by
  have h2 : ¬ k + 2 < 2 := by omega
  have h3 : ¬ k + 3 < 3 := by omega
  have hoff : (((k + 2 : Nat) : Int) - 2) = ((k + 3 - 3 : Nat) : Int) := by omega
  unfold inodeGetPnum recorded pageEntry
  rw [if_neg h2, if_neg h3, if_neg hne, ptr_two, hoff]

theorem pagesOwned_few {m : Image} {i n : Nat} (hn : Holding m i n) (hlt : n < 2) :
    pagesOwned m (getInode i) = n := by
  apply pagesOwned_eq (by omega)
  · intro j hj
    rw [pnum_direct m i (by omega)]
    exact (hn.2 j (by omega)).mpr hj
  · intro _
    rw [pnum_direct m i hlt]
    have hnot := (hn.2 n (by omega)).not
    omega

theorem pagesOwned_two {m : Image} {i : Nat} (hn : Holding m i 2) :
    2 ≤ pagesOwned m (getInode i) := by
  by_contra hlt
  have hstop : inodeGetPnum m (getInode i) (pagesOwned m (getInode i)) ≤ 0 :=
    pnum_stop (by omega)
  rw [pnum_direct m i (by omega)] at hstop
  have hpos := (hn.2 (pagesOwned m (getInode i)) (by omega)).mpr (by omega)
  omega

theorem pagesOwned_many {m : Image} {i n : Nat} (hn : Holding m i n) (hge : 3 ≤ n) :
    pagesOwned m (getInode i) = n - 1 := by
  have hle := hn.1
  have hne : ptr m i 2 ≠ 0 := by
    have hpos := hn.indirect_pos hge
    omega
  have hpnum : ∀ j, inodeGetPnum m (getInode i) j = recorded m i (if j < 2 then j else j + 1) := by
    intro j
    by_cases hj : j < 2
    · rw [if_pos hj, pnum_direct m i hj]
    · obtain ⟨k, rfl⟩ : ∃ k, j = k + 2 := ⟨j - 2, by omega⟩
      rw [if_neg hj, pnum_entry hne]
  apply pagesOwned_eq (by omega)
  · intro j hj
    rw [hpnum]
    by_cases hj2 : j < 2
    · rw [if_pos hj2]
      exact (hn.2 j (by omega)).mpr (by omega)
    · rw [if_neg hj2]
      exact (hn.2 (j + 1) (by omega)).mpr (by omega)
  · intro hlt
    have hnot := (hn.2 n (by omega)).not
    rw [hpnum, if_neg (by omega), Nat.sub_add_cancel (by omega)]
    omega

/-! ## States of one inode -/

/-- Pages are owned as they should be, and inode `i` holds the first `n` places. -/
structure At (i n : Nat) (m : Image) : Prop where
  owned : Owned m
  allocated : Allocated m i
  holding : Holding m i n

theorem At.empty_of_ownedBytes {i n : Nat} {m : Image} (h : At i n m)
    (hle : ownedBytes m (getInode i) ≤ 0) : n = 0 := by
  unfold ownedBytes at hle
  by_cases hfew : n < 2
  · have := pagesOwned_few h.holding hfew
    omega
  · by_cases htwo : n = 2
    · subst htwo
      have := pagesOwned_two h.holding
      omega
    · have := pagesOwned_many h.holding (by omega)
      omega

/-! ## Growing -/

theorem At.acquire {i n p : Nat} {m : Image} (h : At i n m) (hi : i < 256) (hlt : n < 1027)
    (hp : p < 256) (hclear : bit m getPagesBitmap p = false) :
    At i (n + 1) (assign m i n p 1 p) := by
  obtain ⟨howned, hholding⟩ := h.owned.acquire hi h.allocated h.holding hlt hp hclear
  have hpage := h.owned.indirect_page hi h.allocated h.holding
  refine ⟨howned, ?_, hholding⟩
  rw [Allocated, assign_inodeBit hlt hp hpage hi]
  exact h.allocated

theorem growInv_at {i : Nat} (hi : i < 256) (size : Int) :
    GrowInv i size fun j m => ∃ n, j ≤ n ∧ (n ≤ 3 ∨ n = j) ∧ At i n m := by
  have hptr : ∀ {n m}, At i n m → ∀ j < 3, 0 < ptr m i j ↔ j < n := by
    intro n m h j hj
    rw [← recorded_ptr m i hj]
    exact h.holding.2 j (by omega)
  constructor
  · rintro j m hj ⟨n, hjn, hn, h⟩ - hdirect hindirect
    have hpos : 0 < ptr m i j := by
      by_cases h2 : j < 2
      · exact hdirect h2
      · obtain rfl : j = 2 := by omega
        have hne := hindirect rfl
        have hnonneg := h.owned.nonneg i hi h.allocated 2 (by decide)
        rw [recorded_ptr m i (by decide)] at hnonneg
        omega
    have hlt := (hptr h j hj).mp hpos
    exact ⟨n, hlt, Or.inl (by omega), h⟩
  · rintro j m p hj ⟨n, hjn, hn, h⟩ - hdirect hindirect hp hclear -
    have hsame : n = j := by
      by_cases h3 : j < 3
      · have hle : ptr m i j ≤ 0 := by
          by_cases h2 : j < 2
          · exact hdirect h2
          · obtain rfl : j = 2 := by omega
            exact Int.le_of_eq (hindirect rfl)
        have hiff := hptr h j h3
        omega
      · omega
    subst hsame
    exact ⟨n + 1, Nat.le_refl _, Or.inr rfl, h.acquire hi hj hp hclear⟩
  · rintro j m h3 ⟨n, hjn, -, h⟩
    exact h.owned.indirect_page hi h.allocated h.holding (by omega)

theorem growBody_enough {m : Image} {node size : Int} (h : size ≤ ownedBytes m node) :
    growBody node size m = (m, some 0) := by
  have hfirst : growDirect node size 0 m = (m, some 0) := by
    unfold growDirect
    rcases growTurn_cases node size (node + Inode.dptrs + 4 * (0 : Nat))
      (fun m => int32 m (node + Inode.dptrs + 4 * (0 : Nat)) ≤ 0) m with
      ⟨-, hturn⟩ | ⟨hlt, -⟩ | ⟨-, -, -, -, hlt, -⟩
    · rw [hturn, if_pos h]
    · omega
    · omega
  exact Stmt.seq_of_return (Stmt.loop_of_return (by decide) hfirst)

theorem growTurn_full {m : Image} (hfull : ∀ p < 256, bit m getPagesBitmap p = true)
    (node size slot : Int) (absent : Image → Bool) : (growTurn node size slot absent m).1 = m := by
  rcases growTurn_cases node size slot absent m with
    ⟨-, hturn⟩ | ⟨-, -, -, hturn⟩ | ⟨p, hp, hclear, -⟩
  · rw [hturn]
  · rw [hturn]
  · rw [hfull p hp] at hclear
    cases hclear

theorem growBody_full {m : Image} (hfull : ∀ p < 256, bit m getPagesBitmap p = true)
    (node size : Int) : (growBody node size m).1 = m := by
  have hturn : ∀ slot absent, Stmt.Triple (fun m' => m' = m) (growTurn node size slot absent)
      (fun m' => m' = m) fun _ m' => m' = m := by
    rintro slot absent m' rfl
    have hsame := growTurn_full hfull node size slot absent
    exact ⟨fun _ => hsame, fun _ _ => hsame⟩
  have hdirect : Stmt.Triple (fun m' => m' = m) (Stmt.loop (growDirect node size) 0 2)
      (fun m' => m' = m) fun _ m' => m' = m :=
    Stmt.Triple.loop (fun _ m' => m' = m) fun j _ _ => hturn _ _
  have hindirect : Stmt.Triple (fun m' => m' = m) (growIndirect node) (fun m' => m' = m)
      fun _ m' => m' = m := by
    rintro m' rfl
    have hsame : (growIndirect node m').1 = m' := by
      unfold growIndirect
      rcases allocPage_cases m' with ⟨halloc, -⟩ | ⟨p, hp, hclear, -⟩
      · rw [halloc]
        by_cases hzero : int32 m' (node + Inode.iptr) = 0
        · rw [if_pos hzero]
          rfl
        · rw [if_neg hzero]
      · rw [hfull p hp] at hclear
        cases hclear
    exact ⟨fun _ => hsame, fun _ _ => hsame⟩
  have hentries : Stmt.Triple (fun m' => m' = m) (growEntries node size) (fun m' => m' = m)
      fun _ m' => m' = m := by
    rintro m' rfl
    have hloop : Stmt.Triple (fun m'' => m'' = m')
        (Stmt.loop (growEntry node size (pagesGetPage (int32 m' (node + Inode.iptr)))) 0 1024)
        (fun m'' => m'' = m') fun _ m'' => m'' = m' :=
      Stmt.Triple.loop (fun _ m'' => m'' = m') fun j _ _ => hturn _ _
    exact hloop m' rfl
  obtain ⟨hfall, hret⟩ := hdirect.seq (hindirect.seq hentries) m rfl
  cases ho : (growBody node size m).2 with
  | none => exact hfall ho
  | some r => exact hret r ho

/-- The calls of `grow_inode` that do not write over a recorded page. -/
def GrowsClean (m : Image) (node size : Int) : Prop :=
  size ≤ ownedBytes m node ∨ 1026 * 4096 < size ∨ (∀ p < 256, bit m getPagesBitmap p = true) ∨
    int32 m (node + Inode.iptr) = 0 ∨ pageEntry m (int32 m (node + Inode.iptr)) 0 = 0

theorem growInode_at {i n : Nat} {m : Image} (junk : Int) {size : Int} (hi : i < 256) (h : At i n m)
    (hclean : GrowsClean m (getInode i) size) :
    ∃ n', At i n' (growInode junk m (getInode i) size).1 := by
  by_cases hbig : size > 1026 * 4096
  · unfold growInode
    rw [if_pos hbig]
    exact ⟨n, h⟩
  by_cases hfew : n ≤ 3
  · rcases (growInv_at hi size).growInode hi junk ⟨n, Nat.zero_le n, Or.inl hfew, h⟩ (by omega) with
      (⟨-, -, -, ⟨n', -, -, hat⟩, -⟩ | ⟨-, -, -, ⟨n', -, -, hat⟩, -⟩) | ⟨-, ⟨n', -, -, hat⟩, -⟩
    · exact ⟨n', hat⟩
    · exact ⟨n', hat⟩
    · exact ⟨n', hat⟩
  · unfold growInode
    rw [if_neg hbig]
    have hind := h.owned.indirect_page hi h.allocated h.holding (by omega)
    have hentry := (h.holding.2 3 (by omega)).mpr (by omega)
    unfold recorded at hentry
    rw [if_neg (by omega), if_neg (by omega)] at hentry
    unfold GrowsClean at hclean
    rw [← ptr_two] at hclean
    rcases hclean with hsize | hbig' | hfull | hzero | hzero
    · unfold Stmt.run
      rw [growBody_enough hsize]
      exact ⟨n, h⟩
    · exact absurd hbig' hbig
    · unfold Stmt.run
      rw [growBody_full hfull]
      exact ⟨n, h⟩
    · omega
    · rw [Nat.sub_self] at hentry
      omega

/-! ## Shrinking -/

theorem shrinkCheck_cases (node size : Int) (m : Image) :
    (ownedBytes m node ≤ size ∧ shrinkCheck node size m = (m, some 0)) ∨
      (size < ownedBytes m node ∧ shrinkCheck node size m = (m, none)) := by
  unfold shrinkCheck
  by_cases h : ownedBytes m node ≤ size
  · exact Or.inl ⟨h, by rw [if_pos h]⟩
  · exact Or.inr ⟨by omega, by rw [if_neg h]⟩

theorem At.release {i n : Nat} {m : Image} (h : At i (n + 1) m) (hi : i < 256) :
    ∃ p : Nat, recorded m i n = p ∧ 2 ≤ p ∧ p < 256 ∧ At i n (assign m i n p 0 0) := by
  have hlt : n < 1027 := h.holding.1
  obtain ⟨p, hrec, h2, hp, howned, hholding⟩ := h.owned.release hi h.allocated h.holding
  have hpage : 3 ≤ n → 2 ≤ ptr m i 2 ∧ ptr m i 2 < 256 := fun h3 =>
    h.owned.indirect_page hi h.allocated h.holding (by omega)
  refine ⟨p, hrec, h2, hp, howned, ?_, hholding⟩
  rw [Allocated, assign_inodeBit hlt hp hpage hi]
  exact h.allocated

theorem pagesOwned_freePage {i p : Nat} {m : Image} (hlo : 2 ≤ ptr m i 2) (hp : p < 256) :
    pagesOwned (freePage m p) (getInode i) = pagesOwned m (getInode i) := by
  have hchanged := changedIn_bitmapSet m getPagesBitmap p 0
  have hptr : ∀ a : Int, 64 ≤ a → int32 (freePage m p) a = int32 m a := by
    intro a ha
    apply hchanged.int32
    simp only [getPagesBitmap, mem_span]
    omega
  apply pagesOwned_congr
  intro fpn _
  unfold inodeGetPnum
  by_cases hdirect : fpn < 2
  · rw [if_pos hdirect, if_pos hdirect, hptr]
    simp only [getInode_eq, Inode.dptrs]
    omega
  · have hind : int32 (freePage m p) (getInode i + Inode.iptr) =
        int32 m (getInode i + Inode.iptr) := by
      apply hptr
      simp only [getInode_eq, Inode.iptr]
      omega
    rw [if_neg hdirect, if_neg hdirect, hind, ← ptr_two]
    apply hptr
    unfold pagesGetPage
    generalize ptr m i 2 = q at hlo
    omega

theorem shrinkEntry_triple {i n : Nat} (hi : i < 256) (h3 : 3 ≤ n) (size : Int) :
    Stmt.Triple (At i (n + 1)) (shrinkEntry (getInode i) size) (At i n)
      fun _ m => ∃ n', At i n' m ∧ ownedBytes m (getInode i) ≤ size := by
  intro m h
  have hcount : pagesOwned m (getInode i) = n := by
    rw [pagesOwned_many h.holding (by omega)]
    rfl
  unfold shrinkEntry
  by_cases hmore : ownedBytes m (getInode i) > size
  · obtain ⟨p, hrec, -, hp, hnext⟩ := h.release hi
    have hpage := h.owned.indirect_page hi h.allocated h.holding (by omega)
    have hslot : pagesGetPage (int32 m (getInode i + Inode.iptr)) + 4 * ((n : Int) - 2 - 1) =
        pagesGetPage (ptr m i 2) + 4 * ((n - 3 : Nat) : Int) := by
      rw [ptr_two]
      omega
    have hval : int32 m (pagesGetPage (ptr m i 2) + 4 * ((n - 3 : Nat) : Int)) = p := by
      unfold recorded pageEntry at hrec
      rwa [if_neg (by omega), if_neg (by omega)] at hrec
    have hstate : setInt32 (freePage m p)
        (pagesGetPage (ptr m i 2) + 4 * ((n - 3 : Nat) : Int)) 0 = assign m i n p 0 0 := by
      unfold assign freePage
      rw [if_neg (by omega)]
      rfl
    rw [if_pos hmore]
    dsimp only
    rw [hcount, hslot, hval, pagesOwned_freePage hpage.1 hp, hcount, hslot, hstate]
    rcases shrinkCheck_cases (getInode i) size (assign m i n p 0 0) with ⟨hle, hcheck⟩ | ⟨-, hcheck⟩
    · rw [hcheck]
      exact ⟨fun hfall => absurd hfall (by simp), fun r _ => ⟨n, hnext, hle⟩⟩
    · rw [hcheck]
      exact ⟨fun _ => hnext, fun r hr => absurd hr (by simp)⟩
  · rw [if_neg hmore]
    rcases shrinkCheck_cases (getInode i) size m with ⟨hle, hcheck⟩ | ⟨hlt, -⟩
    · rw [hcheck]
      exact ⟨fun hfall => absurd hfall (by simp), fun r _ => ⟨n + 1, h, hle⟩⟩
    · exact absurd hlt hmore

/-- The calls of `shrink_inode` that do not take page 0 for an indirect page. -/
def ShrinksClean (m : Image) (node size : Int) : Prop :=
  size < 0 ∨ int32 m (node + Inode.iptr) ≠ 0 ∨ pagesOwned m node ≤ 2 ∨ ownedBytes m node ≤ size

theorem shrinkEntries_triple {i : Nat} (hi : i < 256) {size : Int} (hsize : 0 ≤ size) :
    Stmt.Triple (fun m => (∃ n, At i n m) ∧ ShrinksClean m (getInode i) size)
      (shrinkEntries (getInode i) size) (fun m => ∃ n ≤ 3, At i n m)
      fun _ m => ∃ n, At i n m ∧ ownedBytes m (getInode i) ≤ size := by
  rintro m ⟨⟨n, h⟩, hclean⟩
  unfold shrinkEntries
  by_cases hmany : 3 ≤ n
  · rw [pagesOwned_many h.holding hmany]
    have hloop : Stmt.Triple (fun m' => At i (n - 0) m')
        (Stmt.loop (fun _ => shrinkEntry (getInode i) size) 0 (n - 1 - 2))
        (fun m' => At i (n - (0 + (n - 1 - 2))) m')
        fun _ m' => ∃ n', At i n' m' ∧ ownedBytes m' (getInode i) ≤ size := by
      apply Stmt.Triple.loop fun t m' => At i (n - t) m'
      intro t _ ht
      have hn : n - t = n - (t + 1) + 1 := by omega
      rw [hn]
      exact shrinkEntry_triple hi (by omega) size
    obtain ⟨hfall, hret⟩ := hloop m h
    exact ⟨fun hn => ⟨_, by omega, hfall hn⟩, hret⟩
  · by_cases hcount : pagesOwned m (getInode i) ≤ 2
    · rw [Nat.sub_eq_zero_of_le hcount]
      exact ⟨fun _ => ⟨n, by omega, h⟩, fun r hr => absurd hr (by simp [Stmt.loop])⟩
    · -- counted in page 0, but there is nothing to free
      have hzero : int32 m (getInode i + Inode.iptr) = 0 := by
        have hnonneg := h.owned.nonneg i hi h.allocated 2 (by omega)
        have hnot := (h.holding.2 2 (by omega)).not
        rw [recorded_ptr m i (by omega)] at hnonneg hnot
        rw [← ptr_two]
        omega
      have hle : ownedBytes m (getInode i) ≤ size := by
        unfold ShrinksClean at hclean
        omega
      have hfirst : shrinkEntry (getInode i) size m = (m, some 0) := by
        unfold shrinkEntry shrinkCheck
        rw [if_neg (by omega), if_pos hle]
      rw [Stmt.loop_of_return (by omega) hfirst]
      exact ⟨fun hfall => absurd hfall (by simp), fun r _ => ⟨n, h, hle⟩⟩

theorem shrinkIndirect_triple {i : Nat} (hi : i < 256) (R : Int → Image → Prop) :
    Stmt.Triple (fun m => ∃ n ≤ 3, At i n m) (shrinkIndirect (getInode i))
      (fun m => ∃ n ≤ 2 - 0, At i n m) R := by
  rintro m ⟨n, hle, h⟩
  have hnonneg := h.owned.nonneg i hi h.allocated 2 (by omega)
  have hptr := h.holding.2 2 (by omega)
  rw [recorded_ptr m i (by omega)] at hnonneg hptr
  refine ⟨fun _ => ?_, fun r hr => absurd hr (by simp [shrinkIndirect])⟩
  unfold shrinkIndirect
  dsimp only
  rw [← ptr_two]
  by_cases hzero : ptr m i 2 = 0
  · have hself : setInt32 m (getInode i + Inode.iptr) 0 = m := by
      have hback := setInt32_self m (getInode i + Inode.iptr)
      rwa [← ptr_two, hzero] at hback
    rw [if_neg (not_not.mpr hzero), hself]
    exact ⟨n, by omega, h⟩
  · have hn : n = 2 + 1 := by omega
    subst hn
    obtain ⟨p, hrec, -, -, hnext⟩ := h.release hi
    rw [recorded_ptr m i (by omega)] at hrec
    rw [if_pos hzero, hrec]
    exact ⟨2, by omega, hnext⟩

theorem shrinkDirect_triple {i j : Nat} (hi : i < 256) (hj : j < 2) (size : Int) :
    Stmt.Triple (fun m => ∃ n ≤ 2 - j, At i n m) (fun m => shrinkDirect (getInode i) size (1 - j) m)
      (fun m => ∃ n ≤ 2 - (j + 1), At i n m)
      fun _ m => ∃ n, At i n m ∧ ownedBytes m (getInode i) ≤ size := by
  rintro m ⟨n, hle, h⟩
  have hptr : 0 < ptr m i (1 - j) ↔ 1 - j < n := by
    rw [← recorded_ptr m i (by omega)]
    exact h.holding.2 (1 - j) (by omega)
  have hslot : int32 m (getInode i + Inode.dptrs + 4 * ((1 - j : Nat) : Int)) = ptr m i (1 - j) :=
    rfl
  unfold shrinkDirect
  dsimp only
  rw [hslot]
  by_cases hmore : ownedBytes m (getInode i) > size ∧ ptr m i (1 - j) > 0
  · have hn : n = 1 - j + 1 := by
      have := hptr.mp hmore.2
      omega
    subst hn
    obtain ⟨p, hrec, -, hp, hnext⟩ := h.release hi
    have hstate : setInt32 (freePage m p) (getInode i + Inode.dptrs + 4 * ((1 - j : Nat) : Int)) 0 =
        assign m i (1 - j) p 0 0 := by
      unfold assign freePage
      rw [if_pos (by omega)]
      rfl
    rw [recorded_ptr m i (by omega)] at hrec
    rw [if_pos hmore, hrec, hstate]
    rcases shrinkCheck_cases (getInode i) size (assign m i (1 - j) p 0 0) with
      ⟨hle', hcheck⟩ | ⟨-, hcheck⟩
    · rw [hcheck]
      exact ⟨fun hfall => absurd hfall (by simp), fun r _ => ⟨1 - j, hnext, hle'⟩⟩
    · rw [hcheck]
      exact ⟨fun _ => ⟨1 - j, by omega, hnext⟩, fun r hr => absurd hr (by simp)⟩
  · rw [if_neg hmore]
    rcases shrinkCheck_cases (getInode i) size m with ⟨hle', hcheck⟩ | ⟨hlt, hcheck⟩
    · rw [hcheck]
      exact ⟨fun hfall => absurd hfall (by simp), fun r _ => ⟨n, h, hle'⟩⟩
    · rw [hcheck]
      refine ⟨fun _ => ⟨n, ?_, h⟩, fun r hr => absurd hr (by simp)⟩
      have hnot : ¬ 0 < ptr m i (1 - j) := fun hpos => hmore ⟨hlt, hpos⟩
      omega

theorem shrinkInode_at {i n : Nat} {m : Image} (junk : Int) {size : Int} (hi : i < 256)
    (h : At i n m) (hclean : ShrinksClean m (getInode i) size) :
    ∃ n', At i n' (shrinkInode junk m (getInode i) size).1 ∧
      (0 ≤ size → ownedBytes (shrinkInode junk m (getInode i) size).1 (getInode i) ≤ size) := by
  unfold shrinkInode
  by_cases hneg : size < 0
  · rw [if_pos hneg]
    exact ⟨n, h, fun h0 => by omega⟩
  · rw [if_neg hneg]
    have hdirect : Stmt.Triple (fun m => ∃ n ≤ 2 - 0, At i n m)
        (Stmt.loop (fun j => shrinkDirect (getInode i) size (1 - j)) 0 2)
        (fun m => ∃ n ≤ 2 - (0 + 2), At i n m)
        fun _ m => ∃ n, At i n m ∧ ownedBytes m (getInode i) ≤ size :=
      Stmt.Triple.loop (fun j m => ∃ n ≤ 2 - j, At i n m) fun j _ hj =>
        shrinkDirect_triple hi (by omega) size
    have hbody := (@shrinkEntries_triple i hi size (by omega)).seq
      ((shrinkIndirect_triple hi _).seq hdirect)
    have hrun := hbody.run (R := fun _ m => ∃ n, At i n m ∧ ownedBytes m (getInode i) ≤ size)
      junk ?_ ⟨⟨n, h⟩, hclean⟩
    · obtain ⟨n', hat, hle⟩ := hrun
      exact ⟨n', hat, fun _ => hle⟩
    · rintro m' ⟨n', hn', hat⟩
      refine ⟨n', hat, ?_⟩
      have hcount := pagesOwned_few hat.holding (by omega)
      unfold ownedBytes
      omega

/-! ## Allocating and freeing inodes -/

theorem At.header {i n : Nat} {m m' : Image} (h : At i n m) {j : Nat} (hj : j < 256)
    (hchanged : ChangedIn (span (getInode j) 12) m m') (hi : i < 256) : At i n m' := by
  have hpage : ∀ p < 256, bit m' getPagesBitmap p = bit m getPagesBitmap p := fun p hp => by
    apply bit_changedIn hchanged
    simp only [getPagesBitmap, getInode_eq, mem_span]
    omega
  have hinode : ∀ x < 256, bit m' getInodeBitmap x = bit m getInodeBitmap x := fun x hx => by
    apply bit_changedIn hchanged
    simp only [getInodeBitmap, getInode_eq, mem_span]
    omega
  have hptr : ∀ x < 256, ∀ k < 3, ptr m' x k = ptr m x k := fun x hx k hk => by
    apply hchanged.int32
    simp only [getInode_eq, Inode.dptrs, mem_span]
    omega
  have hentry : ∀ p : Nat, 2 ≤ p → p < 256 → ∀ k < 1024, pageEntry m' p k = pageEntry m p k :=
    fun p h2 hp k hk => by
      apply hchanged.int32
      simp only [pagesGetPage, getInode_eq, mem_span]
      omega
  refine ⟨h.owned.congr hpage hptr hentry fun x hx =>
    Or.inl (by rw [Allocated, hinode x hx]), ?_, ?_⟩
  · rw [Allocated, hinode i hi]
    exact h.allocated
  · obtain ⟨hle, hn⟩ := h.holding
    refine ⟨hle, fun r hr => ?_⟩
    rw [← hn r hr]
    unfold recorded
    rw [hptr i hi 2 (by omega)]
    by_cases hr3 : r < 3
    · rw [if_pos hr3, if_pos hr3, hptr i hi r hr3]
    · rw [if_neg hr3, if_neg hr3]
      by_cases hzero : ptr m i 2 = 0
      · rw [if_pos hzero, if_pos hzero]
      · obtain ⟨q, hq, h2, h256, -⟩ := h.owned.indirect_range hi h.allocated hzero
        rw [if_neg hzero, if_neg hzero, hq, hentry q h2 h256 (r - 3) (by omega)]

/-- Clearing the record of an inode without pages and setting its bit. -/
theorem Owned.wipe {i : Nat} {m m' : Image} (h : Owned m) (hi : i < 256)
    (hzero : ∀ j < 3, ptr m i j = 0) (hzero' : ∀ j < 3, ptr m' i j = 0)
    (hchanged : ChangedIn {x | x ∈ span (getInode i) 24 ∨
      x ∈ span (32 + ((i / 8 : Nat) : Int)) 1} m m')
    (hinode : ∀ x < 256, x ≠ i → bit m' getInodeBitmap x = bit m getInodeBitmap x) : Owned m' := by
  apply h.congr
  · intro p hp
    apply bit_changedIn hchanged
    simp only [getPagesBitmap, getInode_eq, mem_span, Set.mem_ofPred_eq]
    omega
  · intro x hx j hj
    by_cases hxi : x = i
    · rw [hxi, hzero j hj, hzero' j hj]
    · apply hchanged.int32
      simp only [getInode_eq, Inode.dptrs, mem_span, Set.mem_ofPred_eq]
      omega
  · intro p h2 hp k hk
    apply hchanged.int32
    simp only [pagesGetPage, getInode_eq, mem_span, Set.mem_ofPred_eq]
    omega
  · intro x hx
    by_cases hxi : x = i
    · exact Or.inr (hxi ▸ hzero)
    · exact Or.inl (by rw [Allocated, hinode x hx hxi])

theorem ptr_fill (m : Image) {i j : Nat} (hj : j < 3) :
    ptr (fill m (getInode i) INODE_SIZE 0) i j = 0 := by
  apply int32_zero
  intro x hx
  simp only [getInode_eq, Inode.dptrs, mem_span] at hx
  unfold fill patch
  rw [if_pos]
  simp only [getInode_eq, INODE_SIZE]
  omega

theorem fill_changed (m : Image) (i : Nat) :
    ChangedIn (span (getInode i) 24) m (fill m (getInode i) INODE_SIZE 0) :=
  changedIn_patch m _ _ _

theorem inodeBit_set (m : Image) (i : Nat) (v : Int) :
    ChangedIn (span (32 + ((i / 8 : Nat) : Int)) 1) m (bitmapSet m getInodeBitmap i v) :=
  changedIn_bitmapSet m getInodeBitmap i v

theorem ptr_inodeBit_set (m : Image) {i : Nat} (hi : i < 256) (v : Int) (k j : Nat) :
    ptr (bitmapSet m getInodeBitmap i v) k j = ptr m k j := by
  apply (inodeBit_set m i v).int32
  simp only [getInode_eq, Inode.dptrs, mem_span]
  omega

def refs (m : Image) (i : Int) : Int := int32 m (getInode i + Inode.refs)

/-- The inode `i` is new. -/
structure Created (m m' : Image) (i : Nat) : Prop where
  changed : ChangedIn {x | x ∈ span (32 + ((i / 8 : Nat) : Int)) 1 ∨ x ∈ span (getInode i) 24} m m'
  inodes : ∀ x < 256, bit m' getInodeBitmap x = if x = i then true else bit m getInodeBitmap x
  ptrs : ∀ j < 3, ptr m' i j = 0
  count : refs m' i = 0
  mode : int32 m' (getInode i + Inode.mode) = 0o100644

theorem allocInode_cases (m : Image) :
    (allocInode m = (m, -1) ∧ ∀ i < 256, bit m getInodeBitmap i = true) ∨
      ∃ m', ∃ i : Nat, i < 256 ∧ bit m getInodeBitmap i = false ∧
        (∀ j < i, bit m getInodeBitmap j = true) ∧ allocInode m = (m', (i : Int)) ∧
        Created m m' i := by
  unfold allocInode
  cases hfind : firstClear m getInodeBitmap INODE_COUNT with
  | none => exact Or.inl ⟨rfl, firstClear_none hfind⟩
  | some i =>
    obtain ⟨hi, hclear, hless⟩ := firstClear_some hfind
    have hi : i < 256 := hi
    refine Or.inr ⟨_, i, hi, hclear, hless, rfl, ?_⟩
    generalize hm₂ :
      setInt32 (fill m (getInode i) INODE_SIZE 0) (getInode i + Inode.mode) 0o100644 = m₂
    have h₂ : ChangedIn (span (getInode i) 24) m m₂ := by
      rw [← hm₂]
      apply (fill_changed m i).trans
      apply (changedIn_setInt32 _ _ _).mono
      simp only [Inode.mode, mem_span]
      omega
    have hptr : ∀ j < 3, ptr m₂ i j = 0 := fun j hj => by
      rw [← ptr_fill m hj, ← hm₂]
      apply int32_setInt32_ne
      simp only [Inode.mode, Inode.dptrs]
      omega
    have hcount : refs m₂ i = 0 := by
      rw [← hm₂]
      unfold refs
      rw [int32_setInt32_ne]
      · apply int32_zero
        intro x hx
        unfold fill patch
        rw [if_pos]
        simp only [Inode.refs, INODE_SIZE, mem_span] at hx ⊢
        omega
      · simp only [Inode.mode, Inode.refs]
        omega
    have hmode : int32 m₂ (getInode i + Inode.mode) = 0o100644 := by
      rw [← hm₂]
      exact int32_setInt32_of_lt _ _ (by decide) (by decide)
    have hbit := inodeBit_set m₂ i 1
    have hnode : ∀ a : Int, 0 ≤ a → int32 (bitmapSet m₂ getInodeBitmap i 1) (getInode i + a) =
        int32 m₂ (getInode i + a) := fun a ha => by
      apply hbit.int32
      simp only [getInode_eq, mem_span]
      omega
    constructor
    · exact (h₂.mono fun x hx => Or.inr hx).trans (hbit.mono fun x hx => Or.inl hx)
    · intro x hx
      rw [bit_bitmapSet]
      by_cases hxi : x = i
      · rw [if_pos hxi, if_pos hxi]
        rfl
      · rw [if_neg hxi, if_neg hxi]
        apply bit_changedIn h₂
        simp only [getInodeBitmap, getInode_eq, mem_span]
        omega
    · intro j hj
      rw [ptr_inodeBit_set _ hi, hptr j hj]
    · rw [← hcount]
      exact hnode Inode.refs (by decide)
    · rw [← hmode]
      exact hnode Inode.mode (by decide)

theorem allocInode_owned {m : Image} (h : Owned m) :
    allocInode m = (m, -1) ∨ ∃ i :
    Nat, i < 256 ∧ (allocInode m).2 = (i : Int) ∧ At i 0 (allocInode m).1 := by
  rcases allocInode_cases m with ⟨hnone, -⟩ | ⟨m', i, hi, hclear, -, halloc, hnew⟩
  · exact Or.inl hnone
  · right
    refine ⟨i, hi, snd_of_eq halloc, ?_⟩
    rw [fst_of_eq halloc]
    have hfree : ∀ j < 3, ptr m i j = 0 := h.free i hi (by simp [Allocated, hclear])
    have howned : Owned m' := by
      apply h.wipe hi hfree hnew.ptrs
      · exact hnew.changed.mono fun x hx => hx.symm
      · intro x hx hne
        rw [hnew.inodes x hx, if_neg hne]
    refine ⟨howned, by rw [Allocated, hnew.inodes i hi, if_pos rfl], by omega, fun r hr => ?_⟩
    unfold recorded
    rw [hnew.ptrs 2 (by omega)]
    by_cases hr3 : r < 3
    · rw [if_pos hr3, hnew.ptrs r hr3]
      omega
    · rw [if_neg hr3]
      omega

theorem At.wiped {i : Nat} {m : Image} (h : At i 0 m) (hi : i < 256) :
    Owned (bitmapSet (fill m (getInode i) INODE_SIZE 0) getInodeBitmap i 0) := by
  have hzero : ∀ j < 3, ptr m i j = 0 := by
    intro j hj
    rw [← recorded_ptr m i hj]
    exact h.owned.zero_of_not_holding hi h.allocated h.holding (by omega) (Nat.zero_le j)
  apply h.owned.wipe hi hzero
  · intro j hj
    rw [ptr_inodeBit_set _ hi, ptr_fill m hj]
  · exact ((fill_changed m i).mono fun x hx => Or.inl hx).trans
      ((inodeBit_set _ i 0).mono fun x hx => Or.inr hx)
  · intro x hx hne
    rw [bit_bitmapSet, if_neg hne]
    apply bit_changedIn (fill_changed m i)
    simp only [getInodeBitmap, getInode_eq, mem_span]
    omega

theorem ShrinksClean.header {m m' : Image} {i n : Nat} {size : Int} (h : At i n m) (hi : i < 256)
    (hchanged : ChangedIn (span (getInode i) 12) m m') (hsize : size ≤ 0)
    (hclean : ShrinksClean m (getInode i) size) : ShrinksClean m' (getInode i) size := by
  have h' := h.header hi hchanged hi
  have hptr : ∀ k < 3, ptr m' i k = ptr m i k := fun k hk => by
    apply hchanged.int32
    simp only [getInode_eq, Inode.dptrs, mem_span]
    omega
  unfold ShrinksClean at hclean ⊢
  rw [← ptr_two] at hclean ⊢
  rw [hptr 2 (by omega)]
  rcases hclean with hneg | hind | hfew | hle
  · exact Or.inl hneg
  · exact Or.inr (Or.inl hind)
  · by_cases hind : ptr m i 2 = 0
    · -- the count cannot get past the first entry of page 0
      right; right; left
      by_contra hmore
      have hpos : ∀ j < 3, 0 < inodeGetPnum m' (getInode i) j := fun j hj => pnum_pos (by omega)
      have hsame : ∀ j < 3, inodeGetPnum m' (getInode i) j = inodeGetPnum m (getInode i) j := by
        intro j hj
        have hdirect : ∀ k < 3, int32 m' (getInode i + Inode.dptrs + 4 * (k : Nat)) =
            int32 m (getInode i + Inode.dptrs + 4 * (k : Nat)) := hptr
        unfold inodeGetPnum
        by_cases hj2 : j < 2
        · rw [if_pos hj2, if_pos hj2, hdirect j hj]
        · rw [if_neg hj2, if_neg hj2, ← ptr_two, ← ptr_two, hptr 2 (by omega), hind]
          apply hchanged.int32
          simp only [pagesGetPage, getInode_eq, mem_span]
          omega
      have hstop : inodeGetPnum m (getInode i) (pagesOwned m (getInode i)) ≤ 0 :=
        pnum_stop (by omega)
      have := hpos (pagesOwned m (getInode i)) (by omega)
      rw [hsame _ (by omega)] at this
      omega
    · exact Or.inr (Or.inl hind)
  · have hn : n = 0 := h.empty_of_ownedBytes (by omega)
    have hcount := pagesOwned_few h'.holding (by omega)
    exact Or.inr (Or.inr (Or.inl (by omega)))

theorem freeInode_owned {i n : Nat} {m : Image} (hi : i < 256) (h : At i n m)
    (hclean : int32 m (getInode i + Inode.refs) = 1 → ShrinksClean m (getInode i) 0) :
    Owned (freeInode m i) := by
  unfold freeInode
  have hnonneg : ¬ (i : Int) < 0 := by omega
  have hrange := int32_range m (getInode i + Inode.refs)
  have hchanged : ChangedIn (span (getInode i) 12) m (setInt32 m (getInode i + Inode.refs)
      (int32 m (getInode i + Inode.refs) - 1)) := by
    apply (changedIn_setInt32 _ _ _).mono
    simp only [Inode.refs, mem_span]
    intro x hx
    omega
  have h₁ := h.header hi hchanged hi
  rw [if_neg hnonneg]
  dsimp only
  rw [int32_setInt32]
  by_cases hzero : (int32 m (getInode i + Inode.refs) - 1).bmod (2 ^ 32) = 0
  · have hone : int32 m (getInode i + Inode.refs) = 1 := by
      rw [Int.bmod_def] at hzero
      omega
    rw [if_pos hzero]
    obtain ⟨n', hat, hle⟩ := shrinkInode_at 0 hi h₁
      ((hclean hone).header h hi hchanged (Int.le_refl 0))
    obtain rfl := hat.empty_of_ownedBytes (hle (Int.le_refl 0))
    exact hat.wiped hi
  · rw [if_neg hzero]
    exact h₁.owned

end Cs3650.Nufs
