import Cs3650.Nufs.PageRuns

/-!
# What the directory operations do to slots and inodes

Each lemma describes one call on a directory whose page is an ordinary one. A
directory inode has its first direct page and nothing else, other inodes here
have no page at all.
-/

namespace Cs3650.Nufs

open Cs3650.Lib

/-- The inode number in entry `k`, unless the entry is free. -/
def slotAt (m : Image) (start : Int) (k : Nat) : Option Int :=
  if m (direntName start k) = nul then none else some (int32 m (direntInum start k))

def EntryName (name : Str) : Prop := 1 ≤ name.length ∧ name.length ≤ 59 ∧ nul ∉ name

instance (name : Str) : Decidable (EntryName name) :=
  inferInstanceAs (Decidable (1 ≤ name.length ∧ name.length ≤ 59 ∧ nul ∉ name))

/-- At most the first direct page. -/
structure Small (m : Image) (i : Nat) : Prop where
  direct : ptr m i 0 = 0 ∨ 2 ≤ ptr m i 0 ∧ ptr m i 0 < 256
  second : ptr m i 1 = 0
  indirect : ptr m i 2 = 0

/-- The bytes of an inode and of the two bitmaps. -/
def inodeArea (i : Nat) : Set Int :=
  {x | x ∈ span 0 32 ∨ x ∈ span (32 + ((i / 8 : Nat) : Int)) 1 ∨ x ∈ span (getInode i) 24}

theorem inodeArea_below {i : Nat} (hi : i < 256) : ∀ x ∈ inodeArea i, x < 8192 := by
  intro x hx
  simp only [inodeArea, getInode_eq, mem_span, Set.mem_ofPred_eq] at hx
  omega

theorem ptr_zero (m : Image) (i : Nat) : ptr m i 0 = int32 m (getInode i + Inode.dptrs) := by
  unfold ptr
  congr 1

theorem pnum_ptr (m : Image) (i : Nat) {j : Nat} (hj : j < 2) :
    inodeGetPnum m (getInode i) j = ptr m i j :=
  if_pos hj

theorem direntBase_eq (m : Image) (i : Nat) :
    direntBase m (getInode i) = pagesGetPage (ptr m i 0) := by
  unfold direntBase
  rw [pnum_ptr m i (by decide)]

/-! ## Giving an inode back -/

theorem pagesOwned_zero {m : Image} {i : Nat} (h : ptr m i 0 ≤ 0) : pagesOwned m (getInode i) = 0 :=
  pagesOwned_eq (Nat.zero_le _) (fun j hj => absurd hj (Nat.not_lt_zero j))
    fun _ => by rwa [pnum_ptr m i (by decide)]

theorem pagesOwned_one {m : Image} {i : Nat} (h0 : 0 < ptr m i 0) (h1 : ptr m i 1 ≤ 0) :
    pagesOwned m (getInode i) = 1 := by
  apply pagesOwned_eq (by decide)
  · intro j hj
    obtain rfl : j = 0 := by omega
    rwa [pnum_ptr m i (by decide)]
  · intro _
    rwa [pnum_ptr m i (by decide)]

theorem shrinkIndirect_none {m : Image} {i : Nat} (h : ptr m i 2 = 0) :
    shrinkIndirect (getInode i) m = (m, none) := by
  rw [ptr_two] at h
  unfold shrinkIndirect
  have hself := setInt32_self m (getInode i + Inode.iptr)
  rw [h] at hself
  simp [h, hself]

theorem shrinkEntries_none {m : Image} {node size : Int} (h : pagesOwned m node ≤ 2) :
    shrinkEntries node size m = (m, none) := by
  unfold shrinkEntries
  rw [Nat.sub_eq_zero_of_le h]
  rfl

theorem shrinkDirect_skip {m : Image} {i j : Nat} {size : Int} (h : ptr m i j ≤ 0) :
    shrinkDirect (getInode i) size j m = shrinkCheck (getInode i) size m := by
  have hslot : ¬ int32 m (getInode i + Inode.dptrs + 4 * (j : Nat)) > 0 := by
    unfold ptr at h
    omega
  unfold shrinkDirect
  dsimp only
  rw [if_neg fun hc => hslot hc.2]

theorem shrinkInode_fits (junk : Int) {m : Image} {i : Nat} {size : Int}
    (hfits : ownedBytes m (getInode i) ≤ size)
    (hfew : pagesOwned m (getInode i) ≤ 2 → ptr m i 2 = 0) :
    shrinkInode junk m (getInode i) size = (m, 0) := by
  have hless : ¬ ownedBytes m (getInode i) > size := Int.not_lt.mpr hfits
  have hcheck : shrinkCheck (getInode i) size m = (m, some 0) := by
    unfold shrinkCheck
    rw [if_pos hfits]
  have hbody : shrinkBody (getInode i) size m = (m, some 0) := by
    unfold shrinkBody
    by_cases h2 : pagesOwned m (getInode i) ≤ 2
    · rw [Stmt.seq_of_fall (shrinkEntries_none h2),
        Stmt.seq_of_fall (shrinkIndirect_none (hfew h2))]
      apply Stmt.loop_of_return (by decide)
      unfold shrinkDirect
      dsimp only
      rw [if_neg fun hc => hless hc.1, hcheck]
    · apply Stmt.seq_of_return
      apply Stmt.loop_of_return (by omega)
      unfold shrinkEntry
      rw [if_neg hless, hcheck]
  have hsize : 0 ≤ ownedBytes m (getInode i) := by
    unfold ownedBytes
    omega
  unfold shrinkInode Stmt.run
  rw [if_neg (by omega), hbody]
  rfl

theorem shrinkInode_empty (junk : Int) {m : Image} {i : Nat} (h0 : ptr m i 0 = 0)
    (h2 : ptr m i 2 = 0) : (shrinkInode junk m (getInode i) 0).1 = m := by
  have hcount : pagesOwned m (getInode i) = 0 := pagesOwned_zero (by omega)
  have hfits : ownedBytes m (getInode i) ≤ 0 := by
    unfold ownedBytes
    rw [hcount]
    decide
  exact fst_of_eq (shrinkInode_fits junk hfits fun _ => h2)

theorem shrinkDirects (node size : Int) :
    Stmt.loop (fun j => shrinkDirect node size (1 - j)) 0 2 =
      Stmt.seq (shrinkDirect node size 1) (Stmt.seq (shrinkDirect node size 0) fun s =>
        (s, none)) :=
  Stmt.loop_two _

theorem shrinkInode_one (junk : Int) {m : Image} {i : Nat} (h0 : 0 < ptr m i 0)
    (h1 : ptr m i 1 = 0) (h2 : ptr m i 2 = 0) : (shrinkInode junk m (getInode i) 0).1 =
      setInt32 (freePage m (ptr m i 0)) (getInode i + Inode.dptrs) 0 := by
  have hcount : pagesOwned m (getInode i) = 1 := pagesOwned_one h0 (Int.le_of_eq h1)
  have hbytes : ownedBytes m (getInode i) = 4096 := by
    unfold ownedBytes
    rw [hcount]
    rfl
  have hsecond : shrinkDirect (getInode i) 0 1 m = (m, none) := by
    rw [shrinkDirect_skip (Int.le_of_eq h1)]
    simp [shrinkCheck, hbytes]
  have hfirst : (shrinkDirect (getInode i) 0 0 m).1 =
      setInt32 (freePage m (ptr m i 0)) (getInode i + Inode.dptrs) 0 := by
    have hslot : getInode i + Inode.dptrs + 4 * ((0 : Nat) : Int) = getInode i + Inode.dptrs := by
      omega
    have hcond : ownedBytes m (getInode i) > 0 ∧ int32 m (getInode i + Inode.dptrs) > 0 := by
      rw [hbytes, ← ptr_zero]
      exact ⟨by decide, h0⟩
    unfold shrinkDirect shrinkCheck
    dsimp only
    rw [hslot, if_pos hcond, ptr_zero]
  have hbody : (shrinkBody (getInode i) 0 m).1 =
      setInt32 (freePage m (ptr m i 0)) (getInode i + Inode.dptrs) 0 := by
    unfold shrinkBody
    rw [Stmt.seq_of_fall (shrinkEntries_none (by omega)), Stmt.seq_of_fall (shrinkIndirect_none h2),
      shrinkDirects, Stmt.seq_of_fall hsecond, Stmt.seq_skip]
    exact hfirst
  unfold shrinkInode
  rw [if_neg (by decide), Stmt.run_fst, hbody]

theorem freeInode_more {m : Image} {i : Nat} (h : refs m i ≠ 1) :
    freeInode m i = setInt32 m (getInode i + Inode.refs) (refs m i - 1) := by
  have hnonneg : ¬ (i : Int) < 0 := by omega
  have hrange := int32_range m (getInode i + Inode.refs)
  have hzero : ¬ (refs m i - 1).bmod (2 ^ 32) = 0 := by
    unfold refs at h ⊢
    rw [Int.bmod_def]
    omega
  unfold freeInode
  rw [if_neg hnonneg]
  dsimp only
  rw [int32_setInt32]
  exact if_neg hzero

/-- The inode `i` is gone, and its page with it. -/
structure Freed (m m' : Image) (i : Nat) : Prop where
  inodes : ∀ x < 256, bit m' getInodeBitmap x = if x = i then false else bit m getInodeBitmap x
  pages : ∀ x < 256, bit m' getPagesBitmap x =
    if 0 < ptr m i 0 ∧ ptr m i 0 = x then false else bit m getPagesBitmap x
  ptrs : ∀ j < 3, ptr m' i j = 0

/-- From a state whose inode has lost its page. -/
theorem freed_of_wipe {m m₁ : Image} {i : Nat} (hi : i < 256)
    (hchanged : ChangedIn {x | x ∈ span 0 32 ∨ x ∈ span (getInode i) 24} m m₁)
    (hpages : ∀ x < 256, bit m₁ getPagesBitmap x =
      if 0 < ptr m i 0 ∧ ptr m i 0 = x then false else bit m getPagesBitmap x) :
    ChangedIn (inodeArea i) m (bitmapSet (fill m₁ (getInode i) INODE_SIZE 0) getInodeBitmap i 0) ∧
      Freed m (bitmapSet (fill m₁ (getInode i) INODE_SIZE 0) getInodeBitmap i 0) i := by
  refine ⟨?_, ?_, ?_, ?_⟩
  · refine (hchanged.mono fun x hx => hx.imp_right Or.inr).trans
      (((fill_changed m₁ i).mono fun x hx => Or.inr (Or.inr hx)).trans
        ((inodeBit_set _ i 0).mono fun x hx => Or.inr (Or.inl hx)))
  · intro x hx
    rw [bit_bitmapSet]
    by_cases hxi : x = i
    · rw [if_pos hxi, if_pos hxi]
      rfl
    · rw [if_neg hxi, if_neg hxi]
      apply bit_changedIn (hchanged.trans ((fill_changed m₁ i).mono fun x hx => Or.inr hx))
      simp only [getInodeBitmap, getInode_eq, mem_span, Set.mem_ofPred_eq]
      omega
  · intro x hx
    rw [bit_changedIn (inodeBit_set _ i 0), bit_changedIn (fill_changed m₁ i), hpages x hx]
    · simp only [getPagesBitmap, getInode_eq, mem_span]
      omega
    · simp only [getPagesBitmap, mem_span]
      omega
  · intro j hj
    rw [ptr_inodeBit_set _ hi, ptr_fill _ hj]

theorem freeInode_one {m : Image} {i : Nat} (hone : refs m i = 1) :
    freeInode m i = bitmapSet (fill (shrinkInode 0 (setInt32 m (getInode i + Inode.refs) 0)
      (getInode i) 0).1 (getInode i) INODE_SIZE 0) getInodeBitmap i 0 := by
  have hnonneg : ¬ (i : Int) < 0 := by omega
  have hdown : refs m i - 1 = 0 := by rw [hone]; rfl
  unfold freeInode
  rw [if_neg hnonneg]
  dsimp only
  unfold refs at hdown
  rw [hdown, int32_setInt32, if_pos (by decide)]

theorem freeInode_last {m : Image} {i : Nat} (hi : i < 256) (hsmall : Small m i)
    (hone : refs m i = 1) :
    ChangedIn (inodeArea i) m (freeInode m i) ∧ Freed m (freeInode m i) i := by
  have hfree := freeInode_one hone
  have hcount : ChangedIn (span (getInode i) 4) m (setInt32 m (getInode i + Inode.refs) 0) := by
    have hset := changedIn_setInt32 m (getInode i + Inode.refs) 0
    simpa [Inode.refs] using hset
  have hptr : ∀ j, ptr (setInt32 m (getInode i + Inode.refs) 0) i j = ptr m i j := fun j => by
    apply hcount.int32
    simp only [Inode.dptrs, mem_span]
    omega
  have hbit : ∀ x < 256, bit (setInt32 m (getInode i + Inode.refs) 0) getPagesBitmap x =
      bit m getPagesBitmap x := fun x hx => by
    apply bit_changedIn hcount
    simp only [getPagesBitmap, getInode_eq, mem_span]
    omega
  generalize setInt32 m (getInode i + Inode.refs) 0 = m₀ at hfree hcount hptr hbit
  have h1 : ptr m₀ i 1 = 0 := (hptr 1).trans hsmall.second
  have h2 : ptr m₀ i 2 = 0 := (hptr 2).trans hsmall.indirect
  rw [hfree]
  rcases hsmall.direct with hnone | ⟨hlo, hhi⟩
  · rw [shrinkInode_empty 0 ((hptr 0).trans hnone) h2]
    apply freed_of_wipe hi
    · apply hcount.mono
      intro x hx
      right
      simp only [mem_span] at hx ⊢
      omega
    · intro x hx
      rw [hbit x hx, if_neg]
      omega
  · obtain ⟨p, hp⟩ : ∃ p : Nat, ptr m i 0 = p := ⟨(ptr m i 0).toNat, by omega⟩
    have h0 : ptr m₀ i 0 = p := (hptr 0).trans hp
    rw [hp] at hlo hhi
    rw [shrinkInode_one 0 (by omega) h1 h2, h0]
    unfold freePage
    have hslot : ChangedIn (span (getInode i) 24) (bitmapSet m₀ getPagesBitmap p 0)
        (setInt32 (bitmapSet m₀ getPagesBitmap p 0) (getInode i + Inode.dptrs) 0) := by
      apply (changedIn_setInt32 _ _ _).mono
      simp only [Inode.dptrs, mem_span]
      intro x hx
      omega
    apply freed_of_wipe hi
    · refine (hcount.mono fun x hx => ?_).trans
        (((changedIn_bitmapSet m₀ getPagesBitmap p 0).mono fun x hx => ?_).trans
          (hslot.mono fun x hx => Or.inr hx))
      · right
        simp only [mem_span] at hx ⊢
        omega
      · left
        simp only [getPagesBitmap, mem_span] at hx ⊢
        omega
    · intro x hx
      have hkeep : bit (setInt32 (bitmapSet m₀ getPagesBitmap p 0) (getInode i + Inode.dptrs) 0)
          getPagesBitmap x = bit (bitmapSet m₀ getPagesBitmap p 0) getPagesBitmap x := by
        apply bit_changedIn hslot
        simp only [getPagesBitmap, getInode_eq, mem_span]
        omega
      rw [hkeep, bit_bitmapSet, hbit x hx, hp]
      by_cases hxp : x = p
      · rw [if_pos hxp, if_pos (by omega)]
        rfl
      · rw [if_neg hxp, if_neg (by omega)]

/-! ## Taking an inode -/

/-- The inode `i` is a new directory with page `p`. -/
structure CreatedDir (m m' : Image) (i p : Nat) : Prop where
  changed : ChangedIn (inodeArea i) m m'
  inodes : ∀ x < 256, bit m' getInodeBitmap x = if x = i then true else bit m getInodeBitmap x
  pages : ∀ x < 256, bit m' getPagesBitmap x = if x = p then true else bit m getPagesBitmap x
  ptrs : ∀ j < 3, ptr m' i j = if j = 0 then (p : Int) else 0
  count : refs m' i = 0
  mode : int32 m' (getInode i + Inode.mode) = 0o40755

theorem growInode_first {m : Image} {i p : Nat} (hi : i < 256) (hptr : ∀ j < 3, ptr m i j = 0)
    (hp : p < 256) (hpos : 0 < p) (hclear : bit m getPagesBitmap p = false)
    (hless : ∀ j < p, bit m getPagesBitmap j = true) : (growInode 0 m (getInode i) 4096).1 =
      setInt32 (bitmapSet m getPagesBitmap p 1) (getInode i + Inode.dptrs) p := by
  have hslot : getInode i + Inode.dptrs + 4 * ((0 : Nat) : Int) = getInode i + Inode.dptrs := by
    omega
  have hnone : ownedBytes m (getInode i) = 0 := by
    unfold ownedBytes
    rw [pagesOwned_zero (Int.le_of_eq (hptr 0 (by decide)))]
    rfl
  have hzero : int32 m (getInode i + Inode.dptrs) = 0 := by
    rw [← ptr_zero]
    exact hptr 0 (by decide)
  have hone : ownedBytes (setInt32 (bitmapSet m getPagesBitmap p 1) (getInode i + Inode.dptrs) p)
      (getInode i) = 4096 := by
    have hset :
        ptr (setInt32 (bitmapSet m getPagesBitmap p 1) (getInode i + Inode.dptrs) p) i 0 = p := by
      rw [ptr_zero]
      exact int32_setInt32_of_lt _ _ (by omega) (by omega)
    have hsecond :
        ptr (setInt32 (bitmapSet m getPagesBitmap p 1) (getInode i + Inode.dptrs) p) i 1 = 0 := by
      rw [← hptr 1 (by decide)]
      have hbit := changedIn_bitmapSet m getPagesBitmap p 1
      unfold ptr
      rw [int32_setInt32_ne _ (by omega)]
      apply hbit.int32
      simp only [getPagesBitmap, getInode_eq, Inode.dptrs, mem_span]
      omega
    unfold ownedBytes
    rw [pagesOwned_one (by omega) (Int.le_of_eq hsecond)]
    rfl
  have halloc : allocPage m = (bitmapSet m getPagesBitmap p 1, (p : Int)) := by
    rcases allocPage_cases m with ⟨-, hfull⟩ | ⟨q, hq, hqclear, hqless, hq'⟩
    · rw [hfull p hp] at hclear
      cases hclear
    · have hqp : q = p := by
        rcases Nat.lt_trichotomy q p with hlt | heq | hlt
        · rw [hless q hlt] at hqclear
          cases hqclear
        · exact heq
        · rw [hqless p hlt] at hclear
          cases hclear
      rw [hq', hqp]
  have hturn : growDirect (getInode i) 4096 0 m =
      (setInt32 (bitmapSet m getPagesBitmap p 1) (getInode i + Inode.dptrs) p, some 0) := by
    have hnonneg : ¬ (p : Int) < 0 := by omega
    unfold growDirect growTurn
    simp only [hslot, hnone, hzero, halloc, hone, if_neg hnonneg]
    rfl
  have hbody : growBody (getInode i) 4096 m =
      (setInt32 (bitmapSet m getPagesBitmap p 1) (getInode i + Inode.dptrs) p, some 0) :=
    Stmt.seq_of_return (Stmt.loop_of_return (by decide) hturn)
  unfold growInode
  rw [if_neg (by omega), Stmt.run_fst, hbody]

theorem exists_lowest_page {m : Image} {p₀ : Nat} (hp₀ : p₀ < 256)
    (hroom : bit m getPagesBitmap p₀ = false) :
    ∃ p < 256, bit m getPagesBitmap p = false ∧ ∀ j < p, bit m getPagesBitmap j = true := by
  rcases allocPage_cases m with ⟨-, hfull⟩ | ⟨p, hp, hclear, hless, -⟩
  · rw [hfull p₀ hp₀] at hroom
    cases hroom
  · exact ⟨p, hp, hclear, hless⟩

/-- The other words of an inode when it gets its first page. -/
theorem int32_firstPage (m : Image) {i p : Nat} (hp : p < 256) {a : Int} (ha : 0 ≤ a)
    (hor : a + 4 ≤ 12 ∨ 16 ≤ a) :
    int32 (setInt32 (bitmapSet m getPagesBitmap p 1) (getInode i + Inode.dptrs) p) (getInode i +
      a) = int32 m (getInode i + a) := by
  rw [int32_setInt32_ne _ (by simp only [Inode.dptrs]; omega)]
  apply (changedIn_bitmapSet m getPagesBitmap p 1).int32
  simp only [getPagesBitmap, getInode_eq, mem_span]
  omega

theorem directoryInit_cases {m : Image} {i₀ p₀ : Nat} (hi₀ : i₀ < 256)
    (hfree : bit m getInodeBitmap i₀ = false) (hp₀ : p₀ < 256)
    (hroom : bit m getPagesBitmap p₀ = false) (hreserved : bit m getPagesBitmap 0 = true) :
    ∃ m', ∃ i p : Nat, i < 256 ∧ bit m getInodeBitmap i = false ∧
      (∀ j < i, bit m getInodeBitmap j = true) ∧ p < 256 ∧ bit m getPagesBitmap p = false ∧
      (∀ j < p, bit m getPagesBitmap j = true) ∧ directoryInit m = (m', (i : Int)) ∧
      CreatedDir m m' i p := by
  rcases allocInode_cases m with ⟨-, hfull⟩ | ⟨m₁, i, hi, hclear, hless, halloc, hnew⟩
  · rw [hfull i₀ hi₀] at hfree
    cases hfree
  obtain ⟨p, hp, hpclear, hpless⟩ := exists_lowest_page hp₀ hroom
  have hpos : 0 < p := by
    rcases Nat.eq_zero_or_pos p with rfl | hpos
    · rw [hreserved] at hpclear
      cases hpclear
    · exact hpos
  refine ⟨_, i, p, hi, hclear, hless, hp, hpclear, hpless, directoryInit_of halloc, ?_⟩
  generalize hm₂ : setInt32 m₁ (getInode i + Inode.mode) 0o40755 = m₂
  have h₂ : ChangedIn (span (getInode i + 4) 4) m₁ m₂ := by
    rw [← hm₂]
    exact changedIn_setInt32 m₁ _ _
  have hpages₂ : ∀ x < 256, bit m₂ getPagesBitmap x = bit m getPagesBitmap x := by
    intro x hx
    rw [bit_changedIn h₂, bit_changedIn hnew.changed]
    · simp only [getPagesBitmap, getInode_eq, mem_span, Set.mem_ofPred_eq]
      omega
    · simp only [getPagesBitmap, getInode_eq, mem_span]
      omega
  have hptr₂ : ∀ j < 3, ptr m₂ i j = 0 := fun j hj => by
    rw [← hnew.ptrs j hj]
    apply h₂.int32
    simp only [getInode_eq, Inode.dptrs, mem_span]
    omega
  have hcount₂ : refs m₂ i = 0 := by
    rw [← hnew.count]
    apply h₂.int32
    simp only [getInode_eq, Inode.refs, mem_span]
    omega
  have hmode₂ : int32 m₂ (getInode i + Inode.mode) = 0o40755 := by
    rw [← hm₂]
    exact int32_setInt32_of_lt _ _ (by decide) (by decide)
  rw [growInode_first hi hptr₂ hp hpos (by rw [hpages₂ p hp, hpclear]) fun j hj => by
    rw [hpages₂ j (by omega), hpless j hj]]
  have h₃ := changedIn_bitmapSet m₂ getPagesBitmap p 1
  have h₄ :=
    changedIn_setInt32 (bitmapSet m₂ getPagesBitmap p 1) (getInode i + Inode.dptrs) (p : Int)
  have hset : int32 (setInt32 (bitmapSet m₂ getPagesBitmap p 1) (getInode i + Inode.dptrs) p)
      (getInode i + Inode.dptrs) = p := int32_setInt32_of_lt _ _ (by omega) (by omega)
  constructor
  · have g₁ : ChangedIn (inodeArea i) m m₁ := hnew.changed.mono fun x hx => Or.inr hx
    have g₂ : ChangedIn (inodeArea i) m₁ m₂ := by
      apply h₂.mono
      simp only [inodeArea, getInode_eq, mem_span, Set.mem_ofPred_eq]
      omega
    have g₃ : ChangedIn (inodeArea i) m₂ (bitmapSet m₂ getPagesBitmap p 1) := by
      apply h₃.mono
      simp only [inodeArea, getPagesBitmap, mem_span, Set.mem_ofPred_eq]
      omega
    apply ((g₁.trans g₂).trans g₃).trans
    apply h₄.mono
    simp only [inodeArea, Inode.dptrs, getInode_eq, mem_span, Set.mem_ofPred_eq]
    omega
  · intro x hx
    rw [← hnew.inodes x hx, bit_changedIn h₄, bit_changedIn h₃, bit_changedIn h₂]
    · simp only [getInodeBitmap, getInode_eq, mem_span]
      omega
    · simp only [getInodeBitmap, getPagesBitmap, mem_span]
      omega
    · simp only [getInodeBitmap, getInode_eq, Inode.dptrs, mem_span]
      omega
  · intro x hx
    rw [bit_changedIn h₄, bit_bitmapSet, hpages₂ x hx]
    · rfl
    · simp only [getPagesBitmap, getInode_eq, Inode.dptrs, mem_span]
      omega
  · intro j hj
    rcases Nat.eq_zero_or_pos j with rfl | hjpos
    · rw [if_pos rfl, ptr_zero, hset]
    · rw [if_neg (by omega), ← hptr₂ j hj]
      unfold ptr
      have hassoc : getInode i + Inode.dptrs + 4 * (j : Int) = getInode i + (12 + 4 * j) := by
        simp only [Inode.dptrs]
        omega
      rw [hassoc]
      exact int32_firstPage m₂ hp (by omega) (by omega)
  · rw [← hcount₂]
    exact int32_firstPage m₂ hp (a := Inode.refs) (by decide) (by decide)
  · rw [← hmode₂]
    exact int32_firstPage m₂ hp (a := Inode.mode) (by decide) (by decide)

/-! ## Above the inode table -/

theorem ptr_changed {S : Set Int} {m m' : Image} (h : ChangedIn S m m') {i j : Nat} (hj : j < 3)
    (hout : ∀ x ∈ span (getInode i + 12) 12, x ∉ S) : ptr m' i j = ptr m i j := by
  apply h.int32
  intro x hx
  apply hout
  simp only [Inode.dptrs, mem_span] at hx ⊢
  omega

theorem refs_changed {S : Set Int} {m m' : Image} (h : ChangedIn S m m') {i : Nat}
    (hout : ∀ x ∈ span (getInode i) 4, x ∉ S) : refs m' i = refs m i := by
  apply h.int32
  intro x hx
  apply hout
  simp only [Inode.refs, mem_span] at hx ⊢
  omega

section

variable {S : Set Int} {m m' : Image} (h : ChangedIn S m m') (hS : ∀ x ∈ S, 8192 ≤ x)

include h hS

theorem pageBit_above {x : Nat} (hx : x < 256) :
    bit m' getPagesBitmap x = bit m getPagesBitmap x := by
  apply bit_changedIn h
  intro hmem
  have := hS _ hmem
  simp only [getPagesBitmap] at this
  omega

theorem inodeBit_above {x : Nat} (hx : x < 256) :
    bit m' getInodeBitmap x = bit m getInodeBitmap x := by
  apply bit_changedIn h
  intro hmem
  have := hS _ hmem
  simp only [getInodeBitmap] at this
  omega

theorem ptr_above {i j : Nat} (hi : i < 256) (hj : j < 3) : ptr m' i j = ptr m i j := by
  apply ptr_changed h hj
  intro x hx hmem
  have := hS x hmem
  simp only [getInode_eq, mem_span] at hx
  omega

theorem refs_above {i : Nat} (hi : i < 256) : refs m' i = refs m i := by
  apply refs_changed h
  intro x hx hmem
  have := hS x hmem
  simp only [getInode_eq, mem_span] at hx
  omega

end

/-! ## Entries -/

def slot (p k : Nat) : Set Int := span (direntName (pagesGetPage p) k) 64

theorem slot_above {p k : Nat} (hp : 2 ≤ p) : ∀ x ∈ slot p k, 8192 ≤ x := by
  intro x hx
  simp only [slot, direntName, pagesGetPage, mem_span] at hx
  omega

theorem slot_disjoint {p q k j : Nat} (hk : k < 64) (hj : j < 64) (hne : ¬(p = q ∧ k = j)) :
    ∀ x ∈ slot p k, x ∉ slot q j := by
  intro x hx hx'
  simp only [slot, direntName, pagesGetPage, mem_span] at hx hx'
  omega

theorem slotAt_changed {S : Set Int} {m m' : Image} (h : ChangedIn S m m') {p k : Nat}
    (hout : ∀ x ∈ slot p k, x ∉ S) :
    slotAt m' (pagesGetPage p) k = slotAt m (pagesGetPage p) k := by
  have hname : m' (direntName (pagesGetPage p) k) = m (direntName (pagesGetPage p) k) := by
    apply h
    apply hout
    simp only [slot, mem_span]
    omega
  have hinum :
      int32 m' (direntInum (pagesGetPage p) k) = int32 m (direntInum (pagesGetPage p) k) := by
    apply h.int32
    intro x hx
    apply hout
    simp only [slot, direntName, direntInum, mem_span] at hx ⊢
    omega
  unfold slotAt
  rw [hname, hinum]

/-! A slot and the count of an inode change together. -/

theorem header_below {i : Nat} (hi : i < 256) : ∀ x ∈ span (getInode i) 4, x < 8192 := by
  intro x hx
  simp only [getInode_eq, mem_span] at hx
  omega

/-- A byte below the pages that is not of the count. -/
theorem not_mem_header {p k i : Nat} (h2 : 2 ≤ p) {y : Int} (hlow : y < 8192)
    (hcount : y ∉ span (getInode i) 4) : y ∉ {x | x ∈ slot p k ∨ x ∈ span (getInode i) 4} := by
  rintro (hmem | hmem)
  · have := slot_above h2 y hmem
    omega
  · exact hcount hmem

section Header

variable {m m' : Image} {p k i : Nat} (h2 : 2 ≤ p)
  (h : ChangedIn {x | x ∈ slot p k ∨ x ∈ span (getInode i) 4} m m')

include h2 h

theorem ptr_header {x j : Nat} (hx : x < 256) (hj : j < 3) : ptr m' x j = ptr m x j := by
  apply ptr_changed h hj
  intro y hy
  simp only [getInode_eq, mem_span] at hy
  apply not_mem_header h2 (by omega)
  simp only [getInode_eq, mem_span]
  omega

theorem direntBase_header {x : Nat} (hx : x < 256) :
    direntBase m' (getInode x) = direntBase m (getInode x) := by
  rw [direntBase_eq, direntBase_eq, ptr_header h2 h hx (by decide)]

theorem inodeBit_header {x : Nat} (hx : x < 256) :
    bit m' getInodeBitmap x = bit m getInodeBitmap x := by
  apply bit_changedIn h
  apply not_mem_header h2 (by simp only [getInodeBitmap]; omega)
  simp only [getInodeBitmap, getInode_eq, mem_span]
  omega

theorem pageBit_header {x : Nat} (hx : x < 256) :
    bit m' getPagesBitmap x = bit m getPagesBitmap x := by
  apply bit_changedIn h
  apply not_mem_header h2 (by simp only [getPagesBitmap]; omega)
  simp only [getPagesBitmap, getInode_eq, mem_span]
  omega

theorem mode_header {x : Nat} (hx : x < 256) :
    int32 m' (getInode x + Inode.mode) = int32 m (getInode x + Inode.mode) := by
  apply h.int32
  intro y hy
  simp only [getInode_eq, Inode.mode, mem_span] at hy
  apply not_mem_header h2 (by omega)
  simp only [getInode_eq, mem_span]
  omega

theorem refs_header {x : Nat} (hx : x < 256) (hne : x ≠ i) : refs m' x = refs m x := by
  apply refs_changed h
  intro y hy
  simp only [getInode_eq, mem_span] at hy
  apply not_mem_header h2 (by omega)
  simp only [getInode_eq, mem_span]
  omega

end Header

/-- Entry `k` of page `p`, the first free one, now holds the name and the number. -/
structure Put (m m' : Image) (p : Nat) (name : Str) (inum k : Nat) : Prop where
  lt : k < 64
  free : m (direntName (pagesGetPage p) k) = nul
  first : ∀ j < k, m (direntName (pagesGetPage p) j) ≠ nul
  changed : ChangedIn {x | x ∈ slot p k ∨ x ∈ span (getInode inum) 4} m m'
  text : ∀ i : Nat, i < 60 → m' (direntName (pagesGetPage p) k + i) =
    if i < 59 then name.getD i nul else nul
  target : int32 m' (direntInum (pagesGetPage p) k) = inum
  count : refs m' inum = (refs m inum + 1).bmod (2 ^ 32)

theorem Put.used {m m' : Image} {p inum k : Nat} {name : Str} (h : Put m m' p name inum k)
    (hne : name ≠ []) (hnul : nul ∉ name) : m' (direntName (pagesGetPage p) k) ≠ nul := by
  have hfirst := h.text 0 (by decide)
  cases name with
  | nil => exact absurd rfl hne
  | cons c cs =>
    have hbyte : m' (direntName (pagesGetPage p) k) = c := by simpa using hfirst
    rw [hbyte]
    exact fun hc => hnul (by simp [hc])

theorem Put.slotAt {m m' : Image} {p inum k : Nat} {name : Str} (h : Put m m' p name inum k)
    (hne : name ≠ []) (hnul : nul ∉ name) : slotAt m' (pagesGetPage p) k = some (inum : Int) := by
  unfold Nufs.slotAt
  rw [if_neg (h.used hne hnul), h.target]

theorem findEmpty_some {m : Image} {start : Int} {k : Nat} (h : findEmpty m start = some k) :
    k < 64 ∧ m (direntName start k) = nul ∧ ∀ j < k, m (direntName start j) ≠ nul := by
  unfold findEmpty at h
  obtain ⟨hfree, hmem, hless⟩ := List.find?_range_eq_some.mp h
  exact ⟨List.mem_range.mp hmem, by simpa using hfree, fun j hj => by simpa using hless j hj⟩

theorem findEmpty_none {m : Image} {start : Int} (h : findEmpty m start = none) :
    ∀ k < 64, m (direntName start k) ≠ nul := by
  intro k hk
  have hused := List.find?_eq_none.mp h k (List.mem_range.mpr hk)
  simpa using hused

theorem directoryPut_cases {m : Image} {dir : Int} {p inum : Nat} (name : Str)
    (hbase : direntBase m dir = pagesGetPage p) (hp : 2 ≤ p) (hi : inum < 256) :
    (directoryPut m dir name inum = (m, -1) ∧ (0 < directoryLookup m dir name ∨ 60 < name.length ∨
      ∀ k < 64, m (direntName (pagesGetPage p) k) ≠ nul)) ∨
    (directoryLookup m dir name ≤ 0 ∧ name.length ≤ 60 ∧
      ∃ m' k, directoryPut m dir name inum = (m', 0) ∧ Put m m' p name inum k) := by
  unfold directoryPut
  dsimp only
  rw [hbase]
  by_cases hlook : directoryLookup m dir name > 0
  · rw [if_pos hlook]
    exact Or.inl ⟨rfl, Or.inl hlook⟩
  by_cases hlen : name.length > 60
  · rw [if_neg hlook, if_pos hlen]
    exact Or.inl ⟨rfl, Or.inr (Or.inl hlen)⟩
  rw [if_neg hlook, if_neg hlen]
  cases hfind : findEmpty m (pagesGetPage p) with
  | none => exact Or.inl ⟨rfl, Or.inr (Or.inr (findEmpty_none hfind))⟩
  | some k =>
    obtain ⟨hk, hfree, hfirst⟩ := findEmpty_some hfind
    refine Or.inr ⟨by omega, by omega, _, k, rfl, ?_⟩
    have habove := slot_above (k := k) hp
    generalize hm₁ : strncpy m (direntName (pagesGetPage p) k) name 59 = m₁
    generalize hm₂ : fill m₁ (direntName (pagesGetPage p) k + 59) 1 nul = m₂
    generalize hm₃ : setInt32 m₂ (direntInum (pagesGetPage p) k) inum = m₃
    have h₁ : ChangedIn (slot p k) m m₁ := by
      rw [← hm₁]
      apply (changedIn_patch m _ 59 _).mono
      simp only [slot, mem_span]
      omega
    have h₂ : ChangedIn (slot p k) m₁ m₂ := by
      rw [← hm₂]
      apply (changedIn_patch m₁ _ 1 _).mono
      simp only [slot, mem_span]
      omega
    have h₃ : ChangedIn (slot p k) m₂ m₃ := by
      rw [← hm₃]
      apply (changedIn_setInt32 m₂ _ _).mono
      simp only [slot, direntInum, direntName, mem_span]
      omega
    have hslot : ChangedIn (slot p k) m m₃ := (h₁.trans h₂).trans h₃
    have hrefs : refs m₃ inum = refs m inum := refs_above hslot habove hi
    have h₄ : ChangedIn (span (getInode inum) 4) m₃ (setInt32 m₃ (getInode inum + Inode.refs)
        (int32 m₃ (getInode inum + Inode.refs) + 1)) := by
      have hset := changedIn_setInt32 m₃ (getInode inum + Inode.refs)
        (int32 m₃ (getInode inum + Inode.refs) + 1)
      simpa [Inode.refs] using hset
    have hout : ∀ x ∈ slot p k, x ∉ span (getInode inum) 4 := by
      intro x hx hx'
      have := habove x hx
      simp only [getInode_eq, mem_span] at hx'
      omega
    constructor
    · exact hk
    · exact hfree
    · exact hfirst
    · exact (hslot.mono fun x hx => Or.inl hx).trans (h₄.mono fun x hx => Or.inr hx)
    · intro i hi'
      have hmem : direntName (pagesGetPage p) k + (i : Int) ∈ slot p k := by
        simp only [slot, mem_span]
        omega
      have hafter :
          m₃ (direntName (pagesGetPage p) k + i) = m₂ (direntName (pagesGetPage p) k + i) := by
        rw [← hm₃]
        apply changedIn_setInt32
        simp only [direntInum, direntName, mem_span]
        omega
      rw [h₄ _ (hout _ hmem), hafter, ← hm₂]
      by_cases hlt : i < 59
      · rw [if_pos hlt, ← hm₁]
        unfold fill strncpy
        rw [patch_outside _ _ _ _ (by omega)]
        exact patch_inside m _ 59 _ hlt
      · obtain rfl : i = 59 := by omega
        rw [if_neg hlt]
        exact patch_inside m₁ (direntName (pagesGetPage p) k + 59) 1 (fun _ => nul)
          (i := 0) (by decide)
    · have hkeep := h₄.int32 (a := direntInum (pagesGetPage p) k) fun x hx => hout x (by
        simp only [slot, direntInum, direntName, mem_span] at hx ⊢
        omega)
      rw [hkeep, ← hm₃, int32_setInt32_of_lt _ _ (by omega) (by omega)]
    · rw [← hrefs]
      exact int32_setInt32 m₃ _ _

theorem Small.above {S : Set Int} {m m' : Image} {i : Nat} (h : Small m i)
    (hchanged : ChangedIn S m m') (hS : ∀ x ∈ S, 8192 ≤ x) (hi : i < 256) : Small m' i := by
  have hptr := fun j hj => ptr_above (j := j) hchanged hS hi hj
  constructor
  · rw [hptr 0 (by decide)]
    exact h.direct
  · rw [hptr 1 (by decide)]
    exact h.second
  · rw [hptr 2 (by decide)]
    exact h.indirect

theorem Freed.above {S : Set Int} {m m₁ m₂ m' : Image} {i : Nat} (h : Freed m₁ m₂ i) (hi : i < 256)
    (hbefore : ChangedIn S m m₁) (hafter : ChangedIn S m₂ m') (hS : ∀ x ∈ S, 8192 ≤ x) :
    Freed m m' i := by
  constructor
  · intro x hx
    rw [inodeBit_above hafter hS hx, h.inodes x hx, inodeBit_above hbefore hS hx]
  · intro x hx
    rw [pageBit_above hafter hS hx, h.pages x hx, pageBit_above hbefore hS hx,
      ptr_above hbefore hS hi (by decide)]
  · intro j hj
    rw [ptr_above hafter hS hi hj, h.ptrs j hj]

/-- Entry `k` of page `p` is free again and inode `i` has lost a reference. -/
structure Dropped (m m' : Image) (p k i : Nat) : Prop where
  changed : ChangedIn {x | x ∈ slot p k ∨ x ∈ inodeArea i} m m'
  free : m' (direntName (pagesGetPage p) k) = nul
  zero : int32 m' (direntInum (pagesGetPage p) k) = 0
  tail : ∀ j : Nat, 1 ≤ j → j < 60 →
    m' (direntName (pagesGetPage p) k + j) = m (direntName (pagesGetPage p) k + j)
  more : refs m i ≠ 1 → ChangedIn {x | x ∈ slot p k ∨ x ∈ span (getInode i) 4} m m' ∧
    refs m' i = (refs m i - 1).bmod (2 ^ 32)
  last : refs m i = 1 → Freed m m' i

/-- The name is cut, its inode given back and then the number cleared. -/
theorem directoryDelete_stages {m : Image} {dir : Int} {p i k : Nat} {name : Str}
    (hbase : direntBase m dir = pagesGetPage p) (hfind : findName m (pagesGetPage p) name = some k)
    (htarget : int32 m (direntInum (pagesGetPage p) k) = i) :
    ∃ m₁, ChangedIn (span (direntName (pagesGetPage p) k) 1) m m₁ ∧
    m₁ (direntName (pagesGetPage p) k) = nul ∧
      directoryDelete m dir name =
      (setInt32 (freeInode m₁ i) (direntInum (pagesGetPage p) k) 0, 0) := by
  have hchanged : ChangedIn (span (direntName (pagesGetPage p) k) 1) m
      (fill m (direntName (pagesGetPage p) k) 1 nul) := changedIn_patch m _ 1 _
  have hbyte :
      fill m (direntName (pagesGetPage p) k) 1 nul (direntName (pagesGetPage p) k) = nul := by
    have hin := patch_inside m (direntName (pagesGetPage p) k) 1 (fun _ => nul) (i := 0) (by decide)
    simpa [fill] using hin
  have hinum :
      int32 (fill m (direntName (pagesGetPage p) k) 1 nul) (direntInum (pagesGetPage p) k) = i := by
    rw [hchanged.int32, htarget]
    simp only [direntInum, direntName, mem_span]
    omega
  refine ⟨_, hchanged, hbyte, ?_⟩
  unfold directoryDelete
  dsimp only
  rw [hbase, hfind]
  dsimp only
  rw [hinum]

theorem directoryDelete_found {m : Image} {dir : Int} {p i k : Nat} {name : Str}
    (hbase : direntBase m dir = pagesGetPage p) (hp : 2 ≤ p) (hk : k < 64)
    (hfind : findName m (pagesGetPage p) name = some k) (hi : i < 256)
    (htarget : int32 m (direntInum (pagesGetPage p) k) = i) (hsmall : Small m i) :
    ∃ m', directoryDelete m dir name = (m', 0) ∧ Dropped m m' p k i := by
  obtain ⟨m₁, hfirst, hbyte, hdelete⟩ := directoryDelete_stages hbase hfind htarget
  refine ⟨_, hdelete, ?_⟩
  have habove := slot_above (k := k) hp
  have h₁ : ChangedIn (slot p k) m m₁ := by
    apply hfirst.mono
    simp only [slot, mem_span]
    omega
  have htail : ∀ j : Nat, 1 ≤ j → m₁ (direntName (pagesGetPage p) k + j) =
      m (direntName (pagesGetPage p) k + j) := by
    intro j hj
    apply hfirst
    simp only [mem_span]
    omega
  clear hdelete hfind htarget hfirst
  have hrefs : refs m₁ i = refs m i := refs_above h₁ habove hi
  have h₃ : ChangedIn (slot p k) (freeInode m₁ i)
      (setInt32 (freeInode m₁ i) (direntInum (pagesGetPage p) k) 0) := by
    apply (changedIn_setInt32 _ _ _).mono
    simp only [slot, direntInum, direntName, mem_span]
    omega
  have hmore : refs m i ≠ 1 → ChangedIn (span (getInode i) 4) m₁ (freeInode m₁ i) ∧
      refs (freeInode m₁ i) i = (refs m i - 1).bmod (2 ^ 32) := by
    intro hne
    rw [freeInode_more (by rwa [hrefs]), ← hrefs]
    have hset := changedIn_setInt32 m₁ (getInode i + Inode.refs) (refs m₁ i - 1)
    exact ⟨by simpa [Inode.refs] using hset, int32_setInt32 m₁ _ _⟩
  have hlast : refs m i = 1 → ChangedIn (inodeArea i) m₁ (freeInode m₁ i) ∧
      Freed m₁ (freeInode m₁ i) i := fun hone =>
    freeInode_last hi (hsmall.above h₁ habove hi) (by rw [hrefs, hone])
  have hfree : ChangedIn (inodeArea i) m₁ (freeInode m₁ i) := by
    by_cases hone : refs m i = 1
    · exact (hlast hone).1
    · apply (hmore hone).1.mono
      intro x hx
      right
      right
      simp only [mem_span] at hx ⊢
      omega
  have hbelow := inodeArea_below hi
  generalize freeInode m₁ i = m₂ at h₃ hmore hlast hfree
  have hkept : ∀ j : Nat, j < 60 → setInt32 m₂ (direntInum (pagesGetPage p) k) 0
      (direntName (pagesGetPage p) k + j) = m₁ (direntName (pagesGetPage p) k + j) := by
    intro j hj
    rw [changedIn_setInt32, hfree]
    · intro hx
      have := hbelow _ hx
      simp only [direntName, pagesGetPage] at this
      omega
    · simp only [direntInum, direntName, mem_span]
      omega
  constructor
  · exact (h₁.mono fun x hx => Or.inl hx).trans
      ((hfree.mono fun x hx => Or.inr hx).trans (h₃.mono fun x hx => Or.inl hx))
  · have hkeep := hkept 0 (by decide)
    rwa [Int.natCast_zero, Int.add_zero, hbyte] at hkeep
  · exact int32_setInt32 m₂ _ _
  · intro j hj hlt
    rw [hkept j hlt, htail j hj]
  · intro hne
    obtain ⟨hcount, hdown⟩ := hmore hne
    refine ⟨(h₁.mono fun x hx => Or.inl hx).trans
      ((hcount.mono fun x hx => Or.inr hx).trans (h₃.mono fun x hx => Or.inl hx)), ?_⟩
    rw [refs_above h₃ habove hi, hdown]
  · intro hone
    exact (hlast hone).2.above hi h₁ h₃ habove

theorem directoryDelete_missing {m : Image} {dir : Int} {p : Nat} {name : Str}
    (hbase : direntBase m dir = pagesGetPage p) (hfind : findName m (pagesGetPage p) name = none) :
    directoryDelete m dir name = (m, -ENOENT) := by
  unfold directoryDelete
  dsimp only
  rw [hbase, hfind]

section

variable {m m' : Image} {P i k : Nat}

theorem node_dropped (h2 : 2 ≤ P) (hi : i < 256)
    (h : ChangedIn {x | x ∈ slot P k ∨ x ∈ inodeArea i} m m') {x : Nat} (hx : x < 256) (hne : x ≠ i)
    {a : Int} (ha : 0 ≤ a) (hlt : a + 4 ≤ 24) :
    int32 m' (getInode x + a) = int32 m (getInode x + a) := by
  apply h.int32
  rintro y hy (hmem | hmem)
  · have := slot_above h2 y hmem
    simp only [getInode_eq, mem_span] at hy
    omega
  · simp only [inodeArea, getInode_eq, mem_span, Set.mem_ofPred_eq] at hy hmem
    omega

theorem node_header (h2 : 2 ≤ P) (h : ChangedIn {x | x ∈ slot P k ∨ x ∈ span (getInode i) 4} m m')
    {x : Nat} (hx : x < 256) {a : Int} (ha : 4 ≤ a) (hlt : a + 4 ≤ 24) :
    int32 m' (getInode x + a) = int32 m (getInode x + a) := by
  apply h.int32
  rintro y hy (hmem | hmem)
  · have := slot_above h2 y hmem
    simp only [getInode_eq, mem_span] at hy
    omega
  · simp only [getInode_eq, mem_span] at hy hmem
    omega

/-- What a deletion does below the pages, in both of its cases. -/
structure Lost (m m' : Image) (i : Nat) : Prop where
  inodes : ∀ x < 256, bit m' getInodeBitmap x =
    if x = i ∧ refs m i = 1 then false else bit m getInodeBitmap x
  nodes : ∀ x < 256, refs m i ≠ 1 ∨ x ≠ i → ∀ a : Int, 4 ≤ a → a + 4 ≤ 24 →
    int32 m' (getInode x + a) = int32 m (getInode x + a)
  counts : ∀ x < 256, x ≠ i → refs m' x = refs m x
  pages : ∀ x < 256, bit m getPagesBitmap x = true →
    bit m' getPagesBitmap x = true ∨ refs m i = 1 ∧ ptr m i 0 = x

theorem Dropped.lost (h : Dropped m m' P k i) (h2 : 2 ≤ P) (hi : i < 256) : Lost m m' i := by
  constructor
  · intro x hx
    by_cases hone : refs m i = 1
    · rw [(h.last hone).inodes x hx]
      simp only [hone, and_true]
    · rw [if_neg fun hc => hone hc.2]
      exact inodeBit_header h2 (h.more hone).1 hx
  · intro x hx hor a ha hlt
    by_cases hone : refs m i = 1
    · rcases hor with hmore | hne
      · exact absurd hone hmore
      · exact node_dropped h2 hi h.changed hx hne (by omega) hlt
    · exact node_header h2 (h.more hone).1 hx ha hlt
  · intro x hx hne
    exact node_dropped h2 hi h.changed hx hne (Int.le_refl 0) (by decide)
  · intro x hx hset
    by_cases hone : refs m i = 1
    · rw [(h.last hone).pages x hx]
      by_cases hown : 0 < ptr m i 0 ∧ ptr m i 0 = x
      · exact Or.inr ⟨hone, hown.2⟩
      · rw [if_neg hown]
        exact Or.inl hset
    · rw [pageBit_header h2 (h.more hone).1 hx]
      exact Or.inl hset

theorem Lost.ptr (h : Lost m m' i) {x j : Nat} (hx : x < 256) (hor : refs m i ≠ 1 ∨ x ≠ i)
    (hj : j < 3) : ptr m' x j = ptr m x j := by
  have hnode := h.nodes x hx hor (Inode.dptrs + 4 * j) (by simp only [Inode.dptrs]; omega)
    (by simp only [Inode.dptrs]; omega)
  rwa [← Int.add_assoc] at hnode

end

/-! ## Names -/

theorem findName_some {m : Image} {start : Int} {name : Str} {k : Nat}
    (h : findName m start name = some k) : k < 64 ∧ streq m (direntName start k) name = true ∧
      ∀ j < k, streq m (direntName start j) name = false := by
  unfold findName at h
  obtain ⟨hsame, hmem, hless⟩ := List.find?_range_eq_some.mp h
  exact ⟨List.mem_range.mp hmem, hsame, fun j hj => by simpa using hless j hj⟩

theorem findName_none {m : Image} {start : Int} {name : Str} (h : findName m start name = none) :
    ∀ k < 64, streq m (direntName start k) name = false := by
  intro k hk
  have hother := List.find?_eq_none.mp h k (List.mem_range.mpr hk)
  simpa using hother

theorem streq_used {m : Image} {a : Int} {name : Str} (hne : name ≠ []) (hnul : nul ∉ name)
    (h : streq m a name = true) : m a ≠ nul := by
  cases name with
  | nil => exact absurd rfl hne
  | cons c cs =>
    simp only [streq, Bool.and_eq_true, beq_iff_eq] at h
    rw [h.1]
    exact fun hc => hnul (by simp [hc])

end Cs3650.Nufs
