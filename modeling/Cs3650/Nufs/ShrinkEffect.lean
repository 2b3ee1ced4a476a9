import Cs3650.Nufs.GrowEffect
import Cs3650.Nufs.Slots

/-!
# What shrinking changes

As long as `pages_owned` does not go on to count in page 0, a call of
`shrink_inode` writes to the page bitmap, to the pointers of the inode and to
its indirect page. It always returns 0 and keeps whole pages only.
-/

namespace Cs3650.Nufs

open Cs3650.Lib

/-- Page numbers lie in the image, and the count stays out of page 0. -/
structure Shrinkable (m : Image) (i : Nat) : Prop where
  range : ∀ j < pagesOwned m (getInode i), inodeGetPnum m (getInode i) j < 256
  indirect : ptr m i 2 = 0 ∨ 2 ≤ ptr m i 2 ∧ ptr m i 2 < 256
  counted : ptr m i 2 = 0 → pagesOwned m (getInode i) ≤ 2

/-- The bytes that shrinking may write to. -/
def shrinkArea (m : Image) (i : Nat) : Set Int :=
  {x | x ∈ span 0 32 ∨ x ∈ span (getInode i + Inode.dptrs) 12 ∨
    ptr m i 2 ≠ 0 ∧ x ∈ span (pagesGetPage (ptr m i 2)) 4096}

/-- The inode keeps its first `k` pages, and its indirect page unless that is gone. -/
structure Shrunk (m : Image) (i k : Nat) (gone : Bool) (m' : Image) : Prop where
  changed : ChangedIn (shrinkArea m i) m m'
  ptrs : ∀ j < 2, ptr m' i j = if k ≤ j ∧ j < pagesOwned m (getInode i) then 0 else ptr m i j
  indirect : ptr m' i 2 = if gone then 0 else ptr m i 2
  entries : ptr m i 2 ≠ 0 → ∀ j < 1024, pageEntry m' (ptr m i 2) j =
    if k ≤ j + 2 ∧ j + 2 < pagesOwned m (getInode i) then 0 else pageEntry m (ptr m i 2) j
  bits : ∀ p < 256, bit m' getPagesBitmap p = true ↔ bit m getPagesBitmap p = true ∧
    (∀ j, k ≤ j → j < pagesOwned m (getInode i) → inodeGetPnum m (getInode i) j ≠ p) ∧
      ¬(gone = true ∧ ptr m i 2 ≠ 0 ∧ ptr m i 2 = p)

/-- An inode without an indirect page has a third page when the first word of
page 0 says so. -/
theorem pnum_word {m : Image} {i : Nat} (h : ptr m i 2 = 0) :
    inodeGetPnum m (getInode i) 2 = int32 m 0 := by
  rw [pnum_page m i 0, h]
  rfl

/-- The place in the inode that page `j` of the file has. -/
def placeOf (j : Nat) : Nat := if j < 2 then j else j + 1

theorem placeOf_cases (j : Nat) : j < 2 ∧ placeOf j = j ∨ 2 ≤ j ∧ placeOf j = j + 1 := by
  unfold placeOf
  by_cases h : j < 2
  · exact Or.inl ⟨h, if_pos h⟩
  · exact Or.inr ⟨Nat.not_lt.mp h, if_neg h⟩

theorem placeOf_entry {j k : Nat} : 3 ≤ placeOf k ∧ j = placeOf k - 3 ↔ j + 2 = k := by
  have hcases := placeOf_cases k
  omega

namespace Shrunk

variable {m m' : Image} {i k : Nat} {gone : Bool}

theorem start (m : Image) (i : Nat) : Shrunk m i (pagesOwned m (getInode i)) false m := by
  have hnone : ∀ n j : Nat, ¬(n ≤ j ∧ j < n) := fun n j => by omega
  constructor
  · exact ChangedIn.refl _ m
  · intro j _
    rw [if_neg (hnone _ j)]
  · rw [if_neg (by decide)]
  · intro _ j _
    rw [if_neg (hnone _ (j + 2))]
  · intro p _
    constructor
    · intro hset
      exact ⟨hset, fun j hle hlt => absurd ⟨hle, hlt⟩ (hnone _ j), fun h => Bool.noConfusion h.1⟩
    · exact fun h => h.1

theorem pnum_kept (h : Shrunk m i k gone m') {j : Nat} (hj : j < k ∨ pagesOwned m (getInode i) ≤ j)
    (hlt : j < 1026) (hind : 2 ≤ j → gone = false ∧ ptr m i 2 ≠ 0) :
    inodeGetPnum m' (getInode i) j = inodeGetPnum m (getInode i) j := by
  by_cases h2 : j < 2
  · rw [pnum_ptr m' i h2, pnum_ptr m i h2, h.ptrs j h2, if_neg (by omega)]
  · obtain ⟨hgone, hne⟩ := hind (by omega)
    obtain ⟨e, rfl⟩ : ∃ e, j = e + 2 := ⟨j - 2, by omega⟩
    have hind' := h.indirect
    rw [hgone] at hind'
    rw [pnum_page, pnum_page, hind', if_neg (by decide), h.entries hne e (by omega),
      if_neg (by omega)]

theorem pnum_dropped (h : Shrunk m i k gone m') {j : Nat} (hj : k ≤ j)
    (hlt : j < pagesOwned m (getInode i)) (hind : 2 ≤ j → gone = false ∧ ptr m i 2 ≠ 0) :
    inodeGetPnum m' (getInode i) j = 0 := by
  have hle := pagesOwned_le m (getInode i)
  by_cases h2 : j < 2
  · rw [pnum_ptr m' i h2, h.ptrs j h2, if_pos ⟨hj, hlt⟩]
  · obtain ⟨hgone, hne⟩ := hind (by omega)
    obtain ⟨e, rfl⟩ : ∃ e, j = e + 2 := ⟨j - 2, by omega⟩
    have hind' := h.indirect
    rw [hgone] at hind'
    rw [pnum_page, hind', if_neg (by decide), h.entries hne e (by omega), if_pos ⟨hj, hlt⟩]

/-- The count is right where it does not go on in page 0. -/
theorem count (h : Shrunk m i k gone m') (hk : k ≤ pagesOwned m (getInode i))
    (hind : 2 ≤ k → gone = false ∧ ptr m i 2 ≠ 0) : pagesOwned m' (getInode i) = k := by
  have hle := pagesOwned_le m (getInode i)
  apply pagesOwned_eq (by omega)
  · intro j hj
    rw [h.pnum_kept (Or.inl hj) (by omega) fun h2 => hind (by omega)]
    exact pnum_pos (by omega)
  · intro hlt
    by_cases hkn : k < pagesOwned m (getInode i)
    · rw [h.pnum_dropped (Nat.le_refl k) hkn hind]
    · have hk' : k = pagesOwned m (getInode i) := by omega
      rw [h.pnum_kept (Or.inr (by omega)) hlt hind, hk']
      exact pnum_stop (by omega)

/-! ### One page less -/

theorem assign_area {m m' : Image} {i r p w : Nat} {v : Int} (hr : r < 1027) (hp : p < 256)
    (hind : 3 ≤ r → ptr m i 2 ≠ 0 ∧ ptr m' i 2 = ptr m i 2) :
    ChangedIn (shrinkArea m i) m' (assign m' i r p v w) := by
  obtain ⟨a, hchanged, -, hcases⟩ := assign_changed (m := m') (i := i) (p := p) (v := v) (w := w) hr
  apply hchanged.mono
  rintro x (hx | hx)
  · left
    simp only [mem_span] at hx ⊢
    omega
  · rcases hcases with ⟨h3, ha⟩ | ⟨h3, ha⟩
    · right; left
      simp only [mem_span, getInode_eq, Inode.dptrs] at hx ⊢
      omega
    · obtain ⟨hne, hsame⟩ := hind h3
      rw [hsame] at ha
      refine Or.inr (Or.inr ⟨hne, ?_⟩)
      simp only [mem_span, pagesGetPage] at hx ⊢
      omega

theorem drop (hm : Shrinkable m i) (hi : i < 256) (h : Shrunk m i (k + 1) gone m')
    (hk : k < pagesOwned m (getInode i)) (hind : 2 ≤ k → gone = false ∧ ptr m i 2 ≠ 0) {p : Nat}
    (hp : inodeGetPnum m (getInode i) k = p) :
    Shrunk m i k gone (assign m' i (placeOf k) p 0 0) := by
  have hle := pagesOwned_le m (getInode i)
  have hp256 : p < 256 := by
    have hrange := hm.range k hk
    omega
  have hcases := placeOf_cases k
  have hr : placeOf k < 1027 := by omega
  have hentry : 3 ≤ placeOf k → 2 ≤ k := fun h3 => by omega
  have hsame : 2 ≤ k → ptr m i 2 ≠ 0 ∧ ptr m' i 2 = ptr m i 2 := by
    intro h2
    obtain ⟨hgone, hne⟩ := hind h2
    refine ⟨hne, ?_⟩
    rw [h.indirect, hgone, if_neg (by decide)]
  have hpage : 3 ≤ placeOf k → 2 ≤ ptr m' i 2 ∧ ptr m' i 2 < 256 := by
    intro h3
    obtain ⟨hne, hptr⟩ := hsame (hentry h3)
    rw [hptr]
    exact hm.indirect.resolve_left hne
  constructor
  · exact h.changed.trans (assign_area hr hp256 fun h3 => hsame (hentry h3))
  · intro j hj
    rw [assign_ptr hi hr hp256 (by decide) hpage hi (by omega), h.ptrs j hj]
    by_cases hjk : j = k
    · rw [if_pos ⟨rfl, by omega⟩, if_pos ⟨by omega, by omega⟩]
      rfl
    · rw [if_neg (by omega)]
      by_cases hkj : k ≤ j ∧ j < pagesOwned m (getInode i)
      · rw [if_pos ⟨by omega, hkj.2⟩, if_pos hkj]
      · rw [if_neg (fun hc => hkj ⟨by omega, hc.2⟩), if_neg hkj]
  · rw [assign_ptr hi hr hp256 (by decide) hpage hi (by decide), if_neg (by omega), h.indirect]
  · intro hne j hj
    obtain ⟨q, hq⟩ : ∃ q : Nat, ptr m i 2 = q := ⟨(ptr m i 2).toNat, by
      have := hm.indirect.resolve_left hne
      omega⟩
    have h2 : 2 ≤ q := by
      have := hm.indirect.resolve_left hne
      omega
    have hold := h.entries hne j hj
    rw [hq] at hold ⊢
    rw [assign_entry hi hr hp256 (by decide) h2 hj, hold]
    by_cases hjk : j + 2 = k
    · have hthis : 3 ≤ placeOf k ∧ ptr m' i 2 = q ∧ j = placeOf k - 3 := by
        obtain ⟨h3, hj3⟩ := placeOf_entry.mpr hjk
        exact ⟨h3, by rw [(hsame (hentry h3)).2, hq], hj3⟩
      rw [if_pos hthis, if_pos ⟨by omega, by omega⟩]
      rfl
    · have hother : ¬(3 ≤ placeOf k ∧ ptr m' i 2 = q ∧ j = placeOf k - 3) := by
        rintro ⟨h3, -, hj3⟩
        exact hjk (placeOf_entry.mp ⟨h3, hj3⟩)
      rw [if_neg hother]
      by_cases hkj : k ≤ j + 2 ∧ j + 2 < pagesOwned m (getInode i)
      · rw [if_pos ⟨by omega, hkj.2⟩, if_pos hkj]
      · rw [if_neg (fun hc => hkj ⟨by omega, hc.2⟩), if_neg hkj]
  · intro x hx
    rw [assign_pageBit hpage hx]
    by_cases hxp : x = p
    · rw [if_pos hxp]
      constructor
      · intro hset
        cases hset
      · rintro ⟨-, hdropped, -⟩
        exact absurd (by rw [hp, hxp]) (hdropped k (Nat.le_refl k) hk)
    · rw [if_neg hxp, h.bits x hx]
      constructor
      · rintro ⟨hset, hdropped, hgone⟩
        refine ⟨hset, fun j hj hlt heq => ?_, hgone⟩
        by_cases hjk : j = k
        · rw [hjk, hp] at heq
          exact hxp (Int.ofNat_inj.mp heq).symm
        · exact hdropped j (by omega) hlt heq
      · rintro ⟨hset, hdropped, hgone⟩
        exact ⟨hset, fun j hj hlt => hdropped j (by omega) hlt, hgone⟩

theorem dropIndirect (hm : Shrinkable m i) (hi : i < 256) (h : Shrunk m i k false m') :
    Shrunk m i k true (shrinkIndirect (getInode i) m').1 := by
  have hsame := h.indirect
  rw [if_neg (by decide)] at hsame
  by_cases hzero : ptr m i 2 = 0
  · rw [fst_of_eq (shrinkIndirect_none (hsame.trans hzero))]
    constructor
    · exact h.changed
    · exact h.ptrs
    · rw [if_pos rfl, hsame, hzero]
    · exact fun hne => absurd hzero hne
    · intro p hp
      rw [h.bits p hp]
      constructor
      · rintro ⟨hset, hdropped, -⟩
        exact ⟨hset, hdropped, fun hc => hc.2.1 hzero⟩
      · rintro ⟨hset, hdropped, -⟩
        exact ⟨hset, hdropped, fun hc => Bool.noConfusion hc.1⟩
  · obtain ⟨hlo, hhi⟩ := hm.indirect.resolve_left hzero
    obtain ⟨q, hq⟩ : ∃ q : Nat, ptr m i 2 = q := ⟨(ptr m i 2).toNat, by omega⟩
    have hq256 : q < 256 := by omega
    have hpage : 3 ≤ 2 → 2 ≤ ptr m' i 2 ∧ ptr m' i 2 < 256 := fun h3 => absurd h3 (by decide)
    have hstate : (shrinkIndirect (getInode i) m').1 = assign m' i 2 q 0 0 := by
      have hne : ((q : Nat) : Int) ≠ 0 := by omega
      unfold shrinkIndirect assign freePage
      dsimp only
      rw [← ptr_two, hsame, hq, if_pos hne, if_pos (by decide)]
      rfl
    rw [hstate]
    constructor
    · exact h.changed.trans (assign_area (by decide) hq256 fun h3 => absurd h3 (by decide))
    · intro j hj
      rw [assign_ptr hi (by decide) hq256 (by decide) hpage hi (by omega), if_neg (by omega)]
      exact h.ptrs j hj
    · rw [assign_ptr hi (by decide) hq256 (by decide) hpage hi (by decide),
        if_pos ⟨rfl, rfl⟩, if_pos rfl]
      rfl
    · intro hne j hj
      have hold := h.entries hne j hj
      have hother : ¬(3 ≤ 2 ∧ ptr m' i 2 = q ∧ j = 2 - 3) := fun hc => absurd hc.1 (by decide)
      rw [hq] at hold ⊢
      rw [assign_entry hi (by decide) hq256 (by decide) (by omega) hj, if_neg hother]
      exact hold
    · intro x hx
      rw [assign_pageBit hpage hx]
      by_cases hxq : x = q
      · rw [if_pos hxq]
        constructor
        · intro hset
          cases hset
        · rintro ⟨-, -, hgone⟩
          exact absurd ⟨rfl, hzero, by rw [hq, hxq]⟩ hgone
      · rw [if_neg hxq, h.bits x hx]
        constructor
        · rintro ⟨hset, hdropped, -⟩
          refine ⟨hset, hdropped, fun hc => hxq ?_⟩
          have heq := hc.2.2
          rw [hq] at heq
          exact (Int.ofNat_inj.mp heq).symm
        · rintro ⟨hset, hdropped, -⟩
          exact ⟨hset, hdropped, fun hc => Bool.noConfusion hc.1⟩

end Shrunk

/-! ## The loops -/

/-- The second turn of the direct loop always leaves few enough pages. -/
theorem shrinkInode_zero (junk : Int) (m : Image) (node : Int) {size : Int} (hsize : 0 ≤ size) :
    (shrinkInode junk m node size).2 = 0 := by
  have hcheck : ∀ m' :
      Image, Stmt.Triple (fun _ => True) (fun _ : Image => shrinkCheck node size m') (fun _ => True)
      fun r _ => r = 0 := by
    rintro m' - -
    rcases shrinkCheck_cases node size m' with ⟨-, hcheck⟩ | ⟨-, hcheck⟩
    · rw [hcheck]
      exact ⟨fun _ => trivial, fun r hr => by simpa using hr.symm⟩
    · rw [hcheck]
      exact ⟨fun _ => trivial, fun r hr => absurd hr (by simp)⟩
  have hentry :
      Stmt.Triple (fun _ => True) (shrinkEntry node size) (fun _ => True) fun r _ => r = 0 :=
    fun s _ => hcheck _ s trivial
  have hentries :
      Stmt.Triple (fun _ => True) (shrinkEntries node size) (fun _ => True) fun r _ => r = 0 :=
    fun s _ => Stmt.Triple.loop (fun _ _ => True) (fun _ _ _ => hentry) s trivial
  have hindirect : Stmt.Triple (fun _ => True) (shrinkIndirect node) (fun _ => True)
      fun r _ => r = (0 : Int) := by
    rintro m' -
    exact ⟨fun _ => trivial, fun r hr => absurd hr (by simp [shrinkIndirect])⟩
  have hsecond :
      Stmt.Triple (fun _ => True) (shrinkDirect node size 1) (fun _ => True) fun r _ => r = 0 :=
    fun s _ => hcheck _ s trivial
  have hfirst : Stmt.Triple (fun _ => True) (shrinkDirect node size 0) (fun _ => False)
      fun r _ => r = (0 : Int) := by
    rintro m' -
    have hslot : node + Inode.dptrs + 4 * ((0 : Nat) : Int) = node + Inode.dptrs := by omega
    have hnone : ∀ m'' :
        Image, int32 m'' (node + Inode.dptrs) ≤ 0 → ownedBytes m'' node ≤ size := by
      intro m'' hle
      have hcount : pagesOwned m'' node = 0 := by
        apply pagesOwned_eq (Nat.zero_le _) fun i hi => absurd hi (Nat.not_lt_zero i)
        intro _
        unfold inodeGetPnum
        rwa [if_pos (by decide), hslot]
      unfold ownedBytes
      rw [hcount]
      omega
    unfold shrinkDirect shrinkCheck
    dsimp only
    rw [hslot]
    by_cases hcond : ownedBytes m' node > size ∧ int32 m' (node + Inode.dptrs) > 0
    · rw [if_pos hcond, if_pos (hnone _ (by rw [int32_setInt32_of_lt _ _ (by decide) (by decide)]))]
      exact ⟨fun hfall => absurd hfall (by simp), fun r hr => (Option.some.inj hr).symm⟩
    · have hle : ownedBytes m' node ≤ size := by
        by_contra hlt
        exact hlt (hnone m' (by
          by_contra hpos
          exact hcond ⟨by omega, by omega⟩))
      rw [if_neg hcond, if_pos hle]
      exact ⟨fun hfall => absurd hfall (by simp), fun r hr => (Option.some.inj hr).symm⟩
  have hskip : Stmt.Triple (fun _ : Image => False) (fun s => (s, none)) (fun _ => False)
      fun r _ => r = (0 : Int) := fun _ hs => hs.elim
  have hdirect := hsecond.seq (hfirst.seq hskip)
  rw [← shrinkDirects] at hdirect
  have hneg : ¬ size < 0 := by omega
  unfold shrinkInode
  rw [if_neg hneg]
  exact (hentries.seq (hindirect.seq hdirect)).run junk (fun _ hs => hs.elim) trivial

/-- Without its indirect page the inode would go on in page 0. -/
def Spills (m : Image) (i : Nat) : Prop :=
  pagesOwned m (getInode i) = 2 ∧ ptr m i 2 ≠ 0 ∧ 0 < int32 (freePage m (ptr m i 2)) 0

/-- Where `shrink_inode` stops: at the indirect page, without having dropped a
direct page, after dropping one, or after dropping one by mistake. -/
inductive Outcome (m : Image) (i : Nat) (size : Int) (m' : Image) : Prop
  | inside (k : Nat) (left : Shrunk m i k false m') (least : 2 ≤ k)
  (many : 3 ≤ pagesOwned m (getInode i))
    (le : k ≤ pagesOwned m (getInode i)) (fits : 4096 * (k : Int) ≤ size)
    (last : k = pagesOwned m (getInode i) ∨ size < 4096 * ((k : Int) + 1))
  | whole (left : Shrunk m i (pagesOwned m (getInode i)) true m')
      (few : pagesOwned m (getInode i) ≤ 2)
    (fits : ownedBytes m' (getInode i) ≤ size)
  | direct (k : Nat) (left : Shrunk m i k true m') (lt : k < 2) (le : k < pagesOwned m (getInode i))
    (fits : 4096 * (k : Int) ≤ size) (last : size < 4096 * ((k : Int) + 1))
  | spilled (left : Shrunk m i 1 true m') (enough : 8192 ≤ size) (spills : Spills m i)

theorem byte_of_bits {m m' : Image} {bm : Int} {n : Nat}
    (h : ∀ p < n, bit m' bm p = bit m bm p) {k : Nat}
    (hk : 8 * k + 8 ≤ n) : m' (bm + k) = m (bm + k) := by
  apply BitVec.eq_of_getLsbD_eq
  intro j hj
  rw [← bit_byte m' bm k hj, ← bit_byte m bm k hj]
  exact h _ (by omega)

theorem word_of_bits {m m' : Image}
    (h : ∀ p < 256, bit m' getPagesBitmap p = bit m getPagesBitmap p) : int32 m' 0 = int32 m 0 := by
  have hload : load m' 0 4 = load m 0 4 := by
    apply load_congr
    intro x hx hlt
    obtain ⟨k, rfl⟩ : ∃ k : Nat, x = k := ⟨x.toNat, by omega⟩
    have hbyte := byte_of_bits h (k := k) (by omega)
    simpa [getPagesBitmap] using hbyte
  unfold int32
  rw [hload]

section

variable {m : Image} {i : Nat} {size : Int} (hm : Shrinkable m i) (hi : i < 256)

include hm hi

theorem shrinkEntry_effect {n : Nat} (hn : 2 ≤ n) (hlt : n < pagesOwned m (getInode i)) :
    Stmt.Triple (fun m' => Shrunk m i (n + 1) false m' ∧
        (n + 1 = pagesOwned m (getInode i) ∨ size < 4096 * ((n : Int) + 1)))
      (shrinkEntry (getInode i) size)
      (fun m' => Shrunk m i n false m' ∧ size < 4096 * (n : Int))
      fun r m' => r = 0 ∧ Outcome m i size m' := by
  rintro m' ⟨h, hlast⟩
  have hK := pagesOwned_le m (getInode i)
  have hne : ptr m i 2 ≠ 0 := fun hzero => by
    have := hm.counted hzero
    omega
  have hcount : pagesOwned m' (getInode i) = n + 1 := h.count hlt fun _ => ⟨rfl, hne⟩
  have hbytes : ownedBytes m' (getInode i) = 4096 * ((n : Int) + 1) := by
    unfold ownedBytes
    rw [hcount]
    omega
  obtain ⟨p, hp⟩ : ∃ p : Nat, inodeGetPnum m (getInode i) n = p := ⟨_, (Int.toNat_of_nonneg
    (Int.le_of_lt (pnum_pos hlt))).symm⟩
  have hp256 : p < 256 := by
    have := hm.range n hlt
    omega
  have hptr : ptr m' i 2 = ptr m i 2 := by
    rw [h.indirect, if_neg (by decide)]
  unfold shrinkEntry
  by_cases hmore : ownedBytes m' (getInode i) > size
  · obtain ⟨e, rfl⟩ : ∃ e, n = e + 2 := ⟨n - 2, by omega⟩
    have hnext := h.drop hm hi hlt (fun _ => ⟨rfl, hne⟩) hp
    have hoff : (((e + 2 + 1 : Nat) : Int) - 2 - 1) = ((e : Nat) : Int) := by omega
    have hval : int32 m' (pagesGetPage (ptr m i 2) + 4 * (e : Int)) = p := by
      have hentry := h.entries hne e (by omega)
      rw [if_neg (by omega)] at hentry
      rw [pnum_page] at hp
      exact hentry.trans hp
    have hplace : placeOf (e + 2) = e + 3 := by
      have := placeOf_cases (e + 2)
      omega
    have hstate : setInt32 (freePage m' p) (pagesGetPage (ptr m i 2) + 4 * (e : Int)) 0 =
        assign m' i (placeOf (e + 2)) p 0 0 := by
      unfold assign freePage
      rw [hplace, if_neg (by omega), hptr, Nat.add_sub_cancel]
      rfl
    have hpage : 2 ≤ ptr m' i 2 := by
      rw [hptr]
      exact (hm.indirect.resolve_left hne).1
    have hbytes' : ownedBytes (assign m' i (placeOf (e + 2)) p 0 0) (getInode i) =
        4096 * ((e + 2 : Nat) : Int) := by
      unfold ownedBytes
      rw [hnext.count (Nat.le_of_lt hlt) fun _ => ⟨rfl, hne⟩]
      exact Int.mul_comm _ _
    rw [if_pos hmore]
    dsimp only
    rw [← ptr_two, hptr, hcount, hoff, hval, pagesOwned_freePage hpage hp256, hcount, hoff, hstate]
    rcases shrinkCheck_cases (getInode i) size (assign m' i (placeOf (e + 2)) p 0 0) with
      ⟨hle, hcheck⟩ | ⟨hgt, hcheck⟩
    · rw [hcheck]
      refine ⟨fun hfall => absurd hfall (by simp), fun r hr => ⟨by simpa using hr.symm, ?_⟩⟩
      exact .inside (e + 2) hnext hn (by omega) (by omega) (by omega) (Or.inr (by omega))
    · rw [hcheck]
      exact ⟨fun _ => ⟨hnext, by omega⟩, fun r hr => absurd hr (by simp)⟩
  · rw [if_neg hmore]
    rcases shrinkCheck_cases (getInode i) size m' with ⟨hle, hcheck⟩ | ⟨hgt, -⟩
    · rw [hcheck]
      refine ⟨fun hfall => absurd hfall (by simp), fun r hr => ⟨by simpa using hr.symm, ?_⟩⟩
      exact .inside (n + 1) h (by omega) (by omega) hlt (by omega) (Or.inl (by omega))
    · exact absurd hgt hmore

theorem shrinkEntries_effect : Stmt.Triple (fun m' => m' = m) (shrinkEntries (getInode i) size)
    (fun m' => Shrunk m i (min (pagesOwned m (getInode i)) 2) false m' ∧
      (3 ≤ pagesOwned m (getInode i) → size < 8192))
    fun r m' => r = 0 ∧ Outcome m i size m' := by
  rintro m' rfl
  by_cases hfew : pagesOwned m' (getInode i) ≤ 2
  · rw [shrinkEntries_none hfew, Nat.min_eq_left hfew]
    exact ⟨fun _ => ⟨Shrunk.start m' i, fun h3 => by omega⟩, fun r hr => by cases hr⟩
  · obtain ⟨K, hK⟩ : ∃ K, pagesOwned m' (getInode i) = K + 2 :=
      ⟨pagesOwned m' (getInode i) - 2, by omega⟩
    have hloop : Stmt.Triple (fun m'' => Shrunk m' i (K + 2 - 0) false m'' ∧
          (0 < 0 → size < 4096 * ((K + 2 - 0 : Nat) : Int)))
        (Stmt.loop (fun _ => shrinkEntry (getInode i) size) 0 K)
        (fun m'' => Shrunk m' i (K + 2 - (0 + K)) false m'' ∧
          (0 < 0 + K → size < 4096 * ((K + 2 - (0 + K) : Nat) : Int)))
        fun r m'' => r = 0 ∧ Outcome m' i size m'' := by
      apply Stmt.Triple.loop fun t m'' => Shrunk m' i (K + 2 - t) false m'' ∧
        (0 < t → size < 4096 * ((K + 2 - t : Nat) : Int))
      intro t _ ht
      have hnext : K + 2 - t = K + 2 - (t + 1) + 1 := by omega
      apply (@shrinkEntry_effect m' i size hm hi (K + 2 - (t + 1)) (by omega) (by omega)).weaken
      · rintro m'' ⟨h, hless⟩
        rw [hnext] at h
        refine ⟨h, ?_⟩
        by_cases h0 : t = 0
        · exact Or.inl (by omega)
        · have := hless (by omega)
          exact Or.inr (by omega)
      · exact fun m'' h => ⟨h.1, fun _ => h.2⟩
      · exact fun r m'' h => h
    have hstart : Shrunk m' i (K + 2 - 0) false m' := by
      have := Shrunk.start m' i
      rwa [hK] at this
    obtain ⟨hfall, hret⟩ := hloop m' ⟨hstart, fun h0 => absurd h0 (Nat.lt_irrefl 0)⟩
    unfold shrinkEntries
    rw [hK, Nat.add_sub_cancel]
    refine ⟨fun hn => ?_, hret⟩
    obtain ⟨hleft, hless⟩ := hfall hn
    have hend : K + 2 - (0 + K) = 2 := by omega
    rw [hend] at hleft hless
    have hmin : min (K + 2) 2 = 2 := by omega
    rw [hmin]
    exact ⟨hleft, fun _ => by
      have := hless (by omega)
      omega⟩

theorem Shrunk.dropDirect {m' : Image} {k : Nat} (h : Shrunk m i (k + 1) true m') (hk : k < 2)
    (hlt : k < pagesOwned m (getInode i)) (hmore : size < ownedBytes m' (getInode i)) :
    ∃ m'', shrinkDirect (getInode i) size k m' = shrinkCheck (getInode i) size m'' ∧
    Shrunk m i k true m'' ∧
      pagesOwned m'' (getInode i) = k := by
  obtain ⟨p, hp⟩ : ∃ p : Nat, inodeGetPnum m (getInode i) k = p := ⟨_, (Int.toNat_of_nonneg
    (Int.le_of_lt (pnum_pos hlt))).symm⟩
  have hpos := pnum_pos hlt
  have hptr : ptr m' i k = p := by
    rw [h.ptrs k hk, if_neg (by omega), ← hp, pnum_ptr m i hk]
  have hnext := h.drop hm hi hlt (fun h2 => absurd h2 (by omega)) hp
  have hplace : placeOf k = k := by
    have := placeOf_cases k
    omega
  have hslot : int32 m' (getInode i + Inode.dptrs + 4 * (k : Int)) = p := hptr
  have hcond : ownedBytes m' (getInode i) > size ∧ (p : Int) > 0 := ⟨hmore, by omega⟩
  refine ⟨_, ?_, hnext, hnext.count (Nat.le_of_lt hlt) fun h2 => absurd h2 (by omega)⟩
  unfold shrinkDirect
  dsimp only
  rw [hslot, if_pos hcond, hplace]
  unfold assign freePage
  rw [if_pos (by omega)]
  rfl

omit hi in
/-- With both direct pages left, the first word of page 0 has lost at most the
bit of the indirect page. -/
theorem Shrunk.word {m' : Image} (h : Shrunk m i 2 true m') (htwo : pagesOwned m (getInode i) = 2) :
    int32 m' 0 = if ptr m i 2 = 0 then int32 m 0 else int32 (freePage m (ptr m i 2)) 0 := by
  have hdropped :
      ∀ p, ∀ j, 2 ≤ j → j < pagesOwned m (getInode i) → inodeGetPnum m (getInode i) j ≠ p :=
    fun p j hj hlt => absurd hlt (by omega)
  by_cases hzero : ptr m i 2 = 0
  · rw [if_pos hzero]
    apply word_of_bits
    intro p hp
    rw [Bool.eq_iff_iff, h.bits p hp]
    constructor
    · exact fun hc => hc.1
    · exact fun hset => ⟨hset, hdropped p, fun hc => hc.2.1 hzero⟩
  · obtain ⟨hlo, hhi⟩ := hm.indirect.resolve_left hzero
    obtain ⟨q, hq⟩ : ∃ q : Nat, ptr m i 2 = q := ⟨(ptr m i 2).toNat, by omega⟩
    rw [if_neg hzero]
    apply word_of_bits
    intro p hp
    rw [Bool.eq_iff_iff, h.bits p hp, hq, freePage, bit_bitmapSet]
    by_cases hpq : p = q
    · rw [if_pos hpq]
      constructor
      · rintro ⟨-, -, hgone⟩
        exact absurd ⟨rfl, by omega, by rw [hpq]⟩ hgone
      · exact fun hc => absurd hc (by decide)
    · rw [if_neg hpq]
      constructor
      · exact fun hc => hc.1
      · exact fun hset => ⟨hset, hdropped p, fun hc => hpq (Int.ofNat_inj.mp hc.2.2).symm⟩

omit hi in
theorem Shrunk.counted {m' : Image} (h : Shrunk m i (min (pagesOwned m (getInode i)) 2) true m')
    (hmany : 2 < pagesOwned m' (getInode i)) : 3 ≤ pagesOwned m (getInode i) ∨ Spills m i := by
  by_contra hnot
  have hthree : ¬ 3 ≤ pagesOwned m (getInode i) := fun h3 => hnot (Or.inl h3)
  have htwo : pagesOwned m (getInode i) = 2 := by
    by_contra hne
    have hfew := h.count (Nat.min_le_left _ _) fun h2 => absurd h2 (by omega)
    omega
  rw [htwo] at h
  have hpos := pnum_pos hmany
  rw [pnum_word (h.indirect.trans (if_pos rfl)), Shrunk.word hm h htwo] at hpos
  by_cases hzero : ptr m i 2 = 0
  · -- page 0 would have been counted before
    have hstop : inodeGetPnum m (getInode i) (pagesOwned m (getInode i)) ≤ 0 := pnum_stop (by omega)
    rw [htwo, pnum_word hzero] at hstop
    rw [if_pos hzero] at hpos
    omega
  · rw [if_neg hzero] at hpos
    exact hnot (Or.inr ⟨htwo, hzero, hpos⟩)

theorem shrinkSecond_effect (hsize : 0 ≤ size) :
    Stmt.Triple (fun m' => Shrunk m i (min (pagesOwned m (getInode i)) 2) true m' ∧
        (3 ≤ pagesOwned m (getInode i) → size < 8192))
      (shrinkDirect (getInode i) size 1)
      (fun m' => Shrunk m i 1 true m' ∧ 1 ≤ pagesOwned m (getInode i) ∧ size < 4096)
      fun r m' => r = 0 ∧ Outcome m i size m' := by
  rintro m' ⟨h, hless⟩
  by_cases htwo : 2 ≤ pagesOwned m (getInode i)
  · have hleft : Shrunk m i 2 true m' := by rwa [Nat.min_eq_right htwo] at h
    by_cases hmore : size < ownedBytes m' (getInode i)
    · obtain ⟨m'', hturn, hnext, hcount⟩ :=
        Shrunk.dropDirect hm hi hleft (by decide) (by omega) hmore
      have hbytes : ownedBytes m'' (getInode i) = 4096 := by
        unfold ownedBytes
        rw [hcount]
        rfl
      rw [hturn]
      rcases shrinkCheck_cases (getInode i) size m'' with ⟨hle, hcheck⟩ | ⟨hgt, hcheck⟩
      · rw [hcheck]
        refine ⟨fun hfall => absurd hfall (by simp), fun r hr => ⟨by simpa using hr.symm, ?_⟩⟩
        by_cases hbig : size < 8192
        · exact .direct 1 hnext (by decide) (by omega) (by omega) (by omega)
        · have hmany : 2 < pagesOwned m' (getInode i) := by
            unfold ownedBytes at hmore
            omega
          refine .spilled hnext (by omega) ((Shrunk.counted hm h hmany).resolve_left ?_)
          exact fun h3 => hbig (hless h3)
      · rw [hcheck]
        exact ⟨fun _ => ⟨hnext, by omega, by omega⟩, fun r hr => absurd hr (by simp)⟩
    · have hturn : shrinkDirect (getInode i) size 1 m' = shrinkCheck (getInode i) size m' := by
        unfold shrinkDirect
        dsimp only
        rw [if_neg fun hc => hmore hc.1]
      rw [hturn]
      rcases shrinkCheck_cases (getInode i) size m' with ⟨hle, hcheck⟩ | ⟨hgt, -⟩
      · rw [hcheck]
        refine ⟨fun hfall => absurd hfall (by simp), fun r hr => ⟨by simpa using hr.symm, ?_⟩⟩
        have hcount : 2 ≤ pagesOwned m' (getInode i) := by
          apply pagesOwned_ge (by decide)
          intro j hj
          rw [hleft.pnum_kept (Or.inl hj) (by omega) fun h2 => absurd h2 (by omega)]
          exact pnum_pos (by omega)
        have hK : pagesOwned m (getInode i) = 2 := by
          by_contra hne
          have := hless (by omega)
          unfold ownedBytes at hle
          omega
        exact .whole (by rwa [hK]) (Nat.le_of_eq hK) hle
      · exact absurd hgt hmore
  · -- the second direct page is not there
    have hleft : Shrunk m i (pagesOwned m (getInode i)) true m' := by
      rwa [Nat.min_eq_left (by omega)] at h
    have hcount := hleft.count (Nat.le_refl _) fun h2 => absurd h2 htwo
    have hbytes : ownedBytes m' (getInode i) = pagesOwned m (getInode i) * 4096 := by
      unfold ownedBytes
      rw [hcount]
    have hturn : shrinkDirect (getInode i) size 1 m' = shrinkCheck (getInode i) size m' := by
      by_cases hone : pagesOwned m (getInode i) = 1
      · apply shrinkDirect_skip
        have hstop : inodeGetPnum m (getInode i) (pagesOwned m (getInode i)) ≤ 0 :=
          pnum_stop (by omega)
        rw [hone, pnum_ptr m i (by decide)] at hstop
        rw [hleft.ptrs 1 (by decide), if_neg (by omega)]
        exact hstop
      · unfold shrinkDirect
        dsimp only
        rw [if_neg]
        rintro ⟨hmore, -⟩
        omega
    rw [hturn]
    rcases shrinkCheck_cases (getInode i) size m' with ⟨hle, hcheck⟩ | ⟨hgt, hcheck⟩
    · rw [hcheck]
      refine ⟨fun hfall => absurd hfall (by simp), fun r hr => ⟨by simpa using hr.symm, ?_⟩⟩
      exact .whole hleft (by omega) hle
    · rw [hcheck]
      have hone : pagesOwned m (getInode i) = 1 := by omega
      exact ⟨fun _ => ⟨by rwa [hone] at hleft, by omega, by omega⟩, fun r hr => absurd hr (by simp)⟩

theorem shrinkFirst_effect (hsize : 0 ≤ size) :
    Stmt.Triple (fun m' => Shrunk m i 1 true m' ∧ 1 ≤ pagesOwned m (getInode i) ∧ size < 4096)
      (shrinkDirect (getInode i) size 0) (fun _ => False) fun r m' =>
      r = 0 ∧ Outcome m i size m' := by
  rintro m' ⟨h, hpos, hless⟩
  have hcount := h.count hpos fun h2 => absurd h2 (by decide)
  have hmore : size < ownedBytes m' (getInode i) := by
    unfold ownedBytes
    rw [hcount]
    omega
  obtain ⟨m'', hturn, hnext, hnone⟩ := Shrunk.dropDirect hm hi h (by decide) hpos hmore
  have hfits : ownedBytes m'' (getInode i) ≤ size := by
    unfold ownedBytes
    rw [hnone]
    omega
  rw [hturn]
  rcases shrinkCheck_cases (getInode i) size m'' with ⟨hle, hcheck⟩ | ⟨hgt, -⟩
  · rw [hcheck]
    refine ⟨fun hfall => absurd hfall (by simp), fun r hr => ⟨by simpa using hr.symm, ?_⟩⟩
    exact .direct 0 hnext (by decide) hpos (by omega) (by omega)
  · omega

theorem shrinkInode_effect (junk : Int) (hsize : 0 ≤ size) :
    (shrinkInode junk m (getInode i) size).2 = 0 ∧
      Outcome m i size (shrinkInode junk m (getInode i) size).1 := by
  have hindirect : Stmt.Triple (fun m' => Shrunk m i (min (pagesOwned m (getInode i)) 2) false m' ∧
        (3 ≤ pagesOwned m (getInode i) → size < 8192)) (shrinkIndirect (getInode i))
      (fun m' => Shrunk m i (min (pagesOwned m (getInode i)) 2) true m' ∧
        (3 ≤ pagesOwned m (getInode i) → size < 8192))
      fun r m' => r = 0 ∧ Outcome m i size m' := by
    rintro m' ⟨h, hless⟩
    exact ⟨fun _ => ⟨h.dropIndirect hm hi, hless⟩, fun r hr => absurd hr (by simp [shrinkIndirect])⟩
  have hskip : Stmt.Triple (fun _ : Image => False) (fun s => (s, none)) (fun _ => False)
      fun r m' => r = (0 : Int) ∧ Outcome m i size m' := fun _ hs => hs.elim
  have hdirect := (shrinkSecond_effect hm hi hsize).seq ((shrinkFirst_effect hm hi hsize).seq hskip)
  rw [← shrinkDirects] at hdirect
  have hbody := (shrinkEntries_effect hm hi).seq (hindirect.seq hdirect)
  have hneg : ¬ size < 0 := by omega
  unfold shrinkInode
  rw [if_neg hneg]
  exact hbody.run junk (fun _ hs => hs.elim) rfl

end

/-! ## Giving an inode back -/

/-- It is kept by a change off the pointers, the indirect page and the first word of page 0. -/
theorem Shrinkable.congr {S : Set Int} {m m' : Image} {i : Nat} (h : Shrinkable m i)
    (hchanged : ChangedIn S m m')
    (hword : ∀ x ∈ span 0 4, x ∉ S) (hptrs : ∀ x ∈ span (getInode i + Inode.dptrs) 12, x ∉ S)
    (hpage : ptr m i 2 ≠ 0 → ∀ x ∈ span (pagesGetPage (ptr m i 2)) 4096, x ∉ S) :
    Shrinkable m' i ∧ ptr m' i 2 = ptr m i 2 := by
  have hptr : ∀ j < 3, ptr m' i j = ptr m i j := by
    intro j hj
    apply hchanged.int32
    intro x hx
    apply hptrs
    simp only [Inode.dptrs, mem_span] at hx ⊢
    omega
  have hpnum : ∀ j < 1026, (2 ≤ j → ptr m i 2 ≠ 0) →
      inodeGetPnum m' (getInode i) j = inodeGetPnum m (getInode i) j := by
    intro j hj hind
    by_cases h2 : j < 2
    · rw [pnum_ptr m' i h2, pnum_ptr m i h2, hptr j (by omega)]
    · obtain ⟨e, rfl⟩ : ∃ e, j = e + 2 := ⟨j - 2, by omega⟩
      rw [pnum_page, pnum_page, hptr 2 (by decide)]
      apply hchanged.int32
      intro x hx
      apply hpage (hind (by omega))
      simp only [mem_span] at hx ⊢
      omega
  have hle := pagesOwned_le m (getInode i)
  have howned : pagesOwned m' (getInode i) = pagesOwned m (getInode i) := by
    by_cases hzero : ptr m i 2 = 0
    · have hfew := h.counted hzero
      apply pagesOwned_eq hle
      · intro j hj
        rw [hpnum j (by omega) fun h2 => absurd hj (by omega)]
        exact pnum_pos hj
      · intro hlt
        have hstop : inodeGetPnum m (getInode i) (pagesOwned m (getInode i)) ≤ 0 := pnum_stop hlt
        by_cases h2 : pagesOwned m (getInode i) < 2
        · rwa [hpnum _ hlt fun hge => absurd h2 (Nat.not_lt.mpr hge)]
        · have htwo : pagesOwned m (getInode i) = 2 := by omega
          rw [htwo, pnum_word hzero] at hstop
          rwa [htwo, pnum_word ((hptr 2 (by decide)).trans hzero), hchanged.int32 hword]
    · exact pagesOwned_congr fun j hj => hpnum j hj fun _ => hzero
  have hind := hptr 2 (by decide)
  refine ⟨⟨fun j hj => ?_, ?_, ?_⟩, hind⟩
  · rw [howned] at hj
    rw [hpnum j (by omega) fun h2 hzero => ?_]
    · exact h.range j hj
    · have := h.counted hzero
      omega
  · rw [hind]
    exact h.indirect
  · rw [hind, howned]
    exact h.counted

/-- The bitmaps, the record and the indirect page. -/
def freeArea (m : Image) (i : Nat) : Set Int :=
  {x | x ∈ span 0 64 ∨ x ∈ span (getInode i) 24 ∨
    ptr m i 2 ≠ 0 ∧ x ∈ span (pagesGetPage (ptr m i 2)) 4096}

theorem freeInode_shrinks {m : Image} {i : Nat} (hi : i < 256) (hm : Shrinkable m i)
    (hone : refs m i = 1) : ChangedIn (freeArea m i) m (freeInode m i) := by
  have hcount : ChangedIn (span (getInode i) 4) m (setInt32 m (getInode i + Inode.refs) 0) := by
    have hset := changedIn_setInt32 m (getInode i + Inode.refs) 0
    simpa [Inode.refs] using hset
  have hrecord : ∀ x, x ∈ span (getInode i) 4 → 64 ≤ x ∧ x < getInode i + 4 ∧ x < 8192 := by
    intro x hx
    simp only [getInode_eq, mem_span] at hx ⊢
    omega
  obtain ⟨hm₀, hind⟩ := hm.congr hcount (fun x hx hmem => by
      have := hrecord x hmem
      simp only [mem_span] at hx
      omega)
    (fun x hx hmem => by
      have := hrecord x hmem
      simp only [Inode.dptrs, mem_span] at hx
      omega)
    (fun hne x hx hmem => by
      have := hrecord x hmem
      have := (hm.indirect.resolve_left hne).1
      simp only [pagesGetPage, mem_span] at hx
      omega)
  rw [freeInode_one hone]
  generalize setInt32 m (getInode i + Inode.refs) 0 = m₀ at hcount hm₀ hind
  have hshrunk : ChangedIn (shrinkArea m₀ i) m₀ (shrinkInode 0 m₀ (getInode i) 0).1 := by
    cases (shrinkInode_effect hm₀ hi 0 (Int.le_refl 0)).2 with
    | inside k left => exact left.changed
    | whole left => exact left.changed
    | direct k left => exact left.changed
    | spilled left => exact left.changed
  generalize (shrinkInode 0 m₀ (getInode i) 0).1 = m₁ at hshrunk
  refine ((hcount.mono fun x hx => ?_).trans (hshrunk.mono fun x hx => ?_)).trans
    (((fill_changed m₁ i).mono fun x hx => Or.inr (Or.inl hx)).trans
      ((inodeBit_set _ i 0).mono fun x hx => ?_))
  · right; left
    simp only [mem_span] at hx ⊢
    omega
  · rcases hx with hx | hx | ⟨hne, hx⟩
    · left
      simp only [mem_span] at hx ⊢
      omega
    · right; left
      simp only [Inode.dptrs, mem_span] at hx ⊢
      omega
    · rw [hind] at hne hx
      exact Or.inr (Or.inr ⟨hne, hx⟩)
  · left
    simp only [mem_span] at hx ⊢
    omega

end Cs3650.Nufs
