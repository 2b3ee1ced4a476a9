import Cs3650.Nufs.GrowShrink

/-!
# What growing changes

In any image with the first two pages marked used, whatever else it holds, a
call of `grow_inode` that succeeds writes to the page bitmap, to the pointers of
the inode and, past two pages, to one indirect page.
-/

namespace Cs3650.Nufs

open Cs3650.Lib

theorem pnum_page (m : Image) (i k : Nat) :
    inodeGetPnum m (getInode i) (k + 2) = pageEntry m (ptr m i 2) k := by
  have h2 : ¬ k + 2 < 2 := by omega
  have hoff : (((k + 2 : Nat) : Int) - 2) = (k : Int) := by omega
  unfold inodeGetPnum pageEntry
  rw [if_neg h2, ptr_two, hoff]

/-! ## Free pages -/

/-- The pages that are not marked used, from the lowest on. -/
def clearPages (m : Image) : List Nat := (List.range 256).filter fun p => !bit m getPagesBitmap p

theorem clearPages_take {m m' : Image} {p : Nat} (hp : p < 256)
    (hclear : bit m getPagesBitmap p = false) (hless : ∀ j < p, bit m getPagesBitmap j = true)
    (hbit : ∀ x < 256, bit m' getPagesBitmap x = if x = p then true else bit m getPagesBitmap x) :
    clearPages m = p :: clearPages m' := by
  have hsplit : List.range 256 = List.range p ++ p :: List.range' (p + 1) (255 - p) := by
    have hrest : List.range' p (255 - p + 1) = p :: List.range' (p + 1) (255 - p) :=
      List.range'_succ
    have hcut : 256 = p + (255 - p + 1) := by omega
    rw [← hrest, List.range_eq_range', List.range_eq_range']
    conv_lhs => rw [hcut]
    rw [← List.range'_append_1, Nat.zero_add]
  have hbelow : ∀ m'' : Image, (∀ j < p, bit m'' getPagesBitmap j = true) →
      (List.range p).filter (fun j => !bit m'' getPagesBitmap j) = [] := by
    intro m'' hset
    rw [List.filter_eq_nil_iff]
    intro j hj
    simp [hset j (List.mem_range.mp hj)]
  have hless' : ∀ j < p, bit m' getPagesBitmap j = true := by
    intro j hj
    rw [hbit j (by omega), if_neg (by omega)]
    exact hless j hj
  have hset : bit m' getPagesBitmap p = true := by rw [hbit p hp, if_pos rfl]
  have habove : (List.range' (p + 1) (255 - p)).filter (fun j => !bit m' getPagesBitmap j) =
      (List.range' (p + 1) (255 - p)).filter fun j => !bit m getPagesBitmap j := by
    apply List.filter_congr
    intro j hj
    have hj := List.mem_range'_1.mp hj
    rw [hbit j (by omega), if_neg (by omega)]
  unfold clearPages
  rw [hsplit, List.filter_append, List.filter_append, hbelow m hless, hbelow m' hless',
    List.filter_cons, List.filter_cons, habove]
  simp [hclear, hset]

/-- How many of the first `j` direct pointers are not set. -/
def missingDirect (m : Image) (i j : Nat) : Nat :=
  ((List.range j).filter fun k => ptr m i k ≤ 0).length

theorem missingDirect_succ (m : Image) (i j : Nat) :
    missingDirect m i (j + 1) = missingDirect m i j + if ptr m i j ≤ 0 then 1 else 0 := by
  unfold missingDirect
  rw [List.range_succ, List.filter_append, List.length_append]
  by_cases h : ptr m i j ≤ 0
  · simp [h]
  · simp [h]

/-- The page whose entries `grow_inode` fills past the two direct ones: the
indirect page, or the free page that becomes it. -/
def indirectPage (m : Image) (i : Nat) : Option Int :=
  if ptr m i 2 = 0 then (clearPages m)[missingDirect m i 2]?.map fun p =>
    (p : Int) else some (ptr m i 2)

/-- The bytes of that page, when the inode is to have more than two pages. -/
def indirectBytes (m : Image) (i : Nat) (size : Int) : Set Int :=
  {x | 8192 < size ∧ ∃ q, indirectPage m i = some q ∧ x ∈ span (pagesGetPage q) 4096}

/-! ## Filling places -/

/-- The image `m'` comes from `m` by filling some of the first `n` places of
inode `i` with free pages; entries lie in `F`. -/
structure Growing (m : Image) (i n : Nat) (F : Set Int) (m' : Image) : Prop where
  changed : ChangedIn {x | x ∈ span 0 32 ∨ x ∈ span (getInode i + Inode.dptrs) 12 ∨ x ∈ F} m m'
  kept : ∀ p < 256, bit m getPagesBitmap p = true → bit m' getPagesBitmap p = true
  taken : ∀ p < 256, bit m getPagesBitmap p = false → bit m' getPagesBitmap p = true →
    ∃ r < n, recorded m' i r = p ∧ (3 ≤ r → ∀ x ∈ span (pagesGetPage (ptr m' i 2)) 4096, x ∈ F)

namespace Growing

variable {m m' : Image} {i n : Nat} {F : Set Int}

theorem start (m : Image) (i : Nat) (F : Set Int) : Growing m i 0 F m := by
  refine ⟨ChangedIn.refl _ m, fun p _ h => h, fun p _ hclear hset => ?_⟩
  rw [hclear] at hset
  cases hset

theorem mono (h : Growing m i n F m') {n' : Nat} {F' : Set Int} (hn : n ≤ n')
    (hF : ∀ x ∈ F, x ∈ F') : Growing m i n' F' m' := by
  refine ⟨h.changed.mono fun x hx => ?_, h.kept, fun p hp hclear hset => ?_⟩
  · rcases hx with hx | hx | hx
    · exact Or.inl hx
    · exact Or.inr (Or.inl hx)
    · exact Or.inr (Or.inr (hF x hx))
  · obtain ⟨r, hr, hrec, hin⟩ := h.taken p hp hclear hset
    exact ⟨r, by omega, hrec, fun h3 x hx => hF x (hin h3 x hx)⟩

theorem recorded_assign_le {m : Image} {i n p r : Nat} (hi : i < 256) (hn : n < 1027) (hp : p < 256)
    (hpage : 3 ≤ n → 2 ≤ ptr m i 2 ∧ ptr m i 2 < 256) (hr : r ≤ n) :
    recorded (Nufs.assign m i n p 1 p) i r = if r = n then (p : Int) else recorded m i r := by
  by_cases h3 : r < 3
  · rw [recorded_ptr _ _ h3, recorded_ptr _ _ h3, assign_ptr hi hn hp hp hpage hi h3]
    simp
  · obtain ⟨hlo, hhi⟩ := hpage (by omega)
    obtain ⟨q, hq⟩ : ∃ q : Nat, ptr m i 2 = q := ⟨(ptr m i 2).toNat, by omega⟩
    have hind := assign_ptr (v := 1) hi hn hp hp hpage hi (j := 2) (by decide)
    rw [if_neg (by omega)] at hind
    have hpos : ¬ ptr m i 2 = 0 := by omega
    have hk : r - 3 < 1024 := by omega
    have hentry := assign_entry (m := m) (v := 1) hi hn hp hp (q := q) (by omega) hk
    unfold recorded
    rw [if_neg h3, if_neg h3, hind, if_neg hpos, if_neg hpos, hq, hentry]
    by_cases hrn : r = n
    · have hsame : 3 ≤ n ∧ ptr m i 2 = q ∧ r - 3 = n - 3 := ⟨by omega, hq, by omega⟩
      rw [if_pos hsame, if_pos hrn]
    · have hother : ¬(3 ≤ n ∧ ptr m i 2 = q ∧ r - 3 = n - 3) := by omega
      rw [if_neg hother, if_neg hrn]

theorem assign (h : Growing m i n F m') (hi : i < 256) (hn : n < 1027) {p : Nat} (hp : p < 256)
    (hentry : 3 ≤ n → (2 ≤ ptr m' i 2 ∧ ptr m' i 2 < 256) ∧
      ∀ x ∈ span (pagesGetPage (ptr m' i 2)) 4096, x ∈ F) :
    Growing m i (n + 1) F (assign m' i n p 1 p) := by
  have hpage : 3 ≤ n → 2 ≤ ptr m' i 2 ∧ ptr m' i 2 < 256 := fun h3 => (hentry h3).1
  have hbit : ∀ x < 256, bit (Nufs.assign m' i n p 1 p) getPagesBitmap x =
      if x = p then true else bit m' getPagesBitmap x := fun x hx =>
    assign_pageBit (v := 1) (w := p) hpage hx
  have hind : 3 ≤ n → ptr (Nufs.assign m' i n p 1 p) i 2 = ptr m' i 2 := fun h3 => by
    rw [assign_ptr hi hn hp hp hpage hi (by decide), if_neg (by omega)]
  refine ⟨h.changed.trans ?_, ?_, ?_⟩
  · obtain ⟨a, hchanged, -, hcases⟩ :=
      assign_changed (m := m') (i := i) (p := p) (v := 1) (w := p) hn
    apply hchanged.mono
    rintro x (hx | hx)
    · left
      simp only [mem_span] at hx ⊢
      omega
    · rcases hcases with ⟨h3, ha⟩ | ⟨h3, ha⟩
      · right; left
        simp only [mem_span, getInode_eq, Inode.dptrs] at hx ⊢
        omega
      · right; right
        apply (hentry h3).2
        simp only [mem_span, pagesGetPage] at hx ⊢
        omega
  · intro x hx hset
    rw [hbit x hx, h.kept x hx hset, ite_self]
  · intro x hx hclear hset
    rw [hbit x hx] at hset
    by_cases hxp : x = p
    · refine ⟨n, Nat.lt_succ_self n, ?_, fun h3 => ?_⟩
      · rw [recorded_assign_le hi hn hp hpage (Nat.le_refl n), if_pos rfl, hxp]
      · rw [hind h3]
        exact (hentry h3).2
    · rw [if_neg hxp] at hset
      obtain ⟨r, hr, hrec, hin⟩ := h.taken x hx hclear hset
      refine ⟨r, by omega, ?_, fun h3 => ?_⟩
      · rw [recorded_assign_le hi hn hp hpage (by omega), if_neg (by omega), hrec]
      · rw [hind (by omega)]
        exact hin h3

end Growing

/-! ## One place after the other -/

/-- How many pages the first `n` places take from the bitmap. -/
def pagesTaken (m : Image) (i n : Nat) : Nat :=
  missingDirect m i (min n 2) + (if 3 ≤ n ∧ ptr m i 2 = 0 then 1 else 0) + (n - 3)

theorem pagesTaken_direct (m : Image) (i : Nat) {n : Nat} (hn : n < 2) :
    pagesTaken m i (n + 1) = pagesTaken m i n + if ptr m i n ≤ 0 then 1 else 0 := by
  have hbefore : ¬(3 ≤ n ∧ ptr m i 2 = 0) := fun hc => absurd hc.1 (by omega)
  have hafter : ¬(3 ≤ n + 1 ∧ ptr m i 2 = 0) := fun hc => absurd hc.1 (by omega)
  unfold pagesTaken
  rw [Nat.min_eq_left (by omega), Nat.min_eq_left (by omega), missingDirect_succ, if_neg hbefore,
    if_neg hafter]
  omega

theorem pagesTaken_indirect (m : Image) (i : Nat) :
    pagesTaken m i 3 = pagesTaken m i 2 + if ptr m i 2 = 0 then 1 else 0 := by
  unfold pagesTaken
  by_cases hzero : ptr m i 2 = 0
  · simp [hzero]
  · simp [hzero]

theorem pagesTaken_entry (m : Image) (i : Nat) {n : Nat} (h3 : 3 ≤ n) :
    pagesTaken m i (n + 1) = pagesTaken m i n + 1 := by
  unfold pagesTaken
  rw [Nat.min_eq_right (by omega), Nat.min_eq_right (by omega)]
  by_cases hzero : ptr m i 2 = 0
  · rw [if_pos ⟨by omega, hzero⟩, if_pos ⟨h3, hzero⟩]
    omega
  · rw [if_neg fun hc => hzero hc.2, if_neg fun hc => hzero hc.2]
    omega

/-- The first `n` places have been dealt with. -/
structure Filling (m : Image) (i : Nat) (size : Int) (n : Nat) (m' : Image) : Prop
    extends Growing m i n (indirectBytes m i size) m' where
  direct : ∀ k < 2, k < n → 0 < ptr m' i k
  rest : ∀ k < 3, n ≤ k → ptr m' i k = ptr m i k
  chosen : 3 ≤ n → 8192 < size ∧ indirectPage m i = some (ptr m' i 2)
  filled : ∀ e, e + 3 < n → 0 < pageEntry m' (ptr m' i 2) e
  clear : clearPages m' = (clearPages m).drop (pagesTaken m i n)

theorem Filling.start (m : Image) (i : Nat) (size : Int) : Filling m i size 0 m :=
  ⟨Growing.start m i _, fun k _ hk => absurd hk (Nat.not_lt_zero k), fun _ _ _ => rfl,
    fun h3 => absurd h3 (by decide), fun e he => absurd he (Nat.not_lt_zero _), rfl⟩

theorem Growing.free_page {m m' : Image} {i n p : Nat} {F : Set Int} (h : Growing m i n F m')
    (hres : bit m getPagesBitmap 0 = true ∧ bit m getPagesBitmap 1 = true)
    (hclear : bit m' getPagesBitmap p = false) : 2 ≤ p :=
  two_le_of_clear (h.kept 0 (by decide) hres.1) (h.kept 1 (by decide) hres.2) hclear

theorem Filling.owned_ge {m m' : Image} {i n : Nat} {size : Int} (h : Filling m i size n m')
    (hn : n ≤ 1027) : (if n < 3 then min n 2 else n - 1) ≤ pagesOwned m' (getInode i) := by
  by_cases h3 : n < 3
  · rw [if_pos h3]
    apply pagesOwned_ge (by omega)
    intro k hk
    rw [pnum_direct m' i (by omega), recorded_ptr m' i (by omega)]
    exact h.direct k (by omega) (by omega)
  · rw [if_neg h3]
    apply pagesOwned_ge (by omega)
    intro k hk
    by_cases h2 : k < 2
    · rw [pnum_direct m' i h2, recorded_ptr m' i (by omega)]
      exact h.direct k h2 (by omega)
    · obtain ⟨e, rfl⟩ : ∃ e, k = e + 2 := ⟨k - 2, by omega⟩
      rw [pnum_page]
      exact h.filled e (by omega)

theorem Filling.past_direct {m m' : Image} {i : Nat} {size : Int} (h : Filling m i size 2 m')
    (hless : ownedBytes m' (getInode i) < size) : 8192 < size := by
  have hcount := h.owned_ge (by decide)
  rw [if_pos (by decide)] at hcount
  have htwo : 2 ≤ pagesOwned m' (getInode i) := hcount
  unfold ownedBytes at hless
  omega

theorem Filling.pass {m m' : Image} {i n : Nat} {size : Int} (h : Filling m i size n m')
    (hn : n < 3) (hless : ownedBytes m' (getInode i) < size) (hdirect : n < 2 → 0 < ptr m' i n)
    (hindirect : n = 2 → ptr m' i 2 ≠ 0) : Filling m i size (n + 1) m' := by
  refine ⟨h.toGrowing.mono (Nat.le_succ n) fun _ hx => hx, fun k hk hkn => ?_,
    fun k hk hnk => h.rest k hk (by omega), fun h3 => ?_, fun e he => absurd he (by omega), ?_⟩
  · by_cases hkn' : k = n
    · rw [hkn']
      exact hdirect (hkn' ▸ hk)
    · exact h.direct k hk (by omega)
  · obtain rfl : n = 2 := by omega
    refine ⟨h.past_direct hless, ?_⟩
    unfold indirectPage
    rw [← h.rest 2 (by decide) (Nat.le_refl 2), if_neg (hindirect rfl)]
  · rw [h.clear]
    congr 1
    by_cases h2 : n < 2
    · have hset : ¬ ptr m i n ≤ 0 := by
        rw [← h.rest n hn (Nat.le_refl n)]
        exact Int.not_le.mpr (hdirect h2)
      rw [pagesTaken_direct m i h2, if_neg hset, Nat.add_zero]
    · obtain rfl : n = 2 := by omega
      have hset : ¬ ptr m i 2 = 0 := by
        rw [← h.rest 2 (by decide) (Nat.le_refl 2)]
        exact hindirect rfl
      rw [pagesTaken_indirect, if_neg hset, Nat.add_zero]

section

variable {m m' : Image} {i n p : Nat} {size : Int} (hi : i < 256) (h : Filling m i size n m')
    (hn : n < 1027)
  (hp : p < 256) (hpage : 3 ≤ n → 2 ≤ ptr m' i 2 ∧ ptr m' i 2 < 256)

include hi h hn hp hpage

omit hi h hn hp hpage in
theorem entry_before {e n : Nat} (hn : n < 1027) (he : e + 3 < n + 1) :
    3 ≤ n ∧ e < 1024 ∧ (e = n - 3 ∨ e + 3 < n ∧ e ≠ n - 3) := by
  omega

theorem Filling.filled_assign (hpos : 0 < p) {e : Nat} (he : e + 3 < n + 1) :
    0 < pageEntry (assign m' i n p 1 p) (ptr (assign m' i n p 1 p) i 2) e := by
  obtain ⟨h3, he1024, hcases⟩ := entry_before hn he
  obtain ⟨hlo, hhi⟩ := hpage h3
  obtain ⟨q, hq⟩ : ∃ q : Nat, ptr m' i 2 = q :=
    ⟨_, (Int.toNat_of_nonneg (Int.le_trans (by decide) hlo)).symm⟩
  have h2 : 2 ≤ q := by
    rw [hq] at hlo
    exact Int.ofNat_le.mp hlo
  have hold := h.filled e
  have hother : ¬(i = i ∧ 2 = n) := fun hc => absurd (hc.2 ▸ h3) (by decide)
  rw [assign_ptr hi hn hp hp hpage hi (by decide), if_neg hother]
  rw [hq] at hold ⊢
  rw [assign_entry hi hn hp hp h2 he1024]
  rcases hcases with hlast | ⟨hbefore, hne⟩
  · rw [if_pos ⟨h3, hq, hlast⟩]
    exact Int.natCast_pos.mpr hpos
  · rw [if_neg fun hc => hne hc.2.2]
    exact hold hbefore

/-- Any other place gets the lowest free page. -/
theorem Filling.take (hless : ownedBytes m' (getInode i) < size) (hdirect : n < 2 → ptr m' i n ≤ 0)
    (hindirect : n = 2 → ptr m' i 2 = 0) (h2 : 2 ≤ p) (hclear : bit m' getPagesBitmap p = false)
    (hlow : ∀ j < p, bit m' getPagesBitmap j = true) :
    Filling m i size (n + 1) (assign m' i n p 1 p) := by
  have hgrow := h.toGrowing.assign hi hn hp fun h3 =>
    ⟨hpage h3, fun x hx => ⟨(h.chosen h3).1, _, (h.chosen h3).2, hx⟩⟩
  have hptr :
      ∀ k < 3, ptr (assign m' i n p 1 p) i k = if i = i ∧ k = n then (p : Int) else ptr m' i k :=
    fun k hk => assign_ptr hi hn hp hp hpage hi hk
  have hcons := clearPages_take hp hclear hlow fun x hx => assign_pageBit (v := 1) (w := p) hpage hx
  have hpos : 0 < p := Nat.lt_of_lt_of_le (by decide) h2
  refine ⟨hgrow, fun k hk hkn => ?_, fun k hk hnk => ?_, fun h3 => ?_,
    fun e he => h.filled_assign hi hn hp hpage hpos he, ?_⟩
  · rw [hptr k (Nat.lt_trans hk (by decide))]
    by_cases hkn' : k = n
    · rw [if_pos ⟨rfl, hkn'⟩]
      exact Int.natCast_pos.mpr hpos
    · rw [if_neg (fun hc => hkn' hc.2)]
      exact h.direct k hk (Nat.lt_of_le_of_ne (Nat.lt_succ_iff.mp hkn) hkn')
  · rw [hptr k hk, if_neg (fun hc => Nat.ne_of_gt hnk hc.2)]
    exact h.rest k hk (Nat.le_of_succ_le hnk)
  · rw [hptr 2 (by decide)]
    by_cases hn2 : n = 2
    · subst hn2
      have hzero : ptr m i 2 = 0 := by
        rw [← h.rest 2 (by decide) (Nat.le_refl 2)]
        exact hindirect rfl
      have hhead : (clearPages m)[missingDirect m i 2]? = some p := by
        have htaken : pagesTaken m i 2 = missingDirect m i 2 := by simp [pagesTaken]
        rw [← Nat.add_zero (missingDirect m i 2), ← htaken, ← List.getElem?_drop, ← h.clear, hcons]
        rfl
      rw [if_pos ⟨rfl, rfl⟩]
      refine ⟨h.past_direct hless, ?_⟩
      unfold indirectPage
      rw [if_pos hzero, hhead]
      rfl
    · rw [if_neg (fun hc => hn2 hc.2.symm)]
      exact h.chosen (Nat.lt_of_le_of_ne (Nat.le_of_succ_le_succ h3) (Ne.symm hn2))
  · have htaken : pagesTaken m i (n + 1) = pagesTaken m i n + 1 := by
      by_cases h2n : n < 2
      · have habsent : ptr m i n ≤ 0 := by
          rw [← h.rest n (Nat.lt_trans h2n (by decide)) (Nat.le_refl n)]
          exact hdirect h2n
        rw [pagesTaken_direct m i h2n, if_pos habsent]
      · by_cases hn2 : n = 2
        · subst hn2
          have hzero : ptr m i 2 = 0 := by
            rw [← h.rest 2 (by decide) (Nat.le_refl 2)]
            exact hindirect rfl
          rw [pagesTaken_indirect, if_pos hzero]
        · exact pagesTaken_entry m i (Nat.lt_of_le_of_ne (Nat.not_lt.mp h2n) (Ne.symm hn2))
    rw [htaken, ← List.tail_drop, ← h.clear, hcons, List.tail_cons]

end

section

variable {m : Image} {i : Nat} {size : Int} (hi : i < 256)
  (hres : bit m getPagesBitmap 0 = true ∧ bit m getPagesBitmap 1 = true)
  (hind : 8192 < size → ∀ q, indirectPage m i = some q → 2 ≤ q ∧ q < 256)

include hi hres hind

theorem growInv_filling : GrowInv i size (Filling m i size) where
  pass _ _ hn h hless hdirect hindirect := h.pass hn hless hdirect hindirect
  take _ _ _ hn h hless hdirect hindirect hp hclear hlow :=
    h.take hi hn hp (fun h3 => hind (h.chosen h3).1 _ (h.chosen h3).2) hless hdirect hindirect
      (h.free_page hres hclear) hclear hlow
  page _ _ h3 h := hind (h.chosen h3).1 _ (h.chosen h3).2

/-- The page of entries must be one of the image and none of the first two. -/
theorem growInode_effect (junk : Int) (hok : 0 ≤ (growInode junk m (getInode i) size).2) :
    Growing m i 1027 (indirectBytes m i size) (growInode junk m (getInode i) size).1 := by
  by_cases hbig : size > 1026 * 4096
  · have hneg : ¬ (0 : Int) ≤ -1 := by decide
    unfold growInode at hok
    rw [if_pos hbig] at hok
    exact absurd hok hneg
  · rcases (growInv_filling hi hres hind).growInode hi junk (Filling.start m i size) (by omega) with
      (⟨-, n, hn, hfill, -⟩ | ⟨hr, -⟩) | ⟨-, hfill, -⟩
    · exact hfill.toGrowing.mono hn fun _ hx => hx
    · omega
    · exact hfill.toGrowing

end

/-! ## Enough pages -/

theorem growInode_enough {m : Image} {i : Nat} {size : Int} (junk : Int)
    (hmost : size ≤ 1026 * 4096)
    (h : size ≤ ownedBytes m (getInode i)) : growInode junk m (getInode i) size = (m, 0) := by
  unfold growInode Stmt.run
  rw [if_neg (Int.not_lt.mpr hmost), growBody_enough h]
  rfl

/-- The pages that growing to the size takes from the bitmap. -/
def pagesWanted (m : Image) (i : Nat) (size : Int) : Nat :=
  if size ≤ 4096 then missingDirect m i 1
  else if size ≤ 8192 then missingDirect m i 2
  else missingDirect m i 2 + (if ptr m i 2 = 0 then 1 else 0) + (((size + 4095) / 4096).toNat - 2)

/-- The call finds the pages it needs, if it needs any. -/
structure GrowFits (m : Image) (i : Nat) (size : Int) : Prop where
  most : size ≤ 1026 * 4096
  reserved : bit m getPagesBitmap 0 = true ∧ bit m getPagesBitmap 1 = true
  indirect : 8192 < size → ∀ q, indirectPage m i = some q → 2 ≤ q ∧ q < 256
  room : size ≤ ownedBytes m (getInode i) ∨ pagesWanted m i size ≤ (clearPages m).length

theorem missingDirect_mono (m : Image) (i : Nat) {j k : Nat} (h : j ≤ k) :
    missingDirect m i j ≤ missingDirect m i k := by
  induction k with
  | zero => rw [Nat.le_zero.mp h]
  | succ k ih =>
    by_cases hj : j = k + 1
    · rw [hj]
    · rw [missingDirect_succ]
      have := ih (by omega)
      omega

theorem Filling.wanted {m m' : Image} {i n : Nat} {size : Int} (h : Filling m i size n m')
    (hn : n < 1027) (hless : ownedBytes m' (getInode i) < size) (hdirect : n < 2 → ptr m' i n ≤ 0)
    (hindirect : n = 2 → ptr m' i 2 = 0) : pagesTaken m i n < pagesWanted m i size := by
  have hcount := h.owned_ge (Nat.le_of_lt hn)
  unfold ownedBytes at hless
  unfold pagesWanted
  rcases Nat.lt_trichotomy n 2 with h2 | rfl | h3
  · have habsent : ptr m i n ≤ 0 := by
      rw [← h.rest n (Nat.lt_trans h2 (by decide)) (Nat.le_refl n)]
      exact hdirect h2
    have htaken : pagesTaken m i n + 1 = missingDirect m i (n + 1) := by
      rw [missingDirect_succ, if_pos habsent]
      unfold pagesTaken
      rw [Nat.min_eq_left (Nat.le_of_lt h2), if_neg fun hc => absurd hc.1 (by omega)]
      omega
    have hall := missingDirect_mono m i (show n + 1 ≤ 2 from h2)
    rw [if_pos (Nat.lt_trans h2 (by decide)), Nat.min_eq_left (Nat.le_of_lt h2)] at hcount
    clear hdirect hindirect habsent
    by_cases hone : size ≤ 4096
    · obtain rfl : n = 0 := by omega
      rw [if_pos hone]
      exact Nat.lt_of_succ_le (Nat.le_of_eq htaken)
    · rw [if_neg hone]
      by_cases htwo : size ≤ 8192
      · rw [if_pos htwo]
        omega
      · rw [if_neg htwo]
        omega
  · have hzero : ptr m i 2 = 0 := by
      rw [← h.rest 2 (by decide) (Nat.le_refl 2)]
      exact hindirect rfl
    have hbig := h.past_direct hless
    have htaken : pagesTaken m i 2 = missingDirect m i 2 := by simp [pagesTaken]
    rw [if_neg (by omega), if_neg (by omega), if_pos hzero, htaken]
    omega
  · rw [if_neg (by omega)] at hcount
    have htaken :
        pagesTaken m i n = missingDirect m i 2 + (if ptr m i 2 = 0 then 1 else 0) + (n - 3) := by
      unfold pagesTaken
      rw [Nat.min_eq_right (Nat.le_of_lt h3)]
      by_cases hzero : ptr m i 2 = 0
      · rw [if_pos ⟨h3, hzero⟩, if_pos hzero]
      · rw [if_neg fun hc => hzero hc.2, if_neg hzero]
    rw [if_neg (by omega), if_neg (by omega), htaken]
    omega

theorem growInode_fits {m : Image} {i : Nat} {size : Int} (hi : i < 256) (junk : Int)
    (h : GrowFits m i size) : (growInode junk m (getInode i) size).2 = 0 := by
  have hmost := h.most
  rcases h.room with henough | hroom
  · exact snd_of_eq (growInode_enough junk hmost henough)
  rcases (growInv_filling hi h.reserved h.indirect).growInode hi junk
    (Filling.start m i size) h.most with
    (⟨hr, -⟩ | ⟨-, n, hn, hfill, hless, hdirect, hindirect, hfull⟩) | ⟨-, hfill, hless⟩
  · exact hr
  · -- no page is left, but the size asks for one more
    have hwanted := hfill.wanted hn hless hdirect hindirect
    have hnone : clearPages (growInode junk m (getInode i) size).1 = [] := by
      unfold clearPages
      rw [List.filter_eq_nil_iff]
      intro p hp
      simp [hfull p (List.mem_range.mp hp)]
    have hlength := congrArg List.length hfill.clear
    rw [hnone, List.length_nil, List.length_drop] at hlength
    omega
  · have hcount := hfill.owned_ge (Nat.le_refl 1027)
    rw [if_neg (by decide)] at hcount
    unfold ownedBytes at hless
    omega

end Cs3650.Nufs
