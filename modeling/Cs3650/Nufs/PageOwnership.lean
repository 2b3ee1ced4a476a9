import Cs3650.Lib.Ownership
import Cs3650.Nufs.Directory

/-!
# Who owns a page

The places that can hold a page number are numbered for each inode: 0 and 1 are
the direct pointers, 2 is the indirect pointer and `r + 3` is entry `r` of the
indirect page. An inode fills them in this order and empties them in reverse.
-/

namespace Cs3650.Nufs

open Cs3650.Lib

abbrev Allocated (m : Image) (i : Nat) : Prop := bit m getInodeBitmap i = true

def ptr (m : Image) (i j : Nat) : Int := int32 m (getInode i + Inode.dptrs + 4 * j)

def pageEntry (m : Image) (p : Int) (k : Nat) : Int := int32 m (pagesGetPage p + 4 * k)

def recorded (m : Image) (i r : Nat) : Int :=
  if r < 3 then ptr m i r
  else if ptr m i 2 = 0 then 0
  else pageEntry m (ptr m i 2) (r - 3)

def RecordsPage (m : Image) (i r p : Nat) : Prop :=
  i < 256 ∧ r < 1027 ∧ Allocated m i ∧ recorded m i r = p

/-- A page is marked used if and only if it is one of the first two or exactly
one allocated inode records it, and none is recorded in two places. -/
def PageOwnership (m : Image) : Prop :=
  (∀ p < 256, bit m getPagesBitmap p = true ↔ p = 0 ∨ p = 1 ∨ ∃! i, ∃ r, RecordsPage m i r p) ∧
    ∀ p ≠ 0, ∀ i r i' r', RecordsPage m i r p → RecordsPage m i' r' p → i = i' ∧ r = r'

theorem getInode_eq (i : Int) : getInode i = 64 + 24 * i := rfl

theorem ptr_two (m : Image) (i : Nat) : ptr m i 2 = int32 m (getInode i + Inode.iptr) := by
  unfold ptr Inode.dptrs Inode.iptr
  congr 1

/-! ## Filling and emptying a place -/

/-- Mark page `p` with `v` and store `w` in place `r` of inode `i`. -/
def assign (m : Image) (i r p : Nat) (v : Int) (w : Nat) : Image :=
  setInt32 (bitmapSet m getPagesBitmap p v)
    (if r < 3 then getInode i + Inode.dptrs + 4 * r
      else pagesGetPage (ptr m i 2) + 4 * ((r - 3 : Nat) : Int)) w

section Assign

variable {m : Image} {i r p w : Nat} {v : Int}

theorem assign_changed (hr : r < 1027) :
    ∃ a : Int, ChangedIn {x | x ∈ span (((p / 8 : Nat) : Int)) 1 ∨ x ∈ span a 4} m
      (assign m i r p v w) ∧ int32 (assign m i r p v w) a = ((w : Int)).bmod (2 ^ 32) ∧
      ((r < 3 ∧ a = 76 + 24 * i + 4 * r) ∨
        (3 ≤ r ∧ a = 4096 * ptr m i 2 + 4 * ((r : Int) - 3))) := by
  refine ⟨_, ?_, int32_setInt32 _ _ _, ?_⟩
  · refine ((changedIn_bitmapSet m getPagesBitmap p v).mono fun x hx => ?_).trans
      ((changedIn_setInt32 _ _ _).mono fun x hx => Or.inr hx)
    left
    simpa [getPagesBitmap] using hx
  · by_cases h3 : r < 3
    · left
      rw [if_pos h3]
      simp only [getInode_eq, Inode.dptrs]
      omega
    · right
      rw [if_neg h3]
      simp only [pagesGetPage]
      omega

variable (hi : i < 256) (hr : r < 1027) (hp : p < 256) (hw : w < 256)

include hi hr hp hw

theorem assign_entry {q k : Nat} (h2 : 2 ≤ q) (hk : k < 1024) :
    pageEntry (assign m i r p v w) q k =
      if 3 ≤ r ∧ ptr m i 2 = q ∧ k = r - 3 then (w : Int) else pageEntry m q k := by
  obtain ⟨a, hchanged, hget, hcases⟩ :=
    assign_changed (m := m) (i := i) (p := p) (v := v) (w := w) hr
  rw [bmod_of_lt (by omega) (by omega)] at hget
  unfold pageEntry pagesGetPage
  generalize ptr m i 2 = q' at hcases
  by_cases hsame : 3 ≤ r ∧ q' = q ∧ k = r - 3
  · have ha : a = 4096 * q + 4 * k := by omega
    rw [if_pos hsame, ← ha, hget]
  · rw [if_neg hsame]
    clear hget
    apply hchanged.int32
    simp only [mem_span, Set.mem_ofPred_eq]
    intro x hx
    omega

variable (hpage : 3 ≤ r → 2 ≤ ptr m i 2 ∧ ptr m i 2 < 256)

include hpage

omit hi hr hp hw in
theorem assign_pageBit {x : Nat} (hx : x < 256) :
    bit (assign m i r p v w) getPagesBitmap x =
      if x = p then decide (v ≠ 0) else bit m getPagesBitmap x := by
  unfold assign
  rw [← bit_bitmapSet]
  apply bit_changedIn (changedIn_setInt32 _ _ _)
  by_cases h3 : r < 3
  · simp only [if_pos h3, getPagesBitmap, getInode_eq, Inode.dptrs, mem_span]
    omega
  · have hq := hpage (by omega)
    simp only [if_neg h3, getPagesBitmap, pagesGetPage, mem_span]
    omega

omit hi hw in
theorem assign_inodeBit {x : Nat} (hx : x < 256) :
    bit (assign m i r p v w) getInodeBitmap x = bit m getInodeBitmap x := by
  obtain ⟨a, hchanged, -, hcases⟩ := assign_changed (m := m) (i := i) (p := p) (v := v) (w := w) hr
  apply bit_changedIn hchanged
  simp only [getInodeBitmap, mem_span, Set.mem_ofPred_eq]
  generalize ptr m i 2 = q at hpage hcases
  omega

theorem assign_ptr {i' j : Nat} (hi' : i' < 256) (hj : j < 3) :
    ptr (assign m i r p v w) i' j = if i' = i ∧ j = r then (w : Int) else ptr m i' j := by
  obtain ⟨a, hchanged, hget, hcases⟩ :=
    assign_changed (m := m) (i := i) (p := p) (v := v) (w := w) hr
  have haddr : getInode i' + Inode.dptrs + 4 * j = 76 + 24 * i' + 4 * j := by
    simp only [getInode_eq, Inode.dptrs]
    omega
  rw [bmod_of_lt (by omega) (by omega)] at hget
  generalize ptr m i 2 = q at hpage hcases
  unfold ptr
  rw [haddr]
  by_cases hsame : i' = i ∧ j = r
  · obtain ⟨rfl, rfl⟩ := hsame
    have ha : a = 76 + 24 * i' + 4 * j := by omega
    rw [if_pos ⟨rfl, rfl⟩, ← ha, hget]
  · rw [if_neg hsame]
    clear hget
    apply hchanged.int32
    simp only [mem_span, Set.mem_ofPred_eq]
    omega

end Assign

/-! ## The invariant -/

/-- The places of an inode that hold a page are the first `n`. -/
def Holding (m : Image) (i n : Nat) : Prop :=
  n ≤ 1027 ∧ ∀ r < 1027, 0 < recorded m i r ↔ r < n

def usedPages (m : Image) : Set Nat := {p | p < 256 ∧ bit m getPagesBitmap p = true}

/-- What an inode and a place in it hold. -/
def heldPage (m : Image) (place : Nat × Nat) : Option Nat :=
  if place.1 < 256 ∧ place.2 < 1027 ∧ Allocated m place.1 ∧ 0 < recorded m place.1 place.2 then
    some (recorded m place.1 place.2).toNat
  else none

structure Owned (m : Image) : Prop where
  exact : Exact {p | p < 2} (usedPages m) (heldPage m)
  nonneg : ∀ i < 256, Allocated m i → ∀ r < 1027, 0 ≤ recorded m i r
  holding : ∀ i < 256, Allocated m i → ∃ n, Holding m i n
  free : ∀ i < 256, ¬ Allocated m i → ∀ j < 3, ptr m i j = 0
  blank : ∀ p : Nat, 2 ≤ p → p < 256 → (∀ i < 256, Allocated m i → ptr m i 2 ≠ p) →
    ∀ k < 1024, pageEntry m p k = 0

theorem heldPage_some {m : Image} {i r p : Nat} :
    heldPage m (i, r) = some p ↔
      i < 256 ∧ r < 1027 ∧ Allocated m i ∧ 0 < recorded m i r ∧ recorded m i r = p := by
  unfold heldPage
  dsimp only
  by_cases h : i < 256 ∧ r < 1027 ∧ Allocated m i ∧ 0 < recorded m i r
  · rw [if_pos h, Option.some.injEq]
    obtain ⟨hi, hr, hal, hpos⟩ := h
    constructor
    · intro hp
      exact ⟨hi, hr, hal, hpos, by omega⟩
    · rintro ⟨-, -, -, -, hp⟩
      omega
  · rw [if_neg h]
    constructor
    · intro hp
      cases hp
    · rintro ⟨hi, hr, hal, hpos, -⟩
      exact absurd ⟨hi, hr, hal, hpos⟩ h

theorem recorded_ptr (m : Image) (i : Nat) {j : Nat} (hj : j < 3) : recorded m i j = ptr m i j :=
  if_pos hj

theorem Holding.indirect_pos {m : Image} {i n : Nat} (hn : Holding m i n) (h3 : 3 ≤ n) :
    0 < ptr m i 2 := by
  have hpos := (hn.2 2 (by omega)).mpr (by omega)
  rwa [recorded_ptr m i (by omega)] at hpos

namespace Owned

variable {m : Image}

theorem range (h : Owned m) {i r : Nat} (hi : i < 256) (hal : Allocated m i) (hr : r < 1027)
    (hpos : 0 < recorded m i r) : ∃ p : Nat, recorded m i r = p ∧ 2 ≤ p ∧ p < 256 ∧
      bit m getPagesBitmap p = true ∧ heldPage m (i, r) = some p := by
  obtain ⟨p, hp⟩ : ∃ p : Nat, recorded m i r = p := ⟨(recorded m i r).toNat, by omega⟩
  have hheld : heldPage m (i, r) = some p := heldPage_some.mpr ⟨hi, hr, hal, hpos, hp⟩
  have hused := h.exact.used_of_holds hheld
  have hapart := h.exact.apart _ _ hheld
  have hge : ¬ p < 2 := hapart
  exact ⟨p, hp, by omega, hused.1, hused.2, hheld⟩

theorem zero_of_not_holding (h : Owned m) {i n r : Nat} (hi : i < 256) (hal : Allocated m i)
    (hn : Holding m i n) (hr : r < 1027) (hge : n ≤ r) : recorded m i r = 0 := by
  have hnonneg := h.nonneg i hi hal r hr
  have hnot : ¬ 0 < recorded m i r := fun hpos => by
    have := (hn.2 r hr).mp hpos
    omega
  omega

theorem indirect_range (h : Owned m) {i : Nat} (hi : i < 256) (hal : Allocated m i)
    (hne : ptr m i 2 ≠ 0) : ∃ q : Nat, ptr m i 2 = q ∧ 2 ≤ q ∧ q < 256 ∧
      heldPage m (i, 2) = some q := by
  have hrec := recorded_ptr m i (j := 2) (by omega)
  have hnonneg := h.nonneg i hi hal 2 (by omega)
  obtain ⟨q, hq, h2, h256, -, hheld⟩ := h.range hi hal (r := 2) (by omega) (by omega)
  exact ⟨q, by omega, h2, h256, hheld⟩

theorem recorded_assign (h : Owned m) {i r p w : Nat} {v : Int} (hi : i < 256)
    (hal : Allocated m i) (hr : r < 1027) (hp : p < 256) (hw : w < 256)
    (hprev : 3 ≤ r → 0 < ptr m i 2) (hnext : ∀ r', r < r' → r' < 1027 → recorded m i r' = 0)
    (hblank : r = 2 → 0 < w → 2 ≤ w ∧ ∀ k < 1024, pageEntry m w k = 0) {i' r' : Nat}
    (hi' : i' < 256) (hal' : Allocated m i') (hr' : r' < 1027) :
    recorded (assign m i r p v w) i' r' = if i' = i ∧ r' = r then
    (w : Int) else recorded m i' r' := by
  have hpage : 3 ≤ r → 2 ≤ ptr m i 2 ∧ ptr m i 2 < 256 := by
    intro h3
    have hpos := hprev h3
    obtain ⟨q, hq, h2, h256, -⟩ := h.indirect_range hi hal (by omega)
    omega
  by_cases hptr : r' < 3
  · rw [recorded_ptr _ _ hptr, recorded_ptr _ _ hptr, assign_ptr hi hr hp hw hpage hi' hptr]
  · have hind := assign_ptr (v := v) hi hr hp hw hpage hi' (j := 2) (by omega)
    unfold recorded
    rw [if_neg hptr, if_neg hptr, hind]
    clear hind
    by_cases hfresh : i' = i ∧ 2 = r
    · -- the indirect pointer itself: the entries read before and after are all 0
      obtain ⟨rfl, rfl⟩ := hfresh
      have hzero := hnext r' (by omega) hr'
      unfold recorded at hzero
      rw [if_neg hptr] at hzero
      have hself : i' = i' ∧ 2 = 2 := ⟨rfl, rfl⟩
      have hother : ¬(i' = i' ∧ r' = 2) := by omega
      rw [if_pos hself, if_neg hother, hzero]
      by_cases hw0 : (w : Int) = 0
      · rw [if_pos hw0]
      · obtain ⟨h2w, hall⟩ := hblank rfl (by omega)
        have hk : r' - 3 < 1024 := by omega
        have hnot : ¬(3 ≤ 2 ∧ ptr m i' 2 = w ∧ r' - 3 = 2 - 3) := by omega
        rw [if_neg hw0, assign_entry hi hr hp hw h2w hk, if_neg hnot]
        exact hall (r' - 3) hk
    · rw [if_neg hfresh]
      by_cases hq0 : ptr m i' 2 = 0
      · rw [if_pos hq0, if_pos hq0, if_neg]
        rintro ⟨rfl, rfl⟩
        have := hprev (by omega)
        omega
      · rw [if_neg hq0, if_neg hq0]
        obtain ⟨q, hq, h2, h256, hheld⟩ := h.indirect_range hi' hal' hq0
        have hk : r' - 3 < 1024 := by omega
        have h3r' : 3 ≤ r' := by omega
        rw [hq, assign_entry hi hr hp hw h2 hk]
        by_cases hsame : i' = i ∧ r' = r
        · obtain ⟨rfl, rfl⟩ := hsame
          rw [if_pos ⟨h3r', hq, rfl⟩, if_pos ⟨rfl, rfl⟩]
        · rw [if_neg hsame, if_neg]
          rintro ⟨h3, hqi, hk⟩
          -- two inodes with one indirect page
          have hheld' : heldPage m (i, 2) = some q := by
            obtain ⟨q', hq', -, -, hheld'⟩ := h.indirect_range hi hal (by omega)
            rw [hheld']
            congr 1
            omega
          have hii := h.exact.single _ _ _ hheld hheld'
          rw [Prod.mk.injEq] at hii
          exact hsame ⟨hii.1, by omega⟩

theorem heldPage_congr {m' : Image} {i r : Nat} (hal : Allocated m' i ↔ Allocated m i)
    (hrec : i < 256 → r < 1027 → Allocated m i → recorded m' i r = recorded m i r) :
    heldPage m' (i, r) = heldPage m (i, r) := by
  unfold heldPage
  dsimp only
  by_cases h : i < 256 ∧ r < 1027 ∧ Allocated m i
  · obtain ⟨hi, hr, ha⟩ := h
    simp only [hal, hrec hi hr ha]
  · rw [if_neg (fun hc => h ⟨hc.1, hc.2.1, hal.mp hc.2.2.1⟩),
      if_neg (fun hc => h ⟨hc.1, hc.2.1, hc.2.2.1⟩)]

section

variable {i n p : Nat} (hi : i < 256) (hal : Allocated m i)

include hi hal

theorem indirect_page (h : Owned m) (hn : Holding m i n) (h3 : 3 ≤ n) :
    2 ≤ ptr m i 2 ∧ ptr m i 2 < 256 := by
  have hpos := hn.indirect_pos h3
  obtain ⟨q, hq, h2, h256, -⟩ := h.indirect_range hi hal (by omega)
  omega

/-- The parts of the invariant that filling and emptying a place have in common. -/
theorem of_assign (h : Owned m) {r w : Nat} {v : Int} (hr : r < 1027) (hp : p < 256) (hw : w < 256)
    (hpage : 3 ≤ r → 2 ≤ ptr m i 2 ∧ ptr m i 2 < 256)
    (hrec : ∀ i' < 256, Allocated m i' → ∀ r' < 1027, recorded (assign m i r p v w) i' r' =
      if i' = i ∧ r' = r then (w : Int) else recorded m i' r')
    (hexact : Exact {p | p < 2} (usedPages (assign m i r p v w)) (heldPage (assign m i r p v w)))
    (hholding : Holding (assign m i r p v w) i n)
    (hold : ∀ q : Nat, 2 ≤ q → q < 256 → r = 2 → ptr m i 2 = q → ∀ k < 1024, pageEntry m q k = 0) :
    Owned (assign m i r p v w) := by
  have hbit := fun x hx => assign_inodeBit (v := v) (w := w) (x := x) hr hp hpage hx
  have hptr := fun i' j hi' hj => @assign_ptr m i r p w v hi hr hp hw hpage i' j hi' hj
  refine ⟨hexact, ?_, ?_, ?_, ?_⟩
  · intro i' hi' hal' r' hr'
    rw [Allocated, hbit i' hi'] at hal'
    have hold' := h.nonneg i' hi' hal' r' hr'
    rw [hrec i' hi' hal' r' hr']
    by_cases hsame : i' = i ∧ r' = r
    · rw [if_pos hsame]
      omega
    · rwa [if_neg hsame]
  · intro i' hi' hal'
    rw [Allocated, hbit i' hi'] at hal'
    by_cases hii : i' = i
    · exact ⟨n, hii ▸ hholding⟩
    · obtain ⟨n', hle, hn'⟩ := h.holding i' hi' hal'
      refine ⟨n', hle, fun r' hr' => ?_⟩
      have hne : ¬(i' = i ∧ r' = r) := fun hsame => hii hsame.1
      rw [hrec i' hi' hal' r' hr', if_neg hne]
      exact hn' r' hr'
  · intro i' hi' hal' j hj
    rw [Allocated, hbit i' hi'] at hal'
    have hne : ¬(i' = i ∧ j = r) := fun hsame => hal' (hsame.1 ▸ hal)
    rw [hptr i' j hi' hj, if_neg hne]
    exact h.free i' hi' hal' j hj
  · intro q h2 hq hnone k hk
    have hother : ∀ i' < 256, Allocated m i' → ¬(i' = i ∧ 2 = r) → ptr m i' 2 ≠ q := by
      intro i' hi' hal' hne
      have hnew := hnone i' hi' (by rwa [Allocated, hbit i' hi'])
      rwa [hptr i' 2 hi' (by omega), if_neg hne] at hnew
    rw [assign_entry hi hr hp hw h2 hk]
    by_cases hwritten : 3 ≤ r ∧ ptr m i 2 = q ∧ k = r - 3
    · exact absurd hwritten.2.1 (hother i hi hal (by omega))
    · rw [if_neg hwritten]
      by_cases hown : r = 2 ∧ ptr m i 2 = q
      · exact hold q h2 hq hown.1 hown.2 k hk
      · apply h.blank q h2 hq _ k hk
        intro i' hi' hal' heq
        by_cases hsame : i' = i ∧ 2 = r
        · exact hown ⟨hsame.2.symm, hsame.1 ▸ heq⟩
        · exact hother i' hi' hal' hsame heq

theorem acquire (h : Owned m) (hn : Holding m i n) (hlt : n < 1027) (hp : p < 256)
    (hclear : bit m getPagesBitmap p = false) :
    Owned (assign m i n p 1 p) ∧ Holding (assign m i n p 1 p) i (n + 1) := by
  have hfree : p ∉ usedPages m := fun hu => by
    rw [hu.2] at hclear
    cases hclear
  have h2 : 2 ≤ p := by
    by_contra hlt2
    exact hfree ((h.exact.used_iff p).mpr (Or.inl (by simpa using hlt2)))
  have hpage := h.indirect_page hi hal hn
  have hempty := fun r hr => h.zero_of_not_holding hi hal hn (r := r) hr
  have hblank : n = 2 → 0 < p → 2 ≤ p ∧ ∀ k < 1024, pageEntry m p k = 0 := by
    refine fun _ _ => ⟨h2, h.blank p h2 hp fun i' hi' hal' heq => ?_⟩
    obtain ⟨q, hq, -, -, hheld⟩ := h.indirect_range hi' hal' (by omega)
    have hqp : q = p := by omega
    exact hfree (hqp ▸ h.exact.used_of_holds hheld)
  have hrec : ∀ i' < 256, Allocated m i' → ∀ r' < 1027, recorded (assign m i n p 1 p) i' r' =
      if i' = i ∧ r' = n then (p : Int) else recorded m i' r' := fun i' hi' hal' r' hr' =>
    h.recorded_assign hi hal hlt hp hp (hn.indirect_pos)
      (fun r' hgt hr' => hempty r' hr' (by omega)) hblank hi' hal' hr'
  have hbit := fun x hx => assign_inodeBit (v := 1) (w := p) (x := x) hlt hp hpage hx
  have hholding : Holding (assign m i n p 1 p) i (n + 1) := by
    refine ⟨by omega, fun r hr => ?_⟩
    rw [hrec i hi hal r hr]
    by_cases hsame : i = i ∧ r = n
    · rw [if_pos hsame]
      omega
    · have hiff := hn.2 r hr
      rw [if_neg hsame, hiff]
      omega
  refine ⟨h.of_assign hi hal hlt hp hp hpage hrec ?_ hholding ?_, hholding⟩
  · refine h.exact.acquire (a := (i, n)) hfree ?_ ?_ ?_ ?_
    · cases hheld : heldPage m (i, n) with
      | none => rfl
      | some q =>
        have hpos := (heldPage_some.mp hheld).2.2.2.1
        have hzero := hempty n hlt (by omega)
        omega
    · intro x
      constructor
      · rintro ⟨hx, hset⟩
        rw [assign_pageBit hpage hx] at hset
        by_cases hxp : x = p
        · exact Or.inl hxp
        · rw [if_neg hxp] at hset
          exact Or.inr ⟨hx, hset⟩
      · rintro (rfl | ⟨hx, hset⟩)
        · exact ⟨hp, by rw [assign_pageBit hpage hp, if_pos rfl]; rfl⟩
        · refine ⟨hx, ?_⟩
          rw [assign_pageBit hpage hx, hset, if_neg]
          rintro rfl
          exact hfree ⟨hx, hset⟩
    · rw [heldPage_some]
      have hval := hrec i hi hal n hlt
      rw [if_pos ⟨rfl, rfl⟩] at hval
      exact ⟨hi, hlt, by rwa [Allocated, hbit i hi], by omega, hval⟩
    · rintro ⟨i', r'⟩ hne
      by_cases hi' : i' < 256
      · apply heldPage_congr
        · rw [Allocated, hbit i' hi']
        · intro _ hr' hal'
          rw [hrec i' hi' hal' r' hr', if_neg]
          rintro ⟨rfl, rfl⟩
          exact hne rfl
      · unfold heldPage
        rw [if_neg fun hc => hi' hc.1, if_neg fun hc => hi' hc.1]
  · intro q hq2 _ hn2 hq
    have hzero := hempty n hlt (by omega)
    rw [recorded_ptr m i (by omega), hn2] at hzero
    omega

theorem release (h : Owned m) (hn : Holding m i (n + 1)) :
    ∃ p : Nat, recorded m i n = p ∧ 2 ≤ p ∧ p < 256 ∧ Owned (assign m i n p 0 0) ∧
      Holding (assign m i n p 0 0) i n := by
  have hlt : n < 1027 := hn.1
  obtain ⟨p, hrecp, h2, hp, hset, hheld⟩ :=
    h.range hi hal hlt ((hn.2 n hlt).mpr (Nat.lt_succ_self n))
  have hpage : 3 ≤ n → 2 ≤ ptr m i 2 ∧ ptr m i 2 < 256 := fun h3 =>
    h.indirect_page hi hal hn (by omega)
  have hempty := fun r hr => h.zero_of_not_holding hi hal hn (r := r) hr
  have hrec : ∀ i' < 256, Allocated m i' → ∀ r' < 1027, recorded (assign m i n p 0 0) i' r' =
      if i' = i ∧ r' = n then ((0 : Nat) : Int) else recorded m i' r' := fun i' hi' hal' r' hr' =>
    h.recorded_assign hi hal hlt hp (by omega) (fun h3 => hn.indirect_pos (by omega))
      (fun r' hgt hr' => hempty r' hr' (by omega)) (fun _ hw => by omega) hi' hal' hr'
  have hbit := fun x hx => assign_inodeBit (v := 0) (w := 0) (x := x) hlt hp hpage hx
  have hholding : Holding (assign m i n p 0 0) i n := by
    refine ⟨by omega, fun r hr => ?_⟩
    rw [hrec i hi hal r hr]
    by_cases hsame : i = i ∧ r = n
    · rw [if_pos hsame]
      omega
    · have hiff := hn.2 r hr
      rw [if_neg hsame, hiff]
      omega
  refine ⟨p, hrecp, h2, hp,
    h.of_assign hi hal hlt hp (by omega) hpage hrec ?_ hholding ?_, hholding⟩
  · refine h.exact.release hheld ?_ ?_ ?_
    · intro x
      constructor
      · rintro ⟨hx, hbitx⟩
        rw [assign_pageBit hpage hx] at hbitx
        by_cases hxp : x = p
        · rw [if_pos hxp] at hbitx
          cases hbitx
        · rw [if_neg hxp] at hbitx
          exact ⟨hxp, hx, hbitx⟩
      · rintro ⟨hxp, hx, hbitx⟩
        exact ⟨hx, by rw [assign_pageBit hpage hx, if_neg hxp, hbitx]⟩
    · cases hnew : heldPage (assign m i n p 0 0) (i, n) with
      | none => rfl
      | some q =>
        have hpos := (heldPage_some.mp hnew).2.2.2.1
        rw [hrec i hi hal n hlt, if_pos ⟨rfl, rfl⟩] at hpos
        omega
    · rintro ⟨i', r'⟩ hne
      by_cases hi' : i' < 256
      · apply heldPage_congr
        · rw [Allocated, hbit i' hi']
        · intro _ hr' hal'
          have hother : ¬(i' = i ∧ r' = n) := by
            rintro ⟨rfl, rfl⟩
            exact hne rfl
          rw [hrec i' hi' hal' r' hr', if_neg hother]
      · unfold heldPage
        rw [if_neg fun hc => hi' hc.1, if_neg fun hc => hi' hc.1]
  · intro q hq2 _ hn2 hq k hk
    have hzero := hempty (k + 3) (by omega) (by omega)
    have hk3 : ¬ k + 3 < 3 := by omega
    have hne : ¬ ptr m i 2 = 0 := by omega
    unfold recorded at hzero
    rwa [if_neg hk3, if_neg hne, hq, Nat.add_sub_cancel] at hzero

end

/-- The invariant looks at the page bitmap, the pointers, the pages from 2 on
and at which inodes are allocated; the last does not matter for an inode
without pages. -/
theorem congr (h : Owned m) {m' : Image}
    (hpage : ∀ p < 256, bit m' getPagesBitmap p = bit m getPagesBitmap p)
    (hptr : ∀ i < 256, ∀ j < 3, ptr m' i j = ptr m i j)
    (hentry : ∀ p : Nat, 2 ≤ p → p < 256 → ∀ k < 1024, pageEntry m' p k = pageEntry m p k)
    (hinode : ∀ i < 256, (Allocated m' i ↔ Allocated m i) ∨ ∀ j < 3, ptr m i j = 0) : Owned m' := by
  have hnone : ∀ i < 256, (∀ j < 3, ptr m i j = 0) → ∀ r, recorded m' i r = 0 ∧
      recorded m i r = 0 := by
    intro i hi hzero r
    unfold recorded
    rw [hptr i hi 2 (by omega), hzero 2 (by omega)]
    by_cases hr : r < 3
    · rw [if_pos hr, if_pos hr, hptr i hi r hr, hzero r hr]
      exact ⟨rfl, rfl⟩
    · rw [if_neg hr, if_neg hr]
      exact ⟨rfl, rfl⟩
  have hrec : ∀ i < 256, Allocated m i → ∀ r < 1027, recorded m' i r = recorded m i r := by
    intro i hi hal r hr
    unfold recorded
    rw [hptr i hi 2 (by omega)]
    by_cases hr3 : r < 3
    · rw [if_pos hr3, if_pos hr3, hptr i hi r hr3]
    · rw [if_neg hr3, if_neg hr3]
      by_cases hzero : ptr m i 2 = 0
      · rw [if_pos hzero, if_pos hzero]
      · obtain ⟨q, hq, h2, h256, -⟩ := h.indirect_range hi hal hzero
        rw [if_neg hzero, if_neg hzero, hq, hentry q h2 h256 (r - 3) (by omega)]
  have hused : usedPages m' = usedPages m := by
    ext p
    constructor
    · rintro ⟨hp, hset⟩
      exact ⟨hp, hpage p hp ▸ hset⟩
    · rintro ⟨hp, hset⟩
      exact ⟨hp, (hpage p hp).trans hset⟩
  have hheld : heldPage m' = heldPage m := by
    funext ⟨i, r⟩
    by_cases hi : i < 256
    · rcases hinode i hi with hal | hzero
      · exact heldPage_congr hal fun hi hr ha => hrec i hi ha r hr
      · obtain ⟨hz', hz⟩ := hnone i hi hzero r
        have hno : ∀ m'' : Image, recorded m'' i r = 0 → heldPage m'' (i, r) = none := by
          intro m'' hzero'
          unfold heldPage
          rw [if_neg]
          rintro ⟨-, -, -, hpos⟩
          dsimp only at hpos
          omega
        rw [hno m' hz', hno m hz]
    · unfold heldPage
      rw [if_neg fun hc => hi hc.1, if_neg fun hc => hi hc.1]
  refine ⟨?_, ?_, ?_, ?_, ?_⟩
  · rw [hused, hheld]
    exact h.exact
  · intro i hi hal r hr
    rcases hinode i hi with hiff | hzero
    · rw [hrec i hi (hiff.mp hal) r hr]
      exact h.nonneg i hi (hiff.mp hal) r hr
    · rw [(hnone i hi hzero r).1]
  · intro i hi hal
    rcases hinode i hi with hiff | hzero
    · obtain ⟨n, hle, hn⟩ := h.holding i hi (hiff.mp hal)
      refine ⟨n, hle, fun r hr => ?_⟩
      rw [hrec i hi (hiff.mp hal) r hr]
      exact hn r hr
    · refine ⟨0, by omega, fun r hr => ?_⟩
      rw [(hnone i hi hzero r).1]
      omega
  · intro i hi hal j hj
    rw [hptr i hi j hj]
    rcases hinode i hi with hiff | hzero
    · exact h.free i hi (fun ha => hal (hiff.mpr ha)) j hj
    · exact hzero j hj
  · intro p h2 hp hother k hk
    rw [hentry p h2 hp k hk]
    apply h.blank p h2 hp _ k hk
    intro i hi hal
    rcases hinode i hi with hiff | hzero
    · rw [← hptr i hi 2 (by omega)]
      exact hother i hi (hiff.mpr hal)
    · rw [hzero 2 (by omega)]
      omega

/-- Single ownership follows from the invariant. -/
theorem pageOwnership (h : Owned m) : PageOwnership m := by
  have hheld : ∀ i r p, p ≠ 0 → RecordsPage m i r p → heldPage m (i, r) = some p := by
    rintro i r p hp ⟨hi, hr, hal, hrec⟩
    exact heldPage_some.mpr ⟨hi, hr, hal, by omega, hrec⟩
  constructor
  · intro p hp
    have hiff : bit m getPagesBitmap p = true ↔ p ∈ usedPages m :=
      ⟨fun hset => ⟨hp, hset⟩, fun hu => hu.2⟩
    rw [hiff, h.exact.used_iff_unique]
    constructor
    · rintro (hlow | ⟨⟨i, r⟩, hir, hunique⟩)
      · have hlow' : p < 2 := hlow
        omega
      · obtain ⟨hi, hr, hal, hpos, hrec⟩ := heldPage_some.mp hir
        refine Or.inr (Or.inr ⟨i, ⟨r, hi, hr, hal, hrec⟩, ?_⟩)
        rintro i' ⟨r', hir'⟩
        exact congrArg Prod.fst (hunique (i', r') (hheld i' r' p (by omega) hir'))
    · rintro (hlow | hlow | ⟨i, ⟨r, hir⟩, -⟩)
      · exact Or.inl (show p < 2 by omega)
      · exact Or.inl (show p < 2 by omega)
      · by_cases hzero : p = 0
        · exact Or.inl (show p < 2 by omega)
        · have hir' := hheld i r p hzero hir
          exact Or.inr ⟨(i, r), hir', fun b hb => h.exact.single b (i, r) p hb hir'⟩
  · intro p hp i r i' r' hir hir'
    exact Prod.mk.inj (h.exact.single _ _ p (hheld i r p hp hir) (hheld i' r' p hp hir'))

end Owned

end Cs3650.Nufs
