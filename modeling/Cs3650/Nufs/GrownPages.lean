import Cs3650.Nufs.DirectoryMap
import Cs3650.Nufs.GrowRule
import Cs3650.Nufs.HeldPages

/-!
# Pages that growing keeps

`grow_inode` puts the pages it takes into the first entries of the indirect page,
whatever is there, and is content as soon as `pages_owned` counts enough, which
goes on in page 0 while there is no indirect page.
-/

namespace Cs3650.Nufs

open Cs3650.Lib

/-- The first `n` direct pointers that name no page have got the lowest free ones. -/
def directFilled (m : Image) (i : Nat) : Nat → Image
  | 0 => m
  | n + 1 =>
    let m' := directFilled m i n
    if ptr m' i n ≤ 0 then
      match firstClear m' getPagesBitmap PAGE_COUNT with
      | some p => assign m' i n p 1 p
      | none => m'
    else m'

/-- What the call is to do: the pages held before stay, and there are as many as
the size needs. -/
structure GrowKeeps (junk : Int) (m : Image) (i k : Nat) (size : Int) : Prop where
  kept : ∀ j < k, inodeGetPnum (growInode junk m (getInode i) size).1 (getInode i) j =
    inodeGetPnum m (getInode i) j
  holds : HoldsPages (growInode junk m (getInode i) size).1 i (max k (pagesFor size))

/-- The pages are enough, or there are only direct ones. To go beyond those,
what is counted in page 0 must not do, and the page that becomes the indirect
one must have no number where the entries are read. -/
def GrowsWhole (m : Image) (i k : Nat) (size : Int) : Prop :=
  size ≤ 4096 * k ∨ k ≤ 2 ∧ (8192 < size → ownedBytes (directFilled m i 2) (getInode i) < size ∧
    ∀ q < 256, firstClear (directFilled m i 2) getPagesBitmap PAGE_COUNT = some q →
      ∀ e < 1024, e + 1 < pagesFor size → pageEntry (directFilled m i 2) q e ≤ 0)

/-! ## One page more -/

namespace HoldsPages

variable {m m' : Image} {i c p : Nat} (h : HoldsPages m i c) (h2 : 2 ≤ p) (hp : p < 256)
  (hclear : bit m getPagesBitmap p = false)
  (hbits : ∀ x < 256, bit m' getPagesBitmap x = if x = p then true else bit m getPagesBitmap x)

include h hclear

theorem fresh {j : Nat} (hj : j < c) : inodeGetPnum m (getInode i) j ≠ p := by
  intro heq
  have hused := h.used j hj
  rw [heq, Int.toNat_natCast, hclear] at hused
  cases hused

omit h hclear in
include hbits in
theorem stays_used {x : Int} (hlo : 0 ≤ x) (hhi : x < 256)
    (hx : bit m getPagesBitmap x.toNat = true) : bit m' getPagesBitmap x.toNat = true := by
  rw [hbits _ (by omega), hx, ite_self]

include h2 hp hbits

theorem add (hc : c < 1026)
    (hold : ∀ j < c, inodeGetPnum m' (getInode i) j = inodeGetPnum m (getInode i) j)
    (hnew : inodeGetPnum m' (getInode i) c = p) (hind : ptr m' i 2 = ptr m i 2)
    (hmany : 2 ≤ c → ptr m i 2 ≠ 0)
    (hnext : c + 1 < 2 ∨ ptr m i 2 ≠ 0 → c + 1 < 1026 → inodeGetPnum m' (getInode i) (c + 1) ≤ 0) :
    HoldsPages m' i (c + 1) := by
  have hcases :
      ∀ j < c + 1, j < c ∧ inodeGetPnum m' (getInode i) j = inodeGetPnum m (getInode i) j ∨
      j = c ∧ inodeGetPnum m' (getInode i) j = p := by
    intro j hj
    by_cases hjc : j = c
    · exact Or.inr ⟨hjc, hjc ▸ hnew⟩
    · exact Or.inl ⟨by omega, hold j (by omega)⟩
  constructor
  · omega
  · intro j hj
    rcases hcases j hj with ⟨hlt, heq⟩ | ⟨-, heq⟩
    · rw [heq]
      exact h.range j hlt
    · rw [heq]
      omega
  · intro j hj
    rcases hcases j hj with ⟨hlt, heq⟩ | ⟨-, heq⟩
    · have hrange := h.range j hlt
      rw [heq]
      exact stays_used hbits (by omega) hrange.2 (h.used j hlt)
    · rw [heq, Int.toNat_natCast, hbits p hp, if_pos rfl]
  · intro j hj j' hj' hsame
    rcases hcases j hj with ⟨hlt, heq⟩ | ⟨hjc, heq⟩
    · rcases hcases j' hj' with ⟨hlt', heq'⟩ | ⟨-, heq'⟩
      · exact h.distinct j hlt j' hlt' (by rw [← heq, ← heq', hsame])
      · exact absurd (heq.symm.trans (hsame.trans heq')) (h.fresh hclear hlt)
    · rcases hcases j' hj' with ⟨hlt', heq'⟩ | ⟨hjc', -⟩
      · exact absurd (heq'.symm.trans (hsame.symm.trans heq)) (h.fresh hclear hlt')
      · rw [hjc, hjc']
  · rw [hind]
    exact hnext
  · rw [hind]
    intro hne
    obtain ⟨hlo, hhi, hused, hapart⟩ := h.indirect hne
    refine ⟨hlo, hhi, stays_used hbits (by omega) hhi hused, fun j hj => ?_⟩
    rcases hcases j hj with ⟨hlt, heq⟩ | ⟨-, heq⟩
    · rw [heq]
      exact hapart j hlt
    · rw [heq]
      intro hsame
      rw [← hsame, Int.toNat_natCast, hclear] at hused
      cases hused
  · rw [hind]
    intro hlt
    exact hmany (by omega)

theorem addIndirect (hold : ∀ j < c, inodeGetPnum m' (getInode i) j = inodeGetPnum m (getInode i) j)
    (hind : ptr m' i 2 = p) (hnext : c < 1026 → inodeGetPnum m' (getInode i) c ≤ 0) :
    HoldsPages m' i c := by
  constructor
  · exact h.le
  · intro j hj
    rw [hold j hj]
    exact h.range j hj
  · intro j hj
    have hrange := h.range j hj
    rw [hold j hj]
    exact stays_used hbits (by omega) hrange.2 (h.used j hj)
  · intro j hj j' hj' hsame
    rw [hold j hj, hold j' hj'] at hsame
    exact h.distinct j hj j' hj' hsame
  · exact fun _ => hnext
  · intro _
    rw [hind, Int.toNat_natCast, hbits p hp, if_pos rfl]
    refine ⟨by omega, by omega, rfl, fun j hj => ?_⟩
    rw [hold j hj]
    exact h.fresh hclear hj
  · intro _
    omega

end HoldsPages

/-! ## Place after place -/

/-- The data pages held when `n` places have been dealt with, `k` of them from before. -/
def heldAfter (k n : Nat) : Nat := if n < 3 then max k n else n - 1

/-- The inode between two places. -/
structure Refilled (m : Image) (i k : Nat) (size : Int) (n : Nat) (m' : Image) : Prop where
  held : HoldsPages m' i (heldAfter k n)
  kept : ∀ j < k, inodeGetPnum m' (getInode i) j = inodeGetPnum m (getInode i) j
  reserved : bit m' getPagesBitmap 0 = true ∧ bit m' getPagesBitmap 1 = true
  rest : ∀ j < 2, heldAfter k n ≤ j → ptr m' i j ≤ 0
  start : n < 3 → ptr m' i 2 = 0 ∧ m' = directFilled m i n
  needed : heldAfter k n ≤ k ∨ 4096 * (heldAfter k n : Int) < size + 4096
  blank : 3 ≤ n → 8192 < size ∧ 2 ≤ ptr m' i 2 ∧ ptr m' i 2 < 256 ∧
    ∀ e < 1024, n ≤ e + 3 → e + 1 < pagesFor size → pageEntry m' (ptr m' i 2) e ≤ 0

theorem firstClear_lowest {m : Image} {p : Nat} (hp : p < 256)
    (hclear : bit m getPagesBitmap p = false)
    (hlow : ∀ j < p, bit m getPagesBitmap j = true) :
    firstClear m getPagesBitmap PAGE_COUNT = some p := by
  unfold firstClear
  refine List.find?_range_eq_some.mpr ⟨by simp [bitmapGet_eq, hclear], List.mem_range.mpr hp,
    fun j hj => ?_⟩
  simp [bitmapGet_eq, hlow j hj]

theorem directFilled_pass {m : Image} {i n : Nat} (h : 0 < ptr (directFilled m i n) i n) :
    directFilled m i (n + 1) = directFilled m i n :=
  if_neg (Int.not_le.mpr h)

theorem directFilled_take {m : Image} {i n p : Nat} (h : ptr (directFilled m i n) i n ≤ 0)
    (hfirst : firstClear (directFilled m i n) getPagesBitmap PAGE_COUNT = some p) :
    directFilled m i (n + 1) = assign (directFilled m i n) i n p 1 p := by
  have hunfold :
      directFilled m i (n + 1) =
      match firstClear (directFilled m i n) getPagesBitmap PAGE_COUNT with
    | some p => assign (directFilled m i n) i n p 1 p
    | none => directFilled m i n := if_pos h
  rw [hunfold, hfirst]

theorem pagesFor_gt {n : Nat} {size : Int} (h : 4096 * (n : Int) < size) : n < pagesFor size := by
  unfold pagesFor
  omega

section

variable {m m' : Image} {i k n p : Nat} {size : Int} (hi : i < 256) (h : Refilled m i k size n m')

include h

theorem Refilled.pass (hn : n < 3) (hdirect : n < 2 → 0 < ptr m' i n)
    (hindirect : n = 2 → ptr m' i 2 ≠ 0) : Refilled m i k size (n + 1) m' := by
  obtain ⟨hzero, hstate⟩ := h.start hn
  have h2 : n < 2 := by
    by_contra hge
    exact hindirect (by omega) hzero
  have hpos := hdirect h2
  have hlt : n < heldAfter k n := by
    by_contra hge
    exact absurd hpos (Int.not_lt.mpr (h.rest n h2 (Nat.not_lt.mp hge)))
  have hsame : heldAfter k (n + 1) = heldAfter k n := by
    unfold heldAfter at hlt ⊢
    rw [if_pos hn] at hlt ⊢
    rw [if_pos (by omega)]
    omega
  refine ⟨hsame ▸ h.held, h.kept, h.reserved, hsame ▸ h.rest, fun _ => ⟨hzero, ?_⟩,
    hsame ▸ h.needed, fun h3 => absurd h3 (by omega)⟩
  rw [hstate] at hpos
  rw [directFilled_pass hpos]
  exact hstate

theorem Refilled.short (hless : ownedBytes m' (getInode i) < size) :
    4096 * (heldAfter k n : Int) < size := by
  have hcount := h.held.owned_ge
  unfold ownedBytes at hless
  omega

include hi

variable (hp : p < 256) (hclear : bit m' getPagesBitmap p = false)
    (hlow : ∀ j < p, bit m' getPagesBitmap j = true)

include hp hclear

omit hi hp in
theorem Refilled.free_page : 2 ≤ p := two_le_of_clear h.reserved.1 h.reserved.2 hclear

include hlow

theorem Refilled.takeDirect (hless : ownedBytes m' (getInode i) < size) (hn : n < 2)
    (habsent : ptr m' i n ≤ 0) : Refilled m i k size (n + 1) (assign m' i n p 1 p) := by
  obtain ⟨hzero, hstate⟩ := h.start (by omega)
  have h2 := h.free_page hclear
  have hpage : 3 ≤ n → 2 ≤ ptr m' i 2 ∧ ptr m' i 2 < 256 := fun h3 => absurd h3 (by omega)
  have hheld : heldAfter k n = n := by
    by_contra hne
    have hlt : n < heldAfter k n := by
      unfold heldAfter at hne ⊢
      rw [if_pos (by omega)] at hne ⊢
      omega
    have hrange := (h.held.range n hlt).1
    rw [pnum_ptr m' i hn] at hrange
    exact absurd (Int.le_trans hrange habsent) (by decide)
  have hkn : k ≤ n := by
    unfold heldAfter at hheld
    rw [if_pos (by omega)] at hheld
    omega
  have hheld' : heldAfter k (n + 1) = n + 1 := by
    unfold heldAfter
    rw [if_pos (by omega)]
    omega
  have hbits : ∀ x < 256, bit (assign m' i n p 1 p) getPagesBitmap x =
      if x = p then true else bit m' getPagesBitmap x :=
      fun x hx => assign_pageBit (v := 1) (w := p) hpage hx
  have hptr : ∀ j < 3, j ≠ n → ptr (assign m' i n p 1 p) i j = ptr m' i j := by
    intro j hj hne
    rw [assign_ptr hi (by omega) hp hp hpage hi hj, if_neg fun hc => hne hc.2]
  have hold : ∀ j < n, inodeGetPnum (assign m' i n p 1 p) (getInode i) j =
      inodeGetPnum m' (getInode i) j := by
    intro j hj
    rw [pnum_ptr _ i (by omega), pnum_ptr _ i (by omega), hptr j (by omega) (by omega)]
  have hnew : inodeGetPnum (assign m' i n p 1 p) (getInode i) n = p := by
    rw [pnum_ptr _ i hn, assign_ptr hi (by omega) hp hp hpage hi (by omega), if_pos ⟨rfl, rfl⟩]
  have hind := hptr 2 (by decide) (by omega)
  have hshort := h.short hless
  rw [hheld] at hshort
  have hrest : ∀ j < 2, n + 1 ≤ j → ptr (assign m' i n p 1 p) i j ≤ 0 := by
    intro j hj hle
    rw [hptr j (by omega) (by omega)]
    exact h.rest j hj (by omega)
  refine ⟨?_, fun j hj => ?_, ⟨?_, ?_⟩, ?_, fun hn3 => ⟨hind.trans hzero, ?_⟩, ?_, fun h3 =>
    absurd h3 (by omega)⟩
  · rw [hheld']
    have hholds := h.held
    rw [hheld] at hholds
    refine hholds.add h2 hp hclear hbits (by omega) hold hnew hind
      (fun hge => absurd hge (by omega)) fun hnext _ => ?_
    have hlast : n + 1 < 2 := hnext.resolve_right fun hne => hne hzero
    rw [pnum_ptr _ i hlast]
    exact hrest _ hlast (Nat.le_refl _)
  · rw [hold j (by omega), h.kept j hj]
  · rw [hbits 0 (by decide), h.reserved.1, ite_self]
  · rw [hbits 1 (by decide), h.reserved.2, ite_self]
  · rw [hheld']
    exact hrest
  · have habsent' := habsent
    rw [hstate] at habsent'
    have hfirst := firstClear_lowest hp hclear hlow
    rw [hstate] at hfirst
    rw [directFilled_take habsent' hfirst, ← hstate]
  · right
    rw [hheld']
    omega

omit hlow in
theorem Refilled.takeIndirect (hk : k ≤ 2) (hless : ownedBytes m' (getInode i) < size) (hn : n = 2)
    (hblank : ∀ e < 1024, e + 1 < pagesFor size → pageEntry m' p e ≤ 0) :
    Refilled m i k size (n + 1) (assign m' i n p 1 p) := by
  subst hn
  have h2 := h.free_page hclear
  have hpage : 3 ≤ 2 → 2 ≤ ptr m' i 2 ∧ ptr m' i 2 < 256 := fun h3 => absurd h3 (by decide)
  have hheld : heldAfter k 2 = 2 := by
    unfold heldAfter
    rw [if_pos (by decide)]
    omega
  have hbits : ∀ x < 256, bit (assign m' i 2 p 1 p) getPagesBitmap x =
      if x = p then true else bit m' getPagesBitmap x :=
      fun x hx => assign_pageBit (v := 1) (w := p) hpage hx
  have hold : ∀ j < 2, inodeGetPnum (assign m' i 2 p 1 p) (getInode i) j =
      inodeGetPnum m' (getInode i) j := by
    intro j hj
    have hne : ¬(i = i ∧ j = 2) := by omega
    rw [pnum_ptr _ i hj, pnum_ptr _ i hj,
      assign_ptr hi (by decide) hp hp hpage hi (by omega), if_neg hne]
  have hind : ptr (assign m' i 2 p 1 p) i 2 = p := by
    rw [assign_ptr hi (by decide) hp hp hpage hi (by decide), if_pos ⟨rfl, rfl⟩]
  have hentry : ∀ e < 1024, pageEntry (assign m' i 2 p 1 p) p e = pageEntry m' p e := by
    intro e he
    rw [assign_entry hi (by decide) hp hp h2 he, if_neg fun hc => absurd hc.1 (by decide)]
  have hshort := h.short hless
  rw [hheld] at hshort
  have hfor := pagesFor_gt hshort
  refine ⟨?_, fun j hj => ?_, ⟨?_, ?_⟩, fun j hj hle => ?_, fun h3 => absurd h3 (by decide),
    Or.inr ?_, fun _ => ?_⟩
  · have hholds := h.held
    rw [hheld] at hholds
    have hsame : heldAfter k (2 + 1) = 2 := rfl
    rw [hsame]
    refine hholds.addIndirect h2 hp hclear hbits hold hind fun _ => ?_
    rw [pnum_page _ i 0, hind, hentry 0 (by decide)]
    exact hblank 0 (by decide) (by omega)
  · rw [hold j (by omega), h.kept j hj]
  · rw [hbits 0 (by decide), h.reserved.1, ite_self]
  · rw [hbits 1 (by decide), h.reserved.2, ite_self]
  · have hsame : heldAfter k (2 + 1) = 2 := rfl
    rw [hsame] at hle
    omega
  · have hsame : heldAfter k (2 + 1) = 2 := rfl
    rw [hsame]
    omega
  · refine ⟨by omega, ?_⟩
    rw [hind]
    refine ⟨by omega, by omega, fun e he _ hlt => ?_⟩
    rw [hentry e he]
    exact hblank e he hlt

omit hlow in
theorem Refilled.takeEntry (hk : k ≤ 2) (hless : ownedBytes m' (getInode i) < size) (hn : 3 ≤ n)
    (hlt : n < 1027) : Refilled m i k size (n + 1) (assign m' i n p 1 p) := by
  have h2 := h.free_page hclear
  obtain ⟨hbig, hlo, hhi, hblank⟩ := h.blank hn
  have hpage : 3 ≤ n → 2 ≤ ptr m' i 2 ∧ ptr m' i 2 < 256 := fun _ => ⟨hlo, hhi⟩
  obtain ⟨q, hq⟩ : ∃ q : Nat, ptr m' i 2 = q :=
    ⟨(ptr m' i 2).toNat, (Int.toNat_of_nonneg (by omega)).symm⟩
  have hq2 : 2 ≤ q := by omega
  obtain ⟨e, rfl⟩ : ∃ e, n = e + 3 := ⟨n - 3, by omega⟩
  have hheld : heldAfter k (e + 3) = e + 2 := by
    unfold heldAfter
    rw [if_neg (by omega)]
    rfl
  have hheld' : heldAfter k (e + 3 + 1) = e + 3 := by
    unfold heldAfter
    rw [if_neg (by omega)]
    rfl
  have hbits : ∀ x < 256, bit (assign m' i (e + 3) p 1 p) getPagesBitmap x =
      if x = p then true else bit m' getPagesBitmap x :=
      fun x hx => assign_pageBit (v := 1) (w := p) hpage hx
  have hptr : ∀ j < 3, ptr (assign m' i (e + 3) p 1 p) i j = ptr m' i j := by
    intro j hj
    have hne : ¬(i = i ∧ j = e + 3) := by omega
    rw [assign_ptr hi hlt hp hp hpage hi hj, if_neg hne]
  have hind := hptr 2 (by decide)
  have hentry : ∀ x < 1024, inodeGetPnum (assign m' i (e + 3) p 1 p) (getInode i) (x + 2) =
      if x = e then (p : Int) else inodeGetPnum m' (getInode i) (x + 2) := by
    intro x hx
    rw [pnum_page, pnum_page, hind, hq, assign_entry hi hlt hp hp hq2 hx]
    by_cases hxe : x = e
    · rw [if_pos ⟨hn, hq, hxe⟩, if_pos hxe]
    · rw [if_neg fun hc => hxe hc.2.2, if_neg hxe]
  have hold : ∀ j < e + 2, inodeGetPnum (assign m' i (e + 3) p 1 p) (getInode i) j =
      inodeGetPnum m' (getInode i) j := by
    intro j hj
    by_cases h2j : j < 2
    · rw [pnum_ptr _ i h2j, pnum_ptr _ i h2j, hptr j (by omega)]
    · obtain ⟨x, rfl⟩ : ∃ x, j = x + 2 := ⟨j - 2, by omega⟩
      rw [hentry x (by omega), if_neg (by omega)]
  have hnew : inodeGetPnum (assign m' i (e + 3) p 1 p) (getInode i) (e + 2) = p := by
    rw [hentry e (by omega), if_pos rfl]
  have hshort := h.short hless
  rw [hheld] at hshort
  have hfor := pagesFor_gt hshort
  have hne : ptr m' i 2 ≠ 0 := fun hzero => by
    rw [hzero] at hlo
    exact absurd hlo (by decide)
  refine ⟨?_, fun j hj => ?_, ⟨?_, ?_⟩, fun j hj hle => ?_, fun h3 => absurd h3 (by omega),
    Or.inr ?_, fun _ => ?_⟩
  · rw [hheld']
    have hholds := h.held
    rw [hheld] at hholds
    refine hholds.add h2 hp hclear hbits (by omega) hold hnew hind (fun _ => hne) fun _ hmore => ?_
    rw [hentry (e + 1) (by omega), if_neg (by omega), pnum_page]
    exact hblank (e + 1) (by omega) (by omega) (by omega)
  · rw [hold j (by omega), h.kept j hj]
  · rw [hbits 0 (by decide), h.reserved.1, ite_self]
  · rw [hbits 1 (by decide), h.reserved.2, ite_self]
  · rw [hheld'] at hle
    omega
  · rw [hheld']
    omega
  · refine ⟨hbig, ?_⟩
    rw [hind]
    refine ⟨hlo, hhi, fun x hx hle hmore => ?_⟩
    have hsame := hentry x hx
    rw [pnum_page, pnum_page, if_neg (by omega), hind] at hsame
    rw [hsame]
    exact hblank x hx (by omega) hmore

end

theorem growInv_refilled {m : Image} {i k : Nat} {size : Int} (hi : i < 256) (hk : k ≤ 2)
    (hblank : 8192 < size →
      ∀ q < 256, firstClear (directFilled m i 2) getPagesBitmap PAGE_COUNT = some q →
      ∀ e < 1024, e + 1 < pagesFor size → pageEntry (directFilled m i 2) q e ≤ 0) :
    GrowInv i size (Refilled m i k size) where
  pass _ _ hn h _ hdirect hindirect := h.pass hn hdirect hindirect
  take n m' p hn h hless hdirect hindirect hp hclear hlow := by
    rcases Nat.lt_trichotomy n 2 with h2 | h2 | h3
    · exact h.takeDirect hi hp hclear hlow hless h2 (hdirect h2)
    · apply h.takeIndirect hi hp hclear hk hless h2
      subst h2
      obtain ⟨-, hstate⟩ := h.start (by decide)
      have hshort := h.short hless
      have hheld : heldAfter k 2 = 2 := by
        unfold heldAfter
        rw [if_pos (by decide)]
        omega
      have hfirst := firstClear_lowest hp hclear hlow
      rw [hheld] at hshort
      rw [hstate] at hfirst ⊢
      exact hblank (by omega) p hp hfirst
    · exact h.takeEntry hi hp hclear hk hless h3 hn
  page _ _ h3 h := ⟨(h.blank h3).2.1, (h.blank h3).2.2.1⟩

/-! ## Calls -/

/-- The state of an inode that only growing has changed. -/
structure GrownTo (m : Image) (i k : Nat) : Prop where
  holds : HoldsPages m i k
  reserved : bit m getPagesBitmap 0 = true ∧ bit m getPagesBitmap 1 = true
  direct : k ≤ 2 → ptr m i 2 = 0
  rest : ∀ j < 2, k ≤ j → ptr m i j ≤ 0

theorem GrownTo.fresh {m : Image} {i : Nat} (hptr : ∀ j < 3, ptr m i j = 0)
    (hres : bit m getPagesBitmap 0 = true ∧ bit m getPagesBitmap 1 = true) : GrownTo m i 0 := by
  have hzero := hptr 2 (by decide)
  refine ⟨⟨Nat.zero_le _, fun j hj => absurd hj (Nat.not_lt_zero j), fun j hj =>
    absurd hj (Nat.not_lt_zero j), fun j hj => absurd hj (Nat.not_lt_zero j), fun _ _ =>
      ?_, fun hne => absurd hzero hne,
    fun h => absurd h (by decide)⟩, hres, fun _ => hzero, fun j hj _ =>
      Int.le_of_eq (hptr j (by omega))⟩
  rw [pnum_ptr m i (by decide), hptr 0 (by decide)]

theorem GrownTo.refilled {m : Image} {i k : Nat} (h : GrownTo m i k) (hk : k ≤ 2) (size : Int) :
    Refilled m i k size 0 m := by
  have hheld : heldAfter k 0 = k := by
    unfold heldAfter
    rw [if_pos (by decide)]
    omega
  refine ⟨?_, fun _ _ => rfl, h.reserved, ?_, fun _ => ⟨h.direct hk, rfl⟩,
    Or.inl (Nat.le_of_eq hheld), fun h3 => absurd h3 (by decide)⟩
  · rw [hheld]
    exact h.holds
  · rw [hheld]
    exact h.rest

theorem Refilled.two {m m' : Image} {i k n : Nat} {size : Int} (h : Refilled m i k size n m')
    (hn : n < 3) (htwo : heldAfter k n = 2) : Refilled m i k size 2 m' := by
  have hpos : ∀ j < 2, 0 < ptr m' i j := by
    intro j hj
    have hrange := (h.held.range j (by omega)).1
    rw [pnum_ptr m' i hj] at hrange
    exact Int.lt_of_lt_of_le (by decide) hrange
  rcases Nat.lt_trichotomy n 1 with h0 | h1 | h2
  · obtain rfl : n = 0 := by omega
    have hnext := h.pass (by decide) (fun _ => hpos 0 (by decide)) (fun hc => absurd hc (by decide))
    exact hnext.pass (by decide) (fun _ => hpos 1 (by decide)) (fun hc => absurd hc (by decide))
  · subst h1
    exact h.pass (by decide) (fun _ => hpos 1 (by decide)) (fun hc => absurd hc (by decide))
  · obtain rfl : n = 2 := by omega
    exact h

theorem Refilled.enough {m m' : Image} {i k n : Nat} {size : Int} (h : Refilled m i k size n m')
    (hk : k ≤ 2) (hsize : size ≤ ownedBytes m' (getInode i))
    (hcount : 8192 < size → ownedBytes (directFilled m i 2) (getInode i) < size) :
    heldAfter k n = max k (pagesFor size) ∧ (n < 3 ∨ 3 ≤ max k (pagesFor size)) := by
  have hexact : size ≤ 4096 * (heldAfter k n : Int) := by
    by_cases hn : n < 3
    · by_cases hfew : heldAfter k n < 2
      · have howned := h.held.owned_eq (Or.inl hfew)
        unfold ownedBytes at hsize
        omega
      · have htwo : heldAfter k n = 2 := by
          unfold heldAfter at hfew ⊢
          rw [if_pos hn] at hfew ⊢
          omega
        by_cases hbig : 8192 < size
        · have hless := hcount hbig
          rw [← ((h.two hn htwo).start (by decide)).2] at hless
          omega
        · omega
    · have hpage := (h.blank (by omega)).2.1
      have howned := h.held.owned_eq (Or.inr (by omega))
      unfold ownedBytes at hsize
      omega
  have hge : k ≤ heldAfter k n := by
    unfold heldAfter
    by_cases hn : n < 3
    · rw [if_pos hn]
      omega
    · rw [if_neg hn]
      omega
  have hneeded := h.needed
  have hfor : heldAfter k n = max k (pagesFor size) := by
    unfold pagesFor
    omega
  refine ⟨hfor, ?_⟩
  by_cases hn : n < 3
  · exact Or.inl hn
  · right
    have hbig := (h.blank (by omega)).1
    have hgt : 2 < pagesFor size := pagesFor_gt (by omega)
    omega

theorem growInode_most {junk : Int} {m : Image} {node size : Int}
    (hok : (growInode junk m node size).2 = 0) : size ≤ 1026 * 4096 := by
  by_contra hbig
  unfold growInode at hok
  rw [if_pos (Int.not_le.mp hbig)] at hok
  have hneg : ¬ (-1 : Int) = 0 := by decide
  exact hneg hok

/-- A call that returns 0 leaves a state after places have been dealt with. -/
theorem GrownTo.returned {m : Image} {i k : Nat} {size : Int} (h : GrownTo m i k) (hi : i < 256)
    (hk : k ≤ 2) (hwhole : 8192 < size → ownedBytes (directFilled m i 2) (getInode i) < size ∧
      ∀ q < 256, firstClear (directFilled m i 2) getPagesBitmap PAGE_COUNT = some q →
        ∀ e < 1024, e + 1 < pagesFor size → pageEntry (directFilled m i 2) q e ≤ 0)
    {junk : Int} (hok : (growInode junk m (getInode i) size).2 = 0) :
    ∃ n, Refilled m i k size n (growInode junk m (getInode i) size).1 ∧
      size ≤ ownedBytes (growInode junk m (getInode i) size).1 (getInode i) := by
  have hmost := growInode_most hok
  rcases (growInv_refilled hi hk fun hbig => (hwhole hbig).2).growInode hi junk
    (h.refilled hk size) hmost with
    (⟨-, n, -, hdone, hsize⟩ | ⟨hr, -⟩) | ⟨-, hdone, hless⟩
  · exact ⟨n, hdone, hsize⟩
  · rw [hok] at hr
    exact absurd hr (by decide)
  · -- all places are filled, and still too few
    have hshort := hdone.short hless
    have hall : heldAfter k 1027 = 1026 := rfl
    rw [hall] at hshort
    omega

theorem GrownTo.grow {m : Image} {i k : Nat} {size : Int} (h : GrownTo m i k) (hi : i < 256)
    {junk : Int}
    (hok : (growInode junk m (getInode i) size).2 = 0) (hwhole : GrowsWhole m i k size) :
    GrowKeeps junk m i k size ∧
    GrownTo (growInode junk m (getInode i) size).1 i (max k (pagesFor size)) := by
  rcases hwhole with hfits | ⟨hk, hwhole⟩
  · have hcount := h.holds.owned_ge
    have hsize : size ≤ ownedBytes m (getInode i) := by
      unfold ownedBytes
      omega
    have hsame := fst_of_eq (growInode_enough junk (growInode_most hok) hsize)
    have hfor : max k (pagesFor size) = k := by
      unfold pagesFor
      omega
    rw [hsame, hfor]
    refine ⟨⟨fun j _ => by rw [hsame], ?_⟩, h⟩
    rw [hsame, hfor]
    exact h.holds
  · obtain ⟨n, hdone, hsize⟩ := h.returned hi hk hwhole hok
    obtain ⟨hheld, hlast⟩ := hdone.enough hk hsize fun hbig => (hwhole hbig).1
    have hholds := hdone.held
    have hrest := hdone.rest
    rw [hheld] at hholds hrest
    exact ⟨⟨hdone.kept, hholds⟩, hholds, hdone.reserved, fun hfew =>
      (hdone.start (by omega)).1, hrest⟩

/-- Calls with a size and what an `int` holds that nobody has set. -/
def growAll (i : Nat) (m : Image) (calls : List (Int × Int)) : Image :=
  calls.foldl (fun m call => (growInode call.2 m (getInode i) call.1).1) m

/-- Every call returns 0. -/
def GrowsOk (i : Nat) : Image → List (Int × Int) → Prop
  | _, [] => True
  | m, call :: calls => (growInode call.2 m (getInode i) call.1).2 = 0 ∧
    GrowsOk i (growInode call.2 m (getInode i) call.1).1 calls

/-- Every call meets the condition. -/
def GrowsWholeAlong (i : Nat) : Image → List (Int × Int) → Prop
  | _, [] => True
  | m, call :: calls => GrowsWhole m i (heldPages m i) call.1 ∧
    GrowsWholeAlong i (growInode call.2 m (getInode i) call.1).1 calls

theorem GrownTo.run {i : Nat} (hi : i < 256) (calls : List (Int × Int)) {m : Image} {k : Nat}
    (h : GrownTo m i k)
    (hok : GrowsOk i m calls) (hwhole : GrowsWholeAlong i m calls) :
    ∃ k', GrownTo (growAll i m calls) i k' := by
  induction calls generalizing m k with
  | nil => exact ⟨k, h⟩
  | cons call calls ih =>
    have hfirst := hwhole.1
    rw [h.holds.held] at hfirst
    exact ih (h.grow hi hok.1 hfirst).2 hok.2 hwhole.2

theorem run_grow_keeps {m : Image} {i : Nat} (hi : i < 256) (hfresh : ∀ j < 3, ptr m i j = 0)
    (hres : bit m getPagesBitmap 0 = true ∧ bit m getPagesBitmap 1 = true)
    (calls : List (Int × Int))
    (hok : GrowsOk i m calls) (hwhole : GrowsWholeAlong i m calls) {size junk : Int}
    (hlast : (growInode junk (growAll i m calls) (getInode i) size).2 = 0)
    (hsize : GrowsWhole (growAll i m calls) i (heldPages (growAll i m calls) i) size) :
    GrowKeeps junk (growAll i m calls) i (heldPages (growAll i m calls) i) size := by
  obtain ⟨k, h⟩ := (GrownTo.fresh hfresh hres).run hi calls hok hwhole
  rw [h.holds.held] at hsize ⊢
  exact (h.grow hi hlast hsize).1

/-- From two pages to five. -/
theorem file_keeps_pages : GrowKeeps 0 (growAll 1 namelessFile [(5000, 0)]) 1
    (heldPages (growAll 1 namelessFile [(5000, 0)]) 1) 20000 := by
  refine run_grow_keeps (by decide) (by decide +kernel) (by decide +kernel) [(5000, 0)]
    ⟨by decide +kernel, trivial⟩
    ⟨Or.inr ⟨by decide +kernel, fun hbig => absurd hbig (by decide)⟩, trivial⟩
    (by decide +kernel)
    (Or.inr ⟨by decide +kernel, fun _ => ⟨by decide +kernel, fun q _ hq e _ he => ?_⟩⟩)
  have hfirst :
      firstClear (directFilled (growAll 1 namelessFile [(5000, 0)]) 1 2) getPagesBitmap PAGE_COUNT =
      some 5 := by decide +kernel
  obtain rfl : 5 = q := Option.some.inj (hfirst.symm.trans hq)
  have hall :
      ∀ e < 4, pageEntry (directFilled (growAll 1 namelessFile [(5000, 0)]) 1 2) 5 e ≤ 0 := by
    decide +kernel
  have hfor : pagesFor 20000 = 5 := by decide
  exact hall e (by omega)

/-- The third page is lost when a file of five pages grows to six. -/
theorem third_page_replaced : ¬ ∀ (m : Image) (i : Nat), i < 256 → (∀ j < 3, ptr m i j = 0) →
    bit m getPagesBitmap 0 = true ∧ bit m getPagesBitmap 1 = true → ∀ calls : List (Int × Int),
      GrowsOk i m calls → ∀ size junk : Int, size ≤ 1026 * 4096 →
        (growInode junk (growAll i m calls) (getInode i) size).2 = 0 →
          GrowKeeps junk (growAll i m calls) i (heldPages (growAll i m calls) i) size := by
  intro h
  have hkeeps := h namelessFile 1 (by decide) (by decide +kernel) (by decide +kernel) [(20000, 0)]
    ⟨by decide +kernel, trivial⟩ 24000 0 (by decide) (by decide +kernel)
  have hheld : heldPages (growAll 1 namelessFile [(20000, 0)]) 1 = 5 := by decide +kernel
  rw [hheld] at hkeeps
  have hthird := hkeeps.kept 2 (by decide)
  have hdiff :
      inodeGetPnum (growInode 0 (growAll 1 namelessFile [(20000, 0)]) (getInode 1) 24000).1
      (getInode 1) 2 ≠
      inodeGetPnum (growAll 1 namelessFile [(20000, 0)]) (getInode 1) 2 := by decide +kernel
  exact hdiff hthird

end Cs3650.Nufs
