import Cs3650.Nufs.Storage

/-!
# Counting the pages of an inode (hw10/starter-fshw/inode.c)

`inode_get_pnum` goes through `iptr` whether or not there is an indirect page.
Without one the entries are read from page 0, where the page bitmap lies: the
count stops there only when the first word of the bitmap is negative.
-/

namespace Cs3650.Nufs

open Cs3650.Lib

def dptrPage (m : Image) (node : Int) (j : Nat) : Int := int32 m (node + Inode.dptrs + 4 * j)

def iptrPage (m : Image) (node : Int) : Int := int32 m (node + Inode.iptr)

def iptrEntry (m : Image) (node : Int) (j : Nat) : Int :=
  int32 m (pagesGetPage (iptrPage m node) + 4 * j)

/-- The data pages `0` to `k - 1` are recorded and no other, past two of them in
an indirect page. -/
structure Records (m : Image) (node : Int) (k : Nat) : Prop where
  le : k ≤ 1026
  direct : ∀ j < 2, if j < k then 0 < dptrPage m node j else dptrPage m node j = 0
  entries : 2 < k → ∀ j < 1024, if j + 2 < k then 0 < iptrEntry m node j else iptrEntry m node j = 0
  indirect : iptrPage m node ≠ 0 ↔ 2 < k

theorem inodeGetPnum_entry (m : Image) (node : Int) (j : Nat) :
    inodeGetPnum m node (j + 2) = iptrEntry m node j := by
  have hj : ((j + 2 : Nat) : Int) - 2 = j := by omega
  rw [inodeGetPnum, if_neg (by omega), hj]
  rfl

theorem inodeGetPnum_direct (m : Image) (node : Int) {j : Nat} (hj : j < 2) :
    inodeGetPnum m node j = dptrPage m node j := if_pos hj

theorem int32_bytes (m : Image) (a : Int) :
    int32 m a = (((m a).toNat + 256 * ((m (a + 1)).toNat +
      256 * ((m (a + 2)).toNat + 256 * (m (a + 3)).toNat)) : Nat) : Int).bmod (2 ^ 32) := by
  have h2 : a + 1 + 1 = a + 2 := by omega
  have h3 : a + 2 + 1 = a + 3 := by omega
  have hload : load m a 4 = (m a).toNat + 256 * ((m (a + 1)).toNat +
      256 * ((m (a + 2)).toNat + 256 * (m (a + 3)).toNat)) := by
    rw [load, load, load, load, load, h2, h3, Nat.mul_zero, Nat.add_zero]
  unfold int32
  rw [hload]

theorem odd_of_bit (b : Byte) (h0 : b.getLsbD 0 = true) : b.toNat % 2 = 1 := by
  simpa [BitVec.getLsbD, Nat.testBit_zero] using h0

theorem getLsbD_seven (b : Byte) : b.getLsbD 7 = decide (128 ≤ b.toNat) := by
  have h := BitVec.msb_eq_getLsbD_last b
  have h2 := BitVec.msb_eq_decide b
  rw [h2] at h
  exact h.symm

/-- A word whose lowest bit is set is positive when its highest is not. -/
theorem word_pos_iff {m : Image} {a : Int} (h0 : (m a).getLsbD 0 = true) :
    0 < int32 m a ↔ (m (a + 3)).getLsbD 7 = false := by
  have h1 := (m a).isLt
  have h2 := (m (a + 1)).isLt
  have h3 := (m (a + 2)).isLt
  have h4 := (m (a + 3)).isLt
  have hlow := odd_of_bit _ h0
  rw [int32_bytes, getLsbD_seven, decide_eq_false_iff_not]
  generalize (m a).toNat = b0 at *
  generalize (m (a + 1)).toNat = b1 at *
  generalize (m (a + 2)).toNat = b2 at *
  generalize (m (a + 3)).toNat = b3 at *
  rw [Int.bmod_def]
  split
  · omega
  · omega

namespace Records

variable {m : Image} {node : Int} {k : Nat}

theorem pos (h : Records m node k) : ∀ j < k, 0 < inodeGetPnum m node j := by
  intro j hj
  rcases Nat.lt_or_ge j 2 with h2 | h2
  · rw [inodeGetPnum_direct m node h2]
    have := h.direct j h2
    rwa [if_pos hj] at this
  · obtain ⟨i, rfl⟩ := Nat.exists_eq_add_of_le' h2
    have hle := h.le
    have := h.entries (by omega) i (by omega)
    rw [if_pos hj] at this
    rwa [inodeGetPnum_entry]

/-- The page after the last one, but for an inode with both direct pages and no other. -/
theorem stop (h : Records m node k) (hk : k ≠ 2) (hlt : k < 1026) : inodeGetPnum m node k ≤ 0 := by
  rcases Nat.lt_or_ge k 2 with h2 | h2
  · rw [inodeGetPnum_direct m node h2]
    have := h.direct k h2
    rw [if_neg (Nat.lt_irrefl k)] at this
    exact Int.le_of_eq this
  · obtain ⟨i, rfl⟩ := Nat.exists_eq_add_of_le' h2
    have := h.entries (by omega) i (by omega)
    rw [if_neg (Nat.lt_irrefl _)] at this
    rw [inodeGetPnum_entry]
    exact Int.le_of_eq this

/-- The third page of an inode with two is the first word of the page bitmap. -/
theorem third (h : Records m node 2) : inodeGetPnum m node 2 = int32 m 0 := by
  have hnone : iptrPage m node = 0 := by
    by_contra hne
    exact absurd (h.indirect.mp hne) (Nat.lt_irrefl 2)
  rw [inodeGetPnum_entry m node 0, iptrEntry, hnone]
  rfl

end Records

theorem pagesOwned_exact_iff {m : Image} {node : Int} {k : Nat} (h : Records m node k)
    (h0 : bit m getPagesBitmap 0 = true) :
    pagesOwned m node = k ↔ k ≠ 2 ∨ bit m getPagesBitmap 31 = true := by
  by_cases hk : k = 2
  · subst hk
    have hsign : 0 < int32 m 0 ↔ bit m getPagesBitmap 31 = false := word_pos_iff h0
    constructor
    · intro howned
      have hstop : inodeGetPnum m node (pagesOwned m node) ≤ 0 := pnum_stop (by omega)
      rw [howned, h.third] at hstop
      refine Or.inr ?_
      by_contra hclear
      rw [Bool.not_eq_true] at hclear
      exact absurd (hsign.mpr hclear) (Int.not_lt.mpr hstop)
    · intro hset
      refine pagesOwned_eq h.le h.pos fun _ => ?_
      rw [h.third]
      by_contra hpos
      rw [hsign.mp (by omega)] at hset
      exact absurd hset (by simp)
  · exact ⟨fun _ => Or.inl hk, fun _ => pagesOwned_eq h.le h.pos (h.stop hk)⟩

/-! ### The root directory, and an inode with an indirect page -/

theorem root_records : Records (storageInit fun _ => 0) (getInode 0) 1 where
  le := by decide
  direct := by decide +kernel
  entries h := absurd h (by decide)
  indirect := by decide +kernel

/-- An inode with an indirect page, in a memory that is empty but for page 0. -/
def threePages : Image :=
  let node := getInode 0
  let m := setInt32 (setInt32 (fun _ => 0) 0 1) (node + Inode.iptr) 4
  setInt32 (setInt32 (setInt32 m (node + Inode.dptrs) 2) (node + Inode.dptrs + 4) 3)
    (pagesGetPage 4) 5

theorem threePages_entry (j : Nat) : iptrEntry threePages (getInode 0) (j + 1) = 0 := by
  have hind : iptrPage threePages (getInode 0) = 4 := by decide +kernel
  rw [iptrEntry, hind, threePages, show getInode 0 = 64 from rfl]
  simp only [pagesGetPage, Inode.iptr, Inode.dptrs]
  rw [int32_setInt32_ne _ (.inr (by omega)), int32_setInt32_ne _ (.inr (by omega)),
    int32_setInt32_ne _ (.inr (by omega)), int32_setInt32_ne _ (.inr (by omega)),
    int32_setInt32_ne _ (.inr (by omega))]
  exact int32_zero fun _ _ => rfl

theorem threePages_records : Records threePages (getInode 0) 3 where
  le := by decide
  direct := by decide +kernel
  entries _ j _ := by
    cases j with
    | zero => decide +kernel
    | succ j =>
      rw [if_neg (by omega)]
      exact threePages_entry j
  indirect := by decide +kernel

theorem root_pages_exact : pagesOwned (storageInit fun _ => 0) (getInode 0) = 1 ∧
    pagesOwned threePages (getInode 0) = 3 :=
  ⟨(pagesOwned_exact_iff root_records (by decide +kernel)).mpr (Or.inl (by decide)),
    (pagesOwned_exact_iff threePages_records (by decide +kernel)).mpr (Or.inl (by decide))⟩

/-- The root directory with a second page. -/
def rootOfTwo : Image := (growInode 0 (storageInit fun _ => 0) (getInode 0) 8192).1

theorem rootOfTwo_values :
    (∀ j < 2, if j < 2 then 0 < dptrPage rootOfTwo (getInode 0) j
      else dptrPage rootOfTwo (getInode 0) j = 0) ∧
      iptrPage rootOfTwo (getInode 0) = 0 ∧ bit rootOfTwo getPagesBitmap 0 = true ∧
      bit rootOfTwo getPagesBitmap 1 = true ∧ 0 < int32 rootOfTwo 0 := by
  decide +kernel

theorem two_pages_counted_as_three :
    Records rootOfTwo (getInode 0) 2 ∧ bit rootOfTwo getPagesBitmap 0 = true ∧
      bit rootOfTwo getPagesBitmap 1 = true ∧ pagesOwned rootOfTwo (getInode 0) ≠ 2 := by
  obtain ⟨hdirect, hnone, hbit0, hbit1, hword⟩ := rootOfTwo_values
  have hrec : Records rootOfTwo (getInode 0) 2 :=
    ⟨by decide, hdirect, fun h => absurd h (by decide),
      ⟨fun h => absurd hnone h, fun h => absurd h (by decide)⟩⟩
  refine ⟨hrec, hbit0, hbit1, fun howned => ?_⟩
  have hstop : inodeGetPnum rootOfTwo (getInode 0) (pagesOwned rootOfTwo (getInode 0)) ≤ 0 :=
    pnum_stop (by omega)
  rw [howned, hrec.third] at hstop
  omega

end Cs3650.Nufs
