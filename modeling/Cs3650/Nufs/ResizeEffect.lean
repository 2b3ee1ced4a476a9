import Cs3650.Nufs.ShrinkEffect
import Cs3650.Nufs.StoreRuns

/-!
# What a change of size does

`storage_truncate` grows or shrinks the inode and then stores the size, whatever
became of the first.
-/

namespace Cs3650.Nufs

open Cs3650.Lib

def fileSize (m : Image) (i : Nat) : Int := int32 m (getInode i + Inode.size)

/-- The part of `storage_truncate` before the size is stored. -/
def resize (junk : Int) (m : Image) (i : Nat) (size : Int) : Image × Int :=
  if fileSize m i > size then shrinkInode junk m (getInode i) (toInt size)
  else if fileSize m i < size then growInode junk m (getInode i) (toInt size)
  else (m, junk)

theorem storageTruncate_at {m : Image} {path : Path} {i : Nat} (junk : Int)
    (hlook : treeLookup m path = i) (size : Int) : storageTruncate junk m path size =
      (setInt32 (resize junk m i size).1 (getInode i + Inode.size) size,
        (resize junk m i size).2) := by
  unfold storageTruncate
  extract_lets inum node stored
  have hinum : inum = i := hlook
  have hnode : node = getInode i := congrArg getInode hlook
  have hstored : stored = fileSize m i := congrArg (fun node => int32 m (node + Inode.size)) hnode
  clear_value inum node stored
  subst hinum hnode hstored
  have hnonneg : ¬ (i : Int) < 0 := Int.not_lt.mpr (Int.natCast_nonneg i)
  rw [if_neg hnonneg]
  unfold resize
  generalize (if fileSize m i > size then shrinkInode junk m (getInode i) (toInt size)
    else if fileSize m i < size then growInode junk m (getInode i) (toInt size) else (m, junk)) = r
  cases r with
  | mk m₁ rv => rfl

/-- There are enough pages, or page 0 and 1 are marked used and the page of
entries is above them. -/
def GrowSound (m : Image) (i : Nat) (size : Int) : Prop :=
  size ≤ ownedBytes m (getInode i) ∨
    (bit m getPagesBitmap 0 = true ∧ bit m getPagesBitmap 1 = true) ∧
      (8192 < size → ∀ q, indirectPage m i = some q → 2 ≤ q ∧ q < 256)

/-- The bytes above the inode table that growing writes to. -/
def growBytes (m : Image) (i : Nat) (size : Int) : Set Int :=
  {x | ownedBytes m (getInode i) < size ∧ x ∈ indirectBytes m i size}

theorem growInode_same {m : Image} {i : Nat} {size junk : Int}
    (henough : size ≤ ownedBytes m (getInode i)) : (growInode junk m (getInode i) size).1 = m := by
  have hmost : size ≤ 1026 * 4096 := by
    have hle := pagesOwned_le m (getInode i)
    unfold ownedBytes at henough
    omega
  exact fst_of_eq (growInode_enough junk hmost henough)

theorem growInode_growing {m : Image} {i : Nat} {size : Int} (hi : i < 256) (h : GrowSound m i size)
    {junk : Int} (hok : 0 ≤ (growInode junk m (getInode i) size).2) :
    Growing m i 1027 (growBytes m i size) (growInode junk m (getInode i) size).1 := by
  by_cases henough : size ≤ ownedBytes m (getInode i)
  · rw [growInode_same henough]
    exact (Growing.start m i _).mono (Nat.zero_le 1027) fun _ hx => hx
  · obtain ⟨hres, hind⟩ := h.resolve_left henough
    exact (growInode_effect hi hres hind junk hok).mono (Nat.le_refl 1027) fun x hx =>
      ⟨Int.not_le.mp henough, hx⟩

theorem growBytes_above {m : Image} {i : Nat} {size : Int} (h : GrowSound m i size) :
    ∀ x ∈ growBytes m i size, 8192 ≤ x ∧ x < NUFS_SIZE := by
  rintro x ⟨hless, hbig, q, hq, hx⟩
  rcases h with henough | ⟨-, hind⟩
  · exact absurd hless (Int.not_lt.mpr henough)
  · obtain ⟨h2, h256⟩ := hind hbig q hq
    simp only [mem_span, pagesGetPage, NUFS_SIZE] at hx ⊢
    omega

/-- What a change of size that succeeds writes to above the inode table. -/
def resizeWrites (m : Image) (i : Nat) (size : Int) : Set Int :=
  {x | size < fileSize m i ∧ ptr m i 2 ≠ 0 ∧ x ∈ span (pagesGetPage (ptr m i 2)) 4096 ∨
    fileSize m i < size ∧ x ∈ growBytes m i (toInt size)}

/-- With the bitmap and the pointers. -/
def resizeArea (m : Image) (i : Nat) (size : Int) : Set Int :=
  {x | x ∈ span 0 32 ∨ x ∈ span (getInode i + Inode.dptrs) 12 ∨ x ∈ resizeWrites m i size}

/-- The pages of an inode that loses some can be told, and so can the entries of
one that gets some. -/
structure ResizeSound (m : Image) (i : Nat) (size : Int) : Prop where
  shrink : size < fileSize m i → Shrinkable m i
  grow : fileSize m i < size → GrowSound m i (toInt size)

section

variable {m : Image} {i : Nat} {size junk : Int}

theorem ResizeSound.changed (hi : i < 256) (h : ResizeSound m i size) 
    (hok : fileSize m i ≠ size → 0 ≤ (resize junk m i size).2) :
    ChangedIn (resizeArea m i size) m (resize junk m i size).1 := by
  unfold resize at hok ⊢
  by_cases hless : fileSize m i > size
  · rw [if_pos hless] at hok ⊢
    have h0 : 0 ≤ toInt size := by
      have hret := hok (Int.ne_of_gt hless)
      by_contra hneg
      have hfails : ¬ (0 : Int) ≤ -1 := by decide
      unfold shrinkInode at hret
      rw [if_pos (Int.not_le.mp hneg)] at hret
      exact hfails hret
    have harea : ∀ k gone m', Shrunk m i k gone m' → ChangedIn (resizeArea m i size) m m' := by
      intro k gone m' hshrunk
      apply hshrunk.changed.mono
      rintro x (hx | hx | ⟨hne, hx⟩)
      · exact Or.inl hx
      · exact Or.inr (Or.inl hx)
      · exact Or.inr (Or.inr (Or.inl ⟨hless, hne, hx⟩))
    cases (shrinkInode_effect (h.shrink hless) hi junk h0).2 with
    | inside k left => exact harea k false _ left
    | whole left => exact harea _ true _ left
    | direct k left => exact harea k true _ left
    | spilled left => exact harea 1 true _ left
  · rw [if_neg hless] at hok ⊢
    by_cases hmore : fileSize m i < size
    · rw [if_pos hmore] at hok ⊢
      apply (growInode_growing hi (h.grow hmore) (hok (Int.ne_of_lt hmore))).changed.mono
      rintro x (hx | hx | hx)
      · exact Or.inl hx
      · exact Or.inr (Or.inl hx)
      · exact Or.inr (Or.inr (Or.inr ⟨hmore, hx⟩))
    · rw [if_neg hmore]
      exact ChangedIn.refl _ m

end

/-- The change of size succeeds and stays within its bounds. -/
structure Resizable (m : Image) (i : Nat) (size : Int) : Prop where
  shrink : size < fileSize m i → 0 ≤ toInt size ∧ Shrinkable m i
  grow : fileSize m i < size → GrowFits m i (toInt size)

/-- The bytes above the inode table that it writes to. -/
def resizeBytes (m : Image) (i : Nat) (size : Int) : Set Int :=
  {x | size < fileSize m i ∧ ptr m i 2 ≠ 0 ∧ x ∈ span (pagesGetPage (ptr m i 2)) 4096 ∨
    fileSize m i < size ∧ x ∈ indirectBytes m i (toInt size)}

theorem Resizable.bytes {m : Image} {i : Nat} {size : Int} (h : Resizable m i size) :
    ∀ x ∈ resizeBytes m i size, 8192 ≤ x ∧ x < NUFS_SIZE := by
  have hpage : ∀ q : Int, 2 ≤ q → q < 256 → ∀ x ∈ span (pagesGetPage q) 4096, 8192 ≤ x ∧
      x < NUFS_SIZE := by
    intro q h2 hq x hx
    simp only [mem_span, pagesGetPage, NUFS_SIZE] at hx ⊢
    omega
  rintro x (⟨hless, hne, hx⟩ | ⟨hmore, hbig, q, hq, hx⟩)
  · obtain ⟨h2, h256⟩ := (h.shrink hless).2.indirect.resolve_left hne
    exact hpage _ h2 h256 x hx
  · obtain ⟨h2, h256⟩ := (h.grow hmore).indirect hbig q hq
    exact hpage q h2 h256 x hx

section

variable {m : Image} {i : Nat} {size : Int} (hi : i < 256) (h : Resizable m i size)

include hi h

theorem Resizable.ok (junk : Int) (hne : fileSize m i ≠ size) : (resize junk m i size).2 = 0 := by
  unfold resize
  by_cases hless : fileSize m i > size
  · obtain ⟨h0, -⟩ := h.shrink hless
    rw [if_pos hless]
    exact shrinkInode_zero junk m _ h0
  · have hmore : fileSize m i < size := by omega
    rw [if_neg hless, if_pos hmore]
    exact growInode_fits hi junk (h.grow hmore)

theorem Resizable.changed (junk : Int) :
    ChangedIn {x | x ∈ span 0 32 ∨ x ∈ span (getInode i + Inode.dptrs) 12 ∨
      x ∈ resizeBytes m i size} m (resize junk m i size).1 := by
  have hsound : ResizeSound m i size :=
    ⟨fun hless => (h.shrink hless).2, fun hmore =>
      Or.inr ⟨(h.grow hmore).reserved, (h.grow hmore).indirect⟩⟩
  apply (hsound.changed hi fun hne => Int.le_of_eq (h.ok hi junk hne).symm).mono
  rintro x (hx | hx | hx | ⟨hmore, -, hx⟩)
  · exact Or.inl hx
  · exact Or.inr (Or.inl hx)
  · exact Or.inr (Or.inr (Or.inl hx))
  · exact Or.inr (Or.inr (Or.inr ⟨hmore, hx⟩))

end

theorem storageTruncate_missing {m : Image} {path : Path} (junk : Int)
    (hlook : treeLookup m path < 0)
    (size : Int) : storageTruncate junk m path size = (m, treeLookup m path) := by
  unfold storageTruncate
  extract_lets inum
  exact if_pos hlook

theorem storageTruncate_same {m : Image} {path : Path} {i : Nat} (junk : Int)
    (hlook : treeLookup m path = i)
    {size : Int} (hsize : fileSize m i = size) : storageTruncate junk m path size = (m, junk) := by
  have hself : setInt32 m (getInode i + Inode.size) size = m := by
    rw [← hsize]
    exact setInt32_self m _
  have hnone : resize junk m i size = (m, junk) := by
    unfold resize
    rw [hsize, if_neg (Int.lt_irrefl size), if_neg (Int.lt_irrefl size)]
  rw [storageTruncate_at junk hlook, hnone, hself]

/-- The two calls before the bytes are copied may fail. -/
theorem storageWrite_cases (junk : Int) (m : Image) (path : Path) (buf : Str) (offset : Int)
    {m₁ : Image} {rv : Int}
    (htruncate : storageTruncate junk m path (toOff (offset + buf.length)) = (m₁, rv)) :
    (rv < 0 ∧ storageWrite junk m path buf offset = (m₁, rv)) ∨
    (0 ≤ rv ∧ treeLookup m₁ path < 0 ∧
      storageWrite junk m path buf offset = (m₁, treeLookup m₁ path)) ∨
    (0 ≤ rv ∧ 0 ≤ treeLookup m₁ path ∧ storageWrite junk m path buf offset =
      (patch m₁ (pagesGetPage (treeLookup m₁ path) + offset) buf.length fun i => buf.getD i nul,
        toInt buf.length)) := by
  unfold storageWrite
  rw [htruncate]
  dsimp only
  by_cases hrv : rv < 0
  · rw [if_pos hrv]
    exact Or.inl ⟨hrv, rfl⟩
  · right
    rw [if_neg hrv]
    by_cases hlook : treeLookup m₁ path < 0
    · rw [if_pos hlook]
      exact Or.inl ⟨Int.not_lt.mp hrv, hlook, rfl⟩
    · rw [if_neg hlook]
      exact Or.inr ⟨Int.not_lt.mp hrv, Int.not_lt.mp hlook, rfl⟩

/-- No directory's page is written to. -/
def KeepsDirs (m : Image) (i : Nat) (size : Int) : Prop :=
  ∀ d : Nat, SoundDir m d → ∀ x ∈ span (pagesGetPage (ptr m d 0)) 4096, x ∉ resizeBytes m i size

theorem Resizable.lookup {m : Image} {path : Path} {i : Nat} {size : Int} (hi : i < 256)
    (h : Resizable m i size) (hlook : treeLookup m path = i) (hpath : ApartPath m i path)
    (hkeeps : KeepsDirs m i size) (junk : Int) :
    treeLookup (setInt32 (resize junk m i size).1 (getInode i + Inode.size) size) path = i := by
  have hchanged :
      ChangedIn {x | x ∈ span 0 32 ∨ x ∈ span (getInode i) 24 ∨ x ∈ resizeBytes m i size} m
      (setInt32 (resize junk m i size).1 (getInode i + Inode.size) size) := by
    refine ((h.changed hi junk).mono ?_).trans ((changedIn_setInt32 _ _ _).mono ?_)
    · rintro x (hx | hx | hx)
      · exact Or.inl hx
      · right; left
        simp only [mem_span, Inode.dptrs] at hx ⊢
        omega
      · exact Or.inr (Or.inr hx)
    · intro x hx
      right; left
      simp only [mem_span, Inode.size] at hx ⊢
      omega
  generalize setInt32 (resize junk m i size).1 (getInode i + Inode.size) size = m' at hchanged
  rw [← hlook]
  refine hpath.lookup_same (hlook ▸ Int.natCast_nonneg i) fun d p hsound hne h2 hp =>
    ⟨?_, fun x hx => ?_⟩
  · have hd := hsound.1.1.2.1
    apply ptr_changed hchanged (by decide)
    rintro x hx (hx' | hx' | hx')
    · simp only [mem_span, getInode_eq] at hx hx'
      omega
    · simp only [mem_span, getInode_eq] at hx hx'
      omega
    · have := h.bytes x hx'
      simp only [mem_span, getInode_eq] at hx
      omega
  · apply hchanged
    rintro (hx' | hx' | hx')
    · simp only [mem_span, pagesGetPage] at hx hx'
      omega
    · simp only [mem_span, getInode_eq, pagesGetPage] at hx hx'
      omega
    · exact hkeeps d hsound x (hp ▸ hx) hx'

end Cs3650.Nufs
