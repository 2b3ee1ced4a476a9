import Cs3650.Nufs.ResizeEffect

/-!
# What a write changes

`storage_write` sets the size first, by `storage_truncate`, and then copies to
the page that has the number of the inode, whatever page the inode was given.
-/

namespace Cs3650.Nufs

open Cs3650.Lib

/-- What `storage_truncate` writes to when the change of size writes to `F`
beside the bitmap and the pointers. -/
def truncateArea (m : Image) (i : Nat) (size : Int) (F : Set Int) : Set Int :=
  {x | fileSize m i ≠ size ∧ (x ∈ span 0 32 ∨ x ∈ span (getInode i + Inode.size) 16) ∨ x ∈ F}

/-- The size after a write. -/
def writtenSize (buf : Str) (offset : Int) : Int := toOff (offset + buf.length)

/-- Where a write copies to. -/
def copyBytes (i : Nat) (buf : Str) (offset : Int) : Set Int :=
  span (pagesGetPage i + offset) buf.length

/-- The directories on the way are sound and off these bytes. -/
def PathOff (m : Image) (path : Path) (W : Set Int) : Prop :=
  WalkWith m (fun cur _ => SoundDir m cur ∧ (∀ x ∈ span (getInode cur + Inode.dptrs) 4, x ∉ W) ∧
    ∀ x ∈ span (pagesGetPage (ptr m cur.toNat 0)) 4096, x ∉ W) 0 (sSplit path.text slash)

section

variable {m m' : Image} {path : Path} {i : Nat} {size junk : Int}

theorem PathOff.mono {W W' : Set Int} (h : PathOff m path W') (hsub : ∀ x ∈ W, x ∈ W') :
    PathOff m path W :=
  WalkWith.imp h fun _ _ ⟨hsound, hptr, hpage⟩ =>
    ⟨hsound, fun x hx hw => hptr x hx (hsub x hw), fun x hx hw => hpage x hx (hsub x hw)⟩

theorem PathOff.lookup_same {W : Set Int} (h : PathOff m path W) (hend : 0 ≤ treeLookup m path)
    (hchanged : ChangedIn W m m') : treeLookup m' path = treeLookup m path := by
  refine WalkWith.lookup_same h hend path.component_noNul fun cur base hok hnul _ => ?_
  obtain ⟨hsound, hptr, hpage⟩ := hok
  apply hsound.lookup_page _ (fun x hx => hchanged x (hpage x hx)) hnul
  obtain ⟨d, p, rfl, -, -, -, -, -⟩ := hsound.1.nat
  rw [Int.toNat_natCast]
  apply hchanged.int32
  intro x hx
  apply hptr
  simp only [mem_span] at hx ⊢
  omega

theorem storageTruncate_changed {F : Set Int} (hlook : treeLookup m path = i)
    (hresize : ChangedIn {x | x ∈ span 0 32 ∨ x ∈ span (getInode i + Inode.dptrs) 12 ∨ x ∈ F} m
      (resize junk m i size).1) :
    ChangedIn (truncateArea m i size F) m (storageTruncate junk m path size).1 := by
  by_cases hsize : fileSize m i = size
  · rw [fst_of_eq (storageTruncate_same junk hlook hsize)]
    exact ChangedIn.refl _ m
  · rw [fst_of_eq (storageTruncate_at junk hlook size)]
    refine (hresize.mono ?_).trans ((changedIn_setInt32 _ _ _).mono ?_)
    · rintro x (hx | hx | hx)
      · exact Or.inl ⟨hsize, Or.inl hx⟩
      · left
        refine ⟨hsize, Or.inr ?_⟩
        simp only [mem_span, Inode.dptrs, Inode.size] at hx ⊢
        omega
      · exact Or.inr hx
    · intro x hx
      left
      refine ⟨hsize, Or.inr ?_⟩
      simp only [mem_span] at hx ⊢
      omega

theorem storageTruncate_ok (hlook : treeLookup m path = i)
    (hok : 0 ≤ (storageTruncate junk m path size).2) : 0 ≤ (resize junk m i size).2 := by
  rwa [snd_of_eq (storageTruncate_at junk hlook size)] at hok

theorem storageWrite_done {buf : Str} {offset : Int} {W : Set Int} (hlook : treeLookup m path = i)
    (hpath : PathOff m path W)
    (hresize : 0 ≤ (storageTruncate junk m path (writtenSize buf offset)).2 →
      ChangedIn W m (storageTruncate junk m path (writtenSize buf offset)).1)
    (hok : 0 ≤ (storageWrite junk m path buf offset).2) :
    0 ≤ (storageTruncate junk m path (writtenSize buf offset)).2 ∧
      storageWrite junk m path buf offset =
        (patch (storageTruncate junk m path (writtenSize buf offset)).1 (pagesGetPage i +
          offset) buf.length fun k => buf.getD k nul, toInt buf.length) := by
  cases htruncate : storageTruncate junk m path (writtenSize buf offset) with
  | mk m₁ rv =>
    rw [htruncate] at hresize
    rcases storageWrite_cases junk m path buf offset htruncate with
      ⟨hrv, hwrite⟩ | ⟨-, hmissing, hwrite⟩ | ⟨hrv, -, hwrite⟩
    · rw [hwrite] at hok
      exact absurd hrv (Int.not_lt.mpr hok)
    · rw [hwrite] at hok
      exact absurd hmissing (Int.not_lt.mpr hok)
    · rw [hpath.lookup_same (hlook ▸ Int.natCast_nonneg i) (hresize hrv), hlook] at hwrite
      exact ⟨hrv, hwrite⟩

end

end Cs3650.Nufs
