import Cs3650.Nufs.GrowShrink
import Cs3650.Nufs.Storage

/-!
# Page ownership over runs of the inode operations
-/

namespace Cs3650.Nufs

open Cs3650.Lib

inductive InodeOp
  | alloc
  | grow (inum : Nat) (size : Int)
  | shrink (inum : Nat) (size : Int)
  | free (inum : Nat)
  deriving DecidableEq, Repr

def InodeOp.step (m : Image) : InodeOp → Image
  | .alloc => (allocInode m).1
  | .grow inum size => (growInode 0 m (getInode inum) size).1
  | .shrink inum size => (shrinkInode 0 m (getInode inum) size).1
  | .free inum => freeInode m inum

/-- Inodes are operated on while they are allocated. -/
def InodeOp.Legal (m : Image) : InodeOp → Prop
  | .alloc => True
  | .grow inum _ => inum < 256 ∧ Allocated m inum
  | .shrink inum _ => inum < 256 ∧ Allocated m inum
  | .free inum => inum < 256 ∧ Allocated m inum

/-- The operation does not run into one of the two defects. -/
def InodeOp.Clean (m : Image) : InodeOp → Prop
  | .alloc => True
  | .grow inum size => GrowsClean m (getInode inum) size
  | .shrink inum size => ShrinksClean m (getInode inum) size
  | .free inum =>
    int32 m (getInode inum + Inode.refs) = 1 → ShrinksClean m (getInode inum) 0

def runInodeOps (m : Image) (ops : List InodeOp) : Image := ops.foldl InodeOp.step m

/-- Every operation of the run has the property in the state it starts in. -/
def Along (P : Image → InodeOp → Prop) : Image → List InodeOp → Prop
  | _, [] => True
  | m, op :: ops => P m op ∧ Along P (op.step m) ops

/-! ## A new image -/

theorem pagesInit_spec (m : Image) : ChangedIn (span 0 1) (fill m 0 NUFS_SIZE 0) (pagesInit m) ∧
    ∀ p < 256, bit (pagesInit m) getPagesBitmap p = decide (p < 2) := by
  have hset : ∀ m' :
      Image, ∀ p < 2, ChangedIn (span 0 1) m' (bitmapSet m' getPagesBitmap (p : Nat) 1) := by
    intro m' p hp
    apply (changedIn_bitmapSet m' getPagesBitmap p 1).mono
    simp only [getPagesBitmap, mem_span]
    intro x hx
    omega
  refine ⟨(hset _ 0 (by omega)).trans (hset _ 1 (by omega)), fun p hp => ?_⟩
  have hclear : bit (fill m 0 NUFS_SIZE 0) getPagesBitmap p = false := by
    have hbyte : fill m 0 NUFS_SIZE 0 (getPagesBitmap + ((p / 8 : Nat) : Int)) = 0 := by
      unfold fill patch
      rw [if_pos]
      simp only [getPagesBitmap, NUFS_SIZE]
      omega
    unfold bit
    rw [hbyte]
    simp
  unfold pagesInit
  have hone :=
    bit_bitmapSet (bitmapSet (fill m 0 NUFS_SIZE 0) getPagesBitmap (0 : Nat) 1) getPagesBitmap 1 1 p
  have hzero := bit_bitmapSet (fill m 0 NUFS_SIZE 0) getPagesBitmap 0 1 p
  rw [hclear] at hzero
  rw [hzero] at hone
  refine hone.trans ?_
  by_cases h1 : p = 1
  · simp [h1]
  · by_cases h0 : p = 0
    · simp [h0]
    · have hge : ¬ p < 2 := by omega
      simp [h0, h1, hge]

theorem inodeBit_pagesInit (m : Image) {i : Nat} (hi : i < 256) :
    bit (pagesInit m) getInodeBitmap i = false := by
  have hbyte : pagesInit m (getInodeBitmap + ((i / 8 : Nat) : Int)) = 0 := by
    rw [(pagesInit_spec m).1 _ (by simp only [getInodeBitmap, mem_span]; omega)]
    unfold fill patch NUFS_SIZE getInodeBitmap
    rw [if_pos (by omega)]
  unfold bit
  rw [hbyte]
  simp

theorem pagesInit_owned (m : Image) : Owned (pagesInit m) := by
  obtain ⟨hchanged, hbit⟩ := pagesInit_spec m
  have hblank : ∀ a : Int, 1 ≤ a → a + 4 ≤ 4096 * 256 → int32 (pagesInit m) a = 0 := by
    intro a hlo hhi
    apply int32_zero
    intro x hx
    simp only [mem_span] at hx
    rw [hchanged x (by simp only [mem_span]; omega)]
    unfold fill patch NUFS_SIZE
    rw [if_pos (by omega)]
  have hfree : ∀ i < 256, ¬ Allocated (pagesInit m) i := fun i hi hal => by
    rw [Allocated, inodeBit_pagesInit m hi] at hal
    cases hal
  have hnone : ∀ place, heldPage (pagesInit m) place = none := by
    rintro ⟨i, r⟩
    unfold heldPage
    rw [if_neg]
    rintro ⟨hi, -, hal, -⟩
    exact hfree i hi hal
  refine ⟨⟨?_, ?_, ?_⟩, ?_, ?_, ?_, ?_⟩
  · intro a b p ha
    rw [hnone] at ha
    cases ha
  · intro p
    constructor
    · rintro ⟨hp, hset⟩
      rw [hbit p hp] at hset
      exact Or.inl (of_decide_eq_true hset)
    · rintro (hp | ⟨a, ha⟩)
      · have hp2 : p < 2 := hp
        exact ⟨by omega, by rw [hbit p (by omega)]; exact decide_eq_true hp2⟩
      · rw [hnone] at ha
        cases ha
  · intro a p ha
    rw [hnone] at ha
    cases ha
  · exact fun i hi hal => absurd hal (hfree i hi)
  · exact fun i hi hal => absurd hal (hfree i hi)
  · intro i hi _ j hj
    apply hblank
    · simp only [getInode_eq, Inode.dptrs]
      omega
    · simp only [getInode_eq, Inode.dptrs]
      omega
  · intro p h2 hp _ k hk
    apply hblank
    · simp only [pagesGetPage]
      omega
    · simp only [pagesGetPage]
      omega

theorem directoryInit_of {m m₁ : Image} {inum : Int} (h : allocInode m = (m₁, inum)) :
    directoryInit m =
      ((growInode 0 (setInt32 m₁ (getInode inum + Inode.mode) 0o40755) (getInode inum) 4096).1,
        inum) := by
  unfold directoryInit
  rw [h]

theorem allocInode_room {m : Image} {i : Nat} (hi : i < 256)
    (hclear : bit m getInodeBitmap i = false) : 0 ≤ (allocInode m).2 := by
  unfold allocInode
  cases hfind : firstClear m getInodeBitmap INODE_COUNT with
  | none =>
    rw [firstClear_none hfind i hi] at hclear
    cases hclear
  | some i' => exact Int.natCast_nonneg i'

theorem directoryInit_owned {m : Image} (h : Owned m) {i : Nat} (hi : i < 256)
    (hclear : bit m getInodeBitmap i = false) : Owned (directoryInit m).1 := by
  have hroom := allocInode_room hi hclear
  have hcases := allocInode_owned h
  cases halloc : allocInode m with
  | mk m₁ inum =>
    rw [halloc] at hroom hcases
    rcases hcases with hnone | ⟨i, hi, rfl, hat⟩
    · have hneg : inum = -1 := (Prod.mk.inj hnone).2
      have hnonneg : 0 ≤ inum := hroom
      omega
    · have hmode : ChangedIn (span (getInode i) 12) m₁
          (setInt32 m₁ (getInode i + Inode.mode) 0o40755) := by
        apply (changedIn_setInt32 _ _ _).mono
        simp only [Inode.mode, mem_span]
        intro x hx
        omega
      have hat' := hat.header hi hmode hi
      have hind := hat'.owned.zero_of_not_holding hi hat'.allocated hat'.holding (r := 2)
        (by decide) (by decide)
      rw [recorded_ptr _ i (by decide), ptr_two] at hind
      obtain ⟨n, hgrown⟩ := @growInode_at _ _ _ 0 4096 hi hat'
        (Or.inr (Or.inr (Or.inr (Or.inl hind))))
      rw [fst_of_eq (directoryInit_of halloc)]
      exact hgrown.owned

theorem storageInit_owned (m : Image) : Owned (storageInit m) :=
  directoryInit_owned (pagesInit_owned m) (i := 0) (by decide) (inodeBit_pagesInit m (by decide))

/-! ## Runs -/

theorem step_owned {m : Image} {op : InodeOp} (h : Owned m) (hlegal : op.Legal m)
    (hclean : op.Clean m) : Owned (op.step m) := by
  have hat : ∀ i < 256, Allocated m i → ∃ n, At i n m := fun i hi hal => by
    obtain ⟨n, hn⟩ := h.holding i hi hal
    exact ⟨n, h, hal, hn⟩
  cases op with
  | alloc =>
    show Owned (allocInode m).1
    rcases allocInode_owned h with hnone | ⟨i, -, -, hnew⟩
    · rwa [hnone]
    · exact hnew.owned
  | grow inum size =>
    obtain ⟨hi, hal⟩ := hlegal
    obtain ⟨n, hn⟩ := hat inum hi hal
    obtain ⟨n', hgrown⟩ := growInode_at 0 hi hn hclean
    exact hgrown.owned
  | shrink inum size =>
    obtain ⟨hi, hal⟩ := hlegal
    obtain ⟨n, hn⟩ := hat inum hi hal
    obtain ⟨n', hshrunk, -⟩ := shrinkInode_at 0 hi hn hclean
    exact hshrunk.owned
  | free inum =>
    obtain ⟨hi, hal⟩ := hlegal
    obtain ⟨n, hn⟩ := hat inum hi hal
    exact freeInode_owned hi hn hclean

theorem run_owned {m : Image} (ops : List InodeOp) (h : Owned m)
    (hlegal : Along (fun m op => op.Legal m) m ops)
    (hclean : Along (fun m op => op.Clean m) m ops) : Owned (runInodeOps m ops) := by
  induction ops generalizing m with
  | nil => exact h
  | cons op ops ih => exact ih (step_owned h hlegal.1 hclean.1) hlegal.2 hclean.2

/-- In every run that stays clear of the two defects. -/
theorem clean_run_pageOwnership (m : Image) (ops : List InodeOp)
    (hlegal : Along (fun m op => op.Legal m) (storageInit m) ops)
    (hclean : Along (fun m op => op.Clean m) (storageInit m) ops) :
    PageOwnership (runInodeOps (storageInit m) ops) :=
  (run_owned ops (storageInit_owned m) hlegal hclean).pageOwnership

theorem four_pages_pageOwnership :
    PageOwnership (runInodeOps (storageInit fun _ => 0) [.alloc, .grow 1 16384, .shrink 1 4096]) :=
  clean_run_pageOwnership (fun _ => 0) [.alloc, .grow 1 16384, .shrink 1 4096]
    ⟨trivial, ⟨by decide, by decide +kernel⟩, ⟨by decide, by decide +kernel⟩, trivial⟩
    ⟨trivial, Or.inr (Or.inr (Or.inr (Or.inl (by decide +kernel)))),
      Or.inr (Or.inl (by decide +kernel)), trivial⟩

/-- Two pages are taken and given back: the page bitmap loses its first word. -/
theorem two_pages_lose_bitmap : ¬ ∀ (m : Image) (ops : List InodeOp),
    Along (fun m op => op.Legal m) (storageInit m) ops →
      PageOwnership (runInodeOps (storageInit m) ops) := by
  intro h
  have hrun := h (fun _ => 0) [.alloc, .grow 1 8192, .shrink 1 0]
    ⟨trivial, ⟨by decide, by decide +kernel⟩, ⟨by decide, by decide +kernel⟩, trivial⟩
  have hset := (hrun.1 0 (by decide)).mpr (Or.inl rfl)
  have hclear : bit (runInodeOps (storageInit fun _ => 0) [.alloc, .grow 1 8192, .shrink 1 0])
      getPagesBitmap 0 = false := by decide +kernel
  rw [hclear] at hset
  cases hset

end Cs3650.Nufs
