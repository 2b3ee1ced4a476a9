import Cs3650.Nufs.PageRuns
import Mathlib.Data.Finset.Basic

/-!
# The two allocators as sets

Over runs of `alloc_page`, `free_page`, `alloc_inode` and of clearing an
inode's bit, from a new image on. A page is freed, and a bit cleared, only
while it is live.
-/

namespace Cs3650.Nufs

open Cs3650.Lib

theorem bitmapGet_bitmapSet (m : Image) (bm : Int) (i : Nat) (val : Int) (j : Nat) :
    bitmapGet (bitmapSet m bm i val) bm j =
      if j = i then (if val ≠ 0 then 1 else 0) else bitmapGet m bm j := by
  rw [bitmapGet_eq, bitmapGet_eq, bit_bitmapSet]
  by_cases hji : j = i
  · simp only [if_pos hji, decide_eq_true_eq]
  · simp only [if_neg hji]

/-! ## Bitmaps as sets -/

/-- The numbers whose bit is set. -/
def setBits (m : Image) (bm : Int) : Set Nat := {k | k < 256 ∧ bitmapGet m bm k ≠ 0}

variable {m m' : Image} {bm : Int}

theorem mem_setBits {k : Nat} : k ∈ setBits m bm ↔ k < 256 ∧ bit m bm k = true := by
  unfold setBits
  rw [Set.mem_ofPred_eq, bitmapGet_eq]
  cases bit m bm k with
  | false => simp
  | true => simp

theorem setBits_changedIn {S : Set Int} (h : ChangedIn S m m')
    (hout : ∀ k < 256, bm + ((k / 8 : Nat) : Int) ∉ S) : setBits m' bm = setBits m bm := by
  ext k
  rw [mem_setBits, mem_setBits]
  constructor
  · rintro ⟨hk, hset⟩
    rw [bit_changedIn h (hout k hk)] at hset
    exact ⟨hk, hset⟩
  · rintro ⟨hk, hset⟩
    rw [← bit_changedIn h (hout k hk)] at hset
    exact ⟨hk, hset⟩

theorem setBits_insert {n : Nat} (hn : n < 256)
    (h : ∀ k < 256, bit m' bm k = if k = n then true else bit m bm k) :
    setBits m' bm = insert n (setBits m bm) := by
  ext k
  rw [Set.mem_insert_iff, mem_setBits, mem_setBits]
  by_cases hkn : k = n
  · subst hkn
    simp [hn, h k hn]
  · constructor
    · rintro ⟨hk, hset⟩
      rw [h k hk, if_neg hkn] at hset
      exact Or.inr ⟨hk, hset⟩
    · rintro (hk | ⟨hk, hset⟩)
      · exact absurd hk hkn
      · rw [h k hk, if_neg hkn]
        exact ⟨hk, hset⟩

theorem setBits_clear (n : Nat) : setBits (bitmapSet m bm n 0) bm = setBits m bm \ {n} := by
  ext k
  rw [Set.mem_sdiff, Set.mem_singleton_iff, mem_setBits, mem_setBits, bit_bitmapSet]
  by_cases hkn : k = n
  · simp [hkn]
  · simp [hkn]

theorem setBits_bitmapSet_apart {bm' : Int} {n : Nat} (hn : n < 256) (val : Int)
    (hapart : bm' + 32 ≤ bm ∨ bm + 32 ≤ bm') :
    setBits (bitmapSet m bm' n val) bm = setBits m bm := by
  apply setBits_changedIn (changedIn_bitmapSet m bm' n val)
  intro k hk
  simp only [mem_span]
  omega

/-! ## Allocation -/

/-- `r` is what allocating from the bitmap leaves and returns when `taken` is
taken: the lowest number that is not, its bit set and its record written, and
`-1` when there is none. -/
structure GivesLowest (bm : Int) (record : Nat → Set Int) (taken : Set Nat) (m : Image)
    (r : Image × Int) : Prop where
  full : (∀ k < 256, k ∈ taken) → r = (m, -1)
  given : (∃ k < 256, k ∉ taken) → ∃ n : Nat, IsLeast {k | k < 256 ∧ k ∉ taken} n ∧ r.2 = n ∧
    (∀ k : Nat, k < 256 → bitmapGet r.1 bm k = if k = n then 1 else bitmapGet m bm k) ∧
    ChangedIn (span (bm + (n / 8 : Nat)) 1 ∪ record n) m r.1

namespace GivesLowest

variable {record : Nat → Set Int} {n : Nat}

theorem of_full (hall : ∀ k < 256, bit m bm k = true) :
    GivesLowest bm record (setBits m bm) m (m, -1) where
  full := fun _ => rfl
  given := by
    rintro ⟨k, hk, hfree⟩
    exact absurd (mem_setBits.mpr ⟨hk, hall k hk⟩) hfree

theorem of_lowest (hn : n < 256) (hclear : bit m bm n = false) (hless : ∀ k < n, bit m bm k = true)
    (hbits : ∀ k < 256, bit m' bm k = if k = n then true else bit m bm k)
    (hchanged : ChangedIn (span (bm + (n / 8 : Nat)) 1 ∪ record n) m m') :
    GivesLowest bm record (setBits m bm) m (m', n) := by
  have hfree : n ∉ setBits m bm := fun hmem => by
    rw [(mem_setBits.mp hmem).2] at hclear
    cases hclear
  constructor
  · exact fun hfull => absurd (hfull n hn) hfree
  · intro _
    refine ⟨n, ⟨⟨hn, hfree⟩, fun k hk => ?_⟩, rfl, fun k hk => ?_, hchanged⟩
    · by_contra hlt
      exact hk.2 (mem_setBits.mpr ⟨hk.1, hless k (Nat.lt_of_not_le hlt)⟩)
    · rw [bitmapGet_eq, hbits k hk, bitmapGet_eq]
      by_cases hkn : k = n
      · rw [if_pos hkn, if_pos hkn]
        rfl
      · rw [if_neg hkn, if_neg hkn]

/-- The numbers taken afterwards. -/
theorem taken {r : Image × Int} (h : GivesLowest bm record (setBits m bm) m r) :
    (r = (m, -1) ∧ ∀ k < 256, k ∈ setBits m bm) ∨
      ∃ k : Nat, k < 256 ∧ k ∉ setBits m bm ∧ r.2 = k ∧ setBits r.1 bm = insert k (setBits m bm) ∧
        ChangedIn (span (bm + (k / 8 : Nat)) 1 ∪ record k) m r.1 := by
  by_cases hfull : ∀ k < 256, k ∈ setBits m bm
  · exact Or.inl ⟨h.full hfull, hfull⟩
  · obtain ⟨k, hleast, hresult, hbits, hchanged⟩ := h.given (by simpa using hfull)
    obtain ⟨hk, hfree⟩ := hleast.1
    refine Or.inr ⟨k, hk, hfree, hresult, setBits_insert hk fun j hj => ?_, hchanged⟩
    have hget := hbits j hj
    rw [bitmapGet_eq, bitmapGet_eq] at hget
    by_cases hjk : j = k
    · rw [if_pos hjk] at hget ⊢
      by_contra hunset
      rw [if_neg hunset] at hget
      cases hget
    · rw [if_neg hjk] at hget ⊢
      cases hold : bit m bm j with
      | false => simpa [hold] using hget
      | true => simpa [hold] using hget

end GivesLowest

theorem allocPage_gives (m : Image) :
    GivesLowest getPagesBitmap (fun _ => ∅) (setBits m getPagesBitmap) m (allocPage m) := by
  rcases allocPage_cases m with ⟨hnone, hall⟩ | ⟨p, hp, hclear, hless, halloc⟩
  · rw [hnone]
    exact GivesLowest.of_full hall
  · rw [halloc]
    apply GivesLowest.of_lowest hp hclear hless
    · exact fun k _ => bit_bitmapSet m getPagesBitmap p 1 k
    · rw [Set.union_empty]
      exact changedIn_bitmapSet m getPagesBitmap p 1

theorem allocInode_gives (m : Image) :
    GivesLowest getInodeBitmap (fun i => span (getInode i) INODE_SIZE) (setBits m getInodeBitmap) m
      (allocInode m) := by
  rcases allocInode_cases m with ⟨hnone, hall⟩ | ⟨m', i, hi, hclear, hless, halloc, hnew⟩
  · rw [hnone]
    exact GivesLowest.of_full hall
  · rw [halloc]
    exact GivesLowest.of_lowest hi hclear hless hnew.inodes hnew.changed

/-! ## Runs -/

/-- An image with the pages and inodes allocated from it and not given back. -/
structure Pools where
  image : Image
  pages : Finset Nat
  inodes : Finset Nat

inductive PoolOp
  | allocPage
  | freePage (pnum : Nat)
  | allocInode
  | clearInode (inum : Nat)
  deriving DecidableEq, Repr

/-- The live numbers after an allocation that returned `r`. -/
def withGiven (live : Finset Nat) (r : Int) : Finset Nat :=
  if r = -1 then live else insert r.toNat live

namespace Pools

def start (m : Image) : Pools := ⟨pagesInit m, ∅, ∅⟩

def step (s : Pools) : PoolOp → Pools
  | .allocPage =>
    let (m, r) := allocPage s.image
    { s with image := m, pages := withGiven s.pages r }
  | .freePage pnum => { s with image := freePage s.image pnum, pages := s.pages.erase pnum }
  | .allocInode =>
    let (m, r) := allocInode s.image
    { s with image := m, inodes := withGiven s.inodes r }
  | .clearInode inum =>
    { s with image := bitmapSet s.image getInodeBitmap inum 0, inodes := s.inodes.erase inum }

/-- What is given back is live. -/
def Allows (s : Pools) : PoolOp → Prop
  | .freePage pnum => pnum ∈ s.pages
  | .clearInode inum => inum ∈ s.inodes
  | _ => True

instance (s : Pools) : (op : PoolOp) → Decidable (s.Allows op)
  | .allocPage => isTrue trivial
  | .freePage pnum => inferInstanceAs (Decidable (pnum ∈ s.pages))
  | .allocInode => isTrue trivial
  | .clearInode inum => inferInstanceAs (Decidable (inum ∈ s.inodes))

def run (s : Pools) (ops : List PoolOp) : Pools := ops.foldl step s

def AllowsAll : Pools → List PoolOp → Prop
  | _, [] => True
  | s, op :: ops => s.Allows op ∧ AllowsAll (s.step op) ops

/-- The bitmaps are the live numbers, with the two pages of metadata. -/
structure Exact (s : Pools) : Prop where
  pages : setBits s.image getPagesBitmap = {0, 1} ∪ (s.pages : Set Nat)
  inodes : setBits s.image getInodeBitmap = s.inodes
  apart : ∀ p ∈ s.pages, 2 ≤ p

theorem start_exact (m : Image) : (start m).Exact where
  pages := by
    ext p
    show p ∈ setBits (pagesInit m) getPagesBitmap ↔ _
    have hpair : p ∈ ({0, 1} ∪ ((∅ : Finset Nat) : Set Nat) : Set Nat) ↔ p < 2 := by
      simp only [Finset.coe_empty, Set.union_empty, Set.mem_insert_iff, Set.mem_singleton_iff]
      omega
    rw [mem_setBits]
    refine Iff.trans ?_ hpair.symm
    constructor
    · rintro ⟨hp, hset⟩
      rw [(pagesInit_spec m).2 p hp] at hset
      exact of_decide_eq_true hset
    · intro hp
      have hlt : p < 256 := by omega
      exact ⟨hlt, ((pagesInit_spec m).2 p hlt).trans (decide_eq_true hp)⟩
  inodes := by
    ext i
    show i ∈ setBits (pagesInit m) getInodeBitmap ↔ i ∈ ((∅ : Finset Nat) : Set Nat)
    rw [mem_setBits, Finset.coe_empty]
    constructor
    · rintro ⟨hi, hset⟩
      rw [inodeBit_pagesInit m hi] at hset
      cases hset
    · exact fun h => absurd h (Set.notMem_empty i)
  apart := fun p hp => absurd hp (Finset.notMem_empty p)

theorem withGiven_cast (live : Finset Nat) (n : Nat) : withGiven live n = insert n live := by
  rw [withGiven, if_neg (by omega), Int.toNat_natCast]

theorem allocPage_exact {s : Pools} (h : s.Exact) : (s.step .allocPage).Exact := by
  rcases (allocPage_gives s.image).taken with ⟨hnone, -⟩ | ⟨p, hp, hfree, hresult, hset, hchanged⟩
  · have hstep : s.step .allocPage = s := by
      unfold step withGiven
      rw [hnone]
      rfl
    rwa [hstep]
  · have hlive : (s.step .allocPage).pages = insert p s.pages := by
      show withGiven s.pages (allocPage s.image).2 = _
      rw [hresult, withGiven_cast]
    constructor
    · show setBits (allocPage s.image).1 getPagesBitmap = _
      rw [hlive, hset, h.pages, Finset.coe_insert, Set.union_insert]
    · show setBits (allocPage s.image).1 getInodeBitmap = s.inodes
      rw [← h.inodes]
      apply setBits_changedIn hchanged
      intro k hk
      simp only [getPagesBitmap, getInodeBitmap, Set.union_empty, mem_span]
      omega
    · intro q hq
      rw [hlive, Finset.mem_insert] at hq
      rcases hq with rfl | hq
      · rw [h.pages] at hfree
        by_contra hlt
        have hpair : q = 0 ∨ q = 1 := by omega
        exact hfree (Or.inl hpair)
      · exact h.apart q hq

theorem allocInode_exact {s : Pools} (h : s.Exact) : (s.step .allocInode).Exact := by
  rcases (allocInode_gives s.image).taken with ⟨hnone, -⟩ | ⟨i, hi, -, hresult, hset, hchanged⟩
  · have hstep : s.step .allocInode = s := by
      unfold step withGiven
      rw [hnone]
      rfl
    rwa [hstep]
  · have hlive : (s.step .allocInode).inodes = insert i s.inodes := by
      show withGiven s.inodes (allocInode s.image).2 = _
      rw [hresult, withGiven_cast]
    constructor
    · show setBits (allocInode s.image).1 getPagesBitmap = {0, 1} ∪ (s.pages : Set Nat)
      rw [← h.pages]
      apply setBits_changedIn hchanged
      intro k hk
      simp only [getPagesBitmap, getInodeBitmap, getInode_eq, Set.mem_union, mem_span]
      omega
    · show setBits (allocInode s.image).1 getInodeBitmap = _
      rw [hlive, hset, h.inodes, Finset.coe_insert]
    · exact h.apart

theorem freePage_exact {s : Pools} (h : s.Exact) {p : Nat} (hp : p ∈ s.pages) :
    (s.step (.freePage p)).Exact := by
  have hset : p ∈ setBits s.image getPagesBitmap := by
    rw [h.pages]
    exact Or.inr hp
  have hlo := h.apart p hp
  constructor
  · show setBits (bitmapSet s.image getPagesBitmap p 0) getPagesBitmap =
      {0, 1} ∪ ((s.pages.erase p : Finset Nat) : Set Nat)
    rw [setBits_clear, h.pages, Finset.coe_erase, Set.union_sdiff_distrib]
    congr 1
    ext q
    simp only [Set.mem_sdiff, Set.mem_insert_iff, Set.mem_singleton_iff]
    omega
  · show setBits (bitmapSet s.image getPagesBitmap p 0) getInodeBitmap = s.inodes
    rw [← h.inodes]
    exact setBits_bitmapSet_apart (mem_setBits.mp hset).1 0 (by decide)
  · exact fun q hq => h.apart q (Finset.mem_of_mem_erase hq)

theorem clearInode_exact {s : Pools} (h : s.Exact) {i : Nat} (hi : i ∈ s.inodes) :
    (s.step (.clearInode i)).Exact := by
  have hset : i ∈ setBits s.image getInodeBitmap := by
    rw [h.inodes]
    exact hi
  constructor
  · show setBits (bitmapSet s.image getInodeBitmap i 0) getPagesBitmap =
        {0, 1} ∪ (s.pages : Set Nat)
    rw [← h.pages]
    exact setBits_bitmapSet_apart (mem_setBits.mp hset).1 0 (by decide)
  · show setBits (bitmapSet s.image getInodeBitmap i 0) getInodeBitmap =
      ((s.inodes.erase i : Finset Nat) : Set Nat)
    rw [setBits_clear, h.inodes, Finset.coe_erase]
  · exact h.apart

theorem step_exact {s : Pools} {op : PoolOp} (h : s.Exact) (hallowed : s.Allows op) :
    (s.step op).Exact := by
  cases op with
  | allocPage => exact allocPage_exact h
  | freePage p => exact freePage_exact h hallowed
  | allocInode => exact allocInode_exact h
  | clearInode i => exact clearInode_exact h hallowed

theorem run_exact {s : Pools} (ops : List PoolOp) (h : s.Exact) (hallowed : s.AllowsAll ops) :
    (s.run ops).Exact := by
  induction ops generalizing s with
  | nil => exact h
  | cons op ops ih => exact ih (step_exact h hallowed.1) hallowed.2

end Pools

/-- After every run the bitmaps hold the live numbers, and either allocator
gives the lowest of its own that is not. -/
theorem pools_are_sets (m : Image) (ops : List PoolOp) (h : (Pools.start m).AllowsAll ops) :
    ((Pools.start m).run ops).Exact ∧
      GivesLowest getPagesBitmap (fun _ => ∅) ({0, 1} ∪ ((Pools.start m).run ops).pages)
        ((Pools.start m).run ops).image (allocPage ((Pools.start m).run ops).image) ∧
      GivesLowest getInodeBitmap (fun i => span (getInode i) INODE_SIZE)
        ((Pools.start m).run ops).inodes ((Pools.start m).run ops).image
        (allocInode ((Pools.start m).run ops).image) ∧
      ∀ (m' : Image) (bm : Int) (i : Nat) (val : Int) (j : Nat),
        bitmapGet (bitmapSet m' bm i val) bm j =
          if j = i then (if val ≠ 0 then 1 else 0) else bitmapGet m' bm j := by
  have hexact := Pools.run_exact ops (Pools.start_exact m) h
  refine ⟨hexact, ?_, ?_, bitmapGet_bitmapSet⟩
  · rw [← hexact.pages]
    exact allocPage_gives _
  · rw [← hexact.inodes]
    exact allocInode_gives _

theorem page_and_inode_given_back :
    ((Pools.start fun _ => 0).run
      [.allocPage, .allocInode, .allocPage, .freePage 2, .allocInode, .clearInode 0]).Exact :=
  (pools_are_sets (fun _ => 0)
    [.allocPage, .allocInode, .allocPage, .freePage 2, .allocInode, .clearInode 0]
    ⟨trivial, trivial, trivial, by decide +kernel, trivial, by decide +kernel, trivial⟩).1

end Cs3650.Nufs
