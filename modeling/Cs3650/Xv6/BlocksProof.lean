import Cs3650.Lib.Extent
import Cs3650.Lib.Ownership
import Cs3650.Xv6.Blocks

/-!
# What the blocks of the disk hold

A block is in use when it is one of the metadata or the number of it stands in
one place: in the `addrs` of an inode or in the block of numbers that an inode
has. The bytes of a file are in the blocks of its places, so a write to one file
cannot be seen in another.
-/

namespace Cs3650.Xv6.Blocks

open Cs3650.Lib

section Bits

theorem bit_eq (j : Nat) : (1 : Byte) <<< j = BitVec.twoPow 8 j := rfl

theorem and_bit (x : Byte) {j : Nat} (hj : j < 8) :
    ((x &&& (1 : Byte) <<< j) != 0) = x.getLsbD j := by
  rw [bit_eq, BitVec.and_twoPow]
  cases hx : x.getLsbD j with
  | false => simp
  | true =>
    have hne : BitVec.twoPow 8 j ≠ 0#8 := by
      intro h0
      have hbit := congrArg (fun y => y.getLsbD j) h0
      simp [hj] at hbit
    simpa using hne

variable {sb : Superblock} {disk : Nat → Memory} {fs : Fs} {b c : Nat}

theorem inUse_eq :
    inUse sb disk b = (disk (bblock sb b) (b % BPB / 8 : Nat)).getLsbD (b % BPB % 8) :=
  and_bit _ (Nat.mod_lt _ (by decide))

/-- Two blocks share a byte of the bitmap and a bit in it only when they are one. -/
theorem bit_inj (hblock : bblock sb c = bblock sb b) (hbyte : c % BPB / 8 = b % BPB / 8)
    (hbit : c % BPB % 8 = b % BPB % 8) : c = b := by
  simp only [bblock, BPB, BSIZE] at *
  omega

theorem inUse_setUse (f : Byte → Byte → Byte) (v : Bool)
    (hself : ∀ x j, j < 8 → (f x ((1 : Byte) <<< j)).getLsbD j = v)
    (hother : ∀ x i j, i < 8 → j < 8 → i ≠ j → (f x ((1 : Byte) <<< j)).getLsbD i = x.getLsbD i) :
    inUse sb (setUse sb fs b f).disk c = if c = b then v else inUse sb fs.disk c := by
  have hlt (e : Nat) : e % BPB % 8 < 8 := Nat.mod_lt _ (by decide)
  rw [inUse_eq, inUse_eq]
  by_cases hcb : c = b
  · subst hcb
    have hat := patch_inside (fs.disk (bblock sb c)) (c % BPB / 8 : Nat) 1
      (fun _ => f (fs.disk (bblock sb c) (c % BPB / 8 : Nat)) ((1 : Byte) <<< (c % BPB % 8)))
      Nat.one_pos
    simp only [Nat.cast_zero, Int.add_zero] at hat
    simp only [setUse, Fs.setBlock, Function.update_self, hat, if_true]
    exact hself _ _ (hlt c)
  · simp only [setUse, Fs.setBlock, hcb, if_false]
    by_cases hblock : bblock sb c = bblock sb b
    · rw [hblock, Function.update_self]
      by_cases hbyte : c % BPB / 8 = b % BPB / 8
      · have hbit : c % BPB % 8 ≠ b % BPB % 8 := fun hbit => hcb (bit_inj hblock hbyte hbit)
        have hat := patch_inside (fs.disk (bblock sb b)) (b % BPB / 8 : Nat) 1
          (fun _ => f (fs.disk (bblock sb b) (b % BPB / 8 : Nat)) ((1 : Byte) <<< (b % BPB % 8)))
          Nat.one_pos
        simp only [Nat.cast_zero, Int.add_zero] at hat
        rw [hbyte, hat]
        exact hother _ _ _ (hlt c) (hlt b) hbit
      · rw [patch_outside _ _ _ _ (by omega)]
    · rw [Function.update_of_ne hblock]

theorem inUse_markUsed :
    inUse sb (markUsed sb fs b).disk c = if c = b then true else inUse sb fs.disk c := by
  apply inUse_setUse
  · intro x j hj
    rw [bit_eq, BitVec.getLsbD_or, BitVec.getLsbD_twoPow]
    simp [hj]
  · intro x i j hi hj hij
    rw [bit_eq, BitVec.getLsbD_or, BitVec.getLsbD_twoPow]
    simp [hij.symm]

theorem inUse_markFree :
    inUse sb (markFree sb fs b).disk c = if c = b then false else inUse sb fs.disk c := by
  apply inUse_setUse
  · intro x j hj
    rw [bit_eq, BitVec.getLsbD_and, BitVec.getLsbD_not, BitVec.getLsbD_twoPow]
    simp [hj]
  · intro x i j hi hj hij
    rw [bit_eq, BitVec.getLsbD_and, BitVec.getLsbD_not, BitVec.getLsbD_twoPow]
    simp [hij.symm, hi]

end Bits

section Places

/-- The number in place `j` of the inode: `addrs`, then the block of numbers. -/
def addrAt (fs : Fs) (i j : Nat) : Nat :=
  if j ≤ NDIRECT then (fs.inode i).addr j
  else if (fs.inode i).addr NDIRECT = 0 ∨ NDIRECT + NINDIRECT < j then 0
  else entry (fs.disk ((fs.inode i).addr NDIRECT)) (j - NDIRECT - 1)

def holds (fs : Fs) (p : Nat × Nat) : Option Nat :=
  if addrAt fs p.1 p.2 = 0 then none else some (addrAt fs p.1 p.2)

def used (sb : Superblock) (disk : Nat → Memory) : Set Nat :=
  {b | b < sb.size ∧ inUse sb disk b = true}

def reserved (sb : Superblock) : Set Nat := {b | b < sb.nmeta}

def Owned (sb : Superblock) (fs : Fs) : Prop := Exact (reserved sb) (used sb fs.disk) (holds fs)

variable {sb : Superblock} {fs fs' : Fs} {i j k b c : Nat} {m : Memory}

theorem holds_some : holds fs (i, j) = some b ↔ addrAt fs i j = b ∧ b ≠ 0 := by
  unfold holds
  split
  · next h0 =>
    constructor
    · intro h
      cases h
    · intro h
      exact absurd (h0.symm.trans h.1).symm h.2
  · next h0 =>
    constructor
    · intro h
      cases h
      exact ⟨rfl, h0⟩
    · intro h
      rw [h.1]

theorem holds_of_ne (h : addrAt fs i j ≠ 0) : holds fs (i, j) = some (addrAt fs i j) :=
  holds_some.mpr ⟨rfl, h⟩

theorem holds_none : holds fs (i, j) = none ↔ addrAt fs i j = 0 := by
  unfold holds
  split <;> simp_all

theorem addr_setAddr (d : Dinode) (a : Nat) (hj : j < 13) :
    (d.setAddr j a).addr k = if k = j then a else d.addr k := by
  unfold Dinode.addr Dinode.setAddr
  by_cases hk : k < 13
  · simp [hk]
  · have hne : k ≠ j := by omega
    simp [hk, hne]

theorem addrAt_le (hj : j ≤ NDIRECT) : addrAt fs i j = (fs.inode i).addr j := by
  simp only [addrAt, hj, if_true]

theorem addrAt_entry (hk : k < NINDIRECT) (htable : (fs.inode i).addr NDIRECT ≠ 0) :
    addrAt fs i (NDIRECT + 1 + k) = entry (fs.disk ((fs.inode i).addr NDIRECT)) k := by
  have hgt : ¬ NDIRECT + 1 + k ≤ NDIRECT := by omega
  have hlt : ¬ NDIRECT + NINDIRECT < NDIRECT + 1 + k := by omega
  have hsub : NDIRECT + 1 + k - NDIRECT - 1 = k := by omega
  simp only [addrAt, hgt, if_false, htable, hlt, or_self, hsub]

/-- A place past the table is empty, or an entry of the table. -/
theorem addrAt_cases (fs : Fs) (i j : Nat) : j ≤ NDIRECT ∨ addrAt fs i j = 0 ∧
      ((fs.inode i).addr NDIRECT = 0 ∨ NDIRECT + NINDIRECT < j) ∨
    ∃ k < NINDIRECT, j = NDIRECT + 1 + k ∧ (fs.inode i).addr NDIRECT ≠ 0 := by
  by_cases hj : j ≤ NDIRECT
  · exact .inl hj
  · by_cases h : (fs.inode i).addr NDIRECT = 0 ∨ NDIRECT + NINDIRECT < j
    · right
      left
      simp only [addrAt, hj, if_false, h, if_true, and_self]
    · right
      right
      have hk : j - NDIRECT - 1 < NINDIRECT := by omega
      exact ⟨j - NDIRECT - 1, hk, by omega, fun h0 => h (.inl h0)⟩

theorem Owned.data (h : Owned sb fs) (hne : addrAt fs i j ≠ 0) : sb.nmeta ≤ addrAt fs i j := by
  have happart := Exact.apart h (i, j) _ (holds_of_ne hne)
  exact Nat.le_of_not_lt happart

theorem Owned.mem_used (h : Owned sb fs) (hne : addrAt fs i j ≠ 0) :
    addrAt fs i j ∈ used sb fs.disk :=
  Exact.used_of_holds h (holds_of_ne hne)

theorem Owned.inj (h : Owned sb fs) {i' j' : Nat} (hne : addrAt fs i j ≠ 0)
    (heq : addrAt fs i' j' = addrAt fs i j) : i' = i ∧ j' = j := by
  have hpair :=
    Exact.single h (i', j') (i, j) (addrAt fs i j) (holds_some.mpr ⟨heq, hne⟩) (holds_of_ne hne)
  exact Prod.mk.inj hpair

theorem bblock_lt (hb : b < sb.size) : bblock sb b < sb.nmeta := sb.bitmap_fit b hb

theorem le_bblock : sb.bmapstart ≤ bblock sb b := Nat.le_add_left ..

/-- Blocks of data do not matter to the bitmap. -/
theorem used_congr {disk disk' : Nat → Memory}
    (h : ∀ c, sb.bmapstart ≤ c → c < sb.nmeta → disk' c = disk c) :
    used sb disk' = used sb disk := by
  ext b
  simp only [used, Set.mem_ofPred_eq]
  constructor
  · intro hb
    refine ⟨hb.1, ?_⟩
    rw [← hb.2, inUse_eq, inUse_eq, h _ le_bblock (bblock_lt hb.1)]
  · intro hb
    refine ⟨hb.1, ?_⟩
    rw [← hb.2, inUse_eq, inUse_eq, h _ le_bblock (bblock_lt hb.1)]

theorem used_setBlock (hc : sb.nmeta ≤ c) : used sb (fs.setBlock c m).disk = used sb fs.disk :=
  used_congr fun _ _ hlt => Function.update_of_ne (Nat.ne_of_lt (Nat.lt_of_lt_of_le hlt hc)) _ _

end Places

section Alloc

variable {sb : Superblock} {fs fs' : Fs} {i j b : Nat}

/-- What `balloc` does: a block that was free is in use and zero. -/
structure Allocated (sb : Superblock) (fs fs' : Fs) (b : Nat) : Prop where
  free : b ∉ used sb fs.disk
  data : sb.nmeta ≤ b
  lt : b < sb.size
  used : ∀ x, x ∈ used sb fs'.disk ↔ x = b ∨ x ∈ used sb fs.disk
  inode : fs'.inode = fs.inode
  zero : ∀ x : Int, 0 ≤ x → x < BSIZE → fs'.disk b x = 0
  low : ∀ c < sb.bmapstart, fs'.disk c = fs.disk c
  other : ∀ c, sb.nmeta ≤ c → c ≠ b → fs'.disk c = fs.disk c

theorem balloc_spec (h : Owned sb fs) (hrun : balloc sb fs = some (fs', b)) :
    Allocated sb fs fs' b := by
  unfold balloc at hrun
  split at hrun
  · next c hfind =>
    cases hrun
    have hfree := List.find?_some hfind
    have hmem := List.mem_range.mp (List.mem_of_find?_eq_some hfind)
    have hnot : b ∉ used sb fs.disk := fun hu => by simp [hu.2] at hfree
    have hdata : sb.nmeta ≤ b := by
      by_contra hlt
      exact hnot ((Exact.used_iff h b).mpr (.inl (Nat.lt_of_not_le hlt)))
    have hbit := bblock_lt hmem
    have hlow : sb.bmapstart ≤ bblock sb b := le_bblock
    refine ⟨hnot, hdata, hmem, ?_, rfl, ?_, ?_, ?_⟩
    · intro x
      rw [bzero, used_setBlock hdata]
      simp only [used, Set.mem_ofPred_eq, inUse_markUsed]
      by_cases hx : x = b
      · simp [hx, hmem]
      · simp [hx]
    · intro x h0 hx
      simp only [bzero, Fs.setBlock, Function.update_self, fill, patch]
      rw [if_pos (by omega)]
    · intro c hc
      simp only [bzero, markUsed, setUse, Fs.setBlock]
      rw [Function.update_of_ne (by omega), Function.update_of_ne (by omega)]
    · intro c hc hne
      simp only [bzero, markUsed, setUse, Fs.setBlock]
      rw [Function.update_of_ne hne, Function.update_of_ne (by omega)]
  · cases hrun

theorem Allocated.pos (h : Allocated sb fs fs' b) : b ≠ 0 := by
  have hpos := sb.nmeta_pos
  have hdata := h.data
  omega

/-- The blocks that are held are as they were. -/
theorem Allocated.kept (h : Allocated sb fs fs' b) (ho : Owned sb fs) (hne : addrAt fs i j ≠ 0) :
    fs'.disk (addrAt fs i j) = fs.disk (addrAt fs i j) := by
  apply h.other _ (ho.data hne)
  intro heq
  exact h.free (heq ▸ ho.mem_used hne)

theorem Allocated.addrAt_eq (h : Allocated sb fs fs' b) (ho : Owned sb fs) :
    addrAt fs' i j = addrAt fs i j := by
  have htable : (fs.inode i).addr NDIRECT ≠ 0 →
      fs'.disk ((fs.inode i).addr NDIRECT) = fs.disk ((fs.inode i).addr NDIRECT) := by
    intro hne
    have hkept := h.kept (i := i) (j := NDIRECT) ho (by rwa [addrAt_le (le_refl _)])
    rwa [addrAt_le (le_refl _)] at hkept
  simp only [addrAt, h.inode]
  by_cases h0 : (fs.inode i).addr NDIRECT = 0
  · simp only [h0, true_or, if_true]
  · rw [htable h0]

/-- Place `j` of inode `i` was empty and has the new block `b`; the other places and
the blocks in them are as they were, but for the table of the inode. -/
structure Filled (sb : Superblock) (fs fs' : Fs) (i j b : Nat) : Prop where
  empty : addrAt fs i j = 0
  new : addrAt fs' i j = b
  pos : b ≠ 0
  rest : ∀ i' j', ¬ (i' = i ∧ j' = j) → addrAt fs' i' j' = addrAt fs i' j'
  free : b ∉ used sb fs.disk
  used : ∀ x, x ∈ used sb fs'.disk ↔ x = b ∨ x ∈ used sb fs.disk
  kept : ∀ i' j', addrAt fs i' j' ≠ 0 → ¬ (i' = i ∧ j' = NDIRECT) →
    fs'.disk (addrAt fs i' j') = fs.disk (addrAt fs i' j')
  zero : ∀ x : Int, 0 ≤ x → x < BSIZE → fs'.disk b x = 0
  low : ∀ c < sb.bmapstart, fs'.disk c = fs.disk c
  inode : ∀ i', i' ≠ i → fs'.inode i' = fs.inode i'
  same : ∃ a, fs'.inode i = { fs.inode i with addrs := a }

theorem Filled.owned (h : Filled sb fs fs' i j b) (ho : Owned sb fs) : Owned sb fs' := by
  refine Exact.acquire ho (a := (i, j)) h.free (holds_none.mpr h.empty) h.used
    (holds_some.mpr ⟨h.new, h.pos⟩) ?_
  intro p hp
  have hrest := h.rest p.1 p.2 fun heq => hp (Prod.ext heq.1 heq.2)
  simp only [holds, hrest]

theorem entry_zero {m : Memory} {k : Nat} (hm : ∀ x : Int, 0 ≤ x → x < BSIZE → m x = 0)
    (hk : k < NINDIRECT) : entry m k = 0 := by
  apply load_zero
  intro x hx hx'
  simp only [NINDIRECT] at hk
  exact hm x (by omega) (by simp only [BSIZE]; omega)

/-- A number put in `addrs`. -/
theorem Allocated.setAddr {fs₁ : Fs} (h : Allocated sb fs fs₁ b) (ho : Owned sb fs)
    (hj : j ≤ NDIRECT) (hempty : (fs.inode i).addr j = 0) :
    Filled sb fs (fs₁.setInode i ((fs₁.inode i).setAddr j b)) i j b := by
  have hlt : j < 13 := Nat.lt_succ_of_le hj
  have haddr (k : Nat) : ((fs₁.setInode i ((fs₁.inode i).setAddr j b)).inode i).addr k =
      if k = j then b else (fs.inode i).addr k := by
    simp only [Fs.setInode, Function.update_self]
    rw [addr_setAddr _ _ hlt, h.inode]
  refine ⟨by rwa [addrAt_le hj], ?_, h.pos, ?_, h.free, h.used, ?_, h.zero, h.low, ?_, ?_⟩
  · rw [addrAt_le hj, haddr, if_pos rfl]
  · intro i' j' hne
    by_cases hi : i' = i
    · subst hi
      have hjj : j' ≠ j := fun hjj => hne ⟨rfl, hjj⟩
      rw [← h.addrAt_eq ho]
      rcases addrAt_cases fs₁ i' j' with hle | ⟨hzero, hwhy⟩ | ⟨k, hk, rfl, htable⟩
      · rw [addrAt_le hle, addrAt_le hle, haddr, if_neg hjj, h.inode]
      · rw [hzero]
        by_cases hjn : j = NDIRECT
        · -- the new table has no numbers yet
          subst hjn
          rcases addrAt_cases (fs₁.setInode i' ((fs₁.inode i').setAddr NDIRECT b)) i' j' with hle
            | hz | ⟨k, hk, rfl, ht⟩
          · rw [addrAt_le hle, haddr, if_neg hjj]
            rw [addrAt_le hle, h.inode] at hzero
            exact hzero
          · exact hz.1
          · rw [addrAt_entry hk ht, haddr, if_pos rfl]
            exact entry_zero h.zero hk
        · have hsame : ((fs₁.setInode i' ((fs₁.inode i').setAddr j b)).inode i').addr NDIRECT =
              (fs₁.inode i').addr NDIRECT := by
            rw [haddr, if_neg (Ne.symm hjn), h.inode]
          by_cases hle : j' ≤ NDIRECT
          · rw [addrAt_le hle, haddr, if_neg hjj]
            rw [addrAt_le hle, h.inode] at hzero
            exact hzero
          · rw [← hsame] at hwhy
            simp only [addrAt, hle, if_false, hwhy, if_true]
      · have hjn : NDIRECT ≠ j := by
          rintro rfl
          rw [h.inode] at htable
          exact htable hempty
        have hsame : ((fs₁.setInode i' ((fs₁.inode i').setAddr j b)).inode i').addr NDIRECT =
            (fs₁.inode i').addr NDIRECT := by
          rw [haddr, if_neg hjn, h.inode]
        rw [addrAt_entry hk (by rwa [hsame]), addrAt_entry hk htable, hsame]
        rfl
    · rw [← h.addrAt_eq ho]
      simp only [addrAt, Fs.setInode, Function.update_of_ne hi]
  · intro i' j' hne _
    exact h.kept ho hne
  · intro i' hi
    simp only [Fs.setInode, Function.update_of_ne hi, h.inode]
  · exact ⟨_, by simp only [Fs.setInode, Function.update_self, Dinode.setAddr, h.inode]; rfl⟩

theorem entry_store (m : Memory) {k k' v : Nat} (hv : v < 2 ^ 32) :
    entry (store m (4 * k : Nat) 4 v) k' = if k' = k then v else entry m k' := by
  by_cases hk : k' = k
  · subst hk
    rw [if_pos rfl, entry, load_store]
    exact Nat.mod_eq_of_lt hv
  · rw [if_neg hk, entry, load_store_outside _ _ _ _ (by omega)]
    rfl

/-- A number put in the table. -/
theorem Allocated.setEntry {fs₁ : Fs} {k : Nat} (h : Allocated sb fs fs₁ b) (ho : Owned sb fs)
    (hk : k < NINDIRECT)
    (htable : (fs.inode i).addr NDIRECT ≠ 0)
    (hempty : entry (fs.disk ((fs.inode i).addr NDIRECT)) k = 0) :
    Filled sb fs (fs₁.setBlock ((fs.inode i).addr NDIRECT)
      (store (fs₁.disk ((fs.inode i).addr NDIRECT)) (4 * k : Nat) 4 b)) i (NDIRECT + 1 + k) b := by
  have hat : addrAt fs i NDIRECT ≠ 0 := by rwa [addrAt_le (le_refl _)]
  have hdata := ho.data hat
  have hused := ho.mem_used hat
  rw [addrAt_le (le_refl _)] at hdata hused
  have hbt : b ≠ (fs.inode i).addr NDIRECT := fun heq => h.free (heq ▸ hused)
  have hb32 : b < 2 ^ 32 := h.lt.trans sb.size_lt
  -- another place has another block
  have hother (i' j' : Nat) (hne : addrAt fs i' j' ≠ 0) (hp : ¬ (i' = i ∧ j' = NDIRECT)) :
      addrAt fs i' j' ≠ (fs.inode i).addr NDIRECT := by
    intro heq
    rw [← addrAt_le (le_refl NDIRECT)] at heq
    exact hp (ho.inj hat heq)
  refine ⟨?_, ?_, h.pos, ?_, h.free, ?_, ?_, ?_, ?_, ?_, ?_⟩
  · rw [addrAt_entry hk htable, hempty]
  · have htable' : (fs₁.inode i).addr NDIRECT ≠ 0 := by rwa [h.inode]
    rw [addrAt_entry hk (by exact htable')]
    simp only [Fs.setBlock, h.inode, Function.update_self]
    rw [entry_store _ hb32, if_pos rfl]
  · intro i' j' hne
    rw [← h.addrAt_eq ho]
    rcases addrAt_cases fs₁ i' j' with hle | ⟨hzero, hwhy⟩ | ⟨k', hk', rfl, ht⟩
    · rw [addrAt_le hle, addrAt_le hle]
      rfl
    · by_cases hle : j' ≤ NDIRECT
      · rw [addrAt_le hle, addrAt_le hle]
        rfl
      · rw [hzero]
        simp only [addrAt, Fs.setBlock, hle, if_false, hwhy, if_true]
    · rw [addrAt_entry hk' (by exact ht), addrAt_entry hk' ht]
      simp only [Fs.setBlock]
      by_cases hi : i' = i
      · subst hi
        have hkk : k' ≠ k := fun hkk => hne ⟨rfl, by rw [hkk]⟩
        rw [h.inode, Function.update_self, entry_store _ hb32, if_neg hkk]
      · rw [Function.update_of_ne]
        rw [h.inode] at ht ⊢
        have hdiff := hother i' NDIRECT (by rwa [addrAt_le (le_refl _)]) fun hp => hi hp.1
        rwa [addrAt_le (le_refl _)] at hdiff
  · intro x
    rw [used_setBlock hdata]
    exact h.used x
  · intro i' j' hne hp
    simp only [Fs.setBlock]
    rw [Function.update_of_ne (hother i' j' hne hp)]
    exact h.kept ho hne
  · intro x h0 hx
    simp only [Fs.setBlock, Function.update_of_ne hbt]
    exact h.zero x h0 hx
  · intro c hc
    have hbm : sb.bmapstart ≤ bblock sb b := le_bblock
    have hlt := bblock_lt h.lt
    simp only [Fs.setBlock]
    rw [Function.update_of_ne (by omega)]
    exact h.low c hc
  · intro i' hi
    simp only [Fs.setBlock, h.inode]
  · exact ⟨_, by simp only [Fs.setBlock, h.inode]; rfl⟩

end Alloc

section Map

variable {sb : Superblock} {fs fs₁ fs' : Fs} {i j b bn nb k : Nat}

/-- What is done to inode `i` leaves the other inodes and their blocks alone. -/
structure Frame (sb : Superblock) (fs fs' : Fs) (i : Nat) : Prop where
  inode : ∀ i', i' ≠ i → fs'.inode i' = fs.inode i'
  same : ∃ a, fs'.inode i = { fs.inode i with addrs := a }
  low : ∀ c < sb.bmapstart, fs'.disk c = fs.disk c
  kept : ∀ i' j', i' ≠ i → addrAt fs i' j' ≠ 0 →
    fs'.disk (addrAt fs i' j') = fs.disk (addrAt fs i' j')

theorem Frame.refl (sb : Superblock) (fs : Fs) (i : Nat) : Frame sb fs fs i :=
  ⟨fun _ _ => rfl, ⟨(fs.inode i).addrs, rfl⟩, fun _ _ => rfl, fun _ _ _ _ => rfl⟩

theorem Frame.addrAt_eq (h : Frame sb fs fs' i) {i' : Nat} (hi : i' ≠ i) :
    addrAt fs' i' j = addrAt fs i' j := by
  simp only [addrAt, h.inode i' hi]
  by_cases h0 : (fs.inode i').addr NDIRECT = 0
  · simp only [h0, true_or, if_true]
  · have hkept := h.kept i' NDIRECT hi (by rwa [addrAt_le (le_refl _)])
    rw [addrAt_le (le_refl _)] at hkept
    rw [hkept]

theorem Frame.trans (h : Frame sb fs fs₁ i) (h' : Frame sb fs₁ fs' i) : Frame sb fs fs' i where
  inode := fun i' hi => (h'.inode i' hi).trans (h.inode i' hi)
  same := by
    obtain ⟨a, ha⟩ := h.same
    obtain ⟨a', ha'⟩ := h'.same
    exact ⟨a', by rw [ha', ha]⟩
  low := fun c hc => (h'.low c hc).trans (h.low c hc)
  kept := by
    intro i' j' hi hne
    have heq := h.addrAt_eq (j := j') hi
    have hnext := h'.kept i' j' hi (by rwa [heq])
    rw [heq] at hnext
    exact hnext.trans (h.kept i' j' hi hne)

theorem Filled.frame (h : Filled sb fs fs' i j b) : Frame sb fs fs' i :=
  ⟨h.inode, h.same, h.low, fun i' j' hi hne => h.kept i' j' hne fun hp => hi hp.1⟩

/-- The place of block `bn` of a file. -/
def place (bn : Nat) : Nat := if bn < NDIRECT then bn else NDIRECT + 1 + (bn - NDIRECT)

theorem place_ne : place bn ≠ NDIRECT := by
  unfold place
  split <;> omega

theorem place_inj {bn' : Nat} (h : place bn' = place bn) : bn' = bn := by
  unfold place at h
  split at h <;> split at h <;> omega

/-- Byte `k` of the file. -/
def byteAt (fs : Fs) (i k : Nat) : Byte :=
  fs.disk (addrAt fs i (place (k / BSIZE))) (k % BSIZE : Nat)

theorem Frame.byteAt_eq (h : Frame sb fs fs' i) {i' : Nat} (hi : i' ≠ i)
    (hne : addrAt fs i' (place (k / BSIZE)) ≠ 0) : byteAt fs' i' k = byteAt fs i' k := by
  simp only [byteAt, h.addrAt_eq hi, h.kept i' _ hi hne]

theorem Filled.byteAt_eq (h : Filled sb fs fs' i j b) (hne : addrAt fs i (place (k / BSIZE)) ≠ 0) :
    byteAt fs' i k = byteAt fs i k := by
  have hrest := h.rest i (place (k / BSIZE)) fun hp => hne (by rw [hp.2]; exact h.empty)
  simp only [byteAt, hrest, h.kept i _ hne fun hp => place_ne hp.2]

/-- Inode `i` has the first `nb` blocks of its file, and the table when one is there. -/
structure Holding (sb : Superblock) (fs : Fs) (i nb : Nat) : Prop where
  owned : Owned sb fs
  max : nb ≤ NDIRECT + NINDIRECT
  table : (fs.inode i).addr NDIRECT ≠ 0 ↔ NDIRECT < nb
  mapped : ∀ bn < NDIRECT + NINDIRECT, addrAt fs i (place bn) ≠ 0 ↔ bn < nb

theorem place_lt (h : bn < NDIRECT) : place bn = bn := by simp only [place, h, if_true]

theorem place_ge (h : NDIRECT ≤ bn) : place bn = NDIRECT + 1 + (bn - NDIRECT) := by
  simp only [place, Nat.not_lt.mpr h, if_false]

theorem Holding.ne_zero (h : Holding sb fs i nb) (hk : k < nb * BSIZE) :
    addrAt fs i (place (k / BSIZE)) ≠ 0 := by
  have hlt : k / BSIZE < nb := Nat.div_lt_of_lt_mul (by rwa [Nat.mul_comm])
  exact (h.mapped _ (hlt.trans_le h.max)).mpr hlt

/-- A block of the file is there: nothing is allocated. -/
theorem bmap_mapped (h : Holding sb fs i nb) (hbn : bn < nb) (hmax : bn < NDIRECT + NINDIRECT) :
    bmap sb fs i bn = some (fs, addrAt fs i (place bn)) := by
  have hne := (h.mapped bn hmax).mpr hbn
  unfold bmap
  split
  · next hlt =>
    rw [place_lt hlt, addrAt_le hlt.le] at hne
    rw [mapAddr, if_neg hne, place_lt hlt, addrAt_le hlt.le]
  · next hge =>
    have hle : NDIRECT ≤ bn := Nat.le_of_not_lt hge
    have hk : bn - NDIRECT < NINDIRECT := by omega
    have htable : (fs.inode i).addr NDIRECT ≠ 0 := h.table.mpr (by omega)
    rw [place_ge hle, addrAt_entry hk htable] at hne
    rw [if_pos hk, mapAddr, if_neg htable, Option.bind_some, mapEntry, if_neg hne, place_ge hle,
      addrAt_entry hk htable]

theorem mapAddr_spec (ho : Owned sb fs) (hj : j ≤ NDIRECT) (hempty : (fs.inode i).addr j = 0)
    (hrun : mapAddr sb fs i j = some (fs', b)) : Filled sb fs fs' i j b := by
  rw [mapAddr, if_pos hempty] at hrun
  obtain ⟨⟨fs₁, c⟩, halloc, heq⟩ := Option.map_eq_some_iff.mp hrun
  cases heq
  exact (balloc_spec ho halloc).setAddr ho hj hempty

theorem mapEntry_spec (ho : Owned sb fs) (hk : k < NINDIRECT)
    (htable : (fs.inode i).addr NDIRECT ≠ 0) (hempty : addrAt fs i (NDIRECT + 1 + k) = 0)
    (hrun : mapEntry sb fs ((fs.inode i).addr NDIRECT) k = some (fs', b)) :
    Filled sb fs fs' i (NDIRECT + 1 + k) b := by
  rw [addrAt_entry hk htable] at hempty
  rw [mapEntry, if_pos hempty] at hrun
  obtain ⟨⟨fs₁, c⟩, halloc, heq⟩ := Option.map_eq_some_iff.mp hrun
  cases heq
  exact (balloc_spec ho halloc).setEntry ho hk htable hempty

/-- The place of the next block is filled. -/
theorem Filled.holding (h : Filled sb fs fs' i (place bn) b) (ho : Owned sb fs)
    (hmax : bn < NDIRECT + NINDIRECT) (htable : (fs.inode i).addr NDIRECT ≠ 0 ↔ NDIRECT < bn + 1)
    (hmapped : ∀ bn' < NDIRECT + NINDIRECT, addrAt fs i (place bn') ≠ 0 ↔ bn' < bn) :
    Holding sb fs' i (bn + 1) where
  owned := h.owned ho
  max := hmax
  table := by
    rw [← addrAt_le (le_refl _), h.rest i NDIRECT fun hp => place_ne hp.2.symm,
      addrAt_le (le_refl _)]
    exact htable
  mapped := by
    intro bn' hbn'
    by_cases heq : bn' = bn
    · subst heq
      rw [h.new]
      exact iff_of_true h.pos (Nat.lt_succ_self _)
    · rw [h.rest i _ fun hp => heq (place_inj hp.2), hmapped bn' hbn']
      omega

/-- The block after the last one is allocated, with the table where there is none. -/
theorem bmap_next (h : Holding sb fs i bn) (hmax : bn < NDIRECT + NINDIRECT)
    (hrun : bmap sb fs i bn = some (fs', b)) :
    Holding sb fs' i (bn + 1) ∧ Frame sb fs fs' i ∧ addrAt fs' i (place bn) = b ∧
      (∀ x : Int, 0 ≤ x → x < BSIZE → fs'.disk b x = 0) ∧
      ∀ k < bn * BSIZE, byteAt fs' i k = byteAt fs i k := by
  have hbyte (k : Nat) (hk : k < bn * BSIZE) : addrAt fs i (place (k / BSIZE)) ≠ 0 := h.ne_zero hk
  have hlast : addrAt fs i (place bn) = 0 := by
    by_contra hne
    exact Nat.lt_irrefl bn ((h.mapped bn hmax).mp hne)
  unfold bmap at hrun
  split at hrun
  · next hlt =>
    rw [place_lt hlt, addrAt_le hlt.le] at hlast
    have hfill := mapAddr_spec h.owned hlt.le hlast hrun
    rw [← place_lt hlt] at hfill
    refine ⟨hfill.holding h.owned hmax ?_ h.mapped, hfill.frame, hfill.new, hfill.zero, ?_⟩
    · rw [h.table]
      omega
    · exact fun k hk => hfill.byteAt_eq (hbyte k hk)
  · next hge =>
    have hle : NDIRECT ≤ bn := Nat.le_of_not_lt hge
    have hk : bn - NDIRECT < NINDIRECT := by omega
    rw [if_pos hk] at hrun
    obtain ⟨⟨fs₁, t⟩, htab, hent⟩ := Option.bind_eq_some_iff.mp hrun
    dsimp only at hent
    by_cases htable : (fs.inode i).addr NDIRECT = 0
    · have hfirst : bn = NDIRECT := by
        have hnot := h.table.not.mp (fun hne => hne htable)
        omega
      have hfill₁ := mapAddr_spec h.owned (le_refl _) htable htab
      have ho₁ := hfill₁.owned h.owned
      have htable₁ : (fs₁.inode i).addr NDIRECT = t := by rw [← addrAt_le (le_refl _), hfill₁.new]
      have hrest (bn' : Nat) : addrAt fs₁ i (place bn') = addrAt fs i (place bn') :=
        hfill₁.rest i _ fun hp => place_ne hp.2
      have hne₁ : (fs₁.inode i).addr NDIRECT ≠ 0 := htable₁ ▸ hfill₁.pos
      have hlast₁ : addrAt fs₁ i (NDIRECT + 1 + (bn - NDIRECT)) = 0 := by
        rw [← place_ge hle, hrest, hlast]
      rw [← htable₁] at hent
      have hfill₂ := mapEntry_spec ho₁ hk hne₁ hlast₁ hent
      rw [← place_ge hle] at hfill₂
      refine ⟨hfill₂.holding ho₁ hmax ?_ ?_, hfill₁.frame.trans hfill₂.frame, hfill₂.new,
        hfill₂.zero, ?_⟩
      · exact iff_of_true hne₁ (by omega)
      · intro bn' hbn'
        rw [hrest]
        exact h.mapped bn' hbn'
      · intro k hk
        have hb := hbyte k hk
        exact (hfill₂.byteAt_eq (by rwa [hrest])).trans (hfill₁.byteAt_eq hb)
    · rw [mapAddr, if_neg htable] at htab
      cases htab
      rw [place_ge hle] at hlast
      have hfill := mapEntry_spec h.owned hk htable hlast hent
      rw [← place_ge hle] at hfill
      refine ⟨hfill.holding h.owned hmax ?_ h.mapped, hfill.frame, hfill.new, hfill.zero, ?_⟩
      · have hmore := h.table.mp htable
        exact iff_of_true htable (by omega)
      · exact fun k hk => hfill.byteAt_eq (hbyte k hk)

end Map

end Cs3650.Xv6.Blocks
