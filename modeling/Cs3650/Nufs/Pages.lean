import Cs3650.Lib.Footprint

/-!
# Bitmaps and pages (hw10/starter-fshw/bitmap.c, pages.c)

Addresses are relative to `pages_base`. The image is the 256 pages from 0 on;
the page bitmap lies at 0, the inode bitmap at 32. A number that names no page
is multiplied out like any other, and what lies at that address of the process
is read or written.
-/

namespace Cs3650.Nufs

open Cs3650.Lib

abbrev Image := Memory

def PAGE_COUNT : Nat := 256
def NUFS_SIZE : Nat := 4096 * 256

/-- A negative number shifts by a negative count, which C leaves undefined; the
count is 0 here. -/
def bitmapGet (m : Image) (bm blockNum : Int) : Int :=
  let macro' := blockNum.tdiv 8
  let index := (blockNum.tmod 8).toNat
  let letter := m (bm + macro')
  (((letter >>> index) &&& 1).toNat : Int)

def bitmapSet (m : Image) (bm blockNum val : Int) : Image :=
  let macro' := blockNum.tdiv 8
  let index := (blockNum.tmod 8).toNat
  let letter := m (bm + macro')
  let clearMask : Byte := ~~~((1 : Byte) <<< index)
  let cleared := letter &&& clearMask
  let setMask : Byte := (if val ≠ 0 then 1 else 0 : Byte) <<< index
  fill m (bm + macro') 1 (cleared ||| setMask)

def pagesGetPage (pnum : Int) : Int := 4096 * pnum

def getPagesBitmap : Int := 0
def getInodeBitmap : Int := 32
def getInodeBase : Int := getInodeBitmap + 32

/-- `pages_init` for a new file, which `ftruncate` fills with zeros. -/
def pagesInit (m : Image) : Image :=
  bitmapSet (bitmapSet (fill m 0 NUFS_SIZE 0) getPagesBitmap 0 1) getPagesBitmap 1 1

/-- The lowest number whose bit is clear. -/
def firstClear (m : Image) (bm : Int) (count : Nat) : Option Nat :=
  (List.range count).find? fun i => bitmapGet m bm i == 0

def allocPage (m : Image) : Image × Int :=
  match firstClear m getPagesBitmap PAGE_COUNT with
  | some i => (bitmapSet m getPagesBitmap i 1, i)
  | none => (m, -1)

def freePage (m : Image) (pnum : Int) : Image := bitmapSet m getPagesBitmap pnum 0

/-! ## Bits -/

/-- Bit `i` of the bitmap at `bm`. -/
def bit (m : Image) (bm : Int) (i : Nat) : Bool := (m (bm + (i / 8 : Nat))).getLsbD (i % 8)

theorem bit_byte (m : Image) (bm : Int) (k : Nat) {j : Nat} (hj : j < 8) :
    bit m bm (8 * k + j) = (m (bm + k)).getLsbD j := by
  have hquot : (8 * k + j) / 8 = k := by omega
  have hrem : (8 * k + j) % 8 = j := by omega
  rw [bit, hquot, hrem]

/-- With the first two bits set. -/
theorem two_le_of_clear {m : Image} {bm : Int} {p : Nat} (h0 : bit m bm 0 = true)
    (h1 : bit m bm 1 = true) (hclear : bit m bm p = false) : 2 ≤ p := by
  by_contra hlt
  have hp : p = 0 ∨ p = 1 := by omega
  rcases hp with rfl | rfl
  · rw [h0] at hclear
    cases hclear
  · rw [h1] at hclear
    cases hclear

theorem bitmapGet_eq (m : Image) (bm : Int) (i : Nat) :
    bitmapGet m bm i = if bit m bm i then 1 else 0 := by
  unfold bitmapGet bit
  have hquot : ((i : Int).tdiv 8) = ((i / 8 : Nat) : Int) := rfl
  have hindex : ((i : Int).tmod 8).toNat = i % 8 := rfl
  dsimp only
  rw [hquot, hindex]
  generalize m (bm + ((i / 8 : Nat) : Int)) = letter
  have hlt : i % 8 < 8 := Nat.mod_lt _ (by decide)
  generalize i % 8 = k at hlt
  have hand : (letter >>> k &&& 1) = if letter.getLsbD k then 1 else 0 := by
    apply BitVec.eq_of_getLsbD_eq
    intro j hj
    cases j with
    | zero => by_cases h : letter.getLsbD k <;> simp [h]
    | succ j => by_cases h : letter.getLsbD k <;> simp [h, BitVec.getLsbD_one]
  rw [hand]
  by_cases h : letter.getLsbD k <;> simp [h]

theorem changedIn_bitmapSet (m : Image) (bm : Int) (i : Nat) (val : Int) :
    ChangedIn (span (bm + (i / 8 : Nat)) 1) m (bitmapSet m bm i val) := by
  unfold bitmapSet fill
  exact changedIn_patch m _ 1 _

theorem bitmapSet_byte (m : Image) (bm : Int) (i : Nat) (val : Int) :
    bitmapSet m bm i val (bm + (i / 8 : Nat)) =
      m (bm + (i / 8 : Nat)) &&& ~~~((1 : Byte) <<< (i % 8)) |||
        (if val ≠ 0 then 1 else 0 : Byte) <<< (i % 8) := by
  unfold bitmapSet fill
  have hquot : ((i : Int).tdiv 8) = ((i / 8 : Nat) : Int) := rfl
  have hindex : ((i : Int).tmod 8).toNat = i % 8 := rfl
  rw [hquot, hindex]
  have hpatch := patch_inside m (bm + ((i / 8 : Nat) : Int)) 1
    (fun _ => m (bm + ((i / 8 : Nat) : Int)) &&& ~~~((1 : Byte) <<< (i % 8)) |||
        (if val ≠ 0 then 1 else 0 : Byte) <<< (i % 8)) (Nat.zero_lt_one)
  simpa using hpatch

theorem getLsbD_setBit (letter : Byte) {k j : Nat} (hj : j < 8) (v : Bool) :
    (letter &&& ~~~((1 : Byte) <<< k) ||| (if v then 1 else 0 : Byte) <<< k).getLsbD j =
      if j = k then v else letter.getLsbD j := by
  have hone : ∀ n, (1 : Byte).getLsbD n = decide (n = 0) := fun n => by
    rw [show (1 : Byte) = 1#8 from rfl, BitVec.getLsbD_one]
    simp
  have hflag : ∀ n, (if v then (1 : Byte) else 0).getLsbD n = (v && decide (n = 0)) := fun n => by
    cases v with
    | false => simp
    | true => simp
  rw [BitVec.getLsbD_or, BitVec.getLsbD_and, BitVec.getLsbD_not, BitVec.getLsbD_shiftLeft,
    BitVec.getLsbD_shiftLeft, hone, hflag]
  by_cases hjk : j = k
  · subst hjk
    simp [hj]
  · rw [if_neg hjk]
    by_cases hlt : j < k
    · simp [hj, hlt]
    · have hpos : j - k ≠ 0 := by omega
      simp [hj, hpos]

@[simp] theorem bit_bitmapSet (m : Image) (bm : Int) (i : Nat) (val : Int) (j : Nat) :
    bit (bitmapSet m bm i val) bm j = if j = i then decide (val ≠ 0) else bit m bm j := by
  unfold bit
  by_cases hbyte : j / 8 = i / 8
  · have hflag : (if val ≠ 0 then (1 : Byte) else 0) = if decide (val ≠ 0) then 1 else 0 := by simp
    rw [hbyte, bitmapSet_byte, hflag, getLsbD_setBit _ (Nat.mod_lt j (by decide))]
    by_cases hji : j = i
    · rw [if_pos (by rw [hji]), if_pos hji]
    · rw [if_neg (by omega), if_neg hji]
  · have hji : j ≠ i := fun h => hbyte (by rw [h])
    have hout : bm + ((j / 8 : Nat) : Int) ∉ span (bm + ((i / 8 : Nat) : Int)) 1 := by
      simp only [mem_span]
      omega
    rw [if_neg hji, changedIn_bitmapSet m bm i val _ hout]

theorem bit_changedIn {S : Set Int} {m m' : Image} (h : ChangedIn S m m') {bm : Int} {i : Nat}
    (hout : bm + ((i / 8 : Nat) : Int) ∉ S) : bit m' bm i = bit m bm i := by
  unfold bit
  rw [h _ hout]

/-! ## Allocation -/

theorem firstClear_some {m : Image} {bm : Int} {count i : Nat}
    (h : firstClear m bm count = some i) :
    i < count ∧ bit m bm i = false ∧ ∀ j < i, bit m bm j = true := by
  unfold firstClear at h
  obtain ⟨hclear, hmem, hless⟩ := List.find?_range_eq_some.mp h
  simp only [bitmapGet_eq] at hclear hless
  refine ⟨List.mem_range.mp hmem, by simpa using hclear, fun j hj => by simpa using hless j hj⟩

theorem firstClear_none {m : Image} {bm : Int} {count : Nat} (h : firstClear m bm count = none) :
    ∀ i < count, bit m bm i = true := by
  intro i hi
  have hget := List.find?_eq_none.mp h i (List.mem_range.mpr hi)
  simpa [bitmapGet_eq] using hget

end Cs3650.Nufs
