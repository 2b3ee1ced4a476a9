import Mathlib.Data.Nat.Basic
import Mathlib.Algebra.Order.Ring.Nat
import Mathlib.Tactic.Common
import Mathlib.Tactic.Ring

/-!
# Byte memory

Memory is a total map from integer addresses to bytes. Every primitive write
is a `patch`: it replaces the bytes of one contiguous range and leaves the
rest alone. Words are stored little endian.
-/

namespace Cs3650.Lib

abbrev Byte := BitVec 8
abbrev Memory := Int → Byte

/-- Replace the `n` bytes from `a` on; byte number `i` becomes `f i`. -/
def patch (m : Memory) (a : Int) (n : Nat) (f : Nat → Byte) : Memory :=
  fun x => if a ≤ x ∧ x < a + n then f (x - a).toNat else m x

/-- The little-endian number in the `w` bytes from `a` on. -/
def load (m : Memory) (a : Int) : Nat → Nat
  | 0 => 0
  | w + 1 => (m a).toNat + 256 * load m (a + 1) w

def store (m : Memory) (a : Int) (w v : Nat) : Memory :=
  patch m a w fun i => BitVec.ofNat 8 (v / 256 ^ i)

/-- `memset`. -/
def fill (m : Memory) (a : Int) (n : Nat) (b : Byte) : Memory := patch m a n fun _ => b

/-- `memcpy`. -/
def copy (m : Memory) (dst src : Int) (n : Nat) : Memory := patch m dst n fun i => m (src + i)

theorem patch_outside (m : Memory) (a : Int) (n : Nat) (f : Nat → Byte) {x : Int}
    (h : x < a ∨ a + n ≤ x) : patch m a n f x = m x := by
  unfold patch
  rw [if_neg (by omega)]

theorem patch_inside (m : Memory) (a : Int) (n : Nat) (f : Nat → Byte) {i : Nat} (h : i < n) :
    patch m a n f (a + i) = f i := by
  unfold patch
  rw [if_pos (by omega)]
  congr 1
  omega

theorem load_congr {m m' : Memory} {a : Int} {w : Nat}
    (h : ∀ x : Int, a ≤ x → x < a + w → m' x = m x) : load m' a w = load m a w := by
  induction w generalizing a with
  | zero => rfl
  | succ w ih =>
    simp only [load]
    rw [h a (by omega) (by omega), ih fun x hx hx' => h x (by omega) (by omega)]

theorem load_lt (m : Memory) (a : Int) (w : Nat) : load m a w < 256 ^ w := by
  induction w generalizing a with
  | zero => simp [load]
  | succ w ih =>
    have hb := (m a).isLt
    have hrest := ih (a + 1)
    simp only [load, pow_succ]
    omega

theorem load_patch_outside (m : Memory) (a : Int) (n : Nat) (f : Nat → Byte) {b : Int} {w : Nat}
    (h : b + w ≤ a ∨ a + n ≤ b) : load (patch m a n f) b w = load m b w :=
  load_congr fun x hx hx' => patch_outside m a n f (by omega)

theorem load_digits {m : Memory} {a : Int} {w v : Nat}
    (h : ∀ i < w, m (a + i) = BitVec.ofNat 8 (v / 256 ^ i)) : load m a w = v % 256 ^ w := by
  induction w generalizing a v with
  | zero => simp [load, Nat.mod_one]
  | succ w ih =>
    have h0 : m a = BitVec.ofNat 8 v := by simpa using h 0 (Nat.succ_pos w)
    have hrest : load m (a + 1) w = v / 256 % 256 ^ w := by
      apply ih
      intro i hi
      have hx : a + 1 + (i : Int) = a + ((i + 1 : Nat) : Int) := by
        push_cast
        ring
      rw [hx, h (i + 1) (by omega), Nat.div_div_eq_div_mul, pow_succ']
    have hsplit : v % (256 * 256 ^ w) = v % 256 + 256 * (v / 256 % 256 ^ w) := Nat.mod_mul
    have hpow : 256 ^ (w + 1) = 256 * 256 ^ w := pow_succ' 256 w
    rw [load, h0, hrest, BitVec.toNat_ofNat, hpow, hsplit]

theorem load_store (m : Memory) (a : Int) (w v : Nat) : load (store m a w v) a w = v % 256 ^ w :=
  load_digits fun _ hi => patch_inside m a w _ hi

theorem load_store_outside (m : Memory) (a : Int) (w v : Nat) {b : Int} {w' : Nat}
    (h : b + w' ≤ a ∨ a + w ≤ b) : load (store m a w v) b w' = load m b w' :=
  load_patch_outside m a w _ h

theorem digit_load (m : Memory) (a : Int) {w i : Nat} (h : i < w) :
    BitVec.ofNat 8 (load m a w / 256 ^ i) = m (a + i) := by
  induction w generalizing a i with
  | zero => exact absurd h (Nat.not_lt_zero i)
  | succ w ih =>
    have hb := (m a).isLt
    cases i with
    | zero =>
      apply BitVec.eq_of_toNat_eq
      simp only [load, BitVec.toNat_ofNat, Nat.pow_zero, Nat.div_one, Nat.cast_zero, Int.add_zero]
      omega
    | succ i =>
      have hdiv : load m a (w + 1) / 256 ^ (i + 1) = load m (a + 1) w / 256 ^ i := by
        have hrest : load m a (w + 1) / 256 = load m (a + 1) w := by
          simp only [load]
          omega
        rw [pow_succ', ← Nat.div_div_eq_div_mul, hrest]
      have hx : a + 1 + (i : Int) = a + ((i + 1 : Nat) : Int) := by
        push_cast
        ring
      rw [hdiv, ih (a + 1) (Nat.lt_of_succ_lt_succ h), hx]

/-- Writing back what was read changes nothing. -/
theorem store_load (m : Memory) (a : Int) (w : Nat) : store m a w (load m a w) = m := by
  funext x
  unfold store patch
  by_cases hx : a ≤ x ∧ x < a + w
  · have hi : (x - a).toNat < w := by omega
    have hback : a + ((x - a).toNat : Int) = x := by omega
    rw [if_pos hx]
    exact (digit_load m a hi).trans (by rw [hback])
  · rw [if_neg hx]

theorem load_zero {m : Memory} {a : Int} {w : Nat}
    (h : ∀ x : Int, a ≤ x → x < a + w → m x = 0) : load m a w = 0 := by
  have hz : load m a w = 0 % 256 ^ w := load_digits fun i hi => by
    rw [h (a + i) (by omega) (by omega)]
    simp
  simpa using hz

/-- The 64-bit word at `p`. -/
@[irreducible] def word (m : Memory) (p : Nat) : Nat := load m p 8

def setWord (m : Memory) (p v : Nat) : Memory := store m p 8 v

theorem word_lt (m : Memory) (p : Nat) : word m p < 2 ^ 64 := by
  unfold word
  exact load_lt m p 8

@[simp] theorem word_setWord (m : Memory) (p v : Nat) : word (setWord m p v) p = v % 2 ^ 64 := by
  unfold word setWord
  exact load_store m p 8 v

theorem word_setWord_of_lt (m : Memory) {p v : Nat} (h : v < 2 ^ 64) :
    word (setWord m p v) p = v := by
  rw [word_setWord, Nat.mod_eq_of_lt h]

theorem word_setWord_ne (m : Memory) (p v : Nat) {q : Nat} (h : q + 8 ≤ p ∨ p + 8 ≤ q) :
    word (setWord m p v) q = word m q := by
  unfold word setWord
  exact load_store_outside m p 8 v (by omega)

end Cs3650.Lib
