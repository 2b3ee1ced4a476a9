import Cs3650.Lib.Memory
import Mathlib.Order.Interval.Set.Basic

/-!
# Footprints and 32-bit integers

`ChangedIn S m m'` says that the two memories differ inside `S` only; what is
read from addresses outside `S` is then the same in both.
-/

namespace Cs3650.Lib

def ChangedIn (S : Set Int) (m m' : Memory) : Prop := ∀ x, x ∉ S → m' x = m x

/-- The `n` addresses from `a` on. -/
def span (a : Int) (n : Nat) : Set Int := {x | a ≤ x ∧ x < a + n}

@[simp] theorem mem_span {a x : Int} {n : Nat} : x ∈ span a n ↔ a ≤ x ∧ x < a + n := Iff.rfl

theorem ChangedIn.refl (S : Set Int) (m : Memory) : ChangedIn S m m := fun _ _ => rfl

theorem ChangedIn.trans {S : Set Int} {m₁ m₂ m₃ : Memory} (h₁ : ChangedIn S m₁ m₂)
    (h₂ : ChangedIn S m₂ m₃) : ChangedIn S m₁ m₃ :=
  fun x hx => (h₂ x hx).trans (h₁ x hx)

theorem ChangedIn.mono {S T : Set Int} {m m' : Memory} (h : ChangedIn S m m')
    (hsub : ∀ x ∈ S, x ∈ T) : ChangedIn T m m' :=
  fun x hx => h x fun hs => hx (hsub x hs)

theorem changedIn_patch (m : Memory) (a : Int) (n : Nat) (f : Nat → Byte) :
    ChangedIn (span a n) m (patch m a n f) := by
  intro x hx
  apply patch_outside
  simp only [mem_span] at hx
  omega

theorem ChangedIn.load {S : Set Int} {m m' : Memory} (h : ChangedIn S m m') {a : Int} {w : Nat}
    (hout : ∀ x ∈ span a w, x ∉ S) : load m' a w = load m a w :=
  load_congr fun x hx hx' => h x (hout x ⟨hx, hx'⟩)

/-- The `int` at `a`. -/
@[irreducible] def int32 (m : Memory) (a : Int) : Int := (load m a 4 : Int).bmod (2 ^ 32)

/-- Store an `int`; what does not fit is cut off. -/
def setInt32 (m : Memory) (a v : Int) : Memory := store m a 4 (v % 2 ^ 32).toNat

theorem changedIn_setInt32 (m : Memory) (a v : Int) :
    ChangedIn (span a 4) m (setInt32 m a v) := by
  unfold setInt32 store
  exact changedIn_patch m a 4 _

theorem ChangedIn.int32 {S : Set Int} {m m' : Memory} (h : ChangedIn S m m') {a : Int}
    (hout : ∀ x ∈ span a 4, x ∉ S) : int32 m' a = int32 m a := by
  unfold Lib.int32
  rw [h.load hout]

@[simp] theorem int32_setInt32 (m : Memory) (a v : Int) :
    int32 (setInt32 m a v) a = v.bmod (2 ^ 32) := by
  unfold int32 setInt32
  have hv : ((v % 2 ^ 32).toNat : Int) = v % 2 ^ 32 := Int.toNat_of_nonneg (by omega)
  have hmod : ((v % 2 ^ 32).toNat % 256 ^ 4 : Nat) = (v % 2 ^ 32).toNat := by omega
  rw [load_store, hmod, hv]
  simp [Int.bmod]

theorem bmod_of_lt {v : Int} (h0 : 0 ≤ v) (h1 : v < 2 ^ 31) : v.bmod (2 ^ 32) = v := by
  rw [Int.bmod_def]
  omega

theorem int32_setInt32_of_lt (m : Memory) (a : Int) {v : Int} (h0 : 0 ≤ v) (h1 : v < 2 ^ 31) :
    int32 (setInt32 m a v) a = v := by
  rw [int32_setInt32, bmod_of_lt h0 h1]

theorem setInt32_self (m : Memory) (a : Int) : setInt32 m a (int32 m a) = m := by
  have hlt := load_lt m a 4
  have hload : (int32 m a % 2 ^ 32).toNat = load m a 4 := by
    unfold int32
    rw [Int.bmod_def]
    omega
  unfold setInt32
  rw [hload, store_load]

theorem int32_setInt32_ne (m : Memory) {a b v : Int} (h : b + 4 ≤ a ∨ a + 4 ≤ b) :
    int32 (setInt32 m a v) b = int32 m b := by
  apply (changedIn_setInt32 m a v).int32
  simp only [mem_span]
  omega

theorem int32_zero {m : Memory} {a : Int} (h : ∀ x ∈ span a 4, m x = 0) : int32 m a = 0 := by
  unfold int32
  rw [load_zero fun x hx hx' => h x ⟨hx, hx'⟩]
  rfl

theorem int32_range (m : Memory) (a : Int) : -2 ^ 31 ≤ int32 m a ∧ int32 m a < 2 ^ 31 := by
  unfold int32
  have hlt := load_lt m a 4
  rw [Int.bmod_def]
  omega

end Cs3650.Lib
