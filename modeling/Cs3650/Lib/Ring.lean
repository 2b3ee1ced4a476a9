import Mathlib.Data.Nat.ModEq
import Mathlib.Logic.Function.Basic
import Mathlib.Tactic.Common

/-!
# Ring buffers with counters that wrap

An array of `N` cells with two counters modulo `W`, one for what was put in and
one for what was taken out. The counters are not reduced modulo `N`, so that an
empty buffer and a full one are told apart; `W` is a multiple of `N`.
-/

namespace Cs3650.Lib

variable {α : Type*} {N W r w : ℕ} {cells : ℕ → α} {q : List α} {x : α}

/-- What is between the counters, the oldest first. -/
def ringContents (N W : ℕ) (cells : ℕ → α) (r w : ℕ) : List α :=
  (List.range ((w + (W - r)) % W)).map fun i => cells ((r + i) % W % N)

/-- The buffer is the queue `q`. -/
structure RingHolds (N W : ℕ) (cells : ℕ → α) (r w : ℕ) (q : List α) : Prop where
  reader : r < W
  writer : w = (r + q.length) % W
  room : q.length ≤ N
  cell : ∀ i x, q[i]? = some x → cells ((r + i) % W % N) = x

namespace RingHolds

theorem nil (hW : 0 < W) : RingHolds N W cells 0 0 [] where
  reader := hW
  writer := (Nat.zero_mod W).symm
  room := Nat.zero_le N
  cell := fun i x hx => by simp at hx

/-- The number of elements from the counters. -/
theorem distance (h : RingHolds N W cells r w q) (hNW : N < W) : (w + (W - r)) % W = q.length := by
  have hr := h.reader
  have hroom := h.room
  rw [h.writer, Nat.mod_add_mod]
  have hsum : r + q.length + (W - r) = q.length + W := by omega
  rw [hsum, Nat.add_mod_right]
  exact Nat.mod_eq_of_lt (by omega)

theorem contents (h : RingHolds N W cells r w q) (hNW : N < W) :
    ringContents N W cells r w = q := by
  have hlen := h.distance hNW
  rw [ringContents, hlen]
  apply List.ext_getElem
  · simp
  · intro i hi hi'
    simp only [List.getElem_map, List.getElem_range]
    exact h.cell i _ (List.getElem?_eq_getElem hi')

/-- Different numbers of elements give different counters. -/
theorem counter_eq_iff (h : RingHolds N W cells r w q) (hNW : N < W) {n : ℕ} (hn : n ≤ N) :
    w = (r + n) % W ↔ q.length = n := by
  have hroom := h.room
  have hwriter := h.writer
  constructor
  · intro hw
    have hmod : r + q.length ≡ r + n [MOD W] := hwriter.symm.trans hw
    have hcancel : q.length ≡ n [MOD W] := Nat.ModEq.add_left_cancel' r hmod
    exact hcancel.eq_of_lt_of_lt (by omega) (by omega)
  · intro hlen
    rw [hwriter, hlen]

theorem empty_iff (h : RingHolds N W cells r w q) (hNW : N < W) : r = w ↔ q = [] := by
  have hr := h.reader
  have hcounter := h.counter_eq_iff hNW (Nat.zero_le N)
  rw [Nat.add_zero, Nat.mod_eq_of_lt hr] at hcounter
  rw [eq_comm, hcounter, List.length_eq_zero_iff]

theorem full_iff (h : RingHolds N W cells r w q) (hNW : N < W) : w = (r + N) % W ↔ q.length = N :=
  h.counter_eq_iff hNW (Nat.le_refl N)

theorem put (h : RingHolds N W cells r w q) (hd : N ∣ W) (hlt : q.length < N) :
    RingHolds N W (Function.update cells (w % N) x) r ((w + 1) % W) (q ++ [x]) where
  reader := h.reader
  writer := by
    rw [h.writer, Nat.mod_add_mod, List.length_append, List.length_singleton, Nat.add_assoc]
  room := by
    rw [List.length_append, List.length_singleton]
    exact hlt
  cell := by
    intro i y hy
    rw [h.writer, Nat.mod_mod_of_dvd _ hd, Nat.mod_mod_of_dvd _ hd]
    by_cases hi : i < q.length
    · have hne : (r + i) % N ≠ (r + q.length) % N := by
        intro heq
        have hcancel : i ≡ q.length [MOD N] := Nat.ModEq.add_left_cancel' r heq
        have hsame := hcancel.eq_of_lt_of_lt (by omega) hlt
        omega
      rw [Function.update_of_ne hne, ← Nat.mod_mod_of_dvd _ hd]
      rw [List.getElem?_append_left hi] at hy
      exact h.cell i y hy
    · have hlast : i = q.length := by
        have hlen := (List.getElem?_eq_some_iff.mp hy).1
        rw [List.length_append, List.length_singleton] at hlen
        omega
      rw [hlast, List.getElem?_append_right (Nat.le_refl _), Nat.sub_self] at hy
      rw [hlast, Function.update_self]
      exact Option.some.inj hy

theorem head (h : RingHolds N W cells r w (x :: q)) : cells (r % N) = x := by
  have hcell := h.cell 0 x rfl
  rwa [Nat.add_zero, Nat.mod_eq_of_lt h.reader] at hcell

theorem take (h : RingHolds N W cells r w (x :: q)) : RingHolds N W cells ((r + 1) % W) w q where
  reader := Nat.mod_lt _ (Nat.zero_lt_of_lt h.reader)
  writer := by
    rw [h.writer, Nat.mod_add_mod, List.length_cons]
    congr 1
    omega
  room := Nat.le_of_succ_le h.room
  cell := by
    intro i y hy
    have hcell := h.cell (i + 1) y hy
    rw [Nat.mod_add_mod]
    have hsum : r + (i + 1) = r + 1 + i := by omega
    rwa [hsum] at hcell

end RingHolds

end Cs3650.Lib
