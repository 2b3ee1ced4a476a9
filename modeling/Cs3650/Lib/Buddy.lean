import Cs3650.Lib.MaximalRuns

/-!
# Tilings by aligned blocks of powers of two

An arena of `2^n` bytes is cut by halving: every piece has a power of two as
its length, and its offset in the arena is a multiple of it. Halving a piece
and reordering the pieces keep a tiling.
-/

namespace Cs3650.Lib.Buddy

def block (k c : Nat) : Region := ⟨c, 2 ^ k⟩

/-- The piece lies in the arena at `a`, aligned to its own length. -/
structure AlignedIn (lo n a : Nat) (r : Region) : Prop where
  power : ∃ k, lo ≤ k ∧ k ≤ n ∧ r.len = 2 ^ k
  inside : a ≤ r.base ∧ r.stop ≤ a + 2 ^ n
  offset : (r.base - a) % r.len = 0

/-- The pieces tile the arenas; that they are disjoint is said elsewhere. -/
structure Tiling (lo n : Nat) (arenas : List Nat) (pieces : List Region) : Prop where
  aligned : ∀ r ∈ pieces, ∃ a ∈ arenas, AlignedIn lo n a r
  cover : ∀ a ∈ arenas, ∀ x, (block n a).Has x → Covered pieces x
  apart : arenas.Pairwise fun a b => (block n a).Apart (block n b)

/-- What halving and reordering make of a list of pieces. -/
inductive Halves (lo : Nat) : List Region → List Region → Prop
  | perm {P Q : List Region} (h : P.Perm Q) : Halves lo P Q
  | halve {k c : Nat} {P : List Region} (hk : lo ≤ k) :
    Halves lo (block (k + 1) c :: P) (block k c :: block k (c + 2 ^ k) :: P)
  | trans {P Q R : List Region} (h : Halves lo P Q) (h' : Halves lo Q R) : Halves lo P R

theorem Halves.refl {lo : Nat} (P : List Region) : Halves lo P P := .perm (List.Perm.refl P)

theorem Halves.append {lo : Nat} {P Q : List Region} (h : Halves lo P Q) (L : List Region) :
    Halves lo (P ++ L) (Q ++ L) := by
  induction h with
  | perm hp => exact .perm (hp.append_right L)
  | halve hk => exact .halve hk
  | trans _ _ ih ih' => exact ih.trans ih'

theorem has_halves {k c x : Nat} :
    (block (k + 1) c).Has x ↔ (block k c).Has x ∨ (block k (c + 2 ^ k)).Has x := by
  have hdouble : 2 ^ (k + 1) = 2 ^ k + 2 ^ k := by
    rw [Nat.pow_succ]
    omega
  unfold Region.Has Region.stop block
  dsimp only
  omega

theorem AlignedIn.halve {lo n a k c : Nat} (hk : lo ≤ k) (h : AlignedIn lo n a (block (k + 1) c)) :
    AlignedIn lo n a (block k c) ∧ AlignedIn lo n a (block k (c + 2 ^ k)) := by
  obtain ⟨⟨j, -, hj, hlen⟩, ⟨hbase, hstop⟩, hoffset⟩ := h
  have hjk : k + 1 = j := Nat.pow_right_injective (Nat.le_refl 2) hlen
  have hdouble : 2 ^ (k + 1) = 2 * 2 ^ k := by
    rw [Nat.pow_succ]
    omega
  unfold Region.stop block at *
  dsimp only at *
  rw [hdouble] at hstop hoffset
  obtain ⟨q, hq⟩ := Nat.dvd_of_mod_eq_zero hoffset
  have hleft : (c - a) % 2 ^ k = 0 := by
    rw [hq, Nat.mul_assoc, Nat.mul_left_comm, Nat.mul_mod_right]
  have hright : (c + 2 ^ k - a) % 2 ^ k = 0 := by
    rw [show c + 2 ^ k - a = c - a + 2 ^ k by omega, Nat.add_mod_right, hleft]
  exact ⟨⟨⟨k, hk, by omega, rfl⟩, ⟨hbase, by unfold Region.stop; dsimp only; omega⟩, hleft⟩,
    ⟨⟨k, hk, by omega, rfl⟩, ⟨by dsimp only; omega, by unfold Region.stop; dsimp only; omega⟩,
      hright⟩⟩

/-! ## Halving the lower half again and again -/

/-- What is left when the piece of rank `lo + i + d` is halved down to rank
`lo + i`: the lowest piece, and the upper half of every cut. -/
def ladder (lo c i d : Nat) : List Region :=
  block (lo + i) c :: (List.range' i d).map fun j => block (lo + j) (c + 2 ^ (lo + j))

theorem ladder_succ (lo c i d : Nat) :
    ladder lo c i (d + 1) = block (lo + i) c :: block (lo + i) (c + 2 ^ (lo + i)) ::
      (List.range' (i + 1) d).map fun j => block (lo + j) (c + 2 ^ (lo + j)) := by
  rw [ladder, List.range'_succ, List.map_cons]

theorem length_ladder (lo c i d : Nat) : (ladder lo c i d).length = d + 1 := by
  simp [ladder]

theorem covered_ladder (lo c i d x : Nat) :
    Covered (ladder lo c i d) x ↔ (block (lo + i + d) c).Has x := by
  induction d generalizing i with
  | zero => simp [ladder, Covered]
  | succ d ih =>
    rw [ladder_succ, covered_cons, covered_cons, ← or_assoc, ← has_halves, ← covered_cons]
    have hrest := ih (i + 1)
    rw [ladder] at hrest
    rw [show lo + i + (d + 1) = lo + (i + 1) + d by omega]
    exact hrest

theorem ladder_apart (lo c i d : Nat) : (ladder lo c i d).Pairwise Region.Apart := by
  induction d generalizing i with
  | zero => exact List.pairwise_singleton _ _
  | succ d ih =>
    have hdouble : 2 ^ (lo + (i + 1)) = 2 ^ (lo + i) + 2 ^ (lo + i) := by
      rw [← Nat.add_assoc, Nat.pow_succ]
      omega
    have hrest := ih (i + 1)
    rw [ladder] at hrest
    rw [ladder_succ]
    generalize hlow : 2 ^ (lo + i) = n at hdouble
    refine Region.apart_split hrest ?_ ?_ (Or.inl ?_)
    · unfold Region.Within Region.stop block
      dsimp only
      omega
    · unfold Region.Within Region.stop block
      dsimp only
      omega
    · unfold Region.stop block
      dsimp only
      omega

namespace Tiling

variable {lo n : Nat} {arenas : List Nat} {P Q : List Region}

theorem perm (h : Tiling lo n arenas P) (hp : P.Perm Q) : Tiling lo n arenas Q where
  aligned := fun r hr => h.aligned r (hp.mem_iff.mpr hr)
  cover := fun a ha x hx => by
    obtain ⟨r, hr, hrx⟩ := h.cover a ha x hx
    exact ⟨r, hp.mem_iff.mp hr, hrx⟩
  apart := h.apart

theorem halve {k c : Nat} (hk : lo ≤ k) (h : Tiling lo n arenas (block (k + 1) c :: P)) :
    Tiling lo n arenas (block k c :: block k (c + 2 ^ k) :: P) := by
  obtain ⟨a, ha, haligned⟩ := h.aligned _ List.mem_cons_self
  obtain ⟨hleft, hright⟩ := haligned.halve hk
  refine ⟨fun r hr => ?_, fun b hb x hx => ?_, h.apart⟩
  · rcases List.mem_cons.mp hr with rfl | hr
    · exact ⟨a, ha, hleft⟩
    · rcases List.mem_cons.mp hr with rfl | hr
      · exact ⟨a, ha, hright⟩
      · exact h.aligned r (List.mem_cons_of_mem _ hr)
  · have hcov := h.cover b hb x hx
    rw [covered_cons, has_halves, or_assoc] at hcov
    rw [covered_cons, covered_cons]
    exact hcov

theorem halves (h : Tiling lo n arenas P) (hPQ : Halves lo P Q) : Tiling lo n arenas Q := by
  induction hPQ with
  | perm hp => exact h.perm hp
  | halve hk => exact h.halve hk
  | trans _ _ ih ih' => exact ih' (ih h)

theorem arena (hlo : lo ≤ n) (h : Tiling lo n arenas P) {a : Nat}
    (ha : ∀ r ∈ P, (block n a).Apart r) : Tiling lo n (a :: arenas) (block n a :: P) := by
  refine ⟨fun r hr => ?_, fun b hb x hx => ?_, List.pairwise_cons.mpr ⟨fun b hb => ?_, h.apart⟩⟩
  · rcases List.mem_cons.mp hr with rfl | hr
    · refine ⟨a, List.mem_cons_self, ⟨n, hlo, Nat.le_refl n, rfl⟩,
        ⟨Nat.le_refl a, Nat.le_refl _⟩, ?_⟩
      show (a - a) % 2 ^ n = 0
      rw [Nat.sub_self, Nat.zero_mod]
    · obtain ⟨b, hb, hbr⟩ := h.aligned r hr
      exact ⟨b, List.mem_cons_of_mem _ hb, hbr⟩
  · rw [covered_cons]
    rcases List.mem_cons.mp hb with rfl | hb
    · exact Or.inl hx
    · exact Or.inr (h.cover b hb x hx)
  · -- an address in both arenas would be in a piece of the old one
    apply by_contra
    intro hnot
    have hpos : 0 < 2 ^ n := Nat.two_pow_pos n
    have hx : ∃ x, (block n a).Has x ∧ (block n b).Has x := by
      refine ⟨max a b, ?_⟩
      unfold Region.Apart Region.stop block at hnot
      unfold Region.Has Region.stop block
      dsimp only at hnot ⊢
      omega
    obtain ⟨x, hxa, hxb⟩ := hx
    obtain ⟨r, hr, hrx⟩ := h.cover b hb x hxb
    have hapart := ha r hr
    unfold Region.Apart at hapart
    unfold Region.Has at hxa hrx
    omega

theorem nil : Tiling lo n [] [] :=
  ⟨by simp, by simp, List.Pairwise.nil⟩

end Tiling

end Cs3650.Lib.Buddy
