import Cs3650.Lib.Memory
import Mathlib.Data.List.Perm.Basic

/-!
# Disjoint regions of memory

A region is a base address and a length. A collection of regions that lie
pairwise apart stays so when one of them is cut in two, when two that touch are
joined, and when one is taken out; a memory that changes only inside some
regions keeps every word of a region apart from them.
-/

namespace Cs3650.Lib

structure Region where
  base : Nat
  len : Nat
  deriving DecidableEq, Repr

namespace Region

/-- First address behind the region. -/
def stop (r : Region) : Nat := r.base + r.len

def Contains (r : Region) (x : Int) : Prop := (r.base : Int) ≤ x ∧ x < r.stop

instance (r : Region) (x : Int) : Decidable (r.Contains x) :=
  inferInstanceAs (Decidable ((r.base : Int) ≤ x ∧ x < r.stop))

/-- The two regions have no address in common. -/
def Apart (r s : Region) : Prop := r.stop ≤ s.base ∨ s.stop ≤ r.base

instance (r s : Region) : Decidable (Apart r s) :=
  inferInstanceAs (Decidable (r.stop ≤ s.base ∨ s.stop ≤ r.base))

def Within (r s : Region) : Prop := s.base ≤ r.base ∧ r.stop ≤ s.stop

theorem Apart.symm {r s : Region} (h : Apart r s) : Apart s r := Or.symm h

theorem Apart.within {r s t : Region} (h : Apart r s) (ht : Within t s) : Apart r t := by
  unfold Apart Within at *
  omega

theorem Apart.not_contains {r s : Region} (h : Apart r s) {x : Int} (hx : s.Contains x) :
    ¬ r.Contains x := by
  unfold Apart Contains at *
  omega

theorem apart_perm {L L' : List Region} (hp : L.Perm L') (h : L.Pairwise Apart) :
    L'.Pairwise Apart :=
  hp.pairwise h fun hrs => hrs.symm

theorem apart_cons {r : Region} {L : List Region} (h : (r :: L).Pairwise Apart) :
    ∀ s ∈ L, Apart r s := (List.pairwise_cons.mp h).1

theorem apart_split {r s t : Region} {L : List Region} (h : (r :: L).Pairwise Apart)
    (hs : Within s r) (ht : Within t r) (hst : Apart s t) : (s :: t :: L).Pairwise Apart := by
  obtain ⟨hr, hL⟩ := List.pairwise_cons.mp h
  have hpart : ∀ u, Within u r → ∀ v ∈ L, Apart u v := fun u hu v hv =>
    ((hr v hv).symm.within hu).symm
  refine List.pairwise_cons.mpr ⟨?_, List.pairwise_cons.mpr ⟨hpart t ht, hL⟩⟩
  intro v hv
  rcases List.mem_cons.mp hv with rfl | hv
  · exact hst
  · exact hpart s hs v hv

end Region

/-- Nothing but bytes of the given regions has changed. -/
def UnchangedOff (L : List Region) (m m' : Memory) : Prop :=
  ∀ x : Int, (∀ r ∈ L, ¬ r.Contains x) → m' x = m x

theorem UnchangedOff.refl (L : List Region) (m : Memory) : UnchangedOff L m m := fun _ _ => rfl

theorem UnchangedOff.trans {L : List Region} {m₁ m₂ m₃ : Memory} (h₁ : UnchangedOff L m₁ m₂)
    (h₂ : UnchangedOff L m₂ m₃) : UnchangedOff L m₁ m₃ :=
  fun x hx => (h₂ x hx).trans (h₁ x hx)

/-- The address lies in one of the regions. -/
def Covers (L : List Region) (x : Int) : Prop := ∃ s ∈ L, s.Contains x

theorem UnchangedOff.cover {L L' : List Region} {m m' : Memory} (h : UnchangedOff L m m')
    (hsub : ∀ r ∈ L, ∀ x, r.Contains x → Covers L' x) : UnchangedOff L' m m' := by
  intro x hx
  apply h
  intro r hr hc
  obtain ⟨s, hs, hsc⟩ := hsub r hr x hc
  exact hx s hs hsc

theorem UnchangedOff.mono {L L' : List Region} {m m' : Memory} (h : UnchangedOff L m m')
    (hsub : ∀ r ∈ L, ∃ s ∈ L', r.Within s) : UnchangedOff L' m m' := by
  apply h.cover
  intro r hr x hx
  obtain ⟨s, hs, hw⟩ := hsub r hr
  refine ⟨s, hs, ?_⟩
  unfold Region.Within Region.Contains at *
  omega

theorem covers_join {L : List Region} (r s : Region) (hr : ∀ x, r.Contains x → Covers L x)
    (hs : ∀ x, s.Contains x → Covers L x) (htouch : r.stop = s.base) (x : Int)
    (hx : Region.Contains ⟨r.base, r.len + s.len⟩ x) : Covers L x := by
  unfold Region.Contains Region.stop at *
  dsimp only at hx
  by_cases hlt : x < ((r.base + r.len : Nat) : Int)
  · exact hr x ⟨hx.1, hlt⟩
  · exact hs x (by omega)

theorem unchangedOff_patch (m : Memory) {a n : Nat} (f : Nat → Byte) {r : Region} (ha : r.base ≤ a)
    (hn : a + n ≤ r.stop) : UnchangedOff [r] m (patch m a n f) := by
  intro x hx
  have hr := hx r (List.mem_singleton_self r)
  apply patch_outside
  unfold Region.Contains at hr
  omega

theorem unchangedOff_setWord (m : Memory) {p : Nat} (v : Nat) {r : Region} (h1 : r.base ≤ p)
    (h2 : p + 8 ≤ r.stop) : UnchangedOff [r] m (setWord m p v) := by
  unfold setWord store
  exact unchangedOff_patch m _ h1 h2

theorem UnchangedOff.apply {L : List Region} {m m' : Memory} (h : UnchangedOff L m m')
    {s : Region} (hs : ∀ r ∈ L, r.Apart s) {x : Int} (hx : s.Contains x) : m' x = m x :=
  h x fun r hr => (hs r hr).not_contains hx

theorem UnchangedOff.load {L : List Region} {m m' : Memory} (h : UnchangedOff L m m')
    {s : Region} (hs : ∀ r ∈ L, r.Apart s) {a w : Nat} (ha : s.base ≤ a) (hw : a + w ≤ s.stop) :
    load m' a w = load m a w := by
  apply load_congr
  intro x hx hx'
  apply h.apply hs
  unfold Region.Contains
  omega

theorem UnchangedOff.word {L : List Region} {m m' : Memory} (h : UnchangedOff L m m')
    {s : Region} (hs : ∀ r ∈ L, r.Apart s) {a : Nat} (ha : s.base ≤ a) (hw : a + 8 ≤ s.stop) :
    word m' a = word m a := by
  unfold Lib.word
  exact h.load hs ha hw

end Cs3650.Lib
