import Mathlib.Data.Finset.Card
import Mathlib.Data.Finset.Filter
import Mathlib.Tactic.Common

/-!
# Reference counts

A table says for each slot which object it refers to, if any. A count kept
beside the objects is right while it is the number of slots that refer to the
object, and the table is safe while it refers to live objects only.
-/

namespace Cs3650.Lib

variable {σ ι : Type} [DecidableEq ι]

def holders (S : Finset σ) (t : σ → Option ι) (i : ι) : Finset σ := S.filter fun s => t s = some i

theorem mem_holders {S : Finset σ} {t : σ → Option ι} {i : ι} {s : σ} :
    s ∈ holders S t i ↔ s ∈ S ∧ t s = some i := Finset.mem_filter

theorem holders_congr {S : Finset σ} {t t' : σ → Option ι} (h : ∀ s ∈ S, t' s = t s) (i : ι) :
    holders S t' i = holders S t i :=
  Finset.filter_congr fun s hs => by rw [h s hs]

section

variable [DecidableEq σ] {S : Finset σ} {t t' : σ → Option ι} {s : σ} {i : ι}

theorem holders_link (hs : s ∈ S) (hset : t' s = some i) (hother : ∀ r ∈ S, r ≠ s → t' r = t r) :
    holders S t' i = insert s (holders S t i) := by
  ext r
  simp only [Finset.mem_insert, mem_holders]
  by_cases hr : r = s
  · subst hr
    simp [hs, hset]
  · constructor
    · rintro ⟨hrS, hri⟩
      rw [hother r hrS hr] at hri
      exact Or.inr ⟨hrS, hri⟩
    · rintro (heq | ⟨hrS, hri⟩)
      · exact absurd heq hr
      · rw [← hother r hrS hr] at hri
        exact ⟨hrS, hri⟩

theorem holders_unlink (hclear : t' s = none) (hother : ∀ r ∈ S, r ≠ s → t' r = t r) :
    holders S t' i = (holders S t i).erase s := by
  ext r
  simp only [Finset.mem_erase, mem_holders]
  by_cases hr : r = s
  · subst hr
    simp [hclear]
  · constructor
    · rintro ⟨hrS, hri⟩
      rw [hother r hrS hr] at hri
      exact ⟨hr, hrS, hri⟩
    · rintro ⟨-, hrS, hri⟩
      rw [← hother r hrS hr] at hri
      exact ⟨hrS, hri⟩

end

structure RefCounted (S : Finset σ) (live : Set ι) (t : σ → Option ι) (refs : ι → Int) : Prop where
  exact : ∀ i ∈ live, refs i = (holders S t i).card
  safe : ∀ s ∈ S, ∀ i, t s = some i → i ∈ live

namespace RefCounted

variable {S : Finset σ} {live : Set ι} {t t' : σ → Option ι} {refs refs' : ι → Int} {i : ι}

theorem bounds (h : RefCounted S live t refs) (hi : i ∈ live) : 0 ≤ refs i ∧ refs i ≤ S.card := by
  rw [h.exact i hi]
  have hle : (holders S t i).card ≤ S.card := Finset.card_filter_le _ _
  omega

theorem congr (h : RefCounted S live t refs) (ht : ∀ s ∈ S, t' s = t s)
    (hrefs : ∀ j ∈ live, refs' j = refs j) : RefCounted S live t' refs' where
  exact j hj := by rw [hrefs j hj, h.exact j hj, holders_congr ht]
  safe s hs j hsj := h.safe s hs j (by rw [← ht s hs, hsj])

theorem create (h : RefCounted S live t refs) (hi : i ∉ live) (ht : ∀ s ∈ S, t' s = t s)
    (hzero : refs' i = 0) (hother : ∀ j ∈ live, refs' j = refs j) :
    RefCounted S (insert i live) t' refs' := by
  constructor
  · intro j hj
    rw [holders_congr ht]
    rcases Set.mem_insert_iff.mp hj with rfl | hj
    · have hnone : holders S t j = ∅ := by
        apply Finset.eq_empty_of_forall_notMem
        intro s hs
        obtain ⟨hsS, hsj⟩ := mem_holders.mp hs
        exact hi (h.safe s hsS j hsj)
      rw [hzero, hnone]
      rfl
    · rw [hother j hj, h.exact j hj]
  · intro s hs j hsj
    rw [ht s hs] at hsj
    exact Set.mem_insert_of_mem i (h.safe s hs j hsj)

variable [DecidableEq σ] {s : σ}

theorem link (h : RefCounted S live t refs) (hs : s ∈ S) (hfree : t s = none) (hi : i ∈ live)
    (hset : t' s = some i) (hother : ∀ r ∈ S, r ≠ s → t' r = t r) (hinc : refs' i = refs i + 1)
    (hrefs : ∀ j ∈ live, j ≠ i → refs' j = refs j) : RefCounted S live t' refs' := by
  constructor
  · intro j hj
    have hcount := h.exact j hj
    by_cases hji : j = i
    · subst hji
      have hnew : s ∉ holders S t j := fun hmem => by
        have hsome := (mem_holders.mp hmem).2
        rw [hfree] at hsome
        cases hsome
      rw [hinc, holders_link hs hset hother, Finset.card_insert_of_notMem hnew]
      omega
    · have hsame : holders S t' j = holders S t j := by
        apply Finset.filter_congr
        intro r hr
        by_cases hrs : r = s
        · subst hrs
          simp [hset, hfree, Ne.symm hji]
        · rw [hother r hr hrs]
      rw [hrefs j hj hji, hsame, hcount]
  · intro r hr j hrj
    by_cases hrs : r = s
    · subst hrs
      rw [hset, Option.some.injEq] at hrj
      exact hrj ▸ hi
    · rw [hother r hr hrs] at hrj
      exact h.safe r hr j hrj

/-- The object dies with the slot when its count was 1. -/
theorem unlink (h : RefCounted S live t refs) (hs : s ∈ S) (hi : t s = some i)
    (hclear : t' s = none) (hother : ∀ r ∈ S, r ≠ s → t' r = t r)
    (hdec : refs i ≠ 1 → refs' i = refs i - 1) (hrefs : ∀ j ∈ live, j ≠ i → refs' j = refs j) :
    RefCounted S {j | j ∈ live ∧ (j = i → refs i ≠ 1)} t' refs' := by
  have hheld : s ∈ holders S t i := mem_holders.mpr ⟨hs, hi⟩
  have hcount := h.exact i (h.safe s hs i hi)
  constructor
  · rintro j ⟨hj, hmore⟩
    rw [holders_unlink hclear hother]
    by_cases hji : j = i
    · subst hji
      have hpos : 0 < (holders S t j).card := Finset.card_pos.mpr ⟨s, hheld⟩
      rw [hdec (hmore rfl), Finset.card_erase_of_mem hheld]
      omega
    · have hnot : s ∉ holders S t j := fun hmem => by
        have hsome := (mem_holders.mp hmem).2
        rw [hi, Option.some.injEq] at hsome
        exact hji hsome.symm
      rw [Finset.erase_eq_of_notMem hnot, hrefs j hj hji, h.exact j hj]
  · intro r hr j hrj
    have hrs : r ≠ s := fun heq => by
      rw [heq, hclear] at hrj
      cases hrj
    rw [hother r hr hrs] at hrj
    refine ⟨h.safe r hr j hrj, fun hji hone => ?_⟩
    -- a second slot would make the count 2
    subst hji
    have hboth : 1 < (holders S t j).card :=
      Finset.one_lt_card.mpr ⟨r, mem_holders.mpr ⟨hr, hrj⟩, s, hheld, hrs⟩
    omega

theorem last_iff (h : RefCounted S live t refs) (hs : s ∈ S) (hi : t s = some i)
    (hclear : t' s = none) (hother : ∀ r ∈ S, r ≠ s → t' r = t r) :
    refs i = 1 ↔ holders S t' i = ∅ := by
  have hheld : s ∈ holders S t i := mem_holders.mpr ⟨hs, hi⟩
  have hpos : 0 < (holders S t i).card := Finset.card_pos.mpr ⟨s, hheld⟩
  rw [h.exact i (h.safe s hs i hi), holders_unlink hclear hother, ← Finset.card_eq_zero,
    Finset.card_erase_of_mem hheld]
  omega

end RefCounted

end Cs3650.Lib
