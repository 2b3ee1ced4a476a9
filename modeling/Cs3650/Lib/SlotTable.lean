import Mathlib.Data.Finmap
import Mathlib.Data.List.Nodup
import Mathlib.Tactic.Common

/-!
# Tables of slots

A table has slots, each of them free or with a key and a value. A lookup takes
the first slot with the key. As long as no key is in two slots the first `n`
slots represent a finite map: filling a free slot inserts, clearing one erases.
-/

namespace Cs3650.Lib

variable {κ ν : Type} [DecidableEq κ]

/-- What slot `i` says about the key. -/
def valueAt (t : Nat → Option (κ × ν)) (key : κ) (i : Nat) : Option ν :=
  (t i).bind fun e => if e.1 = key then some e.2 else none

/-- The value in the first of `n` slots with the key. -/
def firstValue (n : Nat) (t : Nat → Option (κ × ν)) (key : κ) : Option ν :=
  (List.range n).findSome? (valueAt t key)

/-- The keys in the first `n` slots, in order. -/
def slotKeys (n : Nat) (t : Nat → Option (κ × ν)) : List κ :=
  (List.range n).filterMap fun i => (t i).map Prod.fst

section

variable {n i : Nat} {t : Nat → Option (κ × ν)} {key : κ} {v : ν}

theorem valueAt_some : valueAt t key i = some v ↔ t i = some (key, v) := by
  unfold valueAt
  cases h : t i with
  | none => simp
  | some e =>
    obtain ⟨k, w⟩ := e
    by_cases hk : k = key
    · simp [hk]
    · simp [hk]

theorem firstValue_none : firstValue n t key = none ↔ ∀ i < n, ∀ v, t i ≠ some (key, v) := by
  unfold firstValue
  rw [List.findSome?_eq_none_iff]
  constructor
  · intro h i hi v hv
    have hnone := h i (List.mem_range.mpr hi)
    rw [valueAt_some.mpr hv] at hnone
    cases hnone
  · intro h i hi
    cases hv : valueAt t key i with
    | none => rfl
    | some v => exact absurd (valueAt_some.mp hv) (h i (List.mem_range.mp hi) v)

theorem firstValue_mem (h : firstValue n t key = some v) : ∃ i < n, t i = some (key, v) := by
  obtain ⟨i, hi, hv⟩ := List.exists_of_findSome?_eq_some h
  exact ⟨i, List.mem_range.mp hi, valueAt_some.mp hv⟩

theorem firstValue_congr {t' : Nat → Option (κ × ν)}
    (h : ∀ i < n, ∀ v, t' i = some (key, v) ↔ t i = some (key, v)) :
    firstValue n t' key = firstValue n t key := by
  have hsame : ∀ i ∈ List.range n, valueAt t' key i = valueAt t key i := by
    intro i hi
    apply Option.ext
    intro v
    rw [valueAt_some, valueAt_some]
    exact h i (List.mem_range.mp hi) v
  unfold firstValue
  generalize List.range n = is at hsame
  induction is with
  | nil => rfl
  | cons i is ih =>
    rw [List.findSome?_cons, List.findSome?_cons, hsame i List.mem_cons_self,
      ih fun j hj => hsame j (List.mem_cons_of_mem i hj)]

theorem firstValue_first (hi : i < n) (hv : t i = some (key, v))
    (hless : ∀ j < i, ∀ w, t j ≠ some (key, w)) : firstValue n t key = some v := by
  induction n with
  | zero => exact absurd hi (Nat.not_lt_zero i)
  | succ n ih =>
    have hsucc : firstValue (n + 1) t key = (firstValue n t key).or (valueAt t key n) := by
      unfold firstValue
      rw [List.range_succ, List.findSome?_append, List.findSome?_singleton]
    rw [hsucc]
    rcases Nat.lt_or_eq_of_le (Nat.le_of_lt_succ hi) with hlt | rfl
    · rw [ih hlt, Option.some_or]
    · rw [firstValue_none.mpr hless, Option.none_or, valueAt_some.mpr hv]

/-- The slot that is filled or cleared has another key. -/
theorem firstValue_update {e : Option (κ × ν)} (hold : ∀ v, t i ≠ some (key, v))
    (hnew : ∀ v, e ≠ some (key, v)) :
    firstValue n (Function.update t i e) key = firstValue n t key := by
  apply firstValue_congr
  intro j _ v
  by_cases hj : j = i
  · subst hj
    rw [Function.update_self]
    exact ⟨fun h => absurd h (hnew v), fun h => absurd h (hold v)⟩
  · rw [Function.update_of_ne hj]

theorem firstValue_fill (hi : i < n) (habsent : ∀ j < n, ∀ w, t j ≠ some (key, w)) :
    firstValue n (Function.update t i (some (key, v))) key = some v := by
  cases h : firstValue n (Function.update t i (some (key, v))) key with
  | none =>
    have hnone := firstValue_none.mp h i hi v
    rw [Function.update_self] at hnone
    exact absurd rfl hnone
  | some w =>
    obtain ⟨j, hj, hw⟩ := firstValue_mem h
    by_cases hji : j = i
    · subst hji
      rw [Function.update_self] at hw
      simpa using hw.symm
    · rw [Function.update_of_ne hji] at hw
      exact absurd hw (habsent j hj w)

omit [DecidableEq κ] in
theorem mem_slotKeys : key ∈ slotKeys n t ↔ ∃ i < n, ∃ v, t i = some (key, v) := by
  unfold slotKeys
  rw [List.mem_filterMap]
  constructor
  · rintro ⟨i, hi, h⟩
    obtain ⟨⟨k, v⟩, hv, rfl⟩ := Option.map_eq_some_iff.mp h
    exact ⟨i, List.mem_range.mp hi, v, hv⟩
  · rintro ⟨i, hi, v, hv⟩
    exact ⟨i, List.mem_range.mpr hi, by rw [hv]; rfl⟩

end

/-! ## Finite maps -/

/-- The first `n` slots hold each key of the map once, with its value. -/
structure Represents (n : Nat) (t : Nat → Option (κ × ν)) (f : Finmap fun _ : κ => ν) : Prop where
  single : ∀ i < n, ∀ j < n, ∀ key v w, t i = some (key, v) → t j = some (key, w) → i = j
  lookup : ∀ key v, f.lookup key = some v ↔ ∃ i < n, t i = some (key, v)

namespace Represents

variable {n : Nat} {t : Nat → Option (κ × ν)} {f : Finmap fun _ : κ => ν}

theorem empty (h : ∀ i < n, t i = none) : Represents n t ∅ := by
  constructor
  · intro i hi j _ key v w hv
    rw [h i hi] at hv
    cases hv
  · intro key v
    rw [Finmap.lookup_empty]
    constructor
    · intro hv
      cases hv
    · rintro ⟨i, hi, hv⟩
      rw [h i hi] at hv
      cases hv

theorem congr {t' : Nat → Option (κ × ν)} (h : Represents n t f) (heq : ∀ i < n, t' i = t i) :
    Represents n t' f := by
  constructor
  · intro i hi j hj key v w hv hw
    rw [heq i hi] at hv
    rw [heq j hj] at hw
    exact h.single i hi j hj key v w hv hw
  · intro key v
    rw [h.lookup]
    constructor
    · rintro ⟨i, hi, hv⟩
      exact ⟨i, hi, by rw [heq i hi, hv]⟩
    · rintro ⟨i, hi, hv⟩
      exact ⟨i, hi, by rw [← heq i hi, hv]⟩

theorem mem_iff (h : Represents n t f) {key : κ} : key ∈ f ↔ ∃ i < n, ∃ v, t i = some (key, v) := by
  rw [Finmap.mem_iff]
  constructor
  · rintro ⟨v, hv⟩
    obtain ⟨i, hi, ht⟩ := (h.lookup key v).mp hv
    exact ⟨i, hi, v, ht⟩
  · rintro ⟨i, hi, v, ht⟩
    exact ⟨v, (h.lookup key v).mpr ⟨i, hi, ht⟩⟩

theorem firstValue_eq (h : Represents n t f) (key : κ) : firstValue n t key = f.lookup key := by
  cases hv : firstValue n t key with
  | none =>
    have hnone := firstValue_none.mp hv
    have habsent : key ∉ f := fun hmem => by
      obtain ⟨i, hi, v, ht⟩ := h.mem_iff.mp hmem
      exact hnone i hi v ht
    exact (Finmap.lookup_eq_none.mpr habsent).symm
  | some v => exact ((h.lookup key v).mpr (firstValue_mem hv)).symm

/-- The slot taken need not be the first free one. -/
theorem insert (h : Represents n t f) {i : Nat} (hi : i < n) (hfree : t i = none) {key : κ}
    (hnew : key ∉ f)
    (v : ν) : Represents n (Function.update t i (some (key, v))) (f.insert key v) := by
  have habsent : ∀ j < n, ∀ w, t j ≠ some (key, w) :=
    fun j hj w hw => hnew (h.mem_iff.mpr ⟨j, hj, w, hw⟩)
  have hcases : ∀ j key' w, Function.update t i (some (key, v)) j = some (key', w) ↔
      j = i ∧ key' = key ∧ w = v ∨ j ≠ i ∧ t j = some (key', w) := by
    intro j key' w
    by_cases hj : j = i
    · subst hj
      rw [Function.update_self]
      simp [eq_comm]
    · rw [Function.update_of_ne hj]
      simp [hj]
  constructor
  · intro a ha b hb key' w w' hw hw'
    rcases (hcases a key' w).mp hw with ⟨hai, hkey, -⟩ | ⟨-, hw⟩
    · rcases (hcases b key' w').mp hw' with ⟨hbi, -, -⟩ | ⟨-, hw'⟩
      · exact hai.trans hbi.symm
      · exact absurd (hkey ▸ hw') (habsent b hb w')
    · rcases (hcases b key' w').mp hw' with ⟨-, hkey, -⟩ | ⟨-, hw'⟩
      · exact absurd (hkey ▸ hw) (habsent a ha w)
      · exact h.single a ha b hb key' w w' hw hw'
  · intro key' w
    by_cases hkey : key' = key
    · subst hkey
      rw [Finmap.lookup_insert]
      constructor
      · intro hw
        exact ⟨i, hi, (hcases i key' w).mpr (Or.inl ⟨rfl, rfl, (Option.some.inj hw).symm⟩)⟩
      · rintro ⟨j, hj, hw⟩
        rcases (hcases j key' w).mp hw with ⟨-, -, rfl⟩ | ⟨-, hw⟩
        · rfl
        · exact absurd hw (habsent j hj w)
    · rw [Finmap.lookup_insert_of_ne f hkey, h.lookup key' w]
      constructor
      · rintro ⟨j, hj, hw⟩
        have hne : j ≠ i := fun heq => by
          rw [heq, hfree] at hw
          cases hw
        exact ⟨j, hj, (hcases j key' w).mpr (Or.inr ⟨hne, hw⟩)⟩
      · rintro ⟨j, hj, hw⟩
        rcases (hcases j key' w).mp hw with ⟨-, heq, -⟩ | ⟨-, hw⟩
        · exact absurd heq hkey
        · exact ⟨j, hj, hw⟩

theorem erase (h : Represents n t f) {i : Nat} (hi : i < n) {key : κ} {v : ν}
    (hslot : t i = some (key, v)) : Represents n (Function.update t i none) (f.erase key) := by
  have hcases : ∀ j key' w, Function.update t i none j = some (key', w) ↔
      j ≠ i ∧ t j = some (key', w) := by
    intro j key' w
    by_cases hj : j = i
    · subst hj
      rw [Function.update_self]
      simp
    · rw [Function.update_of_ne hj]
      simp [hj]
  constructor
  · intro a ha b hb key' w w' hw hw'
    exact h.single a ha b hb key' w w' ((hcases a key' w).mp hw).2 ((hcases b key' w').mp hw').2
  · intro key' w
    by_cases hkey : key' = key
    · subst hkey
      rw [Finmap.lookup_erase]
      constructor
      · intro hw
        cases hw
      · rintro ⟨j, hj, hw⟩
        obtain ⟨hne, hw⟩ := (hcases j key' w).mp hw
        exact absurd (h.single j hj i hi key' w v hw hslot) hne
    · rw [Finmap.lookup_erase_ne hkey, h.lookup key' w]
      constructor
      · rintro ⟨j, hj, hw⟩
        have hne : j ≠ i := fun heq => by
          rw [heq, hslot] at hw
          simp only [Option.some.injEq, Prod.mk.injEq] at hw
          exact hkey hw.1.symm
        exact ⟨j, hj, (hcases j key' w).mpr ⟨hne, hw⟩⟩
      · rintro ⟨j, hj, hw⟩
        exact ⟨j, hj, ((hcases j key' w).mp hw).2⟩

theorem slotKeys_nodup (h : Represents n t f) : (slotKeys n t).Nodup := by
  unfold slotKeys List.Nodup
  rw [List.pairwise_filterMap]
  apply List.Pairwise.imp_of_mem _ List.nodup_range
  intro i j hi hj hne key hkey key' hkey' heq
  obtain ⟨⟨k, v⟩, hv, rfl⟩ := Option.map_eq_some_iff.mp hkey
  obtain ⟨⟨k', w⟩, hw, rfl⟩ := Option.map_eq_some_iff.mp hkey'
  obtain rfl : k = k' := heq
  exact hne (h.single i (List.mem_range.mp hi) j (List.mem_range.mp hj) k v w hv hw)

/-- The map is as large as the table exactly when no slot is free. -/
theorem card_keys (h : Represents n t f) : f.keys.card = n ↔ ∀ i < n, t i ≠ none := by
  have hkeys : f.keys = (slotKeys n t).toFinset := by
    ext key
    rw [Finmap.mem_keys, h.mem_iff, List.mem_toFinset, mem_slotKeys]
  have hlen : (slotKeys n t).length = (List.range n).countP fun i => (t i).isSome := by
    unfold slotKeys
    rw [List.length_filterMap_eq_countP]
    congr 1
    funext i
    cases t i with
    | none => rfl
    | some e => rfl
  have hall : (List.range n).countP (fun i => (t i).isSome) = n ↔
      ∀ i ∈ List.range n, (t i).isSome = true := by
    have hiff := List.countP_eq_length (p := fun i => (t i).isSome) (l := List.range n)
    rwa [List.length_range] at hiff
  rw [hkeys, List.toFinset_card_of_nodup h.slotKeys_nodup, hlen, hall]
  constructor
  · intro hsome i hi hnone
    have htrue := hsome i (List.mem_range.mpr hi)
    rw [hnone] at htrue
    cases htrue
  · intro hne i hi
    exact Option.isSome_iff_ne_none.mpr (hne i (List.mem_range.mp hi))

end Represents

end Cs3650.Lib
