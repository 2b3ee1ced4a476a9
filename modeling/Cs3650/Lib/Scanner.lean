import Mathlib.Data.List.Basic

/-!
# Scanning a text into runs of one kind

A scanner walks through a text, passes over the symbols without a kind and
takes the others in runs. What it has taken at a place `ii` is the set of the
maximal runs that end there or before.
-/

namespace Cs3650.Lib.Scanner

variable {α κ : Type}

/-- The kind of the symbol at `i`; none behind the end of the text. -/
def kindAt (kind : α → Option κ) (text : List α) (i : Nat) : Option κ := text[i]?.bind kind

/-- A stretch of one kind that can be extended on neither side. -/
structure MaxRunAt (kind : α → Option κ) (text : List α) (i j : Nat) : Prop where
  pos : i < j
  run : ∃ k, (∀ x, i ≤ x → x < j → kindAt kind text x = some k) ∧
    kindAt kind text j ≠ some k ∧ ∀ x, x + 1 = i → kindAt kind text x ≠ some k

def slice (text : List α) (s : Nat × Nat) : List α := (text.drop s.1).take (s.2 - s.1)

/-- The state of a scan at `ii`: no run goes across the place, and the runs
before it are the ones taken. -/
structure ScannedTo (kind : α → Option κ) (text : List α) (ii : Nat)
    (spans : List (Nat × Nat)) : Prop where
  fits : ii ≤ text.length
  boundary : ∀ k, kindAt kind text ii = some k → ∀ x, x + 1 = ii → kindAt kind text x ≠ some k
  ordered : spans.Pairwise fun s t => s.2 ≤ t.1
  runs : ∀ i j, (i, j) ∈ spans ↔ MaxRunAt kind text i j ∧ j ≤ ii
  joined : spans.flatMap (slice text) = (text.take ii).filter fun a => (kind a).isSome

variable {kind : α → Option κ} {text : List α} {ii jj : Nat} {spans : List (Nat × Nat)}

theorem kindAt_eq_some {x : Nat} {k : κ} (h : kindAt kind text x = some k) :
    ∃ a, text[x]? = some a ∧ kind a = some k := by
  cases hx : text[x]? with
  | none => simp [kindAt, hx] at h
  | some a => exact ⟨a, rfl, by simpa [kindAt, hx] using h⟩

theorem lt_of_kindAt {x : Nat} {k : κ} (h : kindAt kind text x = some k) : x < text.length := by
  obtain ⟨a, ha, -⟩ := kindAt_eq_some h
  exact (List.getElem?_eq_some_iff.mp ha).1

theorem MaxRunAt.last {i j : Nat} (h : MaxRunAt kind text i j) :
    ∃ k, kindAt kind text (j - 1) = some k := by
  obtain ⟨hpos, k, hk, -⟩ := h
  exact ⟨k, hk (j - 1) (by omega) (by omega)⟩

theorem MaxRunAt.le_length {i j : Nat} (h : MaxRunAt kind text i j) : j ≤ text.length := by
  obtain ⟨k, hk⟩ := h.last
  have hlt := lt_of_kindAt hk
  omega

theorem slice_append_take (hle : ii ≤ jj) :
    text.take jj = text.take ii ++ slice text (ii, jj) := by
  have hsum : jj = ii + (jj - ii) := by omega
  rw [slice, ← List.take_add, ← hsum]

theorem mem_slice {a : α} (h : a ∈ slice text (ii, jj)) :
    ∃ x, ii ≤ x ∧ x < jj ∧ text[x]? = some a := by
  obtain ⟨n, hn, ha⟩ := List.mem_iff_getElem.mp h
  simp only [slice, List.length_take, List.length_drop] at hn
  refine ⟨ii + n, by omega, by omega, ?_⟩
  simp only [slice, List.getElem_take, List.getElem_drop] at ha
  rw [List.getElem?_eq_getElem (by omega), ha]

/-! ## The scan -/

theorem scannedTo_start : ScannedTo kind text 0 [] := by
  constructor
  · omega
  · intro k _ x hx
    omega
  · exact List.Pairwise.nil
  · intro i j
    constructor
    · intro h
      cases h
    · rintro ⟨⟨hpos, -⟩, hj⟩
      omega
  · simp

theorem ScannedTo.skip (h : ScannedTo kind text ii spans) {a : α} (ha : text[ii]? = some a)
    (hnone : kind a = none) : ScannedTo kind text (ii + 1) spans := by
  have hlt : ii < text.length := (List.getElem?_eq_some_iff.mp ha).1
  have hat : kindAt kind text ii = none := by simp [kindAt, ha, hnone]
  constructor
  · omega
  · intro k _ x hx
    have hxe : x = ii := by omega
    rw [hxe, hat]
    simp
  · exact h.ordered
  · intro i j
    rw [h.runs]
    constructor
    · rintro ⟨hrun, hj⟩
      exact ⟨hrun, by omega⟩
    · rintro ⟨hrun, hj⟩
      refine ⟨hrun, ?_⟩
      -- a run that ended behind the symbol would contain it
      apply Nat.le_of_not_lt
      intro hgt
      obtain ⟨k, hk⟩ := hrun.last
      have hje : j - 1 = ii := by omega
      rw [hje, hat] at hk
      cases hk
  · have hstep : slice text (ii, ii + 1) = [a] := by
      obtain ⟨hin, hget⟩ := List.getElem?_eq_some_iff.mp ha
      rw [slice, Nat.add_sub_cancel_left, List.drop_eq_getElem_cons hin, hget]
      rfl
    rw [h.joined, slice_append_take (Nat.le_succ ii), List.filter_append, hstep]
    simp [hnone]

/-- The run that starts at a boundary is maximal when it is taken to its end. -/
theorem ScannedTo.take (h : ScannedTo kind text ii spans) {k : κ} (hlt : ii < jj)
    (hrun : ∀ x, ii ≤ x → x < jj → kindAt kind text x = some k)
    (hend : kindAt kind text jj ≠ some k) :
    ScannedTo kind text jj (spans ++ [(ii, jj)]) := by
  have hstart : kindAt kind text ii = some k := hrun ii (Nat.le_refl ii) hlt
  have hlast : kindAt kind text (jj - 1) = some k := hrun (jj - 1) (by omega) (by omega)
  have hmax : MaxRunAt kind text ii jj := ⟨hlt, k, hrun, hend, h.boundary k hstart⟩
  constructor
  · exact hmax.le_length
  · intro k' hk' x hx
    have hxe : x = jj - 1 := by omega
    rw [hxe, hlast]
    rintro heq
    exact hend (hk'.trans heq.symm)
  · rw [List.pairwise_append]
    refine ⟨h.ordered, List.pairwise_singleton _ _, ?_⟩
    rintro ⟨i, j⟩ hs t ht
    rw [List.mem_singleton] at ht
    rw [ht]
    exact ((h.runs i j).mp hs).2
  · intro i j
    rw [List.mem_append, h.runs, List.mem_singleton, Prod.mk.injEq]
    constructor
    · rintro (⟨hold, hj⟩ | ⟨rfl, rfl⟩)
      · exact ⟨hold, by omega⟩
      · exact ⟨hmax, Nat.le_refl j⟩
    · rintro ⟨hnew, hj⟩
      by_cases hle : j ≤ ii
      · exact .inl ⟨hnew, hle⟩
      · right
        obtain ⟨hpos, k', hk', hend', hbefore⟩ := hnew
        -- both runs have the symbol before `j`
        have hkk : k' = k := by
          have h1 := hk' (j - 1) (by omega) (by omega)
          have h2 := hrun (j - 1) (by omega) (by omega)
          exact Option.some.inj (h1.symm.trans h2)
        subst hkk
        have hjj : j = jj := by
          apply Nat.le_antisymm hj
          apply Nat.le_of_not_lt
          intro hshort
          exact hend' (hrun j (by omega) hshort)
        have hii : i = ii := by
          apply Nat.le_antisymm
          · apply Nat.le_of_not_lt
            intro hlate
            exact hbefore (i - 1) (by omega) (hrun (i - 1) (by omega) (by omega))
          · apply Nat.le_of_not_lt
            intro hearly
            exact h.boundary k' hstart (ii - 1) (by omega) (hk' (ii - 1) (by omega) (by omega))
        exact ⟨hii, hjj⟩
  · rw [List.flatMap_append, h.joined, slice_append_take (Nat.le_of_lt hlt), List.filter_append]
    congr 1
    rw [List.filter_eq_self.mpr]
    · simp
    · intro a ha
      obtain ⟨x, hix, hxj, hx⟩ := mem_slice ha
      obtain ⟨b, hb, hkb⟩ := kindAt_eq_some (hrun x hix hxj)
      rw [hx] at hb
      cases hb
      simp [hkb]

theorem ScannedTo.all (h : ScannedTo kind text text.length spans) (i j : Nat) :
    (i, j) ∈ spans ↔ MaxRunAt kind text i j := by
  rw [h.runs]
  exact and_iff_left_of_imp MaxRunAt.le_length

theorem ScannedTo.filtered (h : ScannedTo kind text text.length spans) :
    spans.flatMap (slice text) = text.filter fun a => (kind a).isSome := by
  rw [h.joined, List.take_length]

theorem MaxRunAt.slice_kind {i j : Nat} (h : MaxRunAt kind text i j) :
    slice text (i, j) ≠ [] ∧ ∃ k, ∀ a ∈ slice text (i, j), kind a = some k := by
  obtain ⟨hpos, k, hk, -⟩ := h
  constructor
  · have hlt := lt_of_kindAt (hk i (Nat.le_refl i) hpos)
    intro hnil
    have hlen := congrArg List.length hnil
    simp only [slice, List.length_take, List.length_drop, List.length_nil] at hlen
    omega
  · refine ⟨k, fun a ha => ?_⟩
    obtain ⟨x, hix, hxj, hx⟩ := mem_slice ha
    obtain ⟨b, hb, hkb⟩ := kindAt_eq_some (hk x hix hxj)
    rw [hx] at hb
    cases hb
    exact hkb

/-! ## The loop that finds the end of a run -/

/-- Counts on from the place `numChars` behind `start`, up to the end of the
text or to the first symbol that is not to be kept. -/
def countRun (keep : α → Bool) (text : List α) (start numChars : Nat) : Nat :=
  if h : numChars + start < text.length then
    if keep text[numChars + start] then countRun keep text start (numChars + 1) else numChars
  else numChars
termination_by text.length - (numChars + start)

theorem countRun_eq (keep : α → Bool) (text : List α) (start numChars : Nat) :
    countRun keep text start numChars =
      numChars + ((text.drop (numChars + start)).takeWhile keep).length := by
  fun_induction countRun keep text start numChars with
  | case1 numChars h hkeep ih =>
    have hnext : numChars + 1 + start = numChars + start + 1 := by omega
    rw [ih, hnext, List.drop_eq_getElem_cons h, List.takeWhile_cons_of_pos hkeep, List.length_cons]
    omega
  | case2 numChars h hkeep =>
    rw [List.drop_eq_getElem_cons h, List.takeWhile_cons_of_neg hkeep]
    simp
  | case3 numChars h =>
    rw [List.drop_eq_nil_of_le (by omega)]
    simp

/-- All it counts is kept, and the symbol behind, if there is one, is not. -/
theorem countRun_spec (keep : α → Bool) (text : List α) (start numChars : Nat) :
    numChars ≤ countRun keep text start numChars ∧
      (∀ x, numChars + start ≤ x → x < countRun keep text start numChars + start →
        ∃ a, text[x]? = some a ∧ keep a = true) ∧
      ∀ a, text[countRun keep text start numChars + start]? = some a → keep a = false := by
  fun_induction countRun keep text start numChars with
  | case1 numChars h hkeep ih =>
    obtain ⟨hle, hall, hend⟩ := ih
    refine ⟨by omega, ?_, hend⟩
    intro x hx hlt
    by_cases hhere : x = numChars + start
    · subst hhere
      exact ⟨_, List.getElem?_eq_getElem h, hkeep⟩
    · exact hall x (by omega) hlt
  | case2 numChars h hkeep =>
    refine ⟨Nat.le_refl _, by omega, ?_⟩
    intro a ha
    rw [List.getElem?_eq_getElem h, Option.some.injEq] at ha
    rw [← ha]
    simpa using hkeep
  | case3 numChars h =>
    refine ⟨Nat.le_refl _, by omega, ?_⟩
    intro a ha
    exact absurd (List.getElem?_eq_some_iff.mp ha).1 h

/-- The scan goes on behind the run that the loop counts, and it advances. -/
theorem ScannedTo.take_countRun (h : ScannedTo kind text ii spans) {keep : α → Bool} {k : κ}
    (hkeep : ∀ a, keep a = true ↔ kind a = some k) {a : α} (ha : text[ii]? = some a)
    (hka : kind a = some k) :
    0 < countRun keep text ii 0 ∧
      ScannedTo kind text (ii + countRun keep text ii 0)
        (spans ++ [(ii, ii + countRun keep text ii 0)]) := by
  obtain ⟨-, hall, hend⟩ := countRun_spec keep text ii 0
  simp only [Nat.add_comm _ ii] at hall hend
  have hpos : 0 < countRun keep text ii 0 := by
    apply Nat.pos_of_ne_zero
    intro hzero
    rw [hzero] at hend
    have hnot := hend a ha
    rw [(hkeep a).mpr hka] at hnot
    cases hnot
  refine ⟨hpos, h.take (k := k) (by omega) ?_ ?_⟩
  · intro x hix hxj
    obtain ⟨b, hb, hkb⟩ := hall x hix hxj
    simp [kindAt, hb, (hkeep b).mp hkb]
  · intro hmore
    obtain ⟨b, hb, hkb⟩ := kindAt_eq_some hmore
    have hnot := hend b hb
    rw [(hkeep b).mpr hkb] at hnot
    cases hnot

end Cs3650.Lib.Scanner
