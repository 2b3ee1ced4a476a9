import Cs3650.Malloc.OptTrace

/-!
# What `redistribute` leaves in the bins

The call climbs to the first bin with a cell, or to a fresh cell in the last
bin. On the way back every level splits the cell that the level above has just
pushed and leaves the other half behind.
-/

namespace Cs3650.Malloc.Opt

open Cs3650.Lib Cs3650.Lib.Buddy

/-- `k` is the least index from `i` on whose bin has a cell. -/
structure FirstFilled (bins : Nat → List Nat) (i k : Nat) : Prop where
  le : i ≤ k
  last : k ≤ 15
  filled : bins k ≠ []
  empty : ∀ j, i ≤ j → j < k → bins j = []

def AllEmpty (bins : Nat → List Nat) (i : Nat) : Prop := ∀ j, i ≤ j → j ≤ 15 → bins j = []

/-- The cells of the bins from `i` to below `k`. -/
def newCells (bins : Nat → List Nat) (i k : Nat) : List Region :=
  (List.range' i (k - i)).flatMap fun j => (bins j).map (cell j)

/-- The bins before and after a cell of bin `k` is handed down to bin `i`. -/
structure Cascade (i k : Nat) (bins bins' : Nat → List Nat) : Prop where
  stays : k = i → bins' = bins
  two : i < k → (bins' i).length = 2
  between : ∀ j, i < j → j < k → (bins' j).length = 1
  outside : ∀ j, j < i ∨ k < j → bins' j = bins j
  taken : i < k → ∃ c, bins k = c :: bins' k ∧ (newCells bins' i k).length = k - i + 1 ∧
    (newCells bins' i k).Pairwise Region.Apart ∧
    ∀ x, Covered (newCells bins' i k) x ↔ (cell k c).Has x

/-- The bins when cell `c` of bin `k`, followed there by `cs`, is handed down. -/
def handedDown (bins : Nat → List Nat) (i k c : Nat) (cs : List Nat) : Nat → List Nat := fun j =>
  if k ≤ i then bins j
  else if j = k then cs
  else if j = i then [c, c + 2 ^ (i + 5)]
  else if i < j ∧ j < k then [c + 2 ^ (j + 5)]
  else bins j

section Bins

variable {h : Heap} {bins : Nat → List Nat} {blocks : List Block} {extra : List Region}
variable {i k c : Nat} {cs : List Nat}

theorem handedDown_here (bins : Nat → List Nat) (k c : Nat) (cs : List Nat) :
    handedDown bins k k c cs = bins := by
  funext j
  rw [handedDown, if_pos (Nat.le_refl k)]

theorem handedDown_top (hlt : i < k) : handedDown bins i k c cs k = cs := by
  rw [handedDown, if_neg (Nat.not_le_of_lt hlt), if_pos rfl]

theorem handedDown_low (hlt : i < k) : handedDown bins i k c cs i = [c, c + 2 ^ (i + 5)] := by
  rw [handedDown, if_neg (Nat.not_le_of_lt hlt), if_neg (Nat.ne_of_lt hlt), if_pos rfl]

theorem handedDown_mid {j : Nat} (h1 : i < j) (h2 : j < k) :
    handedDown bins i k c cs j = [c + 2 ^ (j + 5)] := by
  have hlt : i < k := Nat.lt_trans h1 h2
  rw [handedDown, if_neg (Nat.not_le_of_lt hlt), if_neg (Nat.ne_of_lt h2),
    if_neg (Nat.ne_of_gt h1), if_pos ⟨h1, h2⟩]

theorem handedDown_off {j : Nat} (h : j < i ∨ k < j) : handedDown bins i k c cs j = bins j := by
  unfold handedDown
  split
  · rfl
  · rw [if_neg (by omega), if_neg (by omega), if_neg (by omega)]

theorem handedDown_head (hlt : i < k) (hbin : bins k = c :: cs) :
    ∃ ds, handedDown bins (i + 1) k c cs (i + 1) = c :: ds ∧
      handedDown bins i k c cs (i + 1) = ds := by
  by_cases hk : k = i + 1
  · subst hk
    exact ⟨cs, by rw [handedDown_here, hbin], handedDown_top hlt⟩
  · exact ⟨_, handedDown_low (by omega), handedDown_mid (by omega) (by omega)⟩

theorem pulled_handedDown (hlt : i < k) (hempty : bins i = []) {ds : List Nat}
    (hds : handedDown bins i k c cs (i + 1) = ds) :
    pulled (handedDown bins (i + 1) k c cs) i c ds = handedDown bins i k c cs := by
  have hbelow : handedDown bins (i + 1) k c cs i = [] :=
    (handedDown_off (Or.inl (Nat.lt_succ_self i))).trans hempty
  funext j
  unfold pulled
  rw [hbelow]
  by_cases hji : j = i
  · subst hji
    rw [Function.update_self, handedDown_low hlt]
  · rw [Function.update_of_ne hji]
    by_cases hjs : j = i + 1
    · subst hjs
      rw [Function.update_self, hds]
    · rw [Function.update_of_ne hjs]
      by_cases hout : j < i ∨ k < j
      · rw [handedDown_off (by omega), handedDown_off hout]
      · by_cases hjk : j = k
        · subst hjk
          rw [handedDown_top (by omega), handedDown_top hlt]
        · rw [handedDown_mid (by omega) (by omega), handedDown_mid (by omega) (by omega)]

theorem redistribute_step (addr : Nat) (hi : i < 15) :
    redistribute addr h i = (if h.heads i ≠ 0 then .ok h
      else redistribute addr h (i + 1) >>= fun h' => pullFromAbove h' i) := by
  have habove : 15 - i = 14 - i + 1 := by omega
  have hback : 14 - (14 - i) = i := by omega
  have hup : 15 - (i + 1) = 14 - i := by omega
  rw [redistribute, habove, redistributeUp, hback, redistribute, hup]

/-- The run down from bin `k`, which has a cell after the call for `k`; by
induction on the distance. -/
theorem redistribute_below (addr : Nat) {h₁ : Heap} (hk : k ≤ 15)
    (hrun : redistribute addr h k = .ok h₁) (hinv : Inv h₁ bins blocks extra)
    (hbin : bins k = c :: cs) (d : Nat) (hd : d ≤ k)
    (hempty : ∀ j, k - d ≤ j → j < k → h.heads j = 0 ∧ bins j = []) :
    ∃ h', redistribute addr h (k - d) = .ok h' ∧ h'.pages = h₁.pages ∧
      Inv h' (handedDown bins (k - d) k c cs) blocks extra := by
  induction d with
  | zero =>
    rw [Nat.sub_zero, handedDown_here]
    exact ⟨h₁, hrun, rfl, hinv⟩
  | succ d ih =>
    obtain ⟨h', hrun', hpages, hinv'⟩ := ih (by omega) fun j hj => hempty j (by omega)
    obtain ⟨hzero, hnil⟩ := hempty (k - (d + 1)) (Nat.le_refl _) (by omega)
    have hlt : k - (d + 1) < k := by omega
    have hup : k - (d + 1) + 1 = k - d := by omega
    rw [← hup] at hrun' hinv'
    obtain ⟨ds, hhd, hds⟩ := handedDown_head hlt hbin
    obtain ⟨h₂, hpull, hinv₂, hpages₂⟩ := pullFromAbove_bins hinv' (by unfold numBins; omega) hhd
    rw [pulled_handedDown hlt hnil hds] at hinv₂
    rw [redistribute_step addr (by omega), if_neg (by omega), hrun', ok_bind]
    exact ⟨h₂, hpull, hpages₂.trans hpages, hinv₂⟩

theorem redistribute_error (addr : Nat) {f : Fault} (hrun : redistribute addr h 15 = .error f)
    (d : Nat) (hd : d ≤ 15) (hempty : ∀ j, 15 - d ≤ j → j ≤ 15 → h.heads j = 0) :
    redistribute addr h (15 - d) = .error f := by
  induction d with
  | zero => exact hrun
  | succ d ih =>
    have hrun' := ih (by omega) fun j hj => hempty j (by omega)
    have hup : 15 - (d + 1) + 1 = 15 - d := by omega
    have hzero := hempty (15 - (d + 1)) (Nat.le_refl _) (by omega)
    rw [redistribute_step addr (by omega), if_neg (by omega), hup, hrun', error_bind]

theorem newCells_handedDown (hlt : i < k) :
    newCells (handedDown bins i k c cs) i k = ladder 5 c i (k - i) := by
  obtain ⟨d, rfl⟩ : ∃ d, k = i + d + 1 := ⟨k - i - 1, by omega⟩
  have hrest : ∀ j ∈ List.range' (i + 1) d, (handedDown bins i (i + d + 1) c cs j).map (cell j) =
      [block (5 + j) (c + 2 ^ (5 + j))] := by
    intro j hj
    obtain ⟨h1, h2⟩ := List.mem_range'_1.mp hj
    rw [handedDown_mid (by omega) (by omega), Nat.add_comm 5 j]
    rfl
  rw [newCells, show i + d + 1 - i = d + 1 by omega, List.range'_succ, List.flatMap_cons,
    handedDown_low hlt, List.flatMap_congr hrest, ladder_succ, Nat.add_comm 5 i,
    ← List.map_eq_flatMap]
  rfl

theorem cascade_handedDown (hle : i ≤ k) (hbin : bins k = c :: cs) :
    Cascade i k bins (handedDown bins i k c cs) where
  stays := fun hk => by
    subst hk
    exact handedDown_here bins k c cs
  two := fun hlt => by rw [handedDown_low hlt]; rfl
  between := fun j h1 h2 => by rw [handedDown_mid h1 h2]; rfl
  outside := fun j hj => handedDown_off hj
  taken := fun hlt => by
    refine ⟨c, by rw [handedDown_top hlt, hbin], ?_, ?_, ?_⟩ <;> rw [newCells_handedDown hlt]
    · exact length_ladder 5 c i (k - i)
    · exact ladder_apart 5 c i (k - i)
    · intro x
      rw [covered_ladder, show 5 + i + (k - i) = k + 5 by omega]
      rfl

theorem filled_or_empty (bins : Nat → List Nat) (i : Nat) :
    (∃ k, FirstFilled bins i k) ∨ AllEmpty bins i := by
  by_cases hex : ∃ k, i ≤ k ∧ k ≤ 15 ∧ bins k ≠ []
  · left
    have hleast := Nat.find_spec hex
    refine ⟨Nat.find hex, hleast.1, hleast.2.1, hleast.2.2, fun j hij hj => ?_⟩
    apply by_contra
    intro hne
    exact Nat.find_min hex hj ⟨hij, by omega, hne⟩
  · right
    intro j hij hj
    apply by_contra
    intro hne
    exact hex ⟨j, hij, hj, hne⟩

theorem heads_eq_zero (hinv : Inv h bins blocks extra) {j : Nat} (hj : j ≤ 15)
    (hempty : bins j = []) : h.heads j = 0 := by
  by_contra hne
  exact (heads_ne_zero hinv (by unfold numBins; omega)).mp hne hempty

theorem redistribute_filled (addr : Nat) (hinv : Inv h bins blocks extra)
    (hfirst : FirstFilled bins i k) :
    ∃ h' bins', redistribute addr h i = .ok h' ∧ h'.pages = h.pages ∧
      Inv h' bins' blocks extra ∧ Cascade i k bins bins' := by
  obtain ⟨hle, hlast, hfilled, hempty⟩ := hfirst
  obtain ⟨c, cs, hbin⟩ := List.exists_cons_of_ne_nil hfilled
  have hhead : h.heads k ≠ 0 := (heads_ne_zero hinv (by unfold numBins; omega)).mpr hfilled
  have hrun : redistribute addr h k = .ok h := by
    by_cases hk : k = 15
    · subst hk
      exact if_pos hhead
    · rw [redistribute_step addr (by omega), if_pos hhead]
  obtain ⟨h', hdown, hpages, hinv'⟩ := redistribute_below addr hlast hrun hinv hbin (k - i)
    (by omega) fun j hj hjk =>
      ⟨heads_eq_zero hinv (by omega) (hempty j (by omega) hjk), hempty j (by omega) hjk⟩
  have hback : k - (k - i) = i := by omega
  rw [hback] at hdown hinv'
  exact ⟨h', _, hdown, hpages, hinv', cascade_handedDown hle hbin⟩

theorem redistribute_fresh (addr : Nat) (hi : i < numBins) (hinv : Inv h bins blocks extra)
    (hall : AllEmpty bins i) :
    (h.pages.Free addr heapSize ∧ ∃ h' bins', redistribute addr h i = .ok h' ∧
        h'.pages = h.pages.map addr heapSize ∧ Inv h' bins' blocks extra ∧
        Cascade i 15 (Function.update bins 15 [addr]) bins') ∨
      (¬ h.pages.Free addr heapSize ∧ redistribute addr h i = .error .noMemory) := by
  have hi' : i ≤ 15 := Nat.le_of_lt_succ hi
  have hback : 15 - (15 - i) = i := by omega
  have hzero : ∀ j, i ≤ j → j ≤ 15 → h.heads j = 0 := fun j hj hj' =>
    heads_eq_zero hinv hj' (hall j hj hj')
  rcases redistributeUp_fresh addr hinv (hall 15 hi' (Nat.le_refl 15)) with
    ⟨h₁, hrun, hf, hmap, hinv₁⟩ | ⟨hrun, hf⟩
  · left
    have hbin : Function.update bins 15 [addr] 15 = [addr] := Function.update_self _ _ _
    obtain ⟨h', hdown, hpages, hinv'⟩ := redistribute_below addr (Nat.le_refl 15) hrun hinv₁ hbin
      (15 - i) (by omega) fun j hj hj' => ⟨hzero j (by omega) (by omega), by
        rw [Function.update_of_ne (by omega), hall j (by omega) (by omega)]⟩
    rw [hback] at hdown hinv'
    exact ⟨hf, h', _, hdown, hpages.trans hmap, hinv', cascade_handedDown hi' hbin⟩
  · right
    have herr := redistribute_error addr hrun (15 - i) (by omega) fun j hj => hzero j (by omega)
    rw [hback] at herr
    exact ⟨hf, herr⟩

end Bins

/-- The call either hands down a cell of the first filled bin, or all bins from
`i` on are empty and it hands down a cell that the kernel has mapped. -/
theorem redistribute_cascades {h : Heap} {bins : Nat → List Nat} {blocks : List Block}
    {extra : List Region} {i : Nat} (addr : Nat) (hi : i < numBins)
    (hinv : Inv h bins blocks extra) :
    (∃ k h' bins', FirstFilled bins i k ∧ redistribute addr h i = .ok h' ∧
        h'.pages = h.pages ∧ Inv h' bins' blocks extra ∧ Cascade i k bins bins') ∨
      (AllEmpty bins i ∧ h.pages.Free addr heapSize ∧ ∃ h' bins',
        redistribute addr h i = .ok h' ∧ h'.pages = h.pages.map addr heapSize ∧
        Inv h' bins' blocks extra ∧ Cascade i 15 (Function.update bins 15 [addr]) bins') ∨
      (AllEmpty bins i ∧ ¬ h.pages.Free addr heapSize ∧
        redistribute addr h i = .error .noMemory) := by
  rcases filled_or_empty bins i with ⟨k, hfirst⟩ | hall
  · obtain ⟨h', bins', hrest⟩ := redistribute_filled addr hinv hfirst
    exact Or.inl ⟨k, h', bins', hfirst, hrest⟩
  · rcases redistribute_fresh addr hi hinv hall with ⟨hf, hrest⟩ | ⟨hf, herr⟩
    · exact Or.inr (Or.inl ⟨hall, hf, hrest⟩)
    · exact Or.inr (Or.inr ⟨hall, hf, herr⟩)

/-- The first call for bin 3. -/
theorem first_call_cascades :
    ∃ h' bins', redistribute 1048576 (emptyWorld fun _ => 0).heap 3 = .ok h' ∧
      Cascade 3 15 (Function.update (fun _ => []) 15 [1048576]) bins' := by
  have hfree : (emptyWorld fun _ => 0).heap.pages.Free 1048576 heapSize := by decide +kernel
  rcases redistribute_cascades (i := 3) 1048576 (by decide) (inv_empty fun _ => 0) with
    ⟨k, -, -, hfirst, -⟩ | ⟨-, -, h', bins', hrun, -, -, hcas⟩ | ⟨-, hbusy, -⟩
  · exact absurd rfl hfirst.filled
  · exact ⟨h', bins', hrun, hcas⟩
  · exact absurd hfree hbusy

end Cs3650.Malloc.Opt
