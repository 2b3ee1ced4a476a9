import Cs3650.Nufs.Names

/-!
# Splitting a text (hw10/starter-fshw/slist.c)

`s_split` on a string in memory: it reads up to the NUL or a delimiter and goes
on behind it. The parts and what stands between them give the text back.
-/

namespace Cs3650.Nufs

open Cs3650.Lib

/-- The string `text` and its NUL lie at `a`. -/
structure StringAt (m : Memory) (a : Int) (text : Str) : Prop where
  bytes : ∀ i < text.length, text[i]? = some (m (a + (i : Nat)))
  stop : m (a + text.length) = nul
  noNul : nul ∉ text

/-- The `n` bytes from `a` on. -/
def bytesAt (m : Memory) (a : Int) (n : Nat) : Str := (List.range n).map fun i => m (a + (i : Nat))

/-- `s_cons`, which copies its text. -/
def sCons (text : Str) (rest : List Str) : List Str := (text.takeWhile fun c => c != nul) :: rest

/-- The loop of `s_split` over `plen`. -/
def pieceLength (m : Memory) (text : Int) (delim : Byte) : Nat → Nat → Option Nat
  | 0, _ => none
  | fuel + 1, plen =>
    if m (text + plen) ≠ nul ∧ m (text + plen) ≠ delim then pieceLength m text delim fuel (plen + 1)
    else some plen

def sSplitAt (m : Memory) (delim : Byte) : Nat → Int → Option (List Str)
  | 0, _ => none
  | fuel + 1, text =>
    if m text = nul then some []
    else
      match pieceLength m text delim fuel 0 with
      | none => none
      | some plen =>
        let skip : Nat := if m (text + plen) = delim then 1 else 0
        match sSplitAt m delim fuel (text + plen + skip) with
        | none => none
        | some rest => some (sCons (bytesAt m text plen) rest)

/-! ## What the code computes -/

variable {m : Memory} {a : Int} {text piece rest : Str} {delim : Byte}

theorem pieceLength_eq {fuel plen n : Nat} (hlt : n < plen + fuel) (hle : plen ≤ n)
    (hpiece : ∀ i : Nat, i < n → m (a + i) ≠ nul ∧ m (a + i) ≠ delim)
    (hstop : m (a + n) = nul ∨ m (a + n) = delim) : pieceLength m a delim fuel plen = some n := by
  induction fuel generalizing plen with
  | zero => omega
  | succ fuel ih =>
    rw [pieceLength]
    rcases Nat.lt_or_eq_of_le hle with hless | rfl
    · rw [if_pos (hpiece plen hless)]
      exact ih (by omega) hless
    · rw [if_neg]
      rintro ⟨hnul, hdelim⟩
      exact hstop.elim hnul hdelim

namespace StringAt

theorem at_piece (h : StringAt m a (piece ++ rest)) {i : Nat} (hi : i < piece.length) :
    piece[i]? = some (m (a + i)) := by
  have hbyte := h.bytes i (by rw [List.length_append]; omega)
  rwa [List.getElem?_append_left hi] at hbyte

theorem piece_free (h : StringAt m a (piece ++ rest)) (hdelim : delim ∉ piece) :
    ∀ i : Nat, i < piece.length → m (a + i) ≠ nul ∧ m (a + i) ≠ delim := by
  intro i hi
  have hmem := List.mem_of_getElem? (h.at_piece hi)
  constructor
  · intro heq
    rw [heq] at hmem
    exact h.noNul (List.mem_append_left rest hmem)
  · intro heq
    rw [heq] at hmem
    exact hdelim hmem

theorem bytesAt_eq (h : StringAt m a (piece ++ rest)) : bytesAt m a piece.length = piece := by
  apply List.ext_getElem?
  intro i
  unfold bytesAt
  by_cases hi : i < piece.length
  · rw [h.at_piece hi, List.getElem?_map, List.getElem?_range hi]
    rfl
  · rw [List.getElem?_eq_none (Nat.le_of_not_lt hi), List.getElem?_eq_none]
    rw [List.length_map, List.length_range]
    exact Nat.le_of_not_lt hi

theorem drop_piece (h : StringAt m a (piece ++ rest)) : StringAt m (a + piece.length) rest where
  bytes i hi := by
    have hbyte := h.bytes (piece.length + i) (by rw [List.length_append]; omega)
    rw [List.getElem?_append_right (Nat.le_add_right _ _), Nat.add_sub_cancel_left] at hbyte
    rw [hbyte, Int.natCast_add, Int.add_assoc]
  stop := by
    have hstop := h.stop
    rwa [List.length_append, Int.natCast_add, ← Int.add_assoc] at hstop
  noNul := fun hmem => h.noNul (List.mem_append_right piece hmem)

theorem first (h : StringAt m a text) : m a = nul ↔ text = [] := by
  constructor
  · intro hnul
    by_contra hne
    have hbyte := h.bytes 0 (List.length_pos_iff.mpr hne)
    rw [Int.natCast_zero, Int.add_zero, hnul] at hbyte
    exact h.noNul (List.mem_of_getElem? hbyte)
  · rintro rfl
    simpa using h.stop

end StringAt

theorem sCons_eq (h : nul ∉ piece) (parts : List Str) : sCons piece parts = piece :: parts := by
  rw [sCons, List.takeWhile_eq_self_iff.mpr]
  intro c hc
  have hne : c ≠ nul := fun he => h (he ▸ hc)
  simpa using hne

/-- One call, at a piece that the NUL or a delimiter ends. -/
theorem sSplitAt_piece {fuel : Nat} {parts : List Str} (h : StringAt m a (piece ++ rest))
    (hne : piece ++ rest ≠ []) (hdelim : delim ∉ piece) (hfuel : piece.length < fuel)
    (hstop : m (a + piece.length) = nul ∨ m (a + piece.length) = delim)
    (hrest : sSplitAt m delim fuel
      (a + piece.length + (if m (a + piece.length) = delim then 1 else 0 : Nat)) = some parts) :
    sSplitAt m delim (fuel + 1) a = some (piece :: parts) := by
  have hnul : nul ∉ piece := fun hmem => h.noNul (List.mem_append_left rest hmem)
  have hlength : pieceLength m a delim fuel 0 = some piece.length :=
    pieceLength_eq (by omega) (Nat.zero_le _) (h.piece_free hdelim) hstop
  rw [sSplitAt, if_neg fun he => hne (h.first.mp he), hlength]
  dsimp only
  rw [hrest, h.bytesAt_eq]
  exact congrArg some (sCons_eq hnul parts)

theorem sSplitAt_eq {fuel : Nat} (hd : delim ≠ nul) (h : StringAt m a text)
    (hfuel : text.length + 2 ≤ fuel) : sSplitAt m delim fuel a = some (sSplit text delim) := by
  obtain ⟨fuel, rfl⟩ := Nat.exists_eq_add_of_le' (show 1 ≤ fuel by omega)
  induction text using pieces_induction delim generalizing a fuel with
  | whole w hw =>
    by_cases hne : w = []
    · rw [sSplitAt, if_pos (h.first.mpr hne), hne, sSplit_nil]
    · have hwhole : StringAt m a (w ++ []) := by rwa [List.append_nil]
      obtain ⟨fuel, rfl⟩ := Nat.exists_eq_add_of_le' (show 1 ≤ fuel by omega)
      rw [sSplit_single hne hw]
      apply sSplitAt_piece hwhole (by rwa [List.append_nil]) hw (by omega) (Or.inl h.stop)
      rw [h.stop, if_neg hd.symm, Int.natCast_zero, Int.add_zero, sSplitAt,
        if_pos (hwhole.drop_piece.first.mpr rfl)]
  | cut piece rest hpiece ih =>
    have hcut : StringAt m a ((piece ++ [delim]) ++ rest) := by
      rwa [List.append_assoc, List.singleton_append]
    have hread := hcut.at_piece (i := piece.length) (by simp)
    rw [List.getElem?_append_right (Nat.le_refl _), Nat.sub_self, List.getElem?_cons_zero,
      Option.some.injEq] at hread
    rw [List.length_append, List.length_cons] at hfuel
    obtain ⟨fuel, rfl⟩ := Nat.exists_eq_add_of_le' (show 1 ≤ fuel by omega)
    rw [sSplit_cons hpiece]
    apply sSplitAt_piece h (by simp) hpiece (by omega) (Or.inr hread.symm)
    rw [if_pos hread.symm]
    have hdrop := hcut.drop_piece
    rw [List.length_append, List.length_singleton, Int.natCast_add, ← Int.add_assoc] at hdrop
    exact ih hdrop fuel (by omega)

/-! ## The parts -/

/-- Where part `k` begins in the text. -/
def partStart : List Str → Nat → Nat
  | [], _ => 0
  | _, 0 => 0
  | part :: parts, k + 1 => part.length + 1 + partStart parts k

/-- The law of splitting. An empty part stands before a delimiter that is
leading or follows another. -/
structure SplitsInto (text : Str) (delim : Byte) (parts : List Str) : Prop where
  empty : parts = [] ↔ text = []
  free : ∀ part ∈ parts, delim ∉ part
  joined : [delim].intercalate parts = if text.getLast? = some delim then text.dropLast else text
  gaps : ∀ i, (∃ k, parts[k]? = some [] ∧ partStart parts k = i) ↔
    text[i]? = some delim ∧ (i = 0 ∨ text[i - 1]? = some delim)

theorem not_getLast (h : delim ∉ text) : text.getLast? ≠ some delim :=
  fun hlast => h (List.mem_of_getLast? hlast)

theorem not_getElem (h : delim ∉ text) (i : Nat) : text[i]? ≠ some delim :=
  fun hmem => h (List.mem_of_getElem? hmem)

theorem splitsInto_whole (h : delim ∉ text) : SplitsInto text delim (sSplit text delim) := by
  by_cases hne : text = []
  · subst hne
    constructor
    · exact ⟨fun _ => rfl, fun _ => rfl⟩
    · exact fun part hpart => absurd hpart List.not_mem_nil
    · rfl
    · intro i
      constructor
      · rintro ⟨k, hk, -⟩
        cases hk
      · rintro ⟨hi, -⟩
        cases hi
  · rw [sSplit_single hne h]
    constructor
    · exact ⟨fun he => absurd he (List.cons_ne_nil _ _), fun he => absurd he hne⟩
    · intro part hpart
      rwa [List.mem_singleton.mp hpart]
    · rw [if_neg (not_getLast h), List.intercalate_singleton]
    · intro i
      constructor
      · rintro ⟨k, hk, -⟩
        have hpart := List.mem_singleton.mp (List.mem_of_getElem? hk)
        exact absurd hpart.symm hne
      · exact fun hi => absurd hi.1 (not_getElem h i)

theorem joined_cut {parts : List Str} (h : SplitsInto rest delim parts) :
    [delim].intercalate (piece :: parts) =
      if (piece ++ delim :: rest).getLast? = some delim then (piece ++ delim :: rest).dropLast
      else piece ++ delim :: rest := by
  by_cases hne : rest = []
  · subst hne
    rw [h.empty.mpr rfl, List.intercalate_singleton, if_pos (by simp), List.dropLast_concat]
  · have hparts : parts ≠ [] := fun he => hne (h.empty.mp he)
    rw [List.intercalate_cons_of_ne_nil hparts, h.joined, List.getLast?_append_cons,
      List.getLast?_cons_of_ne_nil hne]
    by_cases hlast : rest.getLast? = some delim
    · rw [if_pos hlast, if_pos hlast, List.dropLast_append_of_ne_nil (List.cons_ne_nil _ _),
        List.dropLast_cons_of_ne_nil hne, List.append_assoc, List.singleton_append]
    · rw [if_neg hlast, if_neg hlast, List.append_assoc, List.singleton_append]

/-- A delimiter of the text is the one behind the first piece, or one of the rest. -/
theorem delim_at_cut (hpiece : delim ∉ piece) (i : Nat) :
    (piece ++ delim :: rest)[i]? = some delim ↔
      i = piece.length ∨ ∃ j, i = piece.length + 1 + j ∧ rest[j]? = some delim := by
  rcases Nat.lt_trichotomy i piece.length with hlt | rfl | hgt
  · rw [List.getElem?_append_left hlt]
    constructor
    · exact fun hi => absurd hi (not_getElem hpiece i)
    · rintro (hi | ⟨j, hi, -⟩)
      · omega
      · omega
  · rw [List.getElem?_append_right (Nat.le_refl _), Nat.sub_self, List.getElem?_cons_zero]
    exact ⟨fun _ => Or.inl rfl, fun _ => rfl⟩
  · obtain ⟨j, rfl⟩ := Nat.exists_eq_add_of_le hgt
    have hj : piece.length + 1 + j - piece.length = j + 1 := by omega
    rw [List.getElem?_append_right (by omega), Nat.succ_eq_add_one, hj, List.getElem?_cons_succ]
    constructor
    · exact fun hr => Or.inr ⟨j, rfl, hr⟩
    · rintro (hi | ⟨j', hi, hr⟩)
      · omega
      · obtain rfl : j = j' := by omega
        exact hr

theorem emptyPart_cut {parts : List Str} (i : Nat) :
    (∃ k, (piece :: parts)[k]? = some [] ∧ partStart (piece :: parts) k = i) ↔
      (piece = [] ∧ i = 0) ∨
        ∃ j, i = piece.length + 1 + j ∧ ∃ k, parts[k]? = some [] ∧ partStart parts k = j := by
  constructor
  · rintro ⟨k, hk, rfl⟩
    cases k with
    | zero =>
      rw [List.getElem?_cons_zero, Option.some.injEq] at hk
      exact Or.inl ⟨hk, rfl⟩
    | succ k =>
      rw [List.getElem?_cons_succ] at hk
      exact Or.inr ⟨partStart parts k, rfl, k, hk, rfl⟩
  · rintro (⟨rfl, rfl⟩ | ⟨j, rfl, k, hk, rfl⟩)
    · exact ⟨0, rfl, rfl⟩
    · exact ⟨k + 1, by rwa [List.getElem?_cons_succ], rfl⟩

theorem gaps_cut {parts : List Str} (hpiece : delim ∉ piece)
    (h : SplitsInto rest delim parts) (i : Nat) :
    (∃ k, (piece :: parts)[k]? = some [] ∧ partStart (piece :: parts) k = i) ↔
      (piece ++ delim :: rest)[i]? = some delim ∧
        (i = 0 ∨ (piece ++ delim :: rest)[i - 1]? = some delim) := by
  rw [emptyPart_cut, delim_at_cut hpiece, delim_at_cut hpiece]
  constructor
  · rintro (⟨rfl, rfl⟩ | ⟨j, rfl, hempty⟩)
    · exact ⟨Or.inl rfl, Or.inl rfl⟩
    · obtain ⟨hj, hbefore⟩ := (h.gaps j).mp hempty
      refine ⟨Or.inr ⟨j, rfl, hj⟩, Or.inr ?_⟩
      rcases hbefore with rfl | hbefore
      · exact Or.inl rfl
      · by_cases hzero : j = 0
        · subst hzero
          exact Or.inl rfl
        · exact Or.inr ⟨j - 1, by omega, hbefore⟩
  · rintro ⟨rfl | ⟨j, rfl, hj⟩, hbefore⟩
    · refine Or.inl ?_
      have hzero : piece.length = 0 := by
        rcases hbefore with hzero | hself | ⟨j, hself, -⟩
        · exact hzero
        · omega
        · omega
      exact ⟨List.length_eq_zero_iff.mp hzero, hzero⟩
    · refine Or.inr ⟨j, rfl, (h.gaps j).mpr ⟨hj, ?_⟩⟩
      rcases hbefore with hzero | hself | ⟨j', hself, hj'⟩
      · omega
      · exact Or.inl (by omega)
      · obtain rfl : j' = j - 1 := by omega
        exact Or.inr hj'

theorem sSplit_splitsInto (text : Str) (delim : Byte) :
    SplitsInto text delim (sSplit text delim) := by
  induction text using pieces_induction delim with
  | whole w hw => exact splitsInto_whole hw
  | cut piece rest hpiece ih =>
    rw [sSplit_cons hpiece]
    constructor
    · exact ⟨fun he => absurd he (List.cons_ne_nil _ _), fun he => absurd he (by simp)⟩
    · intro part hpart
      rcases List.mem_cons.mp hpart with rfl | hpart
      · exact hpiece
      · exact ih.free part hpart
    · exact joined_cut ih
    · exact gaps_cut hpiece ih

/-- Every call returns, with the parts of its text. -/
theorem sSplitAt_splitsInto (hd : delim ≠ nul) (h : StringAt m a text) :
    (∀ fuel, text.length + 2 ≤ fuel → sSplitAt m delim fuel a = some (sSplit text delim)) ∧
      SplitsInto text delim (sSplit text delim) :=
  ⟨fun _ hfuel => sSplitAt_eq hd h hfuel, sSplit_splitsInto text delim⟩

/-- A memory with the text from 0 on. -/
def textMemory (text : Str) : Memory := fun x => text.getD x.toNat nul

theorem stringAt_textMemory (h : nul ∉ text) : StringAt (textMemory text) 0 text where
  bytes i hi := by
    have hindex : (0 + (i : Int)).toNat = i := by omega
    rw [textMemory, hindex, List.getD_eq_getElem?_getD, List.getElem?_eq_getElem hi]
    rfl
  stop := by
    have hindex : (0 + (text.length : Int)).toNat = text.length := by omega
    rw [textMemory, hindex, List.getD_eq_getElem?_getD, List.getElem?_eq_none (Nat.le_refl _)]
    rfl
  noNul := h

theorem leading_and_adjacent_split :
    SplitsInto [47, 97, 47, 47] slash (sSplit [47, 97, 47, 47] slash) :=
  (sSplitAt_splitsInto (m := textMemory [47, 97, 47, 47]) (by decide)
    (stringAt_textMemory (by decide))).2

end Cs3650.Nufs
