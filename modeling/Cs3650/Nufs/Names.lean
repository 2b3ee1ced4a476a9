import Cs3650.Nufs.Slots

/-!
# Names and paths

The components of a path, what its parent and its last name are, and that the
listing of a directory and the lookup in it agree on every name.
-/

namespace Cs3650.Nufs

open Cs3650.Lib

/-! ## Splitting -/

theorem splitFuel_enough (delim : Byte) {fuel fuel' : Nat} {text : Str} (h : text.length ≤ fuel)
    (h' : text.length ≤ fuel') : splitFuel delim fuel text = splitFuel delim fuel' text := by
  induction fuel generalizing fuel' text with
  | zero =>
    obtain rfl : text = [] := List.length_eq_zero_iff.mp (by omega)
    cases fuel' with
    | zero => rfl
    | succ fuel' => rfl
  | succ fuel ih =>
    cases text with
    | nil =>
      cases fuel' with
      | zero => rfl
      | succ fuel' => rfl
    | cons c cs =>
      cases fuel' with
      | zero => cases h'
      | succ fuel' =>
        simp only [splitFuel]
        rw [if_neg (List.cons_ne_nil c cs), if_neg (List.cons_ne_nil c cs), List.cons.injEq]
        -- a step takes a byte at least, the delimiter or the first of the piece
        have hstep : ((c :: cs).drop (((c :: cs).takeWhile fun b => b != delim).length +
            if ((c :: cs).drop ((c :: cs).takeWhile fun b => b != delim).length).head? = some delim
            then 1 else 0)).length ≤ cs.length := by
          rw [List.length_drop, List.length_cons]
          by_cases hc : c = delim
          · simp [hc]
          · simp [hc]
            omega
        simp only [List.length_cons] at h h'
        exact ⟨rfl, ih (by omega) (by omega)⟩

theorem takeWhile_delim {delim : Byte} {piece : Str} (h : delim ∉ piece) (rest : Str) :
    ((piece ++ delim :: rest).takeWhile fun b => b != delim) = piece := by
  rw [List.takeWhile_append_of_pos]
  · simp
  · intro b hb
    have hne : b ≠ delim := fun he => h (he ▸ hb)
    simpa using hne

theorem sSplit_nil (delim : Byte) : sSplit [] delim = [] := rfl

theorem sSplit_cons {delim : Byte} {piece : Str} (h : delim ∉ piece) (rest : Str) :
    sSplit (piece ++ delim :: rest) delim = piece :: sSplit rest delim := by
  unfold sSplit
  obtain ⟨n, hn⟩ : ∃ n, (piece ++ delim :: rest).length = n + 1 :=
    ⟨piece.length + rest.length, by simp; omega⟩
  have hne : piece ++ delim :: rest ≠ [] := by simp
  rw [hn]
  simp only [splitFuel]
  rw [if_neg hne, takeWhile_delim h, List.take_left, List.drop_left, List.head?_cons, if_pos rfl,
    List.drop_append, List.drop_of_length_le (Nat.le_succ _), Nat.add_sub_cancel_left]
  have hrest : rest.length ≤ n := by
    simp at hn
    omega
  simp only [List.nil_append, List.drop_one, List.tail_cons]
  rw [splitFuel_enough delim hrest (Nat.le_refl _)]

theorem sSplit_single {delim : Byte} {piece : Str} (hne : piece ≠ []) (h : delim ∉ piece) :
    sSplit piece delim = [piece] := by
  unfold sSplit
  obtain ⟨n, hn⟩ : ∃ n, piece.length = n + 1 :=
    ⟨piece.length - 1, by have := List.length_pos_iff.mpr hne; omega⟩
  have hall : (piece.takeWhile fun b => b != delim) = piece := by
    rw [List.takeWhile_eq_self_iff]
    intro b hb
    have hb' : b ≠ delim := fun he => h (he ▸ hb)
    simpa using hb'
  rw [hn]
  simp only [splitFuel]
  rw [if_neg hne, hall, List.take_length, List.drop_length, List.drop_of_length_le (by simp)]
  cases n with
  | zero => rfl
  | succ n => rfl

theorem delim_cases (delim : Byte) (text : Str) :
    delim ∉ text ∨ ∃ piece rest, delim ∉ piece ∧ text = piece ++ delim :: rest := by
  by_cases h : delim ∈ text
  · obtain ⟨piece, rest, htext, hpiece⟩ := List.eq_append_cons_of_mem h
    exact Or.inr ⟨piece, rest, hpiece, htext⟩
  · exact Or.inl h

/-- Induction over the pieces of a text. -/
theorem pieces_induction {P : Str → Prop} (delim : Byte) (whole : ∀ w, delim ∉ w → P w)
    (cut : ∀ piece rest, delim ∉ piece → P rest → P (piece ++ delim :: rest)) (text : Str) :
    P text := by
  induction hn : text.length using Nat.strong_induction_on generalizing text with
  | h n ih =>
    rcases delim_cases delim text with htext | ⟨piece, rest, hpiece, rfl⟩
    · exact whole text htext
    · have hlt : rest.length < n := by
        simp at hn
        omega
      exact cut piece rest hpiece (ih rest.length hlt rest rfl)

theorem sSplit_append_delim (delim : Byte) (w ys : Str) :
    sSplit (w ++ delim :: ys) delim = sSplit (w ++ [delim]) delim ++ sSplit ys delim := by
  induction w using pieces_induction delim with
  | whole w hw =>
    rw [sSplit_cons hw, sSplit_cons hw, sSplit_nil]
    rfl
  | cut piece rest hpiece ih =>
    rw [List.append_assoc, List.cons_append, sSplit_cons hpiece, ih, List.append_assoc,
      List.cons_append, sSplit_cons hpiece]
    rfl

theorem sSplit_end (delim : Byte) {w : Str} (hne : w ≠ []) (hlast : w.getLast? ≠ some delim) :
    sSplit (w ++ [delim]) delim = sSplit w delim := by
  induction w using pieces_induction delim with
  | whole w hw => rw [sSplit_cons hw, sSplit_nil, sSplit_single hne hw]
  | cut piece rest hpiece ih =>
    have hrest : rest ≠ [] := fun he => hlast (by simp [he])
    have hlast' : rest.getLast? ≠ some delim := fun he => hlast (by
      rw [List.getLast?_append_cons, List.getLast?_cons_of_ne_nil hrest, he])
    rw [List.append_assoc, List.cons_append, sSplit_cons hpiece, ih hrest hlast',
      sSplit_cons hpiece]

theorem sSplit_join (p : Path) {item : Str} (h : nul ∉ item) :
    sSplit (p.join item).text slash = sSplit p.text slash ++ sSplit item slash := by
  have hne : p.text ≠ [] := fun he => by simpa [he] using p.absolute
  rw [Path.join_text p h]
  unfold pathJoinText
  by_cases hlast : p.text.getLast? = some slash
  · obtain ⟨w, hw⟩ := List.getLast?_eq_some_iff.mp hlast
    rw [if_pos hlast, hw, List.append_assoc]
    exact sSplit_append_delim slash w item
  · rw [if_neg hlast, sSplit_append_delim, sSplit_end slash hne hlast]

/-! ## The last name -/

theorem mem_splitFuel {delim : Byte} {fuel : Nat} {text c : Str}
    (hc : c ∈ splitFuel delim fuel text) : ∀ b ∈ c, b ∈ text := by
  induction fuel generalizing text with
  | zero => exact absurd hc List.not_mem_nil
  | succ fuel ih =>
    simp only [splitFuel] at hc
    by_cases htext : text = []
    · rw [if_pos htext] at hc
      exact absurd hc List.not_mem_nil
    · rw [if_neg htext] at hc
      intro b hb
      rcases List.mem_cons.mp hc with rfl | hrest
      · exact List.mem_of_mem_take hb
      · exact List.mem_of_mem_drop (ih hrest b hb)

theorem Path.component_noNul (p : Path) : ∀ c ∈ sSplit p.text slash, nul ∉ c :=
  fun _ hc hmem => p.noNul (mem_splitFuel hc nul hmem)

theorem basename_cases (p : Path) : p.basename ≠ [] ∧ nul ∉ p.basename ∧
    (slash ∉ p.basename ∨ (p.basename = [slash] ∧ (p.dirname.text = [slash] ∨
      p.dirname.text = [slash, slash]))) := by
  have hunfold : p.basename = basenameText p.text := rfl
  rw [hunfold]
  unfold basenameText
  dsimp only
  by_cases h : p.text.rdropWhile isSlash = []
  · rw [if_pos h]
    have hdir : p.dirname.text = dirnameText p.text := rfl
    have hparent : parentText p.text = p.text := if_pos h
    refine ⟨by decide, by decide, Or.inr ⟨rfl, ?_⟩⟩
    rw [hdir]
    unfold dirnameText
    dsimp only
    rw [hparent, if_pos h]
    by_cases hlen : p.text.length = 2
    · exact Or.inr (if_pos hlen)
    · exact Or.inl (if_neg hlen)
  · rw [if_neg h]
    refine ⟨?_, ?_, Or.inl ?_⟩
    · rw [Ne, List.rtakeWhile_eq_nil_iff]
      intro hlast
      have hslash := List.rdropWhile_last_not isSlash p.text h
      exact hlast h (by simpa using hslash)
    · intro hmem
      exact p.noNul ((List.rdropWhile_prefix isSlash p.text).subset
        ((List.rtakeWhile_suffix _ _).subset hmem))
    · intro hmem
      have himp := List.mem_rtakeWhile_imp hmem
      simp [isSlash] at himp

/-! ## Strings in memory -/

theorem streq_iff_strdup {m : Image} {a : Int} {name : Str} {fuel : Nat} (hnul : nul ∉ name)
    (hfuel : name.length < fuel) : streq m a name = true ↔ strdup m a fuel = name := by
  induction name generalizing a fuel with
  | nil =>
    cases fuel with
    | zero => cases hfuel
    | succ fuel =>
      simp only [streq, strdup, beq_iff_eq]
      by_cases h : m a = nul
      · simp [h]
      · simp [h]
  | cons c cs ih =>
    cases fuel with
    | zero => cases hfuel
    | succ fuel =>
      have hc : c ≠ nul := fun he => hnul (by simp [he])
      have hcs : nul ∉ cs := fun hmem => hnul (List.mem_cons_of_mem c hmem)
      have hrest := @ih (a + 1) fuel hcs (by simpa using hfuel)
      simp only [streq, strdup, Bool.and_eq_true, beq_iff_eq, hrest]
      by_cases h : m a = nul
      · rw [if_pos h, h]
        simp [Ne.symm hc]
      · rw [if_neg h, List.cons.injEq]

theorem strdup_noNul (m : Image) (a : Int) (fuel : Nat) : nul ∉ strdup m a fuel := by
  induction fuel generalizing a with
  | zero => exact List.not_mem_nil
  | succ fuel ih =>
    simp only [strdup]
    by_cases h : m a = nul
    · rw [if_pos h]
      exact List.not_mem_nil
    · rw [if_neg h, List.mem_cons]
      rintro (he | hmem)
      · exact h he.symm
      · exact ih (a + 1) hmem

theorem strdup_length {m : Image} {a : Int} {n : Nat} (fuel : Nat) (h : m (a + n) = nul) :
    (strdup m a fuel).length ≤ n := by
  induction n generalizing a fuel with
  | zero =>
    have ha : m a = nul := by simpa using h
    cases fuel with
    | zero => exact Nat.le_refl 0
    | succ fuel => simp [strdup, ha]
  | succ n ih =>
    cases fuel with
    | zero => exact Nat.zero_le _
    | succ fuel =>
      have hrest : m (a + 1 + n) = nul := by
        rw [← h]
        congr 1
        omega
      simp only [strdup]
      by_cases ha : m a = nul
      · rw [if_pos ha]
        exact Nat.zero_le _
      · rw [if_neg ha, List.length_cons]
        exact Nat.succ_le_succ (ih fuel hrest)

theorem strdup_congr {m m' : Image} {a : Int} {n : Nat} (fuel : Nat) (hend : m (a + n) = nul)
    (h : ∀ i : Nat, i ≤ n → m' (a + i) = m (a + i)) : strdup m' a fuel = strdup m a fuel := by
  induction n generalizing a fuel with
  | zero =>
    have ha : m a = nul := by simpa using hend
    have ha' : m' a = nul := by
      have hzero := h 0 (Nat.le_refl 0)
      simpa [ha] using hzero
    cases fuel with
    | zero => rfl
    | succ fuel => simp [strdup, ha, ha']
  | succ n ih =>
    cases fuel with
    | zero => rfl
    | succ fuel =>
      have hfirst : m' a = m a := by simpa using h 0 (Nat.zero_le _)
      have hrest : strdup m' (a + 1) fuel = strdup m (a + 1) fuel := by
        apply ih
        · rw [← hend]
          congr 1
          omega
        · intro i hi
          have hnext := h (i + 1) (by omega)
          have hshift : a + 1 + (i : Int) = a + ((i + 1 : Nat) : Int) := by omega
          rw [hshift, hnext]
      simp only [strdup, hfirst, hrest]

theorem strdup_eq {m : Image} {a : Int} {t : Str} {fuel : Nat} (ht : nul ∉ t)
    (hfuel : t.length < fuel) (h : ∀ i : Nat, i ≤ t.length → m (a + i) = t.getD i nul) :
    strdup m a fuel = t := by
  rw [← streq_iff_strdup ht hfuel]
  clear hfuel
  induction t generalizing a with
  | nil =>
    have hend := h 0 (Nat.le_refl 0)
    simp only [streq, beq_iff_eq]
    simpa using hend
  | cons c cs ih =>
    have hfirst := h 0 (Nat.zero_le _)
    have hrest : streq m (a + 1) cs = true := by
      apply ih
      · exact fun hmem => ht (List.mem_cons_of_mem c hmem)
      · intro i hi
        have hnext := h (i + 1) (Nat.succ_le_succ hi)
        have hshift : a + 1 + (i : Int) = a + ((i + 1 : Nat) : Int) := by omega
        rw [hshift, hnext, List.getD_cons_succ]
    simp only [streq, hrest, Bool.and_true, beq_iff_eq]
    simpa using hfirst

/-- A name of 60 bytes loses the last one. -/
theorem Put.strdup {m m' : Image} {p inum k : Nat} {name : Str} (h : Put m m' p name inum k)
    (hnul : nul ∉ name) :
    strdup m' (direntName (pagesGetPage p) k) NUFS_SIZE = name.take 59 := by
  have hlen : (name.take 59).length ≤ 59 := List.length_take_le 59 name
  apply strdup_eq
  · exact fun hmem => hnul (List.mem_of_mem_take hmem)
  · exact Nat.lt_of_le_of_lt hlen (by decide)
  · intro i hi
    rw [h.text i (by omega)]
    by_cases hlt : i < 59
    · rw [if_pos hlt, List.getD_eq_getElem?_getD, List.getD_eq_getElem?_getD, List.getElem?_take,
        if_pos hlt]
    · rw [if_neg hlt, List.getD_eq_getElem?_getD, List.getElem?_take, if_neg hlt]
      rfl

/-! ## Listing and looking up -/

theorem mem_foldl_cons {P : Nat → Prop} [DecidablePred P] {f : Nat → Str} (is : List Nat)
    (ys : List Str) (name : Str) :
    name ∈ is.foldl (fun ys i => if P i then f i :: ys else ys) ys ↔
      name ∈ ys ∨ ∃ i ∈ is, P i ∧ f i = name := by
  induction is generalizing ys with
  | nil => simp
  | cons i is ih =>
    rw [List.foldl_cons, ih]
    by_cases h : P i
    · rw [if_pos h]
      simp [h, or_assoc, or_left_comm, eq_comm]
    · rw [if_neg h]
      simp [h]

theorem mem_directoryList {m : Image} {dir : Int} {name : Str} : name ∈ directoryList m dir ↔
    ∃ k < 64, m (direntName (direntBase m dir) k) ≠ nul ∧
      strdup m (direntName (direntBase m dir) k) NUFS_SIZE = name := by
  have hfold := mem_foldl_cons (P := fun k => m (direntName (direntBase m dir) k) ≠ nul)
    (f := fun k => strdup m (direntName (direntBase m dir) k) NUFS_SIZE) (List.range 64) [] name
  unfold directoryList
  dsimp only
  rw [hfold]
  simp

theorem listed_iff {m : Image} {dir : Int} {name : Str} (hname : EntryName name) :
    name ∈ directoryList m dir ↔ ∃ k, findName m (direntBase m dir) name = some k := by
  obtain ⟨hpos, hlen, hnul⟩ := hname
  have hfuel : name.length < NUFS_SIZE := Nat.lt_of_le_of_lt hlen (by decide)
  rw [mem_directoryList]
  constructor
  · rintro ⟨k, hk, -, htext⟩
    cases hfind : findName m (direntBase m dir) name with
    | none =>
      have hother := findName_none hfind k hk
      rw [(streq_iff_strdup hnul hfuel).mpr htext] at hother
      cases hother
    | some k' => exact ⟨k', rfl⟩
  · rintro ⟨k, hfind⟩
    obtain ⟨hk, hsame, -⟩ := findName_some hfind
    exact ⟨k, hk, streq_used (List.ne_nil_of_length_pos hpos) hnul hsame,
      (streq_iff_strdup hnul hfuel).mp hsame⟩

theorem directoryLookup_some {m : Image} {dir : Int} {name : Str} {k : Nat}
    (h : findName m (direntBase m dir) name = some k) :
    directoryLookup m dir name = int32 m (direntInum (direntBase m dir) k) := by
  unfold directoryLookup
  dsimp only
  rw [h]

theorem directoryLookup_none {m : Image} {dir : Int} {name : Str}
    (h : findName m (direntBase m dir) name = none) : directoryLookup m dir name = -ENOENT := by
  unfold directoryLookup
  dsimp only
  rw [h]

theorem lookupFrom_cons (m : Image) (cur : Int) (base : Str) (rest : List Str) :
    lookupFrom m cur (base :: rest) =
      if directoryLookup m (getInode cur) base < 0 then directoryLookup m (getInode cur) base
      else lookupFrom m (directoryLookup m (getInode cur) base) rest := rfl

theorem lookupFrom_append {m : Image} {cur r : Int} {xs : List Str} (ys : List Str)
    (hr : lookupFrom m cur xs = r) (h : 0 ≤ r) :
    lookupFrom m cur (xs ++ ys) = lookupFrom m r ys := by
  induction xs generalizing cur with
  | nil =>
    obtain rfl : cur = r := hr
    rfl
  | cons base rest ih =>
    rw [lookupFrom_cons] at hr
    by_cases hneg : directoryLookup m (getInode cur) base < 0
    · rw [if_pos hneg] at hr
      omega
    · rw [if_neg hneg] at hr
      rw [List.cons_append, lookupFrom_cons, if_neg hneg]
      exact ih hr

theorem treeLookup_join {m : Image} {p : Path} {item : Str} (h : nul ∉ item)
    (hp : 0 ≤ treeLookup m p) :
    treeLookup m (p.join item) = lookupFrom m (treeLookup m p) (sSplit item slash) := by
  have happend := lookupFrom_append (sSplit item slash) (rfl : treeLookup m p = _) hp
  rwa [← sSplit_join p h] at happend

theorem lookupFrom_append_neg {m : Image} {cur : Int} {xs : List Str} (ys : List Str)
    (hcur : 0 ≤ cur)
    (h : lookupFrom m cur xs < 0) : lookupFrom m cur (xs ++ ys) = lookupFrom m cur xs := by
  induction xs generalizing cur with
  | nil =>
    have hneg : cur < 0 := h
    omega
  | cons base rest ih =>
    rw [List.cons_append, lookupFrom_cons, lookupFrom_cons]
    rw [lookupFrom_cons] at h
    by_cases hneg : directoryLookup m (getInode cur) base < 0
    · rw [if_pos hneg, if_pos hneg]
    · rw [if_neg hneg] at h ⊢
      rw [if_neg hneg]
      exact ih (by omega) h

theorem lookupFrom_single (m : Image) (cur : Int) (base : Str) :
    lookupFrom m cur [base] = directoryLookup m (getInode cur) base := by
  rw [lookupFrom_cons, ite_eq_left_iff]
  intro _
  rfl

/-- One more component is one more lookup; what a directory lists is found under
the path that `nufs_readdir` builds. -/
theorem path_join_composes (m : Image) (p : Path) {item : Str} (hne : item ≠ [])
    (hslash : slash ∉ item) (hnul : nul ∉ item) :
    (treeLookup m p < 0 → treeLookup m (p.join item) = treeLookup m p) ∧
    (0 ≤ treeLookup m p →
      treeLookup m (p.join item) = directoryLookup m (getInode (treeLookup m p)) item) ∧
    (0 ≤ treeLookup m p → item.length < NUFS_SIZE → item ∈ storageList m p →
      ∃ k < 64,
      strdup m (direntName (direntBase m (getInode (treeLookup m p))) k) NUFS_SIZE = item ∧
        treeLookup m (p.join item) =
        int32 m (direntInum (direntBase m (getInode (treeLookup m p))) k)) := by
  have hjoin : 0 ≤ treeLookup m p →
      treeLookup m (p.join item) = directoryLookup m (getInode (treeLookup m p)) item :=
      fun hp => by
    rw [treeLookup_join hnul hp, sSplit_single hne hslash, lookupFrom_single]
  refine ⟨fun hneg => ?_, hjoin, fun hp hlen hlisted => ?_⟩
  · unfold treeLookup
    rw [sSplit_join p hnul]
    exact lookupFrom_append_neg _ (Int.le_refl 0) hneg
  · rw [hjoin hp]
    obtain ⟨k, hk, -, htext⟩ := mem_directoryList.mp hlisted
    cases hfind : findName m (direntBase m (getInode (treeLookup m p))) item with
    | none =>
      have hother := findName_none hfind k hk
      rw [(streq_iff_strdup hnul hlen).mpr htext] at hother
      cases hother
    | some j =>
      obtain ⟨hj, hsame, -⟩ := findName_some hfind
      exact ⟨j, hj, (streq_iff_strdup hnul hlen).mp hsame, directoryLookup_some hfind⟩

theorem root_join_composes : treeLookup (storageInit fun _ => 0) (Path.root.join [0x61]) =
    directoryLookup (storageInit fun _ => 0) (getInode 0) [0x61] := by
  have hroot : treeLookup (storageInit fun _ => 0) Path.root = 0 := by decide +kernel
  have hjoin := (path_join_composes (storageInit fun _ => 0) Path.root
    (by decide : [0x61] ≠ ([] : Str)) (by decide) (by decide)).2.1 (Int.le_of_eq hroot.symm)
  rwa [hroot] at hjoin

end Cs3650.Nufs
