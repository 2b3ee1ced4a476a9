import Cs3650.Lib.AdjacentSort
import Cs3650.Vectors.SvecProof

/-!
# Sorting lines by length (hw04/starter-hw04/length-sort.c)

`sort` and the loop of `main` that prints count up to `size`, the room of the
vector, and not to `spaces`, the strings in it. The lines are the ones that
`main` has read and chomped.
-/

namespace Cs3650.Vectors

open Cs3650.Lib

/-! ## length-sort.c -/

/-- `strlen(xs->data[ii])` -/
def strlen (heap : Ptr → Option Str) (xs : Svec) (ii : Int) : Except Fault Nat := do
  let p ← xs.load ii
  if p = 0 then .error .badAccess
  else
    match heap p with
    | some s => .ok s.length
    | none => .error .badAccess

/-- The loop of `sort` from `ii` on. -/
def sortLoop (heap : Ptr → Option Str) : Nat → Svec → Int → Except Fault Svec
  | 0, _, _ => .error .outOfTurns
  | turns + 1, xs, ii =>
    if ii < xs.size then
      if ii = 0 then sortLoop heap turns xs (ii + 1)
      else do
        let here ← strlen heap xs ii
        let before ← strlen heap xs (ii - 1)
        if here ≥ before then sortLoop heap turns xs (ii + 1)
        else do
          let xs₁ ← svecSwap xs ii (ii - 1)
          sortLoop heap turns xs₁ (ii - 1)
    else .ok xs

def sort (heap : Ptr → Option Str) (turns : Nat) (xs : Svec) : Except Fault Svec :=
  if xs.size > 1 then sortLoop heap turns xs 0 else .ok xs

/-- The loop that prints, from `ii` on, `n` turns from its end. -/
def printFrom (w : World) (xs : Svec) : Nat → Int → Except Fault (List (Option Str))
  | 0, _ => .ok []
  | n + 1, ii => do
    let p ← svecGet xs ii
    let line ← deref w p
    let lines ← printFrom w xs n (ii + 1)
    return line :: lines

def printAll (w : World) (xs : Svec) : Except Fault (List (Option Str)) :=
  printFrom w xs xs.size.toNat 0

/-- The loop of `main` that fills the vector. -/
def pushLines : World → Svec → List Str → Except Fault (World × Svec)
  | w, xs, [] => .ok (w, xs)
  | w, xs, line :: lines => do
    let (w₁, xs₁) ← Hw04.svecPushBack w xs (some line)
    pushLines w₁ xs₁ lines

def filled (w : World) (lines : List Str) : Except Fault (World × Svec) := do
  let (w₁, xs) ← Hw04.makeSvec w
  pushLines w₁ xs lines

/-! ## The strings of a vector -/

/-- The first slots hold the strings. -/
structure Stores (heap : Ptr → Option Str) (sv : Svec) (xs : List Str) : Prop where
  spaces : sv.spaces = xs.length
  strings : ∀ (i : Nat) (x : Str), xs[i]? = some x → ∃ p, sv.data[i]? = some ⟨p, true⟩ ∧ p ≠ 0 ∧
    heap p = some x

namespace Stores

variable {heap : Ptr → Option Str} {sv : Svec} {xs : List Str}

theorem load (h : Stores heap sv xs) {i : Nat} {x : Str} (hx : xs[i]? = some x) :
    ∃ p, sv.load (i : Int) = .ok p ∧ sv.data[i]? = some ⟨p, true⟩ ∧ p ≠ 0 ∧ heap p = some x := by
  obtain ⟨p, hdata, hp, hheap⟩ := h.strings i x hx
  refine ⟨p, ?_, hdata, hp, hheap⟩
  rw [Svec.load, Svec.slot_of (Int.natCast_nonneg i) hdata]
  rfl

theorem strlen (h : Stores heap sv xs) {i : Nat} {x : Str} (hx : xs[i]? = some x) :
    Vectors.strlen heap sv (i : Int) = .ok x.length := by
  obtain ⟨p, hload, -, hp, hheap⟩ := h.load hx
  rw [Vectors.strlen, hload]
  change (if p = 0 then _ else _) = _
  rw [if_neg hp, hheap]

theorem get (h : Stores heap sv xs) {i : Nat} {x : Str} (hx : xs[i]? = some x) :
    ∃ p, svecGet sv (i : Int) = .ok p ∧ sv.data[i]? = some ⟨p, true⟩ ∧ p ≠ 0 ∧ heap p = some x := by
  obtain ⟨p, hload, hrest⟩ := h.load hx
  have hi : i < xs.length := (List.getElem?_eq_some_iff.mp hx).1
  refine ⟨p, ?_, hrest⟩
  rw [svecGet, if_pos ⟨Int.natCast_nonneg i, by rw [h.spaces]; omega⟩, hload]

theorem swap (h : Stores heap sv xs) {i j : Nat} (hi : i < xs.length) (hj : j < xs.length) :
    ∃ sv', svecSwap sv (i : Int) (j : Int) = .ok sv' ∧ Stores heap sv' (xs.swap i j) ∧
    sv'.size = sv.size ∧
      sv'.data.drop xs.length = sv.data.drop xs.length := by
  obtain ⟨p, hgetp, hp, hp0, hheapp⟩ := h.get (List.getElem?_eq_getElem hi)
  obtain ⟨q, hgetq, hq, hq0, hheapq⟩ := h.get (List.getElem?_eq_getElem hj)
  have hdi : i < sv.data.length := (List.getElem?_eq_some_iff.mp hp).1
  have hdj : j < sv.data.length := (List.getElem?_eq_some_iff.mp hq).1
  have hdata : (sv.data.set i ⟨q, true⟩).set j ⟨p, true⟩ = sv.data.swap i j := by
    rw [List.swap_eq_of_lt hdi hdj, (List.getElem?_eq_some_iff.mp hp).2,
      (List.getElem?_eq_some_iff.mp hq).2]
  refine ⟨⟨sv.size, sv.spaces, sv.data.swap i j⟩, ?_, ⟨?_, ?_⟩, rfl, ?_⟩
  · rw [svecSwap, hgetp, hgetq, ← hdata]
    rfl
  · rw [List.length_swap]
    exact h.spaces
  · intro k x hx
    dsimp only
    by_cases hki : k = i
    · subst hki
      rw [getElem?_swap_left hi hj] at hx
      rw [getElem?_swap_left hdi hdj]
      exact h.strings j x hx
    by_cases hkj : k = j
    · subst hkj
      rw [getElem?_swap_right hi hj] at hx
      rw [getElem?_swap_right hdi hdj]
      exact h.strings i x hx
    rw [getElem?_swap_of_ne hki hkj] at hx ⊢
    exact h.strings k x hx
  · apply List.ext_getElem?
    intro k
    rw [List.getElem?_drop, List.getElem?_drop, getElem?_swap_of_ne (by omega) (by omega)]

end Stores

/-! ## One turn -/

variable {heap : Ptr → Option Str} {sv : Svec} {xs xs₀ : List Str} {turns i : Nat}

theorem sortLoop_first (hsize : 0 < sv.size) :
    sortLoop heap (turns + 1) sv 0 = sortLoop heap turns sv (1 : Nat) := by
  rw [sortLoop, if_pos hsize, if_pos rfl]
  rfl

theorem sortLoop_turn (h : Stores heap sv xs) {a b : Str} (ha : xs[i]? = some a)
    (hb : xs[i + 1]? = some b) (hin : (i + 1 : Nat) < sv.size) :
    sortLoop heap (turns + 1) sv (i + 1 : Nat) =
      if b.length ≥ a.length then sortLoop heap turns sv (i + 2 : Nat)
      else svecSwap sv (i + 1 : Nat) i >>= fun sv' => sortLoop heap turns sv' i := by
  have hpos : ¬((i + 1 : Nat) : Int) = 0 := by omega
  have hback : ((i + 1 : Nat) : Int) - 1 = (i : Nat) := by omega
  have hnext : ((i + 1 : Nat) : Int) + 1 = (i + 2 : Nat) := by omega
  rw [sortLoop, if_pos hin, if_neg hpos, h.strlen hb, hback, h.strlen ha, hnext]
  rfl

/-! ## A vector without room -/

theorem sortLoop_after {m : Nat} {sv₁ sv' : Svec} {ii jj : Int}
    (hturn : ∀ t, sortLoop heap (t + 1) sv ii = sortLoop heap t sv₁ jj)
    (hrest : ∀ turns, m < turns → sortLoop heap turns sv₁ jj = .ok sv') :
    ∀ turns, m + 1 < turns → sortLoop heap turns sv ii = .ok sv' := by
  intro turns ht
  cases turns with
  | zero => omega
  | succ t =>
    rw [hturn]
    exact hrest t (by omega)

theorem sortLoop_done {m : Nat} (h : sv.size ≤ i) :
    ∀ turns, m < turns → sortLoop heap turns sv i = .ok sv := by
  intro turns ht
  cases turns with
  | zero => omega
  | succ t => rw [sortLoop, if_neg (by omega)]

/-- A turn forward leaves less behind the index, a turn back fewer inversions. -/
theorem sortLoop_sorts {m : Nat} (h : Stores heap sv xs) (hfull : sv.size = xs.length)
    (hsort : Sorting List.length xs₀ xs i) (hi : i ≤ xs.length)
    (hm : 2 * inversions List.length xs + (xs.length - i) ≤ m) :
    ∃ sv' ys, (∀ turns, m < turns → sortLoop heap turns sv i = .ok sv') ∧ Stores heap sv' ys ∧
      sv'.size = sv.size ∧ Sorting List.length xs₀ ys ys.length := by
  induction m generalizing sv xs i with
  | zero =>
    obtain rfl : i = xs.length := by omega
    exact ⟨sv, xs, sortLoop_done (by omega), h, rfl, hsort⟩
  | succ m ih =>
    by_cases hend : i = xs.length
    · subst hend
      exact ⟨sv, xs, sortLoop_done (by omega), h, rfl, hsort⟩
    cases i with
    | zero =>
      obtain ⟨sv', ys, hloop, hrest⟩ := ih h hfull hsort.first (by omega) (by omega)
      exact ⟨sv', ys, sortLoop_after (fun t => sortLoop_first (by omega)) hloop, hrest⟩
    | succ i =>
      have ha := List.getElem?_eq_getElem (show i < xs.length by omega)
      have hb := List.getElem?_eq_getElem (show i + 1 < xs.length by omega)
      have hturn : ∀ t, sortLoop heap (t + 1) sv (i + 1 : Nat) =
          if xs[i + 1].length ≥ xs[i].length then sortLoop heap t sv (i + 2 : Nat)
          else svecSwap sv (i + 1 : Nat) i >>= fun sv' => sortLoop heap t sv' i :=
        fun t => sortLoop_turn h ha hb (by omega)
      by_cases hle : xs[i + 1].length ≥ xs[i].length
      · obtain ⟨sv', ys, hloop, hrest⟩ := ih h hfull (hsort.forward ha hb hle) (by omega) (by omega)
        refine ⟨sv', ys, sortLoop_after (fun t => ?_) hloop, hrest⟩
        rw [hturn, if_pos hle]
      · obtain ⟨hback, hinv⟩ := hsort.back ha hb (by omega)
        obtain ⟨sv₁, hswap, h₁, hsize, -⟩ :=
          h.swap (show i + 1 < xs.length by omega) (show i < xs.length by omega)
        obtain ⟨sv', ys, hloop, hys, hsize', hrest⟩ :=
          ih h₁ (by rw [hsize, List.length_swap, hfull]) hback (by rw [List.length_swap]; omega)
            (by rw [List.length_swap]; omega)
        refine ⟨sv', ys, sortLoop_after (fun t => ?_) hloop, hys, hsize'.trans hsize, hrest⟩
        rw [hturn, if_neg hle, hswap]
        rfl

theorem sort_sorts (h : Stores heap sv xs) (hfull : sv.size = sv.spaces) (h2 : 2 ≤ sv.size) :
    ∃ sv' ys,
    (∀ turns, 2 * inversions List.length xs + xs.length < turns → sort heap turns sv = .ok sv') ∧
      Stores heap sv' ys ∧ sv'.size = sv.size ∧ Sorting List.length xs ys ys.length := by
  obtain ⟨sv', ys, hloop, hrest⟩ := sortLoop_sorts h (hfull.trans h.spaces) (Sorting.init xs)
    (Nat.zero_le _) (Nat.le_refl _)
  refine ⟨sv', ys, ?_, hrest⟩
  intro turns ht
  rw [sort, if_pos (by omega)]
  exact hloop turns ht

theorem sort_stable (h : Stores heap sv xs) (hfull : sv.size = sv.spaces) (h2 : 2 ≤ sv.size) :
    ∃ sv' ys,
    (∀ turns, 2 * inversions List.length xs + xs.length < turns → sort heap turns sv = .ok sv') ∧
      Stores heap sv' ys ∧ ys.Perm xs ∧ ys.Pairwise (fun a b => a.length ≤ b.length) ∧
      ∀ k, ys.filter (fun a => a.length == k) = xs.filter fun a => a.length == k := by
  obtain ⟨sv', ys, hsort, hys, -, hsorted⟩ := sort_sorts h hfull h2
  exact ⟨sv', ys, hsort, hys, hsorted.perm, hsorted.done (Nat.le_refl _), hsorted.stable⟩

/-! ## A vector with room -/

/-- The slots past the strings were never written. -/
def Unfilled (sv : Svec) (n : Nat) : Prop := ∀ k ≥ n, ∀ s ∈ sv.data[k]?, s.written = false

theorem strlen_unfilled (h : Unfilled sv xs.length) (hi : xs.length ≤ i) :
    strlen heap sv (i : Int) = .error .badAccess := by
  rw [strlen, Svec.load, Svec.slot, if_neg (by omega), Int.toNat_natCast]
  cases hs : sv.data[i]? with
  | none => rfl
  | some s =>
    have hw := h i hi s hs
    change (if s.written then _ else _) >>= _ = _
    rw [hw]
    rfl

/-- The index cannot pass the strings, and before `size` the loop does not end. -/
theorem sortLoop_unfilled (h : Stores heap sv xs) (hroom : Unfilled sv xs.length)
    (hlt : xs.length < sv.size)
    (h2 : 1 < sv.size) (hi : i ≤ max xs.length 1) : ∀ sv', sortLoop heap turns sv i ≠ .ok sv' := by
  induction turns generalizing sv xs i with
  | zero => exact fun _ => nofun
  | succ turns ih =>
    cases i with
    | zero =>
      rw [show ((0 : Nat) : Int) = 0 from rfl, sortLoop_first (by omega)]
      exact ih h hroom hlt h2 (by omega)
    | succ i =>
      rcases Nat.lt_or_ge (i + 1) xs.length with hin | hpast
      · have ha := List.getElem?_eq_getElem (show i < xs.length by omega)
        have hb := List.getElem?_eq_getElem hin
        rw [sortLoop_turn h ha hb (by omega)]
        split
        · exact ih h hroom hlt h2 (by omega)
        · obtain ⟨sv₁, hswap, h₁, hsize, hdrop⟩ := h.swap hin (show i < xs.length by omega)
          rw [hswap]
          refine ih h₁ ?_ (by rw [List.length_swap, hsize]; exact hlt) (by rw [hsize]; exact h2)
            (by rw [List.length_swap]; omega)
          rw [List.length_swap]
          intro k hk s hs
          obtain ⟨d, rfl⟩ := Nat.exists_eq_add_of_le hk
          rw [← List.getElem?_drop, hdrop, List.getElem?_drop] at hs
          exact hroom _ (by omega) s hs
      · rw [sortLoop, if_pos (by omega), if_neg (by omega), strlen_unfilled hroom hpast]
        exact fun _ => nofun

/-! ## The vector that `main` fills -/

/-- The vector grows only when it is full. -/
def Tight (sv : Svec) : Prop := sv.size = 2 ∨ sv.size < 2 * sv.spaces

/-- What `main` has after it pushed the lines. -/
structure Filled (R : Set Ptr) (w : World) (sv : Svec) (lines : List Str) : Prop where
  inv : Inv false R w.heap [sv] [lines.map some]
  tight : Tight sv

theorem pushLines_spec {R : Set Ptr} {w : World} {pushed lines : List Str}
    (h : Filled R w sv pushed) :
    Returns (PushFault false) (fun r =>
      Filled R r.1 r.2 (pushed ++ lines)) (pushLines w sv lines) := by
  induction lines generalizing w sv pushed with
  | nil =>
    rw [List.append_nil]
    exact h
  | cons line lines ih =>
    refine Returns.bind (pushBack_spec (v := 0) h.inv rfl rfl (some line)) ?_
    rintro ⟨w₁, sv₁⟩ ⟨hinv, hspaces, hsize⟩
    dsimp only at hinv hspaces hsize ⊢
    have hnext : Filled R w₁ sv₁ (pushed ++ [line]) := by
      refine ⟨?_, ?_⟩
      · rw [List.map_append]
        exact hinv
      · have hwf := h.inv.wellFormed sv (List.mem_singleton_self sv)
        have hle := hwf.spaces_le
        have ht := h.tight
        unfold Tight at ht ⊢
        split at hsize
        · omega
        · omega
    have := ih hnext
    rwa [List.append_assoc] at this

theorem filled_spec (w : World) (lines : List Str) :
    Returns (PushFault false) (fun r => ∃ R, Filled R r.1 r.2 lines) (filled w lines) := by
  unfold filled Hw04.makeSvec
  rcases malloc_cases w (bytes 2) with hrefused | ⟨-, hgranted⟩
  · rw [hrefused]
    exact Or.inl rfl
  rw [hgranted]
  have hnil : Inv false {p | (w.heap p).isSome} w.heap [] [] := Inv.nil w.heap
  have hinv := hnil.make (length_fresh w.answer (bytes 2 / 8)) (by
    intro s hs
    obtain ⟨k, -, rfl⟩ := List.mem_map.mp hs
    exact rfl)
  have hempty : Filled {p | (w.heap p).isSome} w.answered ⟨2, 0, fresh w.answer (bytes 2 / 8)⟩ [] :=
    ⟨hinv, Or.inl rfl⟩
  exact (pushLines_spec hempty).mono fun _ h => ⟨_, h⟩

namespace Filled

variable {R : Set Ptr} {w : World} {lines : List Str}

theorem wellFormed (h : Filled R w sv lines) : sv.WellFormed false :=
  h.inv.wellFormed sv (List.mem_singleton_self sv)

theorem contents (h : Filled R w sv lines) : sv.contents w.heap = lines.map some :=
  (List.cons.inj h.inv.contents).1

theorem spaces (h : Filled R w sv lines) : sv.spaces = lines.length := by
  rw [← Svec.length_contents w.heap h.wellFormed, h.contents, List.length_map]

theorem stores (h : Filled R w sv lines) : Stores w.heap sv lines := by
  refine ⟨h.spaces, ?_⟩
  intro i x hx
  have hi : i < sv.spaces.toNat := by
    have := (List.getElem?_eq_some_iff.mp hx).1
    rw [h.spaces]
    omega
  have hitem := Svec.getElem?_contents w.heap sv hi
  rw [h.contents, List.getElem?_map, hx] at hitem
  obtain ⟨s, hs, hsx⟩ := Option.map_eq_some_iff.mp hitem.symm
  unfold Slot.item at hsx
  split at hsx
  · cases hsx
  · rename_i hp
    exact ⟨s.ptr, by rw [hs, ← h.wellFormed.written i hi s hs], hp, hsx⟩

theorem unfilled (h : Filled R w sv lines) : Unfilled sv lines.length := by
  intro k hk s hs
  refine h.wellFormed.room k ?_ s hs
  rw [h.spaces]
  exact hk

/-- There is no room left exactly after 2, 4, 8, … lines. -/
theorem full_iff (h : Filled R w sv lines) : sv.size = sv.spaces ↔
    ∃ j ≥ 1, lines.length = 2 ^ j := by
  obtain ⟨j, -, hpow⟩ := h.wellFormed.size_pow
  have hle := h.wellFormed.spaces_le
  have ht := h.tight
  have hsize : sv.size = ((2 ^ (j + 1) : Nat) : Int) := by
    rw [hpow, pow_succ]
    push_cast
    ring
  rw [h.spaces] at hle ⊢
  unfold Tight at ht
  rw [h.spaces] at ht
  constructor
  · intro hfull
    exact ⟨j + 1, by omega, by omega⟩
  · rintro ⟨i, hi, hlen⟩
    have hle' : i ≤ j + 1 := (Nat.pow_le_pow_iff_right (by norm_num : 1 < 2)).mp (by omega)
    have hge : j + 1 < i + 1 := by
      rcases ht with h2 | hlt
      · have : j + 1 = 1 := Nat.pow_right_injective (Nat.le_refl 2) (by dsimp only; omega)
        omega
      · refine (Nat.pow_lt_pow_iff_right (by norm_num : 1 < 2)).mp ?_
        rw [pow_succ 2 i]
        omega
    obtain rfl : i = j + 1 := by omega
    omega

end Filled

/-! ## The program -/

theorem printFrom_stores {w : World} (h : Stores w.heap sv xs) (n : Nat) (hi : i + n = xs.length) :
    printFrom w sv n (i : Int) = .ok ((xs.drop i).map some) := by
  induction n generalizing i with
  | zero =>
    rw [List.drop_of_length_le (by omega)]
    rfl
  | succ n ih =>
    have hx := List.getElem?_eq_getElem (show i < xs.length by omega)
    obtain ⟨p, hget, -, hp, hheap⟩ := h.get hx
    have hnext : ((i : Int) + 1) = (i + 1 : Nat) := by omega
    have hderef : deref w p = .ok (some xs[i]) := by rw [deref, if_neg hp, hheap]
    rw [printFrom, hget, hnext, List.drop_eq_getElem_cons (show i < xs.length by omega)]
    change (deref w p >>= _) = _
    rw [hderef]
    change (printFrom w sv n (i + 1 : Nat) >>= _) = _
    rw [ih (by omega)]
    rfl

/-- `sort` ends and the loop behind it prints the lines, each once and by length. -/
def SortsLines (w : World) (xs : Svec) (lines : List Str) : Prop :=
  ∃ (turns : Nat) (xs' : Svec) (printed : List Str), sort w.heap turns xs = .ok xs' ∧
    printAll w xs' = .ok (printed.map some) ∧ printed.Perm lines ∧ printed.Pairwise fun a b =>
    a.length ≤ b.length

theorem sortsLines_of_full {w : World} (h : Stores w.heap sv xs) (hfull : sv.size = sv.spaces)
    (h2 : 2 ≤ sv.size) : SortsLines w sv xs := by
  obtain ⟨sv', ys, hsort, hys, hsize, hsorted⟩ := sort_sorts h hfull h2
  refine ⟨2 * inversions List.length xs + xs.length + 1, sv', ys, hsort _ (Nat.lt_succ_self _), ?_,
    hsorted.perm, hsorted.done (Nat.le_refl _)⟩
  have hlen : sv'.size.toNat = ys.length := by
    rw [hsize, hfull, h.spaces, hsorted.perm.length_eq]
    rfl
  rw [printAll, hlen]
  exact printFrom_stores hys ys.length (Nat.zero_add _)

theorem not_sortsLines_of_room {w : World} (h : Stores w.heap sv xs) (hroom : Unfilled sv xs.length)
    (hlt : xs.length < sv.size) (h2 : 2 ≤ sv.size) : ¬SortsLines w sv xs := by
  rintro ⟨turns, xs', printed, hsort, -⟩
  rw [sort, if_pos (by omega)] at hsort
  exact sortLoop_unfilled h hroom hlt (by omega) (Nat.zero_le _) xs' hsort

theorem Filled.two_le {R : Set Ptr} {w : World} {lines : List Str} (h : Filled R w sv lines) :
    2 ≤ sv.size := by
  obtain ⟨j, -, hpow⟩ := h.wellFormed.size_pow
  have : (0 : Int) < 2 ^ j := pow_pos (by norm_num) j
  omega

/-- Whatever the memory answers: where the pushes return, the rest works exactly
after 2, 4, 8, … lines. -/
theorem length_sort_works_iff (w : World) (lines : List Str) :
    Returns (PushFault false) (fun r => SortsLines r.1 r.2 lines ↔ ∃ j ≥ 1, lines.length = 2 ^ j)
      (filled w lines) := by
  refine (filled_spec w lines).mono ?_
  rintro ⟨w', sv⟩ ⟨R, h⟩
  dsimp only at h ⊢
  rw [← h.full_iff]
  constructor
  · intro hworks
    have hle := h.wellFormed.spaces_le
    by_contra hne
    have hspaces := h.spaces
    exact not_sortsLines_of_room h.stores h.unfilled (by omega) h.two_le hworks
  · intro hfull
    exact sortsLines_of_full h.stores hfull h.two_le

/-! ### One line -/

theorem one_line_reads_past :
    ∃ w xs, filled zeroed [[0x61]] = .ok (w, xs) ∧ ¬SortsLines w xs [[0x61]] := by
  refine ⟨_, _, rfl, ?_⟩
  obtain ⟨R, h⟩ := (filled_spec zeroed [[0x61]]).of_ok rfl
  exact not_sortsLines_of_room h.stores h.unfilled (by decide) h.two_le

theorem sort_stable_two :
    ∃ w xs, filled zeroed [[0x61, 0x62], [0x61]] = .ok (w, xs) ∧
      ∃ sv' ys, (∀ turns, 4 < turns → sort w.heap turns xs = .ok sv') ∧ Stores w.heap sv' ys ∧
        ys.Perm [[0x61, 0x62], [0x61]] ∧ ys.Pairwise (fun a b => a.length ≤ b.length) ∧
        ∀ k, ys.filter (fun a => a.length == k) =
          List.filter (fun a => a.length == k) [[0x61, 0x62], [0x61]] := by
  refine ⟨_, _, rfl, ?_⟩
  obtain ⟨R, h⟩ := (filled_spec zeroed [[0x61, 0x62], [0x61]]).of_ok rfl
  exact sort_stable h.stores (by decide) h.two_le

example : (filled zeroed [[0x61, 0x62], [0x61]]).toOption.map
    (fun r => (sort r.1.heap 5 r.2).toOption.map (printAll r.1)) =
      some (some (.ok [some [0x61], some [0x61, 0x62]])) := by decide

end Cs3650.Vectors
