import Cs3650.Vectors.SvecProof

/-!
# String vectors as lists (chal1/challenge01/svec.c)

A program makes vectors and calls the functions of svec.c on them, with indices
that pass the assertions. Beside the vectors run lists, on which the same calls
append, update, swap, reverse, take a slice and copy.
-/

namespace Cs3650.Vectors

open Cs3650.Lib

abbrev Items := List (Option Str)

/-- A call; `v` is the number of the vector it is made on. -/
inductive Op
  | make
  | pushBack (v : Nat) (item : Option Str)
  | put (v : Nat) (ii : Int) (item : Option Str)
  | swap (v : Nat) (ii jj : Int)
  | reverse (v : Nat)
  | sub (v : Nat) (startIndex endIndex : Int)
  | clone (v : Nat)
  deriving DecidableEq, Repr

def vector (vecs : List Svec) (v : Nat) : Except Fault Svec :=
  match vecs[v]? with
  | some sv => .ok sv
  | none => .error .badAccess

def Op.run (w : World) (vecs : List Svec) : Op → Except Fault (World × List Svec)
  | .make => do
    let (w₁, sv) ← Chal1.makeSvec w
    return (w₁, vecs ++ [sv])
  | .pushBack v item => do
    let sv ← vector vecs v
    let (w₁, sv₁) ← Chal1.svecPushBack w sv item
    return (w₁, vecs.set v sv₁)
  | .put v ii item => do
    let sv ← vector vecs v
    let (w₁, sv₁) ← svecPut w sv ii item
    return (w₁, vecs.set v sv₁)
  | .swap v ii jj => do
    let sv ← vector vecs v
    let sv₁ ← svecSwap sv ii jj
    return (w, vecs.set v sv₁)
  | .reverse v => do
    let sv ← vector vecs v
    let sv₁ ← Chal1.svecReverse sv
    return (w, vecs.set v sv₁)
  | .sub v startIndex endIndex => do
    let sv ← vector vecs v
    let (w₁, sv₁) ← Chal1.subSvec w sv startIndex endIndex
    return (w₁, vecs ++ [sv₁])
  | .clone v => do
    let sv ← vector vecs v
    let (w₁, sv₁) ← Chal1.svecClone w sv
    return (w₁, vecs ++ [sv₁])

def runOps : World → List Svec → List Op → Except Fault (World × List Svec)
  | w, vecs, [] => .ok (w, vecs)
  | w, vecs, op :: ops => do
    let (w₁, vecs₁) ← op.run w vecs
    runOps w₁ vecs₁ ops

/-! ## Lists -/

def Op.onLists (ls : List Items) : Op → List Items
  | .make => ls ++ [[]]
  | .pushBack v item => ls.set v (ls.getD v [] ++ [item])
  | .put v ii item => ls.set v ((ls.getD v []).set ii.toNat item)
  | .swap v ii jj => ls.set v ((ls.getD v []).swap ii.toNat jj.toNat)
  | .reverse v => ls.set v (ls.getD v []).reverse
  | .sub v startIndex endIndex => ls ++ [((ls.getD v []).take endIndex.toNat).drop startIndex.toNat]
  | .clone v => ls ++ [ls.getD v []]

/-- The assertions hold of the indices. -/
def Op.InBounds (ls : List Items) : Op → Prop
  | .make => True
  | .pushBack v _ => v < ls.length
  | .put v ii _ => v < ls.length ∧ 0 ≤ ii ∧ ii < (ls.getD v []).length
  | .swap v ii jj =>
    v < ls.length ∧ (0 ≤ ii ∧ ii < (ls.getD v []).length) ∧ 0 ≤ jj ∧ jj < (ls.getD v []).length
  | .reverse v => v < ls.length
  | .sub v startIndex endIndex => v < ls.length ∧ 0 ≤ startIndex ∧ endIndex ≤ (ls.getD v []).length
  | .clone v => v < ls.length

instance (ls : List Items) : (op : Op) → Decidable (op.InBounds ls)
  | .make => inferInstanceAs (Decidable True)
  | .pushBack v _ => inferInstanceAs (Decidable (v < ls.length))
  | .put _ _ _ => inferInstanceAs (Decidable (_ ∧ _ ∧ _))
  | .swap _ _ _ => inferInstanceAs (Decidable (_ ∧ (_ ∧ _) ∧ _ ∧ _))
  | .reverse v => inferInstanceAs (Decidable (v < ls.length))
  | .sub _ _ _ => inferInstanceAs (Decidable (_ ∧ _ ∧ _))
  | .clone v => inferInstanceAs (Decidable (v < ls.length))

def opsOnLists (ls : List Items) (ops : List Op) : List Items := ops.foldl Op.onLists ls

def OpsInBounds : List Items → List Op → Prop
  | _, [] => True
  | ls, op :: ops => op.InBounds ls ∧ OpsInBounds (op.onLists ls) ops

instance : (ls : List Items) → (ops : List Op) → Decidable (OpsInBounds ls ops)
  | _, [] => inferInstanceAs (Decidable True)
  | ls, op :: ops =>
    have := instDecidableOpsInBounds (op.onLists ls) ops
    inferInstanceAs (Decidable (_ ∧ _))

variable {R : Set Ptr} {w : World} {heap : Ptr → Option Str} {vecs : List Svec} {sv : Svec}
  {ls : List Items} {l : Items} {v : Nat}

/-! ## Swaps -/

theorem map_swap {α β : Type} (f : α → β) (xs : List α) (i j : Nat) :
    (xs.swap i j).map f = (xs.map f).swap i j := by
  by_cases h : i < xs.length ∧ j < xs.length
  · rw [List.swap_eq_of_lt h.1 h.2, List.swap_eq_of_lt (by simpa using h.1) (by simpa using h.2)]
    simp [List.map_set]
  · rw [List.swap_eq, List.swap_eq, dif_neg h, dif_neg (by simpa using h)]

theorem take_swap {α : Type} (xs : List α) {i j n : Nat} (hi : i < n) (hj : j < n)
    (hn : n ≤ xs.length) : (xs.swap i j).take n = (xs.take n).swap i j := by
  rw [List.swap_eq_of_lt (by omega) (by omega),
    List.swap_eq_of_lt (by simp; omega) (by simp; omega)]
  simp [List.take_set]

/-- A slot in use, read through `svec_get`. -/
theorem svecGet_of (h : Inv true R heap vecs ls) (hv : vecs[v]? = some sv)
    (hl : ls[v]? = some l) {ii : Int} (h0 : 0 ≤ ii) (hi : ii < l.length) :
    ∃ s, sv.data[ii.toNat]? = some s ∧ s.written = true ∧ svecGet sv ii = .ok s.ptr ∧
      l[ii.toNat]? = some (s.item heap) := by
  have hwf := h.wellFormed sv (List.mem_of_getElem? hv)
  have hspaces := h.length_list hv hl
  have hin : ii.toNat < sv.spaces.toNat := by omega
  have hs := List.getElem?_eq_getElem (Svec.data_lt hwf hin)
  have hw := hwf.written _ hin _ hs
  refine ⟨_, hs, hw, ?_, ?_⟩
  · rw [svecGet, if_pos ⟨h0, by omega⟩, Svec.load, Svec.slot_of h0 hs]
    exact if_pos hw
  · rw [h.contents_of hv] at hl
    obtain rfl := Option.some.inj hl
    rw [Svec.getElem?_contents heap sv hin, hs]
    rfl

theorem Svec.WellFormed.swap (h : sv.WellFormed true) {i j : Nat} (hi : i < sv.spaces.toNat)
    (hj : j < sv.spaces.toNat) : ({ sv with data := sv.data.swap i j } : Svec).WellFormed true where
  nonneg := h.nonneg
  spaces_le := h.spaces_le
  size_pow := h.size_pow
  length := by
    change ((sv.data.swap i j).length : Int) = sv.size
    rw [List.length_swap]
    exact h.length
  written := by
    intro k hk s hs
    obtain ⟨k', hsame, hk'⟩ := exists_getElem?_swap sv.data i j k
    change k < sv.spaces.toNat at hk
    change s ∈ (sv.data.swap i j)[k]? at hs
    rw [hsame] at hs
    exact h.written k' (by omega) s hs
  room := by
    intro k hk s hs
    change sv.spaces.toNat ≤ k at hk
    change s ∈ (sv.data.swap i j)[k]? at hs
    rw [getElem?_swap_of_ne (by omega) (by omega)] at hs
    exact h.room k hk s hs

theorem holds_swap (h : sv.WellFormed true) (hv : vecs[v]? = some sv) {i j : Nat}
    (hi : i < sv.spaces.toNat) (hj : j < sv.spaces.toNat) :
    holds (vecs.set v { sv with data := sv.data.swap i j }) =
      fun a => holds vecs (Equiv.swap (v, i) (v, j) a) := by
  have hdi := Svec.data_lt h hi
  have hdj := Svec.data_lt h hj
  funext ⟨u, k⟩
  by_cases hu : u = v
  · subst hu
    rw [holds_set hv]
    dsimp only
    by_cases hki : k = i
    · subst hki
      rw [getElem?_swap_left hdi hdj, Equiv.swap_apply_left, holds_of hv]
    by_cases hkj : k = j
    · subst hkj
      rw [getElem?_swap_right hdi hdj, Equiv.swap_apply_right, holds_of hv]
    rw [getElem?_swap_of_ne hki hkj,
      Equiv.swap_apply_of_ne_of_ne (fun e => hki (congrArg Prod.snd e))
      (fun e => hkj (congrArg Prod.snd e)), holds_of hv]
  · rw [holds_set_of_ne hu, Equiv.swap_apply_of_ne_of_ne (fun e => hu (congrArg Prod.fst e))
      (fun e => hu (congrArg Prod.fst e))]

theorem Svec.contents_swap (h : sv.WellFormed true) {i j : Nat} (hi : i < sv.spaces.toNat)
    (hj : j < sv.spaces.toNat) :
    Svec.contents heap { sv with data := sv.data.swap i j } = (sv.contents heap).swap i j := by
  have h1 := h.spaces_le
  have h2 := h.length
  change ((sv.data.swap i j).take sv.spaces.toNat).map _ = _
  rw [take_swap _ hi hj (by omega), map_swap]
  rfl

theorem svecSwap_spec (h : Inv true R heap vecs ls) (hv : vecs[v]? = some sv) (hl : ls[v]? = some l)
    {ii jj : Int} (hi : 0 ≤ ii ∧ ii < l.length) (hj : 0 ≤ jj ∧ jj < l.length) :
    ∃ sv', svecSwap sv ii jj = .ok sv' ∧
      Inv true R heap (vecs.set v sv') (ls.set v (l.swap ii.toNat jj.toNat)) ∧
      sv'.spaces = sv.spaces := by
  have hwf := h.wellFormed sv (List.mem_of_getElem? hv)
  have hspaces := h.length_list hv hl
  obtain ⟨s, hs, hsw, hgets, -⟩ := svecGet_of h hv hl hi.1 hi.2
  obtain ⟨t, ht, htw, hgett, -⟩ := svecGet_of h hv hl hj.1 hj.2
  have hin : ii.toNat < sv.spaces.toNat := by omega
  have hjn : jj.toNat < sv.spaces.toNat := by omega
  have hs' : (⟨s.ptr, true⟩ : Slot) = s := by rw [← hsw]
  have ht' : (⟨t.ptr, true⟩ : Slot) = t := by rw [← htw]
  have hdata : (sv.data.set ii.toNat ⟨t.ptr, true⟩).set jj.toNat ⟨s.ptr, true⟩ =
      sv.data.swap ii.toNat jj.toNat := by
    rw [List.swap_eq_of_lt (Svec.data_lt hwf hin) (Svec.data_lt hwf hjn),
      (List.getElem?_eq_some_iff.mp hs).2, (List.getElem?_eq_some_iff.mp ht).2, hs', ht']
  refine ⟨{ sv with data := sv.data.swap ii.toNat jj.toNat }, ?_, ?_, rfl⟩
  · rw [svecSwap, hgets, hgett, ← hdata]
    rfl
  · refine h.set hv (hwf.swap hin hjn) ?_ (fun _ _ _ _ _ => rfl) ?_
    · rw [holds_swap hwf hv hin hjn]
      exact h.exact.reindex _ (fun a => by simp)
    · rw [h.contents_of hv] at hl
      obtain rfl := Option.some.inj hl
      exact Svec.contents_swap hwf hin hjn

/-! ## Reversing -/

/-- The outer `ii` entries on both sides have traded places. -/
structure Reversing (l l' : Items) (ii : Nat) : Prop where
  length : l'.length = l.length
  entries : ∀ k < l.length,
    l'[k]? = if k < ii ∨ l.length - ii ≤ k then l[l.length - 1 - k]? else l[k]?

theorem Reversing.init (l : Items) : Reversing l l 0 :=
  ⟨rfl, fun k hk => (if_neg (by omega)).symm⟩

theorem Reversing.turn {l l' : Items} {ii : Nat} (h : Reversing l l' ii)
    (hii : 2 * (ii + 1) ≤ l.length) : Reversing l (l'.swap ii (l.length - ii - 1)) (ii + 1) := by
  have hlen := h.length
  refine ⟨by rw [List.length_swap, hlen], ?_⟩
  intro k hk
  by_cases hki : k = ii
  · rw [hki, getElem?_swap_left (by omega) (by omega), h.entries _ (by omega), if_neg (by omega),
      if_pos (by omega), show l.length - 1 - ii = l.length - ii - 1 by omega]
  by_cases hkj : k = l.length - ii - 1
  · rw [hkj, getElem?_swap_right (by omega) (by omega), h.entries _ (by omega), if_neg (by omega),
      if_pos (by omega), show l.length - 1 - (l.length - ii - 1) = ii by omega]
  rw [getElem?_swap_of_ne hki hkj, h.entries k hk]
  by_cases hout : k < ii ∨ l.length - ii ≤ k
  · rw [if_pos hout, if_pos (by omega)]
  · rw [if_neg hout, if_neg (by omega)]

theorem Reversing.done {l l' : Items} {ii : Nat} (h : Reversing l l' ii) (hii : ii = l.length / 2) :
    l' = l.reverse := by
  apply List.ext_getElem?
  intro k
  rcases Nat.lt_or_ge k l.length with hk | hk
  · rw [h.entries k hk, List.getElem?_reverse hk]
    split
    · rfl
    · rw [show l.length - 1 - k = k by omega]
  · rw [List.getElem?_eq_none (by rw [h.length]; exact hk),
      List.getElem?_eq_none (by simpa using hk)]

theorem reverseFrom_spec {l l' : Items} {ii : Nat} (turns : Nat) (h : Inv true R heap vecs ls)
    (hv : vecs[v]? = some sv) (hl : ls[v]? = some l') (hrev : Reversing l l' ii)
    (ht : ii + turns = l.length / 2) :
    ∃ sv', Chal1.reverseFrom turns sv ii = .ok sv' ∧
    Inv true R heap (vecs.set v sv') (ls.set v l.reverse) := by
  induction turns generalizing vecs sv ls l' ii with
  | zero =>
    have hspaces := h.length_list hv hl
    have hlen := hrev.length
    have hhalf : sv.spaces.tdiv 2 = ((l.length / 2 : Nat) : Int) := by
      rw [← hspaces, hlen]
      rfl
    obtain rfl := hrev.done ht
    refine ⟨sv, ?_, ?_⟩
    · rw [Chal1.reverseFrom, hhalf, if_neg (by omega)]
    · rw [set_same hv, set_same hl]
      exact h
  | succ turns ih =>
    have hspaces := h.length_list hv hl
    have hlen := hrev.length
    have hhalf : sv.spaces.tdiv 2 = ((l.length / 2 : Nat) : Int) := by
      rw [← hspaces, hlen]
      rfl
    have hlt₁ : v < vecs.length := (List.getElem?_eq_some_iff.mp hv).1
    have hlt₂ : v < ls.length := (List.getElem?_eq_some_iff.mp hl).1
    have hjj : sv.spaces - ii - 1 = ((l.length - ii - 1 : Nat) : Int) := by omega
    have hi : 0 ≤ (ii : Int) ∧ (ii : Int) < l'.length := by omega
    have hj : 0 ≤ ((l.length - ii - 1 : Nat) : Int) ∧
        ((l.length - ii - 1 : Nat) : Int) < l'.length := by omega
    obtain ⟨sv₁, hswap, h₁, hspaces₁⟩ := svecSwap_spec h hv hl hi hj
    rw [Int.toNat_natCast, Int.toNat_natCast] at h₁
    obtain ⟨sv', hloop, h'⟩ := ih h₁ (List.getElem?_set_self hlt₁) (List.getElem?_set_self hlt₂)
      (hrev.turn (by omega)) (by omega)
    refine ⟨sv', ?_, ?_⟩
    · rw [Chal1.reverseFrom, hhalf, if_pos (by omega), hjj, hswap]
      exact hloop
    · rwa [List.set_set, List.set_set] at h'

theorem svecReverse_spec (h : Inv true R heap vecs ls) (hv : vecs[v]? = some sv)
    (hl : ls[v]? = some l) :
    ∃ sv', Chal1.svecReverse sv = .ok sv' ∧
    Inv true R heap (vecs.set v sv') (ls.set v l.reverse) := by
  have hspaces := h.length_list hv hl
  have hhalf : (sv.spaces.tdiv 2).toNat = l.length / 2 := by
    rw [← hspaces]
    rfl
  rw [Chal1.svecReverse, hhalf]
  exact reverseFrom_spec (l.length / 2) h hv hl (Reversing.init l) (Nat.zero_add _)

/-! ## Calls that take memory -/

/-- A call stops for want of memory only, and not where every request is granted
and the lists fit. -/
def Stops (w : World) (fits : Prop) (e : Fault) : Prop := e = .outOfMemory ∧ ¬(Grants w ∧ fits)

theorem makeSvec_spec (h : Inv true R w.heap vecs ls) :
    Returns (Stops w True)
      (fun r => Inv true R r.1.heap (vecs ++ [r.2]) (ls ++ [[]]) ∧
        (Grants w → Grants r.1)) (Chal1.makeSvec w) := by
  unfold Chal1.makeSvec
  rcases malloc_cases w (bytes 2) with hrefused | ⟨-, hgranted⟩
  · rw [hrefused]
    refine ⟨rfl, fun hg => ?_⟩
    rw [hg.1.malloc (by decide)] at hrefused
    cases hrefused
  · rw [hgranted]
    change Returns _ _ (.ok (w.answered, (⟨2, 0, List.replicate 2 ⟨0, true⟩⟩ : Svec)))
    exact ⟨h.make List.length_replicate (fun s hs => List.eq_of_mem_replicate hs), Grants.answered⟩

theorem svecPushBack_spec (h : Inv true R w.heap vecs ls) (hv : vecs[v]? = some sv)
    (hl : ls[v]? = some l) (item : Option Str) :
    Returns (Stops w (l.length < 2 ^ 30))
      (fun r => Inv true R r.1.heap (vecs.set v r.2) (ls.set v (l ++ [item])) ∧
        (Grants w → Grants r.1))
      (Chal1.svecPushBack w sv item) := by
  have hwf := h.wellFormed sv (List.mem_of_getElem? hv)
  have hspaces := h.length_list hv hl
  refine (((pushBack_spec h hv hl item).both (c := Grants w) fun hg =>
    hg.pushBack hwf item).mono_fault ?_).mono fun r hr => ⟨hr.1.1, hr.2⟩
  rintro e ⟨he | ⟨hclear, -⟩, hg⟩
  · refine ⟨he, ?_⟩
    rintro ⟨hgrants, hfits⟩
    exact hg hgrants he (by omega)
  · cases hclear

theorem svecPut_stops (h : Inv true R w.heap vecs ls) (hv : vecs[v]? = some sv)
    (hl : ls[v]? = some l) {ii : Int} (h0 : 0 ≤ ii) (hi : ii < l.length) (item : Option Str) :
    Returns (Stops w True)
      (fun r => Inv true R r.1.heap (vecs.set v r.2) (ls.set v (l.set ii.toNat item)) ∧
        (Grants w → Grants r.1))
      (svecPut w sv ii item) := by
  refine ((svecPut_spec h hv hl h0 hi item).both (c := Grants w) fun hg =>
    hg.svecPut sv ii item).mono_fault ?_
  rintro e ⟨he, hg⟩
  exact ⟨he, fun hgrants => hg hgrants.1 he⟩

theorem deref_item {s : Slot} {x : Option Str} (h : s.item w.heap = x)
    (hlive : s.ptr ≠ 0 → (w.heap s.ptr).isSome) : deref w s.ptr = .ok x := by
  unfold deref
  unfold Slot.item at h
  by_cases hz : s.ptr = 0
  · rw [if_pos hz] at h ⊢
    rw [← h]
  · rw [if_neg hz] at h ⊢
    obtain ⟨t, ht⟩ := Option.isSome_iff_exists.mp (hlive hz)
    rw [← h, ht]

theorem set_last {α : Type} (xs : List α) (x y : α) : (xs ++ [x]).set xs.length y = xs ++ [y] := by
  rw [List.set_append_right _ _ (Nat.le_refl _), Nat.sub_self]
  rfl

theorem subFrom_spec {newSv : Svec} {m : Items} {endIndex : Int} {ii : Nat} (turns : Nat)
    (h : Inv true R w.heap (vecs ++ [newSv]) (ls ++ [m])) (hv : vecs[v]? = some sv)
    (hl : ls[v]? = some l)
    (hlen : vecs.length = ls.length) (hend : endIndex ≤ l.length)
    (ht : (endIndex - ii).toNat = turns) : Returns (Stops w (m.length + turns ≤ 2 ^ 30))
      (fun r => Inv true R r.1.heap (vecs ++ [r.2]) (ls ++ [m ++ (l.take endIndex.toNat).drop ii]) ∧
        (Grants w → Grants r.1))
      (Chal1.subFrom sv endIndex turns w newSv ii) := by
  induction turns generalizing w newSv m ii with
  | zero =>
    rw [Chal1.subFrom, if_neg (by omega)]
    refine ⟨?_, id⟩
    rw [List.drop_of_length_le (by rw [List.length_take]; omega), List.append_nil]
    exact h
  | succ turns ih =>
    have hlt₁ : v < vecs.length := (List.getElem?_eq_some_iff.mp hv).1
    have hlt₂ : v < ls.length := (List.getElem?_eq_some_iff.mp hl).1
    have hv' : (vecs ++ [newSv])[v]? = some sv := by rw [List.getElem?_append_left hlt₁, hv]
    have hl' : (ls ++ [m])[v]? = some l := by rw [List.getElem?_append_left hlt₂, hl]
    have hin : (ii : Int) < l.length := by omega
    obtain ⟨s, hs, hw, hget, hitem⟩ := svecGet_of h hv' hl' (Int.natCast_nonneg ii) hin
    rw [Int.toNat_natCast] at hs hitem
    have hlive : s.ptr ≠ 0 → (w.heap s.ptr).isSome := by
      intro hz
      have hheld : holds (vecs ++ [newSv]) (v, ii) = some s.ptr := by
        rw [holds_of hv', hs]
        exact if_pos ⟨hw, hz⟩
      exact h.exact.used_of_holds hheld
    rw [Chal1.subFrom, if_pos (by omega), hget]
    change Returns _ _ (deref w s.ptr >>= _)
    rw [deref_item rfl hlive]
    change Returns _ _ (Chal1.svecPushBack w newSv (s.item w.heap) >>= _)
    have hnew : (vecs ++ [newSv])[vecs.length]? = some newSv := by simp
    have hnewl : (ls ++ [m])[vecs.length]? = some m := by rw [hlen]; simp
    refine Returns.bind ((svecPushBack_spec h hnew hnewl (s.item w.heap)).mono_fault ?_) ?_
    · rintro e ⟨he, hfits⟩
      exact ⟨he, fun hg => hfits ⟨hg.1, by omega⟩⟩
    · rintro ⟨w₁, newSv₁⟩ ⟨h₁, hg₁⟩
      dsimp only at h₁ hg₁ ⊢
      rw [set_last, hlen, set_last] at h₁
      have hnext : ((ii : Int) + 1) = (ii + 1 : Nat) := by omega
      rw [hnext]
      have hloop := ih h₁ (show (endIndex - (ii + 1 : Nat)).toNat = turns by omega)
      have hdrop : (l.take endIndex.toNat).drop ii =
          s.item w.heap :: (l.take endIndex.toNat).drop (ii + 1) := by
        have hslice : ii < (l.take endIndex.toNat).length := by
          rw [List.length_take]
          omega
        rw [List.drop_eq_getElem_cons hslice, List.getElem_take,
          (List.getElem?_eq_some_iff.mp hitem).2]
      refine (hloop.mono_fault ?_).mono ?_
      · rintro e ⟨he, hfits⟩
        refine ⟨he, fun hg => hfits ⟨hg₁ hg.1, ?_⟩⟩
        rw [List.length_append, List.length_singleton]
        omega
      · rintro r ⟨hr, hgr⟩
        refine ⟨?_, fun hg => hgr (hg₁ hg)⟩
        rw [List.append_assoc, List.singleton_append, ← hdrop] at hr
        exact hr

theorem Inv.length_eq (h : Inv true R heap vecs ls) : vecs.length = ls.length := by
  rw [← h.contents, List.length_map]

theorem subSvec_spec (h : Inv true R w.heap vecs ls) (hv : vecs[v]? = some sv)
    (hl : ls[v]? = some l)
    {startIndex endIndex : Int} (h0 : 0 ≤ startIndex) (hend : endIndex ≤ l.length) :
    Returns (Stops w (((l.take endIndex.toNat).drop startIndex.toNat).length ≤ 2 ^ 30))
      (fun r => Inv true R r.1.heap (vecs ++ [r.2])
        (ls ++ [(l.take endIndex.toNat).drop startIndex.toNat]) ∧ (Grants w → Grants r.1))
      (Chal1.subSvec w sv startIndex endIndex) := by
  have hspaces := h.length_list hv hl
  have hstart : startIndex = (startIndex.toNat : Int) := by omega
  unfold Chal1.subSvec
  rw [if_pos ⟨by omega, h0⟩]
  refine Returns.bind ((makeSvec_spec h).mono_fault ?_) ?_
  · rintro e ⟨he, hfits⟩
    exact ⟨he, fun hg => hfits ⟨hg.1, trivial⟩⟩
  · rintro ⟨w₁, newSv⟩ ⟨h₁, hg₁⟩
    dsimp only at h₁ hg₁ ⊢
    have hloop :=
      subFrom_spec (endIndex - startIndex).toNat h₁ hv hl h.length_eq hend (congrArg Int.toNat (by
      rw [← hstart]))
    rw [← hstart, List.nil_append] at hloop
    refine (hloop.mono_fault ?_).mono fun r hr => ⟨hr.1, fun hg => hr.2 (hg₁ hg)⟩
    rintro e ⟨he, hfits⟩
    refine ⟨he, fun hg => hfits ⟨hg₁ hg.1, ?_⟩⟩
    have := hg.2
    rw [List.length_drop, List.length_take] at this
    rw [List.length_nil]
    omega

theorem svecClone_spec (h : Inv true R w.heap vecs ls) (hv : vecs[v]? = some sv)
    (hl : ls[v]? = some l) : Returns (Stops w (l.length ≤ 2 ^ 30))
      (fun r => Inv true R r.1.heap (vecs ++ [r.2]) (ls ++ [l]) ∧ (Grants w → Grants r.1))
      (Chal1.svecClone w sv) := by
  have hspaces := h.length_list hv hl
  have hsub := subSvec_spec h hv hl (Int.le_refl 0) (Int.le_of_eq hspaces.symm)
  have hall : (l.take sv.spaces.toNat).drop (0 : Int).toNat = l := by
    rw [← hspaces, Int.toNat_natCast, List.take_length]
    rfl
  rw [hall] at hsub
  exact hsub

/-! ## Runs -/

theorem on_vector {α : Type} {allowed : Fault → Prop} {P : α → Prop} {f : Svec → Except Fault α}
    (hv : vecs[v]? = some sv) (h : Returns allowed P (f sv)) :
    Returns allowed P (vector vecs v >>= f) := by
  rw [vector, hv]
  exact h

/-- The vector and the list of a number in use. -/
theorem Inv.vector (h : Inv true R heap vecs ls) (hlt : v < ls.length) :
    ∃ sv, vecs[v]? = some sv ∧ ls[v]? = some (ls.getD v []) := by
  refine ⟨_, List.getElem?_eq_getElem (by rw [h.length_eq]; exact hlt), ?_⟩
  rw [List.getD_eq_getElem?_getD, List.getElem?_eq_getElem hlt]
  rfl

/-- What a bound on all lists says of the one that was set. -/
theorem bound_set {n : Nat} (hlt : v < ls.length) (h : ∀ x ∈ ls.set v l, x.length ≤ n) :
    l.length ≤ n :=
  h l (List.mem_set hlt l)

theorem bound_last {n : Nat} (h : ∀ x ∈ ls ++ [l], x.length ≤ n) : l.length ≤ n :=
  h l (List.mem_append_right _ (List.mem_singleton_self l))

theorem Op.run_spec (op : Op) (h : Inv true R w.heap vecs ls) (hin : op.InBounds ls) :
    Returns (Stops w (∀ l ∈ op.onLists ls, l.length ≤ 2 ^ 30))
      (fun r => Inv true R r.1.heap r.2 (op.onLists ls) ∧
        (Grants w → Grants r.1)) (op.run w vecs) := by
  cases op with
  | make =>
    refine Returns.bind ((makeSvec_spec h).mono_fault ?_) fun r hr => hr
    rintro e ⟨he, hfits⟩
    exact ⟨he, fun hg => hfits ⟨hg.1, trivial⟩⟩
  | pushBack v item =>
    obtain ⟨sv, hv, hl⟩ := h.vector hin
    refine on_vector hv ?_
    refine Returns.bind ((svecPushBack_spec h hv hl item).mono_fault ?_) fun r hr => hr
    rintro e ⟨he, hfits⟩
    refine ⟨he, fun hg => hfits ⟨hg.1, ?_⟩⟩
    have := bound_set hin hg.2
    rw [List.length_append, List.length_singleton] at this
    omega
  | put v ii item =>
    obtain ⟨hlt, h0, hi⟩ := hin
    obtain ⟨sv, hv, hl⟩ := h.vector hlt
    refine on_vector hv ?_
    refine Returns.bind ((svecPut_stops h hv hl h0 hi item).mono_fault ?_) fun r hr => hr
    rintro e ⟨he, hfits⟩
    exact ⟨he, fun hg => hfits ⟨hg.1, trivial⟩⟩
  | swap v ii jj =>
    obtain ⟨hlt, hi, hj⟩ := hin
    obtain ⟨sv, hv, hl⟩ := h.vector hlt
    obtain ⟨sv', hswap, h', -⟩ := svecSwap_spec h hv hl hi hj
    refine on_vector hv ?_
    rw [hswap]
    exact ⟨h', id⟩
  | reverse v =>
    obtain ⟨sv, hv, hl⟩ := h.vector hin
    obtain ⟨sv', hreverse, h'⟩ := svecReverse_spec h hv hl
    refine on_vector hv ?_
    rw [hreverse]
    exact ⟨h', id⟩
  | sub v startIndex endIndex =>
    obtain ⟨hlt, h0, hend⟩ := hin
    obtain ⟨sv, hv, hl⟩ := h.vector hlt
    refine on_vector hv ?_
    refine Returns.bind ((subSvec_spec h hv hl h0 hend).mono_fault ?_) fun r hr => hr
    rintro e ⟨he, hfits⟩
    exact ⟨he, fun hg => hfits ⟨hg.1, bound_last hg.2⟩⟩
  | clone v =>
    obtain ⟨sv, hv, hl⟩ := h.vector hin
    refine on_vector hv ?_
    refine Returns.bind ((svecClone_spec h hv hl).mono_fault ?_) fun r hr => hr
    rintro e ⟨he, hfits⟩
    exact ⟨he, fun hg => hfits ⟨hg.1, bound_last hg.2⟩⟩

/-- No list on the way is longer than `2 ^ 30`. -/
def OpsFit : List Items → List Op → Prop
  | _, [] => True
  | ls, op :: ops => (∀ l ∈ op.onLists ls, l.length ≤ 2 ^ 30) ∧ OpsFit (op.onLists ls) ops

theorem runOps_spec (ops : List Op) (h : Inv true R w.heap vecs ls) (hin : OpsInBounds ls ops) :
    Returns (Stops w (OpsFit ls ops)) (fun r =>
      Inv true R r.1.heap r.2 (opsOnLists ls ops)) (runOps w vecs ops) := by
  induction ops generalizing w vecs ls with
  | nil => exact h
  | cons op ops ih =>
    refine Returns.bind ((op.run_spec h hin.1).mono_fault ?_) ?_
    · rintro e ⟨he, hfits⟩
      exact ⟨he, fun hg => hfits ⟨hg.1, hg.2.1⟩⟩
    · rintro ⟨w₁, vecs₁⟩ ⟨h₁, hg₁⟩
      refine (ih h₁ hin.2).mono_fault ?_
      rintro e ⟨he, hfits⟩
      exact ⟨he, fun hg => hfits ⟨hg₁ hg.1, hg.2.2⟩⟩

/-- Every run from no vectors keeps its vectors well formed and equal to the
lists. It stops only for want of memory, and not while requests are granted and
no list passes `2 ^ 30` strings. -/
theorem vectors_refine_lists (w : World) (ops : List Op) (h : OpsInBounds [] ops) :
    Returns (Stops w (OpsFit [] ops))
      (fun r => (∀ sv ∈ r.2, sv.WellFormed true) ∧
        r.2.map (Svec.contents r.1.heap) = opsOnLists [] ops)
      (runOps w [] ops) :=
  (runOps_spec ops (Inv.nil w.heap) h).mono fun _ hr => ⟨hr.wellFormed, hr.contents⟩

/-! ### Three strings -/

/-- Three strings, more than the first array holds, changed in every way. -/
def threeStrings : List Op :=
  [.make, .pushBack 0 (some [0x61]), .pushBack 0 none, .pushBack 0 (some [0x62]), .reverse 0,
    .swap 0 1 2, .put 0 1 (some [0x63]), .sub 0 1 3, .clone 1, .put 2 0 none]

theorem vectors_refine_lists_three :
    OpsInBounds [] threeStrings ∧
      Returns (Stops zeroed (OpsFit [] threeStrings))
        (fun r => (∀ sv ∈ r.2, sv.WellFormed true) ∧
          r.2.map (Svec.contents r.1.heap) = opsOnLists [] threeStrings)
        (runOps zeroed [] threeStrings) :=
  ⟨by decide, vectors_refine_lists zeroed threeStrings (by decide)⟩

example : (runOps zeroed [] threeStrings).toOption.map (fun r => r.2.map (Svec.contents r.1.heap)) =
    some [[some [0x62], some [0x63], none], [some [0x63], none], [none, none]] := by decide

end Cs3650.Vectors
