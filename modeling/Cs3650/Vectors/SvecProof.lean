import Cs3650.Lib.Ownership
import Cs3650.Lib.Rearrange
import Cs3650.Lib.Returns
import Cs3650.Vectors.Svec
import Mathlib.Algebra.Order.Ring.Int
import Mathlib.Logic.Equiv.Basic
import Mathlib.Tactic.NormNum
import Mathlib.Tactic.Ring

/-!
# What the operations on vectors keep

Every string of a vector is held by one slot of one vector. The first `spaces`
slots are the list the vector stands for; the others hold nothing.
-/

namespace Cs3650.Vectors

open Cs3650.Lib

variable {clear : Bool} {R : Set Ptr} {heap heap' : Ptr → Option Str} {vecs : List Svec}
    {sv sv' : Svec}
  {ls : List (List (Option Str))} {l : List (Option Str)} {v i : Nat}

namespace Slot

def held (s : Slot) : Option Ptr := if s.written ∧ s.ptr ≠ 0 then some s.ptr else none

def item (heap : Ptr → Option Str) (s : Slot) : Option Str := if s.ptr = 0 then none else heap s.ptr

/-- Past `spaces`: cleared in one copy, never written in the other. -/
def Vacant (clear : Bool) (s : Slot) : Prop := if clear then s = ⟨0, true⟩ else s.written = false

theorem Vacant.held {s : Slot} (h : s.Vacant clear) : s.held = none := by
  cases clear with
  | true => rw [show s = ⟨0, true⟩ from h]; rfl
  | false => rw [Slot.held, if_neg (by rw [show s.written = false from h]; simp)]

end Slot

namespace Svec

/-- The list a vector stands for; `none` is a null pointer. -/
def contents (heap : Ptr → Option Str) (sv : Svec) : List (Option Str) :=
  (sv.data.take sv.spaces.toNat).map (Slot.item heap)

structure WellFormed (clear : Bool) (sv : Svec) : Prop where
  nonneg : 0 ≤ sv.spaces
  spaces_le : sv.spaces ≤ sv.size
  size_pow : ∃ j ≤ 29, sv.size = 2 * 2 ^ j
  length : sv.data.length = sv.size
  written : ∀ k < sv.spaces.toNat, ∀ s ∈ sv.data[k]?, s.written = true
  room : ∀ k ≥ sv.spaces.toNat, ∀ s ∈ sv.data[k]?, s.Vacant clear

theorem length_contents (heap : Ptr → Option Str) (h : sv.WellFormed clear) :
    ((sv.contents heap).length : Int) = sv.spaces := by
  have h0 := h.nonneg
  have h1 := h.spaces_le
  have h2 := h.length
  simp only [contents, List.length_map, List.length_take]
  omega

end Svec

/-- What each place of each vector holds. -/
def holds (vecs : List Svec) (a : Nat × Nat) : Option Ptr :=
  vecs[a.1]?.bind fun sv => sv.data[a.2]?.bind Slot.held

/-- The vectors stand for the lists `ls`, and every string in memory outside `R` is held once. -/
structure Inv (clear : Bool) (R : Set Ptr) (heap : Ptr → Option Str) (vecs : List Svec)
    (ls : List (List (Option Str))) : Prop where
  wellFormed : ∀ sv ∈ vecs, sv.WellFormed clear
  exact : Exact R {p | (heap p).isSome} (holds vecs)
  contents : vecs.map (Svec.contents heap) = ls

theorem holds_of (hv : vecs[v]? = some sv) (i : Nat) :
    holds vecs (v, i) = sv.data[i]?.bind Slot.held := by
  rw [holds, hv]
  rfl

theorem holds_set (hv : vecs[v]? = some sv) (i : Nat) :
    holds (vecs.set v sv') (v, i) = sv'.data[i]?.bind Slot.held := by
  have hlt : v < vecs.length := (List.getElem?_eq_some_iff.mp hv).1
  exact holds_of (by rw [List.getElem?_set_self hlt]) i

theorem holds_set_of_ne {u : Nat} (hu : u ≠ v) (i : Nat) :
    holds (vecs.set v sv') (u, i) = holds vecs (u, i) := by
  unfold holds
  rw [List.getElem?_set_ne hu.symm]

namespace Inv

theorem contents_of (h : Inv clear R heap vecs ls) (hv : vecs[v]? = some sv) :
    ls[v]? = some (sv.contents heap) := by
  rw [← h.contents, List.getElem?_map, hv]
  rfl

theorem length_list (h : Inv clear R heap vecs ls) (hv : vecs[v]? = some sv)
    (hl : ls[v]? = some l) : (l.length : Int) = sv.spaces := by
  rw [h.contents_of hv] at hl
  obtain rfl := Option.some.inj hl
  exact Svec.length_contents heap (h.wellFormed sv (List.mem_of_getElem? hv))

/-- Another vector in the place of one, and memory the same for all others. -/
theorem set (h : Inv clear R heap vecs ls) (hv : vecs[v]? = some sv) (hwf : sv'.WellFormed clear)
    (hex : Exact R {p | (heap' p).isSome} (holds (vecs.set v sv')))
    (hsame : ∀ u ≠ v, ∀ k p, holds vecs (u, k) = some p → heap' p = heap p)
    (hl : sv'.contents heap' = l) : Inv clear R heap' (vecs.set v sv') (ls.set v l) := by
  have hlt : v < vecs.length := (List.getElem?_eq_some_iff.mp hv).1
  refine ⟨?_, hex, ?_⟩
  · intro x hx
    rcases List.mem_or_eq_of_mem_set hx with hx | rfl
    · exact h.wellFormed x hx
    · exact hwf
  · rw [List.map_set, hl, ← h.contents]
    apply List.ext_getElem?
    intro u
    by_cases hu : u = v
    · subst hu
      rw [List.getElem?_set_self (by simpa using hlt), List.getElem?_set_self (by simpa using hlt)]
    rw [List.getElem?_set_ne (Ne.symm hu), List.getElem?_set_ne (Ne.symm hu), List.getElem?_map,
      List.getElem?_map]
    cases hx : vecs[u]? with
    | none => rfl
    | some x =>
      have hwx := h.wellFormed x (List.mem_of_getElem? hx)
      have hitems : x.contents heap' = x.contents heap := by
        unfold Svec.contents
        apply List.map_congr_left
        intro s hs
        obtain ⟨k, hk⟩ := List.mem_iff_getElem?.mp hs
        have hkn : k < x.spaces.toNat := by
          by_contra hge
          rw [List.getElem?_take_eq_none (Nat.le_of_not_lt hge)] at hk
          cases hk
        rw [List.getElem?_take_of_lt hkn] at hk
        have hw := hwx.written k hkn s hk
        by_cases hz : s.ptr = 0
        · rw [Slot.item, Slot.item, if_pos hz, if_pos hz]
        · rw [Slot.item, Slot.item, if_neg hz, if_neg hz]
          refine hsame u hu k s.ptr ?_
          rw [holds_of hx, hk]
          exact if_pos ⟨hw, hz⟩
      rw [Option.map_some, Option.map_some, hitems]

end Inv

/-! ## One slot -/

theorem Svec.getElem?_contents (heap : Ptr → Option Str) (sv : Svec) {k : Nat}
    (hk : k < sv.spaces.toNat) : (sv.contents heap)[k]? = sv.data[k]?.map (Slot.item heap) := by
  rw [Svec.contents, List.getElem?_map, List.getElem?_take_of_lt hk]

theorem Svec.data_lt (h : sv.WellFormed clear) (hi : i < sv.spaces.toNat) : i < sv.data.length := by
  have h1 := h.spaces_le
  have h2 := h.length
  omega

theorem Svec.WellFormed.store (h : sv.WellFormed clear) {ii : Int}
    (hi : ii.toNat < sv.spaces.toNat) (p : Ptr) : (sv.store ii p).WellFormed clear where
  nonneg := h.nonneg
  spaces_le := h.spaces_le
  size_pow := h.size_pow
  length := by
    change ((sv.data.set ii.toNat ⟨p, true⟩).length : Int) = sv.size
    rw [List.length_set]
    exact h.length
  written := by
    intro k hk s hs
    change s ∈ (sv.data.set ii.toNat ⟨p, true⟩)[k]? at hs
    rw [List.getElem?_set] at hs
    split at hs
    · split at hs
      · obtain rfl := Option.some.inj hs
        rfl
      · cases hs
    · exact h.written k hk s hs
  room := by
    intro k hk s hs
    change sv.spaces.toNat ≤ k at hk
    change s ∈ (sv.data.set ii.toNat ⟨p, true⟩)[k]? at hs
    rw [List.getElem?_set_ne (by omega)] at hs
    exact h.room k hk s hs

theorem Slot.held_mk (p : Ptr) : Slot.held ⟨p, true⟩ = if p = 0 then none else some p := by
  unfold held
  by_cases hp : p = 0
  · simp [hp]
  · simp [hp]

theorem holds_store (h : sv.WellFormed clear) (hv : vecs[v]? = some sv) {ii : Int}
    (hi : ii.toNat < sv.spaces.toNat) (p : Ptr) :
    holds (vecs.set v (sv.store ii p)) =
      Function.update (holds vecs) (v, ii.toNat) (if p = 0 then none else some p) := by
  funext ⟨u, k⟩
  by_cases hu : u = v
  · subst hu
    rw [holds_set hv]
    change (sv.data.set ii.toNat ⟨p, true⟩)[k]?.bind Slot.held = _
    by_cases hk : k = ii.toNat
    · rw [hk, List.getElem?_set_self (Svec.data_lt h hi), Function.update_self]
      exact Slot.held_mk p
    · rw [List.getElem?_set_ne (Ne.symm hk),
        Function.update_of_ne (fun e => hk (congrArg Prod.snd e)), holds_of hv]
  · rw [holds_set_of_ne hu, Function.update_of_ne (fun e => hu (congrArg Prod.fst e))]

/-- A pointer put into a slot in use, where memory changes only behind that slot. -/
theorem Inv.store (h : Inv clear R heap vecs ls) (hv : vecs[v]? = some sv)
    (hl : ls[v]? = some l) {ii : Int} (hi : ii.toNat < sv.spaces.toNat) {p : Ptr}
    (hex : Exact R {p | (heap' p).isSome} (holds (vecs.set v (sv.store ii p))))
    (hsame : ∀ a, a ≠ (v, ii.toNat) → ∀ q, holds vecs a = some q → heap' q = heap q) :
    Inv clear R heap' (vecs.set v (sv.store ii p))
      (ls.set v (l.set ii.toNat (if p = 0 then none else heap' p))) := by
  have hwf := h.wellFormed sv (List.mem_of_getElem? hv)
  have hdata := Svec.data_lt hwf hi
  refine h.set hv (hwf.store hi p) hex (fun u hu k q hq =>
    hsame (u, k) (fun e => hu (congrArg Prod.fst e)) q hq) ?_
  rw [h.contents_of hv] at hl
  obtain rfl := Option.some.inj hl
  apply List.ext_getElem?
  intro k
  by_cases hk : k < sv.spaces.toNat
  · rw [Svec.getElem?_contents heap' (sv.store ii p) hk]
    change (sv.data.set ii.toNat ⟨p, true⟩)[k]?.map _ = _
    by_cases hki : k = ii.toNat
    · have hc : ii.toNat < (sv.contents heap).length := by
        have := Svec.length_contents heap hwf
        omega
      rw [hki, List.getElem?_set_self hdata, List.getElem?_set_self hc]
      rfl
    · rw [List.getElem?_set_ne (Ne.symm hki), List.getElem?_set_ne (Ne.symm hki),
        Svec.getElem?_contents heap _ hk]
      cases hs : sv.data[k]? with
      | none => rfl
      | some s =>
        have hw := hwf.written k hk s hs
        rw [Option.map_some, Option.map_some, Slot.item, Slot.item]
        by_cases hz : s.ptr = 0
        · rw [if_pos hz, if_pos hz]
        · rw [if_neg hz, if_neg hz, hsame (v, k) (fun e => hki (congrArg Prod.snd e)) s.ptr]
          rw [holds_of hv, hs]
          exact if_pos ⟨hw, hz⟩
  · have hlen' : (sv.contents heap).length ≤ k := by
      have := Svec.length_contents heap hwf
      omega
    have hlen'' : ((sv.store ii p).contents heap').length ≤ k := by
      have := Svec.length_contents heap' (hwf.store hi p)
      change (_ : Int) = sv.spaces at this
      omega
    rw [List.getElem?_eq_none hlen'', List.getElem?_eq_none (by rwa [List.length_set])]

/-- The memory without the string of a slot. -/
def Slot.dropped (heap : Ptr → Option Str) (s : Slot) : Ptr → Option Str :=
  if s.ptr = 0 then heap else Function.update heap s.ptr none

theorem Inv.vacate (h : Inv clear R heap vecs ls) (hv : vecs[v]? = some sv)
    (hl : ls[v]? = some l) {ii : Int}
    (hi : ii.toNat < sv.spaces.toNat) {s : Slot} (hs : sv.data[ii.toNat]? = some s) :
    Inv clear R (s.dropped heap) (vecs.set v (sv.store ii 0)) (ls.set v (l.set ii.toNat none)) := by
  have hwf := h.wellFormed sv (List.mem_of_getElem? hv)
  have hheld : holds vecs (v, ii.toNat) = if s.ptr = 0 then none else some s.ptr := by
    rw [holds_of hv, hs, ← Slot.held_mk, ← hwf.written _ hi s hs]
    rfl
  have hstore := holds_store hwf hv hi 0
  rw [if_pos rfl] at hstore
  refine h.store hv hl hi (p := 0) ?_ ?_
  · rw [hstore]
    convert h.exact.vacate (v, ii.toNat) using 1
    ext x
    rw [hheld]
    unfold Slot.dropped
    by_cases hz : s.ptr = 0
    · simp [hz]
    · by_cases hx : x = s.ptr
      · simp [hz, hx]
      · simp [hz, hx, Ne.symm hx]
  · intro a ha q hq
    unfold Slot.dropped
    by_cases hz : s.ptr = 0
    · rw [if_pos hz]
    · rw [if_neg hz, Function.update_of_ne]
      intro hqs
      rw [if_neg hz, ← hqs] at hheld
      exact ha (h.exact.single _ _ q hq hheld)

theorem Inv.occupy (h : Inv clear R heap vecs ls) (hv : vecs[v]? = some sv)
    (hl : ls[v]? = some l) {ii : Int}
    (hi : ii.toNat < sv.spaces.toNat) (hnone : holds vecs (v, ii.toNat) = none) {p : Ptr}
    (hp : p ≠ 0) (hfree : heap p = none) (s : Str) :
    Inv clear R (Function.update heap p (some s)) (vecs.set v (sv.store ii p))
      (ls.set v (l.set ii.toNat (some s))) := by
  have hwf := h.wellFormed sv (List.mem_of_getElem? hv)
  have hunused : p ∉ {p | (heap p).isSome} := by simp [hfree]
  have hstore := holds_store hwf hv hi p
  rw [if_neg hp] at hstore
  have hex :
      Exact R {q | (Function.update heap p (some s) q).isSome}
      (holds (vecs.set v (sv.store ii p))) := by
    rw [hstore]
    convert h.exact.occupy hunused hnone using 1
    ext x
    by_cases hx : x = p
    · simp [hx]
    · simp [hx]
  have hstored := h.store hv hl hi hex (fun a _ q hq => by
    rw [Function.update_of_ne]
    rintro rfl
    exact hunused (h.exact.used_of_holds hq))
  rwa [if_neg hp, Function.update_self] at hstored

/-! ## The functions of svec.c -/

/-- What `strdup`, or the null pointer, gives for an item. -/
def Copied (w : World) (item : Option Str) (r : World × Ptr) : Prop :=
  match item with
  | none => r = (w, 0)
  | some s => r.2 ≠ 0 ∧ w.heap r.2 = none ∧ r.1.heap = Function.update w.heap r.2 (some s)

theorem copied (w : World) (item : Option Str) :
    Returns (· = Fault.outOfMemory) (Copied w item) (copyOf w item) := by
  cases item with
  | none => exact rfl
  | some s =>
    unfold copyOf strdup
    dsimp only
    split
    · exact rfl
    · rename_i h
      rw [not_or, Option.not_isSome_iff_eq_none] at h
      exact ⟨h.1, h.2, rfl⟩

theorem Svec.slot_of {ii : Int} {s : Slot} (h0 : 0 ≤ ii) (h : sv.data[ii.toNat]? = some s) :
    sv.slot ii = .ok s := by
  rw [Svec.slot, if_neg (by omega), h]

theorem Svec.store_store (sv : Svec) (ii : Int) (p q : Ptr) :
    (sv.store ii p).store ii q = sv.store ii q := by
  simp [Svec.store]

theorem Slot.dropped_update (heap : Ptr → Option Str) {s : Slot} {p : Ptr}
    (h : s.ptr ≠ 0 → s.ptr ≠ p)
    (x : Option Str) :
    s.dropped (Function.update heap p x) = Function.update (s.dropped heap) p x := by
  unfold Slot.dropped
  by_cases hz : s.ptr = 0
  · rw [if_pos hz, if_pos hz]
  · rw [if_neg hz, if_neg hz, Function.update_comm (h hz).symm]

theorem freeSlot_of {w : World} {s : Slot} (hw : s.written = true)
    (hlive : s.ptr ≠ 0 → (w.heap s.ptr).isSome) :
    freeSlot w s = .ok { w with heap := s.dropped w.heap } := by
  unfold freeSlot Slot.dropped
  by_cases hz : s.ptr = 0
  · rw [if_pos hz, if_pos hz]
  · rw [if_neg hz, if_pos hw, if_neg hz, free, if_pos (hlive hz)]

theorem svecPut_spec {w : World} (h : Inv clear R w.heap vecs ls) (hv : vecs[v]? = some sv)
    (hl : ls[v]? = some l) {ii : Int} (h0 : 0 ≤ ii) (hi : ii < l.length) (item : Option Str) :
    Returns (· = Fault.outOfMemory)
      (fun r => Inv clear R r.1.heap (vecs.set v r.2) (ls.set v (l.set ii.toNat item)))
      (svecPut w sv ii item) := by
  have hwf := h.wellFormed sv (List.mem_of_getElem? hv)
  have hspaces := h.length_list hv hl
  have hin : ii.toNat < sv.spaces.toNat := by omega
  obtain ⟨old, hold⟩ : ∃ s, sv.data[ii.toNat]? = some s :=
    ⟨_, List.getElem?_eq_getElem (Svec.data_lt hwf hin)⟩
  have hw : old.written = true := hwf.written _ hin old hold
  have hlive : old.ptr ≠ 0 → (w.heap old.ptr).isSome := by
    intro hz
    have hheld : holds vecs (v, ii.toNat) = some old.ptr := by
      rw [holds_of hv, hold]
      exact if_pos ⟨hw, hz⟩
    exact h.exact.used_of_holds hheld
  have hempty := h.vacate hv hl hin hold
  unfold svecPut
  rw [if_pos ⟨h0, by omega⟩]
  refine Returns.bind (copied w item) ?_
  rintro ⟨w₁, copy⟩ hcopy
  dsimp only
  rw [Svec.slot_of h0 hold]
  change Returns _ _ (freeSlot w₁ old >>= _)
  cases item with
  | none =>
    obtain ⟨rfl, rfl⟩ := Prod.mk.inj hcopy
    rw [freeSlot_of hw hlive]
    exact hempty
  | some s =>
    obtain ⟨hp, hfree, hheap⟩ := hcopy
    dsimp only at hp hfree hheap
    have hne : old.ptr ≠ 0 → old.ptr ≠ copy := by
      intro hz he
      have := hlive hz
      rw [he, hfree] at this
      cases this
    rw [freeSlot_of hw (by
      intro hz
      rw [hheap, Function.update_of_ne (hne hz)]
      exact hlive hz)]
    have hlt : v < vecs.length := (List.getElem?_eq_some_iff.mp hv).1
    have hlt' : v < ls.length := (List.getElem?_eq_some_iff.mp hl).1
    have hfree' : old.dropped w.heap copy = none := by
      unfold Slot.dropped
      by_cases hz : old.ptr = 0
      · rw [if_pos hz, hfree]
      · rw [if_neg hz, Function.update_of_ne (hne hz).symm, hfree]
    have hnone : holds (vecs.set v (sv.store ii 0)) (v, ii.toNat) = none := by
      rw [holds_store hwf hv hin, Function.update_self, if_pos rfl]
    have hput :=
      hempty.occupy (List.getElem?_set_self hlt) (List.getElem?_set_self hlt') hin hnone hp hfree' s
    rw [List.set_set, List.set_set, List.set_set, Svec.store_store, ← Slot.dropped_update _ hne,
      ← hheap] at hput
    exact hput

/-! ## Room at the end -/

theorem set_same {α : Type} {xs : List α} {i : Nat} {x : α} (h : xs[i]? = some x) :
    xs.set i x = xs := by
  obtain ⟨hlt, rfl⟩ := List.getElem?_eq_some_iff.mp h
  exact List.set_getElem_self hlt

namespace Svec

/-- A longer array for the vector. -/
def widen (sv : Svec) (tail : List Slot) : Svec :=
  { sv with data := sv.data ++ tail, size := sv.size * 2 }

variable {tail : List Slot}

theorem WellFormed.widen (h : sv.WellFormed clear) (hlen : (tail.length : Int) = sv.size)
    (hle : sv.size * 2 ≤ 2 ^ 30) (hvacant : ∀ s ∈ tail, s.Vacant clear) :
    (sv.widen tail).WellFormed clear := by
  have h0 := h.nonneg
  have h1 := h.spaces_le
  have h2 := h.length
  obtain ⟨j, hj, hpow⟩ := h.size_pow
  refine ⟨h0, ?_, ⟨j + 1, ?_, ?_⟩, ?_, ?_, ?_⟩
  · change sv.spaces ≤ sv.size * 2
    omega
  · by_contra hgt
    have : j = 29 := by omega
    subst this
    norm_num at hpow
    omega
  · change sv.size * 2 = _
    rw [hpow, pow_succ]
    ring
  · change ((sv.data ++ tail).length : Int) = sv.size * 2
    rw [List.length_append]
    omega
  · intro k hk s hs
    change k < sv.spaces.toNat at hk
    change s ∈ (sv.data ++ tail)[k]? at hs
    rw [List.getElem?_append_left (by omega)] at hs
    exact h.written k hk s hs
  · intro k hk s hs
    change s ∈ (sv.data ++ tail)[k]? at hs
    rcases Nat.lt_or_ge k sv.data.length with hlt | hge
    · rw [List.getElem?_append_left hlt] at hs
      exact h.room k hk s hs
    · rw [List.getElem?_append_right hge] at hs
      exact hvacant s (List.mem_of_getElem? hs)

theorem contents_widen (h : sv.WellFormed clear) :
    (sv.widen tail).contents heap = sv.contents heap := by
  have h1 := h.spaces_le
  have h2 := h.length
  change ((sv.data ++ tail).take sv.spaces.toNat).map _ = _
  rw [List.take_append_of_le_length (by omega)]
  rfl

end Svec

theorem holds_widen (hv : vecs[v]? = some sv) {tail : List Slot}
    (hvacant : ∀ s ∈ tail, s.Vacant clear) : holds (vecs.set v (sv.widen tail)) = holds vecs := by
  funext ⟨u, k⟩
  by_cases hu : u = v
  · subst hu
    rw [holds_set hv, holds_of hv]
    change (sv.data ++ tail)[k]?.bind Slot.held = _
    rcases Nat.lt_or_ge k sv.data.length with hlt | hge
    · rw [List.getElem?_append_left hlt]
    · rw [List.getElem?_append_right hge, List.getElem?_eq_none hge]
      cases hs : tail[k - sv.data.length]? with
      | none => rfl
      | some s => exact (hvacant s (List.mem_of_getElem? hs)).held
  · exact holds_set_of_ne hu k

theorem Inv.widen (h : Inv clear R heap vecs ls) (hv : vecs[v]? = some sv) {tail : List Slot}
    (hlen : (tail.length : Int) = sv.size) (hle : sv.size * 2 ≤ 2 ^ 30)
    (hvacant : ∀ s ∈ tail, s.Vacant clear) : Inv clear R heap (vecs.set v (sv.widen tail)) ls := by
  have hwf := h.wellFormed sv (List.mem_of_getElem? hv)
  have hset := h.set hv (hwf.widen hlen hle hvacant) (by rw [holds_widen hv hvacant]; exact h.exact)
    (fun _ _ _ _ _ => rfl) (Svec.contents_widen hwf)
  rwa [set_same (h.contents_of hv)] at hset

/-- The next slot in use, with a null pointer. -/
def Svec.extend (sv : Svec) : Svec := { sv with spaces := sv.spaces + 1 }.store sv.spaces 0

theorem Svec.WellFormed.extend (h : sv.WellFormed clear) (hlt : sv.spaces < sv.size) :
    sv.extend.WellFormed clear := by
  have h0 := h.nonneg
  have h2 := h.length
  have hnext : (sv.spaces + 1).toNat = sv.spaces.toNat + 1 := by omega
  refine ⟨?_, ?_, h.size_pow, ?_, ?_, ?_⟩
  · change 0 ≤ sv.spaces + 1
    omega
  · change sv.spaces + 1 ≤ sv.size
    omega
  · change ((sv.data.set sv.spaces.toNat ⟨0, true⟩).length : Int) = sv.size
    rw [List.length_set]
    exact h2
  · intro k hk s hs
    change k < (sv.spaces + 1).toNat at hk
    change s ∈ (sv.data.set sv.spaces.toNat ⟨0, true⟩)[k]? at hs
    by_cases hk' : k = sv.spaces.toNat
    · rw [hk', List.getElem?_set_self (by omega)] at hs
      obtain rfl := Option.some.inj hs
      rfl
    · rw [List.getElem?_set_ne (Ne.symm hk')] at hs
      exact h.written k (by omega) s hs
  · intro k hk s hs
    change (sv.spaces + 1).toNat ≤ k at hk
    change s ∈ (sv.data.set sv.spaces.toNat ⟨0, true⟩)[k]? at hs
    rw [List.getElem?_set_ne (by omega)] at hs
    exact h.room k (by omega) s hs

theorem Svec.contents_extend (h : sv.WellFormed clear) (hlt : sv.spaces < sv.size) :
    sv.extend.contents heap = sv.contents heap ++ [none] := by
  have h0 := h.nonneg
  have h2 := h.length
  have hnext : (sv.spaces + 1).toNat = sv.spaces.toNat + 1 := by omega
  change ((sv.data.set sv.spaces.toNat ⟨0, true⟩).take (sv.spaces + 1).toNat).map _ = _
  rw [hnext, List.take_add_one, List.getElem?_set_self (by omega),
    List.take_set_of_le (Nat.le_refl _), List.map_append]
  rfl

theorem holds_extend (h : sv.WellFormed clear) (hv : vecs[v]? = some sv) :
    holds (vecs.set v sv.extend) = holds vecs := by
  funext ⟨u, k⟩
  by_cases hu : u = v
  · subst hu
    rw [holds_set hv, holds_of hv]
    change (sv.data.set sv.spaces.toNat ⟨0, true⟩)[k]?.bind Slot.held = _
    by_cases hk : k = sv.spaces.toNat
    · subst hk
      cases hs : sv.data[sv.spaces.toNat]? with
      | none =>
        rw [List.getElem?_set, if_pos rfl, if_neg (by rw [List.getElem?_eq_none_iff] at hs; omega)]
      | some s =>
        rw [List.getElem?_set_self (List.getElem?_eq_some_iff.mp hs).1]
        exact (h.room _ (Nat.le_refl _) s hs).held.symm
    · rw [List.getElem?_set_ne (Ne.symm hk)]
  · exact holds_set_of_ne hu k

theorem Inv.extend (h : Inv clear R heap vecs ls) (hv : vecs[v]? = some sv) (hl : ls[v]? = some l)
    (hlt : sv.spaces < sv.size) :
    Inv clear R heap (vecs.set v sv.extend) (ls.set v (l ++ [none])) := by
  have hwf := h.wellFormed sv (List.mem_of_getElem? hv)
  rw [h.contents_of hv] at hl
  obtain rfl := Option.some.inj hl
  exact h.set hv (hwf.extend hlt) (by rw [holds_extend hwf hv]; exact h.exact)
    (fun _ _ _ _ _ => rfl) (Svec.contents_extend hwf hlt)

/-! ## New vectors -/

theorem Inv.nil (heap : Ptr → Option Str) : Inv clear {p | (heap p).isSome} heap [] [] where
  wellFormed _ h := absurd h List.not_mem_nil
  exact := by
    refine ⟨fun _ _ _ h => ?_, fun _ => ⟨Or.inl, ?_⟩, fun _ _ h => ?_⟩
    · cases h
    · rintro (h | ⟨_, h⟩)
      · exact h
      · cases h
    · cases h
  contents := rfl

/-- The vector `make_svec` makes of a block. -/
theorem Inv.make (h : Inv clear R heap vecs ls) {data : List Slot} (hlen : data.length = 2)
    (hvacant : ∀ s ∈ data, s.Vacant clear) :
    Inv clear R heap (vecs ++ [⟨2, 0, data⟩]) (ls ++ [[]]) where
  wellFormed := by
    intro sv hsv
    rcases List.mem_append.mp hsv with hsv | hsv
    · exact h.wellFormed sv hsv
    · obtain rfl := List.mem_singleton.mp hsv
      refine ⟨Int.le_refl 0, Int.le.intro 2 rfl, ⟨0, Nat.zero_le _, rfl⟩, ?_, ?_, ?_⟩
      · change (data.length : Int) = 2
        rw [hlen]
        rfl
      · exact fun k hk => absurd hk (Nat.not_lt_zero k)
      · exact fun k _ s hs => hvacant s (List.mem_of_getElem? hs)
  exact := by
    convert h.exact using 1
    funext ⟨u, k⟩
    unfold holds
    dsimp only
    rcases Nat.lt_trichotomy u vecs.length with hlt | rfl | hgt
    · rw [List.getElem?_append_left hlt]
    · rw [List.getElem?_append_right (Nat.le_refl _), Nat.sub_self,
        List.getElem?_eq_none (Nat.le_refl _)]
      change data[k]?.bind Slot.held = none
      cases hs : data[k]? with
      | none => rfl
      | some s => exact (hvacant s (List.mem_of_getElem? hs)).held
    · rw [List.getElem?_eq_none (by simp; omega), List.getElem?_eq_none (by omega)]
  contents := by
    rw [List.map_append, h.contents]
    rfl

/-! ## Pushing -/

/-- A size that can be doubled: at `2 ^ 30` slots the doubled `int` is negative
and no memory is that long. -/
theorem doubled {size : Int} (hpow : ∃ j ≤ 29, size = 2 * 2 ^ j)
    (hn : bytes (int (size * 2)) < 2 ^ 63) :
    size * 2 ≤ 2 ^ 30 ∧ int (size * 2) = size * 2 ∧
    bytes (int (size * 2)) / 8 = (size * 2).toNat := by
  obtain ⟨j, hj, rfl⟩ := hpow
  have hj' : j ≠ 29 := by
    rintro rfl
    revert hn
    decide
  have hpow : (2 : Int) ^ j ≤ 2 ^ 28 := pow_le_pow_right₀ (by norm_num) (by omega)
  have hpos : (0 : Int) < 2 ^ j := pow_pos (by norm_num) j
  have hint : int (2 * 2 ^ j * 2) = 2 * 2 ^ j * 2 := bmod_of_lt (by omega) (by omega)
  refine ⟨by omega, hint, ?_⟩
  rw [hint]
  unfold bytes
  omega

theorem malloc_cases (w : World) (n : Nat) :
    malloc w n = .error .outOfMemory ∨ n < 2 ^ 63 ∧
    malloc w n = .ok (w.answered, fresh w.answer (n / 8)) := by
  unfold malloc
  by_cases h : w.answer.addr = 0 ∨ 2 ^ 63 ≤ n
  · exact Or.inl (if_pos h)
  · exact Or.inr ⟨by omega, if_neg h⟩

theorem length_fresh (a : Answer) (n : Nat) : (fresh a n).length = n := by
  rw [fresh, List.length_map, List.length_range]

/-- The new half after `clearRoom`. -/
def Svec.newRoom (clear : Bool) (a : Answer) (sv : Svec) : List Slot :=
  if clear then List.replicate sv.size.toNat ⟨0, true⟩
    else (fresh a (sv.size * 2).toNat).drop sv.size.toNat

theorem Svec.newRoom_vacant (a : Answer) : ∀ s ∈ sv.newRoom clear a, s.Vacant clear := by
  intro s hs
  cases clear with
  | true => exact List.eq_of_mem_replicate hs
  | false =>
    obtain ⟨k, -, rfl⟩ := List.mem_map.mp (List.mem_of_mem_drop hs)
    exact rfl

theorem Svec.length_newRoom (a : Answer) : (sv.newRoom clear a).length = sv.size.toNat := by
  cases clear with
  | true => exact List.length_replicate
  | false =>
    change ((fresh a (sv.size * 2).toNat).drop sv.size.toNat).length = _
    rw [List.length_drop, length_fresh]
    omega

theorem clearRoom_of (h : sv.WellFormed clear) (a : Answer) :
    clearRoom clear (sv.data ++ (fresh a (sv.size * 2).toNat).drop sv.data.length) sv.size.toNat =
      .ok (sv.data ++ sv.newRoom clear a) := by
  have hlen := h.length
  have hdata : sv.data.length = sv.size.toNat := by omega
  cases clear with
  | false =>
    rw [hdata]
    rfl
  | true =>
    have hfresh : ((fresh a (sv.size * 2).toNat).drop sv.data.length).length = sv.size.toNat := by
      rw [List.length_drop, length_fresh]
      omega
    change memset _ _ _ = _
    rw [memset, if_pos (by rw [List.length_append]; omega), ← hdata, List.take_left',
      List.drop_eq_nil_of_le, List.append_nil]
    · rw [hdata]
      rfl
    · rw [List.length_append]
      omega
    · rfl

theorem grow_spec {w : World} (h : Inv clear R w.heap vecs ls) (hv : vecs[v]? = some sv) :
    Returns (· = Fault.outOfMemory)
      (fun r => r.1.heap = w.heap ∧ Inv clear R w.heap (vecs.set v r.2) ls ∧
        r.2.spaces = sv.spaces ∧ r.2.size = if sv.spaces < sv.size then sv.size else sv.size * 2)
      (grow clear w sv) := by
  have hwf := h.wellFormed sv (List.mem_of_getElem? hv)
  have hlen := hwf.length
  unfold grow
  by_cases hfull : sv.spaces ≥ sv.size
  · rw [if_pos hfull]
    unfold realloc
    rcases malloc_cases w (bytes (int (sv.size * 2))) with hrefused | ⟨hlt, hgranted⟩
    · dsimp only
      rw [hrefused]
      exact rfl
    obtain ⟨hle, hint, hn⟩ := doubled hwf.size_pow hlt
    have hroomlen : ((sv.newRoom clear w.answer).length : Int) = sv.size := by
      rw [Svec.length_newRoom]
      omega
    have hroom := h.widen hv hroomlen hle (Svec.newRoom_vacant w.answer)
    have htake : sv.data.take (sv.size * 2).toNat = sv.data := List.take_of_length_le (by omega)
    dsimp only
    rw [hgranted, hn, hint]
    change Returns _ _ (clearRoom clear (sv.data.take (sv.size * 2).toNat ++ _) _ >>= _)
    rw [htake, clearRoom_of hwf]
    exact ⟨rfl, hroom, rfl, (if_neg (by omega)).symm⟩
  · rw [if_neg hfull]
    refine ⟨rfl, ?_, rfl, (if_pos (by omega)).symm⟩
    rw [set_same hv]
    exact h

/-- A push stops in `free` only where the slots past `spaces` were never written. -/
def PushFault (clear : Bool) (e : Fault) : Prop := e = .outOfMemory ∨ clear = false ∧ e = .badFree

theorem svecPut_vacant {w : World} (h : Inv clear R w.heap vecs ls) (hv : vecs[v]? = some sv)
    (hl : ls[v]? = some l) (hlt : sv.spaces < sv.size) (item : Option Str) :
    Returns (PushFault clear)
      (fun r => Inv clear R r.1.heap (vecs.set v r.2) (ls.set v (l ++ [item])) ∧
        r.2.spaces = sv.spaces + 1 ∧ r.2.size = sv.size)
      (svecPut w { sv with spaces := sv.spaces + 1 } sv.spaces item) := by
  have hwf := h.wellFormed sv (List.mem_of_getElem? hv)
  have h0 := hwf.nonneg
  have hlen := hwf.length
  have hspaces := h.length_list hv hl
  obtain ⟨s, hs⟩ : ∃ s, sv.data[sv.spaces.toNat]? = some s :=
    ⟨_, List.getElem?_eq_getElem (by omega)⟩
  have hvacant := hwf.room _ (Nat.le_refl _) s hs
  have hnext := h.extend hv hl hlt
  unfold svecPut
  rw [if_pos ⟨h0, Int.lt_succ _⟩]
  refine Returns.bind ((copied w item).mono_fault fun _ he => Or.inl he) ?_
  rintro ⟨w₁, copy⟩ hcopy
  have hslot : ({ sv with spaces := sv.spaces + 1 } : Svec).slot sv.spaces = .ok s :=
    Svec.slot_of h0 hs
  dsimp only
  rw [hslot]
  change Returns _ _ (freeSlot w₁ s >>= _)
  by_cases hz : s.ptr = 0
  · rw [show freeSlot w₁ s = .ok w₁ from if_pos hz]
    cases item with
    | none =>
      obtain ⟨rfl, rfl⟩ := Prod.mk.inj hcopy
      exact ⟨hnext, rfl, rfl⟩
    | some t =>
      obtain ⟨hp, hfree, hheap⟩ := hcopy
      dsimp only at hp hfree hheap
      have hlt₁ : v < vecs.length := (List.getElem?_eq_some_iff.mp hv).1
      have hlt₂ : v < ls.length := (List.getElem?_eq_some_iff.mp hl).1
      have hlast : sv.spaces.toNat < sv.extend.spaces.toNat := by
        change _ < (sv.spaces + 1).toNat
        omega
      have hnone : holds (vecs.set v sv.extend) (v, sv.spaces.toNat) = none := by
        rw [holds_set hv]
        change (sv.data.set sv.spaces.toNat ⟨0, true⟩)[sv.spaces.toNat]?.bind Slot.held = none
        rw [List.getElem?_set_self (by omega)]
        rfl
      have hfill :=
        hnext.occupy (List.getElem?_set_self hlt₁) (List.getElem?_set_self hlt₂) hlast
          hnone hp hfree t
      have hend : (l ++ [none]).set sv.spaces.toNat (some t) = l ++ [some t] := by
        rw [show sv.spaces.toNat = l.length by omega, List.set_append_right _ _ (Nat.le_refl _),
          Nat.sub_self]
        rfl
      rw [List.set_set, List.set_set, hend, ← hheap] at hfill
      unfold Svec.extend at hfill
      rw [Svec.store_store] at hfill
      exact ⟨hfill, rfl, rfl⟩
  · cases clear with
    | true => exact absurd (congrArg Slot.ptr hvacant) hz
    | false =>
      rw [freeSlot, if_neg hz, if_neg (by rw [show s.written = false from hvacant]; decide)]
      exact Or.inr ⟨rfl, rfl⟩

theorem pushBack_spec {w : World} (h : Inv clear R w.heap vecs ls) (hv : vecs[v]? = some sv)
    (hl : ls[v]? = some l) (item : Option Str) :
    Returns (PushFault clear)
      (fun r => Inv clear R r.1.heap (vecs.set v r.2) (ls.set v (l ++ [item])) ∧
        r.2.spaces = sv.spaces + 1 ∧
        r.2.size = if sv.spaces < sv.size then sv.size else sv.size * 2)
      (pushBack clear w sv item) := by
  have hwf := h.wellFormed sv (List.mem_of_getElem? hv)
  have hlt₁ : v < vecs.length := (List.getElem?_eq_some_iff.mp hv).1
  unfold pushBack
  refine Returns.bind ((grow_spec h hv).mono_fault fun _ he => Or.inl he) ?_
  rintro ⟨w₁, sv₁⟩ ⟨hheap, h₁, hspaces, hsize⟩
  dsimp only at hheap h₁ hspaces hsize ⊢
  have hwf₁ := h₁.wellFormed sv₁ (List.mem_of_getElem? (List.getElem?_set_self hlt₁))
  have h0 := hwf.nonneg
  obtain ⟨j, hj, hpow⟩ := hwf₁.size_pow
  have hlt : sv₁.spaces < sv₁.size := by
    have := hwf.spaces_le
    obtain ⟨j, -, hpow⟩ := hwf.size_pow
    have hpos : (0 : Int) < 2 ^ j := pow_pos (by norm_num) j
    split at hsize
    · omega
    · omega
  have hint : int (sv₁.spaces + 1) = sv₁.spaces + 1 := by
    have : (2 : Int) ^ j ≤ 2 ^ 29 := pow_le_pow_right₀ (by norm_num) hj
    exact bmod_of_lt (by omega) (by omega)
  rw [← hheap] at h₁
  have hput := svecPut_vacant h₁ (List.getElem?_set_self hlt₁) hl hlt item
  rw [hint, ← hspaces]
  refine hput.mono ?_
  rintro ⟨w₂, sv₂⟩ ⟨h₂, hspaces₂, hsize₂⟩
  dsimp only at h₂ hspaces₂ hsize₂ ⊢
  rw [List.set_set] at h₂
  exact ⟨h₂, hspaces₂, by rw [hsize₂, hsize, hspaces]⟩

/-! ## Memory that is granted -/

/-- Every request is granted at an address of its own that holds no string. -/
structure Grants (w : World) : Prop where
  addr : ∀ k, (w.answers k).addr ≠ 0
  free : ∀ k, w.heap (w.answers k).addr = none
  distinct : ∀ j k, (w.answers j).addr = (w.answers k).addr → j = k

namespace Grants

variable {w : World}

theorem answered (h : Grants w) : Grants w.answered :=
  ⟨fun k => h.addr (k + 1), fun k => h.free (k + 1), fun _ _ he =>
    Nat.succ_injective (h.distinct _ _ he)⟩

theorem dropped (h : Grants w) (s : Slot) : Grants { w with heap := s.dropped w.heap } := by
  refine ⟨h.addr, ?_, h.distinct⟩
  intro k
  change s.dropped w.heap (w.answers k).addr = none
  unfold Slot.dropped
  split
  · exact h.free k
  · by_cases hk : (w.answers k).addr = s.ptr
    · rw [hk, Function.update_self]
    · rw [Function.update_of_ne hk, h.free k]

theorem copyOf (h : Grants w) (item : Option Str) :
    Returns (· ≠ Fault.outOfMemory) (fun r => Grants r.1) (Vectors.copyOf w item) := by
  cases item with
  | none => exact h
  | some s =>
    have hgranted : ¬(w.answer.addr = 0 ∨ (w.heap w.answer.addr).isSome) := by
      rintro (h0 | hlive)
      · exact h.addr 0 h0
      · rw [show w.heap w.answer.addr = none from h.free 0] at hlive
        cases hlive
    unfold Vectors.copyOf strdup
    dsimp only
    rw [if_neg hgranted]
    refine ⟨h.answered.addr, ?_, h.answered.distinct⟩
    intro k
    have hne : (w.answers (k + 1)).addr ≠ (w.answers 0).addr :=
      fun e => Nat.succ_ne_zero k (h.distinct _ _ e)
    exact (Function.update_of_ne hne ..).trans (h.free (k + 1))

theorem freeSlot (h : Grants w) (s : Slot) :
    Returns (· ≠ Fault.outOfMemory) Grants (Vectors.freeSlot w s) := by
  have hdropped := h.dropped s
  unfold Vectors.freeSlot
  split
  · exact h
  · rename_i hz
    rw [Slot.dropped, if_neg hz] at hdropped
    unfold Vectors.free
    split
    · split
      · exact hdropped
      · exact nofun
    · exact nofun

theorem svecPut (h : Grants w) (sv : Svec) (ii : Int) (item : Option Str) :
    Returns (· ≠ Fault.outOfMemory) (fun r => Grants r.1) (Vectors.svecPut w sv ii item) := by
  unfold Vectors.svecPut
  split
  · refine (h.copyOf item).bind ?_
    rintro ⟨w₁, copy⟩ h₁
    refine Returns.bind (P := fun _ => True) ?_ ?_
    · unfold Svec.slot
      split
      · exact nofun
      · split
        · exact trivial
        · exact nofun
    · intro old _
      refine Returns.bind (Grants.freeSlot h₁ old) ?_
      exact fun w₂ h₂ => h₂
  · exact nofun

theorem malloc (h : Grants w) {n : Nat} (hn : n < 2 ^ 63) :
    Vectors.malloc w n = .ok (w.answered, fresh w.answer (n / 8)) :=
  if_neg fun hrefused => hrefused.elim (h.addr 0) (Nat.not_le.mpr hn)

theorem grow (h : Grants w) (hwf : sv.WellFormed clear) :
    Returns (fun e => e = Fault.outOfMemory → ¬sv.spaces < 2 ^ 30) (fun r => Grants r.1)
      (Vectors.grow clear w sv) := by
  unfold Vectors.grow
  split
  · rename_i hfull
    unfold realloc
    dsimp only
    rcases malloc_cases w (bytes (int (sv.size * 2))) with hrefused | ⟨-, hgranted⟩
    · rw [hrefused]
      intro _ hlt
      have h0 := hwf.nonneg
      have hle := hwf.spaces_le
      have hint : int (sv.size * 2) = sv.size * 2 := bmod_of_lt (by omega) (by omega)
      have hn : bytes (int (sv.size * 2)) < 2 ^ 63 := by
        rw [hint]
        unfold bytes
        omega
      rw [h.malloc hn] at hrefused
      cases hrefused
    · rw [hgranted]
      change Returns _ _ (clearRoom clear _ _ >>= _)
      refine Returns.bind (P := fun _ => True) ?_ fun _ _ => h.answered
      unfold clearRoom memset
      split
      · split
        · exact trivial
        · exact nofun
      · exact trivial
  · exact h

/-- A push is refused at `2 ^ 30` slots only. -/
theorem pushBack (h : Grants w) (hwf : sv.WellFormed clear) (item : Option Str) :
    Returns (fun e => e = Fault.outOfMemory → ¬sv.spaces < 2 ^ 30) (fun r => Grants r.1)
      (Vectors.pushBack clear w sv item) := by
  unfold Vectors.pushBack
  refine (h.grow hwf).bind ?_
  rintro ⟨w₁, sv₁⟩ h₁
  exact (Grants.svecPut h₁ _ _ item).mono_fault fun e hne he => absurd he hne

end Grants

end Cs3650.Vectors
