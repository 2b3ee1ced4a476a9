import Mathlib.Data.List.Nodup
import Mathlib.Data.Option.Basic
import Mathlib.Logic.Function.Basic
import Mathlib.Tactic.Common

/-!
# Circular doubly linked lists

The nodes are linked both ways in a circle with a head, which is `none` and holds
nothing. The links represent the list of the nodes from the head on.
-/

namespace Cs3650.Lib

variable {ι : Type*}

structure Links (ι : Type*) where
  next : Option ι → Option ι
  prev : Option ι → Option ι

namespace Links

/-- The links from `x` through the nodes of the list, up to `z`. -/
def Path (k : Links ι) : Option ι → List ι → Option ι → Prop
  | x, [], z => z = x
  | x, i :: l, z => k.next x = some i ∧ k.prev (some i) = x ∧ k.Path (some i) l z

/-- The nodes from the head on are those of the list, and back again. -/
structure Represents (k : Links ι) (l : List ι) : Prop where
  nodup : l.Nodup
  circle : ∃ z, k.Path none l z ∧ k.next z = none ∧ k.prev none = z

def nil : Links ι := ⟨fun _ => none, fun _ => none⟩

theorem nil_represents : (nil : Links ι).Represents [] := ⟨List.nodup_nil, none, rfl, rfl, rfl⟩

section Path

variable {k k' : Links ι} {x z : Option ι} {l l₁ l₂ : List ι} {i : ι}

theorem path_append : k.Path x (l₁ ++ l₂) z ↔ ∃ m, k.Path x l₁ m ∧ k.Path m l₂ z := by
  induction l₁ generalizing x with
  | nil => simp [Path]
  | cons i l₁ ih =>
    simp only [List.cons_append, Path, ih]
    constructor
    · rintro ⟨hnext, hprev, m, h₁, h₂⟩
      exact ⟨m, ⟨hnext, hprev, h₁⟩, h₂⟩
    · rintro ⟨m, ⟨hnext, hprev, h₁⟩, h₂⟩
      exact ⟨hnext, hprev, m, h₁, h₂⟩

theorem Path.last_mem (h : k.Path x l z) : z ∈ x :: l.map some := by
  induction l generalizing x with
  | nil => exact List.mem_singleton.mpr h
  | cons i l ih => exact List.mem_cons_of_mem _ (ih h.2.2)

/-- Links that are not on the path, and the link out of its end, may change. -/
theorem Path.frame (h : k.Path x l z) (hnodup : (x :: l.map some).Nodup)
    (hnext : ∀ u ∈ x :: l.map some, u ≠ z → k'.next u = k.next u)
    (hprev : ∀ i ∈ l, k'.prev (some i) = k.prev (some i)) : k'.Path x l z := by
  induction l generalizing x with
  | nil => exact h
  | cons i l ih =>
    obtain ⟨hx, hi, hrest⟩ := h
    have hne : x ≠ z := fun heq => (List.nodup_cons.mp hnodup).1 (heq ▸ hrest.last_mem)
    have hx' : k'.next x = some i := (hnext x (List.mem_cons_self ..) hne).trans hx
    have hi' : k'.prev (some i) = x := (hprev i (List.mem_cons_self ..)).trans hi
    refine ⟨hx', hi',
      ih hrest (List.nodup_cons.mp hnodup).2 (fun u hu => hnext u (List.mem_cons_of_mem _ hu)) ?_⟩
    exact fun j hj => hprev j (List.mem_cons_of_mem _ hj)

end Path

/-! ### Walking along the links -/

/-- The loop `for (x = ..; x != head; x = x->next)` up to the first node with `p`. -/
def find (p : ι → Bool) (step : Option ι → Option ι) : Nat → Option ι → Option ι
  | 0, _ | _, none => none
  | n + 1, some i => if p i then some i else find p step n (step (some i))

section Find

variable {k : Links ι} {x z : Option ι} {l : List ι} {p : ι → Bool}

theorem find_next (h : k.Path x l z) (hz : k.next z = none) {n : Nat} (hn : l.length ≤ n) :
    find p k.next n (k.next x) = l.find? p := by
  induction l generalizing x n with
  | nil =>
    obtain rfl : z = x := h
    rw [hz]
    cases n <;> rfl
  | cons i l ih =>
    obtain ⟨hx, -, hrest⟩ := h
    obtain ⟨m, rfl⟩ : ∃ m, n = m + 1 := ⟨n - 1, by rw [List.length_cons] at hn; omega⟩
    have hlen : l.length ≤ m := by
      rw [List.length_cons] at hn
      omega
    simp only [hx, find, List.find?_cons]
    cases p i with
    | true => rfl
    | false => exact ih hrest hlen

/-- The way back from a node in the middle, which has the nodes `back` before it. -/
theorem find_prev {back : List ι} (h : k.Path none (back.reverse ++ l) z) {m : Option ι}
    (hm : k.Path m l z)
    (hback : k.Path none back.reverse m) {n : Nat} (hn : back.length ≤ n) :
    find p k.prev n m = back.find? p := by
  induction back generalizing l m n with
  | nil =>
    obtain rfl : m = none := hback
    cases n <;> rfl
  | cons i back ih =>
    rw [List.reverse_cons, path_append] at hback
    obtain ⟨m', hback', hlink, hprev, hlast⟩ := hback
    obtain rfl : m = some i := hlast
    obtain ⟨n', rfl⟩ : ∃ n', n = n' + 1 := ⟨n - 1, by rw [List.length_cons] at hn; omega⟩
    have hlen : back.length ≤ n' := by
      rw [List.length_cons] at hn
      omega
    simp only [find, List.find?_cons]
    cases p i with
    | true => rfl
    | false =>
      have hrest : k.Path none (back.reverse ++ i :: l) z := by
        simpa only [List.reverse_cons, List.append_assoc, List.singleton_append] using h
      rw [hprev]
      exact ih hrest ⟨hlink, hprev, hm⟩ hback' hlen

variable {n : Nat}

theorem Represents.find_forward (h : k.Represents l) (hn : l.length ≤ n) :
    find p k.next n (k.next none) = l.find? p := by
  obtain ⟨z, hpath, hz, -⟩ := h.circle
  exact find_next hpath hz hn

theorem Represents.find_backward (h : k.Represents l) (hn : l.length ≤ n) :
    find p k.prev n (k.prev none) = l.reverse.find? p := by
  obtain ⟨z, hpath, -, hz⟩ := h.circle
  have hback : k.Path none l.reverse.reverse z := by rwa [List.reverse_reverse]
  rw [hz]
  exact find_prev (l := []) (by rwa [List.append_nil]) rfl hback (by rwa [List.length_reverse])

end Find

/-! ### Moving a node -/

section Move

variable [DecidableEq ι]

/-- `i->next->prev = i->prev; i->prev->next = i->next` -/
def unlink (k : Links ι) (i : ι) : Links ι where
  next := Function.update k.next (k.prev (some i)) (k.next (some i))
  prev := Function.update k.prev (k.next (some i)) (k.prev (some i))

/-- `i->next = head.next; i->prev = &head; head.next->prev = i; head.next = i` -/
def pushFront (k : Links ι) (i : ι) : Links ι where
  next := Function.update (Function.update k.next (some i) (k.next none)) none (some i)
  prev := Function.update (Function.update k.prev (some i) none) (k.next none) (some i)

variable {k : Links ι} {l l₁ l₂ : List ι} {i : ι}

theorem Represents.unlink (h : k.Represents (l₁ ++ i :: l₂)) :
    (k.unlink i).Represents (l₁ ++ l₂) := by
  obtain ⟨hnodup, z, hpath, hz, hprev⟩ := h
  obtain ⟨x, hpath₁, hx, hi, hpath₂⟩ := path_append.mp hpath
  have hperm : (l₁ ++ i :: l₂).Perm (i :: (l₁ ++ l₂)) := List.perm_middle
  have hrest := List.nodup_cons.mp (hperm.nodup hnodup)
  obtain ⟨hnodup₁, hnodup₂, hdisjoint⟩ := List.nodup_append'.mp hrest.2
  have hnone (l : List ι) (hl : l.Nodup) : ((none : Option ι) :: l.map some).Nodup := by
    refine List.nodup_cons.mpr ⟨by simp, hl.map (Option.some_injective ι)⟩
  have hxmem := hpath₁.last_mem
  refine ⟨hrest.2, ?_⟩
  have hfront {y : Option ι} (hy : k.next (some i) = y) (hout : ∀ j ∈ l₁, some j ≠ y) :
      (k.unlink i).Path none l₁ x := by
    refine hpath₁.frame (hnone l₁ hnodup₁) (fun u _ hu => ?_) fun j hj => ?_
    · exact Function.update_of_ne (hi ▸ hu) ..
    · exact Function.update_of_ne (hy ▸ hout j hj) ..
  cases l₂ with
  | nil =>
    obtain rfl : z = some i := hpath₂
    refine ⟨x, ?_, ?_, ?_⟩
    · rw [List.append_nil]
      exact hfront hz fun j _ => Option.some_ne_none j
    · simp [Links.unlink, hi, hz]
    · simp [Links.unlink, hi, hz]
  | cons c l₂ =>
    obtain ⟨hc, hcprev, hpath₃⟩ := hpath₂
    have hxc : ∀ u ∈ some c :: l₂.map some, u ≠ x := by
      intro u hu heq
      rw [heq, ← List.map_cons] at hu
      obtain ⟨j, hj, rfl⟩ := List.mem_map.mp hu
      have hj₁ : j ∈ l₁ := by simpa using hxmem
      exact hdisjoint hj₁ hj
    have hcl := List.nodup_cons.mp hnodup₂
    refine ⟨z, path_append.mpr ⟨x, hfront hc ?_, ?_, ?_, ?_⟩, ?_, ?_⟩
    · exact fun j hj heq => hdisjoint hj (by simp [Option.some.inj heq])
    · simp [Links.unlink, hi, hc]
    · simp [Links.unlink, hi, hc]
    · refine hpath₃.frame (by rw [← List.map_cons]; exact hnodup₂.map (Option.some_injective ι))
        (fun u hu _ => ?_) fun j hj => ?_
      · exact Function.update_of_ne (hi ▸ hxc u hu) ..
      · have hne : (some j : Option ι) ≠ k.next (some i) := by
          rw [hc]
          exact fun heq => hcl.1 (Option.some.inj heq ▸ hj)
        exact Function.update_of_ne hne ..
    · have hzx : z ≠ k.prev (some i) := hi ▸ hxc z hpath₃.last_mem
      exact (Function.update_of_ne hzx ..).trans hz
    · have hne : (none : Option ι) ≠ k.next (some i) := by simp [hc]
      exact (Function.update_of_ne hne ..).trans hprev

theorem Represents.pushFront (h : k.Represents l) (hi : i ∉ l) :
    (k.pushFront i).Represents (i :: l) := by
  obtain ⟨hnodup, z, hpath, hz, hprev⟩ := h
  refine ⟨List.nodup_cons.mpr ⟨hi, hnodup⟩, ?_⟩
  cases l with
  | nil =>
    obtain rfl : z = none := hpath
    exact ⟨some i, ⟨by simp [Links.pushFront], by simp [Links.pushFront, hz], rfl⟩,
      by simp [Links.pushFront, hz], by simp [Links.pushFront, hz]⟩
  | cons c l =>
    obtain ⟨hc, hcprev, hrest⟩ := hpath
    have hic : i ≠ c ∧ i ∉ l := by simpa using hi
    have hcl := List.nodup_cons.mp hnodup
    have hout : ∀ u ∈ some c :: l.map some, u ≠ none ∧ u ≠ some i := by
      intro u hu
      rw [← List.map_cons] at hu
      obtain ⟨j, hj, rfl⟩ := List.mem_map.mp hu
      exact ⟨Option.some_ne_none j, fun heq => hi (Option.some.inj heq ▸ hj)⟩
    have hnext : ∀ u ∈ some c :: l.map some, (k.pushFront i).next u = k.next u := by
      intro u hu
      obtain ⟨hnone, hsome⟩ := hout u hu
      simp [Links.pushFront, hnone, hsome]
    refine ⟨z, ⟨by simp [Links.pushFront], ?_, ?_, ?_, ?_⟩, ?_, ?_⟩
    · simp [Links.pushFront, hc, hic.1]
    · simp [Links.pushFront, hc]
    · simp [Links.pushFront, hc]
    · refine hrest.frame (by rw [← List.map_cons]; exact hnodup.map (Option.some_injective ι))
        (fun u hu _ => hnext u hu) fun j hj => ?_
      have hjc : j ≠ c := fun heq => hcl.1 (heq ▸ hj)
      have hji : j ≠ i := fun heq => hic.2 (heq ▸ hj)
      simp [Links.pushFront, hc, hjc, hji]
    · exact (hnext z hrest.last_mem).trans hz
    · simpa [Links.pushFront, hc] using hprev

/-- Unlinking a node and putting it behind the head brings it to the front. -/
theorem Represents.moveToFront (h : k.Represents l) (hi : i ∈ l) :
    ((k.unlink i).pushFront i).Represents (i :: l.erase i) := by
  obtain ⟨l₁, l₂, -, rfl, herase⟩ := List.exists_erase_eq hi
  have hunlinked := h.unlink
  rw [herase]
  apply hunlinked.pushFront
  have hperm : (l₁ ++ i :: l₂).Perm (i :: (l₁ ++ l₂)) := List.perm_middle
  exact (List.nodup_cons.mp (hperm.nodup h.nodup)).1

end Move

end Links

end Cs3650.Lib
