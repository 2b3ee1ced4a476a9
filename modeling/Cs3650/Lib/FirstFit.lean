import Cs3650.Lib.Region

/-!
# Address-ordered first fit with immediate coalescing

The allocator policy, on lists of regions. Free regions are kept in address
order and never touch each other. A request is served from the first region
that is large enough; what is left of it stays free unless it is at most
`slack` bytes. A region that comes back is joined with the neighbours it
touches.
-/

namespace Cs3650.Lib.FirstFit

def Ascending (L : List Region) : Prop := L.Pairwise fun r s => r.stop ≤ s.base

/-- In address order, and no two regions touch. -/
def Separated (L : List Region) : Prop := L.Pairwise fun r s => r.stop < s.base

/-- Put `r` in front of `L`, joined with the first region if they touch. -/
def glue (r : Region) : List Region → List Region
  | [] => [r]
  | s :: L => if r.stop = s.base then ⟨r.base, r.len + s.len⟩ :: L else r :: s :: L

def release (c : Region) : List Region → List Region
  | [] => [c]
  | a :: L => if c.base < a.base then glue c (a :: L) else glue a (release c L)

/-- The region a request gets, and the regions that stay free. -/
def carve (slack size : Nat) : List Region → Option (Region × List Region)
  | [] => none
  | r :: L =>
    if size ≤ r.len then
      if slack < r.len - size then some (⟨r.base, size⟩, ⟨r.base + size, r.len - size⟩ :: L)
      else some (r, L)
    else (carve slack size L).map fun kL => (kL.1, r :: kL.2)

theorem Separated.ascending {L : List Region} (h : Separated L) : Ascending L :=
  h.imp fun hrs => Nat.le_of_lt hrs

theorem glue_of_lt {r : Region} {L : List Region} (h : ∀ s ∈ L, r.stop < s.base) :
    glue r L = r :: L := by
  cases L with
  | nil => rfl
  | cons s L => exact if_neg (Nat.ne_of_lt (h s List.mem_cons_self))

/-! ## Regions that come back -/

section Join

variable {P : Region → Prop}
  (hjoin : ∀ r s : Region, P r → P s → r.stop = s.base → P ⟨r.base, r.len + s.len⟩)

include hjoin

theorem all_glue {r : Region} {L : List Region} (hr : P r) (hL : ∀ s ∈ L, P s) :
    ∀ t ∈ glue r L, P t := by
  cases L with
  | nil => simpa [glue] using hr
  | cons s L =>
    have hs := hL s List.mem_cons_self
    have hrest : ∀ t ∈ L, P t := fun t ht => hL t (List.mem_cons_of_mem _ ht)
    intro t ht
    rw [glue] at ht
    split at ht
    · rcases List.mem_cons.mp ht with rfl | ht
      · exact hjoin r s hr hs ‹_›
      · exact hrest t ht
    · rcases List.mem_cons.mp ht with rfl | ht
      · exact hr
      · exact hL t ht

theorem all_release {c : Region} {L : List Region} (hc : P c) (hL : ∀ s ∈ L, P s) :
    ∀ t ∈ release c L, P t := by
  induction L with
  | nil => simpa [release] using hc
  | cons a L ih =>
    have ha := hL a List.mem_cons_self
    have hrest : ∀ t ∈ L, P t := fun t ht => hL t (List.mem_cons_of_mem _ ht)
    rw [release]
    split
    · exact all_glue hjoin hc hL
    · exact all_glue hjoin ha (ih hrest)

end Join

theorem glue_above {b : Nat} {r : Region} {L : List Region} (hr : b ≤ r.base)
    (hL : ∀ s ∈ L, b ≤ s.base) : ∀ t ∈ glue r L, b ≤ t.base :=
  all_glue (P := fun r => b ≤ r.base) (fun _ _ hr _ _ => hr) hr hL

theorem glue_separated {r : Region} {L : List Region} (hr : ∀ s ∈ L, r.stop ≤ s.base)
    (hpos : ∀ s ∈ L, 0 < s.len) (hL : Separated L) : Separated (glue r L) := by
  cases L with
  | nil => exact List.pairwise_singleton _ _
  | cons s L =>
    obtain ⟨hs, hrest⟩ := List.pairwise_cons.mp hL
    have hlen := hpos s List.mem_cons_self
    have hrs := hr s List.mem_cons_self
    rw [glue]
    split
    · refine List.pairwise_cons.mpr ⟨fun t ht => ?_, hrest⟩
      have hst := hs t ht
      unfold Region.stop at *
      dsimp only
      omega
    · refine List.pairwise_cons.mpr ⟨fun t ht => ?_, hL⟩
      rcases List.mem_cons.mp ht with rfl | ht
      · omega
      · have hst := hs t ht
        unfold Region.stop at *
        omega

theorem release_separated {c : Region} {L : List Region} (hL : Separated L)
    (hc : ∀ s ∈ L, c.Apart s) (hpos : ∀ s ∈ L, 0 < s.len) (hclen : 0 < c.len) :
    Separated (release c L) := by
  induction L with
  | nil => exact List.pairwise_singleton _ _
  | cons a L ih =>
    obtain ⟨ha, hrest⟩ := List.pairwise_cons.mp hL
    have hca := hc a List.mem_cons_self
    have halen := hpos a List.mem_cons_self
    rw [release]
    split
    · apply glue_separated _ hpos hL
      intro s hs
      have hcs := hc s hs
      rcases List.mem_cons.mp hs with rfl | hs
      · unfold Region.Apart Region.stop at *
        omega
      · have has := ha s hs
        unfold Region.Apart Region.stop at *
        omega
    · have hcs : ∀ s ∈ L, c.Apart s := fun s hs => hc s (List.mem_cons_of_mem _ hs)
      have hps : ∀ s ∈ L, 0 < s.len := fun s hs => hpos s (List.mem_cons_of_mem _ hs)
      apply glue_separated
      · -- everything in the rest starts behind `a`
        apply all_release (P := fun r => a.stop ≤ r.base) (fun _ _ hr _ _ => hr)
        · unfold Region.Apart Region.stop at *
          omega
        · exact fun s hs => Nat.le_of_lt (ha s hs)
      · apply all_release (P := fun r => 0 < r.len) _ hclen hps
        intro r s hr _ _
        dsimp only
        omega
      · exact ih hrest hcs hps

/-- With nothing below it the region goes to the front. -/
theorem release_front {c : Region} {L : List Region} (hc : ∀ s ∈ L, c.base < s.base) :
    release c L = glue c L := by
  cases L with
  | nil => rfl
  | cons a L => exact if_pos (hc a List.mem_cons_self)

/-- Between `a` and `bs` it may be joined on both sides. -/
theorem release_between {as bs : List Region} {a c : Region}
    (hsep : Separated (as ++ a :: bs)) (hpos : ∀ s ∈ as ++ a :: bs, 0 < s.len)
    (hac : a.stop ≤ c.base) (hcb : ∀ s ∈ bs, c.base < s.base) :
    release c (as ++ a :: bs) = as ++ glue a (glue c bs) := by
  induction as with
  | nil =>
    have hnot : ¬ c.base < a.base := by
      unfold Region.stop at hac
      omega
    rw [List.nil_append, release, if_neg hnot, release_front hcb]
    rfl
  | cons x as ih =>
    obtain ⟨hx, hrest⟩ := List.pairwise_cons.mp hsep
    have hxa : x.stop < a.base := hx a (by simp)
    have hnot : ¬ c.base < x.base := by
      unfold Region.stop at *
      omega
    have hbehind : ∀ t ∈ glue a (glue c bs), a.base ≤ t.base := by
      unfold Region.stop at hac
      apply glue_above (Nat.le_refl _)
      apply glue_above (by omega)
      intro s hs
      have h := hcb s hs
      omega
    rw [List.cons_append, release, if_neg hnot,
      ih hrest (fun s hs => hpos s (List.mem_cons_of_mem _ hs)), List.cons_append]
    apply glue_of_lt
    intro s hs
    rcases List.mem_append.mp hs with hs | hs
    · exact hx s (by simp [hs])
    · exact Nat.lt_of_lt_of_le hxa (hbehind s hs)

theorem exists_split (c : Region) {L : List Region} (hL : Separated L)
    (hc : ∀ s ∈ L, c.Apart s) (hpos : ∀ s ∈ L, 0 < s.len) :
    ∃ as bs, L = as ++ bs ∧ (∀ s ∈ as, s.stop ≤ c.base) ∧ ∀ s ∈ bs, c.stop ≤ s.base := by
  induction L with
  | nil => exact ⟨[], [], rfl, by simp, by simp⟩
  | cons a L ih =>
    obtain ⟨ha, hrest⟩ := List.pairwise_cons.mp hL
    have hca := hc a List.mem_cons_self
    have halen := hpos a List.mem_cons_self
    rcases hca with hca | hca
    · refine ⟨[], a :: L, rfl, by simp, fun s hs => ?_⟩
      rcases List.mem_cons.mp hs with rfl | hs
      · exact hca
      · have has := ha s hs
        unfold Region.stop at *
        omega
    · obtain ⟨as, bs, rfl, has, hbs⟩ := ih hrest (fun s hs => hc s (List.mem_cons_of_mem _ hs))
        fun s hs => hpos s (List.mem_cons_of_mem _ hs)
      refine ⟨a :: as, bs, rfl, fun s hs => ?_, hbs⟩
      rcases List.mem_cons.mp hs with rfl | hs
      · exact hca
      · exact has s hs

theorem ascending_insert {as bs : List Region} {c : Region} (h : Ascending (as ++ bs))
    (ha : ∀ s ∈ as, s.stop ≤ c.base) (hb : ∀ s ∈ bs, c.stop ≤ s.base) :
    Ascending (as ++ c :: bs) := by
  obtain ⟨h1, h2, h3⟩ := List.pairwise_append.mp h
  refine List.pairwise_append.mpr ⟨h1, List.pairwise_cons.mpr ⟨hb, h2⟩, fun r hr s hs => ?_⟩
  rcases List.mem_cons.mp hs with rfl | hs
  · exact ha r hr
  · exact h3 r hr s hs

/-! ## Requests -/

theorem carve_none {slack size : Nat} {L : List Region} (h : carve slack size L = none) :
    ∀ r ∈ L, r.len < size := by
  induction L with
  | nil => simp
  | cons r L ih =>
    rw [carve] at h
    split at h
    · split at h <;> cases h
    · intro s hs
      rcases List.mem_cons.mp hs with rfl | hs
      · omega
      · exact ih (by simpa using h) s hs

/-- What serving a request does: `r` is the first region large enough, and it
is split or handed out whole. -/
theorem carve_cases {slack size : Nat} {L L' : List Region} {k : Region}
    (h : carve slack size L = some (k, L')) :
    ∃ as r bs, L = as ++ r :: bs ∧ (∀ a ∈ as, a.len < size) ∧ size ≤ r.len ∧
      ((slack < r.len - size ∧ k = ⟨r.base, size⟩ ∧
          L' = as ++ ⟨r.base + size, r.len - size⟩ :: bs) ∨
        (r.len - size ≤ slack ∧ k = r ∧ L' = as ++ bs)) := by
  induction L generalizing L' with
  | nil => cases h
  | cons r L ih =>
    rw [carve] at h
    split at h
    · split at h
      · cases h
        exact ⟨[], r, L, rfl, by simp, ‹_›, Or.inl ⟨‹_›, rfl, rfl⟩⟩
      · cases h
        exact ⟨[], k, L, rfl, by simp, ‹_›, Or.inr ⟨by omega, rfl, rfl⟩⟩
    · obtain ⟨⟨k', M⟩, hM, heq⟩ := Option.map_eq_some_iff.mp h
      cases heq
      obtain ⟨as, s, bs, rfl, has, hs, hcase⟩ := ih hM
      refine ⟨r :: as, s, bs, rfl, fun a ha => ?_, hs, ?_⟩
      · rcases List.mem_cons.mp ha with rfl | ha
        · omega
        · exact has a ha
      · rcases hcase with ⟨h1, h2, h3⟩ | ⟨h1, h2, h3⟩
        · exact Or.inl ⟨h1, h2, by rw [h3]; rfl⟩
        · exact Or.inr ⟨h1, h2, by rw [h3]; rfl⟩

theorem carve_len {slack size : Nat} {L L' : List Region} {k : Region}
    (h : carve slack size L = some (k, L')) : size ≤ k.len := by
  obtain ⟨as, r, bs, -, -, hfit, hcase⟩ := carve_cases h
  rcases hcase with ⟨-, rfl, -⟩ | ⟨-, rfl, -⟩
  · exact Nat.le_refl _
  · exact hfit

/-- A request is served from the first region that is large enough. -/
theorem find_of_carve {slack size : Nat} {L L' : List Region} {k : Region}
    (h : carve slack size L = some (k, L')) :
    ∃ r, (L.find? fun r => size ≤ r.len) = some r ∧ r.base = k.base ∧
      ((slack < r.len - size ∧ k.len = size) ∨ (r.len - size ≤ slack ∧ k = r)) := by
  obtain ⟨as, r, bs, rfl, has, hr, hcase⟩ := carve_cases h
  refine ⟨r, ?_, ?_⟩
  · rw [List.find?_append, List.find?_eq_none.mpr fun a ha => by simpa using has a ha,
      Option.none_or, List.find?_cons_of_pos (by simpa using hr)]
  · rcases hcase with ⟨hlt, rfl, -⟩ | ⟨hle, rfl, -⟩
    · exact ⟨rfl, Or.inl ⟨hlt, rfl⟩⟩
    · exact ⟨rfl, Or.inr ⟨hle, rfl⟩⟩

theorem find_of_carve_none {slack size : Nat} {L : List Region} (h : carve slack size L = none) :
    (L.find? fun r => size ≤ r.len) = none :=
  List.find?_eq_none.mpr fun r hr => by simpa using carve_none h r hr

theorem exists_long_release (c : Region) (L : List Region) : ∃ r ∈ release c L, c.len ≤ r.len := by
  have hglue : ∀ (r : Region) (L : List Region) (n : Nat), (n ≤ r.len ∨ ∃ s ∈ L, n ≤ s.len) →
      ∃ s ∈ glue r L, n ≤ s.len := by
    intro r L n h
    cases L with
    | nil => simpa [glue] using h
    | cons s L =>
      rw [glue]
      split
      · rcases h with h | ⟨t, ht, hn⟩
        · exact ⟨_, List.mem_cons_self, Nat.le_trans h (Nat.le_add_right _ _)⟩
        · rcases List.mem_cons.mp ht with rfl | ht
          · exact ⟨_, List.mem_cons_self, Nat.le_trans hn (Nat.le_add_left _ _)⟩
          · exact ⟨t, List.mem_cons_of_mem _ ht, hn⟩
      · rcases h with h | ⟨t, ht, hn⟩
        · exact ⟨r, List.mem_cons_self, h⟩
        · exact ⟨t, List.mem_cons_of_mem _ ht, hn⟩
  induction L with
  | nil => exact ⟨c, by simp [release], Nat.le_refl _⟩
  | cons a L ih =>
    rw [release]
    split
    · exact hglue c _ _ (Or.inl (Nat.le_refl _))
    · exact hglue a _ _ (Or.inr ih)

/-! ## Conservation of bytes -/

def bytes (L : List Region) : Nat := (L.map Region.len).sum

@[simp] theorem bytes_nil : bytes [] = 0 := rfl
@[simp] theorem bytes_cons (r : Region) (L : List Region) : bytes (r :: L) = r.len + bytes L := rfl

theorem bytes_perm {L L' : List Region} (h : L.Perm L') : bytes L = bytes L' :=
  (h.map Region.len).sum_nat

theorem bytes_glue (r : Region) (L : List Region) : bytes (glue r L) = r.len + bytes L := by
  cases L with
  | nil => rfl
  | cons s L =>
    rw [glue]
    split
    · rw [bytes_cons, bytes_cons, Nat.add_assoc]
    · rfl

theorem bytes_release (c : Region) (L : List Region) : bytes (release c L) = c.len + bytes L := by
  induction L with
  | nil => rfl
  | cons a L ih =>
    rw [release]
    split
    · exact bytes_glue c _
    · rw [bytes_glue, ih, bytes_cons, Nat.add_left_comm]

theorem bytes_carve {slack size : Nat} {L L' : List Region} {k : Region}
    (h : carve slack size L = some (k, L')) : k.len + bytes L' = bytes L := by
  induction L generalizing L' with
  | nil => cases h
  | cons r L ih =>
    rw [carve] at h
    split at h
    · split at h <;> cases h
      · simp only [bytes_cons]
        omega
      · rfl
    · obtain ⟨⟨k', M⟩, hM, heq⟩ := Option.map_eq_some_iff.mp h
      cases heq
      rw [bytes_cons, bytes_cons, ← ih hM, Nat.add_left_comm]

end Cs3650.Lib.FirstFit
