import Cs3650.Malloc.FreeList

/-!
# The free list keeps its links

Every operation of the list is described on the list of cells it represents:
insertion puts a cell where its address belongs, `coalesce` joins it with a
neighbour it touches, `unlink` takes it out. Each changes bytes of cells of the
list only.
-/

namespace Cs3650.Malloc.FreeList

open Cs3650.Lib Cs3650.Lib.FirstFit

variable {fl : FreeList} {as bs : List Region} {a b c : Region}

theorem apart_of_ascending (h : Ascending (as ++ bs)) (ha : a ∈ as) (hb : b ∈ bs) :
    a.Apart b :=
  Or.inl ((List.pairwise_append.mp h).2.2 a ha b hb)

theorem firstBase_pos (hok : ∀ r ∈ as, CellOk r) (hne : as ≠ []) (e : Nat) :
    0 < firstBase as e := by
  cases as with
  | nil => exact absurd rfl hne
  | cons a as => exact (hok a List.mem_cons_self).2.1

/-- Set the pointer behind the cell `q`; in front of the first cell this is `head`. -/
def relink (fl : FreeList) (q v : Nat) : FreeList :=
  if q = 0 then { fl with head := v } else fl.setNext q v

/-- Set the pointer in front of the cell `e`, if there is one. -/
def backlink (fl : FreeList) (e v : Nat) : FreeList :=
  if e = 0 then fl else fl.setLast e v

theorem relink_spec {e : Nat} (hb : Before fl as e) (hasc : Ascending as) (hok : ∀ r ∈ as, CellOk r)
    {v : Nat} (hv : v < 2 ^ 64) :
    Before (fl.relink (lastBase 0 as) v) as v ∧
      UnchangedOff as fl.mem (fl.relink (lastBase 0 as) v).mem := by
  rcases List.eq_nil_or_concat as with rfl | ⟨as, a, rfl⟩
  · exact ⟨⟨rfl, trivial⟩, UnchangedOff.refl _ _⟩
  · obtain ⟨hhead, hlinks⟩ := hb
    rw [List.concat_eq_append] at *
    obtain ⟨hfirst, hlast, -⟩ := links_append.mp hlinks
    have haok : CellOk a := hok a (by simp)
    obtain ⟨hlen, hpos, hstop⟩ := haok
    unfold sizeofFlCell at hlen
    unfold Region.stop at hstop
    rw [lastBase_concat]
    have hq : a.base ≠ 0 := by omega
    have hu : UnchangedOff [a] fl.mem (setWord fl.mem (a.base + 8) v) :=
      unchangedOff_setWord _ _ (by omega) (by unfold Region.stop; omega)
    simp only [relink, if_neg hq, setNext]
    refine ⟨⟨?_, links_append.mpr ⟨?_, ?_, trivial⟩⟩, ?_⟩
    · rw [hhead, firstBase_append, firstBase_append]
      rfl
    · apply hfirst.frame hu (fun r hr => (hok r (by simp [hr])).1)
      intro r hr s hs
      rw [List.mem_singleton.mp hs]
      exact (apart_of_ascending hasc hr (List.mem_singleton_self a)).symm
    · refine ⟨?_, word_setWord_of_lt _ hv, ?_⟩
      · rw [word_setWord_ne _ _ _ (by omega)]
        exact hlast.size
      · rw [word_setWord_ne _ _ _ (by omega)]
        exact hlast.last
    · exact hu.mono fun r hr => ⟨r, by simpa using Or.inr (List.mem_singleton.mp hr), by
        unfold Region.Within; omega⟩

theorem backlink_spec {q : Nat} (hl : Links fl.mem q bs 0) (hasc : Ascending bs)
    (hok : ∀ r ∈ bs, CellOk r) {v : Nat} (hv : v < 2 ^ 64) :
    Links (fl.backlink (firstBase bs 0) v).mem v bs 0 ∧
      UnchangedOff bs fl.mem (fl.backlink (firstBase bs 0) v).mem := by
  cases bs with
  | nil => exact ⟨trivial, UnchangedOff.refl _ _⟩
  | cons b bs =>
    obtain ⟨hlen, hpos, hstop⟩ := hok b List.mem_cons_self
    unfold sizeofFlCell at hlen
    unfold Region.stop at hstop
    have hq : b.base ≠ 0 := by omega
    have hu : UnchangedOff [b] fl.mem (setWord fl.mem (b.base + 16) v) :=
      unchangedOff_setWord _ _ (by omega) (by unfold Region.stop; omega)
    have heq : fl.backlink (firstBase (b :: bs) 0) v = fl.setLast b.base v := if_neg hq
    rw [heq]
    refine ⟨⟨⟨?_, ?_, word_setWord_of_lt _ hv⟩, ?_⟩, ?_⟩
    · show word (setWord _ _ _) _ = _
      rw [word_setWord_ne _ _ _ (by omega)]
      exact hl.1.size
    · show word (setWord _ _ _) _ = _
      rw [word_setWord_ne _ _ _ (by omega)]
      exact hl.1.next
    · apply hl.2.frame hu (fun r hr => (hok r (List.mem_cons_of_mem _ hr)).1)
      intro r hr s hs
      rw [List.mem_singleton.mp hs]
      exact apart_of_ascending (show Ascending ([b] ++ _) from hasc) (List.mem_singleton_self b) hr
    · exact hu.mono fun r hr => ⟨r, by simpa using Or.inl (List.mem_singleton.mp hr), by
        unfold Region.Within; omega⟩

theorem lastBase_lt (hok : ∀ r ∈ as, CellOk r) : lastBase 0 as < 2 ^ 64 := by
  rcases List.eq_nil_or_concat as with rfl | ⟨as, a, rfl⟩
  · exact Nat.two_pow_pos 64
  · rw [List.concat_eq_append] at *
    rw [lastBase_concat]
    have hstop := (hok a (by simp)).2.2
    unfold Region.stop at hstop
    omega

theorem firstBase_lt (hok : ∀ r ∈ bs, CellOk r) : firstBase bs 0 < 2 ^ 64 := by
  cases bs with
  | nil => exact Nat.two_pow_pos 64
  | cons b bs =>
    have hstop := (hok b List.mem_cons_self).2.2
    unfold Region.stop at hstop
    rw [firstBase_cons]
    omega

theorem Before.frame {e : Nat} {m' : Memory} {L : List Region} (hb : Before fl as e)
    (hu : UnchangedOff L fl.mem m') (hok : ∀ r ∈ as, CellOk r)
    (hL : ∀ r ∈ as, ∀ s ∈ L, s.Apart r) : Before { fl with mem := m' } as e :=
  ⟨hb.1, hb.2.frame hu (fun r hr => (hok r hr).1) hL⟩

theorem unchangedOff_subset {L L' : List Region} {m m' : Memory} (h : UnchangedOff L m m')
    (hsub : ∀ r ∈ L, r ∈ L') : UnchangedOff L' m m' :=
  h.mono fun r hr => ⟨r, hsub r hr, by unfold Region.Within; omega⟩

/-! ## Insertion -/

/-- All the links set when `cell` comes to stand between `q` and `e`. -/
def place (fl : FreeList) (cell q e : Nat) : FreeList :=
  (((fl.relink q cell).setLast cell q).setNext cell e).backlink e cell

theorem place_spec (hl : Linked fl (as ++ bs)) (hasc : Ascending (as ++ c :: bs))
    (hok : ∀ r ∈ as ++ c :: bs, CellOk r) (hsize : fl.size c.base = c.len) :
    Linked (fl.place c.base (lastBase 0 as) (firstBase bs 0)) (as ++ c :: bs) ∧
      UnchangedOff (as ++ c :: bs) fl.mem
        (fl.place c.base (lastBase 0 as) (firstBase bs 0)).mem := by
  obtain ⟨hbefore, hafter⟩ := linked_append.mp hl
  have hoka : ∀ r ∈ as, CellOk r := fun r hr => hok r (by simp [hr])
  have hokb : ∀ r ∈ bs, CellOk r := fun r hr => hok r (by simp [hr])
  obtain ⟨hlen, hpos, hstop⟩ := hok c (by simp)
  unfold sizeofFlCell at hlen
  obtain ⟨hasca, hascb, hab⟩ := List.pairwise_append.mp hasc
  obtain ⟨hcb, hascb⟩ := List.pairwise_cons.mp hascb
  have hc64 : c.base < 2 ^ 64 := by
    unfold Region.stop at hstop
    omega
  have hapart_ac : ∀ r ∈ as, r.Apart c := fun r hr => Or.inl (hab r hr c (by simp))
  have hapart_ab : ∀ r ∈ as, ∀ s ∈ bs, r.Apart s := fun r hr s hs =>
    Or.inl (hab r hr s (by simp [hs]))
  have hapart_cb : ∀ s ∈ bs, c.Apart s := fun s hs => Or.inl (hcb s hs)
  -- the pointer in front, then the two links of the cell itself
  obtain ⟨hbefore₁, hu₁⟩ := relink_spec hbefore hasca hoka hc64
  generalize hq : lastBase 0 as = q at *
  generalize he : firstBase bs 0 = e at *
  set fl₁ := fl.relink q c.base with hfl₁
  set fl₃ := (fl₁.setLast c.base q).setNext c.base e with hfl₃
  have hq64 : q < 2 ^ 64 := hq ▸ lastBase_lt hoka
  have he64 : e < 2 ^ 64 := he ▸ firstBase_lt hokb
  have hu₃ : UnchangedOff [c] fl₁.mem fl₃.mem :=
    (unchangedOff_setWord _ _ (by omega) (by unfold Region.stop; omega)).trans
      (unchangedOff_setWord _ _ (by omega) (by unfold Region.stop; omega))
  have hcell₃ : CellAt fl₃.mem c q e := by
    refine ⟨?_, ?_, ?_⟩
    · show word (setWord (setWord fl₁.mem _ _) _ _) _ = _
      rw [word_setWord_ne _ _ _ (by omega), word_setWord_ne _ _ _ (by omega)]
      exact (hu₁.word hapart_ac (Nat.le_refl _) (by unfold Region.stop; omega)).trans hsize
    · exact word_setWord_of_lt _ he64
    · show word (setWord (setWord fl₁.mem _ _) _ _) _ = _
      rw [word_setWord_ne _ _ _ (by omega), word_setWord_of_lt _ hq64]
  have hbefore₃ : Before fl₃ as c.base := hbefore₁.frame hu₃ hoka fun r hr s hs => by
    rw [List.mem_singleton.mp hs]
    exact (hapart_ac r hr).symm
  have hafter₃ : Links fl₃.mem q bs 0 := by
    apply (hafter.frame hu₁ (fun r hr => (hokb r hr).1) fun r hr s hs => hapart_ab s hs r hr).frame
      hu₃ (fun r hr => (hokb r hr).1)
    intro r hr s hs
    rw [List.mem_singleton.mp hs]
    exact hapart_cb r hr
  -- the pointer back from the cell behind
  obtain ⟨hafter₄, hu₄⟩ := backlink_spec hafter₃ hascb hokb hc64
  rw [he] at hafter₄ hu₄
  have hhead₄ : (fl₃.backlink e c.base).head = fl₃.head := by
    unfold backlink
    split <;> rfl
  have hbefore₄ : Before (fl₃.backlink e c.base) as c.base := by
    have h := hbefore₃.frame hu₄ hoka fun r hr s hs => (hapart_ab r hr s hs).symm
    exact ⟨hhead₄.trans h.1, h.2⟩
  refine ⟨linked_append.mpr ⟨hbefore₄, ?_, ?_⟩, ?_⟩
  · rw [hq, he]
    exact hcell₃.frame hu₄ hlen fun s hs => (hapart_cb s hs).symm
  · exact hafter₄
  · have hu : UnchangedOff (as ++ c :: bs) fl.mem fl₃.mem :=
      (unchangedOff_subset hu₁ (by simp +contextual)).trans
        (unchangedOff_subset hu₃ (by simp))
    exact hu.trans (unchangedOff_subset hu₄ (by simp +contextual))

theorem insertBefore_eq {q : Nat} (hlast : fl.last b.base = q) (hpos : 0 < b.base)
    (hq : q + 16 ≤ b.base ∨ q = 0) :
    fl.insertBefore c.base b.base = fl.place c.base q b.base := by
  unfold insertBefore place relink backlink
  rw [hlast, if_neg (show b.base ≠ 0 by omega)]
  by_cases h0 : q = 0
  · simp only [h0, ne_eq, not_true, if_false, if_true]
    rfl
  · have hreread : (fl.setNext q c.base).last b.base = q := by
      unfold last setNext at *
      dsimp only
      rw [word_setWord_ne _ _ _ (by omega), hlast]
    simp only [ne_eq, h0, not_false_eq_true, if_true, if_false, hreread]

theorem length_ascending (hasc : Ascending as) (hok : ∀ r ∈ as, CellOk r) :
    as.length < 2 ^ 64 := by
  have hroom : ∀ c cs, Ascending (c :: cs) → (∀ r ∈ c :: cs, CellOk r) →
      c.base + 24 * (cs.length + 1) ≤ 2 ^ 64 := by
    intro c cs
    induction cs generalizing c with
    | nil =>
      intro _ hok
      obtain ⟨h1, -, h2⟩ := hok c List.mem_cons_self
      unfold sizeofFlCell at h1
      unfold Region.stop at h2
      simp only [List.length_nil]
      omega
    | cons d ds ih =>
      intro hasc hok
      obtain ⟨hfirst, hrest⟩ := List.pairwise_cons.mp hasc
      have hd := ih d hrest fun r hr => hok r (List.mem_cons_of_mem _ hr)
      have hcd := hfirst d List.mem_cons_self
      have hc := (hok c List.mem_cons_self).1
      unfold sizeofFlCell at hc
      unfold Region.stop at hcd
      simp only [List.length_cons]
      omega
  cases as with
  | nil => exact Nat.two_pow_pos 64
  | cons a as =>
    have h := hroom a as hasc hok
    simp only [List.length_cons]
    omega

theorem lastBase_below (hasc : Ascending (as ++ b :: bs)) (hok : ∀ r ∈ as ++ b :: bs, CellOk r) :
    lastBase 0 as + 16 ≤ b.base ∨ lastBase 0 as = 0 := by
  rcases List.eq_nil_or_concat as with rfl | ⟨as, a, rfl⟩
  · exact Or.inr rfl
  · rw [List.concat_eq_append] at *
    left
    have hab := (List.pairwise_append.mp hasc).2.2 a (by simp) b List.mem_cons_self
    have hlen := (hok a (by simp)).1
    unfold sizeofFlCell at hlen
    unfold Region.stop at hab
    rw [lastBase_concat]
    omega

/-- The loop of `insert_fl_cell` stops at the place where the address belongs. -/
theorem insertLoop_spec (mid : List Region) (hl : Linked fl (as ++ (mid ++ bs)))
    (hasc : Ascending (as ++ (mid ++ c :: bs))) (hok : ∀ r ∈ as ++ (mid ++ c :: bs), CellOk r)
    (hne : mid ++ bs ≠ []) {fuel : Nat} (hfuel : mid.length < fuel) :
    insertLoop c.base fuel fl (firstBase (mid ++ bs) 0) =
      .ok (fl.place c.base (lastBase 0 (as ++ mid)) (firstBase bs 0)) := by
  induction mid generalizing as fuel with
  | nil =>
    obtain ⟨b, bs, rfl⟩ := List.exists_cons_of_ne_nil hne
    obtain ⟨fuel, rfl⟩ := Nat.exists_eq_succ_of_ne_zero (Nat.ne_of_gt hfuel)
    have hb := hok b (by simp)
    have hcb : c.stop ≤ b.base := by
      have h := (List.pairwise_append.mp hasc).2.1
      exact (List.pairwise_cons.mp h).1 b List.mem_cons_self
    have hc := (hok c (by simp)).1
    unfold sizeofFlCell at hc
    unfold Region.stop at hcb
    have hlast : fl.last b.base = lastBase 0 as := (linked_append.mp hl).2.1.last
    have hsub : (as ++ b :: bs).Sublist (as ++ ([] ++ c :: b :: bs)) :=
      (List.sublist_cons_self c (b :: bs)).append_left as
    have hbelow : lastBase 0 as + 16 ≤ b.base ∨ lastBase 0 as = 0 :=
      lastBase_below (hasc.sublist hsub) fun r hr => hok r (hsub.subset hr)
    rw [List.nil_append, List.append_nil, firstBase_cons, insertLoop,
      if_neg (show b.base ≠ 0 from Nat.ne_of_gt hb.2.1), if_pos (show c.base < b.base by omega),
      insertBefore_eq hlast hb.2.1 hbelow]
  | cons x mid ih =>
    obtain ⟨fuel, rfl⟩ := Nat.exists_eq_succ_of_ne_zero (Nat.ne_of_gt (Nat.zero_lt_of_lt hfuel))
    have hx := hok x (by simp)
    have hxc : x.stop ≤ c.base := by
      have h := (List.pairwise_append.mp hasc).2.1
      exact (List.pairwise_cons.mp h).1 c (by simp)
    have hxlt : ¬ c.base < x.base := by
      unfold Region.stop at hxc
      omega
    have hnext : fl.next x.base = firstBase (mid ++ bs) 0 := (linked_append.mp hl).2.1.next
    rw [List.cons_append, firstBase_cons, insertLoop, if_neg (Nat.ne_of_gt hx.2.1), if_neg hxlt,
      hnext]
    by_cases hend : mid ++ bs = []
    · obtain ⟨rfl, rfl⟩ := List.append_eq_nil_iff.mp hend
      have hx0 : x.base ≠ 0 := Nat.ne_of_gt hx.2.1
      rw [if_pos (by rfl), lastBase_concat]
      unfold place relink backlink
      rw [if_neg hx0]
      rfl
    · have hrec : insertLoop c.base fuel fl (firstBase (mid ++ bs) 0) =
          .ok (fl.place c.base (lastBase 0 ((as ++ [x]) ++ mid)) (firstBase bs 0)) :=
        ih (by simpa using hl) (by simpa using hasc) (by simpa using hok) hend
          (by simpa using hfuel)
      have hpos : firstBase (mid ++ bs) 0 ≠ 0 := by
        refine Nat.ne_of_gt (firstBase_pos (fun r hr => hok r ?_) hend 0)
        rcases List.mem_append.mp hr with hr | hr <;> simp [hr]
      rw [if_neg hpos, hrec]
      simp

theorem insertFlCell_spec (hl : Linked fl (as ++ bs)) (hasc : Ascending (as ++ c :: bs))
    (hok : ∀ r ∈ as ++ c :: bs, CellOk r) :
    fl.insertFlCell c.base = .ok (fl.place c.base (lastBase 0 as) (firstBase bs 0)) := by
  unfold insertFlCell
  by_cases hne : as ++ bs = []
  · obtain ⟨rfl, rfl⟩ := List.append_eq_nil_iff.mp hne
    have hhead : fl.head = 0 := hl.1
    rw [if_pos hhead]
    rfl
  · have hok' : ∀ r ∈ as ++ bs, CellOk r := fun r hr =>
      hok r (((List.sublist_cons_self c bs).append_left as).subset hr)
    have hlen : as.length < walkFuel := by
      apply length_ascending (hasc.sublist (List.sublist_append_left as _))
      exact fun r hr => hok r (by simp [hr])
    have hhead : fl.head ≠ 0 := by
      rw [hl.1]
      exact Nat.ne_of_gt (firstBase_pos hok' hne 0)
    rw [if_neg hhead, hl.1]
    have hloop : _ = Except.ok (fl.place c.base (lastBase 0 ([] ++ as)) (firstBase bs 0)) :=
      insertLoop_spec as hl hasc hok hne hlen
    exact hloop

/-! ## First fit -/

theorem searchSize_spec {q size : Nat} (hl : Links fl.mem q bs 0) (hok : ∀ r ∈ bs, CellOk r)
    {fuel : Nat} (hfuel : bs.length < fuel) :
    fl.searchSize size fuel (firstBase bs 0) =
      .ok (((bs.find? fun r => size ≤ r.len).map Region.base).getD 0) := by
  induction bs generalizing q fuel with
  | nil =>
    obtain ⟨fuel, rfl⟩ := Nat.exists_eq_succ_of_ne_zero (Nat.ne_of_gt hfuel)
    rfl
  | cons b bs ih =>
    obtain ⟨fuel, rfl⟩ := Nat.exists_eq_succ_of_ne_zero (Nat.ne_of_gt (Nat.zero_lt_of_lt hfuel))
    obtain ⟨hcell, hrest⟩ := hl
    obtain ⟨hlen, hpos, -⟩ := hok b List.mem_cons_self
    unfold sizeofFlCell at hlen
    have hsize : fl.size b.base = b.len := hcell.size
    have hnext : fl.next b.base = firstBase bs 0 := hcell.next
    rw [firstBase_cons, searchSize, if_neg (Nat.ne_of_gt hpos), hsize, if_neg (by omega)]
    by_cases hfit : size ≤ b.len
    · rw [if_pos hfit, List.find?_cons_of_pos (by simpa using hfit)]
      rfl
    · rw [if_neg hfit, hnext, List.find?_cons_of_neg (by simpa using hfit)]
      exact ih hrest (fun r hr => hok r (List.mem_cons_of_mem _ hr)) (by simpa using hfuel)

/-! ## Taking a cell out -/

theorem unlink_spec (hl : Linked fl (as ++ c :: bs)) (hasc : Ascending (as ++ c :: bs))
    (hok : ∀ r ∈ as ++ c :: bs, CellOk r) :
    Linked (fl.unlink c.base) (as ++ bs) ∧
      UnchangedOff (as ++ bs) fl.mem (fl.unlink c.base).mem := by
  obtain ⟨hbefore, hcell, hafter⟩ := linked_append.mp hl
  have hoka : ∀ r ∈ as, CellOk r := fun r hr => hok r (by simp [hr])
  have hokb : ∀ r ∈ bs, CellOk r := fun r hr => hok r (by simp [hr])
  obtain ⟨hasca, hascb, hab⟩ := List.pairwise_append.mp hasc
  replace hascb := (List.pairwise_cons.mp hascb).2
  have hapart : ∀ r ∈ as, ∀ s ∈ bs, r.Apart s := fun r hr s hs =>
    Or.inl (hab r hr s (by simp [hs]))
  have heq : fl.unlink c.base =
      (fl.relink (lastBase 0 as) (firstBase bs 0)).backlink (firstBase bs 0) (lastBase 0 as) := by
    have hlast : fl.last c.base = lastBase 0 as := hcell.last
    have hnext : fl.next c.base = firstBase bs 0 := hcell.next
    unfold unlink relink backlink
    rw [hlast, hnext]
    simp only [ne_eq, ite_not]
  rw [heq]
  obtain ⟨hbefore₁, hu₁⟩ := relink_spec hbefore hasca hoka (firstBase_lt hokb)
  have hafter₁ := hafter.frame hu₁ (fun r hr => (hokb r hr).1) fun r hr s hs => hapart s hs r hr
  obtain ⟨hafter₂, hu₂⟩ := backlink_spec hafter₁ hascb hokb (lastBase_lt hoka)
  have hbefore₂ := hbefore₁.frame hu₂ hoka fun r hr s hs => (hapart r hr s hs).symm
  have hhead : ∀ (fl : FreeList) e v, (fl.backlink e v).head = fl.head := by
    intro fl e v
    unfold backlink
    split <;> rfl
  refine ⟨linked_append.mpr ⟨⟨(hhead _ _ _).trans hbefore₂.1, hbefore₂.2⟩, hafter₂⟩, ?_⟩
  exact (unchangedOff_subset hu₁ (by simp +contextual)).trans
    (unchangedOff_subset hu₂ (by simp +contextual))

/-! ## Splitting -/

/-- A cell may record another length, as long as its words stay inside it. -/
theorem resize_spec (hl : Linked fl (as ++ c :: bs)) (hasc : Ascending (as ++ c :: bs))
    (hok : ∀ r ∈ as ++ c :: bs, CellOk r) {n : Nat} (hn : n < 2 ^ 64) :
    Linked (fl.setSize c.base n) (as ++ ⟨c.base, n⟩ :: bs) ∧
      UnchangedOff [c] fl.mem (fl.setSize c.base n).mem := by
  obtain ⟨hbefore, hcell, hafter⟩ := linked_append.mp hl
  obtain ⟨hasca, hascb, hab⟩ := List.pairwise_append.mp hasc
  obtain ⟨hcb, -⟩ := List.pairwise_cons.mp hascb
  obtain ⟨hlen, -, -⟩ := hok c (by simp)
  unfold sizeofFlCell at hlen
  have hu : UnchangedOff [c] fl.mem (fl.setSize c.base n).mem :=
    unchangedOff_setWord _ _ (by omega) (by unfold Region.stop; omega)
  refine ⟨linked_append.mpr ⟨?_, ⟨?_, ?_, ?_⟩, ?_⟩, hu⟩
  · apply hbefore.frame hu (fun r hr => hok r (by simp [hr]))
    intro r hr s hs
    rw [List.mem_singleton.mp hs]
    exact Or.inr (hab r hr c (by simp))
  · exact word_setWord_of_lt _ hn
  · show word (setWord _ _ _) _ = _
    rw [word_setWord_ne _ _ _ (by dsimp only; omega)]
    exact hcell.next
  · show word (setWord _ _ _) _ = _
    rw [word_setWord_ne _ _ _ (by dsimp only; omega)]
    exact hcell.last
  · apply hafter.frame hu (fun r hr => (hok r (by simp [hr])).1)
    intro r hr s hs
    rw [List.mem_singleton.mp hs]
    exact Or.inl (hcb r hr)

theorem makeFlCell_spec (hc : CellOk c) :
    (fl.makeFlCell c.base c.len).size c.base = c.len ∧
      UnchangedOff [c] fl.mem (fl.makeFlCell c.base c.len).mem := by
  obtain ⟨hlen, -, hstop⟩ := hc
  unfold sizeofFlCell at hlen
  unfold Region.stop at hstop
  constructor
  · show word (setWord (setWord (setWord _ _ _) _ _) _ _) _ = _
    rw [word_setWord_ne _ _ _ (by omega), word_setWord_ne _ _ _ (by omega),
      word_setWord_of_lt _ (by omega)]
  · refine ((unchangedOff_setWord _ _ ?_ ?_).trans (unchangedOff_setWord _ _ ?_ ?_)).trans
      (unchangedOff_setWord _ _ ?_ ?_) <;> first | omega | (unfold Region.stop; omega)

theorem Linked.frame {m' : Memory} {L cs : List Region} (hl : Linked fl cs)
    (hu : UnchangedOff L fl.mem m') (hok : ∀ r ∈ cs, CellOk r)
    (hL : ∀ r ∈ cs, ∀ s ∈ L, s.Apart r) : Linked { fl with mem := m' } cs :=
  Before.frame (e := 0) hl hu hok hL

/-- The two halves of a cell stand in the list where the cell stood. -/
theorem halves_spec (hasc : Ascending (as ++ c :: bs)) (hok : ∀ r ∈ as ++ c :: bs, CellOk r)
    {n : Nat} (hn : sizeofFlCell ≤ n) (hrest : sizeofFlCell < c.len - n) :
    Ascending (as ++ ⟨c.base, n⟩ :: ⟨c.base + n, c.len - n⟩ :: bs) ∧
      (∀ r ∈ as ++ ⟨c.base, n⟩ :: ⟨c.base + n, c.len - n⟩ :: bs, CellOk r) ∧
      ∀ r ∈ as ++ ⟨c.base, n⟩ :: ⟨c.base + n, c.len - n⟩ :: bs, ∃ s ∈ as ++ c :: bs,
      r.Within s := by
  obtain ⟨hlen, hpos, hstop⟩ := hok c (by simp)
  obtain ⟨hasca, hascb, hab⟩ := List.pairwise_append.mp hasc
  obtain ⟨hcb, hascb⟩ := List.pairwise_cons.mp hascb
  unfold sizeofFlCell at hn hrest
  unfold Region.stop at hstop
  set x : Region := ⟨c.base, n⟩
  set y : Region := ⟨c.base + n, c.len - n⟩
  have hxbase : x.base = c.base := rfl
  have hxlen : x.len = n := rfl
  have hybase : y.base = c.base + n := rfl
  have hylen : y.len = c.len - n := rfl
  have hxy : x.stop = y.base := rfl
  have hyc : y.stop = c.stop := by
    unfold Region.stop
    omega
  have hcases : ∀ r ∈ as ++ x :: y :: bs, r = x ∨ r = y ∨ r ∈ as ++ c :: bs := by
    intro r hr
    simp only [List.mem_append, List.mem_cons] at *
    tauto
  refine ⟨?_, ?_, ?_⟩
  · apply ascending_insert
    · apply ascending_insert
      · exact List.pairwise_append.mpr ⟨hasca, hascb, fun r hr s hs => hab r hr s (by simp [hs])⟩
      · exact fun s hs => Nat.le_trans (hab s hs c (by simp)) (Nat.le_add_right _ _)
      · exact fun s hs => hyc ▸ hcb s hs
    · exact fun s hs => hab s hs c (by simp)
    · intro s hs
      rcases List.mem_cons.mp hs with rfl | hs
      · exact Nat.le_of_eq hxy
      · have h := hcb s hs
        rw [← hyc] at h
        unfold Region.stop at *
        omega
  · intro r hr
    rcases hcases r hr with rfl | rfl | hr
    · unfold CellOk sizeofFlCell Region.stop
      omega
    · unfold CellOk sizeofFlCell Region.stop
      omega
    · exact hok r hr
  · intro r hr
    rcases hcases r hr with rfl | rfl | hr
    · refine ⟨c, by simp, ?_⟩
      unfold Region.Within Region.stop
      omega
    · refine ⟨c, by simp, ?_⟩
      unfold Region.Within
      omega
    · exact ⟨r, hr, Nat.le_refl _, Nat.le_refl _⟩

theorem splitChunk_spec (hl : Linked fl (as ++ c :: bs)) (hasc : Ascending (as ++ c :: bs))
    (hok : ∀ r ∈ as ++ c :: bs, CellOk r) {n : Nat} (hn : sizeofFlCell ≤ n)
    (hrest : sizeofFlCell < c.len - n) :
    ∃ fl', fl.splitChunk c.base n = .ok fl' ∧
      Linked fl' (as ++ ⟨c.base, n⟩ :: ⟨c.base + n, c.len - n⟩ :: bs) ∧
      UnchangedOff (as ++ c :: bs) fl.mem fl'.mem := by
  have hcell := (linked_append.mp hl).2.1
  have hsize : fl.size c.base = c.len := hcell.size
  have hlt : c.len < 2 ^ 64 := by
    have hstop := (hok c (by simp)).2.2
    unfold Region.stop at hstop
    omega
  have hleft : subWord (fl.size c.base) n = c.len - n := by
    rw [hsize]
    unfold subWord sizeofFlCell at *
    omega
  have hn64 : n < 2 ^ 64 := by omega
  obtain ⟨hascx, hoks, hin⟩ := halves_spec hasc hok hn hrest
  obtain ⟨hl₁, hu₁⟩ := resize_spec hl hasc hok hn64
  set x : Region := ⟨c.base, n⟩
  set y : Region := ⟨c.base + n, c.len - n⟩
  have hassoc : as ++ x :: y :: bs = (as ++ [x]) ++ y :: bs := by simp
  have hsplit₁ : Linked (fl.setSize c.base n) ((as ++ [x]) ++ bs) := by simpa using hl₁
  rw [hassoc] at hascx hoks hin ⊢
  obtain ⟨hysize, hu₂⟩ := @makeFlCell_spec (fl.setSize c.base n) y (hoks y (by simp))
  have happart : ∀ r ∈ (as ++ [x]) ++ bs, ∀ s ∈ [y], s.Apart r := by
    intro r hr s hs
    rw [List.mem_singleton.mp hs]
    obtain ⟨-, h1, h2⟩ := List.pairwise_append.mp hascx
    rcases List.mem_append.mp hr with hr | hr
    · exact Or.inr (h2 r hr y (by simp))
    · exact Or.inl ((List.pairwise_cons.mp h1).1 r hr)
  have hl₂ := hsplit₁.frame hu₂
    (fun r hr => hoks r (((List.sublist_cons_self y bs).append_left _).subset hr)) happart
  have hins := insertFlCell_spec hl₂ hascx hoks
  obtain ⟨hl₃, hu₃⟩ := place_spec hl₂ hascx hoks hysize
  refine ⟨_, ?_, hl₃, ?_⟩
  · unfold splitChunk
    rw [hleft]
    simp only
    rw [if_neg (Nat.not_le.mpr hrest)]
    exact hins
  · exact ((unchangedOff_subset hu₁ (by simp)).trans
      (hu₂.mono fun r hr => hin r (by simp [List.mem_singleton.mp hr]))).trans (hu₃.mono hin)

theorem takeWhole_spec (hl : Linked fl (as ++ c :: bs)) (hasc : Ascending (as ++ c :: bs))
    (hok : ∀ r ∈ as ++ c :: bs, CellOk r) :
    Linked (fl.unlink c.base) (as ++ bs) ∧ (fl.unlink c.base).size c.base = c.len ∧
      UnchangedOff (as ++ c :: bs) fl.mem (fl.unlink c.base).mem := by
  obtain ⟨hl', hu⟩ := unlink_spec hl hasc hok
  obtain ⟨-, hcb, hab⟩ := List.pairwise_append.mp hasc
  have hapart : ∀ s ∈ as ++ bs, s.Apart c := by
    intro s hs
    rcases List.mem_append.mp hs with hs | hs
    · exact Or.inl (hab s hs c List.mem_cons_self)
    · exact Or.inr ((List.pairwise_cons.mp hcb).1 s hs)
  have hcell := (linked_append.mp hl).2.1
  have hcell' := CellAt.frame hu (hok c (by simp)).1 hapart hcell
  exact ⟨hl', hcell'.size,
    unchangedOff_subset hu ((List.sublist_cons_self c bs).append_left as).subset⟩

theorem takeSplit_spec (hl : Linked fl (as ++ c :: bs)) (hasc : Ascending (as ++ c :: bs))
    (hok : ∀ r ∈ as ++ c :: bs, CellOk r) {n : Nat} (hn : sizeofFlCell ≤ n)
    (hrest : sizeofFlCell < c.len - n) :
    ∃ fl', fl.splitChunk c.base n = .ok fl' ∧
      Linked (fl'.unlink c.base) (as ++ ⟨c.base + n, c.len - n⟩ :: bs) ∧
      (fl'.unlink c.base).size c.base = n ∧
      UnchangedOff (as ++ c :: bs) fl.mem (fl'.unlink c.base).mem := by
  obtain ⟨fl', hrun, hl', hu⟩ := splitChunk_spec hl hasc hok hn hrest
  obtain ⟨hascx, hoks, hin⟩ := halves_spec hasc hok hn hrest
  obtain ⟨hl'', hsize, hu'⟩ := takeWhole_spec hl' hascx hoks
  exact ⟨fl', hrun, hl'', hsize, hu.trans (hu'.mono hin)⟩

/-! ## Coalescing -/

theorem absorb_spec {x y : Region} (hl : Linked fl (as ++ x :: y :: bs))
    (hasc : Ascending (as ++ x :: y :: bs)) (hok : ∀ r ∈ as ++ x :: y :: bs, CellOk r)
    (htouch : x.stop = y.base) :
    Linked (fl.absorb x.base y.base) (as ++ ⟨x.base, x.len + y.len⟩ :: bs) ∧
      UnchangedOff (as ++ x :: y :: bs) fl.mem (fl.absorb x.base y.base).mem := by
  obtain ⟨hbefore, hx, hy, hafter⟩ := linked_append.mp hl
  have hoka : ∀ r ∈ as, CellOk r := fun r hr => hok r (by simp [hr])
  have hokb : ∀ r ∈ bs, CellOk r := fun r hr => hok r (by simp [hr])
  obtain ⟨-, hascx, hab⟩ := List.pairwise_append.mp hasc
  obtain ⟨hxb, hascy⟩ := List.pairwise_cons.mp hascx
  have hascb := (List.pairwise_cons.mp hascy).2
  obtain ⟨hxlen, hxpos, -⟩ := hok x (by simp)
  obtain ⟨hylen, -, hystop⟩ := hok y (by simp)
  unfold sizeofFlCell at hxlen hylen
  unfold Region.stop at htouch hystop
  have hx64 : x.base < 2 ^ 64 := by omega
  generalize he : firstBase bs 0 = e at *
  have he64 : e < 2 ^ 64 := he ▸ firstBase_lt hokb
  -- `x` gets the link and the length; `y` keeps its words
  set fl₁ := fl.setNext x.base e with hfl₁
  set fl₂ := fl₁.setSize x.base (x.len + y.len) with hfl₂
  have hu₂ : UnchangedOff [x] fl.mem fl₂.mem :=
    (unchangedOff_setWord _ _ (by omega) (by unfold Region.stop; omega)).trans
      (unchangedOff_setWord _ _ (by omega) (by unfold Region.stop; omega))
  have hy₂ : CellAt fl₂.mem y x.base e := by
    apply hy.frame hu₂ hylen
    intro s hs
    rw [List.mem_singleton.mp hs]
    exact Or.inl (Nat.le_of_eq htouch)
  have hx₂ : CellAt fl₂.mem ⟨x.base, x.len + y.len⟩ (lastBase 0 as) e := by
    refine ⟨?_, ?_, ?_⟩
    · show word (setWord _ _ _) _ = _
      rw [word_setWord_of_lt _ (by omega)]
    · show word (setWord (setWord _ _ _) _ _) _ = _
      rw [word_setWord_ne _ _ _ (by dsimp only; omega), word_setWord_of_lt _ he64]
    · show word (setWord (setWord _ _ _) _ _) _ = _
      rw [word_setWord_ne _ _ _ (by dsimp only; omega),
        word_setWord_ne _ _ _ (by dsimp only; omega)]
      exact hx.last
  have hafter₂ : Links fl₂.mem y.base bs 0 := by
    apply hafter.frame hu₂ (fun r hr => (hokb r hr).1)
    intro r hr s hs
    rw [List.mem_singleton.mp hs]
    exact Or.inl (hxb r (by simp [hr]))
  have hbefore₂ : Before fl₂ as x.base := by
    apply hbefore.frame hu₂ hoka
    intro r hr s hs
    rw [List.mem_singleton.mp hs]
    exact Or.inr (hab r hr x (by simp))
  have heq : fl.absorb x.base y.base = fl₂.backlink e x.base := by
    have hnext : fl.next y.base = e := hy.next
    have hsizex : fl₁.size x.base = x.len := by
      show word (setWord _ _ _) _ = _
      rw [word_setWord_ne _ _ _ (by omega)]
      exact hx.size
    have hsizey : fl₁.size y.base = y.len := by
      show word (setWord _ _ _) _ = _
      rw [word_setWord_ne _ _ _ (by omega)]
      exact hy.size
    have hnext₂ : fl₂.next y.base = e := hy₂.next
    unfold absorb backlink
    rw [hnext]
    simp only [← hfl₁, hsizex, hsizey, ← hfl₂, hnext₂, ne_eq, ite_not]
  rw [heq]
  obtain ⟨hafter₃, hu₃⟩ := backlink_spec hafter₂ hascb hokb hx64
  rw [he] at hafter₃ hu₃
  have hapart : ∀ r ∈ as, ∀ s ∈ bs, s.Apart r := fun r hr s hs => Or.inr (hab r hr s (by simp [hs]))
  have hbefore₃ := hbefore₂.frame hu₃ hoka hapart
  have hhead : (fl₂.backlink e x.base).head = fl₂.head := by
    unfold backlink
    split <;> rfl
  refine ⟨linked_append.mpr ⟨⟨hhead.trans hbefore₃.1, hbefore₃.2⟩, ?_, hafter₃⟩, ?_⟩
  · rw [he]
    apply hx₂.frame hu₃ (by unfold sizeofFlCell; dsimp only; omega)
    intro s hs
    have hys := (List.pairwise_cons.mp hascy).1 s hs
    right
    unfold Region.stop at *
    dsimp only
    omega
  · exact (unchangedOff_subset hu₂ (by simp)).trans (unchangedOff_subset hu₃ (by simp +contextual))

theorem coalescePair_spec {x y : Region} (hl : Linked fl (as ++ x :: y :: bs))
    (hasc : Ascending (as ++ x :: y :: bs)) (hok : ∀ r ∈ as ++ x :: y :: bs, CellOk r) :
    ∃ fl', fl.coalescePair x.base y.base x.stop = .ok fl' ∧
      Linked fl' (as ++ glue x (y :: bs)) ∧ UnchangedOff (as ++ x :: y :: bs) fl.mem fl'.mem := by
  have hxy : x.stop ≤ y.base := by
    have h := (List.pairwise_append.mp hasc).2.1
    exact (List.pairwise_cons.mp h).1 y List.mem_cons_self
  by_cases htouch : x.stop = y.base
  · obtain ⟨hl', hu⟩ := absorb_spec hl hasc hok htouch
    refine ⟨_, if_pos htouch, ?_, hu⟩
    rwa [glue, if_pos htouch]
  · refine ⟨fl, ?_, ?_, UnchangedOff.refl _ _⟩
    · unfold coalescePair
      rw [if_neg htouch, if_neg (by omega)]
    · rwa [glue, if_neg htouch]

theorem glue_cons (c : Region) (bs : List Region) :
    ∃ c' bs', glue c bs = c' :: bs' ∧ c'.base = c.base := by
  cases bs with
  | nil => exact ⟨c, [], rfl, rfl⟩
  | cons b bs =>
    rw [glue]
    split
    · exact ⟨_, _, rfl, rfl⟩
    · exact ⟨_, _, rfl, rfl⟩

theorem ascending_glue (h : Ascending (as ++ c :: bs)) : Ascending (as ++ glue c bs) := by
  cases bs with
  | nil => exact h
  | cons b bs =>
    rw [glue]
    split
    · obtain ⟨h1, h2, h3⟩ := List.pairwise_append.mp h
      obtain ⟨-, h4⟩ := List.pairwise_cons.mp h2
      obtain ⟨h5, h6⟩ := List.pairwise_cons.mp h4
      refine List.pairwise_append.mpr ⟨h1, List.pairwise_cons.mpr ⟨fun s hs => ?_, h6⟩, ?_⟩
      · have hbs := h5 s hs
        unfold Region.stop at *
        dsimp only
        omega
      · intro r hr s hs
        rcases List.mem_cons.mp hs with rfl | hs
        · exact h3 r hr c (by simp)
        · exact h3 r hr s (by simp [hs])
    · exact h

theorem coalesceNext_spec (hl : Linked fl (as ++ c :: bs)) (hasc : Ascending (as ++ c :: bs))
    (hok : ∀ r ∈ as ++ c :: bs, CellOk r) :
    ∃ fl', fl.coalesceNext c.base = .ok fl' ∧
      Linked fl' (as ++ glue c bs) ∧ UnchangedOff (as ++ c :: bs) fl.mem fl'.mem := by
  have hcell := (linked_append.mp hl).2.1
  have hnext : fl.next c.base = firstBase bs 0 := hcell.next
  have hsize : fl.size c.base = c.len := hcell.size
  unfold coalesceNext
  rw [hnext, hsize]
  cases bs with
  | nil => exact ⟨fl, rfl, hl, UnchangedOff.refl _ _⟩
  | cons b bs =>
    have hb : b.base ≠ 0 := Nat.ne_of_gt (hok b (by simp)).2.1
    rw [firstBase_cons, if_pos hb]
    exact coalescePair_spec hl hasc hok

theorem coalesceLast_spec (hl : Linked fl (as ++ a :: c :: bs))
    (hasc : Ascending (as ++ a :: c :: bs)) (hok : ∀ r ∈ as ++ a :: c :: bs, CellOk r) :
    ∃ fl', fl.coalesceLast c.base = .ok fl' ∧ Linked fl' (as ++ glue a (c :: bs)) ∧
      UnchangedOff (as ++ a :: c :: bs) fl.mem fl'.mem := by
  obtain ⟨-, hcella, hcellc, -⟩ := linked_append.mp hl
  have hlast : fl.last c.base = a.base := hcellc.last
  have hsize : fl.size a.base = a.len := hcella.size
  have ha : a.base ≠ 0 := Nat.ne_of_gt (hok a (by simp)).2.1
  unfold coalesceLast
  rw [hlast, hsize, if_pos ha]
  exact coalescePair_spec hl hasc hok

/-- The list after `coalesce` on its member `c`. -/
def settle (as : List Region) (c : Region) (bs : List Region) : List Region :=
  match as.getLast? with
  | none => glue c bs
  | some a => as.dropLast ++ glue a (glue c bs)

theorem covers_glue {L : List Region} (hc : ∀ x, c.Contains x → Covers L x)
    (hbs : ∀ s ∈ bs, ∀ x, s.Contains x → Covers L x) :
    ∀ t ∈ glue c bs, ∀ x, t.Contains x → Covers L x :=
  all_glue (P := fun r => ∀ x, r.Contains x → Covers L x) covers_join hc hbs

theorem coalesce_spec (hl : Linked fl (as ++ c :: bs)) (hasc : Ascending (as ++ c :: bs))
    (hok : ∀ r ∈ as ++ c :: bs, CellOk r) :
    ∃ fl', fl.coalesce c.base = .ok fl' ∧ Linked fl' (settle as c bs) ∧
      UnchangedOff (as ++ c :: bs) fl.mem fl'.mem := by
  obtain ⟨fl₁, hrun₁, hl₁, hu₁⟩ := coalesceNext_spec hl hasc hok
  have hasc₁ := ascending_glue hasc
  have hok₁ : ∀ r ∈ as ++ glue c bs, CellOk r := by
    intro r hr
    rcases List.mem_append.mp hr with hr | hr
    · exact hok r (by simp [hr])
    · exact all_glue (fun _ _ => cellOk_join) (hok c (by simp)) (fun s hs => hok s (by simp [hs]))
        r hr
  have hcover : ∀ r ∈ as ++ glue c bs, ∀ x, r.Contains x → Covers (as ++ c :: bs) x := by
    intro r hr x hx
    rcases List.mem_append.mp hr with hr | hr
    · exact ⟨r, by simp [hr], hx⟩
    · exact covers_glue (fun x hx => ⟨c, by simp, hx⟩) (fun s hs x hx => ⟨s, by simp [hs], hx⟩)
        r hr x hx
  obtain ⟨c', bs', hglue, hbase⟩ := glue_cons c bs
  rw [hglue] at hl₁ hasc₁ hok₁ hcover
  have hrun : fl.coalesce c.base = fl₁.coalesceLast c.base := by
    unfold coalesce
    rw [hrun₁, ok_bind]
  rw [hrun, ← hbase]
  unfold settle
  rw [hglue]
  rcases List.eq_nil_or_concat as with rfl | ⟨as, a, rfl⟩
  · have hlast : fl₁.last c'.base = 0 := hl₁.2.1.last
    refine ⟨fl₁, ?_, hl₁, hu₁⟩
    unfold coalesceLast
    rw [hlast, if_neg (by simp)]
  · have hassoc : as.concat a ++ c' :: bs' = as ++ a :: c' :: bs' := by simp
    rw [hassoc] at hl₁ hasc₁ hok₁ hcover
    obtain ⟨fl₂, hrun₂, hl₂, hu₂⟩ := coalesceLast_spec hl₁ hasc₁ hok₁
    refine ⟨fl₂, hrun₂, ?_, hu₁.trans (hu₂.cover hcover)⟩
    simpa using hl₂

/-- Making a cell, inserting it and coalescing gives the region back to the
policy's list. -/
theorem giveBack_spec {L : List Region} (hl : Linked fl L) (hsep : Separated L)
    (hok : ∀ r ∈ c :: L, CellOk r) (hapart : ∀ s ∈ L, c.Apart s) :
    ∃ fl₁ fl₂, (fl.makeFlCell c.base c.len).insertFlCell c.base = .ok fl₁ ∧
      fl₁.coalesce c.base = .ok fl₂ ∧ Linked fl₂ (release c L) ∧
      UnchangedOff (c :: L) fl.mem fl₂.mem := by
  have hcok := hok c List.mem_cons_self
  have hpos : ∀ s ∈ c :: L, 0 < s.len := fun s hs => Nat.lt_of_lt_of_le (by decide) (hok s hs).1
  have hposL : ∀ s ∈ L, 0 < s.len := fun s hs => hpos s (List.mem_cons_of_mem _ hs)
  obtain ⟨as, bs, rfl, ha, hb⟩ := exists_split c hsep hapart hposL
  have hclen := hpos c List.mem_cons_self
  have hcb : ∀ s ∈ bs, c.base < s.base := fun s hs => by
    have h := hb s hs
    unfold Region.stop at h
    omega
  have hperm : (as ++ c :: bs).Perm (c :: (as ++ bs)) := List.perm_middle
  have hasc := ascending_insert hsep.ascending ha hb
  have hok' : ∀ r ∈ as ++ c :: bs, CellOk r := fun r hr => hok r (hperm.subset hr)
  obtain ⟨hsize, hu₀⟩ := @makeFlCell_spec fl _ hcok
  have hl₀ := hl.frame hu₀ (fun r hr => hok r (List.mem_cons_of_mem _ hr)) fun r hr s hs => by
    rw [List.mem_singleton.mp hs]
    exact hapart r hr
  obtain ⟨hl₁, hu₁⟩ := place_spec hl₀ hasc hok' hsize
  obtain ⟨fl₂, hrun₂, hl₂, hu₂⟩ := coalesce_spec hl₁ hasc hok'
  have hsettle : settle as c bs = release c (as ++ bs) := by
    unfold settle
    rcases List.eq_nil_or_concat as with rfl | ⟨as, a, rfl⟩
    · exact (release_front hcb).symm
    · have hassoc : as.concat a ++ bs = as ++ a :: bs := by simp
      rw [hassoc] at hsep hposL ⊢
      rw [release_between hsep hposL (ha a (by simp)) hcb]
      simp
  refine ⟨_, fl₂, insertFlCell_spec hl₀ hasc hok', hrun₂, hsettle ▸ hl₂, ?_⟩
  exact (unchangedOff_subset hu₀ (by simp)).trans
    ((unchangedOff_subset hu₁ fun r hr => hperm.subset hr).trans
      (unchangedOff_subset hu₂ fun r hr => hperm.subset hr))

end Cs3650.Malloc.FreeList
