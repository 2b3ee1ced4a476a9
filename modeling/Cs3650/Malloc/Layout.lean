import Cs3650.Malloc.FreeList

/-!
# How free cells and live chunks lie in memory

The part of the heap invariant that does not mention the contents of memory:
free cells in address order and not touching, everything apart, and everything
on pages that the kernel will not return.
-/

namespace Cs3650.Malloc

open Cs3650.Lib Cs3650.Lib.FirstFit

structure Layout (pg : Pages) (free live : List Region) : Prop where
  separated : Separated free
  ok : ∀ r ∈ free ++ live, CellOk r
  holds : ∀ r ∈ free ++ live, pg.Holds r
  live_apart : live.Pairwise Region.Apart
  apart : ∀ r ∈ free, ∀ k ∈ live, r.Apart k

theorem apart_join_left {r s k : Region} (hr : r.Apart k) (hs : s.Apart k)
    (htouch : r.stop = s.base) (hk : 0 < k.len) : Region.Apart ⟨r.base, r.len + s.len⟩ k := by
  unfold Region.Apart Region.stop at *
  dsimp only
  omega

namespace Layout

variable {pg : Pages} {free live : List Region} {k : Region}

theorem pairwise (h : Layout pg free live) : (free ++ live).Pairwise Region.Apart :=
  List.pairwise_append.mpr ⟨h.separated.imp fun hrs => Or.inl (Nat.le_of_lt hrs), h.live_apart,
    h.apart⟩

theorem perm {live' : List Region} (h : Layout pg free live) (hp : live.Perm live') :
    Layout pg free live' where
  separated := h.separated
  ok := fun r hr => h.ok r ((hp.append_left free).symm.subset hr)
  holds := fun r hr => h.holds r ((hp.append_left free).symm.subset hr)
  live_apart := Region.apart_perm hp h.live_apart
  apart := fun r hr k hk => h.apart r hr k (hp.symm.subset hk)

theorem tail (h : Layout pg free (k :: live)) : Layout pg free live where
  separated := h.separated
  ok := fun r hr => h.ok r (((List.sublist_cons_self k live).append_left free).subset hr)
  holds := fun r hr => h.holds r (((List.sublist_cons_self k live).append_left free).subset hr)
  live_apart := (List.pairwise_cons.mp h.live_apart).2
  apart := fun r hr s hs => h.apart r hr s (List.mem_cons_of_mem _ hs)

theorem cell_ok (h : Layout pg free live) {r : Region} (hr : r ∈ free) : CellOk r :=
  h.ok r (List.mem_append_left _ hr)

theorem chunk_ok (h : Layout pg free live) (hk : k ∈ live) : CellOk k :=
  h.ok k (List.mem_append_right _ hk)

theorem release (h : Layout pg free (k :: live)) : Layout pg (release k free) live := by
  have hk : k ∈ k :: live := List.mem_cons_self
  have hkfree : ∀ s ∈ free, k.Apart s := fun s hs => (h.apart s hs k hk).symm
  refine ⟨?_, ?_, ?_, h.tail.live_apart, ?_⟩
  · exact release_separated h.separated hkfree (fun s hs => (h.cell_ok hs).pos) (h.chunk_ok hk).pos
  · intro r hr
    rcases List.mem_append.mp hr with hr | hr
    · exact all_release (P := CellOk) (fun _ _ => cellOk_join) (h.chunk_ok hk)
        (fun s hs => h.cell_ok hs) r hr
    · exact h.chunk_ok (List.mem_cons_of_mem _ hr)
  · intro r hr
    rcases List.mem_append.mp hr with hr | hr
    · exact all_release (P := pg.Holds) (fun _ _ => Pages.Holds.join)
        (h.holds k (List.mem_append_right _ hk))
        (fun s hs => h.holds s (List.mem_append_left _ hs)) r hr
    · exact h.holds r (List.mem_append_right _ (List.mem_cons_of_mem _ hr))
  · intro r hr s hs
    have hspos := (h.chunk_ok (List.mem_cons_of_mem k hs)).pos
    exact all_release (P := fun r => r.Apart s) (fun _ _ h1 h2 h3 => apart_join_left h1 h2 h3 hspos)
      (Region.apart_cons h.live_apart s hs)
      (fun t ht => h.apart t ht s (List.mem_cons_of_mem _ hs)) r hr

theorem map (h : Layout pg free live) {a len : Nat} (hf : pg.Free a len)
    (hlen : pageCount len * pageSize = len) : Layout (pg.map a len) free (⟨a, len⟩ :: live) := by
  have hapart : ∀ r ∈ free ++ live, Region.Apart ⟨a, len⟩ r := by
    intro r hr
    have h1 := hf.apart (h.holds r hr) (h.ok r hr).pos
    rwa [hlen] at h1
  have hnew : CellOk ⟨a, len⟩ ∧ (pg.map a len).Holds ⟨a, len⟩ := by
    obtain ⟨h1, h2, h3, h4, -⟩ := hf
    refine ⟨⟨?_, h3, ?_⟩, Pages.holds_map h2 ⟨Nat.le_refl _, ?_⟩⟩
    · unfold pageCount pageSize sizeofFlCell at *
      dsimp only
      omega
    · unfold Region.stop
      dsimp only
      omega
    · unfold Region.stop
      dsimp only
      omega
  refine ⟨h.separated, ?_, ?_, ?_, ?_⟩
  · intro r hr
    rcases List.mem_append.mp hr with hr | hr
    · exact h.cell_ok hr
    · rcases List.mem_cons.mp hr with rfl | hr
      · exact hnew.1
      · exact h.chunk_ok hr
  · intro r hr
    rcases List.mem_append.mp hr with hr | hr
    · exact (h.holds r (List.mem_append_left _ hr)).map a len
    · rcases List.mem_cons.mp hr with rfl | hr
      · exact hnew.2
      · exact (h.holds r (List.mem_append_right _ hr)).map a len
  · exact List.pairwise_cons.mpr ⟨fun s hs => hapart s (List.mem_append_right _ hs), h.live_apart⟩
  · intro r hr s hs
    rcases List.mem_cons.mp hs with rfl | hs
    · exact (hapart r (List.mem_append_left _ hr)).symm
    · exact h.apart r hr s hs

theorem cut {as bs rest : List Region} {r : Region} (h : Layout pg (as ++ r :: bs) live)
    (hk : k.Within r) (hkok : CellOk k)
    (hrest : ∀ s ∈ rest, s.Within r ∧ CellOk s ∧ k.stop ≤ s.base)
    (hone : rest.length ≤ 1) : Layout pg (as ++ rest ++ bs) (k :: live) := by
  have hr : r ∈ as ++ r :: bs := by simp
  obtain ⟨ha, hrb, hab⟩ := List.pairwise_append.mp h.separated
  obtain ⟨hrb, hb⟩ := List.pairwise_cons.mp hrb
  have hpart : ∀ s ∈ as ++ rest ++ bs, s ∈ as ++ r :: bs ∨ s ∈ rest := by
    intro s hs
    simp only [List.mem_append, List.mem_cons] at *
    tauto
  have hrlive : ∀ s : Region, s.Within r → ∀ t ∈ live, s.Apart t := fun s hs t ht =>
    ((h.apart r hr t ht).symm.within hs).symm
  have hrholds : ∀ s : Region, s.Within r → pg.Holds s := fun s hs =>
    (h.holds r (List.mem_append_left _ hr)).within hs
  have hrne : ∀ s ∈ as ++ rest ++ bs, s.Apart k := by
    intro s hs
    rcases List.mem_append.mp hs with hs | hs
    · rcases List.mem_append.mp hs with hs | hs
      · have h1 := hab s hs r List.mem_cons_self
        left
        unfold Region.Within at hk
        omega
      · exact Or.inr (hrest s hs).2.2
    · have h1 := hrb s hs
      right
      unfold Region.Within at hk
      omega
  refine ⟨?_, ?_, ?_, ?_, ?_⟩
  · rw [List.append_assoc]
    refine List.pairwise_append.mpr ⟨ha, List.pairwise_append.mpr ⟨?_, hb, ?_⟩, ?_⟩
    · rcases rest with - | ⟨s, - | ⟨t, rest⟩⟩
      · exact List.Pairwise.nil
      · exact List.pairwise_singleton _ _
      · simp at hone
    · intro s hs t ht
      have h1 := hrb t ht
      obtain ⟨⟨-, h2⟩, -⟩ := hrest s hs
      omega
    · intro s hs t ht
      rcases List.mem_append.mp ht with ht | ht
      · have h1 := hab s hs r List.mem_cons_self
        obtain ⟨⟨h2, -⟩, -⟩ := hrest t ht
        omega
      · exact hab s hs t (List.mem_cons_of_mem _ ht)
  · intro s hs
    rcases List.mem_append.mp hs with hs | hs
    · rcases hpart s hs with hs | hs
      · exact h.cell_ok hs
      · exact (hrest s hs).2.1
    · rcases List.mem_cons.mp hs with rfl | hs
      · exact hkok
      · exact h.chunk_ok hs
  · intro s hs
    rcases List.mem_append.mp hs with hs | hs
    · rcases hpart s hs with hs | hs
      · exact h.holds s (List.mem_append_left _ hs)
      · exact hrholds s (hrest s hs).1
    · rcases List.mem_cons.mp hs with rfl | hs
      · exact hrholds s hk
      · exact h.holds s (List.mem_append_right _ hs)
  · exact List.pairwise_cons.mpr ⟨hrlive k hk, h.live_apart⟩
  · intro s hs t ht
    rcases List.mem_cons.mp ht with rfl | ht
    · exact hrne s hs
    · rcases hpart s hs with hs | hs
      · exact h.apart s hs t ht
      · exact hrlive s (hrest s hs).1 t ht

theorem carve (h : Layout pg free live) {size : Nat} (hsize : sizeofFlCell ≤ size)
    {free' : List Region} (hc : carve sizeofFlCell size free = some (k, free')) :
    Layout pg free' (k :: live) := by
  obtain ⟨as, r, bs, rfl, -, hr, hcase⟩ := carve_cases hc
  obtain ⟨hrlen, hrpos, hrstop⟩ := h.cell_ok (r := r) (by simp)
  unfold sizeofFlCell at *
  unfold Region.stop at hrstop
  rcases hcase with ⟨hleft, rfl, rfl⟩ | ⟨-, rfl, rfl⟩
  · have hcut : Layout pg (as ++ [⟨r.base + size, r.len - size⟩] ++ bs) (⟨r.base, size⟩ :: live) :=
      h.cut ⟨Nat.le_refl _, by unfold Region.stop; dsimp only; omega⟩
      (by unfold CellOk sizeofFlCell Region.stop; dsimp only; omega)
      (by
        intro s hs
        rw [List.mem_singleton.mp hs]
        unfold Region.Within CellOk sizeofFlCell Region.stop
        dsimp only
        omega)
      (by simp)
    simpa using hcut
  · have hcut : Layout pg (as ++ [] ++ bs) (k :: live) :=
      h.cut ⟨Nat.le_refl _, Nat.le_refl _⟩ (h.cell_ok (by simp)) (by simp) (by simp)
    simpa using hcut

/-- A chunk that is a range of whole pages, or, when no page is returned
twice, any range, may be unmapped. -/
theorem munmap (h : Layout pg free (k :: live)) {a len : Nat}
    (hused : ∀ p, pg.mapped p = true → pg.used p = true)
    (hcase : pg.reuse = false ∨
      (a % pageSize = 0 ∧ k = ⟨a, len⟩ ∧ pageCount len * pageSize = len)) :
    Layout (pg.munmap a len) free live := by
  refine ⟨h.separated, h.tail.ok, ?_, h.tail.live_apart, h.tail.apart⟩
  intro r hr x h1 h2
  have htaken := h.tail.holds r hr x h1 h2
  rcases hcase with hreuse | ⟨halign, rfl, hlen⟩
  · exact Pages.taken_munmap_of_not_reuse hreuse hused a len _ htaken
  · have hapart : Region.Apart ⟨a, len⟩ r := by
      rcases List.mem_append.mp hr with hr | hr
      · exact (h.apart r hr _ List.mem_cons_self).symm
      · exact Region.apart_cons h.live_apart r hr
    have hout : Pages.inRange a len (x / pageSize) = false := by
      by_contra hin
      have hmem := Pages.mem_of_inRange halign (by simpa using hin)
      rw [hlen] at hmem
      unfold Region.Apart Region.stop at *
      dsimp only at hapart
      omega
    rw [Pages.taken_munmap_outside hout, htaken]

end Layout

end Cs3650.Malloc
