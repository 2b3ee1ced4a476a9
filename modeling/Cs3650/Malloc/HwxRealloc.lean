import Cs3650.Malloc.HwxInvariant

/-!
# The copy of `xrealloc_helper` (chal2/starter-ch02/hwx_malloc.c)

The recorded size counts the header, the new size does not. The copy never
writes past the new block and carries over what fits; what it reads ends behind
the old block as soon as the new size is larger than the old payload.
-/

namespace Cs3650.Malloc.Hwx

open Cs3650.Lib

/-- The bytes of a chunk behind its header. -/
def payload (k : Region) : Region := ⟨k.base + 8, k.len - 8⟩

/-- The length passed to `memcpy`. -/
def copyLength (size newSize : Nat) : Nat := if size < newSize then size else newSize

theorem copyBlock_mem (h : Heap) (newItem item size newSize : Nat) :
    (copyBlock h newItem item size newSize).list.mem =
      copy h.list.mem newItem item (copyLength size newSize) := rfl

/-- What `xrealloc` of the chunk `k` to `n` bytes should do when it returns `q`. -/
structure CopiesPayload (w : World) (k : Region) (n q : Nat) (h' : Heap) : Prop where
  reads : ∀ i : Nat, i < copyLength (w.heap.list.size k.base) n →
    (payload k).Contains ((k.base + 8 + i : Nat) : Int)
  writes : ∀ i : Nat, i < copyLength (w.heap.list.size k.base) n →
    (payload (chunkAt h' q)).Contains ((q + i : Nat) : Int)
  content : ∀ i : Nat, i < min (k.len - 8) n →
    h'.list.mem ((q + i : Nat) : Int) = w.heap.list.mem ((k.base + 8 + i : Nat) : Int)

/-- Where the kernel may return a page twice, no step hands out an unsplit
cell of a page or more. -/
def CalmIfReused (reuse : Bool) (w : World) (e : Event) : Prop := reuse = true → Calm w e

theorem copyLength_le (size newSize : Nat) : copyLength size newSize ≤ newSize := by
  unfold copyLength
  split <;> omega

theorem reads_iff {k : Region} (hk : sizeofFlCell ≤ k.len) (n : Nat) :
    (∀ i : Nat, i < copyLength k.len n → (payload k).Contains ((k.base + 8 + i : Nat) : Int)) ↔
      n + 8 ≤ k.len := by
  unfold sizeofFlCell at hk
  unfold payload Region.Contains Region.stop copyLength
  dsimp only
  constructor
  · intro hin
    -- the first byte behind the payload
    by_contra hlarge
    have hlast := hin (k.len - 8) (by split <;> omega)
    omega
  · intro hfits i hi
    rw [if_neg (by omega)] at hi
    omega

theorem Reachable.mono {C C' : World → Event → Prop} (hC : ∀ w e, C w e → C' w e) {reuse : Bool}
    {m : Memory} {w : World} (hw : Reachable C reuse m w) : Reachable C' reuse m w := by
  induction hw with
  | empty => exact .empty
  | step _ ha hc hs ih => exact .step ih ha (hC _ _ hc) hs

theorem rep_of_calmIfReused {reuse : Bool} {m : Memory} {w : World}
    (hw : Reachable (CalmIfReused reuse) reuse m w) :
    ∃ s, RepWorld w s ∧ (s.pages.reuse = false ∨ ∀ k ∈ s.live, WholePages k) := by
  cases reuse with
  | false =>
    obtain ⟨s, hrep, hreuse⟩ := rep_of_reachable hw
    exact ⟨s, hrep, Or.inl hreuse⟩
  | true =>
    obtain ⟨s, hrep, hwhole⟩ := rep_of_reachable_calm (hw.mono fun _ _ hc => hc rfl)
    exact ⟨s, hrep, Or.inr hwhole⟩

theorem xrealloc_stages {answers : List Nat} {h h' : Heap} {p n q : Nat} (hp : p ≠ 0)
    (hn0 : 0 < n) (hrun : xrealloc answers h p n = .ok (q, h')) :
    ∃ h₁, xmallocHelper answers (withHeader n) h = .ok (q, h₁) ∧
      xfreeHelper (copyBlock h₁ q p (h.list.size (p - 8)) n) p = .ok h' := by
  unfold xrealloc xreallocHelper at hrun
  rw [if_neg (by omega), if_neg hp, if_neg (by omega)] at hrun
  dsimp only at hrun
  obtain ⟨⟨q', h₁⟩, hmalloc, hrest⟩ := bind_eq_ok.mp hrun
  dsimp only at hrest
  obtain ⟨h₂, hfree, heq⟩ := bind_eq_ok.mp hrest
  cases heq
  exact ⟨h₁, hmalloc, hfree⟩

theorem realloc_moves {w : World} {s : Spec} (hw : RepWorld w s) {k : Region} (hk : k ∈ s.live)
    (hwhole : s.pages.reuse = false ∨ WholePages k) {n : Nat} (hn0 : 0 < n)
    (hn : n + 8 < 2 ^ 64) {answers : List Nat} {q : Nat} {h' : Heap}
    (hrun : xrealloc answers w.heap (k.base + 8) n = .ok (q, h')) :
    ∃ k' : Region, q = k'.base + 8 ∧ chunkAt h' q = k' ∧ n + 8 ≤ k'.len ∧
      ∀ i : Nat, i < min (k.len - 8) n →
        h'.list.mem ((q + i : Nat) : Int) = w.heap.list.mem ((k.base + 8 + i : Nat) : Int) := by
  obtain ⟨h₁, hmalloc, hfree⟩ := xrealloc_stages (by omega) hn0 hrun
  rw [Nat.add_sub_cancel, hw.heap.header k hk] at hfree
  have hsim := xmallocHelper_run hw.heap answers (withHeader n)
  rw [hmalloc] at hsim
  cases hspec : Spec.malloc (clamp (withHeader n)) answers s with
  | error e =>
    rw [hspec] at hsim
    exact absurd hsim id
  | ok t =>
    rw [hspec] at hsim
    obtain ⟨hq, hrep, hkept⟩ := hsim
    dsimp only at hq hrep hkept
    obtain ⟨hlive, hreuse, -⟩ := malloc_live hspec
    have hclamp := le_clamp (withHeader n)
    have hlen := malloc_len (by rw [withHeader_of_lt hn]; exact clamp_lt hn) hspec
    rw [withHeader_of_lt hn] at hclamp hlen
    have hroom : n + 8 ≤ t.1.len := by omega
    have hnew : t.1 ∈ t.2.live := hlive ▸ List.mem_cons_self
    have hold : k ∈ t.2.live := hlive ▸ List.mem_cons_of_mem _ hk
    have hcopy := @copyBlock_sim _ _ hrep _ hnew (k.base + 8) k.len _ hroom
    rw [← hq] at hcopy
    obtain ⟨h₂, hfree₂, hrep₂, hkept₂⟩ := xfreeHelper_run hcopy hold (hreuse ▸ hwhole)
    rw [hfree, Except.ok.injEq] at hfree₂
    subst hfree₂
    have hlose : lose (k.base + 8) t.2.live = t.1 :: lose (k.base + 8) s.live := by
      have hlay := hrep.layout
      rw [hlive] at hlay ⊢
      exact lose_cons hlay hk
    have hstays : t.1 ∈ lose (k.base + 8) t.2.live := hlose ▸ List.mem_cons_self
    refine ⟨t.1, hq, ?_, hroom, fun i hi => ?_⟩
    · rw [hq]
      exact chunkAt_header hrep₂ (free₁_live t.2 k ▸ hstays)
    · have hin : t.1.Contains ((q + i : Nat) : Int) := by
        unfold Region.Contains Region.stop
        omega
      have hfrom : k.Contains ((k.base + 8 + i : Nat) : Int) := by
        unfold Region.Contains Region.stop
        omega
      have hlength : i < copyLength k.len n := by
        unfold copyLength
        split <;> omega
      rw [hkept₂ _ hstays _ hin, copyBlock_mem, copy, Nat.cast_add q i,
        patch_inside _ _ _ _ hlength, ← hkept k hk _ hfrom, Nat.cast_add (k.base + 8) i]

/-- The copy is right in every respect if and only if the new size fits in the
old block's payload. -/
theorem realloc_copies_payload_iff {reuse : Bool} {m : Memory} {w : World}
    (hw : Reachable (CalmIfReused reuse) reuse m w) {k : Region} (hk : k ∈ w.live) {n : Nat}
    (hn0 : 0 < n) (hn : n + 8 < 2 ^ 64) {answers : List Nat} {q : Nat} {h' : Heap}
    (hrun : xrealloc answers w.heap (k.base + 8) n = .ok (q, h')) :
    CopiesPayload w k n q h' ↔ n + 8 ≤ k.len := by
  obtain ⟨s, hrep, hsafe⟩ := rep_of_calmIfReused hw
  rw [hrep.live] at hk
  have hone : s.pages.reuse = false ∨ WholePages k := hsafe.imp id fun h => h k hk
  have hreads := reads_iff (hrep.heap.layout.chunk_ok hk).1 n
  have hheader : w.heap.list.size k.base = k.len := hrep.heap.header k hk
  constructor
  · intro hcopies
    have hin := hcopies.reads
    rw [hheader] at hin
    exact hreads.mp hin
  · intro hfits
    obtain ⟨k', hq, hchunk, hroom, hcontent⟩ := realloc_moves hrep hk hone hn0 hn hrun
    refine ⟨?_, ?_, hcontent⟩
    · rw [hheader]
      exact hreads.mpr hfits
    · intro i hi
      have hle := copyLength_le (w.heap.list.size k.base) n
      rw [hchunk, hq]
      unfold payload Region.Contains Region.stop
      dsimp only
      omega

theorem Spec.run_cons {s s' : Spec} {e : Event} {es : List Event}
    (h : s.run (e :: es) = some s') : ∃ s₁, s.step e = .ok s₁ ∧ s₁.run es = some s' := by
  rw [Spec.run] at h
  split at h
  · cases hstep : s.step e with
    | error f =>
      rw [hstep] at h
      cases h
    | ok s₁ =>
      rw [hstep] at h
      exact ⟨s₁, rfl, h⟩
  · cases h

/-- A block of 100 bytes that is resized in the same run. -/
theorem resized_block (n : Nat) (hn : n + 8 < 2 ^ 64)
    (hspec : ((emptySpec false).run [.malloc 100 [65536], .realloc 65544 n []]).isSome = true) :
    ∃ w q h', Reachable (CalmIfReused false) false (fun _ => 0) w ∧
      (⟨65536, 108⟩ : Region) ∈ w.live ∧ w.heap.list.size 65536 = 108 ∧
      xrealloc [] w.heap 65544 n = .ok (q, h') := by
  obtain ⟨s₂, hs₂⟩ := Option.isSome_iff_exists.mp hspec
  obtain ⟨s₁, hmalloc, hrest⟩ := Spec.run_cons hs₂
  obtain ⟨s', hrealloc, -⟩ := Spec.run_cons hrest
  have hlive : ((emptySpec false).step (.malloc 100 [65536])).toOption.map (fun s => s.live) =
      some [⟨65536, 108⟩] := by decide +kernel
  rw [hmalloc] at hlive
  have hmem : (⟨65536, 108⟩ : Region) ∈ s₁.live := by
    have heq : s₁.live = [⟨65536, 108⟩] := Option.some.inj hlive
    rw [heq]
    exact List.mem_singleton_self _
  have hreuse : s₁.pages.reuse = false := spec_step_reuse hmalloc
  have hsim₁ := step_sim (rep_empty false fun _ => 0) (e := .malloc 100 [65536]) (by decide)
    (Or.inl rfl)
  change Agrees RepWorld _ ((emptySpec false).step _) at hsim₁
  rw [hmalloc] at hsim₁
  obtain ⟨w, hstep₁, hrep⟩ := agrees_ok hsim₁
  have hsim₂ := step_sim (e := .realloc 65544 n []) hrep
    ⟨hn, Or.inr ⟨⟨65536, 108⟩, hrep.live ▸ hmem, rfl⟩⟩ (Or.inl hreuse)
  rw [hrealloc] at hsim₂
  obtain ⟨w', hstep₂, -⟩ := agrees_ok hsim₂
  unfold step at hstep₂
  obtain ⟨⟨q, h'⟩, hrun, -⟩ := bind_eq_ok.mp hstep₂
  have hcalm : CalmIfReused false (emptyWorld false fun _ => 0) (.malloc 100 [65536]) :=
    fun h => absurd h (by decide)
  exact ⟨w, q, h', .step .empty (by decide) hcalm hstep₁, hrep.live ▸ hmem,
    hrep.heap.header _ hmem, hrun⟩

/-- A block of 100 bytes shrinks to 50. -/
theorem shrunk_block_copies :
    ∃ w q h', (⟨65536, 108⟩ : Region) ∈ w.live ∧ xrealloc [] w.heap 65544 50 = .ok (q, h') ∧
      (CopiesPayload w ⟨65536, 108⟩ 50 q h' ↔ 50 + 8 ≤ 108) := by
  obtain ⟨w, q, h', hw, hk, -, hrun⟩ := resized_block 50 (by decide) (by decide +kernel)
  exact ⟨w, q, h', hk, hrun, realloc_copies_payload_iff hw hk (by decide) (by decide) hrun⟩

/-- A block of 100 bytes that grows to 200 is read past its end. -/
theorem grown_block_overread :
    ¬ ∀ (reuse : Bool) (m : Memory) (w : World) (k : Region) (n : Nat) (answers : List Nat)
      (q : Nat) (h' : Heap), Reachable (fun _ _ => True) reuse m w → k ∈ w.live → 0 < n →
      n + 8 < 2 ^ 64 → xrealloc answers w.heap (k.base + 8) n = .ok (q, h') →
      CopiesPayload w k n q h' := by
  intro hclaim
  obtain ⟨w, q, h', hw, hk, hsize, hrun⟩ := resized_block 200 (by decide) (by decide +kernel)
  have hcopies := hclaim false (fun _ => 0) w ⟨65536, 108⟩ 200 [] q h'
    (hw.mono fun _ _ _ => trivial) hk (by decide) (by decide) hrun
  have hin := hcopies.reads
  rw [hsize] at hin
  exact absurd ((reads_iff (k := ⟨65536, 108⟩) (by decide) 200).mp hin) (by decide)

end Cs3650.Malloc.Hwx
