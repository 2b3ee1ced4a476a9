import Cs3650.Malloc.OptProof

/-!
# Blocks of the bin allocator keep their contents

One lemma per kind of event; a trace keeps the invariant, and the invariant
says that every block still holds the last byte written at each offset.
-/

namespace Cs3650.Malloc.Opt

open Cs3650.Lib

variable {h : Heap} {bins : Nat → List Nat} {blocks : List Block} {b : Block}

theorem block_region_pos (hinv : Inv h bins blocks []) (hb : b ∈ blocks) :
    0 < b.region.len := by
  refine (hinv.spread.pos b.region ?_).1
  exact List.mem_append_right _ (List.mem_append_left _ (List.mem_map.mpr ⟨b, hb, rfl⟩))

theorem blocks_apart (hinv : Inv h bins blocks []) :
    blocks.Pairwise fun a b => a.region.Apart b.region := by
  have hmid := (List.pairwise_append.mp hinv.spread.apart).2.1
  exact List.pairwise_map.mp (List.pairwise_append.mp hmid).1

theorem without_perm (hinv : Inv h bins blocks []) (hb : b ∈ blocks) :
    blocks.Perm (b :: without b.ptr blocks) := by
  have hapart := blocks_apart hinv
  have hpos : ∀ c ∈ blocks, 0 < c.region.len := fun c hc => block_region_pos hinv hc
  clear hinv
  induction blocks with
  | nil => cases hb
  | cons x blocks ih =>
    obtain ⟨hx, hrest⟩ := List.pairwise_cons.mp hapart
    have hposr : ∀ c ∈ blocks, 0 < c.region.len := fun c hc => hpos c (List.mem_cons_of_mem _ hc)
    have hne : ∀ c ∈ blocks, x.ptr ≠ c.ptr := by
      intro c hc heq
      have h1 := hx c hc
      have h2 := hposr c hc
      have h3 := hpos x List.mem_cons_self
      unfold Block.ptr at heq
      unfold Region.Apart Region.stop Block.region at *
      dsimp only at *
      omega
    rcases List.mem_cons.mp hb with rfl | hb
    · have hsame : without b.ptr (b :: blocks) = blocks := by
        unfold without
        rw [List.filter_cons_of_neg (by simp), List.filter_eq_self]
        intro c hc
        simpa using (hne c hc).symm
      rw [hsame]
    · have hkeep : without b.ptr (x :: blocks) = x :: without b.ptr blocks := by
        unfold without
        rw [List.filter_cons_of_pos (by simpa using hne b hb)]
      rw [hkeep]
      exact ((ih hb hrest hposr).cons x).trans (List.Perm.swap b x _)

theorem find_block (hinv : Inv h bins blocks []) (hb : b ∈ blocks) :
    (blocks.find? fun c => c.ptr = b.ptr) = some b := by
  have hperm := without_perm hinv hb
  cases hfind : blocks.find? fun c => c.ptr = b.ptr with
  | none =>
    have hnone := List.find?_eq_none.mp hfind b hb
    simp at hnone
  | some c =>
    have hc := List.mem_of_find?_eq_some hfind
    have hptr := List.find?_some hfind
    rcases List.mem_cons.mp (hperm.subset hc) with rfl | hc
    · rfl
    · have hne := (List.mem_filter.mp hc).2
      simp only [ne_eq, decide_eq_true_eq] at hne hptr
      exact absurd hptr hne

/-! ## Writing -/

theorem write_spec (hinv : Inv h bins blocks []) (hb : b ∈ blocks) {off : Nat}
    (hoff : off < b.size) (v : Byte) :
    Inv (writeByte h b.ptr off v) bins
      (blocks.map fun c =>
        if c.ptr = b.ptr then { c with data := Function.update c.data off (some v) }
        else c) [] := by
  have hok := hinv.block b hb
  have hfits := hok.fits
  have hext := le_extent b.chunk
  have hperm := without_perm hinv hb
  have hapart := blocks_apart (hinv.perm_blocks hperm)
  set m' := patch h.mem ((b.ptr + off : Nat) : Int) 1 fun _ => v with hm'
  have hu : UnchangedOff [b.region] h.mem m' := by
    apply unchangedOff_patch
    · unfold Block.region Block.ptr
      dsimp only
      omega
    · unfold Block.region Block.ptr Region.stop
      dsimp only
      omega
  refine ⟨fun i hi => (hinv.chain i hi).frame hu ?_, ?_, ?_⟩
  · intro c hc r hr
    rw [List.mem_singleton.mp hr]
    have hcells := (List.pairwise_append.mp hinv.spread.apart).2.2
    refine (hcells _ (mem_cellsOf hi hc) _ ?_).symm
    exact List.mem_append_left _ (List.mem_map.mpr ⟨b, hb, rfl⟩)
  · have hregions : (blocks.map fun c =>
        if c.ptr = b.ptr then { c with data := Function.update c.data off (some v) } else c).map
          Block.region = blocks.map Block.region := by
      rw [List.map_map]
      apply List.map_congr_left
      intro c _
      simp only [Function.comp_apply]
      split <;> rfl
    rw [hregions]
    exact hinv.spread
  · intro c' hc'
    obtain ⟨c, hc, rfl⟩ := List.mem_map.mp hc'
    rcases List.mem_cons.mp (hperm.subset hc) with rfl | hwithout
    · rw [if_pos rfl]
      refine ⟨?_, hok.fits, hok.kind, fun off' hoff' v' hv' => ?_⟩
      · have hword : word m' c.base = word h.mem c.base := by
          have hbyte : UnchangedOff [⟨c.ptr + off, 1⟩] h.mem m' :=
            unchangedOff_patch _ _ (Nat.le_refl _) (Nat.le_refl _)
          refine hbyte.word (s := ⟨c.base, 8⟩) (fun r hr => ?_) (Nat.le_refl _) (Nat.le_refl _)
          rw [List.mem_singleton.mp hr]
          unfold Region.Apart Region.stop Block.ptr
          dsimp only
          omega
        exact hword.trans hok.header
      · dsimp only at hoff' hv'
        by_cases heq : off' = off
        · subst heq
          rw [Function.update_self] at hv'
          have hin := patch_inside h.mem ((c.ptr + off' : Nat) : Int) 1 (fun _ => v) (i := 0)
            (by omega)
          simp only [Nat.cast_zero, add_zero] at hin
          exact hin.trans (Option.some.inj hv')
        · rw [Function.update_of_ne heq] at hv'
          rw [← hok.data off' hoff' v' hv']
          show m' ((c.ptr + off' : Nat) : Int) = _
          exact patch_outside _ _ _ _ (by omega)
    · have hne := (List.mem_filter.mp hwithout).2
      simp only [ne_eq, decide_eq_true_eq] at hne
      rw [if_neg hne]
      apply (hinv.block c hc).frame hu
      intro r hr
      rw [List.mem_singleton.mp hr]
      exact (List.pairwise_cons.mp hapart).1 c hwithout

/-! ## Reallocating -/

theorem realloc_in_place (hinv : Inv h bins blocks []) (hb : b ∈ blocks) {n : Nat}
    (hn : n + 8 ≤ b.chunk) :
    Inv h bins (blockAt h b.ptr n (carried b n) :: without b.ptr blocks) [] := by
  have hinv' := hinv.perm_blocks (without_perm hinv hb)
  have hok := hinv'.block b List.mem_cons_self
  have hblock : blockAt h b.ptr n (carried b n) = ⟨b.base, n, b.chunk, carried b n⟩ := by
    unfold blockAt Block.ptr
    rw [Nat.add_sub_cancel, hok.header]
  rw [hblock]
  refine ⟨hinv'.chain, hinv'.spread, fun c hc => ?_⟩
  rcases List.mem_cons.mp hc with rfl | hc
  · refine ⟨hok.header, hn, hok.kind, fun off hoff v hv => ?_⟩
    unfold carried at hv
    dsimp only at hv hoff
    split at hv
    · exact hok.data off (by omega) v hv
    · cases hv
  · exact hinv'.block c (List.mem_cons_of_mem _ hc)

theorem realloc_move (hinv : Inv h bins blocks []) (hb : b ∈ blocks) {n base len : Nat}
    (hn : b.chunk < n + 8) (hfresh : Fresh h bins blocks base len (n + 8)) :
    ∃ h' bins',
    xfreeHelper { h with mem := copy h.mem ((base + 8 : Nat) : Int) b.ptr (b.chunk - 8) } b.ptr =
        .ok h' ∧
      Inv h' bins' (blockAt h' (base + 8) n (carried b n) :: without b.ptr blocks) [] ∧
      (blockAt h' (base + 8) n (carried b n)).chunk = len ∧ GivenBack b h h' bins bins' := by
  have hroom := hfresh.room
  have hext := le_extent len
  set m' := copy h.mem ((base + 8 : Nat) : Int) b.ptr (b.chunk - 8) with hm'
  have hu : UnchangedOff [⟨base + 8, len - 8⟩] h.mem m' := by
    rw [hm']
    unfold copy
    apply unchangedOff_patch _ _ (Nat.le_refl _)
    unfold Region.stop
    dsimp only
    omega
  have hinv₁ := hfresh.inv.scribble hu fun r hr => by
    rw [List.mem_singleton.mp hr]
    refine ⟨_, List.mem_cons_self, ?_⟩
    unfold Region.Within Region.stop
    dsimp only
    omega
  have hheader : word m' base = len := by
    rw [← hfresh.header]
    refine hu.word (s := ⟨base, 8⟩) (fun r hr => ?_) (Nat.le_refl _) (Nat.le_refl _)
    rw [List.mem_singleton.mp hr]
    exact Or.inr (Nat.le_refl _)
  have hfresh₁ : Fresh { h with mem := m' } bins blocks base len (n + 8) :=
    ⟨hinv₁, hheader, hfresh.kind, hfresh.room⟩
  have hok := hinv.block b hb
  have hdata : ∀ off < n, ∀ v, carried b n off = some v →
      m' ((base + 8 + off : Nat) : Int) = v := by
    intro off _ v hv
    unfold carried at hv
    split at hv
    · have hfits := hok.fits
      have hcopy :
          m' (((base + 8 : Nat) : Int) + (off : Int)) = h.mem ((b.ptr : Int) + (off : Int)) :=
        patch_inside _ _ _ _ (by omega)
      rw [← hok.data off (by omega) v hv]
      push_cast at hcopy ⊢
      exact hcopy
    · cases hv
  have hinv₂ := hfresh₁.block (Nat.le_refl _) hdata
  have hperm : (blockAt { h with mem := m' } (base + 8) n (carried b n) :: blocks).Perm
      (b :: blockAt { h with mem := m' } (base + 8) n (carried b n) :: without b.ptr blocks) :=
    ((without_perm hinv hb).cons _).trans (List.Perm.swap _ _ _)
  obtain ⟨h', bins', hrun, hinv₃, hback⟩ := xfreeHelper_spec (hinv₂.perm_blocks hperm)
  have hsame : blockAt h' (base + 8) n (carried b n) =
      blockAt { h with mem := m' } (base + 8) n (carried b n) := by
    have hheader' := (hinv₃.block _ List.mem_cons_self).header
    unfold blockAt at hheader' ⊢
    dsimp only at hheader' ⊢
    rw [hheader']
  exact ⟨h', bins', hrun, hsame ▸ hinv₃, hsame ▸ hheader, hback⟩

/-! ## Events -/

/-- The kernel may answer the call's request for memory with its address. -/
def Answered (w : World) : Event → Prop
  | .malloc n addr => w.heap.pages.Free addr (mapLen (n + 8))
  | .realloc _ n addr => w.heap.pages.Free addr (mapLen (n + 8))
  | _ => True

/-- The outcome of an event: the invariant holds again, or memory ran out. -/
def Outcome (w : World) (e : Event) : Prop :=
  (∃ w' bins, step w e = .ok w' ∧ Inv w'.heap bins w'.blocks []) ∨
    (step w e = .error .noMemory ∧ ¬ Answered w e)

theorem malloc_outcome {w : World} (hinv : Inv w.heap bins w.blocks []) {n : Nat} (addr : Nat)
    (hn : n + 8 < 2 ^ 64) : Outcome w (.malloc n addr) := by
  unfold Outcome step xmalloc Answered
  dsimp only
  rw [Nat.mod_eq_of_lt hn]
  rcases xmallocHelper_spec hinv addr hn with ⟨base, len, h', bins', hrun, hfresh, -⟩ | ⟨hrun, hf⟩
  · rw [hrun, ok_bind]
    exact Or.inl ⟨_, bins', rfl, hfresh.block (Nat.le_refl _) (by simp)⟩
  · rw [hrun, error_bind]
    exact Or.inr ⟨rfl, hf⟩

theorem free_outcome {w : World} (hinv : Inv w.heap bins w.blocks []) (hb : b ∈ w.blocks) :
    ∃ h' bins', xfreeHelper w.heap b.ptr = .ok h' ∧ Inv h' bins' (without b.ptr w.blocks) [] ∧
      GivenBack b w.heap h' bins bins' :=
  xfreeHelper_spec (hinv.perm_blocks (without_perm hinv hb))

theorem realloc_outcome {w : World} (hinv : Inv w.heap bins w.blocks []) (hb : b ∈ w.blocks)
    {n : Nat} (addr : Nat) (hn : n + 8 < 2 ^ 64) : Outcome w (.realloc b.ptr n addr) := by
  have hptr : b.ptr ≠ 0 := by
    unfold Block.ptr
    omega
  have hheader : word w.heap.mem (b.ptr - 8) = b.chunk := by
    unfold Block.ptr
    rw [Nat.add_sub_cancel]
    exact (hinv.block b hb).header
  unfold Outcome step xrealloc xreallocHelper Answered
  dsimp only
  rw [if_neg hptr, hheader, Nat.mod_eq_of_lt hn, find_block hinv hb]
  by_cases hn0 : n = 0
  · obtain ⟨h', bins', hrun, hinv', -⟩ := free_outcome hinv hb
    rw [if_pos hn0, hrun, ok_bind, ok_bind]
    exact Or.inl ⟨_, bins', if_pos hn0, hinv'⟩
  · rw [if_neg hn0]
    by_cases hfit : n + 8 ≤ b.chunk
    · rw [if_pos hfit, ok_bind]
      exact Or.inl ⟨_, bins, if_neg hn0, realloc_in_place hinv hb hfit⟩
    · rw [if_neg hfit]
      rcases xmallocHelper_spec hinv addr hn with
        ⟨base, len, h₁, bins₁, hrun, hfresh, -⟩ | ⟨hrun, hf⟩
      · have hinv₁ : Inv h₁ bins₁ w.blocks [] :=
          ⟨hfresh.inv.chain, hfresh.inv.spread_front.tail.perm (by simp), hfresh.inv.block⟩
        obtain ⟨h', bins', hfree, hinv', -, -⟩ :=
          realloc_move hinv₁ hb (Nat.lt_of_not_le hfit) hfresh
        rw [hrun, ok_bind]
        dsimp only
        rw [hfree, ok_bind, ok_bind]
        exact Or.inl ⟨_, bins', if_neg hn0, hinv'⟩
      · rw [hrun, error_bind, error_bind]
        exact Or.inr ⟨rfl, hf⟩

theorem step_realloc_null (w : World) (n addr : Nat) :
    step w (.realloc 0 n addr) = step w (.malloc n addr) := by
  have hnone : (w.blocks.find? fun b => b.ptr = 0) = none :=
    List.find?_eq_none.mpr fun b _ => by
      unfold Block.ptr
      simp
  unfold step xrealloc xreallocHelper xmalloc
  dsimp only
  rw [if_pos rfl, hnone]

theorem step_outcome {w : World} (hinv : Inv w.heap bins w.blocks []) {e : Event}
    (ha : Allowed w e) : Outcome w e := by
  cases e with
  | malloc n addr => exact malloc_outcome hinv addr ha
  | free p =>
    obtain ⟨b, hb, rfl⟩ := ha
    obtain ⟨h', bins', hrun, hinv', -⟩ := free_outcome hinv hb
    refine Or.inl ⟨⟨h', without b.ptr w.blocks⟩, bins', ?_, hinv'⟩
    unfold step xfree
    dsimp only
    rw [hrun, ok_bind]
  | realloc p n addr =>
    obtain ⟨hn, rfl | ⟨b, hb, rfl⟩⟩ := ha
    · have hmalloc := malloc_outcome hinv addr hn
      unfold Outcome at hmalloc ⊢
      rw [step_realloc_null]
      exact hmalloc
    · exact realloc_outcome hinv hb addr hn
  | write p off v =>
    obtain ⟨b, hb, rfl, hoff⟩ := ha
    exact Or.inl ⟨_, bins, rfl, write_spec hinv hb hoff v⟩

theorem inv_empty (m : Memory) :
    Inv (emptyWorld m).heap (fun _ => []) (emptyWorld m).blocks [] := by
  have hnil : cellsOf (fun _ => []) = [] := by simp [cellsOf]
  refine ⟨fun _ _ => rfl, ?_, by simp [emptyWorld]⟩
  rw [hnil]
  exact ⟨List.Pairwise.nil, by simp [emptyWorld], by simp [emptyWorld]⟩

theorem inv_of_reachable {m : Memory} {w : World} (hw : Reachable m w) :
    ∃ bins, Inv w.heap bins w.blocks [] := by
  induction hw with
  | empty => exact ⟨_, inv_empty m⟩
  | step _ ha hs ih =>
    obtain ⟨bins, hinv⟩ := ih
    rcases step_outcome hinv ha with ⟨w', bins', hrun, hinv'⟩ | ⟨hrun, -⟩
    · rw [hs] at hrun
      cases hrun
      exact ⟨bins', hinv'⟩
    · rw [hs] at hrun
      cases hrun

/-- After any trace every block reads back the last byte written at each of its
offsets, and the next call fails only if the kernel has no memory to give. -/
theorem blocks_keep_contents {m : Memory} {w : World} (hw : Reachable m w) :
    (∀ b ∈ w.blocks, ∀ off < b.size, ∀ v, b.data off = some v →
        readByte w.heap b.ptr off = v) ∧
      ∀ e, Allowed w e →
        (∃ w', step w e = .ok w') ∨ (step w e = .error .noMemory ∧ ¬ Answered w e) := by
  obtain ⟨bins, hinv⟩ := inv_of_reachable hw
  refine ⟨fun b hb off hoff v hv => (hinv.block b hb).data off hoff v hv, fun e ha => ?_⟩
  exact (step_outcome hinv ha).imp (fun ⟨w', _, hrun, _⟩ => ⟨w', hrun⟩) id

/-- A block of ten bytes with a byte written at offset three. -/
theorem written_byte_kept :
    ∃ w, ∃ b ∈ w.blocks, Reachable (fun _ => 0) w ∧ b.size = 10 ∧ b.data 3 = some 7 ∧
      readByte w.heap b.ptr 3 = 7 := by
  have ha₁ : Allowed (emptyWorld fun _ => 0) (.malloc 10 1048576) := by
    show 10 + 8 < 2 ^ 64
    omega
  have hans : Answered (emptyWorld fun _ => 0) (.malloc 10 1048576) := by
    show (Pages.empty true).Free 1048576 (mapLen 18)
    decide +kernel
  have hr₀ : Reachable (fun _ => 0) (emptyWorld fun _ => 0) := .empty
  obtain ⟨w₁, hs₁⟩ : ∃ w₁, step (emptyWorld fun _ => 0) (.malloc 10 1048576) = .ok w₁ :=
    ((blocks_keep_contents hr₀).2 _ ha₁).resolve_right fun h => h.2 hans
  obtain ⟨h, p, hw₁⟩ : ∃ h p, w₁ = ⟨h, [blockAt h p 10 fun _ => none]⟩ := by
    unfold step at hs₁
    dsimp only at hs₁
    cases hx : xmalloc 1048576 10 (emptyWorld fun _ => 0).heap with
    | error e =>
      rw [hx] at hs₁
      cases hs₁
    | ok r =>
      rw [hx] at hs₁
      cases hs₁
      exact ⟨r.2, r.1, rfl⟩
  have hr₁ : Reachable (fun _ => 0) w₁ := .step hr₀ ha₁ hs₁
  set b := blockAt h p 10 fun _ => none with hb
  have hoff : 3 < b.size := show 3 < 10 by omega
  have ha₂ : Allowed w₁ (.write b.ptr 3 7) := ⟨b, by rw [hw₁]; simp, rfl, hoff⟩
  have hr₂ := Reachable.step hr₁ ha₂ rfl
  have hmem : ({ b with data := Function.update b.data 3 (some 7) } : Block) ∈
      w₁.blocks.map fun c =>
        if c.ptr = b.ptr then { c with data := Function.update c.data 3 (some 7) } else c := by
    rw [hw₁]
    simp
  refine ⟨_, _, hmem, hr₂, rfl, by simp, ?_⟩
  exact (blocks_keep_contents hr₂).1 _ hmem 3 hoff 7 (by simp)

end Cs3650.Malloc.Opt
