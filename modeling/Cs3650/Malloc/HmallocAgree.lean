import Cs3650.Malloc.HmallocProof
import Cs3650.Malloc.HwxMapped

/-!
# The two coalescing allocators agree

`hmalloc.c` and `hwx_malloc.c` are run side by side on the same requests and
the same answers of the kernel, which returns no address twice. They differ in
what they unmap. In a calm run that is nothing a client or the free list can
see; in another `hwx_malloc.c` may unmap the list itself.
-/

namespace Cs3650.Malloc.Hmalloc

open Cs3650.Lib Cs3650.Lib.FirstFit
open Hwx (roundUp clamp withHeader lose Spec Agrees)

/-- The same event for `hwx_malloc.c`. -/
def Event.hwx : Event → Hwx.Event
  | .malloc n answers => .malloc n answers
  | .free p => .free p
  | .write p off b => .write p off b

/-- The worlds that both allocators reach with the same events, which all satisfy `C`. -/
inductive Together (C : Hwx.World → Hwx.Event → Prop) (m m' : Memory) : World → Hwx.World → Prop
  | empty : Together C m m' (emptyWorld false m) (Hwx.emptyWorld false m')
  | step {w w' : World} {x x' : Hwx.World} {e : Event} (h : Together C m m' w x)
      (ha : Hwx.Allowed x e.hwx) (hc : C x e.hwx) (hs : step w e = .ok w')
      (hs' : Hwx.step x e.hwx = .ok x') : Together C m m' w' x'

/-- A call on a machine that checks the list and the block before it. -/
def stepChecked (w : World) (e : Event) : Except Fault World := do
  let _ ← Hwx.readCells w.heap.hwx
  if ∀ k ∈ w.live, k.base + 8 = e.hwx.pointer → w.heap.pages.backs k.base k.len = true then step w e
  else .error .segv

/-- Both lists can be read; head, cells, sizes and links are the same. -/
structure SameLists (h : Heap) (x : Hwx.Heap) : Prop where
  head : h.list.head = x.list.head
  cells : ∃ cells, Hwx.readCells h.hwx = .ok cells ∧ Hwx.readCells x = .ok cells ∧
    ∀ c ∈ cells, h.list.size c.base = x.list.size c.base ∧
      h.list.next c.base = x.list.next c.base ∧ h.list.last c.base = x.list.last c.base

/-- Lists that differ in the pages mapped, not in the pages ever mapped. -/
structure Twins (s t : Spec) : Prop where
  free : s.free = t.free
  live : s.live = t.live
  used : s.pages.used = t.pages.used
  reuse : s.pages.reuse = false ∧ t.pages.reuse = false
  mapped : (∀ p, s.pages.mapped p = true → s.pages.used p = true) ∧
    ∀ p, t.pages.mapped p = true → t.pages.used p = true

namespace Twins

variable {s t : Spec}

theorem free_iff (h : Twins s t) (a len : Nat) : s.pages.Free a len ↔ t.pages.Free a len := by
  have htaken : ∀ p, s.pages.taken p = t.pages.taken p := fun p => by
    rw [Pages.taken_eq_used h.reuse.1 h.mapped.1, Pages.taken_eq_used h.reuse.2 h.mapped.2, h.used]
  unfold Pages.Free
  simp only [htaken]

theorem map (h : Twins s t) (a len : Nat) {free live : List Region} :
    Twins ⟨free, live, s.pages.map a len⟩ ⟨free, live, t.pages.map a len⟩ :=
  ⟨rfl, rfl, by unfold Pages.map; rw [h.used], h.reuse,
    Hwx.used_map h.mapped.1 a len, Hwx.used_map h.mapped.2 a len⟩

theorem mapLarge (h : Twins s t) (size : Nat) (answers : List Nat) :
    Agrees (fun r r' => r.1 = r'.1 ∧ Twins r.2 r'.2) (s.mapLarge size answers)
      (t.mapLarge size answers) := by
  cases answers with
  | nil => exact ⟨rfl, rfl⟩
  | cons addr rest =>
    rw [Spec.mapLarge, Spec.mapLarge, h.free, h.live]
    by_cases hf : s.pages.Free addr (roundUp size)
    · rw [if_pos hf, if_pos ((h.free_iff _ _).mp hf)]
      exact ⟨rfl, h.map _ _⟩
    · rw [if_neg hf, if_neg fun hf' => hf ((h.free_iff _ _).mpr hf')]
      exact ⟨rfl, rfl⟩

theorem addPage (h : Twins s t) (addr : Nat) : Agrees Twins (s.addPage addr) (t.addPage addr) := by
  unfold Spec.addPage
  rw [h.free, h.live]
  by_cases hf : s.pages.Free addr pageSize
  · rw [if_pos hf, if_pos ((h.free_iff _ _).mp hf)]
    exact h.map _ _
  · rw [if_neg hf, if_neg fun hf' => hf ((h.free_iff _ _).mpr hf')]
    exact ⟨rfl, rfl⟩

theorem malloc (h : Twins s t) (size : Nat) (answers : List Nat) :
    Agrees (fun r r' => r.1 = r'.1 ∧ Twins r.2 r'.2) (Spec.malloc size answers s)
      (Spec.malloc size answers t) := by
  induction answers generalizing s t with
  | nil =>
    rw [Spec.malloc, Spec.malloc, h.free]
    split
    · exact h.mapLarge _ _
    · cases carve sizeofFlCell size t.free with
      | none => exact ⟨rfl, rfl⟩
      | some kf => exact ⟨rfl, rfl, by rw [h.live], h.used, h.reuse, h.mapped⟩
  | cons addr rest ih =>
    rw [Spec.malloc, Spec.malloc, h.free]
    split
    · exact h.mapLarge _ _
    · cases carve sizeofFlCell size t.free with
      | some kf => exact ⟨rfl, rfl, by rw [h.live], h.used, h.reuse, h.mapped⟩
      | none => exact Hwx.agrees_bind (h.addPage addr) fun _ _ _ h' => ih h'

theorem giveBack (h : Twins s t) (k : Region) : Twins (freed s k) (t.free₁ k) := by
  unfold freed Spec.free₁
  split
  · exact ⟨h.free, by rw [h.live], h.used, h.reuse, used_munmap h.mapped.1 _ _,
      used_munmap h.mapped.2 _ _⟩
  · exact ⟨by rw [h.free], by rw [h.live], h.used, h.reuse, h.mapped⟩

end Twins

theorem agrees_error {α β : Type} {R : α → β → Prop} {x : Except Fault α} {e : Fault}
    (h : Agrees R x (.error e)) : x = .error .noMemory := by
  cases x with
  | ok a => exact absurd h id
  | error e' => rw [h.1]

structure Paired (w : World) (x : Hwx.World) (s t : Spec) : Prop where
  rep : RepWorld w s
  hwx : Hwx.RepWorld x t
  twins : Twins s t

/-- Everything that either of them uses is mapped. -/
structure Mapped (s t : Spec) : Prop where
  hmalloc : Hwx.Here s
  hwx : Hwx.Here t
  whole : ∀ k ∈ t.live, Hwx.WholePages k

theorem Paired.lists {w : World} {x : Hwx.World} {s t : Spec} (h : Paired w x s t)
    (hm : Mapped s t) : SameLists w.heap x.heap := by
  have hw : FreeList.Linked w.heap.list t.free := h.twins.free ▸ h.rep.heap.linked
  have hx : FreeList.Linked x.heap.list t.free := h.hwx.heap.linked
  refine ⟨hw.1.trans hx.1.symm, t.free, ?_, Hwx.readCells_spec h.hwx.heap hm.hwx, fun c hc => ?_⟩
  · rw [← h.twins.free]
    exact Hwx.readCells_spec h.rep.heap hm.hmalloc
  · obtain ⟨as, bs, hsplit⟩ := List.append_of_mem hc
    rw [hsplit] at hw hx
    obtain ⟨-, hcell, -⟩ := FreeList.linked_append.mp hw
    obtain ⟨-, hcell', -⟩ := FreeList.linked_append.mp hx
    exact ⟨hcell.size.trans hcell'.size.symm, hcell.next.trans hcell'.next.symm,
      hcell.last.trans hcell'.last.symm⟩

theorem stepChecked_eq {w : World} {s : Spec} (hw : RepWorld w s) (hs : Hwx.Here s) (e : Event) :
    stepChecked w e = step w e := by
  have hblock : ∀ k ∈ w.live, k.base + 8 = e.hwx.pointer →
      w.heap.pages.backs k.base k.len = true := by
    intro k hk _
    rw [show w.heap.pages = s.pages from hw.heap.pages]
    exact Pages.backs_of_holds (hs.holds k (List.mem_append_right _ (hw.live ▸ hk))) (Nat.le_refl _)
  rw [stepChecked, Hwx.readCells_spec hw.heap hs, ok_bind, if_pos hblock]

/-- What `hfree` tells the kernel to unmap is not page aligned. -/
theorem here_freed {s : Spec} (h : Hwx.Here s)
    (hused : ∀ p, s.pages.mapped p = true → s.pages.used p = true) {k : Region} (hk : k ∈ s.live)
    (hwhole : Hwx.WholePages k) : Hwx.Here (freed s k) := by
  have hperm := Hwx.lose_perm h.live_apart (fun r hr => (h.chunk_ok hr).pos) hk
  have hlay := h.perm hperm
  unfold freed
  by_cases hbig : pageSize ≤ k.len
  · rw [if_pos hbig]
    have hodd : (k.base + 8) % pageSize ≠ 0 := by
      have hbase := (hwhole hbig).1
      unfold pageSize at *
      omega
    exact layout_munmap hlay.tail hused (Or.inr hodd)
  · rw [if_neg hbig]
    exact hlay.release

/-- Both allocators answer a request with the same address, or both lack memory. -/
theorem Paired.answer {w : World} {x : Hwx.World} {s t : Spec} (h : Paired w x s t) (n : Nat)
    (answers : List Nat) :
    (∃ p h' y, hmalloc answers n w.heap = .ok (p, h') ∧ Hwx.xmalloc answers n x.heap = .ok (p, y)) ∨
      (hmalloc answers n w.heap = .error .noMemory ∧
        Hwx.xmalloc answers n x.heap = .error .noMemory) := by
  have hw := hmalloc_sim h.rep.heap answers n
  have hx : Agrees _ (Hwx.xmalloc answers n x.heap) _ :=
    Hwx.xmallocHelper_sim h.hwx.heap answers (withHeader n)
  have htwins := h.twins.malloc (clamp (withHeader n)) answers
  cases hs : Spec.malloc (clamp (withHeader n)) answers s with
  | error e =>
    rw [hs] at hw htwins
    cases ht : Spec.malloc (clamp (withHeader n)) answers t with
    | ok b =>
      rw [ht] at htwins
      exact absurd htwins id
    | error e' =>
      rw [ht] at hx
      exact Or.inr ⟨agrees_error hw, agrees_error hx⟩
  | ok a =>
    rw [hs] at hw htwins
    cases ht : Spec.malloc (clamp (withHeader n)) answers t with
    | error e' =>
      rw [ht] at htwins
      exact absurd htwins id
    | ok b =>
      rw [ht] at hx htwins
      obtain ⟨r, hrun, hptr, -⟩ := Hwx.agrees_ok hw
      obtain ⟨r', hrun', hptr', -⟩ := Hwx.agrees_ok hx
      have hsame : r'.1 = r.1 := by rw [hptr, hptr', htwins.1]
      exact Or.inl ⟨r.1, r.2, r'.2, hrun, hsame ▸ hrun'⟩

theorem Paired.freeBlock {w : World} {x : Hwx.World} {s t : Spec} (h : Paired w x s t)
    {k : Region} (hk : k ∈ w.live) :
    ∃ h' y, hfree w.heap (k.base + 8) = .ok h' ∧ Hwx.xfree x.heap (k.base + 8) = .ok y := by
  have hks : k ∈ s.live := h.rep.live ▸ hk
  obtain ⟨h', hrun, -⟩ := hfree_sim h.rep.heap hks (Or.inl h.twins.reuse.1)
  obtain ⟨y, hrun', -⟩ :=
    Hwx.xfreeHelper_sim h.hwx.heap (h.twins.live ▸ hks) (Or.inl h.twins.reuse.2)
  refine ⟨h', y, hrun, ?_⟩
  unfold Hwx.xfree
  rw [if_neg (Nat.succ_ne_zero _), hrun']

theorem paired_step {w w' : World} {x x' : Hwx.World} {s t : Spec} {e : Event}
    (h : Paired w x s t) (ha : Hwx.Allowed x e.hwx) (hs : step w e = .ok w')
    (hs' : Hwx.step x e.hwx = .ok x') :
    ∃ s' t', t.step e.hwx = .ok t' ∧ Paired w' x' s' t' ∧
      (Hwx.Calm x e.hwx → Mapped s t → Mapped s' t') := by
  obtain ⟨t', hspec', hrep'⟩ := Hwx.rep_step h.hwx ha (Or.inl h.twins.reuse.2) hs'
  have hmapped : Hwx.Calm x e.hwx → Mapped s t →
      Hwx.Here t' ∧ ∀ k ∈ t'.live, Hwx.WholePages k := fun hc hm =>
    ⟨Hwx.here_step h.hwx hm.hwx hm.whole hc hspec',
      (Hwx.spec_step_calm h.hwx hm.whole hc hspec').whole⟩
  cases e with
  | malloc n answers =>
    obtain ⟨k, s', hspec, -, hrep, -⟩ := malloc_step h.rep hs
    have htwins := h.twins.malloc (clamp (withHeader n)) answers
    rw [hspec] at htwins
    obtain ⟨r, hr, hok⟩ := bind_eq_ok.mp hspec'
    cases hok
    rw [hr] at htwins
    refine ⟨s', r.2, hspec', ⟨hrep, hrep', htwins.2⟩, fun hc hm => ?_⟩
    obtain ⟨hhere, hwhole⟩ := hmapped hc hm
    exact ⟨Hwx.here_malloc (Hwx.clamp_ge _) hm.hmalloc hspec, hhere, hwhole⟩
  | free p =>
    obtain ⟨k, hk, rfl⟩ := ha
    rw [h.hwx.live] at hk
    have hks : k ∈ s.live := h.twins.live ▸ hk
    obtain ⟨h', -, hstep, hrep, -⟩ := free_step h.rep hks (Or.inl h.twins.reuse.1)
    rw [hs] at hstep
    cases hstep
    have hfree : t.step (Event.hwx (.free (k.base + 8))) = .ok (t.free₁ k) := by
      rw [Event.hwx, Spec.step, Hwx.find_live h.hwx.heap.layout hk]
    obtain rfl : t' = t.free₁ k := Except.ok.inj (hspec'.symm.trans hfree)
    refine ⟨freed s k, t.free₁ k, hspec', ⟨hrep, hrep', h.twins.giveBack k⟩, fun hc hm => ?_⟩
    obtain ⟨hhere, hwhole⟩ := hmapped hc hm
    exact ⟨here_freed hm.hmalloc h.twins.mapped.1 hks (hm.whole k hk), hhere, hwhole⟩
  | write p off b =>
    obtain ⟨k, hk, rfl, hoff⟩ := ha
    rw [h.hwx.live, ← h.twins.live] at hk
    cases hs
    cases hspec'
    exact ⟨s, t, rfl, ⟨write_step h.rep hk hoff b, hrep', h.twins⟩, fun _ hm => hm⟩

theorem paired_empty (m m' : Memory) : Paired (emptyWorld false m) (Hwx.emptyWorld false m')
    (Hwx.emptySpec false) (Hwx.emptySpec false) := by
  refine ⟨rep_empty false m, Hwx.rep_empty false m', rfl, rfl, rfl, ⟨rfl, rfl⟩, ?_⟩
  exact ⟨fun p hp => absurd hp Bool.false_ne_true, fun p hp => absurd hp Bool.false_ne_true⟩

theorem paired_of_together {m m' : Memory} {w : World} {x : Hwx.World}
    (h : Together Hwx.Calm m m' w x) : ∃ s t, Paired w x s t ∧ Mapped s t := by
  induction h with
  | empty =>
    exact ⟨_, _, paired_empty m m', Hwx.here_empty false, Hwx.here_empty false,
      by simp [Hwx.emptySpec]⟩
  | step _ ha hc hs hs' ih =>
    obtain ⟨s, t, hpaired, hmapped⟩ := ih
    obtain ⟨s', t', -, hpaired', hmapped'⟩ := paired_step hpaired ha hs hs'
    exact ⟨s', t', hpaired', hmapped' hc hmapped⟩

/-- The same list and the same blocks, no call that dies of memory that is not
mapped, and the same answer to the next call. -/
structure Agree (w : World) (x : Hwx.World) : Prop where
  lists : SameLists w.heap x.heap
  live : w.live = x.live
  mapped : ∀ e : Event, Hwx.Allowed x e.hwx →
    stepChecked w e = step w e ∧ Hwx.stepChecked x e.hwx = Hwx.step x e.hwx
  malloc : ∀ n answers,
    (∃ p h' y, hmalloc answers n w.heap = .ok (p, h') ∧ Hwx.xmalloc answers n x.heap = .ok (p, y)) ∨
    (hmalloc answers n w.heap = .error .noMemory ∧ Hwx.xmalloc answers n x.heap = .error .noMemory)
  free : ∀ k ∈ w.live, ∃ h' y, hfree w.heap (k.base + 8) = .ok h' ∧
    Hwx.xfree x.heap (k.base + 8) = .ok y

/-- Side by side in a calm run, the two allocators agree. -/
theorem allocators_agree {m m' : Memory} {w : World} {x : Hwx.World}
    (h : Together Hwx.Calm m m' w x) : Agree w x := by
  obtain ⟨s, t, hpaired, hmapped⟩ := paired_of_together h
  refine ⟨hpaired.lists hmapped, ?_, fun e _ => ⟨?_, ?_⟩, hpaired.answer, fun k hk =>
    hpaired.freeBlock hk⟩
  · exact (hpaired.rep.live.trans hpaired.twins.live).trans hpaired.hwx.live.symm
  · exact stepChecked_eq hpaired.rep hmapped.hmalloc e
  · exact Hwx.stepChecked_eq hpaired.hwx hmapped.hwx e.hwx

/-- What the lists can do, both allocators can do. -/
theorem Paired.next {w : World} {x : Hwx.World} {s t t' : Spec} (h : Paired w x s t) {e : Event}
    (ha : Hwx.Allowed x e.hwx) (hspec : t.step e.hwx = .ok t') :
    ∃ w' x' s', step w e = .ok w' ∧ Hwx.step x e.hwx = .ok x' ∧ Paired w' x' s' t' := by
  have hsim := Hwx.step_sim h.hwx ha (Or.inl h.twins.reuse.2)
  rw [hspec] at hsim
  obtain ⟨x', hs', -⟩ := Hwx.agrees_ok hsim
  have hnext : ∃ w', step w e = .ok w' := by
    cases e with
    | malloc n answers =>
      obtain ⟨r, hrun, -⟩ := bind_eq_ok.mp hs'
      rcases h.answer n answers with ⟨p, h', y, hrun', -⟩ | ⟨-, hnone⟩
      · exact ⟨_, bind_eq_ok.mpr ⟨_, hrun', rfl⟩⟩
      · rw [hnone] at hrun
        cases hrun
    | free p =>
      obtain ⟨k, hk, rfl⟩ := ha
      rw [h.hwx.live, ← h.twins.live, ← h.rep.live] at hk
      obtain ⟨h', y, hrun, -⟩ := h.freeBlock hk
      exact ⟨_, bind_eq_ok.mpr ⟨_, hrun, rfl⟩⟩
    | write p off b => exact ⟨_, rfl⟩
  obtain ⟨w', hs⟩ := hnext
  obtain ⟨s', t'', hspec', hpaired, -⟩ := paired_step h ha hs hs'
  obtain rfl : t' = t'' := Except.ok.inj (hspec.symm.trans hspec')
  exact ⟨w', x', s', hs, hs', hpaired⟩

theorem together_of_run {C : Hwx.World → Hwx.Event → Prop} (ok : Spec → Hwx.Event → Bool)
    (hC : ∀ {x t e}, Hwx.RepWorld x t → ok t e = true → C x e) {m m' : Memory} {w : World}
    {x : Hwx.World} {s t t' : Spec} {es : List Event} (h : Together C m m' w x)
    (hp : Paired w x s t) (hrun : t.runIf ok (es.map Event.hwx) = some t') :
    ∃ w' x' s', Together C m m' w' x' ∧ Paired w' x' s' t' := by
  induction es generalizing w x s t with
  | nil =>
    obtain rfl : t = t' := Option.some.inj hrun
    exact ⟨w, x, s, h, hp⟩
  | cons e es ih =>
    rw [List.map_cons, Spec.runIf] at hrun
    split at hrun
    · next hok =>
      obtain ⟨t₁, hone, hrest⟩ := Option.bind_eq_some_iff.mp hrun
      rw [Spec.run] at hone
      split at hone
      · next hallowed =>
        have ha : Hwx.Allowed x e.hwx := Hwx.allowed_congr hp.hwx.live.symm hallowed
        cases hspec : t.step e.hwx with
        | error f =>
          rw [hspec] at hone
          cases hone
        | ok t₂ =>
          rw [hspec] at hone
          obtain rfl : t₂ = t₁ := Option.some.inj hone
          obtain ⟨w₁, x₁, s₁, hs, hs', hp₁⟩ := hp.next ha hspec
          exact ih (.step h ha (hC hp.hwx hok) hs hs') hp₁ hrest
      · cases hone
    · cases hrun

/-- A block of a page that is split, in both allocators. -/
theorem one_block_agrees :
    ∃ w x, Together Hwx.Calm (fun _ => 0) (fun _ => 1) w x ∧ w.live = [⟨65536, 100⟩] ∧
    Agree w x := by
  have hlists : ((Hwx.emptySpec false).runIf Spec.calm ([.malloc 92 [65536]].map Event.hwx)).map
      (fun s => s.live) = some [⟨65536, 100⟩] := by decide +kernel
  obtain ⟨t, ht, hlive⟩ := Option.map_eq_some_iff.mp hlists
  obtain ⟨w, x, s, htogether, hpaired⟩ :=
    together_of_run Spec.calm Hwx.calm_of_spec .empty (paired_empty (fun _ => 0) fun _ => 1) ht
  refine ⟨w, x, htogether, ?_, allocators_agree htogether⟩
  exact (hpaired.rep.live.trans hpaired.twins.live).trans hlive

/-- After a block of 4106 bytes has been freed, the free list of `hwx_malloc.c`
lies on a page that is not mapped any more; `hmalloc.c` has unmapped nothing. -/
theorem unmapped_list_disagrees : ¬ ∀ (m m' : Memory) (w : World) (x : Hwx.World),
    Together (fun _ _ => True) m m' w x → Agree w x := by
  intro hclaim
  have hlists : ((Hwx.emptySpec false).runIf (fun _ _ => true) ([.malloc 2992 [65536],
      .malloc 1098 [69632], .malloc 100 [], .free 65544, .free 68544, .malloc 4082 [],
      .free 65544].map Event.hwx)).map (fun s => (s.free, s.pages.backs 69750 24)) =
      some ([⟨69750, 3978⟩], false) := by decide +kernel
  obtain ⟨t, ht, heq⟩ := Option.map_eq_some_iff.mp hlists
  obtain ⟨w, x, s, htogether, hpaired⟩ := together_of_run _ (fun _ _ => trivial) .empty
    (paired_empty (fun _ => 0) fun _ => 0) ht
  obtain ⟨cells, -, hcells, -⟩ := (hclaim _ _ w x htogether).lists.cells
  rw [Hwx.readCells_unmapped hpaired.hwx.heap (congrArg Prod.fst heq) (congrArg Prod.snd heq)]
    at hcells
  cases hcells

end Cs3650.Malloc.Hmalloc
