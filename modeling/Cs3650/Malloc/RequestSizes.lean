import Cs3650.Malloc.HmallocStats
import Cs3650.Malloc.HwxRealloc
import Cs3650.Malloc.OptTrace

/-!
# Requests near the end of the address space

All three allocators add the eight bytes of the header to the request as a
`size_t`. When that wraps, the sum is below the smallest chunk, and the request
is served like one of no bytes. The page rounding can wrap as well, but only to
a length of zero, which `mmap` refuses.
-/

namespace Cs3650.Malloc

open Cs3650.Lib

/-- The chunk has `n` bytes behind its header. -/
def Roomy (k : Region) (n : Nat) : Prop := 8 + n ≤ k.len

theorem roomy_iff {k : Region} {n : Nat} (hroom : (n + 8) % 2 ^ 64 ≤ k.len) (hlt : k.len < 2 ^ 64) :
    Roomy k n ↔ n + 8 < 2 ^ 64 := by
  unfold Roomy
  constructor
  · intro h
    omega
  · intro h
    rw [Nat.mod_eq_of_lt h] at hroom
    omega

namespace Opt

/-- The chunk of a block, with the size that its header records. -/
def chunkAt (h : Heap) (p : Nat) : Region := ⟨p - 8, word h.mem (p - 8)⟩

theorem xmalloc_roomy_iff {h : Heap} {bins : Nat → List Nat} {blocks : List Block}
    (hinv : Inv h bins blocks []) {addr n p : Nat} {h' : Heap}
    (hrun : xmalloc addr n h = .ok (p, h')) : Roomy (chunkAt h' p) n ↔ n + 8 < 2 ^ 64 := by
  unfold xmalloc at hrun
  rcases xmallocHelper_spec hinv addr (Nat.mod_lt (n + 8) (Nat.two_pow_pos 64)) with
    ⟨base, len, h₁, bins', hserved, hfresh, -⟩ | ⟨hfail, -⟩
  · rw [hserved] at hrun
    cases hrun
    have hchunk : chunkAt h' (base + 8) = ⟨base, len⟩ := by
      unfold chunkAt
      rw [Nat.add_sub_cancel, hfresh.header]
    have hstop := (hfresh.inv.extra_spread.pos _ List.mem_cons_self).2.2
    have hext := le_extent len
    rw [hchunk]
    refine roomy_iff hfresh.room ?_
    unfold Region.stop at hstop
    dsimp only at hstop ⊢
    omega
  · rw [hfail] at hrun
    cases hrun

/-- A sum below the smallest chunk is as good as the sum for no bytes. -/
theorem xmalloc_wrapped {n : Nat} (hn : n < 2 ^ 64) (hwrap : 2 ^ 64 ≤ n + 8) (addr : Nat)
    (h : Heap) : xmalloc addr n h = xmalloc addr 0 h := by
  have hsmall : (n + 8) % 2 ^ 64 < sizeofFlCell := by
    unfold sizeofFlCell
    omega
  have hzero : (0 + 8) % 2 ^ 64 < sizeofFlCell := by decide
  unfold xmalloc xmallocHelper
  rw [if_pos hsmall, if_pos hzero]

/-- So requests that wrap lead to no other heaps. -/
theorem heap_reachable_wrapped {m : Memory} {w w' : World} (hw : Reachable m w) {n addr : Nat}
    (hn : n < 2 ^ 64) (hwrap : 2 ^ 64 ≤ n + 8) (hs : step w (.malloc n addr) = .ok w') :
    ∃ w₀, Reachable m w₀ ∧ w₀.heap = w'.heap := by
  unfold step at hs
  dsimp only at hs
  rw [xmalloc_wrapped hn hwrap] at hs
  obtain ⟨r, hrun, heq⟩ := bind_eq_ok.mp hs
  cases heq
  have hstep : step w (.malloc 0 addr) =
      .ok ⟨r.2, blockAt r.2 r.1 0 (fun _ => none) :: w.blocks⟩ := by
    unfold step
    dsimp only
    rw [hrun, ok_bind]
  have ha : Allowed w (.malloc 0 addr) := by
    show 0 + 8 < 2 ^ 64
    omega
  exact ⟨_, .step hw ha hstep, rfl⟩

theorem first_served (n addr : Nat) (m : Memory)
    (hf : (Pages.empty true).Free addr (mapLen ((n + 8) % 2 ^ 64))) :
    ∃ p h', xmalloc addr n (emptyWorld m).heap = .ok (p, h') := by
  rcases xmallocHelper_spec (inv_empty m) addr (Nat.mod_lt (n + 8) (Nat.two_pow_pos 64)) with
    ⟨base, len, h', -, hserved, -⟩ | ⟨-, hbusy⟩
  · exact ⟨_, _, hserved⟩
  · exact absurd hf hbusy

end Opt

namespace Hwx

theorem malloc_roomy_iff {s s' : Spec} {n : Nat} {answers : List Nat} {k : Region}
    (hlay : Layout s'.pages s'.free s'.live)
    (h : Spec.malloc (clamp (withHeader n)) answers s = .ok (k, s')) :
    Roomy k n ↔ n + 8 < 2 ^ 64 := by
  have hsum : withHeader n < 2 ^ 64 := Nat.mod_lt _ (Nat.two_pow_pos 64)
  have hlen := malloc_len (clamp_lt hsum) h
  have hle := le_clamp (withHeader n)
  have hk : k ∈ s'.live := (malloc_live h).1 ▸ List.mem_cons_self
  have hstop := (hlay.chunk_ok hk).2.2
  refine roomy_iff (Nat.le_trans hle hlen) ?_
  unfold Region.stop at hstop
  omega

theorem xmalloc_roomy_iff {h : Heap} {s : Spec} (hr : Rep h s) {answers : List Nat} {n q : Nat}
    {h' : Heap} (hrun : xmalloc answers n h = .ok (q, h')) :
    Roomy (chunkAt h' q) n ↔ n + 8 < 2 ^ 64 := by
  obtain ⟨k, s', hspec, rfl, hrep⟩ := xmalloc_lists hr hrun
  have hk : k ∈ s'.live := (malloc_live hspec).1 ▸ List.mem_cons_self
  rw [chunkAt_header hrep hk]
  exact malloc_roomy_iff hrep.layout hspec

theorem xmalloc_wrapped {n : Nat} (hn : n < 2 ^ 64) (hwrap : 2 ^ 64 ≤ n + 8) (answers : List Nat)
    (h : Heap) : xmalloc answers n h = xmalloc answers 0 h := by
  have hsmall : withHeader n < sizeofFlCell := by
    unfold withHeader sizeofFlCell
    omega
  have hclamp : clamp (withHeader n) = clamp (withHeader 0) := if_pos hsmall
  unfold xmalloc
  rw [xmallocHelper.eq_def, xmallocHelper.eq_def, hclamp]

theorem reachable_wrapped {C : World → Event → Prop} {reuse : Bool} {m : Memory} {w w' : World}
    (hw : Reachable C reuse m w) {n : Nat} {answers : List Nat} (hn : n < 2 ^ 64)
    (hwrap : 2 ^ 64 ≤ n + 8) (hc : C w (.malloc 0 answers))
    (hs : step w (.malloc n answers) = .ok w') : Reachable C reuse m w' := by
  have hsame : step w (.malloc n answers) = step w (.malloc 0 answers) := by
    unfold step
    dsimp only
    rw [xmalloc_wrapped hn hwrap]
  have ha : Allowed w (.malloc 0 answers) := by
    show 0 + 8 < 2 ^ 64
    omega
  exact .step hw ha hc (hsame.symm.trans hs)

theorem first_served (n addr : Nat) (m : Memory) (hf : (Pages.empty false).Free addr (mapLen n)) :
    ∃ q h', xmalloc [addr] n (emptyWorld false m).heap = .ok (q, h') := by
  obtain ⟨t, ht⟩ := @malloc_served _ _ [] (emptySpec false) hf
  have hsim := xmallocHelper_sim (rep_empty false m).heap [addr] (withHeader n)
  change Agrees _ _ (Spec.malloc _ _ (emptySpec false)) at hsim
  rw [ht] at hsim
  obtain ⟨r, hrun, -⟩ := agrees_ok hsim
  exact ⟨r.1, r.2, hrun⟩

end Hwx

namespace Hmalloc

theorem hmalloc_roomy_iff {h : Heap} {s : Hwx.Spec} (hr : Hwx.Rep h.hwx s) {answers : List Nat}
    {n q : Nat} {h' : Heap} (hrun : hmalloc answers n h = .ok (q, h')) :
    Roomy (chunkAt h' q) n ↔ n + 8 < 2 ^ 64 := by
  obtain ⟨k, s', hspec, rfl, hrep⟩ := hmalloc_lists hr hrun
  have hk : k ∈ s'.live := (Hwx.malloc_live hspec).1 ▸ List.mem_cons_self
  have hchunk : chunkAt h' (k.base + 8) = k := Hwx.chunkAt_header hrep hk
  rw [hchunk]
  exact Hwx.malloc_roomy_iff hrep.layout hspec

theorem first_served (n addr : Nat) (m : Memory)
    (hf : (Pages.empty false).Free addr (Hwx.mapLen n)) :
    ∃ q h', hmalloc [addr] n (emptyWorld false m).heap = .ok (q, h') := by
  obtain ⟨t, ht⟩ := @Hwx.malloc_served _ _ [] (Hwx.emptySpec false) hf
  have hsim := hmalloc_sim (rep_empty false m).heap [addr] n
  change Hwx.Agrees _ _ (Hwx.Spec.malloc _ _ (Hwx.emptySpec false)) at hsim
  rw [ht] at hsim
  obtain ⟨r, hrun, -⟩ := Hwx.agrees_ok hsim
  exact ⟨r.1, r.2, hrun⟩

end Hmalloc

/-- In every reachable heap of the three allocators the chunk handed out has
room for the request if and only if adding the header does not wrap. -/
theorem request_sizes_iff (n : Nat) :
    (∀ (m : Memory) (w : Opt.World) (addr p : Nat) (h' : Opt.Heap), Opt.Reachable m w →
      Opt.xmalloc addr n w.heap = .ok (p, h') →
      (Roomy (Opt.chunkAt h' p) n ↔ n + 8 < 2 ^ 64)) ∧
    (∀ (reuse : Bool) (m : Memory) (w : Hwx.World) (answers : List Nat) (q : Nat) (h' : Hwx.Heap),
      Hwx.Reachable (Hwx.CalmIfReused reuse) reuse m w →
      Hwx.xmalloc answers n w.heap = .ok (q, h') →
      (Roomy (Hwx.chunkAt h' q) n ↔ n + 8 < 2 ^ 64)) ∧
    (∀ (reuse : Bool) (m : Memory) (past : List (Hmalloc.World × Hmalloc.Event))
      (w : Hmalloc.World) (answers : List Nat) (q : Nat) (h' : Hmalloc.Heap),
      Hmalloc.Run reuse m past w → (reuse = true → ∀ x ∈ past, Hmalloc.FreesWhole x.1 x.2) →
      Hmalloc.hmalloc answers n w.heap = .ok (q, h') →
      (Roomy (Hmalloc.chunkAt h' q) n ↔ n + 8 < 2 ^ 64)) := by
  refine ⟨?_, ?_, ?_⟩
  · intro m w addr p h' hw hrun
    obtain ⟨bins, hinv⟩ := Opt.inv_of_reachable hw
    exact Opt.xmalloc_roomy_iff hinv hrun
  · intro reuse m w answers q h' hw hrun
    obtain ⟨s, hrep, -⟩ := Hwx.rep_of_calmIfReused hw
    exact Hwx.xmalloc_roomy_iff hrep.heap hrun
  · intro reuse m past w answers q h' hw hwhole hrun
    have hcase : reuse = false ∨ ∀ x ∈ past, Hmalloc.FreesWhole x.1 x.2 := by
      cases reuse with
      | false => exact Or.inl rfl
      | true => exact Or.inr (hwhole rfl)
    obtain ⟨s, haccount, -⟩ := Hmalloc.account_of_run hw hcase
    exact Hmalloc.hmalloc_roomy_iff haccount.rep.heap hrun

/-- Ten bytes from each of the three empty heaps. -/
theorem ten_bytes_roomy :
    (∃ p h', Opt.xmalloc 1048576 10 (Opt.emptyWorld fun _ => 0).heap = .ok (p, h') ∧
        Roomy (Opt.chunkAt h' p) 10) ∧
      (∃ q h', Hwx.xmalloc [65536] 10 (Hwx.emptyWorld false fun _ => 0).heap = .ok (q, h') ∧
        Roomy (Hwx.chunkAt h' q) 10) ∧
      ∃ q h', Hmalloc.hmalloc [65536] 10 (Hmalloc.emptyWorld false fun _ => 0).heap = .ok (q, h') ∧
        Roomy (Hmalloc.chunkAt h' q) 10 := by
  obtain ⟨p, h₁, hrun₁⟩ := Opt.first_served 10 1048576 (fun _ => 0)
    (by decide +kernel)
  obtain ⟨q, h₂, hrun₂⟩ := Hwx.first_served 10 65536 (fun _ => 0) (by decide)
  obtain ⟨r, h₃, hrun₃⟩ := Hmalloc.first_served 10 65536 (fun _ => 0) (by decide)
  obtain ⟨hopt, hhwx, hhm⟩ := request_sizes_iff 10
  exact ⟨⟨p, h₁, hrun₁, (hopt _ _ _ _ _ .empty hrun₁).mpr (by decide)⟩,
    ⟨q, h₂, hrun₂, (hhwx _ _ _ _ _ _ .empty hrun₂).mpr (by decide)⟩,
    ⟨r, h₃, hrun₃, (hhm _ _ _ _ _ _ _ .empty (by simp) hrun₃).mpr (by decide)⟩⟩

/-- A request for all but one of the bytes that a `size_t` can count gets a
small chunk from each of the three. -/
theorem largest_request_wraps :
    (¬ ∀ (n : Nat), n < 2 ^ 64 → ∀ (m : Memory) (w : Opt.World) (addr p : Nat) (h' : Opt.Heap),
        Opt.Reachable m w → Opt.xmalloc addr n w.heap = .ok (p, h') →
        Roomy (Opt.chunkAt h' p) n) ∧
      (¬ ∀ (n : Nat), n < 2 ^ 64 → ∀ (m : Memory) (w : Hwx.World) (answers : List Nat) (q : Nat)
        (h' : Hwx.Heap), Hwx.Reachable (fun _ _ => True) false m w →
        Hwx.xmalloc answers n w.heap = .ok (q, h') → Roomy (Hwx.chunkAt h' q) n) ∧
      ¬ ∀ (n : Nat), n < 2 ^ 64 → ∀ (m : Memory) (past : List (Hmalloc.World × Hmalloc.Event))
        (w : Hmalloc.World) (answers : List Nat) (q : Nat) (h' : Hmalloc.Heap),
        Hmalloc.Run false m past w → Hmalloc.hmalloc answers n w.heap = .ok (q, h') →
        Roomy (Hmalloc.chunkAt h' q) n := by
  have hwrap : ¬ 2 ^ 64 - 1 + 8 < 2 ^ 64 := by decide
  refine ⟨fun hclaim => hwrap ?_, fun hclaim => hwrap ?_, fun hclaim => hwrap ?_⟩
  · obtain ⟨p, h', hrun⟩ := Opt.first_served (2 ^ 64 - 1) 1048576 (fun _ => 0)
      (by decide +kernel)
    exact (Opt.xmalloc_roomy_iff (Opt.inv_empty _) hrun).mp
      (hclaim _ (by decide) _ _ _ _ _ .empty hrun)
  · obtain ⟨q, h', hrun⟩ := Hwx.first_served (2 ^ 64 - 1) 65536 (fun _ => 0)
      (by decide)
    exact (Hwx.xmalloc_roomy_iff (Hwx.rep_empty _ _).heap hrun).mp
      (hclaim _ (by decide) _ _ _ _ _ .empty hrun)
  · obtain ⟨q, h', hrun⟩ := Hmalloc.first_served (2 ^ 64 - 1) 65536 (fun _ => 0)
      (by decide)
    exact (Hmalloc.hmalloc_roomy_iff (Hmalloc.rep_empty _ _).heap hrun).mp
      (hclaim _ (by decide) _ _ _ _ _ _ .empty hrun)

end Cs3650.Malloc
