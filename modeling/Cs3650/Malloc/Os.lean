import Cs3650.Lib.Region

/-!
# The operating system under the allocators

`mmap(NULL, len, …)` lets the kernel choose the address. The address it chose
is an argument of the model; the call succeeds when the address is page
aligned, not null, and every page of the range is free, and the new pages
read as zero. `munmap` takes whole pages away again and refuses an address that
is not page aligned.

Two readings of "free" occur: a page that is not mapped now, or a page that was
never handed out. `reuse` selects the first.
-/

namespace Cs3650.Malloc

open Cs3650.Lib

/-- How an allocator call can end other than by returning. -/
inductive Fault
  | noMemory
  | segv
  | abort
  | diverges
  deriving DecidableEq, Repr

@[simp] theorem ok_bind {α β : Type} (x : α) (f : α → Except Fault β) :
    ((Except.ok x : Except Fault α) >>= f) = f x := rfl

@[simp] theorem error_bind {α β : Type} (e : Fault) (f : α → Except Fault β) :
    ((Except.error e : Except Fault α) >>= f) = .error e := rfl

theorem bind_eq_ok {α β : Type} {x : Except Fault α} {f : α → Except Fault β} {b : β} :
    (x >>= f) = .ok b ↔ ∃ a, x = .ok a ∧ f a = .ok b := by
  cases x with
  | error e => simp
  | ok a => simp

def pageSize : Nat := 4096

/-- The number of pages that `len` bytes touch, from a page boundary on. -/
def pageCount (len : Nat) : Nat := (len + 4095) / 4096

structure Pages where
  mapped : Nat → Bool
  used : Nat → Bool
  reuse : Bool
  unmaps : List Region

namespace Pages

def empty (reuse : Bool) : Pages where
  mapped := fun _ => false
  used := fun _ => false
  reuse := reuse
  unmaps := []

/-- The kernel will not return this page. -/
def taken (pg : Pages) (p : Nat) : Bool := pg.mapped p || (!pg.reuse && pg.used p)

/-- The kernel may answer a request for `len` bytes with `a`. -/
def Free (pg : Pages) (a len : Nat) : Prop :=
  0 < len ∧ a % pageSize = 0 ∧ 0 < a ∧ a + pageCount len * pageSize < 2 ^ 64 ∧
    ∀ i < pageCount len, pg.taken (a / pageSize + i) = false

instance (pg : Pages) (a len : Nat) : Decidable (pg.Free a len) :=
  inferInstanceAs (Decidable (_ ∧ _ ∧ _ ∧ _ ∧ _))

def inRange (a len p : Nat) : Bool := a / pageSize ≤ p && p < a / pageSize + pageCount len

def map (pg : Pages) (a len : Nat) : Pages :=
  { pg with
    mapped := fun p => inRange a len p || pg.mapped p
    used := fun p => inRange a len p || pg.used p }

/-- `munmap`; the call is recorded also when the kernel refuses it. -/
def munmap (pg : Pages) (a len : Nat) : Pages :=
  { pg with
    mapped := if a % pageSize = 0 ∧ 0 < len then fun p => !inRange a len p && pg.mapped p
      else pg.mapped
    unmaps := ⟨a, len⟩ :: pg.unmaps }

/-- Every byte of the region lies on a page the kernel will not return. -/
def Holds (pg : Pages) (r : Region) : Prop :=
  ∀ x, r.base ≤ x → x < r.stop → pg.taken (x / pageSize) = true

end Pages

/-- `mmap` answered with the address `a`. -/
def mmap (m : Memory) (pg : Pages) (a len : Nat) : Except Fault (Memory × Pages) :=
  if pg.Free a len then .ok (fill m a (pageCount len * pageSize) 0, pg.map a len)
  else .error .noMemory

namespace Pages

theorem taken_map (pg : Pages) (a len p : Nat) :
    (pg.map a len).taken p = (inRange a len p || pg.taken p) := by
  unfold taken map
  cases h : inRange a len p <;> simp [h]

theorem inRange_of_mem {a len x : Nat} (ha : a % pageSize = 0) (h1 : a ≤ x)
    (h2 : x < a + pageCount len * pageSize) : inRange a len (x / pageSize) = true := by
  unfold inRange pageSize at *
  simp only [Bool.and_eq_true, decide_eq_true_eq]
  omega

theorem mem_of_inRange {a len x : Nat} (ha : a % pageSize = 0)
    (h : inRange a len (x / pageSize) = true) : a ≤ x ∧ x < a + pageCount len * pageSize := by
  unfold inRange pageSize at *
  simp only [Bool.and_eq_true, decide_eq_true_eq] at h
  omega

theorem Holds.map {pg : Pages} {r : Region} (h : pg.Holds r) (a len : Nat) :
    (pg.map a len).Holds r := by
  intro x h1 h2
  rw [taken_map, h x h1 h2, Bool.or_true]

theorem Holds.within {pg : Pages} {r s : Region} (h : pg.Holds r) (hs : s.Within r) :
    pg.Holds s := by
  intro x h1 h2
  unfold Region.Within at hs
  exact h x (by omega) (by omega)

theorem Holds.join {pg : Pages} {r s : Region} (hr : pg.Holds r) (hs : pg.Holds s)
    (htouch : r.stop = s.base) : pg.Holds ⟨r.base, r.len + s.len⟩ := by
  intro x h1 h2
  by_cases hx : x < r.stop
  · exact hr x h1 hx
  · apply hs x (by omega)
    unfold Region.stop at *
    dsimp only at h2
    omega

/-- What the kernel has just mapped it will not return again. -/
theorem holds_map {pg : Pages} {a len : Nat} (ha : a % pageSize = 0) {r : Region}
    (hr : r.Within ⟨a, pageCount len * pageSize⟩) : (pg.map a len).Holds r := by
  intro x h1 h2
  obtain ⟨hbase, hstop⟩ := hr
  have hend : x < a + pageCount len * pageSize := Nat.lt_of_lt_of_le h2 hstop
  have hstart : a ≤ x := Nat.le_trans hbase h1
  rw [taken_map, inRange_of_mem ha hstart hend, Bool.true_or]

theorem Free.apart {pg : Pages} {a len : Nat} (hf : pg.Free a len) {r : Region}
    (hr : pg.Holds r) (hlen : 0 < r.len) : Region.Apart ⟨a, pageCount len * pageSize⟩ r := by
  obtain ⟨hpos, halign, -, -, hfree⟩ := hf
  by_contra hn
  unfold Region.Apart Region.stop at hn
  dsimp only at hn
  -- an address in both ranges: the larger of the two bases
  have hx : ∃ x, a ≤ x ∧ x < a + pageCount len * pageSize ∧ r.base ≤ x ∧ x < r.base + r.len := by
    rcases Nat.le_total a r.base with h | h
    · exact ⟨r.base, by omega⟩
    · refine ⟨a, ?_⟩
      unfold pageCount pageSize at *
      omega
  obtain ⟨x, h1, h2, h3, h4⟩ := hx
  have htaken := hr x h3 h4
  have hrange := inRange_of_mem halign h1 h2
  unfold inRange at hrange
  simp only [Bool.and_eq_true, decide_eq_true_eq] at hrange
  have hnot := hfree (x / pageSize - a / pageSize) (by omega)
  rw [show a / pageSize + (x / pageSize - a / pageSize) = x / pageSize by omega, htaken] at hnot
  exact Bool.noConfusion hnot

/-- When no page is returned twice, those that were used are taken. -/
theorem taken_eq_used {pg : Pages} (hreuse : pg.reuse = false)
    (hused : ∀ p, pg.mapped p = true → pg.used p = true) (p : Nat) : pg.taken p = pg.used p := by
  unfold taken
  cases hm : pg.mapped p with
  | true => simp [hused p hm]
  | false => simp [hreuse]

theorem taken_munmap_of_not_reuse {pg : Pages} (hreuse : pg.reuse = false)
    (hused : ∀ p, pg.mapped p = true → pg.used p = true) (a len p : Nat)
    (h : pg.taken p = true) : (pg.munmap a len).taken p = true := by
  unfold taken munmap at *
  simp only [hreuse, Bool.not_false, Bool.true_and, Bool.or_eq_true] at *
  rcases h with h | h
  · exact Or.inr (hused p h)
  · exact Or.inr h

theorem taken_munmap_outside {pg : Pages} {a len p : Nat} (hp : inRange a len p = false) :
    (pg.munmap a len).taken p = pg.taken p := by
  unfold taken munmap
  split <;> simp [hp]

end Pages

/-- Regions that lie apart, in the address space, on pages the kernel keeps. -/
structure Spread (pg : Pages) (L : List Region) : Prop where
  apart : L.Pairwise Region.Apart
  pos : ∀ r ∈ L, 0 < r.len ∧ 0 < r.base ∧ r.stop < 2 ^ 64
  holds : ∀ r ∈ L, pg.Holds r

namespace Spread

variable {pg : Pages} {L L' : List Region} {r : Region}

theorem perm (h : Spread pg L) (hp : L.Perm L') : Spread pg L' :=
  ⟨Region.apart_perm hp h.apart, fun r hr => h.pos r (hp.symm.subset hr),
    fun r hr => h.holds r (hp.symm.subset hr)⟩

theorem tail (h : Spread pg (r :: L)) : Spread pg L :=
  ⟨(List.pairwise_cons.mp h.apart).2, fun s hs => h.pos s (List.mem_cons_of_mem _ hs),
    fun s hs => h.holds s (List.mem_cons_of_mem _ hs)⟩

theorem split (h : Spread pg (r :: L)) {n : Nat} (hn : 0 < n) (hlt : n < r.len) :
    Spread pg (⟨r.base, n⟩ :: ⟨r.base + n, r.len - n⟩ :: L) := by
  obtain ⟨-, hbase, hstop⟩ := h.pos r List.mem_cons_self
  have hs : Region.Within ⟨r.base, n⟩ r := by
    unfold Region.Within Region.stop
    dsimp only
    omega
  have ht : Region.Within ⟨r.base + n, r.len - n⟩ r := by
    unfold Region.Within Region.stop
    dsimp only
    omega
  have hr := h.holds r List.mem_cons_self
  unfold Region.stop at hstop
  refine ⟨Region.apart_split h.apart hs ht (Or.inl (Nat.le_refl _)), ?_, ?_⟩
  · intro s hmem
    rcases List.mem_cons.mp hmem with rfl | hmem
    · unfold Region.stop
      dsimp only
      omega
    · rcases List.mem_cons.mp hmem with rfl | hmem
      · unfold Region.stop
        dsimp only
        omega
      · exact h.tail.pos s hmem
  · intro s hmem
    rcases List.mem_cons.mp hmem with rfl | hmem
    · exact hr.within hs
    · rcases List.mem_cons.mp hmem with rfl | hmem
      · exact hr.within ht
      · exact h.tail.holds s hmem

theorem map (h : Spread pg L) {a len : Nat} (hf : pg.Free a len) :
    Spread (pg.map a len) (⟨a, pageCount len * pageSize⟩ :: L) := by
  have hapart : ∀ r ∈ L, Region.Apart ⟨a, pageCount len * pageSize⟩ r := fun r hr =>
    hf.apart (h.holds r hr) (h.pos r hr).1
  obtain ⟨h1, h2, h3, h4, -⟩ := hf
  refine ⟨List.pairwise_cons.mpr ⟨hapart, h.apart⟩, ?_, ?_⟩
  · intro r hr
    rcases List.mem_cons.mp hr with rfl | hr
    · unfold Region.stop pageCount pageSize at *
      dsimp only
      omega
    · exact h.pos r hr
  · intro r hr
    rcases List.mem_cons.mp hr with rfl | hr
    · exact Pages.holds_map h2 ⟨Nat.le_refl _, Nat.le_refl _⟩
    · exact (h.holds r hr).map a len

theorem munmap {a len : Nat} (h : Spread pg (⟨a, pageCount len * pageSize⟩ :: L))
    (halign : a % pageSize = 0) : Spread (pg.munmap a len) L := by
  refine ⟨h.tail.apart, h.tail.pos, fun r hr x h1 h2 => ?_⟩
  have hapart := Region.apart_cons h.apart r hr
  have hout : Pages.inRange a len (x / pageSize) = false := by
    by_contra hin
    have hmem := Pages.mem_of_inRange halign (by simpa using hin)
    unfold Region.Apart Region.stop at *
    dsimp only at hapart
    omega
  rw [Pages.taken_munmap_outside hout]
  exact h.tail.holds r hr x h1 h2

end Spread

end Cs3650.Malloc
