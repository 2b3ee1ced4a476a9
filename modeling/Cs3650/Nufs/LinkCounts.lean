import Cs3650.Lib.RefCount
import Cs3650.Nufs.Slots
import Mathlib.Data.Finset.Prod
import Mathlib.Data.Finset.Range

/-!
# Link counts

A run allocates inodes, and links and unlinks them in a set of directories. The
count in each of its inodes is the number of entries that hold it, and the
inode goes back with the last of them.
-/

namespace Cs3650.Nufs

open Cs3650.Lib

inductive LinkOp
  | alloc
  | put (dir : Nat) (name : Str) (inum : Nat)
  | delete (dir : Nat) (name : Str)
  deriving DecidableEq, Repr

/-- The image, and the inodes that the run allocated and that are not free since. -/
structure Links where
  image : Image
  held : List Nat

def LinkOp.step (s : Links) : LinkOp → Links
  | .alloc =>
    let (m, inum) := allocInode s.image
    ⟨m, if inum < 0 then s.held else inum.toNat :: s.held⟩
  | .put dir name inum => ⟨(directoryPut s.image (getInode dir) name inum).1, s.held⟩
  | .delete dir name =>
    let m := (directoryDelete s.image (getInode dir) name).1
    ⟨m, s.held.filter fun i => bit m getInodeBitmap i⟩

def runLinkOps (s : Links) (ops : List LinkOp) : Links := ops.foldl LinkOp.step s

def LinkOp.Allowed (dirs : Finset Nat) (s : Links) : LinkOp → Prop
  | .alloc => True
  | .put dir name inum => dir ∈ dirs ∧ EntryName name ∧ inum ∈ s.held
  | .delete dir name => dir ∈ dirs ∧ EntryName name

def AllAllowed (dirs : Finset Nat) : Links → List LinkOp → Prop
  | _, [] => True
  | s, op :: ops => op.Allowed dirs s ∧ AllAllowed dirs (op.step s) ops

/-- Each directory has a page of its own. -/
structure DirPages (m : Image) (dirs : Finset Nat) : Prop where
  allocated : ∀ d ∈ dirs, d < 256 ∧ Allocated m d
  page : ∀ d ∈ dirs, ∃ p : Nat, ptr m d 0 = p ∧ 2 ≤ p ∧ p < 256
  distinct : ∀ d ∈ dirs, ∀ e ∈ dirs, ptr m d 0 = ptr m e 0 → d = e

/-- The entries of all directories. -/
def slots (dirs : Finset Nat) : Finset (Nat × Nat) := dirs ×ˢ Finset.range 64

def slotIn (m : Image) (s : Nat × Nat) : Option Int := slotAt m (direntBase m (getInode s.1)) s.2

/-- The used entries that hold inode `i`. -/
def linksTo (m : Image) (dirs : Finset Nat) (i : Int) : Finset (Nat × Nat) :=
  holders (slots dirs) (slotIn m) i

/-- What the run keeps true. -/
structure Counted (dirs : Finset Nat) (s : Links) : Prop where
  pages : DirPages s.image dirs
  held : ∀ i ∈ s.held, i < 256 ∧ i ∉ dirs ∧ Allocated s.image i ∧ ∀ j < 3, ptr s.image i j = 0
  counted : RefCounted (slots dirs) {i : Int | ∃ n ∈ s.held, i = n} (slotIn s.image) (refs s.image)

theorem mem_slots {dirs : Finset Nat} {d k : Nat} : (d, k) ∈ slots dirs ↔ d ∈ dirs ∧ k < 64 := by
  simp [slots]

theorem slotIn_eq {m : Image} {d p : Nat} (h : ptr m d 0 = p) (k : Nat) :
    slotIn m (d, k) = slotAt m (pagesGetPage p) k := by
  unfold slotIn
  rw [direntBase_eq, h]

theorem DirPages.congr {m m' : Image} {dirs : Finset Nat} (h : DirPages m dirs)
    (hptr : ∀ d ∈ dirs, ptr m' d 0 = ptr m d 0) (hal : ∀ d ∈ dirs, Allocated m d → Allocated m' d) :
    DirPages m' dirs := by
  constructor
  · intro d hd
    obtain ⟨hlt, hd'⟩ := h.allocated d hd
    exact ⟨hlt, hal d hd hd'⟩
  · intro d hd
    rw [hptr d hd]
    exact h.page d hd
  · intro d hd e he
    rw [hptr d hd, hptr e he]
    exact h.distinct d hd e he

namespace Counted

variable {dirs : Finset Nat} {s : Links}

theorem refs_range (h : Counted dirs s) {i : Nat} (hi : i ∈ s.held) :
    0 ≤ refs s.image i ∧ refs s.image i ≤ 16384 := by
  have hbounds := h.counted.bounds (i := (i : Int)) ⟨i, hi, rfl⟩
  have hdirs : dirs.card ≤ 256 := by
    have hsub : dirs ⊆ Finset.range 256 := fun d hd => by
      simpa using (h.pages.allocated d hd).1
    simpa using Finset.card_le_card hsub
  have hcard : (slots dirs).card = dirs.card * 64 := by simp [slots]
  omega

/-! ## One step -/

theorem alloc (h : Counted dirs s) : Counted dirs (LinkOp.alloc.step s) ∧
    ∀ x < 256, Allocated s.image x → Allocated (LinkOp.alloc.step s).image x := by
  rcases allocInode_cases s.image with ⟨hnone, -⟩ | ⟨m', i, hi, hclear, -, halloc, hnew⟩
  · have hstep : LinkOp.alloc.step s = s := by
      unfold LinkOp.step
      rw [hnone]
      rfl
    rw [hstep]
    exact ⟨h, fun x _ hx => hx⟩
  have hstep : LinkOp.alloc.step s = ⟨m', i :: s.held⟩ := by
    unfold LinkOp.step
    rw [halloc]
    have hnonneg : ¬ (i : Int) < 0 := by omega
    dsimp only
    rw [if_neg hnonneg, Int.toNat_natCast]
  rw [hstep]
  have hkeep : ∀ x < 256, Allocated s.image x → Allocated m' x ∧ x ≠ i := by
    intro x hx hal
    have hne : x ≠ i := fun heq => by
      rw [heq, Allocated, hclear] at hal
      cases hal
    refine ⟨?_, hne⟩
    rw [Allocated, hnew.inodes x hx, if_neg hne]
    exact hal
  have hptr : ∀ x < 256, x ≠ i → ∀ j < 3, ptr m' x j = ptr s.image x j := by
    intro x hx hne j hj
    apply ptr_changed hnew.changed hj
    simp only [getInode_eq, mem_span, Set.mem_ofPred_eq]
    omega
  have hrefs : ∀ x < 256, x ≠ i → refs m' x = refs s.image x := by
    intro x hx hne
    apply refs_changed hnew.changed
    simp only [getInode_eq, mem_span, Set.mem_ofPred_eq]
    omega
  have hdirs : ∀ d ∈ dirs, d < 256 ∧ d ≠ i := fun d hd => by
    obtain ⟨hlt, hal⟩ := h.pages.allocated d hd
    exact ⟨hlt, (hkeep d hlt hal).2⟩
  have hslots : ∀ r ∈ slots dirs, slotIn m' r = slotIn s.image r := by
    rintro ⟨d, k⟩ hr
    obtain ⟨hd, hk⟩ := mem_slots.mp hr
    obtain ⟨p, hp, h2, -⟩ := h.pages.page d hd
    rw [slotIn_eq hp, slotIn_eq ((hptr d (hdirs d hd).1 (hdirs d hd).2 0 (by decide)).trans hp)]
    apply slotAt_changed hnew.changed
    intro x hx hmem
    have := slot_above h2 x hx
    simp only [getInode_eq, mem_span, Set.mem_ofPred_eq] at hmem
    omega
  have hfresh : i ∉ s.held := fun hmem => by
    obtain ⟨-, -, hal, -⟩ := h.held i hmem
    exact (hkeep i hi hal).2 rfl
  refine ⟨⟨?_, ?_, ?_⟩, fun x hx hal => (hkeep x hx hal).1⟩
  · exact h.pages.congr (fun d hd => hptr d (hdirs d hd).1 (hdirs d hd).2 0 (by decide))
      fun d hd hal => (hkeep d (hdirs d hd).1 hal).1
  · intro x hx
    rcases List.mem_cons.mp hx with rfl | hx
    · refine ⟨hi, fun hd => (hdirs x hd).2 rfl, ?_, hnew.ptrs⟩
      rw [Allocated, hnew.inodes x hi, if_pos rfl]
    · obtain ⟨hlt, hnd, hal, hzero⟩ := h.held x hx
      obtain ⟨hal', hne⟩ := hkeep x hlt hal
      exact ⟨hlt, hnd, hal', fun j hj => by rw [hptr x hlt hne j hj, hzero j hj]⟩
  · have hlive : {x : Int | ∃ n ∈ i :: s.held, x = n} =
        insert (i : Int) {x : Int | ∃ n ∈ s.held, x = n} := by
      ext x
      simp
    rw [hlive]
    refine h.counted.create ?_ hslots hnew.count ?_
    · rintro ⟨n, hn, heq⟩
      have : i = n := by omega
      exact hfresh (this ▸ hn)
    · rintro x ⟨n, hn, rfl⟩
      obtain ⟨hlt, -, hal, -⟩ := h.held n hn
      exact hrefs n hlt (hkeep n hlt hal).2

/-- A step that changes one entry of page `p` and leaves every page number alone. -/
theorem slots_other (h : Counted dirs s) {m' : Image} {d p k : Nat} (hd : d ∈ dirs)
    (hp : ptr s.image d 0 = p) (hk : k < 64) {S : Set Int}
    (hchanged : ChangedIn {x | x ∈ slot p k ∨ x ∈ S} s.image m') (hS : ∀ x ∈ S, x < 8192)
    (hptr : ∀ e ∈ dirs, ptr m' e 0 = ptr s.image e 0) :
    ∀ r ∈ slots dirs, r ≠ (d, k) → slotIn m' r = slotIn s.image r := by
  rintro ⟨e, j⟩ hr hne
  obtain ⟨he, hj⟩ := mem_slots.mp hr
  obtain ⟨q, hq, h2, -⟩ := h.pages.page e he
  rw [slotIn_eq hq, slotIn_eq ((hptr e he).trans hq)]
  apply slotAt_changed hchanged
  rintro x hx (hmem | hmem)
  · refine slot_disjoint hj hk ?_ x hx hmem
    rintro ⟨rfl, rfl⟩
    exact hne (by rw [h.pages.distinct e he d hd (hq.trans hp.symm)])
  · have := slot_above h2 x hx
    have := hS x hmem
    omega

theorem put (h : Counted dirs s) {d i : Nat} {name : Str} (hd : d ∈ dirs) (hname : EntryName name)
    (hi : i ∈ s.held) : Counted dirs ((LinkOp.put d name i).step s) ∧
      ∀ x < 256, bit ((LinkOp.put d name i).step s).image getInodeBitmap x =
        bit s.image getInodeBitmap x := by
  obtain ⟨p, hp, h2, -⟩ := h.pages.page d hd
  obtain ⟨hlt, -, -, -⟩ := h.held i hi
  have hbase : direntBase s.image (getInode d) = pagesGetPage p := by rw [direntBase_eq, hp]
  show Counted dirs ⟨(directoryPut s.image (getInode d) name i).1, s.held⟩ ∧
    ∀ x < 256, bit (directoryPut s.image (getInode d) name i).1 getInodeBitmap x = _
  rcases directoryPut_cases name hbase h2 hlt with ⟨hsame, -⟩ | ⟨-, -, m', k, hput, hnew⟩
  · rw [hsame]
    exact ⟨h, fun x _ => rfl⟩
  rw [hput]
  have hptr : ∀ x < 256, ∀ j < 3, ptr m' x j = ptr s.image x j :=
    fun x hx j hj => ptr_header h2 hnew.changed hx hj
  have hbit : ∀ x < 256, bit m' getInodeBitmap x = bit s.image getInodeBitmap x :=
    fun x hx => inodeBit_header h2 hnew.changed hx
  have hdirs : ∀ e ∈ dirs, ptr m' e 0 = ptr s.image e 0 :=
    fun e he => hptr e (h.pages.allocated e he).1 0 (by decide)
  have hother := h.slots_other hd hp hnew.lt hnew.changed (header_below hlt) hdirs
  refine ⟨⟨?_, ?_, ?_⟩, hbit⟩
  · refine h.pages.congr hdirs fun e he hal => ?_
    rw [Allocated, hbit e (h.pages.allocated e he).1]
    exact hal
  · intro x hx
    obtain ⟨hx256, hnd, hal, hzero⟩ := h.held x hx
    refine ⟨hx256, hnd, ?_, fun j hj => by rw [hptr x hx256 j hj, hzero j hj]⟩
    rw [Allocated, hbit x hx256]
    exact hal
  · have hrange := h.refs_range hi
    refine h.counted.link (s := (d, k)) (mem_slots.mpr ⟨hd, hnew.lt⟩) ?_ ⟨i, hi, rfl⟩ ?_
      hother ?_ ?_
    · rw [slotIn_eq hp]
      unfold slotAt
      rw [if_pos hnew.free]
    · rw [slotIn_eq ((hdirs d hd).trans hp)]
      exact hnew.slotAt (List.ne_nil_of_length_pos hname.1) hname.2.2
    · rw [hnew.count, bmod_of_lt (by omega) (by omega)]
    · rintro x ⟨n, hn, rfl⟩ hne
      exact refs_header h2 hnew.changed (h.held n hn).1 (fun heq => hne (by rw [heq]))

theorem delete_cases (h : Counted dirs s) {d : Nat} {name : Str} (hd : d ∈ dirs)
    (hname : EntryName name) : (LinkOp.delete d name).step s = s ∨ ∃ m', ∃ p k i : Nat,
      (LinkOp.delete d name).step s = ⟨m', s.held.filter fun x => bit m' getInodeBitmap x⟩ ∧
      ptr s.image d 0 = p ∧ 2 ≤ p ∧ k < 64 ∧ i ∈ s.held ∧ slotIn s.image (d, k) = some (i : Int) ∧
      Dropped s.image m' p k i := by
  obtain ⟨p, hp, h2, -⟩ := h.pages.page d hd
  have hbase : direntBase s.image (getInode d) = pagesGetPage p := by rw [direntBase_eq, hp]
  have hstep : (LinkOp.delete d name).step s = ⟨(directoryDelete s.image (getInode d) name).1,
      s.held.filter fun x =>
      bit (directoryDelete s.image (getInode d) name).1 getInodeBitmap x⟩ := rfl
  rw [hstep]
  cases hfind : findName s.image (pagesGetPage p) name with
  | none =>
    left
    have hall : s.held.filter (fun x => bit s.image getInodeBitmap x) = s.held :=
      List.filter_eq_self.mpr fun x hx => (h.held x hx).2.2.1
    rw [directoryDelete_missing hbase hfind, hall]
  | some k =>
    right
    obtain ⟨hk, hsame, -⟩ := findName_some hfind
    have hused : slotIn s.image (d, k) = some (int32 s.image (direntInum (pagesGetPage p) k)) := by
      rw [slotIn_eq hp]
      exact if_neg (streq_used (List.ne_nil_of_length_pos hname.1) hname.2.2 hsame)
    obtain ⟨i, hi, htarget⟩ := h.counted.safe (d, k) (mem_slots.mpr ⟨hd, hk⟩) _ hused
    obtain ⟨hlt, -, -, hzero⟩ := h.held i hi
    obtain ⟨m', hdelete, hdrop⟩ := directoryDelete_found hbase h2 hk hfind hlt htarget
      ⟨Or.inl (hzero 0 (by decide)), hzero 1 (by decide), hzero 2 (by decide)⟩
    rw [hdelete]
    exact ⟨m', p, k, i, rfl, hp, h2, hk, hi, by rw [hused, htarget], hdrop⟩

theorem dropped (h : Counted dirs s) {m' : Image} {d p k i : Nat} (hd : d ∈ dirs)
    (hp : ptr s.image d 0 = p) (h2 : 2 ≤ p) (hk : k < 64) (hi : i ∈ s.held)
    (hslot : slotIn s.image (d, k) = some (i : Int)) (hdrop : Dropped s.image m' p k i) :
    (∀ x < 256, bit m' getInodeBitmap x =
      if x = i ∧ refs s.image i = 1 then false else bit s.image getInodeBitmap x) ∧
    (∀ x < 256, ∀ j < 3, ptr s.image x j = 0 ∨ x ≠ i → ptr m' x j = ptr s.image x j) ∧
    (∀ x < 256, x ≠ i → refs m' x = refs s.image x) ∧ slotIn m' (d, k) = none ∧
    ∀ r ∈ slots dirs, r ≠ (d, k) → slotIn m' r = slotIn s.image r := by
  obtain ⟨hlt, hnd, -, hzero⟩ := h.held i hi
  have hlost := hdrop.lost h2 hlt
  have hdirs : ∀ e ∈ dirs, ptr m' e 0 = ptr s.image e 0 := fun e he =>
    hlost.ptr (h.pages.allocated e he).1 (Or.inr fun heq => hnd (heq ▸ he)) (by decide)
  refine ⟨hlost.inodes, ?_, hlost.counts, ?_, ?_⟩
  · intro x hx j hj hor
    by_cases hxi : x = i
    · subst hxi
      by_cases hone : refs s.image x = 1
      · rw [(hdrop.last hone).ptrs j hj, hzero j hj]
      · exact hlost.ptr hx (Or.inl hone) hj
    · exact hlost.ptr hx (Or.inr hxi) hj
  · rw [slotIn_eq ((hdirs d hd).trans hp)]
    exact if_pos hdrop.free
  · exact h.slots_other hd hp hk hdrop.changed (inodeArea_below hlt) hdirs

theorem delete (h : Counted dirs s) {d : Nat} {name : Str} (hd : d ∈ dirs)
    (hname : EntryName name) : Counted dirs ((LinkOp.delete d name).step s) := by
  rcases h.delete_cases hd hname with hsame | ⟨m', p, k, i, hstep, hp, h2, hk, hi, hslot, hdrop⟩
  · rwa [hsame]
  rw [hstep]
  obtain ⟨hbit, hptr, hrefs, hclear, hother⟩ := h.dropped hd hp h2 hk hi hslot hdrop
  obtain ⟨hlt, hnd, -, hzero⟩ := h.held i hi
  have hdirs : ∀ e ∈ dirs, e < 256 ∧ e ≠ i := fun e he =>
    ⟨(h.pages.allocated e he).1, fun heq => hnd (heq ▸ he)⟩
  refine ⟨?_, ?_, ?_⟩
  · apply h.pages.congr
    · exact fun e he => hptr e (hdirs e he).1 0 (by decide) (Or.inr (hdirs e he).2)
    · intro e he hal
      rw [Allocated, hbit e (hdirs e he).1, if_neg fun hc => (hdirs e he).2 hc.1]
      exact hal
  · intro x hx
    obtain ⟨hmem, hal⟩ := List.mem_filter.mp hx
    obtain ⟨hx256, hxd, -, hxzero⟩ := h.held x hmem
    exact ⟨hx256, hxd, hal,
      fun j hj => by rw [hptr x hx256 j hj (Or.inl (hxzero j hj)), hxzero j hj]⟩
  · have hlive : {x : Int | ∃ n ∈ s.held.filter (fun y => bit m' getInodeBitmap y), x = n} =
        {x : Int | x ∈ {x : Int | ∃ n ∈ s.held, x = n} ∧ (x = i → refs s.image i ≠ 1)} := by
      ext x
      simp only [Set.mem_ofPred_eq, List.mem_filter]
      constructor
      · rintro ⟨n, ⟨hn, hal⟩, rfl⟩
        refine ⟨⟨n, hn, rfl⟩, fun heq hone => ?_⟩
        have hni : n = i := by omega
        rw [hbit n (h.held n hn).1, if_pos ⟨hni, hone⟩] at hal
        cases hal
      · rintro ⟨⟨n, hn, rfl⟩, hmore⟩
        refine ⟨n, ⟨hn, ?_⟩, rfl⟩
        rw [hbit n (h.held n hn).1, if_neg]
        · exact (h.held n hn).2.2.1
        · rintro ⟨hni, hone⟩
          exact hmore (by rw [hni]) hone
    have hrange := h.refs_range hi
    rw [hlive]
    refine h.counted.unlink (mem_slots.mpr ⟨hd, hk⟩) hslot hclear hother ?_ ?_
    · intro hne
      have hpos : 0 < refs s.image i := by
        rw [h.counted.exact i ⟨i, hi, rfl⟩]
        have hcard := Finset.card_pos.mpr ⟨(d, k), mem_holders.mpr ⟨mem_slots.mpr ⟨hd, hk⟩, hslot⟩⟩
        omega
      rw [(hdrop.more hne).2, bmod_of_lt (by omega) (by omega)]
    · rintro x ⟨n, hn, rfl⟩ hne
      exact hrefs n (h.held n hn).1 fun heq => hne (by rw [heq])

theorem step (h : Counted dirs s) {op : LinkOp} (hop : op.Allowed dirs s) :
    Counted dirs (op.step s) := by
  cases op with
  | alloc => exact h.alloc.1
  | put d name i => exact (h.put hop.1 hop.2.1 hop.2.2).1
  | delete d name => exact h.delete hop.1 hop.2

theorem run (h : Counted dirs s) (ops : List LinkOp) (hops : AllAllowed dirs s ops) :
    Counted dirs (runLinkOps s ops) := by
  induction ops generalizing s with
  | nil => exact h
  | cons op ops ih => exact ih (h.step hops.1) hops.2

/-- An inode goes back at the deletion of its last entry and at no other step. -/
theorem freed_iff (h : Counted dirs s) {op : LinkOp} (hop : op.Allowed dirs s) {x : Nat}
    (hx : x < 256) : (Allocated s.image x ∧ ¬ Allocated (op.step s).image x) ↔
      (∃ d name, op = .delete d name) ∧ (linksTo s.image dirs x).Nonempty ∧
        linksTo (op.step s).image dirs x = ∅ := by
  cases op with
  | alloc =>
    constructor
    · rintro ⟨hbefore, hafter⟩
      exact absurd (h.alloc.2 x hx hbefore) hafter
    · rintro ⟨⟨d, name, hop⟩, -⟩
      cases hop
  | put d name i =>
    constructor
    · rintro ⟨hbefore, hafter⟩
      rw [Allocated, (h.put hop.1 hop.2.1 hop.2.2).2 x hx] at hafter
      exact absurd hbefore hafter
    · rintro ⟨⟨d', name', hop'⟩, -⟩
      cases hop'
  | delete d name =>
    rcases h.delete_cases hop.1 hop.2 with hsame
      | ⟨m', p, k, i, hstep, hp, h2, hk, hi, hslot, hdrop⟩
    · rw [hsame]
      constructor
      · rintro ⟨hbefore, hafter⟩
        exact absurd hbefore hafter
      · rintro ⟨-, hsome, hnone⟩
        exact absurd hnone hsome.ne_empty
    rw [hstep]
    obtain ⟨hbit, -, -, hclear, hother⟩ := h.dropped hop.1 hp h2 hk hi hslot hdrop
    have hmem : (d, k) ∈ slots dirs := mem_slots.mpr ⟨hop.1, hk⟩
    have hlast := h.counted.last_iff hmem hslot hclear hother
    by_cases hxi : x = i
    · subst hxi
      have hsome : (linksTo s.image dirs x).Nonempty := ⟨(d, k), mem_holders.mpr ⟨hmem, hslot⟩⟩
      have hal : Allocated s.image x := (h.held x hi).2.2.1
      dsimp only
      rw [Allocated, Allocated, hbit x hx]
      constructor
      · rintro ⟨-, hafter⟩
        refine ⟨⟨d, name, rfl⟩, hsome, hlast.mp ?_⟩
        by_contra hone
        rw [if_neg fun hc => hone hc.2] at hafter
        exact hafter hal
      · rintro ⟨-, -, hnone⟩
        rw [if_pos ⟨rfl, hlast.mpr hnone⟩]
        exact ⟨hal, by decide⟩
    · have hkeep : linksTo m' dirs x = linksTo s.image dirs x := by
        unfold linksTo
        rw [holders_unlink hclear hother, Finset.erase_eq_of_notMem]
        intro hheld
        have hsome := (mem_holders.mp hheld).2
        rw [hslot, Option.some.injEq] at hsome
        exact hxi (by omega)
      dsimp only
      rw [Allocated, Allocated, hbit x hx, if_neg fun hc => hxi hc.1, hkeep]
      constructor
      · rintro ⟨hbefore, hafter⟩
        exact absurd hbefore hafter
      · rintro ⟨-, hsome, hnone⟩
        exact absurd hnone hsome.ne_empty

end Counted

/-! ## Runs -/

/-- Directories with pages of their own and no entry in use. -/
structure EmptyDirs (m : Image) (dirs : Finset Nat) : Prop extends DirPages m dirs where
  empty : ∀ d ∈ dirs, ∀ k < 64, m (direntName (direntBase m (getInode d)) k) = nul

theorem EmptyDirs.counted {m : Image} {dirs : Finset Nat} (h : EmptyDirs m dirs) :
    Counted dirs ⟨m, []⟩ := by
  refine ⟨h.toDirPages, fun i hi => absurd hi List.not_mem_nil, ⟨?_, ?_⟩⟩
  · rintro i ⟨n, hn, -⟩
    exact absurd hn List.not_mem_nil
  · rintro ⟨d, k⟩ hr i hi
    obtain ⟨hd, hk⟩ := mem_slots.mp hr
    unfold slotIn slotAt at hi
    rw [if_pos (h.empty d hd k hk)] at hi
    cases hi

theorem run_link_counts {m : Image} {dirs : Finset Nat} (hdirs : EmptyDirs m dirs)
    (ops : List LinkOp) (hops : AllAllowed dirs ⟨m, []⟩ ops) :
    (∀ i ∈ (runLinkOps ⟨m, []⟩ ops).held, refs (runLinkOps ⟨m, []⟩ ops).image i =
      (linksTo (runLinkOps ⟨m, []⟩ ops).image dirs i).card) ∧
    (∀ r ∈ slots dirs, ∀ i, slotIn (runLinkOps ⟨m, []⟩ ops).image r = some i →
      ∃ n : Nat, i = n ∧ n < 256 ∧ Allocated (runLinkOps ⟨m, []⟩ ops).image n) ∧
    ∀ op : LinkOp, op.Allowed dirs (runLinkOps ⟨m, []⟩ ops) → ∀ x < 256,
      (Allocated (runLinkOps ⟨m, []⟩ ops).image x ∧
        ¬ Allocated (op.step (runLinkOps ⟨m, []⟩ ops)).image x) ↔
      (∃ d name, op = .delete d name) ∧
        (linksTo (runLinkOps ⟨m, []⟩ ops).image dirs x).Nonempty ∧
        linksTo (op.step (runLinkOps ⟨m, []⟩ ops)).image dirs x = ∅ := by
  have h := hdirs.counted.run ops hops
  refine ⟨fun i hi => h.counted.exact i ⟨i, hi, rfl⟩, fun r hr i hri => ?_, fun op hop x hx =>
    h.freed_iff hop hx⟩
  obtain ⟨n, hn, rfl⟩ := h.counted.safe r hr i hri
  exact ⟨n, rfl, (h.held n hn).1, (h.held n hn).2.2.1⟩

/-- Two directories, and an inode linked and unlinked in both. -/
theorem two_directories_link_counts :
    refs (runLinkOps ⟨(directoryInit (storageInit fun _ => 0)).1, []⟩
        [.alloc, .put 0 [97] 2, .put 1 [98] 2, .delete 0 [97]]).image 2 =
      (linksTo (runLinkOps ⟨(directoryInit (storageInit fun _ => 0)).1, []⟩
        [.alloc, .put 0 [97] 2, .put 1 [98] 2, .delete 0 [97]]).image {0, 1} 2).card :=
  (@run_link_counts (directoryInit (storageInit fun _ => 0)).1 {0, 1}
    { allocated := by decide +kernel
      page := by
        simp only [Finset.forall_mem_insert, Finset.mem_singleton, forall_eq]
        exact ⟨⟨2, by decide +kernel⟩, ⟨3, by decide +kernel⟩⟩
      distinct := by decide +kernel
      empty := by decide +kernel }
    [.alloc, .put 0 [97] 2, .put 1 [98] 2, .delete 0 [97]]
    ⟨trivial, ⟨by decide, by decide, by decide +kernel⟩, ⟨by decide, by decide, by decide +kernel⟩,
      ⟨by decide, by decide⟩, trivial⟩).1 2 (by decide +kernel)

end Cs3650.Nufs
