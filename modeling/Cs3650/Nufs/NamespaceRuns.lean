import Cs3650.Nufs.Namespace

/-!
# The namespace stays tidy

What one call does to the invariant, and from it what a run does.
-/

namespace Cs3650.Nufs

open Cs3650.Lib

/-! ## Frames -/

section

variable {m m' : Image}

theorem node_other {i x : Nat} (hi : i < 256) (h : ChangedIn (inodeArea i) m m') (hx : x < 256)
    (hne : x ≠ i)
    {a : Int} (ha : 0 ≤ a) (hlt : a + 4 ≤ 24) :
    int32 m' (getInode x + a) = int32 m (getInode x + a) := by
  apply h.int32
  simp only [inodeArea, getInode_eq, mem_span, Set.mem_ofPred_eq]
  omega

theorem ptr_other {i x j : Nat} (hi : i < 256) (h : ChangedIn (inodeArea i) m m') (hx : x < 256)
    (hne : x ≠ i) (hj : j < 3) : ptr m' x j = ptr m x j := by
  apply ptr_changed h hj
  simp only [inodeArea, getInode_eq, mem_span, Set.mem_ofPred_eq]
  omega

theorem isDir_congr {cur : Int}
    (hbit : 0 ≤ cur → cur < 256 → (Allocated m' cur.toNat ↔ Allocated m cur.toNat))
    (hmode : 0 ≤ cur → cur < 256 →
      int32 m' (getInode cur + Inode.mode) = int32 m (getInode cur + Inode.mode)) :
    IsDir m' cur ↔ IsDir m cur := by
  constructor
  · rintro ⟨h0, hlt, hal, hdir⟩
    exact ⟨h0, hlt, (hbit h0 hlt).mp hal, by rwa [← hmode h0 hlt]⟩
  · rintro ⟨h0, hlt, hal, hdir⟩
    exact ⟨h0, hlt, (hbit h0 hlt).mpr hal, by rwa [hmode h0 hlt]⟩

end

/-! ## A new inode -/

/-- What a new file and a new directory have in common. -/
structure Fresh (m m' : Image) (i : Nat) : Prop where
  changed : ChangedIn (inodeArea i) m m'
  inodes : ∀ x < 256, bit m' getInodeBitmap x = if x = i then true else bit m getInodeBitmap x
  pages : ∀ x < 256, bit m getPagesBitmap x = true → bit m' getPagesBitmap x = true
  small : Small m' i
  page : IsDir m' i → ptr m' i 0 ≠ 0
  own : ∀ p < 256, ptr m' i 0 = (p : Nat) → 0 < p → bit m' getPagesBitmap p = true
  apart : ∀ p < 256, bit m getPagesBitmap p = true → 0 < p → ptr m' i 0 ≠ p
  count : refs m' i = 0

theorem Created.fresh {m m' : Image} {i : Nat} (h : Created m m' i) : Fresh m m' i where
  changed := h.changed.mono fun _ hx => Or.inr hx
  inodes := h.inodes
  pages x hx hset := by
    rw [← hset]
    apply bit_changedIn h.changed
    simp only [getPagesBitmap, getInode_eq, mem_span, Set.mem_ofPred_eq]
    omega
  small := ⟨Or.inl (h.ptrs 0 (by decide)), h.ptrs 1 (by decide), h.ptrs 2 (by decide)⟩
  page hdir := by
    have hmode := hdir.2.2.2
    rw [h.mode] at hmode
    exact absurd hmode (by decide)
  own p _ hptr hpos := by
    rw [h.ptrs 0 (by decide)] at hptr
    omega
  apart p hp _ hpos := by
    rw [h.ptrs 0 (by decide)]
    omega
  count := h.count

theorem CreatedDir.fresh {m m' : Image} {i p : Nat} (h : CreatedDir m m' i p) (hp : p < 256)
    (h2 : 2 ≤ p) (hclear : bit m getPagesBitmap p = false) : Fresh m m' i where
  changed := h.changed
  inodes := h.inodes
  pages x hx hset := by
    rw [h.pages x hx]
    by_cases hxp : x = p
    · rw [if_pos hxp]
    · rwa [if_neg hxp]
  small := by
    have h0 := h.ptrs 0 (by decide)
    rw [if_pos rfl] at h0
    exact ⟨by omega, h.ptrs 1 (by decide), h.ptrs 2 (by decide)⟩
  page _ := by
    have h0 := h.ptrs 0 (by decide)
    rw [if_pos rfl] at h0
    omega
  own q hq hptr _ := by
    have h0 := h.ptrs 0 (by decide)
    rw [if_pos rfl] at h0
    have hqp : q = p := by omega
    rw [h.pages q hq, if_pos hqp]
  apart q hq hset hpos := by
    have h0 := h.ptrs 0 (by decide)
    rw [if_pos rfl] at h0
    have hne : q ≠ p := fun heq => by
      rw [heq, hclear] at hset
      cases hset
    omega
  count := h.count

section

variable {m m' : Image}

theorem nameAt_below {S : Set Int} (h : ChangedIn S m m') (hS : ∀ x ∈ S, x < 8192) {p k : Nat}
    (h2 : 2 ≤ p) (hend : m (direntName (pagesGetPage p) k + (59 : Nat)) = nul) :
    nameAt m' p k = nameAt m p k := by
  apply strdup_congr NUFS_SIZE hend
  intro i _
  apply h
  intro hmem
  have := hS _ hmem
  simp only [direntName, pagesGetPage] at this
  omega

theorem byte_below {S : Set Int} (h : ChangedIn S m m') (hS : ∀ x ∈ S, x < 8192) {p k : Nat}
    (h2 : 2 ≤ p) (j : Nat) :
    m' (direntName (pagesGetPage p) k + j) = m (direntName (pagesGetPage p) k + j) := by
  apply h
  intro hmem
  have := hS _ hmem
  simp only [direntName, pagesGetPage] at this
  omega

theorem slotAt_below {S : Set Int} (h : ChangedIn S m m') (hS : ∀ x ∈ S, x < 8192) {p k : Nat}
    (h2 : 2 ≤ p) : slotAt m' (pagesGetPage p) k = slotAt m (pagesGetPage p) k := by
  apply slotAt_changed h
  intro x hx hmem
  have := slot_above h2 x hx
  have := hS x hmem
  omega

theorem inum_below {S : Set Int} (h : ChangedIn S m m') (hS : ∀ x ∈ S, x < 8192) {p k : Nat}
    (h2 : 2 ≤ p) :
    int32 m' (direntInum (pagesGetPage p) k) = int32 m (direntInum (pagesGetPage p) k) := by
  apply h.int32
  intro x hx hmem
  have := hS x hmem
  simp only [direntInum, pagesGetPage, mem_span] at hx
  omega

theorem isDir_other {i : Nat} (hi : i < 256) (hf : Fresh m m' i) {cur : Int} (hne : cur ≠ i) :
    IsDir m' cur ↔ IsDir m cur := by
  apply isDir_congr
  · intro h0 hlt
    have hx : cur.toNat ≠ i := by omega
    rw [Allocated, Allocated, hf.inodes cur.toNat (by omega), if_neg hx]
  · intro h0 hlt
    obtain ⟨x, rfl⟩ : ∃ x : Nat, cur = x := ⟨cur.toNat, by omega⟩
    exact node_other hi hf.changed (by omega) (by omega) (by decide) (by decide)

theorem Fresh.allocated {i : Nat} (hf : Fresh m m' i) {x : Nat} (hx : x < 256) :
    Allocated m' x ↔ x = i ∨ x ≠ i ∧ Allocated m x := by
  rw [Allocated, hf.inodes x hx]
  by_cases hxi : x = i
  · rw [if_pos hxi]
    exact ⟨fun _ => Or.inl hxi, fun _ => rfl⟩
  · rw [if_neg hxi]
    exact ⟨fun hal => Or.inr ⟨hxi, hal⟩, fun hor => (hor.resolve_left hxi).2⟩

theorem Fresh.live {i : Nat} (hf : Fresh m m' i) (hi : i < 256) :
    liveInodes m' = insert (i : Int) (liveInodes m) := by
  ext x
  simp only [liveInodes, Set.mem_ofPred_eq, Set.mem_insert_iff]
  constructor
  · rintro ⟨n, hn, hal, rfl⟩
    rcases (hf.allocated hn).mp hal with rfl | ⟨-, hal'⟩
    · exact Or.inl rfl
    · exact Or.inr ⟨n, hn, hal', rfl⟩
  · rintro (rfl | ⟨n, hn, hal, rfl⟩)
    · exact ⟨i, hi, (hf.allocated hi).mpr (Or.inl rfl), rfl⟩
    · refine ⟨n, hn, (hf.allocated hn).mpr ?_, rfl⟩
      by_cases hni : n = i
      · exact Or.inl hni
      · exact Or.inr ⟨hni, hal⟩

theorem Formatted.create (h : Formatted m) {i : Nat} (hi : i < 256)
    (hclear : bit m getInodeBitmap i = false) (hf : Fresh m m' i) : Formatted m' := by
  have hbelow := inodeArea_below hi
  have hold : ∀ x < 256, Allocated m' x → x = i ∨ x ≠ i ∧ Allocated m x :=
    fun x hx => (hf.allocated hx).mp
  constructor
  · exact ⟨hf.pages 0 (by decide) h.reserved.1, hf.pages 1 (by decide) h.reserved.2⟩
  · intro x hx hal
    rcases hold x hx hal with rfl | ⟨hne, hal'⟩
    · exact hf.small
    · have hsmall := h.small x hx hal'
      have hptr := fun j hj => ptr_other (j := j) hi hf.changed hx hne hj
      exact ⟨by rw [hptr 0 (by decide)]; exact hsmall.direct,
        by rw [hptr 1 (by decide)]; exact hsmall.second,
        by rw [hptr 2 (by decide)]; exact hsmall.indirect⟩
  · intro x hdir
    by_cases hxi : x = i
    · subst hxi
      exact hf.page hdir
    · have hdir' := (isDir_other hi hf (by omega)).mp hdir
      rw [ptr_other hi hf.changed (by have := hdir.2.1; omega) hxi (by decide)]
      exact h.page x hdir'
  · intro x p hx hp hal hptr hpos
    rcases hold x hx hal with rfl | ⟨hne, hal'⟩
    · exact hf.own p hp hptr hpos
    · rw [ptr_other hi hf.changed hx hne (by decide)] at hptr
      exact hf.pages p hp (h.own x p hx hp hal' hptr hpos)
  · -- the page of the new inode was free
    have hnew : ∀ y < 256, y ≠ i → Allocated m y → ptr m' i 0 = ptr m y 0 → ptr m y 0 = 0 := by
      intro y hy hne hal hsame
      by_contra hnz
      rcases (h.small y hy hal).direct with hzero | ⟨hlo, hhi⟩
      · exact hnz hzero
      · obtain ⟨p, hp⟩ : ∃ p : Nat, ptr m y 0 = p := ⟨(ptr m y 0).toNat, by omega⟩
        have hset := h.own y p hy (by omega) hal hp (by omega)
        exact hf.apart p (by omega) hset (by omega) (hsame.trans hp)
    intro x y hx hy hxal hyal hsame hnz
    rcases hold x hx hxal with rfl | ⟨hxi, hxal'⟩
    · rcases hold y hy hyal with rfl | ⟨hyi, hyal'⟩
      · rfl
      · rw [ptr_other hi hf.changed hy hyi (by decide)] at hsame
        exact absurd (hsame.trans (hnew y hy hyi hyal' hsame)) hnz
    · rw [ptr_other hi hf.changed hx hxi (by decide)] at hsame hnz
      rcases hold y hy hyal with rfl | ⟨hyi, hyal'⟩
      · exact absurd (hnew x hx hxi hxal' hsame.symm) hnz
      · rw [ptr_other hi hf.changed hy hyi (by decide)] at hsame
        exact h.apart x y hx hy hxal' hyal' hsame hnz
  · intro p k h2 hp hk
    rw [byte_below hf.changed hbelow h2]
    exact h.closed p k h2 hp hk
  · intro p k h2 hp hk hfree
    have hbyte := byte_below hf.changed hbelow (k := k) h2 0
    simp only [Int.natCast_zero, Int.add_zero] at hbyte
    rw [inum_below hf.changed hbelow h2]
    exact h.blank p k h2 hp hk (by rwa [← hbyte])
  · intro p k h2 hp hk
    rw [nameAt_below hf.changed hbelow h2 (h.closed p k h2 hp hk)]
    exact h.names p k h2 hp hk
  · rw [hf.live hi]
    refine h.counted.create ?_ ?_ hf.count ?_
    · rintro ⟨n, hn, hal, heq⟩
      have hni : n = i := by omega
      rw [hni, Allocated, hclear] at hal
      cases hal
    · rintro ⟨p, k⟩ hr
      obtain ⟨h2, -, -⟩ := mem_pageSlots.mp hr
      exact slotAt_below hf.changed hbelow h2
    · rintro x ⟨n, hn, hal, rfl⟩
      have hni : n ≠ i := fun heq => by
        rw [heq, Allocated, hclear] at hal
        cases hal
      exact node_other hi hf.changed hn hni (Int.le_refl 0) (by decide)

theorem Rooted.create (h : Rooted m) {i : Nat} (hi : i < 256)
    (hclear : bit m getInodeBitmap i = false) (hf : Fresh m m' i) : Rooted m' := by
  have hroot : i ≠ 0 := fun heq => by
    have hal := h.root.2.2.1
    rw [heq] at hclear
    rw [show (0 : Int).toNat = 0 from rfl, Allocated, hclear] at hal
    cases hal
  refine ⟨h.toFormatted.create hi hclear hf, ?_, ?_⟩
  · exact (isDir_other hi hf (by omega)).mpr h.root
  · rw [ptr_other hi hf.changed (by decide) (Ne.symm hroot) (by decide)]
    exact h.rootPage

theorem Tidy.create (h : Tidy m) {i : Nat} (hi : i < 256) (hclear : bit m getInodeBitmap i = false)
    (hf : Fresh m m' i) : Tidy m' := by
  obtain ⟨k, hk, hfree⟩ := h.room
  have hbyte := byte_below hf.changed (inodeArea_below hi) (p := 2) (k := k) (by decide) 0
  simp only [Int.natCast_zero, Int.add_zero] at hbyte
  exact ⟨h.toRooted.create hi hclear hf, k, hk, hbyte.trans hfree⟩

end

/-! ## One entry changes -/

section

variable {m m' : Image} {P k : Nat} {T : Set Int} (h : ChangedIn {x | x ∈ slot P k ∨ x ∈ T} m m')
  (hT : ∀ x ∈ T, x < 8192)

include h hT

theorem byte_entry {p j : Nat} (h2 : 2 ≤ p) (hk : k < 64) (hj : j < 64) (hne : ¬(p = P ∧ j = k))
    {i : Nat} (hi : i < 64) :
    m' (direntName (pagesGetPage p) j + i) = m (direntName (pagesGetPage p) j + i) := by
  have hmem : direntName (pagesGetPage p) j + i ∈ slot p j := by
    simp only [slot, mem_span]
    omega
  apply h
  rintro (hslot | hlow)
  · exact slot_disjoint hj hk hne _ hmem hslot
  · have := slot_above h2 _ hmem
    have := hT _ hlow
    omega

theorem nameAt_entry {p j : Nat} (h2 : 2 ≤ p) (hk : k < 64) (hj : j < 64) (hne : ¬(p = P ∧ j = k))
    (hend : m (direntName (pagesGetPage p) j + (59 : Nat)) = nul) : nameAt m' p j = nameAt m p j :=
  strdup_congr NUFS_SIZE hend fun _ hi => byte_entry h hT h2 hk hj hne (by omega)

omit h in
theorem slot_entry {p j : Nat} (h2 : 2 ≤ p) (hk : k < 64) (hj : j < 64) (hne : ¬(p = P ∧ j = k)) :
    ∀ x ∈ slot p j, ¬(x ∈ slot P k ∨ x ∈ T) := by
  rintro x hx (hslot | hlow)
  · exact slot_disjoint hj hk hne x hx hslot
  · have := slot_above h2 x hx
    have := hT x hlow
    omega

theorem inum_entry {p j : Nat} (h2 : 2 ≤ p) (hk : k < 64) (hj : j < 64) (hne : ¬(p = P ∧ j = k)) :
    int32 m' (direntInum (pagesGetPage p) j) = int32 m (direntInum (pagesGetPage p) j) := by
  apply h.int32
  intro x hx
  refine slot_entry hT h2 hk hj hne x ?_
  simp only [slot, direntName, direntInum, mem_span] at hx ⊢
  omega

theorem slots_entry (hk : k < 64) : ∀ r ∈ pageSlots, r ≠ (P, k) → pageSlot m' r = pageSlot m r := by
  rintro ⟨p, j⟩ hr hne
  obtain ⟨h2, -, hj⟩ := mem_pageSlots.mp hr
  apply slotAt_changed h
  apply slot_entry hT h2 hk hj
  rintro ⟨rfl, rfl⟩
  exact hne rfl

end

section

variable {m m' : Image} {P i k : Nat} {name : Str}

theorem liveInodes_congr (h : ∀ x < 256, bit m' getInodeBitmap x = bit m getInodeBitmap x) :
    liveInodes m' = liveInodes m := by
  ext x
  simp only [liveInodes, Set.mem_ofPred_eq]
  constructor
  · rintro ⟨n, hn, hal, rfl⟩
    exact ⟨n, hn, by rwa [Allocated, ← h n hn], rfl⟩
  · rintro ⟨n, hn, hal, rfl⟩
    exact ⟨n, hn, by rwa [Allocated, h n hn], rfl⟩

theorem isDir_header (h2 : 2 ≤ P) (h : ChangedIn {x | x ∈ slot P k ∨ x ∈ span (getInode i) 4} m m')
    (cur : Int) : IsDir m' cur ↔ IsDir m cur := by
  apply isDir_congr
  · intro h0 hlt
    rw [Allocated, Allocated, inodeBit_header h2 h (by omega)]
  · intro h0 hlt
    obtain ⟨x, rfl⟩ : ∃ x : Nat, cur = x := ⟨cur.toNat, by omega⟩
    exact mode_header h2 h (by omega)

theorem pageSlots_card : pageSlots.card = 16256 := by
  unfold pageSlots
  simp

theorem Formatted.refs_range (h : Formatted m) (hi : i < 256) (hal : Allocated m i) :
    0 ≤ refs m i ∧ refs m i ≤ 16256 := by
  have hbounds := h.counted.bounds (i := (i : Int)) ⟨i, hi, hal, rfl⟩
  rw [pageSlots_card] at hbounds
  omega

/-- What a slot and a count that change together leave alone. -/
theorem Formatted.header (h : Formatted m) (h2 : 2 ≤ P)
    (hchanged : ChangedIn {x | x ∈ slot P k ∨ x ∈ span (getInode i) 4} m m') :
    (bit m' getPagesBitmap 0 = true ∧ bit m' getPagesBitmap 1 = true) ∧
    (∀ x < 256, Allocated m' x → Small m' x) ∧ (∀ x : Nat, IsDir m' x → ptr m' x 0 ≠ 0) ∧
    (∀ x p : Nat, x < 256 → p < 256 → Allocated m' x → ptr m' x 0 = p → 0 < p →
      bit m' getPagesBitmap p = true) ∧
    ∀ x y : Nat, x < 256 → y < 256 → Allocated m' x → Allocated m' y → ptr m' x 0 = ptr m' y 0 →
      ptr m' x 0 ≠ 0 → x = y := by
  have hptr : ∀ x < 256, ∀ j < 3, ptr m' x j = ptr m x j := fun x hx j hj =>
    ptr_header h2 hchanged hx hj
  refine ⟨?_, ?_, ?_, ?_, ?_⟩
  · rw [pageBit_header h2 hchanged (by decide), pageBit_header h2 hchanged (by decide)]
    exact h.reserved
  · intro x hx hal
    rw [Allocated, inodeBit_header h2 hchanged hx] at hal
    have hsmall := h.small x hx hal
    exact ⟨by rw [hptr x hx 0 (by decide)]; exact hsmall.direct,
      by rw [hptr x hx 1 (by decide)]; exact hsmall.second,
      by rw [hptr x hx 2 (by decide)]; exact hsmall.indirect⟩
  · intro x hdir
    have hdir' := (isDir_header h2 hchanged _).mp hdir
    rw [hptr x (by have := hdir.2.1; omega) 0 (by decide)]
    exact h.page x hdir'
  · intro x p hx hp hal hown hpos
    rw [Allocated, inodeBit_header h2 hchanged hx] at hal
    rw [hptr x hx 0 (by decide)] at hown
    rw [pageBit_header h2 hchanged hp]
    exact h.own x p hx hp hal hown hpos
  · intro x y hx hy hxal hyal
    rw [Allocated, inodeBit_header h2 hchanged hx] at hxal
    rw [Allocated, inodeBit_header h2 hchanged hy] at hyal
    rw [hptr x hx 0 (by decide), hptr y hy 0 (by decide)]
    exact h.apart x y hx hy hxal hyal

theorem Formatted.put (h : Formatted m) (h2 : 2 ≤ P) (hP : P < 256) (hi : i < 256)
    (hal : Allocated m i) (hput : Put m m' P name i k) (hne : name ≠ []) (hnul : nul ∉ name)
    (hslash : slash ∉ name ∨ P = 2 ∧ name = [slash]) : Formatted m' := by
  have hk := hput.lt
  have hbelow := header_below hi
  obtain ⟨hreserved, hsmall, hpage, hown, hapart⟩ := h.header h2 hput.changed
  refine ⟨hreserved, hsmall, hpage, hown, hapart, ?_, ?_, ?_, ?_⟩
  · intro p j hp2 hp hj
    by_cases hsame : p = P ∧ j = k
    · obtain ⟨rfl, rfl⟩ := hsame
      rw [hput.text 59 (by decide)]
      rfl
    · rw [byte_entry hput.changed hbelow hp2 hk hj hsame (by decide)]
      exact h.closed p j hp2 hp hj
  · intro p j hp2 hp hj hfree
    by_cases hsame : p = P ∧ j = k
    · obtain ⟨rfl, rfl⟩ := hsame
      exact absurd hfree (hput.used hne hnul)
    · have hbyte := byte_entry hput.changed hbelow hp2 hk hj hsame (i := 0) (by decide)
      simp only [Int.natCast_zero, Int.add_zero] at hbyte
      rw [inum_entry hput.changed hbelow hp2 hk hj hsame]
      exact h.blank p j hp2 hp hj (by rwa [← hbyte])
  · intro p j hp2 hp hj
    by_cases hsame : p = P ∧ j = k
    · obtain ⟨rfl, rfl⟩ := hsame
      have hname : nameAt m' p j = name.take 59 := hput.strdup hnul
      rw [hname]
      rcases hslash with hslash | ⟨hp, hslash⟩
      · exact Or.inl fun hmem => hslash (List.mem_of_mem_take hmem)
      · exact Or.inr ⟨hp, by rw [hslash]; rfl⟩
    · rw [nameAt_entry hput.changed hbelow hp2 hk hj hsame (h.closed p j hp2 hp hj)]
      exact h.names p j hp2 hp hj
  · have hrange := h.refs_range hi hal
    rw [liveInodes_congr fun x hx => inodeBit_header h2 hput.changed hx]
    refine h.counted.link (s := (P, k)) (mem_pageSlots.mpr ⟨h2, hP, hk⟩) ?_ ⟨i, hi, hal, rfl⟩
      (hput.slotAt hne hnul) (slots_entry hput.changed hbelow hk) ?_ ?_
    · exact if_pos hput.free
    · rw [hput.count, bmod_of_lt (by omega) (by omega)]
    · rintro x ⟨n, hn, -, rfl⟩ hne'
      exact refs_header h2 hput.changed hn fun heq => hne' (by rw [heq])

theorem Rooted.put (h : Rooted m) (h2 : 2 ≤ P) (hP : P < 256) (hi : i < 256)
    (hal : Allocated m i) (hput : Put m m' P name i k) (hne : name ≠ []) (hnul : nul ∉ name)
    (hslash : slash ∉ name ∨ P = 2 ∧ name = [slash]) : Rooted m' := by
  refine ⟨h.toFormatted.put h2 hP hi hal hput hne hnul hslash, ?_, ?_⟩
  · exact (isDir_header h2 hput.changed 0).mpr h.root
  · rw [ptr_header h2 hput.changed (by decide) (by decide)]
    exact h.rootPage

theorem Tidy.put (h : Tidy m) (h2 : 2 ≤ P) (hP : P < 256) (hi : i < 256)
    (hal : Allocated m i) (hput : Put m m' P name i k) (hne : name ≠ []) (hnul : nul ∉ name)
    (hslash : slash ∉ name ∨ P = 2 ∧ name = [slash])
    (hroom : P = 2 → ∃ j < 64, j ≠ k ∧ m (direntName (pagesGetPage 2) j) = nul) : Tidy m' := by
  refine ⟨h.toRooted.put h2 hP hi hal hput hne hnul hslash, ?_⟩
  obtain ⟨j, hj, hne', hfree⟩ : ∃ j < 64, ¬(2 = P ∧ j = k) ∧
      m (direntName (pagesGetPage 2) j) = nul := by
    by_cases hP2 : P = 2
    · obtain ⟨j, hj, hjk, hfree⟩ := hroom hP2
      exact ⟨j, hj, fun hc => hjk hc.2, hfree⟩
    · obtain ⟨j, hj, hfree⟩ := h.room
      exact ⟨j, hj, fun hc => hP2 hc.1.symm, hfree⟩
  have hbyte :=
    byte_entry hput.changed (header_below hi) (by decide) hput.lt hj hne' (i := 0) (by decide)
  simp only [Int.natCast_zero, Int.add_zero] at hbyte
  exact ⟨j, hj, hbyte.trans hfree⟩

end

/-! ## An entry goes -/

section

variable {m m' : Image} {P i k : Nat}

theorem Lost.live (h : Lost m m' i) {x : Nat} (hx : x < 256) (hal : Allocated m' x) :
    Allocated m x ∧ (refs m i ≠ 1 ∨ x ≠ i) := by
  rw [Allocated, h.inodes x hx] at hal
  by_cases hgone : x = i ∧ refs m i = 1
  · rw [if_pos hgone] at hal
    cases hal
  · rw [if_neg hgone] at hal
    refine ⟨hal, ?_⟩
    by_cases hone : refs m i = 1
    · exact Or.inr fun hxi => hgone ⟨hxi, hone⟩
    · exact Or.inl hone

theorem Lost.isDir (h : Lost m m' i) {cur : Int} (hdir : IsDir m' cur) : IsDir m cur := by
  obtain ⟨x, rfl, hx, hal, hdir'⟩ := hdir.nat
  obtain ⟨hal', hor⟩ := h.live hx hal
  refine ⟨by omega, by omega, hal', ?_⟩
  have hmode := h.nodes x hx hor Inode.mode (by decide) (by decide)
  rw [← hmode]
  exact hdir'.2.2.2

theorem Lost.live_set {i : Nat} (h : Lost m m' i) :
    liveInodes m' = {j | j ∈ liveInodes m ∧ (j = (i : Int) → refs m i ≠ 1)} := by
  ext x
  simp only [liveInodes, Set.mem_ofPred_eq]
  constructor
  · rintro ⟨n, hn, hal, rfl⟩
    obtain ⟨hold, hor⟩ := h.live hn hal
    refine ⟨⟨n, hn, hold, rfl⟩, fun heq hone => ?_⟩
    rcases hor with hmore | hne
    · exact hmore hone
    · exact hne (by omega)
  · rintro ⟨⟨n, hn, hold, rfl⟩, hmore⟩
    refine ⟨n, hn, ?_, rfl⟩
    rw [Allocated, h.inodes n hn, if_neg]
    · exact hold
    · rintro ⟨heq, hone⟩
      exact hmore (by rw [heq]) hone

theorem Formatted.drop (h : Formatted m) (h2 : 2 ≤ P) (hP : P < 256) (hk : k < 64) (hi : i < 256)
    (hused : m (direntName (pagesGetPage P) k) ≠ nul)
    (htarget : int32 m (direntInum (pagesGetPage P) k) = i) (hdrop : Dropped m m' P k i) :
    Formatted m' := by
  have hbelow := inodeArea_below hi
  have hlost := hdrop.lost h2 hi
  have hslot : pageSlot m (P, k) = some (i : Int) := by
    rw [← htarget]
    exact if_neg hused
  have hmem : (P, k) ∈ pageSlots := mem_pageSlots.mpr ⟨h2, hP, hk⟩
  obtain ⟨n, hn, hal, hni⟩ := h.counted.safe (P, k) hmem _ hslot
  obtain rfl : i = n := by omega
  refine ⟨?_, ?_, ?_, ?_, ?_, ?_, ?_, ?_, ?_⟩
  · have hlow : ∀ p < 2, bit m getPagesBitmap p = true → bit m' getPagesBitmap p = true := by
      intro p hp hset
      rcases hlost.pages p (by omega) hset with hset' | ⟨hone, hown⟩
      · exact hset'
      · -- the first page of an inode that is removed is not reserved
        have hpos : ptr m i 0 ≠ 1 ∧ (ptr m i 0 = 0 → p = 0) := by
          rcases (h.small i hn hal).direct with hzero | hrange <;> omega
        have hp0 : p = 0 := by omega
        subst hp0
        rw [(hdrop.last hone).pages 0 (by decide), if_neg (by omega)]
        exact hset
    exact ⟨hlow 0 (by decide) h.reserved.1, hlow 1 (by decide) h.reserved.2⟩
  · intro x hx hal'
    obtain ⟨hold, hor⟩ := hlost.live hx hal'
    have hsmall := h.small x hx hold
    exact ⟨by rw [hlost.ptr hx hor (by decide)]; exact hsmall.direct,
      by rw [hlost.ptr hx hor (by decide)]; exact hsmall.second,
      by rw [hlost.ptr hx hor (by decide)]; exact hsmall.indirect⟩
  · intro x hdir
    obtain ⟨y, hy, hlt, hal', -⟩ := hdir.nat
    obtain rfl : x = y := by omega
    rw [hlost.ptr hlt (hlost.live hlt hal').2 (by decide)]
    exact h.page x (hlost.isDir hdir)
  · intro x p hx hp hal' hown hpos
    obtain ⟨hold, hor⟩ := hlost.live hx hal'
    rw [hlost.ptr hx hor (by decide)] at hown
    rcases hlost.pages p hp (h.own x p hx hp hold hown hpos) with hset | ⟨hone, hgone⟩
    · exact hset
    · have hxi := h.apart x i hx hn hold hal (hown.trans hgone.symm) (by omega)
      rcases hor with hmore | hne
      · exact absurd hone hmore
      · exact absurd hxi hne
  · intro x y hx hy hxal hyal
    obtain ⟨hxold, hxor⟩ := hlost.live hx hxal
    obtain ⟨hyold, hyor⟩ := hlost.live hy hyal
    rw [hlost.ptr hx hxor (by decide), hlost.ptr hy hyor (by decide)]
    exact h.apart x y hx hy hxold hyold
  · intro p j hp2 hp hj
    by_cases hsame : p = P ∧ j = k
    · obtain ⟨rfl, rfl⟩ := hsame
      rw [hdrop.tail 59 (by decide) (by decide)]
      exact h.closed p j hp2 hp hj
    · rw [byte_entry hdrop.changed hbelow hp2 hk hj hsame (by decide)]
      exact h.closed p j hp2 hp hj
  · intro p j hp2 hp hj hfree
    by_cases hsame : p = P ∧ j = k
    · obtain ⟨rfl, rfl⟩ := hsame
      exact hdrop.zero
    · have hbyte := byte_entry hdrop.changed hbelow hp2 hk hj hsame (i := 0) (by decide)
      simp only [Int.natCast_zero, Int.add_zero] at hbyte
      rw [inum_entry hdrop.changed hbelow hp2 hk hj hsame]
      exact h.blank p j hp2 hp hj (by rwa [← hbyte])
  · intro p j hp2 hp hj
    by_cases hsame : p = P ∧ j = k
    · obtain ⟨rfl, rfl⟩ := hsame
      have hempty : nameAt m' p j = [] := nameAt_nil.mpr hdrop.free
      rw [hempty]
      exact Or.inl List.not_mem_nil
    · rw [nameAt_entry hdrop.changed hbelow hp2 hk hj hsame (h.closed p j hp2 hp hj)]
      exact h.names p j hp2 hp hj
  · have hrange := h.refs_range hn hal
    rw [hlost.live_set]
    refine h.counted.unlink hmem hslot (if_pos hdrop.free)
      (slots_entry hdrop.changed hbelow hk) ?_ ?_
    · intro hne
      have hpos : 0 < refs m i := by
        rw [h.counted.exact i ⟨i, hn, hal, rfl⟩]
        have hcard := Finset.card_pos.mpr ⟨(P, k), mem_holders.mpr ⟨hmem, hslot⟩⟩
        omega
      rw [(hdrop.more hne).2, bmod_of_lt (by omega) (by omega)]
    · rintro x ⟨n, hn', -, rfl⟩ hne
      exact hlost.counts n hn' fun heq => hne (by rw [heq])

theorem Tidy.drop (h : Tidy m) (h2 : 2 ≤ P) (hP : P < 256) (hk : k < 64) (hi : i < 256)
    (hused : m (direntName (pagesGetPage P) k) ≠ nul)
    (htarget : int32 m (direntInum (pagesGetPage P) k) = i) (hdrop : Dropped m m' P k i)
    (hkeep : i = 0 → refs m 0 ≠ 1) : Tidy m' := by
  have hlost := hdrop.lost h2 hi
  have hroot : refs m i ≠ 1 ∨ 0 ≠ i := by
    by_cases hi0 : i = 0
    · subst hi0
      exact Or.inl (hkeep rfl)
    · exact Or.inr (Ne.symm hi0)
  refine ⟨⟨h.toFormatted.drop h2 hP hk hi hused htarget hdrop, ?_, ?_⟩, ?_⟩
  · obtain ⟨h0, hlt, hal, hdir⟩ := h.root
    refine ⟨h0, hlt, ?_, ?_⟩
    · rw [show (0 : Int).toNat = 0 from rfl, Allocated, hlost.inodes 0 (by decide), if_neg]
      · exact hal
      · rintro ⟨hi0, hone⟩
        rcases hroot with hmore | hne
        · exact hmore hone
        · exact hne hi0
    · have hmode := hlost.nodes 0 (by decide) hroot Inode.mode (by decide) (by decide)
      rw [show getInode 0 = getInode ((0 : Nat) : Int) from rfl, hmode]
      exact hdir
  · rw [hlost.ptr (by decide) hroot (by decide)]
    exact h.rootPage
  · obtain ⟨j, hj, hfree⟩ := h.room
    by_cases hsame : 2 = P ∧ j = k
    · obtain ⟨rfl, rfl⟩ := hsame
      exact ⟨j, hj, hdrop.free⟩
    · have hbyte := byte_entry hdrop.changed (inodeArea_below hi) (by decide) hk hj hsame (i := 0)
        (by decide)
      simp only [Int.natCast_zero, Int.add_zero] at hbyte
      exact ⟨j, hj, hbyte.trans hfree⟩

end

/-! ## The calls -/

theorem streq_congr {m m' : Image} {a : Int} (h : ∀ x, a ≤ x → m' x = m x) (name : Str) :
    streq m' a name = streq m a name := by
  induction name generalizing a with
  | nil => simp only [streq, h a (Int.le_refl a)]
  | cons c cs ih =>
    simp only [streq, h a (Int.le_refl a)]
    rw [ih fun x hx => h x (by omega)]

section

variable {m m' : Image}

theorem direntBase_fresh {i : Nat} (hi : i < 256)
    (hclear : bit m getInodeBitmap i = false) (hf : Fresh m m' i) {cur : Int} (hdir : IsDir m cur) :
    direntBase m' (getInode cur) = direntBase m (getInode cur) := by
  obtain ⟨x, rfl, hx, hal, -⟩ := hdir.nat
  have hne : x ≠ i := fun heq => by
    rw [heq, Allocated, hclear] at hal
    cases hal
  rw [direntBase_eq, direntBase_eq, ptr_other hi hf.changed hx hne (by decide)]

theorem directoryLookup_fresh (h : Formatted m) {i : Nat} (hi : i < 256)
    (hclear : bit m getInodeBitmap i = false) (hf : Fresh m m' i) {cur : Int} (hdir : IsDir m cur)
    (name : Str) :
    directoryLookup m' (getInode cur) name = directoryLookup m (getInode cur) name := by
  have hbelow := inodeArea_below hi
  obtain ⟨-, p, -, -, -, h2, -, -, hbase⟩ := h.dir hdir
  have hbase' := (direntBase_fresh hi hclear hf hdir).trans hbase
  have hfind : findName m' (pagesGetPage p) name = findName m (pagesGetPage p) name := by
    unfold findName
    congr 1
    funext k
    apply streq_congr
    intro x hx
    apply hf.changed
    intro hmem
    have := hbelow x hmem
    simp only [direntName, pagesGetPage] at hx
    omega
  unfold directoryLookup
  dsimp only
  rw [hbase, hbase', hfind]
  cases findName m (pagesGetPage p) name with
  | none => rfl
  | some k => exact inum_below hf.changed hbelow h2

theorem DirWalk.lookupFrom_congr {cur : Int} {cs : List Str} (h : DirWalk m cur cs)
    (hlook : ∀ d name, IsDir m d →
      directoryLookup m' (getInode d) name = directoryLookup m (getInode d) name) :
    lookupFrom m' cur cs = lookupFrom m cur cs := by
  induction cs generalizing cur with
  | nil => rfl
  | cons base rest ih =>
    rw [lookupFrom_cons, lookupFrom_cons, hlook cur base h.1, ih h.2]

theorem DirWalk.isDir {cur : Int} {cs : List Str} (h : DirWalk m cur cs) :
    IsDir m (lookupFrom m cur cs) := by
  induction cs generalizing cur with
  | nil => exact h
  | cons base rest ih =>
    have hnext : 0 ≤ directoryLookup m (getInode cur) base := by
      cases rest with
      | nil => exact h.2.1
      | cons base' rest' => exact h.2.1.1
    have hnonneg : ¬ directoryLookup m (getInode cur) base < 0 := by omega
    rw [lookupFrom_cons, if_neg hnonneg]
    exact ih h.2

theorem DirPath.isDir {path : Path} (h : DirPath m path) : IsDir m (treeLookup m path) :=
  DirWalk.isDir h

/-- Where the last name is a slash, the parent is the root. -/
theorem Tidy.basename_slash (h : Tidy m) (path : Path) :
    slash ∉ path.basename ∨ treeLookup m path.dirname = 0 ∧ path.basename = [slash] := by
  rcases (basename_cases path).2.2 with hno | ⟨hbase, hdir⟩
  · exact Or.inl hno
  · refine Or.inr ⟨?_, hbase⟩
    unfold treeLookup
    rcases hdir with hone | htwo
    · have hsplit : sSplit path.dirname.text slash = [[]] := by rw [hone]; rfl
      rw [hsplit, lookupFrom_cons, h.lookup_empty]
      rfl
    · have hsplit : sSplit path.dirname.text slash = [[], []] := by rw [htwo]; rfl
      rw [hsplit, lookupFrom_cons, h.lookup_empty, if_neg (by decide), lookupFrom_cons,
        h.lookup_empty]
      rfl

theorem Tidy.directoryPut (h : Tidy m) {dir : Int} (hdir : IsDir m dir) {name : Str}
    (hne : name ≠ [])
    (hnul : nul ∉ name) (hslash : slash ∉ name ∨ dir = 0 ∧ name = [slash]) {i : Nat} (hi : i < 256)
    (hal : Allocated m i) (hroom : dir = 0 → 0 < directoryLookup m (getInode 0) name ∨
      60 < name.length ∨ 2 ≤ freeEntries m (getInode 0)) :
    Tidy (directoryPut m (getInode dir) name i).1 := by
  obtain ⟨d, P, rfl, hd, hdal, h2, hP, hptr, hbase⟩ := h.dir hdir
  rcases directoryPut_cases name hbase h2 hi with ⟨hsame, -⟩ | ⟨hlook, hlen, m', k, hput, hnew⟩
  · rw [hsame]
    exact h
  rw [hput]
  refine h.put h2 hP hi hal hnew hne hnul ?_ ?_
  · rcases hslash with hno | ⟨hd0, hname⟩
    · exact Or.inl hno
    · obtain rfl : d = 0 := by omega
      have hroot := h.rootPage
      exact Or.inr ⟨by omega, hname⟩
  · intro hP2
    obtain rfl : d = 0 := h.alone hd hdal (by omega)
    rcases hroom rfl with hpos | hlong | hfree
    · have : directoryLookup m (getInode 0) name ≤ 0 := hlook
      omega
    · omega
    · -- two free entries, and the new name takes one of them
      obtain ⟨j, hj, hjk⟩ := Finset.exists_mem_ne hfree k
      obtain ⟨hj64, hjfree⟩ := Finset.mem_filter.mp hj
      rw [h.root_base] at hjfree
      exact ⟨j, Finset.mem_range.mp hj64, hjk, hjfree⟩

theorem Tidy.directoryDelete (h : Tidy m) {dir : Int} (hdir : IsDir m dir) {name : Str}
    (hne : name ≠ [])
    (hnul : nul ∉ name) (hkeep : directoryLookup m (getInode dir) name = 0 → refs m 0 ≠ 1) :
    Tidy (directoryDelete m (getInode dir) name).1 := by
  obtain ⟨d, P, rfl, hd, hdal, h2, hP, hptr, hbase⟩ := h.dir hdir
  cases hfind : findName m (pagesGetPage P) name with
  | none =>
    rw [directoryDelete_missing hbase hfind]
    exact h
  | some k =>
    obtain ⟨hk, hsame, -⟩ := findName_some hfind
    have hused := streq_used hne hnul hsame
    obtain ⟨n, hn, hal, htarget⟩ := h.slot_live h2 hP hk hused
    obtain ⟨m', hdelete, hdrop⟩ :=
      directoryDelete_found hbase h2 hk hfind hn htarget (h.small n hn hal)
    rw [hdelete]
    refine h.drop h2 hP hk hn hused htarget hdrop fun hn0 => hkeep ?_
    rw [← hbase] at hfind
    rw [directoryLookup_some hfind, hbase, htarget, hn0]
    rfl

theorem Tidy.mknod (h : Tidy m) {path : Path} {mode : Int} (hlegal : DirPath m path.dirname)
    (hclear : (NameOp.mknod path mode).Clear m) : Tidy (storageMknod m path mode).1 := by
  unfold storageMknod
  by_cases habsent : treeLookup m path = -ENOENT
  · rw [if_neg (not_not_intro habsent)]
    obtain ⟨hroom, ⟨i₀, hi₀, hfree⟩, hpage⟩ := hclear habsent
    obtain ⟨m₁, i, hnew, hi, hiclear, hf⟩ : ∃ m₁, ∃ i : Nat,
        (if hasDirBit mode then directoryInit m else allocInode m) = (m₁, (i : Int)) ∧ i < 256 ∧
          bit m getInodeBitmap i = false ∧ Fresh m m₁ i := by
      by_cases hmode : hasDirBit mode = true
      · obtain ⟨p₀, hp₀, hpfree⟩ := hpage hmode
        obtain ⟨m₁, i, p, hi, hic, -, hp, hpc, -, hinit, hcreated⟩ :=
          directoryInit_cases hi₀ hfree hp₀ hpfree h.reserved.1
        have h2 : 2 ≤ p := by
          by_contra hlt
          have hp01 : p = 0 ∨ p = 1 := by omega
          rcases hp01 with rfl | rfl
          · rw [h.reserved.1] at hpc
            cases hpc
          · rw [h.reserved.2] at hpc
            cases hpc
        rw [if_pos hmode]
        exact ⟨m₁, i, hinit, hi, hic, hcreated.fresh hp h2 hpc⟩
      · rw [if_neg hmode]
        rcases allocInode_cases m with ⟨-, hfull⟩ | ⟨m₁, i, hi, hic, -, halloc, hcreated⟩
        · rw [hfull i₀ hi₀] at hfree
          cases hfree
        · exact ⟨m₁, i, halloc, hi, hic, hcreated.fresh⟩
    rw [hnew]
    dsimp only
    have h₁ := h.create hi hiclear hf
    have hdirnum : treeLookup m₁ path.dirname = treeLookup m path.dirname :=
      DirWalk.lookupFrom_congr hlegal fun d name hd =>
        directoryLookup_fresh h.toFormatted hi hiclear hf hd name
    obtain ⟨d, hd, hlt, hal, -⟩ := hlegal.isDir.nat
    have hdi : d ≠ i := fun heq => by
      rw [heq, Allocated, hiclear] at hal
      cases hal
    have hdir₁ : IsDir m₁ (treeLookup m path.dirname) := by
      rw [isDir_other hi hf (by omega)]
      exact hlegal.isDir
    have hfresh : Allocated m₁ i := by rw [Allocated, hf.inodes i hi, if_pos rfl]
    rw [hdirnum]
    refine h₁.directoryPut hdir₁ (basename_cases path).1 (basename_cases path).2.1
      (h.basename_slash path) hi hfresh fun hroot => ?_
    have hlook := directoryLookup_fresh h.toFormatted hi hiclear hf h.root path.basename
    have hcount : freeEntries m₁ (getInode 0) = freeEntries m (getInode 0) := by
      unfold freeEntries
      rw [h₁.root_base, h.root_base]
      congr 1
      apply Finset.filter_congr
      intro k _
      have hbyte := byte_below hf.changed (inodeArea_below hi) (p := 2) (k := k) (by decide) 0
      simp only [Int.natCast_zero, Int.add_zero] at hbyte
      rw [show ((2 : Nat) : Int) = 2 from rfl] at hbyte
      rw [hbyte]
    rw [hlook, hcount]
    exact hroom hroot
  · rw [if_pos habsent]
    exact h

theorem Tidy.link (h : Tidy m) {src dst : Path} (hsrc : Names m src) (hdst : DirPath m dst.dirname)
    (hroom : RootRoom m dst) : Tidy (storageLink m src dst).1 := by
  unfold storageLink
  dsimp only
  by_cases hfirst : treeLookup m src < 0
  · rw [if_pos hfirst]
    exact h
  rw [if_neg hfirst]
  by_cases hsecond : treeLookup m dst > 0
  · rw [if_pos hsecond]
    exact h
  have hnonneg : ¬ treeLookup m dst.dirname < 0 := by
    have := hdst.isDir.1
    omega
  rw [if_neg hsecond, if_neg hnonneg]
  rcases hsrc with hneg | ⟨hlt, hal⟩
  · exact absurd hneg hfirst
  obtain ⟨i, hi⟩ : ∃ i : Nat, treeLookup m src = i := ⟨(treeLookup m src).toNat, by omega⟩
  rw [hi] at hlt hal ⊢
  exact h.directoryPut hdst.isDir (basename_cases dst).1 (basename_cases dst).2.1
    (h.basename_slash dst) (by omega) hal hroom

theorem Tidy.unlink (h : Tidy m) {path : Path} (hdir : DirPath m path.dirname)
    (hkeep : KeepsRoot m path) : Tidy (storageUnlink m path).1 :=
  h.directoryDelete hdir.isDir (basename_cases path).1 (basename_cases path).2.1 hkeep

theorem Tidy.rename (h : Tidy m) {src dst : Path} (hlegal : (NameOp.rename src dst).Legal m)
    (hclear : (NameOp.rename src dst).Clear m) : Tidy (storageRename m src dst).1 := by
  obtain ⟨hsrc, -, hdst⟩ := hlegal
  obtain ⟨hroom, hsecond⟩ := hclear
  have hlinked := h.link hsrc hdst hroom
  unfold storageRename
  cases hlink : storageLink m src dst with
  | mk m₁ rv =>
    rw [hlink] at hlinked hsecond
    dsimp only at hlinked hsecond ⊢
    by_cases hneg : rv < 0
    · rw [if_pos hneg]
      exact hlinked
    · rw [if_neg hneg]
      obtain ⟨hdir, hkeep⟩ := hsecond (by omega)
      exact hlinked.unlink hdir hkeep

theorem Tidy.step (h : Tidy m) {op : NameOp} (hlegal : op.Legal m) (hclear : op.Clear m) :
    Tidy (op.step m) := by
  cases op with
  | mknod path mode => exact h.mknod hlegal hclear
  | link src dst => exact h.link hlegal.1 hlegal.2 hclear
  | unlink path => exact h.unlink hlegal.2 hclear
  | rename src dst => exact h.rename hlegal hclear

theorem Tidy.run (h : Tidy m) (ops : List NameOp)
    (hlegal : AlongNames (fun m op => op.Legal m) m ops)
    (hclear : AlongNames (fun m op => op.Clear m) m ops) : Tidy (runNameOps m ops) := by
  induction ops generalizing m with
  | nil => exact h
  | cons op ops ih => exact ih (h.step hlegal.1 hclear.1) hlegal.2 hclear.2

end

/-! ## A new image -/

theorem byte_pagesInit (m : Image) {x : Int} (h1 : 1 ≤ x) (hx : x < NUFS_SIZE) :
    pagesInit m x = 0 := by
  rw [(pagesInit_spec m).1 x (by simp only [mem_span]; omega)]
  unfold fill patch
  rw [if_pos]
  omega

theorem pagesInit_formatted (m : Image) : Formatted (pagesInit m) := by
  have hpages := (pagesInit_spec m).2
  have hnone : ∀ i < 256, ¬ Allocated (pagesInit m) i := fun i hi hal => by
    rw [Allocated, inodeBit_pagesInit m hi] at hal
    cases hal
  have hname : ∀ p k : Nat, 2 ≤ p → p < 256 → k < 64 → ∀ j : Nat, j < 64 →
      pagesInit m (direntName (pagesGetPage p) k + j) = 0 := by
    intro p k h2 hp hk j hj
    apply byte_pagesInit
    · simp only [direntName, pagesGetPage]
      omega
    · simp only [direntName, pagesGetPage, NUFS_SIZE]
      omega
  have hfree : ∀ p k : Nat, 2 ≤ p → p < 256 → k < 64 →
      pagesInit m (direntName (pagesGetPage p) k) = nul := by
    intro p k h2 hp hk
    have hbyte := hname p k h2 hp hk 0 (by decide)
    rwa [Int.natCast_zero, Int.add_zero] at hbyte
  refine ⟨?_, ?_, ?_, ?_, ?_, ?_, ?_, ?_, ?_, ?_⟩
  · rw [hpages 0 (by decide), hpages 1 (by decide)]
    decide
  · exact fun i hi hal => absurd hal (hnone i hi)
  · intro i hdir
    obtain ⟨j, -, hj, hal, -⟩ := hdir.nat
    exact absurd hal (hnone j hj)
  · exact fun i p hi _ hal => absurd hal (hnone i hi)
  · exact fun i j hi _ hal => absurd hal (hnone i hi)
  · exact fun p k h2 hp hk => hname p k h2 hp hk 59 (by decide)
  · intro p k h2 hp hk _
    apply int32_zero
    intro x hx
    simp only [direntInum, pagesGetPage, mem_span] at hx
    apply byte_pagesInit
    · omega
    · simp only [NUFS_SIZE]
      omega
  · intro p k h2 hp hk
    have hempty : nameAt (pagesInit m) p k = [] := nameAt_nil.mpr (hfree p k h2 hp hk)
    rw [hempty]
    exact Or.inl List.not_mem_nil
  · rintro i ⟨n, hn, hal, -⟩
    exact absurd hal (hnone n hn)
  · rintro ⟨p, k⟩ hr i hi
    obtain ⟨h2, hp, hk⟩ := mem_pageSlots.mp hr
    have hslot : pageSlot (pagesInit m) (p, k) = none := if_pos (hfree p k h2 hp hk)
    rw [hslot] at hi
    cases hi

theorem storageInit_cases (m : Image) :
    ∃ m', storageInit m = m' ∧ CreatedDir (pagesInit m) m' 0 2 := by
  have hpages := (pagesInit_spec m).2
  obtain ⟨m', i, p, hi, -, hless, hp, hpclear, hpless, hinit, hcreated⟩ :=
    @directoryInit_cases (pagesInit m) 0 2 (by decide)
      (inodeBit_pagesInit m (by decide)) (by decide) (by rw [hpages 2 (by decide)]; decide)
      (by rw [hpages 0 (by decide)]; decide)
  have hi0 : i = 0 := by
    by_contra hne
    have hset := hless 0 (by omega)
    rw [inodeBit_pagesInit m (by decide)] at hset
    cases hset
  have hp2 : p = 2 := by
    rw [hpages p hp] at hpclear
    have hge : ¬ p < 2 := by simpa using hpclear
    by_contra hne
    have hset := hpless 2 (by omega)
    rw [hpages 2 (by decide)] at hset
    cases hset
  subst hi0 hp2
  exact ⟨m', fst_of_eq hinit, hcreated⟩

theorem storageInit_tidy (m : Image) : Tidy (storageInit m) := by
  obtain ⟨m', hinit, hcreated⟩ := storageInit_cases m
  have hpages := (pagesInit_spec m).2
  have hf := hcreated.fresh (by decide) (by decide) (by rw [hpages 2 (by decide)]; decide)
  have h := (pagesInit_formatted m).create (by decide) (inodeBit_pagesInit m (by decide)) hf
  rw [hinit]
  refine ⟨⟨h, ?_, ?_⟩, 0, by decide, ?_⟩
  · refine ⟨by decide, by decide, ?_, ?_⟩
    · rw [show (0 : Int).toNat = 0 from rfl, Allocated, hcreated.inodes 0 (by decide), if_pos rfl]
    · have hmode := hcreated.mode
      rw [Int.natCast_zero] at hmode
      rw [hmode]
      decide
  · exact hcreated.ptrs 0 (by decide)
  · have hbyte :=
      byte_below hcreated.changed (inodeArea_below (by decide)) (p := 2) (k := 0) (by decide) 0
    simp only [Int.natCast_zero, Int.add_zero] at hbyte
    refine hbyte.trans (byte_pagesInit m ?_ ?_)
    · decide
    · decide

/-- In every run that stays clear of the defects. -/
theorem clear_run_namespace (m : Image) (ops : List NameOp)
    (hlegal : AlongNames (fun m op => op.Legal m) (storageInit m) ops)
    (hclear : AlongNames (fun m op => op.Clear m) (storageInit m) ops) :
    Namespace (runNameOps (storageInit m) ops) :=
  ((storageInit_tidy m).run ops hlegal hclear).holds

/-- A directory, a file in it, a second name for the file, and the first one gone. -/
theorem directory_run_namespace : Namespace (runNameOps (storageInit fun _ => 0)
    [.mknod ⟨[47, 100], rfl, by decide⟩ 0o40755,
      .mknod ⟨[47, 100, 47, 102], rfl, by decide⟩ 0o100644,
      .link ⟨[47, 100, 47, 102], rfl, by decide⟩ ⟨[47, 103], rfl, by decide⟩,
      .rename ⟨[47, 103], rfl, by decide⟩ ⟨[47, 100, 47, 104], rfl, by decide⟩,
      .unlink ⟨[47, 100, 47, 102], rfl, by decide⟩]) := by
  generalize hops : [NameOp.mknod ⟨[47, 100], rfl, by decide⟩ 0o40755,
    .mknod ⟨[47, 100, 47, 102], rfl, by decide⟩ 0o100644,
    .link ⟨[47, 100, 47, 102], rfl, by decide⟩ ⟨[47, 103], rfl, by decide⟩,
    .rename ⟨[47, 103], rfl, by decide⟩ ⟨[47, 100, 47, 104], rfl, by decide⟩,
    .unlink ⟨[47, 100, 47, 102], rfl, by decide⟩] = ops
  have hfacts : AlongNames (fun m op => op.Legal m) (storageInit fun _ => 0) ops ∧
      AlongNames (fun m op => op.Clear m) (storageInit fun _ => 0) ops := by
    subst hops
    decide +kernel
  exact clear_run_namespace (fun _ => 0) ops hfacts.1 hfacts.2

end Cs3650.Nufs
