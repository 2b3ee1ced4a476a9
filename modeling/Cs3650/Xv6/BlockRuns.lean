import Cs3650.Xv6.BlockFiles

/-!
# Runs of the file system on blocks

`itrunc` gives back the blocks of a file, each once, and `ialloc` takes an inode
that has none. So over any run the files are lists of bytes that only the calls
on them change, and the bitmap has the blocks that are held and no others.
-/

namespace Cs3650.Xv6.Blocks

open Cs3650.Lib

section Trunc

variable {sb : Superblock} {fs fs' : Fs} {i j b : Nat} {P : List Nat}

theorem bfree_eq (hb : b ∈ used sb fs.disk) : bfree sb fs b = some (markFree sb fs b) := by
  rw [bfree, if_pos hb.2]

theorem used_markFree (x : Nat) : x ∈ used sb (markFree sb fs b).disk ↔
    x ≠ b ∧ x ∈ used sb fs.disk := by
  simp only [used, Set.mem_ofPred_eq, inUse_markFree]
  by_cases hx : x = b
  · simp [hx]
  · simp [hx]

theorem markFree_disk (hb : b < sb.size) {c : Nat} (hc : c < sb.bmapstart ∨ sb.nmeta ≤ c) :
    (markFree sb fs b).disk c = fs.disk c := by
  have hlt := bblock_lt hb
  have hle : sb.bmapstart ≤ bblock sb b := le_bblock
  exact Function.update_of_ne (by omega) _ _

/-- `itrunc` is under way: the blocks in the places `P` of the inode are free. -/
structure Freeing (sb : Superblock) (fs fs' : Fs) (i : Nat) (P : List Nat) : Prop where
  owned : Exact (reserved sb) (used sb fs'.disk) fun p =>
    if p.1 = i ∧ p.2 ∈ P then none else holds fs p
  disk : ∀ c, c < sb.bmapstart ∨ sb.nmeta ≤ c → fs'.disk c = fs.disk c
  inode : ∀ i', i' ≠ i → fs'.inode i' = fs.inode i'
  same : ∃ a, fs'.inode i = { fs.inode i with addrs := a }

theorem Freeing.start (ho : Owned sb fs) (i : Nat) : Freeing sb fs fs i [] where
  owned := by
    simp only [List.not_mem_nil, and_false, if_false]
    exact ho
  disk := fun _ _ => rfl
  inode := fun _ _ => rfl
  same := ⟨(fs.inode i).addrs, rfl⟩

/-- A block that is held in a place not freed yet is freed: there is no panic. -/
theorem Freeing.free (h : Freeing sb fs fs' i P) (hj : j ∉ P) (hne : addrAt fs i j ≠ 0) :
    ∃ fs'', bfree sb fs' (addrAt fs i j) = some fs'' ∧ Freeing sb fs fs'' i (j :: P) ∧
    fs''.inode = fs'.inode := by
  have hheld : (fun p : Nat × Nat => if p.1 = i ∧ p.2 ∈ P then none else holds fs p) (i, j) =
      some (addrAt fs i j) := by
    simp only [true_and, hj, if_false]
    exact holds_of_ne hne
  have hused := h.owned.used_of_holds hheld
  refine ⟨_, bfree_eq hused, ⟨?_, ?_, h.inode, h.same⟩, rfl⟩
  · refine h.owned.release hheld used_markFree ?_ ?_
    · simp
    · intro p hp
      have hiff : (p.1 = i ∧ p.2 ∈ j :: P) ↔ p.1 = i ∧ p.2 ∈ P := by
        constructor
        · intro hall
          refine ⟨hall.1, (List.mem_cons.mp hall.2).resolve_left fun hpj =>
            hp (Prod.ext hall.1 hpj)⟩
        · exact fun hall => ⟨hall.1, List.mem_cons_of_mem _ hall.2⟩
      simp only [hiff]
  · intro c hc
    rw [markFree_disk hused.1 hc]
    exact h.disk c hc

theorem Freeing.skip (h : Freeing sb fs fs' i P) (hzero : addrAt fs i j = 0) :
    Freeing sb fs fs' i (j :: P) where
  owned := by
    have hsame : (fun p : Nat × Nat => if p.1 = i ∧ p.2 ∈ j :: P then none else holds fs p) =
        fun p => if p.1 = i ∧ p.2 ∈ P then none else holds fs p := by
      funext p
      by_cases hp : p.1 = i ∧ p.2 = j
      · have hnone : holds fs p = none := by
          rw [show p = (i, j) from Prod.ext hp.1 hp.2]
          exact holds_none.mpr hzero
        simp [hnone]
      · have hiff : (p.1 = i ∧ p.2 ∈ j :: P) ↔ p.1 = i ∧ p.2 ∈ P := by
          constructor
          · intro hall
            refine ⟨hall.1, (List.mem_cons.mp hall.2).resolve_left fun hpj => hp ⟨hall.1, hpj⟩⟩
          · exact fun hall => ⟨hall.1, List.mem_cons_of_mem _ hall.2⟩
        simp only [hiff]
    rw [hsame]
    exact h.owned
  disk := h.disk
  inode := h.inode
  same := h.same

theorem Freeing.setAddr (h : Freeing sb fs fs' i P) (j a : Nat) :
    Freeing sb fs (fs'.setInode i ((fs'.inode i).setAddr j a)) i P where
  owned := h.owned
  disk := h.disk
  inode := by
    intro i' hi
    simp only [Fs.setInode, Function.update_of_ne hi]
    exact h.inode i' hi
  same := by
    obtain ⟨a', ha⟩ := h.same
    exact ⟨_, by simp only [Fs.setInode, Function.update_self, Dinode.setAddr, ha]; rfl⟩

theorem truncDirect_spec {js : List Nat} (h : Freeing sb fs fs' i P) (hnodup : js.Nodup)
    (hjs : ∀ j ∈ js, j ∉ P ∧ j < NDIRECT ∧ (fs'.inode i).addr j = (fs.inode i).addr j) :
    ∃ fs'' Q, truncDirect sb i js fs' = some fs'' ∧ Freeing sb fs fs'' i Q ∧
    (∀ j, j ∈ Q ↔ j ∈ js ∨ j ∈ P) ∧
      ∀ j, (fs''.inode i).addr j = if j ∈ js then 0 else (fs'.inode i).addr j := by
  induction js generalizing fs' P with
  | nil => exact ⟨fs', P, rfl, h, by simp, by simp⟩
  | cons j js ih =>
    obtain ⟨hnot, hlt, haddr⟩ := hjs j (List.mem_cons_self ..)
    obtain ⟨hjnot, hnodup⟩ := List.nodup_cons.mp hnodup
    have hat : addrAt fs i j = (fs'.inode i).addr j := by rw [addrAt_le hlt.le, haddr]
    have hrest (k : Nat) (hk : k ∈ js) :
        k ∉ j :: P ∧ k < NDIRECT ∧ (fs'.inode i).addr k = (fs.inode i).addr k := by
      obtain ⟨hkP, hklt, hkaddr⟩ := hjs k (List.mem_cons_of_mem _ hk)
      refine ⟨fun hmem => ?_, hklt, hkaddr⟩
      cases List.mem_cons.mp hmem with
      | inl heq => exact hjnot (heq ▸ hk)
      | inr hmem => exact hkP hmem
    have hmem (Q : List Nat) (hQ : ∀ k, k ∈ Q ↔ k ∈ js ∨ k ∈ j :: P) (k : Nat) :
        k ∈ Q ↔ k ∈ j :: js ∨ k ∈ P := by
      rw [hQ, List.mem_cons, List.mem_cons]
      tauto
    by_cases hzero : (fs'.inode i).addr j = 0
    · obtain ⟨fs'', Q, hrun, hfree, hQ, haddrs⟩ := ih (h.skip (hat.trans hzero)) hnodup hrest
      refine ⟨fs'', Q, ?_, hfree, hmem Q hQ, ?_⟩
      · rw [truncDirect, if_pos hzero, hrun]
      · intro k
        rw [haddrs]
        by_cases hk : k = j
        · subst hk
          simp [hzero, hjnot]
        · simp [hk]
    · obtain ⟨fs₁, hbfree, hfreeing, hinode⟩ := h.free hnot (hat ▸ hzero)
      rw [hat] at hbfree
      have hlt13 : j < 13 := Nat.lt_succ_of_lt hlt
      have haddr₁ (k : Nat) : ((fs₁.setInode i ((fs₁.inode i).setAddr j 0)).inode i).addr k =
          if k = j then 0 else (fs'.inode i).addr k := by
        simp only [Fs.setInode, Function.update_self]
        rw [addr_setAddr _ _ hlt13, hinode]
      have hrest₁ (k : Nat) (hk : k ∈ js) : k ∉ j :: P ∧ k < NDIRECT ∧
          ((fs₁.setInode i ((fs₁.inode i).setAddr j 0)).inode i).addr k = (fs.inode i).addr k := by
        obtain ⟨h1, h2, h3⟩ := hrest k hk
        have hkj : k ≠ j := fun heq => hjnot (heq ▸ hk)
        exact ⟨h1, h2, by rw [haddr₁, if_neg hkj, h3]⟩
      obtain ⟨fs'', Q, hrun, hfree, hQ, haddrs⟩ := ih (hfreeing.setAddr j 0) hnodup hrest₁
      refine ⟨fs'', Q, ?_, hfree, hmem Q hQ, ?_⟩
      · rw [truncDirect, if_neg hzero, hbfree, Option.bind_some, hrun]
      · intro k
        rw [haddrs, haddr₁]
        by_cases hk : k = j
        · simp [hk]
        · simp [hk]

theorem truncEntries_spec {js : List Nat} (ho : Owned sb fs) (h : Freeing sb fs fs' i P)
    (hnodup : js.Nodup)
    (htable : (fs.inode i).addr NDIRECT ≠ 0) (hjs : ∀ j ∈ js, NDIRECT + 1 + j ∉ P ∧ j < NINDIRECT) :
    ∃ fs'' Q, truncEntries sb ((fs.inode i).addr NDIRECT) js fs' = some fs'' ∧
    Freeing sb fs fs'' i Q ∧
      (∀ k, k ∈ Q ↔ (∃ j ∈ js, k = NDIRECT + 1 + j) ∨ k ∈ P) ∧ fs''.inode = fs'.inode := by
  have hdata : sb.nmeta ≤ (fs.inode i).addr NDIRECT := by
    have hle := ho.data (i := i) (j := NDIRECT) (by rwa [addrAt_le (le_refl _)])
    rwa [addrAt_le (le_refl _)] at hle
  induction js generalizing fs' P with
  | nil => exact ⟨fs', P, rfl, h, by simp, rfl⟩
  | cons j js ih =>
    obtain ⟨hnot, hlt⟩ := hjs j (List.mem_cons_self ..)
    obtain ⟨hjnot, hnodup⟩ := List.nodup_cons.mp hnodup
    have hat : addrAt fs i (NDIRECT + 1 + j) = entry (fs'.disk ((fs.inode i).addr NDIRECT)) j := by
      rw [addrAt_entry hlt htable, h.disk _ (.inr hdata)]
    have hrest (k : Nat) (hk : k ∈ js) :
        NDIRECT + 1 + k ∉ (NDIRECT + 1 + j) :: P ∧ k < NINDIRECT := by
      obtain ⟨hkP, hklt⟩ := hjs k (List.mem_cons_of_mem _ hk)
      refine ⟨fun hmem => ?_, hklt⟩
      cases List.mem_cons.mp hmem with
      | inl heq =>
        obtain rfl : k = j := by omega
        exact hjnot hk
      | inr hmem => exact hkP hmem
    have hmem (Q : List Nat) (hQ : ∀ k, k ∈ Q ↔
        (∃ j' ∈ js, k = NDIRECT + 1 + j') ∨ k ∈ (NDIRECT + 1 + j) :: P) (k : Nat) : k ∈ Q ↔
        (∃ j' ∈ j :: js, k = NDIRECT + 1 + j') ∨ k ∈ P := by
      rw [hQ, List.mem_cons]
      simp only [List.mem_cons, exists_eq_or_imp]
      exact or_left_comm.trans or_assoc.symm
    by_cases hzero : entry (fs'.disk ((fs.inode i).addr NDIRECT)) j = 0
    · obtain ⟨fs'', Q, hrun, hfree, hQ, hinode⟩ := ih (h.skip (hat.trans hzero)) hnodup hrest
      refine ⟨fs'', Q, ?_, hfree, hmem Q hQ, hinode⟩
      rw [truncEntries, if_pos hzero, hrun]
    · obtain ⟨fs₁, hbfree, hfreeing, hinode₁⟩ := h.free hnot (hat ▸ hzero)
      rw [hat] at hbfree
      obtain ⟨fs'', Q, hrun, hfree, hQ, hinode⟩ := ih hfreeing hnodup hrest
      refine ⟨fs'', Q, ?_, hfree, hmem Q hQ, hinode.trans hinode₁⟩
      rw [truncEntries, if_neg hzero, hbfree, Option.bind_some, hrun]

/-- Every block of the inode is free, and no number is left. -/
theorem trunc_spec (ho : Owned sb fs) (i : Nat) : ∃ fs' Q,
    (truncDirect sb i (List.range NDIRECT) fs).bind (truncIndirect sb i) = some fs' ∧
    Freeing sb fs fs' i Q ∧
      (∀ j, j ∈ Q ∨ addrAt fs i j = 0) ∧ ∀ j, (fs'.inode i).addr j = 0 := by
  obtain ⟨fs₁, Q₁, hrun₁, hfree₁, hQ₁, haddr₁⟩ := truncDirect_spec (Freeing.start ho i)
    (List.nodup_range (n := NDIRECT)) fun j hj => ⟨by simp, List.mem_range.mp hj, rfl⟩
  have htable₁ : (fs₁.inode i).addr NDIRECT = (fs.inode i).addr NDIRECT := by
    rw [haddr₁, if_neg (by simp)]
  have hlast (j : Nat) (hj : NDIRECT < j) : (fs.inode i).addr j = 0 := by
    have hge : ¬ j < 13 := by
      simp only [NDIRECT] at hj
      omega
    simp only [Dinode.addr, hge, dite_false]
  rw [hrun₁, Option.bind_some, truncIndirect]
  by_cases htable : (fs₁.inode i).addr NDIRECT = 0
  · refine ⟨fs₁, Q₁, by rw [if_pos htable], hfree₁, ?_, ?_⟩
    · intro j
      by_cases hj : j < NDIRECT
      · exact .inl ((hQ₁ j).mpr (.inl (List.mem_range.mpr hj)))
      · rw [htable₁] at htable
        by_cases hle : j ≤ NDIRECT
        · obtain rfl : j = NDIRECT := by omega
          exact .inr (by rw [addrAt_le (le_refl _), htable])
        · exact .inr (by simp only [addrAt, hle, if_false, htable, true_or, if_true])
    · intro j
      rw [haddr₁]
      split
      · rfl
      · next hj =>
        rw [List.mem_range] at hj
        by_cases hle : j ≤ NDIRECT
        · obtain rfl : j = NDIRECT := by omega
          rw [← htable₁, htable]
        · exact hlast j (by omega)
  · have htable₀ : (fs.inode i).addr NDIRECT ≠ 0 := by rwa [← htable₁]
    obtain ⟨fs₂, Q₂, hrun₂, hfree₂, hQ₂, hinode₂⟩ := truncEntries_spec ho hfree₁
      (List.nodup_range (n := NINDIRECT)) htable₀ fun j hj => ⟨fun hmem => by
        have hmem' := (hQ₁ _).mp hmem
        simp only [List.mem_range, List.not_mem_nil, or_false] at hmem'
        omega, List.mem_range.mp hj⟩
    have hnot : NDIRECT ∉ Q₂ := by
      intro hmem
      rcases (hQ₂ NDIRECT).mp hmem with ⟨j, -, heq⟩ | hmem
      · omega
      · have hmem' := (hQ₁ _).mp hmem
        simp at hmem'
    have hat : addrAt fs i NDIRECT = (fs.inode i).addr NDIRECT := addrAt_le (le_refl _)
    obtain ⟨fs₃, hbfree, hfree₃, hinode₃⟩ := hfree₂.free hnot (by rwa [hat])
    rw [hat] at hbfree
    refine ⟨fs₃.setInode i ((fs₃.inode i).setAddr NDIRECT 0), NDIRECT :: Q₂, ?_,
      hfree₃.setAddr NDIRECT 0, ?_, ?_⟩
    · rw [if_neg htable, htable₁, hrun₂, Option.bind_some, hbfree, Option.map_some]
    · intro j
      by_cases hj : j < NDIRECT
      · left
        have hQ₁j := (hQ₁ j).mpr (.inl (List.mem_range.mpr hj))
        exact List.mem_cons_of_mem _ ((hQ₂ j).mpr (.inr hQ₁j))
      · rcases addrAt_cases fs i j with hle | hz | ⟨k, hk, rfl, -⟩
        · obtain rfl : j = NDIRECT := by omega
          exact .inl (List.mem_cons_self ..)
        · exact .inr hz.1
        · left
          exact List.mem_cons_of_mem _ ((hQ₂ _).mpr (.inl ⟨k, List.mem_range.mpr hk, rfl⟩))
    · intro j
      simp only [Fs.setInode, Function.update_self]
      rw [addr_setAddr _ _ (by decide), hinode₃, hinode₂, haddr₁]
      by_cases hj : j = NDIRECT
      · rw [if_pos hj]
      · rw [if_neg hj]
        split
        · rfl
        · next hjr =>
          rw [List.mem_range] at hjr
          exact hlast j (by omega)

end Trunc

section Calls

variable {sb : Superblock} {fs fs' : Fs} {i j off n : Nat} {src : List Byte}

theorem addrAt_of_zero (hzero : ∀ j, (fs.inode i).addr j = 0) : addrAt fs i j = 0 := by
  by_cases hle : j ≤ NDIRECT
  · rw [addrAt_le hle, hzero]
  · simp only [addrAt, hle, if_false, hzero, true_or, if_true]

theorem blocks_zero : blocks 0 = 0 := rfl

/-- An inode with no blocks. -/
theorem holding_zero (ho : Owned sb fs) (hzero : ∀ j, (fs.inode i).addr j = 0) :
    Holding sb fs i (blocks 0) where
  owned := ho
  max := Nat.zero_le _
  table := by simp [hzero, blocks_zero]
  mapped := by
    intro bn _
    simp [addrAt_of_zero hzero, blocks_zero]

/-- `itrunc` does not panic, empties the file and leaves the others alone. -/
theorem itrunc_spec (h : Ok sb fs) (hi : i < sb.ninodes) :
    ∃ fs', itrunc sb fs i = some fs' ∧ Ok sb fs' ∧
    (∀ i', i' ≠ i → Untouched fs fs' i') ∧ (fs'.inode i).size = 0 ∧
    ∀ j, (fs'.inode i).addr j = 0 := by
  obtain ⟨fs₁, Q, hrun, hfree, hall, hzero⟩ := trunc_spec h.owned i
  have hframe : Frame sb fs fs₁ i := by
    refine ⟨hfree.inode, hfree.same, fun c hc => hfree.disk c (.inl hc), ?_⟩
    exact fun i' j' _ hne => hfree.disk _ (.inr (h.owned.data hne))
  have hholds :
      (fun p : Nat × Nat => if p.1 = i ∧ p.2 ∈ Q then none else holds fs p) = holds fs₁ := by
    funext p
    obtain ⟨i', j'⟩ := p
    by_cases hp : i' = i
    · subst hp
      rw [holds_none.mpr (addrAt_of_zero hzero)]
      rcases hall j' with hmem | hempty
      · simp [hmem]
      · simp [holds_none.mpr hempty]
    · simp only [hp, false_and, if_false, holds, hframe.addrAt_eq hp]
  have ho : Owned sb fs₁ := by
    have howned := hfree.owned
    rwa [hholds] at howned
  obtain ⟨a, ha⟩ := hfree.same
  have hs := h.small i
  have hsmall : ({ fs₁.inode i with size := 0 } : Dinode).Small := by
    rw [ha]
    exact ⟨hs.type, hs.major, hs.minor, hs.nlink⟩
  obtain ⟨hok, hother, -⟩ :=
    hframe.save_ok h hi (d := { fs₁.inode i with size := 0 }) rfl (holding_zero ho hzero) hsmall
      (Nat.zero_le _) fun _ => rfl
  have hinode :
      (save sb fs₁ i { fs₁.inode i with size := 0 }).inode i = { fs₁.inode i with size := 0 } := by
    rw [save_inode, if_pos rfl]
  refine ⟨_, congrArg (Option.map _) hrun, hok, hother, ?_, ?_⟩
  · exact congrArg Dinode.size hinode
  · exact fun j => (save_addr (d := { fs₁.inode i with size := 0 }) rfl i j).trans (hzero j)

theorem ifree_spec (h : Ok sb fs) (hi : i < sb.ninodes) :
    ∃ fs', ifree sb fs i = some fs' ∧ Ok sb fs' ∧
    (∀ i', i' ≠ i → Untouched fs fs' i') ∧ (fs'.inode i).type = 0 ∧ ∀ j, addrAt fs' i j = 0 := by
  obtain ⟨fs₁, hrun, hok₁, hother₁, hsize, hzero⟩ := itrunc_spec h hi
  have hs := hok₁.small i
  obtain ⟨hok, hother, -⟩ :=
    (Frame.refl sb fs₁ i).save_ok hok₁ hi (d := { fs₁.inode i with type := 0 }) rfl (hok₁.holding i)
      ⟨Nat.two_pow_pos 16, hs.major, hs.minor, hs.nlink⟩ (hok₁.max i) fun _ => hsize
  have hinode :
      (save sb fs₁ i { fs₁.inode i with type := 0 }).inode i = { fs₁.inode i with type := 0 } := by
    rw [save_inode, if_pos rfl]
  refine ⟨_, congrArg (Option.map _) hrun, hok, ?_, congrArg Dinode.type hinode, ?_⟩
  · exact fun i' hne => (hother₁ i' hne).trans (hother i' hne)
  · intro j
    exact addrAt_of_zero fun k =>
      (save_addr (d := { fs₁.inode i with type := 0 }) rfl i k).trans (hzero k)

/-- `ialloc` takes an inode that is free and has no blocks. -/
theorem ialloc_spec (h : Ok sb fs) {type : Nat} (hsmall : type < 2 ^ 16)
    (hrun : ialloc sb fs type = some (fs', i)) :
    i < sb.ninodes ∧ (fs.inode i).type = 0 ∧ Ok sb fs' ∧ (∀ i', i' ≠ i → Untouched fs fs' i') ∧
      (fs'.inode i).type = type ∧ contents fs' i = [] := by
  unfold ialloc at hrun
  split at hrun
  · next i₁ hfind =>
    have hlt := List.mem_range.mp (List.mem_of_find?_eq_some hfind)
    have hfree := List.find?_some hfind
    simp only [Bool.and_eq_true, decide_eq_true_eq, beq_iff_eq] at hfree
    rw [h.synced i₁ hlt] at hfree
    have hempty := h.free i₁ hfree.2
    have hheld := h.holding i₁
    rw [hempty] at hheld
    have hzero (j : Nat) : (fs.inode i₁).addr j = 0 := by
      by_contra hne
      have hj : j ≤ NDIRECT := by
        by_contra hj
        have hge : ¬ j < 13 := fun hj13 => hj (Nat.le_of_lt_succ hj13)
        exact hne (by simp only [Dinode.addr, hge, dite_false])
      by_cases hjn : j = NDIRECT
      · subst hjn
        exact absurd (hheld.table.mp hne) (by decide)
      · have hjlt : j < NDIRECT := by omega
        rw [← addrAt_le hj, ← place_lt hjlt] at hne
        exact absurd ((hheld.mapped j (by omega)).mp hne) (by simp [blocks, BSIZE])
    have haddrs : (fun _ : Fin 13 => 0) = (fs.inode i₁).addrs := by
      funext k
      have hk := hzero k.val
      simp only [Dinode.addr, k.isLt, dite_true] at hk
      exact hk.symm
    let d : Dinode := { Dinode.zero with type := type }
    obtain ⟨hok, hother, -⟩ :=
      (Frame.refl sb fs i₁).save_ok h hlt (d := d) haddrs (holding_zero h.owned hzero) ⟨hsmall,
        Nat.two_pow_pos 16, Nat.two_pow_pos 16, Nat.two_pow_pos 16⟩ (Nat.zero_le _) fun _ => rfl
    have hput :=
      @dinode_putInode sb fs i₁ d ⟨hsmall, Nat.two_pow_pos 16, Nat.two_pow_pos 16,
        Nat.two_pow_pos 16⟩
      (Nat.two_pow_pos 32) (fun j => by simp [d, Dinode.zero, Dinode.addr]) i₁
    rw [if_pos rfl] at hput
    have hsave : fs' = save sb fs i₁ d ∧ i = i₁ := by
      simp only [reload, Option.some.injEq, Prod.mk.injEq] at hrun
      obtain ⟨rfl, rfl⟩ := hrun
      refine ⟨?_, rfl⟩
      have hd : dinode sb
          (fs.setBlock (iblock sb i₁) (putInode (fs.disk (iblock sb i₁)) (ioffset i₁) d)).disk i₁ =
            d := hput
      simp only [save, iupdate, Fs.setInode, Fs.setBlock, Function.update_self]
      simp only [Fs.setBlock] at hd
      exact congrArg (fun x => Fs.mk _ (Function.update fs.inode i₁ x)) hd
    obtain ⟨rfl, rfl⟩ := hsave
    have hinode : (save sb fs i d).inode i = d := by rw [save_inode, if_pos rfl]
    refine ⟨hlt, hfree.2, hok, hother, congrArg Dinode.type hinode, ?_⟩
    rw [contents, hinode]
    rfl
  · cases hrun

theorem reload_eq (h : Ok sb fs) (hi : i < sb.ninodes) : reload sb fs i = fs := by
  rw [reload, h.synced i hi]
  simp only [Fs.setInode, Function.update_eq_self]

end Calls

section Runs

variable {sb : Superblock} {fs fs' : Fs} {i : Nat}

def T_DIR : Nat := 1
def T_FILE : Nat := 2

inductive Call
  | create (type : Nat)
  | write (i : Nat) (src : List Byte) (off : Nat)
  | read (i off n : Nat)
  | free (i : Nat)
  | reload (i : Nat)

inductive Reply
  | inum (i : Nat)
  | count (r : Int)
  | data (r : Int × List Byte)
  | done

/-- `ilock` panics on an inode without a type. -/
def locked (sb : Superblock) (fs : Fs) (i : Nat) : Bool := i < sb.ninodes && (fs.inode i).type != 0

def Call.run (sb : Superblock) (fs : Fs) : Call → Option (Fs × Reply)
  | .create type =>
    if type = T_DIR ∨ type = T_FILE then (ialloc sb fs type).map fun r => (r.1, .inum r.2) else none
  | .write i src off =>
    if locked sb fs i then (writei sb fs i src off).map fun r => (r.1, .count r.2) else none
  | .read i off n =>
    if locked sb fs i then (readi sb fs i off n).map fun r => (r.1, .data r.2) else none
  | .free i => if locked sb fs i then (ifree sb fs i).map fun fs => (fs, .done) else none
  | .reload i => if i < sb.ninodes then some (Blocks.reload sb fs i, .done) else none

def runs (sb : Superblock) (fs : Fs) : List Call → Option (Fs × List Reply)
  | [] => some (fs, [])
  | c :: cs => (c.run sb fs).bind fun r => (runs sb r.1 cs).map fun q => (q.1, r.2 :: q.2)

abbrev Files := Nat → Option Inode

/-- The same calls on files that are lists of bytes. -/
inductive Does : Files → Call → Reply → Files → Prop
  | create (files : Files) (type i : Nat) (h : files i = none) :
      Does files (.create type) (.inum i) (Function.update files i (some newFile))
  | write (files : Files) (i : Nat) (src : List Byte) (off : Nat) (ip : Inode)
      (h : files i = some ip) : Does files (.write i src off) (.count (Xv6.writei ip src off).2)
        (Function.update files i (some (Xv6.writei ip src off).1))
  | read (files : Files) (i off n : Nat) (ip : Inode) (h : files i = some ip) :
      Does files (.read i off n) (.data (Xv6.readi ip none off n)) files
  | free (files : Files) (i : Nat) (ip : Inode) (h : files i = some ip) :
      Does files (.free i) .done (Function.update files i none)
  | reload (files : Files) (i : Nat) : Does files (.reload i) .done files

inductive DoesAll : Files → List Call → List Reply → Files → Prop
  | nil (files : Files) : DoesAll files [] [] files
  | cons {files files₁ files' : Files} {c : Call} {r : Reply} {cs : List Call} {rs : List Reply}
      (h : Does files c r files₁) (hs : DoesAll files₁ cs rs files') :
      DoesAll files (c :: cs) (r :: rs) files'

/-- The blocks show the files. -/
structure Shows (files : Files) (fs : Fs) : Prop where
  free : ∀ i, files i = none ↔ (fs.inode i).type = 0
  data : ∀ i ip, files i = some ip → ip.type ≠ .dev ∧ ip.data = contents fs i

variable {files : Files}

theorem Shows.of_locked (h : Shows files fs) (hl : locked sb fs i) :
    i < sb.ninodes ∧ (fs.inode i).type ≠ 0 ∧
    ∃ ip, files i = some ip ∧ ip.type ≠ .dev ∧ ip.data = contents fs i := by
  simp only [locked, Bool.and_eq_true, decide_eq_true_eq, bne_iff_ne] at hl
  refine ⟨hl.1, hl.2, ?_⟩
  cases hf : files i with
  | none => exact absurd ((h.free i).mp hf) hl.2
  | some ip => exact ⟨ip, rfl, h.data i ip hf⟩

/-- One file has changed. -/
theorem Shows.update (h : Shows files fs) (hother : ∀ i', i' ≠ i → Untouched fs fs' i')
    {o : Option Inode} (hfree : o = none ↔ (fs'.inode i).type = 0)
    (hdata : ∀ ip, o = some ip → ip.type ≠ .dev ∧ ip.data = contents fs' i) :
    Shows (Function.update files i o) fs' where
  free := by
    intro i'
    by_cases hi : i' = i
    · subst hi
      rw [Function.update_self]
      exact hfree
    · rw [Function.update_of_ne hi, (hother i' hi).inode]
      exact h.free i'
  data := by
    intro i' ip hip
    by_cases hi : i' = i
    · subst hi
      rw [Function.update_self] at hip
      exact hdata ip hip
    · rw [Function.update_of_ne hi] at hip
      rw [(hother i' hi).contents]
      exact h.data i' ip hip

theorem writei_type (ip : Inode) (src : List Byte) (off : Nat) :
    (Xv6.writei ip src off).1.type = ip.type := by
  unfold Xv6.writei
  split
  · split <;> rfl
  · split
    · rfl
    · split <;> rfl

theorem call_does {c : Call} {r : Fs × Reply} (hok : Ok sb fs) (hs : Shows files fs)
    (hrun : c.run sb fs = some r) :
    Ok sb r.1 ∧ ∃ files', Does files c r.2 files' ∧ Shows files' r.1 := by
  cases c with
  | create type =>
    simp only [Call.run] at hrun
    split at hrun
    · next ht =>
      obtain ⟨⟨fs₁, i⟩, halloc, rfl⟩ := Option.map_eq_some_iff.mp hrun
      have hsmall : type < 2 ^ 16 := by
        simp only [T_DIR, T_FILE] at ht
        omega
      have hne : type ≠ 0 := by
        simp only [T_DIR, T_FILE] at ht
        omega
      obtain ⟨-, hfree, hok', hother, htype, hempty⟩ := ialloc_spec hok hsmall halloc
      refine ⟨hok', _, .create files type i ((hs.free i).mpr hfree), hs.update hother ?_ ?_⟩
      · simp [htype, hne]
      · intro ip hip
        cases hip
        exact ⟨by simp [newFile], hempty.symm⟩
    · cases hrun
  | write i src off =>
    simp only [Call.run] at hrun
    split at hrun
    · next hl =>
      obtain ⟨hi, htype, ip, hip, hdev, hdata⟩ := hs.of_locked hl
      obtain ⟨⟨fs₁, n⟩, hwrite, rfl⟩ := Option.map_eq_some_iff.mp hrun
      obtain ⟨hok', hother, htype', hcontents, rfl⟩ := writei_spec hok hi htype hdev hdata hwrite
      refine ⟨hok', _, .write files i src off ip hip, hs.update hother ?_ ?_⟩
      · exact ⟨nofun, fun h0 => absurd (htype'.symm.trans h0) htype⟩
      · intro ip' hip'
        cases hip'
        exact ⟨by rwa [writei_type], hcontents.symm⟩
    · cases hrun
  | read i off n =>
    simp only [Call.run] at hrun
    split at hrun
    · next hl =>
      obtain ⟨hi, htype, ip, hip, hdev, hdata⟩ := hs.of_locked hl
      rw [readi_spec hok hdev hdata none, Option.map_some] at hrun
      cases hrun
      exact ⟨hok, files, .read files i off n ip hip, hs⟩
    · cases hrun
  | free i =>
    simp only [Call.run] at hrun
    split at hrun
    · next hl =>
      obtain ⟨hi, htype, ip, hip, -⟩ := hs.of_locked hl
      obtain ⟨fs₁, hfree, hok', hother, hzero, -⟩ := ifree_spec hok hi
      rw [hfree, Option.map_some] at hrun
      cases hrun
      refine ⟨hok', _, .free files i ip hip, hs.update hother ?_ ?_⟩
      · simp [hzero]
      · simp
    · cases hrun
  | reload i =>
    simp only [Call.run] at hrun
    split at hrun
    · next hi =>
      rw [reload_eq hok hi] at hrun
      cases hrun
      exact ⟨hok, files, .reload files i, hs⟩
    · cases hrun

theorem runs_does {calls : List Call} {r : Fs × List Reply} (hok : Ok sb fs) (hs : Shows files fs)
    (hrun : runs sb fs calls = some r) :
    Ok sb r.1 ∧ ∃ files', DoesAll files calls r.2 files' ∧ Shows files' r.1 := by
  induction calls generalizing fs files r with
  | nil =>
    cases hrun
    exact ⟨hok, files, .nil files, hs⟩
  | cons c cs ih =>
    obtain ⟨r₁, hcall, hrest⟩ := Option.bind_eq_some_iff.mp hrun
    obtain ⟨r₂, hruns, rfl⟩ := Option.map_eq_some_iff.mp hrest
    obtain ⟨hok₁, files₁, hdoes, hs₁⟩ := call_does hok hs hcall
    obtain ⟨hok₂, files₂, hall, hs₂⟩ := ih hok₁ hs₁ hruns
    exact ⟨hok₂, files₂, .cons hdoes hall, hs₂⟩

end Runs

section Blank

variable {sb : Superblock} {fs : Fs}

/-- The disk of mkfs with no files: the blocks before `nmeta` are in use. -/
def blank (sb : Superblock) : Fs :=
  (List.range sb.nmeta).foldl (markUsed sb) ⟨fun _ _ => 0, fun _ => Dinode.zero⟩

theorem foldl_markUsed {bs : List Nat} (hbs : ∀ b ∈ bs, b < sb.size) :
    (∀ c, inUse sb (bs.foldl (markUsed sb) fs).disk c = (decide (c ∈ bs) || inUse sb fs.disk c)) ∧
      (∀ c < sb.bmapstart, (bs.foldl (markUsed sb) fs).disk c = fs.disk c) ∧
      (bs.foldl (markUsed sb) fs).inode = fs.inode := by
  induction bs generalizing fs with
  | nil => simp
  | cons b bs ih =>
    obtain ⟨huse, hlow, hinode⟩ :=
      @ih (markUsed sb fs b) fun c hc => hbs c (List.mem_cons_of_mem _ hc)
    refine ⟨?_, ?_, hinode⟩
    · intro c
      rw [List.foldl_cons, huse, inUse_markUsed]
      by_cases hc : c = b
      · simp [hc]
      · simp [hc]
    · intro c hc
      have hle : sb.bmapstart ≤ bblock sb b := le_bblock
      rw [List.foldl_cons, hlow c hc]
      exact Function.update_of_ne (by omega) _ _

theorem blank_inode (i : Nat) : (blank sb).inode i = Dinode.zero := by
  have hall := @foldl_markUsed sb ⟨fun _ _ => 0, fun _ => Dinode.zero⟩ (List.range sb.nmeta)
    fun b hb => Nat.lt_of_lt_of_le (List.mem_range.mp hb) sb.nmeta_le
  exact congrFun hall.2.2 i

theorem blank_used : used sb (blank sb).disk = reserved sb := by
  have hall := @foldl_markUsed sb ⟨fun _ _ => 0, fun _ => Dinode.zero⟩ (List.range sb.nmeta)
    fun b hb => Nat.lt_of_lt_of_le (List.mem_range.mp hb) sb.nmeta_le
  ext b
  have hzero : inUse sb (fun _ _ => 0) b = false := by
    rw [inUse_eq]
    simp
  simp only [used, reserved, Set.mem_ofPred_eq, blank, hall.1, hzero, List.mem_range, Bool.or_false,
    decide_eq_true_eq]
  have hle := sb.nmeta_le
  omega

theorem zero_addr (j : Nat) : Dinode.zero.addr j = 0 := by
  unfold Dinode.addr
  split <;> rfl

theorem blank_addrAt (i j : Nat) : addrAt (blank sb) i j = 0 := by
  simp [addrAt, blank_inode, zero_addr]

theorem blank_ok : Ok sb (blank sb) where
  holding := by
    intro i
    have ho : Owned sb (blank sb) := by
      rw [Owned, blank_used]
      refine ⟨?_, ?_, ?_⟩
      · intro a b r ha
        simp [holds, blank_addrAt] at ha
      · simp [holds, blank_addrAt]
      · intro a r ha
        simp [holds, blank_addrAt] at ha
    have hzero := holding_zero (i := i) ho fun j => by rw [blank_inode, zero_addr]
    rwa [blank_inode]
  small := fun i => by
    rw [blank_inode]
    exact ⟨Nat.two_pow_pos 16, Nat.two_pow_pos 16, Nat.two_pow_pos 16, Nat.two_pow_pos 16⟩
  max := fun i => by
    rw [blank_inode]
    exact Nat.zero_le _
  synced := by
    intro i hi
    have hall := @foldl_markUsed sb ⟨fun _ _ => 0, fun _ => Dinode.zero⟩ (List.range sb.nmeta)
      fun b hb => Nat.lt_of_lt_of_le (List.mem_range.mp hb) sb.nmeta_le
    rw [blank_inode, dinode, blank, hall.2.1 (iblock sb i) (sb.inodes_fit i hi)]
    have hload (q : Int) (w : Nat) : load (fun _ => 0) q w = 0 := load_zero fun _ _ _ => rfl
    simp only [getInode, hload, Dinode.zero]
  free := fun i _ => by rw [blank_inode]; rfl

/-- From an empty disk, whatever is called and in whatever order, the replies are
those of files that are lists of bytes, and these are what the blocks show. -/
theorem runs_refine {calls : List Call} {r : Fs × List Reply}
    (hrun : runs sb (blank sb) calls = some r) :
    ∃ files, DoesAll (fun _ => none) calls r.2 files ∧ Shows files r.1 := by
  have hs : Shows (fun _ => none) (blank sb) := by
    refine ⟨?_, by simp⟩
    intro i
    rw [blank_inode]
    exact iff_of_true rfl rfl
  exact (runs_does blank_ok hs hrun).2

theorem runs_ok {calls : List Call} {r : Fs × List Reply}
    (hrun : runs sb (blank sb) calls = some r) : Ok sb r.1 := by
  have hs : Shows (fun _ => none) (blank sb) := by
    refine ⟨?_, by simp⟩
    intro i
    rw [blank_inode]
    exact iff_of_true rfl rfl
  exact (runs_does blank_ok hs hrun).1

/-- After any run the bitmap has the metadata and the blocks that are held in one
place, the disk has the inodes, and no free of an inode panics. -/
theorem runs_owned {calls : List Call} {r : Fs × List Reply}
    (hrun : runs sb (blank sb) calls = some r) :
    (∀ b < sb.size, inUse sb r.1.disk b = true ↔ b < sb.nmeta ∨ ∃! p, holds r.1 p = some b) ∧
      (∀ i < sb.ninodes, dinode sb r.1.disk i = r.1.inode i) ∧
      ∀ i < sb.ninodes, ∃ fs', ifree sb r.1 i = some fs' ∧ (∀ j, holds fs' (i, j) = none) ∧
        ∀ b < sb.size, inUse sb fs'.disk b = true ↔
        inUse sb r.1.disk b = true ∧ ∀ j, holds r.1 (i, j) ≠ some b := by
  have hok := runs_ok hrun
  have hbit {fs : Fs} (ho : Owned sb fs) (b : Nat) (hb : b < sb.size) :
      inUse sb fs.disk b = true ↔ b < sb.nmeta ∨ ∃! p, holds fs p = some b := by
    have hiff := Exact.used_iff_unique ho b
    simpa only [used, reserved, Set.mem_ofPred_eq, hb, true_and] using hiff
  refine ⟨hbit hok.owned, hok.synced, ?_⟩
  intro i hi
  obtain ⟨fs', hfree, hok', hother, -, hempty⟩ := ifree_spec hok hi
  refine ⟨fs', hfree, fun j => holds_none.mpr (hempty j), ?_⟩
  have hplaces (p : Nat × Nat) (hp : p.1 ≠ i) : holds fs' p = holds r.1 p := by
    simp only [holds, (hother p.1 hp).places]
  have hiff := hok'.owned.used_iff
  have hiff₀ := hok.owned.used_iff
  intro b hb
  have hmem (fs : Fs) : inUse sb fs.disk b = true ↔ b ∈ used sb fs.disk := by
    simp only [used, Set.mem_ofPred_eq, hb, true_and]
  rw [hmem, hmem, hiff, hiff₀]
  constructor
  · intro hused
    rcases hused with hmeta | ⟨p, hp⟩
    · exact ⟨.inl hmeta, fun j hj => Exact.apart hok.owned (i, j) b hj hmeta⟩
    · have hne : p.1 ≠ i := by
        intro heq
        obtain ⟨i', j'⟩ := p
        subst heq
        rw [holds_none.mpr (hempty j')] at hp
        cases hp
      rw [hplaces p hne] at hp
      exact ⟨.inr ⟨p, hp⟩, fun j hj =>
        hne (congrArg Prod.fst (Exact.single hok.owned p (i, j) b hp hj))⟩
  · intro hboth
    obtain ⟨hused, hnot⟩ := hboth
    rcases hused with hmeta | ⟨p, hp⟩
    · exact .inl hmeta
    · have hne : p.1 ≠ i := by
        intro heq
        obtain ⟨i', j'⟩ := p
        subst heq
        exact hnot j' hp
      exact .inr ⟨p, (hplaces p hne).trans hp⟩

theorem mkfs_inodes_fit : ∀ i < 200, i / IPB + 32 < 58 := by
  intro i hi
  simp only [IPB]
  omega

theorem mkfs_bitmap_fit : ∀ b < 1000, b / BPB + 58 < 59 := by
  intro b hb
  simp only [BPB, BSIZE]
  omega

/-- The layout that mkfs.c computes. -/
def mkfsSuperblock : Superblock where
  size := 1000
  ninodes := 200
  inodestart := 32
  bmapstart := 58
  nmeta := 59
  inodes_fit := mkfs_inodes_fit
  bitmap_fit := mkfs_bitmap_fit
  nmeta_pos := Nat.succ_pos 58
  nmeta_le := Nat.le_of_ble_eq_true rfl
  size_lt := Nat.lt_of_succ_le (Nat.le_of_ble_eq_true rfl)

/-- Two files; the second is written past the first block, and the first is freed. -/
def twoFiles : List Call :=
  [.create T_FILE, .create T_FILE, .write 1 [1, 2, 3] 0, .write 2 (List.replicate 520 7) 0,
    .write 2 [8] 520, .reload 2, .read 2 510 20, .free 1, .read 2 519 4]

theorem twoFiles_runs : ∃ r, runs mkfsSuperblock (blank mkfsSuperblock) twoFiles = some r := by
  apply Option.isSome_iff_exists.mp
  decide +kernel

theorem runs_refine_twoFiles : ∃ r, runs mkfsSuperblock (blank mkfsSuperblock) twoFiles = some r ∧
    ∃ files, DoesAll (fun _ => none) twoFiles r.2 files ∧ Shows files r.1 := by
  obtain ⟨r, hr⟩ := twoFiles_runs
  exact ⟨r, hr, runs_refine hr⟩

theorem runs_owned_twoFiles : ∃ r, runs mkfsSuperblock (blank mkfsSuperblock) twoFiles = some r ∧
    (∀ b < mkfsSuperblock.size, inUse mkfsSuperblock r.1.disk b = true ↔
      b < mkfsSuperblock.nmeta ∨ ∃! p, holds r.1 p = some b) ∧
    (∀ i < mkfsSuperblock.ninodes, dinode mkfsSuperblock r.1.disk i = r.1.inode i) ∧
    ∀ i < mkfsSuperblock.ninodes, ∃ fs', ifree mkfsSuperblock r.1 i = some fs' ∧
    (∀ j, holds fs' (i, j) = none) ∧
      ∀ b < mkfsSuperblock.size, inUse mkfsSuperblock fs'.disk b = true ↔
        inUse mkfsSuperblock r.1.disk b = true ∧ ∀ j, holds r.1 (i, j) ≠ some b := by
  obtain ⟨r, hr⟩ := twoFiles_runs
  exact ⟨r, hr, runs_owned hr⟩

end Blank

end Cs3650.Xv6.Blocks
