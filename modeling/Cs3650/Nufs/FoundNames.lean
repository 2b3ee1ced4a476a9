import Cs3650.Nufs.DirectoryMap
import Cs3650.Nufs.ShrinkEffect

/-!
# Names that are found again

`directory_put` takes a name of 60 bytes and keeps 59 of them. The lookup
compares all 60 and stops at the byte that ends them.
-/

namespace Cs3650.Nufs

open Cs3650.Lib

/-! ## Calls on a directory -/

/-- The call leaves the directory standing: with the last link to an inode go
neither the directory nor, as its indirect page, the directory's page. -/
def DirOp.Safe (d p : Nat) (m : Image) : DirOp → Prop
  | .put name inum => name ≠ [] ∧ nul ∉ name ∧ 0 < inum ∧ inum < 256
  | .delete name => name ≠ [] ∧ nul ∉ name ∧ ∀ i : Nat, directoryLookup m (getInode d) name = i →
    refs m i = 1 → i ≠ d ∧ Shrinkable m i ∧ ptr m i 2 ≠ p

def SafeAlong (d p : Nat) : Image → List DirOp → Prop
  | _, [] => True
  | m, op :: ops => op.Safe d p m ∧ SafeAlong d p (op.step d m).1 ops

def runDirOps (d : Nat) (m : Image) (ops : List DirOp) : Image :=
  ops.foldl (fun m op => (op.step d m).1) m

/-- The new name is found, the others as before, and it is not taken twice. -/
structure FoundAfter (m : Image) (d : Nat) (name : Str) (inum : Nat) : Prop where
  found : directoryLookup (directoryPut m (getInode d) name inum).1 (getInode d) name = inum
  others : ∀ other, other ≠ [] → nul ∉ other → other ≠ name →
    directoryLookup (directoryPut m (getInode d) name inum).1 (getInode d) other =
      directoryLookup m (getInode d) other
  refused : ∀ inum' :
    Int, directoryPut (directoryPut m (getInode d) name inum).1 (getInode d) name inum' =
    ((directoryPut m (getInode d) name inum).1, -1)

/-- Every entry leads to an inode other than the first. -/
structure NamePage (m : Image) (d p : Nat) : Prop extends DirPage m d p where
  target : ∀ k < 64, ∀ name v, entryAt m p k = some (name, v) → ∃ i : Nat, v = i ∧ 0 < i ∧ i < 256

/-! ## One call -/

section

variable {m : Image} {d p : Nat}

theorem NamePage.start (hpage : ptr m d 0 = p) (hzero : ∀ x ∈ span (pagesGetPage p) 4096, m x = 0) :
    NamePage m d p := by
  have hbyte :
      ∀ (k : Nat) (a : Nat), k < 64 → a < 64 → m (direntName (pagesGetPage p) k + a) = nul := by
    intro k a hk ha
    apply hzero
    simp only [direntName, mem_span]
    omega
  refine ⟨⟨hpage, fun k hk => hbyte k 59 hk (by decide)⟩, fun k hk name v he => ?_⟩
  have hfree : entryAt m p k = none := entryAt_none.mpr (by simpa using hbyte k 0 hk (by decide))
  rw [hfree] at he
  cases he

theorem NamePage.absent (h : NamePage m d p) {name : Str} (hne : name ≠ []) (hnul : nul ∉ name)
    (hlook : directoryLookup m (getInode d) name ≤ 0) :
    ∀ k < 64, ∀ v, entryAt m p k ≠ some (name, v) := by
  rcases h.find_cases hne hnul with ⟨-, hnone⟩ | ⟨k, v, hfind, hk, hv, -⟩
  · exact hnone
  · obtain ⟨i, hi, hpos, -⟩ := h.target k hk name v hv
    rw [directoryLookup_some (by rw [h.base]; exact hfind), h.base, (entryAt_some.mp hv).2.2]
      at hlook
    omega

theorem NamePage.put (h : NamePage m d p) (h2 : 2 ≤ p) (hd : d < 256) {name : Str} {inum : Nat}
    (hsafe : (DirOp.put name inum).Safe d p m) :
    NamePage (directoryPut m (getInode d) name inum).1 d p := by
  obtain ⟨hne, hnul, hpos, hi⟩ := hsafe
  rcases directoryPut_cases name h.base h2 hi with ⟨hrefused, -⟩ | ⟨-, -, m', k, hmade, hput⟩
  · rw [hrefused]
    exact h
  · rw [hmade]
    obtain ⟨hpage, hentries⟩ := h.toDirPage.put h2 hd hi hput hne hnul
    refine ⟨hpage, fun j hj name' v he => ?_⟩
    rw [hentries j hj] at he
    by_cases hjk : j = k
    · rw [hjk, Function.update_self] at he
      simp only [Option.some.injEq, Prod.mk.injEq] at he
      exact ⟨inum, he.2.symm, hpos, hi⟩
    · rw [Function.update_of_ne hjk] at he
      exact h.target j hj name' v he

/-- The entry is cleared whatever giving the inode back writes to off the page. -/
theorem directoryDelete_frame {dir : Int} {k i : Nat} {name : Str} {T : Set Int}
    (hbase : direntBase m dir = pagesGetPage p) (hfind : findName m (pagesGetPage p) name = some k)
    (htarget : int32 m (direntInum (pagesGetPage p) k) = i)
    (hT : ∀ x ∈ span (pagesGetPage p) 4096, x ∉ T)
    (hback : ∀ m₁, ChangedIn (slot p k) m m₁ → ChangedIn T m₁ (freeInode m₁ i)) :
    ChangedIn {x | x ∈ slot p k ∨ x ∈ T} m (directoryDelete m dir name).1 ∧
      (directoryDelete m dir name).1 (direntName (pagesGetPage p) k) = nul ∧
      (directoryDelete m dir name).1 (direntName (pagesGetPage p) k + (59 : Nat)) =
        m (direntName (pagesGetPage p) k + (59 : Nat)) := by
  obtain ⟨hk, -, -⟩ := findName_some hfind
  obtain ⟨m₁, hfirst, hbyte, hdelete⟩ := directoryDelete_stages hbase hfind htarget
  rw [fst_of_eq hdelete]
  have h₁ : ChangedIn (slot p k) m m₁ := by
    apply hfirst.mono
    simp only [slot, mem_span]
    omega
  have h₂ := hback m₁ h₁
  generalize freeInode m₁ i = m₂ at h₂
  have h₃ := changedIn_setInt32 m₂ (direntInum (pagesGetPage p) k) 0
  generalize setInt32 m₂ (direntInum (pagesGetPage p) k) 0 = m₃ at h₃
  have hname : ∀ a : Nat, a < 60 → m₃ (direntName (pagesGetPage p) k + a) =
      m₁ (direntName (pagesGetPage p) k + a) := by
    intro a ha
    rw [h₃, h₂]
    · apply hT
      simp only [direntName, mem_span]
      omega
    · simp only [direntInum, direntName, mem_span]
      omega
  refine ⟨?_, ?_, ?_⟩
  · refine (h₁.mono fun x hx => Or.inl hx).trans
      ((h₂.mono fun x hx => Or.inr hx).trans (h₃.mono fun x hx => ?_))
    left
    simp only [slot, direntInum, direntName, mem_span] at hx ⊢
    omega
  · have hkeep := hname 0 (by decide)
    rwa [Int.natCast_zero, Int.add_zero, hbyte] at hkeep
  · rw [hname 59 (by decide), hfirst]
    simp only [mem_span]
    omega

theorem NamePage.delete (h : NamePage m d p) (h2 : 2 ≤ p) (hd : d < 256) {name : Str}
    (hsafe : (DirOp.delete name).Safe d p m) :
    NamePage (directoryDelete m (getInode d) name).1 d p := by
  obtain ⟨hne, hnul, hlast⟩ := hsafe
  rcases h.find_cases hne hnul with ⟨hfind, -⟩ | ⟨k, v, hfind, hk, hv, -⟩
  · rw [directoryDelete_missing h.base hfind]
    exact h
  obtain ⟨i, rfl, -, hi⟩ := h.target k hk name v hv
  have htarget := (entryAt_some.mp hv).2.2
  have hlook : directoryLookup m (getInode d) name = i := by
    rw [directoryLookup_some (by rw [h.base]; exact hfind), h.base, htarget]
  have habove := slot_above (k := k) h2
  -- what is given back lies off the page, and off the directory's pointer
  obtain ⟨T, hT, hptr, hback⟩ : ∃ T : Set Int, (∀ x ∈ span (pagesGetPage p) 4096, x ∉ T) ∧
      (∀ x ∈ span (getInode d + 12) 12, x ∉ T) ∧
      ∀ m₁, ChangedIn (slot p k) m m₁ → ChangedIn T m₁ (freeInode m₁ i) := by
    by_cases hone : refs m i = 1
    · obtain ⟨hid, hm, hpage⟩ := hlast i hlook hone
      refine ⟨freeArea m i, ?_, ?_, fun m₁ h₁ => ?_⟩
      · rintro x hx (hx' | hx' | ⟨hne, hx'⟩)
        · simp only [pagesGetPage, mem_span] at hx hx'
          omega
        · simp only [pagesGetPage, getInode_eq, mem_span] at hx hx'
          omega
        · simp only [pagesGetPage, mem_span] at hx hx'
          omega
      · rintro x hx (hx' | hx' | ⟨hne, hx'⟩)
        · simp only [getInode_eq, mem_span] at hx hx'
          omega
        · simp only [getInode_eq, mem_span] at hx hx'
          omega
        · have := (hm.indirect.resolve_left hne).1
          simp only [getInode_eq, pagesGetPage, mem_span] at hx hx'
          omega
      · obtain ⟨hm₁, hind⟩ := hm.congr h₁ (fun x hx hmem => by
            have := habove x hmem
            simp only [mem_span] at hx
            omega)
          (fun x hx hmem => by
            have := habove x hmem
            simp only [getInode_eq, Inode.dptrs, mem_span] at hx
            omega)
          (fun _ x hx hmem => by
            simp only [slot, direntName, pagesGetPage, mem_span] at hx hmem
            omega)
        have harea : freeArea m₁ i = freeArea m i := by
          unfold freeArea
          rw [hind]
        rw [← harea]
        exact freeInode_shrinks hi hm₁ (by rw [refs_above h₁ habove hi, hone])
    · refine ⟨span (getInode i) 4, below_page h2 (header_below hi), ?_, fun m₁ h₁ => ?_⟩
      · simp only [getInode_eq, mem_span]
        omega
      · rw [freeInode_more (by rwa [refs_above h₁ habove hi])]
        have hset := changedIn_setInt32 m₁ (getInode i + Inode.refs) (refs m₁ i - 1)
        simpa [Inode.refs] using hset
  obtain ⟨hchanged, hfree, htail⟩ := directoryDelete_frame h.base hfind htarget hT hback
  have hdir : ptr (directoryDelete m (getInode d) name).1 d 0 = ptr m d 0 := by
    apply ptr_changed hchanged (by decide)
    rintro x hx (hslot | hmem)
    · have := habove x hslot
      simp only [getInode_eq, mem_span] at hx
      omega
    · exact hptr x hx hmem
  obtain ⟨hpage, hentries⟩ := h.toDirPage.clear hT hchanged hk hfree htail hdir
  refine ⟨hpage, fun j hj name' v he => ?_⟩
  rw [hentries j hj] at he
  by_cases hjk : j = k
  · rw [hjk, Function.update_self] at he
    cases he
  · rw [Function.update_of_ne hjk] at he
    exact h.target j hj name' v he

end

theorem NamePage.run {d p : Nat} (h2 : 2 ≤ p) (hd : d < 256) (ops : List DirOp) {m : Image}
    (h : NamePage m d p) (hsafe : SafeAlong d p m ops) : NamePage (runDirOps d m ops) d p := by
  induction ops generalizing m with
  | nil => exact h
  | cons op ops ih =>
    obtain ⟨hop, hrest⟩ := hsafe
    refine ih ?_ hrest
    cases op with
    | put name inum => exact h.put h2 hd hop
    | delete name => exact h.delete h2 hd hop

/-! ## Names of 60 bytes -/

theorem NamePage.found_iff {m : Image} {d p : Nat} (h : NamePage m d p) (h2 : 2 ≤ p) (hd : d < 256)
    {name : Str}
    {inum : Nat} (hne : name ≠ []) (hnul : nul ∉ name) (hpos : 0 < inum) (hi : inum < 256)
    (hok : (directoryPut m (getInode d) name inum).2 = 0) :
    FoundAfter m d name inum ↔ name.length ≠ 60 := by
  rcases directoryPut_cases name h.base h2 hi with ⟨hrefused, -⟩ | ⟨hlook, hlen, m', k, hmade, hput⟩
  · rw [snd_of_eq hrefused] at hok
    exact absurd hok (by decide)
  have hstate := fst_of_eq hmade
  obtain ⟨hpage, hentries⟩ := h.toDirPage.put h2 hd hi hput hne hnul
  constructor
  · intro hafter hsixty
    -- the entry holds 59 of the bytes
    have hfound := hafter.found
    rw [hstate] at hfound
    rcases hpage.find_cases hne hnul with ⟨hfind, -⟩ | ⟨j, v, -, hj, hv, -⟩
    · rw [directoryLookup_none (by rw [hpage.base]; exact hfind)] at hfound
      have hneg : -ENOENT < 0 := by decide
      omega
    · have hshort := (hpage.entryName hj hv).2.1
      omega
  · intro hlength
    have hshort : name.length ≤ 59 := by omega
    have hfound := h.toDirPage.put_found h2 hd hi hput hne hnul hshort (h.absent hne hnul hlook)
    constructor
    · rw [hstate, hfound]
    · intro other hother hothernul hdiff
      rw [hstate]
      apply h.toDirPage.put_other h2 hd hi hput hne hnul hother hothernul
      rwa [List.take_of_length_le hshort]
    · intro inum'
      rw [hstate]
      unfold directoryPut
      dsimp only
      rw [hfound]
      exact if_pos (Int.natCast_pos.mpr hpos)

/-- In every state that calls on a blank page reach. -/
theorem put_found_iff {m : Image} {d p : Nat} (hd : d < 256) (h2 : 2 ≤ p) (hpage : ptr m d 0 = p)
    (hzero : ∀ x ∈ span (pagesGetPage p) 4096, m x = 0) (ops : List DirOp)
    (hsafe : SafeAlong d p m ops)
    {name : Str} {inum : Nat} (hne : name ≠ []) (hnul : nul ∉ name) (hpos : 0 < inum)
    (hi : inum < 256) (hok : (directoryPut (runDirOps d m ops) (getInode d) name inum).2 = 0) :
    FoundAfter (runDirOps d m ops) d name inum ↔ name.length ≠ 60 :=
  ((NamePage.start hpage hzero).run h2 hd ops hsafe).found_iff h2 hd hne hnul hpos hi hok

theorem second_name_found : FoundAfter (runDirOps 0 namelessFile [.put [0x61] 1]) 0 [0x62] 1 :=
  (put_found_iff (by decide) (by decide) (by decide +kernel) namelessFile_root [.put [0x61] 1]
    ⟨⟨by decide, by decide, by decide, by decide⟩, trivial⟩ (by decide) (by decide)
    (by decide) (by decide)
    (by decide +kernel)).mpr (by decide)

/-- A name of 60 bytes is accepted and not found. -/
theorem sixty_bytes_lost : ¬ ∀ (m : Image) (d p : Nat), IsDir m d → 2 ≤ p → ptr m d 0 = p →
    (∀ x ∈ span (pagesGetPage p) 4096, m x = 0) → ∀ ops : List DirOp, SafeAlong d p m ops →
      ∀ (name : Str) (inum : Nat), name ≠ [] → nul ∉ name → 0 < inum → inum < 256 →
        Allocated (runDirOps d m ops) inum →
        (directoryPut (runDirOps d m ops) (getInode d) name inum).2 = 0 →
          FoundAfter (runDirOps d m ops) d name inum := by
  intro h
  have hafter :=
    h namelessFile 0 2 (by decide +kernel) (by decide) (by decide +kernel) namelessFile_root []
    trivial (List.replicate 60 0x61) 1 (by decide) (by decide) (by decide) (by decide)
    (by decide +kernel)
    (by decide +kernel)
  have hmissing : directoryLookup (directoryPut (runDirOps 0 namelessFile []) (getInode 0)
      (List.replicate 60 0x61) 1).1 (getInode 0) (List.replicate 60 0x61) =
      -ENOENT := by decide +kernel
  have hfound := hafter.found
  rw [show ((0 : Nat) : Int) = 0 from rfl, show ((1 : Nat) : Int) = 1 from rfl, hmissing] at hfound
  exact absurd hfound (by decide)

end Cs3650.Nufs
