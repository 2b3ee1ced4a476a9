import Cs3650.Nufs.NamespaceRuns
import Mathlib.Data.List.Find

/-!
# Runs of the storage operations

All operations that change an image, and paths through directories whose pages
lie above the inode table: what is changed below does not change where such a
path leads.
-/

namespace Cs3650.Nufs

open Cs3650.Lib

/-- The last number is what an `int` holds that nobody has set. -/
inductive StoreOp
  | mknod (path : Path) (mode : Int)
  | truncate (path : Path) (size junk : Int)
  | write (path : Path) (buf : Str) (offset junk : Int)
  | link (src dst : Path)
  | unlink (path : Path)
  | rename (src dst : Path)

def StoreOp.step (m : Image) : StoreOp → Image × Int
  | .mknod path mode => storageMknod m path mode
  | .truncate path size junk => storageTruncate junk m path size
  | .write path buf offset junk => storageWrite junk m path buf offset
  | .link src dst => storageLink m src dst
  | .unlink path => storageUnlink m path
  | .rename src dst => storageRename m src dst

def runStoreOps (m : Image) (ops : List StoreOp) : Image := ops.foldl (fun m op => (op.step m).1) m

/-- The bitmaps, the inode table and the pages of directories are the same. -/
structure Untouched (m m' : Image) : Prop where
  tables : ∀ x, 0 ≤ x → x < getInode 256 → m' x = m x
  pages : ∀ d : Nat, IsDir m d → ∀ x ∈ span (pagesGetPage (ptr m d 0)) 4096, m' x = m x

theorem Untouched.refl (m : Image) : Untouched m m := ⟨fun _ _ _ => rfl, fun _ _ _ _ => rfl⟩

theorem Untouched.bit {m m' : Image} (h : Untouched m m') {bm : Int} {i : Nat} (hlo : 0 ≤ bm)
    (hhi : bm ≤ 32) (hi : i < 256) : bit m' bm i = bit m bm i := by
  unfold Nufs.bit
  rw [h.tables _ (by omega) (by simp only [getInode_eq]; omega)]

/-! ## Paths -/

/-- A directory in use, with a page above the inode table. -/
def HasPage (m : Image) (cur : Int) : Prop :=
  IsDir m cur ∧ 2 ≤ ptr m cur.toNat 0 ∧ ptr m cur.toNat 0 < 256

/-- Every name is looked up in such a directory, and the last one names one. -/
def PageWalk (m : Image) : Int → List Str → Prop
  | cur, [] => HasPage m cur
  | cur, base :: rest => HasPage m cur ∧ PageWalk m (directoryLookup m (getInode cur) base) rest

/-- The path leads through such directories to one, and page 0 is not up for allocation. -/
def ParentSound (m : Image) (path : Path) : Prop :=
  bit m getPagesBitmap 0 = true ∧ PageWalk m 0 (sSplit path.dirname.text slash)

instance (m : Image) (cur : Int) : Decidable (HasPage m cur) :=
  inferInstanceAs (Decidable (_ ∧ _ ∧ _))

instance decidablePageWalk (m : Image) :
    (cur : Int) → (cs : List Str) → Decidable (PageWalk m cur cs)
  | cur, [] => inferInstanceAs (Decidable (HasPage m cur))
  | cur, base :: rest =>
    have := decidablePageWalk m (directoryLookup m (getInode cur) base) rest
    inferInstanceAs (Decidable (HasPage m cur ∧ _))

instance (m : Image) (path : Path) : Decidable (ParentSound m path) :=
  inferInstanceAs (Decidable (_ ∧ _))

theorem HasPage.nat {m : Image} {cur : Int} (h : HasPage m cur) : ∃ d p : Nat, cur = d ∧ d < 256 ∧
    Allocated m d ∧ 2 ≤ p ∧ p < 256 ∧ ptr m d 0 = p := by
  obtain ⟨hdir, hlo, hhi⟩ := h
  obtain ⟨d, rfl, hd, hal, -⟩ := hdir.nat
  rw [Int.toNat_natCast] at hlo hhi
  obtain ⟨p, hp⟩ : ∃ p : Nat, ptr m d 0 = p := ⟨(ptr m d 0).toNat, by omega⟩
  exact ⟨d, p, rfl, hd, hal, by omega, by omega, hp⟩

/-- An inode that was free is made: nothing above the table changes, and no inode in use. -/
theorem inode_above {m m' : Image} {i : Nat} (hi : i < 256) (h : ChangedIn (inodeArea i) m m') :
    ∀ x, 8192 ≤ x → m' x = m x := by
  intro x hx
  apply h
  intro hmem
  have := inodeArea_below hi x hmem
  omega

theorem inode_others {m m' : Image} {i : Nat} (hi : i < 256) (h : ChangedIn (inodeArea i) m m')
    (hclear : bit m getInodeBitmap i = false) :
    ∀ d < 256, Allocated m d → ptr m' d 0 = ptr m d 0 := by
  intro d hd hal
  apply ptr_other hi h hd _ (by decide)
  rintro rfl
  rw [Allocated, hclear] at hal
  cases hal

section

variable {m m' : Image} (habove : ∀ x, 8192 ≤ x → m' x = m x)

include habove

theorem findName_above {start : Int} (h : 8192 ≤ start) (name : Str) :
    findName m' start name = findName m start name := by
  unfold findName
  congr 1
  funext k
  apply streq_congr
  intro x hx
  apply habove
  simp only [direntName] at hx
  omega

theorem direntInum_above {start : Int} (h : 8192 ≤ start) (k : Nat) :
    int32 m' (direntInum start k) = int32 m (direntInum start k) := by
  unfold int32
  rw [load_congr]
  intro x hx _
  apply habove
  simp only [direntInum] at hx
  omega

theorem directoryLookup_above {d p : Nat} (hp : ptr m d 0 = p) (h2 : 2 ≤ p)
    (hptr : ptr m' d 0 = ptr m d 0) (name : Str) :
    directoryLookup m' (getInode d) name = directoryLookup m (getInode d) name := by
  have hstart : 8192 ≤ pagesGetPage p := by
    unfold pagesGetPage
    omega
  unfold directoryLookup
  dsimp only
  rw [direntBase_eq, direntBase_eq, hptr, hp, findName_above habove hstart]
  cases findName m (pagesGetPage p) name with
  | none => rfl
  | some k => exact direntInum_above habove hstart k

theorem PageWalk.lookup_above {cur : Int} {cs : List Str} (h : PageWalk m cur cs)
    (hptr : ∀ d < 256, Allocated m d → ptr m' d 0 = ptr m d 0) :
    lookupFrom m' cur cs = lookupFrom m cur cs ∧ HasPage m (lookupFrom m cur cs) := by
  induction cs generalizing cur with
  | nil => exact ⟨rfl, h⟩
  | cons base rest ih =>
    obtain ⟨hpage, hrest⟩ := h
    obtain ⟨d, p, rfl, hd, hal, h2, -, hp⟩ := hpage.nat
    have hsame := directoryLookup_above habove hp h2 (hptr d hd hal) base
    have hnonneg : ¬ directoryLookup m (getInode d) base < 0 := by
      have hcur : 0 ≤ directoryLookup m (getInode d) base := by
        cases rest with
        | nil => exact hrest.1.1
        | cons next rest => exact hrest.1.1.1
      omega
    rw [lookupFrom_cons, lookupFrom_cons, hsame, if_neg hnonneg, if_neg hnonneg]
    exact ih hrest

end

/-! ## Paths to files -/

/-- Names end within their entries. -/
def SoundDir (m : Image) (cur : Int) : Prop :=
  HasPage m cur ∧ ∀ k < 64, m (direntName (pagesGetPage (ptr m cur.toNat 0)) k + (59 : Nat)) = nul

/-- The condition holds of every directory and the name that is looked up in it. -/
def WalkWith (m : Image) (ok : Int → Str → Prop) : Int → List Str → Prop
  | _, [] => True
  | cur, base :: rest => ok cur base ∧ WalkWith m ok (directoryLookup m (getInode cur) base) rest

/-- None of the directories on the way is inode `i`. -/
def ApartPath (m : Image) (i : Int) (path : Path) : Prop :=
  WalkWith m (fun cur _ => SoundDir m cur ∧ cur ≠ i) 0 (sSplit path.text slash)

instance (m : Image) (cur : Int) : Decidable (SoundDir m cur) := inferInstanceAs (Decidable (_ ∧ _))

instance decidableWalkWith (m : Image)
    (ok : Int → Str → Prop) [∀ cur base, Decidable (ok cur base)] :
    (cur : Int) → (cs : List Str) → Decidable (WalkWith m ok cur cs)
  | _, [] => isTrue trivial
  | cur, base :: rest =>
    have := decidableWalkWith m ok (directoryLookup m (getInode cur) base) rest
    inferInstanceAs (Decidable (ok cur base ∧ _))

instance (m : Image) (i : Int) (path : Path) : Decidable (ApartPath m i path) :=
  decidableWalkWith m _ 0 _

/-- A comparison reads no further than the end of the name in memory. -/
theorem streq_within {m m' : Image} {a : Int} {n : Nat} {name : Str} (hend : m (a + n) = nul)
    (hnul : nul ∉ name) (h : ∀ j : Nat, j ≤ n → m' (a + j) = m (a + j)) :
    streq m' a name = streq m a name := by
  have hfirst := h 0 (Nat.zero_le n)
  rw [Int.natCast_zero, Int.add_zero] at hfirst
  induction name generalizing a n with
  | nil => rw [streq, streq, hfirst]
  | cons c cs ih =>
    rw [streq, streq, hfirst]
    cases n with
    | zero =>
      rw [Int.natCast_zero, Int.add_zero] at hend
      have hne : nul ≠ c := fun heq => hnul (by rw [heq]; exact List.mem_cons_self)
      rw [hend, beq_eq_false_iff_ne.mpr hne, Bool.false_and, Bool.false_and]
    | succ n =>
      have hstep : ∀ j : Nat, a + 1 + j = a + ((j + 1 : Nat) : Int) := fun j => by omega
      rw [ih (by rw [hstep]; exact hend) (fun hmem => hnul (List.mem_cons_of_mem c hmem))
        (fun j hj => by rw [hstep]; exact h (j + 1) (by omega))]
      have hnext := h 1 (by omega)
      exact hnext

section

variable {m m' : Image}

theorem directoryLookup_page {d p : Nat} (hp : ptr m d 0 = p)
    (hclosed : ∀ k < 64, m (direntName (pagesGetPage p) k + (59 : Nat)) = nul)
    (hptr : ptr m' d 0 = ptr m d 0)
    (hpage : ∀ x ∈ span (pagesGetPage p) 4096, m' x = m x) {name : Str} (hnul : nul ∉ name) :
    directoryLookup m' (getInode d) name = directoryLookup m (getInode d) name := by
  have hfind : findName m' (pagesGetPage p) name = findName m (pagesGetPage p) name := by
    unfold findName
    apply List.find?_congr
    intro k hk
    have hk := List.mem_range.mp hk
    apply streq_within (hclosed k hk) hnul
    intro j hj
    apply hpage
    simp only [direntName, mem_span]
    omega
  unfold directoryLookup
  dsimp only
  rw [direntBase_eq, direntBase_eq, hptr, hp, hfind]
  cases hk : findName m (pagesGetPage p) name with
  | none => rfl
  | some k =>
    have hlt := (findName_some hk).1
    have hsame : ChangedIn {x | x ∉ span (pagesGetPage p) 4096} m m' :=
      fun x hx => hpage x (not_not.mp hx)
    apply hsame.int32
    intro x hx hout
    apply hout
    simp only [direntInum, mem_span] at hx ⊢
    omega

theorem SoundDir.lookup_page {cur : Int} (h : SoundDir m cur)
    (hptr : ptr m' cur.toNat 0 = ptr m cur.toNat 0)
    (hpage : ∀ x ∈ span (pagesGetPage (ptr m cur.toNat 0)) 4096, m' x = m x) {name : Str}
    (hnul : nul ∉ name) :
    directoryLookup m' (getInode cur) name = directoryLookup m (getInode cur) name := by
  obtain ⟨d, p, rfl, -, -, -, -, hp⟩ := h.1.nat
  have hclosed := h.2
  rw [Int.toNat_natCast] at hptr
  rw [Int.toNat_natCast, hp] at hclosed hpage
  exact directoryLookup_page hp hclosed hptr hpage hnul

theorem lookup_nonneg {cur : Int} {base : Str} {rest : List Str}
    (h : 0 ≤ lookupFrom m cur (base :: rest)) : 0 ≤ directoryLookup m (getInode cur) base := by
  rw [lookupFrom_cons] at h
  by_contra hneg
  rw [if_pos (Int.not_le.mp hneg)] at h
  exact hneg h

theorem WalkWith.imp {ok ok' : Int → Str → Prop} {cur : Int} {cs : List Str}
    (h : WalkWith m ok cur cs)
    (himp : ∀ cur base, ok cur base → ok' cur base) : WalkWith m ok' cur cs := by
  induction cs generalizing cur with
  | nil => trivial
  | cons base rest ih => exact ⟨himp cur base h.1, ih h.2⟩

theorem WalkWith.lookup_same {ok : Int → Str → Prop} {cur : Int} {cs : List Str}
    (h : WalkWith m ok cur cs) (hend : 0 ≤ lookupFrom m cur cs) (hnul : ∀ c ∈ cs, nul ∉ c)
    (hlook : ∀ cur base, ok cur base → nul ∉ base → 0 ≤ directoryLookup m (getInode cur) base →
      directoryLookup m' (getInode cur) base = directoryLookup m (getInode cur) base) :
    lookupFrom m' cur cs = lookupFrom m cur cs := by
  induction cs generalizing cur with
  | nil => rfl
  | cons base rest ih =>
    have hnext := lookup_nonneg hend
    have hnonneg := Int.not_lt.mpr hnext
    rw [lookupFrom_cons, if_neg hnonneg] at hend
    rw [lookupFrom_cons, lookupFrom_cons, hlook cur base h.1 (hnul base List.mem_cons_self) hnext,
      if_neg hnonneg, if_neg hnonneg]
    exact ih h.2 hend fun c hc => hnul c (List.mem_cons_of_mem base hc)

theorem ApartPath.lookup_same {i : Int} {path : Path} (h : ApartPath m i path)
    (hend : 0 ≤ treeLookup m path)
    (hsame : ∀ d p : Nat, SoundDir m d → d ≠ i → 2 ≤ p → ptr m d 0 = p → ptr m' d 0 = ptr m d 0 ∧
      ∀ x ∈ span (pagesGetPage p) 4096, m' x = m x) : treeLookup m' path = treeLookup m path := by
  refine WalkWith.lookup_same h hend path.component_noNul fun cur base hok hnul _ => ?_
  obtain ⟨hsound, hne⟩ := hok
  apply hsound.lookup_page _ _ hnul
  all_goals
    obtain ⟨d, p, rfl, -, -, h2, -, hp⟩ := hsound.1.nat
    obtain ⟨hptr, hbytes⟩ := hsame d p hsound hne h2 hp
    rw [Int.toNat_natCast]
  · exact hptr
  · rwa [hp]

end

end Cs3650.Nufs
