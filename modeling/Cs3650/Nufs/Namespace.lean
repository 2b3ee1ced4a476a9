import Cs3650.Lib.RefCount
import Cs3650.Nufs.Names
import Mathlib.Data.Finset.Prod
import Mathlib.Order.Interval.Finset.Nat

/-!
# The namespace over runs of the storage operations

The empty component in front of every path is looked up in the root directory,
where the first free entry answers it with inode 0. The root must never fill up
for a path to resolve at all.
-/

namespace Cs3650.Nufs

open Cs3650.Lib

/-! ## Operations and runs -/

/-- Inode `cur` is a directory in use. -/
def IsDir (m : Image) (cur : Int) : Prop :=
  0 ≤ cur ∧ cur < 256 ∧ Allocated m cur.toNat ∧
    hasDirBit (int32 m (getInode cur + Inode.mode)) = true

def IsFile (m : Image) (cur : Int) : Prop :=
  0 ≤ cur ∧ cur < 256 ∧ Allocated m cur.toNat ∧
    hasDirBit (int32 m (getInode cur + Inode.mode)) = false

/-- Every name is looked up in a directory, and the last one names a directory. -/
def DirWalk (m : Image) : Int → List Str → Prop
  | cur, [] => IsDir m cur
  | cur, base :: rest => IsDir m cur ∧ DirWalk m (directoryLookup m (getInode cur) base) rest

def DirPath (m : Image) (path : Path) : Prop := DirWalk m 0 (sSplit path.text slash)

/-- The path names an inode in use or nothing. -/
def Names (m : Image) (path : Path) : Prop :=
  treeLookup m path < 0 ∨ treeLookup m path < 256 ∧ Allocated m (treeLookup m path).toNat

def freeEntries (m : Image) (dir : Int) : Nat :=
  ((Finset.range 64).filter fun k => m (direntName (direntBase m dir) k) = nul).card

/-- Where the parent is the root, the new entry is refused or leaves a free one. -/
def RootRoom (m : Image) (path : Path) : Prop :=
  treeLookup m path.dirname = 0 → 0 < directoryLookup m (getInode 0) path.basename ∨
    60 < path.basename.length ∨ 2 ≤ freeEntries m (getInode 0)

/-- The entry of the path is not the last link to the root. -/
def KeepsRoot (m : Image) (path : Path) : Prop :=
  directoryLookup m (getInode (treeLookup m path.dirname)) path.basename = 0 → refs m 0 ≠ 1

inductive NameOp
  | mknod (path : Path) (mode : Int)
  | link (src dst : Path)
  | unlink (path : Path)
  | rename (src dst : Path)

def NameOp.step (m : Image) : NameOp → Image
  | .mknod path mode => (storageMknod m path mode).1
  | .link src dst => (storageLink m src dst).1
  | .unlink path => (storageUnlink m path).1
  | .rename src dst => (storageRename m src dst).1

def NameOp.Legal (m : Image) : NameOp → Prop
  | .mknod path _ => DirPath m path.dirname
  | .link src dst => Names m src ∧ DirPath m dst.dirname
  | .unlink path => IsFile m (treeLookup m path) ∧ DirPath m path.dirname
  | .rename src dst => Names m src ∧ DirPath m src.dirname ∧ DirPath m dst.dirname

/-- The operation stays clear of the defects. The second half of a rename starts
from the image that the first half leaves. -/
def NameOp.Clear (m : Image) : NameOp → Prop
  | .mknod path mode => treeLookup m path = -ENOENT → RootRoom m path ∧
    (∃ i < 256, bit m getInodeBitmap i = false) ∧
      (hasDirBit mode = true → ∃ p < 256, bit m getPagesBitmap p = false)
  | .link _ dst => RootRoom m dst
  | .unlink path => KeepsRoot m path
  | .rename src dst => RootRoom m dst ∧ (0 ≤ (storageLink m src dst).2 →
    DirPath (storageLink m src dst).1 src.dirname ∧ KeepsRoot (storageLink m src dst).1 src)

def runNameOps (m : Image) (ops : List NameOp) : Image := ops.foldl NameOp.step m

def AlongNames (P : Image → NameOp → Prop) : Image → List NameOp → Prop
  | _, [] => True
  | m, op :: ops => P m op ∧ AlongNames P (op.step m) ops

instance (m : Image) (cur : Int) : Decidable (IsDir m cur) :=
  inferInstanceAs (Decidable (_ ∧ _ ∧ _ ∧ _))

instance (m : Image) (cur : Int) : Decidable (IsFile m cur) :=
  inferInstanceAs (Decidable (_ ∧ _ ∧ _ ∧ _))

instance decidableDirWalk (m : Image) : (cur : Int) → (cs : List Str) → Decidable (DirWalk m cur cs)
  | cur, [] => inferInstanceAs (Decidable (IsDir m cur))
  | cur, base :: rest =>
    have := decidableDirWalk m (directoryLookup m (getInode cur) base) rest
    inferInstanceAs (Decidable (IsDir m cur ∧ _))

instance (m : Image) (path : Path) : Decidable (DirPath m path) := decidableDirWalk m 0 _

instance (m : Image) (path : Path) : Decidable (Names m path) :=
  inferInstanceAs (Decidable (_ ∨ _ ∧ _))

instance (m : Image) (path : Path) : Decidable (RootRoom m path) :=
  inferInstanceAs (Decidable (_ → _ ∨ _ ∨ _))

instance (m : Image) (path : Path) : Decidable (KeepsRoot m path) :=
  inferInstanceAs (Decidable (_ → _ ≠ _))

instance (m : Image) : (op : NameOp) → Decidable (op.Legal m)
  | .mknod path _ => inferInstanceAs (Decidable (DirPath m path.dirname))
  | .link src dst => inferInstanceAs (Decidable (Names m src ∧ DirPath m dst.dirname))
  | .unlink path =>
    inferInstanceAs (Decidable (IsFile m (treeLookup m path) ∧ DirPath m path.dirname))
  | .rename src dst =>
    inferInstanceAs (Decidable (Names m src ∧ DirPath m src.dirname ∧ DirPath m dst.dirname))

instance (m : Image) : (op : NameOp) → Decidable (op.Clear m)
  | .mknod path mode => inferInstanceAs (Decidable (treeLookup m path = -ENOENT → RootRoom m path ∧
    (∃ i < 256, bit m getInodeBitmap i = false) ∧
      (hasDirBit mode = true → ∃ p < 256, bit m getPagesBitmap p = false)))
  | .link _ dst => inferInstanceAs (Decidable (RootRoom m dst))
  | .unlink path => inferInstanceAs (Decidable (KeepsRoot m path))
  | .rename src dst => inferInstanceAs (Decidable (RootRoom m dst ∧ (0 ≤ (storageLink m src dst).2 →
    DirPath (storageLink m src dst).1 src.dirname ∧ KeepsRoot (storageLink m src dst).1 src)))

instance decidableAlongNames (P : Image → NameOp → Prop) [∀ m op, Decidable (P m op)] :
    (m : Image) → (ops : List NameOp) → Decidable (AlongNames P m ops)
  | _, [] => isTrue trivial
  | m, op :: ops =>
    have := decidableAlongNames P (op.step m) ops
    inferInstanceAs (Decidable (P m op ∧ _))

/-- What the root resolves to, and that listing and looking up agree. -/
structure Namespace (m : Image) : Prop where
  root : treeLookup m Path.root = 0
  listed : ∀ p : Path, IsDir m (treeLookup m p) → ∀ name, EntryName name → slash ∉ name →
    (name ∈ storageList m p ↔ 0 ≤ treeLookup m (p.join name))
  readdir : ∀ p : Path, IsDir m (treeLookup m p) → nufsReaddir m p ≠ none

/-! ## The invariant -/

/-- All entries of all pages that can belong to a directory. -/
@[irreducible] def pageSlots : Finset (Nat × Nat) := Finset.Ico 2 256 ×ˢ Finset.range 64

def pageSlot (m : Image) (s : Nat × Nat) : Option Int := slotAt m (pagesGetPage s.1) s.2

/-- The name in entry `k` of page `p`. -/
def nameAt (m : Image) (p k : Nat) : Str := strdup m (direntName (pagesGetPage p) k) NUFS_SIZE

def liveInodes (m : Image) : Set Int := {i | ∃ n < 256, Allocated m n ∧ i = (n : Int)}

/-- Every page above the inode table is a page of entries, whether or not a
directory has it. -/
structure Formatted (m : Image) : Prop where
  reserved : bit m getPagesBitmap 0 = true ∧ bit m getPagesBitmap 1 = true
  small : ∀ i < 256, Allocated m i → Small m i
  page : ∀ i : Nat, IsDir m i → ptr m i 0 ≠ 0
  own : ∀ i p : Nat, i < 256 → p < 256 → Allocated m i → ptr m i 0 = p → 0 < p →
    bit m getPagesBitmap p = true
  apart : ∀ i j : Nat, i < 256 → j < 256 → Allocated m i → Allocated m j → ptr m i 0 = ptr m j 0 →
    ptr m i 0 ≠ 0 → i = j
  closed : ∀ p k : Nat, 2 ≤ p → p < 256 → k < 64 →
    m (direntName (pagesGetPage p) k + (59 : Nat)) = nul
  blank : ∀ p k : Nat, 2 ≤ p → p < 256 → k < 64 → m (direntName (pagesGetPage p) k) = nul →
    int32 m (direntInum (pagesGetPage p) k) = 0
  names : ∀ p k : Nat, 2 ≤ p → p < 256 → k < 64 →
    slash ∉ nameAt m p k ∨ p = 2 ∧ nameAt m p k = [slash]
  counted : RefCounted pageSlots (liveInodes m) (pageSlot m) (refs m)

/-- With the root directory, whose page is page 2. -/
structure Rooted (m : Image) : Prop extends Formatted m where
  root : IsDir m 0
  rootPage : ptr m 0 0 = 2

structure Tidy (m : Image) : Prop extends Rooted m where
  room : ∃ k < 64, m (direntName (pagesGetPage 2) k) = nul

theorem nameAt_nil {m : Image} {p k : Nat} :
    nameAt m p k = [] ↔ m (direntName (pagesGetPage p) k) = nul := by
  show strdup m (direntName (pagesGetPage p) k) (1048575 + 1) = [] ↔ _
  rw [strdup]
  by_cases h : m (direntName (pagesGetPage p) k) = nul
  · simp [h]
  · simp [h]

/-- A name that ends within its entry is compared as a whole. -/
theorem streq_nameAt {m : Image} {p k : Nat}
    (hend : m (direntName (pagesGetPage p) k + (59 : Nat)) = nul) {base : Str} (hnul : nul ∉ base) :
    streq m (direntName (pagesGetPage p) k) base = true ↔ nameAt m p k = base := by
  rw [streq_iff_strdup hnul (Nat.lt_succ_self base.length)]
  constructor
  · intro htext
    have hlen : base.length ≤ 59 := by
      rw [← htext]
      exact strdup_length _ hend
    have hfuel : base.length < NUFS_SIZE := Nat.lt_of_le_of_lt hlen (by decide)
    exact (streq_iff_strdup hnul hfuel).mp
      ((streq_iff_strdup hnul (Nat.lt_succ_self base.length)).mpr htext)
  · intro htext
    have hlen : base.length ≤ 59 := by
      rw [← htext]
      exact strdup_length _ hend
    have hfuel : base.length < NUFS_SIZE := Nat.lt_of_le_of_lt hlen (by decide)
    exact (streq_iff_strdup hnul (Nat.lt_succ_self base.length)).mp
      ((streq_iff_strdup hnul hfuel).mpr htext)

theorem mem_pageSlots {p k : Nat} : (p, k) ∈ pageSlots ↔ 2 ≤ p ∧ p < 256 ∧ k < 64 := by
  unfold pageSlots
  simp [and_assoc]

theorem IsDir.nat {m : Image} {cur : Int} (h : IsDir m cur) :
    ∃ i : Nat, cur = i ∧ i < 256 ∧ Allocated m i ∧ IsDir m i := by
  obtain ⟨h0, hlt, hal, hdir⟩ := h
  obtain ⟨i, rfl⟩ : ∃ i : Nat, cur = i := ⟨cur.toNat, by omega⟩
  exact ⟨i, rfl, by omega, hal, h0, hlt, hal, hdir⟩

namespace Formatted

variable {m : Image}

theorem dir (h : Formatted m) {cur : Int} (hdir : IsDir m cur) : ∃ i p : Nat, cur = i ∧ i < 256 ∧
    Allocated m i ∧ 2 ≤ p ∧ p < 256 ∧ ptr m i 0 = p ∧
    direntBase m (getInode cur) = pagesGetPage p := by
  obtain ⟨i, rfl, hi, hal, hdir'⟩ := hdir.nat
  have hne := h.page i hdir'
  rcases (h.small i hi hal).direct with hzero | ⟨hlo, hhi⟩
  · exact absurd hzero hne
  · obtain ⟨p, hp⟩ : ∃ p : Nat, ptr m i 0 = p := ⟨(ptr m i 0).toNat, by omega⟩
    exact ⟨i, p, rfl, hi, hal, by omega, by omega, hp, by rw [direntBase_eq, hp]⟩

theorem slot_live (h : Formatted m) {p k : Nat} (h2 : 2 ≤ p) (hp : p < 256) (hk : k < 64)
    (hused : m (direntName (pagesGetPage p) k) ≠ nul) :
    ∃ n < 256, Allocated m n ∧ int32 m (direntInum (pagesGetPage p) k) = (n : Int) := by
  have hslot : pageSlot m (p, k) = some (int32 m (direntInum (pagesGetPage p) k)) := if_neg hused
  exact h.counted.safe (p, k) (mem_pageSlots.mpr ⟨h2, hp, hk⟩) _ hslot

theorem lookup_cases (h : Formatted m) {cur : Int} (hdir : IsDir m cur) {name : Str}
    (hne : name ≠ []) (hnul : nul ∉ name) :
    (findName m (direntBase m (getInode cur)) name = none ∧
      directoryLookup m (getInode cur) name = -ENOENT) ∨
    ∃ k, findName m (direntBase m (getInode cur)) name = some k ∧
      ∃ n < 256, Allocated m n ∧ directoryLookup m (getInode cur) name = (n : Int) := by
  obtain ⟨i, p, -, -, -, h2, hp, -, hbase⟩ := h.dir hdir
  cases hfind : findName m (direntBase m (getInode cur)) name with
  | none => exact Or.inl ⟨rfl, directoryLookup_none hfind⟩
  | some k =>
    obtain ⟨hk, hsame, -⟩ := findName_some hfind
    rw [hbase] at hsame
    obtain ⟨n, hn, hal, htarget⟩ := h.slot_live h2 hp hk (streq_used hne hnul hsame)
    refine Or.inr ⟨k, rfl, n, hn, hal, ?_⟩
    rw [directoryLookup_some hfind, hbase, htarget]

theorem listed (h : Formatted m) {cur : Int} (hdir : IsDir m cur) {name : Str}
    (hname : EntryName name) :
    name ∈ directoryList m (getInode cur) ↔ 0 ≤ directoryLookup m (getInode cur) name := by
  rw [listed_iff hname]
  rcases h.lookup_cases hdir (List.ne_nil_of_length_pos hname.1) hname.2.2 with
    ⟨hfind, hlook⟩ | ⟨k, hfind, n, -, -, hlook⟩
  · rw [hfind, hlook]
    simp [ENOENT]
  · rw [hfind, hlook]
    simp

end Formatted

theorem mapM_ne_none {α β : Type} {f : α → Option β} {xs : List α} (h : ∀ x ∈ xs, f x ≠ none) :
    xs.mapM f ≠ none := by
  induction xs with
  | nil => simp
  | cons x xs ih =>
    obtain ⟨y, hy⟩ := Option.ne_none_iff_exists'.mp (h x List.mem_cons_self)
    obtain ⟨ys, hys⟩ :=
      Option.ne_none_iff_exists'.mp (ih fun z hz => h z (List.mem_cons_of_mem x hz))
    simp [List.mapM_cons, hy, hys]

theorem stat_ok {m : Image} {p : Path} (h : 0 ≤ treeLookup m p) :
    ∃ st, storageStat m p = .ok st := by
  have hnonneg : ¬ treeLookup m p < 0 := by omega
  unfold storageStat
  dsimp only
  rw [if_neg hnonneg]
  exact ⟨_, rfl⟩

theorem Rooted.root_base {m : Image} (h : Rooted m) :
    direntBase m (getInode 0) = pagesGetPage 2 := by
  have hbase := direntBase_eq m 0
  rw [h.rootPage] at hbase
  exact hbase

theorem Rooted.page_two {m : Image} (h : Rooted m) {p : Nat} (hp : ptr m 0 0 = p) : p = 2 := by
  rw [h.rootPage] at hp
  omega

theorem Rooted.alone {m : Image} (h : Rooted m) {i : Nat} (hi : i < 256) (hal : Allocated m i)
    (hptr : ptr m i 0 = 2) : i = 0 :=
  h.apart i 0 hi (by decide) hal h.root.2.2.1 (hptr.trans h.rootPage.symm) (by omega)

namespace Tidy

variable {m : Image}

/-- The first free entry of the root answers the empty name. -/
theorem lookup_empty (h : Tidy m) : directoryLookup m (getInode 0) [] = 0 := by
  obtain ⟨k, hk, hfree⟩ := h.room
  cases hfind : findName m (direntBase m (getInode 0)) [] with
  | none =>
    have hother := findName_none hfind k hk
    rw [h.root_base] at hother
    simp [streq, hfree] at hother
  | some j =>
    obtain ⟨hj, hsame, -⟩ := findName_some hfind
    rw [h.root_base] at hsame
    rw [directoryLookup_some hfind, h.root_base]
    apply h.blank 2 j (by decide) (by decide) hj
    simpa [streq] using hsame

theorem lookup_root (h : Tidy m) : treeLookup m Path.root = 0 := by
  have hsplit : sSplit Path.root.text slash = [[]] := rfl
  unfold treeLookup
  rw [hsplit, lookupFrom_cons, h.lookup_empty]
  rfl

/-- A name that is listed has a lookup, also the name "/" that the root may hold. -/
theorem listed_resolves (h : Tidy m) {p : Path} (hp : IsDir m (treeLookup m p)) {item : Str}
    (hitem : item ∈ storageList m p) : 0 ≤ treeLookup m (p.join item) := by
  obtain ⟨i, q, hi, hlt, hal, h2, hq, hptr, hbase⟩ := h.dir hp
  obtain ⟨k, hk, hused, htext⟩ := mem_directoryList.mp hitem
  rw [hbase] at hused htext
  have hnul : nul ∉ item := htext ▸ strdup_noNul m _ _
  have hlen : item.length ≤ 59 := htext ▸ strdup_length NUFS_SIZE (h.closed q k h2 hq hk)
  have hpos : 1 ≤ item.length := by
    rw [← htext]
    show 1 ≤ (strdup m (direntName (pagesGetPage q) k) (1048575 + 1)).length
    rw [strdup, if_neg hused]
    exact Nat.le_add_left 1 _
  rw [treeLookup_join hnul hp.1]
  rcases h.names q k h2 hq hk with hslash | ⟨rfl, hname⟩
  · have hslash' : slash ∉ item := htext ▸ hslash
    have hlook := (h.listed hp ⟨hpos, hlen, hnul⟩).mp hitem
    have hnonneg : ¬ directoryLookup m (getInode (treeLookup m p)) item < 0 := by omega
    rw [sSplit_single (List.ne_nil_of_length_pos hpos) hslash', lookupFrom_cons, if_neg hnonneg]
    exact hlook
  · obtain rfl : i = 0 := h.alone hlt hal hptr
    have hitem : item = [slash] := htext.symm.trans hname
    have hsplit : sSplit item slash = [[]] := by rw [hitem]; rfl
    have hempty := h.lookup_empty
    rw [hsplit, hi, lookupFrom_cons]
    rw [show getInode ((0 : Nat) : Int) = getInode 0 from rfl, hempty]
    exact Int.le_refl 0

theorem holds (h : Tidy m) : Namespace m := by
  have hlookup : ∀ p : Path, IsDir m (treeLookup m p) → ∀ name, EntryName name → slash ∉ name →
      treeLookup m (p.join name) = directoryLookup m (getInode (treeLookup m p)) name := by
    intro p hp name hname hslash
    rw [treeLookup_join hname.2.2 hp.1, sSplit_single (List.ne_nil_of_length_pos hname.1) hslash,
      lookupFrom_cons]
    by_cases hneg : directoryLookup m (getInode (treeLookup m p)) name < 0
    · rw [if_pos hneg]
    · rw [if_neg hneg]
      rfl
  have hlisted : ∀ p : Path, IsDir m (treeLookup m p) → ∀ name, EntryName name → slash ∉ name →
      (name ∈ storageList m p ↔ 0 ≤ treeLookup m (p.join name)) := by
    intro p hp name hname hslash
    rw [hlookup p hp name hname hslash]
    exact h.listed hp hname
  refine ⟨h.lookup_root, hlisted, fun p hp => ?_⟩
  obtain ⟨st, hst⟩ := stat_ok hp.1
  unfold nufsReaddir
  rw [hst]
  dsimp only
  rw [Ne, Option.map_eq_none_iff]
  apply mapM_ne_none
  intro item hitem
  obtain ⟨st', hst'⟩ := stat_ok (h.listed_resolves hp hitem)
  rw [hst']
  exact Option.some_ne_none _

end Tidy

end Cs3650.Nufs
