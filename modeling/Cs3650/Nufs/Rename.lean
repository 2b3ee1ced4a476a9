import Cs3650.Nufs.NamespaceRuns
import Mathlib.Data.List.Find

/-!
# Renaming a file

A rename links the new name and then unlinks the old one. Where the link is
refused nothing has changed; where it is made, what it takes for the paths to
resolve as they should is `Renamable`.
-/

namespace Cs3650.Nufs

open Cs3650.Lib

/-- No doubled slash stands around the last name. -/
def EndsPlain (path : Path) : Prop :=
  sSplit path.text slash = sSplit path.dirname.text slash ++ [path.basename]

/-- How many entries of the directory have the name. -/
def entriesNamed (m : Image) (dir : Int) (name : Str) : Nat :=
  ((Finset.range 64).filter fun k => streq m (direntName (direntBase m dir) k) name = true).card

/-- The directory refuses the new name. -/
def LinkRefused (m : Image) (dst : Path) : Prop :=
  0 < directoryLookup m (getInode (treeLookup m dst.dirname)) dst.basename ∨
    60 < dst.basename.length ∨ freeEntries m (getInode (treeLookup m dst.dirname)) = 0

structure Renamable (m : Image) (src dst : Path) : Prop where
  srcPlain : EndsPlain src
  dstPlain : EndsPlain dst
  whole : dst.basename.length ≤ 59
  dstRoom : 2 ≤ freeEntries m (getInode (treeLookup m dst.dirname))
  srcRoom : 1 ≤ freeEntries m (getInode (treeLookup m src.dirname))
  single : entriesNamed m (getInode (treeLookup m src.dirname)) src.basename = 1

/-- Each name of a path is looked up in a directory, and none is one of the
entries to avoid. -/
def Avoids (m : Image) (avoid : Int → Str → Prop) : Int → List Str → Prop
  | _, [] => True
  | cur, base :: rest => IsDir m cur ∧ ¬ avoid cur base ∧
    (0 ≤ directoryLookup m (getInode cur) base →
      Avoids m avoid (directoryLookup m (getInode cur) base) rest)

def Elsewhere (m : Image) (src dst q : Path) : Prop :=
  Avoids m (fun cur base => cur = treeLookup m src.dirname ∧ base = src.basename ∨
    cur = treeLookup m dst.dirname ∧ base = dst.basename) 0 (sSplit q.text slash)

/-- The old name is gone, the new one is there and no other path has changed. -/
structure Moved (m m' : Image) (src dst : Path) : Prop where
  target : treeLookup m' dst = treeLookup m src
  source : treeLookup m' src = -ENOENT
  others : ∀ q : Path, Elsewhere m src dst q → treeLookup m' q = treeLookup m q

/-- What a rename promises, by its return value. -/
def Renames (m : Image) (src dst : Path) : Prop :=
  ((storageRename m src dst).2 = 0 → Moved m (storageRename m src dst).1 src dst) ∧
    ((storageRename m src dst).2 < 0 → ∀ q, treeLookup (storageRename m src dst).1 q =
      treeLookup m q)

/-! ## Lookups by name -/

section

variable {m m' : Image}

theorem Formatted.streq_iff (h : Formatted m) {p k : Nat} (h2 : 2 ≤ p) (hp : p < 256) (hk : k < 64)
    {base : Str} (hnul : nul ∉ base) :
    streq m (direntName (pagesGetPage p) k) base = true ↔ nameAt m p k = base :=
  streq_nameAt (h.closed p k h2 hp hk) hnul

theorem Formatted.find_some (h : Formatted m) {p k : Nat} (h2 : 2 ≤ p) (hp : p < 256) {base : Str}
    (hnul : nul ∉ base) (hfind : findName m (pagesGetPage p) base = some k) :
    k < 64 ∧ nameAt m p k = base := by
  obtain ⟨hk, hsame, -⟩ := findName_some hfind
  exact ⟨hk, (h.streq_iff h2 hp hk hnul).mp hsame⟩

theorem Formatted.find_none (h : Formatted m) {p : Nat} (h2 : 2 ≤ p) (hp : p < 256) {base : Str}
    (hnul : nul ∉ base) (hfind : findName m (pagesGetPage p) base = none) :
    ∀ k < 64, nameAt m p k ≠ base := by
  intro k hk hname
  have hother := findName_none hfind k hk
  rw [(h.streq_iff h2 hp hk hnul).mpr hname] at hother
  cases hother

theorem Formatted.find_congr (h : Formatted m) (h' : Formatted m') {p : Nat} (h2 : 2 ≤ p)
    (hp : p < 256)
    {base : Str} (hnul : nul ∉ base)
    (hsame : ∀ k < 64, nameAt m' p k = base ↔ nameAt m p k = base) :
    findName m' (pagesGetPage p) base = findName m (pagesGetPage p) base := by
  unfold findName
  apply List.find?_congr
  intro k hk
  have hk64 := List.mem_range.mp hk
  rw [Bool.eq_iff_iff, h'.streq_iff h2 hp hk64 hnul, h.streq_iff h2 hp hk64 hnul]
  exact hsame k hk64

theorem Formatted.lookup_empty (h : Formatted m) {cur : Int} (hdir : IsDir m cur)
    (hfree : 0 < freeEntries m (getInode cur)) : directoryLookup m (getInode cur) [] = 0 := by
  obtain ⟨i, p, -, -, -, h2, hp, -, hbase⟩ := h.dir hdir
  obtain ⟨k, hk⟩ := Finset.card_pos.mp hfree
  obtain ⟨hk64, hkfree⟩ := Finset.mem_filter.mp hk
  cases hfind : findName m (direntBase m (getInode cur)) [] with
  | none =>
    have hother := findName_none hfind k (Finset.mem_range.mp hk64)
    simp [streq, hkfree] at hother
  | some j =>
    obtain ⟨hj, hsame, -⟩ := findName_some hfind
    rw [hbase] at hsame
    rw [directoryLookup_some hfind, hbase]
    exact h.blank p j h2 hp hj (by simpa [streq] using hsame)

/-- A slot and a count change; a name that the slot has neither before nor after
is found as before. -/
theorem Formatted.lookup_header (h : Formatted m) (h' : Formatted m') {P k i : Nat} (h2 : 2 ≤ P)
    (hk : k < 64) (hi : i < 256)
    (hchanged : ChangedIn {x | x ∈ slot P k ∨ x ∈ span (getInode i) 4} m m') {cur : Int}
    (hdir : IsDir m cur) {base : Str} (hnul : nul ∉ base)
    (hname : direntBase m (getInode cur) = pagesGetPage P → nameAt m P k ≠ base ∧
      nameAt m' P k ≠ base) :
    directoryLookup m' (getInode cur) base = directoryLookup m (getInode cur) base := by
  obtain ⟨x, p, rfl, hx, -, hp2, hp, hptr, hbase⟩ := h.dir hdir
  have hbase' := (direntBase_header h2 hchanged hx).trans hbase
  have hbelow := header_below hi
  have hsame : ∀ j < 64, nameAt m' p j = base ↔ nameAt m p j = base := by
    intro j hj
    by_cases hslot : p = P ∧ j = k
    · obtain ⟨rfl, rfl⟩ := hslot
      obtain ⟨hold, hnew⟩ := hname hbase
      simp only [hold, hnew]
    · rw [nameAt_entry hchanged hbelow hp2 hk hj hslot (h.closed p j hp2 hp hj)]
  have hfind := h.find_congr h' hp2 hp hnul hsame
  cases hold : findName m (pagesGetPage p) base with
  | none =>
    rw [hold] at hfind
    rw [directoryLookup_none (by rw [hbase', hfind]), directoryLookup_none (by rw [hbase, hold])]
  | some j =>
    obtain ⟨hj, htext⟩ := h.find_some hp2 hp hnul hold
    rw [hold] at hfind
    have hslot : ¬(p = P ∧ j = k) := by
      rintro ⟨rfl, rfl⟩
      exact (hname hbase).1 htext
    rw [directoryLookup_some (by rw [hbase', hfind]), directoryLookup_some (by rw [hbase, hold]),
      hbase, hbase', inum_entry hchanged hbelow hp2 hk hj hslot]

end

/-! ## Components -/

theorem treeLookup_plain {m : Image} {p : Path} (hp : EndsPlain p)
    (hdir : 0 ≤ treeLookup m p.dirname) :
    treeLookup m p = directoryLookup m (getInode (treeLookup m p.dirname)) p.basename := by
  have happend := lookupFrom_append [p.basename] (rfl : treeLookup m p.dirname = _) hdir
  rw [← hp] at happend
  refine happend.trans ?_
  rw [lookupFrom_cons]
  by_cases hneg : directoryLookup m (getInode (treeLookup m p.dirname)) p.basename < 0
  · rw [if_pos hneg]
  · rw [if_neg hneg]
    rfl

/-- A walk through directories does not use a name that leads nowhere or to a file. -/
theorem DirWalk.lookupFrom_same {m m' : Image} {cur : Int} {cs : List Str} (h : DirWalk m cur cs)
    (hnul : ∀ c ∈ cs, nul ∉ c)
    (hlook : ∀ d name, IsDir m d → nul ∉ name → IsDir m (directoryLookup m (getInode d) name) →
      directoryLookup m' (getInode d) name = directoryLookup m (getInode d) name) :
    lookupFrom m' cur cs = lookupFrom m cur cs := by
  induction cs generalizing cur with
  | nil => rfl
  | cons base rest ih =>
    have hnext : IsDir m (directoryLookup m (getInode cur) base) := by
      cases rest with
      | nil => exact h.2
      | cons base' rest' => exact h.2.1
    rw [lookupFrom_cons, lookupFrom_cons,
      hlook cur base h.1 (hnul base List.mem_cons_self) hnext,
      ih h.2 fun c hc => hnul c (List.mem_cons_of_mem base hc)]

theorem Avoids.lookupFrom_same {m m' : Image} {avoid : Int → Str → Prop} {cur : Int} {cs : List Str}
    (h : Avoids m avoid cur cs) (hnul : ∀ c ∈ cs, nul ∉ c)
    (hlook : ∀ d name, IsDir m d → nul ∉ name → ¬ avoid d name →
      directoryLookup m' (getInode d) name = directoryLookup m (getInode d) name) :
    lookupFrom m' cur cs = lookupFrom m cur cs := by
  induction cs generalizing cur with
  | nil => rfl
  | cons base rest ih =>
    obtain ⟨hdir, havoid, hrest⟩ := h
    rw [lookupFrom_cons, lookupFrom_cons,
      hlook cur base hdir (hnul base List.mem_cons_self) havoid]
    by_cases hneg : directoryLookup m (getInode cur) base < 0
    · rw [if_pos hneg, if_pos hneg]
    · rw [if_neg hneg, if_neg hneg]
      exact ih (hrest (by omega)) fun c hc => hnul c (List.mem_cons_of_mem base hc)

/-! ## A directory as a map from names -/

section

variable {m m' : Image} {d P i k : Nat} {name : Str}

theorem Formatted.dir_unique (h : Formatted m) {cur : Int} (hd : IsDir m d) (hcur : IsDir m cur)
    (hbase : direntBase m (getInode d) = pagesGetPage P)
    (hsame : direntBase m (getInode cur) = pagesGetPage P) : cur = d := by
  obtain ⟨x, p, rfl, hx, hxal, hp2, -, hxptr, hxbase⟩ := h.dir hcur
  obtain ⟨y, q, hy, hylt, hyal, -, -, hyptr, hybase⟩ := h.dir hd
  obtain rfl : d = y := by omega
  have hpq : pagesGetPage p = pagesGetPage q := by rw [← hxbase, ← hybase, hsame, hbase]
  have hxy := h.apart x d hx hylt hxal hyal (by unfold pagesGetPage at hpq; omega) (by omega)
  rw [hxy]

theorem Put.free_left (hput : Put m m' P name i k)
    (hbase : direntBase m (getInode d) = pagesGetPage P) (h2 : 2 ≤ P) (hi : i < 256) (hd : d < 256)
    (hfree : 2 ≤ freeEntries m (getInode d)) : 0 < freeEntries m' (getInode d) := by
  obtain ⟨j, hj, hjk⟩ := Finset.exists_mem_ne hfree k
  obtain ⟨hj64, hjfree⟩ := Finset.mem_filter.mp hj
  have hbase' := (direntBase_header h2 hput.changed hd).trans hbase
  have hbyte := byte_entry hput.changed (header_below hi) h2 hput.lt (Finset.mem_range.mp hj64)
    (fun hc => hjk hc.2) (i := 0) (by decide)
  simp only [Int.natCast_zero, Int.add_zero] at hbyte
  apply Finset.card_pos.mpr
  refine ⟨j, Finset.mem_filter.mpr ⟨hj64, ?_⟩⟩
  rw [hbase', hbyte, ← hbase]
  exact hjfree

theorem Formatted.lookup_put (h : Formatted m) (h' : Formatted m') (hd : IsDir m d)
    (hbase : direntBase m (getInode d) = pagesGetPage P) (h2 : 2 ≤ P) (hi : i < 256)
    (hput : Put m m' P name i k) (hnul : nul ∉ name) (hlen : name.length ≤ 59)
    (hfree : 2 ≤ freeEntries m (getInode d)) {cur : Int} (hcur : IsDir m cur) {base : Str}
    (hbasenul : nul ∉ base) (hne : ¬(cur = d ∧ base = name)) :
    directoryLookup m' (getInode cur) base = directoryLookup m (getInode cur) base := by
  have hdlt : d < 256 := by have := hd.2.1; omega
  by_cases hempty : direntBase m (getInode cur) = pagesGetPage P ∧ base = []
  · obtain ⟨hsame, rfl⟩ := hempty
    obtain rfl := h.dir_unique hd hcur hbase hsame
    rw [h.lookup_empty hd (by omega), h'.lookup_empty ((isDir_header h2 hput.changed _).mpr hd)
      (hput.free_left hbase h2 hi hdlt hfree)]
  · refine h.lookup_header h' h2 hput.lt hi hput.changed hcur hbasenul fun hsame => ?_
    have hcurd := h.dir_unique hd hcur hbase hsame
    have hold : nameAt m P k = [] := nameAt_nil.mpr hput.free
    have hnew : nameAt m' P k = name := (hput.strdup hnul).trans (List.take_of_length_le hlen)
    rw [hold, hnew]
    exact ⟨fun he => hempty ⟨hsame, he.symm⟩, fun he => hne ⟨hcurd, he.symm⟩⟩

theorem Formatted.lookup_new (h : Formatted m) (h' : Formatted m')
    (hbase : direntBase m (getInode d) = pagesGetPage P) (h2 : 2 ≤ P) (hP : P < 256) (hi : i < 256)
    (hd : d < 256) (hput : Put m m' P name i k) (hnul : nul ∉ name) (hlen : name.length ≤ 59)
    (hfind : findName m (pagesGetPage P) name = none) :
    directoryLookup m' (getInode d) name = i := by
  have hbase' := (direntBase_header h2 hput.changed hd).trans hbase
  have hnew : nameAt m' P k = name := (hput.strdup hnul).trans (List.take_of_length_le hlen)
  cases hfind' : findName m' (pagesGetPage P) name with
  | none => exact absurd hnew (h'.find_none h2 hP hnul hfind' k hput.lt)
  | some j =>
    obtain ⟨hj, htext⟩ := h'.find_some h2 hP hnul hfind'
    have hjk : j = k := by
      by_contra hne
      rw [nameAt_entry hput.changed (header_below hi) h2 hput.lt hj (fun hc => hne hc.2)
        (h.closed P j h2 hP hj)] at htext
      exact h.find_none h2 hP hnul hfind j hj htext
    rw [directoryLookup_some (by rw [hbase', hfind']), hbase', hjk, hput.target]

theorem Formatted.lookup_drop (h : Formatted m) (h' : Formatted m') (hd : IsDir m d)
    (hbase : direntBase m (getInode d) = pagesGetPage P) (h2 : 2 ≤ P) (hk : k < 64) (hi : i < 256)
    (hdrop : Dropped m m' P k i) (hmore : refs m i ≠ 1) (hname : nameAt m P k = name)
    (hfree : 0 < freeEntries m (getInode d)) {cur : Int} (hcur : IsDir m cur) {base : Str}
    (hbasenul : nul ∉ base) (hne : ¬(cur = d ∧ base = name)) :
    directoryLookup m' (getInode cur) base = directoryLookup m (getInode cur) base := by
  have hchanged := (hdrop.more hmore).1
  have hdlt : d < 256 := by have := hd.2.1; omega
  have hbase' := (direntBase_header h2 hchanged hdlt).trans hbase
  by_cases hempty : direntBase m (getInode cur) = pagesGetPage P ∧ base = []
  · obtain ⟨hsame, rfl⟩ := hempty
    obtain rfl := h.dir_unique hd hcur hbase hsame
    have hfree' : 0 < freeEntries m' (getInode d) := by
      apply Finset.card_pos.mpr
      refine ⟨k, Finset.mem_filter.mpr ⟨Finset.mem_range.mpr hk, ?_⟩⟩
      rw [hbase']
      exact hdrop.free
    rw [h.lookup_empty hd hfree, h'.lookup_empty ((isDir_header h2 hchanged _).mpr hd) hfree']
  · refine h.lookup_header h' h2 hk hi hchanged hcur hbasenul fun hsame => ?_
    have hcurd := h.dir_unique hd hcur hbase hsame
    have hnew : nameAt m' P k = [] := nameAt_nil.mpr hdrop.free
    rw [hname, hnew]
    exact ⟨fun he => hne ⟨hcurd, he.symm⟩, fun he => hempty ⟨hsame, he.symm⟩⟩

theorem Formatted.lookup_gone (h : Formatted m) (h' : Formatted m')
    (hbase : direntBase m (getInode d) = pagesGetPage P) (h2 : 2 ≤ P) (hP : P < 256) (hk : k < 64)
    (hi : i < 256) (hd : d < 256) (hdrop : Dropped m m' P k i) (hmore : refs m i ≠ 1)
    (hne : name ≠ []) (hnul : nul ∉ name) (hsingle : ∀ x < 64, nameAt m P x = name → x = k) :
    directoryLookup m' (getInode d) name = -ENOENT := by
  have hchanged := (hdrop.more hmore).1
  have hbase' := (direntBase_header h2 hchanged hd).trans hbase
  apply directoryLookup_none
  rw [hbase']
  cases hfind : findName m' (pagesGetPage P) name with
  | none => rfl
  | some x =>
    obtain ⟨hx, htext⟩ := h'.find_some h2 hP hnul hfind
    by_cases hxk : x = k
    · have hnew : nameAt m' P x = [] := nameAt_nil.mpr (by rw [hxk]; exact hdrop.free)
      exact absurd (htext.symm.trans hnew) hne
    · rw [nameAt_entry hchanged (header_below hi) h2 hk hx (fun hc => hxk hc.2)
        (h.closed P x h2 hP hx)] at htext
      exact absurd (hsingle x hx htext) hxk

end

/-! ## Both halves -/

section

variable {m : Image} {src dst : Path}

theorem storageLink_eq {i d : Nat} (hsrc : treeLookup m src = i) (hdst : treeLookup m dst ≤ 0)
    (hdir : treeLookup m dst.dirname = d) :
    storageLink m src dst = directoryPut m (getInode d) dst.basename i := by
  have hfirst : ¬ (i : Int) < 0 := by omega
  have hsecond : ¬ treeLookup m dst > 0 := by omega
  have hnum : ¬ (d : Int) < 0 := by omega
  unfold storageLink
  dsimp only
  rw [hsrc, if_neg hfirst, if_neg hsecond, hdir, if_neg hnum]

theorem rename_refused (h : Tidy m) (hsrc : IsFile m (treeLookup m src))
    (hdst : treeLookup m dst < 0)
    (hdir : DirPath m dst.dirname) (hrefused : LinkRefused m dst) :
    storageRename m src dst = (m, -1) := by
  obtain ⟨i, hi⟩ : ∃ i : Nat, treeLookup m src = i :=
    ⟨(treeLookup m src).toNat, by have := hsrc.1; omega⟩
  have hlt : i < 256 := by have := hsrc.2.1; omega
  obtain ⟨d, P, hd, -, -, h2, hP, -, hbase⟩ := h.dir hdir.isDir
  have hput : directoryPut m (getInode (treeLookup m dst.dirname)) dst.basename i = (m, -1) := by
    rcases directoryPut_cases dst.basename hbase h2 hlt with ⟨hsame, -⟩
      | ⟨hlook, hlen, m', k, -, hnew⟩
    · exact hsame
    · rcases hrefused with hpos | hlong | hfull
      · omega
      · omega
      · have hfree : k ∈ (Finset.range 64).filter fun j =>
            m (direntName (direntBase m (getInode (treeLookup m dst.dirname))) j) = nul := by
          rw [Finset.mem_filter, hbase]
          exact ⟨Finset.mem_range.mpr hnew.lt, hnew.free⟩
        have := Finset.card_pos.mpr ⟨k, hfree⟩
        unfold freeEntries at hfull
        omega
  rw [hd] at hput
  have hlink : storageLink m src dst = (m, -1) :=
    (storageLink_eq hi (Int.le_of_lt hdst) hd).trans hput
  unfold storageRename
  rw [hlink]
  rfl

/-- The state between the two halves. Inode `i` is in entry `j` of directory `e`
under its old name, and in entry `k` of directory `d` under its new one. -/
structure Linked (m m₁ : Image) (src dst : Path) (i d e P Q j k : Nat) : Prop where
  before : Tidy m
  after : Formatted m₁
  dstParent : treeLookup m dst.dirname = d
  srcParent : treeLookup m src.dirname = e
  dstDir : IsDir m d
  srcDir : IsDir m e
  dstPage : 2 ≤ P ∧ P < 256 ∧ direntBase m (getInode d) = pagesGetPage P
  srcPage : 2 ≤ Q ∧ Q < 256 ∧ direntBase m (getInode e) = pagesGetPage Q
  inode : i < 256 ∧ Allocated m i ∧ ¬ IsDir m i ∧ 1 ≤ refs m i
  absent : findName m (pagesGetPage P) dst.basename = none
  present : findName m (pagesGetPage Q) src.basename = some j
  target : int32 m (direntInum (pagesGetPage Q) j) = i
  put : Put m m₁ P dst.basename i k
  whole : dst.basename.length ≤ 59

theorem link_made (h : Tidy m) (hsrc : IsFile m (treeLookup m src)) (hsdir : DirPath m src.dirname)
    (hdst : treeLookup m dst < 0) (hddir : DirPath m dst.dirname) (hr : Renamable m src dst) :
    ∃ m₁, ∃ i d e P Q j k : Nat, storageLink m src dst = (m₁, 0) ∧ treeLookup m src = i ∧
      Linked m m₁ src dst i d e P Q j k := by
  obtain ⟨hsne, hsnul, -⟩ := basename_cases src
  obtain ⟨hdne, hdnul, -⟩ := basename_cases dst
  obtain ⟨d, P, hdeq, -, -, hP2, hP, hdptr, hdbase⟩ := h.dir hddir.isDir
  obtain ⟨e, Q, heeq, -, -, hQ2, hQ, -, hebase⟩ := h.dir hsdir.isDir
  have hd : IsDir m d := hdeq ▸ hddir.isDir
  have he : IsDir m e := heeq ▸ hsdir.isDir
  have hslook := treeLookup_plain hr.srcPlain hsdir.isDir.1
  have hdlook := treeLookup_plain hr.dstPlain hddir.isDir.1
  have hdroom := hr.dstRoom
  rw [heeq] at hslook hebase
  rw [hdeq] at hdlook hdbase hdroom
  obtain ⟨hdfind, hdlook'⟩ : findName m (direntBase m (getInode d)) dst.basename = none ∧
      directoryLookup m (getInode d) dst.basename = -ENOENT := by
    rcases h.lookup_cases hd hdne hdnul with hnone | ⟨-, -, n, -, -, hlook⟩
    · exact hnone
    · omega
  obtain ⟨j, hsfind, i, hi, hal, hsi⟩ :
      ∃ j, findName m (direntBase m (getInode e)) src.basename = some j ∧
      ∃ i < 256, Allocated m i ∧ directoryLookup m (getInode e) src.basename = (i : Int) := by
    rcases h.lookup_cases he hsne hsnul with ⟨-, hlook⟩ | hsome
    · have := hsrc.1
      rw [hslook, hlook] at this
      exact absurd this (by decide)
    · exact hsome
  have htarget := directoryLookup_some hsfind
  rw [hdbase] at hdfind
  rw [hebase] at hsfind
  rw [hsi, hebase] at htarget
  rw [hsi] at hslook
  obtain ⟨hj, hjname⟩ := h.find_some hQ2 hQ hsnul hsfind
  have hfile : ¬ IsDir m i := fun hdir => by
    have hdirbit := hdir.2.2.2
    rw [← hslook, hsrc.2.2.2] at hdirbit
    cases hdirbit
  have hrefs : 1 ≤ refs m i := by
    have hslot : pageSlot m (Q, j) = some (i : Int) := by
      rw [htarget]
      exact if_neg (fun hfree => hsne (hjname.symm.trans (nameAt_nil.mpr hfree)))
    rw [h.counted.exact i ⟨i, hi, hal, rfl⟩]
    have hcard := Finset.card_pos.mpr
      ⟨(Q, j), mem_holders.mpr ⟨mem_pageSlots.mpr ⟨hQ2, hQ, hj⟩, hslot⟩⟩
    omega
  obtain ⟨m₁, k, hput, hnew⟩ : ∃ m₁ k, directoryPut m (getInode d) dst.basename i = (m₁, 0) ∧
      Put m m₁ P dst.basename i k := by
    rcases directoryPut_cases dst.basename hdbase hP2 hi with ⟨-, hpos | hlong | hfull⟩
      | ⟨-, -, hok⟩
    · rw [hdlook'] at hpos
      exact absurd hpos (by decide)
    · have := hr.whole
      omega
    · obtain ⟨x, hx⟩ := Finset.card_pos.mp (Nat.lt_of_lt_of_le (by decide) hdroom)
      obtain ⟨hx64, hxfree⟩ := Finset.mem_filter.mp hx
      rw [hdbase] at hxfree
      exact absurd hxfree (hfull x (Finset.mem_range.mp hx64))
    · exact hok
  have h₁ : Formatted m₁ := h.toFormatted.put hP2 hP hi hal hnew hdne hdnul (by
    rcases h.basename_slash dst with hno | ⟨hroot, hname⟩
    · exact Or.inl hno
    · obtain rfl : d = 0 := Int.natCast_eq_zero.mp (hdeq.symm.trans hroot)
      exact Or.inr ⟨h.page_two hdptr, hname⟩)
  exact ⟨m₁, i, d, e, P, Q, j, k,
    (storageLink_eq hslook (Int.le_of_lt hdst) hdeq).trans hput, hslook,
    h, h₁, hdeq, heeq, hd, he, ⟨hP2, hP, hdbase⟩, ⟨hQ2, hQ, hebase⟩, ⟨hi, hal, hfile, hrefs⟩,
    hdfind, hsfind, htarget.symm, hnew, hr.whole⟩

namespace Linked

variable {m₁ : Image} {i d e P Q j k : Nat} (l : Linked m m₁ src dst i d e P Q j k)

include l

theorem lookup_absent : directoryLookup m (getInode d) dst.basename = -ENOENT :=
  directoryLookup_none (by rw [l.dstPage.2.2, l.absent])

theorem lookup_present : directoryLookup m (getInode e) src.basename = i := by
  rw [directoryLookup_some (by rw [l.srcPage.2.2, l.present]), l.srcPage.2.2, l.target]

theorem apart : ¬((e : Int) = d ∧ src.basename = dst.basename) := by
  rintro ⟨heq, hname⟩
  have hlook := l.lookup_present
  rw [heq, hname, l.lookup_absent] at hlook
  exact absurd hlook (by simp only [ENOENT]; omega)

theorem isDir_iff (cur : Int) : IsDir m₁ cur ↔ IsDir m cur :=
  isDir_header l.dstPage.1 l.put.changed cur

theorem base_after {x : Nat} (hx : IsDir m x) :
    direntBase m₁ (getInode x) = direntBase m (getInode x) :=
  direntBase_header l.dstPage.1 l.put.changed (by have := hx.2.1; omega)

/-- Equal pages are one directory, and the names in it differ. -/
theorem name_ne (hpage : Q = P) : src.basename ≠ dst.basename := by
  subst hpage
  have heq := l.before.dir_unique l.dstDir l.srcDir l.dstPage.2.2 l.srcPage.2.2
  exact fun hname => l.apart ⟨heq, hname⟩

theorem old_entry : j < 64 ∧ nameAt m Q j = src.basename ∧ ¬(Q = P ∧ j = k) := by
  obtain ⟨hsne, hsnul, -⟩ := basename_cases src
  obtain ⟨hj, hname⟩ := l.before.find_some l.srcPage.1 l.srcPage.2.1 hsnul l.present
  refine ⟨hj, hname, ?_⟩
  rintro ⟨rfl, rfl⟩
  exact hsne (hname.symm.trans (nameAt_nil.mpr l.put.free))

theorem new_name : nameAt m₁ P k = dst.basename :=
  (l.put.strdup (basename_cases dst).2.1).trans (List.take_of_length_le l.whole)

/-- The link does not bring the old name into the old directory once more. -/
theorem named_iff {x : Nat} (hx : x < 64) : nameAt m₁ Q x = src.basename ↔
    nameAt m Q x = src.basename := by
  by_cases hslot : Q = P ∧ x = k
  · have hne := l.name_ne hslot.1
    have hnew := l.new_name
    rw [hslot.1, hslot.2, hnew, nameAt_nil.mpr l.put.free]
    constructor
    · exact fun hname => absurd hname.symm hne
    · exact fun hname => absurd hname.symm (basename_cases src).1
  · rw [nameAt_entry l.put.changed (header_below l.inode.1) l.srcPage.1 l.put.lt hx hslot
      (l.before.closed Q x l.srcPage.1 l.srcPage.2.1 hx)]

theorem present_after : findName m₁ (pagesGetPage Q) src.basename = some j := by
  rw [← l.present]
  exact l.before.find_congr l.after l.srcPage.1 l.srcPage.2.1 (basename_cases src).2.1
    fun x hx => l.named_iff hx

theorem target_after : int32 m₁ (direntInum (pagesGetPage Q) j) = i := by
  obtain ⟨hj, -, hslot⟩ := l.old_entry
  rw [inum_entry l.put.changed (header_below l.inode.1) l.srcPage.1 l.put.lt hj hslot, l.target]

theorem refs_after : refs m₁ i = refs m i + 1 ∧ refs m₁ i ≠ 1 := by
  obtain ⟨hi, hal, -, hpos⟩ := l.inode
  have hrange := l.before.refs_range hi hal
  have hcount := l.put.count
  rw [bmod_of_lt (by omega) (by omega)] at hcount
  omega

theorem lookup_after {cur : Int} (hcur : IsDir m cur) {base : Str} (hnul : nul ∉ base)
    (hroom : 2 ≤ freeEntries m (getInode d)) (hne : ¬(cur = d ∧ base = dst.basename)) :
    directoryLookup m₁ (getInode cur) base = directoryLookup m (getInode cur) base :=
  l.before.lookup_put l.after l.dstDir l.dstPage.2.2 l.dstPage.1 l.inode.1 l.put
    (basename_cases dst).2.1 l.whole hroom hcur hnul hne

theorem srcRoom_after (hdroom : 2 ≤ freeEntries m (getInode d))
    (hsroom : 1 ≤ freeEntries m (getInode e)) : 0 < freeEntries m₁ (getInode e) := by
  by_cases hpage : Q = P
  · have heq := l.before.dir_unique l.dstDir l.srcDir l.dstPage.2.2 (hpage ▸ l.srcPage.2.2)
    rw [heq]
    exact l.put.free_left l.dstPage.2.2 l.dstPage.1 l.inode.1
      (by have := l.dstDir.2.1; omega) hdroom
  · obtain ⟨x, hx⟩ := Finset.card_pos.mp hsroom
    obtain ⟨hx64, hxfree⟩ := Finset.mem_filter.mp hx
    have hbyte := byte_entry l.put.changed (header_below l.inode.1) l.srcPage.1 l.put.lt
      (Finset.mem_range.mp hx64) (fun hc => hpage hc.1) (i := 0) (by decide)
    simp only [Int.natCast_zero, Int.add_zero] at hbyte
    apply Finset.card_pos.mpr
    refine ⟨x, Finset.mem_filter.mpr ⟨hx64, ?_⟩⟩
    rw [l.base_after l.srcDir, l.srcPage.2.2, hbyte, ← l.srcPage.2.2]
    exact hxfree

theorem srcParent_after (hsdir : DirPath m src.dirname) (hroom : 2 ≤ freeEntries m (getInode d)) :
    treeLookup m₁ src.dirname = e := by
  rw [← l.srcParent]
  apply DirWalk.lookupFrom_same hsdir src.dirname.component_noNul
  intro cur base hcur hnul hnext
  apply l.lookup_after hcur hnul hroom
  rintro ⟨rfl, rfl⟩
  rw [l.lookup_absent] at hnext
  exact absurd hnext.1 (by decide)

theorem unlink_made (hsrc : treeLookup m src = i) (hsdir : DirPath m src.dirname)
    (hddir : DirPath m dst.dirname) (hr : Renamable m src dst) :
    ∃ m₂, storageUnlink m₁ src = (m₂, 0) ∧ Moved m m₂ src dst := by
  obtain ⟨hsne, hsnul, -⟩ := basename_cases src
  obtain ⟨hdne, hdnul, -⟩ := basename_cases dst
  obtain ⟨hi, hal, hfile, -⟩ := l.inode
  obtain ⟨hQ2, hQ, hebase⟩ := l.srcPage
  obtain ⟨hj, hjname, -⟩ := l.old_entry
  have hdroom := hr.dstRoom
  have hsroom := hr.srcRoom
  have hsingle := hr.single
  rw [l.dstParent] at hdroom
  rw [l.srcParent] at hsroom hsingle
  have hal₁ : Allocated m₁ i := by rwa [Allocated, inodeBit_header l.dstPage.1 l.put.changed hi]
  have hebase₁ : direntBase m₁ (getInode e) = pagesGetPage Q := (l.base_after l.srcDir).trans hebase
  have hname₁ : nameAt m₁ Q j = src.basename := (l.named_iff hj).mpr hjname
  obtain ⟨m₂, hdelete, hdrop⟩ :=
    directoryDelete_found hebase₁ hQ2 hj l.present_after hi l.target_after (l.after.small i hi hal₁)
  have hused : m₁ (direntName (pagesGetPage Q) j) ≠ nul := fun hfree =>
    hsne (hname₁.symm.trans (nameAt_nil.mpr hfree))
  have h₂ := l.after.drop hQ2 hQ hj hi hused l.target_after hdrop
  have hmore := l.refs_after.2
  have hroom₁ := l.srcRoom_after hdroom hsroom
  have he₁ : IsDir m₁ e := (l.isDir_iff e).mpr l.srcDir
  -- what the second half does to lookups, and what both do
  have hsecond : ∀ cur base, IsDir m cur → nul ∉ base → ¬(cur = e ∧ base = src.basename) →
      directoryLookup m₂ (getInode cur) base = directoryLookup m₁ (getInode cur) base :=
    fun cur base hcur hnul hne =>
      l.after.lookup_drop h₂ he₁ hebase₁ hQ2 hj hi hdrop hmore hname₁ hroom₁
        ((l.isDir_iff cur).mpr hcur) hnul hne
  have hboth : ∀ cur base, IsDir m cur → nul ∉ base → ¬(cur = e ∧ base = src.basename) →
      ¬(cur = d ∧ base = dst.basename) →
      directoryLookup m₂ (getInode cur) base = directoryLookup m (getInode cur) base :=
    fun cur base hcur hnul hne hne' =>
      (hsecond cur base hcur hnul hne).trans (l.lookup_after hcur hnul hdroom hne')
  have hwalk : ∀ p : Path, DirPath m p → treeLookup m₂ p = treeLookup m p := by
    intro p hp
    apply DirWalk.lookupFrom_same hp p.component_noNul
    intro cur base hcur hnul hnext
    apply hboth cur base hcur hnul
    · rintro ⟨rfl, rfl⟩
      rw [l.lookup_present] at hnext
      exact hfile hnext
    · rintro ⟨rfl, rfl⟩
      rw [l.lookup_absent] at hnext
      exact absurd hnext.1 (by decide)
  have hsdir₂ := hwalk src.dirname hsdir
  have hddir₂ := hwalk dst.dirname hddir
  rw [l.srcParent] at hsdir₂
  rw [l.dstParent] at hddir₂
  have hunlink : storageUnlink m₁ src = (m₂, 0) := by
    unfold storageUnlink
    dsimp only
    rw [l.srcParent_after hsdir hdroom, hdelete]
  refine ⟨m₂, hunlink, ?_, ?_, ?_⟩
  · rw [treeLookup_plain hr.dstPlain (by rw [hddir₂]; exact Int.natCast_nonneg d), hddir₂,
      hsecond d dst.basename l.dstDir hdnul (fun hc => l.apart ⟨hc.1.symm, hc.2.symm⟩),
      l.before.lookup_new l.after l.dstPage.2.2 l.dstPage.1 l.dstPage.2.1 hi
        (by have := l.dstDir.2.1; omega) l.put hdnul l.whole l.absent, hsrc]
  · rw [treeLookup_plain hr.srcPlain (by rw [hsdir₂]; exact Int.natCast_nonneg e), hsdir₂]
    apply l.after.lookup_gone h₂ hebase₁ hQ2 hQ hj hi (by have := l.srcDir.2.1; omega)
      hdrop hmore hsne hsnul
    intro x hx hxname
    obtain ⟨y, hy⟩ := Finset.card_eq_one.mp hsingle
    have hmem : ∀ z < 64, nameAt m Q z = src.basename → z = y := by
      intro z hz hzname
      have hin : z ∈ (Finset.range 64).filter fun k =>
          streq m (direntName (direntBase m (getInode e)) k) src.basename = true := by
        rw [Finset.mem_filter, hebase]
        exact ⟨Finset.mem_range.mpr hz, (l.before.streq_iff hQ2 hQ hz hsnul).mpr hzname⟩
      rw [hy] at hin
      exact Finset.mem_singleton.mp hin
    rw [hmem x hx ((l.named_iff hx).mp hxname), hmem j hj hjname]
  · intro q hq
    apply Avoids.lookupFrom_same hq q.component_noNul
    intro cur base hcur hnul havoid
    rw [l.srcParent, l.dstParent] at havoid
    exact hboth cur base hcur hnul (fun hc => havoid (Or.inl hc)) (fun hc => havoid (Or.inr hc))

end Linked

theorem renames_of_tidy (h : Tidy m) (hsrc : IsFile m (treeLookup m src))
    (hsdir : DirPath m src.dirname) (hdst : treeLookup m dst < 0) (hddir : DirPath m dst.dirname)
    (hr : LinkRefused m dst ∨ Renamable m src dst) : Renames m src dst := by
  unfold Renames
  rcases hr with hrefused | hr
  · rw [rename_refused h hsrc hdst hddir hrefused]
    have hrv : (-1 : Int) ≠ 0 := by decide
    exact ⟨fun hz => absurd hz hrv, fun _ q => rfl⟩
  · obtain ⟨m₁, i, d, e, P, Q, j, k, hlink, hi, l⟩ := link_made h hsrc hsdir hdst hddir hr
    obtain ⟨m₂, hunlink, hmoved⟩ := l.unlink_made hi hsdir hddir hr
    have hrename : storageRename m src dst = (m₂, 0) := by
      unfold storageRename
      rw [hlink]
      exact hunlink
    rw [hrename]
    exact ⟨fun _ => hmoved, fun hneg => absurd hneg (Int.lt_irrefl 0)⟩

end

/-- In every state that a run clear of the defects reaches. -/
theorem run_renames (m : Image) (ops : List NameOp)
    (hlegal : AlongNames (fun m op => op.Legal m) (storageInit m) ops)
    (hclear : AlongNames (fun m op => op.Clear m) (storageInit m) ops) {src dst : Path}
    (hsrc : IsFile (runNameOps (storageInit m) ops)
      (treeLookup (runNameOps (storageInit m) ops) src))
    (hsdir : DirPath (runNameOps (storageInit m) ops) src.dirname)
    (hdst : treeLookup (runNameOps (storageInit m) ops) dst < 0)
    (hddir : DirPath (runNameOps (storageInit m) ops) dst.dirname)
    (hr : LinkRefused (runNameOps (storageInit m) ops) dst ∨
      Renamable (runNameOps (storageInit m) ops) src dst) :
    Renames (runNameOps (storageInit m) ops) src dst :=
  renames_of_tidy ((storageInit_tidy m).run ops hlegal hclear) hsrc hsdir hdst hddir hr

/-- A directory and a file, and the file moved into the directory. -/
theorem file_moves_into_directory : Renames (runNameOps (storageInit fun _ => 0)
    [.mknod ⟨[47, 100], rfl, by decide⟩ 0o40755, .mknod ⟨[47, 102], rfl, by decide⟩ 0o100644])
    ⟨[47, 102], rfl, by decide⟩ ⟨[47, 100, 47, 103], rfl, by decide⟩ := by
  generalize hops : [NameOp.mknod ⟨[47, 100], rfl, by decide⟩ 0o40755,
    .mknod ⟨[47, 102], rfl, by decide⟩ 0o100644] = ops
  generalize hsrc : (⟨[47, 102], rfl, by decide⟩ : Path) = src
  generalize hdst : (⟨[47, 100, 47, 103], rfl, by decide⟩ : Path) = dst
  have hfacts : AlongNames (fun m op => op.Legal m) (storageInit fun _ => 0) ops ∧
      AlongNames (fun m op => op.Clear m) (storageInit fun _ => 0) ops ∧
      IsFile (runNameOps (storageInit fun _ => 0) ops)
      (treeLookup (runNameOps (storageInit fun _ => 0) ops) src) ∧
      DirPath (runNameOps (storageInit fun _ => 0) ops) src.dirname ∧
      treeLookup (runNameOps (storageInit fun _ => 0) ops) dst < 0 ∧
      DirPath (runNameOps (storageInit fun _ => 0) ops) dst.dirname ∧
      dst.basename.length ≤ 59 ∧
      2 ≤ freeEntries (runNameOps (storageInit fun _ => 0) ops)
        (getInode (treeLookup (runNameOps (storageInit fun _ => 0) ops) dst.dirname)) ∧
      1 ≤ freeEntries (runNameOps (storageInit fun _ => 0) ops)
        (getInode (treeLookup (runNameOps (storageInit fun _ => 0) ops) src.dirname)) ∧
      entriesNamed (runNameOps (storageInit fun _ => 0) ops)
        (getInode (treeLookup (runNameOps (storageInit fun _ => 0) ops) src.dirname)) src.basename =
        1 := by
    subst hops hsrc hdst
    decide +kernel
  have hplain : EndsPlain src ∧ EndsPlain dst := by
    subst hsrc hdst
    exact ⟨rfl, rfl⟩
  obtain ⟨hlegal, hclear, hfile, hsdir, habsent, hddir, hwhole, hdroom, hsroom, hsingle⟩ := hfacts
  exact run_renames (fun _ => 0) ops hlegal hclear hfile hsdir habsent hddir
    (Or.inr ⟨hplain.1, hplain.2, hwhole, hdroom, hsroom, hsingle⟩)

/-- A name of 60 bytes is let through and stored with 59. -/
theorem long_name_lost : ¬ ∀ (m : Image) (ops : List NameOp),
    AlongNames (fun m op => op.Legal m) (storageInit m) ops → ∀ src dst : Path,
      IsFile (runNameOps (storageInit m) ops) (treeLookup (runNameOps (storageInit m) ops) src) →
      DirPath (runNameOps (storageInit m) ops) src.dirname →
      treeLookup (runNameOps (storageInit m) ops) dst < 0 →
      DirPath (runNameOps (storageInit m) ops) dst.dirname →
      Renames (runNameOps (storageInit m) ops) src dst := by
  intro h
  generalize hops : [NameOp.mknod ⟨[47, 97], rfl, by decide⟩ 0o100644] = ops
  generalize hsrc : (⟨[47, 97], rfl, by decide⟩ : Path) = src
  generalize hdst : (⟨47 :: List.replicate 60 98, rfl, by decide⟩ : Path) = dst
  have hfacts : AlongNames (fun m op => op.Legal m) (storageInit fun _ => 0) ops ∧
      IsFile (runNameOps (storageInit fun _ => 0) ops)
      (treeLookup (runNameOps (storageInit fun _ => 0) ops) src) ∧
      DirPath (runNameOps (storageInit fun _ => 0) ops) src.dirname ∧
      treeLookup (runNameOps (storageInit fun _ => 0) ops) dst < 0 ∧
      DirPath (runNameOps (storageInit fun _ => 0) ops) dst.dirname ∧
      (storageRename (runNameOps (storageInit fun _ => 0) ops) src dst).2 = 0 ∧
      treeLookup (storageRename (runNameOps (storageInit fun _ => 0) ops) src dst).1 dst ≠
        treeLookup (runNameOps (storageInit fun _ => 0) ops) src := by
    subst hops hsrc hdst
    decide +kernel
  obtain ⟨hlegal, hfile, hsdir, habsent, hddir, hok, hlost⟩ := hfacts
  exact hlost ((h (fun _ => 0) ops hlegal src dst hfile hsdir habsent hddir).1 hok).target

end Cs3650.Nufs
