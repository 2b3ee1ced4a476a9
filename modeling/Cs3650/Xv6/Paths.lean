import Mathlib.Data.List.TakeWhile
import Cs3650.Xv6.Dirs

/-!
# Paths (hw09/starter-hw09/xv6: fs.c, skipelem, namex, namei and nameiparent)

A path ends at its first NUL. An inode is its number, and a directory the list of its
entries; the references to the inodes are left out.
-/

namespace Cs3650.Xv6.Paths

open Cs3650.Lib Cs3650.Xv6.Dirs

def slash : Byte := 0x2F

def ROOTINO : Nat := 1

/-- The inodes that are directories, and the working directory of the process. -/
structure Tree where
  dirs : Nat → Option Dir
  cwd : Nat

def inElem (c : Byte) : Bool := c != slash && c != 0

/-- The rest of the path, and `name` with the first element in it. -/
def skipelem (path name : Chars) : Option (Chars × Chars) :=
  let s := path.dropWhile (· == slash)
  if s.headD 0 = 0 then none
  else
    let elem := s.takeWhile inElem
    let name' :=
      if DIRSIZ ≤ elem.length then elem.take DIRSIZ ++ name.drop DIRSIZ
      else elem ++ 0 :: name.drop (elem.length + 1)
    some ((s.dropWhile inElem).dropWhile (· == slash), name')

variable {path name rest name' s l : Chars} {t : Tree} {ip : Nat}

theorem length_dropWhile_le (p : Byte → Bool) (s : Chars) : (s.dropWhile p).length ≤ s.length :=
  (List.dropWhile_sublist p).length_le

theorem head_dropWhile (s : Chars) : (s.dropWhile (· == slash)).headD 0 ≠ slash := by
  induction s with
  | nil => simp [slash]
  | cons c s ih =>
    rw [List.dropWhile_cons]
    split
    · exact ih
    · next hc => simpa using hc

theorem skipelem_length (h : skipelem path name = some (rest, name')) :
    rest.length < path.length := by
  simp only [skipelem] at h
  split at h
  · cases h
  · next hhead =>
    rw [Option.some.injEq, Prod.mk.injEq] at h
    have hle : (path.dropWhile (· == slash)).length ≤ path.length := length_dropWhile_le _ path
    have hslash := head_dropWhile path
    rw [← h.1]
    cases hs : path.dropWhile (· == slash) with
    | nil => simp [hs] at hhead
    | cons c s =>
      rw [hs] at hhead hslash hle
      have hc : inElem c = true := by simpa [inElem] using And.intro hslash hhead
      rw [List.dropWhile_cons, if_pos hc]
      have hrest :=
        (length_dropWhile_le (· == slash) (s.dropWhile inElem)).trans (length_dropWhile_le inElem s)
      rw [List.length_cons] at hle
      omega

/-- The inode, and what is in `name`. -/
def namexLoop (t : Tree) (nameiparent : Bool) (ip : Nat) (path name : Chars) : Option Nat × Chars :=
  match _h : skipelem path name with
  | none => (if nameiparent then none else some ip, name)
  | some (rest, name') =>
    match t.dirs ip with
    | none => (none, name')
    | some dp =>
      if nameiparent ∧ rest.headD 0 = 0 then (some ip, name')
      else
        match dirlookup dp name' with
        | none => (none, name')
        | some (_, next) => namexLoop t nameiparent next rest name'
termination_by path.length
decreasing_by exact skipelem_length _h

def Tree.start (t : Tree) (path : Chars) : Nat := if path.headD 0 = slash then ROOTINO else t.cwd

def namex (t : Tree) (nameiparent : Bool) (path name : Chars) : Option Nat × Chars :=
  namexLoop t nameiparent (t.start path) path name

/-- `name` is what the array on the stack holds before. -/
def namei (t : Tree) (path name : Chars) : Option Nat := (namex t false path name).1

def nameiparent (t : Tree) (path name : Chars) : Option Nat × Chars := namex t true path name

section Components

/-- What stands between the slashes. -/
def components (path : Chars) : List Chars :=
  ((path.takeWhile (· != 0)).splitOnP (· == slash)).filter (· ≠ [])

theorem components_of_head (h : s.headD 0 = 0) : components s = [] := by
  cases s with
  | nil => simp [components]
  | cons c s =>
    rw [List.headD_cons] at h
    simp [components, h]

theorem components_slash : components (slash :: s) = components s := by
  have hslash : (slash != 0) = true := by decide
  rw [components, List.takeWhile_cons, if_pos hslash, List.splitOnP_cons_eq_if_modifyHead,
    if_pos (beq_self_eq_true slash)]
  simp [components]

theorem components_skip (s : Chars) : components (s.dropWhile (· == slash)) = components s := by
  induction s with
  | nil => rfl
  | cons c s ih =>
    rw [List.dropWhile_cons]
    split
    · next hc =>
      obtain rfl : c = slash := eq_of_beq hc
      rw [ih, components_slash]
    · rfl

/-- An element stands before a slash or at the end. -/
theorem components_elem (hl : ∀ c ∈ l, inElem c = true) (hne : l ≠ [])
    (hend : s.headD 0 = 0 ∨ s.headD 0 = slash) : components (l ++ s) = l :: components s := by
  have hzero : ∀ c ∈ l, (c != 0) = true := fun c hc => by
    have hin := hl c hc
    rw [inElem, Bool.and_eq_true] at hin
    exact hin.2
  have hslash : ∀ c ∈ l, (c == slash) = false := fun c hc => by
    have hin := hl c hc
    rw [inElem, Bool.and_eq_true] at hin
    simpa using hin.1
  have htake : (l ++ s).takeWhile (· != 0) = l ++ s.takeWhile (· != 0) :=
    List.takeWhile_append_of_pos hzero
  rw [components, htake]
  cases s with
  | nil =>
    rw [List.takeWhile_nil, List.append_nil, List.splitOnP_eq_singleton hslash]
    simp [components, hne]
  | cons c s =>
    rw [List.headD_cons] at hend
    rcases hend with rfl | rfl
    · have hstop : List.takeWhile (· != (0 : Byte)) (0 :: s) = [] := by simp
      rw [hstop, List.append_nil, List.splitOnP_eq_singleton hslash,
        components_of_head (List.headD_cons)]
      simp [hne]
    · have hgo : (slash != 0) = true := by decide
      rw [components_slash, List.takeWhile_cons, if_pos hgo,
        List.splitOnP_append_cons_of_forall_mem hslash slash (beq_self_eq_true slash)]
      simp [components, hne]

theorem head_elem (s : Chars) :
    (s.dropWhile inElem).headD 0 = 0 ∨ (s.dropWhile inElem).headD 0 = slash := by
  induction s with
  | nil => exact .inl rfl
  | cons c s ih =>
    rw [List.dropWhile_cons]
    split
    · exact ih
    · next hc =>
      by_cases hslash : c = slash
      · exact .inr hslash
      · refine .inl ?_
        simpa [inElem, hslash] using hc

/-- A path that goes on begins with an element. -/
theorem components_cons (hzero : s.headD 0 ≠ 0) (hslash : s.headD 0 ≠ slash) :
    components s =
    s.takeWhile inElem :: components ((s.dropWhile inElem).dropWhile (· == slash)) := by
  have hne : s.takeWhile inElem ≠ [] := by
    cases s with
    | nil => simp at hzero
    | cons c s =>
      have hc : inElem c = true := by simpa [inElem] using And.intro hslash hzero
      rw [List.takeWhile_cons, if_pos hc]
      exact List.cons_ne_nil _ _
  have hall : ∀ c ∈ s.takeWhile inElem, inElem c = true := fun c hc => List.mem_takeWhile_imp hc
  calc components s
    _ = components (s.takeWhile inElem ++ s.dropWhile inElem) := by
      rw [List.takeWhile_append_dropWhile]
    _ = s.takeWhile inElem :: components (s.dropWhile inElem) :=
      components_elem hall hne (head_elem s)
    _ = s.takeWhile inElem :: components ((s.dropWhile inElem).dropWhile (· == slash)) := by
      rw [components_skip]

theorem skipelem_none (h : skipelem path name = none) : components path = [] := by
  simp only [skipelem] at h
  split at h
  · next hhead =>
    rw [← components_skip]
    exact components_of_head hhead
  · cases h

/-- What was in `name` before is behind a NUL or behind its end. -/
theorem nameOf_copied {elem : Chars} (helem : ∀ c ∈ elem, inElem c = true) (name : Chars) :
    nameOf DIRSIZ (if DIRSIZ ≤ elem.length then elem.take DIRSIZ ++ name.drop DIRSIZ
      else elem ++ 0 :: name.drop (elem.length + 1)) = nameOf DIRSIZ elem := by
  split
  · next hlong =>
    rw [nameOf, nameOf, List.take_append_of_le_length (by simpa using hlong),
      List.take_take, min_self]
  · next hshort =>
    have hlt : elem.length < DIRSIZ := Nat.lt_of_not_le hshort
    obtain ⟨k, hk⟩ : ∃ k, DIRSIZ - elem.length = k + 1 := ⟨DIRSIZ - elem.length - 1, by omega⟩
    have hzero : ∀ c ∈ elem, decide (c ≠ 0) = true := fun c hc => by
      have hin := helem c hc
      rw [inElem, Bool.and_eq_true] at hin
      simpa using hin.2
    have hself : elem.takeWhile (· ≠ 0) = elem := List.takeWhile_eq_self_iff.mpr hzero
    rw [nameOf, nameOf, List.take_append, List.take_of_length_le hlt.le, hk, List.take_succ_cons,
      List.takeWhile_append_of_pos hzero, hself]
    simp

theorem skipelem_some (h : skipelem path name = some (rest, name')) : ∃ elem,
    components path = elem :: components rest ∧ nameOf DIRSIZ name' = nameOf DIRSIZ elem ∧
      (rest.headD 0 = 0 ↔ components rest = []) := by
  simp only [skipelem] at h
  split at h
  · cases h
  · next hhead =>
    rw [Option.some.injEq, Prod.mk.injEq] at h
    obtain ⟨rfl, rfl⟩ := h
    refine ⟨_, ?_, nameOf_copied (fun c hc => List.mem_takeWhile_imp hc) name, ?_⟩
    · rw [← components_skip path]
      exact components_cons hhead (head_dropWhile path)
    · constructor
      · intro hend
        exact components_of_head hend
      · intro hnil
        by_contra hgo
        have hcons := components_cons hgo (head_dropWhile _)
        rw [hnil] at hcons
        cases hcons

example : skipelem [0x2F, 0x2F, 0x2F, 0x61, 0x2F, 0x2F, 0x62, 0x62] [] =
    some ([0x62, 0x62], [0x61, 0]) := by decide

end Components

section Walks

/-- Where a name is there twice the first one counts. -/
def names (dp : Dir) : Map :=
  dp.foldr (fun de f => match de.entry with | none => f | some e => f.insert e.1 e.2) ∅

def Tree.child (t : Tree) (ip : Nat) (c : Chars) : Option Nat :=
  (t.dirs ip).bind fun dp => (names dp).lookup (nameOf DIRSIZ c)

/-- The inode that the elements lead to. -/
def Tree.walk (t : Tree) : Nat → List Chars → Option Nat
  | ip, [] => some ip
  | ip, c :: cs => (t.child ip c).bind fun next => t.walk next cs

/-- The directory that all the elements but the last lead to, and the last. -/
def Tree.parent (t : Tree) (ip : Nat) (cs : List Chars) : Option (Nat × Chars) := do
  let last ← cs.getLast?
  let dir ← t.walk ip cs.dropLast
  let _ ← t.dirs dir
  some (dir, nameOf DIRSIZ last)

variable {dp : Dir} {c elem : Chars} {cs : List Chars}

theorem dirlookup_cons (de : Dirent) (dp : Dir) (name : Chars) :
    (dirlookup (de :: dp) name).map Prod.snd =
    if de.entry = some (nameOf DIRSIZ name, de.inum) then some de.inum
    else (dirlookup dp name).map Prod.snd := by
  simp only [dirlookup, List.findIdx?_cons, entry_iff]
  by_cases hentry : de.entry = some (nameOf DIRSIZ name, de.inum)
  · rw [if_pos hentry, if_pos hentry]
    rfl
  · rw [if_neg hentry, if_neg hentry]
    cases dp.findIdx? fun de => de.inum != 0 && namecmp name de.name with
    | none => rfl
    | some off => cases hoff : dp[off]? <;> simp [hoff]

theorem entry_inum {de : Dirent} {e : Chars × Nat} (h : de.entry = some e) : e.2 = de.inum := by
  rw [Dirent.entry] at h
  split at h
  · cases h
  · exact (congrArg Prod.snd (Option.some.inj h)).symm

/-- Of the name only what stands for it matters. -/
theorem lookup_names (dp : Dir) (name : Chars) :
    (names dp).lookup (nameOf DIRSIZ name) = (dirlookup dp name).map Prod.snd := by
  induction dp with
  | nil => rfl
  | cons de dp ih =>
    rw [dirlookup_cons]
    simp only [names, List.foldr_cons]
    cases hentry : de.entry with
    | none => simpa [names] using ih
    | some e =>
      have hinum : e.2 = de.inum := entry_inum hentry
      by_cases hkey : e.1 = nameOf DIRSIZ name
      · have heq : e = (nameOf DIRSIZ name, de.inum) := Prod.ext hkey hinum
        rw [if_pos (congrArg some heq), ← hkey, Finmap.lookup_insert, hinum]
      · have hne : e ≠ (nameOf DIRSIZ name, de.inum) := fun he => hkey (congrArg Prod.fst he)
        rw [Finmap.lookup_insert_of_ne _ (Ne.symm hkey),
          if_neg (fun he => hne (Option.some.inj he))]
        exact ih

theorem lookup_holds {f : Map} (h : Holds dp f) (c : Chars) :
    (names dp).lookup (nameOf DIRSIZ c) = f.lookup (nameOf DIRSIZ c) := by
  rw [lookup_names, h.lookup]

theorem child_file (hdir : t.dirs ip = none) (c : Chars) : t.child ip c = none := by
  rw [Tree.child, hdir, Option.bind_none]

theorem child_dir (hdir : t.dirs ip = some dp) (hname : nameOf DIRSIZ name = nameOf DIRSIZ c) :
    t.child ip c = (dirlookup dp name).map Prod.snd := by
  rw [Tree.child, hdir, Option.bind_some, ← hname, lookup_names]

theorem walk_append (ds : List Chars) : t.walk ip (cs ++ ds) = (t.walk ip cs).bind fun next =>
    t.walk next ds := by
  induction cs generalizing ip with
  | nil => rfl
  | cons c cs ih =>
    rw [List.cons_append, Tree.walk, Tree.walk, Option.bind_assoc]
    exact Option.bind_congr fun next _ => ih

/-- The last step goes from the parent. -/
theorem walk_parent (hne : cs ≠ []) : t.walk ip cs =
    (t.parent ip cs).bind fun e => (t.dirs e.1).bind fun dp => (names dp).lookup e.2 := by
  obtain ⟨ds, last, rfl⟩ := List.eq_nil_or_concat' cs |>.resolve_left hne
  rw [walk_append, Tree.parent, List.getLast?_concat, List.dropLast_concat]
  cases hwalk : t.walk ip ds with
  | none => rfl
  | some dir =>
    cases hdir : t.dirs dir with
    | none => simp [Tree.walk, Tree.child, hdir]
    | some dp => simp [Tree.walk, Tree.child, hdir]

theorem parent_cons (hne : cs ≠ []) : t.parent ip (c :: cs) = (t.child ip c).bind fun next =>
    t.parent next cs := by
  obtain ⟨ds, last, rfl⟩ := List.eq_nil_or_concat' cs |>.resolve_left hne
  rw [← List.cons_append, Tree.parent, List.getLast?_concat, List.dropLast_concat, Tree.walk]
  cases t.child ip c with
  | none => rfl
  | some next => simp [Tree.parent]

theorem parent_file (hdir : t.dirs ip = none) : t.parent ip (c :: cs) = none := by
  rcases List.eq_nil_or_concat' cs with rfl | ⟨ds, last, rfl⟩
  · simp [Tree.parent, Tree.walk, hdir]
  · rw [← List.cons_append, Tree.parent, List.getLast?_concat, List.dropLast_concat, Tree.walk,
      child_file hdir]
    rfl

theorem namexLoop_walk (t : Tree) (ip : Nat) (path name : Chars) :
    (namexLoop t false ip path name).1 = t.walk ip (components path) := by
  fun_induction namexLoop t false ip path name with
  | case1 ip path name hskip =>
    rw [skipelem_none hskip]
    rfl
  | case2 ip path name rest name' hskip hdir =>
    obtain ⟨elem, hcomp, -, -⟩ := skipelem_some hskip
    rw [hcomp, Tree.walk, child_file hdir]
    rfl
  | case3 ip path name rest name' hskip dp hdir hlast => exact absurd hlast.1 Bool.false_ne_true
  | case4 ip path name rest name' hskip dp hdir hlast hlook =>
    obtain ⟨elem, hcomp, hname, -⟩ := skipelem_some hskip
    rw [hcomp, Tree.walk, child_dir hdir hname, hlook]
    rfl
  | case5 ip path name rest name' hskip dp hdir hlast off next hlook ih =>
    obtain ⟨elem, hcomp, hname, -⟩ := skipelem_some hskip
    rw [ih, hcomp, Tree.walk, child_dir hdir hname, hlook]
    rfl

theorem namexLoop_parent (t : Tree) (ip : Nat) (path name : Chars) :
    ((namexLoop t true ip path name).1.map fun dir =>
      (dir, nameOf DIRSIZ (namexLoop t true ip path name).2)) = t.parent ip (components path) := by
  fun_induction namexLoop t true ip path name with
  | case1 ip path name hskip =>
    rw [skipelem_none hskip]
    rfl
  | case2 ip path name rest name' hskip hdir =>
    obtain ⟨elem, hcomp, -, -⟩ := skipelem_some hskip
    rw [hcomp, parent_file hdir]
    rfl
  | case3 ip path name rest name' hskip dp hdir hlast =>
    obtain ⟨elem, hcomp, hname, hend⟩ := skipelem_some hskip
    rw [hcomp, hend.mp hlast.2, hname, Tree.parent]
    simp [Tree.walk, hdir]
  | case4 ip path name rest name' hskip dp hdir hlast hlook =>
    obtain ⟨elem, hcomp, hname, hend⟩ := skipelem_some hskip
    have hne : components rest ≠ [] := fun hnil => hlast ⟨rfl, hend.mpr hnil⟩
    rw [hcomp, parent_cons hne, child_dir hdir hname, hlook]
    rfl
  | case5 ip path name rest name' hskip dp hdir hlast off next hlook ih =>
    obtain ⟨elem, hcomp, hname, hend⟩ := skipelem_some hskip
    have hne : components rest ≠ [] := fun hnil => hlast ⟨rfl, hend.mpr hnil⟩
    rw [ih, hcomp, parent_cons hne, child_dir hdir hname, hlook]
    rfl

/-- `namei` follows the elements of the path, each cut at `DIRSIZ` bytes, whatever is
on the stack. `nameiparent` gives the directory from which the last step goes. -/
theorem namex_walk (t : Tree) (path name junk : Chars) :
    namei t path junk = t.walk (t.start path) (components path) ∧
      ((nameiparent t path name).1.map fun dir =>
        (dir, nameOf DIRSIZ (nameiparent t path name).2)) =
        t.parent (t.start path) (components path) ∧
      namei t path junk =
        if components path = [] then some (t.start path)
        else (nameiparent t path name).1.bind fun dir => (t.dirs dir).bind fun dp =>
          (dirlookup dp (nameiparent t path name).2).map Prod.snd := by
  have hwalk : namei t path junk = t.walk (t.start path) (components path) :=
    namexLoop_walk t _ path junk
  have hparent := namexLoop_parent t (t.start path) path name
  refine ⟨hwalk, hparent, ?_⟩
  rw [hwalk]
  by_cases hne : components path = []
  · rw [if_pos hne, hne, Tree.walk]
  · rw [if_neg hne, walk_parent hne, ← hparent, Option.bind_map]
    exact Option.bind_congr fun dir _ => Option.bind_congr fun dp _ => lookup_names dp _

end Walks

section Runs

/-- The entries that a path goes through. -/
def Tree.trail (t : Tree) : Nat → List Chars → List (Nat × Chars)
  | _, [] => []
  | ip, c :: cs => (ip, nameOf DIRSIZ c) :: ((t.child ip c).map fun next => t.trail next cs).getD []

def Tree.setDir (t : Tree) (ip : Nat) (dp : Dir) : Tree :=
  { t with dirs := Function.update t.dirs ip (some dp) }

/-- A call on one of the directories; on another inode `dirlookup` panics. -/
def Tree.run (t : Tree) (ip : Nat) (op : DirOp) : Option (Tree × Int) := do
  let dp ← t.dirs ip
  let (dp', r) ← op.run dp
  some (t.setDir ip dp', r)

def Tree.runs (t : Tree) : List (Nat × DirOp) → Option Tree
  | [] => some t
  | e :: es => do
    let (t₁, _) ← t.run e.1 e.2
    t₁.runs es

def Tree.Sane (t : Tree) : Prop := ∀ ip dp, t.dirs ip = some dp → ∃ f, Holds dp f

variable {t t' : Tree} {ip next i : Nat} {r : Int} {c path junk : Chars} {cs : List Chars}
    {op : DirOp}
  {es : List (Nat × DirOp)} {f f' : Map}

@[simp] theorem setDir_self (t : Tree) (ip : Nat) (dp : Dir) :
    (t.setDir ip dp).dirs ip = some dp := by
  simp [Tree.setDir]

@[simp] theorem setDir_of_ne (t : Tree) (dp : Dir) {jp : Nat} (h : jp ≠ ip) :
    (t.setDir ip dp).dirs jp = t.dirs jp := by
  simp [Tree.setDir, h]

@[simp] theorem setDir_cwd (t : Tree) (ip : Nat) (dp : Dir) : (t.setDir ip dp).cwd = t.cwd := rfl

theorem spec_keeps (h : op.spec f = some (f', r))
    (hunlink : ∀ name, op = .unlink name → ¬ fixed (nameOf DIRSIZ name) → nameOf DIRSIZ name ≠ c)
    (hc : f.lookup c = some i) : f'.lookup c = some i := by
  cases op with
  | lookup name =>
    obtain rfl : f = f' := congrArg Prod.fst (Option.some.inj h)
    exact hc
  | link name inum =>
    simp only [DirOp.spec] at h
    split at h
    · obtain rfl : f = f' := congrArg Prod.fst (Option.some.inj h)
      exact hc
    · next hnew =>
      split at h
      · obtain rfl : f.insert (nameOf DIRSIZ name) inum = f' :=
          congrArg Prod.fst (Option.some.inj h)
        have hmem : c ∈ f := Finmap.mem_of_lookup_eq_some hc
        have hne : c ≠ nameOf DIRSIZ name := fun heq => hnew (heq ▸ hmem)
        rw [Finmap.lookup_insert_of_ne _ hne, hc]
      · cases h
  | unlink name =>
    simp only [DirOp.spec] at h
    split at h
    · obtain rfl : f = f' := congrArg Prod.fst (Option.some.inj h)
      exact hc
    · next hgo =>
      obtain rfl : f.erase (nameOf DIRSIZ name) = f' := congrArg Prod.fst (Option.some.inj h)
      have hne : nameOf DIRSIZ name ≠ c := hunlink name rfl fun hfix => hgo (.inl hfix)
      rw [Finmap.lookup_erase_ne hne.symm, hc]

theorem holds_of_runs {ops : List DirOp} {e : Dir × List Int} (hok : ∀ op ∈ ops, op.Ok)
    (h : Dirs.runs [] ops = some e) : ∃ f, Holds e.1 f := by
  obtain ⟨f, -, hholds, -⟩ := holds_nil.runs_some hok h
  exact ⟨f, hholds⟩

/-- What a call leaves behind in the directory and in the tree. -/
theorem run_some (hs : t.Sane) (hok : op.Ok) (h : t.run ip op = some (t', r)) : ∃ dp dp' f f',
    t.dirs ip = some dp ∧ Holds dp f ∧ op.spec f = some (f', r) ∧ Holds dp' f' ∧
      t' = t.setDir ip dp' := by
  obtain ⟨dp, hdir, hrest⟩ := Option.bind_eq_some_iff.mp h
  obtain ⟨e, hrun, heq⟩ := Option.bind_eq_some_iff.mp hrest
  obtain ⟨f, hholds⟩ := hs ip dp hdir
  have hagree : Agree (op.run dp) (op.spec f) := hholds.run hok
  obtain ⟨rfl, rfl⟩ := Prod.mk.inj (Option.some.inj heq)
  rw [hrun] at hagree
  obtain ⟨f', hspec, hholds'⟩ := hagree.of_some
  exact ⟨dp, e.1, f, f', hdir, hholds, hspec, hholds', rfl⟩

theorem sane_run (hs : t.Sane) (hok : op.Ok) (h : t.run ip op = some (t', r)) : t'.Sane := by
  obtain ⟨dp, dp', f, f', -, -, -, hholds', rfl⟩ := run_some hs hok h
  intro jp dq hdir
  by_cases hj : jp = ip
  · subst hj
    obtain rfl : dp' = dq := by simpa using hdir
    exact ⟨f', hholds'⟩
  · exact hs jp dq (by simpa [hj] using hdir)

theorem child_run (hs : t.Sane) (hok : op.Ok) (h : t.run ip op = some (t', r)) {jp : Nat}
    (hunlink : ∀ name, op = .unlink name → ¬ fixed (nameOf DIRSIZ name) →
      (ip, nameOf DIRSIZ name) ≠ (jp, nameOf DIRSIZ c))
    (hc : t.child jp c = some next) : t'.child jp c = some next := by
  obtain ⟨dp, dp', f, f', hdir, hholds, hspec, hholds', rfl⟩ := run_some hs hok h
  by_cases hj : jp = ip
  · subst hj
    rw [Tree.child, hdir, Option.bind_some, lookup_holds hholds] at hc
    rw [Tree.child, setDir_self, Option.bind_some, lookup_holds hholds']
    exact spec_keeps hspec (fun name hop hfix heq => hunlink name hop hfix (Prod.ext rfl heq)) hc
  · rw [Tree.child] at hc ⊢
    rwa [setDir_of_ne t dp' hj]

theorem walk_keeps
    (hchild : ∀ jp c next, (jp, nameOf DIRSIZ c) ∈ t.trail ip cs → t.child jp c = some next →
      t'.child jp c = some next) (h : t.walk ip cs = some i) :
    t'.walk ip cs = some i ∧ t'.trail ip cs = t.trail ip cs := by
  induction cs generalizing ip with
  | nil => exact ⟨h, rfl⟩
  | cons c cs ih =>
    obtain ⟨next, hnext, hrest⟩ := Option.bind_eq_some_iff.mp h
    have htrail : t.trail ip (c :: cs) = (ip, nameOf DIRSIZ c) :: t.trail next cs := by
      rw [Tree.trail, hnext]
      rfl
    rw [htrail] at hchild
    have hnext' : t'.child ip c = some next := hchild ip c next List.mem_cons_self hnext
    have hih := ih (fun jp d m hmem => hchild jp d m (List.mem_cons_of_mem _ hmem)) hrest
    rw [Tree.walk, hnext', htrail, Tree.trail, hnext']
    exact ⟨hih.1, congrArg _ hih.2⟩

theorem runs_keeps (hs : t.Sane) (hok : ∀ e ∈ es, e.2.Ok) (h : t.runs es = some t')
    (hunlink : ∀ e ∈ es, ∀ name, e.2 = .unlink name → ¬ fixed (nameOf DIRSIZ name) →
      (e.1, nameOf DIRSIZ name) ∉ t.trail ip cs)
    (hi : t.walk ip cs = some i) : t'.walk ip cs = some i ∧ t'.cwd = t.cwd ∧ t'.Sane := by
  induction es generalizing t with
  | nil =>
    obtain rfl : t = t' := Option.some.inj h
    exact ⟨hi, rfl, hs⟩
  | cons e es ih =>
    obtain ⟨r, hrun, hrest⟩ := Option.bind_eq_some_iff.mp h
    have hok₁ : e.2.Ok := hok e List.mem_cons_self
    have hkeep : r.1.walk ip cs = some i ∧ r.1.trail ip cs = t.trail ip cs := by
      refine walk_keeps (fun jp c next hmem hc => ?_) hi
      refine child_run hs hok₁ hrun (fun name hop hfix heq => ?_) hc
      exact hunlink e List.mem_cons_self name hop hfix (heq ▸ hmem)
    have hcwd : r.1.cwd = t.cwd := by
      obtain ⟨dp, dp', f, f', -, -, -, -, heq⟩ := run_some hs hok₁ hrun
      rw [heq, setDir_cwd]
    have hlater : ∀ e' ∈ es, ∀ name, e'.2 = .unlink name → ¬ fixed (nameOf DIRSIZ name) →
        (e'.1, nameOf DIRSIZ name) ∉ r.1.trail ip cs := fun e' he' => by
      rw [hkeep.2]
      exact hunlink e' (List.mem_cons_of_mem e he')
    have hih := ih (sane_run hs hok₁ hrun) (fun e' he' => hok e' (List.mem_cons_of_mem e he'))
      hrest hlater hkeep.1
    exact ⟨hih.1, hih.2.1.trans hcwd, hih.2.2⟩

/-- A path leads where it led until `unlink` clears an entry that it goes through,
and it never clears `.` and `..`. -/
theorem path_stays (hs : t.Sane) (hok : ∀ e ∈ es, e.2.Ok) (h : t.runs es = some t')
    (hunlink : ∀ e ∈ es, ∀ name, e.2 = .unlink name → ¬ fixed (nameOf DIRSIZ name) →
      (e.1, nameOf DIRSIZ name) ∉ t.trail (t.start path) (components path))
    (hi : namei t path junk = some i) : namei t' path junk = some i := by
  have hwalk : t.walk (t.start path) (components path) = some i :=
    (namexLoop_walk t _ path junk).symm.trans hi
  obtain ⟨hwalk', hcwd, -⟩ := runs_keeps hs hok h hunlink hwalk
  have hstart : t'.start path = t.start path := by rw [Tree.start, Tree.start, hcwd]
  rw [← hstart] at hwalk'
  exact (namexLoop_walk t' _ path junk).trans hwalk'

/-- In the root there are `.` and `a`. -/
def smallTree : Tree where
  dirs ip :=
    if ip = ROOTINO then (Dirs.runs [] [.link [0x2E] 1, .link [0x61] 2]).map Prod.fst else none
  cwd := ROOTINO

theorem smallTree_sane : smallTree.Sane := by
  intro ip dp hdir
  simp only [smallTree] at hdir
  split at hdir
  · obtain ⟨e, hrun, rfl⟩ := Option.map_eq_some_iff.mp hdir
    exact holds_of_runs (by simp [DirOp.Ok]) hrun
  · cases hdir

theorem path_stays_smallTree :
    ∃ t', smallTree.runs [(1, .unlink [0x2E]), (1, .link [0x62] 3), (1, .unlink [0x62])] = some t' ∧
    namei smallTree [0x2F, 0x61] [] = some 2 ∧ namei t' [0x2F, 0x61] [] = some 2 := by
  have hi : namei smallTree [0x2F, 0x61] [] = some 2 := by
    rw [namei, namex, namexLoop_walk]
    decide +kernel
  have htrail :
      smallTree.trail (smallTree.start [0x2F, 0x61]) (components [0x2F, 0x61]) = [(1, [0x61])] := by
    decide +kernel
  obtain ⟨t', ht'⟩ : ∃ t',
      smallTree.runs [(1, .unlink [0x2E]), (1, .link [0x62] 3), (1, .unlink [0x62])] = some t' :=
    Option.isSome_iff_exists.mp (by decide +kernel)
  refine ⟨t', ht', hi, path_stays smallTree_sane (by simp [DirOp.Ok]) ht' ?_ hi⟩
  rw [htrail]
  simp [nameOf, DIRSIZ]

end Runs

end Cs3650.Xv6.Paths
