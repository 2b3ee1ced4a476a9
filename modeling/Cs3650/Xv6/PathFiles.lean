import Cs3650.Xv6.DirFiles
import Cs3650.Xv6.Paths

/-!
# Paths in blocks (hw09/starter-hw09/xv6: fs.c, namex)

`namex` looks the elements up in the blocks of the directories. It finds what it
finds in the tree of their entries, also after calls on the directories.
-/

namespace Cs3650.Xv6.PathFiles

open Cs3650.Lib Cs3650.Xv6.Blocks Cs3650.Xv6.Dirs Cs3650.Xv6.DirFiles Cs3650.Xv6.Paths

/-- The loop of `namex`; `ilock` panics on an inode without a type. -/
def namexLoop (sb : Superblock) (nameiparent : Bool) (fs : Fs) (ip : Nat) (path name : Chars) :
    Option (Fs × Option Nat × Chars) :=
  match _h : skipelem path name with
  | none => some (fs, if nameiparent then none else some ip, name)
  | some (rest, name') =>
    if (fs.inode ip).type = 0 then none
    else if (fs.inode ip).type ≠ T_DIR then some (fs, none, name')
    else if nameiparent ∧ rest.headD 0 = 0 then some (fs, some ip, name')
    else
      (DirFiles.dirlookup sb fs ip name').bind fun r =>
        match r.2 with
        | none => some (r.1, none, name')
        | some (_, next) => namexLoop sb nameiparent r.1 next rest name'
termination_by path.length
decreasing_by exact skipelem_length _h

/-- `cwd` is the working directory of the process. -/
def namex (sb : Superblock) (nameiparent : Bool) (fs : Fs) (cwd : Nat) (path name : Chars) :
    Option (Fs × Option Nat × Chars) :=
  namexLoop sb nameiparent fs (if path.headD 0 = slash then ROOTINO else cwd) path name

variable {sb : Superblock} {fs fs' : Fs} {t t' : Tree} {ip : Nat} {es es' : Dir} {de : Dirent}
  {op : DirOp} {path name : Chars}

/-- The directories are in the blocks, and what their entries name is in use. -/
structure TreeOnDisk (sb : Superblock) (fs : Fs) (t : Tree) : Prop where
  dir : ∀ ip es, t.dirs ip = some es → OnDisk sb fs ip es
  other : ∀ ip, t.dirs ip = none → (fs.inode ip).type ≠ T_DIR
  named : ∀ ip es, t.dirs ip = some es → ∀ de ∈ es, de.inum ≠ 0 → (fs.inode de.inum).type ≠ 0
  root : (fs.inode ROOTINO).type ≠ 0
  cwd : (fs.inode t.cwd).type ≠ 0

/-- The file system that has a root without entries and no other inode. -/
theorem treeOnDisk_root (hrun : ialloc sb (blank sb) T_DIR = some (fs, ROOTINO)) :
    TreeOnDisk sb fs ⟨fun ip => if ip = ROOTINO then some [] else none, ROOTINO⟩ := by
  obtain ⟨-, -, -, hother, htype, -⟩ := ialloc_spec blank_ok (by decide) hrun
  have hused : (fs.inode ROOTINO).type ≠ 0 := by
    rw [htype]
    decide
  refine ⟨fun ip es hdir => ?_, fun ip hdir => ?_, fun ip es hdir de hde => ?_, hused, hused⟩
  · obtain ⟨rfl, rfl⟩ : ip = ROOTINO ∧ [] = es := by simpa using hdir
    exact onDisk_new blank_ok hrun
  · have hne : ip ≠ ROOTINO := by simpa using hdir
    rw [(hother ip hne).inode, blank_inode]
    decide
  · obtain ⟨rfl, rfl⟩ : ip = ROOTINO ∧ [] = es := by simpa using hdir
    cases hde

theorem dirlookup_mem {off inum : Nat} (h : Dirs.dirlookup es name = some (off, inum)) :
    ∃ de ∈ es, de.inum = inum ∧ de.inum ≠ 0 := by
  obtain ⟨hlt, htable⟩ := dirlookup_some h
  rw [table_of_lt hlt, Dirent.entry] at htable
  split at htable
  · cases htable
  · next hne =>
    rw [Option.some.injEq, Prod.mk.injEq] at htable
    exact ⟨es[off], List.getElem_mem hlt, htable.2, hne⟩

theorem namexLoop_end (parent : Bool) (hskip : skipelem path name = none) :
    namexLoop sb parent fs ip path name = some (fs, if parent then none else some ip, name) := by
  rw [namexLoop]
  split
  · rfl
  · next hsome =>
    rw [hskip] at hsome
    cases hsome

theorem namexLoop_elem (parent : Bool) {rest name' : Chars}
    (hskip : skipelem path name = some (rest, name')) (htype : (fs.inode ip).type ≠ 0) :
    namexLoop sb parent fs ip path name =
    if (fs.inode ip).type ≠ T_DIR then some (fs, none, name')
    else if parent ∧ rest.headD 0 = 0 then some (fs, some ip, name')
    else
      (DirFiles.dirlookup sb fs ip name').bind fun r =>
        match r.2 with
        | none => some (r.1, none, name')
        | some (_, next) => namexLoop sb parent r.1 next rest name' := by
  rw [namexLoop]
  split
  · next hnone =>
    rw [hskip] at hnone
    cases hnone
  · next rest₁ name₁ hsome =>
    rw [hskip, Option.some.injEq, Prod.mk.injEq] at hsome
    obtain ⟨rfl, rfl⟩ := hsome
    rw [if_neg htype]

theorem namexLoop_spec (h : TreeOnDisk sb fs t) (parent : Bool) (htype : (fs.inode ip).type ≠ 0) :
    namexLoop sb parent fs ip path name = some (fs, Paths.namexLoop t parent ip path name) := by
  fun_induction Paths.namexLoop t parent ip path name with
  | case1 ip path name hskip => exact namexLoop_end parent hskip
  | case2 ip path name rest name' hskip hdir =>
    rw [namexLoop_elem parent hskip htype, if_pos (h.other ip hdir)]
  | case3 ip path name rest name' hskip dp hdir hlast =>
    rw [namexLoop_elem parent hskip htype, if_neg (not_not.mpr (h.dir ip dp hdir).type),
      if_pos hlast]
  | case4 ip path name rest name' hskip dp hdir hlast hlook =>
    rw [namexLoop_elem parent hskip htype, if_neg (not_not.mpr (h.dir ip dp hdir).type),
      if_neg hlast, dirlookup_spec (h.dir ip dp hdir), hlook]
    rfl
  | case5 ip path name rest name' hskip dp hdir hlast off next hlook ih =>
    obtain ⟨de, hde, rfl, hne⟩ := dirlookup_mem hlook
    rw [namexLoop_elem parent hskip htype, if_neg (not_not.mpr (h.dir ip dp hdir).type),
      if_neg hlast, dirlookup_spec (h.dir ip dp hdir), hlook]
    exact ih (h.named ip dp hdir de hde hne)

/-- `namex` reads no more than the directories, and finds what it finds in the tree. -/
theorem namex_spec (h : TreeOnDisk sb fs t) (parent : Bool) (path name : Chars) :
    namex sb parent fs t.cwd path name = some (fs, Paths.namex t parent path name) := by
  refine namexLoop_spec h parent ?_
  split
  · exact h.root
  · exact h.cwd

/-! ## Calls on the directories -/

/-- An entry that is used after the call was there, or the call has linked it. -/
theorem mem_run {r : Int} (hrun : op.run es = some (es', r)) (hde : de ∈ es') (hne : de.inum ≠ 0) :
    de ∈ es ∨ ∃ name inum, op = .link name inum ∧ de.inum = inum % 2 ^ 16 := by
  cases op with
  | lookup name =>
    cases hrun
    exact .inl hde
  | link name inum =>
    simp only [DirOp.run, Dirs.dirlink] at hrun
    split at hrun
    · cases hrun
      exact .inl hde
    · split at hrun
      · cases hrun
        rcases List.mem_or_eq_of_mem_set hde with hmem | rfl
        · exact .inl hmem
        · exact .inr ⟨name, inum, rfl, rfl⟩
      · split at hrun
        · cases hrun
          rcases List.mem_append.mp hde with hmem | hmem
          · exact .inl hmem
          · exact .inr ⟨name, inum, rfl, by rw [List.mem_singleton.mp hmem]⟩
        · cases hrun
  | unlink name =>
    have hunlink : Dirs.unlink es name = (es', r) := Option.some.inj hrun
    simp only [Dirs.unlink] at hunlink
    split at hunlink
    · cases hunlink
      exact .inl hde
    · split at hunlink
      · cases hunlink
        exact .inl hde
      · cases hunlink
        rcases List.mem_or_eq_of_mem_set hde with hmem | rfl
        · exact .inl hmem
        · exact absurd rfl hne

/-- The inodes that are linked are in use, as those are that `create` and `sys_link` link. -/
def InUse (fs : Fs) (op : DirOp) : Prop :=
  ∀ name inum, op = .link name inum → inum < 2 ^ 16 ∧ (fs.inode inum).type ≠ 0

theorem run_spec (h : TreeOnDisk sb fs t) (huse : InUse fs op) {q : Fs × Int} {es : Dir}
    (hdir : t.dirs ip = some es) (hrun : runOp sb fs ip op = some q) :
    ∃ es', t.run ip op = some (t.setDir ip es', q.2) ∧ TreeOnDisk sb q.1 (t.setDir ip es') ∧
      ∀ i, (q.1.inode i).type = (fs.inode i).type := by
  obtain ⟨⟨es', hes', hdisk⟩, hother⟩ := runOp_spec (h.dir ip es hdir) hrun
  have htype (i : Nat) : (q.1.inode i).type = (fs.inode i).type := by
    by_cases hi : i = ip
    · rw [hi, hdisk.type, (h.dir ip es hdir).type]
    · rw [(hother i hi).inode]
  refine ⟨es', by simp [Tree.run, hdir, hes'], ⟨?_, ?_, ?_, ?_, ?_⟩, htype⟩
  · intro jp es₁ hjp
    by_cases hj : jp = ip
    · subst hj
      obtain rfl : es' = es₁ := by simpa using hjp
      exact hdisk
    · rw [setDir_of_ne t es' hj] at hjp
      have hold := h.dir jp es₁ hjp
      have hsame := hother jp hj
      exact ⟨hdisk.ok, hold.lt, (htype jp).trans hold.type, hsame.contents.trans hold.bytes,
        hold.fits⟩
  · intro jp hjp
    rw [htype]
    by_cases hj : jp = ip
    · subst hj
      simp at hjp
    · rw [setDir_of_ne t es' hj] at hjp
      exact h.other jp hjp
  · intro jp es₁ hjp de hde hne
    rw [htype]
    by_cases hj : jp = ip
    · subst hj
      obtain rfl : es' = es₁ := by simpa using hjp
      rcases mem_run hes' hde hne with hmem | ⟨name, inum, hlink, heq⟩
      · exact h.named jp es hdir de hmem hne
      · obtain ⟨hlt, hused⟩ := huse name inum hlink
        rw [heq, Nat.mod_eq_of_lt hlt]
        exact hused
    · rw [setDir_of_ne t es' hj] at hjp
      exact h.named jp es₁ hjp de hde hne
  · rw [htype]
    exact h.root
  · rw [htype]
    exact h.cwd

/-- The calls on the blocks, one after the other. -/
def runCalls (sb : Superblock) (fs : Fs) : List (Nat × DirOp) → Option Fs
  | [] => some fs
  | e :: es => (runOp sb fs e.1 e.2).bind fun q => runCalls sb q.1 es

/-- After any calls on the directories every path leads where it leads in the tree
after these calls. -/
theorem runCalls_namex {calls : List (Nat × DirOp)} (h : TreeOnDisk sb fs t)
    (huse : ∀ e ∈ calls, InUse fs e.2) (hdirs : ∀ e ∈ calls, (t.dirs e.1).isSome = true)
    (hrun : runCalls sb fs calls = some fs') :
    ∃ t', t.runs calls = some t' ∧ TreeOnDisk sb fs' t' ∧ ∀ parent path name,
      namex sb parent fs' t'.cwd path name = some (fs', Paths.namex t' parent path name) := by
  induction calls generalizing fs t with
  | nil =>
    cases hrun
    exact ⟨t, rfl, h, namex_spec h⟩
  | cons e es ih =>
    obtain ⟨q, hop, hrest⟩ := Option.bind_eq_some_iff.mp hrun
    obtain ⟨es₁, hdir⟩ := Option.isSome_iff_exists.mp (hdirs e List.mem_cons_self)
    obtain ⟨es', ht₁, h₁, htype⟩ := run_spec h (huse e List.mem_cons_self) hdir hop
    have huse₁ : ∀ e' ∈ es, InUse q.1 e'.2 := by
      intro e' he' name inum hlink
      rw [htype]
      exact huse e' (List.mem_cons_of_mem e he') name inum hlink
    have hdirs₁ : ∀ e' ∈ es, ((t.setDir e.1 es').dirs e'.1).isSome = true := by
      intro e' he'
      by_cases hj : e'.1 = e.1
      · rw [hj, setDir_self]
        rfl
      · rw [setDir_of_ne t es' hj]
        exact hdirs e' (List.mem_cons_of_mem e he')
    obtain ⟨t', ht', h', hnamex⟩ := ih h₁ huse₁ hdirs₁ hrest
    exact ⟨t', by simp [Tree.runs, ht₁, ht'], h', hnamex⟩

end Cs3650.Xv6.PathFiles
