import Cs3650.Nufs.NamespaceRuns

/-!
# A full root directory

With 64 files in the root no entry is free, the empty component in front of
every path is not found, and no path resolves any more.
-/

namespace Cs3650.Nufs

open Cs3650.Lib

/-- One byte from `0` on, neither NUL nor a slash. -/
def fileName (k : Nat) : Str := [BitVec.ofNat 8 (48 + k % 64)]

theorem fileName_plain (k : Nat) : nul ∉ fileName k ∧ slash ∉ fileName k := by
  unfold fileName
  have hlt : k % 64 < 64 := Nat.mod_lt k (by decide)
  revert hlt
  generalize k % 64 = j
  revert j
  decide

theorem fileName_ne (k : Nat) : fileName k ≠ [] := List.cons_ne_nil _ _

theorem fileName_inj {j k : Nat} (hj : j < 64) (hk : k < 64)
    (h : fileName j = fileName k) : j = k := by
  unfold fileName at h
  rw [Nat.mod_eq_of_lt hj, Nat.mod_eq_of_lt hk, List.cons.injEq] at h
  have hnat := congrArg BitVec.toNat h.1
  simp only [BitVec.toNat_ofNat] at hnat
  omega

def filePath (k : Nat) : Path where
  text := slash :: fileName k
  absolute := rfl
  noNul := by
    rw [List.mem_cons]
    rintro (h | h)
    · exact absurd h (by decide)
    · exact (fileName_plain k).1 h

def makeFile (k : Nat) : NameOp := .mknod (filePath k) 0o100644

def filesFrom : Nat → Nat → List NameOp
  | _, 0 => []
  | k, n + 1 => makeFile k :: filesFrom (k + 1) n

theorem filePath_split (k : Nat) : sSplit (filePath k).text slash = [[], fileName k] := by
  show sSplit ([] ++ slash :: fileName k) slash = [[], fileName k]
  rw [sSplit_cons List.not_mem_nil, sSplit_single (fileName_ne k) (fileName_plain k).2]

theorem filePath_parts (k : Nat) :
    (filePath k).dirname.text = [slash] ∧ (filePath k).basename = fileName k := by
  show dirnameText (slash :: fileName k) = [slash] ∧ basenameText (slash :: fileName k) = fileName k
  unfold fileName
  have hlt : k % 64 < 64 := Nat.mod_lt k (by decide)
  revert hlt
  generalize k % 64 = j
  revert j
  decide

/-- After `k` files: the first `k` entries of the root are in use. -/
structure Filled (m : Image) (k : Nat) : Prop extends Rooted m where
  entries : ∀ j < 64, nameAt m 2 j = if j < k then fileName j else []
  inodes : ∀ n < 256, Allocated m n ↔ n ≤ k

namespace Filled

variable {m : Image} {k : Nat}

theorem free_iff (h : Filled m k) {j : Nat} (hj : j < 64) :
    m (direntName (pagesGetPage 2) j) = nul ↔ k ≤ j := by
  have hname := h.entries j hj
  have hnil := nameAt_nil (m := m) (p := 2) (k := j)
  rw [hname] at hnil
  rw [← show ((2 : Nat) : Int) = 2 from rfl, ← hnil]
  by_cases hlt : j < k
  · rw [if_pos hlt]
    simp [fileName, hlt]
  · rw [if_neg hlt]
    simp only [true_iff]
    omega

theorem tidy (h : Filled m k) (hk : k < 64) : Tidy m :=
  ⟨h.toRooted, k, hk, (h.free_iff hk).mpr (Nat.le_refl k)⟩

theorem absent (h : Filled m k) (hk : k < 64) :
    directoryLookup m (getInode 0) (fileName k) = -ENOENT := by
  apply directoryLookup_none
  rw [h.root_base]
  cases hfind : findName m (pagesGetPage 2) (fileName k) with
  | none => rfl
  | some j =>
    obtain ⟨hj, hsame, -⟩ := findName_some hfind
    have htext : nameAt m 2 j = fileName k :=
      (streq_iff_strdup (fileName_plain k).1 (by simp [fileName, NUFS_SIZE])).mp hsame
    rw [h.entries j hj] at htext
    by_cases hlt : j < k
    · rw [if_pos hlt] at htext
      have := fileName_inj hj hk htext
      omega
    · rw [if_neg hlt] at htext
      exact absurd htext.symm (fileName_ne k)

theorem rootPath (h : Tidy m) {p : Path} (hp : p.text = [slash]) :
    treeLookup m p = 0 ∧ DirPath m p := by
  have hsplit : sSplit p.text slash = [[]] := by rw [hp]; rfl
  unfold treeLookup DirPath
  rw [hsplit]
  constructor
  · rw [lookupFrom_cons, h.lookup_empty]
    rfl
  · refine ⟨h.root, ?_⟩
    rw [h.lookup_empty]
    exact h.root

theorem step (h : Filled m k) (hk : k < 64) :
    (makeFile k).Legal m ∧ Filled ((makeFile k).step m) (k + 1) := by
  have ht := h.tidy hk
  obtain ⟨hdir, hbase⟩ := filePath_parts k
  have hlegal : DirPath m (filePath k).dirname := (rootPath ht hdir).2
  refine ⟨hlegal, ?_⟩
  have hmissing : treeLookup m (filePath k) = -ENOENT := by
    unfold treeLookup
    rw [filePath_split, lookupFrom_cons, ht.lookup_empty, if_neg (by decide), lookupFrom_cons,
      h.absent hk]
    rfl
  rcases allocInode_cases m with ⟨-, hfull⟩ | ⟨m₁, i, hi, hic, hless, halloc, hcreated⟩
  · have hal := (h.inodes (k + 1) (by omega)).mp (hfull (k + 1) (by omega))
    omega
  have hik : i = k + 1 := by
    have hgt : ¬ i ≤ k := fun hle => by
      have hal := (h.inodes i hi).mpr hle
      rw [Allocated, hic] at hal
      cases hal
    by_contra hne
    have hal := (h.inodes (k + 1) (by omega)).mp (hless (k + 1) (by omega))
    omega
  have hf := hcreated.fresh
  have h₁ := h.toRooted.create hi hic hf
  have ht₁ := ht.create hi hic hf
  have hlook :=
    (directoryLookup_fresh h.toFormatted hi hic hf h.root (fileName k)).trans (h.absent hk)
  have hentry : ∀ j < 64, nameAt m₁ 2 j = nameAt m 2 j := fun j hj =>
    nameAt_below hf.changed (inodeArea_below hi) (by decide)
      (h.closed 2 j (by decide) (by decide) hj)
  have hfree : ∀ j < 64, m₁ (direntName (pagesGetPage 2) j) = nul ↔ k ≤ j := by
    intro j hj
    rw [← h.free_iff hj]
    exact (nameAt_nil (p := 2)).symm.trans
      ((by rw [hentry j hj] : _ ↔ _).trans (nameAt_nil (p := 2)))
  have hstep : (makeFile k).step m = (directoryPut m₁ (getInode 0) (fileName k) (i : Int)).1 := by
    show (storageMknod m (filePath k) 0o100644).1 = _
    unfold storageMknod
    rw [if_neg (not_not_intro hmissing), if_neg (by decide), halloc]
    dsimp only
    rw [hbase, (rootPath ht₁ hdir).1]
  rw [hstep]
  rcases directoryPut_cases (fileName k) h₁.root_base (by decide) hi with
    ⟨-, hpos | hlong | hused⟩ | ⟨-, -, m', k', hput, hnew⟩
  · rw [hlook] at hpos
    exact absurd hpos (by decide)
  · exact absurd hlong (by simp [fileName])
  · exact absurd ((hfree k hk).mpr (Nat.le_refl k)) (hused k hk)
  rw [hput]
  have hkk : k' = k := by
    have hge := (hfree k' hnew.lt).mp hnew.free
    by_contra hne
    exact hnew.first k (by omega) ((hfree k hk).mpr (Nat.le_refl k))
  rw [hkk] at hnew
  have hal : Allocated m₁ i := by rw [Allocated, hf.inodes i hi, if_pos rfl]
  refine ⟨h₁.put (by decide) (by decide) hi hal hnew (fileName_ne k) (fileName_plain k).1
    (Or.inl (fileName_plain k).2), ?_, ?_⟩
  · intro j hj
    by_cases hjk : j = k
    · have hname : nameAt m' 2 k = (fileName k).take 59 := hnew.strdup (fileName_plain k).1
      rw [hjk, hname, if_pos (Nat.lt_succ_self k)]
      rfl
    · rw [nameAt_entry hnew.changed (header_below hi) (by decide) hk hj (fun hc => hjk hc.2)
        (h₁.closed 2 j (by decide) (by decide) hj), hentry j hj, h.entries j hj]
      have hiff : j < k ↔ j < k + 1 := by omega
      simp only [hiff]
  · intro n hn
    rw [Allocated, inodeBit_header (by decide) hnew.changed hn, hf.inodes n hn]
    by_cases hni : n = i
    · rw [if_pos hni]
      simp only [true_iff]
      omega
    · have hiff : n ≤ k ↔ n ≤ k + 1 := by omega
      rw [if_neg hni, ← hiff]
      exact h.inodes n hn

theorem run (h : Filled m k) {n : Nat} (hn : k + n ≤ 64) :
    AlongNames (fun m op => op.Legal m) m (filesFrom k n) ∧
      Filled (runNameOps m (filesFrom k n)) (k + n) := by
  induction n generalizing m k with
  | zero => exact ⟨trivial, h⟩
  | succ n ih =>
    obtain ⟨hlegal, hnext⟩ := h.step (by omega)
    obtain ⟨hrest, hfilled⟩ := ih hnext (by omega)
    refine ⟨⟨hlegal, hrest⟩, ?_⟩
    rw [Nat.add_right_comm, Nat.add_assoc] at hfilled
    exact hfilled

theorem lost (h : Filled m 64) : treeLookup m Path.root = -ENOENT := by
  have hnone : findName m (pagesGetPage 2) [] = none := by
    cases hfind : findName m (pagesGetPage 2) [] with
    | none => rfl
    | some j =>
      obtain ⟨hj, hsame, -⟩ := findName_some hfind
      have hfree := (h.free_iff hj).mp (by simpa [streq] using hsame)
      omega
  have hlook : directoryLookup m (getInode 0) [] = -ENOENT :=
    directoryLookup_none (by rw [h.root_base, hnone])
  have hsplit : sSplit Path.root.text slash = [[]] := rfl
  unfold treeLookup
  rw [hsplit, lookupFrom_cons, hlook]
  rfl

end Filled

theorem storageInit_filled (m : Image) : Filled (storageInit m) 0 := by
  obtain ⟨m', hinit, hcreated⟩ := storageInit_cases m
  refine ⟨(storageInit_tidy m).toRooted, ?_, ?_⟩
  · intro j hj
    rw [if_neg (Nat.not_lt_zero j), nameAt_nil, hinit]
    have hbyte :=
      byte_below hcreated.changed (inodeArea_below (by decide)) (p := 2) (k := j) (by decide) 0
    simp only [Int.natCast_zero, Int.add_zero] at hbyte
    refine hbyte.trans (byte_pagesInit m ?_ ?_)
    · simp only [direntName, pagesGetPage]
      omega
    · simp only [direntName, pagesGetPage, NUFS_SIZE]
      omega
  · intro n hn
    rw [hinit, Allocated, hcreated.inodes n hn]
    by_cases hn0 : n = 0
    · simp [hn0]
    · rw [if_neg hn0, inodeBit_pagesInit m hn]
      simp [hn0]

/-- The 64th file is the last thing the file system can be asked for. -/
theorem full_root_loses_namespace : ¬ ∀ (m : Image) (ops : List NameOp),
    AlongNames (fun m op => op.Legal m) (storageInit m) ops →
      Namespace (runNameOps (storageInit m) ops) := by
  intro h
  obtain ⟨hlegal, hfilled⟩ := (storageInit_filled fun _ => 0).run (n := 64) (by decide)
  have hroot := (h (fun _ => 0) (filesFrom 0 64) hlegal).root
  rw [hfilled.lost] at hroot
  exact absurd hroot (by decide)

end Cs3650.Nufs
