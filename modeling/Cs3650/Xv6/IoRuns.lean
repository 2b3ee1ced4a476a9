import Cs3650.Xv6.IoStats

/-!
# Counters along the calls (hw09/starter-hw09/xv6: sysfile.c)

Each call either leaves the files in use alone or makes one of the changes that
keep the books.
-/

namespace Cs3650.Xv6

open Cs3650.Lib

variable {k k' : Kernel} {pid : Pid} {s : Slot}

/-! ## The file table -/

theorem fdalloc_cases (k : Kernel) (pid : Pid) (s : Slot) :
    fdalloc k pid s = (k, none) ∨
      ∃ fd, k.ofile pid fd = none ∧ fdalloc k pid s = (k.setOfile pid fd (some s), some fd) := by
  unfold fdalloc
  cases hfind : (List.finRange NOFILE).find? fun fd => (k.ofile pid fd).isNone with
  | none => exact Or.inl rfl
  | some fd =>
    have hnone := List.find?_some hfind
    exact Or.inr ⟨fd, Option.isNone_iff_eq_none.mp hnone, rfl⟩

theorem filealloc_cases (k : Kernel) :
    filealloc k = (k, none) ∨
      ∃ s, freeSlot k = some s ∧ (k.file s).ref = 0 ∧
        filealloc k = (k.setFile s { k.file s with ref := 1 }, some s) := by
  unfold filealloc
  cases hfind : (List.finRange NFILE).find? fun s => (k.file s).ref == 0 with
  | none => exact Or.inl rfl
  | some s =>
    have hfree := List.find?_some hfind
    exact Or.inr ⟨s, hfind, by simpa using hfree, rfl⟩

@[simp]
theorem setFile_self (k : Kernel) (s : Slot) (f : File) : (k.setFile s f).file s = f := by
  simp [Kernel.setFile]

theorem setFile_other (k : Kernel) {s s' : Slot} (f : File) (h : s' ≠ s) :
    (k.setFile s f).file s' = k.file s' := by
  simp [Kernel.setFile, h]

@[simp]
theorem setOfile_file (k : Kernel) (pid : Pid) (fd : Fd) (v : Option Slot) :
    (k.setOfile pid fd v).file = k.file :=
  rfl

theorem fileclose_one (h : (k.file s).ref = 1) :
    fileclose k s = some (k.setFile s { k.file s with ref := 0, type := .none }) := by
  simp [fileclose, h]

theorem fileclose_fresh (k : Kernel) (s : Slot) (f : File) (h : f.ref = 1) :
    fileclose (k.setFile s f) s = some (k.setFile s { f with ref := 0, type := .none }) := by
  rw [fileclose_one (by rw [setFile_self, h])]
  simp [Kernel.setFile]

theorem Idle.returned {f : File} (hfree : (k.file s).ref = 0) (hf : f.ref = 0) :
    Idle k (k.setFile s f) := by
  refine ⟨rfl, fun s' => ?_⟩
  by_cases hs : s' = s
  · rw [hs, setFile_self]
    exact Or.inr ⟨hfree, hf⟩
  · exact Or.inl (setFile_other k f hs)

/-! ## open -/

theorem openInode_frame {found : Found} {omode : Int} {r : Kernel × Nat}
    (h : openInode k found omode = some r) : r.1.file = k.file ∧ r.1.ofile = k.ofile := by
  unfold openInode at h
  split at h
  · cases found with
    | missing => cases h
    | inode ip =>
      simp only [create] at h
      split at h
      · cases h
        exact ⟨rfl, rfl⟩
      · cases h
    | free ip =>
      cases h
      exact ⟨rfl, rfl⟩
  · split at h
    · cases h
    · split at h
      · cases h
      · cases h
        exact ⟨rfl, rfl⟩

theorem sysOpen_cases {found : Found} {omode : Int} {r : Option Fd}
    (h : sysOpen k pid found omode = some (k', r)) : (r = none ∧ Idle k k') ∨
      ∃ fd s f, openInode k found omode ≠ none ∧ r = some fd ∧ freeSlot k = some s ∧
      (k.file s).ref = 0 ∧
        k.ofile pid fd = none ∧
        Sets k k' s f pid fd (some s) ∧ f.ref = 1 ∧ f.readBytes = (k.file s).readBytes ∧
        f.writeBytes = (k.file s).writeBytes := by
  unfold sysOpen at h
  split at h
  · cases h
    exact Or.inl ⟨rfl, Idle.refl k⟩
  · rename_i k₀ ip hopen
    have hframe := openInode_frame hopen
    obtain ⟨hfile, hofile⟩ : k₀.file = k.file ∧ k₀.ofile = k.ofile := hframe
    have hslot : freeSlot k₀ = freeSlot k := by unfold freeSlot; rw [hfile]
    rcases filealloc_cases k₀ with halloc | ⟨s, hs, hfree, halloc⟩
    · rw [halloc] at h
      cases h
      exact Or.inl ⟨rfl, hofile, fun s => Or.inl (by rw [hfile])⟩
    · rw [halloc] at h
      simp only at h
      rcases fdalloc_cases (k₀.setFile s { k₀.file s with ref := 1 }) pid s with hfd
        | ⟨fd, hnone, hfd⟩
      · rw [hfd] at h
        simp only at h
        rw [fileclose_fresh _ _ _ rfl] at h
        cases h
        have hidle : Idle k₀ (k₀.setFile s { k₀.file s with ref := 0, type := .none }) :=
          Idle.returned hfree rfl
        exact Or.inl ⟨rfl, hidle.ofile.trans hofile, fun s' => hfile ▸ hidle.file s'⟩
      · rw [hfd] at h
        cases h
        refine Or.inr ⟨fd, s, { k.file s with
          type := .inode
          ref := 1
          ip := ip
          off := 0
          readable := !hasFlag omode O_WRONLY
          writable := hasFlag omode O_WRONLY || hasFlag omode O_RDWR }, by rw [hopen]; simp,
            rfl, hslot ▸ hs,
          hfile ▸ hfree, hofile ▸ hnone, ⟨?_, ?_⟩, rfl, rfl, rfl⟩
        · rw [setOfile_file, setFile_self, ← hfile]
          exact Function.update_idem _ _ _
        · change Function.update k₀.ofile _ (Function.update (k₀.ofile pid) _ _) = _
          rw [hofile]
          rfl

/-! ## dup and close -/

theorem argfd_some {fd : Int} {r : Fd × Slot} (h : argfd k pid fd = some r) :
    toFd fd = some r.1 ∧ k.ofile pid r.1 = some r.2 := by
  unfold argfd at h
  cases hfd : toFd fd with
  | none => simp [hfd] at h
  | some fd' =>
    rw [hfd] at h
    obtain ⟨s, hs, rfl⟩ := Option.map_eq_some_iff.mp h
    exact ⟨rfl, hs⟩

theorem sysDup_cases {fd : Int} {r : Option Fd} (h : sysDup k pid fd = some (k', r)) :
    (r = none ∧ k' = k) ∨
      ∃ old new s, r = some new ∧ toFd fd = some old ∧ k.ofile pid old = some s ∧
      k.ofile pid new = none ∧
        Sets k k' s { k.file s with ref := (k.file s).ref + 1 } pid new (some s) := by
  unfold sysDup at h
  cases harg : argfd k pid fd with
  | none =>
    rw [harg] at h
    cases h
    exact Or.inl ⟨rfl, rfl⟩
  | some r₀ =>
    obtain ⟨old, s⟩ := r₀
    obtain ⟨hold, hs⟩ := argfd_some harg
    rw [harg] at h
    simp only at h
    rcases fdalloc_cases k pid s with hfd | ⟨new, hnone, hfd⟩
    · rw [hfd] at h
      cases h
      exact Or.inl ⟨rfl, rfl⟩
    · rw [hfd] at h
      obtain ⟨k₂, hdup, hk⟩ := Option.map_eq_some_iff.mp h
      unfold filedup at hdup
      split at hdup
      · cases hdup
      · cases hdup
        cases hk
        exact Or.inr ⟨old, new, s, rfl, hold, hs, hnone, rfl, rfl⟩

theorem sysClose_cases {fd r : Int} (h : sysClose k pid fd = some (k', r)) :
    (r = -1 ∧ k' = k) ∨
      ∃ old s f, r = 0 ∧ toFd fd = some old ∧ k.ofile pid old = some s ∧
      Sets k k' s f pid old none ∧
        ((k.file s).ref = 1 → ¬ 0 < f.ref) ∧
        ((k.file s).ref ≠ 1 → f = { k.file s with ref := (k.file s).ref - 1 }) := by
  unfold sysClose at h
  cases harg : argfd k pid fd with
  | none =>
    rw [harg] at h
    cases h
    exact Or.inl ⟨rfl, rfl⟩
  | some r₀ =>
    obtain ⟨old, s⟩ := r₀
    obtain ⟨hold, hs⟩ := argfd_some harg
    rw [harg] at h
    obtain ⟨k₂, hclose, hk⟩ := Option.map_eq_some_iff.mp h
    cases hk
    unfold fileclose at hclose
    rw [setOfile_file] at hclose
    split at hclose
    · cases hclose
    · split at hclose
      · cases hclose
        refine Or.inr ⟨old, s, _, rfl, hold, hs, ⟨rfl, rfl⟩, fun hone => ?_, fun _ => rfl⟩
        simp only
        omega
      · cases hclose
        refine Or.inr ⟨old, s, _, rfl, hold, hs, ⟨rfl, rfl⟩, fun _ => Int.lt_irrefl 0,
          fun hmore => ?_⟩
        omega

/-! ## pipe -/

theorem filealloc_apart {f : File} (hone : f.ref = 1) {s' : Slot}
    (hfree : ((k.setFile s f).file s').ref = 0) : s' ≠ s ∧ (k.file s').ref = 0 := by
  by_cases hne : s' = s
  · rw [hne, setFile_self, hone] at hfree
    cases hfree
  · rw [setFile_other k f hne] at hfree
    exact ⟨hne, hfree⟩

theorem Idle.returned_two {s' : Slot} {f f' : File} (hofile : k'.ofile = k.ofile)
    (hfile : k'.file = Function.update (Function.update k.file s f) s' f')
    (hfree : (k.file s).ref = 0)
    (hfree' : (k.file s').ref = 0) (hf : f.ref = 0) (hf' : f'.ref = 0) : Idle k k' := by
  refine ⟨hofile, fun r => ?_⟩
  rw [hfile]
  by_cases hr' : r = s'
  · rw [hr', Function.update_self]
    exact Or.inr ⟨hfree', hf'⟩
  · rw [Function.update_of_ne hr']
    by_cases hr : r = s
    · rw [hr, Function.update_self]
      exact Or.inr ⟨hfree, hf⟩
    · rw [Function.update_of_ne hr]
      exact Or.inl rfl

theorem update_twice {t : Slot → File} {s s' : Slot} (h : s' ≠ s) (f f' g g' : File) :
    Function.update (Function.update (Function.update (Function.update t s f) s' f') s g) s' g' =
      Function.update (Function.update t s g) s' g' := by
  have hswap : Function.update (Function.update t s f) s' f' =
      Function.update (Function.update t s' f') s f :=
    Function.update_comm h.symm f f' t
  have hback : Function.update (Function.update t s' f') s g =
      Function.update (Function.update t s g) s' f' :=
    Function.update_comm h f' g t
  rw [hswap, Function.update_idem, hback, Function.update_idem]

theorem setOfile_back {fd : Fd} (v : Option Slot) (hnone : k.ofile pid fd = none) :
    ((k.setOfile pid fd v).setOfile pid fd none).ofile = k.ofile := by
  funext pid' fd'
  rw [setOfile_apply, setOfile_apply]
  split
  · rename_i heq
    cases heq
    exact hnone.symm
  · rfl

theorem setOfile_congr (hofile : k'.ofile = k.ofile) (fd : Fd) (v : Option Slot) :
    (k'.setOfile pid fd v).ofile = (k.setOfile pid fd v).ofile := by
  unfold Kernel.setOfile
  rw [hofile]

theorem close_two (k : Kernel) {s' : Slot} (hne : s' ≠ s) (hs : (k.file s).ref = 1)
    (hs' : (k.file s').ref = 1) :
    ∃ f g, ((fileclose k s).bind fun k => fileclose k s') = some ((k.setFile s f).setFile s' g) ∧
      f.ref = 0 ∧ g.ref = 0 := by
  rw [fileclose_one hs, Option.bind_some, fileclose_one (by rw [setFile_other _ _ hne, hs'])]
  exact ⟨_, _, rfl, rfl, rfl⟩

theorem pipealloc_cases {mem : Bool} {r : Option (Slot × Slot)}
    (h : pipealloc k mem = some (k', r)) : (r = none ∧ Idle k k') ∨
      ∃ rf wf f g, r = some (rf, wf) ∧ wf ≠ rf ∧ (k.file rf).ref = 0 ∧ (k.file wf).ref = 0 ∧
        k'.file = Function.update (Function.update k.file rf f) wf g ∧ k'.ofile = k.ofile ∧
        f.ref = 1 ∧ g.ref = 1 ∧ f.type = .pipe ∧ g.type = .pipe := by
  unfold pipealloc at h
  rcases filealloc_cases k with halloc | ⟨rf, -, hfree, halloc⟩
  · rw [halloc] at h
    cases h
    exact Or.inl ⟨rfl, Idle.refl k⟩
  · rw [halloc] at h
    simp only at h
    rcases filealloc_cases (k.setFile rf { k.file rf with ref := 1 }) with halloc'
      | ⟨wf, -, hfree', halloc'⟩
    · rw [halloc'] at h
      simp only at h
      rw [fileclose_fresh _ _ _ rfl] at h
      cases h
      exact Or.inl ⟨rfl, Idle.returned hfree rfl⟩
    · obtain ⟨hne, hfreeW⟩ := filealloc_apart rfl hfree'
      rw [halloc'] at h
      simp only at h
      split at h
      · cases h
        refine Or.inr ⟨rf, wf, _, _, rfl, hne, hfree, hfreeW, update_twice hne _ _ _ _, rfl, ?_,
          ?_, rfl, rfl⟩
        · rw [setFile_other _ _ hne.symm, setFile_self]
        · rw [setFile_other _ _ hne, setFile_self]
      · obtain ⟨f, g, hclose, hf, hg⟩ := close_two
          ((k.setFile rf { k.file rf with ref := 1 }).setFile wf
            { (k.setFile rf { k.file rf with ref := 1 }).file wf with ref := 1 }) hne
          (by rw [setFile_other _ _ hne.symm, setFile_self]) (by rw [setFile_self])
        rw [hclose] at h
        cases h
        exact Or.inl ⟨rfl, Idle.returned_two rfl (update_twice hne _ _ _ _) hfree hfreeW hf hg⟩

theorem sysPipe_cases {mem : Bool} {r : Option (Fd × Fd)} (h : sysPipe k pid mem = some (k', r)) :
    (r = none ∧ Idle k k') ∨
      ∃ k₁ rf wf fd0 fd1 f g, r = some (fd0, fd1) ∧
        Sets k k₁ rf f pid fd0 (some rf) ∧ (k.file rf).ref = 0 ∧ k.ofile pid fd0 = none ∧
        Sets k₁ k' wf g pid fd1 (some wf) ∧ (k₁.file wf).ref = 0 ∧ k₁.ofile pid fd1 = none ∧
        f.ref = 1 ∧ g.ref = 1 ∧ f.type = .pipe ∧ g.type = .pipe := by
  unfold sysPipe at h
  cases halloc : pipealloc k mem with
  | none =>
    rw [halloc] at h
    cases h
  | some r₁ =>
    obtain ⟨k₁, r₁⟩ := r₁
    rw [halloc] at h
    rcases pipealloc_cases halloc with
      ⟨rfl, hidle⟩ | ⟨rf, wf, f, g, rfl, hne, hfree, hfreeW, hfile, hofile, hf, hg, hftype, hgtype⟩
    · cases h
      exact Or.inl ⟨rfl, hidle⟩
    · have hrf : k₁.file rf = f := by
        rw [hfile, Function.update_of_ne hne.symm, Function.update_self]
      have hwf : k₁.file wf = g := by rw [hfile, Function.update_self]
      simp only at h
      rcases fdalloc_cases k₁ pid rf with hfd | ⟨fd0, hnone, hfd⟩
      · obtain ⟨f', g', hclose, hf', hg'⟩ := close_two k₁ hne (hrf ▸ hf) (hwf ▸ hg)
        rw [hfd] at h
        simp only at h
        rw [hclose] at h
        cases h
        have hback : ((k₁.setFile rf f').setFile wf g').file =
            Function.update (Function.update k.file rf f') wf g' := by
          change Function.update (Function.update k₁.file rf f') wf g' = _
          rw [hfile, update_twice hne]
        exact Or.inl ⟨rfl, Idle.returned_two hofile hback hfree hfreeW hf' hg'⟩
      · rw [hfd] at h
        simp only at h
        rcases fdalloc_cases (k₁.setOfile pid fd0 (some rf)) pid wf with hfd' | ⟨fd1, hnone', hfd'⟩
        · obtain ⟨f', g', hclose, hf', hg'⟩ := close_two
            ((k₁.setOfile pid fd0 (some rf)).setOfile pid fd0 none) hne (hrf ▸ hf) (hwf ▸ hg)
          rw [hfd'] at h
          simp only at h
          rw [hclose] at h
          cases h
          have hback : Function.update (Function.update k₁.file rf f') wf g' =
              Function.update (Function.update k.file rf f') wf g' := by
            rw [hfile, update_twice hne]
          exact Or.inl ⟨rfl, Idle.returned_two ((setOfile_back (some rf) hnone).trans hofile) hback
            hfree hfreeW hf' hg'⟩
        · rw [hfd'] at h
          cases h
          refine Or.inr ⟨(k.setFile rf f).setOfile pid fd0 (some rf), rf, wf, fd0, fd1, f, g, rfl,
            ⟨rfl, rfl⟩, hfree, hofile ▸ hnone, ⟨hfile, ?_⟩, ?_, ?_, hf, hg, hftype, hgtype⟩
          · exact setOfile_congr (setOfile_congr hofile fd0 (some rf)) fd1 (some wf)
          · rw [setOfile_file, setFile_other _ _ hne]
            exact hfreeW
          · rw [← hnone']
            exact congrFun (congrFun (setOfile_congr hofile fd0 (some rf)) pid) fd1 |>.symm

/-! ## read -/

/-- What reads something under `ReadsAll` reads all. -/
theorem readi_all {ip : Inode} {got : Option (List Byte)} {off n : Nat} (h : ReadsAll ip got off n)
    (hpos : 0 < (readi ip got off n).1) : (readi ip got off n).1 = n := by
  unfold readi at hpos ⊢
  unfold ReadsAll at h
  by_cases hdev : ip.type = .dev
  · rw [if_pos hdev] at h hpos ⊢
    split at hpos
    · rename_i hconsole
      rw [if_pos hconsole]
      cases got with
      | none => cases hpos
      | some bytes =>
        simp only [delivered, List.length_take] at hpos ⊢
        have hsome : bytes ≠ [] := by
          rintro rfl
          simp at hpos
        have hle := h hconsole bytes rfl hsome
        omega
    · cases hpos
  · rw [if_neg hdev] at h hpos ⊢
    split at hpos
    · cases hpos
    · rename_i hin
      rw [if_neg hin]
      simp only at hpos ⊢
      split at hpos
      · have hle := h (by omega)
        omega
      · rename_i hfits
        rw [if_neg hfits]

theorem uint_of_lt {x : Nat} (h : x < 2 ^ 32) : uint x = x := Nat.mod_eq_of_lt h

theorem sysRead_cases {fd n : Int} {got : Option (List Byte)} {r : Int × List Byte}
    (h : sysRead k pid fd n got = some (k', r)) (hcounted : (Call.read pid fd n got).Counted k) :
    (r.1 = -1 ∧ k' = k) ∨
      ∃ fd' s f, toFd fd = some fd' ∧ k.ofile pid fd' = some s ∧ Tallies k k' s f r.1.toNat 0 := by
  unfold sysRead at h
  cases harg : argfd k pid fd with
  | none =>
    rw [harg] at h
    cases h
    exact Or.inl ⟨rfl, rfl⟩
  | some r₀ =>
    obtain ⟨fd', s⟩ := r₀
    obtain ⟨hfd, hs⟩ := argfd_some harg
    rw [harg] at h
    simp only at h
    split at h
    · cases h
      exact Or.inl ⟨rfl, rfl⟩
    · unfold fileread at h
      simp only at h
      split at h
      · cases h
        exact Or.inl ⟨rfl, rfl⟩
      · rename_i hreadable
        split at h
        · rename_i htype
          cases h
          refine Or.inr ⟨fd', s, _, hfd, hs, rfl, rfl, rfl, rfl, fun hinode => ?_⟩
          rw [htype] at hinode
          cases hinode
        · rename_i htype
          split at h
          · rename_i hpos
            cases h
            obtain ⟨hall, hrange⟩ := hcounted fd' s harg htype (by simpa using hreadable)
            have hn := readi_all hall hpos
            refine Or.inr ⟨fd', s, _, hfd, hs, rfl, rfl, rfl, rfl, fun _ => ⟨?_, rfl⟩⟩
            rw [hn, uint_of_lt hrange]
            rfl
          · cases h
        · cases h

/-! ## write -/

/-- The offset of the file in the slot `s` moves and inodes change. -/
def Moves (k k' : Kernel) (s : Slot) : Prop :=
  k'.ofile = k.ofile ∧ ∃ off, k'.file = Function.update k.file s { k.file s with off := off }

theorem Moves.refl (k : Kernel) (s : Slot) : Moves k k s :=
  ⟨rfl, (k.file s).off, (Function.update_eq_self s k.file).symm⟩

theorem Moves.trans {k'' : Kernel} (h : Moves k k' s) (h' : Moves k' k'' s) : Moves k k'' s := by
  obtain ⟨hofile, off, hfile⟩ := h
  obtain ⟨hofile', off', hfile'⟩ := h'
  refine ⟨hofile'.trans hofile, off', ?_⟩
  rw [hfile', hfile, Function.update_idem, Function.update_self]

theorem writeChunk_moves (k : Kernel) (s : Slot) (chunk : List Byte) :
    Moves k (writeChunk k s chunk).1 s := by
  unfold writeChunk
  simp only
  split
  · exact ⟨rfl, _, rfl⟩
  · exact Moves.refl k s

theorem writeLoop_moves {fuel : Nat} {rest rest' : List Byte}
    (h : writeLoop s fuel k rest = some (k', rest')) : Moves k k' s := by
  induction fuel generalizing k rest with
  | zero =>
    cases h
    exact Moves.refl _ s
  | succ fuel ih =>
    simp only [writeLoop] at h
    split at h
    · cases h
      exact Moves.refl _ s
    · have hmoves := writeChunk_moves k s (rest.take ((MAXOPBLOCKS - 1 - 1 - 2) / 2 * 512))
      split at h
      · cases h
        exact hmoves
      · split at h
        · cases h
        · exact hmoves.trans (ih h)

/-- `writei` takes all of a chunk of a write that is not refused, and the rest
is not refused either. -/
theorem writei_all {ip : Inode} {rest : List Byte} {off m : Nat} (hrest : rest ≠ [])
    (hall : WritesAll ip rest off) : (writei ip (rest.take m) off).2 = (rest.take m).length ∧
      WritesAll (writei ip (rest.take m) off).1 (rest.drop (rest.take m).length)
        (uint (off + (rest.take m).length)) := by
  have hlen : (rest.take m).length + (rest.drop (rest.take m).length).length = rest.length := by
    simp only [List.length_take, List.length_drop]
    omega
  unfold writei
  rcases hall with hempty | hall
  · exact absurd hempty hrest
  · by_cases hdev : ip.type = .dev
    · rw [if_pos hdev] at hall
      rw [if_pos hdev, if_pos hall]
      exact ⟨rfl, Or.inr (by rw [if_pos hdev]; exact hall)⟩
    · rw [if_neg hdev] at hall
      obtain ⟨hoff, hmax⟩ := hall
      have hsmall : MAXBYTES < 2 ^ 32 := by decide
      rw [if_neg hdev, if_neg (by omega), dif_neg (by omega), uint_of_lt (by omega)]
      refine ⟨rfl, Or.inr ?_⟩
      rw [if_neg hdev]
      simp only [List.length_append]
      rw [List.length_take_of_le hoff]
      omega

/-- What is left after a chunk of a write that is not refused is not refused either. -/
theorem writeChunk_all {rest : List Byte} {m : Nat} (hrest : rest ≠ []) (hm : 0 < m)
    (hall : WritesAll (k.inode (k.file s).ip) rest (k.file s).off) :
    (writeChunk k s (rest.take m)).2 = (rest.take m).length ∧
      WritesAll
        ((writeChunk k s (rest.take m)).1.inode ((writeChunk k s (rest.take m)).1.file s).ip)
        (rest.drop (rest.take m).length) ((writeChunk k s (rest.take m)).1.file s).off := by
  obtain ⟨htook, hleft⟩ := writei_all (m := m) hrest hall
  have hpos : 0 < (rest.take m).length := by
    have hsome := List.length_pos_iff.mpr hrest
    rw [List.length_take]
    omega
  refine ⟨htook, ?_⟩
  have hkernel : (writeChunk k s (rest.take m)).1 =
      (k.setInode (k.file s).ip
        (writei (k.inode (k.file s).ip) (rest.take m) (k.file s).off).1).setFile s
        { k.file s with off := uint ((k.file s).off + (rest.take m).length) } := by
    simp only [writeChunk]
    rw [htook, if_pos (by omega)]
    rfl
  rw [hkernel, setFile_self]
  simp only [Kernel.setFile, Kernel.setInode, Function.update_self]
  exact hleft

theorem writeLoop_all {fuel : Nat} {rest rest' : List Byte} (hfuel : rest.length ≤ fuel)
    (hall : WritesAll (k.inode (k.file s).ip) rest (k.file s).off)
    (h : writeLoop s fuel k rest = some (k', rest')) : rest' = [] := by
  induction fuel generalizing k rest with
  | zero =>
    cases h
    exact List.length_eq_zero_iff.mp (by omega)
  | succ fuel ih =>
    simp only [writeLoop] at h
    split at h
    · rename_i hempty
      cases h
      exact hempty
    · rename_i hrest
      have hpos : 0 < rest.length := List.length_pos_iff.mpr hrest
      obtain ⟨hlen, hall'⟩ :=
        writeChunk_all (m := (MAXOPBLOCKS - 1 - 1 - 2) / 2 * 512) hrest (by decide) hall
      have htake :
          (rest.take ((MAXOPBLOCKS - 1 - 1 - 2) / 2 * 512)).length = min 1536 rest.length :=
        List.length_take
      rw [hlen, if_neg (by omega), if_neg (by simp)] at h
      refine ih ?_ hall' h
      rw [List.length_drop]
      omega

theorem sysWrite_cases {fd : Int} {src : List Byte} {sent : Bool} {r : Int}
    (h : sysWrite k pid fd src sent = some (k', r))
    (hcounted : (Call.write pid fd src sent).Counted k) : (r = -1 ∧ k' = k) ∨
      ∃ fd' s f, toFd fd = some fd' ∧ k.ofile pid fd' = some s ∧ Tallies k k' s f 0 r.toNat := by
  unfold sysWrite at h
  cases harg : argfd k pid fd with
  | none =>
    rw [harg] at h
    cases h
    exact Or.inl ⟨rfl, rfl⟩
  | some r₀ =>
    obtain ⟨fd', s⟩ := r₀
    obtain ⟨hfd, hs⟩ := argfd_some harg
    rw [harg] at h
    simp only at h
    split at h
    · cases h
      exact Or.inl ⟨rfl, rfl⟩
    · unfold filewrite at h
      simp only at h
      split at h
      · cases h
        exact Or.inl ⟨rfl, rfl⟩
      · rename_i hwritable
        split at h
        · rename_i htype
          cases h
          refine Or.inr ⟨fd', s, _, hfd, hs, rfl, rfl, rfl, rfl, fun hinode => ?_⟩
          rw [htype] at hinode
          cases hinode
        · rename_i htype
          cases hloop : writeLoop s src.length k src with
          | none =>
            rw [hloop] at h
            cases h
          | some r₁ =>
            obtain ⟨k₁, rest⟩ := r₁
            obtain ⟨hall, hrange⟩ := hcounted fd' s harg htype (by simpa using hwritable)
            obtain ⟨hofile, off, hfile⟩ := writeLoop_moves hloop
            have hend := writeLoop_all (le_refl _) hall hloop
            rw [hloop] at h
            cases h
            refine Or.inr ⟨fd', s, { k.file s with
              off := off
              writeBytes :=
                uint ((k.file s).writeBytes + src.length) }, hfd, hs, ?_, hofile, rfl, rfl,
              fun _ => ⟨rfl, ?_⟩⟩
            · change Function.update k₁.file s _ = _
              rw [hfile, Function.update_idem, Function.update_self]
            · rw [if_pos hend, uint_of_lt hrange]
              rfl
        · cases h

/-! ## Runs -/

theorem Booked.at_slot {L : Ledger} {inst : Slot → Nat} (h : Booked k L inst) {fd : Int} {fd' : Fd}
    (hfd : toFd fd = some fd') (hs : k.ofile pid fd' = some s) : L.at' pid fd = some (inst s) := by
  unfold Ledger.at'
  rw [hfd, Option.bind_some, h.opened, hs, Option.map_some]

theorem run_booked {L : Ledger} {inst : Slot → Nat} {call : Call} {result : Result}
    (h : Booked k L inst) (hcounted : call.Counted k) (hrun : call.run k = some (k', result)) :
    ∃ inst', Booked k' (L.after call result) inst' := by
  cases call with
  | «open» pid found omode =>
    obtain ⟨⟨k₁, r⟩, hopen, heq⟩ := Option.map_eq_some_iff.mp hrun
    cases heq
    rcases sysOpen_cases hopen with ⟨rfl, hidle⟩
      | ⟨fd, s, f, hinode, rfl, hs, hfree, hnone, hsets, hone, hread, hwrite⟩
    · exact ⟨inst, h.idle hidle⟩
    · obtain ⟨hreadZero, hwriteZero⟩ := hcounted s hs ⟨fd, hnone⟩ hinode
      exact ⟨_, h.enter hsets hfree hnone hone fun _ =>
        ⟨hread.trans hreadZero, hwrite.trans hwriteZero⟩⟩
  | dup pid fd =>
    obtain ⟨⟨k₁, r⟩, hdup, heq⟩ := Option.map_eq_some_iff.mp hrun
    cases heq
    rcases sysDup_cases hdup with ⟨rfl, rfl⟩ | ⟨old, new, s, rfl, hfd, hs, hnone, hsets⟩
    · exact ⟨inst, h⟩
    · have hshared := h.share hsets (h.live hs) hnone
      rw [← h.at_slot hfd hs] at hshared
      exact ⟨inst, hshared⟩
  | read pid fd n got =>
    obtain ⟨⟨k₁, r⟩, hread, heq⟩ := Option.map_eq_some_iff.mp hrun
    cases heq
    rcases sysRead_cases hread hcounted with ⟨hr, rfl⟩ | ⟨fd', s, f, hfd, hs, htallies⟩
    · refine ⟨inst, ?_⟩
      change Booked _ (L.add _ r.1.toNat 0) inst
      rw [hr]
      exact (L.add_zero (L.at' pid fd)).symm ▸ h
    · have htallied := h.tally htallies (h.live hs)
      rw [← h.at_slot hfd hs] at htallied
      exact ⟨inst, htallied⟩
  | write pid fd src sent =>
    obtain ⟨⟨k₁, r⟩, hwrite, heq⟩ := Option.map_eq_some_iff.mp hrun
    cases heq
    rcases sysWrite_cases hwrite hcounted with ⟨hr, rfl⟩ | ⟨fd', s, f, hfd, hs, htallies⟩
    · refine ⟨inst, ?_⟩
      change Booked _ (L.add _ 0 r.toNat) inst
      rw [hr]
      exact (L.add_zero (L.at' pid fd)).symm ▸ h
    · have htallied := h.tally htallies (h.live hs)
      rw [← h.at_slot hfd hs] at htallied
      exact ⟨inst, htallied⟩
  | pipe pid mem =>
    obtain ⟨⟨k₁, r⟩, hpipe, heq⟩ := Option.map_eq_some_iff.mp hrun
    cases heq
    rcases sysPipe_cases hpipe with
      ⟨rfl, hidle⟩ | ⟨k₂, rf, wf, fd0, fd1, f, g, rfl, hsets, hfree, hnone, hsets', hfree', hnone',
        hf, hg, hft, hgt⟩
    · exact ⟨inst, h.idle hidle⟩
    · have hpipe₀ := h.enter hsets hfree hnone hf fun hinode => by
        rw [hft] at hinode
        cases hinode
      have hpipe₁ := hpipe₀.enter hsets' hfree' hnone' hg fun hinode => by
        rw [hgt] at hinode
        cases hinode
      exact ⟨_, hpipe₁⟩
  | close pid fd =>
    obtain ⟨⟨k₁, r⟩, hclose, heq⟩ := Option.map_eq_some_iff.mp hrun
    cases heq
    rcases sysClose_cases hclose with ⟨rfl, rfl⟩ | ⟨old, s, f, rfl, hfd, hs, hsets, hlast, hmore⟩
    · refine ⟨inst, ?_⟩
      simp only [Ledger.after]
      cases toFd fd with
      | none => exact h
      | some _ => exact h
    · have hdropped := h.drop hsets hs hlast hmore
      refine ⟨inst, ?_⟩
      simp only [Ledger.after]
      rw [hfd]
      exact hdropped

theorem runCalls_booked {L L' : Ledger} {inst : Slot → Nat} {calls : List Call}
    (h : Booked k L inst)
    (hcounted : CountedAlong k calls) (hrun : runCalls k L calls = some (k', L')) :
    ∃ inst', Booked k' L' inst' := by
  induction calls generalizing k L inst with
  | nil =>
    cases hrun
    exact ⟨inst, h⟩
  | cons call calls ih =>
    obtain ⟨hcall, hrest⟩ := hcounted
    simp only [runCalls] at hrun
    cases hstep : call.run k with
    | none =>
      rw [hstep] at hrun
      cases hrun
    | some r =>
      obtain ⟨k₁, result⟩ := r
      rw [hstep] at hrun
      obtain ⟨inst₁, hbooked⟩ := run_booked h hcall hstep
      exact ih hbooked (hrest k₁ result hstep) hrun

/-- Along calls that count right, `getiostats` tells the bytes read and written since the open. -/
theorem getiostats_totals {inode : Nat → Inode} {calls : List Call} {k : Kernel} {L : Ledger}
    {pid : Pid} {fd : Int}
    {stat : IoStats} (hrun : runCalls (boot inode) Ledger.empty calls = some (k, L))
    (hcounted : CountedAlong (boot inode) calls) (hstat : sysGetiostats k pid fd = some stat) :
    ∃ file, L.at' pid fd = some file ∧ L.total file = (stat.readBytes, stat.writeBytes) := by
  obtain ⟨inst, hbooked⟩ := runCalls_booked (Booked.start inode) hcounted hrun
  unfold sysGetiostats at hstat
  cases harg : argfd k pid fd with
  | none =>
    rw [harg] at hstat
    cases hstat
  | some r =>
    obtain ⟨fd', s⟩ := r
    obtain ⟨hfd, hs⟩ := argfd_some harg
    rw [harg] at hstat
    simp only [getiostats] at hstat
    split at hstat
    · rename_i htype
      cases hstat
      exact ⟨inst s, hbooked.at_slot hfd hs, hbooked.counts s (hbooked.live hs) htype⟩
    · cases hstat

def initproc : Pid := ⟨0, by decide⟩

def emptyDisk : Nat → Inode := fun _ => newFile

/-- Three bytes are written, and read with room for four. -/
def roomyRead : List Call :=
  [.open initproc (.free 1) 0x202, .write initproc 0 [97, 98, 99] true, .open initproc (.inode 1) 0,
    .read initproc 1 4 none]

/-- The three bytes count as written through the first descriptor. -/
theorem written_counted :
    ∃ k L file, runCalls (boot emptyDisk) Ledger.empty (roomyRead.take 2) = some (k, L) ∧
      L.at' initproc 0 = some file ∧ L.total file = (0, 3) := by
  have hend : (runCalls (boot emptyDisk) Ledger.empty (roomyRead.take 2)).map
      (fun r => sysGetiostats r.1 initproc 0) = some (some ⟨0, 3⟩) := by decide +kernel
  obtain ⟨⟨k, L⟩, hrun, hstat⟩ := Option.map_eq_some_iff.mp hend
  have hopened : ((Call.open initproc (.free 1) 0x202).run (boot emptyDisk)).map
      (fun r => (argfd r.1 initproc 0, r.1.file ⟨0, by decide⟩, (r.1.inode 1).type)) =
      some (some (⟨0, by decide⟩, ⟨0, by decide⟩), ⟨.inode, 1, true, true, 1, 0, 0, 0⟩, .file) := by
    decide +kernel
  have hcounted : CountedAlong (boot emptyDisk) (roomyRead.take 2) := by
    refine ⟨fun _ _ _ _ => ⟨rfl, rfl⟩, fun k₁ result hfirst =>
      ⟨fun fd' s harg _ _ => ?_, fun _ _ _ => trivial⟩⟩
    rw [hfirst, Option.map_some, Option.some.injEq, Prod.mk.injEq, Prod.mk.injEq] at hopened
    obtain ⟨harg', hfile, htype⟩ := hopened
    change (k₁.inode 1).type = .file at htype
    obtain ⟨-, rfl⟩ := Prod.mk.inj (Option.some.inj (harg.symm.trans harg'))
    rw [hfile]
    simp [WritesAll, htype, MAXBYTES]
  obtain ⟨file, hat, htotal⟩ := getiostats_totals hrun hcounted hstat
  exact ⟨k, L, file, hrun, hat, htotal⟩

/-- The read returns three bytes and counts four. -/
theorem roomy_read_counted :
    ¬ ∀ (inode : Nat → Inode) (calls : List Call) (k : Kernel) (L : Ledger) (pid : Pid) (fd : Int)
    (stat : IoStats),
      runCalls (boot inode) Ledger.empty calls = some (k, L) → sysGetiostats k pid fd = some stat →
        ∃ file, L.at' pid fd = some file ∧ L.total file = (stat.readBytes, stat.writeBytes) := by
  intro h
  have hend : (runCalls (boot emptyDisk) Ledger.empty roomyRead).map
      (fun r => (sysGetiostats r.1 initproc 1, (r.2.at' initproc 1).map r.2.total)) =
      some (some ⟨4, 0⟩, some (3, 0)) := by decide +kernel
  obtain ⟨⟨k, L⟩, hrun, heq⟩ := Option.map_eq_some_iff.mp hend
  obtain ⟨hstat, htotals⟩ := Prod.mk.inj heq
  obtain ⟨file, hat, htotal⟩ := h emptyDisk roomyRead k L initproc 1 ⟨4, 0⟩ hrun hstat
  rw [hat, Option.map_some, htotal] at htotals
  cases htotals

end Cs3650.Xv6
