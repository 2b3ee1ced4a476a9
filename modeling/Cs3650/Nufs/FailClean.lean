import Cs3650.Nufs.ResizeEffect

/-!
# Calls that fail

`storage_mknod` takes an inode before it asks for an entry, and gives nothing
back when the directory refuses. `storage_truncate` stores the size whatever the
change of the inode returned, and returns what nobody has set when there is no
change.
-/

namespace Cs3650.Nufs

open Cs3650.Lib

/-! ## Making an inode -/

/-- The directory takes a new entry of the name. -/
def Accepts (m : Image) (dir : Int) (name : Str) : Prop :=
  directoryLookup m dir name ≤ 0 ∧ name.length ≤ 60 ∧
    ∃ k < 64, m (direntName (direntBase m dir) k) = nul

theorem directoryPut_accepts (m : Image) (dir : Int) (name : Str) (inum : Int) :
    Accepts m dir name ∧ (directoryPut m dir name inum).2 = 0 ∨
      ¬ Accepts m dir name ∧ directoryPut m dir name inum = (m, -1) := by
  unfold directoryPut Accepts
  dsimp only
  by_cases hlook : directoryLookup m dir name > 0
  · rw [if_pos hlook]
    exact Or.inr ⟨fun h => absurd h.1 (Int.not_le.mpr hlook), rfl⟩
  by_cases hlen : name.length > 60
  · rw [if_neg hlook, if_pos hlen]
    exact Or.inr ⟨fun h => absurd h.2.1 (Nat.not_le.mpr hlen), rfl⟩
  rw [if_neg hlook, if_neg hlen]
  cases hfind : findEmpty m (direntBase m dir) with
  | none =>
    right
    refine ⟨?_, rfl⟩
    rintro ⟨-, -, k, hk, hfree⟩
    exact findEmpty_none hfind k hk hfree
  | some k =>
    obtain ⟨hk, hfree, -⟩ := findEmpty_some hfind
    exact Or.inl ⟨⟨Int.not_lt.mp hlook, Nat.not_lt.mp hlen, k, hk, hfree⟩, rfl⟩

/-- Something was written to the bitmaps or the inode table, but to no inode in
use and nothing above. -/
structure Opened (m m' : Image) : Prop where
  above : ∀ x, 8192 ≤ x → m' x = m x
  ptrs : ∀ d < 256, Allocated m d → ptr m' d 0 = ptr m d 0
  touched : ¬ Untouched m m'

theorem Opened.of_inode {m m' : Image} {i : Nat} (hi : i < 256)
    (hclear : bit m getInodeBitmap i = false)
    (hchanged : ChangedIn (inodeArea i) m m') (hset : bit m' getInodeBitmap i = true) :
    Opened m m' := by
  refine ⟨inode_above hi hchanged, inode_others hi hchanged hclear, ?_⟩
  intro h
  have hsame : bit m' getInodeBitmap i = bit m getInodeBitmap i := h.bit (by decide) (by decide) hi
  rw [hset, hclear] at hsame
  cases hsame

theorem byte_full {m : Image} {bm : Int} (h : ∀ i < 256, bit m bm i = true) {k : Nat}
    (hk : k < 32) : m (bm + k) = 0xFF := by
  apply BitVec.eq_of_getLsbD_eq
  intro j hj
  rw [← bit_byte m bm k hj, h _ (by omega)]
  have hall : ∀ j < 8, (0xFF : Byte).getLsbD j = true := by decide
  exact (hall j hj).symm

theorem int32_full {m : Image} {bm : Int} (h : ∀ i < 256, bit m bm i = true) {k : Nat}
    (hk : k + 4 ≤ 32) : int32 m (bm + k) = -1 := by
  have hbyte : ∀ j < 4, m (bm + k + (j : Nat)) = BitVec.ofNat 8 (4294967295 / 256 ^ j) := by
    intro j hj
    have haddr : bm + k + (j : Nat) = bm + ((k + j : Nat) : Int) := by omega
    rw [haddr, byte_full h (by omega)]
    have hall : ∀ j < 4, (0xFF : Byte) = BitVec.ofNat 8 (4294967295 / 256 ^ j) := by decide
    exact hall j hj
  unfold int32
  rw [load_digits hbyte]
  decide

/-- Growing the record at 40 by its first page. -/
theorem growInode_record {m : Image} (hdirect : int32 m 52 ≤ 0)
    (hres : bit m getPagesBitmap 0 = true) :
    ChangedIn {x | x ∈ span 0 32 ∨ x ∈ span 52 4} m (growInode 0 m 40 4096).1 := by
  have hslot : (40 : Int) + Inode.dptrs + 4 * ((0 : Nat) : Int) = 52 := rfl
  have hfirst : ∀ m' : Image, inodeGetPnum m' 40 0 = int32 m' 52 := by
    intro m'
    unfold inodeGetPnum
    rw [if_pos (by decide), hslot]
  have hnone : ownedBytes m 40 = 0 := by
    have hcount : pagesOwned m 40 = 0 := by
      apply pagesOwned_eq (Nat.zero_le _) (fun i hi => absurd hi (Nat.not_lt_zero i))
      intro _
      rwa [hfirst]
    unfold ownedBytes
    rw [hcount]
    rfl
  unfold growInode
  rw [if_neg (by decide), Stmt.run_fst]
  rcases growTurn_cases 40 4096 52 (fun m => int32 m 52 ≤ 0) m with
    ⟨hcond, -⟩ | ⟨-, -, hpages, -⟩ | ⟨p, hp, hclear, -, -, -, hturn⟩
  · exact absurd ⟨by omega, by simpa using hdirect⟩ hcond
  · rw [growBody_full hpages]
    exact ChangedIn.refl _ _
  · have hpos : 0 < p := by
      rcases Nat.eq_zero_or_pos p with rfl | hpos
      · rw [hres] at hclear
        cases hclear
      · exact hpos
    generalize hm₁ : setInt32 (bitmapSet m getPagesBitmap p 1) 52 p = m₁ at hturn
    have henough : ownedBytes m₁ 40 ≥ 4096 := by
      have hcount : 1 ≤ pagesOwned m₁ 40 := by
        apply pagesOwned_ge (by decide)
        intro k hk
        obtain rfl : k = 0 := by omega
        rw [hfirst, ← hm₁, int32_setInt32_of_lt _ _ (by omega) (by omega)]
        omega
      unfold ownedBytes
      omega
    rw [if_pos henough] at hturn
    have hbody : growBody 40 4096 m = (m₁, some 0) :=
      Stmt.seq_of_return (Stmt.loop_of_return (by decide) hturn)
    rw [hbody, ← hm₁]
    refine ((changedIn_bitmapSet m getPagesBitmap p 1).mono fun x hx => ?_).trans
      ((changedIn_setInt32 _ _ _).mono fun x hx => Or.inr hx)
    left
    simp only [getPagesBitmap, mem_span] at hx ⊢
    omega

theorem allocInode_full {m : Image} (hfull : ∀ i < 256, bit m getInodeBitmap i = true) :
    allocInode m = (m, -1) := by
  rcases allocInode_cases m with ⟨hnone, -⟩ | ⟨-, i, hi, hclear, -⟩
  · exact hnone
  · rw [hfull i hi] at hclear
    cases hclear

/-- Without a free inode the record is the one before the first, which lies in
the inode bitmap. -/
theorem directoryInit_full {m : Image} (hfull : ∀ i < 256, bit m getInodeBitmap i = true)
    (hres : bit m getPagesBitmap 0 = true) : Opened m (directoryInit m).1 := by
  have hnode : getInode (-1) = 40 := rfl
  generalize hm₂ : setInt32 m (getInode (-1) + Inode.mode) 0o40755 = m₂
  have h₂ : ChangedIn (span 44 4) m m₂ := by
    rw [← hm₂]
    exact changedIn_setInt32 m 44 _
  have hdirect : int32 m₂ 52 ≤ 0 := by
    have hold : int32 m (getInodeBitmap + (20 : Nat)) = -1 := int32_full hfull (by decide)
    rw [h₂.int32 (fun x hx => by simp only [mem_span] at hx ⊢; omega)]
    exact Int.le_trans (Int.le_of_eq hold) (by decide)
  have hbit₂ : bit m₂ getPagesBitmap 0 = true := by
    rw [bit_changedIn h₂ (by simp only [getPagesBitmap, mem_span]; omega)]
    exact hres
  have hgrown := growInode_record hdirect hbit₂
  rw [fst_of_eq (directoryInit_of (allocInode_full hfull)), hm₂, hnode]
  constructor
  · intro x hx
    rw [hgrown, h₂]
    · simp only [mem_span]
      omega
    · simp only [mem_span, Set.mem_ofPred_eq]
      omega
  · intro d hd _
    rw [ptr_changed hgrown (by decide), ptr_changed h₂ (by decide)]
    · simp only [getInode_eq, mem_span]
      omega
    · simp only [getInode_eq, mem_span, Set.mem_ofPred_eq]
      omega
  · -- the mode has fewer bits than the bitmap it lies on
    intro hsame
    have hbefore := byte_full hfull (k := 12) (by decide)
    have hafter : (growInode 0 m₂ 40 4096).1 44 = 0xED := by
      rw [hgrown _ (by simp), ← hm₂]
      have hin :=
        patch_inside m 44 4 (fun i => BitVec.ofNat 8 ((0o40755 % 2 ^ 32 : Int).toNat / 256 ^ i))
          (i := 0) (by decide)
      exact hin
    rw [hsame.tables 44 (by decide) (by decide)] at hafter
    rw [show getInodeBitmap + ((12 : Nat) : Int) = 44 from rfl, hafter] at hbefore
    exact absurd hbefore (by decide)

theorem directoryInit_opened {m : Image} (hres : bit m getPagesBitmap 0 = true) :
    Opened m (directoryInit m).1 := by
  rcases allocInode_cases m with ⟨-, hfull⟩ | ⟨m₁, i, hi, hclear, -, halloc, hnew⟩
  · exact directoryInit_full hfull hres
  by_cases hroom : ∃ p < 256, bit m getPagesBitmap p = false
  · obtain ⟨p₀, hp₀, hfree⟩ := hroom
    obtain ⟨m', i', p, hi', hclear', -, -, -, -, hinit, hdir⟩ :=
      directoryInit_cases hi hclear hp₀ hfree hres
    rw [hinit]
    exact Opened.of_inode hi' hclear' hdir.changed (by rw [hdir.inodes i' hi', if_pos rfl])
  · -- the directory stays without a page
    have h₂ := changedIn_setInt32 m₁ (getInode i + Inode.mode) 0o40755
    have hpages :
        ∀ p < 256, bit (setInt32 m₁ (getInode i + Inode.mode) 0o40755) getPagesBitmap p = true := by
      intro p hp
      rw [bit_changedIn h₂, bit_changedIn hnew.changed]
      · by_contra hset
        exact hroom ⟨p, hp, by simpa using hset⟩
      · simp only [getPagesBitmap, getInode_eq, mem_span, Set.mem_ofPred_eq]
        omega
      · simp only [getPagesBitmap, getInode_eq, Inode.mode, mem_span]
        omega
    have hsame : (directoryInit m).1 = setInt32 m₁ (getInode i + Inode.mode) 0o40755 := by
      rw [fst_of_eq (directoryInit_of halloc)]
      unfold growInode
      rw [if_neg (by decide), Stmt.run_fst, growBody_full hpages]
    rw [hsame]
    apply Opened.of_inode hi hclear
    · refine (hnew.changed.mono fun x hx => Or.inr hx).trans (h₂.mono fun x hx => ?_)
      right; right
      simp only [Inode.mode, mem_span] at hx ⊢
      omega
    · rw [bit_changedIn h₂, hnew.inodes i hi, if_pos rfl]
      simp only [getInodeBitmap, getInode_eq, Inode.mode, mem_span]
      omega

theorem allocInode_opened (m : Image) :
    (allocInode m = (m, -1) ∧ ∀ i < 256, bit m getInodeBitmap i = true) ∨
      (∃ i < 256, bit m getInodeBitmap i = false) ∧ Opened m (allocInode m).1 := by
  rcases allocInode_cases m with hfull | ⟨m₁, i, hi, hclear, -, halloc, hnew⟩
  · exact Or.inl hfull
  · right
    rw [halloc]
    exact ⟨⟨i, hi, hclear⟩, Opened.of_inode hi hclear (hnew.changed.mono fun x hx => Or.inr hx)
      (by rw [hnew.inodes i hi, if_pos rfl])⟩

theorem Opened.accepts {m m' : Image} (h : Opened m m') {path : Path} (hparent : ParentSound m path)
    (name : Str) : treeLookup m' path.dirname = treeLookup m path.dirname ∧
      (Accepts m' (getInode (treeLookup m path.dirname)) name ↔
        Accepts m (getInode (treeLookup m path.dirname)) name) := by
  obtain ⟨hlook, hpage⟩ := hparent.2.lookup_above h.above h.ptrs
  obtain ⟨d, p, hd, hlt, hal, h2, -, hp⟩ := hpage.nat
  have hparent : treeLookup m path.dirname = d := hd
  have hptr := h.ptrs d hlt hal
  have hfree : ∀ k :
      Nat, m' (direntName (pagesGetPage p) k) = m (direntName (pagesGetPage p) k) := by
    intro k
    apply h.above
    simp only [direntName, pagesGetPage]
    omega
  refine ⟨hlook, ?_⟩
  unfold Accepts
  rw [hparent, directoryLookup_above h.above hp h2 hptr, direntBase_eq, direntBase_eq, hptr, hp]
  simp only [hfree]

/-! ## Making a file or a directory -/

/-- A call that fails has changed nothing. -/
def MknodClean (m : Image) (path : Path) (mode : Int) : Prop :=
  (storageMknod m path mode).2 < 0 → Untouched m (storageMknod m path mode).1

/-- The path is there already, there is no inode to take for a file, or the
directory will not refuse. -/
def MknodSafe (m : Image) (path : Path) (mode : Int) : Prop :=
  treeLookup m path ≠ -ENOENT ∨
    (hasDirBit mode = false ∧ ∀ i < 256, bit m getInodeBitmap i = true) ∨
      ParentSound m path ∧ Accepts m (getInode (treeLookup m path.dirname)) path.basename

instance (m : Image) (dir : Int) (name : Str) : Decidable (Accepts m dir name) :=
  inferInstanceAs (Decidable (_ ∧ _ ∧ ∃ k < 64, _))

instance (m : Image) (path : Path) (mode : Int) : Decidable (MknodSafe m path mode) :=
  inferInstanceAs (Decidable (_ ∨ _ ∨ _))

theorem storageMknod_cases {m : Image} {path : Path} (mode : Int)
    (habsent : treeLookup m path = -ENOENT) (hres : bit m getPagesBitmap 0 = true) :
    (hasDirBit mode = false ∧ (∀ i < 256, bit m getInodeBitmap i = true) ∧
      storageMknod m path mode =
        directoryPut m (getInode (treeLookup m path.dirname)) path.basename (-1)) ∨
    ∃ m' inum, Opened m m' ∧
      storageMknod m path mode =
        directoryPut m' (getInode (treeLookup m' path.dirname)) path.basename inum := by
  have hmknod : storageMknod m path mode =
      directoryPut (if hasDirBit mode then directoryInit m else allocInode m).1
        (getInode
          (treeLookup (if hasDirBit mode then directoryInit m else allocInode m).1 path.dirname))
        path.basename (if hasDirBit mode then directoryInit m else allocInode m).2 := by
    unfold storageMknod
    rw [if_neg (not_not.mpr habsent)]
  cases hmode : hasDirBit mode with
  | true =>
    rw [hmode, if_pos rfl] at hmknod
    exact Or.inr ⟨_, _, directoryInit_opened hres, hmknod⟩
  | false =>
    rw [hmode, if_neg (by decide)] at hmknod
    rcases allocInode_opened m with ⟨hnone, hfull⟩ | ⟨-, hopened⟩
    · rw [hnone] at hmknod
      exact Or.inl ⟨rfl, hfull, hmknod⟩
    · exact Or.inr ⟨_, _, hopened, hmknod⟩

theorem MknodSafe.clean {m : Image} {path : Path} {mode : Int} (h : MknodSafe m path mode) :
    MknodClean m path mode := by
  intro hneg
  by_cases habsent : treeLookup m path = -ENOENT
  · rcases h with hthere | ⟨hfile, hfull⟩ | ⟨hparent, haccepts⟩
    · exact absurd habsent hthere
    · have hnone : storageMknod m path mode =
          directoryPut m (getInode (treeLookup m path.dirname)) path.basename (-1) := by
        rcases allocInode_opened m with ⟨hnone, -⟩ | ⟨⟨i, hi, hclear⟩, -⟩
        · unfold storageMknod
          rw [if_neg (not_not.mpr habsent), hfile, if_neg (by decide), hnone]
        · rw [hfull i hi] at hclear
          cases hclear
      rw [hnone] at hneg ⊢
      rcases directoryPut_accepts m (getInode (treeLookup m path.dirname)) path.basename (-1) with
        ⟨-, hok⟩ | ⟨-, hput⟩
      · omega
      · rw [hput]
        exact Untouched.refl m
    · -- accepted, so the call has not failed
      have hok : (storageMknod m path mode).2 = 0 := by
        rcases storageMknod_cases mode habsent hparent.1 with ⟨-, -, hmknod⟩
          | ⟨m', inum, hopened, hmknod⟩
        · rw [hmknod]
          rcases directoryPut_accepts m (getInode (treeLookup m path.dirname))
            path.basename (-1) with
            ⟨-, hok⟩ | ⟨hnot, -⟩
          · exact hok
          · exact absurd haccepts hnot
        · obtain ⟨hdir, hsame⟩ := hopened.accepts hparent path.basename
          rw [hmknod, hdir]
          rcases directoryPut_accepts m' (getInode (treeLookup m path.dirname))
            path.basename inum with
            ⟨-, hok⟩ | ⟨hnot, -⟩
          · exact hok
          · exact absurd (hsame.mpr haccepts) hnot
      omega
  · have hthere : storageMknod m path mode = (m, -EEXIST) := if_pos habsent
    rw [hthere]
    exact Untouched.refl m

/-- Under a parent directory with a page, nothing else is clean. -/
theorem MknodClean.safe {m : Image} {path : Path} {mode : Int} (hparent : ParentSound m path)
    (h : MknodClean m path mode) : MknodSafe m path mode := by
  by_cases habsent : treeLookup m path = -ENOENT
  · right
    rcases storageMknod_cases mode habsent hparent.1 with ⟨hfile, hfull, -⟩
      | ⟨m', inum, hopened, hmknod⟩
    · exact Or.inl ⟨hfile, hfull⟩
    · right
      refine ⟨hparent, ?_⟩
      obtain ⟨hdir, hsame⟩ := hopened.accepts hparent path.basename
      unfold MknodClean at h
      rw [hmknod, hdir] at h
      rcases directoryPut_accepts m' (getInode (treeLookup m path.dirname)) path.basename inum with
        ⟨haccepts, -⟩ | ⟨-, hput⟩
      · exact hsame.mp haccepts
      · have hneg : (-1 : Int) < 0 := by decide
        rw [hput] at h
        exact absurd (h hneg) hopened.touched
  · exact Or.inl habsent

/-- In every state that the operations reach. -/
theorem run_mknod_clean (m : Image) (ops : List StoreOp) (path : Path) (mode : Int) :
    (MknodSafe (runStoreOps (storageInit m) ops) path mode →
      MknodClean (runStoreOps (storageInit m) ops) path mode) ∧
    (ParentSound (runStoreOps (storageInit m) ops) path →
      MknodClean (runStoreOps (storageInit m) ops) path mode →
        MknodSafe (runStoreOps (storageInit m) ops) path mode) :=
  ⟨MknodSafe.clean, MknodClean.safe⟩

theorem new_file_clean : MknodClean (runStoreOps (storageInit fun _ => 0) [])
    ⟨[slash, 0x61], rfl, by decide⟩ 0o100644 :=
  (run_mknod_clean (fun _ => 0) [] ⟨[slash, 0x61], rfl, by decide⟩ 0o100644).1 (by decide +kernel)

/-- A name of 61 bytes is refused after the inode has been taken. -/
theorem long_name_keeps_inode : ¬ ∀ (m : Image) (ops : List StoreOp) (path : Path) (mode : Int),
    DirPath (runStoreOps (storageInit m) ops) path.dirname →
      MknodClean (runStoreOps (storageInit m) ops) path mode := by
  intro h
  have hsame := h (fun _ => 0) [] ⟨slash :: List.replicate 61 0x61, rfl, by decide⟩ 0o100644
    (by decide +kernel) (by decide +kernel)
  have hbyte := hsame.tables 32 (by decide) (by decide)
  have hdiff : (storageMknod (runStoreOps (storageInit fun _ => 0) [])
      ⟨slash :: List.replicate 61 0x61, rfl, by decide⟩ 0o100644).1 32 ≠
        runStoreOps (storageInit fun _ => 0) [] 32 := by decide +kernel
  exact hdiff hbyte

/-! ## Changing a size -/

/-- A truncation or a write that fails has changed nothing, and a truncation to
the same size succeeds. -/
def FailsClean (m : Image) : StoreOp → Prop
  | .truncate path size junk =>
    ((storageTruncate junk m path size).2 < 0 → Untouched m (storageTruncate junk m path size).1) ∧
      ∀ i : Nat, treeLookup m path = i → fileSize m i = size →
      (storageTruncate junk m path size).2 = 0
  | .write path buf offset junk =>
    (storageWrite junk m path buf offset).2 < 0 →
      Untouched m (storageWrite junk m path buf offset).1
  | _ => True

/-- The path is missing, or the size changes to one that there are pages for. A
write needs its path once more after that. -/
def OpFits (m : Image) : StoreOp → Prop
  | .truncate path size _ => treeLookup m path < 0 ∨
      ∃ i : Nat, treeLookup m path = i ∧ i < 256 ∧ fileSize m i ≠ size ∧
        (size < fileSize m i → 0 ≤ toInt size) ∧ (fileSize m i < size → GrowFits m i (toInt size))
  | .write path buf offset _ => treeLookup m path < 0 ∨
      ∃ i : Nat, treeLookup m path = i ∧ i < 256 ∧ buf.length < 2 ^ 31 ∧
        (fileSize m i = toOff (offset + buf.length) ∨
          Resizable m i (toOff (offset + buf.length)) ∧ ApartPath m i path ∧
            KeepsDirs m i (toOff (offset + buf.length)))
  | _ => True

theorem resize_zero {m : Image} {i : Nat} {size : Int} (hi : i < 256) (hne : fileSize m i ≠ size)
    (hless : size < fileSize m i → 0 ≤ toInt size)
    (hmore : fileSize m i < size → GrowFits m i (toInt size))
    (junk : Int) : (resize junk m i size).2 = 0 := by
  unfold resize
  by_cases h : fileSize m i > size
  · rw [if_pos h]
    exact shrinkInode_zero junk m _ (hless h)
  · have hlt : fileSize m i < size := by omega
    rw [if_neg h, if_pos hlt]
    exact growInode_fits hi junk (hmore hlt)

theorem toInt_length {n : Nat} (h : n < 2 ^ 31) : toInt n = n := by
  unfold toInt
  rw [Int.bmod_def]
  omega

theorem storageWrite_kept {junk : Int} {m m₁ : Image} {path : Path} {buf : Str} {offset rv : Int}
    (htruncate : storageTruncate junk m path (toOff (offset + buf.length)) = (m₁, rv))
    (hkept : rv < 0 → m₁ = m) (hlook : 0 ≤ rv → 0 ≤ treeLookup m₁ path) (hlen : buf.length < 2 ^ 31)
    (hneg : (storageWrite junk m path buf offset).2 < 0) :
    (storageWrite junk m path buf offset).1 = m := by
  rcases storageWrite_cases junk m path buf offset htruncate with
    ⟨hrv, hwrite⟩ | ⟨hrv, hmissing, -⟩ | ⟨-, -, hwrite⟩
  · rw [hwrite]
    exact hkept hrv
  · exact absurd (hlook hrv) (Int.not_le.mpr hmissing)
  · rw [hwrite] at hneg
    dsimp only at hneg
    rw [toInt_length hlen] at hneg
    exact absurd (Int.natCast_nonneg _) (Int.not_le.mpr hneg)

theorem truncate_clean {m : Image} {path : Path} {size junk : Int}
    (h : OpFits m (.truncate path size junk)) : FailsClean m (.truncate path size junk) := by
  rcases h with hmissing | ⟨i, hlook, hi, hne, hless, hmore⟩
  · constructor
    · intro _
      rw [storageTruncate_missing junk hmissing]
      exact Untouched.refl m
    · intro i hlook
      rw [hlook] at hmissing
      exact absurd (Int.natCast_nonneg i) (Int.not_le.mpr hmissing)
  · have hok : (storageTruncate junk m path size).2 = 0 :=
      (snd_of_eq (storageTruncate_at junk hlook size)).trans (resize_zero hi hne hless hmore junk)
    constructor
    · intro hneg
      rw [hok] at hneg
      exact absurd hneg (Int.lt_irrefl 0)
    · intro i' hlook' hsize
      have heq : i = i' := Int.ofNat_inj.mp (hlook.symm.trans hlook')
      rw [← heq] at hsize
      exact absurd hsize hne

theorem write_kept {m : Image} {path : Path} {buf : Str} {offset junk : Int}
    (h : OpFits m (.write path buf offset junk))
    (hneg : (storageWrite junk m path buf offset).2 < 0) :
    (storageWrite junk m path buf offset).1 = m := by
  rcases h with hmissing | ⟨i, hlook, hi, hlen, hsame⟩
  · have htruncate := storageTruncate_missing junk hmissing (toOff (offset + buf.length))
    rcases storageWrite_cases junk m path buf offset htruncate with ⟨-, hwrite⟩
      | ⟨hrv, -⟩ | ⟨hrv, -⟩
    · exact congrArg Prod.fst hwrite
    · exact absurd hrv (Int.not_le.mpr hmissing)
    · exact absurd hrv (Int.not_le.mpr hmissing)
  have hnonneg : 0 ≤ treeLookup m path := by
    rw [hlook]
    exact Int.natCast_nonneg i
  by_cases hsize : fileSize m i = toOff (offset + buf.length)
  · exact storageWrite_kept (storageTruncate_same junk hlook hsize) (fun _ => rfl)
      (fun _ => hnonneg) hlen hneg
  · obtain ⟨hresize, hpath, hkeeps⟩ := hsame.resolve_left hsize
    refine storageWrite_kept (storageTruncate_at junk hlook _) (fun hrv => ?_)
      (fun _ => ?_) hlen hneg
    · rw [hresize.ok hi junk hsize] at hrv
      exact absurd hrv (Int.lt_irrefl 0)
    · rw [hresize.lookup hi hlook hpath hkeeps junk]
      exact Int.natCast_nonneg i

theorem OpFits.clean {m : Image} {op : StoreOp} (h : OpFits m op) : FailsClean m op := by
  cases op with
  | truncate path size junk => exact truncate_clean h
  | write path buf offset junk =>
    intro hneg
    rw [write_kept h hneg]
    exact Untouched.refl m
  | mknod => trivial
  | link => trivial
  | unlink => trivial
  | rename => trivial

/-- In every state that the operations reach. -/
theorem run_fails_clean (m : Image) (ops : List StoreOp) {op : StoreOp}
    (h : OpFits (runStoreOps (storageInit m) ops) op) :
    FailsClean (runStoreOps (storageInit m) ops) op :=
  h.clean

/-- After a truncation to 100 bytes, one to 50. -/
theorem truncate_twice_clean : FailsClean (runStoreOps (storageInit fun _ => 0)
    [.mknod ⟨[slash, 0x61], rfl, by decide⟩ 0o100644,
      .truncate ⟨[slash, 0x61], rfl, by decide⟩ 100 0])
    (.truncate ⟨[slash, 0x61], rfl, by decide⟩ 50 0) :=
  run_fails_clean _ _ (Or.inr ⟨1, by decide +kernel, by decide, by decide +kernel,
    fun _ => by decide, fun hmore => absurd hmore (by decide +kernel)⟩)

/-- A size past the largest is refused and stored. -/
theorem refused_size_stored : ¬ ∀ (m : Image) (ops : List StoreOp) (op : StoreOp),
    FailsClean (runStoreOps (storageInit m) ops) op := by
  intro h
  have hsame := (h (fun _ => 0) [.mknod ⟨[slash, 0x61], rfl, by decide⟩ 0o100644]
    (.truncate ⟨[slash, 0x61], rfl, by decide⟩ 4202497 0)).1 (by decide +kernel)
  have hbyte := hsame.tables 96 (by decide) (by decide)
  have hdiff :
      (storageTruncate 0 (runStoreOps (storageInit fun _ => 0)
        [.mknod ⟨[slash, 0x61], rfl, by decide⟩ 0o100644])
        ⟨[slash, 0x61], rfl, by decide⟩ 4202497).1 96 ≠
      runStoreOps (storageInit fun _ => 0)
        [.mknod ⟨[slash, 0x61], rfl, by decide⟩ 0o100644] 96 := by
    decide +kernel
  exact hdiff hbyte

end Cs3650.Nufs
